import Mathlib.Algebra.BigOperators.Group.Finset.Basic
import Mathlib.Algebra.GroupWithZero.Nat
import Mathlib.Data.List.AList

/-!
# Hash tables

A hash table is an association list without repeated keys.  `get` and `touch` are
the two halves of an `operator[]` that inserts a default value under a key that
is not there: what it refers to, and what it leaves behind.
-/

namespace Library

abbrev Table (κ ν : Type*) := AList fun _ : κ => ν

namespace Table

variable {κ ν : Type*} [DecidableEq κ]

def get (m : Table κ ν) (d : ν) (k : κ) : ν := (m.lookup k).getD d

def touch (m : Table κ ν) (d : ν) (k : κ) : Table κ ν := if k ∈ m then m else m.insert k d

theorem get_of_lookup {m : Table κ ν} {d v : ν} {k : κ} (h : m.lookup k = some v) :
    m.get d k = v := by
  rw [get, h, Option.getD_some]

theorem get_of_notMem {m : Table κ ν} {d : ν} {k : κ} (h : k ∉ m) : m.get d k = d := by
  rw [get, AList.lookup_eq_none.mpr h, Option.getD_none]

theorem lookup_of_mem {m : Table κ ν} {d : ν} {k : κ} (h : k ∈ m) :
    m.lookup k = some (m.get d k) := by
  obtain ⟨v, hv⟩ := Option.isSome_iff_exists.mp (AList.lookup_isSome.mpr h)
  rw [hv, get_of_lookup hv]

theorem lookup_insert (m : Table κ ν) (k k' : κ) (v : ν) :
    (m.insert k v).lookup k' = if k' = k then some v else m.lookup k' := by
  by_cases h : k' = k
  · rw [if_pos h, h, AList.lookup_insert]
  · rw [if_neg h, AList.lookup_insert_ne h]

theorem lookup_erase (m : Table κ ν) (k k' : κ) :
    (m.erase k).lookup k' = if k' = k then none else m.lookup k' := by
  by_cases h : k' = k
  · rw [if_pos h, h, AList.lookup_erase]
  · rw [if_neg h, AList.lookup_erase_ne h]

@[simp] theorem get_insert (m : Table κ ν) (d v : ν) (k k' : κ) :
    get (m.insert k v) d k' = if k' = k then v else m.get d k' := by
  rw [get, lookup_insert]
  split <;> rfl

@[simp] theorem get_touch (m : Table κ ν) (d : ν) (k k' : κ) :
    (m.touch d k).get d k' = m.get d k' := by
  rw [touch]
  split
  · rfl
  case isFalse h =>
    rw [get_insert]
    split
    case isTrue hk => rw [hk, get_of_notMem h]
    case isFalse => rfl

/-- A sum over the entries, as a sum over the keys. -/
theorem sum_entries (m : Table κ ν) (d : ν) (f : ν → Nat) :
    (m.entries.map fun e => f e.2).sum = m.keys.toFinset.sum fun k => f (m.get d k) := by
  rw [List.sum_toFinset _ m.keys_nodup, AList.keys, List.keys, List.map_map]
  refine congrArg List.sum (List.map_congr_left fun e he => ?_)
  have hlookup : m.lookup e.1 = some e.2 := AList.mem_lookup_iff.mpr he
  rw [Function.comp_apply, get_of_lookup hlookup]

section Map

variable {ρ : Type*} (f : ν → ρ)

omit [DecidableEq κ] in
def mapValues (m : Table κ ν) : Table κ ρ :=
  ⟨m.entries.map (.map id fun _ => f), List.NodupKeys.map₂ (fun _ => f) _ m.nodupKeys⟩

theorem lookup_mapValues (m : Table κ ν) (k : κ) : (m.mapValues f).lookup k = (m.lookup k).map f :=
  List.dlookup_map₂ k

end Map

end Table
end Library
