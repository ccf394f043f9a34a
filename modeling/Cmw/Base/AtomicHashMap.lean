import Cmw.Library.Ordered
import Mathlib.Algebra.Group.Nat.Defs
import Mathlib.Data.List.Basic
import Mathlib.Logic.Function.Basic
import Mathlib.Order.Lattice
import Mathlib.Order.Nat

/-!
# The hash map

base/atmoic_hash_map.h, as one thread uses it.  A bucket is a list of entries in the order
of their keys, here without the head that it starts with.  Nothing is ever taken out.
-/

namespace Cmw
namespace Base

/-- The types that may be keys, and their values as a `uint64_t`. -/
class Integral (K : Type) extends LinearOrder K where
  word : K → BitVec 64

instance : Integral (BitVec 64) where
  word := id

namespace Entries

variable {K V : Type} [LinearOrder K]

/-- `Has(key)` of a bucket -/
def has (key : K) : List (K × V) → Bool
  | [] => false
  | target :: rest => if target.1 < key then has key rest else target.1 == key

/-- `Find(key, &prev, &target)`: the entries up to `prev`, and those from `target` on. -/
def find (key : K) : List (K × V) → Bool × List (K × V) × List (K × V)
  | [] => (false, [], [])
  | target :: rest =>
      if target.1 = key then (true, [], target :: rest)
      else if key < target.1 then (false, [], target :: rest)
      else
        let (found, before, after) := find key rest
        (found, target :: before, after)

/-- `Insert(key, value)` -/
def insert (key : K) (value : V) (entries : List (K × V)) : List (K × V) :=
  match find key entries with
  | (true, before, target :: after) => before ++ (target.1, value) :: after
  | (_, before, after) => before ++ (key, value) :: after

/-- `Get(key, &value)` -/
def get (key : K) (entries : List (K × V)) : Option V :=
  match find key entries with
  | (true, _, target :: _) => some target.2
  | _ => none

def Sorted (entries : List (K × V)) : Prop := entries.Pairwise fun a b => a.1 < b.1

variable {key k : K} {value : V} {target : K × V} {rest : List (K × V)}

theorem get_nil : get key ([] : List (K × V)) = none := rfl

theorem get_cons : get key (target :: rest) =
    if target.1 = key then some target.2
    else if key < target.1 then none
    else get key rest := by
  by_cases heq : target.1 = key
  · simp only [get, find, heq, if_true]
  · by_cases hlt : key < target.1
    · simp only [get, find, heq, hlt, if_true, if_false]
    · simp only [get, find, heq, hlt, if_false]
      rcases find key rest with ⟨found, before, after⟩
      cases found <;> cases after <;> rfl

theorem insert_cons : insert key value (target :: rest) =
    if target.1 = key then (target.1, value) :: rest
    else if key < target.1 then (key, value) :: target :: rest
    else target :: insert key value rest := by
  by_cases heq : target.1 = key
  · simp only [insert, find, heq, if_true, List.nil_append]
  · by_cases hlt : key < target.1
    · simp only [insert, find, heq, hlt, if_true, if_false, List.nil_append]
    · simp only [insert, find, heq, hlt, if_false]
      rcases find key rest with ⟨found, before, after⟩
      cases found <;> cases after <;> rfl

theorem forall_mem_insert {P : K → Prop} {entries : List (K × V)} (hkey : P key)
    (h : ∀ e ∈ entries, P e.1) : ∀ e ∈ insert key value entries, P e.1 := by
  induction entries with
  | nil => exact List.forall_mem_singleton.mpr hkey
  | cons target rest ih =>
      obtain ⟨htarget, hrest⟩ := List.forall_mem_cons.mp h
      rw [insert_cons]
      split
      · exact List.forall_mem_cons.mpr ⟨htarget, hrest⟩
      · split
        · exact List.forall_mem_cons.mpr ⟨hkey, h⟩
        · exact List.forall_mem_cons.mpr ⟨htarget, ih hrest⟩

theorem sorted_insert {entries : List (K × V)} (h : Sorted entries) (key : K) (value : V) :
    Sorted (insert key value entries) := by
  induction entries with
  | nil => exact List.pairwise_singleton _ _
  | cons target rest ih =>
      obtain ⟨htarget, hrest⟩ := List.pairwise_cons.mp h
      rw [insert_cons]
      split
      case isTrue => exact List.pairwise_cons.mpr ⟨htarget, hrest⟩
      case isFalse hne =>
        split
        case isTrue hlt =>
          refine List.pairwise_cons.mpr ⟨List.forall_mem_cons.mpr ⟨hlt, fun e he => ?_⟩, h⟩
          exact hlt.trans (htarget e he)
        case isFalse hge =>
          have hlt : target.1 < key := lt_of_le_of_ne (not_lt.mp hge) hne
          exact List.pairwise_cons.mpr ⟨forall_mem_insert hlt htarget, ih hrest⟩

theorem get_eq_none_of_lt {entries : List (K × V)} (h : ∀ e ∈ entries, key < e.1) :
    get key entries = none := by
  cases entries with
  | nil => rfl
  | cons target rest =>
      have hlt := h target List.mem_cons_self
      rw [get_cons, if_neg hlt.ne', if_pos hlt]

theorem get_insert {entries : List (K × V)} (h : Sorted entries) (key k : K) (value : V) :
    get k (insert key value entries) = if k = key then some value else get k entries := by
  induction entries with
  | nil =>
      show get k [(key, value)] = _
      rw [get_cons, get_nil]
      by_cases hk : k = key
      · rw [if_pos hk.symm, if_pos hk]
      · rw [if_neg (Ne.symm hk), if_neg hk, ite_self]
  | cons target rest ih =>
      obtain ⟨htarget, hrest⟩ := List.pairwise_cons.mp h
      rw [insert_cons]
      split
      case isTrue heq =>
        rw [get_cons, get_cons]
        by_cases hk : k = key
        · rw [if_pos (heq.trans hk.symm), if_pos hk]
        · have hne : target.1 ≠ k := fun ht => hk (ht.symm.trans heq)
          rw [if_neg hne, if_neg hk, if_neg hne]
      case isFalse hne =>
        split
        case isTrue hlt =>
          rw [get_cons]
          by_cases hk : k = key
          · rw [if_pos hk.symm, if_pos hk]
          · rw [if_neg (Ne.symm hk), if_neg hk]
            split
            case isTrue hkk =>
              refine (get_eq_none_of_lt (List.forall_mem_cons.mpr ⟨hkk.trans hlt, fun e he => ?_⟩)).symm
              exact (hkk.trans hlt).trans (htarget e he)
            case isFalse => rfl
        case isFalse hge =>
          rw [get_cons, get_cons, ih hrest]
          by_cases hk : k = key
          · subst hk
            rw [if_neg hne, if_neg hge, if_pos rfl, if_pos rfl]
          · rw [if_neg hk, if_neg hk]

theorem has_eq {entries : List (K × V)} (h : Sorted entries) (key : K) :
    has key entries = (get key entries).isSome := by
  induction entries with
  | nil => rfl
  | cons target rest ih =>
      obtain ⟨htarget, hrest⟩ := List.pairwise_cons.mp h
      rw [has, get_cons]
      rcases lt_trichotomy target.1 key with hlt | heq | hgt
      · rw [if_pos hlt, if_neg hlt.ne, if_neg hlt.not_gt, ih hrest]
      · rw [heq, if_neg (lt_irrefl key), if_pos rfl, beq_self_eq_true, Option.isSome_some]
      · rw [if_neg hgt.not_gt, if_neg hgt.ne', if_pos hgt, beq_eq_false_iff_ne.mpr hgt.ne']
        rfl

end Entries

structure Bucket (K V : Type) [LinearOrder K] where
  entries : List (K × V)
  sorted : Entries.Sorted entries

def Bucket.new {K V : Type} [LinearOrder K] : Bucket K V where
  entries := []
  sorted := .nil

/-- A table of `2 ^ m` buckets. -/
structure AtomicHashMap (K V : Type) [Integral K] (m : Nat) where
  table : Nat → Bucket K V := fun _ => .new

namespace AtomicHashMap

variable {K V : Type} [Integral K] {m : Nat}

/-- `key & mode_num_` -/
def index (m : Nat) (key : K) : Nat := (Integral.word key).toNat &&& (2 ^ m - 1)

def has (h : AtomicHashMap K V m) (key : K) : Bool := Entries.has key (h.table (index m key)).entries

def get (h : AtomicHashMap K V m) (key : K) : Option V :=
  Entries.get key (h.table (index m key)).entries

def set (h : AtomicHashMap K V m) (key : K) (value : V) : AtomicHashMap K V m where
  table := Function.update h.table (index m key)
    { entries := Entries.insert key value (h.table (index m key)).entries
      sorted := Entries.sorted_insert (h.table (index m key)).sorted key value }

/-- The bucket of a key is one of the table. -/
theorem index_lt (m : Nat) (key : K) : index m key < 2 ^ m := by
  rw [index, Nat.and_two_pow_sub_one_eq_mod]
  exact Nat.mod_lt _ (Nat.two_pow_pos m)

@[simp] theorem get_new (key : K) : ({} : AtomicHashMap K V m).get key = none := rfl

theorem get_set (h : AtomicHashMap K V m) (key k : K) (value : V) :
    (h.set key value).get k = if k = key then some value else h.get k := by
  rw [get, set]
  dsimp only
  by_cases hindex : index m k = index m key
  · rw [hindex, Function.update_self]
    dsimp only
    rw [Entries.get_insert (h.table (index m key)).sorted, get, hindex]
  · have hk : k ≠ key := fun heq => hindex (congrArg _ heq)
    rw [Function.update_of_ne hindex, if_neg hk, get]

theorem has_eq (h : AtomicHashMap K V m) (key : K) : h.has key = (h.get key).isSome :=
  Entries.has_eq (h.table (index m key)).sorted key

end AtomicHashMap

end Base
end Cmw
