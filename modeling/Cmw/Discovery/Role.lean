import Cmw.Config.RoleAttributes
import Cmw.Library.Table

/-!
# Roles and warehouses

The roles of discovery/role and the two containers of discovery/container that
hold them.  A warehouse is over the class of the roles in it, since `Match` is
virtual: a node is compared by three attributes, a writer or a reader by five.
-/

namespace Cmw
namespace Discovery

open Config
open Library

structure RoleBase where
  attributes : RoleAttributes
  timestampNs : BitVec 64
  deriving DecidableEq, Repr

def RoleBase.matchAttr (role : RoleBase) (target : RoleAttributes) : Bool :=
  if target.nodeId ≠ role.attributes.nodeId then false
  else if target.processId ≠ role.attributes.processId then false
  else if target.hostName ≠ role.attributes.hostName then false
  else true

def RoleBase.isEarlierThan (role other : RoleBase) : Bool := role.timestampNs < other.timestampNs

abbrev RoleNode := RoleBase

structure RoleWriter extends RoleBase where
  deriving DecidableEq, Repr

def RoleWriter.matchAttr (role : RoleWriter) (target : RoleAttributes) : Bool :=
  if target.channelId ≠ role.attributes.channelId then false
  else if target.id ≠ role.attributes.id then false
  else role.toRoleBase.matchAttr target

abbrev RoleReader := RoleWriter

/-- What a warehouse calls on its roles. -/
class Role (ρ : Type) where
  attributes : ρ → RoleAttributes
  matchAttr : ρ → RoleAttributes → Bool

instance : Role RoleBase := ⟨RoleBase.attributes, RoleBase.matchAttr⟩

instance : Role RoleWriter := ⟨fun role => role.attributes, RoleWriter.matchAttr⟩

theorem RoleBase.matchAttr_iff {role : RoleBase} {target : RoleAttributes} :
    role.matchAttr target = true ↔ target.nodeId = role.attributes.nodeId ∧
      target.processId = role.attributes.processId ∧
        target.hostName = role.attributes.hostName := by
  simp only [matchAttr]
  split <;> simp_all

theorem RoleWriter.matchAttr_iff {role : RoleWriter} {target : RoleAttributes} :
    role.matchAttr target = true ↔ target.channelId = role.attributes.channelId ∧
      target.id = role.attributes.id ∧ target.nodeId = role.attributes.nodeId ∧
        target.processId = role.attributes.processId ∧
          target.hostName = role.attributes.hostName := by
  rw [← RoleBase.matchAttr_iff]
  simp only [matchAttr]
  split <;> simp_all

/-- `std::unordered_multimap<uint64_t, RolePtr>` -/
abbrev MultiValueWarehouse (ρ : Type) := List (BitVec 64 × ρ)

namespace MultiValueWarehouse

variable {ρ : Type} [Role ρ]

/-- `Add(key, role)`, with `ignore_if_exist` as it is by default. -/
def add (w : MultiValueWarehouse ρ) (key : BitVec 64) (role : ρ) : MultiValueWarehouse ρ :=
  w ++ [(key, role)]

def remove (w : MultiValueWarehouse ρ) (key : BitVec 64) (role : ρ) : MultiValueWarehouse ρ :=
  w.filter fun item => !(item.1 == key && Role.matchAttr item.2 (Role.attributes role))

/-- `Search(target_attr, &roles)` -/
def searchAttr (w : MultiValueWarehouse ρ) (target : RoleAttributes) : List ρ :=
  (w.filter fun item => Role.matchAttr item.2 target).map Prod.snd

omit [Role ρ] in
theorem mem_add {w : MultiValueWarehouse ρ} {key : BitVec 64} {role : ρ} {item : BitVec 64 × ρ} :
    item ∈ w.add key role ↔ item ∈ w ∨ item = (key, role) := by
  rw [add, List.mem_append, List.mem_singleton]

theorem mem_remove {w : MultiValueWarehouse ρ} {key : BitVec 64} {role : ρ} {item : BitVec 64 × ρ} :
    item ∈ w.remove key role ↔
      item ∈ w ∧ ¬(item.1 = key ∧ Role.matchAttr item.2 (Role.attributes role) = true) := by
  rw [remove, List.mem_filter]
  refine and_congr_right fun _ => ?_
  rw [Bool.not_eq_true', ← Bool.not_eq_true, Bool.and_eq_true, beq_iff_eq]

end MultiValueWarehouse

/-- `std::unordered_map<uint64_t, RolePtr>` -/
abbrev SingleValueWarehouse (ρ : Type) := Table (BitVec 64) ρ

namespace SingleValueWarehouse

variable {ρ : Type} [Role ρ]

def add (w : SingleValueWarehouse ρ) (key : BitVec 64) (role : ρ) (ignoreIfExist : Bool) :
    Bool × SingleValueWarehouse ρ :=
  if !ignoreIfExist && decide (key ∈ w) then (false, w) else (true, w.insert key role)

def removeKey (w : SingleValueWarehouse ρ) (key : BitVec 64) : SingleValueWarehouse ρ := w.erase key

def search (w : SingleValueWarehouse ρ) (key : BitVec 64) : Option ρ := w.lookup key

/-- `Search(target_attr, &roles)` -/
def searchAttr (w : SingleValueWarehouse ρ) (target : RoleAttributes) : List ρ :=
  (w.entries.filter fun item => Role.matchAttr item.2 target).map Sigma.snd

end SingleValueWarehouse

end Discovery
end Cmw
