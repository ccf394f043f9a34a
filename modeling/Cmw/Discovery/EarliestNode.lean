import Cmw.Discovery.TopoLeave
import Mathlib.Data.List.MinMax

/-!
# The node that is kept

`DisposeJoin` of discovery/specific_manager/node_manager.cpp, for nodes of one id.  Of two nodes it
keeps the earlier one, whichever comes first, so that in the end there is the earliest of all:
`lookup_deliver` says that delivering messages is a minimum.
-/

namespace Cmw
namespace Discovery

open Config
open Library

namespace NodeManager

def nodeOf (msg : ChangeMsg) : RoleNode :=
  { attributes := msg.roleAttr, timestampNs := msg.timestamp }

/-- What is kept under the id of a node that joins. -/
def keep (existing : Option RoleNode) (node : RoleNode) : RoleNode :=
  match existing with
  | none => node
  | some old => if node.isEarlierThan old then node else old

def deliver (m : NodeManager) (msgs : List ChangeMsg) : NodeManager :=
  Run.exec (fun m msg => (m.dispose msg).1) m msgs

/-- The message joins a node with this id. -/
def Joins (id : BitVec 64) (msg : ChangeMsg) : Prop :=
  msg.operateType = OperateType.optJoin.word ∧ msg.roleAttr.nodeId = id

theorem not_earlier_self (node : RoleNode) : ¬node.isEarlierThan node = true :=
  fun h => Nat.lt_irrefl _ (of_decide_eq_true h)

theorem not_earlier_keep (existing : Option RoleNode) (node : RoleNode) :
    ¬node.isEarlierThan (keep existing node) = true := by
  cases existing with
  | none => exact not_earlier_self node
  | some old =>
      rw [keep]
      split
      · exact not_earlier_self node
      case isFalse hlater => exact hlater

theorem disposeJoin_eq (m : NodeManager) (msg : ChangeMsg) :
    m.disposeJoin msg =
      match m.nodes.lookup msg.roleAttr.nodeId with
      | none => { m with nodes := m.nodes.insert msg.roleAttr.nodeId (nodeOf msg) }
      | some old =>
          if (nodeOf msg).isEarlierThan old then
            { m with nodes := m.nodes.insert msg.roleAttr.nodeId (nodeOf msg) }
          else m := by
  by_cases hmem : msg.roleAttr.nodeId ∈ m.nodes
  · obtain ⟨old, hold⟩ := Option.isSome_iff_exists.mp (AList.lookup_isSome.mpr hmem)
    simp only [disposeJoin, SingleValueWarehouse.add_of_mem hmem, SingleValueWarehouse.search, hold,
      SingleValueWarehouse.add_true]
    rfl
  · rw [AList.lookup_eq_none.mpr hmem]
    simp only [disposeJoin, SingleValueWarehouse.add_of_notMem hmem]
    rfl

theorem lookup_disposeJoin (m : NodeManager) (msg : ChangeMsg) (key : BitVec 64) :
    (m.disposeJoin msg).nodes.lookup key =
      if key = msg.roleAttr.nodeId then some (keep (m.nodes.lookup key) (nodeOf msg))
      else m.nodes.lookup key := by
  have hinsert : (m.nodes.insert msg.roleAttr.nodeId (nodeOf msg)).lookup key =
      if key = msg.roleAttr.nodeId then some (nodeOf msg) else m.nodes.lookup key :=
    Table.lookup_insert m.nodes msg.roleAttr.nodeId key (nodeOf msg)
  rw [disposeJoin_eq]
  split
  case h_1 hnone =>
    refine hinsert.trans ?_
    split
    case isTrue hkey => rw [hkey, hnone, keep]
    case isFalse => rfl
  case h_2 old hold =>
    split
    case isTrue hearlier =>
      refine hinsert.trans ?_
      split
      case isTrue hkey => rw [hkey, hold, keep, if_pos hearlier]
      case isFalse => rfl
    case isFalse hlater =>
      split
      case isTrue hkey => rw [hkey, hold, keep, if_neg hlater]
      case isFalse => rfl

/-- The node of the least of the messages. -/
theorem lookup_deliver {m : NodeManager} {id : BitVec 64} (hnew : id ∉ m.nodes)
    {msgs : List ChangeMsg} (hjoin : ∀ msg ∈ msgs, Joins id msg) :
    (m.deliver msgs).nodes.lookup id =
      (msgs.argmin fun msg => msg.timestamp.toNat).map nodeOf := by
  induction msgs using List.reverseRecOn with
  | nil => exact AList.lookup_eq_none.mpr hnew
  | append_singleton msgs msg ih =>
      obtain ⟨hold, hlast⟩ := List.forall_mem_append.mp hjoin
      obtain ⟨hopt, hid⟩ := List.forall_mem_singleton.mp hlast
      rw [deliver, Run.exec_append, Run.exec_cons, Run.exec_nil, dispose]
      dsimp only
      rw [if_pos hopt, lookup_disposeJoin, if_pos hid.symm, ← deliver, ih hold, List.argmin_concat]
      cases hleast : msgs.argmin fun msg => msg.timestamp.toNat with
      | none => rfl
      | some least =>
          show some (if (nodeOf msg).isEarlierThan (nodeOf least) then nodeOf msg else nodeOf least) =
            (if msg.timestamp.toNat < least.timestamp.toNat then some msg else some least).map nodeOf
          by_cases hlt : msg.timestamp.toNat < least.timestamp.toNat
          · have hearlier : (nodeOf msg).isEarlierThan (nodeOf least) = true := decide_eq_true hlt
            rw [if_pos hlt, if_pos hearlier]
            rfl
          · have hearlier : ¬(nodeOf msg).isEarlierThan (nodeOf least) = true :=
              fun h => hlt (of_decide_eq_true h)
            rw [if_neg hlt, if_neg hearlier]
            rfl

theorem lookup_deliver_ne {m : NodeManager} {id key : BitVec 64} (hkey : key ≠ id)
    {msgs : List ChangeMsg} (hjoin : ∀ msg ∈ msgs, Joins id msg) :
    (m.deliver msgs).nodes.lookup key = m.nodes.lookup key := by
  induction msgs using List.reverseRecOn with
  | nil => rfl
  | append_singleton msgs msg ih =>
      obtain ⟨hold, hlast⟩ := List.forall_mem_append.mp hjoin
      obtain ⟨hopt, hid⟩ := List.forall_mem_singleton.mp hlast
      rw [deliver, Run.exec_append, Run.exec_cons, Run.exec_nil, dispose]
      dsimp only
      rw [if_pos hopt, lookup_disposeJoin, if_neg (hid ▸ hkey), ← deliver, ih hold]

/-- Of nodes that join with one id and at different times, delivered in any order where there is no
such node yet, the earliest is stored; so every order leaves the same nodes. -/
theorem earliest_stored {m : NodeManager} {id : BitVec 64} (hnew : id ∉ m.nodes)
    {msgs : List ChangeMsg} (hjoin : ∀ msg ∈ msgs, Joins id msg)
    (hdistinct : (msgs.map ChangeMsg.timestamp).Nodup) :
    (∀ msg ∈ msgs, (∀ other ∈ msgs, msg.timestamp ≤ other.timestamp) →
      (m.deliver msgs).nodes.lookup id = some (nodeOf msg)) ∧
    ∀ msgs', msgs'.Perm msgs → ∀ key,
      (m.deliver msgs').nodes.lookup key = (m.deliver msgs).nodes.lookup key := by
  have hinj : ∀ a ∈ msgs, ∀ b ∈ msgs, a.timestamp.toNat = b.timestamp.toNat → a = b :=
    fun a ha b hb heq => List.inj_on_of_nodup_map hdistinct ha hb (BitVec.eq_of_toNat_eq heq)
  have hleast : ∀ msgs' : List ChangeMsg, msgs'.Perm msgs → ∀ msg ∈ msgs,
      (∀ other ∈ msgs, msg.timestamp ≤ other.timestamp) →
      (m.deliver msgs').nodes.lookup id = some (nodeOf msg) := by
    intro msgs' hperm msg hmem hle
    have hjoin' : ∀ msg ∈ msgs', Joins id msg := fun msg h => hjoin msg (hperm.mem_iff.mp h)
    rw [lookup_deliver hnew hjoin']
    cases hargmin : msgs'.argmin fun msg => msg.timestamp.toNat with
    | none =>
        have hmem' := hperm.mem_iff.mpr hmem
        rw [List.argmin_eq_none.mp hargmin] at hmem'
        exact absurd hmem' List.not_mem_nil
    | some least =>
        have hleast : least ∈ msgs := hperm.mem_iff.mp (List.argmin_mem hargmin)
        have hle' : least.timestamp.toNat ≤ msg.timestamp.toNat :=
          List.le_of_mem_argmin (f := fun msg : ChangeMsg => msg.timestamp.toNat)
            (hperm.mem_iff.mpr hmem) hargmin
        have hsame : least = msg :=
          hinj least hleast msg hmem (Nat.le_antisymm hle' (hle least hleast))
        rw [hsame]
        rfl
  refine ⟨hleast msgs (List.Perm.refl msgs), fun msgs' hperm key => ?_⟩
  have hjoin' : ∀ msg ∈ msgs', Joins id msg := fun msg h => hjoin msg (hperm.mem_iff.mp h)
  by_cases hkey : key = id
  · subst hkey
    cases hargmin : msgs.argmin fun msg => msg.timestamp.toNat with
    | none =>
        have hnil := List.argmin_eq_none.mp hargmin
        rw [hnil, List.perm_nil] at hperm
        rw [hperm, hnil]
    | some least =>
        have hmem := List.argmin_mem hargmin
        have hle : ∀ other ∈ msgs, least.timestamp ≤ other.timestamp := fun other hother =>
          List.le_of_mem_argmin (f := fun msg : ChangeMsg => msg.timestamp.toNat) hother hargmin
        rw [hleast msgs' hperm least hmem hle, hleast msgs (List.Perm.refl msgs) least hmem hle]
  · rw [lookup_deliver_ne hkey hjoin', lookup_deliver_ne hkey hjoin]

/-- Two messages, the later one first. -/
def laterFirst : List ChangeMsg :=
  [5, 3].map fun timestamp =>
    { ChangeMsg.init (fun _ _ => 0) with
      timestamp, operateType := OperateType.optJoin.word
      roleAttr := { RoleAttributes.init (fun _ _ => 0) with nodeId := 7 } }

theorem earliest_stored_laterFirst :
    (∀ msg ∈ laterFirst, (∀ other ∈ laterFirst, msg.timestamp ≤ other.timestamp) →
      ((new [] 1).deliver laterFirst).nodes.lookup 7 = some (nodeOf msg)) ∧
    ∀ msgs', msgs'.Perm laterFirst → ∀ key, ((new [] 1).deliver msgs').nodes.lookup key =
      ((new [] 1).deliver laterFirst).nodes.lookup key :=
  earliest_stored (AList.notMem_empty _) (by simp [laterFirst, Joins]) (by decide)

end NodeManager

end Discovery
end Cmw
