import Cmw.Discovery.SpecificManager
import Cmw.Library.Run

/-!
# The four warehouses of a channel manager

A writer or a reader is stored twice, under its node and under its channel.  A
leaving reader is looked for under its channel in both warehouses, so it stays
with its node unless the two keys are one.
-/

namespace Cmw
namespace Discovery

open Config
open Library

/-- The side a message is about: everything but a writer is taken for a reader. -/
def sideOf (msg : ChangeMsg) : Side :=
  if msg.roleType = RoleType.roleWriter.word then .src else .dst

def roleOf (msg : ChangeMsg) : RoleWriter :=
  { attributes := msg.roleAttr, timestampNs := msg.timestamp }

namespace MultiValueWarehouse

variable {ρ : Type} [Role ρ]

def others (w : MultiValueWarehouse ρ) (target : RoleAttributes) : MultiValueWarehouse ρ :=
  w.filter fun item => !Role.matchAttr item.2 target

theorem mem_others {w : MultiValueWarehouse ρ} {target : RoleAttributes} {item : BitVec 64 × ρ} :
    item ∈ w.others target ↔ item ∈ w ∧ ¬Role.matchAttr item.2 target = true := by
  rw [others, List.mem_filter, Bool.not_eq_true', Bool.not_eq_true]

theorem remove_eq_others {w : MultiValueWarehouse ρ} {key : BitVec 64} {role : ρ}
    (h : ∀ item ∈ w, Role.matchAttr item.2 (Role.attributes role) = true → item.1 = key) :
    w.remove key role = w.others (Role.attributes role) := by
  refine List.filter_congr fun item hitem => ?_
  cases hm : Role.matchAttr item.2 (Role.attributes role) with
  | false => simp
  | true => simp [h item hitem hm]

theorem others_others (w : MultiValueWarehouse ρ) (target : RoleAttributes) :
    (w.others target).others target = w.others target := by
  rw [others, others, List.filter_filter]
  simp

theorem others_eq_self {w : MultiValueWarehouse ρ} {target : RoleAttributes}
    (h : ∀ item ∈ w, ¬Role.matchAttr item.2 target = true) : w.others target = w := by
  refine List.filter_eq_self.mpr fun item hitem => ?_
  simp [h item hitem]

end MultiValueWarehouse

namespace ChannelManager

def step (m : ChannelManager) (msg : ChangeMsg) : ChannelManager := (m.dispose msg).1

def nodeRoles (m : ChannelManager) : Side → MultiValueWarehouse RoleWriter
  | .src => m.nodeWriters
  | .dst => m.nodeReaders

def channelRoles (m : ChannelManager) : Side → MultiValueWarehouse RoleWriter
  | .src => m.channelWriters
  | .dst => m.channelReaders

/-- The key under which a leaving role is looked for among the nodes. -/
def leaveKey (msg : ChangeMsg) : BitVec 64 :=
  match sideOf msg with
  | .src => msg.roleAttr.nodeId
  | .dst => msg.roleAttr.channelId

theorem step_join {m : ChannelManager} {msg : ChangeMsg}
    (h : msg.operateType = OperateType.optJoin.word) : m.step msg = m.disposeJoin msg := by
  rw [step, dispose, if_pos h]

theorem step_leave {m : ChannelManager} {msg : ChangeMsg}
    (h : msg.operateType ≠ OperateType.optJoin.word) : m.step msg = m.disposeLeave msg := by
  rw [step, dispose, if_neg h]

theorem nodeRoles_disposeJoin (m : ChannelManager) (msg : ChangeMsg) (side : Side) :
    (m.disposeJoin msg).nodeRoles side =
      if side = sideOf msg then (m.nodeRoles side).add msg.roleAttr.nodeId (roleOf msg)
      else m.nodeRoles side := by
  by_cases h : msg.roleType = RoleType.roleWriter.word <;> cases side <;>
    simp [disposeJoin, nodeRoles, sideOf, roleOf, h]

theorem channelRoles_disposeJoin (m : ChannelManager) (msg : ChangeMsg) (side : Side) :
    (m.disposeJoin msg).channelRoles side =
      if side = sideOf msg then (m.channelRoles side).add msg.roleAttr.channelId (roleOf msg)
      else m.channelRoles side := by
  by_cases h : msg.roleType = RoleType.roleWriter.word <;> cases side <;>
    simp [disposeJoin, channelRoles, sideOf, roleOf, h]

theorem nodeRoles_disposeLeave (m : ChannelManager) (msg : ChangeMsg) (side : Side) :
    (m.disposeLeave msg).nodeRoles side =
      if side = sideOf msg then (m.nodeRoles side).remove (leaveKey msg) (roleOf msg)
      else m.nodeRoles side := by
  by_cases h : msg.roleType = RoleType.roleWriter.word <;> cases side <;>
    simp [disposeLeave, nodeRoles, sideOf, leaveKey, roleOf, h]

theorem channelRoles_disposeLeave (m : ChannelManager) (msg : ChangeMsg) (side : Side) :
    (m.disposeLeave msg).channelRoles side =
      if side = sideOf msg then (m.channelRoles side).remove msg.roleAttr.channelId (roleOf msg)
      else m.channelRoles side := by
  by_cases h : msg.roleType = RoleType.roleWriter.word <;> cases side <;>
    simp [disposeLeave, channelRoles, sideOf, roleOf, h]

/-- The two warehouses of each side hold the same roles, each under its own key. -/
structure InStep (m : ChannelManager) : Prop where
  nodeKeys : ∀ side, ∀ item ∈ m.nodeRoles side, item.1 = item.2.attributes.nodeId
  channelKeys : ∀ side, ∀ item ∈ m.channelRoles side, item.1 = item.2.attributes.channelId
  agree : ∀ side r, (r.attributes.nodeId, r) ∈ m.nodeRoles side ↔
    (r.attributes.channelId, r) ∈ m.channelRoles side

/-- After a role has left: no role that matches it is stored anywhere, and the
roles that do not are as they were. -/
structure Gone (m m' : ChannelManager) (attr : RoleAttributes) : Prop where
  nodes : ∀ side, ∀ item ∈ m'.nodeRoles side, ¬item.2.matchAttr attr = true
  channels : ∀ side, ∀ item ∈ m'.channelRoles side, ¬item.2.matchAttr attr = true
  otherNodes : ∀ side, (m'.nodeRoles side).others attr = (m.nodeRoles side).others attr
  otherChannels : ∀ side, (m'.channelRoles side).others attr = (m.channelRoles side).others attr

def StepRight (m : ChannelManager) (msg : ChangeMsg) : Prop :=
  (m.step msg).InStep ∧
    (msg.operateType ≠ OperateType.optJoin.word → m.Gone (m.step msg) msg.roleAttr)

/-- A leaving reader that is stored has one key for its node and its channel, and
no role of the other kind has the attributes of the leaving one. -/
def LeaveClear (m : ChannelManager) (msg : ChangeMsg) : Prop :=
  msg.operateType ≠ OperateType.optJoin.word →
    (sideOf msg = .dst → ∀ item ∈ m.nodeReaders, item.2.matchAttr msg.roleAttr = true →
      msg.roleAttr.nodeId = msg.roleAttr.channelId) ∧
    ∀ item ∈ m.channelRoles (sideOf msg).other, ¬item.2.matchAttr msg.roleAttr = true

theorem forall_mem_add {w : MultiValueWarehouse RoleWriter} {key : BitVec 64} {r : RoleWriter}
    {P : BitVec 64 × RoleWriter → Prop} (h : ∀ item ∈ w, P item) (hadded : P (key, r)) :
    ∀ item ∈ w.add key r, P item := by
  intro item hitem
  rcases MultiValueWarehouse.mem_add.mp hitem with hitem | rfl
  · exact h item hitem
  · exact hadded

theorem inStep_join {m : ChannelManager} (h : m.InStep) (msg : ChangeMsg) :
    (m.disposeJoin msg).InStep where
  nodeKeys := by
    intro side
    rw [nodeRoles_disposeJoin]
    split
    · exact forall_mem_add (h.nodeKeys side) rfl
    · exact h.nodeKeys side
  channelKeys := by
    intro side
    rw [channelRoles_disposeJoin]
    split
    · exact forall_mem_add (h.channelKeys side) rfl
    · exact h.channelKeys side
  agree := by
    intro side r
    rw [nodeRoles_disposeJoin, channelRoles_disposeJoin]
    split
    · rw [MultiValueWarehouse.mem_add, MultiValueWarehouse.mem_add, h.agree]
      refine or_congr_right ⟨fun heq => ?_, fun heq => ?_⟩
      · rw [(Prod.mk.inj heq).2]
        rfl
      · rw [(Prod.mk.inj heq).2]
        rfl
    · exact h.agree side r

theorem side_eq_or (side side' : Side) : side = side' ∨ side = side'.other := by
  cases side <;> cases side' <;> decide

theorem side_other_ne (side : Side) : side.other ≠ side := by
  cases side <;> decide

theorem roles_of_leaveClear {m : ChannelManager} (h : m.InStep) {msg : ChangeMsg}
    (hleave : msg.operateType ≠ OperateType.optJoin.word) (hclear : m.LeaveClear msg)
    (side : Side) :
    (m.disposeLeave msg).nodeRoles side = (m.nodeRoles side).others msg.roleAttr ∧
      (m.disposeLeave msg).channelRoles side = (m.channelRoles side).others msg.roleAttr := by
  obtain ⟨hreader, hother⟩ := hclear hleave
  rw [nodeRoles_disposeLeave, channelRoles_disposeLeave]
  rcases side_eq_or side (sideOf msg) with hside | hside
  · rw [if_pos hside, if_pos hside]
    constructor
    · refine MultiValueWarehouse.remove_eq_others fun item hitem hmatch => ?_
      have hnode : msg.roleAttr.nodeId = item.1 :=
        (RoleWriter.matchAttr_iff.mp hmatch).2.2.1.trans (h.nodeKeys side item hitem).symm
      rw [← hnode, leaveKey]
      cases hs : sideOf msg with
      | src => rfl
      | dst =>
          rw [hside, hs] at hitem
          exact hreader hs item hitem hmatch
    · refine MultiValueWarehouse.remove_eq_others fun item hitem hmatch => ?_
      exact (h.channelKeys side item hitem).trans (RoleWriter.matchAttr_iff.mp hmatch).1.symm
  · have hne : side ≠ sideOf msg := hside ▸ side_other_ne (sideOf msg)
    rw [if_neg hne, if_neg hne, hside]
    constructor
    · refine (MultiValueWarehouse.others_eq_self fun item hitem => ?_).symm
      obtain ⟨key, r⟩ := item
      obtain rfl : key = r.attributes.nodeId := h.nodeKeys _ _ hitem
      exact hother (r.attributes.channelId, r) ((h.agree _ r).mp hitem)
    · exact (MultiValueWarehouse.others_eq_self hother).symm

theorem inStep_leave {m : ChannelManager} (h : m.InStep) {msg : ChangeMsg}
    (hleave : msg.operateType ≠ OperateType.optJoin.word) (hclear : m.LeaveClear msg) :
    (m.disposeLeave msg).InStep where
  nodeKeys := by
    intro side item hitem
    rw [(roles_of_leaveClear h hleave hclear side).1] at hitem
    exact h.nodeKeys side item (MultiValueWarehouse.mem_others.mp hitem).1
  channelKeys := by
    intro side item hitem
    rw [(roles_of_leaveClear h hleave hclear side).2] at hitem
    exact h.channelKeys side item (MultiValueWarehouse.mem_others.mp hitem).1
  agree := by
    intro side r
    obtain ⟨hnode, hchannel⟩ := roles_of_leaveClear h hleave hclear side
    rw [hnode, hchannel, MultiValueWarehouse.mem_others, MultiValueWarehouse.mem_others, h.agree]

theorem gone_leave {m : ChannelManager} (h : m.InStep) {msg : ChangeMsg}
    (hleave : msg.operateType ≠ OperateType.optJoin.word) (hclear : m.LeaveClear msg) :
    m.Gone (m.disposeLeave msg) msg.roleAttr where
  nodes := by
    intro side item hitem
    rw [(roles_of_leaveClear h hleave hclear side).1] at hitem
    exact (MultiValueWarehouse.mem_others.mp hitem).2
  channels := by
    intro side item hitem
    rw [(roles_of_leaveClear h hleave hclear side).2] at hitem
    exact (MultiValueWarehouse.mem_others.mp hitem).2
  otherNodes := by
    intro side
    rw [(roles_of_leaveClear h hleave hclear side).1, MultiValueWarehouse.others_others]
  otherChannels := by
    intro side
    rw [(roles_of_leaveClear h hleave hclear side).2, MultiValueWarehouse.others_others]

theorem leaveClear_of_gone {m : ChannelManager} (h : m.InStep) {msg : ChangeMsg}
    (hgone : m.Gone (m.disposeLeave msg) msg.roleAttr) : m.LeaveClear msg := by
  intro _
  constructor
  · intro hside item hitem hmatch
    by_contra hkeys
    have hstays : item ∈ (m.disposeLeave msg).nodeRoles .dst := by
      rw [nodeRoles_disposeLeave, if_pos hside.symm, MultiValueWarehouse.mem_remove]
      refine ⟨hitem, fun hkey => hkeys ?_⟩
      rw [leaveKey, hside] at hkey
      have hkey : item.1 = msg.roleAttr.channelId := hkey.1
      rw [← hkey, h.nodeKeys .dst item hitem]
      exact (RoleWriter.matchAttr_iff.mp hmatch).2.2.1
    exact hgone.nodes .dst item hstays hmatch
  · intro item hitem
    refine hgone.channels (sideOf msg).other item ?_
    rw [channelRoles_disposeLeave, if_neg (side_other_ne _)]
    exact hitem

theorem stepRight_iff {m : ChannelManager} (h : m.InStep) (msg : ChangeMsg) :
    m.StepRight msg ↔ m.LeaveClear msg := by
  by_cases hjoin : msg.operateType = OperateType.optJoin.word
  · rw [StepRight, step_join hjoin]
    exact iff_of_true ⟨inStep_join h msg, fun hleave => absurd hjoin hleave⟩
      fun hleave => absurd hjoin hleave
  · rw [StepRight, step_leave hjoin]
    constructor
    · exact fun hright => leaveClear_of_gone h (hright.2 hjoin)
    · exact fun hclear => ⟨inStep_leave h hjoin hclear, fun _ => gone_leave h hjoin hclear⟩

theorem inStep_new (hostName : Str) (processId : BitVec 32) : (new hostName processId).InStep where
  nodeKeys := by
    intro side item hitem
    cases side <;> cases hitem
  channelKeys := by
    intro side item hitem
    cases side <;> cases hitem
  agree := by
    intro side r
    cases side <;> exact iff_of_false List.not_mem_nil List.not_mem_nil

/-- A history of messages does to the four warehouses what it should if and only
if every leave in it is clear. -/
theorem stepRight_iff_leaveClear (hostName : Str) (processId : BitVec 32) (msgs : List ChangeMsg) :
    Run.Along step StepRight (new hostName processId) msgs ↔
      Run.Along step LeaveClear (new hostName processId) msgs :=
  Run.along_iff_along (I := InStep) (fun _ msg h => stepRight_iff h msg)
    (fun _ msg h hclear => ((stepRight_iff h msg).mpr hclear).1) (inStep_new hostName processId)

def ghost (opt : OperateType) : ChangeMsg :=
  { timestamp := 0, changeType := ChangeType.changeChannel.word, operateType := opt.word,
    roleType := RoleType.roleReader.word,
    roleAttr :=
      { hostName := [0x68], hostIp := [], processId := 7, channelName := [0x63], channelId := 2,
        qosProfile := {}, id := 3, nodeName := [0x6E], nodeId := 1, messageType := [] } }

/-- The reader is still with its node after it has left. -/
theorem ghost_not_stepRight :
    ¬ Run.Along step StepRight (new [] 0) [ghost .optJoin, ghost .optLeave] := by
  intro h
  obtain ⟨_, ⟨_, hgone⟩, _⟩ := h
  have hnodes := (hgone (by decide)).nodes .dst (1, roleOf (ghost .optJoin))
  revert hnodes
  decide +kernel

end ChannelManager

end Discovery
end Cmw
