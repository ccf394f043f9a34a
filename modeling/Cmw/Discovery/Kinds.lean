import Cmw.Discovery.EarliestNode
import Cmw.Discovery.Replication

/-!
# What is refused

`Join`, `Leave` and `OnRemoteChange` of discovery/specific_manager/manager.cpp, over what the
managers override.  `Join` and `Leave` dispose of a message before it is written, and the writing
may fail; `OnRemoteChange` does not ask which roles are allowed.
-/

namespace Cmw
namespace Discovery

open Config
open Library
open Library.ByteImage
open Serialize

/-- A kind of manager, with what it overrides. -/
structure Kind (μ : Type) extends Overrides μ where
  /-- There is nothing that the message changes. -/
  Idle : μ → ChangeMsg → Prop
  dispose_eq_self : ∀ m msg, (dispose m msg).1 = m ↔ Idle m msg
  dispose_congr : ∀ m (msg msg' : ChangeMsg), msg'.timestamp = msg.timestamp →
    msg'.roleType = msg.roleType → msg'.roleAttr = msg.roleAttr →
    (msg'.operateType = OperateType.optJoin.word ↔ msg.operateType = OperateType.optJoin.word) →
    (dispose m msg').1 = (dispose m msg).1

inductive Request
  | join (attr : RoleAttributes) (role : RoleType) (needWrite : Bool) (now : BitVec 64)
  | leave (attr : RoleAttributes) (role : RoleType) (now : BitVec 64)

def Kind.request {μ : Type} (k : Kind μ) (host : ByteOrder) (m : μ) : Request → Outcome (Reply μ)
  | .join attr role needWrite now => k.join host m attr role needWrite now
  | .leave attr role now => k.leave host m attr role now

/-! ## The two kinds -/

namespace NodeManager

def Idle (m : NodeManager) (msg : ChangeMsg) : Prop :=
  if msg.operateType = OperateType.optJoin.word then
    ∃ old, m.nodes.lookup msg.roleAttr.nodeId = some old ∧ ¬(nodeOf msg).isEarlierThan old = true
  else msg.roleAttr.nodeId ∉ m.nodes

theorem manager_dispose (m : NodeManager) (msg : ChangeMsg) :
    (m.dispose msg).1.toManager = m.toManager := by
  rw [dispose]
  dsimp only
  split
  · rcases disposeJoin_cases m msg with hjoin | hjoin <;> rw [hjoin]
  · rfl

theorem dispose_eq_self (m : NodeManager) (msg : ChangeMsg) :
    (m.dispose msg).1 = m ↔ m.Idle msg := by
  rw [dispose, Idle]
  dsimp only
  split
  case isTrue =>
    constructor
    · intro h
      have hlookup := lookup_disposeJoin m msg msg.roleAttr.nodeId
      rw [h, if_pos rfl] at hlookup
      exact ⟨_, hlookup, not_earlier_keep _ _⟩
    · intro h
      obtain ⟨old, hold, hlater⟩ := h
      rw [disposeJoin_eq, hold]
      exact if_neg hlater
  case isFalse =>
    constructor
    · intro h hmem
      have herase : msg.roleAttr.nodeId ∉ m.nodes.erase msg.roleAttr.nodeId :=
        fun h => (AList.mem_erase.mp h).1 rfl
      have hnodes : m.nodes.erase msg.roleAttr.nodeId = m.nodes := congrArg NodeManager.nodes h
      exact herase (hnodes.symm ▸ hmem)
    · intro h
      have hnodes : m.nodes.erase msg.roleAttr.nodeId = m.nodes :=
        AList.ext (List.kerase_of_notMem_keys h)
      show { m with nodes := m.nodes.erase msg.roleAttr.nodeId } = m
      rw [hnodes]

theorem dispose_congr (m : NodeManager) (msg msg' : ChangeMsg)
    (htime : msg'.timestamp = msg.timestamp) (hattr : msg'.roleAttr = msg.roleAttr)
    (hopt : msg'.operateType = OperateType.optJoin.word ↔
      msg.operateType = OperateType.optJoin.word) :
    (m.dispose msg').1 = (m.dispose msg).1 := by
  have hjoin : m.disposeJoin msg' = m.disposeJoin msg := by
    rw [disposeJoin, disposeJoin, htime, hattr]
  have hleave : m.disposeLeave msg' = m.disposeLeave msg := by
    rw [disposeLeave, disposeLeave, hattr]
  rw [dispose, dispose]
  dsimp only
  rw [hjoin, hleave]
  exact if_congr hopt rfl rfl

def kind : Kind NodeManager where
  manager m := m.toManager
  check := check
  dispose := dispose
  Idle := Idle
  manager_dispose := manager_dispose
  notifies _ _ := rfl
  dispose_eq_self := dispose_eq_self
  dispose_congr m msg msg' htime _ hattr hopt := dispose_congr m msg msg' htime hattr hopt

end NodeManager

theorem Graph.deleteHalf_of_notMem {g : Graph} {e : Edge} {side : Side}
    (h : (e.tip side).getKey ∉ g.half e.value side) : g.deleteHalf side e = g := by
  rw [deleteHalf]
  exact if_pos h

/-- An edge that has no half in the graph is not deleted. -/
theorem Graph.delete_of_notMem {g : Graph} {e : Edge}
    (h : ∀ side, (e.tip side).isDummy = false → (e.tip side).getKey ∉ g.half e.value side) :
    g.delete e = g := by
  have hsrc : (if !e.src.isDummy then g.deleteOutgoingEdge e else g) = g := by
    split
    case isTrue hs => exact deleteHalf_of_notMem (h .src (by simpa [Edge.tip] using hs))
    case isFalse => rfl
  have hdst : (if !e.dst.isDummy then g.deleteIncomingEdge e else g) = g := by
    split
    case isTrue hs => exact deleteHalf_of_notMem (h .dst (by simpa [Edge.tip] using hs))
    case isFalse => rfl
  rw [delete]
  split
  · rfl
  · split
    · rfl
    · dsimp only
      rw [hsrc, hdst]

namespace MultiValueWarehouse

variable {ρ : Type} [Role ρ]

theorem remove_eq_self {w : MultiValueWarehouse ρ} {key : BitVec 64} {role : ρ} :
    w.remove key role = w ↔
      ∀ item ∈ w, ¬(item.1 = key ∧ Role.matchAttr item.2 (Role.attributes role) = true) := by
  rw [remove, List.filter_eq_self]
  refine forall₂_congr fun item _ => ?_
  rw [Bool.not_eq_true', ← Bool.not_eq_true, Bool.and_eq_true, beq_iff_eq]

end MultiValueWarehouse

namespace ChannelManager

/-- Nothing leaves that is there. -/
structure Idle (m : ChannelManager) (msg : ChangeMsg) : Prop where
  leaves : msg.operateType ≠ OperateType.optJoin.word
  nodes : ∀ item ∈ m.nodeRoles (sideOf msg),
    ¬(item.1 = leaveKey msg ∧ item.2.matchAttr msg.roleAttr = true)
  channels : ∀ item ∈ m.channelRoles (sideOf msg),
    ¬(item.1 = msg.roleAttr.channelId ∧ item.2.matchAttr msg.roleAttr = true)
  graph : msg.roleAttr.nodeName ≠ [] → msg.roleAttr.channelName ≠ [] →
    msg.roleAttr.nodeName ∉ m.nodeGraph.half msg.roleAttr.channelName (sideOf msg)

/-- The parts that a message may change. -/
theorem eq_of_parts {m m' : ChannelManager} (hmanager : m'.toManager = m.toManager)
    (hgraph : m'.nodeGraph = m.nodeGraph) (hnodes : m'.nodeRoles = m.nodeRoles)
    (hchannels : m'.channelRoles = m.channelRoles) : m' = m := by
  have hnw : m'.nodeWriters = m.nodeWriters := congrFun hnodes .src
  have hnr : m'.nodeReaders = m.nodeReaders := congrFun hnodes .dst
  have hcw : m'.channelWriters = m.channelWriters := congrFun hchannels .src
  have hcr : m'.channelReaders = m.channelReaders := congrFun hchannels .dst
  cases m
  cases m'
  simp_all only

theorem dispose_eq_self (m : ChannelManager) (msg : ChangeMsg) :
    (m.dispose msg).1 = m ↔ m.Idle msg := by
  have hstep : (m.dispose msg).1 = m.step msg := rfl
  rw [hstep]
  constructor
  · intro h
    have hleaves : msg.operateType ≠ OperateType.optJoin.word := by
      intro hjoin
      have hnodes := congrFun (congrArg nodeRoles h) (sideOf msg)
      rw [step_join hjoin, nodeRoles_disposeJoin, if_pos rfl] at hnodes
      have hlength := congrArg List.length hnodes
      rw [MultiValueWarehouse.add, List.length_append, List.length_singleton] at hlength
      omega
    refine ⟨hleaves, ?_, ?_, fun hnode hchannel hmem => ?_⟩
    · have hnodes := congrFun (congrArg nodeRoles h) (sideOf msg)
      rw [step_leave hleaves, nodeRoles_disposeLeave, if_pos rfl] at hnodes
      exact MultiValueWarehouse.remove_eq_self.mp hnodes
    · have hchannels := congrFun (congrArg channelRoles h) (sideOf msg)
      rw [step_leave hleaves, channelRoles_disposeLeave, if_pos rfl] at hchannels
      exact MultiValueWarehouse.remove_eq_self.mp hchannels
    · have hgone := (Traced.mem_half_leave hleaves).mp (h.symm ▸ hmem)
      exact hgone.2 ⟨(Traced.isValid_edgeOf msg).mpr ⟨hnode, hchannel⟩, rfl, rfl, rfl⟩
  · intro h
    refine eq_of_parts (toManager_step m msg) ?_ ?_ ?_
    · rw [nodeGraph_leave h.leaves]
      cases hvalid : (edgeOf msg).isValid with
      | false => exact Graph.delete_of_invalid hvalid
      | true =>
          refine Graph.delete_of_notMem fun side hdummy hmem => ?_
          obtain ⟨hnode, hchannel⟩ := (Traced.isValid_edgeOf msg).mp hvalid
          obtain ⟨hside, hc, hn⟩ := (Traced.tip_edgeOf_iff hvalid).mp ⟨hdummy, rfl, rfl⟩
          rw [hside, hc] at hmem
          rw [hside] at hn
          exact h.graph hnode hchannel (hn ▸ hmem)
    · funext side
      rw [step_leave h.leaves, nodeRoles_disposeLeave]
      split
      case isTrue hside => exact hside ▸ MultiValueWarehouse.remove_eq_self.mpr h.nodes
      case isFalse => rfl
    · funext side
      rw [step_leave h.leaves, channelRoles_disposeLeave]
      split
      case isTrue hside => exact hside ▸ MultiValueWarehouse.remove_eq_self.mpr h.channels
      case isFalse => rfl

theorem dispose_congr (m : ChannelManager) (msg msg' : ChangeMsg)
    (htime : msg'.timestamp = msg.timestamp) (hrole : msg'.roleType = msg.roleType)
    (hattr : msg'.roleAttr = msg.roleAttr)
    (hopt : msg'.operateType = OperateType.optJoin.word ↔
      msg.operateType = OperateType.optJoin.word) :
    (m.dispose msg').1 = (m.dispose msg).1 := by
  have hjoin : m.disposeJoin msg' = m.disposeJoin msg := by
    rw [disposeJoin, disposeJoin, htime, hrole, hattr]
  have hleave : m.disposeLeave msg' = m.disposeLeave msg := by
    rw [disposeLeave, disposeLeave, htime, hrole, hattr]
  rw [dispose, dispose]
  dsimp only
  rw [hjoin, hleave]
  exact if_congr hopt rfl rfl

def kind : Kind ChannelManager where
  toOverrides := overrides
  Idle := Idle
  dispose_eq_self := dispose_eq_self
  dispose_congr := dispose_congr

end ChannelManager

/-! ## A call that fails -/

/-- What `Join` and `Leave` ask for before they do anything. -/
structure Manager.Accepts (m : Manager) (check : RoleAttributes → Bool) (attr : RoleAttributes)
    (role : RoleType) : Prop where
  up : m.isShutdown = false
  allowed : roleBit role &&& m.allowedRole ≠ 0
  checked : check attr = true

namespace Manager

variable {m : Manager} {check : RoleAttributes → Bool} {attr : RoleAttributes} {role : RoleType}

theorem prepare_of_accepts (h : m.Accepts check attr role) (opt : OperateType) (now : BitVec 64) :
    m.prepare check attr role opt now = some (m.convert attr role opt now) := by
  rw [prepare, h.up, h.checked, if_neg Bool.false_ne_true, if_neg h.allowed,
    if_neg (by decide)]

theorem prepare_of_not_accepts (h : ¬m.Accepts check attr role) (opt : OperateType)
    (now : BitVec 64) : m.prepare check attr role opt now = none := by
  rw [prepare]
  split
  · rfl
  case isFalse hup =>
    split
    · rfl
    case isFalse hallowed =>
      split
      · rfl
      case isFalse hchecked =>
        rw [Bool.not_eq_true', Bool.not_eq_false] at hchecked
        exact absurd ⟨Bool.eq_false_iff.mpr hup, hallowed, hchecked⟩ h

end Manager

namespace Request

def attr : Request → RoleAttributes
  | .join attr _ _ _ => attr
  | .leave attr _ _ => attr

def role : Request → RoleType
  | .join _ role _ _ => role
  | .leave _ role _ => role

/-- The message is to be written. -/
def writes : Request → Bool
  | .join _ _ needWrite _ => needWrite
  | .leave .. => true

end Request

namespace Kind

variable {μ : Type} {k : Kind μ} {host : ByteOrder} {m : μ}

/-- If the call returns false, all is as before and nothing has been notified. -/
def Atomic (k : Kind μ) (host : ByteOrder) (m : μ) (c : Request) : Prop :=
  ∀ r, k.request host m c = .ok r → r.result = false → r.manager = m ∧ r.notified = []

/-- The call is accepted, and its message is to be written while discovery is not started. -/
def Unwritten (k : Kind μ) (m : μ) (c : Request) : Prop :=
  (k.manager m).Accepts k.check c.attr c.role ∧ c.writes = true ∧
    (k.manager m).isDiscoveryStarted = false

/-- What `Join` and `Leave` reply. -/
theorem announce_reply {attr : RoleAttributes} {role : RoleType} {opt : OperateType}
    {needWrite : ChangeMsg → Bool} {now : BitVec 64} {r : Reply μ}
    (h : k.announce host m attr role opt needWrite now = .ok r) :
    (¬(k.manager m).Accepts k.check attr role ∧ r = { result := false, manager := m }) ∨
      ((k.manager m).Accepts k.check attr role ∧
        r.manager = (k.dispose m ((k.manager m).convert attr role opt now)).1 ∧
        r.notified = [(k.manager m).convert attr role opt now] ∧
        (r.result = false ↔ needWrite ((k.manager m).convert attr role opt now) = true ∧
          (k.manager m).isDiscoveryStarted = false)) := by
  have htrue : ¬true = false := by decide
  by_cases haccepts : (k.manager m).Accepts k.check attr role
  · refine .inr ⟨haccepts, ?_⟩
    rw [Overrides.announce, Manager.prepare_of_accepts haccepts] at h
    dsimp only at h
    split at h
    case isTrue hneed =>
      rw [k.manager_dispose, Manager.write] at h
      cases hstart : (k.manager m).isDiscoveryStarted with
      | false =>
          rw [hstart, if_pos Bool.not_false] at h
          cases h
          exact ⟨rfl, k.notifies m _, iff_of_true rfl ⟨hneed, rfl⟩⟩
      | true =>
          rw [hstart, if_neg (by decide)] at h
          obtain ⟨⟨result, sent⟩, hwrite, h⟩ := of_bind_ok h
          obtain ⟨ds, -, hwrite⟩ := of_bind_ok hwrite
          cases hwrite
          cases h
          exact ⟨rfl, k.notifies m _,
            iff_of_false htrue fun h => htrue h.2⟩
    case isFalse hneed =>
      cases h
      exact ⟨rfl, k.notifies m _, iff_of_false htrue fun h => hneed h.1⟩
  · refine .inl ⟨haccepts, ?_⟩
    rw [Overrides.announce, Manager.prepare_of_not_accepts haccepts] at h
    cases h
    rfl

/-- A call whose message is not written is answered, and not because nothing was done. -/
theorem announce_unwritten {attr : RoleAttributes} {role : RoleType} {opt : OperateType}
    {needWrite : ChangeMsg → Bool} {now : BitVec 64}
    (haccepts : (k.manager m).Accepts k.check attr role) (hneed : ∀ msg, needWrite msg = true)
    (hstart : (k.manager m).isDiscoveryStarted = false) :
    ∃ r, k.announce host m attr role opt needWrite now = .ok r ∧ r.result = false ∧
      r.notified ≠ [] := by
  let msg := (k.manager m).convert attr role opt now
  refine ⟨{ result := false, manager := (k.dispose m msg).1, notified := (k.dispose m msg).2 }, ?_,
    rfl, ?_⟩
  · rw [Overrides.announce, Manager.prepare_of_accepts haccepts]
    dsimp only
    rw [if_pos (hneed _), k.manager_dispose, Manager.write, hstart, if_pos Bool.not_false]
    rfl
  · rw [k.notifies]
    exact List.cons_ne_nil _ _

theorem atomic_announce {attr : RoleAttributes} {role : RoleType} {opt : OperateType}
    {needWrite : ChangeMsg → Bool} {now : BitVec 64} {writes : Bool}
    (hneed : ∀ msg, needWrite msg = writes) :
    (∀ r, k.announce host m attr role opt needWrite now = .ok r → r.result = false →
      r.manager = m ∧ r.notified = []) ↔
    ¬((k.manager m).Accepts k.check attr role ∧ writes = true ∧
      (k.manager m).isDiscoveryStarted = false) := by
  constructor
  · intro h hunwritten
    obtain ⟨haccepts, hwrites, hstart⟩ := hunwritten
    obtain ⟨r, hr, hresult, hnotified⟩ :=
      announce_unwritten haccepts (fun msg => (hneed msg).trans hwrites) hstart
    exact hnotified (h r hr hresult).2
  · intro h r hr hresult
    rcases announce_reply hr with ⟨-, rfl⟩ | ⟨haccepts, -, -, hfails⟩
    · exact ⟨rfl, rfl⟩
    · obtain ⟨hwrites, hstart⟩ := hfails.mp hresult
      exact absurd ⟨haccepts, hneed _ ▸ hwrites, hstart⟩ h

theorem atomic_iff (c : Request) : k.Atomic host m c ↔ ¬k.Unwritten m c := by
  cases c with
  | join attr role needWrite now => exact atomic_announce fun _ => rfl
  | leave attr role now => exact atomic_announce fun _ => rfl

end Kind

/-- A call that returns false has left the manager as it was and has notified no one, unless it was
accepted and its message could not be written. -/
theorem atomic_iff_not_unwritten (host : ByteOrder) (c : Request) :
    (∀ m, NodeManager.kind.Atomic host m c ↔ ¬NodeManager.kind.Unwritten m c) ∧
      ∀ m, ChannelManager.kind.Atomic host m c ↔ ¬ChannelManager.kind.Unwritten m c :=
  ⟨fun _ => Kind.atomic_iff c, fun _ => Kind.atomic_iff c⟩

def noJunk : Junk := fun _ _ => 0

/-- A node joins before discovery has started. -/
def earlyJoin : Request :=
  .join { RoleAttributes.init noJunk with nodeName := [0x61], nodeId := 7 } .roleNode true 1

theorem earlyJoin_not_atomic :
    ¬NodeManager.kind.Atomic .littleEndian (NodeManager.new [0x68] 1) earlyJoin :=
  fun h => (Kind.atomic_iff earlyJoin).mp h ⟨⟨rfl, by decide, rfl⟩, rfl, rfl⟩

/-! ## A message of another process -/

def RoleType.all : List RoleType :=
  [.roleNode, .roleWriter, .roleReader, .roleServer, .roleClient, .roleParticipant]

/-- The role type with this number. -/
def roleTypeOf (word : BitVec 32) : Option RoleType :=
  RoleType.all.find? fun role => role.word == word

theorem roleTypeOf_word (role : RoleType) : roleTypeOf role.word = some role := by
  cases role <;> decide

theorem word_of_roleTypeOf {word : BitVec 32} {role : RoleType} (h : roleTypeOf word = some role) :
    role.word = word :=
  beq_iff_eq.mp (List.find?_some (p := fun role : RoleType => role.word == word) h)

/-- The operation that `Dispose` takes a message for. -/
def operationOf (msg : ChangeMsg) : OperateType :=
  if msg.operateType = OperateType.optJoin.word then .optJoin else .optLeave

namespace Kind

variable {μ : Type} {k : Kind μ} {host : ByteOrder} {m : μ} {stack : Stack} {str : List Byte}
  {msg : ChangeMsg}

/-- What a local call makes of the manager with the attributes, the role type and the operation of
the message, at its time: nothing where it is refused. -/
def locally (k : Kind μ) (m : μ) (msg : ChangeMsg) : Option μ := do
  let role ← roleTypeOf msg.roleType
  let built ←
    (k.manager m).prepare k.check msg.roleAttr role (operationOf msg) msg.timestamp
  some (k.dispose m built).1

/-- `locally` is where a call that returns ends. -/
theorem manager_of_announce {role : RoleType} (hrole : role.word = msg.roleType)
    {needWrite : ChangeMsg → Bool} {r : Reply μ}
    (h : k.announce host m msg.roleAttr role (operationOf msg) needWrite msg.timestamp = .ok r) :
    r.manager = (k.locally m msg).getD m := by
  rw [locally, ← hrole, roleTypeOf_word]
  show r.manager = Option.getD (Manager.prepare _ _ _ _ _ _ >>= _) m
  rcases announce_reply h with ⟨haccepts, rfl⟩ | ⟨haccepts, hmanager, -⟩
  · rw [Manager.prepare_of_not_accepts haccepts]
    rfl
  · rw [Manager.prepare_of_accepts haccepts, hmanager]
    rfl

/-- The message names the process it is of, and that is not the one of the manager. -/
structure FromOther (m : Manager) (msg : ChangeMsg) : Prop where
  hostName : msg.roleAttr.hostName ≠ []
  processId : msg.roleAttr.processId ≠ 0
  other : m.isFromSameProcess msg = false

/-- `OnRemoteChange` does to the manager what a local call does, and nothing where that is
refused. -/
def Agrees (k : Kind μ) (host : ByteOrder) (m : μ) (stack : Stack) (str : List Byte)
    (msg : ChangeMsg) : Prop :=
  ∃ notified, k.onRemoteChange host m stack str = .ok ((k.locally m msg).getD m, notified)

/-- The manager has no use for the message, or allows its role. -/
def Heeds (k : Kind μ) (m : μ) (msg : ChangeMsg) : Prop :=
  (k.manager m).isShutdown = true ∨ k.check msg.roleAttr = false ∨
    (∃ role, roleTypeOf msg.roleType = some role ∧ roleBit role &&& (k.manager m).allowedRole ≠ 0) ∨
    k.Idle m msg

theorem convert_of_fromOther {m : Manager} (h : FromOther m msg) (role : RoleType)
    (opt : OperateType) (now : BitVec 64) : (m.convert msg.roleAttr role opt now).roleAttr =
      msg.roleAttr := by
  have hhost : msg.roleAttr.hostName.isEmpty = false := List.isEmpty_eq_false_iff.mpr h.hostName
  rw [Manager.convert]
  dsimp only
  rw [hhost, if_neg Bool.false_ne_true, if_neg h.processId]

theorem word_operationOf (msg : ChangeMsg) :
    (operationOf msg).word = OperateType.optJoin.word ↔
      msg.operateType = OperateType.optJoin.word := by
  rw [operationOf]
  split
  case isTrue h => exact iff_of_true rfl h
  case isFalse h => exact iff_of_false (by decide) h

theorem locally_of_accepts (hother : FromOther (k.manager m) msg) {role : RoleType}
    (hrole : roleTypeOf msg.roleType = some role)
    (h : (k.manager m).Accepts k.check msg.roleAttr role) :
    k.locally m msg = some (k.dispose m msg).1 := by
  rw [locally, hrole]
  show (Manager.prepare _ _ _ _ _ _ >>= _) = _
  rw [Manager.prepare_of_accepts h]
  have hattr := convert_of_fromOther hother role (operationOf msg) msg.timestamp
  exact congrArg some
    (k.dispose_congr m msg _ rfl (word_of_roleTypeOf hrole) hattr (word_operationOf msg))

theorem locally_of_not_accepts
    (h : ∀ role, roleTypeOf msg.roleType = some role →
      ¬(k.manager m).Accepts k.check msg.roleAttr role) : k.locally m msg = none := by
  rw [locally]
  cases hrole : roleTypeOf msg.roleType with
  | none => rfl
  | some role =>
      show (Manager.prepare _ _ _ _ _ _ >>= _) = _
      rw [Manager.prepare_of_not_accepts (h role hrole)]
      rfl

theorem onRemoteChange_eq (hmsg : ChannelManager.decode host stack str = .ok msg)
    (hother : FromOther (k.manager m) msg) :
    k.onRemoteChange host m stack str =
      .ok (if (k.manager m).isShutdown || !k.check msg.roleAttr then (m, [])
        else k.dispose m msg) := by
  rw [Overrides.onRemoteChange, hmsg]
  cases (k.manager m).isShutdown with
  | true => rfl
  | false =>
      rw [if_neg Bool.false_ne_true]
      show Except.ok (if (k.manager m).isFromSameProcess msg then _ else _) = _
      rw [hother.other, if_neg Bool.false_ne_true]
      rfl

theorem agrees_iff (hmsg : ChannelManager.decode host stack str = .ok msg)
    (hother : FromOther (k.manager m) msg) :
    k.Agrees host m stack str msg ↔ k.Heeds m msg := by
  rw [Agrees, Heeds, onRemoteChange_eq hmsg hother]
  cases hup : (k.manager m).isShutdown with
  | true =>
      have hlocally : k.locally m msg = none :=
        locally_of_not_accepts fun role _ h => absurd (hup.symm.trans h.up) (by decide)
      rw [hlocally]
      exact iff_of_true ⟨[], rfl⟩ (.inl rfl)
  | false =>
      cases hcheck : k.check msg.roleAttr with
      | false =>
          have hlocally : k.locally m msg = none :=
            locally_of_not_accepts fun role _ h => absurd (hcheck.symm.trans h.checked) (by decide)
          rw [hlocally]
          exact iff_of_true ⟨[], rfl⟩ (.inr (.inl rfl))
      | true =>
          rw [or_iff_right Bool.false_ne_true, or_iff_right (by decide)]
          by_cases hrole : ∃ role, roleTypeOf msg.roleType = some role ∧
              roleBit role &&& (k.manager m).allowedRole ≠ 0
          · obtain ⟨role, hword, hallowed⟩ := hrole
            rw [locally_of_accepts hother hword ⟨hup, hallowed, hcheck⟩]
            exact iff_of_true ⟨_, rfl⟩ (.inl ⟨role, hword, hallowed⟩)
          · have hlocally : k.locally m msg = none :=
              locally_of_not_accepts fun role hword h => hrole ⟨role, hword, h.allowed⟩
            rw [or_iff_right hrole, hlocally, ← k.dispose_eq_self]
            constructor
            · intro h
              obtain ⟨notified, h⟩ := h
              exact congrArg Prod.fst (Except.ok.inj h)
            · intro h
              exact ⟨(k.dispose m msg).2, congrArg Except.ok (Prod.ext h rfl)⟩

/-- What the manager heeds leaves it as any local call for the same does that returns. -/
theorem onRemoteChange_eq_announce (hmsg : ChannelManager.decode host stack str = .ok msg)
    (hother : FromOther (k.manager m) msg) (hheeds : k.Heeds m msg) {role : RoleType}
    (hrole : role.word = msg.roleType) {needWrite : ChangeMsg → Bool} {r : Reply μ}
    (h : k.announce host m msg.roleAttr role (operationOf msg) needWrite msg.timestamp = .ok r) :
    ∃ notified, k.onRemoteChange host m stack str = .ok (r.manager, notified) := by
  rw [manager_of_announce hrole h]
  exact (agrees_iff hmsg hother).mpr hheeds

end Kind

/-- A message of another process does to a manager what a local call would do, and nothing where
that would be refused, if and only if the manager is shut down, the attributes do not pass its
check, the role is allowed, or there is nothing for the message to change. -/
theorem agrees_iff_heeds {host : ByteOrder} {stack : Stack} {str : List Byte} {msg : ChangeMsg}
    (hmsg : ChannelManager.decode host stack str = .ok msg) :
    (∀ m : NodeManager, Kind.FromOther m.toManager msg →
      (NodeManager.kind.Agrees host m stack str msg ↔ NodeManager.kind.Heeds m msg)) ∧
    ∀ m : ChannelManager, Kind.FromOther m.toManager msg →
      (ChannelManager.kind.Agrees host m stack str msg ↔ ChannelManager.kind.Heeds m msg) :=
  ⟨fun _ hother => Kind.agrees_iff hmsg hother, fun _ hother => Kind.agrees_iff hmsg hother⟩

/-- A writer that has joined in another process, as it is read. -/
def writerRead : ChangeMsg :=
  { ChannelManager.writerJoined with
    roleAttr := { ChannelManager.writerJoined.roleAttr with channelId := 0 } }

def writerBytes : List Byte := ChangeMsg.type.image .littleEndian ChannelManager.writerJoined

theorem decode_writerBytes :
    ChannelManager.decode .littleEndian (fun _ _ _ => 0) writerBytes = .ok writerRead :=
  ChannelManager.decode_image ChannelManager.fits_writerJoined fun _ _ _ => 0

theorem fromOther_writerRead :
    Kind.FromOther (NodeManager.new [0x62] 8).toManager writerRead ∧
      Kind.FromOther (ChannelManager.new [0x62] 8).toManager writerRead :=
  ⟨⟨by decide, by decide, by decide⟩, ⟨by decide, by decide, by decide⟩⟩

theorem agrees_iff_heeds_writerRead :
    (NodeManager.kind.Agrees .littleEndian (NodeManager.new [0x62] 8) (fun _ _ _ => 0) writerBytes
        writerRead ↔ NodeManager.kind.Heeds (NodeManager.new [0x62] 8) writerRead) ∧
      (ChannelManager.kind.Agrees .littleEndian (ChannelManager.new [0x62] 8) (fun _ _ _ => 0)
        writerBytes writerRead ↔
          ChannelManager.kind.Heeds (ChannelManager.new [0x62] 8) writerRead) :=
  ⟨(agrees_iff_heeds decode_writerBytes).1 _ fromOther_writerRead.1,
    (agrees_iff_heeds decode_writerBytes).2 _ fromOther_writerRead.2⟩

/-- The writer is taken for a node. -/
theorem writerRead_not_agrees :
    ChannelManager.decode .littleEndian (fun _ _ _ => 0) writerBytes = .ok writerRead ∧
      Kind.FromOther (NodeManager.new [0x62] 8).toManager writerRead ∧
      ¬NodeManager.kind.Agrees .littleEndian (NodeManager.new [0x62] 8) (fun _ _ _ => 0) writerBytes
        writerRead := by
  refine ⟨decode_writerBytes, fromOther_writerRead.1, fun h => ?_⟩
  rcases (Kind.agrees_iff decode_writerBytes fromOther_writerRead.1).mp h with h | h | h | h
  · exact absurd h (by decide)
  · exact absurd h (by decide)
  · obtain ⟨role, hrole, hallowed⟩ := h
    have hwriter : roleTypeOf writerRead.roleType = some .roleWriter := by decide
    cases hwriter.symm.trans hrole
    exact absurd hallowed (by decide)
  · have hidle : (NodeManager.new [0x62] 8).Idle writerRead := h
    rw [NodeManager.Idle, if_pos (by decide)] at hidle
    obtain ⟨old, hold, -⟩ := hidle
    cases hold

end Discovery
end Cmw
