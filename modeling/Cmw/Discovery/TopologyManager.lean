import Cmw.Discovery.SpecificManager
import Cmw.Library.Decimal
import Cmw.Library.Run

/-!
# The topology manager

`OnParticipantChange` of discovery/topology_manager.cpp.  A process has two
participants under one name, its topology manager's and its transport's, and
whichever of them leaves first has the managers purge the process.
-/

namespace Cmw
namespace Discovery

open Config
open Library
open Serialize

inductive DiscoveryStatus
  | discoveredParticipant | removedParticipant | droppedParticipant | other
  deriving DecidableEq, Repr

def DiscoveryStatus.Gone (status : DiscoveryStatus) : Prop :=
  status = .removedParticipant ∨ status = .droppedParticipant

structure PartInfo (γ : Type) where
  guid : γ
  status : DiscoveryStatus
  participantName : Str

/-- `γ` is the type of the participants' guids. -/
structure TopologyManager (γ : Type) where
  init : Bool
  participantNames : Table γ Str := ∅
  nodeManager : NodeManager
  channelManager : ChannelManager

/-- The storage of the local variables of a call, and the time. -/
structure Surroundings where
  msg : Junk
  nodes : Junk
  channels : Junk
  now : BitVec 64

/-- What a change of a participant comes to: the process that the two managers are
told has left, and the messages that any listener hears. -/
structure PartChange (γ : Type) where
  manager : TopologyManager γ
  left : Option (Str × BitVec 32) := none
  notified : List ChangeMsg := []

namespace TopologyManager

def parseParticipantName (participantName : Str) : Option (Str × BitVec 32) := do
  let pos ← participantName.findIdx? (· == 0x2B)
  let pid ← Decimal.stoi (participantName.drop (pos + 1))
  some (participantName.take pos, BitVec.ofInt 32 pid)

variable {γ : Type} [DecidableEq γ]

def convert (t : TopologyManager γ) (info : PartInfo γ) (junk : Junk) (now : BitVec 64) :
    TopologyManager γ × Option ChangeMsg :=
  let (participantName, participantNames, opt) := match info.status with
    | .discoveredParticipant =>
        (info.participantName, t.participantNames.insert info.guid info.participantName,
          OperateType.optJoin)
    | .removedParticipant | .droppedParticipant =>
        match t.participantNames.lookup info.guid with
        | some name => (name, t.participantNames.erase info.guid, OperateType.optLeave)
        | none => ([], t.participantNames, OperateType.optLeave)
    | .other => ([], t.participantNames, OperateType.optJoin)
  ({ t with participantNames },
    (parseParticipantName participantName).map fun (hostName, processId) =>
      { ChangeMsg.init junk with
        timestamp := now
        changeType := ChangeType.changeParticipant.word
        operateType := opt.word
        roleType := RoleType.roleParticipant.word
        roleAttr := { RoleAttributes.init junk with hostName, processId } })

def onParticipantChange (t : TopologyManager γ) (info : PartInfo γ) (around : Surroundings) :
    PartChange γ :=
  match t.convert info around.msg around.now with
  | (t, none) => { manager := t }
  | (t, some msg) =>
      if !t.init then { manager := t }
      else if msg.operateType = OperateType.optLeave.word then
        let hostName := msg.roleAttr.hostName
        let processId := msg.roleAttr.processId
        let (nodeManager, nodes) := t.nodeManager.onTopoModuleLeave (.init around.nodes) hostName
          processId around.now
        let (channelManager, channels) := t.channelManager.onTopoModuleLeave
          (.init around.channels) hostName processId around.now
        { manager := { t with nodeManager, channelManager }
          left := some (hostName, processId)
          notified := nodes ++ channels ++ [msg] }
      else { manager := t, notified := [msg] }

/-! ## Names -/

/-- A process; its host's name has no plus sign. -/
structure Process where
  hostName : Str
  processId : BitVec 32
  plain : 0x2B ∉ hostName
  deriving DecidableEq

/-- `HostName() + '+' + std::to_string(ProcessId())` -/
def Process.participantName (p : Process) : Str :=
  p.hostName ++ [0x2B] ++ Decimal.toString p.processId.toInt

theorem parse_participantName (p : Process) :
    parseParticipantName p.participantName = some (p.hostName, p.processId) := by
  have hpos : p.participantName.findIdx? (· == 0x2B) = some p.hostName.length := by
    have hnone : p.hostName.findIdx? (· == 0x2B) = none := by
      refine List.findIdx?_eq_none_iff.mpr fun b hb => ?_
      rw [beq_eq_false_iff_ne]
      rintro rfl
      exact p.plain hb
    rw [Process.participantName, List.append_assoc, List.findIdx?_append, hnone,
      List.singleton_append, List.findIdx?_cons, if_pos (beq_self_eq_true _),
      Option.map_some, Nat.zero_add, Option.none_or]
  have hlow : -2 ^ 31 ≤ p.processId.toInt := BitVec.le_toInt p.processId
  have hhigh : p.processId.toInt < 2 ^ 31 := BitVec.toInt_lt
  have hpid : p.participantName.drop (p.hostName.length + 1) =
      Decimal.toString p.processId.toInt := by
    simp [Process.participantName]
  have hhost : p.participantName.take p.hostName.length = p.hostName := by
    rw [Process.participantName, List.append_assoc, List.take_left]
  rw [parseParticipantName, hpos]
  show (Decimal.stoi _ >>= fun pid => some (_, BitVec.ofInt 32 pid)) = _
  rw [hpid, hhost, Decimal.stoi_toString hlow hhigh]
  show some (p.hostName, BitVec.ofInt 32 p.processId.toInt) = _
  rw [BitVec.ofInt_toInt]

/-! ## One change -/

theorem manager_change (t : TopologyManager γ) (info : PartInfo γ) (around : Surroundings) :
    (t.onParticipantChange info around).manager.init = t.init ∧
      (t.onParticipantChange info around).manager.participantNames =
        (t.convert info around.msg around.now).1.participantNames := by
  have hconvert : (t.convert info around.msg around.now).1.init = t.init := rfl
  rw [onParticipantChange]
  split
  case h_1 t' heq =>
    rw [heq] at hconvert
    exact ⟨hconvert, by rw [heq]⟩
  case h_2 t' msg heq =>
    rw [heq] at hconvert
    split
    · exact ⟨hconvert, by rw [heq]⟩
    · split <;> exact ⟨hconvert, by rw [heq]⟩

theorem lookup_of_gone {t : TopologyManager γ} {info : PartInfo γ} {junk : Junk} {now : BitVec 64}
    (hgone : info.status.Gone) (guid : γ) :
    (t.convert info junk now).1.participantNames.lookup guid =
      if guid = info.guid then none else t.participantNames.lookup guid := by
  have hsame : t.participantNames.lookup info.guid = none →
      t.participantNames.lookup guid =
        if guid = info.guid then none else t.participantNames.lookup guid := by
    intro hname
    split
    case isTrue heq => rw [heq, hname]
    case isFalse => rfl
  rw [convert]
  rcases hgone with hstatus | hstatus <;>
    simp only [hstatus] <;> cases hname : t.participantNames.lookup info.guid with
    | some name => exact Table.lookup_erase _ _ _
    | none => exact hsame hname

theorem left_change {t : TopologyManager γ} (hinit : t.init = true) (info : PartInfo γ)
    (around : Surroundings) : (t.onParticipantChange info around).left =
      ((t.convert info around.msg around.now).2.bind fun msg =>
        if msg.operateType = OperateType.optLeave.word then
          some (msg.roleAttr.hostName, msg.roleAttr.processId)
        else none) := by
  have hconvert : (t.convert info around.msg around.now).1.init = true := hinit
  rw [onParticipantChange]
  split
  case h_1 t' heq =>
    rw [heq]
    rfl
  case h_2 t' msg heq =>
    rw [heq] at hconvert
    have hinit' : t'.init = true := hconvert
    rw [heq, hinit', if_neg (by decide), Option.bind_some]
    split <;> rfl

theorem left_of_gone {t : TopologyManager γ} (hinit : t.init = true) {info : PartInfo γ}
    (hgone : info.status.Gone) (around : Surroundings) :
    (t.onParticipantChange info around).left =
      (t.participantNames.lookup info.guid).bind parseParticipantName := by
  rw [left_change hinit, convert]
  rcases hgone with hstatus | hstatus <;>
    simp only [hstatus] <;> cases t.participantNames.lookup info.guid with
    | none => rfl
    | some name =>
        dsimp only
        rw [Option.bind_some]
        cases parseParticipantName name <;> rfl

theorem left_of_not_gone {t : TopologyManager γ} (hinit : t.init = true) {info : PartInfo γ}
    (hgone : ¬info.status.Gone) (around : Surroundings) :
    (t.onParticipantChange info around).left = none := by
  rw [left_change hinit, convert]
  cases hstatus : info.status with
  | discoveredParticipant =>
      dsimp only
      cases parseParticipantName info.participantName <;> rfl
  | removedParticipant => exact absurd (Or.inl hstatus) hgone
  | droppedParticipant => exact absurd (Or.inr hstatus) hgone
  | other => rfl

/-! ## Histories -/

structure Event (γ : Type) where
  guid : γ
  status : DiscoveryStatus
  process : Process
  around : Surroundings

def Event.info (e : Event γ) : PartInfo γ :=
  { guid := e.guid, status := e.status, participantName := e.process.participantName }

/-- A manager with the processes of the participants that are still discovered. -/
structure Traced (γ : Type) where
  manager : TopologyManager γ
  alive : γ → Option Process

namespace Traced

def step (t : Traced γ) (e : Event γ) : Traced γ :=
  { manager := (t.manager.onParticipantChange e.info e.around).manager
    alive := match e.status with
      | .discoveredParticipant => Function.update t.alive e.guid (some e.process)
      | .removedParticipant | .droppedParticipant => Function.update t.alive e.guid none
      | .other => t.alive }

def new (nodeManager : NodeManager) (channelManager : ChannelManager) : Traced γ :=
  { manager := { init := true, nodeManager, channelManager }, alive := fun _ => none }

/-- A process is only purged when its last participant is gone. -/
def PurgeRight (t : Traced γ) (e : Event γ) : Prop :=
  ∀ hostName processId,
    (t.manager.onParticipantChange e.info e.around).left = some (hostName, processId) →
      e.status.Gone ∧ ∃ p, t.alive e.guid = some p ∧ p.hostName = hostName ∧ p.processId = processId ∧
        ∀ guid, guid ≠ e.guid → t.alive guid ≠ some p

/-- A participant that goes is the last of its process. -/
def LastGoes (t : Traced γ) (e : Event γ) : Prop :=
  e.status.Gone → ∀ p, t.alive e.guid = some p → ∀ guid, guid ≠ e.guid → t.alive guid ≠ some p

structure Known (t : Traced γ) : Prop where
  init : t.manager.init = true
  names : ∀ guid, t.manager.participantNames.lookup guid =
    (t.alive guid).map Process.participantName

theorem alive_of_gone {t : Traced γ} {e : Event γ} (hgone : e.status.Gone) :
    (t.step e).alive = Function.update t.alive e.guid none := by
  rcases hgone with hstatus | hstatus <;> simp only [step, hstatus]

theorem known_step {t : Traced γ} (h : t.Known) (e : Event γ) : (t.step e).Known where
  init := (manager_change _ _ _).1.trans h.init
  names := by
    intro guid
    have hnames : (t.step e).manager.participantNames =
        (t.manager.convert e.info e.around.msg e.around.now).1.participantNames :=
      (manager_change _ _ _).2
    rw [hnames]
    by_cases hgone : e.status.Gone
    · have hinfo : e.info.status.Gone := hgone
      rw [lookup_of_gone hinfo, alive_of_gone hgone, Function.update_apply]
      show (if guid = e.guid then none else _) = _
      by_cases hguid : guid = e.guid
      · rw [if_pos hguid, if_pos hguid]
        rfl
      · rw [if_neg hguid, if_neg hguid, h.names]
    · rw [convert, step]
      cases hstatus : e.status with
      | discoveredParticipant =>
          simp only [Event.info, hstatus, Function.update_apply, Table.lookup_insert]
          split
          · rfl
          · exact h.names guid
      | removedParticipant => exact absurd (Or.inl hstatus) hgone
      | droppedParticipant => exact absurd (Or.inr hstatus) hgone
      | other =>
          simp only [Event.info, hstatus]
          exact h.names guid

theorem left_iff {t : Traced γ} (h : t.Known) (e : Event γ) (hostName : Str)
    (processId : BitVec 32) :
    (t.manager.onParticipantChange e.info e.around).left = some (hostName, processId) ↔
      e.status.Gone ∧ ∃ p, t.alive e.guid = some p ∧ p.hostName = hostName ∧ p.processId = processId := by
  by_cases hgone : e.status.Gone
  · have hinfo : e.info.status.Gone := hgone
    have hname : t.manager.participantNames.lookup e.info.guid =
        (t.alive e.guid).map Process.participantName := h.names e.guid
    rw [left_of_gone h.init hinfo, hname, and_iff_right hgone]
    cases t.alive e.guid with
    | none => exact iff_of_false (by simp) (by simp)
    | some p => simp [parse_participantName]
  · have hinfo : ¬e.info.status.Gone := hgone
    rw [left_of_not_gone h.init hinfo]
    exact iff_of_false (by simp) fun h => hgone h.1

theorem purgeRight_iff {t : Traced γ} (h : t.Known) (e : Event γ) :
    t.PurgeRight e ↔ t.LastGoes e := by
  constructor
  · intro hright hgone p hp
    obtain ⟨-, q, hq, -, -, hlast⟩ := hright p.hostName p.processId
      ((left_iff h e _ _).mpr ⟨hgone, p, hp, rfl, rfl⟩)
    rw [hp] at hq
    cases hq
    exact hlast
  · intro hlast hostName processId hleft
    obtain ⟨hgone, p, hp, hhost, hpid⟩ := (left_iff h e _ _).mp hleft
    exact ⟨hgone, p, hp, hhost, hpid, hlast hgone p hp⟩

theorem known_new (nodeManager : NodeManager) (channelManager : ChannelManager) :
    (new nodeManager channelManager : Traced γ).Known :=
  ⟨rfl, fun _ => rfl⟩

/-- All through a history the purges are right if and only if every participant that
goes is the last of its process. -/
theorem purgeRight_iff_lastGoes (nodeManager : NodeManager) (channelManager : ChannelManager)
    (events : List (Event γ)) :
    Run.Along step PurgeRight (new nodeManager channelManager) events ↔
      Run.Along step LastGoes (new nodeManager channelManager) events :=
  Run.along_iff_along (I := Known) (fun _ e h => purgeRight_iff h e)
    (fun _ e h _ => known_step h e) (known_new nodeManager channelManager)

/-- The two participants of process 7 on host `h` are discovered, and the second is
gone. -/
def secondGoes : List (Event Nat) :=
  let process : Process := { hostName := [0x68], processId := 7, plain := by decide }
  let around : Surroundings :=
    { msg := fun _ _ => 0, nodes := fun _ _ => 0, channels := fun _ _ => 0, now := 0 }
  [{ guid := 1, status := .discoveredParticipant, process, around },
    { guid := 2, status := .discoveredParticipant, process, around },
    { guid := 2, status := .removedParticipant, process, around }]

/-- The process is purged while its first participant is still there. -/
theorem secondGoes_not_purgeRight :
    ¬Run.Along step PurgeRight (new (.new [] 0) (.new [] 0)) secondGoes := by
  intro h
  obtain ⟨-, -, hright, -⟩ := h
  obtain ⟨-, p, hp, -, -, hlast⟩ := hright [0x68] 7 (by decide +kernel)
  exact hlast 1 (by decide) hp

end Traced

end TopologyManager

end Discovery
end Cmw
