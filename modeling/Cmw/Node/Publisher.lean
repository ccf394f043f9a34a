import Cmw.Discovery.SpecificManager
import Cmw.Library.Run
import Cmw.Transport.Transmitter
import Mathlib.Data.Finset.Basic

/-!
# Publishers

node/publisher.h.  A publisher enables its transmitter for every reader that joins
its channel and disables it for every reader that leaves, but the transmitter is
not told which readers it is still enabled for.
-/

namespace Cmw
namespace Node

open Config
open Discovery
open Library
open Transport

structure Publisher where
  roleAttr : RoleAttributes
  initialised : Bool := false
  transmitter : Option RtpsTransmitter := none
  deriving DecidableEq

namespace Publisher

/-- `CreateTransmitter(attr)` of the transport. -/
def createTransmitter (isShutdown : Bool) (m : ChannelManager) (attr : RoleAttributes)
    (id : Identity) (answer : WriterAnswer) : Option RtpsTransmitter :=
  if isShutdown then none
  else some ((RtpsTransmitter.new attr m.hostName m.processId id).enable answer)

def onChannelChange (p : Publisher) (changeMsg : ChangeMsg) (answer : WriterAnswer) : Publisher :=
  if changeMsg.roleType ≠ RoleType.roleReader.word then p
  else if changeMsg.roleAttr.channelName ≠ p.roleAttr.channelName then p
  else if changeMsg.operateType = OperateType.optJoin.word then
    { p with transmitter := p.transmitter.map fun t => t.enableTo changeMsg.roleAttr answer }
  else { p with transmitter := p.transmitter.map fun t => t.disableFrom changeMsg.roleAttr }

/-- `JoinTheTopology()`, with what the publisher hears of it itself. -/
def joinTheTopology (p : Publisher) (m : ChannelManager) (answer : WriterAnswer)
    (now : BitVec 64) : Publisher × ChannelManager :=
  match m.prepare ChannelManager.check p.roleAttr .roleWriter .optJoin now with
  | none => (p, m)
  | some msg =>
      let (m, notified) := m.dispose msg
      (notified.foldl (fun p msg => p.onChannelChange msg answer) p, m)

/-- `Init()`; `id` is the identity of the new transmitter. -/
def init (p : Publisher) (isShutdown : Bool) (m : ChannelManager) (id : Identity)
    (answer : WriterAnswer) (now : BitVec 64) : Bool × Publisher × ChannelManager :=
  if p.initialised then (true, p, m)
  else
    match createTransmitter isShutdown m p.roleAttr id answer with
    | none => (false, p, m)
    | some transmitter =>
        let p :=
          { p with
            transmitter := some transmitter
            initialised := true
            roleAttr := { p.roleAttr with id := transmitter.id.hashValue } }
        (true, p.joinTheTopology m answer now)

def enabled (p : Publisher) : Bool := p.transmitter.any fun t => t.enabled

def Concerns (p : Publisher) (msg : ChangeMsg) : Prop :=
  msg.roleType = RoleType.roleReader.word ∧ msg.roleAttr.channelName = p.roleAttr.channelName

instance (p : Publisher) (msg : ChangeMsg) : Decidable (p.Concerns msg) :=
  inferInstanceAs (Decidable (_ ∧ _))

/-- No message that it publishes is refused. -/
def Serves (p : Publisher) : Prop := ∃ t, p.transmitter = some t ∧ t.Accepts

theorem serves_iff (p : Publisher) : p.Serves ↔ p.enabled = true := by
  rw [Serves, enabled]
  cases p.transmitter with
  | none => exact iff_of_false (by rintro ⟨t, ht, -⟩; cases ht) Bool.false_ne_true
  | some t =>
      rw [Option.any_some, ← t.accepts_iff]
      exact ⟨fun ⟨_, ht, haccepts⟩ => Option.some.inj ht ▸ haccepts, fun h => ⟨t, rfl, h⟩⟩

theorem onChannelChange_other (p : Publisher) {msg : ChangeMsg}
    (hrole : msg.roleType ≠ RoleType.roleReader.word) (answer : WriterAnswer) :
    p.onChannelChange msg answer = p := if_pos hrole

theorem enabled_onChannelChange {p : Publisher} (hsome : p.transmitter.isSome = true)
    (msg : ChangeMsg) (answer : WriterAnswer) :
    (p.onChannelChange msg answer).enabled =
      if ¬p.Concerns msg then p.enabled
      else if msg.operateType = OperateType.optJoin.word then p.enabled || answer == .registered
      else false := by
  obtain ⟨t, ht⟩ := Option.isSome_iff_exists.mp hsome
  rw [onChannelChange]
  by_cases hrole : msg.roleType = RoleType.roleReader.word
  · by_cases hname : msg.roleAttr.channelName = p.roleAttr.channelName
    · have hconcerns : p.Concerns msg := ⟨hrole, hname⟩
      rw [if_neg (not_not_intro hrole), if_neg (not_not_intro hname),
        if_neg (not_not_intro hconcerns)]
      split
      · rw [enabled, enabled, ht]
        exact t.enabled_enable answer
      · rw [enabled, ht]
        exact t.enabled_disable
    · have hconcerns : ¬p.Concerns msg := fun h => hname h.2
      rw [if_neg (not_not_intro hrole), if_pos hname, if_pos hconcerns]
  · have hconcerns : ¬p.Concerns msg := fun h => hrole h.1
    rw [if_pos hrole, if_pos hconcerns]

theorem isSome_onChannelChange (p : Publisher) (msg : ChangeMsg) (answer : WriterAnswer) :
    (p.onChannelChange msg answer).transmitter.isSome = p.transmitter.isSome := by
  rw [onChannelChange]
  split
  · rfl
  split
  · rfl
  split
  · exact Option.isSome_map
  · exact Option.isSome_map

/-- What a publisher says of itself does not concern it. -/
theorem joinTheTopology_self (p : Publisher) (m : ChannelManager) (answer : WriterAnswer)
    (now : BitVec 64) : (p.joinTheTopology m answer now).1 = p := by
  rw [joinTheTopology]
  split
  · rfl
  case h_2 msg hprepare =>
    obtain ⟨-, rfl⟩ := Manager.prepare_eq hprepare
    have hrole : (m.convert p.roleAttr .roleWriter .optJoin now).roleType ≠
        RoleType.roleReader.word :=
      show RoleType.roleWriter.word ≠ RoleType.roleReader.word by decide
    exact p.onChannelChange_other hrole answer

end Publisher

/-! ## Histories -/

/-- A message that a publisher hears, and what comes of a writer that it asks for. -/
structure Change where
  msg : ChangeMsg
  answer : WriterAnswer

/-- A publisher with the ids of the readers that have joined and not left. -/
structure Audience where
  publisher : Publisher
  joined : Finset (BitVec 64)

namespace Audience

def step (a : Audience) (c : Change) : Audience :=
  { publisher := a.publisher.onChannelChange c.msg c.answer
    joined :=
      if ¬a.publisher.Concerns c.msg then a.joined
      else if c.msg.operateType = OperateType.optJoin.word then insert c.msg.roleAttr.id a.joined
      else a.joined.erase c.msg.roleAttr.id }

/-- A publisher after `Init()`, where the readers `present` have joined before. -/
def start (roleAttr : RoleAttributes) (m : ChannelManager) (id : Identity) (answer : WriterAnswer)
    (now : BitVec 64) (present : Finset (BitVec 64)) : Audience :=
  { publisher := (Publisher.init { roleAttr } false m id answer now).2.1, joined := present }

/-- As long as there is a reader, the transmitter does not refuse. -/
def Served (a : Audience) : Prop := a.joined ≠ ∅ → a.publisher.Serves

/-- A reader that joins finds a writer or gets one, and one that leaves is the last. -/
def Safe (a : Audience) (c : Change) : Prop :=
  a.publisher.Concerns c.msg →
    if c.msg.operateType = OperateType.optJoin.word then
      a.publisher.enabled = true ∨ c.answer = .registered
    else a.joined.erase c.msg.roleAttr.id = ∅

theorem served_iff (a : Audience) : a.Served ↔ (a.joined ≠ ∅ → a.publisher.enabled = true) := by
  rw [Served, a.publisher.serves_iff]

theorem served_step {a : Audience} (hsome : a.publisher.transmitter.isSome = true)
    (hserved : a.Served) (c : Change) : (a.step c).Served ↔ a.Safe c := by
  rw [served_iff] at hserved ⊢
  have henabled := Publisher.enabled_onChannelChange hsome c.msg c.answer
  by_cases hconcerns : a.publisher.Concerns c.msg
  · rw [if_neg (not_not_intro hconcerns)] at henabled
    rw [Safe, imp_iff_right hconcerns, step, if_neg (not_not_intro hconcerns), henabled]
    split
    · rw [imp_iff_right (Finset.insert_ne_empty _ _), Bool.or_eq_true, beq_iff_eq]
    · exact ⟨fun h => by_contra fun hne => Bool.false_ne_true (h hne), fun h hne => absurd h hne⟩
  · rw [if_pos hconcerns] at henabled
    rw [step, if_pos hconcerns, henabled]
    exact iff_of_true hserved fun h => absurd h hconcerns

theorem start_isSome (roleAttr : RoleAttributes) (m : ChannelManager) (id : Identity)
    (answer : WriterAnswer) (now : BitVec 64) (present : Finset (BitVec 64)) :
    (start roleAttr m id answer now present).publisher.transmitter.isSome = true := by
  show (Publisher.joinTheTopology _ _ _ _).1.transmitter.isSome = true
  rw [Publisher.joinTheTopology_self]
  rfl

theorem start_served_iff (roleAttr : RoleAttributes) (m : ChannelManager) (id : Identity)
    (answer : WriterAnswer) (now : BitVec 64) (present : Finset (BitVec 64)) :
    (start roleAttr m id answer now present).Served ↔ (present ≠ ∅ → answer = .registered) := by
  have henabled : (start roleAttr m id answer now present).publisher.enabled =
      (answer == .registered) := by
    show (Publisher.joinTheTopology _ _ _ _).1.enabled = _
    rw [Publisher.joinTheTopology_self]
    exact RtpsTransmitter.enabled_enable _ _
  rw [served_iff, henabled, beq_iff_eq]
  rfl

/-- The transmitter serves the readers all through a history if and only if it has
those who are there at the start and every step of it is safe. -/
theorem served_iff_safe (roleAttr : RoleAttributes) (m : ChannelManager) (id : Identity)
    (answer : WriterAnswer) (now : BitVec 64) (present : Finset (BitVec 64))
    (changes : List Change) :
    (∀ a ∈ Run.states step (start roleAttr m id answer now present) changes, a.Served) ↔
      (present ≠ ∅ → answer = .registered) ∧
        Run.Along step Safe (start roleAttr m id answer now present) changes := by
  have hkeep : ∀ (a : Audience) (c : Change), a.publisher.transmitter.isSome = true →
      (a.step c).publisher.transmitter.isSome = true := fun a c hsome =>
    (a.publisher.isSome_onChannelChange c.msg c.answer).trans hsome
  have hsome := start_isSome roleAttr m id answer now present
  rw [← start_served_iff roleAttr m id answer now present]
  constructor
  · intro h
    have hstart := h _ (Run.mem_states_self step _ changes)
    exact ⟨hstart, (Run.states_iff_along hkeep (fun _ c hs hI => served_step hs hI c)
      hsome hstart).mp h⟩
  · intro hp
    obtain ⟨hstart, hsafe⟩ := hp
    exact (Run.states_iff_along hkeep (fun _ c hs hI => served_step hs hI c)
      hsome hstart).mpr hsafe

def reader (id : BitVec 64) (opt : OperateType) : Change :=
  { msg :=
      { timestamp := 0, changeType := ChangeType.changeChannel.word, operateType := opt.word,
        roleType := RoleType.roleReader.word, roleAttr := (attr id) }
    answer := .registered }
where
  attr (id : BitVec 64) : RoleAttributes :=
    { hostName := [0x68], hostIp := [], processId := 7, channelName := [0x63], channelId := 2,
      qosProfile := {}, id, nodeName := [0x6E], nodeId := 1, messageType := [] }

/-- Two readers join the channel of publisher 5, and the first leaves. -/
theorem firstLeaves_not_served :
    ¬∀ a ∈ Run.states step
        (start (reader.attr 0) (.new [0x68] 7) { Identity.zero with hashValue := 5 } .registered 0 ∅)
        [reader 3 .optJoin, reader 4 .optJoin, reader 3 .optLeave], a.Served := by
  intro h
  have hserved := (served_iff _).mp (h _ (Run.exec_mem_states _ _ _))
  revert hserved
  decide +kernel

end Audience

end Node
end Cmw
