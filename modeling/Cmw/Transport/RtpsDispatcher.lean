import Cmw.Library.Run
import Cmw.Node.NodeChannelImpl
import Cmw.Transport.Receiver

/-!
# The ids of the channels

transport/dispatcher/rtps_dispatcher.h and transport/rtps/rea_listener.cpp, in a process whose
roles have the ids of their channels from `FillInAttr`.  The handlers are kept under these
ids, but a message is taken to the handler under the hash of its channel's name.  `hash` is
`common::Hash`.
-/

namespace Cmw
namespace Transport

open Base
open Common
open Config
open Library
open Node
open Serialize

/-- Of a reader there is the name of the channel that its `ReaListener` has, which is that of
the messages it reads. -/
structure RtpsDispatcher (κ : Type) extends Dispatcher κ where
  participant : Bool := false
  readers : Table (BitVec 64) Str := ∅

namespace RtpsDispatcher

variable {κ : Type}

def addReader (d : RtpsDispatcher κ) (selfAttr : RoleAttributes) : RtpsDispatcher κ :=
  if !d.participant then d
  else if selfAttr.channelId ∈ d.readers then d
  else { d with readers := d.readers.insert selfAttr.channelId selfAttr.channelName }

def addListener (d : RtpsDispatcher κ) (selfAttr : RoleAttributes) (listener : κ) :
    RtpsDispatcher κ :=
  addReader { d with toDispatcher := d.toDispatcher.addListener selfAttr listener } selfAttr

/-- `AddListener(self_attr, opposite_attr, listener)` -/
def addListenerTo (d : RtpsDispatcher κ) (selfAttr oppositeAttr : RoleAttributes) (listener : κ) :
    RtpsDispatcher κ :=
  addReader { d with toDispatcher := d.toDispatcher.addListenerTo selfAttr oppositeAttr listener }
    selfAttr

def shutdown (d : RtpsDispatcher κ) : RtpsDispatcher κ :=
  if d.isShutdown then d else { d with isShutdown := true, participant := false }

/-- `onNewCacheChangeAdded` of a `ReaListener` with this name: the listeners that are called. -/
def onNewCacheChangeAdded (hash : Str → BitVec 64) (d : RtpsDispatcher κ) (channelName : Str)
    (senderId : BitVec 64) : List κ × RtpsDispatcher κ :=
  let channelId := hash channelName
  let (called, dispatcher) := d.toDispatcher.onMessage channelId senderId
  (called, { d with toDispatcher := dispatcher })

end RtpsDispatcher

/-- A process with its receivers, each known by its attributes.  What is kept of the run besides:
the channels that have been registered, with what the calls have returned, and the receivers that
have been called, with the channel of the message. -/
structure RtpsProcess where
  globalData : GlobalData := {}
  dispatcher : RtpsDispatcher RoleAttributes := {}
  receivers : List RoleAttributes := []
  registered : List (Str × Option (BitVec 64)) := []
  dispatched : List (Str × RoleAttributes) := []

namespace RtpsProcess

variable (hash : Str → BitVec 64)

/-- A call that does not end leaves all as it was. -/
def registerChannel (p : RtpsProcess) (channel : Str) : RtpsProcess :=
  let out := p.globalData.registerChannel hash channel
  { p with
    globalData := (out.map Prod.snd).getD p.globalData
    registered := p.registered ++ [(channel, out.map Prod.fst)] }

/-- A receiver for a role that a node has filled in. -/
def newReceiver (p : RtpsProcess) (n : NodeChannelImpl) (roleAttr : RoleAttributes)
    (hostName : Str) (processId : BitVec 32) (id : BitVec 64) : RtpsProcess :=
  if roleAttr.channelName.isEmpty then p
  else
    match n.newAttr hash p.globalData roleAttr with
    | none => p.registerChannel hash roleAttr.channelName
    | some (newAttr, _) =>
        let p := p.registerChannel hash roleAttr.channelName
        { p with receivers := p.receivers ++ [endpointAttr newAttr hostName processId id] }

/-- A message arrives at the reader under this key. -/
def message (p : RtpsProcess) (key senderId : BitVec 64) : RtpsProcess :=
  match p.dispatcher.readers.lookup key with
  | none => p
  | some channelName =>
      let (called, dispatcher) :=
        p.dispatcher.onNewCacheChangeAdded hash channelName senderId
      { p with
        dispatcher
        dispatched := p.dispatched ++ called.map fun attr => (channelName, attr) }

/-- What is done with the dispatcher for a receiver. -/
def onDispatcher (p : RtpsProcess) (i : Nat)
    (f : RtpsDispatcher RoleAttributes → RoleAttributes → RtpsDispatcher RoleAttributes) :
    RtpsProcess :=
  match p.receivers[i]? with
  | none => p
  | some attr => { p with dispatcher := f p.dispatcher attr }

inductive Event
  | setParticipant
  | registerChannel (channel : Str)
  | newReceiver (n : NodeChannelImpl) (roleAttr : RoleAttributes) (hostName : Str)
      (processId : BitVec 32) (id : BitVec 64)
  | addListener (i : Nat)
  | addListenerTo (i : Nat) (oppositeAttr : RoleAttributes)
  | removeListener (i : Nat)
  | removeListenerFrom (i : Nat) (oppositeAttr : RoleAttributes)
  | message (key senderId : BitVec 64)
  | shutdown

def step (p : RtpsProcess) : Event → RtpsProcess
  | .setParticipant => { p with dispatcher := { p.dispatcher with participant := true } }
  | .registerChannel channel => p.registerChannel hash channel
  | .newReceiver n roleAttr hostName processId id =>
      p.newReceiver hash n roleAttr hostName processId id
  | .addListener i => p.onDispatcher i fun d attr => d.addListener attr attr
  | .addListenerTo i oppositeAttr => p.onDispatcher i fun d attr =>
      d.addListenerTo attr oppositeAttr attr
  | .removeListener i => p.onDispatcher i fun d attr =>
      { d with toDispatcher := d.toDispatcher.removeListener attr }
  | .removeListenerFrom i oppositeAttr => p.onDispatcher i fun d attr =>
      { d with toDispatcher := d.toDispatcher.removeListenerFrom attr oppositeAttr }
  | .message key senderId => p.message hash key senderId
  | .shutdown => { p with dispatcher := p.dispatcher.shutdown }

/-- The channels that a process registers are among `names`. -/
def Event.Within (names : Set Str) : Event → Prop
  | .registerChannel channel => channel ∈ names
  | .newReceiver _ roleAttr _ _ _ => roleAttr.channelName ∈ names
  | _ => True

end RtpsProcess

/-- The listener is one of those that messages call, all or only those of one sender. -/
def ListenerHandler.Listens {κ : Type} (h : ListenerHandler κ) (listener : κ) : Prop :=
  listener ∈ h.signal.called ∨ ∃ id, listener ∈ h.calledTo id

namespace RtpsProcess

/-- The listeners of a channel are under the id that its messages have, and no message has called
the receiver of another channel. -/
structure OneChannel (hash : Str → BitVec 64) (p : RtpsProcess) : Prop where
  listeners : ∀ id attr, (p.dispatcher.handler id).Listens attr → id = hash attr.channelName
  dispatched : ∀ m ∈ p.dispatched, m.2.channelName = m.1

/-- Two processes register a channel with one id, and neither of them mixes up its channels. -/
structure Agree (hash : Str → BitVec 64) (p q : RtpsProcess) : Prop where
  ids : ∀ r ∈ p.registered, ∀ r' ∈ q.registered, r.1 = r'.1 → ∃ id, r.2 = some id ∧ r'.2 = some id
  left : p.OneChannel hash
  right : q.OneChannel hash

end RtpsProcess

/-! ## The listeners of a dispatcher -/

namespace ListenerHandler

variable {κ : Type} {h : ListenerHandler κ} {a l : κ}

theorem listens_connect {selfId : BitVec 64} (ha : (h.connect selfId l).Listens a) :
    a = l ∨ h.Listens a := by
  rcases ha with ha | ha
  · have ha : a ∈ (h.signal.connect l).2.called := ha
    rw [Signal.called_connect, List.mem_append, List.mem_singleton] at ha
    rcases ha with ha | ha
    · exact .inr (.inl ha)
    · exact .inl ha
  · exact .inr (.inr ha)

theorem listens_connectTo {selfId oppoId : BitVec 64} (ha : (h.connectTo selfId oppoId l).Listens a) :
    a = l ∨ h.Listens a := by
  rcases ha with ha | ha
  · exact .inr (.inl ha)
  · obtain ⟨id, ha⟩ := ha
    rw [calledTo_connectTo] at ha
    split at ha
    case isTrue =>
      rw [List.mem_append, List.mem_singleton] at ha
      rcases ha with ha | ha
      · exact .inr (.inr ⟨oppoId, ha⟩)
      · exact .inl ha
    case isFalse => exact .inr (.inr ⟨id, ha⟩)

theorem listens_disconnect {selfId : BitVec 64} (ha : (h.disconnect selfId).Listens a) :
    h.Listens a := by
  rw [disconnect] at ha
  split at ha
  case h_1 => exact ha
  case h_2 =>
    rcases ha with ha | ha
    · exact .inl (Signal.mem_called_disconnect ha)
    · exact .inr ha

theorem listens_disconnectFrom {selfId oppoId : BitVec 64}
    (ha : (h.disconnectFrom selfId oppoId).Listens a) : h.Listens a := by
  rcases ha with ha | ha
  · rw [signal_disconnectFrom] at ha
    exact .inl ha
  · obtain ⟨id, ha⟩ := ha
    refine .inr ⟨id, ?_⟩
    rw [disconnectFrom] at ha
    split at ha
    case h_1 => exact ha
    case h_2 =>
      split at ha
      case h_1 => exact ha
      case h_2 =>
        rw [calledTo, Table.get_insert] at ha
        split at ha
        case isTrue hid =>
          rw [hid]
          exact Signal.mem_called_disconnect ha
        case isFalse => exact ha

theorem listens_run {oppoId : BitVec 64} (ha : (h.run oppoId).2.Listens a) : h.Listens a := by
  rcases ha with ha | ha
  · rw [(run_keeps h oppoId 0).1] at ha
    exact .inl ha
  · obtain ⟨id, ha⟩ := ha
    rw [(run_keeps h oppoId id).2] at ha
    exact .inr ⟨id, ha⟩

theorem listens_of_run {oppoId : BitVec 64} (ha : a ∈ (h.run oppoId).1) : h.Listens a := by
  rw [run_called, List.mem_append] at ha
  rcases ha with ha | ha
  · exact .inl ha
  · exact .inr ⟨oppoId, ha⟩

end ListenerHandler

namespace Dispatcher

variable {κ : Type} {d : Dispatcher κ} {a l : κ} {k : BitVec 64}

theorem handler_update_eq (d : Dispatcher κ) (channelId k : BitVec 64)
    (f : ListenerHandler κ → ListenerHandler κ) :
    (d.update channelId f).handler k = if k = channelId then f (d.handler channelId)
      else d.handler k := by
  rw [handler, update, Table.get_insert]
  rfl

/-- What is done with a handler adds no listener but those with `P`. -/
theorem listens_update {channelId : BitVec 64} {f : ListenerHandler κ → ListenerHandler κ}
    {P : Prop} (hf : ∀ h : ListenerHandler κ, (f h).Listens a → P ∨ h.Listens a)
    (ha : ((d.update channelId f).handler k).Listens a) :
    (k = channelId ∧ P) ∨ (d.handler k).Listens a := by
  rw [handler_update_eq] at ha
  split at ha
  case isTrue hk =>
    rcases hf _ ha with ha | ha
    · exact .inl ⟨hk, ha⟩
    · exact .inr (hk ▸ ha)
  case isFalse => exact .inr ha

theorem listens_update_of_imp {channelId : BitVec 64} {f : ListenerHandler κ → ListenerHandler κ}
    (hf : ∀ h : ListenerHandler κ, (f h).Listens a → h.Listens a)
    (ha : ((d.update channelId f).handler k).Listens a) : (d.handler k).Listens a :=
  (listens_update (P := False) (fun h ha => .inr (hf h ha)) ha).resolve_left fun h => h.2

theorem listens_addListener {selfAttr : RoleAttributes}
    (ha : ((d.addListener selfAttr l).handler k).Listens a) :
    (k = selfAttr.channelId ∧ a = l) ∨ (d.handler k).Listens a := by
  rw [addListener] at ha
  split at ha
  case isTrue => exact .inr ha
  case isFalse => exact listens_update (fun _ => ListenerHandler.listens_connect) ha

theorem listens_addListenerTo {selfAttr oppositeAttr : RoleAttributes}
    (ha : ((d.addListenerTo selfAttr oppositeAttr l).handler k).Listens a) :
    (k = selfAttr.channelId ∧ a = l) ∨ (d.handler k).Listens a := by
  rw [addListenerTo] at ha
  split at ha
  case isTrue => exact .inr ha
  case isFalse => exact listens_update (fun _ => ListenerHandler.listens_connectTo) ha

theorem listens_removeListener {selfAttr : RoleAttributes}
    (ha : ((d.removeListener selfAttr).handler k).Listens a) : (d.handler k).Listens a := by
  rw [removeListener] at ha
  split at ha
  · exact ha
  split at ha
  · exact listens_update_of_imp (fun _ => ListenerHandler.listens_disconnect) ha
  · exact ha

theorem listens_removeListenerFrom {selfAttr oppositeAttr : RoleAttributes}
    (ha : ((d.removeListenerFrom selfAttr oppositeAttr).handler k).Listens a) :
    (d.handler k).Listens a := by
  rw [removeListenerFrom] at ha
  split at ha
  · exact ha
  split at ha
  · exact listens_update_of_imp (fun _ => ListenerHandler.listens_disconnectFrom) ha
  · exact ha

/-- A message calls listeners that are under its id, and leaves all where they are. -/
theorem listens_onMessage (d : Dispatcher κ) (channelId senderId : BitVec 64) :
    (∀ a ∈ (d.onMessage channelId senderId).1, (d.handler channelId).Listens a) ∧
      ∀ k a, ((d.onMessage channelId senderId).2.handler k).Listens a →
        (d.handler k).Listens a := by
  have hnone : ∀ a ∈ ([] : List κ), (d.handler channelId).Listens a := List.forall_mem_nil _
  rw [onMessage]
  split
  case isTrue => exact ⟨hnone, fun k a ha => ha⟩
  case isFalse =>
    split
    case h_1 => exact ⟨hnone, fun k a ha => ha⟩
    case h_2 h hlookup =>
      have hold : d.handler channelId = h := Table.get_of_lookup hlookup
      rw [hold]
      refine ⟨fun a ha => ListenerHandler.listens_of_run ha, fun k a ha => ?_⟩
      dsimp only at ha
      rw [handler, Table.get_insert] at ha
      split at ha
      case isTrue hk =>
        rw [hk, hold]
        exact ListenerHandler.listens_run ha
      case isFalse => exact ha

end Dispatcher

namespace RtpsDispatcher

variable {κ : Type} {d : RtpsDispatcher κ} {selfAttr : RoleAttributes}

theorem toDispatcher_addReader (d : RtpsDispatcher κ) (selfAttr : RoleAttributes) :
    (d.addReader selfAttr).toDispatcher = d.toDispatcher := by
  rw [addReader]
  split
  · rfl
  · split <;> rfl

theorem lookup_addReader {k : BitVec 64} {name : Str}
    (h : (d.addReader selfAttr).readers.lookup k = some name) :
    name = selfAttr.channelName ∨ d.readers.lookup k = some name := by
  rw [addReader] at h
  split at h
  · exact .inr h
  split at h
  · exact .inr h
  · rw [Table.lookup_insert] at h
    split at h
    · exact .inl (Option.some.inj h).symm
    · exact .inr h

end RtpsDispatcher

/-! ## Two processes -/

namespace RtpsProcess

variable {hash : Str → BitVec 64} {names : Set Str} {p : RtpsProcess}

/-- What a process has is about channels among `names`, each of which has its hash for its id. -/
structure Right (hash : Str → BitVec 64) (names : Set Str) (p : RtpsProcess) : Prop where
  hashed : Hashed hash names (p.globalData.names .channel)
  registered : ∀ r ∈ p.registered, r.2 = some (hash r.1)
  receivers : ∀ a ∈ p.receivers, a.channelId = hash a.channelName ∧ a.channelName ∈ names
  readers : ∀ k name, p.dispatcher.readers.lookup k = some name → name ∈ names
  listeners : ∀ k a, (p.dispatcher.handler k).Listens a →
    k = hash a.channelName ∧ a.channelName ∈ names
  dispatched : ∀ m ∈ p.dispatched, m.2.channelName = m.1

theorem right_new (hash : Str → BitVec 64) (names : Set Str) : Right hash names {} where
  hashed id name h := by cases h
  registered r hr := absurd hr List.not_mem_nil
  receivers a ha := absurd ha List.not_mem_nil
  readers k name h := by cases h
  listeners k a h := by
    rcases h with h | h
    · cases h
    · obtain ⟨id, h⟩ := h
      cases h
  dispatched m hm := absurd hm List.not_mem_nil

theorem Right.oneChannel (h : p.Right hash names) : p.OneChannel hash where
  listeners id a ha := (h.listeners id a ha).1
  dispatched := h.dispatched

/-- A channel among `names` is registered with its hash. -/
theorem registerChannel_eq (h : p.Right hash names) (hinj : Set.InjOn hash names) {channel : Str}
    (hchannel : channel ∈ names) :
    ∃ d, p.globalData.registerChannel hash channel = some (hash channel, d) ∧
      Hashed hash names (d.names .channel) := by
  obtain ⟨d, hd⟩ : ∃ d, p.globalData.register hash .channel channel = some (hash channel, d) :=
    GlobalData.register_of_stop (h.hashed.stop hinj hchannel)
  have hentered := (GlobalData.entered_of_register hd).1
  exact ⟨d, hd, hentered.hashed h.hashed hinj hchannel⟩

theorem Right.registerChannel (h : p.Right hash names) (hinj : Set.InjOn hash names)
    {channel : Str} (hchannel : channel ∈ names) :
    (p.registerChannel hash channel).Right hash names := by
  obtain ⟨d, hd, hhashed⟩ := registerChannel_eq h hinj hchannel
  rw [RtpsProcess.registerChannel, hd]
  refine { h with hashed := hhashed, registered := fun r hr => ?_ }
  rcases List.mem_append.mp hr with hr | hr
  · exact h.registered r hr
  · rw [List.mem_singleton.mp hr]
    rfl

theorem Right.newReceiver (h : p.Right hash names) (hinj : Set.InjOn hash names)
    (n : NodeChannelImpl) {roleAttr : RoleAttributes} (hchannel : roleAttr.channelName ∈ names)
    (hostName : Str) (processId : BitVec 32) (id : BitVec 64) :
    (p.newReceiver hash n roleAttr hostName processId id).Right hash names := by
  have hregister := h.registerChannel hinj hchannel
  rw [RtpsProcess.newReceiver]
  split
  case isTrue => exact h
  case isFalse =>
    split
    case h_1 => exact hregister
    case h_2 newAttr d hattr =>
      obtain ⟨hfilled, -, hid⟩ := NodeChannelImpl.newAttr_eq hattr
      have hentered := (GlobalData.entered_of_register hid).1
      refine { hregister with receivers := fun a ha => ?_ }
      rcases List.mem_append.mp ha with ha | ha
      · exact h.receivers a ha
      · rw [List.mem_singleton.mp ha]
        show newAttr.channelId = hash newAttr.channelName ∧ newAttr.channelName ∈ names
        rw [hfilled.channelName]
        exact ⟨hentered.eq_hash h.hashed hinj hchannel, hchannel⟩

/-- What is done with the dispatcher for a receiver adds no listener but this one, and no reader
but one of its channel. -/
theorem Right.onDispatcher (h : p.Right hash names) (i : Nat)
    {f : RtpsDispatcher RoleAttributes → RoleAttributes → RtpsDispatcher RoleAttributes}
    (hlistens : ∀ d attr k a, ((f d attr).handler k).Listens a →
      (k = attr.channelId ∧ a = attr) ∨ (d.handler k).Listens a)
    (hreaders : ∀ d attr k name, (f d attr).readers.lookup k = some name →
      name = attr.channelName ∨ d.readers.lookup k = some name) :
    (p.onDispatcher i f).Right hash names := by
  rw [RtpsProcess.onDispatcher]
  split
  case h_1 => exact h
  case h_2 attr hattr =>
    obtain ⟨hid, hname⟩ := h.receivers attr (List.mem_of_getElem? hattr)
    refine { h with readers := fun k name hk => ?_, listeners := fun k a ha => ?_ }
    · rcases hreaders _ _ k name hk with hk | hk
      · exact hk ▸ hname
      · exact h.readers k name hk
    · rcases hlistens _ _ k a ha with ⟨hk, rfl⟩ | ha
      · exact ⟨hk.trans hid, hname⟩
      · exact h.listeners k a ha

/-- The listeners that a message calls are those of its channel. -/
theorem Right.message (h : p.Right hash names) (hinj : Set.InjOn hash names)
    (key senderId : BitVec 64) : (p.message hash key senderId).Right hash names := by
  rw [RtpsProcess.message]
  split
  case h_1 => exact h
  case h_2 channelName hlookup =>
    obtain ⟨hcalled, hkept⟩ :=
      p.dispatcher.toDispatcher.listens_onMessage (hash channelName) senderId
    refine { h with listeners := fun k a ha => ?_, dispatched := fun m hm => ?_ }
    · exact h.listeners k a (hkept k a ha)
    · rcases List.mem_append.mp hm with hm | hm
      · exact h.dispatched m hm
      · obtain ⟨a, ha, rfl⟩ := List.mem_map.mp hm
        obtain ⟨hhash, hname⟩ := h.listeners _ a (hcalled a ha)
        exact hinj hname (h.readers key channelName hlookup) hhash.symm

theorem Right.step (h : p.Right hash names) (hinj : Set.InjOn hash names) {e : Event}
    (he : e.Within names) : (p.step hash e).Right hash names := by
  cases e with
  | setParticipant => exact { h with }
  | registerChannel channel => exact h.registerChannel hinj he
  | newReceiver n roleAttr hostName processId id =>
      exact h.newReceiver hinj n he hostName processId id
  | addListener i =>
      refine h.onDispatcher (f := fun d attr => d.addListener attr attr) i
        (fun d attr k a ha => ?_) fun d attr k name hk => ?_
      · rw [RtpsDispatcher.addListener, RtpsDispatcher.toDispatcher_addReader] at ha
        exact Dispatcher.listens_addListener ha
      · exact RtpsDispatcher.lookup_addReader
          (d := { d with toDispatcher := d.toDispatcher.addListener attr attr }) hk
  | addListenerTo i oppositeAttr =>
      refine h.onDispatcher (f := fun d attr => d.addListenerTo attr oppositeAttr attr) i
        (fun d attr k a ha => ?_) fun d attr k name hk => ?_
      · rw [RtpsDispatcher.addListenerTo, RtpsDispatcher.toDispatcher_addReader] at ha
        exact Dispatcher.listens_addListenerTo ha
      · exact RtpsDispatcher.lookup_addReader
          (d := { d with toDispatcher := d.toDispatcher.addListenerTo attr oppositeAttr attr }) hk
  | removeListener i =>
      refine h.onDispatcher (f := fun d attr =>
        { d with toDispatcher := d.toDispatcher.removeListener attr }) i
        (fun d attr k a ha => ?_) fun d attr k name hk => .inr hk
      exact .inr (Dispatcher.listens_removeListener ha)
  | removeListenerFrom i oppositeAttr =>
      refine h.onDispatcher (f := fun d attr =>
        { d with toDispatcher := d.toDispatcher.removeListenerFrom attr oppositeAttr }) i
        (fun d attr k a ha => ?_) fun d attr k name hk => .inr hk
      exact .inr (Dispatcher.listens_removeListenerFrom ha)
  | message key senderId => exact h.message hinj key senderId
  | shutdown =>
      rw [RtpsProcess.step, RtpsDispatcher.shutdown]
      split <;> exact { h with }

theorem right_exec (hinj : Set.InjOn hash names) {es : List Event}
    (hes : ∀ e ∈ es, e.Within names) : (Run.exec (step hash) {} es).Right hash names := by
  have hstep : ∀ (p : RtpsProcess) (e : Event), p.Right hash names → e.Within names →
      (p.step hash e).Right hash names := fun _ _ h he => h.step hinj he
  have hwithin : Run.Along (step hash) (fun _ e => e.Within names) {} es :=
    Run.along_of_forall_mem fun e he _ => hes e he
  exact Run.invariant hstep (right_new hash names) hwithin _ (Run.exec_mem_states _ _ es)

theorem Right.agree {q : RtpsProcess} (hp : p.Right hash names) (hq : q.Right hash names) :
    Agree hash p q where
  ids r hr r' hr' heq := by
    refine ⟨hash r.1, hp.registered r hr, ?_⟩
    rw [heq]
    exact hq.registered r' hr'
  left := hp.oneChannel
  right := hq.oneChannel

/-- After a channel of the same hash, a channel is not registered with it. -/
theorem registered_after {a b : Str} (hne : a ≠ b) (heq : hash a = hash b) :
    ∃ r ∈ (Run.exec (step hash) {} [.registerChannel a, .registerChannel b]).registered,
      r.1 = b ∧ r.2 ≠ some (hash b) := by
  obtain ⟨d, hd⟩ : ∃ d, ({} : GlobalData).register hash .channel a = some (hash a, d) :=
    GlobalData.register_of_stop (.inl rfl)
  have hfirst : d.names .channel (hash a) = some a := (GlobalData.entered_of_register hd).1.self
  have hd : ({} : GlobalData).registerChannel hash a = some (hash a, d) := hd
  have hprocess : RtpsProcess.registerChannel hash {} a =
      { globalData := d, registered := [(a, some (hash a))] } := by
    rw [RtpsProcess.registerChannel, hd]
    rfl
  refine ⟨(b, (d.registerChannel hash b).map Prod.fst), ?_, rfl, fun hid => ?_⟩
  · show _ ∈ ((RtpsProcess.registerChannel hash {} a).registerChannel hash b).registered
    rw [hprocess]
    exact List.mem_append_right _ (List.mem_singleton_self _)
  · obtain ⟨⟨id, d'⟩, hd', rfl⟩ := Option.map_eq_some_iff.mp hid
    have hd' : d.register hash .channel b = some (hash b, d') := hd'
    -- the place is that of the other channel
    rcases (GlobalData.entered_of_register hd').1.stop with hstop | hstop
    · exact Option.some_ne_none a (hfirst.symm.trans (heq ▸ hstop))
    · exact hne (Option.some.inj (hfirst.symm.trans (heq ▸ hstop)))

/-- Two processes that register some channels agree about their ids, and a message of a channel
calls no receiver of another, whatever they do, if and only if no two of the channels have the same
hash. -/
theorem agree_iff_injOn (hash : Str → BitVec 64) (names : Set Str) :
    (∀ es es' : List Event, (∀ e ∈ es, e.Within names) → (∀ e ∈ es', e.Within names) →
      Agree hash (Run.exec (step hash) {} es) (Run.exec (step hash) {} es')) ↔
      Set.InjOn hash names := by
  constructor
  · intro h a ha b hb heq
    by_contra hne
    -- one process registers both, the other only the second
    have hboth : ∀ e ∈ [Event.registerChannel a, .registerChannel b], e.Within names :=
      List.forall_mem_cons.mpr ⟨ha, List.forall_mem_singleton.mpr hb⟩
    have hone : ∀ e ∈ [Event.registerChannel b], e.Within names := List.forall_mem_singleton.mpr hb
    obtain ⟨r, hr, hname, hid⟩ := registered_after hne heq
    obtain ⟨d, hd⟩ : ∃ d, ({} : GlobalData).register hash .channel b = some (hash b, d) :=
      GlobalData.register_of_stop (.inl rfl)
    have hd : ({} : GlobalData).registerChannel hash b = some (hash b, d) := hd
    have hr' : (b, some (hash b)) ∈ (Run.exec (step hash) {} [.registerChannel b]).registered := by
      show _ ∈ (RtpsProcess.registerChannel hash {} b).registered
      rw [RtpsProcess.registerChannel, hd]
      exact List.mem_singleton_self _
    obtain ⟨id, hleft, hright⟩ := (h _ _ hboth hone).ids r hr _ hr' hname
    exact hid (hleft.trans hright.symm)
  · intro hinj es es' hes hes'
    exact (right_exec hinj hes).agree (right_exec hinj hes')

def noJunk : Junk := fun _ _ => 0

def roleOf (channelName : Str) : RoleAttributes := { RoleAttributes.init noJunk with channelName }

/-- Two receivers, each with a listener, and a message of the second's channel. -/
def twoChannels : List Event :=
  let n : NodeChannelImpl := { nodeName := [], nodeAttr := RoleAttributes.init noJunk }
  [.setParticipant, .newReceiver n (roleOf [0x61]) [] 1 1, .newReceiver n (roleOf [0x62]) [] 1 2,
    .addListener 0, .addListener 1, .message 1 7]

/-- Where both channels have the hash 0, the message calls the first receiver. -/
theorem twoChannels_not_agree :
    ¬ Agree (fun _ => 0) (Run.exec (step fun _ => 0) {} twoChannels)
      (Run.exec (step fun _ => 0) {} [.registerChannel [0x62]]) := by
  intro h
  have hcalled : ([0x62], [0x61]) ∈ (Run.exec (step fun _ => 0) {} twoChannels).dispatched.map
      fun m => (m.1, m.2.channelName) := by decide +kernel
  obtain ⟨m, hm, heq⟩ := List.mem_map.mp hcalled
  obtain ⟨hmessage, hreceiver⟩ := Prod.mk.inj heq
  have hsame := h.left.dispatched m hm
  rw [hmessage, hreceiver] at hsame
  exact absurd hsame (by decide)

end RtpsProcess

end Transport
end Cmw
