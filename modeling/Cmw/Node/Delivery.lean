import Cmw.Blocker.Blocker
import Cmw.Data.DataVisitor
import Cmw.Node.Subscriber
import Cmw.Transport.Payload

/-!
# From a transmitter to a callback

The way of the messages of a channel through transport/transmitter/rtps_transmitter.h,
transport/rtps/rea_listener.cpp, transport/dispatcher/rtps_dispatcher.h, transport/receiver,
data/data_dispatcher.h, data/data_visitor.h, croutine/croutine_factory.h and node/subscriber.h.

The transmitters may be in other processes, and on hosts of another byte order.  What lies between
them and the reader of the process is not of this repository: a sample that has been sent may
arrive late, several times, or never.  The process of the subscribers is not shut down.
-/

namespace Cmw
namespace Node

open Config
open Discovery
open Library
open Library.ByteImage
open Serialize
open Transport

variable {μ : Type}

/-! ## The ends -/

/-- `DataStream ds(*msg_str); ds >> *msg;` of the adapter that `AddListener` makes.  `junk` is what
the new message is initialised with. -/
def adapt (host : ByteOrder) (type : STy μ) (stack : Stack) (junk : Junk) (msgStr : List Byte) :
    Outcome μ := do
  let ds ← DataStream.ofString host msgStr
  let (_, msg, _) ← type.read host stack (type.init junk) ds
  .ok msg

/-- An arrival of a sample: its number among those that have been sent, and how many times the
receivers of the channel were called for it. -/
structure Arrival where
  number : Nat
  times : Nat
  deriving DecidableEq, Repr

/-- What a subscriber has of its own: a visitor, with what is kept of its run, and a blocker.
`called` are the messages that `subscriber_func_` was called with. -/
structure Inbox (μ : Type) where
  data : Data.Traced μ
  blocker : Blocker μ Unit
  called : List μ := []
  arrivals : List Arrival := []

namespace Inbox

def new [Inhabited μ] (pendingQueueSize : BitVec 32) (roleAttr : RoleAttributes) : Inbox μ :=
  { data := .start pendingQueueSize
    blocker := .new
      { capacity := roleAttr.qosProfile.depth.toNat, channelName := roleAttr.channelName } default }

/-- `Dispatch(channel_id, msg)` by every receiver that is called. -/
def fill (b : Inbox μ) (called : List RoleAttributes) (channelId : BitVec 64) (msg : μ) : Inbox μ :=
  { b with
    data := called.foldl (fun data attr =>
      if attr.channelId = channelId then data.step (.fill msg) else data) b.data }

/-- The buffer is filled, and the arrival is kept. -/
def arrive (b : Inbox μ) (number : Nat) (called : List RoleAttributes) (channelId : BitVec 64)
    (msg : μ) : Inbox μ :=
  { b.fill called channelId msg with
    arrivals := b.arrivals ++
      [{ number, times := called.countP fun attr => attr.channelId = channelId }] }

/-- A round of the routine: what is fetched is enqueued and handed to the callback. -/
def turn (b : Inbox μ) : Inbox μ :=
  match b.data.visitor.tryFetch.1 with
  | some (_, msg) =>
      { b with
        data := b.data.step .tryFetch
        blocker := (b.blocker.publish msg).2
        called := b.called ++ [msg] }
  | none => { b with data := b.data.step .tryFetch }

def observe (b : Inbox μ) : Inbox μ := { b with blocker := b.blocker.observe }

end Inbox

/-! ## Runs -/

/-- A transmitter, with the byte order of its host. -/
structure Sender where
  host : ByteOrder
  transmitter : RtpsTransmitter

/-- A process with its subscribers, the transmitters of the channel, and the samples that they
have sent, each with the message it was made of. -/
structure Session (μ : Type) where
  node : Traced μ
  senders : List Sender
  sent : List (Sample × μ) := []
  inbox : Nat → Inbox μ

inductive SessionEvent (μ : Type) (channel : Str) (channelId : BitVec 64)
  | enable (p : Nat) (answer : WriterAnswer)
  | disable (p : Nat)
  | transmit (p : Nat) (msg : μ) (isShutdown : Bool)
  | arrive (number : Nat) (stack : Stack) (junk : Junk)
  | publisherChange (publisher : Party channel channelId) (opt : OperateType) (now : BitVec 64)
  | subscriberInit (subscriber : Party channel channelId) (pendingQueueSize : BitVec 32)
      (created : Bool) (id now : BitVec 64)
  | turn (i : Nat)
  | observe (i : Nat)

namespace Session

def onSender (s : Session μ) (p : Nat) (f : RtpsTransmitter → RtpsTransmitter) : Session μ :=
  { s with senders := s.senders.modify p fun sender =>
      { sender with transmitter := f sender.transmitter } }

def transmit (type : STy μ) (s : Session μ) (p : Nat) (msg : μ) (isShutdown : Bool) : Session μ :=
  match s.senders[p]? with
  | none => s
  | some sender =>
      match sender.transmitter.transmit sender.host type msg isShutdown with
      | .error _ => s
      | .ok transmission =>
          { s.onSender p fun _ => transmission.transmitter with
            sent := s.sent ++ transmission.sample.toList.map fun sample => (sample, msg) }

/-- `onNewCacheChangeAdded`: the first half of the writer's GUID is the identity of the sender. -/
def arrive (hash : List Byte → BitVec 64) (host : ByteOrder) (type : STy μ) (channelId : BitVec 64)
    (s : Session μ) (number : Nat) (stack : Stack) (junk : Junk) : Session μ :=
  match s.sent[number]? with
  | none => s
  | some (sample, _) =>
      match adapt host type stack junk sample.payload with
      | .error _ => s
      | .ok msg =>
          let senderId := hash (sample.writerGuid.take 8)
          let (called, process) := s.node.process.onMessage channelId senderId msg
          { s with
            node := { s.node with process }
            inbox := fun i =>
              match s.node.process.subscribers[i]? with
              | none => s.inbox i
              | some subscriber =>
                  (s.inbox i).arrive number called subscriber.roleAttr.channelId msg }

def onInbox (s : Session μ) (i : Nat) (f : Inbox μ → Inbox μ) : Session μ :=
  { s with inbox := Function.update s.inbox i (f (s.inbox i)) }

def step [Inhabited μ] (hash : Str → BitVec 64) (host : ByteOrder) (type : STy μ) {channel : Str}
    (s : Session μ) : SessionEvent μ channel (hash channel) → Session μ
  | .enable p answer => s.onSender p fun t => t.enable answer
  | .disable p => s.onSender p RtpsTransmitter.disable
  | .transmit p msg isShutdown => s.transmit type p msg isShutdown
  | .arrive number stack junk => s.arrive hash host type (hash channel) number stack junk
  | .publisherChange publisher opt now =>
      { s with node := s.node.step hash (.publisherChange publisher opt now) }
  | .subscriberInit subscriber pendingQueueSize created id now =>
      let s' := { s with node := s.node.step hash (.subscriberInit subscriber created id now) }
      if created then
        s'.onInbox s.node.process.subscribers.length fun _ => .new pendingQueueSize subscriber.attr
      else s'
  | .turn i => s.onInbox i Inbox.turn
  | .observe i => s.onInbox i Inbox.observe

end Session

/-! ## What is delivered -/

/-- The messages that arrivals stand for, each as often as a receiver was called for it. -/
def messages (sent : List (Sample × μ)) (arrivals : List Arrival) : List μ :=
  arrivals.flatMap fun a => (sent[a.number]?).elim [] fun e => List.replicate a.times e.2

/-- What comes of the samples that have arrived since a subscriber was initialised: each calls a
receiver at least once, and its message is put into the buffer unaltered; the callback is called
with messages of the buffer in their order, and where nothing is left to be fetched, it has been
called with the one that arrived last; and the history is the last messages it was called with. -/
structure Delivered (s : Session μ) (depth : BitVec 32) (b : Inbox μ) : Prop where
  arrived : ∀ a ∈ b.arrivals, a.number < s.sent.length ∧ 1 ≤ a.times
  filled : b.data.published = messages s.sent b.arrivals
  called : b.called.Sublist b.data.published
  latest : b.data.visitor.tryFetch.1 = none → b.called.getLast? = b.data.published.getLast?
  history : b.blocker.publishedMsgQueue = b.called.reverse.take depth.toNat

/-! ### Sending -/

/-- A message can be sent: its encoding fits into the change, and into a stream. -/
def Sendable (type : STy μ) (sender : Sender) (msg : μ) : Prop :=
  (type.image sender.host msg).length ≤
      (sender.transmitter.attr.qosProfile.msgSize + 255).toNat ∧
    (type.image sender.host msg).length ≤ 2 ^ 30

theorem payload_of_transmit {host : ByteOrder} {t : RtpsTransmitter} {type : STy μ} {msg : μ}
    {isShutdown : Bool} {transmission : Transmission} {sample : Sample}
    (hlen : (type.image host msg).length ≤ 2 ^ 30)
    (h : t.transmit host type msg isShutdown = .ok transmission)
    (hsample : transmission.sample = some sample) : sample.payload = type.image host msg := by
  simp only [RtpsTransmitter.transmit] at h
  split at h
  · cases h
    cases hsample
  · obtain ⟨ds, hds, h⟩ := of_bind_ok h
    cases h
    cases hsample
    have hshort : Short (type.chunks host msg) := by
      refine short_of_flatten (Nat.le_trans hlen ?_)
      unfold maxInt
      omega
    rw [type.write_eq msg hshort] at hds
    exact (DataStream.appendAll_eq hds).1.trans (List.nil_append _)

/-- Whatever host has written a message, it is read as it was. -/
theorem adapt_image {type : STy μ} (hread : type.Readable) (hwhole : type.Whole) {w r : ByteOrder}
    {msg : μ} (hlen : (type.image w msg).length ≤ 2 ^ 30) (stack : Stack) (junk : Junk) :
    adapt r type stack junk (type.image w msg) = .ok msg := by
  obtain ⟨ds, hds, hbuf, hpos⟩ := ChannelManager.ofString_ok (r := r) hlen
  have hahead : ds.Ahead (type.image w msg) :=
    ⟨[], [], by rw [hbuf, List.append_nil, List.nil_append], hpos⟩
  have hreads : Reads (type.read r stack) (type.init junk) (type.image w msg)
      (type.restored msg (type.init junk)) := type.read_reads hread msg _
  rw [adapt, hds, ok_bind, hreads ds hahead, hwhole]
  rfl

/-! ### One subscriber -/

namespace Inbox

variable {b : Inbox μ}

theorem fill_data (b : Inbox μ) (called : List RoleAttributes) (channelId : BitVec 64) (msg : μ) :
    (b.fill called channelId msg).data.published = b.data.published ++
        List.replicate (called.countP fun attr => attr.channelId = channelId) msg ∧
      (b.fill called channelId msg).data.log = b.data.log := by
  rw [fill]
  generalize b.data = data
  induction called generalizing data with
  | nil => exact ⟨(List.append_nil _).symm, rfl⟩
  | cons attr called ih =>
      dsimp only at ih ⊢
      rw [List.foldl_cons, List.countP_cons]
      obtain ⟨hpublished, hlog⟩ := ih (if attr.channelId = channelId then data.step (.fill msg)
        else data)
      rw [hpublished, hlog]
      by_cases hattr : attr.channelId = channelId
      · simp only [hattr, if_true, decide_true]
        refine ⟨?_, rfl⟩
        rw [Nat.add_comm, List.replicate_add, ← List.append_assoc]
        rfl
      · simp [hattr]

/-- What is kept of the inbox of a subscriber. -/
structure Kept (sent : List (Sample × μ)) (depth : BitVec 32) (b : Inbox μ) : Prop where
  arrived : ∀ a ∈ b.arrivals, a.number < sent.length ∧ 1 ≤ a.times
  filled : b.data.published = messages sent b.arrivals
  tracks : b.data.published.length + 1 < 2 ^ 64 → ∃ size, Data.Tracks size b.data
  called : b.called = (Data.returned b.data.log).map Prod.snd
  capacity : b.blocker.attr.capacity = depth.toNat
  history : b.blocker.publishedMsgQueue = b.called.reverse.take depth.toNat

theorem kept_new [Inhabited μ] (sent : List (Sample × μ)) (pendingQueueSize : BitVec 32)
    (roleAttr : RoleAttributes) :
    (new pendingQueueSize roleAttr : Inbox μ).Kept sent roleAttr.qosProfile.depth :=
  { arrived := List.forall_mem_nil _
    filled := rfl
    tracks := fun _ => ⟨_, Data.tracks_start pendingQueueSize⟩
    called := rfl
    capacity := rfl
    history := List.take_nil.symm }

theorem messages_append_sent {sent : List (Sample × μ)} (new : List (Sample × μ))
    {arrivals : List Arrival} (h : ∀ a ∈ arrivals, a.number < sent.length) :
    messages (sent ++ new) arrivals = messages sent arrivals := by
  rw [messages, messages]
  refine List.flatMap_congr fun a ha => ?_
  rw [List.getElem?_append_left (h a ha)]

variable {sent : List (Sample × μ)} {depth : BitVec 32}

theorem Kept.send (h : b.Kept sent depth) (new : List (Sample × μ)) :
    b.Kept (sent ++ new) depth :=
  { h with
    arrived := fun a ha => by
      obtain ⟨hnumber, htimes⟩ := h.arrived a ha
      rw [List.length_append]
      exact ⟨by omega, htimes⟩
    filled := by
      rw [messages_append_sent new fun a ha => (h.arrived a ha).1]
      exact h.filled }

theorem tracks_fill {called : List RoleAttributes} {channelId : BitVec 64} {msg : μ} {size : Nat}
    (h : Data.Tracks size b.data)
    (hlt : (b.fill called channelId msg).data.published.length + 1 < 2 ^ 64) :
    Data.Tracks size (b.fill called channelId msg).data := by
  rw [fill] at hlt ⊢
  generalize b.data = data at h hlt
  let fillOne : Data.Traced μ → RoleAttributes → Data.Traced μ := fun data attr =>
    if attr.channelId = channelId then data.step (.fill msg) else data
  let Tracking : Data.Traced μ → Prop := fun data =>
    data.published.length + 1 < 2 ^ 64 → Data.Tracks size data
  have hstep : ∀ data attr, Tracking data → Tracking (fillOne data attr) := by
    intro data attr hdata
    dsimp only [fillOne, Tracking]
    split
    · exact Data.Tracks.step _ hdata
    · exact hdata
  exact Run.invariant_always hstep (fun _ => h) _ (Run.exec_mem_states _ data called) hlt

theorem Kept.arrive (h : b.Kept sent depth) {number : Nat} {e : Sample × μ}
    (he : sent[number]? = some e) {called : List RoleAttributes} {channelId : BitVec 64}
    (hcalled : 1 ≤ called.countP fun attr => attr.channelId = channelId) :
    (b.arrive number called channelId e.2).Kept sent depth := by
  obtain ⟨hpublished, hlog⟩ := b.fill_data called channelId e.2
  exact
    { arrived := by
        intro a ha
        rcases List.mem_append.mp ha with ha | ha
        · exact h.arrived a ha
        · obtain rfl := List.mem_singleton.mp ha
          exact ⟨(List.getElem?_eq_some_iff.mp he).1, hcalled⟩
      filled := by
        rw [Inbox.arrive, hpublished, h.filled, messages, messages, List.flatMap_append,
          List.flatMap_singleton, he]
        rfl
      tracks := fun hlt => by
        have hshort : b.data.published.length + 1 < 2 ^ 64 := by
          rw [Inbox.arrive, hpublished, List.length_append] at hlt
          omega
        obtain ⟨size, htracks⟩ := h.tracks hshort
        exact ⟨size, tracks_fill htracks hlt⟩
      called := by
        rw [Inbox.arrive, hlog]
        exact h.called
      capacity := h.capacity
      history := h.history }

theorem turn_data (b : Inbox μ) : b.turn.data = b.data.step .tryFetch := by
  rw [turn]
  split <;> rfl

theorem turn_arrivals (b : Inbox μ) : b.turn.arrivals = b.arrivals := by
  rw [turn]
  split <;> rfl

theorem turn_called (b : Inbox μ) :
    b.turn.called = b.called ++ (b.data.visitor.tryFetch.1.map Prod.snd).toList := by
  rw [turn]
  split
  case h_1 k msg hgot => rw [hgot]; rfl
  case h_2 hgot =>
    rw [hgot]
    exact (List.append_nil _).symm

theorem Kept.turn (h : b.Kept sent depth) : b.turn.Kept sent depth := by
  have hpublished : b.turn.data.published = b.data.published := by
    rw [turn_data]
    rfl
  have hblocker : b.turn.blocker.attr.capacity = depth.toNat ∧
      b.turn.blocker.publishedMsgQueue = b.turn.called.reverse.take depth.toNat := by
    have hcalled := b.turn_called
    rw [Inbox.turn] at hcalled ⊢
    split
    case h_1 k msg hgot =>
      have hshort : b.blocker.publishedMsgQueue.length ≤ b.blocker.attr.capacity := by
        rw [h.history, h.capacity, List.length_take]
        exact Nat.min_le_left _ _
      refine ⟨(congrArg BlockerAttr.capacity (b.blocker.enqueue_keeps msg).1).trans h.capacity, ?_⟩
      refine (Blocker.enqueue_published hshort msg).trans ?_
      rw [h.history, h.capacity, List.reverse_append, List.reverse_singleton,
        List.singleton_append]
      -- what was cut off before would be cut off now
      cases depth.toNat with
      | zero => rfl
      | succ n => rw [List.take_succ_cons, List.take_succ_cons, List.take_take,
          Nat.min_eq_left (Nat.le_succ n)]
    case h_2 => exact ⟨h.capacity, h.history⟩
  exact
    { arrived := by
        rw [turn_arrivals]
        exact h.arrived
      filled := by
        rw [hpublished, turn_arrivals]
        exact h.filled
      tracks := by
        intro hlt
        obtain ⟨size, htracks⟩ := h.tracks (hpublished ▸ hlt)
        rw [turn_data]
        exact ⟨size, htracks.tryFetch (hpublished ▸ hlt)⟩
      called := by
        rw [turn_called, turn_data, h.called]
        show _ = (Data.returned (b.data.log ++ [_])).map Prod.snd
        rw [Data.returned_append, List.map_append]
        cases b.data.visitor.tryFetch.1 <;> rfl
      capacity := hblocker.1
      history := hblocker.2 }

/-- What has been returned is a message that was published, under its number. -/
theorem getElem?_of_mem_returned {size : Nat} {data : Data.Traced μ} (h : Data.Delivers size data)
    {e : Nat × μ} (hmem : e ∈ Data.returned data.log) :
    data.published[e.1 - 1]? = some e.2 ∧ 0 < e.1 := by
  obtain ⟨a, ha, hgot⟩ := List.mem_filterMap.mp hmem
  obtain ⟨before, after, hlog⟩ := List.append_of_mem ha
  have hright := h.right before a after hlog
  rw [Data.Attempt.Right, hgot] at hright
  exact ⟨hright.1, by have := hright.2.1; omega⟩

theorem returned_sublist {size : Nat} {data : Data.Traced μ} (h : Data.Delivers size data) :
    ((Data.returned data.log).map Prod.snd).Sublist data.published := by
  have hplace : ∀ e ∈ Data.returned data.log, 0 < e.1 ∧ e.1 - 1 < data.published.length :=
    fun e he =>
      have hat := getElem?_of_mem_returned h he
      ⟨hat.2, (List.getElem?_eq_some_iff.mp hat.1).1⟩
  let places : List (Fin data.published.length) :=
    (Data.returned data.log).pmap (fun e he => ⟨e.1 - 1, he.2⟩) hplace
  have hplaces : places.Pairwise (· < ·) :=
    h.increasing.pmap hplace fun e he f hf hef => Fin.mk_lt_mk.mpr (by have := he.1; omega)
  have hsame : places.map (data.published[·]) = (Data.returned data.log).map Prod.snd := by
    rw [List.map_pmap, ← List.pmap_eq_map hplace]
    refine List.pmap_congr_left _ fun e he _ _ => ?_
    exact (List.getElem?_eq_some_iff.mp
      (getElem?_of_mem_returned h he).1).2
  rw [← hsame]
  exact List.map_getElem_sublist hplaces

/-- Where nothing is left to be fetched, the newest message was returned last. -/
theorem getLast?_of_tryFetch {size : Nat} {data : Data.Traced μ} (h : Data.Tracks size data)
    (hlt : data.published.length + 1 < 2 ^ 64) (hnone : data.visitor.tryFetch.1 = none) :
    ((Data.returned data.log).map Prod.snd).getLast? = data.published.getLast? := by
  have hright : Data.Attempt.Right size _ _ _ := Data.Reading.right_tryFetch h.represents.last
  rw [← (h.represents.tryFetch hlt).1, hnone] at hright
  have hcount : data.published.length = Data.lastReturned data.log := hright
  rw [Data.lastReturned] at hcount
  rw [List.getLast?_map]
  cases hlast : (Data.returned data.log).getLast? with
  | none =>
      rw [hlast] at hcount
      rw [List.eq_nil_of_length_eq_zero hcount]
      rfl
  | some e =>
      rw [hlast] at hcount
      have hcount : data.published.length = e.1 := hcount
      have hat := getElem?_of_mem_returned h.delivers (List.mem_of_getLast? hlast)
      rw [List.getLast?_eq_getElem?, hcount, hat.1]
      rfl

theorem Kept.isDelivered {s : Session μ} (h : b.Kept s.sent depth)
    (hlt : b.data.published.length + 1 < 2 ^ 64) : Delivered s depth b := by
  obtain ⟨size, htracks⟩ := h.tracks hlt
  exact
    { arrived := h.arrived
      filled := h.filled
      called := h.called ▸ returned_sublist htracks.delivers
      latest := fun hnone => h.called ▸ getLast?_of_tryFetch htracks hlt hnone
      history := h.history }

end Inbox

/-! ### All of them -/

namespace Session

variable {hash : Str → BitVec 64} {channel : Str} {type : STy μ} {s : Session μ}

structure Kept (hash : Str → BitVec 64) (channel : Str) (type : STy μ) (s : Session μ) : Prop where
  connected : s.node.Connected hash channel
  channelId : ∀ subscriber ∈ s.node.process.subscribers,
    subscriber.roleAttr.channelId = hash channel
  sent : ∀ e ∈ s.sent, ∃ w, e.1.payload = type.image w e.2 ∧
    (type.image w e.2).length ≤ 2 ^ 30
  inbox : ∀ i subscriber, s.node.process.subscribers[i]? = some subscriber →
    (s.inbox i).Kept s.sent subscriber.roleAttr.qosProfile.depth

theorem Kept.transmit (h : s.Kept hash channel type) {p : Nat} {msg : μ} (isShutdown : Bool)
    (hmsg : ∀ sender, s.senders[p]? = some sender → Sendable type sender msg) :
    (s.transmit type p msg isShutdown).Kept hash channel type := by
  rw [Session.transmit]
  cases hsender : s.senders[p]? with
  | none => exact h
  | some sender =>
      have hlen := (hmsg sender hsender).2
      show Kept hash channel type
        (match sender.transmitter.transmit sender.host type msg isShutdown with
        | .error _ => s
        | .ok transmission => _)
      cases htransmit : sender.transmitter.transmit sender.host type msg isShutdown with
      | error => exact h
      | ok transmission =>
          exact
            { connected := h.connected
              channelId := h.channelId
              sent := by
                intro e he
                rcases List.mem_append.mp he with he | he
                · exact h.sent e he
                · obtain ⟨sample, hsample, rfl⟩ := List.mem_map.mp he
                  exact ⟨_, payload_of_transmit hlen htransmit (Option.mem_toList.mp hsample), hlen⟩
              inbox := fun i subscriber hi => (h.inbox i subscriber hi).send _ }

/-- A message calls the receiver of the channel. -/
theorem one_le_times (h : s.Kept hash channel type) (senderId : BitVec 64) (msg : μ)
    {subscriber : Subscriber μ} (hsubscriber : subscriber ∈ s.node.process.subscribers) :
    1 ≤ (s.node.process.onMessage (hash channel) senderId msg).1.countP fun attr =>
      attr.channelId = subscriber.roleAttr.channelId := by
  have hreceiver := (h.connected.subscriber subscriber hsubscriber).2
  have hears := h.connected.hears _ hreceiver
  have hid := h.connected.channelId _ hreceiver
  refine List.countP_pos_iff.mpr ⟨subscriber.receiver.attr, ?_, ?_⟩
  · show _ ∈ (s.node.process.dispatcher.onMessage (hash channel) senderId).1
    rw [Dispatcher.onMessage_called hears.up, ← hid]
    exact List.mem_append_left _ hears.always
  · simp [hid, h.channelId subscriber hsubscriber]

/-- The subscribers are the same ones after a message. -/
theorem exists_of_onMessage {p : Process μ} {channelId senderId : BitVec 64} {msg : μ} {i : Nat}
    {subscriber : Subscriber μ}
    (h : (p.onMessage channelId senderId msg).2.subscribers[i]? = some subscriber) :
    ∃ before, p.subscribers[i]? = some before ∧ subscriber.roleAttr = before.roleAttr := by
  have hroles := congrArg (·[i]?) (Traced.dispatch_roles
    (p.dispatcher.onMessage channelId senderId).1 msg p.subscribers)
  rw [List.getElem?_map, List.getElem?_map] at hroles
  have hafter : ((p.onMessage channelId senderId msg).2.subscribers[i]?).map
      (fun s => (s.roleAttr, s.receiver)) = (p.subscribers[i]?).map _ := hroles
  rw [h] at hafter
  obtain ⟨before, hbefore, heq⟩ := Option.map_eq_some_iff.mp hafter.symm
  exact ⟨before, hbefore, (Prod.mk.inj heq).1.symm⟩

theorem Kept.arrive (h : s.Kept hash channel type) (hread : type.Readable) (hwhole : type.Whole)
    (host : ByteOrder) (number : Nat) (stack : Stack) (junk : Junk) :
    (s.arrive hash host type (hash channel) number stack junk).Kept hash channel type := by
  rw [Session.arrive]
  cases he : s.sent[number]? with
  | none => exact h
  | some e =>
      obtain ⟨w, hpayload, hlen⟩ := h.sent e (List.mem_of_getElem? he)
      dsimp only
      rw [hpayload, adapt_image hread hwhole hlen]
      dsimp only
      exact
        { connected := Traced.connected_message h.connected _ _
          channelId := by
            intro subscriber hsubscriber
            obtain ⟨i, hi⟩ := List.getElem?_of_mem hsubscriber
            obtain ⟨before, hbefore, hattr⟩ := exists_of_onMessage hi
            rw [hattr]
            exact h.channelId before (List.mem_of_getElem? hbefore)
          sent := h.sent
          inbox := by
            intro i subscriber hi
            obtain ⟨before, hbefore, hattr⟩ := exists_of_onMessage hi
            simp only [hattr, hbefore]
            exact (h.inbox i before hbefore).arrive he
              (one_le_times h _ _ (List.mem_of_getElem? hbefore)) }

theorem Kept.publisherChange (h : s.Kept hash channel type)
    (publisher : Party channel (hash channel)) (opt : OperateType) (now : BitVec 64) :
    Kept hash channel type
      { s with node := s.node.step hash (.publisherChange publisher opt now) } :=
  { connected := Traced.connected_publisherChange h.connected publisher opt now
    channelId := h.channelId
    sent := h.sent
    inbox := h.inbox }

theorem exists_subscribers_init (h : s.node.Connected hash channel)
    (subscriber : Party channel (hash channel)) (id now : BitVec 64) :
    ∃ receiver, (s.node.step hash (.subscriberInit subscriber true id now)).process.subscribers =
      s.node.process.subscribers ++ [{ roleAttr := subscriber.attr, receiver }] := by
  refine ⟨(s.node.process.getReceiver subscriber.attr id).1, ?_⟩
  rw [← (Traced.received_getReceiver h subscriber id).subscribers]
  show (Process.joinTheTopology hash _ _ now).subscribers = _
  rw [Process.joinTheTopology]
  dsimp only
  split <;> rfl

theorem Kept.subscriberInit [Inhabited μ] (h : s.Kept hash channel type)
    (subscriber : Party channel (hash channel)) (pendingQueueSize : BitVec 32)
    (id now : BitVec 64) :
    Kept hash channel type
      (onInbox { s with node := s.node.step hash (.subscriberInit subscriber true id now) }
        s.node.process.subscribers.length fun _ => .new pendingQueueSize subscriber.attr) := by
  obtain ⟨receiver, hsubscribers⟩ := exists_subscribers_init h.connected subscriber id now
  exact
    { connected := Traced.connected_init h.connected subscriber true id now
      channelId := by
        intro other hother
        have hother : other ∈ (s.node.step hash
            (.subscriberInit subscriber true id now)).process.subscribers := hother
        rw [hsubscribers] at hother
        rcases List.mem_append.mp hother with hother | hother
        · exact h.channelId other hother
        · obtain rfl := List.mem_singleton.mp hother
          exact subscriber.channelId
      sent := h.sent
      inbox := by
        intro i other hi
        have hi : (s.node.step hash
            (.subscriberInit subscriber true id now)).process.subscribers[i]? = some other := hi
        rw [hsubscribers] at hi
        show (Function.update s.inbox s.node.process.subscribers.length _ i).Kept s.sent _
        rcases Nat.lt_trichotomy i s.node.process.subscribers.length with hlt | rfl | hgt
        · rw [List.getElem?_append_left hlt] at hi
          rw [Function.update_of_ne (Nat.ne_of_lt hlt)]
          exact h.inbox i other hi
        · rw [List.getElem?_concat_length] at hi
          obtain rfl := Option.some.inj hi
          rw [Function.update_self]
          exact Inbox.kept_new s.sent pendingQueueSize subscriber.attr
        · rw [List.getElem?_eq_none (by rw [List.length_append, List.length_singleton]; omega)] at hi
          cases hi }

theorem Kept.onInbox (h : s.Kept hash channel type) (i : Nat) {f : Inbox μ → Inbox μ}
    (hf : ∀ {depth}, (s.inbox i).Kept s.sent depth → (f (s.inbox i)).Kept s.sent depth) :
    (s.onInbox i f).Kept hash channel type :=
  { connected := h.connected
    channelId := h.channelId
    sent := h.sent
    inbox := by
      intro j subscriber hj
      show (Function.update s.inbox i (f (s.inbox i)) j).Kept s.sent _
      by_cases hij : j = i
      · subst hij
        rw [Function.update_self]
        exact hf (h.inbox j subscriber hj)
      · rw [Function.update_of_ne hij]
        exact h.inbox j subscriber hj }

/-- Every message that is transmitted can be sent. -/
def Sends (type : STy μ) (channelId : BitVec 64) (s : Session μ) :
    SessionEvent μ channel channelId → Prop
  | .transmit p msg _ => ∀ sender, s.senders[p]? = some sender → Sendable type sender msg
  | _ => True

theorem Kept.step [Inhabited μ] (h : s.Kept hash channel type) (hread : type.Readable)
    (hwhole : type.Whole) (host : ByteOrder) {e : SessionEvent μ channel (hash channel)}
    (he : Sends type (hash channel) s e) : (s.step hash host type e).Kept hash channel type := by
  cases e with
  | enable p answer => exact ⟨h.connected, h.channelId, h.sent, h.inbox⟩
  | disable p => exact ⟨h.connected, h.channelId, h.sent, h.inbox⟩
  | transmit p msg isShutdown => exact h.transmit isShutdown he
  | arrive number stack junk => exact h.arrive hread hwhole host number stack junk
  | publisherChange publisher opt now => exact h.publisherChange publisher opt now
  | subscriberInit subscriber pendingQueueSize created id now =>
      cases created with
      | true => exact h.subscriberInit subscriber pendingQueueSize id now
      | false =>
          exact ⟨Traced.connected_init h.connected subscriber false id now, h.channelId, h.sent,
            h.inbox⟩
  | turn i => exact h.onInbox i Inbox.Kept.turn
  | observe i =>
      exact h.onInbox i fun hi => ⟨hi.arrived, hi.filled, hi.tracks, hi.called, hi.capacity,
        hi.history⟩

/-- No subscribers yet, and nothing sent. -/
def new [Inhabited μ] (m : ChannelManager) (senders : List Sender) : Session μ :=
  { node := Traced.new m
    senders
    inbox := fun _ => { data := .start 0, blocker := .new {} default } }

/-- In every order of what the transmitters, the network, the topology and the routines do: what
each subscriber of a channel is given is `Delivered`, as long as fewer than 2^64 - 1 messages have
been put into its buffer.  The messages are of a type that the format keeps, without vectors and
with every member serialised, and the bytes of each fit in the stream. -/
theorem delivered [Inhabited μ] (hash : Str → BitVec 64) (host : ByteOrder) {channel : Str}
    {type : STy μ} (hread : type.Readable) (hwhole : type.Whole) (m : ChannelManager)
    (senders : List Sender) {es : List (SessionEvent μ channel (hash channel))}
    (hes : Run.Along (step hash host type) (Sends type (hash channel)) (new m senders) es) :
    ∀ s ∈ Run.states (step hash host type) (new m senders) es,
      ∀ i subscriber, s.node.process.subscribers[i]? = some subscriber →
        (s.inbox i).data.published.length + 1 < 2 ^ 64 →
        Delivered s subscriber.roleAttr.qosProfile.depth (s.inbox i) := by
  have hnew : (new m senders : Session μ).Kept hash channel type :=
    { connected := Traced.connected_new m
      channelId := List.forall_mem_nil _
      sent := List.forall_mem_nil _
      inbox := nofun }
  intro s hs i subscriber hi hlt
  have hkept := Run.invariant (I := fun s : Session μ => s.Kept hash channel type)
    (fun t e ht he => ht.step hread hwhole host he) hnew hes s hs
  exact (hkept.inbox i subscriber hi).isDelivered hlt

/-- A message from a big-endian host. -/
def once : List (SessionEvent (List Byte) [0x63] 2) :=
  [.subscriberInit (Traced.party 0) 1 true 4 0, .transmit 0 [0x61] false,
    .arrive 0 (fun _ _ _ => 0) (fun _ _ => 0), .turn 0]

theorem delivered_once :
    ∃ s : Session (List Byte), (s.inbox 0).called = [[0x61]] ∧ Delivered s 2 (s.inbox 0) := by
  have hread : STy.string.Readable := trivial
  have hsends : Run.Along (step (fun _ => 2) .littleEndian .string)
      (Sends .string 2) (new (.new [0x68] 7) [⟨.bigEndian, transmitter⟩]) once := by
    refine ⟨trivial, fun sender hsender => ?_, trivial, trivial, trivial⟩
    obtain rfl : _ = sender := Option.some.inj hsender
    exact ⟨by decide +kernel, by decide +kernel⟩
  refine ⟨_, ?_, @delivered (List Byte) _ (fun _ => 2) .littleEndian [0x63] .string hread
    (fun _ _ => rfl) (.new [0x68] 7) [⟨.bigEndian, transmitter⟩] once hsends _
    (Run.exec_mem_states _ _ _) 0
    { roleAttr := (Traced.party 0).attr
      receiver := { attr := { (Traced.party 0).attr with id := 4 }, enabled := true }
      fills := [[0x61]] } ?_ ?_⟩
  · decide +kernel
  · decide +kernel
  · decide +kernel

end Session

end Node
end Cmw
