import Cmw.Discovery.Warehouses
import Cmw.Transport.Receiver

/-!
# The subscribers of a process

node/subscriber.h and node/subscriber_base.h.  All subscribers of a channel share
one receiver, which is enabled when it is made; every subscriber then enables it
again for every publisher that it hears of.
-/

namespace Cmw
namespace Node

open Config
open Discovery
open Library
open Transport

/-- A subscriber that has been initialised. `μ` is the type of the messages. -/
structure Subscriber (μ : Type) where
  roleAttr : RoleAttributes
  receiver : RtpsReceiver
  /-- Everything its buffer has been filled with. -/
  fills : List μ := []
  deriving DecidableEq

namespace Subscriber

variable {μ : Type}

def onChannelChange (s : Subscriber μ) (changeMsg : ChangeMsg) (d : Dispatcher RoleAttributes) :
    Dispatcher RoleAttributes :=
  if changeMsg.roleType ≠ RoleType.roleWriter.word then d
  else if changeMsg.roleAttr.channelName ≠ s.roleAttr.channelName then d
  else if changeMsg.operateType = OperateType.optJoin.word then
    s.receiver.enableTo changeMsg.roleAttr d
  else s.receiver.disableFrom changeMsg.roleAttr d

/-- `Fill(msg)`, if the buffer is one of the channel's. -/
def dispatch (channelId : BitVec 64) (msg : μ) (s : Subscriber μ) : Subscriber μ :=
  if s.roleAttr.channelId = channelId then { s with fills := s.fills ++ [msg] } else s

end Subscriber

/-- What the singletons of a process hold of its subscribers. -/
structure Process (μ : Type) where
  channelManager : ChannelManager
  dispatcher : Dispatcher RoleAttributes := {}
  receiverMap : Table Str RtpsReceiver := ∅
  subscribers : List (Subscriber μ) := []

namespace Process

variable {μ : Type}

/-- `CreateReceiver(attr, listener)` of the transport. -/
def createReceiver (p : Process μ) (attr : RoleAttributes) (id : BitVec 64) :
    RtpsReceiver × Dispatcher RoleAttributes :=
  let attr := endpointAttr attr p.channelManager.hostName p.channelManager.processId id
  RtpsReceiver.enable { attr } p.dispatcher

def getReceiver (p : Process μ) (roleAttr : RoleAttributes) (id : BitVec 64) :
    RtpsReceiver × Process μ :=
  match p.receiverMap.lookup roleAttr.channelName with
  | some receiver => (receiver, p)
  | none =>
      let (receiver, dispatcher) := p.createReceiver roleAttr id
      (receiver,
        { p with dispatcher, receiverMap := p.receiverMap.insert roleAttr.channelName receiver })

/-- `GetWritersOfChannel(channel_name)`; `hash` is that of `RegisterChannel`. -/
def getWritersOfChannel (hash : Str → BitVec 64) (m : ChannelManager) (channelName : Str) :
    List RoleAttributes :=
  (m.channelWriters.filter fun item => item.1 == hash channelName).map fun item => item.2.attributes

/-- `Dispose(msg)`, with what it notifies the subscribers of. -/
def dispose (p : Process μ) (msg : ChangeMsg) : Process μ :=
  let (channelManager, notified) := p.channelManager.dispose msg
  { p with
    channelManager
    dispatcher := notified.foldl (fun d msg =>
      p.subscribers.foldl (fun d s => s.onChannelChange msg d) d) p.dispatcher }

def joinTheTopology (hash : Str → BitVec 64) (p : Process μ) (s : Subscriber μ) (now : BitVec 64) :
    Process μ :=
  let publishers := getWritersOfChannel hash p.channelManager s.roleAttr.channelName
  let p := { p with
    subscribers := p.subscribers ++ [s]
    dispatcher := publishers.foldl (fun d publisher => s.receiver.enableTo publisher d) p.dispatcher }
  match p.channelManager.prepare ChannelManager.check s.roleAttr .roleReader .optJoin now with
  | none => p
  | some msg => p.dispose msg

/-- `Init()` of a subscriber.  `created` says whether the scheduler creates its
task, and `id` is the identity of a new receiver. -/
def init (hash : Str → BitVec 64) (p : Process μ) (roleAttr : RoleAttributes) (created : Bool)
    (id now : BitVec 64) : Process μ :=
  if !created then p
  else
    let (receiver, p) := p.getReceiver roleAttr id
    p.joinTheTopology hash { roleAttr, receiver } now

/-- A message of `senderId` arrives: the receivers whose `OnNewMessage` is called,
each of which fills the buffers of its channel. -/
def onMessage (p : Process μ) (channelId senderId : BitVec 64) (msg : μ) :
    List RoleAttributes × Process μ :=
  let (called, dispatcher) := p.dispatcher.onMessage channelId senderId
  (called,
    { p with
      dispatcher
      subscribers := called.foldl (fun ss attr =>
        ss.map (Subscriber.dispatch attr.channelId msg)) p.subscribers })

end Process

/-! ## Histories of a channel -/

/-- The attributes of a publisher or a subscriber of a channel, whose id is the hash
of its name. -/
structure Party (channel : Str) (channelId : BitVec 64) where
  attr : RoleAttributes
  channelName : attr.channelName = channel
  channelId : attr.channelId = channelId

/-- What happens on a channel. -/
inductive Event (μ : Type) (channel : Str) (channelId : BitVec 64)
  | publisherChange (publisher : Party channel channelId) (opt : OperateType) (now : BitVec 64)
  | subscriberInit (subscriber : Party channel channelId) (created : Bool) (id now : BitVec 64)
  | message (senderId : BitVec 64) (msg : μ)

def publisherMsg (publisher : RoleAttributes) (opt : OperateType) (now : BitVec 64) : ChangeMsg :=
  { timestamp := now, changeType := ChangeType.changeChannel.word, operateType := opt.word,
    roleType := RoleType.roleWriter.word, roleAttr := publisher }

/-- A process with the ids of the publishers that have joined and not left, and whether
a subscriber has been initialised. -/
structure Traced (μ : Type) where
  process : Process μ
  joined : Finset (BitVec 64) := ∅
  subscribed : Bool := false

namespace Traced

variable {μ : Type} {channel : Str} (hash : Str → BitVec 64)

def step (t : Traced μ) : Event μ channel (hash channel) → Traced μ
  | .publisherChange publisher opt now =>
      { t with
        process := t.process.dispose (publisherMsg publisher.attr opt now)
        joined := match opt with
          | .optJoin => insert publisher.attr.id t.joined
          | .optLeave => t.joined.erase publisher.attr.id }
  | .subscriberInit subscriber created id now =>
      { t with
        process := t.process.init hash subscriber.attr created id now
        subscribed := t.subscribed || created }
  | .message senderId msg => { t with process := (t.process.onMessage (hash channel) senderId msg).2 }

/-- A message of a joined publisher would call the one receiver once, and fill every
subscriber's buffer once. -/
def DeliversOnce (channelId : BitVec 64) (t : Traced μ) : Prop :=
  ∀ id ∈ t.joined, ∀ s ∈ t.process.subscribers,
    (t.process.dispatcher.onMessage channelId id).1.count s.receiver.attr = 1 ∧
      ∀ msg, (t.process.onMessage channelId id msg).2.subscribers =
        t.process.subscribers.map fun s => { s with fills := s.fills ++ [msg] }

/-- What the subscribers of a channel have in common, and what the manager knows. -/
structure Connected (channel : Str) (t : Traced μ) : Prop where
  up : t.process.dispatcher.isShutdown = false
  subscriber : ∀ s ∈ t.process.subscribers, s.roleAttr.channelName = channel ∧
    t.process.receiverMap.lookup channel = some s.receiver
  subscribed : t.subscribed = true ↔ t.process.subscribers ≠ []
  receiver : ∀ r, t.process.receiverMap.lookup channel = some r → t.process.subscribers ≠ []
  channelId : ∀ r, t.process.receiverMap.lookup channel = some r → r.attr.channelId = hash channel
  hears : ∀ r, t.process.receiverMap.lookup channel = some r →
    Hears t.process.dispatcher r t.joined
  known : ∀ id ∈ t.joined, ∃ r : RoleWriter,
    (hash channel, r) ∈ t.process.channelManager.channelWriters ∧ r.attributes.id = id

end Traced

/-! ## What a receiver hears -/

section Hears

variable {μ : Type} {d : Dispatcher RoleAttributes} {r : RtpsReceiver} {ids : Finset (BitVec 64)}
  {channel : Str} {channelId : BitVec 64}

theorem hears_enables (h : Hears d r ids) {publishers : List RoleAttributes}
    {ids' : Finset (BitVec 64)}
    (hids : ∀ id ∈ ids', id ∈ ids ∨ ∃ publisher ∈ publishers, publisher.id = id) :
    Hears (publishers.foldl (fun d publisher => r.enableTo publisher d) d) r ids' := by
  induction publishers generalizing d ids with
  | nil => exact h.mono fun id hid => (hids id hid).resolve_right (by simp)
  | cons publisher publishers ih =>
      refine ih (h.enableTo publisher) fun id hid => ?_
      rcases hids id hid with hid | ⟨publisher', hmem, rfl⟩
      · exact Or.inl (Finset.mem_insert_of_mem hid)
      · rcases List.mem_cons.mp hmem with rfl | hmem
        · exact Or.inl (Finset.mem_insert_self _ _)
        · exact Or.inr ⟨publisher', hmem, rfl⟩

def Share (channel : Str) (r : RtpsReceiver) (ss : List (Subscriber μ)) : Prop :=
  ∀ s ∈ ss, s.roleAttr.channelName = channel ∧ s.receiver = r

theorem onChannelChange_publisher {s : Subscriber μ} {publisher : Party channel channelId}
    {opt : OperateType} {now : BitVec 64} (hs : s.roleAttr.channelName = channel) :
    s.onChannelChange (publisherMsg publisher.attr opt now) d = match opt with
      | .optJoin => s.receiver.enableTo publisher.attr d
      | .optLeave => s.receiver.disableFrom publisher.attr d := by
  rw [Subscriber.onChannelChange, if_neg (by simp [publisherMsg]),
    if_neg (by simp [publisherMsg, publisher.channelName, hs])]
  cases opt <;> rfl

theorem hears_joins (h : Hears d r ids) {ss : List (Subscriber μ)} (hss : Share channel r ss)
    (publisher : Party channel channelId) (now : BitVec 64) :
    Hears (ss.foldl (fun d s => s.onChannelChange (publisherMsg publisher.attr .optJoin now) d) d) r
      (if ss = [] then ids else insert publisher.attr.id ids) := by
  induction ss generalizing d ids with
  | nil => exact h
  | cons s ss ih =>
      obtain ⟨⟨hs, hr⟩, hss⟩ := List.forall_mem_cons.mp hss
      rw [if_neg (List.cons_ne_nil s ss), List.foldl_cons, onChannelChange_publisher hs, hr]
      refine (ih (h.enableTo publisher.attr) hss).mono ?_
      split
      · exact subset_rfl
      · exact Finset.subset_insert _ _

theorem hears_leaves (h : Hears d r ids) {ss : List (Subscriber μ)} (hss : Share channel r ss)
    (publisher : Party channel channelId) (now : BitVec 64) :
    Hears (ss.foldl (fun d s => s.onChannelChange (publisherMsg publisher.attr .optLeave now) d) d)
      r (ids.erase publisher.attr.id) := by
  induction ss generalizing d ids with
  | nil => exact h.mono (Finset.erase_subset _ _)
  | cons s ss ih =>
      obtain ⟨⟨hs, hr⟩, hss⟩ := List.forall_mem_cons.mp hss
      rw [List.foldl_cons, onChannelChange_publisher hs, hr]
      refine (ih (h.disableFrom publisher.attr) hss).mono ?_
      rw [Finset.erase_idem]

/-- Nothing but a writer concerns the subscribers. -/
theorem onChannelChange_other {ss : List (Subscriber μ)} {msg : ChangeMsg}
    (hrole : msg.roleType ≠ RoleType.roleWriter.word) :
    ss.foldl (fun d s => s.onChannelChange msg d) d = d := by
  induction ss with
  | nil => rfl
  | cons s ss ih => rw [List.foldl_cons, Subscriber.onChannelChange, if_pos hrole, ih]

end Hears

namespace Traced

variable {μ : Type} {channel : Str} {hash : Str → BitVec 64}

theorem Connected.share {t : Traced μ} (h : Connected hash channel t) {r : RtpsReceiver}
    (hr : t.process.receiverMap.lookup channel = some r) :
    Share channel r t.process.subscribers := fun s hs =>
  ⟨(h.subscriber s hs).1, Option.some.inj ((h.subscriber s hs).2.symm.trans hr)⟩

/-- The manager keeps the writers that a change is not about. -/
theorem known_publisherChange {m : ChannelManager} {joined : Finset (BitVec 64)}
    (h : ∀ id ∈ joined, ∃ r : RoleWriter,
      (hash channel, r) ∈ m.channelWriters ∧ r.attributes.id = id)
    (publisher : Party channel (hash channel)) (opt : OperateType) (now : BitVec 64) :
    ∀ id ∈ (match opt with
        | .optJoin => insert publisher.attr.id joined
        | .optLeave => joined.erase publisher.attr.id),
      ∃ r : RoleWriter,
        (hash channel, r) ∈ (m.step (publisherMsg publisher.attr opt now)).channelWriters ∧
          r.attributes.id = id := by
  intro id hid
  cases opt with
  | optJoin =>
      have hstep : (m.step (publisherMsg publisher.attr .optJoin now)).channelWriters =
          m.channelWriters.add publisher.attr.channelId
            (roleOf (publisherMsg publisher.attr .optJoin now)) := rfl
      rw [hstep, publisher.channelId]
      rcases Finset.mem_insert.mp hid with rfl | hid
      · exact ⟨_, MultiValueWarehouse.mem_add.mpr (Or.inr rfl), rfl⟩
      · obtain ⟨r, hr, hrid⟩ := h id hid
        exact ⟨r, MultiValueWarehouse.mem_add.mpr (Or.inl hr), hrid⟩
  | optLeave =>
      have hstep : (m.step (publisherMsg publisher.attr .optLeave now)).channelWriters =
          m.channelWriters.remove publisher.attr.channelId
            (roleOf (publisherMsg publisher.attr .optLeave now)) := rfl
      obtain ⟨hne, hid⟩ := Finset.mem_erase.mp hid
      obtain ⟨r, hr, hrid⟩ := h id hid
      rw [hstep]
      refine ⟨r, MultiValueWarehouse.mem_remove.mpr ⟨hr, fun hmatch => hne ?_⟩, hrid⟩
      exact hrid.symm.trans (RoleWriter.matchAttr_iff.mp hmatch.2).2.1.symm

theorem Connected.subscribers_eq_nil {t : Traced μ} (h : Connected hash channel t)
    (hnone : t.process.receiverMap.lookup channel = none) : t.process.subscribers = [] := by
  refine List.eq_nil_iff_forall_not_mem.mpr fun s hs => ?_
  have hsome := (h.subscriber s hs).2
  rw [hnone] at hsome
  cases hsome

theorem connected_publisherChange {t : Traced μ} (h : Connected hash channel t)
    (publisher : Party channel (hash channel)) (opt : OperateType) (now : BitVec 64) :
    Connected hash channel (t.step hash (.publisherChange publisher opt now)) := by
  have hhears : ∀ r, t.process.receiverMap.lookup channel = some r →
      Hears (t.step hash (.publisherChange publisher opt now)).process.dispatcher r
        (t.step hash (.publisherChange publisher opt now)).joined := by
    intro r hr
    cases opt with
    | optJoin =>
        have hjoins := hears_joins (h.hears r hr) (h.share hr) publisher now
        rw [if_neg (h.receiver r hr)] at hjoins
        exact hjoins
    | optLeave => exact hears_leaves (h.hears r hr) (h.share hr) publisher now
  exact
    { up := by
        cases hr : t.process.receiverMap.lookup channel with
        | none =>
            have hsame : (t.step hash (.publisherChange publisher opt now)).process.dispatcher =
                t.process.dispatcher := by
              show t.process.subscribers.foldl _ t.process.dispatcher = _
              rw [h.subscribers_eq_nil hr, List.foldl_nil]
            rw [hsame]
            exact h.up
        | some r => exact (hhears r hr).up
      subscriber := h.subscriber
      subscribed := h.subscribed
      receiver := h.receiver
      channelId := h.channelId
      hears := hhears
      known := known_publisherChange h.known publisher opt now }

/-- What a subscriber gets from `GetReceiver`, and the process afterwards. -/
structure Received (hash : Str → BitVec 64) (channel : Str) (p : Process μ)
    (got : RtpsReceiver × Process μ) : Prop where
  lookup : got.2.receiverMap.lookup channel = some got.1
  channelId : got.1.attr.channelId = hash channel
  subscribers : got.2.subscribers = p.subscribers
  channelManager : got.2.channelManager = p.channelManager
  share : Share channel got.1 p.subscribers
  hears : Hears got.2.dispatcher got.1 ∅

theorem received_getReceiver {t : Traced μ} (h : Connected hash channel t)
    (subscriber : Party channel (hash channel)) (id : BitVec 64) :
    Received hash channel t.process (t.process.getReceiver subscriber.attr id) := by
  rw [Process.getReceiver, subscriber.channelName]
  cases hr : t.process.receiverMap.lookup channel with
  | some r =>
      exact
        { lookup := hr
          channelId := h.channelId r hr
          subscribers := rfl
          channelManager := rfl
          share := h.share hr
          hears := (h.hears r hr).mono (Finset.empty_subset _) }
  | none =>
      have hnil := h.subscribers_eq_nil hr
      exact
        { lookup := AList.lookup_insert _
          channelId := subscriber.channelId
          subscribers := rfl
          channelManager := rfl
          share := fun s hs => by
            rw [hnil] at hs
            cases hs
          hears := Hears.enable h.up rfl }

theorem connected_dispose_reader {t : Traced μ} (h : Connected hash channel t) {msg : ChangeMsg}
    (hjoin : msg.operateType = OperateType.optJoin.word)
    (hreader : msg.roleType = RoleType.roleReader.word) :
    Connected hash channel { t with process := t.process.dispose msg } := by
  have hne : msg.roleType ≠ RoleType.roleWriter.word := hreader ▸ by decide
  have hdispatcher : (t.process.dispose msg).dispatcher = t.process.dispatcher :=
    onChannelChange_other hne
  have hwriters : (t.process.dispose msg).channelManager.channelWriters =
      t.process.channelManager.channelWriters := by
    have hside : Side.src ≠ sideOf msg := by rw [sideOf, if_neg hne]; decide
    have hroles := ChannelManager.channelRoles_disposeJoin t.process.channelManager msg .src
    rw [if_neg hside, ← ChannelManager.step_join hjoin] at hroles
    exact hroles
  exact
    { up := hdispatcher ▸ h.up
      subscriber := h.subscriber
      subscribed := h.subscribed
      receiver := h.receiver
      channelId := h.channelId
      hears := fun r hr => hdispatcher ▸ h.hears r hr
      known := fun id hid => hwriters ▸ h.known id hid }

theorem mem_getWritersOfChannel {m : ChannelManager} {channelName : Str} {r : RoleWriter}
    (hr : (hash channelName, r) ∈ m.channelWriters) :
    r.attributes ∈ Process.getWritersOfChannel hash m channelName :=
  List.mem_map.mpr ⟨_, List.mem_filter.mpr ⟨hr, beq_self_eq_true _⟩, rfl⟩

/-- A subscriber enables its receiver for every writer that the manager knows. -/
theorem hears_known {t : Traced μ} {p : Process μ} {receiver : RtpsReceiver}
    (h : Connected hash channel t) (hp : Received hash channel t.process (receiver, p)) :
    Hears ((Process.getWritersOfChannel hash p.channelManager channel).foldl
      (fun d publisher => receiver.enableTo publisher d) p.dispatcher) receiver t.joined := by
  refine hears_enables hp.hears fun id hid => Or.inr ?_
  obtain ⟨r, hr, rfl⟩ := h.known id hid
  rw [← hp.channelManager] at hr
  exact ⟨r.attributes, mem_getWritersOfChannel hr, rfl⟩

/-- The subscriber is there, and its join is not announced yet. -/
theorem connected_subscribed {t : Traced μ} {p : Process μ} {s : Subscriber μ}
    (h : Connected hash channel t)
    (hp : Received hash channel t.process (s.receiver, p))
    (hs : s.roleAttr.channelName = channel) :
    Connected hash channel
      { t with
        process := { p with
          subscribers := p.subscribers ++ [s]
          dispatcher := (Process.getWritersOfChannel hash p.channelManager channel).foldl
            (fun d publisher => s.receiver.enableTo publisher d) p.dispatcher }
        subscribed := true } := by
  have hhears := hears_known h hp
  have hlookup : ∀ {r}, p.receiverMap.lookup channel = some r → s.receiver = r := fun hr =>
    Option.some.inj (hp.lookup.symm.trans hr)
  exact
    { up := hhears.up
      subscriber := by
        intro s' hs'
        rcases List.mem_append.mp hs' with hs' | hs'
        · rw [hp.subscribers] at hs'
          obtain ⟨hname, hr⟩ := hp.share s' hs'
          exact ⟨hname, hr ▸ hp.lookup⟩
        · obtain rfl := List.mem_singleton.mp hs'
          exact ⟨hs, hp.lookup⟩
      subscribed := iff_of_true rfl (List.append_ne_nil_of_right_ne_nil _ (List.cons_ne_nil _ _))
      receiver := fun _ _ => List.append_ne_nil_of_right_ne_nil _ (List.cons_ne_nil _ _)
      channelId := fun r hr => hlookup hr ▸ hp.channelId
      hears := fun r hr => hlookup hr ▸ hhears
      known := fun id hid => by
        rw [hp.channelManager]
        exact h.known id hid }

theorem connected_joinTheTopology {t : Traced μ} {p : Process μ} {s : Subscriber μ}
    (h : Connected hash channel t)
    (hp : Received hash channel t.process (s.receiver, p))
    (hs : s.roleAttr.channelName = channel) (now : BitVec 64) :
    Connected hash channel
      { t with process := p.joinTheTopology hash s now, subscribed := true } := by
  have hbefore := connected_subscribed h hp hs
  rw [Process.joinTheTopology, hs]
  dsimp only
  split
  · exact hbefore
  case h_2 msg hprepare =>
    obtain ⟨-, rfl⟩ := Manager.prepare_eq hprepare
    exact connected_dispose_reader hbefore rfl rfl

theorem connected_init {t : Traced μ} (h : Connected hash channel t)
    (subscriber : Party channel (hash channel)) (created : Bool) (id now : BitVec 64) :
    Connected hash channel (t.step hash (.subscriberInit subscriber created id now)) := by
  cases created with
  | false =>
      have hsame : t.step hash (.subscriberInit subscriber false id now) = t := by
        rw [step, Bool.or_false]
        rfl
      rw [hsame]
      exact h
  | true =>
      rw [step, Bool.or_true]
      exact connected_joinTheTopology h
        (s := { roleAttr := subscriber.attr, receiver := (t.process.getReceiver subscriber.attr id).1 })
        (received_getReceiver h subscriber id) subscriber.channelName now

theorem dispatch_roles (called : List RoleAttributes) (msg : μ) (ss : List (Subscriber μ)) :
    (called.foldl (fun ss attr => ss.map (Subscriber.dispatch attr.channelId msg)) ss).map
        (fun s => (s.roleAttr, s.receiver)) = ss.map fun s => (s.roleAttr, s.receiver) := by
  induction called generalizing ss with
  | nil => rfl
  | cons attr called ih =>
      rw [List.foldl_cons, ih, List.map_map]
      refine List.map_congr_left fun s _ => ?_
      rw [Function.comp_apply, Subscriber.dispatch]
      split <;> rfl

theorem connected_message {t : Traced μ} (h : Connected hash channel t) (senderId : BitVec 64)
    (msg : μ) :
    Connected hash channel (t.step hash (.message senderId msg : Event μ channel (hash channel))) := by
  have hroles := dispatch_roles (t.process.dispatcher.onMessage (hash channel) senderId).1 msg
    t.process.subscribers
  have hnil : (t.step hash
        (.message senderId msg : Event μ channel (hash channel))).process.subscribers = [] ↔
      t.process.subscribers = [] := by
    rw [← List.map_eq_nil_iff, ← List.map_eq_nil_iff (l := t.process.subscribers)]
    exact iff_of_eq (congrArg (· = []) hroles)
  exact
    { up := (Dispatcher.onMessage_keeps h.up (hash channel) senderId 0).1
      subscriber := by
        intro s hs
        have hmem := List.mem_map_of_mem (f := fun s : Subscriber μ => (s.roleAttr, s.receiver)) hs
        obtain ⟨s', hs', heq⟩ := List.mem_map.mp (hroles ▸ hmem)
        obtain ⟨hattr, hreceiver⟩ := Prod.mk.inj heq
        rw [← hattr, ← hreceiver]
        exact h.subscriber s' hs'
      subscribed := h.subscribed.trans (not_congr hnil.symm)
      receiver := fun r hr hempty => h.receiver r hr (hnil.mp hempty)
      channelId := h.channelId
      hears := by
        intro r hr
        have hhears := (h.hears r hr).onMessage senderId
        rw [h.channelId r hr] at hhears
        exact hhears
      known := h.known }

theorem connected_step {t : Traced μ} (h : Connected hash channel t)
    (e : Event μ channel (hash channel)) : Connected hash channel (t.step hash e) := by
  cases e with
  | publisherChange publisher opt now => exact connected_publisherChange h publisher opt now
  | subscriberInit subscriber created id now => exact connected_init h subscriber created id now
  | message senderId msg => exact connected_message h senderId msg

def new (m : ChannelManager) : Traced μ := { process := { channelManager := m } }

theorem connected_new (m : ChannelManager) : Connected hash channel (new m : Traced μ) where
  up := rfl
  subscriber := List.forall_mem_nil _
  subscribed := iff_of_false Bool.false_ne_true fun hne => hne rfl
  receiver := fun _ hr => by cases hr
  channelId := fun _ hr => by cases hr
  hears := fun _ hr => by cases hr
  known := fun id hid => absurd hid (Finset.notMem_empty id)

theorem deliversOnce_iff_idle {t : Traced μ} (h : Connected hash channel t) :
    DeliversOnce (hash channel) t ↔ t.subscribed = false ∨ t.joined = ∅ := by
  constructor
  · intro honce
    by_contra hne
    rw [not_or, Bool.not_eq_false] at hne
    obtain ⟨s, hs⟩ := List.exists_mem_of_ne_nil _ (h.subscribed.mp hne.1)
    obtain ⟨id, hid⟩ := Finset.nonempty_iff_ne_empty.mpr hne.2
    have hr := (h.subscriber s hs).2
    have hone := (honce id hid s hs).1
    have htwo := (h.hears _ hr).two_le_count hid
    rw [h.channelId _ hr] at htwo
    omega
  · intro hp id hid s hs
    rcases hp with hsub | hjoined
    · refine absurd (h.subscribed.mpr (List.ne_nil_of_mem hs)) ?_
      rw [hsub]
      exact Bool.false_ne_true
    · rw [hjoined] at hid
      exact absurd hid (Finset.notMem_empty id)

/-- A message of a joined publisher is delivered once all through a history only if
there is never a subscriber and a joined publisher at once. -/
theorem deliversOnce_iff (m : ChannelManager)
    (events : List (Event μ channel (hash channel))) :
    (∀ t ∈ Run.states (step hash) (new m) events, DeliversOnce (hash channel) t) ↔
      ∀ t ∈ Run.states (step hash) (new m) events, t.subscribed = false ∨ t.joined = ∅ := by
  have hconnected : ∀ t ∈ Run.states (step hash) (new m) events, Connected hash channel t :=
    Run.invariant_always (I := fun t : Traced μ => Connected hash channel t)
      (fun _ e h => connected_step h e) (connected_new m)
  exact forall₂_congr fun t ht => deliversOnce_iff_idle (hconnected t ht)

def party (id : BitVec 64) : Party [0x63] 2 :=
  { attr :=
      { hostName := [0x68], hostIp := [], processId := 7, channelName := [0x63], channelId := 2,
        qosProfile := {}, id, nodeName := [0x6E], nodeId := 1, messageType := [] }
    channelName := rfl
    channelId := rfl }

/-- A publisher of the channel joins before a subscriber is initialised. -/
def twice : List (Event Unit [0x63] 2) :=
  [.publisherChange (party 3) .optJoin 0, .subscriberInit (party 0) true 4 0]

/-- Its next message calls the receiver twice. -/
theorem twice_not_deliversOnce :
    ¬∀ t ∈ Run.states (step fun _ => 2) (new (.new [0x68] 7)) twice, DeliversOnce 2 t := by
  intro h
  have honce := (h _ (Run.exec_mem_states _ _ _) 3 (by decide +kernel)
    { roleAttr := (party 0).attr
      receiver := { attr := { (party 0).attr with id := 4 }, enabled := true } }
    (by decide +kernel)).1
  revert honce
  decide +kernel

end Traced

end Node
end Cmw
