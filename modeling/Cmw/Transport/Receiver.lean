import Cmw.Base.Signal
import Cmw.Library.Table
import Cmw.Transport.Endpoint
import Mathlib.Data.Finset.Basic

/-!
# Receiving

The way of a message from the dispatcher to its receivers:
transport/message/listener_handler.h, transport/dispatcher and
transport/receiver/rtps_receiver.h.  `κ` is the type of the listeners.  A handler
has one signal that every message fires, and one for every sender.
-/

namespace Cmw
namespace Transport

open Base
open Config
open Library

structure ListenerHandler (κ : Type) where
  signal : Signal κ := {}
  signalConns : Table (BitVec 64) Connection := ∅
  signals : Table (BitVec 64) (Signal κ) := ∅
  signalsConns : Table (BitVec 64) (Table (BitVec 64) Connection) := ∅

namespace ListenerHandler

variable {κ : Type}

def connect (h : ListenerHandler κ) (selfId : BitVec 64) (listener : κ) : ListenerHandler κ :=
  let (connection, signal) := h.signal.connect listener
  { h with signal, signalConns := h.signalConns.insert selfId connection }

/-- `Connect(self_id, oppo_id, listener)` -/
def connectTo (h : ListenerHandler κ) (selfId oppoId : BitVec 64) (listener : κ) :
    ListenerHandler κ :=
  let (connection, signal) := (h.signals.get {} oppoId).connect listener
  let conns := h.signalsConns.get ∅ oppoId
  { h with
    signals := h.signals.insert oppoId signal
    signalsConns := h.signalsConns.insert oppoId (conns.insert selfId connection) }

def disconnect (h : ListenerHandler κ) (selfId : BitVec 64) : ListenerHandler κ :=
  match h.signalConns.lookup selfId with
  | none => h
  | some connection =>
      { h with
        signal := h.signal.disconnect connection
        signalConns := h.signalConns.erase selfId }

/-- `Disconnect(self_id, oppo_id)` -/
def disconnectFrom (h : ListenerHandler κ) (selfId oppoId : BitVec 64) : ListenerHandler κ :=
  match h.signalsConns.lookup oppoId with
  | none => h
  | some conns =>
      match conns.lookup selfId with
      | none => h
      | some connection =>
          { h with
            signals := h.signals.insert oppoId ((h.signals.get {} oppoId).disconnect connection)
            signalsConns := h.signalsConns.insert oppoId (conns.erase selfId) }

/-- `Run(msg, msg_info)` for a message of `oppoId`: the listeners that it calls. -/
def run (h : ListenerHandler κ) (oppoId : BitVec 64) : List κ × ListenerHandler κ :=
  let (called, signal) := h.signal.call
  let h := { h with signal }
  match h.signals.lookup oppoId with
  | none => (called, h)
  | some s =>
      let (calledTo, s) := s.call
      (called ++ calledTo, { h with signals := h.signals.insert oppoId s })

end ListenerHandler

structure Dispatcher (κ : Type) where
  isShutdown : Bool := false
  msgListeners : Table (BitVec 64) (ListenerHandler κ) := ∅

namespace Dispatcher

variable {κ : Type}

def update (d : Dispatcher κ) (channelId : BitVec 64)
    (f : ListenerHandler κ → ListenerHandler κ) : Dispatcher κ :=
  { d with msgListeners := d.msgListeners.insert channelId (f (d.msgListeners.get {} channelId)) }

def addListener (d : Dispatcher κ) (selfAttr : RoleAttributes) (listener : κ) : Dispatcher κ :=
  if d.isShutdown then d
  else d.update selfAttr.channelId fun h => h.connect selfAttr.id listener

/-- `AddListener(self_attr, opposite_attr, listener)` -/
def addListenerTo (d : Dispatcher κ) (selfAttr oppositeAttr : RoleAttributes) (listener : κ) :
    Dispatcher κ :=
  if d.isShutdown then d
  else d.update selfAttr.channelId fun h => h.connectTo selfAttr.id oppositeAttr.id listener

def removeListener (d : Dispatcher κ) (selfAttr : RoleAttributes) : Dispatcher κ :=
  if d.isShutdown then d
  else if selfAttr.channelId ∈ d.msgListeners then
    d.update selfAttr.channelId fun h => h.disconnect selfAttr.id
  else d

/-- `RemoveListener(self_attr, opposite_attr)` -/
def removeListenerFrom (d : Dispatcher κ) (selfAttr oppositeAttr : RoleAttributes) : Dispatcher κ :=
  if d.isShutdown then d
  else if selfAttr.channelId ∈ d.msgListeners then
    d.update selfAttr.channelId fun h => h.disconnectFrom selfAttr.id oppositeAttr.id
  else d

/-- `OnMessage(channel_id, msg_str, msg_info)` of the RTPS dispatcher, for a message
of `senderId`: the listeners that it calls. -/
def onMessage (d : Dispatcher κ) (channelId senderId : BitVec 64) : List κ × Dispatcher κ :=
  if d.isShutdown then ([], d)
  else
    match d.msgListeners.lookup channelId with
    | none => ([], d)
    | some h =>
        let (called, h) := h.run senderId
        (called, { d with msgListeners := d.msgListeners.insert channelId h })

end Dispatcher

/-- A receiver of RTPS messages.  Its listener, `OnNewMessage`, is known by the
attributes that it hands on. -/
structure RtpsReceiver where
  attr : RoleAttributes
  enabled : Bool := false
  deriving DecidableEq

namespace RtpsReceiver

def enable (r : RtpsReceiver) (d : Dispatcher RoleAttributes) :
    RtpsReceiver × Dispatcher RoleAttributes :=
  if r.enabled then (r, d) else ({ r with enabled := true }, d.addListener r.attr r.attr)

def disable (r : RtpsReceiver) (d : Dispatcher RoleAttributes) :
    RtpsReceiver × Dispatcher RoleAttributes :=
  if !r.enabled then (r, d) else ({ r with enabled := false }, d.removeListener r.attr)

/-- `Enable(opposite_attr)` -/
def enableTo (r : RtpsReceiver) (oppositeAttr : RoleAttributes) (d : Dispatcher RoleAttributes) :
    Dispatcher RoleAttributes :=
  d.addListenerTo r.attr oppositeAttr r.attr

/-- `Disable(opposite_attr)` -/
def disableFrom (r : RtpsReceiver) (oppositeAttr : RoleAttributes)
    (d : Dispatcher RoleAttributes) : Dispatcher RoleAttributes :=
  d.removeListenerFrom r.attr oppositeAttr

end RtpsReceiver

/-! ## Who is called -/

namespace ListenerHandler

variable {κ : Type}

/-- What a message of `oppoId` calls beside what every message calls. -/
def calledTo (h : ListenerHandler κ) (oppoId : BitVec 64) : List κ :=
  (h.signals.get {} oppoId).called

theorem run_called (h : ListenerHandler κ) (oppoId : BitVec 64) :
    (h.run oppoId).1 = h.signal.called ++ h.calledTo oppoId := by
  rw [run, calledTo]
  cases hs : h.signals.lookup oppoId with
  | none =>
      have hget : h.signals.get {} oppoId = {} := by rw [Table.get, hs, Option.getD_none]
      simp only [hs, hget, Signal.call]
      exact (List.append_nil _).symm
  | some s =>
      simp only [hs, Table.get_of_lookup hs]
      rfl

theorem run_keeps (h : ListenerHandler κ) (oppoId id : BitVec 64) :
    (h.run oppoId).2.signal.called = h.signal.called ∧
      (h.run oppoId).2.calledTo id = h.calledTo id := by
  rw [run]
  cases hs : h.signals.lookup oppoId with
  | none =>
      simp only [hs]
      exact ⟨h.signal.called_clear, rfl⟩
  | some s =>
      simp only [hs]
      refine ⟨h.signal.called_clear, ?_⟩
      rw [calledTo, Table.get_insert]
      split
      case isTrue hid =>
        rw [calledTo, hid, Table.get_of_lookup hs]
        exact s.called_clear
      case isFalse => rfl

theorem calledTo_connectTo (h : ListenerHandler κ) (selfId oppoId id : BitVec 64) (listener : κ) :
    (h.connectTo selfId oppoId listener).calledTo id =
      if id = oppoId then h.calledTo oppoId ++ [listener] else h.calledTo id := by
  rw [calledTo, connectTo]
  dsimp only
  rw [Table.get_insert]
  split
  · exact Signal.called_connect _ _
  · rfl

theorem calledTo_disconnectFrom (h : ListenerHandler κ) {selfId oppoId id : BitVec 64}
    (hne : id ≠ oppoId) : (h.disconnectFrom selfId oppoId).calledTo id = h.calledTo id := by
  rw [disconnectFrom]
  split
  · rfl
  · split
    · rfl
    · rw [calledTo, Table.get_insert, if_neg hne, calledTo]

theorem signal_disconnectFrom (h : ListenerHandler κ) (selfId oppoId : BitVec 64) :
    (h.disconnectFrom selfId oppoId).signal = h.signal := by
  rw [disconnectFrom]
  split
  · rfl
  · split <;> rfl

end ListenerHandler

namespace Dispatcher

variable {κ : Type}

def handler (d : Dispatcher κ) (channelId : BitVec 64) : ListenerHandler κ :=
  d.msgListeners.get {} channelId

theorem handler_update (d : Dispatcher κ) (channelId : BitVec 64)
    (f : ListenerHandler κ → ListenerHandler κ) :
    (d.update channelId f).handler channelId = f (d.handler channelId) := by
  rw [handler, update, Table.get_insert, if_pos rfl]
  rfl

theorem onMessage_called {d : Dispatcher κ} (hup : d.isShutdown = false)
    (channelId senderId : BitVec 64) :
    (d.onMessage channelId senderId).1 =
      (d.handler channelId).signal.called ++ (d.handler channelId).calledTo senderId := by
  rw [← ListenerHandler.run_called, onMessage, hup, if_neg Bool.false_ne_true, handler]
  cases hh : d.msgListeners.lookup channelId with
  | none =>
      rw [Table.get, hh]
      rfl
  | some h => rw [Table.get_of_lookup hh]

theorem onMessage_keeps {d : Dispatcher κ} (hup : d.isShutdown = false)
    (channelId senderId id : BitVec 64) :
    (d.onMessage channelId senderId).2.isShutdown = false ∧
      ((d.onMessage channelId senderId).2.handler channelId).signal.called =
        (d.handler channelId).signal.called ∧
      ((d.onMessage channelId senderId).2.handler channelId).calledTo id =
        (d.handler channelId).calledTo id := by
  rw [onMessage, if_neg (Bool.not_eq_true _ ▸ hup)]
  cases hh : d.msgListeners.lookup channelId with
  | none => exact ⟨hup, rfl, rfl⟩
  | some h =>
      have hold : d.handler channelId = h := Table.get_of_lookup hh
      have hnew : handler { d with msgListeners := d.msgListeners.insert channelId (h.run senderId).2 }
          channelId = (h.run senderId).2 := by
        rw [handler, Table.get_insert, if_pos rfl]
      dsimp only
      rw [hold, hnew]
      exact ⟨hup, h.run_keeps senderId id⟩

end Dispatcher

/-- The receiver is called by every message of its channel, and by those of each of
`ids` once more. -/
structure Hears (d : Dispatcher RoleAttributes) (r : RtpsReceiver) (ids : Finset (BitVec 64)) :
    Prop where
  up : d.isShutdown = false
  always : r.attr ∈ (d.handler r.attr.channelId).signal.called
  again : ∀ id ∈ ids, r.attr ∈ (d.handler r.attr.channelId).calledTo id

namespace Hears

variable {d : Dispatcher RoleAttributes} {r : RtpsReceiver} {ids : Finset (BitVec 64)}

theorem mono {ids' : Finset (BitVec 64)} (h : Hears d r ids) (hsub : ids' ⊆ ids) :
    Hears d r ids' :=
  { h with again := fun id hid => h.again id (hsub hid) }

theorem enable (hup : d.isShutdown = false) (hnew : r.enabled = false) :
    Hears (r.enable d).2 (r.enable d).1 ∅ := by
  rw [RtpsReceiver.enable, hnew, if_neg Bool.false_ne_true, Dispatcher.addListener, hup,
    if_neg Bool.false_ne_true]
  refine ⟨hup, ?_, fun id hid => absurd hid (Finset.notMem_empty id)⟩
  rw [Dispatcher.handler_update]
  exact (Signal.called_connect _ _).symm ▸ List.mem_append_right _ (List.mem_singleton_self _)

theorem enableTo (h : Hears d r ids) (opposite : RoleAttributes) :
    Hears (r.enableTo opposite d) r (insert opposite.id ids) := by
  rw [RtpsReceiver.enableTo, Dispatcher.addListenerTo, h.up, if_neg Bool.false_ne_true]
  refine ⟨h.up, ?_, fun id hid => ?_⟩
  · rw [Dispatcher.handler_update]
    exact h.always
  · rw [Dispatcher.handler_update, ListenerHandler.calledTo_connectTo]
    split
    case isTrue heq => exact List.mem_append_right _ (List.mem_singleton_self _)
    case isFalse hne => exact h.again id (Finset.mem_of_mem_insert_of_ne hid hne)

theorem disableFrom (h : Hears d r ids) (opposite : RoleAttributes) :
    Hears (r.disableFrom opposite d) r (ids.erase opposite.id) := by
  rw [RtpsReceiver.disableFrom, Dispatcher.removeListenerFrom, h.up, if_neg Bool.false_ne_true]
  split
  · refine ⟨h.up, ?_, fun id hid => ?_⟩
    · rw [Dispatcher.handler_update, ListenerHandler.signal_disconnectFrom]
      exact h.always
    · obtain ⟨hne, hid⟩ := Finset.mem_erase.mp hid
      rw [Dispatcher.handler_update, ListenerHandler.calledTo_disconnectFrom _ hne]
      exact h.again id hid
  · exact h.mono (Finset.erase_subset _ _)

theorem onMessage (h : Hears d r ids) (senderId : BitVec 64) :
    Hears (d.onMessage r.attr.channelId senderId).2 r ids := by
  have hkeeps := Dispatcher.onMessage_keeps h.up r.attr.channelId senderId
  exact
    { up := (hkeeps 0).1
      always := (hkeeps 0).2.1 ▸ h.always
      again := fun id hid => (hkeeps id).2.2 ▸ h.again id hid }

theorem two_le_count (h : Hears d r ids) {id : BitVec 64} (hid : id ∈ ids) :
    2 ≤ (d.onMessage r.attr.channelId id).1.count r.attr := by
  have halways := List.count_pos_iff.mpr h.always
  have hagain := List.count_pos_iff.mpr (h.again id hid)
  rw [Dispatcher.onMessage_called h.up, List.count_append]
  omega

end Hears

end Transport
end Cmw
