import Cmw.Library.Run
import Cmw.Transport.Receiver

/-!
# What a disconnect removes

A `ListenerHandler` remembers one connection for a pair of ids, and its signals have
a slot for every `Connect`.  A second `Connect` of a pair replaces the connection
that is remembered for it, and no `Disconnect` finds the first slot again.

The listeners carry the pair that they are connected for, so that one sees of a call
where it comes from.  `removes_iff_once` is exact: `Run` calls the listeners that
have been connected since the last `Disconnect` of their pair, and no others, in the
runs that disconnect no pair which they have connected twice.
-/

namespace Cmw
namespace Transport

open Base
open Library

/-- The ids of a `Connect` or `Disconnect`: `self_id`, and `oppo_id` where it has one. -/
structure Pair where
  oppoId : Option (BitVec 64)
  selfId : BitVec 64
  deriving DecidableEq

/-- A listener with the pair that it is connected for. -/
structure PairListener (κ : Type) where
  pair : Pair
  listener : κ

inductive HandlerEvent (κ : Type) where
  | connect (selfId : BitVec 64) (listener : κ)
  | connectTo (selfId oppoId : BitVec 64) (listener : κ)
  | disconnect (selfId : BitVec 64)
  | disconnectFrom (selfId oppoId : BitVec 64)
  | run (oppoId : BitVec 64)

/-- A handler, and the listeners of each pair that were connected since it was last
disconnected. -/
structure Handling (κ : Type) where
  handler : ListenerHandler (PairListener κ) := {}
  pending : Pair → List κ := fun _ => []

namespace Handling

variable {κ : Type}

def setPending (s : Handling κ) (pair : Pair) (listeners : List κ) : Pair → List κ :=
  fun p => if p = pair then listeners else s.pending p

def step (s : Handling κ) : HandlerEvent κ → Handling κ
  | .connect selfId listener =>
      let pair : Pair := ⟨none, selfId⟩
      { handler := s.handler.connect selfId ⟨pair, listener⟩
        pending := s.setPending pair (s.pending pair ++ [listener]) }
  | .connectTo selfId oppoId listener =>
      let pair : Pair := ⟨some oppoId, selfId⟩
      { handler := s.handler.connectTo selfId oppoId ⟨pair, listener⟩
        pending := s.setPending pair (s.pending pair ++ [listener]) }
  | .disconnect selfId =>
      { handler := s.handler.disconnect selfId
        pending := s.setPending ⟨none, selfId⟩ [] }
  | .disconnectFrom selfId oppoId =>
      { handler := s.handler.disconnectFrom selfId oppoId
        pending := s.setPending ⟨some oppoId, selfId⟩ [] }
  | .run oppoId => { s with handler := (s.handler.run oppoId).2 }

/-- A message of `oppoId` calls the listeners of the pairs without an `oppo_id` and of those with
this one, as long as they have not been disconnected. -/
def Removes (s : Handling κ) : Prop :=
  ∀ oppoId l, l ∈ (s.handler.run oppoId).1 ↔
    (l.pair.oppoId = none ∨ l.pair.oppoId = some oppoId) ∧ l.listener ∈ s.pending l.pair

/-- The step disconnects no pair that has been connected twice. -/
def Once (s : Handling κ) : HandlerEvent κ → Prop
  | .disconnect selfId => (s.pending ⟨none, selfId⟩).length ≤ 1
  | .disconnectFrom selfId oppoId => (s.pending ⟨some oppoId, selfId⟩).length ≤ 1
  | _ => True

end Handling

/-! ## Wires

A signal of a handler, with the connections to it that the handler remembers. -/

structure Wire (κ : Type) where
  signal : Signal κ := {}
  conns : Table (BitVec 64) Connection := ∅

namespace Wire

variable {κ : Type}

def connect (w : Wire κ) (selfId : BitVec 64) (listener : κ) : Wire κ :=
  { signal := (w.signal.connect listener).2
    conns := w.conns.insert selfId (w.signal.connect listener).1 }

def disconnect (w : Wire κ) (selfId : BitVec 64) : Wire κ :=
  match w.conns.lookup selfId with
  | none => w
  | some connection =>
      { signal := w.signal.disconnect connection
        conns := w.conns.erase selfId }

end Wire

namespace ListenerHandler

variable {κ : Type}

def wire (h : ListenerHandler κ) : Option (BitVec 64) → Wire κ
  | none => { signal := h.signal, conns := h.signalConns }
  | some oppoId => { signal := h.signals.get {} oppoId, conns := h.signalsConns.get ∅ oppoId }

theorem wire_connect (h : ListenerHandler κ) (selfId : BitVec 64) (listener : κ)
    (o : Option (BitVec 64)) :
    (h.connect selfId listener).wire o =
      if o = none then (h.wire none).connect selfId listener else h.wire o := by
  cases o with
  | none => rfl
  | some oppoId => rfl

theorem wire_connectTo (h : ListenerHandler κ) (selfId oppoId : BitVec 64) (listener : κ)
    (o : Option (BitVec 64)) :
    (h.connectTo selfId oppoId listener).wire o =
      if o = some oppoId then (h.wire (some oppoId)).connect selfId listener else h.wire o := by
  cases o with
  | none => rfl
  | some id =>
      simp only [connectTo, wire, Table.get_insert, Option.some.injEq]
      split <;> rfl

theorem wire_disconnect (h : ListenerHandler κ) (selfId : BitVec 64) (o : Option (BitVec 64)) :
    (h.disconnect selfId).wire o =
      if o = none then (h.wire none).disconnect selfId else h.wire o := by
  rw [disconnect]
  cases hconn : h.signalConns.lookup selfId with
  | none =>
      have hw : (h.wire none).disconnect selfId = h.wire none := by
        simp only [Wire.disconnect, wire, hconn]
      rw [hw]
      cases o <;> rfl
  | some connection =>
      have hw : (h.wire none).disconnect selfId =
          { signal := h.signal.disconnect connection, conns := h.signalConns.erase selfId } := by
        simp only [Wire.disconnect, wire, hconn]
      rw [hw]
      cases o <;> rfl

theorem wire_disconnectFrom (h : ListenerHandler κ) (selfId oppoId : BitVec 64)
    (o : Option (BitVec 64)) :
    (h.disconnectFrom selfId oppoId).wire o =
      if o = some oppoId then (h.wire (some oppoId)).disconnect selfId else h.wire o := by
  have hsame : (h.wire (some oppoId)).disconnect selfId = h.wire (some oppoId) →
      h.wire o =
        if o = some oppoId then (h.wire (some oppoId)).disconnect selfId else h.wire o := by
    intro hw
    rw [hw]
    split
    case isTrue ho => rw [ho]
    case isFalse => rfl
  rw [disconnectFrom]
  cases hconns : h.signalsConns.lookup oppoId with
  | none =>
      refine hsame ?_
      have hget : h.signalsConns.get ∅ oppoId = ∅ := by rw [Table.get, hconns, Option.getD_none]
      simp only [Wire.disconnect, wire, hget, AList.lookup_empty]
  | some conns =>
      have hget : h.signalsConns.get ∅ oppoId = conns := Table.get_of_lookup hconns
      dsimp only
      cases hconn : conns.lookup selfId with
      | none =>
          refine hsame ?_
          simp only [Wire.disconnect, wire, hget, hconn]
      | some connection =>
          cases o with
          | none => rfl
          | some id =>
              simp only [Wire.disconnect, wire, hget, hconn, Table.get_insert, Option.some.injEq]
              split <;> rfl

theorem wire_run {h : ListenerHandler κ}
    (hclear : ∀ o, (h.wire o).signal.clearDisconnectedSlots = (h.wire o).signal)
    (oppoId : BitVec 64) (o : Option (BitVec 64)) : (h.run oppoId).2.wire o = h.wire o := by
  have hsignal : h.signal.clearDisconnectedSlots = h.signal := hclear none
  have hoppo := hclear (some oppoId)
  rw [run]
  simp only [Signal.call, hsignal]
  cases hs : h.signals.lookup oppoId with
  | none => rfl
  | some signal =>
      rw [wire, Table.get_of_lookup hs] at hoppo
      cases o with
      | none => rfl
      | some id =>
          simp only [wire, Table.get_insert, hoppo]
          split
          case isTrue hid => rw [hid, Table.get_of_lookup hs]
          case isFalse => rfl

end ListenerHandler

/-! ## The slots of a wire -/

namespace Wire

variable {κ : Type} {w : Wire (PairListener κ)} {oppoId : Option (BitVec 64)}
  {pending : Pair → List κ} {selfId : BitVec 64}

def slotsOf (w : Wire (PairListener κ)) (selfId : BitVec 64) : List (Slot (PairListener κ)) :=
  w.signal.slots.filter fun slot => slot.cb.pair.selfId == selfId

/-- The slots of the wire are those of the pending listeners, and the last of each pair is the
one that is remembered. -/
structure Holds (w : Wire (PairListener κ)) (oppoId : Option (BitVec 64))
    (pending : Pair → List κ) : Prop where
  connected : ∀ slot ∈ w.signal.slots, slot.connected = true
  bounded : ∀ slot ∈ w.signal.slots, slot.ptr < w.signal.count
  distinct : (w.signal.slots.map fun slot => slot.ptr).Nodup
  opposite : ∀ slot ∈ w.signal.slots, slot.cb.pair.oppoId = oppoId
  listeners : ∀ selfId,
    (w.slotsOf selfId).map (fun slot => slot.cb.listener) = pending ⟨oppoId, selfId⟩
  remembered : ∀ selfId,
    w.conns.lookup selfId = (w.slotsOf selfId).getLast?.map fun slot => slot.ptr

theorem mem_slotsOf {slot : Slot (PairListener κ)} :
    slot ∈ w.slotsOf selfId ↔ slot ∈ w.signal.slots ∧ slot.cb.pair.selfId = selfId := by
  rw [slotsOf, List.mem_filter, beq_iff_eq]

theorem slotsOf_connect (w : Wire (PairListener κ)) (selfId id : BitVec 64) (l : PairListener κ) :
    (w.connect selfId l).slotsOf id =
      if id = l.pair.selfId then w.slotsOf id ++ [{ ptr := w.signal.count, cb := l }]
      else w.slotsOf id := by
  show (w.signal.slots ++ [_]).filter _ = _
  rw [List.filter_append, List.filter_singleton]
  split
  case isTrue hid => rw [hid, beq_self_eq_true]; rfl
  case isFalse hne =>
    rw [beq_eq_false_iff_ne.mpr (Ne.symm hne)]
    exact List.append_nil _

namespace Holds

theorem congr {pending' : Pair → List κ} (h : w.Holds oppoId pending)
    (heq : ∀ selfId, pending' ⟨oppoId, selfId⟩ = pending ⟨oppoId, selfId⟩) :
    w.Holds oppoId pending' :=
  { h with listeners := fun selfId => (h.listeners selfId).trans (heq selfId).symm }

theorem mem_called (h : w.Holds oppoId pending) (l : PairListener κ) :
    l ∈ w.signal.called ↔ l.pair.oppoId = oppoId ∧ l.listener ∈ pending l.pair := by
  rw [Signal.called, List.filter_eq_self.mpr h.connected]
  constructor
  · intro hl
    obtain ⟨slot, hslot, rfl⟩ := List.mem_map.mp hl
    have hoppo := h.opposite slot hslot
    refine ⟨hoppo, ?_⟩
    have hlistener : slot.cb.listener ∈ pending ⟨oppoId, slot.cb.pair.selfId⟩ := by
      rw [← h.listeners]
      exact List.mem_map_of_mem (mem_slotsOf.mpr ⟨hslot, rfl⟩)
    rw [← hoppo] at hlistener
    exact hlistener
  · intro hl
    obtain ⟨hoppo, hl⟩ := hl
    have hpair : l.pair = ⟨oppoId, l.pair.selfId⟩ := by rw [← hoppo]
    rw [hpair, ← h.listeners] at hl
    obtain ⟨slot, hslot, hlistener⟩ := List.mem_map.mp hl
    obtain ⟨hslot, hself⟩ := mem_slotsOf.mp hslot
    have hcb : slot.cb = l := by
      have hsame : slot.cb.pair = l.pair := by
        rw [hpair, ← h.opposite slot hslot, ← hself]
      calc slot.cb = ⟨slot.cb.pair, slot.cb.listener⟩ := rfl
        _ = ⟨l.pair, l.listener⟩ := by rw [hsame, hlistener]
        _ = l := rfl
    exact List.mem_map.mpr ⟨slot, hslot, hcb⟩

theorem connect (h : w.Holds oppoId pending) (listener : κ) :
    (w.connect selfId ⟨⟨oppoId, selfId⟩, listener⟩).Holds oppoId fun p =>
      if p = ⟨oppoId, selfId⟩ then pending ⟨oppoId, selfId⟩ ++ [listener] else pending p where
  connected := List.forall_mem_append.mpr ⟨h.connected, List.forall_mem_singleton.mpr rfl⟩
  bounded := by
    refine List.forall_mem_append.mpr ⟨fun slot hslot => ?_, List.forall_mem_singleton.mpr ?_⟩
    · exact Nat.lt_succ_of_lt (h.bounded slot hslot)
    · exact Nat.lt_succ_self w.signal.count
  distinct := by
    show ((w.signal.slots ++ [_]).map _).Nodup
    rw [List.map_append, List.nodup_append]
    refine ⟨h.distinct, List.nodup_singleton _, fun ptr hptr last hlast => ?_⟩
    obtain ⟨slot, hslot, rfl⟩ := List.mem_map.mp hptr
    rw [List.map_singleton, List.mem_singleton] at hlast
    rw [hlast]
    exact Nat.ne_of_lt (h.bounded slot hslot)
  opposite := List.forall_mem_append.mpr ⟨h.opposite, List.forall_mem_singleton.mpr rfl⟩
  listeners := by
    intro id
    rw [slotsOf_connect]
    dsimp only
    split
    case isTrue hid =>
      rw [if_pos (hid ▸ rfl), List.map_append, h.listeners, hid, List.map_singleton]
    case isFalse hne =>
      rw [if_neg fun heq => hne (congrArg Pair.selfId heq), h.listeners]
  remembered := by
    intro id
    rw [slotsOf_connect]
    show (w.conns.insert selfId w.signal.count).lookup id = _
    rw [Table.lookup_insert, h.remembered]
    dsimp only
    split
    case isTrue => rw [List.getLast?_append_cons]; rfl
    case isFalse => rfl

theorem length_slotsOf (h : w.Holds oppoId pending) (selfId : BitVec 64) :
    (w.slotsOf selfId).length = (pending ⟨oppoId, selfId⟩).length := by
  rw [← h.listeners, List.length_map]

theorem eq_of_ptr (h : w.Holds oppoId pending) {slot slot' : Slot (PairListener κ)}
    (hslot : slot ∈ w.signal.slots) (hslot' : slot' ∈ w.signal.slots)
    (hptr : slot.ptr = slot'.ptr) : slot = slot' :=
  List.inj_on_of_nodup_map h.distinct hslot hslot' hptr

/-- The disconnect of a pair takes its last slot away. -/
theorem disconnect_concat (h : w.Holds oppoId pending) {slots : List (Slot (PairListener κ))}
    {last : Slot (PairListener κ)} (hlast : w.slotsOf selfId = slots ++ [last]) :
    w.disconnect selfId =
      { signal := w.signal.disconnect last.ptr, conns := w.conns.erase selfId } := by
  have hlookup : w.conns.lookup selfId = some last.ptr := by
    rw [h.remembered, hlast, List.getLast?_concat, Option.map_some]
  simp only [Wire.disconnect, hlookup]

theorem disconnect_nil (h : w.Holds oppoId pending) (hnil : w.slotsOf selfId = []) :
    w.disconnect selfId = w := by
  have hlookup : w.conns.lookup selfId = none := by
    rw [h.remembered, hnil, List.getLast?_nil, Option.map_none]
  simp only [Wire.disconnect, hlookup]

theorem remove (h : w.Holds oppoId pending) {slot : Slot (PairListener κ)}
    (hslot : w.slotsOf selfId = [slot]) :
    Wire.Holds { signal := w.signal.disconnect slot.ptr, conns := w.conns.erase selfId } oppoId
      fun p => if p = ⟨oppoId, selfId⟩ then [] else pending p := by
  have hslots := Signal.slots_disconnect h.connected slot.ptr
  have hsub : ∀ s ∈ (w.signal.disconnect slot.ptr).slots, s ∈ w.signal.slots := fun s hs =>
    List.mem_of_mem_filter (hslots ▸ hs)
  have hmem := mem_slotsOf.mp (hslot ▸ List.mem_singleton_self slot)
  have hof : ∀ id,
      slotsOf { signal := w.signal.disconnect slot.ptr, conns := w.conns.erase selfId } id =
        if id = selfId then [] else w.slotsOf id := by
    intro id
    rw [slotsOf]
    dsimp only
    rw [hslots, List.filter_comm, ← slotsOf]
    split
    case isTrue hid => rw [hid, hslot, List.filter_singleton, bne_self_eq_false]; rfl
    case isFalse hne =>
      refine List.filter_eq_self.mpr fun s hs => bne_iff_ne.mpr fun hptr => hne ?_
      obtain ⟨hs, hid⟩ := mem_slotsOf.mp hs
      rw [← hid, h.eq_of_ptr hs hmem.1 hptr, hmem.2]
  exact
    { connected := fun s hs => h.connected s (hsub s hs)
      bounded := fun s hs => (Signal.count_disconnect _ _).symm ▸ h.bounded s (hsub s hs)
      distinct := hslots ▸ h.distinct.sublist (List.filter_sublist.map _)
      opposite := fun s hs => h.opposite s (hsub s hs)
      listeners := by
        intro id
        rw [hof]
        split
        case isTrue hid => rw [if_pos (hid ▸ rfl), List.map_nil]
        case isFalse hne => rw [if_neg fun heq => hne (congrArg Pair.selfId heq), h.listeners]
      remembered := by
        intro id
        show (w.conns.erase selfId).lookup id = _
        rw [hof, Table.lookup_erase, h.remembered]
        split
        case isTrue => rfl
        case isFalse => rfl }

theorem disconnect (h : w.Holds oppoId pending) (hone : (pending ⟨oppoId, selfId⟩).length ≤ 1) :
    (w.disconnect selfId).Holds oppoId fun p =>
      if p = ⟨oppoId, selfId⟩ then [] else pending p := by
  rw [← h.length_slotsOf] at hone
  cases hslots : w.slotsOf selfId with
  | nil =>
      rw [h.disconnect_nil hslots]
      refine h.congr fun id => ?_
      split
      case isTrue hid =>
        have hlen := h.length_slotsOf selfId
        rw [hid]
        rw [hslots] at hlen
        exact (List.eq_nil_of_length_eq_zero hlen.symm).symm
      case isFalse => rfl
  | cons slot slots =>
      rw [hslots, List.length_cons] at hone
      obtain rfl : slots = [] := List.eq_nil_of_length_eq_zero (by omega)
      have hlast : w.slotsOf selfId = [] ++ [slot] := hslots
      rw [h.disconnect_concat hlast]
      exact h.remove hslots

/-- Of two slots of a pair the disconnect leaves the first. -/
theorem le_one_of_disconnect (h : w.Holds oppoId pending)
    (hgone : ∀ l ∈ (w.disconnect selfId).signal.called, l.pair ≠ ⟨oppoId, selfId⟩) :
    (pending ⟨oppoId, selfId⟩).length ≤ 1 := by
  by_contra hlt
  rw [← h.length_slotsOf] at hlt
  rcases List.eq_nil_or_concat (w.slotsOf selfId) with hnil | ⟨slots, last, hslots⟩
  · rw [hnil] at hlt
    exact hlt (Nat.zero_le 1)
  · rw [List.concat_eq_append] at hslots
    cases slots with
    | nil =>
        rw [hslots] at hlt
        exact hlt (Nat.le_refl 1)
    | cons first slots =>
        have hmem : first ∈ w.slotsOf selfId := hslots ▸ List.mem_cons_self
        obtain ⟨hfirst, hself⟩ := mem_slotsOf.mp hmem
        have hne : first.ptr ≠ last.ptr := by
          have hnodup : ((w.slotsOf selfId).map fun slot => slot.ptr).Nodup :=
            h.distinct.sublist (List.filter_sublist.map _)
          rw [hslots, List.cons_append, List.map_cons, List.nodup_cons] at hnodup
          intro heq
          exact hnodup.1 (heq ▸ List.mem_map_of_mem (List.mem_append_right _ List.mem_cons_self))
        have hcalled : first.cb ∈ (w.disconnect selfId).signal.called := by
          rw [h.disconnect_concat hslots, Signal.called]
          dsimp only
          rw [Signal.slots_disconnect h.connected]
          refine List.mem_map_of_mem (List.mem_filter.mpr ⟨?_, h.connected first hfirst⟩)
          exact List.mem_filter.mpr ⟨hfirst, bne_iff_ne.mpr hne⟩
        refine hgone first.cb hcalled ?_
        rw [← h.opposite first hfirst, ← hself]

theorem clear (h : w.Holds oppoId pending) : w.signal.clearDisconnectedSlots = w.signal := by
  rw [Signal.clearDisconnectedSlots, List.filter_eq_self.mpr h.connected]

end Holds

end Wire

/-! ## Runs -/

namespace Handling

variable {κ : Type} {s : Handling κ}

/-- Every signal of the handler holds what is pending on it. -/
def Good (s : Handling κ) : Prop := ∀ o, (s.handler.wire o).Holds o s.pending

theorem good_init : Good ({} : Handling κ) := by
  have hempty : ∀ o, Wire.Holds ({} : Wire (PairListener κ)) o fun _ => [] := fun o =>
    { connected := List.forall_mem_nil _
      bounded := List.forall_mem_nil _
      distinct := List.nodup_nil
      opposite := List.forall_mem_nil _
      listeners := fun _ => rfl
      remembered := fun _ => rfl }
  intro o
  cases o with
  | none => exact hempty none
  | some oppoId => exact hempty (some oppoId)

theorem removes_of_good (h : s.Good) : s.Removes := by
  intro oppoId l
  have hall := (h none).mem_called l
  have hown := (h (some oppoId)).mem_called l
  rw [ListenerHandler.run_called, List.mem_append]
  show l ∈ (s.handler.wire none).signal.called ∨
    l ∈ (s.handler.wire (some oppoId)).signal.called ↔ _
  rw [hall, hown, or_and_right]

/-- A change of one wire, and of what is pending on it, leaves the other wires as they are. -/
theorem good_of_wire {handler : ListenerHandler (PairListener κ)} {o : Option (BitVec 64)}
    {selfId : BitVec 64} {listeners : List κ} {w : Wire (PairListener κ)} (h : s.Good)
    (hwire : ∀ o', handler.wire o' = if o' = o then w else s.handler.wire o')
    (hw : w.Holds o (s.setPending ⟨o, selfId⟩ listeners)) :
    Good { handler, pending := s.setPending ⟨o, selfId⟩ listeners } := by
  intro o'
  dsimp only
  rw [hwire]
  split
  case isTrue ho => exact ho ▸ hw
  case isFalse hne =>
    exact (h o').congr fun id => if_neg fun heq => hne (congrArg Pair.oppoId heq)

theorem good_step (h : s.Good) {e : HandlerEvent κ} (honce : s.Once e) : (s.step e).Good := by
  cases e with
  | connect selfId listener =>
      exact good_of_wire h (s.handler.wire_connect selfId _) ((h none).connect listener)
  | connectTo selfId oppoId listener =>
      exact good_of_wire h (s.handler.wire_connectTo selfId oppoId _)
        ((h (some oppoId)).connect listener)
  | disconnect selfId =>
      exact good_of_wire h (s.handler.wire_disconnect selfId) ((h none).disconnect honce)
  | disconnectFrom selfId oppoId =>
      exact good_of_wire h (s.handler.wire_disconnectFrom selfId oppoId)
        ((h (some oppoId)).disconnect honce)
  | run oppoId =>
      intro o
      show ((s.handler.run oppoId).2.wire o).Holds o s.pending
      rw [ListenerHandler.wire_run fun o' => (h o').clear]
      exact h o

/-- What a wire calls, some message calls. -/
theorem ne_of_removes {handler : ListenerHandler (PairListener κ)} {o : Option (BitVec 64)}
    {selfId : BitVec 64}
    (hr : Removes { handler, pending := s.setPending ⟨o, selfId⟩ [] }) {l : PairListener κ}
    (hl : l ∈ (handler.wire o).signal.called) : l.pair ≠ ⟨o, selfId⟩ := by
  have hrun : l ∈ (handler.run (o.getD 0)).1 := by
    rw [ListenerHandler.run_called, List.mem_append]
    cases o with
    | none => exact .inl hl
    | some oppoId => exact .inr hl
  have hpending : l.listener ∈ s.setPending ⟨o, selfId⟩ [] l.pair := ((hr _ l).mp hrun).2
  intro hpair
  rw [setPending, if_pos hpair] at hpending
  exact List.not_mem_nil hpending

theorem once_of_removes (h : s.Good) {e : HandlerEvent κ} (hr : (s.step e).Removes) :
    s.Once e := by
  cases e with
  | connect => trivial
  | connectTo => trivial
  | disconnect selfId =>
      refine (h none).le_one_of_disconnect fun l hl => ne_of_removes hr ?_
      rw [ListenerHandler.wire_disconnect, if_pos rfl]
      exact hl
  | disconnectFrom selfId oppoId =>
      refine (h (some oppoId)).le_one_of_disconnect fun l hl => ne_of_removes hr ?_
      rw [ListenerHandler.wire_disconnectFrom, if_pos rfl]
      exact hl
  | run => trivial

/-- In every state of a run a message calls the listeners that have been connected since their
pair was disconnected, and no others, if and only if no pair is disconnected that has been
connected twice since. -/
theorem removes_iff_once (es : List (HandlerEvent κ)) :
    (∀ s ∈ Run.states step {} es, s.Removes) ↔ Run.Along step Once {} es :=
  Run.forall_states_iff_along (fun _ => removes_of_good) (fun _ _ h honce => good_step h honce)
    (fun _ _ h hr => once_of_removes h hr) good_init

/-- Two listeners are connected for the id 1, and it is disconnected: the first of them is still
called by a message of the id 2. -/
theorem connectedTwice_not_removes :
    ¬∀ s ∈ Run.states step ({} : Handling Nat)
      [.connect 1 10, .connect 1 20, .disconnect 1], s.Removes := by
  intro h
  have hlast := h _ (Run.exec_mem_states step _ _) 2 ⟨⟨none, 1⟩, 10⟩
  have hcalled := (hlast.mp (List.mem_singleton.mpr rfl)).2
  exact List.not_mem_nil hcalled

end Handling

end Transport
end Cmw
