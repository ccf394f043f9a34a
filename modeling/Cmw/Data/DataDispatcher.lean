import Cmw.Base.AtomicHashMap
import Cmw.Data.AllLatest

/-!
# Many visitors

data/data_dispatcher.h, data/data_notifier.h and the constructors of data/data_visitor.h:
any number of visitors of one, two or three channels, made and destroyed while messages
are dispatched.  There is a dispatcher for every type of messages, and one notifier for all of
them.  Calls come one after another, and each of `Dispatch` finds what `IsShutdown` says then.

The dispatchers know the buffers by weak pointers, so a visitor that is gone is passed
over.  The notifier keeps what it was given.
-/

namespace Cmw
namespace Data

open Base
open Library

variable {κ τ γ : Type}

/-- A channel of messages of a type, and the size of the queue for it. -/
structure VisitorConfig (κ : Type) where
  type : κ
  channelId : BitVec 64
  queueSize : BitVec 32

/-- What a visitor is made with. -/
inductive Kind (κ : Type)
  | one (config0 : VisitorConfig κ)
  | two (config0 config1 : VisitorConfig κ)
  | three (config0 config1 config2 : VisitorConfig κ)

namespace Kind

def config0 : Kind κ → VisitorConfig κ
  | one config0 => config0
  | two config0 _ => config0
  | three config0 _ _ => config0

def configs : Kind κ → List (VisitorConfig κ)
  | one config0 => [config0]
  | two config0 config1 => [config0, config1]
  | three config0 config1 config2 => [config0, config1, config2]

end Kind

inductive AnyVisitor (τ : Type)
  | one (v : DataVisitor τ)
  | two (v : DataVisitor2 τ τ)
  | three (v : DataVisitor3 τ τ τ)

namespace AnyVisitor

def new [Inhabited τ] : Kind κ → AnyVisitor τ
  | .one c0 => one (.new c0.queueSize)
  | .two c0 c1 => two (.new c0.queueSize c1.queueSize)
  | .three c0 c1 c2 => three (.new c0.queueSize c1.queueSize c2.queueSize)

/-- `Fill` of the buffer for its channel `i`. -/
def fill (v : AnyVisitor τ) (i : Nat) (msg : τ) : AnyVisitor τ :=
  match v, i with
  | one v, 0 => one (v.fill msg)
  | two v, 0 => two { v with dataFusion := v.dataFusion.fill0 Others.one msg }
  | two v, 1 => two { v with dataFusion := v.dataFusion.fillOther Others.one msg }
  | three v, 0 => three { v with dataFusion := v.dataFusion.fill0 Others.two msg }
  | three v, 1 => three { v with dataFusion := v.dataFusion.fillOther Others.two (.inl msg) }
  | three v, 2 => three { v with dataFusion := v.dataFusion.fillOther Others.two (.inr msg) }
  | v, _ => v

/-- The messages that are fetched, one of each channel. -/
def tryFetch : AnyVisitor τ → Option (List τ) × AnyVisitor τ
  | one v => (v.tryFetch.1.map fun m => [m.2], one v.tryFetch.2)
  | two v => (v.tryFetch.1.map fun m => [m.1, m.2], two v.tryFetch.2)
  | three v => (v.tryFetch.1.map fun m => [m.1, m.2.1, m.2.2], three v.tryFetch.2)

end AnyVisitor

/-- `DataDispatcher<T>::Instance()` for every `T`, and `DataNotifier::Instance()`.  A visitor
and its notifier have the same number, and a buffer is told by its visitor and its place
there. -/
structure Hub (κ τ γ : Type) where
  buffersMap : κ → AtomicHashMap (BitVec 64) (List (Nat × Nat)) 7 := fun _ => {}
  notifiesMap : AtomicHashMap (BitVec 64) (List Nat) 7 := {}
  visitor : Nat → Option (AnyVisitor τ) := fun _ => none
  callback : Nat → Option γ := fun _ => none
  made : Nat := 0

inductive HubEvent (κ τ γ : Type)
  | create (kind : Kind κ)
  | registerNotifyCallback (p : Nat) (callback : γ)
  | destroy (p : Nat)
  | dispatch (isShutdown : Bool) (type : κ) (channelId : BitVec 64) (msg : τ)
  | tryFetch (p : Nat)

inductive Answer (τ γ : Type)
  | unit
  /-- of `Dispatch`, and the callbacks that it has called -/
  | dispatched (answer : Bool) (called : List γ)
  | fetched (msgs : Option (List τ))

/-- The vector under a key with one more at its end, or a new one. -/
def emplaceBack {α : Type} (found : Option (List α)) (a : α) : List α :=
  match found with
  | some l => l ++ [a]
  | none => [a]

namespace Hub

section Functions

variable [DecidableEq κ]

def addBuffer (h : Hub κ τ γ) (config : VisitorConfig κ) (buffer : Nat × Nat) : Hub κ τ γ :=
  let map := h.buffersMap config.type
  let buffers := emplaceBack (map.get config.channelId) buffer
  { h with
    buffersMap := Function.update h.buffersMap config.type (map.set config.channelId buffers) }

def addNotifier (h : Hub κ τ γ) (channelId : BitVec 64) (notifier : Nat) : Hub κ τ γ :=
  let notifies := emplaceBack (h.notifiesMap.get channelId) notifier
  { h with notifiesMap := h.notifiesMap.set channelId notifies }

/-- The constructor of a visitor. -/
def create [Inhabited τ] (h : Hub κ τ γ) (kind : Kind κ) : Hub κ τ γ :=
  let p := h.made
  let h := kind.configs.zipIdx.foldl (fun h c => h.addBuffer c.1 (p, c.2)) h
  let h := h.addNotifier kind.config0.channelId p
  { h with
    visitor := Function.update h.visitor p (some (.new kind))
    made := p + 1 }

/-- `Fill`, where the buffer is still there. -/
def fillBuffer (h : Hub κ τ γ) (msg : τ) (buffer : Nat × Nat) : Hub κ τ γ :=
  match h.visitor buffer.1 with
  | some v => { h with visitor := Function.update h.visitor buffer.1 (some (v.fill buffer.2 msg)) }
  | none => h

/-- `DataNotifier::Notify`, and the callbacks that it calls. -/
def notify (h : Hub κ τ γ) (channelId : BitVec 64) : Bool × List γ :=
  match h.notifiesMap.get channelId with
  | some notifies => (true, notifies.filterMap h.callback)
  | none => (false, [])

def dispatch (h : Hub κ τ γ) (isShutdown : Bool) (type : κ) (channelId : BitVec 64) (msg : τ) :
    (Bool × List γ) × Hub κ τ γ :=
  if isShutdown then ((false, []), h)
  else
    match (h.buffersMap type).get channelId with
    | some buffers =>
        let h := buffers.foldl (fun h buffer => h.fillBuffer msg buffer) h
        (h.notify channelId, h)
    | none => ((false, []), h)

def step [Inhabited τ] (h : Hub κ τ γ) : HubEvent κ τ γ → Answer τ γ × Hub κ τ γ
  | .create kind => (.unit, h.create kind)
  | .registerNotifyCallback p callback =>
      match h.visitor p with
      | some _ => (.unit, { h with callback := Function.update h.callback p (some callback) })
      | none => (.unit, h)
  | .destroy p => (.unit, { h with visitor := Function.update h.visitor p none })
  | .dispatch isShutdown type channelId msg =>
      let r := h.dispatch isShutdown type channelId msg
      (.dispatched r.1.1 r.1.2, r.2)
  | .tryFetch p =>
      match h.visitor p with
      | some v =>
          (.fetched v.tryFetch.1,
            { h with visitor := Function.update h.visitor p (some v.tryFetch.2) })
      | none => (.unit, h)

/-- The hub after some calls. -/
def after [Inhabited τ] (h : Hub κ τ γ) (es : List (HubEvent κ τ γ)) : Hub κ τ γ :=
  Run.exec (fun h e => (h.step e).2) h es

/-- What the calls of `TryFetch` of one visitor return. -/
def fetchedBy [Inhabited τ] (p : Nat) (h : Hub κ τ γ) :
    List (HubEvent κ τ γ) → List (Option (List τ))
  | [] => []
  | e :: es =>
      match e, (h.step e).1 with
      | .tryFetch q, .fetched msgs =>
          if q = p then msgs :: fetchedBy p (h.step e).2 es else fetchedBy p (h.step e).2 es
      | _, _ => fetchedBy p (h.step e).2 es

end Functions

end Hub

/-! ## What the maps hold -/

/-- An entry of a map that is made when there is something to put there. -/
def nonEmpty {α : Type} (l : List α) : Option (List α) := if l = [] then none else some l

theorem some_emplaceBack {α : Type} (l : List α) (a : α) :
    some (emplaceBack (nonEmpty l) a) = nonEmpty (l ++ [a]) := by
  rw [nonEmpty, nonEmpty, if_neg (List.append_ne_nil_of_right_ne_nil l (List.cons_ne_nil a []))]
  by_cases hl : l = []
  · rw [if_pos hl, hl]
    rfl
  · rw [if_neg hl]
    rfl

variable [DecidableEq κ]

/-- Which channels of a visitor are this one. -/
def ports (type : κ) (channelId : BitVec 64) (configs : List (VisitorConfig κ × Nat)) : List Nat :=
  (configs.filter fun c => c.1.type = type ∧ c.1.channelId = channelId).map Prod.snd

def Kind.ports (kind : Kind κ) (type : κ) (channelId : BitVec 64) : List Nat :=
  Data.ports type channelId kind.configs.zipIdx

/-- The buffers of a channel, in the order in which the visitors were made. -/
def buffersOf (kinds : List (Kind κ)) (type : κ) (channelId : BitVec 64) : List (Nat × Nat) :=
  kinds.zipIdx.flatMap fun k => (k.1.ports type channelId).map fun i => (k.2, i)

/-- The visitors whose first channel is this one. -/
def notifiersOf (kinds : List (Kind κ)) (channelId : BitVec 64) : List Nat :=
  (kinds.zipIdx.filter fun k => k.1.config0.channelId = channelId).map Prod.snd

/-- The visitors that have been made, of these kinds. -/
structure Hub.Knows (h : Hub κ τ γ) (kinds : List (Kind κ)) : Prop where
  made : h.made = kinds.length
  buffers : ∀ type channelId,
    (h.buffersMap type).get channelId = nonEmpty (buffersOf kinds type channelId)
  notifies : ∀ channelId, h.notifiesMap.get channelId = nonEmpty (notifiersOf kinds channelId)
  visitor : ∀ p, kinds.length ≤ p → h.visitor p = none

/-- What the calls have made. -/
def kindsOf (es : List (HubEvent κ τ γ)) : List (Kind κ) :=
  es.filterMap fun e =>
    match e with
    | .create kind => some kind
    | _ => none

omit [DecidableEq κ] in
theorem Kind.zipIdx_concat (kinds : List (Kind κ)) (kind : Kind κ) :
    (kinds ++ [kind]).zipIdx = kinds.zipIdx ++ [(kind, kinds.length)] := by
  rw [List.zipIdx_append, Nat.zero_add]
  rfl

theorem buffersOf_concat (kinds : List (Kind κ)) (kind : Kind κ) (type : κ)
    (channelId : BitVec 64) : buffersOf (kinds ++ [kind]) type channelId =
      buffersOf kinds type channelId ++
        (kind.ports type channelId).map fun i => (kinds.length, i) := by
  rw [buffersOf, Kind.zipIdx_concat, List.flatMap_append, buffersOf]
  exact congrArg _ (List.append_nil _)

omit [DecidableEq κ] in
theorem notifiersOf_concat (kinds : List (Kind κ)) (kind : Kind κ) (channelId : BitVec 64) :
    notifiersOf (kinds ++ [kind]) channelId = notifiersOf kinds channelId ++
      if kind.config0.channelId = channelId then [kinds.length] else [] := by
  rw [notifiersOf, Kind.zipIdx_concat, List.filter_append, List.map_append, notifiersOf,
    List.filter_singleton]
  by_cases h : kind.config0.channelId = channelId
  · simp [h]
  · simp [h]

namespace Hub

variable {h : Hub κ τ γ} {kinds : List (Kind κ)}

theorem get_addBuffer {l : List (Nat × Nat)} {type : κ} {channelId : BitVec 64}
    (hl : (h.buffersMap type).get channelId = nonEmpty l) (c : VisitorConfig κ × Nat) (p : Nat) :
    ((h.addBuffer c.1 (p, c.2)).buffersMap type).get channelId =
      nonEmpty (l ++ (ports type channelId [c]).map fun i => (p, i)) := by
  rw [addBuffer, ports, List.filter_singleton]
  dsimp only
  by_cases htype : c.1.type = type
  · subst htype
    rw [Function.update_self, AtomicHashMap.get_set]
    by_cases hchannel : channelId = c.1.channelId
    · subst hchannel
      rw [if_pos rfl, hl]
      simpa using some_emplaceBack l (p, c.2)
    · rw [if_neg hchannel, hl]
      simp [Ne.symm hchannel]
  · rw [Function.update_of_ne (Ne.symm htype), hl]
    simp [htype]

theorem get_addBuffers {type : κ} {channelId : BitVec 64} (cs : List (VisitorConfig κ × Nat))
    (p : Nat) {l : List (Nat × Nat)} (hl : (h.buffersMap type).get channelId = nonEmpty l) :
    ((cs.foldl (fun h c => h.addBuffer c.1 (p, c.2)) h).buffersMap type).get channelId =
      nonEmpty (l ++ (ports type channelId cs).map fun i => (p, i)) := by
  induction cs generalizing h l with
  | nil => simpa [ports] using hl
  | cons c cs ih =>
      rw [List.foldl_cons, ih (get_addBuffer hl c p), List.append_assoc, ← List.map_append, ports,
        ports, ← List.map_append, ← List.filter_append]
      rfl

theorem frame_addBuffers (cs : List (VisitorConfig κ × Nat)) (p : Nat) :
    (cs.foldl (fun h c => h.addBuffer c.1 (p, c.2)) h).notifiesMap = h.notifiesMap ∧
      (cs.foldl (fun h c => h.addBuffer c.1 (p, c.2)) h).visitor = h.visitor := by
  induction cs generalizing h with
  | nil => exact ⟨rfl, rfl⟩
  | cons c cs ih => exact ih

theorem Knows.create [Inhabited τ] (hk : h.Knows kinds) (kind : Kind κ) :
    (h.create kind).Knows (kinds ++ [kind]) := by
  obtain ⟨hnotifies, hvisitor⟩ := frame_addBuffers (h := h) kind.configs.zipIdx h.made
  refine ⟨?_, fun type channelId => ?_, fun channelId => ?_, fun p hp => ?_⟩
  · show h.made + 1 = _
    rw [hk.made, List.length_append, List.length_singleton]
  · rw [buffersOf_concat, ← hk.made]
    exact get_addBuffers kind.configs.zipIdx h.made (hk.buffers type channelId)
  · rw [Hub.create, addNotifier]
    dsimp only
    rw [hnotifies, AtomicHashMap.get_set, notifiersOf_concat]
    by_cases hchannel : channelId = kind.config0.channelId
    · subst hchannel
      rw [if_pos rfl, if_pos rfl, hk.notifies, some_emplaceBack, hk.made]
    · rw [if_neg hchannel, if_neg (Ne.symm hchannel), List.append_nil]
      exact hk.notifies channelId
  · rw [List.length_append, List.length_singleton] at hp
    have hne : p ≠ h.made := by
      rw [hk.made]
      omega
    rw [Hub.create]
    dsimp only
    rw [Function.update_of_ne hne]
    exact (congrFun hvisitor p).trans (hk.visitor p (by omega))

/-! ## Filling -/

omit [DecidableEq κ] in
theorem visitor_fillBuffer (msg : τ) (b : Nat × Nat) (p : Nat) :
    (h.fillBuffer msg b).visitor p =
      if b.1 = p then (h.visitor p).map fun v => v.fill b.2 msg else h.visitor p := by
  rw [fillBuffer]
  cases hv : h.visitor b.1 with
  | none =>
      dsimp only
      by_cases hb : b.1 = p
      · rw [if_pos hb, ← hb, hv, Option.map_none]
      · rw [if_neg hb]
  | some v =>
      dsimp only
      by_cases hb : b.1 = p
      · rw [if_pos hb, ← hb, Function.update_self, hv, Option.map_some]
      · rw [if_neg hb, Function.update_of_ne (Ne.symm hb)]

omit [DecidableEq κ] in
/-- Every visitor gets the message in its own buffers. -/
theorem visitor_fillBuffers (msg : τ) (buffers : List (Nat × Nat)) (p : Nat) :
    (buffers.foldl (fun h buffer => h.fillBuffer msg buffer) h).visitor p =
      (h.visitor p).map fun v =>
        ((buffers.filter fun b => b.1 = p).map Prod.snd).foldl (fun v i => v.fill i msg) v := by
  induction buffers generalizing h with
  | nil => exact Option.map_id'.symm
  | cons b buffers ih =>
      rw [List.foldl_cons, ih, visitor_fillBuffer]
      by_cases hb : b.1 = p
      · rw [if_pos hb, Option.map_map, List.filter_cons_of_pos (by simpa using hb)]
        rfl
      · rw [if_neg hb, List.filter_cons_of_neg (by simpa using hb)]

omit [DecidableEq κ] in
theorem frame_fillBuffers (msg : τ) (buffers : List (Nat × Nat)) :
    (buffers.foldl (fun h buffer => h.fillBuffer msg buffer) h).buffersMap = h.buffersMap ∧
      (buffers.foldl (fun h buffer => h.fillBuffer msg buffer) h).notifiesMap = h.notifiesMap ∧
      (buffers.foldl (fun h buffer => h.fillBuffer msg buffer) h).callback = h.callback ∧
      (buffers.foldl (fun h buffer => h.fillBuffer msg buffer) h).made = h.made := by
  induction buffers generalizing h with
  | nil => exact ⟨rfl, rfl, rfl, rfl⟩
  | cons b buffers ih =>
      have hb : (h.fillBuffer msg b).buffersMap = h.buffersMap ∧
          (h.fillBuffer msg b).notifiesMap = h.notifiesMap ∧
          (h.fillBuffer msg b).callback = h.callback ∧ (h.fillBuffer msg b).made = h.made := by
        rw [fillBuffer]
        split <;> exact ⟨rfl, rfl, rfl, rfl⟩
      obtain ⟨hbuffers, hnotifies, hcallback, hmade⟩ := ih (h := h.fillBuffer msg b)
      exact ⟨hbuffers.trans hb.1, hnotifies.trans hb.2.1, hcallback.trans hb.2.2.1,
        hmade.trans hb.2.2.2⟩

theorem filter_map_mk (l : List Nat) (q p : Nat) :
    (((l.map fun i => (q, i)).filter fun b => b.1 = p).map Prod.snd) = if q = p then l else [] := by
  by_cases hq : q = p
  · rw [if_pos hq, List.filter_eq_self.mpr (by simpa using fun i _ => hq), List.map_map]
    exact List.map_id l
  · rw [if_neg hq, List.filter_eq_nil_iff.mpr (by simpa using fun i _ => hq), List.map_nil]

/-- Which of the buffers are those of one visitor. -/
theorem filter_buffersOf (kinds : List (Kind κ)) (type : κ) (channelId : BitVec 64) (p : Nat) :
    ((buffersOf kinds type channelId).filter fun b => b.1 = p).map Prod.snd =
      (kinds[p]?.map fun kind => kind.ports type channelId).getD [] := by
  induction kinds using List.reverseRecOn with
  | nil => rfl
  | append_singleton kinds kind ih =>
      rw [buffersOf_concat, List.filter_append, List.map_append, ih, filter_map_mk]
      rcases Nat.lt_trichotomy p kinds.length with hp | rfl | hp
      · rw [if_neg (Nat.ne_of_gt hp), List.append_nil, List.getElem?_append_left hp]
      · rw [if_pos rfl, List.getElem?_eq_none (Nat.le_refl _), List.getElem?_concat_length]
        rfl
      · rw [if_neg (Nat.ne_of_lt hp), List.append_nil, List.getElem?_eq_none (Nat.le_of_lt hp),
          List.getElem?_eq_none (by rw [List.length_append, List.length_singleton]; omega)]

theorem Knows.dispatch (hk : h.Knows kinds) (isShutdown : Bool) (type : κ) (channelId : BitVec 64)
    (msg : τ) :
    (h.dispatch isShutdown type channelId msg).2.Knows kinds ∧
      (h.dispatch isShutdown type channelId msg).2.callback = h.callback ∧
      (h.dispatch isShutdown type channelId msg).2.made = h.made ∧
      ∀ p, (h.dispatch isShutdown type channelId msg).2.visitor p = (h.visitor p).map fun v =>
        (if isShutdown then [] else
          (kinds[p]?.map fun kind => kind.ports type channelId).getD []).foldl
          (fun v i => v.fill i msg) v := by
  rw [Hub.dispatch]
  cases isShutdown with
  | true => exact ⟨hk, rfl, rfl, fun p => Option.map_id'.symm⟩
  | false =>
      simp only [Bool.false_eq_true, if_false]
      rw [hk.buffers, nonEmpty]
      by_cases hnil : buffersOf kinds type channelId = []
      · rw [if_pos hnil]
        refine ⟨hk, rfl, rfl, fun p => ?_⟩
        rw [← filter_buffersOf, hnil]
        exact Option.map_id'.symm
      · rw [if_neg hnil]
        dsimp only
        obtain ⟨hbuffers, hnotifies, hcallback, hmade⟩ :=
          frame_fillBuffers (h := h) msg (buffersOf kinds type channelId)
        refine ⟨⟨?_, ?_, ?_, fun p hp => ?_⟩, hcallback, hmade, fun p => ?_⟩
        · rw [hmade, hk.made]
        · rw [hbuffers]
          exact hk.buffers
        · rw [hnotifies]
          exact hk.notifies
        · rw [visitor_fillBuffers, hk.visitor p hp, Option.map_none]
        · rw [visitor_fillBuffers, filter_buffersOf]

omit [DecidableEq κ] in
/-- A visitor is only changed, or goes. -/
theorem Knows.update [DecidableEq κ] (hk : h.Knows kinds) {p : Nat} {v : Option (AnyVisitor τ)}
    (hv : h.visitor p = none → v = none) :
    Hub.Knows { h with visitor := Function.update h.visitor p v } kinds := by
  refine ⟨hk.made, hk.buffers, hk.notifies, fun q hq => ?_⟩
  have hnone := hk.visitor q hq
  rcases eq_or_ne q p with rfl | hne
  · exact (Function.update_self ..).trans (hv hnone)
  · exact (Function.update_of_ne hne ..).trans hnone

theorem Knows.step [Inhabited τ] (hk : h.Knows kinds) (e : HubEvent κ τ γ) :
    (h.step e).2.Knows (kinds ++ kindsOf [e]) := by
  cases e with
  | create kind => exact hk.create kind
  | registerNotifyCallback p callback =>
      refine cast (congrArg _ (List.append_nil kinds).symm) ?_
      rw [Hub.step]
      cases h.visitor p with
      | none => exact hk
      | some v => exact ⟨hk.made, hk.buffers, hk.notifies, hk.visitor⟩
  | destroy p =>
      refine cast (congrArg _ (List.append_nil kinds).symm) ?_
      exact hk.update fun _ => rfl
  | dispatch isShutdown type channelId msg =>
      refine cast (congrArg _ (List.append_nil kinds).symm) ?_
      exact (hk.dispatch isShutdown type channelId msg).1
  | tryFetch p =>
      refine cast (congrArg _ (List.append_nil kinds).symm) ?_
      rw [Hub.step]
      cases hv : h.visitor p with
      | none => exact hk
      | some v => exact hk.update fun hnone => nomatch hv.symm.trans hnone

theorem knows_new : Hub.Knows ({} : Hub κ τ γ) [] :=
  { made := rfl
    buffers := fun _ _ => AtomicHashMap.get_new ..
    notifies := fun _ => AtomicHashMap.get_new ..
    visitor := fun _ _ => rfl }

theorem Knows.after [Inhabited τ] (hk : h.Knows kinds) (es : List (HubEvent κ τ γ)) :
    (h.after es).Knows (kinds ++ kindsOf es) := by
  induction es generalizing h kinds with
  | nil => exact cast (congrArg _ (List.append_nil kinds).symm) hk
  | cons e es ih =>
      have hes := ih (hk.step e)
      rw [List.append_assoc, kindsOf, kindsOf, ← List.filterMap_append] at hes
      exact hes

end Hub

/-! ## A visitor by itself -/

/-- What is done to one visitor. -/
inductive Input (τ : Type)
  | fill (i : Nat) (msg : τ)
  | tryFetch

namespace AnyVisitor

def act (v : AnyVisitor τ) : Input τ → AnyVisitor τ
  | .fill i msg => v.fill i msg
  | .tryFetch => v.tryFetch.2

/-- What the calls of `TryFetch` return, of a visitor that nothing else is done to. -/
def fetches : AnyVisitor τ → List (Input τ) → List (Option (List τ))
  | _, [] => []
  | v, .fill i msg :: ins => (v.fill i msg).fetches ins
  | v, .tryFetch :: ins => v.tryFetch.1 :: v.tryFetch.2.fetches ins

theorem fetches_append (v : AnyVisitor τ) (ins ins' : List (Input τ)) :
    v.fetches (ins ++ ins') = v.fetches ins ++ (ins.foldl act v).fetches ins' := by
  induction ins generalizing v with
  | nil => rfl
  | cons i ins ih =>
      cases i with
      | fill i msg => exact ih _
      | tryFetch => exact congrArg _ (ih _)

theorem foldl_act_fill (v : AnyVisitor τ) (is : List Nat) (msg : τ) :
    (is.map fun i => Input.fill i msg).foldl act v = is.foldl (fun v i => v.fill i msg) v :=
  List.foldl_map ..

theorem fetches_fill (v : AnyVisitor τ) (is : List Nat) (msg : τ) :
    v.fetches (is.map fun i => .fill i msg) = [] := by
  induction is generalizing v with
  | nil => rfl
  | cons i is ih => exact ih _

end AnyVisitor

/-- What a call does to the visitor `p`, of this kind. -/
def own (p : Nat) (kind : Kind κ) : HubEvent κ τ γ → List (Input τ)
  | .dispatch isShutdown type channelId msg =>
      (if isShutdown then [] else kind.ports type channelId).map fun i => .fill i msg
  | .tryFetch q => if q = p then [.tryFetch] else []
  | _ => []

def HubEvent.destroys (p : Nat) : HubEvent κ τ γ → Bool
  | .destroy q => q == p
  | _ => false

namespace Hub

variable [Inhabited τ] {h : Hub κ τ γ} {kinds : List (Kind κ)} {p : Nat} {kind : Kind κ}

/-- What a call does to one visitor is told by the visitor alone. -/
theorem Knows.visitor_step (hk : h.Knows kinds) (hp : kinds[p]? = some kind)
    (e : HubEvent κ τ γ) : (h.step e).2.visitor p = if e.destroys p then none
      else (h.visitor p).map fun v => (own p kind e).foldl AnyVisitor.act v := by
  have hlt : p < h.made := hk.made ▸ (List.getElem?_eq_some_iff.mp hp).1
  cases e with
  | create kind' =>
      rw [Hub.step, Hub.create]
      dsimp only
      rw [Function.update_of_ne (Nat.ne_of_lt hlt)]
      exact (congrFun (frame_addBuffers ..).2 p).trans Option.map_id'.symm
  | registerNotifyCallback q callback =>
      rw [Hub.step]
      cases h.visitor q <;> exact Option.map_id'.symm
  | destroy q =>
      rw [Hub.step, show (HubEvent.destroy q : HubEvent κ τ γ).destroys p = (q == p) from rfl]
      by_cases hq : q = p
      · rw [if_pos (by simpa using hq), hq]
        exact Function.update_self ..
      · rw [if_neg (by simpa using hq)]
        exact (Function.update_of_ne (Ne.symm hq) ..).trans Option.map_id'.symm
  | dispatch isShutdown type channelId msg =>
      rw [Hub.step]
      dsimp only [own]
      rw [(hk.dispatch isShutdown type channelId msg).2.2.2, hp]
      simp only [AnyVisitor.foldl_act_fill]
      rfl
  | tryFetch q =>
      rw [Hub.step, own]
      by_cases hq : q = p
      · subst hq
        rw [if_pos rfl]
        cases hv : h.visitor q with
        | none => exact hv
        | some v => exact Function.update_self ..
      · rw [if_neg hq]
        cases h.visitor q with
        | none => exact Option.map_id'.symm
        | some v => exact (Function.update_of_ne (Ne.symm hq) ..).trans Option.map_id'.symm

theorem fetchedBy_cons (kind : Kind κ) (e : HubEvent κ τ γ) (es : List (HubEvent κ τ γ)) :
    h.fetchedBy p (e :: es) =
      ((h.visitor p).map fun v => v.fetches (own p kind e)).getD [] ++
        (h.step e).2.fetchedBy p es := by
  have hnone : ((h.visitor p).map fun _ => ([] : List (Option (List τ)))).getD [] = [] := by
    cases h.visitor p <;> rfl
  cases e with
  | create kind' => exact (congrArg (· ++ _) hnone).symm
  | registerNotifyCallback q callback => exact (congrArg (· ++ _) hnone).symm
  | destroy q => exact (congrArg (· ++ _) hnone).symm
  | dispatch isShutdown type channelId msg =>
      simp only [own, AnyVisitor.fetches_fill, hnone]
      rfl
  | tryFetch q =>
      rw [own]
      by_cases hq : q = p
      · subst hq
        rw [if_pos rfl]
        cases hv : h.visitor q with
        | none => simp [Hub.fetchedBy, Hub.step, hv]
        | some v => simp [Hub.fetchedBy, Hub.step, hv, AnyVisitor.fetches]
      · rw [if_neg hq]
        cases hv : h.visitor q with
        | none => simp [Hub.fetchedBy, Hub.step, hv, AnyVisitor.fetches, hnone]
        | some v => simp [Hub.fetchedBy, Hub.step, hv, AnyVisitor.fetches, hnone, hq]

/-- Until it is destroyed, a visitor is one that nothing else is done to. -/
theorem Knows.fetchedBy_eq (hk : h.Knows kinds) (hp : kinds[p]? = some kind)
    (es : List (HubEvent κ τ γ)) :
    h.fetchedBy p es = ((h.visitor p).map fun v =>
      v.fetches ((es.takeWhile fun e => !e.destroys p).flatMap (own p kind))).getD [] := by
  induction es generalizing h kinds with
  | nil => cases h.visitor p <;> rfl
  | cons e es ih =>
      have hp' : (kinds ++ kindsOf [e])[p]? = some kind := by
        rw [List.getElem?_append_left (List.getElem?_eq_some_iff.mp hp).1, hp]
      rw [fetchedBy_cons kind, ih (hk.step e) hp', hk.visitor_step hp]
      cases hd : e.destroys p with
      | true =>
          rw [if_pos rfl, List.takeWhile_cons_of_neg (by rw [hd]; exact Bool.false_ne_true)]
          cases e with
          | destroy q => cases h.visitor p <;> rfl
          | _ => cases hd
      | false =>
          rw [if_neg Bool.false_ne_true, List.takeWhile_cons_of_pos (by rw [hd]; rfl),
            List.flatMap_cons]
          cases h.visitor p with
          | none => rfl
          | some v => exact (v.fetches_append ..).symm

end Hub

variable [Inhabited τ]

/-- However the calls come, and whatever other visitors there are, a visitor fetches what it
would fetch alone: of a message that is dispatched, one for each of its channels that has
that type and that number. -/
theorem fetchedBy_alone (es es' : List (HubEvent κ τ γ)) (kind : Kind κ) :
    let h := ({} : Hub κ τ γ).after es
    (h.create kind).fetchedBy h.made es' = (AnyVisitor.new kind).fetches
      ((es'.takeWhile fun e => !e.destroys h.made).flatMap (own h.made kind)) := by
  intro h
  have hk : h.Knows (kindsOf es) := Hub.knows_new.after es
  have hp : (kindsOf es ++ [kind])[h.made]? = some kind := by
    rw [hk.made]
    exact List.getElem?_concat_length
  rw [(hk.create kind).fetchedBy_eq hp]
  have hnew : (h.create kind).visitor h.made = some (.new kind) := Function.update_self ..
  rw [hnew]
  rfl

/-! ## Notifying -/

omit [Inhabited τ] in
theorem buffersOf_eq_nil {kinds : List (Kind κ)} {type : κ} {channelId : BitVec 64} :
    buffersOf kinds type channelId = [] ↔ ∀ kind ∈ kinds, kind.ports type channelId = [] := by
  induction kinds using List.reverseRecOn with
  | nil => simp [buffersOf]
  | append_singleton kinds kind ih => 
      rw [buffersOf_concat, List.append_eq_nil_iff, ih, List.map_eq_nil_iff, List.forall_mem_append,
        List.forall_mem_singleton]

omit [DecidableEq κ] in
theorem notifiersOf_eq_nil {kinds : List (Kind κ)} {channelId : BitVec 64} :
    notifiersOf kinds channelId = [] ↔ ∀ kind ∈ kinds, kind.config0.channelId ≠ channelId := by
  induction kinds using List.reverseRecOn with
  | nil => simp [notifiersOf]
  | append_singleton kinds kind ih => 
      rw [notifiersOf_concat, List.append_eq_nil_iff, ih, List.forall_mem_append,
        List.forall_mem_singleton, ite_eq_right_iff]
      simp

omit [Inhabited τ] in
/-- What `Dispatch` returns, and the callbacks that it calls. -/
theorem Hub.Knows.dispatch_fst {h : Hub κ τ γ} {kinds : List (Kind κ)} (hk : h.Knows kinds)
    (type : κ) (channelId : BitVec 64) (msg : τ) :
    (h.dispatch false type channelId msg).1 =
      if buffersOf kinds type channelId = [] ∨ notifiersOf kinds channelId = [] then (false, [])
      else (true, (notifiersOf kinds channelId).filterMap h.callback) := by
  rw [Hub.dispatch, if_neg Bool.false_ne_true, hk.buffers, nonEmpty]
  by_cases hnil : buffersOf kinds type channelId = []
  · rw [if_pos hnil, if_pos (Or.inl hnil)]
  · obtain ⟨-, hnotifies, hcallback, -⟩ :=
      Hub.frame_fillBuffers (h := h) msg (buffersOf kinds type channelId)
    rw [if_neg hnil]
    dsimp only
    rw [Hub.notify, hnotifies, hcallback, hk.notifies, nonEmpty]
    by_cases hnone : notifiersOf kinds channelId = []
    · rw [if_pos hnone, if_pos (Or.inr hnone)]
    · rw [if_neg hnone, if_neg (by tauto)]

theorem Hub.callback_destroyed (h : Hub κ τ γ) (gone : List Nat) :
    (h.after (gone.map .destroy)).callback = h.callback := by
  induction gone generalizing h with
  | nil => rfl
  | cons p gone ih => exact ih _

/-- `Dispatch` says that it has delivered where the process is not shut down, some visitor that was
ever made reads the channel with messages of this type, and some visitor has it for its first
channel: then it calls the callbacks of the latter, in the order in which they were made.
Destroying visitors changes nothing of this. -/
theorem dispatch_answer (es : List (HubEvent κ τ γ)) (gone : List Nat) (isShutdown : Bool)
    (type : κ) (channelId : BitVec 64) (msg : τ) :
    let h := ({} : Hub κ τ γ).after es
    let answer := ((h.after (gone.map .destroy)).dispatch isShutdown type channelId msg).1
    (answer.1 = true ↔ isShutdown = false ∧
      (∃ kind ∈ kindsOf es, kind.ports type channelId ≠ []) ∧
      ∃ kind ∈ kindsOf es, kind.config0.channelId = channelId) ∧
    answer.2 = if answer.1 then (notifiersOf (kindsOf es) channelId).filterMap h.callback
      else [] := by
  intro h answer
  cases isShutdown with
  | true => exact ⟨iff_of_false Bool.false_ne_true fun hup => Bool.noConfusion hup.1, rfl⟩
  | false =>
      have hk : (h.after (gone.map .destroy)).Knows (kindsOf es) := by
        have hgone : kindsOf (gone.map .destroy : List (HubEvent κ τ γ)) = [] := by
          simp [kindsOf]
        have hafter := (Hub.knows_new.after es).after (gone.map .destroy : List (HubEvent κ τ γ))
        rwa [hgone, List.nil_append, List.append_nil] at hafter
      have hanswer : answer = _ := hk.dispatch_fst type channelId msg
      rw [Hub.callback_destroyed] at hanswer
      rw [eq_self, true_and]
      by_cases hcase : buffersOf (kindsOf es) type channelId = [] ∨
          notifiersOf (kindsOf es) channelId = []
      · rw [if_pos hcase] at hanswer
        rw [hanswer]
        rw [buffersOf_eq_nil, notifiersOf_eq_nil] at hcase
        refine ⟨iff_of_false Bool.false_ne_true ?_, rfl⟩
        rintro ⟨⟨k, hk, hports⟩, k', hk', hfirst⟩
        exact hcase.elim (fun hall => hports (hall k hk)) fun hall => hall k' hk' hfirst
      · rw [if_neg hcase] at hanswer
        rw [hanswer]
        rw [buffersOf_eq_nil, notifiersOf_eq_nil] at hcase
        push Not at hcase
        exact ⟨iff_of_true rfl hcase, rfl⟩

end Data
end Cmw
