import Cmw.Blocker.Blocker
import Mathlib.Data.List.DropRight

/-!
# The blockers of all channels

blocker/blocker_manager.h and blocker/blocker_manager.cpp.  The manager has a blocker for every
channel that it has been asked for.  Whoever asks first settles the type of its messages and its
capacity; who asks with another type gets none, as `dynamic_pointer_cast` gives a null pointer.

The messages of all types are in `μ`, and `dummy` has the one that a type makes by default.
-/

namespace Cmw

open Config
open Library

namespace Blocker

variable {μ κ : Type}

/-- What a call on a blocker returns, and the callbacks that it calls. -/
def answer (b : Blocker μ κ) : BlockerEvent μ κ → Bool × List (κ × μ)
  | .publish msg => (true, (b.publish msg).1)
  | .subscribe callbackId callback => ((b.subscribe callbackId callback).1, [])
  | .unsubscribe callbackId => ((b.unsubscribe callbackId).1, [])
  | _ => (true, [])

end Blocker

/-- `ν` are the types of messages. -/
structure BlockerManager (ν μ κ : Type) where
  blockers : Table Str (ν × Blocker μ κ) := ∅

namespace BlockerManager

inductive Call (ν μ κ : Type)
  | publish (type : ν) (channelName : Str) (msg : μ)
  | subscribe (type : ν) (channelName : Str) (capacity : Nat) (callbackId : Str) (callback : κ)
  | unsubscribe (type : ν) (channelName : Str) (callbackId : Str)
  | getOrCreateBlocker (type : ν) (attr : BlockerAttr)
  /-- a call on what `GetBlocker` returns -/
  | onBlocker (type : ν) (channelName : Str) (e : BlockerEvent μ κ)
  | observe
  | reset

section Functions

variable {ν μ κ : Type} [DecidableEq ν] (dummy : ν → μ) (m : BlockerManager ν μ κ)

def getBlocker (type : ν) (channelName : Str) : Option (Blocker μ κ) :=
  match m.blockers.lookup channelName with
  | some (t, b) => if t = type then some b else none
  | none => none

def getOrCreateBlocker (type : ν) (attr : BlockerAttr) :
    Option (Blocker μ κ) × BlockerManager ν μ κ :=
  match m.blockers.lookup attr.channelName with
  | some (t, b) => (if t = type then some b else none, m)
  | none =>
      let b := Blocker.new attr (dummy type)
      (some b, { blockers := m.blockers.insert attr.channelName (type, b) })

/-- A call on a blocker that was got by the name of its channel, and false where there is none. -/
def callOn (type : ν) (channelName : Str) (e : BlockerEvent μ κ) :
    Option (Blocker μ κ) → (Bool × List (κ × μ)) × BlockerManager ν μ κ
  | none => ((false, []), m)
  | some b =>
      (b.answer e, { blockers := m.blockers.insert channelName (type, b.step e) })

def publish (type : ν) (channelName : Str) (msg : μ) :
    (Bool × List (κ × μ)) × BlockerManager ν μ κ :=
  let (blocker, m) := m.getOrCreateBlocker dummy type { channelName }
  m.callOn type channelName (.publish msg) blocker

def subscribe (type : ν) (channelName : Str) (capacity : Nat) (callbackId : Str) (callback : κ) :
    (Bool × List (κ × μ)) × BlockerManager ν μ κ :=
  let (blocker, m) := m.getOrCreateBlocker dummy type { capacity, channelName }
  m.callOn type channelName (.subscribe callbackId callback) blocker

def unsubscribe (type : ν) (channelName : Str) (callbackId : Str) :
    (Bool × List (κ × μ)) × BlockerManager ν μ κ :=
  m.callOn type channelName (.unsubscribe callbackId) (m.getBlocker type channelName)

def observe : BlockerManager ν μ κ :=
  { blockers := m.blockers.mapValues fun entry => (entry.1, entry.2.observe) }

/-- What a call returns, and the callbacks that it calls. -/
def serve : Call ν μ κ → (Bool × List (κ × μ)) × BlockerManager ν μ κ
  | .publish type channelName msg => m.publish dummy type channelName msg
  | .subscribe type channelName capacity callbackId callback =>
      m.subscribe dummy type channelName capacity callbackId callback
  | .unsubscribe type channelName callbackId => m.unsubscribe type channelName callbackId
  | .getOrCreateBlocker type attr =>
      let (blocker, m) := m.getOrCreateBlocker dummy type attr
      ((blocker.isSome, []), m)
  | .onBlocker type channelName e => m.callOn type channelName e (m.getBlocker type channelName)
  | .observe => ((true, []), m.observe)
  | .reset => ((true, []), {})

/-- The manager after some calls. -/
def after (es : List (Call ν μ κ)) : BlockerManager ν μ κ :=
  Run.exec (fun m e => (m.serve dummy e).2) {} es

end Functions

/-! ## What the calls say of a channel -/

section Channel

variable {ν μ κ : Type} [DecidableEq ν] (dummy : ν → μ) (c : Str)

/-- The type and the capacity of a blocker for the channel, where the call makes one. -/
def Call.makes : Call ν μ κ → Option (ν × Nat)
  | .publish type channelName _ => if channelName = c then some (type, 10) else none
  | .subscribe type channelName capacity _ _ =>
      if channelName = c then some (type, capacity) else none
  | .getOrCreateBlocker type attr =>
      if attr.channelName = c then some (type, attr.capacity) else none
  | _ => none

/-- What the call does to a blocker of the channel with messages of a type. -/
def Call.does (type : ν) : Call ν μ κ → Option (BlockerEvent μ κ)
  | .publish t channelName msg => if t = type ∧ channelName = c then some (.publish msg) else none
  | .subscribe t channelName _ callbackId callback =>
      if t = type ∧ channelName = c then some (.subscribe callbackId callback) else none
  | .unsubscribe t channelName callbackId =>
      if t = type ∧ channelName = c then some (.unsubscribe callbackId) else none
  | .getOrCreateBlocker _ _ => none
  | .onBlocker t channelName e => if t = type ∧ channelName = c then some e else none
  | .observe => some .observe
  | .reset => none

/-- The channel that the call is about, unless it is about all of them. -/
def Call.channelName : Call ν μ κ → Option Str
  | .publish _ channelName _ => some channelName
  | .subscribe _ channelName _ _ _ => some channelName
  | .unsubscribe _ channelName _ => some channelName
  | .getOrCreateBlocker _ attr => some attr.channelName
  | .onBlocker _ channelName _ => some channelName
  | .observe => none
  | .reset => none

def Call.concerns (e : Call ν μ κ) : Bool := e.channelName.all fun channelName => channelName = c

def Call.isReset : Call ν μ κ → Bool
  | .reset => true
  | _ => false

/-- The calls since the last reset. -/
def sinceReset (es : List (Call ν μ κ)) : List (Call ν μ κ) := es.rtakeWhile fun e => !e.isReset

/-- The type and the capacity that the channel has been asked for first. -/
def made (es : List (Call ν μ κ)) : Option (ν × Nat) := (sinceReset es).findSome? (Call.makes c)

/-- What has been done to the blocker of the channel, from the call on that has made it. -/
def done (type : ν) (es : List (Call ν μ κ)) : List (BlockerEvent μ κ) :=
  ((sinceReset es).dropWhile fun e => (e.makes c).isNone).filterMap (Call.does c type)

/-- The entry for a channel that is made with a type and a capacity. -/
def fresh (dummy : ν → μ) (c : Str) (made : Option (ν × Nat)) : Option (ν × Blocker μ κ) :=
  made.map fun made =>
    (made.1, Blocker.new { capacity := made.2, channelName := c } (dummy made.1))

/-- The blocker of the channel as the calls on it alone have it. -/
def alone (es : List (Call ν μ κ)) : Option (ν × Blocker μ κ) :=
  (fresh dummy c (made c es)).map fun entry =>
    (entry.1, Run.exec Blocker.step entry.2 (done c entry.1 es))

/-! ## One call -/

variable {c}

theorem lookup_getOrCreateBlocker (m : BlockerManager ν μ κ) (type : ν) (attr : BlockerAttr) :
    (m.getOrCreateBlocker dummy type attr).2.blockers.lookup c = (m.blockers.lookup c).or
      (fresh dummy c (if attr.channelName = c then some (type, attr.capacity) else none)) := by
  rw [getOrCreateBlocker]
  cases hm : m.blockers.lookup attr.channelName with
  | some entry =>
      dsimp only
      split
      case isTrue hc => rw [← hc, hm, Option.some_or]
      case isFalse => exact Option.or_none.symm
  | none =>
      dsimp only
      rw [Table.lookup_insert]
      by_cases hc : attr.channelName = c
      · subst hc
        rw [if_pos rfl, if_pos rfl, hm, Option.none_or]
        rfl
      · rw [if_neg (Ne.symm hc), if_neg hc]
        exact Option.or_none.symm

/-- What is got or created is what is got from then on. -/
theorem getOrCreateBlocker_fst (m : BlockerManager ν μ κ) (type : ν) (attr : BlockerAttr) :
    (m.getOrCreateBlocker dummy type attr).1 =
      (m.getOrCreateBlocker dummy type attr).2.getBlocker type attr.channelName := by
  rw [getBlocker, lookup_getOrCreateBlocker, if_pos rfl, getOrCreateBlocker]
  cases m.blockers.lookup attr.channelName with
  | some entry => rfl
  | none => exact (if_pos rfl).symm

theorem publish_eq (m : BlockerManager ν μ κ) (type : ν) (channelName : Str) (msg : μ) :
    m.publish dummy type channelName msg =
      let m := (m.getOrCreateBlocker dummy type { channelName }).2
      m.callOn type channelName (.publish msg) (m.getBlocker type channelName) :=
  congrArg (callOn _ type channelName (.publish msg))
    (getOrCreateBlocker_fst dummy m type { channelName })

theorem subscribe_eq (m : BlockerManager ν μ κ) (type : ν) (channelName : Str) (capacity : Nat)
    (callbackId : Str) (callback : κ) :
    m.subscribe dummy type channelName capacity callbackId callback =
      let m := (m.getOrCreateBlocker dummy type { capacity, channelName }).2
      m.callOn type channelName (.subscribe callbackId callback)
        (m.getBlocker type channelName) :=
  congrArg (callOn _ type channelName (.subscribe callbackId callback))
    (getOrCreateBlocker_fst dummy m type { capacity, channelName })

theorem lookup_callOn (m : BlockerManager ν μ κ) (type : ν) (channelName : Str)
    (e : BlockerEvent μ κ) :
    (m.callOn type channelName e (m.getBlocker type channelName)).2.blockers.lookup c =
      (m.blockers.lookup c).map fun entry => (entry.1, Run.exec Blocker.step entry.2
        (if type = entry.1 ∧ channelName = c then some e else none).toList) := by
  by_cases hc : channelName = c
  · subst hc
    rw [getBlocker]
    cases hm : m.blockers.lookup channelName with
    | none => exact hm
    | some entry =>
        dsimp only
        rw [Option.map_some]
        by_cases ht : entry.1 = type
        · rw [if_pos ht, callOn, Table.lookup_insert, if_pos rfl, if_pos ⟨ht.symm, rfl⟩, ht]
          rfl
        · rw [if_neg ht, callOn, if_neg fun h => ht h.1.symm]
          exact hm
  · have hsame : ∀ o, (m.callOn type channelName e o).2.blockers.lookup c =
        m.blockers.lookup c := by
      intro o
      cases o with
      | none => rfl
      | some b => rw [callOn, Table.lookup_insert, if_neg (Ne.symm hc)]
    rw [hsame]
    refine Option.map_id'.symm.trans (Option.map_congr fun entry _ => ?_)
    rw [if_neg fun h => hc h.2]
    rfl

/-- What a call makes of the blocker of a channel. -/
def entryStep (dummy : ν → μ) (c : Str) (entry : Option (ν × Blocker μ κ)) (e : Call ν μ κ) :
    Option (ν × Blocker μ κ) :=
  (entry.or (fresh dummy c (e.makes c))).map fun entry =>
    (entry.1, Run.exec Blocker.step entry.2 (e.does c entry.1).toList)

theorem lookup_serve (m : BlockerManager ν μ κ) {e : Call ν μ κ} (he : e.isReset = false) :
    (m.serve dummy e).2.blockers.lookup c = entryStep dummy c (m.blockers.lookup c) e := by
  have hnone : e.makes c = none →
      (m.blockers.lookup c).or (fresh dummy c (e.makes c)) = m.blockers.lookup c := fun hmakes => by
    rw [hmakes]
    exact Option.or_none
  rw [entryStep]
  cases e with
  | publish type channelName msg =>
      rw [serve, publish_eq, lookup_callOn, lookup_getOrCreateBlocker]
      rfl
  | subscribe type channelName capacity callbackId callback =>
      rw [serve, subscribe_eq, lookup_callOn, lookup_getOrCreateBlocker]
      rfl
  | unsubscribe type channelName callbackId =>
      rw [serve, unsubscribe, lookup_callOn, hnone rfl]
      rfl
  | getOrCreateBlocker type attr =>
      show (m.getOrCreateBlocker dummy type attr).2.blockers.lookup c = _
      rw [lookup_getOrCreateBlocker]
      exact Option.map_id'.symm
  | onBlocker type channelName e =>
      rw [serve, lookup_callOn, hnone rfl]
      rfl
  | observe =>
      rw [serve, observe, Table.lookup_mapValues, hnone rfl]
      rfl
  | reset => cases he

/-! ## Every run -/

theorem lookup_after_concat (es : List (Call ν μ κ)) (e : Call ν μ κ) :
    (after dummy (es ++ [e])).blockers.lookup c =
      if e.isReset then none else entryStep dummy c ((after dummy es).blockers.lookup c) e := by
  rw [after, Run.exec_append, Run.exec_cons, Run.exec_nil]
  cases he : e.isReset with
  | false =>
      rw [if_neg Bool.false_ne_true]
      exact lookup_serve dummy _ he
  | true =>
      rw [if_pos rfl]
      cases e with
      | reset => rfl
      | _ => cases he

omit [DecidableEq ν] in
theorem sinceReset_concat (es : List (Call ν μ κ)) {e : Call ν μ κ} (he : e.isReset = false) :
    sinceReset (es ++ [e]) = sinceReset es ++ [e] :=
  List.rtakeWhile_concat_pos _ _ _ (by rw [he]; rfl)

omit [DecidableEq ν] in
theorem made_concat (es : List (Call ν μ κ)) {e : Call ν μ κ} (he : e.isReset = false) :
    made c (es ++ [e]) = (made c es).or (e.makes c) := by
  rw [made, sinceReset_concat es he, List.findSome?_append, ← made, List.findSome?_singleton]

omit [DecidableEq ν] in
/-- Nothing counts until the channel has been asked for. -/
theorem dropWhile_eq_nil_iff (es : List (Call ν μ κ)) :
    (sinceReset es).dropWhile (fun e => (e.makes c).isNone) = [] ↔ made c es = none := by
  rw [List.dropWhile_eq_nil_iff, made, List.findSome?_eq_none_iff]
  exact forall₂_congr fun _ _ => Option.isNone_iff_eq_none

theorem done_of_notMade {es : List (Call ν μ κ)} (h : made c es = none) (type : ν) :
    done c type es = [] := by
  rw [done, (dropWhile_eq_nil_iff es).mpr h]
  rfl

theorem done_concat (type : ν) (es : List (Call ν μ κ)) {e : Call ν μ κ} (he : e.isReset = false)
    (hmade : (made c (es ++ [e])).isSome) :
    done c type (es ++ [e]) = done c type es ++ (e.does c type).toList := by
  have hlast : [e].filterMap (Call.does c type) = (e.does c type).toList := by
    rw [List.filterMap_cons]
    cases e.does c type <;> rfl
  rw [made_concat es he] at hmade
  rw [done, sinceReset_concat es he, List.dropWhile_append]
  cases hes : made c es with
  | none =>
      rw [hes, Option.none_or] at hmade
      rw [done_of_notMade hes, (dropWhile_eq_nil_iff es).mpr hes,
        if_pos List.isEmpty_nil, List.dropWhile_cons, Option.isNone_eq_false_iff.mpr hmade]
      exact hlast
  | some first =>
      have hne : (sinceReset es).dropWhile (fun e => (e.makes c).isNone) ≠ [] := fun hnil => by
        rw [(dropWhile_eq_nil_iff es).mp hnil] at hes
        cases hes
      rw [if_neg (by simpa using hne), List.filterMap_append, hlast, done]

theorem alone_concat (es : List (Call ν μ κ)) (e : Call ν μ κ) :
    alone dummy c (es ++ [e]) =
      if e.isReset then none else entryStep dummy c (alone dummy c es) e := by
  cases he : e.isReset with
  | true =>
      have hnil : sinceReset (es ++ [e]) = [] :=
        List.rtakeWhile_concat_neg _ _ _ (by rw [he]; decide)
      rw [if_pos rfl, alone, made, hnil]
      rfl
  | false =>
      rw [if_neg Bool.false_ne_true, entryStep, alone, alone]
      cases hes : made c es with
      | none =>
          have hmade : made c (es ++ [e]) = e.makes c := by
            rw [made_concat es he, hes, Option.none_or]
          rw [hmade]
          cases hnew : e.makes c with
          | none => rfl
          | some new =>
              have hdone := done_concat new.1 es he (by rw [hmade, hnew]; rfl)
              rw [done_of_notMade hes, List.nil_append] at hdone
              exact congrArg some (Prod.ext rfl (congrArg (Run.exec Blocker.step _) hdone))
      | some first =>
          have hmade : made c (es ++ [e]) = some first := by
            rw [made_concat es he, hes, Option.some_or]
          have hdone := done_concat first.1 es he (by rw [hmade]; rfl)
          rw [hmade]
          refine congrArg some (Prod.ext rfl ?_)
          exact (congrArg (Run.exec Blocker.step _) hdone).trans (Run.exec_append ..)

theorem lookup_after (es : List (Call ν μ κ)) :
    (after dummy es).blockers.lookup c = alone dummy c es := by
  induction es using List.reverseRecOn with
  | nil => rfl
  | append_singleton es e ih => rw [lookup_after_concat, alone_concat, ih]

/-! ## What a call answers -/

theorem getBlocker_congr {m m' : BlockerManager ν μ κ}
    (h : m.blockers.lookup c = m'.blockers.lookup c) (type : ν) :
    m.getBlocker type c = m'.getBlocker type c := by
  rw [getBlocker, getBlocker, h]

omit [DecidableEq ν] in
theorem callOn_fst (m : BlockerManager ν μ κ) (type : ν) (channelName : Str)
    (e : BlockerEvent μ κ) (blocker : Option (Blocker μ κ)) :
    (m.callOn type channelName e blocker).1 = blocker.elim (false, []) (·.answer e) := by
  cases blocker <;> rfl

/-- What a call about a channel answers is told by the blocker of the channel. -/
theorem serve_fst_congr {m m' : BlockerManager ν μ κ}
    (h : m.blockers.lookup c = m'.blockers.lookup c) {e : Call ν μ κ}
    (he : e.channelName = some c) : (m.serve dummy e).1 = (m'.serve dummy e).1 := by
  have hcreated : ∀ type attr, (m.getOrCreateBlocker dummy type attr).2.getBlocker type c =
      (m'.getOrCreateBlocker dummy type attr).2.getBlocker type c := fun type attr =>
    getBlocker_congr (by rw [lookup_getOrCreateBlocker, lookup_getOrCreateBlocker, h]) type
  cases e with
  | publish type channelName msg =>
      cases he
      rw [serve, serve, publish_eq, publish_eq, callOn_fst, callOn_fst, hcreated]
  | subscribe type channelName capacity callbackId callback =>
      cases he
      rw [serve, serve, subscribe_eq, subscribe_eq, callOn_fst, callOn_fst, hcreated]
  | unsubscribe type channelName callbackId =>
      cases he
      rw [serve, serve, unsubscribe, unsubscribe, callOn_fst, callOn_fst, getBlocker_congr h]
  | getOrCreateBlocker type attr =>
      cases he
      show ((m.getOrCreateBlocker dummy type attr).1.isSome, []) =
        ((m'.getOrCreateBlocker dummy type attr).1.isSome, [])
      rw [getOrCreateBlocker_fst, getOrCreateBlocker_fst, hcreated]
  | onBlocker type channelName e =>
      cases he
      rw [serve, serve, callOn_fst, callOn_fst, getBlocker_congr h]
  | observe => cases he
  | reset => cases he

/-- A call about another channel leaves a blocker as it is. -/
theorem entryStep_of_other {e : Call ν μ κ} {name : Str} (he : e.channelName = some name)
    (hne : name ≠ c) (entry : Option (ν × Blocker μ κ)) : entryStep dummy c entry e = entry := by
  have hmakes : e.makes c = none := by
    cases e <;> cases he <;> first | rfl | exact if_neg hne
  have hdoes : ∀ type, e.does c type = none := fun type => by
    cases e <;> cases he <;> first | rfl | exact if_neg fun h => hne h.2
  rw [entryStep, hmakes]
  refine (congrArg (Option.map _) (Option.or_none (o := entry))).trans ?_
  refine (Option.map_congr fun entry _ => ?_).trans Option.map_id'
  rw [hdoes]
  rfl

theorem lookup_filter (es : List (Call ν μ κ)) :
    (after dummy es).blockers.lookup c =
      (after dummy (es.filter (Call.concerns c))).blockers.lookup c := by
  induction es using List.reverseRecOn with
  | nil => rfl
  | append_singleton es e ih =>
      rw [List.filter_append, List.filter_singleton]
      cases hconcerns : e.concerns c with
      | true =>
          rw [lookup_after_concat, ih]
          exact (lookup_after_concat dummy _ e).symm
      | false =>
          obtain ⟨name, hname, hne⟩ : ∃ name, e.channelName = some name ∧ name ≠ c := by
            rw [Call.concerns] at hconcerns
            cases hname : e.channelName with
            | none =>
                rw [hname] at hconcerns
                cases hconcerns
            | some name =>
                rw [hname] at hconcerns
                exact ⟨name, rfl, of_decide_eq_false hconcerns⟩
          have hreset : e.isReset = false := by
            cases e with
            | reset => cases hname
            | _ => rfl
          rw [lookup_after_concat, hreset, if_neg Bool.false_ne_true,
            entryStep_of_other dummy hname hne, ih]
          exact congrArg (fun es => (after dummy es).blockers.lookup c) (List.append_nil _).symm

/-- In every run, the blocker of a channel is what the calls on it alone make of it, since it was
made by the first of them after the last reset; and a call about the channel answers as if
nothing had been called about any other. -/
theorem blockers_alone (dummy : ν → μ) (c : Str) (es : List (Call ν μ κ)) :
    (after dummy es).blockers.lookup c = alone dummy c es ∧
      ∀ e : Call ν μ κ, e.channelName = some c →
        ((after dummy es).serve dummy e).1 =
          ((after dummy (es.filter (Call.concerns c))).serve dummy e).1 :=
  ⟨lookup_after dummy es, fun _ he => serve_fst_congr dummy (lookup_filter dummy es) he⟩

end Channel

/-- A channel is subscribed to, and something is published to another with another type. -/
def twoChannels : List (Call Bool Nat Nat) :=
  [.subscribe true [0x61] 3 [0x63] 1, .publish false [0x62] 7]

theorem blockers_alone_twoChannels :
    ((after (fun _ => 0) twoChannels).serve (fun _ => 0) (.publish true [0x61] 8)).1 =
      (true, [(1, 8)]) :=
  ((blockers_alone (fun _ => 0) [0x61] twoChannels).2 _ rfl).trans rfl

end BlockerManager

end Cmw
