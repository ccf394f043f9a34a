import Cmw.Transport.Shm.Publication

/-!
# How far a listener is behind

Any number of listeners, step by step, where every `Notify` runs to its end before
anybody else does a step.  A slot then holds the newest of the numbers that belong to
it, and a listener expects the number that it has not taken yet: it is given that,
unless the slot has been used again for a later one.
-/

namespace Cmw
namespace Transport
namespace Notifier

open Shm (ReadableInfo)
open Library
open Library.Thread

namespace Lag

open Publication (Rely Pre Idle Sound)

variable {ι : Type} [DecidableEq ι]

/-- A `Notify` is at its end when it is called. -/
def enter (i : ι) (call : Call) (k : Shared ι) : Shared ι :=
  match call with
  | .notify info => (ConditionNotifier.notify info {}).runAlone (fun o k => exec i o () k)
      (Publication.enter i call k)
  | _ => k

def body : Call → NotifierCode Answer
  | .notify _ => pure (.notified true)
  | call => call.body

def step : State ι → Step ι → State ι := Thread.step exec enter body

/-- What a listener is given that has never been more than `kBufLength` behind. -/
structure Exact (o : Own) (issued : Nat) : Prop where
  behind : issued ≤ o.cursor + kBufLength
  since : o.since ≤ o.cursor
  taking : ∀ r, o.taking = some r → r.number = o.cursor
  returned : o.returned.map (fun e => e.1.number) = List.range' o.since (o.cursor - o.since)

/-- A slot holds the newest of its numbers, and what it was written with. -/
structure Inv (k : Shared ι) : Prop extends Publication.Inv k where
  settled : ∀ idx, k.2.infoBy idx = k.2.seqBy idx
  newest : ∀ n < k.2.issued.length, ∃ m, k.2.seqBy (n % kBufLength) = some m ∧ n ≤ m
  taking_newest : ∀ i r, (k.2.own i).taking = some r → r.issued ≤ r.number + kBufLength
  returned_newest : ∀ i, ∀ e ∈ (k.2.own i).returned, e.1.issued ≤ e.1.number + kBufLength
  exact : ∀ i, k.2.lagged i = false → Exact (k.2.own i) k.2.issued.length

/-- What is left of `Publication.Pre`: nobody does a single step of a `Notify`. -/
def ListenerPre (i : ι) (x : ConditionNotifier) (o : Op) (k : Shared ι) : Prop :=
  Publication.Listens o ∧ Pre i x o k

section Keeps

variable {i : ι} {k : Shared ι}

omit [DecidableEq ι] in
/-- The number in the slot of `n` is the newest that there is. -/
theorem Inv.seq_newest (hk : Inv k) {n : Nat} (hn : n < k.2.issued.length) :
    n ≤ (k.1.seqs (n % kBufLength)).toNat ∧
      k.2.issued.length ≤ (k.1.seqs (n % kBufLength)).toNat + kBufLength ∧
      k.2.seqBy (n % kBufLength) = some (k.1.seqs (n % kBufLength)).toNat := by
  obtain ⟨m, hm, hnm⟩ := hk.newest n hn
  obtain ⟨hslot, hlt, _, hseq⟩ := hk.seqs _ m hm
  have hnumber : (k.1.seqs (n % kBufLength)).toNat = m := by
    rw [hseq, BitVec.toNat_ofNat, Nat.mod_eq_of_lt (hlt.trans hk.lt)]
  rw [hnumber]
  refine ⟨hnm, ?_, hm⟩
  by_contra hlate
  -- a later number of the slot would be in it
  obtain ⟨m', hm', hle⟩ := hk.newest (m + kBufLength) (by omega)
  rw [Nat.add_mod_right, hslot, hm] at hm'
  have := Option.some.inj hm'
  have : 0 < kBufLength := by decide
  omega

omit [DecidableEq ι] in
/-- A listener that is not far behind finds the number that it expects. -/
theorem Inv.seq_exact (hk : Inv k) {n : Nat} (hn : n < k.2.issued.length)
    (hbehind : k.2.issued.length ≤ n + kBufLength) : (k.1.seqs (n % kBufLength)).toNat = n := by
  obtain ⟨hle, _, hseq⟩ := hk.seq_newest hn
  obtain ⟨hslot, hlt, _⟩ := hk.seqs _ _ hseq
  have hslot : (k.1.seqs (n % kBufLength)).toNat % 4096 = n % 4096 := hslot
  have hbehind : k.2.issued.length ≤ n + 4096 := hbehind
  omega

/-- What an operation of a listener changes besides its own part of the history. -/
theorem keeps_of_listener {l : Shared ι} (hk : Inv k)
    (hl : Publication.Inv l ∧ ∀ j, j ≠ i → Rely j k l)
    (hinfoBy : l.2.infoBy = k.2.infoBy) (hseqBy : l.2.seqBy = k.2.seqBy)
    (hissued : l.2.issued = k.2.issued) (hlagged : ∀ j, j ≠ i → l.2.lagged j = k.2.lagged j)
    (htaking : ∀ r, (l.2.own i).taking = some r → r.issued ≤ r.number + kBufLength)
    (hreturned : ∀ e ∈ (l.2.own i).returned, e.1.issued ≤ e.1.number + kBufLength)
    (hexact : l.2.lagged i = false → Exact (l.2.own i) k.2.issued.length) :
    Inv l ∧ ∀ j, j ≠ i → Rely j k l := by
  obtain ⟨hinv, hrely⟩ := hl
  refine ⟨{ hinv with
    settled := by
      rw [hinfoBy, hseqBy]
      exact hk.settled
    newest := by
      rw [hissued, hseqBy]
      exact hk.newest
    taking_newest := fun j r hr => ?_
    returned_newest := fun j e he => ?_
    exact := fun j hj => ?_ }, hrely⟩
  all_goals by_cases hji : j = i
  · subst hji
    exact htaking r hr
  · rw [(hrely j hji).own] at hr
    exact hk.taking_newest j r hr
  · subst hji
    exact hreturned e he
  · rw [(hrely j hji).own] at he
    exact hk.returned_newest j e he
  · subst hji
    rw [hissued]
    exact hexact hj
  · rw [hlagged j hji] at hj
    rw [(hrely j hji).own, hissued]
    exact hk.exact j hj

theorem keeps {x : ConditionNotifier} {o : Op} (hk : Inv k) (hpre : ListenerPre i x o k) :
    Inv (exec i o () k).2 ∧ ∀ j, j ≠ i → Rely j k (exec i o () k).2 := by
  obtain ⟨hlistens, hpre⟩ := hpre
  cases o with
  | firstNextSeq =>
      obtain ⟨htaking, hreturned⟩ := hpre
      have hnext := Publication.toNat_nextSeq hk.toInv
      refine keeps_of_listener hk (Publication.keeps_firstNextSeq hk.toInv htaking hreturned)
        rfl rfl rfl (fun j hj => Function.update_of_ne hj _ _) ?_ ?_ fun _ => ?_
      all_goals rw [own_firstNextSeq, hnext]
      · simp [htaking]
      · simp [hreturned]
      · exact ⟨Nat.le_add_right _ _, Nat.le_refl _, by simp [htaking], by simp [hreturned]⟩
  | nextSeq => exact ⟨hk, fun j _ => Publication.Rely.refl j k⟩
  | seq idx =>
      obtain ⟨next, hx, hnext, rfl, hlt⟩ := hpre
      obtain ⟨hle, hnewest, hseq⟩ := hk.seq_newest hlt
      have hcond : Publication.Cond i x (.seq ((k.2.own i).cursor % kBufLength)) () k :=
        fun _ _ _ => ⟨hseq ▸ rfl, hk.settled _⟩
      refine keeps_of_listener hk (Publication.keeps_seq hk.toInv hnext hcond hx) rfl rfl rfl
        (fun _ _ => rfl) ?_ ?_ fun hlagged => ?_
      all_goals rw [own_seq, Own.look_of_le hle]
      · intro r hr
        obtain rfl := Option.some.inj hr
        exact hnewest
      · exact hk.returned_newest i
      · have hexact := hk.exact i hlagged
        refine { hexact with taking := fun r hr => ?_ }
        obtain rfl := Option.some.inj hr
        exact hk.seq_exact hlt hexact.behind
  | info idx =>
      obtain ⟨r, hr, rfl⟩ := hpre
      refine keeps_of_listener hk (Publication.keeps_info hk.toInv hr) rfl rfl rfl
        (fun _ _ => rfl) ?_ ?_ fun hlagged => ?_
      all_goals rw [own_info, Own.receive_of_taking hr]
      · exact nofun
      · intro e he
        rcases List.mem_append.mp he with he | he
        · exact hk.returned_newest i e he
        · rw [List.mem_singleton.mp he]
          exact hk.taking_newest i r hr
      · have hexact := hk.exact i hlagged
        have hnumber : r.number = (k.2.own i).cursor := hexact.taking r hr
        obtain ⟨hbehind, hsince, _, hreturned⟩ := hexact
        refine ⟨?_, ?_, nofun, ?_⟩
        · show _ ≤ r.number + 1 + kBufLength
          omega
        · show (k.2.own i).since ≤ r.number + 1
          omega
        · show ((k.2.own i).returned ++ [_]).map _ = List.range' _ (r.number + 1 - _)
          rw [List.map_append, hreturned, hnumber, Nat.succ_sub hsince, List.range'_concat,
            Nat.one_mul, Nat.add_sub_cancel' hsince]
          simp [hnumber]
  | _ => exact hlistens.elim

end Keeps

/-! ### A whole notification -/

/-- Nobody is taking the information of the slot that is to be used next. -/
def SlotFree (k : Shared ι) : Prop :=
  ∀ j r, (k.2.own j).taking = some r → r.number % kBufLength ≠ k.2.issued.length % kBufLength

section Notify

variable {i : ι} {k : Shared ι} {info : ReadableInfo}

/-- What the history keeps of the notification with number `n`. -/
def notified (i : ι) (info : ReadableInfo) (n : Nat) (h : History ι) : History ι :=
  { h.setOwn i { h.own i with request := info, ticket := n } with
    issued := h.issued ++ [info]
    infoBy := Function.update h.infoBy (n % kBufLength) (some n)
    seqBy := Function.update h.seqBy (n % kBufLength) (some n)
    written := n :: h.written
    lagged := fun j => h.lagged j || decide ((h.own j).cursor + kBufLength < n + 1) }

theorem enter_notify : enter i (.notify info) k =
    (exec i (.setSeq (k.1.nextSeq.toNat % kBufLength) k.1.nextSeq) ()
      (exec i (.setInfo (k.1.nextSeq.toNat % kBufLength) info) ()
        (exec i .fetchAddNextSeq () (Publication.enter i (.notify info) k)).2).2).2 := rfl

theorem history_enter (hnext : k.1.nextSeq.toNat = k.2.issued.length) :
    (enter i (.notify info) k).2 = notified i info k.2.issued.length k.2 := by
  have hcursor : ∀ j, (Function.update k.2.own i { k.2.own i with request := info } j).cursor =
      (k.2.own j).cursor := by
    intro j
    by_cases hj : j = i
    · subst hj
      simp
    · simp [hj]
  rw [enter_notify]
  simp [exec, noting, note, notified, History.setOwn, Publication.enter, hcursor, hnext]

/-- The three steps keep what any steps do. -/
theorem keeps_steps (hk : Publication.Inv k) (hfree : SlotFree k)
    (hlt : k.2.issued.length + 1 < 2 ^ 64) :
    Publication.Inv (enter i (.notify info) k) ∧
      ∀ j, j ≠ i → Rely j k (enter i (.notify info) k) := by
  have h₀ : Publication.Inv (Publication.enter i (.notify info) k) ∧
      ∀ j, j ≠ i → Rely j k (Publication.enter i (.notify info) k) := Publication.keeps_enter hk
  obtain ⟨hk₀, hrely₀⟩ := h₀
  obtain ⟨hk₁, hrely₁⟩ := Publication.keeps_fetchAddNextSeq (i := i) hk₀ hlt
  have hown₀ : (Publication.enter i (.notify info) k).2.own i = { k.2.own i with request := info } :=
    Function.update_self ..
  have hown₁ := own_fetchAddNextSeq i (Publication.enter i (.notify info) k)
  rw [hown₀] at hown₁
  generalize hm : (exec i .fetchAddNextSeq () (Publication.enter i (.notify info) k)).2 = m at *
  have hissued : m.2.issued = k.2.issued ++ [info] := by
    rw [← hm]
    show k.2.issued ++ [((Publication.enter i (.notify info) k).2.own i).request] = _
    rw [hown₀]
  have hticket : (m.2.own i).ticket = k.2.issued.length := congrArg Own.ticket hown₁
  have hinfo : m.2.issued[(m.2.own i).ticket]? = some info := by
    rw [hissued, hticket]
    exact List.getElem?_concat_length
  have hfree' : ∀ j r, (m.2.own j).taking = some r →
      r.number % kBufLength ≠ k.2.issued.length % kBufLength := by
    intro j r hr
    refine hfree j r ?_
    by_cases hj : j = i
    · subst hj
      rw [hown₁] at hr
      exact hr
    · rw [(hrely₁ j hj).own, (hrely₀ j hj).own] at hr
      exact hr
  obtain ⟨hk₂, hrely₂⟩ := Publication.keeps_setInfo hk₁ hinfo hfree'
  have hlt₂ : (m.2.own i).ticket < m.2.issued.length := (List.getElem?_eq_some_iff.mp hinfo).1
  obtain ⟨hk₃, hrely₃⟩ := Publication.keeps_setSeq (i := i) hk₂ hlt₂
  have hsteps : (enter i (.notify info) k) = (exec i (.setSeq ((m.2.own i).ticket % kBufLength)
      (BitVec.ofNat 64 (m.2.own i).ticket)) ()
      (exec i (.setInfo (k.2.issued.length % kBufLength) info) () m).2).2 := by
    rw [enter_notify, hm, hticket, Publication.toNat_nextSeq hk, hk.nextSeq]
  rw [hsteps]
  exact ⟨hk₃, fun j hj => (hrely₀ j hj).trans ((hrely₁ j hj).trans ((hrely₂ j hj).trans (hrely₃ j hj)))⟩

theorem own_notified (n : Nat) (h : History ι) (j : ι) : ∃ request ticket,
    (notified i info n h).own j = { h.own j with request := request, ticket := ticket } := by
  by_cases hj : j = i
  · subst hj
    exact ⟨_, _, Function.update_self ..⟩
  · exact ⟨_, _, Function.update_of_ne hj _ _⟩

/-- The slot is left with the new number, and the others as they are. -/
theorem keeps_notify (hk : Inv k) (hfree : SlotFree k) (hlt : k.2.issued.length + 1 < 2 ^ 64) :
    Inv (enter i (.notify info) k) ∧ ∀ j, j ≠ i → Rely j k (enter i (.notify info) k) := by
  have hsteps : Publication.Inv (enter i (.notify info) k) ∧
      ∀ j, j ≠ i → Rely j k (enter i (.notify info) k) := keeps_steps hk.toInv hfree hlt
  obtain ⟨hinv, hrely⟩ := hsteps
  have hhistory : (enter i (.notify info) k).2 = notified i info k.2.issued.length k.2 :=
    history_enter (Publication.toNat_nextSeq hk.toInv)
  have hown : ∀ j, ∃ request ticket, (enter i (.notify info) k).2.own j =
      { k.2.own j with request := request, ticket := ticket } := by
    rw [hhistory]
    exact own_notified _ _
  refine ⟨{ hinv with
    settled := fun idx => ?_
    newest := fun n hn => ?_
    taking_newest := fun j r hr => ?_
    returned_newest := fun j e he => ?_
    exact := fun j hj => ?_ }, hrely⟩
  · rw [hhistory]
    show Function.update k.2.infoBy _ _ idx = Function.update k.2.seqBy _ _ idx
    by_cases hidx : idx = k.2.issued.length % kBufLength
    · rw [hidx, Function.update_self, Function.update_self]
    · rw [Function.update_of_ne hidx, Function.update_of_ne hidx]
      exact hk.settled idx
  · rw [hhistory] at hn ⊢
    have hn : n < (k.2.issued ++ [info]).length := hn
    rw [List.length_append, List.length_singleton] at hn
    show ∃ m, Function.update k.2.seqBy _ _ _ = some m ∧ n ≤ m
    by_cases hidx : n % kBufLength = k.2.issued.length % kBufLength
    · rw [hidx, Function.update_self]
      exact ⟨_, rfl, Nat.le_of_lt_succ hn⟩
    · rw [Function.update_of_ne hidx]
      refine hk.newest n (Nat.lt_of_le_of_ne (Nat.le_of_lt_succ hn) ?_)
      exact fun h => hidx (h ▸ rfl)
  · obtain ⟨request, ticket, ho⟩ := hown j
    rw [ho] at hr
    exact hk.taking_newest j r hr
  · obtain ⟨request, ticket, ho⟩ := hown j
    rw [ho] at he
    exact hk.returned_newest j e he
  · obtain ⟨request, ticket, ho⟩ := hown j
    rw [hhistory] at hj
    have hj : (k.2.lagged j ||
      decide ((k.2.own j).cursor + kBufLength < k.2.issued.length + 1)) = false := hj
    rw [Bool.or_eq_false_iff, decide_eq_false_iff_not] at hj
    have hlength : (enter i (.notify info) k).2.issued.length = k.2.issued.length + 1 := by
      rw [hhistory]
      exact List.length_append
    rw [ho, hlength]
    exact { hk.exact j hj.1 with behind := Nat.le_of_not_lt hj.2 }

end Notify

/-! ### Every run -/

variable (ι) in
def protocol : Protocol sig ι ConditionNotifier (Shared ι) Unit exec where
  Inv := Inv
  Rely := Rely
  Cond _ _ _ _ _ := True
  Pre := ListenerPre
  Crash := True
  Hang _ _ := True
  refl := Publication.Rely.refl
  trans := Publication.Rely.trans
  hang_stable h _ := h
  keeps hk hpre _ := keeps hk hpre

theorem listening : Publication.Listening (protocol ι) :=
  ⟨fun h => h, fun h => h.toInv, fun ho h => ⟨ho, h⟩, trivial⟩

/-- A `Notify` uses no slot whose number a listener has taken, and not yet the
information with it; and there are fewer than 2^64 notifications. -/
def CallCondition (call : Call) (k : Shared ι) : Prop :=
  match call with
  | .notify _ => SlotFree k ∧ k.2.issued.length + 1 < 2 ^ 64
  | _ => True

theorem keeps_enter {i : ι} {call : Call} {k : Shared ι} (hk : Inv k)
    (hcall : CallCondition call k) :
    Inv (enter i call k) ∧ ∀ j, j ≠ i → Rely j k (enter i call k) := by
  cases call with
  | notify info => exact keeps_notify hk hcall.1 hcall.2
  | construct => exact ⟨hk, fun j _ => Publication.Rely.refl j k⟩
  | listen left => exact ⟨hk, fun j _ => Publication.Rely.refl j k⟩

theorem body_safe {i : ι} {call : Call} {x : ConditionNotifier} {a : Answer} {k : Shared ι}
    (hk : Inv k) (hrest : Publication.Rest i x a k) :
    (protocol ι).Safe i (Publication.Rest i) (body call x) (enter i call k) := by
  obtain ⟨o, hidle, _⟩ := hrest
  cases call with
  | construct =>
      simp only [body, Call.body, Protocol.safe_seq, Protocol.safe_pure]
      exact Publication.construct_safe listening hidle fun y o' l hl => ⟨o', hl, by simp⟩
  | notify info =>
      simp only [body, Protocol.safe_pure]
      refine ⟨{ o with request := info, ticket := k.2.issued.length }, ⟨?_, hidle.taking, hidle.none,
        hidle.cursor⟩, by simp⟩
      rw [history_enter (Publication.toNat_nextSeq hk.toInv), ← hidle.own]
      exact Function.update_self ..
  | listen left =>
      simp only [body, Call.body, Protocol.safe_seq, Protocol.safe_pure]
      refine Publication.listen_safe listening hidle (fun l hl => ⟨o, hl, by simp⟩)
        fun y o' r info l hl hr hc hy => ?_
      refine ⟨o', hl, fun info' heq => ?_⟩
      cases heq
      exact ⟨r, hr, hc, hy⟩

/-- What a listener returns: no notification twice and none after a later one, each the
newest of its slot when its number was read, and every one, if the listener has never
been more than `kBufLength` behind.  Where there is something new it finds a number to
take. -/
structure InOrder (t : State ι) : Prop where
  issued : ∀ i, ∀ e ∈ (t.shared.2.own i).returned, t.shared.2.issued[e.1.number]? = some e.2
  increasing : ∀ i, (t.shared.2.own i).returned.Pairwise fun e f => e.1.number < f.1.number
  newest : ∀ i, ∀ e ∈ (t.shared.2.own i).returned, e.1.cursor ≤ e.1.number ∧
    e.1.number % kBufLength = e.1.cursor % kBufLength ∧ e.1.number < e.1.issued ∧
    e.1.issued ≤ e.1.number + kBufLength
  every : ∀ i, t.shared.2.lagged i = false →
    (t.shared.2.own i).returned.map (fun e => e.1.number) =
      List.range' (t.shared.2.own i).since
        ((t.shared.2.own i).cursor - (t.shared.2.own i).since)
  finds : ∀ i x idx k, t.threads i = .call x (.seq idx) k →
    ∃ next, x.nextSeq = some next ∧ t.shared.1.seqs idx ≥ next
  nextSeq : ∀ i x a seq, t.threads i = .done x a → x.nextSeq = some seq →
    seq.toNat = (t.shared.2.own i).cursor

def Condition (cfg : State ι) (e : Step ι) : Prop :=
  (protocol ι).Meets (fun _ call _ k => CallCondition call k) cfg e

theorem holds_start : (protocol ι).Holds Publication.Rest (start ι) where
  inv := { Publication.holds_start.inv with
    settled := fun _ => rfl
    newest := nofun
    taking_newest := nofun
    returned_newest := nofun
    exact := fun _ _ => ⟨Nat.zero_le _, Nat.le_refl _, nofun, rfl⟩ }
  safe _ := ⟨{}, ⟨rfl, rfl, fun _ => rfl, nofun⟩, nofun⟩

theorem holds_of_along {es : List (Step ι)}
    (hes : Run.Along step ((protocol ι).Meets fun _ call _ k => CallCondition call k) (start ι)
      es) : ∀ t ∈ Run.states step (start ι) es, (protocol ι).Holds Publication.Rest t := by
  refine Protocol.sound ?_ ?_ ?_ holds_start hes
  · intro i x a k l h hkl _
    obtain ⟨o, hidle, hreturned⟩ := h
    exact ⟨o, hidle.of_rely hkl, hreturned⟩
  · exact fun i call x a k hk _ hcall => keeps_enter hk hcall
  · exact fun i call x a k hk hrest _ => body_safe hk hrest

theorem inOrder {es : List (Step ι)} (hes : Run.Along step Condition (start ι) es) :
    ∀ t ∈ Run.states step (start ι) es, InOrder t := by
  intro t ht
  have hholds := holds_of_along hes t ht
  refine ⟨fun i e he => ?_, hholds.inv.increasing, fun i e he => ?_, fun i hi => ?_,
    fun i x idx k hi => ?_, fun i x a seq hi hseq => ?_⟩
  · exact (hholds.inv.returned i e he).2.2
  · obtain ⟨hsound, _⟩ := hholds.inv.returned i e he
    exact ⟨hsound.le, hsound.slot, hsound.lt, hholds.inv.returned_newest i e he⟩
  · exact (hholds.inv.exact i hi).returned
  · obtain ⟨_, next, hx, hnext, rfl, hlt⟩ := hholds.pre hi
    refine ⟨next, hx, ?_⟩
    show next.toNat ≤ _
    rw [hnext]
    exact (hholds.inv.seq_newest hlt).1
  · obtain ⟨o, hidle, _⟩ := hholds.rest hi
    rw [hidle.own]
    exact hidle.cursor seq hseq

def block (n : Nat) : ReadableInfo := { blockIndex := n }

def inTurn : List (Step Nat) :=
  [.call 1 .construct, .act 1 (), .call 0 (.notify (block 1)), .call 1 (.listen 0), .act 1 (),
    .act 1 (), .act 1 ()]

theorem inOrder_inTurn : InOrder (Run.exec step (start Nat) inTurn) := by
  refine inOrder ?_ _ (Run.exec_mem_states _ _ _)
  refine ⟨fun x a _ => trivial, ?_, fun x a _ => ⟨?_, ?_⟩, fun x a _ => trivial, ?_, ?_, ?_, trivial⟩
  case refine_2 =>
    -- nobody is taking anything
    intro j r hr
    rcases j with _ | _ | j <;> cases hr
  case refine_3 => exact show 0 + 1 < 2 ^ 64 by decide
  all_goals
    intro x o k _
    trivial

/-! ### A slot used again while it is read -/

/-- The listener takes the number 0 of slot 0, and block 2 is notified `n` times. -/
def lapped (n : Nat) : List (Step Nat) :=
  [.call 1 .construct, .act 1 (), .call 0 (.notify (block 1)), .call 1 (.listen 0), .act 1 (),
    .act 1 ()] ++ List.replicate n (.call 0 (.notify (block 2)))

structure Lapped (n : Nat) (t : State Nat) : Prop where
  nextSeq : t.shared.1.nextSeq = BitVec.ofNat 64 (n + 1)
  infos : n = kBufLength → t.shared.1.infos 0 = block 2
  issued : t.shared.2.issued = block 1 :: List.replicate n (block 2)
  own : t.shared.2.own 1 = { taking := some ⟨0, 0, 1⟩ }
  notifier : ∃ x a, t.threads 0 = .done x a
  listener : ∃ x k, t.threads 1 = .call x (.info 0) k

theorem lapped_exec (n : Nat) (hn : n ≤ kBufLength) :
    Lapped n (Run.exec step (start Nat) (lapped n)) := by
  induction n with
  | zero => exact ⟨rfl, nofun, rfl, rfl, ⟨_, _, rfl⟩, ⟨_, _, rfl⟩⟩
  | succ n ih =>
      have hlapped : lapped (n + 1) = lapped n ++ [.call 0 (.notify (block 2))] := by
        rw [lapped, lapped, List.replicate_succ', List.append_assoc]
      rw [hlapped, Run.exec_append]
      obtain ⟨hnext, _, hissued, hown, ⟨x, a, hi⟩, ⟨y, k, hj⟩⟩ := ih (by omega)
      generalize Run.exec step (start Nat) (lapped n) = t at *
      have hne : (1 : Nat) ≠ 0 := by decide
      have hlt : n + 1 < 2 ^ 64 := hn.trans_lt (by decide)
      have htoNat : t.shared.1.nextSeq.toNat = n + 1 := by
        rw [hnext, BitVec.toNat_ofNat, Nat.mod_eq_of_lt hlt]
      have hlength : t.shared.2.issued.length = n + 1 := by simp [hissued]
      have hhistory : (enter 0 (.notify (block 2)) t.shared).2 =
          notified 0 (block 2) (n + 1) t.shared.2 := by
        rw [history_enter (htoNat.trans hlength.symm), hlength]
      have hstep : step t (.call 0 (.notify (block 2))) =
          { shared := enter 0 (.notify (block 2)) t.shared
            threads := Function.update t.threads 0 (.done x (.notified true)) } := by
        simp only [step, Thread.step, hi]
        rfl
      show Lapped (n + 1) (step t (.call 0 (.notify (block 2))))
      rw [hstep]
      refine ⟨?_, fun hlast => ?_, ?_, ?_, ⟨x, .notified true, ?_⟩, ⟨y, k, ?_⟩⟩
      · show t.shared.1.nextSeq + 1 = _
        rw [hnext, BitVec.ofNat_add (n + 1)]
        rfl
      · show Function.update t.shared.1.infos (t.shared.1.nextSeq.toNat % kBufLength) (block 2) 0 = _
        rw [htoNat, hlast, Nat.mod_self, Function.update_self]
      · show (enter 0 (.notify (block 2)) t.shared).2.issued = _
        rw [hhistory]
        show t.shared.2.issued ++ [block 2] = _
        rw [hissued, List.replicate_succ']
        rfl
      · show (enter 0 (.notify (block 2)) t.shared).2.own 1 = _
        rw [hhistory, ← hown]
        simp [notified, History.setOwn]
      · simp
      · simp [hj]

theorem Lapped.not_inOrder {t : State Nat} (ht : Lapped kBufLength t) :
    ¬ InOrder (step t (.act 1 ())) := by
  intro hinOrder
  obtain ⟨_, hinfos, hissued, hown, _, ⟨x, k, hj⟩⟩ := ht
  have hstep : (step t (.act 1 ())).shared = (exec 1 (.info 0) () t.shared).2 := by
    simp [step, Thread.step, hj]
  have hreturned : ((step t (.act 1 ())).shared.2.own 1).returned = [(⟨0, 0, 1⟩, block 2)] := by
    rw [hstep, own_info, hown, hinfos rfl]
    rfl
  have hissued' : (step t (.act 1 ())).shared.2.issued[0]? = some (block 1) := by
    rw [hstep]
    show t.shared.2.issued[0]? = _
    rw [hissued, List.getElem?_cons_zero]
  have hfirst := hinOrder.issued 1 (⟨0, 0, 1⟩, block 2) (by simp [hreturned])
  exact absurd (hissued'.symm.trans hfirst) (by decide)

/-- It then reads the information of number 4096 for that of number 0. -/
theorem lapped_not_inOrder : ¬ ∀ es, ∀ t ∈ Run.states step (start Nat) es, InOrder t := by
  intro h
  have hinOrder := h (lapped kBufLength ++ [.act 1 ()]) _ (Run.exec_mem_states step _ _)
  rw [Run.exec_append, Run.exec_cons, Run.exec_nil] at hinOrder
  exact (lapped_exec kBufLength (Nat.le_refl _)).not_inOrder hinOrder

end Lag
end Notifier
end Transport
end Cmw
