import Cmw.Transport.Shm.SegmentRules

/-!
# Null pointers in a segment

One `XsiSegment` under a system that answers as it likes.  `init_` says truly that
`state_` and `blocks_` are set, yet two paths use them without it: `Recreate` after
a `Remap` that failed, and a release.
-/

namespace Cmw
namespace Transport
namespace Shm

open Library
open Library.Thread

/-- `init_` is true only where `state_` and `blocks_` are set. -/
def XsiSegment.Ready (x : XsiSegment) : Prop :=
  x.init = true → x.state ≠ none ∧ x.blocks ≠ none

namespace NullSafety

/-- The message that `AcquireBlockToWrite` is to find room for, in its `Remap`. -/
def remapped : Site → Option Nat
  | .remapToWrite m => some m
  | _ => none

/-- The size of the message whose `Remap` fails with this answer. -/
def remapFailure : (o : Op) → Ans o → Option Nat
  | .lookup site, none => remapped site
  | .shmat _ site, false => remapped site
  | _, _ => none

/-- Any answer; what is kept of the past is `remapFailure` of the last step. -/
def exec (_ : Unit) (o : Op) (answer : (o : Op) → Ans o) (_ : Option Nat) :
    Ans o × Option Nat :=
  (answer o, remapFailure o (answer o))

def enter (_ : Unit) (_ : SegmentCall) (_ : Option Nat) : Option Nat := none

abbrev State := Config sig Unit XsiSegment SegmentAnswer (Option Nat)

abbrev Step := Event Unit SegmentCall ((o : Op) → Ans o)

def start : State := Config.start (fun _ => {}) .constructed none

def step : State → Step → State := Thread.step exec enter SegmentCall.body

def protocol : Protocol sig Unit XsiSegment (Option Nat) ((o : Op) → Ans o) exec where
  Inv _ := True
  Rely _ s t := s = t
  Cond _ r o answer _ := ∀ m, remapFailure o (answer o) = some m → m ≤ r.conf.ceilingMsgSize
  Pre _ r _ s := r.Ready ∧ s = none
  Crash := False
  Hang _ s := s = none
  refl _ _ := rfl
  trans h h' := h.trans h'
  hang_stable h h' := h' ▸ h
  keeps _ _ _ := ⟨trivial, fun j hj => absurd (Subsingleton.elim j _) hj⟩

/-- A block is released only where `blocks_` is set, or where its index is refused. -/
def CallCond (_ : Unit) : SegmentCall → XsiSegment → Option Nat → Prop
  | .releaseWrittenBlock b, x, _ => b.index < x.conf.blockNum → x.blocks ≠ none
  | .releaseReadBlock b, x, _ => b.index < x.conf.blockNum → x.blocks ≠ none
  | _, _, _ => True

def Rest (_ : Unit) (x : XsiSegment) (a : SegmentAnswer) (s : Option Nat) : Prop :=
  x.Ready ∧ ∀ m, s = some m → ∃ b, a = .toWrite m (false, b)

section Functions

variable {x : XsiSegment}

/-- Whatever the system answers. -/
theorem answer_safe {o : Op} {Q : XsiSegment → Ans o → Option Nat → Prop} (hx : x.Ready)
    (hQ : ∀ a, (∀ m, remapFailure o a = some m → m ≤ x.conf.ceilingMsgSize) →
      Q x a (remapFailure o a)) :
    protocol.Safe () Q (o.get x) none :=
  Protocol.safe_op (fun _ ht _ => ⟨hx, ht.symm⟩) fun answer _ _ _ h => hQ (answer o) h

/-- An operation that no `Remap` fails with. -/
theorem unfailing_safe {o : Op} {Q : XsiSegment → Ans o → Option Nat → Prop}
    (ho : ∀ a, remapFailure o a = none) (hx : x.Ready) (hQ : ∀ a, Q x a none) :
    protocol.Safe () Q (o.get x) none :=
  answer_safe hx fun a _ => by
    rw [ho a]
    exact hQ a

theorem ready_of_init (h : x.init = false) : x.Ready := fun h' => by simp [h] at h'

theorem ready_of_some {s b : Nat} (hs : x.state = some s) (hb : x.blocks = some b) :
    x.Ready := fun _ => ⟨by simp [hs], by simp [hb]⟩

theorem reset_safe {Q : XsiSegment → Unit → Option Nat → Prop} (hx : x.init = false)
    (hQ : ∀ y : XsiSegment, y.init = false → y.conf = x.conf → Q y () none) :
    protocol.Safe () Q (XsiSegment.reset x) none :=
  safe_reset (hQ _ hx rfl) fun _ =>
    unfailing_safe (fun _ => rfl) (ready_of_init hx) fun _ => hQ _ hx rfl

theorem remove_safe {Q : XsiSegment → Bool → Option Nat → Prop} (hx : x.Ready)
    (hQ : ∀ b, Q x b none) : protocol.Safe () Q (XsiSegment.remove x) none :=
  safe_remove <| unfailing_safe (fun a => by cases a <;> rfl) hx fun _ =>
    ⟨fun _ => hQ false, fun _ _ => unfailing_safe (fun _ => rfl) hx hQ⟩

theorem openOnly_safe {site : Site} {Q : XsiSegment → Bool → Option Nat → Prop}
    (hx : x.init = false)
    (hfalse : ∀ y : XsiSegment, y.init = false → y.conf = x.conf →
      (∀ m, remapped site = some m → m ≤ x.conf.ceilingMsgSize) → Q y false (remapped site))
    (htrue : ∀ y : XsiSegment, y.init = true → y.Ready → Q y true none) :
    protocol.Safe () Q (XsiSegment.openOnly site x) none := by
  have hready := ready_of_init hx
  refine safe_openOnly hx (answer_safe hready fun shmid hlookup => ⟨?_, ?_⟩)
  · rintro rfl
    exact hfalse x hx rfl hlookup
  rintro s rfl
  refine answer_safe hready fun attached hattach => ⟨?_, ?_⟩
  · rintro rfl
    exact hfalse _ hx rfl hattach
  rintro rfl
  refine unfailing_safe (fun _ => rfl) (ready_of_init hx) fun ceiling => ?_
  refine unfailing_safe (fun _ => rfl) (ready_of_some rfl rfl) fun _ => ?_
  exact htrue _ rfl (ready_of_some rfl rfl)

theorem setUp_safe {shmid : Nat} {Q : XsiSegment → Bool → Option Nat → Prop}
    (hx : x.init = false) (hfalse : ∀ y : XsiSegment, y.init = false → Q y false none)
    (htrue : ∀ y : XsiSegment, y.init = true → y.Ready → Q y true none) :
    protocol.Safe () Q (XsiSegment.setUp shmid x) none := by
  have hshmat : ∀ a, remapFailure (.shmat shmid .creation) a = none := fun a => by cases a <;> rfl
  refine safe_setUp (unfailing_safe hshmat (ready_of_init hx) fun _ => ⟨fun _ => ?_, fun _ => ?_⟩)
  · exact unfailing_safe (fun _ => rfl) (ready_of_init hx) fun _ => hfalse _ hx
  refine unfailing_safe (fun _ => rfl) (ready_of_init hx) fun _ => ?_
  refine unfailing_safe (fun _ => rfl) (ready_of_init hx) fun ceiling => ?_
  refine unfailing_safe (fun _ => rfl) (ready_of_init hx) fun _ => ?_
  refine unfailing_safe (fun _ => rfl) (ready_of_some rfl rfl) fun _ => ?_
  exact htrue _ rfl (ready_of_some rfl rfl)

theorem createFrom_safe {site : Site} {retry : Nat} {Q : XsiSegment → Bool → Option Nat → Prop}
    (hsite : remapped site = none)
    (hx : x.init = false) (hfalse : ∀ y : XsiSegment, y.init = false → Q y false none)
    (htrue : ∀ y : XsiSegment, y.init = true → y.Ready → Q y true none) :
    protocol.Safe () Q (XsiSegment.createFrom site retry x) none := by
  induction retry generalizing x with
  | zero => exact hfalse x hx
  | succ retry ih =>
      refine safe_createFrom (unfailing_safe (fun _ => rfl) (ready_of_init hx) fun _ =>
        ⟨fun _ _ => setUp_safe hx hfalse htrue, fun _ => ?_, fun _ => ?_, fun _ => hfalse x hx⟩)
      · refine reset_safe hx fun y hy _ => ?_
        exact remove_safe (ready_of_init hy) fun _ => ih hy
      · refine openOnly_safe hx (fun y hy _ _ => ?_) htrue
        rw [hsite]
        exact hfalse y hy

theorem openOrCreate_safe {site : Site} {Q : XsiSegment → Bool → Option Nat → Prop}
    (hsite : remapped site = none)
    (hx : x.init = false) (hfalse : ∀ y : XsiSegment, y.init = false → Q y false none)
    (htrue : ∀ y : XsiSegment, y.init = true → y.Ready → Q y true none) :
    protocol.Safe () Q (XsiSegment.openOrCreate site x) none :=
  safe_openOrCreate (fun h => absurd (hx.symm.trans h) Bool.false_ne_true) fun _ =>
    createFrom_safe hsite hx hfalse htrue

theorem remap_safe {site : Site} {Q : XsiSegment → Bool → Option Nat → Prop}
    (hfalse : ∀ y : XsiSegment, y.init = false → y.conf = x.conf →
      (∀ m, remapped site = some m → m ≤ x.conf.ceilingMsgSize) → Q y false (remapped site))
    (htrue : ∀ y : XsiSegment, y.init = true → y.Ready → Q y true none) :
    protocol.Safe () Q (XsiSegment.remap site x) none := by
  refine safe_remap (reset_safe rfl fun y hy hconf => ?_)
  refine openOnly_safe hy (fun z hz hzconf hm => ?_) htrue
  rw [hconf] at hzconf hm
  exact hfalse z hz hzconf hm

/-- `Recreate` needs `state_`, as it sets `need_remap_` in it. -/
theorem recreate_safe {msgSize : Nat} {Q : XsiSegment → Bool → Option Nat → Prop}
    (hx : x.state ≠ none) (hfalse : ∀ y : XsiSegment, y.init = false → Q y false none)
    (htrue : ∀ y : XsiSegment, y.init = true → y.Ready → Q y true none) :
    protocol.Safe () Q (XsiSegment.recreate msgSize x) none := by
  refine safe_recreate (fun hnone => absurd hnone hx) fun _ _ => ?_
  refine unfailing_safe (fun _ => rfl) (ready_of_init rfl) fun _ => ?_
  refine reset_safe rfl fun y hy _ => ?_
  refine remove_safe (ready_of_init hy) fun _ => ?_
  exact openOrCreate_safe rfl hy hfalse htrue

theorem nextWritableFrom_safe {blockNum fuel : Nat} {Q : XsiSegment → Nat → Option Nat → Prop}
    (hx : x.Ready) (hinit : x.init = true) (hQ : ∀ n, Q x n none) :
    protocol.Safe () Q (XsiSegment.nextWritableFrom blockNum fuel x) none := by
  induction fuel with
  | zero => exact rfl
  | succ fuel ih =>
      refine safe_nextWritableFrom (fun h => absurd h (hx hinit).1)
        (fun h => absurd h (hx hinit).2) fun _ _ => ?_
      refine unfailing_safe (fun _ => rfl) hx fun seq _ _ => ?_
      exact unfailing_safe (fun _ => rfl) hx fun _ => ⟨fun _ => hQ _, fun _ => ih⟩

theorem remapIfNeeded_safe {site : Site} {Q : XsiSegment → Bool → Option Nat → Prop}
    (hx : x.Ready) (hinit : x.init = true)
    (hfalse : ∀ y : XsiSegment, y.init = false →
      (∀ m, remapped site = some m → m ≤ y.conf.ceilingMsgSize) → Q y false (remapped site))
    (htrue : ∀ y : XsiSegment, y.init = true → y.Ready → Q y true none) :
    protocol.Safe () Q (XsiSegment.remapIfNeeded site x) none := by
  refine safe_remapIfNeeded (fun h => absurd h (hx hinit).1) fun _ _ => ?_
  refine unfailing_safe (fun _ => rfl) hx fun _ => ⟨fun _ => htrue x hinit hx, fun _ => ?_⟩
  refine remap_safe (fun y hy hconf hm => ?_) htrue
  rw [← hconf] at hm
  exact hfalse y hy hm

theorem recreateIfLarger_safe {msgSize : Nat} {Q : XsiSegment → Bool → Option Nat → Prop}
    (hx : x.Ready) (hinit : x.init = true)
    (hfalse : ∀ y : XsiSegment, y.init = false → Q y false none)
    (htrue : ∀ y : XsiSegment, y.init = true → y.Ready → Q y true none) :
    protocol.Safe () Q (XsiSegment.recreateIfLarger msgSize true x) none := by
  rw [XsiSegment.recreateIfLarger]
  simp only [Protocol.safe_seq, Protocol.safe_get, Protocol.safe_ite]
  exact ⟨fun _ => recreate_safe (hx hinit).1 hfalse htrue, fun _ => htrue x hinit hx⟩

/-- After a `Remap` that failed the message is not above the ceiling. -/
theorem recreateIfLarger_failed {msgSize : Nat} {s : Option Nat}
    {Q : XsiSegment → Bool → Option Nat → Prop} (hle : msgSize ≤ x.conf.ceilingMsgSize)
    (hQ : Q x false s) : protocol.Safe () Q (XsiSegment.recreateIfLarger msgSize false x) s := by
  rw [XsiSegment.recreateIfLarger]
  simp only [Protocol.safe_seq, Protocol.safe_get, Protocol.safe_ite]
  exact ⟨fun h => absurd hle (by omega), fun _ => hQ⟩

theorem takeWritable_safe {fuel : Nat}
    {Q : XsiSegment → Bool × WritableBlock → Option Nat → Prop} (hx : x.Ready)
    (hinit : x.init = true) (hQ : ∀ b, Q x (true, b) none) :
    protocol.Safe () Q (XsiSegment.takeWritable fuel x) none := by
  rw [XsiSegment.takeWritable]
  simp only [Protocol.safe_seq, XsiSegment.getNextWritableBlockIndex, Protocol.safe_get,
    Protocol.safe_pure]
  exact nextWritableFrom_safe hx hinit fun n => hQ _

theorem acquireOpenedToWrite_safe {fuel msgSize : Nat}
    {Q : XsiSegment → Bool × WritableBlock → Option Nat → Prop} (hx : x.Ready)
    (hinit : x.init = true)
    (hfalse : ∀ (y : XsiSegment) (s : Option Nat), y.Ready → (∀ m, s = some m → m = msgSize) →
      Q y (false, {}) s)
    (htrue : ∀ (y : XsiSegment) (b : WritableBlock), y.Ready → Q y (true, b) none) :
    protocol.Safe () Q (XsiSegment.acquireOpenedToWrite fuel msgSize x) none := by
  rw [XsiSegment.acquireOpenedToWrite]
  simp only [Protocol.safe_seq]
  refine remapIfNeeded_safe hx hinit (fun y hy hm => ?_) fun y hyinit hy => ?_
  · refine recreateIfLarger_failed (hm msgSize rfl) ?_
    exact hfalse y _ (ready_of_init hy) fun m h => (Option.some.inj h).symm
  · refine recreateIfLarger_safe hy hyinit (fun z hz => ?_) fun z hzinit hz => ?_
    · exact hfalse z none (ready_of_init hz) (by simp)
    · exact takeWritable_safe hz hzinit fun b => htrue z b hz

theorem acquireBlockToWrite_safe {fuel msgSize : Nat}
    {Q : XsiSegment → Bool × WritableBlock → Option Nat → Prop} (hx : x.Ready)
    (hfalse : ∀ (y : XsiSegment) (s : Option Nat), y.Ready → (∀ m, s = some m → m = msgSize) →
      Q y (false, {}) s)
    (htrue : ∀ (y : XsiSegment) (b : WritableBlock), y.Ready → Q y (true, b) none) :
    protocol.Safe () Q (XsiSegment.acquireBlockToWrite fuel msgSize x) none := by
  rw [XsiSegment.acquireBlockToWrite, Protocol.safe_seq]
  refine safe_ensureOpen (fun hinit => ?_) fun hinit => ?_
  · exact acquireOpenedToWrite_safe hx hinit hfalse htrue
  · refine openOrCreate_safe rfl hinit (fun y hy => ?_) fun y hyinit hy => ?_
    · exact hfalse y none (ready_of_init hy) nofun
    · exact acquireOpenedToWrite_safe hy hyinit hfalse htrue

theorem tryReadFrom_safe {s index left : Nat} {lockNum : BitVec 32}
    {Q : XsiSegment → Bool → Option Nat → Prop} (hx : x.Ready) (hQ : ∀ b, Q x b none) :
    protocol.Safe () Q (Block.tryReadFrom s index left lockNum x) none := by
  induction left generalizing lockNum with
  | zero => exact hQ false
  | succ left ih =>
      refine safe_tryReadFrom (unfailing_safe (fun _ => rfl) hx fun _ =>
        ⟨fun _ => hQ true, fun _ => ⟨fun _ => hQ false, fun _ => ?_⟩⟩)
      exact unfailing_safe (fun _ => rfl) hx fun _ => ⟨fun _ => hQ false, fun _ => ih⟩

theorem takeReadable_safe {index : Nat}
    {Q : XsiSegment → Bool × ReadableBlock → Option Nat → Prop} (hx : x.Ready)
    (hinit : x.init = true) (hQ : ∀ b : Bool × ReadableBlock, Q x b none) :
    protocol.Safe () Q (XsiSegment.takeReadable index x) none := by
  refine safe_takeReadable (fun h => absurd h (hx hinit).2) fun s _ => ?_
  simp only [Block.tryLockForRead, Protocol.safe_seq, Protocol.safe_ite, Protocol.safe_pure]
  refine unfailing_safe (fun _ => rfl) hx fun _ =>
    ⟨fun _ => ⟨fun _ => hQ _, fun _ => hQ _⟩, fun _ => ?_⟩
  exact tryReadFrom_safe hx fun _ => ⟨fun _ => hQ _, fun _ => hQ _⟩

theorem acquireOpenedToRead_safe {index : Nat}
    {Q : XsiSegment → Bool × ReadableBlock → Option Nat → Prop} (hx : x.Ready)
    (hinit : x.init = true)
    (hQ : ∀ (y : XsiSegment) (b : Bool × ReadableBlock), y.Ready → Q y b none) :
    protocol.Safe () Q (XsiSegment.acquireOpenedToRead index x) none := by
  rw [XsiSegment.acquireOpenedToRead]
  simp only [Protocol.safe_seq, Protocol.safe_get, Protocol.safe_ite]
  refine ⟨fun _ => hQ x _ hx, fun _ => ?_⟩
  refine remapIfNeeded_safe hx hinit (fun y hy _ => ?_) fun y hyinit hy => ?_
  · exact ⟨fun _ => hQ y _ (ready_of_init hy), fun h => absurd rfl h⟩
  · exact ⟨by simp, fun _ => takeReadable_safe hy hyinit fun b => hQ y b hy⟩

theorem acquireBlockToRead_safe {index : Nat}
    {Q : XsiSegment → Bool × ReadableBlock → Option Nat → Prop} (hx : x.Ready)
    (hQ : ∀ (y : XsiSegment) (b : Bool × ReadableBlock), y.Ready → Q y b none) :
    protocol.Safe () Q (XsiSegment.acquireBlockToRead index x) none := by
  rw [XsiSegment.acquireBlockToRead, Protocol.safe_seq]
  refine safe_ensureOpen (fun hinit => ?_) fun hinit => ?_
  · exact acquireOpenedToRead_safe hx hinit hQ
  · refine openOnly_safe hinit (fun y hy _ _ => ?_) fun y hyinit hy => ?_
    · exact hQ y _ (ready_of_init hy)
    · exact acquireOpenedToRead_safe hy hyinit hQ

theorem decreaseFrom_safe {s fuel : Nat} {current : BitVec 32}
    {Q : XsiSegment → Unit → Option Nat → Prop} (hx : x.Ready) (hQ : Q x () none) :
    protocol.Safe () Q (State.decreaseFrom s fuel current x) none := by
  induction fuel generalizing current with
  | zero => exact rfl
  | succ fuel ih =>
      refine safe_decreaseFrom (fun _ => hQ) fun _ => ?_
      exact unfailing_safe (fun _ => rfl) hx fun _ => ⟨fun _ => hQ, fun _ => ih⟩

theorem destroy_safe {fuel : Nat} {Q : XsiSegment → Bool → Option Nat → Prop} (hx : x.Ready)
    (hQ : ∀ (y : XsiSegment) (b : Bool), y.Ready → Q y b none) :
    protocol.Safe () Q (XsiSegment.destroy fuel x) none := by
  refine safe_destroy (fun _ => hQ x _ hx) (fun hinit h => absurd h (hx hinit).1) fun _ _ _ => ?_
  refine unfailing_safe (fun _ => rfl) (ready_of_init rfl) fun current => ?_
  refine decreaseFrom_safe (ready_of_init rfl) ?_
  refine unfailing_safe (fun _ => rfl) (ready_of_init rfl) fun referenceCounts => ?_
  refine ⟨fun _ => ?_, fun _ => hQ _ _ (ready_of_init rfl)⟩
  exact remove_safe (ready_of_init rfl) fun b => hQ _ b (ready_of_init rfl)

theorem releaseWrittenBlock_safe {b : WritableBlock} {Q : XsiSegment → Unit → Option Nat → Prop}
    (hx : x.Ready) (hb : b.index < x.conf.blockNum → x.blocks ≠ none) (hQ : Q x () none) :
    protocol.Safe () Q (XsiSegment.releaseWrittenBlock b x) none :=
  safe_releaseWrittenBlock (fun _ => hQ) hb fun _ _ _ =>
    unfailing_safe (fun _ => rfl) hx fun _ => hQ

theorem releaseReadBlock_safe {b : ReadableBlock} {Q : XsiSegment → Unit → Option Nat → Prop}
    (hx : x.Ready) (hb : b.index < x.conf.blockNum → x.blocks ≠ none) (hQ : Q x () none) :
    protocol.Safe () Q (XsiSegment.releaseReadBlock b x) none :=
  safe_releaseReadBlock (fun _ => hQ) hb fun _ _ _ =>
    unfailing_safe (fun _ => rfl) hx fun _ => hQ

end Functions

theorem body_safe (i : Unit) (c : SegmentCall) (x : XsiSegment) (a : SegmentAnswer)
    (s : Option Nat) (hrest : Rest i x a s) (hc : CallCond i c x s) :
    protocol.Safe i (Rest i) (c.body x) (enter i c s) := by
  have hx : x.Ready := hrest.1
  cases c with
  | acquireBlockToWrite fuel msgSize =>
      refine Protocol.safe_seq.mpr (acquireBlockToWrite_safe hx (fun y s hy hs => ?_) ?_)
      · exact ⟨hy, fun m hm => ⟨{}, by rw [hs m hm]⟩⟩
      · exact fun y b hy => ⟨hy, nofun⟩
  | releaseWrittenBlock b =>
      exact Protocol.safe_seq.mpr (releaseWrittenBlock_safe hx hc ⟨hx, nofun⟩)
  | acquireBlockToRead index =>
      exact Protocol.safe_seq.mpr (acquireBlockToRead_safe hx fun y b hy => ⟨hy, nofun⟩)
  | releaseReadBlock b =>
      exact Protocol.safe_seq.mpr (releaseReadBlock_safe hx hc ⟨hx, nofun⟩)
  | destroy fuel =>
      exact Protocol.safe_seq.mpr (destroy_safe hx fun y b hy => ⟨hy, nofun⟩)

/-! ### Every run -/

/-- Nothing null was used, `init_` is true to its word, and an `AcquireBlockToWrite` has
returned false at once where its `Remap` failed. -/
structure NullSafe (cfg : State) : Prop where
  no_crash : cfg.threads () ≠ .crash
  ready : ∀ x o k, cfg.threads () = .call x o k → x.Ready
  ready_at_rest : ∀ x a, cfg.threads () = .done x a → x.Ready
  remap_failed : ∀ m, cfg.shared = some m →
    ∃ x b, cfg.threads () = .done x (.toWrite m (false, b))

/-- A `Remap` of `AcquireBlockToWrite` fails only for a message that is not above the
ceiling, and a release finds `blocks_` set. -/
def Condition (cfg : State) (e : Step) : Prop := protocol.Meets CallCond cfg e

theorem nullSafe_of_holds {cfg : State} (h : protocol.Holds Rest cfg) : NullSafe cfg where
  no_crash := h.not_crash id
  ready _ _ _ hi := (h.pre hi).1
  ready_at_rest _ _ hi := (h.rest hi).1
  remap_failed m hm := by
    cases hi : cfg.threads () with
    | done x a =>
        obtain ⟨b, rfl⟩ := (h.rest hi).2 m hm
        exact ⟨x, b, rfl⟩
    | call x o k => exact absurd ((h.pre hi).2.symm.trans hm) nofun
    | crash => exact absurd hi (h.not_crash id)
    | hang => exact absurd ((h.hang hi).symm.trans hm) nofun

theorem holds_start : protocol.Holds Rest start where
  inv := trivial
  safe _ := ⟨ready_of_init rfl, nofun⟩

theorem nullSafe {es : List Step} (hes : Run.Along step Condition start es) :
    ∀ t ∈ Run.states step start es, NullSafe t := by
  intro t ht
  refine nullSafe_of_holds (Protocol.sound ?_ ?_ ?_ holds_start hes t ht)
  · intro i x a s t h hst _
    exact hst ▸ h
  · intro i c x a s _ _ _
    exact ⟨trivial, fun j hj => absurd (Subsingleton.elim j i) hj⟩
  · exact fun i c x a s _ hrest hc => body_safe i c x a s hrest hc

/-- Answers with which everything succeeds, but for `need_remap_` and the lookups. -/
def answers (needRemap : Bool) (found : Option Nat) : (o : Op) → Ans o
  | .create _ => .ok 0
  | .lookup _ => found
  | .shmat _ _ => true
  | .rmid _ => true
  | .ceilingMsgSize _ _ => ShmConf.messageSize16K
  | .loadReferenceCount _ => 1
  | .exchangeReferenceCount _ expected => (true, expected)
  | .referenceCounts _ => 0
  | .needRemap _ => needRemap
  | .fetchAddSeq _ => 0
  | .tryLockForWrite _ _ => true
  | .loadLockNum _ _ => 0
  | .exchangeLockNum _ _ _ _ => true
  | .msgSize _ _ => 0
  | .read _ _ => []
  | .notify _ => true
  | .listen _ => none
  | .shmdt _ | .newState _ _ | .newBlocks _ _ | .increaseReferenceCounts _ | .setNeedRemap _ _
  | .releaseWriteLock _ _ | .releaseReadLock _ _ | .setMsgSize _ _ _ | .setMsgInfoSize _ _ _
  | .write _ _ => ()

/-- A block is acquired in a new segment, and released. -/
def acquireAndRelease : List Step :=
  .call () (.acquireBlockToWrite 1 8) ::
    List.replicate 9 (.act () (answers false (some 0))) ++
      [.call () (.releaseWrittenBlock { index := 0 }), .act () (answers false (some 0))]

theorem nullSafe_acquireAndRelease : NullSafe (Run.exec step start acquireAndRelease) := by
  have hplain : ∀ o, remapFailure o (answers false (some 0) o) = none := fun o => by
    cases o <;> rfl
  have hact : ∀ cfg, Condition cfg (.act () (answers false (some 0))) :=
    fun cfg x o k _ m hm => by simp [hplain o] at hm
  refine nullSafe ?_ _ (Run.exec_mem_states _ _ _)
  refine ⟨fun _ _ _ => trivial, ?_⟩
  refine ⟨hact _, hact _, hact _, hact _, hact _, hact _, hact _, hact _, hact _, ?_, hact _,
    trivial⟩
  intro x a hi
  cases hi
  exact fun _ => Option.some_ne_none 0

/-- The next message is above the ceiling, and the segment to remap is gone. -/
def remapFails : List Step :=
  acquireAndRelease ++
    [.call () (.acquireBlockToWrite 1 (ShmConf.messageSize16K + 1)),
      .act () (answers true none), .act () (answers true none), .act () (answers true none)]

theorem remapFails_crash : ¬ ∀ es, ∀ t ∈ Run.states step start es, NullSafe t := by
  intro h
  have hcrash : (Run.exec step start remapFails).threads () = .crash := rfl
  exact (h remapFails _ (Run.exec_mem_states step start remapFails)).no_crash hcrash

end NullSafety
end Shm
end Transport
end Cmw
