import Cmw.Transport.Shm.SegmentRules

/-!
# The layout of the mapped segment

Any number of processes on the segments of one channel.  What a process takes for
the layout, `conf_`, is the layout that the segment was created with as long as a
process reads the ceiling of a segment whose `State` is there already.  Two paths
map a segment and then trust a size or an index that was tested before: `Recreate`,
where another process was faster, and `Remap` in a read.  `Found` is what these two
are taken to find.
-/

namespace Cmw
namespace Transport
namespace Shm

open Library
open Library.Thread

namespace Layout

def exec {ι : Type} (_ : ι) (o : Op) (ok : Bool) (k : Kernel) : Ans o × Kernel := k.exec ok o

/-- Segments come into being, and stay as large as they are. -/
def Le (k l : Kernel) : Prop :=
  k.count ≤ l.count ∧ ∀ s, s < k.count → (l.segments s).conf = (k.segments s).conf

theorem Le.refl (k : Kernel) : Le k k := ⟨Nat.le_refl _, fun _ _ => rfl⟩

theorem Le.trans {k l m : Kernel} (h : Le k l) (h' : Le l m) : Le k m :=
  ⟨Nat.le_trans h.1 h'.1, fun s hs => (h'.2 s (Nat.lt_of_lt_of_le hs h.1)).trans (h.2 s hs)⟩

/-- The key names a segment that there is. -/
def Inv (k : Kernel) : Prop := ∀ s, k.key = some s → s < k.count

theorem le_update (k : Kernel) (s : Nat) (f : ManagedShm → ManagedShm)
    (hf : ∀ m, (f m).conf = m.conf) : Le k (k.update s f) := by
  refine ⟨Nat.le_refl _, fun t _ => ?_⟩
  rw [Kernel.segments_update]
  split
  case isTrue h => rw [hf, h]
  case isFalse => rfl

theorem inv_update {k : Kernel} (h : Inv k) (s : Nat) (f : ManagedShm → ManagedShm) :
    Inv (k.update s f) := h

/-- No operation changes the layout of a segment. -/
theorem exec_keeps (ok : Bool) {k : Kernel} (hk : Inv k) (o : Op) :
    Le k (k.exec ok o).2 ∧ Inv (k.exec ok o).2 := by
  have hupdate : ∀ (s : Nat) (f : ManagedShm → ManagedShm), (∀ m, (f m).conf = m.conf) →
      Le k (k.update s f) ∧ Inv (k.update s f) := fun s f hf =>
    ⟨le_update k s f hf, inv_update hk s f⟩
  have hsame : Le k k ∧ Inv k := ⟨Le.refl k, hk⟩
  cases o with
  | create conf =>
      simp only [Kernel.exec]
      split
      · exact hsame
      split
      · exact hsame
      split
      · refine ⟨⟨Nat.le_succ _, fun s hs => ?_⟩, fun s hs => ?_⟩
        · simp [Nat.ne_of_lt hs]
        · simp only [Option.some.injEq] at hs
          show s < k.count + 1
          omega
      · exact hsame
  | lookup site => exact hsame
  | rmid id =>
      simp only [Kernel.exec]
      split
      · exact ⟨Le.refl k, nofun⟩
      · exact hsame
  | exchangeReferenceCount s expected =>
      simp only [Kernel.exec]
      split
      · exact hupdate _ _ fun _ => rfl
      · exact hsame
  | tryLockForWrite s index =>
      simp only [Kernel.exec]
      split
      · exact hupdate _ _ fun _ => rfl
      · exact hsame
  | exchangeLockNum s index expected left =>
      simp only [Kernel.exec]
      split
      · exact hupdate _ _ fun _ => rfl
      · exact hsame
  | ceilingMsgSize s site => exact hsame
  | loadReferenceCount s => exact hsame
  | referenceCounts s => exact hsame
  | needRemap s => exact hsame
  | loadLockNum s index => exact hsame
  | msgSize s index => exact hsame
  | read a len => exact hsame
  | listen n => exact hsame
  | notify info => exact hsame
  | shmat id site => exact hsame
  | shmdt id => exact hsame
  | newState s c => exact hupdate _ _ fun _ => rfl
  | newBlocks s n => exact hupdate _ _ fun _ => rfl
  | increaseReferenceCounts s => exact hupdate _ _ fun _ => rfl
  | setNeedRemap s need => exact hupdate _ _ fun _ => rfl
  | fetchAddSeq s => exact hupdate _ _ fun _ => rfl
  | releaseWriteLock s index => exact hupdate _ _ fun _ => rfl
  | releaseReadLock s index => exact hupdate _ _ fun _ => rfl
  | setMsgSize s index n => exact hupdate _ _ fun _ => rfl
  | setMsgInfoSize s index n => exact hupdate _ _ fun _ => rfl
  | write a bytes => exact hupdate _ _ fun _ => rfl

/-- `x` has segment `s` mapped, in the layout that it was created with. -/
structure Laid (x : XsiSegment) (s : Nat) (k : Kernel) : Prop where
  managedShm : x.managedShm = .mapped s
  state : x.state = some s
  blocks : x.blocks = some s
  lt_count : s < k.count
  conf : x.conf = (k.segments s).conf
  bufs : ∀ i, i < x.conf.blockNum → x.blockBufAddrs i = some ⟨s, x.conf.bufOffset i⟩

theorem Laid.of_le {x : XsiSegment} {s : Nat} {k l : Kernel} (h : Laid x s k) (hkl : Le k l) :
    Laid x s l :=
  { h with
    lt_count := Nat.lt_of_lt_of_le h.lt_count hkl.1
    conf := by rw [h.conf, hkl.2 s h.lt_count] }

def Opened (x : XsiSegment) (k : Kernel) : Prop := x.init = true → ∃ s, Laid x s k

theorem Opened.of_le {x : XsiSegment} {k l : Kernel} (h : Opened x k) (hkl : Le k l) :
    Opened x l := fun hx => (h hx).imp fun _ hs => hs.of_le hkl

theorem opened_of_init {x : XsiSegment} {k : Kernel} (h : x.init = false) : Opened x k :=
  fun h' => by simp [h] at h'

section Protocol

variable {ι : Type} (Found : Site → ShmConf → Prop)

/-- The ceiling that a process reads is the one the segment was created for, and what it
finds there is as `Found` wants it. -/
def Cond (_ : ι) (_ : XsiSegment) (o : Op) (_ : Bool) (k : Kernel) : Prop :=
  match o with
  | .ceilingMsgSize s site =>
      ShmConf.update (k.segments s).ceilingMsgSize = (k.segments s).conf ∧
        Found site (k.segments s).conf
  | _ => True

/-- The block that is read-locked. -/
def Pre (_ : ι) (x : XsiSegment) (o : Op) (k : Kernel) : Prop :=
  match o with
  | .loadLockNum s index | .exchangeLockNum s index _ _ =>
      x.managedShm = .mapped s ∧
        (index < (k.segments s).conf.blockNum ∨ Found (.remapToRead index) (k.segments s).conf)
  | _ => True

def protocol (ι : Type) : Protocol sig ι XsiSegment Kernel Bool (exec (ι := ι)) where
  Inv := Inv
  Rely _ := Le
  Cond := Cond Found
  Pre := Pre Found
  Crash := True
  Hang _ _ := True
  refl _ := Le.refl
  trans := Le.trans
  hang_stable _ _ := trivial
  keeps hk _ _ := ⟨(exec_keeps _ hk _).2, fun _ _ => (exec_keeps _ hk _).1⟩

variable {Found} {i : ι} {x : XsiSegment} {k : Kernel}

/-- An operation takes nothing away from the system. -/
theorem le_safe {o : Op} {Q : XsiSegment → Ans o → Kernel → Prop}
    (hpre : ∀ l, Le k l → Pre Found i x o l)
    (hQ : ∀ ok l, Inv l → Cond Found i x o ok l → Le k l → Le k (l.exec ok o).2 →
      Q x (l.exec ok o).1 (l.exec ok o).2) :
    (protocol Found ι).Safe i Q (o.get x) k :=
  Protocol.safe_keep (F := Le k) (fun _ hkl => hkl) (fun l _ hkl => hpre l hkl)
    (fun ok _ hl hkl => hkl.trans (exec_keeps ok hl o).1) hQ

/-- An operation whose answer does not matter. -/
theorem unanswered_safe {o : Op} {Q : XsiSegment → Ans o → Kernel → Prop}
    (hpre : ∀ l, Le k l → Pre Found i x o l) (hQ : ∀ a l, Le k l → Q x a l) :
    (protocol Found ι).Safe i Q (o.get x) k :=
  le_safe hpre fun _ _ _ _ _ hle => hQ _ _ hle

/-- The key is looked up. -/
theorem lookup_safe {site : Site} {Q : XsiSegment → Option Nat → Kernel → Prop}
    (hQ : ∀ a l, Le k l → (∀ s, a = some s → s < l.count) → Q x a l) :
    (protocol Found ι).Safe i Q ((Op.lookup site).get x) k := by
  refine le_safe (fun _ _ => trivial) fun ok l hl _ _ hle => hQ _ _ hle fun s hs => hl s ?_
  simp only [Kernel.exec] at hs
  split at hs
  · exact hs
  · cases hs

/-- The ceiling of a segment is read. -/
theorem ceiling_safe {s : Nat} {site : Site} {Q : XsiSegment → Nat → Kernel → Prop}
    (hQ : ∀ c l, Le k l → ShmConf.update c = (l.segments s).conf →
      Found site (l.segments s).conf → Q x c l) :
    (protocol Found ι).Safe i Q ((Op.ceilingMsgSize s site).get x) k :=
  le_safe (fun _ _ => trivial) fun _ _ _ hc _ hle => hQ _ _ hle hc.1 hc.2

theorem reset_safe {Q : XsiSegment → Unit → Kernel → Prop} (hx : x.init = false)
    (hQ : ∀ (y : XsiSegment) (l : Kernel), y.init = false → y.conf = x.conf → Le k l →
      Q y () l) :
    (protocol Found ι).Safe i Q (XsiSegment.reset x) k :=
  safe_reset (hQ _ k hx rfl (Le.refl k)) fun _ =>
    unanswered_safe (fun _ _ => trivial) fun _ l hle => hQ _ l hx rfl hle

theorem remove_safe {Q : XsiSegment → Bool → Kernel → Prop}
    (hQ : ∀ (b : Bool) (l : Kernel), Le k l → Q x b l) :
    (protocol Found ι).Safe i Q (XsiSegment.remove x) k :=
  safe_remove <| unanswered_safe (fun _ _ => trivial) fun _ l hkl => ⟨fun _ => hQ false l hkl,
    fun _ _ => unanswered_safe (fun _ _ => trivial) fun b _ hle => hQ b _ (hkl.trans hle)⟩

theorem laid_layOut {s : Nat} {c : Nat} (hmap : x.managedShm = .mapped s) (hstate : x.state = some s)
    (hcount : s < k.count) (hc : ShmConf.update c = (k.segments s).conf) :
    Laid (x.layOut s (.update c)) s k where
  managedShm := hmap
  state := hstate
  blocks := rfl
  lt_count := hcount
  conf := hc
  bufs _ hi := if_pos hi

theorem Laid.setInit {x : XsiSegment} {s : Nat} {k : Kernel} (h : Laid x s k) (b : Bool) :
    Laid { x with init := b } s k :=
  { h with }

/-- `OpenOnly`, and what it finds. -/
theorem openOnly_safe {site : Site} {Q : XsiSegment → Bool → Kernel → Prop}
    (hx : x.init = false)
    (hfalse : ∀ (y : XsiSegment) (l : Kernel), y.init = false → Le k l → Q y false l)
    (htrue : ∀ (y : XsiSegment) (s : Nat) (l : Kernel), y.init = true → Laid y s l → Le k l →
      Found site y.conf → Q y true l) :
    (protocol Found ι).Safe i Q (XsiSegment.openOnly site x) k := by
  refine safe_openOnly hx (lookup_safe fun shmid l hkl hshmid =>
    ⟨fun _ => hfalse x l hx hkl, fun s hs => ?_⟩)
  have hs : s < l.count := hshmid s hs
  refine unanswered_safe (fun _ _ => trivial) fun _ m hlm =>
    ⟨fun _ => hfalse _ m hx (hkl.trans hlm), fun _ => ?_⟩
  refine ceiling_safe fun c n hmn hc hfound => ?_
  have hcount : s < n.count := Nat.lt_of_lt_of_le hs (hlm.trans hmn).1
  refine unanswered_safe (fun _ _ => trivial) fun _ p hnp => ?_
  have hlaid := (laid_layOut
    (x := { x with managedShm := .mapped s, state := some s }) rfl rfl hcount hc).of_le hnp
  refine htrue _ s p rfl (hlaid.setInit true) (hkl.trans (hlm.trans (hmn.trans hnp))) ?_
  exact hc ▸ hfound

/-- `OpenOrCreate` from the segment it has created on. -/
theorem setUp_safe {s : Nat} {Q : XsiSegment → Bool → Kernel → Prop} (hx : x.init = false)
    (hs : s < k.count) (hconf : x.conf = (k.segments s).conf)
    (hfalse : ∀ (y : XsiSegment) (l : Kernel), y.init = false → Le k l → Q y false l)
    (htrue : ∀ (y : XsiSegment) (s : Nat) (l : Kernel), y.init = true → Laid y s l → Le k l →
      y.conf = x.conf → Q y true l) :
    (protocol Found ι).Safe i Q (XsiSegment.setUp s x) k := by
  refine safe_setUp (unanswered_safe (fun _ _ => trivial) fun _ l hkl =>
    ⟨fun _ => ?_, fun _ => ?_⟩)
  · exact unanswered_safe (fun _ _ => trivial) fun _ m hlm => hfalse _ m hx (hkl.trans hlm)
  refine unanswered_safe (fun _ _ => trivial) fun _ m hlm => ?_
  refine ceiling_safe fun c n hmn hc _ => ?_
  have hkn : Le k n := hkl.trans (hlm.trans hmn)
  have hcount : s < n.count := Nat.lt_of_lt_of_le hs hkn.1
  refine unanswered_safe (fun _ _ => trivial) fun _ p hnp => ?_
  refine unanswered_safe (fun _ _ => trivial) fun _ q hpq => ?_
  have hlaid := (laid_layOut
    (x := { x with managedShm := .mapped s, state := some s }) rfl rfl hcount hc).of_le
      (hnp.trans hpq)
  refine htrue _ s q rfl (hlaid.setInit true) (hkn.trans (hnp.trans hpq)) ?_
  show ShmConf.update c = x.conf
  rw [hc, hkn.2 s hs, hconf]

/-- A segment is created. -/
theorem create_safe {c : ShmConf} {Q : XsiSegment → Except Errno Nat → Kernel → Prop}
    (hQ : ∀ a l, Le k l → (∀ s, a = .ok s → s < l.count ∧ (l.segments s).conf = c) → Q x a l) :
    (protocol Found ι).Safe i Q ((Op.create c).get x) k := by
  refine le_safe (fun _ _ => trivial) fun ok l hl _ _ hle => hQ _ _ hle fun s hs => ?_
  simp only [Kernel.exec] at hs ⊢
  split at hs
  · cases hs
  split at hs
  · cases hs
  split at hs
  · cases hs
    simp [*]
  · cases hs

theorem createFrom_safe {site : Site} {retry : Nat} {Q : XsiSegment → Bool → Kernel → Prop}
    (hx : x.init = false)
    (hfalse : ∀ (y : XsiSegment) (l : Kernel), y.init = false → Le k l → Q y false l)
    (htrue : ∀ (y : XsiSegment) (s : Nat) (l : Kernel), y.init = true → Laid y s l → Le k l →
      y.conf = x.conf ∨ Found site y.conf → Q y true l) :
    (protocol Found ι).Safe i Q (XsiSegment.createFrom site retry x) k := by
  induction retry generalizing x k with
  | zero => exact hfalse x k hx (Le.refl k)
  | succ retry ih =>
      refine safe_createFrom (create_safe fun shmid l hkl hshmid =>
        ⟨fun s hs => ?_, fun _ => ?_, fun _ => ?_, fun _ => hfalse x l hx hkl⟩)
      · obtain ⟨hs, hconf⟩ := hshmid s hs
        refine setUp_safe hx hs hconf.symm (fun y m hy hlm => hfalse y m hy (hkl.trans hlm)) ?_
        exact fun y s m hy hlaid hlm hc => htrue y s m hy hlaid (hkl.trans hlm) (.inl hc)
      · refine reset_safe hx fun y m hy hconf hlm => ?_
        refine remove_safe fun _ n hmn => ih hy (fun z p hz hnp => ?_) ?_
        · exact hfalse z p hz (hkl.trans (hlm.trans (hmn.trans hnp)))
        · intro z s p hz hlaid hnp hc
          rw [hconf] at hc
          exact htrue z s p hz hlaid (hkl.trans (hlm.trans (hmn.trans hnp))) hc
      · refine openOnly_safe hx (fun y m hy hlm => hfalse y m hy (hkl.trans hlm)) ?_
        exact fun y s m hy hlaid hlm hf => htrue y s m hy hlaid (hkl.trans hlm) (.inr hf)

theorem openOrCreate_safe {site : Site} {Q : XsiSegment → Bool → Kernel → Prop}
    (hx : x.init = false)
    (hfalse : ∀ (y : XsiSegment) (l : Kernel), y.init = false → Le k l → Q y false l)
    (htrue : ∀ (y : XsiSegment) (s : Nat) (l : Kernel), y.init = true → Laid y s l → Le k l →
      y.conf = x.conf ∨ Found site y.conf → Q y true l) :
    (protocol Found ι).Safe i Q (XsiSegment.openOrCreate site x) k :=
  safe_openOrCreate (fun h => absurd (hx.symm.trans h) Bool.false_ne_true) fun _ =>
    createFrom_safe hx hfalse htrue

theorem remap_safe {site : Site} {Q : XsiSegment → Bool → Kernel → Prop}
    (hfalse : ∀ (y : XsiSegment) (l : Kernel), y.init = false → Le k l → Q y false l)
    (htrue : ∀ (y : XsiSegment) (s : Nat) (l : Kernel), y.init = true → Laid y s l → Le k l →
      Found site y.conf → Q y true l) :
    (protocol Found ι).Safe i Q (XsiSegment.remap site x) k := by
  refine safe_remap (reset_safe rfl fun y l hy _ hkl => ?_)
  refine openOnly_safe hy (fun z m hz hlm => hfalse z m hz (hkl.trans hlm)) ?_
  exact fun z s m hz hlaid hlm hf => htrue z s m hz hlaid (hkl.trans hlm) hf

/-- `Recreate` ends with a segment for the message, or with one that it has found. -/
theorem recreate_safe {msgSize : Nat} {Q : XsiSegment → Bool → Kernel → Prop}
    (hfalse : ∀ (y : XsiSegment) (l : Kernel), y.init = false → Le k l → Q y false l)
    (htrue : ∀ (y : XsiSegment) (s : Nat) (l : Kernel), y.init = true → Laid y s l → Le k l →
      y.conf = .update msgSize ∨ Found (.recreate msgSize) y.conf → Q y true l) :
    (protocol Found ι).Safe i Q (XsiSegment.recreate msgSize x) k := by
  refine safe_recreate (fun _ => trivial) fun _ _ =>
    unanswered_safe (fun _ _ => trivial) fun _ l hkl => ?_
  refine reset_safe rfl fun y m hy _ hlm => ?_
  refine remove_safe fun _ n hmn => ?_
  have hkn : Le k n := hkl.trans (hlm.trans hmn)
  refine openOrCreate_safe hy (fun z p hz hnp => hfalse z p hz (hkn.trans hnp)) ?_
  exact fun z s p hz hlaid hnp hc => htrue z s p hz hlaid (hkn.trans hnp) hc

/-- The block that is found is one of the segment. -/
theorem nextWritableFrom_safe {blockNum fuel : Nat} {Q : XsiSegment → Nat → Kernel → Prop}
    (hpos : 0 < blockNum) (hQ : ∀ (n : Nat) (l : Kernel), n < blockNum → Le k l → Q x n l) :
    (protocol Found ι).Safe i Q (XsiSegment.nextWritableFrom blockNum fuel x) k := by
  induction fuel generalizing k with
  | zero => trivial
  | succ fuel ih =>
      refine safe_nextWritableFrom (fun _ => trivial) (fun _ => trivial) fun _ _ => ?_
      refine unanswered_safe (fun _ _ => trivial) fun seq l hkl b _ => ?_
      refine unanswered_safe (fun _ _ => trivial) fun locked m hlm => ⟨fun _ => ?_, fun _ => ?_⟩
      · exact hQ _ m (Nat.mod_lt _ hpos) (hkl.trans hlm)
      · exact ih fun n p hn hmp => hQ n p hn (hkl.trans (hlm.trans hmp))

theorem remapIfNeeded_safe {site : Site} {s : Nat} {Q : XsiSegment → Bool → Kernel → Prop}
    (hinit : x.init = true) (hx : Laid x s k)
    (hfalse : ∀ (y : XsiSegment) (l : Kernel), y.init = false → Le k l → Q y false l)
    (htrue : ∀ (y : XsiSegment) (s : Nat) (l : Kernel), y.init = true → Laid y s l → Le k l →
      y.conf = x.conf ∨ Found site y.conf → Q y true l) :
    (protocol Found ι).Safe i Q (XsiSegment.remapIfNeeded site x) k := by
  refine safe_remapIfNeeded (fun _ => trivial) fun _ _ => ?_
  refine unanswered_safe (fun _ _ => trivial) fun needRemap l hkl => ⟨fun _ => ?_, fun _ => ?_⟩
  · exact htrue x s l hinit (hx.of_le hkl) hkl (.inl rfl)
  · refine remap_safe (fun y m hy hlm => hfalse y m hy (hkl.trans hlm)) ?_
    exact fun y s m hy hlaid hlm hf => htrue y s m hy hlaid (hkl.trans hlm) (.inr hf)

/-- For a message above the ceiling `Recreate` follows, whatever `Remap` has done. -/
theorem recreateIfLarger_safe {msgSize : Nat} {result : Bool}
    {Q : XsiSegment → Bool → Kernel → Prop}
    (hkept : msgSize ≤ x.conf.ceilingMsgSize → Q x result k)
    (hfalse : ∀ (y : XsiSegment) (l : Kernel), y.init = false → Le k l → Q y false l)
    (htrue : ∀ (y : XsiSegment) (s : Nat) (l : Kernel), y.init = true → Laid y s l → Le k l →
      y.conf = .update msgSize ∨ Found (.recreate msgSize) y.conf → Q y true l) :
    (protocol Found ι).Safe i Q (XsiSegment.recreateIfLarger msgSize result x) k := by
  rw [XsiSegment.recreateIfLarger]
  simp only [Protocol.safe_seq, Protocol.safe_get, Protocol.safe_ite]
  exact ⟨fun _ => recreate_safe hfalse htrue, fun h => hkept (Nat.le_of_not_lt h)⟩

/-! ### A block to write -/

/-- The block of a true answer: it is one of the mapped segment, and its buffer is the
one that the segment has for it. -/
structure Writable (Found : Site → ShmConf → Prop) (msgSize : Nat) (x : XsiSegment)
    (b : WritableBlock) (k : Kernel) (s : Nat) : Prop where
  laid : Laid x s k
  index : b.index < (k.segments s).conf.blockNum
  block : b.block = some (s, b.index)
  buf : b.buf = some ⟨s, (k.segments s).conf.bufOffset b.index⟩
  size : msgSize ≤ (k.segments s).conf.ceilingMsgSize ∨
    (k.segments s).conf = .update msgSize ∨ Found (.recreate msgSize) (k.segments s).conf

theorem Writable.of_le {msgSize : Nat} {b : WritableBlock} {s : Nat} {l : Kernel}
    (h : Writable Found msgSize x b k s) (hkl : Le k l) : Writable Found msgSize x b l s := by
  have hconf := hkl.2 s h.laid.lt_count
  exact ⟨h.laid.of_le hkl, by rw [hconf]; exact h.index, h.block, by rw [hconf]; exact h.buf,
    by rw [hconf]; exact h.size⟩

theorem takeWritable_safe {fuel msgSize s : Nat}
    {Q : XsiSegment → Bool × WritableBlock → Kernel → Prop} (hx : Laid x s k)
    (hsize : msgSize ≤ x.conf.ceilingMsgSize ∨ x.conf = .update msgSize ∨
      Found (.recreate msgSize) x.conf)
    (hQ : ∀ b l, Writable Found msgSize x b l s → Le k l → Q x (true, b) l) :
    (protocol Found ι).Safe i Q (XsiSegment.takeWritable fuel x) k := by
  rw [XsiSegment.takeWritable]
  simp only [Protocol.safe_seq, XsiSegment.getNextWritableBlockIndex, Protocol.safe_get,
    Protocol.safe_pure]
  refine nextWritableFrom_safe x.conf.blockNum_pos fun n l hn hkl => hQ _ l ?_ hkl
  have hl := hx.of_le hkl
  have hconf := hl.conf
  refine ⟨hl, hconf ▸ hn, by simp [hx.blocks], ?_, hconf ▸ hsize⟩
  rw [← hconf]
  exact hx.bufs n hn

theorem acquireOpenedToWrite_safe {fuel msgSize s : Nat}
    {Q : XsiSegment → Bool × WritableBlock → Kernel → Prop} (hinit : x.init = true)
    (hx : Laid x s k)
    (hfalse : ∀ (y : XsiSegment) (l : Kernel), y.init = false → Le k l → Q y (false, {}) l)
    (htrue : ∀ y b s l, y.init = true → Writable Found msgSize y b l s → Le k l →
      Q y (true, b) l) :
    (protocol Found ι).Safe i Q (XsiSegment.acquireOpenedToWrite fuel msgSize x) k := by
  rw [XsiSegment.acquireOpenedToWrite]
  simp only [Protocol.safe_seq]
  have htake : ∀ (y : XsiSegment) (s : Nat) (l : Kernel), y.init = true → Laid y s l → Le k l →
      (msgSize ≤ y.conf.ceilingMsgSize ∨ y.conf = .update msgSize ∨
        Found (.recreate msgSize) y.conf) →
      (protocol Found ι).Safe i Q (XsiSegment.takeWritable fuel y) l :=
    fun y s l hy hlaid hkl hsize => takeWritable_safe hlaid hsize fun b m hb hlm =>
      htrue y b s m hy hb (hkl.trans hlm)
  refine remapIfNeeded_safe hinit hx (fun y l hy hkl => ?_) fun y s l hy hlaid hkl _ => ?_
  · refine recreateIfLarger_safe (fun _ => hfalse y l hy hkl) (fun z m hz hlm => ?_) ?_
    · exact hfalse z m hz (hkl.trans hlm)
    · exact fun z s m hz hlaid hlm hc => htake z s m hz hlaid (hkl.trans hlm) (.inr hc)
  · refine recreateIfLarger_safe (fun hle => htake y s l hy hlaid hkl (.inl hle)) ?_ ?_
    · exact fun z m hz hlm => hfalse z m hz (hkl.trans hlm)
    · exact fun z s m hz hlaid hlm hc => htake z s m hz hlaid (hkl.trans hlm) (.inr hc)

theorem acquireBlockToWrite_safe {fuel msgSize : Nat}
    {Q : XsiSegment → Bool × WritableBlock → Kernel → Prop} (hx : Opened x k)
    (hfalse : ∀ (y : XsiSegment) (l : Kernel), y.init = false → Le k l → Q y (false, {}) l)
    (htrue : ∀ y b s l, y.init = true → Writable Found msgSize y b l s → Le k l →
      Q y (true, b) l) :
    (protocol Found ι).Safe i Q (XsiSegment.acquireBlockToWrite fuel msgSize x) k := by
  rw [XsiSegment.acquireBlockToWrite, Protocol.safe_seq]
  refine safe_ensureOpen (fun hinit => ?_) fun hinit => ?_
  · obtain ⟨s, hlaid⟩ := hx hinit
    exact acquireOpenedToWrite_safe hinit hlaid hfalse htrue
  · refine openOrCreate_safe hinit hfalse fun y s l hy hlaid hkl _ => ?_
    exact acquireOpenedToWrite_safe hy hlaid (fun z m hz hlm => hfalse z m hz (hkl.trans hlm))
      fun z b s m hz hb hlm => htrue z b s m hz hb (hkl.trans hlm)

/-! ### A block to read -/

/-- The index is one of the mapped segment, or one that `Remap` is not to meet. -/
def Readable (Found : Site → ShmConf → Prop) (index : Nat) (k : Kernel) (s : Nat) : Prop :=
  index < (k.segments s).conf.blockNum ∨ Found (.remapToRead index) (k.segments s).conf

theorem tryReadFrom_safe {s index left : Nat} {lockNum : BitVec 32}
    {Q : XsiSegment → Bool → Kernel → Prop}
    (hpre : ∀ l, Le k l → x.managedShm = .mapped s ∧ Readable Found index l s)
    (hQ : ∀ b l, Le k l → Q x b l) :
    (protocol Found ι).Safe i Q (Block.tryReadFrom s index left lockNum x) k := by
  induction left generalizing lockNum k with
  | zero => exact hQ false k (Le.refl k)
  | succ left ih =>
      refine safe_tryReadFrom (unanswered_safe hpre fun exchanged l hkl =>
        ⟨fun _ => hQ true l hkl, fun _ => ⟨fun _ => hQ false l hkl, fun _ => ?_⟩⟩)
      refine unanswered_safe (fun m hlm => hpre m (hkl.trans hlm)) fun lockNum m hlm => ?_
      have hkm : Le k m := hkl.trans hlm
      refine ⟨fun _ => hQ false m hkm, fun _ => ih (fun n hmn => hpre n (hkm.trans hmn)) ?_⟩
      exact fun b n hmn => hQ b n (hkm.trans hmn)

theorem takeReadable_safe {s index : Nat} {Q : XsiSegment → Bool × ReadableBlock → Kernel → Prop}
    (hx : Laid x s k) (hindex : Readable Found index k s)
    (hfalse : ∀ b l, Le k l → Q x (false, b) l)
    (htrue : ∀ (b : ReadableBlock) (l : Kernel), Le k l → b.index = index →
      b.block = some (s, index) → Q x (true, b) l) :
    (protocol Found ι).Safe i Q (XsiSegment.takeReadable index x) k := by
  have hpre : ∀ l, Le k l → x.managedShm = .mapped s ∧ Readable Found index l s := fun l hkl => by
    rw [Readable, hkl.2 s hx.lt_count]
    exact ⟨hx.managedShm, hindex⟩
  refine safe_takeReadable (fun _ => trivial) fun t ht => ?_
  rw [hx.blocks] at ht
  cases ht
  simp only [Block.tryLockForRead, Protocol.safe_seq, Protocol.safe_ite, Protocol.safe_pure]
  refine unanswered_safe hpre fun lockNum l hkl =>
    ⟨fun _ => ⟨fun _ => hfalse _ l hkl, fun h => absurd h Bool.false_ne_true⟩, fun _ => ?_⟩
  refine tryReadFrom_safe (fun m hlm => hpre m (hkl.trans hlm)) fun locked m hlm => ?_
  exact ⟨fun _ => hfalse _ m (hkl.trans hlm), fun _ => htrue _ m (hkl.trans hlm) rfl rfl⟩

theorem acquireBlockToRead_safe {index : Nat}
    {Q : XsiSegment → Bool × ReadableBlock → Kernel → Prop} (hx : Opened x k)
    (hfalse : ∀ (y : XsiSegment) b (l : Kernel), Opened y l → Le k l → Q y (false, b) l)
    (htrue : ∀ (y : XsiSegment) (b : ReadableBlock) (s : Nat) (l : Kernel), Laid y s l →
      Readable Found index l s → b.index = index → b.block = some (s, index) → Le k l →
      Q y (true, b) l) :
    (protocol Found ι).Safe i Q (XsiSegment.acquireBlockToRead index x) k := by
  have htake : ∀ (y : XsiSegment) (s : Nat) (l : Kernel), Laid y s l → Readable Found index l s →
      Le k l → (protocol Found ι).Safe i Q (XsiSegment.takeReadable index y) l := by
    intro y s l hlaid hindex hkl
    refine takeReadable_safe hlaid hindex (fun b m hlm => ?_) fun b m hlm hi hb => ?_
    · exact hfalse y b m (fun _ => ⟨s, hlaid.of_le hlm⟩) (hkl.trans hlm)
    · refine htrue y b s m (hlaid.of_le hlm) ?_ hi hb (hkl.trans hlm)
      rw [Readable, hlm.2 s hlaid.lt_count]
      exact hindex
  -- the index is tested before `Remap`: what it is good for is the segment of that time
  have hopened : ∀ (y : XsiSegment) (s : Nat) (l : Kernel), y.init = true → Laid y s l → Le k l →
      (protocol Found ι).Safe i Q (XsiSegment.acquireOpenedToRead index y) l := by
    intro y s l hinit hlaid hkl
    rw [XsiSegment.acquireOpenedToRead]
    simp only [Protocol.safe_seq, Protocol.safe_get, Protocol.safe_ite]
    refine ⟨fun _ => hfalse y _ l (fun _ => ⟨s, hlaid⟩) hkl, fun hlt => ?_⟩
    refine remapIfNeeded_safe hinit hlaid (fun z m hz hlm => ?_) fun z t m hz hlaidz hlm hc => ?_
    · exact ⟨fun _ => hfalse z _ m (opened_of_init hz) (hkl.trans hlm), fun h => absurd rfl h⟩
    · refine ⟨by simp, fun _ => htake z t m hlaidz ?_ (hkl.trans hlm)⟩
      rw [Readable, ← hlaidz.conf]
      exact hc.imp_left fun hconf => by rw [hconf]; omega
  rw [XsiSegment.acquireBlockToRead, Protocol.safe_seq]
  refine safe_ensureOpen (fun hinit => ?_) fun hinit => ?_
  · obtain ⟨s, hlaid⟩ := hx hinit
    exact hopened x s k hinit hlaid (Le.refl k)
  · refine openOnly_safe hinit (fun y l hy hkl => ?_) fun y s l hy hlaid hkl _ => ?_
    · exact hfalse y _ l (opened_of_init hy) hkl
    · exact hopened y s l hy hlaid hkl

/-! ### The other functions -/

theorem decreaseFrom_safe {s fuel : Nat} {current : BitVec 32}
    {Q : XsiSegment → Unit → Kernel → Prop} (hQ : ∀ l, Le k l → Q x () l) :
    (protocol Found ι).Safe i Q (State.decreaseFrom s fuel current x) k := by
  induction fuel generalizing current k with
  | zero => trivial
  | succ fuel ih =>
      refine safe_decreaseFrom (fun _ => hQ k (Le.refl k)) fun _ => ?_
      refine unanswered_safe (fun _ _ => trivial) fun result l hkl => ?_
      exact ⟨fun _ => hQ l hkl, fun _ => ih fun m hlm => hQ m (hkl.trans hlm)⟩

theorem destroy_safe {fuel : Nat} {Q : XsiSegment → Bool → Kernel → Prop} (hx : Opened x k)
    (hQ : ∀ (y : XsiSegment) (b : Bool) (l : Kernel), Opened y l → Le k l → Q y b l) :
    (protocol Found ι).Safe i Q (XsiSegment.destroy fuel x) k := by
  refine safe_destroy (fun _ => hQ x _ k hx (Le.refl k)) (fun _ _ => trivial) fun _ _ _ => ?_
  refine unanswered_safe (fun _ _ => trivial) fun current l hkl => ?_
  refine decreaseFrom_safe fun m hlm => ?_
  refine unanswered_safe (fun _ _ => trivial) fun referenceCounts n hmn => ?_
  have hkn : Le k n := hkl.trans (hlm.trans hmn)
  refine ⟨fun _ => ?_, fun _ => hQ _ _ n (opened_of_init rfl) hkn⟩
  exact remove_safe fun b p hnp => hQ _ b p (opened_of_init rfl) (hkn.trans hnp)

theorem releaseWrittenBlock_safe {b : WritableBlock} {Q : XsiSegment → Unit → Kernel → Prop}
    (hQ : ∀ l, Le k l → Q x () l) :
    (protocol Found ι).Safe i Q (XsiSegment.releaseWrittenBlock b x) k :=
  safe_releaseWrittenBlock (fun _ => hQ k (Le.refl k)) (fun _ _ => trivial) fun _ _ _ =>
    unanswered_safe (fun _ _ => trivial) fun _ l hkl => hQ l hkl

theorem releaseReadBlock_safe {b : ReadableBlock} {Q : XsiSegment → Unit → Kernel → Prop}
    (hQ : ∀ l, Le k l → Q x () l) :
    (protocol Found ι).Safe i Q (XsiSegment.releaseReadBlock b x) k :=
  safe_releaseReadBlock (fun _ => hQ k (Le.refl k)) (fun _ _ => trivial) fun _ _ _ =>
    unanswered_safe (fun _ _ => trivial) fun _ l hkl => hQ l hkl

/-! ### Every run -/

/-- What the last call of a process has left. -/
def Answered (Fits : Nat → Prop) (Found : Site → ShmConf → Prop) (x : XsiSegment) (k : Kernel) :
    SegmentAnswer → Prop
  | .toWrite msgSize (true, b) => Fits msgSize ∧ ∃ s, Writable Found msgSize x b k s
  | .toRead index (true, b) => ∃ s, Laid x s k ∧ Readable Found index k s ∧ b.index = index ∧
      b.block = some (s, index)
  | _ => True

theorem Answered.of_le {Fits : Nat → Prop} {x : XsiSegment} {k l : Kernel} {a : SegmentAnswer}
    (h : Answered Fits Found x k a) (hkl : Le k l) : Answered Fits Found x l a := by
  match a, h with
  | .toWrite msgSize (true, b), h => exact ⟨h.1, h.2.imp fun s hs => hs.of_le hkl⟩
  | .toRead index (true, b), h =>
      obtain ⟨s, hlaid, hindex, hb⟩ := h
      refine ⟨s, hlaid.of_le hkl, ?_, hb⟩
      rw [Readable, hkl.2 s hlaid.lt_count]
      exact hindex
  | .toWrite msgSize (false, b), _ => trivial
  | .toRead index (false, b), _ => trivial
  | .constructed, _ => trivial
  | .released, _ => trivial
  | .destroyed b, _ => trivial

variable (Fits : Nat → Prop)

def Rest (Found : Site → ShmConf → Prop) (_ : ι) (x : XsiSegment) (a : SegmentAnswer)
    (k : Kernel) : Prop :=
  Opened x k ∧ Answered Fits Found x k a

def CallCond (_ : ι) : SegmentCall → XsiSegment → Kernel → Prop
  | .acquireBlockToWrite _ msgSize, _, _ => Fits msgSize
  | _, _, _ => True

variable {Fits}

theorem body_safe (i : ι) (c : SegmentCall) (x : XsiSegment) (a : SegmentAnswer) (k : Kernel)
    (hrest : Rest Fits Found i x a k) (hc : CallCond Fits i c x k) :
    (protocol Found ι).Safe i (Rest Fits Found i) (c.body x) k := by
  have hx : Opened x k := hrest.1
  cases c with
  | acquireBlockToWrite fuel msgSize =>
      refine Protocol.safe_seq.mpr (acquireBlockToWrite_safe hx (fun y l hy _ => ?_) ?_)
      · exact ⟨opened_of_init hy, trivial⟩
      · exact fun y b s l _ hb _ => ⟨fun _ => ⟨s, hb.laid⟩, hc, s, hb⟩
  | releaseWrittenBlock b =>
      exact Protocol.safe_seq.mpr
        (releaseWrittenBlock_safe fun l hkl => ⟨hx.of_le hkl, trivial⟩)
  | acquireBlockToRead index =>
      refine Protocol.safe_seq.mpr (acquireBlockToRead_safe hx (fun y b l hy _ => ⟨hy, trivial⟩) ?_)
      exact fun y b s l hlaid hindex hi hb _ => ⟨fun _ => ⟨s, hlaid⟩, s, hlaid, hindex, hi, hb⟩
  | releaseReadBlock b =>
      exact Protocol.safe_seq.mpr (releaseReadBlock_safe fun l hkl => ⟨hx.of_le hkl, trivial⟩)
  | destroy fuel =>
      exact Protocol.safe_seq.mpr (destroy_safe hx fun y b l hy _ => ⟨hy, trivial⟩)

end Protocol

section Runs

variable {ι : Type} [DecidableEq ι]

abbrev State (ι : Type) := Config sig ι XsiSegment SegmentAnswer Kernel

abbrev Step (ι : Type) := Event ι SegmentCall Bool

def start (ι : Type) (shmmax : Nat) : State ι :=
  Config.start (fun _ => {}) .constructed { shmmax }

def step : State ι → Step ι → State ι := Thread.step exec (fun _ _ k => k) SegmentCall.body

omit [DecidableEq ι] in
theorem holds_start (Fits : Nat → Prop) (Found : Site → ShmConf → Prop) (shmmax : Nat) :
    (protocol Found ι).Holds (Rest Fits Found) (start ι shmmax) where
  inv := nofun
  safe _ := ⟨opened_of_init rfl, trivial⟩

theorem holds_of_along {Fits : Nat → Prop} {Found : Site → ShmConf → Prop} {shmmax : Nat}
    {es : List (Step ι)}
    (hes : Run.Along step ((protocol Found ι).Meets (CallCond Fits)) (start ι shmmax) es) :
    ∀ t ∈ Run.states step (start ι shmmax) es, (protocol Found ι).Holds (Rest Fits Found) t := by
  refine Protocol.sound ?_ ?_ ?_ (holds_start Fits Found shmmax) hes
  · exact fun i x a k l h hkl _ => ⟨h.1.of_le hkl, h.2.of_le hkl⟩
  · exact fun i c x a k hk _ _ => ⟨hk, fun _ _ => Le.refl k⟩
  · exact fun i c x a k _ hrest hc => body_safe i c x a k hrest hc

/-! ### Room for the message -/

/-- `MessageInfo::kSize`: what `Transmit` writes behind the message. -/
def kSize : Nat := 2 * 8 + 8

/-- A process that got a block to write has room in it for the message and its
information, in the segment that it has mapped. -/
def RoomToWrite (t : State ι) : Prop :=
  ∀ i x msgSize b, t.threads i = .done x (.toWrite msgSize (true, b)) →
    ∃ s, x.managedShm = .mapped s ∧ b.index < (t.shared.segments s).conf.blockNum ∧
      b.block = some (s, b.index) ∧
      b.buf = some ⟨s, (t.shared.segments s).conf.bufOffset b.index⟩ ∧
      msgSize + kSize ≤ (t.shared.segments s).conf.blockBufSize

/-- The sizes that the largest blocks have room for. -/
def FitsLargest (msgSize : Nat) : Prop :=
  msgSize + kSize ≤ (ShmConf.update msgSize).blockBufSize

/-- The segment that `Recreate` falls back on has room for the message. -/
def FoundLarger (site : Site) (c : ShmConf) : Prop :=
  ∀ msgSize, site = .recreate msgSize → msgSize + kSize ≤ c.blockBufSize

def WriteCondition (cfg : State ι) (e : Step ι) : Prop :=
  (protocol FoundLarger ι).Meets (CallCond FitsLargest) cfg e

theorem fits_of_le {c : ShmConf} {msgSize : Nat} (h : msgSize ≤ c.ceilingMsgSize) :
    msgSize + kSize ≤ c.blockBufSize := by
  have hkSize : kSize ≤ ShmConf.messageInfoSize := by decide
  show msgSize + kSize ≤ c.ceilingMsgSize + ShmConf.messageInfoSize
  omega

theorem roomToWrite {shmmax : Nat} {es : List (Step ι)}
    (hes : Run.Along step WriteCondition (start ι shmmax) es) :
    ∀ t ∈ Run.states step (start ι shmmax) es, RoomToWrite t := by
  intro t ht i x msgSize b hi
  obtain ⟨_, hfits, s, hb⟩ := (holds_of_along hes t ht).rest hi
  refine ⟨s, hb.laid.managedShm, hb.index, hb.block, hb.buf, ?_⟩
  rcases hb.size with hle | hconf | hfound
  · exact fits_of_le hle
  · rw [hconf]
    exact hfits
  · exact hfound msgSize rfl

end Runs

/-- A process that finds no segment acquires a block for a message of this size. -/
def firstWrite (i msgSize : Nat) : List (Step Nat) :=
  .call i (.acquireBlockToWrite 1 msgSize) :: List.replicate 9 (.act i true)

theorem roomToWrite_firstWrite :
    RoomToWrite (Run.exec step (start Nat (2 ^ 32)) (firstWrite 0 8)) := by
  refine roomToWrite ?_ _ (Run.exec_mem_states _ _ _)
  refine ⟨?_, ?_⟩
  · intro x a _
    show 8 + kSize ≤ (ShmConf.update 8).blockBufSize
    decide
  · refine ⟨?_, ?_, ?_, ?_, ?_, ?_, ?_, ?_, ?_, trivial⟩ <;> intro x o k hi <;> cases hi
    all_goals first | trivial | exact ⟨rfl, nofun⟩

/-- A message above the largest ceiling: `Recreate` makes the largest blocks there are. -/
def largeWrite : List (Step Nat) :=
  .call 0 (.acquireBlockToWrite 1 (ShmConf.messageSizeMore + 1001)) ::
    List.replicate 19 (.act 0 true)

theorem blockBufSize_le (c : ShmConf) : c.blockBufSize ≤ ShmConf.messageSizeMore + 1024 := by
  rw [ShmConf.blockBufSize]
  rcases c.ceilings with h | h | h | h | h | h <;> rw [h] <;> decide

theorem largeWrite_not_roomToWrite :
    ¬ ∀ es, ∀ t ∈ Run.states step (start Nat (2 ^ 32)) es, RoomToWrite t := by
  intro h
  have hanswer : ∃ x b, (Run.exec step (start Nat (2 ^ 32)) largeWrite).threads 0 =
      .done x (.toWrite (ShmConf.messageSizeMore + 1001) (true, b)) := ⟨_, _, rfl⟩
  obtain ⟨x, b, hi⟩ := hanswer
  obtain ⟨s, _, _, _, _, hsize⟩ :=
    h largeWrite _ (Run.exec_mem_states step _ largeWrite) 0 x _ b hi
  have hle := blockBufSize_le
    ((Run.exec step (start Nat (2 ^ 32)) largeWrite).shared.segments s).conf
  have hkSize : kSize = 24 := rfl
  omega

section Runs

variable {ι : Type} [DecidableEq ι]

/-! ### The index of a block that is read -/

/-- A process locks, and gets, a block to read only where its index is one of the
segment that it has mapped. -/
structure IndexInRange (t : State ι) : Prop where
  load : ∀ i x s index k, t.threads i = .call x (.loadLockNum s index) k →
    x.managedShm = .mapped s ∧ index < (t.shared.segments s).conf.blockNum
  exchange : ∀ i x s index expected left k,
    t.threads i = .call x (.exchangeLockNum s index expected left) k →
      x.managedShm = .mapped s ∧ index < (t.shared.segments s).conf.blockNum
  acquired : ∀ i x index b, t.threads i = .done x (.toRead index (true, b)) →
    ∃ s, x.managedShm = .mapped s ∧ index < (t.shared.segments s).conf.blockNum ∧
      b.index = index ∧ b.block = some (s, index)

/-- The segment that `Remap` finds has a block of the index that is to be read. -/
def FoundIndex (site : Site) (c : ShmConf) : Prop :=
  ∀ index, site = .remapToRead index → index < c.blockNum

def ReadCondition (cfg : State ι) (e : Step ι) : Prop :=
  (protocol FoundIndex ι).Meets (CallCond fun _ => True) cfg e

omit [DecidableEq ι] in
theorem readable_iff {index : Nat} {k : Kernel} {s : Nat} :
    Readable FoundIndex index k s ↔ index < (k.segments s).conf.blockNum :=
  ⟨fun h => h.elim id fun h => h index rfl, .inl⟩

theorem indexInRange {shmmax : Nat} {es : List (Step ι)}
    (hes : Run.Along step ReadCondition (start ι shmmax) es) :
    ∀ t ∈ Run.states step (start ι shmmax) es, IndexInRange t := by
  intro t ht
  have hholds := holds_of_along hes t ht
  refine ⟨fun i x s index k hi => ?_, fun i x s index expected left k hi => ?_,
    fun i x index b hi => ?_⟩
  · exact (hholds.pre hi).imp_right readable_iff.mp
  · exact (hholds.pre hi).imp_right readable_iff.mp
  · obtain ⟨_, s, hlaid, hindex, hb⟩ := hholds.rest hi
    exact ⟨s, hlaid.managedShm, readable_iff.mp hindex, hb⟩

end Runs

/-- Process 1 reads block 300 of the segment that process 0 has made. -/
def readBlock : List (Step Nat) :=
  firstWrite 0 8 ++ .call 1 (.acquireBlockToRead 300) :: List.replicate 7 (.act 1 true)

theorem indexInRange_readBlock :
    IndexInRange (Run.exec step (start Nat (2 ^ 32)) readBlock) := by
  refine indexInRange ?_ _ (Run.exec_mem_states _ _ _)
  refine ⟨fun x a _ => trivial, ?_⟩
  refine ⟨?_, ?_, ?_, ?_, ?_, ?_, ?_, ?_, ?_, fun x a _ => trivial, ?_, ?_, ?_, ?_, ?_, ?_, ?_,
    trivial⟩ <;> intro x o k hi <;> cases hi
  all_goals first | trivial | exact ⟨rfl, nofun⟩

/-- Process 0 then writes 20 MB, for which it makes a segment of eight blocks, and process 1
is told of block 300 once more. -/
def shrunkRead : List (Step Nat) :=
  readBlock ++
    .call 0 (.acquireBlockToWrite 1 (20 * 1024 * 1024)) :: List.replicate 13 (.act 0 true) ++
      .call 1 (.acquireBlockToRead 300) :: List.replicate 6 (.act 1 true)

theorem shrunkRead_not_indexInRange :
    ¬ ∀ es, ∀ t ∈ Run.states step (start Nat (2 ^ 32)) es, IndexInRange t := by
  intro h
  have hlock : ∃ x k, (Run.exec step (start Nat (2 ^ 32)) shrunkRead).threads 1 =
      .call x (.loadLockNum 1 300) k := ⟨_, _, rfl⟩
  obtain ⟨x, k, hi⟩ := hlock
  have hindex :=
    ((h shrunkRead _ (Run.exec_mem_states step _ shrunkRead)).load 1 x 1 300 k hi).2
  have hnum : ((Run.exec step (start Nat (2 ^ 32)) shrunkRead).shared.segments 1).conf.blockNum =
      8 := by decide
  omega

end Layout
end Shm
end Transport
end Cmw
