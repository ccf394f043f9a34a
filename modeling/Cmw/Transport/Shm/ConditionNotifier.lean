import Cmw.Transport.Shm.Kernel

/-!
# The condition notifier

transport/shm/condition_notifier.cpp.  Processes share an `Indicator`, in which a
notification is written to the slot of its number, and a listener polls the slot of
the number that it expects next.  The indicator exists, and nobody shuts down.

What a run is about is kept in a history: every notification by its number, who has
written a slot last, and what a listener has taken.
-/

namespace Cmw
namespace Transport
namespace Notifier

open Shm (ReadableInfo)
open Library.Thread

def kBufLength : Nat := 4096

structure Indicator where
  nextSeq : BitVec 64 := 0
  infos : Nat → ReadableInfo := fun _ => {}
  seqs : Nat → BitVec 64 := fun _ => 0

inductive Op
  /-- the load of the constructor -/
  | firstNextSeq
  | fetchAddNextSeq
  | setInfo (idx : Nat) (info : ReadableInfo)
  | setSeq (idx : Nat) (seq : BitVec 64)
  | nextSeq
  | seq (idx : Nat)
  | info (idx : Nat)

@[reducible] def Ans : Op → Type
  | .firstNextSeq => BitVec 64
  | .fetchAddNextSeq => BitVec 64
  | .nextSeq => BitVec 64
  | .seq _ => BitVec 64
  | .info _ => ReadableInfo
  | _ => Unit

@[reducible] def sig : Sig := { Op, Ans }

def Indicator.exec (d : Indicator) : (o : Op) → Ans o × Indicator
  | .firstNextSeq => (d.nextSeq, d)
  | .fetchAddNextSeq => (d.nextSeq, { d with nextSeq := d.nextSeq + 1 })
  | .setInfo idx info => ((), { d with infos := Function.update d.infos idx info })
  | .setSeq idx seq => ((), { d with seqs := Function.update d.seqs idx seq })
  | .nextSeq => (d.nextSeq, d)
  | .seq idx => (d.seqs idx, d)
  | .info idx => (d.infos idx, d)

structure ConditionNotifier where
  /-- `next_seq_`, once it is constructed -/
  nextSeq : Option (BitVec 64) := none

abbrev NotifierCode := Code sig ConditionNotifier

open Code (ask deref)

def Op.get (o : Op) : NotifierCode (Ans o) := ask (S := sig) o

namespace ConditionNotifier

/-- `Instance()`, which constructs a notifier once. -/
def construct : NotifierCode Unit := do
  let x ← get
  if x.nextSeq.isSome then pure ()
  else do
    let seq ← Op.firstNextSeq.get
    modify fun x => { x with nextSeq := some seq }

def notify (info : ReadableInfo) : NotifierCode Bool := do
  let seq ← Op.fetchAddNextSeq.get
  let idx := seq.toNat % kBufLength
  (Op.setInfo idx info).get
  (Op.setSeq idx seq).get
  pure true

/-- The slot of `next`, where something new has been notified. -/
def take (next : BitVec 64) : NotifierCode (Option ReadableInfo) := do
  let idx := next.toNat % kBufLength
  let actual ← (Op.seq idx).get
  if actual ≥ next then do
    modify fun x => { x with nextSeq := some actual }
    let info ← (Op.info idx).get
    modify fun x => { x with nextSeq := x.nextSeq.map (· + 1) }
    pure (some info)
  else pure none

/-- A round of the loop of `Listen`. -/
def poll : NotifierCode (Option ReadableInfo) := do
  let seq ← Op.nextSeq.get
  let x ← get
  let next ← deref x.nextSeq
  if seq ≠ next then take next else pure none

/-- `Listen`, which sleeps `left` times: what it leaves in `info` where it returns true. -/
def listen : Nat → NotifierCode (Option ReadableInfo)
  | 0 => poll
  | left + 1 => do
      let info ← poll
      if info.isSome then pure info else listen left

end ConditionNotifier

inductive Call
  | construct
  | notify (info : ReadableInfo)
  | listen (left : Nat)

inductive Answer
  | constructed
  | notified (result : Bool)
  | listened (info : Option ReadableInfo)

def Call.body : Call → NotifierCode Answer
  | construct => do
      ConditionNotifier.construct
      pure .constructed
  | notify info => do
      let result ← ConditionNotifier.notify info
      pure (.notified result)
  | listen left => do
      let info ← ConditionNotifier.listen left
      pure (.listened info)

/-! ### What is kept of a run -/

/-- What a listener takes from a slot. -/
structure Receipt where
  /-- the number that it expected -/
  cursor : Nat
  number : Nat
  /-- how many notifications there had been when it read the number -/
  issued : Nat

/-- What the history keeps of one process. -/
structure Own where
  request : ReadableInfo := {}
  /-- the number of the notification that it has issued last -/
  ticket : Nat := 0
  /-- the number that it expected first -/
  since : Nat := 0
  /-- the number that it expects -/
  cursor : Nat := 0
  /-- the number that it has read, and not yet the information with it -/
  taking : Option Receipt := none
  returned : List (Receipt × ReadableInfo) := []

structure History (ι : Type) where
  own : ι → Own := fun _ => {}
  /-- every notification, at the place of its number -/
  issued : List ReadableInfo := []
  /-- the number with which the information of a slot was written last -/
  infoBy : Nat → Option Nat := fun _ => none
  /-- the number with which the number of a slot was written last -/
  seqBy : Nat → Option Nat := fun _ => none
  /-- the numbers of the notifications that have been written to their slots -/
  written : List Nat := []
  /-- who has once been more than `kBufLength` notifications behind -/
  lagged : ι → Bool := fun _ => false

variable {ι : Type} [DecidableEq ι]

def History.setOwn (h : History ι) (i : ι) (o : Own) : History ι :=
  { h with own := Function.update h.own i o }

/-- A listener that expects the number of its cursor reads `seq`. -/
def Own.look (o : Own) (issued : Nat) (seq : Nat) : Own :=
  { o with taking := if o.cursor ≤ seq then some ⟨o.cursor, seq, issued⟩ else none }

def Own.receive (o : Own) (info : ReadableInfo) : Own :=
  match o.taking with
  | some r =>
      { o with cursor := r.number + 1, taking := none, returned := o.returned ++ [(r, info)] }
  | none => o

def note (i : ι) : (o : Op) → Ans o → History ι → History ι
  | .firstNextSeq, seq, h =>
      { h.setOwn i { h.own i with since := seq.toNat, cursor := seq.toNat } with
        lagged := Function.update h.lagged i false }
  | .fetchAddNextSeq, _, h =>
      { h.setOwn i { h.own i with ticket := h.issued.length } with
        issued := h.issued ++ [(h.own i).request]
        lagged := fun j =>
          h.lagged j || decide ((h.own j).cursor + kBufLength < h.issued.length + 1) }
  | .setInfo idx _, _, h =>
      { h with infoBy := Function.update h.infoBy idx (some (h.own i).ticket) }
  | .setSeq idx _, _, h =>
      { h with
        seqBy := Function.update h.seqBy idx (some (h.own i).ticket)
        written := (h.own i).ticket :: h.written }
  | .seq _, seq, h => h.setOwn i ((h.own i).look h.issued.length seq.toNat)
  | .info _, info, h => h.setOwn i ((h.own i).receive info)
  | .nextSeq, _, h => h

abbrev Shared (ι : Type) := Indicator × History ι

def exec (i : ι) (o : Op) (_ : Unit) (k : Shared ι) : Ans o × Shared ι :=
  noting (S := sig) (fun o _ d => Indicator.exec d o) note i o () k

@[simp] theorem own_firstNextSeq (i : ι) (k : Shared ι) :
    (exec i .firstNextSeq () k).2.2.own i =
      { k.2.own i with since := k.1.nextSeq.toNat, cursor := k.1.nextSeq.toNat } :=
  Function.update_self ..

@[simp] theorem own_fetchAddNextSeq (i : ι) (k : Shared ι) :
    (exec i .fetchAddNextSeq () k).2.2.own i =
      { k.2.own i with ticket := k.2.issued.length } :=
  Function.update_self ..

@[simp] theorem own_seq (i : ι) (idx : Nat) (k : Shared ι) :
    (exec i (.seq idx) () k).2.2.own i =
      (k.2.own i).look k.2.issued.length (k.1.seqs idx).toNat :=
  Function.update_self ..

@[simp] theorem own_info (i : ι) (idx : Nat) (k : Shared ι) :
    (exec i (.info idx) () k).2.2.own i = (k.2.own i).receive (k.1.infos idx) :=
  Function.update_self ..

theorem Own.look_of_le {o : Own} {issued seq : Nat} (h : o.cursor ≤ seq) :
    o.look issued seq = { o with taking := some ⟨o.cursor, seq, issued⟩ } := by
  rw [look, if_pos h]

theorem Own.look_of_lt {o : Own} {issued seq : Nat} (h : seq < o.cursor) :
    o.look issued seq = { o with taking := none } := by
  rw [look, if_neg (Nat.not_le.mpr h)]

theorem Own.receive_of_taking {o : Own} {r : Receipt} (h : o.taking = some r)
    (info : ReadableInfo) : o.receive info =
      { o with cursor := r.number + 1, taking := none, returned := o.returned ++ [(r, info)] } := by
  rw [receive, h]

abbrev State (ι : Type) := Config sig ι ConditionNotifier Answer (Shared ι)

abbrev Step (ι : Type) := Event ι Call Unit

/-- A fresh indicator, and nobody has a notifier yet. -/
def start (ι : Type) : State ι := Config.start (fun _ => {}) .constructed ({}, {})

end Notifier
end Transport
end Cmw
