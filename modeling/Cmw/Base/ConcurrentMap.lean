import Cmw.Base.AtomicHashMap
import Cmw.Library.Heap
import Cmw.Library.Linked
import Cmw.Library.Sequential
import Cmw.Library.Thread

/-!
# The hash map, as many threads use it

base/atmoic_hash_map.h, in its atomic steps.  Entries and values are in memory that is
allocated and freed, and may be used again; who touches what is free dies.  The entry
`head_` of bucket `b` is at `b`.

The history keeps the calls in the order in which they take effect, the lists of the
buckets, and who owns what is not in them.
-/

namespace Cmw
namespace Base
namespace Concurrent

open AtomicHashMap (index)
open Library
open Library.Thread

structure Entry (K : Type) where
  key : K
  valuePtr : Option Nat := none
  next : Option Nat := none

/-- A pointer to an entry is never compared with one to a value: each has cells of its own. -/
structure Memory (K V : Type) where
  entries : Heap (Entry K)
  values : Heap V

inductive Op (K V : Type)
  | loadNext (e : Nat)
  | key (e : Nat)
  | loadValue (e : Nat)
  | read (p : Nat)
  | newValue (value : V)
  | newEntry (key : K) (p : Nat)
  | storeNext (e : Nat) (next : Option Nat)
  | casNext (e : Nat) (expected : Option Nat) (desired : Nat)
  | casValue (e : Nat) (expected : Option Nat) (desired : Nat)
  | deleteValue (p : Nat)
  | deleteEntry (e : Nat)

/-- What an operation yields, on memory that is not free. -/
@[reducible] def Yield {K V : Type} : Op K V → Type
  | .loadNext _ => Option Nat
  | .key _ => K
  | .loadValue _ => Option Nat
  | .read _ => V
  | .newValue _ => Nat
  | .newEntry _ _ => Nat
  | .storeNext _ _ => Unit
  | .casNext _ _ _ => Bool
  | .casValue _ _ _ => Bool
  | .deleteValue _ => Unit
  | .deleteEntry _ => Unit

@[reducible] def sig (K V : Type) : Sig := { Op := Op K V, Ans := fun o => Option (Yield o) }

section Exec

variable {K V : Type}

/-- `compare_exchange_strong` on a field of an entry -/
def Memory.exchange (s : Memory K V) (e : Nat) (field : Entry K → Option Nat)
    (expected : Option Nat) (put : Entry K → Entry K) : Option Bool × Memory K V :=
  match s.entries.cell e with
  | none => (none, s)
  | some entry =>
      if field entry = expected then (some true, { s with entries := s.entries.modify e put })
      else (some false, s)

/-- The allocator takes the free cell `x`, or another one where it is not free. -/
def exec : (o : Op K V) → Nat → Memory K V → Option (Yield o) × Memory K V
  | .loadNext e, _, s => ((s.entries.cell e).map Entry.next, s)
  | .key e, _, s => ((s.entries.cell e).map Entry.key, s)
  | .loadValue e, _, s => ((s.entries.cell e).map Entry.valuePtr, s)
  | .read p, _, s => (s.values.cell p, s)
  | .newValue value, x, s => (some (s.values.place x), { s with values := s.values.alloc x value })
  | .newEntry key p, x, s =>
      (some (s.entries.place x),
        { s with entries := s.entries.alloc x { key, valuePtr := some p } })
  | .storeNext e next, _, s =>
      ((s.entries.cell e).map fun _ => (),
        { s with entries := s.entries.modify e fun entry => { entry with next } })
  | .casNext e expected desired, _, s =>
      s.exchange e Entry.next expected fun entry => { entry with next := some desired }
  | .casValue e expected desired, _, s =>
      s.exchange e Entry.valuePtr expected fun entry => { entry with valuePtr := some desired }
  | .deleteValue p, _, s =>
      ((s.values.cell p).map fun _ => (), { s with values := s.values.delete p })
  | .deleteEntry e, _, s =>
      ((s.entries.cell e).map fun _ => (), { s with entries := s.entries.delete e })

end Exec

/-! ### The functions -/

section Functions

variable {K V : Type} [LinearOrder K]

abbrev MapCode (K V : Type) := Code (sig K V) Unit

open Code (ask deref hang)

def Op.get (o : Op K V) : MapCode K V (Yield o) := do
  let x ← ask (S := sig K V) o
  deref x

/-- The loop of `Has`. -/
def hasFrom (key : K) : Nat → Option Nat → MapCode K V Bool
  | 0, _ => hang
  | _ + 1, none => pure false
  | left + 1, some target => do
      let k ← (Op.key target).get
      if k < key then do
        let next ← (Op.loadNext target).get
        hasFrom key left next
      else pure (k == key)

def has (left head : Nat) (key : K) : MapCode K V Bool := do
  let target ← (Op.loadNext head).get
  hasFrom key left target

/-- The loop of `Find`: what it returns, `*prev_ptr` and `*target_ptr`. -/
def findFrom (key : K) : Nat → Nat → Option Nat → MapCode K V (Bool × Nat × Option Nat)
  | 0, _, _ => hang
  | _ + 1, prev, none => pure (false, prev, none)
  | left + 1, prev, some target => do
      let k ← (Op.key target).get
      if k = key then pure (true, prev, some target)
      else if key < k then pure (false, prev, some target)
      else do
        let next ← (Op.loadNext target).get
        findFrom key left target next

def find (left head : Nat) (key : K) : MapCode K V (Bool × Nat × Option Nat) := do
  let target ← (Op.loadNext head).get
  findFrom key left head target

/-- `delete` of a value; a null pointer is not followed. -/
def deleteValue : Option Nat → MapCode K V Unit
  | none => pure ()
  | some p => (Op.deleteValue p).get

/-- `delete` of an entry, with the value that `~Entry` deletes. -/
def deleteEntry : Option Nat → MapCode K V Unit
  | none => pure ()
  | some e => do
      let p ← (Op.loadValue e).get
      deleteValue p
      (Op.deleteEntry e).get

/-- `new_value`, where there is none; `after` is what is left of the argument that it is made of. -/
def makeValue (after : V → V) (value : V) : Option Nat → MapCode K V (Nat × V)
  | some p => pure (p, value)
  | none => do
      let p ← (Op.newValue value).get
      pure (p, after value)

/-- `new_entry`, where there is none: the argument has a name, and is copied by all of them. -/
def makeEntry (key : K) (value : V) : Option Nat → MapCode K V Nat
  | some e => pure e
  | none => do
      let p ← (Op.newValue value).get
      (Op.newEntry key p).get

/-- The loop of the three `Insert`. -/
def insertFrom (after : V → V) (bound head : Nat) (key : K) :
    Nat → V → Option Nat → Option Nat → MapCode K V Unit
  | 0, _, _, _ => hang
  | left + 1, value, newEntry, newValue => do
      let (found, prev, target) ← find bound head key
      if found then do
        let target ← deref target
        let (p, rest) ← makeValue after value newValue
        let old ← (Op.loadValue target).get
        let swapped ← (Op.casValue target old p).get
        if swapped then do
          deleteValue old
          deleteEntry newEntry
        else insertFrom after bound head key left rest newEntry (some p)
      else do
        let e ← makeEntry key value newEntry
        (Op.storeNext e target).get
        let swapped ← (Op.casNext prev target e).get
        if swapped then deleteValue newValue
        else insertFrom after bound head key left value (some e) newValue

/-- `Insert(key)`: every value is made by `V()`. -/
def insertDefault [Inhabited V] (left head : Nat) (key : K) : MapCode K V Unit :=
  insertFrom id left head key left default none none

/-- `Insert(key, const V &value)` -/
def insertCopy (left head : Nat) (key : K) (value : V) : MapCode K V Unit :=
  insertFrom id left head key left value none none

/-- `Insert(key, V &&value)`: `moved` is what a move leaves of a value. -/
def insertMove (moved : V → V) (left head : Nat) (key : K) (value : V) : MapCode K V Unit :=
  insertFrom moved left head key left value none none

/-- `Get(key, &value)` of a bucket: `*value`, where it returns true. -/
def getPtr (left head : Nat) (key : K) : MapCode K V (Option (Option Nat)) := do
  let (found, _, target) ← find left head key
  if found then do
    let target ← deref target
    let p ← (Op.loadValue target).get
    pure (some p)
  else pure none

/-- `Get(key, V *value)`, which copies what the pointer points to. -/
def get (left head : Nat) (key : K) : MapCode K V (Option V) := do
  let res ← getPtr left head key
  match res with
  | none => pure none
  | some val => do
      let val ← deref val
      let value ← (Op.read val).get
      pure (some value)

end Functions

/-! ### Calls, and what they do one after another -/

section Requests

variable {K V : Type}

inductive Request (K V : Type)
  | has (key : K)
  | get (key : K)
  | getPtr (key : K)
  | set (key : K)
  | setCopy (key : K) (value : V)
  | setMove (key : K) (value : V)

inductive Answer (V : Type)
  | constructed
  | has (found : Bool)
  | got (value : Option V)
  | pointer (value : Option (Option Nat))
  | set

def Request.key : Request K V → K
  | has key | get key | getPtr key | set key | setCopy key _ | setMove key _ => key

/-- What a `Set` puts in the map. -/
def Request.value [Inhabited V] : Request K V → Option V
  | set _ => some default
  | setCopy _ value | setMove _ value => some value
  | _ => none

/-- What is answered as soon as the key is found. -/
def Request.found : Request K V → Option (Answer V)
  | has _ => some (.has true)
  | _ => none

/-- What is answered as soon as the key is found to be missing. -/
def Request.missing : Request K V → Option (Answer V)
  | has _ => some (.has false)
  | get _ | getPtr _ => some (.got none)
  | _ => none

/-- What is answered as soon as the value is found. -/
def Request.sees (value : V) : Request K V → Option (Answer V)
  | get _ | getPtr _ => some (.got (some value))
  | _ => none

/-- A finite map: it starts empty, and each `Set` changes one key. -/
def finiteMap (K V : Type) [DecidableEq K] [Inhabited V] :
    SeqObject (K → Option V) (Request K V) (Answer V) where
  start _ := none
  apply
    | .has key, f => (.has (f key).isSome, f)
    | .get key, f | .getPtr key, f => (.got (f key), f)
    | .set key, f => (.set, Function.update f key (some default))
    | .setCopy key value, f | .setMove key value, f => (.set, Function.update f key (some value))

variable [Integral K] [Inhabited V]

/-- The hash map as one thread uses it. -/
def oneThread (K V : Type) [Integral K] [Inhabited V] (m : Nat) :
    SeqObject (AtomicHashMap K V m) (Request K V) (Answer V) where
  start := {}
  apply
    | .has key, h => (.has (h.has key), h)
    | .get key, h | .getPtr key, h => (.got (h.get key), h)
    | .set key, h => (.set, h.set key default)
    | .setCopy key value, h | .setMove key value, h => (.set, h.set key value)

omit [Inhabited V] in
theorem get_set_eq_update {m : Nat} (h : AtomicHashMap K V m) (key : K) (value : V) :
    (h.set key value).get = Function.update h.get key (some value) := by
  funext k
  rw [AtomicHashMap.get_set, Function.update_apply]

/-- It is a finite map. -/
theorem oneThread_legal_iff (m : Nat) (log : List (Request K V × Answer V)) :
    (oneThread K V m).Legal log ↔ (finiteMap K V).Legal log := by
  refine SeqObject.legal_iff_of_map (f := AtomicHashMap.get) rfl (fun q h => ?_) log
  cases q with
  | has key => exact congrArg (fun b => (Answer.has b, h.get)) (h.has_eq key).symm
  | get key => rfl
  | getPtr key => rfl
  | set key => exact congrArg (Prod.mk _) (get_set_eq_update h key default).symm
  | setCopy key value => exact congrArg (Prod.mk _) (get_set_eq_update h key value).symm
  | setMove key value => exact congrArg (Prod.mk _) (get_set_eq_update h key value).symm

/-- A call, with a bound on the rounds of its loops. -/
structure Call (K V : Type) where
  left : Nat
  request : Request K V

/-- The functions of the table; the key chooses the bucket. -/
def Call.body (moved : V → V) (m : Nat) (c : Call K V) : MapCode K V (Answer V) :=
  match c.request with
  | .has key => do
      let found ← Concurrent.has c.left (index m key) key
      pure (.has found)
  | .get key => do
      let value ← Concurrent.get c.left (index m key) key
      pure (.got value)
  | .getPtr key => do
      let value ← Concurrent.getPtr c.left (index m key) key
      pure (.pointer value)
  | .set key => do
      insertDefault c.left (index m key) key
      pure .set
  | .setCopy key value => do
      insertCopy c.left (index m key) key value
      pure .set
  | .setMove key value => do
      insertMove moved c.left (index m key) key value
      pure .set

end Requests

/-! ### What is kept of a run -/

/-- What the history keeps of one thread. -/
structure Own (K V : Type) where
  /-- what it has been called with, the last call first -/
  requests : List (Request K V) := []
  /-- what the last call answers, once it has taken effect -/
  effect : Option (Answer V) := none
  /-- where the last `Get` has found its value, and the value; until it has copied it -/
  seen : Option (Nat × V) := none

/-- Who owns a value: a thread, or an entry. -/
inductive Owner (ι : Type)
  | thread (i : ι)
  | entry (e : Nat)

structure History (ι K V : Type) where
  /-- the calls that have taken effect, the last one first -/
  log : List (ι × Request K V × Answer V) := []
  own : ι → Own K V := fun _ => {}
  /-- the list of each bucket, from its head -/
  nodes : Nat → List Nat := fun b => [b]
  owner : Nat → Owner ι := fun _ => .entry 0
  /-- whose entry it is, if it is not in a list -/
  holder : Nat → Option ι := fun _ => none

section History

variable {ι K V : Type} [DecidableEq ι]

def History.setOwn (h : History ι K V) (i : ι) (o : Own K V) : History ι K V :=
  { h with own := Function.update h.own i o }

/-- The call `q` of thread `i` takes effect, where it has an answer. -/
def History.take (i : ι) (q : Request K V) (a : Option (Answer V)) (h : History ι K V) :
    History ι K V :=
  match a with
  | some a => { h.setOwn i { h.own i with effect := some a } with log := (i, q, a) :: h.log }
  | none => h

/-- Thread `i` has put something in the map. -/
def History.put (i : ι) (h : History ι K V) : History ι K V :=
  match (h.own i).requests.head? with
  | some q => h.take i q (some .set)
  | none => h

/-- Thread `i` has loaded the pointer `p` to a value. -/
def History.see (i : ι) (p : Nat) (value : V) (h : History ι K V) : History ι K V :=
  match (h.own i).requests.head? with
  | some q =>
      match q.sees value with
      | some a =>
          { h.setOwn i { h.own i with effect := some a, seen := some (p, value) } with
            log := (i, q, a) :: h.log }
      | none => h
  | none => h

variable [Integral K]

/-- Thread `i` has loaded a pointer to an entry, or a null pointer, and knows from it whether
the key is there. -/
def History.reach (i : ι) (target : Option (Entry K)) (h : History ι K V) : History ι K V :=
  match (h.own i).requests.head? with
  | some q =>
      match target with
      | none => h.take i q q.missing
      | some entry =>
          if entry.key < q.key then h
          else if entry.key = q.key then h.take i q q.found
          else h.take i q q.missing
  | none => h

/-- The entry `e` is in the list of its bucket, behind `prev`. -/
def History.link (m : Nat) (i : ι) (prev e : Nat) (h : History ι K V) : History ι K V :=
  match (h.own i).requests.head? with
  | some q =>
      let b := index m q.key
      { h with
        nodes := Function.update h.nodes b (Linked.insertAfter prev e (h.nodes b))
        holder := Function.update h.holder e none }
  | none => h

/-- The entry `e` has another value, and thread `i` has the one that it had. -/
def History.replace (i : ι) (e new : Nat) (old : Option Nat) (h : History ι K V) :
    History ι K V :=
  match old with
  | some p =>
      { h with
        owner := Function.update (Function.update h.owner p (.thread i)) new (.entry e) }
  | none => h

/-- What an operation adds to the history; `s` is the memory before it. -/
def note (m : Nat) (i : ι) (s : Memory K V) : (o : Op K V) → Option (Yield o) → History ι K V →
    History ι K V
  | .loadNext _, some next, h => h.reach i (next.bind s.entries.cell)
  | .loadValue _, some (some p), h =>
      match s.values.cell p with
      | some value => h.see i p value
      | none => h
  | .read _, _, h => h.setOwn i { h.own i with seen := none }
  | .newValue _, some p, h => { h with owner := Function.update h.owner p (.thread i) }
  | .newEntry _ p, some e, h =>
      { h with
        owner := Function.update h.owner p (.entry e)
        holder := Function.update h.holder e (some i) }
  | .casNext prev _ e, some true, h => (h.link m i prev e).put i
  | .casValue e old new, some true, h => (h.replace i e new old).put i
  | _, _, h => h

abbrev Shared (ι K V : Type) := Memory K V × History ι K V

def noted (m : Nat) (i : ι) (o : Op K V) (x : Nat) (k : Shared ι K V) :
    Option (Yield o) × Shared ι K V :=
  ((exec o x k.1).1, (exec o x k.1).2, note m i k.1 o (exec o x k.1).1 k.2)

def enter (i : ι) (c : Call K V) (k : Shared ι K V) : Shared ι K V :=
  (k.1, k.2.setOwn i { requests := c.request :: (k.2.own i).requests })

abbrev State (ι K V : Type) := Config (sig K V) ι Unit (Answer V) (Shared ι K V)

abbrev Step (ι K V : Type) := Event ι (Call K V) Nat

def step [Inhabited V] (moved : V → V) (m : Nat) : State ι K V → Step ι K V → State ι K V :=
  Thread.step (noted m) enter (Call.body moved m)

omit [DecidableEq ι] in
/-- Each bucket has its `head_`, and nothing behind it. -/
def start (ι K V : Type) [OfNat K 0] (m : Nat) : State ι K V :=
  Config.start (fun _ => ()) .constructed
    ({ entries :=
        { cell := fun b => if b < 2 ^ m then some { key := 0 } else none
          top := 2 ^ m
          free_of_le := fun _ hb => if_neg (Nat.not_lt.mpr hb) }
       values := .empty }, {})

end History

end Concurrent
end Base
end Cmw
