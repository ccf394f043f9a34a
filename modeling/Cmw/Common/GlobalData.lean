import Cmw.Base.AtomicHashMap
import Cmw.Config.RoleAttributes
import Cmw.Library.Probing
import Mathlib.Data.Finset.Dedup
import Mathlib.Data.Set.Function

/-!
# The names of a process

The registers of common/global_data.h and common/global_data.cpp, as one thread uses them.
A name gets the first id from its hash on that no other name has, which wraps around at
`2 ^ 64`.  `hash` is `std::hash<std::string>`.
-/

namespace Cmw
namespace Common

open Base
open Config
open Library

structure GlobalData where
  channelIdMap : AtomicHashMap (BitVec 64) Str 8 := {}
  nodeIdMap : AtomicHashMap (BitVec 64) Str 9 := {}
  taskIdMap : AtomicHashMap (BitVec 64) Str 8 := {}

/-- As many ids as there are. -/
def maxTurns : Nat := 2 ^ 64

section Register

variable {m : Nat}

/-- The loop that the registers have in common, with a bound on its turns. -/
def findId (ids : AtomicHashMap (BitVec 64) Str m) (name : Str) :
    Nat → BitVec 64 → Option (BitVec 64)
  | 0, _ => none
  | left + 1, id =>
      if ids.has id then do
        let found ← ids.get id
        if name = found then some id else findId ids name left (id + 1)
      else some id

/-- A register: nothing is returned by a call that does not end. -/
def register (hash : Str → BitVec 64) (ids : AtomicHashMap (BitVec 64) Str m) (name : Str) :
    Option (BitVec 64 × AtomicHashMap (BitVec 64) Str m) := do
  let id ← findId ids name maxTurns (hash name)
  some (id, ids.set id name)

end Register

inductive Kind
  | channel | node | task
  deriving DecidableEq, Repr

namespace GlobalData

variable (hash : Str → BitVec 64)

def generateHashId (name : Str) : BitVec 64 := hash name

def registerChannel (d : GlobalData) (channel : Str) : Option (BitVec 64 × GlobalData) := do
  let (id, channelIdMap) ← Common.register hash d.channelIdMap channel
  some (id, { d with channelIdMap })

def registerNode (d : GlobalData) (nodeName : Str) : Option (BitVec 64 × GlobalData) := do
  let (id, nodeIdMap) ← Common.register hash d.nodeIdMap nodeName
  some (id, { d with nodeIdMap })

def registerTaskName (d : GlobalData) (taskName : Str) : Option (BitVec 64 × GlobalData) := do
  let (id, taskIdMap) ← Common.register hash d.taskIdMap taskName
  some (id, { d with taskIdMap })

def getChannelById (d : GlobalData) (id : BitVec 64) : Str := (d.channelIdMap.get id).getD []

def getTaskNameById (d : GlobalData) (id : BitVec 64) : Str := (d.taskIdMap.get id).getD []

def register (d : GlobalData) : Kind → Str → Option (BitVec 64 × GlobalData)
  | .channel, name => d.registerChannel hash name
  | .node, name => d.registerNode hash name
  | .task, name => d.registerTaskName hash name

/-- The names that have an id. -/
def names (d : GlobalData) : Kind → BitVec 64 → Option Str
  | .channel => d.channelIdMap.get
  | .node => d.nodeIdMap.get
  | .task => d.taskIdMap.get

end GlobalData

/-! ## One register -/

section Register

variable {hash : Str → BitVec 64} {m : Nat} {ids ids' : AtomicHashMap (BitVec 64) Str m}
  {name : Str} {id : BitVec 64}

/-- Every name is found from its hash. -/
def Placed (hash : Str → BitVec 64) (get : BitVec 64 → Option Str) : Prop :=
  Probing.Placed (· + 1) hash get

theorem findId_eq (ids : AtomicHashMap (BitVec 64) Str m) (name : Str) (left : Nat)
    (id : BitVec 64) : findId ids name left id = Probing.probe (· + 1) ids.get name left id := by
  induction left generalizing id with
  | zero => rfl
  | succ left ih =>
      rw [findId, Probing.probe, ids.has_eq]
      cases hget : ids.get id with
      | none => rfl
      | some found =>
          show (if name = found then some id else findId ids name left (id + 1)) = _
          rw [ih]
          exact if_congr eq_comm rfl rfl

theorem iterate_add_one (i : Nat) (id : BitVec 64) : (· + 1)^[i] id = id + BitVec.ofNat 64 i := by
  induction i generalizing id with
  | zero => exact (BitVec.add_zero id).symm
  | succ i ih =>
      rw [Function.iterate_succ_apply, ih]
      bv_omega

theorem iterate_injective (id : BitVec 64) {i j : Nat} (hi : i < maxTurns) (hj : j < maxTurns)
    (h : (· + 1)^[i] id = (· + 1)^[j] id) : i = j := by
  rw [iterate_add_one, iterate_add_one] at h
  have hi : i < 2 ^ 64 := hi
  have hj : j < 2 ^ 64 := hj
  bv_omega

/-- What a register that returns has done. -/
structure Entered (hash : Str → BitVec 64) (get get' : BitVec 64 → Option Str) (name : Str)
    (id : BitVec 64) : Prop where
  past : Probing.Past (· + 1) get name (hash name) id
  stop : Probing.Stop get name id
  names : ∀ k, get' k = if k = id then some name else get k

theorem entered_of_register (h : register hash ids name = some (id, ids')) :
    Entered hash ids.get ids'.get name id := by
  obtain ⟨id', hid, h⟩ := Option.bind_eq_some_iff.mp h
  obtain ⟨rfl, rfl⟩ := Prod.mk.inj (Option.some.inj h)
  rw [findId_eq] at hid
  obtain ⟨hpast, hstop⟩ := Probing.past_of_probe hid
  exact ⟨hpast, hstop, fun k => ids.get_set id' k name⟩

/-- A register returns as long as there are fewer names than ids. -/
theorem register_returns (h : Placed hash ids.get) {known : Finset Str}
    (hknown : ∀ id name, ids.get id = some name → name ∈ known) (hcard : known.card < maxTurns)
    (name : Str) : ∃ id ids', register hash ids name = some (id, ids') := by
  obtain ⟨id, hid⟩ := h.probe_ends (x := name) (k := hash name) hknown hcard
    fun i j hi hj => iterate_injective (hash name) hi hj
  refine ⟨id, ids.set id name, ?_⟩
  rw [register, findId_eq, hid]
  rfl

/-- A name that has an id is registered with it again. -/
theorem register_again (h : Placed hash ids.get) (hid : ids.get id = some name) :
    ∃ ids', register hash ids name = some (id, ids') := by
  have hiterate : (· + 1)^[(id - hash name).toNat] (hash name) = id := by
    rw [iterate_add_one, BitVec.ofNat_toNat, BitVec.setWidth_eq]
    bv_omega
  have hturns : (id - hash name).toNat < maxTurns := (id - hash name).isLt
  have hprobe := h.probe_eq hid hturns hiterate
  refine ⟨ids.set id name, ?_⟩
  rw [register, findId_eq, hprobe]
  rfl

/-- A name whose search may end at its hash is registered with it. -/
theorem register_of_stop (h : Probing.Stop ids.get name (hash name)) :
    ∃ ids', register hash ids name = some (hash name, ids') := by
  have hturns : 0 < maxTurns := by decide
  refine ⟨ids.set (hash name) name, ?_⟩
  rw [register, findId_eq, Probing.probe_of_stop h hturns]
  rfl

variable {get get' : BitVec 64 → Option Str}

theorem Entered.placed (h : Entered hash get get' name id) (hget : Placed hash get) :
    Placed hash get' :=
  hget.put h.past h.stop h.names

theorem Entered.kept (h : Entered hash get get' name id) {k : BitVec 64} {y : Str}
    (hy : get k = some y) : get' k = some y := by
  rw [h.names]
  split
  case isTrue hk =>
    subst hk
    rcases h.stop with hstop | hstop
    · exact absurd (hy.symm.trans hstop) (Option.some_ne_none y)
    · exact hstop.symm.trans hy
  case isFalse => exact hy

/-- Every name has its hash for an id, and is one of `names`. -/
def Hashed (hash : Str → BitVec 64) (names : Set Str) (get : BitVec 64 → Option Str) : Prop :=
  ∀ id name, get id = some name → id = hash name ∧ name ∈ names

theorem Hashed.stop {names : Set Str} (h : Hashed hash names get) (hinj : Set.InjOn hash names)
    (hname : name ∈ names) : Probing.Stop get name (hash name) := by
  cases hget : get (hash name) with
  | none => exact .inl hget
  | some y =>
      obtain ⟨hy, hmem⟩ := h _ y hget
      obtain rfl := hinj hname hmem hy
      exact .inr hget

/-- Where no two names have one hash, the search ends where it begins. -/
theorem Entered.eq_hash {names : Set Str} (h : Entered hash get get' name id)
    (hget : Hashed hash names get) (hinj : Set.InjOn hash names) (hname : name ∈ names) :
    id = hash name :=
  (hget.stop hinj hname).not_past h.past

theorem Entered.hashed {names : Set Str} (h : Entered hash get get' name id)
    (hget : Hashed hash names get) (hinj : Set.InjOn hash names) (hname : name ∈ names) :
    Hashed hash names get' := by
  intro k y hy
  rw [h.names] at hy
  split at hy
  case isTrue hk =>
    obtain rfl := Option.some.inj hy
    exact ⟨hk.trans (h.eq_hash hget hinj hname), hname⟩
  case isFalse => exact hget k y hy

theorem Entered.self (h : Entered hash get get' name id) : get' id = some name := by
  rw [h.names, if_pos rfl]

end Register

/-! ## Every sequence of calls -/

namespace GlobalData

variable {hash : Str → BitVec 64} {d d' : GlobalData} {kind : Kind} {name : Str} {id : BitVec 64}

/-- A register, and nothing of the others. -/
theorem entered_of_register (h : d.register hash kind name = some (id, d')) :
    Entered hash (d.names kind) (d'.names kind) name id ∧
      ∀ other, other ≠ kind → d'.names other = d.names other := by
  cases kind <;>
  · obtain ⟨⟨id', ids'⟩, hregister, h⟩ := Option.bind_eq_some_iff.mp h
    obtain ⟨rfl, rfl⟩ := Prod.mk.inj (Option.some.inj h)
    refine ⟨Common.entered_of_register hregister, fun other hother => ?_⟩
    cases other <;> first | rfl | exact absurd rfl hother

/-- The names are where they are looked for, and are among `known`. -/
structure Known (hash : Str → BitVec 64) (known : Finset (Kind × Str)) (d : GlobalData) : Prop where
  placed : ∀ kind, Placed hash (d.names kind)
  known : ∀ kind id name, d.names kind id = some name → (kind, name) ∈ known

theorem register_returns {known : Finset (Kind × Str)} (h : Known hash known d)
    (hcard : known.card < maxTurns) (kind : Kind) (name : Str) :
    ∃ id d', d.register hash kind name = some (id, d') := by
  have hnames : ∀ id y, d.names kind id = some y → y ∈ known.image Prod.snd := fun id y hy =>
    Finset.mem_image_of_mem Prod.snd (h.known kind id y hy)
  have himage : (known.image Prod.snd).card < maxTurns :=
    Nat.lt_of_le_of_lt Finset.card_image_le hcard
  have hplaced := h.placed kind
  have hsome : (d.register hash kind name).isSome = true := by
    cases kind <;>
    · obtain ⟨id, ids', hregister⟩ := Common.register_returns hplaced hnames himage name
      show (Common.register hash _ name >>= _).isSome = true
      rw [hregister]
      rfl
  obtain ⟨out, hout⟩ := Option.isSome_iff_exists.mp hsome
  exact ⟨out.1, out.2, hout⟩

theorem register_again (h : Placed hash (d.names kind)) (hid : d.names kind id = some name) :
    ∃ d', d.register hash kind name = some (id, d') := by
  cases kind <;>
  · obtain ⟨ids', hregister⟩ := Common.register_again h hid
    exact ⟨_, Option.bind_eq_some_iff.mpr ⟨(id, ids'), hregister, rfl⟩⟩

theorem register_of_stop (h : Probing.Stop (d.names kind) name (hash name)) :
    ∃ d', d.register hash kind name = some (hash name, d') := by
  cases kind <;>
  · obtain ⟨ids', hregister⟩ := Common.register_of_stop h
    exact ⟨_, Option.bind_eq_some_iff.mpr ⟨(hash name, ids'), hregister, rfl⟩⟩

theorem Known.register {known : Finset (Kind × Str)} (h : Known hash known d)
    (hname : (kind, name) ∈ known) (hd : d.register hash kind name = some (id, d')) :
    Known hash known d' := by
  obtain ⟨hentered, hother⟩ := entered_of_register hd
  refine ⟨fun other => ?_, fun other k y hy => ?_⟩
  · by_cases hk : other = kind
    · exact hk ▸ hentered.placed (h.placed kind)
    · exact hother other hk ▸ h.placed other
  · by_cases hk : other = kind
    · subst hk
      rw [hentered.names] at hy
      split at hy
      · exact Option.some.inj hy ▸ hname
      · exact h.known other k y hy
    · exact h.known other k y (hother other hk ▸ hy)

/-- A name that has been registered, and the id that was returned. -/
structure Registration where
  kind : Kind
  name : Str
  id : BitVec 64
  deriving DecidableEq, Repr

def Registration.call (r : Registration) : Kind × Str := (r.kind, r.name)

def registerAll (hash : Str → BitVec 64) :
    GlobalData → List (Kind × Str) → Option (List Registration × GlobalData)
  | d, [] => some ([], d)
  | d, (kind, name) :: calls => do
      let (id, d) ← d.register hash kind name
      let (log, d) ← registerAll hash d calls
      some ({ kind, name, id } :: log, d)

/-- What there is after some calls: what was there before, and what they have registered. -/
structure After (d d' : GlobalData) (log : List Registration) : Prop where
  kept : ∀ kind id name, d.names kind id = some name → d'.names kind id = some name
  found : ∀ r ∈ log, d'.names r.kind r.id = some r.name
  only : ∀ kind id name, d'.names kind id = some name →
    d.names kind id = some name ∨ { kind, name, id } ∈ log

theorem After.cons {d'' : GlobalData} {log : List Registration}
    (hd : d.register hash kind name = some (id, d')) (h : After d' d'' log) :
    After d d'' ({ kind, name, id } :: log) := by
  obtain ⟨hentered, hother⟩ := entered_of_register hd
  have hkept : ∀ k i y, d.names k i = some y → d'.names k i = some y := by
    intro k i y hy
    by_cases hk : k = kind
    · subst hk
      exact hentered.kept hy
    · exact hother k hk ▸ hy
  refine ⟨fun k i y hy => h.kept k i y (hkept k i y hy), ?_, fun k i y hy => ?_⟩
  · exact List.forall_mem_cons.mpr ⟨h.kept kind id name hentered.self, h.found⟩
  · rcases h.only k i y hy with hy | hy
    · by_cases hk : k = kind
      · subst hk
        rw [hentered.names] at hy
        split at hy
        case isTrue hi =>
          obtain rfl := Option.some.inj hy
          exact .inr (hi ▸ List.mem_cons_self)
        case isFalse => exact .inl hy
      · exact .inl (hother k hk ▸ hy)
    · exact .inr (List.mem_cons_of_mem _ hy)

theorem registerAll_returns {known : Finset (Kind × Str)} (h : Known hash known d)
    (hcard : known.card < maxTurns) {calls : List (Kind × Str)} (hcalls : ∀ c ∈ calls, c ∈ known) :
    ∃ log d', registerAll hash d calls = some (log, d') ∧ log.map Registration.call = calls ∧
      Known hash known d' ∧ After d d' log := by
  induction calls generalizing d with
  | nil =>
      exact ⟨[], d, rfl, rfl, h, fun _ _ _ hy => hy, List.forall_mem_nil _, fun _ _ _ hy => .inl hy⟩
  | cons call calls ih =>
      obtain ⟨kind, name⟩ := call
      obtain ⟨hcall, hcalls⟩ := List.forall_mem_cons.mp hcalls
      obtain ⟨id, d₁, hregister⟩ := register_returns h hcard kind name
      obtain ⟨log, d₂, hrest, hlog, hknown, hafter⟩ := ih (h.register hcall hregister) hcalls
      refine ⟨{ kind, name, id } :: log, d₂, ?_, ?_, hknown, hafter.cons hregister⟩
      · rw [registerAll, hregister]
        show (registerAll hash d₁ calls >>= _) = _
        rw [hrest]
        rfl
      · rw [List.map_cons, hlog]
        rfl

theorem known_new (hash : Str → BitVec 64) (known : Finset (Kind × Str)) : Known hash known {} := by
  constructor
  · intro kind id name h
    cases kind <;> cases h
  · intro kind id name h
    cases kind <;> cases h

/-- The ids of a sequence of calls: two of one kind are the same where the names are, and each
is that of its name for good; other ids have no name. -/
structure Registered (log : List Registration) (d : GlobalData) : Prop where
  id : ∀ r ∈ log, ∀ r' ∈ log, r.kind = r'.kind → (r.name = r'.name ↔ r.id = r'.id)
  channel : ∀ r ∈ log, r.kind = .channel → d.getChannelById r.id = r.name
  noChannel : ∀ id, (∀ r ∈ log, r.kind = .channel → r.id ≠ id) → d.getChannelById id = []
  task : ∀ r ∈ log, r.kind = .task → d.getTaskNameById r.id = r.name
  noTask : ∀ id, (∀ r ∈ log, r.kind = .task → r.id ≠ id) → d.getTaskNameById id = []

theorem registered (hash : Str → BitVec 64) (calls : List (Kind × Str))
    (h : calls.toFinset.card < 2 ^ 64) :
    ∃ log d, registerAll hash {} calls = some (log, d) ∧ log.map Registration.call = calls ∧
      Registered log d := by
  obtain ⟨log, d, hcalls, hlog, hknown, hafter⟩ :=
    registerAll_returns (known_new hash calls.toFinset) h fun c hc => List.mem_toFinset.mpr hc
  have hname : ∀ r ∈ log, ∀ kind, r.kind = kind → (d.names kind r.id).getD [] = r.name := by
    intro r hr kind hkind
    rw [← hkind, hafter.found r hr, Option.getD_some]
  have hnone : ∀ kind id, (∀ r ∈ log, r.kind = kind → r.id ≠ id) →
      (d.names kind id).getD [] = [] := by
    intro kind id hid
    cases hget : d.names kind id with
    | none => rfl
    | some name =>
        rcases hafter.only kind id name hget with hold | hmem
        · cases kind <;> cases hold
        · exact absurd rfl (hid _ hmem rfl)
  refine ⟨log, d, hcalls, hlog, ⟨fun r hr r' hr' hkind => ⟨fun heq => ?_, fun heq => ?_⟩,
    fun r hr => hname r hr .channel, hnone .channel, fun r hr => hname r hr .task, hnone .task⟩⟩
  · have hr := hafter.found r hr
    have hr' := hafter.found r' hr'
    rw [← hkind, ← heq] at hr'
    exact (hknown.placed r.kind).unique hr hr'
  · have hr := hafter.found r hr
    have hr' := hafter.found r' hr'
    rw [← hkind, ← heq] at hr'
    exact Option.some.inj (hr.symm.trans hr')

/-! ## Ids that are known beforehand -/

/-- Whatever names among `names` are registered, each gets the id that it has by `idOf`. -/
def Assigns (hash : Str → BitVec 64) (names : Kind → Set Str) (idOf : Kind → Str → BitVec 64)
    (d : GlobalData) : Prop :=
  ∀ calls : List (Kind × Str), (∀ c ∈ calls, c.2 ∈ names c.1) →
    ∃ log d', registerAll hash d calls = some (log, d') ∧
      log = calls.map fun c => { kind := c.1, name := c.2, id := idOf c.1 c.2 }

theorem registerAll_cons (hd : d.register hash kind name = some (id, d'))
    (calls : List (Kind × Str)) : registerAll hash d ((kind, name) :: calls) =
      (registerAll hash d' calls).map fun out => ({ kind, name, id } :: out.1, out.2) := by
  rw [registerAll, hd]
  show (registerAll hash d' calls >>= _) = _
  cases registerAll hash d' calls with
  | none => rfl
  | some out => rfl

theorem Assigns.register {names : Kind → Set Str} {idOf : Kind → Str → BitVec 64}
    (h : Assigns hash names idOf d) (hname : name ∈ names kind) :
    ∃ d', d.register hash kind name = some (idOf kind name, d') ∧ Assigns hash names idOf d' := by
  obtain ⟨log, d₁, hone, hlog⟩ := h [(kind, name)] (List.forall_mem_singleton.mpr hname)
  rw [registerAll] at hone
  obtain ⟨⟨id, d'⟩, hregister, -⟩ := Option.bind_eq_some_iff.mp hone
  have hall : ∀ calls : List (Kind × Str), (∀ c ∈ calls, c.2 ∈ names c.1) →
      id = idOf kind name ∧ ∃ log d'', registerAll hash d' calls = some (log, d'') ∧
        log = calls.map fun c => { kind := c.1, name := c.2, id := idOf c.1 c.2 } := by
    intro calls hcalls
    obtain ⟨log, d'', hrest, hlog⟩ := h ((kind, name) :: calls)
      (List.forall_mem_cons.mpr ⟨hname, hcalls⟩)
    rw [registerAll_cons hregister] at hrest
    obtain ⟨out, hout, hpair⟩ := Option.map_eq_some_iff.mp hrest
    obtain ⟨hcons, hd⟩ := Prod.mk.inj hpair
    rw [← hcons, List.map_cons] at hlog
    obtain ⟨hhead, htail⟩ := List.cons.inj hlog
    exact ⟨congrArg Registration.id hhead, out.1, out.2, hout, htail⟩
  have hid := (hall [] (List.forall_mem_nil _)).1
  exact ⟨d', hid ▸ hregister, fun calls hcalls => (hall calls hcalls).2⟩

/-- Where no two names of a kind have one hash, the ids are the hashes. -/
theorem assigns_of_hashed {names : Kind → Set Str} (hinj : ∀ kind, Set.InjOn hash (names kind))
    (h : ∀ kind, Hashed hash (names kind) (d.names kind)) :
    Assigns hash names (fun _ => hash) d := by
  intro calls hcalls
  induction calls generalizing d with
  | nil => exact ⟨[], d, rfl, rfl⟩
  | cons call calls ih =>
      obtain ⟨kind, name⟩ := call
      obtain ⟨hcall, hcalls⟩ := List.forall_mem_cons.mp hcalls
      obtain ⟨d₁, hregister⟩ := register_of_stop ((h kind).stop (hinj kind) hcall)
      obtain ⟨hentered, hother⟩ := entered_of_register hregister
      have hhashed : ∀ other, Hashed hash (names other) (d₁.names other) := by
        intro other
        by_cases hk : other = kind
        · exact hk ▸ hentered.hashed (h kind) (hinj kind) hcall
        · exact hother other hk ▸ h other
      obtain ⟨log, d₂, hrest, hlog⟩ := ih hhashed hcalls
      refine ⟨{ kind, name, id := hash name } :: log, d₂, ?_, ?_⟩
      · rw [registerAll_cons hregister, hrest]
        rfl
      · rw [hlog]
        rfl

/-- Three calls for two names with the last id for a hash. -/
theorem registered_collision : ∃ log d,
    registerAll (fun _ => -1) {} [(.channel, [0x61]), (.channel, [0x62]), (.channel, [0x61])] =
      some (log, d) ∧ log.map Registration.call =
        [(.channel, [0x61]), (.channel, [0x62]), (.channel, [0x61])] ∧ Registered log d :=
  registered _ _ (by decide)

end GlobalData

end Common
end Cmw
