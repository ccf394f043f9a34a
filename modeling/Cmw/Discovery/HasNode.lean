import Cmw.Discovery.EarliestNode
import Cmw.Node.NodeChannelImpl

/-!
# Which nodes there are

`HasNode` of discovery/specific_manager/node_manager.cpp.  A manager keeps one role for a name,
whatever process it is of, and the first that leaves takes it away: names of nodes are meant to be
unique.  `ι` is the type of the processes, and `hash` is `common::Hash`.
-/

namespace Cmw
namespace Discovery

open Common
open Config
open Library
open Node
open Serialize

namespace NodeManager

def hasNode (hash : Str → BitVec 64) (m : NodeManager) (d : GlobalData) (nodeName : Str) :
    Option (Bool × GlobalData) := do
  let (key, d) ← d.registerNode hash nodeName
  some ((m.nodes.search key).isSome, d)

end NodeManager

/-- A message of a process about a node. -/
structure Told (ι : Type) where
  process : ι
  nodeName : Str
  operateType : OperateType
  deriving DecidableEq

/-- The manager of one process, and the names and the nodes of all.  What is kept of the run
besides is the messages that have come to the manager. -/
structure NodeTopology (ι : Type) where
  manager : NodeManager
  globalData : ι → GlobalData := fun _ => {}
  nodes : ι → List NodeChannelImpl := fun _ => []
  told : List (Told ι) := []

namespace NodeTopology

variable {ι : Type}

/-- A process makes a node, or asks for one; a message about one of its nodes arrives. -/
inductive Event (ι : Type)
  | newNode (i : ι) (place : Place) (junk : Junk) (nodeName : Str)
  | hasNode (i : ι) (nodeName : Str)
  | message (i : ι) (k : Nat) (opt : OperateType) (now : BitVec 64)

/-- The message that `Join` or `Leave` makes for a node. -/
def messageOf (n : NodeChannelImpl) (opt : OperateType) (now : BitVec 64) : Option ChangeMsg :=
  (NodeManager.new n.nodeAttr.hostName n.nodeAttr.processId).prepare NodeManager.check n.nodeAttr
    .roleNode opt now

section Step

variable [DecidableEq ι] (hash : Str → BitVec 64)

def step (s : NodeTopology ι) : Event ι → NodeTopology ι
  | .newNode i place junk nodeName =>
      match NodeChannelImpl.new hash place (s.globalData i) junk nodeName with
      | none => s
      | some (n, d) =>
          { s with
            globalData := Function.update s.globalData i d
            nodes := Function.update s.nodes i (s.nodes i ++ [n]) }
  | .hasNode i nodeName =>
      match s.manager.hasNode hash (s.globalData i) nodeName with
      | none => s
      | some (_, d) => { s with globalData := Function.update s.globalData i d }
  | .message i k opt now =>
      match (s.nodes i)[k]? with
      | none => s
      | some n =>
          match messageOf n opt now with
          | none => s
          | some msg =>
              { s with
                manager := (s.manager.dispose msg).1
                told := s.told ++ [{ process := i, nodeName := n.nodeName, operateType := opt }] }

end Step

def start (hostName : Str) (processId : BitVec 32) : NodeTopology ι :=
  { manager := .new hostName processId }

/-- The names of the nodes are among `names`. -/
def Event.Within (names : Set Str) : Event ι → Prop
  | .newNode _ _ _ nodeName => nodeName ∈ names
  | .hasNode _ nodeName => nodeName ∈ names
  | .message .. => True

def Told.Is (name : Str) (opt : OperateType) (t : Told ι) : Prop :=
  t.nodeName = name ∧ t.operateType = opt

/-- A process has joined a node of that name, and none has left one since. -/
def Joined (told : List (Told ι)) (name : Str) : Prop :=
  Run.Since (Told.Is name .optJoin) (Told.Is name .optLeave) told

/-- A process has joined a node of that name and not left one since. -/
def Has (told : List (Told ι)) (name : Str) : Prop :=
  ∃ i, Run.Since (· = { process := i, nodeName := name, operateType := .optJoin })
    (· = { process := i, nodeName := name, operateType := .optLeave }) told

end NodeTopology

/-! ## What a message does to the keys -/

namespace NodeManager

variable {m : NodeManager} {msg : ChangeMsg} {key : BitVec 64}

theorem mem_disposeJoin :
    key ∈ (m.disposeJoin msg).nodes ↔ key = msg.roleAttr.nodeId ∨ key ∈ m.nodes := by
  rw [← AList.lookup_isSome, lookup_disposeJoin]
  split
  case isTrue hkey => exact iff_of_true rfl (.inl hkey)
  case isFalse hkey => exact AList.lookup_isSome.trans (or_iff_right hkey).symm

theorem mem_dispose :
    key ∈ (m.dispose msg).1.nodes ↔
      if key = msg.roleAttr.nodeId then msg.operateType = OperateType.optJoin.word
      else key ∈ m.nodes := by
  have hleave : key ∈ (m.disposeLeave msg).nodes ↔
      key ≠ msg.roleAttr.nodeId ∧ key ∈ m.nodes := AList.mem_erase
  rw [dispose]
  dsimp only
  split
  case isTrue hopt =>
    rw [mem_disposeJoin]
    split
    case isTrue hkey => exact iff_of_true (.inl hkey) hopt
    case isFalse hkey => exact or_iff_right hkey
  case isFalse hopt =>
    rw [hleave]
    split
    case isTrue hkey => exact iff_of_false (fun h => h.1 hkey) hopt
    case isFalse hkey => exact and_iff_right hkey

end NodeManager

/-! ## Every run -/

namespace NodeTopology

variable {ι : Type} {hash : Str → BitVec 64} {names : Set Str} {s : NodeTopology ι}

/-- The processes know names among `names`, each with its hash for an id, and the manager has a role
for each name that is joined. -/
structure Right (hash : Str → BitVec 64) (names : Set Str) (s : NodeTopology ι) : Prop where
  hashed : ∀ i, Hashed hash names ((s.globalData i).names .node)
  nodes : ∀ i, ∀ n ∈ s.nodes i, n.nodeAttr.nodeId = hash n.nodeName ∧ n.nodeName ∈ names
  manager : ∀ name ∈ names, hash name ∈ s.manager.nodes ↔ Joined s.told name

theorem right_start (hash : Str → BitVec 64) (names : Set Str) (hostName : Str)
    (processId : BitVec 32) : (start hostName processId : NodeTopology ι).Right hash names where
  hashed i id name h := by cases h
  nodes i n hn := absurd hn List.not_mem_nil
  manager name _ := iff_of_false (AList.notMem_empty _) Run.not_since_nil

theorem joined_concat {told : List (Told ι)} {t : Told ι} {name : Str} :
    Joined (told ++ [t]) name ↔
      if t.nodeName = name then t.operateType = .optJoin else Joined told name := by
  rw [Joined, Run.since_concat, Told.Is, Told.Is]
  split
  case isTrue hname =>
    cases hopt : t.operateType with
    | optJoin => exact iff_of_true (.inl ⟨hname, rfl⟩) rfl
    | optLeave =>
        refine iff_of_false (fun h => ?_) (by decide)
        rcases h with h | h
        · exact absurd h.2 (by decide)
        · exact h.2 ⟨hname, rfl⟩
  case isFalse hname =>
    constructor
    · intro h
      rcases h with h | h
      · exact absurd h.1 hname
      · exact h.1
    · intro h
      exact .inr ⟨h, fun hsame => hname hsame.1⟩

theorem messageOf_eq {n : NodeChannelImpl} {opt : OperateType} {now : BitVec 64} {msg : ChangeMsg}
    (h : messageOf n opt now = some msg) :
    msg.roleAttr.nodeId = n.nodeAttr.nodeId ∧ msg.operateType = opt.word := by
  obtain ⟨-, rfl⟩ := Manager.prepare_eq h
  exact ⟨rfl, rfl⟩

theorem word_optJoin {opt : OperateType} :
    opt.word = OperateType.optJoin.word ↔ opt = .optJoin := by
  cases opt <;> decide

theorem Right.message (h : s.Right hash names) (hinj : Set.InjOn hash names) {i : ι}
    {n : NodeChannelImpl} (hn : n ∈ s.nodes i) {opt : OperateType} {now : BitVec 64}
    {msg : ChangeMsg} (hmsg : messageOf n opt now = some msg) :
    Right hash names { s with
      manager := (s.manager.dispose msg).1
      told := s.told ++ [{ process := i, nodeName := n.nodeName, operateType := opt }] } := by
  obtain ⟨hid, hname⟩ := h.nodes i n hn
  obtain ⟨hmsgId, hmsgOpt⟩ := messageOf_eq hmsg
  refine { h with manager := fun name hmem => ?_ }
  have hkey : hash name = msg.roleAttr.nodeId ↔ n.nodeName = name := by
    rw [hmsgId, hid]
    exact ⟨fun heq => (hinj hmem hname heq).symm, fun heq => congrArg hash heq.symm⟩
  rw [NodeManager.mem_dispose, joined_concat, hmsgOpt]
  by_cases hsame : n.nodeName = name
  · rw [if_pos (hkey.mpr hsame), if_pos hsame]
    exact word_optJoin
  · rw [if_neg fun heq => hsame (hkey.mp heq), if_neg hsame]
    exact h.manager name hmem

variable [DecidableEq ι]

theorem Right.update (h : s.Right hash names) (hinj : Set.InjOn hash names) {i : ι} {name : Str}
    (hname : name ∈ names) {id : BitVec 64} {d : GlobalData}
    (hd : (s.globalData i).register hash .node name = some (id, d)) :
    id = hash name ∧
      ∀ j, Hashed hash names ((Function.update s.globalData i d j).names .node) := by
  have hentered := (GlobalData.entered_of_register hd).1
  refine ⟨hentered.eq_hash (h.hashed i) hinj hname, fun j => ?_⟩
  rw [Function.update_apply]
  split
  · exact hentered.hashed (h.hashed i) hinj hname
  · exact h.hashed j

theorem Right.step (h : s.Right hash names) (hinj : Set.InjOn hash names) {e : Event ι}
    (he : e.Within names) : (s.step hash e).Right hash names := by
  cases e with
  | newNode i place junk nodeName =>
      rw [NodeTopology.step]
      split
      case h_1 => exact h
      case h_2 n d hnew =>
        obtain ⟨hname, hregister⟩ := NodeChannelImpl.new_eq hnew
        obtain ⟨hid, hhashed⟩ := h.update hinj he hregister
        refine ⟨hhashed, fun j n' hn' => ?_, h.manager⟩
        dsimp only at hn'
        rw [Function.update_apply] at hn'
        split at hn'
        case isTrue hj =>
          rcases List.mem_append.mp hn' with hn' | hn'
          · exact h.nodes i n' hn'
          · rw [List.mem_singleton.mp hn', hname]
            exact ⟨hid, he⟩
        case isFalse => exact h.nodes j n' hn'
  | hasNode i nodeName =>
      rw [NodeTopology.step]
      split
      case h_1 => exact h
      case h_2 answer d hhas =>
        obtain ⟨⟨id, d'⟩, hregister, hhas⟩ := Option.bind_eq_some_iff.mp hhas
        obtain ⟨-, rfl⟩ := Prod.mk.inj (Option.some.inj hhas)
        exact { h with hashed := (h.update hinj he hregister).2 }
  | message i k opt now =>
      rw [NodeTopology.step]
      split
      case h_1 => exact h
      case h_2 n hn =>
        split
        case h_1 => exact h
        case h_2 msg hmsg => exact h.message hinj (List.mem_of_getElem? hn) hmsg

/-- After any messages of any processes, `HasNode` says of a name whether a process has joined a node
of that name and none has left one since, where no two names have the same hash. -/
theorem hasNode_iff_joined (hinj : Set.InjOn hash names) (hostName : Str) (processId : BitVec 32)
    {es : List (Event ι)} (hes : ∀ e ∈ es, e.Within names) (i : ι) {name : Str}
    (hname : name ∈ names) :
    ∃ answer d,
      (Run.exec (step hash) (start hostName processId) es).manager.hasNode hash
        ((Run.exec (step hash) (start hostName processId) es).globalData i) name =
          some (answer, d) ∧
      (answer = true ↔ Joined (Run.exec (step hash) (start hostName processId) es).told name) := by
  have hstep : ∀ (s : NodeTopology ι) (e : Event ι), s.Right hash names → e.Within names →
      (s.step hash e).Right hash names := fun _ _ h he => h.step hinj he
  have hwithin : Run.Along (step hash) (fun _ e => e.Within names) (start hostName processId) es :=
    Run.along_of_forall_mem fun e he _ => hes e he
  have hright := Run.invariant hstep (right_start hash names hostName processId) hwithin _
    (Run.exec_mem_states _ _ es)
  obtain ⟨d, hd⟩ := GlobalData.register_of_stop ((hright.hashed i).stop hinj hname)
  refine ⟨_, d, Option.bind_eq_some_iff.mpr ⟨(hash name, d), hd, rfl⟩, ?_⟩
  rw [← hright.manager name hname]
  exact AList.lookup_isSome

/-- Two processes join a node of one name, and the first leaves it. -/
def sharedName : List (Event Bool) :=
  [.newNode true { processId := 1 } (fun _ _ => 0) [0x61],
    .newNode false { processId := 2 } (fun _ _ => 0) [0x61],
    .message true 0 .optJoin 1, .message false 0 .optJoin 2, .message true 0 .optLeave 3]

/-- No two names have one hash here. -/
theorem hasNode_sharedName : ∃ answer d,
    (Run.exec (step fun _ => 7) (start [0x68] 3) sharedName).manager.hasNode (fun _ => 7)
      ((Run.exec (step fun _ => 7) (start [0x68] 3) sharedName).globalData true) [0x61] =
        some (answer, d) ∧
    (answer = true ↔
      Joined (Run.exec (step fun _ => 7) (start [0x68] 3) sharedName).told [0x61]) := by
  have hinj : Set.InjOn (fun _ : Str => (7 : BitVec 64)) {[0x61]} := Set.injOn_singleton _ _
  have hes : ∀ e ∈ sharedName, e.Within {[0x61]} := by simp [sharedName, Event.Within]
  exact hasNode_iff_joined hinj [0x68] 3 hes true rfl

/-- The node of the second process is not found. -/
theorem sharedName_not_found :
    ((Run.exec (step fun _ => 7) (start [0x68] 3) sharedName).manager.hasNode (fun _ => 7)
      ((Run.exec (step fun _ => 7) (start [0x68] 3) sharedName).globalData true) [0x61]).map
        Prod.fst = some false ∧
    Has (Run.exec (step fun _ => 7) (start [0x68] 3) sharedName).told [0x61] := by
  have htold : (Run.exec (step fun _ => 7) (start [0x68] 3) sharedName).told =
      [{ process := true, nodeName := [0x61], operateType := .optJoin },
        { process := false, nodeName := [0x61], operateType := .optJoin },
        { process := true, nodeName := [0x61], operateType := .optLeave }] := by decide +kernel
  refine ⟨by decide +kernel, false, ?_⟩
  rw [htold]
  exact ⟨[_], _, [_], rfl, rfl, by decide⟩

end NodeTopology

end Discovery
end Cmw
