import Cmw.Node.NodeChannelImpl
import Cmw.Scheduler.SchedulerClassic

/-!
# The routines of the subscribers

`CreateSubscriber` of node/node.h and node/node_channel_impl.h, and what `Init` of
node/subscriber.h does until there is a task.  The name of the routine is made of that of the
channel and of one byte of the node's id, and two nodes may have the byte in common.
-/

namespace Cmw
namespace Node

open Common
open Config
open Library
open Scheduler.Classic
open Serialize

/-- `role_attr_.node_name + "_" + role_attr_.channel_name` -/
def croutineName (attr : RoleAttributes) : Str := attr.nodeName ++ [0x5F] ++ attr.channelName

/-- A subscriber whose `Init` has been called. -/
structure Named where
  nodeName : Str
  channelName : Str
  nodeId : BitVec 64
  croutineName : Str
  deriving DecidableEq, Repr

/-- The nodes of a process and its scheduler, whose register has the names of all kinds.  What is
kept of the run besides: every subscriber whose `Init` has been called, for whom the task of an id
has been created, and which subscribers have been refused for another that has its id. -/
structure Tasks where
  scheduler : SchedulerClassic
  nodes : List Node := []
  called : List Named := []
  owner : BitVec 64 → Option Named := fun _ => none
  refused : List (Named × Named) := []

namespace Tasks

variable (hash : Str → BitVec 64)

def createNode (t : Tasks) (place : Place) (junk : Junk) (nodeName : Str) : Tasks :=
  match NodeChannelImpl.new hash place t.scheduler.globalData junk nodeName with
  | none => t
  | some (nodeChannelImpl, globalData) =>
      { t with
        scheduler := { t.scheduler with globalData }
        nodes := t.nodes ++ [{ nodeChannelImpl }] }

/-- Whose task is in the way of a new one with this id. -/
def inTheWay (t : Tasks) (taskId : BitVec 64) : Option Named :=
  if t.scheduler.stop then none
  else if taskId ∈ t.scheduler.idCr then t.owner taskId
  else none

/-- A task is created for a subscriber, or for no subscriber: the answer, and what is kept. -/
def createTask (t : Tasks) (name : Str) (owner : Option Named) : Option Bool × Tasks :=
  let (created, scheduler) := t.scheduler.createTask hash name
  match t.scheduler.globalData.registerTaskName hash name with
  | none => (created, { t with scheduler })
  | some (taskId, _) =>
      if created = some false then
        let other := owner.bind fun a => (t.inTheWay taskId).map fun b => (a, b)
        (created, { t with scheduler, refused := t.refused ++ other.toList })
      else (created, { t with scheduler, owner := Function.update t.owner taskId owner })

/-- `CreateSubscriber(role_attr, reader_func)` of a node: whether there is a subscriber. -/
def createSubscriber (t : Tasks) (i : Nat) (roleAttr : RoleAttributes) : Bool × Tasks :=
  match t.nodes[i]? with
  | none => (false, t)
  | some node =>
      if node.subscribers.contains roleAttr.channelName then (false, t)
      else
        match node.nodeChannelImpl.newAttr hash t.scheduler.globalData roleAttr with
        | none => (false, t)
        | some (newAttr, globalData) =>
            let subscriber : Named :=
              { nodeName := node.nodeChannelImpl.nodeName, channelName := roleAttr.channelName,
                nodeId := newAttr.nodeId, croutineName := croutineName newAttr }
            let t := { t with
              scheduler := { t.scheduler with globalData }, called := t.called ++ [subscriber] }
            let (created, t) := t.createTask hash subscriber.croutineName (some subscriber)
            if created = some true then
              let node := { node with subscribers := node.subscribers ++ [roleAttr.channelName] }
              (true, { t with nodes := t.nodes.set i node })
            else (false, t)

/-- What a process does: its nodes and their subscribers, the tasks of others, and the end of a
task, with which a subscriber shuts down too. -/
inductive Event
  | createNode (place : Place) (junk : Junk) (nodeName : Str)
  | createSubscriber (i : Nat) (roleAttr : RoleAttributes)
  | createTask (name : Str)
  | removeTask (name : Str)
  | shutdown

def step (t : Tasks) : Event → Tasks
  | .createNode place junk nodeName => t.createNode hash place junk nodeName
  | .createSubscriber i roleAttr => (t.createSubscriber hash i roleAttr).2
  | .createTask name => (t.createTask hash name none).2
  | .removeTask name => { t with scheduler := (t.scheduler.removeTask hash name).2 }
  | .shutdown => { t with scheduler := t.scheduler.shutdown }

def start (classicConf : ClassicConf) : Tasks := { scheduler := .new classicConf }

/-- Two subscribers of other nodes or channels have routines of other names, and none of them has
been refused for another. -/
structure Separate (t : Tasks) : Prop where
  names : ∀ a ∈ t.called, ∀ b ∈ t.called,
    (a.nodeName, a.channelName) ≠ (b.nodeName, b.channelName) → a.croutineName ≠ b.croutineName
  refused : ∀ r ∈ t.refused, (r.1.nodeName, r.1.channelName) = (r.2.nodeName, r.2.channelName)

/-- The ids of nodes of other names that have subscribers of one channel differ in the last byte. -/
def BytesDiffer (t : Tasks) : Prop :=
  ∀ a ∈ t.called, ∀ b ∈ t.called, a.channelName = b.channelName → a.nodeName ≠ b.nodeName →
    a.nodeId.setWidth 8 ≠ b.nodeId.setWidth 8

/-! ## The names of the scheduler -/

section Scheduler

variable {hash} {s : SchedulerClassic} {name : Str}

theorem globalData_shutdown (s : SchedulerClassic) : s.shutdown.globalData = s.globalData := by
  rw [SchedulerClassic.shutdown]
  split
  · rfl
  · show (List.foldl _ _ _ : SchedulerClassic).globalData = s.globalData
    refine List.foldlRecOn (motive := fun t : SchedulerClassic => t.globalData = s.globalData) _ _
      rfl fun t ht id _ => ?_
    exact (SchedulerClassic.same_removeCRoutine t id).globalData.trans ht

/-- A stopped scheduler refuses; another registers the name first. -/
theorem createTask_eq (hash : Str → BitVec 64) (s : SchedulerClassic) (name : Str) :
    (s.stop = true ∧ s.createTask hash name = (some false, s)) ∨
      s.stop = false ∧ (s.createTask hash name).2.globalData =
        ((s.globalData.registerTaskName hash name).map Prod.snd).getD s.globalData := by
  rw [SchedulerClassic.createTask]
  cases hstop : s.stop with
  | true => exact .inl ⟨rfl, rfl⟩
  | false =>
      refine .inr ⟨rfl, ?_⟩
      rw [if_neg Bool.false_ne_true]
      cases hregister : s.globalData.registerTaskName hash name with
      | none => rfl
      | some out => exact (SchedulerClassic.same_dispatchTask _ _).globalData

end Scheduler

/-! ## What every run keeps -/

/-- The tasks of the subscribers have their names, and who has been refused for another had its
name. -/
structure Kept (t : Tasks) : Prop where
  derived : ∀ a ∈ t.called, a.croutineName = assignNumber a.nodeId ++ [0x5F] ++ a.channelName
  owner : ∀ x a, t.owner x = some a →
    a ∈ t.called ∧ t.scheduler.globalData.names .task x = some a.croutineName
  refused : ∀ r ∈ t.refused, r.1 ∈ t.called ∧ r.2 ∈ t.called ∧ r.1.croutineName = r.2.croutineName

section Keeps

variable {hash} {t : Tasks}

/-- Nothing but the names of the process may change, and no name of a task. -/
theorem Kept.congr (h : t.Kept) {scheduler : SchedulerClassic} {nodes : List Node}
    (hnames : ∀ x name, t.scheduler.globalData.names .task x = some name →
      scheduler.globalData.names .task x = some name) :
    Kept { t with scheduler, nodes } where
  derived := h.derived
  owner x a ha := ⟨(h.owner x a ha).1, hnames x _ (h.owner x a ha).2⟩
  refused := h.refused

theorem names_registerTaskName {d d' : GlobalData} {name : Str} {id : BitVec 64}
    (h : d.registerTaskName hash name = some (id, d')) :
    d'.names .task id = some name ∧
      ∀ x name', d.names .task x = some name' → d'.names .task x = some name' :=
  have hregister : d.register hash .task name = some (id, d') := h
  have hentered := (GlobalData.entered_of_register hregister).1
  ⟨hentered.self, fun _ _ hy => hentered.kept hy⟩

theorem names_registerOther {d d' : GlobalData} {kind : Kind} {name : Str} {id : BitVec 64}
    (h : d.register hash kind name = some (id, d')) (hkind : kind ≠ .task) :
    d'.names .task = d.names .task :=
  (GlobalData.entered_of_register h).2 .task hkind.symm

theorem names_createTask (hash : Str → BitVec 64) {s : SchedulerClassic} {x : BitVec 64} {y : Str}
    (hy : s.globalData.names .task x = some y) (name : Str) :
    (s.createTask hash name).2.globalData.names .task x = some y := by
  rcases createTask_eq hash s name with ⟨-, hrefused⟩ | ⟨-, hdata⟩
  · rw [hrefused]
    exact hy
  · rw [hdata]
    cases hregister : s.globalData.registerTaskName hash name with
    | none => exact hy
    | some out => exact (names_registerTaskName hregister).2 x y hy

theorem kept_createTask (h : t.Kept) {name : Str} {owner : Option Named}
    (howner : ∀ a, owner = some a → a ∈ t.called ∧ a.croutineName = name) :
    (t.createTask hash name owner).2.Kept := by
  obtain ⟨⟨created, scheduler⟩, hout⟩ : ∃ out, t.scheduler.createTask hash name = out := ⟨_, rfl⟩
  have hkeep : Kept { t with scheduler } := h.congr fun x y hy => by
    have hnames := names_createTask hash hy name
    rwa [hout] at hnames
  rw [createTask, hout]
  dsimp only
  split
  case h_1 => exact hkeep
  case h_2 taskId d hregister =>
    obtain ⟨hself, hkept⟩ := names_registerTaskName hregister
    split
    case isTrue =>
      refine ⟨h.derived, hkeep.owner, fun r hr => ?_⟩
      rcases List.mem_append.mp hr with hr | hr
      · exact h.refused r hr
      · -- the id is that of both names
        obtain ⟨a, ha, hr⟩ := Option.bind_eq_some_iff.mp (Option.mem_toList.mp hr)
        obtain ⟨b, hb, rfl⟩ := Option.map_eq_some_iff.mp hr
        have hb : t.owner taskId = some b := by
          rw [inTheWay] at hb
          split at hb
          · cases hb
          · split at hb
            · exact hb
            · cases hb
        obtain ⟨hmem, hname⟩ := h.owner taskId b hb
        have hsame : some name = some b.croutineName := hself.symm.trans (hkept _ _ hname)
        exact ⟨(howner a ha).1, hmem, (howner a ha).2.trans (Option.some.inj hsame)⟩
    case isFalse hcreated =>
      refine ⟨h.derived, fun x a ha => ?_, h.refused⟩
      have ha : Function.update t.owner taskId owner x = some a := ha
      rw [Function.update_apply] at ha
      split at ha
      case isTrue hx =>
        refine ⟨(howner a ha).1, ?_⟩
        rcases createTask_eq hash t.scheduler name with ⟨-, hrefused⟩ | ⟨-, hdata⟩
        · exact absurd (congrArg Prod.fst (hout.symm.trans hrefused)) hcreated
        · rw [hout, hregister] at hdata
          have hdata : scheduler.globalData = d := hdata
          show scheduler.globalData.names .task x = some a.croutineName
          rw [hdata, hx, (howner a ha).2]
          exact hself
      case isFalse => exact hkeep.owner x a ha

theorem kept_createSubscriber (h : t.Kept) (i : Nat) (roleAttr : RoleAttributes) :
    (t.createSubscriber hash i roleAttr).2.Kept := by
  rw [createSubscriber]
  split
  case h_1 => exact h
  case h_2 node _ =>
    split
    case isTrue => exact h
    split
    case h_1 => exact h
    case h_2 newAttr d hnew =>
      obtain ⟨hfilled, -, hregister⟩ := NodeChannelImpl.newAttr_eq hnew
      have hnames := names_registerOther hregister (fun heq => Kind.noConfusion heq)
      let subscriber : Named :=
        { nodeName := node.nodeChannelImpl.nodeName, channelName := roleAttr.channelName,
          nodeId := newAttr.nodeId, croutineName := croutineName newAttr }
      let called : Tasks := { t with
        scheduler := { t.scheduler with globalData := d }, called := t.called ++ [subscriber] }
      have hcalled : called.Kept := by
        refine ⟨fun a ha => ?_, fun x a ha => ?_, fun r hr => ?_⟩
        · rcases List.mem_append.mp ha with ha | ha
          · exact h.derived a ha
          · rw [List.mem_singleton.mp ha]
            show newAttr.nodeName ++ [0x5F] ++ newAttr.channelName = _
            rw [hfilled.nodeName, hfilled.channelName, ← hfilled.nodeId]
        · obtain ⟨hmem, hy⟩ := h.owner x a ha
          refine ⟨List.mem_append_left _ hmem, ?_⟩
          show d.names .task x = some a.croutineName
          rw [hnames, hy]
        · obtain ⟨ha, hb, hsame⟩ := h.refused r hr
          exact ⟨List.mem_append_left _ ha, List.mem_append_left _ hb, hsame⟩
      have hcreated : (called.createTask hash subscriber.croutineName (some subscriber)).2.Kept :=
        kept_createTask hcalled fun a ha => by
          cases ha
          exact ⟨List.mem_append_right _ List.mem_cons_self, rfl⟩
      dsimp only
      split
      case isTrue => exact hcreated.congr fun _ _ hy => hy
      case isFalse => exact hcreated

theorem kept_step (h : t.Kept) (e : Event) : (t.step hash e).Kept := by
  cases e with
  | createNode place junk nodeName =>
      show (t.createNode hash place junk nodeName).Kept
      rw [createNode]
      split
      case h_1 => exact h
      case h_2 n d hnew =>
        have hregister := (NodeChannelImpl.new_eq hnew).2
        have hnames := names_registerOther hregister (fun heq => Kind.noConfusion heq)
        refine h.congr fun x y hy => ?_
        show d.names .task x = some y
        rw [hnames, hy]
  | createSubscriber i roleAttr => exact kept_createSubscriber h i roleAttr
  | createTask name => exact kept_createTask h fun a ha => by cases ha
  | removeTask name =>
      refine h.congr fun x y hy => ?_
      rw [(SchedulerClassic.same_removeTask hash t.scheduler name).globalData, hy]
  | shutdown =>
      refine h.congr fun x y hy => ?_
      rw [globalData_shutdown, hy]

end Keeps

/-! ## Every run -/

theorem croutineName_inj {m n : BitVec 64} {c d : Str} :
    assignNumber m ++ [0x5F] ++ c = assignNumber n ++ [0x5F] ++ d ↔
      m.setWidth 8 = n.setWidth 8 ∧ c = d := by
  simp [assignNumber]

theorem kept_start (classicConf : ClassicConf) : (start classicConf).Kept where
  derived a ha := absurd ha List.not_mem_nil
  owner x a ha := by cases ha
  refused r hr := absurd hr List.not_mem_nil

/-- Whatever a process has done, the names of the routines tell the nodes and the channels apart,
and no subscriber has been refused for that of another node or channel, if and only if the ids of
the nodes that have subscribers of one channel differ in the last byte. -/
theorem separate_iff (classicConf : ClassicConf) (es : List Event) :
    (Run.exec (step hash) (start classicConf) es).Separate ↔
      (Run.exec (step hash) (start classicConf) es).BytesDiffer := by
  have hstep : ∀ (t : Tasks) e, t.Kept → (step hash t e).Kept := fun _ e h => kept_step h e
  have hkept : (Run.exec (step hash) (start classicConf) es).Kept :=
    Run.invariant_always hstep (kept_start classicConf) _ (Run.exec_mem_states _ _ es)
  have hname : ∀ {a b : Named}, a ∈ (Run.exec (step hash) (start classicConf) es).called →
      b ∈ (Run.exec (step hash) (start classicConf) es).called →
      (a.croutineName = b.croutineName ↔
        a.nodeId.setWidth 8 = b.nodeId.setWidth 8 ∧ a.channelName = b.channelName) := by
    intro a b ha hb
    rw [hkept.derived a ha, hkept.derived b hb]
    exact croutineName_inj
  constructor
  · intro h a ha b hb hchannel hnode hbyte
    refine h.names a ha b hb (fun hpair => hnode (Prod.mk.inj hpair).1) ?_
    exact (hname ha hb).mpr ⟨hbyte, hchannel⟩
  · intro h
    have hnames : ∀ {a b : Named}, a ∈ (Run.exec (step hash) (start classicConf) es).called →
        b ∈ (Run.exec (step hash) (start classicConf) es).called →
        a.croutineName = b.croutineName →
        (a.nodeName, a.channelName) = (b.nodeName, b.channelName) := by
      intro a b ha hb hsame
      obtain ⟨hbyte, hchannel⟩ := (hname ha hb).mp hsame
      have hnode : a.nodeName = b.nodeName := by
        by_contra hne
        exact h a ha b hb hchannel hne hbyte
      rw [hnode, hchannel]
    refine ⟨fun a ha b hb hpair hsame => hpair (hnames ha hb hsame), fun r hr => ?_⟩
    obtain ⟨ha, hb, hsame⟩ := hkept.refused r hr
    exact hnames ha hb hsame

def noJunk : Junk := fun _ _ => 0

/-- Two nodes, with 256 and 512 for their ids, and a subscriber of one channel on each. -/
def sameByte : List Event :=
  [.createNode {} noJunk [0x61], .createNode {} noJunk [0x62, 0x62],
    .createSubscriber 0 { RoleAttributes.init noJunk with channelName := [0x63] },
    .createSubscriber 1 { RoleAttributes.init noJunk with channelName := [0x63] }]

/-- The second of them is refused for the first. -/
theorem sameByte_not_separate :
    ¬ (Run.exec (step fun name => BitVec.ofNat 64 (256 * name.length))
      (start (SchedulerClassic.defaultConf 2)) sameByte).Separate := by
  intro h
  let first : Named :=
    { nodeName := [0x61], channelName := [0x63], nodeId := 256, croutineName := [0, 0x5F, 0x63] }
  let second : Named :=
    { nodeName := [0x62, 0x62], channelName := [0x63], nodeId := 512,
      croutineName := [0, 0x5F, 0x63] }
  have hrefused : (second, first) ∈ (Run.exec (step fun name => BitVec.ofNat 64 (256 * name.length))
      (start (SchedulerClassic.defaultConf 2)) sameByte).refused := by decide +kernel
  have hpair : (second.nodeName, second.channelName) = (first.nodeName, first.channelName) :=
    h.refused _ hrefused
  exact absurd hpair (by decide)

end Tasks

end Node
end Cmw
