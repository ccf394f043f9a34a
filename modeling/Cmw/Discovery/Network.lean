import Cmw.Discovery.Kinds
import Cmw.Library.Broadcast

/-!
# The managers of all processes

`Join`, `Leave`, `Write` and `OnRemoteChange` of discovery/specific_manager/manager.cpp, with a
manager of one kind in every process.  What a manager writes goes to the readers of all
processes, its own included.  The topic is a best effort one, as `FillInWriterAttr` and
`FillInReaderAttr` of transport/rtps/attributes_filler.cpp have it: from one process to another a
message may be lost, but nothing overtakes.  `Network` has the managers and the bytes on the way.
What is kept of the run besides is the messages that a process has written, those that have come
from one process to another, and those that a manager has disposed of, each with the manager as it
was then.

Discovery is started everywhere before the first call, and nothing is shut down.  A change is taken
to have room for its message; for what becomes of a longer one see `Cmw.Transport.Payload`.
-/

namespace Cmw
namespace Discovery

open Config
open Library
open Library.ByteImage
open Serialize

/-- Where the processes run. -/
structure Placement (ι : Type) where
  hostName : ι → Str
  processId : ι → BitVec 32
  order : ι → ByteOrder

/-- No two processes have the host name and the process id in common. -/
def Placement.Distinct {ι : Type} (p : Placement ι) : Prop :=
  Function.Injective fun i => (p.hostName i, p.processId i)

/-- A process with this name is one of them. -/
def Placement.Has {ι : Type} (p : Placement ι) (hostName : Str) (processId : BitVec 32) : Prop :=
  ∃ i, p.hostName i = hostName ∧ p.processId i = processId

structure Network (ι μ : Type) where
  manager : ι → μ
  onWay : ι → ι → List (ChangeMsg × List Byte)
  said : ι → List ChangeMsg
  heard : ι → ι → List ChangeMsg
  disposed : ι → List (μ × ChangeMsg)

inductive NetworkEvent (ι : Type)
  /-- `Join` or `Leave` in a process -/
  | call (i : ι) (c : ChannelManager.Call)
  /-- what is the oldest on its way from one process to another arrives -/
  | receive (i j : ι) (stack : Stack)
  /-- or is lost -/
  | lose (i j : ι)

/-- What is short enough to be read is no longer than an `int` tells. -/
theorem le_maxInt {n : Nat} (h : n ≤ 2 ^ 30) : n ≤ maxInt := by
  unfold maxInt
  omega

namespace Kind

variable {μ : Type}

/-- How a manager is looked at: what is seen of it and of what it has disposed of, what a message
does to that, and when a message that arrives does the same. -/
structure Observation (k : Kind μ) (σ : Type) where
  see : μ → List (μ × ChangeMsg) → σ
  apply : σ → ChangeMsg → σ
  Arrives : ByteOrder → Stack → ChangeMsg → Prop
  see_dispose : ∀ m log msg, see (k.dispose m msg).1 (log ++ [(m, msg)]) = apply (see m log) msg
  check_convert : ∀ (m : Manager) attr role opt now,
    k.check attr = true → k.check (m.convert attr role opt now).roleAttr = true
  arrives : ∀ {w : ByteOrder} (r : ByteOrder) {stack : Stack} {msg : ChangeMsg}
    {ds : DataStream w}, Arrives w stack msg → k.check msg.roleAttr = true →
    ChangeMsg.type.write w msg (DataStream.new w) = .ok ds →
    ∃ msg', ChannelManager.decode r stack ds.mBuf = .ok msg' ∧
      msg'.roleAttr.hostName = msg.roleAttr.hostName ∧
      msg'.roleAttr.processId = msg.roleAttr.processId ∧
      k.check msg'.roleAttr = true ∧ ∀ s, apply s msg' = apply s msg

end Kind

namespace Network

section Functions

variable {ι μ : Type} [DecidableEq ι]

omit [DecidableEq ι] in
def start (m₀ : ι → μ) : Network ι μ :=
  { manager := m₀, onWay := fun _ _ => [], said := fun _ => [], heard := fun _ _ => []
    disposed := fun _ => [] }

def step (k : Kind μ) (p : Placement ι) (s : Network ι μ) :
    NetworkEvent ι → Outcome (Network ι μ)
  | .call i c => do
      let m := s.manager i
      let reply ← k.call (p.order i) m c
      .ok
        { s with
          manager := Function.update s.manager i reply.manager
          onWay := fun j l => if j = i then s.onWay j l ++ reply.sent else s.onWay j l
          said := Function.update s.said i (s.said i ++ reply.sent.map Prod.fst)
          disposed := Function.update s.disposed i
            (s.disposed i ++ reply.notified.map fun msg => (m, msg)) }
  | .receive i j stack =>
      match s.onWay i j with
      | [] => .ok s
      | (msg, str) :: rest => do
          let m := s.manager j
          let (m', notified) ← k.onRemoteChange (p.order j) m stack str
          .ok
            { s with
              manager := Function.update s.manager j m'
              onWay := fun j' l => if j' = i ∧ l = j then rest else s.onWay j' l
              heard := fun j' l => if j' = i ∧ l = j then s.heard j' l ++ [msg] else s.heard j' l
              disposed := Function.update s.disposed j
                (s.disposed j ++ notified.map fun msg => (m, msg)) }
  | .lose i j =>
      .ok
        { s with
          onWay := fun j' l => if j' = i ∧ l = j then (s.onWay j' l).tail else s.onWay j' l }

end Functions

/-- The managers at the start know where they are, and are ready. -/
structure Ready {ι μ : Type} (k : Kind μ) (p : Placement ι) (m₀ : ι → μ) : Prop where
  hostName : ∀ i, (k.manager (m₀ i)).hostName = p.hostName i
  processId : ∀ i, (k.manager (m₀ i)).processId = p.processId i
  up : ∀ i, (k.manager (m₀ i)).isShutdown = false
  started : ∀ i, (k.manager (m₀ i)).isDiscoveryStarted = true
  writer : ∀ i, (k.manager (m₀ i)).hasWriter = true

/-- The networks that calls and arrivals with `C` come to. -/
inductive Reached {ι μ : Type} [DecidableEq ι] (k : Kind μ) (p : Placement ι) (m₀ : ι → μ)
    (C : Network ι μ → NetworkEvent ι → Prop) : Network ι μ → Prop
  | start : Reached k p m₀ C (start m₀)
  | step {s s' : Network ι μ} {e : NetworkEvent ι} (hs : Reached k p m₀ C s) (he : C s e)
      (hstep : s.step k p e = .ok s') : Reached k p m₀ C s'

variable {ι μ σ : Type} [DecidableEq ι] {k : Kind μ} {p : Placement ι} {m₀ : ι → μ}
  {s s' : Network ι μ}

theorem Reached.mono {C C' : Network ι μ → NetworkEvent ι → Prop} (hC : ∀ s e, C s e → C' s e)
    (h : Reached k p m₀ C s) : Reached k p m₀ C' s := by
  induction h with
  | start => exact .start
  | step _ he hstep ih => exact .step ih (hC _ _ he) hstep

variable (o : k.Observation σ)

omit [DecidableEq ι] in
/-- A process announces roles of its own, and a message can be read where it arrives. -/
def Fits (p : Placement ι) (s : Network ι μ) : NetworkEvent ι → Prop
  | .call i c => (c.attr.hostName = [] ∨ c.attr.hostName = p.hostName i) ∧
      (c.attr.processId = 0 ∨ c.attr.processId = p.processId i)
  | .receive i j stack => ∀ sent ∈ (s.onWay i j).head?, o.Arrives (p.order i) stack sent.1
  | .lose _ _ => True

omit [DecidableEq ι] in
/-- Without the bytes, and with what is seen of the managers. -/
def broadcast (s : Network ι μ) : Broadcast ι σ ChangeMsg :=
  { party := fun i => o.see (s.manager i) (s.disposed i)
    onWay := fun i j => (s.onWay i j).map Prod.fst
    said := s.said
    heard := s.heard }

/-- The message that a call builds. -/
def built (k : Kind μ) (m₀ : ι → μ) (i : ι) (c : ChannelManager.Call) : ChangeMsg :=
  c.msg (k.manager (m₀ i))

/-! ## One step -/

/-- What is on the way has been written by a process, and is about it. -/
structure Carries (k : Kind μ) (p : Placement ι) (i : ι) (sent : ChangeMsg × List Byte) : Prop where
  written : ∃ ds, ChangeMsg.type.write (p.order i) sent.1 (DataStream.new (p.order i)) = .ok ds ∧
    sent.2 = ds.mBuf
  checked : k.check sent.1.roleAttr = true
  own : OfProcess (p.hostName i) (p.processId i) sent.1.roleAttr

structure Wired (k : Kind μ) (p : Placement ι) (m₀ : ι → μ) (s : Network ι μ) : Prop where
  manager : ∀ i, k.manager (s.manager i) = k.manager (m₀ i)
  onWay : ∀ i j, ∀ sent ∈ s.onWay i j, Carries k p i sent

omit [DecidableEq ι] in
theorem wired_start : (start m₀).Wired k p m₀ :=
  { manager := fun _ => rfl
    onWay := fun _ _ _ h => absurd h List.not_mem_nil }

variable {o}

omit [DecidableEq ι] in
theorem own_built (hready : Ready k p m₀) {i : ι} {c : ChannelManager.Call}
    (h : s.Fits o p (.call i c)) :
    OfProcess (p.hostName i) (p.processId i) (built k m₀ i c).roleAttr := by
  obtain ⟨hhost, hpid⟩ := h
  constructor
  · show (if c.attr.hostName.isEmpty then (k.manager (m₀ i)).hostName else c.attr.hostName) = _
    split
    · exact hready.hostName i
    case isFalse hne => exact hhost.resolve_left fun hnil => hne (by rw [hnil]; rfl)
  · show (if c.attr.processId = 0 then (k.manager (m₀ i)).processId else c.attr.processId) = _
    split
    · exact hready.processId i
    case isFalse hne => exact hpid.resolve_left hne

/-- A call is told to all, and changes its own manager as it changes every other. -/
theorem Wired.call (h : s.Wired k p m₀) (hready : Ready k p m₀) {i : ι} {c : ChannelManager.Call}
    (hfits : s.Fits o p (.call i c)) (hstep : s.step k p (.call i c) = .ok s') :
    s'.Wired k p m₀ ∧ ∃ ms, (∀ m ∈ ms, m = built k m₀ i c) ∧
      s'.broadcast o = (s.broadcast o).say o.apply i ms := by
  obtain ⟨reply, hcall, hstep⟩ := of_bind_ok hstep
  cases hstep
  have hbase := h.manager i
  have hreply := Overrides.call_cases ((congrArg Manager.isDiscoveryStarted hbase).trans (hready.started i))
    ((congrArg Manager.hasWriter hbase).trans (hready.writer i)) hcall
  have hmsg : c.msg (k.manager (s.manager i)) = built k m₀ i c := congrArg c.msg hbase
  rw [hmsg] at hreply
  rcases hreply with ⟨hmanager, hsent, hnotified⟩ | ⟨ds, hcheck, hds, hmanager, hsent, hnotified⟩
  · refine ⟨⟨fun j => ?_, fun j l q hq => ?_⟩, [], List.forall_mem_nil _, ?_⟩
    · show k.manager (Function.update s.manager i reply.manager j) = _
      rw [hmanager, Function.update_eq_self]
      exact h.manager j
    · dsimp only at hq
      rw [hsent, List.append_nil, ite_self] at hq
      exact h.onWay j l q hq
    · simp only [broadcast, Broadcast.say, hmanager, hsent, hnotified, Function.update_eq_self,
        List.append_nil, List.map_nil, ite_self, Run.exec_nil]
  · have hown := own_built hready hfits
    refine ⟨⟨fun j => ?_, fun j l q hq => ?_⟩, [built k m₀ i c],
      List.forall_mem_singleton.mpr rfl, ?_⟩
    · show k.manager (Function.update s.manager i reply.manager j) = _
      rcases eq_or_ne j i with rfl | hj
      · rw [Function.update_self, hmanager, k.manager_dispose]
        exact hbase
      · rw [Function.update_of_ne hj]
        exact h.manager j
    · dsimp only at hq
      split at hq
      case isTrue hj =>
        subst hj
        rcases List.mem_append.mp hq with hq | hq
        · exact h.onWay j l q hq
        · rw [hsent] at hq
          obtain rfl := List.mem_singleton.mp hq
          exact ⟨⟨ds, hds, rfl⟩, o.check_convert _ _ _ _ _ hcheck, hown⟩
      case isFalse => exact h.onWay j l q hq
    · rw [broadcast, Broadcast.say, broadcast]
      congr 1
      · funext j
        dsimp only
        rcases eq_or_ne j i with rfl | hj
        · rw [Function.update_self, Function.update_self, Function.update_self, hmanager, hnotified]
          exact o.see_dispose _ _ _
        · rw [Function.update_of_ne hj, Function.update_of_ne hj, Function.update_of_ne hj]
      · funext j l
        dsimp only
        split
        · rw [List.map_append, hsent]
          rfl
        · rfl
      · dsimp only
        rw [hsent]
        rfl

/-- What arrives is passed over by the process that has written it, and disposed of by any
other. -/
theorem remote_eq (hinj : p.Distinct) (hready : Ready k p m₀) {m : μ} {i j : ι}
    (hm : k.manager m = k.manager (m₀ j)) {sent : ChangeMsg × List Byte} (h : Carries k p i sent)
    {stack : Stack} (harrives : o.Arrives (p.order i) stack sent.1) :
    ∃ msg', (∀ t, o.apply t msg' = o.apply t sent.1) ∧
      k.onRemoteChange (p.order j) m stack sent.2 =
        .ok (if i = j then (m, []) else k.dispose m msg') := by
  obtain ⟨ds, hds, hstr⟩ := h.written
  obtain ⟨msg', hdecode, hhost, hpid, hcheck, happly⟩ :=
    o.arrives (p.order j) harrives h.checked hds
  refine ⟨msg', happly, ?_⟩
  have hup : (k.manager m).isShutdown = false := by rw [hm, hready.up]
  have hsame : (k.manager m).isFromSameProcess msg' = decide (i = j) := by
    rw [Manager.isFromSameProcess, hm, hready.hostName, hready.processId, hhost, hpid, h.own.1,
      h.own.2]
    by_cases hij : i = j
    · simp [hij]
    · have hne : (p.hostName i, p.processId i) ≠ (p.hostName j, p.processId j) := fun heq =>
        hij (hinj heq)
      rw [decide_eq_false hij, Bool.not_eq_false', Bool.or_eq_true, decide_eq_true_iff,
        decide_eq_true_iff, ← not_and_or]
      exact fun hboth => hne (Prod.ext hboth.2 hboth.1)
  rw [Overrides.onRemoteChange, hup, if_neg Bool.false_ne_true, hstr, hdecode, ok_bind, hsame, hcheck]
  by_cases hij : i = j
  · rw [if_pos (decide_eq_true hij), if_pos hij]
  · rw [if_neg (by simpa using hij), if_neg (by decide), if_neg hij]

theorem Wired.receive (h : s.Wired k p m₀) (hinj : p.Distinct) (hready : Ready k p m₀) {i j : ι}
    {stack : Stack} (hfits : s.Fits o p (.receive i j stack))
    (hstep : s.step k p (.receive i j stack) = .ok s') :
    s'.Wired k p m₀ ∧ s'.broadcast o = (s.broadcast o).hear o.apply i j := by
  have hflight : (s.broadcast o).onWay i j = (s.onWay i j).map Prod.fst := rfl
  rw [Network.step] at hstep
  cases hway : s.onWay i j with
  | nil =>
      rw [hway] at hstep hflight
      cases hstep
      refine ⟨h, ?_⟩
      rw [Broadcast.hear, hflight]
      rfl
  | cons sent rest =>
      have hcarries : Carries k p i sent := h.onWay i j _ (by rw [hway]; exact List.mem_cons_self)
      have harrives := hfits sent (by rw [hway]; rfl)
      obtain ⟨msg', happly, hremote⟩ := remote_eq hinj hready (h.manager j) hcarries harrives
      rw [hway] at hstep hflight
      obtain ⟨msg, str⟩ := sent
      dsimp only at hstep hremote happly
      rw [hremote] at hstep
      have hrest : (fun j' l => (if j' = i ∧ l = j then rest else s.onWay j' l).map Prod.fst) =
          fun j' l => if j' = i ∧ l = j then rest.map Prod.fst else (s.onWay j' l).map Prod.fst := by
        funext j' l
        split <;> rfl
      have hway' : ∀ j' l, ∀ q ∈ (if j' = i ∧ l = j then rest else s.onWay j' l),
          Carries k p j' q := by
        intro j' l q hq
        split at hq
        case isTrue hjl =>
          obtain ⟨rfl, rfl⟩ := hjl
          exact h.onWay j' l q (by rw [hway]; exact List.mem_cons_of_mem _ hq)
        case isFalse => exact h.onWay j' l q hq
      rw [Broadcast.hear, hflight, List.map_cons]
      dsimp only
      by_cases hij : i = j
      · rw [if_pos hij] at hstep
        cases hstep
        refine ⟨⟨fun l => ?_, hway'⟩, ?_⟩
        · show k.manager (Function.update s.manager j (s.manager j) l) = _
          rw [Function.update_eq_self]
          exact h.manager l
        · simp only [broadcast, if_pos hij, hrest, List.map_nil, List.append_nil,
            Function.update_eq_self]
      · rw [if_neg hij] at hstep
        have hnotified := k.notifies (s.manager j) msg'
        cases hstep
        refine ⟨⟨fun l => ?_, hway'⟩, ?_⟩
        · show k.manager (Function.update s.manager j (k.dispose (s.manager j) msg').1 l) = _
          rcases eq_or_ne l j with rfl | hl
          · rw [Function.update_self, k.manager_dispose]
            exact h.manager l
          · rw [Function.update_of_ne hl]
            exact h.manager l
        · rw [if_neg hij]
          simp only [broadcast, hrest]
          congr 1
          funext l
          rcases eq_or_ne l j with rfl | hl
          · rw [Function.update_self, Function.update_self, Function.update_self, hnotified]
            exact (o.see_dispose _ _ _).trans (happly _)
          · rw [Function.update_of_ne hl, Function.update_of_ne hl, Function.update_of_ne hl]

theorem Wired.lose (h : s.Wired k p m₀) {i j : ι} (hstep : s.step k p (.lose i j) = .ok s') :
    s'.Wired k p m₀ ∧ s'.broadcast o = (s.broadcast o).lose i j := by
  cases hstep
  refine ⟨⟨h.manager, fun j' l q hq => ?_⟩, ?_⟩
  · dsimp only at hq
    split at hq
    · exact h.onWay j' l q (List.mem_of_mem_tail hq)
    · exact h.onWay j' l q hq
  · rw [broadcast, Broadcast.lose, broadcast]
    congr 1
    funext j' l
    dsimp only
    split
    · exact List.map_tail
    · rfl

/-! ## Every run -/

variable (o) in
/-- The calls that the processes may make. -/
def Does (p : Placement ι) (P : ι → ChannelManager.Call → Prop) (s : Network ι μ)
    (e : NetworkEvent ι) : Prop :=
  s.Fits o p e ∧ ∀ i c, e = .call i c → P i c

variable (o) in
/-- The messages that the processes may send. -/
def Says (p : Placement ι) (m₀ : ι → μ) (Of : ι → ChangeMsg → Prop) :
    Network ι μ → NetworkEvent ι → Prop :=
  Does o p fun i c => Of i (built k m₀ i c)

/-- A network is a broadcast: what every saying, hearing and loss keeps holds after every run. -/
theorem Reached.broadcast_induction {P : ι → ChangeMsg → Prop} {C : Broadcast ι σ ChangeMsg → Prop}
    (hinj : p.Distinct) (hready : Ready k p m₀)
    (hstart : C (Broadcast.start fun i => o.see (m₀ i) []))
    (hsay : ∀ b i ms, (∀ msg ∈ ms, P i msg) → C b → C (b.say o.apply i ms))
    (hhear : ∀ b i j, C b → C (b.hear o.apply i j)) (hlose : ∀ b i j, C b → C (b.lose i j))
    (h : Reached k p m₀ (Says o p m₀ P) s) : s.Wired k p m₀ ∧ C (s.broadcast o) := by
  induction h with
  | start => exact ⟨wired_start, hstart⟩
  | @step s s' e _ he hstep ih =>
      obtain ⟨hwired, hC⟩ := ih
      obtain ⟨hfits, hof⟩ := he
      cases e with
      | call i c =>
          obtain ⟨hwired', ms, hms, hbroadcast⟩ := hwired.call hready hfits hstep
          rw [hbroadcast]
          exact ⟨hwired', hsay _ i ms (fun msg hmsg => hms msg hmsg ▸ hof i c rfl) hC⟩
      | receive i j stack =>
          obtain ⟨hwired', hbroadcast⟩ := hwired.receive hinj hready hfits hstep
          rw [hbroadcast]
          exact ⟨hwired', hhear _ i j hC⟩
      | lose i j =>
          obtain ⟨hwired', hbroadcast⟩ := hwired.lose (o := o) hstep
          rw [hbroadcast]
          exact ⟨hwired', hlose _ i j hC⟩

theorem Reached.kept {v : View ι o.apply} {blank : σ} (hinj : p.Distinct) (hready : Ready k p m₀)
    (hblank : ∀ i j, v.Agree i (o.see (m₀ j) []) blank)
    (h : Reached k p m₀ (Says o p m₀ v.Of) s) : (s.broadcast o).Kept v blank := by
  obtain ⟨-, hkept⟩ := h.broadcast_induction (C := fun b => b.Kept v blank) hinj hready
    (Broadcast.kept_start _ hblank) (fun _ _ _ hms hb => hb.say hms)
    (fun _ i j hb => hb.hear i j) fun _ i j hb => hb.lose i j
  exact hkept

theorem Reached.always {v : View ι o.apply} {blank : σ} {I : σ → Prop} (hinj : p.Distinct)
    (hready : Ready k p m₀) (hblank : ∀ i j, v.Agree i (o.see (m₀ j) []) blank)
    (hI : ∀ i t msg, v.Of i msg → I t → I (o.apply t msg)) (hnew : ∀ j, I (o.see (m₀ j) []))
    (h : Reached k p m₀ (Says o p m₀ v.Of) s) : ∀ j, I (o.see (s.manager j) (s.disposed j)) := by
  obtain ⟨-, -, hall⟩ := h.broadcast_induction (C := fun b => b.Kept v blank ∧ b.Always I) hinj hready
    ⟨Broadcast.kept_start _ hblank, hnew⟩
    (fun _ _ _ hms hb => ⟨hb.1.say hms, hb.2.say hI hms⟩)
    (fun _ i j hb => ⟨hb.1.hear i j, hb.2.hear hI hb.1 i j⟩)
    fun _ i j hb => ⟨hb.1.lose i j, hb.2.lose i j⟩
  exact hall

/-- What every process has acted on, and that all it says meets `P`. -/
theorem Reached.acted {P : ι → ChangeMsg → Prop} (hinj : p.Distinct) (hready : Ready k p m₀)
    (h : Reached k p m₀ (Says o p m₀ P) s) :
    (∀ i, ∀ msg ∈ s.said i, P i msg) ∧
      ∀ j, ∃ acts, (s.broadcast o).Acted o.apply (fun i => o.see (m₀ i) []) j acts := by
  obtain ⟨-, hsaid, hacted⟩ := h.broadcast_induction
    (C := fun b => (∀ i, ∀ msg ∈ b.said i, P i msg) ∧
      ∀ j, ∃ acts, b.Acted o.apply (fun i => o.see (m₀ i) []) j acts) hinj hready
    ⟨fun _ _ hmsg => absurd hmsg List.not_mem_nil, fun j => ⟨[], Broadcast.acted_start j⟩⟩
    (fun _ i ms hms hb =>
      ⟨Broadcast.forall_said_say hms hb.1, Broadcast.exists_acted_say hb.2 i ms⟩)
    (fun b i j hb => ⟨Broadcast.said_hear (b := b) i j ▸ hb.1, Broadcast.exists_acted_hear hb.2 i j⟩)
    fun _ i j hb => ⟨hb.1, fun l => (hb.2 l).imp fun _ hacts => hacts.lose i j⟩
  exact ⟨hsaid, hacted⟩

/-! ## Runs that there are -/

/-- A call that is accepted, and whose message fits. -/
structure Accepted (k : Kind μ) (p : Placement ι) (m₀ : ι → μ) (i : ι)
    (c : ChannelManager.Call) : Prop where
  accepts : (k.manager (m₀ i)).Accepts k.check c.attr c.role
  fits : (ChangeMsg.type.image (p.order i) (built k m₀ i c)).length ≤ 2 ^ 30

theorem Reached.exists_call {P : ι → ChannelManager.Call → Prop} (hready : Ready k p m₀)
    (h : Reached k p m₀ (Does o p P) s) (hwired : s.Wired k p m₀) {i : ι}
    {c : ChannelManager.Call} (hfits : s.Fits o p (.call i c)) (hc : P i c)
    (haccepted : Accepted k p m₀ i c) :
    ∃ s', Reached k p m₀ (Does o p P) s' ∧ s'.Wired k p m₀ ∧
      s'.broadcast o = (s.broadcast o).say o.apply i [built k m₀ i c] := by
  have hbase := hwired.manager i
  have haccepts : (k.manager (s.manager i)).Accepts k.check c.attr c.role :=
    hbase.symm ▸ haccepted.accepts
  obtain ⟨str, hreply⟩ := Overrides.call_ok (p.order i) c haccepts.up
    ((congrArg Manager.isDiscoveryStarted hbase).trans (hready.started i))
    ((congrArg Manager.hasWriter hbase).trans (hready.writer i)) haccepts.allowed haccepts.checked
    (hbase.symm ▸ haccepted.fits)
  have hstep : ∃ s', s.step k p (.call i c) = .ok s' ∧
      s'.said i = s.said i ++ [built k m₀ i c] := by
    rw [Network.step, hreply]
    refine ⟨_, rfl, ?_⟩
    dsimp only
    rw [Function.update_self, hbase]
    rfl
  obtain ⟨s', hstep, hsaid⟩ := hstep
  obtain ⟨hwired', ms, -, hbroadcast⟩ := hwired.call hready hfits hstep
  have hms : ms = [built k m₀ i c] := by
    have hsaid' : s'.said i = Function.update s.said i (s.said i ++ ms) i :=
      congrFun (congrArg Broadcast.said hbroadcast) i
    rw [hsaid, Function.update_self] at hsaid'
    exact (List.append_cancel_left hsaid').symm
  refine ⟨s', h.step ⟨hfits, fun j d heq => ?_⟩ hstep, hwired', hms ▸ hbroadcast⟩
  cases heq
  exact hc

theorem Reached.exists_receive {P : ι → ChannelManager.Call → Prop} (hinj : p.Distinct)
    (hready : Ready k p m₀) (h : Reached k p m₀ (Does o p P) s) (hwired : s.Wired k p m₀)
    {i j : ι} (stack : Stack)
    (harrives : ∀ msg ∈ ((s.broadcast o).onWay i j).head?, o.Arrives (p.order i) stack msg) :
    ∃ s', Reached k p m₀ (Does o p P) s' ∧ s'.Wired k p m₀ ∧
      s'.broadcast o = (s.broadcast o).hear o.apply i j := by
  have hfits : s.Fits o p (.receive i j stack) := fun sent hsent => by
    refine harrives sent.1 ?_
    show sent.1 ∈ ((s.onWay i j).map Prod.fst).head?
    rw [List.head?_map, hsent]
    rfl
  have hstep : ∃ s', s.step k p (.receive i j stack) = .ok s' := by
    rw [Network.step]
    cases hway : s.onWay i j with
    | nil => exact ⟨s, rfl⟩
    | cons sent rest =>
        have hcarries : Carries k p i sent :=
          hwired.onWay i j _ (by rw [hway]; exact List.mem_cons_self)
        obtain ⟨msg', -, hremote⟩ := remote_eq hinj hready (hwired.manager j) hcarries
          (hfits sent (by rw [hway]; rfl))
        dsimp only
        rw [hremote]
        exact ⟨_, rfl⟩
  obtain ⟨s', hstep⟩ := hstep
  obtain ⟨hwired', hbroadcast⟩ := hwired.receive hinj hready hfits hstep
  exact ⟨s', h.step ⟨hfits, fun _ _ heq => nomatch heq⟩ hstep, hwired', hbroadcast⟩

/-! ## Two processes -/

def places : Placement Bool :=
  { hostName := fun i => if i then [0x62] else [0x61]
    processId := fun i => if i then 8 else 7
    order := fun _ => .littleEndian }

theorem distinct_places : places.Distinct := by
  intro i j h
  revert h
  cases i <;> cases j <;> decide

end Network

end Discovery
end Cmw
