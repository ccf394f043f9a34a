import Cmw.Discovery.Network

/-!
# The channel managers of all processes

Every process has a channel manager, and stores the writers and readers of all.  What a process
holds of another is told by the messages of that other alone.  A message is read as it was
written where the storage it is read into has its channel id to begin with.
-/

namespace Cmw
namespace Discovery

open Config
open Library
open Library.ByteImage
open Serialize

/-! ## The roles of a process -/

namespace MultiValueWarehouse

/-- The roles in a process. -/
def ofProcess (hostName : Str) (processId : BitVec 32) (w : MultiValueWarehouse RoleWriter) :
    MultiValueWarehouse RoleWriter :=
  w.filter fun item => OfProcess hostName processId item.2.attributes

variable {hostName : Str} {processId : BitVec 32} {w : MultiValueWarehouse RoleWriter}
  {key : BitVec 64} {r : RoleWriter}

theorem ofProcess_add_own (h : OfProcess hostName processId r.attributes) :
    (w.add key r).ofProcess hostName processId = (w.ofProcess hostName processId).add key r := by
  rw [add, ofProcess, List.filter_append, List.filter_cons_of_pos (by simpa using h)]
  rfl

theorem ofProcess_add_other (h : ¬OfProcess hostName processId r.attributes) :
    (w.add key r).ofProcess hostName processId = w.ofProcess hostName processId := by
  rw [add, ofProcess, List.filter_append, List.filter_cons_of_neg (by simpa using h)]
  exact List.append_nil _

theorem ofProcess_remove :
    (w.remove key r).ofProcess hostName processId = (w.ofProcess hostName processId).remove key r := by
  rw [remove, ofProcess, ofProcess, remove, List.filter_filter, List.filter_filter]
  exact List.filter_congr fun _ _ => Bool.and_comm ..

theorem ofProcess_remove_other (h : ¬OfProcess hostName processId r.attributes) :
    (w.remove key r).ofProcess hostName processId = w.ofProcess hostName processId := by
  rw [remove, ofProcess, ofProcess, List.filter_filter]
  refine List.filter_congr fun item _ => ?_
  by_cases hitem : OfProcess hostName processId item.2.attributes
  · have hmatch : ¬Role.matchAttr item.2 (Role.attributes r) = true := fun hm => by
      obtain ⟨-, -, -, hpid, hhost⟩ := RoleWriter.matchAttr_iff.mp hm
      exact h ⟨hhost.trans hitem.1, hpid.trans hitem.2⟩
    simp [hitem, hmatch]
  · simp [hitem]

end MultiValueWarehouse

namespace ChannelManager

/-- The roles that the manager holds of a process. -/
def rolesOf (m : ChannelManager) (hostName : Str) (processId : BitVec 32) (side : Side) :
    MultiValueWarehouse RoleWriter × MultiValueWarehouse RoleWriter :=
  ((m.nodeRoles side).ofProcess hostName processId, (m.channelRoles side).ofProcess hostName processId)

variable {hostName : Str} {processId : BitVec 32} {m m' : ChannelManager} {msg : ChangeMsg}

/-- A warehouse after a message about a role of its side. -/
def wareStep (msg : ChangeMsg) (joinKey leaveKey : BitVec 64) (w : MultiValueWarehouse RoleWriter) :
    MultiValueWarehouse RoleWriter :=
  if msg.operateType = OperateType.optJoin.word then w.add joinKey (roleOf msg)
  else w.remove leaveKey (roleOf msg)

theorem nodeRoles_step (m : ChannelManager) (msg : ChangeMsg) (side : Side) :
    (m.step msg).nodeRoles side = if side = sideOf msg then
      wareStep msg msg.roleAttr.nodeId (leaveKey msg) (m.nodeRoles side) else m.nodeRoles side := by
  rw [wareStep]
  by_cases h : msg.operateType = OperateType.optJoin.word
  · rw [step_join h, nodeRoles_disposeJoin, if_pos h]
  · rw [step_leave h, nodeRoles_disposeLeave, if_neg h]

theorem channelRoles_step (m : ChannelManager) (msg : ChangeMsg) (side : Side) :
    (m.step msg).channelRoles side = if side = sideOf msg then
      wareStep msg msg.roleAttr.channelId msg.roleAttr.channelId (m.channelRoles side)
      else m.channelRoles side := by
  rw [wareStep]
  by_cases h : msg.operateType = OperateType.optJoin.word
  · rw [step_join h, channelRoles_disposeJoin, if_pos h]
  · rw [step_leave h, channelRoles_disposeLeave, if_neg h]

theorem ofProcess_wareStep (msg : ChangeMsg) (joinKey leaveKey : BitVec 64)
    (w : MultiValueWarehouse RoleWriter) :
    (wareStep msg joinKey leaveKey w).ofProcess hostName processId =
      if OfProcess hostName processId msg.roleAttr then
        wareStep msg joinKey leaveKey (w.ofProcess hostName processId)
      else w.ofProcess hostName processId := by
  rw [wareStep, wareStep]
  by_cases h : OfProcess hostName processId msg.roleAttr
  · rw [if_pos h]
    split
    · exact MultiValueWarehouse.ofProcess_add_own h
    · exact MultiValueWarehouse.ofProcess_remove
  · rw [if_neg h]
    split
    · exact MultiValueWarehouse.ofProcess_add_other h
    · exact MultiValueWarehouse.ofProcess_remove_other h

theorem rolesOf_own (h : OfProcess hostName processId msg.roleAttr)
    (heq : m.rolesOf hostName processId = m'.rolesOf hostName processId) :
    (m.step msg).rolesOf hostName processId = (m'.step msg).rolesOf hostName processId := by
  funext side
  obtain ⟨hnodes, hchannels⟩ := Prod.mk.inj (congrFun heq side)
  rw [rolesOf, rolesOf, nodeRoles_step, nodeRoles_step, channelRoles_step, channelRoles_step]
  split
  · rw [ofProcess_wareStep, ofProcess_wareStep, ofProcess_wareStep, ofProcess_wareStep, if_pos h,
      if_pos h, if_pos h, if_pos h, hnodes, hchannels]
  · exact congrFun heq side

theorem rolesOf_other (h : ¬OfProcess hostName processId msg.roleAttr) :
    (m.step msg).rolesOf hostName processId = m.rolesOf hostName processId := by
  funext side
  rw [rolesOf, rolesOf, nodeRoles_step, channelRoles_step]
  split
  · rw [ofProcess_wareStep, ofProcess_wareStep, if_neg h, if_neg h]
  · rfl

/-- Every role that is stored is in a process with `P`. -/
def InProcesses (P : Str → BitVec 32 → Prop) (m : ChannelManager) : Prop :=
  ∀ side, (∀ item ∈ m.nodeRoles side, P item.2.attributes.hostName item.2.attributes.processId) ∧
    ∀ item ∈ m.channelRoles side, P item.2.attributes.hostName item.2.attributes.processId

theorem InProcesses.step {P : Str → BitVec 32 → Prop} (h : m.InProcesses P)
    (hmsg : P msg.roleAttr.hostName msg.roleAttr.processId) : (m.step msg).InProcesses P := by
  have hware : ∀ {joinKey leaveKey : BitVec 64} {w : MultiValueWarehouse RoleWriter},
      (∀ item ∈ w, P item.2.attributes.hostName item.2.attributes.processId) →
      ∀ item ∈ wareStep msg joinKey leaveKey w,
        P item.2.attributes.hostName item.2.attributes.processId := by
    intro joinKey leaveKey w hw
    rw [wareStep]
    split
    · exact forall_mem_add hw hmsg
    · exact fun item hitem => hw item (MultiValueWarehouse.mem_remove.mp hitem).1
  intro side
  rw [nodeRoles_step, channelRoles_step]
  split
  · exact ⟨hware (h side).1, hware (h side).2⟩
  · exact h side

end ChannelManager

/-- What is seen of a channel manager is all of it. -/
def ChannelManager.observation : ChannelManager.kind.Observation ChannelManager where
  see m _ := m
  apply := ChannelManager.step
  Arrives w stack msg := ChannelManager.Primed w ⟨stack, msg, []⟩
  see_dispose _ _ _ := rfl
  check_convert _ _ _ _ _ h := h
  arrives := fun {w} r {stack msg ds} harrives hcheck hds => by
    have hlen : (ChangeMsg.type.image w msg).length ≤ 2 ^ 30 := harrives.1
    have hid : (ChangeMsg.init (stack 0)).roleAttr.channelId = msg.roleAttr.channelId := harrives.2
    obtain ⟨himage, -⟩ := STy.image_of_write (short_of_flatten (le_maxInt hlen)) hds
    refine ⟨msg, ?_, rfl, rfl, hcheck, fun _ => rfl⟩
    rw [himage, ChannelManager.decode_image hlen, hid]

namespace Network

variable {ι : Type} [DecidableEq ι] {p : Placement ι}

/-- The channel managers at the start. -/
def channelManagers (p : Placement ι) (i : ι) : ChannelManager :=
  (ChannelManager.new (p.hostName i) (p.processId i)).startDiscovery

omit [DecidableEq ι] in
theorem ready_channelManagers : Ready ChannelManager.kind p (channelManagers p) where
  hostName _ := rfl
  processId _ := rfl
  up _ := rfl
  started _ := rfl
  writer _ := rfl

/-- The networks of channel managers that calls with `P` come to. -/
def ChannelReached (p : Placement ι) (P : ι → ChannelManager.Call → Prop) :
    Network ι ChannelManager → Prop :=
  Reached ChannelManager.kind p (channelManagers p) (Does ChannelManager.observation p P)

/-- Every call. -/
def anyCall (_ : ι) (_ : ChannelManager.Call) : Prop := True

variable {P : ι → ChannelManager.Call → Prop} {s : Network ι ChannelManager}

theorem ChannelReached.mono {P' : ι → ChannelManager.Call → Prop} (hP : ∀ i c, P i c → P' i c)
    (h : ChannelReached p P s) : ChannelReached p P' s :=
  Reached.mono (fun _ _ he => ⟨he.1, fun i c hc => hP i c (he.2 i c hc)⟩) h

/-- What is held of the roles of a process is told by its own messages. -/
def roleView (p : Placement ι) (hinj : p.Distinct) : View ι ChannelManager.step where
  Of i msg := OfProcess (p.hostName i) (p.processId i) msg.roleAttr
  Agree i m m' := m.rolesOf (p.hostName i) (p.processId i) = m'.rolesOf (p.hostName i) (p.processId i)
  own := ChannelManager.rolesOf_own
  other := fun hne hof hagree => by
    refine (ChannelManager.rolesOf_other fun hown => hne (hinj ?_)).trans hagree
    exact Prod.ext (hof.1.symm.trans hown.1) (hof.2.symm.trans hown.2)

/-- A manager that no one has told anything. -/
def blank : ChannelManager := .new [] 0

omit [DecidableEq ι] in
theorem rolesOf_start (i : ι) (hostName : Str) (processId : BitVec 32) :
    (channelManagers p i).rolesOf hostName processId = blank.rolesOf hostName processId := by
  funext side
  cases side <;> rfl

theorem ChannelReached.tells (h : ChannelReached p P s) (hinj : p.Distinct) :
    Reached ChannelManager.kind p (channelManagers p)
      (Says ChannelManager.observation p (channelManagers p) (roleView p hinj).Of) s :=
  Reached.mono (fun _ _ he => ⟨he.1, fun _ _ hc => own_built ready_channelManagers (hc ▸ he.1)⟩) h

theorem ChannelReached.kept (hinj : p.Distinct) (h : ChannelReached p P s) :
    (s.broadcast ChannelManager.observation).Kept (roleView p hinj) blank :=
  (h.tells hinj).kept hinj ready_channelManagers fun _ j => rolesOf_start j _ _

/-- What a process has announced of itself, by a number of messages. -/
def announced (p : Placement ι) (i : ι) (msgs : List ChangeMsg) :=
  (Run.exec ChannelManager.step blank msgs).rolesOf (p.hostName i) (p.processId i)

theorem ChannelReached.held (hinj : p.Distinct) (h : ChannelReached p P s) {i j : ι}
    (hall : i = j ∨ s.heard i j = s.said i) :
    (s.manager j).rolesOf (p.hostName i) (p.processId i) = announced p i (s.said i) :=
  (h.kept hinj).agree_of_all hall

/-- At every moment of every run, what a process holds of the roles of another is what that other has
announced by those of its messages that have come, in the order in which they were written; and
what it holds of its own is what it has announced. -/
theorem held_announced (hinj : p.Distinct) (h : ChannelReached p anyCall s) (i j : ι) :
    (s.heard i j).Sublist (s.said i) ∧
    (s.manager j).rolesOf (p.hostName i) (p.processId i) =
      announced p i (if i = j then s.said i else s.heard i j) := by
  have hkept := h.kept hinj
  exact ⟨(List.sublist_append_left _ _).trans (hkept.sub i j), hkept.agree i j⟩

theorem ChannelReached.inProcesses (hinj : p.Distinct) (h : ChannelReached p P s) (j : ι) :
    (s.manager j).InProcesses p.Has := by
  refine (h.tells hinj).always (I := fun m => m.InProcesses p.Has) hinj ready_channelManagers
    (fun _ j => rolesOf_start j _ _) (fun i m msg hof hm => hm.step ⟨i, hof.1.symm, hof.2.symm⟩)
    (fun j side => ?_) j
  cases side <;> exact ⟨List.forall_mem_nil _, List.forall_mem_nil _⟩

theorem perm_of_ofProcess {w w' : MultiValueWarehouse RoleWriter}
    {P : Str → BitVec 32 → Prop}
    (hw : ∀ item ∈ w, P item.2.attributes.hostName item.2.attributes.processId)
    (hw' : ∀ item ∈ w', P item.2.attributes.hostName item.2.attributes.processId)
    (h : ∀ hostName processId, P hostName processId →
      w.ofProcess hostName processId = w'.ofProcess hostName processId) : w.Perm w' := by
  refine perm_of_filter
    (fun item => (item.2.attributes.hostName, item.2.attributes.processId)) fun c => ?_
  have hfilter : ∀ w : MultiValueWarehouse RoleWriter, (w.filter fun item =>
      (item.2.attributes.hostName, item.2.attributes.processId) = c) = w.ofProcess c.1 c.2 :=
    fun w => List.filter_congr fun item _ => decide_eq_decide.mpr Prod.ext_iff
  rw [hfilter, hfilter]
  by_cases hP : P c.1 c.2
  · exact h c.1 c.2 hP
  · have hnil : ∀ w : MultiValueWarehouse RoleWriter,
        (∀ item ∈ w, P item.2.attributes.hostName item.2.attributes.processId) →
        w.ofProcess c.1 c.2 = [] := fun w hw =>
      List.filter_eq_nil_iff.mpr fun item hitem hof => by
        obtain ⟨hhost, hpid⟩ := of_decide_eq_true hof
        exact hP (hhost ▸ hpid ▸ hw item hitem)
    rw [hnil w hw, hnil w' hw']

/-- In every run, two processes that have heard all that the others have written store the same
writers and readers under the same keys. -/
theorem settled_agree (hinj : p.Distinct) (h : ChannelReached p anyCall s) {j l : ι}
    (hj : ∀ i, i = j ∨ s.heard i j = s.said i) (hl : ∀ i, i = l ∨ s.heard i l = s.said i)
    (side : Side) :
    ((s.manager j).nodeRoles side).Perm ((s.manager l).nodeRoles side) ∧
      ((s.manager j).channelRoles side).Perm ((s.manager l).channelRoles side) := by
  have hheld : ∀ i, (s.manager j).rolesOf (p.hostName i) (p.processId i) =
      (s.manager l).rolesOf (p.hostName i) (p.processId i) := fun i =>
    (h.held hinj (hj i)).trans (h.held hinj (hl i)).symm
  obtain ⟨hjnodes, hjchannels⟩ := h.inProcesses hinj j side
  obtain ⟨hlnodes, hlchannels⟩ := h.inProcesses hinj l side
  refine ⟨perm_of_ofProcess (P := p.Has) hjnodes hlnodes ?_,
    perm_of_ofProcess (P := p.Has) hjchannels hlchannels ?_⟩
  · rintro _ _ ⟨i, rfl, rfl⟩
    exact (Prod.mk.inj (congrFun (hheld i) side)).1
  · rintro _ _ ⟨i, rfl, rfl⟩
    exact (Prod.mk.inj (congrFun (hheld i) side)).2

/-! ## A writer joins in one of two processes, and is heard of in the other -/

/-- Nothing but the writer's joining is called. -/
def onlyJoins (i : Bool) (c : ChannelManager.Call) : Prop :=
  i = false ∧ c = ChannelManager.writerJoins

theorem accepted_writerJoins : Accepted ChannelManager.kind places (channelManagers places) false
    ChannelManager.writerJoins where
  accepts := ⟨rfl, by decide, rfl⟩
  fits := ChannelManager.fits_writerJoined

theorem writerJoins_heard : ∃ s, ChannelReached places onlyJoins s ∧
    s.said false = [ChannelManager.writerJoined] ∧ s.heard false true = s.said false ∧
    ∀ i, s.heard true i = s.said true := by
  have hprimed : ChannelManager.Primed .littleEndian
      ⟨fun _ _ _ => 2, ChannelManager.writerJoined, []⟩ := ⟨ChannelManager.fits_writerJoined, rfl⟩
  obtain ⟨s, hs, hwired, hsaid⟩ := Reached.exists_call (o := ChannelManager.observation)
    (P := onlyJoins) ready_channelManagers .start wired_start ⟨.inl rfl, .inl rfl⟩ ⟨rfl, rfl⟩
    accepted_writerJoins
  obtain ⟨s', hs', -, hheard⟩ := hs.exists_receive (i := false) (j := true) distinct_places
    ready_channelManagers hwired (fun _ _ _ => 2) fun msg hmsg => by
      rw [hsaid] at hmsg
      cases hmsg
      exact hprimed
  rw [hsaid] at hheard
  have hsaid' : ∀ i, s'.said i = _ := fun i => congrFun (congrArg Broadcast.said hheard) i
  have hheard' : ∀ i j, s'.heard i j = _ := fun i j =>
    congrFun (congrFun (congrArg Broadcast.heard hheard) i) j
  exact ⟨s', hs', hsaid' false, (hheard' false true).trans (hsaid' false).symm,
    fun i => (hheard' true i).trans (hsaid' true).symm⟩

/-- The process that has heard of the writer holds what was announced. -/
theorem held_announced_writerJoins : ∃ s, ChannelReached places anyCall s ∧
    (s.manager true).rolesOf [0x61] 7 = announced places false [ChannelManager.writerJoined] := by
  obtain ⟨s, honly, hsaid, hheard, -⟩ := writerJoins_heard
  have hs : ChannelReached places anyCall s := honly.mono fun _ _ _ => trivial
  have hheld := (held_announced distinct_places hs false true).2
  rw [hheard, hsaid] at hheld
  exact ⟨s, hs, hheld⟩

theorem settled_agree_writerJoins : ∃ s, ChannelReached places anyCall s ∧ ∀ side,
    ((s.manager false).nodeRoles side).Perm ((s.manager true).nodeRoles side) ∧
      ((s.manager false).channelRoles side).Perm ((s.manager true).channelRoles side) := by
  obtain ⟨s, honly, -, hheard, hback⟩ := writerJoins_heard
  have hs : ChannelReached places anyCall s := honly.mono fun _ _ _ => trivial
  refine ⟨s, hs, settled_agree distinct_places hs (fun i => ?_) fun i => ?_⟩
  · cases i with
    | false => exact .inl rfl
    | true => exact .inr (hback false)
  · cases i with
    | false => exact .inr hheard
    | true => exact .inl rfl

end Network

end Discovery
end Cmw
