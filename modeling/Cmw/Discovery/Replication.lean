import Cmw.Discovery.NodeGraph
import Cmw.Serialize.RoundTrip

/-!
# One manager's calls at another

`Join` and `Leave` dispose of a message and write it out; `OnRemoteChange` reads
it in another process and disposes of it there.  What `SERIALIZE` leaves out of a
message, `channel_id`, is in the other process what its storage held before.
-/

namespace Cmw
namespace Discovery

open Config
open Library
open Serialize
open Library.ByteImage

/-! ## Writing -/

/-- `Write(msg)`: its result, and the message put on the writer with the bytes that
carry it. -/
def Manager.write (m : Manager) (host : ByteOrder) (msg : ChangeMsg) :
    Outcome (Bool × List (ChangeMsg × List Byte)) :=
  if !m.isDiscoveryStarted then .ok (false, [])
  else do
    let ds ← ChangeMsg.type.write host msg (DataStream.new host)
    .ok (true, if m.hasWriter then [(msg, ds.mBuf)] else [])

def Manager.needPublish (_ : Manager) (_ : ChangeMsg) : Bool := true

/-- `ChangeMsg msg; DataStream ds(str_msg); ds >> msg;` -/
def ChannelManager.decode (host : ByteOrder) (stack : Stack) (str : List Byte) :
    Outcome ChangeMsg := do
  let ds ← DataStream.ofString host str
  let (msg, _) ← readLocal ChangeMsg.init (ChangeMsg.type.read host stack) stack ds
  .ok msg

/-- What a call comes to. -/
structure Reply (μ : Type) where
  result : Bool
  manager : μ
  notified : List ChangeMsg := []
  sent : List (ChangeMsg × List Byte) := []

/-- A call of `Join(attr, role)` or of `Leave(attr, role)`. -/
structure ChannelManager.Call where
  attr : RoleAttributes
  role : RoleType
  opt : OperateType
  now : BitVec 64

def ChannelManager.Call.msg (m : Manager) (c : ChannelManager.Call) : ChangeMsg :=
  m.convert c.attr c.role c.opt c.now

/-- What a manager overrides. -/
structure Overrides (μ : Type) where
  manager : μ → Manager
  check : RoleAttributes → Bool
  dispose : μ → ChangeMsg → μ × List ChangeMsg
  manager_dispose : ∀ m msg, manager (dispose m msg).1 = manager m
  notifies : ∀ m msg, (dispose m msg).2 = [msg]

namespace Overrides

section Functions

variable {μ : Type} (k : Overrides μ) (host : ByteOrder) (m : μ)

/-- The steps `Join` and `Leave` share. -/
def announce (attr : RoleAttributes) (role : RoleType) (opt : OperateType)
    (needWrite : ChangeMsg → Bool) (now : BitVec 64) : Outcome (Reply μ) :=
  match (k.manager m).prepare k.check attr role opt now with
  | none => .ok { result := false, manager := m }
  | some msg =>
      let (m, notified) := k.dispose m msg
      if needWrite msg then do
        let (result, sent) ← (k.manager m).write host msg
        .ok { result, manager := m, notified, sent }
      else .ok { result := true, manager := m, notified }

def join (attr : RoleAttributes) (role : RoleType) (needWrite : Bool) (now : BitVec 64) :
    Outcome (Reply μ) :=
  k.announce host m attr role .optJoin (fun _ => needWrite) now

def leave (attr : RoleAttributes) (role : RoleType) (now : BitVec 64) : Outcome (Reply μ) :=
  k.announce host m attr role .optLeave (k.manager m).needPublish now

def call (c : ChannelManager.Call) : Outcome (Reply μ) :=
  match c.opt with
  | .optJoin => k.join host m c.attr c.role true c.now
  | .optLeave => k.leave host m c.attr c.role c.now

def onRemoteChange (stack : Stack) (str : List Byte) : Outcome (μ × List ChangeMsg) :=
  if (k.manager m).isShutdown then .ok (m, [])
  else do
    let msg ← ChannelManager.decode host stack str
    .ok <| if (k.manager m).isFromSameProcess msg then (m, [])
      else if !k.check msg.roleAttr then (m, [])
      else k.dispose m msg

end Functions

variable {μ : Type} {k : Overrides μ} {host : ByteOrder} {m : μ} {attr : RoleAttributes}
  {role : RoleType} {opt : OperateType} {needWrite : ChangeMsg → Bool} {now : BitVec 64}

/-- A message is disposed of and written, or the call is refused. -/
theorem announce_cases {reply : Reply μ} (hneed : ∀ msg, needWrite msg = true)
    (hstart : (k.manager m).isDiscoveryStarted = true) (hwriter : (k.manager m).hasWriter = true)
    (h : k.announce host m attr role opt needWrite now = .ok reply) :
    (reply.manager = m ∧ reply.sent = [] ∧ reply.notified = []) ∨
      ∃ ds, k.check attr = true ∧
        ChangeMsg.type.write host ((k.manager m).convert attr role opt now) (DataStream.new host) =
          .ok ds ∧
        reply.manager = (k.dispose m ((k.manager m).convert attr role opt now)).1 ∧
        reply.sent = [((k.manager m).convert attr role opt now, ds.mBuf)] ∧
        reply.notified = [(k.manager m).convert attr role opt now] := by
  rw [announce] at h
  split at h
  case h_1 =>
    cases h
    exact .inl ⟨rfl, rfl, rfl⟩
  case h_2 msg hprepare =>
    obtain ⟨hcheck, rfl⟩ := Manager.prepare_eq hprepare
    dsimp only at h
    rw [if_pos (hneed _)] at h
    obtain ⟨⟨result, sent⟩, hwrite, h⟩ := of_bind_ok h
    cases h
    rw [k.manager_dispose, Manager.write, hstart, hwriter] at hwrite
    obtain ⟨ds, hds, hwrite⟩ := of_bind_ok hwrite
    cases hwrite
    exact .inr ⟨ds, hcheck, hds, rfl, rfl, k.notifies m _⟩

theorem announce_ok (hneed : ∀ msg, needWrite msg = true) (hup : (k.manager m).isShutdown = false)
    (hstart : (k.manager m).isDiscoveryStarted = true) (hwriter : (k.manager m).hasWriter = true)
    (hrole : roleBit role &&& (k.manager m).allowedRole ≠ 0) (hcheck : k.check attr = true)
    (hlen : (ChangeMsg.type.image host ((k.manager m).convert attr role opt now)).length ≤ 2 ^ 30) :
    ∃ str, k.announce host m attr role opt needWrite now =
      .ok { result := true
            manager := (k.dispose m ((k.manager m).convert attr role opt now)).1
            notified := [(k.manager m).convert attr role opt now]
            sent := [((k.manager m).convert attr role opt now, str)] } := by
  have hempty : (DataStream.new host).mBuf.length +
      (ChangeMsg.type.image host ((k.manager m).convert attr role opt now)).length ≤ 2 ^ 30 := by
    show 0 + _ ≤ _
    omega
  obtain ⟨ds, hds, -⟩ := STy.write_ok _ _ _ hempty
  have hprepare : (k.manager m).prepare k.check attr role opt now =
      some ((k.manager m).convert attr role opt now) := by
    rw [Manager.prepare, hup, hcheck, if_neg (by decide), if_neg hrole, if_neg (by decide)]
  refine ⟨ds.mBuf, ?_⟩
  rw [announce, hprepare]
  dsimp only
  rw [if_pos (hneed _), k.manager_dispose, Manager.write, hstart, hwriter, if_neg (by decide), hds,
    k.notifies]
  rfl

/-- What a call of `Join` or `Leave` has put on the writer. -/
theorem call_cases {c : ChannelManager.Call} {reply : Reply μ}
    (hstart : (k.manager m).isDiscoveryStarted = true) (hwriter : (k.manager m).hasWriter = true)
    (h : k.call host m c = .ok reply) :
    (reply.manager = m ∧ reply.sent = [] ∧ reply.notified = []) ∨
      ∃ ds, k.check c.attr = true ∧
        ChangeMsg.type.write host (c.msg (k.manager m)) (DataStream.new host) = .ok ds ∧
        reply.manager = (k.dispose m (c.msg (k.manager m))).1 ∧
        reply.sent = [(c.msg (k.manager m), ds.mBuf)] ∧
        reply.notified = [c.msg (k.manager m)] := by
  obtain ⟨attr, role, opt, now⟩ := c
  cases opt with
  | optJoin => exact announce_cases (fun _ => rfl) hstart hwriter h
  | optLeave => exact announce_cases (fun _ => rfl) hstart hwriter h

variable (host) in
theorem call_ok (c : ChannelManager.Call) (hup : (k.manager m).isShutdown = false)
    (hstart : (k.manager m).isDiscoveryStarted = true) (hwriter : (k.manager m).hasWriter = true)
    (hrole : roleBit c.role &&& (k.manager m).allowedRole ≠ 0) (hcheck : k.check c.attr = true)
    (hlen : (ChangeMsg.type.image host (c.msg (k.manager m))).length ≤ 2 ^ 30) :
    ∃ str, k.call host m c =
      .ok { result := true
            manager := (k.dispose m (c.msg (k.manager m))).1
            notified := [c.msg (k.manager m)]
            sent := [(c.msg (k.manager m), str)] } := by
  obtain ⟨attr, role, opt, now⟩ := c
  cases opt with
  | optJoin => exact announce_ok (fun _ => rfl) hup hstart hwriter hrole hcheck hlen
  | optLeave => exact announce_ok (fun _ => rfl) hup hstart hwriter hrole hcheck hlen

end Overrides

namespace ChannelManager

theorem toManager_step (m : ChannelManager) (msg : ChangeMsg) :
    (m.step msg).toManager = m.toManager := by
  by_cases h : msg.operateType = OperateType.optJoin.word
  · rw [step_join h, disposeJoin]
    split <;> rfl
  · rw [step_leave h, disposeLeave]
    split <;> rfl

def overrides : Overrides ChannelManager where
  manager m := m.toManager
  check := check
  dispose := dispose
  manager_dispose := toManager_step
  notifies _ _ := rfl

/-! ## Runs -/

/-- The sender's run: its end and everything it has sent. -/
def serve (host : ByteOrder) (m : ChannelManager) :
    List Call → Outcome (ChannelManager × List (ChangeMsg × List Byte))
  | [] => .ok (m, [])
  | c :: cs => do
      let reply ← overrides.call host m c
      let (m, sent) ← serve host reply.manager cs
      .ok (m, reply.sent ++ sent)

structure Receipt where
  stack : Stack
  msg : ChangeMsg
  str : List Byte

def receive (host : ByteOrder) (m : ChannelManager) : List Receipt → Outcome ChannelManager
  | [] => .ok m
  | receipt :: receipts => do
      let (m, _) ← overrides.onRemoteChange host m receipt.stack receipt.str
      receive host m receipts

/-- The same roles under the same keys. -/
structure SameRoles (m m' : ChannelManager) : Prop where
  nodeGraph : m'.nodeGraph = m.nodeGraph
  nodeRoles : m'.nodeRoles = m.nodeRoles
  channelRoles : m'.channelRoles = m.channelRoles

/-- Every message arrives as it was sent, and the receiver ends as the sender
does. -/
def Replicates (host : ByteOrder) (receiver sender : ChannelManager) (receipts : List Receipt) :
    Prop :=
  (∀ receipt ∈ receipts, decode host receipt.stack receipt.str = .ok receipt.msg) ∧
    ∃ m, receive host receiver receipts = .ok m ∧ sender.SameRoles m

/-- The encoding of the message is of at most `2 ^ 30` bytes, and the storage it is
read into has its channel id to begin with. -/
def Primed (w : ByteOrder) (receipt : Receipt) : Prop :=
  (ChangeMsg.type.image w receipt.msg).length ≤ 2 ^ 30 ∧
    (ChangeMsg.init (receipt.stack 0)).roleAttr.channelId = receipt.msg.roleAttr.channelId

/-! ## One message -/

variable {w r : ByteOrder}

theorem ofString_ok {str : List Byte} (h : str.length ≤ 2 ^ 30) :
    ∃ ds, DataStream.ofString r str = .ok ds ∧ ds.mBuf = str ∧ ds.mPos = 0 := by
  have hint : str.length ≤ maxInt := by
    unfold maxInt
    omega
  have hempty : (DataStream.new r).mBuf.length + str.length ≤ 2 ^ 30 := by
    show 0 + str.length ≤ 2 ^ 30
    omega
  obtain ⟨cap, hcap⟩ := DataStream.reserve_ok (DataStream.new r) hempty
  rw [DataStream.ofString, toInt_ofNat_32 hint, if_neg (by omega), Int.toNat_natCast,
    DataStream.reserved, hcap, ok_bind, ok_bind, write_eq_append rfl]
  exact DataStream.append_ok hempty

/-- The message but for its channel id, which stays what it was. -/
theorem decode_image {msg : ChangeMsg} (h : (ChangeMsg.type.image w msg).length ≤ 2 ^ 30)
    (stack : Stack) : decode r stack (ChangeMsg.type.image w msg) =
      .ok { msg with roleAttr := { msg.roleAttr with
        channelId := (ChangeMsg.init (stack 0)).roleAttr.channelId } } := by
  obtain ⟨ds, hds, hbuf, hpos⟩ := ofString_ok (r := r) h
  have hahead : ds.Ahead (ChangeMsg.type.image w msg) :=
    ⟨[], [], by rw [hbuf, List.append_nil]; rfl, hpos⟩
  have hreadable : ChangeMsg.type.Readable :=
    ⟨trivial, rfl, rfl, rfl, ⟨trivial, trivial, trivial, trivial,
      ⟨rfl, trivial, trivial, trivial, rfl, rfl, trivial⟩, trivial, trivial, trivial, trivial,
      trivial⟩, trivial⟩
  have hreads : Reads (ChangeMsg.type.read r stack) (ChangeMsg.init (stack ds.mPos))
      (ChangeMsg.type.image w msg) _ := ChangeMsg.type.read_reads hreadable msg _
  have hread := hreads ds hahead
  rw [decode, hds, ok_bind, readLocal, hread, hpos]
  rfl

structure ShortNames (attr : RoleAttributes) : Prop where
  hostName : attr.hostName.length ≤ maxInt
  hostIp : attr.hostIp.length ≤ maxInt
  channelName : attr.channelName.length ≤ maxInt
  nodeName : attr.nodeName.length ≤ maxInt
  messageType : attr.messageType.length ≤ maxInt

theorem shortNames_init (junk : Junk) : ShortNames (RoleAttributes.init junk) where
  hostName := Nat.zero_le _
  hostIp := Nat.zero_le _
  channelName := Nat.zero_le _
  nodeName := Nat.zero_le _
  messageType := Nat.zero_le _

theorem keeps_shortNames (stack : Stack) : RoleAttributes.args.Keeps r stack ShortNames := by
  refine ⟨?_, ?_, ?_, ?_, ?_, ?_, ?_, ?_, ?_, trivial⟩
  · intro old v s u found hold hread
    exact { hold with hostName := length_le_of_readString hold.hostName hread }
  · intro old v s u found hold hread
    exact { hold with hostIp := length_le_of_readString hold.hostIp hread }
  · intro old v s u found hold _
    exact { hold with }
  · intro old v s u found hold hread
    exact { hold with channelName := length_le_of_readString hold.channelName hread }
  · intro old v s u found hold _
    exact { hold with }
  · intro old v s u found hold _
    exact { hold with }
  · intro old v s u found hold hread
    exact { hold with nodeName := length_le_of_readString hold.nodeName hread }
  · intro old v s u found hold _
    exact { hold with }
  · intro old v s u found hold hread
    exact { hold with messageType := length_le_of_readString hold.messageType hread }

theorem shortNames_of_decode {stack : Stack} {str : List Byte} {msg : ChangeMsg}
    (h : decode r stack str = .ok msg) : ShortNames msg.roleAttr := by
  obtain ⟨ds, _, h⟩ := of_bind_ok h
  obtain ⟨⟨msg', ds'⟩, hlocal, h⟩ := of_bind_ok h
  obtain ⟨⟨found, msg'', ds''⟩, hread, hlocal⟩ := of_bind_ok hlocal
  cases hlocal
  cases h
  have hkeeps : ChangeMsg.args.Keeps r stack fun msg => ShortNames msg.roleAttr := by
    refine ⟨fun hold _ => hold, fun hold _ => hold, fun hold _ => hold, fun hold _ => hold, ?_,
      trivial⟩
    exact fun hold hread => (keeps_shortNames stack).readCustom hold hread
  exact hkeeps.readCustom (shortNames_init _) hread

theorem short_chunks {msg : ChangeMsg} (h : ShortNames msg.roleAttr) :
    Short (ChangeMsg.type.chunks w msg) := by
  have hsmall : 8 ≤ maxInt := by decide
  simp only [ChangeMsg.type, ChangeMsg.args, RoleAttributes.type, RoleAttributes.args,
    QosProfile.type, QosProfile.args, STy.chunks, Args.chunks, lenChunks, Scalar.size, short_cons,
    short_append, short_nil, List.length_cons, List.length_nil, littleEndian_length, and_true]
  obtain ⟨hhost, hip, hchannel, hnode, htype⟩ := h
  omega

/-! ## Whole runs -/

theorem SameRoles.step {m m' : ChannelManager} (h : m.SameRoles m') (msg : ChangeMsg) :
    (m.step msg).SameRoles (m'.step msg) := by
  by_cases hjoin : msg.operateType = OperateType.optJoin.word
  · refine ⟨?_, funext fun side => ?_, funext fun side => ?_⟩
    · rw [nodeGraph_join hjoin, nodeGraph_join hjoin, h.nodeGraph]
    · rw [step_join hjoin, step_join hjoin, nodeRoles_disposeJoin, nodeRoles_disposeJoin,
        h.nodeRoles]
    · rw [step_join hjoin, step_join hjoin, channelRoles_disposeJoin, channelRoles_disposeJoin,
        h.channelRoles]
  · refine ⟨?_, funext fun side => ?_, funext fun side => ?_⟩
    · rw [nodeGraph_leave hjoin, nodeGraph_leave hjoin, h.nodeGraph]
    · rw [step_leave hjoin, step_leave hjoin, nodeRoles_disposeLeave, nodeRoles_disposeLeave,
        h.nodeRoles]
    · rw [step_leave hjoin, step_leave hjoin, channelRoles_disposeLeave,
        channelRoles_disposeLeave, h.channelRoles]

theorem SameRoles.exec {m m' : ChannelManager} (h : m.SameRoles m') (msgs : List ChangeMsg) :
    (Run.exec ChannelManager.step m msgs).SameRoles (Run.exec ChannelManager.step m' msgs) := by
  induction msgs generalizing m m' with
  | nil => exact h
  | cons msg msgs ih => exact ih (h.step msg)

theorem toManager_exec (m : ChannelManager) (msgs : List ChangeMsg) :
    (Run.exec ChannelManager.step m msgs).toManager = m.toManager := by
  induction msgs generalizing m with
  | nil => rfl
  | cons msg msgs ih => rw [Run.exec_cons, ih, toManager_step]

/-- What has been sent in the course of `calls`. -/
structure Sent (w : ByteOrder) (m : Manager) (calls : List Call) (msg : ChangeMsg)
    (str : List Byte) : Prop where
  built : ∃ c ∈ calls, msg = c.msg m
  checked : check msg.roleAttr = true
  written : ∃ ds, ChangeMsg.type.write w msg (DataStream.new w) = .ok ds ∧ str = ds.mBuf

theorem Sent.mono {m : Manager} {calls calls' : List Call} {msg : ChangeMsg} {str : List Byte}
    (h : Sent w m calls msg str) (hsub : calls ⊆ calls') : Sent w m calls' msg str := by
  obtain ⟨c, hc, hbuilt⟩ := h.built
  exact { h with built := ⟨c, hsub hc, hbuilt⟩ }

theorem call_sent {m : ChannelManager} {c : Call} {reply : Reply ChannelManager}
    (hstart : m.isDiscoveryStarted = true) (hwriter : m.hasWriter = true)
    (h : overrides.call w m c = .ok reply) :
    reply.manager = Run.exec ChannelManager.step m (reply.sent.map Prod.fst) ∧
      ∀ p ∈ reply.sent, Sent w m.toManager [c] p.1 p.2 := by
  rcases Overrides.call_cases hstart hwriter h with
    ⟨hmanager, hsent, -⟩ | ⟨ds, hcheck, hds, hmanager, hsent, -⟩
  · rw [hmanager, hsent]
    exact ⟨rfl, List.forall_mem_nil _⟩
  · rw [hmanager, hsent]
    refine ⟨rfl, List.forall_mem_singleton.mpr ?_⟩
    exact ⟨⟨_, List.mem_singleton_self _, rfl⟩, hcheck, ds, hds, rfl⟩

theorem serve_sent {m m' : ChannelManager} {calls : List Call}
    {sent : List (ChangeMsg × List Byte)} (hstart : m.isDiscoveryStarted = true)
    (hwriter : m.hasWriter = true) (h : m.serve w calls = .ok (m', sent)) :
    m' = Run.exec ChannelManager.step m (sent.map Prod.fst) ∧
      ∀ p ∈ sent, Sent w m.toManager calls p.1 p.2 := by
  induction calls generalizing m sent with
  | nil =>
      cases h
      exact ⟨rfl, List.forall_mem_nil _⟩
  | cons c calls ih =>
      obtain ⟨reply, hcall, h⟩ := of_bind_ok h
      obtain ⟨⟨m'', rest⟩, hrest, h⟩ := of_bind_ok h
      cases h
      obtain ⟨hend, hsent⟩ := call_sent hstart hwriter hcall
      have hkept : reply.manager.toManager = m.toManager := by
        rw [hend]
        exact toManager_exec m _
      obtain ⟨hend', hsent'⟩ := ih (hkept ▸ hstart) (hkept ▸ hwriter) hrest
      refine ⟨?_, ?_⟩
      · rw [hend', hend, List.map_append, Run.exec_append]
      · intro p hp
        rcases List.mem_append.mp hp with hp | hp
        · exact (hsent p hp).mono fun _ hc => List.mem_singleton.mp hc ▸ List.mem_cons_self
        · exact (hkept ▸ hsent' p hp).mono (List.subset_cons_self c calls)

theorem onRemoteChange_eq {m : ChannelManager} {stack : Stack} {str : List Byte} {msg : ChangeMsg}
    (hup : m.isShutdown = false) (hdecode : decode r stack str = .ok msg)
    (hforeign : m.isFromSameProcess msg = false) (hcheck : check msg.roleAttr = true) :
    overrides.onRemoteChange r m stack str = .ok (m.dispose msg) := by
  show (if m.isShutdown then _ else _) = _
  rw [hup, if_neg Bool.false_ne_true, hdecode, ok_bind]
  show Except.ok (if m.isFromSameProcess msg then _ else if !check msg.roleAttr then _ else _) = _
  rw [hforeign, hcheck]
  rfl

theorem receive_eq {m : ChannelManager} (hup : m.isShutdown = false) {receipts : List Receipt}
    (h : ∀ receipt ∈ receipts, decode r receipt.stack receipt.str = .ok receipt.msg ∧
      m.isFromSameProcess receipt.msg = false ∧ check receipt.msg.roleAttr = true) :
    m.receive r receipts =
      .ok (Run.exec ChannelManager.step m (receipts.map fun receipt => receipt.msg)) := by
  induction receipts generalizing m with
  | nil => rfl
  | cons receipt receipts ih =>
      obtain ⟨hdecode, hforeign, hcheck⟩ := h receipt List.mem_cons_self
      have hkept := toManager_step m receipt.msg
      rw [receive, onRemoteChange_eq hup hdecode hforeign hcheck, ok_bind]
      refine ih (m := m.step receipt.msg) (hkept ▸ hup) fun receipt hreceipt => ?_
      rw [hkept]
      exact h receipt (List.mem_cons_of_mem _ hreceipt)

/-- A message that has been sent arrives as it is if and only if it fits and its
channel id is there already. -/
theorem decode_sent_iff {m : Manager} {calls : List Call} {receipt : Receipt}
    (h : Sent w m calls receipt.msg receipt.str) :
    decode r receipt.stack receipt.str = .ok receipt.msg ↔ Primed w receipt := by
  obtain ⟨ds, hds, hstr⟩ := h.written
  constructor
  · intro hdecode
    obtain ⟨himage, hlen⟩ := STy.image_of_write (short_chunks (shortNames_of_decode hdecode)) hds
    rw [hstr, himage, decode_image hlen] at hdecode
    exact ⟨hlen, congrArg (fun msg => msg.roleAttr.channelId) (Except.ok.inj hdecode)⟩
  · intro hp
    obtain ⟨hlen, hid⟩ := hp
    have hint : (ChangeMsg.type.image w receipt.msg).length ≤ maxInt := by
      unfold maxInt
      omega
    obtain ⟨himage, -⟩ := STy.image_of_write (short_of_flatten hint) hds
    rw [hstr, himage, decode_image hlen, hid]

/-- Everything that one manager sends arrives at another as it was sent, and leaves
the same roles there, if and only if every arriving message finds its channel id in
the storage it is read into. -/
theorem replicates_iff_primed {hostName hostName' : Str} {processId processId' : BitVec 32}
    {calls : List Call} {sender : ChannelManager} {receipts : List Receipt}
    (hforeign : ∀ c ∈ calls, (new hostName' processId').isFromSameProcess
      (c.msg (new hostName processId).toManager) = false)
    (hserve : serve w (new hostName processId).startDiscovery calls =
      .ok (sender, receipts.map fun receipt => (receipt.msg, receipt.str))) :
    Replicates r (new hostName' processId') sender receipts ↔
      ∀ receipt ∈ receipts, Primed w receipt := by
  obtain ⟨hend, hsent⟩ := serve_sent rfl rfl hserve
  replace hsent : ∀ receipt ∈ receipts, Sent w _ calls receipt.msg receipt.str :=
    List.forall_mem_map.mp hsent
  rw [List.map_map] at hend
  constructor
  · intro h receipt hreceipt
    obtain ⟨hdecode, -⟩ := h
    exact (decode_sent_iff (hsent receipt hreceipt)).mp (hdecode receipt hreceipt)
  · intro hprimed
    have hdecode : ∀ receipt ∈ receipts,
        decode r receipt.stack receipt.str = .ok receipt.msg := fun receipt hreceipt =>
      (decode_sent_iff (hsent receipt hreceipt)).mpr (hprimed receipt hreceipt)
    refine ⟨hdecode, _, receive_eq rfl fun receipt hreceipt => ⟨hdecode receipt hreceipt, ?_, ?_⟩, ?_⟩
    · obtain ⟨c, hc, hbuilt⟩ := (hsent receipt hreceipt).built
      rw [hbuilt]
      exact hforeign c hc
    · exact (hsent receipt hreceipt).checked
    · have hempty : (new hostName processId).startDiscovery.SameRoles
          (new hostName' processId') := ⟨rfl, rfl, rfl⟩
      rw [hend]
      exact hempty.exec _

/-- Writer 3 of channel `c`, whose id is 2, joins. -/
def writerJoins : Call :=
  { attr :=
      { hostName := [], hostIp := [], processId := 0, channelName := [0x63], channelId := 2,
        qosProfile := {}, id := 3, nodeName := [0x6E], nodeId := 1, messageType := [] }
    role := .roleWriter
    opt := .optJoin
    now := 5 }

/-- What it sends, on a little-endian host called `a`. -/
def writerJoined : ChangeMsg := writerJoins.msg (new [0x61] 7).toManager

theorem fits_writerJoined : (ChangeMsg.type.image .littleEndian writerJoined).length ≤ 2 ^ 30 := by
  have hlen : (ChangeMsg.type.image .littleEndian writerJoined).length = 113 := by decide
  omega

theorem serve_writerJoins : ∃ str, serve .littleEndian (new [0x61] 7).startDiscovery [writerJoins] =
    .ok ((new [0x61] 7).startDiscovery.step writerJoined, [(writerJoined, str)]) := by
  have hcall : ∃ str, overrides.call .littleEndian (new [0x61] 7).startDiscovery writerJoins = .ok
      { result := true
        manager := (new [0x61] 7).startDiscovery.step writerJoined
        notified := [writerJoined]
        sent := [(writerJoined, str)] } :=
    Overrides.call_ok .littleEndian writerJoins rfl rfl rfl (by decide) (by decide) fits_writerJoined
  obtain ⟨str, hcall⟩ := hcall
  refine ⟨str, ?_⟩
  rw [serve, hcall]
  rfl

theorem writerJoined_foreign : ∀ c ∈ [writerJoins],
    (new [0x62] 8).isFromSameProcess (c.msg (new [0x61] 7).toManager) = false := by
  decide

/-- The writer arrives where the storage of its channel id holds a 2. -/
theorem writerJoins_replicates : ∃ sender str,
    serve .littleEndian (new [0x61] 7).startDiscovery [writerJoins] =
      .ok (sender, [(writerJoined, str)]) ∧
    Replicates .bigEndian (new [0x62] 8) sender
      [{ stack := fun _ _ _ => 2, msg := writerJoined, str }] := by
  obtain ⟨str, hserve⟩ := serve_writerJoins
  refine ⟨_, str, hserve, (replicates_iff_primed writerJoined_foreign hserve).mpr ?_⟩
  exact List.forall_mem_singleton.mpr ⟨fits_writerJoined, rfl⟩

/-- Where it holds zero, the writer does not arrive. -/
theorem writerJoins_not_replicates : ∃ sender str,
    serve .littleEndian (new [0x61] 7).startDiscovery [writerJoins] =
      .ok (sender, [(writerJoined, str)]) ∧
    ¬ Replicates .littleEndian (new [0x62] 8) sender
      [{ stack := fun _ _ _ => 0, msg := writerJoined, str }] := by
  obtain ⟨str, hserve⟩ := serve_writerJoins
  refine ⟨_, str, hserve, fun h => ?_⟩
  obtain ⟨-, hsent⟩ := serve_sent rfl rfl hserve
  have hprimed := (decode_sent_iff (hsent _ List.mem_cons_self)).mp (h.1 _ List.mem_cons_self)
  have hid : (ChangeMsg.init fun _ _ => 0).roleAttr.channelId = writerJoined.roleAttr.channelId :=
    hprimed.2
  revert hid
  decide

end ChannelManager

end Discovery
end Cmw
