import Cmw.Transport.MessageInfo
import Cmw.Transport.Receiver
import Cmw.Transport.Shm.Ownership

/-!
# Where a message from shared memory goes

`ReadMessage` copies the bytes of the sender into an identity that was made without
hash, and `Run` looks for the listeners by that.
-/

namespace Cmw
namespace Transport
namespace Shm
namespace Routing

open Library
open Library.ByteImage
open Library.Thread

variable {ι κ : Type} [DecidableEq ι]

section Results

variable (order : ByteOrder)

/-- The message information comes out of a block, byte by byte. -/
def OfBlock (d : Delivery) : Prop :=
  ∃ senderId spareId seqNum, d.msgInfo = .ofBlock order senderId spareId seqNum

theorem OfBlock.hashValue {order : ByteOrder} {d : Delivery} (h : OfBlock order d) :
    d.msgInfo.senderId.hashValue = 0 := by
  obtain ⟨_, _, _, hd⟩ := h
  rw [hd]
  rfl

abbrev unchecked : Protocol sig ι XsiSegment (Ownership.Shared ι) Bool Ownership.exec :=
  Protocol.unchecked (S := sig) Ownership.exec

variable {i : ι} {x : XsiSegment} {k : Ownership.Shared ι}

theorem readBlock_ofBlock (listeners : Nat) (rb : ReadableBlock) :
    unchecked.Safe i (fun _ d _ => OfBlock order d) (readBlock order listeners rb x) k := by
  rw [readBlock]
  refine Protocol.unchecked_seq fun _ _ _ => ?_
  refine Protocol.unchecked_seq fun _ _ _ => ?_
  refine Protocol.unchecked_seq fun _ _ _ => ?_
  refine Protocol.unchecked_seq fun _ senderId _ => ?_
  refine Protocol.unchecked_seq fun _ spareId _ => ?_
  refine Protocol.unchecked_seq fun _ seqNum _ => ?_
  refine Protocol.unchecked_seq fun _ _ _ => ?_
  refine Protocol.unchecked_seq fun _ _ _ => ?_
  exact ⟨senderId, spareId, seqNum, rfl⟩

theorem receive_ofBlock (d : ShmDispatcher) (listeners n : Nat) :
    unchecked.Safe i (fun _ delivery _ => ∀ d, delivery = some d → OfBlock order d)
      (d.receive order listeners n x) k := by
  rw [ShmDispatcher.receive]
  refine Protocol.unchecked_seq fun _ readableInfo _ => ?_
  cases readableInfo with
  | none => simp
  | some readableInfo =>
      simp only [Protocol.safe_ite]
      refine ⟨fun _ => by simp, fun _ => ⟨fun _ => by simp, fun _ => ?_⟩⟩
      simp only [Protocol.safe_seq, Protocol.safe_pure]
      refine Protocol.unchecked_seq fun _ acquired _ => ?_
      refine (readBlock_ofBlock order listeners acquired.2).mono trivial fun _ d _ _ hd d' heq => ?_
      exact Option.some.inj heq ▸ hd

def Returned (_ : ι) (_ : XsiSegment) (a : Ownership.Answer) (_ : Ownership.Shared ι) : Prop :=
  ∀ listeners n d, a = .received listeners n (some d) → OfBlock order d

theorem body_returned (call : Ownership.Call) :
    unchecked.Safe i (Returned order i) (call.body order x) k := by
  cases call with
  | transmit t fuel msg info => exact Protocol.unchecked_seq fun _ _ _ _ _ _ => by simp
  | receive dispatcher listeners n =>
      simp only [Ownership.Call.body, Protocol.safe_seq, Protocol.safe_pure]
      refine (receive_ofBlock order dispatcher listeners n).mono trivial ?_
      intro _ delivery _ _ hdelivery listeners' n' d heq
      cases heq
      exact hdelivery d rfl

variable {order}

/-- Whoever else transmits and receives, and whatever they do to the segment. -/
theorem delivered_ofBlock {c : ShmConf} {es : List (Ownership.Step ι)} :
    ∀ t ∈ Run.states (Ownership.step order) (Ownership.start c ι) es,
      ∀ i x listeners n d, t.threads i = .done x (.received listeners n (some d)) →
        OfBlock order d := by
  intro t ht i x listeners n d hi
  have halong : Run.Along (Ownership.step order) (unchecked.Meets fun _ _ _ _ => True)
      (Ownership.start c ι) es := by
    refine Run.along_of_forall_mem fun e _ s => ?_
    cases e with
    | call i call => exact fun _ _ _ => trivial
    | act i ok => exact fun _ _ _ _ => trivial
  have hholds : unchecked.Holds (Returned order) t := by
    refine Protocol.sound ?_ ?_ ?_ ?_ halong t ht
    · exact fun _ _ _ _ _ h _ _ => h
    · exact fun _ _ _ _ _ _ _ _ => ⟨trivial, fun _ _ => trivial⟩
    · exact fun _ call _ _ _ _ _ _ => body_returned order call
    · exact ⟨trivial, fun _ => nofun⟩
  exact hholds.rest hi listeners n d rfl

end Results

/-- Of the listeners for single senders, the handler calls just those for `Hash(s)`. -/
def Routed (hash : List Byte → BitVec 64) (h : ListenerHandler κ) (d : Delivery) (s : Identity) :
    Prop :=
  (h.run d.msgInfo.senderId.hashValue).1 = h.signal.called ++ h.calledTo (hash s.data.toList)

theorem routed_iff {order : ByteOrder} {hash : List Byte → BitVec 64} {h : ListenerHandler κ}
    {d : Delivery} {s : Identity} (hd : OfBlock order d) :
    Routed hash h d s ↔ h.calledTo 0 = h.calledTo (hash s.data.toList) := by
  rw [Routed, ListenerHandler.run_called, hd.hashValue, List.append_cancel_left_eq]

section Routed

variable (hash : List Byte → BitVec 64) (order : ByteOrder) (c : ShmConf)

/-- A message that `ReadMessage` has taken for one of sender `s` goes to the listeners for
0, whatever `s` is. -/
theorem identified_and_routed (program : List Statement) (es : List (Ownership.Step ι)) :
    Identified hash order (Store.run (code hash order) program) (Store.run origins program) ∧
      ∀ t ∈ Run.states (Ownership.step order) (Ownership.start c ι) es,
        ∀ i x listeners n d (s : Sending) (h : ListenerHandler κ),
          t.threads i = .done x (.received listeners n (some d)) → d.Carries s listeners →
            (Routed hash h d s.info.senderId ↔
              h.calledTo 0 = h.calledTo (hash s.info.senderId.data.toList)) :=
  ⟨identified_run program, fun t ht i x listeners n d _ _ hi _ =>
    routed_iff (delivered_ofBlock t ht i x listeners n d hi)⟩

end Routed

/-! ### A message that its listener does not hear -/

def shiftMix (v : BitVec 64) : BitVec 64 := v ^^^ (v >>> 47)

def hashMul : BitVec 64 := 0xc6a4a7935bd1e995

/-- Eight bytes in each round, and last the bytes that are left. -/
def hashRounds : Nat → List Byte → BitVec 64 → BitVec 64
  | 0, [], h => h
  | 0, bs, h => (h ^^^ ofImage 8 .littleEndian bs) * hashMul
  | n + 1, bs, h =>
      let data := shiftMix (ofImage 8 .littleEndian (bs.take 8) * hashMul) * hashMul
      hashRounds n (bs.drop 8) ((h ^^^ data) * hashMul)

/-- `std::hash<std::string>` of libstdc++. -/
def stdHash (bs : List Byte) : BitVec 64 :=
  let h := hashRounds (bs.length / 8) bs (0xc70f6907 ^^^ BitVec.ofNat 64 bs.length * hashMul)
  shiftMix (shiftMix h * hashMul)

def sender : Identity := .generate stdHash (.ofFn fun i => .ofNat 8 i)

def sending : Sending := { msg := [1], info := .new sender 1 }

/-- One process transmits, and another one receives. -/
def sendOnce : List (Ownership.Step Nat) :=
  .call 0 (.transmit { hostId := 0, channelId := 0, enabled := true } 1 sending.msg sending.info) ::
    List.replicate 16 (.act 0 true) ++
    .call 1 (Ownership.receiveNotice 0) :: List.replicate 15 (.act 1 true)

/-- Listener 3 is there for the messages of `sender`. -/
def handler : ListenerHandler Nat := ListenerHandler.connectTo {} 7 sender.hashValue 3

def sent : Ownership.State Nat :=
  Run.exec (Ownership.step .littleEndian) (Ownership.start Ownership.eightBlocks Nat) sendOnce

def received (t : Ownership.State ι) (i : ι) : Option (Nat × Nat × MessageInfo × List (List Byte)) :=
  match t.threads i with
  | .done _ (.received listeners n (some d)) => some (listeners, n, d.msgInfo, d.payloads)
  | _ => none

omit [DecidableEq ι] in
theorem exists_of_received {t : Ownership.State ι} {i : ι} {listeners n : Nat} {info : MessageInfo}
    {ps : List (List Byte)} (h : received t i = some (listeners, n, info, ps)) :
    ∃ x d, t.threads i = .done x (.received listeners n (some d)) ∧ d.msgInfo = info ∧
      d.payloads = ps := by
  rw [received] at h
  split at h
  case h_1 x l m d hi =>
    cases h
    exact ⟨x, d, hi, rfl, rfl⟩
  case h_2 => cases h

theorem sent_received : ∃ x d, sent.threads 1 = .done x (.received 1 0 (some d)) ∧
    d.Carries sending 1 := by
  obtain ⟨x, d, hi, hinfo, hpayloads⟩ := exists_of_received
    (show received sent 1 =
      some (1, 0, { sending.info with senderId := { sender with hashValue := 0 } }, [[1]]) by
      decide +kernel)
  exact ⟨x, d, hi, congrArg (fun info => info.senderId.data) hinfo,
    congrArg (fun info => info.spareId.data) hinfo, congrArg (fun info => info.seqNum) hinfo,
    hpayloads⟩

/-- An identity is put into a message information, which is copied, and the sender of another one
is read from a block. -/
def program : List Statement :=
  [.generate 0 (.ofFn fun i => .ofNat 8 i), .infoOf 0 0 1, .copyInfo 1 0,
    .readMessage 2 sender.data.toList [] [], .copySenderId 1 2]

/-- Listener 3 is there for the messages of everyone. -/
def handlerOfAll : ListenerHandler Nat := ListenerHandler.connect {} 7 3

/-- The handler that has a listener for the sender does not call it, and the other one calls the
listener for everyone. -/
theorem identified_and_routed_sendOnce :
    Identified stdHash .littleEndian (Store.run (code stdHash .littleEndian) program)
        (Store.run origins program) ∧
      ∃ x d, sent.threads 1 = .done x (.received 1 0 (some d)) ∧
        ¬ Routed stdHash handler d sender ∧ Routed stdHash handlerOfAll d sender := by
  have h := identified_and_routed (κ := Nat) (ι := Nat) stdHash .littleEndian
    Ownership.eightBlocks program sendOnce
  refine ⟨h.1, ?_⟩
  obtain ⟨x, d, hi, hcarries⟩ := sent_received
  have hrouted := h.2 sent (Run.exec_mem_states _ _ _) 1 x 1 0 d sending
  refine ⟨x, d, hi, fun hlost => ?_, ?_⟩
  · exact absurd ((hrouted handler hi hcarries).mp hlost) (by decide +kernel)
  · exact (hrouted handlerOfAll hi hcarries).mpr (by decide +kernel)

/-- `ReadMessage` leaves the hash at 0, and the listener for the sender is not called. -/
theorem sendOnce_not_routed :
    (¬ ∀ program p id,
      (Store.run (code stdHash .littleEndian) program).find (code stdHash .littleEndian) p =
        some id → id.hashValue = stdHash id.data.toList) ∧
    ¬ ∀ c es, ∀ t ∈ Run.states (Ownership.step .littleEndian) (Ownership.start c Nat) es,
      ∀ i x listeners n d (s : Sending) (h : ListenerHandler Nat),
        t.threads i = .done x (.received listeners n (some d)) → d.Carries s listeners →
          Routed stdHash h d s.info.senderId := by
  refine ⟨fun h => ?_, fun h => ?_⟩
  · have hhash := h [.readMessage 0 [1, 2, 3, 4, 5, 6, 7, 8] [] []] (.sender 0) _ rfl
    exact absurd hhash (by decide +kernel)
  · obtain ⟨x, d, hi, hcarries⟩ := sent_received
    have hrouted := h Ownership.eightBlocks sendOnce sent (Run.exec_mem_states _ _ _) 1 x 1 0 d
      sending handler hi hcarries
    have hof : OfBlock .littleEndian d :=
      delivered_ofBlock sent (Run.exec_mem_states _ _ _) 1 x 1 0 d hi
    exact absurd ((routed_iff hof).mp hrouted) (by decide +kernel)

end Routing
end Shm
end Transport
end Cmw
