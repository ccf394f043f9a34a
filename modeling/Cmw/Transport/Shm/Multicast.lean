import Cmw.Library.ByteImage
import Cmw.Library.Run
import Cmw.Library.Table
import Cmw.Transport.Shm.Kernel

/-!
# Notifications by multicast

transport/shm/readable_info.cpp, transport/shm/multicast_notifier.cpp, and `AddSegment` and
`ThreadFunc` of transport/dispatcher/shm_dispatcher.cpp.  A notification is a datagram of twenty
bytes; anybody may send to the group, so the dispatcher's thread may receive anything.

A run is what the calls of `poll`, `recvfrom` and `AcquireBlockToRead` come to, with the segments
that are added on the way.  `ReadMessage` uses a block that it could not acquire as well, and the
process dies of a null pointer there.  What it reads from one that it has acquired is not part of
the run: the listeners that are given it are taken to return.
-/

namespace Cmw
namespace Transport
namespace Shm

open Library
open Library.ByteImage

/-! ## The bytes of a notification -/

namespace ReadableInfo

def kSize : Nat := 8 * 2 + 4

/-- `SerializeTo(&dst)`.  The index of a block is a word of 32 bits. -/
def serializeTo (order : ByteOrder) (info : ReadableInfo) : List Byte :=
  image order (k := 8) info.hostId ++ image order (k := 4) (BitVec.ofNat 32 info.blockIndex) ++
    image order (k := 8) info.channelId

/-- `DeserializeFrom(src, len)` -/
def deserializeFrom (order : ByteOrder) (info : ReadableInfo) (src : List Byte) :
    Bool × ReadableInfo :=
  if src.length < kSize then (false, info)
  else
    (true,
      { hostId := ofImage 8 order (src.take 8)
        blockIndex := (ofImage 4 order ((src.drop 8).take 4)).toNat
        channelId := ofImage 8 order ((src.drop 12).take 8) })

theorem serializeTo_length (order : ByteOrder) (info : ReadableInfo) :
    (info.serializeTo order).length = kSize := by
  rw [serializeTo, List.length_append, List.length_append, image_length, image_length,
    image_length]
  rfl

/-- What has been written comes back, with anything behind it. -/
theorem deserializeFrom_serializeTo (order : ByteOrder) {info : ReadableInfo}
    (h : info.blockIndex < 2 ^ 32) (old : ReadableInfo) (trailing : List Byte) :
    old.deserializeFrom order (info.serializeTo order ++ trailing) = (true, info) := by
  have hlen : ¬(info.serializeTo order ++ trailing).length < kSize := by
    rw [List.length_append, serializeTo_length]
    omega
  have hhost : (image order (k := 8) info.hostId).length = 8 := image_length ..
  have hindex : (image order (k := 4) (BitVec.ofNat 32 info.blockIndex)).length = 4 :=
    image_length ..
  have hchannel : (image order (k := 8) info.channelId).length = 8 := image_length ..
  have hindexes : (BitVec.ofNat 32 info.blockIndex).toNat = info.blockIndex := by
    rw [BitVec.toNat_ofNat, Nat.mod_eq_of_lt h]
  rw [deserializeFrom, if_neg hlen, serializeTo, List.append_assoc, List.append_assoc]
  have htake : ∀ {a b : List Byte} {n : Nat}, a.length = n → (a ++ b).take n = a :=
    fun ha => ha ▸ List.take_left
  have hdrop : ∀ {a b : List Byte} {n : Nat}, a.length = n → (a ++ b).drop n = b :=
    fun ha => ha ▸ List.drop_left
  have hrest := hdrop (a := image order (k := 8) info.hostId ++
    image order (k := 4) (BitVec.ofNat 32 info.blockIndex))
    (b := image order (k := 8) info.channelId ++ trailing) (n := 12)
    (by rw [List.length_append, hhost, hindex])
  rw [List.append_assoc] at hrest
  rw [htake hhost, hdrop hhost, htake hindex, hrest, htake hchannel, ofImage_image, ofImage_image,
    ofImage_image, hindexes]

/-- What has been read is written as the bytes that it was read from. -/
theorem serializeTo_deserializeFrom (order : ByteOrder) (old : ReadableInfo) {src : List Byte}
    (h : kSize ≤ src.length) :
    (old.deserializeFrom order src).2.serializeTo order = src.take kSize := by
  have hlen : 20 ≤ src.length := h
  have hhost : (src.take 8).length = 8 := by
    rw [List.length_take]
    omega
  have hindex : ((src.drop 8).take 4).length = 4 := by
    rw [List.length_take, List.length_drop]
    omega
  have hchannel : ((src.drop 12).take 8).length = 8 := by
    rw [List.length_take, List.length_drop]
    omega
  have hword : BitVec.ofNat 32 (ofImage 4 order ((src.drop 8).take 4)).toNat =
      ofImage 4 order ((src.drop 8).take 4) := BitVec.ofNat_toNat ..
  rw [deserializeFrom, if_neg (Nat.not_lt.mpr h), serializeTo, hword, image_ofImage order hhost,
    image_ofImage order hindex, image_ofImage order hchannel, ← List.take_add, ← List.take_add]
  rfl

end ReadableInfo

/-! ## The two ends -/

/-- What `poll` on the listening socket comes to, and `recvfrom` after it. -/
inductive Poll
  | received (datagram : List Byte)
  | failedToReceive
  | timeout
  | interrupted
  | failedToPoll

structure MulticastNotifier where
  isShutdown : Bool := false
  deriving DecidableEq, Repr

namespace MulticastNotifier

/-- The datagram that `Notify(info)` hands to `sendto`. -/
def notify (order : ByteOrder) (n : MulticastNotifier) (info : ReadableInfo) : Option (List Byte) :=
  if n.isShutdown then none else some (info.serializeTo order)

/-- `Listen(timeout_ms, info)`, which has room for 32 bytes. -/
def listen (order : ByteOrder) (n : MulticastNotifier) (poll : Poll) (info : ReadableInfo) :
    Bool × ReadableInfo :=
  if n.isShutdown then (false, info)
  else
    match poll with
    | .received datagram => info.deserializeFrom order (datagram.take 32)
    | _ => (false, info)

end MulticastNotifier

/-- What is logged of the index of a block, after that of the notification before. -/
inductive Remark
  | none | same | previous | jump
  deriving DecidableEq, Repr

def uint32Max : BitVec 32 := BitVec.allOnes 32

def remarkOf (previousIndex blockIndex : BitVec 32) : Remark :=
  if blockIndex ≠ 0 ∧ previousIndex ≠ uint32Max then
    if blockIndex = previousIndex then .same
    else if blockIndex < previousIndex then .previous
    else if blockIndex - previousIndex > 1 then .jump
    else .none
  else .none

/-- A call of `ReadMessage(channel_id, block_index)`, with what has been logged before it, and
whether the block could be acquired. -/
structure BlockRead where
  channelId : BitVec 64
  blockIndex : BitVec 32
  remark : Remark
  acquired : Bool
  deriving DecidableEq, Repr

/-- The dispatcher's thread: the local variable of `ThreadFunc`, and what it shares. -/
structure ListenThread where
  hostId : BitVec 64
  isShutdown : Bool := false
  crashed : Bool := false
  notifier : MulticastNotifier := {}
  segments : List (BitVec 64) := []
  previousIndexs : Table (BitVec 64) (BitVec 32) := ∅
  readableInfo : ReadableInfo := {}

namespace ListenThread

def addSegment (t : ListenThread) (channelId : BitVec 64) : ListenThread :=
  if channelId ∈ t.segments then t
  else
    { t with
      segments := t.segments ++ [channelId]
      previousIndexs := t.previousIndexs.insert channelId uint32Max }

/-- A round of `ThreadFunc`.  `acquired` is what `AcquireBlockToRead` gives where it is called:
the block with its buffer, or neither. -/
def round (order : ByteOrder) (t : ListenThread) (poll : Poll) (acquired : Bool) :
    Option BlockRead × ListenThread :=
  if t.isShutdown then (none, t)
  else
    let (heard, readableInfo) := t.notifier.listen order poll t.readableInfo
    let t := { t with readableInfo }
    if !heard then (none, t)
    else if readableInfo.hostId ≠ t.hostId then (none, t)
    else
      let channelId := readableInfo.channelId
      let blockIndex := BitVec.ofNat 32 readableInfo.blockIndex
      if channelId ∉ t.segments then (none, t)
      else
        -- where there is no entry, it is compared with UINT32_MAX and not set to it
        let previousIndexs := t.previousIndexs.touch 0 channelId
        let previousIndex := previousIndexs.get 0 channelId
        -- `rb->block` and `rb->buf` are used whether `AcquireBlockToRead` has set them or not
        (some { channelId, blockIndex, remark := remarkOf previousIndex blockIndex, acquired },
          { t with
            previousIndexs := previousIndexs.insert channelId blockIndex
            crashed := !acquired })

inductive Event
  | addSegment (channelId : BitVec 64)
  | round (poll : Poll) (acquired : Bool)
  | shutdown

/-- `Shutdown()`: what the thread has begun it ends first, as `join` waits for it. -/
def shutdown (t : ListenThread) : ListenThread :=
  if t.isShutdown then t else { t with isShutdown := true, segments := [] }

/-- The thread, with the blocks that it has read. -/
structure Traced where
  thread : ListenThread
  reads : List BlockRead := []

/-- Nothing more happens in a process that has died. -/
def step (order : ByteOrder) (t : Traced) (e : Event) : Traced :=
  if t.thread.crashed then t
  else
    match e with
    | .addSegment channelId => { t with thread := t.thread.addSegment channelId }
    | .round poll acquired =>
        let r := t.thread.round order poll acquired
        { thread := r.2, reads := t.reads ++ r.1.toList }
    | .shutdown => { t with thread := t.thread.shutdown }

section Step

variable {order : ByteOrder} {t : Traced}

theorem step_of_crashed (h : t.thread.crashed = true) (e : Event) : step order t e = t := if_pos h

theorem step_addSegment (h : t.thread.crashed = false) (channelId : BitVec 64) :
    step order t (.addSegment channelId) = { t with thread := t.thread.addSegment channelId } :=
  if_neg (by simp [h])

theorem step_round (h : t.thread.crashed = false) (poll : Poll) (acquired : Bool) :
    step order t (.round poll acquired) =
      { thread := (t.thread.round order poll acquired).2
        reads := t.reads ++ (t.thread.round order poll acquired).1.toList } :=
  if_neg (by simp [h])

theorem step_shutdown (h : t.thread.crashed = false) :
    step order t .shutdown = { t with thread := t.thread.shutdown } :=
  if_neg (by simp [h])

end Step

/-! ## What is read -/

/-- What a datagram asks of a host: a block of a channel. -/
def askedBy (order : ByteOrder) (hostId : BitVec 64) (datagram : List Byte) :
    Option (BitVec 64 × BitVec 32) :=
  if datagram.length < ReadableInfo.kSize then none
  else
    let info := (ReadableInfo.deserializeFrom order {} datagram).2
    if info.hostId = hostId then some (info.channelId, BitVec.ofNat 32 info.blockIndex) else none

/-- The datagram begins with what `Notify` of this host sends for the block. -/
def Announces (order : ByteOrder) (hostId : BitVec 64) (datagram : List Byte)
    (a : BitVec 64 × BitVec 32) : Prop :=
  ∃ sent trailing, datagram = sent ++ trailing ∧
    MulticastNotifier.notify order {} { hostId, blockIndex := a.2.toNat, channelId := a.1 } =
      some sent

/-- What a call of `poll` leads to that asks for a block of a channel with a segment. -/
def request (order : ByteOrder) (hostId : BitVec 64) (segments : List (BitVec 64)) :
    Poll → Option (BitVec 64 × BitVec 32)
  | .received datagram => (askedBy order hostId datagram).filter fun a => a.1 ∈ segments
  | _ => none

/-- What a run asks for, of the channels that have a segment by then, and whether it is acquired:
until the thread is shut down, or is asked for a block that it cannot acquire. -/
def asked (order : ByteOrder) (hostId : BitVec 64) :
    List (BitVec 64) → List Event → List ((BitVec 64 × BitVec 32) × Bool)
  | _, [] => []
  | segments, .addSegment channelId :: es => asked order hostId (channelId :: segments) es
  | segments, .round poll acquired :: es =>
      match request order hostId segments poll with
      | some a => (a, acquired) :: if acquired then asked order hostId segments es else []
      | none => asked order hostId segments es
  | _, .shutdown :: _ => []

/-- The index of the block that was read last of a channel. -/
def lastIndex (reads : List BlockRead) (channelId : BitVec 64) : BitVec 32 :=
  ((reads.filter fun r => r.channelId = channelId).getLast?.map BlockRead.blockIndex).getD uint32Max

/-- Every block is compared with the one before it of its channel. -/
def Remarked (reads : List BlockRead) : Prop :=
  ∀ before r after, reads = before ++ r :: after →
    r.remark = remarkOf (lastIndex before r.channelId) r.blockIndex

theorem lastIndex_concat (reads : List BlockRead) (r : BlockRead) (channelId : BitVec 64) :
    lastIndex (reads ++ [r]) channelId =
      if r.channelId = channelId then r.blockIndex else lastIndex reads channelId := by
  rw [lastIndex, List.filter_append, List.filter_singleton]
  by_cases h : r.channelId = channelId
  · simp [h]
  · simp [h, lastIndex]

theorem lastIndex_of_not_mem {reads : List BlockRead} {channelId : BitVec 64}
    (h : ∀ r ∈ reads, r.channelId ≠ channelId) : lastIndex reads channelId = uint32Max := by
  have hnone : (reads.filter fun r => r.channelId = channelId) = [] := by
    rw [List.filter_eq_nil_iff]
    intro r hr
    simpa using h r hr
  rw [lastIndex, hnone]
  rfl

theorem Remarked.concat {reads : List BlockRead} {r : BlockRead} (h : Remarked reads)
    (hr : r.remark = remarkOf (lastIndex reads r.channelId) r.blockIndex) :
    Remarked (reads ++ [r]) := by
  intro before q after heq
  rcases List.eq_nil_or_concat after with rfl | ⟨after, z, rfl⟩
  · obtain ⟨rfl, hq⟩ := List.append_inj' heq rfl
    obtain rfl : r = q := by simpa using hq
    exact hr
  · rw [List.concat_eq_append, ← List.cons_append, ← List.append_assoc] at heq
    exact h before q after (List.append_inj' heq rfl).1

/-- A datagram asks for a block exactly where it begins with what `Notify` sends for it. -/
theorem askedBy_iff_announces {order : ByteOrder} {hostId : BitVec 64} {datagram : List Byte}
    {a : BitVec 64 × BitVec 32} :
    askedBy order hostId datagram = some a ↔ Announces order hostId datagram a := by
  constructor
  · intro h
    rw [askedBy] at h
    split at h
    case isTrue => cases h
    case isFalse hlen =>
      have hlen : ReadableInfo.kSize ≤ datagram.length := Nat.not_lt.mp hlen
      have hsent := ReadableInfo.serializeTo_deserializeFrom order {} hlen
      dsimp only at h
      split at h
      case isFalse => cases h
      case isTrue hhost =>
        refine ⟨datagram.take ReadableInfo.kSize, datagram.drop ReadableInfo.kSize,
          (List.take_append_drop ..).symm, ?_⟩
        have hindex : (ReadableInfo.deserializeFrom order {} datagram).2.blockIndex < 2 ^ 32 := by
          rw [ReadableInfo.deserializeFrom, if_neg (Nat.not_lt.mpr hlen)]
          exact BitVec.isLt _
        obtain rfl := Option.some.inj h
        rw [BitVec.toNat_ofNat, Nat.mod_eq_of_lt hindex, ← hhost]
        exact congrArg some hsent
  · rintro ⟨sent, trailing, rfl, hsent⟩
    obtain rfl := Option.some.inj hsent
    have hlen : ¬(ReadableInfo.serializeTo order
        { hostId, blockIndex := a.2.toNat, channelId := a.1 } ++ trailing).length <
          ReadableInfo.kSize := by
      rw [List.length_append, ReadableInfo.serializeTo_length]
      omega
    rw [askedBy, if_neg hlen, ReadableInfo.deserializeFrom_serializeTo order a.2.isLt]
    exact (if_pos rfl).trans (congrArg (fun b => some (a.1, b)) (BitVec.ofNat_toNat ..))

/-- Nothing is asked for but by a datagram. -/
theorem asked_announced {order : ByteOrder} {hostId : BitVec 64} {segments : List (BitVec 64)}
    {es : List Event} {a : (BitVec 64 × BitVec 32) × Bool}
    (ha : a ∈ asked order hostId segments es) :
    ∃ datagram, .round (.received datagram) a.2 ∈ es ∧ Announces order hostId datagram a.1 := by
  induction es generalizing segments with
  | nil => exact absurd ha List.not_mem_nil
  | cons e es ih =>
    have hrest : ∀ {segments}, a ∈ asked order hostId segments es →
        ∃ datagram, .round (.received datagram) a.2 ∈ e :: es ∧
          Announces order hostId datagram a.1 := fun ha =>
      (ih ha).imp fun _ hd => ⟨List.mem_cons_of_mem _ hd.1, hd.2⟩
    cases e with
    | addSegment channelId => exact hrest ha
    | shutdown => exact absurd ha List.not_mem_nil
    | round poll acquired =>
      rw [asked] at ha
      split at ha
      case h_2 => exact hrest ha
      case h_1 b hb =>
        rcases List.mem_cons.mp ha with rfl | ha
        · cases poll with
          | received datagram =>
            have hasked : askedBy order hostId datagram = some b :=
              (Option.filter_eq_some_iff.mp hb).1
            exact ⟨datagram, List.mem_cons_self, askedBy_iff_announces.mp hasked⟩
          | failedToReceive | timeout | interrupted | failedToPoll => cases hb
        · split at ha
          case isTrue => exact hrest ha
          case isFalse => exact absurd ha List.not_mem_nil

/-- The room of 32 bytes cuts nothing off that is read. -/
theorem askedBy_take (order : ByteOrder) (hostId : BitVec 64) (datagram : List Byte) :
    askedBy order hostId (datagram.take 32) = askedBy order hostId datagram := by
  have hlen : (datagram.take 32).length < ReadableInfo.kSize ↔
      datagram.length < ReadableInfo.kSize := by
    rw [List.length_take, ReadableInfo.kSize]
    omega
  have hfront : ∀ i n, i + n ≤ 32 → ((datagram.take 32).drop i).take n =
      (datagram.drop i).take n := by
    intro i n hi
    rw [List.drop_take, List.take_take, Nat.min_eq_left (by omega)]
  have hhost : (datagram.take 32).take 8 = datagram.take 8 := hfront 0 8 (by omega)
  by_cases h : datagram.length < ReadableInfo.kSize
  · rw [askedBy, askedBy, if_pos (hlen.mpr h), if_pos h]
  · rw [askedBy, askedBy, if_neg (fun h' => h (hlen.mp h')), if_neg h,
      ReadableInfo.deserializeFrom, ReadableInfo.deserializeFrom,
      if_neg (fun h' => h (hlen.mp h')), if_neg h, hhost, hfront 8 4 (by omega),
      hfront 12 8 (by omega)]

/-! ## The invariant -/

/-- While the thread runs: the indexes that it keeps are those of the blocks read last. -/
structure Inv (hostId : BitVec 64) (t : Traced) : Prop where
  host : t.thread.hostId = hostId
  up : t.thread.isShutdown = false ∧ t.thread.notifier.isShutdown = false
  crashed : t.thread.crashed = false
  acquired : ∀ r ∈ t.reads, r.acquired = true
  known : ∀ r ∈ t.reads, r.channelId ∈ t.thread.segments
  previous : ∀ c ∈ t.thread.segments, t.thread.previousIndexs.lookup c = some (lastIndex t.reads c)
  remarked : Remarked t.reads

/-- The thread after it has read a block. -/
def reading (t : ListenThread) (info : ReadableInfo) (a : BitVec 64 × BitVec 32)
    (acquired : Bool) : ListenThread :=
  { t with
    readableInfo := info
    previousIndexs := t.previousIndexs.insert a.1 a.2
    crashed := !acquired }

variable {order : ByteOrder} {hostId : BitVec 64} {t : Traced}

/-- What `Listen` comes to while the notifier runs. -/
theorem listen_cases {n : MulticastNotifier} (hup : n.isShutdown = false) (poll : Poll)
    (old : ReadableInfo) (hostId : BitVec 64) :
    (∃ datagram info, poll = .received datagram ∧ n.listen order poll old = (true, info) ∧
      askedBy order hostId datagram =
        if info.hostId = hostId then some (info.channelId, BitVec.ofNat 32 info.blockIndex)
        else none) ∨
    ((∀ datagram, poll = .received datagram → askedBy order hostId datagram = none) ∧
      n.listen order poll old = (false, old)) := by
  have hlisten : n.listen order poll old =
      match poll with
      | .received datagram => old.deserializeFrom order (datagram.take 32)
      | _ => (false, old) := by
    unfold MulticastNotifier.listen
    exact if_neg (by simp [hup])
  rw [hlisten]
  cases poll with
  | received datagram =>
    by_cases hshort : (datagram.take 32).length < ReadableInfo.kSize
    · refine .inr ⟨?_, by simp only [ReadableInfo.deserializeFrom, if_pos hshort]⟩
      rintro _ ⟨⟩
      rw [← askedBy_take, askedBy, if_pos hshort]
    · refine .inl ⟨datagram, _, rfl, by
        simp only [ReadableInfo.deserializeFrom, if_neg hshort]; rfl, ?_⟩
      rw [← askedBy_take, askedBy, if_neg hshort]
      simp only [ReadableInfo.deserializeFrom, if_neg hshort]
  | failedToReceive | timeout | interrupted | failedToPoll =>
    exact .inr ⟨by rintro _ ⟨⟩, rfl⟩

variable (order) in
/-- What a round does while the thread runs. -/
theorem round_cases (h : Inv hostId t) (poll : Poll) (acquired : Bool) :
    (∃ a info, request order hostId t.thread.segments poll = some a ∧
      t.thread.round order poll acquired =
        (some ⟨a.1, a.2, remarkOf (lastIndex t.reads a.1) a.2, acquired⟩,
          t.thread.reading info a acquired)) ∨
    (∃ info, request order hostId t.thread.segments poll = none ∧
      t.thread.round order poll acquired = (none, { t.thread with readableInfo := info })) := by
  have hrunning : ¬t.thread.isShutdown = true := by simp [h.up.1]
  rw [round, if_neg hrunning]
  rcases listen_cases h.up.2 poll t.thread.readableInfo hostId with
    ⟨datagram, info, rfl, hlisten, hasked⟩ | ⟨hnone, hlisten⟩
  · rw [hlisten, request, hasked]
    by_cases hhost : info.hostId = hostId
    · rw [if_pos hhost]
      by_cases hsegment : info.channelId ∈ t.thread.segments
      · refine .inl ⟨(info.channelId, BitVec.ofNat 32 info.blockIndex), info,
          Option.filter_some_pos (by simpa using hsegment), ?_⟩
        have hlookup := h.previous _ hsegment
        have hmem : info.channelId ∈ t.thread.previousIndexs :=
          AList.lookup_isSome.mp (by rw [hlookup]; rfl)
        simp [h.host, hhost, hsegment, Table.touch, hmem, Table.get_of_lookup hlookup, reading]
      · refine .inr ⟨info, Option.filter_some_neg (by simpa using hsegment), ?_⟩
        simp [h.host, hhost, hsegment]
    · rw [if_neg hhost]
      exact .inr ⟨info, rfl, by simp [h.host, hhost]⟩
  · refine .inr ⟨t.thread.readableInfo, ?_, by rw [hlisten]; rfl⟩
    cases poll with
    | received datagram => rw [request, hnone datagram rfl, Option.filter_none]
    | failedToReceive | timeout | interrupted | failedToPoll => rfl

/-- The rounds in which nothing is asked for. -/
theorem Inv.round_none (h : Inv hostId t) {poll : Poll} (acquired : Bool)
    (hnone : request order hostId t.thread.segments poll = none) :
    Inv hostId (step order t (.round poll acquired)) ∧
      (step order t (.round poll acquired)).thread.segments = t.thread.segments ∧
      (step order t (.round poll acquired)).reads = t.reads := by
  rcases round_cases order h poll acquired with ⟨a, info, ha, -⟩ | ⟨info, -, hround⟩
  · cases ha.symm.trans hnone
  · rw [step_round h.crashed, hround, Option.toList_none, List.append_nil]
    exact ⟨⟨h.host, h.up, h.crashed, h.acquired, h.known, h.previous, h.remarked⟩, rfl, rfl⟩

/-- A round in which a block is asked for: the thread goes on where it could be acquired. -/
theorem Inv.round_some (h : Inv hostId t) {poll : Poll} (acquired : Bool)
    {a : BitVec 64 × BitVec 32} (ha : request order hostId t.thread.segments poll = some a) :
    ∃ r, (step order t (.round poll acquired)).reads = t.reads ++ [r] ∧
      (r.channelId, r.blockIndex) = a ∧ r.acquired = acquired ∧
      Remarked (step order t (.round poll acquired)).reads ∧
      (step order t (.round poll acquired)).thread.segments = t.thread.segments ∧
      (step order t (.round poll acquired)).thread.crashed = !acquired ∧
      (acquired = true → Inv hostId (step order t (.round poll acquired))) := by
  rcases round_cases order h poll acquired with ⟨a', info, ha', hround⟩ | ⟨info, hnone, -⟩
  · obtain rfl : a' = a := Option.some.inj (ha'.symm.trans ha)
    have hsegment : a'.1 ∈ t.thread.segments := by
      cases poll with
      | received datagram => simpa using (Option.filter_eq_some_iff.mp ha).2
      | failedToReceive | timeout | interrupted | failedToPoll => cases ha
    rw [step_round h.crashed, hround]
    have hremarked := h.remarked.concat
      (r := ⟨a'.1, a'.2, remarkOf (lastIndex t.reads a'.1) a'.2, acquired⟩) rfl
    refine ⟨_, rfl, rfl, rfl, hremarked, rfl, rfl, ?_⟩
    rintro rfl
    refine ⟨h.host, h.up, rfl, fun r hr => ?_, fun r hr => ?_, fun c hc => ?_, hremarked⟩
    · rcases List.mem_append.mp hr with hr | hr
      · exact h.acquired r hr
      · obtain rfl : r = _ := by simpa using hr
        rfl
    · rcases List.mem_append.mp hr with hr | hr
      · exact h.known r hr
      · obtain rfl : r = _ := by simpa using hr
        exact hsegment
    · have hother := h.previous c hc
      simp only [reading, Option.toList_some, lastIndex_concat, Table.lookup_insert]
      by_cases hcc : c = a'.1
      · rw [if_pos hcc, if_pos hcc.symm]
      · rw [if_neg hcc, if_neg (Ne.symm hcc), hother]
  · cases hnone.symm.trans ha

variable (order) in
theorem Inv.addSegment (h : Inv hostId t) (channelId : BitVec 64) :
    Inv hostId (step order t (.addSegment channelId)) ∧
      (step order t (.addSegment channelId)).reads = t.reads ∧
      ∀ c, c ∈ (step order t (.addSegment channelId)).thread.segments ↔
        c = channelId ∨ c ∈ t.thread.segments := by
  rw [step_addSegment h.crashed, ListenThread.addSegment]
  split
  case isTrue hmem =>
    refine ⟨h, rfl, fun c => ⟨.inr, ?_⟩⟩
    rintro (rfl | hc)
    · exact hmem
    · exact hc
  case isFalse hmem =>
    -- nothing of the channel has been read, as it had no segment
    have hfresh : lastIndex t.reads channelId = uint32Max :=
      lastIndex_of_not_mem fun r hr hc => hmem (hc ▸ h.known r hr)
    refine ⟨⟨h.host, h.up, h.crashed, h.acquired, ?_, ?_, h.remarked⟩, rfl, fun c => ?_⟩
    · exact fun r hr => List.mem_append_left _ (h.known r hr)
    · intro c hc
      rw [Table.lookup_insert]
      by_cases hcc : c = channelId
      · rw [if_pos hcc, hcc, hfresh]
      · rw [if_neg hcc]
        exact h.previous c (by simpa [hcc] using hc)
    · rw [List.mem_append, List.mem_singleton, or_comm]

variable (order) in
/-- A thread that has been shut down reads nothing, and does not die. -/
theorem exec_of_isShutdown (h : t.thread.isShutdown = true) (hcrashed : t.thread.crashed = false)
    (es : List Event) :
    (Run.exec (step order) t es).reads = t.reads ∧
      (Run.exec (step order) t es).thread.crashed = false := by
  refine (Run.invariant_always (I := fun (u : Traced) => u.thread.isShutdown = true ∧
    u.reads = t.reads ∧ u.thread.crashed = false) ?_ ⟨h, rfl, hcrashed⟩ _
      (Run.exec_mem_states ..)).2
  rintro u e ⟨hdown, hreads, hcrashed⟩
  cases e with
  | addSegment channelId =>
    rw [step_addSegment hcrashed, ListenThread.addSegment]
    split <;> exact ⟨hdown, hreads, hcrashed⟩
  | round poll acquired =>
    rw [step_round hcrashed, ListenThread.round, if_pos hdown]
    exact ⟨hdown, by rw [Option.toList_none, List.append_nil, hreads], hcrashed⟩
  | shutdown =>
    rw [step_shutdown hcrashed, ListenThread.shutdown, if_pos hdown]
    exact ⟨hdown, hreads, hcrashed⟩

theorem exec_of_crashed (h : t.thread.crashed = true) (es : List Event) :
    Run.exec (step order) t es = t := by
  induction es with
  | nil => rfl
  | cons e es ih => rw [Run.exec_cons, step_of_crashed h, ih]

/-- What a run leads to. -/
structure Outcome (reads : List BlockRead) (a : List ((BitVec 64 × BitVec 32) × Bool))
    (t : Traced) : Prop where
  reads : (t.reads.map fun r => ((r.channelId, r.blockIndex), r.acquired)) =
    (reads.map fun r => ((r.channelId, r.blockIndex), r.acquired)) ++ a
  remarked : Remarked t.reads
  crashed : t.thread.crashed = true ↔ ∃ r ∈ t.reads, r.acquired = false

theorem Inv.outcome (h : Inv hostId t) : Outcome t.reads [] t where
  reads := (List.append_nil _).symm
  remarked := h.remarked
  crashed := by
    refine iff_of_false (by simp [h.crashed]) ?_
    rintro ⟨r, hr, hfalse⟩
    cases (h.acquired r hr).symm.trans hfalse

theorem Inv.exec (h : Inv hostId t) {segments : List (BitVec 64)}
    (hsegments : ∀ c, c ∈ t.thread.segments ↔ c ∈ segments) (es : List Event) :
    Outcome t.reads (asked order hostId segments es) (Run.exec (step order) t es) := by
  induction es generalizing t segments with
  | nil => exact h.outcome
  | cons e es ih =>
    rw [Run.exec_cons]
    cases e with
    | addSegment channelId =>
      obtain ⟨hinv, hreads, hmem⟩ := h.addSegment order channelId
      have hadded : ∀ c, c ∈ (step order t (.addSegment channelId)).thread.segments ↔
          c ∈ channelId :: segments := fun c => (hmem c).trans (by rw [hsegments, List.mem_cons])
      have hrest := ih hinv hadded
      rw [hreads] at hrest
      exact hrest
    | round poll acquired =>
      have hrequest : request order hostId segments poll =
          request order hostId t.thread.segments poll := by
        cases poll with
        | received datagram => simp only [request, hsegments]
        | failedToReceive | timeout | interrupted | failedToPoll => rfl
      rw [asked, hrequest]
      split
      case h_1 a ha =>
        obtain ⟨r, hreads, hr, hacquired, hremarked, heq, hcrashed, hinv⟩ :=
          h.round_some acquired ha
        cases acquired with
        | true =>
          have hrest := ih (hinv rfl) (fun c => heq ▸ hsegments c)
          refine ⟨hrest.reads.trans ?_, hrest.remarked, hrest.crashed⟩
          rw [hreads, List.map_append, List.append_assoc, List.map_singleton, hr, hacquired]
          rfl
        | false =>
          rw [exec_of_crashed hcrashed]
          refine ⟨?_, hremarked, iff_of_true hcrashed ⟨r, ?_, hacquired⟩⟩
          · rw [hreads, List.map_append, List.map_singleton, hr, hacquired]
            rfl
          · exact hreads ▸ List.mem_append_right _ List.mem_cons_self
      case h_2 hnone =>
        obtain ⟨hinv, heq, hreads⟩ := h.round_none acquired hnone
        have hrest := ih hinv (fun c => heq ▸ hsegments c)
        rwa [hreads] at hrest
    | shutdown =>
      have hdown : t.thread.shutdown.isShutdown = true ∧ t.thread.shutdown.crashed = false := by
        rw [ListenThread.shutdown, if_neg (by simp [h.up.1])]
        exact ⟨rfl, h.crashed⟩
      obtain ⟨hreads, hcrashed⟩ := exec_of_isShutdown order
        (t := { t with thread := t.thread.shutdown }) hdown.1 hdown.2 es
      rw [step_shutdown h.crashed]
      have hcrash := h.outcome.crashed
      rw [h.crashed] at hcrash
      refine ⟨?_, ?_, ?_⟩
      · rw [hreads]
        exact (List.append_nil _).symm
      · rw [hreads]
        exact h.remarked
      · rw [hreads, hcrashed]
        exact hcrash

/-- Whatever is sent to the group, however the calls of `poll` end and whichever blocks can be
acquired: the thread reads the blocks that are asked of its host, each one once and in the order of
the datagrams, and compares each with the one before it of its channel.  It dies where one could
not be acquired.  Each was asked for by a datagram that begins with what `Notify` sends for it. -/
theorem reads_asked (order : ByteOrder) (hostId : BitVec 64) (es : List Event) :
    let t := Run.exec (step order) { thread := { hostId } } es
    (t.reads.map fun r => ((r.channelId, r.blockIndex), r.acquired)) = asked order hostId [] es ∧
      Remarked t.reads ∧
      (t.thread.crashed = true ↔ ∃ r ∈ t.reads, r.acquired = false) ∧
      ∀ r ∈ t.reads, ∃ datagram, .round (.received datagram) r.acquired ∈ es ∧
        Announces order hostId datagram (r.channelId, r.blockIndex) := by
  intro t
  have hstart : Inv hostId { thread := { hostId } } :=
    { host := rfl
      up := ⟨rfl, rfl⟩
      crashed := rfl
      acquired := fun r hr => absurd hr List.not_mem_nil
      known := fun r hr => absurd hr List.not_mem_nil
      previous := fun c hc => absurd hc List.not_mem_nil
      remarked := fun before r after heq => absurd heq (by simp) }
  have h : Outcome [] (asked order hostId [] es) t := hstart.exec (fun _ => Iff.rfl) es
  refine ⟨h.reads, h.remarked, h.crashed, fun r hr => ?_⟩
  have hasked : ((r.channelId, r.blockIndex), r.acquired) ∈ asked order hostId [] es := by
    have hmem := List.mem_map_of_mem (f := fun r : BlockRead =>
      ((r.channelId, r.blockIndex), r.acquired)) hr
    rwa [h.reads, List.map_nil, List.nil_append] at hmem
  exact asked_announced hasked

end ListenThread

end Shm
end Transport
end Cmw
