import Cmw.Library.Run
import Cmw.Transport.Endpoint

/-!
# Identities and their hashes

transport/common/identity.cpp and transport/message/message_info.cpp.  An identity keeps
the hash of its bytes beside them: `Update` computes it anew, a copy takes it along, and
bytes that are written in another way leave it as it was.  `hash` is `common::Hash`.

A program is here the list of its statements about identities and message informations,
which it has in variables.  The statements are run twice: on the values themselves, and
on what is known of a value without computing it, its `Origin`.
-/

namespace Cmw
namespace Transport

open Library
open Library.ByteImage

variable (hash : List Byte → BitVec 64) (order : ByteOrder)

namespace Identity

def update (id : Identity) : Identity := { id with hashValue := hash id.data.toList }

/-- `Identity()`, where `uuid_generate` gives `uuid`. -/
def generate (uuid : Vector Byte 16) : Identity := update hash (zero.copyIn uuid.toList)

/-- `Identity(another)`, and the assignment: that it tests for itself makes no
difference. -/
def copy (another : Identity) : Identity :=
  { data := another.data, hashValue := another.hashValue }

def setData (id : Identity) (data : Option (List Byte)) : Identity :=
  match data with
  | none => id
  | some bs => update hash (id.copyIn bs)

/-- `operator==` -/
def equal (id another : Identity) : Bool := id.data == another.data

variable {hash} in
theorem update_congr {id another : Identity} (h : id.data = another.data) :
    id.update hash = another.update hash := by
  rw [update, update, h]

theorem copyIn_append (id : Identity) (v : Vector Byte 8) (bs : List Byte) :
    (id.copyIn (v.toList ++ bs)).data = v := by
  refine Vector.ext fun i hi => ?_
  have hlt : i < v.toList.length := by simpa using hi
  simp [copyIn, List.getElem?_append_left hlt, hi]

end Identity

namespace MessageInfo

def kSize : Nat := 2 * 8 + 8

/-- `MessageInfo(sender_id, seq_num)` -/
def new (senderId : Identity) (seqNum : BitVec 64) : MessageInfo :=
  { senderId := senderId.copy, seqNum }

def copy (another : MessageInfo) : MessageInfo :=
  { senderId := another.senderId.copy
    spareId := another.spareId.copy
    channelId := another.channelId
    seqNum := another.seqNum }

def setSenderId (info : MessageInfo) (senderId : Identity) : MessageInfo :=
  { info with senderId := senderId.copy }

def setSpareId (info : MessageInfo) (spareId : Identity) : MessageInfo :=
  { info with spareId := spareId.copy }

def bytes (info : MessageInfo) : List Byte :=
  info.senderId.data.toList ++ image order (k := 8) info.seqNum ++ info.spareId.data.toList

/-- `SerializeTo(dst)`, to a string. -/
def serializeTo (info : MessageInfo) (dst : Option (List Byte)) : Bool × Option (List Byte) :=
  match dst with
  | none => (false, none)
  | some _ => (true, some (info.bytes order))

/-- `SerializeTo(dst, len)`, to a buffer. -/
def serializeToBuffer (info : MessageInfo) (dst : Option (List Byte)) (len : Nat) :
    Bool × Option (List Byte) :=
  match dst with
  | none => (false, none)
  | some buf =>
      if len < kSize then (false, some buf)
      else (true, some (info.bytes order ++ buf.drop kSize))

/-- `DeserializeFrom(src, len)` -/
def deserializeFrom (info : MessageInfo) (src : Option (List Byte)) : Bool × MessageInfo :=
  match src with
  | none => (false, info)
  | some bs =>
      if bs.length ≠ kSize then (false, info)
      else
        (true, { info with
          senderId := info.senderId.setData hash (some bs)
          seqNum := ofImage 8 order ((bs.drop 8).take 8)
          spareId := info.spareId.setData hash (some (bs.drop 16)) })

/-- What `ReadMessage` makes of the bytes that it finds behind a message. -/
def ofBlock (senderId spareId seqNum : List Byte) : MessageInfo :=
  { senderId := Identity.zero.copyIn senderId
    spareId := Identity.zero.copyIn spareId
    seqNum := ofImage 8 order seqNum }

end MessageInfo

/-! ### Programs -/

/-- Variables are numbers: `x` and `y` those for identities, `m` and `n` those for
message informations. -/
inductive Statement
  | generate (x : Nat) (uuid : Vector Byte 16)
  | blank (x : Nat)
  | copy (x y : Nat)
  | setData (x : Nat) (data : Option (List Byte))
  | info (m : Nat)
  | infoOf (m x : Nat) (seqNum : BitVec 64)
  | copyInfo (m n : Nat)
  | setSenderId (m x : Nat)
  | setSpareId (m x : Nat)
  | copySenderId (x m : Nat)
  | copySpareId (x m : Nat)
  | deserializeFrom (m : Nat) (src : Option (List Byte))
  | readMessage (m : Nat) (senderId spareId seqNum : List Byte)

/-- What the statements do to identities `V` and message informations `I`. -/
structure Meaning (V I : Type) where
  generate : Vector Byte 16 → V
  blank : V
  copy : V → V
  setData : V → Option (List Byte) → V
  info : I
  infoOf : V → BitVec 64 → I
  copyInfo : I → I
  setSenderId : I → V → I
  setSpareId : I → V → I
  senderId : I → V
  spareId : I → V
  deserializeFrom : I → Option (List Byte) → I
  readMessage : List Byte → List Byte → List Byte → I

/-- The variables, where those that have not been constructed yet have no value. -/
structure Store (V I : Type) where
  ids : Nat → Option V := fun _ => none
  infos : Nat → Option I := fun _ => none

/-- Where an identity stands. -/
inductive Place
  | id (x : Nat)
  | sender (m : Nat)
  | spare (m : Nat)
  deriving DecidableEq, Repr

namespace Store

variable {V I : Type}

def setId (t : Store V I) (x : Nat) (v : V) : Store V I :=
  { t with ids := Function.update t.ids x (some v) }

def setInfo (t : Store V I) (m : Nat) (i : I) : Store V I :=
  { t with infos := Function.update t.infos m (some i) }

def withId (t : Store V I) (x : Nat) (f : V → Store V I) : Store V I :=
  match t.ids x with
  | none => t
  | some v => f v

def withInfo (t : Store V I) (m : Nat) (f : I → Store V I) : Store V I :=
  match t.infos m with
  | none => t
  | some i => f i

def find (M : Meaning V I) (t : Store V I) : Place → Option V
  | .id x => t.ids x
  | .sender m => (t.infos m).map M.senderId
  | .spare m => (t.infos m).map M.spareId

def step (M : Meaning V I) (t : Store V I) : Statement → Store V I
  | .generate x uuid => t.setId x (M.generate uuid)
  | .blank x => t.setId x M.blank
  | .copy x y => t.withId y fun v => t.setId x (M.copy v)
  | .setData x data => t.withId x fun v => t.setId x (M.setData v data)
  | .info m => t.setInfo m M.info
  | .infoOf m x seqNum => t.withId x fun v => t.setInfo m (M.infoOf v seqNum)
  | .copyInfo m n => t.withInfo n fun i => t.setInfo m (M.copyInfo i)
  | .setSenderId m x => t.withInfo m fun i => t.withId x fun v => t.setInfo m (M.setSenderId i v)
  | .setSpareId m x => t.withInfo m fun i => t.withId x fun v => t.setInfo m (M.setSpareId i v)
  | .copySenderId x m => t.withInfo m fun i => t.setId x (M.copy (M.senderId i))
  | .copySpareId x m => t.withInfo m fun i => t.setId x (M.copy (M.spareId i))
  | .deserializeFrom m src => t.withInfo m fun i => t.setInfo m (M.deserializeFrom i src)
  | .readMessage m senderId spareId seqNum => t.setInfo m (M.readMessage senderId spareId seqNum)

def run (M : Meaning V I) (es : List Statement) : Store V I := Run.exec (step M) {} es

end Store

/-- The statements as the code has them. -/
def code : Meaning Identity MessageInfo where
  generate := .generate hash
  blank := .zero
  copy := .copy
  setData := .setData hash
  info := {}
  infoOf := .new
  copyInfo := .copy
  setSenderId := .setSenderId
  setSpareId := .setSpareId
  senderId := MessageInfo.senderId
  spareId := MessageInfo.spareId
  deserializeFrom info src := (info.deserializeFrom hash order src).2
  readMessage := .ofBlock order

/-- How the bytes of an identity were written last: with an `Update`, or without one. -/
inductive Origin
  | updated
  | written (data : Vector Byte 8)
  deriving DecidableEq, Repr

def Origin.blank : Origin := .written Identity.zero.data

def origins : Meaning Origin (Origin × Origin) where
  generate _ := .updated
  blank := .blank
  copy o := o
  setData o data := if data.isSome then .updated else o
  info := (.blank, .blank)
  infoOf o _ := (o, .blank)
  copyInfo p := p
  setSenderId p o := (o, p.2)
  setSpareId p o := (p.1, o)
  senderId := Prod.fst
  spareId := Prod.snd
  deserializeFrom p src :=
    if src.map List.length = some MessageInfo.kSize then (.updated, .updated) else p
  readMessage senderId spareId _ :=
    (.written (Identity.zero.copyIn senderId).data, .written (Identity.zero.copyIn spareId).data)

/-! ### What is known of a value is true of it -/

/-- The two meanings take related values to related values. -/
structure Meaning.Simulates {V I W J : Type} (M : Meaning V I) (N : Meaning W J)
    (R : V → W → Prop) (S : I → J → Prop) : Prop where
  generate : ∀ uuid, R (M.generate uuid) (N.generate uuid)
  blank : R M.blank N.blank
  copy : ∀ v w, R v w → R (M.copy v) (N.copy w)
  setData : ∀ v w data, R v w → R (M.setData v data) (N.setData w data)
  info : S M.info N.info
  infoOf : ∀ v w seqNum, R v w → S (M.infoOf v seqNum) (N.infoOf w seqNum)
  copyInfo : ∀ i j, S i j → S (M.copyInfo i) (N.copyInfo j)
  setSenderId : ∀ i j v w, S i j → R v w → S (M.setSenderId i v) (N.setSenderId j w)
  setSpareId : ∀ i j v w, S i j → R v w → S (M.setSpareId i v) (N.setSpareId j w)
  senderId : ∀ i j, S i j → R (M.senderId i) (N.senderId j)
  spareId : ∀ i j, S i j → R (M.spareId i) (N.spareId j)
  deserializeFrom : ∀ i j src, S i j → S (M.deserializeFrom i src) (N.deserializeFrom j src)
  readMessage : ∀ senderId spareId seqNum,
    S (M.readMessage senderId spareId seqNum) (N.readMessage senderId spareId seqNum)

namespace Store

variable {V I W J : Type}

/-- The same variables have been constructed, with related values. -/
structure Related (R : V → W → Prop) (S : I → J → Prop) (t : Store V I) (u : Store W J) :
    Prop where
  ids : ∀ x, Option.Rel R (t.ids x) (u.ids x)
  infos : ∀ m, Option.Rel S (t.infos m) (u.infos m)

variable {M : Meaning V I} {N : Meaning W J} {R : V → W → Prop} {S : I → J → Prop}
variable {t : Store V I} {u : Store W J}

theorem Related.setId (h : Related R S t u) (x : Nat) {v : V} {w : W} (hvw : R v w) :
    Related R S (t.setId x v) (u.setId x w) where
  ids y := by
    simp only [Store.setId, Function.update_apply]
    split
    · exact .some hvw
    · exact h.ids y
  infos := h.infos

theorem Related.setInfo (h : Related R S t u) (m : Nat) {i : I} {j : J} (hij : S i j) :
    Related R S (t.setInfo m i) (u.setInfo m j) where
  ids := h.ids
  infos n := by
    simp only [Store.setInfo, Function.update_apply]
    split
    · exact .some hij
    · exact h.infos n

theorem Related.withId (h : Related R S t u) (x : Nat) {f : V → Store V I} {g : W → Store W J}
    (hfg : ∀ v w, R v w → Related R S (f v) (g w)) :
    Related R S (t.withId x f) (u.withId x g) := by
  have hx := h.ids x
  simp only [Store.withId]
  generalize t.ids x = a, u.ids x = b at hx ⊢
  cases hx with
  | none => exact h
  | some hvw => exact hfg _ _ hvw

theorem Related.withInfo (h : Related R S t u) (m : Nat) {f : I → Store V I} {g : J → Store W J}
    (hfg : ∀ i j, S i j → Related R S (f i) (g j)) :
    Related R S (t.withInfo m f) (u.withInfo m g) := by
  have hm := h.infos m
  simp only [Store.withInfo]
  generalize t.infos m = a, u.infos m = b at hm ⊢
  cases hm with
  | none => exact h
  | some hij => exact hfg _ _ hij

theorem Related.step (hMN : M.Simulates N R S) (h : Related R S t u) (s : Statement) :
    Related R S (t.step M s) (u.step N s) := by
  cases s with
  | generate x uuid => exact h.setId x (hMN.generate uuid)
  | blank x => exact h.setId x hMN.blank
  | copy x y => exact h.withId y fun v w hvw => h.setId x (hMN.copy v w hvw)
  | setData x data => exact h.withId x fun v w hvw => h.setId x (hMN.setData v w data hvw)
  | info m => exact h.setInfo m hMN.info
  | infoOf m x seqNum => exact h.withId x fun v w hvw => h.setInfo m (hMN.infoOf v w seqNum hvw)
  | copyInfo m n => exact h.withInfo n fun i j hij => h.setInfo m (hMN.copyInfo i j hij)
  | setSenderId m x =>
      exact h.withInfo m fun i j hij => h.withId x fun v w hvw =>
        h.setInfo m (hMN.setSenderId i j v w hij hvw)
  | setSpareId m x =>
      exact h.withInfo m fun i j hij => h.withId x fun v w hvw =>
        h.setInfo m (hMN.setSpareId i j v w hij hvw)
  | copySenderId x m =>
      exact h.withInfo m fun i j hij => h.setId x (hMN.copy _ _ (hMN.senderId i j hij))
  | copySpareId x m =>
      exact h.withInfo m fun i j hij => h.setId x (hMN.copy _ _ (hMN.spareId i j hij))
  | deserializeFrom m src =>
      exact h.withInfo m fun i j hij => h.setInfo m (hMN.deserializeFrom i j src hij)
  | readMessage m senderId spareId seqNum =>
      exact h.setInfo m (hMN.readMessage senderId spareId seqNum)

theorem Related.exec (hMN : M.Simulates N R S) (h : Related R S t u) (es : List Statement) :
    Related R S (Run.exec (Store.step M) t es) (Run.exec (Store.step N) u es) := by
  induction es generalizing t u with
  | nil => exact h
  | cons s es ih => exact ih (h.step hMN s)

/-- Whatever is run, the two runs end in related stores. -/
theorem related_run (hMN : M.Simulates N R S) (es : List Statement) :
    Related R S (run M es) (run N es) :=
  Related.exec hMN ⟨fun _ => .none, fun _ => .none⟩ es

theorem rel_map {f : I → V} {g : J → W} (hfg : ∀ i j, S i j → R (f i) (g j)) {a : Option I}
    {b : Option J} (h : Option.Rel S a b) : Option.Rel R (a.map f) (b.map g) := by
  cases h with
  | none => exact .none
  | some hij => exact .some (hfg _ _ hij)

theorem Related.find (hMN : M.Simulates N R S) (h : Related R S t u) (p : Place) :
    Option.Rel R (t.find M p) (u.find N p) := by
  cases p with
  | id x => exact h.ids x
  | sender m => exact rel_map hMN.senderId (h.infos m)
  | spare m => exact rel_map hMN.spareId (h.infos m)

end Store

namespace Origin

/-- The bytes of the identity are of this origin, and so is its hash. -/
def Of (o : Origin) (id : Identity) : Prop :=
  match o with
  | updated => id.hashValue = hash id.data.toList
  | written data => id.data = data ∧ id.hashValue = 0

/-- An identity of this origin has the hash of its bytes. -/
def Hashed : Origin → Prop
  | updated => True
  | written data => hash data.toList = 0

variable {hash} {o : Origin} {id : Identity}

theorem Of.hashValue_iff (h : o.Of hash id) :
    id.hashValue = hash id.data.toList ↔ o.Hashed hash := by
  cases o with
  | updated => exact iff_of_true h trivial
  | written data =>
      obtain ⟨rfl, hzero⟩ := h
      rw [hzero]
      exact eq_comm

theorem of_update (id : Identity) : updated.Of hash (id.update hash) := rfl

theorem of_setData (h : o.Of hash id) (data : Option (List Byte)) :
    Of hash (if data.isSome then .updated else o) (id.setData hash data) := by
  cases data with
  | none => exact h
  | some bs => exact of_update _

theorem of_copyIn (bs : List Byte) :
    Of hash (.written (Identity.zero.copyIn bs).data) (Identity.zero.copyIn bs) := ⟨rfl, rfl⟩

theorem Of.hashValue_of_not (h : o.Of hash id) (ho : ¬ o.Hashed hash) : id.hashValue = 0 := by
  cases o with
  | updated => exact absurd trivial ho
  | written data => exact h.2

theorem Of.hashValue_eq_iff {p : Origin} {another : Identity} (h : o.Of hash id)
    (h' : p.Of hash another) (hdata : id.data = another.data) :
    id.hashValue = another.hashValue ↔ (o.Hashed hash ↔ p.Hashed hash) := by
  rw [← h.hashValue_iff, ← h'.hashValue_iff, hdata]
  constructor
  · intro heq
    rw [heq]
  · intro hiff
    by_cases hid : id.hashValue = hash another.data.toList
    · exact hid.trans (hiff.mp hid).symm
    · have hid' : id.hashValue = 0 := h.hashValue_of_not fun ho =>
        hid (hdata ▸ h.hashValue_iff.mpr ho)
      have hanother : another.hashValue = 0 := h'.hashValue_of_not fun hp =>
        hid (hiff.mpr (h'.hashValue_iff.mpr hp))
      rw [hid', hanother]

end Origin

theorem simulates : (code hash order).Simulates origins (fun id o => o.Of hash id)
    (fun info p => p.1.Of hash info.senderId ∧ p.2.Of hash info.spareId) where
  generate _ := Origin.of_update _
  blank := ⟨rfl, rfl⟩
  copy _ _ h := h
  setData _ _ data h := Origin.of_setData h data
  info := ⟨⟨rfl, rfl⟩, ⟨rfl, rfl⟩⟩
  infoOf _ _ _ h := ⟨h, rfl, rfl⟩
  copyInfo _ _ h := h
  setSenderId _ _ _ _ h h' := ⟨h', h.2⟩
  setSpareId _ _ _ _ h h' := ⟨h.1, h'⟩
  senderId _ _ h := h.1
  spareId _ _ h := h.2
  deserializeFrom info p src h := by
    simp only [code, origins, MessageInfo.deserializeFrom]
    cases src with
    | none => exact h
    | some bs =>
        by_cases hbs : bs.length = MessageInfo.kSize
        · simp only [hbs, ne_eq, not_true_eq_false, if_false, Option.map_some, if_true]
          exact ⟨Origin.of_update _, Origin.of_update _⟩
        · simpa [hbs] using h
  readMessage _ _ _ := ⟨Origin.of_copyIn _, Origin.of_copyIn _⟩

/-! ### Round trips -/

variable {hash order}

namespace MessageInfo

/-- `bs` is what `info` is serialized to, in a string or at the start of a buffer. -/
def Serialized (order : ByteOrder) (info : MessageInfo) (bs : List Byte) : Prop :=
  (∃ dst, info.serializeTo order dst = (true, some bs)) ∨
    ∃ dst len out, info.serializeToBuffer order dst len = (true, some out) ∧
      bs = out.take kSize

theorem bytes_length (order : ByteOrder) (info : MessageInfo) : (info.bytes order).length = kSize := by
  simp [bytes, kSize]

theorem Serialized.eq_bytes {info : MessageInfo} {bs : List Byte}
    (h : info.Serialized order bs) : bs = info.bytes order := by
  rcases h with ⟨dst, h⟩ | ⟨dst, len, out, h, rfl⟩
  · cases dst with
    | none => simp [serializeTo] at h
    | some _ => exact (Option.some.inj (Prod.mk.inj h).2).symm
  · cases dst with
    | none => simp [serializeToBuffer] at h
    | some buf =>
        rw [serializeToBuffer] at h
        split at h
        · simp at h
        · rw [← Option.some.inj (Prod.mk.inj h).2, ← bytes_length order info,
            List.take_left]

/-- The message information comes back, except that the hashes are those of the bytes. -/
theorem deserializeFrom_serialized {info : MessageInfo} {bs : List Byte}
    (h : info.Serialized order bs) (target : MessageInfo) :
    target.deserializeFrom hash order (some bs) =
      (true, { info with
        senderId := info.senderId.update hash
        spareId := info.spareId.update hash
        channelId := target.channelId }) := by
  rw [h.eq_bytes]
  have hlen : info.senderId.data.toList.length = 8 := Vector.length_toList
  have himage : (image order (k := 8) info.seqNum).length = 8 := image_length order _
  have hrest : (info.bytes order).drop 8 =
      image order (k := 8) info.seqNum ++ info.spareId.data.toList := by
    rw [bytes, List.append_assoc, List.drop_left' hlen]
  have hsender : (target.senderId.copyIn (info.bytes order)).data = info.senderId.data := by
    rw [bytes, List.append_assoc, Identity.copyIn_append]
  have hseq : ((info.bytes order).drop 8).take 8 = image order (k := 8) info.seqNum := by
    rw [hrest, List.take_left' himage]
  have hspare : (target.spareId.copyIn ((info.bytes order).drop 16)).data = info.spareId.data := by
    have hdrop : (info.bytes order).drop 16 = info.spareId.data.toList := by
      rw [show 16 = 8 + 8 from rfl, ← List.drop_drop, hrest, List.drop_left' himage]
    rw [hdrop, Identity.copyIn_data]
  have hlength : ¬ (info.bytes order).length ≠ kSize := not_not_intro (info.bytes_length order)
  simp only [deserializeFrom, if_neg hlength, Identity.setData, Identity.update_congr hsender,
    Identity.update_congr hspare, hseq, ofImage_image]

end MessageInfo

/-! ### The identities of a program -/

variable (hash order)

/-- By its origin, the identity at `p` has the hash of its bytes. -/
def HashedAt (o : Store Origin (Origin × Origin)) (p : Place) : Prop :=
  ∃ r, o.find origins p = some r ∧ r.Hashed hash

/-- The origins tell which identities have the hash of their bytes, which equal ones have
equal hashes, and which senders keep their hash on a round trip. -/
structure Identified (t : Store Identity MessageInfo) (o : Store Origin (Origin × Origin)) :
    Prop where
  hashValue : ∀ p id, t.find (code hash order) p = some id →
    (id.hashValue = hash id.data.toList ↔ HashedAt hash o p)
  equal : ∀ p q id another, t.find (code hash order) p = some id →
    t.find (code hash order) q = some another → id.equal another = true →
    (id.hashValue = another.hashValue ↔ (HashedAt hash o p ↔ HashedAt hash o q))
  roundTrip : ∀ m info bs target, t.infos m = some info → info.Serialized order bs →
    ∃ back, MessageInfo.deserializeFrom hash order target (some bs) = (true, back) ∧
      back.senderId.data = info.senderId.data ∧ back.spareId.data = info.spareId.data ∧
      back.seqNum = info.seqNum ∧ back.channelId = target.channelId ∧
      (back.senderId.hashValue = info.senderId.hashValue ↔ HashedAt hash o (.sender m))

variable {hash order}

theorem Store.Related.exists_of {V I W J : Type} {M : Meaning V I} {N : Meaning W J}
    {R : V → W → Prop} {S : I → J → Prop} {t : Store V I} {u : Store W J}
    (hMN : M.Simulates N R S) (h : Related R S t u) {p : Place} {v : V}
    (hv : t.find M p = some v) : ∃ w, u.find N p = some w ∧ R v w := by
  have hfind := h.find hMN p
  rw [hv] at hfind
  generalize u.find N p = b at hfind
  cases hfind with
  | some hvw => exact ⟨_, rfl, hvw⟩

theorem hashedAt_iff {o : Store Origin (Origin × Origin)} {p : Place} {r : Origin}
    (h : o.find origins p = some r) : HashedAt hash o p ↔ r.Hashed hash := by
  simp [HashedAt, h]

theorem identified_run (es : List Statement) :
    Identified hash order (Store.run (code hash order) es) (Store.run origins es) := by
  have hrelated := Store.related_run (simulates hash order) es
  refine ⟨fun p id hid => ?_, fun p q id another hid hanother hequal => ?_,
    fun m info bs target hinfo hbs => ?_⟩
  · obtain ⟨r, hr, hof⟩ := hrelated.exists_of (simulates hash order) hid
    rw [hashedAt_iff hr, hof.hashValue_iff]
  · obtain ⟨r, hr, hof⟩ := hrelated.exists_of (simulates hash order) hid
    obtain ⟨r', hr', hof'⟩ := hrelated.exists_of (simulates hash order) hanother
    rw [hashedAt_iff hr, hashedAt_iff hr']
    exact hof.hashValue_eq_iff hof' (by simpa [Identity.equal] using hequal)
  · refine ⟨_, MessageInfo.deserializeFrom_serialized hbs target, rfl, rfl, rfl, rfl, ?_⟩
    have hsender : (Store.run (code hash order) es).find (code hash order) (.sender m) =
        some info.senderId := by
      rw [Store.find, hinfo]
      rfl
    obtain ⟨r, hr, hof⟩ := hrelated.exists_of (simulates hash order) hsender
    rw [hashedAt_iff hr, ← hof.hashValue_iff]
    exact eq_comm

end Transport
end Cmw
