import Cmw.Serialize.RoundTrip
import Cmw.Serialize.Size

/-!
# Showing a stream

`DataStream::show()` goes over the content from tag to tag; what it prints is left out.  It
comes back just where the content divides into pieces that it knows.  For content that has
been written this means that no unsigned number, list or structure has been, as long as there
are no bytes in it that only happen to look like tags: the storage of a vector, and what
follows a string where the host reads its length the other way round.
-/

namespace Cmw
namespace Serialize

open Library.ByteImage
open DataStream

variable {host : ByteOrder}

/-- How `show()` ends when it does not come back. -/
inductive Halt
  | parseError (type : DataType)
  | lengthError
  | outOfBounds
  | endlessLoop
  deriving DecidableEq

/-- `(DataType)m_buf[i]`, where there is such a type. -/
def typeOf (b : Byte) : Option DataType :=
  [.bool, .char, .int32, .int64, .uint32, .uint64, .float, .double, .enum, .string, .vector, .list,
    .map, .set, .custom].find? fun type => type.code == b

/-- The `len` bytes behind `&m_buf[i]`. -/
def peek (buf : List Byte) (i len : Nat) : Except Halt (List Byte) :=
  if i + len ≤ buf.length then .ok ((buf.drop i).take len) else .error .outOfBounds

/-- A value of `size` bytes behind its tag. -/
def showPlain (buf : List Byte) (i size : Nat) : Except Halt Nat := do
  let _ ← peek buf (i + 1) size
  .ok (i + 1 + size)

/-- The length behind the tag of `type`, and where the rest begins. -/
def showLen (host : ByteOrder) (buf : List Byte) (i : Nat) (type : DataType) :
    Except Halt (Int × Nat) := do
  let tag ← peek buf (i + 1) 1
  if tag = [DataType.int32.code] then do
    let word ← peek buf (i + 2) 4
    .ok ((ofImage 4 host word).toInt, i + 6)
  else .error (.parseError type)

/-- The index after the value at a tag. -/
def showValue (host : ByteOrder) (buf : List Byte) (i : Nat) : Option DataType → Except Halt Nat
  | some .bool | some .char => showPlain buf i 1
  | some .int32 | some .float => showPlain buf i 4
  | some .int64 | some .double => showPlain buf i 8
  | some .string => do
      let (len, i) ← showLen host buf i .string
      if len < 0 then .error .lengthError
      else do
        let _ ← peek buf i len.toNat
        .ok (i + len.toNat)
  | some .vector => do
      let (_, i) ← showLen host buf i .vector
      .ok i
  | some .map => do
      let (_, i) ← showLen host buf i .map
      .ok i
  | some .set => do
      let (_, i) ← showLen host buf i .set
      .ok i
  | some .uint32 | some .uint64 | some .enum | some .list | some .custom | none => .ok i

/-- A turn of the loop. -/
def showTurn (host : ByteOrder) (buf : List Byte) (i : Nat) : Except Halt Nat := do
  let tag ← peek buf i 1
  showValue host buf i (tag.head?.bind typeOf)

/-- `while (i < size)`, with a bound on its turns. -/
def showFrom (host : ByteOrder) (buf : List Byte) : Nat → Nat → Except Halt Unit
  | 0, _ => .error .endlessLoop
  | turns + 1, i =>
      if i < buf.length then do
        let i ← showTurn host buf i
        showFrom host buf turns i
      else .ok ()

/-- `show()` comes back. -/
def Shows (s : DataStream host) : Prop := ∃ turns, showFrom host s.mBuf turns 0 = .ok ()

/-! ## The pieces -/

def DataType.plainSize : DataType → Option Nat
  | .bool | .char => some 1
  | .int32 | .float => some 4
  | .int64 | .double => some 8
  | _ => none

/-- The types of which only the length is shown. -/
def DataType.Headed (type : DataType) : Prop := type = .vector ∨ type = .map ∨ type = .set

/-- A turn stays where it is at these tags. -/
def DataType.Stuck (type : DataType) : Prop :=
  type = .uint32 ∨ type = .uint64 ∨ type = .enum ∨ type = .list ∨ type = .custom

/-- The bytes of a turn. -/
inductive Piece (host : ByteOrder) : List Byte → Prop
  | plain {type : DataType} {size : Nat} (hsize : type.plainSize = some size) {data : List Byte}
      (hdata : data.length = size) : Piece host (type.code :: data)
  | string {word data : List Byte} (hword : word.length = 4)
      (hlen : (ofImage 4 host word).toInt = data.length) :
      Piece host (DataType.string.code :: DataType.int32.code :: (word ++ data))
  | header {type : DataType} (htype : type.Headed) {word : List Byte} (hword : word.length = 4) :
      Piece host (type.code :: DataType.int32.code :: word)

/-- The content is one piece after another. -/
def Divides (host : ByteOrder) (data : List Byte) : Prop :=
  ∃ pieces : List (List Byte), (∀ p ∈ pieces, Piece host p) ∧ data = pieces.flatten

theorem typeOf_code (type : DataType) : typeOf type.code = some type := by
  cases type <;> rfl

theorem code_of_typeOf {b : Byte} {type : DataType} (h : typeOf b = some type) : b = type.code := by
  unfold typeOf at h
  have hcode := List.find?_some (p := fun type : DataType => type.code == b) h
  exact (beq_iff_eq.mp hcode).symm

theorem DataType.cases_shown (type : DataType) :
    (∃ size, type.plainSize = some size) ∨ type = .string ∨ type.Headed ∨ type.Stuck := by
  unfold Headed Stuck
  cases type <;> simp [plainSize]

theorem Piece.ne_nil {p : List Byte} (h : Piece host p) : p ≠ [] := by
  cases h <;> exact List.cons_ne_nil _ _

/-! ## What is ahead of an index -/

/-- From `i` on the buffer holds `rest`. -/
def Holds (buf : List Byte) (i : Nat) (rest : List Byte) : Prop :=
  i ≤ buf.length ∧ buf.drop i = rest

theorem Holds.length_eq {buf rest : List Byte} {i : Nat} (h : Holds buf i rest) :
    i + rest.length = buf.length := by
  have hle := h.1
  rw [← h.2, List.length_drop]
  omega

theorem Holds.next {buf data rest : List Byte} {i : Nat} (h : Holds buf i (data ++ rest)) :
    Holds buf (i + data.length) rest := by
  have hlen := h.length_eq
  rw [List.length_append] at hlen
  refine ⟨by omega, ?_⟩
  rw [← List.drop_drop, h.2, List.drop_left]

theorem Holds.tail {buf rest : List Byte} {b : Byte} {i : Nat} (h : Holds buf i (b :: rest)) :
    Holds buf (i + 1) rest := by
  have hsplit : Holds buf i ([b] ++ rest) := h
  exact hsplit.next

theorem Holds.peek {buf data rest : List Byte} {i : Nat} (h : Holds buf i (data ++ rest)) {n : Nat}
    (hn : data.length = n) : peek buf i n = .ok data := by
  have hlen := h.length_eq
  rw [List.length_append] at hlen
  rw [Serialize.peek, if_pos (by omega), h.2, List.take_left' hn]

theorem of_peek {buf rest data : List Byte} {i n : Nat} (h : Holds buf i rest)
    (hpeek : peek buf i n = .ok data) : data.length = n ∧ ∃ more, rest = data ++ more := by
  rw [peek, h.2] at hpeek
  split at hpeek
  case isTrue hn =>
    have hlen := h.length_eq
    cases hpeek
    refine ⟨?_, rest.drop n, (List.take_append_drop n rest).symm⟩
    rw [List.length_take]
    omega
  case isFalse => cases hpeek

theorem of_bind_halt {α β : Type} {x : Except Halt α} {f : α → Except Halt β} {b : β}
    (h : x >>= f = .ok b) : ∃ a, x = .ok a ∧ f a = .ok b := by
  cases x with
  | error e => cases h
  | ok a => exact ⟨a, rfl, h⟩

@[simp] theorem ok_bind_halt {α β : Type} (a : α) (f : α → Except Halt β) :
    ((Except.ok a : Except Halt α) >>= f) = f a := rfl

/-! ## A turn -/

theorem Holds.showPlain {buf data rest : List Byte} {b : Byte} {i size : Nat}
    (h : Holds buf i (b :: data ++ rest)) (hdata : data.length = size) :
    showPlain buf i size = .ok (i + 1 + size) := by
  have hpeek : Serialize.peek buf (i + 1) size = .ok data := h.tail.peek hdata
  rw [Serialize.showPlain, hpeek, ok_bind_halt]

theorem Holds.showLen {buf word rest : List Byte} {b : Byte} {i : Nat}
    (h : Holds buf i (b :: DataType.int32.code :: (word ++ rest))) (hword : word.length = 4)
    (type : DataType) :
    showLen host buf i type = .ok ((ofImage 4 host word).toInt, i + 6) := by
  have hsplit : Holds buf (i + 1) ([DataType.int32.code] ++ (word ++ rest)) := h.tail
  have htag : Serialize.peek buf (i + 1) 1 = .ok [DataType.int32.code] := hsplit.peek rfl
  have hlen : Serialize.peek buf (i + 2) 4 = .ok word := hsplit.next.peek hword
  rw [Serialize.showLen, htag, ok_bind_halt, if_pos rfl, hlen, ok_bind_halt]

theorem Holds.showTurn {buf rest : List Byte} {b : Byte} {i : Nat} (h : Holds buf i (b :: rest)) :
    showTurn host buf i = showValue host buf i (typeOf b) := by
  have hsplit : Holds buf i ([b] ++ rest) := h
  have htag : Serialize.peek buf i 1 = .ok [b] := hsplit.peek rfl
  rw [Serialize.showTurn, htag, ok_bind_halt, List.head?_cons, Option.bind_some]

theorem showValue_plain {type : DataType} {size : Nat} (h : type.plainSize = some size)
    (buf : List Byte) (i : Nat) : showValue host buf i (some type) = showPlain buf i size := by
  cases type <;> cases h <;> rfl

theorem showValue_headed {type : DataType} (h : type.Headed) (buf : List Byte) (i : Nat) :
    showValue host buf i (some type) = showLen host buf i type >>= fun r => .ok r.2 := by
  rcases h with rfl | rfl | rfl <;> rfl

theorem showValue_string (buf : List Byte) (i : Nat) :
    showValue host buf i (some .string) = showLen host buf i .string >>= fun r =>
      if r.1 < 0 then .error .lengthError
      else peek buf r.2 r.1.toNat >>= fun _ => .ok (r.2 + r.1.toNat) := rfl

/-- A turn takes the piece that is ahead. -/
theorem showTurn_of_piece {buf p rest : List Byte} {i : Nat} (hp : Piece host p)
    (h : Holds buf i (p ++ rest)) : showTurn host buf i = .ok (i + p.length) := by
  cases hp with
  | plain hsize hdata =>
      rw [h.showTurn, typeOf_code, showValue_plain hsize, h.showPlain hdata, List.length_cons, hdata]
      exact congrArg Except.ok (by omega)
  | @string word data hword hlen =>
      have hahead : Holds buf i
          (DataType.string.code :: DataType.int32.code :: (word ++ (data ++ rest))) := by
        rw [← List.append_assoc]
        exact h
      have hdata : Holds buf (i + 1 + 1 + word.length) (data ++ rest) := hahead.tail.tail.next
      rw [hword] at hdata
      have hpeek : peek buf (i + 6) data.length = .ok data := hdata.peek rfl
      rw [h.showTurn, typeOf_code, showValue_string, hahead.showLen hword, ok_bind_halt]
      dsimp only
      rw [hlen, if_neg (by omega), Int.toNat_natCast, hpeek, ok_bind_halt, List.length_cons,
        List.length_cons, List.length_append, hword]
      exact congrArg Except.ok (by omega)
  | header htype hword =>
      rw [h.showTurn, typeOf_code, showValue_headed htype, h.showLen hword, ok_bind_halt,
        List.length_cons, List.length_cons, hword]

theorem showTurn_stuck {buf rest : List Byte} {i : Nat} {type : DataType} (htype : type.Stuck)
    (h : Holds buf i (type.code :: rest)) : showTurn host buf i = .ok i := by
  rw [h.showTurn, typeOf_code]
  rcases htype with rfl | rfl | rfl | rfl | rfl <;> rfl

theorem of_showPlain {buf rest : List Byte} {b : Byte} {i size j : Nat}
    (h : Holds buf i (b :: rest)) (hshow : showPlain buf i size = .ok j) :
    ∃ data more, data.length = size ∧ rest = data ++ more ∧ j = i + 1 + size := by
  obtain ⟨data, hdata, hj⟩ := of_bind_halt hshow
  obtain ⟨hlen, more, hrest⟩ := of_peek h.tail hdata
  cases hj
  exact ⟨data, more, hlen, hrest, rfl⟩

theorem of_showLen {buf rest : List Byte} {b : Byte} {i : Nat} {type : DataType}
    {r : Int × Nat} (h : Holds buf i (b :: rest)) (hshow : showLen host buf i type = .ok r) :
    ∃ word more, word.length = 4 ∧ rest = DataType.int32.code :: (word ++ more) ∧
      r = ((ofImage 4 host word).toInt, i + 6) := by
  obtain ⟨tag, htag, hshow⟩ := of_bind_halt hshow
  obtain ⟨-, more, hrest⟩ := of_peek h.tail htag
  split at hshow
  case isTrue hint =>
    obtain ⟨word, hword, hr⟩ := of_bind_halt hshow
    rw [hint] at hrest
    have hnext : Holds buf (i + 2) more := by
      have htail := h.tail
      rw [hrest] at htail
      exact htail.next
    obtain ⟨hlen, more', hmore⟩ := of_peek hnext hword
    cases hr
    exact ⟨word, more', hlen, by rw [hrest, hmore]; rfl, rfl⟩
  case isFalse => cases hshow

/-- A turn that goes on has taken a piece. -/
theorem piece_of_showTurn {buf rest : List Byte} {i j : Nat} (h : Holds buf i rest)
    (hshow : showTurn host buf i = .ok j) (hj : j ≠ i) :
    ∃ p more, Piece host p ∧ rest = p ++ more ∧ j = i + p.length := by
  cases rest with
  | nil =>
      obtain ⟨tag, htag, -⟩ := of_bind_halt hshow
      obtain ⟨hlen, more, hnil⟩ := of_peek h htag
      rw [(List.append_eq_nil_iff.mp hnil.symm).1] at hlen
      cases hlen
  | cons b rest =>
      rw [h.showTurn] at hshow
      cases htype : typeOf b with
      | none =>
          rw [htype] at hshow
          exact absurd (Except.ok.inj hshow).symm hj
      | some type =>
          rw [htype] at hshow
          obtain rfl := code_of_typeOf htype
          rcases type.cases_shown with ⟨size, hsize⟩ | rfl | hheaded | hstuck
          · rw [showValue_plain hsize] at hshow
            obtain ⟨data, more, hdata, rfl, rfl⟩ := of_showPlain h hshow
            refine ⟨_, more, .plain hsize hdata, rfl, ?_⟩
            rw [List.length_cons, hdata]
            omega
          · rw [showValue_string] at hshow
            obtain ⟨r, hlen, hshow⟩ := of_bind_halt hshow
            obtain ⟨word, more, hword, rfl, rfl⟩ := of_showLen h hlen
            dsimp only at hshow
            split at hshow
            · cases hshow
            case isFalse hneg =>
              obtain ⟨data, hdata, hj⟩ := of_bind_halt hshow
              have hnext : Holds buf (i + 1 + 1 + word.length) more := h.tail.tail.next
              rw [hword] at hnext
              obtain ⟨hdlen, more', rfl⟩ := of_peek hnext hdata
              cases hj
              have hint : (ofImage 4 host word).toInt = data.length := by omega
              refine ⟨_, more', .string hword hint, ?_, ?_⟩
              · rw [List.cons_append, List.cons_append, List.append_assoc]
              · rw [List.length_cons, List.length_cons, List.length_append, hword, hdlen]
                omega
          · rw [showValue_headed hheaded] at hshow
            obtain ⟨r, hlen, hj⟩ := of_bind_halt hshow
            obtain ⟨word, more, hword, rfl, rfl⟩ := of_showLen h hlen
            cases hj
            refine ⟨_, more, .header hheaded hword, rfl, ?_⟩
            rw [List.length_cons, List.length_cons, hword]
          · have hstay : showTurn host buf i = .ok i := showTurn_stuck hstuck h
            rw [h.showTurn, htype, hshow] at hstay
            exact absurd (Except.ok.inj hstay) hj

/-! ## The loop -/

theorem showFrom_of_pieces {buf : List Byte} {pieces : List (List Byte)}
    (hpieces : ∀ p ∈ pieces, Piece host p) {i : Nat} (h : Holds buf i pieces.flatten) :
    showFrom host buf (pieces.length + 1) i = .ok () := by
  induction pieces generalizing i with
  | nil =>
      have hlen := h.length_eq
      rw [showFrom, if_neg (by simp at hlen; omega)]
  | cons p pieces ih =>
      obtain ⟨hp, hpieces⟩ := List.forall_mem_cons.mp hpieces
      have hahead : Holds buf i (p ++ pieces.flatten) := h
      have hlen := hahead.length_eq
      have hpos := List.length_pos_iff.mpr hp.ne_nil
      rw [List.length_append] at hlen
      rw [List.length_cons, showFrom, if_pos (by omega), showTurn_of_piece hp hahead, ok_bind_halt]
      exact ih hpieces hahead.next

theorem divides_of_showFrom {turns : Nat} {buf rest : List Byte} {i : Nat} (h : Holds buf i rest)
    (hshow : showFrom host buf turns i = .ok ()) : Divides host rest := by
  induction turns generalizing i rest with
  | zero => cases hshow
  | succ turns ih =>
      rw [showFrom] at hshow
      split at hshow
      case isTrue hi =>
        obtain ⟨j, hturn, hshow⟩ := of_bind_halt hshow
        by_cases hj : j = i
        · exact ih h (hj ▸ hshow)
        · obtain ⟨p, more, hp, rfl, rfl⟩ := piece_of_showTurn h hturn hj
          obtain ⟨pieces, hpieces, hmore⟩ := ih h.next hshow
          exact ⟨p :: pieces, List.forall_mem_cons.mpr ⟨hp, hpieces⟩,
            by rw [List.flatten_cons, hmore]⟩
      case isFalse hi =>
        have hlen := h.length_eq
        obtain rfl : rest = [] := List.length_eq_zero_iff.mp (by omega)
        exact ⟨[], List.forall_mem_nil _, rfl⟩

/-- `show()` comes back just where the content divides into pieces. -/
theorem shows_iff_divides (s : DataStream host) : Shows s ↔ Divides host s.mBuf := by
  have hall : Holds s.mBuf 0 s.mBuf := ⟨Nat.zero_le _, rfl⟩
  constructor
  · rintro ⟨turns, h⟩
    exact divides_of_showFrom hall h
  · rintro ⟨pieces, hpieces, hbuf⟩
    exact ⟨pieces.length + 1, showFrom_of_pieces hpieces ⟨Nat.zero_le _, hbuf⟩⟩

/-! ## Content, from its start -/

theorem divides_nil : Divides host [] := ⟨[], List.forall_mem_nil _, rfl⟩

/-- Only one piece is at the start of a content. -/
theorem Piece.unique {p q rest more : List Byte} (hp : Piece host p) (hq : Piece host q)
    (h : p ++ rest = q ++ more) : p = q ∧ rest = more := by
  have hahead : Holds (p ++ rest) 0 (p ++ rest) := ⟨Nat.zero_le _, rfl⟩
  have hahead' : Holds (p ++ rest) 0 (q ++ more) := ⟨Nat.zero_le _, h⟩
  have hleft := showTurn_of_piece hp hahead
  have hright := showTurn_of_piece hq hahead'
  have hlen : p.length = q.length := by
    have heq := Except.ok.inj (hleft.symm.trans hright)
    omega
  exact List.append_inj h hlen

theorem Piece.divides_append_iff {p rest : List Byte} (hp : Piece host p) :
    Divides host (p ++ rest) ↔ Divides host rest := by
  constructor
  · rintro ⟨pieces, hpieces, h⟩
    cases pieces with
    | nil => exact absurd (List.append_eq_nil_iff.mp h).1 hp.ne_nil
    | cons q pieces =>
        obtain ⟨hq, hpieces⟩ := List.forall_mem_cons.mp hpieces
        obtain ⟨-, hrest⟩ := hp.unique hq h
        exact ⟨pieces, hpieces, hrest⟩
  · rintro ⟨pieces, hpieces, rfl⟩
    exact ⟨p :: pieces, List.forall_mem_cons.mpr ⟨hp, hpieces⟩, rfl⟩

theorem DataType.Stuck.not_divides {type : DataType} (h : type.Stuck) (rest : List Byte) :
    ¬ Divides host (type.code :: rest) := by
  rintro ⟨pieces, hpieces, hdata⟩
  have hahead : Holds (type.code :: rest) 0 (type.code :: rest) := ⟨Nat.zero_le _, rfl⟩
  cases pieces with
  | nil => cases hdata
  | cons p pieces =>
      have hp := (List.forall_mem_cons.mp hpieces).1
      have hstay : showTurn host (type.code :: rest) 0 = .ok 0 := showTurn_stuck h hahead
      have hahead' : Holds (type.code :: rest) 0 (p ++ pieces.flatten) := ⟨Nat.zero_le _, hdata⟩
      have hgo := showTurn_of_piece hp hahead'
      have hpos := List.length_pos_iff.mpr hp.ne_nil
      have heq := Except.ok.inj (hstay.symm.trans hgo)
      omega

/-! ## What is written -/

/-- Where it returns, the stream is longer by bytes with the property `P`. -/
def Puts (w : DataStream host → Outcome (DataStream host)) (P : List Byte → Prop) : Prop :=
  ∀ s t, w s = .ok t → ∃ data, t.mBuf = s.mBuf ++ data ∧ P data

theorem Puts.imp {w : DataStream host → Outcome (DataStream host)} {P Q : List Byte → Prop}
    (hw : Puts w P) (h : ∀ d, P d → Q d) : Puts w Q := by
  intro s t ht
  obtain ⟨data, hbuf, hP⟩ := hw s t ht
  exact ⟨data, hbuf, h data hP⟩

theorem Puts.seq {v w : DataStream host → Outcome (DataStream host)} {P Q R : List Byte → Prop}
    (hv : Puts v P) (hw : Puts w Q) (h : ∀ d e, P d → Q e → R (d ++ e)) :
    Puts (fun s => v s >>= w) R := by
  intro s t ht
  obtain ⟨u, hu, ht⟩ := of_bind_ok ht
  obtain ⟨d, hd, hP⟩ := hv s u hu
  obtain ⟨e, he, hQ⟩ := hw u t ht
  exact ⟨d ++ e, by rw [he, hd, List.append_assoc], h d e hP hQ⟩

theorem puts_write (data : List Byte) (len : Int) :
    Puts (fun s : DataStream host => s.write data len) fun d =>
      d = data.take len.toNat ∧ (d.length : Int) = len := by
  intro s t h
  simp only [DataStream.write] at h
  split at h
  · cases h
  split at h
  · cases h
  case isFalse hneg hlen =>
    refine ⟨_, (append_eq h).1, rfl, ?_⟩
    rw [List.length_take]
    omega

theorem puts_writeType (type : DataType) :
    Puts (fun s : DataStream host => writeType type s) fun d => d = [type.code] :=
  (puts_write _ 1).imp fun _ h => h.1

theorem puts_writeScalar (σ : Scalar) (value : σ.Word) :
    Puts (fun s : DataStream host => writeScalar σ value s) fun d =>
      d = σ.type.code :: littleEndian σ.size value.toNat := by
  intro s t h
  have hw : appendAll [[σ.type.code], littleEndian σ.size value.toNat] s = .ok t :=
    (writeScalar_eq σ value s).symm.trans h
  exact ⟨_, (appendAll_eq hw).1, congrArg _ (List.append_nil _)⟩

theorem puts_writeLen (n : Nat) :
    Puts (fun s : DataStream host => writeLen n s) fun d => d = lenBytes n := by
  intro s t h
  have hw : appendAll (lenChunks n) s = .ok t := (writeLen_eq n s).symm.trans h
  exact ⟨_, (appendAll_eq hw).1, congrArg _ (List.append_nil _)⟩

theorem puts_header (type : DataType) (n : Nat) {body : DataStream host → Outcome (DataStream host)}
    {P : List Byte → Prop} (hbody : Puts body P) :
    Puts (fun s => writeType type s >>= fun s => writeLen n s >>= body) fun d =>
      ∃ e, d = type.code :: (lenBytes n ++ e) ∧ P e := by
  have hrest : Puts (fun s => writeLen n s >>= body) fun d => ∃ e, d = lenBytes n ++ e ∧ P e := by
    refine (puts_writeLen n).seq hbody fun d e hd he => ?_
    exact ⟨e, by rw [hd], he⟩
  refine (puts_writeType type).seq hrest fun d e hd he => ?_
  obtain ⟨f, rfl, hf⟩ := he
  exact ⟨f, by rw [hd]; rfl, hf⟩

/-- It only writes behind what is there. -/
def Appends (w : DataStream host → Outcome (DataStream host)) : Prop := Puts w fun _ => True

theorem Puts.appends {w : DataStream host → Outcome (DataStream host)} {P : List Byte → Prop}
    (h : Puts w P) : Appends w :=
  h.imp fun _ _ => trivial

theorem Appends.seq {v w : DataStream host → Outcome (DataStream host)} (hv : Appends v)
    (hw : Appends w) : Appends fun s => v s >>= w :=
  Puts.seq hv hw fun _ _ _ _ => trivial

theorem appends_writeEach {α : Type} {elem : Writer host α} (h : ∀ v, Appends (elem v))
    (vs : List α) : Appends (writeEach elem vs) := by
  induction vs with
  | nil =>
      intro s t ht
      cases ht
      exact ⟨[], (List.append_nil _).symm, trivial⟩
  | cons v vs ih => exact (h v).seq ih

theorem appends_writeContainer {α : Type} (type : DataType) {elem : Writer host α}
    (h : ∀ v, Appends (elem v)) (value : List α) : Appends (writeContainer type elem value) :=
  (puts_header type value.length (appends_writeEach h value)).appends

mutual

theorem STy.appends {α : Type} : (type : STy α) → (value : α) → Appends (type.write host value)
  | .bool, value => (puts_writeType .bool).appends.seq (puts_write _ 1).appends
  | .char, value => (puts_writeType .char).appends.seq (puts_write _ 1).appends
  | .scalar σ, value => (puts_writeScalar σ value).appends
  | .enum signed size, value => (puts_writeScalar .int32 (toInt32 signed value)).appends
  | .string, value => (puts_header .string value.length (puts_write _ _)).appends
  | .vector elem, value => (puts_header .vector value.length (puts_write _ _)).appends
  | .list elem, value => appends_writeContainer .list (fun v => elem.appends v) value
  | .map _ key val, value => by
      refine appends_writeContainer .map (fun e => ?_) value.1
      exact (key.appends e.1).seq (val.appends e.2)
  | .set _ elem, value => appends_writeContainer .set (fun v => elem.appends v) value.1
  | .custom _ args, value => (puts_writeType .custom).appends.seq (args.appends value)

theorem Args.appends {α : Type} : (args : Args α) → (value : α) → Appends (args.write host value)
  | .nil, _ => by
      intro s t h
      cases h
      exact ⟨[], (List.append_nil _).symm, trivial⟩
  | .cons member _ head args, value => (head.appends (member value)).seq (args.appends value)

end

/-- No bytes of the value can be taken for tags. -/
def STy.Framed (host : ByteOrder) {α : Type} : STy α → α → Prop
  | .string, _ => host = .littleEndian
  | .vector _, value => value = []
  | .map _ key val, value => ∀ e ∈ value.1, key.Framed host e.1 ∧ val.Framed host e.2
  | .set _ elem, value => ∀ v ∈ value.1, elem.Framed host v
  | .bool, _ | .char, _ | .scalar _, _ | .enum _ _, _ | .list _, _ | .custom _ _, _ => True

/-- There is no tag in the value that the loop stays at. -/
def STy.Shown {α : Type} : STy α → α → Prop
  | .scalar σ, _ => σ ≠ .uint32 ∧ σ ≠ .uint64
  | .list _, _ | .custom _ _, _ => False
  | .map _ key val, value => ∀ e ∈ value.1, key.Shown e.1 ∧ val.Shown e.2
  | .set _ elem, value => ∀ v ∈ value.1, elem.Shown v
  | .bool, _ | .char, _ | .enum _ _, _ | .string, _ | .vector _, _ => True

/-- Where `p` holds the loop goes on behind the bytes, and where not it ends in them. -/
structure ShownIf (host : ByteOrder) (p : Prop) (data : List Byte) : Prop where
  shown : p → ∀ rest, Divides host (data ++ rest) ↔ Divides host rest
  stuck : ¬ p → ∀ rest, ¬ Divides host (data ++ rest)

theorem Piece.shownIf {data : List Byte} (h : Piece host data) {p : Prop} (hp : p) :
    ShownIf host p data :=
  ⟨fun _ _ => h.divides_append_iff, fun hnp => absurd hp hnp⟩

theorem DataType.Stuck.shownIf {type : DataType} (h : type.Stuck) (data : List Byte) {p : Prop}
    (hp : ¬ p) : ShownIf host p (type.code :: data) :=
  ⟨fun h' => absurd h' hp, fun _ _ => h.not_divides _⟩

theorem ShownIf.append {p q : Prop} {d e : List Byte} (hd : ShownIf host p d)
    (he : ShownIf host q e) : ShownIf host (p ∧ q) (d ++ e) := by
  refine ⟨fun h rest => ?_, fun h rest => ?_⟩
  · rw [List.append_assoc, hd.shown h.1, he.shown h.2]
  · rw [List.append_assoc]
    by_cases hp : p
    · rw [hd.shown hp]
      exact he.stuck (fun hq => h ⟨hp, hq⟩) rest
    · exact hd.stuck hp _

theorem ShownIf.congr {p q : Prop} {data : List Byte} (h : ShownIf host p data) (hpq : q ↔ p) :
    ShownIf host q data :=
  ⟨fun hq => h.shown (hpq.mp hq), fun hq => h.stuck fun hp => hq (hpq.mpr hp)⟩

theorem shownIf_nil {p : Prop} (hp : p) : ShownIf host p [] :=
  ⟨fun _ _ => Iff.rfl, fun hnp => absurd hp hnp⟩

/-! ### Scalars and strings -/

theorem Scalar.plainSize {σ : Scalar} (h : σ ≠ .uint32 ∧ σ ≠ .uint64) :
    σ.type.plainSize = some σ.size := by
  cases σ with
  | uint32 => exact absurd rfl h.1
  | uint64 => exact absurd rfl h.2
  | int32 | int64 | float | double => rfl

theorem Scalar.stuck {σ : Scalar} (h : ¬ (σ ≠ .uint32 ∧ σ ≠ .uint64)) : σ.type.Stuck := by
  rw [not_and_or, not_not, not_not] at h
  rcases h with rfl | rfl
  · exact .inl rfl
  · exact .inr (.inl rfl)

theorem shownIf_scalar (σ : Scalar) (value : σ.Word) :
    ShownIf host (σ ≠ .uint32 ∧ σ ≠ .uint64) (σ.type.code :: littleEndian σ.size value.toNat) := by
  by_cases h : σ ≠ .uint32 ∧ σ ≠ .uint64
  · exact (Piece.plain (Scalar.plainSize h) (littleEndian_length _ _)).shownIf h
  · exact (Scalar.stuck h).shownIf _ h

theorem toInt_lenBytes (n : Nat) :
    (ofImage 4 .littleEndian (littleEndian 4 n)).toInt = (BitVec.ofNat 32 n).toInt := by
  have hword : ofImage 4 .littleEndian (littleEndian 4 n) = BitVec.ofNat 32 n := by
    apply BitVec.eq_of_toNat_eq
    show (BitVec.ofNat 32 (value (littleEndian 4 n))).toNat = _
    rw [value_littleEndian, BitVec.toNat_ofNat, BitVec.toNat_ofNat]
    exact Nat.mod_mod n _
  exact congrArg BitVec.toInt hword

theorem puts_string (value : List Byte) :
    Puts (fun s : DataStream host => writeString value s) fun d => host = .littleEndian → Piece host d := by
  refine (puts_header .string value.length (puts_write value _)).imp fun d h hhost => ?_
  obtain ⟨e, rfl, -, hlen⟩ := h
  subst hhost
  exact .string (littleEndian_length 4 _) ((toInt_lenBytes _).trans hlen.symm)

/-! ### Containers -/

theorem puts_writeEach {α : Type} {elem : Writer host α} {p : α → Prop} (vs : List α)
    (h : ∀ v ∈ vs, Puts (elem v) (ShownIf host (p v))) :
    Puts (writeEach elem vs) (ShownIf host (∀ v ∈ vs, p v)) := by
  induction vs with
  | nil =>
      intro s t ht
      cases ht
      exact ⟨[], (List.append_nil _).symm, shownIf_nil (List.forall_mem_nil _)⟩
  | cons v vs ih =>
      obtain ⟨hv, hvs⟩ := List.forall_mem_cons.mp h
      exact hv.seq (ih hvs) fun d e hd he => (hd.append he).congr List.forall_mem_cons

theorem puts_writeContainer {α : Type} {type : DataType} (htype : type.Headed)
    {elem : Writer host α} {p : α → Prop} (value : List α)
    (h : ∀ v ∈ value, Puts (elem v) (ShownIf host (p v))) :
    Puts (writeContainer type elem value) (ShownIf host (∀ v ∈ value, p v)) := by
  refine (puts_header type value.length (puts_writeEach value h)).imp fun d hd => ?_
  obtain ⟨e, rfl, he⟩ := hd
  have hhead : Piece host (type.code :: lenBytes value.length) :=
    .header htype (littleEndian_length 4 _)
  exact ((hhead.shownIf trivial).append he).congr (true_and _).to_iff.symm

/-- A value with these bytes only is shown, or the loop ends in it. -/
theorem STy.puts {α : Type} : (type : STy α) → (value : α) → type.Framed host value →
    Puts (type.write host value) (ShownIf host (type.Shown value))
  | .bool, value, _ => by
      refine (puts_writeType .bool).seq (puts_write _ 1) fun d e hd he => ?_
      rw [hd]
      have hlen : e.length = 1 := Int.ofNat_inj.mp he.2
      exact (Piece.plain rfl hlen).shownIf trivial
  | .char, value, _ => by
      refine (puts_writeType .char).seq (puts_write _ 1) fun d e hd he => ?_
      rw [hd]
      have hlen : e.length = 1 := Int.ofNat_inj.mp he.2
      exact (Piece.plain rfl hlen).shownIf trivial
  | .scalar σ, value, _ => (puts_writeScalar σ value).imp fun d hd => hd ▸ shownIf_scalar σ value
  | .enum signed size, value, _ => by
      refine (puts_writeScalar .int32 (toInt32 signed value)).imp fun d hd => ?_
      rw [hd]
      exact (shownIf_scalar .int32 _).congr (iff_of_true trivial (by decide))
  | .string, value, h => (puts_string value).imp fun d hd => (hd h).shownIf trivial
  | .vector elem, value, h => by
      obtain rfl : value = [] := h
      refine (puts_header .vector 0 (puts_write [] 0)).imp fun d hd => ?_
      obtain ⟨e, rfl, rfl, -⟩ := hd
      exact (Piece.header (.inl rfl) (littleEndian_length 4 0)).shownIf trivial
  | .list elem, value, _ => by
      refine (puts_header .list value.length
        (appends_writeEach (fun v => elem.appends v) value)).imp fun d hd => ?_
      obtain ⟨e, rfl, -⟩ := hd
      exact DataType.Stuck.shownIf (.inr (.inr (.inr (.inl rfl)))) _ id
  | .map cmp key val, value, h => by
      refine puts_writeContainer (.inr (.inl rfl)) value.1 fun e he => ?_
      obtain ⟨hkey, hval⟩ := h e he
      exact (key.puts e.1 hkey).seq (val.puts e.2 hval) fun d e hd he => hd.append he
  | .set cmp elem, value, h =>
      puts_writeContainer (.inr (.inr rfl)) value.1 fun v hv => elem.puts v (h v hv)
  | .custom init args, value, _ => by
      refine (puts_writeType .custom).seq (args.appends value) fun d e hd _ => ?_
      rw [hd]
      exact DataType.Stuck.shownIf (.inr (.inr (.inr (.inr rfl)))) _ id

/-! ## A sequence of writes -/

/-- A value that is written, with its type. -/
structure Written where
  Carrier : Type
  type : STy Carrier
  value : Carrier

def writeAll : List Written → DataStream host → Outcome (DataStream host)
  | [], s => .ok s
  | w :: ws, s => do
      let s ← w.type.write host w.value s
      writeAll ws s

theorem puts_writeAll {ws : List Written} (h : ∀ w ∈ ws, w.type.Framed host w.value) :
    Puts (fun s : DataStream host => writeAll ws s) (ShownIf host (∀ w ∈ ws, w.type.Shown w.value)) := by
  induction ws with
  | nil =>
      intro s t ht
      cases ht
      exact ⟨[], (List.append_nil _).symm, shownIf_nil (List.forall_mem_nil _)⟩
  | cons w ws ih =>
      obtain ⟨hw, hws⟩ := List.forall_mem_cons.mp h
      exact (w.type.puts w.value hw).seq (ih hws) fun d e hd he =>
        (hd.append he).congr List.forall_mem_cons

/-- A content is shown to its end just where it divides into pieces: where nothing in it can
be taken for a tag, just if the loop stays at no tag of what has been written. -/
theorem shows_written_iff (ws : List Written) (s : DataStream host)
    (h : writeAll ws (new host) = .ok s) :
    (Shows s ↔ Divides host s.mBuf) ∧ ((∀ w ∈ ws, w.type.Framed host w.value) →
      (Shows s ↔ ∀ w ∈ ws, w.type.Shown w.value)) := by
  refine ⟨shows_iff_divides s, fun hframed => ?_⟩
  obtain ⟨data, hbuf, hdata⟩ := puts_writeAll hframed (new host) s h
  have hcontent : s.mBuf = data ++ [] := hbuf.trans (List.append_nil data).symm
  rw [shows_iff_divides, hcontent]
  by_cases hshown : ∀ w ∈ ws, w.type.Shown w.value
  · exact iff_of_true ((hdata.shown hshown []).mpr divides_nil) hshown
  · exact iff_of_false (hdata.stuck hshown []) hshown

theorem writeAll_singleton {α : Type} (type : STy α) (value : α) (s : DataStream host) :
    writeAll [⟨α, type, value⟩] s = type.write host value s := by
  rw [writeAll]
  cases type.write host value s <;> rfl

theorem shows_written_iff_string :
    ∃ s, writeAll [⟨List Byte, .string, [0x61]⟩] (new .littleEndian) = .ok s ∧ Shows s := by
  obtain ⟨s, hs, -⟩ := STy.write_ok .string [0x61] (new .littleEndian) (by decide)
  have hwrite := (writeAll_singleton .string [0x61] (new .littleEndian)).trans hs
  refine ⟨s, hwrite, ((shows_written_iff _ s hwrite).2 ?_).mpr ?_⟩
  · exact List.forall_mem_singleton.mpr rfl
  · exact List.forall_mem_singleton.mpr trivial

/-- The number 7, as a `uint32_t`. -/
theorem uint32_not_shows : ¬ ∀ (host : ByteOrder) (ws : List Written) (s : DataStream host),
    writeAll ws (new host) = .ok s → Shows s := by
  intro h
  obtain ⟨s, hs, hbuf, -⟩ :=
    STy.write_ok (.scalar .uint32) (7 : BitVec 32) (new .littleEndian) (by decide)
  have hshows := h .littleEndian [⟨BitVec 32, .scalar .uint32, 7⟩] s
    ((writeAll_singleton (.scalar .uint32) _ _).trans hs)
  rw [shows_iff_divides, hbuf] at hshows
  exact DataType.Stuck.not_divides (.inl rfl) [7, 0, 0, 0] hshows

end Serialize
end Cmw
