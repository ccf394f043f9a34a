import Cmw.Config.RoleAttributes
import Cmw.Library.Decimal
import Cmw.Library.Lines

/-!
# The CPUs of a configuration

`ParseCpuset` of scheduler/common/pin_thread.cpp reads a list of CPUs and of ranges of
CPUs.  Its loop over a range counts an `int` past the last CPU of the range.
-/

namespace Cmw
namespace Scheduler
namespace PinThread

open Config
open Library
open Library.ByteImage (Byte)
open Library.Decimal (isDigit number stoi)

/-- How a call ends when it does not return. -/
inductive Fault
  | invalidArgument
  | intOverflow
  | endlessLoop
  | exit
deriving DecidableEq

def maxInt : Nat := 2147483647

def comma : Byte := 0x2C

def dash : Byte := 0x2D

def parseInt (s : Str) : Except Fault Int :=
  match stoi s with
  | some i => .ok i
  | none => .error .invalidArgument

/-- `for (int i = …, e = …; i <= e; i++)`, with a bound on its turns. -/
def pushRange : Nat → Int → Int → List Int → Except Fault (List Int)
  | 0, _, _, _ => .error .endlessLoop
  | turns + 1, i, e, cpuset =>
      if i ≤ e then
        if i = maxInt then .error .intOverflow else pushRange turns (i + 1) e (cpuset ++ [i])
      else .ok cpuset

def parseLine (turns : Nat) (cpuset : List Int) (line : Str) : Except Fault (List Int) :=
  match lines dash line with
  | [cpu] => do
      let cpu ← parseInt cpu
      .ok (cpuset ++ [cpu])
  | [first, last] => do
      let i ← parseInt first
      let e ← parseInt last
      pushRange turns i e cpuset
  | _ => .error .exit

def parseCpuset (turns : Nat) (str : Str) (cpuset : List Int) : Except Fault (List Int) :=
  (lines comma str).foldlM (parseLine turns) cpuset

/-! ## What is written in a configuration -/

/-- A number that an `int` holds, with any zeros in front. -/
structure Numeral where
  text : Str
  digits : ∀ b ∈ text, isDigit b = true
  nonempty : text ≠ []
  int : number text ≤ maxInt

def Numeral.value (n : Numeral) : Nat := number n.text

inductive Item
  | cpu (n : Numeral)
  | range (first last : Numeral)

namespace Item

def text : Item → Str
  | cpu n => n.text
  | range first last => first.text ++ dash :: last.text

/-- The CPUs that are meant. -/
def cpus : Item → List Int
  | cpu n => [n.value]
  | range first last =>
      (List.range' first.value (last.value + 1 - first.value)).map Int.ofNat

/-- It is no range up to the largest `int`. -/
def Bounded : Item → Prop
  | cpu _ => True
  | range first last => first.value ≤ last.value → last.value < maxInt

end Item

def cpusetText (items : List Item) : Str := [comma].intercalate (items.map Item.text)

/-- It comes back, with the CPUs that are meant behind those that were there. -/
def Parses (items : List Item) (cpuset : List Int) : Prop :=
  ∃ turns, parseCpuset turns (cpusetText items) cpuset = .ok (cpuset ++ items.flatMap Item.cpus)

/-! ## Lines and parts of lines -/

theorem Numeral.notMem {n : Numeral} {b : Byte} (h : isDigit b = false) : b ∉ n.text :=
  fun hb => Bool.false_ne_true (h.symm.trans (n.digits b hb))

theorem Numeral.parseInt_text (n : Numeral) : parseInt n.text = .ok (n.value : Int) := by
  have hint : number n.text < 2 ^ 31 := Nat.lt_succ_of_le n.int
  rw [parseInt, Decimal.stoi_digits n.digits n.nonempty hint]
  rfl

theorem Item.comma_notMem (item : Item) : comma ∉ item.text := by
  cases item with
  | cpu n => exact Numeral.notMem rfl
  | range first last =>
      show comma ∉ first.text ++ dash :: last.text
      rw [List.mem_append, List.mem_cons]
      rintro (h | h | h)
      · exact Numeral.notMem rfl h
      · cases h
      · exact Numeral.notMem rfl h

theorem Item.text_ne_nil (item : Item) : item.text ≠ [] := by
  cases item with
  | cpu n => exact n.nonempty
  | range first last => exact List.append_ne_nil_of_left_ne_nil first.nonempty _

theorem lines_cpusetText (items : List Item) :
    lines comma (cpusetText items) = items.map Item.text := by
  refine lines_intercalate (fun l hl => ?_) fun h => ?_
  · obtain ⟨item, -, rfl⟩ := List.mem_map.mp hl
    exact item.comma_notMem
  · obtain ⟨item, -, hitem⟩ := List.mem_map.mp (List.mem_of_getLast? h)
    exact item.text_ne_nil hitem

theorem Item.lines_range (first last : Numeral) :
    lines dash (Item.range first last).text = [first.text, last.text] := by
  have htext : (Item.range first last).text = [dash].intercalate [first.text, last.text] := by
    rw [List.intercalate_cons_cons, List.intercalate_singleton, List.append_assoc]
    rfl
  rw [htext]
  refine lines_intercalate (fun l hl => ?_) fun h => last.nonempty (Option.some.inj h)
  simp only [List.mem_cons, List.not_mem_nil, or_false] at hl
  rcases hl with rfl | rfl <;> exact Numeral.notMem rfl

theorem parseLine_cpu (turns : Nat) (cpuset : List Int) (n : Numeral) :
    parseLine turns cpuset (Item.cpu n).text = .ok (cpuset ++ [(n.value : Int)]) := by
  have hlines : lines dash (Item.cpu n).text = [n.text] :=
    lines_singleton (Numeral.notMem rfl) n.nonempty
  rw [parseLine, hlines]
  dsimp only
  rw [n.parseInt_text]
  rfl

theorem parseLine_range (turns : Nat) (cpuset : List Int) (first last : Numeral) :
    parseLine turns cpuset (Item.range first last).text =
      pushRange turns first.value last.value cpuset := by
  rw [parseLine, Item.lines_range]
  dsimp only
  rw [first.parseInt_text, last.parseInt_text]
  rfl

/-! ## The loop over a range -/

theorem pushRange_ok (m : Nat) {i e turns : Nat} (he : e < maxInt ∨ e < i) (hm : e + 1 - i = m)
    (hturns : m < turns) (cpuset : List Int) :
    pushRange turns i e cpuset = .ok (cpuset ++ (List.range' i m).map Int.ofNat) := by
  induction m generalizing i turns cpuset with
  | zero =>
      obtain ⟨turns, rfl⟩ : ∃ n, turns = n + 1 := ⟨turns - 1, by omega⟩
      rw [pushRange, if_neg (by omega), List.range'_zero, List.map_nil, List.append_nil]
  | succ m ih =>
      obtain ⟨turns, rfl⟩ : ∃ n, turns = n + 1 := ⟨turns - 1, by omega⟩
      rw [pushRange, if_pos (by omega), if_neg (by omega)]
      have he' : e < maxInt ∨ e < i + 1 := by omega
      have hm' : e + 1 - (i + 1) = m := by omega
      refine (ih he' hm' (by omega) _).trans ?_
      rw [List.range'_succ, List.map_cons, List.append_assoc]
      rfl

/-- Where it comes back it was no range up to the largest `int`, which it would count past. -/
theorem of_pushRange {turns i e : Nat} (he : e ≤ maxInt) {cpuset out : List Int}
    (h : pushRange turns i e cpuset = .ok out) : (i ≤ e → e < maxInt) ∧
      out = cpuset ++ (List.range' i (e + 1 - i)).map Int.ofNat := by
  induction turns generalizing i cpuset with
  | zero => cases h
  | succ turns ih =>
      rw [pushRange] at h
      split at h
      case isTrue hle =>
        split at h
        · cases h
        case isFalse hne =>
          have hstep : pushRange turns (i + 1 : Nat) e (cpuset ++ [(i : Int)]) = .ok out := h
          obtain ⟨hlast, rfl⟩ := ih hstep
          have hcount : e + 1 - i = (e + 1 - (i + 1)) + 1 := by omega
          refine ⟨fun _ => ?_, ?_⟩
          · rcases Nat.lt_or_ge e (i + 1) with hend | hmore
            · omega
            · exact hlast hmore
          · rw [hcount, List.range'_succ, List.map_cons, List.append_assoc]
            rfl
      case isFalse hgt =>
        cases h
        have hcount : e + 1 - i = 0 := by omega
        refine ⟨fun hle => absurd (Int.ofNat_le.mpr hle) hgt, ?_⟩
        rw [hcount, List.range'_zero, List.map_nil, List.append_nil]

/-! ## The whole text -/

/-- Turns enough for any range. -/
def enough : Nat := maxInt + 2

theorem parseLine_ok {item : Item} (h : item.Bounded) (cpuset : List Int) :
    parseLine enough cpuset item.text = .ok (cpuset ++ item.cpus) := by
  cases item with
  | cpu n => exact parseLine_cpu enough cpuset n
  | range first last =>
      have hint : last.value ≤ maxInt := last.int
      have hlast : last.value < maxInt ∨ last.value < first.value := by
        rcases Nat.lt_or_ge last.value first.value with hlt | hle
        · exact .inr hlt
        · exact .inl (h hle)
      have hturns : last.value + 1 - first.value < enough := by
        unfold enough
        omega
      rw [parseLine_range]
      exact pushRange_ok _ hlast rfl hturns cpuset

theorem of_parseLine {turns : Nat} {item : Item} {cpuset out : List Int}
    (h : parseLine turns cpuset item.text = .ok out) :
    item.Bounded ∧ out = cpuset ++ item.cpus := by
  cases item with
  | cpu n =>
      rw [parseLine_cpu] at h
      exact ⟨trivial, (Except.ok.inj h).symm⟩
  | range first last =>
      rw [parseLine_range] at h
      exact of_pushRange last.int h

theorem parseCpuset_cons (turns : Nat) (item : Item) (items : List Item) (cpuset : List Int) :
    parseCpuset turns (cpusetText (item :: items)) cpuset =
      parseLine turns cpuset item.text >>= parseCpuset turns (cpusetText items) := by
  unfold parseCpuset
  rw [lines_cpusetText, lines_cpusetText]
  rfl

theorem parseCpuset_ok {items : List Item} (h : ∀ item ∈ items, item.Bounded)
    (cpuset : List Int) : parseCpuset enough (cpusetText items) cpuset =
      .ok (cpuset ++ items.flatMap Item.cpus) := by
  induction items generalizing cpuset with
  | nil => exact congrArg Except.ok (List.append_nil cpuset).symm
  | cons item items ih =>
      obtain ⟨hitem, hitems⟩ := List.forall_mem_cons.mp h
      rw [parseCpuset_cons, parseLine_ok hitem]
      refine (ih hitems _).trans ?_
      rw [List.flatMap_cons, List.append_assoc]

theorem of_parseCpuset {turns : Nat} {items : List Item} {cpuset out : List Int}
    (h : parseCpuset turns (cpusetText items) cpuset = .ok out) :
    (∀ item ∈ items, item.Bounded) ∧ out = cpuset ++ items.flatMap Item.cpus := by
  induction items generalizing cpuset with
  | nil =>
      refine ⟨fun _ h => absurd h List.not_mem_nil, ?_⟩
      rw [List.flatMap_nil, List.append_nil]
      exact (Except.ok.inj h).symm
  | cons item items ih =>
      rw [parseCpuset_cons] at h
      cases hline : parseLine turns cpuset item.text with
      | error e => rw [hline] at h; cases h
      | ok next =>
          rw [hline] at h
          obtain ⟨hitem, rfl⟩ := of_parseLine hline
          obtain ⟨hitems, rfl⟩ := ih h
          exact ⟨List.forall_mem_cons.mpr ⟨hitem, hitems⟩,
            by rw [List.flatMap_cons, List.append_assoc]⟩

/-- A text is read to its end just where no range goes up to the largest `int`. -/
theorem parses_iff (items : List Item) (cpuset : List Int) :
    Parses items cpuset ↔ ∀ item ∈ items, item.Bounded := by
  constructor
  · rintro ⟨turns, h⟩
    exact (of_parseCpuset h).1
  · intro h
    exact ⟨enough, parseCpuset_ok h cpuset⟩

/-- `2147483647` -/
def largest : Numeral :=
  { text := [0x32, 0x31, 0x34, 0x37, 0x34, 0x38, 0x33, 0x36, 0x34, 0x37]
    digits := by decide
    nonempty := by decide
    int := by decide }

/-- The range `2147483647-2147483647`. -/
theorem largest_not_parses : ¬ ∀ items cpuset, Parses items cpuset := by
  intro h
  obtain ⟨turns, hparse⟩ := h [.range largest largest] []
  have hbounded := (of_parseCpuset hparse).1 _ List.mem_cons_self
  exact absurd (hbounded (Nat.le_refl _)) (by decide)

end PinThread
end Scheduler
end Cmw
