import Cmw.Library.Amd64
import Mathlib.Tactic.IntervalCases

/-!
# How a context is left and entered again

croutine/swap_x86_64.S and croutine/croutine_context.cpp.  `ctx_swap` pushes seven registers
below the return address, keeps the stack pointer in the cell of the context that it
leaves, and takes everything back from the stack of the other one.  `MakeContext` lays out
the stack of a context that has never run as if it had been left.
-/

namespace Cmw
namespace Croutine

open Library
open Library.Amd64

def stackSize : Nat := 2 * 1024 * 1024

def registersSize : Nat := 56

def ctxSwap : List Instr :=
  [.pushq .rdi, .pushq .r12, .pushq .r13, .pushq .r14, .pushq .r15, .pushq .rbx, .pushq .rbp,
    .movqTo .rsp .rdi,
    .movqFrom .rsi .rsp,
    .popq .rbp, .popq .rbx, .popq .r15, .popq .r14, .popq .r13, .popq .r12, .popq .rdi,
    .ret]

/-- `SwapContext(src_sp, dest_sp)`, called from code that goes on at `returnTo`. -/
@[irreducible] def swapContext (srcSp destSp returnTo : Word) (s : State) : State :=
  exec ctxSwap (call returnTo ((s.setReg .rdi srcSp).setReg .rsi destSp))

/-- Where a `RoutineContext` keeps its `sp`, behind its stack. -/
def spCell (ctx : Word) : Word := ctx + BitVec.ofNat 64 stackSize

def makeContext (f1 arg ctx : Word) (m : Memory) : Memory :=
  let sp := ctx + BitVec.ofNat 64 stackSize - 2 * 8 - BitVec.ofNat 64 registersSize
  let m := m.store (spCell ctx) sp
  let m := m.write sp (List.replicate registersSize 0)
  let sp := ctx + BitVec.ofNat 64 stackSize - 2 * 8
  let m := m.store sp f1
  m.store (sp - 8) arg

/-- The registers that are pushed, in this order. -/
def saved : List Reg := [.rdi, .r12, .r13, .r14, .r15, .rbx, .rbp]

/-- What a context goes on with: its registers, its stack pointer after the return, and
the return address. -/
structure Continuation where
  regs : Regs
  sp : Word
  pc : Word

/-- A context whose stack pointer is kept in `cell` will go on with `c`. -/
structure Suspended (m : Memory) (cell : Word) (c : Continuation) : Prop where
  sp : m.load cell = c.sp - 64
  words : m.Words (c.sp - 64) (saved.reverse.map c.regs ++ [c.pc])

theorem ctxSwap_eq : ctxSwap = saved.map .pushq ++
    ([.movqTo .rsp .rdi, .movqFrom .rsi .rsp] ++ (saved.reverse.map .popq ++ [.ret])) := rfl

/-- The bytes that a call of `SwapContext` leaves where the stack pointer is `sp`. -/
def frame (sp : Word) : Word → Prop := Memory.Within (sp - 64) 64

section Swap

variable {m m' : Memory} {cell x : Word} {c : Continuation}

theorem Suspended.congr (h : Suspended m cell c)
    (hm : ∀ x, Memory.Within cell 8 x ∨ frame c.sp x → m' x = m x) : Suspended m' cell c where
  sp := (Memory.load_congr fun x hx => hm x (.inl hx)).trans h.sp
  words := h.words.congr (by simp [saved]) fun x hx => hm x (.inr hx)

/-- The memory when `ctx_swap`, called in the state `s`, has pushed its registers. -/
def pushed (returnTo : Word) (s : State) : Memory :=
  pushWords s.mem (s.regs .rsp) (returnTo :: saved.map s.regs)

variable {returnTo : Word} {s : State}

theorem pushed_of_not_frame (h : ¬ frame (s.regs .rsp) x) : pushed returnTo s x = s.mem x :=
  pushWords_of_not_within (by simp [saved]) h

theorem words_pushed : (pushed returnTo s).Words (s.regs .rsp - 64)
    (saved.reverse.map s.regs ++ [returnTo]) := by
  have h : (pushed returnTo s).Words (s.regs .rsp - 64)
      ((returnTo :: saved.map s.regs).reverse ++ []) :=
    words_pushWords Memory.words_nil (by simp [saved])
  rw [List.append_nil, List.reverse_cons, ← List.map_reverse] at h
  exact h

theorem exec_save : exec (saved.map .pushq) (call returnTo s) =
    { regs := Function.update s.regs .rsp (s.regs .rsp - 64)
      pc := s.pc
      mem := pushed returnTo s } := by
  have hmap : saved.map (call returnTo s).regs = saved.map s.regs :=
    List.map_congr_left fun r hr =>
      Function.update_of_ne (ne_of_mem_of_not_mem hr (by decide)) _ _
  have hrsp : (call returnTo s).regs .rsp = s.regs .rsp - 8 := rfl
  have hsp : s.regs .rsp - 8 - BitVec.ofNat 64 (8 * saved.length) = s.regs .rsp - 64 :=
    sub_words (s.regs .rsp) 7
  rw [exec_pushq (by decide), hmap, hrsp, hsp]
  exact congrArg (State.mk · _ _) (Function.update_idem ..)

theorem exec_restore (h : Suspended m cell c) (regs : Regs) (pc : Word) :
    exec (saved.reverse.map .popq ++ [.ret])
        { regs := Function.update regs .rsp (c.sp - 64), pc, mem := m } =
      { regs := Function.update (assign regs saved.reverse (saved.reverse.map c.regs)) .rsp c.sp
        pc := c.pc
        mem := m } := by
  have hlen : (saved.reverse.map c.regs).length = saved.reverse.length := List.length_map ..
  obtain ⟨hpop, hret⟩ := exec_popq (by decide) hlen
    (s := { regs := Function.update regs .rsp (c.sp - 64), pc, mem := m }) (by
      dsimp only
      rw [Function.update_self]
      exact h.words)
  dsimp only at hpop hret
  have hload := (Memory.words_cons.mp hret).1
  have hend : c.sp - 64 + BitVec.ofNat 64 (8 * saved.reverse.length) + 8 = c.sp := by
    rw [BitVec.add_assoc]
    exact BitVec.sub_add_cancel ..
  rw [Function.update_self] at hload
  rw [exec_append, hpop, assign_update (by decide), Function.update_idem, Function.update_self]
  simp only [exec, List.foldl_cons, List.foldl_nil, step, State.setReg, Function.update_self,
    Function.update_idem, hload, hend]

/-- `ctx_swap`, where what it leaves is apart from what it enters. -/
theorem swapContext_eq {srcSp destSp : Word} (hdest : Suspended s.mem destSp c)
    (hcell : ∀ x, Memory.Within destSp 8 x → ¬ Memory.Within srcSp 8 x ∧ ¬ frame (s.regs .rsp) x)
    (hframe : ∀ x, frame c.sp x → ¬ Memory.Within srcSp 8 x ∧ ¬ frame (s.regs .rsp) x) :
    swapContext srcSp destSp returnTo s =
      { regs := Function.update (assign ((s.setReg .rdi srcSp).setReg .rsi destSp).regs
          saved.reverse (saved.reverse.map c.regs)) .rsp c.sp
        pc := c.pc
        mem := (pushed returnTo ((s.setReg .rdi srcSp).setReg .rsi destSp)).store srcSp
          (s.regs .rsp - 64) } := by
  have hkept : Suspended ((pushed returnTo ((s.setReg .rdi srcSp).setReg .rsi destSp)).store srcSp
      (s.regs .rsp - 64)) destSp c := by
    refine hdest.congr fun x hx => ?_
    have hx := hx.elim (hcell x) (hframe x)
    rw [Memory.store_of_not_within hx.1]
    exact pushed_of_not_frame hx.2
  rw [swapContext, ctxSwap_eq, exec_append, exec_append, exec_save, ← exec_restore hkept, ← hkept.sp]
  refine congrArg (fun regs => exec _ (State.mk regs _ _)) ?_
  exact Function.update_idem ..

/-- From the state `s` a context has been left, and one that goes on with `c` is entered. -/
structure Switched (srcSp returnTo : Word) (c : Continuation) (s s' : State) : Prop where
  regs : ∀ r ∈ saved, s'.regs r = c.regs r
  sp : s'.regs .rsp = c.sp
  pc : s'.pc = c.pc
  left : Suspended s'.mem srcSp
    { regs := Function.update s.regs .rdi srcSp, sp := s.regs .rsp, pc := returnTo }
  mem : ∀ x, ¬ Memory.Within srcSp 8 x → ¬ frame (s.regs .rsp) x → s'.mem x = s.mem x

theorem swapContext_switched {srcSp destSp : Word} (hdest : Suspended s.mem destSp c)
    (hcell : ∀ x, Memory.Within destSp 8 x → ¬ Memory.Within srcSp 8 x ∧ ¬ frame (s.regs .rsp) x)
    (hframe : ∀ x, frame c.sp x → ¬ Memory.Within srcSp 8 x ∧ ¬ frame (s.regs .rsp) x)
    (hsrc : ∀ x, frame (s.regs .rsp) x → ¬ Memory.Within srcSp 8 x) :
    Switched srcSp returnTo c s (swapContext srcSp destSp returnTo s) := by
  have hmap : saved.reverse.map ((s.setReg .rdi srcSp).setReg .rsi destSp).regs =
      saved.reverse.map (Function.update s.regs .rdi srcSp) :=
    List.map_congr_left fun r hr =>
      Function.update_of_ne (ne_of_mem_of_not_mem hr (by decide)) _ _
  rw [swapContext_eq hdest hcell hframe]
  exact
    { regs := fun r hr => by
        have hne : r ≠ .rsp := ne_of_mem_of_not_mem hr (by decide)
        dsimp only
        rw [Function.update_of_ne hne]
        exact assign_map (by decide) (List.mem_reverse.mpr hr)
      sp := by
        dsimp only
        rw [Function.update_self]
      pc := rfl
      left :=
        { sp := Memory.load_store ..
          words := by
            rw [← hmap]
            exact words_pushed.congr (by simp [saved]) fun x hx =>
              Memory.store_of_not_within (hsrc x hx) }
      mem := fun x hcell hframe =>
        (Memory.store_of_not_within hcell).trans (pushed_of_not_frame hframe) }

end Swap

/-! ## A context that has never run -/

/-- It enters the function with its argument, on a stack that only the reserved word is
taken of. -/
def entry (f1 arg ctx : Word) : Continuation where
  regs := Function.update (fun _ => 0) .rdi arg
  sp := ctx + BitVec.ofNat 64 stackSize - 8
  pc := f1

theorem load_zeros (m : Memory) (a : Word) {k n : Nat} (hk : k + 8 ≤ n) (hn : n < 2 ^ 64) :
    (m.write a (List.replicate n 0)).load (a + BitVec.ofNat 64 k) = 0 := by
  have hread : (m.write a (List.replicate n 0)).read (a + BitVec.ofNat 64 k) 8 =
      List.replicate 8 0 := by
    refine List.ext_getElem (by simp [Memory.read]) fun i hi _ => ?_
    have hi : i < 8 := by simpa [Memory.read] using hi
    simp only [Memory.read, List.getElem_map, List.getElem_range, List.getElem_replicate]
    rw [BitVec.add_assoc, ← BitVec.ofNat_add, Memory.write_add (by rw [List.length_replicate]; omega)
      (by rw [List.length_replicate]; omega), List.getElem_replicate]
  rw [Memory.load, hread]
  rfl

variable {f1 arg ctx x : Word} {m : Memory}

theorem makeContext_of_not_within (hcell : ¬ Memory.Within (spCell ctx) 8 x)
    (hframe : ¬ frame (entry f1 arg ctx).sp x) : makeContext f1 arg ctx m x = m x := by
  have hframe : ¬ (x - (ctx + BitVec.ofNat 64 stackSize - 8 - 64)).toNat < 64 := hframe
  rw [makeContext]
  rw [Memory.store_of_not_within fun hx => hframe ?_, Memory.store_of_not_within fun hx => hframe ?_,
    Memory.write_of_not_within fun hx => hframe ?_, Memory.store_of_not_within hcell]
  · rw [Memory.Within, List.length_replicate, registersSize] at hx
    bv_omega
  · rw [Memory.Within] at hx
    bv_omega
  · rw [Memory.Within] at hx
    bv_omega

theorem makeContext_suspended (f1 arg ctx : Word) (m : Memory) :
    Suspended (makeContext f1 arg ctx m) (spCell ctx) (entry f1 arg ctx) := by
  rw [makeContext, spCell, entry]
  generalize ctx + BitVec.ofNat 64 stackSize = top
  have hsp : top - 2 * 8 - BitVec.ofNat 64 registersSize = top - 8 - 64 := by
    show top - 16 - 56 = _
    bv_omega
  have harg : top - 2 * 8 - 8 = top - 8 - 64 + BitVec.ofNat 64 48 := by
    show top - 16 - 8 = top - 8 - 64 + 48
    bv_omega
  have hf1 : top - 2 * 8 = top - 8 - 64 + BitVec.ofNat 64 56 := by
    show top - 16 = top - 8 - 64 + 56
    bv_omega
  rw [hsp, harg, hf1]
  constructor
  · refine (Memory.load_congr fun x hx => ?_).trans (Memory.load_store m top (top - 8 - 64))
    have hx : (x - top).toNat < 8 := hx
    rw [Memory.store_of_not_within fun h => ?_, Memory.store_of_not_within fun h => ?_,
      Memory.write_of_not_within fun h => ?_]
    · rw [Memory.Within, List.length_replicate, registersSize] at h
      bv_omega
    · rw [Memory.Within] at h
      bv_omega
    · rw [Memory.Within] at h
      bv_omega
  · generalize m.store top (top - 8 - 64) = m
    generalize top - 8 - 64 = sp
    have hzero : ∀ k, k + 8 ≤ 48 → (((m.write sp (List.replicate registersSize 0)).store
        (sp + BitVec.ofNat 64 56) f1).store (sp + BitVec.ofNat 64 48) arg).load
          (sp + BitVec.ofNat 64 k) = 0 := by
      intro k hk
      refine (Memory.load_congr fun x hx => ?_).trans
        (load_zeros m sp (k := k) (n := registersSize) (by rw [registersSize]; omega) (by decide))
      have hx : (x - (sp + BitVec.ofNat 64 k)).toNat < 8 := hx
      rw [Memory.store_of_not_within fun h => ?_, Memory.store_of_not_within fun h => ?_]
      · rw [Memory.Within] at h
        bv_omega
      · rw [Memory.Within] at h
        bv_omega
    intro i hi
    have hi : i < 8 := hi
    interval_cases i
    · exact hzero 0 (by decide)
    · exact hzero 8 (by decide)
    · exact hzero 16 (by decide)
    · exact hzero 24 (by decide)
    · exact hzero 32 (by decide)
    · exact hzero 40 (by decide)
    · exact Memory.load_store _ _ arg
    · refine (Memory.load_congr fun x hx => Memory.store_of_not_within fun h => ?_).trans
        (Memory.load_store _ _ f1)
      have hx : (x - (sp + BitVec.ofNat 64 56)).toNat < 8 := hx
      rw [Memory.Within] at h
      bv_omega

end Croutine
end Cmw
