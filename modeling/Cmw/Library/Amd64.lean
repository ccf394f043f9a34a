import Cmw.Library.Memory
import Mathlib.Data.List.Nodup
import Mathlib.Logic.Function.Basic

/-!
# A few instructions of x86-64

What saves and restores registers on a stack: `pushq`, `popq`, `movq` between a register
and the memory, and `ret`.  Code is a list of instructions without jumps; `pc` is where the
processor goes on after it.  Flags and the registers of the floating point unit are left
out.
-/

namespace Library
namespace Amd64

inductive Reg
  | rax | rbx | rcx | rdx | rsi | rdi | rbp | rsp
  | r8 | r9 | r10 | r11 | r12 | r13 | r14 | r15
  deriving DecidableEq

abbrev Regs := Reg → Word

structure State where
  regs : Regs
  pc : Word
  mem : Memory

inductive Instr
  | pushq (src : Reg)
  | popq (dst : Reg)
  /-- `movq %src, (%base)` -/
  | movqTo (src base : Reg)
  /-- `movq (%base), %dst` -/
  | movqFrom (base dst : Reg)
  | ret

def State.setReg (s : State) (r : Reg) (v : Word) : State :=
  { s with regs := Function.update s.regs r v }

def step (s : State) : Instr → State
  | .pushq src =>
      { s with
        regs := Function.update s.regs .rsp (s.regs .rsp - 8)
        mem := s.mem.store (s.regs .rsp - 8) (s.regs src) }
  | .popq dst => (s.setReg .rsp (s.regs .rsp + 8)).setReg dst (s.mem.load (s.regs .rsp))
  | .movqTo src base => { s with mem := s.mem.store (s.regs base) (s.regs src) }
  | .movqFrom base dst => s.setReg dst (s.mem.load (s.regs base))
  | .ret =>
      { s.setReg .rsp (s.regs .rsp + 8) with pc := s.mem.load (s.regs .rsp) }

def exec (code : List Instr) (s : State) : State := code.foldl step s

/-- `call`: the return address is pushed. -/
def call (returnTo : Word) (s : State) : State :=
  { s with
    regs := Function.update s.regs .rsp (s.regs .rsp - 8)
    mem := s.mem.store (s.regs .rsp - 8) returnTo }

theorem exec_append (code code' : List Instr) (s : State) :
    exec (code ++ code') s = exec code' (exec code s) := List.foldl_append ..

theorem exec_cons (i : Instr) (code : List Instr) (s : State) :
    exec (i :: code) s = exec code (step s i) := rfl

/-! ## Saving registers -/

/-- The words `ws`, each below the one before. -/
def pushWords (m : Memory) (sp : Word) : List Word → Memory
  | [] => m
  | w :: ws => pushWords (m.store (sp - 8) w) (sp - 8) ws

section Push

variable {m : Memory} {sp x : Word} {ws rest : List Word}

theorem sub_words (sp : Word) (n : Nat) :
    sp - 8 - BitVec.ofNat 64 (8 * n) = sp - BitVec.ofNat 64 (8 * (n + 1)) := by
  have h : BitVec.ofNat 64 (8 * (n + 1)) = BitVec.ofNat 64 (8 * n) + 8 := by
    rw [Nat.mul_add, BitVec.ofNat_add]
    rfl
  rw [h]
  bv_omega

theorem words_pushWords (h : Memory.Words m sp rest) (hn : 8 * (ws.length + rest.length) ≤ 2 ^ 64) :
    Memory.Words (pushWords m sp ws) (sp - BitVec.ofNat 64 (8 * ws.length)) (ws.reverse ++ rest) := by
  induction ws generalizing m sp rest with
  | nil =>
      rw [List.length_nil, Nat.mul_zero]
      exact (BitVec.sub_zero sp).symm ▸ h
  | cons w ws ih =>
      rw [List.length_cons] at hn
      have hnext := ih (h.store (by omega) w) (by rw [List.length_cons]; omega)
      rw [sub_words] at hnext
      rw [List.length_cons, List.reverse_cons, List.append_assoc]
      exact hnext

theorem pushWords_of_not_within (hn : 8 * ws.length ≤ 2 ^ 64)
    (h : ¬ Memory.Within (sp - BitVec.ofNat 64 (8 * ws.length)) (8 * ws.length) x) :
    pushWords m sp ws x = m x := by
  induction ws generalizing m sp with
  | nil => rfl
  | cons w ws ih =>
      rw [List.length_cons] at hn h
      rw [← sub_words] at h
      have hn' : 8 * ws.length ≤ 2 ^ 64 := by omega
      have hlow : (BitVec.ofNat 64 (8 * ws.length)).toNat = 8 * ws.length := by
        rw [BitVec.toNat_ofNat]
        exact Nat.mod_eq_of_lt (by omega)
      have h : ¬ (x - (sp - 8 - BitVec.ofNat 64 (8 * ws.length))).toNat < 8 * (ws.length + 1) := h
      rw [pushWords, ih hn' (fun hx => ?_), Memory.store_of_not_within fun hx => ?_]
      · have hx : (x - (sp - 8)).toNat < 8 := hx
        bv_omega
      · have hx : (x - (sp - 8 - BitVec.ofNat 64 (8 * ws.length))).toNat < 8 * ws.length := hx
        omega

theorem exec_pushq {rs : List Reg} (hrsp : .rsp ∉ rs) (s : State) :
    exec (rs.map .pushq) s =
      { s with
        regs := Function.update s.regs .rsp (s.regs .rsp - BitVec.ofNat 64 (8 * rs.length))
        mem := pushWords s.mem (s.regs .rsp) (rs.map s.regs) } := by
  induction rs generalizing s with
  | nil =>
      have hsp : s.regs .rsp - BitVec.ofNat 64 (8 * 0) = s.regs .rsp := BitVec.sub_zero _
      rw [List.length_nil, hsp, Function.update_eq_self]
      rfl
  | cons r rs ih =>
      obtain ⟨hr, hrest⟩ := List.ne_and_not_mem_of_not_mem_cons hrsp
      have hregs : rs.map (Function.update s.regs Reg.rsp (s.regs .rsp - 8)) = rs.map s.regs :=
        List.map_congr_left fun r' hr' =>
          Function.update_of_ne (ne_of_mem_of_not_mem hr' hrest) _ _
      rw [List.map_cons, exec_cons, ih hrest]
      simp only [step, Function.update_self, Function.update_idem, hregs, sub_words,
        List.length_cons, List.map_cons, pushWords]

end Push

/-! ## Restoring them -/

/-- The registers, given these values one after another. -/
def assign (regs : Regs) : List Reg → List Word → Regs
  | [], _ => regs
  | _, [] => regs
  | r :: rs, v :: vs => assign (Function.update regs r v) rs vs

theorem assign_of_not_mem {regs : Regs} {rs : List Reg} {r : Reg} (h : r ∉ rs) (vs : List Word) :
    assign regs rs vs r = regs r := by
  induction rs generalizing regs vs with
  | nil => rfl
  | cons r' rs ih =>
      obtain ⟨hne, hrest⟩ := List.ne_and_not_mem_of_not_mem_cons h
      cases vs with
      | nil => rfl
      | cons v vs => exact (ih hrest vs).trans (Function.update_of_ne hne v regs)

theorem assign_update {regs : Regs} {rs : List Reg} {r : Reg} (h : r ∉ rs) (v : Word)
    (vs : List Word) :
    assign (Function.update regs r v) rs vs = Function.update (assign regs rs vs) r v := by
  induction rs generalizing regs vs with
  | nil => rfl
  | cons r' rs ih =>
      obtain ⟨hne, hrest⟩ := List.ne_and_not_mem_of_not_mem_cons h
      cases vs with
      | nil => rfl
      | cons v' vs => rw [assign, Function.update_comm hne, ih hrest vs, assign]

/-- The registers get back what they held. -/
theorem assign_map {regs regs' : Regs} {rs : List Reg} (hrs : rs.Nodup) {r : Reg} (hr : r ∈ rs) :
    assign regs rs (rs.map regs') r = regs' r := by
  induction rs generalizing regs with
  | nil => exact absurd hr List.not_mem_nil
  | cons r' rs ih =>
      obtain ⟨hnotin, hrest⟩ := List.nodup_cons.mp hrs
      rw [List.map_cons, assign]
      rcases List.mem_cons.mp hr with rfl | hr
      · rw [assign_of_not_mem hnotin, Function.update_self]
      · exact ih hrest hr

theorem exec_popq {rs : List Reg} (hrsp : .rsp ∉ rs) {vs rest : List Word}
    (hlen : vs.length = rs.length) {s : State} (h : Memory.Words s.mem (s.regs .rsp) (vs ++ rest)) :
    exec (rs.map .popq) s =
        { s with
          regs := Function.update (assign s.regs rs vs) .rsp
            (s.regs .rsp + BitVec.ofNat 64 (8 * rs.length)) } ∧
      Memory.Words s.mem (s.regs .rsp + BitVec.ofNat 64 (8 * rs.length)) rest := by
  induction rs generalizing s vs with
  | nil =>
      obtain rfl := List.eq_nil_of_length_eq_zero hlen
      have hsp : s.regs .rsp + BitVec.ofNat 64 (8 * 0) = s.regs .rsp := BitVec.add_zero _
      rw [List.length_nil, hsp, assign, Function.update_eq_self]
      exact ⟨rfl, h⟩
  | cons r rs ih =>
      obtain ⟨hr, hrest⟩ := List.ne_and_not_mem_of_not_mem_cons hrsp
      cases vs with
      | nil => cases hlen
      | cons v vs =>
          rw [List.cons_append, Memory.words_cons] at h
          obtain ⟨hv, hwords⟩ := h
          have hsp : (step s (.popq r)).regs .rsp = s.regs .rsp + 8 := by
            show Function.update (Function.update s.regs .rsp (s.regs .rsp + 8)) r _ .rsp = _
            rw [Function.update_of_ne hr, Function.update_self]
          have hadd : s.regs .rsp + 8 + BitVec.ofNat 64 (8 * rs.length) =
              s.regs .rsp + BitVec.ofNat 64 (8 * (rs.length + 1)) := by
            rw [BitVec.add_assoc, Nat.mul_add, Nat.add_comm, BitVec.ofNat_add]
            rfl
          obtain ⟨hexec, hafter⟩ := ih hrest (Nat.succ.inj hlen) (s := step s (.popq r))
            (hsp.symm ▸ hwords)
          rw [hsp, hadd] at hexec hafter
          refine ⟨?_, hafter⟩
          rw [List.map_cons, exec_cons, hexec, List.length_cons, assign]
          have hregs : (step s (.popq r)).regs =
              Function.update (Function.update s.regs r v) .rsp (s.regs .rsp + 8) := by
            rw [Function.update_comm (Ne.symm hr), ← hv]
            rfl
          rw [hregs, assign_update hrest, Function.update_idem]
          rfl

end Amd64
end Library
