import NerdRtos.Model.ContextRv32
import Mathlib.Tactic.Common

/-!
# What the port for RISC-V saves and restores

The frame of a thread as a list of words: the code that switches a thread out stores them, and the
code that resumes it loads them.
-/

set_option autoImplicit false

namespace NerdRtos

open RegisterFrames (Layout)

namespace Rv32

variable {y : Symbols} {h : Hart} {c : Cpu} {m m' : Word → Word}

/-! ## Blocks -/

/-- The first instruction, and then the others. -/
theorem run_cons (i : Hart → Hart) (code : List (Hart → Hart)) (h : Hart) :
    run (i :: code) h = run code (i h) := rfl

/-- No instruction does nothing. -/
theorem run_nil (h : Hart) : run [] h = h := rfl

/-- Two pieces of code, one after the other. -/
theorem run_append (code code' : List (Hart → Hart)) (h : Hart) :
    run (code ++ code') h = run code' (run code h) :=
  List.foldl_append

/-- The stores of a frame. -/
theorem run_saveRegs (l : Layout Reg Word) (h : Hart) :
    run (saveRegs l) h = { h with mem := l.store (h.cpu.reg .sp) h.cpu.reg h.mem } := by
  unfold saveRegs Layout.store
  generalize l.slots = s
  induction s generalizing h with
  | nil => rfl
  | cons p s ih =>
    rw [List.map_cons, run_cons, ih]
    rfl

/-- The loads of a frame, which leave `sp` alone. -/
theorem run_loadRegs (l : Layout Reg Word) (hsp : Reg.sp ∉ l.regs) (h : Hart) :
    run (loadRegs l) h =
      { h with cpu := { h.cpu with reg := l.load (h.cpu.reg .sp) h.mem h.cpu.reg } } := by
  unfold loadRegs Layout.load
  unfold Layout.regs at hsp
  generalize l.slots = s at hsp
  induction s generalizing h with
  | nil => rfl
  | cons p s ih =>
    rw [List.map_cons, List.mem_cons, not_or] at hsp
    rw [List.map_cons, run_cons, ih _ hsp.2]
    simp only [lw, li, Cpu.setReg, Function.update_of_ne hsp.1, List.foldl_cons]

/-! ## `mstatus` -/

/-- A field of one bit is clear. -/
theorem and_twoPow_eq_zero (x : Word) {i : ℕ} (hi : i < 32) :
    x &&& BitVec.twoPow 32 i = 0 ↔ x.getLsbD i = false := by
  rw [BitVec.and_twoPow]
  constructor
  · intro h
    by_contra hx
    rw [if_pos (by simpa using hx)] at h
    have hbit := congrArg (fun z : Word => z.getLsbD i) h
    simp [hi] at hbit
  · intro h
    rw [if_neg (by simp [h])]
    rfl

/-- The bits of `mstatus` after a trap in machine mode. -/
theorem trapStatus_bit (x : Word) {i : ℕ} (hi : i < 32) : (trapStatus machineMode x).getLsbD i =
    if i = 3 then false else if i = 7 then x.getLsbD 3 else if i = 11 ∨ i = 12 then true
    else x.getLsbD i := by
  have hmie : mstatusMie = BitVec.twoPow 32 3 := by decide
  have hmpie : mstatusMpie = BitVec.twoPow 32 7 := by decide
  have hmpp : mstatusMpp = BitVec.twoPow 32 11 ||| BitVec.twoPow 32 12 := by decide
  have hmode : machineMode.setWidth 32 <<< 11 = mstatusMpp := by decide
  unfold trapStatus
  rw [hmode, hmie, hmpie, hmpp]
  simp only [and_twoPow_eq_zero x (i := 3) (by omega)]
  cases hx : x.getLsbD 3 with
  | false =>
    rw [if_pos rfl]
    simp only [BitVec.getLsbD_or, BitVec.getLsbD_and, BitVec.getLsbD_not, BitVec.getLsbD_twoPow]
    grind
  | true =>
    have hne : ¬true = false := by decide
    rw [if_neg hne]
    simp only [BitVec.getLsbD_or, BitVec.getLsbD_and, BitVec.getLsbD_not, BitVec.getLsbD_twoPow]
    grind

/-- A trap notes machine mode. -/
theorem mppOf_trapStatus (x : Word) : mppOf (trapStatus machineMode x) = machineMode := by
  apply BitVec.eq_of_getLsbD_eq
  intro i hi
  unfold mppOf
  rw [BitVec.getLsbD_extractLsb', trapStatus_bit x (by omega)]
  obtain rfl | rfl : i = 0 ∨ i = 1 := by omega
  · rfl
  · rfl

/-- After a trap and its `mret` the interrupts are on or off as before. -/
theorem mretStatus_trapStatus (x : Word) :
    mretStatus (trapStatus machineMode x) = (x &&& ~~~mstatusMpp) ||| mstatusMpie := by
  have hmie : mstatusMie = BitVec.twoPow 32 3 := by decide
  have hmpie : mstatusMpie = BitVec.twoPow 32 7 := by decide
  have hmpp : mstatusMpp = BitVec.twoPow 32 11 ||| BitVec.twoPow 32 12 := by decide
  unfold mretStatus
  simp only [mppOf_trapStatus, if_true]
  rw [hmie, hmpie, hmpp]
  simp only [and_twoPow_eq_zero _ (i := 7) (by omega)]
  have hmpie' := trapStatus_bit x (i := 7) (by omega)
  rw [if_neg (by omega), if_pos rfl] at hmpie'
  rw [hmpie']
  apply BitVec.eq_of_getLsbD_eq
  intro i hi
  have hbit := trapStatus_bit x hi
  cases hx : x.getLsbD 3 with
  | false =>
    rw [if_pos rfl]
    simp only [BitVec.getLsbD_or, BitVec.getLsbD_and, BitVec.getLsbD_not, BitVec.getLsbD_twoPow,
      hbit]
    grind
  | true =>
    have hne : ¬true = false := by decide
    rw [if_neg hne]
    simp only [BitVec.getLsbD_or, BitVec.getLsbD_and, BitVec.getLsbD_not, BitVec.getLsbD_twoPow,
      hbit, hi, decide_true, Bool.true_and]
    by_cases h3 : i = 3
    · subst h3
      rw [hx]
      rfl
    · grind

/-! ## Frames -/

/-- How a thread is switched out. -/
inductive Way
  | voluntary | trap
  deriving DecidableEq, Repr

/-- What a word of a frame is for. -/
inductive Slot
  | frameType
  | csr (r : Csr)
  | reg (r : Reg)
  deriving DecidableEq, Repr

/-- The words before the registers, in the order of the stores. -/
def Way.head : Way → List (Slot × Word)
  | .voluntary => [(.frameType, 0), (.csr .mstatus, 4)]
  | .trap => [(.reg .t0, 24), (.frameType, 0), (.csr .mstatus, 4), (.csr .mepc, 8),
      (.csr .meicontext, 132)]

/-- The registers after these. -/
def Way.regs : Way → Layout Reg Word
  | .voluntary => voluntaryFrame
  | .trap => irqFrame

/-- All words of a frame. -/
def Way.layout (k : Way) : Layout Slot Word where
  slots := k.head ++ k.regs.slots.map fun p => (.reg p.1, p.2)
  regs_nodup := by cases k <;> decide
  offsets_nodup := by cases k <;> decide

def Way.frameType : Way → Word
  | .voluntary => frameTypeVoluntary
  | .trap => frameTypePreempt

/-- The context with which the code of the port begins. -/
def Way.entered : Way → Cpu → Cpu
  | .voluntary, c => c
  | .trap, c => (Rv32.trap ⟨c, fun _ => 0⟩).cpu

/-- Where the frame of a thread is that is switched out in context `c`. -/
def Way.base : Way → Cpu → Word
  | .voluntary, c => c.reg .sp + -64
  | .trap, c => c.reg .sp + -160

/-- What a word of the frame holds. -/
def Way.value (k : Way) (c : Cpu) : Slot → Word
  | .frameType => k.frameType
  | .csr r => (k.entered c).csr r
  | .reg r => c.reg r

/-- The memory with the frame. -/
def Way.words (k : Way) (c : Cpu) (m : Word → Word) : Word → Word :=
  k.layout.store (k.base c) (k.value c) m

/-- The addresses of the frame. -/
def Way.frame (k : Way) (c : Cpu) : Set Word :=
  {a | ∃ o ∈ k.layout.offsets, a = k.base c + o}

instance : IsLeftCancelAdd Word where
  add_left_cancel a _ _ h := (BitVec.add_right_inj a).mp h

variable {k : Way}

/-- Beside its frame a context is not in the memory. -/
theorem words_other {a : Word} (ha : a ∉ k.frame c) : k.words c m a = m a := by
  apply k.layout.store_other
  intro o ho he
  exact ha ⟨o, ho, he⟩

/-- Each slot of a frame holds its value. -/
theorem words_at {s : Slot} {o : Word} (hs : (s, o) ∈ k.layout.slots) :
    k.words c m (k.base c + o) = k.value c s :=
  k.layout.store_at (k.base c) (k.value c) m hs

/-- The address of each slot is in the frame. -/
theorem mem_frame {s : Slot} {o : Word} (hs : (s, o) ∈ k.layout.slots) :
    k.base c + o ∈ k.frame c :=
  ⟨o, List.mem_map_of_mem hs, rfl⟩

/-- The registers of a frame have slots in it. -/
theorem reg_slot {r : Reg} {o : Word} (hr : (r, o) ∈ k.regs.slots) :
    (Slot.reg r, o) ∈ k.layout.slots :=
  List.mem_append_right _ (List.mem_map_of_mem (f := fun p : Reg × Word => (Slot.reg p.1, p.2)) hr)

/-- A frame is within the 160 bytes below the stack pointer. -/
theorem frame_range {a : Word} (hsp : 160 ≤ (c.reg .sp).toNat) (ha : a ∈ k.frame c) :
    (c.reg .sp).toNat ≤ a.toNat + 160 ∧ a.toNat < (c.reg .sp).toNat := by
  obtain ⟨o, ho, rfl⟩ := ha
  cases k with
  | voluntary =>
    have hall : (Way.voluntary.layout.offsets.all fun o => decide (o.toNat < 64)) = true := by
      decide
    have hoff := of_decide_eq_true (List.all_eq_true.mp hall o ho)
    show _ ≤ (c.reg .sp + -64 + o).toNat + 160 ∧ (c.reg .sp + -64 + o).toNat < _
    generalize c.reg .sp = p at hsp
    bv_omega
  | trap =>
    have hall : (Way.trap.layout.offsets.all fun o => decide (o.toNat < 160)) = true := by decide
    have hoff := of_decide_eq_true (List.all_eq_true.mp hall o ho)
    show _ ≤ (c.reg .sp + -160 + o).toNat + 160 ∧ (c.reg .sp + -160 + o).toNat < _
    generalize c.reg .sp = p at hsp
    bv_omega

/-- The words of a frame are those before the registers, and the registers. -/
theorem words_eq {reg : Reg → Word} (hreg : ∀ r ∈ k.regs.regs, reg r = c.reg r) :
    k.words c m = k.regs.store (k.base c) reg
      (k.head.foldl (fun m p => Function.update m (k.base c + p.2) (k.value c p.1)) m) := by
  unfold Way.words Layout.store Way.layout
  unfold Layout.regs at hreg
  rw [List.foldl_append]
  generalize k.regs.slots = s at hreg
  generalize k.head.foldl _ m = m₀
  induction s generalizing m₀ with
  | nil => rfl
  | cons p s ih =>
    rw [List.map_cons, List.foldl_cons, List.foldl_cons, hreg p.1 (by simp)]
    exact ih (fun r hr => hreg r (List.mem_cons_of_mem _ hr)) _

/-! ## What is saved -/

/-- The first instructions of `nd_hw_do_switch`, whatever the size of the frame. -/
theorem voluntary_head (size o o' ft : Word) (c : Cpu) (m : Word → Word) :
    let h := run [addi .sp .sp size, li .t0 ft, sw .t0 o .sp, csrr .t0 .mstatus, sw .t0 o' .sp]
      ⟨c, m⟩
    h.mem = Function.update (Function.update m (c.reg .sp + size + o) ft) (c.reg .sp + size + o')
        (c.csr .mstatus) ∧
      h.cpu.reg .sp = c.reg .sp + size ∧ ∀ r, r ≠ .sp → r ≠ .t0 → h.cpu.reg r = c.reg r := by
  refine ⟨?_, ?_, fun r hsp ht => ?_⟩
  · simp [run_cons, run_nil, addi, li, sw, csrr, Cpu.setReg]
  · simp [run_cons, run_nil, addi, li, sw, csrr, Cpu.setReg]
  · simp [run_cons, run_nil, addi, li, sw, csrr, Cpu.setReg, hsp, ht]

/-- The last instructions before the call. -/
theorem voluntary_tail (h : Hart) :
    (run [la .t0 y.ndCurrentThread, lw .t1 0 .t0, sw .sp 0 .t1, la .t0 y.ndNextThread,
      lw .a0 0 .t0] h).mem =
      Function.update h.mem (h.mem (y.ndCurrentThread + 0) + 0) (h.cpu.reg .sp) := by
  simp only [run_cons, run_nil, la, lw, li, sw, Cpu.setReg, Function.update_self, ne_eq,
    reduceCtorEq, not_false_eq_true, Function.update_of_ne]

section Equations

/-- A voluntary frame is 64 bytes below the stack pointer. -/
@[simp] theorem base_voluntary (c : Cpu) : Way.voluntary.base c = c.reg .sp + -64 := rfl

/-- A trap frame is 160 bytes below the stack pointer. -/
@[simp] theorem base_trap (c : Cpu) : Way.trap.base c = c.reg .sp + -160 := rfl

variable (f : (Word → Word) → Slot × Word → Word → Word)

/-- The slots of a voluntary frame that hold no register. -/
theorem head_voluntary : Way.voluntary.head.foldl f m =
    f (f m (.frameType, 0)) (.csr .mstatus, 4) := rfl

/-- The slots of a trap frame that are stored one by one. -/
theorem head_trap : Way.trap.head.foldl f m =
    f (f (f (f (f m (.reg .t0, 24)) (.frameType, 0)) (.csr .mstatus, 4)) (.csr .mepc, 8))
      (.csr .meicontext, 132) := rfl

/-- The value of the slot for the frame type. -/
theorem value_frameType : k.value c .frameType = k.frameType := rfl

/-- The value of a register slot. -/
theorem value_reg (r : Reg) : k.value c (.reg r) = c.reg r := rfl

/-- The value of a slot for a control and status register: as the trap has left it. -/
theorem value_csr (r : Csr) : k.value c (.csr r) = (k.entered c).csr r := rfl

/-- A thread that calls saves the registers that it has. -/
theorem entered_voluntary : Way.voluntary.entered c = c := rfl

/-- A thread that is interrupted saves the registers that the trap has left. -/
theorem entered_trap (m : Word → Word) : Way.trap.entered c = (trap ⟨c, m⟩).cpu := rfl

end Equations

/-- `nd_hw_do_switch` stores the frame, and where it is in the thread. -/
theorem ndHwDoSwitch_mem (c : Cpu) (m : Word → Word) :
    (ndHwDoSwitch y ⟨c, m⟩).mem =
      Function.update (Way.voluntary.words c m)
        (Way.voluntary.words c m (y.ndCurrentThread + 0) + 0) (Way.voluntary.base c) := by
  have hsp : Reg.sp ∉ Way.voluntary.regs.regs := by decide
  have ht : Reg.t0 ∉ Way.voluntary.regs.regs := by decide
  obtain ⟨hmem, hbase, hreg⟩ := voluntary_head (-64) 0 4 frameTypeVoluntary c m
  have hwords := words_eq (m := m) fun r hr =>
    hreg r (fun he => hsp (he ▸ hr)) (fun he => ht (he ▸ hr))
  rw [head_voluntary, base_voluntary, value_frameType, value_csr, entered_voluntary] at hwords
  rw [ndHwDoSwitch, run_append, run_append, run_saveRegs, voluntary_tail, hmem, hbase,
    base_voluntary]
  have hregs : Way.voluntary.regs = voluntaryFrame := rfl
  have htype : Way.voluntary.frameType = frameTypeVoluntary := rfl
  rw [hregs, htype] at hwords
  rw [hwords]

/-- The first instructions of `riscv_trap_entry`, whatever the size of the frame. -/
theorem trap_head (size o₀ o₁ o₂ o₃ o₄ ft : Word) (h : Hart) :
    let h' := run [addi .sp .sp size, sw .t0 o₀ .sp, li .t0 ft, sw .t0 o₁ .sp, csrr .t0 .mstatus,
      sw .t0 o₂ .sp, csrr .t0 .mepc, sw .t0 o₃ .sp, csrr .t0 .meicontext, sw .t0 o₄ .sp] h
    let p := h.cpu.reg .sp + size
    h'.mem = Function.update (Function.update (Function.update (Function.update (Function.update
      h.mem (p + o₀) (h.cpu.reg .t0)) (p + o₁) ft) (p + o₂) (h.cpu.csr .mstatus))
      (p + o₃) (h.cpu.csr .mepc)) (p + o₄) (h.cpu.csr .meicontext) ∧
      h'.cpu.reg .sp = p ∧ ∀ r, r ≠ .sp → r ≠ .t0 → h'.cpu.reg r = h.cpu.reg r := by
  refine ⟨?_, ?_, fun r hsp ht => ?_⟩
  · simp [run_cons, run_nil, addi, li, sw, csrr, Cpu.setReg]
  · simp [run_cons, run_nil, addi, li, sw, csrr, Cpu.setReg]
  · simp [run_cons, run_nil, addi, li, sw, csrr, Cpu.setReg, hsp, ht]

/-- The last instructions before the call. -/
theorem trap_tail (h : Hart) (hcur : h.mem (y.ndCurrentThread + 0) ≠ 0) :
    (mv .a0 .sp (if (run [la .t0 y.ndCurrentThread, lw .t1 0 .t0] h).cpu.reg .t1 = 0 then
        run [la .t0 y.ndCurrentThread, lw .t1 0 .t0] h
      else sw .sp 0 .t1 (run [la .t0 y.ndCurrentThread, lw .t1 0 .t0] h))).mem =
      Function.update h.mem (h.mem (y.ndCurrentThread + 0) + 0) (h.cpu.reg .sp) := by
  have ht : (run [la .t0 y.ndCurrentThread, lw .t1 0 .t0] h).cpu.reg .t1 =
      h.mem (y.ndCurrentThread + 0) := by
    simp only [run_cons, run_nil, la, lw, li, Cpu.setReg, Function.update_self]
  rw [ht, if_neg hcur]
  simp only [run_cons, run_nil, la, lw, li, sw, mv, Cpu.setReg, Function.update_self, ne_eq,
    reduceCtorEq, not_false_eq_true, Function.update_of_ne]

/-- `riscv_trap_entry` stores the frame, and where it is in the thread. -/
theorem riscvTrapEntry_mem (c : Cpu) (m : Word → Word)
    (hcur : Way.trap.words c m (y.ndCurrentThread + 0) ≠ 0) :
    (riscvTrapEntry y (trap ⟨c, m⟩)).mem =
      Function.update (Way.trap.words c m)
        (Way.trap.words c m (y.ndCurrentThread + 0) + 0) (Way.trap.base c) := by
  have hsp : Reg.sp ∉ Way.trap.regs.regs := by decide
  have ht : Reg.t0 ∉ Way.trap.regs.regs := by decide
  obtain ⟨hmem, hbase, hreg⟩ := trap_head (-160) 24 0 4 8 132 frameTypePreempt (trap ⟨c, m⟩)
  have htrap : ∀ r, (trap ⟨c, m⟩).cpu.reg r = c.reg r := fun _ => rfl
  have hmem₀ : (trap ⟨c, m⟩).mem = m := rfl
  have hwords := words_eq (m := m) fun r hr =>
    (hreg r (fun he => hsp (he ▸ hr)) (fun he => ht (he ▸ hr))).trans (htrap r)
  have hregs : Way.trap.regs = irqFrame := rfl
  have htype : Way.trap.frameType = frameTypePreempt := rfl
  rw [head_trap, base_trap, value_frameType, value_reg, value_csr, value_csr, value_csr,
    entered_trap m, hregs, htype] at hwords
  rw [htrap, htrap, hmem₀] at hmem
  rw [htrap] at hbase
  unfold riscvTrapEntry
  rw [run_append, run_append]
  generalize run [addi .sp .sp (-160), sw .t0 24 .sp, li .t0 frameTypePreempt, sw .t0 0 .sp,
    csrr .t0 .mstatus, sw .t0 4 .sp, csrr .t0 .mepc, sw .t0 8 .sp, csrr .t0 .meicontext,
    sw .t0 132 .sp] (trap ⟨c, m⟩) = h at hmem hbase hwords ⊢
  have hstored : (run (saveRegs irqFrame) h).mem = Way.trap.words c m := by
    rw [run_saveRegs, hmem, hbase, hwords]
  have hsame : (run (saveRegs irqFrame) h).cpu.reg .sp = Way.trap.base c := by
    rw [run_saveRegs, base_trap]
    exact hbase
  rw [← hstored] at hcur
  have htail := trap_tail _ hcur
  rw [hstored, hsame] at htail
  exact htail

/-! ## What is restored -/

/-- The two instructions that look at the type of a frame. -/
theorem dispatch_head (o ft : Word) (h : Hart) :
    let h' := run [lw .t0 o .sp, li .t1 ft] h
    h'.mem = h.mem ∧ h'.cpu.reg .sp = h.cpu.reg .sp ∧ h'.cpu.mode = h.cpu.mode ∧
      h'.cpu.reg .t0 = h.mem (h.cpu.reg .sp + o) ∧ h'.cpu.reg .t1 = ft := by
  simp [run_cons, run_nil, lw, li, Cpu.setReg]

/-- `restore_irq` first takes the frame off the thread. -/
theorem irq_thread (size : Word) (h : Hart) :
    let h₁ := run [la .t0 y.ndCurrentThread, lw .t1 0 .t0] h
    let h₂ := if h₁.cpu.reg .t1 = 0 then h₁ else run [addi .t2 .sp size, sw .t2 0 .t1] h₁
    (h₂.mem = if h.mem (y.ndCurrentThread + 0) = 0 then h.mem else
      Function.update h.mem (h.mem (y.ndCurrentThread + 0) + 0) (h.cpu.reg .sp + size)) ∧
      h₂.cpu.reg .sp = h.cpu.reg .sp := by
  intro h₁
  have ht : h₁.cpu.reg .t1 = h.mem (y.ndCurrentThread + 0) := by
    simp only [h₁, run_cons, run_nil, la, lw, li, Cpu.setReg, Function.update_self]
  rw [ht]
  by_cases hcur : h.mem (y.ndCurrentThread + 0) = 0
  · rw [if_pos hcur, if_pos hcur]
    exact ⟨rfl, rfl⟩
  · rw [if_neg hcur, if_neg hcur]
    simp only [h₁, run_cons, run_nil, la, lw, li, addi, sw, Cpu.setReg, Function.update_self, ne_eq,
      reduceCtorEq, not_false_eq_true, Function.update_of_ne, and_self]

/-- The instructions of `restore_irq` that load the control and status registers. -/
theorem irq_csrs (o₁ o₂ o₃ : Word) (h : Hart) :
    let h' := run [lw .t0 o₁ .sp, csrw .mepc .t0, lw .t0 o₂ .sp, csrw .mstatus .t0, lw .t0 o₃ .sp,
      csrw .meicontext .t0] h
    h'.mem = h.mem ∧ h'.cpu.reg .sp = h.cpu.reg .sp ∧
      h'.cpu.csr .mepc = h.mem (h.cpu.reg .sp + o₁) ∧
      h'.cpu.csr .mstatus = h.mem (h.cpu.reg .sp + o₂) ∧
      h'.cpu.csr .meicontext = h.mem (h.cpu.reg .sp + o₃) := by
  simp [run_cons, run_nil, lw, li, csrw, Cpu.setReg, Cpu.setCsr]

/-- The last instructions of `restore_irq`: the stack pointer, `t0` and `mret`. -/
theorem irq_back (o size : Word) (h : Hart) :
    let h' := run [lw .t0 o .sp, addi .sp .sp size, mret] h
    h'.mem = h.mem ∧ h'.cpu.reg .sp = h.cpu.reg .sp + size ∧
      h'.cpu.reg .t0 = h.mem (h.cpu.reg .sp + o) ∧
      (∀ r, r ≠ .sp → r ≠ .t0 → h'.cpu.reg r = h.cpu.reg r) ∧
      h'.cpu.pc = h.cpu.csr .mepc ∧ h'.cpu.csr .mstatus = mretStatus (h.cpu.csr .mstatus) ∧
      h'.cpu.csr .meicontext = h.cpu.csr .meicontext ∧
      h'.cpu.mode = mppOf (h.cpu.csr .mstatus) := by
  refine ⟨?_, ?_, ?_, fun r hsp ht => ?_, ?_, ?_, ?_, ?_⟩
  all_goals simp [run_cons, run_nil, lw, li, addi, mret, Cpu.setReg, Cpu.setCsr, *]

/-- Loading the registers of a frame reads each from its slot and touches nothing else. -/
theorem loads (l : Layout Reg Word) (hsp : Reg.sp ∉ l.regs) (h : Hart) :
    let h' := run (loadRegs l) h
    h'.mem = h.mem ∧ h'.cpu.csr = h.cpu.csr ∧ h'.cpu.reg .sp = h.cpu.reg .sp ∧
      ∀ r o, (r, o) ∈ l.slots → h'.cpu.reg r = h.mem (h.cpu.reg .sp + o) := by
  intro h'
  have hload : h' = _ := run_loadRegs l hsp h
  rw [hload]
  exact ⟨rfl, rfl, l.load_other _ _ _ hsp, fun r o hr => l.load_at _ _ _ hr⟩

/-- The memory when `restore_irq` has taken the frame off the thread. -/
def takenOff (y : Symbols) (p : Word) (m : Word → Word) : Word → Word :=
  if m (y.ndCurrentThread + 0) = 0 then m
  else Function.update m (m (y.ndCurrentThread + 0) + 0) (p + 160)

/-- The part of `restore_irq` before its label writes the stack pointer of the thread, if there is
one. -/
theorem restoreIrqThread_spec (y : Symbols) (h : Hart) :
    (restoreIrqThread y h).mem = takenOff y (h.cpu.reg .sp) h.mem ∧
      (restoreIrqThread y h).cpu.reg .sp = h.cpu.reg .sp :=
  irq_thread 160 h

/-- `restore_irq` loads the context from the memory. -/
theorem restoreIrq_spec {p : Word} {h h' : Hart} (hp : h.cpu.reg .sp = p)
    (hm : takenOff y p h.mem = m) (hh : restoreIrq y h = h') :
    h'.mem = m ∧ h'.cpu.reg .sp = p + 160 ∧ h'.cpu.reg .t0 = m (p + 24) ∧
      (∀ r o, (r, o) ∈ irqFrame.slots → h'.cpu.reg r = m (p + o)) ∧
      h'.cpu.pc = m (p + 8) ∧ h'.cpu.csr .mstatus = mretStatus (m (p + 4)) ∧
      h'.cpu.csr .meicontext = m (p + 132) ∧ h'.cpu.mode = mppOf (m (p + 4)) := by
  have hnsp : Reg.sp ∉ irqFrame.regs := by decide
  have hnt : Reg.t0 ∉ irqFrame.regs := by decide
  obtain ⟨hmem₁, hsp₁⟩ := restoreIrqThread_spec y h
  rw [hp] at hmem₁ hsp₁
  unfold restoreIrq at hh
  generalize restoreIrqThread y h = h₁ at hmem₁ hsp₁ hh
  replace hmem₁ : h₁.mem = m := hmem₁.trans hm
  rw [run_append, run_append] at hh
  obtain ⟨hmem₂, hsp₂, hmepc, hmstatus, hmeicontext⟩ := irq_csrs 8 4 132 h₁
  generalize run [lw .t0 8 .sp, csrw .mepc .t0, lw .t0 4 .sp, csrw .mstatus .t0, lw .t0 132 .sp,
    csrw .meicontext .t0] h₁ = h₂ at hmem₂ hsp₂ hmepc hmstatus hmeicontext hh
  obtain ⟨hmem₃, hcsr, hsp₃, hregs⟩ := loads irqFrame hnsp h₂
  generalize run (loadRegs irqFrame) h₂ = h₃ at hmem₃ hcsr hsp₃ hregs hh
  obtain ⟨hmem₄, hsp₄, ht, hother, hpc, hmstatus', hmeicontext', hmode⟩ := irq_back 24 160 h₃
  rw [hh] at hmem₄ hsp₄ ht hother hpc hmstatus' hmeicontext' hmode
  rw [hsp₁, hmem₁] at hmepc hmstatus hmeicontext
  rw [hsp₂, hsp₁, hmem₂, hmem₁] at hregs
  rw [hsp₃, hsp₂, hsp₁] at hsp₄ ht
  rw [hmem₃, hmem₂, hmem₁] at hmem₄ ht
  rw [hcsr] at hpc hmstatus' hmeicontext' hmode
  refine ⟨hmem₄, hsp₄, ht, fun r o hr => ?_, hpc.trans hmepc,
    hmstatus'.trans (congrArg mretStatus hmstatus), hmeicontext'.trans hmeicontext,
    hmode.trans (congrArg mppOf hmstatus)⟩
  have hr' : r ∈ irqFrame.regs := List.mem_map_of_mem hr
  exact (hother r (fun he => hnsp (he ▸ hr')) (fun he => hnt (he ▸ hr'))).trans (hregs r o hr)

/-- The context `d` goes on where a trap left `c`. -/
structure Continues (c d : Cpu) : Prop where
  reg : d.reg = c.reg
  pc : d.pc = c.pc
  mode : d.mode = c.mode
  mstatus : d.csr .mstatus = (c.csr .mstatus &&& ~~~mstatusMpp) ||| mstatusMpie
  meicontext : d.csr .meicontext = c.csr .meicontext

/-- A context that was saved by a trap comes back. -/
theorem restoreIrq_continues (hp : h.cpu.reg .sp = Way.trap.base c) (hmode : c.mode = machineMode)
    (hm : ∀ s o, (s, o) ∈ Way.trap.layout.slots →
      takenOff y (Way.trap.base c) h.mem (Way.trap.base c + o) = Way.trap.value c s) :
    Continues c (restoreIrq y h).cpu := by
  obtain ⟨-, hsp, ht, hregs, hpc, hmstatus, hmeicontext, hmode'⟩ := restoreIrq_spec hp rfl rfl
  have hstatus : takenOff y (Way.trap.base c) h.mem (Way.trap.base c + 4) =
      trapStatus c.mode (c.csr .mstatus) :=
    hm (.csr .mstatus) 4 (by decide)
  rw [hstatus, hmode, mretStatus_trapStatus] at hmstatus
  rw [hstatus, hmode, mppOf_trapStatus, ← hmode] at hmode'
  refine ⟨funext fun r => ?_, hpc.trans (hm (.csr .mepc) 8 (by decide)), hmode', hmstatus,
    hmeicontext.trans (hm (.csr .meicontext) 132 (by decide))⟩
  by_cases hr : r ∈ irqFrame.regs
  · obtain ⟨⟨r', o⟩, hslot, rfl⟩ := List.mem_map.mp hr
    have hslot' : (Slot.reg r', o) ∈ Way.trap.layout.slots := reg_slot (k := .trap) hslot
    exact (hregs r' o hslot).trans (hm (.reg r') o hslot')
  · have hcases : r = .sp ∨ r = .t0 := by
      revert hr
      cases r <;> decide
    rcases hcases with rfl | rfl
    · have hsize : (-160 : Word) + 160 = 0 := by decide
      rw [hsp, base_trap, BitVec.add_assoc, hsize]
      exact BitVec.add_zero _
    · exact ht.trans (hm (.reg .t0) 24 (by decide))

/-- The instructions of `restore_voluntary` up to its label. -/
theorem voluntary_csrs (fg o label : Word) (h : Hart) :
    let h' := run [li .t0 fg, csrw .meicontext .t0, lw .t0 o .sp, csrw .mstatus .t0, j label] h
    h'.mem = h.mem ∧ h'.cpu.reg .sp = h.cpu.reg .sp ∧ h'.cpu.mode = h.cpu.mode ∧
      h'.cpu.pc = label ∧ h'.cpu.csr .mstatus = h.mem (h.cpu.reg .sp + o) := by
  simp [run_cons, run_nil, lw, li, csrw, j, Cpu.setReg, Cpu.setCsr]

/-- Two pieces of code with others between their instructions. -/
theorem runAmid_append (code code' : List (Hart → Hart)) (mems : ℕ → Word → Word) (c : Cpu) :
    runAmid (code ++ code') mems c =
      runAmid code' (fun n => mems (code.length + n)) (runAmid code mems c) := by
  induction code generalizing mems c with
  | nil => simp [runAmid]
  | cons i code ih =>
    rw [List.cons_append, runAmid, ih, runAmid, List.length_cons]
    simp only [Nat.add_right_comm]

/-- The loads of a frame, whatever happens between them as long as the words of the frame stay. -/
theorem runAmid_loadRegs (l : Layout Reg Word) (hsp : Reg.sp ∉ l.regs) {mems : ℕ → Word → Word}
    (hm : ∀ n, ∀ o ∈ l.offsets, mems n (c.reg .sp + o) = m (c.reg .sp + o)) :
    runAmid (loadRegs l) mems c = { c with reg := l.load (c.reg .sp) m c.reg } := by
  unfold loadRegs Layout.load
  unfold Layout.regs at hsp
  unfold Layout.offsets at hm
  generalize l.slots = s at hsp hm
  induction s generalizing mems c with
  | nil => rfl
  | cons p s ih =>
    rw [List.map_cons, List.mem_cons, not_or] at hsp
    have hword : mems 0 (c.reg .sp + p.2) = m (c.reg .sp + p.2) := hm 0 p.2 (by simp)
    have hkeep : (lw p.1 p.2 .sp ⟨c, mems 0⟩).cpu =
        { c with reg := Function.update c.reg p.1 (m (c.reg .sp + p.2)) } := by
      rw [← hword]
      rfl
    have hsp' : Function.update c.reg p.1 (m (c.reg .sp + p.2)) .sp = c.reg .sp :=
      Function.update_of_ne hsp.1 _ _
    rw [List.map_cons, runAmid, hkeep, ih hsp.2]
    · simp only [hsp', List.foldl_cons]
    · intro n o ho
      have ho' : o ∈ (p :: s).map Prod.snd := List.mem_cons_of_mem _ ho
      simp only [hsp']
      rw [hm (n + 1) o ho']

/-- The context of a thread that called `nd_hw_do_switch`, when that returns. -/
structure Returns (c d : Cpu) : Prop where
  pc : d.pc = c.reg .ra
  reg : ∀ r ∈ voluntaryFrame.regs, d.reg r = c.reg r
  sp : d.reg .sp = c.reg .sp

/-- A context that was saved by `nd_hw_do_switch` comes back, with an interrupt between any two
instructions: those keep off the words that are still to be loaded. -/
theorem restoreVoluntaryRest_returns {d : Cpu} {mems : ℕ → Word → Word}
    (hp : d.reg .sp = Way.voluntary.base c + 4)
    (hm : ∀ n r o, (r, o) ∈ voluntaryFrame.slots → mems n (Way.voluntary.base c + o) = c.reg r) :
    Returns c (runAmid restoreVoluntaryRest mems d) := by
  have hnsp : Reg.sp ∉ voluntaryRest.regs := by decide
  have hnsp' : Reg.sp ∉ voluntaryFrame.regs := by decide
  have hrest : ∀ p ∈ voluntaryFrame.slots,
      (p.1, p.2 - 8) ∈ voluntaryRest.slots ∧ 4 + 4 + (p.2 - 8) = p.2 := by
    decide
  have hframe : ∀ p ∈ voluntaryRest.slots, (p.1, 4 + 4 + p.2) ∈ voluntaryFrame.slots := by
    decide
  unfold restoreVoluntaryRest
  rw [runAmid_append, runAmid_append]
  have hsp₁ : (runAmid [addi .sp .sp 4] mems d).reg .sp = Way.voluntary.base c + (4 + 4) := by
    rw [← BitVec.add_assoc, ← hp]
    rfl
  generalize runAmid [addi .sp .sp 4] mems d = d₁ at hsp₁ ⊢
  have hstay : ∀ n, ∀ o ∈ voluntaryRest.offsets,
      mems ([addi .sp .sp 4].length + n) (d₁.reg .sp + o) = mems 0 (d₁.reg .sp + o) := by
    intro n o ho
    obtain ⟨⟨r, o'⟩, hslot, rfl⟩ := List.mem_map.mp ho
    have hslot' := hframe (r, o') hslot
    rw [hsp₁, BitVec.add_assoc, hm _ r _ hslot', hm 0 r _ hslot']
  rw [runAmid_loadRegs voluntaryRest hnsp hstay]
  generalize hd₂ : ({ d₁ with reg := voluntaryRest.load (d₁.reg .sp) (mems 0) d₁.reg } : Cpu) = d₂
  have hsp₂ : d₂.reg .sp = d₁.reg .sp := by
    rw [← hd₂]
    exact voluntaryRest.load_other (d₁.reg .sp) (mems 0) d₁.reg hnsp
  have hback : ∀ r o, (r, o) ∈ voluntaryFrame.slots → d₂.reg r = c.reg r := by
    intro r o hslot
    obtain ⟨hslot', hoff⟩ := hrest (r, o) hslot
    have hload : d₂.reg r = mems 0 (d₁.reg .sp + (o - 8)) := by
      rw [← hd₂]
      exact voluntaryRest.load_at (d₁.reg .sp) (mems 0) d₁.reg hslot'
    rw [hsp₁, BitVec.add_assoc, hoff, hm 0 r o hslot] at hload
    exact hload
  generalize (fun n => mems (([addi .sp .sp 4] ++ loadRegs voluntaryRest).length + n)) = mems'
  have hend : runAmid [addi .sp .sp 56, ret] mems' d₂ =
      { d₂ with
        reg := Function.update d₂.reg .sp (d₂.reg .sp + 56)
        pc := Function.update d₂.reg .sp (d₂.reg .sp + 56) .ra } :=
    rfl
  rw [hend]
  refine ⟨hback .ra 8 (by decide), fun r hr => ?_, ?_⟩
  · obtain ⟨⟨r', o⟩, hslot, rfl⟩ := List.mem_map.mp hr
    have hne : r' ≠ .sp := by
      rintro rfl
      exact hnsp' hr
    exact (Function.update_of_ne hne _ _).trans (hback r' o hslot)
  · have hsize : (-64 : Word) + (4 + 4) + 56 = 0 := by decide
    show Function.update d₂.reg .sp (d₂.reg .sp + 56) .sp = c.reg .sp
    rw [Function.update_self, hsp₂, hsp₁, base_voluntary, BitVec.add_assoc, BitVec.add_assoc,
      ← BitVec.add_assoc (-64), hsize]
    exact BitVec.add_zero _

/-! ## New threads -/

/-- The words that `nd_hw_stack_init` leaves, from its address on. -/
theorem foldr_push_at (l : List Word) (p : Word × (Word → Word)) (hl : l.length < 2 ^ 30) {i : ℕ}
    (hi : i < l.length) :
    (l.foldr push p).2 ((l.foldr push p).1 + BitVec.ofNat 32 (4 * i)) = l.get ⟨i, hi⟩ := by
  induction l generalizing i with
  | nil => cases hi
  | cons x l ih =>
    have hl' : l.length < 2 ^ 30 := (Nat.lt_succ_self _).trans hl
    rw [List.foldr_cons]
    generalize hq : l.foldr push p = q at ih
    unfold push
    cases i with
    | zero =>
      rw [Nat.mul_zero]
      show Function.update q.2 (q.1 - 4) x (q.1 - 4 + 0) = x
      rw [show q.1 - 4 + 0 = q.1 - 4 from BitVec.add_zero _, Function.update_self]
    | succ i =>
      have hi' : i < l.length := Nat.lt_of_succ_lt_succ hi
      have haddr : q.1 - 4 + BitVec.ofNat 32 (4 * (i + 1)) = q.1 + BitVec.ofNat 32 (4 * i) := by
        bv_omega
      have hne : q.1 + BitVec.ofNat 32 (4 * i) ≠ q.1 - 4 := by
        bv_omega
      show Function.update q.2 (q.1 - 4) x (q.1 - 4 + _) = _
      rw [haddr, Function.update_of_ne hne]
      exact ih hl' hi'

/-- A frame of pushed words ends four bytes lower for each of them. -/
theorem foldr_push_fst (l : List Word) (p : Word × (Word → Word)) :
    (l.foldr push p).1 = p.1 - BitVec.ofNat 32 (4 * l.length) := by
  induction l with
  | nil =>
    rw [List.foldr_nil, List.length_nil]
    exact (BitVec.sub_zero p.1).symm
  | cons x l ih =>
    rw [List.foldr_cons, List.length_cons]
    show (l.foldr push p).1 - 4 = _
    rw [ih]
    bv_omega

/-- What `push` does not come to stays. -/
theorem foldr_push_other (l : List Word) (p : Word × (Word → Word)) {a : Word}
    (ha : ∀ i < l.length, a ≠ p.1 - BitVec.ofNat 32 (4 * (i + 1))) :
    (l.foldr push p).2 a = p.2 a := by
  induction l with
  | nil => rfl
  | cons x l ih =>
    have hlast := ha l.length (Nat.lt_succ_self _)
    have hne : a ≠ (l.foldr push p).1 - 4 := by
      rw [foldr_push_fst]
      bv_omega
    rw [List.foldr_cons]
    refine (Function.update_of_ne hne _ _).trans (ih fun i hi => ?_)
    exact ha i (Nat.lt_succ_of_lt hi)

/-- The context of a new thread, as if it had called `nd_hw_do_switch` from the trampoline. -/
def newThread (y : Symbols) (entry parameter stackAddr : Word) : Cpu where
  reg
    | .ra => y.taskEntryTrampoline
    | .sp => ndAlignDown stackAddr 16
    | .s0 => y.ndThreadEntry
    | .s1 => entry
    | .s2 => parameter
    | _ => 0
  csr _ := mstatusMie
  pc := y.taskEntryTrampoline
  mode := machineMode

/-- `nd_hw_stack_init` writes sixteen words. -/
theorem ndHwStackInit_other {entry parameter stackAddr a : Word}
    (ha : ∀ i < 16, a ≠ ndAlignDown stackAddr 16 - BitVec.ofNat 32 (4 * (i + 1))) :
    (ndHwStackInit y entry parameter stackAddr m).2 a = m a :=
  foldr_push_other [frameTypeVoluntary, mstatusMie, y.taskEntryTrampoline, y.ndThreadEntry,
    entry, parameter, 0, 0, 0, 0, 0, 0, 0, 0, 0, 0] (ndAlignDown stackAddr 16, m) ha

/-- `nd_hw_stack_init` writes the frame of the new thread. -/
theorem ndHwStackInit_frame (entry parameter stackAddr : Word) (m : Word → Word) :
    (ndHwStackInit y entry parameter stackAddr m).1 =
        Way.voluntary.base (newThread y entry parameter stackAddr) ∧
      ∀ s o, (s, o) ∈ Way.voluntary.layout.slots →
        (ndHwStackInit y entry parameter stackAddr m).2
          ((ndHwStackInit y entry parameter stackAddr m).1 + o) =
            Way.voluntary.value (newThread y entry parameter stackAddr) s := by
  let l : List Word := [frameTypeVoluntary, mstatusMie, y.taskEntryTrampoline, y.ndThreadEntry,
    entry, parameter, 0, 0, 0, 0, 0, 0, 0, 0, 0, 0]
  have hinit : ndHwStackInit y entry parameter stackAddr m =
      l.foldr push (ndAlignDown stackAddr 16, m) :=
    rfl
  have hvalues : Way.voluntary.layout.slots.map (fun p =>
      Way.voluntary.value (newThread y entry parameter stackAddr) p.1) = l.take 15 :=
    rfl
  have hoffsets : Way.voluntary.layout.slots.map Prod.snd =
      (List.range 15).map fun i => BitVec.ofNat 32 (4 * i) := by
    decide
  have hlength : l.length = 16 := rfl
  rw [hinit]
  constructor
  · rw [foldr_push_fst]
    show ndAlignDown stackAddr 16 - BitVec.ofNat 32 64 = ndAlignDown stackAddr 16 + -64
    bv_omega
  · intro s o hs
    obtain ⟨i, hi, hslot⟩ := List.mem_iff_getElem.mp hs
    have hi' : i < 15 := hi
    have hl : i < l.length := by omega
    have ho : BitVec.ofNat 32 (4 * i) = o := by
      have hat := congrArg (fun l : List Word => l[i]?) hoffsets
      simp only [List.getElem?_map, List.getElem?_eq_getElem hi, hslot, Option.map_some,
        List.getElem?_range hi', Option.some.injEq] at hat
      exact hat.symm
    have hv : l.get ⟨i, hl⟩ =
        Way.voluntary.value (newThread y entry parameter stackAddr) s := by
      have hat := congrArg (fun l : List Word => l[i]?) hvalues
      simp only [List.getElem?_map, List.getElem?_eq_getElem hi, hslot, Option.map_some,
        List.getElem?_take_of_lt hi', List.getElem?_eq_getElem hl, Option.some.injEq] at hat
      exact hat.symm
    rw [← ho, ← hv]
    exact foldr_push_at l _ (by omega) hl

/-- A new thread enters `nd_thread_entry` with its entry function and its parameter, the interrupts
enabled and its stack empty. -/
theorem taskEntryTrampoline_enters {entry parameter stackAddr : Word} {d : Cpu}
    (hd : Returns (newThread y entry parameter stackAddr) d) :
    let e := (taskEntryTrampoline ⟨d, m⟩).cpu
    d.pc = y.taskEntryTrampoline ∧ e.pc = y.ndThreadEntry ∧ e.reg .a0 = entry ∧
      e.reg .a1 = parameter ∧ e.reg .sp = ndAlignDown stackAddr 16 ∧
      e.csr .mstatus = d.csr .mstatus ||| mstatusMie := by
  have hs₀ : d.reg .s0 = y.ndThreadEntry := hd.reg .s0 (by decide)
  have hs₁ : d.reg .s1 = entry := hd.reg .s1 (by decide)
  have hs₂ : d.reg .s2 = parameter := hd.reg .s2 (by decide)
  refine ⟨hd.pc, ?_, ?_, ?_, ?_, ?_⟩
  · exact hs₀
  · exact hs₁
  · exact hs₂
  · exact hd.sp
  · rfl

end Rv32

end NerdRtos
