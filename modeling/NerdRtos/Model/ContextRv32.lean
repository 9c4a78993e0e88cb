import NerdRtos.Lib.RegisterFrames
import NerdRtos.Model.StackInit
import Mathlib.Data.BitVec

/-!
# Context switches on RISC-V

`arch/riscv/rv32/context.S` and `trap.S`, instruction by instruction, and `nd_hw_stack_init` of
`port.c`. A function of the assembly is the list of its instructions up to the call of a C function,
and from there on; what the C functions do is left to whoever runs the code. Words are at multiples
of four. A trap and `mret` change the mode of the hart and the fields of `mstatus` as they do on a
hart with machine and user mode.
-/

set_option autoImplicit false

namespace NerdRtos

open RegisterFrames (Layout)

namespace Rv32

/-- A register or an address. -/
abbrev Word := BitVec 32

/-- The registers but `zero`. -/
inductive Reg
  | ra | sp | gp | tp
  | t0 | t1 | t2 | t3 | t4 | t5 | t6
  | s0 | s1 | s2 | s3 | s4 | s5 | s6 | s7 | s8 | s9 | s10 | s11
  | a0 | a1 | a2 | a3 | a4 | a5 | a6 | a7
  deriving DecidableEq, Repr

/-- The control and status registers that a context has. -/
inductive Csr
  | mstatus | mepc | meicontext
  deriving DecidableEq, Repr

/-- The context of a hart, with its mode. -/
structure Cpu where
  reg : Reg → Word
  csr : Csr → Word
  pc : Word
  mode : BitVec 2

/-- A hart with the memory. -/
structure Hart where
  cpu : Cpu
  mem : Word → Word

/-- What the linker places. -/
structure Symbols where
  ndCurrentThread : Word
  ndNextThread : Word
  ndThreadEntry : Word
  taskEntryTrampoline : Word
  restoreVoluntary : Word

/-! ## Instructions -/

/-- `RISCV_MSTATUS_MIE`. -/
def mstatusMie : Word := 0x8

/-- `MPIE` of `mstatus`. -/
def mstatusMpie : Word := 0x80

/-- `MPP` of `mstatus`. -/
def mstatusMpp : Word := 0x1800

/-- `MPRV` of `mstatus`. -/
def mstatusMprv : Word := 0x20000

/-- Machine mode. -/
def machineMode : BitVec 2 := 3

/-- `RISCV_MEICONTEXT_FOREGROUND`. -/
def meicontextForeground : Word := 0x8000

/-- `FRAME_TYPE_VOLUNTARY`. -/
def frameTypeVoluntary : Word := 1

/-- Write a register. -/
def Cpu.setReg (r : Reg) (x : Word) (c : Cpu) : Cpu :=
  { c with reg := Function.update c.reg r x }

/-- Write a control and status register. -/
def Cpu.setCsr (r : Csr) (x : Word) (c : Cpu) : Cpu :=
  { c with csr := Function.update c.csr r x }

section Instructions

def li (rd : Reg) (imm : Word) (h : Hart) : Hart := { h with cpu := h.cpu.setReg rd imm }
def la : Reg → Word → Hart → Hart := li
def mv (rd rs : Reg) (h : Hart) : Hart := li rd (h.cpu.reg rs) h
def addi (rd rs : Reg) (imm : Word) (h : Hart) : Hart := li rd (h.cpu.reg rs + imm) h
def lw (rd : Reg) (off : Word) (rs : Reg) (h : Hart) : Hart := li rd (h.mem (h.cpu.reg rs + off)) h
def csrr (rd : Reg) (r : Csr) (h : Hart) : Hart := li rd (h.cpu.csr r) h
def csrw (r : Csr) (rs : Reg) (h : Hart) : Hart := { h with cpu := h.cpu.setCsr r (h.cpu.reg rs) }

def csrsi (r : Csr) (imm : Word) (h : Hart) : Hart :=
  { h with cpu := h.cpu.setCsr r (h.cpu.csr r ||| imm) }

def sw (rs : Reg) (off : Word) (rd : Reg) (h : Hart) : Hart :=
  { h with mem := Function.update h.mem (h.cpu.reg rd + off) (h.cpu.reg rs) }

def jr (rs : Reg) (h : Hart) : Hart := { h with cpu := { h.cpu with pc := h.cpu.reg rs } }
def ret : Hart → Hart := jr .ra

/-- The jump to a label. -/
def j (label : Word) (h : Hart) : Hart := { h with cpu := { h.cpu with pc := label } }

/-- `mstatus` after a trap in a mode: `MIE` goes to `MPIE` and is cleared, the mode to `MPP`. -/
def trapStatus (mode : BitVec 2) (x : Word) : Word :=
  (x &&& ~~~(mstatusMie ||| mstatusMpie ||| mstatusMpp)) |||
    (if x &&& mstatusMie = 0 then 0 else mstatusMpie) ||| (mode.setWidth 32 <<< 11)

/-- The mode in `MPP`. -/
def mppOf (x : Word) : BitVec 2 := x.extractLsb' 11 2

/-- `mstatus` after `mret`: `MPIE` goes to `MIE` and is set, `MPP` is cleared, and so is `MPRV` when
the hart leaves machine mode. -/
def mretStatus (x : Word) : Word :=
  let y := (x &&& ~~~(mstatusMie ||| mstatusMpp)) |||
    (if x &&& mstatusMpie = 0 then 0 else mstatusMie) ||| mstatusMpie
  if mppOf x = machineMode then y else y &&& ~~~mstatusMprv

/-- What the hart does at a trap, before the first instruction of the handler. -/
def trap (h : Hart) : Hart :=
  { h with
    cpu := { (h.cpu.setCsr .mepc h.cpu.pc).setCsr .mstatus
      (trapStatus h.cpu.mode (h.cpu.csr .mstatus)) with
      mode := machineMode } }

def mret (h : Hart) : Hart :=
  { h with
    cpu := { h.cpu.setCsr .mstatus (mretStatus (h.cpu.csr .mstatus)) with
      pc := h.cpu.csr .mepc
      mode := mppOf (h.cpu.csr .mstatus) } }

end Instructions

/-- Some instructions, one after the other. -/
def run (code : List (Hart → Hart)) (h : Hart) : Hart := code.foldl (fun h i => i h) h

/-- Some instructions between which others run: the memory is `mems i` when instruction `i` runs. -/
def runAmid : List (Hart → Hart) → (ℕ → Word → Word) → Cpu → Cpu
  | [], _, c => c
  | i :: code, mems, c => runAmid code (fun n => mems (n + 1)) (i ⟨c, mems 0⟩).cpu

/-! ## Frames -/

/-- The registers of a voluntary frame, at the offsets that `nd_hw_do_switch` stores them. -/
def voluntaryFrame : Layout Reg Word where
  slots :=
    [(.ra, 8), (.s0, 12), (.s1, 16), (.s2, 20), (.s3, 24), (.s4, 28), (.s5, 32), (.s6, 36),
      (.s7, 40), (.s8, 44), (.s9, 48), (.s10, 52), (.s11, 56)]
  regs_nodup := by decide
  offsets_nodup := by decide

/-- The same registers at the offsets that `restore_voluntary` loads them. -/
def voluntaryRest : Layout Reg Word where
  slots :=
    [(.ra, 0), (.s0, 4), (.s1, 8), (.s2, 12), (.s3, 16), (.s4, 20), (.s5, 24), (.s6, 28), (.s7, 32),
      (.s8, 36), (.s9, 40), (.s10, 44), (.s11, 48)]
  regs_nodup := by decide
  offsets_nodup := by decide

/-- The registers of a trap frame but `t0`, at the offsets `IRQ_FRAME_RA` and so on. -/
def irqFrame : Layout Reg Word where
  slots :=
    [(.ra, 12), (.gp, 16), (.tp, 20), (.t1, 28), (.t2, 32), (.s0, 36), (.s1, 40), (.a0, 44),
      (.a1, 48), (.a2, 52), (.a3, 56), (.a4, 60), (.a5, 64), (.a6, 68), (.a7, 72), (.s2, 76),
      (.s3, 80), (.s4, 84), (.s5, 88), (.s6, 92), (.s7, 96), (.s8, 100), (.s9, 104), (.s10, 108),
      (.s11, 112), (.t3, 116), (.t4, 120), (.t5, 124), (.t6, 128)]
  regs_nodup := by decide
  offsets_nodup := by decide

/-- `sw` of the registers of a frame. -/
def saveRegs (l : Layout Reg Word) : List (Hart → Hart) := l.slots.map fun p => sw p.1 p.2 .sp

/-- `lw` of the registers of a frame. -/
def loadRegs (l : Layout Reg Word) : List (Hart → Hart) := l.slots.map fun p => lw p.1 p.2 .sp

/-! ## `context.S` and `trap.S` -/

variable (y : Symbols)

/-- `nd_hw_do_switch`, up to the call of `nd_context_switch_cb`. -/
def ndHwDoSwitch : Hart → Hart :=
  run <|
    [addi .sp .sp (-64), li .t0 frameTypeVoluntary, sw .t0 0 .sp, csrr .t0 .mstatus,
      sw .t0 4 .sp] ++
    saveRegs voluntaryFrame ++
    [la .t0 y.ndCurrentThread, lw .t1 0 .t0, sw .sp 0 .t1, la .t0 y.ndNextThread, lw .a0 0 .t0]

/-- `restore_irq` up to its label. -/
def restoreIrqThread (h : Hart) : Hart :=
  let h := run [la .t0 y.ndCurrentThread, lw .t1 0 .t0] h
  if h.cpu.reg .t1 = 0 then h else run [addi .t2 .sp 160, sw .t2 0 .t1] h

/-- `restore_irq`. -/
def restoreIrq (h : Hart) : Hart :=
  run ([lw .t0 8 .sp, csrw .mepc .t0, lw .t0 4 .sp, csrw .mstatus .t0, lw .t0 132 .sp,
      csrw .meicontext .t0] ++
    loadRegs irqFrame ++ [lw .t0 24 .sp, addi .sp .sp 160, mret]) (restoreIrqThread y h)

/-- `restore_voluntary` up to the write of `mstatus`, which may enable the interrupts. -/
def restoreVoluntary : Hart → Hart :=
  run [li .t0 meicontextForeground, csrw .meicontext .t0, lw .t0 0 .sp, csrw .mstatus .t0,
    j y.restoreVoluntary]

/-- The rest of `restore_voluntary`, at `Symbols.restoreVoluntary`. -/
def restoreVoluntaryRest : List (Hart → Hart) :=
  [addi .sp .sp 4] ++ loadRegs voluntaryRest ++ [addi .sp .sp 56, ret]

/-- `restore_dispatch`. -/
def restoreDispatch (h : Hart) : Hart :=
  let h := run [lw .t0 0 .sp, li .t1 frameTypePreempt] h
  if h.cpu.reg .t0 = h.cpu.reg .t1 then restoreIrq y h
  else restoreVoluntary y (addi .sp .sp 4 h)

/-- `nd_hw_do_switch` from the return of `nd_context_switch_cb` on. -/
def ndHwDoSwitchBack (h : Hart) : Hart :=
  restoreDispatch y (run [la .t0 y.ndCurrentThread, lw .t1 0 .t0, lw .sp 0 .t1] h)

/-- `nd_hw_do_switch_first` from the return of `nd_context_switch_cb` on. -/
def ndHwDoSwitchFirst (h : Hart) : Hart :=
  restoreDispatch y (run [lw .t0 0 .sp, addi .sp .sp 16, lw .sp 0 .t0] h)

/-- `riscv_trap_entry`, up to the call of `riscv_trap_handler`. -/
def riscvTrapEntry (h : Hart) : Hart :=
  let h := run ([addi .sp .sp (-160), sw .t0 24 .sp, li .t0 frameTypePreempt, sw .t0 0 .sp,
      csrr .t0 .mstatus, sw .t0 4 .sp, csrr .t0 .mepc, sw .t0 8 .sp, csrr .t0 .meicontext,
      sw .t0 132 .sp] ++
    saveRegs irqFrame ++ [la .t0 y.ndCurrentThread, lw .t1 0 .t0]) h
  let h := if h.cpu.reg .t1 = 0 then h else sw .sp 0 .t1 h
  mv .a0 .sp h

/-- `riscv_trap_entry` from the return of `nd_schedule_irq_exit` on. -/
def riscvTrapExit (h : Hart) : Hart :=
  let h := run [la .t0 y.ndCurrentThread, lw .t1 0 .t0] h
  restoreDispatch y (if h.cpu.reg .t1 = 0 then h else lw .sp 0 .t1 h)

/-! ## `port.c` -/

/-- `*(--sp) = x`. -/
def push (x : Word) (p : Word × (Word → Word)) : Word × (Word → Word) :=
  (p.1 - 4, Function.update p.2 (p.1 - 4) x)

/-- `nd_hw_stack_init`: the address of the frame, and the memory. -/
def ndHwStackInit (entry parameter stackAddr : Word) (m : Word → Word) : Word × (Word → Word) :=
  let sp := ndAlignDown stackAddr 16
  [0, 0, 0, 0, 0, 0, 0, 0, 0, 0, parameter, entry, y.ndThreadEntry, y.taskEntryTrampoline,
    mstatusMie, frameTypeVoluntary].foldl (fun p x => push x p) (sp, m)

/-- `task_entry_trampoline`. -/
def taskEntryTrampoline : Hart → Hart :=
  run [csrsi .mstatus mstatusMie, mv .a0 .s1, mv .a1 .s2, jr .s0]

end Rv32

end NerdRtos
