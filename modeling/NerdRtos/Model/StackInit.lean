import Mathlib.Data.BitVec

/-!
# The initial context of a thread

`nd_hw_stack_init` of `arch/arm/m3`, `m4`, `m7`, `m33` and `a9`, and its call in `nd_thread_init`.
Addresses are words of 32 bits. What is written is the list of the stores, in their order.
-/

set_option autoImplicit false

namespace NerdRtos

/-- The store of a word. -/
structure WordStore where
  addr : BitVec 32
  val : BitVec 32
  deriving DecidableEq, Repr

/-- `ND_ALIGN_DOWN`. -/
def ndAlignDown (size align : BitVec 32) : BitVec 32 := size &&& ~~~(align - 1)

/-! ## Cortex-M -/

/-- The fields of `struct stack_frame`, with those of `struct exception_stack_frame` at its end. -/
inductive StackFrame
  | r4 | r5 | r6 | r7 | r8 | r9 | r10 | r11
  | excReturn
  | r0 | r1 | r2 | r3 | r12 | lr | pc | xpsr
  deriving DecidableEq, Repr

/-- The offset of a field. -/
def StackFrame.offset : StackFrame → BitVec 32
  | r4 => 0 | r5 => 4 | r6 => 8 | r7 => 12 | r8 => 16 | r9 => 20 | r10 => 24 | r11 => 28
  | excReturn => 32
  | r0 => 36 | r1 => 40 | r2 => 44 | r3 => 48 | r12 => 52 | lr => 56 | pc => 60 | xpsr => 64

/-- `sizeof(struct stack_frame)`. -/
def sizeofStackFrame : BitVec 32 := 68

/-- `nd_hw_stack_init` as all the Cortex-M ports have it: the address of the frame, and the
stores. -/
def cortexMStackInit (ndThreadEntry entkFun parameter stackAddr : BitVec 32) :
    BitVec 32 × List WordStore :=
  let stk := stackAddr + 4
  let stk := ndAlignDown stk 8
  let stackFrame := stk - sizeofStackFrame
  let put (f : StackFrame) (v : BitVec 32) : WordStore := ⟨stackFrame + f.offset, v⟩
  (stackFrame,
    [put .r0 entkFun, put .r1 parameter, put .r2 0, put .r3 0, put .r12 0, put .lr 0,
      put .pc ndThreadEntry, put .xpsr 0x01000000, put .excReturn 0xFFFFFFFD])

/-- `nd_hw_stack_init` of `arch/arm/m3`. -/
def M3.ndHwStackInit := cortexMStackInit

/-- `nd_hw_stack_init` of `arch/arm/m4`. -/
def M4.ndHwStackInit := cortexMStackInit

/-- `nd_hw_stack_init` of `arch/arm/m7`. -/
def M7.ndHwStackInit := cortexMStackInit

/-- `nd_hw_stack_init` of `arch/arm/m33`, where `xpsr` is called `psr`. -/
def M33.ndHwStackInit := cortexMStackInit

/-! ## Cortex-A9 -/

/-- The fields of `struct preempt_frame`. -/
inductive PreemptFrame
  | type
  | r0 | r1 | r2 | r3 | r4 | r5 | r6 | r7 | r8 | r9 | r10 | r11
  | r12 | lr | pc | cpsr
  deriving DecidableEq, Repr

/-- The offset of a field. -/
def PreemptFrame.offset : PreemptFrame → BitVec 32
  | type => 0
  | r0 => 4 | r1 => 8 | r2 => 12 | r3 => 16 | r4 => 20 | r5 => 24 | r6 => 28 | r7 => 32
  | r8 => 36 | r9 => 40 | r10 => 44 | r11 => 48
  | r12 => 52 | lr => 56 | pc => 60 | cpsr => 64

/-- `sizeof(struct preempt_frame)`. -/
def sizeofPreemptFrame : BitVec 32 := 68

/-- `FRAME_TYPE_PREEMPT`. -/
def frameTypePreempt : BitVec 32 := 2

/-- `nd_hw_stack_init` of `arch/arm/a9`: every word is cleared first. -/
def A9.ndHwStackInit (ndThreadEntry entkFun parameter stackAddr : BitVec 32) :
    BitVec 32 × List WordStore :=
  let stk := stackAddr + 4
  let stk := ndAlignDown stk 8
  let preemptFrame := stk - sizeofPreemptFrame
  let put (f : PreemptFrame) (v : BitVec 32) : WordStore := ⟨preemptFrame + f.offset, v⟩
  (preemptFrame,
    ((List.range (sizeofPreemptFrame.toNat / 4)).map fun i =>
      ⟨preemptFrame + BitVec.ofNat 32 (4 * i), 0⟩) ++
      [put .type frameTypePreempt, put .cpsr 0x1F, put .pc ndThreadEntry, put .r0 entkFun,
        put .r1 parameter])

/-! ## Threads -/

/-- The ports. -/
inductive ArmPort
  | m3 | m4 | m7 | m33 | a9
  deriving DecidableEq, Repr

/-- `nd_hw_stack_init` of a port. -/
def ArmPort.ndHwStackInit : ArmPort → BitVec 32 → BitVec 32 → BitVec 32 → BitVec 32 →
    BitVec 32 × List WordStore
  | m3 => M3.ndHwStackInit
  | m4 => M4.ndHwStackInit
  | m7 => M7.ndHwStackInit
  | m33 => M33.ndHwStackInit
  | a9 => A9.ndHwStackInit

/-- The size of the initial frame of a port. -/
def ArmPort.frameSize : ArmPort → BitVec 32
  | a9 => sizeofPreemptFrame
  | _ => sizeofStackFrame

/-- The call in `nd_thread_init`. -/
def ArmPort.threadStackInit (port : ArmPort)
    (ndThreadEntry entry parameter stack stackSize : BitVec 32) :
    BitVec 32 × List WordStore :=
  port.ndHwStackInit ndThreadEntry entry parameter (stack + stackSize)

end NerdRtos
