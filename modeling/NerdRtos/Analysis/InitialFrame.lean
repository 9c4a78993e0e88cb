import NerdRtos.Model.StackInit
import Mathlib.Tactic.Common

/-!
# The initial frame in its stack

The ports of `arch/arm` move the end of the stack on by one word before they round it down to eight
bytes, as if they were given the last word and not the end. The frame fits where the rounding takes
that word back.
-/

set_option autoImplicit false

namespace NerdRtos

variable {a stack size : BitVec 32}

/-- The `n` bytes from `a` on are in the stack. -/
def InStack (stack size a : BitVec 32) (n : ℕ) : Prop := (a - stack).toNat + n ≤ size.toNat

instance (stack size a : BitVec 32) (n : ℕ) : Decidable (InStack stack size a n) :=
  inferInstanceAs (Decidable (_ ≤ _))

/-- Rounding down to eight bytes. -/
theorem toNat_ndAlignDown (x : BitVec 32) : (ndAlignDown x 8).toNat = x.toNat / 8 * 8 := by
  have hbits : ∀ i < 32, (~~~((8 : BitVec 32) - 1)).getLsbD i = decide (3 ≤ i) := by decide
  have hshift : ndAlignDown x 8 = x >>> 3 <<< 3 := by
    apply BitVec.eq_of_getLsbD_eq
    intro i hi
    unfold ndAlignDown
    rw [BitVec.getLsbD_and, hbits i hi, BitVec.getLsbD_shiftLeft, BitVec.getLsbD_ushiftRight]
    by_cases h : 3 ≤ i
    · simp [h, hi, show ¬ i < 3 by omega, show 3 + (i - 3) = i by omega]
    · simp [h, show i < 3 by omega]
  have hx := x.isLt
  rw [hshift, BitVec.toNat_shiftLeft, BitVec.toNat_ushiftRight, Nat.shiftRight_eq_div_pow,
    Nat.shiftLeft_eq]
  omega

/-- Where a port puts the frame when it is given the address `top`. -/
def framePtr (top : BitVec 32) : BitVec 32 := ndAlignDown (top + 4) 8 - 68

/-- Every port stores words of one frame of 68 bytes, and the last of them. -/
theorem stackInit_words (port : ArmPort) (ndThreadEntry entry parameter top : BitVec 32) :
    (port.ndHwStackInit ndThreadEntry entry parameter top).1 = framePtr top ∧ port.frameSize = 68 ∧
      (∀ w ∈ (port.ndHwStackInit ndThreadEntry entry parameter top).2,
        ∃ k : BitVec 32, k ≤ 64 ∧ w.addr = framePtr top + k) ∧
      ∃ w ∈ (port.ndHwStackInit ndThreadEntry entry parameter top).2,
        w.addr = framePtr top + 64 := by
  have hm : (cortexMStackInit ndThreadEntry entry parameter top).1 = framePtr top ∧
      (∀ w ∈ (cortexMStackInit ndThreadEntry entry parameter top).2,
        ∃ k : BitVec 32, k ≤ 64 ∧ w.addr = framePtr top + k) ∧
      ∃ w ∈ (cortexMStackInit ndThreadEntry entry parameter top).2, w.addr = framePtr top + 64 := by
    have hoffset : ∀ f : StackFrame, f.offset ≤ 64 := by
      intro f
      cases f <;> decide
    refine ⟨rfl, fun w hw => ?_, ⟨framePtr top + 64, 0x01000000⟩, ?_, rfl⟩
    · simp only [cortexMStackInit, List.mem_cons, List.not_mem_nil, or_false] at hw
      rcases hw with rfl | rfl | rfl | rfl | rfl | rfl | rfl | rfl | rfl <;>
        exact ⟨_, hoffset _, rfl⟩
    · simp [cortexMStackInit, framePtr, sizeofStackFrame, StackFrame.offset]
  cases port with
  | m3 => exact ⟨hm.1, rfl, hm.2⟩
  | m4 => exact ⟨hm.1, rfl, hm.2⟩
  | m7 => exact ⟨hm.1, rfl, hm.2⟩
  | m33 => exact ⟨hm.1, rfl, hm.2⟩
  | a9 =>
    have hoffset : ∀ f : PreemptFrame, f.offset ≤ 64 := by
      intro f
      cases f <;> decide
    refine ⟨rfl, rfl, fun w hw => ?_, ⟨framePtr top + 64, 0x1F⟩, ?_, rfl⟩
    · rcases List.mem_append.mp hw with hw | hw
      · obtain ⟨i, hi, rfl⟩ := List.mem_map.mp hw
        have hlt : i < 17 := List.mem_range.mp hi
        refine ⟨BitVec.ofNat 32 (4 * i), ?_, rfl⟩
        rw [BitVec.le_def, BitVec.toNat_ofNat]
        show _ ≤ 64
        omega
      · simp only [List.mem_cons, List.not_mem_nil, or_false] at hw
        rcases hw with rfl | rfl | rfl | rfl | rfl <;> exact ⟨_, hoffset _, rfl⟩
    · simp [ArmPort.ndHwStackInit, A9.ndHwStackInit, framePtr, sizeofPreemptFrame,
        PreemptFrame.offset]

/-- Where the end of the stack is less than a word above a multiple of eight the frame ends
there. -/
theorem inStack_of_residue (hsize : 68 + 8 ≤ size.toNat) (hend : (stack + size).toNat % 8 < 4)
    {k : BitVec 32} (hk : k ≤ 64) : InStack stack size (framePtr (stack + size) + k) 4 := by
  have hdown := toNat_ndAlignDown (stack + size + 4)
  unfold InStack framePtr
  generalize ndAlignDown (stack + size + 4) 8 = y at hdown
  bv_omega

/-- Anywhere else the last word is behind the stack. -/
theorem not_inStack_of_residue (hsize : 68 + 8 ≤ size.toNat) (hend : 4 ≤ (stack + size).toNat % 8) :
    ¬ InStack stack size (framePtr (stack + size) + 64) 4 := by
  have hdown := toNat_ndAlignDown (stack + size + 4)
  unfold InStack framePtr
  generalize ndAlignDown (stack + size + 4) 8 = y at hdown
  bv_omega

/-- **The initial frame fits its stack exactly when the end of the stack is less than a word above a
multiple of eight**, on every port.
arch/arm/m3/port.c:49-73, arch/arm/a9/port.c:17-40, kernel/nd_thread.c:271-274 -/
theorem initial_frame_fits_iff (port : ArmPort)
    (ndThreadEntry entry parameter stack size : BitVec 32)
    (hsize : port.frameSize.toNat + 8 ≤ size.toNat) :
    ((∀ w ∈ (port.threadStackInit ndThreadEntry entry parameter stack size).2,
      InStack stack size w.addr 4) ∧
      ((port.threadStackInit ndThreadEntry entry parameter stack size).1 + port.frameSize).toNat %
        8 = 0) ↔
      (stack + size).toNat % 8 < 4 := by
  obtain ⟨hptr, hframe, hwords, w, hw, hlast⟩ :=
    stackInit_words port ndThreadEntry entry parameter (stack + size)
  have hsize' : 68 + 8 ≤ size.toNat := by
    rw [hframe] at hsize
    exact hsize
  constructor
  · rintro ⟨hin, -⟩
    have hin' := hin w hw
    rw [hlast] at hin'
    by_contra hend
    exact not_inStack_of_residue hsize' (by omega) hin'
  · intro hend
    refine ⟨fun w hw => ?_, ?_⟩
    · obtain ⟨k, hk, hwk⟩ := hwords w hw
      rw [hwk]
      exact inStack_of_residue hsize' hend hk
    · show ((port.ndHwStackInit ndThreadEntry entry parameter (stack + size)).1 +
        port.frameSize).toNat % 8 = 0
      rw [hptr, hframe]
      have hdown := toNat_ndAlignDown (stack + size + 4)
      unfold framePtr
      generalize ndAlignDown (stack + size + 4) 8 = y at hdown
      bv_omega

/-- A stack of 256 bytes at a multiple of eight. -/
theorem initial_frame_fits_aligned :
    ArmPort.m4.frameSize.toNat + 8 ≤ (256#32).toNat ∧
      (∀ w ∈ (ArmPort.m4.threadStackInit 0x101 0x201 0 0x20000400 256).2,
        InStack 0x20000400 256 w.addr 4) ∧
      ((ArmPort.m4.threadStackInit 0x101 0x201 0 0x20000400 256).1 + ArmPort.m4.frameSize).toNat %
        8 = 0 :=
  ⟨by decide, (initial_frame_fits_iff .m4 0x101 0x201 0 0x20000400 256 (by decide)).mpr (by decide)⟩

/-- A stack of 256 bytes behind a header of 20 bytes: `xpsr` is stored behind it. -/
theorem initial_frame_overflows :
    ArmPort.m4.frameSize.toNat + 8 ≤ (256#32).toNat ∧
      (⟨0x20000514, 0x01000000⟩ : WordStore) ∈
        (ArmPort.m4.threadStackInit 0x101 0x201 0 0x20000414 256).2 ∧
      ¬ InStack 0x20000414 256 0x20000514 4 := by
  decide

end NerdRtos
