import Mathlib.Tactic.Common
import Mathlib.Data.List.Basic
import Mathlib.Data.Nat.ModEq

/-!
# Rings with free-running pointers

A ring of `cap` slots, `cap` a power of two, is addressed by pointers of `w` bits that are never
reduced: the slot of a pointer is found by masking it with `cap - 1`. `content` lists the slots
from a pointer on. Writing the slot behind the last one appends (`content_push`) and
advancing the pointer takes the first one off (`content_pop`), also where the pointers wrap.
-/

set_option autoImplicit false

namespace Ring

variable {w : ℕ} {M : Type}

/-- The number of slots is a power of two, as `cap & (cap - 1) == 0` tests it. -/
def PowerOfTwo (cap : BitVec w) : Prop := cap &&& (cap - 1) = 0 ∧ 0 < cap.toNat

/-- The slot that a pointer is at. -/
def index (cap ptr : BitVec w) : ℕ := (ptr &&& (cap - 1)).toNat

/-- The `n` slots from the one of `ptr` on. -/
def content (cap : BitVec w) (slots : ℕ → M) (ptr : BitVec w) (n : ℕ) : List M :=
  (List.range n).map fun j => slots (index cap (ptr + BitVec.ofNat w j))

section PowerOfTwo

variable {cap : BitVec w} (h : PowerOfTwo cap)
include h

/-- The mask of a power of two. -/
theorem PowerOfTwo.toNat_sub_one : (cap - 1).toNat = cap.toNat - 1 := by
  have hpos := h.2
  have hlt := cap.isLt
  rw [BitVec.toNat_sub_of_le]
  · have hone : (1 : BitVec w).toNat = 1 % 2 ^ w := BitVec.toNat_ofNat 1 w
    rw [hone, Nat.mod_eq_of_lt (by omega)]
  · rw [BitVec.le_def]
    have hone : (1 : BitVec w).toNat = 1 % 2 ^ w := BitVec.toNat_ofNat 1 w
    rw [hone, Nat.mod_eq_of_lt (by omega)]
    omega

/-- A capacity that is a power of two has an exponent. -/
theorem PowerOfTwo.exists_pow : ∃ k, k ≤ w ∧ cap.toNat = 2 ^ k := by
  have hand : cap.toNat &&& (cap.toNat - 1) = 0 := by
    have hzero := congrArg BitVec.toNat h.1
    rwa [BitVec.toNat_and, h.toNat_sub_one] at hzero
  have hpos := h.2
  obtain ⟨k, hk⟩ := (Nat.and_sub_one_eq_zero_iff_isPowerOfTwo (by omega)).mp hand
  refine ⟨k, ?_, hk⟩
  have hlt : 2 ^ k < 2 ^ w := hk ▸ cap.isLt
  exact Nat.le_of_lt ((Nat.pow_lt_pow_iff_right (by decide)).mp hlt)

/-- Masking is the remainder. -/
theorem PowerOfTwo.index_eq (ptr : BitVec w) : index cap ptr = ptr.toNat % cap.toNat := by
  obtain ⟨k, -, hk⟩ := h.exists_pow
  unfold index
  rw [BitVec.toNat_and, h.toNat_sub_one, hk, Nat.and_two_pow_sub_one_eq_mod]

/-- An index is below the capacity. -/
theorem PowerOfTwo.index_lt (ptr : BitVec w) : index cap ptr < cap.toNat := by
  rw [h.index_eq]
  exact Nat.mod_lt _ h.2

/-- The wrap of the pointers is not seen by the slots. -/
theorem PowerOfTwo.index_add (ptr : BitVec w) (n : ℕ) :
    index cap (ptr + BitVec.ofNat w n) = (ptr.toNat + n) % cap.toNat := by
  obtain ⟨k, hkw, hk⟩ := h.exists_pow
  have hdvd : cap.toNat ∣ 2 ^ w := by
    rw [hk]
    exact Nat.pow_dvd_pow 2 hkw
  rw [h.index_eq, BitVec.toNat_add, BitVec.toNat_ofNat, Nat.add_mod_mod, Nat.mod_mod_of_dvd _ hdvd]

/-- The slots from a pointer on are different ones, as long as they are no more than there are. -/
theorem PowerOfTwo.index_add_ne (ptr : BitVec w) {i n : ℕ} (hi : i < n) (hn : n < cap.toNat) :
    index cap (ptr + BitVec.ofNat w i) ≠ index cap (ptr + BitVec.ofNat w n) := by
  rw [h.index_add, h.index_add]
  intro he
  have hmod : (ptr.toNat + i) ≡ (ptr.toNat + n) [MOD cap.toNat] := he
  have hin : i ≡ n [MOD cap.toNat] := Nat.ModEq.add_left_cancel' ptr.toNat hmod
  have heq : i = n := Nat.ModEq.eq_of_lt_of_lt hin (by omega) hn
  omega

/-- Writing the slot behind the last one appends. -/
theorem PowerOfTwo.content_push {slots slots' : ℕ → M} {ptr : BitVec w} {n : ℕ} {m : M}
    (hn : n < cap.toNat)
    (hs : ∀ i, i < cap.toNat →
      slots' i = if i = index cap (ptr + BitVec.ofNat w n) then m else slots i) :
    content cap slots' ptr (n + 1) = content cap slots ptr n ++ [m] := by
  unfold content
  rw [List.range_succ, List.map_append, List.map_singleton, hs _ (h.index_lt _), if_pos rfl]
  congr 1
  refine List.map_congr_left fun i hi => ?_
  rw [List.mem_range] at hi
  rw [hs _ (h.index_lt _), if_neg (h.index_add_ne ptr hi hn)]

end PowerOfTwo

/-- Advancing the pointer takes the first slot off. -/
theorem content_pop (cap : BitVec w) (slots : ℕ → M) (ptr : BitVec w) (n : ℕ) :
    content cap slots ptr (n + 1) = slots (index cap ptr) :: content cap slots (ptr + 1) n := by
  unfold content
  rw [List.range_succ_eq_map, List.map_cons, List.map_map, BitVec.add_zero]
  congr 1
  refine List.map_congr_left fun j _ => ?_
  have hnext : ptr + BitVec.ofNat w (j + 1) = ptr + 1 + BitVec.ofNat w j := by
    rw [Nat.add_comm, BitVec.ofNat_add, ← BitVec.add_assoc]
    rfl
  simp only [Function.comp, hnext]

end Ring
