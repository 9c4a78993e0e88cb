import NerdRtos.Lib.Bytes
import Mathlib.Data.BitVec

/-!
# Words of four bytes

A 32-bit word in a memory of bytes, in either byte order. Two words that lie one behind the other
give the word that begins between them: the one is shifted towards the low address, the other away
from it, and both are merged (`merge_loadWord`). A word that is stored elsewhere copies its four
bytes (`storeWord_loadWord`).
-/

set_option autoImplicit false

namespace Words

open Bytes (Mem)

/-- The byte order. -/
inductive Endian
  | little
  | big
  deriving DecidableEq, Repr

variable {e : Endian} {m m' : Mem} {a i j : ℕ} {b c : ℕ → BitVec 8}

/-- The word whose `i`-th byte from the low end is `b i`. -/
def wordOf (b : ℕ → BitVec 8) : BitVec 32 := b 3 ++ b 2 ++ b 1 ++ b 0

/-- The offset in memory of the `i`-th byte from the low end. -/
def Endian.offset (e : Endian) (i : ℕ) : ℕ :=
  match e with
  | little => i
  | big => 3 - i

/-- The word at address `a`. -/
def loadWord (e : Endian) (m : Mem) (a : ℕ) : BitVec 32 := wordOf fun i => m (a + e.offset i)

/-- Write a word at address `a`. -/
def storeWord (e : Endian) (m : Mem) (a : ℕ) (w : BitVec 32) : Mem := fun x =>
  if a ≤ x ∧ x < a + 4 then w.extractLsb' (8 * e.offset (x - a)) 8 else m x

/-- Shift towards the low address. -/
def Endian.ls (e : Endian) (w : BitVec 32) (k : ℕ) : BitVec 32 :=
  match e with
  | little => w >>> k
  | big => w <<< k

/-- Shift away from the low address. -/
def Endian.rs (e : Endian) (w : BitVec 32) (k : ℕ) : BitVec 32 :=
  match e with
  | little => w <<< k
  | big => w >>> k

/-- A word depends on its bytes. -/
theorem wordOf_congr (h : ∀ i < 4, b i = c i) : wordOf b = wordOf c := by
  unfold wordOf
  rw [h 0 (by omega), h 1 (by omega), h 2 (by omega), h 3 (by omega)]

/-- A bit of a word is a bit of one of its bytes. -/
theorem getLsbD_wordOf (b : ℕ → BitVec 8) (hi : i < 32) :
    (wordOf b).getLsbD i = (b (i / 8)).getLsbD (i % 8) := by
  have hcases : i / 8 = 0 ∨ i / 8 = 1 ∨ i / 8 = 2 ∨ i / 8 = 3 := by omega
  unfold wordOf
  simp only [BitVec.getLsbD_append]
  rcases hcases with h | h | h | h
  · rw [if_pos (by omega), h, show i % 8 = i by omega]
  · rw [if_neg (by omega), if_pos (by omega), h, show i % 8 = i - 8 by omega]
  · rw [if_neg (by omega), if_neg (by omega), if_pos (by omega), h, show i % 8 = i - 8 - 8 by omega]
  · rw [if_neg (by omega), if_neg (by omega), if_neg (by omega), h,
      show i % 8 = i - 8 - 8 - 8 by omega]

/-- A byte of a word. -/
theorem extract_wordOf (b : ℕ → BitVec 8) (hi : i < 4) :
    (wordOf b).extractLsb' (8 * i) 8 = b i := by
  apply BitVec.eq_of_getLsbD_eq
  intro j hj
  rw [BitVec.getLsbD_extractLsb', getLsbD_wordOf b (by omega), show (8 * i + j) / 8 = i by omega,
    show (8 * i + j) % 8 = j by omega]
  simp [hj]

/-- The upper bytes of one word and the lower bytes of another. -/
theorem merge_wordOf (b c : ℕ → BitVec 8) (hj : j ≤ 4) :
    wordOf b >>> (8 * j) ||| wordOf c <<< (32 - 8 * j) =
      wordOf fun q => if q + j < 4 then b (q + j) else c (q + j - 4) := by
  apply BitVec.eq_of_getLsbD_eq
  intro i hi
  rw [BitVec.getLsbD_or, BitVec.getLsbD_ushiftRight, BitVec.getLsbD_shiftLeft, getLsbD_wordOf _ hi]
  by_cases hlow : i / 8 + j < 4
  · rw [if_pos hlow, getLsbD_wordOf b (by omega), show (8 * j + i) / 8 = i / 8 + j by omega,
      show (8 * j + i) % 8 = i % 8 by omega]
    simp [show i < 32 - 8 * j by omega]
  · rw [if_neg hlow, BitVec.getLsbD_of_ge _ _ (by omega), getLsbD_wordOf c (by omega),
      show (i - (32 - 8 * j)) / 8 = i / 8 +
        j - 4 by omega, show (i - (32 - 8 * j)) % 8 = i % 8 by omega]
    simp [hi, show ¬ i < 32 - 8 * j by omega]

/-- The word that begins `j` bytes behind the first of two neighbours. -/
theorem merge_loadWord (e : Endian) (m : Mem) (a : ℕ) (hj : j ≤ 4) :
    e.ls (loadWord e m a) (8 * j) ||| e.rs (loadWord e m (a + 4)) (32 - 8 * j) = loadWord e m
      (a + j) := by
  unfold loadWord Endian.ls Endian.rs
  cases e with
  | little =>
    simp only [Endian.offset]
    rw [merge_wordOf _ _ hj]
    apply wordOf_congr
    intro q _
    split
    · congr 1
      omega
    · congr 1
      omega
  | big =>
    simp only [Endian.offset]
    rw [BitVec.or_comm, show 32 - 8 * j = 8 * (4 - j) by omega,
      show 8 * j = 32 - 8 * (4 - j) by omega, merge_wordOf _ _ (by omega)]
    apply wordOf_congr
    intro q hq
    split
    · congr 1
      omega
    · congr 1
      omega

/-- A word that is stored elsewhere copies its bytes. -/
theorem storeWord_loadWord (e : Endian) (m m' : Mem) (a b x : ℕ) :
    storeWord e m a (loadWord e m' b) x = if a ≤ x ∧ x < a + 4 then m' (b + (x - a)) else m x := by
  unfold storeWord
  split
  · unfold loadWord
    rw [extract_wordOf _ (by cases e <;> simp only [Endian.offset] <;> omega)]
    congr 1
    cases e with
    | little => rfl
    | big =>
      simp only [Endian.offset]
      omega
  · rfl

/-- A word depends on its four bytes. -/
theorem loadWord_congr (e : Endian) (h : ∀ x, a ≤ x → x < a + 4 → m x = m' x) :
    loadWord e m a = loadWord e m' a := by
  apply wordOf_congr
  intro i hi
  refine h _ (by omega) ?_
  cases e with
  | little => exact Nat.add_lt_add_left hi a
  | big =>
    simp only [Endian.offset]
    omega

end Words
