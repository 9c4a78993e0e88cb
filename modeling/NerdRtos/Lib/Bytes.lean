import Mathlib.Algebra.Group.Nat.Defs
import Mathlib.Logic.Function.Basic
import Mathlib.Tactic.Common

/-!
# Byte-addressed memory

A memory is a function from addresses to bytes. The 32-bit words of a little-endian
machine are read and written four bytes at a time, at any address: `load32` and
`store32`. A word that was just stored reads back (`load32_store32`), and a store
leaves every word and every byte that it does not overlap alone
(`load32_store32_of_disjoint`, `store32_of_outside`). Runs of bytes are copied by `copy`, `load`
and `store`, with the same two laws (`load_store`, `load_store_of_disjoint`).
-/

set_option autoImplicit false

namespace Bytes

/-- A memory: one byte at every address. -/
abbrev Mem : Type := ℕ → BitVec 8

/-- The 32-bit word at address `a`, low byte first. -/
def load32 (m : Mem) (a : ℕ) : ℕ :=
  (m a).toNat + 256 * (m (a + 1)).toNat + 65536 * (m (a + 2)).toNat + 16777216 * (m (a + 3)).toNat

/-- Write the 32-bit word `v` at address `a`, low byte first. -/
def store32 (m : Mem) (a v : ℕ) : Mem := fun x =>
  if x = a then BitVec.ofNat 8 v
  else if x = a + 1 then BitVec.ofNat 8 (v / 256)
  else if x = a + 2 then BitVec.ofNat 8 (v / 65536)
  else if x = a + 3 then BitVec.ofNat 8 (v / 16777216)
  else m x

/-- A word is below `2 ^ 32`. -/
theorem load32_lt (m : Mem) (a : ℕ) : load32 m a < 2 ^ 32 := by
  have h0 := (m a).isLt
  have h1 := (m (a + 1)).isLt
  have h2 := (m (a + 2)).isLt
  have h3 := (m (a + 3)).isLt
  unfold load32
  omega

/-- A stored word reads back. -/
theorem load32_store32 (m : Mem) (a v : ℕ) (hv : v < 2 ^ 32) :
    load32 (store32 m a v) a = v := by
  simp [load32, store32]
  omega

/-- A store leaves the bytes outside its four alone. -/
theorem store32_of_outside (m : Mem) {a x : ℕ} (v : ℕ) (hx : x < a ∨ a + 4 ≤ x) :
    store32 m a v x = m x := by
  unfold store32
  rw [if_neg (by omega), if_neg (by omega), if_neg (by omega), if_neg (by omega)]

/-- A store leaves the words that it does not overlap alone. -/
theorem load32_store32_of_disjoint (m : Mem) {a b : ℕ} (v : ℕ) (hab : b + 4 ≤ a ∨ a + 4 ≤ b) :
    load32 (store32 m a v) b = load32 m b := by
  unfold load32
  rw [store32_of_outside m v (by omega), store32_of_outside m v (by omega),
    store32_of_outside m v (by omega), store32_of_outside m v (by omega)]

/-! ## Runs of bytes -/

/-- The first `n` bytes of a source; what lies beyond its end reads as zero. -/
def copy (l : List (BitVec 8)) (n : ℕ) : List (BitVec 8) := (List.range n).map fun i => l.getD i 0

/-- The `n` bytes from address `a` on. -/
def load (m : Mem) (a n : ℕ) : List (BitVec 8) := (List.range n).map fun i => m (a + i)

/-- Write the bytes `l` from address `a` on. -/
def store (m : Mem) (a : ℕ) (l : List (BitVec 8)) : Mem := fun x =>
  if a ≤ x ∧ x < a + l.length then l.getD (x - a) 0 else m x

/-- As many bytes are copied as are asked for. -/
@[simp] theorem length_copy (l : List (BitVec 8)) (n : ℕ) : (copy l n).length = n := by
  simp [copy]

/-- What was just stored is loaded. -/
theorem load_store (m : Mem) (a : ℕ) (l : List (BitVec 8)) : load (store m a l) a l.length = l := by
  refine List.ext_getElem (by simp [load]) fun i hi hi' => ?_
  simp [load, store, hi', List.getD_eq_getElem?_getD]

/-- A store leaves the bytes that it does not overlap alone. -/
theorem load_store_of_disjoint (m : Mem) {a b n : ℕ} (l : List (BitVec 8))
    (hab : b + n ≤ a ∨ a + l.length ≤ b) : load (store m a l) b n = load m b n := by
  unfold load store
  refine List.map_congr_left fun i hi => ?_
  rw [List.mem_range] at hi
  rw [if_neg (by omega)]

end Bytes
