import NerdRtos.Model.MemoryCopy
import Mathlib.Tactic.Common

/-!
# `nd_memcpy` copies

Every step of the word-copying path takes the copy further by the bytes that it writes. In the
misaligned cases `x` is the word that ends `off` bytes ahead of the source, and merged with the next
one it gives the word at the source.
-/

set_option autoImplicit false

namespace NerdRtos

open Bytes (Mem)
open Function (update)
open Words (Endian loadWord storeWord)

section Copy

variable {e : Endian} {m₀ m : Mem} {dest src n k j off : ℕ} {st : CopyState}

/-- The first `k` bytes are copied, and nothing else is written. -/
def Copied (m₀ : Mem) (dest src k : ℕ) (m : Mem) : Prop :=
  ∀ a, m a = if dest ≤ a ∧ a < dest + k then m₀ (src + (a - dest)) else m₀ a

/-- The regions of `n` bytes do not overlap. -/
def RegionsApart (dest src n : ℕ) : Prop := src + n ≤ dest ∨ dest + n ≤ src

/-- Before the first byte nothing is copied. -/
theorem copied_zero (m₀ : Mem) (dest src : ℕ) : Copied m₀ dest src 0 m₀ := by
  intro a
  rw [if_neg (by omega)]

/-- Two memories with the same bytes copied are the same. -/
theorem Copied.unique {m' : Mem} (h : Copied m₀ dest src k m) (h' : Copied m₀ dest src k m') :
    m = m' := by
  funext a
  rw [h a, h' a]

/-- The source is as it was. -/
theorem Copied.source (h : Copied m₀ dest src k m) (hap : RegionsApart dest src n) (hk : k ≤ n)
    {a : ℕ} (ha : src ≤ a ∧ a < src + n) : m a = m₀ a := by
  rw [h a, if_neg]
  unfold RegionsApart at hap
  omega

/-- One byte more. -/
theorem Copied.byte (h : Copied m₀ dest src k m) (hap : RegionsApart dest src n) (hk : k < n) :
    Copied m₀ dest src (k + 1) (update m (dest + k) (m (src + k))) := by
  intro a
  by_cases ha : a = dest + k
  · rw [ha, Function.update_self, if_pos (by omega), h.source hap (by omega) (by omega)]
    congr 1
    omega
  · rw [Function.update_of_ne ha, h a]
    by_cases hin : dest ≤ a ∧ a < dest + k
    · rw [if_pos hin, if_pos (by omega)]
    · rw [if_neg hin, if_neg (by omega)]

/-- One word more, in either byte order. -/
theorem Copied.word (h : Copied m₀ dest src k m) :
    Copied m₀ dest src (k + 4) (storeWord e m (dest + k) (loadWord e m₀ (src + k))) := by
  intro a
  rw [Words.storeWord_loadWord]
  by_cases ha : dest + k ≤ a ∧ a < dest + k + 4
  · rw [if_pos ha, if_pos (by omega)]
    congr 1
    omega
  · rw [if_neg ha, h a]
    by_cases hin : dest ≤ a ∧ a < dest + k
    · rw [if_pos hin, if_pos (by omega)]
    · rw [if_neg hin, if_neg (by omega)]

/-- A word of the source is as it was. -/
theorem Copied.load (h : Copied m₀ dest src k m) (hap : RegionsApart dest src n) (hk : k ≤ n)
    {a : ℕ} (ha : src ≤ a ∧ a + 4 ≤ src + n) : loadWord e m a = loadWord e m₀ a := by
  apply Words.loadWord_congr
  intro x hx hx'
  exact h.source hap hk (by omega)

/-- The addresses are `k` bytes on, and `j` more bytes are copied. -/
structure CopiedTo (m₀ : Mem) (dest src n k j : ℕ) (st : CopyState) : Prop where
  d : st.d = dest + k
  s : st.s = src + k
  mem : Copied m₀ dest src (k + j) st.mem
  le : k + j ≤ n
  loads : ∀ a ∈ st.loads, src ≤ a ∧ a + 4 ≤ src + n

/-- A word was loaded besides, which ends `off` bytes ahead of what is copied. -/
structure Merging (e : Endian) (m₀ : Mem) (dest src n off k j : ℕ) (st : CopyState) : Prop
    extends CopiedTo m₀ dest src n k j st where
  x : ∃ b, b + 4 = src + k + j + off ∧ src ≤ b ∧ st.x = loadWord e m₀ b

/-! ## Bytes -/

/-- A turn of a loop over bytes copies one byte. -/
theorem CopiedTo.copyByte (hap : RegionsApart dest src n) (h : CopiedTo m₀ dest src n k 0 st)
    (hk : k < n) :
    CopiedTo m₀ dest src n (k + 1) 0 (copyByte st) := by
  have hmem := h.mem.byte hap hk
  unfold NerdRtos.copyByte
  refine ⟨?_, ?_, ?_, hk, h.loads⟩
  · show st.d + 1 = _
    rw [h.d, Nat.add_assoc]
  · show st.s + 1 = _
    rw [h.s, Nat.add_assoc]
  · show Copied m₀ dest src (k + 1) (update st.mem st.d (st.mem st.s))
    rw [h.d, h.s]
    exact hmem

/-- Copying bytes leaves the count. -/
theorem copyBytes_n (j : ℕ) (st : CopyState) : (copyBytes j st).n = st.n := by
  induction j generalizing st with
  | zero => rfl
  | succ j ih => exact ih (copyByte st)

/-- Copying bytes leaves the word that is carried over. -/
theorem copyBytes_x (j : ℕ) (st : CopyState) : (copyBytes j st).x = st.x := by
  induction j generalizing st with
  | zero => rfl
  | succ j ih => exact ih (copyByte st)

/-- A loop over bytes copies as many as it has turns. -/
theorem CopiedTo.copyBytes (hap : RegionsApart dest src n) (j : ℕ) :
    ∀ {k : ℕ} {st : CopyState}, CopiedTo m₀ dest src n k 0 st → k + j ≤ n →
      CopiedTo m₀ dest src n (k + j) 0 (copyBytes j st) := by
  induction j with
  | zero => exact fun h _ => h
  | succ j ih =>
    intro k st h hk
    have hrest := ih (h.copyByte hap (by omega)) (by omega)
    rw [show k + (j + 1) = k + 1 + j by omega]
    exact hrest

/-- The loop without `__GNUC__` copies.
kernel/nd_klibc.c:276-278 -/
theorem CopiedTo.plainLoop (hap : RegionsApart dest src n) (i : ℕ) :
    ∀ {k : ℕ} {st : CopyState}, CopiedTo m₀ dest src n k 0 st → k + i = n →
      CopiedTo m₀ dest src n n 0 (plainLoop i st) := by
  induction i with
  | zero =>
    intro k st h hk
    obtain rfl : k = n := hk
    exact h
  | succ i ih =>
    intro k st h hk
    have hbyte := h.copyByte hap (by omega)
    have hnext : CopiedTo m₀ dest src n (k + 1) 0 { NerdRtos.copyByte st with n := i } :=
      ⟨hbyte.d, hbyte.s, hbyte.mem, hbyte.le, hbyte.loads⟩
    exact ih hnext (by omega)

/-- The loop that aligns the source.
kernel/nd_klibc.c:295-297 -/
theorem CopiedTo.alignLoop (hap : RegionsApart dest src n) (i : ℕ) :
    ∀ {k : ℕ} {st : CopyState}, CopiedTo m₀ dest src n k 0 st → st.n = i → k + i = n →
      ∃ k', CopiedTo m₀ dest src n k' 0 (alignLoop i st) ∧
        k' + (NerdRtos.alignLoop i st).n = n := by
  induction i with
  | zero => exact fun h hn hk => ⟨_, h, by rw [← hk]; exact congrArg _ hn⟩
  | succ i ih =>
    intro k st h hn hk
    unfold NerdRtos.alignLoop
    split
    · have hbyte := h.copyByte hap (by omega)
      have hnext : CopiedTo m₀ dest src n (k + 1) 0 { NerdRtos.copyByte st with n := i } :=
        ⟨hbyte.d, hbyte.s, hbyte.mem, hbyte.le, hbyte.loads⟩
      exact ih hnext rfl (by omega)
    · exact ⟨k, h, by omega⟩

/-! ## Words -/

/-- A word of a block is copied. -/
theorem CopiedTo.copyWord (hap : RegionsApart dest src n) (h : CopiedTo m₀ dest src n k j st)
    (hj : k + j + 4 ≤ n) :
    CopiedTo m₀ dest src n k (j + 4) (copyWord e j st) := by
  have hword : loadWord e st.mem (st.s + j) = loadWord e m₀ (src + (k + j)) := by
    rw [h.s, h.mem.load hap h.le (by omega), Nat.add_assoc]
  unfold NerdRtos.copyWord
  refine ⟨h.d, h.s, ?_, by omega, fun a ha => ?_⟩
  · show Copied m₀ dest src (k + (j + 4))
      (storeWord e st.mem (st.d + j) (loadWord e st.mem (st.s + j)))
    rw [hword, h.d, Nat.add_assoc, ← Nat.add_assoc k j 4]
    exact h.mem.word
  · have hs := h.s
    rcases List.mem_cons.mp ha with rfl | ha
    · omega
    · exact h.loads a ha

/-- The merged word is the one at the source. -/
theorem Merging.mergeWord (hap : RegionsApart dest src n) (h : Merging e m₀ dest src n off k j st)
    (hoff : off ≤ 4) (hj : k + j + off + 4 ≤ n) :
    Merging e m₀ dest src n off k (j + 4)
      (mergeWord e (off + j) j (8 * (4 - off)) (8 * off) st) := by
  obtain ⟨b, hb, hsrc, hx⟩ := h.x
  have hs := h.s
  have hy : loadWord e st.mem (st.s + (off + j)) = loadWord e m₀ (b + 4) := by
    rw [show st.s + (off + j) = b + 4 by omega]
    exact h.mem.load hap h.le (by omega)
  have hmerge : e.ls st.x (8 * (4 - off)) ||| e.rs (loadWord e st.mem (st.s + (off + j)))
    (8 * off) =
      loadWord e m₀ (src + (k + j)) := by
    have hword := Words.merge_loadWord e m₀ b (show 4 - off ≤ 4 by omega)
    rw [show 32 - 8 * (4 - off) = 8 *
      off by omega, show b + (4 - off) = src + (k + j) by omega] at hword
    rw [hx, hy, hword]
  unfold NerdRtos.mergeWord
  refine ⟨⟨h.d, h.s, ?_, by omega, fun a ha => ?_⟩, b + 4, by omega, by omega, hy⟩
  · show Copied m₀ dest src (k + (j + 4)) (storeWord e st.mem (st.d + j)
      (e.ls st.x (8 * (4 - off)) ||| e.rs (loadWord e st.mem (st.s + (off + j))) (8 * off)))
    rw [hmerge, h.d, Nat.add_assoc, ← Nat.add_assoc k j 4]
    exact h.mem.word
  · rcases List.mem_cons.mp ha with rfl | ha
    · omega
    · exact h.loads a ha

/-! ## Blocks -/

/-- Behind a block the pointers go on by its size. -/
theorem CopiedTo.advance (h : CopiedTo m₀ dest src n k 16 st) : CopiedTo m₀ dest src n (k + 16) 0
    (advance st) := by
  unfold NerdRtos.advance
  refine ⟨?_, ?_, h.mem, h.le, h.loads⟩
  · show st.d + 16 = _
    rw [h.d, Nat.add_assoc]
  · show st.s + 16 = _
    rw [h.s, Nat.add_assoc]

/-- A block of four words.
kernel/nd_klibc.c:300-305 -/
theorem CopiedTo.copyBlock (hap : RegionsApart dest src n) (h : CopiedTo m₀ dest src n k 0 st)
    (hk : k + 16 ≤ n) :
    CopiedTo m₀ dest src n (k + 16) 0 (copyBlock e st) := by
  have h₁ := h.copyWord (e := e) hap (by omega)
  have h₂ := h₁.copyWord (e := e) hap (by omega)
  have h₃ := h₂.copyWord (e := e) hap (by omega)
  have h₄ := h₃.copyWord (e := e) hap (by omega)
  exact h₄.advance

/-- A block of four merged words.
kernel/nd_klibc.c:344-353 -/
theorem Merging.mergeBlock (hap : RegionsApart dest src n) (h : Merging e m₀ dest src n off k 0 st)
    (hoff : off ≤ 4) (hk : k + 16 + off ≤ n) :
    Merging e m₀ dest src n off (k + 16) 0 (mergeBlock e off (8 * (4 - off)) (8 * off) st) := by
  have h₁ := h.mergeWord hap hoff (by omega)
  have h₂ := h₁.mergeWord hap hoff (by omega)
  have h₃ := h₂.mergeWord hap hoff (by omega)
  have h₄ := h₃.mergeWord hap hoff (by omega)
  obtain ⟨b, hb, hsrc, hx⟩ := h₄.x
  exact ⟨h₄.toCopiedTo.advance, b, by omega, hsrc, hx⟩

/-- A loop that takes sixteen bytes in every round ends below its bound. -/
theorem blockLoop_rule (P : ℕ → CopyState → Prop) (body : CopyState → CopyState) {bound : ℕ}
    (hbound : 0 < bound) (hn : ∀ st, (body st).n = st.n - 16)
    (hbody : ∀ k st, P k st → k + st.n = n → bound ≤ st.n → 16 ≤ st.n ∧ P (k + 16) (body st))
      (i : ℕ) :
    ∀ k st, P k st → k + st.n = n → st.n ≤ i →
      ∃ k', P k' (blockLoop bound body i st) ∧ k' + (blockLoop bound body i st).n = n ∧
        (blockLoop bound body i st).n < bound := by
  induction i with
  | zero =>
    intro k st h hk hi
    exact ⟨k, h, hk, (Nat.le_zero.mp hi).trans_lt hbound⟩
  | succ i ih =>
    intro k st h hk hi
    unfold blockLoop
    split
    · rename_i hle
      obtain ⟨hsixteen, hnext⟩ := hbody k st h hk hle
      have hnn := hn st
      exact ih (k + 16) (body st) hnext (by omega) (by omega)
    · rename_i hlt
      exact ⟨k, h, hk, by omega⟩

/-- A case of the `switch`, for a destination that is `4 - off` bytes ahead of an aligned one.
kernel/nd_klibc.c:331-393 -/
theorem CopiedTo.mergeCase (off : ℕ) (hap : RegionsApart dest src n)
    (h : CopiedTo m₀ dest src n k 0 st) (hoff : 0 < off ∧ off < 4)
    (hk : k + st.n = n) (hn : 32 ≤ st.n) :
    ∃ k', CopiedTo m₀ dest src n k' 0
        (mergeCase e (4 - off) off (8 * (4 - off)) (8 * off) (16 + off) st) ∧
      k' + (NerdRtos.mergeCase e (4 - off) off (8 * (4 - off)) (8 * off) (16 + off) st).n = n ∧
      (NerdRtos.mergeCase e (4 - off) off (8 * (4 - off)) (8 * off) (16 + off) st).n < 32 := by
  have hs := h.s
  have hload : CopiedTo m₀ dest src n k 0 (loadX e 0 st) := by
    unfold loadX
    refine ⟨h.d, h.s, h.mem, h.le, fun a ha => ?_⟩
    rcases List.mem_cons.mp ha with rfl | ha
    · omega
    · exact h.loads a ha
  have hx : (loadX e 0 st).x = loadWord e m₀ (src + k) := by
    show loadWord e st.mem (st.s + 0) = _
    rw [Nat.add_zero, hs]
    exact h.mem.load hap h.le (by omega)
  have hbytes := hload.copyBytes hap (4 - off) (by omega)
  have hstart : Merging e m₀ dest src n off (k + (4 - off)) 0
      { NerdRtos.copyBytes (4 - off) (loadX e 0 st) with
        n := (NerdRtos.copyBytes (4 - off) (loadX e 0 st)).n - (4 - off) } :=
    ⟨⟨hbytes.d, hbytes.s, hbytes.mem, hbytes.le, hbytes.loads⟩, src + k, by omega, by omega,
      (copyBytes_x _ _).trans hx⟩
  have hnn : (NerdRtos.copyBytes (4 - off) (loadX e 0 st)).n = st.n := copyBytes_n _ _
  obtain ⟨k', hend, hleft, hlt⟩ := blockLoop_rule (n := n)
    (fun k st => Merging e m₀ dest src n off k 0 st) (mergeBlock e off (8 * (4 - off)) (8 * off))
    (show 0 < 16 + off by omega) (fun st => rfl)
    (fun k st h hk hle => ⟨by omega, h.mergeBlock hap (by omega) (by omega)⟩) _ _ _ hstart
    (by
      show k + (4 - off) + ((NerdRtos.copyBytes (4 - off) (loadX e 0 st)).n - (4 - off)) = n
      omega) le_rfl
  exact ⟨k', hend.toCopiedTo, hleft, hlt.trans (by omega)⟩

/-- The merging copy ends with less than 32 bytes left, whatever the misalignment of the
destination. -/
theorem CopiedTo.mergeSwitch (hap : RegionsApart dest src n) (h : CopiedTo m₀ dest src n k 0 st)
    (hk : k + st.n = n) (hn : 32 ≤ st.n) (hd : st.d % 4 ≠ 0) :
    ∃ k', CopiedTo m₀ dest src n k' 0 (mergeSwitch e st) ∧ k' + (NerdRtos.mergeSwitch e st).n = n ∧
      (NerdRtos.mergeSwitch e st).n < 32 := by
  unfold NerdRtos.mergeSwitch
  split
  · exact h.mergeCase 1 hap (by omega) hk hn
  · split
    · exact h.mergeCase 2 hap (by omega) hk hn
    · split
      · exact h.mergeCase 3 hap (by omega) hk hn
      · omega

/-! ## The rest -/

/-- What a bit of `n` stands for. -/
def bitValue (i bit : ℕ) : ℕ := if i &&& bit ≠ 0 then bit else 0

/-- The bits of what is left add up to it. -/
theorem bitValue_sum {i : ℕ} (hi : i < 32) :
    bitValue i 16 + bitValue i 8 + bitValue i 4 + bitValue i 2 + bitValue i 1 = i := by
  revert i
  decide

/-- Less than 16 bytes have no bit 16. -/
theorem bitValue_sixteen {i : ℕ} (hi : i < 16) : bitValue i 16 = 0 := by
  revert i
  decide

/-- `if (n & bit)` before a step of `bit` bytes. -/
theorem CopiedTo.onBit (bit : ℕ) (f : CopyState → CopyState) {i : ℕ}
    (h : CopiedTo m₀ dest src n k 0 st) (hi : st.n = i) (hroom : k + bitValue i bit ≤ n)
    (hf : k + bit ≤ n → CopiedTo m₀ dest src n (k + bit) 0 (f st) ∧ (f st).n = st.n) :
    CopiedTo m₀ dest src n (k + bitValue i bit) 0 (onBit bit f st) ∧
      (NerdRtos.onBit bit f st).n = i := by
  unfold NerdRtos.onBit bitValue
  unfold bitValue at hroom
  rw [hi]
  split
  · rename_i hbit
    rw [if_pos hbit] at hroom
    obtain ⟨hw, hn⟩ := hf hroom
    exact ⟨hw, hn.trans hi⟩
  · exact ⟨h, hi⟩

/-- The bytes that a bit of the count stands for. -/
theorem CopiedTo.onBitBytes (bit : ℕ) {i : ℕ} (hap : RegionsApart dest src n)
    (h : CopiedTo m₀ dest src n k 0 st) (hi : st.n = i) (hroom : k + bitValue i bit ≤ n) :
    CopiedTo m₀ dest src n (k + bitValue i bit) 0 (NerdRtos.onBit bit (NerdRtos.copyBytes bit) st) ∧
      (NerdRtos.onBit bit (NerdRtos.copyBytes bit) st).n = i :=
  h.onBit bit (NerdRtos.copyBytes bit) hi hroom fun hle =>
    ⟨h.copyBytes hap bit hle, copyBytes_n bit st⟩

/-- The last byte.
kernel/nd_klibc.c:327-329 -/
theorem CopiedTo.onBitLast {i : ℕ} (hap : RegionsApart dest src n)
    (h : CopiedTo m₀ dest src n k 0 st) (hi : st.n = i) (hroom : k + bitValue i 1 ≤ n) :
    Copied m₀ dest src (k + bitValue i 1) (NerdRtos.onBit 1 copyLast st).mem ∧
      (NerdRtos.onBit 1 copyLast st).loads = st.loads := by
  unfold NerdRtos.onBit bitValue
  unfold bitValue at hroom
  rw [hi]
  split
  · rename_i hbit
    rw [if_pos hbit] at hroom
    refine ⟨?_, rfl⟩
    show Copied m₀ dest src (k + 1) (update st.mem st.d (st.mem st.s))
    rw [h.d, h.s]
    exact h.mem.byte hap (by omega)
  · exact ⟨h.mem, rfl⟩

/-- Two words are copied one after the other. -/
theorem CopiedTo.copyTwoWords (hap : RegionsApart dest src n) (h : CopiedTo m₀ dest src n k 0 st)
    (hk : k + 8 ≤ n) :
    CopiedTo m₀ dest src n (k + 8) 0 (copyTwoWords e st) := by
  have h₁ := h.copyWord (e := e) hap (by omega)
  have h₂ := h₁.copyWord (e := e) hap (by omega)
  refine ⟨?_, ?_, h₂.mem, hk, h₂.loads⟩
  · show st.d + 8 = _
    rw [h.d, Nat.add_assoc]
  · show st.s + 8 = _
    rw [h.s, Nat.add_assoc]

/-- One word is copied. -/
theorem CopiedTo.copyOneWord (hap : RegionsApart dest src n) (h : CopiedTo m₀ dest src n k 0 st)
    (hk : k + 4 ≤ n) :
    CopiedTo m₀ dest src n (k + 4) 0 (copyOneWord e st) := by
  have h₁ := h.copyWord (e := e) hap (by omega)
  refine ⟨?_, ?_, h₁.mem, hk, h₁.loads⟩
  · show st.d + 4 = _
    rw [h.d, Nat.add_assoc]
  · show st.s + 4 = _
    rw [h.s, Nat.add_assoc]

/-- What the two paths end with. -/
structure CopyDone (m₀ : Mem) (dest src n : ℕ) (st : CopyState) : Prop where
  mem : Copied m₀ dest src n st.mem
  loads : ∀ a ∈ st.loads, src ≤ a ∧ a + 4 ≤ src + n

/-- The path for aligned addresses.
kernel/nd_klibc.c:299-331 -/
theorem CopiedTo.copyAligned (hap : RegionsApart dest src n) (h : CopiedTo m₀ dest src n k 0 st)
    (hk : k + st.n = n) :
    CopyDone m₀ dest src n (copyAligned e st) := by
  obtain ⟨k', hw, hleft, hlt⟩ := blockLoop_rule (n := n)
    (fun k st => CopiedTo m₀ dest src n k 0 st) (NerdRtos.copyBlock e)
      (show 0 < 16 by omega) (fun st => rfl)
    (fun k st h hk hle => ⟨hle, h.copyBlock hap (by omega)⟩) _ _ _ h hk le_rfl
  unfold NerdRtos.copyAligned
  generalize blockLoop 16 (NerdRtos.copyBlock e) st.n st = st₁ at hw hleft hlt
  have hsum := bitValue_sum (show st₁.n < 32 by omega)
  rw [bitValue_sixteen hlt] at hsum
  obtain ⟨h₂, hn₂⟩ := hw.onBit 8 (NerdRtos.copyTwoWords e) rfl (by omega)
    fun hle => ⟨hw.copyTwoWords hap hle, rfl⟩
  obtain ⟨h₃, hn₃⟩ := h₂.onBit 4 (NerdRtos.copyOneWord e) hn₂ (by omega)
    fun hle => ⟨h₂.copyOneWord hap hle, rfl⟩
  obtain ⟨h₄, hn₄⟩ := h₃.onBitBytes 2 hap hn₃ (by omega)
  obtain ⟨hmem, hloads⟩ := h₄.onBitLast hap hn₄ (by omega)
  refine ⟨?_, fun a ha => h₄.loads a (by rw [← hloads]; exact ha)⟩
  rw [show n = k' + bitValue st₁.n 8 + bitValue st₁.n 4 + bitValue st₁.n 2 +
    bitValue st₁.n 1 by omega]
  exact hmem

/-- The path for addresses that are not aligned to each other.
kernel/nd_klibc.c:334-408 -/
theorem CopiedTo.copyMisaligned (hap : RegionsApart dest src n) (h : CopiedTo m₀ dest src n k 0 st)
    (hk : k + st.n = n) (hd : st.d % 4 ≠ 0) : CopyDone m₀ dest src n (copyMisaligned e st) := by
  obtain ⟨k', hw, hleft, hlt⟩ : ∃ k', CopiedTo m₀ dest src n k' 0
        (if 32 ≤ st.n then NerdRtos.mergeSwitch e st else st) ∧
      k' + (if 32 ≤ st.n then NerdRtos.mergeSwitch e st else st).n = n ∧
      (if 32 ≤ st.n then NerdRtos.mergeSwitch e st else st).n < 32 := by
    split
    · rename_i hn
      exact h.mergeSwitch hap hk hn hd
    · exact ⟨k, h, hk, by omega⟩
  unfold NerdRtos.copyMisaligned
  generalize (if 32 ≤ st.n then NerdRtos.mergeSwitch e st else st) = st₁ at hw hleft hlt
  have hsum := bitValue_sum hlt
  obtain ⟨h₁, hn₁⟩ := hw.onBitBytes 16 hap rfl (by omega)
  obtain ⟨h₂, hn₂⟩ := h₁.onBitBytes 8 hap hn₁ (by omega)
  obtain ⟨h₃, hn₃⟩ := h₂.onBitBytes 4 hap hn₂ (by omega)
  obtain ⟨h₄, hn₄⟩ := h₃.onBitBytes 2 hap hn₃ (by omega)
  obtain ⟨hmem, hloads⟩ := h₄.onBitLast hap hn₄ (by omega)
  refine ⟨?_, fun a ha => h₄.loads a (by rw [← hloads]; exact ha)⟩
  rw [show n = k' + bitValue st₁.n 16 + bitValue st₁.n 8 + bitValue st₁.n 4 + bitValue st₁.n 2 +
    bitValue st₁.n 1 by omega]
  exact hmem

/-- **The word-copying path of `nd_memcpy` leaves what its byte loop leaves**, in either byte order,
whatever the length and the addresses of two regions that do not overlap are: the bytes of the
source in the destination, and everything else as it was. Words are loaded inside of the source
only.
kernel/nd_klibc.c:270-408 -/
theorem memcpy_eq_plain (e : Endian) (mem : Mem) (dest src n : ℕ) (hap : RegionsApart dest src n) :
    (ndMemcpy e mem dest src n).mem = (plainMemcpy mem dest src n).mem ∧
      (∀ i < n, (ndMemcpy e mem dest src n).mem (dest + i) = mem (src + i)) ∧
      (∀ a, a < dest ∨ dest + n ≤ a → (ndMemcpy e mem dest src n).mem a = mem a) ∧
      ∀ a ∈ (ndMemcpy e mem dest src n).loads, src ≤ a ∧ a + 4 ≤ src + n := by
  have hstart : CopiedTo mem dest src n 0 0 { mem, d := dest, s := src, n } :=
    ⟨rfl, rfl, copied_zero mem dest src, Nat.zero_le n, fun a ha => by cases ha⟩
  have hplain := (hstart.plainLoop hap n (by omega)).mem
  have hdone : CopyDone mem dest src n (ndMemcpy e mem dest src n) := by
    obtain ⟨k, hw, hleft⟩ := hstart.alignLoop hap n rfl (by omega)
    unfold ndMemcpy
    simp only
    split
    · exact hw.copyAligned hap hleft
    · rename_i hd
      exact hw.copyMisaligned hap hleft hd
  refine ⟨hdone.mem.unique hplain, fun i hi => ?_, fun a ha => ?_, hdone.loads⟩
  · rw [hdone.mem (dest + i), if_pos (by omega), Nat.add_sub_cancel_left]
  · rw [hdone.mem a, if_neg (by omega)]

/-- Sixty bytes from a multiple of four plus three to a multiple of four plus two. -/
theorem memcpy_eq_plain_sixty :
    RegionsApart 102 3 60 ∧
      (ndMemcpy .big (fun a => BitVec.ofNat 8 a) 102 3 60).mem =
        (plainMemcpy (fun a => BitVec.ofNat 8 a) 102 3 60).mem ∧
      (∀ i < 60, (ndMemcpy .big (fun a => BitVec.ofNat 8 a) 102 3 60).mem (102 + i) =
        BitVec.ofNat 8 (3 + i)) ∧
      (∀ a, a < 102 ∨ 102 + 60 ≤ a →
        (ndMemcpy .big (fun a => BitVec.ofNat 8 a) 102 3 60).mem a = BitVec.ofNat 8 a) ∧
      ∀ a ∈ (ndMemcpy .big (fun a => BitVec.ofNat 8 a) 102 3 60).loads, 3 ≤ a ∧ a + 4 ≤ 3 + 60 :=
  ⟨.inl (by omega), memcpy_eq_plain .big _ 102 3 60 (.inl (by omega))⟩

end Copy

end NerdRtos
