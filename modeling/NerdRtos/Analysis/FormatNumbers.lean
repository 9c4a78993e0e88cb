import NerdRtos.Model.Format
import Mathlib.Tactic.NormNum

/-!
# Numbers in `tmp_buf`

The digits of a number come out lowest first and are turned round in place: what stands in `tmp_buf`
is the numeral `Nat.toDigits`. For 64 bits and a sign it has room.
-/

set_option autoImplicit false

namespace NerdRtos

open Bytes (Mem)
open Function (update)

variable {tmp tmp' : Mem} {l l' : List (BitVec 8)} {base start i j k n value : ℕ}
  {digit : ℕ → BitVec 8}

/-- The characters `l` stand at `start`. -/
def Slice (m : Mem) (start : ℕ) (l : List (BitVec 8)) : Prop :=
    ∀ i x, l[i]? = some x → m (start + i) = x

/-- A character of a text. -/
def charByte (c : Char) : BitVec 8 := BitVec.ofNat 8 c.toNat

/-- The numeral of `value`. -/
def numeral (base value : ℕ) : List (BitVec 8) := (Nat.toDigits base value).map charByte

/-- A digit goes into the buffer of 24 bytes when there is room for it. -/
theorem storeTmp_eq (h : i < 24) (c : BitVec 8) (tmp : Mem) :
    storeTmp i c tmp = .ok (update tmp i c) :=
  if_pos h

/-- What is read back from the start of `tmp_buf`. -/
theorem tmpOut_eq (h : Slice tmp 0 l) : tmpOut l.length tmp = l := by
  apply List.ext_getElem
  · simp [tmpOut]
  · intro i hi hi'
    have hx := h i l[i] (List.getElem?_eq_getElem hi')
    rw [Nat.zero_add] at hx
    simp [tmpOut, hx]

/-- Two slices one behind the other. -/
theorem Slice.append (h : Slice tmp start l) (h' : Slice tmp (start + l.length) l') :
    Slice tmp start (l ++ l') := by
  intro i x hx
  by_cases hi : i < l.length
  · rw [List.getElem?_append_left hi] at hx
    exact h i x hx
  · rw [List.getElem?_append_right (by omega)] at hx
    have hx' := h' _ x hx
    rw [show start + l.length + (i - l.length) = start + i by omega] at hx'
    exact hx'

/-- A slice that is not written to. -/
theorem Slice.frame (h : Slice tmp start l) (hsame : ∀ x, start ≤ x → x < start + l.length →
    tmp' x = tmp x) :
    Slice tmp' start l := by
  intro i x hx
  have hi : i < l.length := (List.getElem?_eq_some_iff.mp hx).1
  rw [hsame _ (by omega) (by omega)]
  exact h i x hx

/-! ## The numeral -/

/-- A number with more than one digit: the digits of its quotient, and the last one. -/
theorem numeral_step (hb : 1 < base) (h : base ≤ value) :
    numeral base value = numeral base (value / base) ++
      [charByte (Nat.digitChar (value % base))] := by
  unfold numeral
  rw [Nat.toDigits_of_base_le hb h, List.map_append]
  rfl

/-- A number with one digit. -/
theorem numeral_digit (h : value < base) : numeral base value =
    [charByte (Nat.digitChar value)] := by
  unfold numeral
  rw [Nat.toDigits_of_lt_base h]
  rfl

/-- The numeral of 0 is `0`. -/
theorem numeral_zero (base : ℕ) : numeral base 0 = [asciiZero] := by
  unfold numeral
  rw [Nat.toDigits_zero]
  rfl

/-- Every numeral has a digit. -/
theorem length_numeral_pos (base value : ℕ) : 0 < (numeral base value).length := by
  unfold numeral
  rw [List.length_map]
  exact Nat.length_toDigits_pos

/-- The length of a numeral is bounded by the power that bounds the number. -/
theorem length_numeral_le (hb : 1 < base) (hk : 0 < k) (h : value < base ^ k) :
    (numeral base value).length ≤ k := by
  unfold numeral
  rw [List.length_map]
  exact (Nat.length_toDigits_le_iff hb hk).mpr h

/-- The loops write the characters of the library. -/
theorem decDigit_eq {d : ℕ} (hd : d < 10) : decDigit d = charByte (Nat.digitChar d) := by
  revert hd
  revert d
  decide

/-- The table of digits of the code has the digits of the base. -/
theorem hexDigit_eq {d : ℕ} (hd : d < 16) : hexDigit d = charByte (Nat.digitChar d) := by
  revert hd
  revert d
  decide

/-! ## The loops -/

/-- The digits come out lowest first.
kernel/nd_klibc.c:126-130 -/
theorem digitLoop_eq (hb : 1 < base) (hdigit : ∀ d < base, digit d = charByte (Nat.digitChar d))
    (n : ℕ) :
    ∀ value len tmp, 0 < value → (numeral base value).length < n →
      len + (numeral base value).length ≤ 24 →
      ∃ tmp', digitLoop base digit n value len tmp = .ok (len + (numeral base value).length, tmp') ∧
        Slice tmp' len (numeral base value).reverse ∧ ∀ x < len, tmp' x = tmp x := by
  induction n with
  | zero => exact fun value len tmp _ hn => absurd hn (Nat.not_lt_zero _)
  | succ n ih =>
    intro value len tmp hpos hn hroom
    have hlen := length_numeral_pos base value
    have hmod := hdigit (value % base) (Nat.mod_lt _ (by omega))
    have hstore := storeTmp_eq (show len < 24 by omega) (digit (value % base)) tmp
    unfold digitLoop
    rw [if_pos hpos, hstore]
    simp only [bind, Except.bind]
    by_cases hsmall : value < base
    · have hnum := numeral_digit hsmall
      have hrest : digitLoop base digit n (value / base) (len + 1)
        (update tmp len (digit (value % base))) =
          .ok (len + 1, update tmp len (digit (value % base))) := by
        rw [hnum] at hn
        obtain ⟨n, rfl⟩ : ∃ m, n = m + 1 := ⟨n - 1, by simp at hn; omega⟩
        unfold digitLoop
        rw [Nat.div_eq_of_lt hsmall]
        exact if_neg (lt_irrefl 0)
      rw [hnum, hrest]
      refine ⟨_, rfl, fun i x hx => ?_, fun x hx => Function.update_of_ne (by omega) _ _⟩
      obtain ⟨rfl, rfl⟩ : i = 0 ∧ charByte (Nat.digitChar value) = x := by
        cases i with
        | zero => exact ⟨rfl, by simpa using hx⟩
        | succ i => simp at hx
      rw [Nat.add_zero, Function.update_self, hmod, Nat.mod_eq_of_lt hsmall]
    · have hnum := numeral_step hb (Nat.le_of_not_lt hsmall)
      have hcount : (numeral base value).length = (numeral base (value / base)).length + 1 := by
        rw [hnum, List.length_append]
        rfl
      obtain ⟨tmp', heq, hslice, hbelow⟩ := ih (value / base) (len + 1)
        (update tmp len (digit (value % base))) (Nat.div_pos (Nat.le_of_not_lt hsmall) (by omega))
        (by omega) (by omega)
      rw [heq, hcount]
      refine ⟨tmp', by rw [Nat.add_assoc, Nat.add_comm 1], ?_, fun x hx => ?_⟩
      · rw [hnum, List.reverse_append]
        refine Slice.append (fun i x hx => ?_) hslice
        obtain ⟨rfl, rfl⟩ : i = 0 ∧ charByte (Nat.digitChar (value % base)) = x := by
          cases i with
          | zero => exact ⟨rfl, by simpa using hx⟩
          | succ i => simp at hx
        rw [Nat.add_zero, hbelow len (by omega), Function.update_self, hmod]
      · rw [hbelow x (by omega), Function.update_of_ne (by omega)]

/-- The two indices meet in the middle.
kernel/nd_klibc.c:132-136 -/
theorem swapLoop_eq (n : ℕ) :
    ∀ i j tmp, j < 24 → j - i < n →
      ∃ tmp', swapLoop n i j tmp = .ok tmp' ∧ (∀ x, i ≤ x → x ≤ j → tmp' x = tmp (i + j - x)) ∧
        ∀ x, x < i ∨ j < x → tmp' x = tmp x := by
  induction n with
  | zero => exact fun i j tmp _ hn => absurd hn (Nat.not_lt_zero _)
  | succ n ih =>
    intro i j tmp hj hn
    unfold swapLoop
    by_cases hij : i < j
    · rw [if_pos hij, storeTmp_eq (by omega)]
      simp only [bind, Except.bind]
      rw [storeTmp_eq hj]
      simp only
      obtain ⟨tmp', heq, hin, hout⟩ := ih (i + 1) (j - 1) (update (update tmp i (tmp j)) j (tmp i))
        (by omega) (by omega)
      refine ⟨tmp', heq, fun x hx hx' => ?_, fun x hx => ?_⟩
      · by_cases hi : x = i
        · rw [hi, hout i (.inl (by omega)), Function.update_of_ne (by omega), Function.update_self]
          congr 1
          omega
        · by_cases hj' : x = j
          · rw [hj', hout j (.inr (by omega)), Function.update_self]
            congr 1
            omega
          · rw [hin x (by omega) (by omega), Function.update_of_ne (by omega),
              Function.update_of_ne (by omega)]
            congr 1
            omega
      · rw [hout x (by omega), Function.update_of_ne (by omega), Function.update_of_ne (by omega)]
    · rw [if_neg hij]
      refine ⟨tmp, rfl, fun x hx hx' => ?_, fun x _ => rfl⟩
      congr 1
      omega

/-- What is turned round reads backwards. -/
theorem Slice.turn (h : Slice tmp start l.reverse) (hpos : 0 < l.length)
    (hin : ∀ x, start ≤ x → x ≤ start + l.length - 1 →
      tmp' x = tmp (start + (start + l.length - 1) - x)) :
    Slice tmp' start l := by
  intro i x hx
  obtain ⟨hi, hxi⟩ := List.getElem?_eq_some_iff.mp hx
  rw [hin _ (by omega) (by omega), show start + (start + l.length - 1) - (start + i) =
    start + (l.length - 1 - i) by omega]
  apply h
  rw [List.getElem?_reverse (by omega), show l.length - 1 - (l.length - 1 - i) = i by omega]
  exact hx

/-- The numeral of a number of at most 64 bits, behind at most a sign.
kernel/nd_klibc.c:119-137 -/
theorem putNumber_eq {L : ℕ} (hL : L ≤ 64) (hb : 10 ≤ base)
    (hdigit : ∀ d < base, digit d = charByte (Nat.digitChar d)) (hvalue : value < 2 ^ L)
      (hstart : start ≤ 1)
    (tmp : Mem) :
    ∃ tmp', putNumber (L := L) base digit value start tmp =
        .ok (start + (numeral base value).length, tmp') ∧
      Slice tmp' start (numeral base value) ∧ ∀ x < start, tmp' x = tmp x := by
  unfold putNumber
  by_cases hzero : value = 0
  · rw [if_pos hzero, storeTmp_eq (by omega), hzero, numeral_zero]
    refine ⟨_, rfl, fun i x hx => ?_, fun x hx => Function.update_of_ne (by omega) _ _⟩
    obtain ⟨rfl, rfl⟩ : i = 0 ∧ asciiZero = x := by
      cases i with
      | zero => exact ⟨rfl, by simpa using hx⟩
      | succ i => simp at hx
    exact Function.update_self _ _ _
  · have hpos : 0 < value := Nat.pos_of_ne_zero hzero
    have hlen := length_numeral_pos base value
    have htwenty : (numeral base value).length ≤ 20 := by
      apply length_numeral_le (by omega) (by omega)
      calc value < 2 ^ L := hvalue
        _ ≤ 2 ^ 64 := Nat.pow_le_pow_right (by omega) hL
        _ ≤ 10 ^ 20 := by norm_num
        _ ≤ base ^ 20 := Nat.pow_le_pow_left hb 20
    have hbits : (numeral base value).length ≤ L := by
      have hLpos : 0 < L := by
        by_contra hL0
        rw [show L = 0 by omega] at hvalue
        omega
      apply length_numeral_le (by omega) hLpos
      exact hvalue.trans_le (Nat.pow_le_pow_left (by omega) L)
    obtain ⟨tmp₁, hloop, hslice, hbelow⟩ :=
      digitLoop_eq (by omega) hdigit (L + 1) value start tmp hpos (by omega) (by omega)
    obtain ⟨tmp₂, hswap, hin, hout⟩ := swapLoop_eq (start + (numeral base value).length + 1) start
      (start + (numeral base value).length - 1) tmp₁ (by omega) (by omega)
    rw [if_neg hzero, hloop]
    simp only [bind, Except.bind]
    rw [hswap]
    refine ⟨tmp₂, rfl, hslice.turn hlen hin, fun x hx => ?_⟩
    rw [hout x (.inl hx), hbelow x hx]

end NerdRtos
