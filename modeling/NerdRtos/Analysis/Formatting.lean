import NerdRtos.Analysis.FormatNumbers
import Mathlib.Data.List.TakeWhile

/-!
# What `nd_vsnprintf` puts

A format is a list of characters and conversions, and perhaps the beginning of one that its NUL cuts
off. The loop renders item by item, and the buffer holds as much of the rendering as it has room
for. The NUL of a conversion that is cut off is taken for its last character, and the loop goes on
behind it.
-/

set_option autoImplicit false

namespace NerdRtos

open Bytes (Mem)
open Function (update)

variable {L : ℕ}

/-! ## Formats -/

/-- A digit of a width. -/
def isDigit (c : BitVec 8) : Bool := asciiZero ≤ c && c ≤ 0x39

/-- A character that is not `'%'`, or a conversion. -/
inductive FormatItem
  | lit (c : BitVec 8)
  | conv (left : Bool) (width : List (BitVec 8)) (long : Bool) (spec : BitVec 8)
  deriving DecidableEq, Repr

/-- What stands between `'%'` and the last character of a conversion. -/
def flagBytes (left : Bool) (width : List (BitVec 8)) (long : Bool) : List (BitVec 8) :=
  (if left then [asciiMinus] else []) ++ width ++ if long then [asciiEll] else []

/-- The characters of an item. -/
def FormatItem.bytes : FormatItem → List (BitVec 8)
  | lit c => [c]
  | conv left width long spec => asciiPercent :: (flagBytes left width long ++ [spec])

/-- `spec` ends a conversion with these flags. -/
def EndsFlags (left : Bool) (width : List (BitVec 8)) (long : Bool) (spec : BitVec 8) : Prop :=
  long = false → isDigit spec = false ∧ spec ≠ asciiEll ∧
    (left = false → width = [] → spec ≠ asciiMinus)

/-- The item is read back from its characters. -/
def FormatItem.Parses : FormatItem → Prop
  | lit c => c ≠ 0 ∧ c ≠ asciiPercent
  | conv left width long spec =>
    (∀ c ∈ width, isDigit c = true) ∧ spec ≠ 0 ∧ EndsFlags left width long spec

/-- The number that the digits `width` stand for. -/
def widthValue (width : List (BitVec 8)) : ℕ := width.foldl (fun n c => n * 10 + (c.toNat - 48)) 0

/-- A literal character, or a conversion that the code knows: an optional minus, a width below `2 ^
32`, an optional `l`, and one of `d u x s c %`. -/
def FormatItem.Complete : FormatItem → Prop
  | lit c => c ≠ 0 ∧ c ≠ asciiPercent
  | conv _ width _ spec =>
    (∀ c ∈ width, isDigit c = true) ∧ widthValue width < 2 ^ 32 ∧
      spec ∈ [0x64, 0x75, 0x78, 0x73, 0x63, asciiPercent]

/-- The items of a format, and a conversion that it ends in. -/
def scanFrom : ℕ → List (BitVec 8) → List FormatItem × List (BitVec 8)
  | 0, _ => ([], [])
  | _ + 1, [] => ([], [])
  | n + 1, c :: l =>
    if c ≠ asciiPercent then (.lit c :: (scanFrom n l).1, (scanFrom n l).2)
    else
      let left : Bool := l.headD 0 = asciiMinus
      let l₁ := if left then l.tail else l
      let l₂ := l₁.dropWhile isDigit
      let long : Bool := l₂.headD 0 = asciiEll
      match if long then l₂.tail else l₂ with
      | [] => ([], c :: l)
      | spec :: rest =>
        (.conv left (l₁.takeWhile isDigit) long spec :: (scanFrom n rest).1, (scanFrom n rest).2)

/-- The items of a format, and a conversion that it ends in. -/
def scan (fmt : List (BitVec 8)) : List FormatItem × List (BitVec 8) := scanFrom fmt.length fmt

/-! ## Renderings -/

/-- A signed decimal numeral. -/
def signedNumeral (v : ℤ) : List (BitVec 8) :=
  if v < 0 then asciiMinus :: numeral 10 v.natAbs else numeral 10 v.natAbs

/-- The argument of a signed conversion, and those after it. -/
def signedValue (long : Bool) (args : List (PrintArg L)) : Option (ℤ × List (PrintArg L)) :=
  match long, args with
  | true, .long v :: args => some (v.toInt, args)
  | false, .int v :: args => some (v.toInt, args)
  | _, _ => none

/-- The argument of an unsigned conversion, and those after it. -/
def unsignedValue (long : Bool) (args : List (PrintArg L)) : Option (ℕ × List (PrintArg L)) :=
  match long, args with
  | true, .long v :: args => some (v.toNat, args)
  | false, .int v :: args => some (v.toNat, args)
  | _, _ => none

/-- What a conversion makes of its argument, and the arguments after it. There is nothing when the
argument does not match. -/
def convBody (long : Bool) (spec : BitVec 8) (args : List (PrintArg L)) :
    Option (List (BitVec 8) × List (PrintArg L)) :=
  if spec = 0x64 then (signedValue long args).map fun r => (signedNumeral r.1, r.2)
  else if spec = 0x75 then (unsignedValue long args).map fun r => (numeral 10 r.1, r.2)
  else if spec = 0x78 then (unsignedValue long args).map fun r => (numeral 16 r.1, r.2)
  else if spec = 0x73 then
    match args with
    | .str s :: args => some (s.getD nullText, args)
    | _ => none
  else if spec = 0x63 then
    match args with
    | .int v :: args => some ([v.setWidth 8], args)
    | _ => none
  else if spec = asciiPercent then some ([asciiPercent], args)
  else some ([asciiPercent, spec], args)

/-- Spaces to the width, on the right or on the left. -/
def padded (left : Bool) (width : ℕ) (body : List (BitVec 8)) : List (BitVec 8) :=
  if left then body ++ List.replicate (width - body.length) asciiSpace
  else List.replicate (width - body.length) asciiSpace ++ body

/-- The rendering of an item, and the arguments after it. The width is a number of 32 bits. -/
def FormatItem.render : FormatItem → List (PrintArg L) →
    Option (List (BitVec 8) × List (PrintArg L))
  | lit c, args => some ([c], args)
  | conv left width long spec, args =>
    (convBody long spec args).map fun r => (padded left (widthValue width % 2 ^ 32) r.1, r.2)

/-- The full rendering. There is one when the arguments match. -/
def rendering : List FormatItem → List (PrintArg L) → Option (List (BitVec 8))
  | [], _ => some []
  | it :: items, args =>
    (it.render args).bind fun r => (rendering items r.2).map fun R => r.1 ++ R

/-! ## The buffer -/

variable {size : BitVec 32} {buf₀ : Mem} {s : Printer L} {out body l tail width : List (BitVec 8)}
  {left long : Bool} {spec c : BitVec 8} {n : ℕ}

/-- The buffer holds what it has room for of `out`. -/
structure Holds (size : BitVec 32) (buf₀ : Mem) (s : Printer L) (out : List (BitVec 8)) : Prop where
  written : s.written.toNat = min (size.toNat - 1) out.length
  chars : Slice s.buf 0 (out.take (size.toNat - 1))
  rest : ∀ i, s.written.toNat ≤ i → s.buf i = buf₀ i

/-- What comes behind a full buffer is not stored. -/
theorem Holds.full (h : Holds size buf₀ s out) (hno : hasRoom size s = false)
    (l : List (BitVec 8)) :
    Holds size buf₀ s (out ++ l) := by
  have hw := h.written
  have hle : size.toNat - 1 ≤ out.length := by
    unfold hasRoom at hno
    simp only [decide_eq_false_iff_not] at hno
    omega
  refine ⟨by rw [List.length_append]; omega, ?_, h.rest⟩
  rw [List.take_append_of_le_length hle]
  exact h.chars

/-- While there is room, everything that was put out is stored. -/
theorem Holds.room (h : Holds size buf₀ s out) (hroom : hasRoom size s = true) :
    out.length < size.toNat - 1 ∧ s.written.toNat = out.length := by
  have hw := h.written
  unfold hasRoom at hroom
  simp only [decide_eq_true_eq] at hroom
  omega

/-- A character that finds room.
kernel/nd_klibc.c:4-9, kernel/nd_klibc.c:76-79 -/
theorem Holds.store (h : Holds size buf₀ s out) (hroom : hasRoom size s = true) (c : BitVec 8) :
    ∃ s', storeBuf size s.written.toNat c s = .ok s' ∧
      Holds size buf₀ { s' with written := s'.written + 1 } (out ++ [c]) ∧
      s'.args = s.args ∧ s'.tmp = s.tmp := by
  obtain ⟨hlt, hw⟩ := h.room hroom
  have hsize := size.isLt
  refine ⟨{ s with buf := update s.buf s.written.toNat c },
    if_pos (by omega), ⟨?_, fun i x hx => ?_, fun i hi => ?_⟩, rfl, rfl⟩
  · rw [List.length_append, List.length_singleton]
    show (s.written + 1).toNat = _
    bv_omega
  · have hi : i < out.length + 1 := by
      have hlen := (List.getElem?_eq_some_iff.mp hx).1
      rw [List.length_take, List.length_append, List.length_singleton] at hlen
      omega
    rw [List.getElem?_take_of_lt (by omega)] at hx
    show update s.buf s.written.toNat c (0 + i) = x
    rw [Nat.zero_add, hw]
    by_cases heq : i = out.length
    · rw [heq, Function.update_self]
      rw [heq] at hx
      simpa using hx
    · rw [Function.update_of_ne heq]
      rw [List.getElem?_append_left (by omega)] at hx
      have hold := h.chars i x (by rw [List.getElem?_take_of_lt (by omega)]; exact hx)
      rw [Nat.zero_add] at hold
      exact hold
  · have hi' : (s.written + 1).toNat ≤ i := hi
    show update s.buf s.written.toNat c i = _
    rw [Function.update_of_ne (by bv_omega)]
    exact h.rest i (by bv_omega)

/-- `BUF_PUTC` appends a byte to the output. -/
theorem Holds.putc (h : Holds size buf₀ s out) (c : BitVec 8) :
    ∃ s', bufPutc size c s = .ok s' ∧ Holds size buf₀ s' (out ++ [c]) ∧ s'.args = s.args := by
  unfold bufPutc
  by_cases hroom : hasRoom size s = true
  · obtain ⟨s', hs, hheld, hargs, -⟩ := h.store hroom c
    rw [if_pos hroom, hs]
    exact ⟨_, rfl, hheld, hargs⟩
  · rw [if_neg hroom]
    exact ⟨s, rfl, h.full (by simpa using hroom) [c], rfl⟩

/-- `BUF_PUTN` appends its bytes to the output. -/
theorem Holds.putn (l : List (BitVec 8)) :
    ∀ {s : Printer L} {out : List (BitVec 8)}, Holds size buf₀ s out →
      ∃ s', bufPutn size l s = .ok s' ∧ Holds size buf₀ s' (out ++ l) ∧ s'.args = s.args := by
  induction l with
  | nil =>
    intro s out h
    rw [List.append_nil]
    exact ⟨s, rfl, h, rfl⟩
  | cons c l ih =>
    intro s out h
    obtain ⟨s₁, hs₁, h₁, hargs₁⟩ := h.putc c
    obtain ⟨s₂, hs₂, h₂, hargs₂⟩ := ih h₁
    refine ⟨s₂, ?_, ?_, hargs₂.trans hargs₁⟩
    · unfold bufPutn
      rw [hs₁]
      exact hs₂
    · rw [List.append_cons]
      exact h₂

/-- Padding is the output of spaces. -/
theorem bufPad_eq (n : ℕ) (s : Printer L) :
    bufPad size n s = bufPutn size (List.replicate n asciiSpace) s := by
  induction n generalizing s with
  | zero => rfl
  | succ n ih =>
    rw [List.replicate_succ]
    unfold bufPad bufPutn
    simp only [ih]

/-- On the side of the padding there are as many spaces as the width wants. -/
theorem padSide_true (width len : ℕ) (s : Printer L) :
    padSide size true width len s = bufPutn size (List.replicate (width - len) asciiSpace) s := by
  unfold padSide
  by_cases hlt : len < width
  · rw [if_pos (by simpa using hlt), bufPad_eq]
  · rw [if_neg (by simpa using hlt), Nat.sub_eq_zero_of_le (by omega)]
    rfl

/-- On the other side there are none. -/
theorem padSide_false (width len : ℕ) (s : Printer L) : padSide size false width len s = .ok s :=
    rfl

/-- A conversion is put with its padding.
kernel/nd_klibc.c:216-224 -/
theorem Holds.putPadded (h : Holds size buf₀ s out) (left : Bool) (width : ℕ)
    (body : List (BitVec 8)) :
    ∃ s', putPadded size left width body s = .ok s' ∧
      Holds size buf₀ s' (out ++ padded left width body) ∧ s'.args = s.args := by
  unfold NerdRtos.putPadded padded
  cases left with
  | true =>
    obtain ⟨s₁, hs₁, h₁, hargs₁⟩ := h.putn body
    obtain ⟨s₂, hs₂, h₂, hargs₂⟩ := h₁.putn (List.replicate (width - body.length) asciiSpace)
    refine ⟨s₂, ?_, ?_, hargs₂.trans hargs₁⟩
    · rw [Bool.not_true, padSide_false]
      simp only [bind, Except.bind, hs₁]
      rw [padSide_true, hs₂]
    · rw [if_pos rfl, ← List.append_assoc]
      exact h₂
  | false =>
    obtain ⟨s₁, hs₁, h₁, hargs₁⟩ := h.putn (List.replicate (width - body.length) asciiSpace)
    obtain ⟨s₂, hs₂, h₂, hargs₂⟩ := h₁.putn body
    refine ⟨s₂, ?_, ?_, hargs₂.trans hargs₁⟩
    · rw [Bool.not_false, padSide_true, hs₁]
      simp only [bind, Except.bind, hs₂]
      exact padSide_false _ _ _
    · rw [if_neg (by simp), ← List.append_assoc]
      exact h₂

/-! ## Conversions -/

/-- The test for a sign is the sign of the number. -/
theorem slt_zero_iff (v : BitVec L) : v.slt 0 = true ↔ v.toInt < 0 := by
  rw [BitVec.slt_iff_toInt_lt]
  show v.toInt < (0#L).toInt ↔ _
  rw [BitVec.toInt_zero]

/-- The magnitude of a negative number, the most negative one included. -/
theorem toNat_neg_of_neg (v : BitVec L) (h : v.toInt < 0) : (-v).toNat = v.toInt.natAbs := by
  have hlt := v.isLt
  rw [BitVec.toInt_eq_toNat_cond] at h ⊢
  rw [BitVec.toNat_neg]
  generalize 2 ^ L = M at h hlt ⊢
  by_cases hsmall : 2 * v.toNat < M
  · rw [if_pos hsmall] at h
    omega
  · rw [if_neg hsmall, Nat.mod_eq_of_lt (by omega)]
    omega

/-- A number that is not negative is its own magnitude. -/
theorem toNat_of_nonneg (v : BitVec L) (h : ¬ v.toInt < 0) : v.toNat = v.toInt.natAbs := by
  have hlt := v.isLt
  rw [BitVec.toInt_eq_toNat_cond] at h ⊢
  generalize 2 ^ L = M at h hlt ⊢
  by_cases hsmall : 2 * v.toNat < M
  · rw [if_pos hsmall]
    rfl
  · rw [if_neg hsmall] at h
    omega

/-- `va_arg` takes an `int` off the arguments. -/
theorem vaInt_eq {v : BitVec 32} {rest : List (PrintArg L)} (h : s.args = .int v :: rest) :
    vaInt s = .ok (v, { s with args := rest }) := by
  unfold vaInt
  rw [h]

/-- `va_arg` takes a `long` off the arguments. -/
theorem vaLong_eq {v : BitVec L} {rest : List (PrintArg L)} (h : s.args = .long v :: rest) :
    vaLong s = .ok (v, { s with args := rest }) := by
  unfold vaLong
  rw [h]

/-- `va_arg` takes a string off the arguments. -/
theorem vaStr_eq {v : Option (List (BitVec 8))} {rest : List (PrintArg L)}
    (h : s.args = .str v :: rest) :
    vaStr s = .ok (v, { s with args := rest }) := by
  unfold vaStr
  rw [h]

/-- The argument of `%d`. -/
theorem signedArg_eq (hL : 32 ≤ L) {rest : List (PrintArg L)} {v : ℤ}
    (h : signedValue long s.args = some (v, rest)) :
    ∃ num : BitVec L, num.toInt = v ∧ signedArg long s = .ok (num, { s with args := rest }) := by
  unfold signedValue at h
  unfold signedArg
  split at h
  · rename_i w args hargs
    obtain ⟨rfl, rfl⟩ := Prod.mk.inj (Option.some.inj h)
    exact ⟨w, rfl, vaLong_eq hargs⟩
  · rename_i w args hargs
    obtain ⟨rfl, rfl⟩ := Prod.mk.inj (Option.some.inj h)
    refine ⟨w.signExtend L, BitVec.toInt_signExtend_of_le hL, ?_⟩
    rw [vaInt_eq hargs]
    rfl
  · cases h

/-- The argument of `%u` and `%x`. -/
theorem unsignedArg_eq (hL : 32 ≤ L) {rest : List (PrintArg L)} {v : ℕ}
    (h : unsignedValue long s.args = some (v, rest)) :
    ∃ num : BitVec L, num.toNat = v ∧ unsignedArg long s = .ok (num, { s with args := rest }) := by
  unfold unsignedValue at h
  unfold unsignedArg
  split at h
  · rename_i w args hargs
    obtain ⟨rfl, rfl⟩ := Prod.mk.inj (Option.some.inj h)
    exact ⟨w, rfl, vaLong_eq hargs⟩
  · rename_i w args hargs
    obtain ⟨rfl, rfl⟩ := Prod.mk.inj (Option.some.inj h)
    refine ⟨w.setWidth L, ?_, ?_⟩
    · have hlt : w.toNat < 2 ^ L := w.isLt.trans_le (Nat.pow_le_pow_right (by omega) hL)
      rw [BitVec.toNat_setWidth, Nat.mod_eq_of_lt hlt]
    · rw [vaInt_eq hargs]
      rfl
  · cases h

/-- `%d`.
kernel/nd_klibc.c:108-139 -/
theorem printSigned_eq (hL : 32 ≤ L ∧ L ≤ 64) {rest : List (PrintArg L)} {v : ℤ}
    (h : signedValue long s.args = some (v, rest)) :
    ∃ tmp, printSigned long s = .ok (signedNumeral v, { s with tmp, args := rest }) := by
  obtain ⟨num, rfl, harg⟩ := signedArg_eq hL.1 h
  have hdec : ∀ d < 10, decDigit d = charByte (Nat.digitChar d) := fun d hd => decDigit_eq hd
  unfold printSigned signedNumeral
  rw [harg]
  simp only [bind, Except.bind]
  by_cases hneg : num.toInt < 0
  · obtain ⟨tmp, hput, hslice, hbelow⟩ := putNumber_eq hL.2 le_rfl hdec (-num).isLt le_rfl
      (update s.tmp 0 asciiMinus)
    rw [if_pos ((slt_zero_iff num).mpr hneg), if_pos hneg, storeTmp_eq (by omega)]
    simp only
    rw [hput, toNat_neg_of_neg num hneg]
    rw [toNat_neg_of_neg num hneg] at hslice
    refine ⟨tmp, ?_⟩
    have hout : Slice tmp 0 (asciiMinus :: numeral 10 num.toInt.natAbs) := by
      refine Slice.append (l := [asciiMinus]) (fun i x hx => ?_) hslice
      obtain ⟨rfl, rfl⟩ : i = 0 ∧ asciiMinus = x := by
        cases i with
        | zero => exact ⟨rfl, by simpa using hx⟩
        | succ i => simp at hx
      rw [hbelow _ (by omega)]
      exact Function.update_self _ _ _
    have hlen := tmpOut_eq hout
    rw [List.length_cons, Nat.add_comm] at hlen
    simp only [hlen]
  · obtain ⟨tmp, hput, hslice, -⟩ := putNumber_eq hL.2 le_rfl hdec num.isLt (Nat.zero_le 1) s.tmp
    rw [if_neg fun hslt => hneg ((slt_zero_iff num).mp hslt), if_neg hneg, hput,
      toNat_of_nonneg num hneg, Nat.zero_add]
    rw [toNat_of_nonneg num hneg] at hslice
    refine ⟨tmp, ?_⟩
    simp only [tmpOut_eq hslice]

/-- `%u` and `%x`.
kernel/nd_klibc.c:140-195 -/
theorem printUnsigned_eq (hL : 32 ≤ L ∧ L ≤ 64) {base : ℕ} {digit : ℕ → BitVec 8} (hb : 10 ≤ base)
    (hdigit : ∀ d < base, digit d = charByte (Nat.digitChar d)) {rest : List (PrintArg L)} {v : ℕ}
    (h : unsignedValue long s.args = some (v, rest)) :
    ∃ tmp, printUnsigned base digit long s = .ok (numeral base v,
      { s with tmp, args := rest }) := by
  obtain ⟨num, rfl, harg⟩ := unsignedArg_eq hL.1 h
  obtain ⟨tmp, hput, hslice, -⟩ := putNumber_eq hL.2 hb hdigit num.isLt (Nat.zero_le 1) s.tmp
  unfold printUnsigned
  rw [harg]
  simp only [bind, Except.bind]
  rw [hput, Nat.zero_add]
  exact ⟨tmp, by simp only [tmpOut_eq hslice]⟩

/-- A conversion that matches its argument gives its body.
kernel/nd_klibc.c:107-214 -/
theorem convert_eq (hL : 32 ≤ L ∧ L ≤ 64) {rest : List (PrintArg L)}
    (h : convBody long spec s.args = some (body, rest)) :
    ∃ tmp, convert long spec s = .ok (body, { s with tmp, args := rest }) := by
  have hdec : ∀ d < 10, decDigit d = charByte (Nat.digitChar d) := fun d hd => decDigit_eq hd
  have hhex : ∀ d < 16, hexDigit d = charByte (Nat.digitChar d) := fun d hd => hexDigit_eq hd
  unfold convBody at h
  unfold convert
  split at h
  · rename_i hd
    obtain ⟨⟨v, rest'⟩, hv, hr⟩ := Option.map_eq_some_iff.mp h
    obtain ⟨rfl, rfl⟩ := Prod.mk.inj hr
    rw [if_pos hd]
    exact printSigned_eq hL hv
  · rename_i hd
    rw [if_neg hd]
    split at h
    · rename_i hu
      obtain ⟨⟨v, rest'⟩, hv, hr⟩ := Option.map_eq_some_iff.mp h
      obtain ⟨rfl, rfl⟩ := Prod.mk.inj hr
      rw [if_pos hu]
      exact printUnsigned_eq hL le_rfl hdec hv
    · rename_i hu
      rw [if_neg hu]
      split at h
      · rename_i hx
        obtain ⟨⟨v, rest'⟩, hv, hr⟩ := Option.map_eq_some_iff.mp h
        obtain ⟨rfl, rfl⟩ := Prod.mk.inj hr
        rw [if_pos hx]
        exact printUnsigned_eq hL (by omega) hhex hv
      · rename_i hx
        rw [if_neg hx]
        split at h
        · rename_i hs
          rw [if_pos hs]
          split at h
          · rename_i v args hargs
            obtain ⟨rfl, rfl⟩ := Prod.mk.inj (Option.some.inj h)
            rw [vaStr_eq hargs]
            exact ⟨s.tmp, rfl⟩
          · cases h
        · rename_i hs
          rw [if_neg hs]
          split at h
          · rename_i hc
            rw [if_pos hc]
            split at h
            · rename_i v args hargs
              obtain ⟨rfl, rfl⟩ := Prod.mk.inj (Option.some.inj h)
              rw [vaInt_eq hargs]
              exact ⟨update s.tmp 0 (v.setWidth 8), by simp [bind, Except.bind, storeTmp, tmpOut]⟩
            · cases h
          · rename_i hc
            rw [if_neg hc]
            split at h
            · rename_i hp
              obtain ⟨rfl, rfl⟩ := Prod.mk.inj (Option.some.inj h)
              rw [if_pos hp]
              exact ⟨update s.tmp 0 asciiPercent, by simp [bind, Except.bind, storeTmp, tmpOut]⟩
            · rename_i hp
              obtain ⟨rfl, rfl⟩ := Prod.mk.inj (Option.some.inj h)
              rw [if_neg hp]
              exact ⟨update (update s.tmp 0 asciiPercent) 1 spec,
                by simp [bind, Except.bind, storeTmp, tmpOut, List.range_succ]⟩

/-- The loop that reads the width stops at the first character that is no digit. -/
theorem readWidth_eq (hw : ∀ c ∈ width, isDigit c = true) (htail : isDigit (tail.headD 0) = false) :
    ∀ acc, readWidth (width ++ tail) acc =
      (width.foldl (fun a c => a * 10 + (c - asciiZero).setWidth 32) acc, tail) := by
  induction width with
  | nil =>
    intro acc
    cases tail with
    | nil => rfl
    | cons c tail =>
      have hc : ¬ (asciiZero ≤ c ∧ c ≤ 0x39) := by
        simpa [isDigit] using htail
      exact if_neg hc
  | cons c width ih =>
    intro acc
    have hc : asciiZero ≤ c ∧ c ≤ 0x39 := by
      simpa [isDigit] using hw c (by simp)
    rw [List.cons_append]
    unfold readWidth
    rw [if_pos hc, ih fun b hb => hw b (by simp [hb])]
    rfl

/-- The width that was read, as a number of 32 bits. -/
theorem toNat_width (hw : ∀ c ∈ width, isDigit c = true) :
    ∀ (acc : BitVec 32) (n : ℕ), acc.toNat = n % 2 ^ 32 →
      (width.foldl (fun a c => a * 10 + (c - asciiZero).setWidth 32) acc).toNat =
        width.foldl (fun n c => n * 10 + (c.toNat - 48)) n % 2 ^ 32 := by
  induction width with
  | nil => exact fun acc n h => h
  | cons c width ih =>
    intro acc n h
    refine ih (fun b hb => hw b (by simp [hb])) _ _ ?_
    have hc : asciiZero ≤ c ∧ c ≤ 0x39 := by
      simpa [isDigit] using hw c (by simp)
    have hdigit : ((c - asciiZero).setWidth 32).toNat = c.toNat - 48 := by
      unfold asciiZero at hc ⊢
      rw [BitVec.toNat_setWidth]
      bv_omega
    rw [BitVec.toNat_add, BitVec.toNat_mul, hdigit, h]
    show (n % 2 ^ 32 * 10 % 2 ^ 32 + (c.toNat - 48)) % 2 ^ 32 = (n * 10 + (c.toNat - 48)) % 2 ^ 32
    omega

/-- The flags of a conversion are read back. -/
theorem conversion_flags (hw : ∀ c ∈ width, isDigit c = true)
    (hends : EndsFlags left width long (tail.headD 0)) (s : Printer L) :
    conversion size (flagBytes left width long ++ tail) s = (do
      let (out, s) ← convert long (tail.headD 0) s
      let s ← putPadded size left (widthValue width % 2 ^ 32) out s
      .ok (some tail, s)) := by
  have hrest : flagBytes left width long ++ tail =
      (if left then [asciiMinus] else []) ++
          (width ++ ((if long then [asciiEll] else []) ++ tail)) := by
    unfold flagBytes
    rw [List.append_assoc, List.append_assoc]
  have hlong : decide (((if long then [asciiEll] else []) ++ tail).headD 0 = asciiEll) = long ∧
      isDigit (((if long then [asciiEll] else []) ++ tail).headD 0) = false := by
    cases long with
    | true => exact ⟨by simp, rfl⟩
    | false => exact ⟨by simpa using (hends rfl).2.1, (hends rfl).1⟩
  have htail : (if long then ((if long then [asciiEll] else []) ++ tail).tail
      else (if long then [asciiEll] else []) ++ tail) = tail := by
    cases long <;> rfl
  have hleft : decide ((flagBytes left width long ++ tail).headD 0 = asciiMinus) = left := by
    rw [hrest]
    cases left with
    | true => simp
    | false =>
      cases hwidth : width with
      | nil =>
        cases long with
        | true => simp [asciiEll, asciiMinus]
        | false => simpa using (hends rfl).2.2 rfl hwidth
      | cons c width =>
        have hc := hw c (by simp [hwidth])
        simp only [Bool.false_eq_true, if_false, List.nil_append, List.cons_append, List.headD_cons,
          decide_eq_false_iff_not]
        rintro rfl
        cases hc
  have hbody : (if left then (flagBytes left width long ++ tail).tail
    else flagBytes left width long ++ tail) =
      width ++ ((if long then [asciiEll] else []) ++ tail) := by
    rw [hrest]
    cases left <;> rfl
  have hwidth := toNat_width hw 0 0 rfl
  unfold conversion
  simp only [hleft, hbody, readWidth_eq hw hlong.2, hlong.1, htail, hwidth]
  rfl

/-- A conversion is rendered.
kernel/nd_klibc.c:82-226 -/
theorem Holds.conversion (tail : List (BitVec 8)) (hL : 32 ≤ L ∧ L ≤ 64) (h : Holds size buf₀ s out)
    (hw : ∀ c ∈ width, isDigit c = true) (hends : EndsFlags left width long (tail.headD 0))
    {rest : List (PrintArg L)} (hbody : convBody long (tail.headD 0) s.args = some (body, rest)) :
    ∃ s', conversion size (flagBytes left width long ++ tail) s = .ok (some tail, s') ∧
      Holds size buf₀ s' (out ++ padded left (widthValue width % 2 ^ 32) body) ∧
        s'.args = rest := by
  obtain ⟨tmp, hconv⟩ := convert_eq hL hbody
  have hheld : Holds size buf₀ { s with tmp, args := rest } out := ⟨h.written, h.chars, h.rest⟩
  obtain ⟨s', hput, hheld', hargs⟩ := hheld.putPadded left (widthValue width % 2 ^ 32) body
  refine ⟨s', ?_, hheld', hargs⟩
  rw [conversion_flags hw hends, hconv]
  simp only [bind, Except.bind]
  rw [hput]

/-! ## The loop -/

/-- What is left of a format behind its items: nothing, or a conversion without its last
character. -/
def Cut (tail : List (BitVec 8)) : Prop :=
  tail = [] ∨ ∃ left width long, (∀ c ∈ width, isDigit c = true) ∧
    tail = asciiPercent :: flagBytes left width long

/-- There is no more room, and the loop ends. -/
theorem printLoop_full {c : BitVec 8} (hno : hasRoom size s = false) :
    printLoop size (n + 1) (some (c :: l)) s = .ok s := by
  unfold printLoop
  simp [Cursor.get, bind, Except.bind, hno]

/-- A turn of the loop for a byte that is printed as it is. -/
theorem printLoop_lit (hc : c ≠ 0 ∧ c ≠ asciiPercent) (hroom : hasRoom size s = true) :
    printLoop size (n + 1) (some (c :: l)) s = (do
      let s ← storeBuf size s.written.toNat c s
      printLoop size n (some l) { s with written := s.written + 1 }) := by
  have hne : ¬ c = 0#8 := hc.1
  conv_lhs => unfold printLoop
  simp [Cursor.get, Cursor.next, bind, Except.bind, hroom, hne, hc.2]

/-- A turn of the loop for a conversion. -/
theorem printLoop_conv (hroom : hasRoom size s = true) :
    printLoop size (n + 1) (some (asciiPercent :: l)) s = (do
      let (fmt, s) ← conversion size l s
      printLoop size n fmt.next s) := by
  have hne : ¬ asciiPercent = 0#8 := by decide
  conv_lhs => unfold printLoop
  simp [Cursor.get, Cursor.next, bind, Except.bind, hroom, hne]

/-- The end of a format. Behind a conversion that its NUL cuts off the loop reads on. -/
theorem printLoop_tail (hL : 32 ≤ L ∧ L ≤ 64) (h : Holds size buf₀ s out) (hcut : Cut tail)
    (hn : 2 ≤ n) :
    (tail = [] ∨ size.toNat - 1 ≤ out.length → printLoop size n (some tail) s = .ok s) ∧
      (¬ (tail = [] ∨ size.toNat - 1 ≤ out.length) →
        printLoop size n (some tail) s = .error .fmt) := by
  obtain ⟨n, rfl⟩ : ∃ m, n = m + 2 := ⟨n - 2, by omega⟩
  rcases hcut with rfl | ⟨left, width, long, hw, rfl⟩
  · refine ⟨fun _ => ?_, fun hno => absurd (.inl rfl) hno⟩
    unfold printLoop
    simp [Cursor.get, bind, Except.bind]
  · cases hroom : hasRoom size s with
    | false =>
      have hw := h.written
      refine ⟨fun _ => printLoop_full hroom, fun hno => absurd (.inr ?_) hno⟩
      unfold hasRoom at hroom
      simp only [decide_eq_false_iff_not] at hroom
      omega
    | true =>
      obtain ⟨hlt, -⟩ := h.room hroom
      refine ⟨fun hor => hor.elim
        (fun hnil => by cases hnil) fun hle => absurd hle (by omega), fun _ => ?_⟩
      have hends : EndsFlags left width long (([] : List (BitVec 8)).headD 0) :=
        fun _ => ⟨by decide, by decide, fun _ _ => by decide⟩
      have hbody : convBody long (([] : List (BitVec 8)).headD 0) s.args =
          some ([asciiPercent, 0], s.args) := rfl
      obtain ⟨s', hconv, -, -⟩ := h.conversion [] hL hw hends hbody
      rw [List.append_nil] at hconv
      rw [printLoop_conv hroom, hconv]
      rfl

/-- The loop renders the items, as far as there is room, and goes on to what is behind them. -/
theorem printLoop_items (hL : 32 ≤ L ∧ L ≤ 64) (hcut : Cut tail) (items : List FormatItem) :
    ∀ {s : Printer L} {out R : List (BitVec 8)} {n : ℕ}, (∀ it ∈ items, it.Parses) →
      Holds size buf₀ s out → rendering items s.args = some R →
      (items.flatMap FormatItem.bytes ++ tail).length + 2 ≤ n →
      (tail = [] ∨ size.toNat - 1 ≤ (out ++ R).length →
        ∃ s', printLoop size n (some (items.flatMap FormatItem.bytes ++ tail)) s = .ok s' ∧
          Holds size buf₀ s' (out ++ R)) ∧
      (¬ (tail = [] ∨ size.toNat - 1 ≤ (out ++ R).length) →
        printLoop size n (some (items.flatMap FormatItem.bytes ++ tail)) s = .error .fmt) := by
  induction items with
  | nil =>
    intro s out R n _ h hR hn
    obtain rfl : [] = R := Option.some.inj hR
    rw [List.append_nil]
    obtain ⟨hok, herr⟩ := printLoop_tail hL h hcut (show 2 ≤ n by omega)
    exact ⟨fun hor => ⟨s, hok hor, h⟩, herr⟩
  | cons it items ih =>
    intro s out R n hparse h hR hn
    obtain ⟨n, rfl⟩ : ∃ m, n = m + 1 := ⟨n - 1, by omega⟩
    obtain ⟨⟨b, rest⟩, hit, hrest⟩ := Option.bind_eq_some_iff.mp hR
    obtain ⟨R', hR', rfl⟩ := Option.map_eq_some_iff.mp hrest
    have hp := hparse it (by simp)
    have hps : ∀ it ∈ items, it.Parses := fun it hit => hparse it (by simp [hit])
    have hfull : ∀ c l, it.bytes = c :: l → hasRoom size s = false →
        size.toNat - 1 ≤ (out ++ (b ++ R')).length ∧
          printLoop size (n + 1) (some ((it :: items).flatMap FormatItem.bytes ++ tail)) s =
              .ok s := by
      intro c l hbytes hno
      have hw := (h.full hno (b ++ R')).written
      refine ⟨?_, ?_⟩
      · unfold hasRoom at hno
        simp only [decide_eq_false_iff_not] at hno
        omega
      · rw [List.flatMap_cons, hbytes]
        exact printLoop_full hno
    have hlen : (items.flatMap FormatItem.bytes ++ tail).length + 2 ≤ n := by
      have hpos : 0 < it.bytes.length := by
        cases it <;> exact Nat.succ_pos _
      rw [List.flatMap_cons, List.append_assoc, List.length_append] at hn
      omega
    have hassoc : out ++ (b ++ R') = out ++ b ++ R' := (List.append_assoc _ _ _).symm
    cases it with
    | lit c =>
      cases hroom : hasRoom size s with
      | false =>
        obtain ⟨hle, hloop⟩ := hfull c [] rfl hroom
        exact ⟨fun _ => ⟨s, hloop, h.full hroom _⟩, fun hno => absurd (.inr hle) hno⟩
      | true =>
        obtain ⟨rfl, rfl⟩ := Prod.mk.inj (Option.some.inj hit)
        obtain ⟨s', hs', hheld, hargs, -⟩ := h.store hroom c
        have hnext := ih (n := n) hps hheld (by rw [← hR', ← hargs]) hlen
        have hloop : printLoop size (n + 1)
            (some ((FormatItem.lit c :: items).flatMap FormatItem.bytes ++ tail)) s =
            printLoop size n (some (items.flatMap FormatItem.bytes ++ tail))
              { s' with written := s'.written + 1 } := by
          show printLoop size (n + 1) (some (c :: (items.flatMap FormatItem.bytes ++ tail))) s = _
          rw [printLoop_lit hp hroom, hs']
          rfl
        rw [hloop, hassoc]
        exact hnext
    | conv left width long spec =>
      cases hroom : hasRoom size s with
      | false =>
        obtain ⟨hle, hloop⟩ := hfull _ _ rfl hroom
        exact ⟨fun _ => ⟨s, hloop, h.full hroom _⟩, fun hno => absurd (.inr hle) hno⟩
      | true =>
        obtain ⟨⟨body, rest'⟩, hbody, hpair⟩ := Option.map_eq_some_iff.mp hit
        obtain ⟨rfl, rfl⟩ := Prod.mk.inj hpair
        obtain ⟨s', hs', hheld, hargs⟩ := h.conversion
          (spec :: (items.flatMap FormatItem.bytes ++ tail)) hL hp.1 hp.2.2 hbody
        have hnext := ih (n := n) hps hheld (by rw [← hR', ← hargs]) hlen
        have hloop : printLoop size (n + 1)
            (some ((FormatItem.conv left width long spec :: items).flatMap FormatItem.bytes ++
              tail)) s =
            printLoop size n (some (items.flatMap FormatItem.bytes ++ tail)) s' := by
          have hlist : (FormatItem.conv left width long spec :: items).flatMap FormatItem.bytes ++
            tail =
              asciiPercent :: (flagBytes left width long ++
                spec :: (items.flatMap FormatItem.bytes ++ tail)) := by
            simp [FormatItem.bytes]
          rw [hlist, printLoop_conv hroom, hs']
          rfl
        rw [hloop, hassoc]
        exact hnext

/-! ## The items of a format -/

/-- A list with and without an optional first character. -/
theorem split_head {a : BitVec 8} (ha : a ≠ 0) (l : List (BitVec 8)) :
    (if decide (l.headD 0 = a) then [a] else []) ++ (if decide (l.headD 0 = a) then l.tail else l) =
      l := by
  cases l with
  | nil =>
    have hne : ¬ 0#8 = a := fun h => ha h.symm
    simp [hne]
  | cons c l =>
    by_cases hc : c = a
    · simp [hc]
    · simp [hc]

/-- Behind the digits there is no digit. -/
theorem headD_dropWhile (l : List (BitVec 8)) :
    isDigit ((l.dropWhile isDigit).headD 0) = false := by
  induction l with
  | nil => rfl
  | cons c l ih =>
    rw [List.dropWhile_cons]
    split
    · exact ih
    · rename_i hc
      simpa using hc

/-- The items and what is behind them are the format. -/
theorem scanFrom_eq (n : ℕ) :
    ∀ l, l.length ≤ n → (∀ c ∈ l, c ≠ 0) →
      (scanFrom n l).1.flatMap FormatItem.bytes ++ (scanFrom n l).2 = l ∧
        (∀ it ∈ (scanFrom n l).1, it.Parses) ∧ Cut (scanFrom n l).2 := by
  induction n with
  | zero =>
    intro l hl _
    obtain rfl : l = [] := List.length_eq_zero_iff.mp (Nat.le_zero.mp hl)
    exact ⟨rfl, fun it hit => (by cases hit), .inl rfl⟩
  | succ n ih =>
    intro l hl hnz
    cases l with
    | nil => exact ⟨rfl, fun it hit => (by cases hit), .inl rfl⟩
    | cons c l =>
      have hl' : l.length ≤ n := Nat.le_of_succ_le_succ hl
      unfold scanFrom
      by_cases hc : c ≠ asciiPercent
      · obtain ⟨hbytes, hparse, hcut⟩ := ih l hl' fun b hb => hnz b (by simp [hb])
        rw [if_pos hc]
        refine ⟨?_, fun it hit => ?_, hcut⟩
        · show c :: ((scanFrom n l).1.flatMap FormatItem.bytes ++ (scanFrom n l).2) = _
          rw [hbytes]
        · rcases List.mem_cons.mp hit with rfl | hit
          · exact ⟨hnz c (by simp), hc⟩
          · exact hparse it hit
      · obtain rfl : c = asciiPercent := not_ne_iff.mp hc
        rw [if_neg hc]
        have hl₁ := split_head (show asciiMinus ≠ 0 by decide) l
        simp only
        generalize hleft : decide (l.headD 0 = asciiMinus) = left at hl₁ ⊢
        generalize hrest₁ : (if left then l.tail else l) = l₁ at hl₁ ⊢
        have hl₂ := split_head (show asciiEll ≠ 0 by decide) (l₁.dropWhile isDigit)
        generalize hlong : decide ((l₁.dropWhile isDigit).headD 0 = asciiEll) = long at hl₂ ⊢
        generalize hrest₃ :
          (if long then (l₁.dropWhile isDigit).tail else l₁.dropWhile isDigit) = l₃ at hl₂ ⊢
        have hwhole : flagBytes left (l₁.takeWhile isDigit) long ++ l₃ = l := by
          unfold flagBytes
          rw [List.append_assoc, List.append_assoc, hl₂, List.takeWhile_append_dropWhile, hl₁]
        have hdigits : ∀ c ∈ l₁.takeWhile isDigit, isDigit c = true :=
          fun c hc => List.mem_takeWhile_imp hc
        cases l₃ with
        | nil =>
          rw [List.append_nil] at hwhole
          exact ⟨rfl, fun it hit => (by cases hit), .inr ⟨left, _, long, hdigits, by rw [hwhole]⟩⟩
        | cons spec rest =>
          have hmem : ∀ b ∈ spec :: rest, b ∈ l := by
            intro b hb
            rw [← hwhole]
            exact List.mem_append_right _ hb
          have hlen : rest.length ≤ n := by
            have hlength := congrArg List.length hwhole
            rw [List.length_append, List.length_cons] at hlength
            omega
          obtain ⟨hbytes, hparse, hcut⟩ :=
            ih rest hlen fun b hb => hnz b (List.mem_cons_of_mem _ (hmem b (by simp [hb])))
          refine ⟨?_, fun it hit => ?_, hcut⟩
          · show asciiPercent :: (flagBytes left (l₁.takeWhile isDigit) long ++ [spec]) ++
              (scanFrom n rest).1.flatMap FormatItem.bytes ++ (scanFrom n rest).2 = _
            rw [List.append_assoc, hbytes, List.cons_append, List.append_assoc,
              List.singleton_append, hwhole]
          · rcases List.mem_cons.mp hit with rfl | hit
            · refine ⟨hdigits, hnz spec
                (List.mem_cons_of_mem _ (hmem spec (by simp))), fun hshort => ?_⟩
              subst hshort
              have hspec : l₁.dropWhile isDigit = spec :: rest := hrest₃
              have hdigit := headD_dropWhile l₁
              rw [hspec] at hdigit hlong
              refine ⟨hdigit, by simpa using hlong, fun hright hnone => ?_⟩
              subst hright
              have hnodrop : l = spec :: rest := by
                rw [← hwhole, hnone]
                rfl
              rw [hnodrop] at hleft
              simpa using hleft
            · exact hparse it hit

/-- A format is the bytes of its items and the rest, each item parses, and the rest is cut off. -/
theorem scan_eq {fmt : List (BitVec 8)} (hnul : ∀ c ∈ fmt, c ≠ 0) :
    (scan fmt).1.flatMap FormatItem.bytes ++ (scan fmt).2 = fmt ∧ (∀ it ∈ (scan fmt).1, it.Parses) ∧
      Cut (scan fmt).2 := scanFrom_eq fmt.length fmt le_rfl hnul

/-! ## The results -/

/-- Before the first byte nothing is put out. -/
theorem Holds.start (size : BitVec 32) (buf tmp : Mem) (args : List (PrintArg L)) :
    Holds size buf { buf, tmp, args } [] :=
  ⟨by simp, fun i x hx => by simp at hx, fun i _ => rfl⟩

/-- The call ends with what the loop has put.
kernel/nd_klibc.c:228-230 -/
theorem ndVsnprintf_eq (hsize : size ≠ 0) {fmt : List (BitVec 8)} {args : List (PrintArg L)}
    {buf tmp : Mem}
    {s : Printer L} (hloop : printLoop size (fmt.length + 2) (some fmt) { buf, tmp, args } = .ok s)
    (h : Holds size buf s out) :
    ∃ b, ndVsnprintf size fmt args buf tmp = .ok (b, s.written.toInt) ∧
      s.written = BitVec.ofNat 32 (min (size.toNat - 1) out.length) ∧
      Slice b 0 (out.take (size.toNat - 1)) ∧ b (min (size.toNat - 1) out.length) = 0 ∧
      ∀ i, min (size.toNat - 1) out.length < i → b i = buf i := by
  have hw := h.written
  have hpos : 0 < size.toNat := by
    by_contra hzero
    exact hsize (BitVec.eq_of_toNat_eq (by simpa using hzero))
  have hstore : storeBuf size s.written.toNat 0 s = .ok
      { s with buf := update s.buf s.written.toNat 0 } :=
    if_pos (by omega)
  refine ⟨update s.buf s.written.toNat 0, ?_, ?_, ?_, ?_, fun i hi => ?_⟩
  · unfold ndVsnprintf
    rw [if_neg hsize, hloop]
    simp only [bind, Except.bind]
    rw [hstore]
  · rw [← hw, BitVec.ofNat_toNat, BitVec.setWidth_eq]
  · refine h.chars.frame fun x _ hx => Function.update_of_ne ?_ _ _
    rw [List.length_take] at hx
    omega
  · rw [← hw]
    exact Function.update_self _ _ _
  · rw [Function.update_of_ne (by omega)]
    exact h.rest i (by omega)

/-- The `int` that is returned is the number of characters as long as that has 31 bits. -/
theorem toInt_ofNat_iff {n i : ℕ} (hn : n < 2 ^ 32) : (BitVec.ofNat 32 n).toInt = i ↔
    n < 2 ^ 31 ∧ i = n := by
  have hint := BitVec.toInt_eq_toNat_cond (BitVec.ofNat 32 n)
  rw [BitVec.toNat_ofNat, Nat.mod_eq_of_lt hn] at hint
  rw [hint]
  split <;> omega

/-- The characters that are written have room for a NUL behind them. -/
theorem written_lt (hsize : size ≠ 0) (n : ℕ) : min (size.toNat - 1) n < size.toNat := by
  have hpos : 0 < size.toNat := by
    by_contra hzero
    exact hsize (BitVec.eq_of_toNat_eq (by simpa using hzero))
  omega

/-- **`nd_vsnprintf` stays inside of its objects and returns where the NUL is exactly when** it does
not come to a conversion that the NUL of the format cuts off (the format does not end in one, or the
buffer is full before it) and writes fewer than `2 ^ 31` characters.
kernel/nd_klibc.c:67-231 -/
theorem vsnprintf_stays_inside_iff (hL : 32 ≤ L ∧ L ≤ 64) (hsize : size ≠ 0) (fmt : List (BitVec 8))
    (hnul : ∀ c ∈ fmt, c ≠ 0) (args : List (PrintArg L)) (R : List (BitVec 8))
    (hargs : rendering (scan fmt).1 args = some R) (buf tmp : Mem) :
    (∃ b, ∃ i < size.toNat, ndVsnprintf size fmt args buf tmp = .ok (b, (i : ℤ)) ∧ b i = 0) ↔
      ((scan fmt).2 = [] ∨ size.toNat - 1 ≤ R.length) ∧ min (size.toNat - 1) R.length < 2 ^ 31 := by
  obtain ⟨hbytes, hparse, hcut⟩ := scan_eq hnul
  obtain ⟨hok, herr⟩ := printLoop_items hL hcut (scan fmt).1 (n := fmt.length + 2) hparse
    (Holds.start size buf tmp args) hargs (by rw [hbytes])
  rw [hbytes, List.nil_append] at hok herr
  have hlt := written_lt hsize R.length
  have hlt' : min (size.toNat - 1) R.length < 2 ^ 32 := hlt.trans size.isLt
  constructor
  · rintro ⟨b, i, -, hrun, -⟩
    have hor : (scan fmt).2 = [] ∨ size.toNat - 1 ≤ R.length := by
      by_contra hno
      unfold ndVsnprintf at hrun
      rw [if_neg hsize, herr hno] at hrun
      cases hrun
    obtain ⟨s, hloop, hheld⟩ := hok hor
    obtain ⟨b', hrun', hwritten, -⟩ := ndVsnprintf_eq hsize hloop hheld
    rw [hrun', hwritten] at hrun
    have hret : (BitVec.ofNat 32 (min (size.toNat - 1) R.length)).toInt = i :=
      (Prod.mk.inj (Except.ok.inj hrun)).2
    exact ⟨hor, ((toInt_ofNat_iff hlt').mp hret).1⟩
  · rintro ⟨hor, hshort⟩
    obtain ⟨s, hloop, hheld⟩ := hok hor
    obtain ⟨b, hrun, hwritten, -, hzero, -⟩ := ndVsnprintf_eq hsize hloop hheld
    refine ⟨b, min (size.toNat - 1) R.length, hlt, ?_, hzero⟩
    rw [hrun, hwritten, (toInt_ofNat_iff hlt').mpr ⟨hshort, rfl⟩]

/-- `"%d"` and the number 5. -/
theorem vsnprintf_stays_inside_number :
    ∃ b, ∃ i < (16 : BitVec 32).toNat, ndVsnprintf 16 [asciiPercent, 0x64]
        [PrintArg.int (L := 32) 5] (fun _ => 0) (fun _ => 0) = .ok (b, (i : ℤ)) ∧ b i = 0 := by
  have hrendered : rendering (scan [asciiPercent, 0x64]).1 [PrintArg.int (L := 32) 5] =
      some [0x35] := by
    decide
  apply (vsnprintf_stays_inside_iff (by decide) (by decide) _ (by decide) _ _ hrendered _ _).mpr
  exact ⟨.inl (by decide), by decide⟩

/-- `"50%"`: the percent sign is followed by the NUL, and the loop reads the character behind it. -/
theorem trailing_percent_reads_on :
    (∀ c ∈ [(0x35 : BitVec 8), 0x30, asciiPercent], c ≠ 0) ∧
      rendering (scan [0x35, 0x30, asciiPercent]).1 ([] : List (PrintArg 32)) = some [0x35, 0x30] ∧
      ndVsnprintf 16 [0x35, 0x30, asciiPercent] ([] : List (PrintArg 32)) (fun _ => 0)
        (fun _ => 0) = .error .fmt :=
  ⟨by decide, by decide, rfl⟩

/-- Complete items are read back from their characters. -/
theorem FormatItem.Complete.parses {it : FormatItem} (hc : it.Complete) : it.Parses := by
  cases it with
  | lit c => exact hc
  | conv left width long spec =>
    obtain ⟨hdigits, -, hspec⟩ := hc
    simp only [List.mem_cons, List.not_mem_nil, or_false] at hspec
    refine ⟨hdigits, ?_, fun _ => ⟨?_, ?_, fun _ _ => ?_⟩⟩ <;>
      rcases hspec with rfl | rfl | rfl | rfl | rfl | rfl <;> decide

/-- What the buffer holds after the call, and the number that is returned, as an `int`. -/
theorem ndVsnprintf_complete (hL : 32 ≤ L ∧ L ≤ 64) (hsize : size ≠ 0) {items : List FormatItem}
    (hitems : ∀ it ∈ items, it.Complete) {args : List (PrintArg L)} {R : List (BitVec 8)}
    (hargs : rendering items args = some R) (buf tmp : Mem) :
    ∃ b, ndVsnprintf size (items.flatMap FormatItem.bytes) args buf tmp =
        .ok (b, (BitVec.ofNat 32 (min (size.toNat - 1) R.length)).toInt) ∧
      (∀ i x, (R.take (size.toNat - 1))[i]? = some x → b i = x) ∧
      b (min (size.toNat - 1) R.length) = 0 := by
  have hparse : ∀ it ∈ items, it.Parses := fun it hit => (hitems it hit).parses
  obtain ⟨hok, -⟩ := printLoop_items hL (show Cut [] from .inl rfl) items
    (n := (items.flatMap FormatItem.bytes).length + 2) hparse (Holds.start size buf tmp args) hargs
    (by rw [List.append_nil])
  rw [List.append_nil, List.nil_append] at hok
  obtain ⟨s, hloop, hheld⟩ := hok (.inl rfl)
  obtain ⟨b, hrun, hwritten, hchars, hzero, -⟩ := ndVsnprintf_eq hsize hloop hheld
  refine ⟨b, by rw [hrun, hwritten], fun i x hx => ?_, hzero⟩
  have hi := hchars i x hx
  rw [Nat.zero_add] at hi
  exact hi

/-- **`nd_vsnprintf` renders exactly**: the buffer holds what it has room for of the full rendering,
and the call returns how much that is, as an `int`.
kernel/nd_klibc.c:67-231 -/
theorem vsnprintf_renders (hL : 32 ≤ L ∧ L ≤ 64) (hsize : size ≠ 0) (items : List FormatItem)
    (hitems : ∀ it ∈ items, it.Complete) (args : List (PrintArg L)) (R : List (BitVec 8))
    (hargs : rendering items args = some R) (buf tmp : Mem) :
    ∃ b ret, ndVsnprintf size (items.flatMap FormatItem.bytes) args buf tmp = .ok (b, ret) ∧
      (∀ i x, (R.take (size.toNat - 1))[i]? = some x → b i = x) ∧
      b (min (size.toNat - 1) R.length) = 0 ∧
      ret = (BitVec.ofNat 32 (min (size.toNat - 1) R.length)).toInt ∧
      (min (size.toNat - 1) R.length < 2 ^ 31 → ret = min (size.toNat - 1) R.length) := by
  obtain ⟨b, hrun, hchars, hzero⟩ := ndVsnprintf_complete hL hsize hitems hargs buf tmp
  have hlt := (written_lt hsize R.length).trans size.isLt
  refine ⟨b, _, hrun, hchars, hzero, rfl, fun hshort => ?_⟩
  have hret := (toInt_ofNat_iff hlt).mpr ⟨hshort, rfl⟩
  omega

/-- `"%-3d|"` with the most negative `int`. -/
theorem vsnprintf_renders_most_negative :
    ∃ b ret, ndVsnprintf 16
        ([FormatItem.conv true [0x33] false 0x64, .lit 0x7C].flatMap FormatItem.bytes)
        [PrintArg.int (L := 32) 0x80000000] (fun _ => 0) (fun _ => 0) = .ok (b, ret) ∧
      (∀ i x, ([(0x2D : BitVec 8), 0x32, 0x31, 0x34, 0x37, 0x34, 0x38, 0x33, 0x36, 0x34, 0x38,
        0x7C].take ((16 : BitVec 32).toNat - 1))[i]? = some x → b i = x) ∧
      b (min ((16 : BitVec 32).toNat - 1) 12) = 0 ∧
      ret = (BitVec.ofNat 32 (min ((16 : BitVec 32).toNat - 1) 12)).toInt ∧
      (min ((16 : BitVec 32).toNat - 1) 12 < 2 ^ 31 → ret = min ((16 : BitVec 32).toNat - 1) 12) :=
  vsnprintf_renders (by decide) (by decide) _ (by
    intro it hit
    simp only [List.mem_cons, List.not_mem_nil, or_false] at hit
    rcases hit with rfl | rfl
    · exact ⟨by decide, by decide, by decide⟩
    · exact ⟨by decide, by decide⟩) _
    [0x2D, 0x32, 0x31, 0x34, 0x37, 0x34, 0x38, 0x33, 0x36, 0x34, 0x38, 0x7C] (by decide +kernel) _ _

/-- `"%2147483648d"`: the width of the number is `2 ^ 31`. -/
def widestNumber : FormatItem :=
  .conv false [0x32, 0x31, 0x34, 0x37, 0x34, 0x38, 0x33, 0x36, 0x34, 0x38] false 0x64

/-- The rendering of `"%2147483648d"` with the number 5 has `2 ^ 31` characters, and a buffer with
room for all of them receives them; what is returned is `-2 ^ 31`. -/
theorem widest_number_returns_negative :
    (∀ it ∈ [widestNumber], it.Complete) ∧
      ∃ R, rendering [widestNumber] [PrintArg.int (L := 32) 5] = some R ∧ R.length = 2 ^ 31 ∧
        ¬ ∃ b, ndVsnprintf 0x80000001 ([widestNumber].flatMap FormatItem.bytes)
            [PrintArg.int (L := 32) 5] (fun _ => 0) (fun _ => 0) =
          .ok (b, (min ((0x80000001 : BitVec 32).toNat - 1) R.length : ℕ)) := by
  have hcomplete : ∀ it ∈ [widestNumber], it.Complete := by
    intro it hit
    rw [List.mem_singleton] at hit
    subst hit
    exact ⟨by decide, by decide, by decide⟩
  have hwidth : widthValue [0x32, 0x31, 0x34, 0x37, 0x34, 0x38, 0x33, 0x36, 0x34, 0x38] % 2 ^ 32 =
      2 ^ 31 := by
    decide
  have hbody : convBody false 0x64 [PrintArg.int (L := 32) 5] = some ([0x35], []) := by
    decide
  have hrender : rendering [widestNumber] [PrintArg.int (L := 32) 5] =
      some (padded false (2 ^ 31) [0x35] ++ []) := by
    simp only [widestNumber, rendering, FormatItem.render, hbody, hwidth, Option.map_some,
      Option.bind_some]
  have hlength : (padded false (2 ^ 31) [(0x35 : BitVec 8)] ++ []).length = 2 ^ 31 := by
    unfold padded
    rw [if_neg (by decide), List.append_nil, List.length_append, List.length_replicate,
      List.length_singleton]
    exact Nat.sub_add_cancel (by decide)
  refine ⟨hcomplete, _, hrender, hlength, ?_⟩
  rintro ⟨b, hrun⟩
  have hsize : (0x80000001 : BitVec 32) ≠ 0 := by decide
  obtain ⟨b', hrun', -⟩ := ndVsnprintf_complete (by decide) hsize hcomplete hrender (fun _ => 0)
    fun _ => 0
  rw [hrun, hlength] at hrun'
  have hret := (Prod.mk.inj (Except.ok.inj hrun')).2
  have hneg : (BitVec.ofNat 32 (min ((0x80000001 : BitVec 32).toNat - 1) (2 ^ 31))).toInt < 0 := by
    decide
  rw [← hret] at hneg
  omega

end NerdRtos
