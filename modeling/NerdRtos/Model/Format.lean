import NerdRtos.Lib.Bytes
import Mathlib.Data.BitVec

/-!
# Formatted output

`nd_vsnprintf` and the helpers of `kernel/nd_klibc.c` that it writes with. A run that leaves the
format, the buffer or `tmp_buf`, or that asks for an argument that is not there, ends in a `Stray`.
`nd_uint32_t`, `int` and `size_t` have 32 bits, `long` has `L`; a negation wraps.
-/

set_option autoImplicit false

namespace NerdRtos

open Bytes (Mem)

/-- What a run has left: the format, the buffer, `tmp_buf` or the list of arguments. `loop` stands
for a loop that is not over after as many rounds as the model gives it. -/
inductive Stray
  | fmt
  | buf
  | tmp
  | args
  | loop
  deriving DecidableEq, Repr

/-- An argument. A string is the characters in front of its NUL, or `NULL`. -/
inductive PrintArg (L : ℕ)
  | int (v : BitVec 32)
  | long (v : BitVec L)
  | str (s : Option (List (BitVec 8)))
  deriving DecidableEq, Repr

/-- The buffer, `written`, `tmp_buf` and the arguments that are left. -/
structure Printer (L : ℕ) where
  buf : Mem
  written : BitVec 32 := 0
  tmp : Mem
  args : List (PrintArg L)

/-- The address of a character of the format or of its NUL, or the one behind it. -/
abbrev Cursor := Option (List (BitVec 8))

/-- `*fmt`. -/
def Cursor.get : Cursor → Except Stray (BitVec 8)
  | none => .error .fmt
  | some l => .ok (l.headD 0)

/-- `fmt++`. -/
def Cursor.next : Cursor → Cursor
  | some (_ :: l) => some l
  | _ => none

/-- `'0'`. -/
def asciiZero : BitVec 8 := 0x30

/-- `'%'`. -/
def asciiPercent : BitVec 8 := 0x25

/-- `'-'`. -/
def asciiMinus : BitVec 8 := 0x2D

/-- `' '`. -/
def asciiSpace : BitVec 8 := 0x20

/-- `'l'`. -/
def asciiEll : BitVec 8 := 0x6C

section Printer

variable {L : ℕ} (size : BitVec 32)

/-- A write to the buffer. -/
def storeBuf (i : ℕ) (c : BitVec 8) (s : Printer L) : Except Stray (Printer L) :=
  if i < size.toNat then .ok { s with buf := Function.update s.buf i c } else .error .buf

/-- A write to `tmp_buf`. -/
def storeTmp (i : ℕ) (c : BitVec 8) (tmp : Mem) : Except Stray Mem :=
  if i < 24 then .ok (Function.update tmp i c) else .error .tmp

/-- The test of the bound that the loop and `buf_putc` make. -/
def hasRoom (s : Printer L) : Bool := s.written.toNat < size.toNat - 1

/-- `buf_putc`. -/
def bufPutc (c : BitVec 8) (s : Printer L) : Except Stray (Printer L) :=
  if hasRoom size s then do
    let s ← storeBuf size s.written.toNat c s
    .ok { s with written := s.written + 1 }
  else .ok s

/-- `buf_putn`, for the characters that it is given. -/
def bufPutn : List (BitVec 8) → Printer L → Except Stray (Printer L)
  | [], s => .ok s
  | c :: str, s => do
    let s ← bufPutc size c s
    bufPutn str s

/-- `buf_pad`. -/
def bufPad : ℕ → Printer L → Except Stray (Printer L)
  | 0, s => .ok s
  | count + 1, s => do
    let s ← bufPutc size asciiSpace s
    bufPad count s

/-- The loop that reads the width. -/
def readWidth : List (BitVec 8) → BitVec 32 → BitVec 32 × List (BitVec 8)
  | [], width => (width, [])
  | c :: l, width =>
    if asciiZero ≤ c ∧ c ≤ 0x39 then readWidth l (width * 10 + (c - asciiZero).setWidth 32)
    else (width, c :: l)

/-! ## Numbers -/

/-- The loop that writes the digits of `value`, the lowest one first; it gives back `len`. -/
def digitLoop (base : ℕ) (digit : ℕ → BitVec 8) : ℕ → ℕ → ℕ → Mem → Except Stray (ℕ × Mem)
  | 0, _, _, _ => .error .loop
  | n + 1, value, len, tmp =>
    if 0 < value then do
      let tmp ← storeTmp len (digit (value % base)) tmp
      digitLoop base digit n (value / base) (len + 1) tmp
    else .ok (len, tmp)

/-- The loop that turns the digits from `i` to `j` round. -/
def swapLoop : ℕ → ℕ → ℕ → Mem → Except Stray Mem
  | 0, _, _, _ => .error .loop
  | n + 1, i, j, tmp =>
    if i < j then do
      let t := tmp i
      let tmp ← storeTmp i (tmp j) tmp
      let tmp ← storeTmp j t tmp
      swapLoop n (i + 1) (j - 1) tmp
    else .ok tmp

/-- The digits of `value` from index `start` of `tmp_buf` on. -/
def putNumber (base : ℕ) (digit : ℕ → BitVec 8) (value start : ℕ) (tmp : Mem) :
    Except Stray (ℕ × Mem) :=
  if value = 0 then do
    let tmp ← storeTmp start asciiZero tmp
    .ok (start + 1, tmp)
  else do
    let (len, tmp) ← digitLoop base digit (L + 1) value start tmp
    let tmp ← swapLoop (len + 1) start (len - 1) tmp
    .ok (len, tmp)

/-- `value % 10 + '0'`. -/
def decDigit (d : ℕ) : BitVec 8 := BitVec.ofNat 8 d + asciiZero

/-- The digit of `num & 0xF`. -/
def hexDigit (d : ℕ) : BitVec 8 :=
  if d < 10 then asciiZero + BitVec.ofNat 8 d else 0x61 + BitVec.ofNat 8 d - 10

/-! ## Arguments -/

/-- `va_arg` for an `int`, or an `unsigned int`. -/
def vaInt (s : Printer L) : Except Stray (BitVec 32 × Printer L) :=
  match s.args with
  | .int v :: args => .ok (v, { s with args })
  | _ => .error .args

/-- `va_arg` for a `long`, or an `unsigned long`. -/
def vaLong (s : Printer L) : Except Stray (BitVec L × Printer L) :=
  match s.args with
  | .long v :: args => .ok (v, { s with args })
  | _ => .error .args

/-- `va_arg` for a string. -/
def vaStr (s : Printer L) : Except Stray (Option (List (BitVec 8)) × Printer L) :=
  match s.args with
  | .str v :: args => .ok (v, { s with args })
  | _ => .error .args

/-- `num` of `%d`. -/
def signedArg (isLong : Bool) (s : Printer L) : Except Stray (BitVec L × Printer L) :=
  if isLong then vaLong s
  else do
    let (v, s) ← vaInt s
    .ok (v.signExtend L, s)

/-- `num` of `%u` and `%x`. -/
def unsignedArg (isLong : Bool) (s : Printer L) : Except Stray (BitVec L × Printer L) :=
  if isLong then vaLong s
  else do
    let (v, s) ← vaInt s
    .ok (v.setWidth L, s)

/-! ## Conversions -/

/-- `"(null)"`. -/
def nullText : List (BitVec 8) := [0x28, 0x6E, 0x75, 0x6C, 0x6C, 0x29]

/-- The first `len` characters of `tmp_buf`. -/
def tmpOut (len : ℕ) (tmp : Mem) : List (BitVec 8) := (List.range len).map tmp

/-- The case `'d'`. -/
def printSigned (isLong : Bool) (s : Printer L) : Except Stray (List (BitVec 8) × Printer L) := do
  let (num, s) ← signedArg isLong s
  if num.slt 0 then
    let tmp ← storeTmp 0 asciiMinus s.tmp
    let (len, tmp) ← putNumber (L := L) 10 decDigit (-num).toNat 1 tmp
    .ok (tmpOut len tmp, { s with tmp })
  else
    let (len, tmp) ← putNumber (L := L) 10 decDigit num.toNat 0 s.tmp
    .ok (tmpOut len tmp, { s with tmp })

/-- The cases `'u'` and `'x'`. -/
def printUnsigned (base : ℕ) (digit : ℕ → BitVec 8) (isLong : Bool) (s : Printer L) :
    Except Stray (List (BitVec 8) × Printer L) := do
  let (num, s) ← unsignedArg isLong s
  let (len, tmp) ← putNumber (L := L) base digit num.toNat 0 s.tmp
  .ok (tmpOut len tmp, { s with tmp })

/-- The `switch`: the characters that `out` and `len` give. -/
def convert (isLong : Bool) (c : BitVec 8) (s : Printer L) :
    Except Stray (List (BitVec 8) × Printer L) :=
  if c = 0x64 then printSigned isLong s
  else if c = 0x75 then printUnsigned 10 decDigit isLong s
  else if c = 0x78 then printUnsigned 16 hexDigit isLong s
  else if c = 0x73 then do
    let (v, s) ← vaStr s
    .ok (v.getD nullText, s)
  else if c = 0x63 then do
    let (v, s) ← vaInt s
    let tmp ← storeTmp 0 (v.setWidth 8) s.tmp
    .ok (tmpOut 1 tmp, { s with tmp })
  else if c = asciiPercent then do
    let tmp ← storeTmp 0 asciiPercent s.tmp
    .ok (tmpOut 1 tmp, { s with tmp })
  else do
    let tmp ← storeTmp 0 asciiPercent s.tmp
    let tmp ← storeTmp 1 c tmp
    .ok (tmpOut 2 tmp, { s with tmp })

/-- The padding on one side, if it is on that side. -/
def padSide (side : Bool) (width len : ℕ) (s : Printer L) : Except Stray (Printer L) :=
  if side && len < width then bufPad size (width - len) s else .ok s

/-- The three calls that put a conversion. -/
def putPadded (leftAlign : Bool) (width : ℕ) (out : List (BitVec 8)) (s : Printer L) :
    Except Stray (Printer L) := do
  let s ← padSide size (!leftAlign) width out.length s
  let s ← bufPutn size out s
  padSide size leftAlign width out.length s

/-- One conversion, from behind its `'%'` on. The cursor that is given back is at its last
character. -/
def conversion (l : List (BitVec 8)) (s : Printer L) : Except Stray (Cursor × Printer L) := do
  let leftAlign : Bool := l.headD 0 = asciiMinus
  let l := if leftAlign then l.tail else l
  let (width, l) := readWidth l 0
  let isLong : Bool := l.headD 0 = asciiEll
  let l := if isLong then l.tail else l
  let (out, s) ← convert isLong (l.headD 0) s
  let s ← putPadded size leftAlign width.toNat out s
  .ok (some l, s)

/-- The outer loop. -/
def printLoop : ℕ → Cursor → Printer L → Except Stray (Printer L)
  | 0, _, _ => .error .loop
  | n + 1, fmt, s => do
    let c ← fmt.get
    if c ≠ 0 ∧ hasRoom size s = true then
      if c ≠ asciiPercent then
        let s ← storeBuf size s.written.toNat c s
        printLoop n fmt.next { s with written := s.written + 1 }
      else
        let (fmt, s) ← conversion size (fmt.next.getD []) s
        printLoop n fmt.next s
    else .ok s

/-- `nd_vsnprintf`: the buffer, and the `int` that is returned. -/
def ndVsnprintf (fmt : List (BitVec 8)) (args : List (PrintArg L)) (buf tmp : Mem) :
    Except Stray (Mem × ℤ) :=
  if size = 0 then .ok (buf, 0)
  else do
    let s ← printLoop size (fmt.length + 2) (some fmt) { buf, tmp, args }
    let s ← storeBuf size s.written.toNat 0 s
    .ok (s.buf, s.written.toInt)

end Printer

end NerdRtos
