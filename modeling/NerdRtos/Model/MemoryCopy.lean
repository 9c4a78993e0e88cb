import NerdRtos.Lib.Words

/-!
# Copying memory

`nd_memcpy` of `kernel/nd_klibc.c`, with and without `__GNUC__`. Addresses are numbers: the two
regions lie in the address space. The loads of words are recorded, the last one first.
-/

set_option autoImplicit false

namespace NerdRtos

open Bytes (Mem)
open Words (Endian loadWord storeWord)

/-- The memory, the variables `d`, `s`, `n` and `x`, and the addresses that words were loaded
from. -/
structure CopyState where
  mem : Mem
  d : ℕ
  s : ℕ
  n : ℕ
  x : BitVec 32 := 0
  loads : List ℕ := []

variable (e : Endian)

/-- `*d++ = *s++`. -/
def copyByte (st : CopyState) : CopyState :=
  { st with mem := Function.update st.mem st.d (st.mem st.s), d := st.d + 1, s := st.s + 1 }

/-- `*d++ = *s++`, several times. -/
def copyBytes : ℕ → CopyState → CopyState
  | 0, st => st
  | k + 1, st => copyBytes k (copyByte st)

/-- The loop without `__GNUC__`. -/
def plainLoop : ℕ → CopyState → CopyState
  | 0, st => st
  | n + 1, st => plainLoop n { copyByte st with n }

/-- The loop up to an aligned source address. -/
def alignLoop : ℕ → CopyState → CopyState
  | 0, st => st
  | n + 1, st => if st.s % 4 ≠ 0 then alignLoop n { copyByte st with n } else st

/-- `x = *(const nd_alias_u32_t *)(s + off)`. -/
def loadX (off : ℕ) (st : CopyState) : CopyState :=
  { st with x := loadWord e st.mem (st.s + off), loads := (st.s + off) :: st.loads }

/-- `*(nd_alias_u32_t *)(d + off) = *(const nd_alias_u32_t *)(s + off)`. -/
def copyWord (off : ℕ) (st : CopyState) : CopyState :=
  { st with
    mem := storeWord e st.mem (st.d + off) (loadWord e st.mem (st.s + off))
    loads := (st.s + off) :: st.loads }

/-- One word of a misaligned copy: the next one is loaded, and merged with the one before it. -/
def mergeWord (loadOff storeOff lsh rsh : ℕ) (st : CopyState) : CopyState :=
  let y := loadWord e st.mem (st.s + loadOff)
  { st with
    mem := storeWord e st.mem (st.d + storeOff) (e.ls st.x lsh ||| e.rs y rsh)
    x := y
    loads := (st.s + loadOff) :: st.loads }

/-- `s += 16, d += 16, n -= 16`. -/
def advance (st : CopyState) : CopyState :=
    { st with s := st.s + 16, d := st.d + 16, n := st.n - 16 }

/-- A loop that goes on while `n` is at least `bound`. Every round takes something of `n`. -/
def blockLoop (bound : ℕ) (body : CopyState → CopyState) : ℕ → CopyState → CopyState
  | 0, st => st
  | k + 1, st => if bound ≤ st.n then blockLoop bound body k (body st) else st

/-- Four words when both addresses are aligned. -/
def copyBlock (st : CopyState) : CopyState :=
  advance (copyWord e 12 (copyWord e 8 (copyWord e 4 (copyWord e 0 st))))

/-- Four words when the destination is `4 - off` bytes ahead. -/
def mergeBlock (off lsh rsh : ℕ) (st : CopyState) : CopyState :=
  advance (mergeWord e (off + 12) 12 lsh rsh (mergeWord e (off + 8) 8 lsh rsh
    (mergeWord e (off + 4) 4 lsh rsh (mergeWord e off 0 lsh rsh st))))

/-- What a case of the `switch` does: a word is loaded, some bytes are copied, and the rest by
blocks. -/
def mergeCase (bytes off lsh rsh bound : ℕ) (st : CopyState) : CopyState :=
  let st := copyBytes bytes (loadX e 0 st)
  let st := { st with n := st.n - bytes }
  blockLoop bound (mergeBlock e off lsh rsh) st.n st

/-- `case 1`. -/
def mergeCase1 : CopyState → CopyState := mergeCase e 3 1 24 8 17

/-- `case 2`. -/
def mergeCase2 : CopyState → CopyState := mergeCase e 2 2 16 16 18

/-- `case 3`. -/
def mergeCase3 : CopyState → CopyState := mergeCase e 1 3 8 24 19

/-- The `switch`. -/
def mergeSwitch (st : CopyState) : CopyState :=
  if st.d % 4 = 1 then mergeCase1 e st
  else if st.d % 4 = 2 then mergeCase2 e st
  else if st.d % 4 = 3 then mergeCase3 e st
  else st

/-- `if (n & bit)`. -/
def onBit (bit : ℕ) (f : CopyState → CopyState) (st : CopyState) : CopyState :=
  if st.n &&& bit ≠ 0 then f st else st

/-- Two words, with both addresses moved on. -/
def copyTwoWords (st : CopyState) : CopyState :=
  let st := copyWord e 4 (copyWord e 0 st)
  { st with d := st.d + 8, s := st.s + 8 }

/-- One word, with both addresses moved on. -/
def copyOneWord (st : CopyState) : CopyState :=
  let st := copyWord e 0 st
  { st with d := st.d + 4, s := st.s + 4 }

/-- `*d = *s`. -/
def copyLast (st : CopyState) : CopyState :=
  { st with mem := Function.update st.mem st.d (st.mem st.s) }

/-- When both addresses are aligned. -/
def copyAligned (st : CopyState) : CopyState :=
  let st := blockLoop 16 (copyBlock e) st.n st
  let st := onBit 8 (copyTwoWords e) st
  let st := onBit 4 (copyOneWord e) st
  let st := onBit 2 (copyBytes 2) st
  onBit 1 copyLast st

/-- When they are not. -/
def copyMisaligned (st : CopyState) : CopyState :=
  let st := if 32 ≤ st.n then mergeSwitch e st else st
  let st := onBit 16 (copyBytes 16) st
  let st := onBit 8 (copyBytes 8) st
  let st := onBit 4 (copyBytes 4) st
  let st := onBit 2 (copyBytes 2) st
  onBit 1 copyLast st

/-- `nd_memcpy` with `__GNUC__`. -/
def ndMemcpy (mem : Mem) (dest src n : ℕ) : CopyState :=
  let st := alignLoop n { mem, d := dest, s := src, n }
  if st.d % 4 = 0 then copyAligned e st else copyMisaligned e st

/-- `nd_memcpy` without `__GNUC__`. -/
def plainMemcpy (mem : Mem) (dest src n : ℕ) : CopyState :=
    plainLoop n { mem, d := dest, s := src, n }

end NerdRtos
