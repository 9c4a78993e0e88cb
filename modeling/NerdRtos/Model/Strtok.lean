import NerdRtos.Lib.Bytes

/-!
# Cutting a line into words

`nd_strtok_r` of `kernel/nd_klibc.c` and `shell_parse` of `components/shell/src/nd_shell.c`. A
pointer is an address, or `none` for `ND_NULL`. Of a string the bytes in front of an address `stop`
are its own, of the delimiters the first `room` ones; to read or write any other byte has no result.
-/

set_option autoImplicit false

namespace NerdRtos

open Bytes (Mem)

/-- The delimiters of a call. -/
structure Delimiters where
  chars : Mem
  room : ℕ

/-- `is_delim` from index `i` on, where `n` bytes are left. -/
def isDelim (c : BitVec 8) (delimiters : Mem) : ℕ → ℕ → Option Bool
  | 0, _ => none
  | n + 1, i =>
    if delimiters i ≠ 0 then
      if c = delimiters i then some true else isDelim c delimiters n (i + 1)
    else some false

/-- The first loop of `nd_strtok_r` from address `str` on, where `n` bytes are left. -/
def skipDelims (delim : Delimiters) (m : Mem) : ℕ → ℕ → Option ℕ
  | 0, _ => none
  | n + 1, str =>
    if m str ≠ 0 then
      match isDelim (m str) delim.chars delim.room 0 with
      | none => none
      | some true => skipDelims delim m n (str + 1)
      | some false => some str
    else some str

/-- The second loop of `nd_strtok_r`. -/
def skipToken (delim : Delimiters) (m : Mem) : ℕ → ℕ → Option ℕ
  | 0, _ => none
  | n + 1, str =>
    if m str ≠ 0 then
      match isDelim (m str) delim.chars delim.room 0 with
      | none => none
      | some true => some str
      | some false => skipToken delim m n (str + 1)
    else some str

/-- What a call of `nd_strtok_r` returns and leaves behind. -/
structure Strtok where
  token : Option ℕ
  saveptr : Option ℕ
  mem : Mem

/-- `nd_strtok_r`. -/
def ndStrtokR (stop : ℕ) (str : Option ℕ) (delim : Delimiters) (saveptr : Option ℕ) (m : Mem) :
    Option Strtok := do
  let str := if str = none then saveptr else str
  let str ← str
  let str ← skipDelims delim m (stop - str) str
  if m str = 0 then
    return { token := none, saveptr := some str, mem := m }
  let tokenStart := str
  let str ← skipToken delim m (stop - str) str
  if m str = 0 then
    return { token := some tokenStart, saveptr := some str, mem := m }
  return { token := some tokenStart, saveptr := some (str + 1), mem := Function.update m str 0 }

/-- `n` calls of `nd_strtok_r`, the first one for `str` and the others for `ND_NULL`: what they
return, and what the last one leaves behind. -/
def strtokCalls (stop : ℕ) (delim : Delimiters) :
    ℕ → Option ℕ → Option ℕ → Mem → Option (List (Option ℕ) × Option ℕ × Mem)
  | 0, _, saveptr, m => some ([], saveptr, m)
  | n + 1, str, saveptr, m => do
    let r ← ndStrtokR stop str delim saveptr m
    let rest ← strtokCalls stop delim n none r.saveptr r.mem
    return (r.token :: rest.1, rest.2)

/-- The literal `" "`. -/
def spaceDelim : Delimiters := { chars := Function.update (fun _ => 0) 0 0x20, room := 2 }

/-- The loop of `shell_parse`. `argc` is an `nd_uint8_t`, so 256 turns are enough. -/
def parseLoop (stop : ℕ) (maxArgc : BitVec 8) :
    ℕ → BitVec 8 → (ℕ → Option ℕ) → Strtok → Option (BitVec 8 × (ℕ → Option ℕ) × Mem)
  | 0, _, _, _ => none
  | n + 1, argc, argv, r =>
    match r.token with
    | none => some (argc, argv, r.mem)
    | some token =>
      if argc < maxArgc then do
        let argv := Function.update argv argc.toNat (some token)
        let r ← ndStrtokR stop none spaceDelim r.saveptr r.mem
        parseLoop stop maxArgc n (argc + 1) argv r
      else some (argc, argv, r.mem)

/-- `shell_parse`: the number of arguments, `argv` and the memory. -/
def shellParse (stop cmdLine : ℕ) (argv : ℕ → Option ℕ) (maxArgc : BitVec 8) (m : Mem) :
    Option (BitVec 8 × (ℕ → Option ℕ) × Mem) := do
  let token ← ndStrtokR stop (some cmdLine) spaceDelim none m
  parseLoop stop maxArgc 256 0 argv token

end NerdRtos
