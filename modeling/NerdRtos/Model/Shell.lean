import NerdRtos.Lib.Bytes
import Mathlib.Data.Int.Notation

/-!
# The shell

The line editor of `components/shell/src/nd_shell.c`, with `nd_strcmp` and `nd_strncpy` of
`kernel/nd_klibc.c`. What becomes of a submitted line is a parameter: `nd_strtok_r` cuts `shell_buf`
into words, and the command that is found can write into them and print.
-/

set_option autoImplicit false

namespace NerdRtos

open Bytes (Mem)

/-- `SHELL_BUFFER_SIZE`. -/
def shellBufferSize : ℕ := 128

/-- `SHELL_HISTORY_DEPTH`. -/
def shellHistoryDepth : ℕ := 8

/-- `ASCII_CR`. -/
def asciiCr : BitVec 8 := 0x0D

/-- `ASCII_LF`. -/
def asciiLf : BitVec 8 := 0x0A

/-- `ASCII_BACKSPACE`. -/
def asciiBackspace : BitVec 8 := 0x08

/-- `ASCII_DEL`. -/
def asciiDel : BitVec 8 := 0x7F

/-- `ASCII_NULL`. -/
def asciiNull : BitVec 8 := 0

/-- `ASCII_ESC`. -/
def asciiEsc : BitVec 8 := 0x1B

/-- `ANSI_CSI_PREFIX`. -/
def ansiCsiPrefix : BitVec 8 := 0x5B

/-- `ANSI_ARROW_UP`. -/
def ansiArrowUp : BitVec 8 := 0x41

/-- `ANSI_ARROW_DOWN`. -/
def ansiArrowDown : BitVec 8 := 0x42

/-- From `ASCII_PRINTABLE_START` to `ASCII_PRINTABLE_END`. A byte from 0x80 on fails one of the two
tests, whether `char` is signed or not. -/
def isPrintable (c : BitVec 8) : Bool := 0x20 ≤ c && c ≤ 0x7E

/-- `SHELL_PROMPT`. -/
def shellPrompt : List (BitVec 8) := "nerd@rtos:~$ ".toList.map fun c => BitVec.ofNat 8 c.toNat

/-- `shell_input_state_t`. -/
inductive ShellInputState
  | normal
  | esc
  | csi
  deriving DecidableEq, Repr

/-- The static variables of `nd_shell.c` with the fields of `shell_history`, and what was printed,
the last character first. `browsePos` is signed. -/
structure Shell where
  buf : Mem := fun _ => 0
  len : BitVec 8 := 0
  lastLineEnd : BitVec 8 := asciiNull
  history : ℕ → Mem := fun _ _ => 0
  count : BitVec 8 := 0
  writePos : BitVec 8 := 0
  browsePos : BitVec 8 := 0
  state : ShellInputState := .normal
  out : List (BitVec 8) := []

/-! ## Strings -/

/-- `nd_strcmp` from index `i` on, over at most as many characters as the first argument says. -/
def ndStrcmp (cs ct : Mem) : ℕ → ℕ → Option ℤ
  | 0, _ => none
  | n + 1, i =>
    if cs i ≠ 0 ∧ cs i = ct i then ndStrcmp cs ct n (i + 1)
    else some ((cs i).toNat - (ct i).toNat)

/-- The second loop of `nd_strncpy`: `count` zeros from index `i` on. -/
def zeroFill : ℕ → ℕ → Mem → Mem
  | 0, _, dest => dest
  | n + 1, i, dest => zeroFill n (i + 1) (Function.update dest i 0)

/-- `nd_strncpy` from index `i` on. -/
def ndStrncpy (src : Mem) : ℕ → ℕ → Mem → Mem
  | 0, _, dest => dest
  | n + 1, i, dest =>
    if src i ≠ 0 then ndStrncpy src n (i + 1) (Function.update dest i (src i))
    else zeroFill (n + 1) i dest

/-! ## Input -/

/-- `shell_putc`. -/
def shellPutc (c : BitVec 8) (s : Shell) : Shell := { s with out := c :: s.out }

/-- `shell_puts`. -/
def shellPuts (l : List (BitVec 8)) (s : Shell) : Shell := { s with out := l.reverse ++ s.out }

/-- `shell_is_line_end`. -/
def shellIsLineEnd (c : BitVec 8) (s : Shell) : Bool × Shell :=
  if c ≠ asciiCr ∧ c ≠ asciiLf then (false, { s with lastLineEnd := asciiNull })
  else if s.lastLineEnd = asciiNull ∨ c = s.lastLineEnd then (true, { s with lastLineEnd := c })
  else (false, s)

/-- The last character is taken back on the screen, too. -/
def eraseChar (s : Shell) : Shell :=
  shellPuts [asciiBackspace, 0x20, asciiBackspace] { s with len := s.len - 1 }

/-- The first loop of `shell_replace_input`. -/
def eraseInput : ℕ → Shell → Shell
  | 0, s => s
  | n + 1, s => if 0 < s.len then eraseInput n (eraseChar s) else s

/-- The second loop of `shell_replace_input`. -/
def copyInput (line : Mem) : ℕ → Shell → Shell
  | 0, s => s
  | n + 1, s =>
    if line s.len.toNat ≠ asciiNull ∧ s.len.toNat < shellBufferSize - 1 then
      let c := line s.len.toNat
      let s := shellPutc c { s with buf := Function.update s.buf s.len.toNat c }
      copyInput line n { s with len := s.len + 1 }
    else s

/-- `shell_replace_input`. -/
def shellReplaceInput (line : Mem) (s : Shell) : Shell :=
  let s := eraseInput s.len.toNat s
  let s := copyInput line shellBufferSize s
  { s with buf := Function.update s.buf s.len.toNat asciiNull }

/-- `shell_history_browse_index`. -/
def shellHistoryBrowseIndex (s : Shell) : ℕ :=
  (BitVec.ofInt 8 (((s.writePos.toNat : ℤ) + shellHistoryDepth - 1 - s.browsePos.toInt).tmod
    shellHistoryDepth)).toNat

/-- `shell_history_prev`. -/
def shellHistoryPrev (s : Shell) : Shell :=
  if s.count = 0 ∨ (s.count - 1).toInt ≤ s.browsePos.toInt then s
  else
    let s := { s with browsePos := s.browsePos + 1 }
    shellReplaceInput (s.history (shellHistoryBrowseIndex s)) s

/-- `shell_history_next`. -/
def shellHistoryNext (s : Shell) : Shell :=
  if s.browsePos.toInt < 0 then s
  else
    let s := { s with browsePos := s.browsePos - 1 }
    if s.browsePos.toInt < 0 then shellReplaceInput (fun _ => asciiNull) s
    else shellReplaceInput (s.history (shellHistoryBrowseIndex s)) s

/-- `shell_handle_ansi`. -/
def shellHandleAnsi (c : BitVec 8) (s : Shell) : Bool × Shell :=
  match s.state with
  | .normal => if c = asciiEsc then (true, { s with state := .esc }) else (false, s)
  | .esc =>
    if c = ansiCsiPrefix then (true, { s with state := .csi })
    else (true, { s with state := .normal })
  | .csi =>
    let s :=
      if c = ansiArrowUp then shellHistoryPrev s
      else if c = ansiArrowDown then shellHistoryNext s
      else s
    (true, { s with state := .normal })

/-- `shell_input`. -/
def shellInput (c : BitVec 8) (s : Shell) : Bool × Shell :=
  match shellHandleAnsi c s with
  | (true, s) => (false, s)
  | (false, s) =>
    match shellIsLineEnd c s with
    | (true, s) =>
      let s := shellPuts [asciiCr, asciiLf] s
      (true, { s with buf := Function.update s.buf s.len.toNat asciiNull, browsePos := -1 })
    | (false, s) =>
      if c = asciiBackspace ∨ c = asciiDel then
        if 0 < s.len then (false, { eraseChar s with browsePos := -1 }) else (false, s)
      else if isPrintable c ∧ s.len.toNat < shellBufferSize - 1 then
        let s :=
          { s with browsePos := -1, buf := Function.update s.buf s.len.toNat c, len := s.len + 1 }
        (false, shellPutc c s)
      else (false, s)

/-! ## Submission -/

/-- `shell_history_is_last_duplicate`. -/
def shellHistoryIsLastDuplicate (line : Mem) (s : Shell) : Bool :=
  if s.count = 0 then false
  else
    let last := (s.writePos.toNat + shellHistoryDepth - 1) % shellHistoryDepth
    ndStrcmp (s.history last) line shellBufferSize 0 = some 0

/-- `shell_history_save`. -/
def shellHistorySave (buf : Mem) (s : Shell) : Shell :=
  if shellHistoryIsLastDuplicate buf s then s
  else
    let row := s.writePos.toNat
    { s with
      history := Function.update s.history row (ndStrncpy buf shellBufferSize 0 (s.history row))
      count := if s.count.toNat < shellHistoryDepth then s.count + 1 else s.count
      writePos := BitVec.ofNat 8 ((s.writePos.toNat + 1) % shellHistoryDepth) }

/-- What `shell_parse` and the command leave in `shell_buf`, and what the command prints. -/
abbrev Commands := Mem → Mem × List (BitVec 8)

/-- The rest of the loop of `nd_shell_task_entry`, for a line that is complete. -/
def shellSubmit (commands : Commands) (s : Shell) : Shell :=
  let s :=
    if 0 < s.len then
      let s := shellHistorySave s.buf s
      let r := commands s.buf
      shellPuts r.2 { s with buf := r.1 }
    else s
  shellPuts shellPrompt { s with len := 0 }

/-- One turn of the loop of `nd_shell_task_entry`, for character `c`. -/
def shellTurn (commands : Commands) (s : Shell) (c : BitVec 8) : Shell :=
  match shellInput c s with
  | (false, s) => s
  | (true, s) => shellSubmit commands s

/-- `shell_history_init`. -/
def shellHistoryInit (s : Shell) : Shell :=
  { s with state := .normal, count := 0, writePos := 0, browsePos := -1 }

/-- `nd_shell_task_entry`, after the characters `input`. -/
def ndShellTaskEntry (commands : Commands) (input : List (BitVec 8)) : Shell :=
  input.foldl (shellTurn commands) (shellPuts shellPrompt (shellHistoryInit {}))

end NerdRtos
