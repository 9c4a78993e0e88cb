import NerdRtos.Analysis.ControlSequences

/-!
# Line endings

A terminal ends its lines with CR, with LF or with both. `shell_last_line_end` remembers the first
of the two and lets the other one pass, so the three streams of the same lines leave the same shell
behind, but for that memory (`Typist.stream`).
-/

set_option autoImplicit false

namespace NerdRtos

variable {s : Shell} {c : BitVec 8} {l : List (BitVec 8)} {commands : Commands}

/-! ## Statement -/

/-- How the lines of a stream end. -/
inductive LineEnd
  | cr
  | lf
  | crLf
  deriving DecidableEq, Repr

namespace LineEnd

/-- The bytes of a line end. -/
def bytes : LineEnd → List (BitVec 8)
  | cr => [asciiCr]
  | lf => [asciiLf]
  | crLf => [asciiCr, asciiLf]

/-- The lines with their ends. -/
def stream (e : LineEnd) (lines : List (List (BitVec 8))) : List (BitVec 8) :=
    lines.flatMap fun l => l ++ e.bytes

end LineEnd

/-- What can stand in a line. -/
def Typed (c : BitVec 8) : Prop := isPrintable c = true ∨ c = asciiBackspace ∨ c = asciiDel

instance (c : BitVec 8) : Decidable (Typed c) := inferInstanceAs (Decidable (_ ∨ _ ∨ _))

/-- The line in `shell_buf`. -/
def shellLine (s : Shell) : List (BitVec 8) := Bytes.load s.buf 0 s.len.toNat

/-- The lines that `shell_input` completes, from shell `s` on. -/
def completed (commands : Commands) : List (BitVec 8) → Shell → List (List (BitVec 8))
  | [], _ => []
  | c :: l, s =>
    if (shellInput c s).1 then shellLine (shellInput c s).2 :: completed commands l
      (shellTurn commands s c)
    else completed commands l (shellTurn commands s c)

/-- The lines that are submitted to `nd_shell_task_entry`. -/
def submissions (commands : Commands) (input : List (BitVec 8)) : List (List (BitVec 8)) :=
  completed commands input (ndShellTaskEntry commands [])

/-- The history is the same, byte by byte. -/
structure SameHistory (s s' : Shell) : Prop where
  rows : s.history = s'.history
  count : s.count = s'.count
  writePos : s.writePos = s'.writePos
  browsePos : s.browsePos = s'.browsePos

/-! ## Characters -/

/-- No line end was seen before. -/
def Shell.fresh (s : Shell) : Shell := { s with lastLineEnd := asciiNull }

/-- A byte of a line is none that the shell acts on. -/
theorem Typed.ne (h : Typed c) : c ≠ asciiEsc ∧ c ≠ asciiCr ∧ c ≠ asciiLf := by
  rcases h with hp | rfl | rfl
  · obtain ⟨hesc, hend, -⟩ := printable_ne hp
    exact ⟨hesc, hend⟩
  · decide
  · decide

/-- A character of a line completes nothing, and forgets the last line end. -/
theorem shellInput_typed (hn : s.state = .normal) (hc : Typed c) :
    shellInput c s = shellInput c s.fresh ∧ (shellInput c s).1 = false ∧
      (shellInput c s).2.state = .normal ∧ (shellInput c s).2.lastLineEnd = asciiNull := by
  obtain ⟨hesc, hend⟩ := hc.ne
  have hline : shellIsLineEnd c s = (false, s.fresh) := if_pos hend
  have hline' : shellIsLineEnd c s.fresh = (false, s.fresh) := if_pos hend
  unfold shellInput
  rw [shellHandleAnsi_normal hn hesc, shellHandleAnsi_normal (s := s.fresh) hn hesc]
  simp only [hline, hline', true_and]
  split
  · split
    · exact ⟨rfl, hn, rfl⟩
    · exact ⟨rfl, hn, rfl⟩
  · split
    · exact ⟨rfl, hn, rfl⟩
    · exact ⟨rfl, hn, rfl⟩

/-- The characters of a line. -/
theorem Typed.line (commands : Commands) (hl : ∀ c ∈ l, Typed c) : ∀ s : Shell, s.state = .normal →
    completed commands l s = [] ∧ (l.foldl (shellTurn commands) s).state = .normal ∧
      (l.foldl (shellTurn commands) s).fresh = l.foldl (shellTurn commands) s.fresh ∧
      (l = [] ∨ (l.foldl (shellTurn commands) s).lastLineEnd = asciiNull) := by
  induction l with
  | nil =>
    intro s hn
    exact ⟨rfl, hn, rfl, .inl rfl⟩
  | cons c l ih =>
    intro s hn
    obtain ⟨hsame, hgo, hstate, hlast⟩ := shellInput_typed hn (hl c (by simp))
    have hturn : shellTurn commands s c = (shellInput c s).2 := by
      unfold shellTurn
      generalize shellInput c s = r at hgo
      obtain ⟨b, s'⟩ := r
      cases hgo
      rfl
    have hfresh : shellTurn commands s.fresh c = shellTurn commands s c := by
      unfold shellTurn
      rw [hsame]
    have hnull : (shellTurn commands s c).fresh = shellTurn commands s c := by
      rw [hturn, Shell.fresh, ← hlast]
    obtain ⟨hnone, hnormal, heq, hend⟩ :=
      ih (fun b hb => hl b (by simp [hb])) (shellTurn commands s c) (by rw [hturn, hstate])
    refine ⟨?_, hnormal, ?_, .inr ?_⟩
    · rw [completed, if_neg (by rw [hgo]; decide)]
      exact hnone
    · rw [List.foldl_cons, List.foldl_cons, heq, hnull, hfresh]
    · rcases hend with rfl | hend
      · rw [List.foldl_cons, hturn]
        exact hlast
      · exact hend

/-! ## Line ends -/

/-- What is left of a line end that is not let pass, but for the memory of it. -/
def enter (commands : Commands) (s : Shell) : Shell := shellTurn commands s.fresh asciiCr

/-- Saving a line does not look at the last line end. -/
theorem shellHistorySave_lineEnd (b : Bytes.Mem) (c : BitVec 8) (s : Shell) :
    shellHistorySave b { s with lastLineEnd := c } =
      { shellHistorySave b s with lastLineEnd := c } := by
  have hdup : shellHistoryIsLastDuplicate b { s with lastLineEnd := c } =
    shellHistoryIsLastDuplicate b s := rfl
  unfold shellHistorySave
  rw [hdup]
  split
  · rfl
  · rfl

/-- Submitting a line does not look at the last line end. -/
theorem shellSubmit_lineEnd (commands : Commands) (c : BitVec 8) (s : Shell) :
    shellSubmit commands { s with lastLineEnd := c } =
      { shellSubmit commands s with lastLineEnd := c } := by
  unfold shellSubmit
  simp only [shellHistorySave_lineEnd]
  split
  · rfl
  · rfl

/-- The line is what was typed when the line end came. -/
theorem shellLine_end (hn : s.state = .normal) (hc : c = asciiCr ∨ c = asciiLf)
    (hlast : s.lastLineEnd = asciiNull ∨ c = s.lastLineEnd) :
    shellLine (shellInput c s).2 = shellLine s := by
  rw [shellInput_end hn hc hlast]
  unfold shellLine Bytes.load
  refine List.map_congr_left fun i hi => ?_
  have hlt : i < s.len.toNat := List.mem_range.mp hi
  show Function.update s.buf s.len.toNat asciiNull (0 + i) = s.buf (0 + i)
  rw [Function.update_of_ne (by omega)]

/-- The line is submitted. -/
theorem shellTurn_end (commands : Commands) (hn : s.state = .normal)
    (hc : c = asciiCr ∨ c = asciiLf) (hlast : s.lastLineEnd = asciiNull ∨ c = s.lastLineEnd) :
    shellTurn commands s c = { enter commands s with lastLineEnd := c } := by
  unfold enter shellTurn
  rw [shellInput_end hn hc hlast, shellInput_end (s := s.fresh) hn (.inl rfl) (.inl rfl)]
  simp only
  rw [← shellSubmit_lineEnd]
  rfl

/-- The recogniser is back when a line was submitted. -/
theorem enter_state (commands : Commands) (hn : s.state = .normal) :
    (enter commands s).state = .normal := by
  unfold enter shellTurn
  rw [shellInput_end (s := s.fresh) hn (.inl rfl) (.inl rfl)]
  simp only
  have hsave : ∀ (b : Bytes.Mem) (s : Shell), (shellHistorySave b s).state = s.state := by
    intro b s
    unfold shellHistorySave
    split
    · rfl
    · rfl
  unfold shellSubmit
  simp only
  split
  · exact (hsave _ _).trans hn
  · exact hn

/-- One line end, whichever it is. -/
theorem LineEnd.turns (commands : Commands) (e : LineEnd) (hn : s.state = .normal)
    (hlast : s.lastLineEnd = asciiNull ∨ s.lastLineEnd = e.bytes.headD asciiNull) :
    completed commands e.bytes s = [shellLine s] ∧
      e.bytes.foldl (shellTurn commands) s =
        { enter commands s with lastLineEnd := e.bytes.headD asciiNull } := by
  have hone : ∀ c, c = asciiCr ∨ c = asciiLf → s.lastLineEnd = asciiNull ∨ c = s.lastLineEnd → ∀ l,
      completed commands (c :: l) s = shellLine s :: completed commands l
          { enter commands s with lastLineEnd := c } := by
    intro c hc hlast l
    have hgo : (shellInput c s).1 = true := by rw [shellInput_end hn hc hlast]
    rw [completed, if_pos hgo, shellLine_end hn hc hlast, shellTurn_end commands hn hc hlast]
  cases e with
  | cr =>
    have hfirst : s.lastLineEnd = asciiNull ∨ asciiCr = s.lastLineEnd := hlast.imp_right Eq.symm
    exact ⟨hone asciiCr (.inl rfl) hfirst [], shellTurn_end commands hn (.inl rfl) hfirst⟩
  | lf =>
    have hfirst : s.lastLineEnd = asciiNull ∨ asciiLf = s.lastLineEnd := hlast.imp_right Eq.symm
    exact ⟨hone asciiLf (.inr rfl) hfirst [], shellTurn_end commands hn (.inr rfl) hfirst⟩
  | crLf =>
    have hfirst : s.lastLineEnd = asciiNull ∨ asciiCr = s.lastLineEnd := hlast.imp_right Eq.symm
    have hpass : shellInput asciiLf { enter commands s with lastLineEnd := asciiCr } =
        (false, { enter commands s with lastLineEnd := asciiCr }) :=
      shellInput_other (s := { enter commands s with lastLineEnd := asciiCr })
        (enter_state commands hn) (.inr rfl)
        (show asciiCr ≠ asciiNull by decide) (show asciiLf ≠ asciiCr by decide)
    constructor
    · refine (hone asciiCr (.inl rfl) hfirst [asciiLf]).trans ?_
      rw [completed, hpass]
      rfl
    · show shellTurn commands (shellTurn commands s asciiCr) asciiLf = _
      rw [shellTurn_end commands hn (.inl rfl) hfirst]
      unfold shellTurn
      rw [hpass]
      rfl

/-! ## Streams -/

/-- The lines of two streams, one behind the other. -/
theorem completed_append (commands : Commands) (l l' : List (BitVec 8)) (s : Shell) :
    completed commands (l ++ l') s = completed commands l s ++ completed commands l'
      (l.foldl (shellTurn commands) s) := by
  induction l generalizing s with
  | nil => rfl
  | cons c l ih =>
    have htail := ih (shellTurn commands s c)
    simp only [List.cons_append, completed, List.foldl_cons, htail]
    split
    · rfl
    · rfl

/-- The shell after a line, but for the memory of line ends. -/
def afterLine (commands : Commands) (s : Shell) (l : List (BitVec 8)) : Shell :=
  (enter commands (l.foldl (shellTurn commands) s)).fresh

/-- The lines that are typed. -/
def linesFrom (commands : Commands) : List (List (BitVec 8)) → Shell → List (List (BitVec 8))
  | [], _ => []
  | l :: lines, s => shellLine (l.foldl (shellTurn commands) s) :: linesFrom commands lines
      (afterLine commands s l)

/-- Each line is submitted once. -/
theorem length_linesFrom (commands : Commands) (lines : List (List (BitVec 8))) (s : Shell) :
    (linesFrom commands lines s).length = lines.length := by
  induction lines generalizing s with
  | nil => rfl
  | cons l lines ih =>
    rw [linesFrom, List.length_cons, List.length_cons, ih]

/-- A stream, whatever its line ends are. -/
theorem LineEnd.stream_turns (commands : Commands) (e : LineEnd) {lines : List (List (BitVec 8))}
    (hl : ∀ l ∈ lines, ∀ c ∈ l, Typed c) : ∀ s : Shell, s.state = .normal →
      s.lastLineEnd = asciiNull ∨ s.lastLineEnd = e.bytes.headD asciiNull →
      completed commands (e.stream lines) s = linesFrom commands lines s.fresh ∧
        ((e.stream lines).foldl (shellTurn commands) s).fresh = lines.foldl
          (afterLine commands) s.fresh := by
  induction lines with
  | nil =>
    intro s hn hlast
    exact ⟨rfl, rfl⟩
  | cons l lines ih =>
    intro s hn hlast
    obtain ⟨hnone, hnormal, hfresh, hend⟩ := Typed.line commands (hl l (by simp)) s hn
    have hlast' : (l.foldl (shellTurn commands) s).lastLineEnd = asciiNull ∨
        (l.foldl (shellTurn commands) s).lastLineEnd = e.bytes.headD asciiNull := by
      rcases hend with rfl | hend
      · exact hlast
      · exact .inl hend
    obtain ⟨hone, hturns⟩ := e.turns commands hnormal hlast'
    have hsplit : e.stream (l :: lines) = (l ++ e.bytes) ++ e.stream lines := rfl
    have hstate : ((l ++ e.bytes).foldl (shellTurn commands) s) =
        { enter commands (l.foldl (shellTurn commands) s) with
          lastLineEnd := e.bytes.headD asciiNull } := by
      rw [List.foldl_append, hturns]
    have henter : enter commands (l.foldl (shellTurn commands) s) = enter commands
        (l.foldl (shellTurn commands) s.fresh) := by
      rw [← hfresh]
      rfl
    have hafter : afterLine commands s.fresh l =
        (enter commands (l.foldl (shellTurn commands) s)).fresh := by
      unfold afterLine
      rw [henter]
    obtain ⟨hlines, hrest⟩ := ih (fun l' hl' => hl l' (by simp [hl']))
      { enter commands (l.foldl (shellTurn commands) s) with
        lastLineEnd := e.bytes.headD asciiNull }
      (enter_state commands hnormal) (.inr rfl)
    constructor
    · rw [hsplit, completed_append, completed_append, hnone, hone, hstate, hlines, linesFrom,
        hafter, ← hfresh]
      rfl
    · rw [hsplit, List.foldl_append, hstate, hrest, List.foldl_cons, hafter]
      rfl

/-- **Line-ending conventions are equivalent.** Lines that are ended by CR, by LF or by CR LF are
submitted alike, one for each line, and leave the same history behind.
components/shell/src/nd_shell.c:40-53, 136-169, 240-262 -/
theorem line_endings_equivalent (commands : Commands) (lines : List (List (BitVec 8)))
    (hl : ∀ l ∈ lines, ∀ c ∈ l, Typed c) (e e' : LineEnd) :
    submissions commands (e.stream lines) = submissions commands (e'.stream lines) ∧
      (submissions commands (e.stream lines)).length = lines.length ∧
      SameHistory (ndShellTaskEntry commands (e.stream lines))
        (ndShellTaskEntry commands (e'.stream lines)) := by
  have hrun : ∀ e : LineEnd, submissions commands (e.stream lines) = linesFrom commands lines
    (ndShellTaskEntry commands []) ∧
      (ndShellTaskEntry commands (e.stream lines)).fresh =
        lines.foldl (afterLine commands) (ndShellTaskEntry commands []) := fun e =>
    e.stream_turns commands hl (ndShellTaskEntry commands []) rfl (.inl rfl)
  obtain ⟨hlines, hstate⟩ := hrun e
  obtain ⟨hlines', hstate'⟩ := hrun e'
  have hsame := hstate.trans hstate'.symm
  refine ⟨hlines.trans hlines'.symm, ?_, ?_⟩
  · rw [hlines, length_linesFrom]
  · exact ⟨(congrArg Shell.history hsame :), (congrArg Shell.count hsame :),
      (congrArg Shell.writePos hsame :), (congrArg Shell.browsePos hsame :)⟩

/-- Two lines, of which the second one is empty. -/
theorem line_endings_equivalent_empty :
    submissions (fun m => (m, [])) (LineEnd.crLf.stream [[0x68, 0x69], []]) =
      submissions (fun m => (m, [])) (LineEnd.lf.stream [[0x68, 0x69], []]) ∧
    submissions (fun m => (m, [])) (LineEnd.crLf.stream [[0x68, 0x69], []]) = [[0x68, 0x69], []] :=
  ⟨(line_endings_equivalent (fun m => (m, [])) [[0x68, 0x69], []] (by decide) .crLf .lf).1,
    by decide +kernel⟩

end NerdRtos
