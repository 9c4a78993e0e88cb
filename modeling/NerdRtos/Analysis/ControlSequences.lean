import NerdRtos.Analysis.ShellEditor

/-!
# Control sequences

`shell_handle_ansi` takes `ESC`, `[` and one more byte for a control sequence. A sequence without
parameter and intermediate bytes is that long. Of any other one the rest is typed: it stays out of
the line only when the line is full, and even then it comes between two line ends.
-/

set_option autoImplicit false

namespace NerdRtos

variable {s : Shell} {c : BitVec 8} {l : List (BitVec 8)} {commands : Commands}

/-- A control sequence: parameter bytes, intermediate bytes and the final byte. -/
structure ControlSequence where
  params : List (BitVec 8)
  inters : List (BitVec 8)
  final : BitVec 8
  params_range : ∀ c ∈ params, 0x30 ≤ c ∧ c ≤ 0x3F
  inters_range : ∀ c ∈ inters, 0x20 ≤ c ∧ c ≤ 0x2F
  final_range : 0x40 ≤ final ∧ final ≤ 0x7E

namespace ControlSequence

/-- What comes after `ESC [`. -/
def body (q : ControlSequence) : List (BitVec 8) := q.params ++ q.inters ++ [q.final]

/-- The sequence byte by byte. -/
def bytes (q : ControlSequence) : List (BitVec 8) := asciiEsc :: ansiCsiPrefix :: q.body

/-- There are neither parameters nor intermediate bytes. -/
def Bare (q : ControlSequence) : Prop := q.params = [] ∧ q.inters = []

/-- The two sequences that the shell knows. -/
def Arrow (q : ControlSequence) : Prop := q.Bare ∧ (q.final = ansiArrowUp ∨ q.final = ansiArrowDown)

instance (q : ControlSequence) : Decidable q.Bare := inferInstanceAs (Decidable (_ ∧ _))

instance (q : ControlSequence) : Decidable q.Arrow := inferInstanceAs (Decidable (_ ∧ _))

/-- What is left of the sequence when only the arrows are. -/
def kept (q : ControlSequence) : List (BitVec 8) := if q.Arrow then q.bytes else []

/-- What the sequence should do: a step in the history, or nothing. -/
def step (q : ControlSequence) (s : Shell) : Shell :=
  if q.Arrow then
    if q.final = ansiArrowUp then shellHistoryPrev s else shellHistoryNext s
  else s

end ControlSequence

/-- Bytes through `shell_input`, one after the other. -/
def feed (l : List (BitVec 8)) (s : Shell) : Shell := l.foldl (fun s c => (shellInput c s).2) s

/-- The recogniser is back, and the line and the history are what the sequence should make of
them. -/
structure Unleaked (q : ControlSequence) (s s' : Shell) : Prop where
  normal : s'.state = .normal
  buf : s'.buf = (q.step s).buf
  len : s'.len = (q.step s).len
  history : s'.history = (q.step s).history
  count : s'.count = (q.step s).count
  writePos : s'.writePos = (q.step s).writePos
  browsePos : s'.browsePos = (q.step s).browsePos

/-- Two shells have the same line. -/
structure SameLine (s s' : Shell) : Prop where
  len : s.len = s'.len
  chars : ∀ i < s.len.toNat, s.buf i = s'.buf i

/-! ## The state of the recogniser -/

/-- Erasing the line does not look at the state of the recogniser. -/
theorem eraseInput_state (n : ℕ) (st : ShellInputState) :
    ∀ s : Shell, eraseInput n { s with state := st } = { eraseInput n s with state := st } := by
  induction n with
  | zero => exact fun s => rfl
  | succ n ih =>
    intro s
    unfold eraseInput
    split
    · exact ih (eraseChar s)
    · rfl

/-- Copying a line does not look at the state of the recogniser. -/
theorem copyInput_state (line : Bytes.Mem) (n : ℕ) (st : ShellInputState) :
    ∀ s : Shell, copyInput line n { s with state := st } =
      { copyInput line n s with state := st } := by
  induction n with
  | zero => exact fun s => rfl
  | succ n ih =>
    intro s
    unfold copyInput
    simp only
    split
    · exact ih { shellPutc (line s.len.toNat)
        { s with buf := Function.update s.buf s.len.toNat (line s.len.toNat) } with len := s.len +
          1 }
    · rfl

/-- Replacing the line does not look at the state of the recogniser. -/
theorem shellReplaceInput_state (line : Bytes.Mem) (st : ShellInputState) (s : Shell) :
    shellReplaceInput line { s with state := st } =
      { shellReplaceInput line s with state := st } := by
  unfold shellReplaceInput
  simp only [eraseInput_state, copyInput_state]

/-- Going back in the history does not look at the state of the recogniser. -/
theorem shellHistoryPrev_state (st : ShellInputState) (s : Shell) :
    shellHistoryPrev { s with state := st } = { shellHistoryPrev s with state := st } := by
  unfold shellHistoryPrev
  split
  · rfl
  · exact shellReplaceInput_state _ st { s with browsePos := s.browsePos + 1 }

/-- Going on in the history does not look at the state of the recogniser. -/
theorem shellHistoryNext_state (st : ShellInputState) (s : Shell) :
    shellHistoryNext { s with state := st } = { shellHistoryNext s with state := st } := by
  unfold shellHistoryNext
  split
  · rfl
  · simp only
    split
    · exact shellReplaceInput_state _ st { s with browsePos := s.browsePos - 1 }
    · exact shellReplaceInput_state _ st { s with browsePos := s.browsePos - 1 }

/-! ## Bytes -/

/-- What the third byte of a sequence does. -/
def thirdByte (c : BitVec 8) (s : Shell) : Shell :=
  if c = ansiArrowUp then shellHistoryPrev s
  else if c = ansiArrowDown then shellHistoryNext s
  else s

/-- Behind `ESC [` the recogniser waits for the third byte. -/
theorem feed_csi (hn : s.state = .normal) (l : List (BitVec 8)) :
    feed (asciiEsc :: ansiCsiPrefix :: l) s = feed l { s with state := .csi } := by
  show feed (ansiCsiPrefix :: l) (shellInput asciiEsc s).2 = _
  have hesc : (shellInput asciiEsc s).2 = { s with state := .esc } := by
    unfold shellInput shellHandleAnsi
    rw [hn]
    rfl
  rw [hesc]
  rfl

/-- The third byte ends every sequence.
components/shell/src/nd_shell.c:123-130 -/
theorem shellInput_csi (c : BitVec 8) (s : Shell) :
    shellInput c { s with state := .csi } = (false, { thirdByte c s with state := .normal }) := by
  unfold shellInput shellHandleAnsi thirdByte
  simp only
  split
  · rw [shellHistoryPrev_state]
  · split
    · rw [shellHistoryNext_state]
    · rfl

/-- A printable byte is none of those that the shell acts on. -/
theorem printable_ne (hp : isPrintable c = true) :
    c ≠ asciiEsc ∧ (c ≠ asciiCr ∧ c ≠ asciiLf) ∧ ¬ (c = asciiBackspace ∨ c = asciiDel) := by
  refine ⟨?_, ⟨?_, ?_⟩, ?_⟩
  · rintro rfl
    cases hp
  · rintro rfl
    cases hp
  · rintro rfl
    cases hp
  · rintro (rfl | rfl) <;> cases hp

/-- A character that finds no room. -/
theorem shellInput_full (hn : s.state = .normal) (hp : isPrintable c = true)
    (hfull : ¬ s.len.toNat < shellBufferSize - 1) :
    shellInput c s = (false, { s with lastLineEnd := asciiNull }) := by
  obtain ⟨hesc, hend, hdel⟩ := printable_ne hp
  have hline : shellIsLineEnd c s = (false, { s with lastLineEnd := asciiNull }) := if_pos hend
  unfold shellInput
  rw [shellHandleAnsi_normal hn hesc]
  simp only [hline]
  rw [if_neg hdel, if_neg fun hgo => hfull hgo.2]

/-- A character that finds room. -/
theorem shellInput_room (hn : s.state = .normal) (hp : isPrintable c = true)
    (hroom : s.len.toNat < shellBufferSize - 1) :
    shellInput c s = (false, shellPutc c
      { s with
        lastLineEnd := asciiNull, browsePos := -1
        buf := Function.update s.buf s.len.toNat c, len := s.len + 1 }) := by
  obtain ⟨hesc, hend, hdel⟩ := printable_ne hp
  have hline : shellIsLineEnd c s = (false, { s with lastLineEnd := asciiNull }) := if_pos hend
  unfold shellInput
  rw [shellHandleAnsi_normal hn hesc]
  simp only [hline]
  rw [if_neg hdel, if_pos ⟨hp, hroom⟩]

/-- Characters that find no room. -/
theorem feed_full (hl : ∀ c ∈ l, isPrintable c = true) (hne : l ≠ []) :
    ∀ s : Shell, s.state = .normal → ¬ s.len.toNat < shellBufferSize - 1 →
      feed l s = { s with lastLineEnd := asciiNull } := by
  induction l with
  | nil => exact absurd rfl hne
  | cons c l ih =>
    intro s hn hfull
    show feed l (shellInput c s).2 = _
    rw [shellInput_full hn (hl c (by simp)) hfull]
    by_cases hnil : l = []
    · rw [hnil]
      rfl
    · exact ih (fun b hb => hl b (by simp [hb])) hnil { s with lastLineEnd := asciiNull } hn hfull

/-- A character makes the line longer, or leaves it. -/
theorem shellInput_len (hn : s.state = .normal) (hp : isPrintable c = true) :
    (shellInput c s).1 = false ∧ (shellInput c s).2.state = .normal ∧
      (shellInput c s).2.len.toNat =
        if s.len.toNat < shellBufferSize - 1 then s.len.toNat + 1 else s.len.toNat := by
  by_cases hroom : s.len.toNat < shellBufferSize - 1
  · rw [shellInput_room hn hp hroom, if_pos hroom]
    refine ⟨rfl, hn, ?_⟩
    show (s.len + 1).toNat = _
    unfold shellBufferSize at hroom
    bv_omega
  · rw [shellInput_full hn hp hroom, if_neg hroom]
    exact ⟨rfl, hn, rfl⟩

/-- The line does not become shorter. -/
theorem feed_len (hl : ∀ c ∈ l, isPrintable c = true) :
    ∀ s : Shell, s.state = .normal → s.len.toNat ≤ (feed l s).len.toNat := by
  induction l with
  | nil => exact fun s _ => le_rfl
  | cons c l ih =>
    intro s hn
    obtain ⟨-, hstate, hlen⟩ := shellInput_len hn (hl c (by simp))
    have hrest := ih (fun b hb => hl b (by simp [hb])) (shellInput c s).2 hstate
    have hgrow : s.len.toNat ≤ (shellInput c s).2.len.toNat := by
      rw [hlen]
      split <;> omega
    exact hgrow.trans hrest

/-- Characters do not submit the line. -/
theorem turns_eq_feed (hl : ∀ c ∈ l, isPrintable c = true) :
    ∀ s : Shell, s.state = .normal → l.foldl (shellTurn commands) s = feed l s := by
  induction l with
  | nil => exact fun s _ => rfl
  | cons c l ih =>
    intro s hn
    obtain ⟨hgo, hstate, -⟩ := shellInput_len hn (hl c (by simp))
    have hturn : shellTurn commands s c = (shellInput c s).2 := by
      unfold shellTurn
      generalize shellInput c s = r at hgo
      obtain ⟨b, s'⟩ := r
      cases hgo
      rfl
    show l.foldl (shellTurn commands) (shellTurn commands s c) = feed l (shellInput c s).2
    rw [hturn]
    exact ih (fun b hb => hl b (by simp [hb])) _ hstate

/-! ## Sequences -/

variable {q : ControlSequence}

/-- The rest of a sequence that is not bare is typed: its second byte and what follows. -/
theorem ControlSequence.body_of_not_bare (h : ¬ q.Bare) :
    ∃ c l, q.body = c :: l ∧ c ≠ ansiArrowUp ∧ c ≠ ansiArrowDown ∧ l ≠ [] ∧
      ∀ b ∈ l, isPrintable b = true := by
  have hprint : ∀ b ∈ q.body, isPrintable b = true := by
    intro b hb
    have hfinal := q.final_range
    rcases List.mem_append.mp hb with hb | hb
    · rcases List.mem_append.mp hb with hb | hb
      · have hrange := q.params_range b hb
        simp only [isPrintable, Bool.and_eq_true, decide_eq_true_eq]
        bv_omega
      · have hrange := q.inters_range b hb
        simp only [isPrintable, Bool.and_eq_true, decide_eq_true_eq]
        bv_omega
    · rw [List.mem_singleton.mp hb]
      simp only [isPrintable, Bool.and_eq_true, decide_eq_true_eq]
      bv_omega
  have hlow : ∀ b : BitVec 8, b ≤ 0x3F → b ≠ ansiArrowUp ∧ b ≠ ansiArrowDown := by
    intro b hb
    unfold ansiArrowUp ansiArrowDown
    constructor <;> bv_omega
  cases hq : q.params ++ q.inters with
  | nil => exact absurd (List.append_eq_nil_iff.mp hq) h
  | cons c l =>
    have hbody : q.body = c :: (l ++ [q.final]) := by
      unfold ControlSequence.body
      rw [hq]
      rfl
    have hc : c ≤ 0x3F := by
      have hmem : c ∈ q.params ++ q.inters := by
        rw [hq]
        exact List.mem_cons_self
      rcases List.mem_append.mp hmem with hm | hm
      · exact (q.params_range c hm).2
      · have hrange := q.inters_range c hm
        bv_omega
    refine ⟨c, l ++ [q.final], hbody, (hlow c hc).1, (hlow c hc).2, by simp, fun b hb => ?_⟩
    exact hprint b (by rw [hbody]; exact List.mem_cons_of_mem _ hb)

/-- A shell whose recogniser is back is itself. -/
theorem normal_eta (hn : s.state = .normal) : { s with state := .normal } = s := by
  rw [← hn]

/-- A bare sequence has nothing but its final byte behind `ESC [`. -/
theorem ControlSequence.body_of_bare (h : q.Bare) : q.body = [q.final] := by
  unfold ControlSequence.body
  rw [h.1, h.2]
  rfl

/-- What a bare sequence should do is what the shell does at the third byte. -/
theorem ControlSequence.step_of_bare (h : q.Bare) (s : Shell) : q.step s = thirdByte q.final s := by
  unfold ControlSequence.step thirdByte
  by_cases hup : q.final = ansiArrowUp
  · have ha : q.Arrow := ⟨h, .inl hup⟩
    rw [if_pos ha]
    simp only [hup, if_true]
  · by_cases hdown : q.final = ansiArrowDown
    · have ha : q.Arrow := ⟨h, .inr hdown⟩
      rw [if_pos ha, if_neg hup, if_neg hup, if_pos hdown]
    · have ha : ¬ q.Arrow := fun ha => ha.2.elim hup hdown
      rw [if_neg ha, if_neg hup, if_neg hdown]

/-- A bare sequence. -/
theorem feed_bare (hn : s.state = .normal) (hq : q.Bare) :
    feed q.bytes s = { q.step s with state := .normal } := by
  unfold ControlSequence.bytes
  rw [feed_csi hn, ControlSequence.body_of_bare hq, ControlSequence.step_of_bare hq]
  show (shellInput q.final { s with state := .csi }).2 = _
  rw [shellInput_csi]

/-- A sequence that is not bare is its tail. -/
theorem feed_not_bare (hn : s.state = .normal) (hq : ¬ q.Bare) :
    ∃ l, l ≠ [] ∧ (∀ b ∈ l, isPrintable b = true) ∧ feed q.bytes s = feed l s := by
  obtain ⟨c, l, hbody, hup, hdown, hne, hprint⟩ := q.body_of_not_bare hq
  refine ⟨l, hne, hprint, ?_⟩
  unfold ControlSequence.bytes
  rw [feed_csi hn, hbody]
  show feed l (shellInput c { s with state := .csi }).2 = _
  rw [shellInput_csi]
  unfold thirdByte
  rw [if_neg hup, if_neg hdown, normal_eta hn]

/-- The turns of the shell for a sequence. -/
theorem turns_bytes (hn : s.state = .normal) (q : ControlSequence) :
    q.bytes.foldl (shellTurn commands) s = feed q.bytes s := by
  have hcsi : ∀ l, (asciiEsc :: ansiCsiPrefix :: l).foldl (shellTurn commands) s =
      l.foldl (shellTurn commands) { s with state := .csi } := by
    intro l
    have hesc : shellTurn commands s asciiEsc = { s with state := .esc } := by
      unfold shellTurn shellInput shellHandleAnsi
      rw [hn]
      rfl
    show (ansiCsiPrefix :: l).foldl (shellTurn commands) (shellTurn commands s asciiEsc) = _
    rw [hesc]
    rfl
  have hthird : ∀ c, shellTurn commands { s with state := .csi } c =
      { thirdByte c s with state := .normal } := by
    intro c
    unfold shellTurn
    rw [shellInput_csi]
  unfold ControlSequence.bytes
  rw [hcsi, feed_csi hn]
  by_cases hq : q.Bare
  · rw [ControlSequence.body_of_bare hq]
    show shellTurn commands { s with state := .csi } q.final =
      (shellInput q.final { s with state := .csi }).2
    rw [hthird, shellInput_csi]
  · obtain ⟨c, l, hbody, hup, hdown, -, hprint⟩ := q.body_of_not_bare hq
    rw [hbody]
    show l.foldl (shellTurn commands) (shellTurn commands { s with state := .csi } c) =
      feed l (shellInput c { s with state := .csi }).2
    rw [hthird, shellInput_csi]
    exact turns_eq_feed hprint _ rfl

/-- A sequence that neither is bare nor finds the line full makes it longer. -/
theorem feed_leaks (hn : s.state = .normal) (hq : ¬ q.Bare)
    (hroom : s.len.toNat < shellBufferSize - 1) :
    s.len.toNat < (feed q.bytes s).len.toNat := by
  obtain ⟨l, hne, hprint, hfeed⟩ := feed_not_bare hn hq
  rw [hfeed]
  cases l with
  | nil => exact absurd rfl hne
  | cons c l =>
    obtain ⟨-, hstate, hlen⟩ := shellInput_len hn (hprint c (by simp))
    have hrest := feed_len (l := l) (fun b hb => hprint b (by simp [hb])) (shellInput c s).2 hstate
    rw [hlen, if_pos hroom] at hrest
    exact hrest

/-- The rest of a sequence that finds the line full comes between two line ends. -/
theorem feed_not_bare_full (hn : s.state = .normal) (hq : ¬ q.Bare)
    (hfull : ¬ s.len.toNat < shellBufferSize - 1) :
    feed q.bytes s = { s with lastLineEnd := asciiNull } := by
  obtain ⟨l, hne, hprint, hfeed⟩ := feed_not_bare hn hq
  rw [hfeed, feed_full hprint hne s hn hfull]

/-- The shell is as if the sequence had not been there, or only the arrow. -/
theorem turns_kept (hn : s.state = .normal)
    (h : q.Bare ∨ ¬ s.len.toNat < shellBufferSize - 1 ∧ s.lastLineEnd = asciiNull) :
    q.bytes.foldl (shellTurn commands) s = q.kept.foldl (shellTurn commands) s := by
  unfold ControlSequence.kept
  by_cases ha : q.Arrow
  · rw [if_pos ha]
  · rw [if_neg ha, turns_bytes hn]
    show feed q.bytes s = s
    by_cases hq : q.Bare
    · rw [feed_bare hn hq]
      unfold ControlSequence.step
      rw [if_neg ha, normal_eta hn]
    · obtain ⟨hfull, hlast⟩ := h.resolve_left hq
      rw [feed_not_bare_full hn hq hfull, ← hlast]

/-! ## Streams -/

/-- A stream in bytes and control sequences. -/
inductive Piece
  | byte (c : BitVec 8)
  | control (q : ControlSequence)

/-- All of the bytes. -/
def Piece.bytes : Piece → List (BitVec 8)
  | .byte c => [c]
  | .control q => q.bytes

/-- The bytes without those of the sequences that the shell does not know. -/
def Piece.kept : Piece → List (BitVec 8)
  | .byte c => [c]
  | .control q => q.kept

/-- When the shell keeps a sequence out: it is bare, or the line is full and no line end came
last. -/
def KeptOut (q : ControlSequence) (s : Shell) : Prop :=
    q.Bare ∨ s.len = 127 ∧ s.lastLineEnd = asciiNull

instance (q : ControlSequence) (s : Shell) : Decidable (KeptOut q s) :=
  inferInstanceAs (Decidable (_ ∨ _))

/-- Every sequence of the stream begins outside of any other one and is kept out. -/
def AllKeptOut (commands : Commands) : Shell → List Piece → Prop
  | _, [] => True
  | s, .byte c :: l => AllKeptOut commands (shellTurn commands s c) l
  | s, .control q :: l =>
    s.state = .normal ∧ KeptOut q s ∧ AllKeptOut commands (q.bytes.foldl (shellTurn commands) s) l

/-- A sequence that is kept out leaves the shell as its kept part does, whatever the commands
are. -/
theorem KeptOut.turns (hn : s.state = .normal) (h : KeptOut q s) :
    q.bytes.foldl (shellTurn commands) s = q.kept.foldl (shellTurn commands) s := by
  refine turns_kept hn (h.imp_right fun hfull => ⟨?_, hfull.2⟩)
  rw [hfull.1]
  decide

/-- The shell is as if the other sequences had not been there. -/
theorem AllKeptOut.turns {l : List Piece} :
    ∀ {s : Shell}, AllKeptOut commands s l →
      (l.flatMap Piece.bytes).foldl (shellTurn commands) s =
        (l.flatMap Piece.kept).foldl (shellTurn commands) s := by
  induction l with
  | nil => exact fun _ => rfl
  | cons p l ih =>
    intro s h
    rw [List.flatMap_cons, List.flatMap_cons, List.foldl_append, List.foldl_append]
    cases p with
    | byte c => exact ih h
    | control q =>
      obtain ⟨hn, hkept, hrest⟩ := h
      refine (ih hrest).trans ?_
      rw [hkept.turns hn]
      rfl

/-- A line end that is lost without what came before it. -/
theorem exists_lost_end (commands : Commands) (hn : s.state = .normal)
    (hlast : s.lastLineEnd ≠ asciiNull) :
    ∃ c, shellTurn commands s c = s ∧
      (shellTurn commands { s with lastLineEnd := asciiNull } c).len = 0 := by
  obtain ⟨c, hend, hne⟩ : ∃ c, (c = asciiCr ∨ c = asciiLf) ∧ c ≠ s.lastLineEnd := by
    by_cases hcr : asciiCr = s.lastLineEnd
    · refine ⟨asciiLf, .inr rfl, ?_⟩
      rw [← hcr]
      decide
    · exact ⟨asciiCr, .inl rfl, hcr⟩
  refine ⟨c, ?_, ?_⟩
  · unfold shellTurn
    rw [shellInput_other hn hend hlast hne]
  · unfold shellTurn
    rw [shellInput_end (s := { s with lastLineEnd := asciiNull }) hn hend (.inl rfl)]
    rfl

/-- **Control sequences stay out of the line exactly when they are bare or find it full**, and not
between two line ends. A stream all of whose sequences do edits the same line as the stream without
them.
components/shell/src/nd_shell.c:106-169 -/
theorem control_sequence_kept_out_iff (commands : Commands) (input : List (BitVec 8))
    (hn : (ndShellTaskEntry commands input).state = .normal) :
    (∀ q : ControlSequence,
      (Unleaked q (ndShellTaskEntry commands input)
        (feed q.bytes (ndShellTaskEntry commands input)) ∧
        ∀ rest, SameLine (ndShellTaskEntry commands (input ++ q.bytes ++ rest))
          (ndShellTaskEntry commands (input ++ q.kept ++ rest))) ↔
        KeptOut q (ndShellTaskEntry commands input)) ∧
    ∀ l : List Piece, AllKeptOut commands (ndShellTaskEntry commands input) l →
      SameLine (ndShellTaskEntry commands (input ++ l.flatMap Piece.bytes))
        (ndShellTaskEntry commands (input ++ l.flatMap Piece.kept)) := by
  have hlen : (ndShellTaskEntry commands input).len.toNat ≤ 127 := by
    have hshows := shows_input commands input
    rw [hshows.len]
    exact hshows.ok.line
  have hmore : ∀ l, ndShellTaskEntry commands (input ++ l) =
      l.foldl (shellTurn commands) (ndShellTaskEntry commands input) := by
    intro l
    unfold ndShellTaskEntry
    rw [List.foldl_append]
  simp only [List.append_assoc, hmore, List.foldl_append]
  generalize ndShellTaskEntry commands input = s at hn hlen
  refine ⟨fun q => ⟨fun ⟨hout, hsame⟩ => ?_, fun hkept => ⟨?_, fun rest => ?_⟩⟩, fun l hl => ?_⟩
  · by_contra hnot
    obtain ⟨hq, hfull⟩ := not_or.mp hnot
    have ha : ¬ q.Arrow := fun ha => hq ha.1
    have hstep : q.step s = s := if_neg ha
    by_cases hroom : s.len.toNat < shellBufferSize - 1
    · have hlonger := feed_leaks hn hq hroom
      rw [hout.len, hstep] at hlonger
      exact lt_irrefl _ hlonger
    · have h127 : s.len = 127 := by
        unfold shellBufferSize at hroom
        bv_omega
      have hlast : s.lastLineEnd ≠ asciiNull := fun hl => hfull ⟨h127, hl⟩
      obtain ⟨c, hstay, hsubmit⟩ := exists_lost_end commands hn hlast
      have hlines := (hsame [c]).len
      have hkept : q.kept = [] := if_neg ha
      rw [turns_bytes hn, feed_not_bare_full hn hq hroom, hkept] at hlines
      simp only [List.foldl_cons, List.foldl_nil] at hlines
      rw [hstay, hsubmit, h127] at hlines
      exact absurd hlines (by decide)
  · rcases hkept with hq | ⟨h127, hlast⟩
    · rw [feed_bare hn hq]
      exact ⟨rfl, rfl, rfl, rfl, rfl, rfl, rfl⟩
    · by_cases hq : q.Bare
      · rw [feed_bare hn hq]
        exact ⟨rfl, rfl, rfl, rfl, rfl, rfl, rfl⟩
      · have hstep : q.step s = s := if_neg fun ha => hq ha.1
        rw [feed_not_bare_full hn hq (by rw [h127]; decide)]
        refine ⟨hn, ?_, ?_, ?_, ?_, ?_, ?_⟩ <;> rw [hstep]
  · rw [hkept.turns hn]
    exact ⟨rfl, fun i _ => rfl⟩
  · rw [hl.turns]
    exact ⟨rfl, fun i _ => rfl⟩

/-- `ESC [ D`, the key Left. -/
def leftKey : ControlSequence where
  params := []
  inters := []
  final := 0x44
  params_range := by decide
  inters_range := by decide
  final_range := by decide

/-- Left, typed behind `hi`, stays out of the line, whatever is typed next. -/
theorem control_sequence_kept_out_left :
    (ndShellTaskEntry (fun m => (m, [])) [0x68, 0x69]).state = .normal ∧
      Unleaked leftKey (ndShellTaskEntry (fun m => (m, [])) [0x68, 0x69])
        (feed leftKey.bytes (ndShellTaskEntry (fun m => (m, [])) [0x68, 0x69])) ∧
      ∀ rest, SameLine (ndShellTaskEntry (fun m => (m, [])) ([0x68, 0x69] ++ leftKey.bytes ++ rest))
        (ndShellTaskEntry (fun m => (m, [])) ([0x68, 0x69] ++ leftKey.kept ++ rest)) := by
  have hn : (ndShellTaskEntry (fun m => (m, [])) [0x68, 0x69]).state = .normal := by
    decide +kernel
  have hkept : KeptOut leftKey (ndShellTaskEntry (fun m => (m, [])) [0x68, 0x69]) :=
    .inl ⟨rfl, rfl⟩
  exact ⟨hn, ((control_sequence_kept_out_iff (fun m => (m, [])) [0x68, 0x69] hn).1 leftKey).mpr
    hkept⟩

/-- `ESC [ 3 ~`, the key Delete. -/
def deleteKey : ControlSequence where
  params := [0x33]
  inters := []
  final := 0x7E
  params_range := by decide
  inters_range := by decide
  final_range := by decide

/-- Delete, typed at an empty line, leaves a tilde there. -/
theorem delete_leaks :
    (ndShellTaskEntry (fun m => (m, [])) []).state = .normal ∧
      ¬ Unleaked deleteKey (ndShellTaskEntry (fun m => (m, [])) [])
        (feed deleteKey.bytes (ndShellTaskEntry (fun m => (m, [])) [])) ∧
      (feed deleteKey.bytes (ndShellTaskEntry (fun m => (m, [])) [])).len = 1 ∧
      (feed deleteKey.bytes (ndShellTaskEntry (fun m => (m, [])) [])).buf 0 = 0x7E := by
  refine ⟨rfl, fun h => ?_, by decide +kernel, by decide +kernel⟩
  have hlen := h.len
  revert hlen
  decide +kernel

end NerdRtos
