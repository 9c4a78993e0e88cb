import NerdRtos.Lib.LineEditor
import NerdRtos.Model.Shell
import Mathlib.Order.Basic
import Mathlib.Tactic.NormNum

/-!
# The shell as a line editor

The bytes that the shell reads are decoded into keys, and the buffer, the ring of history rows and
the browse position show what an editor with a line of 127 characters and a history of 8 lines shows
after these keys.
-/

set_option autoImplicit false

namespace NerdRtos

open Bytes (Mem)
open Function (update)
open LineEditor (Key Editor Recent recentSlot)

variable {s : Shell} {m dest : Mem} {l l' : List (BitVec 8)} {c : BitVec 8} {i n : ℕ}

/-! ## Keys -/

/-- The key of the last byte of an escape sequence. -/
def arrowKey (c : BitVec 8) : List (Key (BitVec 8)) :=
  if c = ansiArrowUp then [.older] else if c = ansiArrowDown then [.newer] else []

/-- The key of any other byte. -/
def plainKey (c : BitVec 8) : List (Key (BitVec 8)) :=
  if c = asciiBackspace ∨ c = asciiDel then [.erase]
  else if isPrintable c then [.char c]
  else []

/-- The keys of a stream of bytes, after the line end `e`. `ESC [` and a byte are one key or none,
`ESC` and any other byte are none. Of the line ends that follow each other those are Enter which are
the same as the first one. -/
def keysFrom : List (BitVec 8) → Option (BitVec 8) → List (Key (BitVec 8))
  | [], _ => []
  | c :: l, e =>
    if c = asciiEsc then
      match l with
      | [] => []
      | b :: l =>
        if b = ansiCsiPrefix then
          match l with
          | [] => []
          | a :: l => arrowKey a ++ keysFrom l e
        else keysFrom l e
    else if c = asciiCr ∨ c = asciiLf then
      if e = none ∨ e = some c then .enter :: keysFrom l (some c) else keysFrom l e
    else plainKey c ++ keysFrom l none

/-- The keys of a stream of bytes. -/
def keys (input : List (BitVec 8)) : List (Key (BitVec 8)) := keysFrom input none

/-! ## Strings -/

/-- The string at `m`, which ends within the buffer. -/
structure CString (m : Mem) (l : List (BitVec 8)) : Prop where
  chars : ∀ i x, l[i]? = some x → m i = x ∧ x ≠ 0
  stop : m l.length = 0
  room : l.length < shellBufferSize

/-- A character of a string is not its end. -/
theorem CString.at_lt (h : CString m l) (hi : i < l.length) : m i = l[i] ∧ m i ≠ 0 := by
  obtain ⟨heq, hne⟩ := h.chars i l[i] (List.getElem?_eq_getElem hi)
  exact ⟨heq, heq ▸ hne⟩

/-- `nd_memset` of zeros, byte by byte. -/
theorem zeroFill_apply (n i : ℕ) (dest : Mem) (z : ℕ) :
    zeroFill n i dest z = if i ≤ z ∧ z < i + n then 0 else dest z := by
  induction n generalizing i dest with
  | zero =>
    rw [if_neg (by omega)]
    rfl
  | succ n ih =>
    unfold zeroFill
    rw [ih]
    by_cases hz : z = i
    · subst hz
      rw [if_neg (by omega), if_pos (by omega), Function.update_self]
    · rw [Function.update_of_ne hz]
      by_cases hin : i + 1 ≤ z ∧ z < i + 1 + n
      · rw [if_pos hin, if_pos (by omega)]
      · rw [if_neg hin, if_neg (by omega)]

/-- `nd_strncpy` of the rest of a string copies it and fills up with zeros. -/
theorem CString.strncpy (h : CString m l) (n : ℕ) :
    ∀ i dest, i ≤ l.length → l.length < i + n → ∀ z,
      ndStrncpy m n i dest z =
        if i ≤ z ∧ z < i + n then (if z < l.length then m z else 0) else dest z := by
  induction n with
  | zero => exact fun i dest hi hn => absurd hn (by omega)
  | succ n ih =>
    intro i dest hi hn z
    unfold ndStrncpy
    by_cases hend : i = l.length
    · subst hend
      rw [if_neg (fun hne => hne h.stop), zeroFill_apply]
      by_cases hz : l.length ≤ z ∧ z < l.length + (n + 1)
      · rw [if_pos hz, if_pos hz, if_neg (by omega)]
      · rw [if_neg hz, if_neg hz]
    · have hlt : i < l.length := by omega
      rw [if_pos (h.at_lt hlt).2, ih (i + 1) _ hlt (by omega)]
      by_cases hz : z = i
      · subst hz
        rw [if_neg (by omega), if_pos (by omega), if_pos hlt, Function.update_self]
      · rw [Function.update_of_ne hz]
        by_cases hin : i + 1 ≤ z ∧ z < i + 1 + n
        · rw [if_pos hin, if_pos (show i ≤ z ∧ z < i + (n + 1) by omega)]
        · rw [if_neg hin, if_neg (by omega)]

/-- The copy is the string. -/
theorem CString.copied (h : CString m l) (dest : Mem) :
    CString (ndStrncpy m shellBufferSize 0 dest) l := by
  have hroom := h.room
  have happly := h.strncpy shellBufferSize 0 dest (by omega) (by omega)
  refine ⟨fun i x hx => ?_, ?_, hroom⟩
  · obtain ⟨hi, -⟩ := List.getElem?_eq_some_iff.mp hx
    rw [happly, if_pos (by omega), if_pos hi]
    exact h.chars i x hx
  · rw [happly, if_pos (by omega), if_neg (Nat.lt_irrefl _)]

/-- `nd_strcmp` from a common part on. -/
theorem CString.strcmp (h : CString m l) {m' : Mem} (h' : CString m' l') (n : ℕ) :
    ∀ i, i ≤ l.length → i ≤ l'.length → (∀ j < i, m j = m' j) → l.length < i + n →
      (ndStrcmp m m' n i = some 0 ↔ l = l') := by
  induction n with
  | zero => exact fun i hi _ _ hn => absurd hn (by omega)
  | succ n ih =>
    intro i hi hi' hsame hn
    unfold ndStrcmp
    by_cases hgo : m i ≠ 0 ∧ m i = m' i
    · rw [if_pos hgo]
      have hlt : i < l.length := by
        by_contra hge
        obtain rfl : i = l.length := by omega
        exact hgo.1 h.stop
      have hlt' : i < l'.length := by
        by_contra hge
        obtain rfl : i = l'.length := by omega
        exact hgo.1 (hgo.2.trans h'.stop)
      refine ih (i + 1) hlt hlt' (fun j hj => ?_) (by omega)
      rcases Nat.lt_succ_iff_lt_or_eq.mp hj with hj | rfl
      · exact hsame j hj
      · exact hgo.2
    · rw [if_neg hgo, Option.some.injEq]
      constructor
      · -- both strings end here
        intro hzero
        have heq : m i = m' i := by
          apply BitVec.eq_of_toNat_eq
          omega
        have hend : m i = 0 := by
          by_contra hne
          exact hgo ⟨hne, heq⟩
        have hl : l.length = i := by
          by_contra hne
          exact (h.at_lt (by omega)).2 hend
        have hl' : l'.length = i := by
          by_contra hne
          exact (h'.at_lt (i := i) (by omega)).2 (heq.symm.trans hend)
        refine List.ext_getElem (hl.trans hl'.symm) fun j hj hj' => ?_
        rw [← (h.at_lt hj).1, ← (h'.at_lt hj').1]
        exact hsame j (by omega)
      · rintro rfl
        have heq : m i = m' i := by
          rcases Nat.lt_or_ge i l.length with hlt | hge
          · rw [(h.at_lt hlt).1, (h'.at_lt hlt).1]
          · obtain rfl : i = l.length := by omega
            rw [h.stop, h'.stop]
        rw [heq]
        omega

/-! ## The line -/

/-- `eraseInput` gives back the whole line. -/
theorem eraseInput_eq (n : ℕ) :
    ∀ s : Shell, s.len.toNat = n → ∃ o, eraseInput n s = { s with len := 0, out := o } := by
  induction n with
  | zero =>
    intro s hn
    have hzero : s.len = 0 := BitVec.eq_of_toNat_eq hn
    refine ⟨s.out, ?_⟩
    rw [← hzero]
    rfl
  | succ n ih =>
    intro s hn
    have hpos : 0 < s.len := by
      rw [BitVec.lt_def, hn]
      exact Nat.succ_pos n
    have hlen : (s.len - 1).toNat = n := by bv_omega
    obtain ⟨o, ho⟩ := ih (eraseChar s) hlen
    unfold eraseInput
    rw [if_pos hpos, ho]
    exact ⟨o, rfl⟩

/-- `copyInput` copies the rest of a string. -/
theorem copyInput_eq (h : CString m l) (n : ℕ) :
    ∀ s : Shell, s.len.toNat ≤ l.length → l.length < s.len.toNat + n →
      (∀ j < s.len.toNat, s.buf j = m j) →
      ∃ b o, copyInput m n s = { s with buf := b, len := BitVec.ofNat 8 l.length, out := o } ∧
        ∀ j < l.length, b j = m j := by
  have hroom := h.room
  unfold shellBufferSize at hroom
  induction n with
  | zero => exact fun s hle hn => absurd hn (by omega)
  | succ n ih =>
    intro s hle hn hsame
    by_cases hend : s.len.toNat = l.length
    · refine ⟨s.buf, s.out, ?_, fun j hj => hsame j (by omega)⟩
      unfold copyInput
      rw [if_neg (fun hgo => hgo.1 (by rw [hend]; exact h.stop)), ← hend, BitVec.ofNat_toNat]
      simp
    · have hlt : s.len.toNat < l.length := by omega
      have hnext : (s.len + 1).toNat = s.len.toNat + 1 := by bv_omega
      unfold copyInput
      rw [if_pos ⟨(h.at_lt hlt).2, by unfold shellBufferSize; omega⟩]
      obtain ⟨b, o, heq, hb⟩ := ih
        { shellPutc (m s.len.toNat) { s with buf := update s.buf s.len.toNat (m s.len.toNat) } with
          len := s.len + 1 } (by simp only; omega) (by simp only; omega)
        (fun j hj => by
          simp only [hnext] at hj
          show update s.buf s.len.toNat (m s.len.toNat) j = m j
          by_cases hj' : j = s.len.toNat
          · rw [hj', Function.update_self]
          · rw [Function.update_of_ne hj']
            exact hsame j (by omega))
      exact ⟨b, o, heq, hb⟩

/-- `shell_replace_input` with a string shows it.
components/shell/src/nd_shell.c:55-71 -/
theorem shellReplaceInput_eq (h : CString m l) (s : Shell) :
    ∃ b o, shellReplaceInput m s = { s with buf := b, len := BitVec.ofNat 8 l.length, out := o } ∧
      ∀ j < l.length, b j = m j := by
  have hroom := h.room
  unfold shellBufferSize at hroom
  obtain ⟨o₁, herase⟩ := eraseInput_eq _ s rfl
  obtain ⟨b, o, hcopy, hb⟩ := copyInput_eq h shellBufferSize { s with len := 0, out := o₁ }
    (by simp)
    (by simp [shellBufferSize]; omega) (fun j hj => by simp at hj)
  unfold shellReplaceInput
  simp only [herase, hcopy]
  refine ⟨update b l.length 0, o, ?_, fun j hj => ?_⟩
  · have hlen : (BitVec.ofNat 8 l.length).toNat = l.length := by
      rw [BitVec.toNat_ofNat]
      omega
    simp only [hlen]
    rfl
  · rw [Function.update_of_ne hj.ne]
    exact hb j hj

/-! ## What the shell shows -/

/-- A row of the history. -/
def Row (m : Mem) (l : List (BitVec 8)) : Prop := CString m l ∧ ∀ c ∈ l, isPrintable c = true

/-- The shell shows the editor: the first `shell_len` characters of the buffer are the line, the
ring has the history and `browse_pos` is the place. -/
structure Shows (s : Shell) (e : Editor (BitVec 8)) : Prop where
  len : s.len.toNat = e.line.length
  chars : ∀ i x, e.line[i]? = some x → s.buf i = x
  printable : ∀ c ∈ e.line, isPrintable c = true
  recent : Recent Row shellHistoryDepth s.history s.writePos.toNat s.count.toNat e.history
  browse : s.browsePos = BitVec.ofInt 8 ((e.place : ℤ) - 1)
  ok : e.Ok (shellBufferSize - 1) shellHistoryDepth

variable {e : Editor (BitVec 8)}

/-- Signed numbers of one byte. -/
theorem toInt_place {k : ℕ} (hk : k ≤ 8) : (BitVec.ofInt 8 ((k : ℤ) - 1)).toInt = (k : ℤ) - 1 := by
  refine BitVec.toInt_ofInt_eq_self (by decide) ?_ ?_ <;> norm_num <;> omega

/-- The place in the history is one of the eight, or behind them. -/
theorem Shows.place_le (h : Shows s e) : e.place ≤ 8 := h.ok.place.trans h.ok.history

/-- The index of the place in the history. -/
theorem Shows.browse_toInt (h : Shows s e) : s.browsePos.toInt = (e.place : ℤ) - 1 := by
  rw [h.browse, toInt_place h.place_le]

/-- The row that the shell reads is the one of the entry that is shown.
components/shell/src/nd_shell.c:73-77 -/
theorem browseIndex_eq {k : ℕ} (hw : s.writePos.toNat < 8) (hk : k < 8)
    (hb : s.browsePos = BitVec.ofInt 8 (((k + 1 : ℕ) : ℤ) - 1)) :
    shellHistoryBrowseIndex s = recentSlot shellHistoryDepth s.writePos.toNat k := by
  unfold shellHistoryBrowseIndex shellHistoryDepth recentSlot
  rw [hb, toInt_place (by omega)]
  have hcast : (s.writePos.toNat : ℤ) + (8 : ℕ) - 1 - (((k + 1 : ℕ) : ℤ) - 1) =
      ((s.writePos.toNat + 8 - 1 - k : ℕ) : ℤ) := by omega
  rw [hcast, ← Int.ofNat_tmod, BitVec.ofInt_natCast, BitVec.toNat_ofNat]
  omega

/-- Another line is shown, the one at place `k`. -/
theorem Shows.replace (h : Shows s e) (hrow : Row m l) {k : ℕ} (hk : k ≤ e.history.length) :
    let s' := shellReplaceInput m { s with browsePos := BitVec.ofInt 8 ((k : ℤ) - 1) }
    Shows s' { e with line := l, place := k } ∧ s'.state = s.state ∧
        s'.lastLineEnd = s.lastLineEnd := by
  have hroom := hrow.1.room
  unfold shellBufferSize at hroom
  obtain ⟨b, o, heq, hb⟩ := shellReplaceInput_eq hrow.1
    { s with browsePos := BitVec.ofInt 8 ((k : ℤ) - 1) }
  intro s'
  have hs : s' = _ := heq
  clear_value s'
  subst hs
  refine ⟨⟨?_, fun i x hx => ?_, hrow.2, h.recent, rfl, ?_⟩, rfl, rfl⟩
  · rw [BitVec.toNat_ofNat]
    exact Nat.mod_eq_of_lt (by omega)
  · obtain ⟨hi, -⟩ := List.getElem?_eq_some_iff.mp hx
    exact (hb i hi).trans (hrow.1.chars i x hx).1
  · exact ⟨Nat.le_pred_of_lt hroom, h.ok.entries, h.ok.history, hk, h.ok.recent⟩

/-- Up.
components/shell/src/nd_shell.c:79-88 -/
theorem Shows.prev (h : Shows s e) : Shows (shellHistoryPrev s) e.older ∧
    (shellHistoryPrev s).state = s.state ∧ (shellHistoryPrev s).lastLineEnd = s.lastLineEnd := by
  have hcount := h.recent.length
  have hle := h.recent.le
  have hplace := h.ok.place
  unfold shellHistoryDepth at hle
  unfold shellHistoryPrev Editor.older
  by_cases hlast : e.place = e.history.length
  · -- there is no older entry
    have hnone : e.history[e.place]? = none := List.getElem?_eq_none hlast.ge
    have hstop : s.count = 0 ∨ (s.count - 1).toInt ≤ s.browsePos.toInt := by
      by_cases hzero : s.count = 0
      · exact .inl hzero
      · right
        have hpred : (s.count - 1).toNat = s.count.toNat - 1 := by bv_omega
        have hpos : s.count.toNat ≠ 0 := fun he => hzero (BitVec.eq_of_toNat_eq he)
        rw [BitVec.toInt_eq_toNat_of_lt (by rw [hpred]; omega), hpred, h.browse_toInt]
        omega
    rw [if_pos hstop, hnone]
    exact ⟨h, rfl, rfl⟩
  · have hlt : e.place < e.history.length := by omega
    have hsome : e.history[e.place]? = some e.history[e.place] := List.getElem?_eq_getElem hlt
    have hgo : ¬ (s.count = 0 ∨ (s.count - 1).toInt ≤ s.browsePos.toInt) := by
      rintro (hzero | hle')
      · rw [hzero] at hcount
        have hnil : e.history.length = 0 := hcount
        omega
      · have hpos : s.count.toNat ≠ 0 := by omega
        have hpred : (s.count - 1).toNat = s.count.toNat - 1 := by bv_omega
        rw [BitVec.toInt_eq_toNat_of_lt (by rw [hpred]; omega), hpred, h.browse_toInt] at hle'
        omega
    have hnext : s.browsePos + 1 = BitVec.ofInt 8 (((e.place + 1 : ℕ) : ℤ) - 1) := by
      rw [h.browse, show (1 : BitVec 8) = BitVec.ofInt 8 1 from rfl, ← BitVec.ofInt_add]
      congr 1
      omega
    have hrow := h.recent.slot e.place _ hsome
    rw [if_neg hgo, hsome]
    simp only [hnext]
    rw [browseIndex_eq (s := { s with browsePos := BitVec.ofInt 8 (((e.place + 1 : ℕ) : ℤ) - 1) })
      h.recent.pos (by omega) rfl]
    exact h.replace hrow hlt

/-- Down.
components/shell/src/nd_shell.c:90-104 -/
theorem Shows.next (h : Shows s e) : Shows (shellHistoryNext s) e.newer ∧
    (shellHistoryNext s).state = s.state ∧ (shellHistoryNext s).lastLineEnd = s.lastLineEnd := by
  have hplace := h.ok.place
  have hle := h.place_le
  have hbrowse := h.browse_toInt
  unfold shellHistoryNext Editor.newer
  match hp : e.place with
  | 0 =>
    rw [hp] at hbrowse
    rw [if_pos (by omega)]
    exact ⟨h, rfl, rfl⟩
  | k + 1 =>
    rw [hp] at hbrowse hle hplace
    have hprev : s.browsePos - 1 = BitVec.ofInt 8 ((k : ℤ) - 1) := by
      rw [h.browse, hp, BitVec.sub_eq_iff_eq_add, show (1 : BitVec 8) = BitVec.ofInt 8 1 from rfl,
        ← BitVec.ofInt_add]
      congr 1
      omega
    have hsigned : (BitVec.ofInt 8 ((k : ℤ) - 1)).toInt = (k : ℤ) - 1 := toInt_place (by omega)
    rw [if_neg (by omega)]
    simp only [hprev, hsigned]
    match k with
    | 0 =>
      rw [if_pos (by decide)]
      have hempty : Row (fun _ => asciiNull) [] :=
        ⟨⟨fun i x hx => by simp at hx, rfl, by decide⟩, fun c hc => by cases hc⟩
      exact h.replace hempty (Nat.zero_le _)
    | k + 1 =>
      have hlt : k < e.history.length := by omega
      have hsome : e.history[k]? = some e.history[k] := List.getElem?_eq_getElem hlt
      have hrow := h.recent.slot k _ hsome
      simp only [hsome, Option.getD_some]
      rw [if_neg (by omega),
        browseIndex_eq (s := { s with browsePos := BitVec.ofInt 8 (((k + 1 : ℕ) : ℤ) - 1) })
          h.recent.pos (by omega) rfl]
      exact h.replace hrow hlt

/-! ## Submission -/

/-- The line that is about to be submitted is a string. -/
theorem Shows.string (h : Shows s e) :
    CString (update s.buf s.len.toNat asciiNull) e.line := by
  have hline := h.ok.line
  refine ⟨fun i x hx => ?_, ?_, Nat.lt_of_le_pred (by decide) hline⟩
  · obtain ⟨hi, -⟩ := List.getElem?_eq_some_iff.mp hx
    have hlen := h.len
    rw [Function.update_of_ne (by omega)]
    refine ⟨h.chars i x hx, fun hzero => ?_⟩
    have hp := h.printable x (List.mem_of_getElem? hx)
    rw [hzero] at hp
    cases hp
  · rw [h.len, Function.update_self]
    rfl

/-- The last saved line is compared.
components/shell/src/nd_shell.c:206-213 -/
theorem Shows.isLastDuplicate (h : Shows s e) (hb : CString m e.line) :
    shellHistoryIsLastDuplicate m s = true ↔ e.history.head? = some e.line := by
  have hcount := h.recent.length
  unfold shellHistoryIsLastDuplicate
  by_cases hzero : s.count = 0
  · rw [if_pos hzero]
    rw [hzero] at hcount
    rw [List.eq_nil_of_length_eq_zero hcount]
    simp
  · rw [if_neg hzero, decide_eq_true_eq]
    have hpos : 0 < e.history.length := by
      rw [hcount]
      exact Nat.pos_of_ne_zero fun he => hzero (BitVec.eq_of_toNat_eq he)
    have hsome : e.history[0]? = some e.history[0] := List.getElem?_eq_getElem hpos
    have hrow := h.recent.slot 0 _ hsome
    have hroom := hrow.1.room
    rw [List.head?_eq_getElem?, hsome, Option.some.injEq]
    exact hrow.1.strcmp hb shellBufferSize 0 (Nat.zero_le _) (Nat.zero_le _) (fun j hj => by omega)
      (by omega)

/-- The line becomes the most recent entry, unless it is that already.
components/shell/src/nd_shell.c:215-228 -/
theorem Shows.save (h : Shows s e) (hb : CString m e.line) (hne : e.line ≠ []) :
    Recent Row shellHistoryDepth (shellHistorySave m s).history
      (shellHistorySave m s).writePos.toNat
      (shellHistorySave m s).count.toNat (Editor.remember shellHistoryDepth e.line e.history) := by
  unfold shellHistorySave Editor.remember
  by_cases hdup : e.history.head? = some e.line
  · rw [if_pos ((h.isLastDuplicate hb).mpr hdup), if_pos (.inr hdup)]
    exact h.recent
  · have hpush := h.recent.push (b := ndStrncpy m shellBufferSize 0 (s.history s.writePos.toNat))
      ⟨hb.copied _, h.printable⟩
    have hle := h.recent.le
    have hno : ¬ (e.line = [] ∨ e.history.head? = some e.line) := by simp [hne, hdup]
    rw [if_neg fun hd => hdup ((h.isLastDuplicate hb).mp hd), if_neg hno]
    have hwrite : (BitVec.ofNat 8 ((s.writePos.toNat + 1) % shellHistoryDepth)).toNat =
        (s.writePos.toNat + 1) % shellHistoryDepth := by
      unfold shellHistoryDepth
      rw [BitVec.toNat_ofNat]
      omega
    have hcount : (if s.count.toNat < shellHistoryDepth then s.count + 1 else s.count).toNat =
        min (s.count.toNat + 1) shellHistoryDepth := by
      unfold shellHistoryDepth at hle ⊢
      split
      · rename_i hlt
        rw [Nat.min_eq_left hlt]
        bv_omega
      · rw [Nat.min_eq_right (by omega)]
        omega
    simp only [hwrite, hcount]
    exact hpush

/-- The shell after a line end. -/
def lineEnded (c : BitVec 8) (s : Shell) : Shell :=
  { shellPuts [asciiCr, asciiLf] { s with lastLineEnd := c } with
    buf := update s.buf s.len.toNat asciiNull
    browsePos := -1 }

/-- Enter.
components/shell/src/nd_shell.c:142-147, 242-261 -/
theorem Shows.submit (h : Shows s e) (commands : Commands) (c : BitVec 8) :
    let s' := shellSubmit commands (lineEnded c s)
    Shows s' (e.enter shellHistoryDepth) ∧ s'.state = s.state ∧ s'.lastLineEnd = c := by
  have hline := h.len
  have hkey : Shows (lineEnded c s) { e with place := 0 } :=
    ⟨h.len, fun i x hx => by
        obtain ⟨hi, -⟩ := List.getElem?_eq_some_iff.mp hx
        simp only [lineEnded]
        rw [Function.update_of_ne (by rw [hline]; exact hi.ne)]
        exact h.chars i x hx,
      h.printable, h.recent, rfl,
        ⟨h.ok.line, h.ok.entries, h.ok.history, Nat.zero_le _, h.ok.recent⟩⟩
  have hok : (e.enter shellHistoryDepth).Ok (shellBufferSize - 1) shellHistoryDepth :=
    h.ok.press (by decide) .enter
  by_cases hnil : e.line = []
  · -- nothing is saved
    have hlen : s.len = 0 := BitVec.eq_of_toNat_eq (by rw [hline, hnil]; rfl)
    have hsubmit : shellSubmit commands (lineEnded c s) =
        shellPuts shellPrompt { lineEnded c s with len := 0 } := by
      unfold shellSubmit
      rw [if_neg (by simp [lineEnded, shellPuts, hlen])]
    have hhistory : (e.enter shellHistoryDepth).history = e.history := by
      simp [Editor.enter, Editor.remember, hnil]
    simp only [hsubmit]
    refine ⟨⟨rfl, fun i x hx => (by cases hx), fun c hc => (by cases hc), ?_, rfl, hok⟩, rfl, rfl⟩
    rw [hhistory]
    exact h.recent
  · have hpos : 0 < (lineEnded c s).len := by
      have hlen : (lineEnded c s).len.toNat = e.line.length := hline
      rw [BitVec.lt_def, hlen]
      exact List.length_pos_iff.mpr hnil
    have hsave := hkey.save (m := (lineEnded c s).buf) h.string hnil
    intro s'
    have hs : s' = shellSubmit commands (lineEnded c s) := rfl
    unfold shellSubmit at hs
    rw [if_pos hpos] at hs
    have hkept : (shellHistorySave (lineEnded c s).buf (lineEnded c s)).state = s.state ∧
        (shellHistorySave (lineEnded c s).buf (lineEnded c s)).lastLineEnd = c ∧
        (shellHistorySave (lineEnded c s).buf (lineEnded c s)).browsePos = -1 := by
      unfold shellHistorySave
      split <;> exact ⟨rfl, rfl, rfl⟩
    clear_value s'
    subst hs
    exact ⟨⟨rfl, fun i x hx => (by cases hx), fun c hc => (by cases hc), hsave, hkept.2.2, hok⟩,
      hkept.1, hkept.2.1⟩

/-! ## Bytes -/

/-- The editor with a line of 127 characters and a history of 8 lines, after some keys. -/
def pressed (e : Editor (BitVec 8)) (ks : List (Key (BitVec 8))) : Editor (BitVec 8) :=
  e.run (shellBufferSize - 1) shellHistoryDepth ks

/-- The shell is outside of escape sequences, and `le` is the line end that it has seen last, if
nothing came after it. -/
structure Ready (s : Shell) (e : Editor (BitVec 8)) (le : Option (BitVec 8)) : Prop where
  shows : Shows s e
  normal : s.state = .normal
  lineEnd : s.lastLineEnd = le.getD asciiNull
  which : ∀ b, le = some b → b = asciiCr ∨ b = asciiLf

variable {le : Option (BitVec 8)} {commands : Commands}

/-- A byte outside of a sequence, other than `ESC`, is no part of one. -/
theorem shellHandleAnsi_normal (hn : s.state = .normal) (hc : c ≠ asciiEsc) :
    shellHandleAnsi c s = (false, s) := by
  unfold shellHandleAnsi
  rw [hn]
  exact if_neg hc

/-- A byte that is neither a line end nor `ESC`.
components/shell/src/nd_shell.c:149-168 -/
theorem Ready.plain (h : Ready s e le) (hesc : c ≠ asciiEsc)
    (hend : ¬ (c = asciiCr ∨ c = asciiLf)) :
    Ready (shellTurn commands s c) (pressed e (plainKey c)) none := by
  have hshows := h.shows
  have hlen := hshows.len
  have hline : shellIsLineEnd c s = (false, { s with lastLineEnd := asciiNull }) :=
    if_pos (not_or.mp hend)
  have hsame : Ready { s with lastLineEnd := asciiNull } e none :=
    ⟨⟨hlen, hshows.chars, hshows.printable, hshows.recent, hshows.browse, hshows.ok⟩, h.normal, rfl,
      fun b hb => by cases hb⟩
  unfold shellTurn shellInput plainKey
  rw [shellHandleAnsi_normal h.normal hesc]
  simp only [hline]
  by_cases hdel : c = asciiBackspace ∨ c = asciiDel
  · rw [if_pos hdel, if_pos hdel]
    by_cases hnil : e.line = []
    · have hzero : ¬ 0 < s.len := by
        rw [BitVec.lt_def, hlen, hnil]
        exact Nat.not_lt_zero _
      have hsame' : pressed e [.erase] = e := by
        show e.erase = e
        unfold Editor.erase
        rw [if_pos (List.isEmpty_iff.mpr hnil)]
      rw [if_neg hzero, hsame']
      exact hsame
    · have hpos : 0 < e.line.length := List.length_pos_iff.mpr hnil
      have hlt : 0 < s.len := by
        rw [BitVec.lt_def, hlen]
        exact hpos
      have herase : pressed e [.erase] = { e with line := e.line.dropLast, place := 0 } := by
        show e.erase = _
        unfold Editor.erase
        rw [if_neg (by simpa [List.isEmpty_iff] using hnil)]
      have hok : (pressed e [.erase]).Ok (shellBufferSize - 1) shellHistoryDepth :=
        hshows.ok.run (by decide) [.erase]
      rw [herase] at hok
      rw [if_pos hlt, herase]
      refine ⟨⟨?_, fun i x hx => ?_, fun b hb => ?_, hshows.recent, rfl, hok⟩, h.normal, rfl,
        fun b hb => by cases hb⟩
      · show (s.len - 1).toNat = _
        rw [List.length_dropLast]
        bv_omega
      · rw [List.getElem?_dropLast] at hx
        split at hx
        · exact hshows.chars i x hx
        · cases hx
      · exact hshows.printable b (List.dropLast_subset _ hb)
  · rw [if_neg hdel, if_neg hdel]
    by_cases hp : isPrintable c = true
    · by_cases hroom : s.len.toNat < shellBufferSize - 1
      · have htype : pressed e [.char c] = { e with line := e.line ++ [c], place := 0 } := by
          show e.type _ c = _
          unfold Editor.type
          rw [if_pos (by rw [← hlen]; exact hroom)]
        have hok : (pressed e [.char c]).Ok (shellBufferSize - 1) shellHistoryDepth :=
          hshows.ok.run (by decide) [.char c]
        rw [htype] at hok
        rw [if_pos ⟨hp, hroom⟩, if_pos hp, htype]
        refine ⟨⟨?_, fun i x hx => ?_, fun b hb => ?_, hshows.recent, rfl, hok⟩, h.normal, rfl,
          fun b hb => by cases hb⟩
        · show (s.len + 1).toNat = _
          unfold shellBufferSize at hroom
          rw [List.length_append, List.length_singleton]
          bv_omega
        · show update s.buf s.len.toNat c i = x
          by_cases hi : i = e.line.length
          · subst hi
            rw [hlen, Function.update_self]
            simpa using hx
          · rw [hlen, Function.update_of_ne hi]
            have hlt : i < (e.line ++ [c]).length := (List.getElem?_eq_some_iff.mp hx).1
            rw [List.length_append, List.length_singleton] at hlt
            rw [List.getElem?_append_left (by omega)] at hx
            exact hshows.chars i x hx
        · rcases List.mem_append.mp hb with hb | hb
          · exact hshows.printable b hb
          · rw [List.mem_singleton.mp hb]
            exact hp
      · have hsame' : pressed e [.char c] = e := by
          show e.type _ c = e
          unfold Editor.type
          rw [if_neg (by rw [← hlen]; exact hroom)]
        rw [if_neg (fun hgo => hroom hgo.2), if_pos hp, hsame']
        exact hsame
    · rw [if_neg (fun hgo => hp hgo.1), if_neg hp]
      exact hsame

/-- A line end that is the first one, or the same as the last one. -/
theorem shellInput_end (hn : s.state = .normal) (hc : c = asciiCr ∨ c = asciiLf)
    (hlast : s.lastLineEnd = asciiNull ∨ c = s.lastLineEnd) :
    shellInput c s = (true,
      { shellPuts [asciiCr, asciiLf] { s with lastLineEnd := c } with
        buf := Function.update s.buf s.len.toNat asciiNull, browsePos := -1 }) := by
  have hesc : c ≠ asciiEsc := by
    rcases hc with rfl | rfl <;> decide
  have hother : ¬ (c ≠ asciiCr ∧ c ≠ asciiLf) := fun hn => hc.elim hn.1 hn.2
  have hline : shellIsLineEnd c s = (true, { s with lastLineEnd := c }) := by
    unfold shellIsLineEnd
    rw [if_neg hother, if_pos hlast]
  unfold shellInput
  rw [shellHandleAnsi_normal hn hesc]
  simp only [hline]
  rfl

/-- The other one of the two is let pass. -/
theorem shellInput_other (hn : s.state = .normal) (hc : c = asciiCr ∨ c = asciiLf)
    (hlast : s.lastLineEnd ≠ asciiNull)
    (hne : c ≠ s.lastLineEnd) : shellInput c s = (false, s) := by
  have hesc : c ≠ asciiEsc := by
    rcases hc with rfl | rfl <;> decide
  have hother : ¬ (c ≠ asciiCr ∧ c ≠ asciiLf) := fun hn => hc.elim hn.1 hn.2
  have hdel : ¬ (c = asciiBackspace ∨ c = asciiDel) := by
    rcases hc with rfl | rfl <;> decide
  have hprint : ¬ isPrintable c = true := by
    rcases hc with rfl | rfl <;> decide
  have hline : shellIsLineEnd c s = (false, s) := by
    unfold shellIsLineEnd
    rw [if_neg hother, if_neg fun hf => hf.elim hlast hne]
  unfold shellInput
  rw [shellHandleAnsi_normal hn hesc]
  simp only [hline]
  rw [if_neg hdel, if_neg fun hgo => hprint hgo.1]

/-- A line end, which is Enter when it is the first one or the same as the first one.
components/shell/src/nd_shell.c:40-53 -/
theorem Ready.ended (commands : Commands) (h : Ready s e le) (hend : c = asciiCr ∨ c = asciiLf) :
    if le = none ∨ le = some c then Ready (shellTurn commands s c) (pressed e [.enter]) (some c)
    else Ready (shellTurn commands s c) e le := by
  have hnull : ∀ b, b = asciiCr ∨ b = asciiLf → b ≠ asciiNull := by
    rintro b (rfl | rfl) <;> decide
  have hfirst : (s.lastLineEnd = asciiNull ∨ c = s.lastLineEnd) ↔ (le = none ∨ le = some c) := by
    rw [h.lineEnd]
    cases le with
    | none => simp
    | some b =>
      have hb := hnull b (h.which b rfl)
      simp [hb, eq_comm]
  unfold shellTurn
  by_cases hle : le = none ∨ le = some c
  · rw [if_pos hle, shellInput_end h.normal hend (hfirst.mpr hle)]
    obtain ⟨hshows, hstate, hlast⟩ := h.shows.submit commands c
    refine ⟨hshows, hstate.trans h.normal, hlast, fun b hb => ?_⟩
    rw [← Option.some.inj hb]
    exact hend
  · have hno : ¬ (s.lastLineEnd = asciiNull ∨ c = s.lastLineEnd) := fun hf => hle (hfirst.mp hf)
    rw [if_neg hle, shellInput_other h.normal hend (fun hl => hno (.inl hl)) fun hc =>
      hno (.inr hc)]
    exact h

/-- An escape sequence.
components/shell/src/nd_shell.c:106-134 -/
theorem Ready.escape (h : Ready s e le) :
    Shows (shellTurn commands s asciiEsc) e ∧
      (∀ b, b ≠ ansiCsiPrefix →
        Ready (shellTurn commands (shellTurn commands s asciiEsc) b) e le) ∧
      Shows (shellTurn commands (shellTurn commands s asciiEsc) ansiCsiPrefix) e ∧
      ∀ b, Ready (shellTurn commands
        (shellTurn commands (shellTurn commands s asciiEsc) ansiCsiPrefix) b)
        (pressed e (arrowKey b)) le := by
  have hshows := h.shows
  have hcong : ∀ st : ShellInputState, Shows { s with state := st } e := fun st =>
    ⟨hshows.len, hshows.chars, hshows.printable, hshows.recent, hshows.browse, hshows.ok⟩
  have hone : shellTurn commands s asciiEsc = { s with state := .esc } := by
    unfold shellTurn shellInput shellHandleAnsi
    rw [h.normal]
    simp
  have htwo : shellTurn commands { s with state := .esc } ansiCsiPrefix =
      { s with state := .csi } := by
    unfold shellTurn shellInput shellHandleAnsi
    simp
  rw [hone, htwo]
  refine ⟨hcong .esc, fun b hb => ?_, hcong .csi, fun b => ?_⟩
  · have hback : shellTurn commands { s with state := .esc } b = { s with state := .normal } := by
      unfold shellTurn shellInput shellHandleAnsi
      simp [hb]
    rw [hback]
    exact ⟨hcong .normal, rfl, h.lineEnd, h.which⟩
  · have hprev := (hcong .csi).prev
    have hnext := (hcong .csi).next
    unfold shellTurn shellInput shellHandleAnsi arrowKey
    simp only
    by_cases hup : b = ansiArrowUp
    · rw [if_pos hup, if_pos hup]
      exact ⟨⟨hprev.1.len, hprev.1.chars, hprev.1.printable, hprev.1.recent, hprev.1.browse,
        hprev.1.ok⟩, rfl, hprev.2.2.trans h.lineEnd, h.which⟩
    · rw [if_neg hup, if_neg hup]
      by_cases hdown : b = ansiArrowDown
      · rw [if_pos hdown, if_pos hdown]
        exact ⟨⟨hnext.1.len, hnext.1.chars, hnext.1.printable, hnext.1.recent, hnext.1.browse,
          hnext.1.ok⟩, rfl, hnext.2.2.trans h.lineEnd, h.which⟩
      · rw [if_neg hdown, if_neg hdown]
        exact ⟨hcong .normal, rfl, h.lineEnd, h.which⟩

/-! ## Streams -/

/-- The keys of two streams, one behind the other. -/
theorem pressed_append (e : Editor (BitVec 8)) (ks ks' : List (Key (BitVec 8))) :
    pressed e (ks ++ ks') = pressed (pressed e ks) ks' := List.foldl_append

/-- What the shell shows after a stream of bytes. -/
theorem Ready.stream (l : List (BitVec 8)) (le : Option (BitVec 8)) :
    ∀ s e, Ready s e le → Shows (l.foldl (shellTurn commands) s) (pressed e (keysFrom l le)) := by
  fun_induction keysFrom l le with
  | case1 le => exact fun s e h => h.shows
  | case2 le => exact fun s e h => h.escape.1
  | case3 le => exact fun s e h => h.escape.2.2.1
  | case4 le a l ih =>
    intro s e h
    rw [pressed_append]
    exact ih _ _ (h.escape.2.2.2 a)
  | case5 le b l hb ih => exact fun s e h => ih _ _ (h.escape.2.1 b hb)
  | case6 le c l hesc hend hle ih =>
    intro s e h
    have hturn := h.ended commands hend
    rw [if_pos hle] at hturn
    exact ih _ _ hturn
  | case7 le c l hesc hend hle ih =>
    intro s e h
    have hturn := h.ended commands hend
    rw [if_neg hle] at hturn
    exact ih _ _ hturn
  | case8 le c l hesc hend ih =>
    intro s e h
    rw [pressed_append]
    exact ih _ _ (h.plain hesc hend)

/-- The shell `s` refines the editor `e`: the line and the rows of the history are in its memory,
within the bounds, and what it reads while the user browses is the entry that is shown. -/
structure EditorRefined (s : Shell) (e : Editor (BitVec 8)) : Prop where
  line : s.len.toNat = e.line.length ∧ s.len.toNat ≤ 127 ∧
    ∀ i x, e.line[i]? = some x → s.buf i = x ∧ isPrintable x = true
  history : s.count.toNat = e.history.length ∧ s.count.toNat ≤ 8 ∧
    e.history = (Editor.distinct e.submitted).take 8
  rows : ∀ k x, e.history[k]? = some x → CString (s.history (recentSlot 8 s.writePos.toNat k)) x
  place : s.browsePos.toInt = (e.place : ℤ) - 1 ∧ -1 ≤ s.browsePos.toInt ∧
    s.browsePos.toInt < max (s.count.toNat : ℤ) 1
  slot : ∀ k : ℕ, s.browsePos.toInt = k →
    ∃ x, e.history[k]? = some x ∧ CString (s.history (shellHistoryBrowseIndex s)) x

/-- A shell that shows an editor refines it. -/
theorem Shows.refined (h : Shows s e) : EditorRefined s e := by
  have hok := h.ok
  have hline : e.line.length ≤ 127 := hok.line
  have hcount := h.recent.length
  have hplace := hok.place
  have hbrowse := h.browse_toInt
  refine ⟨⟨h.len, by rw [h.len]; exact hline, fun i x hx => ⟨h.chars i x hx,
    h.printable x (List.mem_of_getElem? hx)⟩⟩, ⟨hcount.symm, h.recent.le, hok.recent⟩,
    fun k x hx => (h.recent.slot k x hx).1, ⟨hbrowse, by omega, by omega⟩, fun k hk => ?_⟩
  have hlt : k < e.history.length := by omega
  have hsome : e.history[k]? = some e.history[k] := List.getElem?_eq_getElem hlt
  have hle := hok.history
  unfold shellHistoryDepth at hle
  refine ⟨_, hsome, ?_⟩
  rw [browseIndex_eq h.recent.pos (by omega) (k := k) (by rw [h.browse]; congr 1; omega)]
  exact (h.recent.slot k _ hsome).1

/-- What the shell shows after any stream. -/
theorem shows_input (commands : Commands) (input : List (BitVec 8)) :
    Shows (ndShellTaskEntry commands input) (pressed {} (keys input)) := by
  refine Ready.stream input none _ _ ⟨⟨rfl, fun i x hx => (by cases hx), fun b hb => (by cases hb),
    ⟨rfl, by decide, by decide, fun k x hx => (by cases hx)⟩, rfl, Editor.Ok.start⟩, rfl, rfl,
    fun b hb => (by cases hb)⟩

/-- **The shell refines the line editor**, for every stream of bytes and whatever the commands do.
components/shell/src/nd_shell.c:40-263 -/
theorem shell_refines_editor (commands : Commands) (input : List (BitVec 8)) :
    EditorRefined (ndShellTaskEntry commands input) (pressed {} (keys input)) :=
  (shows_input commands input).refined

/-- `hi`, Enter and Up. -/
example : (pressed {} (keys [0x68, 0x69, 0x0D, 0x0A, 0x1B, 0x5B, 0x41])).line = [0x68, 0x69] := by
  decide

end NerdRtos
