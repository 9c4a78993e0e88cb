import Mathlib.Data.List.Basic
import Mathlib.Tactic.Common

/-!
# A line editor with a history

The user types a line of at most `width` characters, erases at its end, submits it, and browses in
the last `depth` lines that were submitted. `place` says what is shown: the line itself for `0`, the
`k`-th most recent entry for `k`. Whatever the keys are, the bounds hold and the history is what was
submitted, without empty lines and immediate repeats, down to `depth` lines (`Editor.Ok.run`).

`Recent` is the other way to keep the last entries, a ring of `depth` slots that is written at `w`
next: the entry with `k` newer ones is in slot `recentSlot depth w k`.
-/

set_option autoImplicit false

namespace LineEditor

variable {α β γ : Type}

/-! ## The editor -/

/-- What the user does. -/
inductive Key (α : Type)
  | char (c : α)
  | erase
  | enter
  | older
  | newer
  deriving DecidableEq, Repr

/-- The line, the lines to browse in and all the lines that were submitted, the most recent one
first, and what is shown. -/
structure Editor (α : Type) where
  line : List α := []
  history : List (List α) := []
  place : ℕ := 0
  submitted : List (List α) := []

namespace Editor

/-- A character at the end of the line, if there is room. -/
def type (width : ℕ) (c : α) (e : Editor α) : Editor α :=
  if e.line.length < width then { e with line := e.line ++ [c], place := 0 } else e

/-- The last character goes. -/
def erase (e : Editor α) : Editor α :=
  if e.line.isEmpty then e else { e with line := e.line.dropLast, place := 0 }

/-- The next older entry replaces the line, if there is one. -/
def older (e : Editor α) : Editor α :=
  match e.history[e.place]? with
  | none => e
  | some l => { e with line := l, place := e.place + 1 }

/-- The next newer entry replaces the line, or after the most recent one the empty line. -/
def newer (e : Editor α) : Editor α :=
  match e.place with
  | 0 => e
  | 1 => { e with line := [], place := 0 }
  | k + 2 => { e with line := (e.history[k]?).getD [], place := k + 1 }

variable [DecidableEq α]

/-- A line that is not empty becomes the most recent entry, unless it is that already. -/
def remember (depth : ℕ) (l : List α) (h : List (List α)) : List (List α) :=
  if l = [] ∨ h.head? = some l then h else (l :: h).take depth

/-- The lines that are not empty, without immediate repeats. -/
def distinct : List (List α) → List (List α)
  | [] => []
  | l :: ls => if l = [] ∨ (distinct ls).head? = some l then distinct ls else l :: distinct ls

/-- The line is submitted. -/
def enter (depth : ℕ) (e : Editor α) : Editor α where
  history := remember depth e.line e.history
  submitted := e.line :: e.submitted

/-- What a key does. -/
def press (width depth : ℕ) (e : Editor α) : Key α → Editor α
  | .char c => e.type width c
  | .erase => e.erase
  | .enter => e.enter depth
  | .older => e.older
  | .newer => e.newer

/-- What some keys do, one after the other. -/
def run (width depth : ℕ) (e : Editor α) (ks : List (Key α)) : Editor α :=
  ks.foldl (press width depth) e

/-- The bounds, and what the history is. -/
structure Ok (width depth : ℕ) (e : Editor α) : Prop where
  line : e.line.length ≤ width
  entries : ∀ l ∈ e.history, l ≠ [] ∧ l.length ≤ width
  history : e.history.length ≤ depth
  place : e.place ≤ e.history.length
  recent : e.history = (distinct e.submitted).take depth

variable {width depth : ℕ} {e : Editor α}

/-- The empty line with an empty history. -/
theorem Ok.start : Ok width depth ({} : Editor α) :=
  ⟨by simp, by simp, by simp, by simp, by simp [distinct]⟩

/-- What is remembered was so before, or is the line, which is not empty. -/
theorem mem_remember {l x : List α} {h : List (List α)} (hx : x ∈ remember depth l h) :
    x ∈ h ∨ x = l ∧ l ≠ [] := by
  unfold remember at hx
  split at hx
  · exact .inl hx
  · rename_i hno
    rcases List.mem_cons.mp (List.mem_of_mem_take hx) with rfl | hx
    · exact .inr ⟨rfl, fun hl => hno (.inl hl)⟩
    · exact .inl hx

/-- The history keeps its depth. -/
theorem length_remember {l : List α} {h : List (List α)} (hd : h.length ≤ depth) :
    (remember depth l h).length ≤ depth := by
  unfold remember
  split
  · exact hd
  · exact List.length_take_le _ _

/-- The entries that fall out of the history do not matter. -/
theorem remember_take (hd : 0 < depth) (l : List α) (ls : List (List α)) :
    remember depth l ((distinct ls).take depth) = (distinct (l :: ls)).take depth := by
  obtain ⟨n, rfl⟩ : ∃ n, depth = n + 1 := ⟨depth - 1, by omega⟩
  have hhead : ((distinct ls).take (n + 1)).head? = (distinct ls).head? := by
    cases distinct ls <;> rfl
  have hcons : distinct (l :: ls) =
      if l = [] ∨ (distinct ls).head? = some l then distinct ls else l :: distinct ls := rfl
  unfold remember
  rw [hhead, hcons]
  split
  · rfl
  · rw [List.take_succ_cons, List.take_succ_cons, List.take_take, Nat.min_eq_left (Nat.le_succ n)]

/-- A key keeps the bounds. -/
theorem Ok.press (hd : 0 < depth) (h : Ok width depth e) (k : Key α) :
    Ok width depth (e.press width depth k) := by
  cases k with
  | char c =>
    unfold Editor.press type
    simp only
    split
    · rename_i hlt
      refine ⟨?_, h.entries, h.history, by simp, h.recent⟩
      rw [List.length_append]
      exact hlt
    · exact h
  | erase =>
    unfold Editor.press erase
    simp only
    split
    · exact h
    · refine ⟨?_, h.entries, h.history, by simp, h.recent⟩
      have hline := h.line
      rw [List.length_dropLast]
      omega
  | enter =>
    refine ⟨Nat.zero_le _, fun l hl => ?_, length_remember h.history, Nat.zero_le _, ?_⟩
    · rcases mem_remember hl with hl | ⟨rfl, hne⟩
      · exact h.entries l hl
      · exact ⟨hne, h.line⟩
    · show remember depth e.line e.history = _
      rw [h.recent]
      exact remember_take hd e.line e.submitted
  | older =>
    unfold Editor.press older
    simp only
    cases hl : e.history[e.place]? with
    | none => exact h
    | some l =>
      have hlt := (List.getElem?_eq_some_iff.mp hl).1
      exact ⟨(h.entries l (List.mem_of_getElem? hl)).2, h.entries, h.history, hlt, h.recent⟩
  | newer =>
    unfold Editor.press newer
    simp only
    match hp : e.place with
    | 0 => exact h
    | 1 => exact ⟨by simp, h.entries, h.history, by simp, h.recent⟩
    | k + 2 =>
      have hplace := h.place
      rw [hp] at hplace
      have hlt : k < e.history.length := by omega
      simp only [List.getElem?_eq_getElem hlt, Option.getD_some]
      exact ⟨(h.entries _ (List.getElem_mem hlt)).2, h.entries, h.history, Nat.le_of_succ_le hplace,
        h.recent⟩

/-- An editor stays in its bounds whatever keys come. -/
theorem Ok.run (hd : 0 < depth) (h : Ok width depth e) (ks : List (Key α)) :
    Ok width depth (e.run width depth ks) := by
  induction ks generalizing e with
  | nil => exact h
  | cons k ks ih => exact ih (h.press hd k)

end Editor

/-! ## The last entries in a ring -/

/-- The slot of the entry with `k` newer ones, in a ring of `depth` slots that is written at `w`
next. -/
def recentSlot (depth w k : ℕ) : ℕ := (w + depth - 1 - k) % depth

variable {depth w k count : ℕ}

/-- The slot, without a remainder. -/
theorem recentSlot_eq (hw : w < depth) (hk : k < depth) :
    recentSlot depth w k = if k < w then w - 1 - k else w + depth - 1 - k := by
  unfold recentSlot
  split
  · rw [show w + depth - 1 - k = w - 1 - k + depth by omega, Nat.add_mod_right,
      Nat.mod_eq_of_lt (by omega)]
  · exact Nat.mod_eq_of_lt (by omega)

/-- The next place in a ring, without a remainder. -/
theorem next_eq (hw : w < depth) : (w + 1) % depth = if w + 1 = depth then 0 else w + 1 := by
  split
  · rename_i he
    rw [he, Nat.mod_self]
  · exact Nat.mod_eq_of_lt (by omega)

/-- The slot that was written last. -/
theorem recentSlot_zero (hw : w < depth) : recentSlot depth ((w + 1) % depth) 0 = w := by
  rw [recentSlot_eq (Nat.mod_lt _ (by omega)) (by omega), next_eq hw]
  split
  · rw [if_neg (by omega)]
    omega
  · rw [if_pos (by omega)]
    omega

/-- An entry has one newer one more after a write. -/
theorem recentSlot_succ (hw : w < depth) (hk : k + 1 < depth) :
    recentSlot depth ((w + 1) % depth) (k + 1) = recentSlot depth w k := by
  rw [recentSlot_eq (Nat.mod_lt _ (by omega)) hk, recentSlot_eq hw (by omega), next_eq hw]
  split <;> split <;> split <;> omega

/-- The slot that is written next has the oldest entry of a full ring, and no other. -/
theorem recentSlot_ne (hw : w < depth) (hk : k + 1 < depth) : recentSlot depth w k ≠ w := by
  rw [recentSlot_eq hw (by omega)]
  split <;> omega

/-- The ring of `slots` has the entries `l`, the most recent one first. -/
structure Recent (R : β → γ → Prop) (depth : ℕ) (slots : ℕ → β) (w count : ℕ) (l : List γ) :
    Prop where
  length : l.length = count
  le : count ≤ depth
  pos : w < depth
  slot : ∀ k x, l[k]? = some x → R (slots (recentSlot depth w k)) x

/-- A new entry. -/
theorem Recent.push {R : β → γ → Prop} {slots : ℕ → β} {l : List γ} {b : β} {x : γ}
    (h : Recent R depth slots w count l) (hx : R b x) :
    Recent R depth (Function.update slots w b) ((w + 1) % depth) (min (count + 1) depth)
      ((x :: l).take depth) := by
  have hpos := h.pos
  refine ⟨?_, Nat.min_le_right _ _, Nat.mod_lt _ (by omega), fun k y hy => ?_⟩
  · rw [List.length_take, List.length_cons, h.length, Nat.min_comm]
  · rw [List.getElem?_take] at hy
    split at hy
    · rename_i hk
      cases k with
      | zero =>
        obtain rfl : x = y := by simpa using hy
        rw [recentSlot_zero hpos, Function.update_self]
        exact hx
      | succ k =>
        rw [recentSlot_succ hpos hk, Function.update_of_ne (recentSlot_ne hpos hk)]
        exact h.slot k y (by simpa using hy)
    · cases hy

end LineEditor
