import Mathlib.Algebra.Group.Defs
import Mathlib.Data.List.Nodup
import Mathlib.Logic.Function.Basic
import Mathlib.Tactic.Common

/-!
# Registers in a frame

A layout says which register is stored at which offset of a frame. Registers that are stored and
loaded by one layout are what they were.
-/

set_option autoImplicit false

namespace RegisterFrames

/-- Registers `R` at offsets `A`, each register and each offset once. -/
structure Layout (R A : Type) where
  slots : List (R × A)
  regs_nodup : (slots.map Prod.fst).Nodup
  offsets_nodup : (slots.map Prod.snd).Nodup

namespace Layout

variable {R A V : Type} (l : Layout R A)

/-- The registers of the layout. -/
def regs : List R := l.slots.map Prod.fst

/-- The offsets of the layout. -/
def offsets : List A := l.slots.map Prod.snd

section Store

variable [DecidableEq A] [Add A]

/-- Store the registers, one after the other. -/
def store (base : A) (reg : R → V) (m : A → V) : A → V :=
  l.slots.foldl (fun m p => Function.update m (base + p.2) (reg p.1)) m

/-- Storing registers leaves the other addresses. -/
theorem foldl_store_other (s : List (R × A)) (base : A) (reg : R → V) (m : A → V) {a : A}
    (ha : ∀ p ∈ s, a ≠ base + p.2) :
    s.foldl (fun m p => Function.update m (base + p.2) (reg p.1)) m a = m a := by
  induction s generalizing m with
  | nil => rfl
  | cons p s ih =>
    rw [List.foldl_cons, ih _ fun q hq => ha q (by simp [hq])]
    exact Function.update_of_ne (ha p (by simp)) _ _

/-- Only the words of the frame are written. -/
theorem store_other (base : A) (reg : R → V) (m : A → V) {a : A}
    (ha : ∀ o ∈ l.offsets, a ≠ base + o) : l.store base reg m a = m a := by
  apply foldl_store_other
  intro p hp
  exact ha p.2 (List.mem_map_of_mem hp)

/-- Every register is in its place. -/
theorem store_at [IsLeftCancelAdd A] (base : A) (reg : R → V) (m : A → V) {r : R} {o : A}
    (hp : (r, o) ∈ l.slots) : l.store base reg m (base + o) = reg r := by
  have hnd := l.offsets_nodup
  unfold store
  generalize l.slots = s at hp hnd
  induction s generalizing m with
  | nil => simp at hp
  | cons q s ih =>
    rw [List.map_cons, List.nodup_cons] at hnd
    rw [List.foldl_cons]
    rcases List.mem_cons.mp hp with rfl | hp
    · rw [foldl_store_other]
      · exact Function.update_self _ _ _
      · intro p hps he
        have heq : o = p.2 := add_left_cancel he
        have hmem : p.2 ∈ s.map Prod.snd := List.mem_map_of_mem hps
        exact hnd.1 (heq ▸ hmem)
    · exact ih _ hp hnd.2

end Store

section Load

variable [DecidableEq R] [Add A]

/-- Load the registers, one after the other. -/
def load (base : A) (m : A → V) (reg : R → V) : R → V :=
  l.slots.foldl (fun reg p => Function.update reg p.1 (m (base + p.2))) reg

/-- Loading registers leaves the other registers. -/
theorem foldl_load_other (s : List (R × A)) (base : A) (m : A → V) (reg : R → V) {r : R}
    (hr : r ∉ s.map Prod.fst) :
    s.foldl (fun reg p => Function.update reg p.1 (m (base + p.2))) reg r = reg r := by
  induction s generalizing reg with
  | nil => rfl
  | cons p s ih =>
    rw [List.map_cons, List.mem_cons, not_or] at hr
    rw [List.foldl_cons, ih _ hr.2]
    exact Function.update_of_ne hr.1 _ _

/-- The other registers are not written. -/
theorem load_other (base : A) (m : A → V) (reg : R → V) {r : R} (hr : r ∉ l.regs) :
    l.load base m reg r = reg r :=
  foldl_load_other l.slots base m reg hr

/-- Every register has the word in its place. -/
theorem load_at (base : A) (m : A → V) (reg : R → V) {r : R} {o : A} (hp : (r, o) ∈ l.slots) :
    l.load base m reg r = m (base + o) := by
  have hnd := l.regs_nodup
  unfold load
  generalize l.slots = s at hp hnd
  induction s generalizing reg with
  | nil => simp at hp
  | cons q s ih =>
    rw [List.map_cons, List.nodup_cons] at hnd
    rw [List.foldl_cons]
    rcases List.mem_cons.mp hp with rfl | hp
    · rw [foldl_load_other _ _ _ _ hnd.1]
      exact Function.update_self _ _ _
    · exact ih _ hp hnd.2

end Load

end Layout

end RegisterFrames
