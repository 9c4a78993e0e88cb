import Mathlib.Data.List.Basic
import Mathlib.Tactic.Common

/-!
# Maximal runs

The elements of a list that a test `p` does not single out come in runs. `runsFrom` walks over the
list once and gives the bounds of the runs, with the start of a run that is still open as its state.
It finds every maximal run and nothing else (`mem_runs_iff`), from left to right (`runs_pairwise`).
-/

set_option autoImplicit false

namespace MaximalRuns

variable {α : Type} {p : α → Bool} {l : List α} {i j n : ℕ}

/-- Elements `i` to `j - 1` fail the test, and there is no more of them on either side. -/
structure IsRun (p : α → Bool) (l : List α) (i j : ℕ) : Prop where
  nonempty : i < j
  elems : ∀ k, i ≤ k → k < j → ∃ x, l[k]? = some x ∧ p x = false
  left : ∀ k x, k + 1 = i → l[k]? = some x → p x = true
  right : ∀ x, l[j]? = some x → p x = true

/-- The runs of a list that begins at index `n`; with `some i` a run is open since index `i`. -/
def runsFrom (p : α → Bool) : ℕ → Option ℕ → List α → List (ℕ × ℕ)
  | _, none, [] => []
  | n, some i, [] => [(i, n)]
  | n, none, x :: l => if p x then runsFrom p (n + 1) none l else runsFrom p (n + 1) (some n) l
  | n, some i, x :: l => if p x then (i, n) :: runsFrom p (n + 1) none l else runsFrom p (n + 1)
      (some i) l

/-- The runs of a list. -/
def runs (p : α → Bool) (l : List α) : List (ℕ × ℕ) := runsFrom p 0 none l

/-! ## The scanner -/

/-- Where the runs that are still to come begin. -/
def since (n : ℕ) (o : Option ℕ) : ℕ := o.getD n

/-- What the scanner knows of the first `n` elements of `l`. -/
structure Scanned (p : α → Bool) (l : List α) (n : ℕ) (o : Option ℕ) : Prop where
  left : ∀ k x, k + 1 = since n o → l[k]? = some x → p x = true
  elems : ∀ k, since n o ≤ k → k < n → ∃ x, l[k]? = some x ∧ p x = false
  some_lt : ∀ i, o = some i → i < n

/-- Before the first byte nothing is scanned. -/
theorem Scanned.start : Scanned p l 0 none :=
  ⟨fun k x hk => (by cases hk), fun k _ hk => absurd hk (Nat.not_lt_zero k),
    fun i hi => (by cases hi)⟩

/-- A delimiter closes the run. -/
theorem Scanned.close {x : α} (hx : l[n]? = some x) (hp : p x = true) :
    Scanned p l (n + 1) none := by
  refine ⟨fun k y hk hy => ?_, fun k hk hlt => ?_, fun i hi => (by cases hi)⟩
  · have hkn : k = n := Nat.succ.inj hk
    rw [hkn, hx, Option.some.injEq] at hy
    rw [← hy]
    exact hp
  · exact absurd hlt (Nat.not_lt.mpr hk)

/-- An element that fails the test opens a run, or makes it longer. -/
theorem Scanned.push {o : Option ℕ} {x : α} (h : Scanned p l n o) (hx : l[n]? = some x)
    (hp : p x = false) :
    Scanned p l (n + 1) (some (since n o)) := by
  have hle : since n o ≤ n := by
    cases ho : o with
    | none => exact Nat.le_refl _
    | some i => exact Nat.le_of_lt (h.some_lt i ho)
  refine ⟨h.left, fun k hk hlt => ?_, fun i hi => ?_⟩
  · rcases Nat.lt_succ_iff_lt_or_eq.mp hlt with hlt | rfl
    · exact h.elems k hk hlt
    · exact ⟨x, hx, hp⟩
  · cases hi
    omega

/-- The end of the run that is open. -/
theorem Scanned.isRun (h : Scanned p l n (some i)) (hend : ∀ x, l[n]? = some x → p x = true) :
    IsRun p l i n :=
  ⟨h.some_lt i rfl, h.elems, h.left, hend⟩

/-- A run that does not begin before the open one is that one, or comes later. -/
theorem Scanned.later {o : Option ℕ} (h : Scanned p l n o) (hend : ∀ x, l[n]? = some x → p x = true)
    (hrun : IsRun p l i j) (hi : since n o ≤ i) : o = some i ∧ j = n ∨ n < i := by
  have hnot : ∀ x, p x = true → p x = false → False := by
    intro x ht hf
    rw [ht] at hf
    cases hf
  have hn : n < j → n < i := by
    intro hlt
    by_contra hge
    obtain ⟨x, hx, hp⟩ := hrun.elems n (by omega) hlt
    exact hnot x (hend x hx) hp
  by_cases hlt : n < i
  · exact .inr hlt
  have hj : j ≤ n := by
    by_contra hgt
    exact hlt (hn (by omega))
  have hne := hrun.nonempty
  -- the element before a later start would be in the open run
  have hstart : since n o = i := by
    by_contra hne'
    obtain ⟨x, hx, hp⟩ := h.elems (i - 1) (by omega) (by omega)
    exact hnot x (hrun.left (i - 1) x (by omega) hx) hp
  have hstop : j = n := by
    by_contra hne'
    obtain ⟨x, hx, hp⟩ := h.elems j (by omega) (by omega)
    exact hnot x (hrun.right x hx) hp
  cases o with
  | none =>
    have hni : n = i := hstart
    omega
  | some k =>
    have hki : k = i := hstart
    exact .inl ⟨by rw [hki], hstop⟩

/-- What the scanner finds from index `n` on. -/
theorem mem_runsFrom (r : List α) : ∀ (n : ℕ) (o : Option ℕ), l.drop n = r → Scanned p l n o →
    ((i, j) ∈ runsFrom p n o r ↔ IsRun p l i j ∧ since n o ≤ i) := by
  induction r with
  | nil =>
    intro n o hr h
    have hend : ∀ x, l[n]? = some x → p x = true := by
      intro x hx
      have hlt := (List.getElem?_eq_some_iff.mp hx).1
      have hlen := List.drop_eq_nil_iff.mp hr
      omega
    have hnone : ∀ i j, IsRun p l i j → ¬ n < i := by
      intro i j hrun hlt
      obtain ⟨x, hx, -⟩ := hrun.elems i (Nat.le_refl _) hrun.nonempty
      have hin := (List.getElem?_eq_some_iff.mp hx).1
      have hlen := List.drop_eq_nil_iff.mp hr
      omega
    cases o with
    | none =>
      constructor
      · intro hm
        cases hm
      · rintro ⟨hrun, hi⟩
        rcases h.later hend hrun hi with ⟨ho, -⟩ | hlt
        · cases ho
        · exact absurd hlt (hnone i j hrun)
    | some k =>
      rw [runsFrom, List.mem_singleton]
      constructor
      · intro heq
        cases heq
        exact ⟨h.isRun hend, (Nat.le_refl _)⟩
      · rintro ⟨hrun, hi⟩
        rcases h.later hend hrun hi with ⟨ho, hj⟩ | hlt
        · cases ho
          rw [hj]
        · exact absurd hlt (hnone i j hrun)
  | cons x r ih =>
    intro n o hr h
    have hx : l[n]? = some x := by
      have hget : (l.drop n)[0]? = some x := by rw [hr]; rfl
      rwa [List.getElem?_drop, Nat.add_zero] at hget
    have hr' : l.drop (n + 1) = r := by rw [← List.tail_drop, hr, List.tail_cons]
    by_cases hp : p x = true
    · have hend : ∀ y, l[n]? = some y → p y = true := by
        intro y hy
        rw [hx, Option.some.injEq] at hy
        rw [← hy]
        exact hp
      have hrest := ih (n + 1) none hr' (.close hx hp)
      have hsince : since (n + 1) none = n + 1 := rfl
      rw [hsince] at hrest
      cases o with
      | none =>
        rw [runsFrom, if_pos hp, hrest]
        refine and_congr_right fun hrun => ?_
        constructor
        · intro hi
          exact Nat.le_of_succ_le hi
        · intro hi
          rcases h.later hend hrun hi with ⟨ho, -⟩ | hlt
          · cases ho
          · exact hlt
      | some k =>
        rw [runsFrom, if_pos hp, List.mem_cons, hrest]
        constructor
        · rintro (heq | ⟨hrun, hi⟩)
          · cases heq
            exact ⟨h.isRun hend, (Nat.le_refl _)⟩
          · have hkn := h.some_lt k rfl
            have hki : k ≤ i := by omega
            exact ⟨hrun, hki⟩
        · rintro ⟨hrun, hi⟩
          rcases h.later hend hrun hi with ⟨ho, hj⟩ | hlt
          · cases ho
            exact .inl (by rw [hj])
          · exact .inr ⟨hrun, hlt⟩
    · have hp' : p x = false := by simpa using hp
      have hrest := ih (n + 1) (some (since n o)) hr' (h.push hx hp')
      cases o with
      | none =>
        rw [runsFrom, if_neg hp]
        exact hrest
      | some k =>
        rw [runsFrom, if_neg hp]
        exact hrest

/-- **The runs are the maximal runs.** -/
theorem mem_runs_iff : (i, j) ∈ runs p l ↔ IsRun p l i j := by
  have h := mem_runsFrom (p := p) (i := i) (j := j) l 0 none List.drop_zero .start
  rw [runs, h]
  exact and_iff_left (Nat.zero_le i)

/-- The runs that are still to come, in order. -/
theorem runsFrom_pairwise (r : List α) : ∀ (n : ℕ) (o : Option ℕ), (∀ i, o = some i → i ≤ n) →
    (runsFrom p n o r).Pairwise (fun a b => a.2 < b.1) ∧ ∀ a ∈ runsFrom p n o r,
      since n o ≤ a.1 := by
  induction r with
  | nil =>
    intro n o ho
    cases o with
    | none => exact ⟨List.Pairwise.nil, fun a ha => by cases ha⟩
    | some i =>
      refine ⟨List.pairwise_singleton _ _, fun a ha => ?_⟩
      rw [runsFrom, List.mem_singleton] at ha
      rw [ha]
      exact Nat.le_refl i
  | cons x r ih =>
    intro n o ho
    obtain ⟨hnone, hlow⟩ := ih (n + 1) none fun i hi => by cases hi
    by_cases hp : p x = true
    · cases o with
      | none =>
        rw [runsFrom, if_pos hp]
        exact ⟨hnone, fun a ha => Nat.le_of_succ_le (hlow a ha)⟩
      | some i =>
        rw [runsFrom, if_pos hp]
        refine ⟨List.pairwise_cons.mpr ⟨fun a ha => hlow a ha, hnone⟩, fun a ha => ?_⟩
        rcases List.mem_cons.mp ha with rfl | ha
        · exact Nat.le_refl i
        · exact Nat.le_trans (ho i rfl) (Nat.le_of_succ_le (hlow a ha))
    · cases o with
      | none =>
        rw [runsFrom, if_neg hp]
        refine ih (n + 1) (some n) fun i hi => ?_
        cases hi
        exact Nat.le_succ n
      | some i =>
        rw [runsFrom, if_neg hp]
        refine ih (n + 1) (some i) fun k hk => ?_
        cases hk
        exact Nat.le_succ_of_le (ho i rfl)

/-- The runs are found from left to right. -/
theorem runs_pairwise : (runs p l).Pairwise fun a b => a.2 < b.1 :=
  (runsFrom_pairwise l 0 none fun i hi => by cases hi).1

end MaximalRuns
