import Mathlib.Tactic.Common

/-!
# Guarded machines and their runs

A machine has start states, actions that are enabled or not in a state, and a total
transition function. A run takes enabled actions one after the other. `Reach C` is
reachability by runs whose every step meets a condition `C` on the state before the step
and the action taken; with `Always` for `C` it is plain reachability.

An invariant is proved once per step and carried to every run by `Reach.induction`.
-/

set_option autoImplicit false

/-- A machine over states `S` with actions `A`. -/
structure Machine (S A : Type) where
  start : S → Prop
  enabled : S → A → Prop
  next : A → S → S

namespace Machine

variable {S A : Type} (M : Machine S A)

/-- The condition that every step meets. -/
def Always : S → A → Prop := fun _ _ => True

/-- The states reached by the runs whose every step meets `C`. -/
inductive Reach (C : S → A → Prop) : S → Prop
  | start {s : S} (hs : M.start s) : Reach C s
  | step {s : S} (a : A) (hs : Reach C s) (he : M.enabled s a) (hc : C s a) : Reach C (M.next a s)

variable {M}

/-- The invariant rule: a property of the start states that every step keeps holds in every
reached state. The step may use that its state is reached. -/
theorem Reach.induction {C : S → A → Prop} {I : S → Prop} (hstart : ∀ s, M.start s → I s)
    (hstep : ∀ s a, M.Reach C s → I s → M.enabled s a → C s a → I (M.next a s)) {s : S}
    (hs : M.Reach C s) : I s := by
  induction hs with
  | start h => exact hstart _ h
  | step a hr he hc ih => exact hstep _ a hr ih he hc

/-- A stronger condition on the steps reaches fewer states. -/
theorem Reach.mono {C D : S → A → Prop} (hCD : ∀ s a, C s a → D s a) {s : S}
    (hs : M.Reach C s) : M.Reach D s := by
  induction hs with
  | start h => exact .start h
  | step a _ he hc ih => exact .step a ih he (hCD _ _ hc)

/-- Every reached state is reachable. -/
theorem Reach.always {C : S → A → Prop} {s : S} (hs : M.Reach C s) : M.Reach Always s :=
  hs.mono fun _ _ _ => trivial

/-- The states that a run from `s` comes to, by steps that meet `C`. -/
inductive Path (M : Machine S A) (C : S → A → Prop) (s : S) : S → Prop
  | refl : Path M C s s
  | step {s' : S} (a : A) (hs : Path M C s s') (he : M.enabled s' a) (hc : C s' a) :
    Path M C s (M.next a s')

/-- One step. -/
theorem Path.single {C : S → A → Prop} {s : S} (a : A) (he : M.enabled s a) (hc : C s a) :
    M.Path C s (M.next a s) :=
  .step a .refl he hc

/-- One run after the other. -/
theorem Path.trans {C : S → A → Prop} {s₁ s₂ s₃ : S} (h : M.Path C s₁ s₂) (h' : M.Path C s₂ s₃) :
    M.Path C s₁ s₃ := by
  induction h' with
  | refl => exact h
  | step a _ he hc ih => exact .step a ih he hc

/-- A run whose steps meet a stronger condition. -/
theorem Path.mono {C D : S → A → Prop} (hCD : ∀ s a, C s a → D s a) {s s' : S}
    (h : M.Path C s s') : M.Path D s s' := by
  induction h with
  | refl => exact .refl
  | step a _ he hc ih => exact .step a ih he (hCD _ _ hc)

/-- A run from a reached state. -/
theorem Reach.path {C : S → A → Prop} {s s' : S} (hs : M.Reach C s) (h : M.Path C s s') :
    M.Reach C s' := by
  induction h with
  | refl => exact hs
  | step a _ he hc ih => exact .step a ih he hc

/-- A reached state is at the end of a run from a start state. -/
theorem Reach.exists_path {C : S → A → Prop} {s : S} (hs : M.Reach C s) :
    ∃ s₀, M.start s₀ ∧ M.Path C s₀ s := by
  induction hs with
  | start h => exact ⟨_, h, .refl⟩
  | step a _ he hc ih =>
    obtain ⟨s₀, h₀, hp⟩ := ih
    exact ⟨s₀, h₀, .step a hp he hc⟩

/-- The simulation rule: when every step of `M` is a run of `N` between the images of its two
states, the image of every reached state is reached. -/
theorem Reach.simulate {T B : Type} {N : Machine T B} {C : S → A → Prop} {D : T → B → Prop}
    (f : S → T) (hstart : ∀ s, M.start s → N.start (f s))
    (hstep : ∀ s a, M.Reach C s → M.enabled s a → C s a → N.Path D (f s) (f (M.next a s))) {s : S}
    (hs : M.Reach C s) : N.Reach D (f s) :=
  hs.induction (I := fun s => N.Reach D (f s)) (fun s h => .start (hstart s h))
    fun s a hr ih he hc => ih.path (hstep s a hr he hc)

/-- The machine beside an observer, who sees every action with the state that it is taken in and
notes `f` of them. -/
def observed {G : Type} (M : Machine S A) (g₀ : G) (f : A → S → G → G) : Machine (S × G) A where
  start x := M.start x.1 ∧ x.2 = g₀
  enabled x a := M.enabled x.1 a
  next a x := (M.next a x.1, f a x.1 x.2)

/-- An observed run is a run. -/
theorem Reach.unobserved {G : Type} {g₀ : G} {f : A → S → G → G} {C : S × G → A → Prop} {x : S × G}
    (h : (M.observed g₀ f).Reach C x) : M.Reach Always x.1 := by
  induction h with
  | start hs => exact .start hs.1
  | step a _ he _ ih => exact .step a ih he trivial

instance {G : Type} (M : Machine S A) [∀ s a, Decidable (M.enabled s a)] (g₀ : G)
    (f : A → S → G → G) (x : S × G) (a : A) : Decidable ((M.observed g₀ f).enabled x a) :=
  inferInstanceAs (Decidable (M.enabled x.1 a))

variable (M)

/-- Take the actions one after the other; `none` when one of them is not enabled. -/
def run [∀ s a, Decidable (M.enabled s a)] : List A → S → Option S
  | [], s => some s
  | a :: as, s => if M.enabled s a then run as (M.next a s) else none

/-- A run of a list of actions that meet `C` in every state. -/
theorem path_of_run [∀ s a, Decidable (M.enabled s a)] {C : S → A → Prop} {as : List A}
    (hC : ∀ a ∈ as, ∀ s, C s a) {s s' : S} (h : M.run as s = some s') : M.Path C s s' := by
  induction as generalizing s with
  | nil =>
    have he : s = s' := by simpa [run] using h
    exact he ▸ .refl
  | cons a as ih =>
    unfold run at h
    split at h
    case isTrue he =>
      exact (Path.single a he (hC a (by simp) s)).trans (ih (fun b hb => hC b (by simp [hb])) h)
    case isFalse => cases h

/-- Where a run of a list of actions ends is reachable by steps that meet `C`, when the actions meet
it in every state. -/
theorem reach_of_run [∀ s a, Decidable (M.enabled s a)] {C : S → A → Prop} {as : List A}
    (hC : ∀ a ∈ as, ∀ s, C s a) {s s' : S} (hs : M.Reach C s) (h : M.run as s = some s') :
    M.Reach C s' :=
  hs.path (M.path_of_run hC h)

/-- The lock-step rule: two machines that a relation holds between take the same actions, as long as
every step of the first is one of the second and the relation holds again. -/
theorem run_follows {T : Type} {N : Machine T A} [∀ s a, Decidable (M.enabled s a)]
    [∀ t a, Decidable (N.enabled t a)] {R : S → T → Prop}
    (hstep : ∀ s t a, R s t → M.enabled s a → N.enabled t a ∧ R (M.next a s) (N.next a t))
    {as : List A} {s s' : S} {t : T} (h : R s t) (hrun : M.run as s = some s') :
    ∃ t', N.run as t = some t' ∧ R s' t' := by
  induction as generalizing s t with
  | nil =>
    have he : s = s' := by simpa [run] using hrun
    exact ⟨t, rfl, he ▸ h⟩
  | cons a as ih =>
    unfold run at hrun
    split at hrun
    case isTrue he =>
      obtain ⟨he', h'⟩ := hstep s t a h he
      obtain ⟨t', hrun', hend⟩ := ih h' hrun
      exact ⟨t', by rw [run, if_pos he', hrun'], hend⟩
    case isFalse => cases hrun

/-- Every step of a run passes a check. -/
def checked (ok : S → A → Bool) : List A → S → Bool
  | [], _ => true
  | a :: as, s => ok s a && checked ok as (M.next a s)

/-- A run whose steps pass a check of `C`. -/
theorem path_of_checked [∀ s a, Decidable (M.enabled s a)] {C : S → A → Prop} {ok : S → A → Bool}
    (hok : ∀ s a, ok s a = true → C s a) {as : List A} {s s' : S} (h : M.run as s = some s')
    (hall : M.checked ok as s = true) : M.Path C s s' := by
  induction as generalizing s with
  | nil =>
    have he : s = s' := by simpa [run] using h
    exact he ▸ .refl
  | cons a as ih =>
    rw [checked, Bool.and_eq_true] at hall
    unfold run at h
    split at h
    case isTrue he => exact (Path.single a he (hok s a hall.1)).trans (ih h hall.2)
    case isFalse => cases h

/-- Where a run ends whose steps pass a check of `C`. -/
theorem reach_of_checked [∀ s a, Decidable (M.enabled s a)] {C : S → A → Prop} {ok : S → A → Bool}
    (hok : ∀ s a, ok s a = true → C s a) {as : List A} {s s' : S} (hs : M.Reach C s)
    (h : M.run as s = some s') (hall : M.checked ok as s = true) : M.Reach C s' :=
  hs.path (M.path_of_checked hok h hall)

/-- A run that ends in a state with a property that can be evaluated. -/
theorem exists_run [∀ s a, Decidable (M.enabled s a)] {l : List A} {s : S} {p : S → Bool}
    (h : (M.run l s).any p = true) : ∃ s', M.run l s = some s' ∧ p s' = true := by
  cases hr : M.run l s with
  | none =>
    rw [hr] at h
    cases h
  | some s' =>
    rw [hr] at h
    exact ⟨s', rfl, h⟩

end Machine
