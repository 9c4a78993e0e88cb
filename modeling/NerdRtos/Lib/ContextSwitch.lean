import NerdRtos.Lib.Machine
import Mathlib.Data.Set.Basic

/-!
# Context switches

A port saves the context of a thread in memory and restores it from there. What it reads back are
the words of the thread's `frame`; a thread that is switched out depends on nothing else, and the
frames of two threads have no word in common. `resumes k c m c'` says that `c'`, with the memory
`m`, goes on where a thread was that was switched out in the context `c`, in the way `k`.

On these laws rests what holds of all runs: whatever the threads and the code between save and
restore do, as long as they keep off the frames of other threads, every thread is resumed as it was
left, and a new thread as its initial frame says.
-/

set_option autoImplicit false

namespace ContextSwitch

/-- A port for threads `T`, with contexts `C` and a memory from addresses `A` to values `V`. -/
structure Port (T K C A V : Type) where
  /-- A context that can be saved: it is that of the thread and has room for a frame. -/
  valid : T → C → Prop
  /-- The words that a thread depends on while it is switched out. -/
  frame : T → K → C → Set A
  /-- The memory says that this thread is to run. -/
  current : (A → V) → T → Prop
  /-- The code between save and restore has left this thread to be restored, by the code behind a
  save of some way, or by that of the first switch. -/
  chosen : Option K → C → (A → V) → T → Prop
  save : K → C → (A → V) → A → V
  restore : Option K → C → (A → V) → C × (A → V)
  resumes : K → C → (A → V) → C → Prop
  frame_disjoint : ∀ {t u : T} {k k' : K} {c c' : C} {a : A}, t ≠ u → valid t c → valid u c' →
    a ∈ frame u k' c' → a ∉ frame t k c
  save_other : ∀ {t : T} {k : K} {c : C} {m : A → V} {a : A}, valid t c → current m t →
    a ∉ frame t k c → save k c m a = m a
  chosen_current : ∀ {w : Option K} {g : C} {m : A → V} {t : T}, chosen w g m t → current m t
  restore_other : ∀ {t : T} {k : K} {c g : C} {w : Option K} {m m' : A → V} {a : A}, valid t c →
    current m t → chosen w g m' t → (∀ a ∈ frame t k c, m' a = save k c m a) → a ∉ frame t k c →
      (restore w g m').2 a = m' a
  restore_save : ∀ {t : T} {k : K} {c g : C} {w : Option K} {m m' : A → V}, valid t c →
    current m t → chosen w g m' t → (∀ a ∈ frame t k c, m' a = save k c m a) →
      resumes k c m' (restore w g m').1
  current_other : ∀ {t u : T} {k : K} {c : C} {m m' : A → V}, valid t c → current m u →
    (∀ a, a ∉ frame t k c → m' a = m a) → current m' u

/-- The threads and the port. `left` is how each thread was switched out last, which nothing
reads. -/
structure State (T K C A V : Type) where
  cpu : C
  mem : A → V
  current : Option T
  left : T → Option (K × C)

/-- What happens. `mem` is the memory after the code of the thread, or between save and restore, and
`regs` the context that the latter leaves. -/
inductive Act (T K C A V : Type)
  | run (cpu : C) (mem : A → V)
  | create (t : T) (k : K) (c : C) (mem : A → V)
  | first (t : T) (mem : A → V) (regs : C)
  | switch (k : K) (t : T) (mem : A → V) (regs : C)

/-- The thread that is resumed, with the memory then. -/
def Act.resumed {T K C A V : Type} : Act T K C A V → Option (T × (A → V))
  | .first t mem _ | .switch _ t mem _ => some (t, mem)
  | .run .. | .create .. => none

namespace Port

variable {T K C A V : Type} (P : Port T K C A V)

/-- The frame of thread `t` is in the memory: with its words, the thread is resumed as it was
left. -/
def Saved (t : T) (k : K) (c : C) (m : A → V) : Prop :=
  ∀ m', (∀ a ∈ P.frame t k c, m' a = m a) → ∀ w g, P.chosen w g m' t →
    P.resumes k c m' (P.restore w g m').1 ∧
      ∀ a, a ∉ P.frame t k c → (P.restore w g m').2 a = m' a

/-- The frames of the threads that are switched out are as they were. -/
def Keeps (left : T → Option (K × C)) (off : Option T) (m m' : A → V) : Prop :=
  ∀ t k c, left t = some (k, c) → off ≠ some t → ∀ a ∈ P.frame t k c, m' a = m a

variable [DecidableEq T]

/-- What the threads and the code between save and restore keep to. -/
def enabled (s : State T K C A V) : Act T K C A V → Prop
  | .run _ mem => P.Keeps s.left s.current s.mem mem ∧ ∀ t, s.current = some t → P.current mem t
  | .create t k c mem => s.current ≠ some t ∧ P.valid t c ∧ P.Saved t k c mem ∧
    (∀ u, s.current = some u → P.current mem u) ∧
    ∀ u k' c', u ≠ t → s.left u = some (k', c') → s.current ≠ some u →
      ∀ a ∈ P.frame u k' c', mem a = s.mem a
  | .first t mem regs => s.current = none ∧ (s.left t).isSome ∧
    P.Keeps s.left none s.mem mem ∧ P.chosen none regs mem t
  | .switch k t mem regs => ∃ u, s.current = some u ∧ P.valid u s.cpu ∧
    (t = u ∨ (s.left t).isSome) ∧ P.chosen (some k) regs mem t ∧
    P.Keeps (Function.update s.left u (some (k, s.cpu))) none (P.save k s.cpu s.mem) mem

/-- The state after an action. -/
def next : Act T K C A V → State T K C A V → State T K C A V
  | .run cpu mem, s => { s with cpu, mem }
  | .create t k c mem, s => { s with mem, left := Function.update s.left t (some (k, c)) }
  | .first t mem regs, s =>
    { s with
      cpu := (P.restore none regs mem).1
      mem := (P.restore none regs mem).2
      current := some t }
  | .switch k t mem regs, s =>
    { cpu := (P.restore (some k) regs mem).1
      mem := (P.restore (some k) regs mem).2
      current := some t
      left := match s.current with
        | none => s.left
        | some u => Function.update s.left u (some (k, s.cpu)) }

/-- A thread that is switched out has its context noted. -/
theorem left_switch {s : State T K C A V} {u : T} (hcur : s.current = some u) (k : K) (t : T)
    (mem : A → V) (regs : C) : (P.next (.switch k t mem regs) s).left =
      Function.update s.left u (some (k, s.cpu)) := by
  simp only [next, hcur]

/-- The threads on a port, from before the first of them runs. -/
def machine : Machine (State T K C A V) (Act T K C A V) where
  start s := s.current = none ∧ ∀ t, s.left t = none
  enabled := P.enabled
  next := P.next

/-! ## Frames -/

section Frames

variable {P} {t u : T} {k : K} {c g : C} {m m' : A → V} {left : T → Option (K × C)}

omit [DecidableEq T] in
/-- A frame is in the memory as long as its words are. -/
theorem Saved.congr (h : P.Saved t k c m) (hm : ∀ a ∈ P.frame t k c, m' a = m a) :
    P.Saved t k c m' := by
  intro m'' hframe w g hchosen
  apply h m'' _ w g hchosen
  intro a ha
  exact (hframe a ha).trans (hm a ha)

omit [DecidableEq T] in
/-- The save puts it there. -/
theorem saved_save (hv : P.valid t c) (hcur : P.current m t) : P.Saved t k c (P.save k c m) := by
  intro m' hframe w g hchosen
  refine ⟨P.restore_save hv hcur hchosen hframe, ?_⟩
  intro a ha
  exact P.restore_other hv hcur hchosen hframe ha

variable (P) in
/-- All threads that were switched out have their frames. -/
def AllSaved (left : T → Option (K × C)) (off : Option T) (m : A → V) : Prop :=
  ∀ t k c, left t = some (k, c) → off ≠ some t → P.valid t c ∧ P.Saved t k c m

omit [DecidableEq T] in
/-- Frames that are kept stay saved. -/
theorem AllSaved.keeps {off : Option T} (h : P.AllSaved left off m) (hk : P.Keeps left off m m') :
    P.AllSaved left off m' := by
  intro t k c hl ho
  obtain ⟨hv, hs⟩ := h t k c hl ho
  exact ⟨hv, hs.congr (hk t k c hl ho)⟩

omit [DecidableEq T] in
/-- A thread is resumed as it was left, and the others keep their frames. -/
theorem AllSaved.restore {w : Option K} (h : P.AllSaved left none m) (hl : left t = some (k, c))
    (hchosen : P.chosen w g m t) : P.resumes k c m (P.restore w g m).1 ∧
      P.current (P.restore w g m).2 t ∧ P.AllSaved left (some t) (P.restore w g m).2 := by
  obtain ⟨hv, hs⟩ := h t k c hl (by simp)
  obtain ⟨hres, hother⟩ := hs m (fun _ _ => rfl) w g hchosen
  refine ⟨hres, P.current_other hv (P.chosen_current hchosen) hother, ?_⟩
  intro u k' c' hu hut
  have hne : t ≠ u := fun he => hut (congrArg some he)
  obtain ⟨hv', hs'⟩ := h u k' c' hu (by simp)
  refine ⟨hv', hs'.congr ?_⟩
  intro a ha
  exact hother a (P.frame_disjoint hne hv hv' ha)

/-- The running thread is switched out, and has its frame as well. -/
theorem AllSaved.save (h : P.AllSaved left (some t) m) (hv : P.valid t c) (hcur : P.current m t) :
    P.AllSaved (Function.update left t (some (k, c))) none (P.save k c m) := by
  intro u k' c' hu _
  by_cases hut : u = t
  · subst hut
    simp only [Function.update_self, Option.some.injEq, Prod.mk.injEq] at hu
    obtain ⟨rfl, rfl⟩ := hu
    exact ⟨hv, saved_save hv hcur⟩
  · rw [Function.update_of_ne hut] at hu
    have hne : t ≠ u := fun he => hut he.symm
    obtain ⟨hv', hs'⟩ := h u k' c' hu (by simpa using hne)
    refine ⟨hv', hs'.congr ?_⟩
    intro a ha
    exact P.save_other hv hcur (P.frame_disjoint hne hv hv' ha)

end Frames

/-! ## Runs -/

/-- Every thread that is switched out has its frame. -/
structure Sound (s : State T K C A V) : Prop where
  current : ∀ t, s.current = some t → P.current s.mem t
  saved : P.AllSaved s.left s.current s.mem

variable {P} {s : State T K C A V}

/-- What the memory holds when a thread is resumed. -/
theorem Sound.resumed {a : Act T K C A V} {t : T} {mem : A → V} (h : P.Sound s)
    (he : P.enabled s a) (ha : a.resumed = some (t, mem)) :
    P.AllSaved (P.next a s).left none mem ∧ ((P.next a s).left t).isSome ∧
      ∃ w g, P.chosen w g mem t ∧ (P.next a s).cpu = (P.restore w g mem).1 ∧
        (P.next a s).mem = (P.restore w g mem).2 ∧ (P.next a s).current = some t := by
  cases a with
  | run => cases ha
  | create => cases ha
  | first u m g =>
    cases ha
    obtain ⟨hnone, hleft, hkeeps, hchosen⟩ := he
    have hsaved := h.saved
    rw [hnone] at hsaved
    exact ⟨hsaved.keeps hkeeps, hleft, none, g, hchosen, rfl, rfl, rfl⟩
  | switch k u m g =>
    cases ha
    obtain ⟨v, hv, hvalid, hleft, hchosen, hkeeps⟩ := he
    have hsaved := h.saved
    rw [hv] at hsaved
    have hnext : (P.next (.switch k t mem g) s).left =
        Function.update s.left v (some (k, s.cpu)) := by
      simp [Port.next, hv]
    rw [hnext]
    refine ⟨(hsaved.save hvalid (h.current v hv)).keeps hkeeps, ?_, some k, g, hchosen, rfl, rfl,
      rfl⟩
    by_cases htv : t = v
    · simp [htv]
    · simpa [htv] using hleft.resolve_left htv

/-- Every action that is enabled keeps the frames. -/
theorem Sound.next {a : Act T K C A V} (h : P.Sound s) (he : P.enabled s a) :
    P.Sound (P.next a s) := by
  have hresume : ∀ t mem, a.resumed = some (t, mem) → P.Sound (P.next a s) := by
    intro t mem ha
    obtain ⟨hsaved, hleft, w, g, hchosen, -, hmem, hthread⟩ := h.resumed he ha
    obtain ⟨⟨k, c⟩, hl⟩ := Option.isSome_iff_exists.mp hleft
    obtain ⟨-, hcur', hsaved'⟩ := hsaved.restore hl hchosen
    refine ⟨fun u hu => ?_, ?_⟩
    · rw [hthread] at hu
      cases hu
      rw [hmem]
      exact hcur'
    · rw [hmem, hthread]
      exact hsaved'
  cases a with
  | run cpu mem => exact ⟨he.2, h.saved.keeps he.1⟩
  | create t k c mem =>
    obtain ⟨hoff, hv, hs, hcur, hkeeps⟩ := he
    refine ⟨hcur, fun u k' c' hu hout => ?_⟩
    by_cases hut : u = t
    · subst hut
      have hrec : some (k, c) = some (k', c') := by simpa [Port.next] using hu
      cases hrec
      exact ⟨hv, hs⟩
    · have hu' : s.left u = some (k', c') := by simpa [Port.next, hut] using hu
      obtain ⟨hv', hs'⟩ := h.saved u k' c' hu' hout
      exact ⟨hv', hs'.congr (hkeeps u k' c' hut hu' hout)⟩
  | first t mem g => exact hresume t mem rfl
  | switch k t mem g => exact hresume t mem rfl

/-- In every run the threads that are switched out have their frames. -/
theorem sound_reach (hs : P.machine.Reach Machine.Always s) : P.Sound s := by
  apply hs.induction
  · rintro s ⟨hcur, hleft⟩
    refine ⟨fun t ht => ?_, fun t k c hl => ?_⟩
    · rw [hcur] at ht
      cases ht
    · rw [hleft] at hl
      cases hl
  · intro s a _ hi he _
    exact hi.next he

/-- In every run, whichever thread comes to run is resumed as it was left. -/
theorem resumes_of_reach {a : Act T K C A V} {t : T} {mem : A → V} {k : K} {c : C}
    (hs : P.machine.Reach Machine.Always s) (he : P.enabled s a) (ha : a.resumed = some (t, mem))
    (hl : (P.next a s).left t = some (k, c)) : P.resumes k c mem (P.next a s).cpu := by
  obtain ⟨hsaved, -, w, g, hchosen, hcpu, -⟩ := (sound_reach hs).resumed he ha
  rw [hcpu]
  exact (hsaved.restore hl hchosen).1

end Port

end ContextSwitch
