import NerdRtos.Lib.Inheritance

/-!
# What locks with priority inheritance keep

None of the four properties one expects of the discipline is an invariant by itself:
`NoInversion`, `Justified`, `Served` and `CacheTrue`. For each there is a condition on the moves
(`Covers`, `Settles`, `KeepsPlace`, `KeepsCache`), read off the world before the move, under
which the move keeps the property.
-/

set_option autoImplicit false

namespace Inheritance

variable {T M H P : Type} [DecidableEq T] [DecidableEq M] [LinearOrder P]

/-! ## The properties -/

section Properties

variable (L : Locks M H P) (w : World T M H P)

/-- Nobody waits for a lock without an owner. -/
def Guarded : Prop := ∀ m, w.owner m = none → ∀ u, w.lines.home u ≠ some (L.line m)

/-- No owner comes after a thread that waits for it. -/
def NoInversion : Prop :=
  ∀ m o u, w.owner m = some o → w.lines.home u = some (L.line m) → w.prio o ≤ w.prio u

/-- Whoever does not run at its base priority owns a lock that a thread of that priority, or before
it, waits for. -/
def Justified : Prop :=
  ∀ t, w.prio t = w.base t ∨
    ∃ m u, w.owner m = some t ∧ w.lines.home u = some (L.line m) ∧ w.prio u ≤ w.prio t

/-- Thread `t` comes before thread `u` on a line: its priority is smaller, or it is the same and
`t` has waited longer. -/
def Precedes (t u : T) : Prop :=
  w.prio t < w.prio u ∨
    w.prio t = w.prio u ∧ w.arrivals.idxOf u < w.arrivals.idxOf t

/-- Every line is in order. -/
def Served : Prop := ∀ h, (w.lines.lists h).Pairwise (Precedes w)

/-- The cache of a lock is the smallest priority on its line. -/
structure CachedAt (m : M) : Prop where
  idle : (∀ u, w.lines.home u ≠ some (L.line m)) → w.cache m = L.idle
  le : ∀ u, w.lines.home u = some (L.line m) → w.cache m ≤ w.prio u
  attained : ∀ u, w.lines.home u = some (L.line m) →
    ∃ v, w.lines.home v = some (L.line m) ∧ w.prio v = w.cache m

/-- Every cache is the smallest priority on its line. -/
def CacheTrue : Prop := ∀ m, CachedAt L w m

end Properties

/-! ## The conditions -/

section Conditions

variable (L : Locks M H P) (w : World T M H P)

/-- Every thread that waits for a lock which `c` keeps when it gives up `m` is covered by the base
priority of `c` or by the cache of a lock that `c` keeps. -/
def KeptCovered (m : M) (c : T) : Prop :=
  ∀ k u, w.owner k = some c → k ≠ m → w.lines.home u = some (L.line k) →
    w.base c ≤ w.prio u ∨ ∃ k' ∈ w.held.lists c, k' ≠ m ∧ w.cache k' ≤ w.prio u

/-- The moves that leave no inversion: an owner that is raised while it waits itself waits for an
owner of the new priority or before it, an owner that gives up a lock stays in front of the
waiters of the others, and a new owner is in front of those it waited with. -/
def Covers : Move T M H P → Prop
  | .contend _ o c _ => w.prio c < w.prio o → ∀ k o', w.lines.home o = some (L.line k) →
      w.owner k = some o' → w.prio o' ≤ w.prio c
  | .drop m c => KeptCovered L w m c
  | .hand m c t =>
    KeptCovered L w m c ∧ ∀ u, w.lines.home u = some (L.line m) → w.prio t ≤ w.prio u
  | _ => True

/-- When `c` has given up `m`, its priority is the base priority or that of a thread which waits for
a lock that `c` keeps, or after it. -/
def KeptJustified (m : M) (c : T) : Prop :=
  (∀ k ∈ w.held.lists c, k ≠ m → w.base c ≤ w.cache k) ∨
    ∃ k u, w.owner k = some c ∧ k ≠ m ∧ w.lines.home u = some (L.line k) ∧
      w.prio u ≤ w.base c ∧ ∀ k' ∈ w.held.lists c, k' ≠ m → w.prio u ≤ w.cache k'

/-- The moves that leave every boost justified: a thread that leaves a line, or gives up at once
after it has raised the owner, is not the only cause of a boost, and the caches that an owner
goes back to are justified. -/
def Settles : Move T M H P → Prop
  | .leave t => ∀ m o, w.lines.home t = some (L.line m) → w.owner m = some o →
      w.prio o = w.base o ∨ ∃ k u, w.owner k = some o ∧ u ≠ t ∧
        w.lines.home u = some (L.line k) ∧ w.prio u ≤ w.prio o
  | .contend _ o c waits => waits = false → w.prio c < w.prio o → w.prio c = w.base o ∨
      ∃ k u, w.owner k = some o ∧ w.lines.home u = some (L.line k) ∧ w.prio u ≤ w.prio c
  | .drop m c => KeptJustified L w m c
  | .hand m c _ => KeptJustified L w m c
  | _ => True

/-- The moves that leave every line in order: an owner that is raised while it waits stays behind
those that are in front of it. -/
def KeepsPlace : Move T M H P → Prop
  | .contend _ o c _ => w.prio c < w.prio o → ∀ h u, [u, o].Sublist (w.lines.lists h) →
      w.prio u < w.prio c ∨
        w.prio u = w.prio c ∧ w.arrivals.idxOf o < w.arrivals.idxOf u
  | _ => True

/-- The moves that leave every cache true: a thread that leaves the line of a lock is not the only
one of the cached priority, a thread that raises an owner comes before the cache, and a
thread that waits without raising it does not. -/
def KeepsCache : Move T M H P → Prop
  | .leave t => ∀ m, w.lines.home t = some (L.line m) →
      ∃ u, u ≠ t ∧ w.lines.home u = some (L.line m) ∧ w.prio u = w.cache m
  | .contend m o c waits =>
    if w.prio c < w.prio o then
      (if waits then w.prio c ≤ w.cache m else w.prio c = w.cache m) ∧
        ∀ k, w.lines.home o = some (L.line k) → w.cache k ≤ w.prio c
    else waits = true → w.cache m ≤ w.prio c
  | .hand m _ t => ∃ u, u ≠ t ∧ w.lines.home u = some (L.line m) ∧ w.prio u = w.cache m
  | _ => True

/-- The moves that no condition is about: a thread that waits for no lock leaves its line, a thread
arrives on a line that is not a lock's, is new, or takes a lock without an owner. -/
def Quiet : Move T M H P → Prop
  | .leave t => ∀ m, w.lines.home t ≠ some (L.line m)
  | .arrive _ _ | .spawn _ _ | .take _ _ => True
  | _ => False

end Conditions

variable {L : Locks M H P} {w : World T M H P} {mv : Move T M H P} {m : M} {c t u : T}

/-- The locks other than the one that is given up. -/
theorem NoInversion.release (h : NoInversion L w) (hc : w.lines.home c = none)
    (hk : KeptCovered L w m c) {k : M} {o : T} (hkm : k ≠ m) (ho : w.owner k = some o)
    (hu : w.lines.home u = some (L.line k)) :
    (w.release m c).prio o ≤ (w.release m c).prio u := by
  have huc : u ≠ c := by
    rintro rfl
    rw [hc] at hu
    cases hu
  rw [World.release_prio, World.release_prio, Function.update_of_ne huc]
  by_cases hoc : o = c
  · subst hoc
    rw [Function.update_self, World.restored_le_iff]
    exact hk k u ho hkm hu
  · rw [Function.update_of_ne hoc]
    exact h k o u ho hu

omit [DecidableEq T] [DecidableEq M] in
/-- Quiet moves meet every condition. -/
theorem Quiet.covers (h : Quiet L w mv) : Covers L w mv := by
  cases mv <;> trivial

omit [DecidableEq T] [DecidableEq M] in
/-- A quiet move takes no cause away. -/
theorem Quiet.settles (h : Quiet L w mv) : Settles L w mv := by
  cases mv with
  | leave t => exact fun m _ hm => absurd hm (h m)
  | _ => trivial

omit [DecidableEq M] in
/-- A quiet move raises nobody in a line. -/
theorem Quiet.keepsPlace (h : Quiet L w mv) : KeepsPlace w mv := by
  cases mv <;> trivial

omit [DecidableEq T] [DecidableEq M] in
/-- A quiet move takes no cached priority away. -/
theorem Quiet.keepsCache (h : Quiet L w mv) : KeepsCache L w mv := by
  cases mv with
  | leave t => exact fun m hm => absurd hm (h m)
  | _ => trivial

section Steps

variable [DecidableEq H]

/-! ## Who waits after a move -/

/-- Whoever waits for a lock after a move has waited for it before, or has just found it taken. -/
theorem waits_of_apply (hfit : L.fits w mv) (h : (L.apply mv w).lines.home u = some (L.line m)) :
    w.lines.home u = some (L.line m) ∨ ∃ o, mv = .contend m o u true := by
  cases mv with
  | leave t =>
    simp only [Locks.apply, World.leave_lines, Intrusive.Queues.home_unlink] at h
    split at h
    · cases h
    · exact .inl h
  | arrive k t =>
    have hh : (w.lines.link (fun u => w.prio t < w.prio u) k t).home u = some (L.line m) := h
    rw [w.lines.home_link _ _ hfit.1] at hh
    split at hh
    · exact absurd (Option.some.inj hh) (hfit.2 m)
    · exact .inl hh
  | spawn t p => exact .inl h
  | take k c => exact .inl h
  | contend k o c waits =>
    simp only [Locks.apply, home_contend hfit.2.2.1] at h
    split at h
    · rename_i hw
      rw [L.line_inj (Option.some.inj h), hw.1, hw.2]
      exact .inr ⟨o, rfl⟩
    · exact .inl h
  | drop k c => exact .inl h
  | hand k c t =>
    simp only [Locks.apply, World.hand_lines, Intrusive.Queues.home_unlink] at h
    split at h
    · cases h
    · exact .inl h

/-! ## Ownership -/

/-- A lock without an owner gets no waiters. -/
theorem Guarded.step (h : Guarded L w) (hfit : L.fits w mv) : Guarded L (L.apply mv w) := by
  intro m hm u hu
  rcases waits_of_apply hfit hu with hw | ⟨o, rfl⟩
  · have howner : ∃ o, w.owner m = some o :=
      Option.ne_none_iff_exists'.mp fun hnone => h m hnone u hw
    obtain ⟨o, ho⟩ := howner
    cases mv with
    | leave t => exact h m hm u hw
    | arrive k t => exact h m hm u hw
    | spawn t p => exact h m hm u hw
    | contend k o c waits =>
      simp only [Locks.apply, owner_contend] at hm
      exact h m hm u hw
    | take k c =>
      by_cases hk : m = k
      · subst hk
        simp [Locks.apply] at hm
      · exact h m (by simpa [Locks.apply, hk] using hm) u hw
    | drop k c =>
      by_cases hk : m = k
      · subst hk
        have hmem := (w.lines.mem_iff _ _).mpr hw
        rw [hfit.2.2] at hmem
        cases hmem
      · exact h m (by simpa [Locks.apply, hk] using hm) u hw
    | hand k c t =>
      by_cases hk : m = k
      · subst hk
        simp [Locks.apply] at hm
      · exact h m (by simpa [Locks.apply, hk] using hm) u hw
  · simp only [Locks.apply, owner_contend, hfit.1] at hm
    cases hm

/-! ## No inversion -/

/-- A move that covers leaves no inversion. -/
theorem NoInversion.step (h : NoInversion L w) (hG : Guarded L w) (hfit : L.fits w mv)
    (hC : Covers L w mv) : NoInversion L (L.apply mv w) := by
  intro m o u ho hu
  have hw := waits_of_apply hfit hu
  cases mv with
  | leave t => exact h m o u ho (hw.resolve_right (by simp))
  | arrive k t => exact h m o u ho (hw.resolve_right (by simp))
  | spawn t p =>
    have hu' : w.lines.home u = some (L.line m) := hu
    have ho' : w.owner m = some o := ho
    have hut : u ≠ t := by
      rintro rfl
      rw [hfit.1] at hu'
      cases hu'
    have hot : o ≠ t := by
      rintro rfl
      exact hfit.2 m ho'
    simpa [Locks.apply, hut, hot] using h m o u ho' hu'
  | take k c =>
    have hu' : w.lines.home u = some (L.line m) := hu
    have hmk : m ≠ k := by
      rintro rfl
      exact hG m hfit u hu'
    exact h m o u (by simpa [Locks.apply, hmk] using ho) hu'
  | contend k o' c waits =>
    obtain ⟨ho', hne, hc, -⟩ := hfit
    simp only [Locks.apply, owner_contend, prio_contend] at ho ⊢
    rcases hw with hw | ⟨o'', he⟩
    · by_cases huo : u = o'
      · -- the raised owner waits itself
        subst huo
        by_cases hlt : w.prio c < w.prio u
        · have hcov := hC hlt m o hw ho
          by_cases hou : o = u
          · subst hou
            exact le_rfl
          · rw [World.prio_raise_of_ne hou]
            simpa [World.raise, hlt] using hcov
        · simpa [World.raise, hlt] using h m o u ho hw
      · rw [World.prio_raise_of_ne huo]
        exact (World.prio_raise_le o).trans (h m o u ho hw)
    · -- the contender waits behind the owner that it has raised
      cases he
      obtain rfl : o' = o := Option.some.inj (ho'.symm.trans ho)
      rw [World.prio_raise_of_ne hne.symm]
      exact World.prio_raise_owner
  | drop k c =>
    have hmk : m ≠ k := by
      rintro rfl
      simp [Locks.apply] at ho
    exact h.release hfit.2.1 hC hmk (by simpa [Locks.apply, hmk] using ho) hu
  | hand k c t =>
    have hu' : w.lines.home u = some (L.line m) := hw.resolve_right (by simp)
    by_cases hmk : m = k
    · subst hmk
      have hto : t = o := by simpa [Locks.apply] using ho
      subst hto
      have ht := w.lines.home_of_head hfit.2.2
      have hne : ∀ v, w.lines.home v = some (L.line m) → v ≠ c := by
        rintro v hv rfl
        rw [hfit.2.1] at hv
        cases hv
      simpa [Locks.apply, hne t ht, hne u hu'] using hC.2 u hu'
    · exact h.release hfit.2.1 hC.1 hmk (by simpa [Locks.apply, hmk] using ho) hu'

/-! ## Justified boosts -/

/-- A waiter still waits after a move that does not take it off. -/
theorem waits_apply (mv : Move T M H P) (hfit : L.fits w mv) (h : w.lines.home u = some (L.line m))
    (hleave : mv ≠ .leave u) (hhand : ∀ c, mv ≠ .hand m c u) :
    (L.apply mv w).lines.home u = some (L.line m) := by
  cases mv with
  | leave t =>
    have hut : u ≠ t := by
      rintro rfl
      exact hleave rfl
    simpa [Locks.apply, hut] using h
  | arrive k t =>
    have hut : u ≠ t := by
      rintro rfl
      rw [hfit.1] at h
      cases h
    exact (w.lines.home_link_of_ne _ _ hut).trans h
  | spawn t p => exact h
  | take k c => exact h
  | contend k o c waits =>
    have huc : u ≠ c := by
      rintro rfl
      rw [hfit.2.2.1] at h
      cases h
    simpa [Locks.apply, home_contend hfit.2.2.1, huc] using h
  | drop k c => exact h
  | hand k c t =>
    have hut : u ≠ t := by
      rintro rfl
      have hk := (w.lines.home_of_head hfit.2.2).symm.trans h
      rw [L.line_inj (Option.some.inj hk)] at hhand
      exact hhand c rfl
    simpa [Locks.apply, hut] using h

omit [DecidableEq T] [DecidableEq M] [DecidableEq H] in
/-- A thread whose owned locks and priority stay is still justified when its waiters stay and none
of them falls back. -/
theorem Justified.keep {w' : World T M H P} (h : Justified L w) (hp : w'.prio t = w.prio t)
    (hb : w'.base t = w.base t)
    (hw : ∀ m u, w.owner m = some t → w.lines.home u = some (L.line m) →
      w'.owner m = some t ∧ w'.lines.home u = some (L.line m) ∧ w'.prio u ≤ w.prio u) :
    w'.prio t = w'.base t ∨
      ∃ m u, w'.owner m = some t ∧ w'.lines.home u = some (L.line m) ∧ w'.prio u ≤ w'.prio t := by
  rcases h t with he | ⟨m, u, ho, hu, hle⟩
  · exact .inl (by rw [hp, hb, he])
  · obtain ⟨ho', hu', hle'⟩ := hw m u ho hu
    exact .inr ⟨m, u, ho', hu', by rw [hp]; exact hle'.trans hle⟩

omit [DecidableEq T] [DecidableEq H] in
/-- An owner that has given up a lock is justified when what it keeps is. -/
theorem KeptJustified.release (h : KeptJustified L w m c) (hc : w.lines.home c = none) :
    w.restored m c = w.base c ∨ ∃ k u, w.owner k = some c ∧ k ≠ m ∧ u ≠ c ∧
      w.lines.home u = some (L.line k) ∧ w.prio u ≤ w.restored m c := by
  rcases h with hb | ⟨k, u, ho, hkm, hu, hle, hall⟩
  · refine .inl (le_antisymm ?_ ?_)
    · exact (World.restored_le_iff w m c _).mpr (.inl le_rfl)
    · exact (World.le_restored_iff w m c _).mpr ⟨le_rfl, hb⟩
  · have huc : u ≠ c := by
      rintro rfl
      rw [hc] at hu
      cases hu
    exact .inr ⟨k, u, ho, hkm, huc, hu, (World.le_restored_iff w m c _).mpr ⟨hle, hall⟩⟩

/-- A move that settles leaves every boost justified. -/
theorem Justified.step (h : Justified L w) (hfit : L.fits w mv) (hC : Settles L w mv) :
    Justified L (L.apply mv w) := by
  intro t
  cases mv with
  | leave x =>
    by_cases hx : ∃ m, w.lines.home x = some (L.line m) ∧ w.owner m = some t
    · obtain ⟨m, hxm, ho⟩ := hx
      rcases hC m t hxm ho with he | ⟨k, u, hk, hux, hu, hle⟩
      · exact .inl he
      · exact .inr ⟨k, u, hk, by simpa [Locks.apply, hux] using hu, hle⟩
    · refine h.keep rfl rfl fun m u ho hu => ⟨ho, waits_apply _ hfit hu ?_ (by simp), le_rfl⟩
      intro he
      cases he
      exact hx ⟨m, hu, ho⟩
  | arrive k x =>
    exact h.keep rfl rfl fun m u ho hu =>
      ⟨ho, waits_apply _ hfit hu (by simp) (by simp), le_rfl⟩
  | spawn x p =>
    by_cases htx : t = x
    · subst htx
      exact .inl (by simp [Locks.apply])
    · refine h.keep (by simp [Locks.apply, htx]) (by simp [Locks.apply, htx]) fun m u ho hu =>
        ⟨ho, hu, ?_⟩
      have hux : u ≠ x := by
        rintro rfl
        rw [hfit.1] at hu
        cases hu
      simp [Locks.apply, hux]
  | take k c =>
    refine h.keep rfl rfl fun m u ho hu => ⟨?_, hu, le_rfl⟩
    have hmk : m ≠ k := by
      rintro rfl
      rw [show w.owner m = none from hfit] at ho
      cases ho
    simpa [Locks.apply, hmk] using ho
  | contend k o c waits =>
    obtain ⟨ho, hne, hc, hidle⟩ := hfit
    have hstay : ∀ m u, w.lines.home u = some (L.line m) →
        (w.contend L k o c waits).lines.home u = some (L.line m) := fun m u hu =>
      waits_apply (.contend k o c waits) ⟨ho, hne, hc, hidle⟩ hu (by simp) (by simp)
    by_cases hto : t = o ∧ w.prio c < w.prio o
    · obtain ⟨rfl, hlt⟩ := hto
      have hp : (w.raise k t c).prio t = w.prio c := by simp [World.raise, hlt]
      cases waits with
      | true =>
        -- the contender itself is the cause
        refine .inr ⟨k, c, by simpa [Locks.apply] using ho, ?_, ?_⟩
        · simp [Locks.apply, home_contend hc]
        · simp only [Locks.apply, prio_contend, hp, World.prio_raise_of_ne hne.symm, le_refl]
      | false =>
        rcases hC rfl hlt with he | ⟨m, u, hm, hu, hle⟩
        · exact .inl (by simpa [Locks.apply, hp] using he)
        · refine .inr ⟨m, u, by simpa [Locks.apply] using hm, hstay m u hu, ?_⟩
          simp only [Locks.apply, prio_contend, hp]
          exact (World.prio_raise_le u).trans hle
    · have hp : (w.raise k o c).prio t = w.prio t := by
        by_cases hto' : t = o
        · subst hto'
          simp [World.raise, not_and.mp hto rfl]
        · exact World.prio_raise_of_ne hto'
      refine h.keep (by simpa [Locks.apply] using hp) (by simp [Locks.apply]) fun m u hm hu => ?_
      refine ⟨by simpa [Locks.apply] using hm, hstay m u hu, ?_⟩
      simp only [Locks.apply, prio_contend]
      exact World.prio_raise_le u
  | drop k c =>
    obtain ⟨ho, hc, hnil⟩ := hfit
    by_cases htc : t = c
    · subst htc
      rcases hC.release hc with he | ⟨m, u, hm, hmk, hut, hu, hle⟩
      · exact .inl (by simpa [Locks.apply] using he)
      · exact .inr ⟨m, u, by simpa [Locks.apply, hmk] using hm, hu,
          by simpa [Locks.apply, hut] using hle⟩
    · refine h.keep (by simp [Locks.apply, htc]) rfl fun m u hm hu => ?_
      have hmk : m ≠ k := by
        rintro rfl
        exact htc (Option.some.inj (hm.symm.trans ho))
      have huc : u ≠ c := by
        rintro rfl
        rw [hc] at hu
        cases hu
      exact ⟨by simpa [Locks.apply, hmk] using hm, hu, by simp [Locks.apply, huc]⟩
  | hand k c x =>
    obtain ⟨ho, hc, hx⟩ := hfit
    have hstay : ∀ m u, m ≠ k → w.lines.home u = some (L.line m) →
        (w.hand k c x).lines.home u = some (L.line m) := fun m u hmk hu =>
      waits_apply (.hand k c x) ⟨ho, hc, hx⟩ hu (by simp) (by simp [hmk.symm])
    by_cases htc : t = c
    · subst htc
      rcases hC.release hc with he | ⟨m, u, hm, hmk, hut, hu, hle⟩
      · exact .inl (by simpa [Locks.apply] using he)
      · exact .inr ⟨m, u, by simpa [Locks.apply, hmk] using hm, hstay m u hmk hu,
          by simpa [Locks.apply, hut] using hle⟩
    · refine h.keep (by simp [Locks.apply, htc]) rfl fun m u hm hu => ?_
      have hmk : m ≠ k := by
        rintro rfl
        exact htc (Option.some.inj (hm.symm.trans ho))
      have huc : u ≠ c := by
        rintro rfl
        rw [hc] at hu
        cases hu
      exact ⟨by simpa [Locks.apply, hmk] using hm, hstay m u hmk hu, by simp [Locks.apply, huc]⟩

/-! ## Lines in order -/

omit [DecidableEq M] [DecidableEq H] in
/-- Lines stay in order when they only lose threads, and no priority on them changes. -/
theorem Served.shrink {w' : World T M H P} (h : Served w) (ha : w'.arrivals = w.arrivals)
    (hl : ∀ k, (w'.lines.lists k).Sublist (w.lines.lists k))
    (hp : ∀ u, w.lines.home u ≠ none → w'.prio u = w.prio u) : Served w' := by
  intro k
  refine ((h k).sublist (hl k)).imp_of_mem fun {a b} ha' hb' hab => ?_
  have hmem : ∀ {x}, x ∈ w'.lines.lists k → w'.prio x = w.prio x := by
    intro x hx
    refine hp x ?_
    rw [(w.lines.mem_iff k x).mp ((hl k).subset hx)]
    simp
  unfold Precedes
  rw [hmem ha', hmem hb', ha]
  exact hab

omit [DecidableEq M] in
/-- An arrival takes its place. -/
theorem Served.arrive (h : Served w) (ht : w.lines.home t = none) (k : H) :
    Served (w.arrive k t) := by
  have hne : ∀ {l x}, x ∈ w.lines.lists l → x ≠ t := by
    rintro l x hx rfl
    exact w.lines.not_mem_of_free ht l hx
  have hold : ∀ {a b}, a ≠ t → b ≠ t → Precedes w a b → Precedes (w.arrive k t) a b := by
    intro a b ha hb hab
    unfold Precedes at hab ⊢
    simpa [List.idxOf_cons_ne, ha.symm, hb.symm] using hab
  have hlist : ∀ l, (w.lines.lists l).Pairwise (Precedes (w.arrive k t)) := fun l =>
    (h l).imp_of_mem fun ha hb => hold (hne ha) (hne hb)
  intro l
  rw [World.arrive_lines, w.lines.lists_link _ _ ht]
  split
  · refine Intrusive.pairwise_insertWhere _ _ t _ (hlist k) ?_ ?_ ?_
    · -- a thread that the arrival passes is not behind it, and came earlier
      intro x hx hpass
      have hle : w.prio x ≤ w.prio t := not_lt.mp (of_decide_eq_false hpass)
      rcases hle.lt_or_eq with hlt | heq
      · exact .inl hlt
      · refine .inr ⟨heq, ?_⟩
        simp [List.idxOf_cons_ne, (hne hx).symm]
    · intro x _ hstop
      exact .inl (of_decide_eq_true hstop)
    · intro x hx y hy htx hxy
      have hlt : w.prio t < w.prio x := by
        rcases htx with hlt | ⟨-, hlt⟩
        · exact hlt
        · simp [List.idxOf_cons_ne, (hne hx).symm] at hlt
      refine .inl (lt_of_lt_of_le hlt ?_)
      rcases hxy with hxy | ⟨hxy, -⟩
      · exact hxy.le
      · exact hxy.le
  · exact hlist l

omit [DecidableEq H] in
/-- Raising an owner that stays behind those in front of it. -/
theorem Served.raise (h : Served w) {o : T}
    (hC : w.prio c < w.prio o → ∀ l u, [u, o].Sublist (w.lines.lists l) → w.prio u < w.prio c ∨
      w.prio u = w.prio c ∧ w.arrivals.idxOf o < w.arrivals.idxOf u) :
    Served (w.raise m o c) := by
  by_cases hlt : w.prio c < w.prio o
  · intro l
    rw [World.lines_raise, List.pairwise_iff_forall_sublist]
    intro a b hab
    have hold := List.pairwise_iff_forall_sublist.mp (h l) hab
    have hne : a ≠ b := by
      rintro rfl
      have hd := (w.lines.nodup l).sublist hab
      simp at hd
    unfold Precedes at hold ⊢
    rw [World.arrivals_raise]
    by_cases hbo : b = o
    · subst hbo
      simpa [World.raise, hlt, hne] using hC hlt l a hab
    · by_cases hao : a = o
      · subst hao
        refine .inl ?_
        have hle : w.prio a ≤ w.prio b := by
          rcases hold with h | ⟨h, -⟩ <;> exact h.le
        simpa [World.raise, hlt, hbo] using hlt.trans_le hle
      · rw [World.prio_raise_of_ne hao, World.prio_raise_of_ne hbo]
        exact hold
  · simpa [World.raise, hlt] using h

/-- A move that keeps the places leaves every line in order. -/
theorem Served.step (h : Served w) (hfit : L.fits w mv) (hC : KeepsPlace w mv) :
    Served (L.apply mv w) := by
  cases mv with
  | leave t => exact h.shrink rfl (fun k => List.erase_sublist) fun u _ => rfl
  | arrive k t => exact h.arrive hfit.1 k
  | spawn t p =>
    refine h.shrink rfl (fun k => List.Sublist.refl _) fun u hu => ?_
    have hut : u ≠ t := by
      rintro rfl
      exact hu hfit.1
    simp [Locks.apply, hut]
  | take k c => exact h
  | contend k o c waits =>
    have hr : Served (w.raise k o c) := h.raise hC
    show Served (w.contend L k o c waits)
    unfold World.contend
    split
    · exact hr.arrive (by simpa using hfit.2.2.1) _
    · exact hr
  | drop k c =>
    refine h.shrink rfl (fun k => List.Sublist.refl _) fun u hu => ?_
    have huc : u ≠ c := by
      rintro rfl
      exact hu hfit.2.1
    simp [Locks.apply, huc]
  | hand k c t =>
    refine h.shrink rfl (fun k => List.erase_sublist) fun u hu => ?_
    have huc : u ≠ c := by
      rintro rfl
      exact hu hfit.2.1
    simp [Locks.apply, huc]

omit [DecidableEq M] [DecidableEq H] in
/-- The first thread of a line in order comes before the others. -/
theorem Served.head (h : Served w) {k : H} (ht : (w.lines.lists k).head? = some t)
    (hu : u ∈ w.lines.lists k) (hne : u ≠ t) : Precedes w t u := by
  have hk := h k
  cases hl : w.lines.lists k with
  | nil =>
    rw [hl] at hu
    cases hu
  | cons x xs =>
    rw [hl] at ht hu hk
    obtain rfl : x = t := Option.some.inj ht
    exact (List.pairwise_cons.mp hk).1 u ((List.mem_cons.mp hu).resolve_left hne)

/-! ## True caches -/

omit [DecidableEq T] [DecidableEq M] [DecidableEq H] in
/-- A cache stays true when the line keeps its threads and their priorities. -/
theorem CachedAt.keep {w' : World T M H P} (h : CachedAt L w m) (hc : w'.cache m = w.cache m)
    (hl : ∀ u, w'.lines.home u = some (L.line m) ↔ w.lines.home u = some (L.line m))
    (hp : ∀ u, w.lines.home u = some (L.line m) → w'.prio u = w.prio u) : CachedAt L w' m where
  idle hn := hc.trans (h.idle fun u hu => hn u ((hl u).mpr hu))
  le u hu := by
    rw [hc, hp u ((hl u).mp hu)]
    exact h.le u ((hl u).mp hu)
  attained u hu := by
    obtain ⟨v, hv, he⟩ := h.attained u ((hl u).mp hu)
    exact ⟨v, (hl v).mpr hv, by rw [hc, hp v hv, he]⟩

omit [DecidableEq T] [DecidableEq M] [DecidableEq H] in
/-- A cache stays true when a thread leaves the line and another one has the cached priority. -/
theorem CachedAt.without {w' : World T M H P} (h : CachedAt L w m) (hc : w'.cache m = w.cache m)
    (hl : ∀ u, w'.lines.home u = some (L.line m) ↔ u ≠ t ∧ w.lines.home u = some (L.line m))
    (hp : ∀ u, w.lines.home u = some (L.line m) → w'.prio u = w.prio u)
    (ht : ∃ u, u ≠ t ∧ w.lines.home u = some (L.line m) ∧ w.prio u = w.cache m) :
    CachedAt L w' m := by
  obtain ⟨v, hvt, hv, he⟩ := ht
  exact
    { idle := fun hn => absurd ((hl v).mpr ⟨hvt, hv⟩) (hn v)
      le := fun u hu => by
        rw [hc, hp u ((hl u).mp hu).2]
        exact h.le u ((hl u).mp hu).2
      attained := fun _ _ => ⟨v, (hl v).mpr ⟨hvt, hv⟩, by rw [hc, hp v hv, he]⟩ }

/-- The lock that is found taken. -/
theorem CachedAt.contend (h : CachedAt L w m) {o : T} {waits : Bool}
    (hfit : L.fits w (.contend m o c waits)) (hC : KeepsCache L w (.contend m o c waits)) :
    CachedAt L (w.contend L m o c waits) m := by
  obtain ⟨-, hne, hc, hidle⟩ := hfit
  have hhome := home_contend (L := L) (m := m) (o := o) hc waits
  have hbefore : ∀ {u}, (w.contend L m o c waits).lines.home u = some (L.line m) →
      u = c ∧ waits = true ∨ w.lines.home u = some (L.line m) := by
    intro u hu
    rw [hhome] at hu
    split at hu
    · rename_i hw
      exact .inl hw.symm
    · exact .inr hu
  by_cases hlt : w.prio c < w.prio o
  · have hcache : (w.contend L m o c waits).cache m = w.prio c := by simp [World.raise, hlt]
    have hpo : (w.contend L m o c waits).prio o = w.prio c := by simp [World.raise, hlt]
    have hpn : ∀ {u}, u ≠ o → (w.contend L m o c waits).prio u = w.prio u := fun hu => by
      rw [prio_contend]
      exact World.prio_raise_of_ne hu
    simp only [KeepsCache, if_pos hlt] at hC
    have hle : w.prio c ≤ w.cache m := by
      cases waits with
      | true => exact hC.1
      | false => exact le_of_eq hC.1
    refine ⟨fun hn => ?_, fun u hu => ?_, fun u hu => ?_⟩
    · cases waits with
      | true => exact absurd (by rw [hhome]; simp) (hn c)
      | false =>
        have hi := h.idle fun u hu => hn u (by rw [hhome]; simpa using hu)
        have he : w.prio c = w.cache m := hC.1
        rw [he, hi] at hidle
        exact absurd hidle (lt_irrefl _)
    · rw [hcache]
      by_cases huo : u = o
      · rw [huo, hpo]
      · rw [hpn huo]
        rcases hbefore hu with ⟨rfl, -⟩ | hu
        · exact le_rfl
        · exact hle.trans (h.le u hu)
    · cases waits with
      | true => exact ⟨c, by rw [hhome]; simp, by rw [hcache, hpn hne.symm]⟩
      | false =>
        obtain ⟨v, hv, he⟩ := h.attained u ((hbefore hu).resolve_left (by simp))
        have hvc : w.prio v = w.prio c := he.trans (Eq.symm hC.1)
        have hvo : v ≠ o := by
          rintro rfl
          exact absurd hvc hlt.ne'
        exact ⟨v, by rw [hhome]; simpa using hv, by rw [hcache, hpn hvo, hvc]⟩
  · have hraise : w.raise m o c = w := by simp [World.raise, hlt]
    have hcache : (w.contend L m o c waits).cache m = w.cache m := by simp [hraise]
    have hp : ∀ u, (w.contend L m o c waits).prio u = w.prio u := by simp [hraise]
    simp only [KeepsCache, if_neg hlt] at hC
    cases waits with
    | false => exact h.keep hcache (fun u => by rw [hhome]; simp) fun u _ => hp u
    | true =>
      have hle : w.cache m ≤ w.prio c := hC rfl
      -- a contender behind the cache is not alone
      obtain ⟨x, hx⟩ : ∃ x, w.lines.home x = some (L.line m) := by
        by_contra hn
        push Not at hn
        rw [h.idle hn] at hle
        exact absurd hidle (not_lt.mpr hle)
      obtain ⟨v, hv, he⟩ := h.attained x hx
      have hvc : v ≠ c := by
        rintro rfl
        rw [hc] at hv
        cases hv
      refine ⟨fun hn => absurd (by rw [hhome]; simp) (hn c), fun u hu => ?_, fun _ _ => ?_⟩
      · rw [hcache, hp]
        rcases hbefore hu with ⟨rfl, -⟩ | hu
        · exact hle
        · exact h.le u hu
      · exact ⟨v, by rw [hhome]; simpa [hvc] using hv, by rw [hcache, hp, he]⟩

/-- The lock that a raised owner waits for. -/
theorem CachedAt.raised (h : CachedAt L w m) {k : M} {o : T} {waits : Bool}
    (hfit : L.fits w (.contend k o c waits)) (hC : KeepsCache L w (.contend k o c waits))
    (hmk : m ≠ k) : CachedAt L (w.contend L k o c waits) m := by
  obtain ⟨-, -, hc, -⟩ := hfit
  have hhome : ∀ u, (w.contend L k o c waits).lines.home u = some (L.line m) ↔
      w.lines.home u = some (L.line m) := by
    intro u
    rw [home_contend hc]
    split
    · rename_i hu
      rw [hu.2, hc]
      simp [L.line_inj.eq_iff, hmk.symm]
    · rfl
  have hcache : (w.contend L k o c waits).cache m = w.cache m := by
    rw [cache_contend]
    unfold World.raise
    split
    · simp [hmk]
    · rfl
  by_cases ho : w.prio c < w.prio o ∧ w.lines.home o = some (L.line m)
  · obtain ⟨hlt, hom⟩ := ho
    have hpo : (w.contend L k o c waits).prio o = w.prio c := by simp [World.raise, hlt]
    have hpn : ∀ {u}, u ≠ o → (w.contend L k o c waits).prio u = w.prio u := fun hu => by
      rw [prio_contend]
      exact World.prio_raise_of_ne hu
    simp only [KeepsCache, if_pos hlt] at hC
    have hle : w.cache m ≤ w.prio c := hC.2 m hom
    refine ⟨fun hn => absurd ((hhome o).mpr hom) (hn o), fun u hu => ?_, fun _ _ => ?_⟩
    · rw [hcache]
      by_cases huo : u = o
      · rw [huo, hpo]
        exact hle
      · rw [hpn huo]
        exact h.le u ((hhome u).mp hu)
    · obtain ⟨v, hv, he⟩ := h.attained o hom
      have hvo : v ≠ o := by
        rintro rfl
        exact absurd (he.trans_le hle) (not_le.mpr hlt)
      exact ⟨v, (hhome v).mpr hv, by rw [hcache, hpn hvo, he]⟩
  · refine h.keep hcache hhome fun u hu => ?_
    rw [prio_contend]
    by_cases huo : u = o
    · subst huo
      have hlt : ¬ w.prio c < w.prio u := fun hlt => ho ⟨hlt, hu⟩
      simp [World.raise, hlt]
    · exact World.prio_raise_of_ne huo

/-- A move that keeps the caches leaves every cache true. -/
theorem CacheTrue.step (h : CacheTrue L w) (hfit : L.fits w mv) (hC : KeepsCache L w mv) :
    CacheTrue L (L.apply mv w) := by
  intro m
  cases mv with
  | leave t =>
    by_cases ht : w.lines.home t = some (L.line m)
    · exact (h m).without rfl (fun u => by simp [Locks.apply]) (fun u _ => rfl) (hC m ht)
    · refine (h m).keep rfl (fun u => ?_) fun u _ => rfl
      by_cases hut : u = t
      · subst hut
        simp [Locks.apply, ht]
      · simp [Locks.apply, hut]
  | arrive k t =>
    refine (h m).keep rfl (fun u => ⟨fun hu => ?_, fun hu => ?_⟩) fun u _ => rfl
    · exact (waits_of_apply hfit hu).resolve_right (by simp)
    · exact waits_apply _ hfit hu (by simp) (by simp)
  | spawn t p =>
    refine (h m).keep rfl (fun u => Iff.rfl) fun u hu => ?_
    have hut : u ≠ t := by
      rintro rfl
      rw [hfit.1] at hu
      cases hu
    simp [Locks.apply, hut]
  | take k c => exact (h m).keep rfl (fun u => Iff.rfl) fun u _ => rfl
  | contend k o c waits =>
    by_cases hmk : m = k
    · subst hmk
      exact (h m).contend hfit hC
    · exact (h m).raised hfit hC hmk
  | drop k c =>
    obtain ⟨-, hc, hnil⟩ := hfit
    by_cases hmk : m = k
    · subst hmk
      have hno : ∀ u, w.lines.home u ≠ some (L.line m) := by
        intro u hu
        have hmem := (w.lines.mem_iff _ _).mpr hu
        rw [hnil] at hmem
        cases hmem
      exact
        { idle := fun _ => by simp [Locks.apply, World.drop]
          le := fun u hu => absurd hu (hno u)
          attained := fun u hu => absurd hu (hno u) }
    · refine (h m).keep (by simp [Locks.apply, World.drop, hmk]) (fun u => Iff.rfl) fun u hu => ?_
      have huc : u ≠ c := by
        rintro rfl
        rw [hc] at hu
        cases hu
      simp [Locks.apply, huc]
  | hand k c t =>
    obtain ⟨-, hc, ht⟩ := hfit
    have hprio : ∀ u, w.lines.home u = some (L.line m) →
        (w.hand k c t).prio u = w.prio u := by
      intro u hu
      have huc : u ≠ c := by
        rintro rfl
        rw [hc] at hu
        cases hu
      simp [huc]
    by_cases hmk : m = k
    · subst hmk
      exact (h m).without rfl (fun u => by simp [Locks.apply]) hprio hC
    · refine (h m).keep rfl (fun u => ?_) hprio
      by_cases hut : u = t
      · subst hut
        have hk := w.lines.home_of_head ht
        simp [Locks.apply, hk, L.line_inj.eq_iff, Ne.symm hmk]
      · simp [Locks.apply, hut]

/-! ## Runs -/

/-- Nobody waits for a lock without an owner, on any run. -/
theorem guarded_of_reach {D : World T M H P → Move T M H P → Prop}
    (h : (L.machine T).Reach D w) : Guarded L w := by
  refine h.induction (fun w hi m _ u hu => ?_) fun w mv _ hG hfit _ => hG.step hfit
  rw [hi.lines] at hu
  cases hu

/-- A run of covering moves leaves no inversion. -/
theorem noInversion_of_reach (h : (L.machine T).Reach (Covers L) w) : NoInversion L w := by
  refine h.induction (fun w hi m o u ho _ => ?_) fun w mv hr hN hfit hC =>
    hN.step (guarded_of_reach hr) hfit hC
  rw [hi.owner m] at ho
  cases ho

/-- A run of settling moves leaves every boost justified. -/
theorem justified_of_reach (h : (L.machine T).Reach (Settles L) w) : Justified L w :=
  h.induction (fun _ hi _ => .inl (congrFun hi.prio _)) fun _ _ _ hJ hfit hC => hJ.step hfit hC

/-- A run of moves that keep the places leaves every line in order. -/
theorem served_of_reach (h : (L.machine T).Reach KeepsPlace w) : Served w := by
  refine h.induction (fun w hi k => ?_) fun _ _ _ hS hfit hC => hS.step hfit hC
  rw [hi.lines]
  exact List.Pairwise.nil

/-- A run of moves that keep the caches leaves every cache true. -/
theorem cacheTrue_of_reach (h : (L.machine T).Reach (KeepsCache L) w) : CacheTrue L w := by
  refine h.induction (fun w hi m => ?_) fun _ _ _ hT hfit hC => hT.step hfit hC
  have hno : ∀ u, w.lines.home u ≠ some (L.line m) := by
    intro u hu
    rw [hi.lines] at hu
    cases hu
  exact ⟨fun _ => hi.cache m, fun u hu => absurd hu (hno u), fun u hu => absurd hu (hno u)⟩

end Steps

end Inheritance
