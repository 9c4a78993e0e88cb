import NerdRtos.Analysis.Operations

/-!
# One step of the kernel

`Sound` is the invariant of the reachable states: the kernel is consistent, the scheduling flags
are settled, and `owner` agrees with `taken_list`. Every kernel call keeps it.

`Ruled` says that no ready thread outranks the current thread, unless a switch is requested or
pending. A critical section that ends in `nd_scheduler` establishes it. The others keep it
when they make no thread ready that outranks the current thread and do not lower the priority
of the current thread below a ready one; `Kept` carries that condition along.
-/

set_option autoImplicit false

namespace NerdRtos

/-- `owner` and `taken_list` say the same. -/
def Owned (s : State) : Prop := ∀ m t, s.taken.home m = some t ↔ (s.mutexes m).owner = some t

/-- No ready thread outranks the current thread, unless a switch is requested or pending. -/
def Ruled (s : State) : Prop :=
  ∀ c, s.current = some c → s.pendsv = false → s.trySwitch = false → Leads s c

/-- The invariant of the reachable states. -/
structure Sound (cfg : Config) (s : State) : Prop where
  consistent : Consistent s
  settled : Settled cfg s
  owned : Owned s

/-- A critical section from `s` to `s'` keeps the invariant, and under the condition `C` no ready
thread outranks the current thread afterwards when none did before. -/
structure Kept (cfg : Config) (C : Prop) (s s' : State) : Prop where
  sound : Sound cfg s'
  ruled : C → Ruled s → Ruled s'

section Kept

variable {cfg : Config} {C : Prop} {s s₁ s' : State} {t : Tid}

/-- Ownership is about two fields only. -/
theorem Owned.congr (h : Owned s) (ht : s'.taken = s.taken) (hm : s'.mutexes = s.mutexes) :
    Owned s' := by
  unfold Owned
  rw [ht, hm]
  exact h

/-- The scheduler does not change who owns what. -/
theorem Owned.of_offCpu (h : Owned s) (he : s'.offCpu = s.offCpu) : Owned s' :=
  h.congr (congrArg State.taken he :) (congrArg State.mutexes he :)

/-- Nor does a move of a thread. -/
theorem Owned.of_flags (h : Owned s) (he : s'.flags = s.flags) : Owned s' :=
  h.congr (congrArg Flags.taken he) (congrArg Flags.mutexes he)

/-- Nothing happens. -/
theorem Kept.refl (hS : Sound cfg s) : Kept cfg C s s := ⟨hS, fun _ h => h⟩

/-- A critical section that ends in `nd_scheduler`.
kernel/nd_scheduler.c:227-235 -/
theorem Kept.schedule (hJ : Consistent s₁) (hA : Ambient cfg s₁) (hO : Owned s₁) :
    Kept cfg C s (ndScheduler cfg s₁) := by
  obtain ⟨hJ', hS', hoff⟩ := ndScheduler_spec hJ hA
  refine ⟨⟨hJ', hS', hO.of_offCpu hoff⟩, fun _ _ c hc hp ht => ?_⟩
  unfold ndScheduler at hc hp ht ⊢
  by_cases hn : 0 < s₁.nest
  · rw [if_pos hn] at ht
    cases ht
  · rw [if_neg hn] at hc hp ⊢
    exact ((ndScheduleCore_spec hJ hA.sync).runs c hc hp).2

/-- A critical section that does not reach `nd_scheduler`: the flags stay, the current thread runs
on, and it still leads under the condition. -/
theorem Kept.still (hS : Sound cfg s) (hJ : Consistent s') (hO : Owned s')
    (hsched : s'.sched = s.sched)
    (hrun : ∀ c, s.current = some c → (s.threads c).stat = .running →
      (s'.threads c).stat = .running)
    (hlead : C → ∀ c, s.current = some c → s.pendsv = false → s.trySwitch = false → Leads s c →
      Leads s' c) : Kept cfg C s s' := by
  refine ⟨⟨hJ, hS.settled.of_sched hsched hrun, hO⟩, fun hC hR c hc hp ht => ?_⟩
  have hc' : s.current = some c := (congrArg Prod.fst hsched).symm.trans hc
  have ht' : s.trySwitch = false := (congrArg (fun x => x.2.2.1) hsched).symm.trans ht
  have hp' : s.pendsv = false := (congrArg (fun x => x.2.2.2) hsched).symm.trans hp
  exact hlead hC c hc' hp' ht' (hR c hc' hp' ht')

/-- The same for a critical section that leaves the mutexes alone. -/
theorem Kept.quiet (hS : Sound cfg s) (hJ : Consistent s') (hflags : s'.flags = s.flags)
    (hrun : ∀ c, s.current = some c → (s.threads c).stat = .running →
      (s'.threads c).stat = .running)
    (hlead : C → ∀ c, s.current = some c → s.pendsv = false → s.trySwitch = false → Leads s c →
      Leads s' c) : Kept cfg C s s' :=
  .still hS hJ (hS.owned.of_flags hflags) (sched_of_flags hflags) hrun hlead

/-- The state without the history and the objects that the threads wait for. -/
def State.bare (s : State) : State :=
  { s with
    clock := 0
    sems := fun _ => {}
    msgQueues := fun _ => {}
    events := fun _ => {}
    pools := fun _ => {}
    calls := fun _ => none
    log := [] }

/-- What only changes the history and the objects keeps everything. -/
theorem Kept.of_bare {y : State} (hS : Sound cfg s) (he : y.bare = s.bare) : Kept cfg C s y := by
  have hth : y.threads = s.threads := (congrArg State.threads he :)
  refine .quiet hS (hS.consistent.of_core (congrArg State.core he :))
    (congrArg State.flags he :) (fun c _ => ?_) (fun _ c _ _ _ => ?_)
  · rw [hth]
    exact id
  · unfold Leads
    rw [hth]
    exact id

/-- A critical section that moves threads between lists and ends in `nd_scheduler`. -/
theorem Kept.reschedule (hS : Sound cfg s) (hJ : Consistent s₁) (hflags : s₁.flags = s.flags) :
    Kept cfg C s (ndScheduler cfg s₁) :=
  .schedule hJ (hS.settled.toAmbient.of_sched (sched_of_flags hflags)) (hS.owned.of_flags hflags)

/-- Two critical sections in a row. -/
theorem Kept.trans (h : Kept cfg C s s₁) (h' : Kept cfg C s₁ s') : Kept cfg C s s' :=
  ⟨h'.sound, fun hC hR => h'.ruled hC (h.ruled hC hR)⟩

/-- An inert edit of some thread. -/
theorem Kept.inert (hS : Sound cfg s) {f : Thread → Thread} (hf : Inert f (s.threads t)) :
    Kept cfg C s (s.updThread t f) := by
  have hprio : ∀ u, ((s.updThread t f).threads u).priority = (s.threads u).priority := by
    intro u
    by_cases hu : u = t
    · subst hu; simp [hf.priority]
    · simp [hu]
  refine .quiet hS (hS.consistent.inert hf) rfl (fun c _ h => ?_)
    (fun _ c _ _ _ h r hr => ?_)
  · rw [hf.stat_updThread]; exact h
  · rw [hprio, hprio]
    rw [hf.stat_updThread] at hr
    exact h r hr

/-- Timers of the application are nobody's business. -/
theorem Kept.userTimer (hS : Sound cfg s) (he : s'.untimed = s.untimed)
    (htree : ∀ v, (∀ u, v ≠ .user u) → s'.tree.home v = s.tree.home v)
    (htm : ∀ v, (∀ u, v ≠ .user u) → s'.timers v = s.timers v) : Kept cfg C s s' := by
  have hth : s'.threads = s.threads := (congrArg State.threads he :)
  have hc : s'.current = s.current := (congrArg State.current he :)
  refine .quiet hS (hS.consistent.of_timers he (fun t => htree _ (by simp))
    (fun t => htm _ (by simp)) (fun t ha => ?_) (fun t => ?_))
    (congrArg State.flags he :) (fun c _ => ?_) (fun _ c _ _ _ => ?_)
  · rw [hc, hth]
    refine hS.consistent.books.slices t ?_
    unfold State.isArmed at ha ⊢
    rwa [htree _ (by simp)] at ha
  · rw [htm _ (by simp)]
    exact hS.consistent.books.sliceOneShot t
  · rw [hth]; exact id
  · unfold Leads
    rw [hth]
    exact id

end Kept

/-! ## The operations on threads -/

section Threads

variable {cfg : Config} {C : Prop} {s : State} {t : Tid}

/-- Nothing is linked to the control block of a thread that was never created or has ended.
kernel/nd_thread.c:180-220 -/
theorem Sound.not_inUse (hS : Sound cfg s) (hst : ¬ (s.threads t).stat.live)
    (htk : (s.taken.lists t).isEmpty = true) (hc : s.current ≠ some t) : s.inUse t = false := by
  have hJ := hS.consistent
  have hr : (s.threads t).stat ≠ .ready := fun h => hst (by rw [h]; exact ⟨by decide, by decide⟩)
  have hb : (s.threads t).stat ≠ .block := fun h => hst (by rw [h]; exact ⟨by decide, by decide⟩)
  have hlist : s.threadList.home t = none := by
    have hl := (hJ.ok t).listed.not.mpr hst
    simpa using hl
  have hjoin : s.queues.lists (.join t) = [] := by
    rw [List.eq_nil_iff_forall_not_mem]
    intro j hj
    rcases (hJ.ok j).joining t ((s.queues.mem_iff _ _).mp hj) with hd | hl
    · cases hd
    · exact hst hl
  have hslice : s.isArmed (.slice t) = false := by
    by_contra ha
    exact hc (hJ.books.slices t (by simpa only [Bool.not_eq_false] using ha)).1
  have hwait : s.tree.home (.wait t) = none := hJ.unarmed hb
  have hfree := hJ.home_none hr hb
  simp only [State.inUse, State.isLinked, State.listIsEmpty, hfree, hlist, htk, hjoin, hslice]
  simp [State.isArmed, hwait]

/-- A control block in which a thread can be created. -/
structure Creation (s : State) (a : CreateArgs) (t : Tid) : Prop where
  thread : a.thread = some t
  accepted : a.accepted
  stat : (s.threads t).stat = .init ∨ (s.threads t).stat = .dead
  dead : ¬ (s.threads t).stat.live
  taken : s.taken.lists t = []
  offCpu : s.current ≠ some t
  unused : s.inUse t = false
  ne_idle : t ≠ idleTid
  loose : Loose ∅ t s

/-- `nd_thread_create` declines, or makes the new thread ready and calls the scheduler.
kernel/nd_thread.c:279-315 -/
theorem Sound.create_cases (hS : Sound cfg s) {a : CreateArgs}
    (hv : (Op.threadCreate a).valid s = true) :
    (a.accepted → a.thread = none) ∧ (ndThreadCreate cfg a s).1 = s ∨
      ∃ t, Creation s a t ∧ (ndThreadCreate cfg a s).1 = ndScheduler cfg
        (ndThreadReadyAddTail t (s.created t a)) := by
  by_cases ha : a.accepted
  · cases ht : a.thread with
    | none =>
      refine .inl ⟨fun _ => rfl, ?_⟩
      unfold ndThreadCreate
      simp only [ht]
    | some t =>
      simp only [Op.valid, ht, Bool.and_eq_true, Bool.or_eq_true, decide_eq_true_eq,
        List.isEmpty_iff, ne_eq] at hv
      obtain ⟨⟨hst, htk⟩, hc⟩ := hv
      have hdead : ¬ (s.threads t).stat.live := by
        rintro ⟨h₁, h₂⟩
        exact hst.elim h₁ h₂
      have hready : (s.threads t).stat ≠ .ready := fun h => hdead (live_of_ready h)
      have hrun : (s.threads t).stat ≠ .running := fun h => hdead (live_of_stops (.inl h))
      have hblock : (s.threads t).stat ≠ .block := fun h => hdead (live_of_stops (.inr h))
      exact .inr ⟨t, ⟨ht, ha, hst, hdead, htk, hc, hS.not_inUse hdead (by simp [htk]) hc,
        hS.consistent.ne_idle hready hrun, hS.consistent.loose hready hblock⟩,
          ndThreadCreate_eq ht ha⟩
  · exact .inl ⟨fun h => absurd h ha, ndThreadCreate_refused ha⟩

/-- `nd_thread_create`.
kernel/nd_thread.c:279-315 -/
theorem Sound.threadCreate (hS : Sound cfg s) {a : CreateArgs}
    (hv : (Op.threadCreate a).valid s = true) : Kept cfg C s (ndThreadCreate cfg a s).1 := by
  rcases hS.create_cases hv with ⟨-, he⟩ | ⟨t, hcr, he⟩
  · rw [he]
    exact .refl hS
  · rw [he]
    refine .reschedule hS (hcr.loose.create hcr.unused hcr.accepted fun h =>
      absurd h hcr.ne_idle) ?_
    rw [(flags_readyAdd t _).1, created_eq hcr.unused]
    rfl

/-- `nd_thread_suspend`.
kernel/nd_thread.c:126-161 -/
theorem Sound.threadSuspend (hS : Sound cfg s) (hv : (Op.threadSuspend t).valid s = true) :
    Kept cfg C s (ndThreadSuspend cfg t s).1 := by
  have hJ := hS.consistent
  have hne : t ≠ idleTid := by
    simp only [Op.valid, Bool.and_eq_true, decide_eq_true_eq] at hv
    exact hv.2
  rcases ndThreadSuspend_cases hJ cfg t with he | ⟨-, hr, he⟩ | ⟨-, hb, he⟩
  · rw [he]
    exact .refl hS
  · rw [he]
    have hstat : ∀ u, u ≠ t → ((s.parked t suspendEdit).threads u) = s.threads u := by
      intro u hu
      simp [hu]
    refine .quiet hS (hJ.suspended (live_of_ready hr) hne) rfl
      (fun c _ hc => ?_) (fun _ c _ _ _ hl r hrr => ?_)
    · have hct : c ≠ t := by
        rintro rfl
        rw [hr] at hc
        cases hc
      rwa [hstat c hct]
    · have hrt : r ≠ t := by
        rintro rfl
        simp [suspendEdit] at hrr
      rw [hstat r hrt] at hrr ⊢
      have hprio : ((s.parked t suspendEdit).threads c).priority = (s.threads c).priority := by
        by_cases hct : c = t
        · subst hct; simp [suspendEdit]
        · rw [hstat c hct]
      rw [hprio]
      exact hl r hrr
  · rw [he]
    exact .reschedule hS (hJ.suspended (live_of_stops hb) hne) rfl

/-- `nd_thread_resume`.
kernel/nd_thread.c:34-53 -/
theorem Sound.threadResume (hS : Sound cfg s) : Kept cfg C s (ndThreadResume cfg t s).1 := by
  by_cases hst : (s.threads t).stat = .suspend
  · rw [ndThreadResume_eq hS.consistent hst]
    exact .reschedule hS (hS.consistent.readied_of (.inr hst) rfl rfl rfl rfl rfl) rfl
  · rw [ndThreadResume_refused hst]
    exact .refl hS

/-- The joiners of a thread that another thread can abort, none of which may outrank the current
thread unless a switch is requested anyway. -/
def JoinersWait (s : State) (t : Tid) : Prop :=
  ndIsThreadEssential (s.threads t) = false →
    ∀ c, s.current = some c → s.pendsv = false → s.trySwitch = false → c ≠ t →
      ∀ j, s.queues.home j = some (.join t) → (s.threads c).priority ≤ (s.threads j).priority

/-- `nd_thread_abort` is refused, or ends a live thread.
kernel/nd_thread.c:317-342 -/
theorem Sound.abort_cases (hS : Sound cfg s) {v : Option Tid}
    (hv : (Op.threadAbort v).valid s = true) :
    (ndThreadAbort cfg v s).1 = s ∨
      ∃ t, v = some t ∧ (s.threads t).stat.live ∧ ndIsThreadEssential (s.threads t) = false ∧
        t ≠ idleTid ∧ (ndThreadAbort cfg v s).1 =
          if s.current = some t then ndScheduler cfg (wakeJoiners t (s.ended t)) else wakeJoiners t
            (s.ended t) := by
  unfold ndThreadAbort
  cases v with
  | none => exact .inl rfl
  | some t =>
    by_cases hd : (s.threads t).stat = .dead
    · left
      simp only [if_pos hd]
    by_cases he : ndIsThreadEssential (s.threads t) = true
    · left
      simp only [if_neg hd, if_pos he]
    have hlive : (s.threads t).stat.live := by
      simp only [Op.valid, decide_eq_true_eq] at hv
      exact ⟨hv, hd⟩
    simp only [if_neg hd, if_neg he]
    exact .inr ⟨t, rfl, hlive, Bool.eq_false_iff.mpr he, fun h =>
      he ((hS.consistent.ok t).idle h).2, ndThreadHalt_eq hS.consistent hlive⟩

/-- `nd_thread_abort`. Aborting another thread does not reach `nd_scheduler`, so its joiners must
not outrank the current thread.
kernel/nd_thread.c:180-220, 317-342 -/
theorem Sound.threadAbort (hS : Sound cfg s) {x : Option Tid}
    (hv : (Op.threadAbort x).valid s = true) (hC : C → ∀ t, x = some t → JoinersWait s t) :
    Kept cfg C s (ndThreadAbort cfg x s).1 := by
  have hJ := hS.consistent
  rcases hS.abort_cases hv with he | ⟨t, rfl, -, hess, hne, he⟩
  · rw [he]
    exact .refl hS
  rw [he]
  obtain ⟨hJ', hH⟩ := hJ.halted hne
  have hflags : (wakeJoiners t (s.ended t)).flags = s.flags := flags_wakeAll _ _ _
  by_cases hc : s.current = some t
  · rw [if_pos hc]
    exact .reschedule hS hJ' hflags
  · rw [if_neg hc]
    refine .quiet hS hJ' hflags (fun c hcc hrun => ?_) (fun hCC c hcc hp ht hl r hr => ?_)
    · have hct : c ≠ t := fun h => hc (h ▸ hcc)
      rcases hH.stat c hct with h | ⟨h, -⟩
      · rwa [h]
      · rw [hJ.home_none (by rw [hrun]; decide) (by rw [hrun]; decide)] at h
        cases h
    · have hct : c ≠ t := fun h => hc (h ▸ hcc)
      rw [hH.priority, hH.priority]
      have hrt : r ≠ t := by
        rintro rfl
        rw [hH.dead] at hr
        cases hr
      rcases hH.stat r hrt with h | ⟨h, -⟩
      · exact hl r (h ▸ hr)
      · exact hC hCC t rfl hess c hcc hp ht hct r h

end Threads

end NerdRtos
