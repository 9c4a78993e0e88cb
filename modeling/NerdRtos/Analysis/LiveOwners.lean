import NerdRtos.Analysis.MutexOwnership

/-!
# The owners of the mutexes are alive

`nd_thread_halt` does not look at the mutexes that the thread holds. As long as no thread that
holds one is ended, every owner is alive, and whoever waits for a mutex waits for a thread
that can still release it.
-/

set_option autoImplicit false

namespace NerdRtos

variable {cfg : Config} {s x y : State} {a : Action} {t : Tid}

/-- Every owner is alive, and every thread that waits for a mutex waits for a thread that is. -/
structure OwnersLive (s : State) : Prop where
  owner : ∀ m t, (s.mutexes m).owner = some t → (s.threads t).stat.live
  waits : ∀ m t, s.queues.home t = some (.mutex m) →
    ∃ o, (s.mutexes m).owner = some o ∧ (s.threads o).stat.live

/-- A thread that the step ends holds no mutex: it returns from its entry function, or it is
aborted.
kernel/nd_thread.c:163-220, 317-342 -/
def EndsNoOwner (s : State) : Action → Prop
  | .call (.threadAbort (some t)) | .irq (.threadAbort (some t)) =>
    (s.threads t).stat ≠ .dead → ndIsThreadEssential (s.threads t) = false → s.taken.lists t = []
  | _ => True

/-- The first half of `OwnersLive`, which the effects keep. -/
def HoldersLive (s : State) : Prop := ∀ m t, (s.mutexes m).owner = some t → (s.threads t).stat.live

/-- An edit that leaves a thread alive. -/
theorem HoldersLive.updThread (h : HoldersLive x) {f : Thread → Thread}
    (hf : (x.threads t).stat.live → (f (x.threads t)).stat.live) :
      HoldersLive (x.updThread t f) := by
  intro m u hm
  by_cases hu : u = t
  · subst hu
    simpa using hf (h m u hm)
  · simpa [hu] using h m u hm

/-- A thread that becomes ready is alive. -/
theorem HoldersLive.wake (h : HoldersLive x) {f : Thread → Thread}
    (hf : (f (x.threads t)).stat = .ready) : HoldersLive (x.left t f) :=
  h.updThread fun _ => by
    rw [hf]
    exact ⟨by decide, by decide⟩

/-- Waking a waiter ends no owner. -/
theorem HoldersLive.served (h : HoldersLive x) (k : QHead) : HoldersLive (x.served k) := by
  unfold State.served
  split
  · exact h
  · exact h.wake rfl

/-- A thread that starts to wait is not dead. -/
theorem HoldersLive.joined (h : HoldersLive x) (k : QHead) : HoldersLive (x.joined t k) :=
  h.updThread (f := pendEdit) fun _ => ⟨by simp [pendEdit], by simp [pendEdit]⟩

/-- A call that returns ends no owner. -/
theorem HoldersLive.returned (h : HoldersLive x) (who : Option Tid) (c : Call) (r : Ret) :
    HoldersLive (x.returned who c r) := by
  cases who <;> exact h

/-- A live thread that takes a mutex. -/
theorem HoldersLive.handed (h : HoldersLive x) (m : Mid) (ht : (x.threads t).stat.live) :
    HoldersLive (x.handed m t) := by
  intro k u hk
  by_cases hkm : k = m
  · subst hkm
    have htu : t = u := by simpa [State.handed] using hk
    exact htu ▸ ht
  · exact h k u (by simpa [State.handed, hkm] using hk)

/-- A boost changes no owner and no status. -/
theorem HoldersLive.raised (h : HoldersLive x) (m : Mid) (o c : Tid) :
    HoldersLive (x.raised m o c) := by
  have hcache : ∀ f : Mutex → Mutex, (f (x.mutexes m)).owner = (x.mutexes m).owner →
      HoldersLive (x.updMutex m f) := by
    intro f hf k u hk
    by_cases hkm : k = m
    · subst hkm
      exact h k u (by simpa [hf] using hk)
    · exact h k u (by simpa [hkm] using hk)
  unfold State.raised
  split
  · exact (hcache _ rfl).updThread fun hl => hl
  · exact h

/-- Every effect of a step that ends no owner keeps the owners alive. -/
theorem HoldersLive.step (hS : Sound cfg s) (hC : EndsNoOwner s a) (h : HoldersLive x)
    (he : Effect a s x y) : HoldersLive y := by
  cases he with
  | nothing | environment | enter | semRelease | write => exact h
  | returns r hw hl hr hb => exact h.returned _ _ _
  | blocks hw hm hk hn => exact h.joined _
  | semTake hw hv => exact HoldersLive.returned (x := (x.updSem _ _).emit _) h _ _ _
  | semHand ha hl => exact HoldersLive.wake (x := s.emit _) h rfl
  | lock hw ho =>
    rename_i m c n
    have hrun := (hw.runs c rfl).2
    exact (h.handed m (by rw [hrun]; exact ⟨by decide, by decide⟩)).returned _ _ _
  | contend ha hw ho hoc hx =>
    split
    · exact (h.raised _ _ _).returned _ _ _
    · exact (h.raised _ _ _).joined _
  | drop ha hc hi ho hl =>
    rename_i m c
    intro k u hk
    have hkm : k ≠ m := by
      rintro rfl
      simp at hk
    have hk' : (s.mutexes k).owner = some u := by simpa [hkm] using hk
    exact h.updThread (f := Thread.withPriority (restoredPriority s c m)) (fun hl => hl) k u hk'
  | hand ha hc hi ho hl =>
    rename_i m c t
    have hreleased : HoldersLive (s.released m c) :=
      h.updThread (f := Thread.withPriority (restoredPriority s c m)) fun hl => hl
    exact (hreleased.wake rfl).handed m (by simp [wakeEdit, Stat.live])
  | send hw hq => exact (HoldersLive.served (x := x.sent _ _) h _).returned _ _ _
  | recv hw hq => exact (HoldersLive.served (x := x.received _) h _).returned _ _ _
  | alloc hw hp => exact HoldersLive.returned (x := x.allocated _) h _ _ _
  | free ha => exact HoldersLive.served (x := s.put _ _) h _
  | eventSend ha =>
    refine visited_induction (P := HoldersLive) (fun z t hz _ => ?_) s.queues h
    unfold State.visited
    split
    · exact HoldersLive.wake (x := z.granted _ _ _) hz rfl
    · exact hz
  | eventScratch hw => exact h.updThread fun hl => hl
  | eventTake hw hs => exact HoldersLive.returned (x := x.granted _ _ _) h _ _ _
  | create ha hb ht hst htk hu =>
    rw [created_eq hu]
    exact h.updThread (f := createEdit _) fun hl => absurd hl hst
  | suspend ha htk hst =>
    exact h.updThread (f := suspendEdit) fun _ => ⟨by simp [suspendEdit], by simp [suspendEdit]⟩
  | resume ha hst =>
    exact h.updThread (f := readyEdit) fun _ => ⟨by simp [readyEdit], by simp [readyEdit]⟩
  | finish ha hess hst =>
    rename_i t
    -- the thread that ends owns nothing
    have htaken : s.taken.lists t = [] := by
      cases a with
      | call o =>
        cases ha
        exact hC hst.2 hess
      | irq o =>
        cases ha
        exact hC hst.2 hess
      | _ => cases ha
    intro m u hm
    have hmem := (s.taken.mem_iff u m).mpr ((hS.owned m u).mpr hm)
    have hut : u ≠ t := by
      rintro rfl
      rw [htaken] at hmem
      cases hmem
    simpa [State.finished, hut] using h m u hm
  | wakeJoiner ha ht hj => exact h.wake rfl
  | timeout ha hl hk hw => exact h.wake rfl
  | delay ha ht hi => exact h.updThread fun _ => ⟨by simp, by simp⟩
  | delayEnd ha hl hst hq =>
    exact h.updThread (f := readyEdit) fun _ => ⟨by simp [readyEdit], by simp [readyEdit]⟩

/-- Only the status matters, and the scheduler keeps it but for who runs. -/
theorem hidden_holdersLive : Hidden HoldersLive := by
  intro x y ho h m t hm
  have hlive := h m t (((congrArg (fun u : State => (u.mutexes m).owner) ho :)).symm.trans hm)
  have hst := stat_of_offCpu ho t
  revert hlive hst
  unfold Stat.live
  cases (x.threads t).stat <;> cases (y.threads t).stat <;> simp [Stat.offCpu]

/-- **No mutex is left owned by a dead thread**, in the runs that end no thread that holds one.
kernel/nd_thread.c:163-220, kernel/nd_mutex.c:72-106 -/
theorem owners_live (h : (kernel cfg).Reach EndsNoOwner s) : OwnersLive s := by
  have hlive : HoldersLive s := by
    refine reach_effects hidden_holdersLive (fun u m t hm => ?_)
      (fun s a hS _ hC x y _ hx he => hx.step hS hC he) h
    rw [created_eq rfl] at hm
    cases hm
  refine ⟨hlive, fun m t ht => ?_⟩
  cases ho : (s.mutexes m).owner with
  | none =>
    have hnil := waits_owned h ho
    have hmem := (s.queues.mem_iff _ _).mpr ht
    rw [hnil] at hmem
    cases hmem
  | some o => exact ⟨o, rfl, hlive m o ho⟩

/-- A check of the steps that end no owner. -/
def endsNoOwner (s : State) : Action → Bool
  | .call (.threadAbort (some t)) | .irq (.threadAbort (some t)) => (s.taken.lists t).isEmpty
  | _ => true

/-- What the check accepts ends no owner. -/
theorem endsNoOwner_ends (s : State) (a : Action) (h : endsNoOwner s a = true) :
    EndsNoOwner s a := by
  unfold endsNoOwner at h
  split at h
  · exact fun _ _ => List.isEmpty_iff.mp h
  · exact fun _ _ => List.isEmpty_iff.mp h
  · unfold EndsNoOwner
    split
    · simp_all
    · simp_all
    · trivial

/-- Thread 1 hands the mutex to thread 2, which ends thread 1. -/
def abortAfterUnlockRun : List Action :=
  [spawn 1 20, .start, .call (.wait (.mutexLock 0 ndTimeoutForever)), spawn 2 5,
    .call (.wait (.mutexLock 0 ndTimeoutForever)), .call (.mutexUnlock 0), .resume,
    .call (.threadAbort (some 1))]

/-- The owner lives although a former owner has ended. -/
theorem owners_live_run :
    ∃ s, (kernel syncPort).run abortAfterUnlockRun (boot syncPort {}) = some s ∧
      (s.mutexes 0).owner = some 2 ∧ (s.threads 1).stat = .dead ∧ OwnersLive s := by
  obtain ⟨s, hs, hp⟩ := (kernel syncPort).exists_run (l := abortAfterUnlockRun)
    (s := boot syncPort {})
    (p := fun s => (s.mutexes 0).owner = some 2 ∧ (s.threads 1).stat = .dead) (by decide +kernel)
  simp only [decide_eq_true_eq] at hp
  have hr := (kernel syncPort).reach_of_checked endsNoOwner_ends (.start ⟨{}, rfl⟩) hs
    (by decide +kernel)
  exact ⟨s, hs, hp.1, hp.2, owners_live hr⟩

/-- Thread 1 returns from its entry function with the mutex, and thread 2 then waits for it. -/
def returnWithMutexRun : List Action :=
  [spawn 1 10, spawn 2 20, .start, .call (.wait (.mutexLock 0 ndTimeoutForever)),
    .call (.threadAbort (some 1)), .call (.wait (.mutexLock 0 ndTimeoutForever))]

/-- Thread 2 waits for a mutex that nobody can release. -/
theorem return_leaves_dead_owner :
    ¬ ∀ s, (kernel syncPort).Reach Machine.Always s → OwnersLive s := by
  intro hrule
  obtain ⟨s, hs, hp⟩ := (kernel syncPort).exists_run (l := returnWithMutexRun)
    (s := boot syncPort {})
    (p := fun s => (s.mutexes 0).owner = some 1 ∧ (s.threads 1).stat = .dead) (by decide +kernel)
  simp only [decide_eq_true_eq] at hp
  exact ((hrule s (reach_run hs)).owner 0 1 hp.1).2 hp.2

end NerdRtos
