import NerdRtos.Analysis.Reachable

/-!
# State, queues and timers agree

On a sync port, outside of interrupts, the state of every thread agrees with the ready lists, the
wait lists, the bitmap and the wait timers (`Agreement`), in every state that any run
reaches; and `nd_schedule_pick_next` has found a successor whenever it was called with
a current thread that was not running.
-/

set_option autoImplicit false

namespace NerdRtos

/-- The four structures that describe the threads say the same. -/
structure Agreement (s : State) : Prop where
  /-- A thread is ready iff it is on the ready list of its priority, once and nowhere else. -/
  ready : ∀ t, (s.threads t).stat = .ready ↔
    (s.queues.lists (.ready (s.threads t).priority)).count t = 1 ∧
      ∀ h, h ≠ .ready (s.threads t).priority → t ∉ s.queues.lists h
  /-- The bitmap agrees with the ready lists. -/
  bits : ∀ p < 32, s.readyBit.getLsbD p = true ↔ s.queues.lists (.ready p) ≠ []
  /-- Exactly the current thread is running, and it is on no list. -/
  running : ∀ t, (s.threads t).stat = .running ↔ s.current = some t
  free : ∀ t, s.current = some t → ∀ h, t ∉ s.queues.lists h
  /-- Only a blocked thread has its wait timer armed. -/
  armed : ∀ t, s.isArmed (.wait t) = true → (s.threads t).stat = .block
  /-- A blocked thread is on at most one list, a wait list, or on none with its timer armed. -/
  blocked : ∀ t, (s.threads t).stat = .block →
    (∃ h, h.isWait = true ∧ (s.queues.lists h).count t = 1 ∧ ∀ k, k ≠ h → t ∉ s.queues.lists k) ∨
      (∀ h, t ∉ s.queues.lists h) ∧ s.isArmed (.wait t) = true
  /-- A suspended or ended thread is on no list, and its wait timer is not armed. -/
  parked : ∀ t, (s.threads t).stat = .suspend ∨ (s.threads t).stat = .dead →
    (∀ h, t ∉ s.queues.lists h) ∧ s.isArmed (.wait t) = false

/-- Whenever `nd_schedule_pick_next` was called with a current thread that was not running, it found
a successor. -/
def PicksSucceed (s : State) : Prop := ∀ k ∈ s.picks, k.stat ≠ .running → k.next ≠ none

variable {cfg : Config} {s : State}

/-- The invariant, read off list by list. -/
theorem Sound.agreement (hS : Sound cfg s) (hport : cfg.port = .sync) (hn : s.nest = 0) :
    Agreement s := by
  have hJ := hS.consistent
  have hrun : ∀ t, (s.threads t).stat = .running ↔ s.current = some t :=
    fun t => ⟨fun h => ((hJ.ok t).running h).1,
      fun h => hS.settled.runs t h (hS.settled.sync hport) (hS.settled.flag hn)⟩
  have hparked : ∀ t, (s.threads t).stat ≠ .ready → (s.threads t).stat ≠ .block →
      ∀ h, t ∉ s.queues.lists h :=
    fun t hr hb h => s.queues.not_mem_of_free (hJ.home_none hr hb) h
  refine
    { ready := fun t => ⟨fun h => ?_, fun h => ?_⟩
      bits := hJ.books.bits
      running := hrun
      free := fun t ht => ?_
      armed := fun t => hJ.block_of_armed
      blocked := fun t h => ?_
      parked := fun t h => ?_ }
  · have hq := hJ.home_ready h
    exact ⟨s.queues.count_eq_one hq, fun k hk => s.queues.not_mem_of_home hq hk⟩
  · have hm : t ∈ s.queues.lists (.ready (s.threads t).priority) :=
      List.count_pos_iff.mp (by omega)
    exact (hJ.ready_of_home ((s.queues.mem_iff _ _).mp hm)).1
  · have hst := (hrun t).mpr ht
    exact hparked t (by rw [hst]; decide) (by rw [hst]; decide)
  · rcases hJ.blocked h with ⟨k, hk, hw, -⟩ | ⟨hq, ha, -⟩
    · exact .inl ⟨k, hw, s.queues.count_eq_one hk, fun l hl => s.queues.not_mem_of_home hk hl⟩
    · exact .inr ⟨s.queues.not_mem_of_free hq, ha⟩
  · have hst : (s.threads t).stat ≠ .ready ∧ (s.threads t).stat ≠ .block := by
      rcases h with h | h <;> rw [h] <;> exact ⟨by decide, by decide⟩
    exact ⟨hparked t hst.1 hst.2, by simp [State.isArmed, hJ.unarmed hst.2]⟩

/-- **State, queues and timers agree.** On a sync port, in every reachable state outside of
interrupts, before and after `nd_scheduler_start`; and `nd_schedule_pick_next` never failed.
kernel/nd_scheduler.c:43-225, kernel/nd_thread.c:34-220 -/
theorem state_queues_timers_agree (hport : cfg.port = .sync)
    (h : (kernel cfg).Reach Machine.Always s) (hn : s.nest = 0) :
    Agreement s ∧ PicksSucceed s :=
  ⟨(reach_sound h).agreement hport hn, (reach_sound h).consistent.books.picks⟩

/-- Two threads of one priority, of which the first takes a semaphore without tokens. -/
def agreementRun : List Action :=
  [spawn 1 5, spawn 2 5, .start, .call (.wait (.semTake 0 10))]

/-- The agreement once the first thread waits and the second runs. -/
theorem state_queues_timers_agree_run :
    ∃ s, (kernel syncPort).run agreementRun (boot syncPort {}) = some s ∧
      s.current = some 2 ∧ (s.threads 1).stat = .block ∧ Agreement s ∧ PicksSucceed s := by
  obtain ⟨s, hs, hp⟩ := (kernel syncPort).exists_run (l := agreementRun) (s := boot syncPort {})
    (p := fun s => s.current = some 2 ∧ (s.threads 1).stat = .block ∧ s.nest = 0)
      (by decide +kernel)
  simp only [decide_eq_true_eq] at hp
  exact ⟨s, hs, hp.1, hp.2.1,
    state_queues_timers_agree rfl (reach_run hs) hp.2.2⟩

end NerdRtos
