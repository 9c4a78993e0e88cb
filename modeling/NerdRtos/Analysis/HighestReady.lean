import NerdRtos.Analysis.Reachable

/-!
# The highest-priority ready thread runs

On a sync port no ready thread outranks the current thread outside of interrupts, along the
runs whose steps are `Prompt`. Two critical sections do not call `nd_scheduler` although they may
have to: `nd_thread_halt` after it has woken the joiners of another thread (`abort_breaks_rule`),
and `nd_mutex_unlock` after it has lowered the caller with nobody waiting.
-/

set_option autoImplicit false

namespace NerdRtos

/-- No ready thread has a numerically smaller priority than the current thread. -/
def HighestReadyRuns (s : State) : Prop :=
  ∀ c, s.current = some c → ∀ r, (s.threads r).stat = .ready →
    ¬ (s.threads r).priority < (s.threads c).priority

/-- The rule for a build: after every call that a thread makes, and after the end of every outermost
interrupt, no ready thread outranks the current thread. -/
def PriorityRule (cfg : Config) : Prop :=
  ∀ s a, (kernel cfg).Reach Machine.Always s → (kernel cfg).enabled s a →
    (∃ o, a = .call o ∧ threadMode s ≠ none) ∨ (a = .irqExit ∧ s.nest = 1) →
    HighestReadyRuns (exec cfg a s)

/-- **The highest-priority ready thread runs**, along the runs in which an abort of another thread
releases no joiner above the current thread, and an unlock without waiters does not lower the
current thread below a ready one.
kernel/nd_scheduler.c:93-177, kernel/nd_thread.c:180-220, kernel/nd_mutex.c:32-70 -/
theorem highest_ready_runs {cfg : Config} {s : State} (hport : cfg.port = .sync)
    (h : (kernel cfg).Reach Prompt s) (hn : s.nest = 0) : HighestReadyRuns s := by
  intro c hc r hr
  have hS := reach_sound h
  have hlead := reach_ruled hport h c hc (hS.settled.sync hport) (hS.settled.flag hn) r hr
  omega

/-- The highest of three threads waits for the lowest. -/
def promptRun : List Action :=
  [spawn 1 10, spawn 2 5, spawn 3 20, .start, .call (.wait (.threadJoin (some 3) 100))]

/-- The rule once the middle thread runs. -/
theorem highest_ready_runs_run :
    ∃ s, (kernel syncPort).run promptRun (boot syncPort {}) = some s ∧
      s.current = some 1 ∧ HighestReadyRuns s := by
  obtain ⟨s, hs, hp⟩ := (kernel syncPort).exists_run (l := promptRun) (s := boot syncPort {})
    (p := fun s => s.current = some 1 ∧ s.nest = 0) (by decide +kernel)
  simp only [decide_eq_true_eq] at hp
  have hprompt : ∀ a ∈ promptRun, ∀ s, Prompt s a := by
    intro a ha s
    simp only [promptRun, List.mem_cons, List.not_mem_nil, or_false] at ha
    rcases ha with rfl | rfl | rfl | rfl | rfl <;> trivial
  exact ⟨s, hs, hp.1, highest_ready_runs rfl
    ((kernel syncPort).reach_of_run hprompt (.start ⟨{}, rfl⟩) hs) hp.2⟩

/-- The middle thread aborts the lowest, for which the highest waits: the highest is ready, and the
middle thread runs on. -/
theorem abort_breaks_rule : ¬ PriorityRule syncPort := by
  intro hrule
  obtain ⟨s, hs, hp⟩ := (kernel syncPort).exists_run (l := promptRun) (s := boot syncPort {})
    (p := fun s => (kernel syncPort).enabled s (.call (.threadAbort (some 3))) ∧
      threadMode s = some 1 ∧
      (exec syncPort (.call (.threadAbort (some 3))) s).current = some 1 ∧
      ((exec syncPort (.call (.threadAbort (some 3))) s).threads 2).stat = .ready ∧
      ((exec syncPort (.call (.threadAbort (some 3))) s).threads 2).priority <
        ((exec syncPort (.call (.threadAbort (some 3))) s).threads 1).priority)
    (by decide +kernel)
  simp only [decide_eq_true_eq] at hp
  obtain ⟨hen, hmode, hc, hr, hlt⟩ := hp
  refine hrule s _ (reach_run hs) hen (.inl ⟨_, rfl, by rw [hmode]; simp⟩) 1 hc 2 hr hlt

end NerdRtos
