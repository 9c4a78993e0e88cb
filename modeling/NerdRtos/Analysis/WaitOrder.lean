import NerdRtos.Analysis.InversionFree

/-!
# The order of the wait lists

`nd_thread_wait_insert` puts a thread behind those of its priority, and `nd_thread_wakeup` takes
the first one. That is the thread of the smallest priority, and of these the one that has waited
longest, along the runs whose steps are `PlaceStays`: priority inheritance changes the priority
of a blocked owner and leaves it where it is (`boost_breaks_order`).
-/

set_option autoImplicit false

namespace NerdRtos

open Inheritance

variable {cfg : Config} {s : State}

/-- Thread `t` has waited longer than thread `u`: its last execution of `nd_thread_pend` is further
back. -/
def WaitedLonger (s : State) (t u : Tid) : Prop := s.arrivals.idxOf u < s.arrivals.idxOf t

/-- The thread that `nd_thread_wakeup` takes off wait list `h` has the smallest priority of all
threads on it, and has waited longest of those that have it. -/
def ServesByPriority (s : State) (h : QHead) : Prop :=
  ∀ t, (ndThreadWakeup h s).2 = some t → ∀ u ∈ s.queues.lists h, u ≠ t →
    (s.threads t).priority < (s.threads u).priority ∨
      (s.threads t).priority = (s.threads u).priority ∧ WaitedLonger s t u

/-- An owner that a lock boosts while it is on a wait list stays behind those in front of it.
kernel/nd_mutex.c:19-30, 89-92 -/
def PlaceStays (s : State) : Action → Prop
  | .call (.wait (.mutexLock m _)) => ∀ c o, s.current = some c → (s.mutexes m).owner = some o →
      (s.threads c).priority < (s.threads o).priority →
      ∀ h : QHead, h.isWait = true → ∀ u, [u, o].Sublist (s.queues.lists h) →
        (s.threads u).priority < (s.threads c).priority ∨
          (s.threads u).priority = (s.threads c).priority ∧ WaitedLonger s u o
  | _ => True

/-- A step that leaves everyone in place makes moves that keep the places. -/
theorem PlaceStays.keepsPlace {a : Action} {mv : Move Tid Mid QHead ℕ} (h : PlaceStays s a)
    (hm : Makes s a mv) (hfit : kernelLocks.fits s.locks mv) : KeepsPlace s.locks mv := by
  cases mv with
  | contend m o c waits =>
    obtain ⟨hc, n, rfl, -⟩ := hm
    intro hlt k u hu
    rw [State.locks_lines, Intrusive.Queues.lists_restrict] at hu
    split at hu
    · exact h c o hc hfit.1 hlt k ‹_› u hu
    · cases hu
  | _ => trivial

/-- **Wait lists serve by priority**, in the runs in which every boost of a blocked owner leaves it
behind those in front of it.
kernel/nd_thread.c:81-124 -/
theorem wait_lists_serve_by_priority (h : (kernel cfg).Reach PlaceStays s) {k : QHead}
    (hk : k.isWait = true) : ServesByPriority s k := by
  have hO := served_of_reach (reach_locks (fun _ _ hq => hq.keepsPlace)
    (fun _ _ _ hC hm hfit => PlaceStays.keepsPlace hC hm hfit) h)
  have hlist : s.locks.lines.lists k = s.queues.lists k := if_pos hk
  intro t ht u hu hne
  have hhead : (s.queues.lists k).head? = some t := by
    unfold ndThreadWakeup at ht
    cases hh : (s.queues.lists k).head? with
    | none =>
      simp only [hh] at ht
      cases ht
    | some x =>
      simp only [hh] at ht
      exact ht
  exact hO.head (k := k) (by rw [hlist]; exact hhead) (by rw [hlist]; exact hu) hne

/-- Two threads of the same priority wait for a semaphore, in the order of their calls. -/
def orderedRun : List Action :=
  [spawn 1 20, .start, spawn 2 5, .call (.wait (.semTake 0 ndTimeoutForever)), spawn 3 5,
    .call (.wait (.semTake 0 ndTimeoutForever))]

/-- The first of them is woken first. -/
theorem wait_lists_serve_by_priority_run :
    ∃ s, (kernel syncPort).run orderedRun (boot syncPort {}) = some s ∧
      (ndThreadWakeup (.sem 0) s).2 = some 2 ∧ 3 ∈ s.queues.lists (.sem 0) ∧
      ServesByPriority s (.sem 0) := by
  obtain ⟨s, hs, hp⟩ := (kernel syncPort).exists_run (l := orderedRun) (s := boot syncPort {})
    (p := fun s => (ndThreadWakeup (.sem 0) s).2 = some 2 ∧ 3 ∈ s.queues.lists (.sem 0))
    (by decide +kernel)
  simp only [decide_eq_true_eq] at hp
  have hplace : ∀ a ∈ orderedRun, ∀ s, PlaceStays s a := by
    intro a ha s
    simp only [orderedRun, List.mem_cons, List.not_mem_nil, or_false] at ha
    rcases ha with rfl | rfl | rfl | rfl | rfl | rfl <;> trivial
  have hr := (kernel syncPort).reach_of_run hplace (.start ⟨{}, rfl⟩) hs
  exact ⟨s, hs, hp.1, hp.2, wait_lists_serve_by_priority hr rfl⟩

/-- Thread 1 owns a mutex and waits for a semaphore behind thread 2; then thread 3 boosts it. -/
def overtakenRun : List Action :=
  [spawn 1 20, .start, .call (.wait (.mutexLock 0 ndTimeoutForever)), spawn 2 10,
    .call (.wait (.semTake 0 ndTimeoutForever)), .call (.wait (.semTake 0 ndTimeoutForever)),
    .irqEnter, .irq (.threadCreate
      { thread := some 3, name := some 1, entry := some 1, priority := 5, stack := some 1
        stackSize := 512, options := 0, timeSlice := 0 }), .irqExit,
    .call (.wait (.mutexLock 0 ndTimeoutForever))]

/-- Thread 2 is woken although thread 1 has a smaller priority now. -/
theorem boost_breaks_order :
    ¬ ∀ s, (kernel syncPort).Reach Machine.Always s → ∀ h : QHead, h.isWait = true →
      ServesByPriority s h := by
  intro hrule
  obtain ⟨s, hs, hp⟩ := (kernel syncPort).exists_run (l := overtakenRun) (s := boot syncPort {})
    (p := fun s => (ndThreadWakeup (.sem 0) s).2 = some 2 ∧ 1 ∈ s.queues.lists (.sem 0) ∧
      (s.threads 1).priority < (s.threads 2).priority) (by decide +kernel)
  simp only [decide_eq_true_eq] at hp
  obtain ⟨hwoken, hmem, hlt⟩ := hp
  rcases hrule s (reach_run hs) (.sem 0) rfl 2 hwoken 1 hmem (by decide) with h | ⟨h, -⟩
  · exact absurd h (not_lt.mpr hlt.le)
  · exact absurd h hlt.ne'

end NerdRtos
