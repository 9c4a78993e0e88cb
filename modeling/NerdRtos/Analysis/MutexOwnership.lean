import NerdRtos.Analysis.LockMoves

/-!
# Who owns which mutex

`owner` and `owner_list` say the same in every reachable state, nobody waits for a mutex without
an owner, and an unlock with waiters hands the mutex over in the same critical section.
-/

set_option autoImplicit false

namespace NerdRtos

variable {cfg : Config} {s : State}

/-- Ownership of the mutexes is exact. -/
structure OwnershipExact (cfg : Config) (s : State) : Prop where
  listed : ∀ m t, (s.mutexes m).owner = some t ↔
    (s.taken.lists t).count m = 1 ∧ ∀ u, u ≠ t → m ∉ s.taken.lists u
  free : ∀ m, (s.mutexes m).owner = none → s.queues.lists (.mutex m) = []
  handed : ∀ m c w, threadMode s = some c → (s.mutexes m).owner = some c →
    (s.queues.lists (.mutex m)).head? = some w →
    ((exec cfg (.call (.mutexUnlock m)) s).mutexes m).owner = some w

/-- A mutex is on the list of its owner once, and on no other list.
include/nd_list.h:13-51 -/
theorem Owned.listed_iff (h : Owned s) (m : Mid) (t : Tid) :
    (s.mutexes m).owner = some t ↔
      (s.taken.lists t).count m = 1 ∧ ∀ u, u ≠ t → m ∉ s.taken.lists u := by
  rw [← h m t]
  constructor
  · intro hm
    exact ⟨s.taken.count_eq_one hm, fun u hu => s.taken.not_mem_of_home hm hu⟩
  · rintro ⟨hcount, -⟩
    exact (s.taken.mem_iff t m).mp (List.count_pos_iff.mp (by omega))

/-- Nobody waits for a mutex without an owner. -/
theorem waits_owned {D : State → Action → Prop} (h : (kernel cfg).Reach D s) {m : Mid}
    (hm : (s.mutexes m).owner = none) : s.queues.lists (.mutex m) = [] := by
  have hG := Inheritance.guarded_of_reach (reach_locks (D := Machine.Always)
    (fun _ _ _ => trivial) (fun _ _ _ _ _ _ => trivial) h.always)
  rw [List.eq_nil_iff_forall_not_mem]
  intro u hu
  exact hG m hm u ((waits_locks s m u).mpr ((s.queues.mem_iff _ _).mp hu))

/-- An unlock hands the mutex to its first waiter.
kernel/nd_mutex.c:45-70 -/
theorem Sound.unlock_hands (hS : Sound cfg s) {m : Mid} {c w : Tid} (hc : threadMode s = some c)
    (ho : (s.mutexes m).owner = some c) (hw : (s.queues.lists (.mutex m)).head? = some w) :
    ((NerdRtos.exec cfg (.call (.mutexUnlock m)) s).mutexes m).owner = some w := by
  have hview := congrArg State.mutexes (hS.offCpu_handOver hc ho hw)
  refine Eq.trans (congrArg (fun f => (f m).owner) hview) ?_
  show ((((s.released m c).left w wakeEdit).handed m w).mutexes m).owner = some w
  simp [State.handed]

/-- **Mutex ownership bookkeeping is exact.**
kernel/nd_mutex.c:45-106, kernel/nd_thread.c:111-124 -/
theorem mutex_ownership_exact (h : (kernel cfg).Reach Machine.Always s) : OwnershipExact cfg s where
  listed := (reach_sound h).owned.listed_iff
  free _ hm := waits_owned h hm
  handed _ _ _ hc ho hw := (reach_sound h).unlock_hands hc ho hw

/-- The lowest of two threads takes a mutex, and the other one waits for it. -/
def contendedRun : List Action :=
  [spawn 1 20, .start, .call (.wait (.mutexLock 0 ndTimeoutForever)), spawn 2 5,
    .call (.wait (.mutexLock 0 ndTimeoutForever))]

/-- Ownership while the owner runs and the other thread waits. -/
theorem mutex_ownership_exact_run :
    ∃ s, (kernel syncPort).run contendedRun (boot syncPort {}) = some s ∧
      (s.mutexes 0).owner = some 1 ∧ s.queues.lists (.mutex 0) = [2] ∧
      OwnershipExact syncPort s := by
  obtain ⟨s, hs, hp⟩ := (kernel syncPort).exists_run (l := contendedRun) (s := boot syncPort {})
    (p := fun s => (s.mutexes 0).owner = some 1 ∧ s.queues.lists (.mutex 0) = [2])
    (by decide +kernel)
  simp only [decide_eq_true_eq] at hp
  exact ⟨s, hs, hp.1, hp.2, mutex_ownership_exact (reach_run hs)⟩

end NerdRtos
