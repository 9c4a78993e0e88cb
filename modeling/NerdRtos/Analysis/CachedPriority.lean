import NerdRtos.Analysis.InversionFree

/-!
# The cached priority of a mutex

`priority` of a mutex is the smallest priority on its wait list, and `ND_THREAD_PRIORITY_MAX` when
nobody waits, along the runs whose steps are `CacheFollows`. The field is written when a
lock boosts the owner and when an unlock finds nobody waiting, and at no other change of the
wait list (`wait_breaks_cache`).
-/

set_option autoImplicit false

namespace NerdRtos

open Inheritance

variable {cfg : Config} {s : State}

/-- The cached priority of mutex `m` is the highest waiting priority. -/
structure CacheAgrees (s : State) (m : Mid) : Prop where
  idle : s.queues.lists (.mutex m) = [] → (s.mutexes m).priority = ndThreadPriorityMax
  le : ∀ u ∈ s.queues.lists (.mutex m), (s.mutexes m).priority ≤ (s.threads u).priority
  attained : s.queues.lists (.mutex m) ≠ [] →
    ∃ u ∈ s.queues.lists (.mutex m), (s.threads u).priority = (s.mutexes m).priority

/-- Another waiter of mutex `m` than `t` has the cached priority. -/
def CacheShared (s : State) (m : Mid) (t : Tid) : Prop :=
  ∃ u ∈ s.queues.lists (.mutex m), u ≠ t ∧ (s.threads u).priority = (s.mutexes m).priority

/-- A waiter that an abort, a suspension, a timeout or a hand-over takes off the wait list of a
mutex shares the cached priority with another one; a lock that boosts the owner comes in front of
the cached priority, has just that priority if it gives up at once, and raises no waiter in front of
the cached priority of another mutex; and a lock that waits without a boost does not come in front
of the cached priority.
kernel/nd_mutex.c:45-106, kernel/nd_thread.c:55-66, 126-220 -/
def CacheFollows (s : State) (a : Action) : Prop :=
  (∀ t m, removed s a = some t → t ∈ s.queues.lists (.mutex m) → CacheShared s m t) ∧
  match a with
  | .call (.wait (.mutexLock m n)) => ∀ c o, s.current = some c → (s.mutexes m).owner = some o →
      o ≠ c →
      if (s.threads c).priority < (s.threads o).priority then
        (if n = ndTimeoutNowait then (s.threads c).priority = (s.mutexes m).priority
          else (s.threads c).priority ≤ (s.mutexes m).priority) ∧
        ∀ k, o ∈ s.queues.lists (.mutex k) → (s.mutexes k).priority ≤ (s.threads c).priority
      else n ≠ ndTimeoutNowait → (s.mutexes m).priority ≤ (s.threads c).priority
  | .call (.mutexUnlock m) => ∀ c, s.current = some c → (s.mutexes m).owner = some c →
      ∀ w, (s.queues.lists (.mutex m)).head? = some w → CacheShared s m w
  | _ => True

/-- A step that the caches follow makes moves that keep the caches. -/
theorem CacheFollows.keepsCache {a : Action} {mv : Move Tid Mid QHead ℕ} (h : CacheFollows s a)
    (hm : Makes s a mv) (hfit : kernelLocks.fits s.locks mv) :
      KeepsCache kernelLocks s.locks mv := by
  have hshared : ∀ {m t}, CacheShared s m t → ∃ u, u ≠ t ∧
      s.locks.lines.home u = some (kernelLocks.line m) ∧ s.locks.prio u = s.locks.cache m := by
    rintro m t ⟨u, hu, hut, he⟩
    exact ⟨u, hut, (waits_iff s m u).mpr hu, he⟩
  obtain ⟨hremoved, hact⟩ := h
  cases mv with
  | leave t => exact fun m ht => hshared (hremoved t m hm ((waits_iff s m t).mp ht))
  | contend m o c waits =>
    obtain ⟨hc, n, rfl, rfl⟩ := hm
    have hlock := hact c o hc hfit.1 hfit.2.1
    simp only [KeepsCache]
    by_cases hlt : (s.threads c).priority < (s.threads o).priority
    · have hlt' : s.locks.prio c < s.locks.prio o := hlt
      rw [if_pos hlt] at hlock
      rw [if_pos hlt']
      refine ⟨?_, fun k hk => hlock.2 k ((waits_iff s k o).mp hk)⟩
      by_cases hn : n = ndTimeoutNowait
      · simpa [hn] using hlock.1
      · simpa [hn] using hlock.1
    · have hlt' : ¬ s.locks.prio c < s.locks.prio o := hlt
      rw [if_neg hlt] at hlock
      rw [if_neg hlt']
      exact fun hw => hlock (by simpa using hw)
  | hand m c t =>
    obtain ⟨hc, rfl⟩ := hm
    exact hshared (hact c hc hfit.1 t hfit.2.2)
  | _ => trivial

/-- **The cached mutex priority is the highest waiting priority**, in the runs in which the cache
follows every change of the wait lists.
kernel/nd_mutex.c:32-106 -/
theorem cached_priority_is_highest_waiting (h : (kernel cfg).Reach CacheFollows s) (m : Mid) :
    CacheAgrees s m := by
  have hT := cacheTrue_of_reach (reach_locks (fun _ _ hq => hq.keepsCache)
    (fun _ _ _ hC hm hfit => CacheFollows.keepsCache hC hm hfit) h) m
  refine ⟨fun hnil => hT.idle fun u hu => ?_, fun u hu => hT.le u ((waits_iff s m u).mpr hu),
    fun hne => ?_⟩
  · have hmem := (waits_iff s m u).mp hu
    rw [hnil] at hmem
    cases hmem
  · obtain ⟨u, hu⟩ := List.exists_mem_of_ne_nil _ hne
    obtain ⟨v, hv, he⟩ := hT.attained u ((waits_iff s m u).mpr hu)
    exact ⟨v, (waits_iff s m v).mp hv, he⟩

/-- A check of the steps that take no thread off a wait list, unlock nothing, and lock a free mutex
or boost an owner that is not blocked. -/
def boostsInFront (s : State) (a : Action) : Bool :=
  (removed s a).isNone &&
  match a with
  | .call (.wait (.mutexLock m n)) =>
    n ≠ ndTimeoutNowait && (s.mutexes m).owner.all fun o => s.current.all fun c =>
      (s.threads c).priority < (s.threads o).priority &&
        (s.threads c).priority ≤ (s.mutexes m).priority &&
        (s.queues.home o).all fun k => !k.isWait
  | .call (.mutexUnlock _) => false
  | _ => true

/-- What the check accepts lets the caches follow. -/
theorem boostsInFront_cacheFollows (s : State) (a : Action) (h : boostsInFront s a = true) :
    CacheFollows s a := by
  unfold boostsInFront at h
  rw [Bool.and_eq_true, Option.isNone_iff_eq_none] at h
  refine ⟨fun t m ht => ?_, ?_⟩
  · rw [h.1] at ht
    cases ht
  · have hact := h.2
    split
    · intro c o hc ho _
      simp only [ho, hc, Option.all_some, Bool.and_eq_true, decide_eq_true_eq, ne_eq] at hact
      obtain ⟨hn, ⟨hlt, hle⟩, hall⟩ := hact
      rw [if_pos hlt, if_neg hn]
      refine ⟨hle, fun k hk => ?_⟩
      rw [(s.queues.mem_iff _ _).mp hk] at hall
      cases hall
    · cases hact
    · trivial

/-- The cached priority of a contended mutex is that of the thread that waits for it. -/
theorem cached_priority_is_highest_waiting_run :
    ∃ s, (kernel syncPort).run contendedRun (boot syncPort {}) = some s ∧
      s.queues.lists (.mutex 0) = [2] ∧ CacheAgrees s 0 := by
  obtain ⟨s, hs, hp⟩ := (kernel syncPort).exists_run (l := contendedRun) (s := boot syncPort {})
    (p := fun s => s.queues.lists (.mutex 0) = [2]) (by decide +kernel)
  simp only [decide_eq_true_eq] at hp
  have hr := (kernel syncPort).reach_of_checked boostsInFront_cacheFollows (.start ⟨{}, rfl⟩) hs
    (by decide +kernel)
  exact ⟨s, hs, hp, cached_priority_is_highest_waiting hr 0⟩

/-- Thread 2 owns the mutex and sleeps, and thread 1, of a larger priority, waits for it. -/
def lowWaiterRun : List Action :=
  [spawn 1 20, .start, spawn 2 5, .call (.wait (.mutexLock 0 ndTimeoutForever)),
    .call (.threadDelay 100), .call (.wait (.mutexLock 0 ndTimeoutForever))]

/-- The cached priority is still `ND_THREAD_PRIORITY_MAX`. -/
theorem wait_breaks_cache :
    ¬ ∀ s, (kernel syncPort).Reach Machine.Always s → ∀ m, CacheAgrees s m := by
  intro hrule
  obtain ⟨s, hs, hp⟩ := (kernel syncPort).exists_run (l := lowWaiterRun) (s := boot syncPort {})
    (p := fun s => 1 ∈ s.queues.lists (.mutex 0) ∧
      (s.threads 1).priority < (s.mutexes 0).priority) (by decide +kernel)
  simp only [decide_eq_true_eq] at hp
  exact absurd ((hrule s (reach_run hs) 0).le 1 hp.1) (not_le.mpr hp.2)

end NerdRtos
