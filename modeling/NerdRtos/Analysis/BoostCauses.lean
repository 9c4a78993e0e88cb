import NerdRtos.Analysis.InversionFree

/-!
# Boosts and their causes

A thread runs at its initial priority or owns a mutex that a thread of its priority, or in front
of it, waits for, along the runs whose steps are `CauseStays`. A waiter that times out, or is
aborted or suspended, leaves the boost of the owner behind, and so does a lock with
`ND_TIMEOUT_NOWAIT` (`nowait_breaks_causes`).
-/

set_option autoImplicit false

namespace NerdRtos

open Inheritance

variable {cfg : Config} {s : State}

/-- The priority of thread `t` is its initial priority, or present waiters justify it. -/
def BoostCaused (s : State) (t : Tid) : Prop :=
  (s.threads t).priority = (s.threads t).initPriority ∨
    ∃ m, (s.mutexes m).owner = some t ∧ ∃ u ∈ s.queues.lists (.mutex m),
      (s.threads u).priority ≤ (s.threads t).priority

/-- A thread that gives up mutex `m` goes back to its initial priority, or to one that a waiter of a
mutex it keeps justifies: no cached priority that it keeps is below both.
kernel/nd_mutex.c:32-43 -/
def KeptCaused (s : State) (m : Mid) (c : Tid) : Prop :=
  (∀ k ∈ s.taken.lists c, k ≠ m → (s.threads c).initPriority ≤ (s.mutexes k).priority) ∨
    ∃ k, (s.mutexes k).owner = some c ∧ k ≠ m ∧ ∃ u ∈ s.queues.lists (.mutex k),
      (s.threads u).priority ≤ (s.threads c).initPriority ∧
        ∀ k' ∈ s.taken.lists c, k' ≠ m → (s.threads u).priority ≤ (s.mutexes k').priority

/-- A waiter that an abort, a suspension or a timeout takes off the wait list of a mutex is not what
the owner owes its priority to; a lock that gives up at once does not boost the owner, unless a
waiter justifies the boost anyway; and an unlock goes back to a justified priority.
kernel/nd_thread.c:55-66, 126-220, kernel/nd_mutex.c:32-106 -/
def CauseStays (s : State) (a : Action) : Prop :=
  (∀ t m o, removed s a = some t → t ∈ s.queues.lists (.mutex m) → (s.mutexes m).owner = some o →
    (s.threads o).priority = (s.threads o).initPriority ∨
      ∃ k, (s.mutexes k).owner = some o ∧ ∃ u ∈ s.queues.lists (.mutex k), u ≠ t ∧
        (s.threads u).priority ≤ (s.threads o).priority) ∧
  match a with
  | .call (.wait (.mutexLock m n)) => n = ndTimeoutNowait → ∀ c o, s.current = some c →
      (s.mutexes m).owner = some o → (s.threads c).priority < (s.threads o).priority →
      (s.threads c).priority = (s.threads o).initPriority ∨
        ∃ k, (s.mutexes k).owner = some o ∧ ∃ u ∈ s.queues.lists (.mutex k),
          (s.threads u).priority ≤ (s.threads c).priority
  | .call (.mutexUnlock m) => ∀ c, s.current = some c → (s.mutexes m).owner = some c →
      KeptCaused s m c
  | _ => True

/-- A step after which the causes stay makes settling moves. -/
theorem CauseStays.settles {a : Action} {mv : Move Tid Mid QHead ℕ} (h : CauseStays s a)
    (hm : Makes s a mv) (hfit : kernelLocks.fits s.locks mv) : Settles kernelLocks s.locks mv := by
  have hkept : ∀ {m c}, KeptCaused s m c → KeptJustified kernelLocks s.locks m c := by
    rintro m c (hb | ⟨k, ho, hkm, u, hu, hle⟩)
    · exact .inl hb
    · exact .inr ⟨k, u, ho, hkm, (waits_iff s k u).mpr hu, hle⟩
  obtain ⟨hremoved, hact⟩ := h
  cases mv with
  | leave t =>
    intro m o ht ho
    rcases hremoved t m o hm ((waits_iff s m t).mp ht) ho with he | ⟨k, hk, u, hu, hut, hle⟩
    · exact .inl he
    · exact .inr ⟨k, u, hk, hut, (waits_iff s k u).mpr hu, hle⟩
  | contend m o c waits =>
    obtain ⟨hc, n, rfl, rfl⟩ := hm
    intro hw hlt
    rcases hact (by simpa using hw) c o hc hfit.1 hlt with he | ⟨k, hk, u, hu, hle⟩
    · exact .inl he
    · exact .inr ⟨k, u, hk, (waits_iff s k u).mpr hu, hle⟩
  | drop m c =>
    obtain ⟨hc, rfl⟩ := hm
    exact hkept (hact c hc hfit.1)
  | hand m c t =>
    obtain ⟨hc, rfl⟩ := hm
    exact hkept (hact c hc hfit.1)
  | _ => trivial

/-- **A priority boost ends with its cause**, in the runs in which no step takes the cause away and
leaves the boost, or goes back to a boost without one.
kernel/nd_mutex.c:32-106, kernel/nd_thread.c:55-66, 126-220 -/
theorem boost_ends_with_cause (h : (kernel cfg).Reach CauseStays s) (t : Tid) :
    BoostCaused s t := by
  have hJ := justified_of_reach (reach_locks (fun _ _ hq => hq.settles)
    (fun _ _ _ hC hm hfit => CauseStays.settles hC hm hfit) h)
  rcases hJ t with he | ⟨m, u, ho, hu, hle⟩
  · exact .inl he
  · exact .inr ⟨m, ho, u, (waits_iff s m u).mp hu, hle⟩

/-- A check of the steps that take no thread off a wait list, give up no lock at once and unlock
nothing. -/
def leavesNobody (s : State) (a : Action) : Bool :=
  (removed s a).isNone &&
  match a with
  | .call (.wait (.mutexLock _ n)) => n ≠ ndTimeoutNowait
  | .call (.mutexUnlock _) => false
  | _ => true

/-- What the check accepts lets the causes stay. -/
theorem leavesNobody_causeStays (s : State) (a : Action) (h : leavesNobody s a = true) :
    CauseStays s a := by
  unfold leavesNobody at h
  rw [Bool.and_eq_true, Option.isNone_iff_eq_none] at h
  refine ⟨fun t m o ht => ?_, ?_⟩
  · rw [h.1] at ht
    cases ht
  · have hact := h.2
    split
    · intro hn
      simp [hn] at hact
    · cases hact
    · trivial

/-- The boost of the owner of a contended mutex is caused by the thread that waits for it. -/
theorem boost_ends_with_cause_run :
    ∃ s, (kernel syncPort).run contendedRun (boot syncPort {}) = some s ∧
      (s.threads 1).priority ≠ (s.threads 1).initPriority ∧ BoostCaused s 1 := by
  obtain ⟨s, hs, hp⟩ := (kernel syncPort).exists_run (l := contendedRun) (s := boot syncPort {})
    (p := fun s => (s.threads 1).priority ≠ (s.threads 1).initPriority) (by decide +kernel)
  simp only [decide_eq_true_eq] at hp
  have hr := (kernel syncPort).reach_of_checked leavesNobody_causeStays (.start ⟨{}, rfl⟩) hs
    (by decide +kernel)
  exact ⟨s, hs, hp, boost_ends_with_cause hr 1⟩

/-- A thread that does not wait for the mutex boosts its owner all the same. -/
def nowaitRun : List Action :=
  [spawn 1 20, .start, .call (.wait (.mutexLock 0 ndTimeoutForever)), spawn 2 5,
    .call (.wait (.mutexLock 0 ndTimeoutNowait))]

/-- The boost of thread 1 has no cause: nobody waits for its mutex. -/
theorem nowait_breaks_causes :
    ¬ ∀ s, (kernel syncPort).Reach Machine.Always s → ∀ t, BoostCaused s t := by
  intro hrule
  obtain ⟨s, hs, hp⟩ := (kernel syncPort).exists_run (l := nowaitRun) (s := boot syncPort {})
    (p := fun s => (s.threads 1).priority ≠ (s.threads 1).initPriority ∧
      s.taken.lists 1 = [0] ∧ s.queues.lists (.mutex 0) = []) (by decide +kernel)
  simp only [decide_eq_true_eq] at hp
  obtain ⟨hne, htaken, hnil⟩ := hp
  rcases hrule s (reach_run hs) 1 with he | ⟨m, ho, u, hu, -⟩
  · exact hne he
  · have hm := (s.taken.mem_iff 1 m).mpr (((reach_sound (reach_run hs)).owned m 1).mpr ho)
    rw [htaken, List.mem_singleton] at hm
    subst hm
    rw [hnil] at hu
    cases hu

end NerdRtos
