import NerdRtos.Analysis.MutexOwnership
import Mathlib.Logic.Relation

/-!
# Priority inheritance and inversion

No owner of a mutex comes after a thread that waits for it, and so none comes after a thread that
it blocks through a chain of owners, along the runs whose steps are `InheritsAlong`. The boost of
`nd_mutex_lock` reaches the direct owner only (`chain_breaks_inheritance`), and an unlock goes
back to cached priorities.
-/

set_option autoImplicit false

namespace NerdRtos

open Inheritance

variable {cfg : Config} {s : State}

/-- Thread `o` owns a mutex that thread `u` waits for. -/
def Blocks (s : State) (o u : Tid) : Prop :=
  ∃ m, (s.mutexes m).owner = some o ∧ u ∈ s.queues.lists (.mutex m)

/-- No owner comes after a thread that waits for its mutex. -/
def NoPriorityInversion (s : State) : Prop :=
  ∀ m o u, (s.mutexes m).owner = some o → u ∈ s.queues.lists (.mutex m) →
    (s.threads o).priority ≤ (s.threads u).priority

/-- A thread that gives up mutex `m` is held in front of the waiters of the mutexes that it keeps,
by its initial priority or by the cached priority of a mutex that it keeps.
kernel/nd_mutex.c:32-43 -/
def KeptInFront (s : State) (m : Mid) (c : Tid) : Prop :=
  ∀ k u, (s.mutexes k).owner = some c → k ≠ m → u ∈ s.queues.lists (.mutex k) →
    (s.threads c).initPriority ≤ (s.threads u).priority ∨
      ∃ k' ∈ s.taken.lists c, k' ≠ m ∧ (s.mutexes k').priority ≤ (s.threads u).priority

/-- An owner that a lock boosts and that waits for another mutex finds the owner of that one at the
priority of the caller already, or in front of it; the caller of an unlock stays in front of the
waiters of the mutexes that it keeps, and the first waiter is in front of the others.
kernel/nd_mutex.c:45-106 -/
def InheritsAlong (s : State) : Action → Prop
  | .call (.wait (.mutexLock m _)) => ∀ c o, s.current = some c → (s.mutexes m).owner = some o →
      (s.threads c).priority < (s.threads o).priority →
      ∀ k o', o ∈ s.queues.lists (.mutex k) → (s.mutexes k).owner = some o' →
        (s.threads o').priority ≤ (s.threads c).priority
  | .call (.mutexUnlock m) => ∀ c, s.current = some c → (s.mutexes m).owner = some c →
      KeptInFront s m c ∧
        ∀ w, (s.queues.lists (.mutex m)).head? = some w →
          ∀ u ∈ s.queues.lists (.mutex m), (s.threads w).priority ≤ (s.threads u).priority
  | _ => True

/-- A thread waits for a mutex in the world of locks when it is on its wait list. -/
theorem waits_iff (s : State) (m : Mid) (u : Tid) :
    s.locks.lines.home u = some (kernelLocks.line m) ↔ u ∈ s.queues.lists (.mutex m) := by
  rw [waits_locks, s.queues.mem_iff]

/-- A step that inherits along makes covering moves. -/
theorem InheritsAlong.covers {a : Action} {mv : Move Tid Mid QHead ℕ} (h : InheritsAlong s a)
    (hm : Makes s a mv) (hfit : kernelLocks.fits s.locks mv) : Covers kernelLocks s.locks mv := by
  have hkept : ∀ {m c}, KeptInFront s m c → KeptCovered kernelLocks s.locks m c :=
    fun hk k u ho hkm hu => hk k u ho hkm ((waits_iff s k u).mp hu)
  cases mv with
  | contend m o c waits =>
    obtain ⟨hc, n, rfl, -⟩ := hm
    intro hlt k o' hk ho'
    exact h c o hc hfit.1 hlt k o' ((waits_iff s k o).mp hk) ho'
  | drop m c =>
    obtain ⟨hc, rfl⟩ := hm
    exact hkept (h c hc hfit.1).1
  | hand m c t =>
    obtain ⟨hc, rfl⟩ := hm
    obtain ⟨hk, hfront⟩ := h c hc hfit.1
    exact ⟨hkept hk, fun u hu => hfront t hfit.2.2 u ((waits_iff s m u).mp hu)⟩
  | _ => trivial

/-- **Priority inheritance leaves no inversion**, directly or along a chain of owners, in the runs
in which every boost of a blocked owner and every unlock inherits along.
kernel/nd_mutex.c:19-106 -/
theorem inheritance_leaves_no_inversion (h : (kernel cfg).Reach InheritsAlong s) :
    NoPriorityInversion s ∧
      ∀ o u, Relation.TransGen (Blocks s) o u →
        (s.threads o).priority ≤ (s.threads u).priority := by
  have hN := noInversion_of_reach (reach_locks (fun _ _ hq => hq.covers)
    (fun _ _ _ hC hm hfit => InheritsAlong.covers hC hm hfit) h)
  have hdirect : NoPriorityInversion s := fun m o u ho hu =>
    hN m o u ho ((waits_iff s m u).mpr hu)
  refine ⟨hdirect, fun o u hou => ?_⟩
  induction hou with
  | single hb =>
    obtain ⟨m, ho, hu⟩ := hb
    exact hdirect m _ _ ho hu
  | tail _ hb ih =>
    obtain ⟨m, ho, hu⟩ := hb
    exact ih.trans (hdirect m _ _ ho hu)

/-- A check of the steps that take no lock of a blocked owner, and unlock nothing. -/
def boostsUnblocked (s : State) : Action → Bool
  | .call (.wait (.mutexLock m _)) =>
    (s.mutexes m).owner.all fun o => (s.queues.home o).all fun k => !k.isWait
  | .call (.mutexUnlock _) => false
  | _ => true

/-- What the check accepts inherits along the chains. -/
theorem boostsUnblocked_inherits (s : State) (a : Action) (h : boostsUnblocked s a = true) :
    InheritsAlong s a := by
  unfold InheritsAlong
  split
  · rename_i m n
    intro c o _ ho _ k o' hk _
    have hall : (s.queues.home o).all (fun k => !k.isWait) = true := by
      simpa [boostsUnblocked, ho] using h
    rw [(s.queues.mem_iff _ _).mp hk] at hall
    cases hall
  · cases h
  · trivial

/-- The owner of a contended mutex runs at the priority of the thread that waits for it. -/
theorem inheritance_leaves_no_inversion_run :
    ∃ s, (kernel syncPort).run contendedRun (boot syncPort {}) = some s ∧
      Blocks s 1 2 ∧ (s.threads 1).initPriority = 20 ∧
      (s.threads 1).priority ≤ (s.threads 2).priority := by
  obtain ⟨s, hs, hp⟩ := (kernel syncPort).exists_run (l := contendedRun) (s := boot syncPort {})
    (p := fun s => ((s.mutexes 0).owner = some 1 ∧ 2 ∈ s.queues.lists (.mutex 0)) ∧
      (s.threads 1).initPriority = 20) (by decide +kernel)
  simp only [decide_eq_true_eq] at hp
  have hr := (kernel syncPort).reach_of_checked boostsUnblocked_inherits (.start ⟨{}, rfl⟩) hs
    (by decide +kernel)
  have hb : Blocks s 1 2 := ⟨0, hp.1⟩
  exact ⟨s, hs, hb, hp.2, (inheritance_leaves_no_inversion hr).2 1 2 (.single hb)⟩

/-- Thread 1 owns mutex 0, thread 2 owns mutex 1 and waits for mutex 0, and thread 3 waits for
mutex 1. -/
def chainRun : List Action :=
  [spawn 1 20, .start, .call (.wait (.mutexLock 0 ndTimeoutForever)), spawn 2 15,
    .call (.wait (.mutexLock 1 ndTimeoutForever)), .call (.wait (.mutexLock 0 ndTimeoutForever)),
    spawn 3 5, .call (.wait (.mutexLock 1 ndTimeoutForever))]

/-- The boost of thread 2 to the priority of thread 3 does not reach thread 1. -/
theorem chain_breaks_inheritance :
    ¬ ∀ s, (kernel syncPort).Reach Machine.Always s → NoPriorityInversion s := by
  intro hrule
  obtain ⟨s, hs, hp⟩ := (kernel syncPort).exists_run (l := chainRun) (s := boot syncPort {})
    (p := fun s => (s.mutexes 0).owner = some 1 ∧ 2 ∈ s.queues.lists (.mutex 0) ∧
      (s.threads 2).priority < (s.threads 1).priority) (by decide +kernel)
  simp only [decide_eq_true_eq] at hp
  exact absurd (hrule s (reach_run hs) 0 1 2 hp.1 hp.2.1) (not_le.mpr hp.2.2)

end NerdRtos
