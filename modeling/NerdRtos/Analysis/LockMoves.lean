import NerdRtos.Analysis.StepEffects
import NerdRtos.Lib.InheritanceLaws

/-!
# The mutexes as locks with priority inheritance

`State.locks` reads a world of locks off the state: the priorities, the owners and caches of the
mutexes, and the wait lists. Every effect is a run of moves of that world (`Effect.moves`), and so
is every step of the kernel: at most one move of `Makes`, and moves that are `Quiet`. So what a
condition on the moves keeps in the world of locks, it keeps in the kernel.
-/

set_option autoImplicit false

namespace NerdRtos

open Inheritance

variable {cfg : Config} {s s' x y : State} {a : Action} {t : Tid} {k : QHead}

/-- The wait lists of the mutexes, and the priority that an unlock without waiters caches. -/
def kernelLocks : Locks Mid QHead ℕ where
  line := .mutex
  idle := ndThreadPriorityMax
  line_inj _ _ h := QHead.mutex.inj h

/-- The thread that an execution of `nd_thread_pend` puts on a wait list. -/
def Event.pender : Event → Option Tid
  | .pend t _ _ _ => some t
  | _ => none

/-- The threads in the order of their executions of `nd_thread_pend`, the last one first. -/
def State.arrivals (s : State) : List Tid := s.log.filterMap Event.pender

/-- The world of locks. -/
@[simps] def State.locks (s : State) : World Tid Mid QHead ℕ where
  prio t := (s.threads t).priority
  base t := (s.threads t).initPriority
  owner m := (s.mutexes m).owner
  cache m := (s.mutexes m).priority
  held := s.taken
  lines := s.queues.restrict QHead.isWait
  arrivals := s.arrivals

/-- The scheduler does not move the locks. -/
theorem locks_of_offCpu (h : y.offCpu = x.offCpu) : y.locks = x.locks :=
  congrArg (fun u : State =>
    ({ prio := fun t => (u.threads t).priority
       base := fun t => (u.threads t).initPriority
       owner := fun m => (u.mutexes m).owner
       cache := fun m => (u.mutexes m).priority
       held := u.taken
       lines := u.queues
       arrivals := u.arrivals } : World Tid Mid QHead ℕ)) h

/-- A thread on the wait list of a mutex waits for it. -/
theorem waits_locks (s : State) (m : Mid) (t : Tid) :
    s.locks.lines.home t = some (kernelLocks.line m) ↔ s.queues.home t = some (.mutex m) := by
  simp only [State.locks_lines, Intrusive.Queues.home_restrict, Option.filter_eq_some_iff,
    kernelLocks, QHead.isWait, and_true]

/-- An edit of a control block that keeps the priorities. -/
theorem locks_updThread {f : Thread → Thread}
    (hp : (f (s.threads t)).priority = (s.threads t).priority)
    (hb : (f (s.threads t)).initPriority = (s.threads t).initPriority) :
    (s.updThread t f).locks = s.locks := by
  have hprio : (fun u => ((s.updThread t f).threads u).priority) = fun u =>
      (s.threads u).priority := by
    funext u
    by_cases hu : u = t
    · subst hu; simpa using hp
    · simp [hu]
  have hbase : (fun u => ((s.updThread t f).threads u).initPriority) =
      fun u => (s.threads u).initPriority := by
    funext u
    by_cases hu : u = t
    · subst hu; simpa using hb
    · simp [hu]
  unfold State.locks
  rw [hprio, hbase]
  rfl

/-- A thread that leaves its list leaves its line. -/
theorem locks_left {f : Thread → Thread} (hp : (f (s.threads t)).priority = (s.threads t).priority)
    (hb : (f (s.threads t)).initPriority = (s.threads t).initPriority) :
    (s.left t f).locks = s.locks.leave t := by
  have hlines : (s.left t f).queues.restrict QHead.isWait =
      (s.queues.restrict QHead.isWait).unlink t := s.queues.restrict_unlink _ t
  calc (s.left t f).locks
      = { (s.updThread t f).locks with
          lines := (s.left t f).queues.restrict QHead.isWait } := rfl
    _ = s.locks.leave t := by rw [locks_updThread hp hb, hlines]; rfl

/-- A free thread that joins a wait list arrives on its line. -/
theorem locks_joined (hfree : s.queues.home t = none) {k : QHead} (hk : k.isWait = true) :
    (s.joined t k).locks = s.locks.arrive k t := by
  have hedit : (s.updThread t pendEdit).locks = s.locks := locks_updThread rfl rfl
  have hqueues : (s.joined t k).queues =
      s.queues.link (fun u => (s.threads t).priority < (s.threads u).priority) k t := by
    simp only [State.joined, State.waiting, State.listInsert_queues, State.emit_threads]
    rfl
  calc (s.joined t k).locks
      = { (s.updThread t pendEdit).locks with
          lines := (s.joined t k).queues.restrict QHead.isWait
          arrivals := t :: s.arrivals } := rfl
    _ = s.locks.arrive k t := by
      rw [hedit, hqueues, Intrusive.Queues.restrict_link _ hfree hk]
      rfl

/-! ## Runs of moves -/

/-- A run of moves from the locks of `s` to those of `s'`. -/
abbrev Moves (D : World Tid Mid QHead ℕ → Move Tid Mid QHead ℕ → Prop) (s s' : State) : Prop :=
  (kernelLocks.machine Tid).Path D s.locks s'.locks

section Moves

variable {D : World Tid Mid QHead ℕ → Move Tid Mid QHead ℕ → Prop}

/-- No move. -/
theorem Moves.of_eq (h : s'.locks = s.locks) : Moves D s s' := by
  unfold Moves
  rw [h]
  exact .refl

/-- One move. -/
theorem Moves.single (mv : Move Tid Mid QHead ℕ) (hfit : kernelLocks.fits s.locks mv)
    (hD : D s.locks mv) (he : s'.locks = kernelLocks.apply mv s.locks) : Moves D s s' := by
  unfold Moves
  rw [he]
  exact .single (M := kernelLocks.machine Tid) mv hfit hD

/-- A thread leaves its list. -/
theorem Moves.left {f : Thread → Thread} (hD : D s.locks (.leave t))
    (hp : (f (s.threads t)).priority = (s.threads t).priority)
    (hb : (f (s.threads t)).initPriority = (s.threads t).initPriority) : Moves D s (s.left t f) :=
  .single (.leave t) trivial hD (locks_left hp hb)

variable (hQ : ∀ w t, Quiet kernelLocks w (.leave t) → D w (.leave t))
include hQ

/-- A thread that waits for no mutex leaves its list. -/
theorem Moves.wake {f : Thread → Thread} (hq : s.queues.home t = some k)
    (hk : ∀ m, k ≠ .mutex m) (hp : (f (s.threads t)).priority = (s.threads t).priority)
    (hb : (f (s.threads t)).initPriority = (s.threads t).initPriority) :
      Moves D s (s.left t f) := by
  refine .left (hQ _ _ fun m hm => ?_) hp hb
  rw [waits_locks, hq] at hm
  exact hk m (Option.some.inj hm)

/-- The first thread of a list that is not a mutex's is woken. -/
theorem Moves.served (hk : ∀ m, k ≠ .mutex m) : Moves D s (s.served k) := by
  unfold State.served
  cases hh : (s.queues.lists k).head? with
  | none => exact .refl
  | some t => exact Moves.wake hQ (s.queues.home_of_head hh) hk rfl rfl

/-- One turn of the loop of `nd_event_send`. -/
theorem Moves.visited {e : ℕ} (hq : s.queues.home t = some (.event e)) :
    Moves D s (State.visited e s t) := by
  unfold State.visited
  split
  · set s₁ := s.granted e (s.threads t).eventSet (.eventHanded t e (s.threads t).eventSet)
    have hM : Moves D s₁ (s₁.left t readyEdit) := Moves.wake hQ hq (by simp) rfl rfl
    exact hM
  · exact .refl

end Moves

/-! ## The operations on threads -/

/-- The thread that an action takes off its wait list without waking it: the thread that it aborts
or suspends, or whose wait ends by timeout. -/
def removed (s : State) : Action → Option Tid
  | .call (.threadAbort (some t)) | .irq (.threadAbort (some t)) =>
    if ndIsThreadEssential (s.threads t) then none else some t
  | .call (.threadSuspend t) | .irq (.threadSuspend t) =>
    if (s.taken.lists t).isEmpty then some t else none
  | .timerFire =>
    match leftmostTimer s with
    | some (.wait t) => some t
    | _ => none
  | _ => none

/-- A thread that is set up is new.
kernel/nd_thread.c:222-315 -/
theorem locks_created {a : CreateArgs} (hfree : s.inUse t = false) :
    (s.created t a).locks = s.locks.spawn t a.priority := by
  have hprio : (fun u => ((Function.update s.threads t (createEdit a (s.threads t))) u).priority) =
      Function.update (fun u => (s.threads u).priority) t a.priority := by
    funext u
    by_cases hu : u = t
    · subst hu; simp [createEdit]
    · simp [hu]
  have hbase : (fun u =>
      ((Function.update s.threads t (createEdit a (s.threads t))) u).initPriority) =
      Function.update (fun u => (s.threads u).initPriority) t a.priority := by
    funext u
    by_cases hu : u = t
    · subst hu; simp [createEdit]
    · simp [hu]
  rw [created_eq hfree]
  simp only [World.spawn, State.locks, State.updTimer_threads, State.updThread_threads, hprio,
    hbase]
  rfl

/-! ## The operations on mutexes -/

/-- An edit of a mutex changes its owner and its cache. -/
theorem locks_updMutex (s : State) (m : Mid) (f : Mutex → Mutex) :
    (s.updMutex m f).locks =
      { s.locks with
        owner := Function.update s.locks.owner m (f (s.mutexes m)).owner
        cache := Function.update s.locks.cache m (f (s.mutexes m)).priority } := by
  have howner : (fun k => ((s.updMutex m f).mutexes k).owner) =
      Function.update (fun k => (s.mutexes k).owner) m (f (s.mutexes m)).owner := by
    funext k
    by_cases hk : k = m
    · subst hk; simp
    · simp [hk]
  have hcache : (fun k => ((s.updMutex m f).mutexes k).priority) =
      Function.update (fun k => (s.mutexes k).priority) m (f (s.mutexes m)).priority := by
    funext k
    by_cases hk : k = m
    · subst hk; simp
    · simp [hk]
  unfold State.locks
  rw [howner, hcache]
  rfl

/-- An edit of a control block that only changes the priority. -/
theorem locks_withPriority (s : State) (t : Tid) (p : ℕ) :
    (s.updThread t (Thread.withPriority p)).locks =
      { s.locks with prio := Function.update s.locks.prio t p } := by
  have hprio : (fun u => ((s.updThread t (Thread.withPriority p)).threads u).priority) =
      Function.update (fun u => (s.threads u).priority) t p := by
    funext u
    by_cases hu : u = t
    · subst hu; simp [Thread.withPriority]
    · simp [hu]
  have hbase : (fun u => ((s.updThread t (Thread.withPriority p)).threads u).initPriority) =
      fun u => (s.threads u).initPriority := by
    funext u
    by_cases hu : u = t
    · subst hu; simp [Thread.withPriority]
    · simp [hu]
  unfold State.locks
  rw [hprio, hbase]
  rfl

/-- `nd_mutex_restore_priority` restores the priority of the world of locks.
kernel/nd_mutex.c:32-43 -/
theorem restoredPriority_eq (s : State) (c : Tid) (m : Mid) :
    restoredPriority s c m = s.locks.restored m c := by
  have hmin : (fun (p : ℕ) (k : Mid) =>
      if (s.mutexes k).priority < p then (s.mutexes k).priority else p) =
      fun p k => min p (s.mutexes k).priority := by
    funext p k
    split <;> omega
  unfold restoredPriority lowestPriority World.restored
  rw [hmin]
  rfl

/-- The owner gives up the mutex.
kernel/nd_mutex.c:32-55 -/
theorem locks_released (s : State) (m : Mid) (c : Tid) :
    (s.released m c).locks = s.locks.release m c := by
  have h := locks_withPriority s c (restoredPriority s c m)
  rw [restoredPriority_eq] at h
  exact congrArg (fun w : World Tid Mid QHead ℕ => { w with held := s.taken.unlink m })
    (Eq.trans (congrArg (fun p => (s.updThread c (Thread.withPriority p)).locks)
      (restoredPriority_eq s c m)) h)

/-- A thread becomes the owner.
kernel/nd_mutex.c:60-66, 78-84 -/
theorem locks_handed (s : State) (m : Mid) (w : Tid) : (s.handed m w).locks = s.locks.take m w := by
  have h := locks_updMutex s m fun mx => { mx with owner := some w }
  have hcache : Function.update s.locks.cache m (s.mutexes m).priority = s.locks.cache :=
    Function.update_eq_self m s.locks.cache
  rw [hcache] at h
  exact congrArg (fun x : World Tid Mid QHead ℕ =>
    { x with held := s.taken.link (fun _ => true) w m }) h

/-- The owner is raised.
kernel/nd_mutex.c:89-92 -/
theorem locks_raised (s : State) (m : Mid) (o c : Tid) :
    (s.raised m o c).locks = s.locks.raise m o c := by
  unfold State.raised World.raise
  by_cases hlt : (s.threads c).priority < (s.threads o).priority
  · have hlt' : s.locks.prio c < s.locks.prio o := hlt
    have hcache := locks_updMutex s m fun mx => { mx with priority := (s.threads c).priority }
    have howner : Function.update s.locks.owner m (s.mutexes m).owner = s.locks.owner :=
      Function.update_eq_self m s.locks.owner
    rw [howner] at hcache
    rw [if_pos hlt, if_pos hlt', locks_withPriority, hcache]
    rfl
  · have hlt' : ¬ s.locks.prio c < s.locks.prio o := hlt
    rw [if_neg hlt, if_neg hlt']

/-! ## The steps -/

/-- The moves of an action that a condition can be about. -/
def Makes (s : State) (a : Action) : Move Tid Mid QHead ℕ → Prop
  | .leave t => removed s a = some t
  | .contend m _ c waits => s.current = some c ∧
      ∃ n, a = .call (.wait (.mutexLock m n)) ∧ waits = decide (n ≠ ndTimeoutNowait)
  | .drop m c | .hand m c _ => s.current = some c ∧ a = .call (.mutexUnlock m)
  | _ => False

/-- The record of the outcome of a call is no move. -/
theorem locks_finishCall (who : Option Tid) (c : Call) (x : State × Option Ret) :
    (finishCall who c x).locks = x.1.locks := by
  obtain ⟨s, r⟩ := x
  cases r <;> cases who <;> rfl

/-- A thread starts to wait on a list. -/
theorem locks_blocked {t : Tid} {k : QHead} {c : Call} (hfree : x.queues.home t = none)
    (hk : k.isWait = true) : (x.blocked t k c).locks = x.locks.arrive k t :=
  (locks_finishCall _ _ _).trans (locks_joined hfree hk)

/-- The only call that waits for a mutex is the one that raises its owner first. -/
theorem Call.line_ne_mutex {t : Tid} {k : QHead} {c : Call} (hm : c.mustWait x t)
    (hk : c.line = some k) (m : Mid) : k ≠ .mutex m := by
  rintro rfl
  cases c with
  | mutexLock => exact hm
  | threadJoin u n => cases u <;> cases hk
  | _ => cases hk

/-- A thread finds a mutex owned: the owner is raised, and the thread waits unless it asked not to.
kernel/nd_mutex.c:89-105 -/
theorem locks_contended (m : Mid) (o c : Tid) (n : ℕ) (hfree : x.queues.home c = none) :
    (if n = ndTimeoutNowait then (x.raised m o c).returned (some c) (.mutexLock m n) (.err .ebusy)
      else (x.raised m o c).blocked c (.mutex m) (.mutexLock m n)).locks =
      kernelLocks.apply (.contend m o c (decide (n ≠ ndTimeoutNowait))) x.locks := by
  have hraise := locks_raised x m o c
  by_cases hn : n = ndTimeoutNowait
  · subst hn
    rw [if_pos rfl]
    simp only [Locks.apply, World.contend, ne_eq, not_true_eq_false, decide_false,
      Bool.false_eq_true, if_false]
    exact (locks_finishCall _ _ _).trans hraise
  · have hhome : (x.raised m o c).queues.home c = none := by
      unfold State.raised
      split <;> exact hfree
    rw [if_neg hn]
    simp only [Locks.apply, World.contend, hn, ne_eq, not_false_eq_true, decide_true, if_true]
    refine (locks_blocked hhome rfl).trans ?_
    rw [hraise]
    rfl

/-- A thread that has locked nothing is the owner of nothing. -/
theorem Sound.owns_nothing {t : Tid} (hS : Sound cfg s) (htk : s.taken.lists t = []) (m : Mid) :
    (s.mutexes m).owner ≠ some t := by
  intro hm
  have hmem := (s.taken.mem_iff t m).mpr ((hS.owned m t).mpr hm)
  rw [htk] at hmem
  cases hmem

section Steps

variable {D : World Tid Mid QHead ℕ → Move Tid Mid QHead ℕ → Prop}

/-- Every effect is a run of moves. -/
theorem Effect.moves
    (hQ : ∀ w mv, Quiet kernelLocks w mv → (∀ t p, mv = .spawn t p → a.creates = some t) → D w mv)
      (hS : Sound cfg s)
    (hC : ∀ mv, Makes s a mv → kernelLocks.fits s.locks mv → D s.locks mv)
    (hJ : ConsistentBut Set.univ x) (h : Effect a s x y) : Moves D x y := by
  have hfree : ∀ {u : State} {t : Tid}, ConsistentBut Set.univ u → (u.threads t).stat = .running →
      u.queues.home t = none := fun hJ hr => hJ.home_none (by rw [hr]; decide) (by rw [hr]; decide)
  have hleave : ∀ w t, Quiet kernelLocks w (.leave t) → D w (.leave t) :=
    fun w t h => hQ w _ h (by simp)
  cases h with
  | nothing | environment | enter | write => exact .of_eq rfl
  | semRelease => exact .of_eq rfl
  | returns r hw hl hr hb => exact .of_eq (locks_finishCall _ _ _)
  | semTake hw hv => exact .of_eq (locks_finishCall _ _ _)
  | blocks hw hm hk hn =>
    have hfree' := hfree hJ (hw.runs _ rfl).2
    exact .single (.arrive _ _) ⟨by simp [hfree'], Call.line_ne_mutex hm hk⟩
      (hQ _ _ trivial (by simp)) (locks_blocked hfree' (Call.line_isWait hk))
  | semHand ha hl =>
    rename_i i t
    have hM : Moves D (s.emit (.semReleased i)) ((s.emit (.semReleased i)).left t wakeEdit) :=
      Moves.wake hleave (s.queues.home_of_head hl) (by simp) rfl rfl
    exact hM
  | lock hw ho =>
    exact .single (.take _ _) ho
      (hQ _ _ trivial (by simp)) ((locks_finishCall _ _ _).trans (locks_handed x _ _))
  | contend ha hw ho hoc hx =>
    rename_i m o c n
    obtain ⟨ht, hrun⟩ := hw.runs c rfl
    have hfree' := hfree (hS.consistent.mono (Set.subset_univ _)) hrun
    have hfit : kernelLocks.fits s.locks (.contend m o c (decide (n ≠ ndTimeoutNowait))) :=
      ⟨ho, hoc, by simp [hfree'], (hS.consistent.ok c).prio⟩
    subst hx
    exact .single _ hfit (hC _ ⟨(threadMode_eq ht).2.2.1, n, ha, rfl⟩ hfit)
      (locks_contended m o c n hfree')
  | drop ha ht hi ho hl =>
    rename_i m c
    have hfit : kernelLocks.fits s.locks (.drop m c) :=
      ⟨ho, by simp [hfree hJ (hS.runs ht)], by simpa [kernelLocks, QHead.isWait] using hl⟩
    refine .single _ hfit (hC _ ⟨(threadMode_eq ht).2.2.1, ha⟩ hfit) ?_
    rw [locks_updMutex, locks_released]
    rfl
  | hand ha ht hi ho hl =>
    rename_i m c t
    have hfit : kernelLocks.fits s.locks (.hand m c t) :=
      ⟨ho, by simp [hfree hJ (hS.runs ht)], by simp [kernelLocks, QHead.isWait, hl]⟩
    refine .single _ hfit (hC _ ⟨(threadMode_eq ht).2.2.1, ha⟩ hfit) ?_
    rw [locks_handed, locks_left rfl rfl, locks_released]
    rfl
  | send hw hq =>
    rename_i who q msg n
    have hM : Moves D (x.sent q msg) ((x.sent q msg).served (.queueRead q)) :=
      Moves.served hleave (by simp)
    exact hM.trans (Moves.of_eq (locks_finishCall _ _ _))
  | recv hw hq =>
    rename_i who q n
    have hM : Moves D (x.received q) ((x.received q).served (.queueSend q)) :=
      Moves.served hleave (by simp)
    exact hM.trans (Moves.of_eq (locks_finishCall _ _ _))
  | alloc hw hp => exact .of_eq (locks_finishCall _ _ _)
  | free ha =>
    rename_i p ptr
    have hM : Moves D (s.put p ptr) ((s.put p ptr).served (.pool p)) :=
      Moves.served hleave (by simp)
    exact hM
  | eventSend ha =>
    rename_i e set
    have hM : Moves D (s.posted e set)
        ((s.queues.lists (.event e)).foldl (State.visited e) (s.posted e set)) :=
      visited_induction (P := Moves D (s.posted e set))
        (fun y t hy hq => hy.trans (Moves.visited hleave hq)) s.queues .refl
    exact hM
  | eventScratch hw => exact .of_eq (locks_updThread rfl rfl)
  | eventTake hw hs => exact .of_eq (locks_finishCall _ _ _)
  | create ha hb ht hst htk hu =>
    rename_i t b
    have hfree' : s.queues.home t = none := hJ.home_none
      (fun h => hst (by rw [h]; exact ⟨by decide, by decide⟩))
      (fun h => hst (by rw [h]; exact ⟨by decide, by decide⟩))
    refine .single (.spawn t b.priority)
      ⟨by simp [hfree'], hS.owns_nothing htk⟩ (hQ _ _ trivial ?_) (locks_created hu)
    rintro u q hspawn
    cases hspawn
    exact Action.creates_eq_some ha hb ht
  | suspend ha htk hst =>
    refine .left (hC (.leave _) ?_ trivial) rfl rfl
    cases a <;> cases ha <;> simp [Makes, removed, htk]
  | resume ha hst => exact .of_eq (locks_updThread rfl rfl)
  | finish ha he hst =>
    rename_i t
    have hM : Moves D s (s.left t endEdit) := by
      refine .left (hC (.leave t) ?_ trivial) rfl rfl
      cases a <;> cases ha <;> simp [Makes, removed, he]
    exact hM
  | wakeJoiner ha ht hj => exact Moves.wake hleave hj (by simp) rfl rfl
  | timeout ha hl hk hw =>
    refine .left (hC (.leave _) ?_ trivial) rfl rfl
    subst ha
    simp [Makes, removed, hl]
  | delay => exact .of_eq (locks_updThread rfl rfl)
  | delayEnd => exact .of_eq (locks_updThread rfl rfl)

/-- **One step.** Every step of the kernel is a run of moves of the locks; the conditions that hold
of quiet moves need only be checked for those of `Makes`. -/
theorem exec_moves
    (hQ : ∀ w mv, Quiet kernelLocks w mv → (∀ t p, mv = .spawn t p → a.creates = some t) → D w mv)
      (hS : Sound cfg s)
    (ha : allowed cfg s a = true) (hf : (exec cfg a s).fault = false)
    (hC : ∀ mv, Makes s a mv → kernelLocks.fits s.locks mv → D s.locks mv) :
    Moves D s (exec cfg a s) := by
  refine (exec_effects hS ha hf).induction (I := Moves D s) (fun x y ho hx => ?_)
    (fun x y hJ hx he => hx.trans (he.moves hQ hS hC hJ)) .refl
  unfold Moves
  rw [locks_of_offCpu ho]
  exact hx

end Steps

/-- A step changes the priority of a thread by creating it, by its unlock of a mutex, or by a lock
of a mutex that it owns, from a higher priority. -/
theorem exec_priority (hS : Sound cfg s) (ha : allowed cfg s a = true)
    (hf : (exec cfg a s).fault = false) (hnew : a.creates ≠ some t)
    (hlock : ∀ m n c, a = .call (.wait (.mutexLock m n)) → s.current = some c →
      (s.mutexes m).owner = some t → (s.threads t).priority ≤ (s.threads c).priority)
    (hunlock : ∀ m, a = .call (.mutexUnlock m) → s.current ≠ some t) :
    ((exec cfg a s).threads t).priority = (s.threads t).priority := by
  have hpath := exec_moves (D := fun w mv => (kernelLocks.apply mv w).prio t = w.prio t)
    (fun w mv hQ hspawn => ?_) hS
    ha hf fun mv hm hfit => ?_
  · have hrun : ∀ {w w' : World Tid Mid QHead ℕ},
        (kernelLocks.machine Tid).Path (fun w mv => (kernelLocks.apply mv w).prio t = w.prio t) w
          w' →
          w'.prio t = w.prio t := by
      intro w w' hp
      induction hp with
      | refl => rfl
      | step mv hp he hD ih => exact hD.trans ih
    exact hrun hpath
  · cases mv with
    | leave u => rfl
    | arrive k u => rfl
    | spawn u q =>
      have htu : t ≠ u := by
        rintro rfl
        exact hnew (hspawn t q rfl)
      exact Function.update_of_ne htu _ _
    | take m c => rfl
    | contend m o c waits => exact hQ.elim
    | drop m c => exact hQ.elim
    | hand m c u => exact hQ.elim
  · cases mv with
    | leave u => rfl
    | arrive k u => exact hm.elim
    | spawn u q => exact hm.elim
    | take m c => exact hm.elim
    | contend m o c waits =>
      obtain ⟨hc, n, ha, -⟩ := hm
      show (World.contend s.locks kernelLocks m o c waits).prio t = s.locks.prio t
      rw [prio_contend]
      by_cases hto : t = o
      · subst hto
        have hle : s.locks.prio t ≤ s.locks.prio c := hlock m n c ha hc hfit.1
        unfold World.raise
        rw [if_neg (not_lt.mpr hle)]
      · exact World.prio_raise_of_ne hto
    | drop m c =>
      have htc : t ≠ c := by
        rintro rfl
        exact hunlock m hm.2 hm.1
      exact Function.update_of_ne htc _ _
    | hand m c u =>
      have htc : t ≠ c := by
        rintro rfl
        exact hunlock m hm.2 hm.1
      exact Function.update_of_ne htc _ _

/-! ## Runs -/

/-- When `main` starts, nothing is owned and nobody waits. -/
theorem idle_boot (cfg : Config) (u : Setup) : kernelLocks.Idle (boot cfg u).locks := by
  rw [locks_of_offCpu (offCpu_boot cfg u), locks_created rfl]
  exact
    { prio := rfl
      owner := fun _ => rfl
      cache := fun _ => rfl
      lines := Intrusive.Queues.ext (fun _ => ite_self _) fun _ => rfl }

/-- **The kernel runs the locks.** A run of the kernel whose steps meet `C` is a run of the locks
whose moves meet `D`, when the quiet moves do and the moves of a step that meets `C` do. -/
theorem reach_locks {C : State → Action → Prop}
    {D : World Tid Mid QHead ℕ → Move Tid Mid QHead ℕ → Prop}
    (hQ : ∀ w mv, Quiet kernelLocks w mv → D w mv)
    (hC : ∀ s a mv, C s a → Makes s a mv → kernelLocks.fits s.locks mv → D s.locks mv)
    (h : (kernel cfg).Reach C s) : (kernelLocks.machine Tid).Reach D s.locks := by
  refine h.simulate State.locks ?_ fun s a hr he hc =>
    exec_moves (fun w mv h _ => hQ w mv h) (reach_sound hr) he.1 he.2 fun mv => hC s a mv hc
  rintro s ⟨u, rfl⟩
  exact idle_boot cfg u

end NerdRtos
