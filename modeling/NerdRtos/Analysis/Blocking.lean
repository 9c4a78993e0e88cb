import NerdRtos.Analysis.Calls

/-!
# The blocking calls

A blocking call either returns in the critical section that it starts in, or leaves its thread on
a wait list (`Returned`). The three calls that wait in a loop are different on a deferred
port: there `nd_scheduler` comes back to the loop, and the call pends a thread that is on the list
already (`queueSend_stuck` and its siblings).
-/

set_option autoImplicit false

namespace NerdRtos

variable {cfg : Config} {C : Prop} {s s' : State} {t : Tid}

/-- The outcome of a critical section of a blocking call: the invariant is kept, and only a thread
can be left waiting. -/
structure Returned (cfg : Config) (C : Prop) (s : State) (x : State × Option Ret) : Prop where
  kept : Kept cfg C s x.1
  waits : x.2 = none → ∃ t, threadMode s = some t

/-- A call that returns at once, with a note in the history or not. -/
theorem Returned.now (hS : Sound cfg s) (he : s'.bare = s.bare) (r : Ret) :
    Returned cfg C s (s', some r) :=
  ⟨.of_bare hS he, fun h => by cases h⟩

/-- `nd_thread_pend` does not touch the scheduling flags.
kernel/nd_thread.c:95-109 -/
theorem flags_ndThreadPend (cfg : Config) (hc : s.current = some t) (k : QHead) (n : ℕ) :
    (ndThreadPend cfg k n s).flags = s.flags := by
  rw [ndThreadPend_eq hc]
  unfold startWaitTimer
  split
  · rw [timerStart_eq cfg (by simp)]
    rfl
  · rfl

/-- A running thread waits: `nd_thread_pend` and `nd_scheduler`.
kernel/nd_thread.c:95-109 -/
theorem Sound.block (hS : Sound cfg s) (h : threadMode s = some t) {k : QHead}
    (hk : k.isWait = true) (hjoin : ∀ u, k = .join u → (s.threads u).stat.live) (n : ℕ) :
    Kept cfg C s (ndScheduler cfg (ndThreadPend cfg k n s)) := by
  obtain ⟨-, -, hc, hne⟩ := threadMode_eq h
  exact .reschedule hS (hS.consistent.pend hc (hS.runs h) hne hk hjoin cfg n)
    (flags_ndThreadPend cfg hc k n)

/-- The control block of a thread that has been pended says so, before and after the scheduler.
kernel/nd_thread.c:95-109 -/
theorem pended_block (hc : s.current = some t) (k : QHead) (n : ℕ) :
    ((ndThreadPend cfg k n s).threads t).stat = .block ∧
      ((ndThreadPend cfg k n s).threads t).error = .eok := by
  rw [ndThreadPend_eq hc]
  unfold startWaitTimer
  split
  · rw [timerStart_eq cfg (by simp)]
    simp [pendEdit]
  · simp [pendEdit]

/-- On a sync port a thread that waits is switched out.
kernel/nd_scheduler.c:118-162 -/
theorem Sound.switchedOut (hS : Sound cfg s) (hport : cfg.port = .sync)
    (h : threadMode s = some t) {k : QHead} (hk : k.isWait = true)
    (hjoin : ∀ u, k = .join u → (s.threads u).stat.live) (n : ℕ) :
    (ndScheduler cfg (ndThreadPend cfg k n s)).current ≠ s.current := by
  obtain ⟨hn, hp, hc, hne⟩ := threadMode_eq h
  have hflags := flags_ndThreadPend cfg hc k n
  have hJ := hS.consistent.pend hc (hS.runs h) hne hk hjoin cfg n
  have hA := hS.settled.toAmbient.of_sched (sched_of_flags hflags)
  obtain ⟨-, hS', hoff⟩ := ndScheduler_spec hJ hA
  intro he
  rw [hc] at he
  have hnest : (ndScheduler cfg (ndThreadPend cfg k n s)).nest = 0 := by
    exact (nest_of_offCpu hoff).trans ((congrArg Flags.nest hflags).trans hn)
  have hrun := hS'.runs t he (hS'.sync hport) (hS'.flag hnest)
  have hst := stat_of_offCpu hoff t
  rw [hrun, (pended_block hc k n).1] at hst
  cases hst

/-! ## Semaphores, events and joining -/

/-- `nd_sem_take`.
kernel/nd_sem.c:35-58 -/
theorem Sound.semTake (hS : Sound cfg s) {n : ℕ}
    (hctx : n = ndTimeoutNowait ∨ ∃ t, threadMode s = some t) (i : ℕ) :
    Returned cfg C s (ndSemTake cfg i n s) := by
  unfold ndSemTake
  split
  · exact ⟨.of_bare hS rfl, fun h => by cases h⟩
  split
  · exact .now hS rfl _
  · rename_i hn
    obtain ⟨t, ht⟩ := hctx.resolve_left hn
    exact ⟨hS.block ht rfl (fun _ h => by cases h) n, fun _ => ⟨t, ht⟩⟩

/-- `nd_event_recv`.
kernel/nd_event.c:61-87 -/
theorem Sound.eventRecv (hS : Sound cfg s) (h : threadMode s = some t) (e : ℕ) (set : BitVec 32)
    (opt : EventOpt) (n : ℕ) : Returned cfg C s (ndEventRecv cfg e set opt n s) := by
  obtain ⟨hn, hp, hc, hne⟩ := threadMode_eq h
  have hK : Kept cfg C s (s.updThread t fun th => { th with eventSet := set, eventOpt := opt }) :=
    .inert hS {}
  have h' : threadMode (s.updThread t fun th => { th with eventSet := set, eventOpt := opt }) =
      some t := h
  unfold ndEventRecv
  simp only [hc]
  split
  · exact ⟨hK.trans (.of_bare hK.sound rfl), fun h => by cases h⟩
  split
  · exact ⟨hK, fun h => by cases h⟩
  · exact ⟨hK.trans (hK.sound.block h' rfl (fun _ h => by cases h) n), fun _ => ⟨t, h⟩⟩

/-- `nd_thread_join` returns at once, or waits for a thread that lives.
kernel/nd_thread.c:344-376 -/
theorem ndThreadJoin_cases (cfg : Config) (s : State) (v : Option Tid) (n : ℕ) :
    (∃ r, ndThreadJoin cfg v n s = (s, some (.err r)) ∧
        (r = .eok → ∃ u, v = some u ∧ (s.threads u).stat = .dead)) ∨
      ∃ u, v = some u ∧ s.current ≠ some u ∧ (s.threads u).stat ≠ .dead ∧ n ≠ ndTimeoutNowait ∧
        ndThreadJoin cfg v n s = (ndScheduler cfg (ndThreadPend cfg (.join u) n s), none) := by
  unfold ndThreadJoin
  cases v with
  | none => exact .inl ⟨.einval, rfl, fun h => by cases h⟩
  | some u =>
    simp only
    by_cases hself : s.current = some u
    · rw [if_pos hself]
      exact .inl ⟨.edeadlk, rfl, fun h => by cases h⟩
    rw [if_neg hself]
    by_cases hd : (s.threads u).stat = .dead
    · rw [if_pos hd]
      exact .inl ⟨.eok, rfl, fun _ => ⟨u, rfl, hd⟩⟩
    rw [if_neg hd]
    by_cases hn : n = ndTimeoutNowait
    · rw [if_pos hn]
      exact .inl ⟨.ebusy, rfl, fun h => by cases h⟩
    · rw [if_neg hn]
      exact .inr ⟨u, rfl, hself, hd, hn, rfl⟩

/-- `nd_thread_join`.
kernel/nd_thread.c:344-376 -/
theorem Sound.threadJoin (hS : Sound cfg s) (h : threadMode s = some t) {x : Option Tid} {n : ℕ}
    (hv : (Op.wait (.threadJoin x n)).valid s = true) :
    Returned cfg C s (ndThreadJoin cfg x n s) := by
  rcases ndThreadJoin_cases cfg s x n with ⟨r, he, -⟩ | ⟨u, rfl, -, hd, -, he⟩
  · rw [he]
    exact .now hS rfl _
  · rw [he]
    simp only [Op.valid, decide_eq_true_eq] at hv
    refine ⟨hS.block h rfl (fun v hv' => ?_) n, fun _ => ⟨t, h⟩⟩
    cases hv'
    exact ⟨hv, hd⟩

/-! ## Mutexes -/

/-- A thread takes a mutex that nobody owns.
kernel/nd_mutex.c:78-84 -/
theorem Sound.take (hS : Sound cfg s) {m : Mid} (ho : (s.mutexes m).owner = none) (c : Tid) :
    Kept cfg C s (s.handed m c) := by
  have hfree : s.taken.home m = none := by
    cases hm : s.taken.home m with
    | none => rfl
    | some u =>
      rw [(hS.owned m u).mp hm] at ho
      cases ho
  refine .still hS (hS.consistent.of_core (core_handed hfree c)) (fun k u => ?_) rfl
    (fun _ _ => id) (fun _ _ _ _ _ => id)
  by_cases hk : k = m
  · subst hk
    simp [State.handed, s.taken.home_link _ _ hfree]
  · have hl := s.taken.home_link_of_ne (fun _ => true) c hk
    simpa [State.handed, hl, hk] using hS.owned k u

/-- The priority of the threads after a boost.
kernel/nd_mutex.c:89-92 -/
theorem threads_boostOwner (hS : Sound cfg s) {m : Mid} {o c : Tid} (u : Tid) :
    ((boostOwner m o c s).threads u).stat = (s.threads u).stat ∧
      ((boostOwner m o c s).threads u).priority =
        if u = o then min (s.threads o).priority (s.threads c).priority
        else (s.threads u).priority := by
  unfold boostOwner
  by_cases hlt : (s.threads c).priority < (s.threads o).priority
  · simp only [if_pos hlt]
    set s₁ := s.updMutex m fun mx => { mx with priority := (s.threads c).priority } with hs₁
    have hJ₁ : Consistent s₁ := hS.consistent.of_core rfl
    have hp : (s.threads c).priority < 32 := (hS.consistent.ok c).prio
    by_cases hr : (s₁.threads o).stat = .ready
    · rw [ndThreadChangePriority_ready hJ₁ hr hp]
      by_cases hu : u = o
      · subst hu
        simp [Thread.withPriority, hs₁, hlt.le]
      · simp [hu, hs₁]
    · rw [ndThreadChangePriority_other hr]
      by_cases hu : u = o
      · subst hu
        simp [Thread.withPriority, hs₁, hlt.le]
      · simp [hu, hs₁]
  · simp only [if_neg hlt]
    refine ⟨trivial, ?_⟩
    split
    · rename_i hu
      rw [hu]
      omega
    · rfl

/-- Raising the owner of a mutex to the priority of the current thread.
kernel/nd_mutex.c:89-92 -/
theorem Sound.boost (hS : Sound cfg s) {c : Tid} (h : threadMode s = some c) {m : Mid} {o : Tid}
    (hoc : o ≠ c) :
    Kept cfg C s (boostOwner m o c s) ∧ threadMode (boostOwner m o c s) = some c := by
  have hth := threads_boostOwner hS (m := m) (o := o) (c := c)
  have hp : (s.threads c).priority < 32 := (hS.consistent.ok c).prio
  obtain ⟨-, -, hcc, -⟩ := threadMode_eq h
  have hparts : Consistent (boostOwner m o c s) ∧
      (boostOwner m o c s).sched = s.sched ∧ (boostOwner m o c s).taken = s.taken ∧
      ∀ k, ((boostOwner m o c s).mutexes k).owner = (s.mutexes k).owner := by
    unfold boostOwner
    by_cases hlt : (s.threads c).priority < (s.threads o).priority
    · simp only [if_pos hlt]
      set s₁ := s.updMutex m fun mx => { mx with priority := (s.threads c).priority } with hs₁
      have hJ₁ : Consistent s₁ := hS.consistent.of_core rfl
      have hown : ∀ k, (s₁.mutexes k).owner = (s.mutexes k).owner := by
        intro k
        by_cases hk : k = m
        · subst hk; simp [hs₁]
        · simp [hs₁, hk]
      refine ⟨hJ₁.changePriority o hp, ?_⟩
      by_cases hr : (s₁.threads o).stat = .ready
      · rw [ndThreadChangePriority_ready hJ₁ hr hp]
        exact ⟨rfl, rfl, hown⟩
      · rw [ndThreadChangePriority_other hr]
        exact ⟨rfl, rfl, hown⟩
    · simp only [if_neg hlt]
      exact ⟨hS.consistent, trivial, trivial, fun _ => trivial⟩
  obtain ⟨hJ, hsched, htk, hown⟩ := hparts
  refine ⟨.still hS hJ (fun k u => ?_) hsched (fun u _ hu => ?_) (fun _ u hu _ _ hl r hr => ?_), ?_⟩
  · rw [htk, hown]
    exact hS.owned k u
  · rw [(hth u).1]
    exact hu
  · have hcu : c = u := Option.some.inj (hcc.symm.trans hu)
    subst hcu
    rw [(hth r).1] at hr
    have hlr := hl r hr
    rw [(hth c).2, (hth r).2, if_neg (Ne.symm hoc)]
    split
    · rename_i hro
      subst hro
      omega
    · exact hlr
  · have hc' : (boostOwner m o c s).current = s.current := (congrArg Prod.fst hsched :)
    have hn' : (boostOwner m o c s).nest = s.nest := (congrArg (fun x => x.2.1) hsched :)
    have hp' : (boostOwner m o c s).pendsv = s.pendsv := (congrArg (fun x => x.2.2.2) hsched :)
    unfold threadMode at h ⊢
    rw [hc', hn', hp']
    exact h

/-- `nd_mutex_lock`.
kernel/nd_mutex.c:72-106 -/
theorem Sound.mutexLock (hS : Sound cfg s) {c : Tid} (h : threadMode s = some c) (m : Mid) (n : ℕ) :
    Returned cfg C s (ndMutexLock cfg m n s) := by
  obtain ⟨-, -, hc, -⟩ := threadMode_eq h
  unfold ndMutexLock
  simp only [hc]
  cases ho : (s.mutexes m).owner with
  | none => exact ⟨hS.take ho c, fun h => by cases h⟩
  | some o =>
    simp only
    by_cases hoc : o = c
    · rw [if_pos hoc]
      exact .now hS rfl _
    · obtain ⟨hK, h'⟩ := hS.boost (C := C) h (m := m) hoc
      rw [if_neg hoc]
      split
      · exact ⟨hK, fun h => by cases h⟩
      · exact ⟨hK.trans (hK.sound.block h' rfl (fun _ h => by cases h) n), fun _ => ⟨c, h⟩⟩

/-! ## The calls that wait in a loop -/

/-- What a thread that was pended finds when `nd_scheduler` comes back to it on a deferred port: it
is still the current thread, with no error, and the objects are as they were.
arch/arm/m3/context.S:21-41 -/
theorem pend_comesBack (hport : cfg.port = .deferred) (hc : s.current = some t) (k : QHead)
    (n : ℕ) :
    let s' := ndScheduler cfg (ndThreadPend cfg k n s)
    s'.current = s.current ∧ s'.currentError = .eok ∧ s'.msgQueues = s.msgQueues ∧
      s'.pools = s.pools := by
  obtain ⟨hoff, hcur⟩ := ndScheduler_deferred hport (ndThreadPend cfg k n s)
  have hcur' : (ndThreadPend cfg k n s).current = s.current :=
    congrArg Flags.current (flags_ndThreadPend cfg hc k n)
  have hobj : (ndThreadPend cfg k n s).msgQueues = s.msgQueues ∧
      (ndThreadPend cfg k n s).pools = s.pools := by
    rw [ndThreadPend_eq hc]
    unfold startWaitTimer
    split
    · rw [timerStart_eq cfg (by simp)]
      exact ⟨rfl, rfl⟩
    · exact ⟨rfl, rfl⟩
  have hq := (congrArg State.msgQueues hoff :)
  have hp := (congrArg State.pools hoff :)
  refine ⟨hcur.trans hcur', ?_, Eq.trans hq hobj.1, Eq.trans hp hobj.2⟩
  unfold State.currentError
  rw [hcur.trans (hcur'.trans hc)]
  exact (error_of_offCpu hoff t).trans (pended_block hc k n).2

/-- On a deferred port `nd_queue_send` on a full queue never gets out of its loop.
kernel/nd_queue.c:31-67 -/
theorem queueSend_stuck (hport : cfg.port = .deferred) {q : ℕ} (msg : List (BitVec 8)) {n : ℕ}
    (hn : n ≠ ndTimeoutNowait) (turns : ℕ) :
    ∀ s : State, s.current ≠ none → (s.msgQueues q).usedMsg = (s.msgQueues q).maxMsgs →
      ∃ x : State, ndQueueSend cfg q msg n turns s = (x.crash, none) := by
  induction turns with
  | zero => exact fun s _ _ => ⟨s, rfl⟩
  | succ turns ih =>
    intro s hc hfull
    obtain ⟨t, ht⟩ := Option.ne_none_iff_exists'.mp hc
    obtain ⟨hcur, herr, hq, -⟩ := pend_comesBack hport ht (.queueSend q) n
    unfold ndQueueSend
    simp only [if_pos hfull, if_neg hn, hcur, ne_eq, not_true_eq_false, if_false, herr,
      reduceCtorEq]
    exact ih _ (by rw [hcur]; exact hc) (by rw [hq]; exact hfull)

/-- On a deferred port `nd_queue_recv` on an empty queue never gets out of its loop.
kernel/nd_queue.c:69-105 -/
theorem queueRecv_stuck (hport : cfg.port = .deferred) {q : ℕ} {n : ℕ}
    (hn : n ≠ ndTimeoutNowait) (turns : ℕ) :
    ∀ s : State, s.current ≠ none → (s.msgQueues q).usedMsg = 0 →
      ∃ x : State, ndQueueRecv cfg q n turns s = (x.crash, none) := by
  induction turns with
  | zero => exact fun s _ _ => ⟨s, rfl⟩
  | succ turns ih =>
    intro s hc hempty
    obtain ⟨t, ht⟩ := Option.ne_none_iff_exists'.mp hc
    obtain ⟨hcur, herr, hq, -⟩ := pend_comesBack hport ht (.queueRead q) n
    unfold ndQueueRecv
    simp only [if_pos hempty, if_neg hn, hcur, ne_eq, not_true_eq_false, if_false, herr,
      reduceCtorEq]
    exact ih _ (by rw [hcur]; exact hc) (by rw [hq]; exact hempty)

/-- On a deferred port `nd_mempool_alloc` on a pool without blocks never gets out of its loop.
kernel/nd_mempool.c:36-62 -/
theorem mempoolAlloc_stuck (hport : cfg.port = .deferred) {p : ℕ} {n : ℕ}
    (hn : n ≠ ndTimeoutNowait) (turns : ℕ) :
    ∀ s : State, s.current ≠ none → (s.pools p).freeCount = 0 →
      ∃ x : State, ndMempoolAlloc cfg p n turns s = (x.crash, none) := by
  induction turns with
  | zero => exact fun s _ _ => ⟨s, rfl⟩
  | succ turns ih =>
    intro s hc hempty
    obtain ⟨t, ht⟩ := Option.ne_none_iff_exists'.mp hc
    obtain ⟨hcur, herr, -, hp⟩ := pend_comesBack hport ht (.pool p) n
    unfold ndMempoolAlloc
    simp only [if_pos hempty, if_neg hn, hcur, ne_eq, not_true_eq_false, if_false, herr,
      reduceCtorEq]
    exact ih _ (by rw [hcur]; exact hc) (by rw [hp]; exact hempty)

/-- The calls that wait in a loop, when they have to wait. -/
def Call.mustLoop (s : State) : Call → Prop
  | .queueSend q _ n => n ≠ ndTimeoutNowait ∧ (s.msgQueues q).usedMsg = (s.msgQueues q).maxMsgs
  | .queueRecv q n => n ≠ ndTimeoutNowait ∧ (s.msgQueues q).usedMsg = 0
  | .mempoolAlloc p n => n ≠ ndTimeoutNowait ∧ (s.pools p).freeCount = 0
  | _ => False

/-- On a deferred port a call that has to wait in a loop faults.
kernel/nd_queue.c:31-105, kernel/nd_mempool.c:36-62 -/
theorem mustLoop_faults (hport : cfg.port = .deferred) (hc : s.current ≠ none) {c : Call}
    (h : c.mustLoop s) : (callBody cfg c s).1.fault = true := by
  cases c with
  | queueSend q msg n =>
    obtain ⟨x, hx⟩ := queueSend_stuck hport msg h.1 loopTurns s hc h.2
    simp only [callBody, hx]
    rfl
  | queueRecv q n =>
    obtain ⟨x, hx⟩ := queueRecv_stuck hport h.1 loopTurns s hc h.2
    simp only [callBody, hx]
    rfl
  | mempoolAlloc p n =>
    obtain ⟨x, hx⟩ := mempoolAlloc_stuck hport h.1 loopTurns s hc h.2
    simp only [callBody, hx]
    rfl
  | _ => exact h.elim

/-- A call that can wait in a loop is made where it may wait: with `ND_TIMEOUT_NOWAIT`, or by a
thread. -/
def MayWait (s : State) (n : ℕ) : Prop := n = ndTimeoutNowait ∨ ∃ t, threadMode s = some t

/-- A message copied into queue `q`.
kernel/nd_queue.c:53-56 -/
def State.sent (s : State) (q : ℕ) (msg : List (BitVec 8)) : State :=
  (s.emit (.msgSent q ((s.msgQueues q).copyIn msg))).updQueue q fun u =>
    { u with
      buf := Bytes.store u.buf (u.slot u.writePtr) (u.copyIn msg)
      writePtr := u.writePtr + 1
      usedMsg := u.usedMsg + 1 }

/-- A message copied out of queue `q`.
kernel/nd_queue.c:91-94 -/
def State.received (s : State) (q : ℕ) : State :=
  (s.emit (.msgReceived q ((s.msgQueues q).copyOut (s.msgQueues q).readPtr))).updQueue q fun u =>
    { u with readPtr := u.readPtr + 1, usedMsg := u.usedMsg - 1 }

/-- A block taken from pool `p`.
kernel/nd_mempool.c:56-58 -/
def State.allocated (s : State) (p : ℕ) : State :=
  s.updPool p fun pl =>
    { pl with freeList := Bytes.load32 pl.mem (s.pools p).freeList, freeCount := pl.freeCount - 1 }

/-- The first turn of a loop that waits on list `k` while `short` holds, with timeout `n`, and
serves the call otherwise. -/
inductive FirstTurn (cfg : Config) (s : State) (k : QHead) (n : ℕ) (short : Prop) (r : Ret)
    (done x : State × Option Ret) : Prop
  | refused (h : short) (hn : n = ndTimeoutNowait) (hx : x = (s, some r)) :
      FirstTurn cfg s k n short r done x
  | waits {t : Tid} (h : short) (hn : n ≠ ndTimeoutNowait) (ht : threadMode s = some t)
      (hx : x = (ndScheduler cfg (ndThreadPend cfg k n s), none)) :
        FirstTurn cfg s k n short r done x
  | served (h : ¬ short) (hx : x = done) : FirstTurn cfg s k n short r done x

/-- A thread that waits in a loop is switched out, where it can wait so. -/
theorem Sound.leavesLoop (hS : Sound cfg s) {k : QHead} (hk : k.isWait = true)
    (hj : ∀ u, k ≠ .join u) {n : ℕ}
    (ht : threadMode s = some t) {must : Prop} (hf : cfg.port = .deferred → ¬ must) (hm : must) :
    (ndScheduler cfg (ndThreadPend cfg k n s)).current ≠ s.current := by
  have hport : cfg.port = .sync := by
    cases hport : cfg.port with
    | sync => rfl
    | deferred => exact absurd hm (hf hport)
  exact hS.switchedOut hport ht hk (fun u h => absurd h (hj u)) n

/-- The first turn of `nd_queue_send`: it sends, refuses, or waits for room. -/
theorem Sound.queueSend_turn (hS : Sound cfg s) {q : ℕ} {msg : List (BitVec 8)} {n : ℕ}
    (hctx : MayWait s n) (hf : cfg.port = .deferred → ¬ (Call.queueSend q msg n).mustLoop s) :
    FirstTurn cfg s (.queueSend q) n ((s.msgQueues q).usedMsg = (s.msgQueues q).maxMsgs)
      (.err .efull)
      (wakeupIfAny cfg (.queueRead q) (s.sent q msg), some (.err .eok))
        (ndQueueSend cfg q msg n loopTurns s) := by
  unfold ndQueueSend loopTurns
  by_cases hfull : (s.msgQueues q).usedMsg = (s.msgQueues q).maxMsgs
  · by_cases hn : n = ndTimeoutNowait
    · exact .refused hfull hn (by simp only [if_pos hfull, if_pos hn])
    · obtain ⟨t, ht⟩ := hctx.resolve_left hn
      have hout := hS.leavesLoop (k := .queueSend q)
        (n := n) rfl (fun _ h => by cases h) ht hf ⟨hn, hfull⟩
      exact .waits hfull hn ht (by simp only [if_pos hfull, if_neg hn, if_pos hout])
  · apply FirstTurn.served hfull
    simp only [if_neg hfull]
    rfl

/-- The first turn of `nd_queue_recv`: it receives, refuses, or waits for a message. -/
theorem Sound.queueRecv_turn (hS : Sound cfg s) {q : ℕ} {n : ℕ} (hctx : MayWait s n)
    (hf : cfg.port = .deferred → ¬ (Call.queueRecv q n).mustLoop s) :
    FirstTurn cfg s (.queueRead q) n ((s.msgQueues q).usedMsg = 0) (.err .eempty)
      (wakeupIfAny cfg (.queueSend q) (s.received q), some (.err .eok))
        (ndQueueRecv cfg q n loopTurns s) := by
  unfold ndQueueRecv loopTurns
  by_cases hempty : (s.msgQueues q).usedMsg = 0
  · by_cases hn : n = ndTimeoutNowait
    · exact .refused hempty hn (by simp only [if_pos hempty, if_pos hn])
    · obtain ⟨t, ht⟩ := hctx.resolve_left hn
      have hout := hS.leavesLoop (k := .queueRead q)
        (n := n) rfl (fun _ h => by cases h) ht hf ⟨hn, hempty⟩
      exact .waits hempty hn ht (by simp only [if_pos hempty, if_neg hn, if_pos hout])
  · apply FirstTurn.served hempty
    simp only [if_neg hempty]
    rfl

/-- The first turn of `nd_mempool_alloc`: it takes a block, refuses, or waits for one. -/
theorem Sound.mempoolAlloc_turn (hS : Sound cfg s) {p : ℕ} {n : ℕ} (hctx : MayWait s n)
    (hf : cfg.port = .deferred → ¬ (Call.mempoolAlloc p n).mustLoop s) :
    FirstTurn cfg s (.pool p) n ((s.pools p).freeCount = 0) (.block none)
      (s.allocated p, some (.block (some (s.pools p).freeList)))
        (ndMempoolAlloc cfg p n loopTurns s) := by
  unfold ndMempoolAlloc loopTurns
  by_cases hempty : (s.pools p).freeCount = 0
  · by_cases hn : n = ndTimeoutNowait
    · exact .refused hempty hn (by simp only [if_pos hempty, if_pos hn])
    · obtain ⟨t, ht⟩ := hctx.resolve_left hn
      have hout := hS.leavesLoop (k := .pool p)
        (n := n) rfl (fun _ h => by cases h) ht hf ⟨hn, hempty⟩
      exact .waits hempty hn ht (by simp only [if_pos hempty, if_neg hn, if_pos hout])
  · apply FirstTurn.served hempty
    simp only [if_neg hempty]
    rfl

/-- The first turn keeps the invariant. -/
theorem FirstTurn.returned (hS : Sound cfg s) {k : QHead} (hk : k.isWait = true)
    (hj : ∀ u, k ≠ .join u) {n : ℕ}
    {short : Prop} {r : Ret} {done x : State × Option Ret} (h : FirstTurn cfg s k n short r done x)
    (hdone : Returned cfg C s done) : Returned cfg C s x := by
  cases h with
  | refused h hn hx =>
    rw [hx]
    exact .now hS rfl _
  | @waits t h hn ht hx =>
    rw [hx]
    exact ⟨hS.block ht hk (fun u h => absurd h (hj u)) n, fun _ => ⟨t, ht⟩⟩
  | served h hx =>
    rw [hx]
    exact hdone

/-- `nd_queue_send`, on a deferred port only when it need not wait.
kernel/nd_queue.c:31-67 -/
theorem Sound.queueSend (hS : Sound cfg s) {q : ℕ} {msg : List (BitVec 8)} {n : ℕ}
    (hctx : MayWait s n) (hf : cfg.port = .deferred → ¬ (Call.queueSend q msg n).mustLoop s) :
    Returned cfg C s (ndQueueSend cfg q msg n loopTurns s) := by
  apply (hS.queueSend_turn hctx hf).returned hS rfl fun _ h => by cases h
  exact ⟨.wakeupIfAny hS rfl rfl, fun h => by cases h⟩

/-- `nd_queue_recv`, on a deferred port only when it need not wait.
kernel/nd_queue.c:69-105 -/
theorem Sound.queueRecv (hS : Sound cfg s) {q : ℕ} {n : ℕ} (hctx : MayWait s n)
    (hf : cfg.port = .deferred → ¬ (Call.queueRecv q n).mustLoop s) :
    Returned cfg C s (ndQueueRecv cfg q n loopTurns s) := by
  apply (hS.queueRecv_turn hctx hf).returned hS rfl fun _ h => by cases h
  exact ⟨.wakeupIfAny hS rfl rfl, fun h => by cases h⟩

/-- `nd_mempool_alloc`, on a deferred port only when it need not wait.
kernel/nd_mempool.c:36-62 -/
theorem Sound.mempoolAlloc (hS : Sound cfg s) {p : ℕ} {n : ℕ} (hctx : MayWait s n)
    (hf : cfg.port = .deferred → ¬ (Call.mempoolAlloc p n).mustLoop s) :
    Returned cfg C s (ndMempoolAlloc cfg p n loopTurns s) := by
  apply (hS.mempoolAlloc_turn hctx hf).returned hS rfl fun _ h => by cases h
  exact ⟨.of_bare hS rfl, fun h => by cases h⟩

end NerdRtos
