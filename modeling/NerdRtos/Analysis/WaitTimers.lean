import NerdRtos.Analysis.Effects

/-!
# The wait timers

`State.armed` is the expiry of an armed timer. Only `nd_thread_pend` and `nd_thread_delay` arm the
wait timer of a thread, the one of the current thread, at the beginning of its wait: the scheduler
arms slice timers, and the other paths stop wait timers at most (`exec_rearms`).
-/

set_option autoImplicit false

namespace NerdRtos

variable {cfg : Config} {s x y z : State} {a : Action} {t : Tid} {v : TimerId}

/-- The expiry of timer `v`, if it is armed. -/
def State.armed (s : State) (v : TimerId) : Option ℕ :=
  (s.tree.home v).map fun _ => (s.timers v).expireTime

/-! ## The primitives -/

/-- A timer that is taken out is not armed, and the others stay. -/
theorem armed_timerRemove (s : State) (u v : TimerId) :
    (timerRemove u s).armed v = if v = u then none else s.armed v := by
  unfold State.armed
  by_cases hv : v = u <;> simp [hv]

/-- A timer that is linked in again is armed with its new expiry, and the others stay. -/
theorem armed_rearm (s : State) (u : TimerId) (e : ℕ) (v : TimerId) :
    (s.rearm u e).armed v = if v = u then some e else s.armed v := by
  unfold State.armed
  rw [home_rearm]
  by_cases hv : v = u
  · subst hv
    simp
  · simp [hv]

/-- An edit of another timer. -/
theorem armed_updTimer {u : TimerId} (hv : v ≠ u) (f : Timer → Timer) :
    (s.updTimer u f).armed v = s.armed v := by
  simp [State.armed, hv]

/-- Starting a timer arms no other one. -/
theorem armed_timerStart {u : TimerId} (hv : v ≠ u) :
    (ndTimerStart cfg u s).1.armed v = s.armed v := by
  by_cases h : (s.timers u).callback = .none
  · rw [timerStart_refused cfg h]
  · rw [timerStart_eq cfg h, armed_rearm, if_neg hv]

/-- The expiry of timer `v`, if it is armed, and the time. -/
def State.ticks (s : State) (v : TimerId) : Option ℕ × ℕ := (s.armed v, s.clock)

/-- Queueing a thread at the tail leaves the timers. -/
theorem ticks_readyAddTail (t : Tid) (s : State) :
    (ndThreadReadyAddTail t s).ticks v = s.ticks v := by
  unfold ndThreadReadyAddTail
  simp only
  split <;> rfl

/-- Queueing a thread at the head leaves the timers. -/
theorem ticks_readyAddHead (t : Tid) (s : State) :
    (ndThreadReadyAddHead t s).ticks v = s.ticks v := by
  unfold ndThreadReadyAddHead
  simp only
  split <;> rfl

/-- Taking a thread off its ready list leaves the timers. -/
theorem ticks_readyRemove (t : Tid) (s : State) :
    (ndThreadReadyRemove t s).ticks v = s.ticks v := by
  unfold ndThreadReadyRemove
  simp only
  split
  · rfl
  · split <;> rfl

/-! ## The scheduler -/

/-- Queueing the current thread again leaves the timers. -/
theorem ticks_requeue (n : Tid) (r : Bool) (s : State) :
    (requeueCurrent n r s).ticks v = s.ticks v := by
  unfold requeueCurrent
  split
  · rfl
  · simp only
    split_ifs
    all_goals first
      | rw [ticks_readyAddHead]; rfl
      | rw [ticks_readyAddTail]; rfl
      | rfl

/-- A decision of the scheduler leaves the timers. -/
theorem ticks_pickNext (s : State) : (ndSchedulePickNext s).2.ticks v = s.ticks v := by
  have hshould : ∀ n, (ndShouldSwitch n s).2.2.ticks v = s.ticks v := by
    intro n
    unfold ndShouldSwitch
    split
    · rfl
    · split_ifs <;> rfl
  unfold ndSchedulePickNext pickNext
  cases ndGetHighestPriorityThread s with
  | none => rfl
  | some n =>
    have hn := hshould n
    rcases h : ndShouldSwitch n s with ⟨b, r, s₁⟩
    simp only [h] at hn ⊢
    cases b with
    | false => exact hn
    | true => exact (ticks_requeue n r s₁).trans hn

/-- Settling a slice touches slice timers only. -/
theorem ticks_settleSlice (hv : ∀ t, v ≠ .slice t) (p : Tid) (now : ℕ) (s : State) :
    (settleSlice p now s).ticks v = s.ticks v := by
  unfold settleSlice
  split
  · simp only [ndTimerStop]
    split_ifs <;> simp [State.ticks, State.armed, hv p]
  · rfl

/-- Starting a timer leaves the others. -/
theorem ticks_timerStart {u : TimerId} (hv : v ≠ u) (s : State) :
    (ndTimerStart cfg u s).1.ticks v = s.ticks v := by
  refine Prod.ext (armed_timerStart hv) ?_
  by_cases h : (s.timers u).callback = .none
  · rw [timerStart_refused cfg h]
  · rw [timerStart_eq cfg h]
    rfl

/-- Starting a slice touches slice timers only. -/
theorem ticks_startSlice (hv : ∀ t, v ≠ .slice t) (p : Tid) (now : ℕ) (s : State) :
    (startSlice cfg p now s).ticks v = s.ticks v := by
  unfold startSlice
  split
  · simp only
    rw [ticks_timerStart (hv p)]
    simp only [ndTimerStop]
    split_ifs <;> simp [State.ticks, State.armed, hv p]
  · split
    · simp [State.ticks, State.armed, ndTimerStop, hv p]
    · rfl

/-- A switch arms slice timers only. -/
theorem ticks_contextSwitch (n : Option Tid) (hv : ∀ t, v ≠ .slice t) (s : State) :
    (ndContextSwitchCb cfg n s).ticks v = s.ticks v := by
  unfold ndContextSwitchCb
  cases n with
  | none => rfl
  | some n =>
    simp only
    rw [ticks_startSlice hv]
    cases hc : s.current with
    | none =>
      simp only
      exact ticks_readyRemove n s
    | some c =>
      simp only
      exact (ticks_settleSlice hv c _ _).trans (ticks_readyRemove n s)

/-- A switch touches slice timers only. -/
theorem ticks_scheduleCore (hv : ∀ t, v ≠ .slice t) (s : State) :
    (ndScheduleCore cfg s).ticks v = s.ticks v := by
  unfold ndScheduleCore
  have hpick := ticks_pickNext (v := v) s
  rcases h : ndSchedulePickNext s with ⟨n, s₁⟩
  rw [h] at hpick
  cases n with
  | none => exact hpick
  | some n =>
    simp only
    unfold ndHwDoSwitch
    cases cfg.port with
    | sync => exact (ticks_contextSwitch _ hv _).trans hpick
    | deferred => exact hpick

/-- The scheduler touches slice timers only. -/
theorem ticks_ndScheduler (hv : ∀ t, v ≠ .slice t) (s : State) :
    (ndScheduler cfg s).ticks v = s.ticks v := by
  unfold ndScheduler
  split
  · rfl
  · exact ticks_scheduleCore hv s

/-! ## What rearms wait timers -/

/-- A wait timer that is armed in `y` was armed in `x` with the same expiry, or was started as `Q`
says. -/
def Rearms (Q : Tid → ℕ → Prop) (x y : State) : Prop :=
  ∀ t e, y.armed (.wait t) = some e → x.armed (.wait t) = some e ∨ Q t e

variable {Q : Tid → ℕ → Prop}

/-- Where the wait timers are the same, none was started. -/
theorem Rearms.of_ticks (h : ∀ t, y.ticks (.wait t) = x.ticks (.wait t)) : Rearms Q x y :=
  fun t _ he => .inl ((congrArg Prod.fst (h t)).symm.trans he)

/-- A change of other things. -/
theorem Rearms.edit (h : Rearms Q x y) (ht : z.tree = y.tree) (hm : z.timers = y.timers) :
    Rearms Q x z := by
  intro t e he
  refine h t e ?_
  unfold State.armed at he ⊢
  rwa [ht, hm] at he

/-- Two parts of a step, one after the other. -/
theorem Rearms.trans (h : Rearms Q x y) (h' : Rearms Q y z) : Rearms Q x z :=
  fun t e he => (h' t e he).elim (h t e) .inr

/-- A timer stops. -/
theorem Rearms.stop (h : Rearms Q x y) (u : TimerId) : Rearms Q x (ndTimerStop u y) := by
  intro t e he
  rw [ndTimerStop, armed_timerRemove] at he
  split at he
  · cases he
  · exact h t e he

/-- The scheduler starts no wait timer. -/
theorem Rearms.scheduler (h : Rearms Q x y) : Rearms Q x (ndScheduler cfg y) :=
  h.trans (.of_ticks fun _ => ticks_ndScheduler (by simp) y)

/-- Queueing a thread starts no wait timer. -/
theorem Rearms.addTail (h : Rearms Q x y) (t : Tid) : Rearms Q x (ndThreadReadyAddTail t y) :=
  h.trans (.of_ticks fun _ => ticks_readyAddTail t y)

/-- Taking a thread off its ready list starts no wait timer. -/
theorem Rearms.remove (h : Rearms Q x y) (t : Tid) : Rearms Q x (ndThreadReadyRemove t y) :=
  h.trans (.of_ticks fun _ => ticks_readyRemove t y)

/-- Waking the first waiter stops its timer and starts none. -/
theorem Rearms.wakeup (h : Rearms Q x y) (k : QHead) : Rearms Q x (ndThreadWakeup k y).1 := by
  unfold ndThreadWakeup
  split
  · exact h
  · rename_i t _
    have hstop : Rearms Q x (((ndTimerStop (.wait t) y).updThread t fun th =>
        { th with error := .eok, stat := .ready }).listRemove t) := h.stop (.wait t)
    exact hstop.addTail t

/-- Waking a whole list starts no wait timer. -/
theorem Rearms.wakeAll (k : QHead) (n : ℕ) :
    ∀ y, Rearms Q x y → Rearms Q x (NerdRtos.wakeAll k n y) := by
  induction n with
  | zero => exact fun y h => h
  | succ n ih =>
    intro y h
    unfold NerdRtos.wakeAll
    split
    · exact h
    · exact ih _ (h.wakeup k)

/-- Waking a waiter, if there is one, starts no wait timer. -/
theorem Rearms.wakeupIfAny (h : Rearms Q x y) (k : QHead) :
    Rearms Q x (NerdRtos.wakeupIfAny cfg k y) := by
  unfold NerdRtos.wakeupIfAny
  split
  · exact h
  · have hw := h.wakeup k
    rcases hk : ndThreadWakeup k y with ⟨y₁, w⟩
    rw [hk] at hw
    cases w with
    | none => exact hw
    | some t =>
      have hnote : Rearms Q x (y₁.emit (.woken t k)) := hw
      exact hnote.scheduler

/-- A turn of `nd_event_send` starts no wait timer. -/
theorem Rearms.eventVisit (h : Rearms Q x y) (e : ℕ) (t : Tid) :
    Rearms Q x (NerdRtos.eventVisit e y t) := by
  unfold NerdRtos.eventVisit ndEventWakeup
  split
  · simp only
    refine Rearms.addTail ?_ t
    exact h.stop (.wait t)
  · exact h

/-- The loop of `nd_event_send` starts no wait timer. -/
theorem Rearms.eventVisits (e : ℕ) (ts : List Tid) :
    ∀ y, Rearms Q x y → Rearms Q x (ts.foldl (NerdRtos.eventVisit e) y) := by
  induction ts with
  | nil => exact fun y h => h
  | cons t ts ih => exact fun y h => ih _ (h.eventVisit e t)

/-! ## The calls -/

/-- `nd_thread_pend` starts the wait timer of the current thread, unless it waits forever.
kernel/nd_thread.c:95-109 -/
theorem Rearms.pend (k : QHead) (n : ℕ) (s : State) :
    Rearms (fun t e => s.current = some t ∧ n ≠ ndTimeoutForever ∧ e = expireAt cfg s n) s
      (ndThreadPend cfg k n s) := by
  intro t e he
  cases hc : s.current with
  | none =>
    unfold ndThreadPend at he
    simp only [hc] at he
    exact .inl he
  | some w =>
    rw [ndThreadPend_eq hc] at he
    unfold startWaitTimer at he
    split at he
    · rename_i hn
      rw [timerStart_eq cfg (by simp), armed_rearm] at he
      split at he
      · rename_i htw
        cases htw
        refine .inr ⟨rfl, hn, (Option.some.inj he).symm.trans ?_⟩
        simp [expireAt]
      · rename_i htw
        rw [armed_updTimer htw] at he
        exact .inl he
    · exact .inl he

/-- The scheduler leaves the clock. -/
theorem clock_ndScheduler (s : State) : (ndScheduler cfg s).clock = s.clock :=
  (congrArg Prod.snd (ticks_ndScheduler (v := .user 0) (by simp) s) :)

/-- `nd_thread_pend` leaves the clock. -/
theorem clock_ndThreadPend (k : QHead) (n : ℕ) (s : State) :
    (ndThreadPend cfg k n s).clock = s.clock := by
  cases hc : s.current with
  | none =>
    unfold ndThreadPend
    simp only [hc]
    rfl
  | some w =>
    rw [ndThreadPend_eq hc]
    unfold startWaitTimer
    split
    · rw [timerStart_eq cfg (by simp)]
      rfl
    · rfl

/-- The expiry depends on the time only. -/
theorem expireAt_of_clock (h : y.clock = x.clock) (n : ℕ) :
    expireAt cfg y n = expireAt cfg x n := by
  simp [expireAt, h]

/-- A boost touches no timer. -/
theorem boostOwner_still (m : Mid) (o c : Tid) (s : State) :
    (boostOwner m o c s).ticks v = s.ticks v ∧ (boostOwner m o c s).current = s.current := by
  unfold boostOwner ndThreadChangePriority
  split
  · simp only
    split
    · refine ⟨?_, ?_⟩
      · rw [ticks_readyAddHead]
        exact ticks_readyRemove o _
      · have hadd : ∀ x, (ndThreadReadyAddHead o x).current = x.current := fun x =>
          (congrArg Flags.current (flags_readyAdd o x).2 :)
        rw [hadd]
        show (ndThreadReadyRemove o _).current = s.current
        unfold ndThreadReadyRemove
        simp only
        split_ifs <;> rfl
    · exact ⟨rfl, rfl⟩
  · exact ⟨rfl, rfl⟩

/-- What the body of call `c` starts: the wait timer of the current thread, when the call has to
wait and has a timeout. -/
def Starts (cfg : Config) (s : State) (c : Call) (t : Tid) (e : ℕ) : Prop :=
  s.current = some t ∧ c.timeout ≠ ndTimeoutForever ∧ c.timeout ≠ ndTimeoutNowait ∧
    (c.loops = true → c.mustLoop s) ∧ e = expireAt cfg s c.timeout

/-- A turn of a loop that waits. -/
theorem Rearms.turn {k : QHead} {n : ℕ} {s₁ : State} (hc : s₁.current = s.current)
    (hclock : s₁.clock = s.clock)
    (hQ : ∀ t, s.current = some t → n ≠ ndTimeoutForever → Q t (expireAt cfg s n)) :
    Rearms Q s₁ (ndScheduler cfg (ndThreadPend cfg k n s₁)) := by
  intro t e he
  refine ((Rearms.pend k n s₁).scheduler t e he).imp_right fun h => ?_
  obtain ⟨ht, hn, rfl⟩ := h
  rw [expireAt_of_clock hclock]
  exact hQ t (hc ▸ ht) hn

/-- A turn of a loop that waits, and the turns after it. -/
theorem Rearms.again {k : QHead} {n : ℕ} {s₁ : State} {r : Ret} {next : State → State × Option Ret}
    (hc : s₁.current = s.current) (hclock : s₁.clock = s.clock)
    (hQ : ∀ t, s.current = some t → n ≠ ndTimeoutForever → Q t (expireAt cfg s n))
    (hnext : ∀ {s₂ : State}, s₂.current = s.current → s₂.clock = s.clock →
      Rearms Q s₂ (next s₂).1) :
    Rearms Q s₁ (let s₂ := ndScheduler cfg (ndThreadPend cfg k n s₁)
      if s₂.current ≠ s₁.current then (s₂, none)
      else if s₂.currentError = .etimeout then (s₂, some r)
      else next s₂).1 := by
  have hturn := Rearms.turn (k := k) hc hclock hQ
  simp only
  split
  · exact hturn
  · rename_i hsame
    split
    · exact hturn
    · refine hturn.trans (hnext ?_ ?_)
      · exact (not_not.mp hsame).trans hc
      · rw [clock_ndScheduler, clock_ndThreadPend, hclock]

/-- The loop of `nd_queue_send` starts the timer of the caller, and only where the queue is full. -/
theorem queueSend_rearms (q : ℕ) (msg : List (BitVec 8)) {n : ℕ} (turns : ℕ) :
    ∀ s₁ : State, s₁.current = s.current → s₁.clock = s.clock →
      ((s₁.msgQueues q).usedMsg = (s₁.msgQueues q).maxMsgs → n ≠ ndTimeoutNowait → ∀ t,
        s.current = some t → n ≠ ndTimeoutForever → Q t (expireAt cfg s n)) →
      Rearms Q s₁ (ndQueueSend cfg q msg n turns s₁).1 := by
  induction turns with
  | zero => exact fun s₁ _ _ _ => .of_ticks fun _ => rfl
  | succ turns ih =>
    intro s₁ hc hclock hQ
    unfold ndQueueSend
    split
    · rename_i hfull
      split
      · exact .of_ticks fun _ => rfl
      · rename_i hn
        exact Rearms.again hc hclock (hQ hfull hn) fun hc' hclock' => ih _ hc' hclock' fun _ _ =>
          hQ hfull hn
    · exact Rearms.wakeupIfAny (.of_ticks fun _ => rfl) _

/-- The loop of `nd_queue_recv` starts the timer of the caller, and only where the queue is
empty. -/
theorem queueRecv_rearms (q : ℕ) {n : ℕ} (turns : ℕ) :
    ∀ s₁ : State, s₁.current = s.current → s₁.clock = s.clock →
      ((s₁.msgQueues q).usedMsg = 0 → n ≠ ndTimeoutNowait → ∀ t, s.current = some t →
        n ≠ ndTimeoutForever → Q t (expireAt cfg s n)) →
      Rearms Q s₁ (ndQueueRecv cfg q n turns s₁).1 := by
  induction turns with
  | zero => exact fun s₁ _ _ _ => .of_ticks fun _ => rfl
  | succ turns ih =>
    intro s₁ hc hclock hQ
    unfold ndQueueRecv
    split
    · rename_i hempty
      split
      · exact .of_ticks fun _ => rfl
      · rename_i hn
        exact Rearms.again hc hclock (hQ hempty hn) fun hc' hclock' => ih _ hc' hclock' fun _ _ =>
          hQ hempty hn
    · exact Rearms.wakeupIfAny (.of_ticks fun _ => rfl) _

/-- The loop of `nd_mempool_alloc` starts the timer of the caller, and only where no block is
free. -/
theorem mempoolAlloc_rearms (p : ℕ) {n : ℕ} (turns : ℕ) :
    ∀ s₁ : State, s₁.current = s.current → s₁.clock = s.clock →
      ((s₁.pools p).freeCount = 0 → n ≠ ndTimeoutNowait → ∀ t, s.current = some t →
        n ≠ ndTimeoutForever → Q t (expireAt cfg s n)) →
      Rearms Q s₁ (ndMempoolAlloc cfg p n turns s₁).1 := by
  induction turns with
  | zero => exact fun s₁ _ _ _ => .of_ticks fun _ => rfl
  | succ turns ih =>
    intro s₁ hc hclock hQ
    unfold ndMempoolAlloc
    split
    · rename_i hempty
      split
      · exact .of_ticks fun _ => rfl
      · rename_i hn
        exact Rearms.again hc hclock (hQ hempty hn) fun hc' hclock' => ih _ hc' hclock' fun _ _ =>
          hQ hempty hn
    · exact .of_ticks fun _ => rfl

/-- The body of a blocking call. -/
theorem callBody_rearms (c : Call) (s : State) :
    Rearms (Starts cfg s c) s (callBody cfg c s).1 := by
  have hwait : ∀ (k : QHead) (n : ℕ) (s₁ : State), c.loops = false → c.timeout = n →
      n ≠ ndTimeoutNowait → s₁.current = s.current → s₁.clock = s.clock →
      Rearms (Starts cfg s c) s₁ (ndScheduler cfg (ndThreadPend cfg k n s₁)) := by
    intro k n s₁ hl ht hn hc hclock
    subst ht
    exact Rearms.turn hc hclock fun t ht hf =>
      ⟨ht, hf, hn, fun hloop => absurd hloop (by simp [hl]), rfl⟩
  cases c with
  | semTake i n =>
    simp only [callBody, ndSemTake]
    split
    · exact .of_ticks fun _ => rfl
    split
    · exact .of_ticks fun _ => rfl
    · rename_i hn
      exact hwait _ n s rfl rfl hn rfl rfl
  | mutexLock m n =>
    simp only [callBody, ndMutexLock]
    cases hc : s.current with
    | none => exact .of_ticks fun _ => rfl
    | some w =>
      cases ho : (s.mutexes m).owner with
      | none => exact .of_ticks fun _ => rfl
      | some o =>
        simp only
        split
        · exact .of_ticks fun _ => rfl
        have hboost : ∀ v, (boostOwner m o w s).ticks v = s.ticks v := fun v =>
          (boostOwner_still m o w s).1
        have hsame : Rearms (Starts cfg s (.mutexLock m n)) s (boostOwner m o w s) :=
          .of_ticks fun t => hboost (.wait t)
        split
        · exact hsame
        · rename_i hn
          refine hsame.trans (hwait _ n _ rfl rfl hn ?_ ?_)
          · exact (boostOwner_still (v := .user 0) m o w s).2
          · exact (congrArg Prod.snd (hboost (.user 0)) :)
  | queueSend q msg n =>
    exact queueSend_rearms q msg loopTurns s rfl rfl fun hfull hn t ht hf =>
      ⟨ht, hf, hn, fun _ => ⟨hn, hfull⟩, rfl⟩
  | queueRecv q n =>
    exact queueRecv_rearms q loopTurns s rfl rfl fun hempty hn t ht hf =>
      ⟨ht, hf, hn, fun _ => ⟨hn, hempty⟩, rfl⟩
  | eventRecv e set opt n =>
    simp only [callBody, ndEventRecv]
    cases hc : s.current with
    | none => exact .of_ticks fun _ => rfl
    | some w =>
      simp only
      split
      · exact .of_ticks fun _ => rfl
      split
      · exact .of_ticks fun _ => rfl
      · rename_i hn
        exact hwait _ n (s.updThread w fun th => { th with eventSet := set, eventOpt := opt })
          rfl rfl hn
          rfl rfl
  | mempoolAlloc p n =>
    exact mempoolAlloc_rearms p loopTurns s rfl rfl fun hempty hn t ht hf =>
      ⟨ht, hf, hn, fun _ => ⟨hn, hempty⟩, rfl⟩
  | threadJoin u n =>
    simp only [callBody, ndThreadJoin]
    cases u with
    | none => exact .of_ticks fun _ => rfl
    | some u =>
      simp only
      split
      · exact .of_ticks fun _ => rfl
      split
      · exact .of_ticks fun _ => rfl
      split
      · exact .of_ticks fun _ => rfl
      · rename_i hn
        exact hwait _ n s rfl rfl hn rfl rfl

/-- The record of the outcome starts no timer. -/
theorem Rearms.finish (h : Rearms Q x y) (who : Option Tid) (c : Call) (r : Option Ret) :
    Rearms Q x (finishCall who c (y, r)) := by
  cases r <;> cases who <;> exact h

/-- The wait timers that a step starts: the current thread's, when it begins a delay, or begins a
call or goes on with one and has to wait. -/
def Arms (cfg : Config) (a : Action) (s : State) (t : Tid) (e : ℕ) : Prop :=
  (s.current = some t ∧ ∃ n, a = .call (.threadDelay n)) ∨ ∃ c, Starts cfg s c t e ∧
    (a.op? = some (.wait c) ∨
      a = .resume ∧ s.calls t = some c ∧ c.loops = true ∧ (s.threads t).error ≠ .etimeout)

/-- The end of a thread.
kernel/nd_thread.c:180-220 -/
theorem Rearms.halt (h : Rearms Q x y) (t : Tid) : Rearms Q x (ndThreadHalt cfg t y) := by
  have hfrom : ∀ w, Rearms Q x w → Rearms Q x (haltFrom cfg t w) := by
    intro w hw
    have hdead : Rearms Q x (w.updThread t fun th => { th with stat := .dead }) := hw.edit rfl rfl
    have hstopped := (hdead.stop (.wait t)).stop (.slice t)
    unfold haltFrom wakeJoiners
    simp only
    split
    · refine Rearms.scheduler (Rearms.wakeAll _ _ _ ?_)
      exact hstopped.edit rfl rfl
    · refine Rearms.wakeAll _ _ _ ?_
      exact hstopped.edit rfl rfl
  cases hst : (y.threads t).stat with
  | dead =>
    have heq : ndThreadHalt cfg t y = y := by
      unfold ndThreadHalt
      rw [if_pos hst]
    rw [heq]
    exact h
  | ready =>
    have heq : ndThreadHalt cfg t y = haltFrom cfg t (ndThreadReadyRemove t y) := by
      unfold ndThreadHalt
      simp only [hst]
      rfl
    rw [heq]
    exact hfrom _ (h.remove t)
  | block =>
    have heq : ndThreadHalt cfg t y = haltFrom cfg t
        (if y.isLinked t then y.listRemove t else y) := by
      unfold ndThreadHalt
      simp only [hst]
      rfl
    rw [heq]
    refine hfrom _ ?_
    split
    · exact h.edit rfl rfl
    · exact h
  | _ =>
    have heq : ndThreadHalt cfg t y = haltFrom cfg t y := by
      unfold ndThreadHalt
      simp only [hst]
      rfl
    rw [heq]
    exact hfrom _ h

/-- A new thread has its timers initialised, not started. -/
theorem threadCreate_rearms (b : CreateArgs) : Rearms Q s (ndThreadCreate cfg b s).1 := by
  have hsame : Rearms Q s s := .of_ticks fun _ => rfl
  unfold ndThreadCreate
  split
  · exact hsame
  · rename_i t _
    simp only
    split
    · exact hsame
    · refine Rearms.scheduler (Rearms.addTail ?_ t)
      refine .of_ticks fun u => ?_
      unfold ndThreadInit
      by_cases hu : u = t
      · subst hu
        simp only
        split <;> simp [State.ticks, State.armed]
      · simp only
        split <;> simp [State.ticks, State.armed, hu]

/-- An abort ends the thread, or does nothing. -/
theorem threadAbort_rearms (u : Option Tid) : Rearms Q s (ndThreadAbort cfg u s).1 := by
  have hsame : Rearms Q s s := .of_ticks fun _ => rfl
  unfold ndThreadAbort
  split
  · exact hsame
  · split_ifs
    · exact hsame
    · exact hsame
    · exact hsame.halt _

/-- A suspended thread has its wait timer stopped. -/
theorem threadSuspend_rearms (t : Tid) : Rearms Q s (ndThreadSuspend cfg t s).1 := by
  have hsame : Rearms Q s s := .of_ticks fun _ => rfl
  unfold ndThreadSuspend
  split
  · exact hsame
  · split
    · exact (hsame.remove t).edit rfl rfl
    · refine Rearms.scheduler ?_
      exact hsame.edit rfl rfl
    · simp only
      refine Rearms.scheduler (Rearms.stop ?_ (.wait t))
      split <;> exact hsame.edit rfl rfl
    · exact hsame

/-- A thread is resumed without a timer. -/
theorem threadResume_rearms (t : Tid) : Rearms Q s (ndThreadResume cfg t s).1 := by
  have hsame : Rearms Q s s := .of_ticks fun _ => rfl
  unfold ndThreadResume
  split
  · exact hsame
  · refine Rearms.scheduler (Rearms.addTail ?_ t)
    exact hsame.edit rfl rfl

/-- A release wakes a waiter at most. -/
theorem semRelease_rearms (i : ℕ) : Rearms Q s (ndSemRelease cfg i s).1 := by
  have hsame : Rearms Q s s := .of_ticks fun _ => rfl
  unfold ndSemRelease
  have hnoted : Rearms Q s (s.emit (.semReleased i)) := hsame.edit rfl rfl
  simp only
  split
  · exact hsame.edit rfl rfl
  · have hw := hnoted.wakeup (.sem i)
    rcases hk : ndThreadWakeup (.sem i) (s.emit (.semReleased i)) with ⟨y, w⟩
    rw [hk] at hw
    cases w with
    | none => exact hw
    | some t =>
      refine Rearms.scheduler ?_
      exact hw.edit rfl rfl

/-- A block that is given back wakes a waiter at most. -/
theorem mempoolFree_rearms (p ptr : ℕ) : Rearms Q s (ndMempoolFree cfg p ptr s) := by
  have hsame : Rearms Q s s := .of_ticks fun _ => rfl
  unfold ndMempoolFree
  split
  · exact hsame.edit rfl rfl
  · refine Rearms.wakeupIfAny ?_ _
    exact hsame.edit rfl rfl

/-- An application timer is initialised. -/
theorem timerInit_rearms (u : ℕ) (periodic : Bool) (timeout : ℕ) (callback : Callback) :
    Rearms Q s (ndTimerInit u periodic timeout callback s).1 := by
  have hsame : Rearms Q s s := .of_ticks fun _ => rfl
  unfold ndTimerInit
  split
  · exact hsame
  split
  · exact hsame
  · refine .of_ticks fun t => ?_
    simp only
    split <;> simp [State.ticks, State.armed]

/-- An unlock wakes a waiter at most. -/
theorem mutexUnlock_rearms (m : Mid) : Rearms Q s (ndMutexUnlock cfg m s).1 := by
  have hsame : Rearms Q s s := .of_ticks fun _ => rfl
  unfold ndMutexUnlock
  split
  · exact hsame.edit rfl rfl
  · rename_i w _
    have hrestored : Rearms Q s (ndMutexRestorePriority w (takenRemove m s)) :=
      hsame.edit rfl rfl
    split
    · exact hsame
    simp only
    split
    · exact hrestored.edit rfl rfl
    · have hw := hrestored.wakeup (.mutex m)
      rcases hk : ndThreadWakeup (.mutex m)
        (ndMutexRestorePriority w (takenRemove m s)) with ⟨y, t⟩
      rw [hk] at hw
      cases t with
      | none => exact hw
      | some t =>
        refine Rearms.scheduler ?_
        exact hw.edit rfl rfl

/-- A yield starts no timer of a wait. -/
theorem threadYield_rearms : Rearms Q s (ndThreadYield cfg s) := by
  have hsame : Rearms Q s s := .of_ticks fun _ => rfl
  unfold ndThreadYield
  split
  · exact hsame.edit rfl rfl
  · refine Rearms.scheduler ?_
    exact hsame.edit rfl rfl

/-- A delay starts the timer of the current thread. -/
theorem threadDelay_rearms (n : ℕ) (hQ : ∀ t e, s.current = some t → Q t e) :
    Rearms Q s (ndThreadDelay cfg n s) := by
  have hsame : Rearms Q s s := .of_ticks fun _ => rfl
  unfold ndThreadDelay
  cases hc : s.current with
  | none => exact hsame.edit rfl rfl
  | some w =>
    refine Rearms.scheduler ?_
    intro t e he
    by_cases ht : t = w
    · exact .inr (hQ t e (ht ▸ hc))
    · have hne : TimerId.wait t ≠ .wait w := fun h => ht (TimerId.wait.inj h)
      rw [armed_timerStart hne, armed_updTimer hne] at he
      refine .inl ?_
      split at he
      · simpa [State.armed, ndTimerStop] using he
      · exact he

/-- A call that may wait starts the timer that its body starts. -/
theorem startCall_rearms (c : Call) : Rearms (Starts cfg s c) s (startCall cfg c s) := by
  unfold startCall
  refine Rearms.finish ?_ _ _ _
  intro t e he
  rcases callBody_rearms c _ t e he with h | h
  · exact .inl h
  · refine .inr ⟨h.1, h.2.1, h.2.2.1, fun hl => ?_, h.2.2.2.2⟩
    have := h.2.2.2.1 hl
    cases c <;> exact this

/-- A call made by thread code or by a handler. -/
theorem execOp_rearms {o : Op} (ho : a.op? = some o) (hd : ∀ n, o = .threadDelay n → a = .call o) :
    Rearms (Arms cfg a s) s (execOp cfg o s) := by
  have hsame : Rearms (Arms cfg a s) s s := .of_ticks fun _ => rfl
  cases o with
  | threadCreate b => exact threadCreate_rearms b
  | threadAbort u => exact threadAbort_rearms u
  | threadSuspend t => exact threadSuspend_rearms t
  | threadResume t => exact threadResume_rearms t
  | semRelease i => exact semRelease_rearms i
  | eventSend e set => exact Rearms.scheduler (Rearms.eventVisits e _ _ (hsame.edit rfl rfl))
  | mempoolFree p ptr => exact mempoolFree_rearms p ptr
  | timerInit u periodic timeout callback => exact timerInit_rearms u periodic timeout callback
  | timerStart u => exact .of_ticks fun t => ticks_timerStart (by simp) s
  | timerStop u => exact hsame.stop (.user u)
  | mutexUnlock m => exact mutexUnlock_rearms m
  | threadYield => exact threadYield_rearms
  | threadDelay n => exact threadDelay_rearms n fun t e hc => .inl ⟨hc, n, hd n rfl⟩
  | wait c =>
    intro t e he
    rcases startCall_rearms c t e he with h | h
    · exact .inl h
    · exact .inr (.inr ⟨c, h, .inl ho⟩)

/-- One turn of the loop of `timer_expired`.
kernel/nd_timer.c:97-137 -/
theorem Sound.timerTurn_rearms (hS : Sound cfg s) : Rearms Q s (NerdRtos.timerTurn cfg s) := by
  have hJ := hS.consistent
  have hsame : Rearms Q s s := .of_ticks fun _ => rfl
  unfold NerdRtos.timerTurn
  cases hl : leftmostTimer s with
  | none => exact hsame
  | some u =>
    simp only
    split
    · exact hsame
    have hremoved : ∀ w, Rearms Q s (timerRemove w s) := fun w => hsame.stop w
    cases u with
    | wait t =>
      rw [expireTimer_oneShot (hJ.ok t).oneShot]
      have hone := hremoved (.wait t)
      cases hcb : ((timerRemove (.wait t) s).timers (.wait t)).callback <;>
        simp only [runCallback, hcb]
      case pendTimeout =>
        unfold ndThreadPendTimeout
        refine Rearms.scheduler (Rearms.addTail ?_ t)
        exact hone.edit rfl rfl
      case threadTimer =>
        unfold threadTimerCallback
        simp only
        refine Rearms.scheduler (Rearms.addTail ?_ t)
        split <;> exact hone.edit rfl rfl
      all_goals exact hone
    | slice t =>
      rw [expireTimer_oneShot (hJ.books.sliceOneShot t)]
      have hone := hremoved (.slice t)
      cases hcb : ((timerRemove (.slice t) s).timers (.slice t)).callback <;>
        simp only [runCallback, hcb]
      case sliceTimeout =>
        unfold ndThreadSliceTimeout
        split
        · exact hone
        split
        · exact hone
        · refine Rearms.scheduler ?_
          exact hone.edit rfl rfl
      all_goals exact hone
    | user n =>
      unfold expireTimer
      simp only [runCallback]
      split
      · intro t e he
        refine hremoved (.user n) t e ?_
        have hne : TimerId.wait t ≠ .user n := by simp
        simp only [State.armed, timerNodeInsert_tree, State.updTimer_tree, timerNodeInsert_timers,
          State.updTimer_timers] at he
        rw [Intrusive.Queues.home_link_of_ne _ _ _ hne] at he
        simpa [State.armed] using he
      · exact hremoved (.user n)

/-- **What a step starts.**
kernel/nd_thread.c:95-109, kernel/nd_scheduler.c:321-336 -/
theorem exec_rearms (hS : Sound cfg s) (ha : allowed cfg s a = true) :
    Rearms (Arms cfg a s) s (exec cfg a s) := by
  have hsame : Rearms (Arms cfg a s) s s := .of_ticks fun _ => rfl
  cases a with
  | call o => exact execOp_rearms rfl fun _ _ => rfl
  | irq o =>
    refine execOp_rearms rfl fun n hn => ?_
    subst hn
    cases (irq_allowed ha).2.1
  | resume =>
    obtain ⟨t, hm, hinside⟩ := resume_allowed ha
    obtain ⟨-, -, hcur, -⟩ := threadMode_eq hm
    obtain ⟨c, hcall⟩ := Option.ne_none_iff_exists'.mp hinside
    have hexec : exec cfg .resume s = finishCall (some t) c (callRest cfg c s) := by
      simp only [exec, resumeCall, hcur, hcall]
    rw [hexec]
    refine Rearms.finish ?_ _ _ _
    have hloop : ∀ r, c.loops = true → Rearms (Arms cfg .resume s) s
        (if s.currentError = .etimeout then (s, some r) else callBody cfg c s).1 := by
      intro r hl
      split
      · exact hsame
      · rename_i herr
        intro u e he
        refine (callBody_rearms c s u e he).imp_right fun h => .inr ⟨c, h, .inr ⟨rfl, ?_, hl, ?_⟩⟩
        · have hut : u = t := Option.some.inj (h.1.symm.trans hcur)
          exact hut ▸ hcall
        · simpa [State.currentError, h.1] using herr
    cases c with
    | queueSend | queueRecv | mempoolAlloc => exact hloop _ rfl
    | _ => exact hsame
  | irqEnter => exact hsame.edit rfl rfl
  | timerFire => exact hS.timerTurn_rearms
  | irqExit =>
    show Rearms _ s (irqExit cfg s)
    unfold irqExit
    cases cfg.port with
    | sync =>
      simp only
      unfold ndScheduleIrqExit
      have hexit : Rearms (Arms cfg .irqExit s) s { ndExitInterrupt s with trySwitch := false } :=
        hsame.edit rfl rfl
      split
      · have hpick := hexit.trans (.of_ticks fun t => ticks_pickNext (v := .wait t) _)
        rcases h : ndSchedulePickNext { ndExitInterrupt s with trySwitch := false } with ⟨n, s₁⟩
        rw [h] at hpick
        cases n with
        | none => exact hpick
        | some n => exact hpick.trans (.of_ticks fun t => ticks_contextSwitch _ (by simp) _)
      · exact hsame.edit rfl rfl
    | deferred =>
      simp only
      unfold ndTrySchedule
      split
      · exact hsame.edit rfl rfl
      split
      · have hexit : Rearms (Arms cfg .irqExit s) s { ndExitInterrupt s with trySwitch := false } :=
          hsame.edit rfl rfl
        exact hexit.trans (.of_ticks fun t => ticks_scheduleCore (by simp) _)
      · exact hsame.edit rfl rfl
  | pendsv => exact .of_ticks fun t => ticks_contextSwitch _ (by simp) _
  | advance n => exact hsame.edit rfl rfl
  | write p ptr v => exact hsame.edit rfl rfl
  | start => exact .of_ticks fun t => ticks_contextSwitch _ (by simp) _

end NerdRtos
