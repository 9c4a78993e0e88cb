import NerdRtos.Analysis.Reachable

/-!
# Blocking on the deferred-switch ports

On a deferred port the switch that a critical section asks for happens at `nd_kernel_unlock`,
when PendSV is taken (`land`). `blocks_alike_iff`: a blocking call made in a reachable state pends
at most once, ends, and leaves the state that a sync port reaches at the same point, exactly when
it is not one of the three calls that wait in a loop and has to wait.
-/

set_option autoImplicit false

namespace NerdRtos

variable {cfg : Config} {s : State} {t : Tid}

/-- The same build for a sync port. -/
def Config.onSync (cfg : Config) : Config := { cfg with port := .sync }

/-- The state once interrupts are enabled again: outside of interrupts a pending PendSV is taken at
once.
arch/arm/m3/context.S:21-41 -/
def land (cfg : Config) (s : State) : State :=
  if s.nest = 0 ∧ s.pendsv = true then isrPendsv cfg s else s

/-- The event is an execution of `nd_thread_pend`. -/
def Event.isPend : Event → Bool
  | .pend _ _ _ _ => true
  | _ => false

/-- From `s` to `s'`, `nd_thread_pend` is executed at most once, on a current thread that is running
and on no list. -/
def PendsOnce (s s' : State) : Prop :=
  ∃ new, s'.log = new ++ s.log ∧ (new.filter Event.isPend).length ≤ 1 ∧
    ∀ t k st linked, .pend t k st linked ∈ new → s.current = some t ∧ st = .running ∧ linked = false

/-- What a blocking call does on a deferred port as it does on a sync port: its critical section
ends, it executes `nd_thread_pend` at most once, and the state at `nd_kernel_unlock` is the
one that a sync port reaches. -/
structure BlocksAlike (cfg : Config) (s : State) (c : Call) : Prop where
  completes : (startCall cfg c s).fault = false
  pends : PendsOnce s (startCall cfg c s)
  same : land cfg (startCall cfg c s) = startCall cfg.onSync c s

/-- The rule for a build: every blocking call made in a reachable state, by a thread or by an
interrupt handler, does what it does on a sync port. -/
def BlockingRule (cfg : Config) : Prop :=
  ∀ s c, (kernel cfg).Reach Machine.Always s →
    allowed cfg s (.call (.wait c)) = true ∨ allowed cfg s (.irq (.wait c)) = true →
    BlocksAlike cfg s c

/-! ## The switch commutes with the history -/

/-- Another history. -/
@[simps] def State.withHistory (s : State) (l : List Event) (k : Tid → Option Call) : State :=
  { s with log := l, calls := k }

section History

variable (l : List Event) (k : Tid → Option Call)

/-- Taking a thread off its ready list does not look at the history. -/
theorem readyRemove_withHistory (n : Tid) (s : State) :
    ndThreadReadyRemove n (s.withHistory l k) = (ndThreadReadyRemove n s).withHistory l k := by
  unfold ndThreadReadyRemove
  by_cases h : ndThreadPriorityMax ≤ (s.threads n).priority
  · simp only [State.withHistory_threads, if_pos h]
  · simp only [State.withHistory_threads, if_neg h]
    by_cases he : (s.listRemove n).listIsEmpty (.ready (s.threads n).priority) = true
    · have he' : ((s.withHistory l k).listRemove n).listIsEmpty
          (.ready (s.threads n).priority) = true := he
      rw [if_pos he, if_pos he']
      rfl
    · have he' : ¬ ((s.withHistory l k).listRemove n).listIsEmpty
          (.ready (s.threads n).priority) = true := he
      rw [if_neg he, if_neg he']
      rfl

/-- Starting a timer does not look at the history. -/
theorem timerStart_withHistory (u : TimerId) (s : State) :
    (ndTimerStart cfg u (s.withHistory l k)).1 = (ndTimerStart cfg u s).1.withHistory l k := by
  by_cases h : (s.timers u).callback = .none
  · rw [timerStart_refused cfg h, timerStart_refused cfg (s := s.withHistory l k) h]
  · rw [timerStart_eq cfg h, timerStart_eq cfg (s := s.withHistory l k) h]
    rfl

/-- Settling a slice does not look at the history. -/
theorem settleSlice_withHistory (n : Tid) (now : ℕ) (s : State) :
    settleSlice n now (s.withHistory l k) = (settleSlice n now s).withHistory l k := by
  by_cases h : (s.threads n).timeSlice = 0
  · unfold settleSlice
    rw [if_neg (by simpa using h), if_neg (by simpa using h)]
  · rw [settleSlice_eq now h, settleSlice_eq (s := s.withHistory l k) now h]
    rfl

/-- Starting a slice does not look at the history. -/
theorem startSlice_withHistory (n : Tid) (now : ℕ) (s : State) :
    startSlice cfg n now (s.withHistory l k) = (startSlice cfg n now s).withHistory l k := by
  unfold startSlice
  by_cases h : (s.threads n).timeSlice ≠ 0 ∧ (s.threads n).priority < ndThreadPriorityMax ∧
      ¬ s.listIsEmpty (.ready (s.threads n).priority) = true
  · have h' : ((s.withHistory l k).threads n).timeSlice ≠ 0 ∧
        ((s.withHistory l k).threads n).priority < ndThreadPriorityMax ∧
        ¬ (s.withHistory l k).listIsEmpty (.ready ((s.withHistory l k).threads n).priority) := h
    rw [if_pos h, if_pos h']
    simp only
    by_cases hr : (s.threads n).sliceLeft = 0 ∨ (s.threads n).timeSlice < (s.threads n).sliceLeft
    · have hr' : ((s.withHistory l k).threads n).sliceLeft = 0 ∨
          ((s.withHistory l k).threads n).timeSlice <
            ((s.withHistory l k).threads n).sliceLeft := hr
      rw [if_pos hr, if_pos hr', ← timerStart_withHistory]
      rfl
    · have hr' : ¬ (((s.withHistory l k).threads n).sliceLeft = 0 ∨
          ((s.withHistory l k).threads n).timeSlice <
            ((s.withHistory l k).threads n).sliceLeft) := hr
      rw [if_neg hr, if_neg hr', ← timerStart_withHistory]
      rfl
  · have h' : ¬ (((s.withHistory l k).threads n).timeSlice ≠ 0 ∧
        ((s.withHistory l k).threads n).priority < ndThreadPriorityMax ∧
        ¬ (s.withHistory l k).listIsEmpty (.ready ((s.withHistory l k).threads n).priority)) := h
    rw [if_neg h, if_neg h']
    by_cases hts : (s.threads n).timeSlice ≠ 0
    · have hts' : ((s.withHistory l k).threads n).timeSlice ≠ 0 := hts
      rw [if_pos hts, if_pos hts']
      rfl
    · have hts' : ¬ ((s.withHistory l k).threads n).timeSlice ≠ 0 := hts
      rw [if_neg hts, if_neg hts']

/-- The switch does not look at the history. -/
theorem switch_withHistory (next : Option Tid) (s : State) :
    ndContextSwitchCb cfg next (s.withHistory l k) =
      (ndContextSwitchCb cfg next s).withHistory l k := by
  cases next with
  | none => rfl
  | some n =>
    unfold ndContextSwitchCb
    simp only [readyRemove_withHistory, State.withHistory_current]
    cases s.current with
    | none =>
      rw [← startSlice_withHistory]
      rfl
    | some c =>
      simp only [settleSlice_withHistory]
      rw [← startSlice_withHistory]
      rfl

/-- Neither does the PendSV handler. -/
theorem land_withHistory (s : State) :
    land cfg (s.withHistory l k) = (land cfg s).withHistory l k := by
  unfold land
  by_cases h : s.nest = 0 ∧ s.pendsv = true
  · have h' : (s.withHistory l k).nest = 0 ∧ (s.withHistory l k).pendsv = true := h
    rw [if_pos h, if_pos h']
    exact switch_withHistory l k s.next { s with pendsv := false }
  · have h' : ¬ ((s.withHistory l k).nest = 0 ∧ (s.withHistory l k).pendsv = true) := h
    rw [if_neg h, if_neg h']

end History

/-- With no switch pending there is nothing to land. -/
theorem land_idle (h : s.nest = 0 → s.pendsv = false) : land cfg s = s := by
  unfold land
  rw [if_neg]
  rintro ⟨hn, hp⟩
  rw [h hn] at hp
  cases hp

/-- The outcome of the scheduler, landed, is that of a sync port.
kernel/nd_scheduler.c:151-162, 227-235, arch/arm/m3/context.S:21-41 -/
theorem land_ndScheduler (hport : cfg.port = .deferred) (h : s.nest = 0 → s.pendsv = false) :
    land cfg (ndScheduler cfg s) = ndScheduler cfg.onSync s := by
  unfold ndScheduler
  by_cases hn : 0 < s.nest
  · rw [if_pos hn, if_pos hn]
    exact land_idle fun h0 => absurd h0 hn.ne'
  · rw [if_neg hn, if_neg hn]
    have hn0 : s.nest = 0 := by omega
    obtain ⟨ho, hf⟩ := ndSchedulePickNext_unseen s
    unfold ndScheduleCore
    cases hpick : ndSchedulePickNext s with
    | mk next s' =>
      rw [hpick] at ho hf
      have hp : s'.pendsv = false := (congrArg Flags.pendsv hf :).trans (h hn0)
      have hn' : s'.nest = 0 := (congrArg Flags.nest hf :).trans hn0
      cases next with
      | none => exact land_idle fun _ => hp
      | some n =>
        simp only [ndHwDoSwitch, hport]
        have hsame : ({ s' with next := some n, pendsv := false } : State) =
            { s' with next := some n } := by
          rw [← hp]
        unfold land
        rw [if_pos ⟨hn', rfl⟩]
        show ndContextSwitchCb cfg (some n) { s' with next := some n, pendsv := false } = _
        rw [hsame]
        rfl

/-! ## The bodies of the calls -/

/-- A body of a call that ends: its results on the two kinds of ports, and its executions of
`nd_thread_pend`. -/
structure Alike (cfg : Config) (s : State) (x x' : State × Option Ret) : Prop where
  result : x.2 = x'.2
  landed : land cfg x.1 = x'.1
  pends : PendsOnce s x.1

/-- Events that are no executions of `nd_thread_pend`. -/
theorem PendsOnce.of_quiet {s' : State} {new : List Event} (hlog : s'.log = new ++ s.log)
    (hq : ∀ e ∈ new, e.isPend = false) : PendsOnce s s' := by
  refine ⟨new, hlog, ?_, fun t k st linked h => ?_⟩
  · rw [List.filter_eq_nil_iff.mpr fun e he => by simp [hq e he]]
    exact Nat.zero_le _
  · cases hq _ h

/-- A call that does not reach the scheduler. -/
theorem Alike.now {s' : State} {l : List Event} (r : Option Ret)
    (hp : s'.nest = 0 → s'.pendsv = false) (hlog : s'.log = l ++ s.log)
    (hq : ∀ e ∈ l, e.isPend = false) : Alike cfg s (s', r) (s', r) :=
  ⟨rfl, land_idle hp, .of_quiet hlog hq⟩

/-- A call that waits.
kernel/nd_thread.c:95-109 -/
theorem Alike.block (hport : cfg.port = .deferred) (hS : Sound cfg s) (h : threadMode s = some t)
    (k : QHead) (n : ℕ) :
    Alike cfg s (ndScheduler cfg (ndThreadPend cfg k n s), none)
      (ndScheduler cfg.onSync (ndThreadPend cfg.onSync k n s), none) := by
  obtain ⟨hn, hp, hc, -⟩ := threadMode_eq h
  have hrun := hS.runs h
  have hflags := flags_ndThreadPend cfg hc k n
  have hfree := hS.consistent.home_none (t := t) (by rw [hrun]; decide) (by rw [hrun]; decide)
  have hlog : (ndScheduler cfg (ndThreadPend cfg k n s)).log =
      [.pend t k .running false] ++ s.log := by
    have hoff := (ndScheduler_deferred hport (ndThreadPend cfg k n s)).1
    have hl := (congrArg State.log hoff : (ndScheduler cfg _).offCpu.log = _)
    refine Eq.trans hl ?_
    show (ndThreadPend cfg k n s).log = _
    rw [ndThreadPend_eq hc]
    unfold startWaitTimer
    split
    · rw [timerStart_eq cfg (by simp)]
      simp [hrun, State.isLinked, hfree]
    · simp [hrun, State.isLinked, hfree]
  refine ⟨rfl, ?_, _, hlog, le_rfl, fun u k' st linked hm => ?_⟩
  · exact land_ndScheduler hport fun _ => (congrArg Flags.pendsv hflags).trans hp
  · rw [List.mem_singleton] at hm
    cases hm
    exact ⟨hc, rfl, rfl⟩

/-- Waking a thread does not change the history. -/
theorem log_wakeup (h : QHead) (s : State) : (ndThreadWakeup h s).1.log = s.log := by
  unfold ndThreadWakeup
  split
  · rfl
  · unfold ndThreadReadyAddTail
    simp only
    split <;> rfl

/-- A call that wakes a waiter and returns.
kernel/nd_queue.c:58-62 -/
theorem Alike.wake (hport : cfg.port = .deferred) {s' : State} (k : QHead) (r : Option Ret)
    (hp : s'.nest = 0 → s'.pendsv = false) {l : List Event} (hlog : s'.log = l ++ s.log)
    (hq : ∀ e ∈ l, e.isPend = false) :
    Alike cfg s (wakeupIfAny cfg k s', r) (wakeupIfAny cfg.onSync k s', r) := by
  unfold wakeupIfAny
  by_cases he : s'.listIsEmpty k = true
  · rw [if_pos he, if_pos he]
    exact .now r hp hlog hq
  · rw [if_neg he, if_neg he]
    have hflags := flags_wakeup k s'
    have hl₁ := (log_wakeup k s').trans hlog
    rcases hwk : ndThreadWakeup k s' with ⟨s₁, o⟩
    rw [hwk] at hflags hl₁
    have hn : s₁.nest = s'.nest := congrArg Flags.nest hflags
    have hpp : s₁.pendsv = s'.pendsv := congrArg Flags.pendsv hflags
    have hp₁ : s₁.nest = 0 → s₁.pendsv = false := fun h0 => by rw [hpp]; exact hp (hn ▸ h0)
    cases o with
    | none => exact .now r hp₁ hl₁ hq
    | some t =>
      refine ⟨rfl, land_ndScheduler hport hp₁, ?_⟩
      have hoff := (ndScheduler_deferred hport (s₁.emit (.woken t k))).1
      have hl := (congrArg State.log hoff : (ndScheduler cfg _).offCpu.log = _)
      have hnew : (ndScheduler cfg (s₁.emit (.woken t k))).log = (.woken t k :: l) ++ s.log := by
        refine Eq.trans hl ?_
        show .woken t k :: s₁.log = _
        rw [hl₁]
        rfl
      refine .of_quiet hnew fun e hmem => ?_
      rcases List.mem_cons.mp hmem with rfl | hmem
      · rfl
      · exact hq e hmem

/-- The priority inheritance of `nd_mutex_lock` is invisible to the scheduling flags and the
history.
kernel/nd_mutex.c:89-92 -/
theorem boostOwner_quiet (m : Mid) (o c : Tid) (s : State) :
    (boostOwner m o c s).sched = s.sched ∧ (boostOwner m o c s).log = s.log := by
  unfold boostOwner
  by_cases hlt : (s.threads c).priority < (s.threads o).priority
  · simp only [if_pos hlt]
    unfold ndThreadChangePriority ndThreadReadyAddHead ndThreadReadyRemove
    simp only
    split_ifs <;> exact ⟨rfl, rfl⟩
  · simp only [if_neg hlt, and_self]

/-- The body of a blocking call that does not have to wait in a loop. -/
theorem callBody_alike (hport : cfg.port = .deferred) (hS : Sound cfg s) {c : Call}
    (hctx : (Op.wait c).fromIrq = true ∨ ∃ t, threadMode s = some t)
    (hp : s.nest = 0 → s.pendsv = false) (hloop : ¬ c.mustLoop s) :
    Alike cfg s (callBody cfg c s) (callBody cfg.onSync c s) := by
  have hnil : ∀ {x : State}, x.log = s.log → x.log = [] ++ s.log := fun h => h
  have hno : ∀ e ∈ ([] : List Event), e.isPend = false := fun _ h => by cases h
  cases c with
  | semTake i n =>
    simp only [callBody, ndSemTake]
    split
    · exact .now (l := [.semTaken s.caller i]) _ hp rfl (by simp [Event.isPend])
    split
    · exact .now _ hp (hnil rfl) hno
    · rename_i hn
      obtain ⟨t, ht⟩ := hctx.resolve_left (by simpa [Op.fromIrq] using hn)
      exact .block hport hS ht _ n
  | mutexLock m n =>
    obtain ⟨t, ht⟩ := hctx.resolve_left (by simp [Op.fromIrq])
    obtain ⟨-, -, hc, -⟩ := threadMode_eq ht
    simp only [callBody, ndMutexLock, hc]
    cases ho : (s.mutexes m).owner with
    | none => exact .now _ hp (hnil rfl) hno
    | some o =>
      simp only
      by_cases hoc : o = t
      · simp only [if_pos hoc]
        exact .now _ hp (hnil rfl) hno
      · simp only [if_neg hoc]
        obtain ⟨hK, ht'⟩ := hS.boost (C := True) ht (m := m) hoc
        obtain ⟨hsched, hlog⟩ := boostOwner_quiet m o t s
        have hc' : (boostOwner m o t s).current = s.current := (congrArg Prod.fst hsched :)
        have hn' : (boostOwner m o t s).nest = s.nest := (congrArg (fun x => x.2.1) hsched :)
        have hp' : (boostOwner m o t s).pendsv = s.pendsv :=
          (congrArg (fun x => x.2.2.2) hsched :)
        split
        · exact .now _ (fun h0 => by rw [hp']; exact hp (hn' ▸ h0)) (hnil hlog) hno
        · have hA := Alike.block hport hK.sound ht' (.mutex m) n
          obtain ⟨new, hl, hone, hall⟩ := hA.pends
          exact ⟨rfl, hA.landed, new, hl.trans (by rw [hlog]), hone,
            fun u k st linked hm => hc' ▸ hall u k st linked hm⟩
  | queueSend q msg n =>
    simp only [callBody]
    unfold ndQueueSend loopTurns
    by_cases hfull : (s.msgQueues q).usedMsg = (s.msgQueues q).maxMsgs
    · have hn : n = ndTimeoutNowait := by
        by_contra hn
        exact hloop ⟨hn, hfull⟩
      simp only [if_pos hfull, if_pos hn]
      exact .now _ hp (hnil rfl) hno
    · simp only [if_neg hfull]
      exact .wake hport _ _ hp (l := [.msgSent q _]) rfl (by simp [Event.isPend])
  | queueRecv q n =>
    simp only [callBody]
    unfold ndQueueRecv loopTurns
    by_cases hempty : (s.msgQueues q).usedMsg = 0
    · have hn : n = ndTimeoutNowait := by
        by_contra hn
        exact hloop ⟨hn, hempty⟩
      simp only [if_pos hempty, if_pos hn]
      exact .now _ hp (hnil rfl) hno
    · simp only [if_neg hempty]
      exact .wake hport _ _ hp (l := [.msgReceived q _]) rfl (by simp [Event.isPend])
  | eventRecv e set opt n =>
    obtain ⟨t, ht⟩ := hctx.resolve_left (by simp [Op.fromIrq])
    obtain ⟨-, -, hc, -⟩ := threadMode_eq ht
    simp only [callBody, ndEventRecv, hc]
    split
    · exact .now (l := [.eventTaken _ e _ _ _]) _ hp rfl (by simp [Event.isPend])
    split
    · exact .now _ hp (hnil rfl) hno
    · have hK : Kept cfg True s (s.updThread t fun th =>
        { th with eventSet := set, eventOpt := opt }) := .inert hS {}
      have hA := Alike.block hport hK.sound (t := t) ht (.event e) n
      exact ⟨rfl, hA.landed, hA.pends⟩
  | mempoolAlloc p n =>
    simp only [callBody]
    unfold ndMempoolAlloc loopTurns
    by_cases hempty : (s.pools p).freeCount = 0
    · have hn : n = ndTimeoutNowait := by
        by_contra hn
        exact hloop ⟨hn, hempty⟩
      simp only [if_pos hempty, if_pos hn]
      exact .now _ hp (hnil rfl) hno
    · simp only [if_neg hempty]
      exact .now _ hp (hnil rfl) hno
  | threadJoin x n =>
    obtain ⟨t, ht⟩ := hctx.resolve_left (by simp [Op.fromIrq])
    simp only [callBody]
    unfold ndThreadJoin
    cases x with
    | none => exact .now _ hp (hnil rfl) hno
    | some u =>
      simp only
      split
      · exact .now _ hp (hnil rfl) hno
      split
      · exact .now _ hp (hnil rfl) hno
      split
      · exact .now _ hp (hnil rfl) hno
      · exact .block hport hS ht _ n

/-! ## The calls -/

/-- The record of the outcome commutes with the switch. -/
theorem Alike.finish {x x' : State × Option Ret} (h : Alike cfg s x x') {who : Option Tid}
    (c : Call) (hf : (finishCall who c x).fault = false) :
    PendsOnce s (finishCall who c x) ∧
      land cfg (finishCall who c x) = finishCall who c x' := by
  obtain ⟨s₁, r⟩ := x
  obtain ⟨s₂, r'⟩ := x'
  obtain ⟨hr, hl, new, hlog, hone, hall⟩ := h
  obtain rfl : r = r' := hr
  obtain rfl : land cfg s₁ = s₂ := hl
  have hret : ∀ w q, PendsOnce s (s₁.withHistory (.ret w c q :: s₁.log) (s₁.calls)) := by
    intro w q
    refine ⟨.ret w c q :: new, congrArg (_ :: ·) hlog, by simpa [Event.isPend] using hone, ?_⟩
    intro t k st linked hm
    exact hall t k st linked (by simpa using hm)
  have hland : (land cfg s₁).log = s₁.log ∧ (land cfg s₁).calls = s₁.calls := by
    have hw : land cfg (s₁.withHistory s₁.log s₁.calls) =
        (land cfg s₁).withHistory s₁.log s₁.calls := land_withHistory s₁.log s₁.calls s₁
    have hs : s₁.withHistory s₁.log s₁.calls = s₁ := rfl
    rw [hs] at hw
    exact ⟨(congrArg State.log hw :), (congrArg State.calls hw :)⟩
  cases r with
  | none =>
    cases who with
    | none => cases hf
    | some t =>
      refine ⟨⟨new, hlog, hone, hall⟩, ?_⟩
      refine (land_withHistory s₁.log (Function.update s₁.calls t (some c)) s₁).trans ?_
      rw [← hland.1, ← hland.2]
      rfl
  | some q =>
    cases who with
    | none =>
      refine ⟨hret none q, ?_⟩
      refine (land_withHistory (.ret none c q :: s₁.log) s₁.calls s₁).trans ?_
      rw [← hland.1, ← hland.2]
      rfl
    | some t =>
      refine ⟨hret (some t) q, ?_⟩
      refine (land_withHistory (.ret (some t) c q :: s₁.log)
        (Function.update s₁.calls t none) s₁).trans ?_
      rw [← hland.1, ← hland.2]
      rfl

/-- What `allowed` says about the context of a blocking call. -/
theorem context_of_allowed {c : Call} (hS : Sound cfg s)
    (h : allowed cfg s (.call (.wait c)) = true ∨ allowed cfg s (.irq (.wait c)) = true) :
    (Op.wait c).valid s = true ∧
      ((Op.wait c).fromIrq = true ∨ ∃ t, threadMode s = some t) ∧
      (s.nest = 0 → s.pendsv = false) := by
  rcases h with h | h
  · refine ⟨(call_allowed h).1, context_of_call h, fun _ => ?_⟩
    rcases (call_allowed h).2 with ⟨t, ht, -⟩ | ⟨hmain, -⟩
    · exact (threadMode_eq ht).2.1
    · exact (hS.settled.main hmain).2
  · obtain ⟨hn, hirq, hv⟩ := irq_allowed h
    exact ⟨hv, .inl hirq, fun h0 => absurd h0 hn.ne'⟩

/-- **Blocking works the same on the deferred-switch ports**, exactly for the calls that do not
have to wait in a loop.
kernel/nd_queue.c:31-105, kernel/nd_mempool.c:36-62, kernel/nd_thread.c:81-109 -/
theorem blocks_alike_iff {c : Call} (hport : cfg.port = .deferred)
    (h : (kernel cfg).Reach Machine.Always s)
    (ha : allowed cfg s (.call (.wait c)) = true ∨ allowed cfg s (.irq (.wait c)) = true) :
    BlocksAlike cfg s c ↔ ¬ c.mustLoop s := by
  have hS := reach_sound h
  obtain ⟨hv, hctx, hp⟩ := context_of_allowed hS ha
  constructor
  · intro hB
    have hbody := fault_finishCall _ _ hB.completes
    exact not_mustLoop (s := s.emit (.call s.caller c s.clock)) hctx hport hbody
  · intro hloop
    have hS' : Sound cfg (s.emit (.call s.caller c s.clock)) :=
      (Kept.of_bare (C := True) (y := s.emit _) hS rfl).sound
    have hA := callBody_alike hport hS' (c := c) hctx hp hloop
    have hK := hS.startCall (C := True) hv hctx fun _ => hloop
    have hf : (startCall cfg c s).fault = false := hK.sound.consistent.books.noFault
    obtain ⟨⟨new, hlog, hone, hall⟩, hsame⟩ := hA.finish c hf
    refine ⟨hf, ⟨new ++ [.call s.caller c s.clock], ?_, ?_, ?_⟩, hsame⟩
    · exact hlog.trans (by simp)
    · simpa [List.filter_append, Event.isPend] using hone
    · intro t k st linked hm
      exact hall t k st linked (by simpa using hm)

/-- One thread runs, and nothing has happened yet. -/
def quietRun : List Action := [spawn 1 5, .start]

/-- A take of an empty semaphore blocks alike. -/
theorem blocks_alike_iff_run :
    ∃ s, (kernel deferredPort).run quietRun (boot deferredPort {}) = some s ∧
      BlocksAlike deferredPort s (.semTake 0 100) := by
  obtain ⟨s, hs, hp⟩ := (kernel deferredPort).exists_run (l := quietRun)
    (s := boot deferredPort {})
    (p := fun s => allowed deferredPort s (.call (.wait (.semTake 0 100)))) (by decide +kernel)
  exact ⟨s, hs, (blocks_alike_iff rfl (reach_run hs) (.inl hp)).mpr id⟩

/-- A receive on an empty message queue executes `nd_thread_pend` again, on the thread that is
already blocked and linked. -/
theorem recv_breaks_rule : ¬ BlockingRule deferredPort := by
  intro hrule
  obtain ⟨s, hs, hp⟩ := (kernel deferredPort).exists_run (l := quietRun)
    (s := boot deferredPort {})
    (p := fun s => allowed deferredPort s (.call (.wait (.queueRecv 0 ndTimeoutForever))) ∧
      s.log = [] ∧ (startCall deferredPort (.queueRecv 0 ndTimeoutForever) s).log =
        [.pend 1 (.queueRead 0) .block true, .pend 1 (.queueRead 0) .running false,
          .call (some 1) (.queueRecv 0 ndTimeoutForever) 0])
    (by decide +kernel)
  simp only [decide_eq_true_eq] at hp
  obtain ⟨hen, hnil, hlog⟩ := hp
  obtain ⟨new, hnew, -, hall⟩ := (hrule s _ (reach_run hs) (.inl hen)).pends
  rw [hnil, hlog, List.append_nil] at hnew
  obtain ⟨-, hst, -⟩ := hall 1 (.queueRead 0) .block true (by simp [← hnew])
  cases hst

end NerdRtos
