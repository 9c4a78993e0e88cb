import NerdRtos.Analysis.Blocking

/-!
# Every reachable state

`Sound.exec`: each action that the kernel allows keeps the invariant, unless it faults. The run
lemmas carry the invariant to every reachable state (`reach_sound`), and the absence of an
outranked current thread along the runs whose steps are `Prompt` (`reach_ruled`). At the end stand
the builds and the calls that the examples of the other modules run.
-/

set_option autoImplicit false

namespace NerdRtos

variable {cfg : Config} {C : Prop} {s s' : State} {t : Tid}

/-! ## Calls from beginning to end -/

/-- A fault of the body of a call is a fault of the call. -/
theorem fault_finishCall (who : Option Tid) (c : Call) {x : State × Option Ret}
    (h : (finishCall who c x).fault = false) : x.1.fault = false := by
  obtain ⟨s, r⟩ := x
  cases r <;> cases who
  · cases h
  · exact h
  · exact h
  · exact h

/-- The record of the outcome changes the history only. -/
theorem Returned.finish {x : State × Option Ret} (h : Returned cfg C s x) {who : Option Tid}
    (c : Call) (hwho : ∀ t, threadMode s = some t → who ≠ none) :
    Kept cfg C s (finishCall who c x) := by
  obtain ⟨s₁, r⟩ := x
  cases r with
  | none =>
    obtain ⟨t, ht⟩ := h.waits rfl
    obtain ⟨w, hw⟩ := Option.ne_none_iff_exists'.mp (hwho t ht)
    subst hw
    exact h.kept.trans (.of_bare h.kept.sound rfl)
  | some r =>
    cases who with
    | none => exact h.kept.trans (.of_bare h.kept.sound rfl)
    | some w => exact h.kept.trans (.of_bare h.kept.sound rfl)

/-- The body of a blocking call. -/
theorem Sound.callBody (hS : Sound cfg s) {c : Call} (hv : (Op.wait c).valid s = true)
    (hctx : (Op.wait c).fromIrq = true ∨ ∃ t, threadMode s = some t)
    (hf : cfg.port = .deferred → ¬ c.mustLoop s) : Returned cfg C s (callBody cfg c s) := by
  have hmay : ∀ n, (decide (n = ndTimeoutNowait) = true ∨ ∃ t, threadMode s = some t) →
      MayWait s n := fun n h => h.imp_left of_decide_eq_true
  cases c with
  | semTake i n => exact hS.semTake (hmay n hctx) i
  | mutexLock m n =>
    obtain ⟨t, ht⟩ := hctx.resolve_left (by simp [Op.fromIrq])
    exact hS.mutexLock ht m n
  | queueSend q msg n => exact hS.queueSend (hmay n hctx) hf
  | queueRecv q n => exact hS.queueRecv (hmay n hctx) hf
  | eventRecv e set opt n =>
    obtain ⟨t, ht⟩ := hctx.resolve_left (by simp [Op.fromIrq])
    exact hS.eventRecv ht e set opt n
  | mempoolAlloc p n => exact hS.mempoolAlloc (hmay n hctx) hf
  | threadJoin x n =>
    obtain ⟨t, ht⟩ := hctx.resolve_left (by simp [Op.fromIrq])
    exact hS.threadJoin ht hv

/-- A call that ends its critical section on a deferred port did not have to loop. -/
theorem not_mustLoop {c : Call} (hctx : (Op.wait c).fromIrq = true ∨ ∃ t, threadMode s = some t)
    (hport : cfg.port = .deferred) (hf : (NerdRtos.callBody cfg c s).1.fault = false) :
    ¬ c.mustLoop s := by
  intro hloop
  have hc : s.current ≠ none := by
    rcases hctx with h | ⟨t, ht⟩
    · cases c <;> simp_all [Op.fromIrq, Call.mustLoop]
    · rw [(threadMode_eq ht).2.2.1]
      simp
  rw [mustLoop_faults hport hc hloop] at hf
  cases hf

/-- A blocking call from its beginning. -/
theorem Sound.startCall (hS : Sound cfg s) {c : Call} (hv : (Op.wait c).valid s = true)
    (hctx : (Op.wait c).fromIrq = true ∨ ∃ t, threadMode s = some t)
    (hf : cfg.port = .deferred → ¬ c.mustLoop s) : Kept cfg C s (startCall cfg c s) := by
  have hK : Kept cfg C s (s.emit (.call s.caller c s.clock)) := .of_bare hS rfl
  refine hK.trans ((hK.sound.callBody hv hctx hf).finish c fun t ht => ?_)
  obtain ⟨hn, -, hc, -⟩ := threadMode_eq (s := s) ht
  simp [State.caller, hn, hc]

/-- The rest of a blocking call. -/
theorem Sound.callRest (hS : Sound cfg s) (ht : threadMode s = some t) (c : Call)
    (hf : cfg.port = .deferred → (callRest cfg c s).1.fault = false) :
    Returned cfg C s (callRest cfg c s) := by
  have hloop : ∀ r, ((Op.wait c).valid s = true) →
      (cfg.port = .deferred → (if s.currentError = .etimeout then (s, some r)
        else NerdRtos.callBody cfg c s).1.fault = false) →
      Returned cfg C s (if s.currentError = .etimeout then (s, some r)
        else NerdRtos.callBody cfg c s) := by
    intro r hv hf'
    by_cases he : s.currentError = .etimeout
    · rw [if_pos he]
      exact .now hS rfl _
    · rw [if_neg he] at hf' ⊢
      exact hS.callBody hv (.inr ⟨t, ht⟩) fun hp => not_mustLoop (.inr ⟨t, ht⟩) hp (hf' hp)
  cases c with
  | queueSend q msg n => exact hloop _ rfl hf
  | queueRecv q n => exact hloop _ rfl hf
  | mempoolAlloc p n => exact hloop _ rfl hf
  | semTake i n => exact .now hS rfl _
  | mutexLock m n => exact .now hS rfl _
  | eventRecv e set opt n => exact .now hS rfl _
  | threadJoin x n => exact .now hS rfl _

/-- The current thread goes on with its call. -/
theorem Sound.resumeCall (hS : Sound cfg s) (ht : threadMode s = some t) (hc : s.calls t ≠ none)
    (hf : cfg.port = .deferred → (resumeCall cfg s).fault = false) :
    Kept cfg C s (resumeCall cfg s) := by
  obtain ⟨-, -, hcur, -⟩ := threadMode_eq ht
  obtain ⟨c, hc'⟩ := Option.ne_none_iff_exists'.mp hc
  unfold NerdRtos.resumeCall at hf ⊢
  simp only [hcur, hc'] at hf ⊢
  exact (hS.callRest ht c fun hp => fault_finishCall _ _ (hf hp)).finish c fun _ _ => by simp

/-! ## Timers and interrupts -/

/-- The end of a slice.
kernel/nd_scheduler.c:237-257 -/
theorem Sound.sliceTimeout (hS : Sound cfg s) (t : Tid) :
    Kept cfg C s (ndThreadSliceTimeout cfg t s) := by
  unfold ndThreadSliceTimeout
  split
  · exact .refl hS
  split
  · exact .refl hS
  · exact .reschedule hS (hS.consistent.inert {}) rfl

/-- A timer that is not a wait timer stops. -/
theorem Sound.removeTimer (hS : Sound cfg s) {u : TimerId} (hu : ∀ t, u ≠ .wait t) :
    Kept cfg C s (timerRemove u s) := by
  have hJ := hS.consistent
  refine .quiet hS (hJ.of_timers rfl (fun t => ?_) (fun _ => rfl) (fun t ht => ?_)
    hJ.books.sliceOneShot) rfl (fun _ _ => id) fun _ _ _ _ _ => id
  · simp [(hu t).symm]
  · refine hJ.books.slices t ?_
    by_cases he : TimerId.slice t = u
    · subst he
      simp [State.isArmed] at ht
    · simpa [State.isArmed, he] using ht

/-- Inserting a timer that is not armed changes timers only. -/
theorem untimed_timerNodeInsert {u : TimerId} (h : s.tree.home u = none) :
    (timerNodeInsert u s).untimed = s.untimed := by
  unfold State.untimed timerNodeInsert
  simp only [h, Option.isSome_none, Bool.or_false]

/-- One turn of the loop of `timer_expired`.
kernel/nd_timer.c:97-137 -/
theorem Sound.timerTurn (hS : Sound cfg s) : Kept cfg C s (timerTurn cfg s) := by
  have hJ := hS.consistent
  unfold NerdRtos.timerTurn leftmostTimer
  cases hl : (s.tree.lists ()).head? with
  | none => exact .refl hS
  | some u =>
    simp only
    split
    · exact .refl hS
    have ha : s.isArmed u = true := by
      simp [State.isArmed, s.tree.home_of_head hl]
    cases u with
    | wait t =>
      have hst := hJ.block_of_armed ha
      have hcb : (s.timers (.wait t)).callback = .pendTimeout ∨
          (s.timers (.wait t)).callback = .threadTimer := by
        rcases hJ.blocked hst with ⟨_, _, _, h⟩ | ⟨_, _, h⟩
        · exact .inl (h ha)
        · exact .inr h
      rcases hcb with hcb | hcb
      · rw [expireTimer_pend hJ ha hcb]
        exact .reschedule hS (hJ.readied_of (.inl hst) rfl rfl rfl rfl rfl) rfl
      · rw [expireTimer_delay hJ ha hcb]
        refine .reschedule hS (hJ.readied_of (.inl hst) ?_ ?_ ?_ ?_ ?_) rfl <;>
          (unfold delayEdit; split <;> rfl)
    | slice t =>
      rw [expireTimer_oneShot (hJ.books.sliceOneShot t)]
      have hK : Kept cfg C s (timerRemove (.slice t) s) := hS.removeTimer (by simp)
      cases hcb : ((timerRemove (.slice t) s).timers (.slice t)).callback <;>
        simp only [runCallback, hcb]
      case sliceTimeout => exact hK.trans (hK.sound.sliceTimeout t)
      all_goals exact hK
    | user n =>
      have hK : Kept cfg C s (timerRemove (.user n) s) := hS.removeTimer (by simp)
      have hcall : ∀ x, runCallback cfg (.user n) x = x := fun _ => rfl
      unfold expireTimer
      simp only [hcall]
      split
      · refine .userTimer hS ?_ (fun v hv => ?_) fun v hv => ?_
        · rw [untimed_timerNodeInsert (by simp)]
          rfl
        · rw [timerNodeInsert_tree, State.updTimer_tree, timerRemove_tree]
          rw [Intrusive.Queues.home_link_of_ne _ _ _ (hv n)]
          simp [hv n]
        · simp [hv n]
      · exact hK

/-- What scheduling with no request held back leaves behind. -/
theorem Scheduled.kept {s₁ : State} (h : Scheduled cfg ∅ s₁ s') (ht : s₁.trySwitch = false)
    (hc : s₁.current ≠ none) (hO : Owned s₁) : Kept cfg C s s' := by
  have hflag : s'.trySwitch = false := h.trySwitch.trans ht
  refine ⟨⟨h.consistent, ⟨⟨fun _ => hflag, h.pendsv, fun hn => ?_⟩, fun c hc hp _ => ?_⟩,
    hO.of_offCpu h.offCpu⟩, fun _ _ c hc hp _ => (h.runs c hc hp).2⟩
  · exact absurd (h.started.mp hn) hc
  · exact (h.runs c hc hp).1

/-- `nd_exit_interrupt`, with no request held back or with the interrupt nested in another. -/
theorem Sound.exitInterrupt (hS : Sound cfg s) (hc : s.current ≠ none)
    (h : s.trySwitch = false ∨ 0 < (ndExitInterrupt s).nest) :
    Kept cfg C s (ndExitInterrupt s) := by
  refine ⟨⟨hS.consistent.of_core rfl, ⟨⟨fun hn => ?_, hS.settled.sync, fun hcc => ?_⟩,
    hS.settled.runs⟩, hS.owned⟩, fun _ h => h⟩
  · exact h.resolve_right (by omega)
  · exact absurd hcc hc

/-- The end of an interrupt.
kernel/nd_scheduler.c:151-177, 267-288 -/
theorem Sound.irqExit (hS : Sound cfg s) (hn : 0 < s.nest) : Kept cfg C s (irqExit cfg s) := by
  have hc : s.current ≠ none := fun h => by
    have := (hS.settled.main h).1
    omega
  obtain ⟨c, hcc⟩ := Option.ne_none_iff_exists'.mp hc
  have hJ : Consistent { ndExitInterrupt s with trySwitch := false } := hS.consistent.of_core rfl
  unfold NerdRtos.irqExit
  cases hport : cfg.port with
  | sync =>
    simp only
    unfold ndScheduleIrqExit
    by_cases ht : (ndExitInterrupt s).trySwitch = true
    · rw [if_pos ht]
      rcases ndSchedulePickNext_spec hJ (c := c) hcc with ⟨ps, h, hJ', hrun, hlead⟩ | ⟨n, s₁, h, hP⟩
      · rw [h]
        exact (hJ.stays cfg hcc hrun hlead hJ').kept rfl hc hS.owned
      · rw [h]
        have hsw := ndContextSwitchCb_spec cfg hP.consistent hP.ready hP.offDuty
          (hP.pendsv.trans (hS.settled.sync hport))
        exact (hsw.scheduled (s := { ndExitInterrupt s with trySwitch := false }) hport hP.leads
          hcc hP.trySwitch hP.offCpu).kept rfl hc hS.owned
    · rw [if_neg ht]
      exact hS.exitInterrupt hc (.inl (Bool.eq_false_iff.mpr ht))
  | deferred =>
    simp only
    unfold ndTrySchedule
    by_cases hnest : 0 < (ndExitInterrupt s).nest
    · rw [if_pos hnest]
      exact hS.exitInterrupt hc (.inr hnest)
    · rw [if_neg hnest]
      by_cases ht : (ndExitInterrupt s).trySwitch = true
      · rw [if_pos ht]
        exact (ndScheduleCore_spec hJ hS.settled.sync).kept rfl hc hS.owned
      · rw [if_neg ht]
        exact hS.exitInterrupt hc (.inl (Bool.eq_false_iff.mpr ht))

/-- A fault before the slice of the new thread is started is there afterwards. -/
theorem fault_startSlice (n : Tid) (now : ℕ) (h : s.fault = true) :
    (startSlice cfg n now s).fault = true := by
  have hstart : ∀ (v : TimerId) (x : State), x.fault = true →
      (ndTimerStart cfg v x).1.fault = true := by
    intro v x hx
    by_cases hcb : (x.timers v).callback = .none
    · rw [timerStart_refused cfg hcb]; exact hx
    · rw [timerStart_eq cfg hcb]; exact hx
  unfold startSlice
  split
  · refine hstart _ _ ?_
    simp only [State.updThread_fault, State.updTimer_fault, ndTimerStop, timerRemove_fault]
    split
    · exact h
    · exact h
  · split
    · exact h
    · exact h

/-- A switch to a thread that is on no list is a fault.
kernel/nd_scheduler.c:69-82, 179-225 -/
theorem fault_ndContextSwitchCb {n : Tid} (hp : (s.threads n).priority < 32)
    (hq : s.queues.home n = none) : (ndContextSwitchCb cfg (some n) s).fault = true := by
  have hrm : (ndThreadReadyRemove n s).fault = true := by
    rw [readyRemove_eq hp]
    simp [hq]
  have hset : ∀ (t now : ℕ) (x : State), (settleSlice t now x).fault = x.fault := by
    intro t now x
    by_cases h : (x.threads t).timeSlice = 0
    · unfold settleSlice
      rw [if_neg (by simpa using h)]
    · rw [settleSlice_eq now h]
      rfl
  unfold ndContextSwitchCb
  refine fault_startSlice n _ ?_
  simp only [State.updThread_fault]
  cases s.current with
  | none => exact hrm
  | some c =>
    simp only [hset]
    exact hrm

/-- The PendSV handler switches to a thread that is still ready, or faults.
kernel/nd_scheduler.c:69-82, 179-225 -/
theorem Sound.pendsv_switched (hS : Sound cfg s) (hp : s.pendsv = true)
    (hf : (isrPendsv cfg s).fault = false) :
    ∃ n, Switched ∅ { s with pendsv := false } (isrPendsv cfg s) n := by
  have hJ := hS.consistent
  obtain ⟨n, hn⟩ := Option.ne_none_iff_exists'.mp (hJ.books.pending hp)
  have hoff : ∀ t, (s.threads t).stat ≠ .running := fun t ht => by
    rw [((hJ.ok t).running ht).2] at hp
    cases hp
  set s₁ : State := { s with pendsv := false } with hs₁
  have hJ₁ : Consistent s₁ :=
    ⟨fun t => { hJ.ok t with running := fun hr => absurd hr (hoff t) },
      { hJ.books with pending := fun h => by cases h }⟩
  have hisr : isrPendsv cfg s = ndContextSwitchCb cfg (some n) s₁ := by
    show ndContextSwitchCb cfg s.next s₁ = ndContextSwitchCb cfg (some n) s₁
    rw [hn]
  rw [hisr] at hf ⊢
  by_cases hr : (s.threads n).stat = .ready
  · exact ⟨n, ndContextSwitchCb_spec cfg hJ₁ (n := n) hr hoff rfl⟩
  · have hfree : s.queues.home n = none := by
      refine hJ.home_none hr fun hb => ?_
      rcases (hJ.ok n).next hn with h | h | h <;> rw [hb] at h <;> cases h
    rw [fault_ndContextSwitchCb (s := s₁) (hJ.ok n).prio hfree] at hf
    cases hf

/-- The PendSV handler keeps the invariant. -/
theorem Sound.pendsv (hS : Sound cfg s) (hp : s.pendsv = true) (hC : ¬ C)
    (hf : (isrPendsv cfg s).fault = false) : Kept cfg C s (isrPendsv cfg s) := by
  obtain ⟨n, hsw⟩ := hS.pendsv_switched hp hf
  refine ⟨⟨hsw.consistent, ⟨⟨fun hn0 => ?_, fun _ => hsw.pendsv, fun h => ?_⟩,
    fun c hcc _ _ => ?_⟩, hS.owned.of_offCpu hsw.offCpu⟩, fun h => absurd h hC⟩
  · rw [hsw.trySwitch]
    exact hS.settled.flag ((nest_of_offCpu hsw.offCpu).symm.trans hn0)
  · rw [hsw.current] at h
    cases h
  · have he : n = c := Option.some.inj (hsw.current.symm.trans hcc)
    exact he ▸ hsw.running

/-- `nd_scheduler_start` switches to the first thread.
kernel/nd_scheduler.c:38-41 -/
theorem Sound.start_switched (hS : Sound cfg s) (hc : s.current = none) :
    ∃ n, Switched ∅ s (ndHwDoSwitchFirst cfg s) n ∧ Leads s n := by
  have hJ := hS.consistent
  have hoff : ∀ t, (s.threads t).stat ≠ .running := fun t ht => by
    rw [((hJ.ok t).running ht).1] at hc
    cases hc
  unfold ndHwDoSwitchFirst
  rcases hJ.highest with ⟨-, hall⟩ | ⟨n, h, hr, hlead⟩
  · exact absurd (hJ.idle_ready (hoff idleTid)) (hall idleTid)
  · rw [h]
    exact ⟨n, ndContextSwitchCb_spec cfg hJ hr hoff (hS.settled.main hc).2, hlead⟩

/-- `nd_scheduler_start` keeps the invariant. -/
theorem Sound.start (hS : Sound cfg s) (hc : s.current = none) :
    Kept cfg C s (ndHwDoSwitchFirst cfg s) := by
  obtain ⟨n, hsw, hlead⟩ := hS.start_switched hc
  have hflag : (ndHwDoSwitchFirst cfg s).trySwitch = false :=
    hsw.trySwitch.trans (hS.settled.flag (hS.settled.main hc).1)
  refine ⟨⟨hsw.consistent, ⟨⟨fun _ => hflag, fun _ => hsw.pendsv, fun h => ?_⟩,
    fun c hcc _ _ => ?_⟩, hS.owned.of_offCpu hsw.offCpu⟩, fun _ _ c hcc _ _ r hrr => ?_⟩
  · rw [hsw.current] at h
    cases h
  · have he : n = c := Option.some.inj (hsw.current.symm.trans hcc)
    exact he ▸ hsw.running
  · have he : n = c := Option.some.inj (hsw.current.symm.trans hcc)
    subst he
    rw [priority_of_offCpu hsw.offCpu, priority_of_offCpu hsw.offCpu]
    exact hlead r (hsw.ready r hrr)

/-! ## One step -/

/-- An assertion of `nd_mempool_free` fails: the caller passes a pointer that is no block of the
pool, in a debug build.
kernel/nd_mempool.c:64-85 -/
def AssertFails (cfg : Config) (s : State) (a : Action) : Prop :=
  cfg.debug = true ∧ ∃ p ptr, (a = .call (.mempoolFree p ptr) ∨ a = .irq (.mempoolFree p ptr)) ∧
    ndMempoolFreeOk (s.pools p) ptr = false

/-- The faults that are not excluded: the critical sections of a deferred port that wait in a loop
or switch to a thread that is gone, and failed assertions. -/
def Excused (cfg : Config) (s : State) (a : Action) : Prop :=
  cfg.port = .deferred ∨ AssertFails cfg s a

/-- The critical sections that do not reach `nd_scheduler` have no need to: an abort of another
thread releases no joiner that outranks the current thread, and an unlock without waiters does not
lower the current thread below a ready thread. -/
def Prompt (s : State) : Action → Prop
  | .call (.threadAbort x) | .irq (.threadAbort x) => ∀ t, x = some t → JoinersWait s t
  | .call (.mutexUnlock m) => UnlockLeads s m
  | _ => True

/-- A kernel call, made where it may be made. -/
theorem Sound.execOp (hS : Sound cfg s) {o : Op} (hv : o.valid s = true)
    (hctx : o.fromIrq = true ∨ ∃ t, threadMode s = some t)
    (hC : C → (∀ x, o = .threadAbort x → ∀ t, x = some t → JoinersWait s t) ∧
      ∀ m, o = .mutexUnlock m → UnlockLeads s m)
    (hdebug : cfg.debug = true → ∀ p ptr, o = .mempoolFree p ptr →
      ndMempoolFreeOk (s.pools p) ptr = true)
    (hf : cfg.port = .deferred → (execOp cfg o s).fault = false) :
    Kept cfg C s (execOp cfg o s) := by
  cases o with
  | threadCreate a => exact hS.threadCreate hv
  | threadAbort x => exact hS.threadAbort hv fun h => (hC h).1 x rfl
  | threadSuspend t => exact hS.threadSuspend hv
  | threadResume t => exact hS.threadResume
  | semRelease i => exact hS.semRelease i
  | eventSend e set => exact hS.eventSend e set
  | mempoolFree p ptr => exact hS.mempoolFree fun h => hdebug h p ptr rfl
  | timerInit u periodic timeout callback => exact hS.timerInit (by simpa [Op.valid] using hv)
  | timerStart u => exact hS.timerStart u
  | timerStop u => exact hS.timerStop u
  | mutexUnlock m =>
    obtain ⟨t, ht⟩ := hctx.resolve_left (by simp [Op.fromIrq])
    exact hS.mutexUnlock ht fun h => (hC h).2 m rfl
  | threadYield =>
    obtain ⟨t, ht⟩ := hctx.resolve_left (by simp [Op.fromIrq])
    unfold NerdRtos.execOp ndThreadYield
    simp only [(threadMode_eq ht).2.2.1]
    exact .reschedule hS (hS.consistent.inert {}) rfl
  | threadDelay n =>
    obtain ⟨t, ht⟩ := hctx.resolve_left (by simp [Op.fromIrq])
    obtain ⟨-, -, hc, hne⟩ := threadMode_eq ht
    obtain ⟨hJ, hu⟩ := hS.consistent.delayed cfg (hS.runs ht) hne n
    simp only [NerdRtos.execOp, ndThreadDelay_eq cfg hc]
    exact .reschedule hS hJ (congrArg State.flags hu :)
  | wait c =>
    exact hS.startCall hv hctx fun hp =>
      not_mustLoop (s := s.emit (.call s.caller c s.clock)) hctx hp (fault_finishCall _ _ (hf hp))

/-- **One step.** An allowed action keeps the invariant, unless it faults where a fault is not
excluded. On a sync port a prompt one leaves no ready thread above the current thread. -/
theorem Sound.exec (hS : Sound cfg s) {a : Action} (ha : allowed cfg s a = true)
    (hf : Excused cfg s a → (exec cfg a s).fault = false) :
    Kept cfg (cfg.port = .sync ∧ Prompt s a) s (exec cfg a s) := by
  have hdeferred : cfg.port = .deferred → (NerdRtos.exec cfg a s).fault = false :=
    fun h => hf (.inl h)
  have hop : ∀ o, (a = .call o ∨ a = .irq o ∧ o.fromIrq = true) → o.valid s = true →
      (o.fromIrq = true ∨ ∃ t, threadMode s = some t) →
      Kept cfg (cfg.port = .sync ∧ Prompt s a) s (NerdRtos.execOp cfg o s) := by
    intro o hao hv hctx
    have hexec : NerdRtos.exec cfg a s = NerdRtos.execOp cfg o s := by
      rcases hao with rfl | ⟨rfl, -⟩ <;> rfl
    refine hS.execOp hv hctx (fun hC => ⟨fun x hx t ht => ?_, fun m hm => ?_⟩)
      (fun hd p ptr hp => ?_) (hexec ▸ hdeferred)
    · subst hx
      rcases hao with rfl | ⟨rfl, -⟩ <;> exact hC.2 t ht
    · subst hm
      rcases hao with rfl | ⟨rfl, h⟩
      · exact hC.2
      · cases h
    · by_contra hbad
      rw [Bool.not_eq_true] at hbad
      have hnf := hf (.inr ⟨hd, p, ptr, hp ▸ hao.imp_right fun h => h.1, hbad⟩)
      rw [hexec, hp] at hnf
      simp only [NerdRtos.execOp, ndMempoolFree, hd, hbad] at hnf
      cases hnf
  cases a with
  | call o => exact hop o (.inl rfl) (call_allowed ha).1 (context_of_call ha)
  | resume =>
    obtain ⟨t, hm, hcall⟩ := resume_allowed ha
    exact hS.resumeCall hm hcall hdeferred
  | irqEnter =>
    refine ⟨⟨hS.consistent.of_core rfl, ⟨⟨fun hn => ?_, hS.settled.sync, fun hc => ?_⟩,
      hS.settled.runs⟩, hS.owned⟩, fun _ h => h⟩
    · exact absurd hn (Nat.succ_ne_zero _)
    · have hc' : s.current = none := hc
      simp [allowed, hc'] at ha
  | irq o =>
    obtain ⟨-, hirq, hv⟩ := irq_allowed ha
    exact hop o (.inr ⟨rfl, hirq⟩) hv (.inl hirq)
  | timerFire => exact hS.timerTurn
  | irqExit => exact hS.irqExit (irqExit_allowed ha)
  | pendsv =>
    have hp := (pendsv_allowed ha).1
    refine hS.pendsv hp (fun h => ?_) (hdeferred ?_)
    · rw [hS.settled.sync h.1] at hp
      cases hp
    · cases hport : cfg.port with
      | deferred => rfl
      | sync =>
        rw [hS.settled.sync hport] at hp
        cases hp
  | advance n => exact .of_bare hS rfl
  | write p ptr v => exact .of_bare hS rfl
  | start => exact hS.start (start_allowed ha)

/-! ## Runs -/

/-- When `main` starts, every control block but that of the idle thread is unused. -/
theorem loose_initObjects (u : Setup) : Loose ∅ idleTid (initObjects u) where
  others t ht :=
    { prio := (by decide : 0 < 32), initPrio := (by decide : 0 < 32), oneShot := rfl
      listed := ⟨fun h => (by cases h), fun h => absurd rfl h.1⟩
      placed := ⟨rfl, rfl⟩
      running := fun h => by cases h
      joining := fun v hv => by cases hv
      next := fun h => by cases h
      idle := fun h => absurd h ht }
  prio := (by decide : 0 < 32)
  initPrio := (by decide : 0 < 32)
  oneShot := rfl
  free := rfl
  unarmed := rfl
  books :=
    { bits := fun p _ => by simp [initObjects]
      slices := fun t h => by cases h
      sliceOneShot := fun t => rfl
      pending := fun h => by cases h
      picks := fun k hk => by cases hk
      noFault := rfl }

/-- Before `nd_scheduler_start` there is nothing to switch from. -/
theorem boot_eq (cfg : Config) (u : Setup) :
    boot cfg u = ndThreadReadyAddTail idleTid ((initObjects u).created idleTid idleArgs) := by
  have hacc : idleArgs.accepted := by
    refine ⟨?_, ?_, ?_, ?_, ?_⟩ <;> decide
  have hflags : (ndThreadReadyAddTail idleTid ((initObjects u).created idleTid idleArgs)).flags =
      (initObjects u).flags := by
    rw [(flags_readyAdd _ _).1, created_eq rfl]
    rfl
  have hnest : (ndThreadReadyAddTail idleTid ((initObjects u).created idleTid idleArgs)).nest = 0 :=
    congrArg Flags.nest hflags
  unfold boot ndSchedulerInit
  rw [ndThreadCreate_eq (t := idleTid) rfl hacc]
  unfold ndScheduler ndScheduleCore
  rw [hnest, if_neg (lt_irrefl 0), ndSchedulePickNext_none (congrArg Flags.current hflags)]

/-- The invariant holds when `main` starts. -/
theorem sound_boot (cfg : Config) (u : Setup) : Sound cfg (boot cfg u) ∧ Ruled (boot cfg u) := by
  have hacc : idleArgs.accepted := by
    refine ⟨?_, ?_, ?_, ?_, ?_⟩ <;> decide
  have hfree : (initObjects u).inUse idleTid = false := rfl
  have hJ := (loose_initObjects u).create hfree hacc fun _ => by decide
  have hflags : (ndThreadReadyAddTail idleTid ((initObjects u).created idleTid idleArgs)).flags =
      (initObjects u).flags := by
    rw [(flags_readyAdd _ _).1, created_eq hfree]
    rfl
  have hA : Ambient cfg (initObjects u) := ⟨fun _ => rfl, fun _ => rfl, fun _ => ⟨rfl, rfl⟩⟩
  have hO : Owned (initObjects u) := by
    intro m t
    constructor <;> intro h <;> cases h
  have hK : Kept cfg True (initObjects u) (boot cfg u) := by
    unfold boot ndSchedulerInit
    rw [ndThreadCreate_eq (t := idleTid) rfl hacc]
    exact .schedule hJ (hA.of_sched (sched_of_flags hflags)) (hO.of_flags hflags)
  exact ⟨hK.sound, hK.ruled trivial fun c hc => by cases hc⟩

/-- **Every reachable state is sound.** -/
theorem reach_sound {D : State → Action → Prop} (h : (kernel cfg).Reach D s) : Sound cfg s := by
  refine Machine.Reach.induction (I := Sound cfg) ?_ ?_ h
  · rintro s ⟨u, rfl⟩
    exact (sound_boot cfg u).1
  · rintro s a - hS ⟨ha, hf⟩ -
    exact (hS.exec ha fun _ => hf).sound

/-- Along a run whose steps are prompt, no ready thread outranks the current thread, unless a switch
is requested. -/
theorem reach_ruled (hport : cfg.port = .sync) (h : (kernel cfg).Reach Prompt s) : Ruled s := by
  refine Machine.Reach.induction (I := Ruled) ?_ ?_ h
  · rintro s ⟨u, rfl⟩
    exact (sound_boot cfg u).2
  · rintro s a hr hR ⟨ha, hf⟩ hp
    exact ((reach_sound hr).exec ha fun _ => hf).ruled ⟨hport, hp⟩ hR

/-! ## Concrete runs -/

/-- A sync port, such as arch/riscv/rv32. -/
def syncPort : Config := ⟨.sync, false, false⟩

/-- A deferred port, such as arch/arm/m3. -/
def deferredPort : Config := ⟨.deferred, false, false⟩

/-- `nd_thread_create` for thread `t` with priority `p`. -/
def spawn (t : Tid) (p : ℕ) : Action :=
  .call (.threadCreate
    { thread := some t, name := some 1, entry := some 1, priority := p, stack := some 1
      stackSize := 512, options := 0, timeSlice := 0 })

/-- The states that a run of a list of actions ends in are reachable. -/
theorem reach_run {cfg : Config} {as : List Action} {s : State}
    (h : (kernel cfg).run as (boot cfg {}) = some s) : (kernel cfg).Reach Machine.Always s :=
  (kernel cfg).reach_of_run (fun _ _ _ => trivial) (.start ⟨{}, rfl⟩) h

end NerdRtos
