import NerdRtos.Analysis.Switching

/-!
# What the operations on threads do

Each operation of `kernel/nd_thread.c`, and each callback of a wait timer, comes down to one of
four moves of a thread, followed by `nd_scheduler` or not: it becomes ready
(`State.readied`), it is suspended or ends (`State.parked`), it waits (`State.pended`) or it is
delayed. The equations here say which one, and the lemmas beside them that the move keeps the
kernel consistent.
-/

set_option autoImplicit false

namespace NerdRtos

variable {d : Set Tid} {s : State} {t : Tid} {cfg : Config}

/-! ## Becoming ready -/

/-- `nd_thread_ready_add_tail` puts back a thread that was taken out.
kernel/nd_scheduler.c:43-54 -/
theorem readyAddTail_pulled {f : Thread → Thread} (h : (f (s.threads t)).priority < 32) :
    ndThreadReadyAddTail t ((s.pulled t).updThread t f) = s.readied t (fun _ => false) f := by
  rw [readyAddTail_eq (by simpa using h)]
  simp [State.readied]

/-- `nd_thread_ready_add_head` puts back a thread that was taken out.
kernel/nd_scheduler.c:56-67 -/
theorem readyAddHead_pulled {f : Thread → Thread} (h : (f (s.threads t)).priority < 32) :
    ndThreadReadyAddHead t ((s.pulled t).updThread t f) = s.readied t (fun _ => true) f := by
  rw [readyAddHead_eq (by simpa using h)]
  simp [State.readied]

/-- A thread on a wait list, taken out. -/
theorem ConsistentBut.pulled_waiting (hJ : ConsistentBut d s) {h : QHead} (hw : h.isWait = true)
    (hq : s.queues.home t = some h) :
    s.pulled t = (ndTimerStop (.wait t) s).listRemove t := by
  have hst := hJ.block_of_home hw hq
  have hf := hJ.books.noFault
  simp [State.pulled, bitWithout, hst, State.listRemove, ndTimerStop, timerRemove, hq, hf]

/-- A blocked thread on no list, taken out. -/
theorem pulled_delayed (hst : (s.threads t).stat = .block) (hq : s.queues.home t = none) :
    s.pulled t = ndTimerStop (.wait t) s := by
  simp [State.pulled, bitWithout, hst, ndTimerStop, timerRemove, s.queues.unlink_of_free hq]

/-- What `nd_thread_wakeup` writes to the control block of the waiter. -/
def wakeEdit (th : Thread) : Thread := { th with error := .eok, stat := .ready }

/-- `nd_thread_wakeup` makes the first waiter ready.
kernel/nd_thread.c:111-124 -/
theorem ndThreadWakeup_eq (hJ : ConsistentBut d s) {h : QHead} (hw : h.isWait = true)
    (hh : (s.queues.lists h).head? = some t) :
    ndThreadWakeup h s =
      (s.readied t (fun _ => false) wakeEdit, some t) := by
  obtain ⟨hq, -⟩ := hJ.block_of_head hw hh
  unfold ndThreadWakeup
  simp only [hh]
  rw [← readyAddTail_pulled (hJ.ok t).prio, hJ.pulled_waiting hw hq]
  rfl

/-- `nd_event_wakeup` makes a waiter ready.
kernel/nd_event.c:27-36 -/
theorem ndEventWakeup_eq (hJ : ConsistentBut d s) {h : QHead} (hw : h.isWait = true)
    (hq : s.queues.home t = some h) :
    ndEventWakeup t s = s.readied t (fun _ => false) fun th => { th with stat := .ready } := by
  unfold ndEventWakeup
  rw [← readyAddTail_pulled (hJ.ok t).prio, hJ.pulled_waiting hw hq]
  rfl

/-- A timer that is not periodic is stopped before its callback runs.
kernel/nd_timer.c:97-137 -/
theorem expireTimer_oneShot {u : TimerId} (h : (s.timers u).periodic = false) :
    expireTimer cfg u s = runCallback cfg u (timerRemove u s) := by
  unfold expireTimer
  simp only [timerRemove_timers, h, Bool.false_eq_true, if_false]

/-- The end of a wait by timeout.
kernel/nd_thread.c:55-66, kernel/nd_timer.c:97-137 -/
theorem expireTimer_pend (hJ : ConsistentBut d s) (ha : s.isArmed (.wait t) = true)
    (hcb : (s.timers (.wait t)).callback = .pendTimeout) :
    expireTimer cfg (.wait t) s = ndScheduler cfg
      (s.readied t (fun _ => false) fun th => { th with stat := .ready, error := .etimeout }) := by
  rcases hJ.blocked (hJ.block_of_armed ha) with ⟨h, hq, hw, -⟩ | ⟨-, -, hcb'⟩
  · rw [expireTimer_oneShot (hJ.ok t).oneShot, ← readyAddTail_pulled (hJ.ok t).prio,
      hJ.pulled_waiting hw hq]
    simp only [runCallback, timerRemove_timers, hcb, ndThreadPendTimeout]
    rfl
  · rw [hcb] at hcb'
    cases hcb'

/-- What the end of a delay writes to the control block. -/
def delayEdit (th : Thread) : Thread :=
  if th.timeSlice ≠ 0 then { th with stat := .ready, sliceLeft := th.timeSlice, sliceStart := 0 }
  else { th with stat := .ready }

/-- The end of a delay.
kernel/nd_scheduler.c:307-319, kernel/nd_timer.c:97-137 -/
theorem expireTimer_delay (hJ : ConsistentBut d s) (ha : s.isArmed (.wait t) = true)
    (hcb : (s.timers (.wait t)).callback = .threadTimer) :
    expireTimer cfg (.wait t) s =
      ndScheduler cfg (s.readied t (fun _ => false) delayEdit) := by
  have hst := hJ.block_of_armed ha
  rcases hJ.blocked hst with ⟨h, -, -, hcb'⟩ | ⟨hq, -, -⟩
  · rw [hcb' ha] at hcb
    cases hcb
  · have hprio : (delayEdit (s.threads t)).priority < 32 := by
      unfold delayEdit
      split <;> exact (hJ.ok t).prio
    rw [expireTimer_oneShot (hJ.ok t).oneShot, ← readyAddTail_pulled hprio, pulled_delayed hst hq]
    simp only [ndTimerStop, runCallback, timerRemove_timers, hcb, threadTimerCallback]
    by_cases hts : (s.threads t).timeSlice = 0
    · have hedit : delayEdit (s.threads t) = { s.threads t with stat := .ready } := by
        simp [delayEdit, hts]
      simp [hts, hedit, State.updThread]
    · have hedit : delayEdit (s.threads t) =
          { s.threads t with
            stat := .ready, sliceLeft := (s.threads t).timeSlice, sliceStart := 0 } := by
        simp [delayEdit, hts]
      simp [hts, hedit, State.updThread]

/-- `nd_thread_resume` makes a suspended thread ready.
kernel/nd_thread.c:34-53 -/
theorem ndThreadResume_eq (hJ : ConsistentBut d s) (hst : (s.threads t).stat = .suspend) :
    (ndThreadResume cfg t s).1 = ndScheduler cfg
      (s.readied t (fun _ => false) fun th => { th with stat := .ready }) := by
  unfold ndThreadResume
  rw [if_neg (by simpa using hst), ← readyAddTail_pulled (hJ.ok t).prio,
    hJ.pulled_eq (by rw [hst]; decide) (by rw [hst]; decide)]

/-- Only a suspended thread is resumed. -/
theorem ndThreadResume_refused (hst : (s.threads t).stat ≠ .suspend) :
    (ndThreadResume cfg t s).1 = s := by
  unfold ndThreadResume
  rw [if_pos hst]

/-- A thread with a new priority. -/
def Thread.withPriority (p : ℕ) (th : Thread) : Thread := { th with priority := p }

/-- `nd_thread_change_priority` moves a ready thread to the head of its new list.
kernel/nd_mutex.c:19-30 -/
theorem ndThreadChangePriority_ready (hJ : ConsistentBut d s) (hst : (s.threads t).stat = .ready)
    {p : ℕ} (hp : p < 32) :
    ndThreadChangePriority t p s = s.readied t (fun _ => true) (Thread.withPriority p) := by
  unfold ndThreadChangePriority
  simp only [if_pos hst, hJ.readyRemove_eq hst]
  rw [← readyAddHead_pulled (f := Thread.withPriority p) hp]
  rfl

/-- `nd_thread_change_priority` of a thread that is not ready.
kernel/nd_mutex.c:19-30 -/
theorem ndThreadChangePriority_other (hst : (s.threads t).stat ≠ .ready) (p : ℕ) :
    ndThreadChangePriority t p s = s.updThread t (Thread.withPriority p) := by
  unfold ndThreadChangePriority
  rw [if_neg hst]
  rfl

/-- A thread that is not ready can change its priority where it is. -/
theorem ConsistentBut.withPriority (hJ : ConsistentBut d s) (hst : (s.threads t).stat ≠ .ready)
    {p : ℕ} (hp : p < 32) : ConsistentBut d (s.updThread t (Thread.withPriority p)) := by
  have hstat : ∀ u, ((s.updThread t (Thread.withPriority p)).threads u).stat =
      (s.threads u).stat := by
    intro u
    by_cases hu : u = t
    · subst hu; simp [Thread.withPriority]
    · simp [hu]
  have ht := hJ.ok t
  refine ⟨fun u => ?_, hJ.books.updThread rfl⟩
  by_cases hu : u = t
  · subst hu
    refine
      { prio := by simpa [Thread.withPriority] using hp
        initPrio := by simpa [Thread.withPriority] using ht.initPrio
        oneShot := ht.oneShot
        listed := by rw [hstat]; exact ht.listed
        placed := ?_
        running := by rw [hstat]; exact ht.running
        joining := fun v hv => by rw [hstat]; exact ht.joining v hv
        next := by rw [hstat]; exact ht.next
        idle := fun hi => by
          rw [hstat]
          simpa [Thread.withPriority, ndIsThreadEssential] using ht.idle hi }
    have hpl := ht.placed
    unfold Placed at hpl ⊢
    rw [hstat]
    split
    · exact absurd ‹_› hst
    · rename_i hb
      simp only [hb] at hpl
      exact hpl
    · rename_i h₁ h₂
      split at hpl
      · exact absurd ‹_› hst
      · exact absurd ‹_› h₂
      · exact hpl
  · exact (hJ.ok u).congr (by simp [hu]) rfl rfl rfl rfl (hJ.ok u).running (hJ.ok u).next
      fun v _ hv => by rw [hstat]; exact hv

/-- `nd_thread_change_priority` keeps the kernel consistent.
kernel/nd_mutex.c:19-30 -/
theorem ConsistentBut.changePriority (hJ : ConsistentBut d s) (t : Tid) {p : ℕ} (hp : p < 32) :
    ConsistentBut d (ndThreadChangePriority t p s) := by
  by_cases hst : (s.threads t).stat = .ready
  · rw [ndThreadChangePriority_ready hJ hst hp]
    exact hJ.readied (by rw [hst]; exact ⟨by decide, by decide⟩) _ hst hp rfl rfl rfl
  · rw [ndThreadChangePriority_other hst p]
    exact hJ.withPriority hst hp

/-- A blocked or suspended thread becomes ready. -/
theorem ConsistentBut.readied_of (hJ : ConsistentBut d s)
    (hst : (s.threads t).stat = .block ∨ (s.threads t).stat = .suspend) {f : Thread → Thread}
    (hr : (f (s.threads t)).stat = .ready)
    (hp : (f (s.threads t)).priority = (s.threads t).priority)
    (hi : (f (s.threads t)).initPriority = (s.threads t).initPriority)
    (ho : (f (s.threads t)).options = (s.threads t).options)
    (hts : (f (s.threads t)).timeSlice = (s.threads t).timeSlice) :
    ConsistentBut d (s.readied t (fun _ => false) f) := by
  have hlive : (s.threads t).stat.live := by
    rcases hst with h | h <;> rw [h] <;> exact ⟨by decide, by decide⟩
  exact hJ.readied hlive _ hr (hp ▸ (hJ.ok t).prio) hi ho hts

/-! ## Being suspended and ending -/

/-- Thread `t` taken out of where it is and edited by `f`. -/
@[simps! threads taken threadList current next nest trySwitch timers clock sems mutexes
  msgQueues events pools pendsv calls log picks]
def State.parked (s : State) (t : Tid) (f : Thread → Thread) : State :=
  (s.pulled t).updThread t f

/-- What `nd_thread_suspend` writes to the control block. -/
def suspendEdit (th : Thread) : Thread := { th with stat := .suspend }

/-- A thread other than the idle thread is suspended. -/
theorem ConsistentBut.suspended (hJ : ConsistentBut d s) (hlive : (s.threads t).stat.live)
    (hne : t ≠ idleTid) : ConsistentBut d (s.parked t suspendEdit) := by
  have hst : ((s.parked t suspendEdit).threads t).stat = .suspend := by simp [suspendEdit]
  have hL : Loose d t (s.parked t suspendEdit) :=
    (hJ.pull t).updThread (hJ.ok t).prio (hJ.ok t).initPrio rfl
  have hlive' : ((s.parked t suspendEdit).threads t).stat.live := by
    rw [hst]; exact ⟨by decide, by decide⟩
  refine hL.park (by rw [hst]; decide) (by rw [hst]; decide) (.inr hlive')
    ⟨fun _ => hlive', fun _ => (hJ.ok t).listed.mpr hlive⟩ (fun hr => ?_) (fun _ => .inl hst)
    (fun hi => absurd hi hne)
  rw [hst] at hr
  cases hr

/-- `nd_thread_suspend` of a ready thread.
kernel/nd_thread.c:126-161 -/
theorem ndThreadSuspend_ready (hJ : ConsistentBut d s) (hst : (s.threads t).stat = .ready)
    (htk : s.taken.lists t = []) :
    (ndThreadSuspend cfg t s).1 = s.parked t suspendEdit := by
  unfold ndThreadSuspend State.parked
  simp only [htk, List.isEmpty_nil, hst, hJ.readyRemove_eq hst]
  rfl

/-- `nd_thread_suspend` of a running or blocked thread.
kernel/nd_thread.c:126-161 -/
theorem ndThreadSuspend_other (hJ : ConsistentBut d s)
    (hst : (s.threads t).stat = .running ∨ (s.threads t).stat = .block)
    (htk : s.taken.lists t = []) :
    (ndThreadSuspend cfg t s).1 = ndScheduler cfg (s.parked t suspendEdit) := by
  unfold ndThreadSuspend State.parked
  simp only [htk, List.isEmpty_nil]
  rcases hst with hst | hst
  · simp only [hst]
    rw [hJ.pulled_eq (by rw [hst]; decide) (by rw [hst]; decide)]
    rfl
  · simp only [hst]
    rcases hJ.blocked hst with ⟨h, hq, hw, -⟩ | ⟨hq, -, -⟩
    · rw [hJ.pulled_waiting hw hq]
      simp only [State.isLinked, State.updThread_queues, hq]
      rfl
    · rw [pulled_delayed hst hq]
      simp only [State.isLinked, State.updThread_queues, hq]
      rfl

/-- `nd_thread_suspend` is refused, parks a ready thread, or stops a running or blocked one.
kernel/nd_thread.c:126-161 -/
theorem ndThreadSuspend_cases (hJ : ConsistentBut d s) (cfg : Config) (t : Tid) :
    (ndThreadSuspend cfg t s).1 = s ∨
      s.taken.lists t = [] ∧ (s.threads t).stat = .ready ∧
        (ndThreadSuspend cfg t s).1 = s.parked t suspendEdit ∨
      s.taken.lists t = [] ∧ ((s.threads t).stat = .running ∨ (s.threads t).stat = .block) ∧
        (ndThreadSuspend cfg t s).1 = ndScheduler cfg (s.parked t suspendEdit) := by
  by_cases htk : s.taken.lists t = []
  · by_cases hr : (s.threads t).stat = .ready
    · exact .inr (.inl ⟨htk, hr, ndThreadSuspend_ready hJ hr htk⟩)
    by_cases hb : (s.threads t).stat = .running ∨ (s.threads t).stat = .block
    · exact .inr (.inr ⟨htk, hb, ndThreadSuspend_other hJ hb htk⟩)
    · left
      unfold ndThreadSuspend
      simp only [htk, List.isEmpty_nil]
      cases hst : (s.threads t).stat <;> simp_all
  · left
    unfold ndThreadSuspend
    rw [if_pos (by simpa using htk)]

/-- A thread that runs or is blocked is alive. -/
theorem live_of_stops (h : (s.threads t).stat = .running ∨ (s.threads t).stat = .block) :
    (s.threads t).stat.live := by
  rcases h with h | h <;> rw [h] <;> exact ⟨by decide, by decide⟩

/-- A ready thread is alive. -/
theorem live_of_ready (h : (s.threads t).stat = .ready) : (s.threads t).stat.live := by
  rw [h]
  exact ⟨by decide, by decide⟩

/-- What `nd_thread_halt` writes to the control block. -/
def endEdit (th : Thread) : Thread := { th with stat := .dead }

/-- Thread `t` ended, with its joiners still waiting. -/
@[simps! threads taken current next nest trySwitch timers clock sems mutexes
  msgQueues events pools pendsv calls log picks]
def State.ended (s : State) (t : Tid) : State :=
  { s.parked t endEdit with
    tree := (s.tree.unlink (.wait t)).unlink (.slice t)
    threadList := s.threadList.unlink t }

/-- A thread other than the idle thread ends; its joiners are not in order yet. -/
theorem ConsistentBut.ended (hJ : Consistent s) (hne : t ≠ idleTid) :
    ConsistentBut {t} (s.ended t) := by
  have hst : ((s.ended t).threads t).stat = .dead := by simp [endEdit]
  have hJ' : ConsistentBut {t} s := hJ.mono (Set.empty_subset _)
  have hL : Loose {t} t (s.ended t) :=
    (((hJ'.pull t).updThread (f := endEdit) (hJ.ok t).prio (hJ.ok t).initPrio rfl).stopSlice
      t).setList fun u hu => by simp [ndTimerStop, hu]
  refine hL.park (by rw [hst]; decide) (by rw [hst]; decide) (.inl rfl)
    ⟨fun hl => ?_, fun hl => ?_⟩ (fun hr => ?_) (fun _ => .inr hst) (fun hi => absurd hi hne)
  · simp [State.ended] at hl
  · rw [hst] at hl
    exact absurd rfl hl.2
  · rw [hst] at hr
    cases hr

/-- Waking every thread of a wait list makes them ready one after the other: whatever each
wake-up keeps holds at the end, when the list is empty.
kernel/nd_thread.c:207-213 -/
theorem wakeAll_spec {h : QHead} (hw : h.isWait = true) (P : State → Prop)
    (hP : ∀ s j, ConsistentBut d s → P s → s.queues.home j = some h →
      P (s.readied j (fun _ => false) wakeEdit)) (n : ℕ) :
    ∀ s, ConsistentBut d s → P s → (s.queues.lists h).length ≤ n →
      ConsistentBut d (wakeAll h n s) ∧ P (wakeAll h n s) ∧
        (wakeAll h n s).queues.lists h = [] := by
  induction n with
  | zero =>
    intro s hJ hs hlen
    exact ⟨hJ, hs, List.length_eq_zero_iff.mp (Nat.le_zero.mp hlen)⟩
  | succ n ih =>
    intro s hJ hs hlen
    unfold wakeAll State.listIsEmpty
    cases hl : s.queues.lists h with
    | nil => exact ⟨hJ, hs, hl⟩
    | cons j rest =>
      have hhead : (s.queues.lists h).head? = some j := by rw [hl]; rfl
      obtain ⟨hq, hst⟩ := hJ.block_of_head hw hhead
      simp only [List.isEmpty_cons, Bool.false_eq_true, if_false]
      rw [ndThreadWakeup_eq hJ hw hhead]
      refine ih _ (hJ.readied_of (.inl hst) rfl rfl rfl rfl rfl) (hP s j hJ hs hq) ?_
      have hlen' : ((s.readied j (fun _ => false) wakeEdit).queues.lists h).length =
          (s.queues.lists h).length - 1 := by
        have hne : h ≠ .ready (wakeEdit (s.threads j)).priority := by
          rintro rfl
          simp [QHead.isWait] at hw
        have hmem : j ∈ s.queues.lists h := (s.queues.mem_iff h j).mpr hq
        simp [State.readied, Intrusive.Queues.lists_link_of_ne _ _ j hne,
          List.length_erase_of_mem hmem]
      rw [hlen']
      omega

/-- Once the joiners of an ended thread have been woken, the kernel is consistent again. -/
theorem ConsistentBut.closeJoin (hJ : ConsistentBut {t} s) (hl : s.queues.lists (.join t) = []) :
    Consistent s := by
  refine ⟨fun u => { hJ.ok u with joining := fun v hv => ?_ }, hJ.books⟩
  rcases (hJ.ok u).joining v hv with hd | hlive
  · rw [Set.mem_singleton_iff.mp hd] at hv
    have hmem := (s.queues.mem_iff _ _).mpr hv
    rw [hl] at hmem
    cases hmem
  · exact .inr hlive

/-- The joiners of `t` woken. -/
def wakeJoiners (t : Tid) (s : State) : State :=
  wakeAll (.join t) (s.queues.lists (.join t)).length s

/-- The rest of `nd_thread_halt`, once the thread is off its list. -/
def haltFrom (cfg : Config) (t : Tid) (s : State) : State :=
  let s := s.updThread t fun th => { th with stat := .dead }
  let s := ndTimerStop (.wait t) s
  let s := ndTimerStop (.slice t) s
  let s :=
    { s with
      threadList := s.threadList.unlink t
      fault := s.fault || (s.threadList.home t).isNone }
  let s := wakeJoiners t s
  if s.current = some t then ndScheduler cfg s else s

/-- Waking a thread does not change the scheduling flags. -/
theorem flags_wakeup (h : QHead) (s : State) : (ndThreadWakeup h s).1.flags = s.flags := by
  unfold ndThreadWakeup
  split
  · rfl
  · simp only [(flags_readyAdd _ _).1]
    rfl

/-- Waking joiners does not change the scheduling flags. -/
theorem flags_wakeAll (h : QHead) (n : ℕ) : ∀ s, (wakeAll h n s).flags = s.flags := by
  induction n with
  | zero => exact fun _ => rfl
  | succ n ih =>
    intro s
    unfold wakeAll
    split
    · rfl
    · rw [ih, flags_wakeup]

/-- The rest of `nd_thread_halt` from a state in which the thread is off its list.
kernel/nd_thread.c:195-220 -/
theorem haltFrom_eq (hJ : Consistent s) (hlive : (s.threads t).stat.live) {s₁ : State}
    (h : ndTimerStop (.wait t) s₁ = s.pulled t) :
    haltFrom cfg t s₁ =
      if s.current = some t then ndScheduler cfg (wakeJoiners t (s.ended t))
      else wakeJoiners t (s.ended t) := by
  have hlisted := (hJ.ok t).listed.mpr hlive
  have hf := hJ.books.noFault
  have hended : ({ ndTimerStop (.slice t) ((ndTimerStop (.wait t) s₁).updThread t endEdit) with
      threadList := s₁.threadList.unlink t
      fault := s₁.fault || (s₁.threadList.home t).isNone } : State) = s.ended t := by
    have hl : s₁.threadList = s.threadList := (congrArg State.threadList h :)
    have hf₁ : s₁.fault = s.fault := (congrArg State.fault h :)
    rw [h, hl, hf₁, Option.isNone_eq_false_iff.mpr hlisted, Bool.or_false]
    rfl
  have hcur : (wakeJoiners t (s.ended t)).current = s.current :=
    congrArg Flags.current (flags_wakeAll _ _ _)
  calc haltFrom cfg t s₁
      = if (wakeJoiners t (s.ended t)).current = some t then
          ndScheduler cfg (wakeJoiners t (s.ended t)) else wakeJoiners t (s.ended t) := by
        rw [← hended]
        rfl
    _ = _ := by rw [hcur]

/-- `nd_thread_halt` of a live thread.
kernel/nd_thread.c:180-220 -/
theorem ndThreadHalt_eq (hJ : Consistent s) (hlive : (s.threads t).stat.live) :
    ndThreadHalt cfg t s =
      if s.current = some t then ndScheduler cfg (wakeJoiners t (s.ended t))
      else wakeJoiners t (s.ended t) := by
  by_cases hr : (s.threads t).stat = .ready
  · have hfrom : ndThreadHalt cfg t s = haltFrom cfg t (ndThreadReadyRemove t s) := by
      unfold ndThreadHalt
      simp only [hr]
      rfl
    rw [hfrom]
    refine haltFrom_eq hJ hlive ?_
    rw [hJ.readyRemove_eq hr]
    simp [ndTimerStop, timerRemove, State.pulled]
  by_cases hb : (s.threads t).stat = .block
  · have hfrom : ndThreadHalt cfg t s =
        haltFrom cfg t (if s.isLinked t then s.listRemove t else s) := by
      unfold ndThreadHalt
      simp only [hb]
      rfl
    rw [hfrom]
    refine haltFrom_eq hJ hlive ?_
    rcases hJ.blocked hb with ⟨h, hq, hw, -⟩ | ⟨hq, -, -⟩
    · rw [hJ.pulled_waiting hw hq]
      simp only [State.isLinked, hq]
      rfl
    · rw [pulled_delayed hb hq]
      simp only [State.isLinked, hq]
      rfl
  · have hfrom : ndThreadHalt cfg t s = haltFrom cfg t s := by
      have hd := hlive.2
      unfold ndThreadHalt
      cases hst : (s.threads t).stat <;> simp_all <;> rfl
    rw [hfrom]
    refine haltFrom_eq hJ hlive ?_
    rw [hJ.pulled_eq hr hb]
    simp [ndTimerStop, timerRemove, s.tree.unlink_of_free (hJ.unarmed hb)]

/-- What ending `t` and waking its joiners does to the other threads: the priorities stay, and a
thread changes its state only from waiting for `t` to ready. -/
structure Halted (s s' : State) (t : Tid) : Prop where
  free : s'.queues.home t = none
  home : ∀ u, u ≠ t → s'.queues.home u = some (.join t) → s.queues.home u = some (.join t)
  priority : ∀ u, (s'.threads u).priority = (s.threads u).priority
  stat : ∀ u, u ≠ t → (s'.threads u).stat = (s.threads u).stat ∨
    s.queues.home u = some (.join t) ∧ (s'.threads u).stat = .ready
  dead : (s'.threads t).stat = .dead

/-- Ending a thread changes no other thread. -/
theorem Halted.ended (s : State) (t : Tid) : Halted s (s.ended t) t where
  free := by simp [State.ended, State.parked]
  home u hu h := by simpa [State.ended, State.parked, hu] using h
  priority u := by
    by_cases hu : u = t
    · subst hu; simp [endEdit]
    · simp [hu]
  stat u hu := .inl (by simp [hu])
  dead := by simp [endEdit]

/-- The node of a thread that became ready is on a ready list. -/
theorem home_readied (s : State) (t : Tid) (pos : Tid → Bool) (f : Thread → Thread) (u : Tid) :
    (s.readied t pos f).queues.home u =
      if u = t then some (.ready (f (s.threads t)).priority) else s.queues.home u := by
  unfold State.readied
  rw [setReadyBit_queues, State.listInsert_queues, Intrusive.Queues.home_link _ _ _ (by simp)]
  by_cases hu : u = t <;> simp [hu]

/-- Waking one joiner. -/
theorem Halted.wake {s' : State} (h : Halted s s' t) {j : Tid}
    (hj : s'.queues.home j = some (.join t)) :
    Halted s (s'.readied j (fun _ => false) wakeEdit) t := by
  have hjt : j ≠ t := by
    rintro rfl
    rw [h.free] at hj
    cases hj
  refine
    { free := by rw [home_readied, if_neg hjt.symm]; exact h.free
      home := fun u hu hh => ?_
      priority := fun u => ?_
      stat := fun u hu => ?_
      dead := by simpa [hjt.symm] using h.dead }
  · rw [home_readied] at hh
    split at hh
    · cases hh
    · exact h.home u hu hh
  · by_cases huj : u = j
    · subst huj; simpa [wakeEdit] using h.priority u
    · simpa [huj] using h.priority u
  · by_cases huj : u = j
    · subst huj
      exact .inr ⟨h.home u hu hj, by simp [wakeEdit]⟩
    · simpa [huj] using h.stat u hu

/-- `nd_thread_halt` keeps the kernel consistent, up to the final `nd_scheduler`.
kernel/nd_thread.c:180-220 -/
theorem ConsistentBut.halted (hJ : Consistent s) (hne : t ≠ idleTid) :
    Consistent (wakeJoiners t (s.ended t)) ∧ Halted s (wakeJoiners t (s.ended t)) t := by
  obtain ⟨h, hH, hl⟩ := wakeAll_spec (h := .join t) rfl (fun s' => Halted s s' t)
    (fun _ _ _ hH hj => hH.wake hj) _ (s.ended t) (hJ.ended hne) (Halted.ended s t) le_rfl
  exact ⟨h.closeJoin hl, hH⟩

/-! ## Waiting -/

/-- What `nd_thread_pend` writes to the control block. -/
def pendEdit (th : Thread) : Thread := { th with error := .eok, stat := .block }

/-- Thread `t` put on wait list `h` in priority order. -/
@[simps! threads taken threadList readyBit current next nest trySwitch timers tree clock sems
  mutexes
  msgQueues events pools pendsv calls log picks]
def State.waiting (s : State) (t : Tid) (h : QHead) : State :=
  (s.updThread t pendEdit).listInsert
    (fun pos => (s.threads t).priority < (s.threads pos).priority) h t

/-- The wait timer of thread `t` started, unless it waits forever. -/
def startWaitTimer (cfg : Config) (t : Tid) (timeout : ℕ) (s : State) : State :=
  if timeout ≠ ndTimeoutForever then
    (ndTimerStart cfg (.wait t)
      (s.updTimer (.wait t) fun tm => { tm with timeout, callback := .pendTimeout })).1
  else s

/-- `nd_thread_pend` puts the current thread on the wait list and starts its timer.
kernel/nd_thread.c:95-109 -/
theorem ndThreadPend_eq {h : QHead} {timeout : ℕ} (hc : s.current = some t) :
    ndThreadPend cfg h timeout s = startWaitTimer cfg t timeout
      ((s.emit (.pend t h (s.threads t).stat (s.isLinked t))).waiting t h) := by
  unfold ndThreadPend
  simp only [hc]
  rfl

/-- A running thread other than the idle thread starts to wait.
kernel/nd_thread.c:81-109 -/
theorem ConsistentBut.pend (hJ : ConsistentBut d s) (hc : s.current = some t)
    (hrun : (s.threads t).stat = .running) (hne : t ≠ idleTid) {h : QHead} (hw : h.isWait = true)
    (hjoin : ∀ u, h = .join u → (s.threads u).stat.live) (cfg : Config) (timeout : ℕ) :
    ConsistentBut d (ndThreadPend cfg h timeout s) := by
  rw [ndThreadPend_eq hc]
  generalize Event.pend t h _ _ = e
  have hrun' : (s.threads t).stat ≠ .ready ∧ (s.threads t).stat ≠ .block := by
    rw [hrun]; exact ⟨by decide, by decide⟩
  have hlive : (s.threads t).stat.live := by rw [hrun]; exact ⟨by decide, by decide⟩
  have hL : Loose d t ((s.emit e).updThread t pendEdit) :=
    ((hJ.loose hrun'.1 hrun'.2).of_core (y := s.emit e) rfl).updThread (hJ.ok t).prio
      (hJ.ok t).initPrio rfl
  have hnext : s.next ≠ some t := by
    intro hn
    rcases (hJ.ok t).next hn with h | h | h <;> rw [hrun] at h <;> cases h
  have hJ' : ConsistentBut d ((s.emit e).waiting t h) := by
    refine hL.waitOn _ hw (by simp [pendEdit]) ((hJ.ok t).listed.mpr hlive) (fun u hu => .inr ?_)
      hnext hne
    by_cases hut : u = t
    · subst hut
      simp only [State.updThread_threads, Function.update_self, pendEdit]
      exact ⟨by decide, by decide⟩
    · simpa [hut] using hjoin u hu
  unfold startWaitTimer
  split
  · refine hJ'.startWait cfg (k := h) ?_ hw rfl (hJ.ok t).oneShot
    have hfree := hJ.home_none hrun'.1 hrun'.2
    simp [State.waiting, s.queues.home_link _ _ hfree]
  · exact hJ'

/-- `nd_timer_start` changes timers only.
kernel/nd_timer.c:186-208 -/
theorem untimed_timerStart (cfg : Config) (u : TimerId) (s : State) :
    (ndTimerStart cfg u s).1.untimed = s.untimed := by
  by_cases h : (s.timers u).callback = .none
  · rw [timerStart_refused cfg h]
  · rw [timerStart_eq cfg h]
    rfl

/-- What `nd_thread_delay` writes to the control block. -/
def delayStart (th : Thread) : Thread :=
  if th.timeSlice ≠ 0 then { th with sliceLeft := th.timeSlice, sliceStart := 0, stat := .block }
  else { th with stat := .block }

/-- Thread `t` at the beginning of a delay: its slice is put back and its wait timer runs. -/
def State.delayed (cfg : Config) (s : State) (t : Tid) (n : ℕ) : State :=
  let s :=
    if (s.threads t).timeSlice ≠ 0 then
      (ndTimerStop (.slice t) s).updThread t fun th =>
        { th with sliceLeft := th.timeSlice, sliceStart := 0 }
    else s
  let s := s.updThread t fun th => { th with stat := .block }
  let s := s.updTimer (.wait t) fun tm => { tm with timeout := n, callback := .threadTimer }
  (ndTimerStart cfg (.wait t) s).1

/-- `nd_thread_delay` of the current thread, and the scheduler behind it. -/
theorem ndThreadDelay_eq (cfg : Config) (hc : s.current = some t) (n : ℕ) :
    ndThreadDelay cfg n s = ndScheduler cfg (s.delayed cfg t n) := by
  unfold ndThreadDelay
  simp only [hc]
  rfl

/-- A running thread other than the idle thread starts a delay: its control block and the timers
change.
kernel/nd_scheduler.c:321-336 -/
theorem ConsistentBut.delayed (cfg : Config) (hJ : ConsistentBut d s)
    (hrun : (s.threads t).stat = .running) (hne : t ≠ idleTid) (n : ℕ) :
    ConsistentBut d (s.delayed cfg t n) ∧
      (s.delayed cfg t n).untimed = (s.updThread t delayStart).untimed := by
  have hlive : (s.threads t).stat.live := by rw [hrun]; exact ⟨by decide, by decide⟩
  have hnext : s.next ≠ some t := by
    intro hn
    rcases (hJ.ok t).next hn with h | h | h <;> rw [hrun] at h <;> cases h
  have hL := hJ.loose (t := t) (by rw [hrun]; decide) (by rw [hrun]; decide)
  -- the slice of a thread that has one is put back
  obtain ⟨s₁, he, hL₁, hu₁⟩ : ∃ s₁, (if (s.threads t).timeSlice ≠ 0 then
        (ndTimerStop (.slice t) s).updThread t fun th =>
          { th with sliceLeft := th.timeSlice, sliceStart := 0 }
        else s) = s₁ ∧ Loose d t s₁ ∧
      (s₁.updThread t fun th => { th with stat := .block }).untimed =
        (s.updThread t delayStart).untimed := by
    by_cases hts : (s.threads t).timeSlice = 0
    · rw [if_neg (by simpa using hts)]
      refine ⟨_, rfl, hL, ?_⟩
      simp [State.untimed, State.updThread, delayStart, hts]
    · rw [if_pos hts]
      refine ⟨_, rfl, (hL.stopSlice t).inert {}, ?_⟩
      simp [State.untimed, State.updThread, delayStart, hts, ndTimerStop, timerRemove]
  have hL₂ : Loose d t (s₁.updThread t fun th => { th with stat := .block }) :=
    hL₁.updThread hL₁.prio hL₁.initPrio rfl
  have hl : s₁.threadList = s.threadList := (congrArg State.threadList hu₁ :)
  have hn : s₁.next = s.next := (congrArg State.next hu₁ :)
  unfold State.delayed
  simp only [he]
  refine ⟨hL₂.startDelay cfg (by simp) ?_ ?_ hne rfl hL₁.oneShot, ?_⟩
  · simpa [hl] using (hJ.ok t).listed.mpr hlive
  · simpa [hn] using hnext
  · rw [untimed_timerStart]
    exact hu₁

/-! ## Being created -/

/-- The arguments that `nd_thread_create` accepts. -/
def CreateArgs.accepted (a : CreateArgs) : Prop :=
  a.name ≠ none ∧ a.entry ≠ none ∧ a.stack ≠ none ∧ a.stackSize ≠ 0 ∧ a.priority < 32

/-- Thread `t` as `nd_thread_create` sets it up, before it is put on a ready list. -/
def State.created (s : State) (t : Tid) (a : CreateArgs) : State :=
  let s := ndThreadInit t a s
  let s := s.updThread t fun th => { th with options := a.options, stat := .ready }
  { s with threadList := s.threadList.link (fun _ => false) () t }

/-- `nd_thread_create` with arguments that it accepts.
kernel/nd_thread.c:222-315 -/
theorem ndThreadCreate_eq {a : CreateArgs} (ht : a.thread = some t) (ha : a.accepted) :
    (ndThreadCreate cfg a s).1 = ndScheduler cfg (ndThreadReadyAddTail t (s.created t a)) := by
  obtain ⟨h₁, h₂, h₃, h₄, h₅⟩ := ha
  unfold ndThreadCreate ndThreadPriorityMax
  simp only [ht]
  rw [if_neg (by simp [h₁, h₂, h₃, h₄]; omega)]
  rfl

/-- `nd_thread_create` with arguments that it does not accept.
kernel/nd_thread.c:222-315 -/
theorem ndThreadCreate_refused {a : CreateArgs} (ha : ¬ a.accepted) :
    (ndThreadCreate cfg a s).1 = s := by
  unfold ndThreadCreate
  cases ht : a.thread with
  | none => rfl
  | some t =>
    simp only
    rw [if_pos]
    unfold CreateArgs.accepted at ha
    unfold ndThreadPriorityMax
    by_contra hn
    push Not at hn
    exact ha ⟨hn.1, hn.2.1, hn.2.2.1, hn.2.2.2.1, hn.2.2.2.2⟩

/-- The control block of a created thread. -/
def createEdit (a : CreateArgs) (th : Thread) : Thread :=
  { th with
    priority := a.priority
    initPriority := a.priority
    timeSlice := a.timeSlice
    sliceLeft := a.timeSlice
    sliceStart := 0
    yield := false
    stat := .ready
    options := a.options
    eventSet := 0
    eventOpt := .and }

/-- A control block that nothing is linked to is set up without a fault.
kernel/nd_thread.c:222-277 -/
theorem created_eq {a : CreateArgs} (hfree : s.inUse t = false) :
    s.created t a =
      { ((s.updThread t (createEdit a)).updTimer (.wait t) fun tm =>
          { tm with periodic := false }).updTimer (.slice t) fun tm =>
            { tm with periodic := false, callback := .sliceTimeout } with
        calls := Function.update s.calls t none
        threadList := s.threadList.link (fun _ => false) () t } := by
  unfold State.created ndThreadInit
  simp only [hfree, Bool.false_eq_true, if_false]
  simp [State.updThread, State.updTimer, createEdit]

/-- A control block that nothing is linked to becomes a ready thread.
kernel/nd_thread.c:279-315 -/
theorem Loose.create (h : Loose ∅ t s) (hfree : s.inUse t = false) {a : CreateArgs}
    (ha : a.accepted) (hidle : t = idleTid → a.options &&& ndThreadOptEssential ≠ 0) :
    Consistent (ndThreadReadyAddTail t (s.created t a)) := by
  have hp : a.priority < 32 := ha.2.2.2.2
  obtain ⟨⟨⟨⟨⟨-, hlist⟩, -⟩, -⟩, -⟩, hslice⟩ : ((((s.isLinked t = false ∧
      (s.threadList.home t).isSome = false) ∧ (s.taken.lists t).isEmpty = true) ∧
      s.listIsEmpty (.join t) = true) ∧ s.isArmed (.wait t) = false) ∧
      s.isArmed (.slice t) = false := by
    simpa [State.inUse] using hfree
  have hlist' : s.threadList.home t = none := by simpa using hlist
  have hL : Loose ∅ t (s.created t a) := by
    rw [created_eq hfree]
    have hL₁ : Loose ∅ t (s.updThread t (createEdit a)) := h.edit hp hp fun ha => by
      rw [hslice] at ha
      cases ha
    have hL₂ := hL₁.updTimer (f := fun tm => { tm with periodic := false }) rfl
    have hL₃ := hL₂.updTimer_slice t
      (f := fun tm => { tm with periodic := false, callback := .sliceTimeout }) rfl
    have hL₄ := hL₃.setList (l := s.threadList.link (fun _ => false) () t)
      fun u hu => s.threadList.home_link_of_ne _ _ hu
    exact hL₄.of_core rfl
  have hth : (s.created t a).threads t = createEdit a (s.threads t) := by
    rw [created_eq hfree]
    simp
  rw [readyAddTail_eq (by rw [hth]; exact hp)]
  refine hL.addReady _ (by rw [hth]; rfl) ?_ fun ht => ?_
  · rw [created_eq hfree]
    simp [s.threadList.home_link _ _ hlist']
  · rw [hth]
    exact decide_eq_true (hidle ht)

end NerdRtos
