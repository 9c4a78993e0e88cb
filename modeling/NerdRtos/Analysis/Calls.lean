import NerdRtos.Analysis.Steps

/-!
# The calls on semaphores, mutexes, queues, events, pools and timers

Every call keeps the invariant (`Kept`). A blocking call that has to wait is made by a running
thread, which `nd_thread_pend` puts on the wait list before `nd_scheduler` runs. On a
sync port `nd_scheduler` comes back with another current thread; on a deferred port it comes back
with the same one, so a call that waits in a loop pends it again, which is a fault.
-/

set_option autoImplicit false

namespace NerdRtos

variable {cfg : Config} {C : Prop} {s s' : State} {t : Tid}

/-! ## Waking -/

/-- Waking a waiter, possibly with a note in the history, and rescheduling. -/
theorem Kept.wake (hS : Sound cfg s) {h : QHead} (hw : h.isWait = true)
    (hq : s.queues.home t = some h) {f : Thread → Thread}
    (hr : (f (s.threads t)).stat = .ready)
    (hp : (f (s.threads t)).priority = (s.threads t).priority)
    (hi : (f (s.threads t)).initPriority = (s.threads t).initPriority)
    (ho : (f (s.threads t)).options = (s.threads t).options)
    (hts : (f (s.threads t)).timeSlice = (s.threads t).timeSlice)
    (he : s'.bare = (s.readied t (fun _ => false) f).bare) :
    Kept cfg C s (ndScheduler cfg s') := by
  have hJ := hS.consistent.readied_of (.inl (hS.consistent.block_of_home hw hq)) hr hp hi ho hts
  exact .reschedule hS (hJ.of_core (congrArg State.core he :)) (congrArg State.flags he :)

/-- Waking the first waiter of a list that is not empty. -/
theorem ndThreadWakeup_cons (hJ : Consistent s) {h : QHead} (hw : h.isWait = true)
    (hne : s.listIsEmpty h = false) :
    ∃ t, (s.queues.lists h).head? = some t ∧ s.queues.home t = some h ∧
      ndThreadWakeup h s = (s.readied t (fun _ => false) wakeEdit, some t) := by
  unfold State.listIsEmpty at hne
  cases hl : s.queues.lists h with
  | nil =>
    rw [hl] at hne
    cases hne
  | cons t rest =>
    have hh : (s.queues.lists h).head? = some t := by rw [hl]; rfl
    exact ⟨t, rfl, (hJ.block_of_head hw hh).1, ndThreadWakeup_eq hJ hw hh⟩

/-- `nd_sem_release`: nobody waits, or the first waiter becomes ready and the scheduler runs.
kernel/nd_sem.c:17-33 -/
theorem ndSemRelease_cases (hJ : Consistent s) (cfg : Config) (i : ℕ) :
    s.queues.lists (.sem i) = [] ∧
        (ndSemRelease cfg i s).1 = (s.emit (.semReleased i)).updSem i (fun m =>
          { m with val := m.val + 1 }) ∨
      ∃ t, (s.queues.lists (.sem i)).head? = some t ∧ s.queues.home t = some (.sem i) ∧
        (s.threads t).stat = .block ∧
        Consistent (((s.emit (.semReleased i)).readied t (fun _ => false) wakeEdit).emit
          (.semHanded t i)) ∧
        (ndSemRelease cfg i s).1 = ndScheduler cfg
          (((s.emit (.semReleased i)).readied t (fun _ => false) wakeEdit).emit
              (.semHanded t i)) := by
  have hJ' : Consistent (s.emit (.semReleased i)) := ConsistentBut.of_core hJ rfl
  unfold ndSemRelease
  by_cases he : (s.emit (.semReleased i)).listIsEmpty (.sem i) = true
  · have hnil : s.queues.lists (.sem i) = [] := by simpa [State.listIsEmpty] using he
    simp only [he, if_true]
    exact .inl ⟨hnil, trivial⟩
  · obtain ⟨t, hh, hq, hwk⟩ := ndThreadWakeup_cons hJ' (h := .sem i) rfl (by simpa using he)
    have hst : (s.threads t).stat = .block := hJ.block_of_home (h := .sem i) rfl hq
    simp only [he, Bool.false_eq_true, if_false, hwk]
    exact .inr ⟨t, hh, hq, hst, (hJ'.readied_of (.inl hst) rfl rfl rfl rfl rfl).of_core rfl, rfl⟩

/-- `nd_sem_release`.
kernel/nd_sem.c:17-33 -/
theorem Sound.semRelease (hS : Sound cfg s) (i : ℕ) : Kept cfg C s (ndSemRelease cfg i s).1 := by
  rcases ndSemRelease_cases hS.consistent cfg i with ⟨-, he⟩ | ⟨t, -, hq, -, -, he⟩
  · rw [he]
    exact .of_bare hS rfl
  · rw [he]
    exact .wake hS (h := .sem i) rfl hq rfl rfl rfl rfl rfl rfl

/-- `wakeupIfAny`, the end of a queue operation and of `nd_mempool_free`: nobody waits, or the first
waiter becomes ready and the scheduler runs.
kernel/nd_queue.c:58-62, 96-100, kernel/nd_mempool.c:79-82 -/
theorem wakeupIfAny_cases (hJ : Consistent s) (cfg : Config) {h : QHead} (hw : h.isWait = true) :
    s.queues.lists h = [] ∧ wakeupIfAny cfg h s = s ∨
      ∃ t, (s.queues.lists h).head? = some t ∧ s.queues.home t = some h ∧
        (s.threads t).stat = .block ∧
        Consistent ((s.readied t (fun _ => false) wakeEdit).emit (.woken t h)) ∧
        wakeupIfAny cfg h s = ndScheduler cfg
          ((s.readied t (fun _ => false) wakeEdit).emit (.woken t h)) := by
  unfold wakeupIfAny
  by_cases he : s.listIsEmpty h = true
  · have hnil : s.queues.lists h = [] := by simpa [State.listIsEmpty] using he
    rw [if_pos he]
    exact .inl ⟨hnil, rfl⟩
  · obtain ⟨t, hh, hq, hwk⟩ := ndThreadWakeup_cons hJ hw (by simpa using he)
    have hst := hJ.block_of_home hw hq
    rw [if_neg he, hwk]
    exact .inr ⟨t, hh, hq, hst, (hJ.readied_of (.inl hst) rfl rfl rfl rfl rfl).of_core rfl, rfl⟩

/-- The end of a queue operation and of `nd_mempool_free`. -/
theorem Kept.wakeupIfAny (hS : Sound cfg s) {h : QHead} (hw : h.isWait = true)
    (he : s'.bare = s.bare) : Kept cfg C s (wakeupIfAny cfg h s') := by
  have hK : Kept cfg C s s' := .of_bare hS he
  refine hK.trans ?_
  rcases wakeupIfAny_cases hK.sound.consistent cfg hw with ⟨-, he⟩ | ⟨t, -, hq, -, -, he⟩
  · rw [he]
    exact .refl hK.sound
  · rw [he]
    exact .wake hK.sound hw hq rfl rfl rfl rfl rfl rfl

/-- `nd_mempool_free` of a block that the assertions accept.
kernel/nd_mempool.c:64-85 -/
theorem Sound.mempoolFree (hS : Sound cfg s) {p ptr : ℕ}
    (hok : cfg.debug = true → ndMempoolFreeOk (s.pools p) ptr = true) :
    Kept cfg C s (ndMempoolFree cfg p ptr s) := by
  unfold ndMempoolFree
  rw [if_neg (by rintro ⟨h₁, h₂⟩; rw [hok h₁] at h₂; cases h₂)]
  exact .wakeupIfAny hS rfl rfl

/-! ## Events -/

/-- One turn of the loop of `nd_event_send`, at a waiter.
kernel/nd_event.c:47-52 -/
theorem eventVisit_eq (hJ : Consistent s) {e : ℕ} (hq : s.queues.home t = some (.event e)) :
    ∃ s' : State, s'.bare = s.bare ∧ (eventVisit e s t = s ∨ eventVisit e s t =
      s'.readied t (fun _ => false) fun th => { th with stat := .ready }) := by
  unfold eventVisit
  split
  · set s₁ := s.updEvent e fun g =>
      { g with set := clearBits g.set (s.threads t).eventSet } with hs₁
    refine ⟨s₁.emit (.eventHanded t e (s.threads t).eventSet (s.events e).set (s₁.events e).set),
      rfl, .inr ?_⟩
    refine ndEventWakeup_eq (h := .event e) (ConsistentBut.of_core (d := ∅) hJ ?_) rfl hq
    rfl
  · exact ⟨s, rfl, .inl rfl⟩

/-- The loop of `nd_event_send` visits waiters that are still on the list: whatever each visit keeps
holds at the end.
kernel/nd_event.c:47-52 -/
theorem eventFold_spec {e : ℕ} (P : State → Prop)
    (hP : ∀ s t, Consistent s → P s → s.queues.home t = some (.event e) → P (eventVisit e s t)) :
    ∀ (ts : List Tid) (s : State), Consistent s → P s → ts.Nodup →
      (∀ t ∈ ts, s.queues.home t = some (.event e)) →
      Consistent (ts.foldl (eventVisit e) s) ∧ P (ts.foldl (eventVisit e) s) := by
  intro ts
  induction ts with
  | nil => exact fun s hJ hs _ _ => ⟨hJ, hs⟩
  | cons t ts ih =>
    intro s hJ hs hnd hon
    rw [List.nodup_cons] at hnd
    have hq := hon t (by simp)
    obtain ⟨s₁, hbare, hv⟩ := eventVisit_eq hJ hq
    have hJ₁ : Consistent s₁ := hJ.of_core (congrArg State.core hbare :)
    have hth : s₁.threads = s.threads := (congrArg State.threads hbare :)
    have hqs : s₁.queues = s.queues := (congrArg State.queues hbare :)
    have hst : (s₁.threads t).stat = .block := by
      rw [hth]; exact hJ.block_of_home rfl hq
    refine ih _ ?_ (hP s t hJ hs hq) hnd.2 fun u hu => ?_
    · rcases hv with h | h
      · rw [h]; exact hJ
      · rw [h]; exact hJ₁.readied_of (.inl hst) rfl rfl rfl rfl rfl
    · have hut : u ≠ t := fun h => hnd.1 (h ▸ hu)
      rcases hv with h | h
      · rw [h]; exact hon u (by simp [hu])
      · rw [h, home_readied, if_neg hut, hqs]
        exact hon u (by simp [hu])

/-- Visiting a waiter does not change the scheduling flags. -/
theorem flags_eventVisit (e : ℕ) (s : State) (t : Tid) : (eventVisit e s t).flags = s.flags := by
  unfold eventVisit
  split
  · unfold ndEventWakeup
    rw [(flags_readyAdd t _).1]
    rfl
  · rfl

/-- `nd_event_send`.
kernel/nd_event.c:38-59 -/
theorem Sound.eventSend (hS : Sound cfg s) (e : ℕ) (set : BitVec 32) :
    Kept cfg C s (ndEventSend cfg e set s).1 := by
  unfold ndEventSend
  set s₁ := (s.emit (.eventSent e set)).updEvent e fun g =>
    { g with set := g.set ||| set.setWidth 64 } with hs₁
  have hJ₁ : Consistent s₁ := hS.consistent.of_core rfl
  obtain ⟨hJ, hfl⟩ := eventFold_spec (e := e) (fun x => x.flags = s.flags)
    (fun x t _ hx _ => (flags_eventVisit e x t).trans hx) (s₁.queues.lists (.event e)) s₁ hJ₁ rfl
    (s₁.queues.nodup _) fun t ht => (s₁.queues.mem_iff _ _).mp ht
  exact .reschedule hS hJ hfl

/-! ## Timers of the application -/

/-- `nd_timer_start` of a timer of the application.
kernel/nd_timer.c:186-208 -/
theorem Sound.timerStart (hS : Sound cfg s) (u : ℕ) :
    Kept cfg C s (ndTimerStart cfg (.user u) s).1 := by
  by_cases h : (s.timers (.user u)).callback = .none
  · rw [timerStart_refused cfg h]; exact .refl hS
  · rw [timerStart_eq cfg h]
    exact .userTimer hS rfl (fun v hv => by simp [hv u]) (fun v hv => by simp [hv u])

/-- `nd_timer_stop` of a timer of the application.
kernel/nd_timer.c:210-224 -/
theorem Sound.timerStop (hS : Sound cfg s) (u : ℕ) : Kept cfg C s (ndTimerStop (.user u) s) :=
  .userTimer hS rfl (fun v hv => by simp [ndTimerStop, hv u]) fun _ _ => rfl

/-- `nd_timer_init` of a timer that is not armed.
kernel/nd_timer.c:149-184 -/
theorem Sound.timerInit (hS : Sound cfg s) {u : ℕ} {periodic : Bool} {timeout : ℕ}
    {callback : Callback} (hv : s.isArmed (.user u) = false) :
    Kept cfg C s (ndTimerInit u periodic timeout callback s).1 := by
  unfold ndTimerInit
  split
  · exact .refl hS
  split
  · exact .refl hS
  · have hv' : (s.updTimer (.user u) fun t => { t with periodic, timeout, callback }).isArmed
        (.user u) = false := hv
    simp only [hv', Bool.false_eq_true, if_false]
    exact .userTimer hS rfl (fun _ _ => rfl) fun v hv => by simp [hv u]

/-! ## Contexts -/

/-- The current thread of `threadMode` is the one that runs outside of interrupts, with no switch
pending, and it is not the idle thread. -/
theorem threadMode_eq (h : threadMode s = some t) :
    s.nest = 0 ∧ s.pendsv = false ∧ s.current = some t ∧ t ≠ idleTid := by
  unfold threadMode at h
  split at h
  · rename_i hc
    exact ⟨hc.1, hc.2.1, h, fun ht => hc.2.2 (ht ▸ h)⟩
  · cases h

/-- A thread that executes its own code is running. -/
theorem Sound.runs (hS : Sound cfg s) (h : threadMode s = some t) :
    (s.threads t).stat = .running := by
  obtain ⟨hn, hp, hc, -⟩ := threadMode_eq h
  exact hS.settled.runs t hc hp (hS.settled.flag hn)

/-- A call is made by a thread that is inside of none, or by `main` before the kernel starts. -/
theorem call_allowed {o : Op} (ha : allowed cfg s (.call o) = true) :
    o.valid s = true ∧ ((∃ t, threadMode s = some t ∧ s.calls t = none) ∨ s.current = none ∧
      o.fromIrq = true) := by
  simp only [allowed, Bool.and_eq_true] at ha
  obtain ⟨-, hv, hctx⟩ := ha
  refine ⟨hv, ?_⟩
  cases hm : threadMode s with
  | some t => exact .inl ⟨t, rfl, by simpa [hm] using hctx⟩
  | none => exact .inr (by simpa [hm] using hctx)

/-- A call is made in thread mode, unless handlers may make it. -/
theorem context_of_call {o : Op} (ha : allowed cfg s (.call o) = true) :
    o.fromIrq = true ∨ ∃ t, threadMode s = some t := by
  rcases (call_allowed ha).2 with ⟨t, hm, -⟩ | ⟨-, hirq⟩
  · exact .inr ⟨t, hm⟩
  · exact .inl hirq

/-- A call that interrupt handlers cannot make comes from a thread. -/
theorem threadMode_of_call {o : Op} (ha : allowed cfg s (.call o) = true) (ho : o.fromIrq = false) :
    ∃ t, threadMode s = some t := by
  apply (context_of_call ha).resolve_left
  rw [ho]
  exact Bool.false_ne_true

/-- A thread that makes a call is inside of none. -/
theorem outside_of_allowed {o : Op} (ha : allowed cfg s (.call o) = true)
    (hc : s.current = some t) :
    threadMode s = some t ∧ s.calls t = none := by
  rcases (call_allowed ha).2 with ⟨w, hm, hnone⟩ | ⟨hmain, -⟩
  · have hwt : w = t := Option.some.inj ((threadMode_eq hm).2.2.1.symm.trans hc)
    subst hwt
    exact ⟨hm, hnone⟩
  · rw [hmain] at hc
    cases hc

/-- Only a thread inside of a call goes on with it. -/
theorem resume_allowed (ha : allowed cfg s .resume = true) : ∃ t, threadMode s = some t ∧
    s.calls t ≠ none := by
  simp only [allowed, Bool.and_eq_true] at ha
  cases hm : threadMode s with
  | none => simp [hm] at ha
  | some t => exact ⟨t, rfl, by simpa [hm] using ha.2⟩

/-- A call in a handler is one that handlers may make. -/
theorem irq_allowed {o : Op} (ha : allowed cfg s (.irq o) = true) :
    0 < s.nest ∧ o.fromIrq = true ∧ o.valid s = true := by
  simp only [allowed, Bool.and_eq_true, decide_eq_true_eq] at ha
  exact ⟨ha.2.1.1, ha.2.1.2, ha.2.2⟩

/-- The timers are processed in a handler, and one is due. -/
theorem timerFire_allowed (ha : allowed cfg s .timerFire = true) :
    0 < s.nest ∧ ∃ u, leftmostTimer s = some u ∧ (s.timers u).expireTime ≤ s.clock := by
  simp only [allowed, Bool.and_eq_true, decide_eq_true_eq] at ha
  refine ⟨ha.2.1, ?_⟩
  cases hl : leftmostTimer s with
  | none => simp [hl] at ha
  | some u => exact ⟨u, rfl, by simpa [hl] using ha.2.2⟩

/-- A handler returns from an interrupt. -/
theorem irqExit_allowed (ha : allowed cfg s .irqExit = true) : 0 < s.nest := by
  simp only [allowed, Bool.and_eq_true, decide_eq_true_eq] at ha
  exact ha.2

/-- PendSV is taken behind the last interrupt. -/
theorem pendsv_allowed (ha : allowed cfg s .pendsv = true) : s.pendsv = true ∧ s.nest = 0 := by
  simp only [allowed, Bool.and_eq_true, decide_eq_true_eq] at ha
  exact ha.2

/-- The first thread is started once. -/
theorem start_allowed (ha : allowed cfg s .start = true) : s.current = none := by
  simp only [allowed, Bool.and_eq_true, decide_eq_true_eq] at ha
  exact ha.2

/-! ## Mutexes -/

/-- The lowest of a priority and some cached priorities is at most `q` exactly when one of them is.
kernel/nd_mutex.c:36-40 -/
theorem lowestPriority_le_iff (mx : Mid → Mutex) (ms : List Mid) (p q : ℕ) :
    lowestPriority mx p ms ≤ q ↔ p ≤ q ∨ ∃ m ∈ ms, (mx m).priority ≤ q := by
  unfold lowestPriority
  induction ms generalizing p with
  | nil => simp
  | cons m ms ih =>
    rw [List.foldl_cons, ih]
    simp only [List.mem_cons, exists_eq_or_imp]
    split
    · constructor
      · rintro (h | h)
        · exact .inr (.inl h)
        · exact .inr (.inr h)
      · rintro (h | h | h)
        · exact .inl (by omega)
        · exact .inl h
        · exact .inr h
    · constructor
      · rintro (h | h)
        · exact .inl h
        · exact .inr (.inr h)
      · rintro (h | h | h)
        · exact .inl h
        · exact .inl (by omega)
        · exact .inr h

/-- The priority that `nd_mutex_unlock` restores: of the initial priority of the owner and the
cached priorities of the mutexes that it keeps, the lowest. -/
def restoredPriority (s : State) (c : Tid) (m : Mid) : ℕ :=
  lowestPriority s.mutexes (s.threads c).initPriority ((s.taken.lists c).erase m)

/-- Mutex `m` taken off the list of its owner `c`, whose priority is restored. -/
@[simps! threads queues threadList current next nest trySwitch timers tree clock sems mutexes
  msgQueues events pools pendsv calls log picks fault taken readyBit]
def State.released (s : State) (m : Mid) (c : Tid) : State :=
  { s.updThread c (Thread.withPriority (restoredPriority s c m)) with taken := s.taken.unlink m }

/-- The beginning of `nd_mutex_unlock` by the owner.
kernel/nd_mutex.c:32-55 -/
theorem restorePriority_eq (hJ : Consistent s) (hO : Owned s) {m : Mid} {c : Tid}
    (ho : (s.mutexes m).owner = some c) :
    ndMutexRestorePriority c (takenRemove m s) = s.released m c := by
  have hf := hJ.books.noFault
  have hm := (hO m c).mpr ho
  simp [ndMutexRestorePriority, State.released, State.updThread, Thread.withPriority,
    restoredPriority, takenRemove, hm, hf]

/-- The restored priority is a valid one.
kernel/nd_mutex.c:32-43 -/
theorem Sound.restored_lt (hS : Sound cfg s) (c : Tid) (m : Mid) : restoredPriority s c m < 32 := by
  have h := (lowestPriority_le_iff s.mutexes ((s.taken.lists c).erase m)
    (s.threads c).initPriority (s.threads c).initPriority).mpr (.inl le_rfl)
  have hi := (hS.consistent.ok c).initPrio
  unfold restoredPriority
  omega

/-- The thread that releases a mutex keeps the kernel consistent. -/
theorem Sound.released (hS : Sound cfg s) {c : Tid} (hr : (s.threads c).stat ≠ .ready) (m : Mid) :
    Consistent (s.released m c) :=
  (hS.consistent.withPriority hr (hS.restored_lt c m)).of_core rfl

/-- `nd_mutex_unlock` by the owner with nobody waiting.
kernel/nd_mutex.c:45-58 -/
theorem ndMutexUnlock_free (hJ : Consistent s) (hO : Owned s) {m : Mid} {c : Tid}
    (hc : s.current = some c) (ho : (s.mutexes m).owner = some c)
    (he : s.queues.lists (.mutex m) = []) :
    (ndMutexUnlock cfg m s).1 = (s.released m c).updMutex m fun mx =>
      { mx with owner := none, priority := ndThreadPriorityMax } := by
  unfold ndMutexUnlock
  simp only [hc, ho, ne_eq, not_true_eq_false, if_false, restorePriority_eq hJ hO ho]
  rw [if_pos (by simp [State.listIsEmpty, he])]

/-- Mutex `m` handed to waiter `w`. -/
def State.handed (s : State) (m : Mid) (w : Tid) : State :=
  takenInsert w m (s.updMutex m fun mx => { mx with owner := some w })

/-- Handing over a mutex that is on no list changes ownership only. -/
theorem core_handed {m : Mid} (h : s.taken.home m = none) (w : Tid) :
    (s.handed m w).core = s.core := by
  unfold State.handed takenInsert State.core
  simp only [State.updMutex_taken, h, Option.isSome_none, Bool.or_false]
  rfl

/-- `nd_mutex_unlock` by the owner hands the mutex to the first waiter.
kernel/nd_mutex.c:45-70 -/
theorem ndMutexUnlock_hand (hS : Sound cfg s) {m : Mid} {c w : Tid}
    (hc : s.current = some c) (hr : (s.threads c).stat ≠ .ready)
    (ho : (s.mutexes m).owner = some c) (hw : (s.queues.lists (.mutex m)).head? = some w) :
    (ndMutexUnlock cfg m s).1 = ndScheduler cfg
      (((s.released m c).readied w (fun _ => false) wakeEdit).handed m w) := by
  have hne : (s.released m c).listIsEmpty (.mutex m) = false := by
    cases hl : s.queues.lists (.mutex m) with
    | nil =>
      rw [hl] at hw
      cases hw
    | cons x xs => simp [State.listIsEmpty, hl]
  have hwk := ndThreadWakeup_eq (hS.released hr m) (h := .mutex m) rfl (t := w) (by simpa using hw)
  unfold ndMutexUnlock
  simp only [hc, ho, ne_eq, not_true_eq_false, if_false,
    restorePriority_eq hS.consistent hS.owned ho, hne, Bool.false_eq_true, hwk]
  rfl

/-- After an unlock that wakes nobody, the owner must not be left below a ready thread: for every
ready thread, its own priority or a mutex that it keeps must still hold it above. -/
def UnlockLeads (s : State) (m : Mid) : Prop :=
  ∀ c, s.current = some c → (s.mutexes m).owner = some c → s.queues.lists (.mutex m) = [] →
    ∀ r, (s.threads r).stat = .ready → (s.threads c).initPriority ≤ (s.threads r).priority ∨
      ∃ k, k ≠ m ∧ (s.mutexes k).owner = some c ∧ (s.mutexes k).priority ≤ (s.threads r).priority

/-- `nd_mutex_unlock`. Without waiters it does not reach `nd_scheduler`, so the priority that it
restores must still lead.
kernel/nd_mutex.c:45-70 -/
theorem Sound.mutexUnlock (hS : Sound cfg s) {c : Tid} (h : threadMode s = some c) {m : Mid}
    (hC : C → UnlockLeads s m) : Kept cfg C s (ndMutexUnlock cfg m s).1 := by
  obtain ⟨-, -, hc, -⟩ := threadMode_eq h
  have hrun := hS.runs h
  have hr : (s.threads c).stat ≠ .ready := by rw [hrun]; decide
  by_cases ho : (s.mutexes m).owner = some c
  · have hJ := hS.released hr m
    cases hl : s.queues.lists (.mutex m) with
    | nil =>
      rw [ndMutexUnlock_free hS.consistent hS.owned hc ho hl]
      set s' := (s.released m c).updMutex m fun mx =>
        { mx with owner := none, priority := ndThreadPriorityMax } with hs'
      have hstat : ∀ u, (s'.threads u).stat = (s.threads u).stat := by
        intro u
        by_cases hu : u = c
        · subst hu; simp [hs', Thread.withPriority]
        · simp [hs', hu]
      refine ⟨⟨hJ.of_core rfl, .of_sched (s := s) rfl hS.settled fun u _ hu => ?_, fun k u => ?_⟩,
        fun hCC hR u hcu hp ht r hrr => ?_⟩
      · rwa [hstat]
      · by_cases hk : k = m
        · subst hk; simp [hs']
        · simpa [hs', hk] using hS.owned k u
      · have hu : c = u := Option.some.inj (hc.symm.trans hcu)
        subst hu
        have hpr : (s'.threads c).priority = restoredPriority s c m := by
          simp [hs', Thread.withPriority]
        have hrc : r ≠ c := by
          rintro rfl
          rw [hstat, hrun] at hrr
          cases hrr
        have hrp : (s'.threads r).priority = (s.threads r).priority := by simp [hs', hrc]
        rw [hstat] at hrr
        rw [hpr, hrp]
        unfold restoredPriority
        rw [lowestPriority_le_iff]
        rcases hC hCC c hc ho hl r hrr with h | ⟨k, hk, hko, hkp⟩
        · exact .inl h
        · refine .inr ⟨k, ?_, hkp⟩
          rw [(s.taken.nodup c).mem_erase_iff, s.taken.mem_iff]
          exact ⟨hk, (hS.owned k c).mpr hko⟩
    | cons w ws =>
      have hw : (s.queues.lists (.mutex m)).head? = some w := by rw [hl]; rfl
      have hwq : (s.released m c).queues.home w = some (.mutex m) := s.queues.home_of_head hw
      rw [ndMutexUnlock_hand hS hc hr ho hw]
      have hJ' := hJ.readied_of (f := wakeEdit) (.inl (hJ.block_of_home (h := .mutex m) rfl hwq))
        rfl rfl rfl rfl rfl
      have hfree : ((s.released m c).readied w (fun _ => false) wakeEdit).taken.home m = none := by
        simp
      refine .schedule (hJ'.of_core (core_handed hfree w))
        (.of_sched (s := s) rfl hS.settled.toAmbient) fun k u => ?_
      by_cases hk : k = m
      · subst hk
        simp [State.handed, Intrusive.Queues.home_link]
      · have hl := Intrusive.Queues.home_link_of_ne (s.taken.unlink m) (fun _ => true) w hk
        simpa [State.handed, hl, hk] using hS.owned k u
  · have he : (ndMutexUnlock cfg m s).1 = s := by
      unfold ndMutexUnlock
      simp only [hc, ne_eq, ho, not_false_eq_true, if_true]
    rw [he]
    exact .refl hS

end NerdRtos
