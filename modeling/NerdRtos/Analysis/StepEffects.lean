import NerdRtos.Analysis.Effects

/-!
# Every step is a run of effects

The equations that say what each operation does, read as runs of effects: one lemma for each
operation, `exec_effects` for the step, and `reach_effects` for the runs.
-/

set_option autoImplicit false

namespace NerdRtos

variable {cfg : Config} {s x y z : State} {a : Action} {t : Tid} {k : QHead}

/-- The scheduler, called with every thread in one piece, is not seen.
kernel/nd_scheduler.c:227-235 -/
theorem Sound.unseen (hS : Sound cfg s) (hJ : Consistent x) (hsched : x.sched = s.sched) :
    (ndScheduler cfg x).offCpu = x.offCpu :=
  (ndScheduler_spec hJ (hS.settled.toAmbient.of_sched hsched)).2.2

/-- A blocked or suspended thread becomes ready, and the scheduler runs. -/
theorem Sound.offCpu_readied (hS : Sound cfg s)
    (hst : (s.threads t).stat = .block ∨ (s.threads t).stat = .suspend) {f : Thread → Thread}
    (hr : (f (s.threads t)).stat = .ready)
    (hp : (f (s.threads t)).priority = (s.threads t).priority)
    (hi : (f (s.threads t)).initPriority = (s.threads t).initPriority)
    (ho : (f (s.threads t)).options = (s.threads t).options)
    (hts : (f (s.threads t)).timeSlice = (s.threads t).timeSlice) :
    (ndScheduler cfg (s.readied t (fun _ => false) f)).offCpu = (s.left t f).offCpu :=
  (hS.unseen (hS.consistent.readied_of hst hr hp hi ho hts) rfl).trans (offCpu_readied_left s t _ f)

/-- A running thread waits.
kernel/nd_thread.c:95-109 -/
theorem Sound.offCpu_pend (hS : Sound cfg s) (h : threadMode s = some t) (hk : k.isWait = true)
    (hjoin : ∀ u, k = .join u → (s.threads u).stat.live) (n : ℕ) :
    (ndScheduler cfg (ndThreadPend cfg k n s)).offCpu = (s.joined t k).offCpu := by
  obtain ⟨-, -, hc, hne⟩ := threadMode_eq h
  have hJ := hS.consistent.pend hc (hS.runs h) hne hk hjoin cfg n
  exact (hS.unseen hJ (sched_of_flags (flags_ndThreadPend cfg hc k n))).trans
    (offCpu_ndThreadPend cfg hc k n)

/-- A thread on no wait list leaves its list unseen. -/
theorem offCpu_left_free {f : Thread → Thread}
    (hq : ∀ k, s.queues.home t = some k → k.isWait = false) :
    (s.left t f).offCpu = (s.updThread t f).offCpu := by
  have hunlink : (s.queues.unlink t).restrict QHead.isWait = s.queues.restrict QHead.isWait :=
    Intrusive.Queues.restrict_unlink_of_not hq
  calc (s.left t f).offCpu
      = { (s.updThread t f).offCpu with
          queues := (s.queues.unlink t).restrict QHead.isWait } := rfl
    _ = (s.updThread t f).offCpu := by rw [hunlink]; rfl

/-! ## The operations on threads -/

/-- `nd_thread_create`.
kernel/nd_thread.c:279-315 -/
theorem Sound.create_effects (hS : Sound cfg s) {b : CreateArgs}
    (ha : a.op? = some (.threadCreate b)) (hv : (Op.threadCreate b).valid s = true) :
    Effects a s s (ndThreadCreate cfg b s).1 := by
  rcases hS.create_cases hv with ⟨-, he⟩ | ⟨t, hcr, he⟩
  · rw [he]
    exact .refl
  · have hflags : (ndThreadReadyAddTail t (s.created t b)).flags = s.flags := by
      rw [(flags_readyAdd t _).1, created_eq hcr.unused]
      rfl
    have hJ := hcr.loose.create hcr.unused hcr.accepted fun h => absurd h hcr.ne_idle
    refine .single hS.consistent
      (.create ha hcr.accepted hcr.thread hcr.dead hcr.taken hcr.unused) ?_
    rw [he]
    exact (hS.unseen hJ (sched_of_flags hflags)).trans (offCpu_readyAdd _ t).1

/-- `nd_thread_suspend`.
kernel/nd_thread.c:126-161 -/
theorem Sound.suspend_effects (hS : Sound cfg s) (ha : a.op? = some (.threadSuspend t))
    (hv : (Op.threadSuspend t).valid s = true) : Effects a s s (ndThreadSuspend cfg t s).1 := by
  have hJ := hS.consistent
  have hne : t ≠ idleTid := by
    simp only [Op.valid, Bool.and_eq_true, decide_eq_true_eq] at hv
    exact hv.2
  rcases ndThreadSuspend_cases hJ cfg t with he | ⟨htk, hr, he⟩ | ⟨htk, hb, he⟩
  · rw [he]
    exact .refl
  · rw [he]
    exact .single hJ (.suspend ha htk (.inl hr)) rfl
  · rw [he]
    exact .single hJ (.suspend ha htk (.inr hb))
      (hS.unseen (hJ.suspended (live_of_stops hb) hne) rfl)

/-- `nd_thread_resume`.
kernel/nd_thread.c:34-53 -/
theorem Sound.resume_effects (hS : Sound cfg s) (ha : a.op? = some (.threadResume t)) :
    Effects a s s (ndThreadResume cfg t s).1 := by
  by_cases hst : (s.threads t).stat = .suspend
  · have hfree : s.queues.home t = none :=
      hS.consistent.home_none (by rw [hst]; decide) (by rw [hst]; decide)
    rw [ndThreadResume_eq hS.consistent hst]
    refine .single hS.consistent (.resume ha hst) ?_
    refine (hS.offCpu_readied (.inr hst) rfl rfl rfl rfl rfl).trans
      (offCpu_left_free fun k hk => ?_)
    rw [hfree] at hk
    cases hk
  · rw [ndThreadResume_refused hst]
    exact .refl

/-! ## Aborting a thread -/

/-- `nd_thread_abort`.
kernel/nd_thread.c:180-220, 317-342 -/
theorem Sound.abort_effects (hS : Sound cfg s) {v : Option Tid} (ha : a.op? = some (.threadAbort v))
    (hv : (Op.threadAbort v).valid s = true) : Effects a s s (ndThreadAbort cfg v s).1 := by
  have hJ := hS.consistent
  rcases hS.abort_cases hv with he | ⟨t, rfl, hlive, hess, hne, he⟩
  · rw [he]
    exact .refl
  rw [he]
  have hended : Effects a s s (s.ended t) := .single hJ (.finish ha hess hlive) rfl
  obtain ⟨hJ', ⟨hrun, -⟩, hl⟩ := wakeAll_spec (h := .join t) rfl
    (fun y => Effects a s s y ∧ (y.threads t).stat = .dead ∧ y.queues.home t = none)
    (fun y j hJy hy hj => by
      obtain ⟨hrun, hdead, hfree⟩ := hy
      have hjt : t ≠ j := by
        rintro rfl
        rw [hfree] at hj
        cases hj
      refine ⟨hrun.trans (.single hJy (.wakeJoiner ha hdead hj) (offCpu_readied_left _ _ _ _)),
        by simpa [hjt] using hdead, ?_⟩
      rw [home_readied, if_neg hjt]
      exact hfree)
    (((s.ended t).queues.lists (.join t)).length) (s.ended t) (hJ.ended hne)
    ⟨hended, by simp [endEdit], by simp [State.ended, State.parked]⟩ le_rfl
  have hJ'' := hJ'.closeJoin hl
  split
  · refine hrun.trans (.unseen hJ'' (hS.unseen hJ'' ?_))
    exact sched_of_flags (flags_wakeAll _ _ _)
  · exact hrun

/-! ## The operations on objects -/

/-- The end of a queue operation and of `nd_mempool_free`.
kernel/nd_queue.c:58-62, 96-100, kernel/nd_mempool.c:79-82 -/
theorem Sound.offCpu_wakeupIfAny (hS : Sound cfg s) (hw : k.isWait = true) :
    (wakeupIfAny cfg k s).offCpu = (s.served k).offCpu := by
  unfold State.served
  rcases wakeupIfAny_cases hS.consistent cfg hw with ⟨hnil, he⟩ | ⟨t, hh, -, -, hJ, he⟩
  · rw [he, hnil]
    rfl
  · rw [he, hh]
    refine (hS.unseen hJ rfl).trans ?_
    exact congrArg (fun u : State => u.emit (.woken t k)) (offCpu_readied_left s t _ _)

/-- `nd_sem_release`.
kernel/nd_sem.c:17-33 -/
theorem Sound.release_effects (hS : Sound cfg s) {i : ℕ} (ha : a.op? = some (.semRelease i)) :
    Effects a s s (ndSemRelease cfg i s).1 := by
  rcases ndSemRelease_cases hS.consistent cfg i with ⟨hnil, he⟩ | ⟨t, hh, -, -, hJ, he⟩
  · rw [he]
    exact .single hS.consistent (.semRelease ha hnil) rfl
  · rw [he]
    refine .single hS.consistent (.semHand ha hh) ((hS.unseen hJ rfl).trans ?_)
    exact congrArg (fun u : State => u.emit (.semHanded t i)) (offCpu_readied_left _ t _ _)

/-- `nd_mempool_free`.
kernel/nd_mempool.c:64-85 -/
theorem Sound.free_effects (hS : Sound cfg s) {p ptr : ℕ} (ha : a.op? = some (.mempoolFree p ptr))
    (hf : (ndMempoolFree cfg p ptr s).fault = false) :
    Effects a s s (ndMempoolFree cfg p ptr s) := by
  have hS' : Sound cfg (s.put p ptr) := (Kept.of_bare (C := True) (y := s.put p ptr) hS rfl).sound
  rw [ndMempoolFree_eq hf]
  exact .single hS.consistent (.free ha) (hS'.offCpu_wakeupIfAny (k := .pool p) rfl)

/-- One turn of the loop of `nd_event_send`.
kernel/nd_event.c:47-52 -/
theorem offCpu_eventVisit {e : ℕ} (hJ : Consistent y) (hq : y.queues.home t = some (.event e))
    (ho : y.offCpu = z.offCpu) :
    Consistent (eventVisit e y t) ∧ (eventVisit e y t).offCpu = (State.visited e z t).offCpu := by
  have hev : y.events = z.events := (congrArg State.events ho :)
  have hth : (y.threads t).offCpu = (z.threads t).offCpu :=
    congrArg (fun u : State => u.threads t) ho
  have hset : (y.threads t).eventSet = (z.threads t).eventSet := (congrArg Thread.eventSet hth :)
  have hopt : (y.threads t).eventOpt = (z.threads t).eventOpt := (congrArg Thread.eventOpt hth :)
  unfold eventVisit State.visited
  rw [← hset, ← hopt, ← hev]
  split
  · set y₁ := y.granted e (y.threads t).eventSet (.eventHanded t e (y.threads t).eventSet) with hy₁
    have hJ₁ : Consistent y₁ := hJ.of_core rfl
    have hst : (y.threads t).stat = .block := hJ.block_of_home (h := .event e) rfl hq
    have hcode : (y.updEvent e fun g =>
        { g with set := clearBits g.set (y.threads t).eventSet }).emit
        (.eventHanded t e (y.threads t).eventSet (y.events e).set
          ((y.updEvent e fun g =>
            { g with set := clearBits g.set (y.threads t).eventSet }).events e).set) = y₁ := by
      simp [hy₁, State.granted]
    have hwake : ndEventWakeup t y₁ = y₁.readied t (fun _ => false) readyEdit :=
      ndEventWakeup_eq hJ₁ (h := .event e) rfl hq
    have hz₁ : y₁.offCpu = (z.granted e (y.threads t).eventSet
        (.eventHanded t e (y.threads t).eventSet)).offCpu := by
      have hg := congrArg (fun u : State =>
        u.granted e (y.threads t).eventSet (.eventHanded t e (y.threads t).eventSet)) ho
      exact hg
    simp only [hcode, hwake]
    refine ⟨hJ₁.readied_of (.inl hst) rfl rfl rfl rfl rfl, ?_⟩
    refine (offCpu_readied_left y₁ t _ _).trans (offCpu_left hz₁ ?_)
    have hr := congrArg readyEdit hth
    exact hr
  · exact ⟨hJ, ho⟩

/-- The loop of `nd_event_send`.
kernel/nd_event.c:47-52 -/
theorem offCpu_eventFold {e : ℕ} (ts : List Tid) (hnd : ts.Nodup) : ∀ y z : State, Consistent y →
    y.offCpu = z.offCpu → (∀ t ∈ ts, y.queues.home t = some (.event e)) →
      Consistent (ts.foldl (eventVisit e) y) ∧
        (ts.foldl (eventVisit e) y).offCpu = (ts.foldl (State.visited e) z).offCpu := by
  induction ts with
  | nil => exact fun y z hJ ho _ => ⟨hJ, ho⟩
  | cons t ts ih =>
    intro y z hJ ho hon
    rw [List.nodup_cons] at hnd
    have hq := hon t (by simp)
    obtain ⟨hJ', ho'⟩ := offCpu_eventVisit hJ hq ho
    refine ih hnd.2 _ _ hJ' ho' fun u hu => ?_
    have hut : u ≠ t := fun h => hnd.1 (h ▸ hu)
    obtain ⟨y₁, hbare, hv⟩ := eventVisit_eq hJ hq
    have hqs : y₁.queues = y.queues := (congrArg State.queues hbare :)
    rcases hv with h | h
    · rw [h]
      exact hon u (by simp [hu])
    · rw [h, home_readied, if_neg hut, hqs]
      exact hon u (by simp [hu])

/-- `nd_event_send`.
kernel/nd_event.c:38-59 -/
theorem Sound.eventSend_effects (hS : Sound cfg s) {e : ℕ} {set : BitVec 32}
    (ha : a.op? = some (.eventSend e set)) :
    Effects a s s (ndEventSend cfg e set s).1 := by
  have hJ₁ : Consistent (s.posted e set) := hS.consistent.of_core rfl
  have hlist : s.queues.lists (.event e) = (s.posted e set).queues.lists (.event e) := rfl
  obtain ⟨hJ, ho⟩ := offCpu_eventFold (e := e) (s.queues.lists (.event e)) (s.queues.nodup _)
    (s.posted e set) (s.posted e set) hJ₁ rfl fun t ht => (s.queues.mem_iff _ _).mp ht
  obtain ⟨-, hfl⟩ := eventFold_spec (e := e) (fun x => x.flags = s.flags)
    (fun x t _ hx _ => (flags_eventVisit e x t).trans hx) (s.queues.lists (.event e))
    (s.posted e set) hJ₁ rfl (s.queues.nodup _) fun t ht => (s.queues.mem_iff _ _).mp ht
  exact .single hS.consistent (.eventSend ha) ((hS.unseen hJ (sched_of_flags hfl)).trans ho)

/-! ## Mutexes -/

/-- A mutex is handed over in the same way whatever the scheduler has decided. -/
theorem offCpu_handed (h : y.offCpu = z.offCpu) (m : Mid) (t : Tid) :
    (y.handed m t).offCpu = (z.handed m t).offCpu :=
  congrArg (fun u : State =>
    { u with
      mutexes := Function.update u.mutexes m { u.mutexes m with owner := some t }
      taken := u.taken.link (fun _ => true) t m }) h

/-- The hand-over of a mutex.
kernel/nd_mutex.c:57-66 -/
theorem Sound.offCpu_handOver (hS : Sound cfg s) {m : Mid} {c : Tid} (hc : threadMode s = some c)
    (ho : (s.mutexes m).owner = some c) (hh : (s.queues.lists (.mutex m)).head? = some t) :
    (ndMutexUnlock cfg m s).1.offCpu = (((s.released m c).left t wakeEdit).handed m t).offCpu := by
  have hr : (s.threads c).stat ≠ .ready := by rw [hS.runs hc]; decide
  have hq : (s.released m c).queues.home t = some (.mutex m) := s.queues.home_of_head hh
  have hJ := (hS.released hr m).readied_of (f := wakeEdit)
    (.inl ((hS.released hr m).block_of_home (h := .mutex m) rfl hq)) rfl rfl rfl rfl rfl
  have hfree : ((s.released m c).readied t (fun _ => false) wakeEdit).taken.home m = none := by
    simp
  rw [ndMutexUnlock_hand hS (threadMode_eq hc).2.2.1 hr ho hh]
  exact (hS.unseen (hJ.of_core (core_handed hfree t)) rfl).trans
    (offCpu_handed (offCpu_readied_left _ t _ _) m t)

/-- `nd_mutex_unlock`.
kernel/nd_mutex.c:45-70 -/
theorem Sound.unlock_effects (hS : Sound cfg s) {m : Mid} {c : Tid}
    (ha : a = .call (.mutexUnlock m)) (hc : threadMode s = some c) (hi : s.calls c = none) :
    Effects a s s (ndMutexUnlock cfg m s).1 := by
  have hcur := (threadMode_eq hc).2.2.1
  by_cases ho : (s.mutexes m).owner = some c
  · cases hl : s.queues.lists (.mutex m) with
    | nil =>
      rw [ndMutexUnlock_free hS.consistent hS.owned hcur ho hl]
      exact .single hS.consistent (.drop ha hc hi ho hl) rfl
    | cons t ts =>
      have hh : (s.queues.lists (.mutex m)).head? = some t := by rw [hl]; rfl
      exact .single hS.consistent (.hand ha hc hi ho hh) (hS.offCpu_handOver hc ho hh)
  · have he : (ndMutexUnlock cfg m s).1 = s := by
      unfold ndMutexUnlock
      simp only [hcur, ne_eq, ho, not_false_eq_true, if_true]
    rw [he]
    exact .refl

/-- The boost of the owner.
kernel/nd_mutex.c:89-92 -/
theorem offCpu_boostOwner (hJ : Consistent s) (m : Mid) (o c : Tid) :
    (boostOwner m o c s).offCpu = (s.raised m o c).offCpu := by
  unfold boostOwner State.raised
  by_cases hlt : (s.threads c).priority < (s.threads o).priority
  · simp only [if_pos hlt]
    set s₁ := s.updMutex m fun mx => { mx with priority := (s.threads c).priority } with hs₁
    have hJ₁ : Consistent s₁ := hJ.of_core rfl
    by_cases hr : (s₁.threads o).stat = .ready
    · rw [ndThreadChangePriority_ready hJ₁ hr (hJ.ok c).prio]
      refine (offCpu_readied_left s₁ o _ _).trans (offCpu_left_free fun k hk => ?_)
      rw [hJ₁.home_ready hr] at hk
      rw [← Option.some.inj hk]
      rfl
    · rw [ndThreadChangePriority_other hr]
  · rw [if_neg hlt, if_neg hlt]

/-- A thread starts to wait in the same way whatever the scheduler has decided. -/
theorem offCpu_joined (h : y.offCpu = z.offCpu) (hy : y.queues.home t = none)
    (hz : z.queues.home t = none) (hst : (y.threads t).stat = (z.threads t).stat)
    (hk : k.isWait = true) : (y.joined t k).offCpu = (z.joined t k).offCpu := by
  have hoff : ∀ u, (y.threads u).offCpu = (z.threads u).offCpu := fun u =>
    congrArg (fun v : State => v.threads u) h
  have hpos : (fun u => decide ((y.threads t).priority < (y.threads u).priority)) =
      fun u => decide ((z.threads t).priority < (z.threads u).priority) := by
    funext u
    rw [priority_of_offCpu h, priority_of_offCpu h]
  have hq : (y.joined t k).queues.restrict QHead.isWait =
      (z.joined t k).queues.restrict QHead.isWait := by
    have hr : y.queues.restrict QHead.isWait = z.queues.restrict QHead.isWait :=
      congrArg State.queues h
    have hlink : ∀ u : State, (u.joined t k).queues =
        u.queues.link (fun v => (u.threads t).priority < (u.threads v).priority) k t := by
      intro u
      simp only [State.joined, State.waiting, State.listInsert_queues, State.emit_threads]
      rfl
    rw [hlink, hlink, Intrusive.Queues.restrict_link _ hy hk,
      Intrusive.Queues.restrict_link _ hz hk, hr, hpos]
  have hth : (fun u => ((y.joined t k).threads u).offCpu) =
      fun u => ((z.joined t k).threads u).offCpu := by
    funext u
    by_cases hu : u = t
    · subst hu
      have he := congrArg pendEdit (hoff u)
      simpa [pendEdit, Thread.offCpu, Stat.offCpu] using he
    · simpa [hu] using hoff u
  have hlog : (y.joined t k).log = (z.joined t k).log := by
    have hl : y.log = z.log := (congrArg State.log h :)
    simp [State.isLinked, hy, hz, hst, hl]
  calc (y.joined t k).offCpu
      = { y.offCpu with
          threads := fun u => ((y.joined t k).threads u).offCpu
          queues := (y.joined t k).queues.restrict QHead.isWait
          log := (y.joined t k).log } := rfl
    _ = (z.joined t k).offCpu := by
      rw [hth, hq, hlog, h]
      rfl

/-- `nd_mutex_lock`, from the beginning of the call.
kernel/nd_mutex.c:72-106 -/
theorem Sound.lock_effects (hS : Sound cfg x) {m : Mid} {c : Tid} {n : ℕ}
    (ha : a = .call (.wait (.mutexLock m n))) (hws : Within a s s (some c) (.mutexLock m n))
    (hx : x = s.emit (.call (some c) (.mutexLock m n) s.clock)) :
    Effects a s x (finishCall (some c) (.mutexLock m n) (ndMutexLock cfg m n x)) := by
  have hw : Within a s x (some c) (.mutexLock m n) := by
    subst hx
    exact ⟨hws.caller, hws.runs, hws.acts⟩
  have ht := (hw.runs c rfl).1
  have hrun := (hw.runs c rfl).2
  have hcur := (threadMode_eq ht).2.2.1
  unfold ndMutexLock
  simp only [hcur]
  cases ho : (x.mutexes m).owner with
  | none => exact .single hS.consistent (.lock hw ho) rfl
  | some o =>
    simp only
    by_cases hoc : o = c
    · rw [if_pos hoc]
      exact .single hS.consistent (.returns _ hw (fun _ _ h => by cases h) (fun h => by cases h)
        fun _ h => by cases h) rfl
    · have ho' : (s.mutexes m).owner = some o := by
        rw [hx] at ho
        exact ho
      have hboost := offCpu_boostOwner hS.consistent m o c
      rw [if_neg hoc]
      refine .single hS.consistent (.contend ha hws ho' hoc hx) ?_
      by_cases hn : n = ndTimeoutNowait
      · rw [if_pos hn, if_pos hn]
        exact offCpu_returned hboost _ _ _
      · obtain ⟨hK, ht'⟩ := hS.boost (C := True) ht (m := m) hoc
        have hfree : x.queues.home c = none :=
          hS.consistent.home_none (by rw [hrun]; decide) (by rw [hrun]; decide)
        have hrun' := hK.sound.runs ht'
        have hfree' : (boostOwner m o c x).queues.home c = none :=
          hK.sound.consistent.home_none (by rw [hrun']; decide) (by rw [hrun']; decide)
        have hraised : (x.raised m o c).queues = x.queues ∧
            ((x.raised m o c).threads c).stat = (x.threads c).stat := by
          unfold State.raised
          split
          · simp [Ne.symm hoc]
          · exact ⟨rfl, rfl⟩
        rw [if_neg hn, if_neg hn]
        refine offCpu_blocked ?_ _
        refine (hK.sound.offCpu_pend ht' (k := .mutex m) rfl (fun _ h => by cases h) n).trans ?_
        exact offCpu_joined hboost hfree' (by rw [hraised.1]; exact hfree)
          (by rw [hraised.2, hrun, hrun']) rfl

/-! ## The other calls -/

/-- The wait list of a call that has to wait is a wait list of live objects. -/
theorem Call.line_isWait {c : Call} (hk : c.line = some k) : k.isWait = true := by
  cases c with
  | threadJoin u n =>
    cases u with
    | none => cases hk
    | some u =>
      cases hk
      rfl
  | _ =>
    cases hk
    rfl

/-- A running thread is left waiting.
kernel/nd_thread.c:95-109 -/
theorem Sound.blocks (hS : Sound cfg x) {c : Call} (hw : Within a s x (some t) c)
    (hm : c.mustWait x t)
    (hk : c.line = some k) {n : ℕ} (hn : n ≠ ndTimeoutNowait) (hcn : c.timeout = n) :
    Effects a s x (finishCall (some t) c (ndScheduler cfg (ndThreadPend cfg k n x), none)) := by
  refine .single hS.consistent (.blocks hw hm hk (by rw [hcn]; exact hn)) (offCpu_blocked ?_ c)
  refine hS.offCpu_pend (hw.runs t rfl).1 (Call.line_isWait hk) (fun u hu => ?_) n
  subst hu
  cases c with
  | threadJoin v n =>
    cases v with
    | none => cases hk
    | some v =>
      cases hk
      exact hm.2
  | _ => cases hk

/-- A queue operation wakes a waiter at its end. -/
theorem Sound.serves (hS : Sound cfg x) (hb : y.bare = x.bare) {who : Option Tid} {c : Call}
    (r : Ret) (hk : k.isWait = true) (h : Effect a s x ((y.served k).returned who c r)) :
    Effects a s x (finishCall who c (wakeupIfAny cfg k y, some r)) :=
  .single hS.consistent h
    (offCpu_returned ((Kept.of_bare (C := True) hS hb).sound.offCpu_wakeupIfAny hk) who c r)

/-- The calls other than `nd_mutex_lock`, from the beginning of the call or from the next turn of
its loop. -/
theorem Sound.call_effects (hS : Sound cfg x) {who : Option Tid} {c : Call}
    (hw : Within a s x who c) (hne : ∀ m n, c ≠ .mutexLock m n) (hv : (Op.wait c).valid x = true)
    (hctx : (Op.wait c).fromIrq = true ∨ ∃ t, who = some t) (hsame : x.caller = s.caller)
    (hf : cfg.port = .deferred → ¬ c.mustLoop x) :
    Effects a s x (finishCall who c (NerdRtos.callBody cfg c x)) := by
  have hJ := hS.consistent
  have hnow : ∀ r, (r ≠ .err .eok ∧ ∀ b, r ≠ .block (some b)) →
    (c.loops = true → ∀ t, who = some t → c.mustWait x t) →
      Effects a s x (finishCall who c (x, some r)) := fun r hr hl =>
    .single hJ (.returns r hw (fun t ht h => .inr (.inr (hl h t ht))) (fun h => absurd h hr.1) hr.2)
      rfl
  have hmay : ∀ n, (n = ndTimeoutNowait ∨ ∃ t, who = some t) → MayWait x n := fun n h =>
    h.imp_right (Exists.imp fun t ht => (hw.runs t ht).1)
  cases c with
  | mutexLock m n => exact absurd rfl (hne m n)
  | semTake i n =>
    simp only [NerdRtos.callBody, ndSemTake]
    by_cases hv : 0 < (x.sems i).val
    · rw [if_pos hv]
      refine .single hJ (.semTake hw hv) ?_
      rw [hw.caller, ← hsame]
      rfl
    by_cases hn : n = ndTimeoutNowait
    · rw [if_neg hv, if_pos hn]
      exact hnow _ (by simp) fun h => by cases h
    · rw [if_neg hv, if_neg hn]
      obtain ⟨t, rfl⟩ := hctx.resolve_left (by simpa [Op.fromIrq] using hn)
      exact hS.blocks hw (not_lt.mp hv) rfl hn rfl
  | queueSend q msg n =>
    have hwait := hmay n (hctx.imp_left (by simp [Op.fromIrq]))
    simp only [NerdRtos.callBody]
    cases hS.queueSend_turn hwait hf with
    | refused hfull hn he =>
      rw [he]
      exact hnow _ (by simp) fun _ _ _ => hfull
    | waits hfull hn ht he =>
      obtain ⟨t, rfl⟩ := hctx.resolve_left (by simpa [Op.fromIrq] using hn)
      rw [he]
      exact hS.blocks hw hfull rfl hn rfl
    | served hroom he =>
      rw [he]
      exact hS.serves (y := x.sent q msg) rfl _ rfl (.send hw hroom)
  | queueRecv q n =>
    have hwait := hmay n (hctx.imp_left (by simp [Op.fromIrq]))
    simp only [NerdRtos.callBody]
    cases hS.queueRecv_turn hwait hf with
    | refused hempty hn he =>
      rw [he]
      exact hnow _ (by simp) fun _ _ _ => hempty
    | waits hempty hn ht he =>
      obtain ⟨t, rfl⟩ := hctx.resolve_left (by simpa [Op.fromIrq] using hn)
      rw [he]
      exact hS.blocks hw hempty rfl hn rfl
    | served hany he =>
      rw [he]
      exact hS.serves (y := x.received q) rfl _ rfl (.recv hw hany)
  | eventRecv e set opt n =>
    obtain ⟨t, rfl⟩ := hctx.resolve_left (by simp [Op.fromIrq])
    have hcur := (threadMode_eq (hw.runs t rfl).1).2.2.1
    set x₁ := x.updThread t fun th => { th with eventSet := set, eventOpt := opt } with hx₁
    have hedit : Effects a s x x₁ := .single hJ (.eventScratch hw) rfl
    have hS₁ : Sound cfg x₁ := (Kept.inert (C := True) (t := t)
      (f := fun th => { th with eventSet := set, eventOpt := opt }) hS {}).sound
    have hw₁ : Within a s x₁ (some t) (.eventRecv e set opt n) :=
      ⟨hw.caller, fun u hu => ⟨(hw.runs u hu).1, hS₁.runs (s := x₁) (hw.runs u hu).1⟩, hw.acts⟩
    refine hedit.trans ?_
    simp only [NerdRtos.callBody, ndEventRecv, hcur]
    by_cases hsat : ndEventIsSatisfied (x.events e).set set opt = true
    · rw [if_pos (show ndEventIsSatisfied (x₁.events e).set set opt = true from hsat)]
      refine .single hS₁.consistent (.eventTake hw₁ hsat) ?_
      have hcaller : (some t : Option Tid) = x₁.caller := hw₁.caller.trans hsame.symm
      simp [State.granted, State.returned, hcaller]
      rfl
    by_cases hn : n = ndTimeoutNowait
    · rw [if_neg (show ¬ ndEventIsSatisfied (x₁.events e).set set opt = true from hsat), if_pos hn]
      exact .single hS₁.consistent (.returns _ hw₁ (fun _ _ h => by cases h) (fun h => by cases h)
        fun _ h => by cases h) rfl
    · rw [if_neg (show ¬ ndEventIsSatisfied (x₁.events e).set set opt = true from hsat), if_neg hn]
      exact hS₁.blocks hw₁ ⟨(Bool.not_eq_true _).mp hsat, by simp [hx₁], by simp [hx₁]⟩ rfl hn rfl
  | mempoolAlloc p n =>
    have hwait := hmay n (hctx.imp_left (by simp [Op.fromIrq]))
    simp only [NerdRtos.callBody]
    cases hS.mempoolAlloc_turn hwait hf with
    | refused hempty hn he =>
      rw [he]
      exact hnow _ (by simp) fun _ _ _ => hempty
    | waits hempty hn ht he =>
      obtain ⟨t, rfl⟩ := hctx.resolve_left (by simpa [Op.fromIrq] using hn)
      rw [he]
      exact hS.blocks hw hempty rfl hn rfl
    | served hany he =>
      rw [he]
      exact .single hJ (.alloc hw hany) rfl
  | threadJoin v n =>
    obtain ⟨t, rfl⟩ := hctx.resolve_left (by simp [Op.fromIrq])
    have hcur := (threadMode_eq (hw.runs t rfl).1).2.2.1
    simp only [NerdRtos.callBody]
    rcases ndThreadJoin_cases cfg x v n with ⟨r, he, hdead⟩ | ⟨u, rfl, hut, hd, hn, he⟩
    · rw [he]
      refine .single hJ (.returns _ hw
        (fun _ _ h => by cases h) (fun hr => ?_) fun _ h => by cases h) rfl
      obtain ⟨u, rfl, hd⟩ := hdead (Ret.err.inj hr)
      exact ⟨t, rfl, rfl, .inr ⟨u, n, rfl, hd⟩⟩
    · rw [he]
      simp only [Op.valid, decide_eq_true_eq] at hv
      refine hS.blocks hw ⟨?_, hv, hd⟩ rfl hn rfl
      rintro rfl
      exact hut hcur

/-- A blocking call, once its beginning is noted. -/
theorem Sound.begun_effects (hS : Sound cfg s) {c : Call} (ha : a.op? = some (.wait c))
    (hcall : ∀ m n, c = .mutexLock m n → a = .call (.wait c)) (hv : (Op.wait c).valid s = true)
    (hctx : (Op.wait c).fromIrq = true ∨ ∃ t, threadMode s = some t)
    (hin : ∀ t, s.caller = some t → threadMode s = some t ∧ s.calls t = none)
    (hf : (NerdRtos.startCall cfg c s).fault = false) :
    Effects a s (s.emit (.call s.caller c s.clock)) (NerdRtos.startCall cfg c s) := by
  have hS' : Sound cfg (s.emit (.call s.caller c s.clock)) :=
    (Kept.of_bare (C := True) (y := s.emit _) hS rfl).sound
  have hws : Within a s s s.caller c :=
    ⟨rfl, fun t ht => ⟨(hin t ht).1, hS.runs (hin t ht).1⟩, .inl ⟨ha, fun t ht => (hin t ht).2⟩⟩
  have hw : Within a s (s.emit (.call s.caller c s.clock)) s.caller c :=
    ⟨rfl, fun t ht => ⟨(hin t ht).1, hS.runs (hin t ht).1⟩, .inl ⟨ha, fun t ht => (hin t ht).2⟩⟩
  have hcaller : ∀ t, threadMode s = some t → s.caller = some t := by
    intro t ht
    obtain ⟨hn, -, hc, -⟩ := threadMode_eq ht
    simp [State.caller, hn, hc]
  have hloop : cfg.port = .deferred → ¬ c.mustLoop s := fun hp =>
    not_mustLoop (s := s.emit (.call s.caller c s.clock)) hctx hp (fault_finishCall _ _ hf)
  unfold NerdRtos.startCall
  by_cases hm : ∃ m n, c = .mutexLock m n
  · obtain ⟨m, n, rfl⟩ := hm
    obtain ⟨t, ht⟩ := hctx.resolve_left (by simp [Op.fromIrq])
    have hct := hcaller t ht
    rw [hct] at hS' hws ⊢
    exact hS'.lock_effects (hcall m n rfl) hws rfl
  · refine hS'.call_effects hw (fun m n h => hm ⟨m, n, h⟩) hv (hctx.imp_right ?_) rfl hloop
    rintro ⟨t, ht⟩
    exact ⟨t, hcaller t ht⟩

/-- A blocking call from its beginning. -/
theorem Sound.start_effects (hS : Sound cfg s) {c : Call} (ha : a.op? = some (.wait c))
    (hcall : ∀ m n, c = .mutexLock m n → a = .call (.wait c)) (hv : (Op.wait c).valid s = true)
    (hctx : (Op.wait c).fromIrq = true ∨ ∃ t, threadMode s = some t)
    (hin : ∀ t, s.caller = some t → threadMode s = some t ∧ s.calls t = none)
    (hf : (NerdRtos.startCall cfg c s).fault = false) :
      Effects a s s (NerdRtos.startCall cfg c s) :=
  Effects.trans (.single hS.consistent (.enter ha hin) rfl)
    (hS.begun_effects ha hcall hv hctx hin hf)

/-- The current thread goes on with its call. -/
theorem Sound.resume_call_effects (hS : Sound cfg s) (ha : a = .resume) (ht : threadMode s = some t)
    (hc : s.calls t ≠ none) (hf : (NerdRtos.resumeCall cfg s).fault = false) :
    Effects a s s (NerdRtos.resumeCall cfg s) := by
  obtain ⟨hnest, -, hcur, -⟩ := threadMode_eq ht
  obtain ⟨c, hc'⟩ := Option.ne_none_iff_exists'.mp hc
  have hw : Within a s s (some t) c := by
    refine ⟨by simp [State.caller, hnest, hcur], ?_, .inr ⟨ha, t, rfl, hc'⟩⟩
    rintro u ⟨⟩
    exact ⟨ht, hS.runs ht⟩
  unfold NerdRtos.resumeCall at hf ⊢
  simp only [hcur, hc'] at hf ⊢
  have hf' := fault_finishCall _ _ hf
  have hloop : ∀ r, (r ≠ .err .eok ∧ ∀ b, r ≠ .block (some b)) → c.loops = true →
    NerdRtos.callRest cfg c s =
      (if s.currentError = .etimeout then (s, some r) else NerdRtos.callBody cfg c s) →
      (∀ m n, c ≠ .mutexLock m n) → (Op.wait c).valid s = true →
      Effects a s s (finishCall (some t) c (NerdRtos.callRest cfg c s)) := by
    intro r hr hl he hne hv
    rw [he] at hf' ⊢
    by_cases herr : s.currentError = .etimeout
    · rw [if_pos herr]
      refine .single hS.consistent
        (.returns r hw (fun u hu _ => .inr (.inl ?_)) (fun h => absurd h hr.1) hr.2) rfl
      cases hu
      simpa [State.currentError, hcur] using herr
    · rw [if_neg herr] at hf' ⊢
      exact hS.call_effects hw hne hv (.inr ⟨t, rfl⟩) rfl
        fun hp => not_mustLoop (.inr ⟨t, ht⟩) hp hf'
  cases c with
  | queueSend q msg n => exact hloop _ (by simp) rfl rfl (by simp) rfl
  | queueRecv q n => exact hloop _ (by simp) rfl rfl (by simp) rfl
  | mempoolAlloc p n => exact hloop _ (by simp) rfl rfl (by simp) rfl
  | _ =>
    refine .single hS.consistent (.returns _ hw (fun _ _ h => by cases h)
      (fun h => ⟨t, rfl, rfl, .inl ⟨ha, ?_⟩⟩) fun _ h => by cases h) rfl
    simpa [State.currentError, hcur] using h

/-! ## Timers, interrupts and switches -/

/-- Two edits of a control block that differ in what the scheduler keeps there. -/
theorem offCpu_updThread_congr {f g : Thread → Thread}
    (h : (f (s.threads t)).offCpu = (g (s.threads t)).offCpu) :
    (s.updThread t f).offCpu = (s.updThread t g).offCpu := by
  unfold State.offCpu
  congr 1
  funext u
  by_cases hu : u = t
  · subst hu
    simpa using h
  · simp [hu]

/-- The end of a slice is not seen.
kernel/nd_scheduler.c:237-257 -/
theorem Sound.offCpu_sliceTimeout (hS : Sound cfg s) (t : Tid) :
    (ndThreadSliceTimeout cfg t s).offCpu = s.offCpu := by
  unfold ndThreadSliceTimeout
  split
  · rfl
  split
  · rfl
  · exact (hS.unseen (hS.consistent.inert {}) rfl).trans (offCpu_updThread rfl)

/-- One turn of the loop of `timer_expired`.
kernel/nd_timer.c:97-137 -/
theorem Sound.timer_effects (hS : Sound cfg s) (ha : a = .timerFire) :
    Effects a s s (NerdRtos.timerTurn cfg s) := by
  have hJ := hS.consistent
  unfold NerdRtos.timerTurn
  cases hl : leftmostTimer s with
  | none => exact .refl
  | some u =>
    simp only
    split
    · exact .refl
    have harm : s.isArmed u = true := by
      simp [State.isArmed, s.tree.home_of_head hl]
    cases u with
    | wait t =>
      have hst := hJ.block_of_armed harm
      rcases hJ.blocked hst with ⟨k, hq, hw, hcb⟩ | ⟨hq, -, hcb⟩
      · rw [expireTimer_pend hJ harm (hcb harm)]
        refine .single hJ (.timeout ha hl hq hw) ?_
        exact hS.offCpu_readied (f := timeoutEdit) (.inl hst) rfl rfl rfl rfl rfl
      · rw [expireTimer_delay hJ harm hcb]
        refine .single hJ (.delayEnd ha hl hst hq) ?_
        have hready : (ndScheduler cfg (s.readied t (fun _ => false) delayEdit)).offCpu =
            (s.left t delayEdit).offCpu := by
          refine hS.offCpu_readied (.inl hst) ?_ ?_ ?_ ?_ ?_ <;> (unfold delayEdit; split <;> rfl)
        have hleft : (s.left t delayEdit).offCpu = (s.updThread t delayEdit).offCpu :=
          offCpu_left_free fun k hk => by
            rw [hq] at hk
            cases hk
        have hedit : (s.updThread t delayEdit).offCpu = (s.updThread t readyEdit).offCpu := by
          refine offCpu_updThread_congr ?_
          unfold delayEdit
          split <;> rfl
        exact hready.trans (hleft.trans hedit)
    | slice t =>
      rw [expireTimer_oneShot (hJ.books.sliceOneShot t)]
      have hS' : Sound cfg (timerRemove (.slice t) s) :=
        (hS.removeTimer (C := True) (by simp)).sound
      refine .unseen hJ ?_
      cases hcb : ((timerRemove (.slice t) s).timers (.slice t)).callback <;>
        simp only [runCallback, hcb]
      case sliceTimeout => exact hS'.offCpu_sliceTimeout t
      all_goals rfl
    | user n =>
      refine .unseen hJ ?_
      unfold expireTimer
      simp only
      split <;> rfl

/-- The end of an interrupt.
kernel/nd_scheduler.c:151-177, 267-288 -/
theorem Sound.offCpu_irqExit (hS : Sound cfg s) (hn : 0 < s.nest) :
    (NerdRtos.irqExit cfg s).offCpu = (ndExitInterrupt s).offCpu := by
  have hJ : Consistent { ndExitInterrupt s with trySwitch := false } := hS.consistent.of_core rfl
  have hc : s.current ≠ none := fun h => by
    have := (hS.settled.main h).1
    omega
  obtain ⟨c, hcc⟩ := Option.ne_none_iff_exists'.mp hc
  unfold NerdRtos.irqExit
  cases hport : cfg.port with
  | sync =>
    simp only
    unfold ndScheduleIrqExit
    split
    · rcases ndSchedulePickNext_spec hJ (c := c) hcc with ⟨ps, h, -, -, -⟩ | ⟨n, s₁, h, hP⟩
      · rw [h]
        rfl
      · rw [h]
        exact (ndContextSwitchCb_spec cfg hP.consistent hP.ready hP.offDuty
          (hP.pendsv.trans (hS.settled.sync hport))).offCpu.trans hP.offCpu
    · rfl
  | deferred =>
    simp only
    unfold ndTrySchedule
    split
    · rfl
    split
    · exact (ndScheduleCore_spec hJ hS.settled.sync).offCpu
    · rfl

/-! ## The steps -/

/-- A kernel call, made where it may be made. -/
theorem Sound.op_effects (hS : Sound cfg s) {o : Op} (ha : a = .call o ∨ a = .irq o)
    (hv : o.valid s = true)
    (hctx : o.fromIrq = true ∨ a = .call o ∧ ∃ t, threadMode s = some t)
    (hin : ∀ t, s.caller = some t → threadMode s = some t ∧ s.calls t = none)
    (hf : (NerdRtos.execOp cfg o s).fault = false) : Effects a s s (NerdRtos.execOp cfg o s) := by
  have hop : a.op? = some o := by rcases ha with rfl | rfl <;> rfl
  have hcaller : ∀ t, threadMode s = some t → s.calls t = none := by
    intro t ht
    obtain ⟨hn, -, hc, -⟩ := threadMode_eq ht
    exact (hin t (by simp [State.caller, hn, hc])).2
  cases o with
  | threadCreate b => exact hS.create_effects hop hv
  | threadAbort v => exact hS.abort_effects hop hv
  | threadSuspend t => exact hS.suspend_effects hop hv
  | threadResume t => exact hS.resume_effects hop
  | semRelease i => exact hS.release_effects hop
  | eventSend e set => exact hS.eventSend_effects hop
  | mempoolFree p ptr => exact hS.free_effects hop hf
  | timerInit u periodic timeout callback =>
    refine .unseen hS.consistent ?_
    show (ndTimerInit u periodic timeout callback s).1.offCpu = s.offCpu
    unfold ndTimerInit
    simp only
    split_ifs <;> rfl
  | timerStart u => exact .unseen hS.consistent (Sliced.timerStart cfg s _).offCpu
  | timerStop u => exact .unseen hS.consistent rfl
  | mutexUnlock m =>
    obtain ⟨hcall, t, ht⟩ := hctx.resolve_left (by simp [Op.fromIrq])
    exact hS.unlock_effects hcall ht (hcaller t ht)
  | threadYield =>
    obtain ⟨-, t, ht⟩ := hctx.resolve_left (by simp [Op.fromIrq])
    refine .unseen hS.consistent ?_
    show (ndThreadYield cfg s).offCpu = s.offCpu
    unfold ndThreadYield
    simp only [(threadMode_eq ht).2.2.1]
    exact (hS.unseen (hS.consistent.inert {}) rfl).trans (offCpu_updThread rfl)
  | threadDelay n =>
    obtain ⟨hcall, t, ht⟩ := hctx.resolve_left (by simp [Op.fromIrq])
    obtain ⟨-, -, hc, hne⟩ := threadMode_eq ht
    obtain ⟨hJ₁, hu⟩ := hS.consistent.delayed cfg (hS.runs ht) hne n
    have hlate : (s.delayed cfg t n).offCpu =
        (s.updThread t fun th => { th with stat := .block }).offCpu := by
      have h₁ : (s.delayed cfg t n).offCpu = (s.updThread t delayStart).offCpu :=
        (congrArg State.offCpu hu :)
      refine h₁.trans (offCpu_updThread_congr ?_)
      unfold delayStart
      split <;> rfl
    simp only [NerdRtos.execOp, ndThreadDelay_eq cfg hc]
    refine .single hS.consistent (.delay hcall ht (hcaller t ht)) ((hS.unseen hJ₁ ?_).trans hlate)
    exact sched_of_flags (congrArg State.flags hu :)
  | wait c =>
    refine hS.start_effects hop (fun m n h => ?_) hv (hctx.imp_right fun h => h.2) hin hf
    subst h
    exact (hctx.resolve_left (by simp [Op.fromIrq])).1

/-- Whoever makes a call outside of interrupts is the current thread. -/
theorem caller_inside {o : Op} (ha : allowed cfg s (.call o) = true) (t : Tid)
    (ht : s.caller = some t) :
    threadMode s = some t ∧ s.calls t = none := by
  apply outside_of_allowed ha
  unfold State.caller at ht
  split at ht
  · exact ht
  · cases ht

/-- **Every step is a run of effects.** -/
theorem exec_effects (hS : Sound cfg s) (ha : allowed cfg s a = true)
    (hf : (exec cfg a s).fault = false) : Effects a s s (exec cfg a s) := by
  have hJ := hS.consistent
  cases a with
  | call o =>
    have hctx := context_of_call ha
    exact hS.op_effects (.inl rfl) (call_allowed ha).1 (hctx.imp_right fun h => ⟨rfl, h⟩)
      (caller_inside ha) hf
  | resume =>
    obtain ⟨t, hm, hcall⟩ := resume_allowed ha
    exact hS.resume_call_effects rfl hm hcall hf
  | irqEnter => exact .single hJ (.environment s (s.nest + 1) s.clock (.inl rfl)) rfl
  | irq o =>
    obtain ⟨hnest, hirq, hv⟩ := irq_allowed ha
    refine hS.op_effects (.inr rfl) hv (.inl hirq) (fun t ht => ?_) hf
    simp only [State.caller] at ht
    split at ht
    · omega
    · cases ht
  | timerFire => exact hS.timer_effects rfl
  | irqExit =>
    have hn := irqExit_allowed ha
    exact .single hJ (.environment s (ndExitInterrupt s).nest s.clock (.inl rfl))
      (hS.offCpu_irqExit hn)
  | pendsv =>
    obtain ⟨n, hsw⟩ := hS.pendsv_switched (pendsv_allowed ha).1 hf
    exact .unseen hJ hsw.offCpu
  | advance n => exact .single hJ (.environment s s.nest _ (.inr (Nat.mod_lt _ (by decide)))) rfl
  | write p ptr v => exact .single hJ (.write rfl) rfl
  | start =>
    obtain ⟨n, hsw, -⟩ := hS.start_switched (start_allowed ha)
    exact .unseen hJ hsw.offCpu

/-! ## Runs -/

/-- A property that the scheduler cannot change. -/
def Hidden (I : State → Prop) : Prop := ∀ x y : State, y.offCpu = x.offCpu → I x → I y

/-- The invariant rule of one step. -/
theorem Effects.induction {I : State → Prop} (hI : Hidden I)
    (hE : ∀ x y, ConsistentBut Set.univ x → I x → Effect a s x y → I y) (h : Effects a s x y)
    (hx : I x) : I y := by
  induction h with
  | refl => exact hx
  | tail _ hd ih =>
    obtain ⟨hJ, z, he, ho⟩ := hd
    exact hI z _ ho (hE _ z hJ ih he)

/-- The state that `nd_scheduler_init` leaves, but for what the scheduler decides. -/
theorem offCpu_boot (cfg : Config) (u : Setup) :
    (boot cfg u).offCpu = ((initObjects u).created idleTid idleArgs).offCpu := by
  rw [boot_eq]
  exact (offCpu_readyAdd _ idleTid).1

/-- **The invariant rule.** What holds after `nd_scheduler_init`, the scheduler cannot change and
every effect of a step that meets `C` keeps, holds wherever a run whose steps meet `C` comes to. -/
theorem path_effects {I : State → Prop} {C : State → Action → Prop} {u : Setup} (hI : Hidden I)
    (hboot : I ((initObjects u).created idleTid idleArgs))
    (hE : ∀ s a, Sound cfg s → I s → C s a → ∀ x y, ConsistentBut Set.univ x → I x →
      Effect a s x y → I y) (h : (kernel cfg).Path C (boot cfg u) s) : I s := by
  induction h with
  | refl => exact hI _ _ (offCpu_boot cfg u) hboot
  | @step s' a hp he hc ih =>
    have hS : Sound cfg s' := reach_sound (Machine.Reach.path (.start ⟨u, rfl⟩) hp)
    exact (exec_effects hS he.1 he.2).induction hI (hE s' a hS ih hc) ih

/-- The invariant rule for the runs of every application. -/
theorem reach_effects {I : State → Prop} {C : State → Action → Prop} (hI : Hidden I)
    (hboot : ∀ u, I ((initObjects u).created idleTid idleArgs))
    (hE : ∀ s a, Sound cfg s → I s → C s a → ∀ x y, ConsistentBut Set.univ x → I x →
      Effect a s x y → I y) (h : (kernel cfg).Reach C s) : I s := by
  obtain ⟨_, ⟨u, rfl⟩, hp⟩ := h.exists_path
  exact path_effects hI (hboot u) hE hp

end NerdRtos
