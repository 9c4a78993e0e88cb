import NerdRtos.Analysis.LockMoves
import NerdRtos.Analysis.SliceAccounting

/-!
# Slice timers and late peers

The slice timer of a thread is started at its dispatch, if a thread of its priority is ready then.
One that becomes ready later starts no timer: `nd_should_switch` lets the running thread go on, and
nothing ends its turn (`late_peer_starves`). `slice_armed`: along the runs in which no peer comes to
a thread that runs without a slice timer, unless the thread gives way at once, the timer is set
whenever it is needed.

`Cpu.Visit` is what a call of the running thread does to the ready lists: the threads that it puts
on them come to the lists of `Op.arrivals`.
-/

set_option autoImplicit false

namespace NerdRtos

variable {cfg : Config} {s x y : State} {a : Action} {t u : Tid} {k : QHead} {p : ℕ}

/-! ## Statement -/

/-- The slice timer of a running thread with a slice is set, for at most the slice, when a thread of
its priority is ready. -/
def SliceArmed (s : State) : Prop :=
  ∀ t, (s.threads t).stat = .running → (s.threads t).timeSlice ≠ 0 →
    s.queues.lists (.ready (s.threads t).priority) ≠ [] →
    s.isArmed (.slice t) = true ∧
      (s.timers (.slice t)).expireTime ≤ s.clock + (s.threads t).timeSlice

/-- Thread `t` runs with a slice and without a slice timer. -/
structure Unarmed (s : State) (t : Tid) : Prop where
  run : (s.threads t).stat = .running
  slice : (s.threads t).timeSlice ≠ 0
  timer : s.isArmed (.slice t) = false

/-- The priorities of the threads of a list. -/
def State.priorities (s : State) (l : List Tid) : List ℕ := l.map fun t => (s.threads t).priority

/-- The waiters of an event that `nd_event_send` wakes when it finds `set`: each takes the bits that
it asked for.
kernel/nd_event.c:47-52 -/
def grantees (threads : Tid → Thread) : BitVec 64 → List Tid → List Tid
  | _, [] => []
  | set, t :: ts =>
    if ndEventIsSatisfied set (threads t).eventSet (threads t).eventOpt then
      t :: grantees threads (clearBits set (threads t).eventSet) ts
    else grantees threads set ts

/-- The ready lists that a call puts other threads on: a message that goes into a queue or comes out
of it wakes the first thread that waits for it, and a lock that does not wait raises a ready
owner. -/
def Call.arrivals (s : State) : Call → List ℕ
  | .queueSend q _ _ =>
    if (s.msgQueues q).usedMsg = (s.msgQueues q).maxMsgs then []
    else s.priorities (s.queues.lists (.queueRead q)).head?.toList
  | .queueRecv q _ =>
    if (s.msgQueues q).usedMsg = 0 then []
    else s.priorities (s.queues.lists (.queueSend q)).head?.toList
  | .mutexLock m n =>
    match s.current, (s.mutexes m).owner with
    | some c, some o =>
      if n = ndTimeoutNowait ∧ (s.threads o).stat = .ready ∧
        (s.threads c).priority < (s.threads o).priority then
        [(s.threads c).priority]
      else []
    | _, _ => []
  | _ => []

/-- The ready lists that a kernel call puts threads on. -/
def Op.arrivals (s : State) : Op → List ℕ
  | .threadCreate b => if b.accepted ∧ b.thread ≠ none then [b.priority] else []
  | .threadResume u => if (s.threads u).stat = .suspend then [(s.threads u).priority] else []
  | .threadAbort (some u) =>
    if s.current ≠ some u ∧ (s.threads u).stat ≠ .dead ∧
      ndIsThreadEssential (s.threads u) = false then
      s.priorities (s.queues.lists (.join u))
    else []
  | .semRelease i => s.priorities (s.queues.lists (.sem i)).head?.toList
  | .eventSend e set =>
    s.priorities (grantees s.threads ((s.events e).set ||| set.setWidth 64)
      (s.queues.lists (.event e)))
  | .mempoolFree p _ => s.priorities (s.queues.lists (.pool p)).head?.toList
  | .mutexUnlock m =>
    if (s.mutexes m).owner = s.current then s.priorities (s.queues.lists (.mutex m)).head?.toList
      else []
  | .wait c => c.arrivals s
  | _ => []

/-- The ready lists that the current thread puts threads on. -/
def Action.arrivals (s : State) : Action → List ℕ
  | .call o => o.arrivals s
  | .resume =>
    match s.current.bind s.calls with
    | some c => if c.loops = true ∧ s.currentError ≠ .etimeout then c.arrivals s else []
    | none => []
  | _ => []

/-- The priority of thread `t` after an action: an unlock of its own mutex restores it. -/
def Action.newPriority (s : State) (t : Tid) : Action → ℕ
  | .call (.mutexUnlock m) =>
    if (s.mutexes m).owner = some t then restoredPriority s t m else (s.threads t).priority
  | _ => (s.threads t).priority

/-- An action that puts threads on ready lists calls `nd_scheduler` afterwards: neither an abort of
another thread does so, nor a lock that does not wait, nor an unlock that nobody waits for. -/
def Action.schedules (s : State) : Action → Bool
  | .call (.threadAbort _) | .call (.wait (.mutexLock _ _)) => false
  | .call (.mutexUnlock m) => !(s.queues.lists (.mutex m)).isEmpty
  | _ => true

/-- The action of the running thread `t` brings it together with ready threads of its priority: they
arrive, or its priority becomes theirs. -/
def Action.Meets (s : State) (t : Tid) (a : Action) : Prop :=
  a.newPriority s t ∈ a.arrivals s ∨
    a.newPriority s t ≠ (s.threads t).priority ∧ s.queues.lists (.ready (a.newPriority s t)) ≠ []

/-- An evaluation ends the turn of thread `t`, at priority `p`, once threads have come to the ready
lists of `l`: the thread was asked to give way, or a higher priority is ready. -/
def TurnEnds (s : State) (t : Tid) (p : ℕ) (l : List ℕ) : Prop :=
  (s.threads t).yield = true ∨ ∃ q < p, s.queues.lists (.ready q) ≠ [] ∨ q ∈ l

/-- No peer comes late to a thread that runs without a slice timer: when a call of that thread
brings it together with one, or the outermost interrupt ends beside one, the scheduler is called and
the thread gives way. A clock that wraps around leaves no timer behind, more than the slice ahead of
it, and no slice of a tickless build is cut to `UINT64_MAX`. -/
structure NoLatePeer (cfg : Config) (s : State) (a : Action) : Prop where
  call : ∀ t ∈ s.current, Unarmed s t → s.nest = 0 → a.Meets s t →
    a.schedules s = true ∧ TurnEnds s t (a.newPriority s t) (a.arrivals s)
  exit : ∀ t ∈ s.current, Unarmed s t → a = .irqExit → s.nest = 1 →
    s.queues.lists (.ready (s.threads t).priority) ≠ [] →
    s.trySwitch = true ∧ TurnEnds s t (s.threads t).priority []
  clock : ∀ t ∈ s.current, ∀ n, a = .advance n →
    (s.threads t).stat = .running → s.isArmed (.slice t) = true →
    u64Size ≤ s.clock + n → (s.timers (.slice t)).expireTime ≤ (s.clock + n) % u64Size +
      (s.threads t).timeSlice
  slice : ∀ b, a.op? = some (.threadCreate b) → cfg.tickless = true →
    b.timeSlice < (u64Size - 1) / 2

/-! ## Arrivals -/

namespace Cpu

variable {c c' d : Cpu} {l l' : List ℕ}

/-- From `c` to `d` threads come to the ready lists of `l` at most. -/
def Brings (l : List ℕ) (c d : Cpu) : Prop := ∀ q, d.ready q ≠ [] → c.ready q ≠ [] ∨ q ∈ l

/-- From `c` to `d` threads come to the ready lists of `l`, and no list becomes empty. -/
def Adds (l : List ℕ) (c d : Cpu) : Prop := ∀ q, d.ready q ≠ [] ↔ c.ready q ≠ [] ∨ q ∈ l

/-- Where threads come to some lists and none becomes empty, threads come to these lists at most. -/
theorem Adds.brings (h : Adds l c d) : Brings l c d := fun q => (h q).mp

/-- With the same ready lists nobody comes. -/
theorem Brings.of_ready (h : d.ready = c.ready) : Brings l c d := by
  intro q hq
  rw [h] at hq
  exact .inl hq

/-- With the same ready lists nobody comes and nobody goes. -/
theorem Adds.of_ready (h : d.ready = c.ready) : Adds [] c d := by
  intro q
  rw [h]
  simp

/-- Two steps that bring threads to the same lists. -/
theorem Brings.trans {e : Cpu} (h : Brings l c d) (h' : Brings l d e) : Brings l c e := by
  intro q hq
  rcases h' q hq with hq | hq
  · exact h q hq
  · exact .inr hq

/-- Two steps that bring threads to lists of their own. -/
theorem Adds.trans {e : Cpu} (h : Adds l c d) (h' : Adds l' d e) : Adds (l ++ l') c e := by
  intro q
  rw [h' q, h q, List.mem_append, or_assoc]

/-- A thread that is queued comes to the list of its priority. -/
theorem adds_append (c : Cpu) (t : Tid) (j : Job) (p : ℕ) :
    Adds [p] c ((c.set t j).append t p) := by
  intro q
  by_cases hq : q = p
  · subst hq
    simp
  · simp [hq]

/-- A thread that is taken off its list brings nobody. -/
theorem brings_take (c : Cpu) (t : Tid) (j : Job) : Brings l c ((c.take t).set t j) := by
  intro q hq
  left
  intro hnil
  apply hq
  simp [hnil]

/-- What a call of the running thread `t` does: it puts threads on the ready lists of `l` and leaves
the thread with priority `p`. With `b` it calls `nd_scheduler` once it has done so. -/
inductive Visit (cfg : Config) (t : Tid) (l : List ℕ) (p : ℕ) (b : Bool) (c : Cpu) : Cpu → Prop
  | stops {c' : Cpu} (h : (c'.jobs t).stat ≠ .running) : Visit cfg t l p b c c'
  | rests {d : Cpu} (hd : Brings l c d) (hb : b = true → l = [] ∧ p = (c.jobs t).priority) :
      Visit cfg t l p b c d
  | schedules {d c' : Cpu} (hd : Brings l c d) (hb : b = true → l = [] ∧ p = (c.jobs t).priority)
      (h : d.Schedules cfg c') : Visit cfg t l p b c c'
  | wakes {d c' : Cpu} (hd : Adds l c d) (hjob : d.jobs t = { c.jobs t with priority := p })
      (h : d.Schedules cfg c') : Visit cfg t l p b c c'

end Cpu

/-! ## Waking -/

/-- The scheduler starts no thread that is not ready. -/
theorem Sound.stops (hS : Sound cfg s) (hJ : Consistent x) (hsched : x.sched = s.sched)
    (hst : (x.threads t).stat ≠ .ready) (hst' : (x.threads t).stat ≠ .running) :
    ((ndScheduler cfg x).threads t).stat ≠ .running := by
  have hoff := stat_of_offCpu (hS.unseen hJ hsched) t
  intro hrun
  rw [hrun] at hoff
  cases hx : (x.threads t).stat with
  | ready => exact hst hx
  | running => exact hst' hx
  | _ =>
    rw [hx] at hoff
    cases hoff

/-- A blocked thread comes to the ready list of its priority. -/
theorem ConsistentBut.adds_readied {d : Set Tid} (hJ : ConsistentBut d s)
    (hst : (s.threads u).stat = .block)
    {f : Thread → Thread} (hf : ∀ th, ∃ e, f th = { th with stat := .ready, error := e }) :
    Cpu.Adds [(s.threads u).priority] s.cpu (s.readied u (fun _ => false) f).cpu ∧
      ∀ t, t ≠ u → (s.readied u (fun _ => false) f).job t = s.job t := by
  have hcpu := hJ.cpu_woken (by rw [hst]; decide) (job_wake s u hf)
  have hjobs := congrArg Cpu.jobs hcpu
  refine ⟨?_, fun t htu => ?_⟩
  · rw [hcpu]
    exact Cpu.adds_append _ _ _ _
  · have ht : (s.readied u (fun _ => false) f).job t = Function.update s.job u
      ((s.job u).wake false) t := congrFun hjobs t
    rw [ht, Function.update_of_ne htu]

/-- The end of a queue operation and of `nd_mempool_free`. -/
theorem Sound.wakeupIfAny_visit (hS : Sound cfg s) (hw : k.isWait = true)
    (hrun : (s.threads t).stat = .running)
    (b : Bool) : s.cpu.Visit cfg t (s.priorities (s.queues.lists k).head?.toList)
      (s.threads t).priority b (wakeupIfAny cfg k s).cpu := by
  rcases wakeupIfAny_cases hS.consistent cfg hw with ⟨hnil, he⟩ | ⟨u, hh, -, hst, hJ, he⟩
  · rw [he, hnil]
    exact .rests (.of_ready rfl) fun _ => ⟨rfl, rfl⟩
  · obtain ⟨hadds, hjob⟩ := hS.consistent.adds_readied hst fun th => ⟨.eok, rfl⟩
    have htu : t ≠ u := by
      rintro rfl
      rw [hst] at hrun
      cases hrun
    rw [he, hh]
    exact .wakes hadds (hjob t htu) (hJ.cpu_schedules cfg)

/-- `nd_sem_release`. -/
theorem Sound.release_visit (hS : Sound cfg s) (i : ℕ) (hrun : (s.threads t).stat = .running)
    (b : Bool) :
    s.cpu.Visit cfg t (s.priorities (s.queues.lists (.sem i)).head?.toList) (s.threads t).priority b
      (ndSemRelease cfg i s).1.cpu := by
  have hJ : Consistent (s.emit (.semReleased i)) := hS.consistent.of_core rfl
  rcases ndSemRelease_cases hS.consistent cfg i with ⟨hnil, he⟩ | ⟨u, hh, -, hst, hJ', he⟩
  · rw [he, hnil]
    exact .rests (.of_ready rfl) fun _ => ⟨rfl, rfl⟩
  · obtain ⟨hadds, hjob⟩ := hJ.adds_readied hst fun th => ⟨.eok, rfl⟩
    have htu : t ≠ u := by
      rintro rfl
      rw [hst] at hrun
      cases hrun
    rw [he, hh]
    exact .wakes hadds (hjob t htu) (hJ'.cpu_schedules cfg)

/-- `nd_mempool_free`. -/
theorem Sound.free_visit (hS : Sound cfg s) {p ptr : ℕ}
    (hf : (ndMempoolFree cfg p ptr s).fault = false)
    (hrun : (s.threads t).stat = .running) (b : Bool) :
    s.cpu.Visit cfg t (s.priorities (s.queues.lists (.pool p)).head?.toList)
      (s.threads t).priority b (ndMempoolFree cfg p ptr s).cpu := by
  have hS' : Sound cfg (s.put p ptr) := (Kept.of_bare (C := True) (y := s.put p ptr) hS rfl).sound
  rw [ndMempoolFree_eq hf]
  exact hS'.wakeupIfAny_visit (k := .pool p) rfl hrun b

/-! ## Events -/

/-- Who gets the bits depends on the control blocks of the waiters. -/
theorem grantees_congr {f g : Tid → Thread} {ts : List Tid} (h : ∀ u ∈ ts, f u = g u)
    (set : BitVec 64) :
    grantees f set ts = grantees g set ts := by
  induction ts generalizing set with
  | nil => rfl
  | cons u ts ih =>
    have htail : ∀ v ∈ ts, f v = g v := fun v hv => h v (List.mem_cons_of_mem u hv)
    unfold grantees
    rw [h u (by simp), ih htail, ih htail]

/-- Only waiters get the bits. -/
theorem grantees_subset (f : Tid → Thread) (set : BitVec 64) (ts : List Tid) :
    grantees f set ts ⊆ ts := by
  induction ts generalizing set with
  | nil => simp [grantees]
  | cons u ts ih =>
    unfold grantees
    split
    · exact List.cons_subset_cons u (ih _)
    · exact List.subset_cons_of_subset u (ih _)

/-- The priorities of threads that keep theirs. -/
theorem priorities_congr {l : List Tid} (h : ∀ u ∈ l,
    (y.threads u).priority = (x.threads u).priority) :
    y.priorities l = x.priorities l :=
  List.map_congr_left h

/-- One turn of the loop of `nd_event_send`: a granted waiter comes to its ready list. -/
theorem eventVisit_grants {e : ℕ} (hJ : Consistent y) (hq : y.queues.home u = some (.event e))
    (hsat : ndEventIsSatisfied (y.events e).set (y.threads u).eventSet
      (y.threads u).eventOpt = true) :
    Cpu.Adds [(y.threads u).priority] y.cpu (eventVisit e y u).cpu ∧
      (∀ t, t ≠ u → (eventVisit e y u).job t = y.job t ∧
        (eventVisit e y u).threads t = y.threads t ∧
        (eventVisit e y u).queues.home t = y.queues.home t) ∧
      ((eventVisit e y u).events e).set = clearBits (y.events e).set (y.threads u).eventSet := by
  set y₁ := y.updEvent e fun g => { g with set := clearBits g.set (y.threads u).eventSet } with hy₁
  set y₂ := y₁.emit (.eventHanded u e (y.threads u).eventSet (y.events e).set
    (y₁.events e).set) with hy₂
  have hJ₂ : Consistent y₂ := ConsistentBut.of_core (d := ∅) hJ rfl
  have hvisit : eventVisit e y u = y₂.readied u (fun _ => false) fun th =>
      { th with stat := .ready } := by
    unfold eventVisit
    rw [if_pos hsat]
    exact ndEventWakeup_eq hJ₂ (h := .event e) rfl hq
  have hst : (y₂.threads u).stat = .block := hJ.block_of_home (h := .event e) rfl hq
  obtain ⟨hadds, hjob⟩ := hJ₂.adds_readied hst (f := fun th => { th with stat := .ready }) fun th =>
    ⟨th.error, rfl⟩
  rw [hvisit]
  refine ⟨hadds, fun t htu => ⟨hjob t htu, ?_, ?_⟩, ?_⟩
  · simp [htu, hy₂, hy₁]
  · rw [home_readied, if_neg htu]
    rfl
  · simp [hy₂, hy₁]

/-- The loop of `nd_event_send`.
kernel/nd_event.c:47-52 -/
theorem eventFold_adds {e : ℕ} (ts : List Tid) (hnd : ts.Nodup) : ∀ y : State, Consistent y →
    (∀ u ∈ ts, y.queues.home u = some (.event e)) →
      Cpu.Adds (y.priorities (grantees y.threads (y.events e).set ts)) y.cpu
        (ts.foldl (eventVisit e) y).cpu ∧
        ∀ t, t ∉ ts → (ts.foldl (eventVisit e) y).job t = y.job t := by
  induction ts with
  | nil => exact fun y _ _ => ⟨.of_ready rfl, fun _ _ => rfl⟩
  | cons u ts ih =>
    intro y hJ hon
    rw [List.nodup_cons] at hnd
    have hq := hon u (by simp)
    have hne : ∀ v ∈ ts, v ≠ u := by
      rintro v hv rfl
      exact hnd.1 hv
    by_cases hsat : ndEventIsSatisfied (y.events e).set (y.threads u).eventSet
      (y.threads u).eventOpt = true
    · obtain ⟨hadds, hother, hset⟩ := eventVisit_grants hJ hq hsat
      have hJ' : Consistent (eventVisit e y u) := (offCpu_eventVisit hJ hq rfl).1
      obtain ⟨hrest, hjob⟩ := ih hnd.2 (eventVisit e y u) hJ' fun v hv => by
        rw [(hother v (hne v hv)).2.2]
        exact hon v (by simp [hv])
      have hthreads : ∀ v ∈ ts, (eventVisit e y u).threads v = y.threads v := fun v hv =>
        (hother v (hne v hv)).2.1
      have hprio : (eventVisit e y u).priorities (grantees (eventVisit e y u).threads
          ((eventVisit e y u).events e).set ts) =
            y.priorities (grantees y.threads (clearBits (y.events e).set (y.threads u).eventSet)
                ts) := by
        rw [hset, grantees_congr hthreads]
        exact priorities_congr fun v hv => by rw [hthreads v (grantees_subset _ _ _ hv)]
      have hlist : grantees y.threads (y.events e).set (u :: ts) =
          u :: grantees y.threads (clearBits (y.events e).set (y.threads u).eventSet) ts := by
        rw [grantees, if_pos hsat]
      rw [hprio] at hrest
      rw [hlist]
      refine ⟨hadds.trans hrest, fun t ht => ?_⟩
      rw [List.mem_cons, not_or] at ht
      exact (hjob t ht.2).trans (hother t ht.1).1
    · have hvisit : eventVisit e y u = y := by
        unfold eventVisit
        rw [if_neg hsat]
      have hlist : grantees y.threads (y.events e).set (u :: ts) = grantees y.threads
          (y.events e).set ts := by
        rw [grantees, if_neg hsat]
      obtain ⟨hrest, hjob⟩ := ih hnd.2 y hJ fun v hv => hon v (by simp [hv])
      rw [List.foldl_cons, hvisit, hlist]
      refine ⟨hrest, fun t ht => hjob t ?_⟩
      rw [List.mem_cons, not_or] at ht
      exact ht.2

/-- `nd_event_send`. -/
theorem Sound.eventSend_visit (hS : Sound cfg s) (e : ℕ) (set : BitVec 32)
    (hrun : (s.threads t).stat = .running) (b : Bool) : s.cpu.Visit cfg t
      (s.priorities (grantees s.threads ((s.events e).set ||| set.setWidth 64)
        (s.queues.lists (.event e))))
      (s.threads t).priority b (ndEventSend cfg e set s).1.cpu := by
  have hJ₁ : Consistent (s.posted e set) := hS.consistent.of_core rfl
  have hon : ∀ u ∈ s.queues.lists (.event e), (s.posted e set).queues.home u = some (.event e) :=
      fun u hu =>
    (s.queues.mem_iff _ _).mp hu
  have hset : ((s.posted e set).events e).set = (s.events e).set ||| set.setWidth 64 := by
    simp [State.posted]
  obtain ⟨hadds, hjob⟩ := eventFold_adds _ (s.queues.nodup _) (s.posted e set) hJ₁ hon
  obtain ⟨hJ, -⟩ := offCpu_eventFold (e := e) (s.queues.lists (.event e)) (s.queues.nodup _)
    (s.posted e set)
    (s.posted e set) hJ₁ rfl hon
  have ht : t ∉ s.queues.lists (.event e) := by
    intro ht
    have hst := hS.consistent.block_of_home (h := .event e) rfl ((s.queues.mem_iff _ _).mp ht)
    rw [hst] at hrun
    cases hrun
  rw [hset] at hadds
  exact .wakes hadds (hjob t ht) (hJ.cpu_schedules cfg)

/-! ## Threads -/

/-- `nd_thread_create`. -/
theorem Sound.create_visit (hS : Sound cfg s) {b : CreateArgs}
    (hv : (Op.threadCreate b).valid s = true) (hrun : (s.threads t).stat = .running) (e : Bool) :
    s.cpu.Visit cfg t ((Op.threadCreate b).arrivals s) (s.threads t).priority e
      (ndThreadCreate cfg b s).1.cpu := by
  rcases hS.create_cases hv with ⟨hb, he⟩ | ⟨u, hcr, he⟩
  · have harr : (Op.threadCreate b).arrivals s = [] := if_neg fun h => h.2 (hb h.1)
    rw [harr, he]
    exact .rests (.of_ready rfl) fun _ => ⟨rfl, rfl⟩
  · have htu : t ≠ u := by
      rintro rfl
      exact hcr.dead (live_of_stops (.inl hrun))
    have harr : (Op.threadCreate b).arrivals s = [b.priority] :=
      if_pos ⟨hcr.accepted, by simp [hcr.thread]⟩
    rw [harr, he]
    apply Cpu.Visit.wakes (Cpu.adds_append _ _ _ _) _ (hcr.schedules cfg)
    exact Function.update_of_ne htu _ _

/-- `nd_thread_resume`. -/
theorem Sound.resume_visit (hS : Sound cfg s) (u : Tid) (hrun : (s.threads t).stat = .running)
    (b : Bool) :
    s.cpu.Visit cfg t ((Op.threadResume u).arrivals s) (s.threads t).priority b
      (ndThreadResume cfg u s).1.cpu := by
  unfold Op.arrivals
  simp only
  by_cases hst : (s.threads u).stat = .suspend
  · have hJ := hS.consistent.readied_of (f := fun th => { th with stat := .ready })
      (.inr hst) rfl rfl
      rfl rfl rfl
    have hcpu := hS.consistent.cpu_woken (t := u) (f := fun th => { th with stat := .ready })
      (by rw [hst]; decide)
      (job_wake s u fun th => ⟨th.error, rfl⟩)
    have htu : t ≠ u := by
      rintro rfl
      rw [hst] at hrun
      cases hrun
    have hsched := hJ.cpu_schedules cfg
    rw [if_pos hst, ndThreadResume_eq hS.consistent hst]
    rw [hcpu] at hsched
    refine .wakes (Cpu.adds_append _ _ _ _) ?_ hsched
    exact Function.update_of_ne htu _ _
  · rw [if_neg hst, ndThreadResume_refused hst]
    exact .rests (.of_ready rfl) fun _ => ⟨rfl, rfl⟩

/-- `nd_thread_suspend`. -/
theorem Sound.suspend_visit (hS : Sound cfg s) (hv : (Op.threadSuspend u).valid s = true)
    (b : Bool) :
    s.cpu.Visit cfg t [] (s.threads t).priority b (ndThreadSuspend cfg u s).1.cpu := by
  have hJ := hS.consistent
  have hne : u ≠ idleTid := by
    simp only [Op.valid, Bool.and_eq_true, decide_eq_true_eq] at hv
    exact hv.2
  have hparked : Cpu.Brings [] s.cpu (s.parked u suspendEdit).cpu := by
    rw [cpu_parked]
    exact Cpu.brings_take _ _ _
  rcases ndThreadSuspend_cases hJ cfg u with he | ⟨-, hr, he⟩ | ⟨-, hb, he⟩
  · rw [he]
    exact .rests (.of_ready rfl) fun _ => ⟨rfl, rfl⟩
  · rw [he]
    exact .rests hparked fun _ => ⟨rfl, rfl⟩
  · rw [he]
    exact .schedules hparked (fun _ => ⟨rfl, rfl⟩)
      ((hJ.suspended (live_of_stops hb) hne).cpu_schedules cfg)

/-- The joiners of a thread that ends come to their ready lists.
kernel/nd_thread.c:180-213 -/
theorem Sound.halt_brings (hS : Sound cfg s) (hne : u ≠ idleTid) :
    Cpu.Brings (s.priorities (s.queues.lists (.join u))) s.cpu (wakeJoiners u (s.ended u)).cpu ∧
      ((wakeJoiners u (s.ended u)).threads u).stat = .dead := by
  have hJ := hS.consistent.ended hne
  have hended : Cpu.Brings (s.priorities (s.queues.lists (.join u))) s.cpu (s.ended u).cpu := by
    rw [cpu_ended]
    exact Cpu.brings_take _ _ _
  obtain ⟨-, ⟨hm, -, hdead, -⟩, -⟩ := wakeAll_spec (h := .join u) rfl
    (fun y => Cpu.Brings (s.priorities (s.queues.lists (.join u))) s.cpu y.cpu ∧
      (∀ j, y.queues.home j = some (.join u) → s.queues.home j = some (.join u) ∧
        (y.threads j).priority = (s.threads j).priority) ∧
      (y.threads u).stat = .dead ∧ y.queues.home u = none)
    (fun y j hJy ⟨hy, hjoin, hdead, hfree⟩ hj => by
      have hst := hJy.block_of_home (h := .join u) rfl hj
      have hju : u ≠ j := by
        rintro rfl
        rw [hfree] at hj
        cases hj
      obtain ⟨hhome, hprio⟩ := hjoin j hj
      have hmem : (y.threads j).priority ∈ s.priorities (s.queues.lists (.join u)) := by
        rw [hprio]
        exact List.mem_map_of_mem ((s.queues.mem_iff _ _).mpr hhome)
      refine ⟨hy.trans fun q hq => ?_, fun v hv => ?_, by simpa [hju] using hdead, ?_⟩
      · rcases ((hJy.adds_readied hst fun th => ⟨.eok, rfl⟩).1 q).mp hq with h | h
        · exact .inl h
        · rw [List.mem_singleton] at h
          exact .inr (h ▸ hmem)
      · rw [home_readied] at hv
        split at hv
        · cases hv
        · rename_i hvj
          simpa [hvj] using hjoin v hv
      · rw [home_readied, if_neg hju]
        exact hfree)
    (((s.ended u).queues.lists (.join u)).length) (s.ended u) hJ
    ⟨hended, fun v hv => by
      have hvu : v ≠ u := by
        rintro rfl
        simp [State.ended, State.parked] at hv
      simpa [State.ended, State.parked,
        hvu] using hv, by simp [endEdit], by simp [State.ended, State.parked]⟩ le_rfl
  exact ⟨hm, hdead⟩

/-- `nd_thread_abort`. -/
theorem Sound.abort_visit (hS : Sound cfg s) {v : Option Tid}
    (hv : (Op.threadAbort v).valid s = true) (hc : s.current = some t) :
    s.cpu.Visit cfg t ((Op.threadAbort v).arrivals s) (s.threads t).priority false
      (ndThreadAbort cfg v s).1.cpu := by
  rcases hS.abort_cases hv with he | ⟨u, rfl, hlive, hess, hne, he⟩
  · rw [he]
    exact .rests (.of_ready rfl) fun h => by cases h
  obtain ⟨hbrings, hdead⟩ := hS.halt_brings hne
  rw [he]
  by_cases hcu : s.current = some u
  · -- the current thread ends itself
    have htu : t = u := Option.some.inj (hc.symm.trans hcu)
    subst htu
    rw [if_pos hcu]
    refine .stops (hS.stops (hS.consistent.halted hne).1 (sched_of_flags (flags_wakeAll _ _ _)) ?_
      ?_)
    · rw [hdead]
      decide
    · rw [hdead]
      decide
  · have harr : (Op.threadAbort (some u)).arrivals s = s.priorities (s.queues.lists (.join u)) :=
      if_pos ⟨hcu, hlive.2, hess⟩
    rw [if_neg hcu, harr]
    exact .rests hbrings fun h => by cases h

/-! ## Mutexes -/

/-- `nd_mutex_unlock`. -/
theorem Sound.unlock_visit (hS : Sound cfg s) (hm : threadMode s = some t) (m : Mid) :
    s.cpu.Visit cfg t ((Op.mutexUnlock m).arrivals s)
      ((Action.call (.mutexUnlock m)).newPriority s t)
      ((Action.call (.mutexUnlock m)).schedules s) (ndMutexUnlock cfg m s).1.cpu := by
  have hcur := (threadMode_eq hm).2.2.1
  have hrun := hS.runs hm
  by_cases ho : (s.mutexes m).owner = some t
  · have hr : (s.threads t).stat ≠ .ready := by rw [hrun]; decide
    have hprio : (Action.call (.mutexUnlock m)).newPriority s t = restoredPriority s t m :=
      if_pos ho
    have harr : (Op.mutexUnlock m).arrivals s = s.priorities
        (s.queues.lists (.mutex m)).head?.toList :=
      if_pos (ho.trans hcur.symm)
    have hreleased : (s.released m t).cpu.ready = s.cpu.ready := by
      rw [cpu_released]
      rfl
    rw [hprio, harr]
    cases hl : s.queues.lists (.mutex m) with
    | nil =>
      rw [ndMutexUnlock_free hS.consistent hS.owned hcur ho hl]
      refine .rests (.of_ready hreleased) fun h => ?_
      simp [Action.schedules, hl] at h
    | cons w ws =>
      have hh : (s.queues.lists (.mutex m)).head? = some w := by rw [hl]; rfl
      have hJ₁ := hS.released hr m
      have hq : (s.released m t).queues.home w = some (.mutex m) := s.queues.home_of_head hh
      have hst := hJ₁.block_of_home (h := .mutex m) rfl hq
      have htw : t ≠ w := by
        rintro rfl
        rw [State.released_threads, Function.update_self] at hst
        have hst' : (s.threads t).stat = .block := hst
        rw [hrun] at hst'
        cases hst'
      have hJ₂ := hJ₁.readied_of (f := wakeEdit) (.inl hst) rfl rfl rfl rfl rfl
      have hfree : ((s.released m t).readied w (fun _ => false) wakeEdit).taken.home m = none := by
        simp
      have hJ₃ : Consistent (((s.released m t).readied w (fun _ => false) wakeEdit).handed m w) :=
        hJ₂.of_core (core_handed hfree w)
      obtain ⟨hadds, hjob⟩ := hJ₁.adds_readied hst fun th => ⟨.eok, rfl⟩
      have hw : ((s.released m t).threads w).priority = (s.threads w).priority := by
        simp [Ne.symm htw]
      have hkept : (s.released m t).job t =
          { s.job t with priority := restoredPriority s t m } := by
        have hjobs := congrFun (congrArg Cpu.jobs (cpu_released s m t)) t
        exact hjobs.trans (Function.update_self t _ s.job)
      rw [ndMutexUnlock_hand hS hcur hr ho hh]
      rw [hw] at hadds
      refine .wakes ?_ ((hjob t htw).trans hkept) (hJ₃.cpu_schedules cfg)
      exact (Cpu.Adds.of_ready (c := s.cpu) hreleased).trans hadds
  · have he : (ndMutexUnlock cfg m s).1 = s := by
      unfold ndMutexUnlock
      simp only [hcur, ne_eq, ho, not_false_eq_true, if_true]
    have hprio : (Action.call (.mutexUnlock m)).newPriority s t = (s.threads t).priority :=
      if_neg ho
    have harr : (Op.mutexUnlock m).arrivals s = [] := if_neg (by rw [hcur]; exact ho)
    rw [he, hprio, harr]
    exact .rests (.of_ready rfl) fun _ => ⟨rfl, rfl⟩

/-- A thread that starts to wait stops. -/
theorem Sound.pend_stops (hS : Sound cfg s) (h : threadMode s = some t) (hk : k.isWait = true)
    (hjoin : ∀ u, k = .join u → (s.threads u).stat.live) (n : ℕ) :
    ((ndScheduler cfg (ndThreadPend cfg k n s)).threads t).stat ≠ .running := by
  obtain ⟨-, -, hc, hne⟩ := threadMode_eq h
  have hJ := hS.consistent.pend hc (hS.runs h) hne hk hjoin cfg n
  have hst : ((ndThreadPend cfg k n s).threads t).stat = .block := by
    have hjobs := congrFun (congrArg Cpu.jobs (cpu_pend cfg hc hk n)) t
    exact congrArg Job.stat (hjobs.trans (Function.update_self t _ s.job))
  refine hS.stops hJ (sched_of_flags (flags_ndThreadPend cfg hc k n)) ?_ ?_
  · rw [hst]
    decide
  · rw [hst]
    decide

/-- A ready owner comes to the ready list of the thread that raises it.
kernel/nd_mutex.c:19-30, 89-92 -/
theorem boostOwner_brings (hJ : Consistent s) {m : Mid} {o c : Tid} :
    Cpu.Brings (if (s.threads o).stat = .ready ∧
      (s.threads c).priority < (s.threads o).priority then
      [(s.threads c).priority] else []) s.cpu (boostOwner m o c s).cpu := by
  unfold boostOwner
  by_cases hlt : (s.threads c).priority < (s.threads o).priority
  · simp only [if_pos hlt]
    set s₁ := s.updMutex m fun mx => { mx with priority := (s.threads c).priority } with hs₁
    have hJ₁ : Consistent s₁ := hJ.of_core rfl
    by_cases hr : (s.threads o).stat = .ready
    · have hr₁ : (s₁.threads o).stat = .ready := hr
      have hp : (Thread.withPriority (s.threads c).priority (s₁.threads o)).priority =
        (s.threads c).priority := rfl
      rw [if_pos ⟨hr, hlt⟩, ndThreadChangePriority_ready hJ₁ hr₁ (hJ.ok c).prio, cpu_readied_head,
        hp]
      intro q hq
      by_cases hqp : q = (s.threads c).priority
      · exact .inr (by simp [hqp])
      · left
        intro hnil
        apply hq
        have hnil' : s₁.cpu.ready q = [] := hnil
        simp [hqp, hnil']
    · have hr₁ : (s₁.threads o).stat ≠ .ready := hr
      rw [if_neg (fun h => hr h.1), ndThreadChangePriority_other hr₁, cpu_updThread]
      exact .of_ready rfl
  · rw [if_neg hlt]
    exact .of_ready rfl

/-- `nd_mutex_lock`. -/
theorem Sound.lock_visit (hS : Sound cfg s) (hm : threadMode s = some t) (m : Mid) (n : ℕ) :
    s.cpu.Visit cfg t ((Call.mutexLock m n).arrivals s) (s.threads t).priority false
      (ndMutexLock cfg m n s).1.cpu := by
  have hcur := (threadMode_eq hm).2.2.1
  have hnone : ∀ {l : List ℕ}, s.cpu.Visit cfg t l (s.threads t).priority false s.cpu :=
    .rests (.of_ready rfl) fun h => by cases h
  unfold ndMutexLock
  simp only [hcur]
  cases ho : (s.mutexes m).owner with
  | none => exact hnone
  | some o =>
    simp only
    by_cases hoc : o = t
    · rw [if_pos hoc]
      exact hnone
    rw [if_neg hoc]
    by_cases hn : n = ndTimeoutNowait
    · have hbrings := boostOwner_brings (m := m) (o := o) (c := t) hS.consistent
      have harr : (Call.mutexLock m n).arrivals s =
          if (s.threads o).stat = .ready ∧ (s.threads t).priority < (s.threads o).priority then
            [(s.threads t).priority] else [] := by
        simp [Call.arrivals, hcur, ho, hn]
      rw [if_pos hn, harr]
      exact .rests hbrings fun h => by cases h
    · obtain ⟨hK, ht'⟩ := hS.boost (C := True) hm (m := m) hoc
      rw [if_neg hn]
      exact .stops (hK.sound.pend_stops ht' (k := .mutex m) rfl (fun _ h => by cases h) n)

/-! ## Blocking calls -/

/-- The body of a blocking call. -/
theorem Sound.body_visit (hS : Sound cfg s) (hm : threadMode s = some t) {c : Call}
    (hv : (Op.wait c).valid s = true)
    (hf : cfg.port = .deferred → ¬ c.mustLoop s) {b : Bool} (hb : ∀ m n, c = .mutexLock m n →
      b = false) :
    s.cpu.Visit cfg t (c.arrivals s) (s.threads t).priority b
      (NerdRtos.callBody cfg c s).1.cpu := by
  have hcur := (threadMode_eq hm).2.2.1
  have hrun := hS.runs hm
  have hnone : s.cpu.Visit cfg t [] (s.threads t).priority b s.cpu :=
    .rests (.of_ready rfl) fun _ => ⟨rfl, rfl⟩
  cases c with
  | mutexLock m n =>
    rw [hb m n rfl]
    exact hS.lock_visit hm m n
  | semTake i n =>
    simp only [NerdRtos.callBody, ndSemTake]
    by_cases hv : 0 < (s.sems i).val
    · rw [if_pos hv]
      exact hnone
    by_cases hn : n = ndTimeoutNowait
    · rw [if_neg hv, if_pos hn]
      exact hnone
    · rw [if_neg hv, if_neg hn]
      exact .stops (hS.pend_stops hm (k := .sem i) rfl (fun _ h => by cases h) n)
  | queueSend q msg n =>
    simp only [NerdRtos.callBody, Call.arrivals]
    cases hS.queueSend_turn (.inr ⟨t, hm⟩) hf with
    | refused hfull hn he =>
      rw [he, if_pos hfull]
      exact hnone
    | waits hfull hn ht he =>
      rw [he]
      exact .stops (hS.pend_stops hm (k := .queueSend q) rfl (fun _ h => by cases h) n)
    | served hroom he =>
      have hS' : Sound cfg (s.sent q msg) :=
        (Kept.of_bare (C := True) (y := s.sent q msg) hS rfl).sound
      rw [he, if_neg hroom]
      exact hS'.wakeupIfAny_visit (k := .queueRead q) rfl hrun b
  | queueRecv q n =>
    simp only [NerdRtos.callBody, Call.arrivals]
    cases hS.queueRecv_turn (.inr ⟨t, hm⟩) hf with
    | refused hempty hn he =>
      rw [he, if_pos hempty]
      exact hnone
    | waits hempty hn ht he =>
      rw [he]
      exact .stops (hS.pend_stops hm (k := .queueRead q) rfl (fun _ h => by cases h) n)
    | served hany he =>
      have hS' : Sound cfg (s.received q) :=
        (Kept.of_bare (C := True) (y := s.received q) hS rfl).sound
      rw [he, if_neg hany]
      exact hS'.wakeupIfAny_visit (k := .queueSend q) rfl hrun b
  | eventRecv e set opt n =>
    set x := s.updThread t fun th => { th with eventSet := set, eventOpt := opt } with hx
    have hS' : Sound cfg x := (Kept.inert (C := True) (t := t)
      (f := fun th => { th with eventSet := set, eventOpt := opt }) hS {}).sound
    have hnone' : s.cpu.Visit cfg t [] (s.threads t).priority b x.cpu :=
      .rests (.of_ready rfl) fun _ => ⟨rfl, rfl⟩
    simp only [NerdRtos.callBody, ndEventRecv, hcur]
    by_cases hsat : ndEventIsSatisfied (s.events e).set set opt = true
    · rw [if_pos (show ndEventIsSatisfied (x.events e).set set opt = true from hsat)]
      exact hnone'
    rw [if_neg (show ¬ ndEventIsSatisfied (x.events e).set set opt = true from hsat)]
    by_cases hn : n = ndTimeoutNowait
    · rw [if_pos hn]
      exact hnone'
    · rw [if_neg hn]
      exact .stops (hS'.pend_stops (s := x) hm (k := .event e) rfl (fun _ h => by cases h) n)
  | mempoolAlloc p n =>
    simp only [NerdRtos.callBody]
    cases hS.mempoolAlloc_turn (.inr ⟨t, hm⟩) hf with
    | refused hempty hn he =>
      rw [he]
      exact hnone
    | waits hempty hn ht he =>
      rw [he]
      exact .stops (hS.pend_stops hm (k := .pool p) rfl (fun _ h => by cases h) n)
    | served hany he =>
      rw [he]
      exact hnone
  | threadJoin v n =>
    simp only [NerdRtos.callBody]
    rcases ndThreadJoin_cases cfg s v n with ⟨r, he, -⟩ | ⟨u, rfl, -, hd, -, he⟩
    · rw [he]
      exact hnone
    · rw [he]
      simp only [Op.valid, decide_eq_true_eq] at hv
      refine .stops (hS.pend_stops hm (k := .join u) rfl (fun w hw => ?_) n)
      cases hw
      exact ⟨hv, hd⟩

/-- The running thread goes on with its call. -/
theorem Sound.resume_call_visit (hS : Sound cfg s) (hm : threadMode s = some t)
    (hc : s.calls t ≠ none) (hf : (NerdRtos.resumeCall cfg s).fault = false) :
    s.cpu.Visit cfg t (Action.resume.arrivals s) (s.threads t).priority true
      (NerdRtos.resumeCall cfg s).cpu := by
  have hcur := (threadMode_eq hm).2.2.1
  obtain ⟨c, hc'⟩ := Option.ne_none_iff_exists'.mp hc
  have harr : Action.resume.arrivals s = if c.loops = true ∧
      s.currentError ≠ .etimeout then c.arrivals s else [] := by
    simp [Action.arrivals, hcur, hc']
  have hnone : s.cpu.Visit cfg t [] (s.threads t).priority true s.cpu :=
    .rests (.of_ready rfl) fun _ => ⟨rfl, rfl⟩
  unfold NerdRtos.resumeCall at hf ⊢
  simp only [hcur, hc'] at hf ⊢
  have hf' := fault_finishCall _ _ hf
  rw [cpu_finishCall, harr]
  have hloop : ∀ r, c.loops = true → NerdRtos.callRest cfg c s =
      (if s.currentError = .etimeout then (s, some r) else NerdRtos.callBody cfg c s) →
      (∀ m n, c ≠ .mutexLock m n) → (Op.wait c).valid s = true →
      s.cpu.Visit cfg t (if c.loops = true ∧ s.currentError ≠ .etimeout then c.arrivals s else [])
        (s.threads t).priority true (NerdRtos.callRest cfg c s).1.cpu := by
    intro r hl he hne hv
    rw [he] at hf' ⊢
    by_cases herr : s.currentError = .etimeout
    · rw [if_pos herr, if_neg (fun h => h.2 herr)]
      exact hnone
    · rw [if_neg herr] at hf' ⊢
      rw [if_pos ⟨hl, herr⟩]
      exact hS.body_visit hm hv (fun hp => not_mustLoop (.inr ⟨t, hm⟩) hp hf') fun m n h =>
        absurd h (hne m n)
  cases c with
  | queueSend q msg n => exact hloop _ rfl rfl (by simp) rfl
  | queueRecv q n => exact hloop _ rfl rfl (by simp) rfl
  | mempoolAlloc p n => exact hloop _ rfl rfl (by simp) rfl
  | _ => exact hnone

/-- **What the running thread does to the ready lists** in one critical section. -/
theorem exec_visit (hS : Sound cfg s) (hrun : (s.threads t).stat = .running)
    (ha : allowed cfg s a = true) (hf : (exec cfg a s).fault = false) (hcall : (∃ o, a = .call o) ∨
      a = .resume) :
    s.cpu.Visit cfg t (a.arrivals s) (a.newPriority s t) (a.schedules s) (exec cfg a s).cpu := by
  have hc := ((hS.consistent.ok t).running hrun).1
  have hnone : ∀ {b : Bool}, s.cpu.Visit cfg t [] (s.threads t).priority b s.cpu :=
    .rests (.of_ready rfl) fun _ => ⟨rfl, rfl⟩
  have huser : ∀ u v, TimerId.user u ≠ .slice v := fun u v h => by cases h
  rcases hcall with ⟨o, rfl⟩ | rfl
  · have hv := (call_allowed ha).1
    have hm := (outside_of_allowed ha hc).1
    cases o with
    | threadCreate b => exact hS.create_visit hv hrun true
    | threadAbort v => exact hS.abort_visit hv hc
    | threadSuspend u => exact hS.suspend_visit hv true
    | threadResume u => exact hS.resume_visit u hrun true
    | semRelease i => exact hS.release_visit i hrun true
    | eventSend e set => exact hS.eventSend_visit e set hrun true
    | mempoolFree p ptr => exact hS.free_visit hf hrun true
    | timerInit u periodic timeout callback =>
      simp only [NerdRtos.exec, NerdRtos.execOp, cpu_ndTimerInit]
      exact hnone
    | timerStart u =>
      simp only [NerdRtos.exec, NerdRtos.execOp, cpu_timerStart cfg s (huser u)]
      exact hnone
    | timerStop u =>
      simp only [NerdRtos.exec, NerdRtos.execOp, ndTimerStop, cpu_timerRemove s (huser u)]
      exact hnone
    | mutexUnlock m => exact hS.unlock_visit hm m
    | threadYield =>
      have hJ : Consistent (s.updThread t fun th => { th with yield := true }) :=
        hS.consistent.inert {}
      have hready : (s.updThread t fun th => { th with yield := true }).cpu.ready = s.cpu.ready :=
        rfl
      have hexec : exec cfg (.call .threadYield) s = ndScheduler cfg (s.updThread t fun th =>
          { th with yield := true }) := by
        simp only [NerdRtos.exec, NerdRtos.execOp, ndThreadYield, hc]
      rw [hexec]
      exact .schedules (.of_ready hready) (fun _ => ⟨rfl, rfl⟩) (hJ.cpu_schedules cfg)
    | threadDelay n =>
      have hready : (s.delayed cfg t n).cpu.ready = s.cpu.ready := by
        rw [cpu_delayed]
        rfl
      have hexec : exec cfg (.call (.threadDelay n)) s = ndScheduler cfg (s.delayed cfg t n) := by
        simp only [NerdRtos.exec, NerdRtos.execOp, ndThreadDelay_eq cfg hc]
      rw [hexec]
      exact .schedules (.of_ready hready) (fun _ => ⟨rfl, rfl⟩)
        ((hS.consistent.delayed cfg hrun (threadMode_eq hm).2.2.2 n).1.cpu_schedules cfg)
    | wait c =>
      have hS' : Sound cfg (s.emit (.call s.caller c s.clock)) :=
        (Kept.of_bare (C := True) (y := s.emit _) hS rfl).sound
      have hfault : (NerdRtos.startCall cfg c s).fault = false := hf
      have harr : c.arrivals (s.emit (.call s.caller c s.clock)) = c.arrivals s := by
        cases c <;> rfl
      have hbody := hS'.body_visit (c := c) (b := (Action.call (.wait c)).schedules s) hm hv
        (fun hp => not_mustLoop (s := s.emit (.call s.caller c s.clock)) (.inr ⟨t, hm⟩) hp
          (fault_finishCall _ _ hfault)) fun m n h => by rw [h]; rfl
      rw [harr] at hbody
      simp only [NerdRtos.exec, NerdRtos.execOp]
      unfold NerdRtos.startCall
      rw [cpu_finishCall]
      exact hbody
  · obtain ⟨w, hm, hinside⟩ := resume_allowed ha
    have hwt : w = t := Option.some.inj ((threadMode_eq hm).2.2.1.symm.trans hc)
    subst hwt
    exact hS.resume_call_visit hm hinside hf

/-- A control block that a thread is created in is unused. -/
theorem Prelude.unused {c : Cpu} (h : Prelude s a c) (ha : a.creates = some t) :
    (s.threads t).stat = .init ∨ (s.threads t).stat = .dead := by
  have hnone : ∀ {b : Action}, a = b → b.creates ≠ none := by
    rintro b rfl
    rw [ha]
    simp
  cases h with
  | moves h hm hjobs hready hc => exact absurd h (hnone rfl)
  | creates h hst hc =>
    rw [ha, Option.some.injEq] at h
    subst h
    exact hst
  | yields h hc hrun => exact absurd rfl (hnone h)
  | expires h hl hc hcb hpeers => exact absurd rfl (hnone h)
  | lapses h hl hc hwhy => exact absurd rfl (hnone h)

/-- The priority of the running thread after a step. -/
theorem exec_newPriority (hS : Sound cfg s) (hrun : (s.threads t).stat = .running)
    (ha : allowed cfg s a = true)
    (hf : (exec cfg a s).fault = false) :
      ((exec cfg a s).threads t).priority = a.newPriority s t := by
  have hc := ((hS.consistent.ok t).running hrun).1
  by_cases hun : ∃ m, a = .call (.mutexUnlock m)
  · obtain ⟨m, rfl⟩ := hun
    obtain ⟨w, hw⟩ := threadMode_of_call ha rfl
    have hwt : w = t := Option.some.inj ((threadMode_eq hw).2.2.1.symm.trans hc)
    subst hwt
    show ((ndMutexUnlock cfg m s).1.threads w).priority = _
    by_cases ho : (s.mutexes m).owner = some w
    · have hprio : (Action.call (.mutexUnlock m)).newPriority s w = restoredPriority s w m :=
        if_pos ho
      rw [hprio]
      cases hl : s.queues.lists (.mutex m) with
      | nil =>
        rw [ndMutexUnlock_free hS.consistent hS.owned hc ho hl]
        simp [Thread.withPriority]
      | cons u us =>
        have hh : (s.queues.lists (.mutex m)).head? = some u := by rw [hl]; rfl
        rw [priority_of_offCpu (hS.offCpu_handOver hw ho hh)]
        show (Function.update (s.released m w).threads u (wakeEdit ((s.released m w).threads u))
          w).priority = _
        by_cases huw : w = u
        · subst huw
          simp [wakeEdit, Thread.withPriority]
        · rw [Function.update_of_ne huw]
          simp [Thread.withPriority]
    · have he : (ndMutexUnlock cfg m s).1 = s := by
        unfold ndMutexUnlock
        simp only [hc, ne_eq, ho, not_false_eq_true, if_true]
      rw [he]
      exact (if_neg ho).symm
  · have hprio : a.newPriority s t = (s.threads t).priority := by
      unfold Action.newPriority
      split
      · exact absurd ⟨_, rfl⟩ hun
      · rfl
    rw [hprio]
    apply exec_priority hS ha hf
    · intro hnew
      obtain ⟨x, hx, -⟩ := (exec_turn hS ha hf).split hS.consistent.cpu_ok
      have hst := hx.unused hnew
      rw [hrun] at hst
      rcases hst with h | h <;> cases h
    · intro m n c _ hcur _
      rw [Option.some.inj (hcur.symm.trans hc)]
    · intro m h
      exact absurd ⟨m, h⟩ hun

/-! ## Evaluations -/

namespace Cpu

variable {c c' d : Cpu}

/-- An evaluation that lets the running thread go on finds no thread above it, and none beside it if
the thread was asked to give way. -/
theorem Decides.runsOn (hd : d.Decides cfg c') (hok : d.Ok) (hrun : (d.jobs t).stat = .running)
    (hrun' : (c'.jobs t).stat = .running) : c'.ready = d.ready ∧
      (∀ q < (d.jobs t).priority, d.ready q = []) ∧
      ((d.jobs t).yield = true → d.ready (d.jobs t).priority = []) := by
  have hcur := (hok.running t hrun).1
  have hone : ∀ {u : Tid}, d.current = some u → u = t :=
    fun h => Option.some.inj (h.symm.trans hcur)
  -- a thread that gives way is ready
  have hgone : ∀ {n : Tid} {x : Cpu}, d.Verdict t (some n) x → n ≠ t ∧
      (x.jobs t).stat = .ready := by
    intro n x h
    have hready : d.First n → n ≠ t := by
      rintro hn rfl
      rw [((hok.mem n _).mp (List.mem_of_head? hn.head)).1] at hrun
      cases hrun
    cases h with
    | preempts _ hn hlt => exact ⟨hready hn, congrArg Job.stat (Function.update_self t _ d.jobs)⟩
    | rotates _ hn heq hy => exact ⟨hready hn, congrArg Job.stat (Function.update_self t _ d.jobs)⟩
    | leaves hst hn hrr => exact absurd hrun hst
  cases hd with
  | idle hc =>
    rw [hcur] at hc
    cases hc
  | stays hc h =>
    cases hone hc
    cases h with
    | runsOn _ hlead hpeer => exact ⟨rfl, hlead, hpeer⟩
  | switches hport hc h =>
    cases hone hc
    obtain ⟨hnt, hst⟩ := hgone h
    rw [dispatch_stat_of_ne cfg hnt, hst] at hrun'
    cases hrun'
  | pends hport hc h =>
    cases hone hc
    obtain ⟨-, hst⟩ := hgone h
    have hrun'' := hst.symm.trans hrun'
    cases hrun''

/-- A thread that runs after an evaluation ran on, or was switched in. -/
theorem Decides.ready (hd : d.Decides cfg c') (hok' : c'.Ok) (hrun' : (c'.jobs t).stat = .running) :
    c'.ready = d.ready ∨ ∃ x : Cpu, c' = x.dispatch cfg t := by
  obtain ⟨hcur, hpend⟩ := hok'.running t hrun'
  cases hd with
  | idle hc => exact .inl rfl
  | stays hc h =>
    cases h with
    | runsOn _ hlead hpeer => exact .inl rfl
  | @switches u n x hport hc h =>
    rw [dispatch_current, Option.some.injEq] at hcur
    subst hcur
    exact .inr ⟨x, rfl⟩
  | pends hport hc h => cases hpend

/-- A thread that is switched in beside a ready thread has its slice timer set. -/
theorem begin_deadline {now : ℕ} {peers : List Tid} {j : Job} (hts : j.timeSlice ≠ 0)
    (hpeers : peers ≠ [])
    (hcb : j.callback = .sliceTimeout) :
      (begin cfg now peers j).deadline = some (expiry cfg now (sliceFor j)) := by
  have hcb' : j.callback ≠ .none := by rw [hcb]; decide
  unfold begin
  rw [if_neg hts, if_neg hpeers]
  exact if_neg hcb'

/-- What is left of a slice is at most its length. -/
theorem sliceFor_le (j : Job) : sliceFor j ≤ j.timeSlice := by
  unfold sliceFor
  split
  · exact le_rfl
  · omega

end Cpu

/-- A slice timer is set for at most the slice, unless a tickless build cuts it. -/
theorem expiry_le {now n : ℕ} (h : cfg.tickless = true → n < (u64Size - 1) / 2) :
    expiry cfg now n ≤ now + n := by
  unfold expiry
  split
  · rename_i htick
    rw [if_neg (not_le.mpr (h htick)), Nat.add_comm now n]
    exact Nat.mod_le _ _
  · exact Nat.mod_le _ _

/-! ## Steps -/

namespace Cpu

variable {c c' d : Cpu}

/-- An evaluation takes no time and ends no interrupt. -/
theorem Decides.still (h : d.Decides cfg c') : c'.clock = d.clock ∧ c'.nest = d.nest := by
  cases h with
  | idle hc => exact ⟨rfl, rfl⟩
  | stays hc h => rw [h.frame]; exact ⟨rfl, rfl⟩
  | switches hport hc h => rw [dispatch_frame, h.frame]; exact ⟨rfl, rfl⟩
  | pends hport hc h => rw [h.frame]; exact ⟨rfl, rfl⟩

/-- The scheduler takes no time and ends no interrupt. -/
theorem Schedules.still (h : d.Schedules cfg c') : c'.clock = d.clock ∧ c'.nest = d.nest := by
  cases h with
  | holds h => exact ⟨rfl, rfl⟩
  | decides h hok hd => exact hd.still

end Cpu

/-- The clock moves when time passes. -/
theorem Turn.clock {c : Cpu} (hT : Turn cfg s a c) :
    c.clock = s.clock ∨ ∃ n, a = .advance n ∧ c.clock = (s.clock + n) % u64Size := by
  have hmoves : ∀ {d : Cpu}, Cpu.Moves a s.cpu d → d.clock = s.clock :=
    fun hm => congrArg Cpu.clock hm.frame
  cases hT with
  | ticks k ha => exact .inr ⟨k, ha, rfl⟩
  | rests ha hr hm => exact .inl (hmoves hm)
  | schedules ha hm h => exact .inl (h.still.1.trans (hmoves hm))
  | creates ha ht hb hst hc h => exact .inl h.still.1
  | yields ha hc hrun h => exact .inl h.still.1
  | decides ha hn ht hone hok h => exact .inl h.still.1
  | switches ha hn hr => exact .inl (Cpu.dispatch_clock cfg _ _)
  | starts ha hc hn => exact .inl (Cpu.dispatch_clock cfg _ _)
  | _ => exact .inl rfl

/-- After a step outside of the interrupts, it began there or left the outermost one. -/
theorem Turn.outside {c : Cpu} (hT : Turn cfg s a c) (hn : c.nest = 0) : s.nest = 0 ∨ a = .irqExit ∧
    s.nest = 1 := by
  have hmoves : ∀ {d : Cpu}, Cpu.Moves a s.cpu d → d.nest = s.nest :=
    fun hm => congrArg Cpu.nest hm.frame
  have hdispatch : ∀ (n : Tid) (d : Cpu), (d.dispatch cfg n).nest = d.nest := by
    intro n d
    rw [Cpu.dispatch_frame]
  cases hT with
  | rests ha hr hm => exact .inl ((hmoves hm).symm.trans hn)
  | schedules ha hm h => exact .inl ((hmoves hm).symm.trans (h.still.2.symm.trans hn))
  | creates ha ht hb hst hc h => exact .inl (h.still.2.symm.trans hn)
  | yields ha hc hrun h => exact .inl (h.still.2.symm.trans hn)
  | enters ha => exact absurd hn (Nat.succ_ne_zero _)
  | exits ha hpos h =>
    have hzero : s.nest - 1 = 0 := hn
    exact .inr ⟨ha, by omega⟩
  | decides ha hpos ht hone hok h =>
    have hzero : s.nest - 1 = 0 := h.still.2.symm.trans hn
    exact .inr ⟨ha, by omega⟩
  | switches ha hnext hr => exact .inl ((hdispatch _ _).symm.trans hn)
  | starts ha hc hfirst => exact .inl ((hdispatch _ _).symm.trans hn)
  | _ => exact .inl hn

/-- A step changes the slice of a control block by creating a thread in it. -/
theorem Turn.timeSlice {c : Cpu} (hok : s.cpu.Ok) (hT : Turn cfg s a c) :
    (c.jobs t).timeSlice = (s.job t).timeSlice ∨
      ∃ b, a.op? = some (.threadCreate b) ∧ (c.jobs t).timeSlice = b.timeSlice := by
  by_cases hcreate : ∃ b, a.op? = some (.threadCreate b)
  · obtain ⟨b, hop⟩ := hcreate
    have hplain : ¬ a.plain s := by
      intro h
      cases a with
      | call o => exact h.2 b (Option.some.inj hop)
      | irq o => exact h.2 b (Option.some.inj hop)
      | _ => cases hop
    cases hT with
    | refused h => exact absurd h hplain
    | rests h hr hm => exact absurd h hplain
    | schedules h hm hs => exact absurd h hplain
    | @creates u b' _ ha ht hb hst hc hs =>
      have hq := congrArg Prod.fst ((hs.ending (a := a)).quantum t)
      by_cases htu : t = u
      · subst htu
        refine .inr ⟨b', ha, hq.trans ?_⟩
        exact congrArg Job.timeSlice (Function.update_self t _ s.job)
      · refine .inl (hq.trans ?_)
        exact congrArg Job.timeSlice (Function.update_of_ne htu _ _)
    | declines ha hb => exact .inl rfl
    | yields ha hc hrun hs => rw [ha] at hop; cases hop
    | expires ha hl hc hcb hpeers => rw [ha] at hop; cases hop
    | lapses ha hl hc hwhy => rw [ha] at hop; cases hop
    | ticks k ha => exact .inl rfl
    | enters ha => exact .inl rfl
    | exits ha hn h => exact .inl rfl
    | decides ha hn ht hone hok' h => rw [ha] at hop; cases hop
    | switches ha hn hr => rw [ha] at hop; cases hop
    | starts ha hc hn => rw [ha] at hop; cases hop
  · have hnone : a.creates = none := Action.creates_eq_none fun b hop => absurd ⟨b, hop⟩ hcreate
    obtain ⟨x, hx, he⟩ := hT.split hok
    have hend : (c.jobs t).timeSlice = (x.jobs t).timeSlice := congrArg Prod.fst (he.quantum t)
    left
    rw [hend]
    cases hx with
    | moves ha hm hjobs hready hc =>
      rw [hjobs]
      exact congrArg Prod.fst (hm.quantum t)
    | creates ha hst hc =>
      rw [hnone] at ha
      cases ha
    | @yields u ha hc hrun =>
      exact Cpu.update_same Job.timeSlice (j := { s.job u with yield := true }) rfl t
    | @expires u ha hl hc hcb hpeers =>
      exact Cpu.update_same Job.timeSlice (j := (s.job u).expire) rfl t
    | @lapses u ha hl hc hwhy =>
      exact Cpu.update_same Job.timeSlice (j := { s.job u with deadline := none }) rfl t

/-- A thread that runs after a step has run on with its slice, or was switched in. -/
theorem exec_running (hr : (kernel cfg).Reach Machine.Always s) (ha : (kernel cfg).enabled s a)
    (hrun : ((exec cfg a s).threads t).stat = .running) :
    ((s.threads t).stat = .running ∧
        (a = .timerFire ∧ leftmostTimer s = some (.slice t) ∨
          ((exec cfg a s).job t).slice = (s.job t).slice)) ∨
      (exec cfg a s).clock = s.clock ∧ ∃ j : Job,
        j.timeSlice = ((exec cfg a s).threads t).timeSlice ∧
        j.callback = ((exec cfg a s).job t).callback ∧ ((exec cfg a s).job t).deadline =
          (Cpu.begin cfg s.clock
            ((exec cfg a s).queues.lists (.ready ((exec cfg a s).threads t).priority))
            j).deadline := by
  have hnext := hr.step a ha trivial
  have hcur : (exec cfg a s).current = some t :=
    (((reach_sound hnext).consistent.ok t).running hrun).1
  obtain ⟨x, hx, hshare⟩ := exec_share hr ha t
  cases hshare with
  | stays hc hs hst =>
    have hxrun : (x.jobs t).stat = .running := by
      rcases hst with hst | ⟨hxrun, -⟩
      · exact hst.symm.trans hrun
      · exact hxrun
    have hsrun := hx.running hxrun
    by_cases htimer : a = .timerFire ∧ leftmostTimer s = some (.slice t)
    · exact .inl ⟨hsrun, .inl htimer⟩
    · rcases hx.slice (.inr hsrun) (fun h hl => htimer ⟨h, hl⟩) with ⟨hslice, -⟩ | ⟨-, hoff⟩
      · exact .inl ⟨hsrun, .inr (hs.trans hslice)⟩
      · exact absurd hxrun hoff
  | rotates hxrun hst hn heq =>
    have hst' : ((exec cfg a s).threads t).stat = .ready := hst
    rw [hrun] at hst'
    cases hst'
  | @leaves n hn hc hs hst =>
    have hne : (exec cfg a s).current = some n := hc
    rw [hcur] at hne
    exact absurd (Option.some.inj hne).symm hn
  | comes hready hst hc hclock hs =>
    refine .inr ⟨hclock, x.brought s.clock t, ?_, ?_, (congrArg Job.deadline hs :)⟩
    · exact (Cpu.begin_same Job.timeSlice (fun _ _ _ _ => rfl) _ _ _).symm.trans
        (congrArg Job.timeSlice hs).symm
    · exact (Cpu.begin_same Job.callback (fun _ _ _ _ => rfl) _ _ _).symm.trans
        (congrArg Job.callback hs).symm

/-! ## Runs -/

/-- The slice timer as the scheduler sees it. -/
theorem deadline_eq_none : (s.job t).deadline = none ↔ s.isArmed (.slice t) = false := by
  unfold State.job
  by_cases h : s.isArmed (.slice t) = true <;> simp [h]

/-- An armed slice timer, by its deadline. -/
theorem deadline_eq_some {d : ℕ} (h : (s.job t).deadline = some d) :
    s.isArmed (.slice t) = true ∧ (s.timers (.slice t)).expireTime = d := by
  unfold State.job at h
  by_cases hs : s.isArmed (.slice t) = true
  · simp only [hs, if_true, Option.some.injEq] at h
    exact ⟨hs, h⟩
  · simp [hs] at h

/-- The slice timers along the runs without late peers. -/
structure Timely (cfg : Config) (s : State) : Prop where
  bound : ∀ t d, (s.threads t).stat = .running →
    (s.job t).deadline = some d → d ≤ s.clock + (s.threads t).timeSlice
  alone : s.nest = 0 → ∀ t, Unarmed s t → s.queues.lists (.ready (s.threads t).priority) = []
  short : cfg.tickless = true → ∀ t, (s.threads t).timeSlice < (u64Size - 1) / 2

/-- No slice is too long for a tickless build. -/
theorem Timely.short_step (hr : (kernel cfg).Reach Machine.Always s) (h : Timely cfg s)
    (ha : (kernel cfg).enabled s a)
    (hC : NoLatePeer cfg s a) (htick : cfg.tickless = true) (t : Tid) :
    ((exec cfg a s).threads t).timeSlice < (u64Size - 1) / 2 := by
  have hS := reach_sound hr
  rcases (exec_turn hS ha.1 ha.2).timeSlice (t := t) hS.consistent.cpu_ok with hq | ⟨b, hop, hq⟩
  · have hslice : ((exec cfg a s).threads t).timeSlice = (s.threads t).timeSlice := hq
    rw [hslice]
    exact h.short htick t
  · have hslice : ((exec cfg a s).threads t).timeSlice = b.timeSlice := hq
    rw [hslice]
    exact hC.slice b hop htick

/-- No slice timer is set for more than the slice. -/
theorem Timely.bound_step (hr : (kernel cfg).Reach Machine.Always s) (h : Timely cfg s)
    (ha : (kernel cfg).enabled s a)
    (hC : NoLatePeer cfg s a) {d : ℕ} (hrun : ((exec cfg a s).threads t).stat = .running)
    (hd : ((exec cfg a s).job t).deadline = some d) :
    d ≤ (exec cfg a s).clock + ((exec cfg a s).threads t).timeSlice := by
  have hS := reach_sound hr
  have hnext := hr.step a ha trivial
  have hT := exec_turn hS ha.1 ha.2
  rcases exec_running hr ha hrun with ⟨hsrun, ⟨rfl, hl⟩ | hslice⟩ | ⟨hclock, j, hts, hcb, hj⟩
  · -- the timer has expired
    exfalso
    obtain ⟨-, ⟨-, hc⟩ | ⟨-, hc⟩⟩ := hT.slice hl
    · have hjob : (exec cfg .timerFire s).job t = (s.job t).expire :=
        (congrFun (congrArg Cpu.jobs hc) t).trans (Function.update_self t _ s.job)
      rw [hjob] at hd
      cases hd
    · have hjob : (exec cfg .timerFire s).job t = { s.job t with deadline := none } :=
        (congrFun (congrArg Cpu.jobs hc) t).trans (Function.update_self t _ s.job)
      rw [hjob] at hd
      cases hd
  · have hdeadline : (s.job t).deadline = some d := (congrArg Job.deadline hslice :).symm.trans hd
    have hts : ((exec cfg a s).threads t).timeSlice = (s.threads t).timeSlice :=
      (congrArg Job.timeSlice hslice :)
    have hle := h.bound t d hsrun hdeadline
    rw [hts]
    rcases hT.clock with hclock | ⟨n, rfl, hclock⟩
    · have hclock' : (exec cfg a s).clock = s.clock := hclock
      rw [hclock']
      exact hle
    · have hclock' : (exec cfg (.advance n) s).clock = (s.clock + n) % u64Size := hclock
      rw [hclock']
      by_cases hwrap : s.clock + n < u64Size
      · rw [Nat.mod_eq_of_lt hwrap]
        omega
      · obtain ⟨harmed, hexpire⟩ := deadline_eq_some hdeadline
        rw [← hexpire]
        exact hC.clock t ((hS.consistent.ok t).running hsrun).1 n rfl hsrun harmed (not_lt.mp hwrap)
  · have hq : ((exec cfg a s).job t).timeSlice ≠ 0 :=
      ((reach_sound hnext).consistent.cpu_ok.armed t (by
        show ((exec cfg a s).job t).deadline ≠ none
        rw [hd]
        simp)).2
    have hq' : j.timeSlice ≠ 0 := by
      rw [hts]
      exact hq
    have hcb' : j.callback = .sliceTimeout := hcb.trans (reach_callback hnext t hq)
    by_cases hpeers : (exec cfg a s).queues.lists (.ready ((exec cfg a s).threads t).priority) = []
    · exfalso
      rw [hj, hpeers] at hd
      unfold Cpu.begin at hd
      rw [if_neg hq'] at hd
      cases hd
    · rw [hj, Cpu.begin_deadline hq' hpeers hcb', Option.some.injEq] at hd
      have hle := Cpu.sliceFor_le j
      have hexp : expiry cfg s.clock (Cpu.sliceFor j) ≤ s.clock + Cpu.sliceFor j :=
          expiry_le fun htick =>
        lt_of_le_of_lt hle (by rw [hts]; exact h.short_step hr ha hC htick t)
      rw [← hd, hclock, ← hts]
      omega

/-- A thread that is switched in beside a ready one is not unarmed. -/
theorem dispatched_armed (hr : (kernel cfg).Reach Machine.Always s) (hU : Unarmed s t) {c : Cpu}
    (hc : s.cpu = c.dispatch cfg t) : s.queues.lists (.ready (s.threads t).priority) = [] := by
  by_contra hpeers
  have hs := Cpu.dispatch_slice_self cfg c t
  rw [← hc] at hs
  have hs' : (s.job t).slice = Cpu.begin cfg c.clock
    (s.queues.lists (.ready (s.threads t).priority)) (c.brought c.clock t) := hs
  have hts : (c.brought c.clock t).timeSlice = (s.threads t).timeSlice :=
    (Cpu.begin_same Job.timeSlice (fun _ _ _ _ => rfl) _ _ _).symm.trans
      (congrArg Job.timeSlice hs').symm
  have hcb : (c.brought c.clock t).callback = (s.job t).callback :=
    (Cpu.begin_same Job.callback (fun _ _ _ _ => rfl) _ _ _).symm.trans
      (congrArg Job.callback hs').symm
  have hq : (c.brought c.clock t).timeSlice ≠ 0 := by
    rw [hts]
    exact hU.slice
  have hd : (s.job t).deadline = _ :=
    (congrArg Job.deadline hs' :).trans
      (Cpu.begin_deadline hq hpeers (hcb.trans (reach_callback hr t hU.slice)))
  rw [deadline_eq_none.mpr hU.timer] at hd
  cases hd

/-- A critical section of the thread that runs alone. -/
theorem Timely.visit_step (hr : (kernel cfg).Reach Machine.Always s) (h : Timely cfg s)
    (ha : (kernel cfg).enabled s a)
    (hC : NoLatePeer cfg s a) (hn : s.nest = 0) (hn' : (exec cfg a s).nest = 0) (hU : Unarmed s t)
    (hU' : Unarmed (exec cfg a s) t) (hcall : (∃ o, a = .call o) ∨ a = .resume) :
    (exec cfg a s).queues.lists (.ready ((exec cfg a s).threads t).priority) = [] := by
  have hS := reach_sound hr
  have hnext : (kernel cfg).Reach Machine.Always (exec cfg a s) := hr.step a ha trivial
  have hok' := (reach_sound hnext).consistent.cpu_ok
  have hc : s.current = some t := ((hS.consistent.ok t).running hU.run).1
  have hprio := exec_newPriority hS hU.run ha.1 ha.2
  by_contra hpeers
  have hready : (exec cfg a s).cpu.ready (a.newPriority s t) ≠ [] := by
    rw [← hprio]
    exact hpeers
  have hdispatched : ∀ c : Cpu, (exec cfg a s).cpu ≠ c.dispatch cfg t := fun c hc =>
    hpeers (dispatched_armed hnext hU' hc)
  have hmeets : ∀ {d : Cpu}, Cpu.Brings (a.arrivals s) s.cpu d → d.ready (a.newPriority s t) ≠ [] →
      a.Meets s t := by
    intro d hd hready
    rcases hd _ hready with hready | hmem
    · by_cases hp : a.newPriority s t = (s.threads t).priority
      · rw [hp] at hready
        exact absurd (h.alone hn t hU) hready
      · exact .inr ⟨hp, hready⟩
    · exact .inl hmem
  -- nobody arrives without a call of the scheduler
  have hquiet : ∀ {d : Cpu}, Cpu.Brings (a.arrivals s) s.cpu d →
      (a.schedules s = true → a.arrivals s = [] ∧ a.newPriority s t = (s.cpu.jobs t).priority) →
        d.ready (a.newPriority s t) = [] := by
    intro d hd hb
    by_contra hready
    have hm := hmeets hd hready
    obtain ⟨harr, hp⟩ := hb (hC.call t hc hU hn hm).1
    rcases hm with hm | ⟨hne, -⟩
    · rw [harr] at hm
      cases hm
    · exact hne hp
  have hv := exec_visit hS hU.run ha.1 ha.2 hcall
  have hrun' : ((exec cfg a s).cpu.jobs t).stat = .running := hU'.run
  have hzero : (exec cfg a s).cpu.nest = 0 := hn'
  generalize (exec cfg a s).cpu = c' at hv hrun' hready hdispatched hok' hzero
  have hdecides : ∀ {d : Cpu}, d.Schedules cfg c' → d.Ok ∧ d.Decides cfg c' := by
    intro d hs
    have hnest := hs.still.2
    cases hs with
    | holds hpos => omega
    | decides hn hok hd => exact ⟨hok, hd⟩
  cases hv with
  | stops hst => exact hst hrun'
  | rests hd hb => exact hready (hquiet hd hb)
  | schedules hd hb hs =>
    obtain ⟨hok, hdec⟩ := hdecides hs
    rcases hdec.ready hok' hrun' with heq | ⟨x, hx⟩
    · rw [heq] at hready
      exact hready (hquiet hd hb)
    · exact hdispatched x hx
  | @wakes d _ hd hjob hs =>
    obtain ⟨hok, hdec⟩ := hdecides hs
    have hrun : (d.jobs t).stat = .running := by
      rw [hjob]
      exact hU.run
    have hyield : (d.jobs t).yield = (s.threads t).yield := congrArg Job.yield hjob
    have hp : (d.jobs t).priority = a.newPriority s t := congrArg Job.priority hjob
    obtain ⟨heq, hlead, hpeer⟩ := hdec.runsOn hok hrun hrun'
    rw [heq] at hready
    rw [hp] at hlead hpeer
    -- the thread gives way, so it does not run on
    rcases (hC.call t hc hU hn (hmeets hd.brings hready)).2 with hy | ⟨q, hq, hup⟩
    · exact hready (hpeer (hyield.trans hy))
    · exact (hd q).mpr hup (hlead q hq)

/-- The end of the outermost interrupt. -/
theorem Timely.exit_step (hr : (kernel cfg).Reach Machine.Always s)
    (ha : (kernel cfg).enabled s .irqExit)
    (hC : NoLatePeer cfg s .irqExit) (hn : s.nest = 1) (hU : Unarmed s t)
      (hU' : Unarmed (exec cfg .irqExit s) t) :
    (exec cfg .irqExit s).queues.lists (.ready ((exec cfg .irqExit s).threads t).priority) =
      [] := by
  have hS := reach_sound hr
  have hc : s.current = some t := ((hS.consistent.ok t).running hU.run).1
  have hprio : ((exec cfg .irqExit s).threads t).priority = (s.threads t).priority :=
    exec_newPriority hS hU.run ha.1 ha.2
  rw [hprio]
  by_contra hpeers
  have hT := exec_turn hS ha.1 ha.2
  have hready : (exec cfg .irqExit s).cpu.ready (s.threads t).priority ≠ [] := hpeers
  have hrun' : ((exec cfg .irqExit s).cpu.jobs t).stat = .running := hU'.run
  generalize (exec cfg .irqExit s).cpu = c' at hT hready hrun'
  cases hT with
  | exits _ hpos h =>
    have htry := (hC.exit t hc hU rfl hn hready).1
    rcases h with h | h
    · rw [htry] at h
      cases h
    · omega
  | decides _ hpos ht hone hok hd =>
    obtain ⟨heq, hlead, hpeer⟩ := hd.runsOn hok (t := t) hU.run hrun'
    rw [heq] at hready
    rcases (hC.exit t hc hU rfl hn hready).2 with hy | ⟨q, hq, hup⟩
    · exact hready (hpeer hy)
    · rcases hup with hup | hup
      · exact hup (hlead q hq)
      · cases hup
  | refused h => exact h.elim
  | rests h hr hm => exact h.elim
  | schedules h hm hs => exact h.elim
  | creates h => cases h
  | declines h => cases h
  | yields h => cases h
  | expires h => cases h
  | lapses h => cases h
  | ticks k h => cases h
  | enters h => cases h
  | switches h => cases h
  | starts h => cases h

/-- A thread that runs without a slice timer runs alone. -/
theorem Timely.alone_step (hr : (kernel cfg).Reach Machine.Always s) (h : Timely cfg s)
    (ha : (kernel cfg).enabled s a)
    (hC : NoLatePeer cfg s a) (hn' : (exec cfg a s).nest = 0) (hU' : Unarmed (exec cfg a s) t) :
    (exec cfg a s).queues.lists (.ready ((exec cfg a s).threads t).priority) = [] := by
  have hS := reach_sound hr
  have hnext : (kernel cfg).Reach Machine.Always (exec cfg a s) := hr.step a ha trivial
  have houtside := (exec_turn hS ha.1 ha.2).outside hn'
  have hallowed := ha.1
  rcases exec_running hr ha hU'.run with ⟨hsrun, ⟨rfl, -⟩ | hslice⟩ | ⟨-, j, hts, hcb, hj⟩
  · -- timers expire in interrupts
    rcases houtside with hn | ⟨h, -⟩
    · simp [allowed, hn] at hallowed
    · cases h
  · have hU : Unarmed s t := by
      refine ⟨hsrun, ?_, deadline_eq_none.mp ?_⟩
      · exact fun hq => hU'.slice ((congrArg Job.timeSlice hslice :).trans hq)
      · exact (congrArg Job.deadline hslice :).symm.trans (deadline_eq_none.mpr hU'.timer)
    rcases houtside with hn | ⟨rfl, hn⟩
    · obtain ⟨hc, hpend⟩ := (hS.consistent.ok t).running hsrun
      cases a with
      | call o => exact h.visit_step hr ha hC hn hn' hU hU' (.inl ⟨o, rfl⟩)
      | resume => exact h.visit_step hr ha hC hn hn' hU hU' (.inr rfl)
      | advance n => exact h.alone hn t hU
      | write p ptr v => exact h.alone hn t hU
      | irqEnter => exact absurd hn' (Nat.succ_ne_zero _)
      | irq o => simp [allowed, hn] at hallowed
      | timerFire => simp [allowed, hn] at hallowed
      | irqExit => simp [allowed, hn] at hallowed
      | pendsv => simp [allowed, hpend] at hallowed
      | start => simp [allowed, hc] at hallowed
    · exact Timely.exit_step hr ha hC hn hU hU'
  · by_contra hpeers
    have hq : j.timeSlice ≠ 0 := by
      rw [hts]
      exact hU'.slice
    rw [Cpu.begin_deadline hq hpeers (hcb.trans (reach_callback hnext t hU'.slice)),
      deadline_eq_none.mpr hU'.timer] at hj
    cases hj

/-- Nothing runs when `main` starts. -/
theorem timely_boot (cfg : Config) (u : Setup) : Timely cfg (boot cfg u) := by
  have hjob : ∀ t, (boot cfg u).job t = Function.update (initObjects u).job idleTid
      (Job.create idleArgs) t := fun t =>
    congrArg (fun c : Cpu => c.jobs t) (cpu_boot cfg u)
  have hfacts : ∀ t, ((boot cfg u).job t).stat ≠ .running ∧ ((boot cfg u).job t).timeSlice = 0 := by
    intro t
    rw [hjob]
    by_cases hi : t = idleTid
    · subst hi
      rw [Function.update_self]
      exact ⟨by decide, rfl⟩
    · rw [Function.update_of_ne hi]
      exact ⟨fun h => (by cases h), rfl⟩
  refine ⟨fun t d hrun => absurd hrun (hfacts t).1, fun _ t hU => absurd hU.run (hfacts t).1,
    fun _ t => ?_⟩
  have hq : ((boot cfg u).threads t).timeSlice = 0 := (hfacts t).2
  rw [hq]
  decide

/-- Along the runs in which no peer comes late the slice timers are in time. -/
theorem reach_timely (h : (kernel cfg).Reach (NoLatePeer cfg) s) : Timely cfg s := by
  apply h.induction (I := Timely cfg)
  · rintro s ⟨u, rfl⟩
    exact timely_boot cfg u
  · intro s a hr hT ha hC
    have hr' := hr.mono fun _ _ _ => trivial
    exact ⟨fun t d => hT.bound_step hr' ha hC, fun hn' t => hT.alone_step hr' ha hC hn',
      fun htick => hT.short_step hr' ha hC htick⟩

/-- **The slice timer is set whenever it is needed**, outside of the interrupts, along the runs in
which no peer comes late to a thread that runs without it.
kernel/nd_scheduler.c:93-149, 179-225 -/
theorem slice_armed (h : (kernel cfg).Reach (NoLatePeer cfg) s) (hn : s.nest = 0) :
    SliceArmed s := by
  have hT := reach_timely h
  intro t hrun hq hpeers
  have harmed : s.isArmed (.slice t) = true := by
    by_contra hno
    exact hpeers (hT.alone hn t ⟨hrun, hq, by simpa using hno⟩)
  refine ⟨harmed, hT.bound t _ hrun ?_⟩
  unfold State.job
  exact if_pos harmed

instance (s : State) (t : Tid) : Decidable (Unarmed s t) :=
  decidable_of_iff ((s.threads t).stat = .running ∧
    (s.threads t).timeSlice ≠ 0 ∧ s.isArmed (.slice t) = false)
    ⟨fun h => ⟨h.1, h.2.1, h.2.2⟩, fun h => ⟨h.run, h.slice, h.timer⟩⟩

instance (s : State) (t : Tid) (a : Action) : Decidable (a.Meets s t) :=
  inferInstanceAs (Decidable (_ ∨ _ ∧ _))

instance (s : State) (t : Tid) (p : ℕ) (l : List ℕ) : Decidable (TurnEnds s t p l) :=
  inferInstanceAs (Decidable (_ ∨ ∃ q < p, _ ∨ _))

/-- A check of `NoLatePeer`, in a build with a tick. -/
def lateless (s : State) (a : Action) : Bool :=
  decide (∀ t ∈ s.current, Unarmed s t → s.nest = 0 → a.Meets s t →
    a.schedules s = true ∧ TurnEnds s t (a.newPriority s t) (a.arrivals s)) &&
  decide (∀ t ∈ s.current, Unarmed s t → a = .irqExit → s.nest = 1 →
    s.queues.lists (.ready (s.threads t).priority) ≠ [] →
    s.trySwitch = true ∧ TurnEnds s t (s.threads t).priority []) &&
  match a with
  | .advance n => s.clock + n < u64Size
  | _ => true

/-- What the check accepts lets no peer come late. -/
theorem noLatePeer_of_lateless (htick : cfg.tickless = false) (s : State) (a : Action)
    (h : lateless s a = true) :
    NoLatePeer cfg s a := by
  unfold lateless at h
  rw [Bool.and_eq_true, Bool.and_eq_true, decide_eq_true_eq, decide_eq_true_eq] at h
  obtain ⟨⟨hcall, hexit⟩, hclock⟩ := h
  refine ⟨hcall, hexit, ?_, fun b _ htick' => ?_⟩
  · rintro t - n rfl - - hwrap
    exact absurd (of_decide_eq_true hclock) (not_lt.mpr hwrap)
  · rw [htick] at htick'
    cases htick'

/-- A thread that runs alone asks to give way, and creates a peer. -/
def politeRun : List Action := [spawnSliced 1 10, .start, .call .threadYield, spawnSliced 2 10]

/-- The peer runs at once, and its slice timer is set. -/
theorem slice_armed_run : ∃ s, (kernel syncPort).run politeRun (boot syncPort {}) = some s ∧
    s.current = some 2 ∧ SliceArmed s := by
  obtain ⟨s, hs, hp⟩ := (kernel syncPort).exists_run (l := politeRun) (s := boot syncPort {})
    (p := fun s => s.current = some 2 ∧ s.nest = 0) (by decide +kernel)
  simp only [decide_eq_true_eq] at hp
  have hr := (kernel syncPort).reach_of_checked (C := NoLatePeer syncPort)
    (noLatePeer_of_lateless rfl)
    (.start ⟨{}, rfl⟩) hs (by decide +kernel)
  exact ⟨s, hs, hp.1, slice_armed hr hp.2⟩

/-- A thread that runs alone creates a peer: it runs on beside it, without a slice timer. -/
theorem late_peer_starves : ¬ ∀ s, (kernel syncPort).Reach Machine.Always s → s.nest = 0 →
    s.trySwitch = false → s.next = none → SliceArmed s := by
  intro h
  obtain ⟨s, hs, hp⟩ := (kernel syncPort).exists_run
    (l := [spawnSliced 1 10, .start, spawnSliced 2 10])
    (s := boot syncPort {}) (p := fun s => s.nest = 0 ∧ s.trySwitch = false ∧ s.next = none ∧
      Unarmed s 1 ∧
      s.queues.lists (.ready (s.threads 1).priority) ≠ []) (by decide +kernel)
  simp only [decide_eq_true_eq] at hp
  obtain ⟨hn, htry, hnext, hU, hpeers⟩ := hp
  obtain ⟨harmed, -⟩ := h s (reach_run hs) hn htry hnext 1 hU.run hU.slice hpeers
  rw [hU.timer] at harmed
  cases harmed

end NerdRtos
