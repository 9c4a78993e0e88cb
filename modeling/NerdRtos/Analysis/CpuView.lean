import NerdRtos.Analysis.Reachable

/-!
# What the scheduler sees

`Cpu` is the part of the kernel that the scheduler works on: the ready lists, the priority, the
state and the slice of every thread, and the scheduling flags. A move of a thread between lists is
an edit of its `Job` and of the ready lists (`Cpu.set`, `Cpu.take`, `Cpu.append`, `Cpu.push`), an
evaluation of `nd_schedule_pick_next` has one of four outcomes (`Verdict`), and a switch is
`Cpu.dispatch`.
-/

set_option autoImplicit false

namespace NerdRtos

/-- A thread for the scheduler. `callback` is that of its slice timer, and `deadline` the time at
which this timer expires, when it is armed. -/
structure Job where
  priority : ℕ
  stat : Stat
  yield : Bool
  timeSlice : ℕ
  sliceLeft : ℕ
  sliceStart : ℕ
  callback : Callback
  deadline : Option ℕ

/-- The kernel for the scheduler. -/
structure Cpu where
  jobs : Tid → Job
  ready : ℕ → List Tid
  current : Option Tid
  next : Option Tid
  nest : ℕ
  trySwitch : Bool
  pendsv : Bool
  clock : ℕ
  picks : List Pick

/-- The job of a thread. -/
def State.job (s : State) (t : Tid) : Job where
  priority := (s.threads t).priority
  stat := (s.threads t).stat
  yield := (s.threads t).yield
  timeSlice := (s.threads t).timeSlice
  sliceLeft := (s.threads t).sliceLeft
  sliceStart := (s.threads t).sliceStart
  callback := (s.timers (.slice t)).callback
  deadline := if s.isArmed (.slice t) then some (s.timers (.slice t)).expireTime else none

/-- What the scheduler sees of a state. -/
def State.cpu (s : State) : Cpu where
  jobs := s.job
  ready p := s.queues.lists (.ready p)
  current := s.current
  next := s.next
  nest := s.nest
  trySwitch := s.trySwitch
  pendsv := s.pendsv
  clock := s.clock
  picks := s.picks

namespace Cpu

/-- A new job for thread `t`. -/
@[simps] def set (c : Cpu) (t : Tid) (j : Job) :
    Cpu := { c with jobs := Function.update c.jobs t j }

/-- Thread `t` off its ready list. -/
@[simps] def take (c : Cpu) (t : Tid) : Cpu := { c with ready := fun p => (c.ready p).erase t }

/-- Thread `t` at the tail of ready list `p`. -/
@[simps] def append (c : Cpu) (t : Tid) (p : ℕ) : Cpu :=
  { c with ready := Function.update c.ready p (c.ready p ++ [t]) }

/-- Thread `t` at the head of ready list `p`. -/
@[simps] def push (c : Cpu) (t : Tid) (p : ℕ) : Cpu :=
  { c with ready := Function.update c.ready p (t :: c.ready p) }

end Cpu

variable {d : Set Tid} {cfg : Config} {s s' : State} {t n : Tid} {p : ℕ}

/-! ## Moves of threads -/

/-- Writing to a control block sets the job of its thread. -/
theorem cpu_updThread (s : State) (t : Tid) (f : Thread → Thread) :
    (s.updThread t f).cpu = s.cpu.set t ((s.updThread t f).job t) := by
  unfold State.cpu Cpu.set
  congr 1
  funext u
  by_cases hu : u = t
  · subst hu
    simp
  · show State.job _ u = _
    rw [Function.update_of_ne hu]
    unfold State.job
    rw [State.updThread_threads, Function.update_of_ne hu]
    rfl

/-- Taking a thread off its ready list. -/
theorem cpu_pulled (s : State) (t : Tid) : (s.pulled t).cpu = s.cpu.take t := rfl

/-- Queueing a thread at the tail of a ready list. -/
theorem cpu_listInsert_tail (h : s.queues.home t = none) :
    (s.listInsert (fun _ => false) (.ready p) t).cpu = s.cpu.append t p := by
  unfold State.cpu Cpu.append
  congr 1
  funext q
  rw [State.listInsert_queues, s.queues.lists_link _ _ h, Intrusive.insertWhere_false]
  by_cases hq : q = p
  · subst hq
    simp
  · simp [hq]

/-- Queueing a thread at the head of a ready list. -/
theorem cpu_listInsert_head (h : s.queues.home t = none) :
    (s.listInsert (fun _ => true) (.ready p) t).cpu = s.cpu.push t p := by
  unfold State.cpu Cpu.push
  congr 1
  funext q
  rw [State.listInsert_queues, s.queues.lists_link _ _ h, Intrusive.insertWhere_true]
  by_cases hq : q = p
  · subst hq
    simp
  · simp [hq]

/-- The wait lists are no part of the processor. -/
theorem cpu_listInsert_wait (s : State) (pos : Tid → Bool) {k : QHead} (hk : k.isWait = true)
    (t : Tid) :
    (s.listInsert pos k t).cpu = s.cpu := by
  unfold State.cpu
  congr 1
  funext q
  have hne : QHead.ready q ≠ k := by
    rintro rfl
    cases hk
  exact s.queues.lists_link_of_ne pos t hne

/-- A thread that was taken out and edited. -/
theorem cpu_parked (s : State) (t : Tid) (f : Thread → Thread) :
    (s.parked t f).cpu = (s.cpu.take t).set t ((s.parked t f).job t) := by
  unfold State.parked
  rw [cpu_updThread, cpu_pulled]

/-- A thread at the tail of the ready list of its priority. -/
theorem cpu_readied_tail (s : State) (t : Tid) (f : Thread → Thread) :
    (s.readied t (fun _ => false) f).cpu =
      ((s.cpu.take t).set t ((s.parked t f).job t)).append t (f (s.threads t)).priority := by
  have hfree : ((s.pulled t).updThread t f).queues.home t = none := by simp
  calc (s.readied t (fun _ => false) f).cpu
      = (State.listInsert ((s.pulled t).updThread t f) (fun _ => false)
          (.ready (f (s.threads t)).priority) t).cpu := rfl
    _ = (s.parked t f).cpu.append t (f (s.threads t)).priority := cpu_listInsert_tail hfree
    _ = _ := by rw [cpu_parked]

/-- A thread at the head of the ready list of its priority. -/
theorem cpu_readied_head (s : State) (t : Tid) (f : Thread → Thread) :
    (s.readied t (fun _ => true) f).cpu =
      ((s.cpu.take t).set t ((s.parked t f).job t)).push t (f (s.threads t)).priority := by
  have hfree : ((s.pulled t).updThread t f).queues.home t = none := by simp
  calc (s.readied t (fun _ => true) f).cpu
      = (State.listInsert ((s.pulled t).updThread t f) (fun _ => true)
          (.ready (f (s.threads t)).priority) t).cpu := rfl
    _ = (s.parked t f).cpu.push t (f (s.threads t)).priority := cpu_listInsert_head hfree
    _ = _ := by rw [cpu_parked]

/-! ## Consistency -/

/-- The ready lists hold the ready threads, each once on the list of its priority; only the current
thread is running or has its slice timer armed; and the successor that was chosen is ready or was
taken away. -/
structure Cpu.Ok (c : Cpu) : Prop where
  mem : ∀ t p, t ∈ c.ready p ↔ (c.jobs t).stat = .ready ∧ (c.jobs t).priority = p
  nodup : ∀ p, (c.ready p).Nodup
  prio : ∀ t, (c.jobs t).priority < 32
  running : ∀ t, (c.jobs t).stat = .running → c.current = some t ∧ c.pendsv = false
  armed : ∀ t, (c.jobs t).deadline ≠ none → c.current = some t ∧ (c.jobs t).timeSlice ≠ 0
  next : ∀ t, c.next = some t →
    (c.jobs t).stat = .ready ∨ (c.jobs t).stat = .suspend ∨ (c.jobs t).stat = .dead
  pending : c.pendsv = true → c.next ≠ none

/-- The invariant of the kernel, as the processor sees it. -/
theorem ConsistentBut.cpu_ok (hJ : ConsistentBut d s) : s.cpu.Ok where
  mem t p := by
    show t ∈ s.queues.lists (.ready p) ↔ (s.threads t).stat = .ready ∧ (s.threads t).priority = p
    rw [s.queues.mem_iff]
    refine ⟨hJ.ready_of_home, ?_⟩
    rintro ⟨hr, rfl⟩
    exact hJ.home_ready hr
  nodup p := s.queues.nodup _
  prio t := (hJ.ok t).prio
  running t h := (hJ.ok t).running h
  armed t h := by
    refine hJ.books.slices t ?_
    by_contra ha
    exact h (if_neg ha)
  next t h := (hJ.ok t).next h
  pending := hJ.books.pending

namespace Cpu

variable {c : Cpu}

/-- A thread that is not ready is on no ready list. -/
theorem Ok.take_eq (hok : c.Ok) (hst : (c.jobs t).stat ≠ .ready) : c.take t = c := by
  unfold take
  congr 1
  funext p
  exact List.erase_of_not_mem fun hm => hst ((hok.mem t p).mp hm).1

/-! ## Picking the successor -/

/-- Thread `n` is the first one on the first ready list that is not empty. -/
structure First (c : Cpu) (n : Tid) : Prop where
  head : (c.ready (c.jobs n).priority).head? = some n
  lower : ∀ q < (c.jobs n).priority, c.ready q = []

/-- An evaluation is recorded. -/
@[simps] def noted (c : Cpu) (k : Pick) : Cpu := { c with picks := k :: c.picks }

/-- What a rotation writes to the control block of the thread that gives way. -/
def rotateEdit (j : Job) : Job :=
  { j with
    stat := .ready
    yield := false
    sliceLeft := if j.timeSlice ≠ 0 then j.timeSlice else j.sliceLeft
    sliceStart := if j.timeSlice ≠ 0 then 0 else j.sliceStart }

/-- The four outcomes of `nd_schedule_pick_next` for the current thread `t`: it runs on, it is
preempted, it gives way to another thread of its priority, or it was not running any more.
kernel/nd_scheduler.c:93-149 -/
inductive Verdict (c : Cpu) (t : Tid) : Option Tid → Cpu → Prop
  | runsOn (hrun : (c.jobs t).stat = .running) (hlead : ∀ q < (c.jobs t).priority, c.ready q = [])
      (hpeer : (c.jobs t).yield = true → c.ready (c.jobs t).priority = [])
      {first : Option (Tid × ℕ)} (hfirst : ∀ n p, first = some (n, p) → c.First n ∧
        p = (c.jobs n).priority) :
      Verdict c t none (c.noted ⟨t, .running, (c.jobs t).priority, first, none, false⟩)
  | preempts {n : Tid} (hrun : (c.jobs t).stat = .running) (hn : c.First n)
      (hlt : (c.jobs n).priority < (c.jobs t).priority) :
      Verdict c t (some n) (((c.set t { c.jobs t with stat := .ready }).push t
        (c.jobs t).priority).noted
        ⟨t, .running, (c.jobs t).priority, some (n, (c.jobs n).priority), some n, false⟩)
  | rotates {n : Tid} (hrun : (c.jobs t).stat = .running) (hn : c.First n)
      (heq : (c.jobs n).priority = (c.jobs t).priority) (hy : (c.jobs t).yield = true) :
      Verdict c t (some n) (((c.set t (rotateEdit (c.jobs t))).append t (c.jobs t).priority).noted
        ⟨t, .running, (c.jobs t).priority, some (n, (c.jobs n).priority), some n, true⟩)
  | leaves {n : Tid} {rr : Bool} (hst : (c.jobs t).stat ≠ .running) (hn : c.First n)
      (hrr : rr = true → (c.jobs n).priority = (c.jobs t).priority) :
      Verdict c t (some n) ((c.set t { c.jobs t with yield := !rr && (c.jobs t).yield }).noted
        ⟨t, (c.jobs t).stat, (c.jobs t).priority, some (n, (c.jobs n).priority), some n, rr⟩)

end Cpu

/-- What the bitmap search finds.
kernel/nd_scheduler.c:84-91 -/
theorem ConsistentBut.first (hJ : ConsistentBut d s) :
    (ndGetHighestPriorityThread s = none ∧ ∀ q < 32, s.cpu.ready q = []) ∨
      ∃ n, ndGetHighestPriorityThread s = some n ∧ s.cpu.First n := by
  rcases ndGetHighestPriorityThread_spec hJ.books.bits with h | ⟨p, hp, n, h, hn, hlow⟩
  · exact .inl h
  · obtain ⟨hst, hpr⟩ := hJ.ready_of_home hn
    refine .inr ⟨n, h, ?_, ?_⟩
    · unfold ndGetHighestPriorityThread at h
      cases hf : ndFfs s.readyBit with
      | zero =>
        rw [hf] at h
        cases h
      | succ q =>
        rw [hf] at h
        have hq := s.queues.home_of_head h
        rw [hn, Option.some.injEq, QHead.ready.injEq] at hq
        subst hq
        show (s.queues.lists (.ready (s.threads n).priority)).head? = some n
        rw [hpr]
        exact h
    · intro q hq
      refine hlow q ?_
      rw [← hpr]
      exact hq

/-- A running thread that is put back on its ready list. -/
theorem job_requeue (s : State) (t : Tid) (rr : Bool) :
    (s.parked t (requeueEdit rr)).job t =
      { s.job t with
        stat := .ready
        sliceLeft := if rr = true ∧ (s.threads t).timeSlice ≠ 0 then (s.threads t).timeSlice
          else (s.threads t).sliceLeft
        sliceStart := if rr = true ∧ (s.threads t).timeSlice ≠ 0 then 0
          else (s.threads t).sliceStart } := by
  unfold State.job
  rw [State.parked_threads, Function.update_self]
  unfold requeueEdit
  by_cases h : rr = true ∧ (s.threads t).timeSlice ≠ 0
  · simp only [if_pos h]
    rfl
  · simp only [if_neg h]
    rfl

/-- Setting a job twice. -/
theorem Cpu.set_set (c : Cpu) (t : Tid) (j k : Job) : (c.set t j).set t k = c.set t k := by
  unfold Cpu.set
  rw [Function.update_idem]

/-- Setting a job to itself changes nothing. -/
theorem Cpu.set_self (c : Cpu) (t : Tid) : c.set t (c.jobs t) = c := by
  unfold Cpu.set
  rw [Function.update_eq_self]

/-- The current thread goes back to the head of its list when it is preempted. -/
theorem ConsistentBut.cpu_preempt (hJ : ConsistentBut d s) (hc : s.current = some t)
    (hrun : (s.threads t).stat = .running) (hlt : (s.threads n).priority < (s.threads t).priority) :
    (requeueCurrent n false s).cpu =
      (s.cpu.set t { s.job t with stat := .ready }).push t (s.threads t).priority := by
  have hout : (s.cpu.jobs t).stat ≠ .ready := by
    show (s.threads t).stat ≠ .ready
    rw [hrun]
    decide
  have hprio : (requeueEdit false (s.threads t)).priority = (s.threads t).priority := rfl
  rw [requeueCurrent_eq hJ hc hrun, decide_eq_true hlt, cpu_readied_head, hJ.cpu_ok.take_eq hout,
    job_requeue, hprio]
  rfl

/-- The current thread goes to the tail of its list when it is rotated. -/
theorem ConsistentBut.cpu_rotate (hJ : ConsistentBut d s) (hc : s.current = some t)
    (hrun : (s.threads t).stat = .running) (heq : (s.threads n).priority = (s.threads t).priority) :
    (requeueCurrent n true (s.updThread t fun th => { th with yield := false })).cpu =
      (s.cpu.set t (Cpu.rotateEdit (s.job t))).append t (s.threads t).priority := by
  set s₁ := s.updThread t fun th => { th with yield := false } with hs₁
  have hJ₁ : ConsistentBut d s₁ := hJ.inert {}
  have hth : s₁.threads t = { s.threads t with yield := false } := by simp [hs₁]
  have hprio₁ : ∀ u, (s₁.threads u).priority = (s.threads u).priority := by
    intro u
    by_cases hu : u = t
    · subst hu
      simp [hs₁]
    · simp [hs₁, hu]
  have hrun₁ : (s₁.threads t).stat = .running := by
    rw [hth]
    exact hrun
  have hout : (s₁.cpu.jobs t).stat ≠ .ready := by
    show (s₁.threads t).stat ≠ .ready
    rw [hrun₁]
    decide
  have hnlt : ¬ (s₁.threads n).priority < (s₁.threads t).priority := by
    rw [hprio₁, hprio₁, heq]
    exact Nat.lt_irrefl _
  have hedit : (requeueEdit true (s₁.threads t)).priority = (s.threads t).priority := by
    rw [← hprio₁]
    unfold requeueEdit
    split <;> rfl
  have hjob : { s₁.job t with
      stat := .ready
      sliceLeft := if true = true ∧ (s₁.threads t).timeSlice ≠ 0 then (s₁.threads t).timeSlice
        else (s₁.threads t).sliceLeft
      sliceStart := if true = true ∧ (s₁.threads t).timeSlice ≠ 0 then 0
        else (s₁.threads t).sliceStart } = Cpu.rotateEdit (s.job t) := by
    unfold State.job Cpu.rotateEdit
    rw [hth]
    simp only [true_and]
    rfl
  rw [requeueCurrent_eq hJ₁ hc hrun₁, decide_eq_false hnlt, cpu_readied_tail,
    hJ₁.cpu_ok.take_eq hout, job_requeue, hedit, hjob, hs₁, cpu_updThread, Cpu.set_set]

/-- `nd_schedule_pick_next` comes to one of the four outcomes.
kernel/nd_scheduler.c:118-149 -/
theorem ConsistentBut.verdict (hJ : ConsistentBut d s) (hc : s.current = some t) :
    s.cpu.Verdict t (ndSchedulePickNext s).1 (ndSchedulePickNext s).2.cpu := by
  have hnote : ∀ next rr, NerdRtos.notePick s next rr =
      [⟨t, (s.threads t).stat, (s.threads t).priority,
        (ndGetHighestPriorityThread s).map fun n => (n, (s.threads n).priority), next, rr⟩] := by
    intro next rr
    unfold NerdRtos.notePick
    rw [hc]
  unfold ndSchedulePickNext pickNext
  rcases hJ.first with ⟨h, hall⟩ | ⟨n, h, hn⟩
  · have hidle : (s.threads idleTid).stat = .running := by
      refine ((hJ.ok idleTid).idle rfl).1.resolve_left fun hr => ?_
      have hmem := (hJ.cpu_ok.mem idleTid (s.threads idleTid).priority).mpr ⟨hr, rfl⟩
      rw [hall _ (hJ.ok idleTid).prio] at hmem
      cases hmem
    have hci := ((hJ.ok idleTid).running hidle).1
    rw [hc, Option.some.injEq] at hci
    subst hci
    rw [h] at hnote ⊢
    simp only [hnote, hidle]
    have hprio := (hJ.ok idleTid).prio
    exact .runsOn hidle (fun q hq => hall q (Nat.lt_trans hq hprio)) (fun _ => hall _ hprio)
      fun _ _ hnone => by cases hnone
  · rw [h] at hnote ⊢
    unfold ndShouldSwitch
    simp only [hc]
    -- a thread that was not running is left as it is
    have hstays : ∀ (rr : Bool) (x : State), x.current = s.current → (x.threads t).stat ≠ .running →
        requeueCurrent n rr x = x := by
      intro rr x hx hst
      unfold requeueCurrent
      simp only [hx, hc, if_neg hst]
    have hleaves : (s.threads t).stat ≠ .running →
        s.cpu.Verdict t (some n) (s.cpu.noted ⟨t, (s.threads t).stat, (s.threads t).priority,
          some (n, (s.threads n).priority), some n, false⟩) := by
      intro hst
      have hv := @Cpu.Verdict.leaves s.cpu t n false hst hn fun h => by cases h
      have hjob : { s.cpu.jobs t with yield := !false && (s.cpu.jobs t).yield } = s.cpu.jobs t :=
        rfl
      rw [hjob, Cpu.set_self] at hv
      exact hv
    by_cases hlt : (s.threads n).priority < (s.threads t).priority
    · rw [if_pos hlt]
      simp only [hnote]
      show s.cpu.Verdict t (some n)
        ((requeueCurrent n false s).cpu.noted ⟨t, (s.threads t).stat, (s.threads t).priority,
          some (n, (s.threads n).priority), some n, false⟩)
      by_cases hrun : (s.threads t).stat = .running
      · rw [hJ.cpu_preempt hc hrun hlt, hrun]
        exact .preempts hrun hn hlt
      · rw [hstays false s rfl hrun]
        exact hleaves hrun
    · rw [if_neg hlt]
      by_cases hyield : (s.threads n).priority = (s.threads t).priority ∧ (s.threads t).yield = true
      · rw [if_pos hyield]
        simp only [hnote]
        show s.cpu.Verdict t (some n)
          ((requeueCurrent n true (s.updThread t fun th => { th with yield := false })).cpu.noted
            ⟨t, (s.threads t).stat, (s.threads t).priority, some (n, (s.threads n).priority),
              some n, true⟩)
        by_cases hrun : (s.threads t).stat = .running
        · rw [hJ.cpu_rotate hc hrun hyield.1, hrun]
          exact .rotates hrun hn hyield.1 hyield.2
        · rw [hstays true (s.updThread t fun th =>
            { th with yield := false }) rfl (by simpa using hrun), cpu_updThread]
          have hjob : (s.updThread t fun th => { th with yield := false }).job t =
              { s.job t with yield := !true && (s.job t).yield } := by
            unfold State.job
            rw [State.updThread_threads, Function.update_self]
            rfl
          rw [hjob]
          exact .leaves hrun hn fun _ => hyield.1
      · rw [if_neg hyield]
        by_cases hrun : (s.threads t).stat = .running
        · rw [if_neg (by simpa using hrun)]
          simp only [hnote, hrun]
          show s.cpu.Verdict t none (s.cpu.noted ⟨t, .running, (s.threads t).priority,
            some (n, (s.threads n).priority), none, false⟩)
          have hle : (s.threads t).priority ≤ (s.threads n).priority := Nat.not_lt.mp hlt
          refine .runsOn hrun (fun q hq => hn.lower q (Nat.lt_of_lt_of_le hq hle)) (fun hy => ?_)
            fun m p hm => ?_
          · exact hn.lower _ (Nat.lt_of_le_of_ne hle fun h => hyield ⟨h.symm, hy⟩)
          · cases hm
            exact ⟨hn, rfl⟩
        · rw [if_pos hrun]
          simp only [hnote]
          show s.cpu.Verdict t (some n)
            ((requeueCurrent n false s).cpu.noted ⟨t, (s.threads t).stat, (s.threads t).priority,
              some (n, (s.threads n).priority), some n, false⟩)
          rw [hstays false s rfl hrun]
          exact hleaves hrun

/-! ## Switching -/

/-- When a timer expires that is started now.
kernel/nd_timer.c:43-49, 186-208 -/
def expiry (cfg : Config) (now timeout : ℕ) : ℕ :=
  if cfg.tickless then
    if (u64Size - 1) / 2 ≤ timeout then u64Size - 1 else (timeout + now) % u64Size
  else (now + timeout) % u64Size

namespace Cpu

/-- The slice of the thread that is switched out.
kernel/nd_scheduler.c:190-201 -/
def settle (now : ℕ) (j : Job) : Job :=
  if j.timeSlice ≠ 0 then
    { j with
      sliceLeft :=
        if j.sliceStart ≠ 0 ∧ j.sliceLeft ≠ 0 then
          if j.sliceLeft ≤ (now + u64Size - j.sliceStart) % u64Size then 0
          else j.sliceLeft - (now + u64Size - j.sliceStart) % u64Size
        else j.sliceLeft
      sliceStart := 0
      deadline := none }
  else j

/-- What is left of a slice when its thread is switched in. -/
def sliceFor (j : Job) : ℕ :=
  if j.sliceLeft = 0 ∨ j.timeSlice < j.sliceLeft then j.timeSlice else j.sliceLeft

/-- The slice of the thread that is switched in, beside equal-priority ready threads or alone.
kernel/nd_scheduler.c:208-224 -/
def begin (cfg : Config) (now : ℕ) (peers : List Tid) (j : Job) : Job :=
  if j.timeSlice = 0 then j
  else if peers = [] then { j with sliceLeft := j.timeSlice, sliceStart := 0, deadline := none }
  else
    { j with
      sliceLeft := sliceFor j
      sliceStart := now
      deadline := if j.callback = .none then none else some (expiry cfg now (sliceFor j)) }

/-- `nd_context_switch_cb`. -/
def dispatch (cfg : Config) (n : Tid) (c : Cpu) : Cpu :=
  let c := c.take n
  let c :=
    match c.current with
    | none => c
    | some t => c.set t (settle c.clock (c.jobs t))
  let c := { c with next := none, current := some n }
  let c := c.set n { c.jobs n with stat := .running }
  c.set n (begin cfg c.clock (c.ready (c.jobs n).priority) (c.jobs n))

end Cpu

/-- A slice timer that stops has no deadline. -/
theorem cpu_stopSlice (s : State) (t : Tid) :
    (ndTimerStop (.slice t) s).cpu = s.cpu.set t { s.job t with deadline := none } := by
  unfold State.cpu Cpu.set
  congr 1
  funext u
  by_cases hu : u = t
  · subst hu
    simp [State.job, State.isArmed, ndTimerStop]
  · show State.job _ u = _
    rw [Function.update_of_ne hu]
    unfold State.job State.isArmed ndTimerStop timerRemove
    simp only [Intrusive.Queues.home_unlink, TimerId.slice.injEq, if_neg hu]

/-- A slice timer that is linked in again has a new deadline. -/
theorem cpu_rearm (s : State) (t : Tid) (e : ℕ) :
    (s.rearm (.slice t) e).cpu = s.cpu.set t { s.job t with deadline := some e } := by
  unfold State.cpu Cpu.set
  congr 1
  funext u
  by_cases hu : u = t
  · subst hu
    simp [State.job]
  · show State.job _ u = _
    rw [Function.update_of_ne hu]
    have hne : TimerId.slice u ≠ .slice t := fun h => hu (TimerId.slice.inj h)
    unfold State.job
    rw [isArmed_rearm, decide_eq_false hne, Bool.false_or, State.rearm_threads, State.rearm_timers,
      Function.update_of_ne hne]

/-- Writing the timeout of a slice timer does not touch the processor. -/
theorem cpu_updTimer_timeout (s : State) (t : Tid) (k : ℕ) :
    (s.updTimer (.slice t) fun tm => { tm with timeout := k }).cpu = s.cpu := by
  unfold State.cpu
  congr 1
  funext u
  by_cases hu : u = t
  · subst hu
    unfold State.job
    rw [State.updTimer_timers, Function.update_self]
    rfl
  · have hne : TimerId.slice u ≠ .slice t := fun h => hu (TimerId.slice.inj h)
    unfold State.job
    rw [State.updTimer_timers, Function.update_of_ne hne]
    rfl

/-- Settling the slice of a thread, as the processor sees it. -/
theorem cpu_settleSlice (s : State) (t : Tid) (now : ℕ) :
    (settleSlice t now s).cpu = s.cpu.set t (Cpu.settle now (s.job t)) := by
  by_cases h : (s.threads t).timeSlice = 0
  · have hsame : Cpu.settle now (s.job t) = s.cpu.jobs t := if_neg (not_not.mpr h)
    unfold settleSlice
    rw [if_neg (not_not.mpr h), hsame, Cpu.set_self]
  · have hjob : ((ndTimerStop (.slice t) s).updThread t (settleEdit now)).job t =
        Cpu.settle now (s.job t) := by
      unfold Cpu.settle
      rw [if_pos (show (s.job t).timeSlice ≠ 0 from h)]
      unfold State.job
      rw [State.updThread_threads, Function.update_self,
        if_neg (by simp [State.isArmed, ndTimerStop])]
      rfl
    rw [settleSlice_eq now h, cpu_updThread, cpu_stopSlice, Cpu.set_set, hjob]

/-- Starting the slice of a thread, as the processor sees it. -/
theorem cpu_startSlice (cfg : Config) (s : State) (t : Tid) (hp : (s.threads t).priority < 32) :
    (startSlice cfg t s.clock s).cpu =
      s.cpu.set t (Cpu.begin cfg s.clock (s.cpu.ready (s.job t).priority) (s.job t)) := by
  unfold startSlice
  by_cases hts : (s.threads t).timeSlice = 0
  · have hsame : Cpu.begin cfg s.clock (s.cpu.ready (s.job t).priority) (s.job t) = s.cpu.jobs t :=
      if_pos hts
    rw [if_neg (by simp [hts]), if_neg (not_not.mpr hts), hsame, Cpu.set_self]
  · by_cases hpeers : s.queues.lists (.ready (s.threads t).priority) = []
    · have hjob : ((ndTimerStop (.slice t) s).updThread t fun th =>
          { th with sliceLeft := th.timeSlice, sliceStart := 0 }).job t =
          Cpu.begin cfg s.clock (s.cpu.ready (s.job t).priority) (s.job t) := by
        unfold Cpu.begin
        rw [if_neg (show ¬ (s.job t).timeSlice = 0 from hts),
          if_pos (show s.cpu.ready (s.job t).priority = [] from hpeers)]
        simp [State.job, State.isArmed, ndTimerStop]
      rw [if_neg (by simp [State.listIsEmpty, hpeers]), if_pos hts, cpu_updThread, cpu_stopSlice,
        Cpu.set_set, hjob]
    · rw [if_pos ⟨hts, hp, by simpa [State.listIsEmpty] using hpeers⟩]
      simp only
      -- the slice is reloaded when it is used up
      have hreload : (if (s.threads t).sliceLeft = 0 ∨
        (s.threads t).timeSlice < (s.threads t).sliceLeft then
          s.updThread t fun th => { th with sliceLeft := th.timeSlice } else s) =
          s.updThread t fun th => { th with sliceLeft := Cpu.sliceFor (s.job t) } := by
        unfold Cpu.sliceFor
        split
        · rename_i h
          rw [if_pos (show (s.job t).sliceLeft = 0 ∨
            (s.job t).timeSlice < (s.job t).sliceLeft from h)]
          rfl
        · rename_i h
          rw [if_neg (show ¬ ((s.job t).sliceLeft = 0 ∨ (s.job t).timeSlice < (s.job t).sliceLeft)
            from h)]
          show s = { s with threads := Function.update s.threads t (s.threads t) }
          rw [Function.update_eq_self]
      rw [hreload]
      set s₁ := s.updThread t fun th => { th with sliceLeft := Cpu.sliceFor (s.job t) } with hs₁
      set s₂ := (ndTimerStop (.slice t) s₁).updTimer (.slice t) fun tm =>
        { tm with timeout := ((ndTimerStop (.slice t) s₁).threads t).sliceLeft } with hs₂
      set s₃ := s₂.updThread t fun th => { th with sliceStart := s.clock } with hs₃
      have hcpu : s₃.cpu = s.cpu.set t (s₃.job t) := by
        rw [hs₃, cpu_updThread, hs₂, cpu_updTimer_timeout, cpu_stopSlice, hs₁, cpu_updThread,
          Cpu.set_set, Cpu.set_set]
      have hth : s₃.threads t =
          { s.threads t with sliceLeft := Cpu.sliceFor (s.job t), sliceStart := s.clock } := by
        simp [hs₃, hs₂, hs₁, ndTimerStop]
      have htm : s₃.timers (.slice t) =
          { s.timers (.slice t) with timeout := Cpu.sliceFor (s.job t) } := by
        simp [hs₃, hs₂, hs₁, ndTimerStop]
      have harm : s₃.isArmed (.slice t) = false := by
        simp [hs₃, hs₂, State.isArmed, ndTimerStop]
      have hjob : s₃.job t =
          { s.job t with
            sliceLeft := Cpu.sliceFor (s.job t)
            sliceStart := s.clock
            deadline := none } := by
        unfold State.job
        rw [hth, htm, harm]
        rfl
      have hbegin : Cpu.begin cfg s.clock (s.cpu.ready (s.job t).priority) (s.job t) =
          { s₃.job t with
            deadline := if (s.timers (.slice t)).callback = .none then none
              else some (expiry cfg s.clock (Cpu.sliceFor (s.job t))) } := by
        unfold Cpu.begin
        rw [if_neg (show ¬ (s.job t).timeSlice = 0 from hts),
          if_neg (show ¬ s.cpu.ready (s.job t).priority = [] from hpeers), hjob]
        rfl
      rw [hbegin]
      by_cases hcb : (s.timers (.slice t)).callback = .none
      · rw [if_pos hcb, timerStart_refused cfg (by rw [htm]; exact hcb), hcpu, hjob]
      · rw [if_neg hcb, timerStart_eq cfg
          (by rw [htm]; exact hcb), cpu_rearm, hcpu, Cpu.set_set, htm]
        rfl

/-- A switch to a ready thread.
kernel/nd_scheduler.c:179-225 -/
theorem ConsistentBut.cpu_dispatch (hJ : ConsistentBut d s) (cfg : Config)
    (hn : (s.threads n).stat = .ready) :
    (ndContextSwitchCb cfg (some n) s).cpu = s.cpu.dispatch cfg n := by
  -- the thread that is switched out
  obtain ⟨x, he, hx, hoff⟩ : ∃ x : State, ndContextSwitchCb cfg (some n) s =
        NerdRtos.startSlice cfg n s.clock
          (State.updThread { x with next := none, current := some n } n
            fun th => { th with stat := .running }) ∧
      x.cpu = (match s.current with
        | none => s.cpu.take n
        | some t => (s.cpu.take n).set t (Cpu.settle s.clock (s.job t))) ∧
      x.offCpu = (s.pulled n).offCpu := by
    unfold ndContextSwitchCb
    simp only [hJ.readyRemove_eq hn]
    cases s.current with
    | none => exact ⟨_, rfl, rfl, rfl⟩
    | some t =>
      exact ⟨_, rfl, cpu_settleSlice (s.pulled n) t s.clock,
        (Sliced.settleSlice (s.pulled n) t s.clock).offCpu⟩
  have hclock : x.clock = s.clock := (congrArg State.clock hoff :)
  have hprio : (x.threads n).priority < 32 := by
    rw [priority_of_offCpu hoff]
    exact (hJ.ok n).prio
  set y := State.updThread { x with next := none, current := some n } n
    fun th => { th with stat := .running } with hy
  have hyp : (y.threads n).priority < 32 := by simpa [hy] using hprio
  have hyc : y.cpu = ({ x.cpu with next := none, current := some n } : Cpu).set n
      { x.job n with stat := .running } := by
    rw [hy, cpu_updThread]
    unfold State.job
    rw [State.updThread_threads, Function.update_self]
    rfl
  have hyclock : y.clock = s.clock := hclock
  have hstart := cpu_startSlice cfg y n hyp
  have hjob : y.job n = y.cpu.jobs n := rfl
  rw [hyclock, hjob, hyc, Cpu.set_set, Cpu.set_jobs, Function.update_self] at hstart
  have hxjobs : x.job = x.cpu.jobs := rfl
  rw [he, hstart, hxjobs, hx]
  unfold Cpu.dispatch
  have hcur : (s.cpu.take n).current = s.current := rfl
  cases hc : s.current with
  | none =>
    rw [hc] at hcur
    simp only [hcur, Cpu.set_set, Cpu.set_jobs, Function.update_self]
    rfl
  | some t =>
    rw [hc] at hcur
    simp only [hcur, Cpu.set_set, Cpu.set_jobs, Function.update_self]
    rfl

end NerdRtos
