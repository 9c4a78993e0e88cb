import NerdRtos.Analysis.CpuView
import NerdRtos.Analysis.StepEffects

/-!
# The turns of the scheduler

Every step of the kernel is a turn for the scheduler (`exec_turn`): threads move between the lists
(`Cpu.Move`), and then `nd_scheduler` evaluates, or holds the evaluation back until the interrupt
ends (`Cpu.Schedules`). The requests to give way, the passing of time, the interrupts and the
deferred switches are turns of their own.
-/

set_option autoImplicit false

namespace NerdRtos

variable {cfg : Config} {d : Set Tid} {s x y : State} {a : Action} {t n : Tid} {k : QHead}

/-! ## Moves -/

namespace Job

/-- The thread becomes ready. The end of a delay reloads the slice. -/
def wake (reload : Bool) (j : Job) : Job :=
  { j with
    stat := .ready
    sliceLeft := if reload = true ∧ j.timeSlice ≠ 0 then j.timeSlice else j.sliceLeft
    sliceStart := if reload = true ∧ j.timeSlice ≠ 0 then 0 else j.sliceStart }

/-- The thread starts a delay. -/
def delay (j : Job) : Job :=
  { j with
    stat := .block
    sliceLeft := if j.timeSlice ≠ 0 then j.timeSlice else j.sliceLeft
    sliceStart := if j.timeSlice ≠ 0 then 0 else j.sliceStart
    deadline := if j.timeSlice ≠ 0 then none else j.deadline }

/-- A thread without slices only blocks. -/
theorem delay_of_zero {j : Job} (h : j.timeSlice = 0) : j.delay = { j with stat := .block } := by
  unfold delay
  simp [h]

/-- A new thread. -/
def create (b : CreateArgs) : Job where
  priority := b.priority
  stat := .ready
  yield := false
  timeSlice := b.timeSlice
  sliceLeft := b.timeSlice
  sliceStart := 0
  callback := .sliceTimeout
  deadline := none

/-- The slice of the thread ends beside other ready threads. -/
def expire (j : Job) : Job :=
  { j with yield := true, sliceLeft := 0, sliceStart := 0, deadline := none }

end Job

namespace Cpu

/-- What the step of action `a` can do with one thread before the scheduler is called. -/
inductive Move (a : Action) (c : Cpu) : Cpu → Prop
  | wakes {t : Tid} (reload : Bool) (hst : (c.jobs t).stat = .block)
      (hr : reload = true → 0 < c.nest) (hc : c.current = some t → c.pendsv = true ∨ 0 < c.nest) :
      Move a c ((c.set t ((c.jobs t).wake reload)).append t (c.jobs t).priority)
  | resumes {t : Tid} (ha : a.op? = some (.threadResume t)) (hst : (c.jobs t).stat = .suspend) :
      Move a c ((c.set t ((c.jobs t).wake false)).append t (c.jobs t).priority)
  | boosts {o : Tid} {p : ℕ} (ha : ∃ m n, a = .call (.wait (.mutexLock m n)))
      (hst : (c.jobs o).stat = .ready) (hp : p < (c.jobs o).priority) :
      Move a c (((c.take o).set o { c.jobs o with priority := p }).push o p)
  | reprio {o : Tid} {p : ℕ} (hst : (c.jobs o).stat ≠ .ready) (hp : p < 32)
      (ha : (∃ m n, a = .call (.wait (.mutexLock m n))) ∧ c.current ≠ some o ∧
        p < (c.jobs o).priority ∨
        (∃ m, a = .call (.mutexUnlock m)) ∧ c.current = some o) :
      Move a c (c.set o { c.jobs o with priority := p })
  | waits {t : Tid} (hc : c.current = some t) (hrun : (c.jobs t).stat = .running)
      (hn : c.nest = 0) :
      Move a c (c.set t { c.jobs t with stat := .block })
  | delays {t : Tid} (hc : c.current = some t) (hrun : (c.jobs t).stat = .running)
      (ha : ∃ n, a = .call (.threadDelay n)) (hn : c.nest = 0) :
      Move a c (c.set t (c.jobs t).delay)
  | suspends {t : Tid} (ha : a.op? = some (.threadSuspend t)) (hlive : (c.jobs t).stat.live) :
      Move a c ((c.take t).set t { c.jobs t with stat := .suspend })
  | ends {t : Tid} (ha : a.op? = some (.threadAbort (some t))) (hlive : (c.jobs t).stat.live) :
      Move a c ((c.take t).set t { c.jobs t with stat := .dead, deadline := none })

/-- The moves of a step, each made in order. -/
def Moves (a : Action) : Cpu → Cpu → Prop := Relation.ReflTransGen fun c c' => c.Ok ∧ Move a c c'

/-! ## Decisions -/

/-- An evaluation of `nd_schedule_pick_next` and what the port makes of it.
kernel/nd_scheduler.c:118-162 -/
inductive Decides (cfg : Config) (c : Cpu) : Cpu → Prop
  | idle (hc : c.current = none) : Decides cfg c c
  | stays {t : Tid} {c' : Cpu} (hc : c.current = some t) (h : c.Verdict t none c') :
      Decides cfg c c'
  | switches {t n : Tid} {x : Cpu} (hport : cfg.port = .sync) (hc : c.current = some t)
      (h : c.Verdict t (some n) x) : Decides cfg c (x.dispatch cfg n)
  | pends {t n : Tid} {x : Cpu} (hport : cfg.port = .deferred) (hc : c.current = some t)
      (h : c.Verdict t (some n) x) : Decides cfg c { x with next := some n, pendsv := true }

/-- What `nd_scheduler` does. -/
inductive Schedules (cfg : Config) (c : Cpu) : Cpu → Prop
  | holds (h : 0 < c.nest) : Schedules cfg c { c with trySwitch := true }
  | decides {c' : Cpu} (h : c.nest = 0) (hok : c.Ok) (hd : Decides cfg c c') : Schedules cfg c c'

end Cpu

/-- Actions that move threads and call `nd_scheduler`. -/
def Action.plain (s : State) : Action → Prop
  | .call o | .irq o => o ≠ .threadYield ∧ ∀ b, o ≠ .threadCreate b
  | .resume | .write _ _ _ => True
  | .timerFire => ∀ t, leftmostTimer s ≠ some (.slice t)
  | _ => False

/-- **What the scheduler sees of a step** of action `a` that starts in `s`. -/
inductive Turn (cfg : Config) (s : State) (a : Action) : Cpu → Prop
  | refused (ha : a.plain s) : Turn cfg s a s.cpu
  | rests {c : Cpu} (ha : a.plain s) (hr : ∀ t, a.op? ≠ some (.threadResume t))
      (hm : Cpu.Moves a s.cpu c) : Turn cfg s a c
  | schedules {c c' : Cpu} (ha : a.plain s) (hm : Cpu.Moves a s.cpu c) (h : c.Schedules cfg c') :
      Turn cfg s a c'
  | creates {t : Tid} {b : CreateArgs} {c : Cpu} (ha : a.op? = some (.threadCreate b))
      (ht : b.thread = some t) (hb : b.accepted)
      (hst : (s.threads t).stat = .init ∨ (s.threads t).stat = .dead) (hc : s.current ≠ some t)
      (h : ((s.cpu.set t (Job.create b)).append t b.priority).Schedules cfg c) : Turn cfg s a c
  | declines {b : CreateArgs} (ha : a.op? = some (.threadCreate b))
    (hb : b.accepted → b.thread = none) :
      Turn cfg s a s.cpu
  | yields {t : Tid} {c : Cpu} (ha : a = .call .threadYield) (hc : s.current = some t)
      (hrun : (s.threads t).stat = .running)
      (h : (s.cpu.set t { s.job t with yield := true }).Schedules cfg c) : Turn cfg s a c
  | expires {t : Tid} (ha : a = .timerFire) (hl : leftmostTimer s = some (.slice t))
      (hc : s.current = some t) (hcb : (s.job t).callback = .sliceTimeout)
      (hpeers : s.cpu.ready (s.job t).priority ≠ []) :
      Turn cfg s a { s.cpu.set t (s.job t).expire with trySwitch := true }
  | lapses {t : Tid} (ha : a = .timerFire) (hl : leftmostTimer s = some (.slice t))
      (hc : s.current = some t)
      (hwhy : (s.job t).callback ≠ .sliceTimeout ∨ s.cpu.ready (s.job t).priority = []) :
      Turn cfg s a (s.cpu.set t { s.job t with deadline := none })
  | ticks (k : ℕ) (ha : a = .advance k) :
      Turn cfg s a { s.cpu with clock := (s.clock + k) % u64Size }
  | enters (ha : a = .irqEnter) : Turn cfg s a { s.cpu with nest := s.nest + 1 }
  | exits (ha : a = .irqExit) (hn : 0 < s.nest) (h : s.trySwitch = false ∨ 1 < s.nest) :
      Turn cfg s a { s.cpu with nest := s.nest - 1 }
  | decides {c : Cpu} (ha : a = .irqExit) (hn : 0 < s.nest) (ht : s.trySwitch = true)
      (hone : cfg.port = .deferred → s.nest = 1)
      (hok : Cpu.Ok { s.cpu with nest := s.nest - 1, trySwitch := false })
      (h : Cpu.Decides cfg { s.cpu with nest := s.nest - 1, trySwitch := false } c) : Turn cfg s a c
  | switches {n : Tid} (ha : a = .pendsv) (hn : s.next = some n) (hr : (s.job n).stat = .ready) :
      Turn cfg s a (Cpu.dispatch cfg n { s.cpu with pendsv := false })
  | starts {n : Tid} (ha : a = .start) (hc : s.current = none) (hn : s.cpu.First n) :
      Turn cfg s a (s.cpu.dispatch cfg n)

/-- Nothing is moved. -/
theorem Cpu.Moves.refl {c : Cpu} : Cpu.Moves a c c := Relation.ReflTransGen.refl

/-- Two moves of one action, one after the other. -/
theorem Cpu.Moves.trans {c₁ c₂ c₃ : Cpu} (h : Cpu.Moves a c₁ c₂) (h' : Cpu.Moves a c₂ c₃) :
    Cpu.Moves a c₁ c₃ :=
  Relation.ReflTransGen.trans h h'

/-- A move changes jobs and ready lists. -/
theorem Cpu.Moves.frame {c c' : Cpu} (h : Cpu.Moves a c c') :
    c' = { c with jobs := c'.jobs, ready := c'.ready } := by
  induction h with
  | refl => rfl
  | @tail x y _ hm ih =>
    have hstep : y = { x with jobs := y.jobs, ready := y.ready } := by
      obtain ⟨-, hm⟩ := hm
      cases hm <;> rfl
    exact hstep.trans (congrArg (fun z : Cpu => { z with jobs := y.jobs, ready := y.ready }) ih)

/-- What an invariant of the jobs and the ready lists needs: every move keeps it. -/
theorem Cpu.Moves.induction {c c' : Cpu} {I : Cpu → Prop} (h : Cpu.Moves a c c') (hc : I c)
    (hI : ∀ x y, x.Ok → x = { c with jobs := x.jobs, ready := x.ready } → I x → Cpu.Move a x y →
      I y) : I c' := by
  induction h with
  | refl => exact hc
  | tail hx hm ih => exact hI _ _ hm.1 (Cpu.Moves.frame hx) ih hm.2

/-- One move from a consistent state. -/
theorem ConsistentBut.moves (hJ : ConsistentBut d s) {c : Cpu} (h : Cpu.Move a s.cpu c) :
    Cpu.Moves a s.cpu c :=
  Relation.ReflTransGen.single ⟨hJ.cpu_ok, h⟩

/-! ## Evaluations -/

/-- Before the first thread runs there is nothing to switch. -/
theorem ndScheduleCore_idle (cfg : Config) (hc : s.current = none) :
    (ndScheduleCore cfg s).cpu = s.cpu := by
  unfold ndScheduleCore
  rw [ndSchedulePickNext_none hc]

/-- The switch overwrites the successor that was chosen. -/
theorem Cpu.dispatch_next (cfg : Config) (n : Tid) (c : Cpu) (m : Option Tid) :
    Cpu.dispatch cfg n { c with next := m } = c.dispatch cfg n := by
  obtain ⟨jobs, ready, current⟩ := c
  cases current <;> rfl

/-- `nd_schedule_core`.
kernel/nd_scheduler.c:151-162 -/
theorem ConsistentBut.cpu_decides (hJ : ConsistentBut d s) (cfg : Config) :
    s.cpu.Decides cfg (ndScheduleCore cfg s).cpu := by
  cases hc : s.current with
  | none =>
    rw [ndScheduleCore_idle cfg hc]
    exact .idle hc
  | some t =>
    have hv := hJ.verdict hc
    unfold ndScheduleCore
    rcases ndSchedulePickNext_spec hJ hc with ⟨ps, h, -, -, -⟩ | ⟨n, x, h, hP⟩
    · rw [h] at hv ⊢
      exact .stays hc hv
    · rw [h] at hv ⊢
      simp only [ndHwDoSwitch]
      cases hport : cfg.port with
      | sync =>
        simp only
        have hsame : State.cpu { x with next := some n } = { x.cpu with next := some n } := rfl
        rw [(hP.consistent.setNext hP.ready).cpu_dispatch cfg hP.ready, hsame, Cpu.dispatch_next]
        exact .switches hport hc hv
      | deferred => exact .pends hport hc hv

/-- `nd_scheduler`.
kernel/nd_scheduler.c:227-235 -/
theorem ConsistentBut.cpu_schedules (hJ : ConsistentBut d s) (cfg : Config) :
    s.cpu.Schedules cfg (ndScheduler cfg s).cpu := by
  unfold ndScheduler
  by_cases hn : 0 < s.nest
  · rw [if_pos hn]
    exact .holds hn
  · rw [if_neg hn]
    exact .decides (Nat.eq_zero_of_not_pos hn) hJ.cpu_ok (hJ.cpu_decides cfg)

/-- The end of an interrupt.
kernel/nd_scheduler.c:151-177, 267-288 -/
theorem Sound.irqExit_turn (hS : Sound cfg s) (hn : 0 < s.nest) :
    Turn cfg s .irqExit (NerdRtos.irqExit cfg s).cpu := by
  have hJ : Consistent { ndExitInterrupt s with trySwitch := false } := hS.consistent.of_core rfl
  have hc : s.current ≠ none := fun h => by
    have := (hS.settled.main h).1
    omega
  obtain ⟨t, hcc⟩ := Option.ne_none_iff_exists'.mp hc
  unfold NerdRtos.irqExit
  cases hport : cfg.port with
  | sync =>
    simp only
    unfold ndScheduleIrqExit
    by_cases ht : (ndExitInterrupt s).trySwitch = true
    · have hv := hJ.verdict (t := t) hcc
      rw [if_pos ht]
      refine .decides rfl hn ht (fun h => by rw [hport] at h; cases h) hJ.cpu_ok ?_
      rcases ndSchedulePickNext_spec hJ (c := t) hcc with ⟨ps, h, -, -, -⟩ | ⟨n, x, h, hP⟩
      · rw [h] at hv ⊢
        exact .stays hcc hv
      · rw [h] at hv ⊢
        simp only
        rw [hP.consistent.cpu_dispatch cfg hP.ready]
        exact .switches hport hcc hv
    · rw [if_neg ht]
      exact .exits rfl hn (.inl (Bool.eq_false_iff.mpr ht))
  | deferred =>
    simp only
    unfold ndTrySchedule
    by_cases hnest : 0 < (ndExitInterrupt s).nest
    · rw [if_pos hnest]
      have hmany : 0 < s.nest - 1 := hnest
      exact .exits rfl hn (.inr (by omega))
    · rw [if_neg hnest]
      by_cases ht : (ndExitInterrupt s).trySwitch = true
      · have hone : ¬ 0 < s.nest - 1 := hnest
        rw [if_pos ht]
        exact .decides rfl hn ht (fun _ => by omega) hJ.cpu_ok (hJ.cpu_decides cfg)
      · rw [if_neg ht]
        exact .exits rfl hn (.inl (Bool.eq_false_iff.mpr ht))

/-- The PendSV handler. -/
theorem Sound.pendsv_turn (hS : Sound cfg s) (hp : s.pendsv = true)
    (hf : (isrPendsv cfg s).fault = false) : Turn cfg s .pendsv (isrPendsv cfg s).cpu := by
  have hJ := hS.consistent
  obtain ⟨n, hn⟩ := Option.ne_none_iff_exists'.mp (hJ.books.pending hp)
  have hoff : ∀ t, (s.threads t).stat ≠ .running := fun t ht => by
    rw [((hJ.ok t).running ht).2] at hp
    cases hp
  have hJ₁ : Consistent { s with pendsv := false } :=
    ⟨fun t => { hJ.ok t with running := fun hr => absurd hr (hoff t) },
      { hJ.books with pending := fun h => by cases h }⟩
  have hisr : isrPendsv cfg s = ndContextSwitchCb cfg (some n) { s with pendsv := false } := by
    show ndContextSwitchCb cfg s.next { s with pendsv := false } = _
    rw [hn]
  have hr : (s.threads n).stat = .ready := by
    by_contra hr
    have hfree : s.queues.home n = none := by
      refine hJ.home_none hr fun hb => ?_
      rcases (hJ.ok n).next hn with h | h | h <;> rw [hb] at h <;> cases h
    rw [hisr, fault_ndContextSwitchCb (s := { s with pendsv := false }) (hJ.ok n).prio hfree] at hf
    cases hf
  rw [hisr, hJ₁.cpu_dispatch cfg hr]
  exact .switches rfl hn hr

/-- `nd_scheduler_start`. -/
theorem Sound.start_turn (hS : Sound cfg s) (hc : s.current = none) :
    Turn cfg s .start (ndHwDoSwitchFirst cfg s).cpu := by
  have hJ := hS.consistent
  rcases hJ.first with ⟨-, hall⟩ | ⟨n, h, hn⟩
  · -- the idle thread is ready, as no thread is running
    exfalso
    rcases ((hJ.ok idleTid).idle rfl).1 with hr | hr
    · have hmem := (hJ.cpu_ok.mem idleTid (s.threads idleTid).priority).mpr ⟨hr, rfl⟩
      rw [hall _ (hJ.ok idleTid).prio] at hmem
      cases hmem
    · have hcur := ((hJ.ok idleTid).running hr).1
      rw [hc] at hcur
      cases hcur
  · have hr : (s.threads n).stat = .ready :=
      ((hJ.cpu_ok.mem n _).mp (List.mem_of_head? hn.head)).1
    unfold ndHwDoSwitchFirst
    rw [h, hJ.cpu_dispatch cfg hr]
    exact .starts rfl hc hn

/-! ## Threads -/

namespace Cpu

/-- Moves, and at the end a call of `nd_scheduler` or none. -/
inductive Works (cfg : Config) (a : Action) (c : Cpu) : Cpu → Prop
  | rests {c' : Cpu} (hm : Moves a c c') : Works cfg a c c'
  | schedules {x c' : Cpu} (hm : Moves a c x) (h : x.Schedules cfg c') : Works cfg a c c'

/-- Nothing is done. -/
theorem Works.refl {c : Cpu} : Works cfg a c c := .rests .refl

/-- The moves come before the scheduler. -/
theorem Works.after {c₁ c₂ c₃ : Cpu} (h : Works cfg a c₂ c₃) (hm : Moves a c₁ c₂) :
    Works cfg a c₁ c₃ := by
  cases h with
  | rests h => exact .rests (hm.trans h)
  | schedules h hs => exact .schedules (hm.trans h) hs

end Cpu

/-- A thread that is not ready goes to the tail of its ready list. -/
theorem ConsistentBut.cpu_woken (hJ : ConsistentBut d s) (hst : (s.threads t).stat ≠ .ready)
    {f : Thread → Thread} {reload : Bool} (hjob : (s.parked t f).job t = (s.job t).wake reload) :
    (s.readied t (fun _ => false) f).cpu =
      (s.cpu.set t ((s.job t).wake reload)).append t (s.job t).priority := by
  have hprio : (f (s.threads t)).priority = (s.job t).priority := by
    have h : ((s.parked t f).job t).priority = (f (s.threads t)).priority := by simp [State.job]
    rw [← h, hjob]
    rfl
  rw [cpu_readied_tail, hJ.cpu_ok.take_eq hst, hjob, hprio]

/-- A blocked thread is the current one only while a switch is pending or requested. -/
theorem Sound.current_of_block (hS : Sound cfg s) (hst : (s.threads t).stat = .block)
    (hc : s.current = some t) :
    s.pendsv = true ∨ 0 < s.nest := by
  by_contra hno
  rw [not_or, Bool.not_eq_true, Nat.not_lt, Nat.le_zero] at hno
  have hrun := hS.settled.runs t hc hno.1 (hS.settled.flag hno.2)
  rw [hst] at hrun
  cases hrun

/-- The same after moves that blocked no thread. -/
theorem Sound.current_of_block_after (hS : Sound cfg s) (hy : Cpu.Moves a s.cpu y.cpu)
    (hold : ∀ u, (y.threads u).stat = .block → (s.threads u).stat = .block)
    (hst : (y.threads t).stat = .block) (hc : y.current = some t) : y.pendsv = true ∨
      0 < y.nest := by
  have hframe := Cpu.Moves.frame hy
  have hcurrent : y.current = s.current := congrArg Cpu.current hframe
  have hpend : y.pendsv = s.pendsv := congrArg Cpu.pendsv hframe
  have hnest : y.nest = s.nest := congrArg Cpu.nest hframe
  rw [hpend, hnest]
  exact hS.current_of_block (hold t hst) (hcurrent.symm.trans hc)

/-- A blocked thread becomes ready. -/
theorem ConsistentBut.wakes (hJ : ConsistentBut d s) (hst : (s.threads t).stat = .block)
    {f : Thread → Thread} (reload : Bool) (hr : reload = true → 0 < s.nest)
    (hc : s.current = some t → s.pendsv = true ∨ 0 < s.nest)
    (hjob : (s.parked t f).job t = (s.job t).wake reload) :
    Cpu.Moves a s.cpu (s.readied t (fun _ => false) f).cpu := by
  rw [hJ.cpu_woken (by rw [hst]; decide) hjob]
  exact hJ.moves (.wakes reload hst hr hc)

/-- A thread that is woken is ready, with the slice that it had. -/
theorem job_wake (s : State) (t : Tid) {f : Thread → Thread}
    (hf : ∀ th, ∃ e, f th = { th with stat := .ready, error := e }) :
    (s.parked t f).job t = (s.job t).wake false := by
  obtain ⟨e, he⟩ := hf (s.threads t)
  unfold State.job
  rw [State.parked_threads, Function.update_self, he]
  rfl

/-- A thread whose delay ends is ready, with a full slice. -/
theorem job_delayEnd (s : State) (t : Tid) :
    (s.parked t delayEdit).job t = (s.job t).wake true := by
  have he : delayEdit (s.threads t) =
      { s.threads t with
        stat := .ready
        sliceLeft := if true = true ∧ (s.threads t).timeSlice ≠ 0 then (s.threads t).timeSlice
          else (s.threads t).sliceLeft
        sliceStart := if true = true ∧ (s.threads t).timeSlice ≠ 0 then 0
          else (s.threads t).sliceStart } := by
    unfold delayEdit
    by_cases h : (s.threads t).timeSlice = 0 <;> simp [h]
  unfold State.job
  rw [State.parked_threads, Function.update_self, he]
  rfl

/-- `nd_thread_resume`. -/
theorem Sound.resume_turn (hS : Sound cfg s) (ha : a.op? = some (.threadResume t))
    (hp : a.plain s) :
    Turn cfg s a (ndThreadResume cfg t s).1.cpu := by
  by_cases hst : (s.threads t).stat = .suspend
  · have hJ := hS.consistent.readied_of (f := fun th => { th with stat := .ready })
      (.inr hst) rfl rfl
      rfl rfl rfl
    have hm : Cpu.Moves a s.cpu (s.readied t (fun _ => false) fun th =>
        { th with stat := .ready }).cpu := by
      rw [hS.consistent.cpu_woken (by rw [hst]; decide) (job_wake s t fun th => ⟨th.error, rfl⟩)]
      exact hS.consistent.moves (.resumes ha hst)
    rw [ndThreadResume_eq hS.consistent hst]
    exact .schedules hp hm (hJ.cpu_schedules cfg)
  · rw [ndThreadResume_refused hst]
    exact .refused hp

/-- A thread that stops changes its state only. -/
theorem job_stop (s : State) (t : Tid) {f : Thread → Thread} {st : Stat}
    (hf : ∀ th, f th = { th with stat := st }) :
    (s.parked t f).job t = { s.job t with stat := st } := by
  unfold State.job
  rw [State.parked_threads, Function.update_self, hf]
  rfl

/-- `nd_thread_suspend`. -/
theorem Sound.suspend_works (hS : Sound cfg s) (ha : a.op? = some (.threadSuspend t))
    (hv : (Op.threadSuspend t).valid s = true) :
      s.cpu.Works cfg a (ndThreadSuspend cfg t s).1.cpu := by
  have hJ := hS.consistent
  have hne : t ≠ idleTid := by
    simp only [Op.valid, Bool.and_eq_true, decide_eq_true_eq] at hv
    exact hv.2
  have hmoves : (s.threads t).stat.live → Cpu.Moves a s.cpu (s.parked t suspendEdit).cpu := by
    intro hlive
    have hjob : (s.parked t suspendEdit).job t = { s.job t with stat := .suspend } :=
      job_stop s t fun _ => rfl
    rw [cpu_parked, hjob]
    exact hJ.moves (.suspends ha hlive)
  rcases ndThreadSuspend_cases hJ cfg t with he | ⟨-, hr, he⟩ | ⟨-, hb, he⟩
  · rw [he]
    exact .refl
  · rw [he]
    exact .rests (hmoves (live_of_ready hr))
  · have hlive := live_of_stops hb
    rw [he]
    exact .schedules (hmoves hlive) ((hJ.suspended hlive hne).cpu_schedules cfg)

/-- A thread that ends is taken off its list and is dead. -/
theorem cpu_ended (s : State) (t : Tid) :
    (s.ended t).cpu = (s.cpu.take t).set t { s.job t with stat := .dead, deadline := none } := by
  have hcpu : (s.ended t).cpu = (ndTimerStop (.slice t) (s.parked t endEdit)).cpu := by
    unfold State.cpu
    rfl
  have hjob : (s.parked t endEdit).job t = { s.job t with stat := .dead } :=
    job_stop s t fun _ => rfl
  rw [hcpu, cpu_stopSlice, cpu_parked, Cpu.set_set, hjob]

/-- A thread ends and its joiners are woken.
kernel/nd_thread.c:180-213 -/
theorem Sound.halt_moves (hS : Sound cfg s) (ha : a.op? = some (.threadAbort (some t)))
    (hlive : (s.threads t).stat.live) (hne : t ≠ idleTid) :
    Cpu.Moves a s.cpu (wakeJoiners t (s.ended t)).cpu := by
  have hJ := hS.consistent
  have hended : Cpu.Moves a s.cpu (s.ended t).cpu := by
    rw [cpu_ended]
    exact hJ.moves (.ends ha hlive)
  obtain ⟨-, ⟨hm, -⟩, -⟩ := wakeAll_spec (h := .join t) rfl
    (fun y => Cpu.Moves a s.cpu y.cpu ∧ ∀ u, (y.threads u).stat = .block →
      (s.threads u).stat = .block)
    (fun y j hJy ⟨hy, hold⟩ hj => by
      have hst := hJy.block_of_home (h := .join t) rfl hj
      refine ⟨hy.trans (hJy.wakes hst false (by simp) (hS.current_of_block_after hy hold hst)
        (job_wake y j fun th => ⟨.eok, rfl⟩)), fun u hu => ?_⟩
      by_cases huj : u = j
      · rw [huj] at hu
        simp [wakeEdit] at hu
      · exact hold u (by simpa [huj] using hu))
    (((s.ended t).queues.lists (.join t)).length) (s.ended t) (hJ.ended hne)
    ⟨hended, fun u hu => by
      by_cases hut : u = t
      · rw [hut] at hu
        simp [endEdit] at hu
      · simpa [hut] using hu⟩ le_rfl
  exact hm

/-- `nd_thread_abort`. -/
theorem Sound.abort_works (hS : Sound cfg s) {v : Option Tid} (ha : a.op? = some (.threadAbort v))
    (hv : (Op.threadAbort v).valid s = true) : s.cpu.Works cfg a (ndThreadAbort cfg v s).1.cpu := by
  rcases hS.abort_cases hv with he | ⟨t, rfl, hlive, -, hne, he⟩
  · rw [he]
    exact .refl
  have hm := hS.halt_moves ha hlive hne
  rw [he]
  split
  · exact .schedules hm ((hS.consistent.halted hne).1.cpu_schedules cfg)
  · exact .rests hm

/-- A thread that is created has a new job and is on no list. -/
theorem cpu_created {b : CreateArgs} (hu : s.inUse t = false) :
    (s.created t b).cpu = s.cpu.set t (Job.create b) := by
  have hslice : s.isArmed (.slice t) = false := by
    simp only [State.inUse, Bool.or_eq_false_iff] at hu
    exact hu.2
  rw [created_eq hu]
  unfold State.cpu Cpu.set
  congr 1
  funext u
  by_cases h : u = t
  · subst h
    have ha : s.tree.home (.slice u) = none := by simpa [State.isArmed] using hslice
    simp [State.job, State.isArmed, Job.create, createEdit, ha]
  · show State.job _ u = _
    rw [Function.update_of_ne h]
    have hne : TimerId.slice u ≠ .slice t := fun hs => h (TimerId.slice.inj hs)
    unfold State.job
    simp [h]
    rfl

/-- A new thread comes to its ready list, and the scheduler runs. -/
theorem Creation.schedules {b : CreateArgs} (h : Creation s b t) (cfg : Config) :
    ((s.cpu.set t (Job.create b)).append t b.priority).Schedules cfg
      (ndScheduler cfg (ndThreadReadyAddTail t (s.created t b))).cpu := by
  have hp : b.priority < 32 := h.accepted.2.2.2.2
  have hfree : (s.created t b).queues.home t = none := by
    rw [created_eq h.unused]
    exact h.loose.free
  have hth : ((s.created t b).threads t).priority = b.priority := by
    rw [created_eq h.unused]
    simp [createEdit]
  have hcpu : (ndThreadReadyAddTail t (s.created t b)).cpu =
      (s.cpu.set t (Job.create b)).append t b.priority := by
    rw [readyAddTail_eq (by rw [hth]; exact hp), hth, ← cpu_created h.unused]
    exact cpu_listInsert_tail hfree
  rw [← hcpu]
  exact (h.loose.create h.unused h.accepted fun hi => absurd hi h.ne_idle).cpu_schedules cfg

/-- `nd_thread_create`. -/
theorem Sound.create_turn (hS : Sound cfg s) {b : CreateArgs} (ha : a.op? = some (.threadCreate b))
    (hv : (Op.threadCreate b).valid s = true) : Turn cfg s a (ndThreadCreate cfg b s).1.cpu := by
  rcases hS.create_cases hv with ⟨hb, he⟩ | ⟨t, hcr, he⟩
  · rw [he]
    exact .declines ha hb
  · rw [he]
    exact .creates ha hcr.thread hcr.accepted hcr.stat hcr.offCpu (hcr.schedules cfg)

/-! ## Objects -/

/-- The first waiter becomes ready. -/
theorem ConsistentBut.wakes_waiter (hJ : ConsistentBut d s) (hw : k.isWait = true)
    (hq : s.queues.home t = some k) (hc : s.current = some t → s.pendsv = true ∨ 0 < s.nest)
    {f : Thread → Thread} (hf : ∀ th, ∃ e, f th = { th with stat := .ready, error := e }) :
    Cpu.Moves a s.cpu (s.readied t (fun _ => false) f).cpu :=
  hJ.wakes (hJ.block_of_home hw hq) false (by simp) hc (job_wake s t hf)

/-- The end of a queue operation and of `nd_mempool_free`. -/
theorem Sound.wakeupIfAny_works (hS : Sound cfg s) (hw : k.isWait = true) :
    s.cpu.Works cfg a (wakeupIfAny cfg k s).cpu := by
  rcases wakeupIfAny_cases hS.consistent cfg hw with ⟨-, he⟩ | ⟨t, -, hq, hst, hJ, he⟩
  · rw [he]
    exact .refl
  · have hcur := hS.current_of_block hst
    rw [he]
    exact .schedules (hS.consistent.wakes_waiter hw hq hcur fun th => ⟨.eok, rfl⟩)
      (hJ.cpu_schedules cfg)

/-- `nd_sem_release`. -/
theorem Sound.release_works (hS : Sound cfg s) (i : ℕ) :
    s.cpu.Works cfg a (ndSemRelease cfg i s).1.cpu := by
  have hJ : Consistent (s.emit (.semReleased i)) := hS.consistent.of_core rfl
  rcases ndSemRelease_cases hS.consistent cfg i with ⟨-, he⟩ | ⟨t, -, hq, hst, hJ', he⟩
  · rw [he]
    exact .refl
  · have hcur := hS.current_of_block hst
    rw [he]
    exact .schedules (hJ.wakes_waiter (k := .sem i) rfl hq hcur fun th => ⟨.eok, rfl⟩)
      (hJ'.cpu_schedules cfg)

/-- `nd_mempool_free`. -/
theorem Sound.free_works (hS : Sound cfg s) {p ptr : ℕ}
    (hf : (ndMempoolFree cfg p ptr s).fault = false) :
    s.cpu.Works cfg a (ndMempoolFree cfg p ptr s).cpu := by
  have hS' : Sound cfg (s.put p ptr) := (Kept.of_bare (C := True) (y := s.put p ptr) hS rfl).sound
  rw [ndMempoolFree_eq hf]
  exact hS'.wakeupIfAny_works (k := .pool p) rfl

/-- One turn of the loop of `nd_event_send`. -/
theorem eventVisit_moves (hJ : Consistent s) {e : ℕ} (hq : s.queues.home t = some (.event e))
    (hc : s.current = some t → s.pendsv = true ∨ 0 < s.nest) :
    Cpu.Moves a s.cpu (eventVisit e s t).cpu := by
  unfold eventVisit
  split
  · set s₁ := s.updEvent e fun g =>
      { g with set := clearBits g.set (s.threads t).eventSet } with hs₁
    set s₂ := s₁.emit (.eventHanded t e (s.threads t).eventSet (s.events e).set (s₁.events e).set)
    have hJ₂ : Consistent s₂ := ConsistentBut.of_core (d := ∅) hJ rfl
    simp only
    rw [ndEventWakeup_eq hJ₂ (h := .event e) rfl hq]
    exact hJ₂.wakes_waiter (k := .event e) rfl hq hc fun th => ⟨th.error, rfl⟩
  · exact .refl

/-- `nd_event_send`. -/
theorem Sound.eventSend_works (hS : Sound cfg s) (e : ℕ) (set : BitVec 32) :
    s.cpu.Works cfg a (ndEventSend cfg e set s).1.cpu := by
  have hJ₁ : Consistent (s.posted e set) := hS.consistent.of_core rfl
  obtain ⟨hJ, hm, -⟩ := eventFold_spec (e := e)
    (fun x => Cpu.Moves a s.cpu x.cpu ∧ ∀ u, (x.threads u).stat = .block →
      (s.threads u).stat = .block)
    (fun x t hJx ⟨hx, hold⟩ hq => by
      have hst := hJx.block_of_home (h := .event e) rfl hq
      refine ⟨hx.trans (eventVisit_moves hJx hq (hS.current_of_block_after hx hold hst)),
        fun u hu => ?_⟩
      obtain ⟨x₁, hbare, hv⟩ := eventVisit_eq hJx hq
      have hth : x₁.threads = x.threads := (congrArg State.threads hbare :)
      rcases hv with h | h
      · exact hold u (h ▸ hu)
      · rw [h] at hu
        by_cases hut : u = t
        · rw [hut] at hu
          simp at hu
        · exact hold u (by simpa [hut, hth] using hu))
    (s.queues.lists (.event e)) (s.posted e set) hJ₁ ⟨.refl, fun _ h => h⟩ (s.queues.nodup _)
    fun t ht => (s.queues.mem_iff _ _).mp ht
  exact .schedules hm (hJ.cpu_schedules cfg)

/-! ## Timers that are not of a slice -/

/-- What touches no timer of a slice and nothing but timers. -/
theorem cpu_of_untimed (h : y.untimed = x.untimed)
    (ht : ∀ u, y.timers (.slice u) = x.timers (.slice u))
    (ha : ∀ u, y.tree.home (.slice u) = x.tree.home (.slice u)) : y.cpu = x.cpu := by
  have hjob : y.job = x.job := by
    funext u
    have hth : y.threads = x.threads := (congrArg State.threads h :)
    unfold State.job State.isArmed
    rw [hth, ht, ha]
  calc y.cpu = { y.untimed.cpu with jobs := y.job } := rfl
    _ = { x.untimed.cpu with jobs := x.job } := by rw [h, hjob]
    _ = x.cpu := rfl

/-- The timers of waits and of the application are no part of the processor. -/
theorem cpu_timerStart (cfg : Config) (s : State) {u : TimerId} (hu : ∀ v, u ≠ .slice v) :
    (ndTimerStart cfg u s).1.cpu = s.cpu := by
  by_cases h : (s.timers u).callback = .none
  · rw [timerStart_refused cfg h]
  · rw [timerStart_eq cfg h]
    refine cpu_of_untimed rfl (fun v => ?_) fun v => ?_
    · simp [State.rearm, (hu v).symm]
    · rw [home_rearm, if_neg (hu v).symm]

/-- Taking out a timer of a wait or of the application does not touch the processor. -/
theorem cpu_timerRemove (s : State) {u : TimerId} (hu : ∀ v, u ≠ .slice v) :
    (timerRemove u s).cpu = s.cpu :=
  cpu_of_untimed rfl (fun _ => rfl) fun v => by simp [(hu v).symm]

/-- Writing to a timer of a wait or of the application does not touch the processor. -/
theorem cpu_updTimer (s : State) {u : TimerId} (hu : ∀ v, u ≠ .slice v) (f : Timer → Timer) :
    (s.updTimer u f).cpu = s.cpu :=
  cpu_of_untimed rfl (fun v => by simp [(hu v).symm]) fun _ => rfl

/-- Initialising an application timer does not touch the processor. -/
theorem cpu_ndTimerInit (s : State) (u : ℕ) (periodic : Bool) (timeout : ℕ) (callback : Callback) :
    (ndTimerInit u periodic timeout callback s).1.cpu = s.cpu := by
  have huser : ∀ v, TimerId.user u ≠ .slice v := fun v h => by cases h
  have hupd := cpu_updTimer s huser
    fun tm => { tm with periodic := periodic, timeout := timeout, callback := callback }
  unfold ndTimerInit
  simp only
  split
  · rfl
  split
  · rfl
  split
  · exact hupd
  · exact hupd

/-! ## The current thread -/

/-- `nd_thread_pend`. -/
theorem cpu_pend (cfg : Config) (hc : s.current = some t) (hk : k.isWait = true) (n : ℕ) :
    (ndThreadPend cfg k n s).cpu = s.cpu.set t { s.job t with stat := .block } := by
  have hwait : ∀ v, TimerId.wait t ≠ .slice v := fun v h => by cases h
  have hjoined : ∀ x : State, (x.waiting t k).cpu = x.cpu.set t
      { x.job t with stat := .block } := by
    intro x
    unfold State.waiting
    rw [cpu_listInsert_wait _ _ hk, cpu_updThread]
    unfold State.job
    rw [State.updThread_threads, Function.update_self]
    rfl
  rw [ndThreadPend_eq hc]
  unfold startWaitTimer
  split
  · rw [cpu_timerStart cfg _ hwait, cpu_updTimer _ hwait, hjoined]
    rfl
  · rw [hjoined]
    rfl

/-- `nd_thread_delay`. -/
theorem cpu_delayed (cfg : Config) (s : State) (t : Tid) (n : ℕ) :
    (s.delayed cfg t n).cpu = s.cpu.set t (s.job t).delay := by
  have hwait : ∀ v, TimerId.wait t ≠ .slice v := fun v h => by cases h
  unfold State.delayed
  simp only
  rw [cpu_timerStart cfg _ hwait, cpu_updTimer _ hwait, cpu_updThread]
  by_cases hts : (s.threads t).timeSlice = 0
  · have hjob : ((s.updThread t fun th => { th with stat := .block }).job t) = (s.job t).delay := by
      have hzero : (s.job t).timeSlice = 0 := hts
      rw [Job.delay_of_zero hzero]
      unfold State.job
      rw [State.updThread_threads, Function.update_self]
      rfl
    rw [if_neg (not_not.mpr hts), hjob]
  · have hjob : ((((ndTimerStop (.slice t) s).updThread t fun th =>
        { th with sliceLeft := th.timeSlice, sliceStart := 0 }).updThread t fun th =>
          { th with stat := .block }).job t) = (s.job t).delay := by
      simp [State.job, Job.delay, State.isArmed, ndTimerStop, hts]
    rw [if_pos hts, cpu_updThread, cpu_stopSlice, Cpu.set_set, Cpu.set_set, hjob]

/-- A running thread waits. -/
theorem Sound.pend_works (hS : Sound cfg s) (h : threadMode s = some t) (hk : k.isWait = true)
    (hjoin : ∀ u, k = .join u → (s.threads u).stat.live) (n : ℕ) :
    s.cpu.Works cfg a (ndScheduler cfg (ndThreadPend cfg k n s)).cpu := by
  obtain ⟨hn, -, hc, hne⟩ := threadMode_eq h
  have hJ := hS.consistent.pend hc (hS.runs h) hne hk hjoin cfg n
  have hm : Cpu.Moves a s.cpu (ndThreadPend cfg k n s).cpu := by
    rw [cpu_pend cfg hc hk]
    exact hS.consistent.moves (.waits hc (hS.runs h) hn)
  exact .schedules hm (hJ.cpu_schedules cfg)

/-! ## Mutexes -/

/-- A new priority is all that changes of the job. -/
theorem job_withPriority (s : State) (t : Tid) (p : ℕ) :
    (s.parked t (Thread.withPriority p)).job t = { s.job t with priority := p } := by
  unfold State.job
  rw [State.parked_threads, Function.update_self]
  rfl

/-- The boost of the owner.
kernel/nd_mutex.c:89-92 -/
theorem boostOwner_moves (hJ : Consistent s) (ha : ∃ m n, a = .call (.wait (.mutexLock m n)))
    {m : Mid} {o c : Tid} (hc : s.current = some c) (hoc : o ≠ c) :
    Cpu.Moves a s.cpu (boostOwner m o c s).cpu := by
  unfold boostOwner
  by_cases hlt : (s.threads c).priority < (s.threads o).priority
  · simp only [if_pos hlt]
    set s₁ := s.updMutex m fun mx => { mx with priority := (s.threads c).priority } with hs₁
    have hJ₁ : Consistent s₁ := hJ.of_core rfl
    have hcpu : s₁.cpu = s.cpu := rfl
    have hne : s.current ≠ some o := by
      rw [hc]
      exact fun h => hoc (Option.some.inj h).symm
    rw [← hcpu]
    by_cases hr : (s₁.threads o).stat = .ready
    · have hp : (Thread.withPriority (s.threads c).priority (s₁.threads o)).priority =
          (s.threads c).priority := rfl
      rw [ndThreadChangePriority_ready hJ₁ hr (hJ.ok c).prio, cpu_readied_head, job_withPriority,
        hp]
      exact hJ₁.moves (.boosts ha hr hlt)
    · have hjob : (s₁.updThread o (Thread.withPriority (s.threads c).priority)).job o =
          { s₁.job o with priority := (s.threads c).priority } := by
        unfold State.job
        rw [State.updThread_threads, Function.update_self]
        rfl
      rw [ndThreadChangePriority_other hr, cpu_updThread, hjob]
      exact hJ₁.moves (.reprio hr (hJ.ok c).prio (.inl ⟨ha, hne, hlt⟩))
  · rw [if_neg hlt]
    exact .refl

/-- Giving up a mutex restores the priority of the owner. -/
theorem cpu_released (s : State) (m : Mid) (c : Tid) :
    (s.released m c).cpu = s.cpu.set c { s.job c with priority := restoredPriority s c m } := by
  have hcpu : (s.released m c).cpu =
      (s.updThread c (Thread.withPriority (restoredPriority s c m))).cpu := rfl
  have hjob : (s.updThread c (Thread.withPriority (restoredPriority s c m))).job c =
      { s.job c with priority := restoredPriority s c m } := by
    unfold State.job
    rw [State.updThread_threads, Function.update_self]
    rfl
  rw [hcpu, cpu_updThread, hjob]

/-- `nd_mutex_unlock`. -/
theorem Sound.unlock_works (hS : Sound cfg s) {m : Mid} (ha : a = .call (.mutexUnlock m))
    (hc : threadMode s = some t) : s.cpu.Works cfg a (ndMutexUnlock cfg m s).1.cpu := by
  have hcur := (threadMode_eq hc).2.2.1
  by_cases ho : (s.mutexes m).owner = some t
  · have hr : (s.threads t).stat ≠ .ready := by rw [hS.runs hc]; decide
    have hm : Cpu.Moves a s.cpu (s.released m t).cpu := by
      rw [cpu_released]
      exact hS.consistent.moves (.reprio hr (hS.restored_lt t m) (.inr ⟨⟨m, ha⟩, hcur⟩))
    cases hl : s.queues.lists (.mutex m) with
    | nil =>
      rw [ndMutexUnlock_free hS.consistent hS.owned hcur ho hl]
      exact .rests hm
    | cons w ws =>
      have hh : (s.queues.lists (.mutex m)).head? = some w := by rw [hl]; rfl
      have hJ₁ := hS.released hr m
      have hq : (s.released m t).queues.home w = some (.mutex m) := s.queues.home_of_head hh
      have hJ₂ := hJ₁.readied_of (f := wakeEdit)
        (.inl (hJ₁.block_of_home (h := .mutex m) rfl hq)) rfl rfl rfl rfl rfl
      have hfree : ((s.released m t).readied w (fun _ => false) wakeEdit).taken.home m = none := by
        simp
      have hJ₃ : Consistent (((s.released m t).readied w (fun _ => false) wakeEdit).handed m w) :=
        hJ₂.of_core (core_handed hfree w)
      rw [ndMutexUnlock_hand hS hcur hr ho hh]
      have hblocked : (s.threads w).stat = .block := by
        have hst := hJ₁.block_of_home (h := .mutex m) rfl hq
        by_cases hwt : w = t
        · subst hwt
          rw [State.released, State.updThread_threads, Function.update_self] at hst
          exact hst
        · simpa [hwt] using hst
      exact .schedules (hm.trans
        (hJ₁.wakes_waiter (k := .mutex m) rfl hq (hS.current_of_block hblocked)
        fun th => ⟨.eok, rfl⟩))
        (hJ₃.cpu_schedules cfg)
  · have he : (ndMutexUnlock cfg m s).1 = s := by
      unfold ndMutexUnlock
      simp only [hcur, ne_eq, ho, not_false_eq_true, if_true]
    rw [he]
    exact .refl

/-! ## Blocking calls -/

/-- The record of the outcome is no part of the processor. -/
theorem cpu_finishCall (who : Option Tid) (c : Call) (x : State × Option Ret) :
    (finishCall who c x).cpu = x.1.cpu := by
  obtain ⟨x, r⟩ := x
  cases r <;> cases who <;> rfl

/-- `nd_mutex_lock`. -/
theorem Sound.lock_works (hS : Sound cfg s) (ht : threadMode s = some t) (m : Mid) (n : ℕ)
    (ha : a = .call (.wait (.mutexLock m n))) :
      s.cpu.Works cfg a (ndMutexLock cfg m n s).1.cpu := by
  have hcur := (threadMode_eq ht).2.2.1
  unfold ndMutexLock
  simp only [hcur]
  cases ho : (s.mutexes m).owner with
  | none => exact .refl
  | some o =>
    simp only
    by_cases hoc : o = t
    · rw [if_pos hoc]
      exact .refl
    · have hm := boostOwner_moves (m := m) hS.consistent ⟨m, n, ha⟩ hcur hoc
      rw [if_neg hoc]
      by_cases hn : n = ndTimeoutNowait
      · rw [if_pos hn]
        exact .rests hm
      · obtain ⟨hK, ht'⟩ := hS.boost (C := True) ht (m := m) hoc
        rw [if_neg hn]
        exact (hK.sound.pend_works ht' (k := .mutex m) rfl (fun _ h => by cases h) n).after hm

/-- The body of a blocking call. -/
theorem Sound.body_works (hS : Sound cfg s) {c : Call}
    (ha : ∀ m n, c = .mutexLock m n → a = .call (.wait c)) (hv : (Op.wait c).valid s = true)
    (hctx : (Op.wait c).fromIrq = true ∨ ∃ t, threadMode s = some t)
    (hf : cfg.port = .deferred → ¬ c.mustLoop s) :
      s.cpu.Works cfg a (NerdRtos.callBody cfg c s).1.cpu := by
  cases c with
  | mutexLock m n =>
    obtain ⟨t, ht⟩ := hctx.resolve_left (by simp [Op.fromIrq])
    exact hS.lock_works ht m n (ha m n rfl)
  | semTake i n =>
    simp only [NerdRtos.callBody, ndSemTake]
    by_cases hv : 0 < (s.sems i).val
    · rw [if_pos hv]
      exact .refl
    by_cases hn : n = ndTimeoutNowait
    · rw [if_neg hv, if_pos hn]
      exact .refl
    · obtain ⟨t, ht⟩ := hctx.resolve_left (by simpa [Op.fromIrq] using hn)
      rw [if_neg hv, if_neg hn]
      exact hS.pend_works ht (k := .sem i) rfl (fun _ h => by cases h) n
  | queueSend q msg n =>
    simp only [NerdRtos.callBody]
    cases hS.queueSend_turn (hctx.imp_left (by simp [Op.fromIrq])) hf with
    | refused hfull hn he =>
      rw [he]
      exact .refl
    | waits hfull hn ht he =>
      rw [he]
      exact hS.pend_works ht (k := .queueSend q) rfl (fun _ h => by cases h) n
    | served hroom he =>
      have hS' : Sound cfg (s.sent q msg) :=
        (Kept.of_bare (C := True) (y := s.sent q msg) hS rfl).sound
      rw [he]
      exact hS'.wakeupIfAny_works (k := .queueRead q) rfl
  | queueRecv q n =>
    simp only [NerdRtos.callBody]
    cases hS.queueRecv_turn (hctx.imp_left (by simp [Op.fromIrq])) hf with
    | refused hempty hn he =>
      rw [he]
      exact .refl
    | waits hempty hn ht he =>
      rw [he]
      exact hS.pend_works ht (k := .queueRead q) rfl (fun _ h => by cases h) n
    | served hany he =>
      have hS' : Sound cfg (s.received q) :=
        (Kept.of_bare (C := True) (y := s.received q) hS rfl).sound
      rw [he]
      exact hS'.wakeupIfAny_works (k := .queueSend q) rfl
  | eventRecv e set opt n =>
    obtain ⟨t, ht⟩ := hctx.resolve_left (by simp [Op.fromIrq])
    have hcur := (threadMode_eq ht).2.2.1
    set x := s.updThread t fun th => { th with eventSet := set, eventOpt := opt } with hx
    have hS' : Sound cfg x := (Kept.inert (C := True) (t := t)
      (f := fun th => { th with eventSet := set, eventOpt := opt }) hS {}).sound
    have hcpu : x.cpu = s.cpu := by
      have hjob : x.job t = s.cpu.jobs t := by
        rw [hx]
        unfold State.job
        rw [State.updThread_threads, Function.update_self]
        rfl
      rw [hx, cpu_updThread, ← hx, hjob, Cpu.set_self]
    simp only [NerdRtos.callBody, ndEventRecv, hcur]
    rw [← hcpu]
    by_cases hsat : ndEventIsSatisfied (s.events e).set set opt = true
    · rw [if_pos (show ndEventIsSatisfied (x.events e).set set opt = true from hsat)]
      exact .refl
    rw [if_neg (show ¬ ndEventIsSatisfied (x.events e).set set opt = true from hsat)]
    by_cases hn : n = ndTimeoutNowait
    · rw [if_pos hn]
      exact .refl
    · rw [if_neg hn]
      exact hS'.pend_works (s := x) ht (k := .event e) rfl (fun _ h => by cases h) n
  | mempoolAlloc p n =>
    simp only [NerdRtos.callBody]
    cases hS.mempoolAlloc_turn (hctx.imp_left (by simp [Op.fromIrq])) hf with
    | refused hempty hn he =>
      rw [he]
      exact .refl
    | waits hempty hn ht he =>
      rw [he]
      exact hS.pend_works ht (k := .pool p) rfl (fun _ h => by cases h) n
    | served hany he =>
      rw [he]
      exact .refl
  | threadJoin v n =>
    obtain ⟨t, ht⟩ := hctx.resolve_left (by simp [Op.fromIrq])
    simp only [NerdRtos.callBody]
    rcases ndThreadJoin_cases cfg s v n with ⟨r, he, -⟩ | ⟨u, rfl, -, hd, -, he⟩
    · rw [he]
      exact .refl
    · rw [he]
      simp only [Op.valid, decide_eq_true_eq] at hv
      refine hS.pend_works ht (k := .join u) rfl (fun w hw => ?_) n
      cases hw
      exact ⟨hv, hd⟩

/-- A blocking call from its beginning. -/
theorem Sound.start_works (hS : Sound cfg s) {c : Call}
    (ha : ∀ m n, c = .mutexLock m n → a = .call (.wait c)) (hv : (Op.wait c).valid s = true)
    (hctx : (Op.wait c).fromIrq = true ∨ ∃ t, threadMode s = some t)
    (hf : (NerdRtos.startCall cfg c s).fault = false) :
    s.cpu.Works cfg a (NerdRtos.startCall cfg c s).cpu := by
  have hS' : Sound cfg (s.emit (.call s.caller c s.clock)) :=
    (Kept.of_bare (C := True) (y := s.emit _) hS rfl).sound
  unfold NerdRtos.startCall at hf ⊢
  rw [cpu_finishCall]
  exact hS'.body_works ha hv hctx fun hp =>
    not_mustLoop (s := s.emit (.call s.caller c s.clock)) hctx hp (fault_finishCall _ _ hf)

/-- The current thread goes on with its call. -/
theorem Sound.resume_call_works (hS : Sound cfg s) (ht : threadMode s = some t)
    (hc : s.calls t ≠ none) (hf : (NerdRtos.resumeCall cfg s).fault = false) :
    s.cpu.Works cfg a (NerdRtos.resumeCall cfg s).cpu := by
  have hcur := (threadMode_eq ht).2.2.1
  obtain ⟨c, hc'⟩ := Option.ne_none_iff_exists'.mp hc
  unfold NerdRtos.resumeCall at hf ⊢
  simp only [hcur, hc'] at hf ⊢
  have hf' := fault_finishCall _ _ hf
  rw [cpu_finishCall]
  have hloop : ∀ r, NerdRtos.callRest cfg c s =
      (if s.currentError = .etimeout then (s, some r) else NerdRtos.callBody cfg c s) →
      (∀ m n, c ≠ .mutexLock m n) → (Op.wait c).valid s = true →
      s.cpu.Works cfg a (NerdRtos.callRest cfg c s).1.cpu := by
    intro r he hne hv
    rw [he] at hf' ⊢
    by_cases herr : s.currentError = .etimeout
    · rw [if_pos herr]
      exact .refl
    · rw [if_neg herr] at hf' ⊢
      exact hS.body_works (fun m n h => absurd h (hne m n)) hv (.inr ⟨t, ht⟩) fun hp =>
        not_mustLoop (.inr ⟨t, ht⟩) hp hf'
  cases c with
  | queueSend q msg n => exact hloop _ rfl (by simp) rfl
  | queueRecv q n => exact hloop _ rfl (by simp) rfl
  | mempoolAlloc p n => exact hloop _ rfl (by simp) rfl
  | _ => exact .refl

/-! ## The steps -/

/-- A call that resumes nobody and creates nobody is a turn. -/
theorem Cpu.Works.turn {c : Cpu} (h : s.cpu.Works cfg a c) (ha : a.plain s)
    (hr : ∀ t, a.op? ≠ some (.threadResume t)) : Turn cfg s a c := by
  cases h with
  | rests hm => exact .rests ha hr hm
  | schedules hm hs => exact .schedules ha hm hs

/-- The kernel calls other than `nd_thread_yield`. -/
theorem Sound.op_turn (hS : Sound cfg s) {o : Op} (ha : a = .call o ∨ a = .irq o)
    (hv : o.valid s = true) (hy : o ≠ .threadYield)
    (hctx : o.fromIrq = true ∨ a = .call o ∧ ∃ t, threadMode s = some t)
    (hf : (NerdRtos.execOp cfg o s).fault = false) :
      Turn cfg s a (NerdRtos.execOp cfg o s).cpu := by
  have hop : a.op? = some o := by rcases ha with rfl | rfl <;> rfl
  have hplain : (∀ b, o ≠ .threadCreate b) → a.plain s := by
    intro hb
    rcases ha with rfl | rfl
    · exact ⟨hy, hb⟩
    · exact ⟨hy, hb⟩
  have hturn : ∀ {c}, s.cpu.Works cfg a c → (∀ t, o ≠ .threadResume t) →
    (∀ b, o ≠ .threadCreate b) →
      Turn cfg s a c := fun h hr hb =>
    h.turn (hplain hb) fun t h => hr t (Option.some.inj (hop.symm.trans h))
  have huser : ∀ u v, TimerId.user u ≠ .slice v := fun u v h => by cases h
  cases o with
  | threadCreate b => exact hS.create_turn hop hv
  | threadAbort v => exact hturn (hS.abort_works hop hv) (by simp) (by simp)
  | threadSuspend t => exact hturn (hS.suspend_works hop hv) (by simp) (by simp)
  | threadResume t => exact hS.resume_turn hop (hplain (by simp))
  | semRelease i => exact hturn (hS.release_works i) (by simp) (by simp)
  | eventSend e set => exact hturn (hS.eventSend_works e set) (by simp) (by simp)
  | mempoolFree p ptr => exact hturn (hS.free_works hf) (by simp) (by simp)
  | timerInit u periodic timeout callback =>
    simp only [NerdRtos.execOp, cpu_ndTimerInit]
    exact .refused (hplain (by simp))
  | timerStart u =>
    simp only [NerdRtos.execOp, cpu_timerStart cfg s (huser u)]
    exact .refused (hplain (by simp))
  | timerStop u =>
    simp only [NerdRtos.execOp, ndTimerStop, cpu_timerRemove s (huser u)]
    exact .refused (hplain (by simp))
  | mutexUnlock m =>
    obtain ⟨hcall, t, ht⟩ := hctx.resolve_left (by simp [Op.fromIrq])
    exact hturn (hS.unlock_works hcall ht) (by simp) (by simp)
  | threadYield => exact absurd rfl hy
  | threadDelay n =>
    obtain ⟨hcall, t, ht⟩ := hctx.resolve_left (by simp [Op.fromIrq])
    obtain ⟨hn, -, hc, hne⟩ := threadMode_eq ht
    have hm : Cpu.Moves a s.cpu (s.delayed cfg t n).cpu := by
      rw [cpu_delayed]
      exact hS.consistent.moves (.delays hc (hS.runs ht) ⟨n, hcall⟩ hn)
    simp only [NerdRtos.execOp, ndThreadDelay_eq cfg hc]
    exact .schedules (hplain (by simp)) hm
      ((hS.consistent.delayed cfg (hS.runs ht) hne n).1.cpu_schedules cfg)
  | wait c =>
    refine hturn (hS.start_works (fun m n h => ?_) hv (hctx.imp_right fun h => h.2) hf)
      (by simp) (by simp)
    subst h
    exact (hctx.resolve_left (by simp [Op.fromIrq])).1

/-- `nd_thread_yield`. -/
theorem Sound.yield_turn (hS : Sound cfg s) (ht : threadMode s = some t) :
    Turn cfg s (.call .threadYield) (ndThreadYield cfg s).cpu := by
  have hc := (threadMode_eq ht).2.2.1
  have hJ : Consistent (s.updThread t fun th => { th with yield := true }) := hS.consistent.inert {}
  have hcpu : (s.updThread t fun th => { th with yield := true }).cpu =
      s.cpu.set t { s.job t with yield := true } := by
    rw [cpu_updThread]
    unfold State.job
    rw [State.updThread_threads, Function.update_self]
    rfl
  unfold ndThreadYield
  simp only [hc]
  refine .yields rfl hc (hS.runs ht) ?_
  rw [← hcpu]
  exact hJ.cpu_schedules cfg

/-- The timer of a slice expires.
kernel/nd_scheduler.c:237-257 -/
theorem Sound.slice_turn (hS : Sound cfg s) (hl : leftmostTimer s = some (.slice t))
    (hn : 0 < s.nest) :
    Turn cfg s .timerFire (expireTimer cfg (.slice t) s).cpu := by
  have hJ := hS.consistent
  have harm : s.isArmed (.slice t) = true := by simp [State.isArmed, s.tree.home_of_head hl]
  have hc := (hJ.books.slices t harm).1
  have hstop : (timerRemove (.slice t) s).cpu = s.cpu.set t { s.job t with deadline := none } :=
    cpu_stopSlice s t
  rw [expireTimer_oneShot (hJ.books.sliceOneShot t)]
  by_cases hcb : (s.timers (.slice t)).callback = .sliceTimeout
  · have hrun : runCallback cfg (.slice t) (timerRemove (.slice t) s) =
        ndThreadSliceTimeout cfg t (timerRemove (.slice t) s) := by
      simp only [runCallback, timerRemove_timers, hcb]
    have hp := (hJ.ok t).prio
    rw [hrun]
    unfold ndThreadSliceTimeout
    simp only [timerRemove_current, timerRemove_threads, hc, ne_eq, not_true_eq_false, if_false]
    by_cases hpeers : s.queues.lists (.ready (s.threads t).priority) = []
    · rw [if_pos (.inr (by simpa [State.listIsEmpty] using hpeers)), hstop]
      exact .lapses rfl hl hc (.inr hpeers)
    · have hmany : ¬ (ndThreadPriorityMax ≤ (s.threads t).priority ∨
          (timerRemove (.slice t) s).listIsEmpty (.ready (s.threads t).priority) = true) := by
        rintro (h | h)
        · exact absurd h (not_le.mpr hp)
        · exact hpeers (by simpa [State.listIsEmpty] using h)
      have hcpu : ((timerRemove (.slice t) s).updThread t fun th =>
          { th with yield := true, sliceLeft := 0, sliceStart := 0 }).cpu = s.cpu.set t
              (s.job t).expire := by
        rw [cpu_updThread, hstop, Cpu.set_set]
        simp [State.job, Job.expire, State.isArmed]
      have hsched : (ndScheduler cfg ((timerRemove (.slice t) s).updThread t fun th =>
          { th with yield := true, sliceLeft := 0, sliceStart := 0 })).cpu =
            { s.cpu.set t (s.job t).expire with trySwitch := true } := by
        rw [← hcpu]
        exact congrArg State.cpu (if_pos hn)
      rw [if_neg hmany, hsched]
      exact .expires rfl hl hc hcb hpeers
  · have hrun : runCallback cfg (.slice t) (timerRemove (.slice t) s) = timerRemove
        (.slice t) s := by
      unfold runCallback
      simp only [timerRemove_timers]
      cases h : (s.timers (.slice t)).callback <;> simp_all
    rw [hrun, hstop]
    exact .lapses rfl hl hc (.inl hcb)

/-- One turn of the loop of `timer_expired` at a timer that is not of a slice. -/
theorem Sound.timer_works (hS : Sound cfg s) {u : TimerId} (hn : 0 < s.nest)
    (hl : leftmostTimer s = some u)
    (hu : ∀ t, u ≠ .slice t) : s.cpu.Works cfg a (expireTimer cfg u s).cpu := by
  have hJ := hS.consistent
  have harm : s.isArmed u = true := by simp [State.isArmed, s.tree.home_of_head hl]
  cases u with
  | wait t =>
    have hst := hJ.block_of_armed harm
    rcases hJ.blocked hst with ⟨k, -, -, hcb⟩ | ⟨-, -, hcb⟩
    · rw [expireTimer_pend hJ harm (hcb harm)]
      exact .schedules (hJ.wakes hst false
        (by simp) (fun _ => .inr hn) (job_wake s t fun th => ⟨.etimeout, rfl⟩))
        ((hJ.readied_of (.inl hst) rfl rfl rfl rfl rfl).cpu_schedules cfg)
    · have hready : Consistent (s.readied t (fun _ => false) delayEdit) := by
        refine hJ.readied_of (.inl hst) ?_ ?_ ?_ ?_ ?_ <;> (unfold delayEdit; split <;> rfl)
      rw [expireTimer_delay hJ harm hcb]
      exact .schedules (hJ.wakes hst true (fun _ => hn) (fun _ => .inr hn) (job_delayEnd s t))
        (hready.cpu_schedules cfg)
  | slice t => exact absurd rfl (hu t)
  | user n =>
    have hcall : ∀ x, runCallback cfg (.user n) x = x := fun _ => rfl
    have huser : ∀ v, TimerId.user n ≠ .slice v := fun v h => by cases h
    have hcpu : (expireTimer cfg (.user n) s).cpu = s.cpu := by
      unfold expireTimer
      simp only [hcall]
      split
      · refine cpu_of_untimed ?_ (fun v => by simp) fun v => ?_
        · rw [untimed_timerNodeInsert (by simp)]
          rfl
        · rw [timerNodeInsert_tree, State.updTimer_tree, timerRemove_tree]
          rw [Intrusive.Queues.home_link_of_ne _ _ _ (huser v).symm]
          simp [(huser v).symm]
      · exact cpu_timerRemove s huser
    rw [hcpu]
    exact .refl

/-- **Every step is a turn of the scheduler.** -/
theorem exec_turn (hS : Sound cfg s) (ha : allowed cfg s a = true)
    (hf : (exec cfg a s).fault = false) :
    Turn cfg s a (exec cfg a s).cpu := by
  cases a with
  | call o =>
    by_cases hy : o = .threadYield
    · subst hy
      obtain ⟨t, ht⟩ := threadMode_of_call ha rfl
      exact hS.yield_turn ht
    · have hctx := context_of_call ha
      exact hS.op_turn (.inl rfl) (call_allowed ha).1 hy (hctx.imp_right fun h => ⟨rfl, h⟩) hf
  | resume =>
    obtain ⟨t, hm, hcall⟩ := resume_allowed ha
    have hw : s.cpu.Works cfg .resume (exec cfg .resume s).cpu := hS.resume_call_works hm hcall hf
    exact hw.turn trivial fun _ h => by cases h
  | irqEnter => exact .enters rfl
  | irq o =>
    obtain ⟨-, hirq, hv⟩ := irq_allowed ha
    have hy : o ≠ .threadYield := by
      rintro rfl
      exact absurd hirq (by simp [Op.fromIrq])
    exact hS.op_turn (.inr rfl) hv hy (.inl hirq) hf
  | timerFire =>
    obtain ⟨hnest, u, hl, hdue⟩ := timerFire_allowed ha
    unfold NerdRtos.exec timerTurn
    simp only [hl, if_neg (not_lt.mpr hdue)]
    by_cases hu : ∃ t, u = .slice t
    · obtain ⟨t, rfl⟩ := hu
      exact hS.slice_turn hl hnest
    · have hw : s.cpu.Works cfg .timerFire (expireTimer cfg u s).cpu :=
        hS.timer_works hnest hl fun t h => hu ⟨t, h⟩
      refine hw.turn (fun t h => hu ⟨t, ?_⟩) fun _ h => by cases h
      rw [hl] at h
      exact Option.some.inj h
  | irqExit => exact hS.irqExit_turn (irqExit_allowed ha)
  | pendsv => exact hS.pendsv_turn (pendsv_allowed ha).1 hf
  | advance n => exact .ticks n rfl
  | write p ptr v => exact .refused trivial
  | start => exact hS.start_turn (start_allowed ha)

/-- The idle thread alone is ready when `main` starts. -/
theorem cpu_boot (cfg : Config) (u : Setup) : (boot cfg u).cpu =
    ((initObjects u).cpu.set idleTid (Job.create idleArgs)).append idleTid 31 := by
  have hu : (initObjects u).inUse idleTid = false := rfl
  have hth : (((initObjects u).created idleTid idleArgs).threads idleTid).priority = 31 := by
    rw [created_eq hu]
    simp [createEdit, idleArgs, ndThreadPriorityMax]
  have hfree : ((initObjects u).created idleTid idleArgs).queues.home idleTid = none := by
    rw [created_eq hu]
    rfl
  rw [boot_eq, readyAddTail_eq (by rw [hth]; decide), hth, ← cpu_created hu]
  exact cpu_listInsert_tail hfree

/-! ## What a turn leaves alone -/

namespace Cpu

variable {c c' : Cpu}

/-- An evaluation changes jobs, ready lists and the record of the evaluations. -/
theorem Verdict.frame {next : Option Tid} (h : c.Verdict t next c') :
    c' = { c with jobs := c'.jobs, ready := c'.ready, picks := c'.picks } := by
  cases h <;> rfl

/-- A switch changes jobs and ready lists, and makes the successor the current thread. -/
theorem dispatch_frame (cfg : Config) (n : Tid) (c : Cpu) : c.dispatch cfg n =
    { c with
      jobs := (c.dispatch cfg n).jobs
      ready := fun p => (c.ready p).erase n
      current := some n
      next := none } := by
  obtain ⟨jobs, ready, current⟩ := c
  cases current <;> rfl

/-- The job of a thread that is not switched in. -/
theorem dispatch_jobs_of_ne (cfg : Config) (c : Cpu) {u : Tid} (h : u ≠ n) :
    (c.dispatch cfg n).jobs u =
    if c.current = some u then settle c.clock (c.jobs u) else c.jobs u := by
  obtain ⟨jobs, ready, current⟩ := c
  cases current with
  | none => simp [dispatch, h]
  | some t =>
    by_cases hut : u = t
    · subst hut
      simp [dispatch, h]
    · simp [dispatch, h, hut, Ne.symm hut]

/-- The job of the thread that is switched in. -/
theorem dispatch_jobs_self (cfg : Config) (c : Cpu) (n : Tid) : (c.dispatch cfg n).jobs n =
    begin cfg c.clock ((c.ready (c.jobs n).priority).erase n)
      { (if c.current = some n then settle c.clock (c.jobs n) else c.jobs n) with stat := .running
        } := by
  have hprio : (settle c.clock (c.jobs n)).priority = (c.jobs n).priority := by
    unfold settle
    split <;> rfl
  obtain ⟨jobs, ready, current⟩ := c
  cases current with
  | none => simp [dispatch]
  | some t =>
    by_cases hnt : n = t
    · subst hnt
      have hprio' : (settle _ (jobs n)).priority = (jobs n).priority := hprio
      simp [dispatch, hprio']
    · simp [dispatch, hnt, Ne.symm hnt]

/-- A part of the jobs that the new job agrees with. -/
theorem update_same {β : Type} (f : Job → β) {jobs : Tid → Job} {j : Job} (h : f j = f (jobs t))
    (u : Tid) : f (Function.update jobs t j u) = f (jobs u) := by
  by_cases hu : u = t
  · subst hu
    rw [Function.update_self]
    exact h
  · rw [Function.update_of_ne hu]

/-- A property of a job that a new job has where it replaces this one. -/
theorem update_keeps (P : Job → Prop) {jobs : Tid → Job} {u t : Tid} {j : Job} (hj : u = t → P j)
    (ht : P (jobs t)) : P (Function.update jobs u j t) := by
  by_cases hu : t = u
  · subst hu
    rw [Function.update_self]
    exact hj rfl
  · rw [Function.update_of_ne hu]
    exact ht

/-- A part of the jobs that a switch leaves alone. -/
theorem dispatch_same {β : Type} (f : Job → β) (hsettle : ∀ now j, f (settle now j) = f j)
    (hrun : ∀ j : Job, f { j with stat := .running } = f j)
    (hbegin : ∀ now peers j, f (begin cfg now peers j) = f j) (c : Cpu) (n u : Tid) :
    f ((c.dispatch cfg n).jobs u) = f (c.jobs u) := by
  obtain ⟨jobs, ready, current⟩ := c
  cases current with
  | none => exact (update_same f (hbegin _ _ _) u).trans (update_same f (hrun _) u)
  | some t =>
    exact (update_same f (hbegin _ _ _) u).trans
      ((update_same f (hrun _) u).trans (update_same f (hsettle _ _) u))

/-- Settling a slice leaves what does not depend on the slice. -/
theorem settle_same {β : Type} (f : Job → β)
    (hf : ∀ (j : Job) left start dl,
      f { j with sliceLeft := left, sliceStart := start, deadline := dl } = f j)
    (now : ℕ) (j : Job) : f (settle now j) = f j := by
  unfold settle
  split
  · exact hf _ _ _ _
  · rfl

/-- Beginning a slice leaves what does not depend on the slice. -/
theorem begin_same {β : Type} (f : Job → β)
    (hf : ∀ (j : Job) left start dl,
      f { j with sliceLeft := left, sliceStart := start, deadline := dl } = f j)
    (now : ℕ) (peers : List Tid) (j : Job) : f (begin cfg now peers j) = f j := by
  unfold begin
  split
  · rfl
  split
  · exact hf _ _ _ _
  · exact hf _ _ _ _

/-- A dispatch changes no priority. -/
theorem dispatch_priority (cfg : Config) (c : Cpu) (n u : Tid) :
    ((c.dispatch cfg n).jobs u).priority = (c.jobs u).priority :=
  dispatch_same Job.priority (settle_same _ fun _ _ _ _ => rfl) (fun _ => rfl)
    (begin_same _ fun _ _ _ _ => rfl) c n u

end Cpu

/-! ## A step in two parts -/

namespace Cpu

/-- The thread is not ready, nor running, and does not get ready in a step of action `a`. -/
inductive Gone (a : Action) (c : Cpu) (t : Tid) : Prop
  | dead (hst : (c.jobs t).stat = .dead)
  | suspended (hst : (c.jobs t).stat = .suspend) (ha : a.op? = some (.threadSuspend t))
  | blocked (hst : (c.jobs t).stat = .block) (hc : c.current = some t) (hp : c.pendsv = false)
      (hn : c.nest = 0)

/-- A thread that is gone is neither ready nor running. -/
theorem Gone.not_runnable {c : Cpu} (h : Gone a c t) : (c.jobs t).stat ≠ .ready ∧
    (c.jobs t).stat ≠ .running := by
  cases h with
  | dead hst => rw [hst]; decide
  | suspended hst ha => rw [hst]; decide
  | blocked hst hc hp hn => rw [hst]; decide

/-- A thread stays gone while its state and the frame of the processor stay. -/
theorem Gone.same {c c' : Cpu} (h : Gone a c t) (hst : (c'.jobs t).stat = (c.jobs t).stat)
    (hf : c' = { c with jobs := c'.jobs, ready := c'.ready }) : Gone a c' t := by
  have hcur : c'.current = c.current := (congrArg Cpu.current hf :)
  have hpend : c'.pendsv = c.pendsv := (congrArg Cpu.pendsv hf :)
  have hnest : c'.nest = c.nest := (congrArg Cpu.nest hf :)
  cases h with
  | dead h => exact .dead (hst.trans h)
  | suspended h ha => exact .suspended (hst.trans h) ha
  | blocked h hc hp hn =>
    exact .blocked (hst.trans h) (hcur.trans hc) (hpend.trans hp) (hnest.trans hn)

/-- The job of another thread. -/
theorem jobs_of_edit {x z : Cpu} {u : Tid} {j : Job}
    (hz : z = { x with jobs := Function.update x.jobs u j, ready := z.ready }) (hu : t ≠ u) :
      z.jobs t = x.jobs t := by
  rw [hz]
  exact Function.update_of_ne hu j x.jobs

/-- A thread that is gone stays so. -/
theorem Gone.move {x y : Cpu} (h : Gone a x t) (hm : Move a x y) : Gone a y t := by
  have hkeep : ∀ {u : Tid}, t ≠ u → ∀ (j : Job) (z : Cpu),
      z = { x with jobs := Function.update x.jobs u j, ready := z.ready } → Gone a z t := by
    intro u hu j z hz
    exact h.same (congrArg Job.stat (jobs_of_edit hz hu)) (hz.trans (by rw [hz]))
  cases hm with
  | @wakes u reload hblock hr hc =>
    refine hkeep ?_ _ _ rfl
    rintro rfl
    cases h with
    | dead h => rw [hblock] at h; cases h
    | suspended h _ => rw [hblock] at h; cases h
    | blocked _ hcur hp hn =>
      rcases hc hcur with h | h
      · rw [hp] at h
        cases h
      · omega
  | @resumes u ha hsusp =>
    refine hkeep ?_ _ _ rfl
    rintro rfl
    cases h with
    | dead h => rw [hsusp] at h; cases h
    | suspended _ h => rw [ha] at h; cases h
    | blocked h _ _ _ => rw [hsusp] at h; cases h
  | boosts ha hready hp =>
    refine hkeep ?_ _ _ rfl
    rintro rfl
    exact h.not_runnable.1 hready
  | @reprio o p hnready hp ha =>
    by_cases hu : t = o
    · subst hu
      refine h.same ?_ rfl
      show (Function.update x.jobs t _ t).stat = _
      rw [Function.update_self]
    · exact hkeep hu _ _ rfl
  | waits hc hrun hn =>
    refine hkeep ?_ _ _ rfl
    rintro rfl
    exact h.not_runnable.2 hrun
  | delays hc hrun ha hn =>
    refine hkeep ?_ _ _ rfl
    rintro rfl
    exact h.not_runnable.2 hrun
  | @suspends u ha hlive =>
    by_cases hu : t = u
    · subst hu
      refine .suspended ?_ ha
      exact congrArg Job.stat (Function.update_self t _ x.jobs)
    · exact hkeep hu _ _ rfl
  | @ends u ha hlive =>
    by_cases hu : t = u
    · subst hu
      refine .dead ?_
      exact congrArg Job.stat (Function.update_self t _ x.jobs)
    · exact hkeep hu _ _ rfl

/-- A move of a thread that is ready or running changes its priority at most, or takes it away. -/
theorem Move.runnable {x y : Cpu} (hok : x.Ok) (hm : Move a x y)
    (hst : (x.jobs t).stat = .ready ∨ (x.jobs t).stat = .running) :
    (∃ p, y.jobs t = { x.jobs t with priority := p }) ∨ Gone a y t := by
  have hnot : ∀ {st : Stat}, (x.jobs t).stat = st → st ≠ .ready → st ≠ .running → False := by
    rintro st rfl hready hrun
    exact hst.elim hready hrun
  have hkeep : ∀ {u : Tid}, t ≠ u → ∀ (j : Job) (z : Cpu),
      z = { x with jobs := Function.update x.jobs u j, ready := z.ready } →
      (∃ p, z.jobs t = { x.jobs t with priority := p }) ∨ Gone a z t := by
    intro u hu j z hz
    exact .inl ⟨(x.jobs t).priority, jobs_of_edit hz hu⟩
  have hprio : ∀ (p : ℕ) (z : Cpu), z = { x with
        jobs := Function.update x.jobs t { x.jobs t with priority := p }
        ready := z.ready } →
      (∃ p, z.jobs t = { x.jobs t with priority := p }) ∨ Gone a z t := by
    intro p z hz
    rw [hz]
    exact .inl ⟨p, Function.update_self t _ x.jobs⟩
  cases hm with
  | wakes reload hblock hr hc =>
    refine hkeep ?_ _ _ rfl
    rintro rfl
    exact hnot hblock (by decide) (by decide)
  | resumes ha hsusp =>
    refine hkeep ?_ _ _ rfl
    rintro rfl
    exact hnot hsusp (by decide) (by decide)
  | @boosts o p ha hready hp =>
    by_cases hu : t = o
    · subst hu
      exact hprio p _ rfl
    · exact hkeep hu _ _ rfl
  | @reprio o p hnready hp ha =>
    by_cases hu : t = o
    · subst hu
      exact hprio p _ rfl
    · exact hkeep hu _ _ rfl
  | @waits u hc hrun hn =>
    by_cases hu : t = u
    · subst hu
      refine .inr (.blocked ?_ hc (hok.running _ hrun).2 hn)
      exact congrArg Job.stat (Function.update_self t _ x.jobs)
    · exact hkeep hu _ _ rfl
  | @delays u hc hrun ha hn =>
    by_cases hu : t = u
    · subst hu
      refine .inr (.blocked ?_ hc (hok.running _ hrun).2 hn)
      exact congrArg Job.stat (Function.update_self t _ x.jobs)
    · exact hkeep hu _ _ rfl
  | @suspends u ha hlive =>
    by_cases hu : t = u
    · subst hu
      refine .inr (.suspended ?_ ha)
      exact congrArg Job.stat (Function.update_self t _ x.jobs)
    · exact hkeep hu _ _ rfl
  | @ends u ha hlive =>
    by_cases hu : t = u
    · subst hu
      refine .inr (.dead ?_)
      exact congrArg Job.stat (Function.update_self t _ x.jobs)
    · exact hkeep hu _ _ rfl

/-- A thread that is ready or running keeps its job but for the priority, or is gone. -/
theorem Moves.runnable {c c' : Cpu} (h : Moves a c c')
    (hst : (c.jobs t).stat = .ready ∨ (c.jobs t).stat = .running) :
    (∃ p, c'.jobs t = { c.jobs t with priority := p }) ∨ Gone a c' t := by
  refine h.induction (I := fun x => (∃ p, x.jobs t = { c.jobs t with priority := p }) ∨ Gone a x t)
    (.inl ⟨_, rfl⟩) fun x y hok _ hx hm => ?_
  rcases hx with ⟨p, hp⟩ | hg
  · have hst' : (x.jobs t).stat = .ready ∨ (x.jobs t).stat = .running := by
      rw [hp]
      exact hst
    rcases hm.runnable hok hst' with ⟨q, hq⟩ | hg
    · rw [hp] at hq
      exact .inl ⟨q, hq⟩
    · exact .inr hg
  · exact .inr (hg.move hm)

end Cpu

/-- What happens to the threads in a step before the scheduler evaluates or switches. -/
inductive Prelude (s : State) (a : Action) : Cpu → Prop
  | moves {x y : Cpu} (ha : a.creates = none) (hm : Cpu.Moves a s.cpu y) (hjobs : x.jobs = y.jobs)
      (hready : x.ready = y.ready) (hc : x.current = s.current) : Prelude s a x
  | creates {t : Tid} {b : CreateArgs} (ha : a.creates = some t)
      (hst : (s.threads t).stat = .init ∨ (s.threads t).stat = .dead) (hc : s.current ≠ some t) :
      Prelude s a ((s.cpu.set t (Job.create b)).append t b.priority)
  | yields {t : Tid} (ha : a = .call .threadYield) (hc : s.current = some t)
    (hrun : (s.threads t).stat = .running) :
      Prelude s a (s.cpu.set t { s.job t with yield := true })
  | expires {t : Tid} (ha : a = .timerFire) (hl : leftmostTimer s = some (.slice t))
      (hc : s.current = some t)
      (hcb : (s.job t).callback = .sliceTimeout) (hpeers : s.cpu.ready (s.job t).priority ≠ []) :
      Prelude s a { s.cpu.set t (s.job t).expire with trySwitch := true }
  | lapses {t : Tid} (ha : a = .timerFire) (hl : leftmostTimer s = some (.slice t))
      (hc : s.current = some t)
      (hwhy : (s.job t).callback ≠ .sliceTimeout ∨ s.cpu.ready (s.job t).priority = []) :
      Prelude s a (s.cpu.set t { s.job t with deadline := none })

/-- What the scheduler does in the end. -/
inductive Ending (cfg : Config) (a : Action) (now : ℕ) (x : Cpu) : Cpu → Prop
  | rests {c : Cpu} (hjobs : c.jobs = x.jobs) (hready : c.ready = x.ready)
    (hc : c.current = x.current) :
      Ending cfg a now x c
  | decides {c : Cpu} (hclock : x.clock = now) (hok : x.Ok) (h : x.Decides cfg c) :
      Ending cfg a now x c
  | switches {n : Tid} (hclock : x.clock = now) (hr : (x.jobs n).stat = .ready)
      (hwhy : x.Ok ∧ x.current = none ∧ x.First n ∨ a = .pendsv) :
      Ending cfg a now x (x.dispatch cfg n)

/-- The scheduler rests, or decides on the state that it is called in. -/
theorem Cpu.Schedules.ending {x c : Cpu} (h : x.Schedules cfg c) : Ending cfg a x.clock x c := by
  cases h with
  | holds h => exact .rests rfl rfl rfl
  | decides h hok hd => exact .decides rfl hok hd

/-- A call of the plain kind creates no thread. -/
theorem creates_of_plain (h : a.plain s) : a.creates = none := by
  apply Action.creates_eq_none
  intro b hop
  cases a with
  | call o => exact absurd (Option.some.inj hop) (h.2 b)
  | irq o => exact absurd (Option.some.inj hop) (h.2 b)
  | _ => cases hop

/-- Every turn has the two parts. -/
theorem Turn.split (hok : s.cpu.Ok) {c : Cpu} (hT : Turn cfg s a c) :
    ∃ x, Prelude s a x ∧ Ending cfg a s.clock x c := by
  have hschedules : ∀ {x c : Cpu}, x.clock = s.clock → x.Schedules cfg c →
      Ending cfg a s.clock x c := by
    intro x c hclock h
    rw [← hclock]
    exact h.ending
  cases hT with
  | refused ha => exact ⟨_, .moves (creates_of_plain ha) .refl rfl rfl rfl, .rests rfl rfl rfl⟩
  | rests ha hr hm =>
    exact ⟨_, .moves (creates_of_plain ha) hm rfl rfl (congrArg Cpu.current hm.frame),
      .rests rfl rfl rfl⟩
  | schedules ha hm h =>
    exact ⟨_, .moves (creates_of_plain ha) hm rfl rfl (congrArg Cpu.current hm.frame),
      hschedules (congrArg Cpu.clock hm.frame) h⟩
  | @creates t b _ ha ht hb hst hc h =>
    exact ⟨_, .creates (Action.creates_eq_some ha hb ht) hst hc, hschedules rfl h⟩
  | declines ha hb =>
    have hcreates : a.creates = none := by
      apply Action.creates_eq_none
      intro b' hop
      cases ha.symm.trans hop
      exact hb
    exact ⟨_, .moves hcreates .refl rfl rfl rfl, .rests rfl rfl rfl⟩
  | yields ha hc hrun h => exact ⟨_, .yields ha hc hrun, hschedules rfl h⟩
  | expires ha hl hc hcb hpeers => exact ⟨_, .expires ha hl hc hcb hpeers, .rests rfl rfl rfl⟩
  | lapses ha hl hc hwhy => exact ⟨_, .lapses ha hl hc hwhy, .rests rfl rfl rfl⟩
  | ticks k ha => exact ⟨_, .moves (by rw [ha]; rfl) .refl rfl rfl rfl, .rests rfl rfl rfl⟩
  | enters ha => exact ⟨_, .moves (by rw [ha]; rfl) .refl rfl rfl rfl, .rests rfl rfl rfl⟩
  | exits ha hn h => exact ⟨_, .moves (by rw [ha]; rfl) .refl rfl rfl rfl, .rests rfl rfl rfl⟩
  | decides ha hn ht hone hok' h =>
    exact ⟨{ s.cpu with nest := s.nest - 1, trySwitch := false },
      .moves (by rw [ha]; rfl) .refl rfl rfl rfl, .decides rfl hok' h⟩
  | switches ha hn hr =>
    exact ⟨{ s.cpu with pendsv := false },
      .moves (by rw [ha]; rfl) .refl rfl rfl rfl, .switches rfl hr (.inr ha)⟩
  | starts ha hc hn =>
    have hr := ((hok.mem _ _).mp (List.mem_of_head? hn.head)).1
    exact ⟨s.cpu, .moves (by rw [ha]; rfl) .refl rfl rfl rfl, .switches rfl hr (.inl ⟨hok, hc, hn⟩)⟩

end NerdRtos
