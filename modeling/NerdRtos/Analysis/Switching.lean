import NerdRtos.Analysis.Consistent

/-!
# What the scheduler does

`pickNext_spec` says what `nd_schedule_pick_next` decides: the current thread runs on and no
ready thread outranks it, or there is a ready successor that no ready thread outranks, and
no thread is running any more. `ndContextSwitchCb_spec` says what the switch to it does, and
`ndScheduler_spec` puts the two together: called with every thread in one piece, `nd_scheduler`
leaves the kernel consistent and settled.

The scheduler touches nothing that the other modules speak about: `offCpu_ndScheduler`.
-/

set_option autoImplicit false

namespace NerdRtos

/-! ## What the scheduler leaves alone -/

/-- The state of a thread, with no difference between ready and running. -/
def Stat.offCpu : Stat → Stat
  | .running => .ready
  | st => st

/-- A control block without what the scheduler decides. -/
def Thread.offCpu (th : Thread) : Thread :=
  { th with stat := th.stat.offCpu, yield := false, sliceLeft := 0, sliceStart := 0 }

/-- The state without what the scheduler decides: which of the ready threads runs, the order of
the ready lists, the slices, the timers and the scheduling flags. -/
def State.offCpu (s : State) : State :=
  { s with
    threads := fun t => (s.threads t).offCpu
    queues := s.queues.restrict QHead.isWait
    readyBit := 0
    current := none
    next := none
    trySwitch := false
    timers := fun _ => {}
    tree := Intrusive.Queues.empty
    pendsv := false
    picks := []
    fault := false }

section OffCpu

variable {s s' : State} {t : Tid}

/-- An edit of what the scheduler keeps about a thread is not seen. -/
theorem offCpu_updThread {f : Thread → Thread}
    (h : (f (s.threads t)).offCpu = (s.threads t).offCpu) :
    (s.updThread t f).offCpu = s.offCpu := by
  unfold State.offCpu
  congr 1
  funext u
  by_cases hu : u = t
  · subst hu
    simpa using h
  · simp [hu]

/-- Putting a loose thread on a ready list is not seen. -/
theorem offCpu_listInsert {pos : Tid → Bool} {p : ℕ} (h : s.queues.home t = none) :
    (s.listInsert pos (.ready p) t).offCpu = s.offCpu := by
  unfold State.offCpu
  congr 1
  exact Intrusive.Queues.restrict_link_of_not pos h rfl

/-- Taking a thread out of a ready list is not seen. -/
theorem offCpu_pulled (h : ∀ k, s.queues.home t = some k → k.isWait = false) :
    (s.pulled t).offCpu = s.offCpu := by
  unfold State.offCpu
  congr 1
  exact Intrusive.Queues.restrict_unlink_of_not h

/-- Making a thread that is on no wait list ready is not seen. -/
theorem offCpu_readied {pos : Tid → Bool} {f : Thread → Thread}
    (hq : ∀ k, s.queues.home t = some k → k.isWait = false)
    (hf : (f (s.threads t)).offCpu = (s.threads t).offCpu) :
    (s.readied t pos f).offCpu = s.offCpu := by
  have hfree : ((s.pulled t).updThread t f).queues.home t = none := by simp
  calc (s.readied t pos f).offCpu
      = ((s.pulled t).updThread t f).offCpu := offCpu_listInsert hfree
    _ = (s.pulled t).offCpu := offCpu_updThread hf
    _ = s.offCpu := offCpu_pulled hq

variable (h : s'.offCpu = s.offCpu)
include h

/-- The scheduler changes no priority. -/
theorem priority_of_offCpu (t : Tid) : (s'.threads t).priority = (s.threads t).priority :=
  (congrArg (fun x => (x.threads t).priority) h :)

/-- The scheduler sees ready and running threads alike. -/
theorem stat_of_offCpu (t : Tid) : (s'.threads t).stat.offCpu = (s.threads t).stat.offCpu :=
  (congrArg (fun x => (x.threads t).stat) h :)

/-- The scheduler writes no error. -/
theorem error_of_offCpu (t : Tid) : (s'.threads t).error = (s.threads t).error :=
  (congrArg (fun x => (x.threads t).error) h :)

/-- The scheduler ends no interrupt. -/
theorem nest_of_offCpu : s'.nest = s.nest := (congrArg State.nest h :)

/-- Who waits is not up to the scheduler. -/
theorem home_of_offCpu {k : QHead} (hw : k.isWait = true) (hk : s'.queues.home t = some k) :
    s.queues.home t = some k := by
  have hk' : s'.offCpu.queues.home t = some k := by simp [State.offCpu, hk, hw]
  rw [h] at hk'
  simp only [State.offCpu, Intrusive.Queues.home_restrict, Option.filter_eq_some_iff] at hk'
  exact hk'.1

end OffCpu

/-! ## Picking the successor -/

/-- The scheduling flags, and who owns which mutex: what no move of a thread between lists
touches. -/
structure Flags where
  current : Option Tid
  nest : ℕ
  trySwitch : Bool
  pendsv : Bool
  taken : Intrusive.Queues Tid Mid
  mutexes : Mid → Mutex

/-- The flags of a state. -/
def State.flags (s : State) : Flags :=
  ⟨s.current, s.nest, s.trySwitch, s.pendsv, s.taken, s.mutexes⟩

/-- What interrupts and ports promise about the scheduling flags at any point: outside of
interrupts no request is held back, a sync port has no pending exception, and before
`nd_scheduler_start` there are no interrupts. -/
structure Ambient (cfg : Config) (s : State) : Prop where
  flag : s.nest = 0 → s.trySwitch = false
  sync : cfg.port = .sync → s.pendsv = false
  main : s.current = none → s.nest = 0 ∧ s.pendsv = false

/-- At the end of a critical section the current thread runs on, unless a switch is requested or
pending. -/
structure Settled (cfg : Config) (s : State) : Prop extends Ambient cfg s where
  runs : ∀ c, s.current = some c → s.pendsv = false → s.trySwitch = false →
    (s.threads c).stat = .running

/-- The scheduling flags alone. -/
def State.sched (s : State) : Option Tid × ℕ × Bool × Bool :=
  (s.current, s.nest, s.trySwitch, s.pendsv)

/-- What the scheduler has decided is among the flags. -/
theorem sched_of_flags {s s' : State} (h : s'.flags = s.flags) : s'.sched = s.sched :=
  (congrArg (fun f : Flags => (f.current, f.nest, f.trySwitch, f.pendsv)) h :)

section Flags

variable {cfg : Config} {s s' : State} (h : s'.sched = s.sched)
include h

/-- The promise is about the flags only. -/
theorem Ambient.of_sched (hA : Ambient cfg s) : Ambient cfg s' := by
  have hc : s'.current = s.current := (congrArg Prod.fst h :)
  have hn : s'.nest = s.nest := (congrArg (fun x => x.2.1) h :)
  have ht : s'.trySwitch = s.trySwitch := (congrArg (fun x => x.2.2.1) h :)
  have hp : s'.pendsv = s.pendsv := (congrArg (fun x => x.2.2.2) h :)
  refine ⟨?_, ?_, ?_⟩
  · rw [hn, ht]; exact hA.flag
  · rw [hp]; exact hA.sync
  · rw [hc, hn, hp]; exact hA.main

/-- A critical section that keeps the flags, and the current thread running, stays settled. -/
theorem Settled.of_sched (hS : Settled cfg s)
    (hrun : ∀ c, s.current = some c → (s.threads c).stat = .running →
      (s'.threads c).stat = .running) : Settled cfg s' := by
  have hc : s'.current = s.current := (congrArg Prod.fst h :)
  have ht : s'.trySwitch = s.trySwitch := (congrArg (fun x => x.2.2.1) h :)
  have hp : s'.pendsv = s.pendsv := (congrArg (fun x => x.2.2.2) h :)
  refine ⟨hS.toAmbient.of_sched h, ?_⟩
  rw [hc, ht, hp]
  exact fun c hcc hpp htt => hrun c hcc (hS.runs c hcc hpp htt)

end Flags

/-- No ready thread outranks thread `c`. -/
def Leads (s : State) (c : Tid) : Prop :=
  ∀ r, (s.threads r).stat = .ready → (s.threads c).priority ≤ (s.threads r).priority

/-- The state `s'` in which `n` has been chosen to run after state `s`: `n` is ready and outranked
by no ready thread, and no thread is running. -/
structure Picked (d : Set Tid) (s s' : State) (n : Tid) : Prop where
  consistent : ConsistentBut d s'
  ready : (s'.threads n).stat = .ready
  offDuty : ∀ t, (s'.threads t).stat ≠ .running
  leads : Leads s' n
  current : s'.current = s.current
  next : s'.next = s.next
  pendsv : s'.pendsv = s.pendsv
  trySwitch : s'.trySwitch = s.trySwitch
  offCpu : s'.offCpu = s.offCpu

section Picking

variable {d : Set Tid} {s : State} {c n : Tid}

/-- What the bitmap search finds in a consistent state.
kernel/nd_scheduler.c:84-91 -/
theorem ConsistentBut.highest (hJ : ConsistentBut d s) :
    (ndGetHighestPriorityThread s = none ∧ ∀ r, (s.threads r).stat ≠ .ready) ∨
      ∃ n, ndGetHighestPriorityThread s = some n ∧ (s.threads n).stat = .ready ∧ Leads s n := by
  have hon : ∀ r, (s.threads r).stat = .ready → s.queues.lists (.ready (s.threads r).priority) ≠
      [] :=
    fun r hr => List.ne_nil_of_mem ((s.queues.mem_iff _ _).mpr (hJ.home_ready hr))
  rcases ndGetHighestPriorityThread_spec hJ.books.bits with ⟨h, hall⟩ | ⟨p, hp, n, h, hn, hlow⟩
  · exact .inl ⟨h, fun r hr => hon r hr (hall _ (hJ.ok r).prio)⟩
  · obtain ⟨hst, hpr⟩ := hJ.ready_of_home hn
    refine .inr ⟨n, h, hst, fun r hr => ?_⟩
    rw [hpr]
    by_contra hlt
    exact hon r hr (hlow _ (by omega))

/-- What `nd_schedule_pick_next` writes to the control block of a thread that it preempts. -/
def requeueEdit (rr : Bool) (th : Thread) : Thread :=
  if rr ∧ th.timeSlice ≠ 0 then
    { th with stat := .ready, sliceLeft := th.timeSlice, sliceStart := 0 }
  else { th with stat := .ready }

/-- The end of `nd_schedule_pick_next` for a running thread.
kernel/nd_scheduler.c:131-146 -/
theorem requeueCurrent_eq (hJ : ConsistentBut d s) (hc : s.current = some c)
    (hrun : (s.threads c).stat = .running) (n : Tid) (rr : Bool) :
    requeueCurrent n rr s = s.readied c
      (fun _ => decide ((s.threads n).priority < (s.threads c).priority)) (requeueEdit rr) := by
  have hedit : (if rr = true ∧ ((s.updThread c fun th => { th with stat := .ready }).threads
        c).timeSlice ≠ 0 then
      (s.updThread c fun th => { th with stat := .ready }).updThread c fun th =>
        { th with sliceLeft := th.timeSlice, sliceStart := 0 }
      else s.updThread c fun th => { th with stat := .ready }) =
      s.updThread c (requeueEdit rr) := by
    unfold requeueEdit
    by_cases h : rr = true ∧ (s.threads c).timeSlice ≠ 0
    · simp [h, State.updThread]
    · simp [h, State.updThread]
  have hprio : (requeueEdit rr (s.threads c)).priority = (s.threads c).priority := by
    unfold requeueEdit
    split <;> rfl
  unfold requeueCurrent State.readied
  simp only [hc, if_pos hrun, hedit, hprio]
  rw [hJ.pulled_eq (by rw [hrun]; decide) (by rw [hrun]; decide)]
  have hlt := (hJ.ok c).prio
  by_cases h : (s.threads n).priority < (s.threads c).priority
  · simp only [if_pos h]
    rw [readyAddHead_eq (by simpa [hprio] using hlt)]
    simp [hprio, h]
  · simp only [if_neg h]
    rw [readyAddTail_eq (by simpa [hprio] using hlt)]
    simp [hprio, h]

/-- The current thread goes back to its ready list when it was running.
kernel/nd_scheduler.c:131-146 -/
theorem requeueCurrent_spec (hJ : ConsistentBut d s) (hc : s.current = some c)
    (hn : (s.threads n).stat = .ready) (hlead : Leads s n)
    (hle : (s.threads c).stat = .running → (s.threads n).priority ≤ (s.threads c).priority)
    (rr : Bool) : Picked d s (requeueCurrent n rr s) n := by
  by_cases hrun : (s.threads c).stat = .running
  · have hnc : n ≠ c := by
      rintro rfl
      rw [hn] at hrun
      cases hrun
    have hprio : (requeueEdit rr (s.threads c)).priority = (s.threads c).priority := by
      unfold requeueEdit
      split <;> rfl
    have hst : (requeueEdit rr (s.threads c)).stat = .ready := by
      unfold requeueEdit
      split <;> rfl
    rw [requeueCurrent_eq hJ hc hrun n rr]
    generalize (fun _ => decide ((s.threads n).priority < (s.threads c).priority) : Tid → Bool) =
      pos
    have hth : ∀ t, ((s.readied c pos (requeueEdit rr)).threads t).priority =
        (s.threads t).priority := by
      intro t
      by_cases ht : t = c
      · subst ht; simp [hprio]
      · simp [ht]
    refine
      { consistent := hJ.readied (by rw [hrun]; exact ⟨by decide, by decide⟩) pos hst
          (hprio ▸ (hJ.ok c).prio) ?_ ?_ ?_
        ready := by simpa [hnc] using hn
        offDuty := fun t ht => ?_
        leads := fun r hr => ?_
        current := rfl, next := rfl, pendsv := rfl, trySwitch := rfl
        offCpu := offCpu_readied ?_ ?_ }
    · unfold requeueEdit; split <;> rfl
    · unfold requeueEdit; split <;> rfl
    · unfold requeueEdit; split <;> rfl
    · by_cases htc : t = c
      · subst htc
        simp [hst] at ht
      · have hct := ((hJ.ok t).running (by simpa [htc] using ht)).1
        rw [hc] at hct
        exact htc (Option.some.inj hct).symm
    · rw [hth, hth]
      by_cases hrc : r = c
      · rw [hrc]; exact hle hrun
      · exact hlead r (by simpa [hrc] using hr)
    · rw [hJ.home_none (by rw [hrun]; decide) (by rw [hrun]; decide)]
      exact fun k hk => by cases hk
    · unfold requeueEdit Thread.offCpu
      split <;> simp [hrun, Stat.offCpu]
  · have he : requeueCurrent n rr s = s := by
      unfold requeueCurrent
      simp only [hc, if_neg hrun]
    rw [he]
    refine ⟨hJ, hn, fun t ht => ?_, hlead, rfl, rfl, rfl, rfl, rfl⟩
    have hct := ((hJ.ok t).running ht).1
    rw [hc] at hct
    cases hct
    exact hrun ht

/-- With a current thread, either it is running and leads, and runs on, or a successor is chosen.
kernel/nd_scheduler.c:93-149 -/
theorem pickNext_spec (hJ : ConsistentBut d s) (hc : s.current = some c) :
    (pickNext s = (none, false, s) ∧ (s.threads c).stat = .running ∧ Leads s c) ∨
      ∃ n rr s', pickNext s = (some n, rr, s') ∧ Picked d s s' n := by
  unfold pickNext
  rcases hJ.highest with ⟨h, hall⟩ | ⟨n, h, hn, hlead⟩
  · left
    have hidle : (s.threads idleTid).stat = .running :=
      ((hJ.ok idleTid).idle rfl).1.resolve_left (hall idleTid)
    have hci := ((hJ.ok idleTid).running hidle).1
    rw [hc] at hci
    cases hci
    rw [h]
    exact ⟨rfl, hidle, fun r hr => absurd hr (hall r)⟩
  · rw [h]
    unfold ndShouldSwitch
    simp only [hc]
    by_cases hlt : (s.threads n).priority < (s.threads c).priority
    · rw [if_pos hlt]
      exact .inr ⟨n, false, _, rfl, requeueCurrent_spec hJ hc hn hlead (fun _ => by omega) false⟩
    · rw [if_neg hlt]
      by_cases hyield : (s.threads n).priority = (s.threads c).priority ∧
          (s.threads c).yield = true
      · rw [if_pos hyield]
        have hJ' : ConsistentBut d (s.updThread c fun th => { th with yield := false }) :=
          hJ.inert {}
        have hstat : ∀ t, ((s.updThread c fun th => { th with yield := false }).threads t).stat =
            (s.threads t).stat := Inert.stat_updThread (t := c) {}
        have hoff : (s.updThread c fun th => { th with yield := false }).offCpu = s.offCpu :=
          offCpu_updThread rfl
        have hprio := priority_of_offCpu hoff
        have hpick := requeueCurrent_spec (n := n) hJ' hc (by rw [hstat]; exact hn)
          (fun r hr => by
            rw [hprio, hprio]
            exact hlead r (by rwa [hstat] at hr))
          (fun _ => by rw [hprio, hprio, hyield.1]) true
        exact .inr ⟨n, true, _, rfl, { hpick with offCpu := hpick.offCpu.trans hoff }⟩
      · rw [if_neg hyield]
        by_cases hrun : (s.threads c).stat = .running
        · rw [if_neg (by simpa using hrun)]
          refine .inl ⟨rfl, hrun, fun r hr => ?_⟩
          have := hlead r hr
          omega
        · rw [if_pos hrun]
          exact .inr ⟨n, false, _, rfl,
            requeueCurrent_spec hJ hc hn hlead (fun e => absurd e hrun) false⟩

end Picking

/-- Whatever the state, linking to a ready list is not seen. -/
theorem offCpu_link_ready (s : State) (pos : Tid → Bool) (p : ℕ) (t : Tid) :
    (s.listInsert pos (.ready p) t).offCpu = s.offCpu := by
  by_cases h : s.queues.home t = none
  · exact offCpu_listInsert h
  · have hq : s.queues.link pos (.ready p) t = s.queues := by
      simp [Intrusive.Queues.link, h]
    unfold State.offCpu State.listInsert
    simp only [hq]

/-- Whatever the state, adding a thread to a ready list is not seen. -/
theorem offCpu_readyAdd (s : State) (t : Tid) :
    (ndThreadReadyAddTail t s).offCpu = s.offCpu ∧
      (ndThreadReadyAddHead t s).offCpu = s.offCpu := by
  unfold ndThreadReadyAddTail ndThreadReadyAddHead
  by_cases h : ndThreadPriorityMax ≤ (s.threads t).priority
  · simp only [if_pos h, and_self]
  · simp only [if_neg h]
    exact ⟨offCpu_link_ready s _ _ t, offCpu_link_ready s _ _ t⟩

/-- Adding a thread to a ready list does not change the scheduling flags. -/
theorem flags_readyAdd (t : Tid) (s : State) :
    (ndThreadReadyAddTail t s).flags = s.flags ∧ (ndThreadReadyAddHead t s).flags = s.flags := by
  unfold ndThreadReadyAddTail ndThreadReadyAddHead
  by_cases h : ndThreadPriorityMax ≤ (s.threads t).priority
  · simp only [if_pos h, and_self]
  · simp only [if_neg h]
    exact ⟨rfl, rfl⟩

/-- Whatever the state, the current thread goes back to its list unseen. -/
theorem requeueCurrent_unseen (n : Tid) (rr : Bool) (s : State) :
    (requeueCurrent n rr s).offCpu = s.offCpu ∧ (requeueCurrent n rr s).flags = s.flags := by
  unfold requeueCurrent
  cases hc : s.current with
  | none => exact ⟨rfl, rfl⟩
  | some c =>
    by_cases hrun : (s.threads c).stat = .running
    · simp only [if_pos hrun]
      have hready : (s.updThread c fun th => { th with stat := .ready }).offCpu = s.offCpu :=
        offCpu_updThread (by simp [Thread.offCpu, Stat.offCpu, hrun])
      by_cases hlt : (s.threads n).priority < (s.threads c).priority
      · simp only [if_pos hlt, (offCpu_readyAdd _ c).2, (flags_readyAdd c _).2]
        split
        · exact ⟨(offCpu_updThread rfl).trans hready, rfl⟩
        · exact ⟨hready, rfl⟩
      · simp only [if_neg hlt, (offCpu_readyAdd _ c).1, (flags_readyAdd c _).1]
        split
        · exact ⟨(offCpu_updThread rfl).trans hready, rfl⟩
        · exact ⟨hready, rfl⟩
    · simp only [if_neg hrun, and_self]

/-- Whatever the state, `nd_schedule_pick_next` changes only what the scheduler decides. -/
theorem ndSchedulePickNext_unseen (s : State) :
    (ndSchedulePickNext s).2.offCpu = s.offCpu ∧ (ndSchedulePickNext s).2.flags = s.flags := by
  have hpick : (pickNext s).2.2.offCpu = s.offCpu ∧ (pickNext s).2.2.flags = s.flags := by
    unfold pickNext
    cases ndGetHighestPriorityThread s with
    | none => exact ⟨rfl, rfl⟩
    | some n =>
      unfold ndShouldSwitch
      cases hc : s.current with
      | none => exact ⟨rfl, rfl⟩
      | some c =>
        simp only
        by_cases h₁ : (s.threads n).priority < (s.threads c).priority
        · simp only [if_pos h₁]
          exact requeueCurrent_unseen n _ s
        · simp only [if_neg h₁]
          by_cases h₂ : (s.threads n).priority = (s.threads c).priority ∧
              (s.threads c).yield = true
          · simp only [if_pos h₂]
            obtain ⟨h, h'⟩ := requeueCurrent_unseen n true
              (s.updThread c fun th => { th with yield := false })
            exact ⟨h.trans (offCpu_updThread rfl), h'⟩
          · simp only [if_neg h₂]
            by_cases h₃ : (s.threads c).stat ≠ .running
            · simp only [if_pos h₃]
              exact requeueCurrent_unseen n _ s
            · simp only [if_neg h₃, and_self]
  exact hpick

/-- On a deferred port `nd_scheduler` comes back with the same current thread, whatever the state.
arch/arm/m3/context.S:21-41 -/
theorem ndScheduler_deferred {cfg : Config} (hport : cfg.port = .deferred) (s : State) :
    (ndScheduler cfg s).offCpu = s.offCpu ∧ (ndScheduler cfg s).current = s.current := by
  unfold ndScheduler
  split
  · exact ⟨rfl, rfl⟩
  · unfold ndScheduleCore
    obtain ⟨ho, hf⟩ := ndSchedulePickNext_unseen s
    cases hp : ndSchedulePickNext s with
    | mk next s' =>
      rw [hp] at ho hf
      have hc : s'.current = s.current := (congrArg Flags.current hf :)
      cases next with
      | none => exact ⟨ho, hc⟩
      | some n =>
        simp only [ndHwDoSwitch, hport]
        exact ⟨ho, hc⟩

/-! ## The time slices -/

/-- `s'` differs from `s` in the time slices and their timers only. -/
structure Sliced (s s' : State) : Prop where
  current : s'.current = s.current
  next : s'.next = s.next
  pendsv : s'.pendsv = s.pendsv
  trySwitch : s'.trySwitch = s.trySwitch
  picks : s'.picks = s.picks
  stat : ∀ t, (s'.threads t).stat = (s.threads t).stat
  offCpu : s'.offCpu = s.offCpu

section Slices

variable {d : Set Tid} {s s' s'' : State} {t u : Tid}

/-- Nothing changes. -/
theorem Sliced.refl (s : State) : Sliced s s := ⟨rfl, rfl, rfl, rfl, rfl, fun _ => rfl, rfl⟩

/-- Two changes of the slices, one after the other. -/
theorem Sliced.trans (h : Sliced s s') (h' : Sliced s' s'') : Sliced s s'' :=
  ⟨h'.current.trans h.current, h'.next.trans h.next, h'.pendsv.trans h.pendsv,
    h'.trySwitch.trans h.trySwitch, h'.picks.trans h.picks,
    fun t => (h'.stat t).trans (h.stat t), h'.offCpu.trans h.offCpu⟩

/-- A new slice for some thread. -/
theorem Sliced.updThread (s : State) (t : Tid) {f : Thread → Thread} (hf : Inert f (s.threads t))
    (ho : (f (s.threads t)).offCpu = (s.threads t).offCpu) : Sliced s (s.updThread t f) :=
  ⟨rfl, rfl, rfl, rfl, rfl, hf.stat_updThread, offCpu_updThread ho⟩

/-- `nd_timer_start` changes timers only.
kernel/nd_timer.c:186-208 -/
theorem Sliced.timerStart (cfg : Config) (s : State) (v : TimerId) :
    Sliced s (ndTimerStart cfg v s).1 := by
  by_cases h : (s.timers v).callback = .none
  · rw [timerStart_refused cfg h]; exact .refl s
  · rw [timerStart_eq cfg h]; exact ⟨rfl, rfl, rfl, rfl, rfl, fun _ => rfl, rfl⟩

/-- What a switch writes to the control block of the thread that it switches out. -/
def settleEdit (now : ℕ) (th : Thread) : Thread :=
  { th with
    sliceLeft :=
      if th.sliceStart ≠ 0 ∧ th.sliceLeft ≠ 0 then
        if th.sliceLeft ≤ (now + u64Size - th.sliceStart) % u64Size then 0
        else th.sliceLeft - (now + u64Size - th.sliceStart) % u64Size
      else th.sliceLeft
    sliceStart := 0 }

/-- The settlement of the slice of a thread that has one.
kernel/nd_scheduler.c:190-201 -/
theorem settleSlice_eq (now : ℕ) (h : (s.threads t).timeSlice ≠ 0) :
    settleSlice t now s = (ndTimerStop (.slice t) s).updThread t (settleEdit now) := by
  unfold settleSlice
  rw [if_pos h]
  by_cases hs : (s.threads t).sliceStart ≠ 0 ∧ (s.threads t).sliceLeft ≠ 0
  · have hedit : settleEdit now (s.threads t) =
        { s.threads t with
          sliceLeft :=
            if (s.threads t).sliceLeft ≤ (now + u64Size - (s.threads t).sliceStart) % u64Size then 0
            else (s.threads t).sliceLeft - (now + u64Size - (s.threads t).sliceStart) % u64Size
          sliceStart := 0 } := by
      unfold settleEdit
      rw [if_pos hs]
    simp only [if_pos hs, State.updThread, ndTimerStop, timerRemove, hedit, Function.update_self,
      Function.update_idem]
  · have hedit : settleEdit now (s.threads t) = { s.threads t with sliceStart := 0 } := by
      unfold settleEdit
      rw [if_neg hs]
    simp only [if_neg hs, State.updThread, ndTimerStop, timerRemove, hedit]

/-- Settling a slice changes slices only. -/
theorem Sliced.settleSlice (s : State) (t : Tid) (now : ℕ) : Sliced s (settleSlice t now s) := by
  by_cases h : (s.threads t).timeSlice = 0
  · unfold NerdRtos.settleSlice
    rw [if_neg (by simpa using h)]
    exact .refl s
  · rw [settleSlice_eq now h]
    exact ⟨rfl, rfl, rfl, rfl, rfl, Inert.stat_updThread (s := ndTimerStop (.slice t) s) {},
      offCpu_updThread (s := ndTimerStop (.slice t) s) rfl⟩

/-- Settling a slice beside a loose thread. -/
theorem Loose.settleSlice (h : Loose d t s) (u : Tid) (now : ℕ) :
    Loose d t (settleSlice u now s) := by
  by_cases hu : (s.threads u).timeSlice = 0
  · unfold NerdRtos.settleSlice
    rwa [if_neg (by simpa using hu)]
  · rw [settleSlice_eq now hu]
    exact (h.stopSlice u).inert {}

/-- Once the slice of the current thread is settled, no slice timer is armed. -/
theorem Books.no_slice (h : Books s) (hc : s.current = some t) (now : ℕ) (u : Tid) :
    (settleSlice t now s).isArmed (.slice u) = false := by
  by_cases hu : (s.threads t).timeSlice = 0
  · unfold NerdRtos.settleSlice
    rw [if_neg (by simpa using hu)]
    by_contra ha
    obtain ⟨he, hs⟩ := h.slices u (by simpa only [Bool.not_eq_false] using ha)
    rw [hc] at he
    cases he
    exact hs hu
  · rw [settleSlice_eq now hu]
    by_cases hut : u = t
    · simp [ndTimerStop, State.isArmed, hut]
    · have hkeep : ((ndTimerStop (.slice t) s).updThread t (settleEdit now)).isArmed (.slice u) =
          s.isArmed (.slice u) := by
        simp [ndTimerStop, State.isArmed, hut]
      rw [hkeep]
      by_contra ha
      obtain ⟨he, -⟩ := h.slices u (by simpa only [Bool.not_eq_false] using ha)
      rw [hc] at he
      exact hut (Option.some.inj he).symm

/-- Stopping a slice timer. -/
theorem ConsistentBut.stopSlice (hJ : ConsistentBut d s) (u : Tid) :
    ConsistentBut d (ndTimerStop (.slice u) s) := by
  refine hJ.of_timers rfl (by simp [ndTimerStop]) (fun _ => rfl) (fun v hv => ?_)
    hJ.books.sliceOneShot
  refine hJ.books.slices v ?_
  by_cases hvu : v = u
  · simp [ndTimerStop, State.isArmed, hvu] at hv
  · simpa [ndTimerStop, State.isArmed, hvu] using hv

/-- A new length for a slice timer. -/
theorem ConsistentBut.updTimer_slice (hJ : ConsistentBut d s) (u : Tid) {f : Timer → Timer}
    (hf : (f (s.timers (.slice u))).periodic = false) :
    ConsistentBut d (s.updTimer (.slice u) f) := by
  refine hJ.of_timers rfl (fun _ => rfl) (by simp) hJ.books.slices (fun v => ?_)
  by_cases hv : v = u
  · subst hv; simpa using hf
  · simpa [hv] using hJ.books.sliceOneShot v

/-- Starting the slice timer of the current thread. -/
theorem ConsistentBut.startSliceTimer (hJ : ConsistentBut d s) (cfg : Config)
    (hc : s.current = some u) (hts : (s.threads u).timeSlice ≠ 0) :
    ConsistentBut d (ndTimerStart cfg (.slice u) s).1 := by
  by_cases hcb : (s.timers (.slice u)).callback = .none
  · rwa [timerStart_refused cfg hcb]
  · rw [timerStart_eq cfg hcb]
    refine hJ.of_timers rfl (by simp) (by simp) (fun v hv => ?_) (fun v => ?_)
    · by_cases hvu : v = u
      · subst hvu; exact ⟨hc, hts⟩
      · exact hJ.books.slices v (by simpa [hvu] using hv)
    · by_cases hvu : v = u
      · subst hvu; simpa using hJ.books.sliceOneShot v
      · simpa [hvu] using hJ.books.sliceOneShot v

/-- The slice of the thread that is switched in.
kernel/nd_scheduler.c:208-224 -/
theorem ConsistentBut.startSlice (hJ : ConsistentBut d s) (cfg : Config)
    (hc : s.current = some u) (now : ℕ) :
    ConsistentBut d (startSlice cfg u now s) ∧ Sliced s (startSlice cfg u now s) := by
  unfold NerdRtos.startSlice
  by_cases hts : (s.threads u).timeSlice = 0
  · rw [if_neg (by simp [hts]), if_neg (by simpa using hts)]
    exact ⟨hJ, .refl s⟩
  split
  · -- the slice is reloaded when it is used up
    have hreload : ∃ s₁, (if (s.threads u).sliceLeft = 0 ∨
          (s.threads u).timeSlice < (s.threads u).sliceLeft then
        s.updThread u fun th => { th with sliceLeft := th.timeSlice } else s) = s₁ ∧
        ConsistentBut d s₁ ∧ Sliced s s₁ ∧ (s₁.threads u).timeSlice ≠ 0 := by
      split
      · exact ⟨_, rfl, hJ.inert {}, .updThread s u {} rfl, by simpa using hts⟩
      · exact ⟨_, rfl, hJ, .refl s, hts⟩
    obtain ⟨s₁, he, hJ₁, hS₁, hts₁⟩ := hreload
    simp only [he]
    set s₂ := ndTimerStop (.slice u) s₁ with hs₂
    have hJ₂ : ConsistentBut d s₂ := hJ₁.stopSlice u
    set s₃ := s₂.updTimer (.slice u) fun tm => { tm with timeout := (s₂.threads u).sliceLeft }
      with hs₃
    have hJ₃ : ConsistentBut d s₃ := hJ₂.updTimer_slice u (hJ₂.books.sliceOneShot u)
    set s₄ := s₃.updThread u fun th => { th with sliceStart := now } with hs₄
    have hJ₄ : ConsistentBut d s₄ := hJ₃.inert {}
    have hS₄ : Sliced s s₄ := hS₁.trans
      ⟨rfl, rfl, rfl, rfl, rfl, Inert.stat_updThread (s := s₃) {}, offCpu_updThread (s := s₃) rfl⟩
    exact ⟨hJ₄.startSliceTimer cfg (hS₄.current.trans hc)
      (by simpa [hs₄, hs₃, hs₂, ndTimerStop] using hts₁), hS₄.trans (.timerStart cfg s₄ _)⟩
  · exact ⟨(hJ.stopSlice u).inert {}, rfl, rfl, rfl, rfl, rfl,
      Inert.stat_updThread (s := ndTimerStop (.slice u) s) {},
      offCpu_updThread (s := ndTimerStop (.slice u) s) rfl⟩

end Slices

/-! ## Switching -/

/-- The state `s'` after the switch to thread `n` in state `s`. -/
structure Switched (d : Set Tid) (s s' : State) (n : Tid) : Prop where
  consistent : ConsistentBut d s'
  current : s'.current = some n
  running : (s'.threads n).stat = .running
  pendsv : s'.pendsv = false
  trySwitch : s'.trySwitch = s.trySwitch
  ready : ∀ r, (s'.threads r).stat = .ready → (s.threads r).stat = .ready
  offCpu : s'.offCpu = s.offCpu

section Switching

variable {d : Set Tid} {s : State} {n : Tid} {cfg : Config}

/-- Thread `n`, which is out, becomes the current thread. -/
theorem Loose.dispatch (h : Loose d n s) (hoff : ∀ t, t ≠ n → (s.threads t).stat ≠ .running)
    (hslice : ∀ u, s.isArmed (.slice u) = false) (hp : s.pendsv = false) :
    Loose d n { s with next := none, current := some n } where
  others u hu :=
    (h.others u hu).congr rfl rfl rfl rfl rfl (fun hr => absurd hr (hoff u hu))
      (fun hn => by cases hn) fun _ _ hl => hl
  prio := h.prio
  initPrio := h.initPrio
  oneShot := h.oneShot
  free := h.free
  unarmed := h.unarmed
  books :=
    { h.books with
      slices := fun u hu => by
        rw [show State.isArmed { s with next := none, current := some n } (.slice u) =
          s.isArmed (.slice u) from rfl, hslice u] at hu
        cases hu
      pending := fun hp' => by
        rw [show State.pendsv { s with next := none, current := some n } = s.pendsv from rfl,
          hp] at hp'
        cases hp' }

/-- `nd_context_switch_cb` to a ready thread, when no thread is running.
kernel/nd_scheduler.c:179-225 -/
theorem ndContextSwitchCb_spec (cfg : Config) (hJ : ConsistentBut d s)
    (hn : (s.threads n).stat = .ready) (hoff : ∀ t, (s.threads t).stat ≠ .running)
    (hp : s.pendsv = false) : Switched d s (ndContextSwitchCb cfg (some n) s) n := by
  have hlive : (s.threads n).stat.live := by rw [hn]; exact ⟨by decide, by decide⟩
  -- the slice of the thread that is switched out
  obtain ⟨s₁, he, hL₁, hS₁, hno⟩ : ∃ s₁, ndContextSwitchCb cfg (some n) s =
        startSlice cfg n (ndHwGetCurrent s)
          (State.updThread { s₁ with next := none, current := some n } n
            fun th => { th with stat := .running }) ∧
      Loose d n s₁ ∧ Sliced (s.pulled n) s₁ ∧ ∀ u, s₁.isArmed (.slice u) = false := by
    unfold ndContextSwitchCb
    simp only [hJ.readyRemove_eq hn]
    cases hc : s.current with
    | none =>
      refine ⟨_, rfl, hJ.pull n, .refl _, fun u => ?_⟩
      by_contra ha
      obtain ⟨he, -⟩ := (hJ.pull n).books.slices u (by simpa only [Bool.not_eq_false] using ha)
      rw [State.pulled_current, hc] at he
      cases he
    | some p =>
      exact ⟨_, rfl, (hJ.pull n).settleSlice p _, .settleSlice _ p _,
        (hJ.pull n).books.no_slice hc _⟩
  rw [he]
  have hstat₁ : ∀ t, (s₁.threads t).stat = (s.threads t).stat := hS₁.stat
  have hoff₁ : s₁.offCpu = s.offCpu :=
    hS₁.offCpu.trans (offCpu_pulled fun k hk => by
      rw [hJ.home_ready hn] at hk
      cases hk
      rfl)
  have hp₁ : s₁.pendsv = false := hS₁.pendsv.trans hp
  -- the new current thread
  have hL₂ := hL₁.dispatch (fun t _ => by rw [hstat₁]; exact hoff t) hno hp₁
  set s₂ : State := { s₁ with next := none, current := some n } with hs₂
  have hL₃ := hL₂.updThread (f := fun th => { th with stat := .running }) hL₂.prio hL₂.initPrio rfl
  set s₃ := s₂.updThread n fun th => { th with stat := .running } with hs₃
  have hstat₃ : (s₃.threads n).stat = .running := by simp [hs₃]
  have hoff₃ : s₃.offCpu = s.offCpu := by
    have hst : (s₂.threads n).stat = .ready := (hstat₁ n).trans hn
    have hedit : s₃.offCpu = s₂.offCpu :=
      offCpu_updThread (by simp [Thread.offCpu, Stat.offCpu, hst])
    exact hedit.trans hoff₁
  have hlisted : (s.threadList.home n).isSome = true := (hJ.ok n).listed.mpr hlive
  have hJ₃ : ConsistentBut d s₃ := by
    refine hL₃.park (by rw [hstat₃]; decide) (by rw [hstat₃]; decide)
      (.inr (by rw [hstat₃]; exact ⟨by decide, by decide⟩))
      ⟨fun _ => by rw [hstat₃]; exact ⟨by decide, by decide⟩, fun _ => ?_⟩
      (fun _ => ⟨rfl, hp₁⟩) (fun hn' => by cases hn') (fun hi => ⟨hstat₃, ?_⟩)
    · have hl : s₃.threadList = s.threadList := (congrArg State.threadList hoff₃ :)
      rw [hl]
      exact hlisted
    · have ho : (s₃.threads n).options = (s.threads n).options :=
        (congrArg (fun x => (x.threads n).options) hoff₃ :)
      have he := ((hJ.ok n).idle hi).2
      unfold ndIsThreadEssential at he ⊢
      rwa [ho]
  obtain ⟨hJ₄, hS₄⟩ := hJ₃.startSlice cfg (u := n) rfl (ndHwGetCurrent s)
  refine ⟨hJ₄, hS₄.current, (hS₄.stat n).trans hstat₃, hS₄.pendsv.trans hp₁,
    hS₄.trySwitch.trans hS₁.trySwitch, fun r hr => ?_, hS₄.offCpu.trans hoff₃⟩
  rw [hS₄.stat] at hr
  by_cases hrn : r = n
  · rw [hrn]; exact hn
  · rw [← hstat₁]
    simpa [hs₃, hrn] using hr

/-- The record of an evaluation that found a successor keeps the invariant. -/
theorem ConsistentBut.notePick (hJ : ConsistentBut d s) {ps : List Pick}
    (hps : ∀ k ∈ ps, k.stat ≠ .running → k.next ≠ none) :
    ConsistentBut d { s with picks := ps ++ s.picks } := by
  refine ⟨fun t => { hJ.ok t with }, { hJ.books with picks := fun k hk => ?_ }⟩
  rcases List.mem_append.mp hk with h | h
  · exact hps k h
  · exact hJ.books.picks k h

/-- `nd_schedule_pick_next` without a current thread finds nothing.
kernel/nd_scheduler.c:93-124 -/
theorem ndSchedulePickNext_none (hc : s.current = none) : ndSchedulePickNext s = (none, s) := by
  have hpick : pickNext s = (none, false, s) := by
    unfold pickNext ndShouldSwitch
    cases ndGetHighestPriorityThread s with
    | none => rfl
    | some n => simp only [hc]
  have hnote : notePick s none false = [] := by
    unfold notePick
    rw [hc]
  unfold ndSchedulePickNext
  rw [hpick]
  simp only [hnote, List.nil_append]

/-- With a current thread, `nd_schedule_pick_next` lets it run on, when it is running and leads, or
finds a successor; either way its evaluation is recorded.
kernel/nd_scheduler.c:118-149 -/
theorem ndSchedulePickNext_spec (hJ : ConsistentBut d s) {c : Tid} (hc : s.current = some c) :
    (∃ ps, ndSchedulePickNext s = (none, { s with picks := ps }) ∧
        ConsistentBut d { s with picks := ps } ∧ (s.threads c).stat = .running ∧ Leads s c) ∨
      ∃ n s', ndSchedulePickNext s = (some n, s') ∧ Picked d s s' n := by
  have hnote : ∀ next rr, notePick s next rr = [⟨c, (s.threads c).stat, (s.threads c).priority,
      (ndGetHighestPriorityThread s).map fun n => (n, (s.threads n).priority), next, rr⟩] := by
    intro next rr
    unfold notePick
    rw [hc]
  unfold ndSchedulePickNext
  rcases pickNext_spec hJ hc with ⟨h, hrun, hlead⟩ | ⟨n, rr, s', h, hP⟩
  · simp only [h, hnote]
    refine .inl ⟨_, rfl, hJ.notePick ?_, hrun, hlead⟩
    intro k hk
    rw [List.mem_singleton] at hk
    subst hk
    exact fun hst => absurd hrun hst
  · simp only [h, hnote]
    refine .inr ⟨n, _, rfl, { hP with consistent := hP.consistent.notePick ?_ }⟩
    intro k hk
    rw [List.mem_singleton] at hk
    subst hk
    exact fun _ => by simp

/-- Record the successor for the switch. -/
theorem ConsistentBut.setNext (hJ : ConsistentBut d s) (hn : (s.threads n).stat = .ready) :
    ConsistentBut d { s with next := some n } := by
  refine ⟨fun t => (hJ.ok t).congr rfl rfl rfl rfl rfl (hJ.ok t).running (fun ht => ?_)
    fun _ _ hl => hl, { hJ.books with pending := fun _ => by simp }⟩
  have he : n = t := Option.some.inj ht
  rw [← he]
  exact .inl hn

end Switching

/-! ## Scheduling -/

/-- The state `s'` after the scheduler has run in state `s`. -/
structure Scheduled (cfg : Config) (d : Set Tid) (s s' : State) : Prop where
  consistent : ConsistentBut d s'
  runs : ∀ c, s'.current = some c → s'.pendsv = false → (s'.threads c).stat = .running ∧ Leads s' c
  pendsv : cfg.port = .sync → s'.pendsv = false
  started : s'.current = none ↔ s.current = none
  main : s.current = none → s'.pendsv = s.pendsv
  deferred : cfg.port = .deferred → s'.current = s.current
  trySwitch : s'.trySwitch = s.trySwitch
  offCpu : s'.offCpu = s.offCpu

section Scheduling

variable {d : Set Tid} {s s₁ : State} {n c : Tid} {cfg : Config}

/-- A switch on the spot is scheduling.
kernel/nd_scheduler.c:179-225 -/
theorem Switched.scheduled (h : Switched d s₁ (ndContextSwitchCb cfg (some n) s₁) n)
    (hport : cfg.port = .sync) (hlead : Leads s₁ n) (hc : s.current = some c)
    (ht : s₁.trySwitch = s.trySwitch) (ho : s₁.offCpu = s.offCpu) :
    Scheduled cfg d s (ndContextSwitchCb cfg (some n) s₁) where
  consistent := h.consistent
  runs c' hc' _ := by
    have he : n = c' := Option.some.inj (h.current.symm.trans hc')
    subst he
    refine ⟨h.running, fun r hr => ?_⟩
    rw [priority_of_offCpu h.offCpu, priority_of_offCpu h.offCpu]
    exact hlead r (h.ready r hr)
  pendsv _ := h.pendsv
  started := by simp [h.current, hc]
  main hn := by rw [hc] at hn; cases hn
  deferred hd := by rw [hport] at hd; cases hd
  trySwitch := h.trySwitch.trans ht
  offCpu := h.offCpu.trans ho

/-- Nothing to do: the current thread is running and leads. -/
theorem ConsistentBut.stays (cfg : Config) (hJ : ConsistentBut d s) (hc : s.current = some c)
    (hrun : (s.threads c).stat = .running) (hlead : Leads s c) {ps : List Pick}
    (hJ' : ConsistentBut d { s with picks := ps }) :
    Scheduled cfg d s { s with picks := ps } where
  consistent := hJ'
  runs c' hc' _ := by
    have he : c = c' := Option.some.inj (hc.symm.trans hc')
    subst he
    exact ⟨hrun, hlead⟩
  pendsv _ := ((hJ.ok c).running hrun).2
  started := Iff.rfl
  main _ := rfl
  deferred _ := rfl
  trySwitch := rfl
  offCpu := rfl

/-- `nd_schedule_core`.
kernel/nd_scheduler.c:151-162 -/
theorem ndScheduleCore_spec (hJ : ConsistentBut d s)
    (hsync : cfg.port = .sync → s.pendsv = false) : Scheduled cfg d s (ndScheduleCore cfg s) := by
  unfold ndScheduleCore
  cases hc : s.current with
  | none =>
    rw [ndSchedulePickNext_none hc]
    exact ⟨hJ, fun c hc' => (by rw [hc] at hc'; cases hc'), hsync, Iff.rfl, fun _ => rfl,
      fun _ => rfl, rfl, rfl⟩
  | some c =>
    rcases ndSchedulePickNext_spec hJ hc with ⟨ps, h, hJ', hrun, hlead⟩ | ⟨n, s', h, hP⟩
    · rw [h]
      exact hJ.stays cfg hc hrun hlead hJ'
    · rw [h]
      simp only [ndHwDoSwitch]
      cases hport : cfg.port with
      | sync =>
        have hsw := ndContextSwitchCb_spec cfg (hP.consistent.setNext hP.ready) hP.ready
          hP.offDuty (hP.pendsv.trans (hsync hport))
        exact hsw.scheduled hport hP.leads hc hP.trySwitch hP.offCpu
      | deferred =>
        have hJ' := hP.consistent.setNext hP.ready
        refine
          { consistent := ⟨fun t => { hJ'.ok t with
                running := fun hr => absurd hr (hP.offDuty t) },
              { hJ'.books with pending := fun _ => by simp }⟩
            runs := fun c' _ hp => by cases hp
            pendsv := fun hs => by rw [hport] at hs; cases hs
            started := by rw [show State.current _ = s'.current from rfl, hP.current]
            main := fun hn => by rw [hc] at hn; cases hn
            deferred := fun _ => hP.current
            trySwitch := hP.trySwitch
            offCpu := hP.offCpu }

/-- `nd_scheduler`, called with every thread in one piece.
kernel/nd_scheduler.c:227-235 -/
theorem ndScheduler_spec (hJ : ConsistentBut d s) (hA : Ambient cfg s) :
    ConsistentBut d (ndScheduler cfg s) ∧ Settled cfg (ndScheduler cfg s) ∧
      (ndScheduler cfg s).offCpu = s.offCpu := by
  unfold ndScheduler
  by_cases hn : 0 < s.nest
  · rw [if_pos hn]
    refine ⟨hJ.of_core rfl, ⟨⟨fun h0 => ?_, hA.sync, fun hc => ?_⟩,
      fun c _ _ ht => by cases ht⟩, rfl⟩
    · exact absurd h0 (by simpa using hn.ne')
    · exact hA.main hc
  · rw [if_neg hn]
    have hS := ndScheduleCore_spec hJ hA.sync
    have hnest : (ndScheduleCore cfg s).nest = s.nest := nest_of_offCpu hS.offCpu
    have hflag : (ndScheduleCore cfg s).trySwitch = false :=
      hS.trySwitch.trans (hA.flag (by omega))
    refine ⟨hS.consistent, ⟨⟨fun _ => hflag, hS.pendsv, fun hc => ?_⟩, fun c hc hp _ => ?_⟩,
      hS.offCpu⟩
    · have hc' := hS.started.mp hc
      exact ⟨by omega, (hS.main hc').trans (hA.main hc').2⟩
    · exact (hS.runs c hc hp).1

end Scheduling

end NerdRtos
