import NerdRtos.Analysis.CpuTurns
import NerdRtos.Analysis.Deadlines

/-!
# The slice across preemptions

A thread that is preempted goes on with the rest of its slice when it is dispatched again. `Stints`
are the runs in which a thread is dispatched beside ready threads of its priority and preempted by
threads of a higher one, any number of times. `slice_accounting_iff`: the slice timer is set to the
slice less all the time that the thread has run, except that time which began at clock value 0 is
not counted: there, `slice_start` says that the slice has not begun.
-/

set_option autoImplicit false

namespace NerdRtos

variable {cfg : Config} {s s' : State} {a : Action} {t n : Tid} {l : List (ℕ × ℕ)} {now : ℕ}

/-! ## Statement -/

/-- No part of the slice is used up. -/
def WholeSlice (s : State) (t : Tid) : Prop :=
  (s.threads t).sliceLeft = 0 ∨
    (s.threads t).timeSlice ≤ (s.threads t).sliceLeft ∧
      (s.current = some t → (s.threads t).sliceStart = 0)

/-- Thread `t` is dispatched beside a ready thread of its priority. -/
structure Dispatched (s s' : State) (t : Tid) : Prop where
  off : (s.threads t).stat ≠ .running
  on : (s'.threads t).stat = .running
  peer : s'.queues.lists (.ready (s'.threads t).priority) ≠ []

/-- Thread `t` stays on the processor, at most to give way to a thread of a higher priority, and its
slice timer does not expire. -/
structure StaysOn (s : State) (a : Action) (s' : State) (t : Tid) : Prop where
  current : s'.current = some t
  timer : a = .timerFire → leftmostTimer s ≠ some (.slice t)
  stat : (s.threads t).stat = .running ∧ (s'.threads t).stat = .running ∨
    (s'.threads t).stat = .ready ∧ ((s.threads t).stat = .ready ∨
      ∃ n ∈ s'.next, (s'.threads n).priority < (s'.threads t).priority)

/-- Thread `t` is switched out in favour of a thread of a higher priority. -/
structure Preempted (s s' : State) (t : Tid) : Prop where
  stat : (s'.threads t).stat = .ready
  higher : ∃ n ∈ s'.current, n ≠ t ∧
    ((s.threads t).stat = .ready ∨ (s'.threads n).priority < (s'.threads t).priority)

/-- The runs that thread `t` begins with a whole slice. The list has the times between which it has
run, the last ones first, and with `some d` it is on the processor since `d`. -/
inductive Stints (cfg : Config) (t : Tid) : State → List (ℕ × ℕ) → Option ℕ → Prop
  | first {s : State} (a : Action) (hr : (kernel cfg).Reach Machine.Always s)
      (ha : (kernel cfg).enabled s a)
      (hw : WholeSlice s t ∨ a.creates = some t) (hd : Dispatched s (exec cfg a s) t) :
      Stints cfg t (exec cfg a s) [] (some s.clock)
  | stays {s : State} {l : List (ℕ × ℕ)} {d : ℕ} (a : Action) (hs : Stints cfg t s l (some d))
      (ha : (kernel cfg).enabled s a) (hclock : s.clock ≤ (exec cfg a s).clock)
      (hk : StaysOn s a (exec cfg a s) t) : Stints cfg t (exec cfg a s) l (some d)
  | leaves {s : State} {l : List (ℕ × ℕ)} {d : ℕ} (a : Action) (hs : Stints cfg t s l (some d))
      (ha : (kernel cfg).enabled s a) (hp : Preempted s (exec cfg a s) t) :
      Stints cfg t (exec cfg a s) ((d, s.clock) :: l) none
  | waits {s : State} {l : List (ℕ × ℕ)} (a : Action) (hs : Stints cfg t s l none)
      (ha : (kernel cfg).enabled s a) (hclock : s.clock ≤ (exec cfg a s).clock)
      (hc : (exec cfg a s).current ≠ some t) (hst : ((exec cfg a s).threads t).stat = .ready) :
      Stints cfg t (exec cfg a s) l none
  | again {s : State} {l : List (ℕ × ℕ)} (a : Action) (hs : Stints cfg t s l none)
      (ha : (kernel cfg).enabled s a) (hd : Dispatched s (exec cfg a s) t) :
      Stints cfg t (exec cfg a s) l (some s.clock)
  | returns {s : State} {l : List (ℕ × ℕ)} {d : ℕ} (a : Action) (hs : Stints cfg t s l (some d))
      (ha : (kernel cfg).enabled s a) (hd : Dispatched s (exec cfg a s) t) :
      Stints cfg t (exec cfg a s) ((d, s.clock) :: l) (some s.clock)

/-- How long the thread has run. -/
def timeRun (l : List (ℕ × ℕ)) : ℕ := (l.map fun i => i.2 - i.1).sum

/-- The slice timer of thread `t` was set to `k` at `d`. -/
def SliceTimerSet (cfg : Config) (s : State) (t : Tid) (d k : ℕ) : Prop :=
  s.isArmed (.slice t) = true ∧ (s.threads t).sliceLeft = k ∧
    (s.timers (.slice t)).expireTime = expiry cfg d k

/-! ## The slice of a job -/

namespace Job

/-- What the slice of a job depends on. -/
def slice (j : Job) : Job := { j with priority := 0, stat := .init, yield := false }

end Job

namespace Cpu

/-- Settling depends on nothing but the slice. -/
theorem settle_slice (now : ℕ) (j : Job) : (settle now j).slice = settle now j.slice := by
  by_cases hts : j.timeSlice = 0
  · have hts' : j.slice.timeSlice = 0 := hts
    unfold settle
    rw [if_neg (not_not.mpr hts), if_neg (not_not.mpr hts')]
  · have hts' : j.slice.timeSlice ≠ 0 := hts
    unfold settle
    rw [if_pos hts, if_pos hts']
    rfl

/-- Beginning depends on nothing but the slice. -/
theorem begin_slice (now : ℕ) (peers : List Tid) (j : Job) :
    (begin cfg now peers j).slice = begin cfg now peers j.slice := by
  by_cases hts : j.timeSlice = 0
  · have hts' : j.slice.timeSlice = 0 := hts
    unfold begin
    rw [if_pos hts, if_pos hts']
  · have hts' : ¬ j.slice.timeSlice = 0 := hts
    unfold begin
    rw [if_neg hts, if_neg hts']
    split <;> rfl

/-- The slice that a thread is switched in with. -/
def brought (now : ℕ) (c : Cpu) (t : Tid) : Job :=
  if c.current = some t then settle now (c.jobs t).slice else (c.jobs t).slice

/-- What the scheduler makes of thread `t`. -/
inductive Share (cfg : Config) (now : ℕ) (t : Tid) (x c : Cpu) : Prop
  | stays (hc : c.current = x.current) (hs : (c.jobs t).slice = (x.jobs t).slice)
      (hst : (c.jobs t).stat = (x.jobs t).stat ∨ (x.jobs t).stat = .running ∧
        (c.jobs t).stat = .ready)
  | rotates {n : Tid} (hrun : (x.jobs t).stat = .running) (hst : (c.jobs t).stat = .ready)
      (hn : c.current = some n ∧ n ≠ t ∨ c.current = x.current ∧ c.next = some n)
      (heq : (c.jobs n).priority = (c.jobs t).priority)
  | leaves {n : Tid} (hn : n ≠ t) (hc : c.current = some n)
      (hs : (c.jobs t).slice = x.brought now t)
      (hst : (c.jobs t).stat = (x.jobs t).stat ∨ (x.jobs t).stat = .running ∧
        (c.jobs t).stat = .ready)
  | comes (hr : (x.jobs t).stat = .ready) (hst : (c.jobs t).stat = .running)
      (hc : c.current = some t) (hclock : c.clock = now)
      (hs : (c.jobs t).slice = begin cfg now (c.ready (c.jobs t).priority) (x.brought now t))

variable {c c' x : Cpu}

/-- The thread that is dispatched is the current one. -/
theorem dispatch_current (cfg : Config) (n : Tid) (c : Cpu) :
    (c.dispatch cfg n).current = some n := by
  rw [dispatch_frame]

/-- A dispatch takes no time. -/
theorem dispatch_clock (cfg : Config) (n : Tid) (c : Cpu) : (c.dispatch cfg n).clock = c.clock := by
  rw [dispatch_frame]

/-- A switch to another thread. -/
theorem dispatch_slice_of_ne (cfg : Config) (hn : n ≠ t) :
    ((c.dispatch cfg n).jobs t).slice = c.brought c.clock t := by
  rw [dispatch_jobs_of_ne cfg c hn.symm]
  unfold brought
  by_cases hc : c.current = some t
  · rw [if_pos hc, if_pos hc, settle_slice]
  · rw [if_neg hc, if_neg hc]

/-- A switch to the thread. -/
theorem dispatch_slice_self (cfg : Config) (c : Cpu) (t : Tid) : ((c.dispatch cfg t).jobs t).slice =
    begin cfg c.clock ((c.dispatch cfg t).ready ((c.dispatch cfg t).jobs t).priority)
      (c.brought c.clock t) := by
  have hready : (c.dispatch cfg t).ready (c.jobs t).priority =
      (c.ready (c.jobs t).priority).erase t := by
    rw [dispatch_frame]
  rw [dispatch_priority, hready, dispatch_jobs_self, begin_slice]
  congr 1
  unfold brought
  by_cases hc : c.current = some t
  · rw [if_pos hc, if_pos hc, ← settle_slice]
    rfl
  · rw [if_neg hc, if_neg hc]
    rfl

/-- The thread that is dispatched runs. -/
theorem dispatch_stat_self (cfg : Config) (c : Cpu) (t : Tid) :
    ((c.dispatch cfg t).jobs t).stat = .running := by
  rw [dispatch_jobs_self]
  exact begin_same Job.stat (fun _ _ _ _ => rfl) _ _ _

/-- A dispatch changes the state of no other thread. -/
theorem dispatch_stat_of_ne (cfg : Config) (hn : n ≠ t) :
    ((c.dispatch cfg n).jobs t).stat = (c.jobs t).stat := by
  rw [dispatch_jobs_of_ne cfg c hn.symm]
  split
  · exact settle_same Job.stat (fun _ _ _ _ => rfl) _ _
  · rfl

/-- An evaluation leaves the slice alone, unless it rotates. -/
theorem Verdict.slice {u : Tid} {next : Option Tid} (h : c.Verdict u next c') :
    ((c'.jobs t).slice = (c.jobs t).slice ∧
        ((c'.jobs t).stat = (c.jobs t).stat ∨ (c.jobs t).stat = .running ∧
          (c'.jobs t).stat = .ready)) ∨
      (c.jobs t).stat = .running ∧ (c'.jobs t).stat = .ready ∧
        ∃ n, next = some n ∧ c.First n ∧ (c'.jobs n).priority = (c'.jobs t).priority := by
  have hset : ∀ j : Job, j.slice = (c.jobs u).slice →
      (j.stat = (c.jobs u).stat ∨ (c.jobs u).stat = .running ∧ j.stat = .ready) →
      (Function.update c.jobs u j t).slice = (c.jobs t).slice ∧
        ((Function.update c.jobs u j t).stat = (c.jobs t).stat ∨
          (c.jobs t).stat = .running ∧ (Function.update c.jobs u j t).stat = .ready) := by
    intro j hj hst
    by_cases htu : t = u
    · subst htu
      rw [Function.update_self]
      exact ⟨hj, hst⟩
    · rw [Function.update_of_ne htu]
      exact ⟨rfl, .inl rfl⟩
  cases h with
  | runsOn hrun hlead hpeer => exact .inl ⟨rfl, .inl rfl⟩
  | preempts hrun hn hlt => exact .inl (hset _ rfl (.inr ⟨hrun, rfl⟩))
  | @rotates n hrun hn heq hy =>
    by_cases htu : t = u
    · subst htu
      have hprio : ∀ v, (Function.update c.jobs t (rotateEdit (c.jobs t)) v).priority =
          (c.jobs v).priority :=
        update_same Job.priority rfl
      have hstat : (Function.update c.jobs t (rotateEdit (c.jobs t)) t).stat = .ready := by
        rw [Function.update_self]
        rfl
      exact .inr ⟨hrun, hstat, n, rfl, hn, ((hprio n).trans heq).trans (hprio t).symm⟩
    · left
      show (Function.update c.jobs u _ t).slice = _ ∧
        ((Function.update c.jobs u _ t).stat = _ ∨ _ ∧ (Function.update c.jobs u _ t).stat = _)
      rw [Function.update_of_ne htu]
      exact ⟨rfl, .inl rfl⟩
  | leaves hst hn hrr => exact .inl (hset _ rfl (.inl rfl))

/-- A decision. -/
theorem Decides.share (hok : c.Ok) (h : Cpu.Decides cfg c c') : Share cfg c.clock t c c' := by
  have hready : ∀ {n : Tid}, c.First n → (c.jobs n).stat = .ready := fun hn =>
    ((hok.mem _ _).mp (List.mem_of_head? hn.head)).1
  cases h with
  | idle hc => exact .stays rfl rfl (.inl rfl)
  | stays hc h =>
    rcases h.slice (t := t) with ⟨hs, hst⟩ | ⟨-, -, n, hn, -⟩
    · exact .stays (by rw [h.frame]) hs hst
    · cases hn
  | @pends u n x hport hc h =>
    rcases h.slice (t := t) with ⟨hs, hst⟩ | ⟨hrun, hst, m, hm, -, heq⟩
    · exact .stays (by rw [h.frame]) hs hst
    · exact .rotates hrun hst (.inr ⟨by rw [h.frame], hm⟩) heq
  | @switches u n x hport hc h =>
    have hfirst : c.First n := by
      cases h with
      | preempts _ hn _ => exact hn
      | rotates _ hn _ _ => exact hn
      | leaves _ hn _ => exact hn
    have hcur : x.current = c.current := by rw [h.frame]
    have hclock : x.clock = c.clock := by rw [h.frame]
    rcases h.slice (t := t) with ⟨hs, hst⟩ | ⟨hrun, hst, m, hm, -, heq⟩
    · have hbrought : x.brought c.clock t = c.brought c.clock t := by
        unfold brought
        rw [hs, hcur]
      by_cases hnt : n = t
      · subst hnt
        refine .comes (hready hfirst) (dispatch_stat_self cfg x n) (dispatch_current cfg n x)
          ((dispatch_clock cfg n x).trans hclock) ?_
        rw [dispatch_slice_self, hclock, hbrought]
      · refine .leaves hnt (dispatch_current cfg n x) ?_ ?_
        · rw [dispatch_slice_of_ne cfg hnt, hclock, hbrought]
        · rw [dispatch_stat_of_ne cfg hnt]
          exact hst
    · have hnm : n = m := Option.some.inj hm
      subst hnm
      have hnt : n ≠ t := by
        rintro rfl
        rw [hready hfirst] at hrun
        cases hrun
      refine .rotates hrun ?_ (.inl ⟨dispatch_current cfg n x, hnt⟩) ?_
      · rw [dispatch_stat_of_ne cfg hnt]
        exact hst
      · rw [dispatch_priority, dispatch_priority]
        exact heq

end Cpu

/-- The second part of a step. -/
theorem Ending.share {x c : Cpu} (h : Ending cfg a now x c) : Cpu.Share cfg now t x c := by
  cases h with
  | rests hjobs hready hc => exact .stays hc (by rw [hjobs]) (.inl (by rw [hjobs]))
  | decides hclock hok h =>
    rw [← hclock]
    exact h.share hok
  | @switches n hclock hr hwhy =>
    rw [← hclock]
    by_cases hnt : n = t
    · subst hnt
      exact .comes hr (Cpu.dispatch_stat_self cfg x n) (Cpu.dispatch_current cfg n x)
        (Cpu.dispatch_clock cfg n x)
        (Cpu.dispatch_slice_self cfg x n)
    · exact .leaves hnt (Cpu.dispatch_current cfg n x) (Cpu.dispatch_slice_of_ne cfg hnt)
        (.inl (Cpu.dispatch_stat_of_ne cfg hnt))

/-- Before the scheduler acts the current thread is the same. -/
theorem Prelude.current {x : Cpu} (h : Prelude s a x) : x.current = s.current := by
  cases h with
  | moves ha hm hjobs hready hc => exact hc
  | creates ha hst hc => rfl
  | yields ha hc hrun => rfl
  | expires ha hl hc hcb hpeers => rfl
  | lapses ha hl hc hwhy => rfl

/-- The first part of a step leaves the slice of a ready or running thread alone, or ends its
turn. -/
theorem Prelude.slice {x : Cpu} (h : Prelude s a x)
    (hst : (s.threads t).stat = .ready ∨ (s.threads t).stat = .running)
    (htimer : a = .timerFire → leftmostTimer s ≠ some (.slice t)) :
    ((x.jobs t).slice = (s.job t).slice ∧ (x.jobs t).stat = (s.threads t).stat) ∨
      (x.jobs t).stat ≠ .ready ∧ (x.jobs t).stat ≠ .running := by
  cases h with
  | moves ha hm hjobs hready hc =>
    rw [hjobs]
    rcases hm.runnable hst with ⟨p, hp⟩ | hg
    · rw [hp]
      exact .inl ⟨rfl, rfl⟩
    · exact .inr hg.not_runnable
  | @creates u b ha hdead hc =>
    left
    have htu : t ≠ u := by
      rintro rfl
      rcases hst with h | h <;> rw [h] at hdead <;> rcases hdead with h | h <;> cases h
    show (Function.update s.job u _ t).slice = _ ∧ (Function.update s.job u _ t).stat = _
    rw [Function.update_of_ne htu]
    exact ⟨rfl, rfl⟩
  | @yields u ha hc hrun =>
    refine .inl ⟨Cpu.update_same Job.slice ?_ t, Cpu.update_same Job.stat ?_ t⟩
    · rfl
    · rfl
  | @expires u ha hl hc hcb hpeers =>
    left
    have htu : t ≠ u := by
      rintro rfl
      exact htimer ha hl
    show (Function.update s.job u _ t).slice = _ ∧ (Function.update s.job u _ t).stat = _
    rw [Function.update_of_ne htu]
    exact ⟨rfl, rfl⟩
  | @lapses u ha hl hc hwhy =>
    left
    have htu : t ≠ u := by
      rintro rfl
      exact htimer ha hl
    show (Function.update s.job u _ t).slice = _ ∧ (Function.update s.job u _ t).stat = _
    rw [Function.update_of_ne htu]
    exact ⟨rfl, rfl⟩

/-- A step, in its two parts. -/
theorem exec_share (hr : (kernel cfg).Reach Machine.Always s) (ha : (kernel cfg).enabled s a)
    (t : Tid) :
    ∃ x, Prelude s a x ∧ Cpu.Share cfg s.clock t x (exec cfg a s).cpu := by
  have hS := reach_sound hr
  obtain ⟨x, hx, he⟩ := (exec_turn hS ha.1 ha.2).split hS.consistent.cpu_ok
  exact ⟨x, hx, he.share⟩

/-! ## The length of a slice and its callback -/

/-- What only the creation of a thread sets. -/
def Job.quantum (j : Job) : ℕ × Callback := (j.timeSlice, j.callback)

namespace Cpu

variable {c c' : Cpu}

/-- Moves set up no slice length and no callback. -/
theorem Moves.quantum (h : Moves a c c') (u : Tid) : (c'.jobs u).quantum = (c.jobs u).quantum := by
  refine h.induction (I := fun x => (x.jobs u).quantum = (c.jobs u).quantum)
    rfl fun x y _ _ hx hm => ?_
  rw [← hx]
  cases hm <;> refine update_same Job.quantum ?_ u <;> rfl

/-- A dispatch sets up no slice length and no callback. -/
theorem dispatch_quantum (cfg : Config) (c : Cpu) (n u : Tid) :
    ((c.dispatch cfg n).jobs u).quantum = (c.jobs u).quantum :=
  dispatch_same Job.quantum (settle_same _ fun _ _ _ _ => rfl) (fun _ => rfl)
    (begin_same _ fun _ _ _ _ => rfl) c n u

/-- A verdict sets up no slice length and no callback. -/
theorem Verdict.quantum {next : Option Tid} (h : c.Verdict t next c') (u : Tid) :
    (c'.jobs u).quantum = (c.jobs u).quantum := by
  cases h with
  | runsOn hrun hlead hpeer => rfl
  | preempts hrun hn hlt =>
    exact update_same Job.quantum (j := { c.jobs t with stat := .ready }) rfl u
  | rotates hrun hn heq hy => exact update_same Job.quantum (j := rotateEdit (c.jobs t)) rfl u
  | @leaves n rr hst hn hrr =>
    exact update_same Job.quantum (j := { c.jobs t with yield := !rr && (c.jobs t).yield }) rfl u

/-- A decision sets up no slice length and no callback. -/
theorem Decides.quantum (h : Cpu.Decides cfg c c') (u : Tid) :
    (c'.jobs u).quantum = (c.jobs u).quantum := by
  cases h with
  | idle h => rfl
  | stays hcur h => exact h.quantum u
  | switches hport hcur h => exact (dispatch_quantum cfg _ _ u).trans (h.quantum u)
  | pends hport hcur h => exact h.quantum u

end Cpu

/-- The scheduler sets up no slice length and no callback. -/
theorem Ending.quantum {x c : Cpu} (h : Ending cfg a now x c) (u : Tid) :
    (c.jobs u).quantum = (x.jobs u).quantum := by
  cases h with
  | rests hjobs hready hc => rw [hjobs]
  | decides hclock hok h => exact h.quantum u
  | switches hclock hr hwhy => exact Cpu.dispatch_quantum cfg _ _ u

/-- Only the creation of a thread sets up a slice length, and the callback with it. -/
theorem Prelude.quantum {x : Cpu} (h : Prelude s a x) (u : Tid) :
    (x.jobs u).quantum = (s.job u).quantum ∨
    ((s.threads u).stat = .init ∨ (s.threads u).stat = .dead) ∧
      (x.jobs u).callback = .sliceTimeout := by
  cases h with
  | moves ha hm hjobs hready hcur =>
    rw [hjobs]
    exact .inl (hm.quantum u)
  | @creates t b ha hst hcur =>
    by_cases hut : u = t
    · subst hut
      right
      refine ⟨hst, ?_⟩
      show (Function.update s.job u (Job.create b) u).callback = _
      rw [Function.update_self]
      rfl
    · left
      show (Function.update s.job t _ u).quantum = _
      rw [Function.update_of_ne hut]
  | @yields t ha hcur hrun =>
    exact .inl (Cpu.update_same Job.quantum (j := { s.job t with yield := true }) rfl u)
  | @expires t ha hl hcur hcb hpeers =>
    exact .inl (Cpu.update_same Job.quantum (j := (s.job t).expire) rfl u)
  | @lapses t ha hl hcur hwhy =>
    exact .inl (Cpu.update_same Job.quantum (j := { s.job t with deadline := none }) rfl u)

/-- The length of the slice of a ready or running thread does not change. -/
theorem exec_timeSlice (hr : (kernel cfg).Reach Machine.Always s) (ha : (kernel cfg).enabled s a)
    (hst : (s.threads t).stat = .ready ∨ (s.threads t).stat = .running) :
    ((exec cfg a s).threads t).timeSlice = (s.threads t).timeSlice := by
  have hS := reach_sound hr
  obtain ⟨x, hx, he⟩ := (exec_turn hS ha.1 ha.2).split hS.consistent.cpu_ok
  rcases hx.quantum t with hq | ⟨hnew, -⟩
  · exact congrArg Prod.fst ((he.quantum t).trans hq)
  · rcases hst with h | h <;> rw [h] at hnew <;> rcases hnew with h | h <;> cases h

/-- The slice timers that are in use call `nd_thread_slice_timeout`. -/
theorem reach_callback (h : (kernel cfg).Reach Machine.Always s) :
    ∀ t, (s.job t).timeSlice ≠ 0 → (s.job t).callback = .sliceTimeout := by
  refine h.induction (I := fun s => ∀ t, (s.job t).timeSlice ≠ 0 →
    (s.job t).callback = .sliceTimeout) ?_
    fun s a hr ih ha _ => ?_
  · rintro s ⟨u, rfl⟩ t ht
    have hboot : (boot cfg u).job t = Function.update (initObjects u).job idleTid
        (Job.create idleArgs) t :=
      congrArg (fun c : Cpu => c.jobs t) (cpu_boot cfg u)
    rw [hboot] at ht ⊢
    by_cases hi : t = idleTid
    · subst hi
      rw [Function.update_self]
      rfl
    · rw [Function.update_of_ne hi] at ht
      exact absurd rfl ht
  · have hS := reach_sound hr
    obtain ⟨x, hx, he⟩ := (exec_turn hS ha.1 ha.2).split hS.consistent.cpu_ok
    intro t ht
    have hend : ((exec cfg a s).job t).quantum = (x.jobs t).quantum := he.quantum t
    have hcallback : ((exec cfg a s).job t).callback = (x.jobs t).callback := congrArg Prod.snd hend
    show ((exec cfg a s).job t).callback = .sliceTimeout
    rw [hcallback]
    rcases hx.quantum t with hq | ⟨-, hcb⟩
    · have hslice : ((exec cfg a s).job t).timeSlice = (s.job t).timeSlice :=
        congrArg Prod.fst (hend.trans hq)
      exact (congrArg Prod.snd hq).trans (ih t (hslice ▸ ht))
    · exact hcb

/-! ## A new slice -/

namespace Cpu

variable {c c' : Cpu}

/-- Nothing of the slice of thread `t` is used up. -/
def Fresh (t : Tid) (c : Cpu) : Prop :=
  (c.jobs t).sliceLeft = 0 ∨
    (c.jobs t).timeSlice ≤ (c.jobs t).sliceLeft ∧ (c.current = some t → (c.jobs t).sliceStart = 0)

/-- A job with the same slice, or with a new one. -/
def Renews (j k : Job) : Prop :=
  k.timeSlice = j.timeSlice ∧ k.sliceLeft = j.sliceLeft ∧ k.sliceStart = j.sliceStart ∨
    k.timeSlice ≤ k.sliceLeft ∧ k.sliceStart = 0

/-- A slice of which nothing is used up stays so when the job is renewed. -/
theorem Fresh.set (h : c.Fresh t) {u : Tid} {k : Job} (hk : Renews (c.jobs u) k) :
    (c.set u k).Fresh t := by
  by_cases htu : t = u
  · subst htu
    unfold Fresh
    rw [set_jobs, Function.update_self, set_current]
    rcases hk with ⟨hq, hl, hs⟩ | ⟨hq, hs⟩
    · rw [hq, hl, hs]
      exact h
    · exact .inr ⟨hq, fun _ => hs⟩
  · unfold Fresh
    rw [set_jobs, Function.update_of_ne htu, set_current]
    exact h

/-- A thread that wakes keeps its slice or gets a new one. -/
theorem renews_wake (reload : Bool) (j : Job) : Renews j (j.wake reload) := by
  by_cases h : reload = true ∧ j.timeSlice ≠ 0
  · right
    simp [Job.wake, h]
  · left
    simp [Job.wake, h]

/-- A thread that starts a delay keeps its slice or gets a new one. -/
theorem renews_delay (j : Job) : Renews j j.delay := by
  by_cases h : j.timeSlice = 0
  · left
    simp [Job.delay, h]
  · right
    simp [Job.delay, h]

/-- A slice of which nothing is used up stays so when threads are moved. -/
theorem Moves.fresh (h : Moves a c c') (hc : c.Fresh t) : c'.Fresh t := by
  refine h.induction (I := Fresh t) hc fun x y _ _ hx hm => ?_
  cases hm with
  | wakes reload hst hr hc => exact hx.set (renews_wake reload _)
  | resumes ha hst => exact hx.set (renews_wake false _)
  | boosts ha hst hp => exact Fresh.set (c := x.take _) hx (.inl ⟨rfl, rfl, rfl⟩)
  | reprio hst hp ha => exact hx.set (.inl ⟨rfl, rfl, rfl⟩)
  | waits hc hrun hn => exact hx.set (.inl ⟨rfl, rfl, rfl⟩)
  | delays hc hrun ha hn => exact hx.set (renews_delay _)
  | suspends ha hlive => exact Fresh.set (c := x.take _) hx (.inl ⟨rfl, rfl, rfl⟩)
  | ends ha hlive => exact Fresh.set (c := x.take _) hx (.inl ⟨rfl, rfl, rfl⟩)

/-- Moves start no thread. -/
theorem Moves.running (h : Moves a c c') : (c'.jobs t).stat = .running →
    (c.jobs t).stat = .running := by
  refine h.induction (I := fun x => (x.jobs t).stat = .running → (c.jobs t).stat = .running)
    (fun h => h)
    fun x y _ _ hx hm => ?_
  have hset : ∀ {u : Tid} {j : Job}, (j.stat = .running → (x.jobs u).stat = .running) →
      (Function.update x.jobs u j t).stat = .running → (c.jobs t).stat = .running := by
    intro u j hj hrun
    apply hx
    by_cases htu : t = u
    · subst htu
      rw [Function.update_self] at hrun
      exact hj hrun
    · rw [Function.update_of_ne htu] at hrun
      exact hrun
  cases hm with
  | wakes reload hst hr hc => exact hset fun h => (by cases h)
  | resumes ha hst => exact hset fun h => (by cases h)
  | boosts ha hst hp => exact hset fun h => h
  | reprio hst hp ha => exact hset fun h => h
  | waits hc hrun hn => exact hset fun h => (by cases h)
  | delays hc hrun ha hn => exact hset fun h => (by cases h)
  | suspends ha hlive => exact hset fun h => (by cases h)
  | ends ha hlive => exact hset fun h => (by cases h)

/-- A whole slice is brought to the switch. -/
theorem Fresh.brought (h : c.Fresh t) (now : ℕ) : sliceFor (c.brought now t) =
    (c.brought now t).timeSlice := by
  have hwhole : ∀ j : Job, j.sliceLeft = 0 ∨ j.timeSlice ≤ j.sliceLeft →
      sliceFor j = j.timeSlice := by
    intro j hj
    unfold sliceFor
    split
    · rfl
    · rename_i hno
      omega
  apply hwhole
  unfold Cpu.brought
  by_cases hcur : c.current = some t
  · rw [if_pos hcur]
    unfold settle
    split
    · rcases h with h | ⟨h, hs⟩
      · have hl : (c.jobs t).slice.sliceLeft = 0 := h
        left
        simp [hl]
      · have hl : (c.jobs t).slice.sliceStart = 0 := hs hcur
        right
        simp only [hl, ne_eq, not_true_eq_false, false_and, if_false]
        exact h
    · exact h.imp_right fun h => h.1
  · rw [if_neg hcur]
    exact h.imp_right fun h => h.1

end Cpu

/-- The first part of a step starts no thread. -/
theorem Prelude.running {x : Cpu} (h : Prelude s a x) (hrun : (x.jobs t).stat = .running) :
    (s.threads t).stat = .running := by
  have hset : ∀ {u : Tid} {j : Job}, (j.stat = .running → (s.job u).stat = .running) →
      (Function.update s.job u j t).stat = .running → (s.job t).stat = .running := by
    intro u j hj hrun
    by_cases htu : t = u
    · subst htu
      rw [Function.update_self] at hrun
      exact hj hrun
    · rw [Function.update_of_ne htu] at hrun
      exact hrun
  cases h with
  | moves ha hm hjobs hready hcur =>
    rw [hjobs] at hrun
    exact hm.running hrun
  | creates ha hst hcur => exact hset (fun h => by cases h) hrun
  | yields ha hcur hrun' => exact hset (fun _ => hrun') hrun
  | @expires u ha hl hcur hcb hpeers => exact hset (j := (s.job u).expire) (fun h => h) hrun
  | @lapses u ha hl hcur hwhy =>
    exact hset (j := { s.job u with deadline := none }) (fun h => h) hrun

/-- The first part of a step does not touch a whole slice, nor start the thread. -/
theorem Prelude.fresh {x : Cpu} (h : Prelude s a x) (hoff : (s.threads t).stat ≠ .running)
    (hw : WholeSlice s t ∨ a.creates = some t) : x.Fresh t ∧ (x.jobs t).stat ≠ .running := by
  have hold : a.creates = none → s.cpu.Fresh t := by
    intro ha
    rcases hw with hw | hw
    · exact hw
    · rw [ha] at hw
      cases hw
  have htimer : a = .timerFire → s.cpu.Fresh t := fun ha => hold (by rw [ha]; rfl)
  refine ⟨?_, fun hrun => hoff (h.running hrun)⟩
  cases h with
  | @moves x y ha hm hjobs hready hcur =>
    have hy := hm.fresh (hold ha)
    have hcurrent : x.current = y.current := hcur.trans (congrArg Cpu.current hm.frame).symm
    unfold Cpu.Fresh
    rw [hjobs, hcurrent]
    exact hy
  | @creates u b ha hst hcur =>
    rcases hw with hw | hw
    · exact Cpu.Fresh.set (c := s.cpu) hw (.inr ⟨le_rfl, rfl⟩)
    · rw [ha, Option.some.injEq] at hw
      subst hw
      right
      simp [Job.create]
  | yields ha hcur hrun =>
    subst ha
    exact (hold rfl).set (.inl ⟨rfl, rfl, rfl⟩)
  | @expires u ha hl hcur hcb hpeers =>
    by_cases htu : t = u
    · subst htu
      left
      simp [Job.expire]
    · unfold Cpu.Fresh
      rw [Cpu.set_jobs, Function.update_of_ne htu]
      exact htimer ha
  | lapses ha hl hcur hwhy => exact (htimer ha).set (.inl ⟨rfl, rfl, rfl⟩)

/-! ## The books of a thread -/

/-- The time that the kernel counts: none from clock value 0. -/
def counted (l : List (ℕ × ℕ)) : ℕ := (l.map fun i => if i.1 = 0 then 0 else i.2 - i.1).sum

namespace Job

/-- The slice of a thread that is on the processor since `d`. -/
structure Serves (cfg : Config) (l : List (ℕ × ℕ)) (d : ℕ) (j : Job) : Prop where
  start : j.sliceStart = d
  left : counted l < j.timeSlice → j.sliceLeft = j.timeSlice - counted l
  deadline : counted l < j.timeSlice → j.deadline = some (expiry cfg d (j.timeSlice - counted l))

/-- The slice of a thread that is not on the processor. -/
def Keeps (l : List (ℕ × ℕ)) (j : Job) : Prop := counted l < j.timeSlice →
    Cpu.sliceFor j = j.timeSlice - counted l

/-- A slice is settled. -/
theorem Serves.settle {d : ℕ} {j : Job} (h : j.Serves cfg l d) (hq : j.timeSlice ≠ 0) (hd : d ≤ now)
    (hnow : now < u64Size) : (Cpu.settle now j).Keeps ((d, now) :: l) := by
  have hcount : counted ((d, now) :: l) = (if d = 0 then 0 else now - d) + counted l := by
    unfold counted
    rw [List.map_cons, List.sum_cons]
  have hslice : (Cpu.settle now j).timeSlice = j.timeSlice :=
    Cpu.settle_same Job.timeSlice (fun _ _ _ _ => rfl) now j
  intro hlt
  rw [hslice, hcount] at hlt ⊢
  have hleft := h.left (by omega)
  have helapsed : (now + u64Size - d) % u64Size = now - d := by
    rw [show now + u64Size - d = now - d + u64Size by omega, Nat.add_mod_right]
    exact Nat.mod_eq_of_lt (by omega)
  have hsettled : (Cpu.settle now j).sliceLeft = j.timeSlice -
      ((if d = 0 then 0 else now - d) + counted l) := by
    unfold Cpu.settle
    rw [if_pos hq]
    simp only [h.start, hleft, helapsed]
    by_cases hzero : d = 0
    · simp [hzero]
    · rw [if_neg hzero] at hlt ⊢
      rw [if_pos ⟨hzero, by omega⟩, if_neg (by omega)]
      omega
  unfold Cpu.sliceFor
  rw [hslice, hsettled, if_neg (by omega)]

/-- A slice is begun, or begun again. -/
theorem Keeps.begin {peers : List Tid} {j : Job} (h : j.Keeps l) (hq : j.timeSlice ≠ 0)
    (hpeers : peers ≠ [])
    (hcb : j.callback = .sliceTimeout) : (Cpu.begin cfg now peers j).Serves cfg l now := by
  have hcb' : j.callback ≠ .none := by rw [hcb]; decide
  have hslice : (Cpu.begin cfg now peers j).timeSlice = j.timeSlice :=
    Cpu.begin_same Job.timeSlice (fun _ _ _ _ => rfl) now peers j
  refine ⟨?_, fun hlt => ?_, fun hlt => ?_⟩
  · unfold Cpu.begin
    rw [if_neg hq, if_neg hpeers]
  · rw [hslice] at hlt ⊢
    rw [← h hlt]
    unfold Cpu.begin
    rw [if_neg hq, if_neg hpeers]
  · rw [hslice] at hlt ⊢
    rw [← h hlt]
    unfold Cpu.begin
    rw [if_neg hq, if_neg hpeers, if_neg hcb']

end Job

/-- What holds at the end of `Stints`. -/
inductive SliceBooks (cfg : Config) (t : Tid) (s : State) (l : List (ℕ × ℕ)) : Option ℕ → Prop
  | on {d : ℕ} (hc : s.current = some t) (hst : (s.threads t).stat = .ready ∨
      (s.threads t).stat = .running)
      (hd : d ≤ s.clock) (h : (s.job t).slice.Serves cfg l d) : SliceBooks cfg t s l (some d)
  | off (hc : s.current ≠ some t) (hst : (s.threads t).stat = .ready)
    (h : (s.job t).slice.Keeps l) :
      SliceBooks cfg t s l none

/-- A dispatch opens the books. -/
theorem Dispatched.books (hr : (kernel cfg).Reach Machine.Always s) (ha : (kernel cfg).enabled s a)
    (hd : Dispatched s (exec cfg a s) t) {x : Cpu}
      (h : Cpu.Share cfg s.clock t x (exec cfg a s).cpu)
    (hoff : (x.jobs t).stat ≠ .running)
    (hkeeps : (x.jobs t).stat = .ready → (x.brought s.clock t).timeSlice ≠ 0 →
      (x.brought s.clock t).Keeps l)
    (hq : ((exec cfg a s).threads t).timeSlice ≠ 0) :
    SliceBooks cfg t (exec cfg a s) l (some s.clock) := by
  have hnext := hr.step a ha trivial
  have hcur : (exec cfg a s).current = some t :=
    (((reach_sound hnext).consistent.ok t).running hd.on).1
  cases h with
  | stays hc hs hst =>
    rcases hst with hst | ⟨hrun, -⟩
    · exact absurd (hst.symm.trans hd.on) hoff
    · exact absurd hrun hoff
  | rotates hrun hst hn heq => exact absurd hrun hoff
  | @leaves n hn hc hs hst =>
    have hne : (exec cfg a s).current = some n := hc
    rw [hcur] at hne
    exact absurd (Option.some.inj hne).symm hn
  | comes hready hst hc hclock hs =>
    have hs' : ((exec cfg a s).job t).slice = Cpu.begin cfg s.clock _ (x.brought s.clock t) := hs
    have hslice : (x.brought s.clock t).timeSlice = ((exec cfg a s).threads t).timeSlice :=
      (Cpu.begin_same Job.timeSlice (fun _ _ _ _ => rfl) _ _ _).symm.trans
        (congrArg Job.timeSlice hs').symm
    have hcallback : (x.brought s.clock t).callback = ((exec cfg a s).job t).callback :=
      (Cpu.begin_same Job.callback (fun _ _ _ _ => rfl) _ _ _).symm.trans
        (congrArg Job.callback hs').symm
    rw [← hslice] at hq
    refine .on hcur (.inr hd.on) (le_of_eq hclock.symm) ?_
    rw [hs']
    refine (hkeeps hready hq).begin hq hd.peer (hcallback.trans ?_)
    exact reach_callback hnext t (by rw [hslice] at hq; exact hq)

/-- A thread that is not on the processor brings its slice as it is. -/
theorem Cpu.brought_off {x : Cpu} {j : Job} (hs : (x.jobs t).slice = j.slice)
    (hc : x.current ≠ some t) (now : ℕ) :
    x.brought now t = j.slice := by
  unfold Cpu.brought
  rw [if_neg hc, hs]

/-- The thread on the processor brings a settled slice. -/
theorem Cpu.brought_on {x : Cpu} {j : Job} (hs : (x.jobs t).slice = j.slice)
    (hc : x.current = some t) (now : ℕ) :
    x.brought now t = Cpu.settle now j.slice := by
  unfold Cpu.brought
  rw [if_pos hc, hs]

/-- The state behind some stints is reachable. -/
theorem Stints.reach {o : Option ℕ} (h : Stints cfg t s l o) :
    (kernel cfg).Reach Machine.Always s := by
  induction h with
  | first a hr ha hw hd => exact hr.step a ha trivial
  | stays a hs ha hclock hk ih => exact ih.step a ha trivial
  | leaves a hs ha hp ih => exact ih.step a ha trivial
  | waits a hs ha hclock hc hst ih => exact ih.step a ha trivial
  | again a hs ha hd ih => exact ih.step a ha trivial
  | returns a hs ha hd ih => exact ih.step a ha trivial

/-- The slice timer of a thread expires only while that is the current thread. -/
theorem Turn.slice {c : Cpu} (hT : Turn cfg s .timerFire c)
    (hl : leftmostTimer s = some (.slice t)) :
    s.current = some t ∧
      (s.cpu.ready (s.job t).priority ≠ [] ∧
        c = { s.cpu.set t (s.job t).expire with trySwitch := true } ∨
        ((s.job t).callback ≠ .sliceTimeout ∨ s.cpu.ready (s.job t).priority = []) ∧
          c = s.cpu.set t { s.job t with deadline := none }) := by
  have hplain : ¬ Action.timerFire.plain s := fun h => h t hl
  cases hT with
  | refused h => exact absurd h hplain
  | rests h hr hm => exact absurd h hplain
  | schedules h hm hs => exact absurd h hplain
  | creates h ht hb hst hc' hs => cases h
  | declines h hb => cases h
  | yields h hc' hrun hs => cases h
  | @expires u h hl' hcur hcb hpeers =>
    rw [hl, Option.some.injEq, TimerId.slice.injEq] at hl'
    subst hl'
    exact ⟨hcur, .inl ⟨hpeers, rfl⟩⟩
  | @lapses u h hl' hcur hwhy =>
    rw [hl, Option.some.injEq, TimerId.slice.injEq] at hl'
    subst hl'
    exact ⟨hcur, .inr ⟨hwhy, rfl⟩⟩
  | ticks k h => cases h
  | enters h => cases h
  | exits h hn hwhy => cases h
  | decides h hn ht hone hok hd => cases h
  | switches h hn hready => cases h
  | starts h hc' hn => cases h

/-- The end of a slice switches to no thread.
kernel/nd_scheduler.c:237-257 -/
theorem slice_ends (hr : (kernel cfg).Reach Machine.Always s)
    (ha : (kernel cfg).enabled s .timerFire) (hl : leftmostTimer s = some (.slice t)) :
    (exec cfg .timerFire s).current = some t ∧ s.current = some t ∧
      ((exec cfg .timerFire s).threads t).stat = (s.threads t).stat := by
  have hT := exec_turn (reach_sound hr) ha.1 ha.2
  generalize hc : (exec cfg .timerFire s).cpu = c at hT
  have hgoal : c.current = some t ∧ s.current = some t ∧ (c.jobs t).stat = (s.job t).stat := by
    obtain ⟨hcur, ⟨-, rfl⟩ | ⟨-, rfl⟩⟩ := hT.slice hl
    · exact ⟨hcur, hcur, Cpu.update_same Job.stat (j := (s.job t).expire) rfl t⟩
    · exact ⟨hcur, hcur, Cpu.update_same Job.stat (j := { s.job t with deadline := none }) rfl t⟩
  rw [← hc] at hgoal
  exact hgoal

/-- Bringing a slice up to date keeps its length. -/
theorem Cpu.brought_timeSlice (now : ℕ) (c : Cpu) (t : Tid) :
    (c.brought now t).timeSlice = (c.jobs t).timeSlice := by
  unfold Cpu.brought
  split
  · exact Cpu.settle_same Job.timeSlice (fun _ _ _ _ => rfl) _ _
  · rfl

/-- A thread that keeps its slice in the first part of a step. -/
structure SliceKept (s : State) (x : Cpu) (t : Tid) : Prop where
  slice : (x.jobs t).slice = (s.job t).slice
  stat : (x.jobs t).stat = (s.threads t).stat
  current : x.current = s.current

/-- A thread that keeps its slice keeps its length. -/
theorem SliceKept.timeSlice {x : Cpu} (h : SliceKept s x t) :
    (x.jobs t).timeSlice = (s.threads t).timeSlice :=
  (congrArg Job.timeSlice h.slice :)

/-- In a step after which thread `t` is ready or running, it has kept its slice before the scheduler
came to act. -/
theorem exec_kept (hr : (kernel cfg).Reach Machine.Always s) (ha : (kernel cfg).enabled s a)
    (hst : (s.threads t).stat = .ready ∨ (s.threads t).stat = .running)
    (hst' : ((exec cfg a s).threads t).stat = .ready ∨ ((exec cfg a s).threads t).stat = .running)
    (htimer : a = .timerFire → leftmostTimer s ≠ some (.slice t)) :
    ∃ x, SliceKept s x t ∧ Cpu.Share cfg s.clock t x (exec cfg a s).cpu := by
  obtain ⟨x, hx, hshare⟩ := exec_share hr ha t
  refine ⟨x, ?_, hshare⟩
  rcases hx.slice hst htimer with ⟨hs, hstat⟩ | ⟨hnready, hnrun⟩
  · exact ⟨hs, hstat, hx.current⟩
  · exfalso
    have hgone : (x.jobs t).stat ≠ ((exec cfg a s).cpu.jobs t).stat := by
      intro h
      rcases hst' with h' | h'
      · exact hnready (h.trans h')
      · exact hnrun (h.trans h')
    cases hshare with
    | stays hc hs hst =>
      rcases hst with h | ⟨h, -⟩
      · exact hgone h.symm
      · exact hnrun h
    | rotates hrun hst hn heq => exact hnrun hrun
    | leaves hn hc hs hst =>
      rcases hst with h | ⟨h, -⟩
      · exact hgone h.symm
      · exact hnrun h
    | comes hready hst hc hclock hs => exact hnready hready

namespace SliceBooks

variable {d : ℕ}

/-- Thread `t` stays on the processor. -/
theorem stays (hr : (kernel cfg).Reach Machine.Always s) (ha : (kernel cfg).enabled s a)
    (h : SliceBooks cfg t s l (some d)) (hclock : s.clock ≤ (exec cfg a s).clock)
      (hk : StaysOn s a (exec cfg a s) t) :
    SliceBooks cfg t (exec cfg a s) l (some d) := by
  obtain ⟨hcur, hst, hd, hserves⟩ := h
  have hst' : ((exec cfg a s).threads t).stat = .ready ∨
      ((exec cfg a s).threads t).stat = .running :=
    hk.stat.symm.imp (fun h => h.1) fun h => h.2
  obtain ⟨x, hx, hshare⟩ := exec_kept hr ha hst hst' hk.timer
  cases hshare with
  | stays hc hs hstat =>
    refine .on hk.current hst' (hd.trans hclock) ?_
    have hsame : ((exec cfg a s).job t).slice = (s.job t).slice := hs.trans hx.slice
    rw [hsame]
    exact hserves
  | @rotates n hrun hready hn heq =>
    exfalso
    have hrun' : (s.threads t).stat = .running := hx.stat.symm.trans hrun
    have hready' : ((exec cfg a s).threads t).stat = .ready := hready
    rcases hk.stat with ⟨-, h⟩ | ⟨-, h | ⟨m, hm, hlt⟩⟩
    · rw [hready'] at h
      cases h
    · rw [hrun'] at h
      cases h
    · rcases hn with ⟨hc, hne⟩ | ⟨-, hnext⟩
      · exact hne (Option.some.inj (hc.symm.trans hk.current))
      · have hmn : m = n := Option.some.inj (hm.symm.trans hnext)
        subst hmn
        exact absurd heq hlt.ne
  | leaves hn hc hs hstat => exact absurd (Option.some.inj (hc.symm.trans hk.current)) hn
  | comes hready hrun hc hclock' hs =>
    exfalso
    have hready' : (s.threads t).stat = .ready := hx.stat.symm.trans hready
    have hrun' : ((exec cfg a s).threads t).stat = .running := hrun
    rcases hk.stat with ⟨h, -⟩ | ⟨h, -⟩
    · rw [hready'] at h
      cases h
    · rw [hrun'] at h
      cases h

/-- Thread `t` is preempted. -/
theorem leaves (hr : (kernel cfg).Reach Machine.Always s) (ha : (kernel cfg).enabled s a)
    (h : (s.threads t).timeSlice ≠ 0 → SliceBooks cfg t s l (some d)) (hcur : s.current = some t)
    (hst : (s.threads t).stat = .ready ∨ (s.threads t).stat = .running)
      (hp : Preempted s (exec cfg a s) t)
    (hq : ((exec cfg a s).threads t).timeSlice ≠ 0) :
      SliceBooks cfg t (exec cfg a s) ((d, s.clock) :: l) none := by
  obtain ⟨m, hm, hmt, hwhy⟩ := hp.higher
  have hne : (exec cfg a s).current ≠ some t := fun h => hmt (Option.some.inj (hm.symm.trans h))
  have htimer : a = .timerFire → leftmostTimer s ≠ some (.slice t) := by
    rintro rfl hl
    exact hne (slice_ends hr ha hl).1
  obtain ⟨x, hx, hshare⟩ := exec_kept hr ha hst (.inl hp.stat) htimer
  cases hshare with
  | stays hc hs hstat => exact absurd ((hc.trans hx.current).trans hcur) hne
  | @rotates n hrun hready hn heq =>
    exfalso
    rcases hn with ⟨hc, -⟩ | ⟨hc, -⟩
    · have hmn : m = n := Option.some.inj (hm.symm.trans hc)
      subst hmn
      rcases hwhy with h | hlt
      · rw [← hx.stat, hrun] at h
        cases h
      · exact absurd heq hlt.ne
    · exact hne ((hc.trans hx.current).trans hcur)
  | leaves hn hc hs hstat =>
    have hs' : ((exec cfg a s).job t).slice = Cpu.settle s.clock (s.job t).slice :=
      hs.trans (Cpu.brought_on hx.slice (hx.current.trans hcur) s.clock)
    have hslice : ((exec cfg a s).threads t).timeSlice = (s.threads t).timeSlice :=
      (congrArg Job.timeSlice hs').trans (Cpu.settle_same Job.timeSlice (fun _ _ _ _ => rfl) _ _)
    rw [hslice] at hq
    obtain ⟨-, -, hd, hserves⟩ := h hq
    refine .off hne hp.stat ?_
    rw [hs']
    exact hserves.settle hq hd (clock_lt hr)
  | comes hready hrun hc hclock hs => exact absurd hc hne

/-- Thread `t` waits for the processor. -/
theorem waits (hr : (kernel cfg).Reach Machine.Always s) (ha : (kernel cfg).enabled s a)
    (h : SliceBooks cfg t s l none) (hc : (exec cfg a s).current ≠ some t)
    (hst' : ((exec cfg a s).threads t).stat = .ready) : SliceBooks cfg t (exec cfg a s) l none := by
  cases h with | off hcur hst hkeeps
  have htimer : a = .timerFire → leftmostTimer s ≠ some (.slice t) := by
    rintro rfl hl
    exact hc (slice_ends hr ha hl).1
  obtain ⟨x, hx, hshare⟩ := exec_kept hr ha (.inl hst) (.inl hst') htimer
  refine .off hc hst' ?_
  have hsame : ((exec cfg a s).job t).slice = (s.job t).slice := by
    cases hshare with
    | stays hc hs hstat => exact hs.trans hx.slice
    | rotates hrun hready hn heq =>
      rw [hx.stat, hst] at hrun
      cases hrun
    | leaves hn hc hs hstat =>
      exact hs.trans (Cpu.brought_off hx.slice (by rw [hx.current]; exact hcur) s.clock)
    | comes hready hrun hcomes hclock hs => exact absurd hcomes hc
  rw [hsame]
  exact hkeeps

/-- Thread `t` is dispatched. -/
theorem comes (hr : (kernel cfg).Reach Machine.Always s) (ha : (kernel cfg).enabled s a)
    (hst : (s.threads t).stat = .ready ∨ (s.threads t).stat = .running)
      (hd : Dispatched s (exec cfg a s) t)
    (hkeeps : ∀ x, SliceKept s x t → (s.threads t).timeSlice ≠ 0 → (x.brought s.clock t).Keeps l)
    (hq : ((exec cfg a s).threads t).timeSlice ≠ 0) : SliceBooks cfg t (exec cfg a s) l
      (some s.clock) := by
  have htimer : a = .timerFire → leftmostTimer s ≠ some (.slice t) := by
    rintro rfl hl
    exact hd.off ((slice_ends hr ha hl).2.2.symm.trans hd.on)
  obtain ⟨x, hx, hshare⟩ := exec_kept hr ha hst (.inr hd.on) htimer
  refine hd.books hr ha hshare ?_ (fun _ hslice => hkeeps x hx ?_) hq
  · rw [hx.stat]
    exact hd.off
  · rw [Cpu.brought_timeSlice, hx.timeSlice] at hslice
    exact hslice

end SliceBooks

/-- Where thread `t` is in its stints. -/
theorem Stints.place {o : Option ℕ} (h : Stints cfg t s l o) :
    ((s.threads t).stat = .ready ∨ (s.threads t).stat = .running) ∧
      (o.isSome = true → s.current = some t) := by
  have hon : ∀ {s : State}, (kernel cfg).Reach Machine.Always s →
      (s.threads t).stat = .running → s.current = some t :=
    fun hr hrun => (((reach_sound hr).consistent.ok t).running hrun).1
  cases h with
  | first a hr ha hw hd => exact ⟨.inr hd.on, fun _ => hon (hr.step a ha trivial) hd.on⟩
  | stays a hs ha hclock hk => exact ⟨hk.stat.symm.imp (fun h => h.1) fun h => h.2, fun _ =>
      hk.current⟩
  | leaves a hs ha hp => exact ⟨.inl hp.stat, fun h => by cases h⟩
  | waits a hs ha hclock hc hst => exact ⟨.inl hst, fun h => by cases h⟩
  | again a hs ha hd => exact ⟨.inr hd.on, fun _ => hon (hs.reach.step a ha trivial) hd.on⟩
  | returns a hs ha hd => exact ⟨.inr hd.on, fun _ => hon (hs.reach.step a ha trivial) hd.on⟩

/-- The books are kept through all stints. -/
theorem Stints.books {o : Option ℕ} (h : Stints cfg t s l o) :
    (s.threads t).timeSlice ≠ 0 → SliceBooks cfg t s l o := by
  induction h with
  | @first s a hr ha hw hd =>
    intro hq
    obtain ⟨x, hx, hshare⟩ := exec_share hr ha t
    obtain ⟨hfresh, hoff⟩ := hx.fresh hd.off hw
    refine hd.books hr ha hshare hoff (fun _ _ _ => ?_) hq
    have hnone : counted [] = 0 := rfl
    rw [hfresh.brought, hnone, Nat.sub_zero]
  | stays a hs ha hclock hk ih =>
    intro hq
    rw [exec_timeSlice hs.reach ha hs.place.1] at hq
    exact (ih hq).stays hs.reach ha hclock hk
  | leaves a hs ha hp ih =>
    intro hq
    exact .leaves hs.reach ha ih (hs.place.2 rfl) hs.place.1 hp hq
  | waits a hs ha hclock hc hst ih =>
    intro hq
    rw [exec_timeSlice hs.reach ha hs.place.1] at hq
    exact (ih hq).waits hs.reach ha hc hst
  | again a hs ha hd ih =>
    intro hq
    refine .comes hs.reach ha hs.place.1 hd (fun x hx hslice => ?_) hq
    cases ih hslice with
    | off hcur hst hkeeps =>
      rw [Cpu.brought_off hx.slice (by rw [hx.current]; exact hcur)]
      exact hkeeps
  | returns a hs ha hd ih =>
    intro hq
    refine .comes hs.reach ha hs.place.1 hd (fun x hx hslice => ?_) hq
    cases ih hslice with
    | on hcur hst hle hserves =>
      rw [Cpu.brought_on hx.slice (by rw [hx.current]; exact hcur)]
      exact hserves.settle hslice hle (clock_lt hs.reach)

/-- Not more is counted than was run. -/
theorem counted_le (l : List (ℕ × ℕ)) : counted l ≤ timeRun l := by
  induction l with
  | nil => exact le_rfl
  | cons i l ih =>
    unfold counted timeRun at ih ⊢
    simp only [List.map_cons, List.sum_cons]
    split <;> omega

/-- Everything is counted unless an interval that starts at clock 0 has a length. -/
theorem counted_eq_iff (l : List (ℕ × ℕ)) : counted l = timeRun l ↔ ∀ i ∈ l, i.1 = 0 → i.2 = 0 := by
  induction l with
  | nil => simp [counted, timeRun]
  | cons i l ih =>
    have hle := counted_le l
    have hcons : counted (i :: l) = (if i.1 = 0 then 0 else i.2 - i.1) + counted l := rfl
    have hcons' : timeRun (i :: l) = i.2 - i.1 + timeRun l := rfl
    rw [List.forall_mem_cons, ← ih, hcons, hcons']
    split <;> omega

/-- **The slice across preemptions.** At the dispatch of a thread at `d`, its slice timer is set to
the slice less the time that the thread has run since the slice began, if and only if no time counts
that it has run from clock value 0.
kernel/nd_scheduler.c:118-149, 179-225 -/
theorem slice_accounting_iff {d : ℕ} (h : Stints cfg t s l (some d))
    (hq : 0 < (s.threads t).timeSlice) (hsum : timeRun l < (s.threads t).timeSlice) :
    SliceTimerSet cfg s t d ((s.threads t).timeSlice - timeRun l) ↔ ∀ i ∈ l, i.1 = 0 → i.2 = 0 := by
  have hle := counted_le l
  cases h.books hq.ne' with
  | on hcur hst hd hserves =>
    have hlt : counted l < (s.threads t).timeSlice := by omega
    have hleft : (s.threads t).sliceLeft = (s.threads t).timeSlice - counted l := hserves.left hlt
    have hdeadline : (s.job t).deadline = some
        (expiry cfg d ((s.threads t).timeSlice - counted l)) :=
      hserves.deadline hlt
    rw [← counted_eq_iff]
    constructor
    · rintro ⟨-, hset, -⟩
      omega
    · intro heq
      rw [← heq]
      have harmed : s.isArmed (.slice t) = true := by
        by_contra hno
        unfold State.job at hdeadline
        rw [if_neg hno] at hdeadline
        cases hdeadline
      unfold State.job at hdeadline
      rw [if_pos harmed] at hdeadline
      exact ⟨harmed, hleft, Option.some.inj hdeadline⟩

/-! ## Runs -/

instance (s : State) (t : Tid) : Decidable (WholeSlice s t) :=
  inferInstanceAs (Decidable ((s.threads t).sliceLeft = 0 ∨
    (s.threads t).timeSlice ≤ (s.threads t).sliceLeft ∧
      (s.current = some t → (s.threads t).sliceStart = 0)))

instance (s s' : State) (t : Tid) : Decidable (Dispatched s s' t) :=
  decidable_of_iff ((s.threads t).stat ≠ .running ∧ (s'.threads t).stat = .running ∧
      s'.queues.lists (.ready (s'.threads t).priority) ≠ [])
    ⟨fun h => ⟨h.1, h.2.1, h.2.2⟩, fun h => ⟨h.off, h.on, h.peer⟩⟩

instance (s : State) (a : Action) (s' : State) (t : Tid) : Decidable (StaysOn s a s' t) :=
  decidable_of_iff (s'.current = some t ∧ (a = .timerFire → leftmostTimer s ≠ some (.slice t)) ∧
      ((s.threads t).stat = .running ∧ (s'.threads t).stat = .running ∨
        (s'.threads t).stat = .ready ∧ ((s.threads t).stat = .ready ∨
          ∃ n ∈ s'.next, (s'.threads n).priority < (s'.threads t).priority)))
    ⟨fun h => ⟨h.1, h.2.1, h.2.2⟩, fun h => ⟨h.current, h.timer, h.stat⟩⟩

instance (s s' : State) (t : Tid) : Decidable (Preempted s s' t) :=
  decidable_of_iff ((s'.threads t).stat = .ready ∧ ∃ n ∈ s'.current, n ≠ t ∧
      ((s.threads t).stat = .ready ∨ (s'.threads n).priority < (s'.threads t).priority))
    ⟨fun h => ⟨h.1, h.2⟩, fun h => ⟨h.stat, h.higher⟩⟩

/-- Thread `t` starts, runs for `k`, is preempted by action `a` and dispatched again by action
`b`. -/
def StartsAgain (cfg : Config) (t : Tid) (k : ℕ) (a b : Action) (s : State) : Prop :=
  let s₁ := exec cfg .start s
  let s₂ := exec cfg (.advance k) s₁
  let s₃ := exec cfg a s₂
  ((kernel cfg).enabled s .start ∧ WholeSlice s t ∧ Dispatched s s₁ t) ∧
    ((kernel cfg).enabled s₁ (.advance k) ∧ s₁.clock ≤ s₂.clock ∧ StaysOn s₁ (.advance k) s₂ t) ∧
    ((kernel cfg).enabled s₂ a ∧ Preempted s₂ s₃ t) ∧
    (kernel cfg).enabled s₃ b ∧ Dispatched s₃ (exec cfg b s₃) t

instance (cfg : Config) (t : Tid) (k : ℕ) (a b : Action) (s : State) :
    Decidable (StartsAgain cfg t k a b s) :=
  inferInstanceAs (Decidable ((_ ∧ _ ∧ _) ∧ (_ ∧ _ ∧ _) ∧ (_ ∧ _) ∧ _ ∧ _))

/-- A thread that starts again has run one stint and is in its second one. -/
theorem StartsAgain.stints {k : ℕ} {b : Action} (hr : (kernel cfg).Reach Machine.Always s)
    (h : StartsAgain cfg t k a b s) :
    Stints cfg t (exec cfg b (exec cfg a (exec cfg (.advance k) (exec cfg .start s))))
      [(s.clock, (exec cfg (.advance k) (exec cfg .start s)).clock)]
      (some (exec cfg a (exec cfg (.advance k) (exec cfg .start s))).clock) := by
  obtain ⟨⟨ha₀, hw, hd₀⟩, ⟨ha₁, hclock, hk⟩, ⟨ha₂, hp⟩, ha₃, hd₃⟩ := h
  have h₁ := Stints.first Action.start hr ha₀ (.inl hw) hd₀
  have h₂ := h₁.stays (.advance k) ha₁ hclock hk
  have h₃ := h₂.leaves a ha₂ hp
  exact h₃.again b ha₃ hd₃

/-- `nd_thread_create` for thread `t` with priority `p` and time slice 10. -/
def spawnSliced (t : Tid) (p : ℕ) : Action :=
  .call (.threadCreate
    { thread := some t, name := some 1, entry := some 1, priority := p, stack := some 1
      stackSize := 512, options := 0, timeSlice := 10 })

/-- A thread that ran from 1 to 4 has 7 of its slice left. -/
theorem slice_accounting_at_one : ∃ s, Stints syncPort 1 s [(1, 4)] (some 4) ∧
    SliceTimerSet syncPort s 1 4 7 := by
  obtain ⟨s, hs, hp⟩ := (kernel syncPort).exists_run
    (l := [spawnSliced 1 10, spawnSliced 2 10, .advance 1])
    (s := boot syncPort {}) (p := fun s =>
      decide (StartsAgain syncPort 1 3 (spawn 3 5) (.call (.threadAbort (some 3))) s ∧
      s.clock = 1 ∧ (exec syncPort (.advance 3) (exec syncPort .start s)).clock = 4 ∧
      (exec syncPort (spawn 3 5) (exec syncPort (.advance 3) (exec syncPort .start s))).clock = 4 ∧
      ((exec syncPort (.call (.threadAbort (some 3))) (exec syncPort (spawn 3 5)
        (exec syncPort (.advance 3) (exec syncPort .start s)))).threads 1).timeSlice = 10))
          (by decide +kernel)
  obtain ⟨hagain, h₁, h₂, h₃, hq⟩ := of_decide_eq_true hp
  have hstints := hagain.stints (reach_run hs)
  rw [h₁, h₂, h₃] at hstints
  refine ⟨_, hstints, ?_⟩
  have hset := (slice_accounting_iff hstints
    (by rw [hq]; decide) (by rw [hq]; decide)).mpr (by simp)
  rw [hq] at hset
  exact hset

/-- A thread that ran from 0 to 3 has the whole slice again. -/
theorem slice_from_zero : ¬ ∀ s t l d, Stints syncPort t s l (some d) →
    0 < (s.threads t).timeSlice →
    timeRun l < (s.threads t).timeSlice →
      SliceTimerSet syncPort s t d ((s.threads t).timeSlice - timeRun l) := by
  intro h
  obtain ⟨s, hs, hp⟩ := (kernel syncPort).exists_run (l := [spawnSliced 1 10, spawnSliced 2 10])
    (s := boot syncPort {}) (p := fun s =>
      decide (StartsAgain syncPort 1 3 (spawn 3 5) (.call (.threadAbort (some 3))) s ∧
      s.clock = 0 ∧ (exec syncPort (.advance 3) (exec syncPort .start s)).clock = 3 ∧
      ((exec syncPort (.call (.threadAbort (some 3))) (exec syncPort (spawn 3 5)
        (exec syncPort (.advance 3) (exec syncPort .start s)))).threads 1).timeSlice = 10 ∧
      ((exec syncPort (.call (.threadAbort (some 3))) (exec syncPort (spawn 3 5)
        (exec syncPort (.advance 3) (exec syncPort .start s)))).threads 1).sliceLeft = 10))
          (by decide +kernel)
  obtain ⟨hagain, h₁, h₂, hq, hleft⟩ := of_decide_eq_true hp
  have hstints := hagain.stints (reach_run hs)
  rw [h₁, h₂] at hstints
  obtain ⟨-, hset, -⟩ := h _ _ _ _ hstints (by rw [hq]; decide) (by rw [hq]; decide)
  rw [hq, hleft] at hset
  exact absurd hset (by decide)

end NerdRtos
