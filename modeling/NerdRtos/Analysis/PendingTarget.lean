import NerdRtos.Analysis.CpuTurns

/-!
# The target of a pending switch

On a deferred port `nd_schedule_core` chooses the successor and PendSV switches to it later; in
between, interrupt handlers make calls. `target_ready_iff`: whenever the PendSV handler can run, the
thread that it switches to is ready, exactly when no handler has suspended or ended this thread
since the last evaluation (`lost`).
-/

set_option autoImplicit false

namespace NerdRtos

variable {cfg : Config} {s : State} {a : Action} {t n : Tid} {was : Bool}

/-! ## Statement -/

/-- The action suspends or ends thread `t`, and the kernel does not refuse it.
kernel/nd_thread.c:126-161, 317-342 -/
def Action.takes (s : State) (a : Action) (t : Tid) : Bool :=
  match a.op? with
  | some (.threadSuspend u) => u = t && (s.taken.lists t).isEmpty
  | some (.threadAbort (some u)) => u = t && !ndIsThreadEssential (s.threads t)
  | _ => false

/-- Whether the successor that the pending switch goes to was taken away, with no evaluation since.
An evaluation in an interrupt is made when the outermost interrupt ends and the scheduler was
called.
kernel/nd_scheduler.c:151-162, 275-288 -/
def lost (a : Action) (s : State) (was : Bool) : Bool :=
  (s.pendsv && s.next.any fun n => a.takes s n) ||
    (was && !(a = .irqExit && s.nest = 1 && s.trySwitch))

/-- The kernel, with a note whether the successor was taken away. -/
def targetKernel (cfg : Config) : Machine (State × Bool) Action := (kernel cfg).observed false lost

/-- The thread that the PendSV handler switches to is ready, on the ready list of its priority. -/
def TargetReady (s : State) : Prop :=
  ∀ n, s.next = some n →
    (s.threads n).stat = .ready ∧ s.queues.home n = some (.ready (s.threads n).priority)

/-! ## Moves -/

namespace Cpu

variable {c c' : Cpu}

/-- A ready thread stays ready unless it is suspended or ended. -/
theorem Moves.ready (h : Moves a c c') (hr : (c.jobs n).stat = .ready)
    (hs : a.op? ≠ some (.threadSuspend n)) (ha : a.op? ≠ some (.threadAbort (some n))) :
    (c'.jobs n).stat = .ready := by
  refine h.induction (I := fun x => (x.jobs n).stat = .ready) hr fun x y _ _ hx hm => ?_
  have hset : ∀ (u : Tid) (j : Job), (u = n → j.stat = .ready) →
      ((Function.update x.jobs u j) n).stat = .ready := fun u j hj =>
    update_keeps (fun j => j.stat = .ready) hj hx
  cases hm with
  | wakes reload hst => exact hset _ _ fun _ => rfl
  | resumes ha hst => exact hset _ _ fun _ => rfl
  | boosts ha hst hp => exact hset _ _ fun _ => hst
  | reprio hst hp ha =>
    refine hset _ _ fun hu => ?_
    subst hu
    exact hx
  | waits hc hrun =>
    refine hset _ _ fun hu => ?_
    subst hu
    rw [hx] at hrun
    cases hrun
  | delays hc hrun =>
    refine hset _ _ fun hu => ?_
    subst hu
    rw [hx] at hrun
    cases hrun
  | suspends ha' hlive =>
    refine hset _ _ fun hu => ?_
    subst hu
    exact absurd ha' hs
  | ends ha' hlive =>
    refine hset _ _ fun hu => ?_
    subst hu
    exact absurd ha' ha

/-- A thread that is suspended or dead comes back only by `nd_thread_resume`, or is created
again. -/
theorem Moves.away (h : Moves a c c') (hn : (c.jobs n).stat = .suspend ∨ (c.jobs n).stat = .dead)
    (hr : ∀ t, a.op? ≠ some (.threadResume t)) :
    (c'.jobs n).stat = .suspend ∨ (c'.jobs n).stat = .dead := by
  refine h.induction (I := fun x => (x.jobs n).stat = .suspend ∨ (x.jobs n).stat = .dead) hn
    fun x y _ _ hx hm => ?_
  have hset : ∀ (u : Tid) (j : Job), (u = n → j.stat = .suspend ∨ j.stat = .dead) →
      ((Function.update x.jobs u j) n).stat = .suspend ∨
          ((Function.update x.jobs u j) n).stat = .dead := fun u j hj =>
    update_keeps (fun j => j.stat = .suspend ∨ j.stat = .dead) hj hx
  have hnot : ∀ st : Stat, st ≠ .suspend → st ≠ .dead → ∀ u, (x.jobs u).stat = st → u ≠ n := by
    rintro st h₁ h₂ u hu rfl
    rw [hu] at hx
    exact hx.elim h₁ h₂
  cases hm with
  | wakes reload hst => exact hset _ _ fun hu => absurd hu (hnot _ (by decide) (by decide) _ hst)
  | resumes ha hst => exact absurd ha (hr _)
  | boosts ha hst hp => exact hset _ _ fun hu => absurd hu (hnot _ (by decide) (by decide) _ hst)
  | reprio hst hp ha =>
    refine hset _ _ fun hu => ?_
    subst hu
    exact hx
  | waits hc hrun => exact hset _ _ fun hu => absurd hu (hnot _ (by decide) (by decide) _ hrun)
  | delays hc hrun => exact hset _ _ fun hu => absurd hu (hnot _ (by decide) (by decide) _ hrun)
  | suspends ha' hlive => exact hset _ _ fun _ => .inl rfl
  | ends ha' hlive => exact hset _ _ fun _ => .inr rfl

end Cpu

/-! ## Invariant -/

/-- The successor of a pending switch is ready, unless it was taken away; and a scheduling request
puts that right. -/
structure Cpu.Target (c : Cpu) (was : Bool) : Prop where
  idle : c.pendsv = false → was = false
  ready : c.pendsv = true → was = false → ∀ n, c.next = some n → (c.jobs n).stat = .ready
  away : c.pendsv = true → was = true → (0 < c.nest ∧ c.trySwitch = true) ∨
    ∀ n, c.next = some n → (c.jobs n).stat = .suspend ∨ (c.jobs n).stat = .dead

/-- No switch is pending, and nothing was taken away. -/
theorem Cpu.Target.of_idle {c : Cpu} (h : c.pendsv = false) : c.Target false where
  idle _ := rfl
  ready hp := by rw [h] at hp; cases hp
  away hp := by rw [h] at hp; cases hp

/-- A thread that was chosen is ready. -/
theorem Cpu.Verdict.ready {c c' : Cpu} (hok : c.Ok) (h : c.Verdict t (some n) c') :
    (c'.jobs n).stat = .ready := by
  have hfirst : c.First n → (c.jobs n).stat = .ready := fun hn =>
    ((hok.mem n _).mp (List.mem_of_head? hn.head)).1
  have hset : ∀ j : Job, (n = t → j.stat = .ready) → c.First n →
      ((Function.update c.jobs t j) n).stat = .ready := fun j hj hn =>
    update_keeps (fun j => j.stat = .ready) (fun hu => hj hu.symm) (hfirst hn)
  cases h with
  | preempts hrun hn hlt => exact hset _ (fun _ => rfl) hn
  | rotates hrun hn heq hy => exact hset _ (fun _ => rfl) hn
  | leaves hst hn hrr =>
    refine hset _ (fun hu => ?_) hn
    subst hu
    exact hfirst hn

/-- An evaluation chooses a thread that is ready. -/
theorem Cpu.Decides.target {c c' : Cpu} (hok : c.Ok) (hsync : cfg.port = .sync → c.pendsv = false)
    (hmain : c.current = none → c.pendsv = false) (h : Cpu.Decides cfg c c') : c'.Target false := by
  cases h with
  | idle hc => exact .of_idle (hmain hc)
  | stays hc h =>
    have hrun : c.pendsv = false := by
      cases h with
      | runsOn hrun _ _ => exact (hok.running _ hrun).2
    rw [h.frame]
    exact .of_idle hrun
  | switches hport hc h =>
    rw [Cpu.dispatch_frame, h.frame]
    exact .of_idle (hsync hport)
  | pends hport hc h =>
    refine ⟨fun hp => (by cases hp), fun _ _ m hm => ?_, fun _ hw => (by cases hw)⟩
    cases hm
    have hr := h.ready hok
    exact hr

/-- An action that moves threads while a switch is pending is one of an interrupt handler. -/
theorem nest_of_pending (ha : allowed cfg s a = true) (hplain : a.plain s ∨ a.op? ≠ none)
    (hp : s.pendsv = true) (hc : s.current ≠ none) (hw : ∀ p ptr v, a ≠ .write p ptr v) :
      0 < s.nest := by
  have hm : threadMode s = none := by
    unfold threadMode
    rw [if_neg (by simp [hp])]
  cases a with
  | call o =>
    rcases (call_allowed ha).2 with ⟨t, ht, -⟩ | ⟨hmain, -⟩
    · rw [hm] at ht
      cases ht
    · exact absurd hmain hc
  | resume =>
    obtain ⟨t, ht, -⟩ := resume_allowed ha
    rw [hm] at ht
    cases ht
  | irq o => exact (irq_allowed ha).1
  | timerFire => exact (timerFire_allowed ha).1
  | write p ptr v => exact absurd rfl (hw p ptr v)
  | _ => exact absurd hplain (by simp [Action.plain, Action.op?])

/-- Taking the successor away is not refused. -/
theorem Sound.taken_away (hS : Sound cfg s) (ha : allowed cfg s a = true)
    (hr : (s.threads n).stat = .ready)
    (ht : a.takes s n = true) (hn : 0 < s.nest) :
      ((NerdRtos.exec cfg a s).threads n).stat ≠ .ready := by
  have hJ := hS.consistent
  have hexec : ∀ o, a.op? = some o → NerdRtos.exec cfg a s = NerdRtos.execOp cfg o s := by
    intro o ho
    cases a <;> cases ho <;> rfl
  unfold Action.takes at ht
  cases ho : a.op? with
  | none =>
    rw [ho] at ht
    cases ht
  | some o =>
    rw [ho] at ht
    rw [hexec o ho]
    cases o with
    | threadSuspend u =>
      simp only [Bool.and_eq_true, decide_eq_true_eq, List.isEmpty_iff] at ht
      obtain ⟨rfl, htk⟩ := ht
      simp only [NerdRtos.execOp, ndThreadSuspend_ready hJ hr htk]
      simp [suspendEdit]
    | threadAbort v =>
      cases v with
      | none => cases ht
      | some u =>
        simp only [Bool.and_eq_true, decide_eq_true_eq, Bool.not_eq_true'] at ht
        obtain ⟨rfl, he⟩ := ht
        have hlive : (s.threads u).stat.live := by rw [hr]; exact ⟨by decide, by decide⟩
        have hne : u ≠ idleTid := fun h => by
          have hess : ndIsThreadEssential (s.threads u) = true := ((hJ.ok u).idle h).2
          rw [he] at hess
          cases hess
        have hd : ¬ (s.threads u).stat = .dead := by rw [hr]; decide
        -- waking the joiners of a dead thread leaves it dead
        obtain ⟨-, ⟨hdead, -, hnest⟩, -⟩ := wakeAll_spec (h := .join u) rfl
          (fun y => (y.threads u).stat = .dead ∧ y.queues.home u = none ∧ y.nest = s.nest)
          (fun y j hJy hy hj => by
            obtain ⟨hdead, hfree, hnest⟩ := hy
            have hju : u ≠ j := by
              rintro rfl
              rw [hfree] at hj
              cases hj
            refine ⟨by simpa [hju] using hdead, ?_, hnest⟩
            rw [home_readied, if_neg hju]
            exact hfree)
          (((s.ended u).queues.lists (.join u)).length) (s.ended u) (hJ.ended hne)
          ⟨by simp [endEdit], by simp [State.ended, State.parked], rfl⟩ le_rfl
        have hstill : ((wakeJoiners u (s.ended u)).threads u).stat = .dead := hdead
        have hheld : 0 < (wakeJoiners u (s.ended u)).nest := by
          show 0 < (wakeAll (.join u) _ (s.ended u)).nest
          rw [hnest]
          exact hn
        simp only [NerdRtos.execOp, ndThreadAbort, if_neg hd, he, Bool.false_eq_true, if_false]
        rw [ndThreadHalt_eq hJ hlive]
        split
        · unfold ndScheduler
          rw [if_pos hheld]
          show ((wakeJoiners u (s.ended u)).threads u).stat ≠ .ready
          rw [hstill]
          decide
        · rw [hstill]
          decide
    | _ => cases ht

/-- A suspension that does not take the target is refused. -/
theorem not_takes_suspend (h : a.op? = some (.threadSuspend n)) (ht : a.takes s n = false) :
    (exec cfg a s).cpu = s.cpu := by
  have hexec : exec cfg a s = (ndThreadSuspend cfg n s).1 := by cases a <;> cases h <;> rfl
  have htk : (s.taken.lists n).isEmpty = false := by simpa [Action.takes, h] using ht
  rw [hexec]
  unfold ndThreadSuspend
  rw [if_pos htk]

/-- An abort that does not take the target is refused. -/
theorem not_takes_abort (h : a.op? = some (.threadAbort (some n))) (ht : a.takes s n = false) :
    (exec cfg a s).cpu = s.cpu := by
  have hexec : exec cfg a s = (ndThreadAbort cfg (some n) s).1 := by cases a <;> cases h <;> rfl
  have he : ndIsThreadEssential (s.threads n) = true := by simpa [Action.takes, h] using ht
  rw [hexec]
  unfold ndThreadAbort
  simp only [he, if_true]
  split <;> rfl

/-- Moves while a switch is pending, in an interrupt: the scheduler, when it is called, notes the
request. -/
theorem Cpu.Target.moves {x : Cpu} (hS : Sound cfg s) (ha : allowed cfg s a = true)
    (hp : s.pendsv = true) (hn : 0 < s.nest) (h : s.cpu.Target was) (hm : Cpu.Moves a s.cpu x)
    (hok : (exec cfg a s).cpu.Ok) (hirq : a ≠ .irqExit)
    (hx : (exec cfg a s).cpu = { x with trySwitch := true } ∨
      (exec cfg a s).cpu = x ∧ ∀ t, a.op? ≠ some (.threadResume t)) :
    (exec cfg a s).cpu.Target (lost a s was) := by
  obtain ⟨n, hnext⟩ := Option.ne_none_iff_exists'.mp (hS.consistent.books.pending hp)
  have hnote : lost a s was = (a.takes s n || was) := by simp [lost, hp, hnext, hirq]
  obtain ⟨hjobs, hnext', hpend', hnest'⟩ : (exec cfg a s).cpu.jobs = x.jobs ∧
      (exec cfg a s).cpu.next = some n ∧ (exec cfg a s).cpu.pendsv = true ∧
      (exec cfg a s).cpu.nest = s.nest := by
    have hframe := hm.frame
    rcases hx with he | ⟨he, -⟩
    · rw [he, hframe]
      exact ⟨rfl, hnext, hp, rfl⟩
    · rw [he, hframe]
      exact ⟨rfl, hnext, hp, rfl⟩
  rw [hnote]
  refine ⟨fun h0 => ?_, fun _ hw m hm' => ?_, fun _ hw => ?_⟩
  · rw [hpend'] at h0
    cases h0
  · -- the successor was ready, and the action does not take it away
    rw [Bool.or_eq_false_iff] at hw
    rw [hnext', Option.some.injEq] at hm'
    subst hm'
    have hr := h.ready hp hw.2 n hnext
    by_cases hs : a.op? = some (.threadSuspend n)
    · rw [not_takes_suspend hs hw.1]
      exact hr
    by_cases hab : a.op? = some (.threadAbort (some n))
    · rw [not_takes_abort hab hw.1]
      exact hr
    · rw [hjobs]
      exact hm.ready hr hs hab
  · rcases hx with he | ⟨he, hr⟩
    · refine .inl ⟨by rw [hnest']; exact hn, ?_⟩
      rw [he]
    rw [Bool.or_eq_true] at hw
    have hstays : (s.cpu.jobs n).stat = .suspend ∨ (s.cpu.jobs n).stat = .dead →
        ∀ m, (exec cfg a s).cpu.next = some m →
          ((exec cfg a s).cpu.jobs m).stat = .suspend ∨
              ((exec cfg a s).cpu.jobs m).stat = .dead := by
      intro h m hm'
      rw [hnext', Option.some.injEq] at hm'
      subst hm'
      rw [hjobs]
      exact hm.away h hr
    rcases hw with ht | hw
    · rcases hS.consistent.cpu_ok.next n hnext with hready | h | h
      · refine .inr fun m hm' => ?_
        rw [hnext', Option.some.injEq] at hm'
        subst hm'
        exact (hok.next n hnext').resolve_left (hS.taken_away ha hready ht hn)
      · exact .inr (hstays (.inl h))
      · exact .inr (hstays (.inr h))
    · rcases h.away hp hw with ⟨-, hheld⟩ | h
      · refine .inl ⟨by rw [hnest']; exact hn, ?_⟩
        rw [he, hm.frame]
        exact hheld
      · exact .inr (hstays (h n hnext))

/-- An action that makes no call and ends no interrupt takes nothing away. -/
theorem lost_of_calm (ht : ∀ n, s.next = some n → a.takes s n = false)
    (hirq : a ≠ .irqExit) : lost a s was = was := by
  unfold lost
  cases hn : s.next with
  | none => simp [hirq]
  | some n => simp [ht n hn, hirq]

/-- Only calls take the target. -/
theorem not_takes_of_no_op (hop : a.op? = none) (n : Tid) : a.takes s n = false := by
  simp [Action.takes, hop]

/-- The pending switch stays, and no state of a thread changes. -/
theorem Cpu.Target.keep {c c' : Cpu} (h : c.Target was) (hp : c'.pendsv = c.pendsv)
    (hn : c'.next = c.next) (hnest : c.nest ≤ c'.nest)
    (htry : c'.trySwitch = c.trySwitch ∨ c'.trySwitch = true)
    (hjobs : ∀ u, (c'.jobs u).stat = (c.jobs u).stat) : c'.Target was := by
  refine ⟨fun h0 => h.idle (hp.symm.trans h0), fun h0 hw m hm => ?_, fun h0 hw => ?_⟩
  · rw [hjobs]
    exact h.ready (hp.symm.trans h0) hw m (hn.symm.trans hm)
  · rcases h.away (hp.symm.trans h0) hw with ⟨h₁, h₂⟩ | h
    · exact .inl ⟨Nat.lt_of_lt_of_le h₁ hnest, htry.elim (fun ht => ht.trans h₂) id⟩
    · refine .inr fun m hm => ?_
      rw [hjobs]
      exact h m (hn.symm.trans hm)

/-- A thread is set up while a switch is pending: it is not the successor. -/
theorem Cpu.Target.created {c : Cpu} {b : CreateArgs} (h : c.Target was) (hn : 0 < c.nest)
    (hst : (c.jobs t).stat = .init ∨ (c.jobs t).stat = .dead) {ready : ℕ → List Tid} :
    ({ c.set t (Job.create b) with ready, trySwitch := true } : Cpu).Target was := by
  refine ⟨h.idle, fun hp hw m hm => ?_, fun _ _ => .inl ⟨hn, rfl⟩⟩
  have hr : (c.jobs m).stat = .ready := h.ready hp hw m hm
  have hmt : m ≠ t := by
    rintro rfl
    rcases hst with h | h
    · exact absurd (hr.symm.trans h) (by decide)
    · exact absurd (hr.symm.trans h) (by decide)
  show (Function.update c.jobs t (Job.create b) m).stat = .ready
  rw [Function.update_of_ne hmt]
  exact hr

/-- An interrupt ends, and no evaluation is made. -/
theorem Cpu.Target.exits (hp : s.pendsv = true) (h : s.cpu.Target was)
    (hwhy : s.trySwitch = false ∨ 1 < s.nest) :
    ({ s.cpu with nest := s.nest - 1 } : Cpu).Target (lost .irqExit s was) := by
  have hnote : lost .irqExit s was = was := by
    have hheld : (decide (s.nest = 1) && s.trySwitch) = false := by
      rcases hwhy with ht | h1
      · simp [ht]
      · simp [h1.ne']
    unfold lost
    cases hn : s.next <;> simp [Action.takes, Action.op?, hheld]
  rw [hnote]
  refine ⟨h.idle, h.ready, fun _ hw => ?_⟩
  rcases h.away hp hw with ⟨-, ht⟩ | h
  · have hmany : 1 < s.nest := hwhy.resolve_left (by
      rw [show s.trySwitch = true from ht]
      simp)
    exact .inl ⟨Nat.sub_pos_of_lt hmany, ht⟩
  · exact .inr h

/-- The PendSV handler switches to a ready thread only when nothing was taken away. -/
theorem Cpu.Target.not_lost {c : Cpu} (h : c.Target was) (hp : c.pendsv = true) (hzero : c.nest = 0)
    (hn : c.next = some n) (hr : (c.jobs n).stat = .ready) : was = false := by
  by_contra hw
  rcases h.away hp (by simpa using hw) with ⟨h0, -⟩ | h
  · exact absurd hzero h0.ne'
  · rcases h n hn with h | h
    · exact absurd (hr.symm.trans h) (by decide)
    · exact absurd (hr.symm.trans h) (by decide)

/-- One step while a switch is pending. -/
theorem Cpu.Target.step_pending (hS : Sound cfg s) (ha : allowed cfg s a = true)
    (hf : (exec cfg a s).fault = false) (hw : ∀ p ptr v, a ≠ .write p ptr v)
    (hp : s.pendsv = true) (h : s.cpu.Target was) :
    (exec cfg a s).cpu.Target (lost a s was) := by
  have hJ := hS.consistent
  have hok' : (exec cfg a s).cpu.Ok := (hS.exec ha fun _ => hf).sound.consistent.cpu_ok
  have hsync : cfg.port = .sync → s.pendsv = false := hS.settled.sync
  have hmain : s.current = none → s.pendsv = false := fun hc => (hS.settled.main hc).2
  have hinside : a.plain s ∨ a.op? ≠ none → 0 < s.nest := fun hplain =>
    nest_of_pending ha hplain hp (fun hc => by rw [hmain hc] at hp; cases hp) hw
  have hheld : a.plain s → 0 < s.nest := fun h => hinside (.inl h)
  have hirq : a.plain s → a ≠ .irqExit := by
    rintro hplain rfl
    exact hplain
  have hcome : ∀ {o : Op}, a.op? = some o → (∀ n, a.takes s n = false) → lost a s was = was := by
    intro o ho ht
    exact lost_of_calm (fun n _ => ht n) (by rintro rfl; cases ho)
  have hcalm : a.op? = none → a ≠ .irqExit → lost a s was = was := fun hop =>
    lost_of_calm fun n _ => not_takes_of_no_op hop n
  have hT := exec_turn hS ha hf
  generalize hc : (exec cfg a s).cpu = c at hT
  cases hT with
  | refused hplain =>
    by_cases hresume : ∃ t, a.op? = some (.threadResume t)
    · obtain ⟨t, ho⟩ := hresume
      rw [hcome ho fun n => by simp [Action.takes, ho]]
      exact h
    · rw [not_exists] at hresume
      have hmoved := h.moves hS ha hp (hheld hplain) .refl hok' (hirq hplain) (.inr ⟨hc, hresume⟩)
      rw [hc] at hmoved
      exact hmoved
  | rests hplain hr hm =>
    rw [← hc]
    exact h.moves hS ha hp (hheld hplain) hm hok' (hirq hplain) (.inr ⟨hc, hr⟩)
  | schedules hplain hm hs =>
    rw [← hc]
    cases hs with
    | holds _ => exact h.moves hS ha hp (hheld hplain) hm hok' (hirq hplain) (.inl hc)
    | decides h0 _ _ =>
      rw [hm.frame] at h0
      exact absurd h0 (hheld hplain).ne'
  | creates ho _ _ hst _ hs =>
    have hheld' : 0 < s.nest := hinside (.inr (by rw [ho]; simp))
    rw [hcome ho fun n => by simp [Action.takes, ho]]
    cases hs with
    | holds _ => exact h.created hheld' hst
    | decides h0 _ _ => exact absurd h0 hheld'.ne'
  | declines ho _ =>
    rw [hcome ho fun n => by simp [Action.takes, ho]]
    exact h
  | yields ha' hcur hrun hs =>
    -- the running thread has no switch pending
    rw [((hJ.ok _).running hrun).2] at hp
    cases hp
  | expires ha' hl hcur hcb hpeers =>
    subst ha'
    rw [hcalm rfl (by simp)]
    exact h.keep rfl rfl le_rfl (.inr rfl) fun v => Cpu.update_same Job.stat (by rfl) v
  | lapses ha' hl hcur hwhy =>
    subst ha'
    rw [hcalm rfl (by simp)]
    exact h.keep rfl rfl le_rfl (.inl rfl) fun v => Cpu.update_same Job.stat (by rfl) v
  | ticks k ha' =>
    subst ha'
    rw [hcalm rfl (by simp)]
    exact h.keep rfl rfl le_rfl (.inl rfl) fun _ => rfl
  | enters ha' =>
    subst ha'
    rw [hcalm rfl (by simp)]
    exact h.keep rfl rfl (Nat.le_succ _) (.inl rfl) fun _ => rfl
  | exits ha' hn hwhy =>
    subst ha'
    exact h.exits hp hwhy
  | decides ha' hn ht hone hok hd =>
    subst ha'
    have hport : cfg.port = .deferred := by
      cases hport : cfg.port with
      | deferred => rfl
      | sync =>
        rw [hsync hport] at hp
        cases hp
    have hnote : lost .irqExit s was = false := by
      unfold lost
      cases s.next <;> simp [Action.takes, Action.op?, ht, hone hport]
    rw [hnote]
    exact hd.target hok hsync hmain
  | switches ha' hn hr =>
    subst ha'
    rw [hcalm rfl (by simp), h.not_lost hp (pendsv_allowed ha).2 hn hr, Cpu.dispatch_frame]
    exact .of_idle rfl
  | starts ha' hcur hn =>
    rw [hmain hcur] at hp
    cases hp

/-- One step while no switch is pending. -/
theorem Cpu.Target.step_idle (hS : Sound cfg s) (ha : allowed cfg s a = true)
    (hf : (exec cfg a s).fault = false) (hp : s.pendsv = false) :
    (exec cfg a s).cpu.Target false := by
  have hsched : ∀ {x c : Cpu}, x.pendsv = false → (x.current = none → x.pendsv = false) →
      x.Schedules cfg c → c.Target false := by
    intro x c hx hxm hs
    cases hs with
    | holds _ => exact .of_idle hx
    | decides _ hok hd => exact hd.target hok (fun _ => hx) hxm
  have hT := exec_turn hS ha hf
  generalize (exec cfg a s).cpu = c at hT
  cases hT with
  | refused _ => exact .of_idle hp
  | rests _ _ hm =>
    rw [hm.frame]
    exact .of_idle hp
  | schedules _ hm hs =>
    have hx : State.pendsv s = _ := congrArg Cpu.pendsv hm.frame.symm
    exact hsched (hx.symm.trans hp) (fun _ => hx.symm.trans hp) hs
  | creates _ _ _ _ _ hs => exact hsched hp (fun _ => hp) hs
  | yields _ _ _ hs => exact hsched hp (fun _ => hp) hs
  | decides _ _ _ _ hok hd => exact hd.target hok (fun _ => hp) fun _ => hp
  | switches _ _ _ =>
    rw [Cpu.dispatch_frame]
    exact .of_idle rfl
  | starts _ _ _ =>
    rw [Cpu.dispatch_frame]
    exact .of_idle hp
  | _ => exact .of_idle hp

/-- **One step.** -/
theorem Cpu.Target.step (hS : Sound cfg s) (ha : allowed cfg s a = true)
    (hf : (exec cfg a s).fault = false) (h : s.cpu.Target was) :
    (exec cfg a s).cpu.Target (lost a s was) := by
  by_cases hp : s.pendsv = true
  · by_cases hw : ∃ p ptr v, a = .write p ptr v
    · obtain ⟨p, ptr, v, rfl⟩ := hw
      rw [lost_of_calm (fun n _ => not_takes_of_no_op rfl n) (by simp)]
      exact h
    · exact h.step_pending hS ha hf (fun p ptr v he => hw ⟨p, ptr, v, he⟩) hp
  · rw [Bool.not_eq_true] at hp
    have hidle := h.idle hp
    have hnote : lost a s was = false := by simp [lost, hp, hidle]
    rw [hnote]
    exact .step_idle hS ha hf hp

/-! ## Runs -/

instance (cfg : Config) (x : State × Bool) (a : Action) :
    Decidable ((targetKernel cfg).enabled x a) :=
  inferInstanceAs (Decidable ((kernel cfg).enabled x.1 a))

/-- Every reachable state has the invariant. -/
theorem reach_target {x : State × Bool} (h : (targetKernel cfg).Reach Machine.Always x) :
    x.1.cpu.Target x.2 := by
  refine Machine.Reach.induction (I := fun x : State × Bool => x.1.cpu.Target x.2) ?_ ?_ h
  · rintro ⟨s, was⟩ ⟨⟨u, hs⟩, hwas⟩
    cases hs
    cases hwas
    show (boot cfg u).cpu.Target false
    rw [cpu_boot]
    exact .of_idle rfl
  · rintro ⟨s, was⟩ a hr hI ⟨ha, hf⟩ -
    exact hI.step (reach_sound hr.unobserved) ha hf

/-- **When the PendSV handler switches to a ready thread.** In every reachable state in which the
handler can run, its target is ready exactly when nobody took it away. -/
theorem target_ready_iff {x : State × Bool} (h : (targetKernel cfg).Reach Machine.Always x)
    (ha : allowed cfg x.1 .pendsv = true) : TargetReady x.1 ↔ x.2 = false := by
  obtain ⟨s, was⟩ := x
  have hS := reach_sound h.unobserved
  have hI := reach_target h
  obtain ⟨hp, hn⟩ := pendsv_allowed ha
  obtain ⟨n, hnext⟩ := Option.ne_none_iff_exists'.mp (hS.consistent.books.pending hp)
  constructor
  · intro hready
    by_contra hw
    rcases hI.away hp (by simpa using hw) with ⟨h0, -⟩ | h
    · exact absurd hn h0.ne'
    · have hr := (hready n hnext).1
      rcases h n hnext with h | h
      · exact absurd (hr.symm.trans h) (by decide)
      · exact absurd (hr.symm.trans h) (by decide)
  · intro hw m hm
    have hr : (s.threads m).stat = .ready := hI.ready hp hw m hm
    exact ⟨hr, hS.consistent.home_ready hr⟩

/-- Thread 2 waits for a semaphore that an interrupt handler releases. -/
def targetRun : List Action :=
  [spawn 1 10, spawn 2 5, .start, .call (.wait (.semTake 0 ndTimeoutForever)), .pendsv, .irqEnter,
    .irq (.semRelease 0), .irqExit]

/-- A deferred switch to a thread of higher priority is pending. -/
theorem target_ready_run : ∃ x, (targetKernel deferredPort).Reach Machine.Always x ∧
    allowed deferredPort x.1 .pendsv = true ∧ x.1.next = some 2 ∧ TargetReady x.1 := by
  obtain ⟨x, hrun, hx⟩ := (targetKernel deferredPort).exists_run (l := targetRun)
    (s := (boot deferredPort {}, false))
    (p := fun x => allowed deferredPort x.1 .pendsv && (x.1.next = some 2) && !x.2)
      (by decide +kernel)
  simp only [Bool.and_eq_true, decide_eq_true_eq, Bool.not_eq_true'] at hx
  obtain ⟨⟨ha, hnext⟩, hw⟩ := hx
  have hr : (targetKernel deferredPort).Reach Machine.Always x :=
    (targetKernel deferredPort).reach_of_run (fun _ _ _ => trivial) (.start ⟨⟨{}, rfl⟩, rfl⟩) hrun
  exact ⟨x, hr, ha, hnext, (target_ready_iff hr ha).mpr hw⟩

/-- Another interrupt handler suspends thread 2 before PendSV is taken. -/
theorem target_suspended : ¬ ∀ s, (kernel deferredPort).Reach Machine.Always s →
    allowed deferredPort s .pendsv = true → TargetReady s := by
  intro h
  obtain ⟨s, hrun, hs⟩ := (kernel deferredPort).exists_run
    (l := targetRun ++ [.irqEnter, .irq (.threadSuspend 2), .irqExit]) (s := boot deferredPort {})
    (p := fun s => allowed deferredPort s .pendsv && (s.next = some 2) &&
      (s.threads 2).stat = .suspend)
    (by decide +kernel)
  simp only [Bool.and_eq_true, decide_eq_true_eq] at hs
  obtain ⟨⟨ha, hnext⟩, hst⟩ := hs
  have hready := (h s (reach_run hrun) ha 2 hnext).1
  rw [hst] at hready
  cases hready

end NerdRtos
