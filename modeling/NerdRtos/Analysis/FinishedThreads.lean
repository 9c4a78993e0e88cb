import NerdRtos.Analysis.PendingTarget
import NerdRtos.Analysis.Waiters

/-!
# A finished thread is finished

A thread ends when its entry function returns to `nd_thread_entry`, or by `nd_thread_abort`. From
then on it is dead and out of every structure of the kernel, and nothing but `nd_thread_create`
brings it back (`Cpu.Over`), with two exceptions: `nd_thread_entry` aborts an essential thread in
vain, and a thread that ends while it is the target of a pending switch is switched to all the same.
-/

set_option autoImplicit false

namespace NerdRtos

variable {cfg : Config} {s s' : State} {a : Action} {t n : Tid}

/-! ## Statement -/

/-- What thread `t` comes to its end by: its entry function returns, or a call of `nd_thread_abort`
on it returns `ND_EOK`.
kernel/nd_thread.c:163-168, 317-342 -/
inductive EndsBy (cfg : Config) (s : State) (t : Tid) : Action → Prop
  | returns (h : threadMode s = some t) : EndsBy cfg s t (.call (.threadAbort (some t)))
  | aborted {a : Action} (ha : a.op? = some (.threadAbort (some t)))
      (hok : (ndThreadAbort cfg (some t) s).2 = .eok) : EndsBy cfg s t a

/-- Thread `t` is dead and in no list or timer, and neither a pending switch nor the next step,
unless it creates the thread anew, makes it the current thread. -/
structure Finished (cfg : Config) (t : Tid) (s : State) : Prop where
  dead : (s.threads t).stat = .dead
  unqueued : ∀ h, t ∉ s.queues.lists h
  unlisted : t ∉ s.threadList.lists ()
  wait : s.isArmed (.wait t) = false
  slice : s.isArmed (.slice t) = false
  target : allowed cfg s .pendsv = true → s.next ≠ some t
  stays : ∀ a, (kernel cfg).enabled s a → a.creates ≠ some t → (exec cfg a s).current = some t →
    s.current = some t

/-- A joiner has been woken, and may run by now. -/
structure Joined (s : State) (j : Tid) : Prop where
  error : (s.threads j).error = .eok
  stat : (s.threads j).stat = .ready ∨ (s.threads j).stat = .running ∧ s.current = some j

/-- After action `a` thread `t` is finished, its joiners are woken, and it stays so until it is
created anew. -/
def FinishedForGood (cfg : Config) (t : Tid) (s : State) (a : Action) : Prop :=
  (∀ j ∈ s.queues.lists (.join t), Joined (exec cfg a s) j) ∧
    ∀ s', (kernel cfg).Path (fun _ b => b.creates ≠ some t) (exec cfg a s) s' → Finished cfg t s'

/-! ## A dead thread -/

namespace Cpu

variable {c c' : Cpu}

/-- The slice timer of a dead thread is not armed. -/
def Quiet (c : Cpu) : Prop := ∀ t, (c.jobs t).stat = .dead → (c.jobs t).deadline = none

/-- A job whose slice timer is not armed when it is dead may be written. -/
theorem Quiet.set (h : c.Quiet) {j : Job} (hj : j.stat = .dead → j.deadline = none) :
    (c.set t j).Quiet := by
  intro u hu
  by_cases hut : u = t
  · subst hut
    simp only [set_jobs, Function.update_self] at hu ⊢
    exact hj hu
  · simp only [set_jobs, Function.update_of_ne hut] at hu ⊢
    exact h u hu

/-- Moves arm no slice timer of a dead thread. -/
theorem Moves.quiet (h : Moves a c c') (hq : c.Quiet) : c'.Quiet := by
  refine h.induction (I := Quiet) hq fun x y _ _ hx hm => ?_
  cases hm with
  | wakes reload hst => exact hx.set fun hd => (by cases hd)
  | resumes ha hst => exact hx.set fun hd => (by cases hd)
  | boosts ha hst hp => exact Quiet.set (c := x.take _) hx fun hd => hx _ hd
  | reprio hst hp ha => exact hx.set fun hd => hx _ hd
  | waits hc hrun => exact hx.set fun hd => (by cases hd)
  | delays hc hrun => exact hx.set fun hd => (by cases hd)
  | suspends ha hlive => exact Quiet.set (c := x.take _) hx fun hd => (by cases hd)
  | ends ha hlive => exact Quiet.set (c := x.take _) hx fun _ => rfl

/-- Beginning a slice leaves the state. -/
theorem begin_stat (cfg : Config) (now : ℕ) (peers : List Tid) (j : Job) :
    (begin cfg now peers j).stat = j.stat :=
  begin_same Job.stat (fun _ _ _ _ => rfl) now peers j

/-- Settling a slice arms no timer of a dead thread. -/
theorem settle_quiet {j : Job} (now : ℕ) (h : j.stat = .dead → j.deadline = none) :
    (settle now j).stat = .dead → (settle now j).deadline = none := by
  unfold settle
  split
  · exact fun _ => rfl
  · exact h

/-- A dispatch arms the slice timer of no dead thread. -/
theorem Quiet.dispatch (h : c.Quiet) (cfg : Config) (n : Tid) : (c.dispatch cfg n).Quiet := by
  intro u hu
  by_cases hun : u = n
  · subst hun
    rw [dispatch_jobs_self, begin_stat] at hu
    cases hu
  · rw [dispatch_jobs_of_ne cfg c hun] at hu ⊢
    split at hu
    · rename_i hcur
      rw [if_pos hcur]
      exact settle_quiet _ (h u) hu
    · rename_i hcur
      rw [if_neg hcur]
      exact h u hu

/-- A verdict arms no slice timer. -/
theorem Verdict.quiet {next : Option Tid} (h : c.Verdict t next c') (hq : c.Quiet) : c'.Quiet := by
  cases h with
  | runsOn hrun hlead hpeer => exact hq
  | preempts hrun hn hlt => exact hq.set fun hd => (by cases hd)
  | rotates hrun hn heq hy => exact hq.set fun hd => (by cases hd)
  | leaves hst hn hrr => exact hq.set fun hd => hq t hd

/-- A decision arms no slice timer of a dead thread. -/
theorem Decides.quiet (h : Cpu.Decides cfg c c') (hq : c.Quiet) : c'.Quiet := by
  cases h with
  | idle hc => exact hq
  | stays hc h => exact h.quiet hq
  | switches hport hc h => exact (h.quiet hq).dispatch cfg _
  | pends hport hc h => exact h.quiet hq

/-- The scheduler arms no slice timer of a dead thread. -/
theorem Schedules.quiet (h : c.Schedules cfg c') (hq : c.Quiet) : c'.Quiet := by
  cases h with
  | holds h => exact hq
  | decides h hok hd => exact hd.quiet hq

/-- Thread `t` is dead, and a pending switch that would go to it is about to be chosen anew. -/
structure Over (t : Tid) (c : Cpu) : Prop where
  dead : (c.jobs t).stat = .dead
  target : c.pendsv = true → c.next = some t → 0 < c.nest ∧ c.trySwitch = true

/-- Moves bring no dead thread back. -/
theorem Moves.dead (h : Moves a c c') (hd : (c.jobs t).stat = .dead) :
    (c'.jobs t).stat = .dead := by
  refine h.induction (I := fun x => (x.jobs t).stat = .dead) hd fun x y _ _ hx hm => ?_
  have hset : ∀ (u : Tid) (j : Job), (x.jobs u).stat ≠ .dead →
      (Function.update x.jobs u j t).stat = .dead := fun u j hu =>
    Cpu.update_keeps (fun j => j.stat = .dead) (fun he => absurd (he ▸ hx) hu) hx
  cases hm with
  | wakes reload hst => exact hset _ _ (by rw [hst]; decide)
  | resumes ha hst => exact hset _ _ (by rw [hst]; decide)
  | boosts ha hst hp => exact hset _ _ (by rw [hst]; decide)
  | reprio hst hp ha =>
    rename_i o p
    by_cases hto : t = o
    · subst hto
      show (Function.update x.jobs t _ t).stat = .dead
      rw [Function.update_self]
      exact hx
    · show (Function.update x.jobs o _ t).stat = .dead
      rw [Function.update_of_ne hto]
      exact hx
  | waits hc hrun => exact hset _ _ (by rw [hrun]; decide)
  | delays hc hrun => exact hset _ _ (by rw [hrun]; decide)
  | suspends ha hlive => exact hset _ _ hlive.2
  | ends ha hlive => exact hset _ _ hlive.2

/-- A thread that is chosen is not dead, and a dead one stays dead. -/
theorem Verdict.dead {next : Option Tid} {u : Tid} (hok : c.Ok) (h : c.Verdict u next c')
    (hd : (c.jobs t).stat = .dead) : (c'.jobs t).stat = .dead ∧ next ≠ some t := by
  have hfirst : ∀ {n : Tid}, c.First n → n ≠ t := by
    rintro n hn rfl
    have hr := ((hok.mem n _).mp (List.mem_of_head? hn.head)).1
    rw [hd] at hr
    cases hr
  have hset : ∀ j : Job, (c.jobs u).stat ≠ .dead → (Function.update c.jobs u j t).stat = .dead :=
    fun j hu => Cpu.update_keeps (fun j => j.stat = .dead) (fun he => absurd (he ▸ hd) hu) hd
  cases h with
  | runsOn hrun hlead hpeer => exact ⟨hd, by simp⟩
  | preempts hrun hn hlt => exact ⟨hset _ (by rw [hrun]; decide), by simpa using hfirst hn⟩
  | rotates hrun hn heq hy => exact ⟨hset _ (by rw [hrun]; decide), by simpa using hfirst hn⟩
  | leaves hst hn hrr =>
    refine ⟨?_, by simpa using hfirst hn⟩
    by_cases htu : t = u
    · subst htu
      show (Function.update c.jobs t _ t).stat = .dead
      rw [Function.update_self]
      exact hd
    · show (Function.update c.jobs u _ t).stat = .dead
      rw [Function.update_of_ne htu]
      exact hd

/-- A switch to another thread. -/
theorem dispatch_over (cfg : Config) (hn : n ≠ t) (hd : (c.jobs t).stat = .dead)
    (hp : c.pendsv = false) :
    Over t (c.dispatch cfg n) ∧ (c.dispatch cfg n).current ≠ some t := by
  rw [dispatch_frame]
  refine ⟨⟨?_, fun h => ?_⟩, by simpa using hn⟩
  · show ((c.dispatch cfg n).jobs t).stat = .dead
    rw [dispatch_jobs_of_ne cfg c hn.symm]
    split
    · have hstat : (settle c.clock (c.jobs t)).stat = (c.jobs t).stat :=
        settle_same Job.stat (fun _ _ _ _ => rfl) _ _
      rw [hstat]
      exact hd
    · exact hd
  · have hno : c.pendsv = true := h
    rw [hp] at hno
    cases hno

/-- An evaluation does not choose a dead thread. -/
theorem Decides.over (hok : c.Ok) (hsync : cfg.port = .sync → c.pendsv = false)
    (hmain : c.current = none → c.pendsv = false)
    (h : Cpu.Decides cfg c c') (hd : (c.jobs t).stat = .dead) :
    Over t c' ∧ (c'.current = some t → c.current = some t) := by
  cases h with
  | idle hc =>
    refine ⟨⟨hd, fun hp => ?_⟩, fun h => h⟩
    rw [hmain hc] at hp
    cases hp
  | stays hc h =>
    have hidle : c.pendsv = false := by
      cases h with
      | runsOn hrun _ _ => exact (hok.running _ hrun).2
    refine ⟨⟨(h.dead hok hd).1, fun hp => ?_⟩, fun hcur => ?_⟩
    · rw [h.frame] at hp
      rw [hidle] at hp
      cases hp
    · rw [h.frame] at hcur
      exact hcur
  | @switches u n x hport hc h =>
    obtain ⟨hx, hn⟩ := h.dead hok hd
    have hidle : x.pendsv = false := by
      rw [h.frame]
      exact hsync hport
    obtain ⟨hover, hcur⟩ := dispatch_over cfg (by simpa using hn) hx hidle
    exact ⟨hover, fun h => absurd h hcur⟩
  | @pends u n x hport hc h =>
    obtain ⟨hx, hn⟩ := h.dead hok hd
    refine ⟨⟨hx, fun _ hnext => absurd hnext hn⟩, fun hcur => ?_⟩
    rw [h.frame] at hcur
    exact hcur

/-- The scheduler does not come back to a dead thread. -/
theorem Schedules.over (hsync : cfg.port = .sync → c.pendsv = false)
    (hmain : c.current = none → c.pendsv = false)
    (h : c.Schedules cfg c') (hd : (c.jobs t).stat = .dead) :
    Over t c' ∧ (c'.current = some t → c.current = some t) := by
  cases h with
  | holds h => exact ⟨⟨hd, fun _ _ => ⟨h, rfl⟩⟩, fun h => h⟩
  | decides h hok hdec => exact hdec.over hok hsync hmain hd

end Cpu

/-- The slice timer of a dead thread is not armed, in every reachable state. -/
theorem Turn.quiet {c : Cpu} (hT : Turn cfg s a c) (hq : s.cpu.Quiet) : c.Quiet := by
  cases hT with
  | refused ha => exact hq
  | rests ha hr hm => exact hm.quiet hq
  | schedules ha hm h => exact h.quiet (hm.quiet hq)
  | creates ha ht hb hst hc h => exact h.quiet (hq.set fun hd => (by cases hd))
  | declines ha hb => exact hq
  | yields ha hc hrun h => exact h.quiet (hq.set fun hd => hq _ hd)
  | expires ha hl hc hcb hpeers => exact Cpu.Quiet.set (c := s.cpu) hq fun _ => rfl
  | lapses ha hl hc hwhy => exact hq.set fun _ => rfl
  | ticks k ha => exact hq
  | enters ha => exact hq
  | exits ha hn h => exact hq
  | decides ha hn ht hone hok h => exact h.quiet hq
  | switches ha hn hr => exact Cpu.Quiet.dispatch (c := { s.cpu with pendsv := false }) hq cfg _
  | starts ha hc hn => exact hq.dispatch cfg _

/-- In every run the slice timers of dead threads are not armed. -/
theorem reach_quiet (h : (kernel cfg).Reach Machine.Always s) : s.cpu.Quiet := by
  refine h.induction (I := fun s => s.cpu.Quiet) ?_ ?_
  · rintro s ⟨u, rfl⟩
    rw [cpu_boot]
    intro t hd
    by_cases ht : t = idleTid
    · subst ht
      cases hd
    · rw [Cpu.append_jobs, Cpu.set_jobs, Function.update_of_ne ht] at hd
      cases hd
  · intro s a hr ih ha _
    exact (exec_turn (reach_sound hr) ha.1 ha.2).quiet ih

/-- A dead thread stays dead until it is created anew, and is not switched to. -/
theorem Turn.over {c : Cpu} (hS : Sound cfg s) (ha : allowed cfg s a = true) (hT : Turn cfg s a c)
    (hnew : a.creates ≠ some t) (h : s.cpu.Over t) :
    c.Over t ∧ (c.current = some t → s.current = some t) := by
  have hsync := hS.settled.sync
  have hmain : s.current = none → s.pendsv = false := fun hc => (hS.settled.main hc).2
  cases hT with
  | refused _ => exact ⟨h, fun h => h⟩
  | rests _ _ hm =>
    refine ⟨⟨hm.dead h.dead, ?_⟩, ?_⟩
    · rw [hm.frame]
      exact h.target
    · rw [hm.frame]
      exact fun h => h
  | @schedules x _ _ hm hs =>
    have hpend : x.pendsv = s.pendsv := congrArg Cpu.pendsv hm.frame
    have hcur : x.current = s.current := congrArg Cpu.current hm.frame
    rw [← hcur]
    refine hs.over ?_ ?_ (hm.dead h.dead)
    · rw [hpend]
      exact hsync
    · rw [hpend, hcur]
      exact hmain
  | @creates u b c ha' hb hacc hst hc hs =>
    have htu : t ≠ u := by
      rintro rfl
      exact hnew (Action.creates_eq_some ha' hacc hb)
    refine hs.over (t := t) hsync hmain ?_
    show (Function.update s.job u (Job.create b) t).stat = .dead
    rw [Function.update_of_ne htu]
    exact h.dead
  | declines _ _ => exact ⟨h, fun h => h⟩
  | @yields u c _ hcur hrun hs =>
    have htu : t ≠ u := by
      rintro rfl
      exact absurd (h.dead.symm.trans hrun) (by decide)
    refine hs.over (t := t) hsync hmain ?_
    show (Function.update s.job u _ t).stat = .dead
    rw [Function.update_of_ne htu]
    exact h.dead
  | @expires u ha' hl hcur hcb hpeers =>
    subst ha'
    have hnest : 0 < s.nest := (timerFire_allowed ha).1
    have hstat : (Function.update s.job u (s.job u).expire t).stat = (s.job t).stat :=
      Cpu.update_same Job.stat (j := (s.job u).expire) rfl t
    exact ⟨⟨hstat.trans h.dead, fun _ _ => ⟨hnest, rfl⟩⟩, fun h => h⟩
  | @lapses u ha' hl hcur hwhy =>
    have hstat : (Function.update s.job u { s.job u with deadline := none } t).stat =
        (s.job t).stat :=
      Cpu.update_same Job.stat (j := { s.job u with deadline := none }) rfl t
    exact ⟨⟨hstat.trans h.dead, h.target⟩, fun h => h⟩
  | ticks k _ => exact ⟨⟨h.dead, h.target⟩, fun h => h⟩
  | enters _ => exact ⟨⟨h.dead, fun hp hn => ⟨Nat.succ_pos _, (h.target hp hn).2⟩⟩, fun h => h⟩
  | exits _ hn hwhy =>
    refine ⟨⟨h.dead, fun hp hnext => ?_⟩, fun h => h⟩
    have htry := (h.target hp hnext).2
    have hmany : 1 < s.nest := hwhy.resolve_left (by
      have ht : s.trySwitch = true := htry
      simp [ht])
    exact ⟨Nat.sub_pos_of_lt hmany, htry⟩
  | decides _ hn ht hone hok hd => exact hd.over hok hsync hmain h.dead
  | @switches n _ hn hr =>
    have hne : n ≠ t := by
      rintro rfl
      exact absurd (h.dead.symm.trans hr) (by decide)
    obtain ⟨hover, hcur⟩ := Cpu.dispatch_over (c := { s.cpu with pendsv := false }) cfg hne h.dead
      rfl
    exact ⟨hover, fun h => absurd h hcur⟩
  | @starts n _ hc hn =>
    have hr := ((hS.consistent.cpu_ok.mem n _).mp (List.mem_of_head? hn.head)).1
    have hne : n ≠ t := by
      rintro rfl
      exact absurd (h.dead.symm.trans hr) (by decide)
    obtain ⟨hover, hcur⟩ := Cpu.dispatch_over (c := s.cpu) cfg hne h.dead (hmain hc)
    exact ⟨hover, fun h => absurd h hcur⟩

/-! ## Joiners -/

/-- Thread `t` is not inside of a call that waits for its own end. -/
def NotOwnJoiner (t : Tid) (s : State) : Prop := (s.calls t).bind Call.line ≠ some (.join t)

/-- Whoever stays in its call, or in none, does not begin to wait for itself. -/
theorem NotOwnJoiner.same (h : NotOwnJoiner t s) (hc : s'.calls t = s.calls t) :
    NotOwnJoiner t s' := by
  unfold NotOwnJoiner
  rw [hc]
  exact h

/-- Whoever returns from a call waits for nobody. -/
theorem NotOwnJoiner.returned (h : NotOwnJoiner t s) (who : Option Tid) (c : Call) (r : Ret) :
    NotOwnJoiner t (s.returned who c r) := by
  unfold NotOwnJoiner
  rw [State.returned_eq]
  show (if who = some t then none else s.calls t).bind Call.line ≠ some (.join t)
  split
  · simp
  · exact h

/-- A thread that has to wait in `nd_thread_join` waits for another thread.
kernel/nd_thread.c:354-357 -/
theorem NotOwnJoiner.blocked (h : NotOwnJoiner t s) {u : Tid} (k : QHead) {c : Call}
    (hc : u = t → c.line ≠ some (.join t)) : NotOwnJoiner t (s.blocked u k c) := by
  show (Function.update (s.joined u k).calls u (some c) t).bind Call.line ≠ some (.join t)
  by_cases hut : t = u
  · rw [hut, Function.update_self, ← hut]
    exact hc hut.symm
  · rw [Function.update_of_ne hut]
    exact h

/-- Waking a waiter leaves what the calls wait for. -/
theorem NotOwnJoiner.served (h : NotOwnJoiner t s) (k : QHead) : NotOwnJoiner t (s.served k) := by
  unfold State.served
  split
  · exact h
  · exact h

/-- A boost leaves what the calls wait for. -/
theorem NotOwnJoiner.raised (h : NotOwnJoiner t s) (m : Mid) (o c : Tid) :
    NotOwnJoiner t (s.raised m o c) := by
  rw [State.raised_eq]
  exact h

/-- No effect makes a thread wait for its own end. -/
theorem NotOwnJoiner.step (h : NotOwnJoiner t s) {x : State} (he : Effect a x s s') :
    NotOwnJoiner t s' := by
  cases he with
  | nothing | environment | semRelease | enter | write | semHand | drop | hand | eventScratch |
      suspend | resume
  | finish | wakeJoiner | timeout | delay | delayEnd => exact h
  | returns r hw hl hr hb => exact h.returned _ _ _
  | @blocks _ u c k hw hm hk hn =>
    refine h.blocked _ fun hut hline => ?_
    cases c with
    | threadJoin v n =>
      cases v with
      | none => cases hline
      | some v =>
        have hv : v = t := by simpa [Call.line] using hline
        exact hm.1 (hv.trans hut.symm)
    | _ => simp [Call.line] at hline
  | semTake hw hv => exact NotOwnJoiner.returned (s := (s.updSem _ _).emit _) h _ _ _
  | lock hw ho => exact NotOwnJoiner.returned (s := s.handed _ _) h _ _ _
  | contend ha hw ho hoc hx =>
    split
    · exact (h.raised _ _ _).returned _ _ _
    · exact (h.raised _ _ _).blocked _ fun _ hline => (by simp [Call.line] at hline)
  | send hw hq => exact (NotOwnJoiner.served (s := s.sent _ _) h _).returned _ _ _
  | recv hw hq => exact (NotOwnJoiner.served (s := s.received _) h _).returned _ _ _
  | alloc hw hp => exact NotOwnJoiner.returned (s := s.allocated _) h _ _ _
  | free ha => exact NotOwnJoiner.served (s := s.put _ _) h _
  | eventSend ha =>
    refine visited_induction (P := NotOwnJoiner t) (fun z u hz _ => ?_) s.queues h
    unfold State.visited
    split
    · exact hz
    · exact hz
  | eventTake hw hs => exact NotOwnJoiner.returned (s := s.granted _ _ _) h _ _ _
  | @create u b ha hb hu hst htk huse =>
    rw [created_eq huse]
    show (Function.update s.calls u none t).bind Call.line ≠ some (.join t)
    by_cases hut : t = u
    · rw [hut, Function.update_self]
      simp
    · rw [Function.update_of_ne hut]
      exact h

/-- No thread is on its own join list. -/
theorem reach_not_own_joiner (h : (kernel cfg).Reach Machine.Always s) (t : Tid) :
    t ∉ s.queues.lists (.join t) := by
  have hnot : NotOwnJoiner t s := by
    refine reach_effects (I := NotOwnJoiner t) (fun x y ho hx => hx.same ?_) (fun v => ?_)
      (fun _ _ _ _ _ _ _ _ hx he => hx.step he) h
    · exact congrFun (congrArg State.calls ho :) t
    · rw [created_eq rfl]
      simp [NotOwnJoiner, initObjects]
  intro hin
  exact hnot ((reach_tracked h t).inside _ ((s.queues.mem_iff _ _).mp hin) rfl)

/-- What waking the joiners of `t` makes of one of them. -/
theorem ConsistentBut.joiner_woken (hJ : ConsistentBut {t} s) {j : Tid}
    (hj : s.queues.home j = some (.join t)) :
    ((wakeJoiners t s).threads j).stat = .ready ∧ ((wakeJoiners t s).threads j).error = .eok := by
  obtain ⟨-, hwoken, hempty⟩ := wakeAll_spec (h := .join t) rfl
    (fun y => y.queues.home j = some (.join t) ∨ (y.threads j).stat = .ready ∧
      (y.threads j).error = .eok)
    (fun y k _ hy hk => by
      by_cases hjk : j = k
      · subst hjk
        exact .inr (by simp [wakeEdit])
      · rw [home_readied, if_neg hjk]
        simpa [hjk] using hy)
    ((s.queues.lists (.join t)).length) s hJ (.inl hj) le_rfl
  refine hwoken.resolve_left fun hin => ?_
  have hmem := (Intrusive.Queues.mem_iff _ _ _).mpr hin
  rw [hempty] at hmem
  cases hmem

/-- A ready thread is ready or runs after an evaluation. -/
theorem Cpu.Schedules.ready_or_running {c c' : Cpu} (h : c.Schedules cfg c') {j : Tid}
    (hj : (c.jobs j).stat = .ready) :
    (c'.jobs j).stat = .ready ∨ (c'.jobs j).stat = .running ∧ c'.current = some j := by
  have hverdict : ∀ {u : Tid} {next : Option Tid} {x : Cpu}, c.Verdict u next x →
      (x.jobs j).stat = .ready := by
    intro u next x hv
    have hset : ∀ k : Job, (u = j → k.stat = .ready) →
        (Function.update c.jobs u k j).stat = .ready := fun k hk =>
      Cpu.update_keeps (fun k => k.stat = .ready) hk hj
    cases hv with
    | runsOn hrun hlead hpeer => exact hj
    | preempts hrun hn hlt => exact hset _ fun _ => rfl
    | rotates hrun hn heq hy => exact hset _ fun _ => rfl
    | leaves hst hn hrr =>
      refine hset _ fun hu => ?_
      subst hu
      exact hj
  cases h with
  | holds h => exact .inl hj
  | decides h hok hd =>
    cases hd with
    | idle hc => exact .inl hj
    | stays hc h => exact .inl (hverdict h)
    | @pends u n x hport hc h =>
      have hx := hverdict h
      exact .inl hx
    | @switches u n x hport hc h =>
      by_cases hjn : j = n
      · subst hjn
        right
        rw [Cpu.dispatch_jobs_self, Cpu.begin_stat, Cpu.dispatch_frame]
        exact ⟨rfl, rfl⟩
      · left
        rw [Cpu.dispatch_jobs_of_ne cfg x hjn]
        split
        · have hstat : (Cpu.settle x.clock (x.jobs j)).stat = (x.jobs j).stat :=
            Cpu.settle_same Job.stat (fun _ _ _ _ => rfl) _ _
          rw [hstat]
          exact hverdict h
        · exact hverdict h

/-! ## The end of a thread -/

/-- A thread that is over is finished. -/
theorem Cpu.Over.finished (hr : (kernel cfg).Reach Machine.Always s) (h : s.cpu.Over t) :
    Finished cfg t s := by
  have hS := reach_sound hr
  have hJ := hS.consistent
  have hd : (s.threads t).stat = .dead := h.dead
  have hready : (s.threads t).stat ≠ .ready := by rw [hd]; decide
  have hblock : (s.threads t).stat ≠ .block := by rw [hd]; decide
  have hlisted : s.threadList.home t = none := by
    by_contra hin
    exact ((hJ.ok t).listed.mp (Option.isSome_iff_ne_none.mpr hin)).2 hd
  refine ⟨hd, s.queues.not_mem_of_free (hJ.home_none hready hblock),
    s.threadList.not_mem_of_free hlisted (), ?_, ?_, ?_, fun a ha hnew => ?_⟩
  · simp [State.isArmed, hJ.unarmed hblock]
  · by_contra harmed
    have hquiet : (if s.isArmed (.slice t) then some (s.timers (.slice t)).expireTime else none) =
        none :=
      reach_quiet hr t hd
    rw [if_pos (by simpa using harmed)] at hquiet
    cases hquiet
  · intro hpend hnext
    obtain ⟨hp, hzero⟩ := pendsv_allowed hpend
    exact absurd hzero (h.target hp hnext).1.ne'
  · exact ((exec_turn hS ha.1 ha.2).over hS ha.1 hnew h).2

/-- What is over for a thread stays so in every further run, until the thread is created again. -/
theorem Cpu.Over.path (hr : (kernel cfg).Reach Machine.Always s) (h : s.cpu.Over t)
    (hp : (kernel cfg).Path (fun _ b => b.creates ≠ some t) s s') : s'.cpu.Over t := by
  induction hp with
  | refl => exact h
  | step a hp he hnew ih =>
    have hS := reach_sound (hr.path (hp.mono fun _ _ _ => trivial))
    exact ((exec_turn hS he.1 he.2).over hS he.1 hnew ih).1

/-- `nd_thread_abort` refuses to end the thread.
kernel/nd_thread.c:170-173, 333-336 -/
def Spared (s : State) (t : Tid) : Prop :=
  (s.threads t).stat ≠ .dead ∧ ndIsThreadEssential (s.threads t) = true

/-- The PendSV handler is going to switch to thread `t`: no handler has asked for an evaluation, and
the end of the thread does not ask for one, either. -/
def StillTarget (s : State) (t : Tid) : Prop :=
  s.pendsv = true ∧ s.next = some t ∧ s.trySwitch = false ∧
    (s.current = some t → (s.threads t).stat = .dead)

/-- A thread that ends, by its return or by an abort, ends through `nd_thread_abort`. -/
theorem EndsBy.op (h : EndsBy cfg s t a) : a.op? = some (.threadAbort (some t)) := by
  cases h with
  | returns _ => rfl
  | aborted ha _ => exact ha

/-- What the step that ends a thread does is what `nd_thread_abort` does. -/
theorem EndsBy.exec (h : EndsBy cfg s t a) : NerdRtos.exec cfg a s =
    (ndThreadAbort cfg (some t) s).1 := by
  have hop := h.op
  cases a <;> cases hop <;> rfl

/-- The thread was dead before, or it is spared, or it ends.
kernel/nd_thread.c:317-342 -/
theorem EndsBy.outcome (h : EndsBy cfg s t a) (ha : allowed cfg s a = true) :
    NerdRtos.exec cfg a s = s ∧ ((s.threads t).stat = .dead ∨ Spared s t) ∨
      NerdRtos.exec cfg a s = ndThreadHalt cfg t s ∧ (s.threads t).stat.live ∧
        ndIsThreadEssential (s.threads t) = false := by
  have hvalid : (Op.threadAbort (some t)).valid s = true := by
    have hop := h.op
    cases a with
    | call o =>
      cases hop
      exact (call_allowed ha).1
    | irq o =>
      cases hop
      exact (irq_allowed ha).2.2
    | _ => cases hop
  simp only [Op.valid, decide_eq_true_eq] at hvalid
  rw [h.exec]
  by_cases hd : (s.threads t).stat = .dead
  · have hsame : (ndThreadAbort cfg (some t) s).1 = s := by
      unfold ndThreadAbort
      simp only [if_pos hd]
    exact .inl ⟨hsame, .inl hd⟩
  by_cases hess : ndIsThreadEssential (s.threads t) = true
  · have hsame : (ndThreadAbort cfg (some t) s).1 = s := by
      unfold ndThreadAbort
      simp only [if_neg hd, if_pos hess]
    exact .inl ⟨hsame, .inr ⟨hd, hess⟩⟩
  · have hhalt : (ndThreadAbort cfg (some t) s).1 = ndThreadHalt cfg t s := by
      unfold ndThreadAbort
      simp only [if_neg hd, if_neg hess]
    exact .inr ⟨hhalt, ⟨hvalid, hd⟩, Bool.eq_false_iff.mpr hess⟩

/-- The idle thread is essential. -/
theorem Sound.ne_idle_of_inessential (hS : Sound cfg s)
    (hess : ndIsThreadEssential (s.threads t) = false) :
    t ≠ idleTid := by
  intro hi
  have hidle : ndIsThreadEssential (s.threads t) = true := ((hS.consistent.ok t).idle hi).2
  rw [hess] at hidle
  cases hidle

/-- The end of a live thread. -/
theorem EndsBy.over (hr : (kernel cfg).Reach Machine.Always s) (ha : allowed cfg s a = true)
    (h : EndsBy cfg s t a)
    (hexec : NerdRtos.exec cfg a s = ndThreadHalt cfg t s) (hlive : (s.threads t).stat.live)
    (hess : ndIsThreadEssential (s.threads t) = false) (htarget : ¬ StillTarget s t) :
    (NerdRtos.exec cfg a s).cpu.Over t ∧ ∀ j ∈ s.queues.lists (.join t),
      Joined (NerdRtos.exec cfg a s) j := by
  have hS := reach_sound hr
  have hJ := hS.consistent
  have hne := hS.ne_idle_of_inessential hess
  obtain ⟨hJ', hhalted⟩ := hJ.halted hne
  have hframe := (hS.halt_moves h.op hlive hne).frame
  have hdead : ((wakeJoiners t (s.ended t)).cpu.jobs t).stat = .dead := hhalted.dead
  have hjoined : ∀ j ∈ s.queues.lists (.join t),
    ((wakeJoiners t (s.ended t)).threads j).stat = .ready ∧
      ((wakeJoiners t (s.ended t)).threads j).error = .eok := by
    intro j hj
    refine (hJ.ended hne).joiner_woken ?_
    have hjt : j ≠ t := by
      rintro rfl
      exact reach_not_own_joiner hr j hj
    simpa [State.ended, State.parked, hjt] using (s.queues.mem_iff _ _).mp hj
  rw [hexec, ndThreadHalt_eq hJ hlive]
  split
  · -- the scheduler chooses anew
    rename_i hcur
    have hschedules := hJ'.cpu_schedules cfg
    have hpend : (wakeJoiners t (s.ended t)).pendsv = s.pendsv := congrArg Cpu.pendsv hframe
    have hcurrent : (wakeJoiners t (s.ended t)).current = s.current := congrArg Cpu.current hframe
    have hflags : (wakeJoiners t (s.ended t)).sched = s.sched :=
      sched_of_flags (flags_wakeAll _ _ _)
    refine ⟨(hschedules.over ?_ ?_ hdead).1, fun j hj =>
      ⟨?_, hschedules.ready_or_running (hjoined j hj).1⟩⟩
    · intro hport
      exact hpend.trans (hS.settled.sync hport)
    · intro hmain
      exact hpend.trans (hS.settled.main (hcurrent.symm.trans hmain)).2
    · exact (error_of_offCpu (hS.unseen hJ' hflags) j).trans (hjoined j hj).2
  · rename_i hcur
    refine ⟨⟨hdead, ?_⟩, fun j hj => ⟨(hjoined j hj).2, .inl (hjoined j hj).1⟩⟩
    rw [hframe]
    intro hp hnext
    have hpend : s.pendsv = true := hp
    refine ⟨nest_of_pending ha (.inr
      (by rw [h.op]; simp)) hpend (fun hc => ?_) fun p ptr v he => ?_, ?_⟩
    · rw [(hS.settled.main hc).2] at hpend
      cases hpend
    · have hop := h.op
      rw [he] at hop
      cases hop
    · by_contra htry
      exact htarget ⟨hp, hnext, Bool.eq_false_iff.mpr htry, fun hc => absurd hc hcur⟩

/-- A thread that had ended before. -/
theorem EndsBy.over_again (hS : Sound cfg s) (ha : allowed cfg s a = true) (h : EndsBy cfg s t a)
    (hd : (s.threads t).stat = .dead) (htarget : ¬ StillTarget s t) : s.cpu.Over t := by
  refine ⟨hd, fun hp hnext => ⟨?_, ?_⟩⟩
  · refine nest_of_pending ha (.inr (by rw [h.op]; simp)) hp (fun hc => ?_) fun p ptr v he => ?_
    · have hpend : s.pendsv = true := hp
      rw [(hS.settled.main hc).2] at hpend
      cases hpend
    · have hop := h.op
      rw [he] at hop
      cases hop
  · by_contra htry
    exact htarget ⟨hp, hnext, Bool.eq_false_iff.mpr htry, fun _ => hd⟩

/-- Interrupts that end without a request do not choose anew, so the PendSV handler finds its target
unchanged. -/
theorem target_stays (n : ℕ) : ∀ {s : State}, (kernel cfg).Reach Machine.Always s → s.nest = n →
    s.pendsv = true → s.next = some t → s.trySwitch = false →
    ∃ s', (kernel cfg).Path (fun _ b => b.creates ≠ some t) s s' ∧ allowed cfg s' .pendsv = true ∧
      s'.next = some t := by
  induction n with
  | zero =>
    intro s hr hn hp hnext _
    have hf := (reach_sound hr).consistent.books.noFault
    refine ⟨s, .refl, ?_, hnext⟩
    simp [allowed, hf, hp, hn]
  | succ n ih =>
    intro s hr hn hp hnext htry
    have hS := reach_sound hr
    have hf := hS.consistent.books.noFault
    have hport : cfg.port = .deferred := by
      cases hport : cfg.port with
      | deferred => rfl
      | sync =>
        rw [hS.settled.sync hport] at hp
        cases hp
    have hexit : exec cfg .irqExit s = ndExitInterrupt s := by
      show irqExit cfg s = _
      unfold irqExit ndTrySchedule
      rw [hport]
      simp only
      have hoff : ¬ (ndExitInterrupt s).trySwitch = true := by
        rw [show (ndExitInterrupt s).trySwitch = false from htry]
        decide
      rw [if_neg hoff]
      split <;> rfl
    have henabled : (kernel cfg).enabled s .irqExit := by
      refine ⟨by simp [allowed, hf, hn], ?_⟩
      rw [hexit]
      exact hf
    have hstep : (kernel cfg).next .irqExit s = ndExitInterrupt s := hexit
    have hnot : Action.irqExit.creates ≠ some t := by simp [Action.creates, Action.op?]
    have hpath : (kernel cfg).Path (fun _ b => b.creates ≠ some t) s
        ((kernel cfg).next .irqExit s) :=
      .single Action.irqExit henabled hnot
    have hreach := hr.step Action.irqExit henabled trivial
    rw [hstep] at hpath hreach
    have hnest : (ndExitInterrupt s).nest = n := by
      show s.nest - 1 = n
      omega
    obtain ⟨s', hp', hgoal⟩ := ih hreach hnest hp hnext htry
    exact ⟨s', hpath.trans hp', hgoal⟩

/-- **A finished thread is finished** for good, and its joiners are awake, exactly when the kernel
does not refuse to end it and no pending switch goes to it.
kernel/nd_thread.c:163-220, 317-376 -/
theorem finished_for_good_iff (hr : (kernel cfg).Reach Machine.Always s)
    (ha : (kernel cfg).enabled s a)
    (hend : EndsBy cfg s t a) : FinishedForGood cfg t s a ↔ ¬ Spared s t ∧ ¬ StillTarget s t := by
  have hS := reach_sound hr
  have hnext := hr.step a ha trivial
  constructor
  · intro hgood
    have hdead := (hgood.2 _ .refl).dead
    refine ⟨fun hspared => ?_, fun ⟨hp, htn, htry, hcur⟩ => ?_⟩
    · rcases hend.outcome ha.1 with ⟨hexec, -⟩ | ⟨-, -, hess⟩
      · rw [hexec] at hdead
        exact hspared.1 hdead
      · rw [hspared.2] at hess
        cases hess
    · -- the PendSV handler is reached with the thread as its target
      have hflags : (exec cfg a s).pendsv = true ∧ (exec cfg a s).next = some t ∧
          (exec cfg a s).trySwitch = false := by
        rcases hend.outcome ha.1 with ⟨hexec, -⟩ | ⟨hexec, hlive, hess⟩
        · rw [hexec]
          exact ⟨hp, htn, htry⟩
        · have hframe := (hS.halt_moves hend.op hlive (hS.ne_idle_of_inessential hess)).frame
          rw [hexec, ndThreadHalt_eq hS.consistent hlive, if_neg fun hc => hlive.2 (hcur hc)]
          exact ⟨(congrArg Cpu.pendsv hframe).trans hp, (congrArg Cpu.next hframe).trans htn,
            (congrArg Cpu.trySwitch hframe).trans htry⟩
      obtain ⟨s', hpath, hpend, htarget⟩ := target_stays _ hnext rfl hflags.1 hflags.2.1 hflags.2.2
      exact (hgood.2 s' hpath).target hpend htarget
  · rintro ⟨hspared, htarget⟩
    have hfinished : (exec cfg a s).cpu.Over t ∧ ∀ j ∈ s.queues.lists (.join t),
        Joined (exec cfg a s) j := by
      rcases hend.outcome ha.1 with ⟨hexec, hd⟩ | ⟨hexec, hlive, hess⟩
      · have hdead := hd.resolve_right hspared
        rw [hexec]
        refine ⟨hend.over_again hS ha.1 hdead htarget, fun j hj => ?_⟩
        rcases (hS.consistent.ok j).joining t ((s.queues.mem_iff _ _).mp hj) with hin | hlive
        · cases hin
        · exact absurd hdead hlive.2
      · exact hend.over hr ha.1 hexec hlive hess htarget
    refine ⟨hfinished.2, fun s' hp => ?_⟩
    exact (hfinished.1.path hnext hp).finished (hnext.path (hp.mono fun _ _ _ => trivial))

/-- Thread 2 waits for the end of thread 1, which returns from its entry function. -/
def endingRun : List Action := [spawn 1 10, spawn 2 5, .start,
    .call (.wait (.threadJoin (some 1) ndTimeoutForever))]

/-- A thread with one joiner is aborted on a sync port. -/
theorem finished_for_good_run : ∃ s, (kernel syncPort).Reach Machine.Always s ∧
    s.queues.lists (.join 1) = [2] ∧
      FinishedForGood syncPort 1 s (.call (.threadAbort (some 1))) := by
  obtain ⟨s, hs, hp⟩ := (kernel syncPort).exists_run (l := endingRun) (s := boot syncPort {})
    (p := fun s => (s.queues.lists (.join 1) = [2]) && (threadMode s = some 1) &&
      decide ((kernel syncPort).enabled s (.call (.threadAbort (some 1)))) &&
      !ndIsThreadEssential (s.threads 1) && !s.pendsv) (by decide +kernel)
  simp only [Bool.and_eq_true, decide_eq_true_eq, Bool.not_eq_true'] at hp
  obtain ⟨⟨⟨⟨hjoin, hmode⟩, henabled⟩, hess⟩, hpend⟩ := hp
  refine ⟨s, reach_run hs, hjoin,
    (finished_for_good_iff (reach_run hs) henabled (.returns hmode)).mpr ⟨?_, ?_⟩⟩
  · rintro ⟨-, h⟩
    rw [hess] at h
    cases h
  · rintro ⟨h, -⟩
    rw [hpend] at h
    cases h

/-- `nd_thread_create` for an essential thread. -/
def spawnEssential (t : Tid) (p : ℕ) : Action :=
  .call (.threadCreate
    { thread := some t, name := some 1, entry := some 1, priority := p, stack := some 1
      stackSize := 512, options := ndThreadOptEssential, timeSlice := 0 })

/-- The entry function of an essential thread returns: the thread goes on running. -/
theorem essential_never_ends : ¬ ∀ s t, (kernel syncPort).Reach Machine.Always s →
    (kernel syncPort).enabled s (.call (.threadAbort (some t))) →
    EndsBy syncPort s t (.call (.threadAbort (some t))) →
    FinishedForGood syncPort t s (.call (.threadAbort (some t))) := by
  intro h
  obtain ⟨s, hs, hp⟩ := (kernel syncPort).exists_run (l := [spawnEssential 1 10, .start])
    (s := boot syncPort {})
    (p := fun s => (threadMode s = some 1) &&
      decide ((kernel syncPort).enabled s (.call (.threadAbort (some 1)))) &&
      ((exec syncPort (.call (.threadAbort (some 1))) s).threads 1).stat = .running)
        (by decide +kernel)
  simp only [Bool.and_eq_true, decide_eq_true_eq] at hp
  obtain ⟨⟨hmode, henabled⟩, hrun⟩ := hp
  have hdead := ((h s 1 (reach_run hs) henabled (.returns hmode)).2 _ .refl).dead
  rw [hrun] at hdead
  cases hdead

end NerdRtos
