import NerdRtos.Analysis.CpuTurns

/-!
# Requests to give way

`nd_thread_yield` and the end of a slice set the flag `yield`, and a rotation clears it.
`rotation_asked_iff`: a thread that is moved behind another thread of its priority has asked for it
since the last evaluation of `nd_schedule_pick_next` that it was the current thread of, except when
an older request is left over, which an evaluation has met and not granted.
-/

set_option autoImplicit false

namespace NerdRtos

variable {cfg : Config} {s : State} {a : Action} {t n : Tid} {k : Pick}

/-! ## Statement -/

/-- For each thread, whether it has asked to give way since the last evaluation that it was the
current thread of, and whether it has made a request that no rotation has granted. -/
structure Requests where
  asked : Tid → Bool
  kept : Tid → Bool

/-- The thread that calls `nd_thread_yield` or whose slice timer expires. -/
def Action.asks (s : State) : Action → Option Tid
  | .call .threadYield => s.current
  | .timerFire =>
    match leftmostTimer s with
    | some (.slice t) => some t
    | _ => none
  | _ => none

/-- The flag of thread `t` is set: at the end of a slice, only beside other ready threads.
kernel/nd_scheduler.c:237-257 -/
def Action.flags (s : State) (a : Action) (t : Tid) : Bool :=
  a = .call .threadYield ||
    ((s.timers (.slice t)).callback = .sliceTimeout &&
      !s.listIsEmpty (.ready (s.threads t).priority))

namespace Requests

/-- The action asks, or starts a thread anew. -/
def ask (s : State) (a : Action) (g : Requests) : Requests :=
  match a.asks s, a.creates with
  | some t, _ =>
    { asked := Function.update g.asked t true
      kept := if a.flags s t then Function.update g.kept t true else g.kept }
  | none, some t =>
    { asked := Function.update g.asked t false, kept := Function.update g.kept t false }
  | none, none => g

/-- The evaluation answers the current thread. -/
def answer (g : Requests) : Option Pick → Requests
  | none => g
  | some k =>
    { asked := Function.update g.asked k.current false
      kept := if k.rotate then Function.update g.kept k.current false else g.kept }

end Requests

/-- The evaluation of `nd_schedule_pick_next` in the step of action `a`. -/
def evaluated (cfg : Config) (a : Action) (s : State) : Option Pick :=
  if (exec cfg a s).picks.length = s.picks.length then none else (exec cfg a s).picks.head?

/-- The kernel, with the requests noted. -/
def askKernel (cfg : Config) : Machine (State × Requests) Action :=
  (kernel cfg).observed ⟨fun _ => false, fun _ => false⟩ fun a s g =>
    (g.ask s a).answer (evaluated cfg a s)

/-- The running thread was moved to the tail of its ready list in favour of a thread of its
priority. -/
def Rotated (s' : State) (k : Pick) : Prop :=
  k.stat = .running ∧ ∃ n, k.next = some n ∧
    (s'.threads n).priority = (s'.threads k.current).priority ∧
    (s'.queues.lists (.ready (s'.threads k.current).priority)).getLast? = some k.current

/-- The evaluation meets, as the first ready thread, one of the priority of the running thread, and
a request of the latter that an evaluation before has met and not granted. -/
def LeftOver (g : Requests) (k : Pick) : Prop :=
  k.stat = .running ∧ (∃ n, k.first = some (n, k.priority)) ∧ g.kept k.current = true ∧
    g.asked k.current = false

/-! ## The flags along a step -/

namespace Cpu

variable {c c' : Cpu}

/-- Moves leave the flags alone. -/
theorem Moves.yield (h : Moves a c c') (u : Tid) : (c'.jobs u).yield = (c.jobs u).yield := by
  refine h.induction (I := fun x => (x.jobs u).yield = (c.jobs u).yield) rfl fun x y _ _ hx hm => ?_
  rw [← hx]
  cases hm <;> refine update_same Job.yield ?_ u <;> rfl

/-- A dispatch leaves the requests. -/
theorem dispatch_yield (cfg : Config) (c : Cpu) (n u : Tid) :
    ((c.dispatch cfg n).jobs u).yield = (c.jobs u).yield :=
  dispatch_same Job.yield (settle_same _ fun _ _ _ _ => rfl) (fun _ => rfl)
    (begin_same _ fun _ _ _ _ => rfl) c n u

/-- From `c` to `c'`, evaluation `k` answers the current thread. -/
structure Answers (c c' : Cpu) (k : Pick) : Prop where
  picks : c'.picks = k :: c.picks
  yield : ∀ u, (c'.jobs u).yield =
    if k.rotate = true ∧ u = k.current then false else (c.jobs u).yield
  priority : ∀ u, (c'.jobs u).priority = (c.jobs u).priority
  level : k.priority = (c.jobs k.current).priority
  found : k.stat = .running → ∀ n, k.next = some n → k.first = some (n, (c.jobs n).priority)
  meets : k.stat = .running → (c.jobs k.current).yield = true → ∀ n,
    k.first = some (n, k.priority) → k.next = some n ∧ (c.jobs n).priority = k.priority
  rotates : k.stat = .running → ∀ n, k.next = some n →
    (c.jobs n).priority = (c.jobs k.current).priority →
      (c.jobs k.current).yield = true ∧
        (c'.ready (c.jobs k.current).priority).getLast? = some k.current

/-- The last thread of a list stays the last one when another leaves. -/
theorem getLast?_erase {l : List Tid} (h : l.getLast? = some t) (hn : n ≠ t) :
    (l.erase n).getLast? = some t := by
  obtain ⟨front, rfl⟩ := List.getLast?_eq_some_iff.mp h
  by_cases hmem : n ∈ front
  · rw [List.erase_append_left _ hmem]
    simp
  · rw [List.erase_append_right _ hmem, List.erase_of_not_mem (by simpa using hn)]
    simp

/-- A verdict answers the request of the current thread, with the thread that it has found first. -/
theorem Verdict.answers {next : Option Tid} (hok : c.Ok) (h : c.Verdict t next c') :
    ∃ k, k.next = next ∧ k.current = t ∧ (k.stat = .running → next ≠ some t) ∧ Answers c c' k := by
  have hready : ∀ {n}, c.First n → (c.jobs t).stat = .running → some n ≠ some t := by
    rintro n hn hrun h
    cases h
    have hr := ((hok.mem t _).mp (List.mem_of_head? hn.head)).1
    rw [hrun] at hr
    cases hr
  cases h with
  | runsOn hrun hlead hpeer =>
    rename_i first hfirst
    refine ⟨_, rfl, rfl, fun _ h => ?_, rfl, fun u => by simp, fun _ => rfl, rfl, fun _ n hn => ?_,
      fun _ hy n hm => ?_, fun _ n hn => ?_⟩
    · cases h
    · cases hn
    · obtain ⟨hhead, heq⟩ := hfirst n _ hm
      have hnone : c.ready (c.jobs t).priority = [] := hpeer hy
      have hsome := hhead.head
      rw [← heq, hnone] at hsome
      cases hsome
    · cases hn
  | @preempts n hrun hn hlt =>
    refine ⟨_, rfl, rfl, fun _ => hready hn hrun, rfl, fun u => ?_, fun u => ?_, rfl,
      fun _ m hm => ?_, fun _ _ m hm => ?_, fun _ m hm heq => ?_⟩
    · rw [if_neg (by simp)]
      refine update_same Job.yield ?_ u
      rfl
    · refine update_same Job.priority ?_ u
      rfl
    · cases hm
      rfl
    · obtain ⟨rfl, heq⟩ := Prod.mk.inj (Option.some.inj hm)
      exact absurd heq hlt.ne
    · cases hm
      exact absurd heq hlt.ne
  | @rotates n hrun hn heq hy =>
    refine ⟨_, rfl, rfl, fun _ => hready hn hrun, rfl, fun u => ?_, fun u => ?_, rfl,
      fun _ m hm => ?_, fun _ _ m hm => ?_, fun _ m hm _ => ⟨hy, ?_⟩⟩
    · by_cases hu : u = t
      · subst hu
        rw [if_pos ⟨rfl, rfl⟩]
        show (Function.update c.jobs u _ u).yield = false
        rw [Function.update_self]
        rfl
      · rw [if_neg fun h => hu h.2]
        show (Function.update c.jobs t _ u).yield = _
        rw [Function.update_of_ne hu]
    · refine update_same Job.priority ?_ u
      rfl
    · cases hm
      rfl
    · obtain ⟨rfl, heq⟩ := Prod.mk.inj (Option.some.inj hm)
      exact ⟨rfl, heq⟩
    · show (Function.update c.ready _ _ _).getLast? = some t
      rw [Function.update_self]
      simp
  | @leaves n rr hst hn hrr =>
    refine ⟨_, rfl, rfl, fun h => absurd h hst, rfl, fun u => ?_, fun u => ?_, rfl,
      fun h => absurd h hst, fun h => absurd h hst, fun h => absurd h hst⟩
    · by_cases hu : u = t
      · subst hu
        show (Function.update c.jobs u _ u).yield = _
        rw [Function.update_self]
        cases rr <;> simp
      · rw [if_neg fun h => hu h.2]
        show (Function.update c.jobs t _ u).yield = _
        rw [Function.update_of_ne hu]
    · refine update_same Job.priority ?_ u
      rfl

/-- A decision answers the current thread, if there is one. -/
theorem Decides.answers (hok : c.Ok) (h : Decides cfg c c') : c' = c ∨ ∃ k, Answers c c' k := by
  cases h with
  | idle _ => exact .inl rfl
  | stays hc h =>
    obtain ⟨k, -, -, -, hk⟩ := h.answers hok
    exact .inr ⟨k, hk⟩
  | @switches t n x hport hc h =>
    obtain ⟨k, hnext, hcur, hne, hk⟩ := h.answers hok
    refine .inr ⟨k, ?_, fun u => ?_, fun u => ?_, hk.level, hk.found, hk.meets,
      fun hrun m hm heq => ?_⟩
    · rw [dispatch_frame]
      exact hk.picks
    · rw [dispatch_yield]
      exact hk.yield u
    · rw [dispatch_priority]
      exact hk.priority u
    · obtain ⟨hy, hlast⟩ := hk.rotates hrun m hm heq
      refine ⟨hy, ?_⟩
      rw [dispatch_frame]
      exact getLast?_erase hlast fun h => hne hrun (congrArg some (h.trans hcur))
  | pends hport hc h =>
    obtain ⟨k, -, -, -, hk⟩ := h.answers hok
    exact .inr ⟨k, hk.picks, hk.yield, hk.priority, hk.level, hk.found, hk.meets, hk.rotates⟩

end Cpu

/-! ## Invariant -/

/-- The flags are the requests that no rotation has granted. -/
def Cpu.Flagged (c : Cpu) (g : Requests) : Prop := ∀ u, (c.jobs u).yield = g.kept u

/-- The requests and the flags agree when a decision answers one. -/
theorem Cpu.Flagged.answer {c c' : Cpu} {g : Requests} (h : c.Flagged g) (hk : Cpu.Answers c c' k) :
    c'.Flagged (g.answer (some k)) := by
  intro u
  rw [hk.yield, h u]
  unfold Requests.answer
  by_cases hr : k.rotate = true
  · by_cases hu : u = k.current
    · subst hu
      simp [hr]
    · simp [hr, hu]
  · simp [hr]

/-- What a turn does to the flags: it notes the requests of the action, and one evaluation answers
them or none. -/
inductive Answered (s : State) (g : Requests) : Cpu → Prop
  | quiet {c : Cpu} (hp : c.picks = s.picks) (h : c.Flagged g) : Answered s g c
  | picked {x c : Cpu} {k : Pick} (hp : x.picks = s.picks) (h : x.Flagged g)
    (hk : Cpu.Answers x c k) :
      Answered s g c

/-- The scheduler answers at most the request that was made before it. -/
theorem Answered.schedules {x c : Cpu} {g : Requests} (hp : x.picks = s.picks) (h : x.Flagged g)
    (hs : x.Schedules cfg c) : Answered s g c := by
  cases hs with
  | holds _ => exact .quiet hp h
  | decides _ hok hd =>
    rcases hd.answers hok with rfl | ⟨k, hk⟩
    · exact .quiet hp h
    · exact .picked hp h hk

/-- An action that asks for nothing and starts no thread. -/
theorem Requests.ask_eq {g : Requests} (h : a.asks s = none) (h' : a.creates = none) :
    g.ask s a = g := by
  unfold Requests.ask
  rw [h, h']

/-- An action by which thread `t` asks. -/
theorem Requests.ask_some {g : Requests} (h : a.asks s = some t) : g.ask s a =
    { asked := Function.update g.asked t true
      kept := if a.flags s t then Function.update g.kept t true else g.kept } := by
  unfold Requests.ask
  rw [h]

/-- The flag of one thread is set. -/
theorem Cpu.Flagged.set {c : Cpu} {g : Requests} (h : c.Flagged g) (t : Tid) {j : Job} {y : Bool}
    (hj : j.yield = y) (asked : Tid → Bool) :
    (c.set t j).Flagged ⟨asked, Function.update g.kept t y⟩ := by
  intro u
  by_cases hu : u = t
  · subst hu
    simp [hj]
  · show (Function.update c.jobs t j u).yield = Function.update g.kept t y u
    rw [Function.update_of_ne hu, Function.update_of_ne hu]
    exact h u

/-- A plain call asks for no yield. -/
theorem asks_of_plain (h : a.plain s) : a.asks s = none := by
  cases a with
  | call o =>
    cases o with
    | threadYield => exact absurd rfl h.1
    | _ => rfl
  | timerFire =>
    unfold Action.asks
    simp only
    split
    · rename_i t ht
      exact absurd ht (h t)
    · rfl
  | _ => rfl

/-- `nd_thread_create` asks for nothing. -/
theorem asks_of_create {b : CreateArgs} (ha : a.op? = some (.threadCreate b)) :
    a.asks s = none := by
  cases a with
  | call o =>
    cases ha
    rfl
  | irq o => rfl
  | _ => cases ha

/-- When a slice timer expires, its thread asks. -/
theorem asks_of_slice (hl : leftmostTimer s = some (.slice t)) :
    Action.asks s .timerFire = some t := by
  simp [Action.asks, hl]

/-- The end of a slice sets the flag beside other ready threads. -/
theorem flags_of_peers (hcb : (s.job t).callback = .sliceTimeout)
    (hpeers : s.cpu.ready (s.job t).priority ≠ []) : Action.flags s .timerFire t = true := by
  have hcb' : (s.timers (.slice t)).callback = .sliceTimeout := hcb
  have hpeers' : s.queues.lists (.ready (s.threads t).priority) ≠ [] := hpeers
  simp [Action.flags, hcb', State.listIsEmpty, hpeers']

/-- Alone at its priority, a thread goes on without the flag. -/
theorem flags_of_alone
    (hwhy : (s.job t).callback ≠ .sliceTimeout ∨ s.cpu.ready (s.job t).priority = []) :
    Action.flags s .timerFire t = false := by
  have hwhy' : (s.timers (.slice t)).callback ≠ .sliceTimeout ∨
      s.queues.lists (.ready (s.threads t).priority) = [] := hwhy
  simp only [Action.flags, reduceCtorEq, decide_false, Bool.false_or, Bool.and_eq_false_iff,
    decide_eq_false_iff_not]
  exact hwhy'.imp_right fun h => by simp [State.listIsEmpty, h]

/-- One step. -/
theorem Turn.answered {c : Cpu} {g : Requests} (h : s.cpu.Flagged g) (hT : Turn cfg s a c) :
    Answered s (g.ask s a) c := by
  have hplain : a.plain s → g.ask s a = g := fun h =>
    Requests.ask_eq (asks_of_plain h) (creates_of_plain h)
  cases hT with
  | refused ha =>
    rw [hplain ha]
    exact .quiet rfl h
  | rests ha _ hm =>
    rw [hplain ha]
    refine .quiet ?_ fun u => (hm.yield u).trans (h u)
    rw [hm.frame]
    rfl
  | schedules ha hm hs =>
    rw [hplain ha]
    refine .schedules ?_ (fun u => (hm.yield u).trans (h u)) hs
    rw [hm.frame]
    rfl
  | @creates t b _ ha ht hb _ _ hs =>
    have hcreates : a.creates = some t := Action.creates_eq_some ha hb ht
    have hask : g.ask s a =
        { asked := Function.update g.asked t false, kept := Function.update g.kept t false } := by
      unfold Requests.ask
      rw [asks_of_create ha, hcreates]
    rw [hask]
    have hset : (s.cpu.set t (Job.create b)).Flagged
        ⟨Function.update g.asked t false, Function.update g.kept t false⟩ := h.set t rfl _
    exact .schedules (x := (s.cpu.set t (Job.create b)).append t b.priority) rfl hset hs
  | @declines b ha hb =>
    have hcreates : a.creates = none := by
      apply Action.creates_eq_none
      intro b' hop
      cases ha.symm.trans hop
      exact hb
    rw [Requests.ask_eq (asks_of_create ha) hcreates]
    exact .quiet rfl h
  | @yields t _ ha hc hrun hs =>
    subst ha
    have hasks : Action.asks s (.call .threadYield) = some t := hc
    rw [Requests.ask_some hasks, if_pos (by simp [Action.flags])]
    exact .schedules rfl (h.set t rfl _) hs
  | @expires t ha hl hc hcb hpeers =>
    subst ha
    have hset : (s.cpu.set t (s.job t).expire).Flagged
        ⟨Function.update g.asked t true, Function.update g.kept t true⟩ := h.set t rfl _
    rw [Requests.ask_some (asks_of_slice hl), if_pos (flags_of_peers hcb hpeers)]
    exact .quiet rfl hset
  | @lapses t ha hl hc hwhy =>
    subst ha
    have hflag := flags_of_alone hwhy
    rw [Requests.ask_some (asks_of_slice hl), if_neg (by rw [hflag]; decide)]
    refine .quiet rfl fun u => ?_
    refine (Cpu.update_same Job.yield ?_ u).trans (h u)
    rfl
  | switches ha _ _ =>
    subst ha
    rw [Requests.ask_eq rfl rfl, Cpu.dispatch_frame]
    exact .quiet rfl fun u => (Cpu.dispatch_yield cfg _ _ u).trans (h u)
  | starts ha _ _ =>
    subst ha
    rw [Requests.ask_eq rfl rfl, Cpu.dispatch_frame]
    exact .quiet rfl fun u => (Cpu.dispatch_yield cfg _ _ u).trans (h u)
  | decides ha _ _ _ hok hd =>
    subst ha
    rw [Requests.ask_eq rfl rfl]
    rcases hd.answers hok with he | ⟨k, hk⟩
    · rw [he]
      exact .quiet rfl h
    · exact .picked (x := { s.cpu with nest := s.nest - 1, trySwitch := false }) rfl h hk
  | ticks k ha =>
    subst ha
    rw [Requests.ask_eq rfl rfl]
    exact .quiet rfl h
  | enters ha =>
    subst ha
    rw [Requests.ask_eq rfl rfl]
    exact .quiet rfl h
  | exits ha _ _ =>
    subst ha
    rw [Requests.ask_eq rfl rfl]
    exact .quiet rfl h

/-! ## Runs -/

/-- Without a new decision nothing was evaluated. -/
theorem Answered.quiet_evaluated (h : (exec cfg a s).cpu.picks = s.picks) :
    evaluated cfg a s = none := by
  have hlen : (exec cfg a s).picks.length = s.picks.length := congrArg List.length h
  exact if_pos hlen

/-- The new decision is what was evaluated. -/
theorem Answered.picked_evaluated (h : (exec cfg a s).cpu.picks = k :: s.picks) :
    evaluated cfg a s = some k := by
  have hp : (exec cfg a s).picks = k :: s.picks := h
  unfold evaluated
  rw [hp, if_neg (by simp), List.head?_cons]

/-- Every reachable state has the invariant. -/
theorem reach_flagged {x : State × Requests} (h : (askKernel cfg).Reach Machine.Always x) :
    x.1.cpu.Flagged x.2 := by
  refine Machine.Reach.induction (I := fun x : State × Requests => x.1.cpu.Flagged x.2) ?_ ?_ h
  · rintro ⟨s, g⟩ ⟨⟨u, hs⟩, hg⟩
    cases hs
    cases hg
    show (boot cfg u).cpu.Flagged _
    rw [cpu_boot]
    intro v
    refine Cpu.update_same Job.yield ?_ v
    rfl
  · rintro ⟨s, g⟩ a hr hI ⟨ha, hf⟩ -
    show (exec cfg a s).cpu.Flagged ((g.ask s a).answer (evaluated cfg a s))
    have hA := (exec_turn (reach_sound hr.unobserved) ha hf).answered hI
    generalize hc : (exec cfg a s).cpu = c at hA
    cases hA with
    | quiet hp h =>
      rw [Answered.quiet_evaluated (hc ▸ hp)]
      exact h
    | picked hp h hk =>
      rw [Answered.picked_evaluated (hc ▸ (hp ▸ hk.picks))]
      exact h.answer hk

/-- **Which rotations were asked for.** In every run, an evaluation moves the running thread behind
another one of its priority only when the thread has asked for it since the last evaluation that it
was the current thread of, exactly when the evaluation does not meet a request that is left over. -/
theorem rotation_asked_iff {x : State × Requests} (h : (askKernel cfg).Reach Machine.Always x)
    (he : (askKernel cfg).enabled x a) (hk : evaluated cfg a x.1 = some k) :
    (Rotated (exec cfg a x.1) k → (x.2.ask x.1 a).asked k.current = true) ↔
      ¬ LeftOver (x.2.ask x.1 a) k := by
  obtain ⟨s, g⟩ := x
  have hA := (exec_turn (reach_sound h.unobserved) he.1 he.2).answered (reach_flagged h)
  generalize hc : (exec cfg a s).cpu = c at hA
  cases hA with
  | quiet hp _ =>
    have hnone : evaluated cfg a s = none := Answered.quiet_evaluated (hc ▸ hp)
    rw [hnone] at hk
    cases hk
  | @picked y _ k' hp hy hans =>
    have hsome : evaluated cfg a s = some k' := Answered.picked_evaluated (hc ▸ (hp ▸ hans.picks))
    rw [hsome] at hk
    cases hk
    subst hc
    have hpr : ∀ u, ((exec cfg a s).threads u).priority = (y.jobs u).priority := hans.priority
    constructor
    · rintro hasked ⟨hrun, ⟨n, hn⟩, hkept, hnot⟩
      -- the request that is left over is the flag, and the flag makes it rotate
      obtain ⟨hnext, heq⟩ := hans.meets hrun ((hy k.current).trans hkept) n hn
      rw [hans.level] at heq
      obtain ⟨-, hlast⟩ := hans.rotates hrun n hnext heq
      have hrot : Rotated (exec cfg a s) k := by
        refine ⟨hrun, n, hnext, ?_, ?_⟩
        · rw [hpr, hpr]
          exact heq
        · rw [hpr]
          exact hlast
      have hyes := hasked hrot
      rw [hnot] at hyes
      cases hyes
    · rintro hfresh ⟨hrun, n, hn, heq, -⟩
      rw [hpr, hpr] at heq
      by_contra hnot
      refine hfresh ⟨hrun, ⟨n, ?_⟩, ?_, by simpa using hnot⟩
      · rw [hans.found hrun n hn, heq, hans.level]
      · exact (hy k.current).symm.trans (hans.rotates hrun n hn heq).1

instance (cfg : Config) (x : State × Requests) (a : Action) :
    Decidable ((askKernel cfg).enabled x a) :=
  inferInstanceAs (Decidable ((kernel cfg).enabled x.1 a))

/-- Thread 1 yields beside thread 2. -/
theorem rotation_asked_run : ∃ x k, (askKernel syncPort).Reach Machine.Always x ∧
    (askKernel syncPort).enabled x (.call .threadYield) ∧
    evaluated syncPort (.call .threadYield) x.1 = some k ∧
    (Rotated (exec syncPort (.call .threadYield) x.1) k →
      (x.2.ask x.1 (.call .threadYield)).asked k.current = true) := by
  obtain ⟨x, hrun, hx⟩ := (askKernel syncPort).exists_run (l := [spawn 1 10, spawn 2 10, .start])
    (s := (boot syncPort {}, ⟨fun _ => false, fun _ => false⟩))
    (p := fun x => decide ((askKernel syncPort).enabled x (.call .threadYield)) &&
      (evaluated syncPort (.call .threadYield) x.1 =
        some ⟨1, .running, 10, some (2, 10), some 2, true⟩) &&
      (x.2.ask x.1 (.call .threadYield)).asked 1) (by decide +kernel)
  simp only [Bool.and_eq_true, decide_eq_true_eq] at hx
  obtain ⟨⟨he, hk⟩, hasked⟩ := hx
  have hr : (askKernel syncPort).Reach Machine.Always x :=
    (askKernel syncPort).reach_of_run (fun _ _ _ => trivial) (.start ⟨⟨{}, rfl⟩, rfl⟩) hrun
  refine ⟨x, _, hr, he, hk, (rotation_asked_iff hr he hk).mpr ?_⟩
  rintro ⟨-, -, -, hnot⟩
  rw [hasked] at hnot
  cases hnot

/-- Thread 1 yields alone, and later creates thread 2: the rotation is the answer to the old
request. -/
theorem yield_outlives : ¬ ∀ x, (askKernel syncPort).Reach Machine.Always x → ∀ a,
    (askKernel syncPort).enabled x a → ∀ k, evaluated syncPort a x.1 = some k →
      Rotated (exec syncPort a x.1) k → (x.2.ask x.1 a).asked k.current = true := by
  intro h
  obtain ⟨x, hrun, hx⟩ := (askKernel syncPort).exists_run
    (l := [spawn 1 10, .start, .call .threadYield])
    (s := (boot syncPort {}, ⟨fun _ => false, fun _ => false⟩))
    (p := fun x => decide ((askKernel syncPort).enabled x (spawn 2 10)) &&
      (evaluated syncPort (spawn 2 10) x.1 =
        some ⟨1, .running, 10, some (2, 10), some 2, true⟩) &&
      (((exec syncPort (spawn 2 10) x.1).threads 2).priority =
        ((exec syncPort (spawn 2 10) x.1).threads 1).priority) &&
      (((exec syncPort (spawn 2 10) x.1).queues.lists
        (.ready ((exec syncPort (spawn 2 10) x.1).threads 1).priority)).getLast? = some 1) &&
      !(x.2.ask x.1 (spawn 2 10)).asked 1) (by decide +kernel)
  simp only [Bool.and_eq_true, decide_eq_true_eq, Bool.not_eq_true'] at hx
  obtain ⟨⟨⟨⟨he, hk⟩, heq⟩, hlast⟩, hnot⟩ := hx
  have hr : (askKernel syncPort).Reach Machine.Always x :=
    (askKernel syncPort).reach_of_run (fun _ _ _ => trivial) (.start ⟨⟨{}, rfl⟩, rfl⟩) hrun
  have hyes := h x hr _ he _ hk ⟨rfl, 2, rfl, heq, hlast⟩
  rw [hnot] at hyes
  cases hyes

end NerdRtos
