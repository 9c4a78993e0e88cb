import NerdRtos.Analysis.OrderOfEquals
import NerdRtos.Analysis.LockMoves

/-!
# An expired slice gives way

The end of a slice only sets a flag and asks for an evaluation at the end of the interrupt. From
there on the thread stands behind its peers (`Cpu.Stand`), unless the evaluation prefers a thread of
a higher priority: then it goes back to the head of its list, in front of the peers.
`expired_slice_gives_way`: without that, and without a thread that raises the priority of the
expired one, a peer has left the list before the thread is dispatched again.
-/

set_option autoImplicit false

namespace NerdRtos

variable {cfg : Config} {s s' : State} {a : Action} {t u n : Tid} {p : ℕ} {l : List Tid}

/-! ## Statement -/

/-- In a step of action `a`, the threads of `l` stay on ready list `p`, and thread `t` is not
created anew. -/
structure PeersStay (cfg : Config) (p : ℕ) (l : List Tid) (t : Tid) (s : State) (a : Action) :
    Prop where
  peers : ∀ u ∈ l, u ∈ (exec cfg a s).queues.lists (.ready p)
  same : a.creates ≠ some t

/-- The evaluation at the end of the interrupts finds no thread that outranks thread `t`, if that is
running, and no thread of a higher priority meets a mutex that thread `t` owns. -/
structure NotOutranked (cfg : Config) (t : Tid) (s : State) (a : Action) : Prop where
  exit : a = .irqExit → s.trySwitch = true → (cfg.port = .deferred → s.nest = 1) →
    (s.threads t).stat = .running →
    ∀ v, (s.threads v).stat = .ready → (s.threads t).priority ≤ (s.threads v).priority
  lock : ∀ m k c, a = .call (.wait (.mutexLock m k)) → s.current = some c →
    (s.mutexes m).owner = some t →
    (s.threads t).priority ≤ (s.threads c).priority

/-! ## Moves -/

namespace Cpu

variable {c c' x y : Cpu}

/-- Where thread `t` is after the end of its slice, while thread `u` is ready: it runs and has asked
to give way, it is ready behind `u`, or it has left. -/
inductive Stand (u t : Tid) (p : ℕ) (c : Cpu) : Prop
  | asks (hrun : (c.jobs t).stat = .running) (hy : (c.jobs t).yield = true)
  | behind (h : [u, t].Sublist (c.ready p))
  | off (h : (c.jobs t).stat = .suspend ∨ (c.jobs t).stat = .dead)

/-- The thread stays where its state, its request and its place do. -/
theorem Stand.same (h : Stand u t p x) (hjob : (y.jobs t).stat = (x.jobs t).stat)
    (hy : (y.jobs t).yield = true ∨ (y.jobs t).yield = (x.jobs t).yield)
    (hsub : [u, t].Sublist (x.ready p) → [u, t].Sublist (y.ready p)) : Stand u t p y := by
  cases h with
  | asks hrun hask =>
    refine .asks (hjob.trans hrun) ?_
    rcases hy with h | h
    · exact h
    · exact h.trans hask
  | behind h => exact .behind (hsub h)
  | off h =>
    rw [← hjob] at h
    exact .off h

/-- The thread does not wait. -/
theorem Stand.not_blocked (hok : c.Ok) (h : Stand u t p c) : (c.jobs t).stat ≠ .block := by
  intro hblock
  cases h with
  | asks hrun hy =>
    rw [hblock] at hrun
    cases hrun
  | behind h =>
    have hready := ((hok.mem t p).mp (h.subset (by simp))).1
    rw [hblock] at hready
    cases hready
  | off h =>
    rw [hblock] at h
    rcases h with h | h <;> cases h

/-- The move of another thread. -/
theorem Stand.other (h : Stand u t p x) (hu : u ∈ x.ready p) (hp : (x.jobs t).priority = p)
    (hjob : y.jobs t = x.jobs t)
    (hsub : ∀ r : List Tid, (∀ v ∈ r, v = u ∨ v = t) → r.Sublist (x.ready p) →
      r.Sublist (y.ready p)) :
    Stand u t p y ∧ u ∈ y.ready p ∧ (y.jobs t).priority = p := by
  refine ⟨h.same (by rw [hjob]) (.inr (by rw [hjob])) (hsub _ (by simp)), ?_, by rw [hjob, hp]⟩
  exact List.singleton_sublist.mp (hsub [u] (by simp) (List.singleton_sublist.mpr hu))

/-- A third thread leaves its list. -/
theorem sublist_take_other {r : List Tid} {o : Tid} (hr : ∀ v ∈ r, v = u ∨ v = t) (hto : t ≠ o)
    (huo : u ≠ o) (hsub : r.Sublist (x.ready p)) : r.Sublist ((x.take o).ready p) := by
  refine sublist_take hsub fun ho => ?_
  rcases hr o ho with h | h
  · exact huo h.symm
  · exact hto h.symm

/-- The thread itself leaves. -/
theorem Stand.leaves (hu : u ∈ x.ready p) (hp : (x.jobs t).priority = p) (htu : t ≠ u) {j : Job}
    (hj : j.stat = .suspend ∨ j.stat = .dead) (hprio : j.priority = (x.jobs t).priority) :
    Stand u t p ((x.take t).set t j) ∧ u ∈ ((x.take t).set t j).ready p ∧
      (((x.take t).set t j).jobs t).priority = p := by
  have hjob : ((x.take t).set t j).jobs t = j := by
    rw [set_jobs, Function.update_self]
  refine ⟨.off (by rw [hjob]; exact hj), ?_, by rw [hjob, hprio, hp]⟩
  exact (List.mem_erase_of_ne htu.symm).mpr hu

/-- The thread comes back, at the tail. -/
theorem Stand.resumes (hu : u ∈ x.ready p) (hp : (x.jobs t).priority = p) (j : Job)
    (hj : j.priority = (x.jobs t).priority) :
    let y := (x.set t j).append t (x.jobs t).priority
    Stand u t p y ∧ u ∈ y.ready p ∧ (y.jobs t).priority = p := by
  intro y
  have hjob : y.jobs t = j := Function.update_self t _ x.jobs
  have hready : y.ready p = x.ready p ++ [t] := by
    show Function.update x.ready (x.jobs t).priority _ p = _
    rw [hp]
    exact Function.update_self p _ x.ready
  refine ⟨.behind ?_, ?_, ?_⟩
  · rw [hready]
    exact (List.singleton_sublist.mpr hu).append (List.Sublist.refl [t])
  · rw [hready]
    exact List.mem_append_left _ hu
  · rw [hjob, hj]
    exact hp

/-- An owner of the priority of the line is raised over it. -/
theorem Raised.boosts {o v : Tid} {q : ℕ}
    (ha : ∃ m k, a = .call (.wait (.mutexLock m k))) (hq : q < (x.jobs o).priority) (hvo : v = o)
    (hv : (x.jobs v).priority = p) :
    Raised a p v (((x.take o).set o { x.jobs o with priority := q }).push o q) := by
  subst hvo
  refine ⟨ha, ?_⟩
  show (Function.update x.jobs v _ v).priority < p
  rw [Function.update_self, ← hv]
  exact hq

/-- One move. -/
theorem Stand.move (hok : x.Ok) (hm : Move a x y) (h : Stand u t p x) (hu : u ∈ x.ready p)
    (hp : (x.jobs t).priority = p) (htu : t ≠ u) (hnest : (x.jobs t).stat = .running → 0 < x.nest)
    (hunlock : ∀ m, a = .call (.mutexUnlock m) → x.current ≠ some t) :
    (Stand u t p y ∧ u ∈ y.ready p ∧ (y.jobs t).priority = p) ∨ Out a p u y ∨ Raised a p t y := by
  obtain ⟨hust, huprio⟩ := (hok.mem u p).mp hu
  -- a thread that calls is not the one that is to give way
  have hcaller : ∀ {o : Tid}, (x.jobs o).stat = .running → x.nest = 0 → t ≠ o := by
    rintro o hrun hn rfl
    have hpos := hnest hrun
    omega
  cases hm with
  | @wakes o reload hst hr hc =>
    have hto : t ≠ o := by
      rintro rfl
      exact h.not_blocked hok hst
    exact .inl (h.other hu hp (Function.update_of_ne hto _ _) fun r _ hr =>
      sublist_append (c := x.set o ((x.jobs o).wake reload)) hr _ _)
  | @resumes o ha hst =>
    by_cases hto : t = o
    · subst hto
      exact .inl (Stand.resumes hu hp _ rfl)
    · exact .inl (h.other hu hp (Function.update_of_ne hto _ _) fun r _ hr =>
        sublist_append (c := x.set o ((x.jobs o).wake false)) hr _ _)
  | @boosts o q ha hst hq =>
    by_cases hto : t = o
    · exact .inr (.inr (.boosts ha hq hto hp))
    by_cases huo : u = o
    · exact .inr (.inl (.raised (.boosts ha hq huo huprio)))
    · refine .inl (h.other hu hp (Function.update_of_ne hto _ _) fun r hr hsub => ?_)
      have htake := sublist_take_other hr hto huo hsub
      exact sublist_push (c := (x.take o).set o { x.jobs o with priority := q }) htake _ _
  | @reprio o q hst hq hwhy =>
    by_cases hto : t = o
    · subst hto
      rcases hwhy with ⟨ha, -, hlt⟩ | ⟨⟨m, ha⟩, hc⟩
      · refine .inr (.inr ⟨ha, ?_⟩)
        show (Function.update x.jobs t _ t).priority < p
        rw [Function.update_self, ← hp]
        exact hlt
      · exact absurd hc (hunlock m ha)
    · exact .inl (h.other hu hp (Function.update_of_ne hto _ _) fun r _ hr => hr)
  | @waits o hc hrun hn =>
    exact .inl (h.other hu hp (Function.update_of_ne (hcaller hrun hn) _ _) fun r _ hr => hr)
  | @delays o hc hrun ha hn =>
    exact .inl (h.other hu hp (Function.update_of_ne (hcaller hrun hn) _ _) fun r _ hr => hr)
  | @suspends o ha hlive =>
    by_cases hto : t = o
    · subst hto
      exact .inl (Stand.leaves hu hp htu (.inl rfl) rfl)
    by_cases huo : u = o
    · subst huo
      exact .inr (.inl (.gone (.suspended (congrArg Job.stat (Function.update_self u _ x.jobs))
        ha)))
    · exact .inl (h.other hu hp (Function.update_of_ne hto _ _) fun r hr hsub =>
        sublist_take_other hr hto huo hsub)
  | @ends o ha hlive =>
    by_cases hto : t = o
    · subst hto
      exact .inl (Stand.leaves hu hp htu (.inr rfl) rfl)
    by_cases huo : u = o
    · subst huo
      exact .inr (.inl (.gone (.dead (congrArg Job.stat (Function.update_self u _ x.jobs)))))
    · exact .inl (h.other hu hp (Function.update_of_ne hto _ _) fun r hr hsub =>
        sublist_take_other hr hto huo hsub)

/-- The moves of a step. -/
theorem Stand.moves (hm : Moves a c c') (h : Stand u t p c) (hu : u ∈ c.ready p)
    (hp : (c.jobs t).priority = p) (htu : t ≠ u) (hnest : (c.jobs t).stat = .running → 0 < c.nest)
    (hunlock : ∀ m, a = .call (.mutexUnlock m) → c.current ≠ some t) :
    (Stand u t p c' ∧ u ∈ c'.ready p ∧ (c'.jobs t).priority = p) ∨ Out a p u c' ∨
      Raised a p t c' := by
  have hboth : ((Stand u t p c' ∧ u ∈ c'.ready p ∧ (c'.jobs t).priority = p) ∨ Out a p u c' ∨
    Raised a p t c') ∧
      ((c'.jobs t).stat = .running → (c.jobs t).stat = .running) := by
    refine hm.induction (I := fun x =>
      ((Stand u t p x ∧ u ∈ x.ready p ∧ (x.jobs t).priority = p) ∨ Out a p u x ∨ Raised a p t x) ∧
      ((x.jobs t).stat = .running → (c.jobs t).stat = .running)) ⟨.inl ⟨h, hu, hp⟩, fun h =>
        h⟩ fun x y hok hframe hx hmove => ?_
    have hcur : x.current = c.current := by rw [hframe]
    have hn : x.nest = c.nest := by rw [hframe]
    refine ⟨?_, fun hrun => hx.2 (Moves.running (Relation.ReflTransGen.single ⟨hok, hmove⟩) hrun)⟩
    rcases hx.1 with ⟨hstand, hu, hp⟩ | hout | hraised
    · refine hstand.move hok hmove hu hp htu (fun hrun => ?_) fun m hm => ?_
      · rw [hn]
        exact hnest (hx.2 hrun)
      · rw [hcur]
        exact hunlock m hm
    · exact .inr (.inl (hout.move hmove))
    · exact .inr (.inr (hraised.move hmove))
  exact hboth.1

/-! ## Decisions -/

/-- The successor is not the thread that is to give way. -/
theorem Stand.ne_first (hok : c.Ok) (h : Stand u t p c) (hn : c.First n) : n ≠ t := by
  have hready := ((hok.mem _ _).mp (List.mem_of_head? hn.head)).1
  cases h with
  | asks hrun hy =>
    rintro rfl
    rw [hready] at hrun
    cases hrun
  | behind h => exact hn.ne_of_sublist hok h
  | off h =>
    rintro rfl
    rw [hready] at h
    rcases h with h | h <;> cases h

/-- A switch to another thread than both. -/
theorem Stand.dispatch (h : Stand u t p c) (hnt : n ≠ t) (hnu : n ≠ u) :
    Stand u t p (c.dispatch cfg n) := by
  refine h.same (dispatch_stat_of_ne cfg hnt) (.inr (dispatch_yield cfg c n t)) fun hsub => ?_
  have hready : (c.dispatch cfg n).ready p = (c.ready p).erase n := by rw [dispatch_frame]
  rw [hready]
  exact sublist_take hsub (by simpa using ⟨hnu, hnt⟩)

/-- An evaluation, if no thread outranks thread `t`: it runs no more. -/
theorem Verdict.stand {w : Tid} {next : Option Tid} (hok : c.Ok) (hc : c.current = some w)
    (hv : c.Verdict w next x)
    (h : Stand u t p c) (hu : u ∈ c.ready p) (hp : (c.jobs t).priority = p) (htu : t ≠ u)
    (hout : (c.jobs t).stat = .running → ∀ v, (c.jobs v).stat = .ready → p ≤ (c.jobs v).priority) :
    Stand u t p x ∧ (x.jobs t).stat ≠ .running ∧ next ≠ some t := by
  have hready : ∀ {n : Tid}, c.First n → (c.jobs n).stat = .ready := fun hn =>
    ((hok.mem _ _).mp (List.mem_of_head? hn.head)).1
  have hself : (c.jobs t).stat = .running → w = t := fun hrun =>
    Option.some.inj (hc.symm.trans (hok.running t hrun).1)
  have hoff : w ≠ t → (c.jobs t).stat ≠ .running := fun hwt hrun => hwt (hself hrun)
  have hother : ∀ {j : Job}, w ≠ t → (Function.update c.jobs w j t) = c.jobs t := fun hwt =>
    Function.update_of_ne hwt.symm _ _
  cases hv with
  | runsOn hrun hlead hpeer =>
    have hwt : w ≠ t := by
      rintro rfl
      cases h with
      | asks _ hy =>
        rw [← hp, hpeer hy] at hu
        cases hu
      | behind h =>
        have hr := ((hok.mem w p).mp (h.subset (by simp))).1
        rw [hrun] at hr
        cases hr
      | off h =>
        rw [hrun] at h
        rcases h with h | h <;> cases h
    exact ⟨h.same rfl (.inr rfl) fun h => h, hoff hwt, by simp⟩
  | @preempts n hrun hn hlt =>
    have hwt : w ≠ t := by
      rintro rfl
      have hle := hout hrun n (hready hn)
      omega
    refine ⟨h.same (congrArg Job.stat (hother hwt)) (.inr (congrArg Job.yield (hother hwt)))
      fun hsub => ?_, ?_, ?_⟩
    · exact sublist_push (c := c.set w { c.jobs w with stat := .ready }) hsub _ _
    · show (Function.update c.jobs w _ t).stat ≠ .running
      rw [hother hwt]
      exact hoff hwt
    · simpa using h.ne_first hok hn
  | @rotates n hrun hn heq hy =>
    refine ⟨?_, ?_, by simpa using h.ne_first hok hn⟩
    · by_cases hwt : w = t
      · subst hwt
        refine .behind ?_
        show [u, w].Sublist (Function.update c.ready (c.jobs w).priority
          (c.ready (c.jobs w).priority ++ [w]) p)
        rw [hp, Function.update_self]
        exact (List.singleton_sublist.mpr hu).append (List.Sublist.refl [w])
      · refine h.same (congrArg Job.stat (hother hwt)) (.inr (congrArg Job.yield (hother hwt)))
          fun hsub => ?_
        exact sublist_append (c := c.set w (rotateEdit (c.jobs w))) hsub _ _
    · show (Function.update c.jobs w _ t).stat ≠ .running
      by_cases hwt : w = t
      · subst hwt
        rw [Function.update_self]
        simp [rotateEdit]
      · rw [hother hwt]
        exact hoff hwt
  | @leaves n rr hst hn hrr =>
    have hrun : (c.jobs t).stat ≠ .running := by
      intro hrun
      rw [hself hrun] at hst
      exact hst hrun
    have hstat : (Function.update c.jobs w { c.jobs w with yield := !rr &&
        (c.jobs w).yield } t).stat = (c.jobs t).stat :=
      update_same Job.stat (j := { c.jobs w with yield := !rr && (c.jobs w).yield }) rfl t
    refine ⟨?_, ?_, by simpa using h.ne_first hok hn⟩
    · cases h with
      | asks hrun' hy => exact absurd hrun' hrun
      | behind h => exact .behind h
      | off h =>
        rw [← hstat] at h
        exact .off h
    · show (Function.update c.jobs w _ t).stat ≠ .running
      rw [hstat]
      exact hrun

/-- A decision, if no thread outranks thread `t`: it runs no more. -/
theorem Decides.stand (hok : c.Ok) (hd : Cpu.Decides cfg c c') (h : Stand u t p c)
    (hu : u ∈ c.ready p)
    (hp : (c.jobs t).priority = p) (htu : t ≠ u) (hnext : c.next ≠ some t)
      (hu' : (c'.jobs u).stat = .ready)
    (hout : (c.jobs t).stat = .running → ∀ v, (c.jobs v).stat = .ready → p ≤ (c.jobs v).priority) :
    Stand u t p c' ∧ (c'.jobs t).stat ≠ .running ∧ c'.next ≠ some t := by
  cases hd with
  | idle hc =>
    refine ⟨h, fun hrun => ?_, hnext⟩
    rw [(hok.running t hrun).1] at hc
    cases hc
  | stays hc hv =>
    obtain ⟨hx, hoff, -⟩ := hv.stand hok hc h hu hp htu hout
    refine ⟨hx, hoff, ?_⟩
    rw [hv.frame]
    exact hnext
  | pends hport hc hv =>
    obtain ⟨hx, hoff, hn⟩ := hv.stand hok hc h hu hp htu hout
    exact ⟨hx.same rfl (.inr rfl) fun h => h, hoff, hn⟩
  | @switches w n x hport hc hv =>
    obtain ⟨hx, hoff, hn⟩ := hv.stand hok hc h hu hp htu hout
    have hnt : n ≠ t := by simpa using hn
    have hnu : n ≠ u := by
      rintro rfl
      rw [dispatch_stat_self] at hu'
      cases hu'
    refine ⟨hx.dispatch hnt hnu, ?_, ?_⟩
    · rw [dispatch_stat_of_ne cfg hnt]
      exact hoff
    · rw [dispatch_frame]
      simp

/-- Thread `t` is to give way to thread `u`, and while it runs, the evaluation is still to come. -/
structure Owes (u t : Tid) (p : ℕ) (c : Cpu) : Prop where
  stand : Stand u t p c
  next : c.next ≠ some t
  held : (c.jobs t).stat = .running → 0 < c.nest ∧ c.trySwitch = true

/-- What `nd_scheduler` does in thread mode, or holds back. -/
theorem Schedules.owes (hs : c.Schedules cfg c') (h : Stand u t p c) (hu : u ∈ c.ready p)
    (hp : (c.jobs t).priority = p)
    (htu : t ≠ u) (hnext : c.next ≠ some t) (hnest : (c.jobs t).stat = .running → 0 < c.nest)
    (hu' : (c'.jobs u).stat = .ready) : Owes u t p c' ∧
      ((c'.jobs t).stat = .running → (c.jobs t).stat = .running) := by
  cases hs with
  | holds hn => exact ⟨⟨h.same rfl (.inr rfl) fun h => h, hnext, fun _ => ⟨hn, rfl⟩⟩, fun h => h⟩
  | decides hn hok hd =>
    have hoff : (c.jobs t).stat ≠ .running := fun hrun => by
      have hpos := hnest hrun
      omega
    obtain ⟨hstand, hno, hne⟩ := hd.stand hok h hu hp htu hnext hu' fun hrun => absurd hrun hoff
    exact ⟨⟨hstand, hne, fun hrun => absurd hrun hno⟩, fun hrun => absurd hrun hno⟩

/-- Thread `t` is not the peer that it has to let run first. -/
theorem Stand.ne (hok : c.Ok) (h : Stand u t p c) (hu : (c.jobs u).stat = .ready) : t ≠ u := by
  rintro rfl
  cases h with
  | asks hrun hy =>
    rw [hu] at hrun
    cases hrun
  | behind hsub =>
    have hnd := (hok.nodup p).sublist hsub
    simp at hnd
  | off hoff =>
    rw [hu] at hoff
    rcases hoff with h | h <;> cases h

/-- Another thread is dispatched. -/
theorem Stand.dispatched (cfg : Config) {n : Tid} (h : Stand u t p c) (hn : n ≠ t)
    (hoff : (c.jobs t).stat ≠ .running) (hu' : ((c.dispatch cfg n).jobs u).stat = .ready) :
    Owes u t p (c.dispatch cfg n) ∧ ((c.dispatch cfg n).jobs t).stat ≠ .running := by
  have hnu : n ≠ u := by
    rintro rfl
    rw [dispatch_stat_self] at hu'
    cases hu'
  have hno : ((c.dispatch cfg n).jobs t).stat ≠ .running := by
    rw [dispatch_stat_of_ne cfg hn]
    exact hoff
  refine ⟨⟨h.dispatch hn hnu, ?_, fun hrun => absurd hrun hno⟩, hno⟩
  rw [dispatch_frame]
  simp

/-- The control block of another thread is written before `nd_scheduler`. -/
theorem Owes.other {y : Cpu} (h : Owes u t p c) (hjob : y.jobs t = c.jobs t)
    (hsub : ∀ r : List Tid, r.Sublist (c.ready p) → r.Sublist (y.ready p))
    (hnext : y.next = c.next) (hnest : y.nest = c.nest) (hs : y.Schedules cfg c')
    (hu : u ∈ c.ready p) (hp : (c.jobs t).priority = p) (htu : t ≠ u)
    (hu' : (c'.jobs u).stat = .ready) : Owes u t p c' ∧
      ((c'.jobs t).stat = .running → (c.jobs t).stat = .running) := by
  have hstat : (y.jobs t).stat = (c.jobs t).stat := congrArg Job.stat hjob
  have hstand := h.stand.same hstat (.inr (congrArg Job.yield hjob)) (hsub _)
  have huy : u ∈ y.ready p := List.singleton_sublist.mp (hsub _ (List.singleton_sublist.mpr hu))
  obtain ⟨howes, hrun⟩ := hs.owes hstand huy ((congrArg Job.priority hjob).trans hp) htu
    (by rw [hnext]; exact h.next)
    (fun hrun => by rw [hnest]; exact (h.held (hstat.symm.trans hrun)).1) hu'
  exact ⟨howes, fun h => hstat.symm.trans (hrun h)⟩

/-- A slice expires inside of an interrupt: the evaluation is asked for. -/
theorem Owes.expires {w : Tid} {y : Cpu} (h : Owes u t p c) (hnest : 0 < c.nest)
    (hjobs : y.jobs = Function.update c.jobs w (c.jobs w).expire) (hready : y.ready = c.ready)
    (hnext : y.next = c.next) (hn : y.nest = c.nest) (htry : y.trySwitch = true) :
    Owes u t p y ∧ ((y.jobs t).stat = .running → (c.jobs t).stat = .running) := by
  have hstat : (y.jobs t).stat = (c.jobs t).stat := by
    rw [hjobs]
    exact update_same Job.stat (j := (c.jobs w).expire) rfl t
  have hyield : (y.jobs t).yield = true ∨ (y.jobs t).yield = (c.jobs t).yield := by
    rw [hjobs]
    by_cases htw : t = w
    · subst htw
      rw [Function.update_self]
      exact .inl rfl
    · rw [Function.update_of_ne htw]
      exact .inr rfl
  refine ⟨⟨h.stand.same hstat hyield fun hs => by rw [hready]; exact hs, ?_, fun _ => ?_⟩,
    fun hrun => hstat.symm.trans hrun⟩
  · rw [hnext]
    exact h.next
  · rw [hn]
    exact ⟨hnest, htry⟩

/-- The slice timer of a thread without peers is taken out. -/
theorem Owes.lapses {w : Tid} {y : Cpu} (h : Owes u t p c)
    (hjobs : y.jobs = Function.update c.jobs w { c.jobs w with deadline := none })
    (hready : y.ready = c.ready) (hnext : y.next = c.next) (hn : y.nest = c.nest)
    (htry : y.trySwitch = c.trySwitch) :
    Owes u t p y ∧ ((y.jobs t).stat = .running → (c.jobs t).stat = .running) := by
  have hstat : (y.jobs t).stat = (c.jobs t).stat := by
    rw [hjobs]
    exact update_same Job.stat (j := { c.jobs w with deadline := none }) rfl t
  have hyield : (y.jobs t).yield = (c.jobs t).yield := by
    rw [hjobs]
    exact update_same Job.yield (j := { c.jobs w with deadline := none }) rfl t
  refine ⟨⟨h.stand.same hstat (.inr hyield) fun hs => by rw [hready]; exact hs, ?_,
    fun hrun => ?_⟩, fun hrun => hstat.symm.trans hrun⟩
  · rw [hnext]
    exact h.next
  · rw [hn, htry]
    exact h.held (hstat.symm.trans hrun)

/-- What a call moves while it owes. -/
theorem Owes.moves {a : Action} {x : Cpu} (h : Owes u t p c) (hm : Moves a c x) (hu : u ∈ c.ready p)
    (hp : (c.jobs t).priority = p) (htu : t ≠ u)
    (hunlock : ∀ m, a = .call (.mutexUnlock m) → c.current ≠ some t)
    (hxu : (x.jobs u).priority = p) (hxst : (x.jobs u).stat = .ready ∨ (x.jobs u).stat = .running)
    (hxt : (x.jobs t).priority = p) : Stand u t p x ∧ u ∈ x.ready p := by
  rcases Stand.moves hm h.stand hu hp htu (fun hrun => (h.held hrun).1) hunlock with
    ⟨hx, hux, -⟩ | hgone | hraised
  · exact ⟨hx, hux⟩
  · exfalso
    cases hgone with
    | gone hg => exact hxst.elim hg.not_runnable.1 hg.not_runnable.2
    | raised hr =>
      have habove := hr.above
      omega
  · have habove := hraised.above
    omega

end Cpu

/-! ## Steps -/

/-- While it owes, it calls nothing. -/
theorem Cpu.Owes.not_caller {w : Tid} (h : s.cpu.Owes u t p) (hS : Sound cfg s)
    (hw : threadMode s = some w) : w ≠ t := by
  rintro rfl
  have hpos : 0 < s.nest := (h.held (hS.runs hw)).1
  have hzero := (threadMode_eq hw).1
  omega

/-- One step. -/
theorem Turn.owes (hS : Sound cfg s) (ha : allowed cfg s a = true) {c : Cpu} (hT : Turn cfg s a c)
    (hok' : c.Ok)
    (h : s.cpu.Owes u t p) (hu : u ∈ s.cpu.ready p) (hp : (s.threads t).priority = p)
      (hu' : u ∈ c.ready p)
    (hp' : (c.jobs t).priority = p) (hnew : a.creates ≠ some t) (hout : NotOutranked cfg t s a) :
    c.Owes u t p ∧ ((c.jobs t).stat = .running → (s.threads t).stat = .running) := by
  have hok := hS.consistent.cpu_ok
  obtain ⟨hust, huprio⟩ := (hok.mem u p).mp hu
  obtain ⟨hust', huprio'⟩ := (hok'.mem u p).mp hu'
  have htu : t ≠ u := h.stand.ne hok hust
  have hunlock : ∀ m, a = .call (.mutexUnlock m) → s.cpu.current ≠ some t := by
    rintro m rfl hcur
    obtain ⟨w, hw⟩ := threadMode_of_call ha rfl
    have hc := (threadMode_eq hw).2.2.1
    exact h.not_caller hS hw (Option.some.inj (hc.symm.trans hcur))
  cases hT with
  | refused _ => exact ⟨h, fun h => h⟩
  | rests _ _ hm =>
    obtain ⟨hstand, -⟩ := h.moves hm hu hp htu hunlock huprio' (.inl hust') hp'
    refine ⟨⟨hstand, ?_, fun hrun => ?_⟩, hm.running⟩
    · rw [hm.frame]
      exact h.next
    · rw [hm.frame]
      exact h.held (hm.running hrun)
  | @schedules x c _ hm hs =>
    have hend : Ending cfg a x.clock x c := hs.ending
    have hxt : (x.jobs t).priority = p := (hend.priority t).symm.trans hp'
    obtain ⟨hstand, hux⟩ := h.moves hm hu hp htu hunlock ((hend.priority u).symm.trans huprio')
      (hend.runnable (.inl hust')) hxt
    have hnext : x.next = s.next := congrArg Cpu.next hm.frame
    have hnest : x.nest = s.nest := congrArg Cpu.nest hm.frame
    obtain ⟨howes, hrun⟩ := hs.owes hstand hux hxt htu
      (by rw [hnext]; exact h.next)
      (fun hrun => by rw [hnest]; exact (h.held (hm.running hrun)).1) hust'
    exact ⟨howes, fun h => hm.running (hrun h)⟩
  | @creates w b c ha' hb hacc hst hcur hs =>
    have htw : t ≠ w := by
      rintro rfl
      exact hnew (Action.creates_eq_some ha' hacc hb)
    exact h.other (y := (s.cpu.set w (Job.create b)).append w b.priority)
      (Function.update_of_ne htw _ _)
      (fun r hr => Cpu.sublist_append (c := s.cpu.set w (Job.create b)) hr _ _) rfl rfl hs hu hp htu
      hust'
  | declines _ _ => exact ⟨h, fun h => h⟩
  | @yields w c ha' hcur hrun hs =>
    subst ha'
    obtain ⟨v, hv⟩ := threadMode_of_call ha rfl
    have hzero : s.nest = 0 := (threadMode_eq hv).1
    have htw : t ≠ w := by
      rintro rfl
      have hpos : 0 < s.nest := (h.held hrun).1
      omega
    exact h.other (y := s.cpu.set w { s.job w with yield := true })
      (Function.update_of_ne htw _ _) (fun r hr => hr) rfl rfl hs hu hp htu hust'
  | expires ha' hl hcur hcb hpeers =>
    subst ha'
    exact h.expires (timerFire_allowed ha).1 rfl rfl rfl rfl rfl
  | lapses ha' hl hcur hwhy => exact h.lapses rfl rfl rfl rfl rfl
  | ticks k _ => exact ⟨⟨h.stand.same rfl (.inr rfl) fun h => h, h.next, h.held⟩, fun h => h⟩
  | enters _ =>
    exact ⟨⟨h.stand.same rfl (.inr rfl) fun h => h, h.next, fun hrun =>
      ⟨Nat.succ_pos _, (h.held hrun).2⟩⟩, fun h => h⟩
  | exits _ hn hwhy =>
    refine ⟨⟨h.stand.same rfl (.inr rfl) fun h => h, h.next, fun hrun => ?_⟩, fun h => h⟩
    have htry : s.trySwitch = true := (h.held hrun).2
    have hmany : 1 < s.nest := hwhy.resolve_left (by simp [htry])
    exact ⟨Nat.sub_pos_of_lt hmany, htry⟩
  | decides ha' hn ht hone hok₁ hd =>
    have hstand := h.stand.same (y := { s.cpu with nest := s.nest - 1, trySwitch := false })
      rfl (.inr rfl) fun h => h
    obtain ⟨hx, hno, hne⟩ := hd.stand hok₁ hstand hu hp htu h.next hust' fun hrun v hv => by
      rw [← hp]
      exact hout.exit ha' ht hone hrun v hv
    exact ⟨⟨hx, hne, fun hrun => absurd hrun hno⟩, fun hrun => absurd hrun hno⟩
  | @switches n ha' hn hr =>
    have hpend : s.pendsv = true := by
      subst ha'
      exact (pendsv_allowed ha).1
    have hoff : (s.job t).stat ≠ .running := by
      intro hrun
      have hno : s.pendsv = false := (hok.running t hrun).2
      rw [hpend] at hno
      cases hno
    have hnt : n ≠ t := by
      rintro rfl
      exact h.next hn
    have hstand := h.stand.same (y := { s.cpu with pendsv := false }) rfl (.inr rfl) fun h => h
    obtain ⟨howes, hno⟩ := hstand.dispatched cfg hnt hoff hust'
    exact ⟨howes, fun hrun => absurd hrun hno⟩
  | @starts n ha' hcur hn =>
    have hoff : (s.job t).stat ≠ .running := by
      intro hrun
      have hc : s.current = some t := (hok.running t hrun).1
      rw [hcur] at hc
      cases hc
    obtain ⟨howes, hno⟩ := h.stand.dispatched cfg (h.stand.ne_first hok hn) hoff hust'
    exact ⟨howes, fun hrun => absurd hrun hno⟩

/-! ## Runs of steps -/

/-- Thread `t` is to give way to the threads of `l`. -/
structure GivesWay (l : List Tid) (t : Tid) (p : ℕ) (s : State) : Prop where
  owes : ∀ u ∈ l, s.cpu.Owes u t p
  peers : ∀ u ∈ l, u ∈ s.queues.lists (.ready p)
  prio : (s.threads t).priority = p

/-- One step: it is not dispatched. -/
theorem GivesWay.step (hr : (kernel cfg).Reach Machine.Always s) (ha : (kernel cfg).enabled s a)
    (h : GivesWay l t p s) (hl : l ≠ []) (hstay : PeersStay cfg p l t s a)
      (hout : NotOutranked cfg t s a) :
    GivesWay l t p (exec cfg a s) ∧
      (((exec cfg a s).threads t).stat = .running → (s.threads t).stat = .running) := by
  have hS := reach_sound hr
  have hok' := (reach_sound (hr.step a ha trivial)).consistent.cpu_ok
  obtain ⟨v, hv⟩ := List.exists_mem_of_ne_nil l hl
  have hunlock : ∀ m, a = .call (.mutexUnlock m) → s.current ≠ some t := by
    rintro m rfl hcur
    obtain ⟨w, hw⟩ := threadMode_of_call ha.1 rfl
    have hc := (threadMode_eq hw).2.2.1
    exact (h.owes v hv).not_caller hS hw (Option.some.inj (hc.symm.trans hcur))
  have hprio : ((exec cfg a s).threads t).priority = p :=
    (exec_priority hS ha.1 ha.2 hstay.same hout.lock hunlock).trans h.prio
  have hstep : ∀ u ∈ l, (exec cfg a s).cpu.Owes u t p ∧
      (((exec cfg a s).threads t).stat = .running → (s.threads t).stat = .running) := fun u hu =>
    (exec_turn hS ha.1 ha.2).owes hS ha.1 hok' (h.owes u hu) (h.peers u hu) h.prio
      (hstay.peers u hu) hprio hstay.same hout
  exact ⟨⟨fun u hu => (hstep u hu).1, hstay.peers, hprio⟩, (hstep v hv).2⟩

/-- A run. -/
theorem GivesWay.path (hr : (kernel cfg).Reach Machine.Always s) (h : GivesWay l t p s)
    (hl : l ≠ [])
    (hpath : (kernel cfg).Path (fun s a => PeersStay cfg p l t s a ∧ NotOutranked cfg t s a) s s') :
      GivesWay l t p s' := by
  induction hpath with
  | refl => exact h
  | @step x a hx he hc ih =>
    have hr' := hr.path (hx.mono fun _ _ _ => trivial)
    exact (ih.step hr' he hl hc.1 hc.2).1

/-- The expiry of the slice of a running thread that has peers.
kernel/nd_scheduler.c:237-257 -/
theorem givesWay_of_expiry (hr : (kernel cfg).Reach Machine.Always s)
    (ha : (kernel cfg).enabled s .timerFire)
    (hl : leftmostTimer s = some (.slice t)) (hrun : (s.threads t).stat = .running)
    (hpeers : s.queues.lists (.ready (s.threads t).priority) ≠ []) :
    GivesWay (s.queues.lists (.ready (s.threads t).priority)) t (s.threads t).priority
      (exec cfg .timerFire s) := by
  have hS := reach_sound hr
  have hok := hS.consistent.cpu_ok
  have harm : s.isArmed (.slice t) = true := by simp [State.isArmed, s.tree.home_of_head hl]
  have hslice : (s.threads t).timeSlice ≠ 0 := (hS.consistent.books.slices t harm).2
  have hnest : 0 < s.nest := (timerFire_allowed ha.1).1
  have hcpu : (exec cfg .timerFire s).cpu =
      { s.cpu.set t (s.job t).expire with trySwitch := true } := by
    obtain ⟨-, ⟨-, h⟩ | ⟨hwhy, -⟩⟩ := (exec_turn hS ha.1 ha.2).slice hl
    · exact h
    · rcases hwhy with h | h
      · exact absurd (reach_callback hr t hslice) h
      · exact absurd h hpeers
  have hjob : (exec cfg .timerFire s).cpu.jobs t = (s.job t).expire := by
    rw [hcpu]
    exact Function.update_self t _ s.job
  have hready : (exec cfg .timerFire s).cpu.ready = s.cpu.ready := by
    rw [hcpu]
    rfl
  refine ⟨fun u _ => ⟨.asks ?_ ?_, ?_, fun _ => ?_⟩, fun u hu => ?_, ?_⟩
  · rw [hjob]
    exact hrun
  · rw [hjob]
    rfl
  · rw [hcpu]
    intro hnext
    have hst : (s.threads t).stat = .ready ∨ (s.threads t).stat = .suspend ∨
      (s.threads t).stat = .dead := hok.next t hnext
    rw [hrun] at hst
    rcases hst with h | h | h <;> cases h
  · rw [hcpu]
    exact ⟨hnest, rfl⟩
  · show u ∈ (exec cfg .timerFire s).cpu.ready _
    rw [hready]
    exact hu
  · show ((exec cfg .timerFire s).cpu.jobs t).priority = _
    rw [hjob]
    rfl

/-- **An expired slice gives way.** When the slice timer of a running thread expires beside ready
threads of its priority, the thread is not dispatched again as long as all of these stay ready
there, provided that no thread of a higher priority outranks it at the end of the interrupts, or
waits for a mutex of its.
kernel/nd_scheduler.c:93-149, 237-257 -/
theorem expired_slice_gives_way {b : Action} (hr : (kernel cfg).Reach Machine.Always s)
    (ha : (kernel cfg).enabled s .timerFire) (hl : leftmostTimer s = some (.slice t))
    (hrun : (s.threads t).stat = .running) (hp : (s.threads t).priority = p)
    (hpeers : s.queues.lists (.ready p) = l) (hne : l ≠ [])
    (hpath : (kernel cfg).Path (fun s a => PeersStay cfg p l t s a ∧ NotOutranked cfg t s a)
      (exec cfg .timerFire s) s')
    (hb : (kernel cfg).enabled s' b) (hstay : PeersStay cfg p l t s' b)
      (hout : NotOutranked cfg t s' b)
    (hoff : (s'.threads t).stat ≠ .running) : ((exec cfg b s').threads t).stat ≠ .running := by
  subst hp
  subst hpeers
  have hr₁ : (kernel cfg).Reach Machine.Always (exec cfg .timerFire s) :=
    hr.step Action.timerFire ha trivial
  have hgives := (givesWay_of_expiry hr ha hl hrun hne).path hr₁ hne hpath
  have hr' := hr₁.path (hpath.mono fun _ _ _ => trivial)
  intro hon
  exact hoff ((hgives.step hr' hb hne hstay hout).2 hon)

/-! ## Runs -/

instance (cfg : Config) (p : ℕ) (l : List Tid) (t : Tid) (s : State) (a : Action) :
    Decidable (PeersStay cfg p l t s a) :=
  decidable_of_iff ((∀ u ∈ l, u ∈ (exec cfg a s).queues.lists (.ready p)) ∧ a.creates ≠ some t)
    ⟨fun h => ⟨h.1, h.2⟩, fun h => ⟨h.peers, h.same⟩⟩

/-- The slice timer of thread `t` expires beside the threads of `l`. -/
def ExpiresBeside (cfg : Config) (t : Tid) (p : ℕ) (l : List Tid) (s : State) : Prop :=
  (kernel cfg).enabled s .timerFire ∧ leftmostTimer s = some (.slice t) ∧
    (s.threads t).stat = .running ∧
    (s.threads t).priority = p ∧ s.queues.lists (.ready p) = l

instance (cfg : Config) (t : Tid) (p : ℕ) (l : List Tid) (s : State) :
    Decidable (ExpiresBeside cfg t p l s) :=
  inferInstanceAs (Decidable (_ ∧ _ ∧ _ ∧ _ ∧ _))

/-- Nobody outranks a thread of the first priority with a ready thread. -/
theorem notOutranked_of_first (hr : (kernel cfg).Reach Machine.Always s)
    (hq : ∀ q ∈ List.range p, s.queues.lists (.ready q) = [])
    (hp : (s.threads t).priority = p) : NotOutranked cfg t s .irqExit := by
  refine ⟨fun _ _ _ _ v hv => ?_, fun m k c h => by cases h⟩
  have hmem : v ∈ s.queues.lists (.ready (s.threads v).priority) :=
    ((reach_sound hr).consistent.cpu_ok.mem v _).mpr ⟨hv, rfl⟩
  by_contra hlt
  rw [hq _ (List.mem_range.mpr (by omega))] at hmem
  cases hmem

/-- Thread 1 waits behind thread 2 for the pending switch. -/
theorem expired_slice_gives_way_pending : ∃ s', (kernel deferredPort).Reach Machine.Always s' ∧
    ((exec deferredPort .irqEnter s').threads 1).stat ≠ .running := by
  obtain ⟨s, hs, hp⟩ := (kernel deferredPort).exists_run
    (l := [spawnSliced 1 10, spawn 2 10, .advance 1, .start, .advance 10, .irqEnter])
      (s := boot deferredPort {})
    (p := fun s => decide (ExpiresBeside deferredPort 1 10 [2] s) &&
      decide (∀ q ∈ List.range 10, (exec deferredPort .timerFire s).queues.lists (.ready q) = []) &&
      decide (((exec deferredPort .timerFire s).threads 1).priority = 10 ∧
        (kernel deferredPort).enabled (exec deferredPort .timerFire s) .irqExit ∧
        PeersStay deferredPort 10 [2] 1 (exec deferredPort .timerFire s) .irqExit) &&
      decide ((kernel deferredPort).enabled
        (exec deferredPort .irqExit (exec deferredPort .timerFire s)) .irqEnter ∧
        PeersStay deferredPort 10 [2] 1
          (exec deferredPort .irqExit (exec deferredPort .timerFire s)) .irqEnter ∧
        ((exec deferredPort .irqExit (exec deferredPort .timerFire s)).threads 1).stat ≠ .running))
          (by decide +kernel)
  rw [Bool.and_eq_true, Bool.and_eq_true, Bool.and_eq_true] at hp
  obtain ⟨⟨⟨hexp, hlists⟩, hexit⟩, hlast⟩ := hp
  obtain ⟨ha, hl, hrun, hp, hpeers⟩ := of_decide_eq_true hexp
  have hq : ∀ q ∈ List.range 10, (exec deferredPort .timerFire s).queues.lists (.ready q) = [] :=
    of_decide_eq_true hlists
  obtain ⟨hp₁, ha₁, hstay₁⟩ := of_decide_eq_true hexit
  obtain ⟨hb, hstay, hoff⟩ := of_decide_eq_true hlast
  have hr₁ : (kernel deferredPort).Reach Machine.Always (exec deferredPort .timerFire s) :=
    (reach_run hs).step Action.timerFire ha trivial
  have hpath := Machine.Path.single (C := fun s a => PeersStay deferredPort 10 [2] 1 s a ∧
    NotOutranked deferredPort 1 s a)
    Action.irqExit ha₁ ⟨hstay₁, notOutranked_of_first hr₁ hq hp₁⟩
  exact ⟨_, hr₁.step Action.irqExit ha₁ trivial,
    expired_slice_gives_way (reach_run hs) ha hl hrun hp hpeers (by simp) hpath
    hb hstay ⟨(fun h => nomatch h), fun m k c h => nomatch h⟩ hoff⟩

/-- Thread 3 wakes up in the interrupt that the slice ends in, and waits again. -/
theorem outranked_slice_goes_on : ¬ ∀ s s' t p l b, (kernel syncPort).Reach Machine.Always s →
    ExpiresBeside syncPort t p l s → l ≠ [] →
    (kernel syncPort).Path (PeersStay syncPort p l t) (exec syncPort .timerFire s) s' →
    (kernel syncPort).enabled s' b → PeersStay syncPort p l t s' b →
      (s'.threads t).stat ≠ .running →
    ((exec syncPort b s').threads t).stat ≠ .running := by
  intro h
  obtain ⟨s, hs, hp⟩ := (kernel syncPort).exists_run
    (l := [spawnSliced 1 10, spawn 2 10, spawn 3 5, .advance 1, .start, .call (.threadDelay 11),
      .advance 12, .irqEnter])
    (s := boot syncPort {}) (p := fun s => decide (ExpiresBeside syncPort 1 10 [2] s) &&
      ((kernel syncPort).run [.timerFire, .irqExit] (exec syncPort .timerFire s)).any (fun s' =>
        decide ((kernel syncPort).enabled s' (.call (.threadDelay 100)) ∧
          PeersStay syncPort 10 [2] 1 s' (.call (.threadDelay 100)) ∧
            (s'.threads 1).stat ≠ .running ∧
          ((exec syncPort (.call (.threadDelay 100)) s').threads 1).stat = .running)) &&
      (kernel syncPort).checked (fun s a => decide (PeersStay syncPort 10 [2] 1 s a))
        [.timerFire, .irqExit]
        (exec syncPort .timerFire s)) (by decide +kernel)
  rw [Bool.and_eq_true, Bool.and_eq_true, decide_eq_true_eq] at hp
  obtain ⟨⟨hexp, hany⟩, hchecked⟩ := hp
  obtain ⟨s', hs', hlast⟩ := (kernel syncPort).exists_run hany
  obtain ⟨hb, hstay, hoff, hon⟩ := of_decide_eq_true hlast
  have hpath := (kernel syncPort).path_of_checked (C := PeersStay syncPort 10 [2] 1)
    (fun _ _ h => of_decide_eq_true h)
    hs' hchecked
  exact h s s' 1 10 [2] _ (reach_run hs) hexp (by simp) hpath hb hstay hoff hon

end NerdRtos
