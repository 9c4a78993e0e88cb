import NerdRtos.Analysis.SliceAccounting
import NerdRtos.Analysis.YieldRequests

/-!
# The order of equals

On a port that switches at once, the running thread and the ready threads of its priority stand in a
line, the running one first (`lineUp`). Preemptions by threads of a higher priority, however they
are nested, do not change the order of two threads that stay in the line (`order_of_equals`): the
preempted thread goes back to the head. Only a request to give way moves a thread behind another
one, and so does a request that is left over from the time before.
-/

set_option autoImplicit false

namespace NerdRtos

variable {cfg : Config} {s s' : State} {a : Action} {t u v w n : Tid} {p q now : ℕ}

/-! ## Statement -/

/-- The running thread, if its priority is `p`, and the ready threads of priority `p`. -/
def lineUp (s : State) (p : ℕ) : List Tid :=
  (match s.current with
    | none => []
    | some t => if (s.threads t).stat = .running ∧ (s.threads t).priority = p then [t] else []) ++
    s.queues.lists (.ready p)

/-- In a step of action `a`, threads `t` and `u` stay in the line, and thread `t` does not ask to
give way. -/
structure StayInLine (cfg : Config) (p : ℕ) (t u : Tid) (s : State) (a : Action) : Prop where
  silent : a.asks s ≠ some t
  first : t ∈ lineUp (exec cfg a s) p
  second : u ∈ lineUp (exec cfg a s) p

/-! ## Lists -/

namespace Cpu

variable {c c' x y : Cpu} {l : List Tid}

/-- A line stays in order when a thread comes to the tail of some list. -/
theorem sublist_append (h : l.Sublist (c.ready p)) (v : Tid) (q : ℕ) :
    l.Sublist ((c.append v q).ready p) := by
  rw [append_ready]
  by_cases hq : p = q
  · subst hq
    rw [Function.update_self]
    exact h.trans (List.sublist_append_left _ _)
  · rw [Function.update_of_ne hq]
    exact h

/-- A line stays in order when a thread comes to the head of some list. -/
theorem sublist_push (h : l.Sublist (c.ready p)) (v : Tid) (q : ℕ) :
    l.Sublist ((c.push v q).ready p) := by
  rw [push_ready]
  by_cases hq : p = q
  · subst hq
    rw [Function.update_self]
    exact h.cons v
  · rw [Function.update_of_ne hq]
    exact h

/-- A line stays in order when another thread leaves. -/
theorem sublist_take (h : l.Sublist (c.ready p)) (hv : v ∉ l) : l.Sublist ((c.take v).ready p) := by
  have herase := h.erase v
  rw [List.erase_of_not_mem hv] at herase
  exact herase

/-- The first one of a list is not behind another one. -/
theorem not_head_of_sublist (hnd : l.Nodup) (h : [t, u].Sublist l) : l.head? ≠ some u := by
  intro hhead
  obtain ⟨r, rfl⟩ : ∃ r, l = u :: r := by
    cases l with
    | nil => cases hhead
    | cons v r => exact ⟨r, by rw [Option.some.inj hhead]⟩
  rw [List.nodup_cons] at hnd
  apply hnd.1
  cases h with
  | cons _ h => exact h.subset (by simp)
  | cons_cons _ h => exact h.subset (by simp)

/-! ## Moves -/

/-- Thread `t` runs or is ready, in front of thread `u`. -/
structure Before (p : ℕ) (t u : Tid) (c : Cpu) : Prop where
  second : [u].Sublist (c.ready p)
  first : c.current = some t ∧ (c.jobs t).stat = .running ∨ [t, u].Sublist (c.ready p)

/-- The thread was raised over priority `p` in a step of action `a`. -/
structure Raised (a : Action) (p : ℕ) (v : Tid) (c : Cpu) : Prop where
  lock : ∃ m k, a = .call (.wait (.mutexLock m k))
  above : (c.jobs v).priority < p

/-- The thread has left the line and does not come back in a step of action `a`. -/
inductive Out (a : Action) (p : ℕ) (v : Tid) (c : Cpu) : Prop
  | gone (h : Gone a c v)
  | raised (h : Raised a p v c)

/-- Both threads are runnable, and the second one has the priority of the line. -/
theorem Before.runnable (hok : c.Ok) (h : Before p t u c) :
    ((c.jobs t).stat = .ready ∨ (c.jobs t).stat = .running) ∧
      (c.jobs u).stat = .ready ∧ (c.jobs u).priority = p := by
  have hu := (hok.mem u p).mp (List.singleton_sublist.mp h.second)
  refine ⟨?_, hu⟩
  rcases h.first with ⟨-, hrun⟩ | hsub
  · exact .inr hrun
  · exact .inl ((hok.mem t p).mp (hsub.subset (by simp))).1

/-- A thread that was raised stays above the line in the step that raised it. -/
theorem Raised.move (h : Raised a p v x) (hm : Move a x y) : Raised a p v y := by
  have hset : ∀ {o : Tid} {j : Job}, (o = v → j.priority ≤ (x.jobs v).priority) →
      (Function.update x.jobs o j v).priority < p := fun hj =>
    Cpu.update_keeps (fun j => j.priority < p) (fun ho => (hj ho).trans_lt h.above) h.above
  refine ⟨h.lock, ?_⟩
  cases hm with
  | wakes reload hst hr hc => exact hset (by rintro rfl; exact le_rfl)
  | resumes ha hst => exact hset (by rintro rfl; exact le_rfl)
  | boosts ha hst hp => exact hset (by rintro rfl; exact hp.le)
  | reprio hst hp hwhy =>
    refine hset ?_
    rintro rfl
    rcases hwhy with ⟨-, -, hlt⟩ | ⟨⟨m, hm⟩, -⟩
    · exact hlt.le
    · obtain ⟨m', k, hlock⟩ := h.lock
      rw [hm] at hlock
      cases hlock
  | waits hc hrun hn => exact hset (by rintro rfl; exact le_rfl)
  | delays hc hrun ha hn => exact hset (by rintro rfl; exact le_rfl)
  | suspends ha hlive => exact hset (by rintro rfl; exact le_rfl)
  | ends ha hlive => exact hset (by rintro rfl; exact le_rfl)

/-- A thread that has left the line does not come back in the step. -/
theorem Out.move (h : Out a p v x) (hm : Move a x y) : Out a p v y := by
  cases h with
  | gone h => exact .gone (h.move hm)
  | raised h => exact .raised (h.move hm)

/-- An edit of another thread. -/
theorem Before.edit (h : Before p t u x) (hjob : y.jobs t = x.jobs t) (hcur : y.current = x.current)
    (hsub : ∀ l : List Tid, (∀ v ∈ l, v = t ∨ v = u) → l.Sublist (x.ready p) →
      l.Sublist (y.ready p)) :
    Before p t u y := by
  refine ⟨hsub _ (by simp) h.second, ?_⟩
  rw [hcur, hjob]
  exact h.first.imp_right (hsub _ (by simp))

/-- One move. -/
theorem Before.move (hok : x.Ok) (h : Before p t u x) (hm : Move a x y) :
    Before p t u y ∨ Out a p t y ∨ Out a p u y := by
  obtain ⟨htst, hust, huprio⟩ := h.runnable hok
  have hnot : ∀ {o : Tid} {st : Stat}, (x.jobs o).stat = st → st ≠ .ready → st ≠ .running → t ≠ o ∧
      u ≠ o := by
    rintro o st rfl hready hrun
    refine ⟨?_, ?_⟩
    · rintro rfl
      exact htst.elim hready hrun
    · rintro rfl
      exact hready hust
  have hother : ∀ {o : Tid} {l : List Tid}, t ≠ o → u ≠ o → (∀ v ∈ l, v = t ∨ v = u) → o ∉ l := by
    intro o l ht hu hl ho
    rcases hl o ho with h | h
    · exact ht h.symm
    · exact hu h.symm
  cases hm with
  | @wakes o reload hst hr hc =>
    obtain ⟨ht, -⟩ := hnot hst (by decide) (by decide)
    exact .inl (h.edit (Function.update_of_ne ht _ _) rfl fun l _ hl =>
      sublist_append (c := x.set o ((x.jobs o).wake reload)) hl _ _)
  | @resumes o ha hst =>
    obtain ⟨ht, -⟩ := hnot hst (by decide) (by decide)
    exact .inl (h.edit (Function.update_of_ne ht _ _) rfl fun l _ hl =>
      sublist_append (c := x.set o ((x.jobs o).wake false)) hl _ _)
  | @boosts o q ha hst hq =>
    have hraised : ∀ v, v = o → (x.jobs v).priority = p →
        Out a p v (((x.take o).set o { x.jobs o with priority := q }).push o q) := by
      rintro v rfl hv
      refine .raised ⟨ha, ?_⟩
      show (Function.update x.jobs v _ v).priority < p
      rw [Function.update_self, ← hv]
      exact hq
    by_cases ht : t = o
    · refine .inr (.inl (hraised t ht ?_))
      rcases h.first with ⟨-, hrun⟩ | hsub
      · rw [ht, hst] at hrun
        cases hrun
      · exact ((hok.mem t p).mp (hsub.subset (by simp))).2
    by_cases hu : u = o
    · exact .inr (.inr (hraised u hu huprio))
    · refine .inl (h.edit (Function.update_of_ne ht _ _) rfl fun l hl hsub => ?_)
      have htake := sublist_take hsub (hother ht hu hl)
      exact sublist_push (c := (x.take o).set o { x.jobs o with priority := q }) htake _ _
  | @reprio o q hst hq hwhy =>
    by_cases ht : t = o
    · subst ht
      refine .inl ⟨h.second, h.first.imp_left fun hrun => ⟨hrun.1, ?_⟩⟩
      show (Function.update x.jobs t _ t).stat = _
      rw [Function.update_self]
      exact hrun.2
    · exact .inl (h.edit (Function.update_of_ne ht _ _) rfl fun l _ hl => hl)
  | @waits o hc hrun hn =>
    by_cases ht : t = o
    · subst ht
      refine .inr (.inl (.gone (.blocked ?_ hc (hok.running _ hrun).2 hn)))
      exact congrArg Job.stat (Function.update_self t _ x.jobs)
    · exact .inl (h.edit (Function.update_of_ne ht _ _) rfl fun l _ hl => hl)
  | @delays o hc hrun ha hn =>
    by_cases ht : t = o
    · subst ht
      refine .inr (.inl (.gone (.blocked ?_ hc (hok.running _ hrun).2 hn)))
      exact congrArg Job.stat (Function.update_self t _ x.jobs)
    · exact .inl (h.edit (Function.update_of_ne ht _ _) rfl fun l _ hl => hl)
  | @suspends o ha hlive =>
    have hgone : ∀ v, v = o → Out a p v ((x.take o).set o { x.jobs o with stat := .suspend }) := by
      rintro v rfl
      exact .gone (.suspended (congrArg Job.stat (Function.update_self v _ x.jobs)) ha)
    by_cases ht : t = o
    · exact .inr (.inl (hgone t ht))
    by_cases hu : u = o
    · exact .inr (.inr (hgone u hu))
    · exact .inl (h.edit (Function.update_of_ne ht _ _) rfl fun l hl hsub =>
        sublist_take hsub (hother ht hu hl))
  | @ends o ha hlive =>
    have hgone : ∀ v, v = o → Out a p v
        ((x.take o).set o { x.jobs o with stat := .dead, deadline := none }) := by
      rintro v rfl
      exact .gone (.dead (congrArg Job.stat (Function.update_self v _ x.jobs)))
    by_cases ht : t = o
    · exact .inr (.inl (hgone t ht))
    by_cases hu : u = o
    · exact .inr (.inr (hgone u hu))
    · exact .inl (h.edit (Function.update_of_ne ht _ _) rfl fun l hl hsub =>
        sublist_take hsub (hother ht hu hl))

/-- The moves of a step. -/
theorem Moves.before (h : Moves a c c') (hB : Before p t u c) :
    Before p t u c' ∨ Out a p t c' ∨ Out a p u c' := by
  refine h.induction (I := fun x => Before p t u x ∨ Out a p t x ∨ Out a p u x)
    (.inl hB) fun x y hok _ hx hm => ?_
  rcases hx with hB | ht | hu
  · exact hB.move hok hm
  · exact .inr (.inl (ht.move hm))
  · exact .inr (.inr (hu.move hm))

/-! ## Decisions -/

/-- A switch to another thread than `u`. -/
theorem before_dispatch (hnt : n ≠ u) (hsub : [t, u].Sublist (c.ready p)) :
    Before p t u (c.dispatch cfg n) := by
  have hready : (c.dispatch cfg n).ready p = (c.ready p).erase n := by rw [dispatch_frame]
  have hu : [u].Sublist (c.ready p) := (List.sublist_cons_self t [u]).trans hsub
  refine ⟨?_, ?_⟩
  · rw [hready]
    exact sublist_take hu (by simpa using hnt)
  · by_cases hn : n = t
    · subst hn
      exact .inl ⟨dispatch_current cfg n c, dispatch_stat_self cfg c n⟩
    · right
      rw [hready]
      exact sublist_take hsub (by simpa using ⟨hn, hnt⟩)

/-- The successor is not behind another thread. -/
theorem First.ne_of_sublist (hok : c.Ok) (hn : c.First n) (h : [t, u].Sublist (c.ready p)) :
    n ≠ u := by
  rintro rfl
  have hprio : (c.jobs n).priority = p := ((hok.mem n p).mp (h.subset (by simp))).2
  have hhead := hn.head
  rw [hprio] at hhead
  exact not_head_of_sublist (hok.nodup p) h hhead

/-- An evaluation of a thread that has not asked to give way. -/
theorem Decides.before (hport : cfg.port = .sync) (hok : c.Ok) (h : Cpu.Decides cfg c c')
    (hB : Before p t u c)
    (hp : (c.jobs t).priority = p) (hy : (c.jobs t).yield = false) : Before p t u c' := by
  obtain ⟨-, hust, huprio⟩ := hB.runnable hok
  cases h with
  | idle hc => exact hB
  | stays hc h =>
    cases h with
    | runsOn hrun hlead hpeer => exact ⟨hB.second, hB.first⟩
  | pends hport' hc h =>
    rw [hport] at hport'
    cases hport'
  | @switches w n x hport' hc h =>
    cases h with
    | @preempts n hrun hn hlt =>
      rcases hB.first with ⟨hcur, -⟩ | hsub
      · -- the thread goes back to the head of its list
        have hwt : w = t := Option.some.inj (hc.symm.trans hcur)
        subst hwt
        refine before_dispatch ?_ ?_
        · rintro rfl
          omega
        · show [w, u].Sublist (Function.update c.ready _ _ p)
          rw [hp, Function.update_self]
          exact hB.second.cons_cons w
      · refine before_dispatch (hn.ne_of_sublist hok hsub) ?_
        exact sublist_push (c := c.set w { c.jobs w with stat := .ready }) hsub _ _
    | @rotates n hrun hn heq hask =>
      have hsub : [t, u].Sublist (c.ready p) := by
        refine hB.first.resolve_left fun h => ?_
        have hwt : w = t := Option.some.inj (hc.symm.trans h.1)
        rw [hwt, hy] at hask
        cases hask
      refine before_dispatch (hn.ne_of_sublist hok hsub) ?_
      exact sublist_append (c := c.set w (rotateEdit (c.jobs w))) hsub _ _
    | @leaves n rr hst hn hrr =>
      have hsub : [t, u].Sublist (c.ready p) := by
        refine hB.first.resolve_left fun h => ?_
        have hwt : w = t := Option.some.inj (hc.symm.trans h.1)
        rw [hwt] at hst
        exact hst h.2
      exact before_dispatch (hn.ne_of_sublist hok hsub) hsub

/-- A verdict changes no priority. -/
theorem Verdict.priority {next : Option Tid} (h : c.Verdict w next c') (v : Tid) :
    (c'.jobs v).priority = (c.jobs v).priority := by
  cases h with
  | runsOn hrun hlead hpeer => rfl
  | preempts hrun hn hlt =>
    exact update_same Job.priority (j := { c.jobs w with stat := .ready }) rfl v
  | rotates hrun hn heq hy => exact update_same Job.priority (j := rotateEdit (c.jobs w)) rfl v
  | @leaves n rr hst hn hrr =>
    exact update_same Job.priority (j := { c.jobs w with yield := !rr && (c.jobs w).yield }) rfl v

/-- An evaluation sets no request. -/
theorem Verdict.silent {next : Option Tid} (h : c.Verdict w next c')
    (hy : (c.jobs v).yield = false) :
    (c'.jobs v).yield = false := by
  have hset : ∀ {j : Job}, (w = v → j.yield = false) →
      (Function.update c.jobs w j v).yield = false := fun hj =>
    Cpu.update_keeps (fun j => j.yield = false) hj hy
  cases h with
  | runsOn hrun hlead hpeer => exact hy
  | preempts hrun hn hlt => exact hset (by rintro rfl; exact hy)
  | rotates hrun hn heq hask => exact hset fun _ => rfl
  | leaves hst hn hrr => exact hset (by rintro rfl; simp [hy])

end Cpu

/-! ## A step -/

/-- The second part of a step. -/
theorem Ending.before (hport : cfg.port = .sync) (hpend : a ≠ .pendsv) {x c : Cpu}
    (h : Ending cfg a now x c)
    (hB : x.Before p t u) (hp : (x.jobs t).priority = p) (hy : (x.jobs t).yield = false) :
      c.Before p t u := by
  cases h with
  | rests hjobs hready hc =>
    refine ⟨?_, ?_⟩
    · rw [hready]
      exact hB.second
    · rw [hready, hjobs, hc]
      exact hB.first
  | decides hclock hok h => exact h.before hport hok hB hp hy
  | switches hclock hr hwhy =>
    rcases hwhy with ⟨hok, hcur, hn⟩ | hisr
    · have hsub : [t, u].Sublist (x.ready p) := by
        refine hB.first.resolve_left fun h => ?_
        rw [hcur] at h
        cases h.1
      exact Cpu.before_dispatch (hn.ne_of_sublist hok hsub) hsub
    · exact absurd hisr hpend

/-- The scheduler changes no priority. -/
theorem Ending.priority {x c : Cpu} (h : Ending cfg a now x c) (v : Tid) :
    (c.jobs v).priority = (x.jobs v).priority := by
  cases h with
  | rests hjobs hready hc => rw [hjobs]
  | decides hclock hok h =>
    cases h with
    | idle hc => rfl
    | stays hc h => exact h.priority v
    | switches hport hc h => exact (Cpu.dispatch_priority cfg _ _ v).trans (h.priority v)
    | pends hport hc h => exact h.priority v
  | switches hclock hr hwhy => exact Cpu.dispatch_priority cfg _ _ v

/-- The scheduler asks for no yield. -/
theorem Ending.silent {x c : Cpu} (h : Ending cfg a now x c) (hy : (x.jobs v).yield = false) :
    (c.jobs v).yield = false := by
  cases h with
  | rests hjobs hready hc =>
    rw [hjobs]
    exact hy
  | decides hclock hok h =>
    cases h with
    | idle hc => exact hy
    | stays hc h => exact h.silent hy
    | switches hport hc h => exact (Cpu.dispatch_yield cfg _ _ v).trans (h.silent hy)
    | pends hport hc h => exact h.silent hy
  | switches hclock hr hwhy => exact (Cpu.dispatch_yield cfg _ _ v).trans hy

/-- A thread that is ready or running after the step was so before the scheduler came to act. -/
theorem Ending.runnable {x c : Cpu} (h : Ending cfg a now x c)
    (hst : (c.jobs v).stat = .ready ∨ (c.jobs v).stat = .running) :
    (x.jobs v).stat = .ready ∨ (x.jobs v).stat = .running := by
  have hback : (c.jobs v).stat = (x.jobs v).stat ∨ (x.jobs v).stat = .running ∧
    (c.jobs v).stat = .ready →
      (x.jobs v).stat = .ready ∨ (x.jobs v).stat = .running := by
    rintro (h | ⟨h, -⟩)
    · rw [← h]
      exact hst
    · exact .inr h
  cases h.share (t := v) with
  | stays hc hs hstat => exact hback hstat
  | rotates hrun hready hn heq => exact .inr hrun
  | leaves hn hc hs hstat => exact hback hstat
  | comes hready hrun hc hclock hs => exact .inl hready

/-- The first part of a step. -/
theorem Prelude.before {x : Cpu} (h : Prelude s a x) (hok : s.cpu.Ok) (hB : s.cpu.Before p t u)
    (hask : a.asks s ≠ some t)
    (ht : ((x.jobs t).stat = .ready ∨ (x.jobs t).stat = .running) ∧ (x.jobs t).priority = p)
    (hu : ((x.jobs u).stat = .ready ∨ (x.jobs u).stat = .running) ∧ (x.jobs u).priority = p) :
    x.Before p t u ∧ (x.jobs t).yield = (s.threads t).yield := by
  obtain ⟨htst, hust, -⟩ := hB.runnable hok
  have hedit : ∀ {y : Cpu}, y.jobs t = s.job t → y.current = s.current →
      (∀ l : List Tid, l.Sublist (s.cpu.ready p) → l.Sublist (y.ready p)) →
      y.Before p t u ∧ (y.jobs t).yield = (s.threads t).yield := by
    intro y hjob hcur hsub
    refine ⟨hB.edit hjob hcur fun l _ hl => hsub l hl, ?_⟩
    rw [hjob]
    rfl
  cases h with
  | @moves x y ha hm hjobs hready hcur =>
    have hout : ∀ v, ((x.jobs v).stat = .ready ∨ (x.jobs v).stat = .running) ∧
      (x.jobs v).priority = p →
        ¬ y.Out a p v := by
      rintro v ⟨hst, hprio⟩ hv
      rw [hjobs] at hst hprio
      cases hv with
      | gone hg => exact hst.elim hg.not_runnable.1 hg.not_runnable.2
      | raised hr =>
        have habove := hr.above
        omega
    have hcurrent : x.current = y.current := hcur.trans (congrArg Cpu.current hm.frame).symm
    have hy := ((hm.before hB).resolve_right (by
      rintro (h | h)
      · exact hout t ht h
      · exact hout u hu h))
    refine ⟨⟨?_, ?_⟩, ?_⟩
    · rw [hready]
      exact hy.second
    · rw [hready, hjobs, hcurrent]
      exact hy.first
    · rw [hjobs]
      exact hm.yield t
  | @creates o b ha hst hc =>
    have hto : t ≠ o := by
      rintro rfl
      have hst' : (s.cpu.jobs t).stat = .init ∨ (s.cpu.jobs t).stat = .dead := hst
      rcases htst with h | h <;> rw [h] at hst' <;> rcases hst' with h | h <;> cases h
    refine hedit (Function.update_of_ne hto _ _) rfl fun l hl => ?_
    exact Cpu.sublist_append (c := s.cpu.set o (Job.create b)) hl _ _
  | @yields o ha hc hrun =>
    have hto : t ≠ o := by
      rintro rfl
      subst ha
      exact hask hc
    exact hedit (Function.update_of_ne hto _ _) rfl fun l hl => hl
  | @expires o ha hl hc hcb hpeers =>
    have hto : t ≠ o := by
      rintro rfl
      subst ha
      exact hask (by simp [Action.asks, hl])
    exact hedit (Function.update_of_ne hto _ _) rfl fun l hl => hl
  | @lapses o ha hl hc hwhy =>
    have hto : t ≠ o := by
      rintro rfl
      subst ha
      exact hask (by simp [Action.asks, hl])
    exact hedit (Function.update_of_ne hto _ _) rfl fun l hl => hl

/-! ## The line -/

/-- Who stands in the line. -/
theorem runnable_of_mem_lineUp (hJ : Consistent s) (h : v ∈ lineUp s p) :
    ((s.threads v).stat = .ready ∨ (s.threads v).stat = .running) ∧ (s.threads v).priority = p := by
  unfold lineUp at h
  rw [List.mem_append] at h
  rcases h with h | h
  · cases hc : s.current with
    | none => simp [hc] at h
    | some w =>
      simp only [hc] at h
      split at h
      · rename_i hw
        rw [List.mem_singleton] at h
        subst h
        exact ⟨.inr hw.1, hw.2⟩
      · simp at h
  · exact ((hJ.cpu_ok.mem v p).mp h).imp_left .inl

/-- The order of a line, as the processor sees it. -/
theorem before_of_lineUp (h : [t, u].Sublist (lineUp s p)) : s.cpu.Before p t u := by
  have hlist : [t, u].Sublist (s.queues.lists (.ready p)) → s.cpu.Before p t u := fun h =>
    ⟨(List.sublist_cons_self t [u]).trans h, .inr h⟩
  unfold lineUp at h
  cases hc : s.current with
  | none =>
    simp only [hc, List.nil_append] at h
    exact hlist h
  | some w =>
    simp only [hc] at h
    split at h
    · rename_i hw
      rw [List.singleton_append] at h
      cases h with
      | cons _ h => exact hlist h
      | cons_cons _ h => exact ⟨h, .inl ⟨hc, hw.1⟩⟩
    · rw [List.nil_append] at h
      exact hlist h

/-- Back from what the processor sees to the line. -/
theorem lineUp_of_before (h : s.cpu.Before p t u) (hp : (s.threads t).priority = p) :
    [t, u].Sublist (lineUp s p) := by
  rcases h.first with ⟨hcur, hrun⟩ | hsub
  · have hline : lineUp s p = t :: s.queues.lists (.ready p) := by
      have hc : s.current = some t := hcur
      have hr : (s.threads t).stat = .running := hrun
      unfold lineUp
      rw [hc]
      simp only [hr, hp, and_self, if_true, List.singleton_append]
    rw [hline]
    exact h.second.cons_cons t
  · exact hsub.trans (List.sublist_append_right _ _)

/-- One step. -/
theorem StayInLine.step (hport : cfg.port = .sync) (hr : (kernel cfg).Reach Machine.Always s)
    (ha : (kernel cfg).enabled s a) (h : [t, u].Sublist (lineUp s p))
      (hy : (s.threads t).yield = false)
    (hstay : StayInLine cfg p t u s a) :
    [t, u].Sublist (lineUp (exec cfg a s) p) ∧ ((exec cfg a s).threads t).yield = false := by
  have hS := reach_sound hr
  have hok := hS.consistent.cpu_ok
  have hJ' := (reach_sound (hr.step a ha trivial)).consistent
  have hpend : a ≠ .pendsv := by
    rintro rfl
    have hp : s.pendsv = true := (pendsv_allowed ha.1).1
    rw [hS.settled.sync hport] at hp
    cases hp
  obtain ⟨x, hx, he⟩ := (exec_turn hS ha.1 ha.2).split hok
  have hline : ∀ v, v ∈ lineUp (exec cfg a s) p →
      ((x.jobs v).stat = .ready ∨ (x.jobs v).stat = .running) ∧ (x.jobs v).priority = p := by
    intro v hv
    obtain ⟨hst, hprio⟩ := runnable_of_mem_lineUp hJ' hv
    exact ⟨he.runnable hst, (he.priority v).symm.trans hprio⟩
  obtain ⟨hB, hyield⟩ := hx.before hok (before_of_lineUp h) hstay.silent (hline t hstay.first)
    (hline u hstay.second)
  have hsilent : (x.jobs t).yield = false := hyield.trans hy
  refine ⟨lineUp_of_before (he.before hport hpend hB (hline t hstay.first).2 hsilent) ?_,
    he.silent hsilent⟩
  exact (runnable_of_mem_lineUp hJ' hstay.first).2

/-- **The order of equals.** While two threads stay in the line of their priority and the earlier
one does not ask to give way, they keep their order, and the later one does not run, provided that
no request of the earlier one is left over when they begin to stand there together.
kernel/nd_scheduler.c:43-91, 118-225 -/
theorem order_of_equals (hport : cfg.port = .sync) (hr : (kernel cfg).Reach Machine.Always s)
    (h : [t, u].Sublist (lineUp s p)) (hy : (s.threads t).yield = false)
    (hp : (kernel cfg).Path (StayInLine cfg p t u) s s') :
    [t, u].Sublist (lineUp s' p) ∧ (s'.threads u).stat ≠ .running := by
  have hkept : [t, u].Sublist (lineUp s' p) ∧ (s'.threads t).yield = false := by
    induction hp with
    | refl => exact ⟨h, hy⟩
    | @step x a hp ha hstay ih =>
      have hx := hr.path (hp.mono fun _ _ _ => trivial)
      exact hstay.step hport hx ha ih.1 ih.2
  have hJ' := (reach_sound (hr.path (hp.mono fun _ _ _ => trivial))).consistent
  obtain ⟨-, hready, -⟩ := (before_of_lineUp hkept.1).runnable hJ'.cpu_ok
  refine ⟨hkept.1, fun hrun => ?_⟩
  have hready' : (s'.threads u).stat = .ready := hready
  rw [hready'] at hrun
  cases hrun

/-! ## Runs -/

instance (cfg : Config) (p : ℕ) (t u : Tid) (s : State) (a : Action) :
    Decidable (StayInLine cfg p t u s a) :=
  decidable_of_iff (a.asks s ≠ some t ∧ t ∈ lineUp (exec cfg a s) p ∧ u ∈ lineUp (exec cfg a s) p)
    ⟨fun h => ⟨h.1, h.2.1, h.2.2⟩, fun h => ⟨h.silent, h.first, h.second⟩⟩

/-- Thread 3 preempts thread 1 and ends. -/
def preemptingRun : List Action := [spawn 3 5, .call (.threadAbort (some 3))]

/-- Thread 1 resumes before thread 2. -/
theorem order_of_equals_preempted : ∃ s', (kernel syncPort).Reach Machine.Always s' ∧
    [1, 2].Sublist (lineUp s' 10) ∧ (s'.threads 2).stat ≠ .running := by
  obtain ⟨s, hs, hp⟩ := (kernel syncPort).exists_run (l := [spawn 1 10, spawn 2 10, .start])
    (s := boot syncPort {})
    (p := fun s => decide (lineUp s 10 = [1, 2] ∧ (s.threads 1).yield = false) &&
      ((kernel syncPort).run preemptingRun s).isSome &&
      (kernel syncPort).checked (fun s a => decide (StayInLine syncPort 10 1 2 s a)) preemptingRun
        s) (by decide +kernel)
  rw [Bool.and_eq_true, Bool.and_eq_true, decide_eq_true_eq] at hp
  obtain ⟨⟨⟨hline, hy⟩, hrun⟩, hchecked⟩ := hp
  obtain ⟨s', hs'⟩ := Option.isSome_iff_exists.mp hrun
  have hpath := (kernel syncPort).path_of_checked (C := StayInLine syncPort 10 1 2)
    (fun _ _ h => of_decide_eq_true h) hs' hchecked
  have hr := reach_run hs
  have hbefore : [1, 2].Sublist (lineUp s 10) := by rw [hline]
  exact ⟨s', hr.path (hpath.mono fun _ _ _ => trivial), order_of_equals rfl hr hbefore hy hpath⟩

/-- Thread 1 has called `nd_thread_yield` while it was alone. -/
theorem left_over_request_overtakes : ¬ ∀ s s' t u p, (kernel syncPort).Reach Machine.Always s →
    [t, u].Sublist (lineUp s p) → (kernel syncPort).Path (StayInLine syncPort p t u) s s' →
    [t, u].Sublist (lineUp s' p) ∧ (s'.threads u).stat ≠ .running := by
  intro h
  obtain ⟨s, hs, hp⟩ := (kernel syncPort).exists_run
    (l := [spawn 1 10, .start, .call .threadYield, .irqEnter,
      .irq (.threadCreate
        { thread := some 2, name := some 1, entry := some 1, priority := 10, stack := some 1
          stackSize := 512, options := 0, timeSlice := 0 })]) (s := boot syncPort {})
    (p := fun s => decide (lineUp s 10 = [1, 2] ∧ (kernel syncPort).enabled s .irqExit ∧
      StayInLine syncPort 10 1 2 s .irqExit ∧
        ((exec syncPort .irqExit s).threads 2).stat = .running)) (by decide +kernel)
  obtain ⟨hline, henabled, hstay, hrun⟩ := of_decide_eq_true hp
  have hbefore : [1, 2].Sublist (lineUp s 10) := by rw [hline]
  exact (h s _ 1 2 10 (reach_run hs) hbefore (.single Action.irqExit henabled hstay)).2 hrun

end NerdRtos
