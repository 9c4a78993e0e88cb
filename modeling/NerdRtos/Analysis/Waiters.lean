import NerdRtos.Analysis.StepEffects

/-!
# Waiters and their calls

A thread on a wait list is inside of a call that waits on that list, and the last event that moved
it put it there. A thread that a producer took off the list has no error in its control block.
-/

set_option autoImplicit false

namespace NerdRtos

variable {cfg : Config} {s x y : State} {a : Action} {t u : Tid} {k : QHead}

/-- The event is the beginning of a call of `who`. -/
def Event.begins (who : Option Tid) : Event → Bool
  | .call w _ _ => w = who
  | _ => false

/-- The event puts thread `t` on a wait list, or takes it off for a producer. -/
def Event.moves (t : Tid) : Event → Bool
  | .pend u _ _ _ | .woken u _ => u = t
  | _ => false

/-- The last event that moved thread `t`. -/
def State.moved (s : State) (t : Tid) : Option Event := s.log.find? (Event.moves t)

/-- What the wait lists, the calls and the history say about thread `t` fits together. -/
structure Tracked (s : State) (t : Tid) : Prop where
  inside : ∀ k, s.queues.home t = some k → k.isWait = true → (s.calls t).bind Call.line = some k
  pended : ∀ k, s.queues.home t = some k → k.isWait = true →
    ∃ st l, s.moved t = some (.pend t k st l)
  awake : ∀ k, s.moved t = some (.woken t k) → (s.threads t).error = .eok

/-- A change that leaves the thread where it is, or takes it off its list. -/
theorem Tracked.keep (h : Tracked x t)
    (hq : ∀ k, y.queues.home t = some k → k.isWait = true →
      x.queues.home t = some k ∧ y.calls t = x.calls t)
    (hm : y.moved t = x.moved t)
    (he : (y.threads t).error = (x.threads t).error ∨ (y.threads t).error = .eok ∨
      ∃ k, x.queues.home t = some k ∧ k.isWait = true) : Tracked y t := by
  refine ⟨fun k hk hw => ?_, fun k hk hw => ?_, fun k hk => ?_⟩
  · obtain ⟨hx, hc⟩ := hq k hk hw
    rw [hc]
    exact h.inside k hx hw
  · rw [hm]
    exact h.pended k (hq k hk hw).1 hw
  · rw [hm] at hk
    rcases he with he | he | ⟨j, hj, hw⟩
    · rw [he]
      exact h.awake k hk
    · exact he
    · obtain ⟨st, l, hp⟩ := h.pended j hj hw
      rw [hp] at hk
      cases hk

/-- A change of other things. -/
theorem Tracked.same (h : Tracked x t) (hq : y.queues.home t = x.queues.home t)
    (hc : y.calls t = x.calls t) (hm : y.moved t = x.moved t)
    (he : (y.threads t).error = (x.threads t).error) : Tracked y t :=
  h.keep (fun _ hk _ => ⟨hq ▸ hk, hc⟩) hm (.inl he)

/-- An edit of a control block that does not touch the error. -/
theorem Tracked.updThread (h : Tracked x u) {f : Thread → Thread}
    (hf : ∀ th, (f th).error = th.error) : Tracked (x.updThread t f) u := by
  refine h.same rfl rfl rfl ?_
  by_cases hu : u = t
  · subst hu
    simp [hf]
  · simp [hu]

/-- A thread leaves its list. -/
theorem Tracked.left (h : Tracked x u) {f : Thread → Thread}
    (hf : (f (x.threads t)).error = (x.threads t).error ∨ (f (x.threads t)).error = .eok ∨
      ∃ k, x.queues.home t = some k ∧ k.isWait = true) : Tracked (x.left t f) u := by
  refine h.keep (fun k hk _ => ?_) rfl ?_
  · rw [State.home_left] at hk
    split at hk
    · cases hk
    · exact ⟨hk, rfl⟩
  · by_cases hu : u = t
    · subst hu
      simpa using hf
    · simp [hu]

/-- A waiter is woken. -/
theorem Tracked.woken (h : Tracked x u) (k : QHead) :
    Tracked ((x.left t wakeEdit).emit (.woken t k)) u := by
  have hleft : Tracked (x.left t wakeEdit) u := h.left (.inr (.inl rfl))
  by_cases hu : u = t
  · subst hu
    refine ⟨fun k' hk => ?_, fun k' hk => ?_, fun k' _ => ?_⟩
    · rw [State.emit_queues, State.home_left, if_pos rfl] at hk
      cases hk
    · rw [State.emit_queues, State.home_left, if_pos rfl] at hk
      cases hk
    · simp [wakeEdit]
  · exact hleft.same rfl rfl (by simp [State.moved, Event.moves, Ne.symm hu]) rfl

/-- Waking a waiter puts no thread on a list that was on none. -/
theorem State.home_served (h : x.queues.home t = none) (k : QHead) :
    (x.served k).queues.home t = none := by
  unfold State.served
  split
  · exact h
  · rw [State.emit_queues, State.home_left]
    split
    · rfl
    · exact h

/-- Waking a waiter of a queue or a pool keeps the record of the others. -/
theorem Tracked.served (h : Tracked x u) (k : QHead) : Tracked (x.served k) u := by
  unfold State.served
  split
  · exact h
  · exact h.woken k

/-- A boost keeps the record of every thread. -/
theorem Tracked.raised (h : Tracked x u) (m : Mid) (o c : Tid) : Tracked (x.raised m o c) u := by
  unfold State.raised
  split
  · exact Tracked.updThread (x := x.updMutex _ _) (h.same rfl rfl rfl rfl) fun _ => rfl
  · exact h

/-- A boost changes no state. -/
theorem State.stat_raised (x : State) (m : Mid) (o c t : Tid) :
    ((x.raised m o c).threads t).stat = (x.threads t).stat := by
  unfold State.raised
  split
  · by_cases ht : t = o
    · subst ht
      simp [Thread.withPriority]
    · simp [ht]
  · rfl

/-- A free thread starts to wait inside of a call. -/
theorem Tracked.blocked (h : Tracked x u) {c : Call} (hfree : x.queues.home t = none)
    (hk : c.line = some k) : Tracked (x.blocked t k c) u := by
  have hhome : ∀ v, (x.blocked t k c).queues.home v = if v = t then some k else x.queues.home v :=
    fun v => by
      show (x.joined t k).queues.home v = _
      rw [State.joined_queues, x.queues.home_link _ _ hfree]
  by_cases hu : u = t
  · subst hu
    refine ⟨fun k' hk' _ => ?_, fun k' hk' _ => ?_, fun k' hm => ?_⟩
    · rw [hhome, if_pos rfl] at hk'
      cases hk'
      simpa [State.blocked, finishCall] using hk
    · rw [hhome, if_pos rfl] at hk'
      cases hk'
      exact ⟨(x.threads u).stat,
        x.isLinked u, by simp [State.blocked, finishCall, State.moved, Event.moves]⟩
    · simp [State.blocked, finishCall, pendEdit]
  · refine h.same ?_ ?_ ?_ ?_
    · rw [hhome, if_neg hu]
    · simp [State.blocked, finishCall, hu]
    · simp [State.blocked, finishCall, State.moved, Event.moves, Ne.symm hu]
    · simp [State.blocked, finishCall, hu]

/-- A call of a thread that is on no wait list returns. -/
theorem Tracked.returned (h : Tracked x u) {who : Option Tid} (hfree : ∀ t, who = some t →
    x.queues.home t = none) (c : Call) (r : Ret) : Tracked (x.returned who c r) u := by
  rw [State.returned_eq]
  refine h.keep (fun k hk hw => ⟨hk, ?_⟩) (by simp [State.moved, Event.moves]) (.inl rfl)
  refine if_neg fun hwho => ?_
  rw [hfree u hwho] at hk
  cases hk

/-- A visit of `nd_event_send` keeps the record of every thread. -/
theorem Tracked.visited {e : ℕ} (h : Tracked x u) : Tracked (State.visited e x t) u := by
  unfold State.visited
  split
  · exact Tracked.left (x := x.granted _ _ _) (h.same rfl rfl rfl rfl) (.inl rfl)
  · exact h

/-- Every effect keeps the waiters inside of their calls. -/
theorem Tracked.step (hJ : ConsistentBut Set.univ x) (h : Tracked x u) (he : Effect a s x y) :
    Tracked y u := by
  have hfree : ∀ {v : Tid}, (x.threads v).stat = .running → x.queues.home v = none :=
    fun hr => hJ.home_none (by rw [hr]; decide) (by rw [hr]; decide)
  have hnot : ∀ {v : Tid}, ¬ (x.threads v).stat.live → x.queues.home v = none := fun hd =>
    hJ.home_none (fun hr => hd (by rw [hr]; exact ⟨by decide, by decide⟩))
      fun hr => hd (by rw [hr]; exact ⟨by decide, by decide⟩)
  cases he with
  | nothing | environment | semRelease | enter | write => exact h.same rfl rfl rfl rfl
  | returns r hw hl hr hb => exact h.returned (fun t ht => hfree (hw.runs t ht).2) _ _
  | blocks hw hm hk hn => exact h.blocked (hfree (hw.runs _ rfl).2) hk
  | semTake hw hv =>
    exact Tracked.returned (x := (x.updSem _ _).emit _) (h.same rfl rfl rfl rfl)
      (fun t ht => hfree (hw.runs t ht).2) _ _
  | semHand ha hl =>
    rename_i i t
    have hleft : Tracked (s.left t wakeEdit) u := h.left (.inr (.inl rfl))
    exact hleft.same rfl rfl rfl rfl
  | lock hw ho =>
    exact Tracked.returned (x := x.handed _ _) (h.same rfl rfl rfl rfl)
      (fun t ht => hfree (hw.runs t ht).2) _ _
  | contend ha hw ho hoc hx =>
    rename_i m o c n
    have hraised : Tracked (x.raised m o c) u := h.raised m o c
    have hc : (x.raised m o c).queues.home c = none := by
      subst hx
      have hrun := (hw.runs c rfl).2
      rw [State.raised_eq]
      exact hfree hrun
    split
    · exact hraised.returned (fun t ht => by cases ht; exact hc) _ _
    · exact hraised.blocked hc rfl
  | drop ha hc hi ho hl =>
    rename_i m c
    have hreleased : Tracked (s.updThread c (Thread.withPriority (restoredPriority s c m))) u :=
      h.updThread fun _ => rfl
    exact hreleased.same rfl rfl rfl rfl
  | hand ha hc hi ho hl =>
    rename_i m c t
    have hreleased : Tracked (s.updThread c (Thread.withPriority (restoredPriority s c m))) u :=
      h.updThread fun _ => rfl
    have hleft : Tracked ((s.released m c).left t wakeEdit) u :=
      Tracked.left (x := s.released m c) (hreleased.same rfl rfl rfl rfl) (.inr (.inl rfl))
    exact hleft.same rfl rfl rfl rfl
  | send hw hq =>
    refine Tracked.returned (Tracked.served (x := x.sent _ _) (h.same rfl rfl rfl rfl) _)
      (fun t ht => ?_) _ _
    exact State.home_served (x := x.sent _ _) (hfree (hw.runs t ht).2) _
  | recv hw hq =>
    refine Tracked.returned (Tracked.served (x := x.received _) (h.same rfl rfl rfl rfl) _)
      (fun t ht => ?_) _ _
    exact State.home_served (x := x.received _) (hfree (hw.runs t ht).2) _
  | alloc hw hp =>
    exact Tracked.returned (x := x.allocated _) (h.same rfl rfl rfl rfl)
      (fun t ht => hfree (hw.runs t ht).2) _ _
  | free ha => exact Tracked.served (x := s.put _ _) (h.same rfl rfl rfl rfl) _
  | eventSend ha =>
    exact visited_induction (P := fun z => Tracked z u) (fun z t hz _ => hz.visited) s.queues
      (h.same rfl rfl rfl rfl)
  | eventScratch hw => exact h.updThread fun _ => rfl
  | eventTake hw hs =>
    exact Tracked.returned (x := x.granted _ _ _) (h.same rfl rfl rfl rfl)
      (fun t ht => hfree (hw.runs t ht).2) _ _
  | create ha hb ht hst htk hu =>
    rename_i t b
    rw [created_eq hu]
    have hedited : Tracked (s.updThread t (createEdit b)) u := h.updThread fun _ => rfl
    refine hedited.keep (fun k hk _ => ⟨hk, ?_⟩) rfl (.inl rfl)
    refine Function.update_of_ne ?_ _ _
    rintro rfl
    rw [State.updTimer_queues, State.updTimer_queues, State.updThread_queues, hnot hst] at hk
    cases hk
  | suspend ha htk hst => exact h.left (.inl rfl)
  | resume ha hst => exact h.updThread fun _ => rfl
  | finish ha hess hst =>
    rename_i t
    have hleft : Tracked (s.left t endEdit) u := h.left (.inl rfl)
    exact hleft.same rfl rfl rfl rfl
  | wakeJoiner ha ht hj => exact h.left (.inr (.inl rfl))
  | timeout ha hl hk hw => exact h.left (.inr (.inr ⟨_, hk, hw⟩))
  | delay | delayEnd => exact h.updThread fun _ => rfl

/-- The scheduler does not see who waits, nor the calls. -/
theorem hidden_tracked (t : Tid) : Hidden fun s => Tracked s t := by
  intro x y ho h
  refine h.keep (fun k hk hw => ⟨?_, congrFun (congrArg State.calls ho :) t⟩)
    (congrArg (fun u : State => u.moved t) ho :) (.inl (error_of_offCpu ho t))
  exact home_of_offCpu ho hw hk

/-- Nobody waits at the beginning. -/
theorem tracked_start (v : Setup) (t : Tid) :
    Tracked ((initObjects v).created idleTid idleArgs) t := by
  rw [created_eq rfl]
  exact ⟨fun k hk => (by cases hk), fun k hk => (by cases hk), fun k hk => (by cases hk)⟩

/-- **Every waiter is inside of a call on its list**, in every run. -/
theorem reach_tracked {C : State → Action → Prop} (h : (kernel cfg).Reach C s) (t : Tid) :
    Tracked s t :=
  reach_effects (hidden_tracked t) (fun v => tracked_start v t)
    (fun _ _ _ _ _ _ _ hJ hx he => hx.step hJ he) h

end NerdRtos
