import NerdRtos.Analysis.Reachable

/-!
# Refused calls

What a call with `ND_TIMEOUT_NOWAIT` leaves behind when it does not succeed: nothing but the scratch
fields `event.set` and `event.opt` of its caller, except that `nd_mutex_lock` has raised the owner
by then.
-/

set_option autoImplicit false

namespace NerdRtos

variable {cfg : Config} {s s' : State} {a : Action} {c : Call} {r : Ret} {t o : Tid} {m : Mid}

/-- An error number other than `ND_EOK`, or `ND_NULL`. -/
def Ret.refused : Ret → Bool
  | .err e => e ≠ .eok
  | .block p => p.isNone

/-- What a call returns in its critical section, if it returns there. -/
def Call.result (cfg : Config) (c : Call) (s : State) : Option Ret :=
  (callBody cfg c (s.emit (.call s.caller c s.clock))).2

/-- The state without its history and without the scratch fields of the current thread. -/
def State.withoutScratch (s : State) : State :=
  { s with
    log := []
    threads := fun t =>
      if s.current = some t then { s.threads t with eventSet := 0, eventOpt := .and }
      else s.threads t }

/-- Nothing has changed but the history and the scratch fields of the current thread. -/
def Unchanged (s s' : State) : Prop := s'.withoutScratch = s.withoutScratch

/-- An `nd_mutex_lock` whose mutex belongs to a thread with a numerically larger priority. -/
def RaisesOwner (c : Call) (s : State) : Prop :=
  ∃ m n t o, c = .mutexLock m n ∧ s.current = some t ∧ (s.mutexes m).owner = some o ∧
    (s.threads t).priority < (s.threads o).priority

/-! ## What stays -/

/-- The scratch fields are not the priority. -/
theorem withoutScratch_priority (s : State) (t : Tid) :
    (s.withoutScratch.threads t).priority = (s.threads t).priority := by
  unfold State.withoutScratch
  simp only
  split <;> rfl

/-- Where nothing has changed no priority has. -/
theorem Unchanged.priority (h : Unchanged s s') (t : Tid) :
    (s'.threads t).priority = (s.threads t).priority := by
  rw [← withoutScratch_priority s', ← withoutScratch_priority s]
  exact congrArg (fun z => (z.threads t).priority) h

/-- The scratch fields of the caller do not count. -/
theorem withoutScratch_scratch (hc : s.current = some t) (set : BitVec 32) (opt : EventOpt) :
    (s.updThread t fun th => { th with eventSet := set, eventOpt := opt }).withoutScratch =
      s.withoutScratch := by
  unfold State.withoutScratch
  simp only [State.updThread_current, State.updThread_threads, hc]
  congr 1
  funext u
  by_cases hu : u = t
  · subst hu
    simp
  · have htu : some t ≠ some u := fun he => hu (Option.some.inj he).symm
    rw [if_neg htu, if_neg htu, Function.update_of_ne hu]

/-- The record of the outcome does not count, for a caller that was in no call. -/
theorem withoutScratch_finishCall (h : s'.withoutScratch = s.withoutScratch) {who : Option Tid}
    (hwho : ∀ t, who = some t → s.calls t = none) (c : Call) (r : Ret) :
    Unchanged s (finishCall who c (s', some r)) := by
  have hcalls : s'.withoutScratch.calls = s.withoutScratch.calls := by rw [h]
  change s'.calls = s.calls at hcalls
  cases who with
  | none => exact h
  | some t =>
    have hsame : Function.update s'.calls t none = s'.calls := by
      rw [hcalls, ← hwho t rfl, Function.update_eq_self]
    refine Eq.trans ?_ h
    show State.withoutScratch { s'.emit (.ret (some t) c r) with calls := _ } = _
    rw [hsame]
    rfl

/-- Without a boost of the owner, the body of a call that does not wait and does not succeed ends
where it began. -/
theorem callBody_refused (hn : c.timeout = ndTimeoutNowait) (hr : (callBody cfg c s).2 = some r)
    (href : r.refused = true) (hraise : ¬ RaisesOwner c s) :
    (callBody cfg c s).1.withoutScratch = s.withoutScratch := by
  cases c with
  | semTake i n =>
    obtain rfl : n = ndTimeoutNowait := hn
    simp only [callBody, ndSemTake] at hr ⊢
    split at hr
    · cases hr
      cases href
    · rename_i hpos
      rw [if_neg hpos, if_pos trivial]
  | mutexLock m n =>
    obtain rfl : n = ndTimeoutNowait := hn
    simp only [callBody, ndMutexLock] at hr ⊢
    cases hc : s.current with
    | none =>
      rw [hc] at hr
      cases hr
    | some t =>
      cases ho : (s.mutexes m).owner with
      | none =>
        simp only [hc, ho] at hr
        cases hr
        cases href
      | some o =>
        have hle : ¬ (s.threads t).priority < (s.threads o).priority := fun hlt =>
          hraise ⟨m, _, t, o, rfl, hc, ho, hlt⟩
        simp only
        by_cases hot : o = t
        · rw [if_pos hot]
        · rw [if_neg hot, if_pos trivial]
          unfold boostOwner
          rw [if_neg hle]
  | queueSend q msg n =>
    obtain rfl : n = ndTimeoutNowait := hn
    simp only [callBody, loopTurns, ndQueueSend] at hr ⊢
    split at hr
    · rename_i hfull
      rw [if_pos hfull, if_pos trivial]
    · cases hr
      cases href
  | queueRecv q n =>
    obtain rfl : n = ndTimeoutNowait := hn
    simp only [callBody, loopTurns, ndQueueRecv] at hr ⊢
    split at hr
    · rename_i hempty
      rw [if_pos hempty, if_pos trivial]
    · cases hr
      cases href
  | eventRecv e set opt n =>
    obtain rfl : n = ndTimeoutNowait := hn
    simp only [callBody, ndEventRecv] at hr ⊢
    cases hc : s.current with
    | none =>
      rw [hc] at hr
      cases hr
    | some t =>
      simp only [hc] at hr
      simp only
      split at hr
      · cases hr
        cases href
      · rename_i hsat
        rw [if_neg hsat, if_pos trivial]
        exact withoutScratch_scratch hc set opt
  | mempoolAlloc p n =>
    obtain rfl : n = ndTimeoutNowait := hn
    simp only [callBody, loopTurns, ndMempoolAlloc] at hr ⊢
    split at hr
    · rename_i hempty
      rw [if_pos hempty, if_pos trivial]
    · cases hr
      cases href
  | threadJoin u n =>
    obtain rfl : n = ndTimeoutNowait := hn
    simp only [callBody, ndThreadJoin]
    cases u with
    | none => rfl
    | some u =>
      simp only
      by_cases hself : s.current = some u
      · rw [if_pos hself]
      · rw [if_neg hself]
        by_cases hdead : (s.threads u).stat = .dead
        · rw [if_pos hdead]
        · rw [if_neg hdead, if_pos trivial]

/-! ## Exactly the calls that do not raise an owner -/

/-- A call that may wait is one that a caller outside of any call begins. -/
theorem context_of_wait (ha : allowed cfg s a = true)
    (hw : a = .call (.wait c) ∨ a = .irq (.wait c)) :
    exec cfg a s = startCall cfg c s ∧ ∀ t, s.caller = some t → s.calls t = none := by
  rcases hw with rfl | rfl
  · refine ⟨rfl, fun t ht => ?_⟩
    unfold State.caller at ht
    split at ht
    · exact (outside_of_allowed ha ht).2
    · cases ht
  · refine ⟨rfl, fun t ht => ?_⟩
    have hnest := (irq_allowed ha).1
    unfold State.caller at ht
    rw [if_neg hnest.ne'] at ht
    cases ht

/-- The record of the outcome changes no priority. -/
theorem priority_finishCall (who : Option Tid) (c : Call) (x : State × Option Ret) (t : Tid) :
    ((finishCall who c x).threads t).priority = (x.1.threads t).priority := by
  obtain ⟨s, r⟩ := x
  cases r <;> cases who <;> rfl

/-- The owner has the priority of the caller when `nd_mutex_lock` returns `ND_EBUSY`. -/
theorem RaisesOwner.raises (hS : Sound cfg s) (h : RaisesOwner c s)
    (hn : c.timeout = ndTimeoutNowait) :
    ∃ o, ((callBody cfg c s).1.threads o).priority ≠ (s.threads o).priority := by
  obtain ⟨m, n, t, o, rfl, hc, ho, hlt⟩ := h
  obtain rfl : n = ndTimeoutNowait := hn
  have hot : o ≠ t := fun he => by
    rw [he] at hlt
    exact hlt.false
  refine ⟨o, ?_⟩
  simp only [callBody, ndMutexLock, hc, ho]
  rw [if_neg hot, if_pos trivial]
  have hp := (threads_boostOwner hS (m := m) (o := o) (c := t) o).2
  rw [if_pos rfl] at hp
  rw [hp]
  omega

/-- **A refused call changes nothing**, exactly when it raises no owner.
kernel/nd_mutex.c:72-106, kernel/nd_queue.c:31-105, kernel/nd_event.c:61-87,
kernel/nd_thread.c:344-376 -/
theorem refused_call_changes_nothing_iff (h : (kernel cfg).Reach Machine.Always s)
    (ha : allowed cfg s a = true) (hw : a = .call (.wait c) ∨ a = .irq (.wait c))
    (hn : c.timeout = ndTimeoutNowait) (hr : c.result cfg s = some r) (href : r.refused = true) :
    Unchanged s (exec cfg a s) ↔ ¬ RaisesOwner c s := by
  obtain ⟨hexec, hcalls⟩ := context_of_wait ha hw
  set s₁ := s.emit (.call s.caller c s.clock) with hs₁
  have hbody : (callBody cfg c s₁).2 = some r := hr
  rw [hexec]
  constructor
  · intro hsame hraise
    have hS₁ : Sound cfg s₁ := (Kept.of_bare (C := True) (y := s₁) (reach_sound h) rfl).sound
    obtain ⟨o, hne⟩ := RaisesOwner.raises (c := c) hS₁ hraise hn
    have hp := hsame.priority o
    unfold startCall at hp
    rw [priority_finishCall] at hp
    exact hne hp
  · intro hraise
    have hkeep := callBody_refused (s := s₁) hn hbody href hraise
    obtain ⟨s₂, hs₂⟩ : ∃ s₂, callBody cfg c s₁ = (s₂, some r) := ⟨_, Prod.ext rfl hbody⟩
    rw [hs₂] at hkeep
    unfold startCall
    rw [← hs₁, hs₂]
    exact withoutScratch_finishCall hkeep hcalls c r

/-- A take of an empty semaphore changes nothing. -/
theorem refused_call_changes_nothing_run :
    ∃ s, (kernel syncPort).run [spawn 1 5, .start] (boot syncPort {}) = some s ∧
      (Call.semTake 0 ndTimeoutNowait).result syncPort s = some (.err .ebusy) ∧
      Unchanged s (exec syncPort (.call (.wait (.semTake 0 ndTimeoutNowait))) s) := by
  obtain ⟨s, hs, hp⟩ := (kernel syncPort).exists_run (l := [spawn 1 5, .start])
    (s := boot syncPort {})
    (p := fun s => allowed syncPort s (.call (.wait (.semTake 0 ndTimeoutNowait))) ∧
      (Call.semTake 0 ndTimeoutNowait).result syncPort s = some (.err .ebusy)) (by decide +kernel)
  obtain ⟨ha, hr⟩ := of_decide_eq_true hp
  have hraise : ¬ RaisesOwner (.semTake 0 ndTimeoutNowait) s := by
    rintro ⟨m, n, t, o, hc, -⟩
    cases hc
  exact ⟨s, hs, hr,
    (refused_call_changes_nothing_iff (reach_run hs) ha (.inl rfl) rfl hr rfl).mpr hraise⟩

/-- Thread 1, with priority 20, owns mutex 0, and thread 2 runs with priority 5. -/
def contestedRun : List Action :=
  [spawn 1 20, .start, .call (.wait (.mutexLock 0 ndTimeoutForever)), spawn 2 5]

/-- Thread 2 gets `ND_EBUSY` for the mutex, and thread 1 has priority 5. -/
theorem refused_lock_raises_owner :
    ¬ ∀ (cfg : Config) (s : State) (a : Action) (c : Call) (r : Ret),
      (kernel cfg).Reach Machine.Always s → allowed cfg s a = true →
      (a = .call (.wait c) ∨ a = .irq (.wait c)) → c.timeout = ndTimeoutNowait →
      c.result cfg s = some r → r.refused = true → Unchanged s (exec cfg a s) := by
  intro hrule
  obtain ⟨s, hs, hp⟩ := (kernel syncPort).exists_run (l := contestedRun) (s := boot syncPort {})
    (p := fun s => allowed syncPort s (.call (.wait (.mutexLock 0 ndTimeoutNowait))) ∧
      (Call.mutexLock 0 ndTimeoutNowait).result syncPort s = some (.err .ebusy) ∧
      (s.threads 1).priority = 20 ∧
      ((exec syncPort (.call (.wait (.mutexLock 0 ndTimeoutNowait))) s).threads 1).priority = 5)
    (by decide +kernel)
  obtain ⟨ha, hr, hbefore, hafter⟩ := of_decide_eq_true hp
  have hsame := (hrule _ _ _ _ _ (reach_run hs) ha (.inl rfl) rfl hr rfl).priority 1
  rw [hbefore, hafter] at hsame
  cases hsame

end NerdRtos
