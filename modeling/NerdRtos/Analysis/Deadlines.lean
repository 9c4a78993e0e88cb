import NerdRtos.Analysis.WaitTimers
import NerdRtos.Analysis.WakeUps

/-!
# The deadline of a timed wait

The calls on queues and pools wait in a loop, and every turn of it hands the whole timeout of the
call to `nd_thread_pend`. A caller that is woken too late for what it waits for starts a new wait
of full length, so the deadline that its call had at its beginning moves with the clock.
-/

set_option autoImplicit false

namespace NerdRtos

variable {cfg : Config} {s x y : State} {a : Action} {t u : Tid} {c : Call}

/-- The beginning of the last call of thread `t`. -/
def State.begun (s : State) (t : Tid) : Option Event := s.log.find? (Event.begins (some t))

/-- A wait of `n` ticks that starts at `now` ends by the deadline `t₀ + n`: the time has not moved
on since `t₀`, or the sum of `nd_timer_start` wraps, or the tickless build saturates to a time that
is not later.
kernel/nd_timer.c:43-64, 186-208 -/
def EndsInTime (cfg : Config) (t₀ now n : ℕ) : Prop :=
  if cfg.tickless ∧ (u64Size - 1) / 2 ≤ n then u64Size - 1 ≤ t₀ + n
  else now ≤ t₀ ∨ u64Size ≤ now + n

/-- A call on a queue or a pool with a finite timeout that has to wait, or that has to wait again,
can still end by its deadline.
kernel/nd_queue.c:36-51, 74-89, kernel/nd_mempool.c:41-54 -/
def WaitsInTime (cfg : Config) (s : State) (a : Action) : Prop :=
  match a with
  | .call (.wait c) => c.loops = true → c.timeout ≠ ndTimeoutForever → c.mustLoop s →
      EndsInTime cfg s.clock s.clock c.timeout
  | .resume => ∀ t c t₀, threadMode s = some t → s.calls t = some c →
      s.begun t = some (.call (some t) c t₀) → c.loops = true → c.timeout ≠ ndTimeoutForever →
      (s.threads t).error ≠ .etimeout → c.mustLoop s → EndsInTime cfg t₀ s.clock c.timeout
  | _ => True

/-- What is known about the call of thread `t`: it is the last one that `t` began, and when it waits
in a loop with a finite timeout, the wait timer expires by its deadline. -/
structure Punctual (s : State) (t : Tid) : Prop where
  begun : ∀ c, s.calls t = some c → ∃ t₀, s.begun t = some (.call (some t) c t₀)
  deadline : ∀ c t₀ e, s.calls t = some c → s.begun t = some (.call (some t) c t₀) →
    c.loops = true → c.timeout ≠ ndTimeoutForever → s.armed (.wait t) = some e → e ≤ t₀ + c.timeout

/-! ## Calls and their beginnings over a step -/

/-- Only the caller gets into a call, the one that the action makes. -/
theorem Effect.calls (he : Effect a s x y) (h : y.calls t = some c) :
    x.calls t = some c ∨ s.caller = some t ∧ a.op? = some (.wait c) := by
  have hreturned : ∀ {z : State} {who : Option Tid} {d : Call} {r : Ret},
      (z.returned who d r).calls t = some c → z.calls t = some c := by
    intro z who d r hz
    rw [State.returned_eq] at hz
    have hcalls : (if who = some t then none else z.calls t) = some c := hz
    split at hcalls
    · cases hcalls
    · exact hcalls
  have hserved : ∀ {z : State} {k : QHead}, (z.served k).calls = z.calls := by
    intro z k
    unfold State.served
    split <;> rfl
  have hraised : ∀ {z : State} {m : Mid} {o w : Tid}, (z.raised m o w).calls = z.calls := by
    intro z m o w
    rw [State.raised_eq]
  have hblocked : ∀ {z : State} {w : Tid} {k : QHead} {d : Call}, Within a s x (some w) d →
      z.calls = x.calls → (z.blocked w k d).calls t = some c →
      x.calls t = some c ∨ s.caller = some t ∧ a.op? = some (.wait c) := by
    intro z w k d hw hzx hz
    by_cases htw : t = w
    · subst htw
      have hdc : d = c := by simpa [State.blocked, finishCall] using hz
      subst hdc
      rcases hw.acts with ⟨ha, -⟩ | ⟨-, v, hv, hd⟩
      · exact .inr ⟨hw.caller.symm, ha⟩
      · cases hv
        exact .inl hd
    · rw [← hzx]
      exact .inl (by simpa [State.blocked, finishCall, htw] using hz)
  cases he with
  | returns r hw hl hr hb => exact .inl (hreturned h)
  | blocks hw hm hk hn => exact hblocked hw rfl h
  | semTake hw hv => exact .inl (hreturned (z := (x.updSem _ _).emit _) h)
  | lock hw ho => exact .inl (hreturned (z := x.handed _ _) h)
  | contend ha hw ho hoc hx =>
    rename_i m o w n
    subst hx
    split at h
    · have hz := hreturned h
      rw [hraised] at hz
      exact .inl hz
    · exact hblocked ⟨hw.caller, hw.runs, hw.acts⟩ hraised h
  | send hw hq =>
    have hz := hreturned h
    rw [hserved] at hz
    exact .inl hz
  | recv hw hq =>
    have hz := hreturned h
    rw [hserved] at hz
    exact .inl hz
  | alloc hw hp => exact .inl (hreturned (z := x.allocated _) h)
  | free ha =>
    rw [hserved] at h
    exact .inl h
  | eventSend ha =>
    rename_i e set
    have hloop := visited_induction (e := e) (P := fun z => z.calls = s.calls) (x := s.posted e set)
      (fun z v hz _ => by unfold State.visited; split <;> exact hz) s.queues rfl
    rw [hloop] at h
    exact .inl h
  | eventTake hw hs => exact .inl (hreturned (z := x.granted _ _ _) h)
  | create ha hb ht hst htk hu =>
    rename_i v b
    rw [created_eq hu] at h
    by_cases htv : t = v
    · subst htv
      simp at h
    · exact .inl (by simpa [htv] using h)
  | _ => exact .inl h

/-- The beginning of the last call of thread `t`, and the time. -/
def State.stamp (s : State) (t : Tid) : Option Event × ℕ := (s.begun t, s.clock)

/-- Only the caller begins a call, the one that the action makes, and the clock moves in steps of
its own. -/
theorem Effect.stamp (he : Effect a s x y) : y.stamp t = x.stamp t ∨
    (y.begun t = x.begun t ∧ y.clock < u64Size) ∨
    (y.clock = x.clock ∧ ∃ c, a.op? = some (.wait c) ∧ s.caller = some t ∧
      y.begun t = some (.call (some t) c s.clock)) := by
  have hreturned : ∀ {z : State} {who : Option Tid} {d : Call} {r : Ret},
      (z.returned who d r).stamp t = z.stamp t := by
    intro z who d r
    rw [State.returned_eq]
    rfl
  have hserved : ∀ {z : State} {k : QHead}, (z.served k).stamp t = z.stamp t := by
    intro z k
    unfold State.served
    split <;> rfl
  have hraised : ∀ {z : State} {m : Mid} {o w : Tid}, (z.raised m o w).stamp t = z.stamp t := by
    intro z m o w
    rw [State.raised_eq]
    rfl
  cases he with
  | environment x n k hk =>
    refine hk.imp (fun hk => ?_) fun hk => .inl ⟨rfl, hk⟩
    simp [State.stamp, State.begun, hk]
  | enter ha hi =>
    rename_i c
    by_cases hs : s.caller = some t
    · exact .inr (.inr ⟨rfl, c, ha, hs, by simp [State.begun, Event.begins, hs]⟩)
    · exact .inl (by simp [State.stamp, State.begun, Event.begins, hs])
  | returns r hw hl hr hb => exact .inl hreturned
  | semTake hw hv => exact .inl (hreturned (z := (x.updSem _ _).emit _))
  | lock hw ho => exact .inl (hreturned (z := x.handed _ _))
  | contend ha hw ho hoc hx =>
    refine .inl ?_
    split
    · exact hreturned.trans hraised
    · exact hraised
  | send hw hq => exact .inl (hreturned.trans hserved)
  | recv hw hq => exact .inl (hreturned.trans hserved)
  | alloc hw hp => exact .inl (hreturned (z := x.allocated _))
  | free ha => exact .inl hserved
  | eventSend ha =>
    rename_i e set
    exact .inl (visited_induction (e := e) (P := fun z => z.stamp t = s.stamp t)
      (x := s.posted e set)
      (fun z v hz _ => by unfold State.visited; split <;> exact hz) s.queues rfl)
  | eventTake hw hs => exact .inl (hreturned (z := x.granted _ _ _))
  | create ha hb ht hst htk hu =>
    rw [created_eq hu]
    exact .inl rfl
  | _ => exact .inl rfl

/-- An effect begins no call but that of the action. -/
theorem Effect.begun (he : Effect a s x y) : y.begun t = x.begun t ∨
    ∃ c, a.op? = some (.wait c) ∧ s.caller = some t ∧
      y.begun t = some (.call (some t) c s.clock) := by
  rcases he.stamp (t := t) with h | ⟨h, -⟩ | ⟨-, h⟩
  · exact .inl (congrArg Prod.fst h)
  · exact .inl h
  · exact .inr h

/-- An effect leaves the clock, or sets it to a time that is in range. -/
theorem Effect.clock (he : Effect a s x y) : y.clock = x.clock ∨ y.clock < u64Size := by
  rcases he.stamp (t := idleTid) with h | ⟨-, h⟩ | ⟨h, -⟩
  · exact .inl (congrArg Prod.snd h)
  · exact .inr h
  · exact .inl h

/-- Whoever is inside of a call behind some effects was so before, or has begun it with the
action. -/
theorem Effects.calls (h : Effects a s x y) (hc : y.calls t = some c) :
    x.calls t = some c ∨ s.caller = some t ∧ a.op? = some (.wait c) := by
  refine h.induction (I := fun z => z.calls t = some c →
    x.calls t = some c ∨ s.caller = some t ∧ a.op? = some (.wait c)) ?_ ?_ .inl hc
  · intro z w ho hz hw
    exact hz ((congrArg (fun u : State => u.calls t) ho :) ▸ hw)
  · intro z w _ hz he hw
    exact (he.calls hw).elim hz .inr

/-- Some effects begin no call but that of the action. -/
theorem Effects.begun (h : Effects a s x y) : y.begun t = x.begun t ∨
    ∃ c, a.op? = some (.wait c) ∧ s.caller = some t ∧
      y.begun t = some (.call (some t) c s.clock) := by
  refine h.induction (I := fun z => z.begun t = x.begun t ∨ ∃ c, a.op? = some (.wait c) ∧
    s.caller = some t ∧ z.begun t = some (.call (some t) c s.clock)) ?_ ?_ (.inl rfl)
  · intro z w ho hz
    have hb : w.begun t = z.begun t := (congrArg (fun u : State => u.begun t) ho :)
    rw [hb]
    exact hz
  · intro z w _ hz he
    exact he.begun.elim (fun hw => hw ▸ hz) .inr

/-! ## One step -/

/-- A wait that ends in time expires by the deadline. -/
theorem expireAt_le {t₀ n : ℕ} (hclock : s.clock < u64Size) (h : EndsInTime cfg t₀ s.clock n) :
    expireAt cfg s n ≤ t₀ + n := by
  have hsum : s.clock ≤ t₀ ∨ u64Size ≤ s.clock + n → (s.clock + n) % u64Size ≤ t₀ + n := by
    rintro (hle | hwrap)
    · exact (Nat.mod_le _ _).trans (by omega)
    · rw [Nat.mod_eq_sub_mod hwrap]
      exact (Nat.mod_le _ _).trans (by omega)
  unfold EndsInTime at h
  unfold expireAt
  by_cases ht : cfg.tickless = true
  · rw [if_pos ht]
    by_cases hn : (u64Size - 1) / 2 ≤ n
    · rw [if_pos ⟨ht, hn⟩] at h
      rw [if_pos hn]
      exact h
    · rw [if_neg fun hb => hn hb.2] at h
      rw [if_neg hn, Nat.add_comm n]
      exact hsum h
  · rw [if_neg fun hb => ht hb.1] at h
    rw [if_neg ht]
    exact hsum h

/-- The call that a thread makes is noted with the time. -/
theorem Sound.begun_call (hS : Sound cfg s) (ha : allowed cfg s (.call (.wait c)) = true)
    (hc : s.caller = some t) (hf : (NerdRtos.exec cfg (.call (.wait c)) s).fault = false) :
    (NerdRtos.exec cfg (.call (.wait c)) s).begun t = some (.call (some t) c s.clock) := by
  have hcur : s.current = some t := by
    unfold State.caller at hc
    split at hc
    · exact hc
    · cases hc
  obtain ⟨hm, hnone⟩ := outside_of_allowed ha hcur
  have hv : (Op.wait c).valid s = true := (call_allowed ha).1
  have hE := hS.begun_effects (a := .call (.wait c)) rfl (fun _ _ _ => rfl) hv (.inr ⟨t, hm⟩)
    (fun u hu => by cases hc.symm.trans hu; exact ⟨hm, hnone⟩) hf
  rcases hE.begun (t := t) with h | ⟨d, hd, -, h⟩
  · refine h.trans ?_
    simp [State.begun, Event.begins, hc]
  · cases hd
    exact h

/-- A call that waits is made by a thread. -/
theorem call_of_allowed (ha : allowed cfg s a = true) (hop : a.op? = some (.wait c))
    (hn : c.timeout ≠ ndTimeoutNowait ∨ s.caller ≠ none) : a = .call (.wait c) := by
  cases a with
  | call o =>
    cases hop
    rfl
  | irq o =>
    cases hop
    obtain ⟨hnest, hirq, -⟩ := irq_allowed ha
    rcases hn with hn | hn
    · exfalso
      cases c <;> simp [Op.fromIrq] at hirq <;> exact hn hirq
    · exact absurd (by simp [State.caller, Nat.ne_of_gt hnest]) hn
  | _ => cases hop

/-- **A step that waits in time keeps the deadlines.** -/
theorem Punctual.step (hS : Sound cfg s) (hclock : s.clock < u64Size) (h : Punctual s t)
    (ha : allowed cfg s a = true) (hf : (exec cfg a s).fault = false) (hC : WaitsInTime cfg s a) :
    Punctual (exec cfg a s) t := by
  have hE := exec_effects hS ha hf
  have hcaller : s.caller = some t → s.current = some t := by
    intro hc
    unfold State.caller at hc
    split at hc
    · exact hc
    · cases hc
  -- a thread that is inside of a call keeps the beginning of it
  have hold : ∀ c, s.calls t = some c → (exec cfg a s).begun t = s.begun t := by
    intro c hc
    refine hE.begun.resolve_right ?_
    rintro ⟨d, hop, hw, -⟩
    have had := call_of_allowed ha hop (.inr (by simp [hw]))
    subst had
    rw [(outside_of_allowed ha (hcaller hw)).2] at hc
    cases hc
  constructor
  · intro c hc
    rcases hE.calls hc with hs | ⟨hw, hop⟩
    · obtain ⟨t₀, ht₀⟩ := h.begun c hs
      exact ⟨t₀, (hold c hs).trans ht₀⟩
    · have had := call_of_allowed ha hop (.inr (by simp [hw]))
      subst had
      exact ⟨s.clock, hS.begun_call ha hw hf⟩
  · intro c t₀ e hc hb hl hn he
    rcases exec_rearms hS ha t e he with hs | ⟨hcur, n, rfl⟩ | ⟨d,
      ⟨hcur, -, hnow, hmust, rfl⟩, hact⟩
    · -- a thread whose timer is armed is blocked, so it does not act
      have hblock := hS.consistent.block_of_armed (t := t) (by
        unfold State.armed at hs
        cases hh : s.tree.home (.wait t) with
        | none => simp [hh] at hs
        | some w => simp [State.isArmed, hh])
      rcases hE.calls hc with hsc | ⟨hw, hop⟩
      · exact h.deadline c t₀ e hsc (by rw [← hold c hsc]; exact hb) hl hn hs
      · have had := call_of_allowed ha hop (.inr (by simp [hw]))
        subst had
        rw [hS.runs (outside_of_allowed ha (hcaller hw)).1] at hblock
        cases hblock
    · rcases hE.calls hc with hsc | ⟨-, hop⟩
      · rw [(outside_of_allowed ha hcur).2] at hsc
        cases hsc
      · cases hop
    · rcases hact with hop | ⟨rfl, hsd, hld, herr⟩
      · have had := call_of_allowed ha hop (.inl hnow)
        subst had
        obtain ⟨hm, hnone⟩ := outside_of_allowed ha hcur
        rcases hE.calls hc with hsc | ⟨hw, hop'⟩
        · rw [hnone] at hsc
          cases hsc
        · cases hop'
          rw [hS.begun_call ha hw hf] at hb
          cases hb
          exact expireAt_le hclock (hC hl hn (hmust hl))
      · rcases hE.calls hc with hsc | ⟨-, hop⟩
        · cases hsd.symm.trans hsc
          have hm : threadMode s = some t := by
            obtain ⟨w, hm, -⟩ := resume_allowed ha
            rw [(threadMode_eq hm).2.2.1] at hcur
            exact hm.trans hcur
          rw [hold c hsd] at hb
          exact expireAt_le hclock (hC t c t₀ hm hsd hb hl hn herr (hmust hl))
        · cases hop

/-! ## Every run -/

/-- The clock is a word of 64 bits. -/
theorem clock_lt {C : State → Action → Prop} (h : (kernel cfg).Reach C s) : s.clock < u64Size := by
  refine reach_effects (I := fun s => s.clock < u64Size) ?_ (fun u => ?_) ?_ h
  · intro x y ho hx
    have hclock : y.clock = x.clock := (congrArg State.clock ho :)
    rw [hclock]
    exact hx
  · rw [created_eq rfl]
    exact Nat.pos_of_ne_zero (by decide)
  · intro s a _ _ _ x y _ hx he
    exact he.clock.elim (fun hclock => hclock ▸ hx) id

/-- **A timed wait keeps its deadline** in the runs that wait in time.
kernel/nd_queue.c:31-105, kernel/nd_mempool.c:36-62, kernel/nd_thread.c:95-109 -/
theorem deadlines_kept (h : (kernel cfg).Reach (WaitsInTime cfg) s) (t : Tid) : Punctual s t := by
  refine h.induction (I := fun s => Punctual s t) ?_ ?_
  · rintro _ ⟨u, rfl⟩
    have hcalls : (boot cfg u).calls = ((initObjects u).created idleTid idleArgs).calls :=
      (congrArg State.calls (offCpu_boot cfg u) :)
    have hnone : (boot cfg u).calls t = none := by
      rw [hcalls, created_eq rfl]
      by_cases ht : t = idleTid <;> simp [ht, initObjects]
    exact ⟨fun c hc => by simp [hnone] at hc, fun c _ _ hc => by simp [hnone] at hc⟩
  · intro s a hr hs he hC
    exact hs.step (reach_sound hr) (clock_lt hr) he.1 he.2 hC

/-- Thread 1 waits for a message for at most 5 ticks, and thread 2 for its next period. -/
def timedReaderRun : List Action :=
  [spawn 1 10, spawn 2 5, .start, .call (.threadDelay 3), .call (.wait (.queueRecv 0 5))]

/-- A handler sends a message and takes it away again, before the time has moved on. -/
def takenAtOnce : List Action :=
  timedReaderRun ++ [.irqEnter, .irq (.wait (.queueSend 0 [7] ndTimeoutNowait)),
    .irq (.wait (.queueRecv 0 ndTimeoutNowait)), .irqExit, .resume]

/-- A check of the steps that wait in time on a port without the tickless option. -/
def waitsAtOnce (s : State) (a : Action) : Bool := a ≠ .resume || s.clock = 0

/-- What the check accepts waits in time. -/
theorem waitsAtOnce_waitsInTime (s : State) (a : Action) (h : waitsAtOnce s a = true) :
    WaitsInTime syncPort s a := by
  cases a with
  | call o =>
    cases o with
    | wait c =>
      intro _ _ _
      exact .inl (le_refl _)
    | _ => trivial
  | resume =>
    intro t c t₀ _ _ _ _ _ _ _
    have hz : s.clock = 0 := by simpa [waitsAtOnce] using h
    exact .inl (by omega)
  | _ => trivial

/-- Thread 1 waits again, and its timer still expires at 5. -/
theorem deadlines_kept_run :
    ∃ s, (kernel syncPort).run takenAtOnce (boot syncPort byteSlots) = some s ∧
      s.armed (.wait 1) = some 5 ∧ (s.log.countP fun e => e matches .pend ..) = 2 ∧
        Punctual s 1 := by
  obtain ⟨s, hs, hp⟩ := (kernel syncPort).exists_run (l := takenAtOnce)
    (s := boot syncPort byteSlots)
    (p := fun s => s.armed (.wait 1) = some 5 ∧ (s.log.countP fun e => e matches .pend ..) = 2)
    (by decide +kernel)
  simp only [decide_eq_true_eq] at hp
  have hr := (kernel syncPort).reach_of_checked waitsAtOnce_waitsInTime (.start ⟨byteSlots, rfl⟩) hs
    (by decide +kernel)
  exact ⟨s, hs, hp.1, hp.2, deadlines_kept hr 1⟩

/-- Thread 2 sends the message at tick 3 and takes it away again: thread 1, which asked for 5 ticks
at tick 0, waits until tick 8. -/
theorem stolen_message_moves_deadline :
    ¬ ∀ s, (kernel syncPort).Reach Machine.Always s → ∀ t, Punctual s t := by
  intro hrule
  obtain ⟨s, hs, hp⟩ := (kernel syncPort).exists_run
    (l := timedReaderRun ++ [.advance 3, .irqEnter, .timerFire, .irqExit,
      .call (.wait (.queueSend 0 [7] ndTimeoutNowait)),
      .call (.wait (.queueRecv 0 ndTimeoutNowait)), .call (.threadDelay 10), .resume])
    (s := boot syncPort byteSlots)
    (p := fun s => s.calls 1 = some (.queueRecv 0 5) ∧
      s.begun 1 = some (.call (some 1) (.queueRecv 0 5) 0) ∧ s.armed (.wait 1) = some 8)
    (by decide +kernel)
  simp only [decide_eq_true_eq] at hp
  have hr := (kernel syncPort).reach_of_run (C := Machine.Always) (fun _ _ _ => trivial)
    (.start ⟨byteSlots, rfl⟩) hs
  have hle := (hrule s hr 1).deadline _ 0 8 hp.1 hp.2.1 rfl (by decide) hp.2.2
  exact absurd hle (by decide)

end NerdRtos
