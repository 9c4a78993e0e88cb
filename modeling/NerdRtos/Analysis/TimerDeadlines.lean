import NerdRtos.Analysis.TimerOrder

/-!
# No timer is early

A timer keeps the deadline that its start has given it until the next event about it, in whatever
way the other timers are started and stopped and called. So a call is early exactly when the sum of
clock and timeout is, and that is the case where the tick build lets it wrap around.
-/

set_option autoImplicit false

namespace NerdRtos

open SearchTree (Balancing)

/-- The timer that an event is about. -/
def TimerEvent.timer : TimerEvent → ℕ
  | .started t | .stopped t | .fired t _ _ => t

namespace TimerSet

variable {rb : Balancing ℕ} {cfg : Config} {s s' : TimerSet} {t u l d now T : ℕ}

/-! ## What is armed stays armed -/

/-- The timer is armed for the deadline `d`. -/
structure ArmedFor (d t : ℕ) (s : TimerSet) : Prop where
  linked : (s.timers t).linked = true
  callback : (s.timers t).callback = true
  deadline : (s.timers t).expireTime = d

/-- A timer that stays is armed for the same deadline. -/
theorem ArmedFor.same (h : ArmedFor d t s) (hsame : s'.timers t = s.timers t) :
    ArmedFor d t s' := by
  constructor
  · rw [hsame]
    exact h.linked
  · rw [hsame]
    exact h.callback
  · rw [hsame]
    exact h.deadline

/-- A periodic timer that is linked in again leaves the others. -/
theorem rearm_timers_of_ne (rb : Balancing ℕ) (h : u ≠ l) (s : TimerSet) :
    (rearm rb l s).timers u = s.timers u := by
  unfold rearm
  split
  · simp [timerErase, timerNodeInsert, h]
  · simp [timerErase, h]

/-- A start arms its timer for the deadline that it computes. -/
theorem armedFor_start (rb : Balancing ℕ) (cfg : Config) (hs : s.Sound) (moves : List ℕ)
    (hcb : (s.timers t).callback = true) :
    ArmedFor (deadlineOf cfg (startNow rb cfg t { s with moves }) (s.timers t).timeout) t
      (exec rb cfg (.start t moves) s) := by
  have htree : TreeOk { s with moves } := ⟨hs.linked, hs.once, hs.sorted⟩
  have htimers := timers_of_offHw (ndTimerStart_offHw rb cfg htree hcb)
  have hcallback : ((unlink rb t { s with moves }).timers t).callback = true := by
    unfold unlink
    split
    · simpa [timerErase] using hcb
    · exact hcb
  have hexec : (exec rb cfg (.start t moves) s).timers =
    (ndTimerStart rb cfg t { s with moves }).timers := rfl
  constructor
  · rw [hexec, htimers]
    simp [timerNodeInsert]
  · rw [hexec, htimers]
    simpa [timerNodeInsert] using hcallback
  · rw [hexec, htimers]
    simp [timerNodeInsert]

/-- An action that notes nothing about the timer leaves it as it is. -/
theorem ArmedFor.exec (hs : s.Sound) (h : ArmedFor d t s) {a : TimerAction}
    (ha : s.allowed a = true)
    (hother : ∀ e, (TimerSet.exec rb cfg a s).log = e :: s.log → e.timer ≠ t) :
    ArmedFor d t (TimerSet.exec rb cfg a s) := by
  cases a with
  | init u periodic timeout callback =>
    have hut : t ≠ u := by
      intro heq
      have hnot : (!(s.timers u).linked) = true := (Bool.and_eq_true .. ▸ ha).2
      rw [← heq, h.linked] at hnot
      cases hnot
    show ArmedFor d t (ndTimerInit u periodic timeout callback s)
    unfold ndTimerInit
    split
    · exact h
    · split
      · exact h
      · exact h.same (by simp [hut])
  | retime u timeout =>
    by_cases hut : t = u
    · subst hut
      have hkept : ((s.updTimer t fun tm => { tm with timeout }).timers t) =
        { s.timers t with timeout } := by simp
      refine ⟨?_, ?_, ?_⟩
      · exact (congrArg TimerCtl.linked hkept).trans h.linked
      · exact (congrArg TimerCtl.callback hkept).trans h.callback
      · exact (congrArg TimerCtl.expireTime hkept).trans h.deadline
    · exact h.same (Function.update_of_ne hut _ _)
  | start u moves =>
    have htree : TreeOk { s with moves } := ⟨hs.linked, hs.once, hs.sorted⟩
    have hcb : (s.timers u).callback = true := (Bool.and_eq_true .. ▸ ha).2
    have hut : t ≠ u := Ne.symm (hother _ (exec_start_log rb cfg hs.toTreeOk hcb moves))
    refine h.same ?_
    show (ndTimerStart rb cfg u { s with moves }).timers t = s.timers t
    rw [timers_of_offHw (ndTimerStart_offHw rb cfg htree hcb)]
    simp [timerNodeInsert, hut, unlink_timers_of_ne rb hut]
  | stop u moves =>
    have htree : TreeOk { s with moves } := ⟨hs.linked, hs.once, hs.sorted⟩
    have hut : t ≠ u := Ne.symm (hother _ (exec_stop_log rb cfg hs.toTreeOk u moves))
    refine h.same ?_
    show (timerRemove rb cfg u { s with moves }).timers t = s.timers t
    rw [timers_of_offHw (timerRemove_offHw rb cfg htree u)]
    exact unlink_timers_of_ne rb hut _
  | process => exact h.same rfl
  | turn moves =>
    have htm : (hwCall { s with moves }).timers = s.timers :=
      timers_of_offHw (hwCall_offHw { s with moves })
    have hlog : (hwCall { s with moves }).log = s.log :=
      log_of_offHw (hwCall_offHw { s with moves })
    rcases timerExpired_cases rb cfg { s with moves } with hquiet | ⟨l, -, -, hcall⟩
    · exact h.same (congrFun (timers_of_offHw hquiet) t)
    · have hexec : TimerSet.exec rb cfg (.turn moves) s =
          { TimerSet.timerExpired rb cfg { s with moves } with moves := [] } := rfl
      have htl : t ≠ l := by
        intro heq
        have hcb : ((hwCall { s with moves }).timers l).callback = true := by
          rw [htm, ← heq]
          exact h.callback
        rw [expireLeftmost_eq, if_pos hcb] at hcall
        refine hother (.fired l ((hwCall { s with moves }).timers l).expireTime
          (hwCall { s with moves }).clock)
          ?_ heq.symm
        rw [hexec, hcall]
        exact congrArg _ ((rearm_log rb l _).trans hlog)
      refine h.same ?_
      rw [hexec, hcall, expireLeftmost_eq]
      have hrearm := (rearm_timers_of_ne rb htl (hwCall { s with moves })).trans (congrFun htm t)
      split
      · exact hrearm
      · exact hrearm
  | callbackReturns => exact h.same rfl
  | advance n => exact h.same (congrFun (timers_of_offHw (moveClock_offHw n s)) t)

/-- Timer `t` was started at clock `now` with timeout `T`; it was not called since, and not started
again or stopped. -/
def Pending (rb : Balancing ℕ) (cfg : Config) (now T t : ℕ) (s : TimerSet) : Prop :=
  ∃ s₀ moves, (timerMachine rb cfg).Reach Machine.Always s₀ ∧
    (timerMachine rb cfg).enabled s₀ (.start t moves) ∧
    startNow rb cfg t { s₀ with moves } = now ∧ (s₀.timers t).timeout = T ∧
    (timerMachine rb cfg).Path Machine.Always (exec rb cfg (.start t moves) s₀) s ∧
    ∃ events, s.log = events ++ (exec rb cfg (.start t moves) s₀).log ∧ ∀ e ∈ events, e.timer ≠ t

/-- The deadline of a pending timer is the one that its start has computed. -/
theorem Pending.armedFor (h : Pending rb cfg now T t s) : ArmedFor (deadlineOf cfg now T) t s := by
  obtain ⟨s₀, moves, hreach, hstart, rfl, rfl, hpath, events, hlog, hother⟩ := h
  have hcb : (s₀.timers t).callback = true := (Bool.and_eq_true .. ▸ hstart.1).2
  have hreached := hreach.step _ hstart trivial
  have harmed := armedFor_start rb cfg (sound_reach hreach) moves hcb
  generalize deadlineOf cfg (startNow rb cfg t { s₀ with moves }) (s₀.timers t).timeout =
    d at harmed ⊢
  -- the events since the start are those that the steps have noted
  have hall : ∃ events, s.log = events ++ (exec rb cfg (.start t moves) s₀).log ∧
      ((∀ e ∈ events, e.timer ≠ t) → ArmedFor d t s) := by
    clear hlog hother
    induction hpath with
    | refl => exact ⟨[], rfl, fun _ => harmed⟩
    | @step s' a hpath he _ ih =>
      obtain ⟨events', hlog', ih⟩ := ih
      have hsound := sound_reach (hreached.path hpath)
      have hnotes : (exec rb cfg a s').log = s'.log ∨ ∃ e, Noted s' (exec rb cfg a s') e :=
        hsound.noted he.1
      rcases hnotes with hsame | ⟨e, hnoted⟩
      · refine ⟨events', hsame.trans hlog', fun hev => (ih hev).exec hsound he.1 fun e hcons => ?_⟩
        exact absurd (hsame.symm.trans hcons) (by simp)
      · have hlog := hnoted.log
        refine ⟨e :: events', ?_, fun hev => ?_⟩
        · show (exec rb cfg a s').log = _
          rw [hlog, hlog']
          rfl
        · have hold := ih fun e' he' => hev e' (List.mem_cons_of_mem _ he')
          refine hold.exec hsound he.1 fun e' hcons => ?_
          rw [hlog] at hcons
          rw [← (List.cons.inj hcons).1]
          exact hev e List.mem_cons_self
  obtain ⟨events', hlog', harm⟩ := hall
  have hsame : events' = events := List.append_cancel_right (hlog'.symm.trans hlog)
  rw [hsame] at harm
  exact harm hother

/-! ## Calls -/

/-- The timer that is called is the leftmost one, and its deadline has come. -/
theorem Sound.called (hs : s.Sound) {a : TimerAction} (ha : s.allowed a = true) {e c : ℕ}
    (hcall : (TimerSet.exec rb cfg a s).log = .fired t e c :: s.log) :
    getLeftmostTimer s = some t ∧ (s.timers t).expireTime ≤ c := by
  have hne : (TimerSet.exec rb cfg a s).log ≠ s.log := by
    intro hsame
    exact absurd (hsame.symm.trans hcall) (by simp)
  have hnotes : (TimerSet.exec rb cfg a s).log = s.log ∨ ∃ e,
    Noted s (TimerSet.exec rb cfg a s) e := hs.noted ha
  rcases hnotes with hsame | ⟨e', hnoted⟩
  · exact absurd hsame hne
  obtain rfl : e' = .fired t e c := (List.cons.inj (hnoted.log.symm.trans hcall)).1
  obtain ⟨-, hexpire, hdue, -⟩ := hnoted.due t e c rfl
  refine ⟨?_, hexpire ▸ hdue⟩
  cases a with
  | turn moves =>
    rcases timerExpired_cases rb cfg { s with moves } with hquiet | ⟨l, hl, -, hturn⟩
    · exact absurd (log_of_offHw hquiet) hne
    · have hlog : (TimerSet.expireLeftmost rb l (hwCall { s with moves }).clock
        (hwCall { s with moves })).log =
          .fired t e c :: s.log := (congrArg TimerSet.log hturn).symm.trans hcall
      have hrearm := (rearm_log rb l (hwCall { s with moves })).trans
        (log_of_offHw (hwCall_offHw _))
      rw [expireLeftmost_eq] at hlog
      split at hlog
      · have hfired := (List.cons.inj hlog).1
        rw [TimerEvent.fired.injEq] at hfired
        rw [← hfired.1]
        exact hl
      · exact absurd (hrearm.symm.trans hlog) (by simp)
  | init u periodic timeout callback =>
    refine absurd ?_ hne
    show (ndTimerInit u periodic timeout callback s).log = s.log
    unfold ndTimerInit
    split
    · rfl
    · split <;> rfl
  | retime u timeout => exact absurd rfl hne
  | start u moves =>
    have hcb : (s.timers u).callback = true := (Bool.and_eq_true .. ▸ ha).2
    have hstart := (exec_start_log rb cfg hs.toTreeOk hcb moves).symm.trans hcall
    exact absurd (List.cons.inj hstart).1 (by simp)
  | stop u moves =>
    have hstop := (exec_stop_log rb cfg hs.toTreeOk u moves).symm.trans hcall
    exact absurd (List.cons.inj hstop).1 (by simp)
  | process => exact absurd rfl hne
  | callbackReturns => exact absurd rfl hne
  | advance n => exact absurd (log_of_offHw (moveClock_offHw n s)) hne

/-- No armed timer has an earlier deadline than the leftmost one. -/
theorem TreeOk.leftmost_le (hs : s.TreeOk) (hl : getLeftmostTimer s = some l)
    (hu : (s.timers u).linked = true) :
    (s.timers l).expireTime ≤ (s.timers u).expireTime := by
  have hmem := (hs.linked u).mp hu
  rw [leftmost_eq] at hl
  obtain ⟨rest, horder⟩ := List.head?_eq_some_iff.mp hl
  have hsorted := hs.sorted
  rw [horder] at hmem hsorted
  rcases List.mem_cons.mp hmem with rfl | hrest
  · exact Nat.le_refl _
  · exact (List.pairwise_cons.mp hsorted).1 u hrest

/-! ## Deadlines -/

/-- The half of the clock's range that the clock values are taken from. -/
def halfRange : ℕ := 2 ^ 63

/-- A deadline that the clock can come to is the sum. -/
theorem deadlineOf_of_le (hok : cfg.tickless = true ∨ now + T < u64Size) (hnow : now < halfRange)
    {c : ℕ} (hc : c < halfRange) (hdue : deadlineOf cfg now T ≤ c) :
    deadlineOf cfg now T = now + T ∧ (cfg.tickless = true → T < (u64Size - 1) / 2) := by
  unfold deadlineOf deadline at hdue ⊢
  unfold halfRange u64Size at *
  by_cases htick : cfg.tickless = true
  · rw [if_pos htick] at hdue ⊢
    have hshort : ¬ (2 ^ 64 - 1) / 2 ≤ T := by
      intro hlong
      rw [if_pos hlong] at hdue
      omega
    rw [if_neg hshort, Nat.mod_eq_of_lt (by omega)]
    exact ⟨Nat.add_comm T now, fun _ => Nat.not_le.mp hshort⟩
  · rw [if_neg htick, Nat.mod_eq_of_lt (hok.resolve_left htick)]
    exact ⟨rfl, fun h => absurd h htick⟩

/-- A shorter timeout has an earlier deadline. -/
theorem deadlineOf_lt (hok : cfg.tickless = true ∨ now + T < u64Size) (hnow : now < halfRange)
    {c T' : ℕ} (hc : c < halfRange) (hdue : deadlineOf cfg now T ≤ c) (hT' : T' < T) :
    deadlineOf cfg now T' < deadlineOf cfg now T := by
  obtain ⟨hsum, hshort⟩ := deadlineOf_of_le hok hnow hc hdue
  rw [hsum]
  rw [hsum] at hdue
  unfold deadlineOf deadline
  unfold halfRange u64Size at *
  split
  · rename_i htick
    have hT := hshort htick
    rw [if_neg (by omega), Nat.mod_eq_of_lt (by omega)]
    omega
  · rw [Nat.mod_eq_of_lt (by omega)]
    omega

/-- A timer that is started at clock `now` with timeout `T` is called neither before its time nor
before one that was started at the same clock value with a shorter timeout, as long as the clock is
in the lower half of its range. -/
def Punctual (rb : Balancing ℕ) (cfg : Config) (now T : ℕ) : Prop :=
  ∀ t s, Pending rb cfg now T t s → ∀ a, (timerMachine rb cfg).enabled s a → ∀ e c, c < halfRange →
    ((timerMachine rb cfg).next a s).log = .fired t e c :: s.log →
      now + T ≤ c ∧ ∀ u T', T' < T → ¬ Pending rb cfg now T' u s

/-- The state in which the timer is pending is reachable. -/
theorem Pending.reached (h : Pending rb cfg now T t s) :
    (timerMachine rb cfg).Reach Machine.Always s := by
  obtain ⟨s₀, moves, hreach, hstart, -, -, hpath, -⟩ := h
  exact (hreach.step _ hstart trivial).path hpath

/-- Where the deadline is the sum, or saturated, no timer is early. -/
theorem punctual_of_sum (rb : Balancing ℕ) (hok : cfg.tickless = true ∨ now + T < u64Size)
    (hnow : now < halfRange) :
    Punctual rb cfg now T := by
  intro t s hpending a ha e c hc hcall
  have hs := sound_reach hpending.reached
  have harmed := hpending.armedFor
  obtain ⟨hleft, hdue⟩ := hs.called ha.1 hcall
  rw [harmed.deadline] at hdue
  have hsum := (deadlineOf_of_le hok hnow hc hdue).1
  refine ⟨hsum ▸ hdue, fun u T' hT' hother => ?_⟩
  have harmed' := hother.armedFor
  have hle := hs.toTreeOk.leftmost_le hleft harmed'.linked
  have hlt := deadlineOf_lt hok hnow hc hdue hT'
  rw [harmed.deadline, harmed'.deadline] at hle
  omega

/-! ## A sum that wraps around -/

/-- One timer, with timeout `T`, at clock `now`. -/
def single (now T : ℕ) : TimerSet where
  timers := Function.update (fun _ => {}) 0 { timeout := T, callback := true }
  clock := now

/-- It has been started, and a pass begins. -/
def singleLoop (rb : Balancing ℕ) (cfg : Config) (now T : ℕ) : TimerSet :=
  exec rb cfg .process (exec rb cfg (.start 0 []) (single now T))

/-- One timer that is started alone is a reachable state. -/
theorem single_reach (rb : Balancing ℕ) (cfg : Config) (hclock : now < u64Size) (hT : 1 ≤ T) :
    (timerMachine rb cfg).Reach Machine.Always (single now T) := by
  have hinit : exec rb cfg (.init 0 false T true) { clock := now } = single now T := by
    show ndTimerInit 0 false T true { clock := now } = _
    unfold ndTimerInit
    rw [if_neg (by decide), if_neg (by omega)]
    rfl
  have henabled : (timerMachine rb cfg).enabled { clock := now } (.init 0 false T true) := by
    refine ⟨rfl, ?_⟩
    rw [hinit]
    exact hclock
  have hstart : (timerMachine rb cfg).Reach Machine.Always { clock := now } :=
    .start ⟨now, hclock, rfl⟩
  rw [← hinit]
  exact hstart.step _ henabled trivial

/-- The start links the timer in. -/
theorem exec_start_single (rb : Balancing ℕ) (htick : cfg.tickless = false) (now T : ℕ) :
    exec rb cfg (.start 0 []) (single now T) =
      (timerNodeInsert rb 0 ((single now T).updTimer 0 fun tm =>
        { tm with expireTime := (now + tm.timeout) % u64Size })).emit (.started 0) := by
  have hcb : ((single now T).timers 0).callback = true := rfl
  have hout : ((single now T).timers 0).linked = false := rfl
  show { ndTimerStart rb cfg 0 (single now T) with moves := [] } = _
  unfold ndTimerStart timerInsert
  simp only [htick, hcb, hout]
  rfl

/-- The one timer is pending when its pass begins. -/
theorem pending_single (rb : Balancing ℕ) (htick : cfg.tickless = false) (hclock : now < u64Size)
    (hT : 1 ≤ T) :
    Pending rb cfg now T 0 (singleLoop rb cfg now T) := by
  have hrun := exec_start_single rb htick now T
  have hstart : (timerMachine rb cfg).enabled (single now T) (.start 0 []) := by
    refine ⟨rfl, ?_⟩
    rw [hrun]
    exact hclock
  have hprocess : (timerMachine rb cfg).enabled (exec rb cfg (.start 0 []) (single now T))
      .process := by
    rw [hrun]
    exact ⟨rfl, hclock⟩
  exact ⟨single now T, [], single_reach rb cfg hclock hT, hstart, rfl, rfl,
    .single _ hprocess trivial, [], rfl, by simp⟩

/-- The one timer is the leftmost. -/
theorem leftmost_single (rb : Balancing ℕ) (htick : cfg.tickless = false) (hclock : now < u64Size)
    (hT : 1 ≤ T) :
    getLeftmostTimer (singleLoop rb cfg now T) = some 0 := by
  have hs := sound_reach (single_reach rb cfg hclock hT)
  have htree : ((single now T).updTimer 0 fun tm =>
      { tm with expireTime := (now + tm.timeout) % u64Size }).TreeOk := hs.toTreeOk.update rfl rfl
  have hinorder : (singleLoop rb cfg now T).tree.inorder = [0] := by
    unfold singleLoop
    rw [exec_start_single rb htick]
    exact inorder_nodeInsert htree 0
  rw [leftmost_eq, hinorder]
  rfl

/-- In the tick build the timer is called at once when the sum wraps around. -/
theorem called_at_once (rb : Balancing ℕ) (htick : cfg.tickless = false) (hnow : now < halfRange)
    (hT : 1 ≤ T) (hrange : T < u64Size) (hwrap : u64Size ≤ now + T) : ¬ Punctual rb cfg now T := by
  intro hpunctual
  have hclock : now < u64Size := by
    unfold halfRange at hnow
    unfold u64Size
    omega
  have hpending := pending_single rb htick hclock hT
  have hleft := leftmost_single rb htick hclock hT
  have hloop : singleLoop rb cfg now T = exec rb cfg .process
      ((timerNodeInsert rb 0 ((single now T).updTimer 0 fun tm =>
      { tm with expireTime := (now + tm.timeout) % u64Size })).emit (.started 0)) := by
    unfold singleLoop
    rw [exec_start_single rb htick]
  have hnow' : (singleLoop rb cfg now T).clock = now := by rw [hloop]; rfl
  have hmoves : (singleLoop rb cfg now T).moves = [] := by rw [hloop]; rfl
  have hphase : (singleLoop rb cfg now T).phase = .loop := rfl
  have hexpire : ((singleLoop rb cfg now T).timers 0).expireTime = now + T - u64Size := by
    have hkey : ((singleLoop rb cfg now T).timers 0).expireTime = (now + T) % u64Size := by
      rw [hloop]
      simp [exec, ndTimerProcess, timerNodeInsert, single]
    rw [hkey, Nat.mod_eq_sub_mod hwrap, Nat.mod_eq_of_lt (by omega)]
  have hcb : ((singleLoop rb cfg now T).timers 0).callback = true := hpending.armedFor.callback
  generalize singleLoop rb cfg now T = s at *
  have hturn : exec rb cfg (.turn []) s =
      { expireLeftmost rb 0 now (hwCall s) with moves := [] } := by
    have hsame : { s with moves := [] } = s := by rw [← hmoves]
    show { timerExpired rb cfg { s with moves := [] } with moves := [] } = _
    rw [hsame, turn_call rb cfg hmoves hleft hnow' (by omega)]
  have hcalled : ((hwCall s).timers 0).callback = true := by
    rw [timers_of_offHw (hwCall_offHw s)]
    exact hcb
  rw [expireLeftmost_eq, if_pos hcalled] at hturn
  have hstill : (rearm rb 0 (hwCall s)).clock = now := by
    have hcall : (hwCall s).clock = now := (hwCall_still hmoves).1.trans hnow'
    unfold rearm
    split <;> exact hcall
  have henabled : (timerMachine rb cfg).enabled s (.turn []) := by
    refine ⟨by rw [allowed, hphase]; rfl, ?_⟩
    rw [hturn]
    show (rearm rb 0 (hwCall s)).clock < u64Size
    rw [hstill]
    exact hclock
  have hlog : ((timerMachine rb cfg).next (.turn []) s).log =
      .fired 0 ((hwCall s).timers 0).expireTime now :: s.log := by
    show (exec rb cfg (.turn []) s).log = _
    rw [hturn]
    exact congrArg _ ((rearm_log rb 0 _).trans (log_of_offHw (hwCall_offHw s)))
  have hlate := (hpunctual 0 s hpending (.turn []) henabled _ now hnow hlog).1
  omega

/-- **No timer is early**, whatever the others do, exactly when the deadline saturates, as in the
tickless build, or the sum does not wrap around.
kernel/nd_timer.c:43-64, 97-137, 186-208 -/
theorem no_timer_early_iff (rb : Balancing ℕ) (cfg : Config) (now T : ℕ) (hnow : now < halfRange)
    (hT : 1 ≤ T) (hrange : T < u64Size) :
    Punctual rb cfg now T ↔ cfg.tickless = true ∨ now + T < u64Size := by
  constructor
  · intro hpunctual
    by_contra hneither
    rw [not_or, Bool.not_eq_true, Nat.not_lt] at hneither
    exact called_at_once rb hneither.1 hnow hT hrange hneither.2 hpunctual
  · intro hok
    exact punctual_of_sum rb hok hnow

/-- A delay of `ND_TIMEOUT_FOREVER` in the tickless build. -/
theorem no_timer_early_forever :
    Punctual SearchTree.unbalanced ticklessPort 1 (u64Size - 1) :=
  (no_timer_early_iff SearchTree.unbalanced ticklessPort 1 (u64Size - 1)
    (by decide) (by decide) (by decide)).mpr (.inl rfl)

/-- The same in the tick build at clock 1: the sum is 0. -/
theorem forever_called_at_once :
    ¬ Punctual SearchTree.unbalanced ⟨.sync, false, false⟩ 1 (u64Size - 1) :=
  called_at_once SearchTree.unbalanced rfl (by decide) (by decide) (by decide) (by decide)

end TimerSet

end NerdRtos
