import NerdRtos.Analysis.TimerOrder

/-!
# The alarm of the tickless build

After every operation but one the alarm is armed for the leftmost deadline, or the interrupt is
pending: `timer_remove` and `timer_expired` read the clock again after they have programmed the
hardware. `timer_insert` compares with the time that it has read before. A deadline that passes in
between is neither armed nor noticed.
-/

set_option autoImplicit false

namespace NerdRtos

open Intrusive (insertWhere)
open SearchTree (BinTree Balancing)

namespace TimerSet

variable {rb : Balancing ℕ} {cfg : Config} {s : TimerSet} {t l e : ℕ}

/-- The alarm is armed for `e`, or the interrupt is pending. -/
def Covers (s : TimerSet) (e : ℕ) : Prop := s.alarm = some e ∨ s.pending = true

/-- The leftmost deadline is covered. -/
def AlarmOk (s : TimerSet) : Prop :=
  ∀ l, getLeftmostTimer s = some l → s.Covers (s.timers l).expireTime

/-- When no operation is under way the leftmost deadline is covered. -/
def Kept (s : TimerSet) : Prop := s.phase = .idle → s.AlarmOk

/-- An alarm is armed for the future. -/
def Ahead (s : TimerSet) : Prop := ∀ e, s.alarm = some e → s.clock < e

/-! ## The hardware -/

/-- The clock goes on. -/
theorem moveClock_clock (n : ℕ) (s : TimerSet) : (moveClock n s).clock = s.clock + n := by
  unfold moveClock
  split <;> rfl

/-- A clock that goes on leaves no alarm behind it: it fires. -/
theorem ahead_moveClock (n : ℕ) (s : TimerSet) : (moveClock n s).Ahead := by
  unfold moveClock
  split
  · intro e he
    cases he
  · rename_i hany
    intro e he
    have he' : s.alarm = some e := he
    rw [he', Option.any_some] at hany
    exact Nat.lt_of_not_le (by simpa using hany)

/-- A deadline that is covered stays so when the clock goes on. -/
theorem Covers.moveClock (hs : s.Covers e) (n : ℕ) : (moveClock n s).Covers e := by
  unfold TimerSet.moveClock
  split
  · exact .inr rfl
  · exact hs

/-- A call of the hardware leaves no alarm behind the clock. -/
theorem ahead_hwCall (s : TimerSet) : (hwCall s).Ahead := ahead_moveClock _ _

/-- A deadline that is covered stays so in a call of the hardware. -/
theorem Covers.hwCall (hs : s.Covers e) : (hwCall s).Covers e :=
  Covers.moveClock (s := { s with moves := s.moves.tail }) hs _

/-- The clock does not go back. -/
theorem hwCall_clock_le (s : TimerSet) : s.clock ≤ (hwCall s).clock := by
  unfold TimerSet.hwCall
  rw [moveClock_clock]
  exact Nat.le_add_right _ _

/-- A pending interrupt covers every deadline. -/
theorem covers_trigger (s : TimerSet) (e : ℕ) : (ndHwHrtimerTrigger s).Covers e := .inr rfl

/-- The second reading of the clock leaves no gap. -/
theorem armLeftmost_covers (l : ℕ) (s : TimerSet) :
    (armLeftmost l s).Covers (s.timers l).expireTime := by
  unfold armLeftmost
  have htm : (ndHwHrtimerSetExpire (s.timers l).expireTime s).timers = s.timers :=
    timers_of_offHw (setExpire_offHw _ s)
  have htm' : (ndHwGetCurrent (ndHwHrtimerSetExpire (s.timers l).expireTime s)).2.timers =
      s.timers :=
    (timers_of_offHw (getCurrent_offHw _)).trans htm
  simp only [htm']
  split
  · exact covers_trigger _ _
  · rename_i hlt
    refine Covers.hwCall ?_
    unfold ndHwHrtimerSetExpire at hlt ⊢
    simp only at hlt ⊢
    split
    · exact .inl rfl
    · rename_i hlate
      rw [if_neg hlate] at hlt
      have hle : (hwCall s).clock ≤ (ndHwGetCurrent (hwCall s)).1 := hwCall_clock_le (hwCall s)
      omega

/-! ## The operations -/

/-- The hardware may be asked for an interrupt besides. -/
theorem covers_ite_trigger (c : Prop) [Decidable c] (hs : s.Covers e) :
    (if c then ndHwHrtimerTrigger s else s).Covers e := by
  split
  · exact covers_trigger _ _
  · exact hs

/-- The leftmost timer stays when another one is taken out. -/
theorem leftmost_erase (htree : s.TreeOk) (rb : Balancing ℕ) (hl : getLeftmostTimer s = some l)
    (hne : l ≠ t) : getLeftmostTimer (timerErase rb t s) = some l := by
  rw [leftmost_eq] at hl ⊢
  have htree' : (timerErase rb t s).tree.inorder = s.tree.inorder.erase t :=
    rb.inorder_erase t _ htree.once
  obtain ⟨xs, hxs⟩ := List.head?_eq_some_iff.mp hl
  rw [htree', hxs, List.erase_cons_tail (by simpa using hne)]
  rfl

/-- `timer_remove` keeps the leftmost deadline covered. -/
theorem AlarmOk.remove (hs : s.AlarmOk) (htree : s.TreeOk) (rb : Balancing ℕ)
    (htick : cfg.tickless = true) (t : ℕ) : (timerRemove rb cfg t s).AlarmOk := by
  have hoff := timerRemove_offHw rb cfg htree t
  have htm := timers_of_offHw hoff
  have htr := tree_of_offHw hoff
  intro l hl
  have hl' : getLeftmostTimer (unlink rb t s) = some l := by
    unfold getLeftmostTimer at hl ⊢
    rw [← htr]
    exact hl
  rw [htm]
  by_cases hlinked : (s.timers t).linked = true
  · have hun : unlink rb t s = timerErase rb t s := if_pos hlinked
    rw [hun] at hl' ⊢
    unfold timerRemove
    rw [if_neg (by simp [hlinked]), if_pos htick]
    by_cases hfirst : getLeftmostTimer s = some t
    · rw [if_pos hfirst]
      simp only [hl']
      exact armLeftmost_covers l _
    · rw [if_neg hfirst]
      split
      · rename_i hnone
        have hmem := (htree.linked t).mp hlinked
        rw [leftmost_eq, List.head?_eq_none_iff] at hnone
        simp [hnone] at hmem
      · rename_i l₀ hl₀
        have hne : l₀ ≠ t := fun h => hfirst (h ▸ hl₀)
        have hsame : l₀ = l := by
          rw [leftmost_erase htree rb hl₀ hne] at hl'
          exact Option.some.inj hl'
        subst hsame
        have hkey : ((timerErase rb t s).timers l₀).expireTime = (s.timers l₀).expireTime := by
          simp [timerErase, hne]
        rw [hkey]
        refine covers_ite_trigger _ (Covers.hwCall ?_)
        exact hs l₀ hl₀
  · have hun : unlink rb t s = s := if_neg hlinked
    rw [hun] at hl' ⊢
    unfold timerRemove
    rw [if_pos (by simpa using hlinked)]
    exact hs l hl'

/-! ## Insertion -/

/-- A call of the hardware takes as long as the moves say. -/
theorem hwCall_clock (s : TimerSet) : (hwCall s).clock = s.clock + s.moves.headI := by
  unfold hwCall
  rw [moveClock_clock]

/-- What is pending behind a call was so before, or is an alarm that came due in it. -/
theorem hwCall_pending (s : TimerSet) :
    (hwCall s).pending = (s.pending || s.alarm.any fun e => e ≤ s.clock + s.moves.headI) := by
  unfold hwCall moveClock
  split
  · rename_i h
    simp [h]
  · rename_i h
    simp [h]

/-- The clock passes the deadline of `t` after `timer_insert` has read it and before the hardware is
programmed, while every armed timer is due later and no interrupt comes up. -/
def Late (t : ℕ) (s : TimerSet) : Prop :=
  (∀ v ∈ s.tree.inorder, deadline (s.timers t).timeout (hwCall s).clock < (s.timers v).expireTime) ∧
    (hwCall s).clock < deadline (s.timers t).timeout (hwCall s).clock ∧
      deadline (s.timers t).timeout (hwCall s).clock ≤ (hwCall (hwCall s)).clock ∧
        (hwCall (hwCall s)).pending = false

instance (t : ℕ) (s : TimerSet) : Decidable (Late t s) := inferInstanceAs (Decidable (_ ∧ _))

/-- The first element behind an insertion is the new one or the old first one. -/
theorem head_insertWhere (p : ℕ → Bool) (n : ℕ) (xs : List ℕ) :
    (insertWhere p n xs).head? = if xs.head?.all p then some n else xs.head? := by
  cases xs with
  | nil => rfl
  | cons x xs =>
    rw [insertWhere, List.head?_cons, Option.all_some]
    split <;> rfl

/-- The state in which `timer_insert` has linked `t` in. -/
def linkedIn (rb : Balancing ℕ) (t : ℕ) (s : TimerSet) : TimerSet :=
  timerNodeInsert rb t ((hwCall s).updTimer t fun tm =>
    { tm with expireTime := deadline tm.timeout (hwCall s).clock })

/-- The new timer gets the deadline from the first reading of the clock, and the others keep
theirs. -/
theorem linkedIn_expireTime (rb : Balancing ℕ) (t : ℕ) (s : TimerSet) (u : ℕ) :
    ((linkedIn rb t s).timers u).expireTime =
      if u = t then deadline (s.timers t).timeout (hwCall s).clock
        else (s.timers u).expireTime := by
  have htm : (hwCall s).timers = s.timers := timers_of_offHw (hwCall_offHw s)
  by_cases hu : u = t
  · subst hu
    simp [linkedIn, timerNodeInsert, htm]
  · simp [linkedIn, timerNodeInsert, htm, hu]

/-- The leftmost timer after an insertion. -/
theorem linkedIn_leftmost (htree : s.TreeOk) (rb : Balancing ℕ)
    (hout : (s.timers t).linked = false) :
    getLeftmostTimer (linkedIn rb t s) =
      if ∀ v ∈ s.tree.inorder, deadline (s.timers t).timeout (hwCall s).clock <
        (s.timers v).expireTime
      then some t else getLeftmostTimer s := by
  have hoff := hwCall_offHw s
  have htm : (hwCall s).timers = s.timers := timers_of_offHw hoff
  have htr : (hwCall s).tree = s.tree := tree_of_offHw hoff
  have hmem := htree.not_mem hout
  have hbase : ((hwCall s).updTimer t fun tm =>
      { tm with expireTime := deadline tm.timeout (hwCall s).clock }).TreeOk :=
    (htree.of_offHw hoff).update (by rw [htm]; exact hout) (by rw [htm]; exact hout)
  rw [leftmost_eq, leftmost_eq, linkedIn, inorder_nodeInsert hbase, head_insertWhere]
  simp only [updTimer_tree, htr, updTimer_timers, Function.update_self, htm]
  refine if_congr ?_ rfl rfl
  cases hxs : s.tree.inorder with
  | nil => simp
  | cons x xs =>
    have hsorted := htree.sorted
    rw [hxs] at hmem hsorted
    have hx : x ≠ t := fun h => hmem (by simp [h])
    simp only [List.head?_cons, Option.all_some, decide_eq_true_eq, Function.update_of_ne hx]
    refine ⟨fun hlt v hv => ?_, fun hall => hall x (by simp)⟩
    rcases List.mem_cons.mp hv with rfl | hv
    · exact hlt
    · exact Nat.lt_of_lt_of_le hlt ((List.pairwise_cons.mp hsorted).1 v hv)

/-- `timer_insert` of the tickless build: the node goes in, and the alarm is set when it is the
leftmost. -/
theorem timerInsert_eq (rb : Balancing ℕ) (htick : cfg.tickless = true) (t : ℕ) (s : TimerSet) :
    timerInsert rb cfg t s =
      match getLeftmostTimer (linkedIn rb t s) with
      | none => linkedIn rb t s
      | some l =>
        let s' := if l = t then
            ndHwHrtimerSetExpire ((linkedIn rb t s).timers l).expireTime (linkedIn rb t s)
          else linkedIn rb t s
        if (s'.timers l).expireTime ≤ (hwCall s).clock then ndHwHrtimerTrigger s' else s' := by
  unfold timerInsert
  rw [if_pos htick]
  rfl

/-- The alarm depends on the leftmost timer alone. -/
theorem alarmOk_of_leftmost {s' : TimerSet} (h : s'.offHw = s.offHw)
    (hl : getLeftmostTimer s = some l) :
    s'.AlarmOk ↔ s'.Covers (s.timers l).expireTime := by
  unfold AlarmOk getLeftmostTimer
  rw [tree_of_offHw h, timers_of_offHw h]
  unfold getLeftmostTimer at hl
  refine ⟨fun hok => hok l hl, fun hc l' hl' => ?_⟩
  rw [hl, Option.some.injEq] at hl'
  exact hl' ▸ hc

/-- The new timer is the leftmost one. -/
theorem covers_setExpire_iff (rb : Balancing ℕ) (t e : ℕ) (s : TimerSet) :
    (ndHwHrtimerSetExpire e (linkedIn rb t s)).Covers e ↔
      ¬ (e ≤ (hwCall (hwCall s)).clock ∧ (hwCall (hwCall s)).pending = false) := by
  have hclock : (hwCall (linkedIn rb t s)).clock = (hwCall (hwCall s)).clock := by
    rw [hwCall_clock, hwCall_clock (hwCall s)]
    rfl
  have hpending : (hwCall (linkedIn rb t s)).pending = (hwCall (hwCall s)).pending := by
    rw [hwCall_pending, hwCall_pending (hwCall s)]
    rfl
  unfold ndHwHrtimerSetExpire
  simp only
  rw [← hclock, ← hpending]
  split
  · rename_i hlt
    exact iff_of_true (.inl rfl) fun h => absurd h.1 (Nat.not_le.mpr hlt)
  · rename_i hlate
    have hle : e ≤ (hwCall (linkedIn rb t s)).clock := Nat.not_lt.mp hlate
    refine ⟨fun hc h => ?_, fun hno => ?_⟩
    · rcases hc with halarm | hp
      · exact hlate (ahead_hwCall _ e halarm)
      · rw [h.2] at hp
        cases hp
    · right
      by_contra hp
      exact hno ⟨hle, by simpa using hp⟩

/-- `timer_insert` leaves the leftmost deadline covered unless it is late. -/
theorem alarmOk_insert_iff (htree : s.TreeOk) (hok : s.AlarmOk) (rb : Balancing ℕ)
    (htick : cfg.tickless = true) (hout : (s.timers t).linked = false) :
    (timerInsert rb cfg t s).AlarmOk ↔ ¬ Late t s := by
  have hleft := linkedIn_leftmost htree rb hout
  have htm : (hwCall s).timers = s.timers := timers_of_offHw (hwCall_offHw s)
  by_cases hall : ∀ v ∈ s.tree.inorder,
      deadline (s.timers t).timeout (hwCall s).clock < (s.timers v).expireTime
  · rw [if_pos hall] at hleft
    have hkey := linkedIn_expireTime rb t s t
    rw [if_pos rfl] at hkey
    have hset := setExpire_offHw (deadline (s.timers t).timeout (hwCall s).clock) (linkedIn rb t s)
    have hinsert : timerInsert rb cfg t s =
        if deadline (s.timers t).timeout (hwCall s).clock ≤ (hwCall s).clock then
          ndHwHrtimerTrigger (ndHwHrtimerSetExpire (deadline (s.timers t).timeout (hwCall s).clock)
            (linkedIn rb t s))
        else ndHwHrtimerSetExpire (deadline (s.timers t).timeout (hwCall s).clock)
            (linkedIn rb t s) := by
      rw [timerInsert_eq rb htick, hleft]
      simp only [if_true, hkey, timers_of_offHw hset]
    rw [hinsert]
    by_cases hpast : deadline (s.timers t).timeout (hwCall s).clock ≤ (hwCall s).clock
    · rw [if_pos hpast, alarmOk_of_leftmost ((trigger_offHw _).trans hset) hleft]
      exact iff_of_true (covers_trigger _ _) fun hlate => absurd hlate.2.1 (Nat.not_lt.mpr hpast)
    · rw [if_neg hpast, alarmOk_of_leftmost hset hleft, hkey, covers_setExpire_iff]
      refine not_congr ⟨fun h => ⟨hall, Nat.not_le.mp hpast, h⟩, fun h => h.2.2⟩
  · rw [if_neg hall] at hleft
    refine iff_of_true ?_ fun hlate => hall hlate.1
    cases hl : getLeftmostTimer s with
    | none =>
      -- the leftmost deadline of an empty tree is later than any
      rw [leftmost_eq, List.head?_eq_none_iff] at hl
      exact absurd (by simp [hl]) hall
    | some l =>
      rw [hl] at hleft
      have hne : l ≠ t := fun h => by
        have hlinked := htree.leftmost_linked hl
        rw [h, hout] at hlinked
        cases hlinked
      have hkey := linkedIn_expireTime rb t s l
      rw [if_neg hne] at hkey
      rw [timerInsert_eq rb htick, hleft]
      simp only [if_neg hne]
      have hcov : (linkedIn rb t s).Covers (s.timers l).expireTime := Covers.hwCall (hok l hl)
      have hoff : (if ((linkedIn rb t s).timers l).expireTime ≤ (hwCall s).clock then
          ndHwHrtimerTrigger (linkedIn rb t s) else linkedIn rb t s).offHw =
              (linkedIn rb t s).offHw := by
        split
        · exact trigger_offHw _
        · rfl
      rw [alarmOk_of_leftmost hoff hleft, hkey]
      exact covers_ite_trigger _ hcov

/-! ## Every run -/

/-- A timer that is started outside of a callback is not late. -/
def StartsInTime (rb : Balancing ℕ) (cfg : Config) (s : TimerSet) (a : TimerAction) : Prop :=
  ∀ t moves, a = .start t moves → s.phase = .idle →
    ¬ Late t (beforeInsert rb cfg t { s with moves })

/-- A start keeps the alarm exactly when the new deadline is still ahead where the alarm is set for
it. -/
theorem Kept.start_iff (hkept : s.Kept) (hs : s.Sound) (rb : Balancing ℕ)
    (htick : cfg.tickless = true) (hcb : (s.timers t).callback = true) (moves : List ℕ) :
    (TimerSet.exec rb cfg (.start t moves) s).Kept ↔ StartsInTime rb cfg s (.start t moves) := by
  have htree : TreeOk { s with moves } := ⟨hs.linked, hs.once, hs.sorted⟩
  have hoff := ndTimerStart_offHw rb cfg htree hcb
  have hphase : (TimerSet.exec rb cfg (.start t moves) s).phase = s.phase := by
    have hstart := congrArg TimerSet.phase hoff
    have hunlink : (unlink rb t { s with moves }).phase = s.phase := by
      unfold unlink
      split <;> rfl
    exact hstart.trans hunlink
  by_cases hidle : s.phase = .idle
  · have hbase : (beforeInsert rb cfg t { s with moves }).TreeOk ∧
        (beforeInsert rb cfg t { s with moves }).AlarmOk ∧
        ((beforeInsert rb cfg t { s with moves }).timers t).linked = false := by
      unfold beforeInsert
      split
      · have hoff := timerRemove_offHw rb cfg htree t
        have hok : AlarmOk { s with moves } := hkept hidle
        refine ⟨(htree.unlink rb t).of_offHw hoff, hok.remove htree rb htick t, ?_⟩
        rw [timers_of_offHw hoff]
        exact unlink_linked rb t _
      · rename_i hout
        exact ⟨htree, hkept hidle, by simpa using hout⟩
    have hexec : (TimerSet.exec rb cfg (.start t moves) s).Kept ↔
        (timerInsert rb cfg t (beforeInsert rb cfg t { s with moves })).AlarmOk := by
      have hstart : ndTimerStart rb cfg t { s with moves } =
          (timerInsert rb cfg t (beforeInsert rb cfg t { s with moves })).emit (.started t) := by
        unfold ndTimerStart beforeInsert
        rw [if_neg (by simp [hcb])]
        simp only [if_pos htick]
      have hok : (TimerSet.exec rb cfg (.start t moves) s).Kept ↔
          ((timerInsert rb cfg t (beforeInsert rb cfg t { s with moves })).emit
              (.started t)).AlarmOk := by
        rw [← hstart]
        exact ⟨fun h => h (hphase.trans hidle), fun h _ => h⟩
      exact hok
    rw [hexec, alarmOk_insert_iff hbase.1 hbase.2.1 rb htick hbase.2.2]
    refine ⟨fun hin t' moves' heq _ => ?_, fun h => h t moves rfl hidle⟩
    cases heq
    exact hin
  · refine iff_of_true (fun h => absurd (hphase.symm.trans h) hidle) ?_
    exact fun _ _ _ h => absurd h hidle

/-- An action that starts no timer is in time. -/
theorem startsInTime_of_ne {a : TimerAction} (h : ∀ t moves, a ≠ .start t moves) :
    StartsInTime rb cfg s a :=
  fun t moves heq => absurd heq (h t moves)

/-- The turn that ends the loop covers the leftmost deadline. -/
theorem kept_timerExpired (hphase : s.phase = .loop) (rb : Balancing ℕ)
    (htick : cfg.tickless = true) :
    (timerExpired rb cfg s).Kept := by
  have htm : (hwCall s).timers = s.timers := timers_of_offHw (hwCall_offHw s)
  unfold timerExpired
  cases hl : getLeftmostTimer s with
  | none =>
    intro _ l hl'
    have hoff := triggerClear_offHw s
    have hnone : getLeftmostTimer (ndHwHrtimerTriggerClear s) = none := by
      unfold getLeftmostTimer at hl ⊢
      rw [tree_of_offHw hoff, hl]
    simp only [if_pos htick] at hl'
    cases hnone.symm.trans hl'
  | some l =>
    show Kept (if (hwCall s).clock < ((hwCall s).timers l).expireTime then _ else _)
    by_cases hlt : (hwCall s).clock < ((hwCall s).timers l).expireTime
    · rw [if_pos hlt, if_pos htick]
      have hoff := (armLeftmost_offHw l (hwCall s)).trans (hwCall_offHw s)
      intro _
      have hok : (armLeftmost l (hwCall s)).AlarmOk := by
        rw [alarmOk_of_leftmost hoff hl, ← htm]
        exact armLeftmost_covers l (hwCall s)
      exact hok
    · rw [if_neg hlt]
      have hloop : (hwCall s).phase = .loop :=
        (congrArg TimerSet.phase (hwCall_offHw s)).trans hphase
      have hrearm : (rearm rb l (hwCall s)).phase = .loop := by
        unfold rearm
        split <;> exact hloop
      rw [expireLeftmost_eq]
      split
      · intro h
        cases h
      · intro h
        rw [hrearm] at h
        cases h

/-- An action keeps the alarm exactly when it is no late start. -/
theorem Kept.exec_iff (hkept : s.Kept) (hs : s.Sound) (rb : Balancing ℕ)
    (htick : cfg.tickless = true) {a : TimerAction} (ha : s.allowed a = true) :
    (TimerSet.exec rb cfg a s).Kept ↔ StartsInTime rb cfg s a := by
  have htree : ∀ moves, TreeOk { s with moves } := fun _ => ⟨hs.linked, hs.once, hs.sorted⟩
  -- the keys of the armed timers stay
  have hupd : ∀ t f, (∀ tm : TimerCtl, (f tm).expireTime = tm.expireTime) →
      (s.updTimer t f).Kept := by
    intro t f hf hidle l hl
    have hkey : ((s.updTimer t f).timers l).expireTime = (s.timers l).expireTime := by
      by_cases hlt : l = t
      · subst hlt
        simp [hf]
      · simp [hlt]
    rw [hkey]
    exact hkept hidle l hl
  cases a with
  | init t periodic timeout callback =>
    refine iff_of_true ?_ (startsInTime_of_ne (by simp))
    show (ndTimerInit t periodic timeout callback s).Kept
    unfold ndTimerInit
    split
    · exact hkept
    · split
      · exact hkept
      · exact hupd t _ fun _ => rfl
  | retime t timeout => exact iff_of_true (hupd t _ fun _ => rfl) (startsInTime_of_ne (by simp))
  | start t moves => exact hkept.start_iff hs rb htick (Bool.and_eq_true .. ▸ ha).2 moves
  | stop t moves =>
    refine iff_of_true (fun hidle => ?_) (startsInTime_of_ne (by simp))
    have hphase : (TimerSet.exec rb cfg (.stop t moves) s).phase = s.phase := by
      have hremove := congrArg TimerSet.phase (timerRemove_offHw rb cfg (htree moves) t)
      have hunlink : (unlink rb t { s with moves }).phase = s.phase := by
        unfold unlink
        split <;> rfl
      exact hremove.trans hunlink
    have hok : AlarmOk { s with moves } := hkept (hphase.symm.trans hidle)
    have hremove : (timerRemove rb cfg t { s with moves }).AlarmOk :=
      hok.remove (htree moves) rb htick t
    exact hremove
  | process =>
    refine iff_of_true (fun h => ?_) (startsInTime_of_ne (by simp))
    cases h
  | turn moves =>
    have hloop : s.phase = .loop := of_decide_eq_true ha
    refine iff_of_true ?_ (startsInTime_of_ne (by simp))
    have hturn : (timerExpired rb cfg { s with moves }).Kept :=
      kept_timerExpired (show TimerSet.phase { s with moves } = .loop from hloop) rb htick
    exact hturn
  | callbackReturns =>
    refine iff_of_true (fun h => ?_) (startsInTime_of_ne (by simp))
    cases h
  | advance n =>
    refine iff_of_true (fun hidle l hl => ?_) (startsInTime_of_ne (by simp))
    have hoff := moveClock_offHw n s
    have hidle' : s.phase = .idle := (congrArg TimerSet.phase hoff).symm.trans hidle
    have hl' : getLeftmostTimer s = some l := by
      unfold getLeftmostTimer
      rw [← tree_of_offHw hoff]
      exact hl
    show (moveClock n s).Covers ((moveClock n s).timers l).expireTime
    rw [timers_of_offHw hoff]
    exact (hkept hidle' l hl').moveClock n

/-- **The alarm of the tickless build.** When an operation has returned the alarm is armed for the
leftmost deadline or the interrupt is pending, exactly as long as no start is late.
kernel/nd_timer.c:43-137 -/
theorem alarm_covers_leftmost_iff (rb : Balancing ℕ) (cfg : Config) (htick : cfg.tickless = true)
    (s : TimerSet) (hs : (timerMachine rb cfg).Reach (StartsInTime rb cfg) s) :
    s.Kept ∧ ∀ a, (timerMachine rb cfg).enabled s a →
      (((timerMachine rb cfg).next a s).Kept ↔ StartsInTime rb cfg s a) := by
  have hkept : s.Kept := by
    refine hs.induction (I := Kept) ?_ ?_
    · rintro s ⟨n, -, rfl⟩ _ l hl
      cases hl
    · intro s a hr ih he hc
      exact (ih.exec_iff (sound_reach hr.always) rb htick he.1).mpr hc
  exact ⟨hkept, fun _ he => hkept.exec_iff (sound_reach hs.always) rb htick he.1⟩

/-- A second timer is started with an earlier deadline, and the first one expires. -/
def inTime : List TimerAction :=
  [.init 0 false 9 true, .init 1 false 5 true, .start 0 [], .start 1 [1, 3], .advance 3, .process,
    .turn [], .callbackReturns, .turn [0, 1]]

/-- The check of one action. -/
def startsInTime (s : TimerSet) : TimerAction → Bool
  | .start t moves => s.phase = .idle →
      ¬ Late t (beforeInsert SearchTree.unbalanced ticklessPort t { s with moves })
  | _ => true

/-- What the check accepts is no late start. -/
theorem startsInTime_of_check (s : TimerSet) (a : TimerAction) (h : startsInTime s a = true) :
    StartsInTime SearchTree.unbalanced ticklessPort s a := by
  intro t moves heq hidle
  subst heq
  exact of_decide_eq_true h hidle

/-- The alarm is set for the second timer, and later again for the first. -/
theorem alarm_covers_leftmost_run :
    ∃ s, s.alarm = some 9 ∧ s.clock = 8 ∧ s.Kept ∧
      ∀ a, (timerMachine SearchTree.unbalanced ticklessPort).enabled s a →
      (((timerMachine SearchTree.unbalanced ticklessPort).next a s).Kept ↔
        StartsInTime SearchTree.unbalanced ticklessPort s a) := by
  obtain ⟨s, hs, hp⟩ := (timerMachine SearchTree.unbalanced ticklessPort).exists_run (l := inTime)
    (s := {}) (p := fun s => s.alarm = some 9 ∧ s.clock = 8) (by decide +kernel)
  obtain ⟨halarm, hclock⟩ := of_decide_eq_true hp
  refine ⟨s, halarm, hclock, alarm_covers_leftmost_iff SearchTree.unbalanced ticklessPort rfl s ?_⟩
  exact Machine.reach_of_checked _ startsInTime_of_check
    (.start ⟨0, by decide, rfl⟩) hs (by decide +kernel)

/-- The clock moves by 10 after a timer of 5 was started at 0: nothing is armed. -/
theorem start_misses_deadline :
    ¬ ∀ (rb : Balancing ℕ) (cfg : Config), cfg.tickless = true →
      ∀ s, (timerMachine rb cfg).Reach Machine.Always s → s.Kept := by
  intro hrule
  obtain ⟨s, hs, hp⟩ := (timerMachine SearchTree.unbalanced ticklessPort).exists_run
    (l := [.init 0 false 5 true, .start 0 [0, 10]]) (s := {})
    (p := fun s => s.phase = .idle ∧ getLeftmostTimer s = some 0 ∧ s.alarm = none ∧
      s.pending = false)
    (by decide +kernel)
  obtain ⟨hidle, hl, halarm, hpending⟩ := of_decide_eq_true hp
  have hreach := Machine.reach_of_run (timerMachine SearchTree.unbalanced ticklessPort)
    (C := Machine.Always)
    (fun _ _ _ => trivial) (.start ⟨0, by decide, rfl⟩) hs
  rcases hrule SearchTree.unbalanced ticklessPort rfl s hreach hidle 0 hl with h | h
  · rw [halarm] at h
    cases h
  · rw [hpending] at h
    cases h

end TimerSet

end NerdRtos
