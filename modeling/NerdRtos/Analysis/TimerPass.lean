import NerdRtos.Analysis.TimerOrder
import NerdRtos.Lib.AlarmQueue

/-!
# One pass of the timers

With a clock that stands still and callbacks that start and stop nothing, `timer_expired` works off
a queue of alarms: the in-order sequence of the tree. What the run of the queue gives is what the
pass does.
-/

set_option autoImplicit false

namespace NerdRtos

open AlarmQueue (Alarms Good stamped Earlier callsOf progression left)
open Intrusive (insertWhere)
open SearchTree (BinTree Balancing)

namespace TimerSet

variable {rb : Balancing ℕ} {cfg : Config} {s s₀ s' : TimerSet} {q q' : Alarms ℕ} {t l n : ℕ}

/-- The loop of `timer_expired`, for `n` turns and returns of callbacks, while the clock stands
still. -/
def passLoop (rb : Balancing ℕ) (cfg : Config) : ℕ → TimerSet → TimerSet
  | 0, s => s
  | n + 1, s =>
    match s.phase with
    | .idle => s
    | .loop => passLoop rb cfg n (s.exec rb cfg (.turn []))
    | .callback => passLoop rb cfg n (s.exec rb cfg .callbackReturns)

/-- The period of an armed timer. -/
def period (s : TimerSet) (t : ℕ) : Option ℕ :=
  if (s.timers t).linked && (s.timers t).periodic then some (s.timers t).timeout else none

/-- The armed timers as a queue of alarms. -/
def queue (s : TimerSet) : Alarms ℕ where
  order := s.tree.inorder
  due t := (s.timers t).expireTime

/-- What a call leaves in the history. -/
def callEvent (now : ℕ) (c : ℕ × ℕ) : TimerEvent := .fired c.1 c.2 now

/-- The timers are those of `s₀` when the calls of the queue `q` have been made. -/
structure Follows (s₀ s : TimerSet) (q : Alarms ℕ) : Prop where
  tree : s.TreeOk
  order : s.tree.inorder = q.order
  timers : ∀ t, s.timers t =
    { s₀.timers t with expireTime := q.due t, linked := decide (t ∈ q.order) }
  log : s.log = q.calls.map (callEvent s₀.clock) ++ s₀.log
  clock : s.clock = s₀.clock

/-- At the start nothing was called. -/
theorem Follows.start (hs : s.TreeOk) : Follows s s s.queue := by
  refine ⟨hs, rfl, fun t => ?_, rfl, rfl⟩
  have hlinked : (s.timers t).linked = decide (t ∈ s.tree.inorder) := by
    rw [Bool.eq_iff_iff, decide_eq_true_eq]
    exact hs.linked t
  have hsame : decide (t ∈ s.queue.order) = (s.timers t).linked := hlinked.symm
  rw [hsame]
  rfl

/-- The hardware and the phase do not matter. -/
theorem Follows.same (h : Follows s₀ s q) (htimers : s'.timers = s.timers)
    (htree : s'.tree = s.tree)
    (hlog : s'.log = s.log) (hclock : s'.clock = s.clock) : Follows s₀ s' q := by
  refine ⟨⟨?_, ?_, ?_⟩, ?_, ?_, ?_, ?_⟩
  · rw [htimers, htree]
    exact h.tree.linked
  · rw [htree]
    exact h.tree.once
  · rw [htimers, htree]
    exact h.tree.sorted
  · rw [htree]
    exact h.order
  · rw [htimers]
    exact h.timers
  · rw [hlog]
    exact h.log
  · rw [hclock]
    exact h.clock

/-! ## The hardware -/

/-- Setting the alarm takes no time when the clock stands still. -/
theorem setExpire_still (e : ℕ) (hmoves : s.moves = []) :
    (ndHwHrtimerSetExpire e s).clock = s.clock ∧ (ndHwHrtimerSetExpire e s).moves = [] := by
  unfold ndHwHrtimerSetExpire
  simp only
  split
  · exact hwCall_still hmoves
  · exact hwCall_still hmoves

/-- Arming the leftmost timer takes no time when the clock stands still. -/
theorem armLeftmost_still (l : ℕ) (hmoves : s.moves = []) : (armLeftmost l s).clock = s.clock := by
  have hset := setExpire_still (s.timers l).expireTime hmoves
  have hget := hwCall_still hset.2
  unfold armLeftmost
  simp only
  split
  · have htrigger := hwCall_still hget.2
    exact htrigger.1.trans (hget.1.trans hset.1)
  · exact hget.1.trans hset.1

/-- The last turn: there is no timer that is due, and only the hardware is programmed. -/
theorem turn_over (rb : Balancing ℕ) (cfg : Config) (hmoves : s.moves = [])
    (hover : ∀ l, getLeftmostTimer s = some l → s.clock < (s.timers l).expireTime) :
    (timerExpired rb cfg s).phase = .idle ∧ (timerExpired rb cfg s).timers = s.timers ∧
      (timerExpired rb cfg s).tree = s.tree ∧ (timerExpired rb cfg s).log = s.log ∧
      (timerExpired rb cfg s).clock = s.clock := by
  have hcall := hwCall_still hmoves
  have hcalloff := hwCall_offHw s
  unfold timerExpired
  split
  · split
    · have hoff := triggerClear_offHw s
      have htm : (ndHwHrtimerTriggerClear s).timers = s.timers := timers_of_offHw hoff
      have htree : (ndHwHrtimerTriggerClear s).tree = s.tree := tree_of_offHw hoff
      have hlog : (ndHwHrtimerTriggerClear s).log = s.log := log_of_offHw hoff
      exact ⟨rfl, htm, htree, hlog, hcall.1⟩
    · exact ⟨rfl, rfl, rfl, rfl, rfl⟩
  · rename_i l hl
    have htm : (hwCall s).timers = s.timers := timers_of_offHw hcalloff
    have hlt := hover l hl
    simp only [ndHwGetCurrent, htm, hcall.1]
    rw [if_pos hlt]
    split
    · have hoff := (armLeftmost_offHw l (hwCall s)).trans hcalloff
      have htm' : (armLeftmost l (hwCall s)).timers = s.timers := timers_of_offHw hoff
      have htree : (armLeftmost l (hwCall s)).tree = s.tree := tree_of_offHw hoff
      have hlog : (armLeftmost l (hwCall s)).log = s.log := log_of_offHw hoff
      exact ⟨rfl, htm', htree, hlog, (armLeftmost_still l hcall.2).trans hcall.1⟩
    · have htree : (hwCall s).tree = s.tree := tree_of_offHw hcalloff
      have hlog : (hwCall s).log = s.log := log_of_offHw hcalloff
      exact ⟨rfl, htm, htree, hlog, hcall.1⟩

/-! ## Calls -/

/-- What is asked of the armed timers: a callback, a period, and deadlines that do not come to the
end of the clock. -/
structure WellTimed (s : TimerSet) : Prop where
  callback : ∀ t, (s.timers t).linked = true → (s.timers t).callback = true
  timeout : ∀ t, (s.timers t).linked = true →
    1 ≤ (s.timers t).timeout ∧ s.clock + (s.timers t).timeout < u64Size

/-- What is left of the tree behind the leftmost timer. -/
theorem Follows.inorder_erase (rb : Balancing ℕ) (h : Follows s₀ s q) {rest : List ℕ}
    (horder : q.order = l :: rest) :
    (timerErase rb l s).tree.inorder = rest := by
  have htree : (timerErase rb l s).tree.inorder = s.tree.inorder.erase l :=
    rb.inorder_erase l _ h.tree.once
  rw [htree, h.order, horder, List.erase_cons_head]

/-- A timer that is called is taken out, or linked in again for its next deadline. -/
theorem Follows.rearm (rb : Balancing ℕ) (hs : s₀.WellTimed) (h : Follows s₀ s q) {rest : List ℕ}
    (horder : q.order = l :: rest)
    (hlinked : (s₀.timers l).linked = true) (hdue : q.due l ≤ s₀.clock) :
    (rearm rb l s).tree.inorder = (q.pop s₀.period l rest).order ∧
      ∀ t, (TimerSet.rearm rb l s).timers t =
        { s₀.timers t with
          expireTime := (q.pop s₀.period l rest).due t
          linked := decide (t ∈ (q.pop s₀.period l rest).order) } := by
  have hnodup := h.tree.once
  rw [h.order, horder] at hnodup
  obtain ⟨hl, -⟩ := List.nodup_cons.mp hnodup
  have hrest := h.inorder_erase rb horder
  have htl := h.timers l
  have hper : (s.timers l).periodic = (s₀.timers l).periodic := by rw [htl]
  -- another timer stays as it is
  have hother : ∀ t, t ≠ l → (TimerSet.rearm rb l s).timers t =
      { s₀.timers t with
        expireTime := (q.pop s₀.period l rest).due t
        linked := decide (t ∈ (q.pop s₀.period l rest).order) } := by
    intro t ht
    have hsame : (TimerSet.rearm rb l s).timers t = s.timers t := by
      unfold TimerSet.rearm
      split <;> simp [timerErase, timerNodeInsert, ht]
    have hmem : t ∈ (q.pop s₀.period l rest).order ↔ t ∈ q.order := by
      rw [AlarmQueue.mem_pop, horder, List.mem_cons]
      simp [ht]
    rw [hsame, AlarmQueue.pop_due_of_ne q ht, decide_eq_decide.mpr hmem]
    exact h.timers t
  cases hp : (s₀.timers l).periodic with
  | false =>
    have hperiod : s₀.period l = none := by
      unfold TimerSet.period
      rw [hlinked, hp]
      rfl
    have hrearm : TimerSet.rearm rb l s = timerErase rb l s := by
      unfold TimerSet.rearm
      rw [hper, hp]
      rfl
    have hpop : q.pop s₀.period l rest =
        { order := rest, due := q.due, calls := (l, q.due l) :: q.calls } := by
      unfold AlarmQueue.Alarms.pop
      rw [hperiod]
    refine ⟨by rw [hrearm, hrest, hpop], fun t => ?_⟩
    by_cases ht : t = l
    · rw [ht, hrearm, hpop]
      simp [timerErase, htl, hl]
    · exact hother t ht
  | true =>
    have hperiod : s₀.period l = some (s₀.timers l).timeout := by
      unfold TimerSet.period
      rw [hlinked, hp]
      rfl
    have hrearm : TimerSet.rearm rb l s = timerNodeInsert rb l
        ((timerErase rb l s).updTimer l fun tm =>
        { tm with expireTime := (tm.expireTime + tm.timeout) % u64Size }) := by
      unfold TimerSet.rearm
      rw [hper, hp]
      rfl
    have hsum : (q.due l + (s₀.timers l).timeout) % u64Size = q.due l + (s₀.timers l).timeout := by
      have hto := (hs.timeout l hlinked).2
      exact Nat.mod_eq_of_lt (by omega)
    have hpop : q.pop s₀.period l rest =
        { order := insertWhere (fun v =>
          Function.update q.due l (q.due l + (s₀.timers l).timeout) l <
            Function.update q.due l (q.due l + (s₀.timers l).timeout) v) l rest
          due := Function.update q.due l (q.due l + (s₀.timers l).timeout)
          calls := (l, q.due l) :: q.calls } := by
      unfold AlarmQueue.Alarms.pop
      rw [hperiod]
    have hkeys : ∀ v, (((timerErase rb l s).updTimer l fun tm =>
        { tm with expireTime := (tm.expireTime + tm.timeout) % u64Size }).timers v).expireTime =
        Function.update q.due l (q.due l + (s₀.timers l).timeout) v := by
      intro v
      by_cases hv : v = l
      · rw [hv, Function.update_self]
        simp [timerErase, htl, hsum]
      · rw [Function.update_of_ne hv]
        simp [timerErase, hv, h.timers v]
    have hout : ((timerErase rb l s).timers l).linked = false := by simp [timerErase]
    refine ⟨?_, fun t => ?_⟩
    · rw [hrearm, inorder_nodeInsert ((h.tree.erase l).update hout hout), hpop]
      simp only [hkeys]
      show insertWhere _ l (timerErase rb l s).tree.inorder = _
      rw [hrest]
    · by_cases ht : t = l
      · rw [ht, hrearm, hpop]
        simp [timerErase, timerNodeInsert, htl, hsum]
      · exact hother t ht

/-- A turn that calls a timer is a call of the queue.
kernel/nd_timer.c:117-125 -/
theorem Follows.expireLeftmost (rb : Balancing ℕ) (hs : s₀.WellTimed) (h : Follows s₀ s q)
    {rest : List ℕ}
    (horder : q.order = l :: rest) (hlinked : (s₀.timers l).linked = true)
      (hdue : q.due l ≤ s₀.clock) :
    (expireLeftmost rb l s₀.clock s).phase = .callback ∧
      Follows s₀ (TimerSet.expireLeftmost rb l s₀.clock s) (q.pop s₀.period l rest) := by
  obtain ⟨hinorder, htimers⟩ := h.rearm rb hs horder hlinked hdue
  have hcb : (s.timers l).callback = true := by
    rw [h.timers l]
    exact hs.callback l hlinked
  have htree := h.tree.rearm rb l
  have hexp : (s.timers l).expireTime = q.due l := by rw [h.timers l]
  have hclock : (TimerSet.rearm rb l s).clock = s.clock := by
    unfold TimerSet.rearm
    split <;> rfl
  rw [expireLeftmost_eq, if_pos hcb]
  refine ⟨rfl, ⟨htree.linked, htree.once, htree.sorted⟩, hinorder, htimers, ?_,
    hclock.trans h.clock⟩
  show TimerEvent.fired l (s.timers l).expireTime s₀.clock :: (TimerSet.rearm rb l s).log = _
  rw [rearm_log, h.log, hexp, AlarmQueue.pop_calls]
  rfl

/-! ## The loop -/

/-- A pass that is over stays over. -/
theorem passLoop_idle (hidle : s.phase = .idle) (n : ℕ) : passLoop rb cfg n s = s := by
  cases n with
  | zero => rfl
  | succ n =>
    unfold passLoop
    rw [hidle]

/-- The periods of armed timers are not zero. -/
theorem WellTimed.period_pos (hs : s.WellTimed) : ∀ t p, s.period t = some p → 0 < p := by
  intro t p hp
  unfold TimerSet.period at hp
  split at hp
  · rename_i hl
    rw [Bool.and_eq_true] at hl
    rw [← Option.some.inj hp]
    exact (hs.timeout t hl.1).1
  · cases hp

/-- A turn of the loop when no call is left. -/
theorem Follows.turn_over (rb : Balancing ℕ) (cfg : Config) (h : Follows s₀ s q) {ins : List ℕ}
    (hgood : Good s₀.period s₀.clock ins s₀.queue q) (hover : q.fire s₀.period s₀.clock = none) :
    (s.exec rb cfg (.turn [])).phase = .idle ∧ Follows s₀ (s.exec rb cfg (.turn [])) q := by
  have hlate := hgood.over hover
  have hturn := TimerSet.turn_over rb cfg (s := { s with moves := [] }) rfl fun l hl => by
    have hl' : getLeftmostTimer s = some l := hl
    rw [leftmost_eq, h.order] at hl'
    show s.clock < (s.timers l).expireTime
    rw [h.clock, h.timers l]
    exact hlate l (List.mem_of_mem_head? hl')
  obtain ⟨hphase, htimers, htree, hlog, hclock⟩ := hturn
  exact ⟨hphase, h.same htimers htree hlog hclock⟩

/-- A turn of the loop when one is left. -/
theorem Follows.turn_call (rb : Balancing ℕ) (cfg : Config) (hs : s₀.WellTimed) (hs₀ : s₀.TreeOk)
    (h : Follows s₀ s q) {ins : List ℕ}
    (hgood : Good s₀.period s₀.clock ins s₀.queue q) (hfire : q.fire s₀.period s₀.clock = some q') :
    (s.exec rb cfg (.turn [])).phase = .callback ∧ Follows s₀ (s.exec rb cfg (.turn [])) q' := by
  obtain ⟨l, rest, horder, hdue, rfl⟩ := AlarmQueue.fire_cases hfire
  have hmem : l ∈ q.order := by
    rw [horder]
    exact List.mem_cons_self
  have hlinked : (s₀.timers l).linked = true := by
    rw [hs₀.linked]
    by_contra hout
    exact ((hgood.fate l).outside hout).1 hmem
  have hleft : getLeftmostTimer { s with moves := [] } = some l := by
    show getLeftmostTimer s = some l
    rw [leftmost_eq, h.order, horder]
    rfl
  have hexpire : ({ s with moves := [] }.timers l).expireTime ≤ s₀.clock := by
    show (s.timers l).expireTime ≤ s₀.clock
    rw [h.timers l]
    exact hdue
  have hoff := hwCall_offHw { s with moves := [] }
  have hsame : Follows s₀ (hwCall { s with moves := [] }) q :=
    h.same (timers_of_offHw hoff) (tree_of_offHw hoff) (log_of_offHw hoff) (hwCall_still rfl).1
  have hcall := TimerSet.turn_call rb cfg (s := { s with moves := [] }) rfl hleft h.clock hexpire
  obtain ⟨hphase, hfollows⟩ := hsame.expireLeftmost rb hs horder hlinked hdue
  rw [← hcall] at hphase hfollows
  exact ⟨hphase, hfollows.same rfl rfl rfl rfl⟩

/-- The last turn of the loop. -/
theorem Follows.passLoop_over (rb : Balancing ℕ) (cfg : Config) (h : Follows s₀ s q) {ins : List ℕ}
    (hgood : Good s₀.period s₀.clock ins s₀.queue q) (hphase : s.phase = .loop)
    (hover : q.fire s₀.period s₀.clock = none) (m : ℕ) :
    (passLoop rb cfg (m + 1) s).phase = .idle ∧ Follows s₀ (passLoop rb cfg (m + 1) s) q := by
  obtain ⟨hidle, hnext⟩ := h.turn_over rb cfg hgood hover
  unfold passLoop
  rw [hphase]
  simp only
  rw [passLoop_idle hidle]
  exact ⟨hidle, hnext⟩

/-- The loop makes the calls of the queue and ends.
kernel/nd_timer.c:97-137 -/
theorem passLoop_follows (rb : Balancing ℕ) (cfg : Config) (hs : s₀.WellTimed) (hs₀ : s₀.TreeOk)
    {ins : List ℕ} (n : ℕ) :
    ∀ {s : TimerSet} {q : Alarms ℕ} {m : ℕ}, Follows s₀ s q →
      Good s₀.period s₀.clock ins s₀.queue q → s.phase = .loop → left s₀.period s₀.clock q ≤ n →
      2 * n + 1 ≤ m →
      (passLoop rb cfg m s).phase = .idle ∧
        Follows s₀ (passLoop rb cfg m s) (q.run s₀.period s₀.clock n) := by
  induction n with
  | zero =>
    intro s q m h hgood hphase hleft hm
    obtain ⟨m, rfl⟩ : ∃ i, m = i + 1 := ⟨m - 1, by omega⟩
    obtain ⟨-, hover⟩ := hgood.run hs.period_pos 0 hleft
    exact h.passLoop_over rb cfg hgood hphase hover m
  | succ n ih =>
    intro s q m h hgood hphase hleft hm
    obtain ⟨m, rfl⟩ : ∃ i, m = i + 2 := ⟨m - 2, by omega⟩
    unfold Alarms.run
    cases hfire : q.fire s₀.period s₀.clock with
    | none => exact h.passLoop_over rb cfg hgood hphase hfire (m + 1)
    | some q' =>
      obtain ⟨hcallback, hnext⟩ := h.turn_call rb cfg hs hs₀ hgood hfire
      obtain ⟨l, rest, horder, hdue, rfl⟩ := AlarmQueue.fire_cases hfire
      have hless := AlarmQueue.left_fire hs.period_pos hgood.nodup horder hdue
      have hback : passLoop rb cfg (m + 2) s =
          passLoop rb cfg m ((s.exec rb cfg (.turn [])).exec rb cfg .callbackReturns) := by
        conv_lhs => unfold passLoop
        rw [hphase]
        simp only
        conv_lhs => unfold passLoop
        rw [hcallback]
      rw [hback]
      exact ih (hnext.same rfl rfl rfl rfl) (hgood.pop hs.period_pos horder hdue)
        rfl (by omega) (by omega)

/-! ## The order of the insertions -/

/-- `ins` has the armed timers in the order of their insertions: the tree is in the order of the
deadlines, and in that one where they are the same. -/
structure Inserted (ins : List ℕ) (s : TimerSet) : Prop where
  mem : ∀ t ∈ s.tree.inorder, t ∈ ins
  sorted : s.tree.inorder.Pairwise fun x y =>
    Earlier ((s.timers x).expireTime, ins.idxOf x) ((s.timers y).expireTime, ins.idxOf y)

/-- The order in a list that loses an element. -/
theorem idxOf_filter_lt {x y : ℕ} (hx : x ≠ t) (hy : y ≠ t) :
    ∀ ins : List ℕ, ins.idxOf x < ins.idxOf y →
      (ins.filter (· ≠ t)).idxOf x < (ins.filter (· ≠ t)).idxOf y := by
  intro ins
  induction ins with
  | nil => exact fun h => h
  | cons a ins ih =>
    intro h
    rw [List.idxOf_cons, List.idxOf_cons] at h
    by_cases hat : a = t
    · have hax : (a == x) = false := by simpa [hat] using Ne.symm hx
      have hay : (a == y) = false := by simpa [hat] using Ne.symm hy
      rw [hax, hay] at h
      rw [List.filter_cons_of_neg (by simpa using hat)]
      exact ih (Nat.lt_of_succ_lt_succ h)
    · rw [List.filter_cons_of_pos (by simpa using hat), List.idxOf_cons, List.idxOf_cons]
      by_cases hax : (a == x) = true
      · rw [hax] at h ⊢
        by_cases hay : (a == y) = true
        · rw [hay] at h
          exact absurd h (lt_irrefl 0)
        · rw [Bool.not_eq_true] at hay
          rw [hay]
          exact Nat.succ_pos _
      · rw [Bool.not_eq_true] at hax
        rw [hax] at h ⊢
        by_cases hay : (a == y) = true
        · rw [hay] at h
          exact absurd h (Nat.not_lt_zero _)
        · rw [Bool.not_eq_true] at hay
          rw [hay] at h ⊢
          exact Nat.succ_lt_succ (ih (Nat.lt_of_succ_lt_succ h))

/-- A timer that is not in the tree moves to the end. -/
theorem Inserted.last {ins : List ℕ} (hmem : t ∉ s.tree.inorder) (h : Inserted ins s) :
    Inserted (ins.filter (· ≠ t) ++ [t]) s := by
  have hne : ∀ x ∈ s.tree.inorder, x ≠ t := fun x hx heq => hmem (heq ▸ hx)
  have hfilter : ∀ x ∈ s.tree.inorder, x ∈ ins.filter (· ≠ t) := by
    intro x hx
    rw [List.mem_filter]
    exact ⟨h.mem x hx, by simpa using hne x hx⟩
  have hold : ∀ x ∈ s.tree.inorder,
      (ins.filter (· ≠ t) ++ [t]).idxOf x = (ins.filter (· ≠ t)).idxOf x :=
    fun x hx => List.idxOf_append_of_mem (hfilter x hx)
  refine ⟨fun x hx => List.mem_append_left _ (hfilter x hx), ?_⟩
  refine h.sorted.imp_of_mem fun {x y} hx hy hxy => ?_
  rw [hold x hx, hold y hy]
  exact hxy.imp_right fun hsame => ⟨hsame.1, idxOf_filter_lt (hne x hx) (hne y hy) ins hsame.2⟩

/-- `timer_node_insert` links its timer in behind the timers with its deadline, so it must be the
last one.
kernel/nd_timer.c:26-41 -/
theorem Inserted.nodeInsert {ins : List ℕ} (rb : Balancing ℕ) (hs : s.TreeOk)
    (hout : (s.timers t).linked = false)
    (h : Inserted ins s) : Inserted (ins.filter (· ≠ t) ++ [t]) (timerNodeInsert rb t s) := by
  have hmem := hs.not_mem hout
  have hlast := h.last hmem
  have hidx : (ins.filter (· ≠ t) ++ [t]).idxOf t = (ins.filter (· ≠ t)).length := by
    rw [List.idxOf_append_of_notMem (by simp)]
    simp
  refine ⟨fun x hx => ?_, ?_⟩
  · rw [inorder_nodeInsert hs, Intrusive.mem_insertWhere] at hx
    rcases hx with rfl | hx
    · exact List.mem_append_right _ (List.mem_singleton.mpr rfl)
    · exact hlast.mem x hx
  · rw [inorder_nodeInsert hs]
    simp only [timerNodeInsert_key]
    refine Intrusive.pairwise_insertWhere _ _ _ _ hlast.sorted ?_ ?_ fun x _ y _ => Earlier.trans
    · intro x hx hpass
      rw [decide_eq_false_iff_not] at hpass
      have hxin : x ∈ ins.filter (· ≠ t) := by
        rw [List.mem_filter]
        exact ⟨h.mem x hx, by simpa using fun heq : x = t => hmem (heq ▸ hx)⟩
      have hlt := List.idxOf_lt_length_of_mem hxin
      rw [hidx, List.idxOf_append_of_mem hxin]
      unfold Earlier
      simp only
      omega
    · intro x _ hstop
      rw [decide_eq_true_eq] at hstop
      exact .inl hstop

/-- Taking a timer out keeps the order of the others. -/
theorem Inserted.erase {ins : List ℕ} (rb : Balancing ℕ) (hs : s.TreeOk) (h : Inserted ins s)
    (t : ℕ) :
    Inserted ins (timerErase rb t s) := by
  have htree : (timerErase rb t s).tree.inorder = s.tree.inorder.erase t :=
    rb.inorder_erase t _ hs.once
  refine ⟨fun x hx => ?_, ?_⟩
  · rw [htree] at hx
    exact h.mem x (List.mem_of_mem_erase hx)
  · rw [htree]
    simp only [timerErase_key]
    exact h.sorted.sublist List.erase_sublist

/-- The timers in the order in which they were linked in last, from the history of the calls. A
periodic timer is linked in again when it is called. -/
def insertions : List TimerEvent → List ℕ
  | [] => []
  | .started t :: log | .fired t _ _ :: log => (insertions log).filter (· ≠ t) ++ [t]
  | .stopped _ :: log => insertions log

/-- The armed timers have callbacks and are in the order of the history. -/
structure Ordered (s : TimerSet) : Prop where
  callback : ∀ t, (s.timers t).linked = true → (s.timers t).callback = true
  inserted : Inserted (insertions s.log) s

/-- The order depends on the tree and its keys. -/
theorem Inserted.of_keys {ins : List ℕ} (h : Inserted ins s) (htree : s'.tree = s.tree)
    (hkey : ∀ u ∈ s.tree.inorder, (s'.timers u).expireTime = (s.timers u).expireTime) :
      Inserted ins s' := by
  refine ⟨htree ▸ h.mem, ?_⟩
  rw [htree]
  refine h.sorted.imp_of_mem fun {x y} hx hy hxy => ?_
  rw [hkey x hx, hkey y hy]
  exact hxy

/-- The order depends on the timers, the tree and the history. -/
theorem Ordered.same (hs : s.Ordered) (htimers : s'.timers = s.timers) (htree : s'.tree = s.tree)
    (hlog : insertions s'.log = insertions s.log) : s'.Ordered := by
  refine ⟨?_, ?_⟩
  · rw [htimers]
    exact hs.callback
  · rw [hlog]
    exact hs.inserted.of_keys htree fun u _ => by rw [htimers]

/-- The hardware has no part in the order. -/
theorem Ordered.of_offHw (h : s'.offHw = s.offHw) (hs : s.Ordered) : s'.Ordered :=
  hs.same (timers_of_offHw h) (tree_of_offHw h) (by rw [log_of_offHw h])

/-- A control block is written: the callback stays, and the deadline while the node is in the
tree. -/
theorem Ordered.update (hs : s.Ordered) {f : TimerCtl → TimerCtl}
    (hcb : (f (s.timers t)).linked = true → (f (s.timers t)).callback = true)
    (hkey : t ∈ s.tree.inorder → (f (s.timers t)).expireTime = (s.timers t).expireTime) :
    (s.updTimer t f).Ordered := by
  refine ⟨fun u hu => ?_, hs.inserted.of_keys rfl fun u hu => ?_⟩
  · by_cases hut : u = t
    · subst hut
      simp only [updTimer_timers, Function.update_self] at hu ⊢
      exact hcb hu
    · simp only [updTimer_timers, Function.update_of_ne hut] at hu ⊢
      exact hs.callback u hu
  · by_cases hut : u = t
    · subst hut
      simpa using hkey hu
    · simp [hut]

/-- `rb_erase` keeps the order of the others. -/
theorem Ordered.erase (hs : s.Ordered) (rb : Balancing ℕ) (htree : s.TreeOk) (t : ℕ) :
    (timerErase rb t s).Ordered := by
  refine ⟨fun u hu => ?_, hs.inserted.erase rb htree t⟩
  by_cases hut : u = t
  · simp [timerErase, hut] at hu
  · simp only [timerErase, updTimer_timers, Function.update_of_ne hut] at hu ⊢
    exact hs.callback u hu

/-- Taking a timer out keeps the order of the others. -/
theorem Ordered.unlink (hs : s.Ordered) (rb : Balancing ℕ) (htree : s.TreeOk) (t : ℕ) :
    (unlink rb t s).Ordered := by
  unfold TimerSet.unlink
  split
  · exact hs.erase rb htree t
  · exact hs

/-- A timer with a callback is linked in, and the history says so. -/
theorem Ordered.link (hs : s.Ordered) (rb : Balancing ℕ) (htree : s.TreeOk)
    (hout : (s.timers t).linked = false) (hcb : (s.timers t).callback = true) {e : TimerEvent}
    (he : insertions (e :: s.log) = (insertions s.log).filter (· ≠ t) ++ [t]) :
    ((timerNodeInsert rb t s).emit e).Ordered := by
  have hins := hs.inserted.nodeInsert rb htree hout
  refine ⟨fun u hu => ?_, ?_⟩
  · by_cases hut : u = t
    · simp [timerNodeInsert, hut, hcb]
    · simp only [timerNodeInsert, emit_timers, updTimer_timers, Function.update_of_ne hut] at hu ⊢
      exact hs.callback u hu
  · show Inserted (insertions (e :: s.log)) _
    rw [he]
    exact hins.of_keys rfl fun _ _ => rfl

/-- A started timer is the last one that was linked in. -/
theorem Ordered.start (hs : s.Ordered) (rb : Balancing ℕ) (htree : s.TreeOk)
    (hcb : (s.timers t).callback = true) (e : ℕ) :
    ((timerNodeInsert rb t ((TimerSet.unlink rb t s).updTimer t fun tm =>
      { tm with expireTime := e })).emit
      (.started t)).Ordered := by
  have hout := unlink_linked rb t s
  have hcb' : ((TimerSet.unlink rb t s).timers t).callback = true := by
    unfold TimerSet.unlink
    split
    · simpa [timerErase] using hcb
    · exact hcb
  have hfree := htree.unlink rb t
  have hmem := hfree.not_mem hout
  refine Ordered.link ((hs.unlink rb htree t).update (fun _ => hcb') fun hm => absurd hm hmem) rb
    (hfree.update hout hout) ?_ ?_ rfl
  · simpa using hout
  · simpa using hcb'

/-- A timer that is called is the last one that was linked in, or out of the tree. -/
theorem Ordered.rearm (hs : s.Ordered) (rb : Balancing ℕ) (htree : s.TreeOk)
    (hcb : (s.timers l).callback = true) (e now : ℕ) :
    ((TimerSet.rearm rb l s).emit (.fired l e now)).Ordered := by
  have hout : ((timerErase rb l s).timers l).linked = false := by simp [timerErase]
  have hfree : (timerErase rb l s).TreeOk := htree.erase l
  have herase := hs.erase rb htree l
  have hmem := hfree.not_mem hout
  unfold TimerSet.rearm
  split
  · refine Ordered.link (herase.update (fun h => ?_) fun hm => absurd hm hmem) rb
      (hfree.update hout hout) ?_ ?_ rfl
    · rw [hout] at h
      cases h
    · simpa using hout
    · simpa [timerErase] using hcb
  · exact ⟨herase.callback, (herase.inserted.last hmem).of_keys rfl fun _ _ => rfl⟩

/-- A turn of `timer_expired` keeps the order: a periodic timer comes last again. -/
theorem Ordered.timerExpired (hs : s.Ordered) (rb : Balancing ℕ) (cfg : Config) (htree : s.TreeOk) :
    (timerExpired rb cfg s).Ordered := by
  rcases timerExpired_cases rb cfg s with h | ⟨l, hl, -, h⟩
  · exact Ordered.of_offHw h (hs.same rfl rfl rfl)
  · have hoff := hwCall_offHw s
    have hcb : ((hwCall s).timers l).callback = true := by
      rw [timers_of_offHw hoff]
      exact hs.callback l (htree.leftmost_linked hl)
    rw [h, expireLeftmost_eq, if_pos hcb]
    have hr := (hs.of_offHw hoff).rearm rb (htree.of_offHw hoff) hcb
      ((hwCall s).timers l).expireTime (hwCall s).clock
    exact hr.same rfl rfl rfl

/-- Every action keeps the order. -/
theorem Ordered.exec (hs : s.Ordered) (htree : s.TreeOk) {a : TimerAction}
    (ha : s.allowed a = true) :
    (exec rb cfg a s).Ordered := by
  have hmoves : ∀ moves, { s with moves }.Ordered := fun _ => hs.same rfl rfl rfl
  have htrees : ∀ moves, { s with moves }.TreeOk := fun _ =>
    ⟨htree.linked, htree.once, htree.sorted⟩
  cases a with
  | init t periodic timeout callback =>
    show (ndTimerInit t periodic timeout callback s).Ordered
    unfold ndTimerInit
    split
    · exact hs
    · split
      · exact hs
      · exact hs.update (fun h => by cases h) fun _ => rfl
  | retime t timeout =>
    show (s.updTimer t fun tm => { tm with timeout }).Ordered
    exact hs.update (hs.callback t) fun _ => rfl
  | start t moves =>
    have hcb : (s.timers t).callback = true := (Bool.and_eq_true .. ▸ ha).2
    have hoff := ndTimerStart_offHw rb cfg (htrees moves) hcb
    exact Ordered.of_offHw (during_offHw moves _ s)
      (Ordered.of_offHw hoff ((hmoves moves).start rb (htrees moves) hcb _))
  | stop t moves =>
    have hstop : (ndTimerStop rb cfg t { s with moves }).offHw =
        ((TimerSet.unlink rb t { s with moves }).emit (.stopped t)).offHw :=
      congrArg (fun x : TimerSet => x.emit (.stopped t)) (timerRemove_offHw rb cfg (htrees moves) t)
    have hu := (hmoves moves).unlink rb (htrees moves) t
    exact Ordered.of_offHw (during_offHw moves _ s) (Ordered.of_offHw hstop (hu.same rfl rfl rfl))
  | process => exact hs.same rfl rfl rfl
  | turn moves =>
    exact Ordered.of_offHw (during_offHw moves _ s)
      ((hmoves moves).timerExpired rb cfg (htrees moves))
  | callbackReturns => exact hs.same rfl rfl rfl
  | advance n => exact hs.of_offHw (moveClock_offHw n s)

/-- In every run the timers with one deadline are in the tree in the order in which they were linked
in. -/
theorem ordered_reach (hs : (timerMachine rb cfg).Reach Machine.Always s) : s.Ordered := by
  refine hs.induction (I := Ordered) ?_ ?_
  · rintro s ⟨n, -, rfl⟩
    exact ⟨fun t ht => (by cases ht), ⟨fun t ht => (by cases ht), .nil⟩⟩
  · intro s a hr ih he _
    exact ih.exec (sound_reach hr).toTreeOk he.1

/-! ## The pass -/

/-- What a pass has made of timer `t`. -/
structure Served (s s' : TimerSet) (calls : List (ℕ × ℕ)) (t : ℕ) : Prop where
  unarmed : (s.timers t).linked = false → s'.timers t = s.timers t ∧ callsOf t calls = []
  early : (s.timers t).linked = true → s.clock < (s.timers t).expireTime →
    s'.timers t = s.timers t ∧ callsOf t calls = []
  oneShot : (s.timers t).linked = true → (s.timers t).expireTime ≤ s.clock →
    (s.timers t).periodic = false →
    s'.timers t = { s.timers t with linked := false } ∧ callsOf t calls = [(s.timers t).expireTime]
  periodic : (s.timers t).linked = true → (s.timers t).expireTime ≤ s.clock →
    (s.timers t).periodic = true →
    let n := (s.clock - (s.timers t).expireTime) / (s.timers t).timeout + 1
    let next := (s.timers t).expireTime + n * (s.timers t).timeout
    s'.timers t = { s.timers t with expireTime := next } ∧ s.clock < next ∧
      callsOf t calls = progression (s.timers t).expireTime (s.timers t).timeout n

/-- What the queue of alarms has been through is what the pass has made of each timer. -/
theorem Follows.served (hs₀ : s₀.TreeOk) (h : Follows s₀ s q) {ins : List ℕ}
    (hgood : Good s₀.period s₀.clock ins s₀.queue q) (hover : q.fire s₀.period s₀.clock = none)
      (t : ℕ) :
    Served s₀ s q.calls t := by
  have hran := hgood.ran hover t
  have htm := h.timers t
  have hlinked := hs₀.linked t
  refine ⟨fun hno => ?_, fun hyes hearly => ?_, fun hyes hdue hone => ?_, fun hyes hdue hper => ?_⟩
  · have hout : t ∉ s₀.queue.order := fun hm => by
      rw [hlinked.mpr hm] at hno
      cases hno
    obtain ⟨hnot, hsame, hnone⟩ := hran.outside hout
    refine ⟨?_, hnone⟩
    rw [htm, hsame, decide_eq_false hnot, ← hno]
    rfl
  · obtain ⟨hin, hsame, hnone⟩ := hran.early (hlinked.mp hyes) hearly
    refine ⟨?_, hnone⟩
    rw [htm, hsame, decide_eq_true hin, ← hyes]
    rfl
  · have hperiod : s₀.period t = none := by
      unfold TimerSet.period
      rw [hyes, hone]
      rfl
    obtain ⟨hnot, hsame, hcalls⟩ := hran.once (hlinked.mp hyes) hdue hperiod
    refine ⟨?_, hcalls⟩
    rw [htm, hsame, decide_eq_false hnot]
    rfl
  · have hperiod : s₀.period t = some (s₀.timers t).timeout := by
      unfold TimerSet.period
      rw [hyes, hper]
      rfl
    obtain ⟨hin, hnext, hlate, hcalls⟩ := hran.periodic (hlinked.mp hyes) hdue _ hperiod
    rw [hnext] at hlate
    refine ⟨?_, hlate, hcalls⟩
    rw [htm, hnext, decide_eq_true hin, ← hyes]
    rfl

/-- A pass with enough turns for the calls that are due is exact. -/
theorem passLoop_exact (rb : Balancing ℕ) (cfg : Config) (hs : s.TreeOk) (hw : s.WellTimed)
    {ins : List ℕ} (hins : Inserted ins s) {n : ℕ}
    (hn : 2 * left s.period s.clock s.queue + 1 ≤ n) :
    (passLoop rb cfg n (ndTimerProcess s)).phase = .idle ∧
      ∃ calls : List (ℕ × ℕ),
        (passLoop rb cfg n (ndTimerProcess s)).log = calls.map (callEvent s.clock) ++ s.log ∧
        (∀ t, Served s (passLoop rb cfg n (ndTimerProcess s)) calls t) ∧
        (stamped ins calls).Pairwise fun a b => Earlier b a := by
  have hgood : Good s.period s.clock ins s.queue s.queue :=
    Good.start hs.once hins.mem hins.sorted rfl
  have hstart : Follows s (ndTimerProcess s) s.queue := (Follows.start hs).same rfl rfl rfl rfl
  obtain ⟨hidle, hfollows⟩ := passLoop_follows rb cfg hw hs _ hstart hgood rfl le_rfl hn
  obtain ⟨hend, hover⟩ := hgood.run hw.period_pos _ le_rfl
  exact ⟨hidle, _, hfollows.log, hfollows.served hs hend hover, hend.calls⟩

/-- **A pass of the timers calls exactly what is due**: it ends, each timer is called for all its
deadlines up to the clock and for no other, and the calls come in the order of the deadlines and,
where they are the same, of the insertions.
kernel/nd_timer.c:97-147 -/
theorem timer_pass_exact (rb : Balancing ℕ) (cfg : Config) (s : TimerSet) (hs : s.TreeOk)
    (hw : s.WellTimed) (ins : List ℕ) (hins : Inserted ins s) :
    ∃ N, ∀ n ≥ N, (passLoop rb cfg n (ndTimerProcess s)).phase = .idle ∧
      ∃ calls : List (ℕ × ℕ),
        (passLoop rb cfg n (ndTimerProcess s)).log = calls.map (callEvent s.clock) ++ s.log ∧
        (∀ t, Served s (passLoop rb cfg n (ndTimerProcess s)) calls t) ∧
        (stamped ins calls).Pairwise fun a b => Earlier b a := by
  refine ⟨2 * left s.period s.clock s.queue + 1, fun n hn => ?_⟩
  exact passLoop_exact rb cfg hs hw hins hn

/-- A periodic and a one-shot timer with one deadline, the periodic one inserted first. -/
def duePair : TimerSet where
  timers t :=
    if t = 1 then
      { periodic := true, timeout := 2, callback := true, linked := true, expireTime := 5 }
    else if t = 2 then { timeout := 5, callback := true, linked := true, expireTime := 5 }
    else {}
  tree := .node .leaf 1 (.node .leaf 2 .leaf)
  clock := 8

/-- At 8 the periodic one is called for 5, the other one for 5, and the periodic one for 7. -/
theorem timer_pass_exact_pair :
    duePair.TreeOk ∧ duePair.WellTimed ∧ Inserted [1, 2] duePair ∧
      ∃ N, ∀ n ≥ N, (passLoop SearchTree.unbalanced ⟨.sync, false, false⟩ n
        (ndTimerProcess duePair)).phase = .idle ∧ ∃ calls : List (ℕ × ℕ),
          (passLoop SearchTree.unbalanced ⟨.sync, false, false⟩ n (ndTimerProcess duePair)).log =
            calls.map (callEvent duePair.clock) ++ duePair.log ∧
          (∀ t, Served duePair (passLoop SearchTree.unbalanced ⟨.sync, false, false⟩ n
            (ndTimerProcess duePair)) calls t) ∧
          (stamped [1, 2] calls).Pairwise fun a b => Earlier b a := by
  have htree : duePair.TreeOk := by
    refine ⟨fun t => ?_, by decide, by decide⟩
    by_cases h1 : t = 1
    · simp [duePair, h1, BinTree.inorder]
    · by_cases h2 : t = 2
      · simp [duePair, h2, BinTree.inorder]
      · simp [duePair, h1, h2, BinTree.inorder]
  have hwell : duePair.WellTimed := by
    constructor <;> intro t ht <;> have hin := (htree.linked t).mp ht <;>
      simp only [duePair, BinTree.inorder, List.nil_append, List.mem_cons, List.not_mem_nil,
        or_false] at hin <;>
      rcases hin with rfl | rfl <;> decide
  have hins : Inserted [1, 2] duePair := by
    refine ⟨fun t ht => ht, ?_⟩
    simp [duePair, BinTree.inorder, Earlier]
  exact ⟨htree, hwell, hins, timer_pass_exact SearchTree.unbalanced
    ⟨.sync, false, false⟩ duePair htree hwell
    [1, 2] hins⟩

/-- The calls of that pass. -/
example : (passLoop SearchTree.unbalanced ⟨.sync, false, false⟩ 7 (ndTimerProcess duePair)).log =
    [.fired 1 7 8, .fired 2 5 8, .fired 1 5 8] := by
  decide +kernel

/-- In every run the passes go by the history: where no period comes to the end of the clock, a pass
from any state reached is exact, and equal deadlines are called in the order of the insertions. -/
theorem pass_exact_reach (hs : (timerMachine rb cfg).Reach Machine.Always s)
    (htimeout : ∀ t, (s.timers t).linked = true →
      1 ≤ (s.timers t).timeout ∧ s.clock + (s.timers t).timeout < u64Size) :
    ∃ N, ∀ n ≥ N, (passLoop rb cfg n (ndTimerProcess s)).phase = .idle ∧
      ∃ calls : List (ℕ × ℕ),
        (passLoop rb cfg n (ndTimerProcess s)).log = calls.map (callEvent s.clock) ++ s.log ∧
        (∀ t, Served s (passLoop rb cfg n (ndTimerProcess s)) calls t) ∧
        (stamped (insertions s.log) calls).Pairwise fun a b => Earlier b a := by
  have hordered := ordered_reach hs
  refine ⟨2 * left s.period s.clock s.queue + 1, fun n hn => ?_⟩
  exact passLoop_exact rb cfg (sound_reach hs).toTreeOk ⟨hordered.callback, htimeout⟩
    hordered.inserted hn

end TimerSet

end NerdRtos
