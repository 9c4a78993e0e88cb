import NerdRtos.Model.TimerSet

/-!
# The tree of the timers

The key of a node changes only while it is out of the tree, so the tree stays sorted under any calls
of `nd_timer_start`, `nd_timer_stop` and `nd_timer_process`, with callbacks that start and stop
timers between two turns of the loop. `offHw` leaves the hardware out: none of its calls touches the
timers.
-/

set_option autoImplicit false

namespace NerdRtos

open Intrusive (insertWhere mem_insertWhere nodup_insertWhere pairwise_insertWhere)
open SearchTree (BinTree Balancing)

namespace TimerSet

variable {rb : Balancing ℕ} {cfg : Config} {s s' : TimerSet} {t u l : ℕ}

/-- The last call for `t` has started it. -/
def lastStarted (t : ℕ) : List TimerEvent → Bool
  | [] => false
  | .started u :: log => u = t || lastStarted t log
  | .stopped u :: log => u ≠ t && lastStarted t log
  | .fired _ _ _ :: log => lastStarted t log

/-- A node is non-empty exactly when it is in the tree, it is there once, and the tree is sorted. -/
structure TreeOk (s : TimerSet) : Prop where
  linked : ∀ t, (s.timers t).linked = true ↔ t ∈ s.tree.inorder
  once : s.tree.inorder.Nodup
  sorted : s.tree.inorder.Pairwise fun x y => (s.timers x).expireTime ≤ (s.timers y).expireTime

/-- Beside the tree: an armed timer was started after it was last stopped, and so was every timer
when its callback was called, at its deadline or later. -/
structure Sound (s : TimerSet) : Prop extends TreeOk s where
  noFault : s.fault = false
  started : ∀ t, (s.timers t).linked = true → lastStarted t s.log = true
  due : ∀ t e now log, .fired t e now :: log <:+ s.log → e ≤ now ∧ lastStarted t log = true

/-! ## The hardware -/

/-- The timers and their history, without the hardware. -/
def offHw (s : TimerSet) : TimerSet :=
    { s with clock := 0, alarm := none, pending := false, moves := [] }

/-- What the hardware does leaves the tree in order. -/
theorem TreeOk.of_offHw (h : s'.offHw = s.offHw) (hs : s.TreeOk) : s'.TreeOk := by
  have hs' : s'.offHw.TreeOk := by
    rw [h]
    exact ⟨hs.linked, hs.once, hs.sorted⟩
  exact ⟨hs'.linked, hs'.once, hs'.sorted⟩

/-- What the hardware does leaves the invariant alone. -/
theorem Sound.of_offHw (h : s'.offHw = s.offHw) (hs : s.Sound) : s'.Sound := by
  have hs' : s'.offHw.Sound := by
    rw [h]
    exact ⟨⟨hs.linked, hs.once, hs.sorted⟩, hs.noFault, hs.started, hs.due⟩
  exact ⟨⟨hs'.linked, hs'.once, hs'.sorted⟩, hs'.noFault, hs'.started, hs'.due⟩

/-- The clock belongs to the hardware. -/
theorem moveClock_offHw (n : ℕ) (s : TimerSet) : (moveClock n s).offHw = s.offHw := by
  unfold moveClock
  split <;> rfl

/-- A call of the hardware moves at most the clock. -/
theorem hwCall_offHw (s : TimerSet) : (hwCall s).offHw = s.offHw := moveClock_offHw _ _

/-- The clock stands still. -/
theorem hwCall_still (hmoves : s.moves = []) : (hwCall s).clock = s.clock ∧
    (hwCall s).moves = [] := by
  unfold hwCall moveClock
  rw [hmoves]
  split <;> exact ⟨rfl, rfl⟩

/-- Setting the alarm changes the hardware only. -/
theorem setExpire_offHw (e : ℕ) (s : TimerSet) : (ndHwHrtimerSetExpire e s).offHw = s.offHw := by
  rw [← hwCall_offHw s]
  unfold ndHwHrtimerSetExpire
  simp only
  split <;> rfl

/-- Triggering the interrupt changes the hardware only. -/
theorem trigger_offHw (s : TimerSet) : (ndHwHrtimerTrigger s).offHw = s.offHw := hwCall_offHw s

/-- Clearing the trigger changes the hardware only. -/
theorem triggerClear_offHw (s : TimerSet) : (ndHwHrtimerTriggerClear s).offHw = s.offHw :=
    hwCall_offHw s

/-- Reading the clock changes the hardware only. -/
theorem getCurrent_offHw (s : TimerSet) : (ndHwGetCurrent s).2.offHw = s.offHw := hwCall_offHw s

/-- Arming the leftmost timer changes the hardware only. -/
theorem armLeftmost_offHw (l : ℕ) (s : TimerSet) : (armLeftmost l s).offHw = s.offHw := by
  unfold armLeftmost
  simp only
  split
  · rw [trigger_offHw, getCurrent_offHw, setExpire_offHw]
  · rw [getCurrent_offHw, setExpire_offHw]

/-- The timers of a state are those of any state that differs in the hardware. -/
theorem timers_of_offHw (h : s'.offHw = s.offHw) : s'.timers = s.timers :=
  (congrArg TimerSet.timers h :)

/-- The hardware has no part in the tree. -/
theorem tree_of_offHw (h : s'.offHw = s.offHw) : s'.tree = s.tree :=
  (congrArg TimerSet.tree h :)

/-- The hardware has no part in the history. -/
theorem log_of_offHw (h : s'.offHw = s.offHw) : s'.log = s.log :=
  (congrArg TimerSet.log h :)

/-! ## The tree -/

/-- The leftmost timer is the first of the in-order sequence. -/
theorem leftmost_eq (s : TimerSet) : getLeftmostTimer s = s.tree.inorder.head? := s.tree.first_eq

/-- The timer is taken out of the tree when it is in. -/
def unlink (rb : Balancing ℕ) (t : ℕ) (s : TimerSet) : TimerSet :=
  if (s.timers t).linked then timerErase rb t s else s

/-- A timer that is taken out is not linked. -/
theorem unlink_linked (rb : Balancing ℕ) (t : ℕ) (s : TimerSet) :
    ((unlink rb t s).timers t).linked = false := by
  unfold unlink
  split
  · simp [timerErase]
  · rename_i h
    simpa using h

/-- The other timers stay as they are. -/
theorem unlink_timers_of_ne (rb : Balancing ℕ) (h : u ≠ t) (s : TimerSet) :
    (unlink rb t s).timers u = s.timers u := by
  unfold unlink
  split
  · simp [timerErase, Function.update_of_ne h]
  · rfl

/-- Taking a timer out is not an event. -/
theorem unlink_log (rb : Balancing ℕ) (t : ℕ) (s : TimerSet) : (unlink rb t s).log = s.log := by
  unfold unlink
  split <;> rfl

/-- What `timer_remove` does to the timers, in both builds. -/
theorem timerRemove_offHw (rb : Balancing ℕ) (cfg : Config) (hs : s.TreeOk) (t : ℕ) :
    (timerRemove rb cfg t s).offHw = (unlink rb t s).offHw := by
  unfold timerRemove unlink
  by_cases hl : (s.timers t).linked = true
  · rw [if_neg (by simp [hl]), if_pos hl]
    split
    · split
      · simp only
        split
        · exact triggerClear_offHw _
        · exact armLeftmost_offHw _ _
      · split
        · -- the tree is not empty
          rename_i hnone
          have hmem := (hs.linked t).mp hl
          rw [leftmost_eq, List.head?_eq_none_iff] at hnone
          simp [hnone] at hmem
        · simp only
          split
          · rw [trigger_offHw, getCurrent_offHw]
          · exact getCurrent_offHw _
    · rfl
  · rw [if_pos (by simpa using hl), if_neg hl]

/-- The deadline that a timer is linked in with, from the clock `now` that the call reads and the
timeout.
kernel/nd_timer.c:48, 199 -/
def deadlineOf (cfg : Config) (now timeout : ℕ) : ℕ :=
  if cfg.tickless then deadline timeout now else (now + timeout) % u64Size

/-- The state in which `nd_timer_start` comes to `timer_insert`. -/
def beforeInsert (rb : Balancing ℕ) (cfg : Config) (t : ℕ) (s : TimerSet) : TimerSet :=
  if (s.timers t).linked then timerRemove rb cfg t s else s

/-- The clock that `nd_timer_start` computes the deadline from. -/
def startNow (rb : Balancing ℕ) (cfg : Config) (t : ℕ) (s : TimerSet) : ℕ :=
  (ndHwGetCurrent (beforeInsert rb cfg t s)).1

/-- What `timer_insert` does to the timers. -/
theorem timerInsert_offHw (rb : Balancing ℕ) (cfg : Config) (t : ℕ) (s : TimerSet) :
    (timerInsert rb cfg t s).offHw =
      (timerNodeInsert rb t (s.updTimer t fun tm =>
        { tm with
          expireTime :=
            if cfg.tickless then deadline (s.timers t).timeout (hwCall s).clock
                else tm.expireTime })).offHw := by
  unfold timerInsert
  by_cases hc : cfg.tickless = true
  · simp only [if_pos hc]
    have hget := getCurrent_offHw s
    have hnode : (timerNodeInsert rb t ((ndHwGetCurrent s).2.updTimer t fun tm =>
        { tm with expireTime := deadline tm.timeout (ndHwGetCurrent s).1 })).offHw =
        (timerNodeInsert rb t (s.updTimer t fun tm =>
          { tm with expireTime := deadline (s.timers t).timeout (hwCall s).clock })).offHw :=
      congrArg (fun x : TimerSet => timerNodeInsert rb t (x.updTimer t fun tm =>
        { tm with expireTime := deadline tm.timeout (hwCall s).clock })) hget
    split
    · exact hnode
    · split <;> split
      · rw [trigger_offHw, setExpire_offHw, hnode]
      · rw [setExpire_offHw, hnode]
      · rw [trigger_offHw, hnode]
      · exact hnode
  · simp only [if_neg hc]
    have hsame : (s.updTimer t fun tm => { tm with expireTime := tm.expireTime }) = s := by
      simp [updTimer, Function.update_eq_self]
    rw [hsame]

/-- A node that is not linked is not in the tree. -/
theorem TreeOk.not_mem (hs : s.TreeOk) (hout : (s.timers t).linked = false) :
    t ∉ s.tree.inorder := fun hm => by
  rw [(hs.linked t).mpr hm] at hout
  cases hout

/-- Taking a node out changes no key. -/
theorem timerErase_key (rb : Balancing ℕ) (t : ℕ) (s : TimerSet) (u : ℕ) :
    ((timerErase rb t s).timers u).expireTime = (s.timers u).expireTime := by
  by_cases hu : u = t
  · subst hu
    simp [timerErase]
  · simp [timerErase, hu]

/-- Linking a node in changes no key. -/
theorem timerNodeInsert_key (rb : Balancing ℕ) (t : ℕ) (s : TimerSet) (u : ℕ) :
    ((timerNodeInsert rb t s).timers u).expireTime = (s.timers u).expireTime := by
  by_cases hu : u = t
  · subst hu
    simp [timerNodeInsert]
  · simp [timerNodeInsert, hu]

/-- `rb_erase` of a timer, and the mark that it is not linked, keep the tree in order. -/
theorem TreeOk.erase (hs : s.TreeOk) (t : ℕ) : (timerErase rb t s).TreeOk := by
  have htree : (timerErase rb t s).tree.inorder = s.tree.inorder.erase t :=
    rb.inorder_erase t _ hs.once
  refine ⟨fun u => ?_, ?_, ?_⟩
  · rw [htree, hs.once.mem_erase_iff, ← hs.linked u]
    by_cases hu : u = t
    · subst hu
      simp [timerErase]
    · simp [timerErase, hu]
  · rw [htree]
    exact hs.once.erase t
  · rw [htree]
    refine (hs.sorted.sublist List.erase_sublist).imp_of_mem fun hx hy hle => ?_
    rw [timerErase_key, timerErase_key]
    exact hle

/-- Taking a timer out, if it is in the tree, keeps the tree in order. -/
theorem TreeOk.unlink (hs : s.TreeOk) (rb : Balancing ℕ) (t : ℕ) : (unlink rb t s).TreeOk := by
  unfold TimerSet.unlink
  split
  · exact hs.erase t
  · exact hs

/-- A control block is written while its node is out of the tree. -/
theorem TreeOk.update (hs : s.TreeOk) (hout : (s.timers t).linked = false) {f : TimerCtl → TimerCtl}
    (hf : (f (s.timers t)).linked = false) : (s.updTimer t f).TreeOk := by
  have hmem := hs.not_mem hout
  refine ⟨fun u => ?_, hs.once, hs.sorted.imp_of_mem fun {x y} hx hy hle => ?_⟩
  · by_cases hu : u = t
    · subst hu
      simp [hf, hmem]
    · simpa [hu] using hs.linked u
  · have hxt : x ≠ t := fun h => hmem (h ▸ hx)
    have hyt : y ≠ t := fun h => hmem (h ▸ hy)
    simpa [hxt, hyt] using hle

/-- Where the descent links a node in. -/
theorem inorder_nodeInsert (hs : s.TreeOk) (t : ℕ) :
    (timerNodeInsert rb t s).tree.inorder =
      insertWhere (fun v => (s.timers t).expireTime < (s.timers v).expireTime) t
        s.tree.inorder := by
  have hdescend := BinTree.inorder_descend
    (p := fun v => decide ((s.timers t).expireTime < (s.timers v).expireTime)) (n := t)
      (t := s.tree)
    (hs.sorted.imp fun hle hx => by
      rw [decide_eq_true_eq] at hx ⊢
      exact Nat.lt_of_lt_of_le hx hle)
  rw [← hdescend]
  exact rb.inorder_insertColor t _

/-- `timer_node_insert` of a timer that is not in the tree keeps the tree in order. -/
theorem TreeOk.nodeInsert (hs : s.TreeOk) (hout : (s.timers t).linked = false) :
    (timerNodeInsert rb t s).TreeOk := by
  have hmem := hs.not_mem hout
  refine ⟨fun u => ?_, ?_, ?_⟩
  · rw [inorder_nodeInsert hs, mem_insertWhere, ← hs.linked u]
    by_cases hu : u = t
    · subst hu
      simp [timerNodeInsert]
    · simp [timerNodeInsert, hu]
  · rw [inorder_nodeInsert hs]
    exact nodup_insertWhere _ _ _ hmem hs.once
  · rw [inorder_nodeInsert hs]
    simp only [timerNodeInsert_key]
    refine pairwise_insertWhere _ _ _ _ hs.sorted ?_ ?_ ?_
    · intro x _ hp
      simpa using hp
    · intro x _ hp
      rw [decide_eq_true_eq] at hp
      exact Nat.le_of_lt hp
    · intro x _ y _ hx hy
      exact Nat.le_trans hx hy

/-! ## The calls -/

/-- What holds of the calls in a history holds of them behind a further event that meets it. -/
theorem lastStarted_of_suffix_cons {e : TimerEvent} {log : List TimerEvent}
    (hdue : ∀ t e now log', .fired t e now :: log' <:+ log → e ≤ now ∧ lastStarted t log' = true)
    (hnew : ∀ t ex now, e = .fired t ex now → ex ≤ now ∧ lastStarted t log = true) :
    ∀ t ex now log', .fired t ex now :: log' <:+ e :: log → ex ≤ now ∧
      lastStarted t log' = true := by
  intro t ex now log' hsuf
  rcases List.suffix_cons_iff.mp hsuf with heq | hsuf
  · rw [List.cons.injEq] at heq
    obtain ⟨rfl, rfl⟩ := heq
    exact hnew t ex now rfl
  · exact hdue t ex now log' hsuf

/-- A stopped timer is out of the tree. -/
theorem Sound.stop (hs : s.Sound) (t : ℕ) : ((unlink rb t s).emit (.stopped t)).Sound := by
  have htree := hs.toTreeOk.unlink rb t
  have hlog := unlink_log rb t s
  refine ⟨⟨htree.linked, htree.once, htree.sorted⟩, ?_, fun u hu => ?_, ?_⟩
  · show (unlink rb t s).fault = false
    unfold unlink
    split <;> exact hs.noFault
  · have hut : u ≠ t := by
      rintro rfl
      have hout := unlink_linked rb u s
      rw [show ((unlink rb u s).timers u).linked = true from hu] at hout
      cases hout
    have hlinked : (s.timers u).linked = true := by
      rw [← unlink_timers_of_ne rb hut]
      exact hu
    show lastStarted u (.stopped t :: (unlink rb t s).log) = true
    rw [hlog, lastStarted, hs.started u hlinked]
    simpa using fun h => hut h.symm
  · show ∀ t' e now log, .fired t' e now :: log <:+ .stopped t :: (unlink rb t s).log → _
    rw [hlog]
    exact lastStarted_of_suffix_cons hs.due fun _ _ _ h => by cases h

/-- A started timer is linked in with its new key. -/
theorem Sound.start (hs : s.Sound) (t e : ℕ) :
    ((timerNodeInsert rb t ((unlink rb t s).updTimer t fun tm => { tm with expireTime := e })).emit
      (.started t)).Sound := by
  have hout := unlink_linked rb t s
  have htree : (timerNodeInsert rb t ((unlink rb t s).updTimer t fun tm =>
      { tm with expireTime := e })).TreeOk :=
    ((hs.toTreeOk.unlink rb t).update hout hout).nodeInsert (by simpa using hout)
  have hlog := unlink_log rb t s
  refine ⟨⟨htree.linked, htree.once, htree.sorted⟩, ?_, fun u hu => ?_, ?_⟩
  · show (unlink rb t s).fault = false
    unfold unlink
    split <;> exact hs.noFault
  · show lastStarted u (.started t :: (unlink rb t s).log) = true
    rw [hlog, lastStarted, Bool.or_eq_true, decide_eq_true_eq]
    by_cases hut : u = t
    · exact .inl hut.symm
    · refine .inr (hs.started u ?_)
      rw [← unlink_timers_of_ne rb hut]
      simpa [timerNodeInsert, hut] using hu
  · show ∀ t' e now log, .fired t' e now :: log <:+ .started t :: (unlink rb t s).log → _
    rw [hlog]
    exact lastStarted_of_suffix_cons hs.due fun _ _ _ h => by cases h

/-- Taking a timer out leaves every timeout alone. -/
theorem unlink_timeout (rb : Balancing ℕ) (t : ℕ) (s : TimerSet) (u : ℕ) :
    ((unlink rb t s).timers u).timeout = (s.timers u).timeout := by
  by_cases hu : u = t
  · unfold unlink
    split
    · simp [timerErase, hu]
    · rfl
  · rw [unlink_timers_of_ne rb hu]

/-- What `nd_timer_start` does to an initialised timer. -/
theorem ndTimerStart_offHw (rb : Balancing ℕ) (cfg : Config) (hs : s.TreeOk)
    (hcb : (s.timers t).callback = true) :
    (ndTimerStart rb cfg t s).offHw =
      ((timerNodeInsert rb t ((unlink rb t s).updTimer t fun tm =>
        { tm with expireTime := deadlineOf cfg (startNow rb cfg t s) (s.timers t).timeout })).emit
          (.started t)).offHw := by
  have hbase : (if (s.timers t).linked then timerRemove rb cfg t s else s).offHw =
      (unlink rb t s).offHw := by
    split
    · exact timerRemove_offHw rb cfg hs t
    · rename_i hl
      unfold unlink
      rw [if_neg hl]
  unfold ndTimerStart startNow beforeInsert
  rw [if_neg (by simp [hcb])]
  generalize (if (s.timers t).linked then timerRemove rb cfg t s else s) = b at hbase
  have htimeout : (b.timers t).timeout = (s.timers t).timeout := by
    rw [timers_of_offHw hbase]
    exact unlink_timeout rb t s t
  simp only
  by_cases hc : cfg.tickless = true
  · rw [if_pos hc]
    have hinsert := timerInsert_offHw rb cfg t b
    rw [htimeout] at hinsert
    have hnode : (timerNodeInsert rb t (b.updTimer t fun tm =>
        { tm with
          expireTime :=
            if cfg.tickless then deadline (s.timers t).timeout (hwCall b).clock
              else tm.expireTime })).offHw =
        (timerNodeInsert rb t ((unlink rb t s).updTimer t fun tm =>
          { tm with expireTime := deadlineOf cfg (ndHwGetCurrent b).1 (s.timers t).timeout })).offHw
              := by
      unfold deadlineOf
      simp only [if_pos hc]
      exact congrArg (fun x : TimerSet => timerNodeInsert rb t (x.updTimer t fun tm =>
        { tm with expireTime := deadline (s.timers t).timeout (hwCall b).clock })) hbase
    exact congrArg (fun x : TimerSet => x.emit (.started t)) (hinsert.trans hnode)
  · rw [if_neg hc]
    have hnode : (timerNodeInsert rb t ((ndHwGetCurrent b).2.updTimer t fun tm =>
        { tm with expireTime := ((ndHwGetCurrent b).1 + tm.timeout) % u64Size })).offHw =
        (timerNodeInsert rb t ((unlink rb t s).updTimer t fun tm =>
          { tm with expireTime := deadlineOf cfg (ndHwGetCurrent b).1 (s.timers t).timeout })).offHw
              := by
      unfold deadlineOf
      simp only [if_neg hc]
      rw [← unlink_timeout rb t s t]
      exact congrArg (fun x : TimerSet => timerNodeInsert rb t (x.updTimer t fun tm =>
        { tm with expireTime := ((ndHwGetCurrent b).1 + tm.timeout) % u64Size }))
        ((getCurrent_offHw b).trans hbase)
    unfold timerInsert
    rw [if_neg hc]
    exact congrArg (fun x : TimerSet => x.emit (.started t)) hnode

/-- The timer that has expired is taken out, and linked in again when it is periodic. -/
def rearm (rb : Balancing ℕ) (l : ℕ) (s : TimerSet) : TimerSet :=
  if (s.timers l).periodic then
    timerNodeInsert rb l ((timerErase rb l s).updTimer l fun tm =>
      { tm with expireTime := (tm.expireTime + tm.timeout) % u64Size })
  else timerErase rb l s

/-- The tree and the control block of a periodic timer change, and not the history. -/
theorem rearm_log (rb : Balancing ℕ) (l : ℕ) (s : TimerSet) : (rearm rb l s).log = s.log := by
  unfold rearm
  split <;> rfl

/-- What a due timer does: it is taken out or linked in again, and called if it has a callback. -/
theorem expireLeftmost_eq (l now : ℕ) (s : TimerSet) :
    expireLeftmost rb l now s =
      if (s.timers l).callback then
        { (rearm rb l s).emit (.fired l (s.timers l).expireTime now) with phase := .callback }
      else rearm rb l s := by
  have hper : ((timerErase rb l s).timers l).periodic =
    (s.timers l).periodic := by simp [timerErase]
  have hcb : ((rearm rb l s).timers l).callback = (s.timers l).callback := by
    unfold rearm
    split <;> simp [timerErase, timerNodeInsert]
  rw [← hcb]
  unfold expireLeftmost
  simp only [hper]
  rfl

/-- A periodic timer that is linked in again keeps the tree in order. -/
theorem TreeOk.rearm (hs : s.TreeOk) (rb : Balancing ℕ) (l : ℕ) : (rearm rb l s).TreeOk := by
  have hout : ((timerErase rb l s).timers l).linked = false := by simp [timerErase]
  unfold TimerSet.rearm
  split
  · exact ((hs.erase l).update hout hout).nodeInsert (by simp [timerErase])
  · exact hs.erase l

/-- A linked timer that is taken out or linked in again keeps the invariant. -/
theorem Sound.rearm (hs : s.Sound) (rb : Balancing ℕ) (hl : (s.timers l).linked = true) :
    (rearm rb l s).Sound := by
  have htree := hs.toTreeOk.rearm rb l
  have hlog := rearm_log rb l s
  refine ⟨htree, ?_, fun u hu => ?_, ?_⟩
  · unfold TimerSet.rearm
    split <;> exact hs.noFault
  · rw [hlog]
    refine hs.started u ?_
    by_cases hul : u = l
    · rw [hul]
      exact hl
    · unfold TimerSet.rearm at hu
      split at hu <;> simpa [timerErase, timerNodeInsert, hul] using hu
  · rw [hlog]
    exact hs.due

/-- A linked timer that is called when it is due keeps the invariant. -/
theorem Sound.expireLeftmost {now : ℕ} (hs : s.Sound) (hl : (s.timers l).linked = true)
    (hdue : (s.timers l).expireTime ≤ now) : (expireLeftmost rb l now s).Sound := by
  rw [expireLeftmost_eq]
  have hr := hs.rearm rb hl
  have hlog := rearm_log rb l s
  split
  · refine ⟨⟨hr.linked, hr.once, hr.sorted⟩, hr.noFault, hr.started, ?_⟩
    refine lastStarted_of_suffix_cons hr.due fun t e n heq => ?_
    rw [TimerEvent.fired.injEq] at heq
    obtain ⟨rfl, rfl, rfl⟩ := heq
    rw [hlog]
    exact ⟨hdue, hs.started l hl⟩
  · exact hr

/-- The timer that one turn of the loop calls back, if any: the leftmost one when its deadline has
come. -/
theorem timerExpired_cases (rb : Balancing ℕ) (cfg : Config) (s : TimerSet) :
    (timerExpired rb cfg s).offHw = { s with phase := .idle }.offHw ∨
      ∃ l, getLeftmostTimer s = some l ∧ (s.timers l).expireTime ≤ (hwCall s).clock ∧
        timerExpired rb cfg s = expireLeftmost rb l (hwCall s).clock (hwCall s) := by
  have htm : (hwCall s).timers = s.timers := timers_of_offHw (hwCall_offHw s)
  unfold timerExpired
  split
  · left
    split
    · exact congrArg (fun x : TimerSet => { x with phase := .idle }) (triggerClear_offHw s)
    · rfl
  · rename_i l hl
    show _ ∨ _
    simp only [ndHwGetCurrent, htm]
    by_cases hlt : (hwCall s).clock < (s.timers l).expireTime
    · rw [if_pos hlt]
      left
      split
      · exact congrArg (fun x : TimerSet => { x with phase := .idle })
          ((armLeftmost_offHw l (hwCall s)).trans (hwCall_offHw s))
      · exact congrArg (fun x : TimerSet => { x with phase := .idle }) (hwCall_offHw s)
    · rw [if_neg hlt]
      exact .inr ⟨l, hl, Nat.not_lt.mp hlt, rfl⟩

/-- A turn that finds a timer to call. -/
theorem turn_call (rb : Balancing ℕ) (cfg : Config) (hmoves : s.moves = [])
    (hl : getLeftmostTimer s = some l) {now : ℕ} (hnow : s.clock = now)
      (hdue : (s.timers l).expireTime ≤ now) :
    timerExpired rb cfg s = expireLeftmost rb l now (hwCall s) := by
  have htm : (hwCall s).timers = s.timers := timers_of_offHw (hwCall_offHw s)
  unfold timerExpired
  rw [hl]
  simp only [ndHwGetCurrent, htm, (hwCall_still hmoves).1, hnow]
  exact if_neg (Nat.not_lt.mpr hdue)

/-- The leftmost timer is armed. -/
theorem TreeOk.leftmost_linked (hs : s.TreeOk) (hl : getLeftmostTimer s = some l) :
    (s.timers l).linked = true := by
  rw [leftmost_eq] at hl
  exact (hs.linked l).mpr (List.mem_of_mem_head? hl)

/-- One turn of the loop of `timer_expired` keeps the invariant. -/
theorem Sound.timerExpired (hs : s.Sound) (rb : Balancing ℕ) (cfg : Config) :
    (timerExpired rb cfg s).Sound := by
  rcases timerExpired_cases rb cfg s with h | ⟨l, hl, hdue, h⟩
  · exact Sound.of_offHw h ⟨⟨hs.linked, hs.once, hs.sorted⟩, hs.noFault, hs.started, hs.due⟩
  · have htm : (hwCall s).timers = s.timers := timers_of_offHw (hwCall_offHw s)
    have hs' : (hwCall s).Sound := hs.of_offHw (hwCall_offHw s)
    rw [h]
    refine hs'.expireLeftmost ?_ ?_
    · rw [htm]
      exact hs.toTreeOk.leftmost_linked hl
    · rw [htm]
      exact hdue

/-! ## Every run -/

/-- The clock that moves during a call is hardware. -/
theorem during_offHw (moves : List ℕ) (f : TimerSet → TimerSet) (s : TimerSet) :
    (during moves f s).offHw = (f { s with moves }).offHw := rfl

/-- Every action keeps it. -/
theorem Sound.exec (hs : s.Sound) {a : TimerAction} (ha : s.allowed a = true) :
    (exec rb cfg a s).Sound := by
  have hmoves : ∀ moves, { s with moves }.Sound := fun _ =>
    ⟨⟨hs.linked, hs.once, hs.sorted⟩, hs.noFault, hs.started, hs.due⟩
  have hphase : ∀ phase, { s with phase }.Sound := fun _ =>
    ⟨⟨hs.linked, hs.once, hs.sorted⟩, hs.noFault, hs.started, hs.due⟩
  cases a with
  | init t periodic timeout callback =>
    have hout : (s.timers t).linked = false := by
      have hnot : (!(s.timers t).linked) = true := (Bool.and_eq_true .. ▸ ha).2
      simpa using hnot
    have hu : (s.updTimer t fun tm =>
        { tm with periodic, timeout, callback, linked := false }).Sound := by
      refine ⟨hs.toTreeOk.update hout rfl, hs.noFault, fun u hlinked => ?_, hs.due⟩
      refine hs.started u ?_
      by_cases hut : u = t
      · rw [hut] at hlinked
        simp at hlinked
      · simpa [hut] using hlinked
    show (ndTimerInit t periodic timeout callback s).Sound
    unfold ndTimerInit
    split
    · exact hs
    · split
      · exact hs
      · exact hu
  | retime t timeout =>
    have hlinked : ∀ u, ((s.updTimer t fun tm => { tm with timeout }).timers u).linked =
        (s.timers u).linked := fun u => by
      by_cases hut : u = t <;> simp [hut]
    have hkey : ∀ u, ((s.updTimer t fun tm => { tm with timeout }).timers u).expireTime =
        (s.timers u).expireTime := fun u => by
      by_cases hut : u = t <;> simp [hut]
    refine ⟨⟨fun u => ?_, hs.once, ?_⟩, hs.noFault, fun u hu => ?_, hs.due⟩
    · show ((s.updTimer t fun tm => { tm with timeout }).timers u).linked = true ↔ _
      rw [hlinked]
      exact hs.linked u
    · show s.tree.inorder.Pairwise fun x y =>
        ((s.updTimer t fun tm => { tm with timeout }).timers x).expireTime ≤
          ((s.updTimer t fun tm => { tm with timeout }).timers y).expireTime
      simp only [hkey]
      exact hs.sorted
    · exact hs.started u ((hlinked u).symm.trans hu)
  | start t moves =>
    have hcb : (s.timers t).callback = true := (Bool.and_eq_true .. ▸ ha).2
    have hoff := ndTimerStart_offHw rb cfg (hmoves moves).toTreeOk hcb
    exact Sound.of_offHw (during_offHw moves _ s) (Sound.of_offHw hoff ((hmoves moves).start t _))
  | stop t moves =>
    have hstop : (ndTimerStop rb cfg t { s with moves }).offHw =
        ((unlink rb t { s with moves }).emit (.stopped t)).offHw :=
      congrArg (fun x : TimerSet => x.emit (.stopped t))
        (timerRemove_offHw rb cfg (hmoves moves).toTreeOk t)
    exact Sound.of_offHw (during_offHw moves _ s) (Sound.of_offHw hstop ((hmoves moves).stop t))
  | process =>
    have hproc : (ndTimerProcess s).offHw = offHw { s with phase := .loop } := rfl
    exact Sound.of_offHw hproc (hphase .loop)
  | turn moves => exact Sound.of_offHw (during_offHw moves _ s) ((hmoves moves).timerExpired rb cfg)
  | callbackReturns => exact hphase .loop
  | advance n => exact hs.of_offHw (moveClock_offHw n s)

/-- No timer is armed at first. -/
theorem sound_start {n : ℕ} : Sound { clock := n } := by
  refine ⟨⟨fun t => ?_, .nil, .nil⟩, rfl, fun t ht => ?_, fun t e now log hsuf => ?_⟩
  · exact ⟨fun h => (by cases h), fun h => (by cases h)⟩
  · cases ht
  · cases List.suffix_nil.mp hsuf

/-- The invariant of the timers holds in every run. -/
theorem sound_reach (hs : (timerMachine rb cfg).Reach Machine.Always s) : s.Sound := by
  refine hs.induction (I := Sound) ?_ ?_
  · rintro s ⟨n, -, rfl⟩
    exact sound_start
  · intro s a _ ih he _
    exact ih.exec he.1

/-- What an action notes in the history: at most one event, and a callback only for a timer that is
armed with a deadline that the clock has come to. -/
structure Noted (s s' : TimerSet) (e : TimerEvent) : Prop where
  log : s'.log = e :: s.log
  due : ∀ t expire now, e = .fired t expire now →
    (s.timers t).linked = true ∧ (s.timers t).expireTime = expire ∧ expire ≤ now ∧ now = s'.clock

/-- A start is noted, whatever the clock does meanwhile. -/
theorem exec_start_log (rb : Balancing ℕ) (cfg : Config) (hs : s.TreeOk)
    (hcb : (s.timers t).callback = true)
    (moves : List ℕ) : (exec rb cfg (.start t moves) s).log = .started t :: s.log := by
  have htree : TreeOk { s with moves } := ⟨hs.linked, hs.once, hs.sorted⟩
  have hlog : (ndTimerStart rb cfg t { s with moves }).log = .started t ::
      (unlink rb t { s with moves }).log :=
    log_of_offHw (ndTimerStart_offHw rb cfg htree hcb)
  rw [unlink_log] at hlog
  exact hlog

/-- A stop is noted, whatever the clock does meanwhile. -/
theorem exec_stop_log (rb : Balancing ℕ) (cfg : Config) (hs : s.TreeOk) (t : ℕ) (moves : List ℕ) :
    (exec rb cfg (.stop t moves) s).log = .stopped t :: s.log := by
  have htree : TreeOk { s with moves } := ⟨hs.linked, hs.once, hs.sorted⟩
  have hlog := log_of_offHw (timerRemove_offHw rb cfg htree t)
  rw [unlink_log] at hlog
  exact congrArg (.stopped t :: ·) hlog

/-- Every action that is allowed notes nothing, or one event that fits the state. -/
theorem Sound.noted (hs : s.Sound) {a : TimerAction} (ha : s.allowed a = true) :
    (TimerSet.exec rb cfg a s).log = s.log ∨ ∃ e, Noted s (TimerSet.exec rb cfg a s) e := by
  cases a with
  | init t periodic timeout callback =>
    left
    show (ndTimerInit t periodic timeout callback s).log = s.log
    unfold ndTimerInit
    split
    · rfl
    · split <;> rfl
  | retime t timeout => exact .inl rfl
  | start t moves =>
    have hcb : (s.timers t).callback = true := (Bool.and_eq_true .. ▸ ha).2
    exact .inr ⟨.started t, exec_start_log rb cfg hs.toTreeOk hcb moves, fun _ _ _ h => by cases h⟩
  | stop t moves => exact .inr ⟨.stopped t, exec_stop_log rb cfg hs.toTreeOk t moves,
      fun _ _ _ h => by cases h⟩
  | process => exact .inl rfl
  | turn moves =>
    have htm : (hwCall { s with moves }).timers = s.timers :=
      timers_of_offHw (hwCall_offHw { s with moves })
    have hlog : (hwCall { s with moves }).log = s.log :=
      (congrArg TimerSet.log (hwCall_offHw { s with moves }) :)
    have hrlog : ∀ l, (TimerSet.rearm rb l (hwCall { s with moves })).log = s.log := fun l =>
      (rearm_log rb l _).trans hlog
    rcases timerExpired_cases rb cfg { s with moves } with h | ⟨l, hl, hdue, h⟩
    · exact .inl (congrArg TimerSet.log h :)
    · rw [expireLeftmost_eq] at h
      have hexec : TimerSet.exec rb cfg (.turn moves) s =
          { TimerSet.timerExpired rb cfg { s with moves } with moves := [] } := rfl
      rw [hexec, h]
      split
      · right
        refine ⟨_, congrArg _ (hrlog l), fun t expire now heq => ?_⟩
        rw [TimerEvent.fired.injEq] at heq
        obtain ⟨rfl, rfl, rfl⟩ := heq
        rw [htm]
        refine ⟨hs.toTreeOk.leftmost_linked hl, rfl, hdue, ?_⟩
        show (hwCall { s with moves }).clock = (TimerSet.rearm rb l (hwCall { s with moves })).clock
        unfold TimerSet.rearm
        split <;> rfl
      · exact .inl (hrlog l)
  | callbackReturns => exact .inl rfl
  | advance n => exact .inl (congrArg TimerSet.log (moveClock_offHw n s) :)

/-- **The tree of the timers** in every run: it is sorted and holds the armed timers, each once; a
callback is called for an armed timer when its deadline has come, and never between a stop and the
next start.
kernel/nd_timer.c:26-137, 186-224 -/
theorem timer_tree_sound (rb : Balancing ℕ) (cfg : Config) (s : TimerSet)
    (hs : (timerMachine rb cfg).Reach Machine.Always s) :
    s.Sound ∧ ∀ a, (timerMachine rb cfg).enabled s a →
      ((timerMachine rb cfg).next a s).log = s.log ∨ ∃ e,
        Noted s ((timerMachine rb cfg).next a s) e :=
  ⟨sound_reach hs, fun _ ha => (sound_reach hs).noted ha.1⟩

/-- A tickless build, such as bsp/raspi-pico2. -/
def ticklessPort : Config := ⟨.deferred, true, false⟩

/-- A periodic timer is stopped by its own callback, in the pass that has linked it in again. -/
def selfStop : List TimerAction :=
  [.init 0 true 5 true, .init 1 false 9 true, .start 0 [], .start 1 [2], .advance 6, .process,
    .turn [], .stop 0 [1], .callbackReturns, .turn []]

/-- Two timers are started, the first is called at 8 and stopped. -/
theorem timer_tree_sound_run :
    ∃ s, s.log = [.stopped 0, .fired 0 5 8, .started 1, .started 0] ∧ s.Sound ∧
      ∀ a, (timerMachine SearchTree.unbalanced ticklessPort).enabled s a →
        ((timerMachine SearchTree.unbalanced ticklessPort).next a s).log = s.log ∨
          ∃ e, Noted s ((timerMachine SearchTree.unbalanced ticklessPort).next a s) e := by
  obtain ⟨s, hs, hp⟩ := (timerMachine SearchTree.unbalanced ticklessPort).exists_run (l := selfStop)
    (s := {}) (p := fun s => s.log = [.stopped 0, .fired 0 5 8, .started 1, .started 0])
    (by decide +kernel)
  refine ⟨s, of_decide_eq_true hp, timer_tree_sound SearchTree.unbalanced ticklessPort s ?_⟩
  exact Machine.reach_of_run _ (fun _ _ _ => trivial) (.start ⟨0, by decide, rfl⟩) hs

end TimerSet

end NerdRtos
