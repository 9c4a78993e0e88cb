import NerdRtos.Analysis.RbErase
import NerdRtos.Analysis.RbInsert
import NerdRtos.Analysis.RbWalks
import NerdRtos.Analysis.TimerOrder
import NerdRtos.Model.TimerTree
import Mathlib.Data.List.Perm.Subperm

/-!
# The timers on their tree behave as the timers

`Follows n p s` relates the timers `0` to `n - 1` on the tree in memory to a `TimerSet`: the memory
holds a red-black tree with the nodes in the order of the tree of `s`, whatever shape that one has,
and the node of an initialised timer that is not armed is empty. Every function keeps it, and has a
result.
-/

set_option autoImplicit false

namespace NerdRtos

open Intrusive (insertWhere)
open RedBlack
open RedBlack.ColorTree (fork)
open SearchTree (Balancing BinTree)

/-! ## The descent -/

namespace RbTree

variable {t : RbTree ℕ} {u : ColorTree ℕ} {path : List (Frame ℕ)} {L : List ℕ} {later : ℕ → Bool}

/-- The descent comes to an empty place, in front of the nodes that are later. -/
theorem At.descend {turns : ℕ} (h : At t path u L) (hturns : u.height < turns)
    (hsorted : L.Pairwise fun x y => later x = true → later y = true)
    (hbefore : ∀ x ∈ before path, later x = false) (hafter : ∀ x ∈ after path, later x = true) :
    ∃ path', TimerTree.descend later t turns (linkOf path) (above path) =
        some (linkOf path', above path') ∧
      At t path' .nil L ∧ (∀ x ∈ before path', later x = false) ∧
      ∀ x ∈ after path', later x = true := by
  induction turns generalizing u path with
  | zero => omega
  | succ turns ih =>
    rw [TimerTree.descend, load_linkOf h.way]
    cases u with
    | nil => exact ⟨path, rfl, h, hbefore, hafter⟩
    | node c l x r =>
      have hat : At t path (fork .left c l x r) L := h
      have horder := hat.order
      rw [inorder_plug] at horder
      have hparts := hsorted
      rw [← horder] at hparts
      simp only [fork, ColorTree.inorder, List.pairwise_append, List.pairwise_cons, List.mem_append,
        List.mem_cons] at hparts
      obtain ⟨⟨-, ⟨-, ⟨hr, -⟩, hlx⟩, -⟩, -, -⟩ := hparts
      rw [ColorTree.height] at hturns
      show ∃ path', TimerTree.descend later t turns _ (some x) = _ ∧ _
      by_cases hx : later x = true
      · have hleft : At t (⟨.left, c, x, r⟩ :: path) l L := at_fork.mp hat
        rw [if_pos hx]
        refine ih hleft (by omega) hbefore fun y hy => ?_
        simp only [after, List.cons_append, List.mem_cons, List.mem_append] at hy
        rcases hy with rfl | hy | hy
        · exact hx
        · exact hr y hy hx
        · exact hafter y hy
      · have hright : At t (⟨.right, c, x, l⟩ :: path) r L := at_fork.mp hat.flip
        rw [if_neg hx]
        refine ih hright (by omega) (fun y hy => ?_) hafter
        simp only [before, List.mem_append, List.mem_singleton] at hy
        rcases hy with (hy | hy) | rfl
        · exact hbefore y hy
        · exact Bool.eq_false_iff.mpr fun hly => hx (hlx y hy x (.inl rfl) hly)
        · exact Bool.eq_false_iff.mpr hx

/-- The order of the nodes with a new one in front of the later ones. -/
theorem insert_eq_insertWhere {n : ℕ} (h : At t path .nil L)
    (hbefore : ∀ x ∈ before path, later x = false) (hafter : ∀ x ∈ after path, later x = true) :
    (linkOf path).insert n L = insertWhere later n L := by
  have hnd := h.nodup
  rw [← h.order] at hnd ⊢
  rw [insert_linkOf hnd, inorder_plug, ColorTree.inorder, List.append_nil,
    BinTree.insertWhere_right hbefore]
  cases hafter' : after path with
  | nil => rfl
  | cons x l =>
    have hx := hafter x (by simp [hafter'])
    rw [insertWhere, if_pos hx]

end RbTree

/-! ## The relation -/

/-- The fields beside the tree and the marks. -/
def TimerSet.bare (s : TimerSet) : TimerSet :=
  { s with tree := .leaf, timers := fun t => { s.timers t with linked := false } }

/-- The control blocks may be written on both sides, and the marks and the tree at will. -/
theorem TimerSet.bare_congr {s s' : TimerSet} (h : s.bare = s'.bare) {tm tm' : ℕ → TimerCtl}
    (ht : ∀ v, { tm v with linked := false } = { tm' v with linked := false })
    (tree tree' : BinTree ℕ) :
    { s with timers := tm, tree := tree }.bare = { s' with timers := tm', tree := tree' }.bare := by
  simp only [bare, TimerSet.mk.injEq] at h ⊢
  exact ⟨funext ht, h.2⟩

/-- A mark is not among them. -/
theorem TimerSet.bare_mark (s : TimerSet) (t : ℕ) (b : Bool) (tree : BinTree ℕ) :
    { s.updTimer t fun tm => { tm with linked := b } with tree := tree }.bare = s.bare := by
  refine TimerSet.bare_congr (rfl : s.bare = s.bare) (fun v => ?_) tree s.tree
  by_cases hv : v = t
  · subst hv
    simp
  · simp [hv]

/-- The timers on their tree and the timers. -/
structure TimerTree.Follows (n : ℕ) (p : TimerTree) (s : TimerSet) : Prop where
  bare : p.set.bare = s.bare
  tree : ∃ u, p.mem.At [] u s.tree.inorder ∧ IsRedBlack u
  empty : ∀ t, (s.timers t).callback = true → (s.timers t).linked = false →
    p.mem.rbEmptyNode t = true
  armed : ∀ t ∈ s.tree.inorder, (s.timers t).callback = true ∧ t < n

namespace TimerTree

variable {n t l : ℕ} {p p' : TimerTree} {s s' : TimerSet} {rb : Balancing ℕ} {cfg : Config}

/-- A step beside the tree. -/
theorem Follows.of_same (h : Follows n p s) (hbare : p'.set.bare = s'.bare) (hmem : p'.mem = p.mem)
    (htree : s'.tree = s.tree) (htimers : s'.timers = s.timers) : Follows n p' s' := by
  refine ⟨hbare, ?_, ?_, ?_⟩
  · rw [hmem, htree]
    exact h.tree
  · rw [hmem, htimers]
    exact h.empty
  · rw [htree, htimers]
    exact h.armed

/-- The control blocks agree but for the marks. -/
theorem Follows.timer (h : Follows n p s) (t : ℕ) :
    { p.set.timers t with linked := false } = { s.timers t with linked := false } :=
  congrFun (congrArg TimerSet.timers h.bare) t

/-- The deadlines are the same on both sides. -/
theorem Follows.expireTime (h : Follows n p s) (t : ℕ) :
    (p.set.timers t).expireTime = (s.timers t).expireTime :=
  (congrArg TimerCtl.expireTime (h.timer t) :)

/-- The timeouts are the same on both sides. -/
theorem Follows.timeout (h : Follows n p s) (t : ℕ) :
    (p.set.timers t).timeout = (s.timers t).timeout :=
  (congrArg TimerCtl.timeout (h.timer t) :)

/-- The callbacks are the same on both sides. -/
theorem Follows.callback (h : Follows n p s) (t : ℕ) :
    (p.set.timers t).callback = (s.timers t).callback :=
  (congrArg TimerCtl.callback (h.timer t) :)

/-- What is periodic is so on both sides. -/
theorem Follows.periodic (h : Follows n p s) (t : ℕ) :
    (p.set.timers t).periodic = (s.timers t).periodic :=
  (congrArg TimerCtl.periodic (h.timer t) :)

/-- The loops get turns enough. -/
theorem Follows.turns_le (h : Follows n p s) (hs : s.TreeOk) :
    2 * (s.tree.inorder.length + 1).log2 < rbTurns n := by
  have hlen : s.tree.inorder.length ≤ n := by
    have hsub : s.tree.inorder ⊆ List.range n :=
      fun t ht => List.mem_range.mpr (h.armed t ht).2
    simpa using (hs.once.subperm hsub).length_le
  have hlog : (s.tree.inorder.length + 1).log2 ≤ (n + 1).log2 := by
    rw [Nat.le_log2 (by omega)]
    have hpow := Nat.log2_self_le (n := s.tree.inorder.length + 1) (by omega)
    omega
  unfold rbTurns
  omega

/-- The mark of an initialised timer is read from its node. -/
theorem Follows.rbEmptyNode_eq (h : Follows n p s) (hs : s.TreeOk)
    (hcb : (s.timers t).callback = true) : p.mem.rbEmptyNode t = !(s.timers t).linked := by
  cases hl : (s.timers t).linked with
  | false => exact h.empty t hcb hl
  | true =>
    obtain ⟨u, hat, -⟩ := h.tree
    obtain ⟨path, c, a, b, -, hplace⟩ := hat.toPlace .left ((hs.linked t).mp hl)
    exact decide_eq_false hplace.rbParent_ne

/-- The leftmost timer. -/
theorem Follows.leftmost (h : Follows n p s) (hs : s.TreeOk) :
    getLeftmostTimer (rbTurns n) p = some (TimerSet.getLeftmostTimer s) := by
  obtain ⟨u, hat, hrb⟩ := h.tree
  have hheight : u.height ≤ rbTurns n := by
    have hturns := h.turns_le hs
    have hle := hrb.height_le
    have horder : u.inorder = s.tree.inorder := hat.order
    rw [horder] at hle
    omega
  rw [TimerSet.leftmost_eq]
  exact RbTree.rbEnd_eq hat hheight

/-- A timer is linked in. -/
theorem Follows.nodeInsert (h : Follows n p s) (hs : s.TreeOk) (rb : Balancing ℕ) (ht : t < n)
    (hcb : (s.timers t).callback = true) (hout : (s.timers t).linked = false) :
    ∃ p', timerNodeInsert (rbTurns n) t p = some p' ∧ p'.set = p.set ∧
      Follows n p' (TimerSet.timerNodeInsert rb t s) := by
  obtain ⟨u, hat, hrb⟩ := h.tree
  have hturns := h.turns_le hs
  have hmem := hs.not_mem hout
  let later := fun v => decide ((p.set.timers t).expireTime < (p.set.timers v).expireTime)
  have hlater : later = fun v => decide ((s.timers t).expireTime < (s.timers v).expireTime) := by
    funext v
    simp only [later, h.expireTime]
  have hsorted : s.tree.inorder.Pairwise fun x y => later x = true → later y = true := by
    refine hs.sorted.imp fun hle hx => ?_
    rw [hlater, decide_eq_true_eq] at hx ⊢
    exact Nat.lt_of_lt_of_le hx hle
  have hheight : u.height < rbTurns n := by
    have hle := hrb.height_le
    have horder : u.inorder = s.tree.inorder := hat.order
    rw [horder] at hle
    omega
  obtain ⟨path, hrun, hplace, hbefore, hafter⟩ :=
    hat.descend hheight hsorted (by simp [before]) (by simp [after])
  have hin : ∀ q, (RbTree.linkOf path).parent = some q → q ∈ s.tree.inorder := by
    intro q hq
    rw [RbTree.parent_linkOf] at hq
    exact hplace.above_mem hq
  obtain ⟨mem, w, hcall, hat', hrb', hsame⟩ := RbTree.link_spec hat hrb hmem hin
    (RbTree.load_linkOf hplace.way) hturns
  rw [RbTree.parent_linkOf] at hcall
  have horder : (RbTree.linkOf path).insert t s.tree.inorder =
      (TimerSet.timerNodeInsert rb t s).tree.inorder := by
    rw [TimerSet.inorder_nodeInsert hs, RbTree.insert_eq_insertWhere hplace hbefore hafter, hlater]
  refine ⟨{ p with mem }, ?_, rfl, ?_, ⟨w, horder ▸ hat', hrb'⟩, fun v hv hvl => ?_, fun v hv => ?_⟩
  · have hdescend : descend (fun v => decide ((p.set.timers t).expireTime <
        (p.set.timers v).expireTime)) p.mem (rbTurns n) .root none =
        some (RbTree.linkOf path, RbTree.above path) := hrun
    simp only [timerNodeInsert, hdescend, Option.bind_eq_bind, Option.bind_some, hcall,
      Option.pure_def]
  · exact h.bare.trans (TimerSet.bare_mark s t true _).symm
  · have hvt : v ≠ t := by
      rintro rfl
      simp [TimerSet.timerNodeInsert] at hvl
    have hv' : (s.timers v).callback = true := by simpa [TimerSet.timerNodeInsert, hvt] using hv
    have hvl' : (s.timers v).linked = false := by simpa [TimerSet.timerNodeInsert, hvt] using hvl
    have hnode : mem.node v = p.mem.node v :=
      hsame v fun hm => (List.mem_cons.mp hm).elim hvt (hs.not_mem hvl')
    exact (RbTree.rbEmptyNode_congr _ _ hnode).trans (h.empty v hv' hvl')
  · rw [TimerSet.inorder_nodeInsert hs, Intrusive.mem_insertWhere] at hv
    by_cases hvt : v = t
    · subst hvt
      exact ⟨by simpa [TimerSet.timerNodeInsert] using hcb, ht⟩
    · have harmed := h.armed v (hv.resolve_left hvt)
      exact ⟨by simpa [TimerSet.timerNodeInsert, hvt] using harmed.1, harmed.2⟩

/-- A timer is taken out. -/
theorem Follows.nodeErase (h : Follows n p s) (hs : s.TreeOk) (rb : Balancing ℕ)
    (hin : (s.timers t).linked = true) : ∃ p', timerErase (rbTurns n) t p = some p' ∧
      p'.set = p.set ∧ Follows n p' (TimerSet.timerErase rb t s) := by
  obtain ⟨u, hat, hrb⟩ := h.tree
  obtain ⟨mem, w, hcall, hat', hrb', hsame⟩ :=
    RbTree.erase_spec hat hrb ((hs.linked t).mp hin) (h.turns_le hs)
  have horder : (TimerSet.timerErase rb t s).tree.inorder = s.tree.inorder.erase t :=
    rb.inorder_erase t _ hs.once
  have hout : t ∉ s.tree.inorder.erase t := by simp [hs.once.mem_erase_iff]
  have hclear : (mem.rbClearNode t).At [] w (s.tree.inorder.erase t) := by
    refine ⟨hat'.here.congr fun z hz => ?_, hat'.way, hat'.order, hat'.nodup⟩
    refine RbTree.rbSetParent_node_of_ne _ _ _ ?_
    rintro rfl
    exact hout (hat'.order ▸ hz)
  refine ⟨{ p with mem := mem.rbClearNode t }, ?_, rfl, ?_, ⟨w, horder ▸ hclear, hrb'⟩,
    fun v hv hvl => ?_, fun v hv => ?_⟩
  · simp only [timerErase, hcall, Option.bind_eq_bind, Option.bind_some, Option.pure_def]
  · exact h.bare.trans (TimerSet.bare_mark s t false _).symm
  · by_cases hvt : v = t
    · subst hvt
      simp [RbTree.rbEmptyNode, RbTree.rbParent, RbTree.rbClearNode]
    · have hv' : (s.timers v).callback = true := by simpa [TimerSet.timerErase, hvt] using hv
      have hvl' : (s.timers v).linked = false := by simpa [TimerSet.timerErase, hvt] using hvl
      have hnode : (mem.rbClearNode t).node v = p.mem.node v :=
        (RbTree.rbSetParent_node_of_ne _ _ _ hvt).trans (hsame v (hs.not_mem hvl'))
      exact (RbTree.rbEmptyNode_congr _ _ hnode).trans (h.empty v hv' hvl')
  · rw [horder] at hv
    have harmed := h.armed v (List.mem_of_mem_erase hv)
    have hvt : v ≠ t := ne_of_mem_of_not_mem hv hout
    exact ⟨by simpa [TimerSet.timerErase, hvt] using harmed.1, harmed.2⟩

/-! ## The hardware -/

/-- A call of the hardware, which does not look at the tree. -/
theorem Follows.hw (h : Follows n p s) {f : TimerSet → TimerSet}
    (hbare : ∀ s, (f s).bare = f s.bare) (hoff : ∀ s, (f s).offHw = s.offHw) :
    Follows n (p.hw f) (f s) := by
  refine h.of_same ?_ rfl (TimerSet.tree_of_offHw (hoff s)) (TimerSet.timers_of_offHw (hoff s))
  show (f p.set).bare = (f s).bare
  rw [hbare, hbare, h.bare]

/-- The clock does not look at the tree. -/
theorem bare_moveClock (k : ℕ) (s : TimerSet) :
    (TimerSet.moveClock k s).bare = TimerSet.moveClock k s.bare := by
  unfold TimerSet.moveClock
  rw [apply_ite TimerSet.bare]
  rfl

/-- A call of the hardware does not look at the tree. -/
theorem bare_hwCall (s : TimerSet) : (TimerSet.hwCall s).bare = TimerSet.hwCall s.bare :=
  bare_moveClock _ _

/-- Setting the alarm does not look at the tree. -/
theorem bare_setExpire (e : ℕ) (s : TimerSet) :
    (TimerSet.ndHwHrtimerSetExpire e s).bare = TimerSet.ndHwHrtimerSetExpire e s.bare := by
  unfold TimerSet.ndHwHrtimerSetExpire
  rw [← bare_hwCall, apply_ite TimerSet.bare]
  rfl

/-- Triggering the interrupt does not look at the tree. -/
theorem bare_trigger (s : TimerSet) :
    (TimerSet.ndHwHrtimerTrigger s).bare = TimerSet.ndHwHrtimerTrigger s.bare := by
  unfold TimerSet.ndHwHrtimerTrigger
  rw [← bare_hwCall]
  rfl

/-- Clearing the trigger does not look at the tree. -/
theorem bare_triggerClear (s : TimerSet) :
    (TimerSet.ndHwHrtimerTriggerClear s).bare = TimerSet.ndHwHrtimerTriggerClear s.bare := by
  unfold TimerSet.ndHwHrtimerTriggerClear
  rw [← bare_hwCall]
  rfl

/-- Arming a timer does not look at the tree. -/
theorem bare_armLeftmost (l : ℕ) (s : TimerSet) :
    (TimerSet.armLeftmost l s).bare = TimerSet.armLeftmost l s.bare := by
  unfold TimerSet.armLeftmost TimerSet.ndHwGetCurrent
  simp only [← bare_setExpire, ← bare_hwCall, ← bare_trigger]
  rw [apply_ite TimerSet.bare]
  rfl

/-- Both sides set the alarm. -/
theorem Follows.setExpire (h : Follows n p s) (e : ℕ) :
    Follows n (p.hw (TimerSet.ndHwHrtimerSetExpire e)) (TimerSet.ndHwHrtimerSetExpire e s) :=
  h.hw (bare_setExpire e) (TimerSet.setExpire_offHw e)

/-- Both sides trigger the interrupt. -/
theorem Follows.trigger (h : Follows n p s) :
    Follows n (p.hw TimerSet.ndHwHrtimerTrigger) (TimerSet.ndHwHrtimerTrigger s) :=
  h.hw bare_trigger TimerSet.trigger_offHw

/-- Both sides clear the trigger. -/
theorem Follows.triggerClear (h : Follows n p s) :
    Follows n (p.hw TimerSet.ndHwHrtimerTriggerClear) (TimerSet.ndHwHrtimerTriggerClear s) :=
  h.hw bare_triggerClear TimerSet.triggerClear_offHw

/-- Both sides arm a timer. -/
theorem Follows.armLeftmost (h : Follows n p s) (l : ℕ) :
    Follows n (p.hw (TimerSet.armLeftmost l)) (TimerSet.armLeftmost l s) :=
  h.hw (bare_armLeftmost l) (TimerSet.armLeftmost_offHw l)

/-- The clock is read. -/
theorem Follows.getCurrent (h : Follows n p s) :
    (TimerSet.ndHwGetCurrent p.set).1 = (TimerSet.ndHwGetCurrent s).1 ∧
      Follows n (p.hw fun s => (TimerSet.ndHwGetCurrent s).2) (TimerSet.ndHwGetCurrent s).2 := by
  refine ⟨?_, h.hw bare_hwCall TimerSet.getCurrent_offHw⟩
  have hclock := congrArg (fun s => (TimerSet.hwCall s).clock) h.bare
  simp only [← bare_hwCall] at hclock
  exact hclock

/-- A control block is written, but for the mark. -/
theorem Follows.updTimer (h : Follows n p s) (t : ℕ) {f : TimerCtl → TimerCtl}
    (hf : ∀ tm b, f { tm with linked := b } = { f tm with linked := b })
    (hcb : ∀ tm, (f tm).callback = tm.callback) : Follows n (p.updTimer t f) (s.updTimer t f) := by
  have hlinked : ∀ tm, (f tm).linked = tm.linked := fun tm => by
    rw [show f tm = { f tm with linked := tm.linked } from hf tm tm.linked]
  have htimer : ∀ v, ((s.updTimer t f).timers v).callback = (s.timers v).callback ∧
      ((s.updTimer t f).timers v).linked = (s.timers v).linked := by
    intro v
    by_cases hv : v = t
    · subst hv
      simp [hcb, hlinked]
    · simp [hv]
  refine ⟨?_, h.tree, fun v hv hvl => ?_, fun v hv => ?_⟩
  · refine TimerSet.bare_congr h.bare (fun v => ?_) p.set.tree s.tree
    by_cases hv : v = t
    · subst hv
      simp only [Function.update_self, ← hf, h.timer]
    · simpa [hv] using h.timer v
  · exact h.empty v ((htimer v).1 ▸ hv) ((htimer v).2 ▸ hvl)
  · exact ⟨(htimer v).1.trans (h.armed v hv).1, (h.armed v hv).2⟩

/-! ## The functions -/

/-- `timer_insert` on the pointers ends, and puts the timer where the sequence has it. -/
theorem Follows.insert (h : Follows n p s) (hs : s.TreeOk) (rb : Balancing ℕ) (cfg : Config)
    (ht : t < n) (hcb : (s.timers t).callback = true) (hout : (s.timers t).linked = false) :
    ∃ p', timerInsert (rbTurns n) cfg t p = some p' ∧
      Follows n p' (TimerSet.timerInsert rb cfg t s) := by
  unfold timerInsert TimerSet.timerInsert
  by_cases hc : cfg.tickless = true
  · rw [if_pos hc, if_pos hc]
    obtain ⟨hnow, h₁⟩ := h.getCurrent
    have hs₁ : (TimerSet.ndHwGetCurrent s).2.TreeOk :=
      TimerSet.TreeOk.of_offHw (TimerSet.getCurrent_offHw s) hs
    have htm : (TimerSet.ndHwGetCurrent s).2.timers = s.timers :=
      TimerSet.timers_of_offHw (TimerSet.getCurrent_offHw s)
    rw [← htm] at hcb hout
    simp only [hnow]
    generalize (TimerSet.ndHwGetCurrent s).1 = now
    have h₂ := h₁.updTimer t (f := fun tm =>
      { tm with expireTime := TimerSet.deadline tm.timeout now }) (fun _ _ => rfl) fun _ => rfl
    have hs₂ := hs₁.update (t := t) (f := fun tm =>
      { tm with expireTime := TimerSet.deadline tm.timeout now }) hout hout
    obtain ⟨p₃, hrun, -, h₃⟩ := h₂.nodeInsert hs₂ rb ht (by simpa using hcb) (by simpa using hout)
    have hs₃ : (TimerSet.timerNodeInsert rb t _).TreeOk := hs₂.nodeInsert (by simpa using hout)
    generalize TimerSet.timerNodeInsert rb t _ = s₃ at h₃ hs₃ ⊢
    simp only [hrun, Option.bind_eq_bind, Option.bind_some, h₃.leftmost hs₃]
    cases TimerSet.getLeftmostTimer s₃ with
    | none => exact ⟨p₃, rfl, h₃⟩
    | some l =>
      have h₄ : Follows n
          (if l = t then p₃.hw (TimerSet.ndHwHrtimerSetExpire (p₃.set.timers l).expireTime) else p₃)
          (if l = t then TimerSet.ndHwHrtimerSetExpire (s₃.timers l).expireTime s₃ else s₃) := by
        rw [h₃.expireTime]
        split
        · exact h₃.setExpire _
        · exact h₃
      have hkey : ((if l = t then TimerSet.ndHwHrtimerSetExpire (s₃.timers l).expireTime s₃
          else s₃).timers l).expireTime = (s₃.timers l).expireTime := by
        split
        · rw [TimerSet.timers_of_offHw (TimerSet.setExpire_offHw _ s₃)]
        · rfl
      refine ⟨_, rfl, ?_⟩
      simp only [hkey]
      rw [h₃.expireTime] at h₄ ⊢
      split
      · exact h₄.trigger
      · exact h₄
  · rw [if_neg hc, if_neg hc]
    obtain ⟨p', hrun, -, h'⟩ := h.nodeInsert hs rb ht hcb hout
    exact ⟨p', hrun, h'⟩

/-- `timer_remove` on the pointers ends, and takes the timer out. -/
theorem Follows.remove (h : Follows n p s) (hs : s.TreeOk) (rb : Balancing ℕ) (cfg : Config)
    (hcb : (s.timers t).callback = true) : ∃ p', timerRemove (rbTurns n) cfg t p = some p' ∧
      Follows n p' (TimerSet.timerRemove rb cfg t s) := by
  have hempty := h.rbEmptyNode_eq hs hcb
  unfold timerRemove TimerSet.timerRemove
  cases hin : (s.timers t).linked with
  | false =>
    rw [hin, Bool.not_false] at hempty
    rw [if_pos hempty, if_pos rfl]
    exact ⟨p, rfl, h⟩
  | true =>
    rw [hin, Bool.not_true] at hempty
    have hnode : ¬p.mem.rbEmptyNode t = true := by simp [hempty]
    rw [if_neg hnode, if_neg (show ¬true = false by decide)]
    obtain ⟨p₁, hrun, -, h₁⟩ := h.nodeErase hs rb hin
    have hs₁ : (TimerSet.timerErase rb t s).TreeOk := hs.erase t
    by_cases hc : cfg.tickless = true
    · rw [if_pos hc, if_pos hc]
      simp only [hrun, h.leftmost hs, Option.bind_eq_bind, Option.bind_some]
      by_cases hl : TimerSet.getLeftmostTimer s = some t
      · rw [if_pos hl, if_pos hl]
        simp only [h₁.leftmost hs₁, Option.bind_some]
        cases TimerSet.getLeftmostTimer (TimerSet.timerErase rb t s) with
        | none => exact ⟨_, rfl, h₁.triggerClear⟩
        | some l => exact ⟨_, rfl, h₁.armLeftmost l⟩
      · rw [if_neg hl, if_neg hl]
        cases hfirst : TimerSet.getLeftmostTimer s with
        | none =>
          -- the tree is not empty
          rw [TimerSet.leftmost_eq, List.head?_eq_none_iff] at hfirst
          have hmem := (hs.linked t).mp hin
          rw [hfirst] at hmem
          cases hmem
        | some l =>
          obtain ⟨hnow, h₂⟩ := h₁.getCurrent
          refine ⟨_, rfl, ?_⟩
          simp only [hnow]
          rw [h₂.expireTime]
          split
          · exact h₂.trigger
          · exact h₂
    · rw [if_neg hc, if_neg hc]
      exact ⟨p₁, hrun, h₁⟩

/-! ## The calls -/

/-- A step that writes neither control blocks nor the tree. -/
theorem Follows.note (h : Follows n p s) {f : TimerSet → TimerSet}
    (hbare : ∀ s, (f s).bare = f s.bare) (htree : ∀ s, (f s).tree = s.tree)
    (htimers : ∀ s, (f s).timers = s.timers) : Follows n (p.hw f) (f s) := by
  refine h.of_same ?_ rfl (htree s) (htimers s)
  show (f p.set).bare = (f s).bare
  rw [hbare, hbare, h.bare]

/-- Both sides note an event. -/
theorem Follows.emit (h : Follows n p s) (e : TimerEvent) : Follows n (p.emit e) (s.emit e) :=
  h.note (f := fun s => s.emit e) (fun _ => rfl) (fun _ => rfl) fun _ => rfl

/-- Both sides go on to a phase. -/
theorem Follows.phase (h : Follows n p s) (ph : Phase) :
    Follows n (p.hw ({ · with phase := ph })) { s with phase := ph } :=
  h.note (f := fun s => { s with phase := ph }) (fun _ => rfl) (fun _ => rfl) fun _ => rfl

/-- `nd_timer_init` on both sides. -/
theorem Follows.init (h : Follows n p s) (hs : s.TreeOk) (periodic callback : Bool) (timeout : ℕ)
    (hout : (s.timers t).linked = false) :
    Follows n (ndTimerInit t periodic timeout callback p)
      (TimerSet.ndTimerInit t periodic timeout callback s) := by
  unfold ndTimerInit TimerSet.ndTimerInit
  by_cases hcb : callback = false
  · rw [if_pos hcb, if_pos hcb]
    exact h
  · by_cases ht : timeout = 0
    · rw [if_neg hcb, if_neg hcb, if_pos ht, if_pos ht]
      exact h
    · rw [if_neg hcb, if_neg hcb, if_neg ht, if_neg ht]
      have hmem := hs.not_mem hout
      obtain ⟨u, hat, hrb⟩ := h.tree
      refine ⟨?_, ⟨u, ⟨hat.here.congr fun z hz => ?_, hat.way, hat.order, hat.nodup⟩, hrb⟩,
        fun v hv hvl => ?_, fun v hv => ?_⟩
      · refine TimerSet.bare_congr h.bare (fun v => ?_) p.set.tree s.tree
        by_cases hv : v = t
        · subst hv
          simp [h.expireTime]
        · simpa [hv] using h.timer v
      · refine RbTree.rbSetParent_node_of_ne _ _ _ ?_
        rintro rfl
        exact hmem (hat.order ▸ hz)
      · by_cases hvt : v = t
        · subst hvt
          simp [RbTree.rbEmptyNode, RbTree.rbParent, RbTree.rbClearNode]
        · have hempty := h.empty v (by simpa [hvt] using hv) (by simpa [hvt] using hvl)
          have hnode := RbTree.rbSetParent_node_of_ne p.mem t (some t) hvt
          exact (RbTree.rbEmptyNode_congr _ _ hnode).trans hempty
      · have hvt : v ≠ t := ne_of_mem_of_not_mem hv hmem
        have harmed := h.armed v hv
        exact ⟨by simpa [hvt] using harmed.1, harmed.2⟩

/-- `nd_timer_start` on the pointers ends, and follows the one on the sequence. -/
theorem Follows.start (h : Follows n p s) (hs : s.TreeOk) (rb : Balancing ℕ) (cfg : Config)
    (ht : t < n) (hcb : (s.timers t).callback = true) :
    ∃ p', ndTimerStart (rbTurns n) cfg t p = some p' ∧
      Follows n p' (TimerSet.ndTimerStart rb cfg t s) := by
  -- the timer is taken out of the tree when it is in
  have hremove : ∃ p₁, (if p.mem.rbEmptyNode t then some p else
      timerRemove (rbTurns n) cfg t p) = some p₁ ∧
      Follows n p₁ (if (s.timers t).linked then TimerSet.timerRemove rb cfg t s else s) := by
    rw [h.rbEmptyNode_eq hs hcb]
    cases hin : (s.timers t).linked with
    | false => exact ⟨p, rfl, h⟩
    | true => exact h.remove hs rb cfg hcb
  have hbase : (if (s.timers t).linked then TimerSet.timerRemove rb cfg t s else s).offHw =
      (TimerSet.unlink rb t s).offHw := by
    split
    · exact TimerSet.timerRemove_offHw rb cfg hs t
    · rename_i hl
      unfold TimerSet.unlink
      rw [if_neg hl]
  have hs₁ := TimerSet.TreeOk.of_offHw hbase (hs.unlink rb t)
  have htm := TimerSet.timers_of_offHw hbase
  have hout := TimerSet.unlink_linked rb t s
  rw [← htm] at hout
  obtain ⟨p₁, hrun₁, h₁⟩ := hremove
  have hgo : ¬(s.timers t).callback = false := by simp [hcb]
  unfold ndTimerStart TimerSet.ndTimerStart
  rw [h.callback, if_neg hgo, if_neg hgo]
  simp only [hrun₁, Option.bind_eq_bind, Option.bind_some]
  have hcb₁ : ((if (s.timers t).linked then TimerSet.timerRemove rb cfg t s else s).timers
      t).callback = true := by
    rw [htm]
    unfold TimerSet.unlink
    split
    · simpa [TimerSet.timerErase] using hcb
    · exact hcb
  generalize (if (s.timers t).linked then TimerSet.timerRemove rb cfg t s else s) = s₁
    at h₁ hs₁ hout hcb₁ ⊢
  by_cases hc : cfg.tickless = true
  · simp only [if_pos hc]
    obtain ⟨p', hrun, h'⟩ := h₁.insert hs₁ rb cfg ht hcb₁ hout
    exact ⟨_, by rw [hrun]; rfl, h'.emit _⟩
  · simp only [if_neg hc]
    obtain ⟨hnow, h₂⟩ := h₁.getCurrent
    have hs₂ : (TimerSet.ndHwGetCurrent s₁).2.TreeOk :=
      TimerSet.TreeOk.of_offHw (TimerSet.getCurrent_offHw s₁) hs₁
    have htm₂ : (TimerSet.ndHwGetCurrent s₁).2.timers = s₁.timers :=
      TimerSet.timers_of_offHw (TimerSet.getCurrent_offHw s₁)
    rw [← htm₂] at hcb₁ hout
    simp only [hnow]
    generalize (TimerSet.ndHwGetCurrent s₁).1 = now
    have h₃ := h₂.updTimer t (f := fun tm =>
      { tm with expireTime := (now + tm.timeout) % u64Size }) (fun _ _ => rfl) fun _ => rfl
    have hs₃ := hs₂.update (t := t) (f := fun tm =>
      { tm with expireTime := (now + tm.timeout) % u64Size }) hout hout
    obtain ⟨p', hrun, h'⟩ := h₃.insert hs₃ rb cfg ht (by simpa using hcb₁) (by simpa using hout)
    exact ⟨_, by rw [hrun]; rfl, h'.emit _⟩

/-- `nd_timer_stop` on the pointers ends, and follows the one on the sequence. -/
theorem Follows.stop (h : Follows n p s) (hs : s.TreeOk) (rb : Balancing ℕ) (cfg : Config)
    (hcb : (s.timers t).callback = true) : ∃ p', ndTimerStop (rbTurns n) cfg t p = some p' ∧
      Follows n p' (TimerSet.ndTimerStop rb cfg t s) := by
  obtain ⟨p', hrun, h'⟩ := h.remove hs rb cfg hcb
  refine ⟨p'.emit (.stopped t), ?_, h'.emit _⟩
  simp only [ndTimerStop, hrun, Option.bind_eq_bind, Option.bind_some, Option.pure_def]

/-- A turn that finds a timer: it is taken out, and linked in again when it is periodic. -/
theorem Follows.expire (h : Follows n p s) (hs : s.TreeOk) (rb : Balancing ℕ) (now : ℕ)
    (hin : (s.timers l).linked = true) : ∃ p', expireLeftmost (rbTurns n) l now p = some p' ∧
      Follows n p' (TimerSet.expireLeftmost rb l now s) := by
  obtain ⟨p₁, hrun₁, hset₁, h₁⟩ := h.nodeErase hs rb hin
  have hs₁ : (TimerSet.timerErase rb l s).TreeOk := hs.erase l
  have hout : ((TimerSet.timerErase rb l s).timers l).linked = false := by
    simp [TimerSet.timerErase]
  have harmed := h.armed l ((hs.linked l).mp hin)
  have hcb₁ : ((TimerSet.timerErase rb l s).timers l).callback = true := by
    simpa [TimerSet.timerErase] using harmed.1
  have hrearm : ∃ p₂, (if (p₁.set.timers l).periodic then
      timerNodeInsert (rbTurns n) l (p₁.updTimer l fun tm =>
        { tm with expireTime := (tm.expireTime + tm.timeout) % u64Size })
      else some p₁) = some p₂ ∧ Follows n p₂ (TimerSet.rearm rb l s) := by
    have hper : (p₁.set.timers l).periodic = (s.timers l).periodic := by
      rw [hset₁, h.periodic]
    unfold TimerSet.rearm
    rw [hper]
    by_cases hp : (s.timers l).periodic = true
    · rw [if_pos hp, if_pos hp]
      have h₂ := h₁.updTimer l (f := fun tm =>
        { tm with expireTime := (tm.expireTime + tm.timeout) % u64Size }) (fun _ _ => rfl)
          fun _ => rfl
      have hs₂ := hs₁.update (t := l) (f := fun tm =>
        { tm with expireTime := (tm.expireTime + tm.timeout) % u64Size }) hout hout
      obtain ⟨p₂, hrun₂, -, h₃⟩ :=
        h₂.nodeInsert hs₂ rb harmed.2 (by simpa using hcb₁) (by simpa using hout)
      exact ⟨p₂, hrun₂, h₃⟩
    · rw [if_neg hp, if_neg hp]
      exact ⟨p₁, rfl, h₁⟩
  obtain ⟨p₂, hrun₂, h₂⟩ := hrearm
  have hcb₂ : (p₂.set.timers l).callback = true := by
    rw [h₂.callback]
    unfold TimerSet.rearm
    split
    · simpa [TimerSet.timerNodeInsert, TimerSet.timerErase] using harmed.1
    · exact hcb₁
  refine ⟨(p₂.emit (.fired l (p.set.timers l).expireTime now)).hw ({ · with phase := .callback }),
    ?_, ?_⟩
  · simp only [TimerTree.expireLeftmost, hrun₁, hrun₂, Option.bind_eq_bind, Option.bind_some,
      if_pos hcb₂, Option.pure_def]
  · rw [TimerSet.expireLeftmost_eq, if_pos harmed.1, h.expireTime]
    exact (h₂.emit _).phase .callback

/-- A turn of `timer_expired` on the pointers ends, and follows the one on the sequence. -/
theorem Follows.turn (h : Follows n p s) (hs : s.TreeOk) (rb : Balancing ℕ) (cfg : Config) :
    ∃ p', timerExpired (rbTurns n) cfg p = some p' ∧
      Follows n p' (TimerSet.timerExpired rb cfg s) := by
  unfold timerExpired TimerSet.timerExpired
  simp only [h.leftmost hs, Option.bind_eq_bind, Option.bind_some]
  cases hl : TimerSet.getLeftmostTimer s with
  | none =>
    refine ⟨_, rfl, ?_⟩
    show Follows n _ { (if cfg.tickless then TimerSet.ndHwHrtimerTriggerClear s else s) with
      phase := .idle }
    split
    · exact h.triggerClear.phase .idle
    · exact h.phase .idle
  | some l =>
    obtain ⟨hnow, h₁⟩ := h.getCurrent
    have hs₁ : (TimerSet.ndHwGetCurrent s).2.TreeOk :=
      TimerSet.TreeOk.of_offHw (TimerSet.getCurrent_offHw s) hs
    have htm : (TimerSet.ndHwGetCurrent s).2.timers = s.timers :=
      TimerSet.timers_of_offHw (TimerSet.getCurrent_offHw s)
    simp only [hnow]
    rw [h₁.expireTime]
    by_cases hlt : (TimerSet.ndHwGetCurrent s).1 <
        ((TimerSet.ndHwGetCurrent s).2.timers l).expireTime
    · rw [if_pos hlt, if_pos hlt]
      refine ⟨_, rfl, ?_⟩
      show Follows n _ { (if cfg.tickless then TimerSet.armLeftmost l (TimerSet.ndHwGetCurrent s).2
        else (TimerSet.ndHwGetCurrent s).2) with phase := .idle }
      split
      · exact (h₁.armLeftmost l).phase .idle
      · exact h₁.phase .idle
    · rw [if_neg hlt, if_neg hlt]
      refine h₁.expire hs₁ rb _ ?_
      rw [htm]
      exact hs.leftmost_linked hl

/-! ## Every run -/

/-- A call during which the clock moves. -/
theorem Follows.during {f : TimerTree → Option TimerTree}
    {g : TimerSet → TimerSet} (moves : List ℕ)
    (hf : ∃ p', f (p.hw ({ · with moves })) = some p' ∧ Follows n p' (g { s with moves })) :
    ∃ p', TimerTree.during moves f p = some p' ∧ Follows n p' (TimerSet.during moves g s) := by
  obtain ⟨p', hrun, h'⟩ := hf
  refine ⟨p'.hw ({ · with moves := [] }), ?_, ?_⟩
  · rw [TimerTree.during, hrun]
    rfl
  · exact h'.note (f := fun s => { s with moves := [] }) (fun _ => rfl) (fun _ => rfl) fun _ => rfl

/-- Every action has a result, and keeps the relation. -/
theorem Follows.exec (h : Follows n p s) (hs : s.TreeOk) (rb : Balancing ℕ) (cfg : Config)
    {a : TimerAction} (ha : s.allowed a = true) (hn : a.timer.all (· < n) = true) :
    ∃ p', exec (rbTurns n) cfg a p = some p' ∧ Follows n p' (TimerSet.exec rb cfg a s) := by
  have hmoves : ∀ moves, Follows n (p.hw ({ · with moves })) { s with moves } := fun moves =>
    h.note (f := fun s => { s with moves }) (fun _ => rfl) (fun _ => rfl) fun _ => rfl
  have htree : ∀ moves, TimerSet.TreeOk { s with moves } :=
    fun _ => ⟨hs.linked, hs.once, hs.sorted⟩
  cases a with
  | init t periodic timeout callback =>
    have hout : (s.timers t).linked = false := by
      have hnot : (!(s.timers t).linked) = true := (Bool.and_eq_true .. ▸ ha).2
      simpa using hnot
    exact ⟨_, rfl, h.init hs periodic callback timeout hout⟩
  | retime t timeout =>
    exact ⟨_, rfl, h.updTimer t (f := fun tm => { tm with timeout }) (fun _ _ => rfl) fun _ => rfl⟩
  | start t moves =>
    have hcb : (s.timers t).callback = true := (Bool.and_eq_true .. ▸ ha).2
    have ht : t < n := by simpa [TimerAction.timer] using hn
    exact Follows.during moves ((hmoves moves).start (htree moves) rb cfg ht hcb)
  | stop t moves =>
    have hcb : (s.timers t).callback = true := (Bool.and_eq_true .. ▸ ha).2
    exact Follows.during moves ((hmoves moves).stop (htree moves) rb cfg hcb)
  | process =>
    exact ⟨_, rfl, h.note (f := TimerSet.ndTimerProcess) (fun _ => rfl) (fun _ => rfl) fun _ => rfl⟩
  | turn moves => exact Follows.during moves ((hmoves moves).turn (htree moves) rb cfg)
  | callbackReturns => exact ⟨_, rfl, h.phase .loop⟩
  | advance k => exact ⟨_, rfl, h.hw (bare_moveClock k) (TimerSet.moveClock_offHw k)⟩

/-- What is allowed on the tree is allowed. -/
theorem Follows.allowed (h : Follows n p s) (hs : s.TreeOk) {a : TimerAction}
    (ha : p.allowed a = true) : s.allowed a = true := by
  have hphase : p.set.phase = s.phase := (congrArg TimerSet.phase h.bare :)
  have hcall : p.set.callable = s.callable := by
    rw [TimerSet.callable, TimerSet.callable, hphase]
  cases a with
  | init t periodic timeout callback =>
    rw [TimerTree.allowed, hcall, h.callback, Bool.and_eq_true] at ha
    rw [TimerSet.allowed, Bool.and_eq_true]
    refine ⟨ha.1, ?_⟩
    cases hcb : (s.timers t).callback with
    | false =>
      have hmem : t ∉ s.tree.inorder := by
        intro hm
        rw [(h.armed t hm).1] at hcb
        cases hcb
      have hl := mt (hs.linked t).mp hmem
      simpa using hl
    | true =>
      have hempty := ha.2
      rw [hcb, h.rbEmptyNode_eq hs hcb] at hempty
      simpa using hempty
  | retime t timeout =>
    rw [TimerTree.allowed, hcall] at ha
    exact ha
  | start t moves =>
    rw [TimerTree.allowed, hcall, h.callback] at ha
    exact ha
  | stop t moves =>
    rw [TimerTree.allowed, hcall, h.callback] at ha
    exact ha
  | process =>
    rw [TimerTree.allowed, hphase] at ha
    exact ha
  | turn moves =>
    rw [TimerTree.allowed, hphase] at ha
    exact ha
  | callbackReturns =>
    rw [TimerTree.allowed, hphase] at ha
    exact ha
  | advance k => rfl

end TimerTree

/-- The timers on the tree, where every call had a result, beside timers that they follow. -/
def Beside (rb : Balancing ℕ) (cfg : Config) (n : ℕ) (p : Option TimerTree) (s : TimerSet) : Prop :=
  (timerMachine rb cfg).Reach Machine.Always s ∧ ∃ q, p = some q ∧ q.Follows n s

/-- One step: the same action is allowed for the timers, and they are followed again. -/
theorem Beside.step {rb : Balancing ℕ} {cfg : Config} {n : ℕ} {p : Option TimerTree} {s : TimerSet}
    {a : TimerAction} (h : Beside rb cfg n p s) (he : (timerTreeMachine n cfg).enabled p a) :
    (timerMachine rb cfg).enabled s a ∧
      Beside rb cfg n ((timerTreeMachine n cfg).next a p) ((timerMachine rb cfg).next a s) := by
  obtain ⟨hs, q, rfl, h⟩ := h
  obtain ⟨hn, ha, hclock⟩ := he
  have hok := (TimerSet.sound_reach hs).toTreeOk
  have hallowed := h.allowed hok ha
  obtain ⟨q', hrun, h'⟩ := h.exec hok rb cfg hallowed hn
  have hnext : (timerTreeMachine n cfg).next a (some q) = some q' := hrun
  have heq : q'.set.clock = (s.exec rb cfg a).clock := (congrArg TimerSet.clock h'.bare :)
  rw [Option.bind_some, hrun, Option.all_some, decide_eq_true_eq, heq] at hclock
  have henabled : (timerMachine rb cfg).enabled s a := ⟨hallowed, hclock⟩
  exact ⟨henabled, .step a hs henabled trivial, q', hnext, h'⟩

/-- The timers on their tree in memory do what the timers do: in every run each call has a result,
and the same actions, one after the other, are a run of the timers, from the same clock to the same
clock, alarm, callbacks and history, whose tree has the nodes in the order that they have in
memory. -/
theorem timer_tree_refines (rb : Balancing ℕ) (cfg : Config) (n : ℕ) {p₀ p : Option TimerTree}
    {l : List TimerAction} (h₀ : (timerTreeMachine n cfg).start p₀)
    (hrun : (timerTreeMachine n cfg).run l p₀ = some p) : ∃ q₀ s₀ q s,
      p₀ = some q₀ ∧ (timerMachine rb cfg).start s₀ ∧ q₀.Follows n s₀ ∧
      (timerMachine rb cfg).run l s₀ = some s ∧ p = some q ∧ q.Follows n s := by
  obtain ⟨node, k, hk, rfl⟩ := h₀
  have hstart : (timerMachine rb cfg).start { clock := k } := ⟨k, hk, rfl⟩
  have hfollows : TimerTree.Follows n
      { set := { clock := k }, mem := { node, rbNode := none } } { clock := k } := by
    refine ⟨rfl, ⟨.nil, ?_, 0, .nil⟩, ?_, ?_⟩
    · exact ⟨trivial, rfl, rfl, List.nodup_nil⟩
    · intro t hcb
      cases hcb
    · intro t ht
      cases ht
  obtain ⟨s, hrun', -, q, rfl, h⟩ := (timerTreeMachine n cfg).run_follows
    (R := Beside rb cfg n) (fun _ _ _ h he => h.step he) ⟨.start hstart, _, rfl, hfollows⟩ hrun
  exact ⟨_, _, q, s, rfl, hstart, hfollows, hrun', rfl, h⟩

/-- A periodic timer that stops itself, and another one. -/
theorem timer_tree_refines_run : ∃ p : Option TimerTree,
    (p.map fun q => q.set.log) = some [.stopped 0, .fired 0 5 8, .started 1, .started 0] ∧
    ∃ q₀ s₀ q s, (some { set := { clock := 0 }, mem := { node := fun _ => {}, rbNode := none } } :
        Option TimerTree) = some q₀ ∧
      (timerMachine SearchTree.unbalanced TimerSet.ticklessPort).start s₀ ∧ q₀.Follows 2 s₀ ∧
      (timerMachine SearchTree.unbalanced TimerSet.ticklessPort).run TimerSet.selfStop s₀ =
        some s ∧
      p = some q ∧ q.Follows 2 s := by
  obtain ⟨p, hp, hlog⟩ := (timerTreeMachine 2 TimerSet.ticklessPort).exists_run
    (l := TimerSet.selfStop)
    (s := some { set := { clock := 0 }, mem := { node := fun _ => {}, rbNode := none } })
    (p := fun p => (p.map fun q => q.set.log) =
      some [.stopped 0, .fired 0 5 8, .started 1, .started 0]) (by decide +kernel)
  refine ⟨p, of_decide_eq_true hlog, timer_tree_refines SearchTree.unbalanced _ 2 ?_ hp⟩
  exact ⟨_, 0, by decide, rfl⟩

end NerdRtos
