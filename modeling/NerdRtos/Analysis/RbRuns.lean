import NerdRtos.Analysis.RbErase
import NerdRtos.Analysis.RbInsert
import NerdRtos.Analysis.RbWalks
import NerdRtos.Lib.Machine

/-!
# Runs of calls on one tree

A user of the tree links nodes in at pointers that are `NULL`, takes them out, puts one in the place
of another, and writes to nodes that are not linked. Beside the memory the machine keeps the order
that the nodes have by these calls alone: a node comes next to the parent that it is linked in at.
The loops get as many turns as a tree of red and black nodes may be high.
-/

set_option autoImplicit false

namespace NerdRtos

open RedBlack
open RedBlack.ColorTree (fork)

/-- The calls on a tree. -/
inductive RbCall (N : Type)
  | link (n : N) (place : RbLink N)
  | erase (n : N)
  | replace (victim new : N)
  | write (n : N) (r : RbNode N)
  deriving DecidableEq, Repr

/-- The memory after some calls, which is missing when one of them had no result, and the order of
the nodes that are linked. -/
structure RbCalls (N : Type) where
  mem : Option (RbTree N)
  order : List N

namespace RbCalls

variable {N : Type} [DecidableEq N]

/-- What a user of the tree sees to before a call. -/
def allowed (s : RbCalls N) : RbCall N → Bool
  | .link n l => n ∉ s.order && l.parent.all (· ∈ s.order) && s.mem.all fun t => t.load l = none
  | .erase n => n ∈ s.order
  | .replace victim new => victim ∈ s.order && new ∉ s.order
  | .write n _ => n ∉ s.order

/-- The state after a call. -/
def exec (s : RbCalls N) : RbCall N → RbCalls N
  | .link n l =>
    { mem := s.mem.bind fun t =>
        (t.rbLinkNode n l.parent l).rbInsertColor (rbTurns s.order.length) n
      order := l.insert n s.order }
  | .erase n =>
    { mem := s.mem.bind (RbTree.rbErase (rbTurns s.order.length) n)
      order := s.order.erase n }
  | .replace victim new =>
    { mem := s.mem.map (RbTree.rbReplaceNode victim new)
      order := s.order.map fun z => if z = victim then new else z }
  | .write n r =>
    { s with mem := s.mem.map (RbTree.upd n fun _ => r) }

end RbCalls

/-- The turns of the loops are more than twice the logarithm. -/
theorem log_lt_rbTurns {N : Type} (L : List N) : 2 * (L.length + 1).log2 < rbTurns L.length := by
  unfold rbTurns
  omega

/-- A tree from `RB_ROOT` on. -/
def rbMachine (N : Type) [DecidableEq N] : Machine (RbCalls N) (RbCall N) where
  start s := ∃ node, s = { mem := some { node, rbNode := none }, order := [] }
  enabled s a := s.allowed a = true
  next a s := s.exec a

instance (N : Type) [DecidableEq N] (s : RbCalls N) (a : RbCall N) :
    Decidable ((rbMachine N).enabled s a) :=
  inferInstanceAs (Decidable (s.allowed a = true))

namespace RbCalls

variable {N : Type} [DecidableEq N] {s : RbCalls N}

/-- The memory is that of a red-black tree with the nodes in their order. -/
def Sound (s : RbCalls N) : Prop :=
  ∃ t u, s.mem = some t ∧ t.At [] u s.order ∧ IsRedBlack u

/-- The empty tree is in order. -/
theorem sound_start (hs : (rbMachine N).start s) : s.Sound := by
  obtain ⟨node, rfl⟩ := hs
  exact ⟨_, .nil, rfl, ⟨trivial, rfl, rfl, List.nodup_nil⟩, 0, .nil⟩

/-- Every call keeps the tree. -/
theorem Sound.step {a : RbCall N} (h : s.Sound) (ha : s.allowed a = true) : (s.exec a).Sound := by
  obtain ⟨t, u, hmem, hat, hrb⟩ := h
  cases a with
  | link n l =>
    simp only [allowed, hmem, Bool.and_eq_true, decide_eq_true_eq, Option.all_some] at ha
    obtain ⟨⟨hn, hparent⟩, hnull⟩ := ha
    have hin : ∀ p, l.parent = some p → p ∈ s.order := by
      intro p hp
      rw [hp, Option.all_some, decide_eq_true_eq] at hparent
      exact hparent
    obtain ⟨t', u', hrun, hat', hrb', -⟩ :=
      RbTree.link_spec hat hrb hn hin hnull (log_lt_rbTurns s.order)
    refine ⟨t', u', ?_, hat', hrb'⟩
    rw [exec, hmem]
    exact hrun
  | erase n =>
    have hn : n ∈ s.order := of_decide_eq_true ha
    obtain ⟨t', u', hrun, hat', hrb', -⟩ :=
      RbTree.erase_spec hat hrb hn (log_lt_rbTurns s.order)
    refine ⟨t', u', ?_, hat', hrb'⟩
    rw [exec, hmem]
    exact hrun
  | replace victim new =>
    simp only [allowed, Bool.and_eq_true, decide_eq_true_eq] at ha
    obtain ⟨hv, hnew⟩ := ha
    obtain ⟨path, c, l, r, rfl, hplace⟩ := hat.toPlace .left hv
    obtain ⟨hat', -⟩ := hplace.replaceNode hnew
    obtain ⟨e, k, hfits, hbal⟩ := hrb.focus
    refine ⟨_, _, ?_, hat'.toRoot, hfits.plug (hbal.rename new)⟩
    rw [exec, hmem]
    rfl
  | write n r =>
    have hn : n ∉ s.order := of_decide_eq_true ha
    have hoff : ∀ z ∈ u.inorder, (t.upd n fun _ => r).node z = t.node z := by
      intro z hz
      have hzL : z ∈ s.order := by
        rw [← hat.order]
        exact hz
      exact RbTree.upd_node_of_ne _ _ _ (ne_of_mem_of_not_mem hzL hn)
    refine ⟨_, u, ?_, ⟨hat.here.congr hoff, hat.way, hat.order, hat.nodup⟩, hrb⟩
    rw [exec, hmem]
    rfl

/-- In every run the memory is that of a red-black tree in the order of the calls. -/
theorem sound_reach (hs : (rbMachine N).Reach Machine.Always s) : s.Sound :=
  hs.induction (I := Sound) (fun _ h => sound_start h) fun _ _ _ hi he _ => hi.step he

end RbCalls

/-- In every run of calls no pointer that is dereferenced is `NULL`, no loop takes more turns than
the logarithm of the number of nodes allows, and the memory is that of a red-black tree whose nodes
are in the order that the calls have put them in. -/
theorem rb_calls_sound {N : Type} [DecidableEq N] {s : RbCalls N}
    (hs : (rbMachine N).Reach Machine.Always s) :
    ∃ t u, s.mem = some t ∧ t.At [] u s.order ∧ IsRedBlack u :=
  RbCalls.sound_reach hs

/-- Five nodes one behind the other, two of them taken out and one replaced. -/
def rbRun : List (RbCall ℕ) :=
  [.link 1 .root, .link 2 (.child .right 1), .link 3 (.child .right 2), .link 4 (.child .right 3),
    .link 5 (.child .right 4), .erase 1, .erase 4, .replace 3 9]

/-- The state that these calls reach. -/
theorem rbRun_reaches :
    ∃ s : RbCalls ℕ, (rbMachine ℕ).Reach Machine.Always s ∧ s.order = [2, 9, 5] := by
  obtain ⟨s, hs, hp⟩ := (rbMachine ℕ).exists_run (l := rbRun)
    (s := { mem := some { node := fun _ => {}, rbNode := none }, order := [] })
    (p := fun s => s.order = [2, 9, 5]) (by decide +kernel)
  refine ⟨s, ?_, of_decide_eq_true hp⟩
  exact Machine.reach_of_run _ (fun _ _ _ => trivial) (.start ⟨_, rfl⟩) hs

/-- The memory behind these calls. -/
theorem rb_calls_sound_run : ∃ s : RbCalls ℕ, s.order = [2, 9, 5] ∧
    ∃ t u, s.mem = some t ∧ t.At [] u s.order ∧ IsRedBlack u := by
  obtain ⟨s, hs, horder⟩ := rbRun_reaches
  exact ⟨s, horder, rb_calls_sound hs⟩

/-- In every reached state the walks read the order of the nodes from memory: the two ends, and what
is before and behind each node. -/
theorem rb_walks_order {N : Type} [DecidableEq N] {s : RbCalls N}
    (hs : (rbMachine N).Reach Machine.Always s) : ∃ t, s.mem = some t ∧
      t.rbFirst (rbTurns s.order.length) = some s.order.head? ∧
      t.rbLast (rbTurns s.order.length) = some s.order.getLast? ∧
      ∀ l₁ x l₂, s.order = l₁ ++ x :: l₂ →
        t.rbNext (rbTurns s.order.length) x = some l₂.head? ∧
        t.rbPrev (rbTurns s.order.length) x = some l₁.getLast? := by
  obtain ⟨t, u, hmem, hat, hrb⟩ := RbCalls.sound_reach hs
  have hturns : u.height ≤ rbTurns s.order.length := by
    have hheight := hrb.height_le
    have horder : u.inorder = s.order := hat.order
    rw [horder] at hheight
    unfold rbTurns
    omega
  refine ⟨t, hmem, RbTree.rbEnd_eq hat hturns, RbTree.rbEnd_eq hat hturns, ?_⟩
  intro l₁ x l₂ hsplit
  rw [hsplit] at hat
  exact ⟨RbTree.rbStep_eq hat hturns, RbTree.rbStep_eq hat hturns⟩

/-- The walks behind these calls. -/
theorem rb_walks_order_run : ∃ s : RbCalls ℕ, s.order = [2, 9, 5] ∧ ∃ t, s.mem = some t ∧
    t.rbFirst (rbTurns s.order.length) = some s.order.head? ∧
    t.rbLast (rbTurns s.order.length) = some s.order.getLast? ∧
    ∀ l₁ x l₂, s.order = l₁ ++ x :: l₂ →
      t.rbNext (rbTurns s.order.length) x = some l₂.head? ∧
      t.rbPrev (rbTurns s.order.length) x = some l₁.getLast? := by
  obtain ⟨s, hs, horder⟩ := rbRun_reaches
  exact ⟨s, horder, rb_walks_order hs⟩

end NerdRtos
