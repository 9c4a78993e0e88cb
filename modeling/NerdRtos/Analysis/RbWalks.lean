import NerdRtos.Analysis.RbLayout

/-!
# The order of the nodes, read from memory

`rb_first`, `rb_last`, `rb_next` and `rb_prev` walk through the nodes in their order: down to the
node furthest on one side, or up to the first parent on the other. `rb_replace_node` puts another
node in the place of one.
-/

set_option autoImplicit false

namespace NerdRtos

open RedBlack
open RedBlack.ColorTree (fork)

namespace RbTree

variable {N : Type} {t : RbTree N} {s : Side} {c : Color} {a b l r u : ColorTree N} {x : N}
  {path : List (Frame N)} {L l₁ l₂ : List N} {turns : ℕ}

/-! ## Down -/

/-- The first or the last of a list. -/
def endOf (s : Side) (L : List N) : Option N :=
  match s with
  | .left => L.head?
  | .right => L.getLast?

/-- Below a path that goes one way, the end of the whole tree is the end of the subtree. -/
theorem endOf_plug (h : ∀ f ∈ path, f.side = s) :
    endOf s (plug path (fork s c .nil x b)).inorder = some x := by
  rw [inorder_plug]
  cases s with
  | left =>
    rw [before_eq_nil h]
    rfl
  | right =>
    rw [after_eq_nil h]
    simp [endOf, fork, ColorTree.inorder]

/-- The walk down one side ends at the end of the sequence. -/
theorem rbDown_eq {q : Option N} (h : Layout t.node q u) (hroot : u.root = some x)
    (hturns : u.height ≤ turns) : (rbDown s turns x t).map some = some (endOf s u.inorder) := by
  obtain ⟨p, y, d, b, rfl, hside, hrun⟩ := down_spec (s := s) h hroot hturns
  rw [hrun, endOf_plug hside]
  rfl

/-- `rb_first` and `rb_last` of a tree in memory. -/
theorem rbEnd_eq (h : At t [] u L) (hturns : u.height ≤ turns) :
    rbEnd s turns t = some (endOf s L) := by
  have hroot : t.rbNode = u.root := h.way
  rw [rbEnd, hroot, ← h.order]
  cases hu : u.root with
  | none =>
    cases u with
    | nil => cases s <;> rfl
    | node => cases hu
  | some x => exact rbDown_eq h.here hu hturns

/-! ## Up -/

/-- The first parent that the way up comes to from the other side. -/
def turnOf (s : Side) : List (Frame N) → Option N
  | [] => none
  | f :: path => if f.side = s then turnOf s path else some f.node

/-- Where the walk up turns right is what comes behind the subtree. -/
theorem turnOf_right (path : List (Frame N)) : turnOf .right path = (after path).head? := by
  induction path with
  | nil => rfl
  | cons f path ih =>
    rw [turnOf, after]
    cases f.side
    · rfl
    · exact ih

/-- Where the walk up turns left is what comes before the subtree. -/
theorem turnOf_left (path : List (Frame N)) : turnOf .left path = (before path).getLast? := by
  induction path with
  | nil => rfl
  | cons f path ih =>
    rw [turnOf, before]
    cases f.side
    · exact ih
    · simp

section Climb

variable [DecidableEq N]

/-- The walk up ends where it turns. -/
theorem rbClimb_eq (h : At t path u L) (hx : u.root = some x) (hparent : t.rbParent x = above path)
    (hturns : path.length < turns) : rbClimb s turns x t = some (turnOf s path) := by
  induction turns generalizing path u x with
  | zero => omega
  | succ turns ih =>
    rw [rbClimb, hparent]
    cases path with
    | nil => rfl
    | cons f path =>
      have hup : At t path (fork f.side f.color u f.node f.sib) L := at_cons.mp h
      have hroots := hup.root_ne (.inl fun he => by rw [he] at hx; cases hx)
      rw [hx] at hroots
      show (if t.child f.node s = some x then rbClimb s turns f.node t else _) = _
      rw [turnOf]
      by_cases hs : f.side = s
      · rw [if_pos hs, ← hs, if_pos (hup.child_eq.trans hx), hs]
        exact ih hup (ColorTree.root_fork ..) hup.rbParent_eq (by simpa using hturns)
      · have hfar : t.child f.node s = f.sib.root := by
          rw [← Side.other_other s, ← Side.eq_other hs]
          exact hup.child_other_eq
        rw [if_neg hs, hfar, if_neg hroots]

/-! ## The next node -/

/-- The node beside another in a list. -/
def besideOf (s : Side) (l₁ l₂ : List N) : Option N :=
  match s with
  | .left => l₁.getLast?
  | .right => l₂.head?

/-- `rb_next` and `rb_prev` of a node of a tree in memory. -/
theorem rbStep_eq (h : At t [] u (l₁ ++ x :: l₂)) (hturns : u.height ≤ turns) :
    rbStep s turns x t = some (besideOf s l₁ l₂) := by
  obtain ⟨path, c, a, b, rfl, hat⟩ := h.toPlace (x := x) s (by simp)
  have hlen := length_add_height_le path (fork s c a x b)
  rw [ColorTree.height_fork] at hlen
  have hparent := hat.rbParent_eq
  have hloop : t.rbParent x ≠ some x := hat.rbParent_ne
  have hx₁ : x ∉ l₁ := fun hm => (List.nodup_append.mp hat.nodup).2.2 x hm x (by simp) rfl
  have hx₂ : x ∉ l₂ := (List.nodup_cons.mp (List.nodup_append.mp hat.nodup).2.1).1
  -- what is beside the node, and what is beside its place
  have hbeside : besideOf s l₁ l₂ = (endOf s.other a.inorder).or (turnOf s path) := by
    have horder := hat.order
    rw [inorder_plug] at horder
    cases s with
    | left =>
      have hsplit : l₁ ++ x :: l₂ =
          (before path ++ a.inorder) ++ x :: (b.inorder ++ after path) := by
        rw [← horder]
        simp [fork, ColorTree.inorder]
      rw [List.append_cons_inj_of_notMem hx₁ hx₂] at hsplit
      rw [hsplit.1, turnOf_left]
      simp [besideOf, endOf, Side.other, List.getLast?_append]
    | right =>
      have hsplit : l₁ ++ x :: l₂ =
          (before path ++ b.inorder) ++ x :: (a.inorder ++ after path) := by
        rw [← horder]
        simp [fork, ColorTree.inorder]
      rw [List.append_cons_inj_of_notMem hx₁ hx₂] at hsplit
      rw [hsplit.2.2, turnOf_right]
      simp [besideOf, endOf, Side.other, List.head?_append]
  rw [rbStep, if_neg hloop, hat.child_eq, hbeside]
  cases ha : a.root with
  | none =>
    obtain rfl : a = .nil := by
      cases a with
      | nil => rfl
      | node => cases ha
    have hend : endOf s.other (ColorTree.nil (N := N)).inorder = none := by cases s <;> rfl
    rw [hend, Option.none_or]
    exact rbClimb_eq hat (ColorTree.root_fork ..) hparent (by omega)
  | some y =>
    have hbelow : a.height ≤ turns := by omega
    have hdown := rbDown_eq (s := s.other) (at_fork.mp hat).here ha hbelow
    have hsome : ∃ z, endOf s.other a.inorder = some z := by
      have hne : a.inorder ≠ [] := List.ne_nil_of_mem (ColorTree.mem_root ha)
      cases s
      · exact ⟨_, List.getLast?_eq_some_getLast hne⟩
      · exact ⟨_, List.head?_eq_some_head hne⟩
    obtain ⟨z, hz⟩ := hsome
    rw [hz] at hdown ⊢
    exact hdown

/-! ## Another node in the place of one -/

/-- Replacing a node that occurs once. -/
theorem map_middle {y : N} (h : (l₁ ++ x :: l₂).Nodup) :
    (l₁ ++ x :: l₂).map (fun z => if z = x then y else z) = l₁ ++ y :: l₂ := by
  have hskip : ∀ l : List N, x ∉ l → l.map (fun z => if z = x then y else z) = l := by
    intro l hl
    conv_rhs => rw [← List.map_id l]
    exact List.map_congr_left fun z hz => if_neg (ne_of_mem_of_not_mem hz hl)
  obtain ⟨-, hnd₂, hdisj⟩ := List.nodup_append.mp h
  have hx₁ : x ∉ l₁ := fun hm => hdisj x hm x (by simp) rfl
  rw [List.map_append, List.map_cons, if_pos rfl, hskip l₁ hx₁,
    hskip l₂ (List.nodup_cons.mp hnd₂).1]

/-- `rb_replace_node` puts the new node in the place of the old one, in memory and in the
sequence. -/
theorem At.replaceNode {y : N} (h : At t path (fork .left c l x r) L) (hy : y ∉ L) :
    At (t.rbReplaceNode x y) path (fork .left c l y r)
      (L.map fun z => if z = x then y else z) ∧
    Same (y :: L) t (t.rbReplaceNode x y) := by
  obtain ⟨hx, hl, hr⟩ := layout_fork.mp h.here
  obtain ⟨hnd, hndoff, hoff⟩ := h.apart
  obtain ⟨hxl, hxr, hndl, hndr, hdisj⟩ := ColorTree.nodup_fork.mp hnd
  simp only [ColorTree.mem_fork] at hoff
  have hyne : ∀ z, z ∈ (fork .left c l x r).inorder ∨ z ∈ offPath path → z ≠ y :=
    fun z hz he => hy (he ▸ h.mem_iff.mpr hz)
  simp only [ColorTree.mem_fork] at hyne
  have hway := h.way
  rw [ColorTree.root_fork] at hway
  obtain ⟨hway₁, hsame₁⟩ := hway.changeChild (p := some y) hndoff (hoff x (.inl rfl)) .left
  let t₁ := t.changeChild .left x (some y) (above path)
  let t₂ := t₁.setParentOf l.root (some y)
  let t₃ := t₂.setParentOf r.root (some y)
  let t₄ := t₃.upd y fun _ => t₃.node x
  have hx₁ : t₁.node x = RbNode.fork .left (above path) c l.root r.root :=
    (hsame₁ x (hoff x (.inl rfl))).trans hx
  have hx₂ : t₂.node x = t₁.node x := setParentOf_node_of_notMem hxl
  have hx₃ : t₃.node x = t₂.node x := setParentOf_node_of_notMem hxr
  have hrun : t.rbReplaceNode x y = t₄ := by
    have hleft : t₁.child x .left = l.root := by
      rw [RbTree.child, hx₁]
      rfl
    have hright : t₂.child x .right = r.root := by
      rw [RbTree.child, hx₂, hx₁]
      rfl
    rw [rbReplaceNode, h.rbParent_eq]
    simp only [show t.changeChild .left x (some y) (above path) = t₁ from rfl, hleft]
    simp only [show t₁.setParentOf l.root (some y) = t₂ from rfl, hright]
    rfl
  have hoff₄ : ∀ z, z ≠ y → z ∉ l.inorder → z ∉ r.inorder → t₄.node z = t₁.node z := by
    intro z hzy hzl hzr
    calc t₄.node z = t₃.node z := upd_node_of_ne _ _ _ hzy
      _ = t₂.node z := setParentOf_node_of_notMem hzr
      _ = t₁.node z := setParentOf_node_of_notMem hzl
  rw [hrun]
  refine ⟨⟨layout_fork.mpr ⟨?_, ?_, ?_⟩, ?_, ?_, ?_⟩, ?_⟩
  · calc t₄.node y = t₃.node x := by simp [t₄, upd]
      _ = _ := hx₃.trans (hx₂.trans hx₁)
  · have hl₂ : Layout t₂.node (some y) l :=
      layout_setParentOf (hl.congr fun z hz => hsame₁ z (hoff z (.inr (.inl hz)))) hndl
    refine hl₂.congr fun z hz => ?_
    calc t₄.node z = t₃.node z := upd_node_of_ne _ _ _ (hyne z (.inl (.inr (.inl hz))))
      _ = t₂.node z := setParentOf_node_of_notMem (hdisj z hz)
  · have hr₂ : Layout t₂.node (some x) r := by
      refine hr.congr fun z hz => ?_
      calc t₂.node z = t₁.node z := setParentOf_node_of_notMem fun hzl => hdisj z hzl hz
        _ = t.node z := hsame₁ z (hoff z (.inr (.inr hz)))
    exact (layout_setParentOf hr₂ hndr).congr fun z hz =>
      upd_node_of_ne _ _ _ (hyne z (.inl (.inr (.inr hz))))
  · rw [ColorTree.root_fork]
    refine hway₁.congr ?_ fun z hz => hoff₄ z (hyne z (.inr hz)) ?_ ?_
    · exact (setParentOf_rbNode ..).trans (setParentOf_rbNode ..)
    · exact fun hzl => hoff z (.inr (.inl hzl)) hz
    · exact fun hzr => hoff z (.inr (.inr hzr)) hz
  · have hold : L = (before path ++ l.inorder) ++ x :: (r.inorder ++ after path) := by
      rw [← h.order, inorder_plug]
      simp [fork, ColorTree.inorder]
    rw [hold, map_middle (hold ▸ h.nodup), inorder_plug]
    simp [fork, ColorTree.inorder]
  · refine (List.nodup_map_iff_inj_on h.nodup).mpr fun z hz w hw he => ?_
    by_cases hzx : z = x <;> by_cases hwx : w = x <;> simp only [hzx, hwx, if_true, if_false] at he
    · rw [hzx, hwx]
    · exact absurd (he ▸ hw) hy
    · exact absurd (he ▸ hz) hy
    · exact he
  · intro z hz
    rw [List.mem_cons, not_or, h.mem_iff, not_or] at hz
    simp only [ColorTree.mem_fork, not_or] at hz
    exact (hoff₄ z hz.1 hz.2.1.2.1 hz.2.1.2.2).trans (hsame₁ z hz.2.2)

end Climb

end RbTree

end NerdRtos
