import NerdRtos.Model.Rbtree

/-!
# A tree in memory

`Layout m p u` says that the nodes of `u` are linked in the memory `m` as they are in `u`, with `p`
for the parent of the root. `At t path u L` says it of the whole tree, looked at from the place of
`u` at the end of `path`; `L` is the order of all of its nodes. A call leaves the nodes that are not
in the tree alone (`Same`).
-/

set_option autoImplicit false

namespace NerdRtos

open RedBlack
open RedBlack.ColorTree (fork)

variable {N : Type}

/-- A node with the child `near` on side `s` and `far` on the other. -/
def RbNode.fork (s : Side) (p : Option N) (c : Color) (near far : Option N) : RbNode N :=
  match s with
  | .left => ⟨p, c, far, near⟩
  | .right => ⟨p, c, near, far⟩

section Fork

variable (s : Side) (p : Option N) (c : Color) (near far : Option N)

/-- The parent of a node that is written as a fork. -/
@[simp] theorem RbNode.rbParent_fork : (RbNode.fork s p c near far).rbParent = p := by
  cases s <;> rfl

/-- The colour of a node that is written as a fork. -/
@[simp] theorem RbNode.rbColor_fork : (RbNode.fork s p c near far).rbColor = c := by
  cases s <;> rfl

/-- The near child of a node that is written as a fork. -/
@[simp] theorem RbNode.child_fork : (RbNode.fork s p c near far).child s = near := by
  cases s <;> rfl

/-- The far child of a node that is written as a fork. -/
@[simp] theorem RbNode.child_other_fork : (RbNode.fork s p c near far).child s.other = far := by
  cases s <;> rfl

end Fork

/-- The node that a pointer to a child belongs to. -/
def RbLink.parent {N : Type} : RbLink N → Option N
  | .root => none
  | .child _ p => some p

namespace RbTree

/-! ## What a write does -/

section Writes

variable [DecidableEq N] (t : RbTree N) (s : Side) (n : N) (c : Color) (p : Option N) {z : N}

/-- `rb_set_parent` at the node itself. -/
@[simp] theorem rbSetParent_node_self :
    (t.rbSetParent n p).node n = { t.node n with rbParent := p } := by
  simp [rbSetParent, upd]

/-- `rb_set_color` at the node itself. -/
@[simp] theorem rbSetColor_node_self :
    (t.rbSetColor n c).node n = { t.node n with rbColor := c } := by
  simp [rbSetColor, upd]

/-- An update of one node leaves the others. -/
theorem upd_node_of_ne (f : RbNode N → RbNode N) (h : z ≠ n) : (t.upd n f).node z = t.node z := by
  simp [upd, h]

/-- `rb_set_parent` leaves the other nodes. -/
theorem rbSetParent_node_of_ne (h : z ≠ n) : (t.rbSetParent n p).node z = t.node z :=
  upd_node_of_ne t n _ h

/-- `rb_set_color` leaves the other nodes. -/
theorem rbSetColor_node_of_ne (h : z ≠ n) : (t.rbSetColor n c).node z = t.node z :=
  upd_node_of_ne t n _ h

/-- A write to a child pointer leaves the other nodes. -/
theorem setChild_node_of_ne (h : z ≠ n) : (t.setChild s n p).node z = t.node z :=
  upd_node_of_ne t n _ h

/-- Whether a node is empty is read from the node. -/
theorem rbEmptyNode_congr {t' : RbTree N} (h : t'.node n = t.node n) :
    t'.rbEmptyNode n = t.rbEmptyNode n := by
  rw [rbEmptyNode, rbEmptyNode, rbParent, rbParent, h]

/-- A write of a parent through a child pointer leaves the root pointer. -/
@[simp] theorem setParentOf_rbNode (child : Option N) :
    (t.setParentOf child p).rbNode = t.rbNode := by
  cases child <;> rfl

/-- A write to the near child of a node. -/
theorem setChild_node_near {q near far : Option N} (h : t.node n = RbNode.fork s q c near far) :
    (t.setChild s n p).node n = RbNode.fork s q c p far := by
  cases s <;> simp [setChild, upd, h, RbNode.fork]

/-- A write to its far child. -/
theorem setChild_node_far {q near far : Option N} (h : t.node n = RbNode.fork s q c near far) :
    (t.setChild s.other n p).node n = RbNode.fork s q c near p := by
  cases s <;> simp [setChild, upd, h, RbNode.fork, Side.other]

/-- A write to its parent. -/
theorem rbSetParent_node_fork {q near far : Option N} (h : t.node n = RbNode.fork s q c near far) :
    (t.rbSetParent n p).node n = RbNode.fork s p c near far := by
  rw [rbSetParent_node_self, h]
  cases s <;> rfl

end Writes

/-! ## Layouts -/

/-- The tree is in memory, with `p` for the parent of its root. -/
def Layout (m : N → RbNode N) : Option N → ColorTree N → Prop
  | _, .nil => True
  | p, .node c l x r => m x = ⟨p, c, r.root, l.root⟩ ∧ Layout m (some x) l ∧ Layout m (some x) r

/-- The parent of a place. -/
def above : List (Frame N) → Option N
  | [] => none
  | f :: _ => some f.node

/-- The way to a place and what is beside it is in memory; `hole` is the pointer to the place. -/
def PathLayout (t : RbTree N) : List (Frame N) → Option N → Prop
  | [], hole => t.rbNode = hole
  | f :: path, hole =>
    t.node f.node = RbNode.fork f.side (above path) f.color hole f.sib.root ∧
      Layout t.node (some f.node) f.sib ∧ PathLayout t path (some f.node)

/-- A tree in memory, looked at from a place of it: `u` is there, and `L` is the order of the nodes
of the whole. -/
structure At (t : RbTree N) (path : List (Frame N)) (u : ColorTree N) (L : List N) : Prop where
  here : Layout t.node (above path) u
  way : PathLayout t path u.root
  order : (plug path u).inorder = L
  nodup : L.Nodup

/-- The nodes outside of `L` are as they were. -/
def Same (L : List N) (t t' : RbTree N) : Prop := ∀ z ∉ L, t'.node z = t.node z

/-- A memory is the same as itself. -/
theorem Same.refl (L : List N) (t : RbTree N) : Same L t t := fun _ _ => rfl

/-- Two changes outside of the nodes one after the other. -/
theorem Same.trans {L : List N} {t t' t'' : RbTree N} (h : Same L t t') (h' : Same L t' t'') :
    Same L t t'' :=
  fun z hz => (h' z hz).trans (h z hz)

variable {m m' : N → RbNode N} {t t' : RbTree N} {p q hole : Option N} {s : Side} {c : Color}
  {a b u v w : ColorTree N} {x z : N} {path : List (Frame N)} {f : Frame N} {L : List N}

/-- A tree with a root is laid out when its root and its two subtrees are. -/
theorem layout_fork : Layout m p (fork s c a x b) ↔
    m x = RbNode.fork s p c a.root b.root ∧ Layout m (some x) a ∧ Layout m (some x) b := by
  cases s
  · exact Iff.rfl
  · show _ ∧ _ ∧ _ ↔ _ ∧ _ ∧ _
    rw [and_comm (a := Layout m (some x) b)]
    exact Iff.rfl

/-- A layout depends on its own nodes. -/
theorem Layout.congr (h : Layout m p u) (hm : ∀ z ∈ u.inorder, m' z = m z) : Layout m' p u := by
  induction u generalizing p with
  | nil => trivial
  | node c l x r ihl ihr =>
    obtain ⟨hx, hl, hr⟩ := h
    simp only [ColorTree.inorder, List.mem_append, List.mem_cons] at hm
    refine ⟨?_, ihl hl ?_, ihr hr ?_⟩
    · rw [hm x (by simp), hx]
    · exact fun z hz => hm z (.inl hz)
    · exact fun z hz => hm z (.inr (.inr hz))

/-- A path is laid out in every memory with the same root pointer and the same nodes on it. -/
theorem PathLayout.congr (h : PathLayout t path hole) (hroot : t'.rbNode = t.rbNode)
    (hm : ∀ z ∈ offPath path, t'.node z = t.node z) : PathLayout t' path hole := by
  induction path generalizing hole with
  | nil => exact hroot.trans h
  | cons f path ih =>
    obtain ⟨hx, hsib, hup⟩ := h
    simp only [offPath_cons, List.cons_append, List.mem_cons, List.mem_append] at hm
    refine ⟨?_, hsib.congr ?_, ih hup ?_⟩
    · rw [hm f.node (by simp), hx]
    · exact fun z hz => hm z (.inr (.inl hz))
    · exact fun z hz => hm z (.inr (.inr hz))

/-- A place may be seen as part of the place above it. -/
theorem at_cons : At t (f :: path) u L ↔ At t path (f.put u) L := by
  have hput : Layout t.node (above path) (f.put u) ↔
      t.node f.node = RbNode.fork f.side (above path) f.color u.root f.sib.root ∧
        Layout t.node (some f.node) u ∧ Layout t.node (some f.node) f.sib := layout_fork
  have hroot : (f.put u).root = some f.node := ColorTree.root_fork ..
  constructor
  · intro h
    obtain ⟨hx, hsib, hup⟩ := h.way
    refine ⟨hput.mpr ⟨hx, h.here, hsib⟩, ?_, h.order, h.nodup⟩
    rw [hroot]
    exact hup
  · intro h
    obtain ⟨hx, hu, hsib⟩ := hput.mp h.here
    refine ⟨hu, ⟨hx, hsib, ?_⟩, h.order, h.nodup⟩
    have hup := h.way
    rw [hroot] at hup
    exact hup

/-- Down to a child. -/
theorem at_fork : At t path (fork s c a x b) L ↔ At t (⟨s, c, x, b⟩ :: path) a L :=
  (at_cons (f := ⟨s, c, x, b⟩)).symm

/-- What is at a place, below the parent of the whole if it is all of it. -/
theorem Layout.at_place (h : Layout m q (plug path v)) :
    Layout m ((above path).or q) v := by
  induction path generalizing v with
  | nil => exact h
  | cons f path ih =>
    obtain ⟨-, hv, -⟩ := layout_fork.mp (ih h)
    exact hv

/-- Another tree at a place, with the same root. -/
theorem Layout.plug_congr (h : Layout m q (plug path v))
    (hm : ∀ z ∈ offPath path, m' z = m z) (hroot : w.root = v.root)
    (hw : Layout m' ((above path).or q) w) : Layout m' q (plug path w) := by
  induction path generalizing v w with
  | nil => exact hw
  | cons f path ih =>
    simp only [offPath_cons, List.cons_append, List.mem_cons, List.mem_append] at hm
    have hput : Layout m q (plug path (f.put v)) := h
    obtain ⟨hf, -, hsib⟩ := layout_fork.mp hput.at_place
    refine ih hput (fun z hz => hm z (.inr (.inr hz))) ?_ (layout_fork.mpr ⟨?_, hw, ?_⟩)
    · exact (ColorTree.root_fork ..).trans (ColorTree.root_fork ..).symm
    · rw [hm f.node (.inl rfl), hf, hroot]
    · exact hsib.congr fun z hz => hm z (.inr (.inl hz))

/-- A place far down. -/
theorem at_append {p : List (Frame N)} : At t (p ++ path) u L ↔ At t path (plug p u) L := by
  induction p generalizing u with
  | nil => exact Iff.rfl
  | cons f p ih =>
    rw [List.cons_append, at_cons, ih]
    rfl

/-- The nodes of the whole, without repetition. -/
theorem At.apart (h : At t path u L) :
    u.inorder.Nodup ∧ (offPath path).Nodup ∧ ∀ z ∈ u.inorder, z ∉ offPath path := by
  have hnd := h.nodup
  rw [← h.order] at hnd
  exact nodup_plug.mp hnd

/-- The nodes are those of the subtree and those on the path with what hangs there. -/
theorem At.mem_iff (h : At t path u L) : z ∈ L ↔ z ∈ u.inorder ∨ z ∈ offPath path := by
  rw [← h.order]
  exact mem_plug

/-! ## Reading a node -/

/-- The node at the top of the subtree, with all its pointers. -/
theorem At.node_eq (h : At t path (fork s c a x b) L) :
    t.node x = RbNode.fork s (above path) c a.root b.root :=
  (layout_fork.mp h.here).1

/-- The parent of the node at the top is the lowest one on the path. -/
theorem At.rbParent_eq (h : At t path (fork s c a x b) L) : t.rbParent x = above path := by
  rw [rbParent, h.node_eq, RbNode.rbParent_fork]

/-- No node of a tree is its own parent. -/
theorem At.rbParent_ne (h : At t path (fork s c a x b) L) : t.rbParent x ≠ some x := by
  rw [h.rbParent_eq]
  cases path with
  | nil => exact fun he => nomatch he
  | cons f path =>
    have hoff := h.apart.2.2 x (ColorTree.mem_fork.mpr (.inl rfl))
    exact fun he => hoff (by simp [Option.some_inj.mp he.symm])

/-- The colour of the node at the top. -/
theorem At.rbColor_eq (h : At t path (fork s c a x b) L) : t.rbColor x = c := by
  rw [rbColor, h.node_eq, RbNode.rbColor_fork]

/-- The near child of the node at the top. -/
theorem At.child_eq (h : At t path (fork s c a x b) L) : t.child x s = a.root := by
  rw [RbTree.child, h.node_eq, RbNode.child_fork]

/-- The far child of the node at the top. -/
theorem At.child_other_eq (h : At t path (fork s c a x b) L) : t.child x s.other = b.root := by
  rw [RbTree.child, h.node_eq, RbNode.child_other_fork]

/-- The colour of the root of a tree, read from memory. -/
theorem Layout.rbColor_root (h : Layout t.node p u) (hx : u.root = some x) :
    t.rbColor x = u.color := by
  cases u with
  | nil => cases hx
  | node c l y r =>
    obtain rfl : y = x := Option.some_inj.mp hx
    rw [rbColor, h.1]
    rfl

/-- What the code takes for black is black in the tree. -/
theorem Layout.blackOrNull_root (h : Layout t.node p u) :
    t.blackOrNull u.root = decide (u.color = .black) := by
  cases hu : u.root with
  | none =>
    cases u with
    | nil => rfl
    | node => cases hu
  | some x =>
    show t.rbIsBlack x = _
    rw [rbIsBlack, h.rbColor_root hu]

/-- The side of a child, as the loops find it out. -/
theorem side_eq [DecidableEq N] {near far : Option N} (h : t.node x = RbNode.fork s p c near far)
    (hne : far ≠ near) : (if t.child x .left = near then Side.left else .right) = s := by
  cases s
  · exact if_pos (by rw [RbTree.child, h]; rfl)
  · refine if_neg ?_
    rw [RbTree.child, h]
    exact hne

/-- The nodes of the two subtrees are different. -/
theorem At.root_ne (h : At t path (fork s c a x b) L) (hpos : a ≠ .nil ∨ b ≠ .nil) :
    b.root ≠ a.root := by
  obtain ⟨hnd, -⟩ := h.apart
  obtain ⟨-, -, -, -, hab⟩ := ColorTree.nodup_fork.mp hnd
  intro he
  cases hroot : a.root with
  | none =>
    rw [hroot] at he
    cases a <;> cases b <;> simp_all [ColorTree.root]
  | some y => exact hab y (ColorTree.mem_root hroot) (ColorTree.mem_root (he.trans hroot))

/-- The whole tree, seen from its root. -/
theorem At.toRoot (h : At t path u L) : At t [] (plug path u) L := by
  rw [← at_append, List.append_nil]
  exact h

/-- A node of the tree, seen from its place. -/
theorem At.toPlace (h : At t [] u L) (s : Side) (hx : x ∈ L) : ∃ path c a b,
    u = plug path (fork s c a x b) ∧ At t path (fork s c a x b) L := by
  obtain ⟨path, c, a, b, rfl⟩ : ∃ path c a b, u = plug path (fork s c a x b) := by
    refine exists_plug s ?_
    rw [← h.order] at hx
    exact hx
  refine ⟨path, c, a, b, rfl, ?_⟩
  rw [← at_append, List.append_nil] at h
  exact h

/-- The same node from its other side. -/
theorem At.flip (h : At t path (fork s c a x b) L) : At t path (fork s.other c b x a) L := by
  rw [ColorTree.fork_other]
  exact h

/-- Both children of a node are black, or it has none, as the code asks for it. -/
theorem At.bothBlack (h : At t path (fork s c a x b) L) :
    (t.blackOrNull (t.child x .left) && t.blackOrNull (t.child x .right)) =
      decide (a.color = .black ∧ b.color = .black) := by
  have hnear : t.blackOrNull (t.child x s) = decide (a.color = .black) := by
    rw [h.child_eq]
    exact (at_fork.mp h).here.blackOrNull_root
  have hfar : t.blackOrNull (t.child x s.other) = decide (b.color = .black) := by
    rw [h.child_other_eq]
    exact (at_fork.mp h.flip).here.blackOrNull_root
  cases s with
  | left =>
    have hright : t.blackOrNull (t.child x .right) = decide (b.color = .black) := hfar
    rw [hnear, hright, Bool.decide_and]
  | right =>
    have hleft : t.blackOrNull (t.child x .left) = decide (b.color = .black) := hfar
    rw [hnear, hleft, Bool.and_comm, Bool.decide_and]

/-- The place is the root if and only if the pointers are equal. -/
theorem At.root_eq_rbNode (h : At t path u L) : u.root = t.rbNode ↔ path = [] := by
  constructor
  · intro he
    cases path with
    | nil => rfl
    | cons f path =>
      obtain ⟨y, hy, hplug⟩ := exists_root_plug f path
      have hroot : t.rbNode = some y := h.toRoot.way.trans (hplug u)
      exact absurd hy (h.apart.2.2 y (ColorTree.mem_root (he.trans hroot)))
  · rintro rfl
    exact h.way.symm

/-! ## Down -/

/-- The node that is furthest on side `s`. -/
theorem down_spec {turns : ℕ} (h : Layout t.node q u) (hroot : u.root = some x)
    (hturns : u.height ≤ turns) : ∃ p y d b, u = plug p (fork s d .nil y b) ∧
      (∀ f ∈ p, f.side = s) ∧ rbDown s turns x t = some y := by
  induction turns generalizing u q x with
  | zero =>
    cases u with
    | nil => cases hroot
    | node => simp [ColorTree.height] at hturns
  | succ turns ih =>
    obtain ⟨c, a, b, rfl⟩ : ∃ c a b, u = fork s c a x b := by
      cases u with
      | nil => cases hroot
      | node c l y r =>
        obtain rfl : y = x := Option.some_inj.mp hroot
        obtain ⟨a, b, he⟩ := ColorTree.exists_fork s c l y r
        exact ⟨c, a, b, he⟩
    obtain ⟨hx, ha, -⟩ := layout_fork.mp h
    have hchild : t.child x s = a.root := by rw [RbTree.child, hx, RbNode.child_fork]
    rw [ColorTree.height_fork] at hturns
    cases hnext : a.root with
    | none =>
      obtain rfl : a = .nil := by
        cases a with
        | nil => rfl
        | node => cases hnext
      refine ⟨[], x, c, b, rfl, by simp, ?_⟩
      rw [rbDown, hchild, hnext]
    | some z =>
      obtain ⟨p, y, d, e, rfl, hside, hrun⟩ := ih ha hnext (by omega)
      refine ⟨p ++ [⟨s, c, x, b⟩], y, d, e, ?_, ?_, ?_⟩
      · rw [plug_append]
        rfl
      · intro f hf
        rcases List.mem_append.mp hf with hf | hf
        · exact hside f hf
        · rw [List.mem_singleton.mp hf]
      · rw [rbDown, hchild, hnext]
        exact hrun

/-! ## Places -/

/-- The lowest node on the path is one of the nodes. -/
theorem At.above_mem (h : At t path u L) (hx : above path = some x) : x ∈ L := by
  cases path with
  | nil => cases hx
  | cons f path =>
    obtain rfl : f.node = x := Option.some_inj.mp hx
    exact h.mem_iff.mpr (.inr (by simp))

/-- The pointer to a place. -/
def linkOf : List (Frame N) → RbLink N
  | [] => .root
  | f :: _ => .child f.side f.node

/-- The link that a path ends in belongs to its lowest node. -/
theorem parent_linkOf (path : List (Frame N)) : (linkOf path).parent = above path := by
  cases path <;> rfl

/-- A link holds what the path is laid out for. -/
theorem load_linkOf {p : Option N} (h : PathLayout t path p) : t.load (linkOf path) = p := by
  cases path with
  | nil => exact h
  | cons f path =>
    show t.child f.node f.side = p
    rw [RbTree.child, h.1, RbNode.child_fork]

/-- A pointer to a child of a node is the pointer to a place, and a pointer that is `NULL` one to an
empty place. -/
theorem exists_place {link : RbLink N} (h : At t [] u L) (hin : ∀ p, link.parent = some p → p ∈ L)
    (hnull : t.load link = none) : ∃ path, linkOf path = link ∧ At t path .nil L ∧
      plug path .nil = u := by
  have hnil : ∀ v : ColorTree N, v.root = none → v = .nil := by
    intro v hv
    cases v with
    | nil => rfl
    | node => cases hv
  cases link with
  | root =>
    obtain rfl := hnil u (h.way.symm.trans hnull)
    exact ⟨[], rfl, h, rfl⟩
  | child s p =>
    obtain ⟨path, c, a, b, rfl, hat⟩ := h.toPlace s (hin p rfl)
    obtain rfl := hnil a (hat.child_eq.symm.trans hnull)
    exact ⟨⟨s, c, p, b⟩ :: path, rfl, at_fork.mp hat, rfl⟩

/-! ## The pieces of a call -/

section Pieces

variable [DecidableEq N]

/-- The parent of a subtree is written. -/
theorem layout_setParentOf (h : Layout t.node q u) (hnd : u.inorder.Nodup) :
    Layout (t.setParentOf u.root p).node p u := by
  cases u with
  | nil => trivial
  | node c l x r =>
    obtain ⟨hx, hl, hr⟩ := h
    have hfork : (ColorTree.node c l x r) = fork .left c l x r := rfl
    rw [hfork, ColorTree.nodup_fork] at hnd
    obtain ⟨hxl, hxr, -⟩ := hnd
    refine ⟨?_, hl.congr fun z hz => ?_, hr.congr fun z hz => ?_⟩
    · exact (rbSetParent_node_self t x p).trans (by rw [hx])
    · exact rbSetParent_node_of_ne t x p (ne_of_mem_of_not_mem hz hxl)
    · exact rbSetParent_node_of_ne t x p (ne_of_mem_of_not_mem hz hxr)

/-- A write of a parent through the root of a subtree changes only nodes of the subtree. -/
theorem setParentOf_node_of_notMem (hz : z ∉ u.inorder) :
    (t.setParentOf u.root p).node z = t.node z := by
  cases u with
  | nil => rfl
  | node c l x r =>
    refine rbSetParent_node_of_ne t x p ?_
    rintro rfl
    exact hz (ColorTree.mem_root rfl)

/-- The pointer to a place is written: the parent of the place, if there is one, has it on the side
of the path. -/
theorem PathLayout.changeChild (h : PathLayout t path (some x)) (hnd : (offPath path).Nodup)
    (hx : x ∉ offPath path) (s : Side) :
    PathLayout (t.changeChild s x p (above path)) path p ∧
      ∀ z ∉ offPath path, (t.changeChild s x p (above path)).node z = t.node z := by
  cases path with
  | nil => exact ⟨rfl, fun _ _ => rfl⟩
  | cons f path =>
    obtain ⟨hf, hsib, hup⟩ := h
    simp only [offPath_cons, List.cons_append, List.nodup_cons, List.mem_append, not_or,
      List.nodup_append, List.mem_cons] at hnd hx
    obtain ⟨⟨hfsib, hfup⟩, -⟩ := hnd
    obtain ⟨hxf, hxsib, hxup⟩ := hx
    have hchild : t.changeChild s x p (above (f :: path)) = t.setChild f.side f.node p := by
      show (if t.child f.node s = some x then t.setChild s f.node p
        else t.setChild s.other f.node p) = t.setChild f.side f.node p
      by_cases hs : f.side = s
      · rw [RbTree.child, hf, hs, RbNode.child_fork, if_pos rfl]
      · have ho : s = f.side.other := by rw [Side.eq_other hs, Side.other_other]
        have hroot : f.sib.root ≠ some x := fun he => hxsib (ColorTree.mem_root he)
        rw [RbTree.child, hf, ho, RbNode.child_other_fork, if_neg hroot, Side.other_other]
    rw [hchild]
    refine ⟨⟨setChild_node_near t f.side f.node f.color p hf, hsib.congr ?_, hup.congr rfl ?_⟩, ?_⟩
    · exact fun z hz => setChild_node_of_ne t _ _ p (ne_of_mem_of_not_mem hz hfsib)
    · exact fun z hz => setChild_node_of_ne t _ _ p (ne_of_mem_of_not_mem hz hfup)
    · intro z hz
      refine setChild_node_of_ne t _ _ p ?_
      rintro rfl
      exact hz (by simp)

/-- A node is painted. -/
theorem At.setColor (h : At t path u L) (hroot : u.root = some x) (c : Color) :
    At (t.rbSetColor x c) path (u.paint c) L ∧ Same L t (t.rbSetColor x c) := by
  cases u with
  | nil => cases hroot
  | node d l y r =>
    obtain rfl : y = x := Option.some_inj.mp hroot
    obtain ⟨hnd, -, hoff⟩ := h.apart
    obtain ⟨hy, hl, hr⟩ := h.here
    have hfork : (ColorTree.node d l y r) = fork .left d l y r := rfl
    rw [hfork, ColorTree.nodup_fork] at hnd
    obtain ⟨hyl, hyr, -⟩ := hnd
    have hmem : y ∈ (ColorTree.node d l y r).inorder := ColorTree.mem_root rfl
    refine ⟨⟨⟨?_, hl.congr fun z hz => ?_, hr.congr fun z hz => ?_⟩, ?_, ?_, h.nodup⟩, ?_⟩
    · exact (rbSetColor_node_self t y c).trans (by rw [hy])
    · exact rbSetColor_node_of_ne t y c (ne_of_mem_of_not_mem hz hyl)
    · exact rbSetColor_node_of_ne t y c (ne_of_mem_of_not_mem hz hyr)
    · exact h.way.congr rfl fun z hz => rbSetColor_node_of_ne t y c fun he => hoff y hmem (he ▸ hz)
    · exact (inorder_plug_congr (ColorTree.inorder_paint c _) path).trans h.order
    · intro z hz
      refine rbSetColor_node_of_ne t y c ?_
      rintro rfl
      exact hz (h.mem_iff.mpr (.inl hmem))

/-- A rotation, seen from its place. -/
theorem At.rotate {d : Color} {e : ColorTree N} {y : N}
    (h : At t path (fork s c a x (fork s d b y e)) L) : ∃ t', t.rbRotate s x = some t' ∧
      At t' path (fork s d (fork s c a x b) y e) L ∧ Same L t t' := by
  obtain ⟨hx, ha, hright⟩ := layout_fork.mp h.here
  obtain ⟨hy, hb, he⟩ := layout_fork.mp hright
  obtain ⟨hnd, hndoff, hoff⟩ := h.apart
  simp only [ColorTree.nodup_fork, ColorTree.mem_fork, not_or] at hnd hoff
  obtain ⟨hxa, ⟨hxy, hxb, hxe⟩, -, ⟨hyb, hye, hndb, -, hbe⟩, hay⟩ := hnd
  rw [ColorTree.root_fork] at hx
  have hchild : t.child x s.other = some y := by rw [RbTree.child, hx, RbNode.child_other_fork]
  have hmoved : t.child y s = b.root := by rw [RbTree.child, hy, RbNode.child_fork]
  have hparent : t.rbParent x = above path := by rw [rbParent, hx, RbNode.rbParent_fork]
  -- the three links between the two nodes and the subtree that changes sides
  let t₁ := t.setChild s.other x b.root
  let t₂ := t₁.setParentOf b.root (some x)
  let t₃ := t₂.setChild s y (some x)
  let t₄ := t₃.rbSetParent y (above path)
  have haway : ∀ z, z ≠ x → z ≠ y → z ∉ b.inorder → t₄.node z = t.node z := by
    intro z hzx hzy hzb
    calc t₄.node z = t₃.node z := rbSetParent_node_of_ne t₃ y _ hzy
      _ = t₂.node z := setChild_node_of_ne t₂ s y _ hzy
      _ = t₁.node z := setParentOf_node_of_notMem hzb
      _ = t.node z := setChild_node_of_ne t _ x _ hzx
  have hx₄ : t₄.node x = RbNode.fork s (above path) c a.root b.root := by
    calc t₄.node x = t₃.node x := rbSetParent_node_of_ne t₃ y _ hxy
      _ = t₂.node x := setChild_node_of_ne t₂ s y _ hxy
      _ = t₁.node x := setParentOf_node_of_notMem hxb
      _ = _ := setChild_node_far t s x c b.root hx
  have hy₂ : t₂.node y = RbNode.fork s (some x) d b.root e.root := by
    calc t₂.node y = t₁.node y := setParentOf_node_of_notMem hyb
      _ = t.node y := setChild_node_of_ne t _ x _ (Ne.symm hxy)
      _ = _ := hy
  have hy₄ : t₄.node y = RbNode.fork s (above path) d (some x) e.root :=
    rbSetParent_node_fork t₃ s y d _ (setChild_node_near t₂ s y d (some x) hy₂)
  have hb₂ : Layout t₂.node (some x) b := by
    refine layout_setParentOf (hb.congr fun z hz => ?_) hndb
    exact setChild_node_of_ne t _ x _ (ne_of_mem_of_not_mem hz hxb)
  have hb₄ : Layout t₄.node (some x) b := by
    refine hb₂.congr fun z hz => ?_
    have hzy : z ≠ y := ne_of_mem_of_not_mem hz hyb
    exact (rbSetParent_node_of_ne t₃ y _ hzy).trans (setChild_node_of_ne t₂ s y _ hzy)
  have hway₄ : PathLayout t₄ path (some x) := by
    have hway := h.way
    rw [ColorTree.root_fork] at hway
    refine hway.congr ?_ fun z hz => haway z ?_ ?_ ?_
    · exact setParentOf_rbNode t₁ (some x) b.root
    · rintro rfl
      exact hoff z (by simp) hz
    · rintro rfl
      exact hoff z (by simp) hz
    · exact fun hzb => hoff z (by simp [hzb]) hz
  -- the pointer to the place, and the parent of the node that went down
  have hxoff : x ∉ offPath path := hoff x (by simp)
  have hyoff : y ∉ offPath path := hoff y (by simp)
  obtain ⟨hway₅, hsame₅⟩ := hway₄.changeChild (p := some y) hndoff hxoff s
  let t₅ := t₄.changeChild s x (some y) (above path)
  let t₆ := t₅.rbSetParent x (some y)
  have hsame₆ : ∀ z, z ≠ x → z ∉ offPath path → t₆.node z = t₄.node z := by
    intro z hzx hz
    exact (rbSetParent_node_of_ne t₅ x _ hzx).trans (hsame₅ z hz)
  have hin : ∀ z, z ≠ x → z ≠ y → z ∉ b.inorder → z ∉ offPath path → t₆.node z = t.node z :=
    fun z hzx hzy hzb hz => (hsame₆ z hzx hz).trans (haway z hzx hzy hzb)
  refine ⟨t₆, ?_, ⟨layout_fork.mpr ⟨?_, layout_fork.mpr ⟨?_, ha.congr fun z hz => ?_,
    hb₄.congr fun z hz => ?_⟩, he.congr fun z hz => ?_⟩, ?_, ?_, h.nodup⟩, ?_⟩
  · simp only [rbRotate, hchild, hmoved, hparent, Option.bind_eq_bind, Option.bind_some,
      Option.pure_def]
    rfl
  · rw [ColorTree.root_fork]
    exact (hsame₆ y (Ne.symm hxy) hyoff).trans hy₄
  · exact rbSetParent_node_fork t₅ s x c (some y) ((hsame₅ x hxoff).trans hx₄)
  · have hzoff : z ∉ offPath path := hoff z (by simp [hz])
    have hza := hay z hz
    exact hin z (ne_of_mem_of_not_mem hz hxa) hza.1 hza.2.1 hzoff
  · exact hsame₆ z (ne_of_mem_of_not_mem hz hxb) (hoff z (by simp [hz]))
  · have hzb : z ∉ b.inorder := fun hzb => hbe z hzb hz
    exact hin z (ne_of_mem_of_not_mem hz hxe) (ne_of_mem_of_not_mem hz hye) hzb
      (hoff z (by simp [hz]))
  · rw [ColorTree.root_fork]
    refine hway₅.congr rfl fun z hz => rbSetParent_node_of_ne t₅ x _ ?_
    rintro rfl
    exact hxoff hz
  · exact (inorder_plug_congr (ColorTree.inorder_rotate ..) path).trans h.order
  · intro z hz
    rw [h.mem_iff] at hz
    simp only [ColorTree.mem_fork, not_or] at hz
    exact hin z hz.1.1 hz.1.2.2.1 hz.1.2.2.2.1 hz.2

/-- A child is painted. -/
theorem At.setColor_child {y : N} (h : At t path (fork s c a x b) L)
    (hroot : a.root = some y) (d : Color) :
    At (t.rbSetColor y d) path (fork s c (a.paint d) x b) L ∧ Same L t (t.rbSetColor y d) := by
  obtain ⟨hat, hsame⟩ := (at_fork.mp h).setColor hroot d
  exact ⟨at_fork.mpr hat, hsame⟩

/-- The other child is painted. -/
theorem At.setColor_other {y : N} (h : At t path (fork s c a x b) L)
    (hroot : b.root = some y) (d : Color) :
    At (t.rbSetColor y d) path (fork s c a x (b.paint d)) L ∧ Same L t (t.rbSetColor y d) := by
  obtain ⟨hat, hsame⟩ := h.flip.setColor_child hroot d
  rw [ColorTree.fork_other] at hat
  exact ⟨hat, hsame⟩

/-- A child is rotated. -/
theorem At.rotate_child {s' : Side} {d e : Color} {f g k : ColorTree N} {y w : N}
    (h : At t path (fork s c (fork s' d f y (fork s' e g w k)) x b) L) :
    ∃ t', t.rbRotate s' y = some t' ∧
      At t' path (fork s c (fork s' e (fork s' d f y g) w k) x b) L ∧ Same L t t' := by
  obtain ⟨t', hrun, hat, hsame⟩ := (at_fork.mp h).rotate
  exact ⟨t', hrun, at_fork.mpr hat, hsame⟩

end Pieces

end RbTree

end NerdRtos
