import NerdRtos.Lib.Intrusive

/-!
# Search trees

Binary trees whose nodes are linked in by a descent from the root: to the left of a node that
satisfies `p` and to the right of any other. When the nodes that satisfy `p` come last in the
in-order sequence, the new node comes in front of the first of them (`inorder_descend`), and the
node that is furthest to the left is the first of the sequence (`first_eq`). `Balancing` is what a
library does beside this, to keep the tree flat: the in-order sequence says all that its users may
rely on.
-/

set_option autoImplicit false

namespace SearchTree

open Intrusive (insertWhere)

variable {N : Type}

/-- A binary tree. -/
inductive BinTree (N : Type)
  | leaf
  | node (l : BinTree N) (x : N) (r : BinTree N)

namespace BinTree

/-- The nodes from left to right. -/
def inorder : BinTree N → List N
  | leaf => []
  | node l x r => l.inorder ++ x :: r.inorder

/-- The node that is furthest to the left. -/
def first : BinTree N → Option N
  | leaf => none
  | node l x _ => some (l.first.getD x)

/-- The descent to where `n` is linked in. -/
def descend (p : N → Bool) (n : N) : BinTree N → BinTree N
  | leaf => node leaf n leaf
  | node l x r => if p x then node (l.descend p n) x r else node l x (r.descend p n)

/-- The leftmost node is the first of the sequence. -/
theorem first_eq (t : BinTree N) : t.first = t.inorder.head? := by
  induction t with
  | leaf => rfl
  | node l x r ihl ihr =>
    unfold first inorder
    rw [ihl]
    cases l.inorder <;> rfl

/-- In front of a node that satisfies `p`. -/
theorem insertWhere_left {p : N → Bool} {n x : N} (hx : p x = true) (l r : List N) :
    insertWhere p n (l ++ x :: r) = insertWhere p n l ++ x :: r := by
  induction l with
  | nil => simp [insertWhere, hx]
  | cons y l ih =>
    rw [List.cons_append, insertWhere, insertWhere]
    split
    · rfl
    · rw [ih, List.cons_append]

/-- Behind the nodes that do not satisfy `p`. -/
theorem insertWhere_right {p : N → Bool} {n : N} {l : List N} (hl : ∀ x ∈ l, p x = false)
    (r : List N) :
    insertWhere p n (l ++ r) = l ++ insertWhere p n r := by
  induction l with
  | nil => rfl
  | cons y l ih =>
    rw [List.cons_append, insertWhere, if_neg (by simp [hl y]), ih fun x hx => hl x (by simp [hx])]
    rfl

/-- A node is linked in in front of the first one that satisfies `p`. -/
theorem inorder_descend {p : N → Bool} {n : N} {t : BinTree N}
    (h : t.inorder.Pairwise fun x y => p x = true → p y = true) :
    (t.descend p n).inorder = insertWhere p n t.inorder := by
  induction t with
  | leaf => rfl
  | node l x r ihl ihr =>
    unfold inorder at h
    rw [List.pairwise_append, List.pairwise_cons] at h
    obtain ⟨hl, ⟨-, hr⟩, hlr⟩ := h
    unfold descend
    split
    · rename_i hx
      show (l.descend p n).inorder ++ x :: r.inorder = _
      rw [ihl hl, inorder, insertWhere_left hx]
    · rename_i hx
      have hxf : p x = false := by simpa using hx
      have hpass : ∀ y ∈ l.inorder ++ [x], p y = false := by
        intro y hy
        rcases List.mem_append.mp hy with hy | hy
        · by_contra hp
          exact hx (hlr y hy x (by simp) (by simpa using hp))
        · rw [List.mem_singleton.mp hy]
          exact hxf
      show l.inorder ++ x :: (r.descend p n).inorder = insertWhere p n (l.inorder ++ x :: r.inorder)
      rw [ihr hr, List.append_cons l.inorder x r.inorder, insertWhere_right hpass,
        List.append_assoc]
      rfl

end BinTree

/-- What a library does to a tree after a node was linked in, and to take one out. -/
structure Balancing (N : Type) [DecidableEq N] where
  insertColor : N → BinTree N → BinTree N
  erase : N → BinTree N → BinTree N
  inorder_insertColor : ∀ n t, (insertColor n t).inorder = t.inorder
  inorder_erase : ∀ n t, t.inorder.Nodup → (erase n t).inorder = t.inorder.erase n

/-! ## Without rebalancing -/

namespace BinTree

/-- One tree to the right of the other. -/
def join : BinTree N → BinTree N → BinTree N
  | leaf, t => t
  | node l x r, t => node l x (r.join t)

/-- Joining two trees puts one sequence behind the other. -/
theorem inorder_join (t u : BinTree N) : (t.join u).inorder = t.inorder ++ u.inorder := by
  induction t with
  | leaf => rfl
  | node l x r _ ih =>
    show l.inorder ++ x :: (r.join u).inorder = _
    rw [ih, inorder, List.append_assoc, List.cons_append]

variable [DecidableEq N]

/-- The tree without `n`. -/
def cut (n : N) : BinTree N → BinTree N
  | leaf => leaf
  | node l x r => if x = n then l.join r else node (l.cut n) x (r.cut n)

/-- Cutting a node out of a tree takes it out of the sequence. -/
theorem inorder_cut (n : N) (t : BinTree N) (h : t.inorder.Nodup) :
    (t.cut n).inorder = t.inorder.erase n := by
  induction t with
  | leaf => rfl
  | node l x r ihl ihr =>
    unfold inorder at h
    rw [List.nodup_append, List.nodup_cons] at h
    obtain ⟨hl, ⟨hx, hr⟩, hlr⟩ := h
    show (if x = n then l.join r else node (l.cut n) x (r.cut n)).inorder =
      (l.inorder ++ x :: r.inorder).erase n
    by_cases heq : x = n
    · subst heq
      have hnl : x ∉ l.inorder := fun hm => hlr x hm x (by simp) rfl
      rw [if_pos rfl, inorder_join, List.erase_append_right _ hnl, List.erase_cons_head]
    · rw [if_neg heq]
      show (l.cut n).inorder ++ x :: (r.cut n).inorder = _
      rw [ihl hl, ihr hr]
      by_cases hm : n ∈ l.inorder
      · have hnr : n ∉ r.inorder := fun hmr => hlr n hm n (by simp [hmr]) rfl
        rw [List.erase_append_left _ hm, List.erase_of_not_mem hnr]
      · rw [List.erase_append_right _ hm, List.erase_of_not_mem hm,
          List.erase_cons_tail (by simpa using heq)]

end BinTree

/-- Trees that are not rebalanced. -/
def unbalanced [DecidableEq N] : Balancing N where
  insertColor _ t := t
  erase := BinTree.cut
  inorder_insertColor _ _ := rfl
  inorder_erase := BinTree.inorder_cut

end SearchTree
