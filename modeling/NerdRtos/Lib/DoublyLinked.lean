import Mathlib.Logic.Function.Basic
import Mathlib.Data.List.Nodup
import Mathlib.Tactic.Common

/-!
# Doubly linked lists

The links of doubly linked lists are two functions, `next` and `prev`. `Seg a l b` says that the
links lead from node `a` through the nodes `l` to node `b`, and back; with `a = b` it is a cyclic
list with the head `a`. Insertion, removal and replacement of a node are the updates that the code
of such lists makes, and what they do to a segment is said here once.
-/

set_option autoImplicit false

/-- The links of doubly linked lists over nodes `α`. -/
structure Links (α : Type) where
  next : α → α
  prev : α → α

namespace Links

open Function (update)

variable {α : Type} {L L' : Links α} {a b x y z : α} {l r : List α}

/-- The links lead from `a` through `l` to `b`, and back. -/
def Seg (L : Links α) : α → List α → α → Prop
  | a, [], b => L.next a = b ∧ L.prev b = a
  | a, x :: l, b => L.next a = x ∧ L.prev x = a ∧ L.Seg x l b

/-- A segment through `x` is one up to `x` and one from there on. -/
theorem seg_append : L.Seg a (l ++ x :: r) b ↔ L.Seg a l x ∧ L.Seg x r b := by
  induction l generalizing a with
  | nil => simp [Seg, and_assoc]
  | cons y l ih => simp [Seg, ih, and_assoc]

/-- A segment depends on the links between its nodes only. -/
theorem Seg.congr (h : L.Seg a l b) (hn : ∀ x ∈ a :: l, L'.next x = L.next x)
    (hp : ∀ y ∈ b :: l, L'.prev y = L.prev y) : L'.Seg a l b := by
  induction l generalizing a with
  | nil =>
    obtain ⟨h₁, h₂⟩ := h
    exact ⟨(hn a (by simp)).trans h₁, (hp b (by simp)).trans h₂⟩
  | cons x l ih =>
    obtain ⟨h₁, h₂, h₃⟩ := h
    refine ⟨(hn a (by simp)).trans h₁, (hp x (by simp)).trans h₂, ih h₃ ?_ ?_⟩
    · exact fun y hy => hn y (List.mem_cons_of_mem a hy)
    · intro y hy
      refine hp y ?_
      simp only [List.mem_cons] at hy ⊢
      tauto

/-- Where a link of a segment leads. -/
theorem Seg.next_mem (h : L.Seg a l b) (hx : x ∈ a :: l) : L.next x ∈ b :: l := by
  induction l generalizing a with
  | nil =>
    have hxa : x = a := by simpa using hx
    rw [hxa, h.1]
    simp
  | cons y l ih =>
    rcases List.mem_cons.mp hx with rfl | hx
    · rw [h.1]
      simp
    · have hmem := ih h.2.2 hx
      simp only [List.mem_cons] at hmem ⊢
      tauto

/-- Where a link back leads. -/
theorem Seg.prev_mem (h : L.Seg a l b) (hx : x ∈ b :: l) : L.prev x ∈ a :: l := by
  induction l generalizing a with
  | nil =>
    have hxb : x = b := by simpa using hx
    rw [hxb, h.2]
    simp
  | cons y l ih =>
    have hcases : x = y ∨ x ∈ b :: l := by
      simp only [List.mem_cons] at hx ⊢
      tauto
    rcases hcases with rfl | hx
    · rw [h.2.1]
      simp
    · exact List.mem_cons_of_mem a (ih h.2.2 hx)

/-- A segment whose head moves: other links lead from `a'` through `m` to the node after `a`. -/
theorem Seg.prepend {a' : α} {m : List α} (h : L.Seg a l b) (hm : L'.Seg a' m (L.next a))
    (hn : ∀ x ∈ l, L'.next x = L.next x) (hp : ∀ x ∈ b :: l, x ≠ L.next a → L'.prev x = L.prev x)
    (hd : (b :: l).Nodup) : L'.Seg a' (m ++ l) b := by
  cases l with
  | nil =>
    rw [h.1] at hm
    rw [List.append_nil]
    exact hm
  | cons y l =>
    obtain ⟨h₁, -, h₃⟩ := h
    rw [h₁] at hm hp
    refine seg_append.mpr ⟨hm, h₃.congr hn fun x hx => hp x ?_ ?_⟩
    · simp only [List.mem_cons] at hx ⊢
      tauto
    · rintro rfl
      simp only [List.nodup_cons, List.mem_cons, not_or] at hd
      rcases List.mem_cons.mp hx with rfl | hx
      · exact hd.1.1 rfl
      · exact hd.2.1 hx

/-- A segment whose end moves: other links lead from the node before `b` through `m` to `b'`. -/
theorem Seg.append {b' : α} {m : List α} (h : L.Seg a l b) (hm : L'.Seg (L.prev b) m b')
    (hn : ∀ x ∈ a :: l, x ≠ L.prev b → L'.next x = L.next x) (hp : ∀ x ∈ l, L'.prev x = L.prev x)
    (hd : (a :: l).Nodup) : L'.Seg a (l ++ m) b' := by
  rcases List.eq_nil_or_concat l with rfl | ⟨l, w, rfl⟩
  · rw [h.2] at hm
    exact hm
  · rw [List.concat_eq_append] at h hn hp hd ⊢
    obtain ⟨h₁, -, h₃⟩ := seg_append.mp h
    rw [h₃] at hm hn
    rw [List.append_assoc]
    refine seg_append.mpr ⟨h₁.congr (fun x hx => hn x ?_ ?_) fun x hx => hp x ?_, hm⟩
    · simp only [List.mem_cons, List.mem_append] at hx ⊢
      tauto
    · rintro rfl
      simp only [List.nodup_cons, List.mem_append, List.nodup_append, List.mem_cons] at hd hx
      rcases hx with rfl | hx
      · exact hd.1 (.inr (.inl rfl))
      · exact hd.2.2.2 x hx x (.inl rfl) rfl
    · simp only [List.mem_cons, List.mem_append, List.not_mem_nil, or_false] at hx ⊢
      tauto

/-- What lies before and behind a node of a segment. -/
theorem Seg.around (h : L.Seg a (l ++ x :: r) b) : L.prev x ∈ a :: l ∧ L.next x ∈ b :: r := by
  obtain ⟨h₁, h₂⟩ := seg_append.mp h
  exact ⟨h₁.prev_mem (by simp), h₂.next_mem (by simp)⟩

/-- The links where two parts of a segment meet. -/
theorem Seg.meet (h : L.Seg a (l ++ r) b) : L.next (l.getLast?.getD a) = r.head?.getD b ∧
    L.prev (r.head?.getD b) = l.getLast?.getD a := by
  induction l generalizing a with
  | nil =>
    cases r with
    | nil => exact h
    | cons x r => exact ⟨h.1, h.2.1⟩
  | cons x l ih =>
    rw [List.getLast?_cons, Option.getD_some]
    exact ih h.2.2

/-- New links in the place of node `x`. -/
theorem Seg.change {m : List α} (h : L.Seg a (l ++ x :: r) b) (ha : (a :: (l ++ x :: r)).Nodup)
    (hb : (b :: (l ++ x :: r)).Nodup) (hm : L'.Seg (L.prev x) m (L.next x))
    (hn : ∀ y ∈ a :: (l ++ r), y ≠ L.prev x → L'.next y = L.next y)
    (hp : ∀ y ∈ b :: (l ++ r), y ≠ L.next x → L'.prev y = L.prev y) :
    L'.Seg a (l ++ (m ++ r)) b := by
  obtain ⟨hprev, hnext⟩ := h.around
  obtain ⟨h₁, h₂⟩ := seg_append.mp h
  simp only [List.nodup_cons, List.nodup_append, List.mem_append, List.mem_cons, not_or] at ha hb
  have hback : ∀ y ∈ r, y ≠ L.prev x := by
    rintro y hy rfl
    rcases List.mem_cons.mp hprev with he | hl
    · exact ha.1.2.2 (he ▸ hy)
    · exact ha.2.2.2 _ hl _ (.inr hy) rfl
  have hahead : ∀ y ∈ l, y ≠ L.next x := by
    rintro y hy rfl
    rcases List.mem_cons.mp hnext with he | hr
    · exact hb.1.1 (he ▸ hy)
    · exact hb.2.2.2 _ hy _ (.inr hr) rfl
  have hlate : L'.Seg (L.prev x) (m ++ r) b := by
    refine h₂.prepend hm (fun y hy => hn y ?_ (hback y hy)) (fun y hy => hp y ?_) ?_
    · simp [hy]
    · simp only [List.mem_cons, List.mem_append] at hy ⊢
      tauto
    · simpa using ⟨hb.1.2.2, hb.2.2.1.2⟩
  refine h₁.append hlate (fun y hy => hn y ?_) (fun y hy => hp y ?_ (hahead y hy)) ?_
  · simp only [List.mem_cons, List.mem_append] at hy ⊢
    tauto
  · simp [hy]
  · simpa using ⟨ha.1.1, ha.2.1⟩

section Operations

variable [DecidableEq α]

/-- Node `z` inserted after node `a`. -/
def insertAfter (L : Links α) (a z : α) : Links α where
  next := update (update L.next z (L.next a)) a z
  prev := update (update L.prev z a) (L.next a) z

/-- Node `z` taken out. -/
def remove (L : Links α) (z : α) : Links α where
  next := update L.next (L.prev z) (L.next z)
  prev := update L.prev (L.next z) (L.prev z)

/-- Node `z` put in the place of node `x`. -/
def replace (L : Links α) (x z : α) : Links α where
  next := update (update L.next z (L.next x)) (L.prev x) z
  prev := update (update L.prev z (L.prev x)) (L.next x) z

/-- A new node after the head of a segment. -/
theorem Seg.insert_head (h : L.Seg a l b) (ha : (a :: l).Nodup) (hb : (b :: l).Nodup) (hza : z ≠ a)
    (hzb : z ∉ b :: l) : (L.insertAfter a z).Seg a (z :: l) b := by
  have hnext := h.next_mem (x := a) (by simp)
  have hne : L.next a ≠ z := fun he => hzb (he ▸ hnext)
  refine h.prepend (m := [z]) ?_ (fun x hx => ?_) (fun x hx hxn => ?_) hb
  · refine ⟨by simp [insertAfter], by simp [insertAfter, hne.symm], ?_, by simp [insertAfter]⟩
    simp [insertAfter, hza]
  · have hxa : x ≠ a := by
      rintro rfl
      exact (List.nodup_cons.mp ha).1 hx
    have hxz : x ≠ z := by
      rintro rfl
      exact hzb (List.mem_cons_of_mem b hx)
    simp [insertAfter, hxa, hxz]
  · have hxz : x ≠ z := fun he => hzb (he ▸ hx)
    simp [insertAfter, hxn, hxz]

/-- A new node after a node `w` of a segment. -/
theorem Seg.insert {w : α} (h : L.Seg a (l ++ w :: r) b) (ha : (a :: (l ++ w :: r)).Nodup)
    (hb : (b :: (l ++ w :: r)).Nodup) (hza : z ∉ a :: (l ++ w :: r)) (hzb : z ≠ b) :
    (L.insertAfter w z).Seg a (l ++ w :: z :: r) b := by
  obtain ⟨h₁, h₂⟩ := seg_append.mp h
  simp only [List.nodup_cons, List.nodup_append, List.mem_append, List.mem_cons,
    not_or] at ha hb hza
  refine seg_append.mpr ⟨h₁.congr (fun x hx => ?_) fun x hx => ?_, h₂.insert_head ?_ ?_ ?_ ?_⟩
  · have hxw : x ≠ w := by
      rintro rfl
      rcases List.mem_cons.mp hx with rfl | hx
      · exact ha.1.2.1 rfl
      · exact ha.2.2.2 x hx x (.inl rfl) rfl
    have hxz : x ≠ z := by
      rintro rfl
      rcases List.mem_cons.mp hx with rfl | hx
      · exact hza.1 rfl
      · exact hza.2.1 hx
    simp [insertAfter, hxw, hxz]
  · have hxn : x ≠ L.next w := by
      rintro rfl
      have hnext := h₂.next_mem (x := w) (by simp)
      rcases List.mem_cons.mp hx with hx | hx <;> rcases List.mem_cons.mp hnext with hn | hn
      · exact hb.1.2.1 (hn.symm.trans hx)
      · rw [hx] at hn
        exact ha.2.2.1.1 hn
      · rw [hn] at hx
        exact hb.1.1 hx
      · exact ha.2.2.2 _ hx _ (.inr hn) rfl
    have hxz : x ≠ z := by
      rintro rfl
      rcases List.mem_cons.mp hx with rfl | hx
      · exact hza.2.2.1 rfl
      · exact hza.2.1 hx
    simp [insertAfter, hxn, hxz]
  · simpa using ha.2.2.1
  · simpa using ⟨hb.1.2.2, hb.2.2.1.2⟩
  · exact hza.2.2.1
  · simpa using ⟨hzb, hza.2.2.2⟩

/-- A new node where two parts of a segment meet. -/
theorem Seg.insert_between (h : L.Seg a (l ++ r) b) (ha : (a :: (l ++ r)).Nodup)
    (hb : (b :: (l ++ r)).Nodup) (hza : z ∉ a :: (l ++ r)) (hzb : z ≠ b) :
    (L.insertAfter (l.getLast?.getD a) z).Seg a (l ++ z :: r) b := by
  rcases List.eq_nil_or_concat l with rfl | ⟨l, w, rfl⟩
  · simp only [List.nil_append, List.mem_cons, not_or] at h ha hb hza
    refine h.insert_head ha hb hza.1 ?_
    simpa using ⟨hzb, hza.2⟩
  · simp only [List.concat_eq_append, List.append_assoc, List.singleton_append] at h ha hb hza
    simpa using h.insert ha hb hza hzb

/-- A node is taken out of a segment. -/
theorem Seg.remove (h : L.Seg a (l ++ x :: r) b) (ha : (a :: (l ++ x :: r)).Nodup)
    (hb : (b :: (l ++ x :: r)).Nodup) : (L.remove x).Seg a (l ++ r) b := by
  refine h.change (m := []) ha hb ⟨?_, ?_⟩ (fun y _ hy => ?_) fun y _ hy => ?_
  · simp [Links.remove]
  · simp [Links.remove]
  · simp [Links.remove, hy]
  · simp [Links.remove, hy]

/-- A new node in the place of a node of a segment. -/
theorem Seg.replace (h : L.Seg a (l ++ x :: r) b) (ha : (a :: (l ++ x :: r)).Nodup)
    (hb : (b :: (l ++ x :: r)).Nodup) (hza : z ∉ a :: (l ++ x :: r)) (hzb : z ≠ b) :
    (L.replace x z).Seg a (l ++ z :: r) b := by
  obtain ⟨hprev, hnext⟩ := h.around
  have hzp : z ≠ L.prev x := by
    rintro rfl
    refine hza ?_
    simp only [List.mem_cons, List.mem_append] at hprev ⊢
    tauto
  have hzn : z ≠ L.next x := by
    rintro rfl
    rcases List.mem_cons.mp hnext with he | hr
    · exact hzb he
    · exact hza (by simp [hr])
  refine h.change (m := [z]) ha hb ⟨?_, ?_, ?_, ?_⟩ (fun y hy hyp => ?_) fun y hy hyn => ?_
  · simp [Links.replace]
  · simp [Links.replace, hzn]
  · simp [Links.replace, hzp]
  · simp [Links.replace]
  · have hyz : y ≠ z := by
      rintro rfl
      refine hza ?_
      simp only [List.mem_cons, List.mem_append] at hy ⊢
      tauto
    simp [Links.replace, hyp, hyz]
  · have hyz : y ≠ z := by
      rintro rfl
      simp only [List.mem_cons, List.mem_append] at hy hza
      tauto
    simp [Links.replace, hyn, hyz]

end Operations

end Links
