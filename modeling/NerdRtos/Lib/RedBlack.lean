import Mathlib.Algebra.Group.Nat.Defs
import Mathlib.Data.List.Nodup
import Mathlib.Tactic.Common

/-!
# Red-black trees

Binary trees with a colour in each node. `Balanced t c n` says that `t` has a root of colour `c`, no
red node below a red one, and `n` black nodes on each way down. A tree is looked at from one of its
places: `plug path t` has `t` at the end of `path`, and `Fits path c n` says what the tree there has
to be for the whole to be balanced, with a black root.

Nothing here depends on left and right. `fork s` is a node with its subtree on side `s` first, and a
rotation, a frame of a path and the lemmas about them are for either side.
-/

set_option autoImplicit false

namespace RedBlack

/-- The two sides of a node. -/
inductive Side
  | left
  | right
  deriving DecidableEq, Repr

/-- The opposite side. -/
def Side.other : Side → Side
  | left => right
  | right => left

/-- The other side of the other side is the side. -/
@[simp] theorem Side.other_other (s : Side) : s.other.other = s := by cases s <;> rfl

/-- The other side is not the side. -/
@[simp] theorem Side.other_ne (s : Side) : s.other ≠ s := by cases s <;> decide

/-- There are two sides. -/
theorem Side.eq_other {s s' : Side} (h : s' ≠ s) : s' = s.other := by
  cases s <;> cases s' <;> first | rfl | exact absurd rfl h

/-- The colours of a node. -/
inductive Color
  | red
  | black
  deriving DecidableEq, Repr

/-- How many black nodes a node of the colour is. -/
def Color.weight : Color → ℕ
  | red => 0
  | black => 1

/-- A binary tree with a colour in each node. -/
inductive ColorTree (N : Type)
  | nil
  | node (c : Color) (l : ColorTree N) (x : N) (r : ColorTree N)
  deriving DecidableEq, Repr

variable {N : Type}

namespace ColorTree

/-- The nodes from left to right. -/
def inorder : ColorTree N → List N
  | nil => []
  | node _ l x r => l.inorder ++ x :: r.inorder

/-- The root node. -/
def root : ColorTree N → Option N
  | nil => none
  | node _ _ x _ => some x

/-- The colour of the root. An empty tree counts as black. -/
def color : ColorTree N → Color
  | nil => .black
  | node c _ _ _ => c

/-- The tree with a root of colour `c`. -/
def paint (c : Color) : ColorTree N → ColorTree N
  | nil => nil
  | node _ l x r => node c l x r

/-- The number of nodes on the longest way down. -/
def height : ColorTree N → ℕ
  | nil => 0
  | node _ l _ r => max l.height r.height + 1

/-- A node with `near` on side `s` and `far` on the other. -/
def fork (s : Side) (c : Color) (near : ColorTree N) (x : N) (far : ColorTree N) : ColorTree N :=
  match s with
  | .left => node c near x far
  | .right => node c far x near

/-- The same node from its other side. -/
theorem fork_other (s : Side) (c : Color) (a : ColorTree N) (x : N) (b : ColorTree N) :
    fork s.other c b x a = fork s c a x b := by
  cases s <;> rfl

/-- Every node is a fork, from either side. -/
theorem exists_fork (s : Side) (c : Color) (l : ColorTree N) (x : N) (r : ColorTree N) :
    ∃ a b, node c l x r = fork s c a x b := by
  cases s
  · exact ⟨l, r, rfl⟩
  · exact ⟨r, l, rfl⟩

/-- A fork has a node. -/
theorem fork_ne_nil (s : Side) (c : Color) (a : ColorTree N) (x : N) (b : ColorTree N) :
    fork s c a x b ≠ nil := by
  cases s <;> simp [fork]

/-- The root of a fork is its node. -/
@[simp] theorem root_fork (s : Side) (c : Color) (a : ColorTree N) (x : N) (b : ColorTree N) :
    (fork s c a x b).root = some x := by
  cases s <;> rfl

/-- The colour of a fork is that of its node. -/
@[simp] theorem color_fork (s : Side) (c : Color) (a : ColorTree N) (x : N) (b : ColorTree N) :
    (fork s c a x b).color = c := by
  cases s <;> rfl

/-- Painting a fork paints its node. -/
@[simp] theorem paint_fork (s : Side) (c d : Color) (a : ColorTree N) (x : N) (b : ColorTree N) :
    (fork s c a x b).paint d = fork s d a x b := by
  cases s <;> rfl

/-- A fork is one level higher than the higher one of its subtrees. -/
theorem height_fork (s : Side) (c : Color) (a : ColorTree N) (x : N) (b : ColorTree N) :
    (fork s c a x b).height = max a.height b.height + 1 := by
  cases s
  · rfl
  · exact congrArg (· + 1) (Nat.max_comm ..)

/-- Painting leaves the order. -/
@[simp] theorem inorder_paint (c : Color) (t : ColorTree N) : (t.paint c).inorder = t.inorder := by
  cases t <;> rfl

/-- The nodes of a fork are its own one and those of the subtrees, on whatever side they are. -/
theorem mem_fork {s : Side} {c : Color} {a : ColorTree N} {x : N} {b : ColorTree N} {z : N} :
    z ∈ (fork s c a x b).inorder ↔ z = x ∨ z ∈ a.inorder ∨ z ∈ b.inorder := by
  cases s <;> simp only [fork, inorder, List.mem_append, List.mem_cons] <;> tauto

/-- A fork has no node twice when its subtrees have none twice, do not share one, and do not have
its own. -/
theorem nodup_fork {s : Side} {c : Color} {a : ColorTree N} {x : N} {b : ColorTree N} :
    (fork s c a x b).inorder.Nodup ↔ x ∉ a.inorder ∧ x ∉ b.inorder ∧ a.inorder.Nodup ∧
      b.inorder.Nodup ∧ ∀ z ∈ a.inorder, z ∉ b.inorder := by
  cases s <;> simp only [fork, inorder, List.nodup_append, List.nodup_cons, List.mem_cons] <;>
    grind

/-- The root is one of the nodes. -/
theorem mem_root {t : ColorTree N} {x : N} (h : t.root = some x) : x ∈ t.inorder := by
  cases t with
  | nil => cases h
  | node c l y r =>
    rw [root, Option.some_inj] at h
    rw [inorder, h]
    simp

/-- A rotation: the root goes down on side `s`, the node on its other side comes up. -/
theorem inorder_rotate (s : Side) (c d c' d' : Color) (a b e : ColorTree N) (x y : N) :
    (fork s d' (fork s c' a x b) y e).inorder = (fork s c a x (fork s d b y e)).inorder := by
  cases s <;> simp [fork, inorder]

end ColorTree

open ColorTree

/-! ## Paths -/

/-- A node on the way to a place in a tree: the way goes on at `side` of it, and `sib` is on its
other side. -/
structure Frame (N : Type) where
  side : Side
  color : Color
  node : N
  sib : ColorTree N

/-- The tree with `t` in the place. -/
def Frame.put (f : Frame N) (t : ColorTree N) : ColorTree N := fork f.side f.color t f.node f.sib

/-- The whole tree with `t` in the place. The path goes up, from the parent of the place. -/
def plug : List (Frame N) → ColorTree N → ColorTree N
  | [], t => t
  | f :: path, t => plug path (f.put t)

/-- A tree in the empty path is itself. -/
@[simp] theorem plug_nil (t : ColorTree N) : plug [] t = t := rfl

/-- A tree goes into a path one level at a time, from below. -/
@[simp] theorem plug_cons (f : Frame N) (path : List (Frame N)) (t : ColorTree N) :
    plug (f :: path) t = plug path (f.put t) := rfl

/-- A path of two parts is plugged in two steps. -/
theorem plug_append (p q : List (Frame N)) (t : ColorTree N) :
    plug (p ++ q) t = plug q (plug p t) := by
  induction p generalizing t with
  | nil => rfl
  | cons f p ih => exact ih (f.put t)

/-- The nodes off the place, those to its left and those to its right. -/
def before : List (Frame N) → List N
  | [] => []
  | f :: path =>
    match f.side with
    | .left => before path
    | .right => before path ++ f.sib.inorder ++ [f.node]

@[inherit_doc before] def after : List (Frame N) → List N
  | [] => []
  | f :: path =>
    match f.side with
    | .left => f.node :: f.sib.inorder ++ after path
    | .right => after path

/-- What comes before the subtree, the subtree, and what comes after it. -/
theorem inorder_plug (path : List (Frame N)) (t : ColorTree N) :
    (plug path t).inorder = before path ++ t.inorder ++ after path := by
  induction path generalizing t with
  | nil => simp [before, after]
  | cons f path ih =>
    rw [plug_cons, ih, Frame.put, before, after]
    cases f.side <;> simp [fork, inorder]

/-- Down on the left there is nothing before. -/
theorem before_eq_nil {path : List (Frame N)} (h : ∀ f ∈ path, f.side = .left) :
    before path = [] := by
  induction path with
  | nil => rfl
  | cons f path ih =>
    rw [before, h f (by simp)]
    exact ih fun g hg => h g (by simp [hg])

/-- Down on the right there is nothing behind. -/
theorem after_eq_nil {path : List (Frame N)} (h : ∀ f ∈ path, f.side = .right) :
    after path = [] := by
  induction path with
  | nil => rfl
  | cons f path ih =>
    rw [after, h f (by simp)]
    exact ih fun g hg => h g (by simp [hg])

/-- The node that is furthest to the left. -/
theorem inorder_plug_left {path : List (Frame N)} (h : ∀ f ∈ path, f.side = .left) (c : Color)
    (x : N) (b : ColorTree N) :
    (plug path (fork .left c .nil x b)).inorder = x :: (plug path b).inorder := by
  rw [inorder_plug, inorder_plug, before_eq_nil h]
  rfl

/-- What is at the place counts in the order of all nodes by its own order. -/
theorem inorder_plug_congr {t u : ColorTree N} (h : t.inorder = u.inorder) (path : List (Frame N)) :
    (plug path t).inorder = (plug path u).inorder := by
  rw [inorder_plug, inorder_plug, h]

/-- The nodes off the place. -/
def offPath (path : List (Frame N)) : List N := path.flatMap fun f => f.node :: f.sib.inorder

/-- The empty path has no nodes. -/
@[simp] theorem offPath_nil : offPath ([] : List (Frame N)) = [] := rfl

/-- The nodes of a path are those of its lowest level and those above. -/
@[simp] theorem offPath_cons (f : Frame N) (path : List (Frame N)) :
    offPath (f :: path) = f.node :: f.sib.inorder ++ offPath path := rfl

/-- A node of the whole tree is in the subtree or off the path. -/
theorem mem_plug {path : List (Frame N)} {t : ColorTree N} {z : N} :
    z ∈ (plug path t).inorder ↔ z ∈ t.inorder ∨ z ∈ offPath path := by
  induction path generalizing t with
  | nil => simp
  | cons f path ih =>
    rw [plug_cons, ih, Frame.put, mem_fork]
    simp only [offPath_cons, List.cons_append, List.mem_cons, List.mem_append]
    tauto

/-- The whole tree has no node twice when neither part has one twice and they share none. -/
theorem nodup_plug {path : List (Frame N)} {t : ColorTree N} :
    (plug path t).inorder.Nodup ↔
      t.inorder.Nodup ∧ (offPath path).Nodup ∧ ∀ z ∈ t.inorder, z ∉ offPath path := by
  induction path generalizing t with
  | nil => simp
  | cons f path ih =>
    rw [plug_cons, ih, Frame.put, nodup_fork]
    simp only [mem_fork, offPath_cons, List.cons_append, List.nodup_cons, List.nodup_append,
      List.mem_cons, List.mem_append]
    grind

/-- The root is off the place, unless the place is all of the tree. -/
theorem exists_root_plug (f : Frame N) (path : List (Frame N)) :
    ∃ y ∈ offPath (f :: path), ∀ t, (plug (f :: path) t).root = some y := by
  induction path generalizing f with
  | nil => exact ⟨f.node, by simp, fun t => root_fork ..⟩
  | cons g path ih =>
    obtain ⟨y, hy, hroot⟩ := ih g
    refine ⟨y, ?_, fun t => hroot (f.put t)⟩
    rw [offPath_cons]
    exact List.mem_append_right _ hy

/-- Every node has its place. -/
theorem exists_plug (s : Side) {t : ColorTree N} {x : N} (h : x ∈ t.inorder) :
    ∃ path c a b, t = plug path (fork s c a x b) := by
  induction t with
  | nil => cases h
  | node c l y r ihl ihr =>
    have hcases : x ∈ l.inorder ∨ x = y ∨ x ∈ r.inorder := by
      simpa [inorder] using h
    rcases hcases with hl | rfl | hr
    · obtain ⟨path, d, a, b, rfl⟩ := ihl hl
      refine ⟨path ++ [⟨.left, c, y, r⟩], d, a, b, ?_⟩
      rw [plug_append]
      rfl
    · obtain ⟨a, b, he⟩ := exists_fork s c l x r
      exact ⟨[], c, a, b, he⟩
    · obtain ⟨path, d, a, b, rfl⟩ := ihr hr
      refine ⟨path ++ [⟨.right, c, y, l⟩], d, a, b, ?_⟩
      rw [plug_append]
      rfl

/-! ## Balance -/

/-- A tree with a root of colour `c` and `n` black nodes on each way down, and no red node below a
red one. -/
inductive Balanced : ColorTree N → Color → ℕ → Prop
  | nil : Balanced .nil .black 0
  | red {l r : ColorTree N} {x : N} {n : ℕ} (hl : Balanced l .black n) (hr : Balanced r .black n) :
    Balanced (.node .red l x r) .red n
  | black {l r : ColorTree N} {x : N} {c d : Color} {n : ℕ} (hl : Balanced l c n)
    (hr : Balanced r d n) : Balanced (.node .black l x r) .black (n + 1)

/-- A red-black tree: balanced, with a black root. -/
def IsRedBlack (t : ColorTree N) : Prop := ∃ n, Balanced t .black n

section Balance

variable {t a b : ColorTree N} {s : Side} {c d : Color} {x : N} {n : ℕ}

/-- A balanced tree has one colour. -/
theorem Balanced.color_eq (h : Balanced t c n) : t.color = c := by
  cases h <;> rfl

/-- A red fork has black subtrees of its own black height. -/
theorem balanced_fork_red :
    Balanced (fork s .red a x b) c n ↔ c = .red ∧ Balanced a .black n ∧ Balanced b .black n := by
  constructor
  · intro h
    cases s <;> cases h with | red hl hr => first | exact ⟨rfl, hl, hr⟩ | exact ⟨rfl, hr, hl⟩
  · rintro ⟨rfl, ha, hb⟩
    cases s
    · exact .red ha hb
    · exact .red hb ha

/-- A black fork has balanced subtrees of a black height one less. -/
theorem balanced_fork_black :
    Balanced (fork s .black a x b) c n ↔
      ∃ m, c = .black ∧ n = m + 1 ∧ (∃ d, Balanced a d m) ∧ ∃ d, Balanced b d m := by
  constructor
  · intro h
    cases s <;> cases h with
      | black hl hr => first
        | exact ⟨_, rfl, rfl, ⟨_, hl⟩, _, hr⟩
        | exact ⟨_, rfl, rfl, ⟨_, hr⟩, _, hl⟩
  · rintro ⟨m, rfl, rfl, ⟨_, ha⟩, _, hb⟩
    cases s
    · exact .black ha hb
    · exact .black hb ha

/-- Two black subtrees of one black height make a balanced fork of either colour. -/
theorem balanced_fork (ha : Balanced a .black n) (hb : Balanced b .black n) :
    Balanced (fork s c a x b) c (n + c.weight) := by
  cases c with
  | red => exact balanced_fork_red.mpr ⟨rfl, ha, hb⟩
  | black => exact balanced_fork_black.mpr ⟨n, rfl, rfl, ⟨_, ha⟩, _, hb⟩

/-- The nodes themselves do not matter. -/
theorem Balanced.rename (h : Balanced (fork s d a x b) c n) (y : N) :
    Balanced (fork s d a y b) c n := by
  cases d with
  | red => exact balanced_fork_red.mpr (balanced_fork_red.mp h)
  | black => exact balanced_fork_black.mpr (balanced_fork_black.mp h)

/-- A red root may be painted black, a black one may not change. -/
theorem Balanced.paint_black (h : Balanced t c n) : IsRedBlack (t.paint .black) := by
  cases h with
  | nil => exact ⟨0, .nil⟩
  | red hl hr => exact ⟨_, .black hl hr⟩
  | black hl hr => exact ⟨_, .black hl hr⟩

/-- A tree with black nodes on its ways down has a root. -/
theorem Balanced.exists_fork (s : Side) (h : Balanced t c n) (hpos : c = .red ∨ 0 < n) :
    ∃ a x b, t = fork s c a x b := by
  cases h with
  | nil => simp at hpos
  | @red l r x _ hl hr =>
    obtain ⟨a, b, he⟩ := ColorTree.exists_fork s .red l x r
    exact ⟨a, x, b, he⟩
  | @black l r x _ _ _ hl hr =>
    obtain ⟨a, b, he⟩ := ColorTree.exists_fork s .black l x r
    exact ⟨a, x, b, he⟩

/-- A red root adds one node to the ways down. -/
theorem Balanced.height_le (h : Balanced t c n) :
    t.height ≤ 2 * n + (if c = .red then 1 else 0) := by
  induction h with
  | nil => simp [height]
  | red _ _ ihl ihr =>
    rw [if_neg (by decide)] at ihl ihr
    rw [height, if_pos rfl]
    omega
  | @black _ _ _ c d _ _ _ ihl ihr =>
    have hc : (if c = Color.red then 1 else 0) ≤ 1 := by split <;> omega
    have hd : (if d = Color.red then 1 else 0) ≤ 1 := by split <;> omega
    rw [height, if_neg (by decide)]
    omega

/-- The black nodes alone make a full tree. -/
theorem Balanced.pow_le (h : Balanced t c n) : 2 ^ n ≤ t.inorder.length + 1 := by
  induction h with
  | nil => simp [inorder]
  | red _ _ ihl ihr =>
    simp only [inorder, List.length_append, List.length_cons]
    omega
  | black _ _ ihl ihr =>
    simp only [inorder, List.length_append, List.length_cons, Nat.pow_succ]
    omega

/-- The ways down are at most twice as long as in a full tree. -/
theorem IsRedBlack.height_le (h : IsRedBlack t) :
    t.height ≤ 2 * (t.inorder.length + 1).log2 := by
  obtain ⟨n, h⟩ := h
  have hn : n ≤ (t.inorder.length + 1).log2 := (Nat.le_log2 (by omega)).mpr h.pow_le
  have hh := h.height_le
  rw [if_neg (by decide)] at hh
  omega

end Balance

/-! ## Balance from a place -/

/-- A tree at the place makes the whole a red-black tree when it is balanced, with a root of colour
`c` and `n` black nodes on each way down. -/
inductive Fits : List (Frame N) → Color → ℕ → Prop
  | root {n : ℕ} : Fits [] .black n
  | red {s : Side} {x : N} {sib : ColorTree N} {path : List (Frame N)} {n : ℕ}
    (hs : Balanced sib .black n) (hp : Fits path .red n) : Fits (⟨s, .red, x, sib⟩ :: path) .black n
  | black {s : Side} {x : N} {sib : ColorTree N} {path : List (Frame N)} {c d : Color} {n : ℕ}
    (hs : Balanced sib d n) (hp : Fits path .black (n + 1)) :
    Fits (⟨s, .black, x, sib⟩ :: path) c n

variable {path : List (Frame N)} {t u : ColorTree N} {c : Color} {n : ℕ}

/-- A balanced tree that fits a path makes a red-black tree with it. -/
theorem Fits.plug (hp : Fits path c n) (ht : Balanced t c n) : IsRedBlack (plug path t) := by
  induction hp generalizing t with
  | root => exact ⟨_, ht⟩
  | red hs _ ih => exact ih (balanced_fork_red.mpr ⟨rfl, ht, hs⟩)
  | black hs _ ih => exact ih (balanced_fork_black.mpr ⟨_, rfl, rfl, ⟨_, ht⟩, _, hs⟩)

/-- What a red-black tree has at a place, and what it needs there. -/
theorem IsRedBlack.focus (h : IsRedBlack (plug path t)) :
    ∃ c n, Fits path c n ∧ Balanced t c n := by
  induction path generalizing t with
  | nil =>
    obtain ⟨n, h⟩ := h
    exact ⟨_, n, .root, h⟩
  | cons f path ih =>
    obtain ⟨c, n, hp, hb⟩ := ih h
    obtain ⟨s, d, x, sib⟩ := f
    cases d with
    | red =>
      obtain ⟨rfl, ht, hs⟩ := balanced_fork_red.mp hb
      exact ⟨_, _, .red hs hp, ht⟩
    | black =>
      obtain ⟨m, rfl, rfl, ⟨_, ht⟩, _, hs⟩ := balanced_fork_black.mp hb
      exact ⟨_, _, .black hs hp, ht⟩

/-- Where a red root fits, a black one does too. -/
theorem Fits.of_red (h : Fits path c n) : Fits path .black n := by
  cases h with
  | root => exact .root
  | red hs hp => exact .red hs hp
  | black hs hp => exact .black hs hp

/-- Red fits below black only. -/
theorem Fits.exists_black (h : Fits path .red n) : ∃ s x sib d up,
    path = ⟨s, .black, x, sib⟩ :: up ∧ Balanced sib d n ∧ Fits up .black (n + 1) := by
  cases h with
  | black hs hp => exact ⟨_, _, _, _, _, rfl, hs, hp⟩

/-- What fits at a black place below a node. -/
theorem fits_cons_black {s : Side} {x : N} {sib : ColorTree N} :
    Fits (⟨s, c, x, sib⟩ :: path) .black n ↔
      Fits path c (n + c.weight) ∧ ∃ d, Balanced sib d n ∧ (c = .red → d = .black) := by
  constructor
  · intro h
    cases h with
    | red hs hp => exact ⟨hp, _, hs, fun _ => rfl⟩
    | black hs hp => exact ⟨hp, _, hs, fun he => by cases he⟩
  · rintro ⟨hp, d, hs, hd⟩
    cases c with
    | red =>
      obtain rfl := hd rfl
      exact .red hs hp
    | black => exact .black hs hp

/-- The nodes of the path do not matter. -/
theorem Fits.rename {s : Side} {x : N} {sib : ColorTree N} {p : List (Frame N)} {d : Color}
    (h : Fits (p ++ ⟨s, d, x, sib⟩ :: path) c n) (y : N) :
    Fits (p ++ ⟨s, d, y, sib⟩ :: path) c n := by
  induction p generalizing c n with
  | nil =>
    cases h with
    | red hs hp => exact .red hs hp
    | black hs hp => exact .black hs hp
  | cons f p ih =>
    cases h with
    | red hs hp => exact .red hs (ih hp)
    | black hs hp => exact .black hs (ih hp)

/-- A tree that is one black node short on each way down: a red root stands for the missing one. -/
def Short (t : ColorTree N) (n : ℕ) : Prop :=
  (t.color = .red → Balanced (t.paint .black) .black (n + 1)) ∧
    (t.color = .black → Balanced t .black n)

/-- What is below a black node is short when the node is taken out. -/
theorem Balanced.short (h : Balanced t c n) : Short t n := by
  cases h with
  | nil => exact ⟨(fun he => nomatch he), fun _ => .nil⟩
  | red hl hr => exact ⟨fun _ => .black hl hr, fun he => nomatch he⟩
  | black hl hr => exact ⟨(fun he => nomatch he), fun _ => .black hl hr⟩

/-- A place is no deeper than the tree is high. -/
theorem length_add_height_le (path : List (Frame N)) (t : ColorTree N) :
    path.length + t.height ≤ (RedBlack.plug path t).height := by
  induction path generalizing t with
  | nil => simp
  | cons f path ih =>
    have hput : t.height + 1 ≤ (f.put t).height := by
      rw [Frame.put, height_fork]
      omega
    have := ih (f.put t)
    rw [plug_cons, List.length_cons]
    omega

end RedBlack
