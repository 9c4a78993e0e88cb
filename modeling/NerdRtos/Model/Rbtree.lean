import NerdRtos.Lib.RedBlack

/-!
# The red-black tree

`lib/rbtree.c` and `include/lib/rbtree.h`, pointer by pointer. The nodes are in one memory, and a
pointer that may be `NULL` is an `Option`. A call has no result when it dereferences `NULL`, or when
a loop of it is not through after the given number of turns.

The two halves of each function are mirror images: they are one function here, with the side for a
parameter.
-/

set_option autoImplicit false

namespace NerdRtos

open RedBlack (Side Color)

/-- `struct rb_node`. `rb_parent_color` is the parent with the colour in its lowest bit. -/
structure RbNode (N : Type) where
  rbParent : Option N := none
  rbColor : Color := .red
  rbRight : Option N := none
  rbLeft : Option N := none
  deriving DecidableEq, Repr

/-- `rb_left` or `rb_right`. -/
def RbNode.child {N : Type} (s : Side) (r : RbNode N) : Option N :=
  match s with
  | .left => r.rbLeft
  | .right => r.rbRight

/-- The nodes and the `struct rb_root`. -/
structure RbTree (N : Type) where
  node : N → RbNode N
  rbNode : Option N

/-- What a `struct rb_node **` points to: `rb_node` of the root or a child of a node. -/
inductive RbLink (N : Type)
  | root
  | child (s : Side) (n : N)
  deriving DecidableEq, Repr

/-- The turns that a loop gets in a tree of `k` nodes. -/
def rbTurns (k : ℕ) : ℕ := 2 * (k + 1).log2 + 1

namespace RbTree

variable {N : Type}

/-! ## Fields -/

section Fields

variable (t : RbTree N) (n : N)

def rbParent : Option N := (t.node n).rbParent
def rbColor : Color := (t.node n).rbColor
def child (s : Side) : Option N := (t.node n).child s

/-- `rb_is_red`. -/
def rbIsRed : Bool := t.rbColor n = .red

/-- `rb_is_black`. -/
def rbIsBlack : Bool := t.rbColor n = .black

/-- `!node || rb_is_black(node)`. -/
def blackOrNull (p : Option N) : Bool := p.all t.rbIsBlack

end Fields

variable [DecidableEq N]

/-- Change node `n`. -/
def upd (n : N) (f : RbNode N → RbNode N) (t : RbTree N) : RbTree N :=
  { t with node := Function.update t.node n (f (t.node n)) }

/-- `rb_set_parent`. -/
def rbSetParent (n : N) (p : Option N) : RbTree N → RbTree N := upd n ({ · with rbParent := p })

/-- `rb_set_color`, `rb_set_red`, `rb_set_black`. -/
def rbSetColor (n : N) (c : Color) : RbTree N → RbTree N := upd n ({ · with rbColor := c })

/-- A write to `rb_left` or `rb_right`. -/
def setChild (s : Side) (n : N) (p : Option N) : RbTree N → RbTree N :=
  upd n fun r =>
    match s with
    | .left => { r with rbLeft := p }
    | .right => { r with rbRight := p }

/-- `if (child) rb_set_parent(child, parent)`. -/
def setParentOf (child parent : Option N) (t : RbTree N) : RbTree N :=
  match child with
  | none => t
  | some c => t.rbSetParent c parent

/-- The parent of `old` gets `new` for a child in its place. `s` is the side that is looked at. -/
def changeChild (s : Side) (old : N) (new parent : Option N) (t : RbTree N) : RbTree N :=
  match parent with
  | none => { t with rbNode := new }
  | some p =>
    if t.child p s = some old then t.setChild s p new else t.setChild s.other p new

/-- `*link`. -/
def load (t : RbTree N) : RbLink N → Option N
  | .root => t.rbNode
  | .child s n => t.child n s

/-- `*link = p`. -/
def store (link : RbLink N) (p : Option N) (t : RbTree N) : RbTree N :=
  match link with
  | .root => { t with rbNode := p }
  | .child s n => t.setChild s n p

/-- `RB_EMPTY_NODE`. -/
def rbEmptyNode (t : RbTree N) (n : N) : Bool := t.rbParent n = some n

/-- `RB_CLEAR_NODE`. -/
def rbClearNode (n : N) : RbTree N → RbTree N := rbSetParent n (some n)

/-- `rb_link_node`. -/
def rbLinkNode (n : N) (parent : Option N) (link : RbLink N) (t : RbTree N) : RbTree N :=
  (t.upd n fun _ => { rbParent := parent }).store link (some n)

/-! ## Rotations -/

/-- A rotation: the node on the other side of `node` comes up, `node` goes down on side `s`. -/
def rbRotate (s : Side) (node : N) (t : RbTree N) : Option (RbTree N) := do
  let right ← t.child node s.other
  let parent := t.rbParent node
  let moved := t.child right s
  let t := (t.setChild s.other node moved).setParentOf moved (some node)
  let t := t.setChild s right (some node)
  let t := t.rbSetParent right parent
  let t := t.changeChild s node (some right) parent
  return t.rbSetParent node (some right)

/-- `__rb_rotate_left`. -/
def rbRotateLeft : N → RbTree N → Option (RbTree N) := rbRotate .left

/-- `__rb_rotate_right`. -/
def rbRotateRight : N → RbTree N → Option (RbTree N) := rbRotate .right

/-! ## `rb_insert_color` -/

/-- `node` comes to the outside of its parent, as its parent if it was its child on the inside. The
result is the node and its parent. -/
def rbToOutside (s : Side) (node parent : N) (t : RbTree N) : Option (N × N × RbTree N) :=
  if t.child parent s.other = some node then
    (rbRotate s parent t).map fun t => (parent, node, t)
  else some (node, parent, t)

/-- A turn of the loop for a `parent` on side `s` of `gparent`, with the next `node`. -/
def rbInsertTurn (s : Side) (node parent gparent : N) (t : RbTree N) : Option (N × RbTree N) :=
  match (t.child gparent s.other).filter t.rbIsRed with
  | some uncle =>
    some (gparent,
      ((t.rbSetColor uncle .black).rbSetColor parent .black).rbSetColor gparent .red)
  | none => do
    let (node, parent, t) ← rbToOutside s node parent t
    let t ← rbRotate s.other gparent ((t.rbSetColor parent .black).rbSetColor gparent .red)
    return (node, t)

/-- The loop: `while ((parent = rb_parent(node)) && rb_is_red(parent))`. -/
def rbInsertLoop : ℕ → N → RbTree N → Option (RbTree N)
  | 0, _, _ => none
  | turns + 1, node, t =>
    match (t.rbParent node).filter t.rbIsRed with
    | none => some t
    | some parent => do
      let gparent ← t.rbParent parent
      let s := if t.child gparent .left = some parent then .left else .right
      let (node, t) ← rbInsertTurn s node parent gparent t
      rbInsertLoop turns node t

/-- `rb_insert_color`. -/
def rbInsertColor (turns : ℕ) (node : N) (t : RbTree N) : Option (RbTree N) := do
  let t ← rbInsertLoop turns node t
  let root ← t.rbNode
  return t.rbSetColor root .black

/-! ## `rb_erase` -/

/-- The other child of `parent`, which comes to be black. -/
def rbBlackOther (s : Side) (parent : N) (t : RbTree N) : Option (N × RbTree N) := do
  let other ← t.child parent s.other
  if t.rbIsRed other then
    let t ← rbRotate s parent ((t.rbSetColor other .black).rbSetColor parent .red)
    let other ← t.child parent s.other
    return (other, t)
  else return (other, t)

/-- The other child of `parent`, whose child on the outside comes to be red. -/
def rbRedOutside (s : Side) (parent other : N) (t : RbTree N) : Option (N × RbTree N) :=
  if t.blackOrNull (t.child other s.other) then do
    let near ← t.child other s
    let t ← rbRotate s.other other ((t.rbSetColor near .black).rbSetColor other .red)
    let other ← t.child parent s.other
    return (other, t)
  else some (other, t)

/-- A turn of the loop of `__rb_erase_color` on side `s` of `parent`; `true` says that it breaks out
of the loop. -/
def rbEraseTurn (s : Side) (parent : N) (t : RbTree N) : Option (Bool × RbTree N) := do
  let (other, t) ← rbBlackOther s parent t
  if t.blackOrNull (t.child other .left) && t.blackOrNull (t.child other .right) then
    return (false, t.rbSetColor other .red)
  else
    let (other, t) ← rbRedOutside s parent other t
    let t := (t.rbSetColor other (t.rbColor parent)).rbSetColor parent .black
    let far ← t.child other s.other
    let t ← rbRotate s parent (t.rbSetColor far .black)
    return (true, t)

/-- The loop of `__rb_erase_color`, with the `node` that it ends at. -/
def rbEraseLoop : ℕ → Option N → Option N → RbTree N → Option (Option N × RbTree N)
  | 0, _, _, _ => none
  | turns + 1, node, parent, t =>
    if t.blackOrNull node && node ≠ t.rbNode then do
      let p ← parent
      let s := if t.child p .left = node then .left else .right
      match ← rbEraseTurn s p t with
      | (true, t) => return (t.rbNode, t)
      | (false, t) => rbEraseLoop turns (some p) (t.rbParent p) t
    else some (node, t)

/-- `__rb_erase_color`. -/
def rbEraseColor (turns : ℕ) (node parent : Option N) (t : RbTree N) : Option (RbTree N) := do
  match ← rbEraseLoop turns node parent t with
  | (none, t) => return t
  | (some n, t) => return t.rbSetColor n .black

/-- Down on side `s` as far as it goes. -/
def rbDown (s : Side) : ℕ → N → RbTree N → Option N
  | 0, _, _ => none
  | turns + 1, node, t =>
    match t.child node s with
    | none => some node
    | some next => rbDown s turns next t

/-- `rb_erase` from the label `color` on. -/
def rbEraseFinish (turns : ℕ) (color : Color) (child parent : Option N) (t : RbTree N) :
    Option (RbTree N) :=
  if color = .black then rbEraseColor turns child parent t else some t

/-- `rb_erase` of a node with at most one child. -/
def rbEraseOne (turns : ℕ) (node : N) (child : Option N) (t : RbTree N) : Option (RbTree N) :=
  let parent := t.rbParent node
  let color := t.rbColor node
  let t := (t.setParentOf child parent).changeChild .left node child parent
  rbEraseFinish turns color child parent t

/-- `node` leaves its place for that of `old`: its parent gets its child on the right, and it gets
the children of `old`, but for the right one when it is that itself. The result is where the child
is now. -/
def rbTakeOut (old node : N) (t : RbTree N) : Option (Option N × RbTree N) := do
  let child := t.child node .right
  let parent := t.rbParent node
  if parent = some old then return (some node, t)
  else
    let p ← parent
    let t := (t.setParentOf child parent).setChild .left p child
    let t := t.setChild .right node (t.child old .right)
    let right ← t.child old .right
    return (parent, t.rbSetParent right (some node))

/-- `rb_erase` of a node with two children: the next node takes its place. -/
def rbEraseTwo (turns : ℕ) (old right : N) (t : RbTree N) : Option (RbTree N) := do
  let node ← rbDown .left turns right t
  let t := t.changeChild .left old (some node) (t.rbParent old)
  let child := t.child node .right
  let color := t.rbColor node
  let (parent, t) ← rbTakeOut old node t
  let t := (t.rbSetParent node (t.rbParent old)).rbSetColor node (t.rbColor old)
  let left ← t.child old .left
  let t := (t.setChild .left node (some left)).rbSetParent left (some node)
  rbEraseFinish turns color child parent t

/-- `rb_erase`. -/
def rbErase (turns : ℕ) (node : N) (t : RbTree N) : Option (RbTree N) :=
  match t.child node .left, t.child node .right with
  | none, child => rbEraseOne turns node child t
  | child, none => rbEraseOne turns node child t
  | some _, some right => rbEraseTwo turns node right t

/-! ## The order of the nodes -/

/-- `rb_first` and `rb_last`. -/
def rbEnd (s : Side) (turns : ℕ) (t : RbTree N) : Option (Option N) :=
  match t.rbNode with
  | none => some none
  | some n => (rbDown s turns n t).map some

/-- `rb_first`. -/
def rbFirst : ℕ → RbTree N → Option (Option N) := rbEnd .left

/-- `rb_last`. -/
def rbLast : ℕ → RbTree N → Option (Option N) := rbEnd .right

/-- Up as long as the way comes from side `s`, and one more. -/
def rbClimb (s : Side) : ℕ → N → RbTree N → Option (Option N)
  | 0, _, _ => none
  | turns + 1, node, t =>
    match t.rbParent node with
    | none => some none
    | some parent =>
      if t.child parent s = some node then rbClimb s turns parent t else some (some parent)

/-- `rb_next` and `rb_prev`. -/
def rbStep (s : Side) (turns : ℕ) (node : N) (t : RbTree N) : Option (Option N) :=
  if t.rbParent node = some node then some none
  else
    match t.child node s with
    | some n => (rbDown s.other turns n t).map some
    | none => rbClimb s turns node t

/-- `rb_next`. -/
def rbNext : ℕ → N → RbTree N → Option (Option N) := rbStep .right

/-- `rb_prev`. -/
def rbPrev : ℕ → N → RbTree N → Option (Option N) := rbStep .left

/-- `rb_replace_node`. -/
def rbReplaceNode (victim new : N) (t : RbTree N) : RbTree N :=
  let t := t.changeChild .left victim (some new) (t.rbParent victim)
  let t := t.setParentOf (t.child victim .left) (some new)
  let t := t.setParentOf (t.child victim .right) (some new)
  t.upd new fun _ => t.node victim

end RbTree

end NerdRtos
