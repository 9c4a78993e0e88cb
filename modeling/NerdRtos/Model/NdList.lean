import NerdRtos.Lib.Intrusive
import NerdRtos.Lib.Machine

/-!
# The lists, pointer by pointer

`include/nd_list.h` and the loops of the kernel over its lists. The nodes are in one memory, and a
pointer that may be `ND_NULL` is an `Option`. A call has no result when it dereferences `ND_NULL`,
or when a loop of it is not through after the given number of turns.

The model of the kernel keeps its lists in `Intrusive.Queues`. Here the calls that it makes on them
are made on the memory, beside the lists that they should make.
-/

set_option autoImplicit false

namespace NerdRtos

open Intrusive (Queues)

/-- The nodes `struct nd_list_node`. -/
structure ListMem (A : Type) where
  next : A → Option A
  prev : A → Option A

namespace ListMem

variable {A : Type}

section Writes

variable [DecidableEq A]

/-- A write to `next`. -/
def setNext (a : A) (p : Option A) (m : ListMem A) : ListMem A :=
  { m with next := Function.update m.next a p }

/-- A write to `prev`. -/
def setPrev (a : A) (p : Option A) (m : ListMem A) : ListMem A :=
  { m with prev := Function.update m.prev a p }

/-- `nd_list_init`. -/
def ndListInit (list : A) (m : ListMem A) : ListMem A :=
  (m.setNext list (some list)).setPrev list (some list)

/-- `nd_list_insert_after`. -/
def ndListInsertAfter (node new : A) (m : ListMem A) : Option (ListMem A) := do
  let m := (m.setNext new (m.next node)).setPrev new (some node)
  let next ← m.next node
  return (m.setPrev next (some new)).setNext node (some new)

/-- `nd_list_insert_before`. -/
def ndListInsertBefore (node new : A) (m : ListMem A) : Option (ListMem A) := do
  let m := (m.setPrev new (m.prev node)).setNext new (some node)
  let prev ← m.prev node
  return (m.setNext prev (some new)).setPrev node (some new)

/-- `nd_list_remove`. -/
def ndListRemove (node : A) (m : ListMem A) : Option (ListMem A) := do
  let prev ← m.prev node
  let m := m.setNext prev (m.next node)
  let next ← m.next node
  let m := m.setPrev next (m.prev node)
  return (m.setNext node none).setPrev node none

/-- `nd_list_is_empty`. -/
def ndListIsEmpty (m : ListMem A) (list : A) : Bool := m.next list = some list

end Writes

/-- `nd_list_is_linked`. -/
def ndListIsLinked (m : ListMem A) (node : A) : Bool := (m.next node).isSome

variable [DecidableEq A]

/-! ## Loops -/

/-- `nd_list_for_each_entry`, from `pos` on. -/
def forEachEntry {S : Type} (list : A) (body : S → A → S) (m : ListMem A) :
    ℕ → Option A → S → Option S
  | 0, _, _ => none
  | turns + 1, pos, s => do
    let pos ← pos
    if pos = list then return s
    else forEachEntry list body m turns (m.next pos) (body s pos)

/-- `nd_list_for_each_entry` that is left at the first entry with `p`, from `pos` on; the head when
there is none. -/
def findEntry (list : A) (p : A → Bool) (m : ListMem A) : ℕ → Option A → Option A
  | 0, _ => none
  | turns + 1, pos => do
    let pos ← pos
    if pos = list || p pos then return pos
    else findEntry list p m turns (m.next pos)

/-- `nd_list_for_each_entry_safe`, from `pos` on. -/
def forEachEntrySafe {S : Type} (list : A) (body : A → ListMem A × S → Option (ListMem A × S)) :
    ℕ → Option A → Option A → ListMem A × S → Option (ListMem A × S)
  | 0, _, _, _ => none
  | turns + 1, pos, tmp, x => do
    let pos ← pos
    if pos = list then return x
    else
      let x ← body pos x
      let after ← tmp
      forEachEntrySafe list body turns tmp (x.1.next after) x

/-- `nd_list_length`. -/
def ndListLength (turns : ℕ) (m : ListMem A) (list : A) : Option (BitVec 32) :=
  m.forEachEntry list (fun length _ => length + 1) turns (m.next list) 0

/-- `nd_thread_wait_insert`, where `p` compares the priority of an entry with that of `thread`. -/
def ndThreadWaitInsert (turns : ℕ) (p : A → Bool) (waitList thread : A) (m : ListMem A) :
    Option (ListMem A) := do
  let pos ← m.findEntry waitList p turns (m.next waitList)
  m.ndListInsertBefore pos thread

/-- What `nd_event_wakeup` does to the lists: a thread leaves its list and goes to the end of its
ready list. -/
def ndEventWakeup (ready : A → A) (thread : A) (m : ListMem A) : Option (ListMem A) := do
  let m ← m.ndListRemove thread
  m.ndListInsertBefore (ready thread) thread

/-- What `nd_thread_wakeup` does to the lists. -/
def ndThreadWakeup (ready : A → A) (waitList : A) (m : ListMem A) : Option (ListMem A) := do
  let thread ← m.next waitList
  m.ndEventWakeup ready thread

/-- The loop of `nd_thread_halt` over the threads that wait for the thread. -/
def wakeAll (ready : A → A) (list : A) : ℕ → ListMem A → Option (ListMem A)
  | 0, _ => none
  | turns + 1, m =>
    if m.ndListIsEmpty list then return m
    else do
      let m ← m.ndThreadWakeup ready list
      wakeAll ready list turns m

/-- The body of the loop of `nd_event_send`: `visit` looks at an entry and says whether its thread
is woken. -/
def sendBody {S : Type} (visit : S → A → Bool × S) (ready : A → A) (entry : A)
    (x : ListMem A × S) : Option (ListMem A × S) := do
  let (woken, s) := visit x.2 entry
  let m ← (if woken then x.1.ndEventWakeup ready entry else some x.1)
  return (m, s)

/-- The loop of `nd_event_send`. -/
def sendLoop {S : Type} (turns : ℕ) (visit : S → A → Bool × S) (ready : A → A) (list : A)
    (m : ListMem A) (s : S) : Option (ListMem A × S) := do
  let pos := m.next list
  let first ← pos
  forEachEntrySafe list (sendBody visit ready) turns pos (m.next first) (m, s)

end ListMem

/-! ## The calls -/

/-- What the pointers of a node show that is on no list: what was in its memory before, the node
itself, or `ND_NULL`. -/
inductive OffList
  | raw
  | own
  | null
  deriving DecidableEq, Repr

/-- The calls on the lists with heads `H` and nodes `N`; the last three are for the threads of a
wait list, and `ready` is the ready list of a thread. -/
inductive ListCall (S H N : Type)
  | initHead (h : H)
  | initNode (n : N)
  | insertFirst (h : H) (n : N)
  | insertLast (h : H) (n : N)
  | waitInsert (p : N → Bool) (h : H) (n : N)
  | remove (n : N)
  | wakeup (ready : N → H) (h : H)
  | wakeAll (ready : N → H) (h : H)
  | send (visit : S → N → Bool × S) (s : S) (ready : N → H) (h : H)

/-- The lists, the heads that are initialised, and what the pointers of the other nodes show. -/
structure ListView (H N : Type) where
  queues : Queues H N
  heads : H → Bool
  off : N → OffList

/-- The nodes that leave a list under `visit`, and the state after the last visit. -/
def leaving {S N : Type} (visit : S → N → Bool × S) : S → List N → List N × S
  | s, [] => ([], s)
  | s, n :: l =>
    let (woken, s) := visit s n
    let (rest, s) := leaving visit s l
    (if woken then n :: rest else rest, s)

namespace ListView

variable {S H N : Type} [DecidableEq N]

/-- A node leaves its list. -/
def unlink (v : ListView H N) (n : N) : ListView H N :=
  { v with queues := v.queues.unlink n, off := Function.update v.off n .null }

variable [DecidableEq H]

/-- A node comes onto a list. -/
def link (v : ListView H N) (p : N → Bool) (h : H) (n : N) : ListView H N :=
  { v with queues := v.queues.link p h n }

/-- A thread goes to the end of its ready list. -/
def wake (ready : N → H) (v : ListView H N) (n : N) : ListView H N :=
  (v.unlink n).link (fun _ => false) (ready n) n

/-- The threads of a list can be woken. -/
def canWake (v : ListView H N) (ready : N → H) (h : H) : Bool :=
  v.heads h && (v.queues.lists h).all fun n => v.heads (ready n) && decide (ready n ≠ h)

/-- What the kernel sees to before a call. -/
def allowed (v : ListView H N) : ListCall S H N → Bool
  | .initHead h => (v.queues.lists h).isEmpty
  | .initNode n => (v.queues.home n).isNone
  | .insertFirst h n | .insertLast h n | .waitInsert _ h n => v.heads h && (v.queues.home n).isNone
  | .remove n => (v.queues.home n).isSome || v.off n = .own
  | .wakeup ready h => v.canWake ready h && !(v.queues.lists h).isEmpty
  | .wakeAll ready h | .send _ _ ready h => v.canWake ready h

/-- The lists after a call. -/
def exec (v : ListView H N) : ListCall S H N → ListView H N
  | .initHead h => { v with heads := Function.update v.heads h true }
  | .initNode n => { v with off := Function.update v.off n .own }
  | .insertFirst h n => v.link (fun _ => true) h n
  | .insertLast h n => v.link (fun _ => false) h n
  | .waitInsert p h n => v.link p h n
  | .remove n => v.unlink n
  | .wakeup ready h => ((v.queues.lists h).take 1).foldl (wake ready) v
  | .wakeAll ready h => (v.queues.lists h).foldl (wake ready) v
  | .send visit s ready h => (leaving visit s (v.queues.lists h)).1.foldl (wake ready) v

/-- The turns that the loop of a call gets: one for each node of the list, and one to end it. -/
def turns (v : ListView H N) (h : H) : ℕ := (v.queues.lists h).length + 1

end ListView

namespace ListMem

variable {S H N : Type}

/-- The ready list of the thread of a node. -/
def readyOf (ready : N → H) : H ⊕ N → H ⊕ N := Sum.elim .inl fun n => .inl (ready n)

/-- `visit` for an entry. -/
def visitOf (visit : S → N → Bool × S) (s : S) : H ⊕ N → Bool × S :=
  Sum.elim (fun _ => (false, s)) (visit s)

variable [DecidableEq H] [DecidableEq N]

/-- The call on the memory. -/
def call (v : ListView H N) (m : ListMem (H ⊕ N)) : ListCall S H N → Option (ListMem (H ⊕ N))
  | .initHead h => some (m.ndListInit (.inl h))
  | .initNode n => some (m.ndListInit (.inr n))
  | .insertFirst h n => m.ndListInsertAfter (.inl h) (.inr n)
  | .insertLast h n => m.ndListInsertBefore (.inl h) (.inr n)
  | .waitInsert p h n =>
    m.ndThreadWaitInsert (v.turns h) (Sum.elim (fun _ => false) p) (.inl h) (.inr n)
  | .remove n => m.ndListRemove (.inr n)
  | .wakeup ready h => m.ndThreadWakeup (readyOf ready) (.inl h)
  | .wakeAll ready h => m.wakeAll (readyOf ready) (.inl h) (v.turns h)
  | .send visit s ready h =>
    (m.sendLoop (v.turns h) (visitOf visit) (readyOf ready) (.inl h) s).map Prod.fst

end ListMem

/-- The memory after some calls, which is missing when one of them had no result, beside the lists
that they should make. -/
structure ListCalls (H N : Type) where
  mem : Option (ListMem (H ⊕ N))
  view : ListView H N

/-- The calls on memory that holds no list yet. -/
def listMachine (S H N : Type) [DecidableEq H] [DecidableEq N] :
    Machine (ListCalls H N) (ListCall S H N) where
  start x := ∃ m, x =
    { mem := some m
      view := { queues := Queues.empty, heads := fun _ => false, off := fun _ => .raw } }
  enabled x a := x.view.allowed a = true
  next a x := { mem := x.mem.bind fun m => m.call x.view a, view := x.view.exec a }

instance (S H N : Type) [DecidableEq H] [DecidableEq N] (x : ListCalls H N) (a : ListCall S H N) :
    Decidable ((listMachine S H N).enabled x a) :=
  inferInstanceAs (Decidable (x.view.allowed a = true))

end NerdRtos
