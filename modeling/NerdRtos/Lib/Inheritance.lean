import NerdRtos.Lib.Intrusive
import NerdRtos.Lib.Machine
import Mathlib.Order.MinMax

/-!
# Locks with priority inheritance

Threads wait on lines and own locks; each lock has a line of its own. A lock caches one
priority. A thread that finds a lock taken raises the owner to its own priority, once, and
writes it to the cache; an owner that gives a lock up goes back to its base priority, lowered
to the caches of the locks that it keeps, and the first thread of the line becomes the owner.
-/

set_option autoImplicit false

namespace Inheritance

open Intrusive (Queues insertWhere)

/-- The lines of the locks, and the priority that an idle lock caches. -/
structure Locks (M H P : Type) where
  line : M → H
  idle : P
  line_inj : Function.Injective line

/-- Threads with their priorities, and locks with their owners. `held` is the locks of each thread,
`lines` the waiting threads, and `arrivals` the threads in the order of their arrivals on a
line, the most recent first. -/
structure World (T M H P : Type) where
  prio : T → P
  base : T → P
  owner : M → Option T
  cache : M → P
  held : Queues T M
  lines : Queues H T
  arrivals : List T

/-- What can happen: a thread leaves its line, arrives on a line that is not a lock's, or is new;
a lock is taken, found taken, dropped with nobody waiting, or handed to the first thread
of its line. -/
inductive Move (T M H P : Type)
  | leave (t : T)
  | arrive (h : H) (t : T)
  | spawn (t : T) (p : P)
  | take (m : M) (c : T)
  | contend (m : M) (o c : T) (waits : Bool)
  | drop (m : M) (c : T)
  | hand (m : M) (c t : T)

variable {T M H P : Type} [DecidableEq M] [LinearOrder P]

namespace World

variable (w : World T M H P)

/-- The priority of thread `c` once it has given up lock `m`. -/
def restored (m : M) (c : T) : P :=
  ((w.held.lists c).erase m).foldl (fun p k => min p (w.cache k)) (w.base c)

/-- The restored priority comes before another, or is the same, exactly when the base priority or a
kept cache does. -/
theorem restored_le_iff (m : M) (c : T) (q : P) :
    w.restored m c ≤ q ↔
      w.base c ≤ q ∨ ∃ k ∈ w.held.lists c, k ≠ m ∧ w.cache k ≤ q := by
  have hfold : ∀ (ms : List M) (p : P), ms.foldl (fun p k => min p (w.cache k)) p ≤ q ↔
      p ≤ q ∨ ∃ k ∈ ms, w.cache k ≤ q := by
    intro ms
    induction ms with
    | nil => simp
    | cons k ms ih =>
      intro p
      rw [List.foldl_cons, ih, min_le_iff]
      simp only [List.mem_cons, exists_eq_or_imp, or_assoc]
  unfold restored
  rw [hfold]
  simp only [(w.held.nodup c).mem_erase_iff]
  constructor
  · rintro (h | ⟨k, ⟨hk, hm⟩, hle⟩)
    · exact .inl h
    · exact .inr ⟨k, hm, hk, hle⟩
  · rintro (h | ⟨k, hm, hk, hle⟩)
    · exact .inl h
    · exact .inr ⟨k, ⟨hk, hm⟩, hle⟩

/-- The restored priority comes after another, or is the same, exactly when the base priority and
every kept cache do. -/
theorem le_restored_iff (m : M) (c : T) (q : P) :
    q ≤ w.restored m c ↔ q ≤ w.base c ∧ ∀ k ∈ w.held.lists c, k ≠ m → q ≤ w.cache k := by
  have hfold : ∀ (ms : List M) (p : P), q ≤ ms.foldl (fun p k => min p (w.cache k)) p ↔
      q ≤ p ∧ ∀ k ∈ ms, q ≤ w.cache k := by
    intro ms
    induction ms with
    | nil => simp
    | cons k ms ih =>
      intro p
      rw [List.foldl_cons, ih, le_min_iff]
      simp only [List.mem_cons, forall_eq_or_imp, and_assoc]
  unfold restored
  rw [hfold]
  simp only [(w.held.nodup c).mem_erase_iff]
  refine and_congr_right fun _ => ⟨fun h k hk hm => h k ⟨hm, hk⟩, fun h k hk => h k hk.2 hk.1⟩

variable [DecidableEq T]

/-- Owner `o` of lock `m` is raised to priority `p`. -/
@[simps] def boost (m : M) (o : T) (p : P) : World T M H P :=
  { w with prio := Function.update w.prio o p, cache := Function.update w.cache m p }

/-- Owner `o` of lock `m` is raised to the priority of thread `c`, if that is smaller. -/
def raise (m : M) (o c : T) : World T M H P :=
  if w.prio c < w.prio o then w.boost m o (w.prio c) else w

section Raise

variable {w} {m : M} {o c u : T}

/-- Raising an owner changes no other priority. -/
theorem prio_raise_of_ne (h : u ≠ o) : (w.raise m o c).prio u = w.prio u := by
  unfold raise
  split
  · simp [h]
  · rfl

/-- Raising an owner lowers no priority. -/
theorem prio_raise_le (u : T) : (w.raise m o c).prio u ≤ w.prio u := by
  unfold raise
  split
  case isTrue hlt =>
    by_cases hu : u = o
    · subst hu
      simpa using hlt.le
    · simp [hu]
  case isFalse => exact le_rfl

/-- A raised owner does not come after the thread that raised it. -/
theorem prio_raise_owner : (w.raise m o c).prio o ≤ w.prio c := by
  unfold raise
  split
  case isTrue => simp
  case isFalse h => exact not_lt.mp h

/-- Raising an owner leaves the bases. -/
@[simp] theorem base_raise : (w.raise m o c).base = w.base := by
  unfold raise
  split <;> rfl

/-- Raising an owner leaves the owners. -/
@[simp] theorem owner_raise : (w.raise m o c).owner = w.owner := by
  unfold raise
  split <;> rfl

/-- Raising an owner leaves the lines. -/
@[simp] theorem lines_raise : (w.raise m o c).lines = w.lines := by
  unfold raise
  split <;> rfl

/-- Raising an owner is no arrival. -/
@[simp] theorem arrivals_raise : (w.raise m o c).arrivals = w.arrivals := by
  unfold raise
  split <;> rfl

end Raise

variable [DecidableEq H]

/-- Thread `t` leaves its line. -/
@[simps] def leave (t : T) : World T M H P := { w with lines := w.lines.unlink t }

/-- Thread `t` joins line `h`, in front of the first thread of a larger priority. -/
@[simps] def arrive (h : H) (t : T) : World T M H P :=
  { w with
    lines := w.lines.link (fun u => w.prio t < w.prio u) h t
    arrivals := t :: w.arrivals }

/-- Thread `t` is new, with priority `p`. -/
@[simps] def spawn (t : T) (p : P) : World T M H P :=
  { w with prio := Function.update w.prio t p, base := Function.update w.base t p }

/-- Thread `c` takes lock `m`. -/
@[simps] def take (m : M) (c : T) : World T M H P :=
  { w with
    owner := Function.update w.owner m (some c)
    held := w.held.link (fun _ => true) c m }

/-- Thread `c` gives up lock `m`, which has no owner for a moment. -/
@[simps] def release (m : M) (c : T) : World T M H P :=
  { w with
    prio := Function.update w.prio c (w.restored m c)
    held := w.held.unlink m }

/-- Thread `c` gives up lock `m`, and nobody waits. -/
@[simps! prio base owner held lines arrivals] def drop (L : Locks M H P) (m : M) (c : T) :
    World T M H P :=
  { w.release m c with
    owner := Function.update w.owner m none
    cache := Function.update w.cache m L.idle }

/-- Thread `c` gives up lock `m` to thread `t` of its line. -/
@[simps! prio base owner cache lines arrivals] def hand (m : M) (c t : T) : World T M H P :=
  ((w.release m c).leave t).take m t

/-- Thread `c` finds lock `m` taken by `o`, and waits or gives up. -/
def contend (L : Locks M H P) (m : M) (o c : T) (waits : Bool) : World T M H P :=
  if waits then (w.raise m o c).arrive (L.line m) c else w.raise m o c

end World

variable [DecidableEq T] [DecidableEq H]

/-- The world after a move. -/
def Locks.apply (L : Locks M H P) : Move T M H P → World T M H P → World T M H P
  | .leave t, w => w.leave t
  | .arrive h t, w => w.arrive h t
  | .spawn t p, w => w.spawn t p
  | .take m c, w => w.take m c
  | .contend m o c waits, w => w.contend L m o c waits
  | .drop m c, w => w.drop L m c
  | .hand m c t, w => w.hand m c t

/-- When a move can happen. -/
def Locks.fits (L : Locks M H P) (w : World T M H P) : Move T M H P → Prop
  | .leave _ => True
  | .arrive h t => w.lines.home t = none ∧ ∀ m, h ≠ L.line m
  | .spawn t _ => w.lines.home t = none ∧ ∀ m, w.owner m ≠ some t
  | .take m _ => w.owner m = none
  | .contend m o c _ =>
    w.owner m = some o ∧ o ≠ c ∧ w.lines.home c = none ∧ w.prio c < L.idle
  | .drop m c => w.owner m = some c ∧ w.lines.home c = none ∧ w.lines.lists (L.line m) = []
  | .hand m c t =>
    w.owner m = some c ∧ w.lines.home c = none ∧ (w.lines.lists (L.line m)).head? = some t

/-- Nobody waits and nothing is owned. -/
structure Locks.Idle (L : Locks M H P) (w : World T M H P) : Prop where
  prio : w.prio = w.base
  owner : ∀ m, w.owner m = none
  cache : ∀ m, w.cache m = L.idle
  lines : w.lines = Queues.empty

/-- The worlds and their moves. -/
def Locks.machine (T : Type) [DecidableEq T] (L : Locks M H P) :
    Machine (World T M H P) (Move T M H P) where
  start := L.Idle
  enabled := L.fits
  next := L.apply

/-! ## What the moves change -/

section Moves

variable {L : Locks M H P} {w : World T M H P} {m : M} {o c t u : T} {h : H}

/-- Contention changes the priorities as raising does. -/
@[simp] theorem prio_contend (waits : Bool) :
    (w.contend L m o c waits).prio = (w.raise m o c).prio := by
  unfold World.contend
  split <;> rfl

/-- Contending leaves the bases. -/
@[simp] theorem base_contend (waits : Bool) : (w.contend L m o c waits).base = w.base := by
  unfold World.contend
  split <;> exact World.base_raise

/-- Contending leaves the owners. -/
@[simp] theorem owner_contend (waits : Bool) : (w.contend L m o c waits).owner = w.owner := by
  unfold World.contend
  split <;> exact World.owner_raise

/-- Contending changes a cache only by the raise. -/
@[simp] theorem cache_contend (waits : Bool) :
    (w.contend L m o c waits).cache = (w.raise m o c).cache := by
  unfold World.contend
  split <;> rfl

/-- Contention puts the contender on the line of the lock, if it waits, and moves nobody else. -/
theorem home_contend (hc : w.lines.home c = none) (waits : Bool) (u : T) :
    (w.contend L m o c waits).lines.home u =
      if waits = true ∧ u = c then some (L.line m) else w.lines.home u := by
  unfold World.contend
  cases waits with
  | true => simp [w.lines.home_link _ _ hc]
  | false => simp

end Moves

end Inheritance
