import Mathlib.Data.List.Nodup
import Mathlib.Logic.Function.Basic
import Mathlib.Tactic.Common

/-!
# Families of intrusive lists

A kernel keeps its objects on circular lists whose link node lives inside the
object itself, so one node is on at most one list at a time. `Queues H N` is such
a family: the lists are named by their heads `H`, the nodes by `N`, and every node
carries its own back pointer `home`. The two sides agree by construction
(`mem_iff`), and no list holds a node twice (`nodup`), so a value that breaks the
discipline cannot be built.

There are two edits, `link` and `unlink`. `link p h n` puts a free node in front of
the first node of `h` that satisfies `p`: with `p` always false it is the insertion
at the tail, with `p` always true the insertion at the head, and with a comparison
the insertion in key order (`pairwise_insertWhere`).
-/

set_option autoImplicit false

namespace Intrusive

variable {H N : Type}

/-! ## Insertion in front of the first match -/

/-- `insertWhere p n l` is `l` with `n` in front of the first element that satisfies
`p`, or at the end when there is none. -/
def insertWhere (p : N → Bool) (n : N) : List N → List N
  | [] => [n]
  | x :: xs => if p x then n :: x :: xs else x :: insertWhere p n xs

/-- Insertion adds the new element and moves nothing else in or out. -/
theorem insertWhere_perm (p : N → Bool) (n : N) (l : List N) :
    (insertWhere p n l).Perm (n :: l) := by
  induction l with
  | nil => exact List.Perm.refl _
  | cons x xs ih =>
    unfold insertWhere
    split
    · exact List.Perm.refl _
    · exact (ih.cons x).trans (List.Perm.swap n x xs)

/-- The elements after an insertion. -/
@[simp] theorem mem_insertWhere (p : N → Bool) (n m : N) (l : List N) :
    m ∈ insertWhere p n l ↔ m = n ∨ m ∈ l := by
  rw [(insertWhere_perm p n l).mem_iff, List.mem_cons]

/-- A list with an inserted element is not empty. -/
theorem insertWhere_ne_nil (p : N → Bool) (n : N) (l : List N) :
    insertWhere p n l ≠ [] := by
  intro h
  have hn : n ∈ insertWhere p n l := by simp
  rw [h] at hn
  simp at hn

/-- A fresh element keeps the list free of repetitions. -/
theorem nodup_insertWhere (p : N → Bool) (n : N) (l : List N) (hn : n ∉ l) (hl : l.Nodup) :
    (insertWhere p n l).Nodup := by
  rw [(insertWhere_perm p n l).nodup_iff, List.nodup_cons]
  exact ⟨hn, hl⟩

/-- With a condition that never holds the insertion is at the tail. -/
theorem insertWhere_false (n : N) (l : List N) : insertWhere (fun _ => false) n l = l ++ [n] := by
  induction l with
  | nil => rfl
  | cons x xs ih => simp [insertWhere, ih]

/-- With a condition that always holds the insertion is at the head. -/
theorem insertWhere_true (n : N) (l : List N) : insertWhere (fun _ => true) n l = n :: l := by
  cases l <;> rfl

/-- The place of the insertion. -/
theorem insertWhere_eq (p : N → Bool) (n : N) (l : List N) :
    insertWhere p n l = l.takeWhile (fun x => !p x) ++ n :: l.dropWhile fun x => !p x := by
  induction l with
  | nil => rfl
  | cons x xs ih =>
    unfold insertWhere
    by_cases hp : p x = true <;> simp [hp, ih]

/-- Insertion into a list that is mapped. -/
theorem insertWhere_map {M : Type} (f : N → M) (p : M → Bool) (n : N) (l : List N) :
    insertWhere p (f n) (l.map f) = (insertWhere (fun x => p (f x)) n l).map f := by
  induction l with
  | nil => rfl
  | cons x xs ih =>
    by_cases hp : p (f x) = true <;> simp [insertWhere, hp, ih]

/-- Insertion in key order: when every element passed over is below the new one, and every
element from the first match on is above it, an ordered list stays ordered. -/
theorem pairwise_insertWhere (R : N → N → Prop) (p : N → Bool) (n : N) (l : List N)
    (hl : l.Pairwise R) (hpass : ∀ x ∈ l, p x = false → R x n)
    (hstop : ∀ x ∈ l, p x = true → R n x) (htrans : ∀ x ∈ l, ∀ y ∈ l, R n x → R x y → R n y) :
    (insertWhere p n l).Pairwise R := by
  induction l with
  | nil => simp [insertWhere]
  | cons x xs ih =>
    rw [List.pairwise_cons] at hl
    unfold insertWhere
    split
    case isTrue hp =>
      have hx : R n x := hstop x (by simp) hp
      refine List.pairwise_cons.mpr ⟨?_, List.pairwise_cons.mpr hl⟩
      intro y hy
      rcases List.mem_cons.mp hy with rfl | hy
      · exact hx
      · exact htrans x (by simp) y (by simp [hy]) hx (hl.1 y hy)
    case isFalse hp =>
      have hp' : p x = false := by simpa using hp
      refine List.pairwise_cons.mpr ⟨?_, ?_⟩
      · intro y hy
        rcases (mem_insertWhere p n y xs).mp hy with rfl | hy
        · exact hpass x (by simp) hp'
        · exact hl.1 y hy
      · exact ih hl.2 (fun y hy => hpass y (by simp [hy])) (fun y hy => hstop y (by simp [hy]))
          (fun y hy z hz => htrans y (by simp [hy]) z (by simp [hz]))

/-! ## The family -/

/-- A family of intrusive lists: `lists h` is the list with head `h`, in order, and `home n`
is the head of the list that node `n` is on. -/
structure Queues (H N : Type) where
  lists : H → List N
  home : N → Option H
  mem_iff : ∀ h n, n ∈ lists h ↔ home n = some h
  nodup : ∀ h, (lists h).Nodup

namespace Queues

/-- All lists empty, all nodes free. -/
def empty : Queues H N where
  lists _ := []
  home _ := none
  mem_iff := by simp
  nodup := by simp

/-- The lists of the empty family. -/
@[simp] theorem lists_empty (h : H) : (empty : Queues H N).lists h = [] := rfl

/-- The nodes of the empty family. -/
@[simp] theorem home_empty (n : N) : (empty : Queues H N).home n = none := rfl

/-- A node on list `h` is on no other list. -/
theorem not_mem_of_home (q : Queues H N) {h k : H} {n : N} (hn : q.home n = some h)
    (hk : k ≠ h) : n ∉ q.lists k := by
  rw [q.mem_iff, hn]
  intro he
  exact hk (Option.some.inj he).symm

/-- A free node is on no list. -/
theorem not_mem_of_free (q : Queues H N) {n : N} (hn : q.home n = none) (h : H) :
    n ∉ q.lists h := by
  simp [q.mem_iff, hn]

/-- A node on list `h` is there exactly once. -/
theorem count_eq_one [DecidableEq N] (q : Queues H N) {h : H} {n : N} (hn : q.home n = some h) :
    (q.lists h).count n = 1 :=
  List.count_eq_one_of_mem (q.nodup h) ((q.mem_iff h n).mpr hn)

/-- The first node of a list has that list as its home. -/
theorem home_of_head (q : Queues H N) {h : H} {n : N} (hn : (q.lists h).head? = some n) :
    q.home n = some h :=
  (q.mem_iff h n).mp (List.mem_of_head? hn)

/-- Two families with the same lists and back pointers are equal. -/
theorem ext {q r : Queues H N} (hl : ∀ h, q.lists h = r.lists h) (hh : ∀ n, q.home n = r.home n) :
    q = r := by
  cases q
  cases r
  simp only [mk.injEq]
  exact ⟨funext hl, funext hh⟩

/-- The family with the lists whose head satisfies `c`; the nodes of the others are free. -/
def restrict (q : Queues H N) (c : H → Bool) : Queues H N where
  lists h := if c h then q.lists h else []
  home n := (q.home n).filter c
  mem_iff h n := by
    by_cases hc : c h = true
    · rw [if_pos hc, q.mem_iff, Option.filter_eq_some_iff]
      exact ⟨fun e => ⟨e, hc⟩, fun e => e.1⟩
    · rw [if_neg hc, Option.filter_eq_some_iff]
      simp [hc]
  nodup h := by
    split
    · exact q.nodup h
    · exact List.nodup_nil

/-- The lists of a restricted family. -/
@[simp] theorem lists_restrict (q : Queues H N) (c : H → Bool) (h : H) :
    (q.restrict c).lists h = if c h then q.lists h else [] := rfl

/-- The nodes of a restricted family. -/
@[simp] theorem home_restrict (q : Queues H N) (c : H → Bool) (n : N) :
    (q.restrict c).home n = (q.home n).filter c := rfl

variable [DecidableEq N]

/-- Take a node off whichever list it is on. -/
def unlink (q : Queues H N) (n : N) : Queues H N where
  lists h := (q.lists h).erase n
  home := Function.update q.home n none
  mem_iff h m := by
    rw [(q.nodup h).mem_erase_iff, q.mem_iff]
    by_cases hm : m = n
    · subst hm; simp
    · simp [hm]
  nodup h := (q.nodup h).erase n

/-- A node that is unlinked is on no list, and the others stay where they are. -/
@[simp] theorem home_unlink (q : Queues H N) (n m : N) :
    (q.unlink n).home m = if m = n then none else q.home m := by
  simp [unlink, Function.update_apply]

/-- The lists without the node. -/
@[simp] theorem lists_unlink (q : Queues H N) (n : N) (h : H) :
    (q.unlink n).lists h = (q.lists h).erase n := rfl

/-- Taking off a node that is on another list leaves this one alone. -/
theorem lists_unlink_of_home (q : Queues H N) {n : N} {h k : H} (hn : q.home n = some h)
    (hk : k ≠ h) : (q.unlink n).lists k = q.lists k :=
  List.erase_of_not_mem (q.not_mem_of_home hn hk)

/-- Taking off a free node changes nothing. -/
theorem unlink_of_free (q : Queues H N) {n : N} (hn : q.home n = none) : q.unlink n = q := by
  apply ext
  · intro h
    exact List.erase_of_not_mem (q.not_mem_of_free hn h)
  · intro m
    by_cases hm : m = n
    · subst hm; simp [hn]
    · simp [hm]

/-- Taking off a node that is on one of the other lists, or on none, is not seen. -/
theorem restrict_unlink_of_not {q : Queues H N} {c : H → Bool} {n : N}
    (hn : ∀ k, q.home n = some k → c k = false) :
    (q.unlink n).restrict c = q.restrict c := by
  apply ext
  · intro k
    by_cases hk : c k = true
    · have hm : n ∉ q.lists k := by
        rw [q.mem_iff]
        intro e
        rw [hn k e] at hk
        cases hk
      simp [hk, List.erase_of_not_mem hm]
    · simp [hk]
  · intro m
    by_cases hm : m = n
    · subst hm
      cases hq : q.home m with
      | none => simp [hq]
      | some k =>
        have hk := hn k hq
        simp [hq, Option.filter, hk]
    · simp [hm]

/-- Taking a node off twice is taking it off once. -/
@[simp] theorem unlink_unlink (q : Queues H N) (n : N) : (q.unlink n).unlink n = q.unlink n :=
  unlink_of_free _ (by simp)

/-- Taking off any node is seen as taking it off. -/
theorem restrict_unlink (q : Queues H N) (c : H → Bool) (n : N) :
    (q.unlink n).restrict c = (q.restrict c).unlink n := by
  apply ext
  · intro k
    by_cases hk : c k = true <;> simp [hk]
  · intro m
    by_cases hm : m = n <;> simp [hm]

variable [DecidableEq H]

/-- Put a free node on list `h`, in front of the first node that satisfies `p`; a node that is
already on a list stays where it is. -/
def link (q : Queues H N) (p : N → Bool) (h : H) (n : N) : Queues H N :=
  if hn : q.home n = none then
    { lists := Function.update q.lists h (insertWhere p n (q.lists h))
      home := Function.update q.home n (some h)
      mem_iff := by
        intro k m
        have hfree := q.not_mem_of_free hn
        by_cases hk : k = h <;> by_cases hm : m = n
        · subst hk; subst hm; simp
        · subst hk; simp [hm, q.mem_iff]
        · subst hm
          have hne : ¬ h = k := fun e => hk e.symm
          simp [hk, hne, hfree k]
        · simp [hk, hm, q.mem_iff]
      nodup := by
        intro k
        by_cases hk : k = h
        · subst hk
          simpa using nodup_insertWhere p n _ (q.not_mem_of_free hn k) (q.nodup k)
        · simpa [hk] using q.nodup k }
  else q

/-- A node that is linked is on its list, and the others stay where they are. -/
theorem home_link (q : Queues H N) (p : N → Bool) (h : H) {n : N} (hn : q.home n = none) (m : N) :
    (q.link p h n).home m = if m = n then some h else q.home m := by
  simp [link, hn, Function.update_apply]

/-- The list with the node, and the other lists. -/
theorem lists_link (q : Queues H N) (p : N → Bool) (h : H) {n : N} (hn : q.home n = none) (k : H) :
    (q.link p h n).lists k = if k = h then insertWhere p n (q.lists h) else q.lists k := by
  simp [link, hn, Function.update_apply]

/-- Linking touches only the named list. -/
theorem lists_link_of_ne (q : Queues H N) (p : N → Bool) {h k : H} (n : N) (hk : k ≠ h) :
    (q.link p h n).lists k = q.lists k := by
  by_cases hn : q.home n = none
  · simp [q.lists_link p h hn, hk]
  · simp [link, hn]

/-- Linking touches only the named node. -/
theorem home_link_of_ne (q : Queues H N) (p : N → Bool) (h : H) {n m : N} (hm : m ≠ n) :
    (q.link p h n).home m = q.home m := by
  by_cases hn : q.home n = none
  · simp [q.home_link p h hn, hm]
  · simp [link, hn]

/-- Linking to one of the other lists is not seen. -/
theorem restrict_link_of_not {q : Queues H N} {c : H → Bool} {h : H} {n : N} (p : N → Bool)
    (hn : q.home n = none) (hh : c h = false) :
    (q.link p h n).restrict c = q.restrict c := by
  apply ext
  · intro k
    by_cases hk : k = h
    · subst hk; simp [hh]
    · simp [q.lists_link p h hn, hk]
  · intro m
    by_cases hm : m = n
    · subst hm; simp [q.home_link p h hn, hn, hh]
    · simp [q.home_link p h hn, hm]

/-- Linking a free node to one of the lists is seen as linking it. -/
theorem restrict_link {q : Queues H N} {c : H → Bool} {h : H} {n : N} (p : N → Bool)
    (hn : q.home n = none) (hh : c h = true) :
    (q.link p h n).restrict c = (q.restrict c).link p h n := by
  have hn' : (q.restrict c).home n = none := by simp [hn]
  apply ext
  · intro k
    rw [lists_restrict, q.lists_link p h hn, (q.restrict c).lists_link p h hn']
    by_cases hk : k = h
    · subst hk; simp [hh]
    · simp [hk]
  · intro m
    rw [home_restrict, q.home_link p h hn, (q.restrict c).home_link p h hn']
    by_cases hm : m = n
    · subst hm; simp [hh]
    · simp [hm]

end Queues

end Intrusive
