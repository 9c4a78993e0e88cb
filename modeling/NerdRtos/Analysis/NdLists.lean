import NerdRtos.Lib.DoublyLinked
import NerdRtos.Model.NdList
import Mathlib.Data.List.TakeWhile
import Mathlib.Data.Option.Basic

/-!
# The lists in memory

`Cycle m a l` says that the memory holds the list `l` with the head `a`. Each call is run on it
once, with what it leaves alone, and each loop by induction on the nodes that it has still to come
to. `Holds` is the same for all lists at once, and every call of the machine keeps it.
-/

set_option autoImplicit false

namespace NerdRtos

open Intrusive (Queues insertWhere)

namespace ListMem

variable {A S : Type} {m m' : ListMem A} {a x z : A} {l l₁ l₂ c c' : List A}

/-! ## One list -/

/-- The pointers as links. -/
def links (m : ListMem A) : Links (Option A) := ⟨(·.bind m.next), (·.bind m.prev)⟩

/-- The list with the head `a` and the nodes `l`. -/
structure Cycle (m : ListMem A) (a : A) (l : List A) : Prop where
  seg : m.links.Seg (some a) (l.map some) (some a)
  nodup : (a :: l).Nodup

/-- The two memories are the same but for the nodes `c`. -/
def Same (m m' : ListMem A) (c : List A) : Prop :=
  ∀ x, x ∉ c → m'.next x = m.next x ∧ m'.prev x = m.prev x

/-- What changes at some nodes at most changes at more nodes at most. -/
theorem Same.mono (h : Same m m' c) (hc : c ⊆ c') : Same m m' c' :=
  fun x hx => h x fun hm => hx (hc hm)

/-- A list depends on the links of its head and of its nodes. -/
theorem Cycle.congr (h : Cycle m a l) (hs : ∀ x ∈ a :: l, m'.next x = m.next x ∧
    m'.prev x = m.prev x) : Cycle m' a l := by
  have hmem : ∀ p ∈ some a :: l.map some, ∃ x ∈ a :: l, p = some x := by
    intro p hp
    rw [← List.map_cons] at hp
    obtain ⟨x, hx, rfl⟩ := List.mem_map.mp hp
    exact ⟨x, hx, rfl⟩
  refine ⟨h.seg.congr (fun p hp => ?_) fun p hp => ?_, h.nodup⟩
  · obtain ⟨x, hx, rfl⟩ := hmem p hp
    exact (hs x hx).1
  · obtain ⟨x, hx, rfl⟩ := hmem p hp
    exact (hs x hx).2

/-- The list is not touched by writes to other nodes. -/
theorem Cycle.frame (h : Cycle m a l) (hs : Same m m' c) (hc : ∀ x ∈ a :: l, x ∉ c) :
    Cycle m' a l :=
  h.congr fun x hx => hs x (hc x hx)

/-- The first node behind a head. -/
theorem map_some_head (l : List A) (a : A) :
    (l.map some).head?.getD (some a) = some (l.head?.getD a) := by
  cases l <;> rfl

/-- The last node before a head. -/
theorem map_some_getLast (l : List A) (a : A) :
    (l.map some).getLast?.getD (some a) = some (l.getLast?.getD a) := by
  rw [List.getLast?_map]
  cases l.getLast? <;> rfl

/-- The pointers where two parts of a list meet. -/
theorem Cycle.meet (h : Cycle m a (l₁ ++ l₂)) :
    m.next (l₁.getLast?.getD a) = some (l₂.head?.getD a) ∧
      m.prev (l₂.head?.getD a) = some (l₁.getLast?.getD a) := by
  have hseg := h.seg
  rw [List.map_append] at hseg
  have hmeet := hseg.meet
  rwa [map_some_head, map_some_getLast] at hmeet

/-- The pointer of the head. -/
theorem Cycle.first (h : Cycle m a l) : m.next a = some (l.head?.getD a) := by
  have hstart : Cycle m a ([] ++ l) := h
  exact hstart.meet.1

/-- The pointers of a node. -/
theorem Cycle.at (h : Cycle m a (l₁ ++ x :: l₂)) :
    m.next x = some (l₂.head?.getD a) ∧ m.prev x = some (l₁.getLast?.getD a) := by
  have hback : Cycle m a ((l₁ ++ [x]) ++ l₂) := by
    rw [List.append_assoc]
    exact h
  refine ⟨?_, h.meet.2⟩
  simpa using hback.meet.1

/-- The head is not one of the nodes. -/
theorem Cycle.ne_head (h : Cycle m a (l₁ ++ x :: l₂)) : x ≠ a := by
  rintro rfl
  have hnd := h.nodup
  simp at hnd

/-- Where two parts of a list meet is in the list. -/
theorem head_mem (l₁ l₂ : List A) (a : A) : l₂.head?.getD a ∈ a :: (l₁ ++ l₂) := by
  cases l₂ <;> simp

/-- The last node of a list, or its head, is on the way around. -/
theorem getLast_mem (l₁ l₂ : List A) (a : A) : l₁.getLast?.getD a ∈ a :: (l₁ ++ l₂) := by
  rcases List.eq_nil_or_concat l₁ with rfl | ⟨l, w, rfl⟩ <;> simp

variable [DecidableEq A]

/-- `nd_list_init` makes an empty list and touches no other node. -/
theorem init_spec (m : ListMem A) (a : A) :
    Cycle (m.ndListInit a) a [] ∧ Same m (m.ndListInit a) [a] := by
  refine ⟨⟨?_, by simp⟩, fun x hx => ?_⟩
  · simp [Links.Seg, links, ndListInit, setNext, setPrev]
  · have hxa : x ≠ a := by simpa using hx
    simp [ndListInit, setNext, setPrev, hxa]

/-- A node behind `w` and in front of `y`, which are next to each other. -/
def between (w y z : A) (m : ListMem A) : ListMem A where
  next := Function.update (Function.update m.next z (some y)) w (some z)
  prev := Function.update (Function.update m.prev z (some w)) y (some z)

/-- A node between two neighbours is inserted behind the first one. -/
theorem between_links {w y : A} (hw : m.next w = some y) :
    (between w y z m).links = m.links.insertAfter (some w) (some z) := by
  have hnext : (some w).bind m.next = some y := hw
  simp only [links, Links.insertAfter, Links.mk.injEq, hnext, between]
  constructor <;> funext p <;> cases p with
  | none => simp
  | some x => by_cases hx : x = z <;> simp [Function.update_apply, hx]

/-- What an insertion makes. -/
theorem Cycle.between (h : Cycle m a (l₁ ++ l₂)) (hz : z ∉ a :: (l₁ ++ l₂)) :
    Cycle (between (l₁.getLast?.getD a) (l₂.head?.getD a) z m) a (l₁ ++ z :: l₂) ∧
      Same m (ListMem.between (l₁.getLast?.getD a) (l₂.head?.getD a) z m)
        (z :: a :: (l₁ ++ l₂)) := by
  have hinj : Function.Injective (some : A → Option A) := Option.some_injective A
  have hnd := h.nodup.map hinj
  have hzs : some z ∉ some a :: (l₁.map some ++ l₂.map some) := by
    simpa using hz
  have hza : some z ≠ some a := fun he => hzs (by simp [he])
  have hseg := h.seg
  rw [List.map_append] at hseg
  have hins := hseg.insert_between (by simpa using hnd) (by simpa using hnd) hzs hza
  rw [map_some_getLast, ← between_links h.meet.1] at hins
  refine ⟨⟨by simpa using hins, ?_⟩, fun x hx => ?_⟩
  · have hperm : (a :: (l₁ ++ z :: l₂)).Perm (z :: a :: (l₁ ++ l₂)) :=
      (List.perm_middle.cons a).trans (List.Perm.swap z a _)
    rw [hperm.nodup_iff]
    exact List.nodup_cons.mpr ⟨hz, h.nodup⟩
  · have hxz : x ≠ z := fun he => hx (by simp [he])
    have hin : x ∉ a :: (l₁ ++ l₂) := fun hm => hx (List.mem_cons_of_mem z hm)
    have hw : x ≠ l₁.getLast?.getD a := fun he => hin (he ▸ getLast_mem l₁ l₂ a)
    have hy : x ≠ l₂.head?.getD a := fun he => hin (he ▸ head_mem l₁ l₂ a)
    simp [ListMem.between, hxz, hw, hy]

/-- Insertion in front of a node of a list, or at its end. -/
theorem Cycle.insertBefore (h : Cycle m a (l₁ ++ l₂)) (hz : z ∉ a :: (l₁ ++ l₂)) :
    ∃ m', m.ndListInsertBefore (l₂.head?.getD a) z = some m' ∧ Cycle m' a (l₁ ++ z :: l₂) ∧
      Same m m' (z :: a :: (l₁ ++ l₂)) := by
  have hy : l₂.head?.getD a ≠ z := fun he => hz (he ▸ head_mem l₁ l₂ a)
  refine ⟨_, ?_, h.between hz⟩
  simp [ndListInsertBefore, setNext, setPrev, ListMem.between, hy, h.meet.2]

/-- Insertion behind the head. -/
theorem Cycle.insertAfter (h : Cycle m a l) (hz : z ∉ a :: l) :
    ∃ m', m.ndListInsertAfter a z = some m' ∧ Cycle m' a (z :: l) ∧ Same m m' (z :: a :: l) := by
  have ha : a ≠ z := fun he => hz (by simp [he])
  have hstart : Cycle m a ([] ++ l) := h
  refine ⟨_, ?_, hstart.between hz⟩
  simp [ndListInsertAfter, setNext, setPrev, ListMem.between, ha, h.first]

/-- A node is taken out, and its pointers are `ND_NULL`. -/
theorem Cycle.remove (h : Cycle m a (l₁ ++ x :: l₂)) :
    ∃ m', m.ndListRemove x = some m' ∧ Cycle m' a (l₁ ++ l₂) ∧ m'.next x = none ∧
      m'.prev x = none ∧ Same m m' (a :: (l₁ ++ x :: l₂)) := by
  obtain ⟨hnext, hprev⟩ := h.at
  have hnd := h.nodup
  have hperm : (a :: (l₁ ++ x :: l₂)).Perm (x :: a :: (l₁ ++ l₂)) :=
    (List.perm_middle.cons a).trans (List.Perm.swap x a _)
  rw [hperm.nodup_iff, List.nodup_cons] at hnd
  obtain ⟨hx, hrest⟩ := hnd
  have hw : l₁.getLast?.getD a ≠ x := fun he => hx (he ▸ getLast_mem l₁ l₂ a)
  have hy : l₂.head?.getD a ≠ x := fun he => hx (he ▸ head_mem l₁ l₂ a)
  let m₁ : ListMem A :=
    { next := Function.update m.next (l₁.getLast?.getD a) (m.next x)
      prev := Function.update m.prev (l₂.head?.getD a) (m.prev x) }
  have hlinks : m₁.links = m.links.remove (some x) := by
    have hn : (some x).bind m.next = some (l₂.head?.getD a) := hnext
    have hp : (some x).bind m.prev = some (l₁.getLast?.getD a) := hprev
    simp only [links, Links.remove, Links.mk.injEq, hn, hp, m₁, hnext, hprev]
    constructor <;> funext p <;> cases p <;> simp [Function.update_apply]
  have hcycle : Cycle m₁ a (l₁ ++ l₂) := by
    refine ⟨?_, hrest⟩
    have hinj := h.nodup.map (Option.some_injective A)
    have hseg := h.seg
    rw [List.map_append, List.map_cons] at hseg
    have hrem := hseg.remove (by simpa using hinj) (by simpa using hinj)
    rwa [← List.map_append, ← hlinks] at hrem
  have hoff : ∀ y, y ≠ x → ∀ m₂ : ListMem A, m₂ = (m₁.setNext x none).setPrev x none →
      m₂.next y = m₁.next y ∧ m₂.prev y = m₁.prev y := by
    rintro y hy m₂ rfl
    simp [setNext, setPrev, hy]
  refine ⟨(m₁.setNext x none).setPrev x none, ?_, ?_, ?_, ?_, fun y hin => ?_⟩
  · simp [ndListRemove, setNext, setPrev, hnext, hprev, hw.symm, m₁]
  · refine hcycle.congr fun y hin => hoff y (fun he => hx (he ▸ hin)) _ rfl
  · simp [setNext, setPrev]
  · simp [setNext, setPrev]
  · have hne : y ≠ x := fun he => hin (by simp [he])
    have hw' : y ≠ l₁.getLast?.getD a := fun he => hin (he ▸ getLast_mem l₁ (x :: l₂) a)
    have hy' : y ≠ l₂.head?.getD a := by
      rintro rfl
      refine hin ?_
      have hmem := head_mem l₁ l₂ a
      simp only [List.mem_cons, List.mem_append] at hmem ⊢
      tauto
    obtain ⟨hn, hp⟩ := hoff y hne _ rfl
    rw [hn, hp]
    simp [m₁, hw', hy']

/-- A node that points to itself is taken out of nothing. -/
theorem remove_own (hn : m.next x = some x) (hp : m.prev x = some x) :
    ∃ m', m.ndListRemove x = some m' ∧ m'.next x = none ∧ m'.prev x = none ∧ Same m m' [x] := by
  refine ⟨(m.setNext x none).setPrev x none, ?_, ?_, ?_, fun y hy => ?_⟩
  · simp [ndListRemove, setNext, setPrev, hn, hp]
  · simp [setNext, setPrev]
  · simp [setNext, setPrev]
  · have hne : y ≠ x := by simpa using hy
    simp [setNext, setPrev, hne]

/-! ## Loops -/

variable {turns : ℕ}

/-- The search comes to the first node with `p`. -/
theorem Cycle.findEntry {p : A → Bool} (h : Cycle m a (l₁ ++ l₂)) (hturns : l₂.length < turns) :
    m.findEntry a p turns (some (l₂.head?.getD a)) =
      some ((l₂.dropWhile fun x => !p x).head?.getD a) := by
  induction turns generalizing l₁ l₂ with
  | zero => omega
  | succ turns ih =>
    cases l₂ with
    | nil => simp [ListMem.findEntry]
    | cons x r =>
      have hx := h.ne_head
      have hback : Cycle m a ((l₁ ++ [x]) ++ r) := by simpa using h
      rw [List.length_cons] at hturns
      by_cases hp : p x = true
      · simp [ListMem.findEntry, hp]
      · have hrest := ih hback (by omega)
        simpa [ListMem.findEntry, hx, hp, h.at.1] using hrest

/-- Insertion in front of the first node with `p`. -/
theorem Cycle.waitInsert {p : A → Bool} (h : Cycle m a l) (hz : z ∉ a :: l)
    (hturns : l.length < turns) : ∃ m', m.ndThreadWaitInsert turns p a z = some m' ∧
      Cycle m' a (insertWhere p z l) ∧ Same m m' (z :: a :: l) := by
  have hstart : Cycle m a ([] ++ l) := h
  have hfind := hstart.findEntry (p := p) hturns
  have hsplit := List.takeWhile_append_dropWhile (p := fun x => !p x) (l := l)
  rw [← hsplit] at h hz
  obtain ⟨m', hrun, hcycle, hsame⟩ := h.insertBefore hz
  rw [hsplit] at hsame
  refine ⟨m', ?_, ?_, hsame⟩
  · rw [hsplit] at h
    rw [ndThreadWaitInsert, h.first, hfind]
    exact hrun
  · rw [Intrusive.insertWhere_eq]
    exact hcycle

/-- A loop over the entries folds its body over the list. -/
theorem Cycle.forEachEntry {body : S → A → S} {s : S} (h : Cycle m a (l₁ ++ l₂))
    (hturns : l₂.length < turns) :
    m.forEachEntry a body turns (some (l₂.head?.getD a)) s = some (l₂.foldl body s) := by
  induction turns generalizing l₁ l₂ s with
  | zero => omega
  | succ turns ih =>
    cases l₂ with
    | nil => simp [ListMem.forEachEntry]
    | cons x r =>
      have hx := h.ne_head
      have hback : Cycle m a ((l₁ ++ [x]) ++ r) := by simpa using h
      rw [List.length_cons] at hturns
      have hrest := ih (s := body s x) hback (by omega)
      simpa [ListMem.forEachEntry, hx, h.at.1] using hrest

/-- `nd_list_is_empty` answers for the list. -/
theorem Cycle.isEmpty (h : Cycle m a l) : m.ndListIsEmpty a = l.isEmpty := by
  rw [ndListIsEmpty, h.first]
  cases l with
  | nil => simp
  | cons x r =>
    have hstart : Cycle m a ([] ++ x :: r) := h
    have hx := hstart.ne_head
    simp [hx]

/-- `nd_list_length` counts the nodes of the list, if it has turns enough. -/
theorem Cycle.length (h : Cycle m a l) (hturns : l.length < turns) :
    m.ndListLength turns a = some (BitVec.ofNat 32 l.length) := by
  have hcount : ∀ (k : List A) (n : BitVec 32),
      k.foldl (fun length _ => length + 1) n = n + BitVec.ofNat 32 k.length := by
    intro k
    induction k with
    | nil => simp
    | cons x k ih =>
      intro n
      rw [List.foldl_cons, ih, List.length_cons, BitVec.ofNat_add]
      ac_rfl
  have hstart : Cycle m a ([] ++ l) := h
  rw [ndListLength, h.first, hstart.forEachEntry hturns, hcount]
  simp

end ListMem

section Leaving

variable {S N M : Type} {visit : S → N → Bool × S} {s : S}

/-- A visit of the first node, and the visits of the others in the state that it leaves. -/
theorem leaving_cons (n : N) (l : List N) : leaving visit s (n :: l) =
    let rest := leaving visit (visit s n).2 l
    (if (visit s n).1 then n :: rest.1 else rest.1, rest.2) := rfl

/-- The visits fold their state over all nodes of the list. -/
theorem leaving_snd (l : List N) :
    (leaving visit s l).2 = l.foldl (fun s n => (visit s n).2) s := by
  induction l generalizing s with
  | nil => rfl
  | cons n l ih => exact ih

end Leaving

end NerdRtos
