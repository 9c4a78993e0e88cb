import NerdRtos.Analysis.HeapHeaders
import Mathlib.Data.List.Chain

/-!
# The shape of the heap

`Shape` is the invariant of the heap: the headers lie one after the other in the pool, both lists
lead through them, the free list has the free ones, and of two neighbours one is used. Each case of
`memheap_coalesce` and of the allocation is one change of the headers and the two lists. While a
block is given back it is `loose`: neither used nor on the free list.
-/

set_option autoImplicit false

namespace NerdRtos

open Bytes (Mem Apart)
open Function (update)

variable {cfg : Config} {d heap start size : ℕ} {h h' : Headers} {items frees l r : List ℕ}
  {loose : Option ℕ} {x n : ℕ}

/-- The control block and the pool: they lie in the address space, apart from each other, at
multiples of `d`, and the pool has room for a header. -/
structure HeapArea (cfg : Config) (d heap start size : ℕ) : Prop where
  align : d = 2 ∨ d = 4
  heapAligned : d ∣ heap
  startAligned : d ∣ start
  room : itemSize cfg ≤ size
  control : heap + heapSize cfg ≤ 2 ^ 32
  pool : start + size ≤ 2 ^ 32
  apart : heap + heapSize cfg ≤ start ∨ start + size ≤ heap

/-- The headers lie in the pool one after the other, at multiples of `d`. -/
structure Laid (cfg : Config) (d start size : ℕ) (items : List ℕ) : Prop where
  head : items.head? = some start
  inside : ∀ a ∈ items, start ≤ a ∧ a + itemSize cfg ≤ start + size
  aligned : ∀ a ∈ items, d ∣ a
  sorted : items.Pairwise fun a b => a + itemSize cfg ≤ b

/-- Of two neighbours one is not free. -/
def Spaced (frees items : List ℕ) : Prop := items.IsChain fun a b => ¬ (a ∈ frees ∧ b ∈ frees)

/-- The heap has the headers `items` and the free list `frees`; `loose` is not settled. -/
structure Shape (cfg : Config) (d heap start size : ℕ) (h : Headers) (items frees : List ℕ)
    (loose : Option ℕ) : Prop where
  laid : Laid cfg d start size items
  phys : h.phys.Seg heap items (endItem cfg heap)
  free : h.free.Seg heap frees heap
  nodup : frees.Nodup
  listed : ∀ a ∈ frees, a ∈ items ∧ loose ≠ some a
  flags : ∀ a ∈ items, loose ≠ some a → h.used a = !decide (a ∈ frees)
  ends : h.used heap = true ∧ h.used (endItem cfg heap) = true
  owner : ∀ a ∈ items, h.pool a = heap ∧ h.magic a = true
  spaced : Spaced frees items
  last : ∃ z, items.getLast? = some z ∧ (z ∈ frees ∨ loose = some z)

/-! ## Layout -/

/-- A header has five words at least. -/
theorem itemSize_pos (cfg : Config) : 20 ≤ itemSize cfg := by
  unfold itemSize
  split <;> omega

/-- Headers have the size of aligned words. -/
theorem HeapArea.dvd (ha : HeapArea cfg d heap start size) : 2 ∣ d ∧ d ∣ itemSize cfg := by
  unfold itemSize
  rcases ha.align with rfl | rfl <;> split <;> decide

/-- Headers in a row are different. -/
theorem Laid.nodup (hl : Laid cfg d start size items) : items.Nodup := by
  have hpos := itemSize_pos cfg
  exact hl.sorted.imp fun {a b} hab => by omega

/-- The headers of a heap do not overlap. -/
theorem Laid.bases (hl : Laid cfg d start size items) (ha : HeapArea cfg d heap start size) :
    Bases cfg heap (heap :: endItem cfg heap :: items) := by
  have hroom := ha.room
  have hcontrol := ha.control
  have hpool := ha.pool
  have happ := ha.apart
  obtain ⟨htwo, hitem⟩ := ha.dvd
  unfold heapSize at hcontrol happ
  refine ⟨?_, fun x hx => ?_, fun x hx => ?_, fun x hx => ?_⟩
  · simp only [List.pairwise_cons]
    refine ⟨fun y hy => ?_, fun y hy => ?_, hl.sorted.imp fun {a b} hab => .inl hab⟩
    · unfold Apart
      rcases List.mem_cons.mp hy with rfl | hy
      · exact .inl le_rfl
      · have := hl.inside y hy
        omega
    · have := hl.inside y hy
      unfold Apart endItem
      omega
  · unfold availableAt
    rcases List.mem_cons.mp hx with rfl | hx
    · omega
    rcases List.mem_cons.mp hx with rfl | hx
    · unfold endItem
      omega
    · have := hl.inside x hx
      omega
  · rcases List.mem_cons.mp hx with rfl | hx
    · exact Nat.dvd_trans htwo ha.heapAligned
    rcases List.mem_cons.mp hx with rfl | hx
    · exact Nat.dvd_trans htwo (Nat.dvd_add ha.heapAligned hitem)
    · exact Nat.dvd_trans htwo (hl.aligned x hx)
  · rcases List.mem_cons.mp hx with rfl | hx
    · omega
    rcases List.mem_cons.mp hx with rfl | hx
    · unfold endItem
      omega
    · have := hl.inside x hx
      have hpos := itemSize_pos cfg
      omega

/-- The two ends are not in the pool. -/
theorem Laid.ends_notMem (hl : Laid cfg d start size items) (ha : HeapArea cfg d heap start size) :
    heap ∉ items ∧ endItem cfg heap ∉ items ∧ heap ≠ endItem cfg heap := by
  have hpos := itemSize_pos cfg
  have happ := ha.apart
  unfold heapSize at happ
  refine ⟨fun hm => ?_, fun hm => ?_, ?_⟩
  · have := hl.inside _ hm
    omega
  · have := hl.inside _ hm
    unfold endItem at this
    omega
  · unfold endItem
    omega

/-- The control block and the end marker are none of the headers. -/
theorem Laid.nodup_ends (hl : Laid cfg d start size items) (ha : HeapArea cfg d heap start size) :
    (heap :: items).Nodup ∧ (endItem cfg heap :: items).Nodup := by
  obtain ⟨h₁, h₂, -⟩ := hl.ends_notMem ha
  exact ⟨List.nodup_cons.mpr ⟨h₁, hl.nodup⟩, List.nodup_cons.mpr ⟨h₂, hl.nodup⟩⟩

/-- A header other than the first is taken out. -/
theorem Laid.remove (hl : Laid cfg d start size (l ++ x :: r)) (hne : l ≠ []) :
    Laid cfg d start size (l ++ r) := by
  have hsub : (l ++ r).Sublist (l ++ x :: r) := (List.sublist_cons_self x r).append_left l
  refine ⟨?_, fun a ha => hl.inside a (hsub.subset ha), fun a ha => hl.aligned a (hsub.subset ha),
    hl.sorted.sublist hsub⟩
  have hhead := hl.head
  rw [List.head?_append_of_ne_nil _ hne] at hhead ⊢
  exact hhead

/-- A new header in the rest of a block. -/
theorem Laid.insert (hl : Laid cfg d start size (l ++ x :: r)) (heven : d ∣ n)
    (hlow : x + itemSize cfg ≤ n) (hhigh : ∀ y ∈ r, n + itemSize cfg ≤ y)
    (hin : n + itemSize cfg ≤ start + size) : Laid cfg d start size (l ++ x :: n :: r) := by
  have hx := hl.inside x (by simp)
  have hsorted := hl.sorted
  simp only [List.pairwise_append, List.pairwise_cons, List.mem_cons] at hsorted
  refine ⟨?_, fun a ha => ?_, fun a ha => ?_, ?_⟩
  · have hhead := hl.head
    simpa [List.head?_append] using hhead
  · have hcases : a = n ∨ a ∈ l ++ x :: r := by
      simp only [List.mem_append, List.mem_cons] at ha ⊢
      tauto
    rcases hcases with rfl | ha
    · exact ⟨by omega, hin⟩
    · exact hl.inside a ha
  · have hcases : a = n ∨ a ∈ l ++ x :: r := by
      simp only [List.mem_append, List.mem_cons] at ha ⊢
      tauto
    rcases hcases with rfl | ha
    · exact heven
    · exact hl.aligned a ha
  · simp only [List.pairwise_append, List.pairwise_cons, List.mem_cons]
    refine ⟨hsorted.1, ⟨?_, hhigh, hsorted.2.1.2⟩, ?_⟩
    · rintro y (rfl | hy)
      · exact hlow
      · exact hsorted.2.1.1 y hy
    · rintro a ha y (rfl | rfl | hy)
      · exact hsorted.2.2 a ha y (.inl rfl)
      · have := hsorted.2.2 a ha x (.inl rfl)
        omega
      · exact hsorted.2.2 a ha y (.inr hy)

/-- A header that is put in is none of those that were there. -/
theorem Laid.notMem_insert (hl : Laid cfg d start size (l ++ x :: n :: r)) : n ∉ l ++ x :: r := by
  have hnd := hl.nodup
  intro hm
  simp only [List.nodup_append, List.nodup_cons, List.mem_append, List.mem_cons, not_or] at hnd hm
  rcases hm with hl | rfl | hr
  · exact hnd.2.2 n hl n (.inr (.inl rfl)) rfl
  · exact hnd.2.1.1.1 rfl
  · exact hnd.2.1.2.1 hr

/-- The header of what is left of a block that is cut. -/
theorem Laid.cut {v : ℕ} (hl : Laid cfg d start size (l ++ x :: r))
    (ha : HeapArea cfg d heap start size) (hn : n = x + itemSize cfg + v) (heven : d ∣ v)
    (hbehind : ∀ y ∈ r, n + itemSize cfg ≤ y) (hin : n + itemSize cfg ≤ start + size) :
    Laid cfg d start size (l ++ x :: n :: r) := by
  obtain ⟨-, hitem⟩ := ha.dvd
  have hxeven := hl.aligned x (by simp)
  refine hl.insert ?_ (by omega) hbehind hin
  rw [hn]
  exact Nat.dvd_add (Nat.dvd_add hxeven hitem) heven

/-- With one header more the others still are among the headers. -/
theorem mem_insert_headers {e a : ℕ} (hm : a ∈ heap :: e :: (l ++ x :: r)) :
    a ∈ heap :: e :: (l ++ x :: n :: r) := by
  simp only [List.mem_cons, List.mem_append] at hm ⊢
  tauto

/-! ## Neighbours -/

/-- Fewer free blocks are still not next to each other. -/
theorem Spaced.mono {frees' : List ℕ} (h : Spaced frees items)
    (hs : ∀ a ∈ items, a ∈ frees' → a ∈ frees) :
    Spaced frees' items := by
  refine List.IsChain.imp_of_mem_imp (fun a b ha hb hab hfree => hab ?_) h
  exact ⟨hs a ha hfree.1, hs b hb hfree.2⟩

/-- A used block separates what lies before it from what lies behind it. -/
theorem spaced_split (hx : x ∉ frees) :
    Spaced frees (l ++ x :: r) ↔ Spaced frees l ∧ Spaced frees r := by
  unfold Spaced
  rw [List.isChain_append, List.isChain_cons]
  constructor
  · rintro ⟨hl, ⟨-, hr⟩, -⟩
    exact ⟨hl, hr⟩
  · rintro ⟨hl, hr⟩
    refine ⟨hl, ⟨fun y _ hfree => hx hfree.1, hr⟩, fun y _ z hz hfree => ?_⟩
    cases hz
    exact hx hfree.2

/-- The neighbour behind a free block is used. -/
theorem Spaced.next_used (h : Spaced frees (l ++ x :: r)) (hx : x ∈ frees) :
    ∀ y ∈ r.head?, y ∉ frees := by
  unfold Spaced at h
  rw [List.isChain_append, List.isChain_cons] at h
  exact fun y hy hfree => h.2.1.1 y hy ⟨hx, hfree⟩

/-- A block between used neighbours may become free. -/
theorem Spaced.free {frees' : List ℕ} (h : Spaced frees (l ++ x :: r))
    (hs : ∀ a ∈ l ++ x :: r, a ≠ x → a ∈ frees' → a ∈ frees) (hnd : (l ++ x :: r).Nodup)
    (hprev : ∀ y ∈ l.getLast?, y ∉ frees') (hnext : ∀ y ∈ r.head?, y ∉ frees') :
    Spaced frees' (l ++ x :: r) := by
  simp only [List.nodup_append, List.nodup_cons, List.mem_cons] at hnd
  have hl : Spaced frees' l := by
    refine Spaced.mono (List.IsChain.left_of_append h) fun a ha hfree => ?_
    exact hs a (by simp [ha]) (fun he => hnd.2.2 a ha x (.inl rfl) he) hfree
  have hr : Spaced frees' r := by
    have hall := List.IsChain.right_of_append h
    refine Spaced.mono (List.IsChain.tail hall) fun a ha hfree => ?_
    refine hs a ?_ ?_ hfree
    · have ha' : a ∈ r := ha
      simp [ha']
    · rintro rfl
      exact hnd.2.1.1 ha
  unfold Spaced at hl hr ⊢
  rw [List.isChain_append, List.isChain_cons]
  refine ⟨hl, ⟨fun y hy hfree => hnext y hy hfree.2, hr⟩, fun y hy z hz hfree => ?_⟩
  exact hprev y hy hfree.1

/-! ## Changes of the shape -/

/-- The shape depends on the headers of the heap only. -/
theorem Shape.congr (hs : Shape cfg d heap start size h items frees loose)
    (hc : ∀ a ∈ heap :: endItem cfg heap :: items, h'.phys.next a = h.phys.next a ∧
      h'.phys.prev a = h.phys.prev a ∧ h'.free.next a = h.free.next a ∧
      h'.free.prev a = h.free.prev a ∧ h'.used a = h.used a ∧ h'.pool a = h.pool a ∧
      h'.magic a = h.magic a) : Shape cfg d heap start size h' items frees loose := by
  have hitems : ∀ a ∈ items, a ∈ heap :: endItem cfg heap :: items := fun a ha => by simp [ha]
  have hfrees : ∀ a ∈ heap :: frees, a ∈ heap :: endItem cfg heap :: items := by
    intro a ha
    rcases List.mem_cons.mp ha with rfl | ha
    · simp
    · exact hitems a (hs.listed a ha).1
  refine ⟨hs.laid, hs.phys.congr (fun a ha => (hc a ?_).1) fun a ha => (hc a ?_).2.1,
    hs.free.congr (fun a ha => (hc a (hfrees a ha)).2.2.1) fun a ha => (hc a (hfrees a ha)).2.2.2.1,
    hs.nodup, hs.listed, fun a ha hl => ?_, ?_, fun a ha => ?_, hs.spaced, hs.last⟩
  · simp only [List.mem_cons] at ha ⊢
    tauto
  · simp only [List.mem_cons] at ha ⊢
    tauto
  · rw [(hc a (hitems a ha)).2.2.2.2.1]
    exact hs.flags a ha hl
  · rw [(hc heap (by simp)).2.2.2.2.1, (hc (endItem cfg heap) (by simp)).2.2.2.2.1]
    exact hs.ends
  · rw [(hc a (hitems a ha)).2.2.2.2.2.1, (hc a (hitems a ha)).2.2.2.2.2.2]
    exact hs.owner a ha

/-- The free list goes through no block twice. -/
theorem Shape.nodup_frees (hs : Shape cfg d heap start size h items frees loose)
    (ha : HeapArea cfg d heap start size) : (heap :: frees).Nodup := by
  refine List.nodup_cons.mpr ⟨fun hm => ?_, hs.nodup⟩
  exact (hs.laid.ends_notMem ha).1 (hs.listed heap hm).1

/-- A used block is taken into hand. -/
theorem Shape.loosen (hs : Shape cfg d heap start size h items frees none) (hx : x ∉ frees) :
    Shape cfg d heap start size h items frees (some x) := by
  obtain ⟨z, hz, hfree⟩ := hs.last
  refine { hs with
    listed := fun a ha => ⟨(hs.listed a ha).1, ?_⟩
    flags := fun a ha _ => hs.flags a ha (by simp)
    last := ⟨z, hz, .inl (hfree.resolve_right (by simp))⟩ }
  rintro ⟨⟩
  exact hx ha

/-- A used block is put out of hand. -/
theorem Shape.settle (hs : Shape cfg d heap start size h items frees (some x))
    (hu : h.used x = true) (hx : x ∉ frees) (hlast : items.getLast? ≠ some x) :
    Shape cfg d heap start size h items frees none := by
  obtain ⟨z, hz, hfree⟩ := hs.last
  refine { hs with
    listed := fun a ha => ⟨(hs.listed a ha).1, by simp⟩
    flags := fun a ha _ => ?_
    last := ⟨z, hz, .inl (hfree.resolve_right ?_)⟩ }
  · by_cases hax : a = x
    · subst hax
      simp [hu, hx]
    · exact hs.flags a ha (by simpa using Ne.symm hax)
  · rintro ⟨⟩
    exact hlast hz

/-- The last header behind a block. -/
theorem getLast_append_cons (l : List ℕ) (x : ℕ) (r : List ℕ) :
    (l ++ x :: r).getLast? = some (r.getLastD x) := by
  cases r with
  | nil => simp
  | cons y r => simp [List.getLast?_append, List.getLast?_cons]

/-- The last of a list that is not empty is in it. -/
theorem getLastD_mem (y : ℕ) (r : List ℕ) (x : ℕ) : (y :: r).getLastD x ∈ y :: r := by
  rw [List.getLastD_cons]
  exact List.getLastD_mem_cons

/-- A list of blocks without one of them. -/
theorem mem_middle {f g : List ℕ} (hnd : (f ++ x :: g).Nodup) {a : ℕ} :
    a ∈ f ++ g ↔ a ∈ f ++ x :: g ∧ a ≠ x := by
  simp only [List.nodup_append, List.nodup_cons, List.mem_cons] at hnd
  simp only [List.mem_append, List.mem_cons]
  constructor
  · rintro (hf | hg)
    · exact ⟨.inl hf, fun he => hnd.2.2 a hf x (.inl rfl) he⟩
    · exact ⟨.inr (.inr hg), fun he => hnd.2.1.1 (he ▸ hg)⟩
  · tauto

/-- The headers but `n`. -/
theorem mem_takeOut {a n : ℕ} (hnd : (l ++ x :: n :: r).Nodup) (hm : a ∈ l ++ x :: r) :
    a ∈ l ++ x :: n :: r ∧ a ≠ n := by
  have hassoc : l ++ x :: n :: r = (l ++ [x]) ++ n :: r := by simp
  rw [hassoc] at hnd ⊢
  apply (mem_middle hnd).mp
  simpa using hm

/-- The header `n` is taken out of the list of all headers. -/
theorem Shape.takeOut {n : ℕ} {loose : Option ℕ}
    (hs : Shape cfg d heap start size h (l ++ x :: n :: r) frees loose)
    (ha : HeapArea cfg d heap start size) :
    Laid cfg d start size (l ++ x :: r) ∧
      (h.phys.remove n).Seg heap (l ++ x :: r) (endItem cfg heap) := by
  have hassoc : l ++ x :: n :: r = (l ++ [x]) ++ n :: r := by simp
  have hassoc' : l ++ x :: r = (l ++ [x]) ++ r := by simp
  have hl := hs.laid
  have hp := hs.phys
  obtain ⟨hn₁, hn₂⟩ := hs.laid.nodup_ends ha
  rw [hassoc] at hl hp hn₁ hn₂
  rw [hassoc']
  exact ⟨hl.remove (by simp), hp.remove hn₁ hn₂⟩

/-- The free block `n` behind the loose block `x` is joined to it.
kernel/nd_memheap.c:85-89 -/
theorem Shape.absorb (hs : Shape cfg d heap start size h (l ++ x :: n :: r) frees (some x))
    (ha : HeapArea cfg d heap start size) (hn : n ∈ frees) (v : ℕ) :
    Shape cfg d heap start size
      { h with phys := h.phys.remove n, free := h.free.remove n, avail := v } (l ++ x :: r)
      (frees.erase n) (some x) := by
  obtain ⟨hlaid, hphys⟩ := hs.takeOut ha
  have hmem := fun {a : ℕ} (hm : a ∈ l ++ x :: r) => mem_takeOut hs.laid.nodup hm
  have hxfree : x ∉ frees := fun hx => (hs.listed x hx).2 rfl
  refine
    { laid := hlaid, phys := hphys, free := ?_, nodup := hs.nodup.erase n, listed := fun a hm => ?_,
      flags := fun a hm hl => ?_, ends := hs.ends, owner := fun a hm => hs.owner a (hmem hm).1,
      spaced := ?_, last := ?_ }
  · obtain ⟨f, g, rfl⟩ := List.append_of_mem hn
    have hf : n ∉ f := by
      have hnodup := hs.nodup
      simp only [List.nodup_append, List.mem_cons] at hnodup
      exact fun hf => hnodup.2.2 n hf n (.inl rfl) rfl
    rw [List.erase_append_right _ hf, List.erase_cons_head]
    exact hs.free.remove (hs.nodup_frees ha) (hs.nodup_frees ha)
  · have hfree := List.mem_of_mem_erase hm
    refine ⟨?_, (hs.listed a hfree).2⟩
    have hne : a ≠ n := fun he => (hs.nodup.mem_erase_iff.mp (he ▸ hm)).1 rfl
    have hin := (hs.listed a hfree).1
    simp only [List.mem_append, List.mem_cons] at hin ⊢
    tauto
  · rw [hs.flags a (hmem hm).1 hl]
    congr 2
    rw [hs.nodup.mem_erase_iff]
    simp [(hmem hm).2]
  · have hsp := hs.spaced
    rw [spaced_split hxfree] at hsp
    rw [spaced_split fun hx => hxfree (List.mem_of_mem_erase hx)]
    refine ⟨hsp.1.mono fun a _ hm => List.mem_of_mem_erase hm, ?_⟩
    exact Spaced.mono (List.IsChain.tail hsp.2) fun a _ hm => List.mem_of_mem_erase hm
  · obtain ⟨z, hz, hfree⟩ := hs.last
    rw [getLast_append_cons] at hz ⊢
    refine ⟨_, rfl, ?_⟩
    cases r with
    | nil => exact .inr rfl
    | cons y r =>
      have hzy : (n :: y :: r).getLastD x = (y :: r).getLastD x := by simp
      rw [hzy] at hz
      have hze := Option.some.inj hz
      have hzin : z ∈ l ++ x :: y :: r := by
        have hmem := getLastD_mem y r x
        rw [hze] at hmem
        simp only [List.mem_append, List.mem_cons] at hmem ⊢
        tauto
      rw [hze, hs.nodup.mem_erase_iff]
      exact hfree.imp (fun hf => ⟨(hmem hzin).2, hf⟩) id

/-- The loose block `x` is joined to the free block `p` before it.
kernel/nd_memheap.c:91-94 -/
theorem Shape.join {p : ℕ} (hs : Shape cfg d heap start size h (l ++ p :: x :: r) frees (some x))
    (ha : HeapArea cfg d heap start size) (hp : p ∈ frees) (hnext : ∀ y ∈ r.head?, y ∉ frees)
      (v : ℕ) :
    Shape cfg d heap start size
      { h with phys := h.phys.remove x, used := update h.used p false, avail := v } (l ++ p :: r)
      frees none := by
  obtain ⟨hlaid, hphys⟩ := hs.takeOut ha
  obtain ⟨hheap, hend, -⟩ := hs.laid.ends_notMem ha
  have hpin := (hs.listed p hp).1
  have hmem := fun {a : ℕ} (hm : a ∈ l ++ p :: r) => mem_takeOut hs.laid.nodup hm
  refine
    { laid := hlaid, phys := hphys, free := hs.free, nodup := hs.nodup, listed := fun a hm => ?_,
      flags := fun a hm _ => ?_, ends := ?_, owner := fun a hm => hs.owner a (hmem hm).1,
      spaced := ?_, last := ?_ }
  · obtain ⟨hin, hl⟩ := hs.listed a hm
    refine ⟨?_, by simp⟩
    have hne : a ≠ x := fun he => hl (he ▸ rfl)
    simp only [List.mem_append, List.mem_cons] at hin ⊢
    tauto
  · by_cases hap : a = p
    · subst hap
      simp [hp]
    · show update h.used p false a = _
      rw [Function.update_of_ne hap]
      exact hs.flags a (hmem hm).1 (by simpa using (hmem hm).2.symm)
  · have hp₁ : heap ≠ p := fun he => hheap (he ▸ hpin)
    have hp₂ : endItem cfg heap ≠ p := fun he => hend (he ▸ hpin)
    show update h.used p false heap = true ∧ update h.used p false (endItem cfg heap) = true
    rw [Function.update_of_ne hp₁, Function.update_of_ne hp₂]
    exact hs.ends
  · have hsp := hs.spaced
    have hassoc : l ++ p :: x :: r = (l ++ [p]) ++ x :: r := by simp
    have hassoc' : l ++ p :: r = (l ++ [p]) ++ r := by simp
    rw [hassoc] at hsp
    have hleft : Spaced frees (l ++ [p]) := List.IsChain.left_of_append hsp
    have hright : Spaced frees r := List.IsChain.tail (List.IsChain.right_of_append hsp)
    rw [hassoc']
    refine List.IsChain.append hleft hright fun y hy z hz hfree => ?_
    exact hnext z hz hfree.2
  · obtain ⟨z, hz, hfree⟩ := hs.last
    rw [getLast_append_cons] at hz ⊢
    refine ⟨_, rfl, .inl ?_⟩
    cases r with
    | nil => exact hp
    | cons y r =>
      have hze : (y :: r).getLastD p = z := by simpa using hz
      have hzin : z ∈ l ++ p :: y :: r := by
        have hmem := getLastD_mem y r p
        rw [hze] at hmem
        simp only [List.mem_append, List.mem_cons] at hmem ⊢
        tauto
      rw [hze]
      refine hfree.resolve_right ?_
      rintro ⟨⟩
      exact (hmem hzin).2 rfl

/-- The loose block `x` becomes the first of the free list.
kernel/nd_memheap.c:95-99 -/
theorem Shape.release (hs : Shape cfg d heap start size h (l ++ x :: r) frees (some x))
    (ha : HeapArea cfg d heap start size) (hprev : ∀ y ∈ l.getLast?, y ∉ frees)
    (hnext : ∀ y ∈ r.head?, y ∉ frees) (v : ℕ) :
    Shape cfg d heap start size
      { h with free := h.free.insertAfter heap x, used := update h.used x false, avail := v }
      (l ++ x :: r) (x :: frees) none := by
  have hnd := hs.laid.nodup
  obtain ⟨hheap, hend, -⟩ := hs.laid.ends_notMem ha
  have hxfree : x ∉ frees := fun hx => (hs.listed x hx).2 rfl
  have hx₁ : heap ≠ x := fun he => hheap (he ▸ by simp)
  have hx₂ : endItem cfg heap ≠ x := fun he => hend (he ▸ by simp)
  have hnotx : ∀ {a : ℕ}, a ∈ l ∨ a ∈ r → a ≠ x := by
    rintro a hm rfl
    simp only [List.nodup_append, List.nodup_cons, List.mem_cons] at hnd
    rcases hm with hl | hr
    · exact hnd.2.2 a hl a (.inl rfl) rfl
    · exact hnd.2.1.1 hr
  refine
    { laid := hs.laid, phys := hs.phys, free := ?_, nodup := List.nodup_cons.mpr ⟨hxfree, hs.nodup⟩,
      listed := fun a hm => ⟨?_, by simp⟩, flags := fun a hm _ => ?_, ends := ?_, owner := hs.owner,
      spaced := ?_, last := ?_ }
  · refine hs.free.insert_head (hs.nodup_frees ha) (hs.nodup_frees ha) hx₁.symm ?_
    simp only [List.mem_cons, not_or]
    exact ⟨hx₁.symm, hxfree⟩
  · rcases List.mem_cons.mp hm with rfl | hm
    · simp
    · exact (hs.listed a hm).1
  · by_cases hax : a = x
    · subst hax
      simp
    · show update h.used x false a = _
      rw [Function.update_of_ne hax, hs.flags a hm (by simpa using Ne.symm hax)]
      simp [hax]
  · show update h.used x false heap = true ∧ update h.used x false (endItem cfg heap) = true
    rw [Function.update_of_ne hx₁, Function.update_of_ne hx₂]
    exact hs.ends
  · refine hs.spaced.free (fun a _ hax hm => ?_) hnd (fun y hy hm => ?_) fun y hy hm => ?_
    · exact (List.mem_cons.mp hm).resolve_left hax
    · rcases List.mem_cons.mp hm with rfl | hm
      · exact hnotx (.inl (List.mem_of_getLast? hy)) rfl
      · exact hprev y hy hm
    · rcases List.mem_cons.mp hm with rfl | hm
      · exact hnotx (.inr (List.mem_of_head? hy)) rfl
      · exact hnext y hy hm
  · obtain ⟨z, hz, hfree⟩ := hs.last
    refine ⟨z, hz, .inl (hfree.elim (List.mem_cons_of_mem x) ?_)⟩
    rintro ⟨⟩
    simp

/-- A new loose header in the rest of the used block `x`.
kernel/nd_memheap.c:35-49 -/
theorem Shape.insert (hs : Shape cfg d heap start size h (l ++ x :: r) frees (some x))
    (ha : HeapArea cfg d heap start size) (hu : h.used x = true)
    (hl : Laid cfg d start size (l ++ x :: n :: r)) :
    Shape cfg d heap start size
      { h with
        phys := h.phys.insertAfter x n
        used := update h.used n false
        pool := update h.pool n heap
        magic := update h.magic n true } (l ++ x :: n :: r) frees (some n) := by
  have hnd := hl.nodup
  obtain ⟨hn₁, hn₂⟩ := hs.laid.nodup_ends ha
  obtain ⟨hheap, hend, -⟩ := hl.ends_notMem ha
  have hxfree : x ∉ frees := fun hx => (hs.listed x hx).2 rfl
  have hnout : n ∉ l ++ x :: r := hl.notMem_insert
  have hnfree : n ∉ frees := fun hm => hnout (hs.listed n hm).1
  have hn₃ : heap ≠ n := fun he => hheap (he ▸ by simp)
  have hn₄ : endItem cfg heap ≠ n := fun he => hend (he ▸ by simp)
  have hold : ∀ {a : ℕ}, a ∈ l ++ x :: n :: r → a ≠ n → a ∈ l ++ x :: r := by
    intro a hm hne
    simp only [List.mem_append, List.mem_cons] at hm ⊢
    tauto
  refine
    { laid := hl, phys := ?_, free := hs.free, nodup := hs.nodup, listed := fun a hm => ⟨?_, ?_⟩,
      flags := fun a hm hne => ?_, ends := ?_, owner := fun a hm => ?_, spaced := ?_, last := ?_ }
  · refine hs.phys.insert hn₁ hn₂ ?_ hn₄.symm
    simp only [List.mem_cons, not_or]
    exact ⟨hn₃.symm, hnout⟩
  · have hin := (hs.listed a hm).1
    simp only [List.mem_append, List.mem_cons] at hin ⊢
    tauto
  · rintro ⟨⟩
    exact hnfree hm
  · have hne' : a ≠ n := fun he => hne (he ▸ rfl)
    show update h.used n false a = _
    rw [Function.update_of_ne hne']
    by_cases hax : a = x
    · subst hax
      simp [hu, hxfree]
    · exact hs.flags a (hold hm hne') (by simpa using Ne.symm hax)
  · show update h.used n false heap = true ∧ update h.used n false (endItem cfg heap) = true
    rw [Function.update_of_ne hn₃, Function.update_of_ne hn₄]
    exact hs.ends
  · show update h.pool n heap a = heap ∧ update h.magic n true a = true
    by_cases han : a = n
    · subst han
      simp
    · rw [Function.update_of_ne han, Function.update_of_ne han]
      exact hs.owner a (hold hm han)
  · have hsp := (spaced_split hxfree).mp hs.spaced
    have hassoc : l ++ x :: n :: r = (l ++ [x]) ++ n :: r := by simp
    rw [hassoc, spaced_split hnfree, spaced_split hxfree]
    exact ⟨⟨hsp.1, List.isChain_nil⟩, hsp.2⟩
  · obtain ⟨z, hz, hfree⟩ := hs.last
    rw [getLast_append_cons] at hz ⊢
    refine ⟨_, rfl, ?_⟩
    cases r with
    | nil => exact .inr rfl
    | cons y r =>
      have hze : (n :: y :: r).getLastD x = z := by simpa using hz
      rw [hze]
      refine .inl (hfree.resolve_right ?_)
      rintro ⟨⟩
      have hmem : x ∈ y :: r := by
        have hin := getLastD_mem y r x
        rw [Option.some.inj hz] at hin
        exact hin
      simp only [List.nodup_append, List.nodup_cons, List.mem_cons, not_or] at hnd
      rcases List.mem_cons.mp hmem with he | hm
      · exact hnd.2.1.1.2.1 he
      · exact hnd.2.1.1.2.2 hm

/-- The free block `x` is handed out whole.
kernel/nd_memheap.c:129-135 -/
theorem Shape.takeWhole {f g : List ℕ}
    (hs : Shape cfg d heap start size h (l ++ x :: r) (f ++ x :: g) none)
    (ha : HeapArea cfg d heap start size) (hr : r ≠ []) (v : ℕ) :
    Shape cfg d heap start size
      { h with free := h.free.remove x, used := update h.used x true, avail := v } (l ++ x :: r)
      (f ++ g) none := by
  have hmem : ∀ {a : ℕ}, a ∈ f ++ g ↔ a ∈ f ++ x :: g ∧ a ≠ x := mem_middle hs.nodup
  refine
    { laid := hs.laid, phys := hs.phys, free := ?_, nodup := ?_,
      listed := fun a hm => ⟨(hs.listed a (hmem.mp hm).1).1, by simp⟩, flags := fun a hm _ => ?_,
      ends := ?_, owner := hs.owner, spaced := ?_, last := ?_ }
  · exact hs.free.remove (hs.nodup_frees ha) (hs.nodup_frees ha)
  · exact hs.nodup.sublist ((List.sublist_cons_self x g).append_left f)
  · by_cases hax : a = x
    · subst hax
      simp [hmem.not.mpr fun hm => hm.2 rfl]
    · show update h.used x true a = _
      rw [Function.update_of_ne hax, hs.flags a hm (by simp)]
      congr 2
      simp [hmem, hax]
  · have hset : ∀ a, h.used a = true → update h.used x true a = true := by
      intro a hu
      by_cases hax : a = x
      · simp [hax]
      · rw [Function.update_of_ne hax]
        exact hu
    exact ⟨hset _ hs.ends.1, hset _ hs.ends.2⟩
  · exact hs.spaced.mono fun a _ hm => (hmem.mp hm).1
  · obtain ⟨z, hz, hfree⟩ := hs.last
    refine ⟨z, hz, .inl (hmem.mpr ⟨hfree.resolve_right (by simp), ?_⟩)⟩
    rintro rfl
    rw [getLast_append_cons] at hz
    cases r with
    | nil => exact hr rfl
    | cons y r =>
      have hin := getLastD_mem y r z
      rw [Option.some.inj hz] at hin
      have hnd := hs.laid.nodup
      simp only [List.nodup_append, List.nodup_cons] at hnd
      exact hnd.2.1.1 hin

/-- The front of the free block `x` is handed out, and a new header starts the rest of it.
kernel/nd_memheap.c:120-135 -/
theorem Shape.takeSplit {f g : List ℕ}
    (hs : Shape cfg d heap start size h (l ++ x :: r) (f ++ x :: g) none)
    (ha : HeapArea cfg d heap start size) (hl : Laid cfg d start size (l ++ x :: n :: r)) (v : ℕ) :
    Shape cfg d heap start size
      { h with
        phys := h.phys.insertAfter x n
        free := h.free.replace x n
        used := update (update h.used n false) x true
        pool := update h.pool n heap
        magic := update h.magic n true
        avail := v } (l ++ x :: n :: r) (f ++ n :: g) none := by
  have hnd := hl.nodup
  obtain ⟨hn₁, hn₂⟩ := hs.laid.nodup_ends ha
  obtain ⟨hheap, hend, -⟩ := hl.ends_notMem ha
  have hnx : n ≠ x := by
    intro he
    simp only [List.nodup_append, List.nodup_cons, List.mem_cons, not_or] at hnd
    exact hnd.2.1.1.1 he.symm
  have hnout : n ∉ l ++ x :: r := hl.notMem_insert
  have hnfree : n ∉ f ++ x :: g := fun hm => hnout (hs.listed n hm).1
  have hn₃ : heap ≠ n := fun he => hheap (he ▸ by simp)
  have hn₄ : endItem cfg heap ≠ n := fun he => hend (he ▸ by simp)
  have hx₃ : heap ≠ x := fun he => hheap (he ▸ by simp)
  have hx₄ : endItem cfg heap ≠ x := fun he => hend (he ▸ by simp)
  have hmem : ∀ {a : ℕ}, a ∈ f ++ n :: g ↔ a = n ∨ a ∈ f ++ x :: g ∧ a ≠ x := by
    intro a
    rw [← mem_middle hs.nodup]
    simp only [List.mem_append, List.mem_cons]
    tauto
  have hold : ∀ {a : ℕ}, a ∈ l ++ x :: n :: r → a ≠ n → a ∈ l ++ x :: r := by
    intro a hm hne
    simp only [List.mem_append, List.mem_cons] at hm ⊢
    tauto
  have hxfree : x ∉ f ++ n :: g := fun hm => (hmem.mp hm).elim (fun he => hnx he.symm) fun hm =>
    hm.2 rfl
  refine
    { laid := hl, phys := ?_, free := ?_, nodup := ?_, listed := fun a hm => ⟨?_, by simp⟩,
      flags := fun a hm _ => ?_, ends := ?_, owner := fun a hm => ?_, spaced := ?_, last := ?_ }
  · refine hs.phys.insert hn₁ hn₂ ?_ hn₄.symm
    simp only [List.mem_cons, not_or]
    exact ⟨hn₃.symm, hnout⟩
  · refine hs.free.replace (hs.nodup_frees ha) (hs.nodup_frees ha) ?_ hn₃.symm
    simp only [List.mem_cons, not_or]
    exact ⟨hn₃.symm, hnfree⟩
  · have hsub := hs.nodup.sublist ((List.sublist_cons_self x g).append_left f)
    refine List.perm_middle.nodup_iff.mpr (List.nodup_cons.mpr ⟨fun hm => ?_, hsub⟩)
    exact hnfree ((mem_middle hs.nodup).mp hm).1
  · rcases hmem.mp hm with rfl | ⟨hm, -⟩
    · simp
    · have hin := (hs.listed a hm).1
      simp only [List.mem_append, List.mem_cons] at hin ⊢
      tauto
  · show update (update h.used n false) x true a = _
    by_cases hax : a = x
    · subst hax
      simp [hxfree]
    · rw [Function.update_of_ne hax]
      by_cases han : a = n
      · subst han
        simp
      · rw [Function.update_of_ne han, hs.flags a (hold hm han) (by simp)]
        congr 2
        simp [hmem, hax, han]
  · show update (update h.used n false) x true heap = true ∧
      update (update h.used n false) x true (endItem cfg heap) = true
    rw [Function.update_of_ne hx₃, Function.update_of_ne hx₄, Function.update_of_ne hn₃,
      Function.update_of_ne hn₄]
    exact hs.ends
  · show update h.pool n heap a = heap ∧ update h.magic n true a = true
    by_cases han : a = n
    · subst han
      simp
    · rw [Function.update_of_ne han, Function.update_of_ne han]
      exact hs.owner a (hold hm han)
  · have hnext := hs.spaced.next_used (x := x) (by simp)
    have hleft : Spaced (f ++ n :: g) l := by
      refine Spaced.mono (List.IsChain.left_of_append hs.spaced) fun a hm hfree => ?_
      refine (hmem.mp hfree).elim (fun he => absurd (he ▸ hm) fun hm =>
        hnout (by simp [hm])) And.left
    have hright : Spaced (f ++ n :: g) r := by
      refine Spaced.mono (List.IsChain.tail (List.IsChain.right_of_append hs.spaced))
        fun a hm hfree => ?_
      have hm' : a ∈ r := hm
      exact (hmem.mp hfree).elim (fun he => absurd (he ▸ hm') fun hm =>
        hnout (by simp [hm])) And.left
    refine (spaced_split hxfree).mpr ⟨hleft, List.isChain_cons.mpr ⟨fun y hy hfree => ?_, hright⟩⟩
    refine (hmem.mp hfree.2).elim (fun he => ?_) fun hm => hnext y hy hm.1
    exact hnout (by simp [← he, List.mem_of_head? hy])
  · obtain ⟨z, hz, hfree⟩ := hs.last
    rw [getLast_append_cons] at hz ⊢
    refine ⟨_, rfl, .inl (hmem.mpr ?_)⟩
    cases r with
    | nil => exact .inl rfl
    | cons y r =>
      have hze : (n :: y :: r).getLastD x = z := by simpa using hz
      refine .inr ?_
      rw [hze]
      refine ⟨hfree.resolve_right (by simp), ?_⟩
      rintro rfl
      have hin := getLastD_mem y r z
      rw [Option.some.inj hz] at hin
      simp only [List.nodup_append, List.nodup_cons, List.mem_cons, not_or] at hnd
      rcases List.mem_cons.mp hin with he | hm
      · exact hnd.2.1.1.2.1 he
      · exact hnd.2.1.1.2.2 hm

end NerdRtos
