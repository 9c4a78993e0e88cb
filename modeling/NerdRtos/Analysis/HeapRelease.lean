import NerdRtos.Analysis.HeapShape
import Mathlib.Data.ZMod.Basic
import Mathlib.Tactic.Ring

/-!
# Release on the heap

What `memheap_coalesce` does to the headers and to the two lists. `balance` is the difference
between `available_size` and what the free blocks hold, on words of 32 bits.
-/

set_option autoImplicit false

namespace NerdRtos

open Bytes (Mem Apart)
open Function (update)

variable {cfg : Config} {d heap start size : ℕ} {h h' : Headers} {items frees l r : List ℕ}
  {loose : Option ℕ} {x n : ℕ} {m m' : Mem} {bs : List ℕ}

/-! ## The headers in memory -/

/-- All that the bytes say about headers. -/
def heapView (cfg : Config) (heap : ℕ) (m : Mem) : Headers where
  phys := { next := fun x => itemNext cfg x m, prev := fun x => ItemField.prev.get cfg x m }
  free :=
    { next := fun x => ItemField.nextFree.get cfg x m
      prev := fun x => ItemField.prevFree.get cfg x m }
  used := fun x => itemIsUsed cfg x m
  pool := fun x => ItemField.pool.get cfg x m
  magic := fun x => hasMagic cfg x m
  avail := availableSize cfg heap m
  rest := m

/-- The headers of a heap are what the bytes say. -/
theorem shape_headers_iff (hbs : ∀ a ∈ heap :: endItem cfg heap :: items, a ∈ bs) :
    Shape cfg d heap start size (headers cfg heap bs m) items frees loose ↔
      Shape cfg d heap start size (heapView cfg heap m) items frees loose := by
  constructor
  · refine fun hs => hs.congr fun a ha => ?_
    simp [headers, heapView, hbs a ha]
  · refine fun hs => hs.congr fun a ha => ?_
    simp [headers, heapView, hbs a ha]

/-! ## What the free blocks hold -/

/-- The bytes that the block of header `a` holds, as a word. -/
def Headers.room (cfg : Config) (h : Headers) (a : ℕ) : ZMod (2 ^ 32) :=
  (h.phys.next a : ZMod (2 ^ 32)) - a - itemSize cfg

/-- The difference between the free bytes that are counted and those that the blocks `frees`
hold. -/
def Headers.balance (cfg : Config) (h : Headers) (frees : List ℕ) : ZMod (2 ^ 32) :=
  (h.avail : ZMod (2 ^ 32)) - (frees.map (h.room cfg)).sum

/-- Arithmetic of words: reduction. -/
theorem cast_u32 (a : ℕ) : ((u32 a : ℕ) : ZMod (2 ^ 32)) = a := by
  simp [u32]

/-- Arithmetic of words: subtraction. -/
theorem cast_u32Sub (a b : ℕ) : ((u32Sub a b : ℕ) : ZMod (2 ^ 32)) = (a : ZMod (2 ^ 32)) - b := by
  have hle : b % 2 ^ 32 ≤ a + 2 ^ 32 := by
    have := Nat.mod_lt b (show 0 < 2 ^ 32 by decide)
    omega
  unfold u32Sub
  rw [ZMod.natCast_mod, Nat.cast_sub hle, ZMod.natCast_mod, Nat.cast_add]
  have hzero : ((2 ^ 32 : ℕ) : ZMod (2 ^ 32)) = 0 := ZMod.natCast_self _
  rw [hzero, add_zero]

/-- The capacity that `item_data_size` computes, in the arithmetic of words. -/
theorem cast_itemDataSize (cfg : Config) (heap a : ℕ) (m : Mem) :
    ((itemDataSize cfg a m : ℕ) : ZMod (2 ^ 32)) = (heapView cfg heap m).room cfg a := by
  unfold itemDataSize Headers.room
  rw [cast_u32Sub, cast_u32Sub]
  rfl

/-- The blocks hold the same when their ends are the same. -/
theorem sum_room_congr (hc : ∀ a ∈ frees, h'.phys.next a = h.phys.next a) :
    (frees.map (h'.room cfg)).sum = (frees.map (h.room cfg)).sum := by
  congr 1
  refine List.map_congr_left fun a ha => ?_
  unfold Headers.room
  rw [hc a ha]

/-- The balance does not depend on the order of the free blocks. -/
theorem balance_perm {frees' : List ℕ} (hp : frees.Perm frees') :
    h.balance cfg frees = h.balance cfg frees' := by
  unfold Headers.balance
  rw [(hp.map _).sum_eq]

/-- The balance depends on the count and on the capacities of the free blocks. -/
theorem balance_congr (ha : h'.avail = h.avail) (hc : ∀ a ∈ frees, h'.phys.next a = h.phys.next a) :
    h'.balance cfg frees = h.balance cfg frees := by
  unfold Headers.balance
  rw [ha, sum_room_congr hc]

/-- A block is counted when it becomes free. -/
theorem balance_count {v : ℕ} (hv : (v : ZMod (2 ^ 32)) = h.room cfg x) :
    ({ h with avail := u32 (h.avail + v) } : Headers).balance cfg (x :: frees) =
      h.balance cfg frees := by
  unfold Headers.balance
  rw [List.map_cons, List.sum_cons, cast_u32, Nat.cast_add, hv]
  show h.avail + h.room cfg x - (h.room cfg x + (frees.map (h.room cfg)).sum) = _
  ring

/-- A block is no longer counted when it is handed out whole. -/
theorem balance_uncount {v : ℕ} (hv : (v : ZMod (2 ^ 32)) = h.room cfg x)
    (ha : h'.avail = u32Sub h.avail v) (hc : ∀ a ∈ frees, h'.phys.next a = h.phys.next a) :
    h'.balance cfg frees = h.balance cfg (x :: frees) := by
  unfold Headers.balance
  rw [List.map_cons, List.sum_cons, ha, cast_u32Sub, hv, sum_room_congr hc]
  ring

/-- The block `z` behind the block `y` is joined to it, and the header of `z` becomes free bytes. -/
theorem balance_merge {y z : ℕ} {rest : List ℕ} (hz : h.phys.next y = z)
    (hy : h'.phys.next y = h.phys.next z) (hc : ∀ a ∈ rest, h'.phys.next a = h.phys.next a)
    (ha : h'.avail = u32 (h.avail + itemSize cfg)) :
    h'.balance cfg (y :: rest) = h.balance cfg (z :: y :: rest) := by
  unfold Headers.balance
  simp only [List.map_cons, List.sum_cons]
  rw [sum_room_congr hc, ha, cast_u32, Nat.cast_add]
  unfold Headers.room
  rw [hy, hz]
  ring

/-- The front of the block `x` is handed out, and the header of the rest, `n`, takes free bytes. -/
theorem balance_cut {v : ℕ} {rest : List ℕ} (hn : n = x + itemSize cfg + v)
    (hnext : h'.phys.next n = h.phys.next x)
    (hc : ∀ a ∈ rest, h'.phys.next a = h.phys.next a)
    (ha : h'.avail = u32Sub h.avail (u32 (v + itemSize cfg))) :
    h'.balance cfg (n :: rest) = h.balance cfg (x :: rest) := by
  have hcast : (n : ZMod (2 ^ 32)) = x + itemSize cfg + v := by
    rw [hn, Nat.cast_add, Nat.cast_add]
  unfold Headers.balance
  simp only [List.map_cons, List.sum_cons]
  rw [sum_room_congr hc, ha, cast_u32Sub, cast_u32, Nat.cast_add]
  unfold Headers.room
  rw [hnext, hcast]
  ring

/-! ## Neighbours -/

/-- What lies behind a block. -/
theorem Shape.next_eq (hs : Shape cfg d heap start size h (l ++ x :: r) frees loose) :
    h.phys.next x = r.head?.getD (endItem cfg heap) := by
  have hseg := (Links.seg_append.mp hs.phys).2
  cases r with
  | nil => exact hseg.1
  | cons y r => exact hseg.1

/-- What lies before a block. -/
theorem Shape.prev_eq (hs : Shape cfg d heap start size h (l ++ x :: r) frees loose) :
    h.phys.prev x = l.getLast?.getD heap := by
  have hseg := (Links.seg_append.mp hs.phys).1
  rcases List.eq_nil_or_concat l with rfl | ⟨l, y, rfl⟩
  · exact hseg.2
  · rw [List.concat_eq_append] at hseg ⊢
    rw [(Links.seg_append.mp hseg).2.2]
    simp

/-- A header says that it is free when it is on the free list. -/
theorem Shape.used_iff {a : ℕ} (hs : Shape cfg d heap start size h items frees loose)
    (ha : HeapArea cfg d heap start size) (hm : a ∈ heap :: endItem cfg heap :: items)
    (hl : loose ≠ some a) : h.used a = false ↔ a ∈ frees := by
  obtain ⟨hheap, hend, -⟩ := hs.laid.ends_notMem ha
  rcases List.mem_cons.mp hm with rfl | hm
  · rw [hs.ends.1]
    simpa using fun hf => hheap (hs.listed a hf).1
  rcases List.mem_cons.mp hm with rfl | hm
  · rw [hs.ends.2]
    simpa using fun hf => hend (hs.listed _ hf).1
  · rw [hs.flags a hm hl]
    simp

/-- The used blocks other than `x` are as they were. -/
structure Others (x : ℕ) (h : Headers) (items frees : List ℕ) (h' : Headers)
    (items' frees' : List ℕ) : Prop where
  used : ∀ a, a ≠ x → (a ∈ items' ∧ a ∉ frees' ↔ a ∈ items ∧ a ∉ frees)
  next : ∀ a, a ≠ x → a ∈ items → a ∉ frees → h'.phys.next a = h.phys.next a

/-- The used blocks stay as they were over two changes. -/
theorem Others.trans {h₁ h₂ h₃ : Headers} {items₁ items₂ items₃ frees₁ frees₂ frees₃ : List ℕ}
    (h₁₂ : Others x h₁ items₁ frees₁ h₂ items₂ frees₂)
      (h₂₃ : Others x h₂ items₂ frees₂ h₃ items₃ frees₃) :
    Others x h₁ items₁ frees₁ h₃ items₃ frees₃ := by
  refine ⟨fun a ha => (h₂₃.used a ha).trans (h₁₂.used a ha), fun a ha hm hf => ?_⟩
  obtain ⟨hm₂, hf₂⟩ := (h₁₂.used a ha).mpr ⟨hm, hf⟩
  rw [h₂₃.next a ha hm₂ hf₂, h₁₂.next a ha hm hf]

/-- What is said of headers is said of the bytes. -/
theorem Others.view {items' frees' : List ℕ}
    (ho : Others x (headers cfg heap bs m) items frees (headers cfg heap bs m') items' frees')
    (hbs : ∀ a ∈ items, a ∈ bs) :
    Others x (heapView cfg heap m) items frees (heapView cfg heap m') items' frees' := by
  refine ⟨ho.used, fun a ha hm hf => ?_⟩
  have h := ho.next a ha hm hf
  rw [headers_next (hbs a hm), headers_next (hbs a hm)] at h
  exact h

/-- The balance of the headers is that of the whole memory. -/
theorem Shape.balance_view (hs : Shape cfg d heap start size h items frees loose)
    (hbs : ∀ a ∈ heap :: endItem cfg heap :: items, a ∈ bs) :
    (headers cfg heap bs m).balance cfg frees = (heapView cfg heap m).balance cfg frees :=
  balance_congr rfl fun a hm => headers_next (hbs a (by simp [(hs.listed a hm).1]))

/-! ## Release -/

section Release

variable (hb : Bases cfg heap bs) (ha : HeapArea cfg d heap start size)

include hb

/-- Adding to the count of free bytes, as the headers see it. -/
theorem Bases.headers_addAvailable (v : ℕ) : headers cfg heap bs (addAvailable cfg heap v m) =
    { headers cfg heap bs m with avail := u32 ((headers cfg heap bs m).avail + v) } :=
  hb.headers_avail (Nat.mod_lt _ (by decide))

/-- Subtracting from the count of free bytes, as the headers see it. -/
theorem Bases.headers_subAvailable (v : ℕ) : headers cfg heap bs (subAvailable cfg heap v m) =
    { headers cfg heap bs m with avail := u32Sub (headers cfg heap bs m).avail v } :=
  hb.headers_avail (Nat.mod_lt _ (by decide))

omit hb in
/-- Both lists lead from header to header. -/
theorem Shape.around_bs {a : ℕ}
    (hs : Shape cfg d heap start size (headers cfg heap bs m) items frees loose)
    (hbs : ∀ a ∈ heap :: endItem cfg heap :: items, a ∈ bs) (hm : a ∈ items) :
    a ∈ bs ∧ itemNext cfg a m ∈ bs ∧ ItemField.prev.get cfg a m ∈ bs := by
  have habs : a ∈ bs := hbs a (by simp [hm])
  have hnext := hs.phys.next_mem (x := a) (by simp [hm])
  have hprev := hs.phys.prev_mem (x := a) (by simp [hm])
  rw [headers_next habs] at hnext
  rw [headers_prev habs] at hprev
  refine ⟨habs, hbs _ ?_, hbs _ ?_⟩
  · simp only [List.mem_cons] at hnext ⊢
    tauto
  · simp only [List.mem_cons] at hprev ⊢
    tauto

omit hb in
/-- The neighbours of a block on the free list are blocks. -/
theorem Shape.aroundFree_bs {a : ℕ}
    (hs : Shape cfg d heap start size (headers cfg heap bs m) items frees loose)
    (hbs : ∀ a ∈ heap :: endItem cfg heap :: items, a ∈ bs) (hm : a ∈ heap :: frees) :
    a ∈ bs ∧ ItemField.nextFree.get cfg a m ∈ bs ∧ ItemField.prevFree.get cfg a m ∈ bs := by
  have hfrees : ∀ a ∈ heap :: frees, a ∈ bs := by
    intro a hm
    rcases List.mem_cons.mp hm with rfl | hm
    · exact hbs _ (by simp)
    · exact hbs a (by simp [(hs.listed a hm).1])
  have hnext := hs.free.next_mem hm
  have hprev := hs.free.prev_mem hm
  rw [headers_nextFree (hfrees a hm)] at hnext
  rw [headers_prevFree (hfrees a hm)] at hprev
  exact ⟨hfrees a hm, hfrees _ hnext, hfrees _ hprev⟩

/-- A free block is taken off both lists. -/
theorem Bases.headers_unlink (hs : Shape cfg d heap start size (headers cfg heap bs m) items frees
    loose) (hbs : ∀ a ∈ heap :: endItem cfg heap :: items, a ∈ bs) (hn : n ∈ frees) :
    headers cfg heap bs (physListRemove cfg n (freeListRemove cfg n m)) =
      let h := headers cfg heap bs m
      { h with phys := h.phys.remove n, free := h.free.remove n } := by
  obtain ⟨hnbs, hnext, hprev⟩ := hs.around_bs hbs (hs.listed n hn).1
  obtain ⟨-, hnextFree, hprevFree⟩ := hs.aroundFree_bs hbs (List.mem_cons_of_mem heap hn)
  have hfree := hb.headers_freeRemove (m := m) hnbs hnextFree hprevFree
  have hnext' : itemNext cfg n (freeListRemove cfg n m) ∈ bs := by
    rw [← headers_next hnbs, hfree]
    simpa [hnbs] using hnext
  have hprev' : ItemField.prev.get cfg n (freeListRemove cfg n m) ∈ bs := by
    rw [← headers_prev hnbs, hfree]
    simpa [hnbs] using hprev
  rw [hb.headers_physRemove hnbs hnext' hprev', hfree]

omit hb in
/-- What the test of `ITEM_IS_FREE` finds. -/
theorem Shape.isFree_iff {a : ℕ}
    (hs : Shape cfg d heap start size (headers cfg heap bs m) items frees loose)
    (ha : HeapArea cfg d heap start size) (hbs : ∀ a ∈ heap :: endItem cfg heap :: items, a ∈ bs)
    (hm : a ∈ heap :: endItem cfg heap :: items) (hl : loose ≠ some a) :
    itemIsFree cfg a m = true ↔ a ∈ frees := by
  rw [← hs.used_iff ha hm hl, headers_used (hbs a hm), itemIsFree, Bool.not_eq_true']

/-- The first half of `memheap_coalesce`: the block behind `item` is joined to it when it is
free. -/
def coalesceNext (cfg : Config) (heap item : ℕ) (m : Mem) : Mem :=
  let nextItem := itemNext cfg item m
  if itemIsFree cfg nextItem m then
    addAvailable cfg heap (itemSize cfg)
      (physListRemove cfg nextItem (freeListRemove cfg nextItem m))
  else m

/-- The second half: `item` is joined to the block before it, or put on the free list. -/
def coalescePrev (cfg : Config) (heap item : ℕ) (m : Mem) : Mem :=
  if itemIsFree cfg (ItemField.prev.get cfg item m) m then
    let m := addAvailable cfg heap (itemSize cfg) (physListRemove cfg item m)
    itemSetFree cfg (ItemField.prev.get cfg item m) m
  else itemSetFree cfg item (freeListInsertAfter cfg (startItem heap) item m)

omit hb in
/-- `memheap_coalesce` merges with the next block and then with the one before. -/
theorem memheapCoalesce_eq (item : ℕ) : memheapCoalesce cfg heap item m =
    coalescePrev cfg heap item
      (coalesceNext cfg heap item (addAvailable cfg heap (itemDataSize cfg item m) m)) := rfl

/-- The first half of `memheap_coalesce`.
kernel/nd_memheap.c:83-89 -/
theorem Bases.coalesceNext
    (hs : Shape cfg d heap start size (headers cfg heap bs m) (l ++ x :: r) frees (some x))
    (ha : HeapArea cfg d heap start size)
    (hbs : ∀ a ∈ heap :: endItem cfg heap :: (l ++ x :: r), a ∈ bs) :
    ∃ r' frees',
      Shape cfg d heap start size (headers cfg heap bs (NerdRtos.coalesceNext cfg heap x m))
        (l ++ x :: r') frees' (some x) ∧
      (∀ y ∈ r'.head?, y ∉ frees') ∧
      Others x (headers cfg heap bs m) (l ++ x :: r) frees
        (headers cfg heap bs (NerdRtos.coalesceNext cfg heap x m)) (l ++ x :: r') frees' ∧
      (∀ a ∈ l ++ x :: r', a ∈ l ++ x :: r) ∧
      (headers cfg heap bs (NerdRtos.coalesceNext cfg heap x m)).rest =
        (headers cfg heap bs m).rest ∧
      (headers cfg heap bs (NerdRtos.coalesceNext cfg heap x m)).balance cfg (x :: frees') =
        (headers cfg heap bs m).balance cfg (x :: frees) := by
  have hxbs : x ∈ bs := hbs x (by simp)
  have hnd := hs.laid.nodup
  have hnext := hs.next_eq
  rw [headers_next hxbs] at hnext
  by_cases hfree : itemIsFree cfg (itemNext cfg x m) m = true
  · obtain ⟨n, r, rfl⟩ : ∃ n r', r = n :: r' := by
      cases r with
      | nil =>
        obtain ⟨-, hend, -⟩ := hs.laid.ends_notMem ha
        have hx : endItem cfg heap ≠ x := fun he => hend (he ▸ by simp)
        rw [show itemNext cfg x m = endItem cfg heap from hnext,
          hs.isFree_iff ha hbs (by simp) (by simpa using hx.symm)] at hfree
        exact absurd (hs.listed _ hfree).1 hend
      | cons n r => exact ⟨n, r, rfl⟩
    have hxn : itemNext cfg x m = n := hnext
    have hnx : n ≠ x ∧ n ∉ l ++ x :: r := by
      simp only [List.nodup_append, List.nodup_cons, List.mem_append, List.mem_cons,
        not_or] at hnd ⊢
      have hout : n ≠ x := fun he => hnd.2.1.1.1 he.symm
      exact ⟨hout, fun hl => hnd.2.2 n hl n (.inr (.inl rfl)) rfl, hout, hnd.2.1.2.1⟩
    rw [hxn] at hfree
    have hn : n ∈ frees := by
      rw [hs.isFree_iff ha hbs (by simp) (by simpa using hnx.1.symm)] at hfree
      exact hfree
    have hxfree : x ∉ frees := fun hx => (hs.listed x hx).2 rfl
    have hhead : headers cfg heap bs (NerdRtos.coalesceNext cfg heap x m) =
        let h := headers cfg heap bs m
        { h with
          phys := h.phys.remove n
          free := h.free.remove n
          avail := u32 (h.avail + itemSize cfg) } := by
      unfold NerdRtos.coalesceNext
      simp only [hxn, hfree, if_true]
      rw [hb.headers_addAvailable, hb.headers_unlink hs hbs hn]
    have hprev : (headers cfg heap bs m).phys.prev n = x := by
      have hassoc : l ++ x :: n :: r = (l ++ [x]) ++ n :: r := by simp
      have h := hs
      rw [hassoc] at h
      simpa using h.prev_eq
    have hstep : ∀ a, a ≠ x → ((headers cfg heap bs m).phys.remove n).next a =
        (headers cfg heap bs m).phys.next a := by
      intro a hax
      simp [Links.remove, hprev, hax]
    rw [hhead]
    refine ⟨r, frees.erase n, hs.absorb ha hn _, fun y hy hf => ?_,
      ⟨fun a hax => ?_, fun a hax _ _ => ?_⟩, fun a hm => ?_, rfl, ?_⟩
    · have hsp := hs.spaced
      rw [show l ++ x :: n :: r = (l ++ [x]) ++ n :: r by simp] at hsp
      exact hsp.next_used hn y hy (List.mem_of_mem_erase hf)
    · by_cases han : a = n
      · subst han
        simp [hnx.2, hn]
      · simp only [hs.nodup.mem_erase_iff, List.mem_append, List.mem_cons]
        tauto
    · exact hstep a hax
    · simp only [List.mem_append, List.mem_cons] at hm ⊢
      tauto
    · have hperm : (n :: x :: frees.erase n).Perm (x :: frees) :=
        (List.Perm.swap _ _ _).trans ((List.perm_cons_erase hn).symm.cons x)
      rw [← balance_perm hperm]
      refine balance_merge (by rw [headers_next hxbs]; exact hxn) ?_ (fun a hm => hstep a ?_) rfl
      · simp [Links.remove, hprev]
      · rintro rfl
        exact hxfree (List.mem_of_mem_erase hm)
  · have hkeep : NerdRtos.coalesceNext cfg heap x m = m := if_neg hfree
    rw [hkeep]
    refine ⟨r, frees, hs, fun y hy hf => hfree ?_, ⟨fun a _ => Iff.rfl, fun a _ _ _ => rfl⟩,
      fun a hm => hm, rfl, rfl⟩
    obtain ⟨r, rfl⟩ : ∃ r', r = y :: r' := List.head?_eq_some_iff.mp hy
    rw [show itemNext cfg x m = y from hnext, hs.isFree_iff ha hbs (by simp) (hs.listed y hf).2]
    exact hf

/-- The headers when the block before is free: it takes the place of the loose block.
kernel/nd_memheap.c:91-95 -/
theorem Bases.headers_joinPrev {p : ℕ} (hxbs : x ∈ bs) (hxnext : itemNext cfg x m ∈ bs)
    (hpbs : p ∈ bs) (hxp : ItemField.prev.get cfg x m = p)
    (hfree : itemIsFree cfg p m = true) (hnextx : (headers cfg heap bs m).phys.next x ≠ x) :
    headers cfg heap bs (NerdRtos.coalescePrev cfg heap x m) =
      let h := headers cfg heap bs m
      { h with
        phys := h.phys.remove x
        used := update h.used p false
        avail := u32 (h.avail + itemSize cfg) } := by
  have hremove := hb.headers_physRemove (m := m) hxbs hxnext (hxp ▸ hpbs)
  set m₁ := addAvailable cfg heap (itemSize cfg) (physListRemove cfg x m) with hm₁
  have hhead₁ : headers cfg heap bs m₁ =
      let h := headers cfg heap bs m
      { h with phys := h.phys.remove x, avail := u32 (h.avail + itemSize cfg) } := by
    rw [hm₁, hb.headers_addAvailable, hremove]
  have hprev₁ : ItemField.prev.get cfg x m₁ = p := by
    rw [← headers_prev hxbs, hhead₁]
    simp only [Links.remove]
    rw [Function.update_of_ne hnextx.symm, headers_prev hxbs, hxp]
  unfold NerdRtos.coalescePrev
  simp only [hxp, hfree, if_true]
  rw [← hm₁, hprev₁, hb.headers_setFree hpbs, hhead₁]

/-- The second half of `memheap_coalesce`.
kernel/nd_memheap.c:91-99 -/
theorem Bases.coalescePrev
    (hs : Shape cfg d heap start size (headers cfg heap bs m) (l ++ x :: r) frees (some x))
    (ha : HeapArea cfg d heap start size)
    (hbs : ∀ a ∈ heap :: endItem cfg heap :: (l ++ x :: r), a ∈ bs)
    (hnext : ∀ y ∈ r.head?, y ∉ frees) :
    ∃ items' frees',
      Shape cfg d heap start size (headers cfg heap bs (NerdRtos.coalescePrev cfg heap x m)) items'
        frees' none ∧
      (x ∈ items' → x ∈ frees') ∧
      Others x (headers cfg heap bs m) (l ++ x :: r) frees
        (headers cfg heap bs (NerdRtos.coalescePrev cfg heap x m)) items' frees' ∧
      (∀ a ∈ items', a ∈ l ++ x :: r) ∧
      (headers cfg heap bs (NerdRtos.coalescePrev cfg heap x m)).rest =
        (headers cfg heap bs m).rest ∧
      (headers cfg heap bs (NerdRtos.coalescePrev cfg heap x m)).balance cfg frees' =
        (headers cfg heap bs m).balance cfg (x :: frees) := by
  have hnd := hs.laid.nodup
  have hxfree : x ∉ frees := fun hx => (hs.listed x hx).2 rfl
  obtain ⟨hxbs, hxnext, hxprev⟩ := hs.around_bs hbs (a := x) (by simp)
  obtain ⟨hheap, hend, -⟩ := hs.laid.ends_notMem ha
  have hprev := hs.prev_eq
  rw [headers_prev hxbs] at hprev
  by_cases hfree : itemIsFree cfg (ItemField.prev.get cfg x m) m = true
  · obtain ⟨l, p, rfl⟩ : ∃ l' p, l = l' ++ [p] := by
      rcases List.eq_nil_or_concat l with rfl | ⟨l, p, rfl⟩
      · have hx : heap ≠ x := fun he => hheap (he ▸ by simp)
        rw [show ItemField.prev.get cfg x m = heap from hprev,
          hs.isFree_iff ha hbs (by simp) (by simpa using hx.symm)] at hfree
        exact absurd (hs.listed _ hfree).1 hheap
      · exact ⟨l, p, List.concat_eq_append⟩
    have hxp : ItemField.prev.get cfg x m = p := by simpa using hprev
    have hpx : p ≠ x := by
      rintro rfl
      simp only [List.nodup_append, List.mem_append, List.mem_cons] at hnd
      exact hnd.2.2 p (.inr (.inl rfl)) p (.inl rfl) rfl
    have hpin : p ∈ l ++ [p] ++ x :: r := by simp
    rw [hxp] at hfree hxprev
    have hp : p ∈ frees := by
      rw [hs.isFree_iff ha hbs (by simp) (by simpa using hpx.symm)] at hfree
      exact hfree
    have hnx : (headers cfg heap bs m).phys.next p = x := by
      have h := hs
      rw [List.append_assoc] at h
      simpa using h.next_eq
    have hnextx : (headers cfg heap bs m).phys.next x ≠ x := by
      rw [hs.next_eq]
      cases r with
      | nil => exact fun he => hend (he ▸ by simp)
      | cons y r =>
        rintro rfl
        simp only [List.nodup_append, List.nodup_cons, List.mem_cons] at hnd
        exact hnd.2.1.1 (.inl rfl)
    have hhead := hb.headers_joinPrev hxbs hxnext hxprev hxp hfree hnextx
    have hstep : ∀ a, a ≠ p → ((headers cfg heap bs m).phys.remove x).next a =
        (headers cfg heap bs m).phys.next a := by
      intro a hap
      simp only [Links.remove]
      rw [headers_prev hxbs, hxp, Function.update_of_ne hap]
    have hmem : ∀ a, a ≠ x → (a ∈ l ++ p :: r ↔ a ∈ l ++ [p] ++ x :: r) := by
      intro a hax
      simp only [List.mem_append, List.mem_cons, List.not_mem_nil, or_false]
      tauto
    have hxout : x ∉ l ++ p :: r := by
      simp only [List.nodup_append, List.nodup_cons, List.mem_append, List.mem_cons,
        List.not_mem_nil, or_false] at hnd ⊢
      rintro (hl | rfl | hr)
      · exact hnd.2.2 x (.inl hl) x (.inl rfl) rfl
      · exact hpx rfl
      · exact hnd.2.1.1 hr
    rw [hhead]
    have hassoc : l ++ [p] ++ x :: r = l ++ p :: x :: r := by simp
    rw [hassoc] at hs
    refine ⟨l ++ p :: r, frees, hs.join ha hp hnext _, fun hx => absurd hx hxout,
      ⟨fun a hax => by rw [hmem a hax], fun a _ _ hf => hstep a ?_⟩, fun a hm => ?_, rfl, ?_⟩
    · rintro rfl
      exact hf hp
    · exact (hmem a fun he => hxout (he ▸ hm)).mp hm
    · have hperm := List.perm_cons_erase hp
      rw [balance_perm hperm, balance_perm (hperm.cons x)]
      refine balance_merge hnx ?_ (fun a hm => hstep a ?_) rfl
      · simp [Links.remove, hxbs, hxp]
      · rintro rfl
        exact (hs.nodup.mem_erase_iff.mp hm).1 rfl
  · obtain ⟨hheapbs, hheapnext, -⟩ := hs.aroundFree_bs hbs (a := heap) (by simp)
    have hne : heap ≠ x := fun he => hheap (he ▸ by simp)
    have hhead : headers cfg heap bs (NerdRtos.coalescePrev cfg heap x m) =
        let h := headers cfg heap bs m
        { h with free := h.free.insertAfter heap x, used := update h.used x false } := by
      unfold NerdRtos.coalescePrev
      rw [if_neg hfree, hb.headers_setFree hxbs, startItem,
        hb.headers_freeInsert hheapbs hxbs hheapnext hne]
    have hprevUsed : ∀ y ∈ l.getLast?, y ∉ frees := by
      intro y hy hf
      refine hfree ?_
      rw [hprev, Option.mem_def.mp hy]
      refine (hs.isFree_iff ha hbs ?_ (hs.listed y hf).2).mpr hf
      simp [(hs.listed y hf).1]
    rw [hhead]
    refine ⟨l ++ x :: r, x :: frees, hs.release ha hprevUsed hnext _, fun _ => by simp,
      ⟨fun a hax => by simp [hax], fun _ _ _ _ => rfl⟩, fun a hm => hm, rfl, rfl⟩

/-- What `memheap_coalesce` does with the loose block `x`: it is free, and the blocks around it that
are free are joined to it.
kernel/nd_memheap.c:79-100 -/
theorem Bases.coalesce
    (hs : Shape cfg d heap start size (headers cfg heap bs m) (l ++ x :: r) frees (some x))
    (ha : HeapArea cfg d heap start size)
    (hbs : ∀ a ∈ heap :: endItem cfg heap :: (l ++ x :: r), a ∈ bs) :
    ∃ items' frees',
      Shape cfg d heap start size (headers cfg heap bs (memheapCoalesce cfg heap x m)) items' frees'
        none ∧
      (x ∈ items' → x ∈ frees') ∧
      Others x (headers cfg heap bs m) (l ++ x :: r) frees
        (headers cfg heap bs (memheapCoalesce cfg heap x m)) items' frees' ∧
      (∀ a ∈ items', a ∈ l ++ x :: r) ∧
      (headers cfg heap bs (memheapCoalesce cfg heap x m)).rest = (headers cfg heap bs m).rest ∧
      (headers cfg heap bs (memheapCoalesce cfg heap x m)).balance cfg frees' =
        (headers cfg heap bs m).balance cfg frees := by
  have hxbs : x ∈ bs := hbs x (by simp)
  have hcount := hb.headers_addAvailable (m := m) (itemDataSize cfg x m)
  have hroom : ((itemDataSize cfg x m : ℕ) : ZMod (2 ^ 32)) =
      (headers cfg heap bs m).room cfg x := by
    rw [cast_itemDataSize cfg heap]
    unfold Headers.room
    rw [headers_next hxbs]
    rfl
  have hs₁ : Shape cfg d heap start size
      (headers cfg heap bs (addAvailable cfg heap (itemDataSize cfg x m) m)) (l ++ x :: r) frees
      (some x) := by
    rw [hcount]
    exact hs.congr fun a _ => ⟨rfl, rfl, rfl, rfl, rfl, rfl, rfl⟩
  obtain ⟨r', frees₂, hs₂, hnext, ho₂, hin₂, hrest₂, hbal₂⟩ := hb.coalesceNext hs₁ ha hbs
  have hbs₂ : ∀ a ∈ heap :: endItem cfg heap :: (l ++ x :: r'), a ∈ bs := by
    intro a hm
    have hcases := hin₂ a
    refine hbs a ?_
    simp only [List.mem_cons] at hm hcases ⊢
    tauto
  obtain ⟨items', frees', hs₃, hx, ho₃, hin₃, hrest₃, hbal₃⟩ := hb.coalescePrev hs₂ ha hbs₂ hnext
  rw [memheapCoalesce_eq]
  refine ⟨items', frees', hs₃, hx, ?_, fun a hm => hin₂ a (hin₃ a hm), ?_, ?_⟩
  · refine Others.trans ⟨fun _ _ => Iff.rfl, fun a _ _ _ => ?_⟩ (ho₂.trans ho₃)
    rw [hcount]
  · rw [hrest₃, hrest₂, hcount]
  · rw [hbal₃, hbal₂, hcount]
    exact balance_count hroom

end Release

end NerdRtos
