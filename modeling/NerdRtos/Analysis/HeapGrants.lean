import NerdRtos.Analysis.HeapRelease

/-!
# Allocation on the heap

What `_memheap_alloc` and the parts of `nd_memheap_realloc` that stay in place do to the headers and
to the bytes of the blocks: `Taken` and `Contents`.
-/

set_option autoImplicit false

namespace NerdRtos

open Bytes (Mem Apart)
open Function (update)

variable {cfg : Config} {d heap start size : ℕ} {h h' : Headers} {items frees l r : List ℕ}
  {loose : Option ℕ} {x n : ℕ} {m m' : Mem} {bs : List ℕ}

/-! ## Allocation -/

/-- The search goes along the free list. -/
theorem findFit_eq {a k v : ℕ} (hseg : (heapView cfg heap m).free.Seg a l heap) (hh : heap ∉ l)
    (hk : l.length < k) : findFit cfg heap v m k (ItemField.nextFree.get cfg a m) =
      some (l.find? fun b => v ≤ itemDataSize cfg b m) := by
  induction l generalizing a k with
  | nil =>
    obtain ⟨k, rfl⟩ : ∃ j, k = j + 1 := ⟨k - 1, by simp at hk; omega⟩
    have hnext : ItemField.nextFree.get cfg a m = heap := hseg.1
    rw [findFit, hnext, if_pos (show heap = startItem heap from rfl)]
    rfl
  | cons b l ih =>
    obtain ⟨k, rfl⟩ : ∃ j, k = j + 1 := ⟨k - 1, by simp at hk; omega⟩
    rw [List.mem_cons, not_or] at hh
    have hnext : ItemField.nextFree.get cfg a m = b := hseg.1
    rw [findFit, hnext, if_neg (show b ≠ startItem heap from Ne.symm hh.1)]
    by_cases hfit : v ≤ itemDataSize cfg b m
    · rw [if_pos hfit, List.find?_cons_of_pos (by simpa using hfit)]
    · rw [if_neg hfit, List.find?_cons_of_neg (by simpa using hfit)]
      refine ih hseg.2.2 hh.2 ?_
      simp only [List.length_cons] at hk
      omega

/-- The search of `_memheap_alloc` ends, at the first free block that is large enough. -/
theorem Shape.fittingItem_eq {v : ℕ}
    (hs : Shape cfg d heap start size (heapView cfg heap m) items frees none)
    (ha : HeapArea cfg d heap start size) : fittingItem cfg heap v m =
      some (frees.find? fun b => v ≤ itemDataSize cfg b m) := by
  have hnd := hs.nodup_frees ha
  have hcontrol := ha.control
  have hpool := ha.pool
  have hpos := itemSize_pos cfg
  unfold heapSize at hcontrol
  have hsub : (heap :: frees).toFinset ⊆ Finset.range (2 ^ 32) := by
    intro a hm
    rw [List.mem_toFinset] at hm
    rw [Finset.mem_range]
    rcases List.mem_cons.mp hm with rfl | hm
    · omega
    · have := hs.laid.inside a (hs.listed a hm).1
      omega
  have hcard := Finset.card_le_card hsub
  rw [List.toFinset_card_of_nodup hnd, Finset.card_range, List.length_cons] at hcard
  exact findFit_eq hs.free (List.nodup_cons.mp hnd).1 (by omega)

/-- What a block holds that has another block behind it. -/
theorem Shape.dataSize_eq {y : ℕ}
    (hs : Shape cfg d heap start size (heapView cfg heap m) (l ++ x :: y :: r) frees loose)
    (ha : HeapArea cfg d heap start size) : y = x + itemSize cfg + itemDataSize cfg x m := by
  have hnext : itemNext cfg x m = y := hs.next_eq
  have hin := hs.laid.inside y (by simp)
  have hpool := ha.pool
  have hpos := itemSize_pos cfg
  have hle : x + itemSize cfg ≤ y := by
    have hsorted := hs.laid.sorted
    simp only [List.pairwise_append, List.pairwise_cons, List.mem_cons] at hsorted
    exact hsorted.2.1.1 y (.inl rfl)
  unfold itemDataSize u32Sub
  rw [hnext]
  omega

/-- What the last block holds is counted up to the control block, or up to the end of the address
space and on from its beginning. -/
theorem Shape.dataSize_last
    (hs : Shape cfg d heap start size (heapView cfg heap m) (l ++ [x]) frees loose)
    (ha : HeapArea cfg d heap start size) : start + size ≤ x + itemDataSize cfg x m := by
  have hnext : itemNext cfg x m = endItem cfg heap := hs.next_eq
  have hin := hs.laid.inside x (by simp)
  have hpool := ha.pool
  have hpos := itemSize_pos cfg
  have hcontrol := ha.control
  have happ := ha.apart
  unfold heapSize at hcontrol happ
  unfold itemDataSize u32Sub
  rw [hnext, endItem]
  omega

/-- The block of `x` is used and holds `v` bytes; the other used blocks are as they were. -/
structure Taken (cfg : Config) (d heap start size x v : ℕ) (h : Headers) (items frees : List ℕ)
    (h' : Headers) (items' frees' : List ℕ) : Prop where
  shape : Shape cfg d heap start size h' items' frees' none
  used : x ∈ items' ∧ x ∉ frees'
  others : Others x h items frees h' items' frees'
  holds : x + itemSize cfg + v ≤ h'.phys.next x

/-- What the headers say of a block that is taken, the whole memory says. -/
theorem Taken.view {v : ℕ} {items' frees' : List ℕ}
    (ht : Taken cfg d heap start size x v (headers cfg heap bs m) items frees
      (headers cfg heap bs m') items' frees')
    (hbs : ∀ a ∈ heap :: endItem cfg heap :: items, a ∈ bs)
    (hbs' : ∀ a ∈ heap :: endItem cfg heap :: items', a ∈ bs) :
    Taken cfg d heap start size x v (heapView cfg heap m) items frees (heapView cfg heap m') items'
      frees' where
  shape := (shape_headers_iff hbs').mp ht.shape
  used := ht.used
  others := ht.others.view fun a hm => hbs a (by simp [hm])
  holds := by
    have hx := hbs' x (by simp [ht.used.1])
    have h := ht.holds
    rw [headers_next hx] at h
    exact h

/-- The bytes in the used blocks other than `x`, and the first `v` in the block of `x`, are as they
were. -/
structure Contents (cfg : Config) (x v : ℕ) (h : Headers) (items frees : List ℕ) (m m' : Mem) :
    Prop where
  others : ∀ a ∈ items, a ∉ frees → a ≠ x →
    ∀ z, a + itemSize cfg ≤ z → z < h.phys.next a → m' z = m z
  own : x ∉ frees →
    ∀ z, x + itemSize cfg ≤ z → z < x + itemSize cfg + v → z < h.phys.next x → m' z = m z

/-- A used block has a block behind it. -/
theorem Shape.exists_next (hs : Shape cfg d heap start size h items frees loose) (hx : x ∈ items)
    (hu : x ∉ frees) (hl : loose ≠ some x) : ∃ l y r, items = l ++ x :: y :: r := by
  obtain ⟨l, r, rfl⟩ := List.append_of_mem hx
  cases r with
  | nil =>
    obtain ⟨z, hz, hfree⟩ := hs.last
    have hzx : x = z := by simpa using hz
    subst hzx
    exact absurd hfree (not_or.mpr ⟨hu, hl⟩)
  | cons y r => exact ⟨l, y, r, rfl⟩

/-- The bytes of a used block are in no header. -/
theorem Shape.outside {z : ℕ} (hs : Shape cfg d heap start size h items frees loose)
    (ha : HeapArea cfg d heap start size) (hx : x ∈ items) (hu : x ∉ frees) (hl : loose ≠ some x)
    (hz : x + itemSize cfg ≤ z) (hz' : z < h.phys.next x) :
    Outside cfg heap (heap :: endItem cfg heap :: items) z := by
  obtain ⟨l, y, r, rfl⟩ := hs.exists_next hx hu hl
  have hnext : h.phys.next x = y := hs.next_eq
  have hxin := hs.laid.inside x (by simp)
  have hyin := hs.laid.inside y (by simp)
  have hsorted := hs.laid.sorted
  have happ := ha.apart
  unfold heapSize at happ
  simp only [List.pairwise_append, List.pairwise_cons, List.mem_cons] at hsorted
  refine ⟨fun w hw => ?_, ?_⟩
  · simp only [List.mem_cons, List.mem_append] at hw
    rcases hw with rfl | rfl | hw | rfl | rfl | hw
    · omega
    · unfold endItem
      omega
    · have := hsorted.2.2 w hw x (.inl rfl)
      omega
    · omega
    · omega
    · have := hsorted.2.1.2.1 w hw
      omega
  · unfold availableAt
    omega

/-- What is not in a header keeps its bytes: `L` are the headers at some moment of the call, when
the used blocks reach as far as before it, and `x` as far as `v` bytes or as before. -/
theorem Shape.contents {v : ℕ} {L F : List ℕ} {h₁ : Headers}
    (hs : Shape cfg d heap start size h₁ L F loose) (ha : HeapArea cfg d heap start size)
    (hother : ∀ a ∈ items, a ∉ frees → a ≠ x →
      a ∈ L ∧ a ∉ F ∧ loose ≠ some a ∧ h₁.phys.next a = h.phys.next a)
    (hown : x ∉ frees → x ∈ L ∧ x ∉ F ∧ loose ≠ some x ∧
      min (x + itemSize cfg + v) (h.phys.next x) ≤ h₁.phys.next x)
    (hrest : (headers cfg heap (heap :: endItem cfg heap :: L) m').rest =
      (headers cfg heap (heap :: endItem cfg heap :: L) m).rest) :
    Contents cfg x v h items frees m m' := by
  have hsame : ∀ z, Outside cfg heap (heap :: endItem cfg heap :: L) z → m' z = m z := by
    intro z hz
    have h := congrFun hrest z
    simpa only [headers, if_pos hz] using h
  refine ⟨fun a hm hu hax z hz hz' => ?_, fun hu z hz hzv hz' => ?_⟩
  · obtain ⟨hL, hF, hl, hnext⟩ := hother a hm hu hax
    exact hsame z (hs.outside ha hL hF hl hz (hnext ▸ hz'))
  · obtain ⟨hL, hF, hl, hnext⟩ := hown hu
    exact hsame z (hs.outside ha hL hF hl hz (by omega))

/-- The contents of the used blocks stay over two changes. -/
theorem Contents.trans {v : ℕ} {m₁ m₂ m₃ : Mem} (h₁₂ : Contents cfg x v h items frees m₁ m₂)
    (h₂₃ : Contents cfg x v h items frees m₂ m₃) : Contents cfg x v h items frees m₁ m₃ where
  others a hm hu hax z hz hz' := (h₂₃.others a hm hu hax z hz hz').trans
    (h₁₂.others a hm hu hax z hz hz')
  own hu z hz hzv hz' := (h₂₃.own hu z hz hzv hz').trans (h₁₂.own hu z hz hzv hz')

/-- A block that is taken leaves the contents of the others. -/
theorem Taken.contents {v : ℕ} {items' frees' : List ℕ}
    (ht : Taken cfg d heap start size x v h items frees h' items' frees')
    (ha : HeapArea cfg d heap start size)
    (hrest : (headers cfg heap (heap :: endItem cfg heap :: items') m').rest =
      (headers cfg heap (heap :: endItem cfg heap :: items') m).rest) :
    Contents cfg x v h items frees m m' := by
  refine ht.shape.contents ha (fun a hm hu hax => ?_) (fun _ => ?_) hrest
  · obtain ⟨hm', hu'⟩ := (ht.others.used a hax).mpr ⟨hm, hu⟩
    exact ⟨hm', hu', by simp, ht.others.next a hax hm hu⟩
  · exact ⟨ht.used.1, ht.used.2, by simp, (min_le_left _ _).trans ht.holds⟩

/-- The block of `x` is split.
kernel/nd_memheap.c:120-128 -/
theorem Bases.headers_cut {v : ℕ} (hb : Bases cfg heap bs) (hx : x ∈ bs)
    (hn : itemSplitAt cfg x v ∈ bs) (hne : x ≠ itemSplitAt cfg x v) (hheap : heap < 2 ^ 32)
    (hnext : itemNext cfg x m ∈ bs) (hnextFree : ItemField.nextFree.get cfg x m ∈ bs)
    (hprevFree : ItemField.prevFree.get cfg x m ∈ bs) (hno : ItemField.nextFree.get cfg x m ≠ x)
    (hsplit : splits cfg x v m = true) :
    headers cfg heap bs (takeItem cfg heap x v m) =
      let h := headers cfg heap bs m
      let n := itemSplitAt cfg x v
      { h with
        phys := h.phys.insertAfter x n
        free := h.free.replace x n
        used := update (update h.used n false) x true
        pool := update h.pool n heap
        magic := update h.magic n true
        avail := u32Sub h.avail (u32 (v + itemSize cfg)) } := by
  unfold takeItem
  simp only [hsplit, if_true]
  set n := itemSplitAt cfg x v
  set m₁ := itemInit cfg n heap m with hm₁
  set m₂ := freeListReplace cfg x n m₁ with hm₂
  set m₃ := physListInsertAfter cfg x n m₂ with hm₃
  have h₁ := hb.headers_itemInit (m := m) hn hheap
  rw [← hm₁] at h₁
  have hnextFree₁ : ItemField.nextFree.get cfg x m₁ = ItemField.nextFree.get cfg x m := by
    rw [← headers_nextFree hx, h₁, headers_nextFree hx]
  have hprevFree₁ : ItemField.prevFree.get cfg x m₁ = ItemField.prevFree.get cfg x m := by
    rw [← headers_prevFree hx, h₁, headers_prevFree hx]
  have h₂ := hb.headers_freeReplace (m := m₁) hx hn (hnextFree₁ ▸ hnextFree)
    (hprevFree₁ ▸ hprevFree) hne
    (hnextFree₁ ▸ hno)
  rw [← hm₂, h₁] at h₂
  have hnext₂ : itemNext cfg x m₂ = itemNext cfg x m := by
    rw [← headers_next hx, h₂, headers_next hx]
  have h₃ := hb.headers_physInsert (m := m₂) hx hn (hnext₂ ▸ hnext) hne
  rw [← hm₃, h₂] at h₃
  rw [hb.headers_setUsed hx, hb.headers_subAvailable, h₃]

/-- The front of a free block is handed out.
kernel/nd_memheap.c:120-128 -/
theorem Shape.cutItem {v : ℕ}
    (hs : Shape cfg d heap start size (heapView cfg heap m) items frees none)
    (ha : HeapArea cfg d heap start size) (hx : x ∈ frees) (hsplit : splits cfg x v m = true)
    (heven : d ∣ v) (hin : x + 2 * itemSize cfg + v ≤ start + size) :
    ∃ items' frees', Taken cfg d heap start size x v (heapView cfg heap m) items frees
      (heapView cfg heap (takeItem cfg heap x v m)) items' frees' ∧
      Contents cfg x v (heapView cfg heap m) items frees m (takeItem cfg heap x v m) ∧
      (heapView cfg heap (takeItem cfg heap x v m)).balance cfg frees' =
        (heapView cfg heap m).balance cfg frees := by
  obtain ⟨l, r, rfl⟩ := List.append_of_mem (hs.listed x hx).1
  obtain ⟨f, g, rfl⟩ := List.append_of_mem hx
  have hpool := ha.pool
  have hpos := itemSize_pos cfg
  have hsorted := hs.laid.sorted
  obtain ⟨n, hn⟩ : ∃ n, n = itemSplitAt cfg x v := ⟨_, rfl⟩
  have hnat : n = x + itemSize cfg + v := by
    rw [hn, itemSplitAt, u32, Nat.mod_eq_of_lt (by omega)]
  have hfit : v + itemSize cfg ≤ itemDataSize cfg x m := by
    have h := hsplit
    rw [splits, decide_eq_true_eq, u32, Nat.mod_eq_of_lt (by omega)] at h
    exact h
  -- the rest of the block has room for the new header
  have hbehind : ∀ y ∈ r, n + itemSize cfg ≤ y := by
    intro y hy
    obtain ⟨z, r, rfl⟩ : ∃ z r', r = z :: r' := by
      cases r with
      | nil => cases hy
      | cons z r => exact ⟨z, r, rfl⟩
    have hz := hs.dataSize_eq ha
    simp only [List.pairwise_append, List.pairwise_cons, List.mem_cons] at hsorted
    rcases List.mem_cons.mp hy with rfl | hy
    · omega
    · have := hsorted.2.1.2.1 y hy
      omega
  have hlaid : Laid cfg d start size (l ++ x :: n :: r) :=
    hs.laid.cut ha hnat heven hbehind (by omega)
  have hb := hlaid.bases ha
  set bs := heap :: endItem cfg heap :: (l ++ x :: n :: r) with hbsdef
  have hbs : ∀ a ∈ heap :: endItem cfg heap :: (l ++ x :: r), a ∈ bs :=
    fun a hm => mem_insert_headers hm
  have hview := hs
  rw [← shape_headers_iff hbs] at hs
  obtain ⟨hxbs, hxnext, -⟩ := hs.around_bs hbs (a := x) (by simp)
  obtain ⟨-, hxnextFree, hxprevFree⟩ := hs.aroundFree_bs hbs (a := x) (by simp)
  have hnbs : n ∈ bs := by simp [hbsdef]
  have hnodup := hs.nodup_frees ha
  have hloop : ItemField.nextFree.get cfg x m ≠ x := by
    intro he
    have hmem := (Links.seg_append.mp hs.free).2.next_mem (x := x) (by simp)
    rw [headers_nextFree hxbs, he] at hmem
    simp only [List.nodup_cons, List.nodup_append, List.mem_append, List.mem_cons,
      not_or] at hnodup hmem
    rcases hmem with rfl | hg
    · exact hnodup.1.2.1 rfl
    · exact hnodup.2.2.1.1 hg
  have hheap32 := hb.word heap (by simp [hbsdef])
  have hhead := hb.headers_cut (m := m) hxbs (hn ▸ hnbs)
    (by omega) hheap32 hxnext hxnextFree hxprevFree
    hloop hsplit
  have htaken := hs.takeSplit (n := n) ha hlaid
    (u32Sub (headers cfg heap bs m).avail (u32 (v + itemSize cfg)))
  rw [← hn] at hhead
  have hnout : n ∉ l ++ x :: r := hlaid.notMem_insert
  have hxn : x ≠ n := by omega
  have htk : Taken cfg d heap start size x v (headers cfg heap bs m) (l ++ x :: r) (f ++ x :: g)
      (headers cfg heap bs (takeItem cfg heap x v m)) (l ++ x :: n :: r) (f ++ n :: g) := by
    rw [hhead]
    refine
      { shape := htaken, used := ⟨by simp, ?_⟩, others := ⟨fun a hax => ?_, fun a hax hm _ => ?_⟩,
        holds := ?_ }
    · have hfrees := hs.nodup
      simp only [List.nodup_append, List.nodup_cons, List.mem_append, List.mem_cons,
        not_or] at hfrees ⊢
      exact ⟨fun hf => hfrees.2.2 x hf x (.inl rfl) rfl, hxn, hfrees.2.1.1⟩
    · by_cases han : a = n
      · subst han
        simp [hnout]
      · simp [hax, han]
    · have han : a ≠ n := fun he => hnout (he ▸ hm)
      simp [Links.insertAfter, hax, han]
    · simp [Links.insertAfter, hnat]
  have hall : ∀ a ∈ bs, a ∈ bs := fun a hm => hm
  have hview := htk.view hbs hall
  refine ⟨_, _, hview, hview.contents ha (by rw [← hbsdef, hhead]), ?_⟩
  · rw [← htk.shape.balance_view hall, ← hs.balance_view hbs, hhead, balance_perm List.perm_middle,
      balance_perm (List.perm_middle : (f ++ x :: g).Perm _)]
    refine balance_cut hnat ?_ (fun a hm => ?_) rfl
    · simp [Links.insertAfter, hxn.symm]
    · have hax : a ≠ x := ((mem_middle hs.nodup).mp hm).2
      have hain := (hs.listed a ((mem_middle hs.nodup).mp hm).1).1
      have han : a ≠ n := fun he => hnout (he ▸ hain)
      simp [Links.insertAfter, hax, han]

/-- A free block is handed out whole.
kernel/nd_memheap.c:129-133 -/
theorem Shape.wholeItem {v : ℕ}
    (hs : Shape cfg d heap start size (heapView cfg heap m) items frees none)
    (ha : HeapArea cfg d heap start size) (hx : x ∈ frees) (hfit : v ≤ itemDataSize cfg x m)
    (hsplit : splits cfg x v m = false) (hin : x + itemSize cfg + v ≤ start + size) :
    ∃ items' frees', Taken cfg d heap start size x v (heapView cfg heap m) items frees
      (heapView cfg heap (takeItem cfg heap x v m)) items' frees' ∧
      Contents cfg x v (heapView cfg heap m) items frees m (takeItem cfg heap x v m) ∧
      (heapView cfg heap (takeItem cfg heap x v m)).balance cfg frees' =
        (heapView cfg heap m).balance cfg frees := by
  obtain ⟨l, r, rfl⟩ := List.append_of_mem (hs.listed x hx).1
  obtain ⟨f, g, rfl⟩ := List.append_of_mem hx
  rw [splits, decide_eq_false_iff_not, u32] at hsplit
  -- the last block holds more than the pool has
  obtain ⟨y, r, rfl⟩ : ∃ y r', r = y :: r' := by
    cases r with
    | nil =>
      have hlast := hs.dataSize_last ha
      have hmod := Nat.mod_le (v + itemSize cfg) (2 ^ 32)
      omega
    | cons y r => exact ⟨y, r, rfl⟩
  have hy := hs.dataSize_eq ha
  have hb := hs.laid.bases ha
  set bs := heap :: endItem cfg heap :: (l ++ x :: y :: r) with hbsdef
  have hbs : ∀ a ∈ bs, a ∈ bs := fun a hm => hm
  rw [← shape_headers_iff hbs] at hs
  obtain ⟨hxbs, hxnext, -⟩ := hs.around_bs hbs (a := x) (by simp)
  obtain ⟨-, hxnextFree, hxprevFree⟩ := hs.aroundFree_bs hbs (a := x) (by simp)
  have hhead : headers cfg heap bs (takeItem cfg heap x v m) =
      let h := headers cfg heap bs m
      { h with
        free := h.free.remove x
        used := update h.used x true
        avail := u32Sub h.avail (itemDataSize cfg x m) } := by
    have hnot : splits cfg x v m = false := by
      rw [splits, decide_eq_false_iff_not, u32]
      exact hsplit
    unfold takeItem
    simp only [hnot, Bool.false_eq_true, if_false]
    rw [hb.headers_setUsed hxbs, hb.headers_subAvailable,
      hb.headers_freeRemove hxbs hxnextFree hxprevFree]
  have htaken := hs.takeWhole ha
    (by simp) (u32Sub (headers cfg heap bs m).avail (itemDataSize cfg x m))
  have htk : Taken cfg d heap start size x v (headers cfg heap bs m) (l ++ x :: y :: r)
    (f ++ x :: g)
      (headers cfg heap bs (takeItem cfg heap x v m)) (l ++ x :: y :: r) (f ++ g) := by
    rw [hhead]
    refine
      { shape := htaken, used := ⟨by simp, fun hm => ((mem_middle hs.nodup).mp hm).2 rfl⟩,
        others := ⟨fun a hax => ?_, fun _ _ _ _ => rfl⟩, holds := ?_ }
    · rw [mem_middle hs.nodup]
      simp [hax]
    · show x + itemSize cfg + v ≤ (headers cfg heap bs m).phys.next x
      rw [hs.next_eq]
      simp only [List.head?_cons, Option.getD_some]
      omega
  have hview := htk.view hbs hbs
  refine ⟨_, _, hview, hview.contents ha (by rw [← hbsdef, hhead]), ?_⟩
  · rw [← htk.shape.balance_view hbs, ← hs.balance_view hbs, hhead,
      balance_perm (List.perm_middle : (f ++ x :: g).Perm _)]
    refine balance_uncount ?_ rfl fun _ _ => rfl
    rw [cast_itemDataSize cfg heap]
    unfold Headers.room
    rw [headers_next hxbs]
    rfl

/-! ## Reallocation in place -/

/-- The rest of a used block gets a header.
kernel/nd_memheap.c:238-242 -/
theorem Bases.headers_cutUsed (hb : Bases cfg heap bs) (hx : x ∈ bs) (hn : n ∈ bs) (hne : x ≠ n)
    (hheap : heap < 2 ^ 32) (hnext : itemNext cfg x m ∈ bs) :
    headers cfg heap bs (physListInsertAfter cfg x n (itemInit cfg n heap m)) =
      let h := headers cfg heap bs m
      { h with
        phys := h.phys.insertAfter x n
        used := update h.used n false
        pool := update h.pool n heap
        magic := update h.magic n true } := by
  have h₁ := hb.headers_itemInit (m := m) hn hheap
  have hnext₁ : itemNext cfg x (itemInit cfg n heap m) = itemNext cfg x m := by
    rw [← headers_next hx, h₁, headers_next hx]
  rw [hb.headers_physInsert hx hn (hnext₁ ▸ hnext) hne, h₁]

/-- A used block is cut, and the rest of it is given back.
kernel/nd_memheap.c:236-247 -/
theorem Shape.shrinkItem {v : ℕ}
    (hs : Shape cfg d heap start size (heapView cfg heap m) items frees none)
    (ha : HeapArea cfg d heap start size) (hx : x ∈ items) (hu : x ∉ frees)
    (hroom : v + itemSize cfg ≤ itemDataSize cfg x m) (heven : d ∣ v) :
    let m' := memheapCoalesce cfg heap (itemSplitAt cfg x v)
      (physListInsertAfter cfg x (itemSplitAt cfg x v) (itemInit cfg (itemSplitAt cfg x v) heap m))
    ∃ items' frees', Taken cfg d heap start size x v (heapView cfg heap m) items frees
      (heapView cfg heap m') items' frees' ∧
      Contents cfg x v (heapView cfg heap m) items frees m m' ∧
      (heapView cfg heap m').balance cfg frees' = (heapView cfg heap m).balance cfg frees := by
  intro m'
  obtain ⟨l, y, r, rfl⟩ := hs.exists_next hx hu (by simp)
  have hpool := ha.pool
  have hpos := itemSize_pos cfg
  have hsorted := hs.laid.sorted
  have hy := hs.dataSize_eq ha
  have hyin := hs.laid.inside y (by simp)
  obtain ⟨n, hn⟩ : ∃ n, n = itemSplitAt cfg x v := ⟨_, rfl⟩
  have hnat : n = x + itemSize cfg + v := by
    rw [hn, itemSplitAt, u32, Nat.mod_eq_of_lt (by omega)]
  have hlaid : Laid cfg d start size (l ++ x :: n :: y :: r) := by
    refine hs.laid.cut ha hnat heven (fun z hz => ?_) (by omega)
    simp only [List.pairwise_append, List.pairwise_cons, List.mem_cons] at hsorted
    rcases List.mem_cons.mp hz with rfl | hz
    · omega
    · have := hsorted.2.1.2.1 z hz
      omega
  have hb := hlaid.bases ha
  set bs := heap :: endItem cfg heap :: (l ++ x :: n :: y :: r) with hbsdef
  have hbs : ∀ a ∈ heap :: endItem cfg heap :: (l ++ x :: y :: r), a ∈ bs :=
    fun a hm => mem_insert_headers hm
  rw [← shape_headers_iff hbs] at hs
  obtain ⟨hxbs, hxnext, -⟩ := hs.around_bs hbs (a := x) (by simp)
  have hnbs : n ∈ bs := by simp [hbsdef]
  have hxn : x ≠ n := by omega
  have hhead := hb.headers_cutUsed (m := m) hxbs hnbs hxn (hb.word heap (by simp [hbsdef])) hxnext
  have hused : (headers cfg heap bs m).used x = true := by
    rw [hs.flags x (by simp) (by simp)]
    simp [hu]
  have hcut := (hs.loosen hu).insert ha hused hlaid
  simp only at hhead
  rw [← hhead] at hcut
  have hassoc : l ++ x :: n :: y :: r = (l ++ [x]) ++ n :: y :: r := by simp
  rw [hassoc] at hcut
  obtain ⟨items', frees', hs', hloose, ho, hin, hrest, hbal⟩ := hb.coalesce hcut ha (by
    rw [← hassoc]
    exact fun a hm => hm)
  have hnout : n ∉ l ++ x :: y :: r := hlaid.notMem_insert
  have hbs' : ∀ a ∈ heap :: endItem cfg heap :: items', a ∈ bs := by
    intro a hm
    simp only [List.mem_cons] at hm
    rcases hm with rfl | rfl | hm
    · simp [hbsdef]
    · simp [hbsdef]
    · have hmem := hin a hm
      rw [← hassoc] at hmem
      simp only [hbsdef, List.mem_cons]
      exact .inr (.inr hmem)
  have hstep : ∀ a ∈ l ++ x :: y :: r, a ≠ x →
      ((headers cfg heap bs m).phys.insertAfter x n).next a =
          (headers cfg heap bs m).phys.next a := by
    intro a hm hax
    have han : a ≠ n := fun he => hnout (he ▸ hm)
    simp [Links.insertAfter, hax, han]
  have hm' : m' = memheapCoalesce cfg heap n
      (physListInsertAfter cfg x n (itemInit cfg n heap m)) := by
    rw [hn]
  have htk : Taken cfg d heap start size x v (headers cfg heap bs m) (l ++ x :: y :: r) frees
      (headers cfg heap bs m') items' frees' := by
    rw [hm']
    refine
      { shape := hs', used := (ho.used x hxn).mpr ⟨by simp, hu⟩,
        others := ⟨fun a hax => ?_, fun a hax hm hf => ?_⟩, holds := ?_ }
    · by_cases han : a = n
      · subst han
        constructor
        · exact fun hm => absurd (hloose hm.1) hm.2
        · exact fun hm => absurd hm.1 hnout
      · rw [ho.used a han, ← hassoc]
        simp [hax, han]
    · have han : a ≠ n := fun he => hnout (he ▸ hm)
      rw [ho.next a han ?_ hf, hhead]
      · exact hstep a hm hax
      · simp only [List.mem_append, List.mem_cons] at hm ⊢
        tauto
    · rw [ho.next x hxn (by simp) hu, hhead]
      simp [Links.insertAfter, hnat]
  refine ⟨items', frees', htk.view hbs hbs', ?_, ?_⟩
  · refine hcut.contents ha (fun a hm hf hax => ⟨?_, hf, ?_, ?_⟩) (fun _ =>
      ⟨by simp, hu, ?_, ?_⟩) ?_
    · simp only [List.mem_append, List.mem_cons] at hm ⊢
      tauto
    · rintro ⟨⟩
      exact hnout hm
    · rw [hhead]
      show ((headers cfg heap bs m).phys.insertAfter x n).next a = itemNext cfg a m
      rw [hstep a hm hax, headers_next (hbs a (by simp [hm]))]
    · simpa using hxn.symm
    · rw [hhead]
      refine (min_le_left _ _).trans ?_
      simp [Links.insertAfter, hnat]
    · rw [← hassoc, ← hbsdef, hm', hrest, hhead]
  · rw [← hs'.balance_view hbs', ← hs.balance_view hbs]
    rw [hm', hbal]
    refine balance_congr ?_ fun a hm => ?_
    · rw [hhead]
    · rw [hhead]
      refine hstep a (hs.listed a hm).1 ?_
      rintro rfl
      exact hu hm

/-- A used block grows to `n` in place of the free block behind it, and `n` starts what is left. -/
theorem balance_grow {v block y : ℕ} {rest : List ℕ} (hn : n = x + itemSize cfg + v)
    (hy : y = x + itemSize cfg + block) (hnext : h'.phys.next n = h.phys.next y)
    (hc : ∀ a ∈ rest, h'.phys.next a = h.phys.next a)
    (ha : h'.avail = u32Sub h.avail (u32Sub v block)) :
    h'.balance cfg (n :: rest) = h.balance cfg (y :: rest) := by
  have hcast : (n : ZMod (2 ^ 32)) = x + itemSize cfg + v := by
    rw [hn, Nat.cast_add, Nat.cast_add]
  have hcast' : (y : ZMod (2 ^ 32)) = x + itemSize cfg + block := by
    rw [hy, Nat.cast_add, Nat.cast_add]
  unfold Headers.balance
  simp only [List.map_cons, List.sum_cons]
  rw [sum_room_congr hc, ha, cast_u32Sub, cast_u32Sub]
  unfold Headers.room
  rw [hnext, hcast, hcast']
  ring

/-- The two blocks `x` and `y` together do not hold more than the address space. -/
theorem Shape.dataSize_add_lt {y : ℕ}
    (hs : Shape cfg d heap start size (heapView cfg heap m) (l ++ x :: y :: r) frees loose)
    (ha : HeapArea cfg d heap start size) :
    itemDataSize cfg x m + itemSize cfg + itemDataSize cfg y m < 2 ^ 32 := by
  have hy := hs.dataSize_eq ha
  have hpos := itemSize_pos cfg
  have hpool := ha.pool
  have hin := hs.laid.inside x (by simp)
  have hyin := hs.laid.inside y (by simp)
  have hassoc : l ++ x :: y :: r = (l ++ [x]) ++ y :: r := by simp
  rw [hassoc] at hs
  cases r with
  | nil =>
    have hnext : itemNext cfg y m = endItem cfg heap := hs.next_eq
    have hcontrol := ha.control
    have happ := ha.apart
    unfold heapSize at hcontrol happ
    have hdef : itemDataSize cfg y m =
        ((heap + itemSize cfg + 2 ^ 32 - y) % 2 ^ 32 + 2 ^ 32 - itemSize cfg) % 2 ^ 32 := by
      unfold itemDataSize u32Sub
      rw [hnext, endItem, Nat.mod_eq_of_lt (show y < 2 ^ 32 by omega),
        Nat.mod_eq_of_lt (show itemSize cfg < 2 ^ 32 by omega)]
    omega
  | cons z r =>
    have hz := hs.dataSize_eq ha
    have hzin := hs.laid.inside z (by simp)
    omega

/-- The free block `y` behind the used block `x` is joined to it.
kernel/nd_memheap.c:257-258 -/
theorem Shape.mergeUsed {v y : ℕ}
    (hs : Shape cfg d heap start size (heapView cfg heap m) (l ++ x :: y :: r) frees none)
    (ha : HeapArea cfg d heap start size) (hu : x ∉ frees) (hy : y ∈ frees)
    (hm : m' = physListRemove cfg y (freeListRemove cfg y m)) :
    Shape cfg d heap start size (heapView cfg heap m') (l ++ x :: r) (frees.erase y) (some x) ∧
      itemIsUsed cfg x m' = true ∧ availableSize cfg heap m' = availableSize cfg heap m ∧
      itemNext cfg x m' = itemNext cfg y m ∧
      (∀ a ∈ l ++ x :: r, a ≠ x → itemNext cfg a m' = itemNext cfg a m) ∧
      Contents cfg x v (heapView cfg heap m) (l ++ x :: y :: r) frees m m' := by
  have hb := hs.laid.bases ha
  set bs := heap :: endItem cfg heap :: (l ++ x :: y :: r) with hbsdef
  have hbs : ∀ a ∈ heap :: endItem cfg heap :: (l ++ x :: r), a ∈ bs :=
    fun a hm => mem_insert_headers hm
  have hxbs : x ∈ bs := hbs x (by simp)
  have hybs : y ∈ bs := by simp [hbsdef]
  have hall : ∀ a ∈ bs, a ∈ bs := fun a hm => hm
  have hs' := (shape_headers_iff hall).mpr hs
  have hprev : (headers cfg heap bs m).phys.prev y = x := by
    have h := hs
    rw [show l ++ x :: y :: r = (l ++ [x]) ++ y :: r by simp] at h
    rw [headers_prev hybs, show ItemField.prev.get cfg y m = _ from h.prev_eq]
    simp
  have hunlink := hb.headers_unlink hs' (fun a hm => hm) hy
  rw [← hm] at hunlink
  have habsorb := (hs'.loosen hu).absorb ha hy (headers cfg heap bs m).avail
  simp only at hunlink
  rw [← hunlink, shape_headers_iff hbs] at habsorb
  refine ⟨habsorb, ?_, ?_, ?_, fun a hm hax => ?_, ?_⟩
  · rw [← @headers_used _ heap _ _ _ hxbs, hunlink]
    show (headers cfg heap bs m).used x = true
    rw [hs'.flags x (by simp) (by simp)]
    simp [hu]
  · show (headers cfg heap bs m').avail = _
    rw [hunlink]
    rfl
  · rw [← @headers_next _ heap _ _ _ hxbs, hunlink]
    simp only [Links.remove]
    rw [hprev, Function.update_self, headers_next hybs]
  · have habs : a ∈ bs := hbs a (by simp [hm])
    rw [← @headers_next _ heap _ _ _ habs, hunlink]
    simp only [Links.remove]
    rw [hprev, Function.update_of_ne hax, headers_next habs]
  · refine hs.contents ha (fun a hm hf _ => ⟨hm, hf, by simp, rfl⟩) (fun _ => ?_) ?_
    · exact ⟨by simp, hu, by simp, min_le_right _ _⟩
    · rw [← hbsdef, hunlink]

/-- The used block `x` is cut, and the rest of it is put on the free list.
kernel/nd_memheap.c:260-262 -/
theorem Shape.cutFree {v : ℕ}
    (hs : Shape cfg d heap start size (heapView cfg heap m) (l ++ x :: r) frees (some x))
    (ha : HeapArea cfg d heap start size) (hused : itemIsUsed cfg x m = true)
    (hlaid : Laid cfg d start size (l ++ x :: n :: r)) (hnext : ∀ z ∈ r.head?, z ∉ frees)
    (hm : m' = subAvailable cfg heap v (freeListInsertAfter cfg (startItem heap) n
      (physListInsertAfter cfg x n (itemInit cfg n heap m)))) :
    Shape cfg d heap start size (heapView cfg heap m') (l ++ x :: n :: r) (n :: frees) none ∧
      availableSize cfg heap m' = u32Sub (availableSize cfg heap m) v ∧
      itemNext cfg x m' = n ∧ itemNext cfg n m' = itemNext cfg x m ∧
      (∀ a ∈ l ++ x :: r, a ≠ x → itemNext cfg a m' = itemNext cfg a m) ∧
      (headers cfg heap (heap :: endItem cfg heap :: (l ++ x :: n :: r)) m').rest =
        (headers cfg heap (heap :: endItem cfg heap :: (l ++ x :: n :: r)) m).rest := by
  have hb := hlaid.bases ha
  obtain ⟨hheap, -, -⟩ := hlaid.ends_notMem ha
  set bs := heap :: endItem cfg heap :: (l ++ x :: n :: r) with hbsdef
  have hbs : ∀ a ∈ heap :: endItem cfg heap :: (l ++ x :: r), a ∈ bs :=
    fun a hm => mem_insert_headers hm
  have hnout : n ∉ l ++ x :: r := hlaid.notMem_insert
  have hxn : x ≠ n := fun he => hnout (he ▸ by simp)
  have hhn : heap ≠ n := fun he => hheap (he ▸ by simp)
  have hxfree : x ∉ frees := fun hx => (hs.listed x hx).2 rfl
  have hs' := (shape_headers_iff hbs).mpr hs
  obtain ⟨hxbs, hxnext, -⟩ := hs'.around_bs hbs (a := x) (by simp)
  obtain ⟨hheapbs, hheapnext, -⟩ := hs'.aroundFree_bs hbs (a := heap) (by simp)
  have hnbs : n ∈ bs := by simp [hbsdef]
  have hcut := hb.headers_cutUsed (m := m) hxbs hnbs hxn (hb.word heap hheapbs) hxnext
  set m₁ := physListInsertAfter cfg x n (itemInit cfg n heap m) with hm₁
  have hnextFree : ItemField.nextFree.get cfg heap m₁ = ItemField.nextFree.get cfg heap m := by
    rw [← @headers_nextFree _ heap _ _ _ hheapbs, hcut, headers_nextFree hheapbs]
  have hhead : headers cfg heap bs m' =
      let h := headers cfg heap bs m
      { h with
        phys := h.phys.insertAfter x n
        free := h.free.insertAfter heap n
        used := update (update h.used n false) n false
        pool := update h.pool n heap
        magic := update h.magic n true
        avail := u32Sub h.avail v } := by
    rw [hm, hb.headers_subAvailable, startItem,
      hb.headers_freeInsert hheapbs hnbs (hnextFree ▸ hheapnext) hhn, hcut]
    simp
  have hassoc : l ++ x :: n :: r = (l ++ [x]) ++ n :: r := by simp
  have hinsert := hs'.insert ha (by rw [headers_used hxbs]; exact hused) hlaid
  rw [hassoc] at hinsert
  have hfree := hinsert.release ha (fun y hy hf => ?_) hnext
    (u32Sub (headers cfg heap bs m).avail v)
  · simp only at hhead
    rw [← hhead, ← hassoc, shape_headers_iff fun a hm => hm] at hfree
    refine ⟨hfree, ?_, ?_, ?_, fun a hm hax => ?_, by rw [hhead]⟩
    · show (headers cfg heap bs m').avail = _
      rw [hhead]
      rfl
    · rw [← @headers_next _ heap _ _ _ hxbs, hhead]
      simp [Links.insertAfter]
    · rw [← @headers_next _ heap _ _ _ hnbs, hhead]
      simp [Links.insertAfter, hxn.symm, hxbs]
    · have han : a ≠ n := fun he => hnout (he ▸ hm)
      have habs : a ∈ bs := hbs a (by simp [hm])
      rw [← @headers_next _ heap _ _ _ habs, hhead]
      simp [Links.insertAfter, hax, han, habs]
  · have hyx : x = y := by simpa using hy
    exact hxfree (hyx ▸ hf)

/-- A used block takes the front of the free block behind it.
kernel/nd_memheap.c:253-270 -/
theorem Shape.growItem {v y : ℕ}
    (hs : Shape cfg d heap start size (heapView cfg heap m) (l ++ x :: y :: r) frees none)
    (ha : HeapArea cfg d heap start size) (hu : x ∉ frees) (hy : y ∈ frees)
    (hmore : itemDataSize cfg x m < v)
    (hroom : v + itemSize cfg ≤ itemDataSize cfg x m + itemDataSize cfg y m) (heven : d ∣ v)
    (hin : x + 2 * itemSize cfg + v ≤ start + size) :
    let m' := NerdRtos.growItem cfg heap x v (itemDataSize cfg x m) (itemDataSize cfg y m) m
    ∃ items' frees', Taken cfg d heap start size x v (heapView cfg heap m) (l ++ x :: y :: r) frees
      (heapView cfg heap m') items' frees' ∧
      Contents cfg x v (heapView cfg heap m) (l ++ x :: y :: r) frees m m' ∧
      (heapView cfg heap m').balance cfg frees' = (heapView cfg heap m).balance cfg frees := by
  intro m'
  have hpool := ha.pool
  have hpos := itemSize_pos cfg
  have hdata := hs.dataSize_eq ha
  have hlt := hs.dataSize_add_lt ha
  have hsorted := hs.laid.sorted
  have hnexty : itemNext cfg x m = y := hs.next_eq
  set block := itemDataSize cfg x m with hblock
  set room := itemDataSize cfg y m with hroomdef
  have hassoc : l ++ x :: y :: r = (l ++ [x]) ++ y :: r := by simp
  obtain ⟨n, hn⟩ : ∃ n, n = itemSplitAt cfg x v := ⟨_, rfl⟩
  have hnat : n = x + itemSize cfg + v := by
    rw [hn, itemSplitAt, u32, Nat.mod_eq_of_lt (by omega)]
  have hsplit : itemSize cfg ≤ u32Sub (u32 (block + room)) v := by
    unfold u32Sub u32
    omega
  have hnextr : ∀ z ∈ r.head?, z ∉ frees.erase y := by
    intro z hz hf
    have hsp := hs.spaced
    rw [hassoc] at hsp
    exact hsp.next_used hy z hz (List.mem_of_mem_erase hf)
  obtain ⟨m₁, hm₁⟩ : ∃ m₁, m₁ = physListRemove cfg y (freeListRemove cfg y m) := ⟨_, rfl⟩
  obtain ⟨hs₁, hused, havail₁, hnext₁, hother₁, hcont₁⟩ := hs.mergeUsed (v := v) ha hu hy hm₁
  -- the new header lies in the block that was free
  have hbehind : ∀ z ∈ r, n + itemSize cfg ≤ z := by
    intro z hz
    obtain ⟨w, r, rfl⟩ : ∃ w r', r = w :: r' := by
      cases r with
      | nil => cases hz
      | cons w r => exact ⟨w, r, rfl⟩
    have hw : w = y + itemSize cfg + room := by
      have h := hs
      rw [hassoc] at h
      exact h.dataSize_eq ha
    simp only [List.pairwise_append, List.pairwise_cons, List.mem_cons] at hsorted
    rcases List.mem_cons.mp hz with rfl | hz
    · omega
    · have := hsorted.2.1.2.2.1 z hz
      omega
  have hlaid : Laid cfg d start size (l ++ x :: n :: r) :=
    hs₁.laid.cut ha hnat heven hbehind (by omega)
  obtain ⟨m₂, hm₂⟩ : ∃ m₂, m₂ = subAvailable cfg heap (u32Sub v block)
    (freeListInsertAfter cfg (startItem heap) n
      (physListInsertAfter cfg x n (itemInit cfg n heap m₁))) := ⟨_, rfl⟩
  obtain ⟨hs₂, havail₂, hnext₂, hnextn, hother₂, hrest₂⟩ := hs₁.cutFree ha hused hlaid hnextr hm₂
  have hgrow : m' = m₂ := by
    show NerdRtos.growItem cfg heap x v block room m = m₂
    unfold NerdRtos.growItem
    simp only [hsplit, if_true, hnexty, ← hn]
    rw [hm₂, hm₁]
  have hnout : n ∉ l ++ x :: r := hlaid.notMem_insert
  have hyout : y ∉ l ++ x :: r := hs.laid.notMem_insert
  have hny : n ≠ y := by omega
  have hstep : ∀ a ∈ l ++ x :: r, a ≠ x → itemNext cfg a m₂ = itemNext cfg a m := fun a hm hax =>
    (hother₂ a hm hax).trans (hother₁ a hm hax)
  have hmem : ∀ {a : ℕ}, a ∈ l ++ x :: y :: r → a ∉ frees → a ∈ l ++ x :: r := by
    intro a hm hf
    have hay : a ≠ y := fun he => hf (he ▸ hy)
    simp only [List.mem_append, List.mem_cons] at hm ⊢
    tauto
  have htk : Taken cfg d heap start size x v (heapView cfg heap m) (l ++ x :: y :: r) frees
      (heapView cfg heap m₂) (l ++ x :: n :: r) (n :: frees.erase y) := by
    refine ⟨hs₂, ⟨by simp, ?_⟩, ⟨fun a hax => ?_, fun a hax hm hf => hstep a (hmem hm hf) hax⟩, ?_⟩
    · simp only [List.mem_cons, not_or]
      exact ⟨by omega, fun hf => hu (List.mem_of_mem_erase hf)⟩
    · by_cases han : a = n
      · subst han
        have hnold : a ∉ l ++ x :: y :: r := by
          simp only [List.mem_append, List.mem_cons] at hnout ⊢
          tauto
        simp [hnold]
      · by_cases hay : a = y
        · subst hay
          have hynew : a ∉ l ++ x :: n :: r := by
            simp only [List.mem_append, List.mem_cons] at hyout ⊢
            tauto
          simp [hynew, hy]
        · simp [hax, han, hay, List.mem_erase_of_ne]
    · show _ ≤ itemNext cfg x m₂
      rw [hnext₂, hnat]
  rw [hgrow]
  refine ⟨_, _, htk, hcont₁.trans (htk.contents ha hrest₂), ?_⟩
  rw [balance_perm (List.perm_cons_erase hy)]
  refine balance_grow hnat hdata ?_ (fun a hm => hstep a ?_ ?_) ?_
  · show itemNext cfg n m₂ = itemNext cfg y m
    rw [hnextn, hnext₁]
  · exact (hs₁.listed a hm).1
  · rintro rfl
    exact hu (List.mem_of_mem_erase hm)
  · show availableSize cfg heap m₂ = _
    rw [havail₂, havail₁]
    rfl

/-- A used block takes the whole of the free block behind it, which is not the last one.
kernel/nd_memheap.c:264-270 -/
theorem Shape.absorbItem {v y z : ℕ}
    (hs : Shape cfg d heap start size (heapView cfg heap m) (l ++ x :: y :: z :: r) frees none)
    (ha : HeapArea cfg d heap start size) (hu : x ∉ frees) (hy : y ∈ frees)
    (hroom : v ≤ itemDataSize cfg x m + itemDataSize cfg y m)
    (hwhole : itemDataSize cfg x m + itemDataSize cfg y m < v + itemSize cfg) :
    let m' := NerdRtos.growItem cfg heap x v (itemDataSize cfg x m) (itemDataSize cfg y m) m
    ∃ items' frees', Taken cfg d heap start size x v (heapView cfg heap m)
      (l ++ x :: y :: z :: r) frees
      (heapView cfg heap m') items' frees' ∧
      Contents cfg x v (heapView cfg heap m) (l ++ x :: y :: z :: r) frees m m' := by
  intro m'
  have hdata := hs.dataSize_eq ha
  have hlt := hs.dataSize_add_lt ha
  have hpos := itemSize_pos cfg
  have hnd := hs.laid.nodup
  have hnexty : itemNext cfg x m = y := hs.next_eq
  have hassoc : l ++ x :: y :: z :: r = (l ++ [x]) ++ y :: z :: r := by simp
  have hz : z = y + itemSize cfg + itemDataSize cfg y m := by
    have h := hs
    rw [hassoc] at h
    exact h.dataSize_eq ha
  have hnextz : itemNext cfg y m = z := by
    have h := hs
    rw [hassoc] at h
    exact h.next_eq
  set block := itemDataSize cfg x m
  set room := itemDataSize cfg y m
  have hnot : ¬ itemSize cfg ≤ u32Sub (u32 (block + room)) v := by
    unfold u32Sub u32
    omega
  obtain ⟨m₁, hm₁⟩ : ∃ m₁, m₁ = physListRemove cfg y (freeListRemove cfg y m) := ⟨_, rfl⟩
  obtain ⟨hs₁, hused, -, hnext₁, hother₁, hcont₁⟩ := hs.mergeUsed (v := v) ha hu hy hm₁
  have hgrow : m' = subAvailable cfg heap (u32Sub v block)
      (addAvailable cfg heap (itemSize cfg) m₁) := by
    show NerdRtos.growItem cfg heap x v block room m = _
    unfold NerdRtos.growItem
    simp only [hnot, if_false, hnexty]
    rw [hm₁]
  have hxfree : x ∉ frees.erase y := fun hf => hu (List.mem_of_mem_erase hf)
  have hxr : x ∉ z :: r := by
    simp only [List.nodup_append, List.nodup_cons, List.mem_cons, not_or] at hnd ⊢
    exact ⟨hnd.2.1.1.2.1, hnd.2.1.1.2.2⟩
  have hyout : y ∉ l ++ x :: z :: r := by
    simp only [List.nodup_append, List.nodup_cons, List.mem_append, List.mem_cons, not_or] at hnd ⊢
    exact ⟨fun hl => hnd.2.2 y hl y (.inr (.inl rfl)) rfl, fun he => hnd.2.1.1.1 he.symm,
      hnd.2.1.2.1⟩
  have hsettle := hs₁.settle hused hxfree (by
    rw [getLast_append_cons]
    intro he
    exact hxr (Option.some.inj he ▸ getLastD_mem z r x))
  have hb := hsettle.laid.bases ha
  set bs := heap :: endItem cfg heap :: (l ++ x :: z :: r) with hbsdef
  have hall : ∀ a ∈ bs, a ∈ bs := fun a hm => hm
  have hhead : headers cfg heap bs m' =
      let h := headers cfg heap bs m₁
      { h with avail := u32Sub (u32 (h.avail + itemSize cfg)) (u32Sub v block) } := by
    rw [hgrow, hb.headers_subAvailable, hb.headers_addAvailable]
  have hs₂ : Shape cfg d heap start size (heapView cfg heap m') (l ++ x :: z :: r) (frees.erase y)
      none := by
    rw [← shape_headers_iff hall, hhead]
    exact ((shape_headers_iff hall).mpr hsettle).congr fun a _ =>
      ⟨rfl, rfl, rfl, rfl, rfl, rfl, rfl⟩
  have hnext₂ : ∀ a ∈ l ++ x :: z :: r, itemNext cfg a m' = itemNext cfg a m₁ := by
    intro a hm
    have habs : a ∈ bs := by simp [hbsdef, hm]
    rw [← @headers_next _ heap _ _ _ habs, hhead, headers_next habs]
  have htk : Taken cfg d heap start size x v (heapView cfg heap m) (l ++ x :: y :: z :: r) frees
      (heapView cfg heap m') (l ++ x :: z :: r) (frees.erase y) := by
    refine ⟨hs₂, ⟨by simp, hxfree⟩, ⟨fun a hax => ?_, fun a hax hm hf => ?_⟩, ?_⟩
    · by_cases hay : a = y
      · subst hay
        simp [hyout, hy]
      · rw [List.mem_erase_of_ne hay]
        simp only [List.mem_append, List.mem_cons]
        tauto
    · have hay : a ≠ y := fun he => hf (he ▸ hy)
      have hm' : a ∈ l ++ x :: z :: r := by
        simp only [List.mem_append, List.mem_cons] at hm ⊢
        tauto
      show itemNext cfg a m' = itemNext cfg a m
      rw [hnext₂ a hm', hother₁ a hm' hax]
    · show _ ≤ itemNext cfg x m'
      rw [hnext₂ x (by simp), hnext₁, hnextz]
      omega
  exact ⟨_, _, htk, hcont₁.trans (htk.contents ha (by rw [← hbsdef, hhead]))⟩

end NerdRtos
