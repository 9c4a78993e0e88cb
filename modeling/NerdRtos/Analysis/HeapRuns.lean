import NerdRtos.Analysis.HeapGrants

/-!
# Runs of the heap

A heap in use: its shape, and the blocks that are handed out, one for each used header. The calls
keep both as long as what is cut off a block lies inside of the heap (`HeapOp.Fits`), and they do
not touch the bytes of the blocks.
-/

set_option autoImplicit false

namespace NerdRtos

open Bytes (Mem Apart)
open Function (update)

variable {cfg : Config} {d heap start size : ℕ} {items frees l r : List ℕ} {x y v : ℕ} {m m' : Mem}

/-! ## What the calls have to leave room for -/

/-- The block that is cut from `x` for `v` bytes ends at or below `limit`, together with the header
of the rest when there is one, which is then at a multiple of `d`. -/
def CutFits (cfg : Config) (d limit x v : ℕ) (m : Mem) : Prop :=
  if splits cfg x v m then d ∣ v ∧ x + 2 * itemSize cfg + v ≤ limit else x + itemSize cfg + v ≤
    limit

instance : Decidable (CutFits cfg d start x v m) := by
  unfold CutFits
  infer_instance

/-- The item that the allocation of `v` bytes takes, if there is one, can be cut. -/
def AllocFits (cfg : Config) (d heap limit v : ℕ) (m : Mem) : Prop :=
  match fittingItem cfg heap v m with
  | some (some x) => CutFits cfg d limit x v m
  | _ => True

instance : Decidable (AllocFits cfg d heap start v m) := by
  unfold AllocFits
  split <;> infer_instance

/-- The block of `x`, of `block` bytes, can grow into the `room` bytes of the free block behind it:
a header of the rest fits into them, or, unless `exact`, they are taken as a whole. -/
def GrowFits (cfg : Config) (d limit : ℕ) (exact : Bool) (x v block room : ℕ) : Prop :=
  if v + itemSize cfg ≤ block + room then d ∣ v ∧ x + 2 * itemSize cfg + v ≤ limit
  else exact = false ∧ v ≤ block + room ∧ x + 2 * itemSize cfg + block + room ≤ limit

instance (exact : Bool) (block room : ℕ) :
    Decidable (GrowFits cfg d start exact x v block room) := by
  unfold GrowFits
  infer_instance

/-- The block at `ptr` can be resized to `v` bytes. -/
@[irreducible] def ResizeFits (cfg : Config) (d heap limit : ℕ) (exact : Bool) (ptr v : ℕ)
    (m : Mem) : Prop :=
  let x := dataToItem cfg ptr
  let block := itemDataSize cfg x m
  let y := itemNext cfg x m
  let room := itemDataSize cfg y m
  if v ≤ block then v + itemSize cfg ≤ block → d ∣ v
  else if itemIsFree cfg y m ∧ v ≤ u32 (block + itemSize cfg + room) then
    GrowFits cfg d limit exact x v block room
  else AllocFits cfg d heap limit v m

instance (exact : Bool) (ptr : ℕ) : Decidable (ResizeFits cfg d heap start exact ptr v m) := by
  unfold ResizeFits
  infer_instance

/-- What a call cuts off a block fits below `limit`. -/
def HeapOp.Fits (cfg : Config) (d heap limit : ℕ) (exact : Bool) (s : Heap) : HeapOp → Prop
  | .alloc v | .realloc none v => AllocFits cfg d heap limit v s.mem
  | .realloc (some ptr) v => ResizeFits cfg d heap limit exact ptr v s.mem
  | _ => True

instance (exact : Bool) (s : Heap) (op : HeapOp) :
    Decidable (op.Fits cfg d heap start exact s) := by
  unfold HeapOp.Fits
  split <;> infer_instance

/-! ## The two lists -/

/-- The two lists of a heap: `next` leads from `start_item` through headers that do not overlap to
`end_item`, and `prev` back; the free list has the free ones, each once, and `prev_free` leads
back. -/
structure Lists (cfg : Config) (heap : ℕ) (m : Mem) (items frees : List ℕ) : Prop where
  phys : (heapView cfg heap m).phys.Seg (startItem heap) items (endItem cfg heap)
  apart : (startItem heap :: endItem cfg heap :: items).Pairwise (Apart (itemSize cfg))
  free : (heapView cfg heap m).free.Seg (startItem heap) frees (startItem heap)
  nodup : frees.Nodup
  exact : ∀ a, a ∈ frees ↔ a ∈ items ∧ itemIsFree cfg a m = true

/-- The two lists of a heap in order. -/
theorem Shape.lists (hs : Shape cfg d heap start size (heapView cfg heap m) items frees none)
    (ha : HeapArea cfg d heap start size) : Lists cfg heap m items frees where
  phys := hs.phys
  apart := (hs.laid.bases ha).apart
  free := hs.free
  nodup := hs.nodup
  exact a := by
    constructor
    · intro hm
      have hin := (hs.listed a hm).1
      have hflag := (hs.used_iff ha (by simp [hin]) (by simp)).mpr hm
      exact ⟨hin, by rw [itemIsFree, Bool.not_eq_true']; exact hflag⟩
    · rintro ⟨hin, hfree⟩
      rw [itemIsFree, Bool.not_eq_true'] at hfree
      exact (hs.used_iff ha (by simp [hin]) (by simp)).mp hfree

/-! ## The blocks that are handed out -/

/-- Each used header has one block that is handed out, which lies in front of the next header. -/
structure LiveBlocks (cfg : Config) (m : Mem) (items frees : List ℕ) (live : List (ℕ × ℕ)) :
    Prop where
  nodup : (live.map Prod.fst).Nodup
  block : ∀ b ∈ live, ∃ a, a ∈ items ∧ a ∉ frees ∧ b.1 = a + itemSize cfg ∧
    b.1 + b.2 ≤ itemNext cfg a m
  owner : ∀ a, a ∈ items → a ∉ frees → ∃ b ∈ live, b.1 = a + itemSize cfg

/-- What is left when a block is released. -/
theorem mem_dropBlock {live : List (ℕ × ℕ)} {p : ℕ} {b : ℕ × ℕ} :
    b ∈ dropBlock (some p) live ↔ b ∈ live ∧ b.1 ≠ p := by
  simp [dropBlock]

variable {items' frees' : List ℕ} {live : List (ℕ × ℕ)}

/-- The block of `x` goes and the block of `y` comes. -/
theorem LiveBlocks.change (hb : LiveBlocks cfg m items frees live)
    (hused : ∀ a, a ∈ items' ∧ a ∉ frees' ↔ a = y ∨ a ≠ x ∧ a ∈ items ∧ a ∉ frees)
    (hnext : ∀ a, a ≠ x → a ∈ items → a ∉ frees → itemNext cfg a m' = itemNext cfg a m)
    (hy : y = x ∨ ¬ (y ∈ items ∧ y ∉ frees)) (hholds : y + itemSize cfg + v ≤ itemNext cfg y m') :
    LiveBlocks cfg m' items' frees'
      ((y + itemSize cfg, v) :: dropBlock (some (x + itemSize cfg)) live) := by
  have hkeep : ∀ b ∈ dropBlock (some (x + itemSize cfg)) live, ∃ a, a ≠ x ∧ a ∈ items ∧ a ∉ frees ∧
      b.1 = a + itemSize cfg ∧ b.1 + b.2 ≤ itemNext cfg a m := by
    intro b hm
    obtain ⟨hm, hne⟩ := mem_dropBlock.mp hm
    obtain ⟨a, hin, hu, hp, hle⟩ := hb.block b hm
    exact ⟨a, fun he => hne (by rw [hp, he]), hin, hu, hp, hle⟩
  refine ⟨?_, fun b hm => ?_, fun a hin hu => ?_⟩
  · rw [List.map_cons, List.nodup_cons]
    refine ⟨fun hm => ?_, hb.nodup.sublist (List.Sublist.map _ List.filter_sublist)⟩
    obtain ⟨b, hm, he⟩ := List.mem_map.mp hm
    obtain ⟨a, hax, hin, hu, hp, -⟩ := hkeep b hm
    have hay : a = y := by
      have he' : b.1 = y + itemSize cfg := he
      omega
    rcases hy with rfl | hy
    · exact hax hay
    · exact hy (hay ▸ ⟨hin, hu⟩)
  · rcases List.mem_cons.mp hm with rfl | hm
    · obtain ⟨hin, hu⟩ := (hused y).mpr (.inl rfl)
      exact ⟨y, hin, hu, rfl, hholds⟩
    · obtain ⟨a, hax, hin, hu, hp, hle⟩ := hkeep b hm
      obtain ⟨hin', hu'⟩ := (hused a).mpr (.inr ⟨hax, hin, hu⟩)
      exact ⟨a, hin', hu', hp, by rw [hnext a hax hin hu]; exact hle⟩
  · rcases (hused a).mp ⟨hin, hu⟩ with rfl | ⟨hax, hin, hu⟩
    · exact ⟨_, List.mem_cons_self, rfl⟩
    · obtain ⟨b, hm, hp⟩ := hb.owner a hin hu
      refine ⟨b, List.mem_cons_of_mem _ (mem_dropBlock.mpr ⟨hm, fun he => hax ?_⟩), hp⟩
      omega

/-! ## The calls -/

section Calls

variable (hs : Shape cfg d heap start size (heapView cfg heap m) items frees none)
  (ha : HeapArea cfg d heap start size)

include hs ha

/-- The pointer of a used header, and back. -/
theorem Shape.pointer (hx : x ∈ items) (hu : x ∉ frees) :
    itemToData cfg x = x + itemSize cfg ∧ dataToItem cfg (x + itemSize cfg) = x := by
  obtain ⟨l, y, r, rfl⟩ := hs.exists_next hx hu (by simp)
  have hy := hs.laid.inside y (by simp)
  have hsorted := hs.laid.sorted
  have hpool := ha.pool
  have hpos := itemSize_pos cfg
  simp only [List.pairwise_append, List.pairwise_cons, List.mem_cons] at hsorted
  have hxy := hsorted.2.1.1 y (.inl rfl)
  unfold itemToData dataToItem u32 u32Sub
  omega

/-- `_memheap_alloc` returns; without a block when no free block is large enough.
kernel/nd_memheap.c:102-138 -/
theorem Shape.alloc (hfit : AllocFits cfg d heap (start + size) v m) :
    (memheapAlloc cfg heap v m = some (m, none) ∧ ∀ x ∈ frees, itemDataSize cfg x m < v) ∨
      ∃ x m' items' frees', memheapAlloc cfg heap v m = some (m', some (x + itemSize cfg)) ∧
        x ∈ frees ∧
        Taken cfg d heap start size x v (heapView cfg heap m) items frees
          (heapView cfg heap m') items' frees' ∧
        Contents cfg x v (heapView cfg heap m) items frees m m' ∧
        (heapView cfg heap m').balance cfg frees' = (heapView cfg heap m).balance cfg frees := by
  have hfound := hs.fittingItem_eq (v := v) ha
  unfold AllocFits at hfit
  unfold memheapAlloc
  rw [hfound] at hfit ⊢
  cases hx : frees.find? (fun b => v ≤ itemDataSize cfg b m) with
  | none =>
    refine .inl ⟨rfl, fun x hm => ?_⟩
    have hno := List.find?_eq_none.mp hx x hm
    simpa using hno
  | some x =>
    rw [hx] at hfit
    have hmem := List.mem_of_find?_eq_some hx
    have hlarge : v ≤ itemDataSize cfg x m := by simpa using List.find?_some hx
    right
    have hcut : ∃ items' frees', Taken cfg d heap start size x v (heapView cfg heap m) items frees
        (heapView cfg heap (takeItem cfg heap x v m)) items' frees' ∧
        Contents cfg x v (heapView cfg heap m) items frees m (takeItem cfg heap x v m) ∧
        (heapView cfg heap (takeItem cfg heap x v m)).balance cfg frees' =
          (heapView cfg heap m).balance cfg frees := by
      simp only [CutFits] at hfit
      by_cases hsplit : splits cfg x v m = true
      · rw [if_pos hsplit] at hfit
        exact hs.cutItem ha hmem hsplit hfit.1 hfit.2
      · rw [if_neg hsplit] at hfit
        exact hs.wholeItem ha hmem hlarge (by simpa using hsplit) hfit
    obtain ⟨items', frees', ht, hc, hb⟩ := hcut
    refine ⟨x, _, items', frees', ?_, hmem, ht, hc, hb⟩
    rw [Option.map_some]
    simp only [(ht.shape.pointer ha ht.used.1 ht.used.2).1]

/-- `_memheap_free` returns, and the block of `x` is free.
kernel/nd_memheap.c:140-147 -/
theorem Shape.free_block (hx : x ∈ items) (hu : x ∉ frees) :
    ∃ m' items' frees', memheapFree cfg (x + itemSize cfg) m = some m' ∧
      Shape cfg d heap start size (heapView cfg heap m') items' frees' none ∧
      (∀ a, a ∈ items' ∧ a ∉ frees' ↔ a ≠ x ∧ a ∈ items ∧ a ∉ frees) ∧
      (∀ a, a ≠ x → a ∈ items → a ∉ frees → itemNext cfg a m' = itemNext cfg a m) ∧
      (∀ a, a ∈ items → a ∉ frees → a ≠ x →
        ∀ z, a + itemSize cfg ≤ z → z < itemNext cfg a m → m' z = m z) ∧
      (heapView cfg heap m').balance cfg frees' = (heapView cfg heap m).balance cfg frees := by
  obtain ⟨l, r, rfl⟩ := List.append_of_mem hx
  have hb := hs.laid.bases ha
  set bs := heap :: endItem cfg heap :: (l ++ x :: r) with hbsdef
  have hall : ∀ a ∈ bs, a ∈ bs := fun a hm => hm
  have hs' := ((shape_headers_iff hall).mpr hs).loosen hu
  obtain ⟨items', frees', hsc, hloose, ho, hin, hrest, hbal⟩ := hb.coalesce hs' ha hall
  have hbs' : ∀ a ∈ heap :: endItem cfg heap :: items', a ∈ bs := by
    intro a hm
    have hcases := hin a
    simp only [hbsdef, List.mem_cons] at hm ⊢
    tauto
  obtain ⟨hpool, hmagic⟩ := hs.owner x (by simp)
  have hfree : memheapFree cfg (x + itemSize cfg) m = some (memheapCoalesce cfg heap x m) := by
    unfold memheapFree
    rw [(hs.pointer ha hx hu).2]
    have hmagic' : hasMagic cfg x m = true := hmagic
    have hpool' : ItemField.pool.get cfg x m = heap := hpool
    simp only [hmagic', if_true, hpool']
  have hview := ho.view fun a hm => hall a (by simp [hbsdef, hm])
  have hcont : Contents cfg x 0 (heapView cfg heap m) (l ++ x :: r) frees m
      (memheapCoalesce cfg heap x m) :=
    hs.contents ha (fun a hm hf _ => ⟨hm, hf, by simp, rfl⟩)
      (fun _ => ⟨hx, hu, by simp, min_le_right _ _⟩) hrest
  refine ⟨_, items', frees', hfree, (shape_headers_iff hbs').mp hsc, fun a => ?_, hview.next,
    hcont.others, ?_⟩
  · by_cases hax : a = x
    · subst hax
      constructor
      · exact fun hm => absurd (hloose hm.1) hm.2
      · exact fun hm => absurd rfl hm.1
    · rw [ho.used a hax]
      exact ⟨fun hm => ⟨hax, hm⟩, fun hm => hm.2⟩
  · rw [← hsc.balance_view hbs', hbal, hs'.balance_view hall]

/-- Writes to the bytes of a used block leave the headers alone. -/
theorem Shape.write (hx : x ∈ items) (hu : x ∉ frees)
    (hm : ∀ z, z < x + itemSize cfg ∨ itemNext cfg x m ≤ z → m' z = m z) :
    Shape cfg d heap start size (heapView cfg heap m') items frees none ∧
      (∀ a ∈ heap :: endItem cfg heap :: items, itemNext cfg a m' = itemNext cfg a m) ∧
      availableSize cfg heap m' = availableSize cfg heap m := by
  have hsame : ∀ z, ¬ Outside cfg heap (heap :: endItem cfg heap :: items) z → m' z = m z := by
    intro z hz
    refine hm z ?_
    by_contra hin
    rw [not_or, not_lt, not_le] at hin
    exact hz (hs.outside ha hx hu (by simp) hin.1 hin.2)
  have hget : ∀ a ∈ heap :: endItem cfg heap :: items, ∀ f : ItemField,
      f.get cfg a m' = f.get cfg a m := by
    intro a ham f
    have hf := f.offset_le cfg
    have hpos := itemSize_pos cfg
    have hbyte : ∀ i < 4, m' (a + f.offset cfg + i) = m (a + f.offset cfg + i) := by
      intro i hi
      refine hsame _ fun hout => ?_
      have := hout.1 a ham
      omega
    unfold ItemField.get Bytes.load32
    rw [hbyte 1 (by decide), hbyte 2 (by decide), hbyte 3 (by decide),
      show m' (a + f.offset cfg) = m (a + f.offset cfg) from hbyte 0 (by decide)]
  have havail : availableSize cfg heap m' = availableSize cfg heap m := by
    have hbyte : ∀ i < 4, m' (availableAt cfg heap + i) = m (availableAt cfg heap + i) := by
      intro i hi
      refine hsame _ fun hout => ?_
      have := hout.2
      omega
    unfold availableSize Bytes.load32
    rw [hbyte 1 (by decide), hbyte 2 (by decide), hbyte 3 (by decide),
      show m' (availableAt cfg heap) = m (availableAt cfg heap) from hbyte 0 (by decide)]
  refine ⟨hs.congr fun a ham => ?_, fun a ham => ?_, havail⟩
  · simp only [heapView, itemNext, itemIsUsed, hasMagic, hget a ham, and_self]
  · simp only [itemNext, hget a ham]

end Calls

/-- The block of `x` becomes the block of `y`, with at least `v` bytes and with the bytes that it
had. -/
structure Moved (cfg : Config) (d heap start size x y v : ℕ) (m : Mem) (items frees : List ℕ)
    (m' : Mem) (items' frees' : List ℕ) : Prop where
  shape : Shape cfg d heap start size (heapView cfg heap m') items' frees' none
  used : ∀ a, a ∈ items' ∧ a ∉ frees' ↔ a = y ∨ a ≠ x ∧ a ∈ items ∧ a ∉ frees
  fresh : y = x ∨ ¬ (y ∈ items ∧ y ∉ frees)
  next : ∀ a, a ≠ x → a ∈ items → a ∉ frees → itemNext cfg a m' = itemNext cfg a m
  holds : y + itemSize cfg + v ≤ itemNext cfg y m'
  others : ∀ a ∈ items, a ∉ frees → a ≠ x →
    ∀ z, a + itemSize cfg ≤ z → z < itemNext cfg a m → m' z = m z
  copied : ∀ i, i < v → x + itemSize cfg + i < itemNext cfg x m →
    m' (y + itemSize cfg + i) = m (x + itemSize cfg + i)

/-- A block that stays where it is. -/
theorem Moved.in_place (ht : Taken cfg d heap start size x v (heapView cfg heap m) items frees
      (heapView cfg heap m') items' frees')
    (hc : Contents cfg x v (heapView cfg heap m) items frees m m') (hx : x ∈ items)
      (hu : x ∉ frees) :
    Moved cfg d heap start size x x v m items frees m' items' frees' where
  shape := ht.shape
  used a := by
    by_cases hax : a = x
    · subst hax
      simp [ht.used]
    · rw [ht.others.used a hax]
      simp [hax]
  fresh := .inl rfl
  next := ht.others.next
  holds := ht.holds
  others := hc.others
  copied i hi hlt := hc.own hu _ (by omega) (by omega) hlt

/-- A block that nothing is done to. -/
theorem Moved.refl (hs : Shape cfg d heap start size (heapView cfg heap m) items frees none)
    (hx : x ∈ items) (hu : x ∉ frees) (hv : x + itemSize cfg + v ≤ itemNext cfg x m) :
    Moved cfg d heap start size x x v m items frees m items frees where
  shape := hs
  used a := by
    by_cases hax : a = x
    · subst hax
      simp [hx, hu]
    · simp [hax]
  fresh := .inl rfl
  next _ _ _ _ := rfl
  holds := hv
  others _ _ _ _ _ _ _ := rfl
  copied _ _ _ := rfl

/-- A copy of `n` bytes within the memory. -/
theorem copy_apply {a b n z : ℕ} : Bytes.store m b (Bytes.load m a n) z =
    if b ≤ z ∧ z < b + n then m (a + (z - b)) else m z := by
  have hlen : (Bytes.load m a n).length = n := by simp [Bytes.load]
  unfold Bytes.store
  rw [hlen]
  by_cases hz : b ≤ z ∧ z < b + n
  · rw [if_pos hz, if_pos hz]
    have hi : z - b < n := by omega
    simp [Bytes.load, List.getD_eq_getElem?_getD, hi]
  · rw [if_neg hz, if_neg hz]

/-- The next header is not behind a header that is further on. -/
theorem Shape.next_le (hs : Shape cfg d heap start size (heapView cfg heap m) items frees none)
    (hx : x ∈ items) (hu : x ∉ frees) (hy : y ∈ items) (hlt : x < y) : itemNext cfg x m ≤ y := by
  obtain ⟨l, w, r, rfl⟩ := hs.exists_next hx hu (by simp)
  have hnext : itemNext cfg x m = w := hs.next_eq
  have hsorted := hs.laid.sorted
  have hpos := itemSize_pos cfg
  simp only [List.pairwise_append, List.pairwise_cons, List.mem_cons] at hsorted
  simp only [List.mem_append, List.mem_cons] at hy
  rcases hy with hy | rfl | rfl | hy
  · have := hsorted.2.2 y hy x (.inl rfl)
    omega
  · omega
  · omega
  · have := hsorted.2.1.2.1 y hy
    omega

/-- A block that has to move.
kernel/nd_memheap.c:272-288 -/
theorem Shape.move (hs : Shape cfg d heap start size (heapView cfg heap m) items frees none)
    (ha : HeapArea cfg d heap start size) (hx : x ∈ items) (hu : x ∉ frees)
    (hmore : itemDataSize cfg x m < v) (hfit : AllocFits cfg d heap (start + size) v m) :
    ∃ m' ret, moveBlock cfg heap (x + itemSize cfg) v (itemDataSize cfg x m) m = some (m', ret) ∧
      (ret = none ∧ m' = m ∨
        ∃ y items' frees', ret = some (y + itemSize cfg) ∧
          Moved cfg d heap start size x y v m items frees m' items' frees' ∧
          (heapView cfg heap m').balance cfg frees' = (heapView cfg heap m).balance cfg frees) := by
  unfold moveBlock
  rcases hs.alloc ha hfit with ⟨hnone, -⟩ | ⟨y, m₁, items₁, frees₁, hsome, hy, ht, hc, hbal₁⟩
  · rw [hnone]
    exact ⟨m, none, rfl, .inl ⟨rfl, rfl⟩⟩
  rw [hsome]
  simp only
  have hyx : x ≠ y := fun he => hu (he ▸ hy)
  obtain ⟨hx₁, hu₁⟩ := (ht.others.used x hyx).mpr ⟨hx, hu⟩
  obtain ⟨hy₁, hyu₁⟩ := ht.used
  have hholds : y + itemSize cfg + v ≤ itemNext cfg y m₁ := ht.holds
  set block := itemDataSize cfg x m with hblock
  obtain ⟨m₂, hm₂⟩ : ∃ m₂, m₂ = Bytes.store m₁ (y + itemSize cfg)
      (Bytes.load m₁ (x + itemSize cfg) block) :=
    ⟨_, rfl⟩
  have happly : ∀ z, m₂ z = if y + itemSize cfg ≤ z ∧ z < y + itemSize cfg + block then
      m₁ (x + itemSize cfg + (z - (y + itemSize cfg))) else m₁ z := fun z => by
    rw [hm₂, copy_apply]
  have hother : ∀ z, z < y + itemSize cfg ∨ itemNext cfg y m₁ ≤ z → m₂ z = m₁ z := fun z hz => by
    rw [happly, if_neg (by omega)]
  obtain ⟨hs₂, hnext₂, havail₂⟩ := ht.shape.write ha hy₁ hyu₁ hother
  obtain ⟨m₃, items₃, frees₃, hfree, hs₃, hused₃, hnext₃, hothers₃, hbal₃⟩ :=
    hs₂.free_block ha hx₁ hu₁
  have hmem : ∀ {a : ℕ}, a ∈ items₁ → a ∈ heap :: endItem cfg heap :: items₁ := fun h => by simp [h]
  rw [← hm₂, hfree]
  -- a used block other than `x` through the three steps
  have hthrough : ∀ a, a ≠ x → a ∈ items → a ∉ frees → a ≠ y ∧ a ∈ items₁ ∧ a ∉ frees₁ ∧
      itemNext cfg a m₁ = itemNext cfg a m := by
    intro a hax hm hf
    have hay : a ≠ y := fun he => hf (he ▸ hy)
    obtain ⟨hm₁, hf₁⟩ := (ht.others.used a hay).mpr ⟨hm, hf⟩
    exact ⟨hay, hm₁, hf₁, ht.others.next a hay hm hf⟩
  refine ⟨m₃, _, rfl, .inr ⟨y, items₃, frees₃, rfl, ?_, ?_⟩⟩
  · refine
      { shape := hs₃, used := fun a => ?_, fresh := .inr fun hyu => hyu.2 hy,
        next := fun a hax hm hf => ?_, holds := ?_, others := fun a hm hf hax z hz hz' => ?_,
        copied := fun i hi hlt => ?_ }
    · rw [hused₃ a]
      by_cases hay : a = y
      · subst hay
        simp [hyx.symm, hy₁, hyu₁]
      · rw [ht.others.used a hay]
        simp [hay]
    · obtain ⟨hay, hm₁, hf₁, hn₁⟩ := hthrough a hax hm hf
      rw [hnext₃ a hax hm₁ hf₁, hnext₂ a (hmem hm₁), hn₁]
    · rw [hnext₃ y hyx.symm hy₁ hyu₁, hnext₂ y (hmem hy₁)]
      exact hholds
    · obtain ⟨hay, hm₁, hf₁, hn₁⟩ := hthrough a hax hm hf
      rw [hothers₃ a hm₁ hf₁ hax z hz (by rw [hnext₂ a (hmem hm₁), hn₁]; exact hz'), happly, if_neg]
      · exact hc.others a hm hf hay z hz hz'
      · rcases Nat.lt_or_gt_of_ne hay with hlt | hlt
        · have hle := ht.shape.next_le hm₁ hf₁ hy₁ hlt
          omega
        · have hle := ht.shape.next_le hy₁ hyu₁ hm₁ hlt
          omega
    · have hin : i < block := by
        obtain ⟨l, w, r, rfl⟩ := hs.exists_next hx hu (by simp)
        have hw := hs.dataSize_eq ha
        have hnext : itemNext cfg x m = w := hs.next_eq
        omega
      rw [hothers₃ y hy₁ hyu₁ hyx.symm _ (by omega) (by rw [hnext₂ y (hmem hy₁)]; omega), happly,
        if_pos (by omega)]
      rw [Nat.add_sub_cancel_left]
      exact hc.others x hx hu hyx _ (by omega) hlt
  · rw [hbal₃, ← hbal₁]
    refine balance_congr havail₂ fun a hm => hnext₂ a (hmem (ht.shape.listed a hm).1)

/-- `nd_memheap_realloc` returns, and the block has moved or stayed with its bytes; without a block
nothing has changed. The counter stays exact when the block does not swallow its neighbour.
kernel/nd_memheap.c:214-289 -/
theorem Shape.resize {exact : Bool}
    (hs : Shape cfg d heap start size (heapView cfg heap m) items frees none)
    (ha : HeapArea cfg d heap start size) (hx : x ∈ items) (hu : x ∉ frees)
    (hfit : ResizeFits cfg d heap (start + size) exact (x + itemSize cfg) v m) :
    ∃ m' ret, ndMemheapRealloc cfg heap (some (x + itemSize cfg)) v m = some (m', ret) ∧
      (ret = none ∧ m' = m ∨
        ∃ y items' frees', ret = some (y + itemSize cfg) ∧
          Moved cfg d heap start size x y v m items frees m' items' frees' ∧
          (exact = true →
            (heapView cfg heap m').balance cfg frees' = (heapView cfg heap m).balance cfg frees))
              := by
  obtain ⟨l, w, r, rfl⟩ := hs.exists_next hx hu (by simp)
  have hdata := hs.dataSize_eq ha
  have hnext : itemNext cfg x m = w := hs.next_eq
  have hitem := (hs.pointer ha hx hu).2
  have hmagic : hasMagic cfg x m = true := (hs.owner x hx).2
  unfold ResizeFits at hfit
  unfold ndMemheapRealloc
  simp only [hitem, hmagic, hnext] at hfit ⊢
  rw [if_neg (by decide)]
  by_cases hsame : v = itemDataSize cfg x m
  · rw [if_pos hsame]
    exact ⟨m, _, rfl, .inr ⟨x, _, frees, rfl, .refl hs hx hu (by omega), fun _ => rfl⟩⟩
  rw [if_neg hsame]
  by_cases hless : v < itemDataSize cfg x m
  · rw [if_pos hless]
    rw [if_pos hless.le] at hfit
    by_cases hroom : itemSize cfg ≤ itemDataSize cfg x m - v
    · rw [if_pos hroom]
      obtain ⟨items', frees', ht, hc, hbal⟩ :=
        hs.shrinkItem (v := v) ha hx hu (by omega) (hfit (by omega))
      exact ⟨_, _, rfl, .inr ⟨x, items', frees', rfl, .in_place ht hc hx hu, fun _ => hbal⟩⟩
    · rw [if_neg hroom]
      exact ⟨m, _, rfl, .inr ⟨x, _, frees, rfl, .refl hs hx hu (by omega), fun _ => rfl⟩⟩
  rw [if_neg hless]
  rw [if_neg (by omega)] at hfit
  by_cases hgrow : itemIsFree cfg w m = true ∧
      v ≤ u32 (itemDataSize cfg x m + itemSize cfg + itemDataSize cfg w m)
  · rw [if_pos hgrow]
    rw [if_pos hgrow] at hfit
    have hw : w ∈ frees := by
      refine (hs.used_iff ha (by simp) (by simp)).mp ?_
      have hfree := hgrow.1
      rw [itemIsFree, Bool.not_eq_true'] at hfree
      exact hfree
    unfold GrowFits at hfit
    by_cases hsplit : v + itemSize cfg ≤ itemDataSize cfg x m + itemDataSize cfg w m
    · rw [if_pos hsplit] at hfit
      obtain ⟨items', frees', ht, hc, hbal⟩ :=
        hs.growItem ha hu hw (by omega) hsplit hfit.1 hfit.2
      exact ⟨_, _, rfl, .inr ⟨x, items', frees', rfl, .in_place ht hc hx hu, fun _ => hbal⟩⟩
    · rw [if_neg hsplit] at hfit
      obtain ⟨hexact, hle, hin⟩ := hfit
      -- the last block would lead out of the heap
      obtain ⟨z, r, rfl⟩ : ∃ z r', r = z :: r' := by
        cases r with
        | nil =>
          have h := hs
          rw [show l ++ [x, w] = (l ++ [x]) ++ [w] by simp] at h
          have hlast := h.dataSize_last ha
          have hpos := itemSize_pos cfg
          omega
        | cons z r => exact ⟨z, r, rfl⟩
      obtain ⟨items', frees', ht, hc⟩ := hs.absorbItem ha hu hw hle (by omega)
      refine ⟨_, _, rfl, .inr ⟨x, items', frees', rfl, .in_place ht hc hx hu, fun he => ?_⟩⟩
      rw [hexact] at he
      cases he
  · rw [if_neg hgrow]
    rw [if_neg hgrow] at hfit
    obtain ⟨m', ret, hmove, hcases⟩ := hs.move ha hx hu (by omega) hfit
    refine ⟨m', ret, hmove, hcases.imp_right ?_⟩
    rintro ⟨y, items', frees', hret, hmoved, hbal⟩
    exact ⟨y, items', frees', hret, hmoved, fun _ => hbal⟩

/-! ## Runs -/

/-- A heap in use. -/
structure HeapOk (cfg : Config) (d heap start size : ℕ) (s : Heap) (items frees : List ℕ) :
    Prop where
  shape : Shape cfg d heap start size (heapView cfg heap s.mem) items frees none
  blocks : LiveBlocks cfg s.mem items frees s.live

/-- A call that leaves the memory and the blocks alone. -/
theorem HeapOk.unchanged {s : Heap} (h : HeapOk cfg d heap start size s items frees)
    {live : List (ℕ × ℕ)} (hl : live = s.live) :
    HeapOk cfg d heap start size ⟨s.mem, live⟩ items frees :=
  ⟨h.shape, hl ▸ h.blocks⟩

/-- A block is handed out. -/
theorem HeapOk.grant {s : Heap} (h : HeapOk cfg d heap start size s items frees) (hx : x ∈ frees)
    (ht : Taken cfg d heap start size x v (heapView cfg heap s.mem) items frees
      (heapView cfg heap m') items' frees') :
    HeapOk cfg d heap start size ⟨m', (x + itemSize cfg, v) :: s.live⟩ items' frees' := by
  have hnone : dropBlock (some (x + itemSize cfg)) s.live = s.live := by
    refine List.filter_eq_self.mpr fun b hm => ?_
    obtain ⟨a, -, hu, hb, -⟩ := h.blocks.block b hm
    simp only [ne_eq, Option.some.injEq, decide_not, Bool.not_eq_true', decide_eq_false_iff_not]
    intro he
    have hax : a = x := by omega
    exact hu (hax ▸ hx)
  refine ⟨ht.shape, ?_⟩
  have hchange : LiveBlocks cfg m' items' frees'
      ((x + itemSize cfg, v) :: dropBlock (some (x + itemSize cfg)) s.live) :=
    h.blocks.change (fun a => ?_) ht.others.next (.inl rfl) ht.holds
  · rw [hnone] at hchange
    exact hchange
  · by_cases hax : a = x
    · subst hax
      simp [ht.used]
    · rw [ht.others.used a hax]
      simp [hax]

/-- A block is given back. -/
theorem HeapOk.drop {s : Heap} (h : HeapOk cfg d heap start size s items frees)
    (hs' : Shape cfg d heap start size (heapView cfg heap m') items' frees' none)
    (hused : ∀ a, a ∈ items' ∧ a ∉ frees' ↔ a ≠ x ∧ a ∈ items ∧ a ∉ frees)
    (hnext : ∀ a, a ≠ x → a ∈ items → a ∉ frees → itemNext cfg a m' = itemNext cfg a s.mem) :
    HeapOk cfg d heap start size ⟨m', dropBlock (some (x + itemSize cfg)) s.live⟩ items'
      frees' := by
  refine ⟨hs', h.blocks.nodup.sublist (List.Sublist.map _ List.filter_sublist), fun b hm => ?_,
    fun a hin hu => ?_⟩
  · obtain ⟨hm, hne⟩ := mem_dropBlock.mp hm
    obtain ⟨a, hin, hu, hp, hle⟩ := h.blocks.block b hm
    have hax : a ≠ x := fun he => hne (by rw [hp, he])
    obtain ⟨hin', hu'⟩ := (hused a).mpr ⟨hax, hin, hu⟩
    exact ⟨a, hin', hu', hp, by rw [hnext a hax hin hu]; exact hle⟩
  · obtain ⟨hax, hin, hu⟩ := (hused a).mp ⟨hin, hu⟩
    obtain ⟨b, hm, hp⟩ := h.blocks.owner a hin hu
    refine ⟨b, mem_dropBlock.mpr ⟨hm, fun he => hax ?_⟩, hp⟩
    omega

/-- One call: it returns, and the heap is in use with the blocks that are then handed out. -/
theorem HeapOk.step {s : Heap} {op : HeapOp} {exact : Bool}
    (h : HeapOk cfg d heap start size s items frees)
    (ha : HeapArea cfg d heap start size) (hvalid : op.valid s = true)
    (hfit : op.Fits cfg d heap (start + size) exact s) :
    (heapResult cfg heap op s.mem).isSome = true ∧
      ∃ items' frees', HeapOk cfg d heap start size (heapNext cfg heap op s) items' frees' ∧
        (exact = true → (heapView cfg heap (heapNext cfg heap op s).mem).balance cfg frees' =
          (heapView cfg heap s.mem).balance cfg frees) := by
  have hs := h.shape
  have hlive : ∀ p, (s.live.any fun b => b.1 = p) = true → ∃ x, x ∈ items ∧ x ∉ frees ∧
      p = x + itemSize cfg := by
    intro p hp
    obtain ⟨b, hm, hb⟩ := List.any_eq_true.mp hp
    obtain ⟨x, hx, hu, hbx, -⟩ := h.blocks.block b hm
    have hbp : b.1 = p := by simpa using hb
    exact ⟨x, hx, hu, hbp ▸ hbx⟩
  have hdrop : dropBlock none s.live = s.live := List.filter_eq_self.mpr fun b _ => by simp
  -- the two calls that allocate
  have halloc : ∀ v, AllocFits cfg d heap (start + size) v s.mem →
      ∃ m' ret, memheapAlloc cfg heap v s.mem = some (m', ret) ∧
        ∃ items' frees', HeapOk cfg d heap start size
          ⟨m', match ret with
            | some p => (p, v) :: s.live
            | none => s.live⟩ items' frees' ∧
          (heapView cfg heap m').balance cfg frees' =
              (heapView cfg heap s.mem).balance cfg frees := by
    intro v hv
    rcases hs.alloc ha hv with ⟨hnone, -⟩ | ⟨x, m', items', frees', hsome, hx, ht, -, hbal⟩
    · exact ⟨_, _, hnone, items, frees, h, rfl⟩
    · exact ⟨_, _, hsome, items', frees', h.grant hx ht, hbal⟩
  cases op with
  | alloc v =>
    obtain ⟨m', ret, hret, items', frees', hok, hbal⟩ := halloc v hfit
    have hres : heapResult cfg heap (.alloc v) s.mem = some (m', ret) := hret
    unfold heapNext
    rw [hres]
    refine ⟨rfl, items', frees', ?_, fun _ => hbal⟩
    cases ret <;> exact hok
  | free ptr =>
    cases ptr with
    | none =>
      have hkeep : dropBlock none s.live = s.live := hdrop
      exact ⟨rfl, items, frees, h.unchanged hkeep, fun _ => rfl⟩
    | some p =>
      obtain ⟨x, hx, hu, rfl⟩ := hlive p hvalid
      obtain ⟨m', items', frees', hfree, hs', hused, hnext, -, hbal⟩ := hs.free_block ha hx hu
      have hres : heapResult cfg heap (.free (some (x + itemSize cfg))) s.mem = some
          (m', none) := by
        unfold heapResult ndMemheapFree
        simp only [hfree, Option.map_some]
      unfold heapNext
      rw [hres]
      exact ⟨rfl, items', frees', h.drop hs' hused hnext, fun _ => hbal⟩
  | realloc ptr v =>
    cases ptr with
    | none =>
      obtain ⟨m', ret, hret, items', frees', hok, hbal⟩ := halloc v hfit
      have hres : heapResult cfg heap (.realloc none v) s.mem = some (m', ret) := hret
      unfold heapNext
      rw [hres]
      refine ⟨rfl, items', frees', ?_, fun _ => hbal⟩
      cases ret with
      | none => exact hok
      | some p =>
        unfold heapLive
        simp only [hdrop]
        exact hok
    | some p =>
      rw [HeapOp.valid, Bool.and_eq_true] at hvalid
      obtain ⟨x, hx, hu, rfl⟩ := hlive p hvalid.2
      obtain ⟨m', ret, hret, hcases⟩ := hs.resize ha hx hu hfit
      have hres : heapResult cfg heap (.realloc (some (x + itemSize cfg)) v) s.mem = some
        (m', ret) := hret
      unfold heapNext
      rw [hres]
      refine ⟨rfl, ?_⟩
      rcases hcases with ⟨rfl, rfl⟩ | ⟨y, items', frees', rfl, hmoved, hbal⟩
      · exact ⟨items, frees, h, fun _ => rfl⟩
      · exact ⟨items', frees', ⟨hmoved.shape,
          h.blocks.change hmoved.used hmoved.next hmoved.fresh hmoved.holds⟩, hbal⟩
  | write addr w =>
    obtain ⟨b, hm, hin⟩ := List.any_eq_true.mp hvalid
    obtain ⟨x, hx, hu, hbx, hle⟩ := h.blocks.block b hm
    rw [Bool.and_eq_true, decide_eq_true_eq, decide_eq_true_eq] at hin
    have hother : ∀ z, z < x + itemSize cfg ∨ itemNext cfg x s.mem ≤ z →
        Function.update s.mem addr w z = s.mem z := fun z hz => by
      rw [Function.update_of_ne]
      omega
    obtain ⟨hs', hnext, havail⟩ := hs.write ha hx hu hother
    have hnext' : ∀ a ∈ items, itemNext cfg a (Function.update s.mem addr w) =
        itemNext cfg a s.mem :=
      fun a ham => hnext a (by simp [ham])
    refine ⟨rfl, items, frees, ⟨hs', h.blocks.nodup, fun c hc => ?_, h.blocks.owner⟩, fun _ => ?_⟩
    · obtain ⟨a, ham, hau, hca, hcle⟩ := h.blocks.block c hc
      exact ⟨a, ham, hau, hca, hcle.trans_eq (hnext' a ham).symm⟩
    · exact balance_congr havail fun a ham => hnext' a (hs.listed a ham).1

/-- What `nd_memheap_init` writes besides the headers. -/
def initControl (cfg : Config) (heap startAddr n : ℕ) (m : Mem) : Mem :=
  let control := heap + 2 * itemSize cfg
  let waitList := control + 12
  let m := Bytes.store32 m control startAddr
  let m := Bytes.store32 m (control + 4) n
  let m := Bytes.store32 m (availableAt cfg heap) (u32Sub n (itemSize cfg))
  let m := Bytes.store32 m waitList waitList
  Bytes.store32 m (waitList + 4) waitList

/-- The headers that `nd_memheap_init` writes.
kernel/nd_memheap.c:149-185 -/
theorem Bases.headers_init (hb : Bases cfg heap [heap, endItem cfg heap, start]) (n : ℕ) (m : Mem) :
    headers cfg heap [heap, endItem cfg heap, start] (ndMemheapInit cfg heap start n m) =
      let h := headers cfg heap [heap, endItem cfg heap, start] (initControl cfg heap start n m)
      let e := endItem cfg heap
      { h with
        phys :=
          { next := update (update (update h.phys.next heap start) start e) e heap
            prev := update (update (update h.phys.prev heap start) start heap) e start }
        free :=
          { next := update (update h.free.next heap start) start heap
            prev := update (update h.free.prev heap start) start heap }
        used := update (update (update h.used heap true) start false) e true
        pool := update (update (update h.pool heap heap) start heap) e heap
        magic := update (update (update h.magic heap true) start true) e true } := by
  have hmh : heap ∈ [heap, endItem cfg heap, start] := by simp
  have hme : endItem cfg heap ∈ [heap, endItem cfg heap, start] := by simp
  have hms : start ∈ [heap, endItem cfg heap, start] := by simp
  have hwh := hb.word _ hmh
  have hwe := hb.word _ hme
  have hws := hb.word _ hms
  have hbit : ∀ {a : ℕ}, 2 ∣ a → decide (a &&& 1 = 1) = false := by
    intro a ha
    rw [and_one, decide_eq_false_iff_not]
    omega
  have hinit : ndMemheapInit cfg heap start n m =
      let m := initControl cfg heap start n m
      let m := itemInit cfg heap heap m
      let m := ItemField.next.set cfg heap start m
      let m := ItemField.prev.set cfg heap start m
      let m := ItemField.nextFree.set cfg heap start m
      let m := ItemField.prevFree.set cfg heap start m
      let m := itemSetUsed cfg heap m
      let m := itemInit cfg start heap m
      let m := ItemField.next.set cfg start (endItem cfg heap) m
      let m := ItemField.prev.set cfg start heap m
      let m := ItemField.nextFree.set cfg start heap m
      let m := ItemField.prevFree.set cfg start heap m
      let m := itemInit cfg (endItem cfg heap) heap m
      let m := ItemField.next.set cfg (endItem cfg heap) heap m
      let m := ItemField.prev.set cfg (endItem cfg heap) start m
      itemSetUsed cfg (endItem cfg heap) m := rfl
  rw [hinit]
  simp only
  rw [hb.headers_setUsed hme, hb.headers_set hme hws (by simp), hb.headers_set hme hwh (by simp),
    hb.headers_itemInit hme hwh, hb.headers_set hms hwh (by simp), hb.headers_set hms hwh (by simp),
    hb.headers_set hms hwh (by simp), hb.headers_set hms hwe (by simp), hb.headers_itemInit hms hwh,
    hb.headers_setUsed hmh, hb.headers_set hmh hws (by simp), hb.headers_set hmh hws (by simp),
    hb.headers_set hmh hws (by simp), hb.headers_set hmh hws (by simp), hb.headers_itemInit hmh hwh]
  simp only [Headers.write, clearLowBit_of_even (hb.even _ hmh),
    clearLowBit_of_even (hb.even _ hme),
    clearLowBit_of_even (hb.even _ hms), hbit (hb.even _ hmh), hbit (hb.even _ hme),
    hbit (hb.even _ hms), Function.update_idem]

/-- `nd_memheap_init` sets up a heap of one free block. -/
theorem HeapOk.init (ha : HeapArea cfg d heap start size) (n : ℕ) (m : Mem) :
    HeapOk cfg d heap start size ⟨ndMemheapInit cfg heap start n m, []⟩ [start] [start] := by
  have hlaid : Laid cfg d start size [start] := by
    refine ⟨rfl, fun a hm => ?_, fun a hm => ?_, List.pairwise_singleton _ _⟩
    · have hroom := ha.room
      rw [List.mem_singleton.mp hm]
      omega
    · rw [List.mem_singleton.mp hm]
      exact ha.startAligned
  have hb := hlaid.bases ha
  obtain ⟨hheap, hend, hne⟩ := hlaid.ends_notMem ha
  rw [List.mem_singleton] at hheap hend
  refine ⟨?_, List.nodup_nil, fun b hm =>
    by simp at hm, fun a hm hf => absurd hm (by simpa using hf)⟩
  rw [← shape_headers_iff fun a hm => hm, hb.headers_init]
  refine
    { laid := hlaid, phys := ?_, free := ?_, nodup := List.nodup_singleton _,
      listed := fun a hm => ⟨hm,
        by simp⟩, flags := fun a hm _ => ?_, ends := ?_, owner := fun a hm => ?_,
      spaced := List.isChain_singleton _, last := ⟨start, rfl, .inl (by simp)⟩ }
  · simp [Links.Seg, hne, Ne.symm hend, hheap]
  · simp [Links.Seg, hheap]
  · rw [List.mem_singleton.mp hm]
    simp [Ne.symm hend]
  · simp [hne, hheap]
  · rw [List.mem_singleton.mp hm]
    simp [Ne.symm hend]

/-- A heap in every run whose calls fit. -/
theorem heapOk_path {exact : Bool} {n : ℕ} {s : Heap} (ha : HeapArea cfg d heap start size)
    (h : (heapMachine cfg heap start n).Path (fun s op => op.Fits cfg d heap (start + size) exact s)
      ⟨ndMemheapInit cfg heap start n m, []⟩ s) :
    ∃ items frees, HeapOk cfg d heap start size s items frees ∧
      (exact = true → (heapView cfg heap s.mem).balance cfg frees =
        (heapView cfg heap (ndMemheapInit cfg heap start n m)).balance cfg [start]) := by
  induction h with
  | refl => exact ⟨[start], [start], .init ha n m, fun _ => rfl⟩
  | step op hs he hc ih =>
    obtain ⟨items, frees, hok, hbal⟩ := ih
    obtain ⟨-, items', frees', hok', hbal'⟩ := hok.step ha he.1 hc
    exact ⟨items', frees', hok', fun hx => (hbal' hx).trans (hbal hx)⟩

end NerdRtos
