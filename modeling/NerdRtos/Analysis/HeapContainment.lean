import NerdRtos.Analysis.HeapRuns

/-!
# Containment

The last block of a pool ends where `end_item` is, a field of the control block, and not where the
pool ends. So no heap keeps its blocks in its pool: the first request may already be larger than it.
-/

set_option autoImplicit false

namespace NerdRtos

open Bytes (Mem Apart)

variable {cfg : Config} {heap start size x y v : ℕ} {bs : List ℕ} {f g : ItemField} {m : Mem}

/-- The size that a call asks for. -/
def HeapOp.request : HeapOp → Option ℕ
  | .alloc n | .realloc _ n => some n
  | _ => none

/-- Every pointer that a call returns for `n` bytes has them in the pool. -/
def Contained (cfg : Config) (heap start size : ℕ) : Prop :=
  ∀ s op n m p, (heapMachine cfg heap start size).Reach Machine.Always s →
    (heapMachine cfg heap start size).enabled s op → op.request = some n →
    heapResult cfg heap op s.mem = some (m, some p) → start ≤ p ∧ p + n ≤ start + size

/-- The control block and the pool lie apart in the address space, and the pool has room for a
header. -/
structure HeapPlaced (cfg : Config) (heap start size : ℕ) : Prop where
  room : itemSize cfg ≤ size
  control : heap + heapSize cfg ≤ 2 ^ 32
  pool : start + size ≤ 2 ^ 32
  apart : heap + heapSize cfg ≤ start ∨ start + size ≤ heap

/-! ## What `nd_memheap_init` leaves in the headers -/

/-- A field holds what was written to it. -/
theorem get_set_self (hv : v < 2 ^ 32) : f.get cfg x (f.set cfg x v m) = v :=
  Bytes.load32_store32 _ _ _ hv

/-- A field is left alone by a write to another header or another field. -/
theorem get_set_other (h : Apart (itemSize cfg) x y ∨ x = y ∧ f.offset cfg ≠ g.offset cfg) :
    f.get cfg x (g.set cfg y v m) = f.get cfg x m := by
  have hf := f.offset_le cfg
  have hg := g.offset_le cfg
  have happ := f.offset_apart cfg g
  unfold Apart at h
  exact Bytes.load32_store32_of_disjoint _ _ (by omega)

/-- Fields other than `magic` and `pool` are not touched by `item_init`. -/
theorem get_itemInit (h : Apart (itemSize cfg) x y ∨ x = y) (hp : f ≠ .pool) (hm : f ≠ .magic) :
    f.get cfg x (itemInit cfg y heap m) = f.get cfg x m := by
  have hpool : Apart (itemSize cfg) x y ∨ x = y ∧ f.offset cfg ≠ ItemField.pool.offset cfg :=
    h.imp_right fun he => ⟨he, ItemField.offset_inj hp (.inr ⟨hm, by decide⟩)⟩
  unfold itemInit
  simp only
  rw [get_set_other hpool]
  split
  · rename_i hd
    exact get_set_other (h.imp_right fun he => ⟨he, ItemField.offset_inj hm (.inl hd)⟩)
  · rfl

/-- `nd_memheap_init` puts the pool's first header on the free list, up to `end_item`.
kernel/nd_memheap.c:165-176 -/
theorem HeapPlaced.init (h : HeapPlaced cfg heap start size) (n : ℕ) (m : Mem) :
    ItemField.nextFree.get cfg heap (ndMemheapInit cfg heap start n m) = start ∧
      ItemField.next.get cfg start (ndMemheapInit cfg heap start n m) = endItem cfg heap := by
  have hpos := itemSize_pos cfg
  have hroom := h.room
  have hcontrol := h.control
  have hpool := h.pool
  have happ := h.apart
  unfold heapSize at hcontrol happ
  have hhe : Apart (itemSize cfg) heap (endItem cfg heap) := .inl le_rfl
  have hhs : Apart (itemSize cfg) heap start := by
    unfold Apart
    omega
  have hse : Apart (itemSize cfg) start (endItem cfg heap) := by
    unfold Apart endItem
    omega
  have hoff : ∀ {f g : ItemField}, f ≠ g → f ≠ .magic → g ≠ .magic →
      f.offset cfg ≠ g.offset cfg := fun hne hf hg => ItemField.offset_inj hne (.inr ⟨hf, hg⟩)
  have hsh : Apart (itemSize cfg) start heap := Or.symm hhs
  unfold ndMemheapInit startItem itemSetUsed
  simp only
  constructor
  · rw [get_set_other (.inl hhe), get_set_other (.inl hhe), get_set_other (.inl hhe),
      get_itemInit (.inl hhe) (by decide) (by decide), get_set_other (.inl hhs),
      get_set_other (.inl hhs),
      get_set_other (.inl hhs), get_set_other (.inl hhs),
        get_itemInit (.inl hhs) (by decide) (by decide),
      get_set_other (.inr ⟨rfl, hoff (by decide) (by decide) (by decide)⟩),
      get_set_other (.inr ⟨rfl, hoff (by decide) (by decide) (by decide)⟩), get_set_self (by omega)]
  · rw [get_set_other (.inl hse), get_set_other (.inl hse), get_set_other (.inl hse),
      get_itemInit (.inl hse) (by decide) (by decide),
      get_set_other (.inr ⟨rfl, hoff (by decide) (by decide) (by decide)⟩),
      get_set_other (.inr ⟨rfl, hoff (by decide) (by decide) (by decide)⟩),
      get_set_other (.inr ⟨rfl, hoff (by decide) (by decide) (by decide)⟩),
      get_set_self (by unfold endItem; omega)]

/-- The first block is counted beyond the end of the pool. -/
theorem HeapPlaced.dataSize (h : HeapPlaced cfg heap start size) (m : Mem) :
    size - itemSize cfg + 1 ≤ itemDataSize cfg start (ndMemheapInit cfg heap start size m) := by
  have hpos := itemSize_pos cfg
  have hroom := h.room
  have hcontrol := h.control
  have hpool := h.pool
  have happ := h.apart
  unfold heapSize at hcontrol happ
  unfold itemDataSize itemNext u32Sub clearLowBit
  rw [(h.init size m).2, endItem]
  omega

/-- The request that is one byte larger than the pool is granted. -/
theorem HeapPlaced.first_alloc (h : HeapPlaced cfg heap start size) (m : Mem) :
    ∃ m', ndMemheapAlloc cfg heap (size - itemSize cfg + 1) (ndMemheapInit cfg heap start size m) =
      some (m', some (itemToData cfg start)) := by
  have hne : start ≠ startItem heap := by
    have happ := h.apart
    have hroom := h.room
    have hpos := itemSize_pos cfg
    unfold heapSize startItem at *
    omega
  have hfit : fittingItem cfg heap (size - itemSize cfg + 1) (ndMemheapInit cfg heap start size m) =
      some (some start) := by
    unfold fittingItem
    rw [show 2 ^ 32 = (2 ^ 32 - 1) + 1 by norm_num, startItem, (h.init size m).1, findFit,
      if_neg hne, if_pos (h.dataSize m)]
  unfold ndMemheapAlloc memheapAlloc
  rw [hfit]
  exact ⟨_, rfl⟩

/-- A header has six words at most. -/
theorem itemSize_le (cfg : Config) : itemSize cfg ≤ 24 := by
  unfold itemSize
  split <;> decide

/-- With room for a header the first request for a byte more than the pool has behind it is met. -/
theorem HeapPlaced.not_contained (h : HeapPlaced cfg heap start size) :
    ¬ Contained cfg heap start size := by
  have hpos := itemSize_pos cfg
  have hle := itemSize_le cfg
  have hroom := h.room
  have hpool := h.pool
  intro hcontained
  obtain ⟨m', hm'⟩ := h.first_alloc fun _ => 0
  have hresult : heapResult cfg heap (.alloc (size - itemSize cfg + 1))
      (ndMemheapInit cfg heap start size fun _ => 0) = some (m', some (itemToData cfg start)) := hm'
  obtain ⟨hlow, hhigh⟩ := hcontained _ (.alloc (size - itemSize cfg + 1)) _ m' _
    (.start ⟨fun _ => 0, rfl⟩) ⟨decide_eq_true (by omega), by rw [hresult]; rfl⟩ rfl hresult
  unfold itemToData u32 at hlow hhigh
  omega

/-- **No heap contains its blocks.**
kernel/nd_memheap.c:15-18 -/
theorem no_heap_contains_blocks (cfg : Config) (heap start size : ℕ) (hroom : itemSize cfg ≤ size)
    (hcontrol : heap + heapSize cfg ≤ 2 ^ 32) (hpool : start + size ≤ 2 ^ 32)
    (happ : heap + heapSize cfg ≤ start ∨ start + size ≤ heap) : ¬ Contained cfg heap start size :=
  HeapPlaced.not_contained ⟨hroom, hcontrol, hpool, happ⟩

/-- A release build. -/
def releaseBuild : Config := ⟨.sync, false, false⟩

/-- A pool of 1024 bytes in front of the control block. -/
theorem adjacent_heap_not_contained : ¬ Contained releaseBuild 5120 4096 1024 :=
  no_heap_contains_blocks releaseBuild 5120 4096 1024
    (by decide) (by decide) (by decide) (by decide)

/-- After `nd_memheap_init` of a pool of 1024 bytes at 4096, 1005 bytes are handed out at 4116. -/
theorem alloc_leaves_pool :
    ¬ ∀ cfg heap start size, HeapPlaced cfg heap start size → Contained cfg heap start size := by
  intro hrule
  have hplaced : HeapPlaced releaseBuild 256 4096 1024 := by
    constructor <;> decide
  obtain ⟨m', hm'⟩ := hplaced.first_alloc fun _ => 0
  have hle := hrule _ _ _ _ hplaced _ (.alloc 1005) 1005 m' 4116 (.start ⟨fun _ => 0, rfl⟩)
    ⟨by decide, by rw [show heapResult _ _ (.alloc 1005) _ = _ from hm']; rfl⟩ rfl hm'
  omega

end NerdRtos
