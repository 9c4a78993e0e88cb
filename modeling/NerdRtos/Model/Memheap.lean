import NerdRtos.Model.Types
import NerdRtos.Lib.Machine

/-!
# The heap

`kernel/nd_memheap.c`. A heap is its control block at address `heap` and the pool that it manages,
in one byte-addressed memory: the headers of the blocks are in the pool, `start_item` and `end_item`
are the first two fields of the control block, and all links are addresses. What the kernel lock
covers is one function here. A function that does not come back, because an assertion of a debug
build fails or because the list that it walks has no end, has no result.
-/

set_option autoImplicit false

namespace NerdRtos

open Bytes (Mem load32 store32)

/-- Subtraction on `nd_uint32_t`. -/
def u32Sub (a b : ℕ) : ℕ := (a + 2 ^ 32 - b % 2 ^ 32) % 2 ^ 32

/-! ## Headers -/

/-- The fields of `nd_memheap_item_t`. -/
inductive ItemField
  | magic
  | pool
  | next
  | prev
  | nextFree
  | prevFree
  deriving DecidableEq

/-- `ND_MEMHEAP_MAGIC`. -/
def ndMemheapMagic : ℕ := 0x1ea01ea0

/-- `sizeof(nd_memheap_item_t)`: a debug build has the field `magic`. -/
def itemSize (cfg : Config) : ℕ := if cfg.debug then 24 else 20

/-- The offset of a field. -/
def ItemField.offset (cfg : Config) : ItemField → ℕ
  | .magic => 0
  | .pool => if cfg.debug then 4 else 0
  | .next => if cfg.debug then 8 else 4
  | .prev => if cfg.debug then 12 else 8
  | .nextFree => if cfg.debug then 16 else 12
  | .prevFree => if cfg.debug then 20 else 16

/-- Field `f` of the header at `item`. -/
def ItemField.get (cfg : Config) (f : ItemField) (item : ℕ) (m : Mem) : ℕ :=
  load32 m (item + f.offset cfg)

/-- Write field `f` of the header at `item`. -/
def ItemField.set (cfg : Config) (f : ItemField) (item v : ℕ) (m : Mem) : Mem :=
  store32 m (item + f.offset cfg) v

/-- `ITEM_IS_USED`. -/
def itemIsUsed (cfg : Config) (item : ℕ) (m : Mem) : Bool :=
  ItemField.next.get cfg item m &&& 1 = 1

/-- `ITEM_IS_FREE`. -/
def itemIsFree (cfg : Config) (item : ℕ) (m : Mem) : Bool := !itemIsUsed cfg item m

/-- `ITEM_SET_USED`. -/
def itemSetUsed (cfg : Config) (item : ℕ) (m : Mem) : Mem :=
  ItemField.next.set cfg item (ItemField.next.get cfg item m ||| 1) m

/-- `& ~1`. -/
def clearLowBit (n : ℕ) : ℕ := n / 2 * 2

/-- `ITEM_SET_FREE`. -/
def itemSetFree (cfg : Config) (item : ℕ) (m : Mem) : Mem :=
  ItemField.next.set cfg item (clearLowBit (ItemField.next.get cfg item m)) m

/-- `item_next`. -/
def itemNext (cfg : Config) (item : ℕ) (m : Mem) : ℕ := clearLowBit (ItemField.next.get cfg item m)

/-- `item_set_next`. -/
def itemSetNext (cfg : Config) (item next : ℕ) (m : Mem) : Mem :=
  ItemField.next.set cfg item (next ||| (ItemField.next.get cfg item m &&& 1)) m

/-- `item_data_size`. -/
def itemDataSize (cfg : Config) (item : ℕ) (m : Mem) : ℕ :=
  u32Sub (u32Sub (itemNext cfg item m) item) (itemSize cfg)

/-- `item_split_at`. -/
def itemSplitAt (cfg : Config) (item offset : ℕ) : ℕ := u32 (item + itemSize cfg + offset)

/-- `item_to_data`. -/
def itemToData (cfg : Config) (item : ℕ) : ℕ := u32 (item + itemSize cfg)

/-- `data_to_item`. -/
def dataToItem (cfg : Config) (ptr : ℕ) : ℕ := u32Sub ptr (itemSize cfg)

/-- `item_init`. -/
def itemInit (cfg : Config) (item heap : ℕ) (m : Mem) : Mem :=
  let m := if cfg.debug then ItemField.magic.set cfg item ndMemheapMagic m else m
  ItemField.pool.set cfg item heap m

/-! ## The two lists -/

/-- `phys_list_insert_after`. -/
def physListInsertAfter (cfg : Config) (anchor newItem : ℕ) (m : Mem) : Mem :=
  let m := ItemField.next.set cfg newItem (itemNext cfg anchor m) m
  let m := ItemField.prev.set cfg newItem anchor m
  let m := ItemField.prev.set cfg (itemNext cfg anchor m) newItem m
  itemSetNext cfg anchor newItem m

/-- `free_list_insert_after`. -/
def freeListInsertAfter (cfg : Config) (anchor item : ℕ) (m : Mem) : Mem :=
  let m := ItemField.nextFree.set cfg item (ItemField.nextFree.get cfg anchor m) m
  let m := ItemField.prevFree.set cfg item anchor m
  let m := ItemField.prevFree.set cfg (ItemField.nextFree.get cfg anchor m) item m
  ItemField.nextFree.set cfg anchor item m

/-- `phys_list_remove`. -/
def physListRemove (cfg : Config) (item : ℕ) (m : Mem) : Mem :=
  let m := itemSetNext cfg (ItemField.prev.get cfg item m) (itemNext cfg item m) m
  ItemField.prev.set cfg (itemNext cfg item m) (ItemField.prev.get cfg item m) m

/-- `free_list_remove`. -/
def freeListRemove (cfg : Config) (item : ℕ) (m : Mem) : Mem :=
  let m := ItemField.nextFree.set cfg (ItemField.prevFree.get cfg item m)
    (ItemField.nextFree.get cfg item m) m
  ItemField.prevFree.set cfg (ItemField.nextFree.get cfg item m)
    (ItemField.prevFree.get cfg item m) m

/-- `free_list_replace`. -/
def freeListReplace (cfg : Config) (oldItem newItem : ℕ) (m : Mem) : Mem :=
  let m := ItemField.prevFree.set cfg newItem (ItemField.prevFree.get cfg oldItem m) m
  let m := ItemField.nextFree.set cfg newItem (ItemField.nextFree.get cfg oldItem m) m
  let m := ItemField.prevFree.set cfg (ItemField.nextFree.get cfg oldItem m) newItem m
  ItemField.nextFree.set cfg (ItemField.prevFree.get cfg oldItem m) newItem m

/-! ## The control block -/

/-- `&heap->start_item`. -/
def startItem (heap : ℕ) : ℕ := heap

/-- `&heap->end_item`. -/
def endItem (cfg : Config) (heap : ℕ) : ℕ := heap + itemSize cfg

/-- The address of `available_size`, after `start_addr` and `pool_size`. -/
def availableAt (cfg : Config) (heap : ℕ) : ℕ := heap + 2 * itemSize cfg + 8

/-- `sizeof(nd_memheap_t)`: `wait_list` is the last field. -/
def heapSize (cfg : Config) : ℕ := 2 * itemSize cfg + 20

/-- `heap->available_size`. -/
def availableSize (cfg : Config) (heap : ℕ) (m : Mem) : ℕ := load32 m (availableAt cfg heap)

/-- `heap->available_size += n`. -/
def addAvailable (cfg : Config) (heap n : ℕ) (m : Mem) : Mem :=
  store32 m (availableAt cfg heap) (u32 (availableSize cfg heap m + n))

/-- `heap->available_size -= n`. -/
def subAvailable (cfg : Config) (heap n : ℕ) (m : Mem) : Mem :=
  store32 m (availableAt cfg heap) (u32Sub (availableSize cfg heap m) n)

/-! ## Allocation -/

/-- `memheap_coalesce`. -/
def memheapCoalesce (cfg : Config) (heap item : ℕ) (m : Mem) : Mem :=
  let m := addAvailable cfg heap (itemDataSize cfg item m) m
  let nextItem := itemNext cfg item m
  let m :=
    if itemIsFree cfg nextItem m then
      let m := freeListRemove cfg nextItem m
      let m := physListRemove cfg nextItem m
      addAvailable cfg heap (itemSize cfg) m
    else m
  if itemIsFree cfg (ItemField.prev.get cfg item m) m then
    let m := physListRemove cfg item m
    let m := addAvailable cfg heap (itemSize cfg) m
    itemSetFree cfg (ItemField.prev.get cfg item m) m
  else
    let m := freeListInsertAfter cfg (startItem heap) item m
    itemSetFree cfg item m

/-- The search of `_memheap_alloc` along the free list, from `item` on: the first item that holds
`size` bytes, if there is one. A list that is longer than there are addresses has no end. -/
def findFit (cfg : Config) (heap size : ℕ) (m : Mem) : ℕ → ℕ → Option (Option ℕ)
  | 0, _ => none
  | n + 1, item =>
    if item = startItem heap then some none
    else if size ≤ itemDataSize cfg item m then some (some item)
    else findFit cfg heap size m n (ItemField.nextFree.get cfg item m)

/-- The item that `_memheap_alloc` takes. -/
def fittingItem (cfg : Config) (heap size : ℕ) (m : Mem) : Option (Option ℕ) :=
  findFit cfg heap size m (2 ^ 32) (ItemField.nextFree.get cfg (startItem heap) m)

/-- The rest of the block of `item` is enough for another header. -/
def splits (cfg : Config) (item size : ℕ) (m : Mem) : Bool :=
  u32 (size + itemSize cfg) ≤ itemDataSize cfg item m

/-- What `_memheap_alloc` does with the item that it takes. -/
def takeItem (cfg : Config) (heap item size : ℕ) (m : Mem) : Mem :=
  let m :=
    if splits cfg item size m then
      let newItem := itemSplitAt cfg item size
      let m := itemInit cfg newItem heap m
      let m := freeListReplace cfg item newItem m
      let m := physListInsertAfter cfg item newItem m
      subAvailable cfg heap (u32 (size + itemSize cfg)) m
    else
      let blockSize := itemDataSize cfg item m
      let m := freeListRemove cfg item m
      subAvailable cfg heap blockSize m
  itemSetUsed cfg item m

/-- `_memheap_alloc`; the pointer is `none` for `ND_NULL`. -/
def memheapAlloc (cfg : Config) (heap size : ℕ) (m : Mem) : Option (Mem × Option ℕ) :=
  (fittingItem cfg heap size m).map fun found =>
    match found with
    | none => (m, none)
    | some item => (takeItem cfg heap item size m, some (itemToData cfg item))

/-- The header says that it is one, in a debug build. -/
def hasMagic (cfg : Config) (item : ℕ) (m : Mem) : Bool :=
  !cfg.debug || ItemField.magic.get cfg item m = ndMemheapMagic

/-- `_memheap_free`. -/
def memheapFree (cfg : Config) (ptr : ℕ) (m : Mem) : Option Mem :=
  let item := dataToItem cfg ptr
  if hasMagic cfg item m then some (memheapCoalesce cfg (ItemField.pool.get cfg item m) item m)
  else none

/-- `nd_memheap_init`. -/
def ndMemheapInit (cfg : Config) (heap startAddr size : ℕ) (m : Mem) : Mem :=
  let control := heap + 2 * itemSize cfg
  let waitList := control + 12
  let m := store32 m control startAddr
  let m := store32 m (control + 4) size
  let m := store32 m (availableAt cfg heap) (u32Sub size (itemSize cfg))
  let m := store32 m waitList waitList
  let m := store32 m (waitList + 4) waitList
  let item0 := startAddr
  let m := itemInit cfg (startItem heap) heap m
  let m := ItemField.next.set cfg (startItem heap) item0 m
  let m := ItemField.prev.set cfg (startItem heap) item0 m
  let m := ItemField.nextFree.set cfg (startItem heap) item0 m
  let m := ItemField.prevFree.set cfg (startItem heap) item0 m
  let m := itemSetUsed cfg (startItem heap) m
  let m := itemInit cfg item0 heap m
  let m := ItemField.next.set cfg item0 (endItem cfg heap) m
  let m := ItemField.prev.set cfg item0 (startItem heap) m
  let m := ItemField.nextFree.set cfg item0 (startItem heap) m
  let m := ItemField.prevFree.set cfg item0 (startItem heap) m
  let m := itemInit cfg (endItem cfg heap) heap m
  let m := ItemField.next.set cfg (endItem cfg heap) (startItem heap) m
  let m := ItemField.prev.set cfg (endItem cfg heap) item0 m
  itemSetUsed cfg (endItem cfg heap) m

/-- `nd_memheap_alloc`. -/
def ndMemheapAlloc (cfg : Config) (heap size : ℕ) (m : Mem) : Option (Mem × Option ℕ) :=
  memheapAlloc cfg heap size m

/-- `nd_memheap_free`. -/
def ndMemheapFree (cfg : Config) (ptr : Option ℕ) (m : Mem) : Option Mem :=
  match ptr with
  | none => some m
  | some ptr => memheapFree cfg ptr m

/-- The end of `nd_memheap_realloc` for a block that grows into the free block behind it. -/
def growItem (cfg : Config) (heap item size blockSize nextBlockSize : ℕ) (m : Mem) : Mem :=
  let nextItem := itemNext cfg item m
  let m :=
    if itemSize cfg ≤ u32Sub (u32 (blockSize + nextBlockSize)) size then
      let newItem := itemSplitAt cfg item size
      let m := freeListRemove cfg nextItem m
      let m := physListRemove cfg nextItem m
      let m := itemInit cfg newItem heap m
      let m := physListInsertAfter cfg item newItem m
      freeListInsertAfter cfg (startItem heap) newItem m
    else
      let m := freeListRemove cfg nextItem m
      let m := physListRemove cfg nextItem m
      addAvailable cfg heap (itemSize cfg) m
  subAvailable cfg heap (u32Sub size blockSize) m

/-- The end of `nd_memheap_realloc` for a block that moves. -/
def moveBlock (cfg : Config) (heap ptr size blockSize : ℕ) (m : Mem) : Option (Mem × Option ℕ) :=
  match memheapAlloc cfg heap size m with
  | none => none
  | some (m, none) => some (m, none)
  | some (m, some newPtr) =>
    let m := Bytes.store m newPtr (Bytes.load m ptr blockSize)
    (memheapFree cfg ptr m).map fun m => (m, some newPtr)

/-- `nd_memheap_realloc`. -/
def ndMemheapRealloc (cfg : Config) (heap : ℕ) (ptr : Option ℕ) (size : ℕ) (m : Mem) :
    Option (Mem × Option ℕ) :=
  match ptr with
  | none => memheapAlloc cfg heap size m
  | some ptr =>
    let item := dataToItem cfg ptr
    let blockSize := itemDataSize cfg item m
    if hasMagic cfg item m = false then none
    else if size = blockSize then some (m, some ptr)
    else if size < blockSize then
      if itemSize cfg ≤ blockSize - size then
        let newItem := itemSplitAt cfg item size
        let m := itemInit cfg newItem heap m
        let m := physListInsertAfter cfg item newItem m
        some (memheapCoalesce cfg heap newItem m, some ptr)
      else some (m, some ptr)
    else
      let nextItem := itemNext cfg item m
      let nextBlockSize := itemDataSize cfg nextItem m
      if itemIsFree cfg nextItem m ∧ size ≤ u32 (blockSize + itemSize cfg + nextBlockSize) then
        some (growItem cfg heap item size blockSize nextBlockSize m, some ptr)
      else moveBlock cfg heap ptr size blockSize m

/-! ## The machine -/

/-- The memory, and the blocks that are handed out: pointer and requested size. The code never reads
`live`. -/
structure Heap where
  mem : Mem
  live : List (ℕ × ℕ)

/-- What can happen to a heap: a call, or its user writes a byte. -/
inductive HeapOp
  | alloc (size : ℕ)
  | free (ptr : Option ℕ)
  | realloc (ptr : Option ℕ) (size : ℕ)
  | write (addr : ℕ) (v : BitVec 8)
  deriving DecidableEq

/-- The blocks without the one at `ptr`. -/
def dropBlock (ptr : Option ℕ) (live : List (ℕ × ℕ)) : List (ℕ × ℕ) :=
  live.filter fun b => some b.1 ≠ ptr

/-- What a call returns, with the memory that it leaves. -/
def heapResult (cfg : Config) (heap : ℕ) (op : HeapOp) (m : Mem) : Option (Mem × Option ℕ) :=
  match op with
  | .alloc size => ndMemheapAlloc cfg heap size m
  | .free ptr => (ndMemheapFree cfg ptr m).map fun m => (m, none)
  | .realloc ptr size => ndMemheapRealloc cfg heap ptr size m
  | .write addr v => some (Function.update m addr v, none)

/-- The blocks that are handed out after a call that returned `ret`. -/
def heapLive (op : HeapOp) (ret : Option ℕ) (live : List (ℕ × ℕ)) : List (ℕ × ℕ) :=
  match op, ret with
  | .alloc size, some p => (p, size) :: live
  | .free ptr, _ => dropBlock ptr live
  | .realloc ptr size, some p => (p, size) :: dropBlock ptr live
  | _, _ => live

/-- A pointer that is given back was handed out, or is `ND_NULL`, and the user writes into blocks
that were handed out. The sizes are `nd_uint32_t`. -/
def HeapOp.valid (s : Heap) : HeapOp → Bool
  | .alloc size => size < 2 ^ 32
  | .free none => true
  | .free (some p) => s.live.any fun b => b.1 = p
  | .realloc none size => size < 2 ^ 32
  | .realloc (some p) size => size < 2 ^ 32 && s.live.any fun b => b.1 = p
  | .write addr _ => s.live.any fun b => b.1 ≤ addr && addr < b.1 + b.2

/-- The state after a call. -/
def heapNext (cfg : Config) (heap : ℕ) (op : HeapOp) (s : Heap) : Heap :=
  match heapResult cfg heap op s.mem with
  | none => s
  | some (m, ret) => ⟨m, heapLive op ret s.live⟩

/-- A heap with the control block at `heap`, set up by `nd_memheap_init` for `size` bytes from
`startAddr` on. -/
def heapMachine (cfg : Config) (heap startAddr size : ℕ) : Machine Heap HeapOp where
  start s := ∃ m, s = ⟨ndMemheapInit cfg heap startAddr size m, []⟩
  enabled s op := op.valid s = true ∧ (heapResult cfg heap op s.mem).isSome = true
  next := heapNext cfg heap

instance (cfg : Config) (heap startAddr size : ℕ) (s : Heap) (op : HeapOp) :
    Decidable ((heapMachine cfg heap startAddr size).enabled s op) :=
  inferInstanceAs (Decidable (op.valid s = true ∧ (heapResult cfg heap op s.mem).isSome = true))

end NerdRtos
