import NerdRtos.Analysis.HeapContainment

/-!
# What holds of a heap in every run

The structure under allocation and release (`heap_structure`), the count of free bytes
(`available_size_exact`), reallocation (`realloc_safe`) and the alignment of headers and pointers
(`headers_aligned`), each for the runs whose calls fit, and a run that shows where it ends.
-/

set_option autoImplicit false

namespace NerdRtos

open Bytes (Mem Apart)

variable {cfg : Config} {d heap start size : ℕ} {items frees : List ℕ} {x y v : ℕ} {m m' : Mem}
  {s : Heap}

/-! ## Allocation and release -/

/-- Allocation fails only when no free block is large enough, and it returns. -/
theorem Shape.alloc_iff (hs : Shape cfg d heap start size (heapView cfg heap m) items frees none)
    (ha : HeapArea cfg d heap start size) (v : ℕ) :
    ∃ m' ret, ndMemheapAlloc cfg heap v m = some (m', ret) ∧
      (ret = none → m' = m ∧ ∀ a ∈ frees, itemDataSize cfg a m < v) := by
  unfold ndMemheapAlloc memheapAlloc
  rw [hs.fittingItem_eq ha]
  cases hx : frees.find? (fun b => v ≤ itemDataSize cfg b m) with
  | none =>
    refine ⟨_, _, rfl, fun _ => ⟨rfl, fun a hm => ?_⟩⟩
    have hno := List.find?_eq_none.mp hx a hm
    simpa using hno
  | some x => exact ⟨_, _, rfl, fun hret => by cases hret⟩

/-- Two blocks that are handed out do not overlap. -/
theorem HeapOk.disjoint (h : HeapOk cfg d heap start size s items frees) :
    s.live.Pairwise fun b c => b.1 + b.2 ≤ c.1 ∨ c.1 + c.2 ≤ b.1 := by
  have hne : s.live.Pairwise fun b c => b.1 ≠ c.1 := List.pairwise_map.mp h.blocks.nodup
  refine hne.imp_of_mem fun {b c} hb hc hbc => ?_
  obtain ⟨x, hx, hxu, hbx, hble⟩ := h.blocks.block b hb
  obtain ⟨y, hy, hyu, hcy, hcle⟩ := h.blocks.block c hc
  rcases Nat.lt_trichotomy x y with hlt | rfl | hlt
  · have hle := h.shape.next_le hx hxu hy hlt
    omega
  · omega
  · have hle := h.shape.next_le hy hyu hx hlt
    omega

/-- A block that is handed out overlaps no header. -/
theorem HeapOk.clear (h : HeapOk cfg d heap start size s items frees)
    (ha : HeapArea cfg d heap start size) {b : ℕ × ℕ} (hb : b ∈ s.live) :
    ∀ a ∈ startItem heap :: endItem cfg heap :: items, b.1 + b.2 ≤ a ∨ a + itemSize cfg ≤ b.1 := by
  obtain ⟨x, hx, hu, hbx, hle⟩ := h.blocks.block b hb
  intro a hm
  have hpos := itemSize_pos cfg
  obtain ⟨l, y, r, hitems⟩ := h.shape.exists_next hx hu (by simp)
  have hnext : itemNext cfg x s.mem = y := by
    have hs := h.shape
    rw [hitems] at hs
    exact hs.next_eq
  have hyin := h.shape.laid.inside y (by simp [hitems])
  have hxin := h.shape.laid.inside x hx
  have happ := ha.apart
  unfold heapSize at happ
  unfold startItem at hm
  simp only [List.mem_cons] at hm
  rcases hm with rfl | rfl | hm
  · omega
  · unfold endItem
    omega
  · rcases Nat.lt_trichotomy x a with hlt | rfl | hlt
    · have := h.shape.next_le hx hu hm hlt
      omega
    · omega
    · have hsorted := h.shape.laid.sorted
      have hapart := (h.shape.laid.bases ha).disjoint (x := a) (y := x)
        (by simp [hm]) (by simp [hx])
        (by omega)
      unfold Apart at hapart
      omega

/-- Without blocks there is one free block. -/
theorem HeapOk.empty (h : HeapOk cfg d heap start size s items frees) (hlive : s.live = []) :
    items = [start] ∧ frees = [start] := by
  have hfree : ∀ a ∈ items, a ∈ frees := by
    intro a hm
    by_contra hu
    obtain ⟨b, hb, -⟩ := h.blocks.owner a hm hu
    rw [hlive] at hb
    cases hb
  have hhead := h.shape.laid.head
  have hspaced := h.shape.spaced
  have hitems : items = [start] := by
    cases items with
    | nil => cases hhead
    | cons a l =>
      have ha : a = start := by simpa using hhead
      cases l with
      | nil => rw [ha]
      | cons b l =>
        unfold Spaced at hspaced
        rw [List.isChain_cons_cons] at hspaced
        exact absurd ⟨hfree a (by simp), hfree b (by simp)⟩ hspaced.1
  refine ⟨hitems, List.perm_singleton.mp ?_⟩
  rw [List.perm_ext_iff_of_nodup h.shape.nodup (List.nodup_singleton start)]
  intro a
  rw [← hitems]
  exact ⟨fun hm => (h.shape.listed a hm).1, hfree a⟩

/-- The structure of a heap: the two lists, the blocks that are handed out in between, no two free
blocks side by side, allocation that fails only for want of a block, and one block when all are
free. -/
structure HeapStructure (cfg : Config) (heap start : ℕ) (s : Heap) (items frees : List ℕ) :
    Prop where
  lists : Lists cfg heap s.mem items frees
  disjoint : s.live.Pairwise fun b c => b.1 + b.2 ≤ c.1 ∨ c.1 + c.2 ≤ b.1
  clear : ∀ b ∈ s.live, ∀ a ∈ startItem heap :: endItem cfg heap :: items,
    b.1 + b.2 ≤ a ∨ a + itemSize cfg ≤ b.1
  spaced : items.IsChain fun a b =>
    ¬ (itemIsFree cfg a s.mem = true ∧ itemIsFree cfg b s.mem = true)
  alloc : ∀ n, ∃ m ret, ndMemheapAlloc cfg heap n s.mem = some (m, ret) ∧
    (ret = none → m = s.mem ∧ ∀ a ∈ items, itemIsFree cfg a s.mem = true →
      itemDataSize cfg a s.mem < n)
  whole : s.live = [] → items = [start] ∧ frees = [start]

/-- The call is `nd_memheap_realloc`. -/
def HeapOp.isRealloc : HeapOp → Bool
  | .realloc _ _ => true
  | _ => false

/-- The call is not `nd_memheap_realloc`, and what an allocation hands out lies in the pool, with
the header that is split off behind it, whose address is even. -/
def AllocFreeInPool (cfg : Config) (heap start size : ℕ) (s : Heap) (op : HeapOp) : Prop :=
  op.isRealloc = false ∧ op.Fits cfg 2 heap (start + size) false s

instance (op : HeapOp) : Decidable (AllocFreeInPool cfg heap start size s op) :=
  inferInstanceAs (Decidable (_ ∧ _))

/-- The invariant gives what a reader of the headers sees. -/
theorem HeapOk.structure (h : HeapOk cfg d heap start size s items frees)
    (ha : HeapArea cfg d heap start size) : HeapStructure cfg heap start s items frees := by
  have hlists := h.shape.lists ha
  refine ⟨hlists, h.disjoint, fun b hb => h.clear ha hb, ?_, fun n => ?_, h.empty⟩
  · refine List.IsChain.imp_of_mem_imp (fun a b hma hmb hab hfree => hab ?_) h.shape.spaced
    exact ⟨(hlists.exact a).mpr ⟨hma, hfree.1⟩, (hlists.exact b).mpr ⟨hmb, hfree.2⟩⟩
  · obtain ⟨m, ret, halloc, hnone⟩ := h.shape.alloc_iff ha n
    refine ⟨m, ret, halloc, fun hret => ⟨(hnone hret).1, fun a hm hfree => ?_⟩⟩
    exact (hnone hret).2 a ((hlists.exact a).mpr ⟨hm, hfree⟩)

/-- The invariant holds along the runs in which every request fits. -/
theorem heapOk_reach {exact : Bool} {n : ℕ} {C : Heap → HeapOp → Prop}
    (ha : HeapArea cfg d heap start size)
    (hC : ∀ s op, C s op → op.Fits cfg d heap (start + size) exact s)
    (h : (heapMachine cfg heap start n).Reach C s) :
    ∃ items frees, HeapOk cfg d heap start size s items frees := by
  obtain ⟨s₀, ⟨m, rfl⟩, hpath⟩ := h.exists_path
  obtain ⟨items, frees, hok, -⟩ := heapOk_path ha (hpath.mono hC)
  exact ⟨items, frees, hok⟩

/-- **The structure of the heap** under allocation and release.
kernel/nd_memheap.c:43-185 -/
theorem heap_structure (ha : HeapArea cfg 2 heap start size)
    (h : (heapMachine cfg heap start size).Reach (AllocFreeInPool cfg heap start size) s) :
    ∃ items frees, HeapStructure cfg heap start s items frees := by
  obtain ⟨items, frees, hok⟩ := heapOk_reach ha (fun _ _ hC => hC.2) h
  exact ⟨items, frees, hok.structure ha⟩

/-- A pool of 1024 bytes at 4096, apart from its control block at 256. -/
theorem smallHeap_area : HeapArea releaseBuild 2 256 4096 1024 := by
  constructor <;> decide

/-- The heap after `nd_memheap_init`. -/
def smallHeap : Heap := ⟨ndMemheapInit releaseBuild 256 4096 1024 fun _ => 0, []⟩

/-- Three blocks, and the middle one is free again. -/
theorem heap_structure_run : ∃ s items frees,
    (heapMachine releaseBuild 256 4096 1024).run
        [.alloc 32, .alloc 64, .alloc 32, .write 4116 255, .free (some 4168)] smallHeap = some s ∧
      s.live.length = 2 ∧ HeapStructure releaseBuild 256 4096 s items frees := by
  obtain ⟨s, hs, hp⟩ := (heapMachine releaseBuild 256 4096 1024).exists_run
    (l := [.alloc 32, .alloc 64, .alloc 32, .write 4116 255, .free (some 4168)]) (s := smallHeap)
    (p := fun s => s.live.length = 2) (by decide +kernel)
  have hreach := (heapMachine releaseBuild 256 4096 1024).reach_of_checked
    (C := AllocFreeInPool releaseBuild 256 4096 1024) (fun _ _ => of_decide_eq_true)
    (.start ⟨fun _ => 0, rfl⟩) hs (by decide +kernel)
  obtain ⟨items, frees, hstructure⟩ := heap_structure smallHeap_area hreach
  exact ⟨s, items, frees, hs, of_decide_eq_true hp, hstructure⟩

/-- From a pool at an odd address, `next` of `start_item` leads to the byte in front of it. -/
theorem odd_pool_breaks_walk :
    ¬ ∀ (cfg : Config) (heap start size : ℕ) (s : Heap), HeapPlaced cfg heap start size →
      (heapMachine cfg heap start size).Reach (AllocFreeInPool cfg heap start size) s →
      ∃ items frees, HeapStructure cfg heap start s items frees := by
  intro hrule
  have hplaced : HeapPlaced releaseBuild 256 4097 1024 := by
    constructor <;> decide
  obtain ⟨items, frees, h⟩ := hrule _ _ _ _ _ hplaced (.start ⟨fun _ => 0, rfl⟩)
  have hnext : itemNext releaseBuild 256 (ndMemheapInit releaseBuild 256 4097 1024 fun _ => 0) =
      4096 := by
    decide +kernel
  have hprev : ItemField.prev.get releaseBuild 4096
      (ndMemheapInit releaseBuild 256 4097 1024 fun _ => 0) ≠ 256 := by
    decide +kernel
  have hphys := h.lists.phys
  cases items with
  | nil =>
    have hend : itemNext releaseBuild 256 _ = 276 := hphys.1
    rw [hnext] at hend
    cases hend
  | cons a items =>
    have ha : itemNext releaseBuild 256 _ = a := hphys.1
    rw [hnext] at ha
    subst ha
    exact hprev hphys.2.1

/-! ## The count of free bytes -/

/-- The difference between `available_size` and the bytes of the free items, modulo `2 ^ 32`. -/
def heapDrift (cfg : Config) (heap : ℕ) (m : Mem) (frees : List ℕ) : ZMod (2 ^ 32) :=
  (availableSize cfg heap m : ZMod (2 ^ 32)) -
    (frees.map fun a => (itemDataSize cfg a m : ZMod (2 ^ 32))).sum

/-- The drift of the count is the balance of the headers. -/
theorem heapDrift_eq (cfg : Config) (heap : ℕ) (m : Mem) (frees : List ℕ) :
    heapDrift cfg heap m frees = (heapView cfg heap m).balance cfg frees := by
  unfold heapDrift Headers.balance
  congr 2
  exact List.map_congr_left fun a _ => cast_itemDataSize cfg heap a m

/-- Where the memory around the pool ends: at the control block, or with the address space. -/
def heapLimit (heap start : ℕ) : ℕ := if start ≤ heap then heap else 2 ^ 32

/-- The free memory around the pool. -/
theorem HeapArea.extend (ha : HeapArea cfg d heap start size) :
    HeapArea cfg d heap start (heapLimit heap start - start) ∧
      start + (heapLimit heap start - start) = heapLimit heap start := by
  have hroom := ha.room
  have hpool := ha.pool
  have hcontrol := ha.control
  have happ := ha.apart
  have hpos := itemSize_pos cfg
  unfold heapSize at hcontrol happ
  unfold heapLimit
  split
  · refine ⟨⟨ha.align, ha.heapAligned, ha.startAligned, ?_, ha.control, ?_, ?_⟩, ?_⟩ <;>
      (try unfold heapSize) <;> omega
  · refine ⟨⟨ha.align, ha.heapAligned, ha.startAligned, ?_, ha.control, ?_, ?_⟩, ?_⟩ <;>
      (try unfold heapSize) <;> omega

/-- The count of free bytes is exact: it differs from the bytes of the free items by what it
differed from the first one, and it is back where it was when all blocks are free. -/
def CountExact (cfg : Config) (heap start : ℕ) (m₀ : Mem) (s : Heap) : Prop :=
  ∃ items frees, Lists cfg heap s.mem items frees ∧
    heapDrift cfg heap s.mem frees = heapDrift cfg heap m₀ [start] ∧
    (s.live = [] → availableSize cfg heap s.mem = availableSize cfg heap m₀)

/-- Two words that are the same modulo `2 ^ 32`. -/
theorem word_eq {a b : ℕ} (ha : a < 2 ^ 32) (hb : b < 2 ^ 32)
    (h : (a : ZMod (2 ^ 32)) = (b : ZMod (2 ^ 32))) : a = b := by
  rw [ZMod.natCast_eq_natCast_iff'] at h
  rwa [Nat.mod_eq_of_lt ha, Nat.mod_eq_of_lt hb] at h

/-- **`available_size` is exact** in every run whose calls fit and whose blocks do not swallow their
neighbours.
kernel/nd_memheap.c:79-138, 214-289 -/
theorem available_size_exact (ha : HeapArea cfg 2 heap start size)
    (h : (heapMachine cfg heap start size).Path
      (fun s op => op.Fits cfg 2 heap (heapLimit heap start) true s)
      ⟨ndMemheapInit cfg heap start size m, []⟩ s) :
    CountExact cfg heap start (ndMemheapInit cfg heap start size m) s := by
  obtain ⟨harea, hlimit⟩ := ha.extend
  rw [← hlimit] at h
  obtain ⟨items, frees, hok, hbal⟩ := heapOk_path harea h
  have hdrift : heapDrift cfg heap s.mem frees =
      heapDrift cfg heap (ndMemheapInit cfg heap start size m) [start] := by
    rw [heapDrift_eq, heapDrift_eq, hbal rfl]
  refine ⟨items, frees, hok.shape.lists harea, hdrift, fun hlive => ?_⟩
  obtain ⟨rfl, rfl⟩ := hok.empty hlive
  have hnext : itemNext cfg start s.mem = endItem cfg heap := hok.shape.next_eq (l := []) (r := [])
  have hnext₀ : itemNext cfg start (ndMemheapInit cfg heap start size m) = endItem cfg heap :=
    (HeapOk.init harea size m).shape.next_eq (l := []) (r := [])
  have hsize : itemDataSize cfg start s.mem =
      itemDataSize cfg start (ndMemheapInit cfg heap start size m) := by
    unfold itemDataSize
    rw [hnext, hnext₀]
  unfold heapDrift at hdrift
  simp only [List.map_cons, List.map_nil, hsize] at hdrift
  refine word_eq (Bytes.load32_lt _ _) (Bytes.load32_lt _ _) ?_
  exact sub_left_injective hdrift

/-- The second of three blocks is freed, the first grows into a part of it that leaves a header, and
all are freed. -/
def growingRun : List HeapOp :=
  [.alloc 32, .alloc 32, .alloc 32, .free (some 4168), .realloc (some 4116) 40, .free (some 4116),
    .free (some 4220)]

/-- In the end all of the 1004 bytes are free again, and counted. -/
theorem available_size_exact_run : ∃ s,
    (heapMachine releaseBuild 256 4096 1024).run growingRun smallHeap = some s ∧
      availableSize releaseBuild 256 s.mem = 1004 ∧
      CountExact releaseBuild 256 4096 smallHeap.mem s := by
  obtain ⟨s, hs, hp⟩ := (heapMachine releaseBuild 256 4096 1024).exists_run (l := growingRun)
    (s := smallHeap) (p := fun s => availableSize releaseBuild 256 s.mem = 1004) (by decide +kernel)
  have hpath := (heapMachine releaseBuild 256 4096 1024).path_of_checked
    (C := fun s op => op.Fits releaseBuild 2 256 (heapLimit 256 4096) true s)
    (fun _ _ => of_decide_eq_true) hs (by decide +kernel)
  exact ⟨s, hs, of_decide_eq_true hp, available_size_exact smallHeap_area hpath⟩

/-- The first block grows to 60 bytes and swallows the free block of 32 bytes behind it, and all are
freed. -/
def swallowingRun : List HeapOp :=
  [.alloc 32, .alloc 32, .alloc 32, .free (some 4168), .realloc (some 4116) 60, .free (some 4116),
    .free (some 4220)]

/-- 24 bytes more are counted than there are. -/
theorem swallowed_block_stays_counted :
    ¬ ∀ (cfg : Config) (heap start size : ℕ) (m : Mem) (s : Heap), HeapArea cfg 4 heap start size →
      (heapMachine cfg heap start size).Path Machine.Always
        ⟨ndMemheapInit cfg heap start size m, []⟩ s →
      CountExact cfg heap start (ndMemheapInit cfg heap start size m) s := by
  intro hrule
  obtain ⟨s, hs, hp⟩ := (heapMachine releaseBuild 256 4096 1024).exists_run (l := swallowingRun)
    (s := smallHeap)
    (p := fun s => s.live = [] ∧ availableSize releaseBuild 256 s.mem = 1028) (by decide +kernel)
  have hpath := (heapMachine releaseBuild 256 4096 1024).path_of_run (C := Machine.Always)
    (fun _ _ _ => trivial) hs
  obtain ⟨-, -, -, -, hcount⟩ := hrule releaseBuild 256 4096 1024 (fun _ => 0) s
    (by constructor <;> decide) hpath
  simp only [decide_eq_true_eq] at hp
  have hinit : availableSize releaseBuild 256 smallHeap.mem = 1004 := by decide +kernel
  have hback : availableSize releaseBuild 256 s.mem = availableSize releaseBuild 256
      smallHeap.mem :=
    hcount hp.1
  have hsame : 1028 = 1004 := by rw [← hp.2, hback, hinit]
  cases hsame

/-! ## Reallocation -/

/-- What `nd_memheap_realloc` of the block at `p` to `n` bytes does: it returns; without a pointer
nothing has changed; with one the block there holds `n` bytes and begins with the bytes of the old
one, the other blocks keep their headers and bytes, and the headers are well linked. -/
def ReallocSafe (cfg : Config) (heap : ℕ) (s : Heap) (p n : ℕ) : Prop :=
  ∃ m ret, ndMemheapRealloc cfg heap (some p) n s.mem = some (m, ret) ∧
    match ret with
    | none => m = s.mem
    | some q =>
      n ≤ itemDataSize cfg (dataToItem cfg q) m ∧
      (∀ i < min (itemDataSize cfg (dataToItem cfg p) s.mem) n, m (q + i) = s.mem (p + i)) ∧
      (∀ b ∈ s.live, b.1 ≠ p →
        let a := dataToItem cfg b.1
        itemIsUsed cfg a m = true ∧ itemNext cfg a m = itemNext cfg a s.mem ∧
          ItemField.pool.get cfg a m = ItemField.pool.get cfg a s.mem ∧
          hasMagic cfg a m = hasMagic cfg a s.mem ∧
          ∀ i < itemDataSize cfg a s.mem, m (b.1 + i) = s.mem (b.1 + i)) ∧
      ∃ items frees, Lists cfg heap m items frees

/-- What a used block holds. -/
theorem Shape.dataSize_used (hs : Shape cfg d heap start size (heapView cfg heap m) items frees
    none) (ha : HeapArea cfg d heap start size) (hx : x ∈ items) (hu : x ∉ frees) :
    itemNext cfg x m = x + itemSize cfg + itemDataSize cfg x m := by
  obtain ⟨l, y, r, rfl⟩ := hs.exists_next hx hu (by simp)
  have hnext : itemNext cfg x m = y := hs.next_eq
  rw [hnext, ← hs.dataSize_eq ha]

/-- A block that is not free is marked as used. -/
theorem Shape.used_flag (hs : Shape cfg d heap start size (heapView cfg heap m) items frees none)
    (hx : x ∈ items) (hu : x ∉ frees) : itemIsUsed cfg x m = true := by
  have hflag := hs.flags x hx (by simp)
  rw [show itemIsUsed cfg x m = !decide (x ∈ frees) from hflag]
  simpa using hu

/-- A request to resize a block that fits keeps its contents and the others. -/
theorem HeapOk.resize_safe {exact : Bool} {p : ℕ} (h : HeapOk cfg d heap start size s items frees)
    (ha : HeapArea cfg d heap start size) (hlive : ∃ b ∈ s.live, b.1 = p)
    (hfit : ResizeFits cfg d heap (start + size) exact p v s.mem) : ReallocSafe cfg heap s p v := by
  obtain ⟨b, hb, rfl⟩ := hlive
  obtain ⟨x, hx, hu, hbx, -⟩ := h.blocks.block b hb
  rw [hbx] at hfit ⊢
  obtain ⟨m, ret, hret, hcases⟩ := h.shape.resize ha hx hu hfit
  refine ⟨m, ret, hret, ?_⟩
  rcases hcases with ⟨rfl, rfl⟩ | ⟨y, items', frees', rfl, hmoved, -⟩
  · rfl
  obtain ⟨hy, hyu⟩ := (hmoved.used y).mpr (.inl rfl)
  have hholds := hmoved.holds
  have hsizey := hmoved.shape.dataSize_used ha hy hyu
  have hsizex := h.shape.dataSize_used ha hx hu
  simp only [(h.shape.pointer ha hx hu).2, (hmoved.shape.pointer ha hy hyu).2]
  refine ⟨by omega, fun i hi => hmoved.copied i (by omega) (by omega), fun c hc hcp => ?_,
    items', frees', hmoved.shape.lists ha⟩
  obtain ⟨a, hin, hau, hca, -⟩ := h.blocks.block c hc
  have hax : a ≠ x := fun he => hcp (by rw [hca, he])
  obtain ⟨hin', hau'⟩ := (hmoved.used a).mpr (.inr ⟨hax, hin, hau⟩)
  have hsizea := h.shape.dataSize_used ha hin hau
  obtain ⟨hpool, hmagic⟩ := h.shape.owner a hin
  obtain ⟨hpool', hmagic'⟩ := hmoved.shape.owner a hin'
  rw [hca, (h.shape.pointer ha hin hau).2]
  refine ⟨hmoved.shape.used_flag hin' hau', hmoved.next a hax hin hau, hpool'.trans hpool.symm,
    hmagic'.trans hmagic.symm, fun i hi => ?_⟩
  exact hmoved.others a hin hau hax _ (by omega) (by omega)

/-- **Reallocation is safe** in every heap that the calls that fit lead to, when the call fits.
kernel/nd_memheap.c:225-289 -/
theorem realloc_safe {p : ℕ} (ha : HeapArea cfg 2 heap start size)
    (h : (heapMachine cfg heap start size).Reach
      (fun s op => op.Fits cfg 2 heap (heapLimit heap start) false s) s)
    (hlive : ∃ b ∈ s.live, b.1 = p)
    (hfit : ResizeFits cfg 2 heap (heapLimit heap start) false p v s.mem) :
    ReallocSafe cfg heap s p v := by
  obtain ⟨harea, hlimit⟩ := ha.extend
  rw [← hlimit] at h hfit
  obtain ⟨items, frees, hok⟩ := heapOk_reach harea (fun _ _ hC => hC) h
  exact hok.resize_safe harea hlive hfit

/-- Three blocks of 32 bytes, the middle one free. -/
def gapRun : List HeapOp := [.alloc 32, .alloc 32, .alloc 32, .free (some 4168)]

/-- The first block takes the whole of the middle one. -/
theorem realloc_safe_run : ∃ s,
    (heapMachine releaseBuild 256 4096 1024).run gapRun smallHeap = some s ∧
      ReallocSafe releaseBuild 256 s 4116 64 := by
  obtain ⟨s, hs, hp⟩ := (heapMachine releaseBuild 256 4096 1024).exists_run (l := gapRun)
    (s := smallHeap) (p := fun s => (s.live.any fun b => b.1 = 4116) ∧
      ResizeFits releaseBuild 2 256 (heapLimit 256 4096) false 4116 64 s.mem) (by decide +kernel)
  have hreach := (heapMachine releaseBuild 256 4096 1024).reach_of_checked
    (C := fun s op => op.Fits releaseBuild 2 256 (heapLimit 256 4096) false s)
    (fun _ _ => of_decide_eq_true) (.start ⟨fun _ => 0, rfl⟩) hs (by decide +kernel)
  obtain ⟨hany, hfit⟩ := of_decide_eq_true hp
  obtain ⟨b, hb, hbp⟩ := List.any_eq_true.mp hany
  have hlive : ∃ b ∈ s.live, b.1 = 4116 := ⟨b, hb, of_decide_eq_true hbp⟩
  exact ⟨s, hs, realloc_safe smallHeap_area hreach hlive hfit⟩

/-- The size that a call asks for is a multiple of `sizeof(void *)`. -/
def HeapOp.WordSized (op : HeapOp) : Prop := ∀ n ∈ op.request, 4 ∣ n

instance (op : HeapOp) : Decidable op.WordSized := by
  unfold HeapOp.WordSized
  infer_instance

/-- The first block grows to 72 bytes: the header of the rest is written over the one of the third
block, which is free then. -/
theorem growing_block_frees_next :
    ¬ ∀ (cfg : Config) (heap start size : ℕ) (s : Heap) (p v : ℕ), HeapArea cfg 4 heap start size →
      (heapMachine cfg heap start size).Reach (fun _ op => op.WordSized) s →
      (∃ b ∈ s.live, b.1 = p) → 4 ∣ v → ReallocSafe cfg heap s p v := by
  intro hrule
  obtain ⟨s, hs, hp⟩ := (heapMachine releaseBuild 256 4096 1024).exists_run (l := gapRun)
    (s := smallHeap) (p := fun s => s.live = [(4220, 32), (4116, 32)] ∧
      ((ndMemheapRealloc releaseBuild 256 (some 4116) 72 s.mem).any fun r =>
        r.2 = some 4116 ∧ itemIsUsed releaseBuild 4200 r.1 = false) = true) (by decide +kernel)
  have hreach := (heapMachine releaseBuild 256 4096 1024).reach_of_checked
    (C := fun _ op => op.WordSized) (fun _ _ => of_decide_eq_true) (.start ⟨fun _ => 0, rfl⟩) hs
    (by decide +kernel)
  obtain ⟨hlive, hcall⟩ := of_decide_eq_true hp
  obtain ⟨m, ret, hret, hsafe⟩ := hrule releaseBuild 256 4096 1024 s 4116 72
    (by constructor <;> decide) hreach ⟨(4116, 32), by simp [hlive], rfl⟩ (by decide)
  rw [hret] at hcall
  obtain ⟨hptr, hfree⟩ := of_decide_eq_true hcall
  have hptr' : ret = some 4116 := hptr
  subst hptr'
  obtain ⟨-, -, hothers, -⟩ := hsafe
  obtain ⟨hused, -⟩ := hothers (4220, 32) (by simp [hlive]) (by decide)
  have hitem : dataToItem releaseBuild 4220 = 4200 := by decide
  rw [hitem] at hused
  have hfree' : itemIsUsed releaseBuild 4200 m = false := hfree
  rw [hfree'] at hused
  cases hused

/-! ## Alignment -/

/-- The headers lie at even addresses, where `item_next` returns what `item_set_next` has stored,
and the pointers that are handed out are multiples of `sizeof(void *)`. -/
structure HeadersAligned (cfg : Config) (heap : ℕ) (s : Heap) (items : List ℕ) : Prop where
  phys : (heapView cfg heap s.mem).phys.Seg (startItem heap) items (endItem cfg heap)
  even : ∀ a ∈ startItem heap :: endItem cfg heap :: items, a % 2 = 0
  stored : ∀ a ∈ startItem heap :: endItem cfg heap :: items,
    ∀ x, itemNext cfg x (itemSetNext cfg x a s.mem) = a
  pointers : ∀ b ∈ s.live, b.1 % 4 = 0

/-- `item_next` is the inverse of `item_set_next` at even addresses, whatever the flag is. -/
theorem itemNext_itemSetNext (he : 2 ∣ v) (hv : v < 2 ^ 32) (x : ℕ) (m : Mem) :
    itemNext cfg x (itemSetNext cfg x v m) = v := by
  have hbit : ItemField.next.get cfg x m &&& 1 < 2 := by
    rw [and_one]
    exact Nat.mod_lt _ (by decide)
  have hor := or_bit he hbit
  unfold itemNext itemSetNext
  rw [get_set_self (by rw [hor]; omega), hor]
  unfold clearLowBit
  omega

/-- On a pool and a control block at multiples of four all headers are. -/
theorem HeapOk.aligned (h : HeapOk cfg 4 heap start size s items frees)
    (ha : HeapArea cfg 4 heap start size) : HeadersAligned cfg heap s items := by
  have hb := h.shape.laid.bases ha
  refine ⟨h.shape.phys, fun a hm => Nat.mod_eq_zero_of_dvd (hb.even a hm), fun a hm x =>
    itemNext_itemSetNext (hb.even a hm) (hb.word a hm) x s.mem, fun b hm => ?_⟩
  obtain ⟨a, hin, -, hba, -⟩ := h.blocks.block b hm
  have haligned := h.shape.laid.aligned a hin
  have hsize := ha.dvd.2
  rw [hba]
  exact Nat.mod_eq_zero_of_dvd (Nat.dvd_add haligned hsize)

/-- **Headers are even and pointers aligned** in every run that splits no block at another size.
kernel/nd_memheap.c:5-49, 102-138, 237-262 -/
theorem headers_aligned (ha : HeapArea cfg 4 heap start size)
    (h : (heapMachine cfg heap start size).Reach
      (fun s op => op.Fits cfg 4 heap (heapLimit heap start) false s) s) :
    ∃ items, HeadersAligned cfg heap s items := by
  obtain ⟨harea, hlimit⟩ := ha.extend
  rw [← hlimit] at h
  obtain ⟨items, frees, hok⟩ := heapOk_reach harea (fun _ _ hC => hC) h
  exact ⟨items, hok.aligned harea⟩

/-- 30 bytes are handed out of a free block of 32, which is not split. -/
theorem headers_aligned_run : ∃ s items,
    (heapMachine releaseBuild 256 4096 1024).run
        [.alloc 32, .alloc 32, .free (some 4116), .alloc 30, .realloc (some 4116) 31] smallHeap =
          some s ∧
      s.live = [(4116, 31), (4168, 32)] ∧ HeadersAligned releaseBuild 256 s items := by
  obtain ⟨s, hs, hp⟩ := (heapMachine releaseBuild 256 4096 1024).exists_run
    (l := [.alloc 32, .alloc 32, .free (some 4116), .alloc 30, .realloc (some 4116) 31])
    (s := smallHeap) (p := fun s => s.live = [(4116, 31), (4168, 32)]) (by decide +kernel)
  have hreach := (heapMachine releaseBuild 256 4096 1024).reach_of_checked
    (C := fun s op => op.Fits releaseBuild 4 256 (heapLimit 256 4096) false s)
    (fun _ _ => of_decide_eq_true) (.start ⟨fun _ => 0, rfl⟩) hs (by decide +kernel)
  obtain ⟨items, haligned⟩ := headers_aligned (by constructor <;> decide) hreach
  exact ⟨s, items, hs, of_decide_eq_true hp, haligned⟩

/-- Behind a block of one byte the next header is at 4117, and its block at 4137. -/
theorem odd_size_misaligns_pointer :
    ¬ ∀ (cfg : Config) (heap start size : ℕ) (s : Heap), HeapArea cfg 4 heap start size →
      (heapMachine cfg heap start size).Reach Machine.Always s →
      ∃ items, HeadersAligned cfg heap s items := by
  intro hrule
  obtain ⟨s, hs, hp⟩ := (heapMachine releaseBuild 256 4096 1024).exists_run
    (l := [.alloc 1, .alloc 4])
    (s := smallHeap) (p := fun s => s.live = [(4137, 4), (4116, 1)]) (by decide +kernel)
  have hreach := (heapMachine releaseBuild 256 4096 1024).reach_of_run (C := Machine.Always)
    (fun _ _ _ => trivial) (.start ⟨fun _ => 0, rfl⟩) hs
  obtain ⟨items, haligned⟩ := hrule releaseBuild 256 4096 1024 s (by constructor <;> decide) hreach
  have hlive : s.live = [(4137, 4), (4116, 1)] := of_decide_eq_true hp
  have hword := haligned.pointers (4137, 4) (by simp [hlive])
  exact absurd hword (by decide)

end NerdRtos
