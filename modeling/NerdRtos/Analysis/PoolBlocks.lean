import NerdRtos.Lib.FreeList
import NerdRtos.Analysis.WakeUps

/-!
# Memory pools

The blocks of a pool that are not handed out form a list through their first words, from `free_list`
on. Which blocks are handed out is read from the history. `nd_mempool_init` links all the blocks,
and the calls and the owners, who write into what they were handed, keep the list.
-/

set_option autoImplicit false

namespace NerdRtos

open Bytes (Threaded Pool Slots Apart)

variable {cfg : Config} {s x y : State} {a : Action} {p start size count : ℕ}

/-- The blocks of pool `p` that the history hands out and that are not freed yet. -/
def heldBlocks (p : ℕ) : List Event → List ℕ
  | [] => []
  | .ret _ (.mempoolAlloc q _) (.block (some b)) :: l =>
    if q = p then b :: heldBlocks p l else heldBlocks p l
  | .blockFreed q b :: l => if q = p then (heldBlocks p l).erase b else heldBlocks p l
  | _ :: l => heldBlocks p l

/-- The blocks of pool `p` that are allocated. -/
def State.held (s : State) (p : ℕ) : List ℕ := heldBlocks p s.log

/-- The blocks of a pool. -/
def blocks (start size count : ℕ) : List ℕ := (List.range count).map fun i => start + i * size

/-- Pool `p` and its allocated blocks. -/
def State.ledger (s : State) (p : ℕ) : Mempool × List ℕ := (s.pools p, s.held p)

/-- A block of pool `p` is freed only while it is allocated, and the memory of the pool is written
only inside of allocated blocks. -/
def RespectsPool (p : ℕ) (s : State) (a : Action) : Prop :=
  (∀ ptr, a.op? = some (.mempoolFree p ptr) → ptr ∈ s.held p) ∧
    ∀ ptr v, a = .write p ptr v →
      ∃ b ∈ s.held p, b ≤ ptr ∧ ptr < b + (s.pools p).blockSize

/-- Pool `p` is the one that `nd_mempool_init` set up, and its free list and the allocated blocks
are all its blocks. -/
structure PoolOk (start size count : ℕ) (l : Mempool × List ℕ) : Prop where
  params : l.1.start = start ∧ l.1.blockSize = size ∧ l.1.blockCount = count
  pool : ∃ free, Pool l.1.mem l.1.freeList (blocks start size count) free l.2 ∧
    free.length = l.1.freeCount

/-- The memory of a pool is an array of blocks. -/
structure Fits (start size count : ℕ) : Prop where
  aligned : 4 ∣ size
  pos : 0 < size
  here : 0 < start
  fits : start + size * count ≤ 2 ^ 32

/-- The blocks, as `nd_mempool_init` links them, have room for a link and lie in the address
space. -/
structure Strided (start size count : ℕ) : Prop where
  room : 4 ≤ size
  here : 0 < start
  fits : start + size * count ≤ 2 ^ 32

/-- The blocks are apart, and no address wraps around. -/
theorem Fits.strided (hf : Fits start size count) : Strided start size count :=
  ⟨Nat.le_of_dvd hf.pos hf.aligned, hf.here, hf.fits⟩

/-! ## The blocks -/

/-- A block, by its number. -/
theorem mem_blocks {b : ℕ} : b ∈ blocks start size count ↔ ∃ i < count, b = start + i * size := by
  simp only [blocks, List.mem_map, List.mem_range]
  exact exists_congr fun i => and_congr_right fun _ => eq_comm

/-- There are as many blocks as the pool was set up with. -/
theorem length_blocks : (blocks start size count).length = count := by simp [blocks]

/-- The end of a block is inside of the memory. -/
theorem Strided.block_le (hf : Strided start size count) {i : ℕ} (hi : i < count) :
    start + i * size + size ≤ 2 ^ 32 := by
  have hmul : (i + 1) * size ≤ count * size := Nat.mul_le_mul_right size hi
  have hfits := hf.fits
  rw [Nat.mul_comm] at hfits
  rw [Nat.add_mul] at hmul
  omega

/-- The blocks are slots of a free list. -/
theorem Strided.slots (hf : Strided start size count) : Slots size (blocks start size count) := by
  refine ⟨?_, hf.room, fun b hb => ?_⟩
  · refine List.pairwise_map.mpr (List.pairwise_lt_range.imp fun {i j} hij => .inl ?_)
    have hmul : (i + 1) * size ≤ j * size := Nat.mul_le_mul_right size hij
    rw [Nat.add_mul] at hmul
    omega
  · obtain ⟨i, hi, rfl⟩ := mem_blocks.mp hb
    have hend := hf.block_le hi
    have hroom := hf.room
    have hhere := hf.here
    omega

/-! ## The initialisation -/

/-- The blocks from `i` on. -/
def blocksFrom (start size i n : ℕ) : List ℕ := (List.range' i n).map fun j => start + j * size

/-- Linking the blocks from `i` on writes nothing below block `i`. -/
theorem load32_linkBlocks (hf : Strided start size count) (n : ℕ) :
    ∀ i m b, i + n = count → b + 4 ≤ start + i * size →
      Bytes.load32 (linkBlocks start size count i n m) b = Bytes.load32 m b := by
  induction n with
  | zero => exact fun i m b _ _ => rfl
  | succ n ih =>
    intro i m b hi hb
    have hend := hf.block_le (i := i) (by omega)
    have hroom := hf.room
    have hnext : b + 4 ≤ start + (i + 1) * size := by
      rw [Nat.add_mul]
      omega
    simp only [linkBlocks]
    rw [ih (i + 1) _ b (by omega) hnext]
    refine Bytes.load32_store32_of_disjoint _ _ (.inl ?_)
    rw [u32, Nat.mod_eq_of_lt (by omega)]
    exact hb

/-- The loop of `nd_mempool_init` threads the blocks that it visits.
kernel/nd_mempool.c:22-29 -/
theorem threaded_linkBlocks (hf : Strided start size count) (n : ℕ) :
    ∀ i m, i + n = count → 0 < n →
      Threaded (linkBlocks start size count i n m) (start + i * size)
        (blocksFrom start size i n) := by
  induction n with
  | zero => exact fun i m _ h => absurd h (lt_irrefl 0)
  | succ n ih =>
    intro i m hi _
    have hend := hf.block_le (i := i) (by omega)
    have hhere := hf.here
    have hroom := hf.room
    have haddr : u32 (start + i * size) = start + i * size := Nat.mod_eq_of_lt (by omega)
    have hzero : start + i * size ≠ 0 := by omega
    refine ⟨rfl, hzero, ?_⟩
    -- the link of block `i` is written first and not touched again
    have hlink : ∀ v, v < 2 ^ 32 → Bytes.load32 (linkBlocks start size count (i + 1) n
        (Bytes.store32 m (start + i * size) v)) (start + i * size) = v := by
      intro v hv
      rw [load32_linkBlocks hf n (i + 1) _ _ (by omega) (by rw [Nat.add_mul]; omega)]
      exact Bytes.load32_store32 m _ v hv
    simp only [linkBlocks, haddr]
    cases n with
    | zero =>
      rw [if_neg (by omega), hlink 0 (by decide)]
      rfl
    | succ n =>
      have hnext := hf.block_le (i := i + 1) (by omega)
      have hword : u32 (start + (i + 1) * size) = start + (i + 1) * size :=
        Nat.mod_eq_of_lt (by omega)
      rw [if_pos (by omega), hword, hlink _ (by omega)]
      exact ih (i + 1) _ (by omega) (by omega)

/-- A multiple of four is aligned already. -/
theorem ndAlign4_of_dvd (h : 4 ∣ size) (hlt : size < 2 ^ 32) : ndAlign4 size = size := by
  obtain ⟨k, rfl⟩ := h
  unfold ndAlign4 u32
  rw [Nat.mod_eq_of_lt (by omega)]
  omega

/-- `nd_mempool_init` makes every block free.
kernel/nd_mempool.c:5-34 -/
theorem poolOk_init (hf : Fits start size count) (hcount : 1 ≤ count) (m : Bytes.Mem) :
    PoolOk start size count (ndMempoolInit start size count m, []) := by
  have hend := hf.strided.block_le (i := 0) (by omega)
  have hhere := hf.here
  refine ⟨⟨rfl, ndAlign4_of_dvd hf.aligned (by omega), rfl⟩, blocks start size count, ⟨?_, ?_⟩, ?_⟩
  · have hall := threaded_linkBlocks hf.strided count 0 m (by omega) (by omega)
    rw [blocksFrom, ← List.range_eq_range', Nat.zero_mul] at hall
    exact hall
  · rw [List.append_nil]
  · exact length_blocks

/-! ## The operations -/

variable {l : Mempool × List ℕ} {ptr : ℕ}

/-- The number of blocks is a word. -/
theorem PoolOk.count_lt (hf : Fits start size count) : count < 2 ^ 32 := by
  have hroom := hf.strided.room
  have hfits := hf.fits
  have hmul : 4 * count ≤ size * count := Nat.mul_le_mul_right count hroom
  have hhere := hf.here
  omega

/-- The first free block is handed out.
kernel/nd_mempool.c:56-58 -/
theorem PoolOk.alloc (h : PoolOk start size count l) (hne : l.1.freeCount ≠ 0) :
    PoolOk start size count
      ({ l.1 with freeList := Bytes.load32 l.1.mem l.1.freeList, freeCount := l.1.freeCount - 1 },
        l.1.freeList :: l.2) := by
  obtain ⟨free, hpool, hlen⟩ := h.pool
  cases free with
  | nil => exact absurd hlen.symm hne
  | cons b free =>
    obtain ⟨hhead, htake⟩ := hpool.take
    refine ⟨h.params, free, ?_, ?_⟩
    · rw [hhead]
      exact htake
    · have hcons : free.length + 1 = l.1.freeCount := hlen
      exact Nat.eq_sub_of_add_eq hcons

/-- An allocated block is put back.
kernel/nd_mempool.c:75-77 -/
theorem PoolOk.free (h : PoolOk start size count l) (hf : Fits start size count) (hb : ptr ∈ l.2) :
    PoolOk start size count
      ({ l.1 with
          mem := Bytes.store32 l.1.mem ptr l.1.freeList
          freeList := ptr
          freeCount := u32 (l.1.freeCount + 1) }, l.2.erase ptr) := by
  obtain ⟨free, hpool, hlen⟩ := h.pool
  refine ⟨h.params, ptr :: free, hpool.give hf.strided.slots hb (hpool.head_lt hf.strided.slots),
    ?_⟩
  have hall := hpool.perm.length_eq
  rw [List.length_append, length_blocks] at hall
  have hheld := List.length_pos_of_mem hb
  have hcount := PoolOk.count_lt hf
  show free.length + 1 = u32 (l.1.freeCount + 1)
  rw [u32, Nat.mod_eq_of_lt (by omega)]
  omega

/-- The owner of a block writes into it. -/
theorem PoolOk.write (h : PoolOk start size count l) (hf : Fits start size count) {b : ℕ}
    (hb : b ∈ l.2) (hptr : b ≤ ptr ∧ ptr < b + size) (v : BitVec 8) :
    PoolOk start size count ({ l.1 with mem := Function.update l.1.mem ptr v }, l.2) := by
  obtain ⟨free, hpool, hlen⟩ := h.pool
  exact ⟨h.params, free, hpool.write hf.strided.slots hb hptr v, hlen⟩

/-! ## The steps -/

/-- A call that returns no block leaves the ledger. -/
theorem State.ledger_returned (x : State) (who : Option Tid) (c : Call) {r : Ret}
    (hr : ∀ b, r ≠ .block (some b)) : (x.returned who c r).ledger p = x.ledger p := by
  rw [State.returned_eq]
  unfold State.ledger State.held
  congr 1
  cases r with
  | err e => cases c <;> rfl
  | block b =>
    cases b with
    | none => cases c <;> rfl
    | some b => exact absurd rfl (hr b)

/-- Waking a waiter leaves the ledger. -/
theorem State.ledger_served (x : State) (k : QHead) : (x.served k).ledger p = x.ledger p := by
  unfold State.served
  split <;> rfl

/-- A boost leaves the ledger. -/
theorem State.ledger_raised (x : State) (m : Mid) (o c : Tid) :
    (x.raised m o c).ledger p = x.ledger p := by
  rw [State.raised_eq]
  rfl

/-- Every effect of a step that respects the pool keeps it. -/
theorem PoolOk.step (hf : Fits start size count) (h : PoolOk start size count (x.ledger p))
    (hC : RespectsPool p s a) (he : Effect a s x y) : PoolOk start size count (y.ledger p) := by
  have hsame : ∀ {z : State}, z.ledger p = x.ledger p → PoolOk start size count (z.ledger p) :=
    fun hz => hz ▸ h
  have hnot : ∀ {e : Err} {b : ℕ}, Ret.err e ≠ .block (some b) := fun hr => by cases hr
  cases he with
  | returns r hw hl hr hb => exact hsame (State.ledger_returned _ _ _ hb)
  | write ha =>
    rename_i q ptr v
    by_cases hq : q = p
    · subst hq
      obtain ⟨b, hb, hptr⟩ := hC.2 ptr v ha
      have hsize : (s.pools q).blockSize = size := h.params.2.1
      rw [hsize] at hptr
      have hw := h.write hf hb hptr v
      simpa [State.ledger, poolWrite, State.held] using hw
    · refine hsame ?_
      simp [State.ledger, poolWrite, State.held, Ne.symm hq]
  | semTake hw hv =>
    exact hsame (State.ledger_returned ((x.updSem _ _).emit _) _ _ fun _ => hnot)
  | lock hw ho => exact hsame (State.ledger_returned (x.handed _ _) _ _ fun _ => hnot)
  | contend ha hw ho hoc hx =>
    refine hsame ?_
    split
    · exact (State.ledger_returned _ _ _ fun _ => hnot).trans (State.ledger_raised _ _ _ _)
    · exact State.ledger_raised x _ _ _
  | send hw hq =>
    exact hsame ((State.ledger_returned _ _ _ fun _ => hnot).trans
      (State.ledger_served (x.sent _ _) _))
  | recv hw hq =>
    exact hsame ((State.ledger_returned _ _ _ fun _ => hnot).trans
      (State.ledger_served (x.received _) _))
  | alloc hw hp =>
    rename_i who q n
    by_cases hq : q = p
    · subst hq
      have ha := h.alloc hp
      rw [State.returned_eq]
      simpa [State.ledger, State.allocated, State.held, heldBlocks] using ha
    · refine hsame ?_
      rw [State.returned_eq]
      simp [State.ledger, State.allocated, State.held, heldBlocks, hq, Ne.symm hq]
  | free ha =>
    rename_i q ptr
    rw [State.ledger_served]
    by_cases hq : q = p
    · subst hq
      have hput := h.free hf (hC.1 ptr ha)
      simpa [State.ledger, State.put, State.held, heldBlocks] using hput
    · refine hsame ?_
      simp [State.ledger, State.put, State.held, heldBlocks, hq, Ne.symm hq]
  | eventSend ha =>
    rename_i e set
    refine visited_induction (P := fun z => PoolOk start size count (z.ledger p))
      (fun z t hz _ => ?_)
      s.queues (hsame rfl)
    unfold State.visited
    split <;> exact hz
  | eventTake hw hs => exact hsame (State.ledger_returned (x.granted _ _ _) _ _ fun _ => hnot)
  | create ha hb ht hst htk hu =>
    rw [created_eq hu]
    exact hsame rfl
  | _ => exact hsame rfl

/-- The scheduler does not see the pools. -/
theorem hidden_poolOk : Hidden fun z => PoolOk start size count (z.ledger p) := by
  intro x y ho h
  have hledger : y.ledger p = x.ledger p := (congrArg (fun u : State => u.ledger p) ho :)
  rw [hledger]
  exact h

/-! ## Every run -/

/-- Pool `p` loses no block: the chain from `free_list` to the end has `free_count` blocks, each
once, every block is either in the chain or allocated, and an allocation that does not wait fails
exactly when all blocks are allocated. -/
structure PoolConserved (cfg : Config) (p start size count : ℕ) (s : State) : Prop where
  chain : ∃ free, Threaded (s.pools p).mem (s.pools p).freeList free ∧
    free.length = (s.pools p).freeCount ∧ free.Nodup ∧
    (∀ b ∈ free, ∃ i < count, b = start + i * size) ∧
    ∀ i < count, Xor (start + i * size ∈ free) (start + i * size ∈ s.held p)
  held : (s.held p).Nodup ∧ ∀ b ∈ s.held p, ∃ i < count, b = start + i * size
  nowait : (callBody cfg (.mempoolAlloc p ndTimeoutNowait) s).2 = some (.block none) ↔
    ∀ i < count, start + i * size ∈ s.held p

/-- A pool in order is conserved. -/
theorem PoolOk.conserved (hf : Fits start size count) (h : PoolOk start size count (s.ledger p)) :
    PoolConserved cfg p start size count s := by
  obtain ⟨free, hpool, hlen⟩ := h.pool
  have hpool' : Pool (s.pools p).mem (s.pools p).freeList (blocks start size count) free
      (s.held p) :=
    hpool
  have hlen' : free.length = (s.pools p).freeCount := hlen
  have hnodup := hpool.nodup hf.strided.slots
  have hdisjoint := List.disjoint_of_nodup_append hnodup
  have hblock : ∀ b, b ∈ free ∨ b ∈ s.held p → ∃ i < count, b = start + i * size :=
    fun b hb => mem_blocks.mp (hpool.mem_slots hb)
  refine ⟨⟨free, hpool.threaded, hlen, (List.nodup_append.mp hnodup).1, fun b hb =>
    hblock b (.inl hb),
    fun i hi => ?_⟩, ⟨(List.nodup_append.mp hnodup).2.1, fun b hb => hblock b (.inr hb)⟩, ?_⟩
  · have hmem : start + i * size ∈ free ++ s.held p :=
      hpool.perm.mem_iff.mpr (mem_blocks.mpr ⟨i, hi, rfl⟩)
    rcases List.mem_append.mp hmem with hfree | hheld
    · exact .inl ⟨hfree, fun hheld => hdisjoint hfree hheld⟩
    · exact .inr ⟨hheld, fun hfree => hdisjoint hfree hheld⟩
  · have hfail : (callBody cfg (.mempoolAlloc p ndTimeoutNowait) s).2 = some (.block none) ↔
        (s.pools p).freeCount = 0 := by
      simp only [callBody]
      unfold ndMempoolAlloc loopTurns
      by_cases hzero : (s.pools p).freeCount = 0
      · simp [hzero]
      · simp [hzero]
    rw [hfail, ← hlen', List.length_eq_zero_iff, hpool'.exhausted_iff hf.strided.slots]
    constructor
    · exact fun hall i hi => hall _ (mem_blocks.mpr ⟨i, hi, rfl⟩)
    · intro hall b hb
      obtain ⟨i, hi, rfl⟩ := mem_blocks.mp hb
      exact hall i hi

/-- A pool that `nd_mempool_init` has set up well stays so. -/
theorem poolOk_path {u : Setup} (hf : Fits start size count)
    (hinit : PoolOk start size count ((initObjects u).pools p, []))
    (h : (kernel cfg).Path (RespectsPool p) (boot cfg u) s) :
      PoolOk start size count (s.ledger p) := by
  refine path_effects hidden_poolOk ?_ ?_ h
  · rw [created_eq rfl]
    exact hinit
  · exact fun s a _ _ hC x y _ hx he => hx.step hf hC he

/-- **No block is lost**, in every run that frees and writes allocated blocks only.
kernel/nd_mempool.c:5-85 -/
theorem pool_conserved {u : Setup} (hf : Fits start size count) (hcount : 1 ≤ count)
    (hu : u.pools p = (start, size, count))
    (h : (kernel cfg).Path (RespectsPool p) (boot cfg u) s) :
      PoolConserved cfg p start size count s := by
  refine PoolOk.conserved hf (poolOk_path hf ?_ h)
  have hinit := poolOk_init hf hcount u.mem
  simpa [initObjects, hu] using hinit

/-- Two blocks of a word at address 64. -/
def twoBlocks : Setup := { pools := fun _ => (64, 4, 2) }

/-- Both blocks are allocated, written to and freed in the order in which they were allocated. -/
def recycledRun : List Action :=
  [spawn 1 10, .start, .call (.wait (.mempoolAlloc 0 ndTimeoutNowait)),
    .call (.wait (.mempoolAlloc 0 ndTimeoutNowait)), .write 0 64 255, .write 0 71 255,
    .call (.mempoolFree 0 64), .call (.mempoolFree 0 68)]

/-- A check of the steps that respect pool `p`. -/
def respectsPool (p : ℕ) (s : State) (a : Action) : Bool :=
  match a with
  | .call (.mempoolFree q ptr) | .irq (.mempoolFree q ptr) => q ≠ p || (s.held p).contains ptr
  | .write q ptr _ =>
    q ≠ p || (s.held p).any fun b => b ≤ ptr && ptr < b + (s.pools p).blockSize
  | _ => true

/-- What the check accepts respects the pool. -/
theorem respectsPool_respects (s : State) (a : Action) (h : respectsPool p s a = true) :
    RespectsPool p s a := by
  refine ⟨fun ptr ha => ?_, fun ptr v ha => ?_⟩
  · cases a with
    | call o | irq o =>
      cases ha
      simpa [respectsPool] using h
    | _ => cases ha
  · subst ha
    simpa [respectsPool, and_assoc] using h

/-- The chain is 68, 64 at the end. -/
theorem pool_conserved_run :
    ∃ s, (kernel syncPort).run recycledRun (boot syncPort twoBlocks) = some s ∧
      (s.pools 0).freeList = 68 ∧
        (s.pools 0).freeCount = 2 ∧ PoolConserved syncPort 0 64 4 2 s := by
  obtain ⟨s, hs, hp⟩ := (kernel syncPort).exists_run (l := recycledRun)
    (s := boot syncPort twoBlocks)
    (p := fun s => (s.pools 0).freeList = 68 ∧ (s.pools 0).freeCount = 2) (by decide +kernel)
  simp only [decide_eq_true_eq] at hp
  have hpath := (kernel syncPort).path_of_checked (respectsPool_respects (p := 0)) hs
    (by decide +kernel)
  exact ⟨s, hs, hp.1, hp.2, pool_conserved
    ⟨by decide, by decide, by decide, by decide⟩ (by decide) rfl hpath⟩

/-- With blocks of no bytes all the links are written to one word, and the chain of two free blocks
has one element. -/
theorem empty_blocks_lost :
    ¬ ∀ (cfg : Config) (u : Setup) (p start size count : ℕ) (s : State), 4 ∣ size → 1 ≤ count →
      0 < start → start + size * count ≤ 2 ^ 32 → u.pools p = (start, size, count) →
      (kernel cfg).Path (RespectsPool p) (boot cfg u) s →
        PoolConserved cfg p start size count s := by
  intro hrule
  have hpool := hrule syncPort { pools := fun _ => (64, 0, 2) } 0 64 0 2 _ (by decide) (by decide)
    (by decide) (by decide) rfl .refl
  obtain ⟨free, hthread, hlen, hnodup, hin, -⟩ := hpool.chain
  have htwo : free.length = 2 := by
    rw [hlen]
    decide +kernel
  have hall : ∀ b ∈ free, b = 64 := by
    intro b hb
    obtain ⟨i, -, rfl⟩ := hin b hb
    simp
  match free, htwo with
  | [b, c], _ =>
    have hb := hall b (by simp)
    have hc := hall c (by simp)
    subst hb hc
    simp at hnodup

end NerdRtos
