import NerdRtos.Analysis.PoolBlocks

/-!
# The geometry of a pool

`nd_mempool_init` records the block size rounded up to whole words and links the blocks at the size
that it was given. The two agree for sizes that are multiples of a word, and for a single block.
-/

set_option autoImplicit false

namespace NerdRtos

open Bytes (Threaded store32 load32)

variable {cfg : Config} {s : State} {p start size count : ℕ} {u : Setup}

/-- Every block that `nd_mempool_alloc` hands out in a run is aligned and passes the assertions of
`nd_mempool_free`, and the link word of a block lies outside of the other blocks. -/
structure PoolGeometry (cfg : Config) (u : Setup) (p start size count : ℕ) : Prop where
  returned : ∀ s, (kernel cfg).Path (RespectsPool p) (boot cfg u) s →
    ∀ b ∈ s.held p, 4 ∣ b ∧ ndMempoolFreeOk (s.pools p) b = true
  links : ∀ i < count, ∀ j < count, i ≠ j → ∀ m v z, start + j * size ≤ z →
    z < start + j * size + size → store32 m (start + i * size) v z = m z

/-- The memory of a pool: an array of `count` blocks of `size` bytes, at an aligned address. -/
structure PoolArray (start size count : ℕ) : Prop where
  here : 0 < start
  aligned : 4 ∣ start
  size_pos : 1 ≤ size
  count_pos : 1 ≤ count
  fits : start + size * count < 2 ^ 32

/-! ## Sizes that are whole words, and single blocks -/

/-- A block ends before the end of the addresses. -/
theorem PoolArray.size_le (ha : PoolArray start size count) : start + size < 2 ^ 32 := by
  have hfits := ha.fits
  have hmul : size * 1 ≤ size * count := Nat.mul_le_mul_left size ha.count_pos
  omega

/-- `ND_ALIGN_UP` to four, where it does not wrap around. -/
theorem ndAlign4_eq (hlt : size + 3 < 2 ^ 32) : ndAlign4 size = (size + 3) / 4 * 4 := by
  unfold ndAlign4 u32
  rw [Nat.mod_eq_of_lt hlt]

/-- The size is a whole number of words, or there is one block and its end is an address. -/
def WholeWords (start size count : ℕ) : Prop :=
    4 ∣ size ∨ count = 1 ∧ start + ndAlign4 size < 2 ^ 32

instance : Decidable (WholeWords start size count) := inferInstanceAs (Decidable (_ ∨ _))

/-- The recorded size is the one of the blocks, or there is one block. -/
theorem WholeWords.fits (hw : WholeWords start size count) (ha : PoolArray start size count) :
    Fits start (ndAlign4 size) count ∧ start + ndAlign4 size * count < 2 ^ 32 ∧
      ∀ m, ndMempoolInit start size count m = ndMempoolInit start (ndAlign4 size) count m := by
  have hlt := ha.size_le
  have hhere := ha.here
  have hfits := ha.fits
  have hpos := ha.size_pos
  have haligned := ha.aligned
  have hround : ndAlign4 size = (size + 3) / 4 * 4 := ndAlign4_eq (by omega)
  rcases hw with hd | ⟨rfl, hend⟩
  · have hsame : ndAlign4 size = size := ndAlign4_of_dvd hd (by omega)
    rw [hsame]
    exact ⟨⟨hd, hpos, hhere, hfits.le⟩, hfits, fun _ => rfl⟩
  · rw [Nat.mul_one]
    have hwhole : 4 ∣ ndAlign4 size := ⟨_, hround.trans (Nat.mul_comm _ _)⟩
    have hrounded : ndAlign4 (ndAlign4 size) = ndAlign4 size := ndAlign4_of_dvd hwhole (by omega)
    refine ⟨⟨hwhole, by omega, hhere, by omega⟩, hend, fun m => ?_⟩
    unfold ndMempoolInit linkBlocks
    rw [hrounded]
    simp [linkBlocks]

/-- A block passes the assertions of `nd_mempool_free`. -/
theorem PoolOk.freeOk {l : Mempool × List ℕ} {b : ℕ} (h : PoolOk start size count l)
    (hd : 4 ∣ start)
    (hf : Fits start size count) (hend : start + size * count < 2 ^ 32) (hb : b ∈ l.2) :
    4 ∣ b ∧ ndMempoolFreeOk l.1 b = true := by
  obtain ⟨free, hpool, -⟩ := h.pool
  obtain ⟨hstart, hsize, hcount⟩ := h.params
  obtain ⟨i, hi, rfl⟩ := mem_blocks.mp (hpool.mem_slots (.inr hb))
  have hpos := hf.pos
  have hlast : (i + 1) * size ≤ count * size := Nat.mul_le_mul_right size hi
  rw [Nat.add_mul, Nat.mul_comm count] at hlast
  refine ⟨Nat.dvd_add hd (hf.aligned.mul_left i), ?_⟩
  unfold ndMempoolFreeOk u32
  rw [hstart, hsize, hcount, Nat.mod_eq_of_lt hend, Bool.and_eq_true, Bool.and_eq_true,
    decide_eq_true_eq, decide_eq_true_eq, decide_eq_true_eq]
  refine ⟨⟨by omega, by omega⟩, ?_⟩
  rw [Nat.add_sub_cancel_left]
  exact Nat.mul_mod_left i size

/-- A word at the start of a block is outside of the other blocks. -/
theorem store32_block (hr : 4 ≤ size) {i j : ℕ} (hij : i ≠ j) (m : Bytes.Mem) (v : ℕ) {z : ℕ}
    (hlow : start + j * size ≤ z) (hhigh : z < start + j * size + size) :
    store32 m (start + i * size) v z = m z := by
  refine Bytes.store32_of_outside m v ?_
  rcases Nat.lt_or_gt_of_ne hij with hlt | hlt
  · have hmul : (i + 1) * size ≤ j * size := Nat.mul_le_mul_right size hlt
    rw [Nat.add_mul] at hmul
    omega
  · have hmul : (j + 1) * size ≤ i * size := Nat.mul_le_mul_right size hlt
    rw [Nat.add_mul] at hmul
    omega

/-- Blocks of whole words make the pool that was asked for. -/
theorem WholeWords.geometry (hw : WholeWords start size count) (ha : PoolArray start size count)
    (hu : u.pools p = (start, size, count)) : PoolGeometry cfg u p start size count := by
  obtain ⟨hf, hend, hsame⟩ := hw.fits ha
  refine ⟨fun s hs b hb => ?_, fun i hi j hj hij m v z hlow hhigh => ?_⟩
  · have hinit := poolOk_init hf ha.count_pos u.mem
    rw [← hsame] at hinit
    have hok : PoolOk start (ndAlign4 size) count (s.ledger p) :=
      poolOk_path hf (by simpa [initObjects, hu] using hinit) hs
    exact hok.freeOk ha.aligned hf hend hb
  · rcases hw with hd | ⟨rfl, -⟩
    · exact store32_block (Nat.le_of_dvd ha.size_pos hd) hij m v hlow hhigh
    · omega

/-! ## Two blocks of another size -/

/-- `main` allocates a block of pool `p`. -/
def allocAction (p : ℕ) : Action := .call (.wait (.mempoolAlloc p ndTimeoutNowait))

/-- Where `main` runs, before `nd_scheduler_start`. -/
structure InMain (s : State) : Prop where
  current : s.current = none
  nest : s.nest = 0
  noFault : s.fault = false

/-- The kernel boots into `main`. -/
theorem inMain_boot (cfg : Config) (u : Setup) : InMain (boot cfg u) := by
  have hfault := (sound_boot cfg u).1.consistent.books.noFault
  rw [boot_eq] at hfault ⊢
  have hflags := (flags_readyAdd idleTid ((initObjects u).created idleTid idleArgs)).1
  rw [created_eq rfl] at hflags hfault ⊢
  exact ⟨congrArg Flags.current hflags, congrArg Flags.nest hflags, hfault⟩

/-- Booting leaves the pools, and nothing has happened. -/
theorem pools_boot (cfg : Config) (u : Setup) :
    (boot cfg u).pools = (initObjects u).pools ∧ (boot cfg u).log = [] := by
  have hoff := offCpu_boot cfg u
  rw [created_eq rfl] at hoff
  exact ⟨(congrArg State.pools hoff :), (congrArg State.log hoff :)⟩

/-- `main` is handed the first free block. -/
theorem InMain.alloc (cfg : Config) (h : InMain s) (hne : (s.pools p).freeCount ≠ 0) :
    ∃ s', (kernel cfg).Path (RespectsPool p) s s' ∧ InMain s' ∧
      s'.held p = (s.pools p).freeList :: s.held p ∧
      s'.pools p = { s.pools p with
        freeList := load32 (s.pools p).mem (s.pools p).freeList
        freeCount := (s.pools p).freeCount - 1 } := by
  have hcaller : s.caller = none := by
    unfold State.caller
    rw [if_pos h.nest, h.current]
  have hexec : exec cfg (allocAction p) s =
      (((s.emit (.call none (.mempoolAlloc p ndTimeoutNowait) s.clock)).updPool p fun pl =>
        { pl with
          freeList := load32 pl.mem (s.pools p).freeList
          freeCount := pl.freeCount - 1 }).emit
          (.ret none (.mempoolAlloc p ndTimeoutNowait) (.block (some (s.pools p).freeList)))) := by
    show startCall cfg (.mempoolAlloc p ndTimeoutNowait) s = _
    unfold startCall
    rw [hcaller]
    simp only [callBody, loopTurns, ndMempoolAlloc, State.emit_pools, if_neg hne]
    rfl
  have hallowed : allowed cfg s (allocAction p) = true := by
    have hmode : threadMode s = none := by
      unfold threadMode
      split
      · exact h.current
      · rfl
    simp [allowed, allocAction, h.noFault, hmode, h.current, Op.valid, Op.fromIrq]
  refine ⟨exec cfg (allocAction p) s, Machine.Path.single (allocAction p) ⟨hallowed, ?_⟩ ?_, ?_⟩
  · rw [hexec]
    exact h.noFault
  · refine ⟨fun ptr hop => ?_, fun ptr v hw => ?_⟩
    · cases hop
    · cases hw
  · rw [hexec]
    refine ⟨⟨h.current, h.nest, h.noFault⟩, ?_, ?_⟩
    · simp [State.held, heldBlocks]
    · simp

/-- The first two blocks that are handed out. -/
theorem first_alloc (cfg : Config) (ha : PoolArray start size count)
    (hu : u.pools p = (start, size, count)) :
    ∃ s, (kernel cfg).Path (RespectsPool p) (boot cfg u) s ∧ InMain s ∧ s.held p = [start] ∧
      s.pools p =
        { ndMempoolInit start size count u.mem with
          freeList := load32 (ndMempoolInit start size count u.mem).mem start
          freeCount := count - 1 } := by
  have hcount := ha.count_pos
  obtain ⟨hpools, hlog⟩ := pools_boot cfg u
  have hpool : (boot cfg u).pools p = ndMempoolInit start size count u.mem := by
    rw [hpools]
    simp [initObjects, hu]
  have hne : ((boot cfg u).pools p).freeCount ≠ 0 := by
    rw [hpool]
    exact Nat.pos_iff_ne_zero.mp hcount
  obtain ⟨s, hpath, hmain, hheld, hafter⟩ := (inMain_boot cfg u).alloc cfg hne
  rw [hpool] at hheld hafter
  refine ⟨s, hpath, hmain, ?_, hafter⟩
  rw [hheld, State.held, hlog]
  rfl

/-- The second one begins `size` bytes behind the first. -/
theorem second_alloc (cfg : Config) (ha : PoolArray start size count) (hr : 4 ≤ size)
    (htwo : 2 ≤ count) (hu : u.pools p = (start, size, count)) :
    ∃ s, (kernel cfg).Path (RespectsPool p) (boot cfg u) s ∧ s.held p = [start + size, start] := by
  obtain ⟨s, hpath, hmain, hheld, hpool⟩ := first_alloc cfg ha hu
  have hf : Strided start size count := ⟨hr, ha.here, ha.fits.le⟩
  have hlink : load32 (ndMempoolInit start size count u.mem).mem start = start + size := by
    have hall := threaded_linkBlocks hf count 0 u.mem (by omega) (by omega)
    obtain ⟨n, rfl⟩ : ∃ n, count = n + 2 := ⟨count - 2, by omega⟩
    simp only [blocksFrom, List.range'_succ, List.map_cons, Threaded, Nat.zero_mul,
      Nat.add_zero] at hall
    exact hall.2.2.1.trans (by omega)
  have hne : (s.pools p).freeCount ≠ 0 := by
    rw [hpool]
    show count - 1 ≠ 0
    omega
  obtain ⟨s', hpath', -, hheld', -⟩ := hmain.alloc cfg hne
  refine ⟨s', hpath.trans hpath', ?_⟩
  rw [hheld', hheld, hpool, hlink]

/-- The link word of a block of less than four bytes reaches into the next block. -/
theorem link_overlaps (start : ℕ) (hpos : 1 ≤ size) (hlt : size < 4) :
    store32 (fun _ => 0) start (2 ^ 32 - 1) (start + size) ≠ 0 := by
  unfold store32
  rw [if_neg (by omega)]
  obtain rfl | rfl | rfl : size = 1 ∨ size = 2 ∨ size = 3 := by omega
  · rw [if_pos rfl]
    decide
  · rw [if_neg (by omega), if_pos rfl]
    decide
  · rw [if_neg (by omega), if_neg (by omega), if_pos rfl]
    decide

/-- A pool as it was asked for has blocks of whole words. -/
theorem PoolGeometry.whole (h : PoolGeometry cfg u p start size count)
    (ha : PoolArray start size count) (hu : u.pools p = (start, size, count)) :
    WholeWords start size count := by
  have haligned := ha.aligned
  by_contra hno
  unfold WholeWords at hno
  rw [not_or, not_and] at hno
  obtain ⟨hnd, hone⟩ := hno
  by_cases hcount : count = 1
  · -- the end of the recorded block is one past the last address
    subst hcount
    have hend := hone rfl
    obtain ⟨s, hpath, -, hheld, hpool⟩ := first_alloc cfg ha hu
    have hok := (h.returned s hpath start (by simp [hheld])).2
    rw [hpool] at hok
    unfold ndMempoolFreeOk at hok
    rw [Bool.and_eq_true, Bool.and_eq_true, decide_eq_true_eq, decide_eq_true_eq] at hok
    have hbelow : start < u32 (start + ndAlign4 size * 1) := hok.1.2
    have hlt := ha.size_le
    have hhere := ha.here
    have hround : ndAlign4 size = (size + 3) / 4 * 4 := ndAlign4_eq (by omega)
    have hzero : u32 (start + ndAlign4 size * 1) = 0 := by
      unfold u32
      omega
    omega
  · have htwo : 2 ≤ count := by
      have hpos := ha.count_pos
      omega
    rcases Nat.lt_or_ge size 4 with hlt | hr
    · refine link_overlaps start ha.size_pos hlt ?_
      have hlink := h.links 0 (by omega) 1 (by omega) (by decide) (fun _ => 0) (2 ^ 32 - 1)
        (start + size) (by omega) (by have hpos := ha.size_pos; omega)
      simpa using hlink
    · obtain ⟨s, hpath, hheld⟩ := second_alloc cfg ha hr htwo hu
      have hd := (h.returned s hpath (start + size) (by simp [hheld])).1
      omega

/-- **The geometry of a pool** is right exactly for sizes that are whole words, and for a single
block.
kernel/nd_mempool.c:5-34, 56-77 -/
theorem pool_geometry_iff (cfg : Config) (u : Setup) (p : ℕ) (ha : PoolArray start size count)
    (hu : u.pools p = (start, size, count)) :
    PoolGeometry cfg u p start size count ↔ WholeWords start size count :=
  ⟨fun h => h.whole ha hu, fun hw => hw.geometry ha hu⟩

/-- Three blocks of two words. -/
theorem pool_geometry_of_words :
    PoolGeometry syncPort { pools := fun _ => (64, 8, 3) } 0 64 8 3 := by
  refine (pool_geometry_iff syncPort { pools := fun _ => (64, 8, 3) } 0 ?_ rfl).mpr (by decide)
  constructor <;> decide

/-- The second of two blocks of six bytes at address 64 is at 70. -/
theorem second_block_misaligned :
    ¬ ∀ (cfg : Config) (u : Setup) (p start size count : ℕ), PoolArray start size count →
      u.pools p = (start, size, count) → PoolGeometry cfg u p start size count := by
  intro hrule
  have h := hrule syncPort { pools := fun _ => (64, 6, 2) } 0 64 6 2 (by constructor <;> decide) rfl
  obtain ⟨s, hs, hp⟩ := (kernel syncPort).exists_run (l := [allocAction 0, allocAction 0])
    (s := boot syncPort { pools := fun _ => (64, 6, 2) }) (p := fun s => s.held 0 = [70, 64])
    (by decide +kernel)
  have hpath := (kernel syncPort).path_of_checked (respectsPool_respects (p := 0)) hs
    (by decide +kernel)
  have hheld : s.held 0 = [70, 64] := of_decide_eq_true hp
  obtain ⟨k, hk⟩ := (h.returned s hpath 70 (by simp [hheld])).1
  omega

end NerdRtos
