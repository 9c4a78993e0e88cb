import NerdRtos.Lib.DoublyLinked
import NerdRtos.Lib.FreeList
import NerdRtos.Model.Memheap

/-!
# The headers of the heap

`headers` reads what the bytes say about a list `bs` of headers that do not overlap: two doubly
linked lists, the flags, and `available_size`. Each function of `kernel/nd_memheap.c` is one update
of this record, as long as the headers that it touches are in `bs`.
-/

set_option autoImplicit false

namespace NerdRtos

open Bytes (Mem load32 store32 Apart)
open Function (update)

variable {cfg : Config} {heap : ℕ} {bs : List ℕ} {m : Mem} {x y v : ℕ} {f g : ItemField}

/-- What a heap's headers say: the list in the order of addresses, the free list, which blocks are
used, whose they are, and the bytes that are free; `rest` is the memory that holds none of this. -/
structure Headers where
  phys : Links ℕ
  free : Links ℕ
  used : ℕ → Bool
  pool : ℕ → ℕ
  magic : ℕ → Bool
  avail : ℕ
  rest : Mem

/-- Address `z` is in no header and not in `available_size`. -/
def Outside (cfg : Config) (heap : ℕ) (bs : List ℕ) (z : ℕ) : Prop :=
  (∀ x ∈ bs, z < x ∨ x + itemSize cfg ≤ z) ∧
    (z < availableAt cfg heap ∨ availableAt cfg heap + 4 ≤ z)

instance (cfg : Config) (heap : ℕ) (bs : List ℕ) (z : ℕ) : Decidable (Outside cfg heap bs z) :=
  inferInstanceAs (Decidable (_ ∧ _))

/-- The headers at the addresses `bs`; elsewhere nothing is read. -/
def headers (cfg : Config) (heap : ℕ) (bs : List ℕ) (m : Mem) : Headers where
  phys :=
    { next := fun x => if x ∈ bs then itemNext cfg x m else 0
      prev := fun x => if x ∈ bs then ItemField.prev.get cfg x m else 0 }
  free :=
    { next := fun x => if x ∈ bs then ItemField.nextFree.get cfg x m else 0
      prev := fun x => if x ∈ bs then ItemField.prevFree.get cfg x m else 0 }
  used := fun x => if x ∈ bs then itemIsUsed cfg x m else false
  pool := fun x => if x ∈ bs then ItemField.pool.get cfg x m else 0
  magic := fun x => if x ∈ bs then hasMagic cfg x m else false
  avail := availableSize cfg heap m
  rest := fun z => if Outside cfg heap bs z then m z else 0

/-- The headers do not overlap each other nor `available_size`, and their addresses are even. -/
structure Bases (cfg : Config) (heap : ℕ) (bs : List ℕ) : Prop where
  apart : bs.Pairwise (Apart (itemSize cfg))
  clear : ∀ x ∈ bs, x + itemSize cfg ≤ availableAt cfg heap ∨ availableAt cfg heap + 4 ≤ x
  even : ∀ x ∈ bs, 2 ∣ x
  word : ∀ x ∈ bs, x < 2 ^ 32

/-! ## Fields -/

/-- Each field lies inside of the header. -/
theorem ItemField.offset_le (cfg : Config) (f : ItemField) : f.offset cfg + 4 ≤ itemSize cfg := by
  unfold itemSize
  cases f <;> simp only [ItemField.offset] <;> split <;> omega

/-- Two fields share their bytes when they have the same offset, and none otherwise. -/
theorem ItemField.offset_apart (cfg : Config) (f g : ItemField) :
    f.offset cfg = g.offset cfg ∨ f.offset cfg + 4 ≤ g.offset cfg ∨
      g.offset cfg + 4 ≤ f.offset cfg := by
  cases hd : cfg.debug <;> cases f <;> cases g <;> simp [ItemField.offset, hd]

/-- Two fields of a header are different words. -/
theorem ItemField.offset_inj (hne : f ≠ g) (hd : cfg.debug = true ∨ f ≠ .magic ∧ g ≠ .magic) :
    f.offset cfg ≠ g.offset cfg := by
  cases h : cfg.debug <;> cases f <;> cases g <;> simp_all [ItemField.offset]

/-- Two headers do not overlap. -/
theorem Bases.disjoint (hb : Bases cfg heap bs) (hx : x ∈ bs) (hy : y ∈ bs) (hne : x ≠ y) :
    Apart (itemSize cfg) x y :=
  hb.apart.forall hx hy hne

/-- A field reads what was last written to it. -/
theorem Bases.get_set (hb : Bases cfg heap bs) (hx : x ∈ bs) (hy : y ∈ bs) (hv : v < 2 ^ 32) :
    f.get cfg x (g.set cfg y v m) =
      if x = y ∧ f.offset cfg = g.offset cfg then v else f.get cfg x m := by
  have hf := f.offset_le cfg
  have hg := g.offset_le cfg
  unfold ItemField.get ItemField.set
  by_cases hxy : x = y
  · subst hxy
    by_cases hfg : f.offset cfg = g.offset cfg
    · rw [if_pos ⟨rfl, hfg⟩, hfg, Bytes.load32_store32 _ _ _ hv]
    · have happ := f.offset_apart cfg g
      rw [if_neg fun h => hfg h.2]
      exact Bytes.load32_store32_of_disjoint _ _ (by omega)
  · have happ := hb.disjoint hx hy hxy
    unfold Apart at happ
    rw [if_neg fun h => hxy h.1]
    exact Bytes.load32_store32_of_disjoint _ _ (by omega)

/-- Headers and `available_size` do not touch each other. -/
theorem Bases.get_store_avail (hb : Bases cfg heap bs) (hx : x ∈ bs) :
    f.get cfg x (store32 m (availableAt cfg heap) v) = f.get cfg x m := by
  have hf := f.offset_le cfg
  have hclear := hb.clear x hx
  exact Bytes.load32_store32_of_disjoint _ _ (by omega)

/-- A header does not overlap the count of the bytes that are left. -/
theorem Bases.avail_set (hb : Bases cfg heap bs) (hx : x ∈ bs) :
    availableSize cfg heap (f.set cfg x v m) = availableSize cfg heap m := by
  have hf := f.offset_le cfg
  have hclear := hb.clear x hx
  exact Bytes.load32_store32_of_disjoint _ _ (by omega)

/-- A field is a word. -/
theorem get_lt (cfg : Config) (f : ItemField) (x : ℕ) (m : Mem) : f.get cfg x m < 2 ^ 32 :=
  Bytes.load32_lt _ _

/-! ## The low bit of `next` -/

/-- The lowest bit of a number. -/
theorem and_one (n : ℕ) : n &&& 1 = n % 2 := Nat.and_one_is_mod n

/-- An address with the low bit set or not. -/
theorem or_bit {n b : ℕ} (hn : 2 ∣ n) (hb : b < 2) : n ||| b = n + b := by
  obtain ⟨k, rfl⟩ := hn
  have h := Nat.two_pow_add_eq_or_of_lt (i := 1) (b := b) (by simpa using hb) k
  simpa using h.symm

/-- Setting the lowest bit. -/
theorem or_one (n : ℕ) : n ||| 1 = clearLowBit n + 1 := by
  have hsplit : n = clearLowBit n ||| n % 2 := by
    rw [or_bit ⟨n / 2, by unfold clearLowBit; omega⟩ (Nat.mod_lt _ (by decide))]
    unfold clearLowBit
    omega
  have hbit : n % 2 ||| 1 = 1 := by
    rcases Nat.mod_two_eq_zero_or_one n with h | h <;> rw [h] <;> rfl
  calc n ||| 1 = (clearLowBit n ||| n % 2) ||| 1 := by rw [← hsplit]
    _ = clearLowBit n ||| 1 := by rw [Nat.or_assoc, hbit]
    _ = clearLowBit n + 1 := or_bit ⟨n / 2, by unfold clearLowBit; omega⟩ (by decide)

/-- With the lowest bit cleared a number is even. -/
theorem clearLowBit_even (n : ℕ) : 2 ∣ clearLowBit n := ⟨n / 2, by unfold clearLowBit; omega⟩

/-- An even number has its lowest bit cleared. -/
theorem clearLowBit_of_even {n : ℕ} (h : 2 ∣ n) : clearLowBit n = n := by
  unfold clearLowBit
  omega

/-! ## Writing a field -/

/-- What writing `v` to field `f` of the header at `y` changes. -/
def Headers.write (h : Headers) (y v : ℕ) : ItemField → Headers
  | .magic => { h with magic := update h.magic y (v = ndMemheapMagic) }
  | .pool => { h with pool := update h.pool y v }
  | .next =>
    { h with
      phys := { h.phys with next := update h.phys.next y (clearLowBit v) }
      used := update h.used y (v &&& 1 = 1) }
  | .prev => { h with phys := { h.phys with prev := update h.phys.prev y v } }
  | .nextFree => { h with free := { h.free with next := update h.free.next y v } }
  | .prevFree => { h with free := { h.free with prev := update h.free.prev y v } }

/-- A header at `y` whose `F` becomes `w`, with the other headers as they were. -/
theorem restrict_update {β : Type} {F G : ℕ → β} {d w : β} (hy : y ∈ bs) (hself : G y = w)
    (hother : ∀ x ∈ bs, x ≠ y → G x = F x) :
    (fun x => if x ∈ bs then G x else d) = update (fun x => if x ∈ bs then F x else d) y w := by
  funext x
  by_cases hxy : x = y
  · subst hxy
    simp [hy, hself]
  · by_cases hx : x ∈ bs
    · simp [hx, hxy, hother x hx hxy]
    · simp [hx, hxy]

/-- What agrees at the headers is the same there. -/
theorem restrict_congr {β : Type} {F G : ℕ → β} {d : β} (h : ∀ x ∈ bs, G x = F x) :
    (fun x => if x ∈ bs then G x else d) = fun x => if x ∈ bs then F x else d := by
  funext x
  by_cases hx : x ∈ bs
  · simp [hx, h x hx]
  · simp [hx]

/-- A word that is written in a header is not outside. -/
theorem rest_store {a : ℕ} (h : ∀ z, Outside cfg heap bs z → z < a ∨ a + 4 ≤ z) :
    (fun z => if Outside cfg heap bs z then store32 m a v z else 0) =
      fun z => if Outside cfg heap bs z then m z else 0 := by
  funext z
  by_cases hz : Outside cfg heap bs z
  · rw [if_pos hz, if_pos hz, Bytes.store32_of_outside m v (h z hz)]
  · rw [if_neg hz, if_neg hz]

/-- A field of a header is not outside. -/
theorem rest_set (hy : y ∈ bs) :
    (fun z => if Outside cfg heap bs z then f.set cfg y v m z else 0) =
      fun z => if Outside cfg heap bs z then m z else 0 := by
  have hf := f.offset_le cfg
  refine rest_store fun z hz => ?_
  have hout := hz.1 y hy
  omega

/-- A write to a field is a write to the record. -/
theorem Bases.headers_set (hb : Bases cfg heap bs) (hy : y ∈ bs) (hv : v < 2 ^ 32)
    (hm : f = .magic → cfg.debug = true) :
    headers cfg heap bs (f.set cfg y v m) = (headers cfg heap bs m).write y v f := by
  have havail : availableSize cfg heap (f.set cfg y v m) = availableSize cfg heap m :=
    hb.avail_set hy
  have hself : f.get cfg y (f.set cfg y v m) = v := by
    rw [hb.get_set hy hy hv, if_pos ⟨rfl, rfl⟩]
  have hother : ∀ x ∈ bs, x ≠ y → ∀ g : ItemField,
      g.get cfg x (f.set cfg y v m) = g.get cfg x m := by
    intro x hx hxy g
    rw [hb.get_set hx hy hv, if_neg fun h => hxy h.1]
  have hsame : ∀ x ∈ bs, ∀ g : ItemField, g ≠ f → g ≠ .magic →
      g.get cfg x (f.set cfg y v m) = g.get cfg x m := by
    intro x hx g hgf hg
    have hoff : g.offset cfg ≠ f.offset cfg := ItemField.offset_inj hgf (by
      by_cases hf : f = .magic
      · exact .inl (hm hf)
      · exact .inr ⟨hg, hf⟩)
    rw [hb.get_set hx hy hv, if_neg fun h => hoff h.2]
  have hmagic : f ≠ .magic → ∀ x ∈ bs, hasMagic cfg x (f.set cfg y v m) = hasMagic cfg x m := by
    intro hf x hx
    unfold hasMagic
    cases hd : cfg.debug with
    | false => rfl
    | true =>
      have hoff := ItemField.offset_inj (Ne.symm hf) (.inl hd)
      rw [hb.get_set hx hy hv, if_neg fun h => hoff h.2]
  have hnext : f ≠ .next → ∀ x ∈ bs, itemNext cfg x (f.set cfg y v m) = itemNext cfg x m ∧
      itemIsUsed cfg x (f.set cfg y v m) = itemIsUsed cfg x m := by
    intro hf x hx
    unfold itemNext itemIsUsed
    rw [hsame x hx .next (Ne.symm hf) (by simp)]
    exact ⟨rfl, rfl⟩
  have hN := fun hf => restrict_congr (d := 0) fun x hx => (hnext hf x hx).1
  have hU := fun hf => restrict_congr (d := false) fun x hx => (hnext hf x hx).2
  have hP := fun hf => restrict_congr (d := 0) fun x hx => hsame x hx .prev hf (by simp)
  have hNF := fun hf => restrict_congr (d := 0) fun x hx => hsame x hx .nextFree hf (by simp)
  have hPF := fun hf => restrict_congr (d := 0) fun x hx => hsame x hx .prevFree hf (by simp)
  have hO := fun hf => restrict_congr (d := 0) fun x hx => hsame x hx .pool hf (by simp)
  have hM := fun hf => restrict_congr (d := false) (hmagic hf)
  unfold headers Headers.write
  have hR := @rest_set cfg heap bs m y v f hy
  cases f <;> simp only [havail, hR, Headers.mk.injEq, Links.mk.injEq, and_true]
  case magic =>
    have hd := hm rfl
    refine ⟨⟨hN (by simp), hP (by simp)⟩, ⟨hNF (by simp), hPF (by simp)⟩, hU (by simp),
      hO (by simp), restrict_update hy ?_ fun x hx hxy => ?_⟩
    · simp [hasMagic, hd, hself]
    · simp [hasMagic, hother x hx hxy]
  case pool =>
    exact ⟨⟨hN (by simp), hP (by simp)⟩, ⟨hNF (by simp), hPF (by simp)⟩, hU (by simp),
      restrict_update hy hself fun x hx hxy => hother x hx hxy _, hM (by simp)⟩
  case next =>
    refine ⟨⟨restrict_update hy ?_ fun x hx hxy => ?_,
      hP (by simp)⟩, ⟨hNF (by simp), hPF (by simp)⟩,
      restrict_update hy ?_ fun x hx hxy => ?_, hO (by simp), hM (by simp)⟩
    · rw [itemNext, hself]
    · rw [itemNext, hother x hx hxy, itemNext]
    · rw [itemIsUsed, hself]
    · rw [itemIsUsed, hother x hx hxy, itemIsUsed]
  case prev =>
    exact ⟨⟨hN (by simp), restrict_update hy hself fun x hx hxy => hother x hx hxy _⟩,
      ⟨hNF (by simp), hPF (by simp)⟩, hU (by simp), hO (by simp), hM (by simp)⟩
  case nextFree =>
    exact ⟨⟨hN (by simp), hP (by simp)⟩,
      ⟨restrict_update hy hself fun x hx hxy => hother x hx hxy _, hPF (by simp)⟩, hU (by simp),
      hO (by simp), hM (by simp)⟩
  case prevFree =>
    exact ⟨⟨hN (by simp), hP (by simp)⟩,
      ⟨hNF (by simp), restrict_update hy hself fun x hx hxy => hother x hx hxy _⟩, hU (by simp),
      hO (by simp), hM (by simp)⟩

/-! ## The functions of the heap -/

section Functions

variable (hb : Bases cfg heap bs)

/-- The next header in memory. -/
@[simp] theorem headers_next (hx : x ∈ bs) :
    (headers cfg heap bs m).phys.next x = itemNext cfg x m := if_pos hx

/-- The header before in memory. -/
@[simp] theorem headers_prev (hx : x ∈ bs) :
    (headers cfg heap bs m).phys.prev x = ItemField.prev.get cfg x m := if_pos hx

/-- The next header on the free list. -/
@[simp] theorem headers_nextFree (hx : x ∈ bs) :
    (headers cfg heap bs m).free.next x = ItemField.nextFree.get cfg x m := if_pos hx

/-- The header before on the free list. -/
@[simp] theorem headers_prevFree (hx : x ∈ bs) :
    (headers cfg heap bs m).free.prev x = ItemField.prevFree.get cfg x m := if_pos hx

/-- Whether a header is in use. -/
@[simp] theorem headers_used (hx : x ∈ bs) :
    (headers cfg heap bs m).used x = itemIsUsed cfg x m := if_pos hx

/-- The address of the next header is a word. -/
theorem itemNext_lt (cfg : Config) (x : ℕ) (m : Mem) : itemNext cfg x m < 2 ^ 32 := by
  have h := get_lt cfg .next x m
  unfold itemNext clearLowBit
  omega

include hb

/-- `item_set_next`. -/
theorem Bases.headers_itemSetNext (hy : y ∈ bs) (hv : v < 2 ^ 32) (he : 2 ∣ v) :
    headers cfg heap bs (itemSetNext cfg y v m) =
      let h := headers cfg heap bs m
      { h with phys := { h.phys with next := update h.phys.next y v } } := by
  have hbit : ItemField.next.get cfg y m &&& 1 < 2 := by
    rw [and_one]
    exact Nat.mod_lt _ (by decide)
  have hor := or_bit he hbit
  have hlt : v ||| (ItemField.next.get cfg y m &&& 1) < 2 ^ 32 := by
    rw [hor]
    omega
  unfold itemSetNext
  rw [hb.headers_set hy hlt (by simp), Headers.write]
  have hclear : clearLowBit (v ||| (ItemField.next.get cfg y m &&& 1)) = v := by
    rw [hor]
    unfold clearLowBit
    omega
  have hused : decide ((v ||| (ItemField.next.get cfg y m &&& 1)) &&& 1 = 1) =
      (headers cfg heap bs m).used y := by
    rw [headers_used hy, itemIsUsed, hor, and_one, and_one]
    congr 1
    rw [Nat.add_mod, Nat.mod_mod, Nat.mod_eq_zero_of_dvd he]
    simp
  rw [hclear, hused, Function.update_eq_self]

/-- `ITEM_SET_USED`. -/
theorem Bases.headers_setUsed (hy : y ∈ bs) : headers cfg heap bs (itemSetUsed cfg y m) =
    let h := headers cfg heap bs m
    { h with used := update h.used y true } := by
  have hlt := get_lt cfg .next y m
  have hor := or_one (ItemField.next.get cfg y m)
  unfold itemSetUsed
  rw [hb.headers_set hy (by rw [hor]; unfold clearLowBit; omega) (by simp), Headers.write, hor]
  have hclear : clearLowBit (clearLowBit (ItemField.next.get cfg y m) + 1) =
      (headers cfg heap bs m).phys.next y := by
    rw [headers_next hy, itemNext]
    unfold clearLowBit
    omega
  have hused : decide (clearLowBit (ItemField.next.get cfg y m) + 1 &&& 1 = 1) = true := by
    rw [and_one, decide_eq_true_eq]
    unfold clearLowBit
    omega
  rw [hclear, hused, Function.update_eq_self]

/-- `ITEM_SET_FREE`. -/
theorem Bases.headers_setFree (hy : y ∈ bs) : headers cfg heap bs (itemSetFree cfg y m) =
    let h := headers cfg heap bs m
    { h with used := update h.used y false } := by
  have hlt := get_lt cfg .next y m
  unfold itemSetFree
  rw [hb.headers_set hy (by unfold clearLowBit; omega) (by simp), Headers.write]
  have hclear : clearLowBit (clearLowBit (ItemField.next.get cfg y m)) =
      (headers cfg heap bs m).phys.next y := by
    rw [headers_next hy, itemNext]
    unfold clearLowBit
    omega
  have hused : decide (clearLowBit (ItemField.next.get cfg y m) &&& 1 = 1) = false := by
    rw [and_one, decide_eq_false_iff_not]
    unfold clearLowBit
    omega
  rw [hclear, hused, Function.update_eq_self]

/-- `item_init`. -/
theorem Bases.headers_itemInit (hy : y ∈ bs) (hheap : heap < 2 ^ 32) :
    headers cfg heap bs (itemInit cfg y heap m) =
      let h := headers cfg heap bs m
      { h with pool := update h.pool y heap, magic := update h.magic y true } := by
  unfold itemInit
  cases hd : cfg.debug with
  | false =>
    have hmagic : (headers cfg heap bs m).magic y = true := by
      simp [headers, hy, hasMagic, hd]
    simp only [Bool.false_eq_true, if_false]
    rw [hb.headers_set hy hheap (by simp), Headers.write]
    rw [← hmagic, Function.update_eq_self]
  | true =>
    simp only [if_true]
    rw [hb.headers_set hy hheap
      (by simp), hb.headers_set hy (by decide) (fun _ => hd), Headers.write, Headers.write]
    simp

/-- A change of `available_size`. -/
theorem Bases.headers_avail (hv : v < 2 ^ 32) :
    headers cfg heap bs (store32 m (availableAt cfg heap) v) =
      { headers cfg heap bs m with avail := v } := by
  have hget : ∀ x ∈ bs, ∀ f : ItemField,
      f.get cfg x (store32 m (availableAt cfg heap) v) = f.get cfg x m := fun x hx f =>
    hb.get_store_avail hx
  have hread : availableSize cfg heap (store32 m (availableAt cfg heap) v) = v :=
    Bytes.load32_store32 _ _ _ hv
  have hR : (fun z => if Outside cfg heap bs z then store32 m (availableAt cfg heap) v z else 0) =
      fun z => if Outside cfg heap bs z then m z else 0 := rest_store fun z hz => hz.2
  unfold headers
  simp only [hread, hR, Headers.mk.injEq, Links.mk.injEq, and_true]
  refine ⟨⟨?_, ?_⟩, ⟨?_, ?_⟩, ?_, ?_, ?_⟩ <;> refine restrict_congr fun x hx => ?_
  all_goals simp only [itemNext, itemIsUsed, hasMagic, hget x hx]

/-- `phys_list_insert_after`.
kernel/nd_memheap.c:43-49 -/
theorem Bases.headers_physInsert {anchor item : ℕ} (ha : anchor ∈ bs) (hi : item ∈ bs)
    (hn : itemNext cfg anchor m ∈ bs) (hne : anchor ≠ item) :
    headers cfg heap bs (physListInsertAfter cfg anchor item m) =
      let h := headers cfg heap bs m
      { h with phys := h.phys.insertAfter anchor item, used := update h.used item false } := by
  have heven : 2 ∣ itemNext cfg anchor m := clearLowBit_even _
  unfold physListInsertAfter
  simp only
  set m₁ := ItemField.next.set cfg item (itemNext cfg anchor m) m with hm₁
  set m₂ := ItemField.prev.set cfg item anchor m₁ with hm₂
  have h₁ := hb.headers_set (m := m) (f := .next) hi (itemNext_lt cfg anchor m) (by simp)
  have h₂ := hb.headers_set (m := m₁) (f := .prev) hi (hb.word anchor ha) (by simp)
  rw [← hm₁] at h₁
  rw [← hm₂, h₁] at h₂
  have hsame : itemNext cfg anchor m₂ = itemNext cfg anchor m := by
    rw [← headers_next ha, h₂]
    simp [Headers.write, hne, ha]
  rw [hsame, hb.headers_itemSetNext ha (hb.word item hi) (hb.even item hi),
    hb.headers_set hn (hb.word item hi) (by simp), h₂]
  have hbit : decide (itemNext cfg anchor m &&& 1 = 1) = false := by
    rw [and_one, decide_eq_false_iff_not]
    omega
  simp only [Headers.write, Links.insertAfter, clearLowBit_of_even heven, headers_next ha, hbit]

/-- `free_list_insert_after`.
kernel/nd_memheap.c:51-57 -/
theorem Bases.headers_freeInsert {anchor item : ℕ} (ha : anchor ∈ bs) (hi : item ∈ bs)
    (hn : ItemField.nextFree.get cfg anchor m ∈ bs) (hne : anchor ≠ item) :
    headers cfg heap bs (freeListInsertAfter cfg anchor item m) =
      let h := headers cfg heap bs m
      { h with free := h.free.insertAfter anchor item } := by
  unfold freeListInsertAfter
  simp only
  set m₁ := ItemField.nextFree.set cfg item (ItemField.nextFree.get cfg anchor m) m with hm₁
  set m₂ := ItemField.prevFree.set cfg item anchor m₁ with hm₂
  have h₁ := hb.headers_set (m := m) (f := .nextFree) hi (get_lt cfg .nextFree anchor m) (by simp)
  have h₂ := hb.headers_set (m := m₁) (f := .prevFree) hi (hb.word anchor ha) (by simp)
  rw [← hm₁] at h₁
  rw [← hm₂, h₁] at h₂
  have hsame : ItemField.nextFree.get cfg anchor m₂ = ItemField.nextFree.get cfg anchor m := by
    rw [← headers_nextFree ha, h₂]
    simp [Headers.write, hne, ha]
  rw [hsame, hb.headers_set ha (hb.word item hi)
    (by simp), hb.headers_set hn (hb.word item hi) (by simp), h₂]
  simp only [Headers.write, Links.insertAfter, headers_nextFree ha]

/-- `phys_list_remove`.
kernel/nd_memheap.c:59-63 -/
theorem Bases.headers_physRemove {item : ℕ} (hi : item ∈ bs) (hn : itemNext cfg item m ∈ bs)
    (hp : ItemField.prev.get cfg item m ∈ bs) :
    headers cfg heap bs (physListRemove cfg item m) =
      let h := headers cfg heap bs m
      { h with phys := h.phys.remove item } := by
  have heven : 2 ∣ itemNext cfg item m := clearLowBit_even _
  unfold physListRemove
  simp only
  set m₁ := itemSetNext cfg (ItemField.prev.get cfg item m) (itemNext cfg item m) m with hm₁
  have h₁ := hb.headers_itemSetNext (m := m) hp (itemNext_lt cfg item m) heven
  rw [← hm₁] at h₁
  have hsame : itemNext cfg item m₁ = itemNext cfg item m := by
    rw [← headers_next hi, h₁]
    by_cases he : item = ItemField.prev.get cfg item m
    · simp [← he]
    · simp [he, hi]
  have hprev : ItemField.prev.get cfg item m₁ = ItemField.prev.get cfg item m := by
    rw [← headers_prev hi, h₁]
    simp [hi]
  rw [hsame, hprev, hb.headers_set hn (get_lt cfg .prev item m) (by simp), h₁]
  simp only [Headers.write, Links.remove, headers_next hi, headers_prev hi]

/-- `free_list_remove`.
kernel/nd_memheap.c:65-69 -/
theorem Bases.headers_freeRemove {item : ℕ} (hi : item ∈ bs)
    (hn : ItemField.nextFree.get cfg item m ∈ bs) (hp : ItemField.prevFree.get cfg item m ∈ bs) :
    headers cfg heap bs (freeListRemove cfg item m) =
      let h := headers cfg heap bs m
      { h with free := h.free.remove item } := by
  unfold freeListRemove
  simp only
  set m₁ := ItemField.nextFree.set cfg (ItemField.prevFree.get cfg item m)
    (ItemField.nextFree.get cfg item m) m with hm₁
  have h₁ := hb.headers_set (m := m) (f := .nextFree) hp (get_lt cfg .nextFree item m) (by simp)
  rw [← hm₁] at h₁
  have hsame : ItemField.nextFree.get cfg item m₁ = ItemField.nextFree.get cfg item m := by
    rw [← headers_nextFree hi, h₁]
    by_cases he : item = ItemField.prevFree.get cfg item m
    · simp [Headers.write, ← he]
    · simp [Headers.write, he, hi]
  have hprev : ItemField.prevFree.get cfg item m₁ = ItemField.prevFree.get cfg item m := by
    rw [← headers_prevFree hi, h₁]
    simp [Headers.write, hi]
  rw [hsame, hprev, hb.headers_set hn (get_lt cfg .prevFree item m) (by simp), h₁]
  simp only [Headers.write, Links.remove, headers_nextFree hi, headers_prevFree hi]

/-- `free_list_replace`.
kernel/nd_memheap.c:71-77 -/
theorem Bases.headers_freeReplace {old item : ℕ} (ho : old ∈ bs) (hi : item ∈ bs)
    (hn : ItemField.nextFree.get cfg old m ∈ bs) (hp : ItemField.prevFree.get cfg old m ∈ bs)
    (hne : old ≠ item) (hno : ItemField.nextFree.get cfg old m ≠ old) :
    headers cfg heap bs (freeListReplace cfg old item m) =
      let h := headers cfg heap bs m
      { h with free := h.free.replace old item } := by
  unfold freeListReplace
  simp only
  set m₁ := ItemField.prevFree.set cfg item (ItemField.prevFree.get cfg old m) m with hm₁
  set m₂ := ItemField.nextFree.set cfg item (ItemField.nextFree.get cfg old m₁) m₁ with hm₂
  set m₃ := ItemField.prevFree.set cfg (ItemField.nextFree.get cfg old m₂) item m₂ with hm₃
  have h₁ := hb.headers_set (m := m) (f := .prevFree) hi (get_lt cfg .prevFree old m) (by simp)
  rw [← hm₁] at h₁
  have hnext₁ : ItemField.nextFree.get cfg old m₁ = ItemField.nextFree.get cfg old m := by
    rw [← headers_nextFree ho, h₁]
    simp [Headers.write, ho]
  have h₂ := hb.headers_set (m := m₁) (f := .nextFree) hi (get_lt cfg .nextFree old m₁) (by simp)
  rw [← hm₂, h₁, hnext₁] at h₂
  have hnext₂ : ItemField.nextFree.get cfg old m₂ = ItemField.nextFree.get cfg old m := by
    rw [← headers_nextFree ho, h₂]
    simp [Headers.write, ho, hne]
  have h₃ := hb.headers_set (m := m₂) (f := .prevFree) hn (hb.word item hi) (by simp)
  rw [hnext₂] at hm₃
  rw [← hm₃, h₂] at h₃
  have hprev₃ : ItemField.prevFree.get cfg old m₃ = ItemField.prevFree.get cfg old m := by
    rw [← headers_prevFree ho, h₃]
    simp [Headers.write, ho, hne, Ne.symm hno]
  rw [hprev₃, hb.headers_set hp (hb.word item hi) (by simp), h₃]
  simp only [Headers.write, Links.replace, headers_nextFree ho, headers_prevFree ho]

end Functions

end NerdRtos
