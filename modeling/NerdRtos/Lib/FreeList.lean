import NerdRtos.Lib.Bytes
import Mathlib.Data.List.Pairwise
import Mathlib.Data.List.Nodup
import Mathlib.Data.List.Perm.Basic

/-!
# Free lists threaded through memory

An allocator of slots of one size keeps its free slots in a list whose links are the first words of
the slots themselves. `Threaded` follows the links; `Pool` says that the free slots and those
handed out are together all the slots. Taking the first slot, giving one back and writing
anywhere into a slot that is handed out keep this (`Pool.take`, `Pool.give`, `Pool.write`), because
slots do not overlap.
-/

set_option autoImplicit false

namespace Bytes

variable {m m' : Mem} {head size a b : ℕ} {l slots free held : List ℕ}

/-- From `head` on, the words at the addresses of `l` lead from one to the next, and the last one to
zero. -/
def Threaded (m : Mem) : ℕ → List ℕ → Prop
  | head, [] => head = 0
  | head, b :: l => head = b ∧ b ≠ 0 ∧ Threaded m (load32 m b) l

/-- A list is threaded by its own words only. -/
theorem Threaded.congr (h : Threaded m head l) (hw : ∀ b ∈ l, load32 m' b = load32 m b) :
    Threaded m' head l := by
  induction l generalizing head with
  | nil => exact h
  | cons b l ih =>
    refine ⟨h.1, h.2.1, ?_⟩
    rw [hw b (by simp)]
    exact ih h.2.2 fun c hc => hw c (by simp [hc])

/-- A byte outside of a word. -/
theorem load32_update_of_outside (m : Mem) (v : BitVec 8) (ha : a < b ∨ b + 4 ≤ a) :
    load32 (Function.update m a v) b = load32 m b := by
  unfold load32
  rw [Function.update_of_ne (by omega), Function.update_of_ne (by omega),
    Function.update_of_ne (by omega), Function.update_of_ne (by omega)]

/-- Two slots do not overlap. -/
def Apart (size b c : ℕ) : Prop := b + size ≤ c ∨ c + size ≤ b

instance (size : ℕ) : Std.Symm (Apart size) := ⟨fun _ _ => Or.symm⟩

/-- The slots of a pool: they do not overlap, each has room for a link, and addresses are words. -/
structure Slots (size : ℕ) (slots : List ℕ) : Prop where
  apart : slots.Pairwise (Apart size)
  room : 4 ≤ size
  addr : ∀ b ∈ slots, 0 < b ∧ b < 2 ^ 32

/-- Slots that are apart are different. -/
theorem Slots.nodup (h : Slots size slots) : slots.Nodup := by
  refine h.apart.imp fun {b c} hbc => ?_
  have hroom := h.room
  unfold Apart at hbc
  omega

/-- Two slots are apart. -/
theorem Slots.disjoint (h : Slots size slots) {b c : ℕ} (hb : b ∈ slots) (hc : c ∈ slots)
    (hne : b ≠ c) : Apart size b c :=
  h.apart.forall hb hc hne

/-- The free slots are threaded from `head` on, and with the slots `held` they are all there are. -/
structure Pool (m : Mem) (head : ℕ) (slots free held : List ℕ) : Prop where
  threaded : Threaded m head free
  perm : (free ++ held).Perm slots

/-- No slot is free and held. -/
theorem Pool.nodup (h : Pool m head slots free held) (hs : Slots size slots) :
    (free ++ held).Nodup :=
  h.perm.nodup_iff.mpr hs.nodup

/-- What is free or held is a slot. -/
theorem Pool.mem_slots (h : Pool m head slots free held) (hb : b ∈ free ∨ b ∈ held) : b ∈ slots :=
  h.perm.mem_iff.mp (List.mem_append.mpr hb)

/-- The first free slot is taken. -/
theorem Pool.take (h : Pool m head slots (b :: free) held) :
    head = b ∧ Pool m (load32 m b) slots free (b :: held) :=
  ⟨h.threaded.1, h.threaded.2.2, List.perm_middle.trans h.perm⟩

/-- What happens inside of a held slot leaves the links alone. -/
theorem Pool.frame (h : Pool m head slots free held) (hs : Slots size slots) (hb : b ∈ held)
    (hm : ∀ c, Apart size b c → load32 m' c = load32 m c) : Pool m' head slots free held := by
  refine ⟨h.threaded.congr fun c hc => hm c ?_, h.perm⟩
  refine hs.disjoint (h.mem_slots (.inr hb)) (h.mem_slots (.inl hc)) ?_
  rintro rfl
  exact (List.disjoint_of_nodup_append (h.nodup hs)) hc hb

/-- A held slot is given back: its first word becomes the link to the list. -/
theorem Pool.give (h : Pool m head slots free held) (hs : Slots size slots) (hb : b ∈ held)
    (hh : head < 2 ^ 32) : Pool (store32 m b head) b slots (b :: free) (held.erase b) := by
  have hroom := hs.room
  have hkept : Pool (store32 m b head) head slots free held :=
    h.frame hs hb fun c hbc => load32_store32_of_disjoint m head (by unfold Apart at hbc; omega)
  refine ⟨⟨rfl, ?_, ?_⟩, ?_⟩
  · have := (hs.addr b (h.mem_slots (.inr hb))).1
    omega
  · rw [load32_store32 m b head hh]
    exact hkept.threaded
  · have hmid : (b :: free ++ held.erase b).Perm (free ++ b :: held.erase b) :=
      List.perm_middle.symm
    exact (hmid.trans ((List.perm_cons_erase hb).symm.append_left free)).trans h.perm

/-- The owner of a slot writes into it. -/
theorem Pool.write (h : Pool m head slots free held) (hs : Slots size slots) (hb : b ∈ held)
    (ha : b ≤ a ∧ a < b + size) (v : BitVec 8) :
      Pool (Function.update m a v) head slots free held := by
  have hroom := hs.room
  refine h.frame hs hb fun c hbc => load32_update_of_outside m v ?_
  unfold Apart at hbc
  omega

/-- The head of the list is a word. -/
theorem Pool.head_lt (h : Pool m head slots free held) (hs : Slots size slots) : head < 2 ^ 32 := by
  cases free with
  | nil =>
    rw [h.threaded]
    decide
  | cons b free =>
    rw [h.threaded.1]
    exact (hs.addr b (h.mem_slots (.inl (by simp)))).2

/-- A pool with no free slot has handed out all of them. -/
theorem Pool.exhausted_iff (h : Pool m head slots free held) (hs : Slots size slots) :
    free = [] ↔ ∀ b ∈ slots, b ∈ held := by
  constructor
  · rintro rfl b hb
    exact h.perm.mem_iff.mpr hb
  · intro hall
    cases free with
    | nil => rfl
    | cons b free =>
      have hb : b ∈ held := hall b (h.mem_slots (.inl (by simp)))
      exact absurd hb fun hb => (List.disjoint_of_nodup_append (h.nodup hs)) (by simp) hb

end Bytes
