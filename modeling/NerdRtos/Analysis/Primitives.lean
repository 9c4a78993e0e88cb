import NerdRtos.Model.System
import Mathlib.Tactic

/-!
# What the list, bitmap and timer operations do

Below the bound `ND_THREAD_PRIORITY_MAX` the ready-list operations are chains of the
primitive updates of `NerdRtos.Model.Types`, and so is `nd_timer_start` on a timer with a
callback: the equations here rewrite them to such chains, whose fields the simp set reads
off. `ndGetHighestPriorityThread_spec` says what the bitmap search finds, given that the
bitmap agrees with the lists (`BitsAgree`).
-/

set_option autoImplicit false

namespace NerdRtos

/-! ## The bitmap -/

/-- Bit `p` of the bitmap after bit `q` was set.
kernel/nd_scheduler.c:53 -/
theorem getLsbD_set (b : BitVec 32) (p : ℕ) {q : ℕ} (hq : q < 32) :
    (b ||| (1#32 <<< p)).getLsbD q = (b.getLsbD q || decide (q = p)) := by
  simp [hq]
  congr 1
  by_cases h : q = p
  · simp [h]
  · simp [h]; omega

/-- Bit `p` of the bitmap after bit `q` was cleared.
kernel/nd_scheduler.c:81 -/
theorem getLsbD_clear (b : BitVec 32) (p : ℕ) {q : ℕ} (hq : q < 32) :
    (b &&& ~~~(1#32 <<< p)).getLsbD q = (b.getLsbD q && decide (q ≠ p)) := by
  simp [hq]
  congr 1
  by_cases h : q = p
  · simp [h]
  · simp [h]; omega

/-- `nd_ffs` finds a set bit, and no lower bit is set.
include/nd_bitops.h:12-22 -/
theorem ndFfs_succ (b : BitVec 32) (p : ℕ) (h : ndFfs b = p + 1) :
    p < 32 ∧ b.getLsbD p = true ∧ ∀ q < p, b.getLsbD q = false := by
  unfold ndFfs ctz at h
  split at h
  · cases h
  · rename_i hb
    simp only [Nat.add_right_cancel_iff] at h
    cases hf : (List.range 32).find? (fun i => b.getLsbD i) with
    | none =>
      exfalso
      apply hb
      rw [List.find?_eq_none] at hf
      apply BitVec.eq_of_getLsbD_eq
      intro i hi
      simpa using hf i (by simpa using hi)
    | some i =>
      rw [hf] at h
      simp only [Option.getD_some] at h
      subst h
      rw [List.find?_range_eq_some] at hf
      simp only [List.mem_range, Bool.not_eq_eq_eq_not, Bool.not_true] at hf
      exact ⟨hf.2.1, hf.1, hf.2.2⟩

/-- `nd_ffs` is zero only when no bit is set.
include/nd_bitops.h:14 -/
theorem ndFfs_zero (b : BitVec 32) (h : ndFfs b = 0) (q : ℕ) : b.getLsbD q = false := by
  unfold ndFfs at h
  split at h
  · simp_all
  · cases h

/-- The bitmap agrees with the ready lists. -/
def BitsAgree (b : BitVec 32) (lists : QHead → List Tid) : Prop :=
  ∀ p < 32, b.getLsbD p = true ↔ lists (.ready p) ≠ []

/-- Adding a thread to ready list `p` and setting bit `p` keeps the agreement. -/
theorem BitsAgree.link {b : BitVec 32} {q : Intrusive.Queues QHead Tid} (h : BitsAgree b q.lists)
    (pos : Tid → Bool) (p : ℕ) {t : Tid} (ht : q.home t = none) :
    BitsAgree (b ||| (1#32 <<< p)) (q.link pos (.ready p) t).lists := by
  intro r hr
  rw [getLsbD_set b p hr, q.lists_link pos _ ht]
  by_cases he : r = p
  · subst he
    simp [Intrusive.insertWhere_ne_nil]
  · simp [he, h r hr]

/-- Removing a thread from a list that is not a ready list keeps the agreement. -/
theorem BitsAgree.unlink {b : BitVec 32} {q : Intrusive.Queues QHead Tid}
    (h : BitsAgree b q.lists) {t : Tid} (ht : ∀ p, q.home t ≠ some (.ready p)) :
    BitsAgree b (q.unlink t).lists := by
  intro r hr
  have hm : t ∉ q.lists (.ready r) := by
    rw [q.mem_iff]
    exact ht r
  rw [q.lists_unlink, List.erase_of_not_mem hm]
  exact h r hr

/-! ## The ready lists -/

variable {s : State} {t : Tid}

/-- `nd_thread_ready_add_tail` as a chain of updates.
kernel/nd_scheduler.c:43-54 -/
theorem readyAddTail_eq (h : (s.threads t).priority < 32) :
    ndThreadReadyAddTail t s =
      setReadyBit (s.threads t).priority
        (s.listInsert (fun _ => false) (.ready (s.threads t).priority) t) := by
  unfold ndThreadReadyAddTail ndThreadPriorityMax
  rw [if_neg (by omega)]

/-- `nd_thread_ready_add_head` as a chain of updates.
kernel/nd_scheduler.c:56-67 -/
theorem readyAddHead_eq (h : (s.threads t).priority < 32) :
    ndThreadReadyAddHead t s =
      setReadyBit (s.threads t).priority
        (s.listInsert (fun _ => true) (.ready (s.threads t).priority) t) := by
  unfold ndThreadReadyAddHead ndThreadPriorityMax
  rw [if_neg (by omega)]

/-- The bitmap after thread `t` has left its ready list. -/
def bitAfterRemove (s : State) (t : Tid) : BitVec 32 :=
  if (s.listRemove t).listIsEmpty (.ready (s.threads t).priority) then
    s.readyBit &&& ~~~(1#32 <<< (s.threads t).priority)
  else s.readyBit

/-- Replace the bitmap. -/
@[simps] def State.withReadyBit (s : State) (b : BitVec 32) : State := { s with readyBit := b }

/-- `nd_thread_ready_remove` as a chain of updates.
kernel/nd_scheduler.c:69-82 -/
theorem readyRemove_eq (h : (s.threads t).priority < 32) :
    ndThreadReadyRemove t s = (s.listRemove t).withReadyBit (bitAfterRemove s t) := by
  unfold ndThreadReadyRemove ndThreadPriorityMax bitAfterRemove
  rw [if_neg (by omega)]
  by_cases he : (s.listRemove t).listIsEmpty (.ready (s.threads t).priority) = true
  · simp only [he, if_true]
    rfl
  · simp only [he]
    rfl

/-- Removing a thread from its ready list keeps the bitmap in agreement. -/
theorem BitsAgree.bitAfterRemove (h : BitsAgree s.readyBit s.queues.lists)
    (ht : s.queues.home t = some (.ready (s.threads t).priority)) :
    BitsAgree (bitAfterRemove s t) (s.queues.unlink t).lists := by
  intro p hp
  unfold NerdRtos.bitAfterRemove State.listIsEmpty
  by_cases he : p = (s.threads t).priority
  · subst he
    have hne : s.queues.lists (.ready (s.threads t).priority) ≠ [] :=
      List.ne_nil_of_mem ((s.queues.mem_iff _ _).mpr ht)
    split
    · rename_i hempty
      rw [getLsbD_clear _ _ hp]
      simp only [State.listRemove_queues, List.isEmpty_iff] at hempty
      rw [hempty]
      simp
    · rename_i hempty
      simp only [State.listRemove_queues, List.isEmpty_iff] at hempty
      simp only [(h _ hp).mpr hne, true_iff]
      exact hempty
  · have hkeep : (s.queues.unlink t).lists (.ready p) = s.queues.lists (.ready p) :=
      s.queues.lists_unlink_of_home ht (by simp [he])
    rw [hkeep]
    split
    · rw [getLsbD_clear _ _ hp]
      simp [he, h p hp]
    · exact h p hp

/-- The search of the bitmap finds the first thread of the lowest non-empty ready list.
kernel/nd_scheduler.c:84-91 -/
theorem ndGetHighestPriorityThread_spec (h : BitsAgree s.readyBit s.queues.lists) :
    (ndGetHighestPriorityThread s = none ∧ ∀ p < 32, s.queues.lists (.ready p) = []) ∨
      ∃ p < 32, ∃ n, ndGetHighestPriorityThread s = some n ∧
        s.queues.home n = some (.ready p) ∧ ∀ q < p, s.queues.lists (.ready q) = [] := by
  unfold ndGetHighestPriorityThread
  cases hf : ndFfs s.readyBit with
  | zero =>
    left
    refine ⟨rfl, ?_⟩
    intro p hp
    have hb := ndFfs_zero _ hf p
    by_contra hne
    rw [(h p hp).mpr hne] at hb
    cases hb
  | succ p =>
    right
    obtain ⟨hp, hset, hlow⟩ := ndFfs_succ _ _ hf
    have hne := (h p hp).mp hset
    cases hl : s.queues.lists (.ready p) with
    | nil => exact absurd hl hne
    | cons n rest =>
      have hhead : (s.queues.lists (.ready p)).head? = some n := by rw [hl]; rfl
      refine ⟨p, hp, n, hhead, s.queues.home_of_head hhead, ?_⟩
      intro q hq
      by_contra hne'
      have hb := hlow q hq
      rw [(h q (by omega)).mpr hne'] at hb
      cases hb

/-! ## Timers -/

/-- The expiry that `nd_timer_start` computes.
kernel/nd_timer.c:43-49, 186-208 -/
def expireAt (cfg : Config) (s : State) (timeout : ℕ) : ℕ :=
  if cfg.tickless then
    if (u64Size - 1) / 2 ≤ timeout then u64Size - 1 else (timeout + s.clock) % u64Size
  else (s.clock + timeout) % u64Size

/-- Timer `u` armed to expire at `e`, whether it was armed before or not. -/
@[simps threads queues taken threadList readyBit current next nest trySwitch timers clock sems
  mutexes msgQueues events pools pendsv calls log picks fault]
def State.rearm (s : State) (u : TimerId) (e : ℕ) : State :=
  { s with
    timers := Function.update s.timers u { s.timers u with expireTime := e }
    tree := (s.tree.unlink u).link
      (fun v => e < (Function.update s.timers u { s.timers u with expireTime := e } v).expireTime)
      () u }

/-- Arming a timer arms no other timer. -/
@[simp] theorem home_rearm (s : State) (u : TimerId) (e : ℕ) (v : TimerId) :
    (s.rearm u e).tree.home v = if v = u then some () else s.tree.home v := by
  unfold State.rearm
  rw [Intrusive.Queues.home_link _ _ _ (by simp)]
  by_cases hv : v = u <;> simp [hv]

/-- A timer that is linked in is armed, and the others stay. -/
@[simp] theorem isArmed_rearm (s : State) (u : TimerId) (e : ℕ) (v : TimerId) :
    (s.rearm u e).isArmed v = (decide (v = u) || s.isArmed v) := by
  unfold State.isArmed
  rw [home_rearm]
  by_cases hv : v = u <;> simp [hv]

/-- `nd_timer_start` arms a timer with a callback.
kernel/nd_timer.c:186-208 -/
theorem timerStart_eq (cfg : Config) {u : TimerId} (h : (s.timers u).callback ≠ .none) :
    (ndTimerStart cfg u s).1 = s.rearm u (expireAt cfg s (s.timers u).timeout) := by
  have hrm : (if s.isArmed u then timerRemove u s else s) = timerRemove u s := by
    split
    · rfl
    · rename_i hu
      have hfree : s.tree.home u = none := by
        simpa [State.isArmed] using hu
      unfold timerRemove
      rw [s.tree.unlink_of_free hfree]
  unfold ndTimerStart
  rw [if_neg h]
  simp only [hrm]
  cases hc : cfg.tickless <;>
    simp [timerInsert, hc, expireAt, ndHwGetCurrent, State.rearm, State.updTimer, timerRemove,
      timerNodeInsert]

/-- `nd_timer_start` on a timer without a callback refuses.
kernel/nd_timer.c:188 -/
theorem timerStart_refused (cfg : Config) {u : TimerId} (h : (s.timers u).callback = .none) :
    (ndTimerStart cfg u s).1 = s := by
  unfold ndTimerStart
  rw [if_pos h]

end NerdRtos
