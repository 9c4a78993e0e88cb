import NerdRtos.Lib.Intrusive
import Mathlib.Data.List.Nodup
import Mathlib.Algebra.BigOperators.Group.List.Basic
import Mathlib.Algebra.Order.Ring.Nat

/-!
# Alarms in order of their deadlines

A queue of alarms, some of them periodic. As long as the first one is due it is called, and a
periodic one comes back behind all that are due at its next deadline or before. The order in the
queue is the one of the deadlines, and among equal ones the one of the insertions (`stamp`). A run
calls each alarm exactly as often as it is due (`run_spec`), in that order.
-/

set_option autoImplicit false

namespace AlarmQueue

open Function (update)
open Intrusive (insertWhere insertWhere_perm pairwise_insertWhere nodup_insertWhere)

variable {N : Type} [DecidableEq N]

/-- The alarms in their order, the deadlines, and the calls with theirs, the last one first. -/
structure Alarms (N : Type) where
  order : List N
  due : N → ℕ
  calls : List (N × ℕ) := []

section Run

variable (period : N → Option ℕ) (now : ℕ)

/-- The first alarm is called. -/
def Alarms.pop (q : Alarms N) (l : N) (rest : List N) : Alarms N :=
  match period l with
  | none => { order := rest, due := q.due, calls := (l, q.due l) :: q.calls }
  | some p =>
    let due := update q.due l (q.due l + p)
    { order := insertWhere (fun v => due l < due v) l rest, due, calls := (l, q.due l) :: q.calls }

/-- The next call, if any. -/
def Alarms.fire (q : Alarms N) : Option (Alarms N) :=
  match q.order with
  | [] => none
  | l :: rest => if now < q.due l then none else some (q.pop period l rest)

/-- At most `n` calls. -/
def Alarms.run : ℕ → Alarms N → Alarms N
  | 0, q => q
  | n + 1, q =>
    match q.fire period now with
    | none => q
    | some q => q.run n

/-! ## The order of the calls -/

/-- When an alarm was inserted last: first the alarms of the beginning, in the order `ins` of their
insertions, then one with every call. -/
def stamp (ins : List N) : List (N × ℕ) → N → ℕ
  | [], t => ins.idxOf t
  | c :: calls, t => if c.1 = t then ins.length + calls.length else stamp ins calls t

/-- The deadlines and the stamps of the calls. -/
def stamped (ins : List N) : List (N × ℕ) → List (ℕ × ℕ)
  | [] => []
  | c :: calls => (c.2, stamp ins calls c.1) :: stamped ins calls

/-- An earlier deadline, or an earlier insertion for the same one. -/
def Earlier (a b : ℕ × ℕ) : Prop := a.1 < b.1 ∨ a.1 = b.1 ∧ a.2 < b.2

/-- The deadlines that alarm `t` was called for, the last one first. -/
def callsOf (t : N) (calls : List (N × ℕ)) : List ℕ := (calls.filter fun c => c.1 = t).map Prod.snd

/-- The first `k` deadlines of a periodic alarm, the last one first. -/
def progression (e p k : ℕ) : List ℕ := (List.range k).reverse.map fun i => e + i * p

/-- How many calls of an alarm are due. -/
def dueCount (q : Alarms N) (t : N) : ℕ :=
  if q.due t ≤ now then
    match period t with
    | none => 1
    | some p => (now - q.due t) / p + 1
  else 0

/-- How many calls are due. -/
def left (q : Alarms N) : ℕ := (q.order.map (dueCount period now q)).sum

end Run

/-! ## What one call preserves -/

section Step

variable {period : N → Option ℕ} {now n p k e : ℕ} {q₀ q q' : Alarms N} {l t u : N}
  {ins rest : List N}
  {a b c : ℕ × ℕ}

/-- Earlier deadlines, with the order of the insertions among equal ones, are an order. -/
theorem Earlier.trans (h : Earlier a b) (h' : Earlier b c) : Earlier a c := by
  unfold Earlier at h h' ⊢
  omega

/-- The deadline and the stamp of an alarm. -/
def key (ins : List N) (q : Alarms N) (t : N) : ℕ × ℕ := (q.due t, stamp ins q.calls t)

/-- What has become of alarm `t`. -/
structure Fate (period : N → Option ℕ) (now : ℕ) (q₀ q : Alarms N) (t : N) : Prop where
  outside : t ∉ q₀.order → t ∉ q.order ∧ q.due t = q₀.due t ∧ callsOf t q.calls = []
  once : t ∈ q₀.order → period t = none → q.due t = q₀.due t ∧
    (t ∈ q.order ∧ callsOf t q.calls = [] ∨
      t ∉ q.order ∧ callsOf t q.calls = [q₀.due t] ∧ q₀.due t ≤ now)
  periodic : t ∈ q₀.order → ∀ p, period t = some p → t ∈ q.order ∧
    ∃ k, q.due t = q₀.due t + k * p ∧ callsOf t q.calls = progression (q₀.due t) p k ∧
      (0 < k → q₀.due t + (k - 1) * p ≤ now)

/-- The queue is in order, behind all calls, and every alarm was called as often as it was due. -/
structure Good (period : N → Option ℕ) (now : ℕ) (ins : List N) (q₀ q : Alarms N) : Prop where
  nodup : q.order.Nodup
  sorted : q.order.Pairwise fun x y => Earlier (key ins q x) (key ins q y)
  stamps : ∀ t ∈ q.order, stamp ins q.calls t < ins.length + q.calls.length
  behind : ∀ c ∈ stamped ins q.calls, ∀ t ∈ q.order, Earlier c (key ins q t)
  calls : (stamped ins q.calls).Pairwise fun a b => Earlier b a
  fate : ∀ t, Fate period now q₀ q t

/-- One term more of a progression. -/
theorem progression_succ (e p k : ℕ) : progression e p (k + 1) =
    (e + k * p) :: progression e p k := by
  unfold progression
  rw [List.range_succ, List.reverse_append]
  rfl

/-- A call of the alarm itself. -/
theorem callsOf_cons_self (t : N) (e : ℕ) (l : List (N × ℕ)) :
    callsOf t ((t, e) :: l) = e :: callsOf t l := by
  simp [callsOf]

/-- A call of another alarm. -/
theorem callsOf_cons_of_ne (h : u ≠ t) (e : ℕ) (l : List (N × ℕ)) :
    callsOf t ((u, e) :: l) = callsOf t l := by
  simp [callsOf, h]

/-- A call that pops an alarm is the last one. -/
theorem pop_calls (q : Alarms N) : (q.pop period l rest).calls = (l, q.due l) :: q.calls := by
  unfold Alarms.pop
  split <;> rfl

/-- The other alarms keep their deadlines. -/
theorem pop_due_of_ne (q : Alarms N) (h : t ≠ l) : (q.pop period l rest).due t = q.due t := by
  unfold Alarms.pop
  split
  · rfl
  · exact Function.update_of_ne h _ _

/-- Behind a call there are the alarms behind the first, and the first if it is periodic. -/
theorem mem_pop (q : Alarms N) :
    t ∈ (q.pop period l rest).order ↔ t ∈ rest ∨ t = l ∧ (period l).isSome = true := by
  unfold Alarms.pop
  split
  · rename_i hnone
    simp [hnone]
  · rename_i p hsome
    simp [hsome, or_comm]

/-- What a call is. -/
theorem fire_cases (h : q.fire period now = some q') :
    ∃ l rest, q.order = l :: rest ∧ q.due l ≤ now ∧ q' = q.pop period l rest := by
  unfold Alarms.fire at h
  split at h
  · cases h
  · rename_i l rest horder
    split at h
    · cases h
    · rename_i hdue
      exact ⟨l, rest, horder, Nat.not_lt.mp hdue, (Option.some.inj h).symm⟩

/-- The other alarms keep their places among equal deadlines. -/
theorem key_pop_of_ne (ins : List N) (q : Alarms N) (h : t ≠ l) :
    key ins (q.pop period l rest) t = key ins q t := by
  unfold key
  rw [pop_due_of_ne q h, pop_calls]
  show (q.due t, if l = t then _ else _) = _
  rw [if_neg (Ne.symm h)]

/-- A periodic alarm comes back as the last one that was inserted. -/
theorem key_pop_self (ins rest : List N) (q : Alarms N) (hp : period l = some p) :
    key ins (q.pop period l rest) l = (q.due l + p, ins.length + q.calls.length) := by
  unfold key
  rw [pop_calls]
  show (_, if l = l then _ else _) = _
  rw [if_pos rfl]
  unfold Alarms.pop
  rw [hp]
  simp

/-- The queue stays in order. -/
theorem Good.pop_sorted (h : Good period now ins q₀ q) (horder : q.order = l :: rest) :
    (q.pop period l rest).order.Pairwise fun x y =>
      Earlier (key ins (q.pop period l rest) x) (key ins (q.pop period l rest) y) := by
  have hnodup := h.nodup
  have hsorted := h.sorted
  rw [horder] at hnodup hsorted
  obtain ⟨hl, -⟩ := List.nodup_cons.mp hnodup
  have hne : ∀ t ∈ rest, t ≠ l := fun t ht heq => hl (heq ▸ ht)
  have hold : rest.Pairwise fun x y =>
      Earlier (key ins (q.pop period l rest) x) (key ins (q.pop period l rest) y) := by
    refine (List.pairwise_cons.mp hsorted).2.imp_of_mem fun {x y} hx hy hxy => ?_
    rw [key_pop_of_ne ins q (hne x hx), key_pop_of_ne ins q (hne y hy)]
    exact hxy
  cases hp : period l with
  | none =>
    have heq : (q.pop period l rest).order = rest := by
      unfold Alarms.pop
      rw [hp]
    rw [heq]
    exact hold
  | some p =>
    have heq : (q.pop period l rest).order =
        insertWhere (fun v => (q.pop period l rest).due l < (q.pop period l rest).due v) l
            rest := by
      unfold Alarms.pop
      rw [hp]
    have hself := key_pop_self ins rest q hp
    have hdue : (q.pop period l rest).due l = q.due l + p := congrArg Prod.fst hself
    rw [heq]
    refine pairwise_insertWhere _ _ _ _ hold ?_ ?_ fun x _ y _ => Earlier.trans
    · intro x hx hpass
      rw [decide_eq_false_iff_not, hdue, pop_due_of_ne q (hne x hx)] at hpass
      have hstamp := h.stamps x (by rw [horder]; exact List.mem_cons_of_mem _ hx)
      rw [hself, key_pop_of_ne ins q (hne x hx)]
      unfold Earlier key
      simp only
      omega
    · intro x hx hstop
      rw [decide_eq_true_eq, hdue, pop_due_of_ne q (hne x hx)] at hstop
      rw [hself, key_pop_of_ne ins q (hne x hx)]
      exact .inl hstop

/-- The alarm that is called was called for all its deadlines before. -/
theorem Good.pop_fate (h : Good period now ins q₀ q) (horder : q.order = l :: rest)
    (hdue : q.due l ≤ now) (t : N) :
    Fate period now q₀ (q.pop period l rest) t := by
  have hnodup := h.nodup
  rw [horder] at hnodup
  obtain ⟨hl, -⟩ := List.nodup_cons.mp hnodup
  have hf := h.fate t
  by_cases htl : t = l
  · subst htl
    have hin : t ∈ q.order := by
      rw [horder]
      exact List.mem_cons_self
    have hin₀ : t ∈ q₀.order := by
      by_contra hout
      exact (hf.outside hout).1 hin
    refine ⟨fun hout => absurd hin₀ hout, fun _ hnone => ?_, fun _ p hp => ?_⟩
    · obtain ⟨hsame, hcalls⟩ := hf.once hin₀ hnone
      obtain ⟨-, hno⟩ := hcalls.resolve_right fun hout => hout.1 hin
      refine ⟨?_, .inr ⟨?_, ?_, ?_⟩⟩
      · rw [← hsame]
        unfold Alarms.pop
        rw [hnone]
      · rw [mem_pop, hnone]
        simpa using hl
      · rw [pop_calls, callsOf_cons_self, hno, hsame]
      · rw [← hsame]
        exact hdue
    · obtain ⟨-, k, hk, hcalls, -⟩ := hf.periodic hin₀ p hp
      refine ⟨?_, k + 1, ?_, ?_, fun _ => ?_⟩
      · rw [mem_pop, hp]
        exact .inr ⟨rfl, rfl⟩
      · have hnext : (q.pop period t rest).due t = q.due t + p :=
          congrArg Prod.fst (key_pop_self ins rest q hp)
        rw [hnext, hk, Nat.add_mul, Nat.one_mul, Nat.add_assoc]
      · rw [pop_calls, callsOf_cons_self, hcalls, progression_succ, hk]
      · rw [Nat.add_sub_cancel, ← hk]
        exact hdue
  · have hmem : t ∈ (q.pop period l rest).order ↔ t ∈ q.order := by
      rw [mem_pop, horder, List.mem_cons]
      simp [htl]
    have hcalls : callsOf t (q.pop period l rest).calls = callsOf t q.calls := by
      rw [pop_calls, callsOf_cons_of_ne (Ne.symm htl)]
    refine ⟨?_, ?_, ?_⟩
    · rw [hmem, pop_due_of_ne q htl, hcalls]
      exact hf.outside
    · rw [hmem, pop_due_of_ne q htl, hcalls]
      exact hf.once
    · rw [hmem, pop_due_of_ne q htl, hcalls]
      exact hf.periodic

/-- A call keeps it all. -/
theorem Good.pop (hpos : ∀ t p, period t = some p → 0 < p) (h : Good period now ins q₀ q)
    (horder : q.order = l :: rest) (hdue : q.due l ≤ now) :
      Good period now ins q₀ (q.pop period l rest) := by
  have hnodup := h.nodup
  have hsorted := h.sorted
  rw [horder] at hnodup hsorted
  obtain ⟨hl, hrest⟩ := List.nodup_cons.mp hnodup
  have hfirst := (List.pairwise_cons.mp hsorted).1
  have hlmem : l ∈ q.order := by
    rw [horder]
    exact List.mem_cons_self
  have hcalls : (q.pop period l rest).calls = (l, q.due l) :: q.calls := pop_calls q
  have hstamped : stamped ins (q.pop period l rest).calls = key ins q l :: stamped ins q.calls := by
    rw [hcalls]
    rfl
  -- an alarm of the new queue is one of the old one behind the first, or the first one again
  have hcases : ∀ t ∈ (q.pop period l rest).order, t ∈ rest ∧ t ∈ q.order ∧ t ≠ l ∨
      t = l ∧ ∃ p, 0 < p ∧
        key ins (q.pop period l rest) t = (q.due l + p, ins.length + q.calls.length) := by
    intro t ht
    rcases (mem_pop q).mp ht with hin | ⟨rfl, hsome⟩
    · exact .inl ⟨hin, by rw [horder]; exact List.mem_cons_of_mem _ hin, fun heq => hl (heq ▸ hin)⟩
    · obtain ⟨p, hp⟩ := Option.isSome_iff_exists.mp hsome
      exact .inr ⟨rfl, p, hpos t p hp, key_pop_self ins rest q hp⟩
  have hnext : ∀ t ∈ (q.pop period l rest).order,
      Earlier (key ins q l) (key ins (q.pop period l rest) t) := by
    intro t ht
    rcases hcases t ht with ⟨hin, -, hne⟩ | ⟨rfl, p, hp, hkey⟩
    · rw [key_pop_of_ne ins q hne]
      exact hfirst t hin
    · rw [hkey]
      exact .inl (Nat.lt_add_of_pos_right hp)
  refine ⟨?_, h.pop_sorted horder, fun t ht => ?_, fun c hc t ht => ?_, ?_, h.pop_fate horder hdue⟩
  · unfold Alarms.pop
    split
    · exact hrest
    · exact nodup_insertWhere _ _ _ hl hrest
  · have hlength : (q.pop period l rest).calls.length = q.calls.length + 1 := by
      rw [hcalls]
      rfl
    rw [hlength]
    show (key ins (q.pop period l rest) t).2 < _
    rcases hcases t ht with ⟨-, hin, hne⟩ | ⟨rfl, p, -, hkey⟩
    · have hold := h.stamps t hin
      rw [key_pop_of_ne ins q hne]
      exact Nat.lt_succ_of_lt hold
    · rw [hkey]
      exact Nat.lt_succ_self _
  · rw [hstamped] at hc
    rcases List.mem_cons.mp hc with rfl | hc
    · exact hnext t ht
    · exact (h.behind c hc l hlmem).trans (hnext t ht)
  · rw [hstamped]
    exact List.pairwise_cons.mpr ⟨fun c hc => h.behind c hc l hlmem, h.calls⟩

/-! ## Runs -/

/-- A queue that nothing was called of yet, in the order of the deadlines and of the insertions. -/
theorem Good.start (hnodup : q.order.Nodup) (hins : ∀ t ∈ q.order, t ∈ ins)
    (hsorted : q.order.Pairwise fun x y => Earlier (q.due x, ins.idxOf x) (q.due y, ins.idxOf y))
    (hnone : q.calls = []) : Good period now ins q q := by
  refine ⟨hnodup, ?_, fun t ht => ?_, fun c hc => ?_, ?_, fun t =>
    ⟨fun hout => ⟨hout, rfl, ?_⟩, fun hin _ => ?_,
    fun hin p _ => ⟨hin, 0, ?_, ?_, fun h => absurd h (lt_irrefl 0)⟩⟩⟩
  · unfold key
    rw [hnone]
    exact hsorted
  · rw [hnone]
    exact List.idxOf_lt_length_of_mem (hins t ht)
  · rw [hnone] at hc
    cases hc
  · rw [hnone]
    exact List.Pairwise.nil
  · rw [hnone]
    rfl
  · rw [hnone]
    exact ⟨rfl, .inl ⟨hin, rfl⟩⟩
  · rw [Nat.zero_mul, Nat.add_zero]
  · rw [hnone]
    rfl

/-- One call less is due after a call. -/
theorem left_fire (hpos : ∀ t p, period t = some p → 0 < p) (hnodup : q.order.Nodup)
    (horder : q.order = l :: rest) (hdue : q.due l ≤ now) :
    left period now (q.pop period l rest) + 1 = left period now q := by
  rw [horder] at hnodup
  obtain ⟨hl, -⟩ := List.nodup_cons.mp hnodup
  have hsame : (rest.map (dueCount period now (q.pop period l rest))).sum =
      (rest.map (dueCount period now q)).sum := by
    congr 1
    apply List.map_congr_left
    intro t ht
    unfold dueCount
    have hne : t ≠ l := fun heq => hl (heq ▸ ht)
    rw [pop_due_of_ne q hne]
  unfold left
  rw [horder, List.map_cons, List.sum_cons, ← hsame]
  cases hp : period l with
  | none =>
    have heq : (q.pop period l rest).order = rest := by
      unfold Alarms.pop
      rw [hp]
    have hone : dueCount period now q l = 1 := by
      unfold dueCount
      rw [if_pos hdue, hp]
    rw [heq, hone, Nat.add_comm]
  | some p =>
    have hperm : (q.pop period l rest).order.Perm (l :: rest) := by
      unfold Alarms.pop
      rw [hp]
      exact insertWhere_perm _ _ _
    have hnext : (q.pop period l rest).due l = q.due l + p :=
      congrArg Prod.fst (key_pop_self rest rest q hp)
    have hone : dueCount period now (q.pop period l rest) l + 1 = dueCount period now q l := by
      have hppos := hpos l p hp
      unfold dueCount
      rw [if_pos hdue, hnext, hp]
      simp only
      by_cases hle : q.due l + p ≤ now
      · rw [if_pos hle, Nat.div_eq_sub_div hppos (show p ≤ now - q.due l by omega),
          show now - q.due l - p = now - (q.due l + p) by omega]
      · rw [if_neg hle, Nat.div_eq_of_lt (by omega)]
    rw [(hperm.map _).sum_eq, List.map_cons, List.sum_cons]
    omega

/-- Nothing is due any more. -/
theorem Good.over (h : Good period now ins q₀ q) (hover : q.fire period now = none) :
    ∀ t ∈ q.order, now < q.due t := by
  have hsorted := h.sorted
  intro t ht
  unfold Alarms.fire at hover
  split at hover
  · rename_i hnil
    rw [hnil] at ht
    cases ht
  · rename_i l rest horder
    split at hover
    · rename_i hlt
      rw [horder] at ht hsorted
      rcases List.mem_cons.mp ht with rfl | ht
      · exact hlt
      · have hlex := (List.pairwise_cons.mp hsorted).1 t ht
        unfold Earlier key at hlex
        simp only at hlex
        omega
    · cases hover

/-- As many calls as are due end the run, and more change nothing. -/
theorem Good.run (hpos : ∀ t p, period t = some p → 0 < p) (n : ℕ) :
    ∀ {q : Alarms N}, Good period now ins q₀ q → left period now q ≤ n →
      Good period now ins q₀ (q.run period now n) ∧
        (q.run period now n).fire period now = none := by
  induction n with
  | zero =>
    intro q h hleft
    refine ⟨h, ?_⟩
    show q.fire period now = none
    cases hfire : q.fire period now with
    | none => rfl
    | some q' =>
      obtain ⟨l, rest, horder, hdue, -⟩ := fire_cases hfire
      have hless := left_fire hpos h.nodup horder hdue
      omega
  | succ n ih =>
    intro q h hleft
    unfold Alarms.run
    split
    · rename_i hfire
      exact ⟨h, hfire⟩
    · rename_i q' hfire
      obtain ⟨l, rest, horder, hdue, rfl⟩ := fire_cases hfire
      have hless := left_fire hpos h.nodup horder hdue
      exact ih (h.pop hpos horder hdue) (by omega)

/-- What a run has made of alarm `t`. -/
structure Ran (period : N → Option ℕ) (now : ℕ) (q₀ q : Alarms N) (t : N) : Prop where
  outside : t ∉ q₀.order → t ∉ q.order ∧ q.due t = q₀.due t ∧ callsOf t q.calls = []
  early : t ∈ q₀.order → now < q₀.due t → t ∈ q.order ∧ q.due t = q₀.due t ∧ callsOf t q.calls = []
  once : t ∈ q₀.order → q₀.due t ≤ now → period t = none →
    t ∉ q.order ∧ q.due t = q₀.due t ∧ callsOf t q.calls = [q₀.due t]
  periodic : t ∈ q₀.order → q₀.due t ≤ now → ∀ p, period t = some p →
    t ∈ q.order ∧ q.due t = q₀.due t + ((now - q₀.due t) / p + 1) * p ∧ now < q.due t ∧
      callsOf t q.calls = progression (q₀.due t) p ((now - q₀.due t) / p + 1)

/-- Where the last due deadline of a progression is. -/
theorem count_of_bounds (hlow : e + k * p ≤ now) (hhigh : now < e + (k + 1) * p) :
    (now - e) / p = k := by
  apply Nat.div_eq_of_lt_le
  · omega
  · omega

/-- A queue with nothing due has run every alarm as often as it was due. -/
theorem Good.ran (h : Good period now ins q₀ q)
    (hover : q.fire period now = none) (t : N) : Ran period now q₀ q t := by
  have hlate := h.over hover t
  have hf := h.fate t
  refine ⟨hf.outside, fun hin hearly => ?_, fun hin hdue hnone => ?_, fun hin hdue p hp => ?_⟩
  · cases hp : period t with
    | none =>
      obtain ⟨hsame, hcases⟩ := hf.once hin hp
      rcases hcases with ⟨hmem, hno⟩ | ⟨-, -, hle⟩
      · exact ⟨hmem, hsame, hno⟩
      · omega
    | some p =>
      obtain ⟨hmem, k, hk, hcalls, hle⟩ := hf.periodic hin p hp
      obtain rfl : k = 0 := by
        by_contra hne
        have hbound := hle (Nat.pos_of_ne_zero hne)
        omega
      rw [Nat.zero_mul, Nat.add_zero] at hk
      exact ⟨hmem, hk, hcalls⟩
  · obtain ⟨hsame, hcases⟩ := hf.once hin hnone
    rcases hcases with ⟨hmem, -⟩ | ⟨hout, hcalls, -⟩
    · have hlt := hlate hmem
      omega
    · exact ⟨hout, hsame, hcalls⟩
  · obtain ⟨hmem, k, hk, hcalls, hle⟩ := hf.periodic hin p hp
    have hlt := hlate hmem
    obtain ⟨k, rfl⟩ : ∃ m, k = m + 1 := by
      refine ⟨k - 1, ?_⟩
      by_contra hne
      obtain rfl : k = 0 := by omega
      rw [Nat.zero_mul] at hk
      omega
    have hlow := hle (Nat.succ_pos k)
    rw [Nat.add_sub_cancel] at hlow
    rw [hk] at hlt
    rw [count_of_bounds hlow hlt]
    exact ⟨hmem, hk, by rw [hk]; exact hlt, hcalls⟩

end Step

end AlarmQueue
