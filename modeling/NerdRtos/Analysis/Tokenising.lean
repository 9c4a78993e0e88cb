import NerdRtos.Model.Strtok
import NerdRtos.Lib.MaximalRuns

/-!
# Tokenising

`nd_strtok_r` keeps its place in `saveptr` and in the string, which it cuts. After any number of
calls the rest of the string is untouched, and its runs are the runs that are still to come
(`CutSoFar`), so one call takes the next one (`CutSoFar.call`).
-/

set_option autoImplicit false

namespace NerdRtos

open Bytes (Mem)
open MaximalRuns

variable {m m₀ : Mem} {a base pos k n stop : ℕ} {l cs ds : List (BitVec 8)} {x : BitVec 8}
  {delim : Delimiters}
  {p : BitVec 8 → Bool}

/-! ## Statement -/

/-- The string `l` lies at address `a`. -/
structure StringAt (m : Mem) (a : ℕ) (l : List (BitVec 8)) : Prop where
  chars : ∀ i x, l[i]? = some x → m (a + i) = x ∧ x ≠ 0
  stop : m (a + l.length) = 0

/-- The delimiters are the characters of the string `ds`. -/
structure Delimits (delim : Delimiters) (ds : List (BitVec 8)) : Prop where
  string : StringAt delim.chars 0 ds
  room : delim.room = ds.length + 1

/-- The characters that `ds` holds. -/
def among (ds : List (BitVec 8)) (c : BitVec 8) : Bool := decide (c ∈ ds)

/-- `rs` are the maximal runs of characters that `ds` does not hold, in order. -/
structure RunsOf (ds cs : List (BitVec 8)) (rs : List (ℕ × ℕ)) : Prop where
  exact_runs : ∀ i j, (i, j) ∈ rs ↔ IsRun (among ds) cs i j
  ordered : rs.Pairwise fun a b => a.2 < b.1

/-- The runs `done` of the string at `a` are strings of their own, and nothing else has changed. -/
structure CutInto (m m' : Mem) (a : ℕ) (cs : List (BitVec 8)) (done : List (ℕ × ℕ)) : Prop where
  words : ∀ r ∈ done, StringAt m' (a + r.1) ((cs.take r.2).drop r.1)
  changed : ∀ b, m' b ≠ m b → ∃ r ∈ done, b = a + r.2 ∧ r.2 < cs.length

/-! ## Strings -/

/-- A string that is not empty begins with its first byte. -/
theorem StringAt.head (h : StringAt m a (x :: l)) : m a = x ∧ x ≠ 0 := h.chars 0 x rfl

/-- An empty string is its terminator. -/
theorem StringAt.end_nil (h : StringAt m a []) : m a = 0 := h.stop

/-- A string behind some of its bytes. -/
theorem StringAt.drop (h : StringAt m a l) (hk : k ≤ l.length) : StringAt m (a + k) (l.drop k) := by
  refine ⟨fun i x hx => ?_, ?_⟩
  · rw [List.getElem?_drop] at hx
    rw [Nat.add_assoc]
    exact h.chars (k + i) x hx
  · have hlen : a + k + (l.drop k).length = a + l.length := by
      rw [List.length_drop]
      omega
    rw [hlen]
    exact h.stop

/-- A string behind its first byte. -/
theorem StringAt.tail (h : StringAt m a (x :: l)) : StringAt m (a + 1) l :=
    h.drop (Nat.le_add_left 1 l.length)

/-- A change in front of the string. -/
theorem StringAt.update (h : StringAt m a l) {b : ℕ} (hb : b < a) (v : BitVec 8) :
    StringAt (Function.update m b v) a l := by
  refine ⟨fun i x hx => ?_, ?_⟩
  · rw [Function.update_of_ne (by omega)]
    exact h.chars i x hx
  · rw [Function.update_of_ne (by omega)]
    exact h.stop

/-! ## The loops -/

/-- `is_delim`.
kernel/nd_klibc.c:25-33 -/
theorem isDelim_eq (c : BitVec 8) (l : List (BitVec 8)) (h : StringAt m a l) :
    isDelim c m (l.length + 1) a = some (among l c) := by
  induction l generalizing a with
  | nil =>
    rw [isDelim, if_neg (not_not.mpr h.end_nil)]
    rfl
  | cons d l ih =>
    obtain ⟨hd, hne⟩ := h.head
    rw [List.length_cons, isDelim, hd, if_pos hne, ih h.tail]
    by_cases hc : c = d
    · rw [if_pos hc]
      simp [among, hc]
    · rw [if_neg hc]
      simp [among, hc]

/-- `is_delim` answers whether the byte is among the delimiters. -/
theorem Delimits.isDelim (hd : Delimits delim ds) (c : BitVec 8) :
    isDelim c delim.chars delim.room 0 = some (among ds c) := by
  rw [hd.room]
  exact isDelim_eq c ds hd.string

/-- Where the first loop stops, no run has been passed.
kernel/nd_klibc.c:42-44 -/
theorem skipDelims_eq (hd : Delimits delim ds) (l : List (BitVec 8)) (h : StringAt m a l) (n : ℕ) :
    ∃ k ≤ l.length, skipDelims delim m (l.length + 1) a = some (a + k) ∧
      (∀ x, (l.drop k).head? = some x → among ds x = false) ∧
      runsFrom (among ds) n none l = runsFrom (among ds) (n + k) none (l.drop k) := by
  induction l generalizing a n with
  | nil =>
    refine ⟨0, Nat.le_refl 0, ?_, fun x hx => (by cases hx), rfl⟩
    rw [List.length_nil, skipDelims, if_neg (not_not.mpr h.end_nil)]
    rfl
  | cons c l ih =>
    obtain ⟨hc, hne⟩ := h.head
    by_cases hp : among ds c = true
    · obtain ⟨k, hk, hskip, hhead, hscan⟩ := ih h.tail (n + 1)
      refine ⟨k + 1, Nat.succ_le_succ hk, ?_, hhead, ?_⟩
      · rw [List.length_cons, skipDelims, hc, if_pos hne, hd.isDelim, hp]
        simp only
        rw [hskip, Nat.add_assoc, Nat.add_comm 1 k]
      · rw [runsFrom, if_pos hp, hscan, List.drop_succ_cons, Nat.add_assoc, Nat.add_comm 1 k]
    · have hp' : among ds c = false := by simpa using hp
      refine ⟨0, Nat.zero_le _, ?_, fun x hx => ?_, rfl⟩
      · rw [List.length_cons, skipDelims, hc, if_pos hne, hd.isDelim, hp']
        rfl
      · cases hx
        exact hp'

/-- Where the second loop stops, the run ends.
kernel/nd_klibc.c:53-55 -/
theorem skipToken_eq (hd : Delimits delim ds) (l : List (BitVec 8)) (h : StringAt m a l) (n i : ℕ) :
    ∃ k ≤ l.length, skipToken delim m (l.length + 1) a = some (a + k) ∧
      (∀ x, (l.drop k).head? = some x → among ds x = true) ∧
      (∀ x, l.head? = some x → among ds x = false → 0 < k) ∧
      runsFrom (among ds) n (some i) l = (i, n + k) :: runsFrom (among ds) (n + k) none
        (l.drop k) := by
  induction l generalizing a n with
  | nil =>
    refine ⟨0, Nat.le_refl 0, ?_, fun x hx => (by cases hx), fun x hx => (by cases hx), rfl⟩
    rw [List.length_nil, skipToken, if_neg (not_not.mpr h.end_nil)]
    rfl
  | cons c l ih =>
    obtain ⟨hc, hne⟩ := h.head
    by_cases hp : among ds c = true
    · refine ⟨0, Nat.zero_le _, ?_, fun x hx => ?_, fun x hx hno => ?_, ?_⟩
      · rw [List.length_cons, skipToken, hc, if_pos hne, hd.isDelim, hp]
        rfl
      · cases hx
        exact hp
      · cases hx
        rw [hp] at hno
        cases hno
      · rw [runsFrom, if_pos hp, List.drop_zero, runsFrom, if_pos hp]
        rfl
    · have hp' : among ds c = false := by simpa using hp
      obtain ⟨k, hk, hskip, hhead, -, hscan⟩ := ih h.tail (n + 1)
      refine ⟨k + 1, Nat.succ_le_succ hk, ?_, hhead, fun _ _ _ => Nat.succ_pos k, ?_⟩
      · rw [List.length_cons, skipToken, hc, if_pos hne, hd.isDelim, hp']
        simp only
        rw [hskip, Nat.add_assoc, Nat.add_comm 1 k]
      · rw [runsFrom, if_neg hp, hscan, List.drop_succ_cons, Nat.add_assoc, Nat.add_comm 1 k]

/-! ## One call -/

/-- A call that has come to address `a`: there is no run any more, or the next one is cut out.
kernel/nd_klibc.c:35-65 -/
theorem ndStrtokR_eq (hd : Delimits delim ds) (h : StringAt m a l) (n : ℕ) {str saveptr : Option ℕ}
    (hstr : (if str = none then saveptr else str) = some a) :
    (runsFrom (among ds) n none l = [] ∧
      ndStrtokR (a + l.length + 1) str delim saveptr m = some ⟨none, some (a + l.length), m⟩) ∨
    ∃ i j q, i < j ∧ j ≤ q ∧ q ≤ l.length ∧
      runsFrom (among ds) n none l = (n + i, n + j) :: runsFrom (among ds) (n + q) none (l.drop q) ∧
      (j = q ∧ j = l.length ∧
          ndStrtokR (a + l.length + 1) str delim saveptr m = some ⟨some (a + i), some (a + q), m⟩ ∨
        j < q ∧ ndStrtokR (a + l.length + 1) str delim saveptr m =
          some ⟨some (a + i), some (a + q), Function.update m (a + j) 0⟩) := by
  obtain ⟨i, hi, hskip, hfirst, hscan⟩ := skipDelims_eq hd l h n
  have hroom : a + l.length + 1 - a = l.length + 1 := by omega
  have hrest := h.drop hi
  have hroom' : a + l.length + 1 - (a + i) = (l.drop i).length + 1 := by
    rw [List.length_drop]
    omega
  unfold ndStrtokR
  simp only [hstr]
  simp only [Option.bind_eq_bind, Option.bind_some, hroom, hskip]
  by_cases hend : l.drop i = []
  · have hlen : i = l.length := Nat.le_antisymm hi (List.drop_eq_nil_iff.mp hend)
    rw [hend] at hrest hscan
    left
    refine ⟨hscan, ?_⟩
    rw [if_pos hrest.end_nil, hlen]
    rfl
  · right
    obtain ⟨c, r, hcons⟩ := List.exists_cons_of_ne_nil hend
    have hno : among ds c = false := hfirst c (by rw [hcons]; rfl)
    obtain ⟨k, hk, hword, hlast, hpos, hrun⟩ := skipToken_eq hd (l.drop i) hrest (n + i) (n + i)
    have hk0 : 0 < k := hpos c (by rw [hcons]; rfl) hno
    have hopen : runsFrom (among ds) (n + i) none (l.drop i) = runsFrom (among ds) (n + i)
        (some (n + i)) (l.drop i) := by
      rw [hcons, runsFrom, runsFrom, if_neg (by rw [hno]; decide), if_neg (by rw [hno]; decide)]
    have hne : m (a + i) ≠ 0 := by
      rw [hcons] at hrest
      rw [hrest.head.1]
      exact hrest.head.2
    have hlen : (l.drop i).length = l.length - i := List.length_drop
    rw [hlen] at hk
    rw [List.drop_drop] at hlast hrun
    have hafter := h.drop (k := i + k) (by omega)
    rw [Nat.add_assoc] at hword
    rw [if_neg hne]
    simp only [hroom', hword, Option.bind_some]
    by_cases hstop : l.drop (i + k) = []
    · have hlen' : i + k = l.length := Nat.le_antisymm (by omega) (List.drop_eq_nil_iff.mp hstop)
      rw [hstop] at hafter
      refine ⟨i, i + k, i + k, by omega, Nat.le_refl _, by omega, ?_, .inl ⟨rfl, hlen', ?_⟩⟩
      · rw [hscan, hopen, hrun, Nat.add_assoc]
      · rw [if_pos hafter.end_nil]
        rfl
    · obtain ⟨d, r', hcons'⟩ := List.exists_cons_of_ne_nil hstop
      have hdelim : among ds d = true := hlast d (by rw [hcons']; rfl)
      have hlt : i + k < l.length := by
        by_contra hge
        exact hstop (List.drop_eq_nil_iff.mpr (by omega))
      have htail : l.drop (i + k + 1) = r' := by rw [← List.tail_drop, hcons', List.tail_cons]
      have hne' : m (a + (i + k)) ≠ 0 := by
        rw [hcons'] at hafter
        rw [hafter.head.1]
        exact hafter.head.2
      refine ⟨i, i + k, i + k + 1, by omega, by omega, by omega, ?_, .inr ⟨by omega, ?_⟩⟩
      · rw [hscan, hopen, hrun, hcons', runsFrom, if_pos hdelim, htail]
        simp only [Nat.add_assoc]
      · rw [if_neg hne']
        rfl

/-! ## All calls -/

/-- What `k` calls leave of the string `cs` at address `base`, where `pos` characters have been
passed. -/
structure CutSoFar (m₀ : Mem) (base : ℕ) (ds cs : List (BitVec 8)) (k pos : ℕ) (m : Mem) :
    Prop where
  le : pos ≤ cs.length
  rest : StringAt m (base + pos) (cs.drop pos)
  todo : runsFrom (among ds) pos none (cs.drop pos) = (runs (among ds) cs).drop k
  ended : ∀ r ∈ (runs (among ds) cs).take k, r.2 < cs.length → m (base + r.2) = 0
  changed : ∀ b, m b ≠ m₀ b → ∃ r ∈ (runs (among ds) cs).take k, b = base + r.2 ∧ r.2 < cs.length

/-- Before the first call nothing is cut. -/
theorem CutSoFar.start (h : StringAt m base cs) : CutSoFar m base ds cs 0 0 m :=
  ⟨Nat.zero_le _, h, rfl, fun r hr => (by cases hr), fun b hb => absurd rfl hb⟩

/-- The next call takes the next run.
kernel/nd_klibc.c:35-65 -/
theorem CutSoFar.call (hd : Delimits delim ds) (h : CutSoFar m₀ base ds cs k pos m)
    (str saveptr : Option ℕ) (hstr : (if str = none then saveptr else str) = some (base + pos)) :
    ∃ r pos', ndStrtokR (base + cs.length + 1) str delim saveptr m = some r ∧
      r.token = (runs (among ds) cs)[k]?.map (fun i => base + i.1) ∧
        r.saveptr = some (base + pos') ∧
      CutSoFar m₀ base ds cs (k + 1) pos' r.mem := by
  have hlen : (cs.drop pos).length = cs.length - pos := List.length_drop
  have hle := h.le
  have hstop : base + pos + (cs.drop pos).length + 1 = base + cs.length + 1 := by omega
  have hcall := ndStrtokR_eq hd h.rest pos hstr
  rw [hstop] at hcall
  have hadd : ∀ q, base + pos + q = base + (pos + q) := fun q => Nat.add_assoc base pos q
  rcases hcall with ⟨hnone, hcall⟩ | ⟨i, j, q, hij, hjq, hq, hscan, hcall⟩
  · have hpast : (runs (among ds) cs).length ≤ k :=
      List.drop_eq_nil_iff.mp (h.todo.symm.trans hnone)
    have htake : (runs (among ds) cs).take (k + 1) = (runs (among ds) cs).take k := by
      rw [List.take_of_length_le hpast, List.take_of_length_le (by omega)]
    refine ⟨_, cs.length, hcall, ?_, ?_, Nat.le_refl _, ?_, ?_, ?_, ?_⟩
    · rw [List.getElem?_eq_none hpast]
      rfl
    · show some (base + pos + (cs.drop pos).length) = _
      congr 1
      omega
    · have hend := h.rest.drop (Nat.le_refl (cs.drop pos).length)
      rw [List.drop_length] at hend
      rw [List.drop_length]
      have haddr : base + pos + (cs.drop pos).length = base + cs.length := by omega
      rw [haddr] at hend
      exact hend
    · rw [List.drop_length, List.drop_eq_nil_iff.mpr (by omega)]
      rfl
    · rw [htake]
      exact h.ended
    · rw [htake]
      exact h.changed
  · have hdrop := h.todo.symm.trans hscan
    have hget : (runs (among ds) cs)[k]? = some (pos + i, pos + j) := by
      have hhead : ((runs (among ds) cs).drop k)[0]? = some (pos + i, pos + j) := by rw [hdrop]; rfl
      rwa [List.getElem?_drop, Nat.add_zero] at hhead
    have htake : (runs (among ds) cs).take (k + 1) = (runs (among ds) cs).take k ++
        [(pos + i, pos + j)] := by
      rw [List.take_add_one, hget]
      rfl
    have htodo : runsFrom (among ds) (pos + q) none (cs.drop (pos + q)) = (runs (among ds) cs).drop
        (k + 1) := by
      rw [← List.tail_drop, hdrop, List.tail_cons, List.drop_drop]
    have hrest := h.rest.drop hq
    rw [List.drop_drop, hadd] at hrest
    rw [hlen] at hq
    rw [hadd] at hcall
    rcases hcall with ⟨hjq', hjl, hcall⟩ | ⟨hjq', hcall⟩
    · refine ⟨_, pos + q, hcall, ?_, ?_, by omega, hrest, htodo, fun r hr hlt => ?_, fun b hb => ?_⟩
      · rw [hget]
        rfl
      · rw [hadd]
      · rw [htake, List.mem_append, List.mem_singleton] at hr
        rcases hr with hr | rfl
        · exact h.ended r hr hlt
        · rw [hlen] at hjl
          have hlt' : pos + j < cs.length := hlt
          omega
      · obtain ⟨r, hr, heq, hlt⟩ := h.changed b hb
        exact ⟨r, by rw [htake]; exact List.mem_append_left _ hr, heq, hlt⟩
    · refine ⟨_, pos + q, hcall, ?_, ?_, by omega, ?_, htodo, fun r hr hlt => ?_, fun b hb => ?_⟩
      · rw [hget]
        rfl
      · rw [hadd]
      · exact hrest.update (by omega) 0
      · show Function.update m (base + pos + j) 0 (base + r.2) = 0
        rw [htake, List.mem_append, List.mem_singleton] at hr
        by_cases heq : base + r.2 = base + pos + j
        · rw [heq, Function.update_self]
        · rw [Function.update_of_ne heq]
          rcases hr with hr | rfl
          · exact h.ended r hr hlt
          · exact absurd (Nat.add_assoc base pos j).symm heq
      · rw [htake]
        by_cases heq : b = base + pos + j
        · exact ⟨(pos + i, pos + j), by simp, by rw [heq, hadd], by show pos + j < cs.length; omega⟩
        · have hb' : m b ≠ m₀ b := by
            have hsame : Function.update m (base + pos + j) 0 b = m b :=
              Function.update_of_ne heq _ _
            rw [← hsame]
            exact hb
          obtain ⟨r, hr, hbr, hlt⟩ := h.changed b hb'
          exact ⟨r, List.mem_append_left _ hr, hbr, hlt⟩

/-- A run ends within the string. -/
theorem run_le {i j : ℕ} (h : IsRun p cs i j) : j ≤ cs.length := by
  have hne := h.nonempty
  obtain ⟨x, hx, -⟩ := h.elems (j - 1) (by omega) (by omega)
  have hlt := (List.getElem?_eq_some_iff.mp hx).1
  omega

/-- The runs that were taken are strings of their own. -/
theorem CutSoFar.cutInto (h₀ : StringAt m₀ base cs) (h : CutSoFar m₀ base ds cs k pos m) :
    CutInto m₀ m base cs ((runs (among ds) cs).take k) := by
  have hrun : ∀ r ∈ (runs (among ds) cs).take k, IsRun (among ds) cs r.1 r.2 := fun r hr =>
    mem_runs_iff.mp (List.mem_of_mem_take hr)
  refine ⟨fun r hr => ?_, h.changed⟩
  have hr' := hrun r hr
  have hle := run_le hr'
  have hne := hr'.nonempty
  refine ⟨fun i x hx => ?_, ?_⟩
  · rw [List.getElem?_drop, List.getElem?_take] at hx
    split at hx
    case isFalse => cases hx
    case isTrue hlt =>
      obtain ⟨hm, hx0⟩ := h₀.chars (r.1 + i) x hx
      rw [← Nat.add_assoc] at hm
      refine ⟨?_, hx0⟩
      by_contra hother
      -- a byte that was changed is a delimiter
      obtain ⟨q, hq, heq, -⟩ := h.changed (base + r.1 + i) fun heq => hother (heq.trans hm)
      have hat : q.2 = r.1 + i := by omega
      have hdelim := (hrun q hq).right x (by rw [hat]; exact hx)
      obtain ⟨y, hy, hno⟩ := hr'.elems (r.1 + i) (Nat.le_add_right _ _) hlt
      rw [hx, Option.some.injEq] at hy
      rw [← hy, hdelim] at hno
      cases hno
  · have haddr : base + r.1 + ((cs.take r.2).drop r.1).length = base + r.2 := by
      rw [List.length_drop, List.length_take]
      omega
    rw [haddr]
    by_cases hlt : r.2 < cs.length
    · exact h.ended r hr hlt
    · have hend : r.2 = cs.length := by omega
      by_contra hother
      have hzero := h₀.stop
      rw [← hend] at hzero
      obtain ⟨q, -, heq, hq⟩ := h.changed (base + r.2) fun heq => hother (heq.trans hzero)
      omega

/-- Any number of calls.
kernel/nd_klibc.c:35-65 -/
theorem CutSoFar.calls (hd : Delimits delim ds) (n : ℕ) :
    ∀ {k pos : ℕ} {m : Mem} (str saveptr : Option ℕ),
    CutSoFar m₀ base ds cs k pos m → (if str = none then saveptr else str) = some (base + pos) ∨
      n = 0 →
    ∃ saveptr' pos' m', strtokCalls (base + cs.length + 1) delim n str saveptr m =
        some ((List.range n).map (fun i => (runs (among ds) cs)[k + i]?.map fun r => base + r.1),
          saveptr', m') ∧
      CutSoFar m₀ base ds cs (k + n) pos' m' := by
  induction n with
  | zero =>
    intro k pos m str saveptr h _
    exact ⟨saveptr, pos, m, rfl, h⟩
  | succ n ih =>
    intro k pos m str saveptr h hstr
    obtain ⟨r, pos₁, hcall, htoken, hsave, hcut⟩ :=
      h.call hd str saveptr (hstr.resolve_right (Nat.succ_ne_zero n))
    obtain ⟨saveptr', pos', m', hcalls, hcut'⟩ := ih none r.saveptr hcut (.inl hsave)
    refine ⟨saveptr', pos', m', ?_, ?_⟩
    · simp only [strtokCalls, hcall, hcalls, Option.bind_eq_bind, Option.bind_some, Option.pure_def,
        htoken, List.range_succ_eq_map, List.map_cons, List.map_map, Nat.add_zero]
      congr 3
      refine List.map_congr_left fun i _ => ?_
      simp only [Function.comp_apply]
      rw [Nat.add_assoc, Nat.add_comm 1 i]
    · rw [Nat.add_assoc, Nat.add_comm 1 n] at hcut'
      exact hcut'

/-! ## The arguments of a command -/

/-- A blank as the only delimiter. -/
theorem spaceDelim_delimits : Delimits spaceDelim [0x20] := by
  refine ⟨⟨fun i x hx => ?_, rfl⟩, rfl⟩
  cases i with
  | zero =>
    cases hx
    exact ⟨rfl, by decide⟩
  | succ i => cases hx

/-- The loop of `shell_parse`, where `argc` arguments are stored.
components/shell/src/nd_shell.c:176-180 -/
theorem parseLoop_eq {maxArgc : BitVec 8} (n : ℕ) : ∀ {argc : BitVec 8} (argv : ℕ → Option ℕ)
    {r : Strtok} {pos : ℕ},
    r.token = (runs (among [0x20]) cs)[argc.toNat]?.map (fun i => base + i.1) →
      r.saveptr = some (base + pos) →
    CutSoFar m₀ base [0x20] cs (argc.toNat + 1) pos r.mem → argc ≤ maxArgc →
      argc.toNat ≤ (runs (among [0x20]) cs).length →
    maxArgc.toNat < argc.toNat + n →
    ∃ pos' m', parseLoop (base + cs.length + 1) maxArgc n argc argv r =
        some (BitVec.ofNat 8 (min maxArgc.toNat (runs (among [0x20]) cs).length),
          (fun i => if argc.toNat ≤ i ∧ i < min maxArgc.toNat (runs (among [0x20]) cs).length then
              (runs (among [0x20]) cs)[i]?.map (fun r => base + r.1) else argv i), m') ∧
      CutSoFar m₀ base [0x20] cs (min maxArgc.toNat (runs (among [0x20]) cs).length + 1) pos'
        m' := by
  generalize hR : runs (among [0x20]) cs = R
  induction n with
  | zero =>
    intro argc argv r pos _ _ _ hle _ hlt
    have hle' : argc.toNat ≤ maxArgc.toNat := BitVec.le_def.mp hle
    omega
  | succ n ih =>
    intro argc argv r pos htoken hsave hcut hle hlen hlt
    have hle' : argc.toNat ≤ maxArgc.toNat := BitVec.le_def.mp hle
    -- the loop ends here with `argc` arguments
    have hends : min maxArgc.toNat R.length = argc.toNat → some (argc, argv, r.mem) =
        some (BitVec.ofNat 8 (min maxArgc.toNat R.length), (fun i =>
          if argc.toNat ≤ i ∧ i < min maxArgc.toNat R.length then R[i]?.map (fun r => base + r.1)
              else argv i), r.mem) := by
      intro hmin
      have hargv : (fun i => if argc.toNat ≤ i ∧ i < argc.toNat then R[i]?.map (fun r => base + r.1)
          else argv i) = argv := by
        funext i
        rw [if_neg (by omega)]
      rw [hmin, hargv, BitVec.ofNat_toNat, BitVec.setWidth_eq]
    cases hget : R[argc.toNat]? with
    | none =>
      have hmin : min maxArgc.toNat R.length = argc.toNat := by
        have hpast := List.getElem?_eq_none_iff.mp hget
        omega
      rw [hget] at htoken
      refine ⟨pos, r.mem, ?_, by rw [hmin]; exact hcut⟩
      rw [← hends hmin, parseLoop, htoken]
      rfl
    | some i =>
      have hin : argc.toNat < R.length := (List.getElem?_eq_some_iff.mp hget).1
      rw [hget] at htoken
      by_cases hmore : argc < maxArgc
      · have hmore' : argc.toNat < maxArgc.toNat := BitVec.lt_def.mp hmore
        have hbound := maxArgc.isLt
        have hnext : (argc + 1).toNat = argc.toNat + 1 := by
          rw [BitVec.toNat_add]
          exact Nat.mod_eq_of_lt (show argc.toNat + 1 < 256 by omega)
        obtain ⟨r', pos', hcall, htoken', hsave', hcut'⟩ :=
          hcut.call spaceDelim_delimits none r.saveptr hsave
        rw [hR, ← hnext] at htoken'
        rw [← hnext] at hcut'
        obtain ⟨pos'', m', hloop, hcut''⟩ :=
          ih (Function.update argv argc.toNat (some (base + i.1))) htoken' hsave'
          hcut' (BitVec.le_def.mpr (by omega)) (by omega) (by omega)
        refine ⟨pos'', m', ?_, hcut''⟩
        rw [parseLoop, htoken]
        simp only [Option.map_some, if_pos hmore, hcall, hloop, Option.bind_eq_bind,
          Option.bind_some]
        congr 3
        funext j
        rw [hnext]
        by_cases hj : j = argc.toNat
        · rw [hj, if_neg (by omega), if_pos (by omega), Function.update_self, hget]
          rfl
        · rw [Function.update_of_ne hj]
          by_cases hlater : argc.toNat + 1 ≤ j ∧ j < min maxArgc.toNat R.length
          · rw [if_pos hlater, if_pos (by omega)]
          · rw [if_neg hlater, if_neg (by omega)]
      · have hmin : min maxArgc.toNat R.length = argc.toNat := by
          have hge : maxArgc.toNat ≤ argc.toNat :=
            Nat.not_lt.mp fun h => hmore (BitVec.lt_def.mpr h)
          omega
        refine ⟨pos, r.mem, ?_, by rw [hmin]; exact hcut⟩
        rw [← hends hmin, parseLoop, htoken]
        simp only [Option.map_some, if_neg hmore]

/-- The runs that the scanner finds are the maximal ones. -/
theorem runsOf_runs (ds cs : List (BitVec 8)) : RunsOf ds cs (runs (among ds) cs) :=
  ⟨fun _ _ => mem_runs_iff, runs_pairwise⟩

/-- **Tokenising is exact.** Call after call, `nd_strtok_r` returns the maximal runs of characters
that are no delimiters, then always `ND_NULL`, cuts them out in place, and touches nothing behind
the string; and so `shell_parse` stores the first ones.
kernel/nd_klibc.c:25-65, components/shell/src/nd_shell.c:171-184 -/
theorem tokenising_exact (h : StringAt m a cs) :
    (∀ delim ds, Delimits delim ds → ∃ rs, RunsOf ds cs rs ∧ ∀ n saveptr, ∃ saveptr' m',
      strtokCalls (a + cs.length + 1) delim n (some a) saveptr m =
          some ((List.range n).map (fun i => rs[i]?.map fun r => a + r.1), saveptr', m') ∧
        CutInto m m' a cs (rs.take n)) ∧
    ∃ rs, RunsOf [0x20] cs rs ∧ ∀ argv maxArgc, ∃ m',
      shellParse (a + cs.length + 1) a argv maxArgc m =
          some (BitVec.ofNat 8 (min maxArgc.toNat rs.length),
            (fun i => if i < min maxArgc.toNat rs.length then rs[i]?.map (fun r => a + r.1)
              else argv i), m') ∧
        CutInto m m' a cs (rs.take (min maxArgc.toNat rs.length + 1)) := by
  constructor
  · intro delim ds hd
    refine ⟨_, runsOf_runs ds cs, fun n saveptr => ?_⟩
    have hstart : CutSoFar m a ds cs 0 0 m := .start h
    obtain ⟨saveptr', pos', m', hcalls, hcut⟩ := hstart.calls hd n (some a) saveptr (.inl rfl)
    simp only [Nat.zero_add] at hcalls hcut
    exact ⟨saveptr', m', hcalls, hcut.cutInto h⟩
  · refine ⟨_, runsOf_runs [0x20] cs, fun argv maxArgc => ?_⟩
    have hstart : CutSoFar m a [0x20] cs 0 0 m := .start h
    obtain ⟨r, pos, hcall, htoken, hsave, hcut⟩ := hstart.call spaceDelim_delimits (some a) none rfl
    have hbound := maxArgc.isLt
    have hzero : (0 : BitVec 8).toNat = 0 := rfl
    have hnone : (0 : BitVec 8) ≤ maxArgc := BitVec.le_def.mpr (Nat.zero_le _)
    obtain ⟨pos', m', hloop, hcut'⟩ := parseLoop_eq 256 argv htoken hsave hcut hnone (Nat.zero_le _)
      (by rw [hzero]; omega)
    refine ⟨m', ?_, hcut'.cutInto h⟩
    unfold shellParse
    simp only [hcall, hloop, Option.bind_eq_bind, Option.bind_some]
    congr 3
    funext i
    simp

/-- ` ab  c`, a line with two words. -/
def twoWords : List (BitVec 8) := [0x20, 0x61, 0x62, 0x20, 0x20, 0x63]

example : runs (among [0x20]) twoWords = [(1, 3), (5, 6)] := by decide

/-- Bytes that are stored with a terminator are a string. -/
theorem stringAt_getD (hl : ∀ x ∈ l, x ≠ 0) : StringAt (fun i => l.getD i 0) 0 l := by
  refine ⟨fun i x hx => ⟨?_, hl x (List.mem_of_getElem? hx)⟩, ?_⟩
  · rw [Nat.zero_add, List.getD_eq_getElem?_getD, hx]
    rfl
  · rw [Nat.zero_add, List.getD_eq_getElem?_getD, List.getElem?_eq_none (Nat.le_refl _)]
    rfl

/-- The two words become arguments. -/
theorem tokenising_exact_two_words : ∃ rs, RunsOf [0x20] twoWords rs ∧ ∃ m',
    shellParse 7 0 (fun _ => none) 8 (fun i => twoWords.getD i 0) =
        some (BitVec.ofNat 8 (min 8 rs.length),
          (fun i => if i < min 8 rs.length then rs[i]?.map (fun r => 0 + r.1) else none), m') ∧
      CutInto (fun i => twoWords.getD i 0) m' 0 twoWords (rs.take (min 8 rs.length + 1)) := by
  obtain ⟨rs, hrs, hparse⟩ := (tokenising_exact (stringAt_getD (l := twoWords) (by decide))).2
  exact ⟨rs, hrs, hparse (fun _ => none) 8⟩

end NerdRtos
