import Mathlib.Tactic.Common
import Mathlib.Data.Int.Notation
import Mathlib.Data.List.Nodup
import Mathlib.Data.List.Perm.Basic
import NerdRtos.Lib.Machine

/-!
# Tokens and the threads that wait for one

A counter of tokens with a list of waiters. A token that is put back is counted when nobody waits,
and handed to the first waiter otherwise; waiters may leave the list at any time. `Conserved` says
that tokens are neither lost nor made, and that nobody is handed more tokens than it waited for.
-/

set_option autoImplicit false

namespace Tokens

/-- The counter, the waiters, and the history: how many tokens were put back and how many were
given out, how often each thread has waited, and how many tokens each was handed. -/
structure World (T : Type) where
  val : ℤ
  waiting : List T
  released : ℕ
  granted : ℕ
  waits : T → ℕ
  handed : T → ℕ

/-- What can happen to the counter. -/
inductive Move (T : Type)
  | take
  | release
  | hand (t : T)
  | wait (t : T) (ts : List T)
  | leave (t : T)

variable {T : Type} [DecidableEq T] {init : ℤ} {w : World T}

/-- A thread leaves the list. -/
def World.leave (w : World T) (t : T) : World T := { w with waiting := w.waiting.erase t }

/-- When a move can be made. Where a thread joins the list is left open. -/
def Move.fits (w : World T) : Move T → Prop
  | .take => 0 < w.val
  | .release => w.waiting = []
  | .hand t => w.waiting.head? = some t
  | .wait t ts => w.val ≤ 0 ∧ t ∉ w.waiting ∧ ts.Perm (t :: w.waiting)
  | .leave _ => True

/-- What a move does. -/
def Move.apply : Move T → World T → World T
  | .take, w => { w with val := w.val - 1, granted := w.granted + 1 }
  | .release, w => { w with val := w.val + 1, released := w.released + 1 }
  | .hand t, w =>
    { w.leave t with
      released := w.released + 1
      granted := w.granted + 1
      handed := Function.update w.handed t (w.handed t + 1) }
  | .wait t ts, w => { w with waiting := ts, waits := Function.update w.waits t (w.waits t + 1) }
  | .leave t, w => w.leave t

/-- The counter as a machine that starts with `init` tokens. -/
def machine (T : Type) [DecidableEq T] (init : ℤ) : Machine (World T) (Move T) where
  start w := w = ⟨init, [], 0, 0, fun _ => 0, fun _ => 0⟩
  enabled w mv := mv.fits w
  next := Move.apply

/-- Tokens are conserved: none is kept while somebody waits, and a thread was handed at most one
token each time that it waited, and none yet for a wait that goes on. -/
structure Conserved (init : ℤ) (w : World T) : Prop where
  nonneg : 0 ≤ w.val
  empty : w.waiting ≠ [] → w.val = 0
  balance : init + w.released = w.val + w.granted
  nodup : w.waiting.Nodup
  once : ∀ t, w.handed t + (if t ∈ w.waiting then 1 else 0) ≤ w.waits t

/-- A thread that leaves takes no token with it. -/
theorem Conserved.leave (h : Conserved init w) (t : T) : Conserved init (w.leave t) where
  nonneg := h.nonneg
  empty hne := by
    refine h.empty fun hnil => hne ?_
    simp [World.leave, hnil]
  balance := h.balance
  nodup := h.nodup.erase t
  once u := by
    have hu := h.once u
    by_cases hm : u ∈ w.waiting.erase t
    · have hm' : u ∈ w.waiting := List.mem_of_mem_erase hm
      simpa [World.leave, hm, hm'] using hu
    · have hle : w.handed u ≤ w.waits u := by omega
      simpa [World.leave, hm] using hle

/-- Every move conserves the tokens. -/
theorem Conserved.step (h : Conserved init w) {mv : Move T} (hfit : mv.fits w) :
    Conserved init (mv.apply w) := by
  cases mv with
  | take =>
    have hv : 0 < w.val := hfit
    refine ⟨?_, fun hne => ?_, ?_, h.nodup, h.once⟩
    · simp only [Move.apply]
      omega
    · have h0 := h.empty hne
      omega
    · have hb := h.balance
      simp only [Move.apply]
      omega
  | release =>
    have hnil : w.waiting = [] := hfit
    refine ⟨?_, fun hne => absurd hnil hne, ?_, h.nodup, h.once⟩
    · have hv := h.nonneg
      simp only [Move.apply]
      omega
    · have hb := h.balance
      simp only [Move.apply]
      omega
  | hand t =>
    have ht : t ∈ w.waiting := List.mem_of_mem_head? hfit
    have hleft := h.leave t
    refine ⟨hleft.nonneg, hleft.empty, ?_, hleft.nodup, fun u => ?_⟩
    · have hb := h.balance
      simp only [Move.apply, World.leave]
      omega
    · by_cases hu : u = t
      · subst hu
        have hone := h.once u
        have hout : u ∉ w.waiting.erase u := h.nodup.not_mem_erase
        simpa [Move.apply, World.leave, hout, ht] using hone
      · simpa [Move.apply, World.leave, hu] using hleft.once u
  | wait t ts =>
    obtain ⟨hv, ht, hperm⟩ := hfit
    refine ⟨h.nonneg, fun _ => ?_, h.balance,
      hperm.nodup_iff.mpr (List.nodup_cons.mpr ⟨ht, h.nodup⟩), fun u => ?_⟩
    · have hn := h.nonneg
      simp only [Move.apply]
      omega
    · have hone := h.once u
      by_cases hu : u = t
      · subst hu
        have hin : u ∈ ts := hperm.mem_iff.mpr (by simp)
        simp only [ht, if_false] at hone
        simpa [Move.apply, hin] using hone
      · have hin : u ∈ ts ↔ u ∈ w.waiting := by simp [hperm.mem_iff, hu]
        simpa [Move.apply, hu, hin] using hone
  | leave t => exact h.leave t

/-- Tokens are conserved along every run. -/
theorem conserved_of_reach {D : World T → Move T → Prop} (h : (machine T init).Reach D w)
    (hinit : 0 ≤ init) : Conserved init w := by
  refine h.induction ?_ fun _ _ _ hI hfit _ => hI.step hfit
  rintro _ rfl
  exact ⟨hinit, fun hne => absurd rfl hne, by simp, List.nodup_nil, fun t => by simp⟩

end Tokens
