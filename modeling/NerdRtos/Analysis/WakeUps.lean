import NerdRtos.Analysis.Waiters

/-!
# Waking the waiters of queues and pools

A producer wakes one waiter and leaves the message, the slot or the block where it is, so somebody
else may be faster, and the waiter looks again (`InFlight`). `State.Short n k` is the count of wait
list `k`, off by `n`: every producer adds one to what there is and one to the threads in flight, and
a thread in flight that leaves takes what it was woken for, or finds nothing. Only a suspension or
the end of a thread in flight leaves something behind.
-/

set_option autoImplicit false

namespace NerdRtos

variable {cfg : Config} {s x y : State} {a : Action} {t : Tid} {k : QHead} {n m : ℤ}

/-! ## Threads in flight -/

/-- Thread `t` was woken from wait list `k` and has not gone on with its loop: it is ready, or it
has just been dispatched.
kernel/nd_queue.c:36-51, 74-89, kernel/nd_mempool.c:41-54 -/
def InFlight (s : State) (k : QHead) (t : Tid) : Prop :=
  ((s.threads t).stat = .ready ∨ (s.threads t).stat = .running) ∧
    (s.calls t).bind Call.line = some k ∧ s.moved t = some (.woken t k)

instance (s : State) (k : QHead) (t : Tid) : Decidable (InFlight s k t) :=
  inferInstanceAs (Decidable (_ ∧ _ ∧ _))

/-- The number of threads in flight from wait list `k`. -/
def State.flight (s : State) (k : QHead) : ℕ :=
  (s.threadList.lists ()).countP fun t => InFlight s k t

/-- What the threads on a wait list of a queue or a pool wait for: messages to read, slots to write,
blocks. -/
def State.avail (s : State) : QHead → ℕ
  | .queueRead q => (s.msgQueues q).usedMsg.toNat
  | .queueSend q => ((s.msgQueues q).maxMsgs - (s.msgQueues q).usedMsg).toNat
  | .pool p => (s.pools p).freeCount
  | _ => 0

/-- The thread that a suspension or an abort stops.
kernel/nd_thread.c:126-161, 163-220 -/
def stopped (s : State) (a : Action) : Option Tid :=
  match a.op? with
  | some (.threadSuspend t) => if s.taken.lists t = [] then some t else none
  | some (.threadAbort (some t)) => if ndIsThreadEssential (s.threads t) then none else some t
  | _ => none

/-- A thread in flight is stopped only when nobody waits on the list that it comes from, or when
the other threads in flight from there suffice for what there is. -/
def SparesFlight (s : State) (a : Action) : Prop :=
  ∀ t, stopped s a = some t → ∀ k, InFlight s k t →
    s.queues.lists k = [] ∨ s.avail k < s.flight k

/-! ## Counting -/

/-- The count of wait list `k` is off by `n`. -/
def State.Short (n : ℤ) (k : QHead) (s : State) : Prop :=
  s.queues.lists k = [] ∨ (s.avail k : ℤ) ≤ s.flight k + n

/-- Nobody but thread `t` stops being in flight. -/
structure Steady (t : Tid) (x y : State) : Prop where
  list : y.threadList = x.threadList
  others : ∀ k u, u ≠ t → InFlight x k u → InFlight y k u

/-- A change that touches nobody in flight. -/
theorem flight_le (hl : y.threadList = x.threadList)
    (h : ∀ u, InFlight x k u → InFlight y k u) : x.flight k ≤ y.flight k := by
  unfold State.flight
  rw [hl]
  exact List.countP_mono_left fun u _ hu => by simpa using h u (by simpa using hu)

/-- The number of members of a list without repetitions that have a property, when one member may
lose it. -/
theorem countP_le_succ {l : List Tid} (hnd : l.Nodup) {p q : Tid → Bool} (t : Tid)
    (h : ∀ u, u ≠ t → p u = true → q u = true) : l.countP p ≤ l.countP q + 1 := by
  have herase : l.countP p ≤ (l.erase t).countP p + 1 := by
    rw [List.countP_erase]
    split <;> omega
  have hmono : (l.erase t).countP p ≤ (l.erase t).countP q :=
    List.countP_mono_left fun u hu => h u (hnd.mem_erase_iff.mp hu).1
  have hsub : (l.erase t).countP q ≤ l.countP q := List.erase_sublist.countP_le
  omega

/-- The number of members of a list without repetitions that have a property, when one member gains
it. -/
theorem countP_succ_le {l : List Tid} (hnd : l.Nodup) {p q : Tid → Bool} (ht : t ∈ l)
    (hp : p t = false) (hq : q t = true) (h : ∀ u, u ≠ t → p u = true → q u = true) :
    l.countP p + 1 ≤ l.countP q := by
  have hsame : (l.erase t).countP p = l.countP p := by simp [List.countP_erase, hp]
  have hmore : (l.erase t).countP q + 1 = l.countP q := by
    have hpos : 0 < l.countP q := List.countP_pos_iff.mpr ⟨t, ht, hq⟩
    rw [List.countP_erase, if_pos ⟨ht, hq⟩]
    omega
  have hmono : (l.erase t).countP p ≤ (l.erase t).countP q :=
    List.countP_mono_left fun u hu => h u (hnd.mem_erase_iff.mp hu).1
  omega

/-- A steady step takes one thread out of flight at most. -/
theorem Steady.flight (h : Steady t x y) (k : QHead) : x.flight k ≤ y.flight k + 1 := by
  unfold State.flight
  rw [h.list]
  exact countP_le_succ (x.threadList.nodup ()) t fun u hu hx => by
    simpa using h.others k u hu (by simpa using hx)

/-- A step in which one thread may stop being in flight, when it takes something or nothing is
left. -/
theorem State.Short.steady (h : x.Short n k) (hs : Steady t x y)
    (hq : y.queues.lists k ≠ [] → x.queues.lists k ≠ [] ∨ (y.avail k : ℤ) ≤ m)
    (hav : (y.avail k : ℤ) + n ≤ x.avail k + m)
    (ht : InFlight x k t → InFlight y k t ∨ (y.avail k : ℤ) + n < x.avail k + m ∨
      (y.avail k : ℤ) ≤ m) : y.Short m k := by
  by_cases hnil : y.queues.lists k = []
  · exact .inl hnil
  refine .inr ?_
  rcases hq hnil with hx | h0
  · have hle := h.resolve_left hx
    have hsucc := hs.flight k
    have hmono : (InFlight x k t → InFlight y k t) → x.flight k ≤ y.flight k := by
      intro hkeep
      refine flight_le hs.list fun u hu => ?_
      by_cases hut : u = t
      · exact hut ▸ hkeep (hut ▸ hu)
      · exact hs.others k u hut hu
    by_cases hf : InFlight x k t
    · rcases ht hf with hy | hless | h0
      · have := hmono fun _ => hy
        omega
      · omega
      · omega
    · have := hmono fun hx => absurd hx hf
      omega
  · omega

/-- A change of what there is. -/
theorem State.Short.stock (h : x.Short n k) (hl : y.threadList = x.threadList)
    (hq : y.queues.lists k = x.queues.lists k) (hf : ∀ u, InFlight x k u → InFlight y k u)
    (hav : (y.avail k : ℤ) + n ≤ x.avail k + m) : y.Short m k := by
  refine h.imp (fun hx => hq.trans hx) fun hx => ?_
  have := flight_le hl hf
  omega

/-- A change of other things. -/
theorem State.Short.same (h : x.Short n k) (hl : y.threadList = x.threadList)
    (hq : y.queues.lists k = x.queues.lists k) (hav : y.avail k = x.avail k)
    (hf : ∀ u, InFlight x k u → InFlight y k u) : y.Short n k :=
  h.stock hl hq hf (by rw [hav])

/-! ## The effects -/

/-- A call that has to wait finds nothing. -/
theorem avail_of_mustWait {c : Call} (hc : c.line = some k) (hm : c.mustWait x t) :
    x.avail k = 0 := by
  cases c with
  | queueSend q msg n =>
    cases hc
    have hfull : (x.msgQueues q).usedMsg = (x.msgQueues q).maxMsgs := hm
    simp [State.avail, hfull]
  | queueRecv q n =>
    cases hc
    have hempty : (x.msgQueues q).usedMsg = 0 := hm
    simp [State.avail, hempty]
  | mempoolAlloc p n =>
    cases hc
    exact hm
  | threadJoin u n => cases u <;> cases hc; rfl
  | _ => cases hc; rfl

/-- Only the calls that wait in a loop wait for something that stays where it is. -/
theorem avail_of_loops {c : Call} (hc : c.line = some k) (hl : c.loops = false) :
    x.avail k = 0 := by
  cases c with
  | queueSend | queueRecv | mempoolAlloc => cases hl
  | threadJoin u n => cases u <;> cases hc; rfl
  | _ => cases hc; rfl

/-- A thread that leaves a list other than the ready list was not in flight. -/
theorem InFlight.of_home (hJ : ConsistentBut Set.univ x) {j : QHead} (hj : x.queues.home t = some j)
    (hw : j.isWait = true) : ¬ InFlight x k t := by
  rintro ⟨hst, -⟩
  have hb := hJ.block_of_home hw hj
  rw [hb] at hst
  rcases hst with hst | hst <;> cases hst

/-- A thread leaves its list; it does not stop being in flight if it becomes ready. -/
theorem State.Short.left (h : x.Short n k) {f : Thread → Thread}
    (hf : InFlight x k t → (f (x.threads t)).stat = .ready) : (x.left t f).Short n k := by
  refine h.steady (t := t) ⟨rfl, fun j u hu hx => ?_⟩ (fun hne => .inl fun hnil => hne ?_) le_rfl
    fun hx => .inl ⟨?_, hx.2⟩
  · refine ⟨?_, hx.2⟩
    simpa [hu] using hx.1
  · simp [State.left, hnil]
  · simpa using Or.inl (hf hx)

/-- What a producer does to a waiter. -/
def State.woken (s : State) (t : Tid) (k : QHead) : State := (s.left t wakeEdit).emit (.woken t k)

/-- Noting a wake-up leaves what there is to take. -/
theorem avail_woken (x : State) (t : Tid) (j k : QHead) : (x.woken t j).avail k = x.avail k := by
  cases k <;> rfl

/-- Noting a wake-up is steady for the other threads. -/
theorem Steady.woken (x : State) (t : Tid) (j : QHead) : Steady t x (x.woken t j) := by
  refine ⟨rfl, fun k u hu hx => ⟨?_, hx.2.1, ?_⟩⟩
  · simpa [State.woken, hu] using hx.1
  · simpa [State.woken, State.moved, Event.moves, Ne.symm hu] using hx.2.2

/-- A waiter that is woken is in flight. -/
theorem flight_woken (hJ : ConsistentBut Set.univ x) (hT : Tracked x t)
    (hhome : x.queues.home t = some k) (hw : k.isWait = true) :
    x.flight k + 1 ≤ (x.woken t k).flight k := by
  have hlive : (x.threads t).stat.live := by
    rw [hJ.block_of_home hw hhome]
    exact ⟨by decide, by decide⟩
  obtain ⟨_, hl⟩ := Option.isSome_iff_exists.mp ((hJ.ok t).listed.mpr hlive)
  have hbefore : ¬ InFlight x k t := InFlight.of_home hJ hhome hw
  have hafter : InFlight (x.woken t k) k t := by
    refine ⟨.inl ?_, hT.inside k hhome hw, ?_⟩
    · simp [State.woken, wakeEdit]
    · simp [State.woken, State.moved, Event.moves]
  refine countP_succ_le (x.threadList.nodup ()) ((x.threadList.mem_iff () t).mpr hl) ?_ ?_
    fun u hu hx => ?_
  · simpa using hbefore
  · simpa using hafter
  · simpa using (Steady.woken x t k).others k u hu (by simpa using hx)

/-- The first waiter of a list, if there is one, is sent on its way. -/
theorem State.Short.served (hJ : ConsistentBut Set.univ x) (hT : ∀ t, Tracked x t)
    {j : QHead} (hw : j.isWait = true) (h : x.Short (if j = k then n + 1 else n) k) :
    (x.served j).Short n k := by
  unfold State.served
  cases hh : (x.queues.lists j).head? with
  | none =>
    by_cases hjk : j = k
    · subst hjk
      exact .inl (List.head?_eq_none_iff.mp hh)
    · simpa [hjk] using h
  | some t =>
    have hhome := x.queues.home_of_head hh
    show (x.woken t j).Short n k
    by_cases hjk : j = k
    · subst hjk
      have hne : x.queues.lists j ≠ [] := fun hnil => by simp [hnil] at hh
      have hle := h.resolve_left hne
      have hgain := flight_woken hJ (hT t) hhome hw
      rw [if_pos rfl] at hle
      refine .inr ?_
      rw [avail_woken]
      omega
    · rw [if_neg hjk] at h
      refine h.steady (.woken x t j) (fun hne => .inl fun hnil => hne ?_) ?_
        fun hx => absurd hx (InFlight.of_home hJ hhome hw)
      · simp [State.woken, State.left, hnil]
      · rw [avail_woken]

/-- A message that is sent: one more to read, one slot less to write. -/
theorem State.Short.sent (h : x.Short 0 k) {q : ℕ}
    (hq : (x.msgQueues q).usedMsg ≠ (x.msgQueues q).maxMsgs) (msg : List (BitVec 8)) :
    (x.sent q msg).Short (if .queueRead q = k then (if .queueSend q = k then -1 else 0) + 1
      else if .queueSend q = k then -1 else 0) k := by
  refine h.stock rfl rfl (fun _ hu => hu) ?_
  cases k with
  | queueRead p =>
    by_cases hp : p = q
    · subst hp
      simp [State.avail, State.sent]
      bv_omega
    · simp [State.avail, State.sent, hp, Ne.symm hp]
  | queueSend p =>
    by_cases hp : p = q
    · subst hp
      simp [State.avail, State.sent]
      bv_omega
    · simp [State.avail, State.sent, hp, Ne.symm hp]
  | _ => simp [State.avail, State.sent]

/-- A message that is received: one slot more to write, one message less to read. -/
theorem State.Short.received (h : x.Short 0 k) {q : ℕ} (hq : (x.msgQueues q).usedMsg ≠ 0) :
    (x.received q).Short (if .queueSend q = k then (if .queueRead q = k then -1 else 0) + 1
      else if .queueRead q = k then -1 else 0) k := by
  refine h.stock rfl rfl (fun _ hu => hu) ?_
  cases k with
  | queueRead p =>
    by_cases hp : p = q
    · subst hp
      simp [State.avail, State.received]
      bv_omega
    · simp [State.avail, State.received, hp, Ne.symm hp]
  | queueSend p =>
    by_cases hp : p = q
    · subst hp
      simp [State.avail, State.received]
      bv_omega
    · simp [State.avail, State.received, hp, Ne.symm hp]
  | _ => simp [State.avail, State.received]

/-- A block is taken. -/
theorem State.Short.allocated (h : x.Short 0 k) {p : ℕ} (hp : (x.pools p).freeCount ≠ 0) :
    (x.allocated p).Short (if .pool p = k then -1 else 0) k := by
  refine h.stock rfl rfl (fun _ hu => hu) ?_
  cases k with
  | pool j =>
    by_cases hj : j = p
    · subst hj
      simp [State.avail, State.allocated]
      omega
    · simp [State.avail, State.allocated, hj, Ne.symm hj]
  | _ => simp [State.avail, State.allocated]

/-- A block is put back. -/
theorem State.Short.put (h : x.Short 0 k) (p ptr : ℕ) :
    (x.put p ptr).Short (if .pool p = k then 0 + 1 else 0) k := by
  refine h.stock rfl rfl (fun _ hu => hu) ?_
  cases k with
  | pool j =>
    by_cases hj : j = p
    · subst hj
      have hmod := Nat.mod_le ((x.pools j).freeCount + 1) (2 ^ 32)
      simp [State.avail, State.put, u32]
      omega
    · simp [State.avail, State.put, hj, Ne.symm hj]
  | _ => simp [State.avail, State.put]

/-- A call returns: its thread is not in flight any more. -/
theorem State.Short.returned {who : Option Tid} {c : Call} {r : Ret} (h : x.Short n k)
    (hnm : n ≤ m) (hwho : ∀ t, who = some t → InFlight x k t → n < m ∨ (x.avail k : ℤ) ≤ m) :
    (x.returned who c r).Short m k := by
  have hav : (x.returned who c r).avail k = x.avail k := by
    rw [State.returned_eq]
    cases k <;> rfl
  cases who with
  | none =>
    have hflight : ∀ u, InFlight x k u → InFlight (x.returned none c r) k u := fun u hu =>
      ⟨hu.1, hu.2.1, hu.2.2⟩
    have hsame : (x.returned none c r).Short n k := h.same rfl rfl hav hflight
    exact hsame.imp id fun hle => by omega
  | some t =>
    refine h.steady (t := t) ⟨rfl, fun j u hu hx => ?_⟩ (fun hne => .inl hne) ?_ fun hx => .inr ?_
    · refine ⟨hx.1, ?_, hx.2.2⟩
      rw [State.returned_eq]
      simpa [Ne.symm hu] using hx.2.1
    · omega
    · rw [hav]
      refine (hwho t rfl hx).imp (fun hlt => ?_) id
      omega

/-- Whoever executes call `c` is in flight from the wait list of `c`, if at all. -/
theorem Within.line {who : Option Tid} {c : Call} (hw : Within a s x who c) (ht : who = some t)
    (hx : (x.calls t).bind Call.line = some k) : c.line = some k ∧ x.calls t = some c := by
  rcases hw.acts with ⟨-, hnone⟩ | ⟨-, u, hu, hc⟩
  · rw [hnone t ht] at hx
    cases hx
  · have htu : t = u := Option.some.inj (ht.symm.trans hu)
    subst htu
    rw [hc] at hx
    exact ⟨hx, hc⟩

/-- Waking a waiter leaves the calls. -/
theorem State.calls_served (x : State) (j : QHead) : (x.served j).calls = x.calls := by
  unfold State.served
  split <;> rfl

/-- An edit of a control block that stops nobody. -/
theorem State.Short.updThread (h : x.Short n k) {f : Thread → Thread}
    (hf : (f (x.threads t)).stat = (x.threads t).stat ∨ (f (x.threads t)).stat = .ready ∨
      ∀ k, ¬ InFlight x k t) : (x.updThread t f).Short n k := by
  refine h.same rfl rfl rfl fun u hu => ?_
  by_cases hut : u = t
  · subst hut
    rcases hf with hf | hf | hf
    · exact ⟨by simpa [hf] using hu.1, hu.2⟩
    · exact ⟨by simp [hf], hu.2⟩
    · exact absurd hu (hf k)
  · exact ⟨by simpa [hut] using hu.1, hu.2⟩

/-- A thread that is stopped. -/
theorem State.Short.stop (h : x.Short 0 k) {f : Thread → Thread}
    (hC : ∀ k, InFlight x k t → x.queues.lists k = [] ∨ x.avail k < x.flight k) :
    (x.left t f).Short 0 k := by
  have hs : Steady t x (x.left t f) := ⟨rfl, fun j u hu hx => ⟨by simpa [hu] using hx.1, hx.2⟩⟩
  have hnil : x.queues.lists k = [] → (x.left t f).queues.lists k = [] := fun hl => by
    simp [State.left, hl]
  by_cases hx : InFlight x k t
  · rcases hC k hx with hl | hlt
    · exact .inl (hnil hl)
    · refine .inr ?_
      have hav : (x.left t f).avail k = x.avail k := rfl
      have := hs.flight k
      omega
  · exact h.steady hs (fun hne => .inl fun hl => hne (hnil hl)) le_rfl fun h' => absurd h' hx

/-- A thread that is not in flight leaves the list of threads. -/
theorem State.Short.unlist (h : x.Short n k) (hx : ¬ InFlight x k t) :
    State.Short n k { x with threadList := x.threadList.unlink t } := by
  refine h.imp id fun hle => ?_
  have hflight : x.flight k = State.flight { x with threadList := x.threadList.unlink t } k := by
    have herase : (x.threadList.unlink t).lists () = (x.threadList.lists ()).erase t := by simp
    have hnot : ¬ (t ∈ x.threadList.lists () ∧ decide (InFlight x k t) = true) := fun hm =>
      hx (of_decide_eq_true hm.2)
    calc x.flight k
        = ((x.threadList.lists ()).erase t).countP fun u => InFlight x k u := by
          rw [List.countP_erase, if_neg hnot]
          rfl
      _ = State.flight { x with threadList := x.threadList.unlink t } k := by
          rw [← herase]
          rfl
  have hav : State.avail { x with threadList := x.threadList.unlink t } k = x.avail k := rfl
  omega

/-- A thread that is created. -/
theorem State.Short.create (h : x.Short n k) {b : CreateArgs} (hu : x.inUse t = false)
    (hx : ∀ k, ¬ InFlight x k t) : (x.created t b).Short n k := by
  have hfree : x.threadList.home t = none := by
    simp only [State.inUse, Bool.or_eq_false_iff] at hu
    simpa using hu.1.1.1.1.2
  have hlists : (x.created t b).threadList.lists () =
      Intrusive.insertWhere (fun _ => false) t (x.threadList.lists ()) := by
    rw [created_eq hu]
    exact x.threadList.lists_link _ () hfree ()
  have hstays : ∀ u, InFlight x k u → InFlight (x.created t b) k u := by
    intro u hfl
    have hut : u ≠ t := by
      rintro rfl
      exact hx k hfl
    rw [created_eq hu]
    exact ⟨by simpa [hut] using hfl.1, by simpa [hut] using hfl.2.1, hfl.2.2⟩
  have hflight : x.flight k ≤ (x.created t b).flight k := by
    unfold State.flight
    rw [hlists, (Intrusive.insertWhere_perm _ _ _).countP_eq]
    refine le_trans (List.countP_mono_left fun u _ hfl => ?_) (List.sublist_cons_self t _).countP_le
    simpa using hstays u (by simpa using hfl)
  have hav : (x.created t b).avail k = x.avail k := by
    rw [created_eq hu]
    rfl
  have hq : (x.created t b).queues = x.queues := by
    rw [created_eq hu]
    rfl
  refine h.imp (fun hl => by rw [hq]; exact hl) fun hle => ?_
  omega

/-- A boost keeps the count. -/
theorem State.Short.raised (h : x.Short n k) (m : Mid) (o c : Tid) :
    (x.raised m o c).Short n k := by
  unfold State.raised
  split
  · exact State.Short.updThread (x := x.updMutex _ _) (h.same rfl rfl rfl fun _ hu => hu) (.inl rfl)
  · exact h

/-- A call that does not wait in a loop returns. -/
theorem State.Short.answered {who : Option Tid} {c : Call} {r : Ret} (h : x.Short 0 k)
    (hw : Within a s x who c) (hc : c.loops = false) : (x.returned who c r).Short 0 k :=
  h.returned le_rfl fun _ ht hx => .inr (by rw [avail_of_loops (hw.line ht hx.2.1).1 hc]; rfl)

/-- A thread that has to wait starts to wait. -/
theorem State.Short.blocked {c : Call} {j : QHead} (h : x.Short 0 k)
    (hline : ∀ i, (x.calls t).bind Call.line = some i → i = j) (hfree : x.queues.home t = none)
    (h0 : x.avail j = 0) :
    (x.blocked t j c).Short 0 k := by
  have hav : (x.blocked t j c).avail k = x.avail k := rfl
  refine h.steady (t := t) ⟨rfl, fun i u hu hx => ⟨?_, ?_, ?_⟩⟩ (fun hne => ?_) (by rw [hav])
    fun hx => .inr (.inr ?_)
  · simpa [State.blocked, finishCall, hu] using hx.1
  · simpa [State.blocked, finishCall, hu] using hx.2.1
  · simpa [State.blocked, finishCall, State.moved, Event.moves, Ne.symm hu] using hx.2.2
  · have hlists : (x.blocked t j c).queues.lists k = (x.joined t j).queues.lists k := rfl
    rw [hlists, State.joined_queues, x.queues.lists_link _ _ hfree] at hne
    split at hne
    · rename_i hkj
      exact .inr (by rw [hav, hkj, h0]; rfl)
    · exact .inl hne
  · rw [hav, hline k hx.2.1, h0]
    rfl

/-- The application writes to a block. -/
theorem State.Short.written (h : x.Short 0 k) (p ptr : ℕ) (v : BitVec 8) :
    (poolWrite p ptr v x).Short 0 k := by
  refine h.same rfl rfl ?_ fun _ hu => hu
  cases k with
  | pool j => by_cases hj : j = p <;> simp [State.avail, poolWrite, hj]
  | _ => rfl

/-- A call returns, out of a loop only when it was not in one, timed out, or would have to wait
again. -/
theorem State.Short.ends {who : Option Tid} {c : Call} (h : x.Short 0 k) (hT : ∀ t, Tracked x t)
    (hw : Within a s x who c) (hl : ∀ t, who = some t → c.loops = true →
      x.calls t = none ∨ (x.threads t).error = .etimeout ∨ c.mustWait x t) (r : Ret) :
    (x.returned who c r).Short 0 k := by
  refine h.returned le_rfl fun t ht hx => .inr ?_
  obtain ⟨hline, hcall⟩ := hw.line ht hx.2.1
  cases hloop : c.loops with
  | false =>
    rw [avail_of_loops hline hloop]
    rfl
  | true =>
    rcases hl t ht hloop with hnone | htime | hmust
    · rw [hnone] at hcall
      cases hcall
    · rw [(hT t).awake k hx.2.2] at htime
      cases htime
    · rw [avail_of_mustWait hline hmust]
      rfl

/-- A mutex is owned: the caller raises the owner, and waits or returns. -/
theorem State.Short.contends {m : Mid} {o c : Tid} {n : ℕ} (h : x.Short 0 k)
    (hw : Within a s x (some c) (.mutexLock m n)) (hfree : x.queues.home c = none) :
    (if n = ndTimeoutNowait then
      (x.raised m o c).returned (some c) (.mutexLock m n) (.err .ebusy)
      else (x.raised m o c).blocked c (.mutex m) (.mutexLock m n)).Short 0 k := by
  have hraised := h.raised m o c
  have hc : (x.raised m o c).queues.home c = none := by
    rw [State.raised_eq]
    exact hfree
  split
  · refine hraised.returned le_rfl fun t ht hx => .inr ?_
    rw [State.raised_eq] at hx
    rw [avail_of_loops (hw.line ht hx.2.1).1 rfl]
    rfl
  · refine hraised.blocked (fun i hi => ?_) hc rfl
    rw [State.raised_eq] at hi
    exact (Option.some.inj (hw.line rfl hi).1).symm

/-- The owner of a mutex gives it up. -/
theorem State.Short.released (h : x.Short n k) (m : Mid) (c : Tid) :
    (x.released m c).Short n k := by
  have hreprio : (x.updThread c (Thread.withPriority (restoredPriority x c m))).Short n k :=
    h.updThread (.inl rfl)
  exact hreprio.same rfl rfl rfl fun _ hu => hu

/-- A message is sent, and the caller returns. -/
theorem State.Short.sends {who : Option Tid} {q n : ℕ} {msg : List (BitVec 8)}
    (hJ : ConsistentBut Set.univ x) (hT : ∀ t, Tracked x t) (h : x.Short 0 k)
    (hw : Within a s x who (.queueSend q msg n))
    (hq : (x.msgQueues q).usedMsg ≠ (x.msgQueues q).maxMsgs) :
    (((x.sent q msg).served (.queueRead q)).returned who (.queueSend q msg n) (.err .eok)).Short
      0 k := by
  refine State.Short.returned (n := (if .queueSend q = k then -1 else 0)) ?_ (by split <;> decide)
    fun t ht hx => ?_
  · exact State.Short.served (x := x.sent q msg) (hJ.of_core rfl)
      (fun t => (hT t).same rfl rfl rfl rfl) rfl (h.sent hq msg)
  · have hline := hx.2.1
    rw [State.calls_served] at hline
    rw [if_pos (Option.some.inj (hw.line ht hline).1)]
    exact .inl (by decide)

/-- A message is received, and the caller returns. -/
theorem State.Short.receives {who : Option Tid} {q n : ℕ} (hJ : ConsistentBut Set.univ x)
    (hT : ∀ t, Tracked x t) (h : x.Short 0 k) (hw : Within a s x who (.queueRecv q n))
    (hq : (x.msgQueues q).usedMsg ≠ 0) :
    (((x.received q).served (.queueSend q)).returned who (.queueRecv q n) (.err .eok)).Short
      0 k := by
  refine State.Short.returned (n := if .queueRead q = k then -1 else 0) ?_ (by split <;> decide)
    fun t ht hx => ?_
  · exact State.Short.served (x := x.received q) (hJ.of_core rfl)
      (fun t => (hT t).same rfl rfl rfl rfl) rfl (h.received hq)
  · have hline := hx.2.1
    rw [State.calls_served] at hline
    rw [if_pos (Option.some.inj (hw.line ht hline).1)]
    exact .inl (by decide)

/-- A block is allocated, and the caller returns. -/
theorem State.Short.allocates {who : Option Tid} {p n : ℕ} {r : Ret} (h : x.Short 0 k)
    (hw : Within a s x who (.mempoolAlloc p n)) (hp : (x.pools p).freeCount ≠ 0) :
    ((x.allocated p).returned who (.mempoolAlloc p n) r).Short 0 k := by
  refine State.Short.returned (n := if .pool p = k then -1 else 0) (h.allocated hp)
    (by split <;> decide) fun t ht hx => ?_
  rw [if_pos (Option.some.inj (hw.line ht hx.2.1).1)]
  exact .inl (by decide)

/-- Bits are posted, and the waiters that they satisfy get them. -/
theorem State.Short.posted (h : x.Short 0 k) (e : ℕ) (set : BitVec 32) :
    ((x.queues.lists (.event e)).foldl (State.visited e) (x.posted e set)).Short 0 k := by
  refine visited_induction (P := State.Short 0 k) (fun z t hz _ => ?_) x.queues
    (h.same rfl rfl rfl fun _ hu => hu)
  unfold State.visited
  split
  · have hgranted : (z.granted e (z.threads t).eventSet
        (.eventHanded t e (z.threads t).eventSet)).Short 0 k := hz.same rfl rfl rfl fun _ hu => hu
    exact hgranted.left fun _ => rfl
  · exact hz

/-- Every effect of a step that spares the threads in flight keeps the count. -/
theorem State.Short.step (hJ : ConsistentBut Set.univ x) (hT : ∀ t, Tracked x t)
    (hC : SparesFlight s a) (h : x.Short 0 k) (he : Effect a s x y) : y.Short 0 k := by
  have hfree : ∀ {v : Tid}, (x.threads v).stat = .running → x.queues.home v = none :=
    fun hr => hJ.home_none (by rw [hr]; decide) (by rw [hr]; decide)
  cases he with
  | nothing => exact h
  | environment | enter | semRelease => exact h.same rfl rfl rfl fun _ hu => hu
  | write ha => exact h.written _ _ _
  | returns r hw hl hr hb => exact h.ends hT hw hl r
  | blocks hw hm hk hn =>
    refine h.blocked (fun i hi => ?_) (hfree (hw.runs _ rfl).2) (avail_of_mustWait hk hm)
    exact Option.some.inj ((hw.line rfl hi).1.symm.trans hk)
  | semTake hw hv =>
    rename_i who i n
    have htaken : ((x.updSem i fun m => { m with val := m.val - 1 }).emit
        (.semTaken who i)).Short 0 k := h.same rfl rfl rfl fun _ hu => hu
    exact htaken.answered ⟨hw.caller, hw.runs, hw.acts⟩ rfl
  | semHand ha hl =>
    rename_i i t
    have hleft : (s.left t wakeEdit).Short 0 k := h.left fun _ => rfl
    exact hleft.same rfl rfl rfl fun _ hu => hu
  | lock hw ho =>
    rename_i m c n
    have hhanded : (x.handed m c).Short 0 k := h.same rfl rfl rfl fun _ hu => hu
    exact hhanded.answered ⟨hw.caller, hw.runs, hw.acts⟩ rfl
  | contend ha hw ho hoc hx =>
    subst hx
    exact h.contends ⟨hw.caller, hw.runs, hw.acts⟩ (hfree (hw.runs _ rfl).2)
  | drop ha hc hi ho hl =>
    rename_i m c
    have hreleased : (s.released m c).Short 0 k := h.released m c
    exact hreleased.same rfl rfl rfl fun _ hu => hu
  | hand ha hc hi ho hl =>
    rename_i m c t
    have hleft : ((s.released m c).left t wakeEdit).Short 0 k :=
      State.Short.left (x := s.released m c) (h.released m c) fun _ => rfl
    exact hleft.same rfl rfl rfl fun _ hu => hu
  | send hw hq => exact State.Short.sends hJ hT h hw hq
  | recv hw hq => exact State.Short.receives hJ hT h hw hq
  | alloc hw hp => exact h.allocates hw hp
  | free ha =>
    rename_i p ptr
    exact State.Short.served (x := s.put p ptr) (hJ.of_core rfl)
      (fun t => (hT t).same rfl rfl rfl rfl) rfl (h.put p ptr)
  | eventSend ha => exact h.posted _ _
  | eventScratch hw => exact h.updThread (.inl rfl)
  | eventTake hw hs =>
    rename_i c e set opt n
    have hgranted : (x.granted e set (.eventTaken (some c) e set)).Short 0 k :=
      h.same rfl rfl rfl fun _ hu => hu
    exact hgranted.answered ⟨hw.caller, hw.runs, hw.acts⟩ rfl
  | create ha hb ht hst htk hu =>
    rename_i t b
    refine h.create hu fun k hx => hst ?_
    rcases hx.1 with hr | hr <;> (rw [hr]; exact ⟨by decide, by decide⟩)
  | suspend ha htk hst =>
    rename_i t
    exact h.stop (f := suspendEdit) (hC t (by simp [stopped, ha, htk]))
  | resume ha hst => exact h.updThread (.inr (.inl rfl))
  | finish ha hess hst =>
    rename_i t
    have hstop : stopped s a = some t := by simp [stopped, ha, hess]
    refine (h.stop (f := endEdit) (hC t hstop)).unlist ?_
    rintro ⟨hdead, -⟩
    simp [endEdit] at hdead
  | wakeJoiner ha ht hj => exact h.left fun _ => rfl
  | timeout ha hl hk hw => exact h.left fun _ => rfl
  | delay ha ht hi =>
    refine h.updThread (.inr (.inr fun k hx => ?_))
    have := hx.2.1
    rw [hi] at this
    cases this
  | delayEnd => exact h.updThread (.inr (.inl rfl))

/-- The scheduler does not see the count. -/
theorem hidden_short (hw : k.isWait = true) : Hidden (State.Short n k) := by
  intro x y ho h
  have hlist := (congrArg State.threadList ho :)
  have hflight : ∀ u, InFlight x k u → InFlight y k u := by
    intro u hu
    refine ⟨?_, ?_, ?_⟩
    · have hst := stat_of_offCpu ho u
      have hx := hu.1
      revert hst hx
      cases (x.threads u).stat <;> cases (y.threads u).stat <;> simp [Stat.offCpu]
    · exact (congrArg (fun v : State => (v.calls u).bind Call.line) ho :).trans hu.2.1
    · exact (congrArg (fun v : State => v.moved u) ho :).trans hu.2.2
  have hav : y.avail k = x.avail k := (congrArg (fun v : State => v.avail k) ho :)
  have hq : (y.queues.restrict QHead.isWait).lists k = (x.queues.restrict QHead.isWait).lists k :=
    (congrArg (fun v : State => v.queues.lists k) ho :)
  simp only [Intrusive.Queues.lists_restrict, hw, if_true] at hq
  exact h.same hlist hq hav hflight

/-- What waits for a queue or a pool waits beside enough threads in flight to take all that there
is. -/
structure NoLostWakeup (s : State) : Prop where
  read : ∀ q, s.queues.lists (.queueRead q) ≠ [] →
    (s.msgQueues q).usedMsg.toNat ≤ s.flight (.queueRead q)
  write : ∀ q, s.queues.lists (.queueSend q) ≠ [] →
    ((s.msgQueues q).maxMsgs - (s.msgQueues q).usedMsg).toNat ≤ s.flight (.queueSend q)
  pool : ∀ p, s.queues.lists (.pool p) ≠ [] → (s.pools p).freeCount ≤ s.flight (.pool p)

/-- **No wake-up is lost** in the runs that stop a thread in flight only when it is not needed.
kernel/nd_queue.c:31-105, kernel/nd_mempool.c:36-85, kernel/nd_thread.c:111-220 -/
theorem no_lost_wakeup (h : (kernel cfg).Reach SparesFlight s) : NoLostWakeup s := by
  have hcount : ∀ k, k.isWait = true → s.Short 0 k := by
    intro k hk
    have hboth : (∀ t, Tracked s t) ∧ s.Short 0 k := by
      refine reach_effects (I := fun z => (∀ t, Tracked z t) ∧ z.Short 0 k)
        (fun x y ho hx => ⟨fun t => hidden_tracked t x y ho (hx.1 t), hidden_short hk x y ho hx.2⟩)
        (fun u => ?_) (fun s a _ _ hC x y hJ hx he =>
          ⟨fun t => (hx.1 t).step hJ he, hx.2.step hJ hx.1 hC he⟩) h
      refine ⟨tracked_start u, ?_⟩
      rw [created_eq rfl]
      exact .inl rfl
    exact hboth.2
  have hle : ∀ k, k.isWait = true → s.queues.lists k ≠ [] → s.avail k ≤ s.flight k := by
    intro k hk hne
    have := (hcount k hk).resolve_left hne
    omega
  exact ⟨fun q => hle (.queueRead q) rfl, fun q => hle (.queueSend q) rfl, fun p =>
    hle (.pool p) rfl⟩

/-- A check of the steps that spare the threads in flight. -/
def sparesFlight (s : State) (a : Action) : Bool :=
  match stopped s a with
  | none => true
  | some t => (s.threads t).stat ≠ .ready && (s.threads t).stat ≠ .running

/-- What the check accepts spares the threads in flight. -/
theorem sparesFlight_spares (s : State) (a : Action) (h : sparesFlight s a = true) :
    SparesFlight s a := by
  intro t ht k hk
  simp only [sparesFlight, ht, Bool.and_eq_true, decide_eq_true_eq] at h
  rcases hk.1 with hst | hst
  · exact absurd hst h.1
  · exact absurd hst h.2

/-- Two slots of one byte. -/
def byteSlots : Setup := { queues := fun _ => (1, 2) }

/-- Threads 1 and 2 wait for a message and thread 3 for its next period, in which it sends one. -/
def twoReadersRun : List Action :=
  [spawn 1 10, spawn 2 11, spawn 3 5, .start, .call (.threadDelay 1),
    .call (.wait (.queueRecv 0 ndTimeoutForever)), .call (.wait (.queueRecv 0 ndTimeoutForever)),
    .advance 1, .irqEnter, .timerFire, .irqExit, .call (.wait (.queueSend 0 [7] ndTimeoutNowait))]

/-- Thread 1 is on its way to the message, and thread 2 goes on waiting. -/
theorem no_lost_wakeup_run :
    ∃ s, (kernel syncPort).run twoReadersRun (boot syncPort byteSlots) = some s ∧
      s.queues.lists (.queueRead 0) = [2] ∧ (s.msgQueues 0).usedMsg = 1 ∧ NoLostWakeup s := by
  obtain ⟨s, hs, hp⟩ := (kernel syncPort).exists_run (l := twoReadersRun)
    (s := boot syncPort byteSlots)
    (p := fun s => s.queues.lists (.queueRead 0) = [2] ∧ (s.msgQueues 0).usedMsg = 1)
    (by decide +kernel)
  simp only [decide_eq_true_eq] at hp
  have hr := (kernel syncPort).reach_of_checked sparesFlight_spares (.start ⟨byteSlots, rfl⟩) hs
    (by decide +kernel)
  exact ⟨s, hs, hp.1, hp.2, no_lost_wakeup hr⟩

/-- Suspending thread 1 leaves thread 2 asleep beside the message. -/
theorem suspend_loses_wakeup :
    ¬ ∀ s, (kernel syncPort).Reach Machine.Always s → NoLostWakeup s := by
  intro hrule
  obtain ⟨s, hs, hp⟩ := (kernel syncPort).exists_run
    (l := twoReadersRun ++ [.call (.threadSuspend 1)]) (s := boot syncPort byteSlots)
    (p := fun s => s.queues.lists (.queueRead 0) = [2] ∧ s.flight (.queueRead 0) = 0 ∧
      (s.msgQueues 0).usedMsg = 1) (by decide +kernel)
  simp only [decide_eq_true_eq] at hp
  have hr := (kernel syncPort).reach_of_run (C := Machine.Always) (fun _ _ _ => trivial)
    (.start ⟨byteSlots, rfl⟩) hs
  have hle := (hrule s hr).read 0 (by rw [hp.1]; exact List.cons_ne_nil _ _)
  rw [hp.2.1, hp.2.2] at hle
  exact absurd hle (by decide)

end NerdRtos
