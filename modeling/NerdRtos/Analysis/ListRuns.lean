import NerdRtos.Analysis.NdLists

/-!
# Runs of calls on the lists

Every call of the kernel on its lists has a result, and the memory holds the lists that the model of
the kernel works with: the heads lead through the nodes in their order and back, and the pointers of
a node that has left its list are `ND_NULL`.
-/

set_option autoImplicit false

namespace NerdRtos

open Intrusive (Queues insertWhere)
open ListMem (Same)

namespace ListView

variable {S H N : Type} {m m' : ListMem (H ⊕ N)} {v v' : ListView H N} {h : H} {n : N}

/-- The memory holds the lists. -/
structure Holds (v : ListView H N) (m : ListMem (H ⊕ N)) : Prop where
  cycle : ∀ h, v.heads h = true → m.Cycle (.inl h) ((v.queues.lists h).map .inr)
  idle : ∀ h, v.heads h = false → v.queues.lists h = []
  own : ∀ n, v.queues.home n = none → v.off n = .own →
    m.next (.inr n) = some (.inr n) ∧ m.prev (.inr n) = some (.inr n)
  null : ∀ n, v.queues.home n = none → v.off n = .null →
    m.next (.inr n) = none ∧ m.prev (.inr n) = none

/-- A node that is on a list is on the list of a head that is initialised. -/
theorem Holds.heads_of_home (hv : v.Holds m) (hn : v.queues.home n = some h) :
    v.heads h = true := by
  by_contra hh
  have hidle := hv.idle h (Bool.eq_false_iff.mpr hh)
  have hmem := (v.queues.mem_iff h n).mpr hn
  rw [hidle] at hmem
  simp at hmem

/-- A node on no list is not among the entries of one. -/
theorem not_mem_entries (hn : v.queues.home n = none) (h : H) :
    (.inr n : H ⊕ N) ∉ .inl h :: (v.queues.lists h).map .inr := by
  simpa using v.queues.not_mem_of_free hn h

/-- A call changes one list, and no nodes but those in `T`. -/
theorem Holds.step {T : List N} (hv : v.Holds m) (hsame : Same m m' (.inl h :: T.map .inr))
    (hT : ∀ n ∈ T, ∀ k, v.queues.home n = some k → k = h)
    (hheads : ∀ k, k ≠ h → v'.heads k = v.heads k)
    (hlists : ∀ k, k ≠ h → v'.queues.lists k = v.queues.lists k) (hh : v'.heads h = true)
    (hcycle : m'.Cycle (.inl h) ((v'.queues.lists h).map .inr))
    (hfree : ∀ n, n ∉ T → v'.queues.home n = none →
      v.queues.home n = none ∧ v'.off n = v.off n)
    (hleft : ∀ n ∈ T, v'.queues.home n = none → v'.off n = .null ∧
      m'.next (.inr n) = none ∧ m'.prev (.inr n) = none) : v'.Holds m' := by
  have hnode : ∀ n, n ∉ T → m'.next (.inr n) = m.next (.inr n) ∧
      m'.prev (.inr n) = m.prev (.inr n) := by
    intro n hn
    apply hsame
    simpa using hn
  refine ⟨?_, ?_, ?_, ?_⟩
  · intro k hk
    by_cases hkh : k = h
    · subst hkh
      exact hcycle
    · rw [hheads k hkh] at hk
      rw [hlists k hkh]
      apply (hv.cycle k hk).frame hsame
      intro p hp hc
      rcases List.mem_cons.mp hp with rfl | hp
      · simp [hkh] at hc
      · obtain ⟨n, hn, rfl⟩ := List.mem_map.mp hp
        have hnT : n ∈ T := by simpa using hc
        exact hkh (hT n hnT k ((v.queues.mem_iff k n).mp hn))
  · intro k hk
    by_cases hkh : k = h
    · subst hkh
      rw [hh] at hk
      cases hk
    · rw [hheads k hkh] at hk
      rw [hlists k hkh]
      exact hv.idle k hk
  · intro n hn ho
    by_cases hnT : n ∈ T
    · have hnull := (hleft n hnT hn).1
      rw [hnull] at ho
      cases ho
    · obtain ⟨hn', ho'⟩ := hfree n hnT hn
      obtain ⟨hnext, hprev⟩ := hnode n hnT
      rw [hnext, hprev]
      exact hv.own n hn' (ho' ▸ ho)
  · intro n hn ho
    by_cases hnT : n ∈ T
    · exact (hleft n hnT hn).2
    · obtain ⟨hn', ho'⟩ := hfree n hnT hn
      obtain ⟨hnext, hprev⟩ := hnode n hnT
      rw [hnext, hprev]
      exact hv.null n hn' (ho' ▸ ho)

/-- A call changes a node that is on no list. -/
theorem Holds.step_node (hv : v.Holds m) (hsame : Same m m' [.inr n])
    (hn : v.queues.home n = none) (hheads : v'.heads = v.heads) (hqueues : v'.queues = v.queues)
    (hoff : ∀ u, u ≠ n → v'.off u = v.off u)
    (hown : v'.off n = .own → m'.next (.inr n) = some (.inr n) ∧ m'.prev (.inr n) = some (.inr n))
    (hnull : v'.off n = .null → m'.next (.inr n) = none ∧ m'.prev (.inr n) = none) :
    v'.Holds m' := by
  have hnode : ∀ u, u ≠ n → m'.next (.inr u) = m.next (.inr u) ∧
      m'.prev (.inr u) = m.prev (.inr u) := by
    intro u hu
    apply hsame
    simpa using hu
  refine ⟨?_, ?_, ?_, ?_⟩
  · intro k hk
    rw [hheads] at hk
    rw [hqueues]
    apply (hv.cycle k hk).frame hsame
    intro p hp hc
    have hpn : p = .inr n := by simpa using hc
    subst hpn
    exact v.queues.not_mem_of_free hn k (by simpa using hp)
  · intro k hk
    rw [hheads] at hk
    rw [hqueues]
    exact hv.idle k hk
  · intro u hu ho
    by_cases hun : u = n
    · subst hun
      exact hown ho
    · rw [hqueues] at hu
      rw [hoff u hun] at ho
      rw [(hnode u hun).1, (hnode u hun).2]
      exact hv.own u hu ho
  · intro u hu ho
    by_cases hun : u = n
    · subst hun
      exact hnull ho
    · rw [hqueues] at hu
      rw [hoff u hun] at ho
      rw [(hnode u hun).1, (hnode u hun).2]
      exact hv.null u hu ho

/-- The turns of a loop are more than the nodes of its list. -/
theorem length_lt_turns (v : ListView H N) (h : H) : (v.queues.lists h).length < v.turns h :=
  Nat.lt_succ_self _

/-- The turns of a loop are more than the entries of its list. -/
theorem entries_lt_turns (v : ListView H N) (h : H) :
    ((v.queues.lists h).map (Sum.inr : N → H ⊕ N)).length < v.turns h := by
  rw [List.length_map]
  exact v.length_lt_turns h

variable [DecidableEq N] [DecidableEq H]

/-! ## One node comes or goes -/

/-- A node comes onto a list. -/
theorem Holds.link (hv : v.Holds m) (hh : v.heads h = true) (hn : v.queues.home n = none)
    (p : N → Bool) (hcycle : m'.Cycle (.inl h) ((insertWhere p n (v.queues.lists h)).map .inr))
    (hsame : Same m m' (.inr n :: .inl h :: (v.queues.lists h).map .inr)) :
    (v.link p h n).Holds m' := by
  have hlists : ∀ k, (v.link p h n).queues.lists k =
      if k = h then insertWhere p n (v.queues.lists h) else v.queues.lists k :=
    v.queues.lists_link p h hn
  have hhome : ∀ u, (v.link p h n).queues.home u = if u = n then some h else v.queues.home u :=
    v.queues.home_link p h hn
  apply hv.step (T := n :: v.queues.lists h) (h := h)
  · apply hsame.mono
    intro a ha
    simp only [List.map_cons, List.mem_cons] at ha ⊢
    tauto
  · intro u hu k hk
    rcases List.mem_cons.mp hu with rfl | hu
    · rw [hn] at hk
      cases hk
    · rw [(v.queues.mem_iff h u).mp hu] at hk
      exact (Option.some.inj hk).symm
  · exact fun _ _ => rfl
  · intro k hk
    rw [hlists, if_neg hk]
  · exact hh
  · rw [hlists, if_pos rfl]
    exact hcycle
  · intro u hu hfree
    have hun : u ≠ n := fun he => hu (by simp [he])
    rw [hhome, if_neg hun] at hfree
    exact ⟨hfree, rfl⟩
  · intro u hu hfree
    rw [hhome] at hfree
    rcases List.mem_cons.mp hu with rfl | hu
    · simp at hfree
    · rw [(v.queues.mem_iff h u).mp hu] at hfree
      split at hfree <;> cases hfree

/-- A node is put at the end of a list. -/
theorem Holds.insertLast (hv : v.Holds m) (hh : v.heads h = true) (hn : v.queues.home n = none) :
    ∃ m', m.ndListInsertBefore (.inl h) (.inr n) = some m' ∧
      (v.link (fun _ => false) h n).Holds m' := by
  have hc := hv.cycle h hh
  have hz := not_mem_entries hn h
  rw [← List.append_nil ((v.queues.lists h).map Sum.inr)] at hc hz
  obtain ⟨m', hrun, hcycle, hsame⟩ := hc.insertBefore hz
  refine ⟨m', hrun, hv.link hh hn _ ?_ ?_⟩
  · rw [Intrusive.insertWhere_false, List.map_append]
    exact hcycle
  · rw [List.append_nil] at hsame
    exact hsame

/-- A node is taken out of its list. -/
theorem Holds.remove (hv : v.Holds m) (hn : v.queues.home n = some h) :
    ∃ m', m.ndListRemove (.inr n) = some m' ∧ (v.unlink n).Holds m' := by
  have hh := hv.heads_of_home hn
  have hin := (v.queues.mem_iff h n).mpr hn
  have hnd := v.queues.nodup h
  obtain ⟨l₁, l₂, hsplit⟩ := List.append_of_mem hin
  have hc := hv.cycle h hh
  rw [hsplit] at hc hnd
  rw [List.map_append, List.map_cons] at hc
  obtain ⟨m', hrun, hcycle, hnext, hprev, hsame⟩ := hc.remove
  have hrest : (v.queues.lists h).erase n = l₁ ++ l₂ := by
    have hout : n ∉ l₁ := fun hm => (List.nodup_append.mp hnd).2.2 n hm n (by simp) rfl
    rw [hsplit, List.erase_append_right _ hout, List.erase_cons_head]
  refine ⟨m', hrun, ?_⟩
  apply hv.step (T := v.queues.lists h) (h := h)
  · rw [hsplit, List.map_append, List.map_cons]
    exact hsame
  · intro u hu k hk
    rw [(v.queues.mem_iff h u).mp hu] at hk
    exact (Option.some.inj hk).symm
  · exact fun _ _ => rfl
  · exact fun k hk => v.queues.lists_unlink_of_home hn hk
  · exact hh
  · show m'.Cycle _ (((v.queues.lists h).erase n).map .inr)
    rw [hrest, List.map_append]
    exact hcycle
  · intro u hu hfree
    have hun : u ≠ n := fun he => hu (he ▸ hin)
    have hfree' : (v.queues.unlink n).home u = none := hfree
    rw [v.queues.home_unlink, if_neg hun] at hfree'
    exact ⟨hfree', Function.update_of_ne hun _ _⟩
  · intro u hu hfree
    have hfree' : (v.queues.unlink n).home u = none := hfree
    by_cases hun : u = n
    · subst hun
      exact ⟨Function.update_self _ _ _, hnext, hprev⟩
    · rw [v.queues.home_unlink, if_neg hun, (v.queues.mem_iff h u).mp hu] at hfree'
      cases hfree'

/-- A thread goes from its list to the end of its ready list. -/
theorem Holds.wake {ready : N → H} (hv : v.Holds m) (hn : v.queues.home n = some h)
    (hr : v.heads (ready n) = true) :
    ∃ m', m.ndEventWakeup (ListMem.readyOf ready) (.inr n) = some m' ∧
      (v.wake ready n).Holds m' := by
  obtain ⟨m₁, hout, h₁⟩ := hv.remove hn
  have hfree : (v.unlink n).queues.home n = none := by simp [unlink]
  obtain ⟨m₂, hin, h₂⟩ := h₁.insertLast (h := ready n) hr hfree
  refine ⟨m₂, ?_, h₂⟩
  rw [ListMem.ndEventWakeup, hout]
  exact hin

/-! ## The loops -/

section Loops

variable {ready : N → H} {l₁ l₂ r : List N} {turns : ℕ}

/-- The list that a thread is woken from. -/
theorem wake_lists (hl : v.queues.lists h = l₁ ++ n :: r) (hr : ready n ≠ h) :
    (v.wake ready n).queues.lists h = l₁ ++ r := by
  have hnd := v.queues.nodup h
  rw [hl] at hnd
  have hout : n ∉ l₁ := fun hm => (List.nodup_append.mp hnd).2.2 n hm n (by simp) rfl
  have hlists : (v.wake ready n).queues.lists h = (v.queues.lists h).erase n :=
    (v.queues.unlink n).lists_link_of_ne _ n hr.symm
  rw [hlists, hl, List.erase_append_right _ hout, List.erase_cons_head]

/-- The loop over the threads of a list wakes them all, the first one first. -/
theorem Holds.wakeAll (hv : v.Holds m) (hh : v.heads h = true)
    (hr : ∀ n ∈ v.queues.lists h, v.heads (ready n) = true ∧ ready n ≠ h)
    (hturns : (v.queues.lists h).length < turns) :
    ∃ m', m.wakeAll (ListMem.readyOf ready) (.inl h) turns = some m' ∧
      ((v.queues.lists h).foldl (ListView.wake ready) v).Holds m' := by
  induction turns generalizing v m with
  | zero => omega
  | succ turns ih =>
    have hempty := (hv.cycle h hh).isEmpty
    have hfirst := (hv.cycle h hh).first
    cases hl : v.queues.lists h with
    | nil =>
      refine ⟨m, ?_, hv⟩
      simp [ListMem.wakeAll, hempty, hl]
    | cons n l =>
      rw [hl] at hr hturns hfirst hempty
      obtain ⟨hready, hne⟩ := hr n (by simp)
      have hn : v.queues.home n = some h := (v.queues.mem_iff h n).mp (by simp [hl])
      obtain ⟨m₁, hrun, h₁⟩ := hv.wake hn hready
      have hstart : v.queues.lists h = [] ++ n :: l := hl
      have hrest : (v.wake ready n).queues.lists h = l := wake_lists hstart hne
      obtain ⟨m₂, hloop, h₂⟩ := ih h₁ hh (by
        rw [hrest]
        exact fun u hu => hr u (by simp [hu])) (by
        rw [hrest]
        simpa using hturns)
      rw [hrest] at h₂
      refine ⟨m₂, ?_, h₂⟩
      simp [ListMem.wakeAll, hempty, ListMem.ndThreadWakeup, hfirst, hrun, hloop]

/-- The loop visits every entry once, in their order, while some of them leave the list. -/
theorem Holds.safe (visit : S → N → Bool × S) (s : S) (hv : v.Holds m) (hh : v.heads h = true)
    (hl : v.queues.lists h = l₁ ++ l₂)
    (hr : ∀ n ∈ l₂, v.heads (ready n) = true ∧ ready n ≠ h) (hturns : l₂.length < turns) :
    ∃ m', ListMem.forEachEntrySafe (.inl h)
        (ListMem.sendBody (ListMem.visitOf visit) (ListMem.readyOf ready)) turns
        (some ((l₂.map Sum.inr).head?.getD (.inl h)))
        (m.next ((l₂.map Sum.inr).head?.getD (.inl h))) (m, s) =
          some (m', (leaving visit s l₂).2) ∧
      ((leaving visit s l₂).1.foldl (ListView.wake ready) v).Holds m' := by
  induction turns generalizing v m l₁ l₂ s with
  | zero => omega
  | succ turns ih =>
    cases l₂ with
    | nil =>
      refine ⟨m, ?_, hv⟩
      simp [ListMem.forEachEntrySafe, leaving]
    | cons n r =>
      have hc := hv.cycle h hh
      rw [hl, List.map_append, List.map_cons] at hc
      have hnext := hc.at.1
      obtain ⟨hready, hne⟩ := hr n (by simp)
      have hr' : ∀ u ∈ r, v.heads (ready u) = true ∧ ready u ≠ h :=
        fun u hu => hr u (by simp [hu])
      rw [List.length_cons] at hturns
      have hstep : ∀ (m₁ : ListMem (H ⊕ N)) (s₁ : S),
          ListMem.sendBody (ListMem.visitOf visit) (ListMem.readyOf ready) (.inr n) (m, s) =
            some (m₁, s₁) →
          ListMem.forEachEntrySafe (.inl h)
            (ListMem.sendBody (ListMem.visitOf visit) (ListMem.readyOf ready)) (turns + 1)
            (some (.inr n)) (m.next (.inr n)) (m, s) =
          ListMem.forEachEntrySafe (.inl h)
            (ListMem.sendBody (ListMem.visitOf visit) (ListMem.readyOf ready)) turns
            (some ((r.map Sum.inr).head?.getD (.inl h)))
            (m₁.next ((r.map Sum.inr).head?.getD (.inl h))) (m₁, s₁) := by
        intro m₁ s₁ hbody
        simp only [ListMem.forEachEntrySafe, reduceCtorEq, if_false, hbody, hnext,
          Option.bind_eq_bind, Option.bind_some]
      have hvisit : ListMem.visitOf visit s (.inr n : H ⊕ N) = visit s n := rfl
      rw [leaving_cons]
      by_cases hb : (visit s n).1 = true
      · have hn : v.queues.home n = some h := (v.queues.mem_iff h n).mp (by simp [hl])
        obtain ⟨m₁, hrun, h₁⟩ := hv.wake hn hready
        obtain ⟨m₂, hloop, h₂⟩ := ih (visit s n).2 h₁ hh (wake_lists hl hne) hr' (by omega)
        simp only [hb, if_true]
        refine ⟨m₂, (hstep m₁ (visit s n).2 ?_).trans hloop, h₂⟩
        simp [ListMem.sendBody, hvisit, hb, hrun]
      · have hback : v.queues.lists h = (l₁ ++ [n]) ++ r := by simpa using hl
        obtain ⟨m₂, hloop, h₂⟩ := ih (visit s n).2 hv hh hback hr' (by omega)
        simp only [hb]
        refine ⟨m₂, (hstep m (visit s n).2 ?_).trans hloop, h₂⟩
        simp [ListMem.sendBody, hvisit, hb]

/-- The loop of `nd_event_send` from its start. -/
theorem Holds.send (hv : v.Holds m) (hh : v.heads h = true)
    (hr : ∀ n ∈ v.queues.lists h, v.heads (ready n) = true ∧ ready n ≠ h)
    (hturns : (v.queues.lists h).length < turns) (visit : S → N → Bool × S) (s : S) :
    ∃ m', m.sendLoop turns (ListMem.visitOf visit) (ListMem.readyOf ready) (.inl h) s =
        some (m', (leaving visit s (v.queues.lists h)).2) ∧
      ((leaving visit s (v.queues.lists h)).1.foldl (ListView.wake ready) v).Holds m' := by
  have hstart : v.queues.lists h = [] ++ v.queues.lists h := rfl
  obtain ⟨m', hrun, hdone⟩ := hv.safe visit s hh hstart hr hturns
  refine ⟨m', ?_, hdone⟩
  simpa [ListMem.sendLoop, (hv.cycle h hh).first] using hrun

end Loops

/-! ## Every call -/

omit [DecidableEq N] in
/-- The check whether a loop may wake the threads of a list. -/
theorem canWake_iff {ready : N → H} : v.canWake ready h = true ↔
    v.heads h = true ∧ ∀ n ∈ v.queues.lists h, v.heads (ready n) = true ∧ ready n ≠ h := by
  simp [canWake]

/-- Every call has a result, and the memory then holds the lists after the call. -/
theorem Holds.call {a : ListCall S H N} (hv : v.Holds m) (ha : v.allowed a = true) :
    ∃ m', m.call v a = some m' ∧ (v.exec a).Holds m' := by
  cases a with
  | initHead h =>
    have hnil : v.queues.lists h = [] := List.isEmpty_iff.mp ha
    obtain ⟨hcycle, hsame⟩ := ListMem.init_spec m (.inl h : H ⊕ N)
    refine ⟨_, rfl, ?_⟩
    apply hv.step (T := []) (h := h) hsame
    · simp
    · exact fun k hk => Function.update_of_ne hk _ _
    · exact fun _ _ => rfl
    · exact Function.update_self _ _ _
    · simpa [exec, hnil] using hcycle
    · exact fun n _ hn => ⟨hn, rfl⟩
    · simp
  | initNode n =>
    have hn : v.queues.home n = none := Option.isNone_iff_eq_none.mp ha
    obtain ⟨hcycle, hsame⟩ := ListMem.init_spec m (.inr n : H ⊕ N)
    refine ⟨_, rfl, ?_⟩
    apply hv.step_node hsame hn
    · rfl
    · rfl
    · exact fun u hu => Function.update_of_ne hu _ _
    · intro _
      have hstart : (m.ndListInit (.inr n)).Cycle (.inr n) ([] ++ []) := hcycle
      exact hstart.meet
    · intro ho
      simp [exec] at ho
  | insertFirst h n =>
    simp only [allowed, Bool.and_eq_true, Option.isNone_iff_eq_none] at ha
    obtain ⟨hh, hn⟩ := ha
    obtain ⟨m', hrun, hcycle, hsame⟩ := (hv.cycle h hh).insertAfter (not_mem_entries hn h)
    refine ⟨m', hrun, hv.link hh hn _ ?_ hsame⟩
    rw [Intrusive.insertWhere_true]
    exact hcycle
  | insertLast h n =>
    simp only [allowed, Bool.and_eq_true, Option.isNone_iff_eq_none] at ha
    exact hv.insertLast ha.1 ha.2
  | waitInsert p h n =>
    simp only [allowed, Bool.and_eq_true, Option.isNone_iff_eq_none] at ha
    obtain ⟨hh, hn⟩ := ha
    obtain ⟨m', hrun, hcycle, hsame⟩ := (hv.cycle h hh).waitInsert
      (p := Sum.elim (fun _ => false) p) (not_mem_entries hn h) (v.entries_lt_turns h)
    refine ⟨m', hrun, hv.link hh hn _ ?_ hsame⟩
    rw [Intrusive.insertWhere_map] at hcycle
    exact hcycle
  | remove n =>
    cases hn : v.queues.home n with
    | none =>
      have ho : v.off n = .own := by simpa [allowed, hn] using ha
      obtain ⟨hnext, hprev⟩ := hv.own n hn ho
      obtain ⟨m', hrun, hnext', hprev', hsame⟩ := ListMem.remove_own hnext hprev
      refine ⟨m', hrun, ?_⟩
      apply hv.step_node hsame hn
      · rfl
      · exact v.queues.unlink_of_free hn
      · exact fun u hu => Function.update_of_ne hu _ _
      · intro ho
        simp [exec, unlink] at ho
      · exact fun _ => ⟨hnext', hprev'⟩
    | some h => exact hv.remove hn
  | wakeup ready h =>
    simp only [allowed, Bool.and_eq_true, canWake_iff] at ha
    obtain ⟨⟨hh, hr⟩, hne⟩ := ha
    have hfirst := (hv.cycle h hh).first
    cases hl : v.queues.lists h with
    | nil => simp [hl] at hne
    | cons n l =>
      have hn : v.queues.home n = some h := (v.queues.mem_iff h n).mp (by simp [hl])
      rw [hl] at hfirst
      obtain ⟨m', hrun, h'⟩ := hv.wake hn (hr n (by simp [hl])).1
      refine ⟨m', ?_, ?_⟩
      · simpa [ListMem.call, ListMem.ndThreadWakeup, hfirst] using hrun
      · simpa [exec, hl] using h'
  | wakeAll ready h =>
    obtain ⟨hh, hr⟩ := canWake_iff.mp ha
    exact hv.wakeAll hh hr (v.length_lt_turns h)
  | send visit s ready h =>
    obtain ⟨hh, hr⟩ := canWake_iff.mp ha
    obtain ⟨m', hrun, h'⟩ := hv.send hh hr (v.length_lt_turns h) visit s
    refine ⟨m', ?_, h'⟩
    rw [ListMem.call, hrun]
    rfl

end ListView

namespace ListCalls

variable {S H N : Type} [DecidableEq H] [DecidableEq N]

/-- In every run the memory holds the lists. -/
theorem sound_reach {x : ListCalls H N} (hx : (listMachine S H N).Reach Machine.Always x) :
    ∃ m, x.mem = some m ∧ x.view.Holds m := by
  apply hx.induction
  · rintro _ ⟨m, rfl⟩
    refine ⟨m, rfl, fun h hh => ?_, fun _ _ => rfl, fun n _ ho => ?_, fun n _ ho => ?_⟩
    · cases hh
    · cases ho
    · cases ho
  · intro x a _ ⟨m, hmem, hv⟩ ha _
    obtain ⟨m', hrun, hv'⟩ := hv.call ha
    refine ⟨m', ?_, hv'⟩
    show x.mem.bind (fun m => m.call x.view a) = some m'
    rw [hmem]
    exact hrun

end ListCalls

/-- In every run of calls no pointer that is dereferenced is `ND_NULL`, every loop ends one turn
after the last node of its list, and the memory holds the lists that the calls make. -/
theorem list_calls_sound {S H N : Type} [DecidableEq H] [DecidableEq N] {x : ListCalls H N}
    (hx : (listMachine S H N).Reach Machine.Always x) : ∃ m, x.mem = some m ∧ x.view.Holds m :=
  ListCalls.sound_reach hx

/-- Four threads on two lists: a wait in the order of a key, a wake-up, and a loop that wakes the
even ones as long as it has tokens. -/
def listRun : List (ListCall ℕ Bool ℕ) :=
  [.initHead true, .initHead false, .initNode 4, .waitInsert (6 < ·) true 6,
    .waitInsert (4 < ·) true 4, .waitInsert (9 < ·) true 9, .waitInsert (8 < ·) true 8,
    .insertFirst false 1, .send (fun k n => (n % 2 = 0 && k ≠ 0, k - 1)) 2 (fun _ => false) true,
    .remove 1, .wakeup (fun _ => false) true]

/-- The state that these calls reach. -/
theorem listRun_reaches : ∃ x : ListCalls Bool ℕ, (listMachine ℕ Bool ℕ).Reach Machine.Always x ∧
    x.view.queues.lists true = [9] ∧ x.view.queues.lists false = [4, 6, 8] := by
  obtain ⟨x, hx, hp⟩ := (listMachine ℕ Bool ℕ).exists_run (l := listRun)
    (s := {
      mem := some { next := fun _ => none, prev := fun _ => none }
      view := { queues := Queues.empty, heads := fun _ => false, off := fun _ => .raw } })
    (p := fun x => x.view.queues.lists true = [9] ∧ x.view.queues.lists false = [4, 6, 8])
    (by decide +kernel)
  refine ⟨x, ?_, of_decide_eq_true hp⟩
  exact Machine.reach_of_run _ (fun _ _ _ => trivial) (.start ⟨_, rfl⟩) hx

/-- The memory behind these calls. -/
theorem list_calls_sound_run : ∃ x : ListCalls Bool ℕ,
    (x.view.queues.lists true = [9] ∧ x.view.queues.lists false = [4, 6, 8]) ∧
      ∃ m, x.mem = some m ∧ x.view.Holds m := by
  obtain ⟨x, hx, hlists⟩ := listRun_reaches
  exact ⟨x, hlists, list_calls_sound hx⟩

/-- What the functions that only read the memory answer, for the lists `v`. -/
structure ListView.Answers {H N : Type} [DecidableEq H] [DecidableEq N] (v : ListView H N)
    (m : ListMem (H ⊕ N)) : Prop where
  first : ∀ h, v.heads h = true →
    m.next (.inl h) = some (((v.queues.lists h).map Sum.inr).head?.getD (.inl h))
  isEmpty : ∀ h, v.heads h = true → m.ndListIsEmpty (.inl h) = (v.queues.lists h).isEmpty
  length : ∀ h, v.heads h = true → m.ndListLength (v.turns h) (.inl h) =
    some (BitVec.ofNat 32 (v.queues.lists h).length)
  isLinked : ∀ n, v.queues.home n ≠ none ∨ v.off n = .null →
    m.ndListIsLinked (.inr n) = (v.queues.home n).isSome
  forEach : ∀ h, v.heads h = true → ∀ {R : Type} (body : R → H ⊕ N → R) (r : R),
    m.forEachEntry (.inl h) body (v.turns h) (m.next (.inl h)) r =
      some ((v.queues.lists h).foldl (fun r n => body r (.inr n)) r)
  send : ∀ h ready, v.canWake ready h = true → ∀ {R : Type} (visit : R → N → Bool × R) (r : R),
    (m.sendLoop (v.turns h) (ListMem.visitOf visit) (ListMem.readyOf ready) (.inl h) r).map
      Prod.snd = some ((v.queues.lists h).foldl (fun r n => (visit r n).2) r)

/-- In every reached state the memory answers for the lists: their first nodes, which are empty, how
many nodes they have, which nodes are linked, of those that are on a list or have left one, and that
a loop comes to every node of its list once, in their order, also where it takes some of them out
while it runs. -/
theorem list_reads {S H N : Type} [DecidableEq H] [DecidableEq N] {x : ListCalls H N}
    (hx : (listMachine S H N).Reach Machine.Always x) :
    ∃ m, x.mem = some m ∧ x.view.Answers m := by
  obtain ⟨m, hmem, hv⟩ := ListCalls.sound_reach hx
  refine ⟨m, hmem, fun h hh => (hv.cycle h hh).first, ?_, ?_, ?_, ?_, ?_⟩
  · intro h hh
    rw [(hv.cycle h hh).isEmpty, List.isEmpty_map]
  · intro h hh
    have hlength := (hv.cycle h hh).length (x.view.entries_lt_turns h)
    rwa [List.length_map] at hlength
  · intro n hn
    cases hhome : x.view.queues.home n with
    | none =>
      have hnull : x.view.off n = .null := by simpa [hhome] using hn
      have hnext := (hv.null n hhome hnull).1
      simp [ListMem.ndListIsLinked, hnext]
    | some h =>
      have hh := hv.heads_of_home hhome
      obtain ⟨l₁, l₂, hsplit⟩ := List.append_of_mem ((x.view.queues.mem_iff h n).mpr hhome)
      have hc := hv.cycle h hh
      rw [hsplit, List.map_append, List.map_cons] at hc
      simp [ListMem.ndListIsLinked, hc.at.1]
  · intro h hh R body r
    have hc := hv.cycle h hh
    have hstart : m.Cycle (.inl h) ([] ++ (x.view.queues.lists h).map .inr) := hc
    rw [hc.first, hstart.forEachEntry (x.view.entries_lt_turns h), List.foldl_map]
  · intro h ready hwake R visit r
    obtain ⟨hh, hready⟩ := ListView.canWake_iff.mp hwake
    obtain ⟨m', hrun, -⟩ := hv.send hh hready (x.view.length_lt_turns h) visit r
    rw [hrun, leaving_snd]
    rfl

/-- The answers behind these calls. -/
theorem list_reads_run : ∃ x : ListCalls Bool ℕ, x.view.queues.lists true = [9] ∧
    ∃ m, x.mem = some m ∧ x.view.Answers m := by
  obtain ⟨x, hx, hlists, -⟩ := listRun_reaches
  exact ⟨x, hlists, list_reads hx⟩

end NerdRtos
