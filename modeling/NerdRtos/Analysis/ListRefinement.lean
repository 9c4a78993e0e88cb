import NerdRtos.Analysis.ListRuns
import NerdRtos.Analysis.Reachable

/-!
# The loops of the kernel on the lists in memory

`nd_event_send` walks a wait list while it takes threads out of it and puts them on other lists, and
`nd_thread_halt` wakes the threads of a list until it is empty. The model of the kernel folds over
the list as it was before. Here both loops run on the pointers, and come to the same lists.
-/

set_option autoImplicit false

namespace NerdRtos

open Intrusive (Queues)

variable {s s' : State} {t : Tid}

/-- The ready list of a thread. -/
def readyList (s : State) (t : Tid) : QHead := .ready (s.threads t).priority

/-- What the loop of `nd_event_send` does with a waiter: whether it is woken, and the set then. -/
def eventVisitOf (s : State) (set : BitVec 64) (t : Tid) : Bool × BitVec 64 :=
  let th := s.threads t
  let woken := ndEventIsSatisfied set th.eventSet th.eventOpt
  (woken, if woken then clearBits set th.eventSet else set)

/-- A thread is woken: the lists change and what the loops look at does not. -/
structure Woken (s s' : State) (t : Tid) : Prop where
  queues : s'.queues = (s.queues.unlink t).link (fun _ => false) (readyList s t) t
  ready : readyList s' = readyList s
  visit : eventVisitOf s' = eventVisitOf s
  events : s'.events = s.events

/-- Both ways of waking a thread, which take it out of its list before or after its other fields
are written. -/
theorem Woken.of_chain {x : State} {f : Thread → Thread} (hprio : (s.threads t).priority < 32)
    (hq : x.queues = s.queues.unlink t) (hth : x.threads = Function.update s.threads t
      (f (s.threads t))) (hev : x.events = s.events)
    (hf : ∀ th, (f th).priority = th.priority ∧ (f th).eventSet = th.eventSet ∧
      (f th).eventOpt = th.eventOpt) : Woken s (ndThreadReadyAddTail t x) t := by
  have hsame : ∀ u, (x.threads u).priority = (s.threads u).priority ∧
      (x.threads u).eventSet = (s.threads u).eventSet ∧
      (x.threads u).eventOpt = (s.threads u).eventOpt := by
    intro u
    rw [hth]
    by_cases hu : u = t
    · subst hu
      simpa using hf (s.threads u)
    · simp [hu]
  have hx : (x.threads t).priority < 32 := by
    rw [(hsame t).1]
    exact hprio
  rw [readyAddTail_eq hx]
  refine ⟨?_, ?_, ?_, hev⟩
  · show x.queues.link (fun _ => false) (.ready (x.threads t).priority) t = _
    rw [hq, (hsame t).1]
    rfl
  · funext u
    show QHead.ready (x.threads u).priority = _
    rw [(hsame u).1]
    rfl
  · funext set u
    show (ndEventIsSatisfied set (x.threads u).eventSet (x.threads u).eventOpt,
      if ndEventIsSatisfied set (x.threads u).eventSet (x.threads u).eventOpt then
        clearBits set (x.threads u).eventSet else set) = _
    rw [(hsame u).2.1, (hsame u).2.2]
    rfl

/-- `nd_event_wakeup` wakes the thread. -/
theorem ndEventWakeup_woken (hprio : (s.threads t).priority < 32) :
    Woken s (ndEventWakeup t s) t := by
  unfold ndEventWakeup
  refine Woken.of_chain (f := fun th => { th with stat := .ready }) hprio ?_ ?_ ?_ ?_
  · rfl
  · rfl
  · rfl
  · exact fun _ => ⟨rfl, rfl, rfl⟩

/-- `nd_thread_wakeup` wakes the first thread. -/
theorem ndThreadWakeup_woken {h : QHead} (hprio : (s.threads t).priority < 32)
    (ht : (s.queues.lists h).head? = some t) : Woken s (ndThreadWakeup h s).1 t := by
  unfold ndThreadWakeup
  rw [ht]
  refine Woken.of_chain (f := fun th => { th with error := .eok, stat := .ready }) hprio ?_ ?_ ?_ ?_
  · rfl
  · rfl
  · rfl
  · exact fun _ => ⟨rfl, rfl, rfl⟩

/-! ## The loops -/

/-- The lists of the kernel under the calls. -/
structure ListView.Of (v : ListView QHead Tid) (s : State) : Prop where
  queues : v.queues = s.queues
  heads : ∀ h, v.heads h = true

variable {v : ListView QHead Tid}

/-- The lists in memory follow a wake-up. -/
theorem ListView.Of.wake (hv : v.Of s) (hw : Woken s s' t) : (v.wake (readyList s) t).Of s' := by
  refine ⟨?_, hv.heads⟩
  rw [hw.queues, ← hv.queues]
  rfl

/-- The loop of `nd_event_send`, thread by thread. -/
theorem ListView.Of.eventFold {e : ℕ} (ts : List Tid) (hv : v.Of s)
    (hprio : ∀ t ∈ ts, (s.threads t).priority < 32) :
    ((leaving (eventVisitOf s) (s.events e).set ts).1.foldl (ListView.wake (readyList s)) v).Of
        (ts.foldl (eventVisit e) s) ∧
      (leaving (eventVisitOf s) (s.events e).set ts).2 =
        ((ts.foldl (eventVisit e) s).events e).set := by
  induction ts generalizing s v with
  | nil => exact ⟨hv, rfl⟩
  | cons t ts ih =>
    rw [leaving_cons, List.foldl_cons]
    by_cases hsat : ndEventIsSatisfied (s.events e).set (s.threads t).eventSet
        (s.threads t).eventOpt = true
    · have hvisit : eventVisitOf s (s.events e).set t =
          (true, clearBits (s.events e).set (s.threads t).eventSet) := by
        simp [eventVisitOf, hsat]
      let x := (s.updEvent e fun g => { g with set := clearBits g.set (s.threads t).eventSet }).emit
        (.eventHanded t e (s.threads t).eventSet (s.events e).set
          (clearBits (s.events e).set (s.threads t).eventSet))
      have hw : Woken x (ndEventWakeup t x) t := ndEventWakeup_woken (hprio t (by simp))
      have hrun : eventVisit e s t = ndEventWakeup t x := by
        simp [eventVisit, hsat, x]
      have hof : v.Of x := ⟨hv.queues, hv.heads⟩
      have hset : ((ndEventWakeup t x).events e).set =
          clearBits (s.events e).set (s.threads t).eventSet := by
        rw [hw.events]
        simp [x]
      have hprio' : ∀ u ∈ ts, ((ndEventWakeup t x).threads u).priority < 32 := by
        intro u hu
        have hready : readyList (ndEventWakeup t x) u = readyList s u := congrFun hw.ready u
        simp only [readyList, QHead.ready.injEq] at hready
        rw [hready]
        exact hprio u (by simp [hu])
      obtain ⟨hrest, hend⟩ := ih (hof.wake hw) hprio'
      rw [hw.ready, hw.visit, hset] at hrest
      rw [hw.visit, hset] at hend
      rw [hrun, hvisit]
      exact ⟨hrest, hend⟩
    · have hvisit : eventVisitOf s (s.events e).set t = (false, (s.events e).set) := by
        simp [eventVisitOf, hsat]
      have hrun : eventVisit e s t = s := by
        simp [eventVisit, hsat]
      rw [hrun, hvisit]
      exact ih hv fun u hu => hprio u (by simp [hu])

/-- The loop of `nd_thread_halt`, thread by thread. -/
theorem ListView.Of.wakeFold {h : QHead} (ts : List Tid) (hv : v.Of s)
    (hts : s.queues.lists h = ts) (hw : h.isWait = true)
    (hprio : ∀ t ∈ ts, (s.threads t).priority < 32) :
    (ts.foldl (ListView.wake (readyList s)) v).Of (wakeAll h ts.length s) := by
  induction ts generalizing s v with
  | nil => exact hv
  | cons t ts ih =>
    have hempty : s.listIsEmpty h = false := by simp [State.listIsEmpty, hts]
    have hfirst : (s.queues.lists h).head? = some t := by simp [hts]
    have hwoken := ndThreadWakeup_woken (hprio t (by simp)) hfirst
    have hne : readyList s t ≠ h := by
      rintro rfl
      cases hw
    have hrest : (ndThreadWakeup h s).1.queues.lists h = ts := by
      have hstart : v.queues.lists h = [] ++ t :: ts := by
        rw [hv.queues, hts]
        rfl
      have hlists := ListView.wake_lists hstart hne
      rw [(hv.wake hwoken).queues] at hlists
      exact hlists
    have hprio' : ∀ u ∈ ts, ((ndThreadWakeup h s).1.threads u).priority < 32 := by
      intro u hu
      have hready := congrFun hwoken.ready u
      simp only [readyList, QHead.ready.injEq] at hready
      rw [hready]
      exact hprio u (by simp [hu])
    have hloop := ih (hv.wake hwoken) hrest hprio'
    rw [hwoken.ready] at hloop
    rw [List.length_cons, wakeAll, if_neg (by simp [hempty])]
    exact hloop

/-- The loops of `nd_event_send` at event `e` and of `nd_thread_halt` at list `h` end, dereference
no `ND_NULL`, and leave the lists and the event set that the model of the kernel has after them. -/
structure LoopsAgree (m : ListMem (QHead ⊕ Tid)) (v : ListView QHead Tid) (s : State) (e : ℕ)
    (h : QHead) : Prop where
  send : ∃ (m' : ListMem (QHead ⊕ Tid)) (v' : ListView QHead Tid),
    m.sendLoop (v.turns (.event e)) (ListMem.visitOf (eventVisitOf s))
        (ListMem.readyOf (readyList s)) (.inl (.event e)) (s.events e).set =
      some (m', (((s.queues.lists (.event e)).foldl (eventVisit e) s).events e).set) ∧
    v'.Holds m' ∧ v'.Of ((s.queues.lists (.event e)).foldl (eventVisit e) s)
  wake : ∃ (m' : ListMem (QHead ⊕ Tid)) (v' : ListView QHead Tid),
    m.wakeAll (ListMem.readyOf (readyList s)) (.inl h) (v.turns h) = some m' ∧
    v'.Holds m' ∧ v'.Of (wakeAll h (s.queues.lists h).length s)

/-- The ready list that a waiter goes to is a list in memory, and no wait list. -/
theorem ListView.Of.ready (hv : v.Of s) {k : QHead} (hk : k.isWait = true) :
    ∀ t ∈ v.queues.lists k, v.heads (readyList s t) = true ∧ readyList s t ≠ k := by
  intro t _
  refine ⟨hv.heads _, ?_⟩
  rintro rfl
  cases hk

/-- The loop of `nd_event_send` on the pointers comes to the lists and the set of the model. -/
theorem send_agrees {m : ListMem (QHead ⊕ Tid)} {e : ℕ} (hm : v.Holds m) (hv : v.Of s)
    (hprio : ∀ t ∈ s.queues.lists (.event e), (s.threads t).priority < 32) :
    ∃ (m' : ListMem (QHead ⊕ Tid)) (v' : ListView QHead Tid),
      m.sendLoop (v.turns (.event e)) (ListMem.visitOf (eventVisitOf s))
          (ListMem.readyOf (readyList s)) (.inl (.event e)) (s.events e).set =
        some (m', (((s.queues.lists (.event e)).foldl (eventVisit e) s).events e).set) ∧
      v'.Holds m' ∧ v'.Of ((s.queues.lists (.event e)).foldl (eventVisit e) s) := by
  obtain ⟨m', hrun, hm'⟩ := hm.send (hv.heads _) (hv.ready (k := .event e) rfl)
    (v.length_lt_turns (.event e)) (eventVisitOf s) (s.events e).set
  obtain ⟨hof, hset⟩ := hv.eventFold (e := e) (s.queues.lists (.event e)) hprio
  rw [hv.queues] at hrun hm'
  rw [hset] at hrun
  exact ⟨m', _, hrun, hm', hof⟩

/-- The loop of `nd_thread_halt` on the pointers comes to the lists of the model. -/
theorem wake_agrees {m : ListMem (QHead ⊕ Tid)} {h : QHead} (hm : v.Holds m) (hv : v.Of s)
    (hw : h.isWait = true) (hprio : ∀ t ∈ s.queues.lists h, (s.threads t).priority < 32) :
    ∃ (m' : ListMem (QHead ⊕ Tid)) (v' : ListView QHead Tid),
      m.wakeAll (ListMem.readyOf (readyList s)) (.inl h) (v.turns h) = some m' ∧
      v'.Holds m' ∧ v'.Of (wakeAll h (s.queues.lists h).length s) := by
  obtain ⟨m', hrun, hm'⟩ := hm.wakeAll (hv.heads h) (hv.ready hw) (v.length_lt_turns h)
  have hof := hv.wakeFold (s.queues.lists h) rfl hw hprio
  rw [hv.queues] at hm'
  exact ⟨m', _, hrun, hm', hof⟩

/-- The loops agree on every memory that holds the lists of the kernel. -/
theorem kernel_loops_on_lists {m : ListMem (QHead ⊕ Tid)} {h : QHead} {e : ℕ} (hm : v.Holds m)
    (hv : v.Of s) (hw : h.isWait = true)
    (hprio : ∀ k, ∀ t ∈ s.queues.lists k, (s.threads t).priority < 32) : LoopsAgree m v s e h where
  send := send_agrees hm hv (hprio (.event e))
  wake := wake_agrees hm hv hw (hprio h)

/-- In a reachable state the priorities are in range, so that the loops agree in every run of the
kernel. -/
theorem loopsAgree_reach {cfg : Config} {D : State → Action → Prop} {m : ListMem (QHead ⊕ Tid)}
    {h : QHead} {e : ℕ} (hs : (kernel cfg).Reach D s) (hm : v.Holds m) (hv : v.Of s)
    (hw : h.isWait = true) : LoopsAgree m v s e h := by
  have hprio : ∀ t, (s.threads t).priority < 32 := fun t => ((reach_sound hs).consistent.ok t).prio
  exact ⟨send_agrees hm hv fun t _ => hprio t, wake_agrees hm hv hw fun t _ => hprio t⟩

/-- The heads and the nodes as they are initialised. -/
def initView : ListView QHead Tid where
  queues := Queues.empty
  heads _ := true
  off _ := .own

/-- Heads and nodes that point to themselves are empty lists. -/
theorem initView_holds : initView.Holds { next := some, prev := some } := by
  refine ⟨?_, fun _ _ => rfl, fun _ _ _ => ⟨rfl, rfl⟩, ?_⟩
  · exact fun h _ => ⟨⟨rfl, rfl⟩, by simp [initView]⟩
  · intro n _ ho
    cases ho

/-- Two waiters of one event. -/
theorem kernel_loops_on_lists_two : ∃ (s : State) (v : ListView QHead Tid)
    (m : ListMem (QHead ⊕ Tid)), s.queues.lists (.event 0) = [1, 2] ∧
      LoopsAgree m v s 0 (.event 0) := by
  obtain ⟨m₁, -, h₁⟩ := initView_holds.call (a := .insertLast (S := Unit) (.event 0) 1) (by decide)
  obtain ⟨m₂, -, h₂⟩ := h₁.call (a := .insertLast (S := Unit) (.event 0) 2) (by decide)
  let v := (initView.exec (.insertLast (S := Unit) (.event 0) 1)).exec
    (.insertLast (S := Unit) (.event 0) 2)
  refine ⟨{ queues := v.queues }, v, m₂, by decide, ?_⟩
  apply kernel_loops_on_lists h₂ ⟨rfl, fun _ => rfl⟩ rfl
  intro k t _
  show 0 < 32
  decide

end NerdRtos
