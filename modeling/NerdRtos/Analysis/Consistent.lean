import NerdRtos.Analysis.Primitives

/-!
# The kernel invariant

`Consistent s` ties together the structures that describe a thread: its control block, the
list its `qnode` is on, its wait timer and its `tlist` node. It is a condition on each thread
(`ThreadOk`) and a few on the shared structures (`Books`): the bitmap agrees with the ready
lists, and only the current thread has its slice timer armed.

Every kernel function that moves a thread takes it out of where it is, edits its control
block and puts it somewhere else. In between the thread is on no list and its timer is not
armed, while everything else is in order: `Loose t s`. So the proofs are chains of three
kinds of lemmas: taking out (`ConsistentBut.pull`), editing (`Loose.updThread`) and putting back
(`Loose.settle`, `Loose.addReady`, `Loose.waitOn`).

The set `d` of `ConsistentBut d s` holds the threads whose joiners may not have been woken yet;
it is empty except inside `nd_thread_halt`.
-/

set_option autoImplicit false

namespace NerdRtos

/-- The thread has been created and has not ended. -/
def Stat.live (st : Stat) : Prop := st ≠ .init ∧ st ≠ .dead

/-- Where a thread is, by its state: a ready thread is on the ready list of its priority, a
blocked thread is on a wait list, or on none with its delay timer armed, and every other
thread is on no list. Only a blocked thread has its wait timer armed. -/
def Placed (s : State) (t : Tid) : Prop :=
  match (s.threads t).stat with
  | .ready => s.queues.home t = some (.ready (s.threads t).priority) ∧ s.tree.home (.wait t) = none
  | .block =>
    (∃ h, s.queues.home t = some h ∧ h.isWait = true ∧
      (s.isArmed (.wait t) = true → (s.timers (.wait t)).callback = .pendTimeout)) ∨
      (s.queues.home t = none ∧ s.isArmed (.wait t) = true ∧
        (s.timers (.wait t)).callback = .threadTimer)
  | _ => s.queues.home t = none ∧ s.tree.home (.wait t) = none

/-- The invariant of one thread. -/
structure ThreadOk (d : Set Tid) (s : State) (t : Tid) : Prop where
  prio : (s.threads t).priority < 32
  initPrio : (s.threads t).initPriority < 32
  oneShot : (s.timers (.wait t)).periodic = false
  listed : (s.threadList.home t).isSome = true ↔ (s.threads t).stat.live
  placed : Placed s t
  running : (s.threads t).stat = .running → s.current = some t ∧ s.pendsv = false
  joining : ∀ u, s.queues.home t = some (.join u) → u ∈ d ∨ (s.threads u).stat.live
  next : s.next = some t →
    (s.threads t).stat = .ready ∨ (s.threads t).stat = .suspend ∨ (s.threads t).stat = .dead
  idle : t = idleTid →
    ((s.threads t).stat = .ready ∨ (s.threads t).stat = .running) ∧
      ndIsThreadEssential (s.threads t) = true

/-- The invariant of the shared structures. -/
structure Books (s : State) : Prop where
  bits : BitsAgree s.readyBit s.queues.lists
  slices : ∀ t, s.isArmed (.slice t) = true → s.current = some t ∧ (s.threads t).timeSlice ≠ 0
  sliceOneShot : ∀ t, (s.timers (.slice t)).periodic = false
  pending : s.pendsv = true → s.next ≠ none
  picks : ∀ k ∈ s.picks, k.stat ≠ .running → k.next ≠ none
  noFault : s.fault = false

/-- The invariant of the kernel, but for the joiners of the threads in `d`. -/
structure ConsistentBut (d : Set Tid) (s : State) : Prop where
  ok : ∀ t, ThreadOk d s t
  books : Books s

/-- The invariant of the kernel. -/
abbrev Consistent (s : State) : Prop := ConsistentBut ∅ s

/-- The invariant of the kernel, but for thread `t`, which is on no list. -/
structure Loose (d : Set Tid) (t : Tid) (s : State) : Prop where
  others : ∀ u, u ≠ t → ThreadOk (insert t d) s u
  prio : (s.threads t).priority < 32
  initPrio : (s.threads t).initPriority < 32
  oneShot : (s.timers (.wait t)).periodic = false
  free : s.queues.home t = none
  unarmed : s.tree.home (.wait t) = none
  books : Books s

/-! ## Reading the invariant -/

section Reading

variable {d : Set Tid} {s : State} {t : Tid}

/-- A ready thread is on the ready list of its priority. -/
theorem ConsistentBut.home_ready (hJ : ConsistentBut d s) (h : (s.threads t).stat = .ready) :
    s.queues.home t = some (.ready (s.threads t).priority) := by
  have hp := (hJ.ok t).placed
  simp only [Placed, h] at hp
  exact hp.1

/-- The wait timer of a thread that is not blocked is not armed. -/
theorem ConsistentBut.unarmed (hJ : ConsistentBut d s) (h : (s.threads t).stat ≠ .block) :
    s.tree.home (.wait t) = none := by
  have hp := (hJ.ok t).placed
  unfold Placed at hp
  split at hp
  · exact hp.2
  · exact absurd ‹_› h
  · exact hp.2

/-- A thread that is neither ready nor blocked is on no list. -/
theorem ConsistentBut.home_none (hJ : ConsistentBut d s) (hr : (s.threads t).stat ≠ .ready)
    (hb : (s.threads t).stat ≠ .block) : s.queues.home t = none := by
  have hp := (hJ.ok t).placed
  unfold Placed at hp
  split at hp
  · exact absurd ‹_› hr
  · exact absurd ‹_› hb
  · exact hp.1

/-- Where a blocked thread is. -/
theorem ConsistentBut.blocked (hJ : ConsistentBut d s) (h : (s.threads t).stat = .block) :
    (∃ k, s.queues.home t = some k ∧ k.isWait = true ∧
      (s.isArmed (.wait t) = true → (s.timers (.wait t)).callback = .pendTimeout)) ∨
      (s.queues.home t = none ∧ s.isArmed (.wait t) = true ∧
        (s.timers (.wait t)).callback = .threadTimer) := by
  have hp := (hJ.ok t).placed
  simpa only [Placed, h] using hp

/-- A thread on a ready list is ready, and the list is that of its priority. -/
theorem ConsistentBut.ready_of_home (hJ : ConsistentBut d s) {p : ℕ}
    (h : s.queues.home t = some (.ready p)) :
    (s.threads t).stat = .ready ∧ (s.threads t).priority = p := by
  by_cases hr : (s.threads t).stat = .ready
  · have hh := (hJ.home_ready hr).symm.trans h
    simp only [Option.some.injEq, QHead.ready.injEq] at hh
    exact ⟨hr, hh⟩
  by_cases hb : (s.threads t).stat = .block
  · rcases hJ.blocked hb with ⟨k, hk, hw, -⟩ | ⟨hk, -⟩
    · have hh := hk.symm.trans h
      simp only [Option.some.injEq] at hh
      subst hh
      simp [QHead.isWait] at hw
    · cases hk.symm.trans h
  · cases (hJ.home_none hr hb).symm.trans h

/-- A thread on a wait list is blocked. -/
theorem ConsistentBut.block_of_home (hJ : ConsistentBut d s) {h : QHead} (hw : h.isWait = true)
    (hh : s.queues.home t = some h) : (s.threads t).stat = .block := by
  by_contra hb
  by_cases hr : (s.threads t).stat = .ready
  · have hk := (hJ.home_ready hr).symm.trans hh
    simp only [Option.some.injEq] at hk
    subst hk
    simp [QHead.isWait] at hw
  · cases (hJ.home_none hr hb).symm.trans hh

/-- The first thread of a wait list is blocked and on that list. -/
theorem ConsistentBut.block_of_head (hJ : ConsistentBut d s) {h : QHead} (hw : h.isWait = true)
    (hh : (s.queues.lists h).head? = some t) :
    s.queues.home t = some h ∧ (s.threads t).stat = .block :=
  ⟨s.queues.home_of_head hh, hJ.block_of_home hw (s.queues.home_of_head hh)⟩

/-- Only a blocked thread has its wait timer armed. -/
theorem ConsistentBut.block_of_armed (hJ : ConsistentBut d s) (h : s.isArmed (.wait t) = true) :
    (s.threads t).stat = .block := by
  by_contra hb
  simp [State.isArmed, hJ.unarmed hb] at h

/-- The idle thread is ready when another thread is running or none is. -/
theorem ConsistentBut.idle_ready (hJ : ConsistentBut d s)
    (h : (s.threads idleTid).stat ≠ .running) : (s.threads idleTid).stat = .ready :=
  ((hJ.ok idleTid).idle rfl).1.resolve_right h

/-- A blocked or suspended thread is not the idle thread. -/
theorem ConsistentBut.ne_idle (hJ : ConsistentBut d s) (hr : (s.threads t).stat ≠ .ready)
    (hn : (s.threads t).stat ≠ .running) : t ≠ idleTid := by
  intro ht
  rcases ((hJ.ok t).idle ht).1 with h | h
  · exact hr h
  · exact hn h

end Reading

/-! ## Steps beside a thread -/

section Congr

variable {d : Set Tid} {s s' : State} {t : Tid}

/-- A thread stays in order through a step that leaves what describes it alone. -/
theorem ThreadOk.congr (h : ThreadOk d s t) (hth : s'.threads t = s.threads t)
    (hq : s'.queues.home t = s.queues.home t)
    (hw : s'.tree.home (.wait t) = s.tree.home (.wait t))
    (htm : s'.timers (.wait t) = s.timers (.wait t))
    (hl : s'.threadList.home t = s.threadList.home t)
    (hrun : (s.threads t).stat = .running → s'.current = some t ∧ s'.pendsv = false)
    (hnext : s'.next = some t → (s.threads t).stat = .ready ∨ (s.threads t).stat = .suspend ∨
      (s.threads t).stat = .dead)
    (hjoin : ∀ u, u ∉ d → (s.threads u).stat.live → (s'.threads u).stat.live) :
    ThreadOk d s' t where
  prio := by rw [hth]; exact h.prio
  initPrio := by rw [hth]; exact h.initPrio
  oneShot := by rw [htm]; exact h.oneShot
  listed := by rw [hth, hl]; exact h.listed
  placed := by
    have hp := h.placed
    unfold Placed State.isArmed at hp ⊢
    rw [hth, hq, hw, htm]
    exact hp
  running := by rw [hth]; exact hrun
  joining u hu := by
    rw [hq] at hu
    by_cases hd : u ∈ d
    · exact .inl hd
    · exact .inr (hjoin u hd ((h.joining u hu).resolve_left hd))
  next := by rw [hth]; exact hnext
  idle := by rw [hth]; exact h.idle

/-- More threads may have joiners that have not been woken. -/
theorem ThreadOk.mono {e : Set Tid} (h : ThreadOk d s t) (hde : d ⊆ e) : ThreadOk e s t :=
  { h with joining := fun u hu => (h.joining u hu).imp_left fun hd => hde hd }

/-- The invariant with more threads excepted. -/
theorem ConsistentBut.mono {e : Set Tid} (h : ConsistentBut d s) (hde : d ⊆ e) :
    ConsistentBut e s :=
  ⟨fun t => (h.ok t).mono hde, h.books⟩

/-- The part of the state that the invariant speaks about. -/
def State.core (s : State) : State :=
  { s with
    taken := Intrusive.Queues.empty
    nest := 0
    trySwitch := false
    clock := 0
    sems := fun _ => {}
    mutexes := fun _ => {}
    msgQueues := fun _ => {}
    events := fun _ => {}
    pools := fun _ => {}
    calls := fun _ => none
    log := [] }

/-- The invariant does not depend on the interrupt nesting, the clock, the history and the
objects that the threads wait for. -/
theorem ConsistentBut.of_core (h : ConsistentBut d s) (he : s'.core = s.core) :
    ConsistentBut d s' := by
  have hc : ConsistentBut d s'.core := by
    rw [he]
    exact ⟨fun t => { h.ok t with }, { h.books with }⟩
  exact ⟨fun t => { hc.ok t with }, { hc.books with }⟩

/-- An edit of a control block that keeps what the invariant reads. -/
structure Inert (f : Thread → Thread) (th : Thread) : Prop where
  priority : (f th).priority = th.priority := by rfl
  initPriority : (f th).initPriority = th.initPriority := by rfl
  stat : (f th).stat = th.stat := by rfl
  options : (f th).options = th.options := by rfl
  timeSlice : (f th).timeSlice = th.timeSlice := by rfl

/-- An inert edit changes no thread's state. -/
theorem Inert.stat_updThread {f : Thread → Thread} (hf : Inert f (s.threads t)) (u : Tid) :
    ((s.updThread t f).threads u).stat = (s.threads u).stat := by
  by_cases hu : u = t
  · subst hu; simp [hf.stat]
  · simp [hu]

/-- An inert edit of some thread keeps every thread in order. -/
theorem ThreadOk.inert {u : Tid} (h : ThreadOk d s u) {f : Thread → Thread}
    (hf : Inert f (s.threads t)) : ThreadOk d (s.updThread t f) u := by
  have hstat := hf.stat_updThread
  by_cases hu : u = t
  · subst hu
    refine
      { prio := by simpa [hf.priority] using h.prio
        initPrio := by simpa [hf.initPriority] using h.initPrio
        oneShot := h.oneShot
        listed := by rw [hstat]; exact h.listed
        placed := ?_
        running := by rw [hstat]; exact h.running
        joining := fun v hv => by rw [hstat]; exact h.joining v hv
        next := by rw [hstat]; exact h.next
        idle := ?_ }
    · have hp := h.placed
      unfold Placed at hp ⊢
      simpa [hf.stat, hf.priority, State.isArmed] using hp
    · intro hu
      rw [hstat]
      refine ⟨(h.idle hu).1, ?_⟩
      have he := (h.idle hu).2
      unfold ndIsThreadEssential at he ⊢
      simpa [hf.options] using he
  · exact h.congr (by simp [hu]) rfl rfl rfl rfl h.running h.next
      fun v _ hv => by rw [hstat]; exact hv

/-- An edit that keeps the slice of the thread keeps the shared structures in order. -/
theorem Books.updThread (h : Books s) {f : Thread → Thread}
    (hts : (f (s.threads t)).timeSlice = (s.threads t).timeSlice) : Books (s.updThread t f) :=
  { h with
    slices := fun u hu => by
      refine ⟨(h.slices u hu).1, ?_⟩
      by_cases hut : u = t
      · subst hut
        simpa [hts] using (h.slices u hu).2
      · simpa [hut] using (h.slices u hu).2 }

/-- An inert edit keeps the invariant. -/
theorem ConsistentBut.inert (h : ConsistentBut d s) {f : Thread → Thread}
    (hf : Inert f (s.threads t)) : ConsistentBut d (s.updThread t f) :=
  ⟨fun u => (h.ok u).inert hf, h.books.updThread hf.timeSlice⟩

end Congr

/-! ## Taking a thread out -/

/-- The bitmap once thread `t` has left its list. -/
def bitWithout (s : State) (t : Tid) : BitVec 32 :=
  if (s.threads t).stat = .ready then bitAfterRemove s t else s.readyBit

/-- Thread `t` taken off its list, if any, with its wait timer stopped. -/
@[simps] def State.pulled (s : State) (t : Tid) : State :=
  { s with
    queues := s.queues.unlink t
    tree := s.tree.unlink (.wait t)
    readyBit := bitWithout s t }

section Pull

variable {d : Set Tid} {s : State} {t : Tid}

/-- Taking a thread out leaves the others in order. -/
theorem ConsistentBut.pull (hJ : ConsistentBut d s) (t : Tid) : Loose d t (s.pulled t) where
  others u hu :=
    ((hJ.ok u).mono (Set.subset_insert t d)).congr rfl (by simp [hu]) (by simp [hu]) rfl rfl
      (hJ.ok u).running (hJ.ok u).next fun _ _ h => h
  prio := (hJ.ok t).prio
  initPrio := (hJ.ok t).initPrio
  oneShot := (hJ.ok t).oneShot
  free := by simp
  unarmed := by simp
  books :=
    { hJ.books with
      bits := by
        simp only [State.pulled_readyBit, State.pulled_queues, bitWithout]
        split
        · rename_i hr
          exact hJ.books.bits.bitAfterRemove (hJ.home_ready hr)
        · rename_i hr
          exact hJ.books.bits.unlink fun p hp => hr (hJ.ready_of_home hp).1
      slices := fun u hu => hJ.books.slices u (by simpa [State.isArmed] using hu) }

/-- A thread that is neither ready nor blocked is already out. -/
theorem ConsistentBut.pulled_eq (hJ : ConsistentBut d s) (hr : (s.threads t).stat ≠ .ready)
    (hb : (s.threads t).stat ≠ .block) : s.pulled t = s := by
  unfold State.pulled bitWithout
  rw [s.queues.unlink_of_free (hJ.home_none hr hb), s.tree.unlink_of_free (hJ.unarmed hb),
    if_neg hr]

/-- `nd_thread_ready_remove` takes a ready thread out. -/
theorem ConsistentBut.readyRemove_eq (hJ : ConsistentBut d s) (hr : (s.threads t).stat = .ready) :
    ndThreadReadyRemove t s = s.pulled t := by
  have hf := hJ.books.noFault
  rw [NerdRtos.readyRemove_eq (hJ.ok t).prio]
  unfold State.pulled bitWithout State.withReadyBit State.listRemove
  rw [if_pos hr, s.tree.unlink_of_free (hJ.unarmed (by rw [hr]; decide)), hJ.home_ready hr, hf]
  rfl

/-- A running thread can be taken as loose. -/
theorem ConsistentBut.loose (hJ : ConsistentBut d s) (hr : (s.threads t).stat ≠ .ready)
    (hb : (s.threads t).stat ≠ .block) : Loose d t s := by
  have h := hJ.pull t
  rwa [hJ.pulled_eq hr hb] at h

end Pull

/-! ## Editing a thread that is out -/

section Edit

variable {d : Set Tid} {s : State} {t : Tid}

/-- The control block of a thread that is out can change freely, but for the priorities and, while
its slice timer is armed, the slice. -/
theorem Loose.edit (h : Loose d t s) {f : Thread → Thread}
    (hp : (f (s.threads t)).priority < 32) (hi : (f (s.threads t)).initPriority < 32)
    (hts : s.isArmed (.slice t) = true → (f (s.threads t)).timeSlice ≠ 0) :
    Loose d t (s.updThread t f) where
  others u hu :=
    (h.others u hu).congr (by simp [hu]) rfl rfl rfl rfl (h.others u hu).running
      (h.others u hu).next fun v hv hl => by
        have hvt : v ≠ t := fun e => hv (e ▸ Set.mem_insert t d)
        simpa [hvt] using hl
  prio := by simpa using hp
  initPrio := by simpa using hi
  oneShot := h.oneShot
  free := h.free
  unarmed := h.unarmed
  books :=
    { h.books with
      slices := fun u hu => by
        refine ⟨(h.books.slices u hu).1, ?_⟩
        by_cases hut : u = t
        · subst hut
          simpa using hts hu
        · simpa [hut] using (h.books.slices u hu).2 }

/-- The control block of a thread that is out can change freely, but for its slice. -/
theorem Loose.updThread (h : Loose d t s) {f : Thread → Thread}
    (hp : (f (s.threads t)).priority < 32) (hi : (f (s.threads t)).initPriority < 32)
    (hts : (f (s.threads t)).timeSlice = (s.threads t).timeSlice) :
    Loose d t (s.updThread t f) :=
  h.edit hp hi fun ha => hts ▸ (h.books.slices t ha).2

/-- An inert edit of another thread. -/
theorem Loose.inert (h : Loose d t s) {u : Tid} {f : Thread → Thread}
    (hf : Inert f (s.threads u)) : Loose d t (s.updThread u f) where
  others v hv := (h.others v hv).inert hf
  prio := by
    by_cases hu : t = u
    · subst hu; simpa [hf.priority] using h.prio
    · simpa [hu] using h.prio
  initPrio := by
    by_cases hu : t = u
    · subst hu; simpa [hf.initPriority] using h.initPrio
    · simpa [hu] using h.initPrio
  oneShot := h.oneShot
  free := h.free
  unarmed := h.unarmed
  books := h.books.updThread hf.timeSlice

/-- Changing the wait timer of a thread that is out. -/
theorem Loose.updTimer (h : Loose d t s) {f : Timer → Timer}
    (hp : (f (s.timers (.wait t))).periodic = false) : Loose d t (s.updTimer (.wait t) f) where
  others u hu :=
    (h.others u hu).congr rfl rfl rfl (by simp [hu]) rfl (h.others u hu).running
      (h.others u hu).next fun _ _ hl => hl
  prio := h.prio
  initPrio := h.initPrio
  oneShot := by simpa using hp
  free := h.free
  unarmed := h.unarmed
  books := { h.books with sliceOneShot := fun u => by simpa using h.books.sliceOneShot u }

/-- Changing the slice timer of some thread. -/
theorem Loose.updTimer_slice (h : Loose d t s) (u : Tid) {f : Timer → Timer}
    (hp : (f (s.timers (.slice u))).periodic = false) :
    Loose d t (s.updTimer (.slice u) f) where
  others v hv :=
    (h.others v hv).congr rfl rfl rfl (by simp) rfl (h.others v hv).running
      (h.others v hv).next fun _ _ hl => hl
  prio := h.prio
  initPrio := h.initPrio
  oneShot := by simpa using h.oneShot
  free := h.free
  unarmed := h.unarmed
  books :=
    { h.books with
      sliceOneShot := fun v => by
        by_cases hv : v = u
        · subst hv; simpa using hp
        · simpa [hv] using h.books.sliceOneShot v }

/-- Putting a thread that is out on the thread list, or taking it off. -/
theorem Loose.setList (h : Loose d t s) {l : Intrusive.Queues Unit Tid}
    (hl : ∀ u, u ≠ t → l.home u = s.threadList.home u) : Loose d t { s with threadList := l } where
  others u hu :=
    (h.others u hu).congr rfl rfl rfl rfl (hl u hu) (h.others u hu).running (h.others u hu).next
      fun _ _ hl => hl
  prio := h.prio
  initPrio := h.initPrio
  oneShot := h.oneShot
  free := h.free
  unarmed := h.unarmed
  books := { h.books with }

/-- A step that the invariant does not see. -/
theorem Loose.of_core {y : State} (h : Loose d t s) (he : y.core = s.core) : Loose d t y := by
  have hc : Loose d t y.core := by
    rw [he]
    exact { others := fun u hu => { h.others u hu with }, prio := h.prio, initPrio := h.initPrio
            oneShot := h.oneShot, free := h.free, unarmed := h.unarmed, books := { h.books with } }
  exact { others := fun u hu => { hc.others u hu with }, prio := hc.prio, initPrio := hc.initPrio
          oneShot := hc.oneShot, free := hc.free, unarmed := hc.unarmed,
            books := { hc.books with } }

/-- Stopping the slice timer of any thread. -/
theorem Loose.stopSlice (h : Loose d t s) (u : Tid) : Loose d t (ndTimerStop (.slice u) s) where
  others v hv :=
    (h.others v hv).congr rfl rfl (by simp [ndTimerStop]) rfl rfl (h.others v hv).running
      (h.others v hv).next fun _ _ hl => hl
  prio := h.prio
  initPrio := h.initPrio
  oneShot := h.oneShot
  free := h.free
  unarmed := by simpa [ndTimerStop] using h.unarmed
  books :=
    { h.books with
      slices := fun v hv => by
        have hv' : v ≠ u ∧ s.isArmed (.slice v) = true := by
          by_cases he : v = u
          · simp [ndTimerStop, State.isArmed, he] at hv
          · exact ⟨he, by simpa [ndTimerStop, State.isArmed, he] using hv⟩
        exact h.books.slices v hv'.2 }

end Edit

/-! ## Putting a thread back -/

section Put

variable {d : Set Tid} {s : State} {t : Tid}

/-- The kernel is consistent once the one thread that was left out is in order. -/
theorem ConsistentBut.of_others (hothers : ∀ u, u ≠ t → ThreadOk (insert t d) s u)
    (hbooks : Books s) (ht : ThreadOk d s t) (hlive : t ∈ d ∨ (s.threads t).stat.live) :
    ConsistentBut d s where
  ok u := by
    by_cases hu : u = t
    · rw [hu]; exact ht
    · refine { hothers u hu with joining := fun v hv => ?_ }
      rcases (hothers u hu).joining v hv with hd | hl
      · rcases Set.mem_insert_iff.mp hd with rfl | hd
        · exact hlive
        · exact .inl hd
      · exact .inr hl
  books := hbooks

/-- A thread that is neither ready nor blocked needs no list. -/
theorem Loose.park (h : Loose d t s) (hr : (s.threads t).stat ≠ .ready)
    (hb : (s.threads t).stat ≠ .block) (hlive : t ∈ d ∨ (s.threads t).stat.live)
    (hlisted : (s.threadList.home t).isSome = true ↔ (s.threads t).stat.live)
    (hrun : (s.threads t).stat = .running → s.current = some t ∧ s.pendsv = false)
    (hnext : s.next = some t → (s.threads t).stat = .suspend ∨ (s.threads t).stat = .dead)
    (hidle : t = idleTid → (s.threads t).stat = .running ∧
      ndIsThreadEssential (s.threads t) = true) : ConsistentBut d s := by
  refine .of_others h.others h.books
    { prio := h.prio, initPrio := h.initPrio, oneShot := h.oneShot, listed := hlisted
      placed := ?_, running := hrun
      joining := fun u hu => by rw [h.free] at hu; cases hu
      next := fun hn => .inr (hnext hn)
      idle := fun ht => ⟨.inr (hidle ht).1, (hidle ht).2⟩ } hlive
  unfold Placed
  split
  · exact absurd ‹_› hr
  · exact absurd ‹_› hb
  · exact ⟨h.free, h.unarmed⟩

/-- The other threads do not notice that a loose thread is put on a list. -/
theorem Loose.others_listInsert (h : Loose d t s) (pos : Tid → Bool) (k : QHead) {u : Tid}
    (hu : u ≠ t) : ThreadOk (insert t d) (s.listInsert pos k t) u :=
  (h.others u hu).congr rfl (s.queues.home_link_of_ne pos k hu) rfl rfl rfl
    (h.others u hu).running (h.others u hu).next fun _ _ hl => hl

/-- A ready thread goes to the ready list of its priority, at either end. -/
theorem Loose.addReady (h : Loose d t s) (pos : Tid → Bool) (hr : (s.threads t).stat = .ready)
    (hlisted : (s.threadList.home t).isSome = true)
    (hidle : t = idleTid → ndIsThreadEssential (s.threads t) = true) :
    ConsistentBut d (setReadyBit (s.threads t).priority
      (s.listInsert pos (.ready (s.threads t).priority) t)) := by
  have hlive : (s.threads t).stat.live := by rw [hr]; exact ⟨by decide, by decide⟩
  have hhome : (s.queues.link pos (.ready (s.threads t).priority) t).home t =
      some (.ready (s.threads t).priority) := by
    rw [s.queues.home_link pos _ h.free, if_pos rfl]
  refine .of_others (t := t) (fun u hu => { h.others_listInsert pos _ hu with })
    { h.books with
      bits := h.books.bits.link pos _ h.free
      noFault := by simp [h.books.noFault, h.free] } ?_ (.inr hlive)
  refine
    { prio := h.prio, initPrio := h.initPrio, oneShot := h.oneShot
      listed := ⟨fun _ => hlive, fun _ => hlisted⟩
      placed := ?_
      running := fun hn => ?_
      joining := fun u hu => ?_
      next := fun _ => .inl hr
      idle := fun ht => ⟨.inl hr, hidle ht⟩ }
  · simp only [Placed, setReadyBit_threads, State.listInsert_threads, hr]
    exact ⟨hhome, h.unarmed⟩
  · have hn' : (s.threads t).stat = .running := hn
    rw [hr] at hn'
    cases hn'
  · have hu' := hhome.symm.trans hu
    cases hu'

/-- Thread `t` taken out of where it is, edited by `f` and put on the ready list of its priority, in
front of the first thread that satisfies `pos`. -/
@[simps! threads taken threadList current next nest trySwitch timers clock sems mutexes
  msgQueues events pools pendsv calls log picks]
def State.readied (s : State) (t : Tid) (pos : Tid → Bool) (f : Thread → Thread) : State :=
  setReadyBit (f (s.threads t)).priority
    (((s.pulled t).updThread t f).listInsert pos (.ready (f (s.threads t)).priority) t)

/-- A thread becomes ready.
kernel/nd_scheduler.c:43-67 -/
theorem ConsistentBut.readied (hJ : ConsistentBut d s) (hlive : (s.threads t).stat.live)
    (pos : Tid → Bool) {f : Thread → Thread} (hr : (f (s.threads t)).stat = .ready)
    (hp : (f (s.threads t)).priority < 32)
    (hi : (f (s.threads t)).initPriority = (s.threads t).initPriority)
    (ho : (f (s.threads t)).options = (s.threads t).options)
    (hts : (f (s.threads t)).timeSlice = (s.threads t).timeSlice) :
    ConsistentBut d (s.readied t pos f) := by
  have hl : Loose d t ((s.pulled t).updThread t f) :=
    (hJ.pull t).updThread hp (by simpa [hi] using (hJ.ok t).initPrio) hts
  have hadd := hl.addReady pos (by simpa using hr) ((hJ.ok t).listed.mpr hlive) fun ht => by
    have he := ((hJ.ok t).idle ht).2
    unfold ndIsThreadEssential at he ⊢
    simpa [ho] using he
  simpa [State.readied] using hadd

/-- A blocked thread goes to a wait list. -/
theorem Loose.waitOn (h : Loose d t s) (pos : Tid → Bool) {k : QHead} (hk : k.isWait = true)
    (hb : (s.threads t).stat = .block) (hlisted : (s.threadList.home t).isSome = true)
    (hjoin : ∀ u, k = .join u → u ∈ d ∨ (s.threads u).stat.live)
    (hnext : s.next ≠ some t) (hidle : t ≠ idleTid) :
    ConsistentBut d (s.listInsert pos k t) := by
  have hlive : (s.threads t).stat.live := by rw [hb]; exact ⟨by decide, by decide⟩
  have hhome : (s.queues.link pos k t).home t = some k := by
    rw [s.queues.home_link pos _ h.free, if_pos rfl]
  refine .of_others (t := t) (fun u hu => h.others_listInsert pos k hu)
    { h.books with
      bits := ?_
      noFault := by simp [h.books.noFault, h.free] } ?_ (.inr hlive)
  · intro p hp
    have hne : QHead.ready p ≠ k := by rintro rfl; simp [QHead.isWait] at hk
    simp only [State.listInsert_queues, s.queues.lists_link_of_ne pos t hne]
    exact h.books.bits p hp
  · refine
      { prio := h.prio, initPrio := h.initPrio, oneShot := h.oneShot
        listed := ⟨fun _ => hlive, fun _ => hlisted⟩
        placed := ?_
        running := fun hn => ?_
        joining := fun u hu => hjoin u (Option.some.inj (hhome.symm.trans hu))
        next := fun hn => absurd hn hnext
        idle := fun ht => absurd ht hidle }
    · simp only [Placed, State.listInsert_threads, hb]
      exact .inl ⟨k, hhome, hk, fun ha => by
        simp [State.isArmed, h.unarmed] at ha⟩
    · have hn' : (s.threads t).stat = .running := hn
      rw [hb] at hn'
      cases hn'

end Put

/-! ## Timers -/

section Timers

variable {d : Set Tid} {s s' : State} {t : Tid}

/-- The part of the state without the timers. -/
def State.untimed (s : State) : State :=
  { s with timers := fun _ => {}, tree := Intrusive.Queues.empty }

/-- A step that only touches timers which are not wait timers. -/
theorem ConsistentBut.of_timers (hJ : ConsistentBut d s) (he : s'.untimed = s.untimed)
    (hw : ∀ t, s'.tree.home (.wait t) = s.tree.home (.wait t))
    (htm : ∀ t, s'.timers (.wait t) = s.timers (.wait t))
    (hsl : ∀ t, s'.isArmed (.slice t) = true → s'.current = some t ∧
      (s'.threads t).timeSlice ≠ 0)
    (hone : ∀ t, (s'.timers (.slice t)).periodic = false) : ConsistentBut d s' := by
  have hth : s'.threads = s.threads := (congrArg State.threads he :)
  have hq : s'.queues = s.queues := (congrArg State.queues he :)
  have hl : s'.threadList = s.threadList := (congrArg State.threadList he :)
  have hc : s'.current = s.current := (congrArg State.current he :)
  have hn : s'.next = s.next := (congrArg State.next he :)
  have hp : s'.pendsv = s.pendsv := (congrArg State.pendsv he :)
  have hb : s'.readyBit = s.readyBit := (congrArg State.readyBit he :)
  have hpk : s'.picks = s.picks := (congrArg State.picks he :)
  refine ⟨fun t => (hJ.ok t).congr (by rw [hth]) (by rw [hq]) (hw t) (htm t) (by rw [hl])
    (by rw [hc, hp]; exact (hJ.ok t).running) (by rw [hn]; exact (hJ.ok t).next)
    (by rw [hth]; exact fun _ _ h => h), ?_⟩
  refine
    { bits := ?_, slices := hsl, sliceOneShot := hone, pending := ?_, picks := ?_
      noFault := (congrArg State.fault he :).trans hJ.books.noFault }
  · rw [hb, hq]; exact hJ.books.bits
  · rw [hp, hn]; exact hJ.books.pending
  · rw [hpk]; exact hJ.books.picks

/-- Arming the wait timer of one thread leaves the other threads in order. -/
theorem ThreadOk.rearm_wait {u : Tid} (h : ThreadOk d s u) (e : ℕ) (hu : u ≠ t) :
    ThreadOk d (s.rearm (.wait t) e) u :=
  h.congr rfl rfl (by simp [hu]) (by simp [hu]) rfl h.running h.next fun _ _ hl => hl

/-- Changing the wait timer of one thread leaves the other threads in order. -/
theorem ThreadOk.updTimer_wait {u : Tid} (h : ThreadOk d s u) (f : Timer → Timer) (hu : u ≠ t) :
    ThreadOk d (s.updTimer (.wait t) f) u :=
  h.congr rfl rfl rfl (by simp [hu]) rfl h.running h.next fun _ _ hl => hl

/-- Arming a wait timer leaves the shared structures in order. -/
theorem Books.rearm_wait (h : Books s) (t : Tid) (e : ℕ) : Books (s.rearm (.wait t) e) :=
  { h with
    slices := fun u hu => h.slices u (by simpa using hu)
    sliceOneShot := fun u => by simpa using h.sliceOneShot u }

/-- Changing a wait timer leaves the shared structures in order. -/
theorem Books.updTimer_wait (h : Books s) (t : Tid) (f : Timer → Timer) :
    Books (s.updTimer (.wait t) f) :=
  { h with sliceOneShot := fun u => by simpa using h.sliceOneShot u }

/-- Arming the timer of a thread on a wait list. -/
theorem ConsistentBut.startWait (hJ : ConsistentBut d s) (cfg : Config) {k : QHead}
    (hk : s.queues.home t = some k) (hw : k.isWait = true) {f : Timer → Timer}
    (hcb : (f (s.timers (.wait t))).callback = .pendTimeout)
    (hone : (f (s.timers (.wait t))).periodic = false) :
    ConsistentBut d (ndTimerStart cfg (.wait t) (s.updTimer (.wait t) f)).1 := by
  have hst := hJ.block_of_home hw hk
  have ht := hJ.ok t
  rw [timerStart_eq cfg (by simp [hcb])]
  generalize expireAt _ _ _ = e
  refine ConsistentBut.of_others (t := t)
    (fun u hu => ThreadOk.rearm_wait
      (((hJ.ok u).mono (Set.subset_insert t d)).updTimer_wait f hu) e hu)
    ((hJ.books.updTimer_wait t f).rearm_wait t e) ?_ (.inr ⟨?_, ?_⟩)
  · refine { ht with oneShot := by simpa using hone, placed := ?_ }
    simp only [Placed, State.rearm_threads, State.updTimer_threads, hst]
    exact .inl ⟨k, hk, hw, fun _ => by simpa using hcb⟩
  · simp [hst]
  · simp [hst]

/-- A blocked thread that is on no list waits for its delay timer. -/
theorem Loose.startDelay (h : Loose d t s) (cfg : Config) (hb : (s.threads t).stat = .block)
    (hlisted : (s.threadList.home t).isSome = true) (hnext : s.next ≠ some t)
    (hidle : t ≠ idleTid) {f : Timer → Timer}
    (hcb : (f (s.timers (.wait t))).callback = .threadTimer)
    (hone : (f (s.timers (.wait t))).periodic = false) :
    ConsistentBut d (ndTimerStart cfg (.wait t) (s.updTimer (.wait t) f)).1 := by
  have hlive : (s.threads t).stat.live := by rw [hb]; exact ⟨by decide, by decide⟩
  rw [timerStart_eq cfg (by simp [hcb])]
  generalize expireAt _ _ _ = e
  refine ConsistentBut.of_others (t := t)
    (fun u hu => ThreadOk.rearm_wait ((h.updTimer hone).others u hu) e hu)
    ((h.books.updTimer_wait t f).rearm_wait t e)
    { prio := h.prio, initPrio := h.initPrio, oneShot := by simpa using hone
      listed := ⟨fun _ => hlive, fun _ => hlisted⟩
      placed := ?_
      running := fun hn => ?_
      joining := fun u hu => ?_
      next := fun hn => absurd hn hnext
      idle := fun ht => absurd ht hidle } (.inr hlive)
  · simp only [Placed, State.rearm_threads, State.updTimer_threads, hb]
    exact .inr ⟨h.free, by simp, by simpa using hcb⟩
  · have hn' : (s.threads t).stat = .running := hn
    rw [hb] at hn'
    cases hn'
  · have hu' := h.free.symm.trans hu
    cases hu'

end Timers

end NerdRtos
