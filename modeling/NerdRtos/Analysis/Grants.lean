import NerdRtos.Analysis.Waiters

/-!
# What `ND_EOK` stands for

`nd_thread_pend` writes `ND_EOK` to the control block before the thread has got anything, and the
calls that do not wait in a loop return what stands there. A thread that a release, an unlock, a
send or the end of the target takes off its list has been granted what it waits for, and one that a
timeout takes off gets another error; one that a suspension takes off is `Stranded`.
-/

set_option autoImplicit false

namespace NerdRtos

variable {cfg : Config} {s x y : State} {a : Action} {t u : Tid} {k : QHead} {c : Call}
  {who : Option Tid}

/-! ## Grants -/

/-- What happened since `who` began its last call. -/
def State.since (s : State) (who : Option Tid) : List Event :=
  s.log.takeWhile fun e => !e.begins who

/-- The event gives `who` what call `c` of it asks for: it decrements the semaphore, hands it a
token, or finds its condition met in the event and consumes its bits.
kernel/nd_sem.c:17-58, kernel/nd_event.c:17-87 -/
def Event.gives (who : Option Tid) : Call → Event → Prop
  | .semTake i _, .semTaken w j => w = who ∧ j = i
  | .semTake i _, .semHanded t j => some t = who ∧ j = i
  | .eventRecv e set opt _, .eventTaken w e' asked seen left => w = who ∧ e' = e ∧ asked = set ∧
      ndEventIsSatisfied seen set opt = true ∧ left = clearBits seen set
  | .eventRecv e set opt _, .eventHanded t e' asked seen left => some t = who ∧ e' = e ∧
      asked = set ∧ ndEventIsSatisfied seen set opt = true ∧ left = clearBits seen set
  | _, _ => False

/-- Call `c` of `who` was granted: since it began it got its token or its bits, its caller owns the
mutex, the thread that it joins is dead. -/
def Granted (s : State) (who : Option Tid) : Call → Prop
  | .semTake i n => ∃ g ∈ s.since who, g.gives who (.semTake i n)
  | .eventRecv e set opt n => ∃ g ∈ s.since who, g.gives who (.eventRecv e set opt n)
  | .mutexLock m _ => ∃ t, who = some t ∧ (s.mutexes m).owner = some t
  | .threadJoin v _ => ∃ t, v = some t ∧ (s.threads t).stat = .dead
  | .queueSend _ _ _ | .queueRecv _ _ | .mempoolAlloc _ _ => True

/-- What the call returns whose critical section action `a` is: to whom, which call, and the
value. -/
def outcome (cfg : Config) (a : Action) (s : State) : Option (Option Tid × Call × Ret) :=
  match a with
  | .call (.wait c) | .irq (.wait c) =>
    (callBody cfg c (s.emit (.call s.caller c s.clock))).2.map fun r => (s.caller, c, r)
  | .resume =>
    s.current.bind fun t => (s.calls t).bind fun c => (callRest cfg c s).2.map fun r =>
      (some t, c, r)
  | _ => none

/-- Thread `t` was suspended while it waited: it is inside of a call that returns the error of the
control block, which says `ND_EOK`, and it was not granted anything. -/
def Stranded (s : State) (t : Tid) : Prop :=
  (s.threads t).stat = .suspend ∧ (s.threads t).error = .eok ∧
    ∃ c, s.calls t = some c ∧ c.loops = false ∧ ¬ Granted s (some t) c

/-- The step resumes no stranded thread, and gives no dead thread's control block to a new one while
a thread that was woken from joining it has not returned.
kernel/nd_thread.c:34-53, 126-161, 222-315, 344-376 -/
def KeepsGrants (s : State) (a : Action) : Prop :=
  match a.op? with
  | some (.threadResume t) => ¬ Stranded s t
  | some (.threadCreate b) => ∀ v, b.thread = some v → (s.threads v).stat = .dead →
      ∀ t n, s.calls t = some (.threadJoin (some v) n) →
        (s.threads t).stat = .ready ∨ (s.threads t).stat = .running → (s.threads t).error ≠ .eok
  | _ => True

/-- From `x` to `y`, `who` begins no call, gives up no mutex, and no dead thread comes back. -/
structure Keeps (who : Option Tid) (x y : State) : Prop where
  log : ∃ es, y.log = es ++ x.log ∧ ∀ e ∈ es, e.begins who = false
  owner : ∀ m t, who = some t → (x.mutexes m).owner = some t → (y.mutexes m).owner = some t
  dead : ∀ t, (x.threads t).stat = .dead → (y.threads t).stat = .dead

/-- An edit of a control block that brings no dead thread back. -/
theorem Keeps.updThread {f : Thread → Thread}
    (hf : (x.threads t).stat = .dead → (f (x.threads t)).stat = .dead) :
    Keeps who x (x.updThread t f) := by
  refine ⟨⟨[], rfl, fun e he => by cases he⟩, fun _ _ _ hm => hm, fun v hv => ?_⟩
  by_cases hvt : v = t
  · subst hvt
    simpa using hf hv
  · simpa [hvt] using hv

/-- A grant stands as long as its call does. -/
theorem Granted.keep (h : Granted x who c) (hk : Keeps who x y) : Granted y who c := by
  obtain ⟨es, hes, hbegin⟩ := hk.log
  have hsince : ∀ g ∈ x.since who, g ∈ y.since who := by
    intro g hg
    have hpre : y.since who = es ++ x.since who := by
      unfold State.since
      rw [hes, List.takeWhile_append_of_pos]
      intro e he
      simp [hbegin e he]
    rw [hpre]
    exact List.mem_append_right es hg
  cases c with
  | semTake i n =>
    obtain ⟨g, hg, hgive⟩ := h
    exact ⟨g, hsince g hg, hgive⟩
  | eventRecv e set opt n =>
    obtain ⟨g, hg, hgive⟩ := h
    exact ⟨g, hsince g hg, hgive⟩
  | mutexLock m n =>
    obtain ⟨t, ht, hm⟩ := h
    exact ⟨t, ht, hk.owner m t ht hm⟩
  | threadJoin v n =>
    obtain ⟨t, ht, hd⟩ := h
    exact ⟨t, ht, hk.dead t hd⟩
  | _ => trivial

/-! ## The threads inside of calls -/

/-- What holds of thread `t` and the call that it is inside of: if it waits it is blocked, if it is
delayed it is in no call, if it waits for an event the control block says for what, and if it is to
return `ND_EOK` it was granted. -/
structure Pledged (s : State) (t : Tid) : Prop where
  blocked : ∀ k, s.queues.home t = some k → k.isWait = true → (s.threads t).stat = .block
  idle : (s.threads t).stat = .block → (∀ k, s.queues.home t = some k → k.isWait = false) →
    s.calls t = none
  asks : ∀ e, s.queues.home t = some (.event e) →
    ∃ n, s.calls t = some (.eventRecv e (s.threads t).eventSet (s.threads t).eventOpt n)
  granted : ∀ c, s.calls t = some c → c.loops = false →
    (s.threads t).stat = .ready ∨ (s.threads t).stat = .running → (s.threads t).error = .eok →
      Granted s (some t) c

/-- A change of other things. -/
theorem Pledged.keep (h : Pledged x u) (hk : Keeps (some u) x y)
    (hq : y.queues.home u = x.queues.home u) (hc : y.calls u = x.calls u)
    (hth : ∃ p, y.threads u = Thread.withPriority p (x.threads u)) : Pledged y u := by
  obtain ⟨p, hth⟩ := hth
  refine ⟨?_, ?_, ?_, ?_⟩
  · rw [hq, hth]
    exact h.blocked
  · rw [hq, hc, hth]
    exact h.idle
  · rw [hq, hc, hth]
    exact h.asks
  · rw [hc, hth]
    exact fun c hcall hl hst he => (h.granted c hcall hl hst he).keep hk

/-- A thread that neither waits nor is in a call. -/
theorem Pledged.outside (hq : ∀ k, y.queues.home u = some k → k.isWait = false)
    (hc : y.calls u = none) : Pledged y u := by
  refine ⟨fun k hk hw => ?_, fun _ _ => hc, fun e he => ?_, fun c hcall => ?_⟩
  · rw [hq k hk] at hw
    cases hw
  · cases hq _ he
  · rw [hc] at hcall
    cases hcall

/-- A thread that is in no call. -/
theorem Pledged.uncalled (h : Pledged x u) (hnone : x.calls u = none)
    (hq : y.queues.home u = x.queues.home u) (hc : y.calls u = x.calls u)
    (hst : (y.threads u).stat = (x.threads u).stat) : Pledged y u := by
  refine ⟨?_, fun _ _ => hc.trans hnone, fun e he => ?_, fun c hcall => ?_⟩
  · rw [hq, hst]
    exact h.blocked
  · rw [hq] at he
    obtain ⟨n, hn⟩ := h.asks e he
    rw [hnone] at hn
    cases hn
  · rw [hc, hnone] at hcall
    cases hcall

/-- A change of objects other than threads, lists and mutexes, noted by events that begin no
call. -/
theorem Pledged.note (h : Pledged x u) (hq : y.queues = x.queues) (hc : y.calls = x.calls)
    (hth : y.threads = x.threads) (es : List Event) (hlog : y.log = es ++ x.log)
    (hes : ∀ e ∈ es, e.begins (some u) = false)
    (hm : ∀ m, (x.mutexes m).owner = some u → (y.mutexes m).owner = some u) : Pledged y u := by
  refine h.keep ⟨⟨es, hlog, hes⟩, fun m t ht => ?_, fun t hd => by rw [hth]; exact hd⟩
    (by rw [hq]) (by rw [hc]) ⟨(x.threads u).priority, by rw [hth]; rfl⟩
  cases ht
  exact hm m

/-- Thread `t` leaves its list. -/
theorem Pledged.left (h : Pledged x u) {f : Thread → Thread}
    (hdead : (x.threads t).stat = .dead → (f (x.threads t)).stat = .dead)
    (hblock : (f (x.threads t)).stat ≠ .block)
    (hself : ∀ c, x.calls t = some c → c.loops = false →
      (f (x.threads t)).stat = .ready ∨ (f (x.threads t)).stat = .running →
        (f (x.threads t)).error = .eok → Granted x (some t) c) : Pledged (x.left t f) u := by
  have hkeep : Keeps (some u) x (x.left t f) := by
    have hedit : Keeps (some u) x (x.updThread t f) := .updThread hdead
    exact ⟨hedit.log, hedit.owner, hedit.dead⟩
  by_cases hu : u = t
  · subst hu
    have hhome : (x.left u f).queues.home u = none := by rw [State.home_left, if_pos rfl]
    refine ⟨fun k hk => ?_, fun hst => ?_, fun e he => ?_, fun c hc hl hst he => ?_⟩
    · rw [hhome] at hk
      cases hk
    · exact absurd (by simpa using hst) hblock
    · rw [hhome] at he
      cases he
    · exact (hself c hc hl (by simpa using hst) (by simpa using he)).keep hkeep
  · exact h.keep hkeep (by rw [State.home_left, if_neg hu]) rfl
      ⟨(x.threads u).priority, by simp [hu, Thread.withPriority]⟩

/-- A thread that waits for something takes its list with it, and is given what it asked for. -/
theorem Pledged.woken (h : Pledged x u) {f : Thread → Thread} (hT : Tracked x t)
    (hhome : x.queues.home t = some k) (hw : k.isWait = true) (ht : Pledged x t)
    (hf : (f (x.threads t)).stat = .ready)
    (hgive : ∀ c, x.calls t = some c → c.line = some k → c.loops = false →
      (f (x.threads t)).error = .eok → Granted x (some t) c) : Pledged (x.left t f) u := by
  refine h.left (fun hd => ?_) (by rw [hf]; decide) fun c hc hl _ he => hgive c hc ?_ hl he
  · rw [ht.blocked k hhome hw] at hd
    cases hd
  · have hline := hT.inside k hhome hw
    rwa [hc] at hline

/-- A call returns whose caller is on no list. -/
theorem Pledged.returned (h : Pledged x u) (hfree : ∀ t, who = some t → x.queues.home t = none)
    (c : Call) (r : Ret) : Pledged (x.returned who c r) u := by
  rw [State.returned_eq]
  by_cases hu : who = some u
  · have hhome := hfree u hu
    refine ⟨fun k hk => ?_, fun _ _ => if_pos hu, fun e he => ?_, fun c hc => ?_⟩
    · rw [hhome] at hk
      cases hk
    · rw [hhome] at he
      cases he
    · simp [hu] at hc
  · refine h.keep ⟨⟨[.ret who c r], rfl, fun e he => ?_⟩, fun _ _ _ hm => hm, fun _ hd => hd⟩ rfl
      (if_neg hu) ⟨(x.threads u).priority, rfl⟩
    cases List.mem_singleton.mp he
    rfl

/-- A free thread starts to wait inside of a call. -/
theorem Pledged.blocks (h : Pledged x u) (hfree : x.queues.home t = none)
    (hdead : (x.threads t).stat ≠ .dead) (hk : k.isWait = true)
    (hask : ∀ e, k = .event e →
      ∃ n, c = .eventRecv e (x.threads t).eventSet (x.threads t).eventOpt n) :
    Pledged (x.blocked t k c) u := by
  have hhome : ∀ v, (x.blocked t k c).queues.home v = if v = t then some k else x.queues.home v :=
    fun v => by
      show (x.joined t k).queues.home v = _
      rw [State.joined_queues, x.queues.home_link _ _ hfree]
  by_cases hu : u = t
  · subst hu
    have hst : ((x.blocked u k c).threads u).stat = .block := by
      simp [State.blocked, finishCall, pendEdit]
    refine ⟨fun _ _ _ => hst, fun _ hnot => ?_, fun e he => ?_, fun _ _ _ hr => ?_⟩
    · have := hnot k (by rw [hhome, if_pos rfl])
      rw [hk] at this
      cases this
    · rw [hhome, if_pos rfl] at he
      obtain ⟨n, hn⟩ := hask e (Option.some.inj he)
      exact ⟨n, by simp [State.blocked, finishCall, pendEdit, hn]⟩
    · rw [hst] at hr
      rcases hr with hr | hr <;> cases hr
  · refine h.keep ⟨⟨[.pend t k (x.threads t).stat (x.isLinked t)], rfl, fun e he => ?_⟩,
      fun _ _ _ hm => hm, fun v hv => ?_⟩ ?_ ?_ ⟨(x.threads u).priority, ?_⟩
    · cases List.mem_singleton.mp he
      rfl
    · have hvt : v ≠ t := by
        rintro rfl
        exact hdead hv
      simpa [State.blocked, finishCall, hvt] using hv
    · rw [hhome, if_neg hu]
    · simp [State.blocked, finishCall, hu]
    · simp [State.blocked, finishCall, hu, Thread.withPriority]

/-- An edit of the priority. -/
theorem Pledged.reprioritised (h : Pledged x u) (p : ℕ) :
    Pledged (x.updThread t (Thread.withPriority p)) u := by
  refine h.keep (.updThread fun hd => hd) rfl rfl ?_
  by_cases hut : u = t
  · subst hut
    exact ⟨p, by simp⟩
  · exact ⟨(x.threads u).priority, by simp [hut, Thread.withPriority]⟩

/-- The arguments of `nd_event_recv` are written to the control block of a thread that does not
wait. -/
theorem Pledged.scratch (h : Pledged x u) (hfree : x.queues.home t = none) {f : Thread → Thread}
    (hf : ∀ th, (f th).stat = th.stat ∧ (f th).error = th.error) : Pledged (x.updThread t f) u := by
  have hkeep : Keeps (some u) x (x.updThread t f) := .updThread fun hd => (hf _).1.trans hd
  by_cases hut : u = t
  · subst hut
    refine ⟨fun k hk => ?_, ?_, fun e he => ?_, fun c hc hl hr he => ?_⟩
    · rw [State.updThread_queues, hfree] at hk
      cases hk
    · simpa [(hf _).1] using h.idle
    · rw [State.updThread_queues, hfree] at he
      cases he
    · exact (h.granted c hc hl (by simpa [(hf _).1] using hr)
        (by simpa [(hf _).2] using he)).keep hkeep
  · exact h.keep hkeep rfl rfl ⟨(x.threads u).priority, by simp [hut, Thread.withPriority]⟩

/-- A boost changes a priority and a cache. -/
theorem Pledged.raised (h : Pledged x u) (m : Mid) (o c : Tid) : Pledged (x.raised m o c) u := by
  unfold State.raised
  split
  · refine Pledged.reprioritised (x := x.updMutex _ _) (h.keep ⟨⟨[], rfl, fun e he => by cases he⟩,
      fun k v _ hv => ?_, fun _ hd => hd⟩ rfl rfl ⟨(x.threads u).priority, rfl⟩) _
    by_cases hk : k = m
    · subst hk
      simpa using hv
    · simpa [hk] using hv
  · exact h

/-- The first waiter of a queue or a pool looks again. -/
theorem Pledged.served (h : ∀ v, Pledged x v) (hT : ∀ v, Tracked x v) (hw : k.isWait = true)
    (hk : ∀ c : Call, c.line = some k → c.loops = true) : Pledged (x.served k) u := by
  unfold State.served
  cases hh : (x.queues.lists k).head? with
  | none => exact h u
  | some t =>
    have hleft : Pledged (x.left t wakeEdit) u :=
      (h u).woken (hT t) (x.queues.home_of_head hh) hw (h t) rfl fun c _ hc hl => by
        rw [hk c hc] at hl
        cases hl
    exact hleft.note rfl rfl rfl [.woken t k] rfl (by simp [Event.begins]) fun _ hm => hm

/-- A waiter of an event that is satisfied gets its bits. -/
theorem Pledged.visited {e : ℕ} (h : ∀ v, Pledged x v) (hT : ∀ v, Tracked x v)
    (hhome : x.queues.home t = some (.event e)) : Pledged (State.visited e x t) u := by
  unfold State.visited
  split
  · rename_i hsat
    have hgranted : ∀ v, Pledged (x.granted e (x.threads t).eventSet
        (.eventHanded t e (x.threads t).eventSet)) v := fun v =>
      (h v).note rfl rfl rfl [_] rfl (by simp [Event.begins]) fun _ hm => hm
    refine (hgranted u).woken ((hT t).same rfl rfl rfl rfl) hhome rfl (hgranted t) rfl
      fun c hc _ _ _ => ?_
    obtain ⟨n, hn⟩ := (h t).asks e hhome
    have hcn : c = .eventRecv e (x.threads t).eventSet (x.threads t).eventOpt n :=
      Option.some.inj (hc.symm.trans hn)
    subst hcn
    refine ⟨.eventHanded t e (x.threads t).eventSet (x.events e).set
      (clearBits (x.events e).set (x.threads t).eventSet), ?_, rfl, rfl, rfl, hsat, rfl⟩
    simp [State.since, State.granted, Event.begins]
  · exact h u

/-- Calls wait on wait lists. -/
theorem Call.isWait_of_line (h : c.line = some k) : k.isWait = true := by
  cases c with
  | threadJoin v n => cases v <;> cases h; rfl
  | _ => cases h; rfl

/-- The calls that wait on the list of a queue or a pool wait in a loop. -/
theorem Call.loops_of_line (h : c.line = some k)
    (hk : (∃ q, k = .queueRead q) ∨ (∃ q, k = .queueSend q) ∨ ∃ p, k = .pool p) :
    c.loops = true := by
  cases c with
  | queueSend | queueRecv | mempoolAlloc => rfl
  | threadJoin v n => cases v <;> rcases hk with ⟨_, rfl⟩ | ⟨_, rfl⟩ | ⟨_, rfl⟩ <;> cases h
  | _ => rcases hk with ⟨_, rfl⟩ | ⟨_, rfl⟩ | ⟨_, rfl⟩ <;> cases h

/-- The first waiter of a semaphore gets a token. -/
theorem Pledged.semHanded {i : ℕ} (h : ∀ v, Pledged x v) (hT : Tracked x t)
    (hhome : x.queues.home t = some (.sem i)) :
    Pledged (((x.emit (.semReleased i)).emit (.semHanded t i)).left t wakeEdit) u := by
  have hnoted : ∀ v, Pledged ((x.emit (.semReleased i)).emit (.semHanded t i)) v := fun v =>
    (h v).note rfl rfl rfl [.semHanded t i, .semReleased i] rfl (by simp [Event.begins])
      fun _ hm => hm
  refine (hnoted u).woken (hT.same rfl rfl rfl rfl) hhome rfl (hnoted t) rfl
    fun c hc hline _ _ => ?_
  cases c with
  | semTake j n =>
    cases hline
    exact ⟨.semHanded t i, by simp [State.since, Event.begins], rfl, rfl⟩
  | threadJoin v n => cases v <;> cases hline
  | _ => cases hline

/-- A thread that is in no call gives up a mutex, and its priority is restored. -/
theorem Pledged.givesUp {m : Mid} {w : Tid} (h : Pledged x u) (hi : x.calls w = none)
    (ho : (x.mutexes m).owner = some w) (p : ℕ) (hq : y.queues = x.queues) (hc : y.calls = x.calls)
    (hth : y.threads = (x.updThread w (Thread.withPriority p)).threads) (hlog : y.log = x.log)
    (hm : ∀ j, j ≠ m → (y.mutexes j).owner = (x.mutexes j).owner) : Pledged y u := by
  have hreleased : Pledged (x.updThread w (Thread.withPriority p)) u := h.reprioritised p
  by_cases hu : u = w
  · subst hu
    exact hreleased.uncalled hi (by rw [hq]; rfl) (by rw [hc]; rfl) (by rw [hth])
  · refine hreleased.note hq hc hth [] hlog (by simp) fun j hj => ?_
    have hjm : j ≠ m := by
      rintro rfl
      exact hu (Option.some.inj (ho.symm.trans hj)).symm
    exact (hm j hjm).trans hj

/-- The first waiter of a mutex gets it. -/
theorem Pledged.mutexHanded {m : Mid} {w : Tid} (h : ∀ v, Pledged x v) (hT : Tracked x t)
    (hi : x.calls w = none) (ho : (x.mutexes m).owner = some w)
    (hhome : x.queues.home t = some (.mutex m)) :
    Pledged (((x.released m w).handed m t).left t wakeEdit) u := by
  have hhanded : ∀ v, Pledged ((x.released m w).handed m t) v := fun v =>
    (h v).givesUp hi ho (restoredPriority x w m) rfl rfl rfl rfl fun j hj => by
      simp [State.handed, hj]
  have hT' : Tracked ((x.released m w).handed m t) t := by
    have hreleased : Tracked (x.updThread w (Thread.withPriority (restoredPriority x w m))) t :=
      hT.updThread fun _ => rfl
    exact hreleased.same rfl rfl rfl rfl
  refine (hhanded u).woken hT' hhome rfl (hhanded t) rfl fun c hc hline _ _ => ?_
  cases c with
  | mutexLock j n =>
    cases hline
    exact ⟨t, rfl, by simp [State.handed]⟩
  | threadJoin v n => cases v <;> cases hline
  | _ => cases hline

/-- A running thread finds a mutex owned: it raises the owner, and waits or returns. -/
theorem Pledged.contends {m : Mid} {o w : Tid} {n : ℕ} (h : Pledged x u)
    (hrun : (x.threads w).stat = .running) (hfree : x.queues.home w = none) :
    Pledged (if n = ndTimeoutNowait then
      (x.raised m o w).returned (some w) (.mutexLock m n) (.err .ebusy)
      else (x.raised m o w).blocked w (.mutex m) (.mutexLock m n)) u := by
  have hraised : Pledged (x.raised m o w) u := h.raised m o w
  have hhome : (x.raised m o w).queues.home w = none := by
    rw [State.raised_eq]
    exact hfree
  split
  · exact hraised.returned (fun t ht => by cases ht; exact hhome) _ _
  · refine hraised.blocks hhome ?_ rfl fun e he => by cases he
    rw [State.stat_raised]
    exact fun hd => Stat.noConfusion (hrun.symm.trans hd)

/-- A control block is set up for a new thread. A dead thread that comes back so is not one that a
joiner is about to find. -/
theorem Pledged.created {b : CreateArgs} (h : Pledged x u) (hnot : x.queues.home t = none)
    (hu : x.inUse t = false)
    (hjoin : ∀ n, (x.threads t).stat = .dead → x.calls u = some (.threadJoin (some t) n) →
      (x.threads u).stat = .ready ∨ (x.threads u).stat = .running → (x.threads u).error ≠ .eok) :
    Pledged (x.created t b) u := by
  rw [created_eq hu]
  by_cases hut : u = t
  · subst hut
    refine .outside (fun k hk => ?_) (by simp)
    rw [State.updTimer_queues, State.updTimer_queues, State.updThread_queues, hnot] at hk
    cases hk
  · refine ⟨?_, ?_, ?_, ?_⟩
    · simpa [hut] using h.blocked
    · simpa [hut] using h.idle
    · simpa [hut] using h.asks
    · intro c hc hl hr he
      have hcall : x.calls u = some c := by simpa [hut] using hc
      have hst : (x.threads u).stat = .ready ∨ (x.threads u).stat = .running := by
        simpa [hut] using hr
      have herr : (x.threads u).error = .eok := by simpa [hut] using he
      have hg := h.granted c hcall hl hst herr
      cases c with
      | threadJoin v n =>
        obtain ⟨w, rfl, hw⟩ := hg
        have hwt : w ≠ t := by
          rintro rfl
          exact hjoin n hw hcall hst herr
        exact ⟨w, rfl, by simpa [hwt] using hw⟩
      | _ => exact hg

/-- A suspended thread that is not stranded becomes ready. -/
theorem Pledged.resumed (h : Pledged x u) (hst : (x.threads t).stat = .suspend)
    (hhome : x.queues.home t = none) (hnot : ¬ Stranded x t) :
    Pledged (x.updThread t readyEdit) u := by
  have hkeep : ∀ v, Keeps (some v) x (x.updThread t readyEdit) := fun v =>
    .updThread fun hd => Stat.noConfusion (hst.symm.trans hd)
  by_cases hut : u = t
  · subst hut
    refine ⟨fun k hk => ?_, fun hb => ?_, fun e he => ?_, fun c hc hl _ he => ?_⟩
    · rw [State.updThread_queues, hhome] at hk
      cases hk
    · simp [readyEdit] at hb
    · rw [State.updThread_queues, hhome] at he
      cases he
    · have hg : Granted x (some u) c := by
        by_contra hng
        exact hnot ⟨hst, by simpa [readyEdit] using he, c, hc, hl, hng⟩
      exact hg.keep (hkeep u)
  · exact h.keep (hkeep u) rfl rfl
      ⟨(x.threads u).priority, by simp [hut, Thread.withPriority]⟩

/-- A thread that is on no list and in no call, and that is not dead, changes. -/
theorem Pledged.edited (h : Pledged x u) {f : Thread → Thread} (hhome : x.queues.home t = none)
    (hcall : x.calls t = none) (hdead : (x.threads t).stat ≠ .dead) :
    Pledged (x.updThread t f) u := by
  by_cases hut : u = t
  · subst hut
    refine .outside (fun k hk => ?_) hcall
    rw [State.updThread_queues, hhome] at hk
    cases hk
  · exact h.keep (.updThread fun hd => absurd hd hdead) rfl rfl
      ⟨(x.threads u).priority, by simp [hut, Thread.withPriority]⟩

/-- A call begins whose caller, if it is a thread, is inside of none. -/
theorem Pledged.entered (h : Pledged x u) (hi : ∀ t, x.caller = some t → x.calls t = none)
    (c : Call) : Pledged (x.emit (.call x.caller c x.clock)) u := by
  by_cases hu : x.caller = some u
  · exact h.uncalled (hi u hu) rfl rfl rfl
  · refine h.note rfl rfl rfl [.call x.caller c x.clock] rfl ?_ fun _ hm => hm
    simp [Event.begins, hu]

/-- The call that waits for an event is the one whose bits are in the control block. -/
theorem Call.eventRecv_of_line {e : ℕ} (hm : c.mustWait x t) (hk : c.line = some (.event e)) :
    ∃ n, c = .eventRecv e (x.threads t).eventSet (x.threads t).eventOpt n := by
  cases c with
  | eventRecv e' set opt n =>
    cases hk
    obtain ⟨-, hset, hopt⟩ := hm
    exact ⟨n, by rw [hset, hopt]⟩
  | threadJoin v n => cases v <;> cases hk
  | _ => cases hk

/-- A free mutex is locked. -/
theorem Pledged.locked {m : Mid} {w : Tid} (h : Pledged x u) (ho : (x.mutexes m).owner = none) :
    Pledged (x.handed m w) u := by
  refine h.note rfl rfl rfl [] rfl (by simp) fun j hj => ?_
  have hjm : j ≠ m := by
    rintro rfl
    rw [ho] at hj
    cases hj
  simpa [State.handed, hjm] using hj

/-- A queue or a pool changes, and the first waiter of `k` looks again. -/
theorem Pledged.changed {e : Event} (h : ∀ v, Pledged x v) (hT : ∀ v, Tracked x v)
    (hq : y.queues = x.queues) (hc : y.calls = x.calls) (hth : y.threads = x.threads)
    (hlog : y.log = e :: x.log) (he : ∀ v, e.begins (some v) = false)
    (hmoved : y.moved = x.moved) (hm : y.mutexes = x.mutexes) (hw : k.isWait = true)
    (hk : ∀ c : Call, c.line = some k → c.loops = true) : Pledged (y.served k) u := by
  have hTy : ∀ v, Tracked y v := fun v =>
    (hT v).same (by rw [hq]) (by rw [hc]) (by rw [hmoved]) (by rw [hth])
  refine Pledged.served (fun v => ?_) hTy hw hk
  exact (h v).note hq hc hth [e] hlog (fun e' he' => by rw [List.mem_singleton.mp he', he v])
    fun j hj => by rw [hm]; exact hj

/-- Bits are posted, and the waiters that they satisfy get them. -/
theorem Pledged.posted (h : ∀ v, Pledged x v) (hT : ∀ v, Tracked x v) (e : ℕ) (set : BitVec 32) :
    Pledged ((x.queues.lists (.event e)).foldl (State.visited e) (x.posted e set)) u := by
  have hposted : (∀ v, Tracked (x.posted e set) v) ∧ ∀ v, Pledged (x.posted e set) v :=
    ⟨fun v => (hT v).same rfl rfl rfl rfl, fun v =>
      (h v).note rfl rfl rfl [_] rfl (by simp [Event.begins]) fun _ hm => hm⟩
  exact (visited_induction (P := fun z => (∀ v, Tracked z v) ∧ ∀ v, Pledged z v)
    (fun z t hz ht => ⟨fun v => (hz.1 v).visited, fun v => Pledged.visited hz.2 hz.1 ht⟩) x.queues
    hposted).2 u

/-- A joiner of a dead thread is woken. -/
theorem Pledged.joinerWoken {j : Tid} (h : ∀ v, Pledged x v) (hT : Tracked x j)
    (ht : (x.threads t).stat = .dead) (hj : x.queues.home j = some (.join t)) :
    Pledged (x.left j wakeEdit) u := by
  refine (h u).woken hT hj rfl (h j) rfl fun c hc hline _ _ => ?_
  cases c with
  | threadJoin v n =>
    cases v with
    | none => cases hline
    | some v =>
      cases hline
      exact ⟨t, rfl, ht⟩
  | _ => cases hline

/-- A thread is suspended. -/
theorem Pledged.suspended (h : Pledged x u) (hst : (x.threads t).stat ≠ .dead) :
    Pledged (x.left t suspendEdit) u := by
  refine h.left (fun hd => absurd hd hst) (by simp [suspendEdit]) fun _ _ _ hr => ?_
  simp [suspendEdit] at hr

/-- A thread ends. -/
theorem Pledged.finished (h : Pledged x u) : Pledged (x.finished t) u := by
  have hleft : Pledged (x.left t endEdit) u :=
    h.left (fun _ => rfl) (by simp [endEdit]) fun _ _ _ hr => by simp [endEdit] at hr
  exact hleft.note rfl rfl rfl [] rfl (by simp) fun _ hm => hm

/-- Every effect of a step that keeps the grants keeps the pledges. -/
theorem Pledged.step (hS : Sound cfg s) (hJ : ConsistentBut Set.univ x) (hT : ∀ v, Tracked x v)
    (hC : KeepsGrants s a) (h : ∀ v, Pledged x v) (he : Effect a s x y) : Pledged y u := by
  have hfree : ∀ {v : Tid}, (x.threads v).stat = .running → x.queues.home v = none :=
    fun hr => hJ.home_none (by rw [hr]; decide) (by rw [hr]; decide)
  have hfrees : ∀ {who : Option Tid} {c : Call}, Within a s x who c →
      ∀ t, who = some t → x.queues.home t = none := fun hw t ht => hfree (hw.runs t ht).2
  cases he with
  | nothing => exact h u
  | environment | write => exact (h u).note rfl rfl rfl [] rfl (by simp) fun _ hm => hm
  | enter ha hi => exact (h u).entered (fun t ht => (hi t ht).2) _
  | returns r hw hl hr hb => exact (h u).returned (hfrees hw) _ _
  | blocks hw hm hk hn =>
    have hrun := (hw.runs _ rfl).2
    refine (h u).blocks (hfree hrun) (by rw [hrun]; decide) (Call.isWait_of_line hk) fun e he => ?_
    exact Call.eventRecv_of_line hm (he ▸ hk)
  | semTake hw hv =>
    rename_i w i n
    refine Pledged.returned (x := (x.updSem i fun m => { m with val := m.val - 1 }).emit
      (.semTaken w i)) ?_ (hfrees hw) _ _
    exact (h u).note rfl rfl rfl [.semTaken w i] rfl (by simp [Event.begins]) fun _ hm => hm
  | semRelease ha hl =>
    rename_i i
    exact (h u).note rfl rfl rfl [.semReleased i] rfl (by simp [Event.begins]) fun _ hm => hm
  | semHand ha hl => exact .semHanded h (hT _) (s.queues.home_of_head hl)
  | lock hw ho => exact Pledged.returned (x := x.handed _ _) ((h u).locked ho) (hfrees hw) _ _
  | contend ha hw ho hoc hx =>
    subst hx
    have hrun := (hw.runs _ rfl).2
    exact (h u).contends hrun (hfree hrun)
  | drop ha hc hi ho hl =>
    exact (h u).givesUp hi ho _ rfl rfl rfl rfl fun j hj => by simp [hj]
  | hand ha hc hi ho hl => exact .mutexHanded h (hT _) hi ho (s.queues.home_of_head hl)
  | send hw hq =>
    rename_i w q msg n
    refine Pledged.returned ?_ (fun t ht => State.home_served (x := x.sent q msg)
      (hfrees hw t ht) _) _ _
    exact .changed h hT rfl rfl rfl rfl (fun _ => rfl) rfl rfl rfl
      fun c hc => Call.loops_of_line hc (.inl ⟨q, rfl⟩)
  | recv hw hq =>
    rename_i w q n
    refine Pledged.returned ?_ (fun t ht => State.home_served (x := x.received q)
      (hfrees hw t ht) _) _ _
    exact .changed h hT rfl rfl rfl rfl (fun _ => rfl) rfl rfl rfl
      fun c hc => Call.loops_of_line hc (.inr (.inl ⟨q, rfl⟩))
  | alloc hw hp =>
    rename_i w p n
    refine Pledged.returned (x := x.allocated p) ?_ (hfrees hw) _ _
    exact (h u).note rfl rfl rfl [] rfl (by simp) fun _ hm => hm
  | free ha =>
    rename_i p ptr
    exact .changed (y := s.put p ptr) h hT rfl rfl rfl rfl (fun _ => rfl) rfl rfl rfl
      fun c hc => Call.loops_of_line hc (.inr (.inr ⟨p, rfl⟩))
  | eventSend ha => exact .posted h hT _ _
  | eventScratch hw =>
    rename_i w e set opt n
    exact (h u).scratch (hfree (hw.runs w rfl).2) fun _ => ⟨rfl, rfl⟩
  | eventTake hw hs =>
    rename_i w e set opt n
    refine Pledged.returned (x := x.granted e set (.eventTaken (some w) e set)) ?_ (hfrees hw) _ _
    exact (h u).note rfl rfl rfl [_] rfl (by simp [Event.begins]) fun _ hm => hm
  | create ha hb ht hst htk hu =>
    have hnot := hJ.home_none (fun hr => hst (by rw [hr]; exact ⟨by decide, by decide⟩))
      (fun hr => hst (by rw [hr]; exact ⟨by decide, by decide⟩))
    refine (h u).created hnot hu fun n hd hcall hr => ?_
    simp only [KeepsGrants, ha] at hC
    exact hC _ ht hd u n hcall hr
  | suspend ha htk hst =>
    refine (h u).suspended fun hd => ?_
    rw [hd] at hst
    rcases hst with hst | hst | hst <;> cases hst
  | resume ha hst =>
    have hhome := hJ.home_none (by rw [hst]; decide) (by rw [hst]; decide)
    simp only [KeepsGrants, ha] at hC
    exact (h u).resumed hst hhome hC
  | finish ha hess hst => exact (h u).finished
  | wakeJoiner ha ht hj => exact .joinerWoken h (hT _) ht hj
  | timeout ha hl hk hw =>
    rename_i t k
    refine (h u).woken (hT t) hk hw (h t) rfl fun _ _ _ _ he => ?_
    simp [timeoutEdit] at he
  | delay ha ht hi =>
    have hrun := hS.runs ht
    exact (h u).edited (hfree hrun) hi (by rw [hrun]; decide)
  | delayEnd ha hl hst hq =>
    have hcall := (h _).idle hst fun k hk => by
      rw [hq] at hk
      cases hk
    exact (h u).edited hq hcall (by rw [hst]; decide)

/-- Nobody is inside of a call at the beginning. -/
theorem pledged_start (v : Setup) (t : Tid) :
    Pledged ((initObjects v).created idleTid idleArgs) t := by
  rw [created_eq rfl]
  refine .outside (fun k hk => ?_) ?_
  · cases hk
  · show Function.update (fun _ => none) idleTid none t = none
    simp

/-- The scheduler does not see the pledges. -/
theorem hidden_pledged (t : Tid) : Hidden fun s => Pledged s t := by
  intro x y ho h
  have hcalls : y.calls t = x.calls t := congrFun (congrArg State.calls ho :) t
  have hst := stat_of_offCpu ho t
  have hkeep : Keeps (some t) x y := by
    refine ⟨⟨[], (congrArg State.log ho :),
      fun e he => by cases he⟩, fun m u _ hm => ?_, fun u hu => ?_⟩
    · exact (congrArg (fun v : State => (v.mutexes m).owner) ho :).trans hm
    · have hsame := stat_of_offCpu ho u
      rw [hu] at hsame
      revert hsame
      cases (y.threads u).stat <;> simp [Stat.offCpu]
  refine ⟨fun k hk hw => ?_, fun hb hq => ?_, fun e he => ?_, fun c hc hl hr he => ?_⟩
  · rw [h.blocked k (home_of_offCpu ho hw hk) hw] at hst
    revert hst
    cases (y.threads t).stat <;> simp [Stat.offCpu]
  · rw [hcalls]
    refine h.idle ?_ fun k hk => ?_
    · rw [hb] at hst
      revert hst
      cases (x.threads t).stat <;> simp [Stat.offCpu]
    · by_contra hw
      have hw' : k.isWait = true := by simpa using hw
      exact hw (hq k (home_of_offCpu ho.symm hw' hk))
  · obtain ⟨n, hn⟩ := h.asks e (home_of_offCpu ho rfl he)
    have hset : (y.threads t).eventSet = (x.threads t).eventSet :=
      (congrArg (fun v : State => (v.threads t).eventSet) ho :)
    have hopt : (y.threads t).eventOpt = (x.threads t).eventOpt :=
      (congrArg (fun v : State => (v.threads t).eventOpt) ho :)
    exact ⟨n, by rw [hcalls, hset, hopt, hn]⟩
  · refine (h.granted c (hcalls ▸ hc) hl ?_ ((error_of_offCpu ho t).symm.trans he)).keep hkeep
    revert hst hr
    cases (x.threads t).stat <;> cases (y.threads t).stat <;> simp [Stat.offCpu]

/-- Whoever is to return `ND_EOK` was granted what it waited for, in the runs that keep the
grants. -/
theorem reach_pledged (h : (kernel cfg).Reach KeepsGrants s) (t : Tid) : Pledged s t := by
  have hboth : (∀ v, Tracked s v) ∧ ∀ v, Pledged s v :=
    reach_effects (I := fun z => (∀ v, Tracked z v) ∧ ∀ v, Pledged z v)
      (fun x y ho hx => ⟨fun v => hidden_tracked v x y ho (hx.1 v),
        fun v => hidden_pledged v x y ho (hx.2 v)⟩)
      (fun v => ⟨tracked_start v, pledged_start v⟩)
      (fun _ _ hS _ hC _ _ hJ hx he => ⟨fun v => (hx.1 v).step hJ he,
        fun _ => Pledged.step hS hJ hx.1 hC hx.2 he⟩) h
  exact hboth.2 t

/-! ## Returns -/

/-- What follows the grant in the critical section takes nothing back. -/
theorem granted_of_loops (hl : c.loops = true) : Granted s who c := by
  cases c with
  | queueSend | queueRecv | mempoolAlloc => trivial
  | _ => cases hl

/-- `nd_sem_take` that returns at once.
kernel/nd_sem.c:35-58 -/
theorem ndSemTake_granted {i n : ℕ} (hr : (ndSemTake cfg i n x).2 = some (.err .eok)) :
    Granted (ndSemTake cfg i n x).1 x.caller (.semTake i n) := by
  unfold ndSemTake at hr ⊢
  by_cases hv : 0 < (x.sems i).val
  · rw [if_pos hv]
    exact ⟨.semTaken x.caller i, by simp [State.since, Event.begins, State.caller], rfl, rfl⟩
  · rw [if_neg hv] at hr
    split at hr <;> cases hr

/-- `nd_mutex_lock` that returns at once.
kernel/nd_mutex.c:72-106 -/
theorem ndMutexLock_granted {m : Mid} {n : ℕ} (hin : x.caller = x.current)
    (hr : (ndMutexLock cfg m n x).2 = some (.err .eok)) :
    Granted (ndMutexLock cfg m n x).1 x.caller (.mutexLock m n) := by
  rw [hin]
  unfold ndMutexLock at hr ⊢
  cases hc : x.current with
  | none => simp [hc] at hr
  | some t =>
    cases ho : (x.mutexes m).owner with
    | none => exact ⟨t, rfl, by simp⟩
    | some o =>
      simp only [hc, ho] at hr
      split_ifs at hr <;> cases hr

/-- `nd_event_recv` that returns at once.
kernel/nd_event.c:61-87 -/
theorem ndEventRecv_granted {e : ℕ} {set : BitVec 32} {opt : EventOpt} {n : ℕ}
    (hr : (ndEventRecv cfg e set opt n x).2 = some (.err .eok)) :
    Granted (ndEventRecv cfg e set opt n x).1 x.caller (.eventRecv e set opt n) := by
  unfold ndEventRecv at hr ⊢
  cases hc : x.current with
  | none => simp [hc] at hr
  | some t =>
    simp only [hc] at hr ⊢
    split_ifs at hr ⊢ with hsat hn
    · refine ⟨.eventTaken x.caller e set (x.events e).set (clearBits (x.events e).set set), ?_, rfl,
        rfl, rfl, hsat, rfl⟩
      simp [State.since, Event.begins, State.caller]
    · cases hr

/-- `nd_thread_join` that returns at once.
kernel/nd_thread.c:344-376 -/
theorem ndThreadJoin_granted {v : Option Tid} {n : ℕ}
    (hr : (ndThreadJoin cfg v n x).2 = some (.err .eok)) :
    Granted (ndThreadJoin cfg v n x).1 who (.threadJoin v n) := by
  rcases ndThreadJoin_cases cfg x v n with ⟨r, he, hdead⟩ | ⟨u, -, -, -, -, he⟩
  · rw [he] at hr ⊢
    exact hdead (Ret.err.inj (Option.some.inj hr))
  · rw [he] at hr
    cases hr

/-- A return takes no grant back. -/
theorem Keeps.finish (x : State) (who : Option Tid) (c : Call) (r : Ret) :
    Keeps who x (finishCall who c (x, some r)) := by
  show Keeps who x (x.returned who c r)
  rw [State.returned_eq]
  refine ⟨⟨[_], rfl, fun e he => ?_⟩, fun _ _ _ hm => hm, fun _ hd => hd⟩
  cases List.mem_singleton.mp he
  rfl

/-- A call that returns `ND_EOK` in its first critical section was granted there. -/
theorem startCall_granted (hin : ∀ m n, c = .mutexLock m n → s.caller = s.current)
    (hr : (callBody cfg c (s.emit (.call s.caller c s.clock))).2 = some (.err .eok)) :
    Granted (startCall cfg c s) s.caller c := by
  have hgranted : Granted (callBody cfg c (s.emit (.call s.caller c s.clock))).1 s.caller c := by
    cases c with
    | semTake i n => exact ndSemTake_granted hr
    | mutexLock m n => exact ndMutexLock_granted (x := s.emit _) (hin m n rfl) hr
    | eventRecv e set opt n => exact ndEventRecv_granted hr
    | threadJoin v n => exact ndThreadJoin_granted hr
    | _ => trivial
  unfold startCall
  rw [← Prod.eta (callBody cfg c (s.emit (.call s.caller c s.clock))), hr]
  exact hgranted.keep (.finish _ _ _ _)

/-- **A blocking call returns `ND_EOK` only when it was granted**, in the runs that resume no
stranded thread and reuse no control block that a woken joiner still has to look at.
kernel/nd_sem.c:35-58, kernel/nd_mutex.c:72-106, kernel/nd_event.c:61-87, kernel/nd_thread.c:34-161,
344-376 -/
theorem eok_only_when_granted (h : (kernel cfg).Reach KeepsGrants s)
    (he : (kernel cfg).enabled s a) (hr : outcome cfg a s = some (who, c, .err .eok)) :
    Granted (exec cfg a s) who c := by
  have hS : Sound cfg s := reach_sound h.always
  have hstart : ∀ d, (callBody cfg d (s.emit (.call s.caller d s.clock))).2.map
      (fun r => (s.caller, d, r)) = some (who, c, .err .eok) →
      (∀ m n, d = .mutexLock m n → s.caller = s.current) → Granted (startCall cfg d s) who c := by
    intro d hd hin
    obtain ⟨r, hret, heq⟩ := Option.map_eq_some_iff.mp hd
    obtain ⟨rfl, rfl, rfl⟩ : s.caller = who ∧ d = c ∧ r = .err .eok := by simpa using heq
    exact startCall_granted hin hret
  obtain ⟨hallow, -⟩ := he
  cases a with
  | call o =>
    cases o with
    | wait d =>
      refine hstart d hr fun m n hd => ?_
      subst hd
      obtain ⟨t, hm⟩ := threadMode_of_call hallow rfl
      obtain ⟨hn, -, hc, -⟩ := threadMode_eq hm
      simp [State.caller, hn, hc]
    | _ => cases hr
  | irq o =>
    cases o with
    | wait d =>
      refine hstart d hr fun m n hd => ?_
      subst hd
      cases (irq_allowed hallow).2.1
    | _ => cases hr
  | resume =>
    obtain ⟨t, hm, -⟩ := resume_allowed hallow
    obtain ⟨-, -, hcur, -⟩ := threadMode_eq hm
    simp only [outcome, hcur, Option.bind_some, Option.bind_eq_some_iff] at hr
    obtain ⟨d, hcall, hr⟩ := hr
    obtain ⟨r, hret, heq⟩ := Option.map_eq_some_iff.mp hr
    obtain ⟨rfl, rfl, rfl⟩ : some t = who ∧ d = c ∧ r = .err .eok := by simpa using heq
    cases hl : d.loops with
    | true => exact granted_of_loops hl
    | false =>
      have hrest : callRest cfg d s = (s, some (.err (s.threads t).error)) := by
        cases d with
        | queueSend | queueRecv | mempoolAlloc => cases hl
        | _ => simp [callRest, State.currentError, hcur]
      rw [hrest] at hret
      have herr : (s.threads t).error = .eok := by simpa using hret
      have hgranted := (reach_pledged h t).granted d hcall hl (.inr (hS.runs hm)) herr
      have hexec : exec cfg .resume s = finishCall (some t) d (s, some (.err .eok)) := by
        simp only [exec, resumeCall, hcur, hcall, hrest, herr]
      rw [hexec]
      exact hgranted.keep (.finish _ _ _ _)
  | _ => cases hr

/-- A check of the steps that keep the grants. -/
def keepsGrants (s : State) (a : Action) : Bool :=
  match a.op? with
  | some (.threadResume _) => false
  | some (.threadCreate b) => b.thread.all fun v => (s.threads v).stat ≠ .dead
  | _ => true

/-- What the check accepts keeps the grants. -/
theorem keepsGrants_keeps (s : State) (a : Action) (h : keepsGrants s a = true) :
    KeepsGrants s a := by
  unfold keepsGrants at h
  unfold KeepsGrants
  split at h
  · cases h
  · rename_i b hop
    intro v hv hd
    rw [hv] at h
    simp [hd] at h
  · trivial

/-- Thread 1 holds the mutex that thread 2 waits for. -/
def heldMutexRun : List Action :=
  [spawn 1 20, .start, .call (.wait (.mutexLock 0 ndTimeoutForever)), spawn 2 5,
    .call (.wait (.mutexLock 0 ndTimeoutForever))]

/-- Thread 2 gets the mutex from thread 1, and its call returns `ND_EOK`. -/
theorem eok_only_when_granted_run :
    ∃ s, (kernel syncPort).run (heldMutexRun ++ [.call (.mutexUnlock 0)]) (boot syncPort {}) =
      some s ∧
      outcome syncPort .resume s = some (some 2, .mutexLock 0 ndTimeoutForever, .err .eok) ∧
      Granted (exec syncPort .resume s) (some 2) (.mutexLock 0 ndTimeoutForever) := by
  obtain ⟨s, hs, hp⟩ := (kernel syncPort).exists_run (l := heldMutexRun ++ [.call (.mutexUnlock 0)])
    (s := boot syncPort {})
    (p := fun s => (kernel syncPort).enabled s .resume ∧
      outcome syncPort .resume s = some (some 2, .mutexLock 0 ndTimeoutForever, .err .eok))
    (by decide +kernel)
  simp only [decide_eq_true_eq] at hp
  have hr := (kernel syncPort).reach_of_checked keepsGrants_keeps (.start ⟨{}, rfl⟩) hs
    (by decide +kernel)
  exact ⟨s, hs, hp.2, eok_only_when_granted hr hp.1 hp.2⟩

/-- Thread 1 suspends thread 2 while it waits, resumes it and yields to it: its call returns
`ND_EOK`, and the mutex is still thread 1's. -/
theorem resumed_waiter_is_not_granted :
    ¬ ∀ s a who c, (kernel syncPort).Reach Machine.Always s → (kernel syncPort).enabled s a →
      outcome syncPort a s = some (who, c, .err .eok) → Granted (exec syncPort a s) who c := by
  intro hrule
  obtain ⟨s, hs, hp⟩ := (kernel syncPort).exists_run
    (l := heldMutexRun ++ [.call (.threadSuspend 2), .call (.threadResume 2), .call .threadYield])
    (s := boot syncPort {})
    (p := fun s => (kernel syncPort).enabled s .resume ∧
      outcome syncPort .resume s = some (some 2, .mutexLock 0 ndTimeoutForever, .err .eok) ∧
      ((exec syncPort .resume s).mutexes 0).owner = some 1) (by decide +kernel)
  simp only [decide_eq_true_eq] at hp
  obtain ⟨t, ht, ho⟩ := hrule s .resume _ _ (reach_run hs) hp.1 hp.2.1
  rw [hp.2.2] at ho
  cases ho
  cases ht

end NerdRtos
