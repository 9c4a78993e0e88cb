import NerdRtos.Analysis.Reachable
import Mathlib.Logic.Relation

/-!
# The effects of the critical sections

`Effect` says what the critical sections do, with all that the scheduler decides left out
(`State.offCpu`): threads leave the list that they are on (`State.left`), one joins a wait list
(`State.joined`), and the objects and the history change. Every step of the kernel is a run of
effects (`exec_effects`), so a property that the scheduler cannot change and that every effect keeps
holds in every reachable state (`reach_effects`).

An effect that a condition on the steps can be about happens in the state `s` that the action `a`
starts in; the others happen in a state `x` on the way.
-/

set_option autoImplicit false

namespace NerdRtos

variable {cfg : Config} {s x y z : State} {a : Action} {t : Tid} {k : QHead}

/-! ## The states on the way -/

/-- Thread `t` taken off the list that it is on and edited by `f`. -/
@[simps! threads taken threadList current next nest trySwitch timers tree clock sems mutexes
  msgQueues events pools pendsv calls log picks fault readyBit]
def State.left (s : State) (t : Tid) (f : Thread → Thread) : State :=
  { s.updThread t f with queues := s.queues.unlink t }

/-- A thread that leaves its list is on none. -/
theorem State.home_left (s : State) (t u : Tid) (f : Thread → Thread) :
    (s.left t f).queues.home u = if u = t then none else s.queues.home u :=
  s.queues.home_unlink t u

/-- Thread `t` put on wait list `k` by `nd_thread_pend`. -/
@[simps! threads taken threadList current next nest trySwitch timers tree clock sems mutexes
  msgQueues events pools pendsv calls log picks]
def State.joined (s : State) (t : Tid) (k : QHead) : State :=
  (s.emit (.pend t k (s.threads t).stat (s.isLinked t))).waiting t k

/-- Thread `t` left waiting on list `k`, inside of call `c`. -/
def State.blocked (s : State) (t : Tid) (k : QHead) (c : Call) : State :=
  finishCall (some t) c (s.joined t k, none)

/-- Call `c` returns. -/
def State.returned (s : State) (who : Option Tid) (c : Call) (r : Ret) : State :=
  finishCall who c (s, some r)

/-- The first thread of list `k`, if there is one, is woken. -/
def State.served (s : State) (k : QHead) : State :=
  match (s.queues.lists k).head? with
  | none => s
  | some t => (s.left t wakeEdit).emit (.woken t k)

/-- The owner `o` of mutex `m` raised to the priority of thread `c`.
kernel/nd_mutex.c:89-92 -/
def State.raised (s : State) (m : Mid) (o c : Tid) : State :=
  if (s.threads c).priority < (s.threads o).priority then
    (s.updMutex m fun mx => { mx with priority := (s.threads c).priority }).updThread o
      (Thread.withPriority (s.threads c).priority)
  else s

/-- A block put back into pool `p`.
kernel/nd_mempool.c:75-77 -/
def State.put (s : State) (p ptr : ℕ) : State :=
  (s.emit (.blockFreed p ptr)).updPool p fun pl =>
    { pl with
      mem := Bytes.store32 pl.mem ptr pl.freeList
      freeList := ptr
      freeCount := u32 (pl.freeCount + 1) }

/-- `nd_mempool_free` of a block that the assertions accept, or that they do not check.
kernel/nd_mempool.c:64-85 -/
theorem ndMempoolFree_eq {cfg : Config} {s : State} {p ptr : ℕ}
    (hf : (ndMempoolFree cfg p ptr s).fault = false) :
    ndMempoolFree cfg p ptr s = wakeupIfAny cfg (.pool p) (s.put p ptr) := by
  unfold ndMempoolFree at hf ⊢
  split
  · rename_i h
    rw [if_pos h] at hf
    cases hf
  · rfl

/-- The bits of thread `t` cleared in event `e`, and the grant noted.
kernel/nd_event.c:48-51 -/
def State.granted (s : State) (e : ℕ) (set : BitVec 32) (note : BitVec 64 → BitVec 64 → Event) :
    State :=
  (s.updEvent e fun g => { g with set := clearBits g.set set }).emit
    (note (s.events e).set (clearBits (s.events e).set set))

/-- What `nd_event_wakeup` writes to the control block. -/
def readyEdit (th : Thread) : Thread := { th with stat := .ready }

/-- One turn of the loop of `nd_event_send`. -/
def State.visited (e : ℕ) (s : State) (t : Tid) : State :=
  if ndEventIsSatisfied (s.events e).set (s.threads t).eventSet (s.threads t).eventOpt then
    (s.granted e (s.threads t).eventSet (.eventHanded t e (s.threads t).eventSet)).left t readyEdit
  else s

/-- The bits of a send set in event `e`.
kernel/nd_event.c:41 -/
def State.posted (s : State) (e : ℕ) (set : BitVec 32) : State :=
  (s.emit (.eventSent e set)).updEvent e fun g => { g with set := g.set ||| set.setWidth 64 }

/-- Thread `t` ended, with its joiners still waiting. -/
def State.finished (s : State) (t : Tid) : State :=
  { s.left t endEdit with threadList := s.threadList.unlink t }

/-- What the end of a wait by timeout writes to the control block. -/
def timeoutEdit (th : Thread) : Thread := { th with stat := .ready, error := .etimeout }

/-! ## The effects -/

/-- The kernel call that an action makes. -/
def Action.op? : Action → Option Op
  | .call o | .irq o => some o
  | _ => none

instance (b : CreateArgs) : Decidable b.accepted :=
  inferInstanceAs (Decidable (b.name ≠ none ∧ b.entry ≠ none ∧ b.stack ≠ none ∧ b.stackSize ≠ 0 ∧
    b.priority < 32))

/-- The thread that is created. -/
def Action.creates (a : Action) : Option Tid :=
  match a.op? with
  | some (.threadCreate b) => if b.accepted then b.thread else none
  | _ => none

/-- An accepted `nd_thread_create` creates the thread that it names. -/
theorem Action.creates_eq_some {a : Action} {b : CreateArgs} {t : Tid}
    (ha : a.op? = some (.threadCreate b))
    (hb : b.accepted) (ht : b.thread = some t) : a.creates = some t := by
  simp [Action.creates, ha, hb, ht]

/-- Whatever is no accepted `nd_thread_create` creates nobody. -/
theorem Action.creates_eq_none {a : Action}
    (h : ∀ b, a.op? = some (.threadCreate b) → b.accepted → b.thread = none) :
      a.creates = none := by
  unfold Action.creates
  split
  · rename_i b ha
    split
    · exact h b ha ‹_›
    · rfl
  · rfl

/-- The wait list of a call. -/
def Call.line : Call → Option QHead
  | .semTake i _ => some (.sem i)
  | .mutexLock m _ => some (.mutex m)
  | .queueSend q _ _ => some (.queueSend q)
  | .queueRecv q _ => some (.queueRead q)
  | .eventRecv e _ _ _ => some (.event e)
  | .mempoolAlloc p _ => some (.pool p)
  | .threadJoin t _ => t.map .join

/-- The calls that wait in a loop. -/
def Call.loops : Call → Bool
  | .queueSend _ _ _ | .queueRecv _ _ | .mempoolAlloc _ _ => true
  | _ => false

/-- A call other than `nd_mutex_lock` has to wait when thread `t` makes it. -/
def Call.mustWait (s : State) (t : Tid) : Call → Prop
  | .semTake i _ => (s.sems i).val ≤ 0
  | .mutexLock _ _ => False
  | .queueSend q _ _ => (s.msgQueues q).usedMsg = (s.msgQueues q).maxMsgs
  | .queueRecv q _ => (s.msgQueues q).usedMsg = 0
  | .eventRecv e set opt _ => ndEventIsSatisfied (s.events e).set set opt = false ∧
      (s.threads t).eventSet = set ∧ (s.threads t).eventOpt = opt
  | .mempoolAlloc p _ => (s.pools p).freeCount = 0
  | .threadJoin none _ => False
  | .threadJoin (some u) _ => u ≠ t ∧ (s.threads u).stat.live

/-- Action `a`, started in `s`, executes call `c` in `x` on behalf of `who`: an interrupt handler,
`main`, or a thread that begins the call or goes on with it. -/
structure Within (a : Action) (s x : State) (who : Option Tid) (c : Call) : Prop where
  caller : who = s.caller
  runs : ∀ t, who = some t → threadMode x = some t ∧ (x.threads t).stat = .running
  acts : (a.op? = some (.wait c) ∧ ∀ t, who = some t → x.calls t = none) ∨
    (a = .resume ∧ ∃ t, who = some t ∧ x.calls t = some c)

/-- The effects of action `a` in state `s`. -/
inductive Effect (a : Action) (s : State) : State → State → Prop
  | nothing (x : State) : Effect a s x x
  | environment (x : State) (n k : ℕ) (hk : k = x.clock ∨ k < u64Size) :
      Effect a s x { x with nest := n, clock := k }
  | write {p ptr : ℕ} {v : BitVec 8} (ha : a = .write p ptr v) : Effect a s s (poolWrite p ptr v s)
  | enter {c : Call} (ha : a.op? = some (.wait c))
      (hi : ∀ t, s.caller = some t → threadMode s = some t ∧ s.calls t = none) :
      Effect a s s (s.emit (.call s.caller c s.clock))
  | returns {x : State} {who : Option Tid} {c : Call} (r : Ret) (hw : Within a s x who c)
      (hl : ∀ t, who = some t → c.loops = true →
        x.calls t = none ∨ (x.threads t).error = .etimeout ∨ c.mustWait x t)
      (hr : r = .err .eok → ∃ t, who = some t ∧ c.loops = false ∧
        ((a = .resume ∧ (x.threads t).error = .eok) ∨
          ∃ u n, c = .threadJoin (some u) n ∧ (x.threads u).stat = .dead))
      (hb : ∀ b, r ≠ .block (some b)) :
      Effect a s x (x.returned who c r)
  | blocks {x : State} {t : Tid} {c : Call} {k : QHead} (hw : Within a s x (some t) c)
      (hm : c.mustWait x t) (hk : c.line = some k) (hn : c.timeout ≠ ndTimeoutNowait) :
      Effect a s x (x.blocked t k c)
  | semTake {x : State} {who : Option Tid} {i n : ℕ} (hw : Within a s x who (.semTake i n))
      (hv : 0 < (x.sems i).val) :
      Effect a s x (((x.updSem i fun m => { m with val := m.val - 1 }).emit
        (.semTaken who i)).returned who (.semTake i n) (.err .eok))
  | semRelease {i : ℕ} (ha : a.op? = some (.semRelease i)) (hl : s.queues.lists (.sem i) = []) :
      Effect a s s ((s.emit (.semReleased i)).updSem i fun m => { m with val := m.val + 1 })
  | semHand {i : ℕ} {t : Tid} (ha : a.op? = some (.semRelease i))
      (hl : (s.queues.lists (.sem i)).head? = some t) :
      Effect a s s (((s.emit (.semReleased i)).left t wakeEdit).emit (.semHanded t i))
  | lock {x : State} {m : Mid} {c : Tid} {n : ℕ} (hw : Within a s x (some c) (.mutexLock m n))
      (ho : (x.mutexes m).owner = none) :
      Effect a s x ((x.handed m c).returned (some c) (.mutexLock m n) (.err .eok))
  | contend {x : State} {m : Mid} {o c : Tid} {n : ℕ} (ha : a = .call (.wait (.mutexLock m n)))
      (hw : Within a s s (some c) (.mutexLock m n)) (ho : (s.mutexes m).owner = some o)
        (hoc : o ≠ c)
      (hx : x = s.emit (.call (some c) (.mutexLock m n) s.clock)) :
      Effect a s x (if n = ndTimeoutNowait then
        (x.raised m o c).returned (some c) (.mutexLock m n) (.err .ebusy)
        else (x.raised m o c).blocked c (.mutex m) (.mutexLock m n))
  | drop {m : Mid} {c : Tid} (ha : a = .call (.mutexUnlock m)) (hc : threadMode s = some c)
      (hi : s.calls c = none) (ho : (s.mutexes m).owner = some c)
      (hl : s.queues.lists (.mutex m) = []) :
      Effect a s s ((s.released m c).updMutex m fun mx =>
        { mx with owner := none, priority := ndThreadPriorityMax })
  | hand {m : Mid} {c t : Tid} (ha : a = .call (.mutexUnlock m)) (hc : threadMode s = some c)
      (hi : s.calls c = none) (ho : (s.mutexes m).owner = some c)
      (hl : (s.queues.lists (.mutex m)).head? = some t) :
      Effect a s s (((s.released m c).left t wakeEdit).handed m t)
  | send {x : State} {who : Option Tid} {q : ℕ} {msg : List (BitVec 8)} {n : ℕ}
      (hw : Within a s x who (.queueSend q msg n))
      (hq : (x.msgQueues q).usedMsg ≠ (x.msgQueues q).maxMsgs) :
      Effect a s x (((x.sent q msg).served (.queueRead q)).returned who (.queueSend q msg n)
        (.err .eok))
  | recv {x : State} {who : Option Tid} {q n : ℕ} (hw : Within a s x who (.queueRecv q n))
      (hq : (x.msgQueues q).usedMsg ≠ 0) :
      Effect a s x (((x.received q).served (.queueSend q)).returned who (.queueRecv q n)
        (.err .eok))
  | alloc {x : State} {who : Option Tid} {p n : ℕ} (hw : Within a s x who (.mempoolAlloc p n))
      (hp : (x.pools p).freeCount ≠ 0) :
      Effect a s x ((x.allocated p).returned who (.mempoolAlloc p n)
        (.block (some (x.pools p).freeList)))
  | free {p ptr : ℕ} (ha : a.op? = some (.mempoolFree p ptr)) :
      Effect a s s ((s.put p ptr).served (.pool p))
  | eventSend {e : ℕ} {set : BitVec 32} (ha : a.op? = some (.eventSend e set)) :
      Effect a s s ((s.queues.lists (.event e)).foldl (State.visited e) (s.posted e set))
  | eventScratch {x : State} {c : Tid} {e : ℕ} {set : BitVec 32} {opt : EventOpt} {n : ℕ}
      (hw : Within a s x (some c) (.eventRecv e set opt n)) :
      Effect a s x (x.updThread c fun th => { th with eventSet := set, eventOpt := opt })
  | eventTake {x : State} {c : Tid} {e : ℕ} {set : BitVec 32} {opt : EventOpt} {n : ℕ}
      (hw : Within a s x (some c) (.eventRecv e set opt n))
      (hs : ndEventIsSatisfied (x.events e).set set opt = true) :
      Effect a s x ((x.granted e set (.eventTaken (some c) e set)).returned (some c)
        (.eventRecv e set opt n) (.err .eok))
  | create {t : Tid} {b : CreateArgs} (ha : a.op? = some (.threadCreate b)) (hb : b.accepted)
      (ht : b.thread = some t) (hst : ¬ (s.threads t).stat.live) (htk : s.taken.lists t = [])
      (hu : s.inUse t = false) : Effect a s s (s.created t b)
  | suspend {t : Tid} (ha : a.op? = some (.threadSuspend t)) (htk : s.taken.lists t = [])
      (hst : (s.threads t).stat = .ready ∨ (s.threads t).stat = .running ∨
        (s.threads t).stat = .block) : Effect a s s (s.left t suspendEdit)
  | resume {t : Tid} (ha : a.op? = some (.threadResume t)) (hst : (s.threads t).stat = .suspend) :
      Effect a s s (s.updThread t readyEdit)
  | finish {t : Tid} (ha : a.op? = some (.threadAbort (some t)))
      (he : ndIsThreadEssential (s.threads t) = false) (hst : (s.threads t).stat.live) :
      Effect a s s (s.finished t)
  | wakeJoiner {x : State} {t j : Tid} (ha : a.op? = some (.threadAbort (some t)))
      (ht : (x.threads t).stat = .dead) (hj : x.queues.home j = some (.join t)) :
      Effect a s x (x.left j wakeEdit)
  | timeout {t : Tid} {k : QHead} (ha : a = .timerFire) (hl : leftmostTimer s = some (.wait t))
      (hk : s.queues.home t = some k) (hw : k.isWait = true) : Effect a s s (s.left t timeoutEdit)
  | delay {t : Tid} {n : ℕ} (ha : a = .call (.threadDelay n)) (ht : threadMode s = some t)
      (hi : s.calls t = none) : Effect a s s (s.updThread t fun th => { th with stat := .block })
  | delayEnd {t : Tid} (ha : a = .timerFire) (hl : leftmostTimer s = some (.wait t))
      (hst : (s.threads t).stat = .block) (hq : s.queues.home t = none) :
      Effect a s s (s.updThread t readyEdit)

/-- From `x`, whose threads are in order, an effect leads to `y`, but for what the scheduler
decides. -/
def Does (a : Action) (s x y : State) : Prop :=
  ConsistentBut Set.univ x ∧ ∃ z, Effect a s x z ∧ y.offCpu = z.offCpu

/-- A run of effects. -/
def Effects (a : Action) (s : State) : State → State → Prop := Relation.ReflTransGen (Does a s)

/-- No effect. -/
theorem Effects.refl : Effects a s x x := Relation.ReflTransGen.refl

/-- Some effects, and then some others. -/
theorem Effects.trans (h : Effects a s x y) (h' : Effects a s y z) : Effects a s x z :=
  Relation.ReflTransGen.trans h h'

/-- One effect, and what the scheduler decides behind it. -/
theorem Effects.single {d : Set Tid} (hJ : ConsistentBut d x) (h : Effect a s x z)
    (ho : y.offCpu = z.offCpu) : Effects a s x y :=
  Relation.ReflTransGen.single ⟨hJ.mono (Set.subset_univ d), z, h, ho⟩

/-- What only the scheduler does. -/
theorem Effects.unseen {d : Set Tid} (hJ : ConsistentBut d x) (ho : y.offCpu = x.offCpu) :
    Effects a s x y :=
  .single hJ (.nothing x) ho

/-! ## What the effects leave alone -/

/-- A thread that starts to wait is linked in behind those of no lower priority. -/
@[simp] theorem State.joined_queues (s : State) (t : Tid) (k : QHead) : (s.joined t k).queues =
    s.queues.link (fun u => (s.threads t).priority < (s.threads u).priority) k t := by
  simp only [State.joined, State.waiting, State.listInsert_queues, State.emit_threads]
  rfl

/-- A call that returns is noted, and its thread is inside of no call. -/
theorem State.returned_eq (s : State) (who : Option Tid) (c : Call) (r : Ret) :
    s.returned who c r =
      { s with
        calls := fun u => if who = some u then none else s.calls u
        log := .ret who c r :: s.log } := by
  cases who with
  | none => simp [State.returned, finishCall, State.emit]
  | some t =>
    have hcalls : Function.update s.calls t none =
        fun u => if some t = some u then none else s.calls u := by
      funext u
      by_cases hu : u = t
      · simp [hu]
      · simp [hu, Ne.symm hu]
    simp only [State.returned, finishCall, hcalls, State.emit]

/-- A boost edits the owner and the cache. -/
theorem State.raised_eq (s : State) (m : Mid) (o c : Tid) : s.raised m o c =
    { s with threads := (s.raised m o c).threads, mutexes := (s.raised m o c).mutexes } := by
  unfold State.raised
  split <;> rfl

/-- The rule for the loop of `nd_event_send`: what the turn for a thread on the wait list keeps, the
loop keeps. -/
theorem visited_induction {e : ℕ} {P : State → Prop}
    (hP : ∀ (y : State) (t : Tid), P y → y.queues.home t = some (.event e) →
      P (State.visited e y t))
    (qs : Intrusive.Queues QHead Tid) (hx : P x) (hqs : x.queues = qs := by rfl) :
    P ((qs.lists (.event e)).foldl (State.visited e) x) := by
  have hfold : ∀ (ts : List Tid) (y : State), ts.Nodup → P y →
      (∀ t ∈ ts, y.queues.home t = some (.event e)) → P (ts.foldl (State.visited e) y) := by
    intro ts
    induction ts with
    | nil => exact fun y _ hy _ => hy
    | cons t ts ih =>
      intro y hnd hy hon
      rw [List.nodup_cons] at hnd
      refine ih _ hnd.2 (hP y t hy (hon t (by simp))) fun u hu => ?_
      have hut : u ≠ t := fun h => hnd.1 (h ▸ hu)
      unfold State.visited
      split
      · rw [State.home_left, if_neg hut]
        exact hon u (by simp [hu])
      · exact hon u (by simp [hu])
  subst hqs
  exact hfold _ x (x.queues.nodup _) hx fun t ht => (x.queues.mem_iff _ _).mp ht

/-! ## What the scheduler does not see -/

/-- A thread that becomes ready has left its list.
kernel/nd_scheduler.c:43-67 -/
theorem offCpu_readied_left (s : State) (t : Tid) (pos : Tid → Bool) (f : Thread → Thread) :
    (s.readied t pos f).offCpu = (s.left t f).offCpu :=
  Eq.trans (b := (State.listInsert _ pos _ t).offCpu) rfl
    (offCpu_link_ready ((s.pulled t).updThread t f) pos _ t)

/-- A thread that waits has joined the wait list.
kernel/nd_thread.c:95-109 -/
theorem offCpu_ndThreadPend (cfg : Config) (hc : s.current = some t) (k : QHead) (n : ℕ) :
    (ndThreadPend cfg k n s).offCpu = (s.joined t k).offCpu := by
  rw [ndThreadPend_eq hc]
  unfold startWaitTimer
  split
  · exact (Sliced.timerStart cfg _ _).offCpu
  · rfl

/-- A call that returns is recorded in the same way whatever the scheduler has decided. -/
theorem offCpu_returned (h : y.offCpu = z.offCpu) (who : Option Tid) (c : Call) (r : Ret) :
    (y.returned who c r).offCpu = (z.returned who c r).offCpu := by
  have hcomm : ∀ u : State, (u.returned who c r).offCpu = u.offCpu.returned who c r := by
    intro u
    cases who <;> rfl
  rw [hcomm, hcomm, h]

/-- A call that waits is recorded in the same way whatever the scheduler has decided. -/
theorem offCpu_blocked (h : y.offCpu = (x.joined t k).offCpu) (c : Call) :
    (finishCall (some t) c (y, none)).offCpu = (x.blocked t k c).offCpu := by
  have hcomm : ∀ u : State, (finishCall (some t) c (u, none)).offCpu =
      finishCall (some t) c (u.offCpu, none) := fun _ => rfl
  unfold State.blocked
  rw [hcomm, hcomm, h]

/-- Two states that differ by the scheduler still do after a thread has left its list. -/
theorem offCpu_left {f : Thread → Thread} (h : y.offCpu = z.offCpu)
    (hf : (f (y.threads t)).offCpu = (f (z.threads t)).offCpu) :
    (y.left t f).offCpu = (z.left t f).offCpu := by
  have hth : (fun v => ((y.left t f).threads v).offCpu) =
      fun v => ((z.left t f).threads v).offCpu := by
    funext v
    by_cases hv : v = t
    · subst hv
      simpa using hf
    · have hv' : (y.threads v).offCpu = (z.threads v).offCpu :=
        congrArg (fun u : State => u.threads v) h
      simpa [hv] using hv'
  have hq : (y.left t f).queues.restrict QHead.isWait =
      (z.left t f).queues.restrict QHead.isWait := by
    have hr : (y.queues.restrict QHead.isWait).unlink t =
        (z.queues.restrict QHead.isWait).unlink t :=
      congrArg (fun u : State => u.queues.unlink t) h
    simpa only [State.left, Intrusive.Queues.restrict_unlink] using hr
  calc (y.left t f).offCpu
      = { y.offCpu with
          threads := fun v => ((y.left t f).threads v).offCpu
          queues := (y.left t f).queues.restrict QHead.isWait } := rfl
    _ = (z.left t f).offCpu := by
      rw [hth, hq, h]
      rfl

end NerdRtos
