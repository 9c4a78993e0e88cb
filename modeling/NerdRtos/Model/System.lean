import NerdRtos.Lib.Machine
import NerdRtos.Model.Ipc

/-!
# The kernel as a machine

One action is one critical section, or one hardware event between two of them. Three kinds
of code make calls: `main` before `nd_scheduler_start` (no current thread yet), the
current thread, and interrupt handlers (`nest` counts `nd_enter_interrupt`). The idle
thread makes none.

An interrupt handler has no control block of its own, so it makes only the calls that do
not act on `nd_current_thread`: no call that can block, except with `ND_TIMEOUT_NOWAIT`
(`Op.fromIrq`).

A blocking call that does not return in its critical section is remembered in `calls`, and
`resume` runs the rest of it once its thread is the current thread again. On a sync port
the thread is switched back in with interrupts masked, so no interrupt comes before
`resume` there.

`nd_timer_process` is the turns of its loop one by one (`timerFire`); what the callback of an
application timer does are the calls of the handler that follow.
-/

set_option autoImplicit false

namespace NerdRtos

/-- The kernel calls, with their arguments. -/
inductive Op
  | threadCreate (a : CreateArgs)
  | threadAbort (t : Option Tid)
  | threadSuspend (t : Tid)
  | threadResume (t : Tid)
  | semRelease (i : ℕ)
  | eventSend (e : ℕ) (set : BitVec 32)
  | mempoolFree (p ptr : ℕ)
  | timerInit (u : ℕ) (periodic : Bool) (timeout : ℕ) (callback : Callback)
  | timerStart (u : ℕ)
  | timerStop (u : ℕ)
  | mutexUnlock (m : Mid)
  | threadYield
  | threadDelay (n : ℕ)
  | wait (c : Call)
  deriving DecidableEq

/-- What can happen next. -/
inductive Action
  | call (o : Op)
  | resume
  | irqEnter
  | irq (o : Op)
  | timerFire
  | irqExit
  | pendsv
  | advance (n : ℕ)
  | write (p ptr : ℕ) (v : BitVec 8)
  | start
  deriving DecidableEq

/-- The calls that an interrupt handler, and `main`, can make. -/
def Op.fromIrq : Op → Bool
  | .mutexUnlock _ | .threadYield | .threadDelay _ => false
  | .wait (.semTake _ n) | .wait (.queueSend _ _ n) | .wait (.queueRecv _ n)
  | .wait (.mempoolAlloc _ n) => n = ndTimeoutNowait
  | .wait _ => false
  | _ => true

/-- The pointers of a call are valid: it names control blocks of threads that were created, it
creates a thread only in a control block that the kernel does not manage, it does not suspend
the idle thread, and it does not initialise an armed timer. -/
def Op.valid (s : State) : Op → Bool
  | .threadCreate a =>
    match a.thread with
    | none => true
    | some t =>
      ((s.threads t).stat = .init || (s.threads t).stat = .dead) &&
        (s.taken.lists t).isEmpty && s.current ≠ some t
  | .threadAbort (some t) => (s.threads t).stat ≠ .init
  | .threadSuspend t => (s.threads t).stat ≠ .init && t ≠ idleTid
  | .threadResume t => (s.threads t).stat ≠ .init
  | .wait (.threadJoin (some t) _) => (s.threads t).stat ≠ .init
  | .timerInit u _ _ _ => !s.isArmed (.user u)
  | _ => true

/-- The turns that the `while` loops of `nd_queue_send`, `nd_queue_recv` and `nd_mempool_alloc`
get within one critical section. -/
def loopTurns : ℕ := 2

/-- The body of a blocking call. -/
def callBody (cfg : Config) : Call → State → State × Option Ret
  | .semTake i n => ndSemTake cfg i n
  | .mutexLock m n => ndMutexLock cfg m n
  | .queueSend q msg n => ndQueueSend cfg q msg n loopTurns
  | .queueRecv q n => ndQueueRecv cfg q n loopTurns
  | .eventRecv e set opt n => ndEventRecv cfg e set opt n
  | .mempoolAlloc p n => ndMempoolAlloc cfg p n loopTurns
  | .threadJoin t n => ndThreadJoin cfg t n

/-- The rest of a blocking call, once its thread runs again: the three loops test the error and
go on, the other calls return it. -/
def callRest (cfg : Config) (c : Call) (s : State) : State × Option Ret :=
  match c with
  | .queueSend _ _ _ | .queueRecv _ _ =>
    if s.currentError = .etimeout then (s, some (.err .etimeout)) else callBody cfg c s
  | .mempoolAlloc _ _ =>
    if s.currentError = .etimeout then (s, some (.block none)) else callBody cfg c s
  | _ => (s, some (.err s.currentError))

/-- Record the outcome of a critical section of call `c`. -/
def finishCall (who : Option Tid) (c : Call) : State × Option Ret → State
  | (s, some r) =>
    match who with
    | none => s.emit (.ret who c r)
    | some t => { s.emit (.ret who c r) with calls := Function.update s.calls t none }
  | (s, none) =>
    match who with
    | none => s.crash
    | some t => { s with calls := Function.update s.calls t (some c) }

/-- A blocking call from its beginning. -/
def startCall (cfg : Config) (c : Call) (s : State) : State :=
  finishCall s.caller c (callBody cfg c (s.emit (.call s.caller c s.clock)))

/-- The current thread goes on with the call that it is inside of. -/
def resumeCall (cfg : Config) (s : State) : State :=
  match s.current with
  | none => s.crash
  | some t =>
    match s.calls t with
    | none => s.crash
    | some c => finishCall (some t) c (callRest cfg c s)

/-- A kernel call. -/
def execOp (cfg : Config) (o : Op) (s : State) : State :=
  match o with
  | .threadCreate a => (ndThreadCreate cfg a s).1
  | .threadAbort t => (ndThreadAbort cfg t s).1
  | .threadSuspend t => (ndThreadSuspend cfg t s).1
  | .threadResume t => (ndThreadResume cfg t s).1
  | .semRelease i => (ndSemRelease cfg i s).1
  | .eventSend e set => (ndEventSend cfg e set s).1
  | .mempoolFree p ptr => ndMempoolFree cfg p ptr s
  | .timerInit u periodic timeout callback => (ndTimerInit u periodic timeout callback s).1
  | .timerStart u => (ndTimerStart cfg (.user u) s).1
  | .timerStop u => ndTimerStop (.user u) s
  | .mutexUnlock m => (ndMutexUnlock cfg m s).1
  | .threadYield => ndThreadYield cfg s
  | .threadDelay n => ndThreadDelay cfg n s
  | .wait c => startCall cfg c s

/-- The timer that expires first. -/
def leftmostTimer (s : State) : Option TimerId := (s.tree.lists ()).head?

/-- The callback of timer `u`, called with the thread that the timer is embedded in. What the
callback of an application timer does are later calls of the handler. -/
def runCallback (cfg : Config) (u : TimerId) (s : State) : State :=
  match u, (s.timers u).callback with
  | .wait t, .pendTimeout => ndThreadPendTimeout cfg t s
  | .wait t, .threadTimer => threadTimerCallback cfg t s
  | .slice t, .sliceTimeout => ndThreadSliceTimeout cfg t s
  | _, _ => s

/-- One turn of the loop of `timer_expired`, at timer `u`: a periodic timer is armed again before
its callback runs. -/
def expireTimer (cfg : Config) (u : TimerId) (s : State) : State :=
  let s := timerRemove u s
  let s :=
    if (s.timers u).periodic then
      timerNodeInsert u (s.updTimer u fun tm =>
        { tm with expireTime := (tm.expireTime + tm.timeout) % u64Size })
    else s
  runCallback cfg u s

/-- One turn of the loop of `timer_expired`. -/
def timerTurn (cfg : Config) (s : State) : State :=
  match leftmostTimer s with
  | none => s
  | some u => if s.clock < (s.timers u).expireTime then s else expireTimer cfg u s

/-- The end of an interrupt: a sync port calls `nd_schedule_irq_exit`, a deferred port
`nd_try_schedule`. -/
def irqExit (cfg : Config) (s : State) : State :=
  match cfg.port with
  | .sync => ndScheduleIrqExit cfg (ndExitInterrupt s)
  | .deferred => ndTrySchedule cfg (ndExitInterrupt s)

/-- The application writes a byte of the memory of pool `p`. -/
def poolWrite (p ptr : ℕ) (v : BitVec 8) (s : State) : State :=
  s.updPool p fun pl => { pl with mem := Function.update pl.mem ptr v }

/-- The state after an action. -/
def exec (cfg : Config) (a : Action) (s : State) : State :=
  match a with
  | .call o => execOp cfg o s
  | .resume => resumeCall cfg s
  | .irqEnter => ndEnterInterrupt s
  | .irq o => execOp cfg o s
  | .timerFire => timerTurn cfg s
  | .irqExit => irqExit cfg s
  | .pendsv => isrPendsv cfg s
  | .advance n => { s with clock := (s.clock + n) % u64Size }
  | .write p ptr v => poolWrite p ptr v s
  | .start => ndHwDoSwitchFirst cfg s

/-- The current thread executes its own code, outside of interrupts and with no switch pending:
the thread, if it is not the idle thread. -/
def threadMode (s : State) : Option Tid :=
  if s.nest = 0 ∧ s.pendsv = false ∧ s.current ≠ some idleTid then s.current else none

/-- The actions that can happen in a state. -/
def allowed (cfg : Config) (s : State) (a : Action) : Bool :=
  !s.fault &&
  match a with
  | .call o =>
    o.valid s &&
    match threadMode s with
    | some c => s.calls c = none
    | none => s.current = none && o.fromIrq
  | .resume =>
    match threadMode s with
    | some c => s.calls c ≠ none
    | none => false
  | .irqEnter =>
    match s.current, cfg.port with
    | none, _ => false
    | some c, .sync => s.nest = 0 && s.calls c = none
    | some _, .deferred => true
  | .irq o => 0 < s.nest && o.fromIrq && o.valid s
  | .timerFire =>
    0 < s.nest &&
    match leftmostTimer s with
    | none => false
    | some u => (s.timers u).expireTime ≤ s.clock
  | .irqExit => 0 < s.nest
  | .pendsv => s.pendsv && s.nest = 0
  | .advance _ | .write _ _ _ => true
  | .start => s.current = none

/-- The parameters of the objects that the application initialises once, before it uses them. -/
structure Setup where
  sems : ℕ → ℤ := fun _ => 0
  queues : ℕ → BitVec 32 × BitVec 32 := fun _ => (0, 1)
  pools : ℕ → ℕ × ℕ × ℕ := fun _ => (0, 4, 1)
  mem : Bytes.Mem := fun _ => 0

/-- The objects initialised, no thread created yet. -/
def initObjects (u : Setup) : State :=
  { sems := fun i => ndSemInit (u.sems i)
    mutexes := fun _ => ndMutexInit
    msgQueues := fun q => (ndQueueInit u.mem (u.queues q).1 (u.queues q).2).getD {}
    events := fun _ => ndEventInit
    pools := fun p => ndMempoolInit (u.pools p).1 (u.pools p).2.1 (u.pools p).2.2 u.mem }

/-- How `nd_scheduler_init` creates the idle thread. -/
def idleArgs : CreateArgs where
  thread := some idleTid
  name := some 1
  entry := some 1
  priority := ndThreadPriorityMax - 1
  stack := some 1
  stackSize := 512
  options := ndThreadOptEssential
  timeSlice := 0

/-- `nd_scheduler_init`. -/
def ndSchedulerInit (cfg : Config) (s : State) : State := (ndThreadCreate cfg idleArgs s).1

/-- The state in which `main` starts to set up the application. -/
def boot (cfg : Config) (u : Setup) : State := ndSchedulerInit cfg (initObjects u)

/-- The kernel. A critical section that faults never ends, so it leads to no state. -/
def kernel (cfg : Config) : Machine State Action where
  start s := ∃ u, s = boot cfg u
  enabled s a := allowed cfg s a = true ∧ (exec cfg a s).fault = false
  next := exec cfg

instance (cfg : Config) (s : State) (a : Action) : Decidable ((kernel cfg).enabled s a) :=
  inferInstanceAs (Decidable (allowed cfg s a = true ∧ (exec cfg a s).fault = false))

end NerdRtos
