import NerdRtos.Lib.Intrusive
import NerdRtos.Lib.Bytes
import Mathlib.Data.Int.Notation
import Mathlib.Tactic.Simps.Basic

/-!
# The kernel's data

The control blocks of `include/nd_thread.h`, `include/nd_ipc.h`, `include/nd_mem.h` and
`include/nd_timer.h`, and the globals of `kernel/nd_scheduler.c`, `kernel/nd_thread.c` and
`kernel/nd_timer.c`, gathered in one `State`.

The list nodes embedded in the control blocks are families of intrusive lists
(`Intrusive.Queues`): `qnode` is on a ready list or on a wait list, `owner_list` on the
`taken_list` of a thread, `tlist` on `nd_thread_list`, and the red-black node of a timer in
the timer tree, of which only the in-order sequence is kept. A timer node is empty exactly
when it is not in the tree. `nd_list_remove` on a node that is on no list dereferences
`ND_NULL`, and an insertion of a node that is on a list breaks both lists: either sets
`fault`, and a state with a fault has no successor.

`log` and `picks` are history: the code never reads them.
-/

set_option autoImplicit false

namespace NerdRtos

open Intrusive (Queues)

/-- A thread, named by its control block. -/
abbrev Tid := ℕ

/-- A mutex, named by its control block. -/
abbrev Mid := ℕ

/-- `k_idle_thread`. -/
def idleTid : Tid := 0

/-- `ND_THREAD_PRIORITY_MAX`. -/
def ndThreadPriorityMax : ℕ := 32

/-- The number of values of `nd_uint64_t`. -/
def u64Size : ℕ := 2 ^ 64

/-- Conversion to `nd_uint32_t`, and to a pointer of the 32-bit ports. -/
def u32 (n : ℕ) : ℕ := n % 2 ^ 32

/-- `ND_TIMEOUT_FOREVER`. -/
def ndTimeoutForever : ℕ := 2 ^ 64 - 1

/-- `ND_TIMEOUT_NOWAIT`. -/
def ndTimeoutNowait : ℕ := 0

/-- `nd_err_t`: the error numbers that the modelled functions return. -/
inductive Err
  | eok
  | error
  | etimeout
  | efull
  | eempty
  | ebusy
  | einval
  | eperm
  | edeadlk
  deriving DecidableEq, Repr

/-- `nd_thread_stat_t`. -/
inductive Stat
  | init
  | ready
  | running
  | block
  | suspend
  | dead
  deriving DecidableEq, Repr

/-- `nd_event_opt_t`. -/
inductive EventOpt
  | and
  | or
  deriving DecidableEq, Repr

/-- `ND_THREAD_OPT_ESSENTIAL`. -/
def ndThreadOptEssential : BitVec 32 := 1

/-- The list heads that a thread's `qnode` can be linked to. -/
inductive QHead
  | ready (p : ℕ)
  | join (t : Tid)
  | sem (i : ℕ)
  | mutex (m : Mid)
  | queueSend (q : ℕ)
  | queueRead (q : ℕ)
  | event (e : ℕ)
  | pool (p : ℕ)
  deriving DecidableEq, Repr

/-- The heads that threads wait on, as opposed to the ready lists. -/
def QHead.isWait : QHead → Bool
  | .ready _ => false
  | _ => true

/-- A timer, named by the control block it is embedded in: a thread's wait timer, a thread's
slice timer, or a timer of the application. -/
inductive TimerId
  | wait (t : Tid)
  | slice (t : Tid)
  | user (u : ℕ)
  deriving DecidableEq, Repr

/-- The `callback` of a timer. -/
inductive Callback
  | none
  | pendTimeout
  | threadTimer
  | sliceTimeout
  | user
  deriving DecidableEq, Repr

/-- `struct nd_timer`, without its name and tree node. `periodic` is `ND_TIMER_TYPE_PERIODIC`. -/
structure Timer where
  periodic : Bool := false
  timeout : ℕ := 0
  callback : Callback := .none
  expireTime : ℕ := 0

/-- `struct nd_thread`, without its stack, entry, name and list nodes. -/
structure Thread where
  priority : ℕ := 0
  initPriority : ℕ := 0
  yield : Bool := false
  error : Err := .eok
  stat : Stat := .init
  options : BitVec 32 := 0
  timeSlice : ℕ := 0
  sliceLeft : ℕ := 0
  sliceStart : ℕ := 0
  eventSet : BitVec 32 := 0
  eventOpt : EventOpt := .and

/-- `struct nd_sem`. -/
structure Sem where
  val : ℤ := 0

/-- `struct nd_mutex`. -/
structure Mutex where
  priority : ℕ := ndThreadPriorityMax
  owner : Option Tid := none

/-- `struct nd_queue`; `buf` is the memory from `queue->buf` on. -/
structure Queue where
  buf : Bytes.Mem := fun _ => 0
  msgSize : BitVec 32 := 0
  maxMsgs : BitVec 32 := 0
  usedMsg : BitVec 32 := 0
  readPtr : BitVec 32 := 0
  writePtr : BitVec 32 := 0

/-- `struct nd_event`. -/
structure EventGroup where
  set : BitVec 64 := 0

/-- `struct nd_mempool`, with the memory that the pool manages. -/
structure Mempool where
  start : ℕ := 0
  blockSize : ℕ := 0
  blockCount : ℕ := 0
  freeCount : ℕ := 0
  freeList : ℕ := 0
  mem : Bytes.Mem := fun _ => 0

/-- The calls that can block, with their arguments. -/
inductive Call
  | semTake (i : ℕ) (timeout : ℕ)
  | mutexLock (m : Mid) (timeout : ℕ)
  | queueSend (q : ℕ) (msg : List (BitVec 8)) (timeout : ℕ)
  | queueRecv (q : ℕ) (timeout : ℕ)
  | eventRecv (e : ℕ) (set : BitVec 32) (opt : EventOpt) (timeout : ℕ)
  | mempoolAlloc (p : ℕ) (timeout : ℕ)
  | threadJoin (t : Option Tid) (timeout : ℕ)
  deriving DecidableEq, Repr

/-- The timeout of a call. -/
def Call.timeout : Call → ℕ
  | .semTake _ n | .mutexLock _ n | .queueSend _ _ n | .queueRecv _ n | .eventRecv _ _ _ n
  | .mempoolAlloc _ n | .threadJoin _ n => n

/-- What a call returns: an error number, or the pointer of `nd_mempool_alloc`. -/
inductive Ret
  | err (e : Err)
  | block (p : Option ℕ)
  deriving DecidableEq, Repr

/-- The history of the inter-thread operations. `who` is the calling thread, `none` for an
interrupt handler and for `main`; `asked` are the bits that a receiver of an event asked for, `seen`
and `left` the set of the event before and after the grant; `woken` notes the waiters of queues and
pools, which are not handed what they wait for. -/
inductive Event
  | call (who : Option Tid) (c : Call) (clock : ℕ)
  | ret (who : Option Tid) (c : Call) (r : Ret)
  | pend (t : Tid) (h : QHead) (stat : Stat) (linked : Bool)
  | semTaken (who : Option Tid) (i : ℕ)
  | semHanded (t : Tid) (i : ℕ)
  | semReleased (i : ℕ)
  | eventSent (e : ℕ) (set : BitVec 32)
  | eventTaken (who : Option Tid) (e : ℕ) (asked : BitVec 32) (seen left : BitVec 64)
  | eventHanded (t : Tid) (e : ℕ) (asked : BitVec 32) (seen left : BitVec 64)
  | msgSent (q : ℕ) (msg : List (BitVec 8))
  | msgReceived (q : ℕ) (msg : List (BitVec 8))
  | blockFreed (p ptr : ℕ)
  | woken (t : Tid) (h : QHead)
  deriving DecidableEq, Repr

/-- One evaluation of `nd_schedule_pick_next`: what it meets, which is the current thread, its state
and priority and the first ready thread with its priority, and then the successor it decides on and
whether the current thread was rotated. -/
structure Pick where
  current : Tid
  stat : Stat
  priority : ℕ
  first : Option (Tid × ℕ)
  next : Option Tid
  rotate : Bool
  deriving DecidableEq, Repr

/-- The kernel's memory, the registers that the ports keep (`pendsv` is the pending PendSV
exception of the Cortex-M ports) and, for each thread, the blocking call that it is inside of. -/
structure State where
  threads : Tid → Thread := fun _ => {}
  queues : Queues QHead Tid := Queues.empty
  taken : Queues Tid Mid := Queues.empty
  threadList : Queues Unit Tid := Queues.empty
  readyBit : BitVec 32 := 0
  current : Option Tid := none
  next : Option Tid := none
  nest : ℕ := 0
  trySwitch : Bool := false
  timers : TimerId → Timer := fun _ => {}
  tree : Queues Unit TimerId := Queues.empty
  clock : ℕ := 0
  sems : ℕ → Sem := fun _ => {}
  mutexes : Mid → Mutex := fun _ => {}
  msgQueues : ℕ → Queue := fun _ => {}
  events : ℕ → EventGroup := fun _ => {}
  pools : ℕ → Mempool := fun _ => {}
  pendsv : Bool := false
  calls : Tid → Option Call := fun _ => none
  log : List Event := []
  picks : List Pick := []
  fault : Bool := false

/-- How a port switches threads: `sync` ports (arch/arm/a9, arch/riscv/rv32) switch inside
`nd_hw_do_switch`, `deferred` ports (arch/arm/m3, m4, m7, m33) pend the PendSV exception. -/
inductive Port
  | sync
  | deferred
  deriving DecidableEq, Repr

/-- The build: the port, `ND_CFG_TICKLESS` and `ND_CFG_DEBUG`. -/
structure Config where
  port : Port
  tickless : Bool
  debug : Bool

namespace State

/-- Change the control block of thread `t`. -/
@[simps] def updThread (s : State) (t : Tid) (f : Thread → Thread) : State :=
  { s with threads := Function.update s.threads t (f (s.threads t)) }

/-- Change the control block of timer `u`. -/
@[simps] def updTimer (s : State) (u : TimerId) (f : Timer → Timer) : State :=
  { s with timers := Function.update s.timers u (f (s.timers u)) }

/-- Append to the history. -/
@[simps] def emit (s : State) (e : Event) : State := { s with log := e :: s.log }

/-- The code dereferences `ND_NULL`, breaks a list, or never returns. -/
@[simps] def crash (s : State) : State := { s with fault := true }

/-- `nd_list_remove(&thread->qnode)`. -/
@[simps] def listRemove (s : State) (t : Tid) : State :=
  { s with queues := s.queues.unlink t, fault := s.fault || (s.queues.home t).isNone }

/-- Insertion of `thread->qnode` into list `h`, in front of the first thread that satisfies `p`. -/
@[simps] def listInsert (s : State) (p : Tid → Bool) (h : QHead) (t : Tid) : State :=
  { s with queues := s.queues.link p h t, fault := s.fault || (s.queues.home t).isSome }

/-- `nd_list_is_empty`. -/
def listIsEmpty (s : State) (h : QHead) : Bool := (s.queues.lists h).isEmpty

/-- `nd_list_is_linked(&thread->qnode)`. -/
def isLinked (s : State) (t : Tid) : Bool := (s.queues.home t).isSome

/-- The timer is in the tree: `!RB_EMPTY_NODE(&timer->node)`. -/
def isArmed (s : State) (u : TimerId) : Bool := (s.tree.home u).isSome

/-- The thread on whose behalf a kernel call runs: none in an interrupt handler and in `main`. -/
def caller (s : State) : Option Tid := if s.nest = 0 then s.current else none

end State

end NerdRtos
