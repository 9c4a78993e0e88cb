import NerdRtos.Model.Thread

/-!
# Semaphores, mutexes, message queues, events and memory pools

`kernel/nd_sem.c`, `kernel/nd_mutex.c`, `kernel/nd_queue.c`, `kernel/nd_event.c` and
`kernel/nd_mempool.c`.

A call that blocks returns `none` for its result: on a sync port the thread has been
switched out inside `nd_scheduler`, on a deferred port it is switched out at
`nd_kernel_unlock`, and the rest of the call runs when it is dispatched again
(`NerdRtos.Model.System`). The three calls that wait in a `while` loop take a bound on its turns
within one critical section; `nd_scheduler` coming back with the same current thread
(always on a deferred port) goes on with the next turn.
-/

set_option autoImplicit false

namespace NerdRtos

/-! ## Semaphores -/

/-- `nd_sem_init`. -/
def ndSemInit (initVal : ℤ) : Sem := { val := initVal }

/-- Set the count of semaphore `i`. -/
@[simps] def State.updSem (s : State) (i : ℕ) (f : Sem → Sem) : State :=
  { s with sems := Function.update s.sems i (f (s.sems i)) }

/-- `nd_sem_release`. -/
def ndSemRelease (cfg : Config) (i : ℕ) (s : State) : State × Err :=
  let s := s.emit (.semReleased i)
  if s.listIsEmpty (.sem i) then (s.updSem i fun m => { m with val := m.val + 1 }, .eok)
  else
    match ndThreadWakeup (.sem i) s with
    | (s, none) => (s, .eok)
    | (s, some t) => (ndScheduler cfg (s.emit (.semHanded t i)), .eok)

/-- `nd_sem_take`. -/
def ndSemTake (cfg : Config) (i : ℕ) (timeout : ℕ) (s : State) : State × Option Ret :=
  if 0 < (s.sems i).val then
    let s := s.updSem i fun m => { m with val := m.val - 1 }
    (s.emit (.semTaken s.caller i), some (.err .eok))
  else if timeout = ndTimeoutNowait then (s, some (.err .ebusy))
  else (ndScheduler cfg (ndThreadPend cfg (.sem i) timeout s), none)

/-! ## Mutexes -/

/-- `nd_mutex_init`. -/
def ndMutexInit : Mutex := { priority := ndThreadPriorityMax, owner := none }

/-- Change the control block of mutex `m`. -/
@[simps] def State.updMutex (s : State) (m : Mid) (f : Mutex → Mutex) : State :=
  { s with mutexes := Function.update s.mutexes m (f (s.mutexes m)) }

/-- `nd_list_insert_after(&thread->mutex.taken_list, &mutex->owner_list)`. -/
@[simps] def takenInsert (t : Tid) (m : Mid) (s : State) : State :=
  { s with
    taken := s.taken.link (fun _ => true) t m
    fault := s.fault || (s.taken.home m).isSome }

/-- `nd_list_remove(&mutex->owner_list)`. -/
@[simps] def takenRemove (m : Mid) (s : State) : State :=
  { s with taken := s.taken.unlink m, fault := s.fault || (s.taken.home m).isNone }

/-- `nd_thread_change_priority`. -/
def ndThreadChangePriority (t : Tid) (newPriority : ℕ) (s : State) : State :=
  if (s.threads t).stat = .ready then
    let s := ndThreadReadyRemove t s
    let s := s.updThread t fun th => { th with priority := newPriority }
    ndThreadReadyAddHead t s
  else s.updThread t fun th => { th with priority := newPriority }

/-- The loop of `nd_mutex_restore_priority`: the lowest of a priority and the cached priorities
of the mutexes of a taken list. -/
def lowestPriority (mutexes : Mid → Mutex) (p : ℕ) (ms : List Mid) : ℕ :=
  ms.foldl (fun p m => if (mutexes m).priority < p then (mutexes m).priority else p) p

/-- `nd_mutex_restore_priority`. -/
def ndMutexRestorePriority (t : Tid) (s : State) : State :=
  s.updThread t fun th =>
    { th with priority := lowestPriority s.mutexes th.initPriority (s.taken.lists t) }

/-- `nd_mutex_unlock`. -/
def ndMutexUnlock (cfg : Config) (m : Mid) (s : State) : State × Err :=
  match s.current with
  | none => (s.crash, .eperm)
  | some c =>
    if (s.mutexes m).owner ≠ some c then (s, .eperm)
    else
      let s := takenRemove m s
      let s := ndMutexRestorePriority c s
      if s.listIsEmpty (.mutex m) then
        (s.updMutex m fun mx => { mx with owner := none, priority := ndThreadPriorityMax }, .eok)
      else
        match ndThreadWakeup (.mutex m) s with
        | (s, none) => (s, .eok)
        | (s, some t) =>
          let s := s.updMutex m fun mx => { mx with owner := some t }
          let s := takenInsert t m s
          (ndScheduler cfg s, .eok)

/-- The priority inheritance of `nd_mutex_lock`: thread `c` raises owner `o` of mutex `m`. -/
def boostOwner (m : Mid) (o c : Tid) (s : State) : State :=
  if (s.threads c).priority < (s.threads o).priority then
    let p := (s.threads c).priority
    ndThreadChangePriority o p (s.updMutex m fun mx => { mx with priority := p })
  else s

/-- `nd_mutex_lock`. -/
def ndMutexLock (cfg : Config) (m : Mid) (timeout : ℕ) (s : State) : State × Option Ret :=
  match s.current with
  | none => (s.crash, none)
  | some c =>
    match (s.mutexes m).owner with
    | none =>
      let s := s.updMutex m fun mx => { mx with owner := some c }
      (takenInsert c m s, some (.err .eok))
    | some o =>
      if o = c then (s, some (.err .edeadlk))
      else
        let s := boostOwner m o c s
        if timeout = ndTimeoutNowait then (s, some (.err .ebusy))
        else (ndScheduler cfg (ndThreadPend cfg (.mutex m) timeout s), none)

/-! ## Message queues -/

/-- `nd_queue_init`: `none` for `ND_EINVAL`. -/
def ndQueueInit (buf : Bytes.Mem) (msgSize maxMsgs : BitVec 32) : Option Queue :=
  if maxMsgs &&& (maxMsgs - 1) ≠ 0 ∨ maxMsgs.toNat < 1 then none
  else some { buf, msgSize, maxMsgs }

/-- The offset of the slot that a free-running pointer is at:
`(ptr & (queue->max_msgs - 1)) * queue->msg_size`. -/
def Queue.slot (u : Queue) (ptr : BitVec 32) : ℕ := ((ptr &&& (u.maxMsgs - 1)) * u.msgSize).toNat

/-- The message that is copied in from `msg`. -/
def Queue.copyIn (u : Queue) (msg : List (BitVec 8)) : List (BitVec 8) :=
  Bytes.copy msg u.msgSize.toNat

/-- The message at the slot of a free-running pointer. -/
def Queue.copyOut (u : Queue) (ptr : BitVec 32) : List (BitVec 8) :=
  Bytes.load u.buf (u.slot ptr) u.msgSize.toNat

/-- Change the control block of message queue `q`. -/
@[simps] def State.updQueue (s : State) (q : ℕ) (f : Queue → Queue) : State :=
  { s with msgQueues := Function.update s.msgQueues q (f (s.msgQueues q)) }

/-- The error of the current thread, as the blocking calls read it after `nd_scheduler`. -/
def State.currentError (s : State) : Err :=
  match s.current with
  | none => .eok
  | some c => (s.threads c).error

/-- Wake the first thread of `h`, if there is one, and reschedule. -/
def wakeupIfAny (cfg : Config) (h : QHead) (s : State) : State :=
  if s.listIsEmpty h then s
  else
    match ndThreadWakeup h s with
    | (s, none) => s
    | (s, some t) => ndScheduler cfg (s.emit (.woken t h))

/-- `nd_queue_send`. -/
def ndQueueSend (cfg : Config) (q : ℕ) (msg : List (BitVec 8)) (timeout : ℕ) :
    ℕ → State → State × Option Ret
  | 0, s => (s.crash, none)
  | n + 1, s =>
    if (s.msgQueues q).usedMsg = (s.msgQueues q).maxMsgs then
      if timeout = ndTimeoutNowait then (s, some (.err .efull))
      else
        let s' := ndScheduler cfg (ndThreadPend cfg (.queueSend q) timeout s)
        if s'.current ≠ s.current then (s', none)
        else if s'.currentError = .etimeout then (s', some (.err .etimeout))
        else ndQueueSend cfg q msg timeout n s'
    else
      let s := s.emit (.msgSent q ((s.msgQueues q).copyIn msg))
      let s := s.updQueue q fun u =>
        { u with
          buf := Bytes.store u.buf (u.slot u.writePtr) (u.copyIn msg)
          writePtr := u.writePtr + 1
          usedMsg := u.usedMsg + 1 }
      (wakeupIfAny cfg (.queueRead q) s, some (.err .eok))

/-- `nd_queue_recv`; the message is copied out to the history. -/
def ndQueueRecv (cfg : Config) (q : ℕ) (timeout : ℕ) : ℕ → State → State × Option Ret
  | 0, s => (s.crash, none)
  | n + 1, s =>
    if (s.msgQueues q).usedMsg = 0 then
      if timeout = ndTimeoutNowait then (s, some (.err .eempty))
      else
        let s' := ndScheduler cfg (ndThreadPend cfg (.queueRead q) timeout s)
        if s'.current ≠ s.current then (s', none)
        else if s'.currentError = .etimeout then (s', some (.err .etimeout))
        else ndQueueRecv cfg q timeout n s'
    else
      let s := s.emit (.msgReceived q ((s.msgQueues q).copyOut (s.msgQueues q).readPtr))
      let s := s.updQueue q fun u => { u with readPtr := u.readPtr + 1, usedMsg := u.usedMsg - 1 }
      (wakeupIfAny cfg (.queueSend q) s, some (.err .eok))

/-! ## Events -/

/-- `nd_event_init`. -/
def ndEventInit : EventGroup := { set := 0 }

/-- Change the control block of event `e`. -/
@[simps] def State.updEvent (s : State) (e : ℕ) (f : EventGroup → EventGroup) : State :=
  { s with events := Function.update s.events e (f (s.events e)) }

/-- `nd_event_is_satisfied`; the first argument is truncated to `nd_uint32_t` by the call. -/
def ndEventIsSatisfied (set : BitVec 64) (eventSet : BitVec 32) (opt : EventOpt) : Bool :=
  match opt with
  | .and => set.setWidth 32 &&& eventSet = eventSet
  | .or => set.setWidth 32 &&& eventSet ≠ 0

/-- `event->set &= ~set`, with the complement taken on 32 bits. -/
def clearBits (set : BitVec 64) (eventSet : BitVec 32) : BitVec 64 :=
  set &&& (~~~eventSet).setWidth 64

/-- `nd_event_wakeup`. -/
def ndEventWakeup (t : Tid) (s : State) : State :=
  let s := s.listRemove t
  let s := ndTimerStop (.wait t) s
  let s := s.updThread t fun th => { th with stat := .ready }
  ndThreadReadyAddTail t s

/-- One turn of the loop of `nd_event_send`, at waiter `t`. -/
def eventVisit (e : ℕ) (s : State) (t : Tid) : State :=
  if ndEventIsSatisfied (s.events e).set (s.threads t).eventSet (s.threads t).eventOpt then
    let s' := s.updEvent e fun g => { g with set := clearBits g.set (s.threads t).eventSet }
    ndEventWakeup t
      (s'.emit (.eventHanded t e (s.threads t).eventSet (s.events e).set (s'.events e).set))
  else s

/-- `nd_event_send`: `nd_list_for_each_entry_safe` visits the waiters in list order. -/
def ndEventSend (cfg : Config) (e : ℕ) (set : BitVec 32) (s : State) : State × Err :=
  let s := s.emit (.eventSent e set)
  let s := s.updEvent e fun g => { g with set := g.set ||| set.setWidth 64 }
  (ndScheduler cfg ((s.queues.lists (.event e)).foldl (eventVisit e) s), .eok)

/-- `nd_event_recv`. -/
def ndEventRecv (cfg : Config) (e : ℕ) (set : BitVec 32) (opt : EventOpt) (timeout : ℕ)
    (s : State) : State × Option Ret :=
  match s.current with
  | none => (s.crash, none)
  | some c =>
    let s := s.updThread c fun th => { th with eventSet := set, eventOpt := opt }
    if ndEventIsSatisfied (s.events e).set set opt then
      let s' := s.updEvent e fun g => { g with set := clearBits g.set set }
      (s'.emit (.eventTaken s.caller e set (s.events e).set (s'.events e).set), some (.err .eok))
    else if timeout = ndTimeoutNowait then (s, some (.err .ebusy))
    else (ndScheduler cfg (ndThreadPend cfg (.event e) timeout s), none)

/-! ## Memory pools -/

/-- The loop of `nd_mempool_init` over the blocks from `i` on: each block's first word points to
the next block. -/
def linkBlocks (start blockSize blockCount : ℕ) : ℕ → ℕ → Bytes.Mem → Bytes.Mem
  | _, 0, mem => mem
  | i, n + 1, mem =>
    let current := u32 (start + i * blockSize)
    let next := if i < blockCount - 1 then u32 (start + (i + 1) * blockSize) else 0
    linkBlocks start blockSize blockCount (i + 1) n (Bytes.store32 mem current next)

/-- `ND_ALIGN(size, sizeof(void *))`. -/
def ndAlign4 (size : ℕ) : ℕ := u32 (size + 3) / 4 * 4

/-- `nd_mempool_init`. -/
def ndMempoolInit (start blockSize blockCount : ℕ) (mem : Bytes.Mem) : Mempool :=
  { start
    blockSize := ndAlign4 blockSize
    blockCount
    freeCount := blockCount
    freeList := start
    mem := linkBlocks start blockSize blockCount 0 blockCount mem }

/-- Change the control block and the memory of pool `p`. -/
@[simps] def State.updPool (s : State) (p : ℕ) (f : Mempool → Mempool) : State :=
  { s with pools := Function.update s.pools p (f (s.pools p)) }

/-- `nd_mempool_alloc`. -/
def ndMempoolAlloc (cfg : Config) (p : ℕ) (timeout : ℕ) : ℕ → State → State × Option Ret
  | 0, s => (s.crash, none)
  | n + 1, s =>
    if (s.pools p).freeCount = 0 then
      if timeout = ndTimeoutNowait then (s, some (.block none))
      else
        let s' := ndScheduler cfg (ndThreadPend cfg (.pool p) timeout s)
        if s'.current ≠ s.current then (s', none)
        else if s'.currentError = .etimeout then (s', some (.block none))
        else ndMempoolAlloc cfg p timeout n s'
    else
      let block := (s.pools p).freeList
      let s := s.updPool p fun pl =>
        { pl with freeList := Bytes.load32 pl.mem block, freeCount := pl.freeCount - 1 }
      (s, some (.block (some block)))

/-- The assertions of `nd_mempool_free`, checked in a debug build only. -/
def ndMempoolFreeOk (pl : Mempool) (ptr : ℕ) : Bool :=
  pl.start ≤ ptr && ptr < u32 (pl.start + pl.blockSize * pl.blockCount) &&
    (ptr - pl.start) % pl.blockSize = 0

/-- `nd_mempool_free`. -/
def ndMempoolFree (cfg : Config) (p ptr : ℕ) (s : State) : State :=
  if cfg.debug ∧ ndMempoolFreeOk (s.pools p) ptr = false then s.crash
  else
    let s := s.emit (.blockFreed p ptr)
    let s := s.updPool p fun pl =>
      { pl with
        mem := Bytes.store32 pl.mem ptr pl.freeList
        freeList := ptr
        freeCount := u32 (pl.freeCount + 1) }
    wakeupIfAny cfg (.pool p) s

end NerdRtos
