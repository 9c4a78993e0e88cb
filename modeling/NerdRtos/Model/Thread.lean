import NerdRtos.Model.Scheduler

/-!
# Threads

`kernel/nd_thread.c`: waiting and waking, suspension and resumption, and the life cycle from
`nd_thread_create` to `nd_thread_halt`.
-/

set_option autoImplicit false

namespace NerdRtos

/-- `nd_thread_resume`. -/
def ndThreadResume (cfg : Config) (t : Tid) (s : State) : State × Err :=
  if (s.threads t).stat ≠ .suspend then (s, .error)
  else
    let s := s.updThread t fun th => { th with stat := .ready }
    (ndScheduler cfg (ndThreadReadyAddTail t s), .eok)

/-- `nd_thread_pend_timeout`. -/
def ndThreadPendTimeout (cfg : Config) (t : Tid) (s : State) : State :=
  let s := s.updThread t fun th => { th with stat := .ready, error := .etimeout }
  let s := s.listRemove t
  ndScheduler cfg (ndThreadReadyAddTail t s)

/-- `nd_thread_wait_insert`: in front of the first waiter with a numerically larger priority. -/
def ndThreadWaitInsert (h : QHead) (t : Tid) (s : State) : State :=
  s.listInsert (fun pos => (s.threads t).priority < (s.threads pos).priority) h t

/-- `nd_thread_pend`: the current thread joins wait list `h`. -/
def ndThreadPend (cfg : Config) (h : QHead) (timeout : ℕ) (s : State) : State :=
  match s.current with
  | none => s.crash
  | some c =>
    let s := s.emit (.pend c h (s.threads c).stat (s.isLinked c))
    let s := ndThreadWaitInsert h c s
    let s := s.updThread c fun th => { th with error := .eok, stat := .block }
    if timeout ≠ ndTimeoutForever then
      let s := s.updTimer (.wait c) fun tm => { tm with timeout, callback := .pendTimeout }
      (ndTimerStart cfg (.wait c) s).1
    else s

/-- `nd_thread_wakeup`: the first thread of wait list `h` becomes ready. On an empty list the
code would take the list head for a thread. -/
def ndThreadWakeup (h : QHead) (s : State) : State × Option Tid :=
  match (s.queues.lists h).head? with
  | none => (s.crash, none)
  | some t =>
    let s := ndTimerStop (.wait t) s
    let s := s.updThread t fun th => { th with error := .eok, stat := .ready }
    let s := s.listRemove t
    (ndThreadReadyAddTail t s, some t)

/-- `nd_thread_suspend`. -/
def ndThreadSuspend (cfg : Config) (t : Tid) (s : State) : State × Err :=
  if (s.taken.lists t).isEmpty = false then (s, .eperm)
  else
    match (s.threads t).stat with
    | .ready =>
      let s := ndThreadReadyRemove t s
      (s.updThread t fun th => { th with stat := .suspend }, .eok)
    | .running =>
      let s := s.updThread t fun th => { th with stat := .suspend }
      (ndScheduler cfg s, .eok)
    | .block =>
      let s := s.updThread t fun th => { th with stat := .suspend }
      let s := if s.isLinked t then s.listRemove t else s
      let s := ndTimerStop (.wait t) s
      (ndScheduler cfg s, .eok)
    | _ => (s, .error)

/-- The joiner loop of `nd_thread_halt`: wake the first thread of `h` while there is one. The
first argument bounds the number of turns. -/
def wakeAll (h : QHead) : ℕ → State → State
  | 0, s => s
  | n + 1, s => if s.listIsEmpty h then s else wakeAll h n (ndThreadWakeup h s).1

/-- `nd_thread_halt`. -/
def ndThreadHalt (cfg : Config) (t : Tid) (s : State) : State :=
  if (s.threads t).stat = .dead then s
  else
    let s :=
      match (s.threads t).stat with
      | .ready => ndThreadReadyRemove t s
      | .block => if s.isLinked t then s.listRemove t else s
      | _ => s
    let s := s.updThread t fun th => { th with stat := .dead }
    let s := ndTimerStop (.wait t) s
    let s := ndTimerStop (.slice t) s
    let s :=
      { s with
        threadList := s.threadList.unlink t
        fault := s.fault || (s.threadList.home t).isNone }
    let s := wakeAll (.join t) (s.queues.lists (.join t)).length s
    if s.current = some t then ndScheduler cfg s else s

/-- The arguments of `nd_thread_create`; pointers are `none` for `ND_NULL`. -/
structure CreateArgs where
  thread : Option Tid
  name : Option ℕ
  entry : Option ℕ
  priority : ℕ
  stack : Option ℕ
  stackSize : ℕ
  options : BitVec 32
  timeSlice : ℕ
  deriving DecidableEq

/-- Something of the kernel is still linked to the control block of `t`, and the list and timer
initialisations of `nd_thread_init` would cut it off. -/
def State.inUse (s : State) (t : Tid) : Bool :=
  s.isLinked t || (s.threadList.home t).isSome || !(s.taken.lists t).isEmpty ||
    !s.listIsEmpty (.join t) || s.isArmed (.wait t) || s.isArmed (.slice t)

/-- `nd_thread_init`: the thread starts outside of every call. -/
def ndThreadInit (t : Tid) (a : CreateArgs) (s : State) : State :=
  let s := if s.inUse t then s.crash else s
  let s := s.updThread t fun th =>
    { th with
      priority := a.priority
      initPriority := a.priority
      timeSlice := a.timeSlice
      sliceLeft := a.timeSlice
      sliceStart := 0
      yield := false
      stat := .init
      eventSet := 0
      eventOpt := .and }
  let s := s.updTimer (.wait t) fun tm => { tm with periodic := false }
  let s := s.updTimer (.slice t) fun tm =>
    { tm with periodic := false, callback := .sliceTimeout }
  { s with calls := Function.update s.calls t none }

/-- `nd_thread_create`. -/
def ndThreadCreate (cfg : Config) (a : CreateArgs) (s : State) : State × Err :=
  match a.thread with
  | none => (s, .einval)
  | some t =>
    if a.name = none ∨ a.entry = none ∨ a.stack = none ∨ a.stackSize = 0 ∨
        ndThreadPriorityMax ≤ a.priority then (s, .einval)
    else
      let s := ndThreadInit t a s
      let s := s.updThread t fun th => { th with options := a.options, stat := .ready }
      let s := { s with threadList := s.threadList.link (fun _ => false) () t }
      (ndScheduler cfg (ndThreadReadyAddTail t s), .eok)

/-- `nd_is_thread_essential`. -/
def ndIsThreadEssential (th : Thread) : Bool := th.options &&& ndThreadOptEssential ≠ 0

/-- `nd_thread_abort`. -/
def ndThreadAbort (cfg : Config) (t : Option Tid) (s : State) : State × Err :=
  match t with
  | none => (s, .einval)
  | some t =>
    if (s.threads t).stat = .dead then (s, .eok)
    else if ndIsThreadEssential (s.threads t) then (s, .eperm)
    else (ndThreadHalt cfg t s, .eok)

/-- `nd_thread_join`; `none` when the caller has been put on the join list and the call has not
returned yet. -/
def ndThreadJoin (cfg : Config) (t : Option Tid) (timeout : ℕ) (s : State) :
    State × Option Ret :=
  match t with
  | none => (s, some (.err .einval))
  | some t =>
    if s.current = some t then (s, some (.err .edeadlk))
    else if (s.threads t).stat = .dead then (s, some (.err .eok))
    else if timeout = ndTimeoutNowait then (s, some (.err .ebusy))
    else (ndScheduler cfg (ndThreadPend cfg (.join t) timeout s), none)

end NerdRtos
