import NerdRtos.Model.Timer

/-!
# The scheduler

`kernel/nd_scheduler.c` and `nd_ffs` of `include/nd_bitops.h`. Both ports run the same
code up to `nd_hw_do_switch`: a sync port calls `nd_context_switch_cb` there and then, a
deferred port pends the PendSV exception, whose handler calls it later (`isrPendsv`).
-/

set_option autoImplicit false

namespace NerdRtos

/-- `__builtin_ctz`: the index of the lowest set bit. -/
def ctz (v : BitVec 32) : ℕ := ((List.range 32).find? fun i => v.getLsbD i).getD 32

/-- `nd_ffs`: one more than the index of the lowest set bit, `0` when there is none. -/
def ndFfs (v : BitVec 32) : ℕ := if v = 0 then 0 else ctz v + 1

/-- `k_thread_ready_bit |= (1u << prio)`. -/
@[simps] def setReadyBit (p : ℕ) (s : State) : State :=
  { s with readyBit := s.readyBit ||| (1#32 <<< p) }

/-- `k_thread_ready_bit &= ~(1u << prio)`. -/
@[simps] def clearReadyBit (p : ℕ) (s : State) : State :=
  { s with readyBit := s.readyBit &&& ~~~(1#32 <<< p) }

/-- `nd_thread_ready_add_tail`. -/
def ndThreadReadyAddTail (t : Tid) (s : State) : State :=
  let prio := (s.threads t).priority
  if ndThreadPriorityMax ≤ prio then s
  else setReadyBit prio (s.listInsert (fun _ => false) (.ready prio) t)

/-- `nd_thread_ready_add_head`. -/
def ndThreadReadyAddHead (t : Tid) (s : State) : State :=
  let prio := (s.threads t).priority
  if ndThreadPriorityMax ≤ prio then s
  else setReadyBit prio (s.listInsert (fun _ => true) (.ready prio) t)

/-- `nd_thread_ready_remove`. -/
def ndThreadReadyRemove (t : Tid) (s : State) : State :=
  let prio := (s.threads t).priority
  if ndThreadPriorityMax ≤ prio then s
  else
    let s := s.listRemove t
    if s.listIsEmpty (.ready prio) then clearReadyBit prio s else s

/-- `nd_get_highest_priority_thread`: the first thread of the lowest list whose bit is set. -/
def ndGetHighestPriorityThread (s : State) : Option Tid :=
  match ndFfs s.readyBit with
  | 0 => none
  | p + 1 => (s.queues.lists (.ready p)).head?

/-- `nd_should_switch`: whether to switch to `next`, whether that is a rotation, and the state
with the rotation request of the current thread consumed. -/
def ndShouldSwitch (next : Tid) (s : State) : Bool × Bool × State :=
  match s.current with
  | none => (false, false, s)
  | some c =>
    if (s.threads next).priority < (s.threads c).priority then (true, false, s)
    else if (s.threads next).priority = (s.threads c).priority ∧ (s.threads c).yield = true then
      (true, true, s.updThread c fun th => { th with yield := false })
    else if (s.threads c).stat ≠ .running then (true, false, s)
    else (false, false, s)

/-- The end of `nd_schedule_pick_next`: a current thread that is still running goes back to its
ready list, to the head when a higher priority preempts it, to the tail otherwise. -/
def requeueCurrent (next : Tid) (rrRotate : Bool) (s : State) : State :=
  match s.current with
  | none => s
  | some c =>
    if (s.threads c).stat = .running then
      let preemptedByHigher := (s.threads next).priority < (s.threads c).priority
      let s := s.updThread c fun th => { th with stat := .ready }
      let s :=
        if rrRotate ∧ (s.threads c).timeSlice ≠ 0 then
          s.updThread c fun th => { th with sliceLeft := th.timeSlice, sliceStart := 0 }
        else s
      if preemptedByHigher then ndThreadReadyAddHead c s else ndThreadReadyAddTail c s
    else s

/-- What `nd_schedule_pick_next` decides, with the successor and the rotation. -/
def pickNext (s : State) : Option Tid × Bool × State :=
  match ndGetHighestPriorityThread s with
  | none => (none, false, s)
  | some next =>
    match ndShouldSwitch next s with
    | (false, _, s') => (none, false, s')
    | (true, rr, s') => (some next, rr, requeueCurrent next rr s')

/-- Record one evaluation of `nd_schedule_pick_next` in the history. -/
def notePick (s : State) (next : Option Tid) (rotate : Bool) : List Pick :=
  match s.current with
  | none => []
  | some c =>
    let first := (ndGetHighestPriorityThread s).map fun n => (n, (s.threads n).priority)
    [⟨c, (s.threads c).stat, (s.threads c).priority, first, next, rotate⟩]

/-- `nd_schedule_pick_next`. -/
def ndSchedulePickNext (s : State) : Option Tid × State :=
  match pickNext s with
  | (next, rr, s') => (next, { s' with picks := notePick s next rr ++ s'.picks })

/-- The settlement of the slice of the thread that is switched out. -/
def settleSlice (p : Tid) (now : ℕ) (s : State) : State :=
  if (s.threads p).timeSlice ≠ 0 then
    let s :=
      if (s.threads p).sliceStart ≠ 0 ∧ (s.threads p).sliceLeft ≠ 0 then
        let elapsed := (now + u64Size - (s.threads p).sliceStart) % u64Size
        s.updThread p fun th =>
          { th with sliceLeft := if th.sliceLeft ≤ elapsed then 0 else th.sliceLeft - elapsed }
      else s
    let s := ndTimerStop (.slice p) s
    s.updThread p fun th => { th with sliceStart := 0 }
  else s

/-- The slice of the thread that is switched in: its timer runs only beside an equal-priority
ready thread. -/
def startSlice (cfg : Config) (n : Tid) (now : ℕ) (s : State) : State :=
  if (s.threads n).timeSlice ≠ 0 ∧ (s.threads n).priority < ndThreadPriorityMax ∧
      ¬ s.listIsEmpty (.ready (s.threads n).priority) then
    let s :=
      if (s.threads n).sliceLeft = 0 ∨ (s.threads n).timeSlice < (s.threads n).sliceLeft then
        s.updThread n fun th => { th with sliceLeft := th.timeSlice }
      else s
    let s := ndTimerStop (.slice n) s
    let s := s.updTimer (.slice n) fun tm => { tm with timeout := (s.threads n).sliceLeft }
    let s := s.updThread n fun th => { th with sliceStart := now }
    (ndTimerStart cfg (.slice n) s).1
  else if (s.threads n).timeSlice ≠ 0 then
    let s := ndTimerStop (.slice n) s
    s.updThread n fun th => { th with sliceLeft := th.timeSlice, sliceStart := 0 }
  else s

/-- `nd_context_switch_cb`. -/
def ndContextSwitchCb (cfg : Config) (next : Option Tid) (s : State) : State :=
  match next with
  | none => s
  | some n =>
    let prev := s.current
    let now := ndHwGetCurrent s
    let s := ndThreadReadyRemove n s
    let s :=
      match prev with
      | none => s
      | some p => settleSlice p now s
    let s := { s with next := none, current := some n }
    let s := s.updThread n fun th => { th with stat := .running }
    startSlice cfg n now s

/-- `nd_hw_do_switch`. -/
def ndHwDoSwitch (cfg : Config) (s : State) : State :=
  match cfg.port with
  | .sync => ndContextSwitchCb cfg s.next s
  | .deferred => { s with pendsv := true }

/-- `nd_schedule_core`. -/
def ndScheduleCore (cfg : Config) (s : State) : State :=
  match ndSchedulePickNext s with
  | (none, s) => s
  | (some next, s) => ndHwDoSwitch cfg { s with next := some next }

/-- `nd_schedule_irq_exit`. -/
def ndScheduleIrqExit (cfg : Config) (s : State) : State :=
  if s.trySwitch then
    match ndSchedulePickNext { s with trySwitch := false } with
    | (none, s) => s
    | (some next, s) => ndContextSwitchCb cfg (some next) s
  else s

/-- `nd_scheduler`. -/
def ndScheduler (cfg : Config) (s : State) : State :=
  if 0 < s.nest then { s with trySwitch := true } else ndScheduleCore cfg s

/-- `nd_thread_slice_timeout`. -/
def ndThreadSliceTimeout (cfg : Config) (t : Tid) (s : State) : State :=
  if s.current ≠ some t then s
  else if ndThreadPriorityMax ≤ (s.threads t).priority ∨
      s.listIsEmpty (.ready (s.threads t).priority) then s
  else
    ndScheduler cfg (s.updThread t fun th =>
      { th with yield := true, sliceLeft := 0, sliceStart := 0 })

/-- `nd_enter_interrupt`. -/
def ndEnterInterrupt (s : State) : State := { s with nest := s.nest + 1 }

/-- `nd_exit_interrupt`. -/
def ndExitInterrupt (s : State) : State := { s with nest := s.nest - 1 }

/-- `nd_try_schedule`. -/
def ndTrySchedule (cfg : Config) (s : State) : State :=
  if 0 < s.nest then s
  else if s.trySwitch then ndScheduleCore cfg { s with trySwitch := false }
  else s

/-- `isr_pendsv` with a current thread: the handler consumes `nd_next_thread`. -/
def isrPendsv (cfg : Config) (s : State) : State :=
  ndContextSwitchCb cfg s.next { s with pendsv := false }

/-- `nd_hw_do_switch_first`, called by `nd_scheduler_start`. -/
def ndHwDoSwitchFirst (cfg : Config) (s : State) : State :=
  ndContextSwitchCb cfg (ndGetHighestPriorityThread s) s

/-- `nd_thread_yield`. -/
def ndThreadYield (cfg : Config) (s : State) : State :=
  match s.current with
  | none => s.crash
  | some c => ndScheduler cfg (s.updThread c fun th => { th with yield := true })

/-- `thread_timer_callback`: the end of a delay. -/
def threadTimerCallback (cfg : Config) (t : Tid) (s : State) : State :=
  let s := s.updThread t fun th => { th with stat := .ready }
  let s :=
    if (s.threads t).timeSlice ≠ 0 then
      s.updThread t fun th => { th with sliceLeft := th.timeSlice, sliceStart := 0 }
    else s
  ndScheduler cfg (ndThreadReadyAddTail t s)

/-- `nd_thread_delay`. -/
def ndThreadDelay (cfg : Config) (delay : ℕ) (s : State) : State :=
  match s.current with
  | none => s.crash
  | some c =>
    let s :=
      if (s.threads c).timeSlice ≠ 0 then
        (ndTimerStop (.slice c) s).updThread c fun th =>
          { th with sliceLeft := th.timeSlice, sliceStart := 0 }
      else s
    let s := s.updThread c fun th => { th with stat := .block }
    let s := s.updTimer (.wait c) fun tm => { tm with timeout := delay, callback := .threadTimer }
    ndScheduler cfg (ndTimerStart cfg (.wait c) s).1

end NerdRtos
