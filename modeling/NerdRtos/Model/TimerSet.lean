import NerdRtos.Lib.Machine
import NerdRtos.Lib.SearchTree
import NerdRtos.Model.Types

/-!
# The timers by themselves

`kernel/nd_timer.c` with the hardware timer below it and the callbacks above it. The clock can move
before every call of the hardware (`moves` says how far), and a callback is any number of calls of
`nd_timer_start` and `nd_timer_stop` between two turns of the loop of `timer_expired`.

The red-black tree is linked by the code here and balanced by `lib/rbtree.c` (`Balancing`). `linked`
says that the node of a timer is not empty, which is the code's own mark.
-/

set_option autoImplicit false

namespace NerdRtos

open SearchTree (BinTree Balancing)

/-- `struct nd_timer`: `callback` says that there is one. -/
structure TimerCtl where
  periodic : Bool := false
  timeout : ℕ := 0
  callback : Bool := false
  linked : Bool := false
  expireTime : ℕ := 0

/-- What happened to timers: a call has started or stopped one, or its callback was called for the
deadline `expire` when the clock was `now`. -/
inductive TimerEvent
  | started (t : ℕ)
  | stopped (t : ℕ)
  | fired (t expire now : ℕ)
  deriving DecidableEq, Repr

/-- No call is under way, `nd_timer_process` is between two turns, or it is inside of a callback. -/
inductive Phase
  | idle
  | loop
  | callback
  deriving DecidableEq, Repr

/-- The timers and their tree, the clock, the alarm and the interrupt of the hardware timer, and the
history, the last event first. -/
structure TimerSet where
  timers : ℕ → TimerCtl := fun _ => {}
  tree : BinTree ℕ := .leaf
  clock : ℕ := 0
  alarm : Option ℕ := none
  pending : Bool := false
  moves : List ℕ := []
  phase : Phase := .idle
  fault : Bool := false
  log : List TimerEvent := []

namespace TimerSet

/-- Change the control block of timer `t`. -/
@[simps] def updTimer (s : TimerSet) (t : ℕ) (f : TimerCtl → TimerCtl) : TimerSet :=
  { s with timers := Function.update s.timers t (f (s.timers t)) }

/-- Append to the history. -/
@[simps] def emit (s : TimerSet) (e : TimerEvent) : TimerSet := { s with log := e :: s.log }

/-! ## The hardware timer -/

/-- The clock moves on by `n`; an alarm that it reaches raises the interrupt. -/
def moveClock (n : ℕ) (s : TimerSet) : TimerSet :=
  if s.alarm.any fun e => e ≤ s.clock + n then
    { s with clock := s.clock + n, alarm := none, pending := true }
  else { s with clock := s.clock + n }

/-- The clock moves on before a call of the hardware. -/
def hwCall (s : TimerSet) : TimerSet := moveClock s.moves.headI { s with moves := s.moves.tail }

/-- `nd_hw_get_current`: the clock, and the state in which it was read. -/
def ndHwGetCurrent (s : TimerSet) : ℕ × TimerSet := ((hwCall s).clock, hwCall s)

/-- `nd_hw_hrtimer_set_expire`: a target that has passed is not armed. -/
def ndHwHrtimerSetExpire (expire : ℕ) (s : TimerSet) : TimerSet :=
  let s := hwCall s
  if s.clock < expire then { s with alarm := some expire } else s

/-- `nd_hw_hrtimer_trigger`. -/
def ndHwHrtimerTrigger (s : TimerSet) : TimerSet := { hwCall s with pending := true }

/-- `nd_hw_hrtimer_trigger_clear`. -/
def ndHwHrtimerTriggerClear (s : TimerSet) : TimerSet :=
  { hwCall s with alarm := none, pending := false }

/-! ## The tree -/

/-- `get_leftmost_timer`. -/
def getLeftmostTimer (s : TimerSet) : Option ℕ := s.tree.first

variable (rb : Balancing ℕ) (cfg : Config)

/-- `timer_node_insert`. -/
def timerNodeInsert (t : ℕ) (s : TimerSet) : TimerSet :=
  let tree := s.tree.descend (fun v => (s.timers t).expireTime < (s.timers v).expireTime) t
  { s.updTimer t fun tm => { tm with linked := true } with tree := rb.insertColor t tree }

/-- `rb_erase` and `RB_CLEAR_NODE`. -/
def timerErase (t : ℕ) (s : TimerSet) : TimerSet :=
  { s.updTimer t fun tm => { tm with linked := false } with tree := rb.erase t s.tree }

/-- The hardware is programmed for the leftmost timer `l`, and asked for an interrupt at once when
its deadline has passed. -/
def armLeftmost (l : ℕ) (s : TimerSet) : TimerSet :=
  let s := ndHwHrtimerSetExpire (s.timers l).expireTime s
  let (now, s) := ndHwGetCurrent s
  if (s.timers l).expireTime ≤ now then ndHwHrtimerTrigger s else s

/-- The deadline that `timer_insert` computes in the tickless build. -/
def deadline (timeout now : ℕ) : ℕ :=
  if (u64Size - 1) / 2 ≤ timeout then u64Size - 1 else (timeout + now) % u64Size

/-- `timer_insert`. -/
def timerInsert (t : ℕ) (s : TimerSet) : TimerSet :=
  if cfg.tickless then
    let (now, s) := ndHwGetCurrent s
    let s := s.updTimer t fun tm => { tm with expireTime := deadline tm.timeout now }
    let s := timerNodeInsert rb t s
    match getLeftmostTimer s with
    | none => s
    | some l =>
      let s := if l = t then ndHwHrtimerSetExpire (s.timers l).expireTime s else s
      if (s.timers l).expireTime ≤ now then ndHwHrtimerTrigger s else s
  else timerNodeInsert rb t s

/-- `timer_remove`. -/
def timerRemove (t : ℕ) (s : TimerSet) : TimerSet :=
  if (s.timers t).linked = false then s
  else if cfg.tickless then
    if getLeftmostTimer s = some t then
      let s := timerErase rb t s
      match getLeftmostTimer s with
      | none => ndHwHrtimerTriggerClear s
      | some l => armLeftmost l s
    else
      match getLeftmostTimer s with
      | none => { s with fault := true }
      | some l =>
        let (now, s) := ndHwGetCurrent (timerErase rb t s)
        if (s.timers l).expireTime ≤ now then ndHwHrtimerTrigger s else s
  else timerErase rb t s

/-! ## The calls -/

/-- `nd_timer_init`, for a timer with a callback or without. -/
def ndTimerInit (t : ℕ) (periodic : Bool) (timeout : ℕ) (callback : Bool) (s : TimerSet) :
    TimerSet :=
  if callback = false then s
  else if timeout = 0 then s
  else s.updTimer t fun tm => { tm with periodic, timeout, callback, linked := false }

/-- `nd_timer_start`. -/
def ndTimerStart (t : ℕ) (s : TimerSet) : TimerSet :=
  if (s.timers t).callback = false then s
  else
    let s := if (s.timers t).linked then timerRemove rb cfg t s else s
    let s :=
      if cfg.tickless then s
      else
        let (now, s) := ndHwGetCurrent s
        s.updTimer t fun tm => { tm with expireTime := (now + tm.timeout) % u64Size }
    (timerInsert rb cfg t s).emit (.started t)

/-- `nd_timer_stop`. -/
def ndTimerStop (t : ℕ) (s : TimerSet) : TimerSet := (timerRemove rb cfg t s).emit (.stopped t)

/-- One turn of the loop of `timer_expired` that finds a timer, up to its callback. -/
def expireLeftmost (l now : ℕ) (s : TimerSet) : TimerSet :=
  let s' := timerErase rb l s
  let s' :=
    if (s'.timers l).periodic then
      timerNodeInsert rb l (s'.updTimer l fun tm =>
        { tm with expireTime := (tm.expireTime + tm.timeout) % u64Size })
    else s'
  if (s'.timers l).callback then
    { s'.emit (.fired l (s.timers l).expireTime now) with phase := .callback }
  else s'

/-- One turn of the loop of `timer_expired`, and what comes after it. -/
def timerExpired (s : TimerSet) : TimerSet :=
  match getLeftmostTimer s with
  | none => { if cfg.tickless then ndHwHrtimerTriggerClear s else s with phase := .idle }
  | some l =>
    let (now, s) := ndHwGetCurrent s
    if now < (s.timers l).expireTime then
      { if cfg.tickless then armLeftmost l s else s with phase := .idle }
    else expireLeftmost rb l now s

/-- `nd_timer_process` begins. The interrupt that calls it is not pending any more. -/
def ndTimerProcess (s : TimerSet) : TimerSet := { s with phase := .loop, pending := false }

end TimerSet

/-! ## The machine -/

/-- What can happen to the timers. The lists say how far the clock moves before each call of the
hardware. `retime` is a write to `timeout`, as the kernel does it before it starts the timer of a
thread. -/
inductive TimerAction
  | init (t : ℕ) (periodic : Bool) (timeout : ℕ) (callback : Bool)
  | retime (t timeout : ℕ)
  | start (t : ℕ) (moves : List ℕ)
  | stop (t : ℕ) (moves : List ℕ)
  | process
  | turn (moves : List ℕ)
  | callbackReturns
  | advance (n : ℕ)
  deriving DecidableEq

namespace TimerSet

/-- A call during which the clock moves. -/
def during (moves : List ℕ) (f : TimerSet → TimerSet) (s : TimerSet) : TimerSet :=
  { f { s with moves } with moves := [] }

/-- The calls are made while no other is under way, or by a callback. -/
def callable (s : TimerSet) : Bool := s.phase ≠ .loop

/-- The actions that can happen in a state: only initialised timers are started and stopped, and no
armed timer is initialised. -/
def allowed (s : TimerSet) : TimerAction → Bool
  | .init t _ _ _ => s.callable && !(s.timers t).linked
  | .retime _ _ => s.callable
  | .start t _ | .stop t _ => s.callable && (s.timers t).callback
  | .process => s.phase = .idle
  | .turn _ => s.phase = .loop
  | .callbackReturns => s.phase = .callback
  | .advance _ => true

/-- The state after an action. -/
def exec (rb : Balancing ℕ) (cfg : Config) (a : TimerAction) (s : TimerSet) : TimerSet :=
  match a with
  | .init t periodic timeout callback => ndTimerInit t periodic timeout callback s
  | .retime t timeout => s.updTimer t fun tm => { tm with timeout }
  | .start t moves => during moves (ndTimerStart rb cfg t) s
  | .stop t moves => during moves (ndTimerStop rb cfg t) s
  | .process => ndTimerProcess s
  | .turn moves => during moves (timerExpired rb cfg) s
  | .callbackReturns => { s with phase := .loop }
  | .advance n => moveClock n s

end TimerSet

/-- The timers. The clock is a counter of 64 bits that does not come to its end. -/
def timerMachine (rb : Balancing ℕ) (cfg : Config) : Machine TimerSet TimerAction where
  start s := ∃ n < u64Size, s = { clock := n }
  enabled s a := s.allowed a = true ∧ (s.exec rb cfg a).clock < u64Size
  next a s := s.exec rb cfg a

instance (rb : Balancing ℕ) (cfg : Config) (s : TimerSet) (a : TimerAction) :
    Decidable ((timerMachine rb cfg).enabled s a) :=
  inferInstanceAs (Decidable (s.allowed a = true ∧ (s.exec rb cfg a).clock < u64Size))

end NerdRtos
