import NerdRtos.Model.Rbtree
import NerdRtos.Model.TimerSet

/-!
# The timers on their tree

`kernel/nd_timer.c` once more, on the tree as it is in memory: the nodes of the timers are linked by
pointers, and that a timer is armed is read from its node. The fields beside the tree and the
hardware are those of a `TimerSet`, whose own tree and marks nothing reads here. A call has no
result when one on the tree has none.
-/

set_option autoImplicit false

namespace NerdRtos

open RedBlack (Side)

/-- The timers and the memory of their nodes. -/
structure TimerTree where
  set : TimerSet
  mem : RbTree ℕ

namespace TimerTree

/-- A call of the hardware. -/
def hw (f : TimerSet → TimerSet) (p : TimerTree) : TimerTree := { p with set := f p.set }

/-- Change the control block of timer `t`. -/
def updTimer (p : TimerTree) (t : ℕ) (f : TimerCtl → TimerCtl) : TimerTree :=
  { p with set := p.set.updTimer t f }

/-- Append to the history. -/
def emit (p : TimerTree) (e : TimerEvent) : TimerTree := { p with set := p.set.emit e }

/-! ## The tree -/

variable (turns : ℕ) (cfg : Config)

/-- `get_leftmost_timer`. -/
def getLeftmostTimer (p : TimerTree) : Option (Option ℕ) := p.mem.rbFirst turns

/-- The loop of `timer_node_insert`: down to a pointer that is `NULL`. `later` says which nodes
expire later than the timer. -/
def descend (later : ℕ → Bool) (mem : RbTree ℕ) : ℕ → RbLink ℕ → Option ℕ →
    Option (RbLink ℕ × Option ℕ)
  | 0, _, _ => none
  | turns + 1, link, parent =>
    match mem.load link with
    | none => some (link, parent)
    | some v => descend later mem turns (.child (if later v then Side.left else .right) v) (some v)

/-- `timer_node_insert`. -/
def timerNodeInsert (t : ℕ) (p : TimerTree) : Option TimerTree := do
  let later := fun v => decide ((p.set.timers t).expireTime < (p.set.timers v).expireTime)
  let (link, parent) ← descend later p.mem turns .root none
  let mem ← RbTree.rbInsertColor turns t (p.mem.rbLinkNode t parent link)
  return { p with mem }

/-- `rb_erase` and `RB_CLEAR_NODE`. -/
def timerErase (t : ℕ) (p : TimerTree) : Option TimerTree := do
  let mem ← p.mem.rbErase turns t
  return { p with mem := mem.rbClearNode t }

/-- `timer_insert`. -/
def timerInsert (t : ℕ) (p : TimerTree) : Option TimerTree :=
  if cfg.tickless then do
    let now := (TimerSet.ndHwGetCurrent p.set).1
    let p := (p.hw fun s => (TimerSet.ndHwGetCurrent s).2).updTimer t fun tm =>
      { tm with expireTime := TimerSet.deadline tm.timeout now }
    let p ← timerNodeInsert turns t p
    match ← getLeftmostTimer turns p with
    | none => return p
    | some l =>
      let expire := (p.set.timers l).expireTime
      let p := if l = t then p.hw (TimerSet.ndHwHrtimerSetExpire expire) else p
      return if expire ≤ now then p.hw TimerSet.ndHwHrtimerTrigger else p
  else timerNodeInsert turns t p

/-- `timer_remove`. -/
def timerRemove (t : ℕ) (p : TimerTree) : Option TimerTree :=
  if p.mem.rbEmptyNode t then some p
  else if cfg.tickless then do
    let leftmost ← getLeftmostTimer turns p
    if leftmost = some t then
      let p ← timerErase turns t p
      match ← getLeftmostTimer turns p with
      | none => return p.hw TimerSet.ndHwHrtimerTriggerClear
      | some l => return p.hw (TimerSet.armLeftmost l)
    else
      let p ← timerErase turns t p
      let now := (TimerSet.ndHwGetCurrent p.set).1
      let p := p.hw fun s => (TimerSet.ndHwGetCurrent s).2
      let l ← leftmost
      return if (p.set.timers l).expireTime ≤ now then p.hw TimerSet.ndHwHrtimerTrigger else p
  else timerErase turns t p

/-! ## The calls -/

/-- `nd_timer_init`, for a timer with a callback or without. -/
def ndTimerInit (t : ℕ) (periodic : Bool) (timeout : ℕ) (callback : Bool) (p : TimerTree) :
    TimerTree :=
  if callback = false then p
  else if timeout = 0 then p
  else
    let p := p.updTimer t fun tm => { tm with periodic, timeout, callback }
    { p with mem := p.mem.rbClearNode t }

/-- `nd_timer_start`. -/
def ndTimerStart (t : ℕ) (p : TimerTree) : Option TimerTree :=
  if (p.set.timers t).callback = false then some p
  else do
    let p ← (if p.mem.rbEmptyNode t then some p else timerRemove turns cfg t p)
    let p :=
      if cfg.tickless then p
      else
        let now := (TimerSet.ndHwGetCurrent p.set).1
        (p.hw fun s => (TimerSet.ndHwGetCurrent s).2).updTimer t fun tm =>
          { tm with expireTime := (now + tm.timeout) % u64Size }
    let p ← timerInsert turns cfg t p
    return p.emit (.started t)

/-- `nd_timer_stop`. -/
def ndTimerStop (t : ℕ) (p : TimerTree) : Option TimerTree := do
  let p ← timerRemove turns cfg t p
  return p.emit (.stopped t)

/-- One turn of the loop of `timer_expired` that finds a timer, up to its callback. -/
def expireLeftmost (l now : ℕ) (p : TimerTree) : Option TimerTree := do
  let p' ← timerErase turns l p
  let p' ←
    (if (p'.set.timers l).periodic then
      timerNodeInsert turns l (p'.updTimer l fun tm =>
        { tm with expireTime := (tm.expireTime + tm.timeout) % u64Size })
    else some p')
  return if (p'.set.timers l).callback then
    (p'.emit (.fired l (p.set.timers l).expireTime now)).hw ({ · with phase := .callback })
  else p'

/-- One turn of the loop of `timer_expired`, and what comes after it. -/
def timerExpired (p : TimerTree) : Option TimerTree := do
  match ← getLeftmostTimer turns p with
  | none =>
    let p := if cfg.tickless then p.hw TimerSet.ndHwHrtimerTriggerClear else p
    return p.hw ({ · with phase := .idle })
  | some l =>
    let now := (TimerSet.ndHwGetCurrent p.set).1
    let p := p.hw fun s => (TimerSet.ndHwGetCurrent s).2
    if now < (p.set.timers l).expireTime then
      let p := if cfg.tickless then p.hw (TimerSet.armLeftmost l) else p
      return p.hw ({ · with phase := .idle })
    else expireLeftmost turns l now p

/-- A call during which the clock moves. -/
def during (moves : List ℕ) (f : TimerTree → Option TimerTree) (p : TimerTree) : Option TimerTree :=
  (f (p.hw ({ · with moves }))).map fun p => p.hw ({ · with moves := [] })

/-- The actions that can happen in a state: only initialised timers are started and stopped, and no
armed timer is initialised. -/
def allowed (p : TimerTree) : TimerAction → Bool
  | .init t _ _ _ => p.set.callable && (!(p.set.timers t).callback || p.mem.rbEmptyNode t)
  | .retime _ _ => p.set.callable
  | .start t _ | .stop t _ => p.set.callable && (p.set.timers t).callback
  | .process => p.set.phase = .idle
  | .turn _ => p.set.phase = .loop
  | .callbackReturns => p.set.phase = .callback
  | .advance _ => true

/-- The state after an action. -/
def exec (a : TimerAction) (p : TimerTree) : Option TimerTree :=
  match a with
  | .init t periodic timeout callback => some (ndTimerInit t periodic timeout callback p)
  | .retime t timeout => some (p.updTimer t fun tm => { tm with timeout })
  | .start t moves => during moves (ndTimerStart turns cfg t) p
  | .stop t moves => during moves (ndTimerStop turns cfg t) p
  | .process => some (p.hw TimerSet.ndTimerProcess)
  | .turn moves => during moves (timerExpired turns cfg) p
  | .callbackReturns => some (p.hw ({ · with phase := .loop }))
  | .advance n => some (p.hw (TimerSet.moveClock n))

end TimerTree

/-- The timers that an action is about. -/
def TimerAction.timer : TimerAction → Option ℕ
  | .init t _ _ _ | .retime t _ | .start t _ | .stop t _ => some t
  | .process | .turn _ | .callbackReturns | .advance _ => none

/-- The timers `0` to `n - 1` on their tree. The state is missing behind a call without result. -/
def timerTreeMachine (n : ℕ) (cfg : Config) : Machine (Option TimerTree) TimerAction where
  start p := ∃ node, ∃ k < u64Size,
    p = some { set := { clock := k }, mem := { node, rbNode := none } }
  enabled p a := a.timer.all (· < n) = true ∧ p.all (·.allowed a) = true ∧
    (p.bind (TimerTree.exec (rbTurns n) cfg a)).all (·.set.clock < u64Size) = true
  next a p := p.bind (TimerTree.exec (rbTurns n) cfg a)

instance (n : ℕ) (cfg : Config) (p : Option TimerTree) (a : TimerAction) :
    Decidable ((timerTreeMachine n cfg).enabled p a) :=
  inferInstanceAs (Decidable (_ = true ∧ _ = true ∧ _ = true))

end NerdRtos
