import NerdRtos.Model.Types

/-!
# Starting and stopping timers

`kernel/nd_timer.c`, without the expiry loop (which calls back into the scheduler) and
without the hardware alarm of the tickless build: the tree of armed timers is the
in-order sequence of the red-black tree, and `timer_node_insert` descends to the right of
every timer that does not expire later than the new one.
-/

set_option autoImplicit false

namespace NerdRtos

/-- `nd_hw_get_current`. -/
def ndHwGetCurrent (s : State) : ℕ := s.clock

/-- `timer_node_insert`. -/
@[simps] def timerNodeInsert (u : TimerId) (s : State) : State :=
  { s with
    tree := s.tree.link (fun v => (s.timers u).expireTime < (s.timers v).expireTime) () u
    fault := s.fault || (s.tree.home u).isSome }

/-- `timer_insert`: the tickless build computes the expiry here. -/
def timerInsert (cfg : Config) (u : TimerId) (s : State) : State :=
  if cfg.tickless then
    let now := ndHwGetCurrent s
    timerNodeInsert u (s.updTimer u fun t =>
      { t with
        expireTime :=
          if (u64Size - 1) / 2 ≤ t.timeout then u64Size - 1 else (t.timeout + now) % u64Size })
  else timerNodeInsert u s

/-- `timer_remove`: a timer that is not in the tree stays out of it. -/
@[simps] def timerRemove (u : TimerId) (s : State) : State :=
  { s with tree := s.tree.unlink u }

/-- `nd_timer_start`: refuses a timer without a callback, restarts one that is armed. -/
def ndTimerStart (cfg : Config) (u : TimerId) (s : State) : State × Err :=
  if (s.timers u).callback = .none then (s, .einval)
  else
    let s := if s.isArmed u then timerRemove u s else s
    let s :=
      if cfg.tickless then s
      else s.updTimer u fun t =>
        { t with expireTime := (ndHwGetCurrent s + t.timeout) % u64Size }
    (timerInsert cfg u s, .eok)

/-- `nd_timer_stop`. -/
def ndTimerStop (u : TimerId) (s : State) : State := timerRemove u s

/-- `nd_timer_init` for a timer of the application. `RB_CLEAR_NODE` on an armed timer would
leave the tree with a node that is marked empty. -/
def ndTimerInit (u : ℕ) (periodic : Bool) (timeout : ℕ) (callback : Callback) (s : State) :
    State × Err :=
  if callback = .none then (s, .einval)
  else if timeout = 0 then (s, .einval)
  else
    let s := s.updTimer (.user u) fun t => { t with periodic, timeout, callback }
    (if s.isArmed (.user u) then s.crash else s, .eok)

end NerdRtos
