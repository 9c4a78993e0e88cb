import NerdRtos.Analysis.StepEffects
import NerdRtos.Lib.Tokens

/-!
# The tokens of the semaphores

`State.tokens` reads a counter with its waiters off a semaphore and the history. Every effect is
at most one move of that counter (`Effect.tokens`), so tokens are conserved in every run
(`tokens_conserved`).
-/

set_option autoImplicit false

namespace NerdRtos

open Tokens

variable {cfg : Config} {s x y : State} {a : Action} {t : Tid} {i : ℕ}
  {init : ℤ}

/-- The event is a release of semaphore `i`. -/
def Event.releases (i : ℕ) : Event → Bool
  | .semReleased j => j = i
  | _ => false

/-- The event is a grant of semaphore `i`: an immediate decrement or a hand-over. -/
def Event.grants (i : ℕ) : Event → Bool
  | .semTaken _ j | .semHanded _ j => j = i
  | _ => false

/-- The event is a hand-over of semaphore `i` to thread `t`. -/
def Event.hands (i : ℕ) (t : Tid) : Event → Bool
  | .semHanded u j => u = t && j = i
  | _ => false

/-- The event is an execution of `nd_thread_pend` for thread `t` on semaphore `i`. -/
def Event.waitsFor (i : ℕ) (t : Tid) : Event → Bool
  | .pend u (.sem j) _ _ => u = t && j = i
  | _ => false

/-- Semaphore `i` as a counter with waiters. -/
def State.tokens (s : State) (i : ℕ) : World Tid where
  val := (s.sems i).val
  waiting := s.queues.lists (.sem i)
  released := s.log.countP (Event.releases i)
  granted := s.log.countP (Event.grants i)
  waits t := s.log.countP (Event.waitsFor i t)
  handed t := s.log.countP (Event.hands i t)

/-- The moves of the counter in a step with action `a` from state `s`: only a release hands a token
over, at the beginning of the step, and nobody joins the list in that step. -/
def TokenMove (i : ℕ) (s : State) (a : Action) (w : World Tid) : Move Tid → Prop
  | .hand _ => a.op? = some (.semRelease i) ∧ w = s.tokens i
  | .wait _ _ => a.op? ≠ some (.semRelease i)
  | _ => True

/-- A run of the counter within the step. -/
abbrev TokenRun (init : ℤ) (i : ℕ) (s : State) (a : Action) (x y : State) : Prop :=
  (machine Tid init).Path (TokenMove i s a) (x.tokens i) (y.tokens i)

/-- Where the tokens are the same nothing was moved. -/
theorem TokenRun.of_eq (h : y.tokens i = x.tokens i) : TokenRun init i s a x y := by
  unfold TokenRun
  rw [h]
  exact .refl

/-- One move of a token. -/
theorem TokenRun.single (mv : Move Tid) (hfit : mv.fits (x.tokens i))
    (hmv : TokenMove i s a (x.tokens i) mv) (h : y.tokens i = mv.apply (x.tokens i)) :
      TokenRun init i s a x y := by
  unfold TokenRun
  rw [h]
  exact Machine.Path.single (M := machine Tid init) mv hfit hmv

/-- A thread that leaves its list moves no token. -/
theorem TokenRun.left (f : Thread → Thread) : TokenRun init i s a x (x.left t f) :=
  .single (.leave t) trivial trivial rfl

/-- A call that returns moves no token. -/
theorem tokens_returned (x : State) (who : Option Tid) (c : Call) (r : Ret) :
    (x.returned who c r).tokens i = x.tokens i := by
  cases who <;> rfl

/-- Waking a waiter of a queue or a pool moves no token. -/
theorem TokenRun.served (k : QHead) : TokenRun init i s a x (x.served k) := by
  unfold State.served
  split
  · exact .of_eq rfl
  · exact .left wakeEdit

/-- A thread that joins the wait list of another object. -/
theorem tokens_joined_of_ne {k : QHead} (hk : k ≠ .sem i) :
    (x.joined t k).tokens i = x.tokens i := by
  have hlist : (x.joined t k).queues.lists (.sem i) = x.queues.lists (.sem i) := by
    rw [State.joined_queues]
    exact x.queues.lists_link_of_ne _ _ (Ne.symm hk)
  have hwaits : ∀ u, (x.joined t k).log.countP (Event.waitsFor i u) =
      x.log.countP (Event.waitsFor i u) := by
    intro u
    have hp : Event.waitsFor i u (.pend t k (x.threads t).stat (x.isLinked t)) = false := by
      unfold Event.waitsFor
      split
      · rename_i j _ _ heq
        cases heq
        have hj : j ≠ i := by
          rintro rfl
          exact hk rfl
        simp [hj]
      · rfl
    simp [hp]
  unfold State.tokens
  rw [hlist]
  simp only [hwaits]
  rfl

/-- A free thread joins the wait list of the semaphore when there is no token. -/
theorem TokenRun.joined (hv : (x.sems i).val ≤ 0) (hfree : x.queues.home t = none)
    (ha : a.op? ≠ some (.semRelease i)) : TokenRun init i s a x (x.joined t (.sem i)) := by
  refine .single (.wait t ((x.joined t (.sem i)).queues.lists (.sem i))) ⟨hv, ?_, ?_⟩ ha ?_
  · exact x.queues.not_mem_of_free hfree _
  · rw [State.joined_queues, x.queues.lists_link _ _ hfree, if_pos rfl]
    exact Intrusive.insertWhere_perm _ _ _
  · have hwaits : (fun u => (x.joined t (.sem i)).log.countP (Event.waitsFor i u)) =
        Function.update (fun u => x.log.countP (Event.waitsFor i u)) t
          (x.log.countP (Event.waitsFor i t) + 1) := by
      funext u
      by_cases hu : u = t
      · subst hu
        simp [Event.waitsFor]
      · simp [Event.waitsFor, hu, Ne.symm hu]
    unfold State.tokens
    rw [hwaits]
    rfl

/-- Every effect is at most one move of the counter of a semaphore. -/
theorem Effect.tokens (hJ : ConsistentBut Set.univ x) (he : Effect a s x y) (i : ℕ) :
    TokenRun init i s a x y := by
  have hfree : ∀ {u : Tid}, (x.threads u).stat = .running → x.queues.home u = none :=
    fun hr => hJ.home_none (by rw [hr]; decide) (by rw [hr]; decide)
  cases he with
  | nothing | environment | enter | write | eventScratch | resume | delay | delayEnd | drop =>
    exact .of_eq rfl
  | returns r hw hl hr hb => exact .of_eq (tokens_returned x _ _ r)
  | blocks hw hm hk hn =>
    rename_i u c k
    by_cases hki : k = .sem i
    · subst hki
      cases c with
      | semTake j n =>
        cases hk
        refine TokenRun.joined hm (hfree (hw.runs u rfl).2) fun ha => ?_
        rcases hw.acts with ⟨hact, -⟩ | ⟨rfl, -⟩
        · rw [ha] at hact
          cases hact
        · cases ha
      | threadJoin v n => cases v <;> cases hk
      | _ => cases hk
    · have hjoined : (x.joined u k).tokens i = x.tokens i := tokens_joined_of_ne hki
      exact .of_eq hjoined
  | semTake hw hv =>
    rename_i who j n
    have hret := tokens_returned (i := i) ((x.updSem j fun m => { m with val := m.val - 1 }).emit
      (.semTaken who j)) who (.semTake j n) (.err .eok)
    by_cases hji : j = i
    · subst hji
      refine .single .take hv trivial (hret.trans ?_)
      simp [State.tokens, Move.apply, Event.releases, Event.grants, Event.hands, Event.waitsFor]
    · refine .of_eq (hret.trans ?_)
      simp [State.tokens, Event.releases, Event.grants, Event.hands, Event.waitsFor, hji,
        Ne.symm hji]
  | semRelease ha hl =>
    rename_i j
    by_cases hji : j = i
    · subst hji
      refine .single .release hl trivial ?_
      simp [State.tokens, Move.apply, Event.releases, Event.grants, Event.hands, Event.waitsFor]
    · refine .of_eq ?_
      simp [State.tokens, Event.releases, Event.grants, Event.hands, Event.waitsFor, hji,
        Ne.symm hji]
  | semHand ha hl =>
    rename_i j t
    by_cases hji : j = i
    · subst hji
      refine .single (.hand t) hl ⟨ha, rfl⟩ ?_
      have hhands : (fun u => (((s.emit (.semReleased j)).left t wakeEdit).emit
          (.semHanded t j)).log.countP (Event.hands j u)) =
          Function.update (fun u => s.log.countP (Event.hands j u)) t
            (s.log.countP (Event.hands j t) + 1) := by
        funext u
        by_cases hu : u = t
        · subst hu
          simp [Event.hands]
        · simp [Event.hands, hu, Ne.symm hu]
      unfold State.tokens
      rw [hhands]
      simp [Move.apply, World.leave, Event.releases, Event.grants, Event.waitsFor, State.left]
    · refine .single (.leave t) trivial trivial ?_
      simp [State.tokens, Move.apply, World.leave, Event.releases, Event.grants, Event.hands,
        Event.waitsFor, State.left, hji]
  | lock hw ho => exact .of_eq (tokens_returned (x.handed _ _) _ _ _)
  | contend ha hw ho hoc hx =>
    rename_i m o c n
    have hraised : (x.raised m o c).tokens i = x.tokens i := by
      rw [State.raised_eq]
      rfl
    split
    · exact .of_eq ((tokens_returned _ _ _ _).trans hraised)
    · have hne : QHead.mutex m ≠ .sem i := by simp
      exact .of_eq ((tokens_joined_of_ne (x := x.raised m o c) hne).trans hraised)
  | hand ha hc hi ho hl => exact .left wakeEdit
  | send hw hq =>
    rename_i who q msg n
    have hserved : TokenRun init i s a (x.sent q msg) ((x.sent q msg).served (.queueRead q)) :=
      .served _
    exact hserved.trans (TokenRun.of_eq (tokens_returned _ _ _ _))
  | recv hw hq =>
    rename_i who q n
    have hserved : TokenRun init i s a (x.received q) ((x.received q).served (.queueSend q)) :=
      .served _
    exact hserved.trans (TokenRun.of_eq (tokens_returned _ _ _ _))
  | alloc hw hp => exact .of_eq (tokens_returned (x.allocated _) _ _ _)
  | free ha =>
    rename_i p ptr
    have hserved : TokenRun init i s a (s.put p ptr) ((s.put p ptr).served (.pool p)) := .served _
    exact hserved
  | eventSend ha =>
    rename_i e set
    refine visited_induction (P := TokenRun init i s a (s.posted e set))
      (fun z t hz _ => ?_) s.queues .refl
    unfold State.visited
    split
    · set z₁ := z.granted e (z.threads t).eventSet (.eventHanded t e (z.threads t).eventSet)
      have hleft : TokenRun init i s a z₁ (z₁.left t readyEdit) := .left readyEdit
      have hgranted : z₁.tokens i = z.tokens i := rfl
      rw [TokenRun, hgranted] at hleft
      exact hz.trans hleft
    · exact hz
  | eventTake hw hs => exact .of_eq (tokens_returned (x.granted _ _ _) _ _ _)
  | create ha hb ht hst htk hu =>
    refine .of_eq ?_
    rw [created_eq hu]
    rfl
  | suspend | timeout | wakeJoiner => exact .left _
  | finish ha he hst => exact TokenRun.left endEdit

/-- The semaphore's tokens are conserved: none is kept while somebody waits, every release is
accounted for, nobody was handed more tokens than it waited for, and the next step hands one to
nobody but the first waiter, which it takes off the list. -/
structure SemConserved (cfg : Config) (init : ℤ) (s : State) (i : ℕ) : Prop where
  nonneg : 0 ≤ (s.sems i).val
  empty : s.queues.lists (.sem i) ≠ [] → (s.sems i).val = 0
  balance : init + s.log.countP (Event.releases i) =
    (s.sems i).val + s.log.countP (Event.grants i)
  once : ∀ t, s.log.countP (Event.hands i t) + (if t ∈ s.queues.lists (.sem i) then 1 else 0) ≤
    s.log.countP (Event.waitsFor i t)
  handed : ∀ a, (kernel cfg).enabled s a → ∀ t,
    (exec cfg a s).log.countP (Event.hands i t) = s.log.countP (Event.hands i t) ∨
      ((s.queues.lists (.sem i)).head? = some t ∧ t ∉ (exec cfg a s).queues.lists (.sem i) ∧
        (exec cfg a s).log.countP (Event.hands i t) = s.log.countP (Event.hands i t) + 1)

/-- The scheduler does not touch the counter. -/
theorem tokens_of_offCpu (h : y.offCpu = x.offCpu) (i : ℕ) : y.tokens i = x.tokens i := by
  have hlist : ∀ u : State, u.offCpu.queues.lists (.sem i) = u.queues.lists (.sem i) := fun u => by
    simp [State.offCpu, QHead.isWait]
  have hview : ∀ u : State, u.tokens i = u.offCpu.tokens i := fun u => by
    unfold State.tokens
    rw [hlist]
    rfl
  rw [hview y, hview x, h]

/-- A step is a run of the counter. -/
theorem exec_tokens (init : ℤ) (hS : Sound cfg s) (he : (kernel cfg).enabled s a) (i : ℕ) :
    TokenRun init i s a s (exec cfg a s) := by
  refine (exec_effects hS he.1 he.2).induction (I := TokenRun init i s a s) (fun x y ho hx => ?_)
    (fun x y hJ hx hxy => hx.trans (hxy.tokens hJ i)) .refl
  unfold TokenRun
  rw [tokens_of_offCpu ho]
  exact hx

/-- A run of the counter within a step hands a token to the first waiter or to nobody. -/
theorem TokenRun.hands {w : World Tid} (hnodup : (s.tokens i).waiting.Nodup)
    (h : (machine Tid init).Path (TokenMove i s a) (s.tokens i) w) (t : Tid) :
    w.handed t = (s.tokens i).handed t ∨ ((s.tokens i).waiting.head? = some t ∧ t ∉ w.waiting ∧
      w.handed t = (s.tokens i).handed t + 1 ∧ a.op? = some (.semRelease i)) := by
  induction h with
  | refl => exact .inl rfl
  | @step w mv hp hfit hmv ih =>
    cases mv with
    | hand u =>
      obtain ⟨ha, rfl⟩ := hmv
      by_cases hu : t = u
      · subst hu
        refine .inr ⟨hfit, ?_, ?_, ha⟩
        · exact hnodup.not_mem_erase
        · simp [machine, Move.apply]
      · refine .inl ?_
        simp [machine, Move.apply, hu, World.leave]
    | wait u ts =>
      rcases ih with hsame | ⟨-, -, -, ha⟩
      · exact .inl hsame
      · exact absurd ha hmv
    | leave u =>
      rcases ih with hsame | ⟨hhead, hout, hone, ha⟩
      · exact .inl hsame
      · exact .inr ⟨hhead, fun hm => hout (List.mem_of_mem_erase hm), hone, ha⟩
    | take => exact ih
    | release => exact ih

/-- **Semaphore tokens are conserved**, in every run of every application.
kernel/nd_sem.c:17-58, kernel/nd_thread.c:55-124 -/
theorem tokens_conserved {u : Setup} (h : (kernel cfg).Path Machine.Always (boot cfg u) s) (i : ℕ)
    (hinit : 0 ≤ u.sems i) : SemConserved cfg (u.sems i) s i := by
  have hreach : (kernel cfg).Reach Machine.Always s := Machine.Reach.path (.start ⟨u, rfl⟩) h
  have hrun : (machine Tid (u.sems i)).Reach Machine.Always (s.tokens i) := by
    induction h with
    | refl =>
      refine .start ?_
      rw [tokens_of_offCpu (offCpu_boot cfg u), created_eq rfl]
      rfl
    | @step z b hp he hc ih =>
      have hz : (kernel cfg).Reach Machine.Always z := Machine.Reach.path (.start ⟨u, rfl⟩) hp
      exact (ih hz).path ((exec_tokens _ (reach_sound hz) he i).mono fun _ _ _ => trivial)
  have hI := conserved_of_reach hrun hinit
  exact ⟨hI.nonneg, hI.empty, hI.balance, hI.once, fun b he t =>
    (TokenRun.hands hI.nodup (exec_tokens (u.sems i) (reach_sound hreach) he i) t).imp_right
      fun hh => ⟨hh.1, hh.2.1, hh.2.2.1⟩⟩

/-- One token at the beginning. -/
def oneToken : Setup := { sems := fun _ => 1 }

/-- A thread takes the token and waits for another one, which an interrupt handler hands to it; the
token after that is counted. -/
def takeTwiceRun : List Action :=
  [spawn 1 20, .start, .call (.wait (.semTake 0 ndTimeoutForever)),
    .call (.wait (.semTake 0 ndTimeoutForever)), .irqEnter, .irq (.semRelease 0),
    .irq (.semRelease 0), .irqExit, .resume]

/-- Two of the three tokens were granted. -/
theorem tokens_conserved_run :
    ∃ s, (kernel syncPort).run takeTwiceRun (boot syncPort oneToken) = some s ∧
      (s.sems 0).val = 1 ∧ s.log.countP (Event.grants 0) = 2 ∧
      SemConserved syncPort (oneToken.sems 0) s 0 := by
  obtain ⟨s, hs, hp⟩ := (kernel syncPort).exists_run (l := takeTwiceRun)
    (s := boot syncPort oneToken)
    (p := fun s => (s.sems 0).val = 1 ∧ s.log.countP (Event.grants 0) = 2) (by decide +kernel)
  simp only [decide_eq_true_eq] at hp
  exact ⟨s, hs, hp.1, hp.2, tokens_conserved
    ((kernel syncPort).path_of_run (fun _ _ _ => trivial) hs) 0 (by decide)⟩

end NerdRtos
