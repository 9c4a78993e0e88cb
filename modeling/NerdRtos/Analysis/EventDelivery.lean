import NerdRtos.Analysis.StepEffects

/-!
# Events are delivered, and delivered once

Clearing bits satisfies nobody (`satisfied_of_clear`), so the one pass of `nd_event_send` over the
waiters, in whatever order, leaves no satisfied one behind, and receivers that take bits need
not look at the list. `Flags` is an event with its history: a bit that a grant clears was asked
for, and was sent since it was last cleared (`DeliveredOnce`).
-/

set_option autoImplicit false

namespace NerdRtos

variable {cfg : Config} {s x y z : State} {a : Action} {t : Tid} {e : ℕ}

/-! ## Clearing bits -/

/-- Whoever is satisfied by fewer bits is satisfied by more. -/
theorem satisfied_of_clear {set : BitVec 64} {asked es : BitVec 32} {opt : EventOpt}
    (h : ndEventIsSatisfied (clearBits set asked) es opt = true) :
    ndEventIsSatisfied set es opt = true := by
  have hsub : ∀ i, ((clearBits set asked).setWidth 32).getLsbD i = true →
      (set.setWidth 32).getLsbD i = true := by
    intro i hi
    unfold clearBits at hi
    rw [BitVec.getLsbD_setWidth, BitVec.getLsbD_and] at hi
    rw [BitVec.getLsbD_setWidth]
    simp only [Bool.and_eq_true] at hi ⊢
    exact ⟨hi.1, hi.2.1⟩
  cases opt with
  | and =>
    simp only [ndEventIsSatisfied, decide_eq_true_eq] at h ⊢
    refine BitVec.eq_of_getLsbD_eq fun i _ => ?_
    have hi := congrArg (fun v => v.getLsbD i) h
    simp only [BitVec.getLsbD_and] at hi ⊢
    cases hes : es.getLsbD i with
    | false => simp
    | true =>
      rw [hes, Bool.and_true] at hi
      rw [hsub i hi]
      rfl
  | or =>
    simp only [ndEventIsSatisfied, decide_eq_true_eq] at h ⊢
    intro hzero
    refine h (BitVec.eq_of_getLsbD_eq fun i _ => ?_)
    have hi : (set.setWidth 32 &&& es).getLsbD i = false := by simp [hzero]
    rw [BitVec.getLsbD_and, Bool.and_eq_false_iff] at hi
    rw [BitVec.getLsbD_and]
    rcases hi with hi | hi
    · have hclear : ((clearBits set asked).setWidth 32).getLsbD i = false := by
        by_contra hne
        rw [hsub i ((Bool.not_eq_false _).mp hne)] at hi
        cases hi
      simp [hclear]
    · simp [hi]

/-! ## Nobody who is satisfied waits -/

/-- What thread `t` asks of event `e` is there. -/
def Satisfied (s : State) (e : ℕ) (t : Tid) : Prop :=
  ndEventIsSatisfied (s.events e).set (s.threads t).eventSet (s.threads t).eventOpt = true

/-- No thread on the wait list of an event is satisfied. -/
def NoneSatisfied (s : State) : Prop :=
  ∀ e t, s.queues.home t = some (.event e) → ¬ Satisfied s e t

/-- From `x` to `y` no thread begins to wait for an event or changes what it asks for while it
waits, and no event gains bits. -/
structure Calmer (x y : State) : Prop where
  home : ∀ t e, y.queues.home t = some (.event e) → x.queues.home t = some (.event e)
  sat : ∀ e t, y.queues.home t = some (.event e) → Satisfied y e t → Satisfied x e t

/-- Nothing happens. -/
theorem Calmer.refl : Calmer x x := ⟨fun _ _ h => h, fun _ _ _ h => h⟩

/-- Two steps, one after the other. -/
theorem Calmer.trans (h : Calmer x y) (h' : Calmer y z) : Calmer x z :=
  ⟨fun t e ht => h.home t e (h'.home t e ht),
    fun e t ht hs => h.sat e t (h'.home t e ht) (h'.sat e t ht hs)⟩

/-- Where no waiter is satisfied, none is afterwards. -/
theorem NoneSatisfied.calmer (h : NoneSatisfied x) (hc : Calmer x y) : NoneSatisfied y :=
  fun e t ht hs => h e t (hc.home t e ht) (hc.sat e t ht hs)

/-- An edit of a thread that waits for no event, or that keeps what the thread asks for. -/
theorem Calmer.updThread {f : Thread → Thread}
    (hf : (∀ e, x.queues.home t ≠ some (.event e)) ∨
      (f (x.threads t)).eventSet = (x.threads t).eventSet ∧
        (f (x.threads t)).eventOpt = (x.threads t).eventOpt) : Calmer x (x.updThread t f) := by
  refine ⟨fun _ _ h => h, fun e u hu hs => ?_⟩
  by_cases hut : u = t
  · subst hut
    rcases hf with hf | ⟨hset, hopt⟩
    · exact absurd hu (hf e)
    · simpa [Satisfied, hset, hopt] using hs
  · simpa [Satisfied, hut] using hs

/-- A thread that leaves its list. -/
theorem Calmer.left {f : Thread → Thread} : Calmer x (x.left t f) := by
  have hhome : ∀ u k, (x.left t f).queues.home u = some k → u ≠ t ∧ x.queues.home u = some k := by
    intro u k hu
    rw [State.home_left] at hu
    split at hu
    · cases hu
    · exact ⟨‹_›, hu⟩
  refine ⟨fun u e hu => (hhome u _ hu).2, fun e u hu hs => ?_⟩
  simpa [Satisfied, (hhome u _ hu).1] using hs

/-- The first waiter of a list leaves. -/
theorem Calmer.served (k : QHead) : Calmer x (x.served k) := by
  unfold State.served
  split
  · exact .refl
  · rename_i t _
    have hleft : Calmer x (x.left t wakeEdit) := .left
    exact ⟨hleft.home, hleft.sat⟩

/-- Bits are taken. -/
theorem Calmer.granted (e : ℕ) (asked : BitVec 32) (note : BitVec 64 → BitVec 64 → Event) :
    Calmer x (x.granted e asked note) := by
  refine ⟨fun _ _ h => h, fun e' u _ hs => ?_⟩
  by_cases he : e' = e
  · subst he
    have hclear : ndEventIsSatisfied (clearBits (x.events e').set asked) (x.threads u).eventSet
        (x.threads u).eventOpt = true := by simpa [Satisfied, State.granted] using hs
    exact satisfied_of_clear hclear
  · simpa [Satisfied, State.granted, he] using hs

/-- A call that returns satisfies no waiter. -/
theorem Calmer.returned (who : Option Tid) (c : Call) (r : Ret) :
    Calmer x (x.returned who c r) := by
  cases who <;> exact ⟨fun _ _ h => h, fun _ _ _ h => h⟩

/-- A visit of `nd_event_send` takes bits away and satisfies no other waiter. -/
theorem Calmer.visited : Calmer x (State.visited e x t) := by
  unfold State.visited
  split
  · exact (Calmer.granted _ _ _).trans .left
  · exact .refl

/-- A turn of the loop of `nd_event_send` does not leave its thread waiting and satisfied. -/
theorem visited_settles (ht : (State.visited e x t).queues.home t = some (.event e)) :
    ¬ Satisfied (State.visited e x t) e t := by
  unfold State.visited at ht ⊢
  split at ht
  · rw [State.home_left, if_pos rfl] at ht
    cases ht
  · rename_i hs
    rw [if_neg hs]
    exact hs

/-- After the loop of `nd_event_send` none of the threads that it has visited waits and is
satisfied. The induction is on the threads still to visit: the turns after a thread's own are
calm. -/
theorem visits_settle (ts : List Tid) : ∀ x : State, Calmer x (ts.foldl (State.visited e) x) ∧
    ∀ t ∈ ts, (ts.foldl (State.visited e) x).queues.home t = some (.event e) →
      ¬ Satisfied (ts.foldl (State.visited e) x) e t := by
  induction ts with
  | nil => exact fun x => ⟨.refl, fun t ht => by cases ht⟩
  | cons t ts ih =>
    intro x
    obtain ⟨hcalm, hrest⟩ := ih (State.visited e x t)
    refine ⟨Calmer.visited.trans hcalm, fun u hu hhome hs => ?_⟩
    rcases List.mem_cons.mp hu with rfl | hu
    · exact visited_settles (hcalm.home u e hhome) (hcalm.sat e u hhome hs)
    · exact hrest u hu hhome hs

/-- A thread joins a wait list; it does so for an event only when it is not satisfied. -/
theorem NoneSatisfied.joined (h : NoneSatisfied x) {k : QHead} (hfree : x.queues.home t = none)
    (hk : ∀ e, k = .event e → ¬ Satisfied x e t) : NoneSatisfied (x.joined t k) := by
  intro e u hu hs
  rw [State.joined_queues, x.queues.home_link _ _ hfree] at hu
  have hs' : Satisfied x e u := by
    by_cases hut : u = t
    · subst hut
      simpa [Satisfied, pendEdit] using hs
    · simpa [Satisfied, hut] using hs
  split at hu
  · rename_i hut
    subst hut
    exact hk e (Option.some.inj hu) hs'
  · exact h e u hu hs'

/-- Every effect leaves no satisfied thread waiting. -/
theorem NoneSatisfied.step (hJ : ConsistentBut Set.univ x) (h : NoneSatisfied x)
    (he : Effect a s x y) : NoneSatisfied y := by
  have hfree : ∀ {u : Tid}, (x.threads u).stat = .running → x.queues.home u = none :=
    fun hr => hJ.home_none (by rw [hr]; decide) (by rw [hr]; decide)
  cases he with
  | nothing | environment | enter | semRelease | write => exact h
  | drop ha hc hi ho hl =>
    rename_i m c
    have hreleased : NoneSatisfied (s.updThread c (Thread.withPriority (restoredPriority s c m))) :=
      h.calmer (.updThread (.inr ⟨rfl, rfl⟩))
    exact hreleased
  | returns r hw hl hr hb => exact h.calmer (.returned _ _ _)
  | blocks hw hm hk hn =>
    rename_i u c k
    refine NoneSatisfied.joined h (hfree (hw.runs u rfl).2) fun e he hs => ?_
    subst he
    cases c with
    | eventRecv e' set opt n =>
      cases hk
      obtain ⟨hunsat, hset, hopt⟩ := hm
      rw [Satisfied, hset, hopt, hunsat] at hs
      cases hs
    | threadJoin v n => cases v <;> cases hk
    | _ => cases hk
  | semTake hw hv => exact NoneSatisfied.calmer (x := (x.updSem _ _).emit _) h (.returned _ _ _)
  | semHand ha hl =>
    rename_i i t
    have hleft : NoneSatisfied (s.left t wakeEdit) := h.calmer .left
    exact hleft
  | lock hw ho => exact NoneSatisfied.calmer (x := x.handed _ _) h (.returned _ _ _)
  | contend ha hw ho hoc hx =>
    rename_i m o c n
    have hraised : NoneSatisfied (x.raised m o c) := by
      unfold State.raised
      split
      · exact NoneSatisfied.calmer (x := x.updMutex _ _) h (.updThread (.inr ⟨rfl, rfl⟩))
      · exact h
    have hc : (x.raised m o c).queues.home c = none := by
      subst hx
      have hrun := (hw.runs c rfl).2
      rw [State.raised_eq]
      exact hfree hrun
    split
    · exact hraised.calmer (.returned _ _ _)
    · exact NoneSatisfied.joined hraised hc fun e he => by cases he
  | hand ha hc hi ho hl =>
    rename_i m c t
    have hreleased : NoneSatisfied (s.updThread c (Thread.withPriority (restoredPriority s c m))) :=
      h.calmer (.updThread (.inr ⟨rfl, rfl⟩))
    have hleft : NoneSatisfied ((s.released m c).left t wakeEdit) :=
      NoneSatisfied.calmer (x := s.released m c) hreleased .left
    exact hleft
  | send hw hq =>
    exact NoneSatisfied.calmer (x := x.sent _ _) h ((Calmer.served _).trans (.returned _ _ _))
  | recv hw hq =>
    exact NoneSatisfied.calmer (x := x.received _) h ((Calmer.served _).trans (.returned _ _ _))
  | alloc hw hp => exact NoneSatisfied.calmer (x := x.allocated _) h (.returned _ _ _)
  | free ha => exact NoneSatisfied.calmer (x := s.put _ _) h (.served _)
  | eventSend ha =>
    rename_i e set
    obtain ⟨hcalm, hsettled⟩ := visits_settle (e := e) (s.queues.lists (.event e)) (s.posted e set)
    intro e' t ht hs
    have hhome : s.queues.home t = some (.event e') := hcalm.home t e' ht
    by_cases he : e' = e
    · subst he
      exact hsettled t ((s.queues.mem_iff _ _).mpr hhome) ht hs
    · refine h e' t hhome ?_
      simpa [Satisfied, State.posted, he] using hcalm.sat e' t ht hs
  | eventScratch hw =>
    rename_i c e set opt n
    have hc := hfree (hw.runs c rfl).2
    exact h.calmer (.updThread (.inl fun e he => by rw [hc] at he; cases he))
  | eventTake hw hs => exact h.calmer ((Calmer.granted _ _ _).trans (.returned _ _ _))
  | create ha hb ht hst htk hu =>
    rename_i t b
    have hc : s.queues.home t = none := hJ.home_none
      (fun hr => hst (by rw [hr]; exact ⟨by decide, by decide⟩))
      (fun hr => hst (by rw [hr]; exact ⟨by decide, by decide⟩))
    rw [created_eq hu]
    have hcreated : NoneSatisfied (s.updThread t (createEdit b)) :=
      h.calmer (.updThread (.inl fun e he => by rw [hc] at he; cases he))
    exact hcreated
  | suspend | wakeJoiner | timeout => exact h.calmer .left
  | finish ha he hst =>
    rename_i t
    have hleft : NoneSatisfied (s.left t endEdit) := h.calmer .left
    exact hleft
  | resume | delay | delayEnd => exact h.calmer (.updThread (.inr ⟨rfl, rfl⟩))

/-- The scheduler does not see events. -/
theorem hidden_noneSatisfied : Hidden NoneSatisfied := by
  intro x y ho h e t ht hs
  have hhome : x.queues.home t = some (.event e) := home_of_offCpu ho rfl ht
  refine h e t hhome ?_
  have hev := (congrArg (fun u : State => (u.events e).set) ho :)
  have hset := (congrArg (fun u : State => (u.threads t).eventSet) ho :)
  have hopt := (congrArg (fun u : State => (u.threads t).eventOpt) ho :)
  unfold Satisfied at hs ⊢
  exact (congr (congr (congrArg ndEventIsSatisfied hev) hset) hopt).symm.trans hs

/-! ## Every bit is delivered once -/

/-- What a send notes: the event and the bits. -/
def Event.send? : Event → Option (ℕ × BitVec 32)
  | .eventSent e set => some (e, set)
  | _ => none

/-- What a grant notes: the event, the bits asked for, and the set before and after. -/
def Event.grant? : Event → Option (ℕ × BitVec 32 × BitVec 64 × BitVec 64)
  | .eventTaken _ e asked seen left | .eventHanded _ e asked seen left =>
    some (e, asked, seen, left)
  | _ => none

/-- A send or a grant of event `e`. -/
def Event.concerns (e : ℕ) (ev : Event) : Bool :=
  ev.send?.any (fun m => m.1 = e) || ev.grant?.any (fun g => g.1 = e)

/-- The event sends bit `b`. -/
def Event.sends (b : ℕ) (ev : Event) : Prop := ∃ m, ev.send? = some m ∧ m.2.getLsbD b = true

/-- The event is a grant that clears bit `b`. -/
def Event.clears (b : ℕ) (ev : Event) : Prop :=
  ∃ g, ev.grant? = some g ∧ g.2.2.1.getLsbD b = true ∧ g.2.2.2.getLsbD b = false

/-- The event is a grant to a receiver that asked for bit `b`. -/
def Event.asks (b : ℕ) (ev : Event) : Prop := ∃ g, ev.grant? = some g ∧ g.2.1.getLsbD b = true

/-- Bit `b` was sent, and no grant has cleared it since. The history has its last event first. -/
def Sent (b : ℕ) (h : List Event) : Prop :=
  ∃ since m before, h = since ++ m :: before ∧ m.sends b ∧ ∀ c ∈ since, ¬ c.clears b

/-- A grant clears only bits that its receiver asked for, and each of them was sent and not cleared
since: what one send sets is cleared once. -/
structure DeliveredOnce (h : List Event) : Prop where
  asked : ∀ g ∈ h, ∀ b, g.clears b → g.asks b
  once : ∀ b newer g older, h = newer ++ g :: older → g.clears b → Sent b older

/-- An event with its history, the last send or grant first. -/
structure Flagged where
  set : BitVec 64
  history : List Event

/-- Event `e` with its history. -/
def State.flagged (s : State) (e : ℕ) : Flagged where
  set := (s.events e).set
  history := s.log.filter (Event.concerns e)

/-- Bits were delivered once, and those that are set were sent and not cleared. -/
structure Flagged.Ok (f : Flagged) : Prop where
  delivered : DeliveredOnce f.history
  sent : ∀ b, f.set.getLsbD b = true → Sent b f.history
  small : ∀ b, f.set.getLsbD b = true → b < 32

/-- What is not a grant that clears the bit does not undo its send. -/
theorem Sent.cons {b : ℕ} {h : List Event} {ev : Event} (hs : Sent b h) (hev : ¬ ev.clears b) :
    Sent b (ev :: h) := by
  obtain ⟨since, m, before, rfl, hm, hc⟩ := hs
  refine ⟨ev :: since, m, before, rfl, hm, fun c hmem => ?_⟩
  rcases List.mem_cons.mp hmem with rfl | hmem
  · exact hev
  · exact hc c hmem

/-- One more event. -/
theorem DeliveredOnce.cons {h : List Event} {ev : Event} (hd : DeliveredOnce h)
    (hask : ∀ b, ev.clears b → ev.asks b) (hsent : ∀ b, ev.clears b → Sent b h) :
    DeliveredOnce (ev :: h) := by
  refine ⟨fun g hg b hc => ?_, fun b newer g older he hc => ?_⟩
  · rcases List.mem_cons.mp hg with rfl | hg
    · exact hask b hc
    · exact hd.asked g hg b hc
  · cases newer with
    | nil =>
      obtain ⟨rfl, rfl⟩ := List.cons.inj he
      exact hsent b hc
    | cons n newer =>
      obtain ⟨rfl, rfl⟩ := List.cons.inj he
      exact hd.once b newer g older rfl hc

/-- Bits are sent. -/
theorem Flagged.Ok.send {f : Flagged} (h : f.Ok) (e : ℕ) (set : BitVec 32) :
    Flagged.Ok ⟨f.set ||| set.setWidth 64, .eventSent e set :: f.history⟩ := by
  have hev : ∀ b, ¬ (Event.eventSent e set).clears b := by
    rintro b ⟨g, hg, -⟩
    cases hg
  have hor : ∀ b, (f.set ||| set.setWidth 64).getLsbD b = true →
      f.set.getLsbD b = true ∨ set.getLsbD b = true := by
    intro b hb
    simp only [BitVec.getLsbD_or, BitVec.getLsbD_setWidth, Bool.or_eq_true, Bool.and_eq_true] at hb
    exact hb.imp_right fun hb => hb.2
  refine ⟨h.delivered.cons (fun b hc => absurd hc (hev b)) fun b hc => absurd hc (hev b),
    fun b hb => ?_, fun b hb => ?_⟩
  · by_cases hf : f.set.getLsbD b = true
    · exact (h.sent b hf).cons (hev b)
    · exact ⟨[], _, f.history, rfl, ⟨_, rfl, (hor b hb).resolve_left hf⟩, fun c hc => by cases hc⟩
  · rcases hor b hb with hb | hb
    · exact h.small b hb
    · exact BitVec.lt_of_getLsbD hb

/-- What is left of a bit when bits are cleared. -/
theorem getLsbD_clearBits (set : BitVec 64) (asked : BitVec 32) {b : ℕ} (hb : b < 32) :
    (clearBits set asked).getLsbD b = (set.getLsbD b && !asked.getLsbD b) := by
  have hb' : b < 64 := by omega
  simp [clearBits, hb, hb']

/-- Bits are granted. -/
theorem Flagged.Ok.grant {f : Flagged} (h : f.Ok) {e : ℕ} {asked : BitVec 32} {ev : Event}
    (hev : ev.grant? = some (e, asked, f.set, clearBits f.set asked)) :
    Flagged.Ok ⟨clearBits f.set asked, ev :: f.history⟩ := by
  have hclears : ∀ b, ev.clears b → f.set.getLsbD b = true ∧ asked.getLsbD b = true := by
    rintro b ⟨g, hg, hseen, hleft⟩
    rw [hev] at hg
    cases hg
    rw [getLsbD_clearBits _ _ (h.small b hseen), hseen] at hleft
    exact ⟨hseen, by simpa using hleft⟩
  have hleft : ∀ b, (clearBits f.set asked).getLsbD b = true →
      f.set.getLsbD b = true ∧ asked.getLsbD b = false := by
    intro b hb
    have hset : f.set.getLsbD b = true := by
      unfold clearBits at hb
      rw [BitVec.getLsbD_and, Bool.and_eq_true] at hb
      exact hb.1
    rw [getLsbD_clearBits _ _ (h.small b hset), hset] at hb
    exact ⟨hset, by simpa using hb⟩
  refine ⟨h.delivered.cons (fun b hc => ⟨_, hev, (hclears b hc).2⟩)
    fun b hc => h.sent b (hclears b hc).1, fun b hb => ?_, fun b hb => h.small b (hleft b hb).1⟩
  refine (h.sent b (hleft b hb).1).cons fun hc => ?_
  have hnot := (hleft b hb).2
  rw [(hclears b hc).2] at hnot
  cases hnot

/-! ## The effects on an event -/

/-- A call that returns sets no bit and gives none. -/
theorem flagged_returned (x : State) (who : Option Tid) (c : Call) (r : Ret) :
    (x.returned who c r).flagged e = x.flagged e := by
  cases who <;> rfl

/-- Waking a waiter of a queue or a pool sets no bit and gives none. -/
theorem flagged_served (x : State) (k : QHead) : (x.served k).flagged e = x.flagged e := by
  unfold State.served
  split <;> rfl

/-- A grant of event `e'`, as seen by event `e`. -/
theorem Flagged.Ok.granted (h : (x.flagged e).Ok) {e' : ℕ} {asked : BitVec 32}
    {note : BitVec 64 → BitVec 64 → Event}
    (hn : ∀ u v, (note u v).grant? = some (e', asked, u, v) ∧ (note u v).send? = none) :
    ((x.granted e' asked note).flagged e).Ok := by
  have hconcern : ∀ u v, (note u v).concerns e = decide (e' = e) := fun u v => by
    simp [Event.concerns, (hn u v).1, (hn u v).2]
  by_cases he : e' = e
  · subst he
    have heq : (x.granted e' asked note).flagged e' =
        ⟨clearBits (x.flagged e').set asked,
          note (x.flagged e').set (clearBits (x.flagged e').set asked) ::
            (x.flagged e').history⟩ := by
      simp [State.flagged, State.granted, hconcern]
    rw [heq]
    exact h.grant (hn _ _).1
  · have heq : (x.granted e' asked note).flagged e = x.flagged e := by
      simp [State.flagged, State.granted, hconcern, he, Ne.symm he]
    rw [heq]
    exact h

/-- Every effect delivers bits once. -/
theorem Flagged.Ok.step (h : (x.flagged e).Ok) (he : Effect a s x y) : (y.flagged e).Ok := by
  cases he with
  | eventSend ha =>
    rename_i e' set
    have hposted : ((s.posted e' set).flagged e).Ok := by
      by_cases he : e' = e
      · subst he
        have heq : (s.posted e' set).flagged e' =
            ⟨(s.flagged e').set ||| set.setWidth 64,
              .eventSent e' set :: (s.flagged e').history⟩ := by
          simp [State.flagged, State.posted, Event.concerns, Event.send?]
        rw [heq]
        exact h.send e' set
      · have heq : (s.posted e' set).flagged e = s.flagged e := by
          simp [State.flagged, State.posted, Event.concerns, Event.send?, Event.grant?, he,
            Ne.symm he]
        rw [heq]
        exact h
    refine visited_induction (P := fun z => (z.flagged e).Ok) (fun z t hz _ => ?_) s.queues hposted
    unfold State.visited
    split
    · exact Flagged.Ok.granted hz fun u v => ⟨rfl, rfl⟩
    · exact hz
  | eventTake hw hs =>
    rw [flagged_returned]
    exact Flagged.Ok.granted h fun u v => ⟨rfl, rfl⟩
  | contend ha hw ho hoc hx =>
    rename_i m o c n
    have hraised : (x.raised m o c).flagged e = x.flagged e := by
      rw [State.raised_eq]
      rfl
    split
    · rw [flagged_returned, hraised]
      exact h
    · have hblocked : (((x.raised m o c).blocked c (.mutex m) (.mutexLock m n)).flagged e).Ok := by
        rw [← hraised] at h
        exact h
      exact hblocked
  | create ha hb ht hst htk hu =>
    rw [created_eq hu]
    exact h
  | returns =>
    rw [flagged_returned]
    exact h
  | semTake =>
    rw [flagged_returned]
    exact h
  | lock =>
    rw [flagged_returned]
    exact h
  | alloc =>
    rw [flagged_returned]
    exact h
  | send =>
    rw [flagged_returned, flagged_served]
    exact h
  | recv =>
    rw [flagged_returned, flagged_served]
    exact h
  | free =>
    rw [flagged_served]
    exact h
  | _ => exact h

/-- The scheduler does not see events. -/
theorem flagged_of_offCpu (h : y.offCpu = x.offCpu) (e : ℕ) : y.flagged e = x.flagged e :=
  (congrArg (fun u : State => u.flagged e) h :)

/-- No satisfied thread waits for an event, and every bit is delivered once. -/
structure EventsDelivered (s : State) : Prop where
  waiters : ∀ e, ∀ t ∈ s.queues.lists (.event e),
    ndEventIsSatisfied (s.events e).set (s.threads t).eventSet (s.threads t).eventOpt = false
  bits : ∀ e, DeliveredOnce (s.log.filter (Event.concerns e))

/-- **No satisfied receiver is left waiting, and no bit is delivered twice**, in every run.
kernel/nd_event.c:17-87 -/
theorem events_delivered (h : (kernel cfg).Reach Machine.Always s) : EventsDelivered s := by
  have hnone : NoneSatisfied s := by
    refine reach_effects hidden_noneSatisfied (fun u e t ht => ?_)
      (fun _ _ _ _ _ x y hJ hx he => hx.step hJ he) h
    rw [created_eq rfl] at ht
    cases ht
  refine ⟨fun e t ht => ?_, fun e => ?_⟩
  · exact (Bool.not_eq_true _).mp (hnone e t ((s.queues.mem_iff _ _).mp ht))
  · have hok : (s.flagged e).Ok := by
      refine reach_effects (I := fun z => (z.flagged e).Ok)
        (fun x y ho (hx : Flagged.Ok _) => ?_) (fun u => ?_)
        (fun _ _ _ _ _ x y _ hx he => Flagged.Ok.step hx he) h
      · show Flagged.Ok (y.flagged e)
        rw [flagged_of_offCpu ho]
        exact hx
      · have hboot : ((initObjects u).created idleTid idleArgs).flagged e = ⟨0, []⟩ := by
          rw [created_eq rfl]
          rfl
        show Flagged.Ok _
        rw [hboot]
        refine ⟨⟨fun g hg _ => (by cases hg), fun b newer g older he => ?_⟩, fun b hb => ?_,
          fun b hb => ?_⟩
        · simp at he
        · simp at hb
        · simp at hb
    exact hok.delivered

/-- Two receivers wait for bit 1, and an interrupt handler sends bits 0 and 1 one after the
other. -/
def twoReceiversRun : List Action :=
  [spawn 1 10, spawn 2 20, .start, .call (.wait (.eventRecv 0 3 .and ndTimeoutForever)),
    .call (.wait (.eventRecv 0 2 .or ndTimeoutForever)), .irqEnter, .irq (.eventSend 0 1),
    .irq (.eventSend 0 2)]

/-- The first receiver gets both bits, and the second one goes on waiting. -/
theorem events_delivered_run :
    ∃ s, (kernel syncPort).run twoReceiversRun (boot syncPort {}) = some s ∧
      (s.events 0).set = 0 ∧ s.queues.lists (.event 0) = [2] ∧
      (s.log.filter (Event.concerns 0)).length = 3 ∧ EventsDelivered s := by
  obtain ⟨s, hs, hp⟩ := (kernel syncPort).exists_run (l := twoReceiversRun)
    (s := boot syncPort {})
    (p := fun s => (s.events 0).set = 0 ∧ s.queues.lists (.event 0) = [2] ∧
      (s.log.filter (Event.concerns 0)).length = 3) (by decide +kernel)
  simp only [decide_eq_true_eq] at hp
  exact ⟨s, hs, hp.1, hp.2.1, hp.2.2, events_delivered (reach_run hs)⟩

end NerdRtos
