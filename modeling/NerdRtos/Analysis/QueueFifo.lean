import NerdRtos.Analysis.StepEffects
import NerdRtos.Lib.Ring

/-!
# Message queues are lossless

`Mail` is a message queue with the messages that went through it. Its buffer is a ring, so a send
appends to what is stored and a receive takes the first message off; every effect is a send, a
receive or nothing for a queue (`Effect.mail`).
-/

set_option autoImplicit false

namespace NerdRtos

open Ring

variable {cfg : Config} {s x y : State} {a : Action} {t : Tid} {q : ℕ}

/-- The message that an event copies into queue `q`. -/
def Event.sentOn (q : ℕ) : Event → Option (List (BitVec 8))
  | .msgSent p m => if p = q then some m else none
  | _ => none

/-- The message that an event copies out of queue `q`. -/
def Event.receivedOn (q : ℕ) : Event → Option (List (BitVec 8))
  | .msgReceived p m => if p = q then some m else none
  | _ => none

/-- A message queue, and the messages that were copied in and out, in this order. -/
structure Mail where
  queue : Queue
  sent : List (List (BitVec 8))
  received : List (List (BitVec 8))

/-- Queue `q` with its history. -/
def State.mail (s : State) (q : ℕ) : Mail where
  queue := s.msgQueues q
  sent := (s.log.filterMap (Event.sentOn q)).reverse
  received := (s.log.filterMap (Event.receivedOn q)).reverse

/-- The `used_msg` messages stored from slot `read_ptr` on. -/
def Queue.stored (u : Queue) : List (List (BitVec 8)) :=
  (List.range u.usedMsg.toNat).map fun j => u.copyOut (u.readPtr + BitVec.ofNat 32 j)

/-- Nothing is lost, and the three counters agree. -/
structure Lossless (m : Mail) : Prop where
  order : m.received ++ m.queue.stored = m.sent
  bound : m.queue.usedMsg ≤ m.queue.maxMsgs
  count : m.queue.writePtr - m.queue.readPtr = m.queue.usedMsg

/-! ## The ring -/

/-- The queue has a power of two of slots, and they fit into the address space. -/
structure Queue.Fits (u : Queue) : Prop where
  slots : PowerOfTwo u.maxMsgs
  space : u.maxMsgs.toNat * u.msgSize.toNat < 2 ^ 32

/-- The message in slot `i`. -/
def Queue.at (u : Queue) (i : ℕ) : List (BitVec 8) :=
  Bytes.load u.buf (i * u.msgSize.toNat) u.msgSize.toNat

/-- The offset of a slot does not overflow. -/
theorem Queue.Fits.slot_eq {u : Queue} (h : u.Fits) (ptr : BitVec 32) :
    u.slot ptr = index u.maxMsgs ptr * u.msgSize.toNat := by
  have hlt := h.slots.index_lt ptr
  have hle : index u.maxMsgs ptr * u.msgSize.toNat ≤ u.maxMsgs.toNat * u.msgSize.toNat :=
    Nat.mul_le_mul_right _ (Nat.le_of_lt hlt)
  have hspace := h.space
  unfold Queue.slot
  rw [BitVec.toNat_mul]
  exact Nat.mod_eq_of_lt (by unfold index at hle; omega)

/-- The slot that a pointer is taken to. -/
theorem Queue.Fits.copyOut_eq {u : Queue} (h : u.Fits) (ptr : BitVec 32) :
    u.copyOut ptr = u.at (index u.maxMsgs ptr) := by
  unfold Queue.copyOut Queue.at
  rw [h.slot_eq]

/-- What a queue stores is the contents of the ring. -/
theorem Queue.Fits.stored_eq {u : Queue} (h : u.Fits) :
    u.stored = content u.maxMsgs u.at u.readPtr u.usedMsg.toNat := by
  unfold Queue.stored content
  exact List.map_congr_left fun j _ => h.copyOut_eq _

/-- A message copied into a slot is there, and the other slots keep theirs. -/
theorem Queue.Fits.at_store {u : Queue} (h : u.Fits) (ptr : BitVec 32) (msg : List (BitVec 8))
    (i : ℕ) :
    Bytes.load (Bytes.store u.buf (u.slot ptr) (u.copyIn msg)) (i * u.msgSize.toNat)
        u.msgSize.toNat =
      if i = index u.maxMsgs ptr then u.copyIn msg else u.at i := by
  have hlen : (u.copyIn msg).length = u.msgSize.toNat := Bytes.length_copy _ _
  rw [h.slot_eq]
  by_cases hi : i = index u.maxMsgs ptr
  · subst hi
    rw [if_pos rfl]
    have hload := Bytes.load_store u.buf (index u.maxMsgs ptr * u.msgSize.toNat) (u.copyIn msg)
    rwa [hlen] at hload
  · rw [if_neg hi]
    refine Bytes.load_store_of_disjoint _ _ ?_
    rw [hlen]
    rcases Nat.lt_or_gt_of_ne hi with hlt | hlt
    · have hle := Nat.mul_le_mul_right u.msgSize.toNat (Nat.succ_le_of_lt hlt)
      rw [Nat.succ_mul] at hle
      exact .inl hle
    · have hle := Nat.mul_le_mul_right u.msgSize.toNat (Nat.succ_le_of_lt hlt)
      rw [Nat.succ_mul] at hle
      exact .inr hle

/-- A queue whose ring fits loses nothing. -/
def Delivers (m : Mail) : Prop := m.queue.Fits ∧ Lossless m

/-! ## Sending and receiving -/

/-- A message copied in.
kernel/nd_queue.c:53-56 -/
def Mail.send (m : Mail) (msg : List (BitVec 8)) : Mail where
  queue :=
    { m.queue with
      buf := Bytes.store m.queue.buf (m.queue.slot m.queue.writePtr) (m.queue.copyIn msg)
      writePtr := m.queue.writePtr + 1
      usedMsg := m.queue.usedMsg + 1 }
  sent := m.sent ++ [m.queue.copyIn msg]
  received := m.received

/-- A message copied out.
kernel/nd_queue.c:91-94 -/
def Mail.recv (m : Mail) : Mail where
  queue := { m.queue with readPtr := m.queue.readPtr + 1, usedMsg := m.queue.usedMsg - 1 }
  sent := m.sent
  received := m.received ++ [m.queue.copyOut m.queue.readPtr]

/-- A send to a queue that is not full loses nothing. -/
theorem Lossless.send {m : Mail} (h : Lossless m) (hfit : m.queue.Fits)
    (hfull : m.queue.usedMsg ≠ m.queue.maxMsgs) (msg : List (BitVec 8)) :
      Lossless (m.send msg) := by
  have hlt : m.queue.usedMsg.toNat < m.queue.maxMsgs.toNat := by
    have hle := BitVec.le_def.mp h.bound
    have hne : m.queue.usedMsg.toNat ≠ m.queue.maxMsgs.toNat := fun he =>
      hfull (BitVec.eq_of_toNat_eq he)
    omega
  have hmax := m.queue.maxMsgs.isLt
  have hused : (m.queue.usedMsg + 1).toNat = m.queue.usedMsg.toNat + 1 := by
    rw [BitVec.toNat_add]
    exact Nat.mod_eq_of_lt (by simp; omega)
  have hwrite : m.queue.writePtr =
      m.queue.readPtr + BitVec.ofNat 32 m.queue.usedMsg.toNat := by
    rw [BitVec.ofNat_toNat, BitVec.setWidth_eq, ← h.count, BitVec.add_comm]
    exact (BitVec.sub_add_cancel _ _).symm
  have hfit' : (m.send msg).queue.Fits := ⟨hfit.slots, hfit.space⟩
  have hstored : (m.send msg).queue.stored = m.queue.stored ++ [m.queue.copyIn msg] := by
    rw [hfit'.stored_eq, hfit.stored_eq]
    show content m.queue.maxMsgs _ m.queue.readPtr (m.queue.usedMsg + 1).toNat = _
    rw [hused]
    refine hfit.slots.content_push hlt fun i _ => ?_
    rw [← hwrite]
    exact hfit.at_store _ msg i
  refine ⟨?_, ?_, ?_⟩
  · show m.received ++ (m.send msg).queue.stored = m.sent ++ [m.queue.copyIn msg]
    rw [hstored, ← List.append_assoc, h.order]
  · show m.queue.usedMsg + 1 ≤ m.queue.maxMsgs
    rw [BitVec.le_def, hused]
    exact hlt
  · show m.queue.writePtr + 1 - m.queue.readPtr = m.queue.usedMsg + 1
    rw [← h.count]
    bv_omega

/-- A receive from a queue that is not empty loses nothing. -/
theorem Lossless.recv {m : Mail} (h : Lossless m) (hfit : m.queue.Fits)
    (hempty : m.queue.usedMsg ≠ 0) : Lossless m.recv := by
  have hpos : 0 < m.queue.usedMsg.toNat := by
    have hne : m.queue.usedMsg.toNat ≠ 0 := fun he => hempty (BitVec.eq_of_toNat_eq he)
    omega
  have hused : (m.queue.usedMsg - 1).toNat = m.queue.usedMsg.toNat - 1 :=
    BitVec.toNat_sub_of_le (by rw [BitVec.le_def]; exact hpos)
  have hfit' : m.recv.queue.Fits := ⟨hfit.slots, hfit.space⟩
  have hstored : m.queue.stored = m.queue.copyOut m.queue.readPtr :: m.recv.queue.stored := by
    rw [hfit'.stored_eq, hfit.stored_eq, hfit.copyOut_eq]
    show content m.queue.maxMsgs m.queue.at m.queue.readPtr m.queue.usedMsg.toNat =
      _ :: content m.queue.maxMsgs m.queue.at (m.queue.readPtr + 1) (m.queue.usedMsg - 1).toNat
    rw [hused, ← content_pop, Nat.sub_add_cancel hpos]
  refine ⟨?_, ?_, ?_⟩
  · show m.received ++ [m.queue.copyOut m.queue.readPtr] ++ m.recv.queue.stored = m.sent
    rw [← h.order, hstored, List.append_assoc, List.singleton_append]
  · show m.queue.usedMsg - 1 ≤ m.queue.maxMsgs
    have hle := BitVec.le_def.mp h.bound
    rw [BitVec.le_def, hused]
    omega
  · show m.queue.writePtr - (m.queue.readPtr + 1) = m.queue.usedMsg - 1
    rw [← h.count]
    bv_omega

/-! ## The effects -/

/-- A call that returns moves no message. -/
theorem mail_returned (x : State) (who : Option Tid) (c : Call) (r : Ret) :
    (x.returned who c r).mail q = x.mail q := by
  cases who <;> rfl

/-- Waking a waiter moves no message. -/
theorem mail_served (x : State) (k : QHead) : (x.served k).mail q = x.mail q := by
  unfold State.served
  split <;> rfl

/-- A message that is sent goes to its queue. -/
theorem mail_sent (x : State) (p : ℕ) (msg : List (BitVec 8)) :
    (x.sent p msg).mail q = if p = q then (x.mail q).send msg else x.mail q := by
  by_cases hp : p = q
  · subst hp
    simp [State.mail, State.sent, Mail.send, Event.sentOn, Event.receivedOn, List.filterMap_cons]
  · simp [State.mail, State.sent, Event.sentOn, Event.receivedOn, List.filterMap_cons, hp,
      Ne.symm hp]

/-- A message that is received comes from its queue. -/
theorem mail_received (x : State) (p : ℕ) :
    (x.received p).mail q = if p = q then (x.mail q).recv else x.mail q := by
  by_cases hp : p = q
  · subst hp
    simp [State.mail, State.received, Mail.recv, Event.sentOn, Event.receivedOn,
      List.filterMap_cons]
  · simp [State.mail, State.received, Event.sentOn, Event.receivedOn, List.filterMap_cons, hp,
      Ne.symm hp]

/-- Every effect is a send, a receive or nothing for a queue. -/
theorem Effect.mail (he : Effect a s x y) (q : ℕ) : y.mail q = x.mail q ∨
    ((x.msgQueues q).usedMsg ≠ (x.msgQueues q).maxMsgs ∧ ∃ msg, y.mail q = (x.mail q).send msg) ∨
    ((x.msgQueues q).usedMsg ≠ 0 ∧ y.mail q = (x.mail q).recv) := by
  cases he with
  | send hw hq =>
    rename_i who p msg n
    rw [mail_returned, mail_served, mail_sent]
    by_cases hp : p = q
    · subst hp
      rw [if_pos rfl]
      exact .inr (.inl ⟨hq, msg, rfl⟩)
    · rw [if_neg hp]
      exact .inl rfl
  | recv hw hq =>
    rename_i who p n
    rw [mail_returned, mail_served, mail_received]
    by_cases hp : p = q
    · subst hp
      rw [if_pos rfl]
      exact .inr (.inr ⟨hq, rfl⟩)
    · rw [if_neg hp]
      exact .inl rfl
  | contend ha hw ho hoc hx =>
    rename_i m o c n
    have hraised : (x.raised m o c).mail q = x.mail q := by
      rw [State.raised_eq]
      rfl
    split
    · exact .inl ((mail_returned _ _ _ _).trans hraised)
    · exact .inl hraised
  | eventSend ha =>
    rename_i e set
    refine .inl (visited_induction (P := fun z => z.mail q = s.mail q) (fun z t hz _ => ?_)
      s.queues rfl)
    unfold State.visited
    split
    · exact hz
    · exact hz
  | create ha hb ht hst htk hu =>
    rw [created_eq hu]
    exact .inl rfl
  | returns => exact .inl (mail_returned _ _ _ _)
  | semTake => exact .inl (mail_returned _ _ _ _)
  | lock => exact .inl (mail_returned _ _ _ _)
  | alloc => exact .inl (mail_returned _ _ _ _)
  | eventTake => exact .inl (mail_returned _ _ _ _)
  | free => exact .inl (mail_served _ _)
  | _ => exact .inl rfl

/-- The scheduler touches no message. -/
theorem mail_of_offCpu (h : y.offCpu = x.offCpu) (q : ℕ) : y.mail q = x.mail q :=
  (congrArg (fun u : State => u.mail q) h :)

/-- **A message queue is a lossless FIFO**, in every run, for every queue that `nd_queue_init`
accepts.
kernel/nd_queue.c:6-105 -/
theorem queue_lossless {u : Setup} (h : (kernel cfg).Path Machine.Always (boot cfg u) s) (q : ℕ)
    {v : Queue} (hinit : ndQueueInit u.mem (u.queues q).1 (u.queues q).2 = some v)
    (hfit : (u.queues q).2.toNat * (u.queues q).1.toNat < 2 ^ 32) : Lossless (s.mail q) := by
  have hv : v = { buf := u.mem, msgSize := (u.queues q).1, maxMsgs := (u.queues q).2 } ∧
      PowerOfTwo (u.queues q).2 := by
    unfold ndQueueInit at hinit
    split at hinit
    · cases hinit
    · rename_i hpow
      push Not at hpow
      exact ⟨(Option.some.inj hinit).symm, hpow.1, hpow.2⟩
  have hinv : Delivers (s.mail q) := by
    refine path_effects (I := fun z => Delivers (z.mail q)) (fun x y ho (hx : Delivers _) => ?_) ?_
      (fun _ _ _ _ _ x y _ (hx : Delivers _) he => ?_) h
    · show Delivers (y.mail q)
      rw [mail_of_offCpu ho]
      exact hx
    · have hboot : ((initObjects u).created idleTid idleArgs).mail q = ⟨v, [], []⟩ := by
        rw [created_eq rfl]
        simp only [State.mail, initObjects, State.updThread, State.updTimer, hinit]
        rfl
      show Delivers _
      rw [hboot, hv.1]
      exact ⟨⟨hv.2, hfit⟩, ⟨rfl, BitVec.le_def.mpr (Nat.zero_le _), BitVec.sub_self _⟩⟩
    · show Delivers (y.mail q)
      rcases he.mail q with he' | ⟨hfull, msg, he'⟩ | ⟨hempty, he'⟩ <;> rw [he']
      · exact hx
      · exact ⟨⟨hx.1.slots, hx.1.space⟩, hx.2.send hx.1 hfull msg⟩
      · exact ⟨⟨hx.1.slots, hx.1.space⟩, hx.2.recv hx.1 hempty⟩
  exact hinv.2

/-- A queue of two messages of one byte. -/
def twoSlots : Setup := { queues := fun _ => (1, 2) }

/-- Two senders fill the queue and the second one waits; a receiver makes room for its message. -/
def fullQueueRun : List Action :=
  [spawn 1 20, .start, .call (.wait (.queueSend 0 [7] ndTimeoutForever)),
    .call (.wait (.queueSend 0 [8] ndTimeoutForever)), spawn 2 5,
    .call (.wait (.queueSend 0 [9] ndTimeoutForever)),
    .call (.wait (.queueRecv 0 ndTimeoutForever)), .resume]

/-- The third message is stored in the first slot, behind the second one. -/
theorem queue_lossless_run :
    ∃ s, (kernel syncPort).run fullQueueRun (boot syncPort twoSlots) = some s ∧
      (s.mail 0).received = [[7]] ∧ (s.mail 0).queue.stored = [[8], [9]] ∧
      Lossless (s.mail 0) := by
  obtain ⟨s, hs, hp⟩ := (kernel syncPort).exists_run (l := fullQueueRun)
    (s := boot syncPort twoSlots)
    (p := fun s => (s.mail 0).received = [[7]] ∧ (s.mail 0).queue.stored = [[8], [9]])
    (by decide +kernel)
  simp only [decide_eq_true_eq] at hp
  exact ⟨s, hs, hp.1, hp.2, queue_lossless
    ((kernel syncPort).path_of_run (fun _ _ _ => trivial) hs) 0 rfl (by decide)⟩

end NerdRtos
