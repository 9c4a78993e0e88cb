import NerdRtos.Lib.ContextSwitch
import NerdRtos.Analysis.FramesRv32

/-!
# Threads on RISC-V are resumed as they were left

The code of the port is a port in the sense of `ContextSwitch`: what a trap or a voluntary switch
saves, the code that resumes a thread restores, whichever way the thread before it was switched
out.
-/

set_option autoImplicit false

namespace NerdRtos

namespace Rv32

variable {y : Symbols} {h : Hart} {c : Cpu} {m m' : Word → Word} {k : Way}

/-! ## Save and restore -/

/-- What the port does for a thread that is switched out. -/
def save (y : Symbols) : Way → Cpu → (Word → Word) → Word → Word
  | .voluntary, c, m => (ndHwDoSwitch y ⟨c, m⟩).mem
  | .trap, c, m => (riscvTrapEntry y (trap ⟨c, m⟩)).mem

/-- What it does when C code has chosen a thread. -/
def restore (y : Symbols) : Option Way → Cpu → (Word → Word) → Hart
  | none, g, m => ndHwDoSwitchFirst y ⟨g, m⟩
  | some .voluntary, g, m => ndHwDoSwitchBack y ⟨g, m⟩
  | some .trap, g, m => riscvTrapExit y ⟨g, m⟩

/-- `d` goes on where a thread was that was switched out in the context `c`, with the memory `m`.
After a voluntary switch it may be interrupted before it has its registers, and its frame is still
needed. -/
def Resumes (y : Symbols) : Way → Cpu → (Word → Word) → Cpu → Prop
  | .voluntary, c, m, d =>
    d.pc = y.restoreVoluntary ∧ d.mode = c.mode ∧ d.csr .mstatus = c.csr .mstatus ∧
      ∀ mems : ℕ → Word → Word,
        (∀ n, ∀ o ∈ voluntaryFrame.offsets,
          mems n (Way.voluntary.base c + o) = m (Way.voluntary.base c + o)) →
        Returns c (runAmid restoreVoluntaryRest mems d)
  | .trap, c, _, d => Continues c d

/-- The offset 0 is no offset. -/
theorem add_zero_word (a : Word) : a + 0 = a := BitVec.add_zero a

/-- The frame is stored, and where it is in the thread. -/
theorem save_eq {t : Word} (hcur : m y.ndCurrentThread = t) (ht : t ≠ 0)
    (hout : y.ndCurrentThread ∉ k.frame c) :
    save y k c m = Function.update (k.words c m) t (k.base c) := by
  have hword : k.words c m (y.ndCurrentThread + 0) = t := by
    rw [add_zero_word, words_other hout, hcur]
  cases k with
  | voluntary =>
    have hmem := ndHwDoSwitch_mem (y := y) c m
    rw [hword, add_zero_word] at hmem
    exact hmem
  | trap =>
    have hmem := riscvTrapEntry_mem (y := y) c m (hword.trans_ne ht)
    rw [hword, add_zero_word] at hmem
    exact hmem

/-- Whichever way, the thread in `nd_current_thread` is restored. -/
theorem restore_eq {t : Word} {w : Option Way} {g : Cpu} (hcur : m y.ndCurrentThread = t)
    (ht : t ≠ 0) (hfirst : w = none → m (g.reg .sp) = t) :
    ∃ h, restore y w g m = restoreDispatch y h ∧ h.mem = m ∧ h.cpu.reg .sp = m t ∧
      h.cpu.mode = g.mode := by
  match w with
  | none =>
    have hsp := hfirst rfl
    refine ⟨_, rfl, rfl, ?_, rfl⟩
    simp only [run_cons, run_nil, lw, li, addi, Cpu.setReg, Function.update_self, ne_eq,
      reduceCtorEq, not_false_eq_true, Function.update_of_ne, hsp, add_zero_word]
  | some .voluntary =>
    refine ⟨_, rfl, rfl, ?_, rfl⟩
    simp only [run_cons, run_nil, la, lw, li, Cpu.setReg, Function.update_self, hcur, add_zero_word]
  | some .trap =>
    have ht₁ : (run [la .t0 y.ndCurrentThread, lw .t1 0 .t0] ⟨g, m⟩).cpu.reg .t1 = t := by
      simp only [run_cons, run_nil, la, lw, li, Cpu.setReg, Function.update_self,
        add_zero_word, hcur]
    refine ⟨lw .sp 0 .t1 (run [la .t0 y.ndCurrentThread, lw .t1 0 .t0] ⟨g, m⟩), ?_, rfl, ?_, rfl⟩
    · simp only [restore, riscvTrapExit, ht₁, if_neg ht]
    · simp only [run_cons, run_nil, la, lw, li, Cpu.setReg, Function.update_self, hcur,
        add_zero_word]

/-- Taking the frame off a thread writes its stack pointer and nothing else. -/
theorem takenOff_other {p t a : Word} (hcur : m y.ndCurrentThread = t) (ha : a ≠ t) :
    takenOff y p m a = m a := by
  unfold takenOff
  rw [add_zero_word, hcur, add_zero_word]
  split
  · rfl
  · exact Function.update_of_ne ha _ _

/-- The restore writes no more than where the frame of the thread is. -/
theorem restoreDispatch_mem {t a : Word} (hcur : h.mem y.ndCurrentThread = t) (ha : a ≠ t) :
    (restoreDispatch y h).mem a = h.mem a := by
  unfold restoreDispatch
  obtain ⟨hmem, -⟩ := dispatch_head 0 frameTypePreempt h
  generalize run [lw .t0 0 .sp, li .t1 frameTypePreempt] h = h₁ at hmem ⊢
  rw [← hmem] at hcur ⊢
  simp only []
  split
  · obtain ⟨hmem', -⟩ := restoreIrq_spec (y := y) (h := h₁) rfl rfl rfl
    rw [hmem']
    exact takenOff_other hcur ha
  · obtain ⟨hmem', -⟩ :=
      voluntary_csrs meicontextForeground 0 y.restoreVoluntary (addi .sp .sp 4 h₁)
    exact congrFun hmem' a

/-- A context that was saved by `nd_hw_do_switch` is resumed. -/
theorem restoreVoluntary_resumes (hsp : h.cpu.reg .sp = Way.voluntary.base c + 4)
    (hmode : h.cpu.mode = c.mode)
    (hm : ∀ s o, (s, o) ∈ Way.voluntary.layout.slots →
      h.mem (Way.voluntary.base c + o) = Way.voluntary.value c s) :
    Resumes y .voluntary c h.mem (restoreVoluntary y h).cpu := by
  unfold restoreVoluntary
  obtain ⟨-, hsp', hmode', hpc, hmstatus⟩ :=
    voluntary_csrs meicontextForeground 0 y.restoreVoluntary h
  generalize run [li .t0 meicontextForeground, csrw .meicontext .t0, lw .t0 0 .sp,
    csrw .mstatus .t0, j y.restoreVoluntary] h = h' at hsp' hmode' hpc hmstatus ⊢
  rw [hsp] at hsp' hmstatus
  have hslot : (Slot.csr .mstatus, 4) ∈ Way.voluntary.layout.slots := by decide
  have hword : h.mem (Way.voluntary.base c + 4 + 0) = c.csr .mstatus := by
    rw [add_zero_word]
    exact hm (.csr .mstatus) 4 hslot
  refine ⟨hpc, hmode'.trans hmode, hmstatus.trans hword, fun mems hmems => ?_⟩
  apply restoreVoluntaryRest_returns hsp'
  intro n r o hslot
  have ho : o ∈ voluntaryFrame.offsets := List.mem_map_of_mem hslot
  exact (hmems n o ho).trans (hm (.reg r) o (reg_slot (k := .voluntary) hslot))

/-- A thread whose frame is in the memory is resumed from it. -/
theorem restoreDispatch_resumes {t : Word} (hsp : h.cpu.reg .sp = k.base c)
    (hmode : c.mode = machineMode) (hmode' : h.cpu.mode = machineMode)
    (hcur : h.mem y.ndCurrentThread = t) (hout : t ∉ k.frame c)
    (hm : ∀ s o, (s, o) ∈ k.layout.slots → h.mem (k.base c + o) = k.value c s) :
    Resumes y k c h.mem (restoreDispatch y h).cpu := by
  unfold restoreDispatch
  obtain ⟨hmem, hsp₁, hmode₁, ht₀, ht₁⟩ := dispatch_head 0 frameTypePreempt h
  generalize run [lw .t0 0 .sp, li .t1 frameTypePreempt] h = h₁ at hmem hsp₁ hmode₁ ht₀ ht₁ ⊢
  have htype : h₁.cpu.reg .t0 = k.frameType := by
    rw [ht₀, hsp, hm .frameType 0 (by cases k <;> decide)]
    rfl
  simp only [htype, ht₁]
  rw [hsp] at hsp₁
  rw [← hmem] at hcur hm ⊢
  cases k with
  | voluntary =>
    have hne : ¬Way.voluntary.frameType = frameTypePreempt := by decide
    rw [if_neg hne]
    have hsp₂ : (addi .sp .sp 4 h₁).cpu.reg .sp = Way.voluntary.base c + 4 := by
      rw [← hsp₁]
      rfl
    have hmem₂ : (addi .sp .sp 4 h₁).mem = h₁.mem := rfl
    have hmode₂ : (addi .sp .sp 4 h₁).cpu.mode = c.mode :=
      hmode₁.trans (hmode'.trans hmode.symm)
    generalize addi .sp .sp 4 h₁ = h₂ at hsp₂ hmem₂ hmode₂ ⊢
    rw [← hmem₂] at hm ⊢
    exact restoreVoluntary_resumes hsp₂ hmode₂ hm
  | trap =>
    have heq : Way.trap.frameType = frameTypePreempt := rfl
    rw [if_pos heq]
    apply restoreIrq_continues hsp₁ hmode
    intro s o hs
    have hne : Way.trap.base c + o ≠ t := by
      rintro rfl
      exact hout (mem_frame hs)
    exact (takenOff_other hcur hne).trans (hm s o hs)

/-! ## The port -/

/-- The threads in the memory: no two of them, and none of them and `nd_current_thread`, have a
word in common. -/
structure Placement (y : Symbols) (T : Type) where
  thread : T → Word
  stack : T → Set Word
  thread_injective : thread.Injective
  thread_ne_zero : ∀ t, thread t ≠ 0
  stack_disjoint : ∀ {t u a}, t ≠ u → a ∈ stack t → a ∉ stack u
  thread_notMem_stack : ∀ t u, thread t ∉ stack u
  current_notMem_stack : ∀ t, y.ndCurrentThread ∉ stack t
  current_ne_thread : ∀ t, y.ndCurrentThread ≠ thread t

variable {T : Type} (pl : Placement y T)

/-- The context is one of machine mode, and has room for a frame of either kind on the stack of the
thread. -/
structure Placement.Valid (t : T) (c : Cpu) : Prop where
  mode : c.mode = machineMode
  room : ∀ k : Way, k.frame c ⊆ pl.stack t

/-- The words of a thread while it is switched out: the frame, and where it is. -/
def Placement.frame (t : T) (k : Way) (c : Cpu) : Set Word := insert (pl.thread t) (k.frame c)

/-- `nd_current_thread` is this thread. -/
def Placement.current (m : Word → Word) (t : T) : Prop := m y.ndCurrentThread = pl.thread t

/-- `nd_context_switch_cb` has set `nd_current_thread`, in machine mode. The code of the first
switch has kept the thread on its own stack. -/
structure Placement.Chosen (w : Option Way) (g : Cpu) (m : Word → Word) (t : T) : Prop where
  current : pl.current m t
  mode : g.mode = machineMode
  first : w = none → m (g.reg .sp) = pl.thread t

section Laws

variable {pl} {t u : T}

/-- The pointer to the current thread is in no frame. -/
theorem current_notMem_frame (hv : pl.Valid t c) : y.ndCurrentThread ∉ pl.frame t k c := by
  rintro (he | hmem)
  · exact pl.current_ne_thread t he
  · exact pl.current_notMem_stack t (hv.room k hmem)

/-- No control block is in a frame. -/
theorem thread_notMem_frame (hv : pl.Valid t c) (u : T) : pl.thread u ∉ k.frame c :=
  fun hmem => pl.thread_notMem_stack u t (hv.room k hmem)

/-- The frames of two threads have no word in common. -/
theorem frame_disjoint {k' : Way} {c' : Cpu} {a : Word} (hne : t ≠ u) (hv : pl.Valid t c)
    (hv' : pl.Valid u c') (ha : a ∈ pl.frame u k' c') : a ∉ pl.frame t k c := by
  rcases ha with rfl | ha
  · rintro (he | hmem)
    · exact hne (pl.thread_injective he.symm)
    · exact thread_notMem_frame hv u hmem
  · rintro (rfl | hmem)
    · exact thread_notMem_frame hv' t ha
    · exact pl.stack_disjoint hne (hv.room k hmem) (hv'.room k' ha)

/-- What is saved: the words of the frame, and the stack pointer in the control block. -/
theorem save_placed (hv : pl.Valid t c) (hcur : pl.current m t) :
    save y k c m = Function.update (k.words c m) (pl.thread t) (k.base c) :=
  save_eq hcur (pl.thread_ne_zero t) fun hmem => pl.current_notMem_stack t (hv.room k hmem)

/-- Saving writes to the frame and to the control block. -/
theorem save_other {a : Word} (hv : pl.Valid t c) (hcur : pl.current m t)
    (ha : a ∉ pl.frame t k c) : save y k c m a = m a := by
  rw [save_placed hv hcur, Function.update_of_ne fun he => ha (.inl he)]
  exact words_other fun hmem => ha (.inr hmem)

variable {w : Option Way} {g : Cpu}

/-- Restoring writes to the control block at most. -/
theorem restore_other {a : Word} (hchosen : pl.Chosen w g m t) (ha : a ≠ pl.thread t) :
    (restore y w g m).mem a = m a := by
  obtain ⟨h, hrest, rfl, -, -⟩ := restore_eq hchosen.current (pl.thread_ne_zero t) hchosen.first
  rw [hrest]
  exact restoreDispatch_mem hchosen.current ha

/-- A thread whose frame is in the memory is resumed, and only its control block is written. -/
theorem restore_framed (hv : pl.Valid t c) (hthread : m (pl.thread t) = k.base c)
    (hm : ∀ s o, (s, o) ∈ k.layout.slots → m (k.base c + o) = k.value c s)
    (hchosen : pl.Chosen w g m t) : Resumes y k c m (restore y w g m).cpu := by
  obtain ⟨h, hrest, rfl, hsp, hmode⟩ :=
    restore_eq hchosen.current (pl.thread_ne_zero t) hchosen.first
  rw [hrest]
  exact restoreDispatch_resumes (hsp.trans hthread) hv.mode (hmode.trans hchosen.mode)
    hchosen.current (thread_notMem_frame hv t) hm

/-- A thread is resumed as it was left, as long as the words of its frame stay. -/
theorem restore_save (hv : pl.Valid t c) (hcur : pl.current m t) (hchosen : pl.Chosen w g m' t)
    (hm : ∀ a ∈ pl.frame t k c, m' a = save y k c m a) :
    Resumes y k c m' (restore y w g m').cpu := by
  rw [save_placed hv hcur] at hm
  apply restore_framed hv _ _ hchosen
  · rw [hm _ (.inl rfl), Function.update_self]
  · intro s o hs
    have hne : k.base c + o ≠ pl.thread t := by
      intro he
      exact thread_notMem_frame hv t (he ▸ mem_frame hs)
    rw [hm _ (.inr (mem_frame hs)), Function.update_of_ne hne, words_at hs]

end Laws

open ContextSwitch (Port)

/-- `arch/riscv` as a port. -/
def port : Port T Way Cpu Word Word where
  valid := pl.Valid
  frame := pl.frame
  current := pl.current
  chosen := pl.Chosen
  save := save y
  restore w g m := ((restore y w g m).cpu, (restore y w g m).mem)
  resumes := Resumes y
  frame_disjoint := frame_disjoint
  save_other := save_other
  chosen_current := fun hchosen => hchosen.current
  restore_other := fun _ _ hchosen _ ha => restore_other hchosen fun he => ha (.inl he)
  restore_save := restore_save
  current_other := fun hv hcur hother => (hother _ (current_notMem_frame hv)).trans hcur

/-! ## Runs -/

section Runs

variable {pl} {t u : T}

/-- A frame in the memory is one that the thread is resumed from. -/
theorem saved_framed (hv : pl.Valid t c) (hthread : m (pl.thread t) = k.base c)
    (hm : ∀ s o, (s, o) ∈ k.layout.slots → m (k.base c + o) = k.value c s) :
    (port pl).Saved t k c m := by
  intro m' hframe w g hchosen
  refine ⟨?_, fun a ha => restore_other hchosen fun he => ha (.inl he)⟩
  apply restore_framed hv _ _ hchosen
  · exact (hframe _ (.inl rfl)).trans hthread
  · intro s o hs
    exact (hframe _ (.inr (mem_frame hs))).trans (hm s o hs)

/-- The memory after `nd_hw_stack_init` for thread `t`, with its result in the control block. -/
def Placement.created (pl : Placement y T) (t : T) (entry parameter stackAddr : Word)
    (m : Word → Word) : Word → Word :=
  Function.update (ndHwStackInit y entry parameter stackAddr m).2 (pl.thread t)
    (ndHwStackInit y entry parameter stackAddr m).1

/-- The words that `nd_hw_stack_init` writes are on the stack of the thread. -/
def Placement.Fits (pl : Placement y T) (t : T) (stackAddr : Word) : Prop :=
  ∀ i < 16, ndAlignDown stackAddr 16 - BitVec.ofNat 32 (4 * (i + 1)) ∈ pl.stack t

variable {entry parameter stackAddr : Word}

/-- The frame of a new thread is there. -/
theorem saved_created (hv : pl.Valid t (newThread y entry parameter stackAddr)) :
    (port pl).Saved t .voluntary (newThread y entry parameter stackAddr)
      (pl.created t entry parameter stackAddr m) := by
  obtain ⟨hbase, hwords⟩ := ndHwStackInit_frame (y := y) entry parameter stackAddr m
  apply saved_framed hv
  · exact (Function.update_self _ _ _).trans hbase
  · intro s o hs
    have hne : Way.voluntary.base (newThread y entry parameter stackAddr) + o ≠ pl.thread t := by
      intro he
      exact thread_notMem_frame hv t (he ▸ mem_frame hs)
    rw [← hwords s o hs, hbase]
    exact Function.update_of_ne hne _ _

/-- Creating a thread writes to its stack and to its control block. -/
theorem created_other {a : Word} (hfits : pl.Fits t stackAddr) (ha : a ≠ pl.thread t)
    (hstack : a ∉ pl.stack t) : pl.created t entry parameter stackAddr m a = m a := by
  rw [Placement.created, Function.update_of_ne ha]
  apply ndHwStackInit_other
  rintro i hi rfl
  exact hstack (hfits i hi)

/-- A word that no frame has may be written while the threads are switched out. -/
theorem update_keeps {left : T → Option (Way × Cpu)} {off : Option T} {p x : Word}
    (hp : ∀ t k c, left t = some (k, c) → off ≠ some t → p ∉ pl.frame t k c)
    (hm : (port pl).Keeps left off m m') : (port pl).Keeps left off m (Function.update m' p x) := by
  intro t k c hl ho a ha
  have hne : a ≠ p := by
    rintro rfl
    exact hp t k c hl ho ha
  rw [Function.update_of_ne hne]
  exact hm t k c hl ho a ha

variable [DecidableEq T] {s : ContextSwitch.State T Way Cpu Word Word}
  {a : ContextSwitch.Act T Way Cpu Word Word}

/-- Every thread that has been switched out left a valid context. -/
theorem valid_of_reach (hs : (port pl).machine.Reach Machine.Always s) (hl : s.left t = some (k, c))
    (ho : s.current ≠ some t) : pl.Valid t c :=
  ((Port.sound_reach hs).saved t k c hl ho).1

/-- `nd_hw_stack_init` may be called for any thread that does not run. -/
theorem enabled_create (hs : (port pl).machine.Reach Machine.Always s) (ht : s.current ≠ some t)
    (hv : pl.Valid t (newThread y entry parameter stackAddr)) (hfits : pl.Fits t stackAddr) :
    (port pl).machine.enabled s (.create t .voluntary (newThread y entry parameter stackAddr)
      (pl.created t entry parameter stackAddr s.mem)) := by
  refine ⟨ht, hv, saved_created hv, fun u hu => ?_, fun u k' c' hne hl ho a ha => ?_⟩
  · have hsame : pl.created t entry parameter stackAddr s.mem y.ndCurrentThread =
        s.mem y.ndCurrentThread :=
      created_other hfits (pl.current_ne_thread t) (pl.current_notMem_stack t)
    exact hsame.trans ((Port.sound_reach hs).current u hu)
  · have hv' := valid_of_reach hs hl ho
    rcases ha with rfl | ha
    · exact created_other hfits (fun he => hne (pl.thread_injective he))
        (pl.thread_notMem_stack u t)
    · refine created_other hfits ?_ (pl.stack_disjoint hne (hv'.room k' ha))
      rintro rfl
      exact thread_notMem_frame hv' t ha

/-- The first thread may be any that was created, with its address anywhere off the frames. -/
theorem enabled_first (hs : (port pl).machine.Reach Machine.Always s) (hnone : s.current = none)
    (ht : (s.left t).isSome) {g : Cpu} (hg : g.mode = machineMode)
    (hp : ∀ u, g.reg .sp ≠ pl.thread u ∧ g.reg .sp ∉ pl.stack u)
    (hne : g.reg .sp ≠ y.ndCurrentThread) :
    (port pl).machine.enabled s (.first t (Function.update
      (Function.update s.mem (g.reg .sp) (pl.thread t)) y.ndCurrentThread (pl.thread t)) g) := by
  have hv : ∀ u k c, s.left u = some (k, c) → pl.Valid u c := by
    intro u k c hl
    exact valid_of_reach hs hl (by simp [hnone])
  refine ⟨hnone, ht, ?_, Function.update_self _ _ _, hg, fun _ => ?_⟩
  · apply update_keeps
    · intro u k c hl _
      exact current_notMem_frame (hv u k c hl)
    · apply update_keeps
      · rintro u k c hl - (he | hmem)
        · exact (hp u).1 he
        · exact (hp u).2 ((hv u k c hl).room k hmem)
      · exact fun _ _ _ _ _ _ _ => rfl
  · rw [Function.update_of_ne hne, Function.update_self]

/-- Between save and restore `nd_context_switch_cb` sets `nd_current_thread`, to the thread itself
or any other that is switched out. -/
theorem enabled_switch (hs : (port pl).machine.Reach Machine.Always s) (hcur : s.current = some u)
    (hv : pl.Valid u s.cpu) (ht : t = u ∨ (s.left t).isSome) {g : Cpu}
    (hg : g.mode = machineMode) :
    (port pl).machine.enabled s (.switch k t (Function.update (save y k s.cpu s.mem)
      y.ndCurrentThread (pl.thread t)) g) := by
  refine ⟨u, hcur, hv, ht, ⟨Function.update_self _ _ _, hg, fun hw => nomatch hw⟩, ?_⟩
  apply update_keeps
  · intro v k' c' hl _
    by_cases hvu : v = u
    · subst hvu
      rw [Function.update_self, Option.some.injEq, Prod.mk.injEq] at hl
      obtain ⟨rfl, rfl⟩ := hl
      exact current_notMem_frame hv
    · rw [Function.update_of_ne hvu] at hl
      have ho : s.current ≠ some v := by
        rw [hcur, ne_eq, Option.some.injEq]
        exact fun he => hvu he.symm
      exact current_notMem_frame (valid_of_reach hs hl ho)
  · exact fun _ _ _ _ _ _ _ => rfl

/-- The threads may compute. -/
theorem enabled_run (hs : (port pl).machine.Reach Machine.Always s) (d : Cpu) :
    (port pl).machine.enabled s (.run d s.mem) :=
  ⟨fun _ _ _ _ _ _ _ => rfl, (Port.sound_reach hs).current⟩

/-- A thread computes and is switched out, for another one that waits. -/
theorem exists_switch (hs : (port pl).machine.Reach Machine.Always s) (hcur : s.current = some u)
    {d : Cpu} (hv : pl.Valid u d) (ht : (s.left t).isSome) (k : Way) : ∃ s' m g,
      (port pl).machine.Reach Machine.Always s' ∧
      (port pl).machine.enabled s' (.switch k t m g) ∧
      ((port pl).machine.next (.switch k t m g) s').current = some t ∧
      ((port pl).machine.next (.switch k t m g) s').left =
        Function.update s.left u (some (k, d)) := by
  have hs' := hs.step _ (enabled_run hs d) trivial
  refine ⟨_, _, { d with mode := machineMode }, hs',
    enabled_switch hs' hcur hv (.inr ht) rfl, rfl, ?_⟩
  exact (port pl).left_switch (s := (port pl).next (.run d s.mem) s) hcur k t _ _

/-- Whatever the threads, the interrupts and the C code between save and restore do, as long as they
keep off the frames of the threads that are switched out, every thread is resumed with the context
that it had. -/
theorem threads_resume_as_left (hs : (port pl).machine.Reach Machine.Always s)
    (he : (port pl).machine.enabled s a) (ha : a.resumed = some (t, m))
    (hl : ((port pl).machine.next a s).left t = some (k, c)) :
    Resumes y k c m ((port pl).machine.next a s).cpu :=
  Port.resumes_of_reach hs he ha hl

end Runs

/-! ## Two threads -/

def twoSymbols : Symbols where
  ndCurrentThread := 0x100
  ndNextThread := 0x104
  ndThreadEntry := 0x10
  taskEntryTrampoline := 0x20
  restoreVoluntary := 0x30

/-- The end of the stack of a thread, which has a page. -/
def stackEnd : Bool → Word
  | false => 0x2000
  | true => 0x4000

def twoThreads : Placement twoSymbols Bool where
  thread
    | false => 0x200
    | true => 0x300
  stack t := {a | (stackEnd t).toNat ≤ a.toNat + 0x1000 ∧ a.toNat < (stackEnd t).toNat}
  thread_injective t u := by cases t <;> cases u <;> decide
  thread_ne_zero t := by cases t <;> decide
  stack_disjoint := by
    intro t u a hne ht hu
    cases t <;> cases u
    · exact hne rfl
    · simp only [stackEnd, Set.mem_ofPred_eq, BitVec.reduceToNat] at ht hu
      omega
    · simp only [stackEnd, Set.mem_ofPred_eq, BitVec.reduceToNat] at ht hu
      omega
    · exact hne rfl
  thread_notMem_stack t u h := by
    cases t <;> cases u <;> simp [stackEnd] at h
  current_notMem_stack t h := by
    cases t <;> simp [stackEnd, twoSymbols] at h
  current_ne_thread t := by cases t <;> decide

/-- A context with an empty stack. -/
def atStackEnd (t : Bool) (pc : Word) : Cpu where
  reg _ := stackEnd t
  csr _ := mstatusMie
  pc := pc
  mode := machineMode

/-- At the end of its stack each of the two threads has room for both frames. -/
theorem valid_of_stackEnd {t : Bool} (hsp : c.reg .sp = stackEnd t) (hmode : c.mode = machineMode) :
    twoThreads.Valid t c := by
  refine ⟨hmode, fun k a ha => ?_⟩
  have hroom : 0x1000 ≤ (stackEnd t).toNat := by cases t <;> decide
  obtain ⟨hlo, hhi⟩ := frame_range (by rw [hsp]; omega) ha
  rw [hsp] at hlo hhi
  exact ⟨by omega, hhi⟩

/-- The two stacks end at multiples of 16. -/
theorem stackEnd_aligned (t : Bool) : ndAlignDown (stackEnd t) 16 = stackEnd t := by
  cases t <;> decide

/-- A new thread begins at the end of its stack. -/
theorem newThread_valid (t : Bool) : twoThreads.Valid t (newThread twoSymbols 0 0 (stackEnd t)) :=
  valid_of_stackEnd (stackEnd_aligned t) rfl

/-- The two stacks have room for the frame of a new thread. -/
theorem twoThreads_fits (t : Bool) : twoThreads.Fits t (stackEnd t) := by
  intro i hi
  rw [stackEnd_aligned]
  show (stackEnd t).toNat ≤ (stackEnd t - _).toNat + 0x1000 ∧ (stackEnd t - _).toNat < _
  have hroom : 0x1000 ≤ (stackEnd t).toNat := by cases t <;> decide
  generalize stackEnd t = p at hroom
  bv_omega

/-- Two threads are created and the first is started. It calls `nd_hw_do_switch`; the second is
interrupted, and the first returns from its call; the first calls it again, and the second goes on
where it was interrupted. -/
theorem threads_resume_as_left_two : ∃ (s s' : ContextSwitch.State Bool Way Cpu Word Word)
    (m m' : Word → Word) (g g' : Cpu),
    Resumes twoSymbols .voluntary (atStackEnd false 0x40) m
      ((port twoThreads).machine.next (.switch .trap false m g) s).cpu ∧
    Resumes twoSymbols .trap (atStackEnd true 0x80) m'
      ((port twoThreads).machine.next (.switch .voluntary true m' g') s').cpu := by
  let M := (port twoThreads).machine
  have h₀ : M.Reach Machine.Always
      { cpu := atStackEnd false 0, mem := fun _ => 0, current := none, left := fun _ => none } :=
    .start ⟨rfl, fun _ => rfl⟩
  have h₁ := h₀.step _ (enabled_create h₀ (by simp) (newThread_valid false)
    (twoThreads_fits false)) trivial
  have h₂ := h₁.step _ (enabled_create h₁ (by exact fun he => nomatch he) (newThread_valid true)
    (twoThreads_fits true)) trivial
  have h₃ := h₂.step _ (enabled_first (t := false) h₂ rfl rfl
    (g := { atStackEnd false 0 with reg := fun _ => 0x80 }) rfl
    (fun u => by cases u <;> simp [twoThreads, stackEnd]) (by decide)) trivial
  have hfalse : ∀ pc, twoThreads.Valid false (atStackEnd false pc) := fun pc =>
    valid_of_stackEnd rfl rfl
  have htrue : ∀ pc, twoThreads.Valid true (atStackEnd true pc) := fun pc =>
    valid_of_stackEnd rfl rfl
  obtain ⟨s₄, m₄, g₄, hs₄, he₄, hcur₄, hl₄⟩ :=
    exists_switch (t := true) h₃ rfl (hfalse 0x40) rfl .voluntary
  obtain ⟨s₅, m₅, g₅, hs₅, he₅, hcur₅, hl₅⟩ :=
    exists_switch (t := false) (hs₄.step _ he₄ trivial) hcur₄ (htrue 0x80) (by rw [hl₄]; rfl) .trap
  obtain ⟨s₆, m₆, g₆, hs₆, he₆, -, hl₆⟩ :=
    exists_switch (t := true) (hs₅.step _ he₅ trivial) hcur₅ (hfalse 0x44)
      (by rw [hl₅]; rfl) .voluntary
  refine ⟨s₅, s₆, m₅, m₆, g₅, g₆, ?_, ?_⟩
  · apply threads_resume_as_left (t := false) hs₅ he₅ rfl
    rw [hl₅, Function.update_of_ne (by decide), hl₄, Function.update_self]
  · apply threads_resume_as_left (t := true) hs₆ he₆ rfl
    rw [hl₆, Function.update_of_ne (by decide), hl₅, Function.update_self]

end Rv32

end NerdRtos
