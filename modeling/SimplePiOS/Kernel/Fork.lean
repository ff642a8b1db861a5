import SimplePiOS.Kernel.Cswitch

/-! The stack that `rpi_fork` prepares, and the first switch to it. A block has its `next`, `sp` and
`tid` in its first three words, then the stack. -/
namespace SimplePiOS.Kernel
open Lib.Arm

section Code

def stackSize : ℕ := 1024 * 8

/-- The word `t->stack[i]`. -/
def stackWord (t : Word) (i : ℕ) : Word := t + 12 + BitVec.ofNat 32 (4 * i)

/-- The word `t->sp`. -/
def spField (t : Word) : Word := t + 4

def InStack (t a : Word) : Prop := ∃ i < stackSize, a = stackWord t i

/-- The offsets in the frame, in words. -/
def r0Offset : ℕ := 0x04 / 4
def r1Offset : ℕ := 0x08 / 4
def lrOffset : ℕ := 0x38 / 4
def cpsrOffset : ℕ := 0x3C / 4
def totalOffset : ℕ := 0x3C / 4

/-- What `rpi_fork` passes on to the thread. -/
structure Forked where
  tid : Word
  cpsr : Word
  code : Word
  arg : Word
  trampoline : Word

/-- `t->sp[j] = v` -/
def frameStore (t : Word) (j : ℕ) (v : Word) (m : Word → Word) : Word → Word :=
  Function.update m (m (spField t) + BitVec.ofNat 32 (4 * j)) v

/-- The stores of `rpi_fork` to `t->tid` and `t->sp`. -/
def fieldStores (t : Word) (k : Forked) (m : Word → Word) : Word → Word :=
  let m := Function.update m (t + 8) k.tid
  let m := Function.update m (spField t) (stackWord t (stackSize - 1))
  Function.update m (spField t) (m (spField t) - BitVec.ofNat 32 (4 * totalOffset))

/-- The stores of `rpi_fork` into the block, in their order, the last one in `Q_append`. -/
def forkStores (t : Word) (k : Forked) (m : Word → Word) : Word → Word :=
  let m := fieldStores t k m
  let m := frameStore t cpsrOffset k.cpsr m
  let m := frameStore t r0Offset k.arg m
  let m := frameStore t r1Offset k.code m
  let m := frameStore t lrOffset k.trampoline m
  Function.update m t 0

/-- `rpi_init_trampoline`, with the address of `rpi_exit`. -/
def rpiInitTrampoline (rpiExit : Word) : List Instr := [.blx (.r 1), .bl rpiExit]

end Code

section Layout
variable {t : Word} {k : Forked} {m : Word → Word} {i j : ℕ}

theorem stackWord_toNat (t : Word) (i : ℕ) :
    (stackWord t i).toNat = (t.toNat + 12 + 4 * i) % 2 ^ 32 := by
  have h12 : BitVec.toNat (12 : Word) = 12 := rfl
  simp only [stackWord, BitVec.toNat_add, BitVec.toNat_ofNat, h12]
  omega

theorem stackWord_injective (hi : i < stackSize) (hj : j < stackSize)
    (h : stackWord t i = stackWord t j) : i = j := by
  have hnat := congrArg BitVec.toNat h
  rw [stackWord_toNat, stackWord_toNat] at hnat
  rw [stackSize] at hi hj
  omega

/-- The stack lies behind the other fields. -/
theorem stackWord_ne (hi : i < stackSize) : stackWord t i ≠ t ∧ stackWord t i ≠ spField t := by
  have h4 : BitVec.toNat (4 : Word) = 4 := rfl
  have hlt := t.isLt
  constructor
  · intro h
    have hnat := congrArg BitVec.toNat h
    rw [stackWord_toNat] at hnat
    rw [stackSize] at hi
    omega
  · intro h
    have hnat := congrArg BitVec.toNat h
    rw [stackWord_toNat, spField, BitVec.toNat_add, h4] at hnat
    rw [stackSize] at hi
    omega

theorem stackWord_add (t : Word) (i j : ℕ) :
    stackWord t i + BitVec.ofNat 32 (4 * j) = stackWord t (i + j) := by
  rw [stackWord, stackWord, BitVec.add_assoc, ← BitVec.ofNat_add, Nat.mul_add]

/-- The frame is the last sixteen words of the stack. -/
theorem stackWord_top (t : Word) :
    stackWord t (stackSize - 1) - BitVec.ofNat 32 (4 * totalOffset) = stackWord t 8176 := by
  have hadd := stackWord_add t 8176 totalOffset
  rw [← BitVec.add_sub_cancel (stackWord t 8176) (BitVec.ofNat 32 (4 * totalOffset)), hadd]
  rfl

theorem spField_ne (t : Word) : spField t ≠ t := by
  have h4 : BitVec.toNat (4 : Word) = 4 := rfl
  intro h
  have hnat := congrArg BitVec.toNat h
  rw [spField, BitVec.toNat_add, h4] at hnat
  have hlt := t.isLt
  omega

section Store
variable {v : Word}

theorem frameStore_sp (h : m (spField t) = stackWord t 8176) (hj : j < 16) :
    frameStore t j v m (spField t) = stackWord t 8176 := by
  have hin : 8176 + j < stackSize := by rw [stackSize]; omega
  rw [frameStore, h, stackWord_add, Function.update_of_ne (stackWord_ne hin).2.symm, h]

theorem frameStore_self (h : m (spField t) = stackWord t 8176) :
    frameStore t j v m (stackWord t (8176 + j)) = v := by
  rw [frameStore, h, stackWord_add, Function.update_self]

theorem frameStore_of_ne (h : m (spField t) = stackWord t 8176) (hi : i < 16) (hj : j < 16)
    (hij : i ≠ j) : frameStore t j v m (stackWord t (8176 + i)) = m (stackWord t (8176 + i)) := by
  have hne : stackWord t (8176 + i) ≠ stackWord t (8176 + j) := by
    intro heq
    have := stackWord_injective (by rw [stackSize]; omega) (by rw [stackSize]; omega) heq
    omega
  rw [frameStore, h, stackWord_add, Function.update_of_ne hne]

end Store

/-- The words of the block that the first switch relies on. -/
structure Prepared (t : Word) (k : Forked) (m : Word → Word) : Prop where
  sp : m (spField t) = stackWord t 8176
  arg : m (stackWord t (8176 + 1)) = k.arg
  code : m (stackWord t (8176 + 2)) = k.code
  trampoline : m (stackWord t (8176 + 14)) = k.trampoline
  cpsr : m (stackWord t (8176 + 15)) = k.cpsr

theorem forkStores_prepared (t : Word) (k : Forked) (m : Word → Word) :
    Prepared t k (forkStores t k m) := by
  have hlast : ∀ (m' : Word → Word) (i : ℕ), i < 16 →
      Function.update m' t 0 (stackWord t (8176 + i)) = m' (stackWord t (8176 + i)) := by
    intro m' i hi
    exact Function.update_of_ne (stackWord_ne (by rw [stackSize]; omega)).1 _ _
  have hsp₀ : fieldStores t k m (spField t) = stackWord t 8176 := by
    rw [fieldStores, Function.update_self, Function.update_self, stackWord_top]
  unfold forkStores
  generalize fieldStores t k m = m₀ at hsp₀
  have hsp₁ := frameStore_sp (j := cpsrOffset) (v := k.cpsr) hsp₀ (by decide)
  have hsp₂ := frameStore_sp (j := r0Offset) (v := k.arg) hsp₁ (by decide)
  have hsp₃ := frameStore_sp (j := r1Offset) (v := k.code) hsp₂ (by decide)
  have hsp₄ := frameStore_sp (j := lrOffset) (v := k.trampoline) hsp₃ (by decide)
  constructor
  case sp => rw [Function.update_of_ne (spField_ne t), hsp₄]
  case arg =>
    rw [hlast _ 1 (by decide), frameStore_of_ne hsp₃ (by decide) (by decide) (by decide),
      frameStore_of_ne hsp₂ (by decide) (by decide) (by decide)]
    exact frameStore_self hsp₁
  case code =>
    rw [hlast _ 2 (by decide), frameStore_of_ne hsp₃ (by decide) (by decide) (by decide)]
    exact frameStore_self hsp₂
  case trampoline =>
    rw [hlast _ 14 (by decide)]
    exact frameStore_self hsp₃
  case cpsr =>
    rw [hlast _ 15 (by decide), frameStore_of_ne hsp₃ (by decide) (by decide) (by decide),
      frameStore_of_ne hsp₂ (by decide) (by decide) (by decide),
      frameStore_of_ne hsp₁ (by decide) (by decide) (by decide)]
    exact frameStore_self hsp₀

end Layout

section Switch
variable {s : State} {t : Word} {k : Forked}

/-- The first call of `rpi_cswitch` that switches to a thread: nobody has written to its stack or its
`sp` since the fork, and the caller's frame and `sp_old` are elsewhere. -/
structure FirstSwitch (s : State) (t : Word) (k : Forked) (m : Word → Word) : Prop where
  thread : s.r 1 = spField t
  kept : ∀ a, a = spField t ∨ InStack t a → s.mem a = forkStores t k m a
  apart : ∀ a, a = spField t ∨ InStack t a → a ≠ s.r 0 ∧ ∀ j < 15, a ≠ slot (s.get .sp - 0x3C) j

theorem inStack_frame {j : ℕ} (hj : j < 16) : InStack t (stackWord t (8176 + j)) :=
  ⟨8176 + j, by rw [stackSize]; omega, rfl⟩

/-- The words the switch relies on are still there when the caller's context has been saved. -/
theorem FirstSwitch.prepared {m : Word → Word} (h : FirstSwitch s t k m) :
    Prepared t k (savedMem s) := by
  have hsame : ∀ a, a = spField t ∨ InStack t a → savedMem s a = forkStores t k m a := by
    intro a ha
    obtain ⟨h0, hslot⟩ := h.apart a ha
    rw [savedMem_outside h0 hslot, h.kept a ha]
  have hfork := forkStores_prepared t k m
  have hframe : ∀ j < 16, savedMem s (stackWord t (8176 + j)) =
      forkStores t k m (stackWord t (8176 + j)) := fun j hj => hsame _ (.inr (inStack_frame hj))
  exact ⟨(hsame _ (.inl rfl)).trans hfork.sp, (hframe 1 (by decide)).trans hfork.arg,
    (hframe 2 (by decide)).trans hfork.code, (hframe 14 (by decide)).trans hfork.trampoline,
    (hframe 15 (by decide)).trans hfork.cpsr⟩

theorem slot_stackWord (t : Word) (j : ℕ) :
    slot (stackWord t 8176) j = stackWord t (8176 + (j + 1)) := by
  rw [← stackWord_add, offset_succ, slot, BitVec.add_assoc]

theorem reads_saveContext (s : State) : reads saveContext s = [] := by
  rw [saveContext, reads, reads_append, reads_strs]
  rfl

theorem reads_switchStack (x : State) :
    reads switchStack x = [x.r 1, x.mem (x.r 1) + 0x3C] := by
  simp [switchStack, reads, Instr.reads, exec, State.next, State.atPc, State.get, State.set,
    State.bank, State.mode]

/-- What the new thread finds when it runs for the first time. -/
structure Started (s : State) (t : Word) (k : Forked) (u : State) : Prop where
  reads : ∀ a ∈ reads rpiCswitch s, a = spField t ∨ InStack t a
  cpsr : u.cpsr = switchedCpsr k.cpsr s.cpsr
  sp : InStack t (u.get .sp)
  arg : u.r 0 = k.arg
  code : u.r 1 = k.code
  lr : u.get .lr = k.trampoline

/-- The first switch, when it is made in the mode of the forker. -/
theorem run_firstSwitch {m : Word → Word} (h : FirstSwitch s t k m)
    (hbank : s.bank = bankOf (k.cpsr.setWidth 5)) : Started s t k (run rpiCswitch s) := by
  obtain ⟨x, hx, hx1, hxcpsr, -, hxmem⟩ := run_save s
  have hp := h.prepared
  rw [← hxmem] at hp
  have hpoint : x.mem (x.r 1) = stackWord t 8176 := by rw [hx1, h.thread, hp.sp]
  have htop : stackWord t 8176 + 0x3C = stackWord t (8176 + 15) := stackWord_add t 8176 15
  have hxbank : x.bank = bankOf (k.cpsr.setWidth 5) := by
    rw [← hbank]
    unfold State.bank State.mode
    rw [hxcpsr]
  have hstatus : switchedCpsr (x.mem (x.mem (x.r 1) + 0x3C)) x.cpsr =
      switchedCpsr k.cpsr s.cpsr := by rw [hpoint, htop, hp.cpsr, hxcpsr]
  -- the stack pointer of the mode in which the registers are loaded
  have hsp : ∀ y : State, y.cpsr = switchedCpsr k.cpsr s.cpsr →
      Function.update x.sp x.bank (x.mem (x.r 1)) y.bank = stackWord t 8176 := by
    intro y hy
    have hybank : y.bank = x.bank := by
      rw [hxbank]
      unfold State.bank State.mode
      rw [hy, switchedCpsr_mode]
    rw [hybank, Function.update_self, hpoint]
  have hu := run_switchOver x
  rw [rpiCswitch_split, run_append, hx]
  have hucpsr := hu.cpsr.trans hstatus
  have husp : (run switchOver x).get .sp = stackWord t (8176 + 15) := by
    rw [hu.sp, hsp _ hucpsr, htop]
  have hbase : (run switchOver x).get .sp - 0x3C = stackWord t 8176 := by
    rw [husp, ← htop]
    exact BitVec.add_sub_cancel _ _
  constructor
  case reads =>
    intro a ha
    rw [rpiCswitch_split, reads_append, reads_saveContext, List.nil_append, hx, switchOver,
      reads_append, reads_append, reads_switchStack, hpoint, htop] at ha
    obtain ⟨hycpsr, -, hysp⟩ := run_switchStack x
    rcases List.mem_append.mp ha with ha | ha
    · rcases List.mem_cons.mp ha with rfl | ha
      · exact .inl (hx1.trans h.thread)
      · rw [List.mem_singleton.mp ha]
        exact .inr (inStack_frame (by decide))
    · rcases List.mem_append.mp ha with ha | ha
      · obtain ⟨j, hj, rfl⟩ := mem_reads_ldrs sp_notMem_switchRegs ha
        have hget : (run switchStack x).get .sp = stackWord t 8176 := by
          rw [State.get, hysp, hsp _ (hycpsr.trans hstatus)]
        have hj14 : j < 14 := hj
        have hin := inStack_frame (t := t) (show j + 1 < 16 by omega)
        rw [← slot_stackWord] at hin
        rw [hget]
        exact .inr hin
      · cases ha
  case cpsr => exact hucpsr
  case sp =>
    rw [husp]
    exact inStack_frame (by decide)
  case arg =>
    rw [hu.regs 0, hbase, slot_stackWord]
    exact hp.arg
  case code =>
    rw [hu.regs 1, hbase, slot_stackWord]
    exact hp.code
  case lr =>
    rw [hu.lr, hbase, slot_stackWord]
    exact hp.trampoline

theorem exec_blx_lr (m : Reg) (s : State) : (exec (.blx m) s).get .lr = s.pc := by
  change Function.update s.lr s.bank s.pc s.bank = s.pc
  exact Function.update_self _ _ _

theorem exec_blx_sp (m : Reg) (s : State) : (exec (.blx m) s).get .sp = s.get .sp := rfl

/-- The trampoline calls `code(arg)`, and `rpi_exit` when that returns. -/
theorem Started.trampoline {u : State} {text : Text} {rpiExit : Word} (h : Started s t k u)
    (htext : Code text k.trampoline (rpiInitTrampoline rpiExit)) :
    (exec (.bx .lr) u.next).pc = k.trampoline ∧
      (∃ w, step text (exec (.bx .lr) u.next) = some w ∧ w.pc = k.code ∧ w.r 0 = k.arg ∧
        w.get .lr = k.trampoline + 4 ∧ InStack t (w.get .sp)) ∧
      ∀ x : State, x.pc = k.trampoline + 4 → ∃ y, step text x = some y ∧ y.pc = rpiExit := by
  obtain ⟨hblx, hbl, -⟩ := htext
  obtain ⟨v, hv⟩ : ∃ v, v = exec (.bx .lr) u.next := ⟨_, rfl⟩
  have hpc : v.pc = k.trampoline := by
    rw [hv, ← h.lr]
    rfl
  have hregs : v.r = u.r := by
    rw [hv]
    rfl
  have hsp : v.get .sp = u.get .sp := by
    rw [hv]
    rfl
  rw [← hv]
  refine ⟨hpc, ⟨exec (.blx (.r 1)) v.next, ?_, ?_, ?_, ?_, ?_⟩, ?_⟩
  · rw [step, hpc, hblx]
    rfl
  · rw [← h.code, ← hregs]
    rfl
  · rw [← h.arg, ← hregs]
    rfl
  · have hnext : v.next.pc = v.pc + 4 := rfl
    rw [exec_blx_lr, hnext, hpc]
  · have hnext : v.next.get .sp = v.get .sp := rfl
    rw [exec_blx_sp, hnext, hsp]
    exact h.sp
  · intro x hx
    refine ⟨exec (.bl rpiExit) x.next, ?_, rfl⟩
    rw [step, hx, hbl]
    rfl

/-- The new thread runs `code(arg)`, and `rpi_exit` when that returns. -/
theorem forked_starts {m : Word → Word} {text : Text} {rpiExit : Word} (h : FirstSwitch s t k m)
    (hbank : s.bank = bankOf (k.cpsr.setWidth 5))
    (htext : Code text k.trampoline (rpiInitTrampoline rpiExit)) :
    Started s t k (run rpiCswitch s) ∧
      (exec (.bx .lr) (run rpiCswitch s).next).pc = k.trampoline ∧
      (∃ w, step text (exec (.bx .lr) (run rpiCswitch s).next) = some w ∧ w.pc = k.code ∧
        w.r 0 = k.arg ∧ w.get .lr = k.trampoline + 4 ∧ InStack t (w.get .sp)) ∧
      ∀ x : State, x.pc = k.trampoline + 4 → ∃ y, step text x = some y ∧ y.pc = rpiExit :=
  ⟨run_firstSwitch h hbank, (run_firstSwitch h hbank).trampoline htext⟩

end Switch

section Example

/-- A fork by code with this status. -/
def forkedWith (cpsr : Word) : Forked := ⟨0, cpsr, 0x9000, 7, 0x8F00⟩

/-- The switch to it, in another status. -/
def switcher (cpsr forked : Word) : State where
  r := fun i => if i = 0 then 0x18000 else spField 0x20000
  sp := fun _ => 0x10000
  lr := fun _ => 0x8100
  spsr := fun _ => 0
  cpsr := cpsr
  pc := 0xA000
  mem := forkStores 0x20000 (forkedWith forked) fun _ => 0

theorem switcher_first (cpsr forked : Word) :
    FirstSwitch (switcher cpsr forked) 0x20000 (forkedWith forked) fun _ => 0 where
  thread := rfl
  kept := fun _ _ => rfl
  apart := by
    have hbelow : ∀ j < 15, slot (0x10000 - 0x3C) j < (0x20004 : Word) := by decide
    have hold : (0x18000 : Word) < 0x20004 := by decide
    have hblock : ∀ a, a = spField 0x20000 ∨ InStack 0x20000 a → (0x20004 : Word) ≤ a := by
      rintro a (rfl | ⟨i, hi, rfl⟩)
      · decide
      · have h0 : BitVec.toNat (0x20000 : Word) = 0x20000 := rfl
        have h4 : BitVec.toNat (0x20004 : Word) = 0x20004 := rfl
        rw [BitVec.le_def, stackWord_toNat, h0, h4]
        rw [stackSize] at hi
        omega
    intro a ha
    have hle := hblock a ha
    refine ⟨?_, fun j hj heq => ?_⟩
    · rintro rfl
      exact absurd hold (BitVec.not_lt.mpr hle)
    · exact absurd (hbelow j hj) (BitVec.not_lt.mpr (heq ▸ hle))

theorem forked_starts_svc :
    Started (switcher 0x13 0x13) 0x20000 (forkedWith 0x13) (run rpiCswitch (switcher 0x13 0x13)) ∧
    (exec (.bx .lr) (run rpiCswitch (switcher 0x13 0x13)).next).pc = 0x8F00 ∧
    (∃ w, step (fun a => if a = 0x8F00 then some (.blx (.r 1)) else some (.bl 0xB000))
        (exec (.bx .lr) (run rpiCswitch (switcher 0x13 0x13)).next) = some w ∧ w.pc = 0x9000 ∧
      w.r 0 = 7 ∧ w.get .lr = 0x8F00 + 4 ∧ InStack 0x20000 (w.get .sp)) ∧
    ∀ x : State, x.pc = 0x8F00 + 4 → ∃ y,
      step (fun a => if a = 0x8F00 then some (.blx (.r 1)) else some (.bl 0xB000)) x = some y ∧
        y.pc = 0xB000 :=
  forked_starts (switcher_first 0x13 0x13) rfl ⟨rfl, rfl, trivial⟩

/-- The switch does not restore the `GE` flags, and it goes astray when it changes the mode: the
registers then come from the stack of the other mode. -/
theorem forked_status_matters :
    (¬ ∀ (s : State) (t : Word) (k : Forked) (m : Word → Word), FirstSwitch s t k m →
      s.bank = bankOf (k.cpsr.setWidth 5) → (run rpiCswitch s).cpsr = k.cpsr) ∧
    ¬ ∀ (s : State) (t : Word) (k : Forked) (m : Word → Word), FirstSwitch s t k m →
      (run rpiCswitch s).cpsr = k.cpsr → InStack t ((run rpiCswitch s).get .sp) := by
  constructor
  · intro h
    have hfirst := switcher_first 0x13 0x00010013
    have hsame := h _ _ _ _ hfirst rfl
    rw [(run_firstSwitch hfirst rfl).cpsr] at hsame
    revert hsame
    decide
  · intro h
    have hfirst := switcher_first 0x1F 0x13
    obtain ⟨x, hx, hx1, hxcpsr, hxsp, hxmem⟩ := run_save (switcher 0x1F 0x13)
    have hp := hfirst.prepared
    rw [← hxmem] at hp
    have hpoint : x.mem (x.r 1) = stackWord 0x20000 8176 := by rw [hx1, hfirst.thread, hp.sp]
    have htop : stackWord 0x20000 8176 + 0x3C = stackWord 0x20000 (8176 + 15) :=
      stackWord_add 0x20000 8176 15
    have hu := run_switchOver x
    have hrun : run rpiCswitch (switcher 0x1F 0x13) = run switchOver x := by
      rw [rpiCswitch_split, run_append, hx]
    have hcpsr : (run switchOver x).cpsr = 0x13 := by
      rw [hu.cpsr, hpoint, htop, hp.cpsr, hxcpsr]
      decide
    obtain ⟨i, hi, hin⟩ := h _ _ _ _ hfirst (by rw [hrun, hcpsr]; rfl)
    have hxbank : x.bank = .usr := by
      unfold State.bank State.mode
      rw [hxcpsr]
      decide
    have hubank : (run switchOver x).bank = .svc := by
      unfold State.bank State.mode
      rw [hcpsr]
      decide
    have hsvc : x.sp .svc = 0x10000 := hxsp .svc (by decide)
    rw [hrun, hu.sp, hxbank, hubank, Function.update_of_ne (by decide), hsvc] at hin
    have hnat := congrArg BitVec.toNat hin
    have h0 : BitVec.toNat (0x20000 : Word) = 0x20000 := rfl
    have h1 : BitVec.toNat (0x10000 + 0x3C : Word) = 0x1003C := rfl
    rw [stackWord_toNat, h0, h1] at hnat
    rw [stackSize] at hi
    omega

end Example

end SimplePiOS.Kernel
