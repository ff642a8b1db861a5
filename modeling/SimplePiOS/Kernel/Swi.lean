import SimplePiOS.Lib.Arm

/-! System calls: `rpi_sbrk`, the SWI handler of interrupts-asm.S, and the stack set up for it. -/
namespace SimplePiOS.Kernel
open Lib.Arm

/-- layout.h. -/
abbrev swiStackAddr : Word := 0x000F0000

/-- Where the linker has put the routines. -/
structure Layout where
  softwareInterruptAsm : Word
  swiSetupStack : Word
  handleSwi : Word

/-- `{r0-r12,lr}`. -/
def savedRegs : List Reg := (List.finRange 13).map .r ++ [.lr]

def softwareInterruptAsm (L : Layout) : List Instr :=
  [.push savedRegs,
   .ldr (.r 0) .lr (-4),
   .andImm (.r 0) (.r 0) 0xff,
   .mov (.r 1) .lr,
   .mov (.r 2) .sp,
   .bl L.handleSwi,
   .pop savedRegs,
   .movsPcLr]

def swiSetupStack : List Instr :=
  [.movImm (.r 1) 0b11111,
   .mov (.r 2) .sp,
   .mov (.r 3) .lr,
   .msrImm controlField 0b10011,
   .mov .sp (.r 0),
   .msr controlField (.r 1),
   .mov .sp (.r 2),
   .mov .lr (.r 3),
   .bx .lr]

/-- `swi 0x01; bx lr`. -/
def rpiSbrk : List Instr := [.swi, .bx .lr]

/-- `swi 0x01`. -/
def swiWord : Word := 0xEF000001

/-- The frame of `software_interrupt_asm`: fourteen words below the top of the stack. -/
def frameBase : Word := swiStackAddr - 56
def frameAddr (k : ℕ) : Word := frameBase + BitVec.ofNat 32 (4 * k)

/-- The kernel's code, with the vector table in place. -/
structure Image (text : Text) (L : Layout) : Prop where
  vector : text 8 = some (.ldrPc L.softwareInterruptAsm)
  softwareInterruptAsm : Code text L.softwareInterruptAsm (softwareInterruptAsm L)
  swiSetupStack : Code text L.swiSetupStack swiSetupStack
  handleSwi : text L.handleSwi = none

/-- A call of `handle_swi` that returns: it keeps to the C calling convention, and stores what
`kernel_sbrk` returns over the saved r0. -/
structure HandleSwi (L : Layout) (kernelSbrk : Word → Word → Prop) (s s' : State) : Prop where
  returns : s'.pc = s.lr s.bank
  mode : s'.mode = s.mode
  calleeSaved : ∀ i : Fin 13, 4 ≤ i → i ≤ 11 → s'.r i = s.r i
  sp : s'.sp = s.sp
  lr : ∀ b, b ≠ s.bank → s'.lr b = s.lr b
  spsr : s'.spsr = s.spsr
  result : if (s.r 0).setWidth 8 = (1 : BitVec 8) then kernelSbrk (s.mem (s.r 2)) (s'.mem (s.r 2))
    else s'.mem (s.r 2) = s.mem (s.r 2)
  frame : ∀ a, s.sp s.bank ≤ a → a < swiStackAddr → a ≠ s.r 2 → s'.mem a = s.mem a

/-- The callers of these routines are compiled code elsewhere. -/
def Elsewhere (text : Text) (L : Layout) (a : Word) : Prop := text a = none ∧ a ≠ L.handleSwi

/-- `s` is about to execute the SWI of an `rpi_sbrk` that lies clear of the SWI stack. -/
structure SbrkCall (text : Text) (L : Layout) (s : State) : Prop where
  code : Code text s.pc rpiSbrk
  word : s.mem s.pc = swiWord
  clear : ∀ k < 14, s.pc ≠ frameAddr k
  caller : Elsewhere text L (s.lr .usr)

abbrev SwiRun (text : Text) (L : Layout) (kernelSbrk : Word → Word → Prop) :
    State → State → Prop :=
  Relation.ReflTransGen (Next text L.handleSwi (HandleSwi L kernelSbrk))

/-- The states in which code outside these routines runs, from `swi_setup_stack` on: that code
stays in system mode and cannot reach the banked registers; the code in memory may change with
the program. -/
inductive Session (L : Layout) (kernelSbrk : Word → Word → Prop) : State → Prop where
  | init {text : Text} {s s' : State} (himg : Image text L)
      (hmode : s.mode = svcMode ∨ s.mode = sysMode) (hpc : s.pc = L.swiSetupStack)
      (hr0 : s.r 0 = swiStackAddr) (hcaller : Elsewhere text L (s.lr s.bank))
      (hrun : SwiRun text L kernelSbrk s s') (hstop : Stops text L.handleSwi s') :
      Session L kernelSbrk s'
  | code {s s' : State} (h : Session L kernelSbrk s) (hmode : s'.mode = sysMode)
      (hsp : s'.sp .svc = s.sp .svc) : Session L kernelSbrk s'
  | call {text : Text} {s s' : State} (h : Session L kernelSbrk s) (himg : Image text L)
      (hcall : SbrkCall text L s) (hrun : SwiRun text L kernelSbrk s s')
      (hstop : Stops text L.handleSwi s') : Session L kernelSbrk s'

/-- `rpi_sbrk` has returned to its caller. -/
structure Transparent (kernelSbrk : Word → Word → Prop) (s s' : State) : Prop where
  returned : s'.pc = s.lr .usr
  mode : s'.mode = sysMode
  regs : ∀ i, i ≠ 0 → s'.r i = s.r i
  sp : s'.sp .usr = s.sp .usr
  lr : s'.lr .usr = s.lr .usr
  result : kernelSbrk (s.r 0) (s'.r 0)
  stack : s'.sp .svc = swiStackAddr

@[simp] theorem bankOf_svcMode : bankOf svcMode = .svc := rfl
@[simp] theorem bankOf_sysMode : bankOf sysMode = .usr := rfl

/-- What `swi_setup_stack` leaves behind. -/
structure SetUp (s s' : State) : Prop where
  returned : s'.pc = s.lr s.bank
  mode : s'.mode = sysMode
  sp : s'.sp .usr = s.sp s.bank
  lr : s'.lr .usr = s.lr s.bank
  calleeSaved : ∀ i : Fin 13, 4 ≤ i → s'.r i = s.r i
  stack : s'.sp .svc = s.r 0

theorem mode_writeStatus (v x : Word) : (writeStatus controlField v x).setWidth 5 = v.setWidth 5 := by
  apply BitVec.eq_of_getLsbD_eq
  intro i hi
  simp only [writeStatus, controlField, BitVec.getLsbD_setWidth, BitVec.getLsbD_or,
    BitVec.getLsbD_and, BitVec.getLsbD_not]
  have hmask : ∀ i < 5, (0xff : Word).getLsbD i = true := by decide
  rw [hmask i hi]
  simp

section Runs
variable {text : Text} {L : Layout} {kernelSbrk : Word → Word → Prop} {s s' : State}

theorem swiSetupStack_ends {call : State → State → Prop} (himg : Image text L)
    (hpc : s.pc = L.swiSetupStack) (hcaller : Elsewhere text L (s.lr s.bank)) :
    Ends text L.handleSwi call (SetUp s) s := by
  obtain ⟨h0, h1, h2, h3, h4, h5, h6, h7, h8, -⟩ := himg.swiSetupStack
  rw [← hpc] at h0 h1 h2 h3 h4 h5 h6 h7 h8
  refine .step h0 (.step h1 (.step h2 (.step h3 (.step h4 (.step h5 (.step h6 (.step h7
    (.step h8 ?_))))))))
  have hsvc : bankOf 0b10011#5 = .svc := rfl
  have hsys : bankOf 0b11111#5 = .usr := rfl
  have hend : ∀ t, SetUp s t → Ends text L.handleSwi call (SetUp s) t := by
    intro t ht
    refine .here ?_ ht
    unfold Stops
    rw [ht.returned]
    exact hcaller
  apply hend
  constructor
  all_goals simp [exec, State.next, State.atPc, State.get, State.set, State.bank, State.mode,
    mode_writeStatus, hsvc, hsys]
  · rfl
  · intro i hi
    have hne : ∀ j : Fin 13, j < 4 → i ≠ j := by omega
    rw [Function.update_of_ne (hne 3 (by decide)), Function.update_of_ne (hne 2 (by decide)),
      Function.update_of_ne (hne 1 (by decide))]

/-- `handle_swi` is about to run for the call made in `s`. -/
structure HandlerEntry (L : Layout) (s t : State) : Prop where
  pc : t.pc = L.handleSwi
  mode : t.mode = svcMode
  spsr : t.spsr .svc = s.cpsr
  lrUsr : t.lr .usr = s.lr .usr
  lrSvc : t.lr .svc = L.softwareInterruptAsm + 4 + 4 + 4 + 4 + 4 + 4
  spUsr : t.sp .usr = s.sp .usr
  spSvc : t.sp .svc = frameBase
  sysno : (t.r 0).setWidth 8 = (1 : BitVec 8)
  saved : t.r 2 = frameBase
  frame : ∀ i : Fin 13, t.mem (frameAddr i) = s.r i
  link : t.mem (frameAddr 13) = s.pc + 4

theorem savedRegs_r (i : Fin 13) (h : i.val < savedRegs.length) : savedRegs[i.val] = .r i := by
  revert h
  revert i
  decide

theorem savedRegs_lr (h : 13 < savedRegs.length) : savedRegs[13] = .lr := rfl

theorem swi_entry {call : State → State → Prop} {P : State → Prop} (himg : Image text L)
    (hcall : SbrkCall text L s) (hsp : s.sp .svc = swiStackAddr)
    (h : ∀ t, HandlerEntry L s t → Ends text L.handleSwi call P t) :
    Ends text L.handleSwi call P s := by
  obtain ⟨c0, -⟩ := hcall.code
  obtain ⟨h0, h1, h2, h3, h4, h5, -⟩ := himg.softwareInterruptAsm
  refine .step c0 (.step himg.vector (.step h0 (.step h1 (.step h2 (.step h3 (.step h4
    (.step h5 (h _ ?_))))))))
  have hsvc : bankOf 0b10011#5 = .svc := rfl
  have hbase : s.sp .svc - frameSize savedRegs = frameBase := by
    rw [hsp]
    rfl
  have hword : ∀ x : State, storeRegs x frameBase savedRegs s.mem s.pc = swiWord := by
    intro x
    rw [storeRegs_outside savedRegs hcall.clear, hcall.word]
  have hback : s.pc + 4#32 + 4294967292#32 = s.pc := by
    rw [BitVec.add_assoc]
    exact BitVec.add_zero s.pc
  constructor
  all_goals simp [exec, State.next, State.atPc, State.get, State.set, State.bank, State.mode, hsvc, hbase]
  · rfl
  · rw [hback, hword]
    decide
  · intro i
    have hi : i.val < savedRegs.length := Nat.lt_succ_of_lt i.isLt
    unfold frameAddr
    rw [storeRegs_inside (by decide) hi, savedRegs_r]
    rfl
  · unfold frameAddr
    rw [storeRegs_inside (by decide) (by decide), savedRegs_lr]
    simp [State.get, State.bank, State.mode, hsvc]

theorem frameAddr_mem : ∀ k < 14, frameBase ≤ frameAddr k ∧ frameAddr k < swiStackAddr ∧
    (k ≠ 0 → frameAddr k ≠ frameBase) := by
  decide

theorem nodup_savedRegs : savedRegs.Nodup := by
  decide

/-- `handle_swi` has returned, and the frame holds the caller's registers and the result. -/
structure HandlerExit (kernelSbrk : Word → Word → Prop) (L : Layout) (s u : State) : Prop where
  pc : u.pc = L.softwareInterruptAsm + 4 + 4 + 4 + 4 + 4 + 4
  bank : u.bank = .svc
  spsr : u.spsr .svc = s.cpsr
  lrUsr : u.lr .usr = s.lr .usr
  spUsr : u.sp .usr = s.sp .usr
  spSvc : u.sp .svc = frameBase
  frame : ∀ i : Fin 13, i ≠ 0 → u.mem (frameAddr i) = s.r i
  link : u.mem (frameAddr 13) = s.pc + 4
  result : kernelSbrk (s.r 0) (u.mem (frameAddr 0))

theorem HandlerEntry.exit {t u : State} (h : HandlerEntry L s t)
    (hswi : HandleSwi L kernelSbrk t u) : HandlerExit kernelSbrk L s u := by
  have hbank : t.bank = .svc := by
    unfold State.bank
    rw [h.mode]
    rfl
  have hframe : ∀ k < 14, k ≠ 0 → u.mem (frameAddr k) = t.mem (frameAddr k) := by
    intro k hk hk0
    obtain ⟨hlow, hhigh, hne⟩ := frameAddr_mem k hk
    apply hswi.frame
    · rw [hbank, h.spSvc]
      exact hlow
    · exact hhigh
    · rw [h.saved]
      exact hne hk0
  have hzero : frameBase = frameAddr 0 := (offset_zero frameBase).symm
  have hresult := hswi.result
  rw [if_pos h.sysno, h.saved, hzero] at hresult
  have harg : t.mem (frameAddr 0) = s.r 0 := h.frame 0
  constructor
  case pc => rw [hswi.returns, hbank, h.lrSvc]
  case bank =>
    unfold State.bank
    rw [hswi.mode, h.mode]
    rfl
  case spsr => rw [hswi.spsr, h.spsr]
  case lrUsr => rw [hswi.lr .usr (by rw [hbank]; decide), h.lrUsr]
  case spUsr => rw [hswi.sp, h.spUsr]
  case spSvc => rw [hswi.sp, h.spSvc]
  case frame =>
    intro i hi
    rw [hframe i (Nat.lt_succ_of_lt i.isLt) (by omega), h.frame]
  case link => rw [hframe 13 (by decide) (by decide), h.link]
  case result => rwa [harg] at hresult

/-- The handler's return restores the caller's registers from the frame. -/
theorem swi_exit {call : State → State → Prop} {u : State} (himg : Image text L)
    (hcall : SbrkCall text L s) (hmode : s.mode = sysMode) (h : HandlerExit kernelSbrk L s u) :
    Ends text L.handleSwi call (Transparent kernelSbrk s) u := by
  obtain ⟨-, c1, -⟩ := hcall.code
  obtain ⟨-, -, -, -, -, -, h6, h7, -⟩ := himg.softwareInterruptAsm
  rw [← h.pc] at h6 h7
  have hsp : u.next.get .sp = frameBase := by
    change u.sp u.bank = _
    rw [h.bank, h.spSvc]
  obtain ⟨l, hl⟩ : ∃ l, loadRegs frameBase savedRegs u.next = l := ⟨_, rfl⟩
  have hlbank : l.bank = .svc := by
    unfold State.bank State.mode
    rw [← hl, loadRegs_cpsr]
    exact h.bank
  have hregs : ∀ i : Fin 13, l.r i = u.mem (frameAddr i) := by
    intro i
    have hi : i.val < savedRegs.length := Nat.lt_succ_of_lt i.isLt
    have hget := loadRegs_get (s := u.next) (a := frameBase) nodup_savedRegs hi
    rw [hl, savedRegs_r] at hget
    exact hget
  have hlink : l.lr .svc = s.pc + 4 := by
    have hget := loadRegs_get (s := u.next) (a := frameBase) (k := 13) nodup_savedRegs (by decide)
    rw [hl, savedRegs_lr] at hget
    unfold State.get at hget
    rw [hlbank] at hget
    exact hget.trans h.link
  have hlusr : l.lr .usr = s.lr .usr := by
    rw [← hl, loadRegs_lr .usr (by rw [show u.next.bank = .svc from h.bank]; decide)]
    exact h.lrUsr
  have hspusr : l.sp .usr = s.sp .usr := by
    rw [← hl, loadRegs_sp .usr (by rw [show u.next.bank = .svc from h.bank]; decide)]
    exact h.spUsr
  have hspsr : l.spsr .svc = s.cpsr := by
    rw [← hl, loadRegs_spsr]
    exact h.spsr
  have hpop : exec (.pop savedRegs) u.next = l.set .sp swiStackAddr := by
    change (loadRegs (u.next.get .sp) savedRegs u.next).set .sp (u.next.get .sp + _) = _
    rw [hsp, hl]
    rfl
  refine .step h6 (.step h7 ?_)
  rw [hpop]
  have hsvc : bankOf (l.cpsr.setWidth 5) = .svc := hlbank
  have husr : bankOf (s.cpsr.setWidth 5) = .usr := by
    rw [show s.cpsr.setWidth 5 = sysMode from hmode]
    rfl
  have hpc : (exec .movsPcLr (l.set .sp swiStackAddr).next).pc = s.pc + 4 := by
    simp [exec, State.next, State.atPc, State.get, State.set, State.bank, State.mode, hsvc, hlink]
  refine .step (hpc.symm ▸ c1) ?_
  have hend : ∀ v, Transparent kernelSbrk s v →
      Ends text L.handleSwi call (Transparent kernelSbrk s) v := by
    intro v hv
    refine .here ?_ hv
    unfold Stops
    rw [hv.returned]
    exact hcall.caller
  apply hend
  constructor
  all_goals simp [exec, State.next, State.atPc, State.get, State.set, State.bank, State.mode, hsvc, husr,
    hspsr, hlusr, hspusr, hregs]
  · exact hmode
  · exact h.frame
  · exact h.result

theorem rpiSbrk_ends (himg : Image text L) (hcall : SbrkCall text L s) (hmode : s.mode = sysMode)
    (hsp : s.sp .svc = swiStackAddr) :
    Ends text L.handleSwi (HandleSwi L kernelSbrk) (Transparent kernelSbrk s) s := by
  apply swi_entry himg hcall hsp
  intro t hentry
  have hout : text t.pc = none := by
    rw [hentry.pc]
    exact himg.handleSwi
  exact .call hout hentry.pc fun u hswi => swi_exit himg hcall hmode (hentry.exit hswi)

/-- Between calls the machine is in system mode and the SWI stack is empty. -/
theorem Session.quiescent (h : Session L kernelSbrk s) :
    s.mode = sysMode ∧ s.sp .svc = swiStackAddr := by
  induction h with
  | init himg _ hpc hr0 hcaller hrun hstop =>
    have hset := (swiSetupStack_ends himg hpc hcaller).run hrun hstop
    exact ⟨hset.mode, hset.stack.trans hr0⟩
  | code _ hmode hsp ih => exact ⟨hmode, hsp.trans ih.2⟩
  | call _ himg hcall hrun hstop ih =>
    have hret := (rpiSbrk_ends himg hcall ih.1 ih.2).run hrun hstop
    exact ⟨hret.mode, hret.stack⟩

/-- Whatever mode the kernel was entered in, every `rpi_sbrk` of every program returns to its
caller, with only r0 changed. -/
theorem rpiSbrk_transparent (h : Session L kernelSbrk s) (himg : Image text L)
    (hcall : SbrkCall text L s) :
    Ends text L.handleSwi (HandleSwi L kernelSbrk) (Transparent kernelSbrk s) s :=
  rpiSbrk_ends himg hcall h.quiescent.1 h.quiescent.2

end Runs

section Example

/-- The routines at some addresses. -/
def demoLayout : Layout := ⟨0x9000, 0x9100, 0x9200⟩

def placed (base : Word) (is : List Instr) (a : Word) : Option Instr :=
  if (a - base).toNat % 4 = 0 then is[(a - base).toNat / 4]? else none

def demoText (a : Word) : Option Instr :=
  if a = 8 then some (.ldrPc demoLayout.softwareInterruptAsm)
  else (placed demoLayout.softwareInterruptAsm (softwareInterruptAsm demoLayout) a).orElse fun _ =>
    (placed demoLayout.swiSetupStack swiSetupStack a).orElse fun _ => placed 0x9300 rpiSbrk a

theorem demoText_image : Image demoText demoLayout where
  vector := rfl
  softwareInterruptAsm := ⟨rfl, rfl, rfl, rfl, rfl, rfl, rfl, rfl, trivial⟩
  swiSetupStack := ⟨rfl, rfl, rfl, rfl, rfl, rfl, rfl, rfl, rfl, trivial⟩
  handleSwi := rfl

/-- The kernel entered in supervisor mode, about to set up the stack. -/
def demoStart : State where
  r := fun _ => swiStackAddr
  sp := fun _ => 0x8000
  lr := fun _ => 0x8100
  spsr := fun _ => 0
  cpsr := 0b10011
  pc := 0x9100
  mem := fun _ => swiWord

/-- A program in system mode, about to call `rpi_sbrk`. -/
def demoCaller : State where
  r := fun _ => 16
  sp := fun b => if b = .svc then swiStackAddr else 0x8000
  lr := fun _ => 0x8100
  spsr := fun _ => 0
  cpsr := 0b11111
  pc := 0x9300
  mem := fun _ => swiWord

theorem demoCaller_session (kernelSbrk : Word → Word → Prop) :
    Session demoLayout kernelSbrk demoCaller := by
  obtain ⟨s, hrun, hstop⟩ : ∃ s, SwiRun demoText demoLayout kernelSbrk demoStart s ∧
      Stops demoText demoLayout.handleSwi s :=
    ⟨_, .head (.inl rfl) (.head (.inl rfl) (.head (.inl rfl) (.head (.inl rfl) (.head (.inl rfl)
      (.head (.inl rfl) (.head (.inl rfl) (.head (.inl rfl) (.head (.inl rfl) .refl)))))))),
      rfl, by decide⟩
  have hinit : Session demoLayout kernelSbrk s :=
    .init demoText_image (.inl rfl) rfl rfl ⟨rfl, by decide⟩ hrun hstop
  exact .code hinit rfl hinit.quiescent.2.symm

theorem rpiSbrk_transparent_demo :
    Ends demoText demoLayout.handleSwi (HandleSwi demoLayout fun incr brk => brk = incr)
      (Transparent (fun incr brk => brk = incr) demoCaller) demoCaller :=
  rpiSbrk_transparent (demoCaller_session _) demoText_image
    ⟨⟨rfl, rfl, trivial⟩, rfl, by decide, rfl, by decide⟩

end Example
end SimplePiOS.Kernel
