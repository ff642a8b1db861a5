import SimplePiOS.Lib.Arm

/-! The context switch of thread-asm.s. -/
namespace SimplePiOS.Kernel
open Lib.Arm

/-- `rpi_cswitch(sp_old, sp_new)`, up to the final `bx lr`. A plain `msr cpsr` writes the flags
and the control field. -/
def rpiCswitch : List Instr :=
  [.subImm .sp .sp 0x3C,
   .str (.r 0) .sp 0x04,
   .str (.r 1) .sp 0x08,
   .str (.r 2) .sp 0x0C,
   .str (.r 3) .sp 0x10,
   .str (.r 4) .sp 0x14,
   .str (.r 5) .sp 0x18,
   .str (.r 6) .sp 0x1C,
   .str (.r 7) .sp 0x20,
   .str (.r 8) .sp 0x24,
   .str (.r 9) .sp 0x28,
   .str (.r 10) .sp 0x2C,
   .str (.r 11) .sp 0x30,
   .str (.r 12) .sp 0x34,
   .str .lr .sp 0x38,
   .mrs (.r 2),
   .str (.r 2) .sp 0x3C,
   .str .sp (.r 0) 0,
   .ldr .sp (.r 1) 0,
   .ldr (.r 2) .sp 0x3C,
   .msr (flagsField ||| controlField) (.r 2),
   .ldr (.r 0) .sp 0x04,
   .ldr (.r 1) .sp 0x08,
   .ldr (.r 2) .sp 0x0C,
   .ldr (.r 3) .sp 0x10,
   .ldr (.r 4) .sp 0x14,
   .ldr (.r 5) .sp 0x18,
   .ldr (.r 6) .sp 0x1C,
   .ldr (.r 7) .sp 0x20,
   .ldr (.r 8) .sp 0x24,
   .ldr (.r 9) .sp 0x28,
   .ldr (.r 10) .sp 0x2C,
   .ldr (.r 11) .sp 0x30,
   .ldr (.r 12) .sp 0x34,
   .ldr .lr .sp 0x38,
   .addImm .sp .sp 0x3C]

/-- `r0-r12, lr`, in the order of the frame. -/
def switchRegs : List Reg := (List.finRange 13).map .r ++ [.lr]

/-- The words of the frame are at 4, 8, .. 0x3C above the saved stack pointer. -/
def slot (base : Word) (k : ℕ) : Word := base + 4 + BitVec.ofNat 32 (4 * k)

/-- The memory `rpi_cswitch` leaves: the registers in the frame, the status at the caller's own
`sp`, and the stack pointer at `*sp_old`. -/
def savedMem (s : State) : Word → Word :=
  Function.update (Function.update
    (storeRegs (s.set .sp (s.get .sp - 0x3C)) (s.get .sp - 0x3C + 4) switchRegs s.mem)
      (s.get .sp - 0x3C + 0x3C) s.cpsr) (s.r 0) (s.get .sp - 0x3C)

/-- Onto the other stack, and into the status saved there. -/
def switchStack : List Instr :=
  [.ldr .sp (.r 1) 0, .ldr (.r 2) .sp 0x3C, .msr (flagsField ||| controlField) (.r 2)]

/-- The second half, from the state `x` in which everything is saved. -/
def switchOver : List Instr := switchStack ++ (ldrs 4 switchRegs ++ [.addImm .sp .sp 0x3C])

theorem switchRegs_r (i : Fin 13) (h : i.val < switchRegs.length) : switchRegs[i.val] = .r i := by
  revert h
  revert i
  decide

theorem switchRegs_lr (h : 13 < switchRegs.length) : switchRegs[13] = .lr := rfl

theorem nodup_switchRegs : switchRegs.Nodup := by
  decide

theorem sp_notMem_switchRegs : .sp ∉ switchRegs := by
  decide

/-- The first half. -/
def saveContext : List Instr :=
  .subImm .sp .sp 0x3C :: (strs 4 switchRegs ++
    [.mrs (.r 2), .str (.r 2) .sp 0x3C, .str .sp (.r 0) 0])

theorem rpiCswitch_split : rpiCswitch = saveContext ++ switchOver := rfl

theorem run_save (s : State) : ∃ x, run saveContext s = x ∧
    x.r 1 = s.r 1 ∧ x.cpsr = s.cpsr ∧ (∀ b, b ≠ s.bank → x.sp b = s.sp b) ∧
    x.mem = savedMem s := by
  rw [saveContext, run_cons, run_append]
  refine ⟨_, rfl, ?_⟩
  have hsub : exec (.subImm .sp .sp 0x3C) s.next =
      State.atPc { s.set .sp (s.get .sp - 0x3C) with mem := s.mem } (s.pc + 4) := rfl
  have hsp : (s.set .sp (s.get .sp - 0x3C)).get .sp = s.get .sp - 0x3C := get_set_self _ _ _
  unfold savedMem
  rw [hsub, run_strs, hsp]
  generalize storeRegs (s.set .sp (s.get .sp - 0x3C)) (s.get .sp - 0x3C + 4) switchRegs s.mem = m
  simp [exec, State.next, State.atPc, State.get, State.set, State.bank, State.mode]
  intro b hb
  exact Function.update_of_ne hb _ _

/-- The status after the switch: the flags and the control field are the saved ones. -/
def switchedCpsr (saved cpsr : Word) : Word := writeStatus (flagsField ||| controlField) saved cpsr

/-- What `switchOver` makes of a saved state. -/
structure Loaded (x u : State) : Prop where
  cpsr : u.cpsr = switchedCpsr (x.mem (x.mem (x.r 1) + 0x3C)) x.cpsr
  mem : u.mem = x.mem
  sp : u.get .sp = Function.update x.sp x.bank (x.mem (x.r 1)) u.bank + 0x3C
  regs : ∀ i : Fin 13, u.r i = x.mem (slot (u.get .sp - 0x3C) i)
  lr : u.get .lr = x.mem (slot (u.get .sp - 0x3C) 13)

theorem run_switchStack (x : State) :
    (run switchStack x).cpsr = switchedCpsr (x.mem (x.mem (x.r 1) + 0x3C)) x.cpsr ∧
      (run switchStack x).mem = x.mem ∧
      (run switchStack x).sp = Function.update x.sp x.bank (x.mem (x.r 1)) := by
  refine ⟨?_, ?_, ?_⟩
  · simp [switchStack, exec, State.next, State.atPc, State.get, State.set, State.bank, State.mode,
      switchedCpsr]
  · simp [switchStack, exec, State.next, State.atPc, State.set]
  · simp [switchStack, exec, State.next, State.atPc, State.get, State.set, State.bank, State.mode]

theorem run_switchOver (x : State) : Loaded x (run switchOver x) := by
  unfold switchOver
  rw [run_append, run_append]
  obtain ⟨hcpsr, hmem, hsp⟩ := run_switchStack x
  generalize run switchStack x = y at hcpsr hmem hsp ⊢
  rw [run_ldrs 4 sp_notMem_switchRegs]
  obtain ⟨l, hl⟩ : ∃ l, loadRegs (y.get .sp + 4) switchRegs y = l := ⟨_, rfl⟩
  have hlcpsr : l.cpsr = y.cpsr := by rw [← hl, loadRegs_cpsr]
  have hlmem : l.mem = y.mem := by rw [← hl, loadRegs_mem]
  have hlsp : l.get .sp = y.get .sp := by rw [← hl, loadRegs_get_of_notMem sp_notMem_switchRegs]
  have hlget : ∀ k (hk : k < switchRegs.length), l.get switchRegs[k] = y.mem (slot (y.get .sp) k) := by
    intro k hk
    rw [← hl, loadRegs_get nodup_switchRegs hk]
    rfl
  rw [hl]
  obtain ⟨u, hu⟩ : ∃ u, run [.addImm .sp .sp 0x3C] (l.atPc (y.pc + frameSize switchRegs)) = u :=
    ⟨_, rfl⟩
  rw [hu]
  have hucpsr : u.cpsr = l.cpsr := by rw [← hu]; rfl
  have husp : u.get .sp = y.get .sp + 0x3C := by
    rw [← hu, ← hlsp]
    exact get_set_self (l.atPc (y.pc + frameSize switchRegs)).next .sp (l.get .sp + 0x3C)
  have hbase : u.get .sp - 0x3C = y.get .sp := by
    rw [husp]
    exact BitVec.add_sub_cancel _ _
  have hubank : u.bank = y.bank := by
    unfold State.bank State.mode
    rw [hucpsr, hlcpsr]
  constructor
  case cpsr => rw [hucpsr, hlcpsr, hcpsr]
  case mem => rw [← hmem, ← hlmem, ← hu]; rfl
  case sp =>
    rw [husp, hubank, ← hsp]
    rfl
  case regs =>
    intro i
    have hi : i.val < switchRegs.length := Nat.lt_succ_of_lt i.isLt
    have hget := hlget i hi
    rw [switchRegs_r, hmem] at hget
    rw [hbase, ← hget, ← hu]
    rfl
  case lr =>
    have hget := hlget 13 (by decide)
    rw [switchRegs_lr, hmem] at hget
    rw [hbase, ← hget, ← hu]
    rfl

/-- The words a suspended thread relies on: its stack pointer, its frame and its stack. -/
def Kept (s : State) (top a : Word) : Prop :=
  a = s.r 0 ∨ (∃ k < 15, a = slot (s.get .sp - 0x3C) k) ∨ s.get .sp ≤ a ∧ a < top

/-- A call of `rpi_cswitch` with room for the frame on a stack that ends at `top`, and its
`sp_old` elsewhere. -/
structure Switchable (s : State) (top : Word) : Prop where
  room : 0x3C ≤ s.get .sp
  offFrame : ∀ k < 15, s.r 0 ≠ slot (s.get .sp - 0x3C) k
  offStack : ¬ (s.get .sp ≤ s.r 0 ∧ s.r 0 < top)

/-- The call that switches the thread of `s` back in, no one having written to its words. -/
structure SwitchBack (s t : State) (top : Word) : Prop where
  thread : t.r 1 = s.r 0
  kept : ∀ a, Kept s top a → t.mem a = (run rpiCswitch s).mem a
  apart : ∀ a, Kept s top a → a ≠ t.r 0 ∧ ∀ k < 15, a ≠ slot (t.get .sp - 0x3C) k

/-- The thread finds everything as it was. -/
structure Preserved (s u : State) (top : Word) : Prop where
  regs : u.r = s.r
  lr : u.get .lr = s.get .lr
  sp : u.get .sp = s.get .sp
  cpsr : u.cpsr = s.cpsr
  stack : ∀ a, s.get .sp ≤ a → a < top → u.mem a = s.mem a

theorem slot_last (s : State) : slot (s.get .sp - 0x3C) 14 = s.get .sp := by
  unfold slot
  rw [BitVec.add_assoc]
  exact BitVec.sub_add_cancel _ _

theorem slot_injective {base : Word} {j k : ℕ} (hj : j < 15) (hk : k < 15)
    (h : slot base j = slot base k) : j = k := by
  have hnat := congrArg BitVec.toNat h
  simp only [slot, BitVec.toNat_add, BitVec.toNat_ofNat] at hnat
  omega

section Frame
variable {s t : State} {top a : Word}

theorem run_rpiCswitch_mem (s : State) : (run rpiCswitch s).mem = savedMem s := by
  obtain ⟨x, hx, -, -, -, hmem⟩ := run_save s
  rw [rpiCswitch_split, run_append, hx, (run_switchOver x).mem, hmem]

/-- The context switch leaves everything else alone. -/
theorem savedMem_outside (h0 : a ≠ s.r 0) (hslot : ∀ k < 15, a ≠ slot (s.get .sp - 0x3C) k) :
    savedMem s a = s.mem a := by
  have hlast : s.get .sp - 0x3C + 0x3C = slot (s.get .sp - 0x3C) 14 := by
    rw [slot_last]
    exact BitVec.sub_add_cancel _ _
  unfold savedMem
  rw [Function.update_of_ne h0, hlast, Function.update_of_ne (hslot 14 (by decide)),
    storeRegs_outside switchRegs fun k hk => hslot k (Nat.lt_succ_of_lt hk)]

theorem savedMem_sp (s : State) : savedMem s (s.r 0) = s.get .sp - 0x3C :=
  Function.update_self _ _ _

theorem savedMem_cpsr (hs : Switchable s top) : savedMem s (s.get .sp) = s.cpsr := by
  have hback : s.get .sp - 0x3C + 0x3C = s.get .sp := BitVec.sub_add_cancel _ _
  have hne := hs.offFrame 14 (by decide)
  rw [slot_last] at hne
  unfold savedMem
  rw [hback, Function.update_of_ne (Ne.symm hne), Function.update_self]

theorem savedMem_slot (hs : Switchable s top) {k : ℕ} (hk : k < switchRegs.length) :
    savedMem s (slot (s.get .sp - 0x3C) k) =
      (s.set .sp (s.get .sp - 0x3C)).get switchRegs[k] := by
  have hk14 : k < 14 := hk
  have hback : s.get .sp - 0x3C + 0x3C = slot (s.get .sp - 0x3C) 14 := by
    rw [slot_last]
    exact BitVec.sub_add_cancel _ _
  have hne : slot (s.get .sp - 0x3C) k ≠ slot (s.get .sp - 0x3C) 14 := by
    intro h
    have hk14' := slot_injective (by omega) (by decide) h
    omega
  unfold savedMem
  rw [Function.update_of_ne (Ne.symm (hs.offFrame k (by omega))), hback,
    Function.update_of_ne hne]
  exact storeRegs_inside (by decide) hk

theorem slot_lt (hs : Switchable s top) {k : ℕ} (hk : k < 14) :
    slot (s.get .sp - 0x3C) k < s.get .sp := by
  have hroom : 60 ≤ (s.get .sp).toNat := hs.room
  have h60 : BitVec.toNat (60 : Word) = 60 := rfl
  have h4 : BitVec.toNat (4 : Word) = 4 := rfl
  rw [BitVec.lt_def]
  simp only [slot, BitVec.toNat_add, BitVec.toNat_sub, BitVec.toNat_ofNat, h60, h4]
  have hlt := (s.get .sp).isLt
  omega

/-- The stack after the call: the word at `sp` holds the status, the others are as before. -/
theorem savedMem_stack (hs : Switchable s top) (hlow : s.get .sp ≤ a) (hhigh : a < top) :
    savedMem s a = if a = s.get .sp then s.cpsr else s.mem a := by
  by_cases ha : a = s.get .sp
  · rw [if_pos ha, ha, savedMem_cpsr hs]
  · rw [if_neg ha]
    apply savedMem_outside
    · intro h
      exact hs.offStack (h ▸ ⟨hlow, hhigh⟩)
    · intro k hk h
      rcases Nat.lt_or_ge k 14 with hk14 | hk14
      · have hlt := slot_lt hs hk14
        rw [← h, BitVec.lt_def] at hlt
        have hle := BitVec.le_def.mp hlow
        omega
      · obtain rfl : k = 14 := by omega
        rw [slot_last] at h
        exact ha h

/-- The words a thread relies on are, after the switch back in, as its own call left them. -/
theorem SwitchBack.mem (ht : SwitchBack s t top) (ha : Kept s top a) :
    savedMem t a = savedMem s a := by
  obtain ⟨h0, hslot⟩ := ht.apart a ha
  rw [savedMem_outside h0 hslot, ht.kept a ha, run_rpiCswitch_mem]

theorem switchedCpsr_mode (saved cpsr : Word) :
    (switchedCpsr saved cpsr).setWidth 5 = saved.setWidth 5 := by
  apply BitVec.eq_of_getLsbD_eq
  intro i hi
  have hmask : ∀ i < 5, (flagsField ||| controlField).getLsbD i = true := by decide
  simp only [switchedCpsr, writeStatus, BitVec.getLsbD_setWidth, BitVec.getLsbD_or,
    BitVec.getLsbD_and, BitVec.getLsbD_not, hmask i hi]
  simp

/-- The fields that are not written are those of bits 8 to 23. -/
theorem switchedCpsr_eq_iff (saved cpsr : Word) : switchedCpsr saved cpsr = saved ↔
    cpsr &&& 0x00ffff00 = saved &&& 0x00ffff00 := by
  have hmask : ~~~(flagsField ||| controlField) = 0x00ffff00 := by decide
  have hsplit : (saved &&& 0x00ffff00) ||| (saved &&& (flagsField ||| controlField)) = saved := by
    rw [← BitVec.and_or_distrib_left]
    exact BitVec.and_allOnes
  unfold switchedCpsr writeStatus
  rw [hmask]
  constructor
  · intro h
    have hdisjoint : (flagsField ||| controlField) &&& 0x00ffff00 = 0#32 := by decide
    have hkeep := congrArg (· &&& 0x00ffff00) h
    simp only [BitVec.and_or_distrib_right, BitVec.and_assoc, BitVec.and_self, hdisjoint,
      BitVec.and_zero, BitVec.or_zero] at hkeep
    exact hkeep
  · intro h
    rw [h, hsplit]

/-- What the thread finds when it is switched back in. -/
theorem switchBack_state (hs : Switchable s top) (ht : SwitchBack s t top) :
    (run rpiCswitch t).cpsr = switchedCpsr s.cpsr t.cpsr ∧
    (∀ a, Kept s top a → (run rpiCswitch t).mem a = savedMem s a) ∧
    (t.bank = s.bank ∨ t.sp s.bank = s.get .sp - 0x3C ↔
      (run rpiCswitch t).get .sp = s.get .sp) ∧
    ((run rpiCswitch t).get .sp = s.get .sp →
      (run rpiCswitch t).r = s.r ∧ (run rpiCswitch t).get .lr = s.get .lr) := by
  obtain ⟨x, hx, hx1, hxcpsr, hxsp, hxmem⟩ := run_save t
  have hu := run_switchOver x
  rw [← hx, ← run_append, ← rpiCswitch_split, hx] at hu
  generalize run rpiCswitch t = u at hu
  have hpoint : x.mem (x.r 1) = s.get .sp - 0x3C := by
    rw [hxmem, hx1, ht.thread, ht.mem (.inl rfl), savedMem_sp]
  have hback : s.get .sp - 0x3C + 0x3C = s.get .sp := BitVec.sub_add_cancel _ _
  have hstatus : x.mem (x.mem (x.r 1) + 0x3C) = s.cpsr := by
    have hkept : Kept s top (s.get .sp) := .inr (.inl ⟨14, by decide, (slot_last s).symm⟩)
    rw [hpoint, hback, hxmem, ht.mem hkept, savedMem_cpsr hs]
  have hcpsr : u.cpsr = switchedCpsr s.cpsr t.cpsr := by rw [hu.cpsr, hstatus, hxcpsr]
  have hubank : u.bank = s.bank := by
    unfold State.bank State.mode
    rw [hcpsr, switchedCpsr_mode]
  have hxbank : x.bank = t.bank := by
    unfold State.bank State.mode
    rw [hxcpsr]
  have hsp := hu.sp
  rw [hubank, hxbank, hpoint] at hsp
  refine ⟨hcpsr, ?_, ?_, ?_⟩
  · intro a ha
    rw [hu.mem, hxmem, ht.mem ha]
  · rw [hsp]
    by_cases hbank : t.bank = s.bank
    · rw [hbank, Function.update_self]
      exact ⟨fun _ => hback, fun _ => .inl rfl⟩
    · rw [Function.update_of_ne (Ne.symm hbank), hxsp s.bank (Ne.symm hbank)]
      constructor
      · rintro (h | h)
        · exact absurd h hbank
        · rw [h, hback]
      · intro h
        rw [← h]
        exact .inr (BitVec.add_sub_cancel _ _).symm
  · intro heq
    have hslot : ∀ k (hk : k < switchRegs.length), x.mem (slot (s.get .sp - 0x3C) k) =
        (s.set .sp (s.get .sp - 0x3C)).get switchRegs[k] := by
      intro k hk
      have hkept : Kept s top (slot (s.get .sp - 0x3C) k) :=
        .inr (.inl ⟨k, Nat.lt_succ_of_lt hk, rfl⟩)
      rw [hxmem, ht.mem hkept, savedMem_slot hs hk]
    constructor
    · funext i
      have hi : i.val < switchRegs.length := Nat.lt_succ_of_lt i.isLt
      rw [hu.regs, heq, hslot i hi, switchRegs_r]
      rfl
    · rw [hu.lr, heq, hslot 13 (by decide), switchRegs_lr]
      rfl

/-- The thread finds everything as it was exactly if the word at its `sp` was the status itself
(the frame is one word too short), the status fields that are not written agree, and the
switch back in is made in the same mode. -/
theorem rpiCswitch_preserves_iff (hs : Switchable s top) (ht : SwitchBack s t top) :
    Preserved s (run rpiCswitch t) top ↔
      (s.get .sp < top → s.mem (s.get .sp) = s.cpsr) ∧
      t.cpsr &&& 0x00ffff00 = s.cpsr &&& 0x00ffff00 ∧
      (t.bank = s.bank ∨ t.sp s.bank = s.get .sp - 0x3C) := by
  obtain ⟨hcpsr, hmem, hbank, hrest⟩ := switchBack_state hs ht
  have hstack : ∀ a, s.get .sp ≤ a → a < top → (run rpiCswitch t).mem a =
      if a = s.get .sp then s.cpsr else s.mem a := by
    intro a hlow hhigh
    rw [hmem a (.inr (.inr ⟨hlow, hhigh⟩)), savedMem_stack hs hlow hhigh]
  constructor
  · intro h
    refine ⟨fun htop => ?_, ?_, hbank.mpr h.sp⟩
    · have hword := hstack _ (BitVec.le_refl _) htop
      rw [if_pos rfl, h.stack _ (BitVec.le_refl _) htop] at hword
      exact hword
    · rw [← switchedCpsr_eq_iff, ← hcpsr]
      exact h.cpsr
  · rintro ⟨hword, hfields, hmode⟩
    have hsp := hbank.mp hmode
    obtain ⟨hr, hlr⟩ := hrest hsp
    refine ⟨hr, hlr, hsp, ?_, ?_⟩
    · rw [hcpsr]
      exact (switchedCpsr_eq_iff _ _).mpr hfields
    · intro a hlow hhigh
      rw [hstack a hlow hhigh]
      by_cases ha : a = s.get .sp
      · rw [if_pos ha, ha, hword (ha ▸ hhigh)]
      · rw [if_neg ha]

end Frame

section Example

/-- A thread with its stack pointer at 0x10000, in supervisor mode, in a memory full of `w`. -/
def thread (w : Word) : State where
  r := fun i => if i = 0 then 0x20000 else 0x20004
  sp := fun _ => 0x10000
  lr := fun _ => 0x8100
  spsr := fun _ => 0
  cpsr := 0b10011
  pc := 0x9000
  mem := fun _ => w

/-- Another one, on a stack of its own, about to switch back. -/
def otherThread (w : Word) : State where
  r := fun i => if i = 0 then 0x20004 else 0x20000
  sp := fun _ => 0x18000
  lr := fun _ => 0x8200
  spsr := fun _ => 0
  cpsr := 0b10011
  pc := 0x9000
  mem := (run rpiCswitch (thread w)).mem

theorem thread_switchable (w : Word) : Switchable (thread w) 0x10010 where
  room := (by decide : (0x3C : Word) ≤ 0x10000)
  offFrame := (by decide : ∀ k < 15, (0x20000 : Word) ≠ slot (0x10000 - 0x3C) k)
  offStack := (by decide : ¬ ((0x10000 : Word) ≤ 0x20000 ∧ (0x20000 : Word) < 0x10010))

theorem otherThread_switchBack (w : Word) : SwitchBack (thread w) (otherThread w) 0x10010 where
  thread := rfl
  kept := fun _ _ => rfl
  apart := by
    have hframes : ∀ k < 15, slot (0x10000 - 0x3C) k ≠ (0x20004 : Word) ∧
        ∀ j < 15, slot (0x10000 - 0x3C) k ≠ slot (0x18000 - 0x3C) j := by decide
    have habove : ∀ j < 15, (0x10010 : Word) ≤ slot (0x18000 - 0x3C) j := by decide
    rintro a (rfl | ⟨k, hk, rfl⟩ | ⟨-, hhigh⟩)
    · exact (by decide : (0x20000 : Word) ≠ 0x20004 ∧
        ∀ j < 15, (0x20000 : Word) ≠ slot (0x18000 - 0x3C) j)
    · exact hframes k hk
    · constructor
      · rintro rfl
        exact absurd hhigh (by decide : ¬ (0x20004 : Word) < 0x10010)
      · rintro j hj rfl
        exact absurd hhigh (BitVec.not_lt.mpr (habove j hj))

theorem rpiCswitch_preserves_iff_thread :
    Preserved (thread 0b10011) (run rpiCswitch (otherThread 0b10011)) 0x10010 :=
  (rpiCswitch_preserves_iff (thread_switchable _) (otherThread_switchBack _)).mpr
    ⟨fun _ => rfl, rfl, .inl rfl⟩

/-- In a memory of zeros the word at the thread's `sp` comes back as its status. -/
theorem thread_not_preserved :
    ¬ Preserved (thread 0) (run rpiCswitch (otherThread 0)) 0x10010 := by
  intro h
  have hs := thread_switchable 0
  obtain ⟨-, hmem, -⟩ := switchBack_state hs (otherThread_switchBack 0)
  have hlow : (thread 0).get .sp ≤ 0x10000 := by decide
  have hword := hmem 0x10000 (.inr (.inr ⟨hlow, by decide⟩))
  rw [h.stack 0x10000 hlow (by decide)] at hword
  exact absurd (hword.trans (savedMem_cpsr hs)) (by decide)

end Example
end SimplePiOS.Kernel
