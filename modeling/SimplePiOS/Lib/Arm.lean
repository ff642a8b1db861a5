import Mathlib.Algebra.GroupWithZero.Nat
import Mathlib.Logic.Relation
import Mathlib.Tactic.Common

/-! A part of the ARMv6 instruction set: the core registers with the banked ones, the status
registers, word memory, and the instructions that switch contexts and modes. -/
namespace Lib.Arm

abbrev Word := BitVec 32

/-- For the numbers of registers. -/
instance neZeroRegs : NeZero 13 := ⟨by decide⟩

/-- User and system mode share their registers; every other mode has its own sp, lr and SPSR.
(FIQ mode's own r8–r12 are left out.) -/
inductive Bank where
  | usr | fiq | irq | svc | abt | und
  deriving DecidableEq

def svcMode : BitVec 5 := 0b10011
def sysMode : BitVec 5 := 0b11111

def bankOf (mode : BitVec 5) : Bank :=
  if mode = 0b10001 then .fiq
  else if mode = 0b10010 then .irq
  else if mode = svcMode then .svc
  else if mode = 0b10111 then .abt
  else if mode = 0b11011 then .und
  else .usr

structure State where
  r : Fin 13 → Word
  sp : Bank → Word
  lr : Bank → Word
  spsr : Bank → Word
  cpsr : Word
  pc : Word
  mem : Word → Word

namespace State

def mode (s : State) : BitVec 5 := s.cpsr.setWidth 5
def bank (s : State) : Bank := bankOf s.mode

def atPc (s : State) (p : Word) : State := { s with pc := p }

/-- On to the next instruction. -/
def next (s : State) : State := s.atPc (s.pc + 4)

end State

inductive Reg where
  | r (i : Fin 13)
  | sp
  | lr
  deriving DecidableEq

def State.get (s : State) : Reg → Word
  | .r i => s.r i
  | .sp => s.sp s.bank
  | .lr => s.lr s.bank

def State.set (s : State) (d : Reg) (v : Word) : State :=
  match d with
  | .r i => { s with r := Function.update s.r i v }
  | .sp => { s with sp := Function.update s.sp s.bank v }
  | .lr => { s with lr := Function.update s.lr s.bank v }

/-- Register lists go with ascending registers. -/
inductive Instr where
  | mov (d m : Reg)
  | movImm (d : Reg) (imm : Word)
  | addImm (d n : Reg) (imm : Word)
  | subImm (d n : Reg) (imm : Word)
  | andImm (d n : Reg) (imm : Word)
  | ldr (d n : Reg) (off : Word)
  | str (d n : Reg) (off : Word)
  | push (rs : List Reg)
  | pop (rs : List Reg)
  | mrs (d : Reg)
  | msr (mask : Word) (m : Reg)
  | msrImm (mask imm : Word)
  | ldrPc (target : Word)
  | bl (target : Word)
  | blx (m : Reg)
  | bx (m : Reg)
  | movsPcLr
  | swi

/-- The status fields an MSR writes. -/
def controlField : Word := 0xff
def flagsField : Word := 0xff000000

/-- Store registers at consecutive words from `a` on. -/
def storeRegs (s : State) : Word → List Reg → (Word → Word) → Word → Word
  | _, [], m => m
  | a, d :: rs, m => storeRegs s (a + 4) rs (Function.update m a (s.get d))

def loadRegs : Word → List Reg → State → State
  | _, [], s => s
  | a, d :: rs, s => loadRegs (a + 4) rs (s.set d (s.mem a))

def frameSize (rs : List Reg) : Word := BitVec.ofNat 32 (4 * rs.length)

def writeStatus (mask v cpsr : Word) : Word := (cpsr &&& ~~~mask) ||| (v &&& mask)

/-- The effect of an instruction, with `pc` at the next one. -/
def exec (i : Instr) (s : State) : State :=
  match i with
  | .mov d m => s.set d (s.get m)
  | .movImm d imm => s.set d imm
  | .addImm d n imm => s.set d (s.get n + imm)
  | .subImm d n imm => s.set d (s.get n - imm)
  | .andImm d n imm => s.set d (s.get n &&& imm)
  | .ldr d n off => s.set d (s.mem (s.get n + off))
  | .str d n off => { s with mem := Function.update s.mem (s.get n + off) (s.get d) }
  | .push rs =>
    let a := s.get .sp - frameSize rs
    { s with mem := storeRegs s a rs s.mem }.set .sp a
  | .pop rs => (loadRegs (s.get .sp) rs s).set .sp (s.get .sp + frameSize rs)
  | .mrs d => s.set d s.cpsr
  | .msr mask m => { s with cpsr := writeStatus mask (s.get m) s.cpsr }
  | .msrImm mask imm => { s with cpsr := writeStatus mask imm s.cpsr }
  | .ldrPc target => { s with pc := target }
  | .bl target => { s.set .lr s.pc with pc := target }
  | .blx m => { s.set .lr s.pc with pc := s.get m }
  | .bx m => { s with pc := s.get m }
  | .movsPcLr => { s with pc := s.get .lr, cpsr := s.spsr s.bank }
  | .swi =>
    { s with
      lr := Function.update s.lr .svc s.pc
      spsr := Function.update s.spsr .svc s.cpsr
      -- supervisor mode, ARM state, IRQs off
      cpsr := (s.cpsr &&& ~~~0x3f) ||| 0x93
      pc := 8 }

/-- Where the code lies. -/
abbrev Text := Word → Option Instr

def step (text : Text) (s : State) : Option State :=
  (text s.pc).map fun i => exec i s.next

/-- Instructions one after the other, none of them a jump. -/
def run (is : List Instr) (s : State) : State := is.foldl (fun s i => exec i s.next) s

/-- The words an instruction loads. -/
def Instr.reads (s : State) : Instr → List Word
  | .ldr _ n off => [s.get n + off]
  | .pop rs => (List.range rs.length).map fun k => s.get .sp + BitVec.ofNat 32 (4 * k)
  | _ => []

def reads : List Instr → State → List Word
  | [], _ => []
  | i :: is, s => i.reads s.next ++ reads is (exec i s.next)

/-- Save registers word by word above the stack pointer, and restore them. -/
def strs : Word → List Reg → List Instr
  | _, [] => []
  | off, d :: rs => .str d .sp off :: strs (off + 4) rs

def ldrs : Word → List Reg → List Instr
  | _, [] => []
  | off, d :: rs => .ldr d .sp off :: ldrs (off + 4) rs

def Code (text : Text) : Word → List Instr → Prop
  | _, [] => True
  | a, i :: is => text a = some i ∧ Code text (a + 4) is

section Regs
variable {s : State} {a x : Word} {rs : List Reg} {m : Word → Word}

theorem offset_zero (a : Word) : a + BitVec.ofNat 32 (4 * 0) = a := BitVec.add_zero a

theorem offset_succ (a : Word) (k : ℕ) :
    a + BitVec.ofNat 32 (4 * (k + 1)) = a + 4 + BitVec.ofNat 32 (4 * k) := by
  have hoff : BitVec.ofNat 32 (4 * (k + 1)) = BitVec.ofNat 32 4 + BitVec.ofNat 32 (4 * k) := by
    rw [← BitVec.ofNat_add, Nat.mul_succ, Nat.add_comm]
  rw [hoff, ← BitVec.add_assoc]
  rfl

theorem storeRegs_outside (rs : List Reg) (h : ∀ k < rs.length, x ≠ a + BitVec.ofNat 32 (4 * k)) :
    storeRegs s a rs m x = m x := by
  induction rs generalizing a m with
  | nil => rfl
  | cons d rs ih =>
    have hhead : x ≠ a := by
      have h0 := h 0 (Nat.zero_lt_succ _)
      rwa [offset_zero] at h0
    have htail : ∀ k < rs.length, x ≠ a + 4 + BitVec.ofNat 32 (4 * k) := by
      intro k hk
      have hnext := h (k + 1) (Nat.succ_lt_succ hk)
      rwa [offset_succ] at hnext
    unfold storeRegs
    rw [ih htail, Function.update_of_ne hhead]

theorem storeRegs_inside {k : ℕ} (hlen : rs.length ≤ 2 ^ 30) (hk : k < rs.length) :
    storeRegs s a rs m (a + BitVec.ofNat 32 (4 * k)) = s.get rs[k] := by
  induction rs generalizing a m k with
  | nil => exact absurd hk (Nat.not_lt_zero k)
  | cons d rs ih =>
    unfold storeRegs
    cases k with
    | zero =>
      have hlater : ∀ j < rs.length, a ≠ a + 4 + BitVec.ofNat 32 (4 * j) := by
        intro j hj heq
        rw [← offset_succ] at heq
        have hnat := congrArg BitVec.toNat heq
        simp only [BitVec.toNat_add, BitVec.toNat_ofNat] at hnat
        rw [List.length_cons] at hlen
        omega
      rw [offset_zero, storeRegs_outside rs hlater, Function.update_self]
      rfl
    | succ k =>
      rw [List.length_cons] at hlen hk
      rw [offset_succ, ih (by omega) (Nat.lt_of_succ_lt_succ hk)]
      rfl

/-- Loading leaves alone everything but the registers listed. -/
@[simp] theorem loadRegs_mem : (loadRegs a rs s).mem = s.mem := by
  induction rs generalizing a s with
  | nil => rfl
  | cons d rs ih =>
    unfold loadRegs
    rw [ih]
    cases d <;> rfl

@[simp] theorem loadRegs_cpsr : (loadRegs a rs s).cpsr = s.cpsr := by
  induction rs generalizing a s with
  | nil => rfl
  | cons d rs ih =>
    unfold loadRegs
    rw [ih]
    cases d <;> rfl

@[simp] theorem loadRegs_spsr : (loadRegs a rs s).spsr = s.spsr := by
  induction rs generalizing a s with
  | nil => rfl
  | cons d rs ih =>
    unfold loadRegs
    rw [ih]
    cases d <;> rfl

theorem get_set_of_ne {s : State} {d e : Reg} (v : Word) (h : d ≠ e) : (s.set e v).get d = s.get d := by
  cases d <;> cases e <;> simp_all [State.get, State.set, State.bank, State.mode]

theorem get_set_self (s : State) (d : Reg) (v : Word) : (s.set d v).get d = v := by
  cases d <;> simp [State.get, State.set, State.bank, State.mode]

theorem loadRegs_get_of_notMem {d : Reg} (h : d ∉ rs) : (loadRegs a rs s).get d = s.get d := by
  induction rs generalizing a s with
  | nil => rfl
  | cons e rs ih =>
    obtain ⟨hne, hrest⟩ := not_or.mp (List.mem_cons.not.mp h)
    unfold loadRegs
    rw [ih hrest, get_set_of_ne _ hne]

theorem loadRegs_get {k : ℕ} (hnodup : rs.Nodup) (hk : k < rs.length) :
    (loadRegs a rs s).get rs[k] = s.mem (a + BitVec.ofNat 32 (4 * k)) := by
  induction rs generalizing a s k with
  | nil => exact absurd hk (Nat.not_lt_zero k)
  | cons d rs ih =>
    obtain ⟨hd, hrs⟩ := List.nodup_cons.mp hnodup
    unfold loadRegs
    cases k with
    | zero =>
      rw [offset_zero, List.getElem_cons_zero, loadRegs_get_of_notMem hd, get_set_self]
    | succ k =>
      rw [offset_succ, List.getElem_cons_succ, ih hrs]
      cases d <;> rfl

/-- The registers of the other banks are out of reach. -/
theorem loadRegs_sp (b : Bank) (h : b ≠ s.bank) : (loadRegs a rs s).sp b = s.sp b := by
  induction rs generalizing a s with
  | nil => rfl
  | cons d rs ih =>
    unfold loadRegs
    cases d with
    | r i => exact ih h
    | lr => exact ih h
    | sp => exact (ih (s := s.set .sp (s.mem a)) h).trans (Function.update_of_ne h _ _)

theorem loadRegs_lr (b : Bank) (h : b ≠ s.bank) : (loadRegs a rs s).lr b = s.lr b := by
  induction rs generalizing a s with
  | nil => rfl
  | cons d rs ih =>
    unfold loadRegs
    cases d with
    | r i => exact ih h
    | sp => exact ih h
    | lr => exact (ih (s := s.set .lr (s.mem a)) h).trans (Function.update_of_ne h _ _)

theorem loadRegs_atPc (p : Word) : loadRegs a rs (s.atPc p) = (loadRegs a rs s).atPc p := by
  induction rs generalizing a s with
  | nil => rfl
  | cons d rs ih =>
    unfold loadRegs
    rw [← ih]
    cases d <;> rfl

@[simp] theorem run_nil (s : State) : run [] s = s := rfl

@[simp] theorem run_cons (i : Instr) (is : List Instr) (s : State) :
    run (i :: is) s = run is (exec i s.next) := rfl

theorem run_append (is js : List Instr) (s : State) : run (is ++ js) s = run js (run is s) :=
  List.foldl_append

theorem run_strs (off : Word) (rs : List Reg) (s : State) (p : Word) (m : Word → Word) :
    run (strs off rs) (State.atPc { s with mem := m } p) =
      State.atPc { s with mem := storeRegs s (s.get .sp + off) rs m } (p + frameSize rs) := by
  induction rs generalizing off p m with
  | nil =>
    have hpc : p + frameSize [] = p := BitVec.add_zero p
    rw [hpc]
    rfl
  | cons d rs ih =>
    have hpc : p + frameSize (d :: rs) = p + 4 + frameSize rs := offset_succ p rs.length
    have hstr : exec (.str d .sp off) (State.atPc { s with mem := m } p).next =
        State.atPc { s with mem := Function.update m (s.get .sp + off) (s.get d) } (p + 4) := by
      cases d <;> rfl
    unfold strs storeRegs
    rw [run_cons, hpc, hstr, ih (off + 4) (p + 4), ← BitVec.add_assoc]

theorem run_ldrs (off : Word) {rs : List Reg} (hsp : .sp ∉ rs) (s : State) :
    run (ldrs off rs) s = (loadRegs (s.get .sp + off) rs s).atPc (s.pc + frameSize rs) := by
  induction rs generalizing off s with
  | nil =>
    have hpc : s.pc + frameSize [] = s.pc := BitVec.add_zero s.pc
    rw [hpc]
    rfl
  | cons d rs ih =>
    obtain ⟨hd, hrs⟩ := not_or.mp (List.mem_cons.not.mp hsp)
    have hpc : s.pc + frameSize (d :: rs) = s.pc + 4 + frameSize rs := offset_succ s.pc rs.length
    have hldr : exec (.ldr d .sp off) s.next =
        (s.set d (s.mem (s.get .sp + off))).atPc (s.pc + 4) := by
      cases d <;> rfl
    have hget : (State.atPc (s.set d (s.mem (s.get .sp + off))) (s.pc + 4)).get .sp = s.get .sp :=
      get_set_of_ne _ hd
    unfold ldrs loadRegs
    rw [run_cons, hldr, ih (off + 4) hrs, hget, loadRegs_atPc, hpc, ← BitVec.add_assoc]
    rfl

theorem reads_append (is js : List Instr) (s : State) :
    reads (is ++ js) s = reads is s ++ reads js (run is s) := by
  induction is generalizing s with
  | nil => rfl
  | cons i is ih =>
    rw [List.cons_append, reads, reads, ih, List.append_assoc]
    rfl

theorem reads_strs (off : Word) (rs : List Reg) (s : State) : reads (strs off rs) s = [] := by
  induction rs generalizing off s with
  | nil => rfl
  | cons d rs ih =>
    rw [strs, reads, ih]
    rfl

theorem mem_reads_ldrs {off : Word} (hsp : .sp ∉ rs) (h : x ∈ reads (ldrs off rs) s) :
    ∃ k < rs.length, x = s.get .sp + off + BitVec.ofNat 32 (4 * k) := by
  induction rs generalizing off s with
  | nil => cases h
  | cons d rs ih =>
    obtain ⟨hd, hrs⟩ := not_or.mp (List.mem_cons.not.mp hsp)
    have hget : (exec (.ldr d .sp off) s.next).get .sp = s.get .sp := get_set_of_ne _ hd
    rw [ldrs, reads, List.mem_append] at h
    rcases h with h | h
    · refine ⟨0, Nat.zero_lt_succ _, ?_⟩
      rw [offset_zero]
      exact List.mem_singleton.mp h
    · obtain ⟨k, hk, rfl⟩ := ih hrs h
      refine ⟨k + 1, Nat.succ_lt_succ hk, ?_⟩
      rw [hget, offset_succ, ← BitVec.add_assoc]

end Regs

section Run
variable {text : Text} {entry : Word} {call : State → State → Prop} {P : State → Prop}
  {s s' : State}

/-- One instruction, or a call of the outside code at `entry`. -/
def Next (text : Text) (entry : Word) (call : State → State → Prop) (s s' : State) : Prop :=
  step text s = some s' ∨ text s.pc = none ∧ s.pc = entry ∧ call s s'

/-- Control is neither in the code nor at `entry`. -/
def Stops (text : Text) (entry : Word) (s : State) : Prop := text s.pc = none ∧ s.pc ≠ entry

/-- However the outside code behaves, as long as it returns, the run stops and does so in `P`. -/
inductive Ends (text : Text) (entry : Word) (call : State → State → Prop) (P : State → Prop) :
    State → Prop where
  | here {s : State} (hstop : Stops text entry s) (h : P s) : Ends text entry call P s
  | step {s : State} {i : Instr} (hi : text s.pc = some i)
      (h : Ends text entry call P (exec i s.next)) : Ends text entry call P s
  | call {s : State} (hout : text s.pc = none) (hentry : s.pc = entry)
      (h : ∀ s', call s s' → Ends text entry call P s') : Ends text entry call P s

/-- Where a run stops, `P` holds. -/
theorem Ends.run (h : Ends text entry call P s)
    (hrun : Relation.ReflTransGen (Next text entry call) s s') (hstop : Stops text entry s') :
    P s' := by
  induction h with
  | @here s hs hP =>
    rcases hrun.cases_head with rfl | ⟨t, hnext, -⟩
    · exact hP
    · rcases hnext with hnext | ⟨-, hentry, -⟩
      · unfold Arm.step at hnext
        rw [hs.1] at hnext
        cases hnext
      · exact absurd hentry hs.2
  | @step s i hi _ ih =>
    rcases hrun.cases_head with rfl | ⟨t, hnext, hrest⟩
    · rw [hstop.1] at hi
      cases hi
    · rcases hnext with hnext | ⟨hnone, -⟩
      · unfold Arm.step at hnext
        rw [hi] at hnext
        cases hnext
        exact ih hrest
      · rw [hnone] at hi
        cases hi
  | @call s hout hentry _ ih =>
    rcases hrun.cases_head with rfl | ⟨t, hnext, hrest⟩
    · exact absurd hentry hstop.2
    · rcases hnext with hnext | ⟨-, -, hcall⟩
      · unfold Arm.step at hnext
        rw [hout] at hnext
        cases hnext
      · exact ih t hcall hrest

end Run
end Lib.Arm
