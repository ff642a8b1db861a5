import SimplePiOS.Kernel.Operations

/-! The entries of the two page tables at every moment of a run: empty, or a section descriptor
that `fld_check_valid` accepts, of RAM that may be given back if it is private. Those the kernel needs in
a child's table stay there unless the program asks for their pages. -/
namespace SimplePiOS.Kernel
open Lib Libpi

def fldCheckValid (f : Fld) : Kern Unit := do
  assert (f.sbz1 = 0) "f->_sbz1 == 0"
  assert (f.tag = 2) "f->tag == 0b10"
  assert (f.S = 0) "f->S == 0"
  assert (f.IMP = 0) "f->IMP == 0"
  assert (f.C = 0) "f->C == 0"
  assert (f.B = 0) "f->B == 0"
  assert (f.super = 0) "f->super == 0"

def Fld.Accepted (f : Fld) : Prop := ∀ s, (fldCheckValid f).run s = .ok () s

/-- Empty, or an accepted descriptor; a private one has a section of RAM behind it, and not the
kernel's first one. -/
def Fld.WellFormed (f : Fld) : Prop :=
  f = Fld.zero ∨ f.Accepted ∧ (f.nG = 1 → 1 ≤ f.sec ∧ f.sec < nPhysPages)

def TableFormed (v : Vm) (pt : Asid) : Prop := ∀ p < nVirtPages, (v.table pt p).WellFormed

/-- The kernel's table is well formed, and the child's if it is asked for. -/
structure Formed (child : Bool) (v : Vm) : Prop where
  kernel : TableFormed v kernelAsid
  child : child → TableFormed v childAsid

section Entries
variable {f : Fld} {sec : ℕ} {flags : MapFlags}

theorem Fld.Accepted.tag (h : f.Accepted) : f.tag = 2 := by
  obtain ⟨_, s₁, -, hrest⟩ := of_bind_ok (h powerOn)
  obtain ⟨_, s₂, htag, -⟩ := of_bind_ok hrest
  exact (of_assert_ok htag).1

theorem sectionFld_accepted (pa : ℕ) (flags : MapFlags) : (sectionFld pa flags).Accepted :=
  fun _ => rfl

theorem sectionFld_wellFormed (h : flags.global = false → 1 ≤ sec ∧ sec < nPhysPages) :
    (sectionFld (sec * 2 ^ 20) flags).WellFormed := by
  refine .inr ⟨sectionFld_accepted _ _, ?_⟩
  intro hnG
  have hprivate : flags.global = false := by
    cases hglobal : flags.global with
    | false => rfl
    | true =>
      have hzero : (sectionFld (sec * 2 ^ 20) flags).nG = 0 := if_pos hglobal
      rw [hzero] at hnG
      exact absurd hnG (by decide)
  obtain ⟨hlo, hhi⟩ := h hprivate
  rw [sectionFld_sec flags (Nat.lt_trans hhi (by decide))]
  exact ⟨hlo, hhi⟩

/-- What `mmu_unmap` reads off a well-formed entry. -/
theorem Fld.WellFormed.released (h : f.WellFormed) (hrel : f.Released) :
    1 ≤ f.sec ∧ f.sec < nPhysPages := by
  have hbit : ∀ x : BitVec 1, x ≠ 0 → x = 1 := by decide
  rcases h with rfl | ⟨-, hsec⟩
  · exact absurd rfl hrel.1
  · exact hsec (hbit _ hrel.2)

end Entries

namespace Formed
variable {child : Bool} {v w : Vm} {pt : Asid} {page sec : ℕ} {f : Fld} {fl : MapFlags} {sync : Bool}

theorem congr (h : Formed child v) (htable : w.table = v.table) : Formed child w := by
  constructor
  · unfold TableFormed
    rw [htable]
    exact h.kernel
  · unfold TableFormed
    rw [htable]
    exact h.child

theorem setFld (h : Formed child v) (hf : f.WellFormed) : Formed child (v.setFld pt page f fl) := by
  have hentry : ∀ b p, (v.table b p).WellFormed → ((v.setFld pt page f fl).table b p).WellFormed := by
    intro b p hp
    rw [setFld_table]
    split
    · exact hf
    · exact hp
  exact ⟨fun p hp => hentry _ _ (h.kernel p hp), fun hc p hp => hentry _ _ (h.child hc p hp)⟩

theorem mapRam (h : Formed child v) (hsec : Free v sec) :
    Formed child (v.mapRam pt page sec sync) := by
  have hown : Formed child (v.setOwner sec pt) := h.congr rfl
  exact hown.setFld (sectionFld_wellFormed fun _ => ⟨hsec.lo, hsec.hi⟩)

end Formed

/-- The kernel with a child's table, before `elf_load` is called. -/
structure Opened (child : Bool) (v : Vm) : Prop where
  idle : Idle v
  formed : Formed child v
  frame : ∃ f, v.frame = some f ∧ f.proc.asid = childAsid

/-- The child is served, and it is the turn of one of them. -/
structure Served (child : Bool) (pid : Pid) (v : Vm) : Prop where
  formed : Formed child v
  frame : ∃ f, v.frame = some f ∧ f.proc.asid = childAsid
  currentProc : v.currentProc = pid
  asid : v.kernelProc.asid = kernelAsid

section Run
variable {child : Bool} {H : Moment → Prop} {s t : Machine} {Ok : Machine → KernelOp → Prop}

theorem formed_heapStable :
    HeapStable (fun v => Idle v ∧ Formed child v) (Formed child) := by
  constructor
  · exact fun v hv => hv.1
  · exact fun v sec hv _ => hv.2.congr rfl
  · exact fun v page sec sync hv hsec =>
      ⟨⟨hv.1.ttbr, hv.1.currentProc, hv.1.kernelProc⟩, hv.2.mapRam hsec⟩
  · exact fun v e hv => ⟨⟨hv.1.ttbr, hv.1.currentProc, hv.1.kernelProc⟩, hv.2.congr rfl⟩
  · exact fun v hv => hv.2

theorem opened_heapStable : HeapStable (Opened child) (Formed child) := by
  constructor
  · exact fun v hv => hv.idle
  · exact fun v sec hv _ => hv.formed.congr rfl
  · exact fun v page sec sync hv hsec => ⟨⟨hv.idle.ttbr, hv.idle.currentProc, hv.idle.kernelProc⟩,
      hv.formed.mapRam hsec, hv.frame⟩
  · exact fun v e hv => ⟨⟨hv.idle.ttbr, hv.idle.currentProc, hv.idle.kernelProc⟩,
      hv.formed.congr rfl, hv.frame⟩
  · exact fun v hv => hv.formed

theorem served_childStable : ChildStable (Served child) (Formed child) := by
  constructor
  · exact fun _ v hv => hv.frame
  · exact fun _ v hv => hv.currentProc
  · exact fun _ v sec hv _ => hv.formed.congr rfl
  · exact fun _ v page sec sync hv hsec =>
      ⟨hv.formed.mapRam hsec, hv.frame, hv.currentProc, hv.asid⟩
  · exact fun _ v a t hv => ⟨hv.formed.congr rfl, hv.frame, hv.currentProc, hv.asid⟩
  · exact fun _ pid v hv => ⟨hv.formed.congr rfl, hv.frame, rfl, hv.asid⟩
  · intro _ v e hv
    obtain ⟨f, hf, hasid⟩ := hv.frame
    exact ⟨hv.formed.congr rfl, ⟨_, congrArg (Option.map _) hf, hasid⟩, hv.currentProc, hv.asid⟩
  · intro _ v addr hv
    obtain ⟨f, hf, hasid⟩ := hv.frame
    exact ⟨hv.formed.congr rfl, ⟨_, congrArg (Option.map _) hf, hasid⟩, hv.currentProc, hv.asid⟩
  · exact fun _ v hv => hv.formed

/-- The child is shown what the file was stored to. -/
theorem steps_execLoadFile_formed [Calm H] (file : PiFile) :
    Steps H (InVm (Formed child)) (OnVm (Opened child)) (execLoadFile file) fun f s =>
      Opened child s.vm ∧ f = { file with data := kernelLoadAddr } := by
  let Filled : Vm → Prop := fun v => Opened child v ∧
    ∀ q ∈ filePages file.nData, (v.table kernelAsid q).Private
  have hfile : ∀ v, Opened child v → Opened child (v.openFile { file with data := kernelLoadAddr }) := by
    intro v hv
    obtain ⟨f, hf, hasid⟩ := hv.frame
    exact ⟨⟨hv.idle.ttbr, hv.idle.currentProc, hv.idle.kernelProc⟩, hv.formed.congr rfl,
      ⟨_, congrArg (Option.map _) hf, hasid⟩⟩
  apply (Steps.execLoadFile (OnVm (Opened child)) (OnVm (Opened child)) (fun s => Opened child s.vm ∧
    ∀ i < file.nData, (s.vm.fldAt ((kernelLoadAddr + i) % 2 ^ 32)).Private) (OnVm Filled) file _ _ _ _).post
  · exact fun f s hs => ⟨hs.1.1, hs.2⟩
  · exact fun s hs _ => ⟨hfile s.vm hs, (hfile s.vm hs).formed⟩
  · exact opened_heapStable.mmuMapToMem _ _ _
  · exact Steps.memcpy (stable_onVm _).toMemStable
  · have hloop : Steps H (InVm (Formed child)) (OnVm Filled) (forM (filePages file.nData) sharePage)
        fun _ => OnVm Filled := by
      apply Traced.forM_keeps
      intro page hpage
      apply Steps.sharePage
      · rintro s _ rfl ⟨hs, hpriv⟩ _
        have htable : ∀ q, (s.vm.setFld childAsid (childPage page)
            (sectionFld ((s.vm.table kernelAsid page).sec * 2 ^ 20) sharedFlags)
            sharedFlags).table kernelAsid q = s.vm.table kernelAsid q := by
          intro q
          rw [setFld_table, if_neg (fun hin => childAsid_ne_kernelAsid hin.1.symm)]
        have hsource := hs.formed.kernel page (filePages_lt hpage)
        have hnotzero : ¬ Fld.zero.Private := by decide
        have hformed : Formed child (s.vm.setFld childAsid (childPage page)
            (sectionFld ((s.vm.table kernelAsid page).sec * 2 ^ 20) sharedFlags) sharedFlags) := by
          apply hs.formed.setFld
          apply sectionFld_wellFormed
          intro _
          rcases hsource with hzero | ⟨-, hsec⟩
          · have hp := hpriv page hpage
            rw [hzero] at hp
            exact absurd hp hnotzero
          · exact hsec (hpriv page hpage).2
        refine ⟨⟨⟨hs.idle.setFld _ _ _ _, hformed, hs.frame⟩, ?_⟩, hformed⟩
        intro q hq
        have hp := hpriv q hq
        rw [← htable] at hp
        exact hp
      · exact fun s hs _ => ⟨hs, hs.1.formed⟩
    apply hloop.pre
    rintro s ⟨hs, hpriv⟩
    refine ⟨hs, ?_⟩
    intro q hq
    obtain ⟨i, hi, rfl⟩ := filePages_window hq
    have hp := hpriv i hi
    unfold Vm.fldAt at hp
    rwa [hs.idle.ttbr] at hp

theorem steps_execOpen_formed [Calm H] (disk : Disk) (fuel : ℕ) (fs : Fat32) (entry : Dirent) :
    Steps H (InVm (Formed child)) (OnVm (Opened child)) (execOpen disk fuel fs entry) fun file s =>
      Opened child s.vm ∧ file.data = kernelLoadAddr := by
  apply Traced.bind (Steps.fat32ReadFile disk fuel fs entry (stable_onVm _)
    opened_heapStable.kernelSbrk)
  intro file
  apply ((steps_execLoadFile_formed file).pre fun s hs => hs.1).post
  rintro f s ⟨hs, rfl⟩
  exact ⟨hs, rfl⟩

theorem steps_execProgram_formed [Calm H] (sbrks : List ℕ) {file : PiFile} (hdata : file.data = kernelLoadAddr) :
    Steps H (InVm (Formed child)) (OnVm (Opened child)) (execProgram sbrks file) fun _ =>
      OnVm fun v => Idle v ∧ Formed child v := by
  apply (served_childStable.execProgram sbrks hdata).conseq
  · intro s hs
    exact ⟨⟨hs.formed, hs.frame, hs.idle.currentProc, hs.idle.kernelProc⟩, hs.idle.ttbr⟩
  · intro _ s hs
    exact ⟨⟨hs.2, hs.1.currentProc, hs.1.asid⟩, hs.1.formed⟩

theorem steps_execClose_formed :
    Steps H (InVm (Formed child)) (OnVm fun v => Idle v ∧ Formed child v) execClose fun _ =>
      OnVm fun v => Idle v ∧ Formed child v := by
  apply Steps.execClose
  · exact fun v sec hv => ⟨hv.1.setOwner sec 0, hv.2.congr rfl⟩
  · exact fun v hv => ⟨⟨hv.1.ttbr, hv.1.currentProc, hv.1.kernelProc⟩, hv.2.congr rfl⟩
  · exact fun v hv => hv.2
  · exact fun v hv => hv.2

theorem Opened.setFld {v : Vm} {page : ℕ} {f : Fld} {fl : MapFlags} (hv : Opened child v)
    (hf : f.WellFormed) : Opened child (v.setFld childAsid page f fl) :=
  ⟨hv.idle.setFld _ _ _ _, hv.formed.setFld hf, hv.frame⟩

/-- A global section of the child's. -/
theorem steps_mapGlobal_formed (va sec : ℕ) :
    Steps H (InVm (Formed child)) (OnVm (Opened child))
      (mmuMapSection childAsid va (sec * 2 ^ 20) ⟨true, false, false⟩) fun _ =>
        OnVm (Opened child) := by
  have hf : (sectionFld (sec * 2 ^ 20) ⟨true, false, false⟩).WellFormed :=
    sectionFld_wellFormed fun h => by cases h
  apply Steps.mmuMapSection (OnVm (Opened child)) (OnVm (Opened child)) (OnVm (Opened child))
  · intro s hflags
    simp at hflags
  · exact fun s _ hs => hs
  · exact fun s hs _ => ⟨Opened.setFld hs hf, (Opened.setFld hs hf).formed⟩
  · exact fun s _ hs _ => ⟨hs, hs.formed⟩
  · exact fun s _ hs => hs
  · exact fun s hs _ => ⟨hs, hs.formed⟩

theorem steps_mmuMapKernelSections_formed :
    Steps H (InVm (Formed child)) (OnVm (Opened child)) (mmuMapKernelSections childAsid) fun _ =>
      OnVm (Opened child) := by
  apply Traced.bind (steps_mapGlobal_formed _ 0)
  intro _
  apply Traced.bind (steps_mapGlobal_formed _ 0x200)
  intro _
  apply Traced.bind (steps_mapGlobal_formed _ 0x201)
  intro _
  apply Traced.bind (steps_mapGlobal_formed _ 0x202)
  intro _
  exact steps_mapGlobal_formed _ 0x203

/-- All of `exec_file` behind the set-up of the table. -/
theorem steps_execRest_formed [Calm H] (disk : Disk) (fuel : ℕ) (fs : Fat32) (entry : Dirent)
    (sbrks : List ℕ) :
    Steps H (InVm (Formed child)) (OnVm (Opened child)) (execOpen disk fuel fs entry >>= execChild sbrks)
      fun _ => OnVm fun v => Idle v ∧ Formed child v := by
  apply Traced.bind (steps_execOpen_formed disk fuel fs entry)
  intro file
  apply Traced.assume (growing_execChild sbrks file)
  intro hdata
  exact .bind (steps_execProgram_formed sbrks hdata) fun _ => steps_execClose_formed

theorem steps_zeroFlds_formed (n : ℕ) :
    Steps H (InVm (Formed child)) (OnVm (Opened child)) (zeroFlds childAsid n) fun _ =>
      OnVm (Opened child) := by
  apply Steps.perform
  intro s hs _
  have hformed : Formed child { s.vm with
      table := Function.update s.vm.table childAsid fun i =>
        if i < n then Fld.zero else s.vm.table childAsid i } := by
    constructor
    · intro p hp
      dsimp only
      rw [Function.update_of_ne childAsid_ne_kernelAsid.symm]
      exact hs.formed.kernel p hp
    · intro hc p hp
      dsimp only
      rw [Function.update_self]
      split
      · exact .inl rfl
      · exact hs.formed.child hc p hp
  exact ⟨⟨⟨hs.idle.ttbr, hs.idle.currentProc, hs.idle.kernelProc⟩, hformed, hs.frame⟩, hformed⟩

theorem steps_execClear_formed :
    Steps H (InVm (Formed child)) (OnVm fun v => Idle v ∧ Formed child v) execClear fun _ =>
      OnVm (Opened child) := by
  apply Traced.bind (Q := fun _ => OnVm (Opened child))
  · apply Steps.perform
    intro s hs _
    have hformed : Formed child { s.vm with
        frame := some ⟨⟨0, 0, childAsid⟩, none⟩ } := hs.2.congr rfl
    exact ⟨⟨⟨hs.1.ttbr, hs.1.currentProc, hs.1.kernelProc⟩, hformed, ⟨_, rfl, rfl⟩⟩, hformed⟩
  · intro _
    apply Traced.bind (steps_zeroFlds_formed _)
    intro _
    apply Traced.bind (Steps.assert _ _)
    intro _
    exact (steps_zeroFlds_formed _).pre fun s hs => hs.1

/-- Each operation, at each of its moments. -/
theorem steps_op_formed [Calm H] (op : KernelOp) :
    Steps H (InVm (Formed child)) (OnVm fun v => Idle v ∧ Formed child v) op.run fun _ =>
      OnVm fun v => Idle v ∧ Formed child v := by
  cases op with
  | code mem heap => exact .code (stable_onVm _) mem heap
  | grow incr =>
    apply Traced.bind (formed_heapStable.kernelSbrk incr)
    intro _
    exact .pure fun s hs => hs
  | exec disk fuel fs entry sbrks =>
    change Steps _ _ _ (execFile disk fuel fs entry sbrks) _
    rw [execFile_eq, execInitTable_eq, bind_assoc]
    apply Traced.bind steps_execClear_formed
    intro _
    apply Traced.bind steps_mmuMapKernelSections_formed
    intro _
    exact steps_execRest_formed disk fuel fs entry sbrks

theorem notmainInit_formed (hs : notmainInit.run s = .ok () t) : Idle t.vm ∧ Formed false t.vm := by
  obtain ⟨u, hrun, -, htable, -⟩ := notmainInit_table s
  obtain rfl := (EStateM.Result.ok.inj (hrun.symm.trans hs)).2
  refine ⟨?_, ?_, fun h => by cases h⟩
  · cases hs
    exact ⟨rfl, rfl, rfl⟩
  · intro p hp
    rw [htable p hp]
    split
    · exact sectionFld_wellFormed fun h => by cases h
    · split
      · next htab => exact sectionFld_wellFormed fun _ => ⟨htab.1, Nat.lt_trans htab.2 (by decide)⟩
      · exact .inl rfl

theorem KernelRun.formed (h : KernelRun (fun s op => op.TameFrom s) s) : Idle s.vm ∧ Formed false s.vm := by
  induction h with
  | boot hrun => exact notmainInit_formed hrun
  | step op _ htame hrun ih =>
    exact (((steps_op_formed (H := Tame) op).of_ok hrun).elim ih (htame.of_ok hrun)).1

/-- When `mmu_init` returns, the child's table is empty. -/
theorem execClear_formed (hs : Idle s.vm ∧ Formed false s.vm) :
    ∃ t, execClear.run s = .ok () t ∧ Opened true t.vm := by
  refine ⟨_, rfl, ⟨hs.1.ttbr, hs.1.currentProc, hs.1.kernelProc⟩, ⟨hs.2.kernel, ?_⟩, ⟨_, rfl, rfl⟩⟩
  intro _ p hp
  exact .inl (if_pos hp)

/-- What holds from a state on, of code that stores through no global descriptor: the kernel's table
is well formed at every moment of the next operation, however it ends; both tables are at every
moment from the return of `exec_file`'s `mmu_init` on, through whatever follows; and `mmu_unmap` stays
within the ownership map and does not give the first section back. -/
structure WellKept (s : Machine) : Prop where
  kernel : TableFormed s.vm kernelAsid
  moments : ∀ op : KernelOp, op.TameFrom s →
    ∀ x ∈ since Machine.trace s (endState (op.run.run s)), TableFormed x.2 kernelAsid
  both : ∀ disk fuel fs entry sbrks, ∃ s₁, execClear.run s = .ok () s₁ ∧
    (TableFormed s₁.vm kernelAsid ∧ TableFormed s₁.vm childAsid) ∧
    ∀ later : List KernelOp,
      let moments := since Machine.trace s₁ (endState ((do
        mmuMapKernelSections childAsid
        execOpen disk fuel fs entry >>= execChild sbrks
        forM later KernelOp.run : Kern PUnit).run s₁))
      (∀ x ∈ moments, Tame x) → ∀ x ∈ moments, TableFormed x.2 kernelAsid ∧ TableFormed x.2 childAsid
  unmap : ∀ disk fuel fs entry sbrks t,
    (do execInitTable; execOpen disk fuel fs entry >>= execProgram sbrks).run s = .ok () t →
    (∀ x ∈ since Machine.trace s t, Tame x) → (∀ p < nVirtPages, (t.vm.table childAsid p).Released →
      1 ≤ (t.vm.table childAsid p).sec ∧ (t.vm.table childAsid p).sec < nPhysPages) ∧
    ∃ u, (mmuUnmap childAsid).run t = .ok () u ∧ u.vm.paddrToAsidMap 0 = t.vm.paddrToAsidMap 0

theorem execProgram_formed {disk : Disk} {fuel : ℕ} {fs : Fat32} {entry : Dirent} {sbrks : List ℕ}
    (hs : Idle s.vm ∧ Formed false s.vm)
    (hrun : (do execInitTable; execOpen disk fuel fs entry >>= execProgram sbrks).run s = .ok () t)
    (htame : ∀ x ∈ since Machine.trace s t, Tame x) : Formed true t.vm := by
  have hsteps : Steps Tame (InVm (Formed true)) (OnVm (Opened true)) (do
      mmuMapKernelSections childAsid
      execOpen disk fuel fs entry >>= execProgram sbrks) fun _ => OnVm fun v => Idle v ∧ Formed true v := by
    apply Traced.bind steps_mmuMapKernelSections_formed
    intro _
    apply Traced.bind (steps_execOpen_formed disk fuel fs entry)
    intro file
    apply Traced.assume (growing_execProgram sbrks file)
    exact steps_execProgram_formed sbrks
  obtain ⟨s₁, hclear, hopened⟩ := execClear_formed hs
  rw [execInitTable_eq, bind_assoc, bind_ok hclear] at hrun
  have hstart : Extends Machine.trace s s₁ := storeless_execClear.extends_ok hclear
  have htame₁ := (hstart.forall_since (hsteps.extends_ok hrun) htame).2
  exact ((hsteps.of_ok hrun).elim hopened htame₁).1.2

/-- Whatever was run before, without such a store. -/
theorem tables_wellFormed (h : KernelRun (fun s op => op.TameFrom s) s) : WellKept s := by
  have hs := h.formed
  refine ⟨hs.2.kernel, ?_, ?_, ?_⟩
  · intro op htame x hx
    have hsteps : Steps Tame (InVm (Formed false)) (OnVm fun v => Idle v ∧ Formed false v)
        op.run fun _ => OnVm fun v => Idle v ∧ Formed false v := steps_op_formed op
    exact (((hsteps.at_end s).elim hs htame).2 x hx).kernel
  · intro disk fuel fs entry sbrks
    obtain ⟨s₁, hclear, hopened⟩ := execClear_formed hs
    refine ⟨s₁, hclear, ⟨hopened.formed.kernel, hopened.formed.child rfl⟩, ?_⟩
    intro later moments htame x hx
    have hsteps : Steps Tame (InVm (Formed true)) (OnVm (Opened true)) (do
        mmuMapKernelSections childAsid
        execOpen disk fuel fs entry >>= execChild sbrks
        forM later KernelOp.run) fun _ => OnVm fun v => Idle v ∧ Formed true v := by
      apply Traced.bind steps_mmuMapKernelSections_formed
      intro _
      apply Traced.bind (steps_execRest_formed disk fuel fs entry sbrks)
      intro _
      exact .forM_keeps fun op _ => steps_op_formed op
    have hx' := ((hsteps.at_end s₁).elim hopened htame).2 x hx
    exact ⟨hx'.kernel, hx'.child rfl⟩
  · intro disk fuel fs entry sbrks t hrun htame
    have hreleased : ∀ p < nVirtPages, (t.vm.table childAsid p).Released →
        1 ≤ (t.vm.table childAsid p).sec ∧ (t.vm.table childAsid p).sec < nPhysPages :=
      fun p hp => ((execProgram_formed hs hrun htame).child rfl p hp).released
    obtain ⟨u, hunmap⟩ : ∃ u, (mmuUnmap childAsid).run t = .ok () u :=
      mmuUnmap_run fun p hp htag hnG => (hreleased p hp ⟨htag, hnG⟩).2
    refine ⟨hreleased, u, hunmap, ?_⟩
    apply (unmapPages_ok _ hunmap).kept
    intro p hp hrel hzero
    have hlo := (hreleased p (List.mem_range.mp hp) hrel).1
    omega

theorem tables_wellFormed_boot : ∃ s, notmainInit.run powerOn = .ok () s ∧ WellKept s :=
  ⟨_, rfl, tables_wellFormed (.boot rfl)⟩

/-- Before the first program is run, its table is whatever the memory held. -/
theorem table_unformed : ¬ ∀ s, KernelRun (fun _ _ => True) s →
    TableFormed s.vm kernelAsid ∧ TableFormed s.vm childAsid := by
  intro hall
  let start : Machine := { powerOn with
    vm := powerOn.vm.setFld childAsid 0 { Fld.zero with tag := 1 } ⟨false, false, false⟩ }
  obtain ⟨s, hboot, hentry⟩ : ∃ s, notmainInit.run start = .ok () s ∧
      s.vm.table childAsid 0 = { Fld.zero with tag := 1 } := ⟨_, rfl, rfl⟩
  have hformed := (hall s (.boot hboot)).2 0 (by decide)
  rw [hentry] at hformed
  rcases hformed with hzero | ⟨haccepted, -⟩
  · exact absurd hzero (by decide)
  · exact absurd haccepted.tag (by decide)

/-- The reserved entries survive every program, in runs without such stores, if neither the load
buffer nor a range of the program comes to lie on them. -/
theorem reserved_survive (h : KernelRun (fun s op => op.TameFrom s) s) (disk : Disk) (fuel : ℕ) (fs : Fat32)
    (entry : Dirent) (sbrks : List ℕ) (htame : (KernelOp.exec disk fuel fs entry sbrks).TameFrom s)
    (hshare : ∀ page ∈ filePages entry.nbytes, childPage page ∉ reservedPages)
    (hclear : ∀ s₁ file t, execInitTable.run s = .ok () s₁ →
      (execOpen disk fuel fs entry).run s₁ = .ok file t →
      ∀ r ∈ t.view.childRanges entry.nbytes sbrks, ∀ page ∈ pageRange r.1 r.2,
        page ∉ reservedPages) :
    ∃ s₁, execInitTable.run s = .ok () s₁ ∧
      ∀ x ∈ since Machine.trace s₁ (endState ((execFile disk fuel fs entry sbrks).run s)),
        ReservedKept x.2 :=
  execFile_reserved disk fuel fs entry sbrks s h.formed.1 htame hshare hclear

theorem reserved_survive_oneSegment : ∃ s s₁ : Machine, execInitTable.run s = .ok () s₁ ∧
    ∀ x ∈ since Machine.trace s₁ (endState ((execFile (sectorDisk (oneSegment 0x400000 1)) 2
      sectorFs (sectorFile (oneSegment 0x400000 1)) []).run s)), ReservedKept x.2 := by
  have hsize : (oneSegment 0x400000 1).length = 170 := length_oneSegment _ _
  have hplan : (fileView (oneSegment 0x400000 1)).elfLoad kernelLoadAddr 170 =
      .map 0x400000 1 (.setHeapStart 0 (.ret (some
        [.copy 0x400000 kernelLoadAddr 1, .jump 0x400000]))) := by rfl
  obtain ⟨s, hboot, hheap, hfree, hcursor, -⟩ := notmainInit_run powerOn rfl
  have hlen : (oneSegment 0x400000 1).length ≤ 512 := by rw [hsize]; decide
  have hfits : s.cursor + 512 ≤ kernelLoadAddr := by rw [hcursor]; decide
  have hroom : 2 ≤ (freeSecs s.vm).card := by rw [hfree, Nat.card_Ico]; decide
  obtain ⟨t, file, hopen, -, -, hholds, -⟩ := execOpen_sector (oneSegment 0x400000 1) hlen hheap
    (by decide) hfits hroom
  have htame := tameTo_segment [] hlen (by rw [hsize]; exact hplan) (by decide) hheap (by decide) hfits hroom
  have hsurvive := reserved_survive (.boot hboot) (sectorDisk (oneSegment 0x400000 1)) 2 sectorFs
    (sectorFile (oneSegment 0x400000 1)) [] htame.tame (by
      change ∀ page ∈ filePages (oneSegment 0x400000 1).length, childPage page ∉ reservedPages
      rw [hsize]
      decide) (by
      intro s₁ file' t' hinit hopen'
      rw [bind_ok hinit, hopen'] at hopen
      obtain ⟨-, rfl⟩ := EStateM.Result.ok.inj hopen
      change ∀ r ∈ t'.view.childRanges (oneSegment 0x400000 1).length [], _
      rw [hsize]
      unfold View.childRanges
      rw [elfLoad_fileView hholds 170 (by intro va; rw [hplan]; simp [Plan.result]), hplan]
      decide)
  obtain ⟨s₁, hinit, hkept⟩ := hsurvive
  exact ⟨s, s₁, hinit, hkept⟩

/-- A program can ask for a peripheral section, and gets it. -/
theorem reserved_replaced : ¬ ∀ (disk : Disk) (fuel : ℕ) (fs : Fat32) (entry : Dirent)
    (sbrks : List ℕ) (s : Machine), KernelRun (fun _ _ => True) s → ∃ s₁, execInitTable.run s = .ok () s₁ ∧
      ∀ x ∈ since Machine.trace s₁ (endState ((execFile disk fuel fs entry sbrks).run s)),
        ReservedKept x.2 := by
  intro hall
  obtain ⟨s₀, s₁, s, t, file, hboot, hinit, hopen, hload, ⟨new, htrace⟩, hlost⟩ :=
    peripheralSegment_loaded
  obtain ⟨s₁', hinit', hkept⟩ := hall (sectorDisk peripheralSegment) 2 sectorFs
    (sectorFile peripheralSegment) [] s₀ (.boot hboot)
  obtain rfl := (EStateM.Result.ok.inj (hinit.symm.trans hinit')).2
  have hend : (execFile (sectorDisk peripheralSegment) 2 sectorFs (sectorFile peripheralSegment)
      []).run s₀ = (do
        execLoaded [] (some peripheralInstrs)
        execClose).run (t.step (.ret .elfLoad) id) := by
    rw [execFile_eq, bind_ok hinit, bind_ok hopen, execChild_eq, bind_ok hload]
  obtain ⟨new', htrace', -⟩ := (growing_bind (growing_execLoaded [] (some peripheralInstrs)) fun _ =>
    storeless_execClose.grows).at_end (t.step (.ret .elfLoad) id)
  have hstep : (t.step (.ret .elfLoad) id).trace = (.ret .elfLoad, t.vm) :: t.trace := rfl
  rw [hstep, htrace, ← List.cons_append, ← List.append_assoc] at htrace'
  rw [hend, since_eq htrace'] at hkept
  exact hlost (hkept (.ret .elfLoad, t.vm) (by simp))

end Run

end SimplePiOS.Kernel
