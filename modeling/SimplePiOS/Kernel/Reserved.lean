import SimplePiOS.Kernel.ElfBounds
import SimplePiOS.Kernel.ExecRun

/-! The entries of a child's table that the kernel needs while the child runs: the kernel
section and the peripheral sections. They are as good as the ranges the program asks for. -/
namespace SimplePiOS.Kernel
open Lib Libpi

/-- The sections of `mmu_map_kernel_sections`. -/
def reservedPages : List ℕ := [0x000, 0x200, 0x201, 0x202, 0x203]

/-- A global identity mapping. -/
def identityFld (page : ℕ) : Fld := sectionFld (page * 2 ^ 20) ⟨true, false, false⟩

def ReservedKept (v : Vm) : Prop := ∀ page ∈ reservedPages, v.table childAsid page = identityFld page

/-- The break after a call of `sbrk`. -/
def nextBrk (brk incr : ℕ) : ℕ := if incr = 0 then brk else add32 brk incr

/-- The ranges a program asks for with its `sbrk` calls. -/
def sbrkRanges : ℕ → List ℕ → List (ℕ × ℕ)
  | _, [] => []
  | brk, incr :: sbrks => (brk, incr) :: sbrkRanges (nextBrk brk incr) sbrks

/-- All ranges that are mapped for a program, read off its file and its `sbrk` calls. -/
def View.childRanges (w : View) (nData : ℕ) (sbrks : List ℕ) : List (ℕ × ℕ) :=
  let plan := w.elfLoad kernelLoadAddr nData
  plan.ranges ++ match plan.result with
    | .ok (some _) => if plan.heapStart 0 = 0 then [] else sbrkRanges (plan.heapStart 0) sbrks
    | _ => []

/-- A child exists, with its heap start recorded. -/
structure Running (h : ℕ) (v : Vm) : Prop where
  kernelProc : v.kernelProc.asid = kernelAsid
  childProc : ∃ f, v.frame = some f ∧ f.proc.asid = childAsid ∧ f.proc.heapStart = h
  reserved : ReservedKept v

section Updates
variable {v : Vm} {h : ℕ} {pt : Asid} {page : ℕ}

theorem Idle.setOwner (hv : Idle v) (sec : ℕ) (a : Asid) : Idle (v.setOwner sec a) :=
  ⟨hv.ttbr, hv.currentProc, hv.kernelProc⟩

theorem Idle.setFld (hv : Idle v) (pt : Asid) (page : ℕ) (f : Fld) (fl : MapFlags) :
    Idle (v.setFld pt page f fl) :=
  ⟨hv.ttbr, hv.currentProc, hv.kernelProc⟩

theorem Running.setOwner (hv : Running h v) (sec : ℕ) (a : Asid) : Running h (v.setOwner sec a) :=
  ⟨hv.kernelProc, hv.childProc, hv.reserved⟩

theorem Running.setFld (hv : Running h v) (hpage : pt = childAsid → page ∉ reservedPages)
    (f : Fld) (fl : MapFlags) : Running h (v.setFld pt page f fl) := by
  refine ⟨hv.kernelProc, hv.childProc, ?_⟩
  intro i hi
  rw [setFld_table]
  split
  · next h =>
    obtain ⟨rfl, rfl⟩ := h
    exact absurd hi (hpage rfl)
  · exact hv.reserved i hi

end Updates

section Program
variable {h brk : ℕ} {A : Vm → Prop}

/-- Every recorded state keeps the reserved entries. -/
abbrev KeptNow : Moment → Prop := InVm ReservedKept

/-- The child runs with its break at `brk`. -/
structure InChild (h brk : ℕ) (v : Vm) : Prop extends Running h v where
  currentProc : v.currentProc = .child
  heapEnd : (v.proc .child).heapEnd = brk

theorem steps_mapPage_running {pt : Asid} {sync : Bool} {page : ℕ}
    (hown : ∀ v sec, A v → A (v.setOwner sec pt))
    (hfld : ∀ v f fl, A v → A (v.setFld pt page f fl)) (hkept : ∀ v, A v → ReservedKept v) :
    Steps Tame KeptNow (OnVm A) (mapPage pt sync page) fun _ => OnVm A := by
  have hmap : Steps (InVm fun _ => True) KeptNow (OnVm A) (mapPage pt sync page) fun _ => OnVm A := by
    apply Steps.mapPage_vm (fun _ => True) (fun _ => A)
    · intro v sec _ _ _ hv _
      exact ⟨hown v sec hv, hkept _ (hown v sec hv)⟩
    · intro v sec _ _ hv _
      exact hfld v _ _ hv
    · exact hkept
  exact hmap.mono (fun _ => id) (fun _ _ => id) (fun _ _ => trivial) fun _ => id

/-- Whatever the child maps outside the reserved pages keeps the assertion. -/
theorem steps_mmuMapToMem_running {addr size : ℕ} {sync : Bool}
    (hown : ∀ v sec, A v → A (v.setOwner sec childAsid))
    (hfld : ∀ v page f fl, page ∉ reservedPages → A v → A (v.setFld childAsid page f fl))
    (hkept : ∀ v, A v → ReservedKept v) (hclear : ∀ page ∈ pageRange addr size, page ∉ reservedPages) :
    Steps Tame KeptNow (OnVm A) (mmuMapToMem childAsid addr size sync) fun _ => OnVm A := by
  apply Traced.forM_keeps
  intro page hpage
  apply steps_mapPage_running hown _ hkept
  intro v f fl hv
  exact hfld v page f fl (hclear page hpage) hv

theorem steps_setProcidTtbr0 {procid pt : Asid} (hkept : ∀ v, A v → ReservedKept v)
    (hasid : ∀ v a, A v → A { v with asid := a }) (httbr : ∀ v, A v → A { v with ttbr := pt }) :
    Steps Tame KeptNow (OnVm A) (setProcidTtbr0 procid pt) fun _ => OnVm A := by
  apply Steps.setProcidTtbr0 (OnVm A) (OnVm A)
  · intro s hs _
    exact ⟨hasid _ _ hs, hkept _ (hasid _ _ hs)⟩
  · intro s hs _
    exact ⟨httbr _ hs, hkept _ (httbr _ hs)⟩
  · intro s hs _
    exact ⟨hasid _ _ hs, hkept _ (hasid _ _ hs)⟩

theorem InChild.setOwner {v : Vm} (hv : InChild h brk v) (sec : ℕ) (a : Asid) :
    InChild h brk (v.setOwner sec a) :=
  ⟨hv.toRunning.setOwner sec a, hv.currentProc, hv.heapEnd⟩

theorem InChild.setFld {v : Vm} (hv : InChild h brk v) {page : ℕ} (hpage : page ∉ reservedPages)
    (f : Fld) (fl : MapFlags) : InChild h brk (v.setFld childAsid page f fl) :=
  ⟨hv.toRunning.setFld (fun _ => hpage) f fl, hv.currentProc, hv.heapEnd⟩

theorem InChild.setHeapEnd {v : Vm} (hv : InChild h brk v) (e : ℕ) :
    InChild h e (v.setHeapEnd e .child) := by
  obtain ⟨f, hf, hasid, hstart⟩ := hv.childProc
  have hf' : (v.setHeapEnd e .child).frame =
      some { f with proc := { f.proc with heapEnd := e } } := by
    simp [Vm.setHeapEnd, hf]
  exact ⟨⟨hv.kernelProc, ⟨_, hf', hasid, hstart⟩, hv.reserved⟩, hv.currentProc,
    by rw [proc_child hf']⟩

/-- One `sbrk` call of the program. -/
theorem steps_kernelSbrk_child {incr : ℕ}
    (hclear : ∀ page ∈ pageRange brk incr, page ∉ reservedPages) :
    Steps Tame KeptNow (OnVm (InChild h brk)) (kernelSbrk incr) fun _ =>
      OnVm (InChild h (nextBrk brk incr)) := by
  have hkept : ∀ v, InChild h brk v → ReservedKept v := fun v hv => hv.reserved
  have hswitch : ∀ procid pt, Steps Tame KeptNow (OnVm (InChild h brk)) (setProcidTtbr0 procid pt)
      fun _ => OnVm (InChild h brk) := by
    intro procid pt
    apply steps_setProcidTtbr0 hkept
    · exact fun v a hv => ⟨⟨hv.kernelProc, hv.childProc, hv.reserved⟩, hv.currentProc, hv.heapEnd⟩
    · exact fun v hv => ⟨⟨hv.kernelProc, hv.childProc, hv.reserved⟩, hv.currentProc, hv.heapEnd⟩
  apply Steps.kernelSbrk_child (stable_onVm _)
  · exact fun v hv => hv.currentProc
  · intro v hv
    obtain ⟨f, hf, hasid, -⟩ := hv.childProc
    exact ⟨f, hf, hasid⟩
  · exact hswitch
  · intro v hv
    rw [hv.heapEnd]
    apply steps_mmuMapToMem_running _ _ hkept hclear
    · exact fun v sec hv => hv.setOwner sec childAsid
    · exact fun v page f fl hpage hv => hv.setFld hpage f fl
  · exact hswitch
  · intro hne v w hv hw
    have hnext : add32 (v.proc .child).heapEnd incr = nextBrk brk incr := by
      unfold nextBrk
      rw [if_neg hne, hv.heapEnd]
    rw [hnext]
    exact hw.setHeapEnd (nextBrk brk incr)
  · intro hzero v hv
    have hnext : nextBrk brk incr = brk := if_pos hzero
    rw [hnext]
    exact hv
  · exact fun v hv => hv.reserved

theorem mem_sbrkRanges (brk : ℕ) (done : List ℕ) (incr : ℕ) (rest : List ℕ) :
    (done.foldl nextBrk brk, incr) ∈ sbrkRanges brk (done ++ incr :: rest) := by
  induction done generalizing brk with
  | nil => simp [sbrkRanges]
  | cons i done ih =>
    have hrest := ih (nextBrk brk i)
    simp [sbrkRanges, hrest]

/-- The program, from its first instruction to its return. -/
theorem steps_runProgram {sbrks : List ℕ}
    (hclear : ∀ r ∈ sbrkRanges brk sbrks, ∀ page ∈ pageRange r.1 r.2, page ∉ reservedPages) :
    Steps Tame KeptNow (OnVm (InChild h brk)) (runProgram sbrks) fun _ =>
      OnVm (InChild h (sbrks.foldl nextBrk brk)) := by
  apply Traced.forM (I := fun done => OnVm (InChild h (done.foldl nextBrk brk)))
  intro done incr rest hsbrks
  have hmem := mem_sbrkRanges brk done incr rest
  rw [← hsbrks] at hmem
  rw [List.foldl_append]
  apply Traced.bind (steps_kernelSbrk_child (hclear _ hmem))
  intro _
  exact .pure fun s hs => hs

/-- The child's table while the kernel is the current process. -/
structure Loading (h : ℕ) (v : Vm) : Prop extends Running h v where
  currentProc : v.currentProc = .kernel

theorem steps_execLoadInstrs {sbrks : List ℕ} (instrLst : List LoadInstr)
    (hclear : h ≠ 0 → ∀ r ∈ sbrkRanges h sbrks, ∀ page ∈ pageRange r.1 r.2, page ∉ reservedPages) :
    Steps Tame KeptNow (OnVm (Loading h)) (execLoadInstrs sbrks instrLst) fun _ =>
      OnVm (Loading h) := by
  apply Steps.execLoadInstrs (stable_onVm _)
  intro a
  by_cases h0 : h = 0
  · -- Without a heap the program is not started.
    apply Steps.jump (fun _ => False) (fun _ => False) (fun _ => False)
    · exact fun s _ hs => hs
    · intro s h' hh' hne hs
      obtain ⟨f, hf, -, hstart⟩ := hs.childProc
      rw [proc_child hf, hstart, h0] at hh'
      exact absurd hh' hne
    · exact fun s hs => hs.elim
    · exact .of_false (growing_runProgram sbrks) fun s hs => hs
    · exact fun s hs => hs.elim
    · exact fun s hs => hs.elim
  · apply Steps.jump
      (fun s => Loading h s.vm ∧ (s.vm.proc .child).heapEnd = h)
      (OnVm (InChild h h)) (OnVm (InChild h (sbrks.foldl nextBrk h)))
    · exact fun s _ hs => hs
    · intro s h' hh' _ hs _
      obtain ⟨f, hf, hasid, hstart⟩ := hs.childProc
      rw [proc_child hf, hstart] at hh'
      subst hh'
      have hf' : (s.vm.setHeapEnd h' .child).frame =
          some { f with proc := { f.proc with heapEnd := h' } } := by
        simp [Vm.setHeapEnd, hf]
      have hrun : Loading h' (s.vm.setHeapEnd h' .child) :=
        ⟨⟨hs.kernelProc, ⟨_, hf', hasid, hstart⟩, hs.reserved⟩, hs.currentProc⟩
      exact ⟨⟨hrun, by change ((s.vm.setHeapEnd h' .child).proc .child).heapEnd = h'; rw [proc_child hf']⟩, hs.reserved⟩
    · rintro s ⟨hs, hbrk⟩ _
      exact ⟨⟨⟨hs.kernelProc, hs.childProc, hs.reserved⟩, rfl, hbrk⟩, hs.reserved⟩
    · exact steps_runProgram (hclear h0)
    · exact fun s hs => hs.1.currentProc
    · intro s hs _
      exact ⟨⟨⟨hs.kernelProc, hs.childProc, hs.reserved⟩, rfl⟩, hs.reserved⟩

/-- The child's table before the first switch to it. -/
structure Opening (h : ℕ) (v : Vm) : Prop extends Running h v where
  idle : Idle v

theorem Opening.setOwner {v : Vm} (hv : Opening h v) (sec : ℕ) (a : Asid) :
    Opening h (v.setOwner sec a) :=
  ⟨hv.toRunning.setOwner sec a, hv.idle.setOwner sec a⟩

theorem Opening.setFld {v : Vm} (hv : Opening h v) {pt : Asid} {page : ℕ}
    (hpage : pt = childAsid → page ∉ reservedPages) (f : Fld) (fl : MapFlags) :
    Opening h (v.setFld pt page f fl) :=
  ⟨hv.toRunning.setFld hpage f fl, hv.idle.setFld pt page f fl⟩

theorem Opening.setHeapStart {v : Vm} (hv : Opening h v) (addr : ℕ) :
    Opening addr (v.setHeapStart addr) := by
  obtain ⟨f, hf, hasid, -⟩ := hv.childProc
  have hf' : (v.setHeapStart addr).frame = some { f with proc := { f.proc with heapStart := addr } } :=
    congrArg (Option.map _) hf
  exact ⟨⟨hv.kernelProc, ⟨_, hf', hasid, rfl⟩, hv.reserved⟩,
    ⟨hv.idle.ttbr, hv.idle.currentProc, hv.idle.kernelProc⟩⟩

theorem Opening.loading {v : Vm} (hv : Opening h v) : Loading h v :=
  ⟨hv.toRunning, hv.idle.currentProc⟩

theorem opening_kernelStable : KernelStable (Opening h) := by
  constructor
  · exact fun v hv => hv.idle
  · exact fun v sec a hv => hv.setOwner sec a
  · exact fun v page f fl hv => hv.setFld (fun hpt => by cases hpt) f fl
  · exact fun v e hv => ⟨⟨hv.kernelProc, hv.childProc, hv.reserved⟩,
      ⟨hv.idle.ttbr, hv.idle.currentProc, hv.idle.kernelProc⟩⟩

theorem steps_execOpen (disk : Disk) (fuel : ℕ) (fs : Fat32) (entry : Dirent)
    (hshare : ∀ page ∈ filePages entry.nbytes, childPage page ∉ reservedPages) :
    Steps Tame KeptNow (OnVm (Opening 0)) (execOpen disk fuel fs entry) fun file s =>
      Opening 0 s.vm ∧ file.data = kernelLoadAddr ∧ file.nData = entry.nbytes := by
  have hkept : ∀ v, Opening 0 v → ReservedKept v := fun v hv => hv.reserved
  have hread := Steps.fat32ReadFile (H := Tame) disk fuel fs entry (stable_onVm _)
    (opening_kernelStable.heapStable hkept).kernelSbrk
  apply Traced.bind hread
  intro file
  apply Traced.assume (growing_execLoadFile file)
  intro hlen
  have hload : Steps Tame KeptNow (OnVm (Opening 0)) (execLoadFile file) fun f s =>
      Opening 0 s.vm ∧ f = { file with data := kernelLoadAddr } := by
    apply Steps.execLoadFile (OnVm (Opening 0)) (OnVm (Opening 0)) (OnVm (Opening 0))
      (OnVm (Opening 0))
    · intro s hs _
      obtain ⟨f, hf, hasid, hstart⟩ := hs.childProc
      have hf' : (s.vm.openFile { file with data := kernelLoadAddr }).frame =
          some { f with file := some { file with data := kernelLoadAddr } } := by
        simp [Vm.openFile, hf]
      exact ⟨⟨⟨hs.kernelProc, ⟨_, hf', hasid, hstart⟩, hs.reserved⟩,
        ⟨hs.idle.ttbr, hs.idle.currentProc, hs.idle.kernelProc⟩⟩, hs.reserved⟩
    · exact (opening_kernelStable.heapStable hkept).mmuMapToMem _ _ _
    · exact .of_still (stable_onVm _) (still_memcpy _ _ _)
    · apply Traced.forM_keeps
      intro page hpage
      rw [hlen] at hpage
      apply Steps.sharePage
      · intro s sec _ hs _
        have hs' : Opening 0 (s.vm.setFld childAsid (childPage page)
            (sectionFld (sec * 2 ^ 20) sharedFlags) sharedFlags) :=
          Opening.setFld hs (fun _ => hshare page hpage) _ _
        exact ⟨hs', hs'.reserved⟩
      · exact fun s hs _ => ⟨hs, hs.reserved⟩
  refine hload.post ?_
  rintro f s ⟨hs, rfl⟩
  exact ⟨hs, rfl, hlen⟩

/-- From the call of `elf_load` to the one of `mmu_unmap`, on a file that reads as `w`. -/
theorem steps_execProgram {w : View} {nData : ℕ} {sbrks : List ℕ} {file : PiFile}
    (hdata : file.data = kernelLoadAddr) (hlen : file.nData = nData)
    (hclear : ∀ r ∈ w.childRanges nData sbrks, ∀ page ∈ pageRange r.1 r.2, page ∉ reservedPages) :
    Steps Tame KeptNow (fun s => Opening 0 s.vm ∧ s.view = w) (execProgram sbrks file) fun _ =>
      OnVm ReservedKept := by
  let plan := w.elfLoad kernelLoadAddr nData
  have hload : Steps Tame KeptNow (fun s => Opening 0 s.vm ∧ s.view = w)
      (elfLoad kernelLoadAddr nData childAsid) fun r s =>
        Opening (plan.heapStart 0) s.vm ∧ plan.result = .ok r := by
    apply Steps.elfLoad (L := fun h => OnVm (Opening h)) 0 (stable_onVm _)
    · exact fun s hs => hs.idle.ttbr
    · intro h r hr
      apply steps_mmuMapToMem_running
      · exact fun v sec hv => hv.setOwner sec childAsid
      · exact fun v page f fl hpage hv => hv.setFld (fun _ => hpage) f fl
      · exact fun v hv => hv.reserved
      · exact hclear r (by unfold View.childRanges; exact List.mem_append_left _ hr)
    · exact fun h addr s hs _ => ⟨hs.setHeapStart addr, hs.reserved⟩
    · exact fun r s hs hr _ => ⟨⟨hs, hr⟩, hs.reserved⟩
  unfold execProgram
  rw [hdata, hlen]
  apply Traced.bind hload
  intro r
  cases r with
  | none => exact .pure fun s hs => hs.1.reserved
  | some instrLst =>
    have hswitch : ∀ procid pt, Steps Tame KeptNow (OnVm (Loading (plan.heapStart 0)))
        (setProcidTtbr0 procid pt) fun _ => OnVm (Loading (plan.heapStart 0)) := by
      intro procid pt
      apply steps_setProcidTtbr0
      · exact fun v hv => hv.reserved
      · exact fun v a hv => ⟨⟨hv.kernelProc, hv.childProc, hv.reserved⟩, hv.currentProc⟩
      · exact fun v hv => ⟨⟨hv.kernelProc, hv.childProc, hv.reserved⟩, hv.currentProc⟩
    apply Traced.assume (growing_execLoaded sbrks (some instrLst))
    intro hresult
    apply Traced.bind ((hswitch _ _).pre fun s hs => hs.loading)
    intro _
    have hprogram : plan.heapStart 0 ≠ 0 → ∀ r ∈ sbrkRanges (plan.heapStart 0) sbrks,
        ∀ page ∈ pageRange r.1 r.2, page ∉ reservedPages := by
      intro h0 r hr
      apply hclear r
      unfold View.childRanges
      change r ∈ plan.ranges ++ match plan.result with
        | .ok (some _) => if plan.heapStart 0 = 0 then [] else sbrkRanges (plan.heapStart 0) sbrks
        | _ => []
      rw [hresult]
      exact List.mem_append_right _ (by simpa [h0] using hr)
    apply Traced.bind (steps_execLoadInstrs instrLst hprogram)
    intro _
    apply Traced.bind (hswitch _ _)
    intro _
    exact Steps.mark fun s hs _ => ⟨hs.reserved, hs.reserved⟩

theorem steps_execClose : Steps Tame KeptNow (OnVm ReservedKept) execClose fun _ => OnVm ReservedKept :=
  .execClose (fun _ _ hv => hv) (fun _ hv => hv) (fun _ hv => hv) fun _ hv => hv

end Program

theorem execInitTable_opening {s t : Machine} (hs : Idle s.vm)
    (h : execInitTable.run s = .ok () t) : Opening 0 t.vm := by
  cases h
  refine ⟨⟨hs.kernelProc, ⟨_, rfl, rfl, rfl⟩, ?_⟩, ⟨hs.ttbr, hs.currentProc, hs.kernelProc⟩⟩
  intro page hpage
  simp only [reservedPages, List.mem_cons, List.not_mem_nil, or_false] at hpage
  rcases hpage with rfl | rfl | rfl | rfl | rfl <;> rfl

/-- `exec_file` keeps them if it stores through no global descriptor and neither the load buffer nor a
range of the program comes to lie on them. -/
theorem execFile_reserved (disk : Disk) (fuel : ℕ) (fs : Fat32) (entry : Dirent) (sbrks : List ℕ)
    (s : Machine) (hidle : Idle s.vm)
    (htame : ∀ x ∈ since Machine.trace s (endState ((execFile disk fuel fs entry sbrks).run s)),
      Tame x)
    (hshare : ∀ page ∈ filePages entry.nbytes, childPage page ∉ reservedPages)
    (hclear : ∀ s₁ file t, execInitTable.run s = .ok () s₁ →
      (execOpen disk fuel fs entry).run s₁ = .ok file t →
      ∀ r ∈ t.view.childRanges entry.nbytes sbrks, ∀ page ∈ pageRange r.1 r.2,
        page ∉ reservedPages) :
    ∃ s₁, execInitTable.run s = .ok () s₁ ∧
      ∀ x ∈ since Machine.trace s₁ (endState ((execFile disk fuel fs entry sbrks).run s)),
        ReservedKept x.2 := by
  obtain ⟨s₁, hinit⟩ := execInitTable_ok s
  refine ⟨s₁, hinit, ?_⟩
  have hopening := execInitTable_opening hidle hinit
  have hopen := steps_execOpen disk fuel fs entry hshare
  have hgrows := growing_bind hopen.grows fun file => growing_execChild sbrks file
  rw [execFile_eq, bind_ok hinit] at htame ⊢
  have htame₁ := ((storeless_execInitTable.extends_ok hinit).forall_since (hgrows.extends_end s₁) htame).2
  have hrest : Along Machine.trace Tame KeptNow (OnVm (Opening 0)) (fun _ => True) s₁
      (endState ((execOpen disk fuel fs entry >>= execChild sbrks).run s₁)) := by
    cases hr : (execOpen disk fuel fs entry).run s₁ with
    | error e t =>
      rw [bind_error hr]
      exact hopen.of_error hr
    | ok file t =>
      rw [bind_ok hr]
      have hto := hopen.of_ok hr
      rw [bind_ok hr] at htame₁
      have htame₂ := ((hopen.extends_ok hr).forall_since
        ((growing_execChild sbrks file).extends_end t) htame₁).1
      obtain ⟨hvm, hdata, hlen⟩ := (hto.elim hopening htame₂).1
      have hprogram := steps_execProgram (w := t.view) hdata hlen (hclear s₁ file t hinit hr)
      have hchild := (hprogram.bind fun _ => steps_execClose).at_end t
      exact hto.trans (hchild.mono (fun hs => ⟨hs.1, rfl⟩) id (fun _ => id) fun _ => id)
  exact (hrest.elim hopening htame₁).2

section Segment
variable {e va n : ℕ} {s t : Machine} {bs : List UInt8} {file : PiFile}

/-- The pages of the segment are the child's own, and there is no program to start. -/
def SegmentOwn (va n : ℕ) (v : Vm) : Prop :=
  (∀ i < n, (v.table childAsid ((va + i) % 2 ^ 32 / 2 ^ 20)).Private) ∧
    (v.proc .child).heapStart = 0

/-- The segment is stored to private pages. -/
theorem tame_execLoaded_segment (sbrks : List ℕ) {src : ℕ} :
    Steps (fun _ => True) Tame (OnVm (SegmentOwn va n))
      (execLoaded sbrks (some [.copy va src n, .jump va])) fun _ _ => True := by
  let A : Vm → Prop := fun v => SegmentOwn va n v ∧ v.ttbr = childAsid
  have hswitch : Steps (fun _ => True) Tame (OnVm (SegmentOwn va n))
      (setProcidTtbr0 childAsid childAsid) fun _ => OnVm A := by
    apply Steps.setProcidTtbr0 (OnVm (SegmentOwn va n)) (OnVm A)
    · exact fun s hs _ => ⟨hs, by simp [Tame]⟩
    · exact fun s hs _ => ⟨⟨hs, rfl⟩, by simp [Tame]⟩
    · exact fun s hs _ => ⟨hs, by simp [Tame]⟩
  have hcopy : ∀ src, Steps (fun _ => True) Tame (OnVm A) (memcpy mmu va src n) fun _ => OnVm A := by
    intro src
    apply Steps.of_needs (growing_still (still_memcpy _ _ _))
    rintro v ⟨⟨hpriv, -⟩, httbr⟩
    apply needs_memcpy
    intro i hi
    unfold Vm.fldAt
    rw [httbr]
    exact hpriv i hi
  have hjump : Steps (fun _ => True) Tame (OnVm A) (execLoadInstr sbrks (.jump va)) fun _ => OnVm A := by
    apply Steps.jump (fun _ => False) (fun _ => False) (fun _ => False)
    · exact fun s _ hs => hs
    · exact fun s h hh hne hs => absurd (hh.trans hs.1.2) hne
    · exact fun s hs => hs.elim
    · exact .of_false (growing_runProgram sbrks) fun s hs => hs
    · exact fun s hs => hs.elim
    · exact fun s hs => hs.elim
  have hloads : Steps (fun _ => True) Tame (OnVm A)
      (execLoadInstrs sbrks [.copy va src n, .jump va]) fun _ => OnVm A := by
    apply Steps.execLoadInstrs_each
    intro instr hinstr
    simp only [List.mem_cons, List.not_mem_nil, or_false] at hinstr
    rcases hinstr with rfl | rfl
    · exact .bind (hcopy _) fun _ => .pure fun _ hs => hs
    · exact hjump
  apply Traced.bind hswitch
  intro _
  apply Traced.bind hloads
  intro _
  apply Traced.pre (L := fun _ => True) _ fun _ _ => trivial
  apply Traced.bind (storeless_setProcidTtbr0 _ _)
  intro _
  exact storeless_perform (by simp) _

/-- A run on a file with one segment, on pages of its own, is tame. -/
theorem tameTo_segment (sbrks : List ℕ) (hlen : bs.length ≤ 512)
    (hplan : (fileView bs).elfLoad kernelLoadAddr bs.length =
      .map va n (.setHeapStart 0 (.ret (some [.copy va kernelLoadAddr n, .jump va]))))
    (hpages : ∀ i < n, (va + i) % 2 ^ 32 / 2 ^ 20 ∈ pageRange va n)
    (h : HeapAt e s) (hbelow : e ≤ kernelLoadAddr / 2 ^ 20) (hfits : s.cursor + 512 ≤ kernelLoadAddr)
    (hroom : 2 ≤ (freeSecs s.vm).card) :
    TameTo s (endState ((execFile (sectorDisk bs) 2 sectorFs (sectorFile bs) sbrks).run s)) := by
  obtain ⟨t, file, hopen, hdata, hn, hholds, -, ⟨hidle, hframe⟩, htame⟩ :=
    execOpen_sector bs hlen h hbelow hfits hroom
  have hview := elfLoad_fileView hholds bs.length (by intro a; rw [hplan]; simp [Plan.result])
  rw [hplan] at hview
  have hload := elfLoad_run hidle.ttbr hview (by simp)
  suffices hchild : TameTo t (endState ((execChild sbrks file).run t)) by
    rw [execFile_eq, ← bind_assoc, bind_ok hopen]
    exact htame.trans hchild
  rw [execChild_eq, hdata, hn]
  rcases mmuMapToMem_run (by decide : childAsid ≠ 0) va n false t with
    ⟨u, hmap, hgrown, -⟩ | ⟨-, u, hfull⟩
  · let w := (u.step .update (·.setHeapStart 0)).step (.ret .elfLoad) id
    have hrun : (elfLoad kernelLoadAddr bs.length childAsid).run t =
        .ok (some [.copy va kernelLoadAddr n, .jump va]) w := by
      rw [hload]
      unfold Plan.exec
      rw [bind_assoc, bind_ok hmap]
      rfl
    have hown : SegmentOwn va n w.vm := by
      refine ⟨fun i hi => hgrown.priv _ (hpages i hi), ?_⟩
      obtain ⟨f, hf⟩ := Option.isSome_iff_exists.mp hframe
      have hf' : w.vm.frame = some { f with proc := { f.proc with heapStart := 0 } } :=
        congrArg (Option.map _) (hgrown.frame.trans hf)
      rw [proc_child hf']
    rw [bind_ok hrun]
    have hlast : TameTo w (endState ((do
        execLoaded sbrks (some [.copy va kernelLoadAddr n, .jump va])
        execClose).run w)) :=
      (((tame_execLoaded_segment sbrks).bind fun _ => storeless_execClose).at_end w).mono (fun _ => hown) id
        (fun _ => id) fun _ => id
    have hstep : TameTo u w := ⟨[(.ret .elfLoad, w.vm), (.update, w.vm)], rfl, fun _ _ => ⟨trivial, by simp [Tame]⟩⟩
    exact ((storeless_mmuMapToMem _ _ _ _).tameTo hmap).trans (hstep.trans hlast)
  · have hrun : (elfLoad kernelLoadAddr bs.length childAsid).run t = .error (.panic "Out of memory\n") u := by
      rw [hload]
      unfold Plan.exec
      rw [bind_assoc, bind_error hfull]
    have hmapped := (storeless_mmuMapToMem childAsid va n false).tameTo_end t
    rw [hfull] at hmapped
    rw [bind_error hrun]
    exact hmapped

end Segment

section Replaced

/-- A segment of one byte at the start of the peripheral sections. -/
def peripheralSegment : List UInt8 := oneSegment 0x20000000 1

def peripheralInstrs : List LoadInstr := [.copy 0x20000000 kernelLoadAddr 1, .jump 0x20000000]

/-- The file is opened, and `elf_load` replaces a reserved entry for it. -/
theorem peripheralSegment_loaded : ∃ (s₀ s₁ s t : Machine) (file : PiFile),
    notmainInit.run powerOn = .ok () s₀ ∧ execInitTable.run s₀ = .ok () s₁ ∧
    (execOpen (sectorDisk peripheralSegment) 2 sectorFs (sectorFile peripheralSegment)).run s₁ =
      .ok file s ∧
    (elfLoad file.data file.nData childAsid).run s =
      .ok (some peripheralInstrs) (t.step (.ret .elfLoad) id) ∧
    (∃ new, t.trace = new ++ s₁.trace) ∧ ¬ ReservedKept t.vm := by
  have hsize : peripheralSegment.length = 170 := length_oneSegment _ _
  have hplan : (fileView peripheralSegment).elfLoad kernelLoadAddr 170 =
      .map 0x20000000 1 (.setHeapStart 0 (.ret (some peripheralInstrs))) := by rfl
  obtain ⟨s₀, hboot, hheap, hfree, hcursor, -⟩ := notmainInit_run powerOn rfl
  have hcard : (freeSecs s₀.vm).card = 507 := by
    rw [hfree, Nat.card_Ico]
    rfl
  obtain ⟨s, file, hopen, hdata, hlen, hholds, hroom, ⟨hidle, -⟩, -⟩ := execOpen_sector peripheralSegment
    (by rw [hsize]; decide) hheap (by decide) (by rw [hcursor]; decide) (by omega)
  obtain ⟨_, s₁, hinit, hrest⟩ := of_bind_ok hopen
  have hsteps := (steps_execOpen (sectorDisk peripheralSegment) 2 sectorFs
    (sectorFile peripheralSegment) (by
      change ∀ page ∈ filePages peripheralSegment.length, childPage page ∉ reservedPages
      rw [hsize]
      decide)).of_ok hrest
  have hview := elfLoad_fileView hholds 170 (by intro va; rw [hplan]; simp [Plan.result])
  rw [hplan] at hview
  have hpage : pageRange 0x20000000 1 = [0x200] := by decide
  rcases mmuMapToMem_run (by decide : childAsid ≠ 0) 0x20000000 1 false s with
    ⟨t, hmap, hgrown, -⟩ | ⟨hfull, -⟩
  · rw [hpage] at hgrown
    refine ⟨s₀, s₁, s, t.step .update (·.setHeapStart 0), file, hboot, hinit, hrest, ?_, ?_, ?_⟩
    · rw [hdata, hlen, hsize, elfLoad_run hidle.ttbr hview (by simp)]
      unfold Plan.exec
      rw [bind_assoc, bind_ok hmap]
      rfl
    · obtain ⟨new, htrace, -⟩ := hsteps
      obtain ⟨new', htrace', -⟩ := (growing_mmuMapToMem _ _ _ _).of_ok hmap
      refine ⟨(.update, t.vm.setHeapStart 0) :: new' ++ new, ?_⟩
      change (.update, t.vm.setHeapStart 0) :: t.trace = _
      rw [htrace', htrace]
      simp
    · intro hkept
      have hentry : t.vm.table childAsid 0x200 = identityFld 0x200 := hkept 0x200 (by decide)
      have hpriv : (identityFld 0x200).Private := by
        rw [← hentry]
        exact hgrown.priv 0x200 (by simp)
      exact absurd hpriv (by decide)
  · rw [hpage] at hfull
    change (freeSecs s.vm).card < 1 at hfull
    omega

end Replaced

end SimplePiOS.Kernel
