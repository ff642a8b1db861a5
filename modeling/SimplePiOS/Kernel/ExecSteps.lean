import SimplePiOS.Kernel.ElfPlan

/-! `exec_file` as a sequence of updates: one rule for each of its parts. -/
namespace SimplePiOS.Kernel
open Lib Libpi

def Vm.openFile (v : Vm) (file : PiFile) : Vm :=
  { v with frame := v.frame.map ({ · with file := some file }) }

section Parts
variable {H K : Moment → Prop} {L L' L₁ L₂ L₃ : Machine → Prop}

/-- A step that leaves the tables and registers alone. -/
theorem Steps.mark {e : Event} (h : ∀ s, L s → H (e, s.vm) → L' (s.step e id) ∧ K (e, s.vm)) :
    Steps H K L (Kernel.perform e id) fun _ => L' :=
  perform h

theorem Steps.setProcidTtbr0 {procid pt : Asid} (L₁ L₂ : Machine → Prop)
    (h₁ : ∀ s, L s → H (.update, { s.vm with asid := 0 }) →
      L₁ (s.step .update ({ · with asid := 0 })) ∧ K (.update, { s.vm with asid := 0 }))
    (h₂ : ∀ s, L₁ s → H (.update, { s.vm with ttbr := pt }) →
      L₂ (s.step .update ({ · with ttbr := pt })) ∧ K (.update, { s.vm with ttbr := pt }))
    (h₃ : ∀ s, L₂ s → H (.update, { s.vm with asid := procid }) →
      L' (s.step .update ({ · with asid := procid })) ∧ K (.update, { s.vm with asid := procid })) :
    Steps H K L (Kernel.setProcidTtbr0 procid pt) fun _ => L' :=
  .bind (perform h₁) fun _ => .bind (perform h₂) fun _ => perform h₃

/-- An assertion that the registers have no part in. -/
theorem Steps.setProcidTtbr0_vm {A Kv : Vm → Prop} (hregs : ∀ v a t, A v → A { v with asid := a, ttbr := t })
    (hkeeps : ∀ v, A v → Kv v) (procid pt : Asid) :
    Steps H (InVm Kv) (OnVm A) (Kernel.setProcidTtbr0 procid pt) fun _ s => A s.vm ∧ s.vm.ttbr = pt := by
  apply Steps.setProcidTtbr0 (OnVm A) fun s => A s.vm ∧ s.vm.ttbr = pt
  · intro s hs _
    have hs' := hregs s.vm 0 s.vm.ttbr hs
    exact ⟨hs', hkeeps _ hs'⟩
  · intro s hs _
    have hs' := hregs s.vm s.vm.asid pt hs
    exact ⟨⟨hs', rfl⟩, hkeeps _ hs'⟩
  · intro s hs _
    have hs' := hregs s.vm procid s.vm.ttbr hs.1
    exact ⟨⟨hs', hs.2⟩, hkeeps _ hs'⟩

theorem fat32ReadFile_nData (disk : Disk) (fuel : ℕ) (fs : Fat32) (d : Dirent) :
    Triple (fun _ => True) (fat32ReadFile kernel disk fuel fs d) (fun f _ => f.nData = d.nbytes)
      fun _ => True := by
  have hany : ∀ {β : Type} (m : Kern β),
      Triple (fun _ => True) m (fun _ _ => True) fun _ => True := by
    intro β m s _
    cases m.run s <;> trivial
  apply Triple.bind (hany _)
  intro nClusters
  apply Triple.bind (hany _)
  intro data
  apply Triple.bind (hany _)
  intro _
  apply Triple.bind (hany _)
  intro cksum
  exact .pure fun _ _ => rfl

theorem Steps.fat32ReadFile (disk : Disk) (fuel : ℕ) (fs : Fat32) (d : Dirent) (hL : Stable H K L)
    (hsbrk : ∀ n, Steps H K L (Kernel.kernelSbrk n) fun _ => L) :
    Steps H K L (Kernel.fat32ReadFile kernel disk fuel fs d) fun f s => L s ∧ f.nData = d.nbytes := by
  have hsteps := Steps.of_platform hL (fun I E h => h.fat32ReadFile disk fuel fs d) hsbrk
  exact hsteps.and_triple (fat32ReadFile_nData disk fuel fs d)

theorem growing_fat32ReadFile (disk : Disk) (fuel : ℕ) (fs : Fat32) (d : Dirent) :
    Growing (fat32ReadFile kernel disk fuel fs d) :=
  growing_platform fun _ _ h => h.fat32ReadFile disk fuel fs d

/-- The window is filled and then shared page by page. -/
theorem Steps.execLoadFile (L₁ L₂ L₃ L₄ : Machine → Prop) (file : PiFile)
    (hfile : ∀ s, L s → H (.update, s.vm.openFile { file with data := kernelLoadAddr }) →
      L₁ (s.step .update (·.openFile { file with data := kernelLoadAddr })) ∧
        K (.update, s.vm.openFile { file with data := kernelLoadAddr }))
    (hmap : Steps H K L₁ (mmuMapToMem kernelAsid kernelLoadAddr file.nAlloc true) fun _ => L₂)
    (hcopy : Steps H K L₂ (Libpi.memcpy mmu kernelLoadAddr file.data file.nData) fun _ => L₃)
    (hshare : Steps H K L₃ (forM (filePages file.nData) sharePage) fun _ => L₄) :
    Steps H K L (Kernel.execLoadFile file) fun f s =>
      L₄ s ∧ f = { file with data := kernelLoadAddr } := by
  apply Traced.bind (perform hfile)
  intro _
  apply Traced.bind hmap
  intro _
  apply Traced.bind hcopy
  intro _
  apply Traced.bind hshare
  intro _
  exact .pure fun s hs => ⟨hs, rfl⟩

theorem Steps.sharePage {page : ℕ}
    (hfld : ∀ s sec, sec = (s.vm.table kernelAsid page).sec → L s →
      H (.update, s.vm.setFld childAsid (childPage page) (sectionFld (sec * 2 ^ 20) sharedFlags)
        sharedFlags) →
      L' (s.step .update (·.setFld childAsid (childPage page)
        (sectionFld (sec * 2 ^ 20) sharedFlags) sharedFlags)) ∧
      K (.update, s.vm.setFld childAsid (childPage page) (sectionFld (sec * 2 ^ 20) sharedFlags)
        sharedFlags))
    (hret : ∀ s, L' s → H (.ret .mmuMapSection, s.vm) →
      L' (s.step (.ret .mmuMapSection) id) ∧ K (.ret .mmuMapSection, s.vm)) :
    Steps H K L (Kernel.sharePage page) fun _ => L' := by
  apply Traced.bind getVm
  intro v
  apply Steps.mmuMapSection (fun s => L s ∧ s.vm = v) L' L'
  · intro s h
    simp at h
  · exact fun s _ hs => hs
  · rintro s ⟨hs, rfl⟩ hH
    exact hfld s _ rfl hs hH
  · intro s h
    simp at h
  · exact fun s _ hs => hs
  · exact hret

theorem storeless_sharePage (page : ℕ) : Storeless (sharePage page) :=
  Steps.sharePage (fun _ _ _ _ _ => ⟨trivial, by simp [Tame]⟩) fun _ _ _ => ⟨trivial, by simp [Tame]⟩

theorem storeless_mmuInit (pt : Asid) : Storeless (mmuInit pt) :=
  .bind (storeless_assert _ _) fun _ => storeless_perform (by simp) _

theorem storeless_mmuMapKernelSections (pt : Asid) : Storeless (mmuMapKernelSections pt) := by
  apply Traced.bind (storeless_mmuMapSection _ _ _ _)
  intro _
  apply Traced.bind (storeless_mmuMapSection _ _ _ _)
  intro _
  apply Traced.bind (storeless_mmuMapSection _ _ _ _)
  intro _
  apply Traced.bind (storeless_mmuMapSection _ _ _ _)
  intro _
  exact storeless_mmuMapSection _ _ _ _

/-- `exec_file` up to the return of `mmu_init`. -/
def execClear : Kern Unit := do
  perform .update fun v =>
    { v with frame := some { proc := { heapStart := 0, heapEnd := 0, asid := childAsid }, file := none } }
  zeroFlds childAsid pageTableFlds
  mmuInit childAsid

theorem execInitTable_eq : execInitTable = (do
    execClear
    mmuMapKernelSections childAsid) := by
  unfold execInitTable execClear
  simp only [bind_assoc]

theorem storeless_execClear : Storeless execClear := by
  apply Traced.bind (storeless_perform (by simp) _)
  intro _
  apply Traced.bind (storeless_perform (by simp) _)
  intro _
  exact storeless_mmuInit _

theorem storeless_execInitTable : Storeless execInitTable := by
  rw [execInitTable_eq]
  exact .bind storeless_execClear fun _ => storeless_mmuMapKernelSections _

theorem growing_execLoadFile (file : PiFile) : Growing (execLoadFile file) := by
  refine growing_bind (growing_perform _ _) fun _ => ?_
  refine growing_bind (growing_mmuMapToMem _ _ _ _) fun _ => ?_
  refine growing_bind (growing_still (still_memcpy _ _ _)) fun _ => ?_
  exact growing_bind (.forM_keeps fun page _ => (storeless_sharePage page).grows) fun _ => growing_pure _

theorem growing_runProgram (sbrks : List ℕ) : Growing (runProgram sbrks) :=
  .forM_keeps fun incr _ => growing_bind (growing_kernelSbrk incr) fun _ => growing_pure _

/-- The call of the program, with the process that is current before it. -/
theorem growing_call (sbrks : List ℕ) (pid : Pid) : Growing (do
    perform .update ({ · with currentProc := .child })
    runProgram sbrks
    perform .update ({ · with currentProc := pid })
    return true) := by
  refine growing_bind (growing_perform _ _) fun _ => ?_
  refine growing_bind (growing_runProgram sbrks) fun _ => ?_
  exact growing_bind (growing_perform _ _) fun _ => growing_pure _

theorem growing_execLoadInstr (sbrks : List ℕ) (instr : LoadInstr) :
    Growing (execLoadInstr sbrks instr) := by
  cases instr with
  | copy dstAddr srcAddr size =>
    exact growing_bind (growing_still (still_memcpy _ _ _)) fun _ => growing_pure _
  | zero dstAddr size =>
    exact growing_bind (growing_still (still_memset _ _ _)) fun _ => growing_pure _
  | jump dstAddr =>
    refine growing_bind growing_getVm fun v => growing_ite (growing_pure _) ?_
    refine growing_bind (growing_perform _ _) fun _ => ?_
    exact growing_bind growing_getVm fun u => growing_call sbrks u.currentProc

theorem growing_execLoadInstrs (sbrks : List ℕ) (instrLst : List LoadInstr) :
    Growing (execLoadInstrs sbrks instrLst) := by
  induction instrLst with
  | nil => exact growing_pure _
  | cons instr is ih =>
    exact growing_bind (growing_execLoadInstr sbrks instr) fun _ =>
      growing_ite ih (growing_pure _)

/-- The last part of `exec_file`. -/
def execClose : Kern Unit := do
  mmuUnmap childAsid
  perform .update ({ · with frame := none })
  perform (.ret .execFile) id

theorem storeless_unmapEntry (pt : Asid) (i : ℕ) : Storeless (unmapEntry pt i) := by
  apply Traced.bind (Steps.getVm.post fun _ _ _ => trivial)
  intro v
  apply Traced.ite
  · intro _
    exact .ite (fun _ => storeless_perform (by simp) _) fun _ => .throw
  · intro _
    exact .pure fun _ _ => trivial

theorem storeless_execClose : Storeless execClose := by
  apply Traced.bind (Traced.forM_keeps fun i _ => storeless_unmapEntry childAsid i)
  intro _
  apply Traced.bind (storeless_perform (by simp) _)
  intro _
  exact storeless_perform (by simp) _

/-- The branch to the program: it runs with its break at the heap start. -/
theorem Steps.jump {sbrks : List ℕ} {dstAddr : ℕ} (L₁ L₂ M : Machine → Prop)
    (hL : ∀ s, (s.vm.proc .child).heapStart = 0 → L s → L' s)
    (hbrk : ∀ s h, h = (s.vm.proc .child).heapStart → h ≠ 0 → L s →
      H (.update, s.vm.setHeapEnd h .child) →
      L₁ (s.step .update (·.setHeapEnd h .child)) ∧ K (.update, s.vm.setHeapEnd h .child))
    (hcur : ∀ s, L₁ s → H (.update, { s.vm with currentProc := .child }) →
      L₂ (s.step .update ({ · with currentProc := .child })) ∧
        K (.update, { s.vm with currentProc := .child }))
    (hrun : Steps H K L₂ (runProgram sbrks) fun _ => M)
    (hpid : ∀ s, L₁ s → s.vm.currentProc = .kernel)
    (hback : ∀ s, M s → H (.update, { s.vm with currentProc := .kernel }) →
      L' (s.step .update ({ · with currentProc := .kernel })) ∧
        K (.update, { s.vm with currentProc := .kernel })) :
    Steps H K L (execLoadInstr sbrks (.jump dstAddr)) fun _ => L' := by
  apply Traced.bind getVm
  intro v
  apply Traced.ite
  · intro h0
    apply Traced.pure
    rintro s ⟨hs, rfl⟩
    exact hL s h0 hs
  · intro h0
    apply Traced.bind (Q := fun _ => L₁)
    · apply perform
      rintro s ⟨hs, rfl⟩ hH
      exact hbrk s _ rfl h0 hs hH
    · intro _
      apply getVm_bind (A := (·.currentProc = .kernel)) (fun u => growing_call sbrks u.currentProc) hpid
      intro u hu
      rw [hu]
      apply Traced.bind ((perform hcur).pre fun s hs => hs.1)
      intro _
      apply Traced.bind hrun
      intro _
      apply Traced.bind (perform hback)
      intro _
      exact .pure fun s hs => hs

theorem Steps.execLoadInstrs_each {sbrks : List ℕ} {instrLst : List LoadInstr}
    (hinstr : ∀ instr ∈ instrLst, Steps H K L (execLoadInstr sbrks instr) fun _ => L) :
    Steps H K L (Kernel.execLoadInstrs sbrks instrLst) fun _ => L := by
  induction instrLst with
  | nil => exact .pure fun s hs => hs
  | cons instr is ih =>
    apply Traced.bind (hinstr instr List.mem_cons_self)
    intro go
    apply Traced.ite
    · intro _
      exact ih fun i hi => hinstr i (List.mem_cons_of_mem instr hi)
    · intro _
      exact .pure fun s hs => hs

/-- Copying and clearing only touch memory. -/
theorem Steps.execLoadInstrs {sbrks : List ℕ} (hL : Stable H K L) (instrLst : List LoadInstr)
    (hjump : ∀ a, Steps H K L (execLoadInstr sbrks (.jump a)) fun _ => L) :
    Steps H K L (Kernel.execLoadInstrs sbrks instrLst) fun _ => L := by
  apply execLoadInstrs_each
  intro instr _
  cases instr with
  | copy dstAddr srcAddr size =>
    apply Traced.bind (of_still hL (still_memcpy _ _ _))
    intro _
    exact .pure fun s hs => hs
  | zero dstAddr size =>
    apply Traced.bind (of_still hL (still_memset _ _ _))
    intro _
    exact .pure fun s hs => hs
  | jump dstAddr => exact hjump dstAddr

/-- One entry of `mmu_unmap`. -/
theorem Steps.unmapEntry {pt : Asid} {i : ℕ} (hskip : ∀ s, L s → L' s)
    (hfree : ∀ s, (s.vm.table pt i).tag ≠ 0 → (s.vm.table pt i).nG ≠ 0 →
      (s.vm.table pt i).sec < nPhysPages → L s →
      H (.update, s.vm.setOwner (s.vm.table pt i).sec 0) →
      L' (s.step .update (·.setOwner (s.vm.table pt i).sec 0)) ∧
        K (.update, s.vm.setOwner (s.vm.table pt i).sec 0)) :
    Steps H K L (Kernel.unmapEntry pt i) fun _ => L' := by
  apply Traced.bind getVm
  intro v
  apply Traced.ite
  · rintro ⟨htag, hnG⟩
    apply Traced.ite
    · intro hsec
      apply perform
      rintro s ⟨hs, rfl⟩ hH
      exact hfree s htag hnG hsec hs hH
    · intro _
      exact .throw
  · intro _
    exact .pure fun s hs => hskip s hs.1

/-- An assertion that the ownership map has no part in. -/
theorem Steps.execClose {A A' Kv : Vm → Prop} (hset : ∀ v sec, A v → A (v.setOwner sec 0))
    (hframe : ∀ v, A v → A' { v with frame := none }) (hK : ∀ v, A v → Kv v) (hK' : ∀ v, A' v → Kv v) :
    Steps H (InVm Kv) (OnVm A) execClose fun _ => OnVm A' := by
  apply Traced.bind (Q := fun _ => OnVm A)
  · apply Traced.forM_keeps
    intro i _
    apply Steps.unmapEntry
    · exact fun s hs => hs
    · exact fun s _ _ _ hs _ => ⟨hset _ _ hs, hK _ (hset _ _ hs)⟩
  · intro _
    apply Traced.bind (Q := fun _ => OnVm A')
    · exact Steps.perform fun s hs _ => ⟨hframe _ hs, hK' _ (hframe _ hs)⟩
    · intro _
      exact Steps.mark fun s hs _ => ⟨hs, hK' _ hs⟩

/-- `exec_file` up to its call of `elf_load`. -/
def execOpen (disk : Disk) (fuel : ℕ) (fs : Fat32) (entry : Dirent) : Kern PiFile := do
  let file ← fat32ReadFile kernel disk fuel fs entry
  execLoadFile file

/-- What it does with the instructions. -/
def execLoaded (sbrks : List ℕ) : Option (List LoadInstr) → Kern Unit
  | none => pure ()
  | some instrLst => do
    setProcidTtbr0 childAsid childAsid
    execLoadInstrs sbrks instrLst
    setProcidTtbr0 kernelAsid kernelAsid
    mmuInvAsid childAsid

/-- From its call of `elf_load` up to the one of `mmu_unmap`. -/
def execProgram (sbrks : List ℕ) (file : PiFile) : Kern Unit := do
  let r ← elfLoad file.data file.nData childAsid
  execLoaded sbrks r

/-- All that follows `execOpen`. -/
def execChild (sbrks : List ℕ) (file : PiFile) : Kern Unit := do
  execProgram sbrks file
  execClose

theorem execChild_eq (sbrks : List ℕ) (file : PiFile) : execChild sbrks file = (do
    let r ← elfLoad file.data file.nData childAsid
    execLoaded sbrks r
    execClose) :=
  bind_assoc _ _ _

theorem execFile_eq (disk : Disk) (fuel : ℕ) (fs : Fat32) (entry : Dirent) (sbrks : List ℕ) :
    execFile disk fuel fs entry sbrks = (do
      execInitTable
      let file ← execOpen disk fuel fs entry
      execChild sbrks file) := by
  unfold execFile execOpen
  simp only [bind_assoc, execChild_eq]
  congr 1
  funext _
  congr 1
  funext file
  congr 1
  funext file
  congr 1
  funext r
  cases r with
  | none => simp only [execLoaded, pure_bind, execClose]
  | some instrLst => simp only [execLoaded, bind_assoc, execClose]

theorem growing_elfLoad (fileData nData : ℕ) (pt : Asid) : Growing (elfLoad fileData nData pt) :=
  growing_bind (growing_elfLoadBody fileData nData pt) fun _ =>
    growing_bind (growing_perform _ _) fun _ => growing_pure _

theorem growing_execOpen (disk : Disk) (fuel : ℕ) (fs : Fat32) (entry : Dirent) :
    Growing (execOpen disk fuel fs entry) :=
  growing_bind (growing_fat32ReadFile disk fuel fs entry) growing_execLoadFile

theorem growing_execLoaded (sbrks : List ℕ) (r : Option (List LoadInstr)) :
    Growing (execLoaded sbrks r) := by
  unfold execLoaded
  cases r with
  | none => exact growing_pure _
  | some instrLst =>
    refine growing_bind (growing_setProcidTtbr0 _ _) fun _ => ?_
    refine growing_bind (growing_execLoadInstrs _ _) fun _ => ?_
    exact growing_bind (growing_setProcidTtbr0 _ _) fun _ => growing_perform _ _

theorem growing_execProgram (sbrks : List ℕ) (file : PiFile) : Growing (execProgram sbrks file) :=
  growing_bind (growing_elfLoad _ _ _) (growing_execLoaded sbrks)

theorem growing_execChild (sbrks : List ℕ) (file : PiFile) : Growing (execChild sbrks file) :=
  growing_bind (growing_execProgram sbrks file) fun _ => storeless_execClose.grows

theorem growing_execFile (disk : Disk) (fuel : ℕ) (fs : Fat32) (entry : Dirent) (sbrks : List ℕ) :
    Growing (execFile disk fuel fs entry sbrks) := by
  rw [execFile_eq]
  refine growing_bind storeless_execInitTable.grows fun _ => ?_
  exact growing_bind (growing_execOpen disk fuel fs entry) fun file => growing_execChild sbrks file

end Parts

theorem execInitTable_ok (s : Machine) : ∃ t, execInitTable.run s = .ok () t := ⟨_, rfl⟩

end SimplePiOS.Kernel
