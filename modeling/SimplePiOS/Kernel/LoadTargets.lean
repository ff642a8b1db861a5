import SimplePiOS.Kernel.ElfBounds
import SimplePiOS.Kernel.ExecRun
import SimplePiOS.Kernel.Reserved

/-! Where the load instructions of a program write: `mmu_map_to_mem` leaves out the section of
the first byte unless the range begins it, so a range may depend on the others. -/
namespace SimplePiOS.Kernel
open Lib Libpi

/-- The pages of the child's table that show it the file. -/
def windowPages (nData : ℕ) : List ℕ := (filePages nData).map childPage

/-- The child's table when `elf_load` is called: the global sections, and the window. -/
structure ChildOpened (nData : ℕ) (v : Vm) : Prop where
  valid : ∀ page < nVirtPages, (v.table childAsid page).Valid ↔
    page ∈ reservedPages ∨ page ∈ windowPages nData
  flags : ∀ page < nVirtPages, (v.table childAsid page).Valid →
    (v.flags childAsid page).global ∨ (v.flags childAsid page).shared

section Opened
variable {v : Vm} {done : List ℕ}

/-- The kernel prepares the child's table: it has the global sections, and the pages of the file
that are shared so far. -/
structure Sharing (done : List ℕ) (v : Vm) : Prop where
  idle : Idle v
  valid : ∀ page < nVirtPages, (v.table childAsid page).Valid ↔
    page ∈ reservedPages ∨ page ∈ done.map childPage
  flags : ∀ page < nVirtPages, (v.table childAsid page).Valid →
    (v.flags childAsid page).global ∨ (v.flags childAsid page).shared

theorem sharing_kernelStable : KernelStable (Sharing done) := by
  have hne : childAsid ≠ kernelAsid := by decide
  constructor
  · exact fun v hv => hv.idle
  · exact fun v sec a hv => ⟨hv.idle.setOwner sec a, hv.valid, hv.flags⟩
  · intro v page f fl hv
    have htable : (v.setFld kernelAsid page f fl).table childAsid = v.table childAsid := by
      funext i
      rw [setFld_table]
      simp
    have hflags : (v.setFld kernelAsid page f fl).flags childAsid = v.flags childAsid := by
      funext i
      rw [setFld_flags]
      simp
    refine ⟨hv.idle.setFld kernelAsid page f fl, ?_, ?_⟩
    · rw [htable]
      exact hv.valid
    · rw [htable, hflags]
      exact hv.flags
  · exact fun v e hv => ⟨⟨hv.idle.ttbr, hv.idle.currentProc, hv.idle.kernelProc⟩, hv.valid, hv.flags⟩

theorem Sharing.openFile (hv : Sharing done v) (file : PiFile) : Sharing done (v.openFile file) :=
  ⟨⟨hv.idle.ttbr, hv.idle.currentProc, hv.idle.kernelProc⟩, hv.valid, hv.flags⟩

/-- One more page of the file. -/
theorem Sharing.share (hv : Sharing done v) (page : ℕ) (f : Fld) (hf : f.Valid) :
    Sharing (done ++ [page]) (v.setFld childAsid (childPage page) f sharedFlags) := by
  refine ⟨hv.idle.setFld _ _ _ _, ?_, ?_⟩
  · intro i hi
    have hold := hv.valid i hi
    rw [setFld_table, List.map_append, List.mem_append]
    by_cases hpage : i = childPage page
    · simp [hpage, hf]
    · simp [hpage, hold]
  · intro i hi
    rw [setFld_table, setFld_flags]
    by_cases hpage : i = childPage page
    · simp [hpage]
    · simpa [hpage] using hv.flags i hi

/-- A global section in the child's table. -/
def Vm.mapGlobal (v : Vm) (page : ℕ) : Vm :=
  v.setFld childAsid page (identityFld page) ⟨true, false, false⟩

/-- A new child's table is empty but for the global sections. -/
theorem execInitTable_vm {s t : Machine} (h : execInitTable.run s = .ok () t) : ∃ v : Vm,
    (∀ page < nVirtPages, v.table childAsid page = Fld.zero) ∧ (Idle s.vm → Idle v) ∧
      t.vm = reservedPages.foldl Vm.mapGlobal v := by
  cases h
  refine ⟨_, ?_, ?_, rfl⟩
  · intro page hpage
    exact if_pos hpage
  · exact fun hs => ⟨hs.ttbr, hs.currentProc, hs.kernelProc⟩

theorem mapGlobals_sharing (pages done : List ℕ) (hv : Idle v)
    (hvalid : ∀ page < nVirtPages, (v.table childAsid page).Valid ↔ page ∈ done)
    (hflags : ∀ page < nVirtPages, (v.table childAsid page).Valid →
      (v.flags childAsid page).global) :
    Idle (pages.foldl Vm.mapGlobal v) ∧
      (∀ page < nVirtPages, ((pages.foldl Vm.mapGlobal v).table childAsid page).Valid ↔
        page ∈ done ++ pages) ∧
      ∀ page < nVirtPages, ((pages.foldl Vm.mapGlobal v).table childAsid page).Valid →
        ((pages.foldl Vm.mapGlobal v).flags childAsid page).global := by
  induction pages generalizing v done with
  | nil => exact ⟨hv, by simpa using hvalid, hflags⟩
  | cons page pages ih =>
    have hnew := ih (v := v.mapGlobal page) (done ++ [page]) (hv.setFld _ _ _ _)
      (by
        intro i hi
        have hold := hvalid i hi
        unfold Vm.mapGlobal
        rw [setFld_table]
        by_cases hpage : i = page
        · simp [hpage, show (identityFld page).Valid from rfl]
        · simp [hpage, hold])
      (by
        intro i hi
        have hold := hflags i hi
        unfold Vm.mapGlobal
        rw [setFld_table, setFld_flags]
        by_cases hpage : i = page
        · simp [hpage]
        · simpa [hpage] using hold)
    simpa using hnew

theorem sharing_execInitTable {s t : Machine} (hs : Idle s.vm)
    (h : execInitTable.run s = .ok () t) : Sharing [] t.vm := by
  obtain ⟨v, hzero, hidle, hvm⟩ := execInitTable_vm h
  have hinvalid : ¬ Fld.zero.Valid := by decide
  obtain ⟨hidle', hvalid, hflags⟩ := mapGlobals_sharing reservedPages []
    (hidle hs) (by intro page hpage; simp [hzero page hpage, hinvalid])
    (by intro page hpage hv; rw [hzero page hpage] at hv; exact absurd hv hinvalid)
  rw [hvm]
  refine ⟨hidle', ?_, ?_⟩
  · simpa using hvalid
  · exact fun page hpage hv => .inl (hflags page hpage hv)

theorem steps_execOpen_sharing (disk : Disk) (fuel : ℕ) (fs : Fat32) (entry : Dirent) :
    Steps (fun _ => True) (InVm fun _ => True) (OnVm (Sharing [])) (execOpen disk fuel fs entry)
      fun file s => Sharing (filePages entry.nbytes) s.vm ∧ file.data = kernelLoadAddr ∧
        file.nData = entry.nbytes := by
  have htrue : ∀ v, Sharing [] v → True := fun _ _ => trivial
  have hstable : Stable (fun _ => True) (InVm fun _ => True) (OnVm (Sharing [])) :=
    sharing_kernelStable.stable htrue
  have hread := Steps.fat32ReadFile disk fuel fs entry hstable (sharing_kernelStable.kernelSbrk htrue)
  apply Traced.bind hread
  intro file
  apply Traced.assume (growing_execLoadFile file)
  intro hlen
  have hload : Steps (fun _ => True) (InVm fun _ => True) (OnVm (Sharing [])) (execLoadFile file)
      fun f s => Sharing (filePages file.nData) s.vm ∧ f = { file with data := kernelLoadAddr } := by
    apply Steps.execLoadFile (OnVm (Sharing [])) (OnVm (Sharing [])) (OnVm (Sharing []))
      (OnVm (Sharing (filePages file.nData)))
    · exact fun s hs _ => ⟨hs.openFile _, trivial⟩
    · exact (sharing_kernelStable.heapStable htrue).mmuMapToMem _ _ _
    · exact .of_still hstable (still_memcpy _ _ _)
    · apply Traced.forM (I := fun done => OnVm (Sharing done))
      intro done page rest _
      apply Steps.sharePage
      · intro s sec _ hs _
        exact ⟨Sharing.share hs page _ rfl, trivial⟩
      · exact fun s hs _ => ⟨hs, trivial⟩
  refine hload.post ?_
  rintro f s ⟨hs, rfl⟩
  rw [hlen] at hs
  exact ⟨hs, rfl, hlen⟩

end Opened

/-- The entry is one that `elf_load` has made. -/
def MappedByLoad (v : Vm) (page : ℕ) : Prop :=
  (v.table childAsid page).Private ∧ v.flags childAsid page = ramFlags false

section Mapping
variable {v w u : Vm} {pages pages' : List ℕ} {α : Type}

/-- The pages have been mapped for the child, and the others are as they were. -/
structure ChildMapped (v w : Vm) (pages : List ℕ) : Prop where
  mapped : ∀ page ∈ pages, MappedByLoad w page
  table : ∀ page, page ∉ pages → w.table childAsid page = v.table childAsid page
  flags : ∀ page, page ∉ pages → w.flags childAsid page = v.flags childAsid page

theorem ChildMapped.refl (v : Vm) : ChildMapped v v [] :=
  ⟨by simp, fun _ _ => rfl, fun _ _ => rfl⟩

theorem ChildMapped.trans (h : ChildMapped v w pages) (h' : ChildMapped w u pages') :
    ChildMapped v u (pages ++ pages') := by
  have hnot : ∀ page, page ∉ pages ++ pages' → page ∉ pages ∧ page ∉ pages' := by
    intro page hpage
    simpa using hpage
  constructor
  · intro page hpage
    by_cases hnew : page ∈ pages'
    · exact h'.mapped page hnew
    · have hold := h.mapped page ((List.mem_append.mp hpage).resolve_right hnew)
      unfold MappedByLoad
      rw [h'.table page hnew, h'.flags page hnew]
      exact hold
  · intro page hpage
    rw [h'.table page (hnot page hpage).2, h.table page (hnot page hpage).1]
  · intro page hpage
    rw [h'.flags page (hnot page hpage).2, h.flags page (hnot page hpage).1]

theorem childMapped_mapRam (v : Vm) (page sec : ℕ) :
    ChildMapped v (v.mapRam childAsid page sec false) [page] := by
  constructor
  · intro i hi
    obtain rfl := List.mem_singleton.mp hi
    unfold MappedByLoad
    rw [mapRam_table, mapRam_flags]
    simp [ramFld_private]
  · intro i hi
    rw [mapRam_table]
    simp only [List.mem_singleton] at hi
    simp [hi]
  · intro i hi
    rw [mapRam_flags]
    simp only [List.mem_singleton] at hi
    simp [hi]

theorem mapPages_childMapped {s t : Machine} {a : PUnit}
    (h : (forM pages (mapPage childAsid false)).run s = .ok a t) :
    ChildMapped s.vm t.vm pages := by
  induction pages generalizing s with
  | nil =>
    cases h
    exact .refl _
  | cons page pages ih =>
    rw [List.forM_cons] at h
    obtain ⟨b, u, hpage, hrest⟩ := of_bind_ok h
    rcases mapPage_run childAsid false page s with ⟨-, hfull⟩ | ⟨sec, -, hrun⟩
    · rw [hfull] at hpage
      cases hpage
    · rw [hrun] at hpage
      cases hpage
      have hfirst := childMapped_mapRam s.vm page sec
      rw [← mapRam_vm] at hfirst
      exact hfirst.trans (ih hrest)

/-- The pages of a list of ranges. -/
def rangePages (ranges : List (ℕ × ℕ)) : List ℕ := ranges.flatMap fun r => pageRange r.1 r.2

theorem exec_childMapped {p : Plan α} {s t : Machine} {a : α}
    (h : (p.exec childAsid).run s = .ok a t) :
    p.result = .ok a ∧ ChildMapped s.vm t.vm (rangePages p.ranges) := by
  induction p generalizing s with
  | ret b =>
    cases h
    exact ⟨rfl, .refl _⟩
  | stop e => cases h
  | map addr size next ih =>
    obtain ⟨b, u, hmap, hrest⟩ := of_bind_ok h
    obtain ⟨hresult, hnext⟩ := ih hrest
    exact ⟨hresult, (mapPages_childMapped hmap).trans hnext⟩
  | setHeapStart addr next ih =>
    obtain ⟨b, u, hset, hrest⟩ := of_bind_ok h
    obtain ⟨hresult, hnext⟩ := ih hrest
    cases hset
    exact ⟨hresult, hnext.mapped, hnext.table, hnext.flags⟩

/-- What `elf_load` leaves when it returns a list. -/
theorem elfLoad_childMapped {s t : Machine} {fileData nData : ℕ} {instrLst : List LoadInstr}
    (httbr : s.vm.ttbr = kernelAsid)
    (h : (elfLoad fileData nData childAsid).run s = .ok (some instrLst) t) :
    ChildMapped s.vm t.vm (rangePages (s.view.loadRanges fileData)) ∧
      ∃ a, instrLst = s.view.loadInstrs fileData ++ [.jump a] := by
  obtain ⟨r, u, hbody, hret⟩ := of_bind_ok h
  cases hret
  have hreads : Reads s.view s := ⟨httbr, rfl⟩
  by_cases hbad : s.view.badMagic fileData nData
  · rw [(elfLoadBody_badMagic hbad).2 s hreads] at hbody
    obtain ⟨_, _, -, hnone⟩ := of_bind_ok hbody
    cases hnone
  · rw [elfLoadBody_run hbad hreads] at hbody
    obtain ⟨hresult, hmapped⟩ := exec_childMapped hbody
    obtain ⟨hranges, hinstrs⟩ := View.of_elfLoad_ok hresult
    rw [hranges] at hmapped
    exact ⟨⟨hmapped.mapped, hmapped.table, hmapped.flags⟩, hinstrs⟩

end Mapping

section Loads
variable {sbrks : List ℕ} {u : Machine} {v : Vm} {instr : LoadInstr} {instrLst : List LoadInstr}

/-- The addresses an instruction writes to. -/
def LoadInstr.dests : LoadInstr → List ℕ
  | .copy dstAddr _ size => (List.range size).map fun i => (dstAddr + i) % 2 ^ 32
  | .zero dstAddr size => (List.range size).map fun i => (dstAddr + i) % 2 ^ 32
  | .jump _ => []

/-- The addresses it reads from, in the child's window. -/
def LoadInstr.sources : LoadInstr → List ℕ
  | .copy _ srcAddr size => (List.range size).map fun i =>
      (add32 srcAddr (procLoadAddr - kernelLoadAddr) + i) % 2 ^ 32
  | _ => []

def LoadInstr.IsLoad : LoadInstr → Prop
  | .jump _ => False
  | _ => True

/-- An instruction writes to the program's own memory only, and meets no unmapped address. -/
def OwnOnly (sbrks : List ℕ) (instr : LoadInstr) (u : Machine) : Prop :=
  (∀ a ∈ instr.dests, MappedByLoad u.vm (a / 2 ^ 20)) ∧
    (instr.IsLoad → ∀ va t, (execLoadInstr sbrks instr).run u ≠ .error (.dataAbort va) t)

/-- It holds of each instruction at the time it is run, the child's table being active. -/
def LoadsOwnOnly (sbrks : List ℕ) (instrLst : List LoadInstr) (t : Machine) : Prop :=
  ∀ pre instr post, instrLst = pre ++ instr :: post → ∀ u,
    (do setProcidTtbr0 childAsid childAsid; execLoadInstrs sbrks pre : Kern Unit).run t = .ok () u →
    OwnOnly sbrks instr u

/-- The mappings an instruction needs. -/
structure Fits (v : Vm) (instr : LoadInstr) : Prop where
  dests : ∀ a ∈ instr.dests, MappedByLoad v (a / 2 ^ 20)
  sources : ∀ a ∈ instr.sources, (v.table childAsid (a / 2 ^ 20)).Valid

theorem needs_execLoadInstr (sbrks : List ℕ) (httbr : v.ttbr = childAsid) (hload : instr.IsLoad)
    (hdests : ∀ a ∈ instr.dests, MappedByLoad v (a / 2 ^ 20)) :
    Needs v (∀ a ∈ instr.sources, (v.table childAsid (a / 2 ^ 20)).Valid)
      (execLoadInstr sbrks instr) := by
  have hpriv : ∀ a ∈ instr.dests, (v.fldAt a).Private := by
    intro a ha
    unfold Vm.fldAt
    rw [httbr]
    exact (hdests a ha).1
  cases instr with
  | copy dstAddr srcAddr size =>
    have hcopy := needs_memcpy (v := v) dstAddr (add32 srcAddr (procLoadAddr - kernelLoadAddr)) size
      fun i hi => hpriv _ (by simpa [LoadInstr.dests] using ⟨i, hi, rfl⟩)
    have hall : Needs v (_ ∧ True) (execLoadInstr sbrks (.copy dstAddr srcAddr size)) :=
      hcopy.bind fun _ => ⟨fun _ => .pure true, fun h => absurd trivial h⟩
    apply hall.congr
    unfold Vm.Mapped Vm.fldAt
    simp [LoadInstr.sources, httbr]
  | zero dstAddr size =>
    have hset := runs_memset (v := v) (p := dstAddr) 0 size
      fun i hi => hpriv _ (by simpa [LoadInstr.dests] using ⟨i, hi, rfl⟩)
    have hall : Runs v (execLoadInstr sbrks (.zero dstAddr size)) := hset.bind fun _ => .pure true
    exact ⟨fun _ => hall, fun h => absurd (by simp [LoadInstr.sources]) h⟩
  | jump dstAddr => exact hload.elim

theorem fits_congr (htable : u.vm.table = v.table) (hflags : u.vm.flags = v.flags) :
    Fits u.vm instr ↔ Fits v instr := by
  have hmapped : ∀ page, MappedByLoad u.vm page ↔ MappedByLoad v page := by
    intro page
    unfold MappedByLoad
    rw [htable, hflags]
  constructor
  · intro h
    exact ⟨fun a ha => (hmapped _).mp (h.dests a ha), fun a ha => htable ▸ h.sources a ha⟩
  · intro h
    exact ⟨fun a ha => (hmapped _).mpr (h.dests a ha), fun a ha => htable ▸ h.sources a ha⟩

/-- An instruction that fits is run to its end; one that does not is noticed. -/
theorem ownOnly_iff_fits (httbr : u.vm.ttbr = childAsid) (hload : instr.IsLoad) :
    OwnOnly sbrks instr u ↔ Fits u.vm instr := by
  constructor
  · rintro ⟨hdests, hno⟩
    refine ⟨hdests, ?_⟩
    by_contra hmissing
    obtain ⟨va, t, hrun, -⟩ := (needs_execLoadInstr sbrks httbr hload hdests).2 hmissing u rfl
    exact hno hload va t hrun
  · rintro ⟨hdests, hsources⟩
    refine ⟨hdests, ?_⟩
    intro _ va t hrun
    obtain ⟨b, t', hok, -⟩ := (needs_execLoadInstr sbrks httbr hload hdests).1 hsources u rfl
    rw [hok] at hrun
    cases hrun

/-- Loads go on. -/
theorem execLoadInstr_ok {t : Machine} {b : Bool} (hload : instr.IsLoad)
    (h : (execLoadInstr sbrks instr).run u = .ok b t) : b = true := by
  cases instr with
  | copy dstAddr srcAddr size =>
    obtain ⟨_, _, -, hpure⟩ := of_bind_ok h
    cases hpure
    rfl
  | zero dstAddr size =>
    obtain ⟨_, _, -, hpure⟩ := of_bind_ok h
    cases hpure
    rfl
  | jump dstAddr => exact hload.elim

/-- Instructions that fit leave the tables alone. -/
theorem execLoadInstrs_ok {t : Machine} (httbr : u.vm.ttbr = childAsid)
    (hloads : ∀ instr ∈ instrLst, instr.IsLoad) (hfits : ∀ instr ∈ instrLst, Fits u.vm instr)
    (h : (execLoadInstrs sbrks instrLst).run u = .ok () t) : t.vm = u.vm := by
  induction instrLst generalizing u with
  | nil =>
    cases h
    rfl
  | cons instr is ih =>
    have hload := hloads instr List.mem_cons_self
    obtain ⟨b, u', hfirst, hrest⟩ := of_bind_ok h
    obtain ⟨hvm, -⟩ := (needs_execLoadInstr sbrks httbr hload (hfits instr List.mem_cons_self).dests).of_ok
      rfl hfirst
    obtain rfl := execLoadInstr_ok hload hfirst
    rw [← hvm] at httbr hfits ⊢
    exact ih httbr (fun i hi => hloads i (List.mem_cons_of_mem instr hi))
      (fun i hi => hfits i (List.mem_cons_of_mem instr hi)) hrest

/-- If each instruction is fine when its turn comes, then each of them fits. -/
theorem fits_of_ownOnly (sbrks : List ℕ) (httbr : u.vm.ttbr = childAsid) (hloads : ∀ instr ∈ instrLst, instr.IsLoad)
    (h : ∀ pre instr post, instrLst = pre ++ instr :: post → ∀ u',
      (execLoadInstrs sbrks pre).run u = .ok () u' → OwnOnly sbrks instr u') :
    ∀ instr ∈ instrLst, Fits u.vm instr := by
  induction instrLst generalizing u with
  | nil => simp
  | cons instr is ih =>
    have hload := hloads instr (by simp)
    have hfits := (ownOnly_iff_fits httbr hload).mp (h [] instr is rfl u rfl)
    obtain ⟨b, u', hrun, hvm, -⟩ :=
      (needs_execLoadInstr sbrks httbr hload hfits.dests).1 hfits.sources u rfl
    obtain rfl := execLoadInstr_ok hload hrun
    have hrest : ∀ i ∈ is, Fits u'.vm i := by
      apply ih (by rw [hvm]; exact httbr) fun i hi => hloads i (by simp [hi])
      intro pre i post hsplit u'' hpre
      apply h (instr :: pre) i post (by rw [hsplit, List.cons_append])
      unfold execLoadInstrs
      rw [bind_ok hrun]
      exact hpre
    intro i hi
    rcases List.mem_cons.mp hi with rfl | hi
    · exact hfits
    · rw [← hvm]
      exact hrest i hi

theorem loadsOwnOnly_iff_fits {a : ℕ} {t : Machine} (hloads : ∀ instr ∈ instrLst, instr.IsLoad) :
    LoadsOwnOnly sbrks (instrLst ++ [.jump a]) t ↔ ∀ instr ∈ instrLst, Fits t.vm instr := by
  obtain ⟨t', hswitch, httbr, htable, hflags⟩ : ∃ t' : Machine,
      (setProcidTtbr0 childAsid childAsid).run t = .ok () t' ∧ t'.vm.ttbr = childAsid ∧
        t'.vm.table = t.vm.table ∧ t'.vm.flags = t.vm.flags := ⟨_, rfl, rfl, rfl, rfl⟩
  have hfits : ∀ instr, Fits t'.vm instr ↔ Fits t.vm instr := fun _ => fits_congr htable hflags
  constructor
  · intro h instr hi
    rw [← hfits]
    apply fits_of_ownOnly sbrks httbr hloads _ instr hi
    intro pre i post hsplit u hpre
    apply h pre i (post ++ [.jump a]) (by simp [hsplit])
    rw [bind_ok hswitch]
    exact hpre
  · intro h pre instr post hsplit u hpre
    rw [bind_ok hswitch] at hpre
    have hcases : (∃ post', instrLst = pre ++ instr :: post') ∨ instr = .jump a := by
      rcases List.eq_nil_or_concat post with rfl | ⟨post', last, rfl⟩
      · have hlast := List.append_inj_right' (hsplit.trans rfl) rfl
        exact .inr (by simpa using hlast.symm)
      · left
        refine ⟨post', ?_⟩
        have hsame : instrLst ++ [.jump a] = (pre ++ instr :: post') ++ [last] := by
          rw [hsplit]
          simp
        exact List.append_inj_left' hsame rfl
    rcases hcases with ⟨post', hin⟩ | rfl
    · have hi : instr ∈ instrLst := by simp [hin]
      have hvm := execLoadInstrs_ok httbr (fun i hi => hloads i (by simp [hin, hi]))
        (fun i hi => (hfits i).mpr (h i (by simp [hin, hi]))) hpre
      rw [ownOnly_iff_fits (by rw [hvm]; exact httbr) (hloads instr hi), hvm]
      exact (hfits instr).mpr (h instr hi)
    · exact ⟨by simp [LoadInstr.dests], fun hj => hj.elim⟩

end Loads

section Covered
variable {s t : Machine} {v w : Vm} {nData : ℕ} {pages : List ℕ}

/-- Where an instruction for the segment `phdr` reads in the child's window. -/
def View.sourceAddr (w : View) (fileData phdr : ℕ) : ℕ :=
  add32 (add32 fileData (w.u32 (phdr + 4))) (procLoadAddr - kernelLoadAddr)

/-- The page of each byte of a segment or .bss section is among those that are mapped for one of
them, and the page of each byte that is copied is there or is mapped for every program. -/
structure RangesCovered (w : View) (fileData nData : ℕ) : Prop where
  dests : ∀ r ∈ w.loadRanges fileData, ∀ i < r.2,
    (r.1 + i) % 2 ^ 32 / 2 ^ 20 ∈ rangePages (w.loadRanges fileData)
  sources : ∀ phdr ∈ w.phdrs fileData, ∀ i < (w.phdrRange phdr).2,
    (w.sourceAddr fileData phdr + i) % 2 ^ 32 / 2 ^ 20 ∈ rangePages (w.loadRanges fileData) ∨
    (w.sourceAddr fileData phdr + i) % 2 ^ 32 / 2 ^ 20 ∈ reservedPages ∨
    (w.sourceAddr fileData phdr + i) % 2 ^ 32 / 2 ^ 20 ∈ windowPages nData

theorem page_lt (a : ℕ) : a % 2 ^ 32 / 2 ^ 20 < nVirtPages := by
  have hlt : a % 2 ^ 32 < 2 ^ 32 := Nat.mod_lt _ (by omega)
  have hpages : nVirtPages = 4096 := rfl
  omega

/-- A page of the file is in the load window. -/
theorem filePages_window {n q : ℕ} (hq : q ∈ filePages n) :
    ∃ i < n, (kernelLoadAddr + i) % 2 ^ 32 / 2 ^ 20 = q := by
  have hlt : sub32 (add32 kernelLoadAddr n) 1 < 2 ^ 32 := Nat.mod_lt _ (by omega)
  have hload : kernelLoadAddr = 0x100 * 2 ^ 20 := rfl
  unfold filePages at hq
  rw [List.mem_range'_1] at hq
  have hlast : sub32 (add32 kernelLoadAddr n) 1 = (kernelLoadAddr + n + (2 ^ 32 - 1)) % 2 ^ 32 := by
    unfold sub32 add32
    omega
  rw [hlast] at hq hlt
  refine ⟨q * 2 ^ 20 - kernelLoadAddr, ?_, ?_⟩
  · omega
  · omega

theorem filePages_lt {n q : ℕ} (hq : q ∈ filePages n) : q < nVirtPages := by
  obtain ⟨i, -, rfl⟩ := filePages_window hq
  exact page_lt _

theorem ChildOpened.mapped_iff (hopen : ChildOpened nData v) (h : ChildMapped v w pages) {page : ℕ}
    (hpage : page < nVirtPages) : MappedByLoad w page ↔ page ∈ pages := by
  refine ⟨?_, h.mapped page⟩
  rintro ⟨hpriv, hflags⟩
  by_contra hnot
  rw [h.table page hnot] at hpriv
  rw [h.flags page hnot] at hflags
  have hold := hopen.flags page hpage hpriv.1
  rw [hflags] at hold
  simp at hold

theorem ChildOpened.valid_iff (hopen : ChildOpened nData v) (h : ChildMapped v w pages) {page : ℕ}
    (hpage : page < nVirtPages) : (w.table childAsid page).Valid ↔
      page ∈ pages ∨ page ∈ reservedPages ∨ page ∈ windowPages nData := by
  by_cases hin : page ∈ pages
  · exact ⟨fun _ => .inl hin, fun _ => (h.mapped page hin).1.1⟩
  · rw [h.table page hin, hopen.valid page hpage]
    simp [hin]

/-- The instructions fit exactly when the ranges of the file cover themselves. -/
theorem fits_iff_covered {fileData : ℕ} {view : View} (hopen : ChildOpened nData v)
    (h : ChildMapped v w (rangePages (view.loadRanges fileData))) :
    (∀ instr ∈ view.loadInstrs fileData, Fits w instr) ↔ RangesCovered view fileData nData := by
  constructor
  · intro hfits
    have hcopy : ∀ phdr ∈ view.phdrs fileData, Fits w (view.copyInstr fileData phdr) := by
      intro phdr hphdr
      exact hfits _ (List.mem_append_left _ (List.mem_map_of_mem hphdr))
    have hzero : ∀ shdr ∈ view.bssSections fileData, Fits w (view.zeroInstr shdr) := by
      intro shdr hshdr
      exact hfits _ (List.mem_append_right _ (List.mem_map_of_mem hshdr))
    constructor
    · intro r hr i hi
      rw [← hopen.mapped_iff h (page_lt _)]
      rcases List.mem_append.mp hr with hr | hr
      · obtain ⟨phdr, hphdr, rfl⟩ := List.mem_map.mp hr
        exact (hcopy phdr hphdr).dests _ (List.mem_map.mpr ⟨i, List.mem_range.mpr hi, rfl⟩)
      · obtain ⟨shdr, hshdr, rfl⟩ := List.mem_map.mp hr
        exact (hzero shdr hshdr).dests _ (List.mem_map.mpr ⟨i, List.mem_range.mpr hi, rfl⟩)
    · intro phdr hphdr i hi
      rw [← hopen.valid_iff h (page_lt _)]
      exact (hcopy phdr hphdr).sources _ (List.mem_map.mpr ⟨i, List.mem_range.mpr hi, rfl⟩)
  · intro hcovered instr hinstr
    rcases List.mem_append.mp hinstr with hinstr | hinstr
    · obtain ⟨phdr, hphdr, rfl⟩ := List.mem_map.mp hinstr
      constructor
      · intro a ha
        obtain ⟨i, hi, rfl⟩ := List.mem_map.mp ha
        rw [hopen.mapped_iff h (page_lt _)]
        exact hcovered.dests _ (List.mem_append_left _ (List.mem_map_of_mem hphdr)) i
          (List.mem_range.mp hi)
      · intro a ha
        obtain ⟨i, hi, rfl⟩ := List.mem_map.mp ha
        rw [hopen.valid_iff h (page_lt _)]
        exact hcovered.sources phdr hphdr i (List.mem_range.mp hi)
    · obtain ⟨shdr, hshdr, rfl⟩ := List.mem_map.mp hinstr
      constructor
      · intro a ha
        obtain ⟨i, hi, rfl⟩ := List.mem_map.mp ha
        rw [hopen.mapped_iff h (page_lt _)]
        exact hcovered.dests _ (List.mem_append_right _ (List.mem_map_of_mem hshdr)) i
          (List.mem_range.mp hi)
      · simp [View.zeroInstr, LoadInstr.sources]

theorem isLoad_loadInstrs (view : View) (fileData : ℕ) :
    ∀ instr ∈ view.loadInstrs fileData, instr.IsLoad := by
  intro instr hinstr
  rcases List.mem_append.mp hinstr with hinstr | hinstr
  · obtain ⟨phdr, -, rfl⟩ := List.mem_map.mp hinstr
    trivial
  · obtain ⟨shdr, -, rfl⟩ := List.mem_map.mp hinstr
    trivial

theorem loadsOwnOnly_iff_covered (sbrks : List ℕ) {instrLst : List LoadInstr}
    (httbr : s.vm.ttbr = kernelAsid) (hopen : ChildOpened nData s.vm)
    (h : (elfLoad kernelLoadAddr nData childAsid).run s = .ok (some instrLst) t) :
    LoadsOwnOnly sbrks instrLst t ↔ RangesCovered s.view kernelLoadAddr nData := by
  obtain ⟨hmapped, a, rfl⟩ := elfLoad_childMapped httbr h
  rw [loadsOwnOnly_iff_fits (isLoad_loadInstrs _ _)]
  exact fits_iff_covered hopen hmapped

/-- What `exec_file` has done when it calls `elf_load`. -/
theorem execOpen_childOpened {disk : Disk} {fuel : ℕ} {fs : Fat32} {entry : Dirent} {file : PiFile}
    (hidle : Idle s.vm)
    (h : (do execInitTable; execOpen disk fuel fs entry).run s = .ok file t) :
    t.vm.ttbr = kernelAsid ∧ ChildOpened entry.nbytes t.vm ∧ file.data = kernelLoadAddr ∧
      file.nData = entry.nbytes := by
  obtain ⟨_, s₁, hinit, hopen⟩ := of_bind_ok h
  have hsharing := sharing_execInitTable hidle hinit
  obtain ⟨⟨ht, hdata, hlen⟩, -⟩ :=
    ((steps_execOpen_sharing disk fuel fs entry).of_ok hopen).elim hsharing fun _ _ => trivial
  exact ⟨ht.idle.ttbr, ⟨ht.valid, ht.flags⟩, hdata, hlen⟩

/-- The load instructions of a file that `elf_load` accepts touch only what was mapped for it
exactly when its ranges cover themselves. -/
theorem loads_own_only_iff (disk : Disk) (fuel : ℕ) (fs : Fat32) (entry : Dirent) (sbrks : List ℕ)
    {s₀ s t : Machine} {file : PiFile} {instrLst : List LoadInstr} (hidle : Idle s₀.vm)
    (hopen : (do execInitTable; execOpen disk fuel fs entry).run s₀ = .ok file s)
    (h : (elfLoad file.data file.nData childAsid).run s = .ok (some instrLst) t) :
    LoadsOwnOnly sbrks instrLst t ↔ RangesCovered s.view kernelLoadAddr entry.nbytes := by
  obtain ⟨httbr, hchild, hdata, hlen⟩ := execOpen_childOpened hidle hopen
  rw [hdata, hlen] at h
  exact loadsOwnOnly_iff_covered sbrks httbr hchild h

end Covered

section Unmapped

/-- A segment inside one section, which no other range begins: nothing is mapped for it. -/
def unmappedSegment : List UInt8 := oneSegment 0x400004 16

def unmappedInstrs : List LoadInstr := [.copy 0x400004 kernelLoadAddr 16, .jump 0x400004]

theorem unmappedSegment_loaded : ∃ (s₀ s t : Machine) (file : PiFile), Idle s₀.vm ∧
    (do
      execInitTable
      execOpen (sectorDisk unmappedSegment) 2 sectorFs (sectorFile unmappedSegment)).run s₀ =
        .ok file s ∧
    (elfLoad file.data file.nData childAsid).run s = .ok (some unmappedInstrs) t ∧
    s.view.loadRanges kernelLoadAddr = [(0x400004, 16)] := by
  have hsize : unmappedSegment.length = 170 := length_oneSegment _ _
  have hplan : (fileView unmappedSegment).elfLoad kernelLoadAddr 170 =
      .map 0x400004 16 (.setHeapStart 0 (.ret (some unmappedInstrs))) := by rfl
  obtain ⟨s₀, -, hheap, hfree, hcursor, -⟩ := notmainInit_run powerOn rfl
  have hroom : 2 ≤ (freeSecs s₀.vm).card := by
    rw [hfree, Nat.card_Ico]
    decide
  obtain ⟨s, file, hopen, hdata, hlen, hholds, -⟩ := execOpen_sector
    unmappedSegment (by rw [hsize]; decide) hheap (by decide) (by rw [hcursor]; decide) hroom
  obtain ⟨httbr, -⟩ := execOpen_childOpened hheap.idle hopen
  have hview := elfLoad_fileView hholds 170
    (by intro va; rw [hplan]; simp [Plan.result])
  rw [hplan] at hview
  have hload : ∃ t, (elfLoad file.data file.nData childAsid).run s =
      .ok (some unmappedInstrs) t := by
    rw [hdata, hlen, hsize, elfLoad_run httbr hview (by simp)]
    exact ⟨_, rfl⟩
  obtain ⟨t, hload⟩ := hload
  have hresult : (s.view.elfLoad kernelLoadAddr 170).result = .ok (some unmappedInstrs) := by
    rw [hview]
    rfl
  refine ⟨s₀, s, t, file, hheap.idle, hopen, hload, ?_⟩
  rw [← (View.of_elfLoad_ok hresult).1, hview]
  rfl

/-- The bytes of the segment go to a section that nothing is mapped in. -/
theorem loads_leave_own : ¬ ∀ (disk : Disk) (fuel : ℕ) (fs : Fat32) (entry : Dirent)
    (sbrks : List ℕ) (s₀ s t : Machine) (file : PiFile) (instrLst : List LoadInstr), Idle s₀.vm →
    (do execInitTable; execOpen disk fuel fs entry).run s₀ = .ok file s →
    (elfLoad file.data file.nData childAsid).run s = .ok (some instrLst) t →
    LoadsOwnOnly sbrks instrLst t := by
  intro hall
  obtain ⟨s₀, s, t, file, hidle, hopen, hload, hranges⟩ := unmappedSegment_loaded
  have hown := hall _ _ _ _ [] s₀ s t file _ hidle hopen hload
  obtain ⟨httbr, hchild, hdata, hlen⟩ := execOpen_childOpened hidle hopen
  rw [hdata, hlen] at hload
  have hcovered := (loadsOwnOnly_iff_covered [] httbr hchild hload).mp hown
  have hpage := hcovered.dests (0x400004, 16) (by rw [hranges]; simp) 0 (by decide)
  rw [hranges] at hpage
  exact absurd hpage (by decide)

theorem loads_own_only_iff_unmapped : ∃ (s₀ s t : Machine) (file : PiFile), Idle s₀.vm ∧
    (do
      execInitTable
      execOpen (sectorDisk unmappedSegment) 2 sectorFs (sectorFile unmappedSegment)).run s₀ =
        .ok file s ∧
    (elfLoad file.data file.nData childAsid).run s = .ok (some unmappedInstrs) t ∧
    (LoadsOwnOnly [] unmappedInstrs t ↔ RangesCovered s.view kernelLoadAddr 170) := by
  obtain ⟨s₀, s, t, file, hidle, hopen, hload, -⟩ := unmappedSegment_loaded
  exact ⟨s₀, s, t, file, hidle, hopen, hload, loads_own_only_iff _ _ _ _ [] hidle hopen hload⟩

end Unmapped
end SimplePiOS.Kernel
