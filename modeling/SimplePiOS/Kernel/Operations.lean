import SimplePiOS.Kernel.CommandLoop
import SimplePiOS.Kernel.ExecRanges

/-! Runs of the kernel as one operation after the other: growth of its heap and complete calls of
`exec_file`, with other code in between. -/
namespace SimplePiOS.Kernel
open Lib Libpi

inductive KernelOp where
  /-- Code that changes memory and libpi's statics in whatever way, and nothing else. -/
  | code (mem : ℕ → UInt8) (heap : Heap)
  /-- The kernel's heap grows; what `kernel_sbrk` takes from 2^31 on lowers the break. -/
  | grow (incr : Fin (2 ^ 31))
  | exec (disk : Disk) (fuel : ℕ) (fs : Fat32) (entry : Dirent) (sbrks : List ℕ)

def KernelOp.run : KernelOp → Kern Unit
  | .code mem heap => fun s => .ok () { s with mem := mem, heap := heap }
  | .grow incr => do
    let _ ← kernelSbrk incr
  | .exec disk fuel fs entry sbrks => execFile disk fuel fs entry sbrks

theorem Steps.code {H K : Moment → Prop} {L : Machine → Prop} (hL : Stable H K L) (mem : ℕ → UInt8)
    (heap : Heap) : Steps H K L (KernelOp.code mem heap).run fun _ => L := by
  apply Traced.intro
  · intro s _ t hrun
    cases hrun
    exact ⟨[], rfl, fun hs _ => ⟨hL.heap _ heap (hL.mem s mem hs), by simp⟩⟩
  · intro s e t hrun
    cases hrun

/-- From `s` on no store of the operation goes through a global descriptor. -/
def KernelOp.TameFrom (op : KernelOp) (s : Machine) : Prop :=
  ∀ x ∈ since Machine.trace s (endState (op.run.run s)), Tame x

/-- The states between two operations, from the kernel's start on, in the runs whose operations
all meet `Ok` where they begin. -/
inductive KernelRun (Ok : Machine → KernelOp → Prop) : Machine → Prop
  | boot {s t : Machine} : notmainInit.run s = .ok () t → KernelRun Ok t
  | step {s t : Machine} (op : KernelOp) :
    KernelRun Ok s → Ok s op → op.run.run s = .ok () t → KernelRun Ok t

theorem KernelRun.mono {Ok Ok' : Machine → KernelOp → Prop} {s : Machine} (h : KernelRun Ok s)
    (hle : ∀ s op, Ok s op → Ok' s op) : KernelRun Ok' s := by
  induction h with
  | boot hrun => exact .boot hrun
  | step op _ hok hrun ih => exact .step op ih (hle _ _ hok) hrun

theorem KernelOp.TameFrom.of_ok {op : KernelOp} {s t : Machine} (h : op.TameFrom s)
    (hrun : op.run.run s = .ok () t) : ∀ x ∈ since Machine.trace s t, Tame x := by
  unfold KernelOp.TameFrom at h
  rwa [hrun] at h

theorem KernelOp.TameFrom.of_run {op : KernelOp} {s t : Machine} (hrun : op.run.run s = .ok () t)
    (h : ∀ x ∈ since Machine.trace s t, Tame x) : op.TameFrom s := by
  unfold KernelOp.TameFrom
  rwa [hrun]

theorem childPage_lt (q : ℕ) : childPage q < nVirtPages := by
  rw [childPage_eq]
  exact Nat.mod_lt _ (by decide)

/-- What `mmu_unmap` takes for an entry of its own. -/
def Fld.Released (f : Fld) : Prop := f.tag ≠ 0 ∧ f.nG ≠ 0

instance (f : Fld) : Decidable f.Released := inferInstanceAs (Decidable (_ ∧ _))

/-- From `v` to `w` the sections behind the released entries of some pages were given back. -/
structure Unmapped (v w : Vm) (pt : Asid) (pages : List ℕ) : Prop where
  table : w.table = v.table
  ttbr : w.ttbr = v.ttbr
  kernelProc : w.kernelProc = v.kernelProc
  currentProc : w.currentProc = v.currentProc
  back : ∀ p ∈ pages, (v.table pt p).Released → w.paddrToAsidMap (v.table pt p).sec = 0
  kept : ∀ sec, (∀ p ∈ pages, (v.table pt p).Released → (v.table pt p).sec ≠ sec) →
    w.paddrToAsidMap sec = v.paddrToAsidMap sec

section Unmap
variable {v w : Vm} {s t : Machine} {pt : Asid}

/-- The ownership map after the loop is what the first entry left, but for the later ones. -/
theorem unmapPages_ok {r : PUnit} (pages : List ℕ)
    (hrun : (forM pages (unmapEntry pt)).run s = .ok r t) : Unmapped s.vm t.vm pt pages := by
  induction pages generalizing s with
  | nil =>
    obtain ⟨-, rfl⟩ := EStateM.Result.ok.inj hrun
    exact ⟨rfl, rfl, rfl, rfl, fun p hp => absurd hp List.not_mem_nil, fun _ _ => rfl⟩
  | cons page pages ih =>
    rw [List.forM_cons] at hrun
    obtain ⟨_, u, hfirst, hrest⟩ := of_bind_ok hrun
    have h := ih hrest
    have hget : getVm.run s = .ok s.vm s := rfl
    unfold unmapEntry at hfirst
    rw [bind_ok hget] at hfirst
    dsimp only at hfirst
    by_cases hrel : (s.vm.table pt page).tag ≠ 0 ∧ (s.vm.table pt page).nG ≠ 0
    · rw [if_pos hrel] at hfirst
      split at hfirst
      · obtain ⟨-, rfl⟩ := EStateM.Result.ok.inj hfirst
        have hmap : ∀ i, (s.step .update (·.setOwner (s.vm.table pt page).sec 0)).vm.paddrToAsidMap i =
            if i = (s.vm.table pt page).sec then 0 else s.vm.paddrToAsidMap i :=
          setOwner_paddrToAsidMap _ _ _
        refine ⟨h.table, h.ttbr, h.kernelProc, h.currentProc, ?_, ?_⟩
        · intro p hp hp'
          by_cases hlater : ∀ q ∈ pages, (s.vm.table pt q).Released →
              (s.vm.table pt q).sec ≠ (s.vm.table pt p).sec
          · rw [h.kept _ hlater, hmap]
            rcases List.mem_cons.mp hp with rfl | hp
            · exact if_pos rfl
            · exact absurd rfl (hlater p hp hp')
          · push Not at hlater
            obtain ⟨q, hq, hq', heq⟩ := hlater
            rw [← heq]
            exact h.back q hq hq'
        · intro sec hsec
          rw [h.kept sec fun q hq => hsec q (List.mem_cons_of_mem _ hq), hmap,
            if_neg (hsec page List.mem_cons_self hrel).symm]
      · cases hfirst
    · rw [if_neg hrel] at hfirst
      obtain ⟨-, rfl⟩ := EStateM.Result.ok.inj hfirst
      refine ⟨h.table, h.ttbr, h.kernelProc, h.currentProc, ?_, ?_⟩
      · intro p hp hp'
        rcases List.mem_cons.mp hp with rfl | hp
        · exact absurd hp' hrel
        · exact h.back p hp hp'
      · exact fun sec hsec => h.kept sec fun q hq => hsec q (List.mem_cons_of_mem _ hq)

theorem execClose_ok (hrun : execClose.run s = .ok () t) :
    Unmapped s.vm t.vm childAsid (List.range nVirtPages) ∧ t.vm.frame = none := by
  obtain ⟨_, u, hunmap, hrest⟩ := of_bind_ok hrun
  have h := unmapPages_ok _ hunmap
  obtain ⟨-, rfl⟩ := EStateM.Result.ok.inj hrest
  exact ⟨⟨h.table, h.ttbr, h.kernelProc, h.currentProc, h.back, h.kept⟩, rfl⟩

end Unmap

/-- A new child: its table has global sections at most. -/
structure Starting (v : Vm) : Prop where
  idle : Idle v
  child : ∃ f, v.frame = some f ∧ f.proc = ⟨0, 0, childAsid⟩
  none : ∀ p < nVirtPages, ¬ (v.table childAsid p).Released

/-- From `v`, where the file has been read, to `w`, where `elf_load` is called, its window has been
mapped for the kernel and shown to the child. -/
def Windowed (v : Vm) (file : PiFile) (w : Vm) : Prop :=
  ∃ u, Grown (v.openFile { file with data := kernelLoadAddr }) u kernelAsid
      (pageRange kernelLoadAddr file.nAlloc) ∧
    (∀ q ∈ filePages file.nData, (u.table kernelAsid q).Private) ∧
    w = u.shareAll (filePages file.nData)

section Use
variable {v w : Vm} {s t : Machine} {file : PiFile} {p q : ℕ}

theorem starting_heapStable : HeapStable Starting fun _ => True := by
  constructor
  · exact fun v hv => hv.idle
  · exact fun _ _ _ _ => trivial
  · intro v page sec sync hv hsec
    refine ⟨⟨hv.idle.ttbr, hv.idle.currentProc, hv.idle.kernelProc⟩, hv.child, ?_⟩
    intro p hp
    rw [mapRam_table, if_neg (fun hin => childAsid_ne_kernelAsid hin.1)]
    exact hv.none p hp
  · exact fun v e hv => ⟨⟨hv.idle.ttbr, hv.idle.currentProc, hv.idle.kernelProc⟩, hv.child, hv.none⟩
  · exact fun _ _ => trivial

theorem starting_execInitTable (hidle : Idle s.vm) (h : execInitTable.run s = .ok () t) :
    Starting t.vm := by
  have hchild := execInitTable_child h
  have hbit : ∀ x : BitVec 1, x ≠ 0 → x = 1 := by decide
  refine ⟨?_, ⟨_, execInitTable_frame h, rfl⟩, ?_⟩
  · cases h
    exact ⟨hidle.ttbr, hidle.currentProc, hidle.kernelProc⟩
  · rintro p hp ⟨htag, hnG⟩
    obtain ⟨hnone, hvalid⟩ := hchild p hp
    exact hnone ⟨hvalid htag, hbit _ hnG⟩

namespace Windowed

theorem kernel_eq {u : Vm} (h : w = u.shareAll (filePages file.nData)) :
    w.table kernelAsid = u.table kernelAsid ∧ w.paddrToAsidMap = u.paddrToAsidMap := by
  have hsame := shareAll_same u (filePages file.nData)
  rw [h]
  exact ⟨hsame.table kernelAsid childAsid_ne_kernelAsid.symm, hsame.paddrToAsidMap⟩

/-- The child sees each page of the file. -/
theorem shown (h : Windowed v file w) (hq : q ∈ filePages file.nData) :
    (w.table kernelAsid q).Private ∧ (w.table childAsid (childPage q)).Released ∧
      (w.table childAsid (childPage q)).sec = (w.table kernelAsid q).sec := by
  obtain ⟨u, -, hpriv, heq⟩ := h
  have hentry : w.table childAsid (childPage q) =
      sectionFld ((u.table kernelAsid q).sec * 2 ^ 20) sharedFlags := by
    rw [heq]
    exact shareAll_shown (fun _ hp => filePages_lt hp) hq
  have hsec : (u.table kernelAsid q).sec < 2 ^ 12 := (u.table kernelAsid q).secBaseAddr.isLt
  have hbits : (2 : BitVec 2) ≠ 0 ∧ (1 : BitVec 1) ≠ 0 := by decide
  rw [hentry, (kernel_eq heq).1]
  exact ⟨hpriv q hq, hbits, sectionFld_sec _ hsec⟩

/-- It sees nothing else. -/
theorem released (h : Windowed v file w) (hv : Starting v) (hp : p < nVirtPages)
    (hrel : (w.table childAsid p).Released) : ∃ q ∈ filePages file.nData, childPage q = p := by
  obtain ⟨u, hgrown, -, heq⟩ := h
  by_contra hnone
  push Not at hnone
  rw [heq, shareAll_other hnone, hgrown.table childAsid p (fun hin => childAsid_ne_kernelAsid hin.1)] at hrel
  exact hv.none p hp hrel

theorem kernelProc (h : Windowed v file w) : w.kernelProc = v.kernelProc := by
  obtain ⟨u, hgrown, -, heq⟩ := h
  rw [heq, (shareAll_same u _).kernelProc, hgrown.kernelProc]
  rfl

theorem mapping (h : Windowed v file w) (hv : Starting v) :
    Mapping (ChildGrown w) .kernel 0 0 [] w ∧ w.ttbr = kernelAsid := by
  obtain ⟨u, hgrown, -, heq⟩ := h
  obtain ⟨f, hf, hproc⟩ := hv.child
  have hsame := shareAll_same u (filePages file.nData)
  rw [← heq] at hsame
  have hframe : w.frame = some { f with file := some { file with data := kernelLoadAddr } } := by
    rw [hsame.frame, hgrown.frame]
    exact congrArg (Option.map _) hf
  refine ⟨⟨⟨_, hframe, hproc⟩, ?_, .refl _⟩, ?_⟩
  · rw [hsame.currentProc, hgrown.currentProc]
    exact hv.idle.currentProc
  · rw [hsame.ttbr, hgrown.ttbr]
    exact hv.idle.ttbr

end Windowed

theorem of_execLoadFile_ok {f : PiFile} (hv : Starting s.vm)
    (hrun : (execLoadFile file).run s = .ok f t) (htame : ∀ x ∈ since Machine.trace s t, Tame x) :
    f = { file with data := kernelLoadAddr } ∧ Windowed s.vm file t.vm := by
  obtain ⟨_, s₁, hopen, hrun⟩ := of_bind_ok hrun
  obtain ⟨-, rfl⟩ := EStateM.Result.ok.inj hopen
  obtain ⟨_, s₂, hmap, hrun⟩ := of_bind_ok hrun
  obtain ⟨_, s₃, hcopy, hrun⟩ := of_bind_ok hrun
  obtain ⟨_, s₄, hshare, hret⟩ := of_bind_ok hrun
  obtain ⟨rfl, rfl⟩ := EStateM.Result.ok.inj hret
  rcases mmuMapToMem_run kernelAsid_ne kernelLoadAddr file.nAlloc true
    (s.step .update (·.openFile { file with data := kernelLoadAddr })) with
    ⟨u, hgrow, hgrown, -⟩ | ⟨-, u, hfull⟩
  · obtain rfl := (EStateM.Result.ok.inj (hgrow.symm.trans hmap)).2
    have hmapped : Extends Machine.trace s u :=
      (growing_bind (growing_perform _ _) fun _ => growing_mmuMapToMem _ _ _ _).extends_ok
        ((bind_ok hopen).trans hmap)
    have hcopied : Extends Machine.trace u s₃ := (growing_still (still_memcpy _ _ _)).extends_ok hcopy
    have hshown : Extends Machine.trace s₃ s₄ :=
      (Traced.forM_keeps fun page _ => (storeless_sharePage page).grows).extends_ok hshare
    have htame₃ := (hmapped.forall_since hcopied
      ((hmapped.trans hcopied).forall_since hshown htame).1).2
    obtain ⟨hvm, hpriv⟩ := memcpy_private hcopy htame₃
    obtain ⟨u', hshared, hvm', -⟩ := sharePages_run (filePages file.nData) s₃
    obtain rfl := (EStateM.Result.ok.inj (hshared.symm.trans hshare)).2
    refine ⟨rfl, u.vm, hgrown, ?_, by rw [hvm', hvm]⟩
    intro q hq
    obtain ⟨i, hi, rfl⟩ := filePages_window hq
    have hp := hpriv i hi
    have httbr : u.vm.ttbr = kernelAsid := hgrown.ttbr.trans hv.idle.ttbr
    unfold Vm.fldAt at hp
    rwa [httbr] at hp
  · have hstop := hfull.symm.trans hmap
    cases hstop

theorem starting_fat32ReadFile {disk : Disk} {fuel : ℕ} {fs : Fat32} {entry : Dirent}
    (hv : Starting s.vm) (hrun : (fat32ReadFile kernel disk fuel fs entry).run s = .ok file t)
    (htame : ∀ x ∈ since Machine.trace s t, Tame x) :
    Starting t.vm ∧ file.nData = entry.nbytes := by
  have hsteps := Steps.fat32ReadFile (H := Tame) disk fuel fs entry (stable_onVm _)
    starting_heapStable.kernelSbrk
  exact ((hsteps.of_ok hrun).elim hv htame).1

/-- The states of an `exec_file` that gets to its call of `mmu_unmap`: the child's table is set up,
the file is read and put into the window, and the program's pages are mapped. -/
structure Used (disk : Disk) (fuel : ℕ) (fs : Fat32) (entry : Dirent) (sbrks : List ℕ)
    (s r o t : Machine) (file : PiFile) : Prop where
  read : (do execInitTable; fat32ReadFile kernel disk fuel fs entry).run s = .ok file r
  tame : ∀ x ∈ since Machine.trace s r, Tame x
  opened : (do execInitTable; execOpen disk fuel fs entry).run s =
    .ok { file with data := kernelLoadAddr } o
  nData : file.nData = entry.nbytes
  starting : Starting r.vm
  windowed : Windowed r.vm file o.vm
  grown : ChildGrown o.vm (o.view.childPages entry.nbytes sbrks) t.vm
  kernelProc : t.vm.kernelProc = r.vm.kernelProc

/-- A child's program does not change the kernel's own process. -/
theorem kernelProc_childStable (c : Process) :
    ChildStable (WithChild fun v => v.kernelProc = c) fun _ => True :=
  WithChild.stable (fun _ _ _ => trivial) (fun _ _ _ _ hv => hv) (fun _ _ _ _ hv => hv) (fun _ _ _ hv => hv)
    fun _ _ => trivial

theorem of_execProgram_ok {disk : Disk} {fuel : ℕ} {fs : Fat32} {entry : Dirent} {sbrks : List ℕ}
    {s₁ o : Machine} {f : PiFile} (hidle : Idle s.vm) (hinit : execInitTable.run s = .ok () s₁)
    (hopen : (execOpen disk fuel fs entry).run s₁ = .ok f o)
    (hprogram : (execProgram sbrks f).run o = .ok () t) (htame : ∀ x ∈ since Machine.trace s t, Tame x) :
    ∃ r file, Used disk fuel fs entry sbrks s r o t file := by
  obtain ⟨file, r, hread, hload⟩ := of_bind_ok hopen
  have hextends : Extends Machine.trace s s₁ := storeless_execInitTable.extends_ok hinit
  have hextends₁ : Extends Machine.trace s₁ r := (growing_fat32ReadFile disk fuel fs entry).extends_ok hread
  have hextends₂ : Extends Machine.trace r o := (growing_execLoadFile file).extends_ok hload
  obtain ⟨htame₂, htame₃⟩ := ((hextends.trans hextends₁).trans hextends₂).forall_since
    ((growing_execProgram sbrks f).extends_ok hprogram) htame
  obtain ⟨htame₀, htame₂⟩ := (hextends.trans hextends₁).forall_since hextends₂ htame₂
  have htame₁ := (hextends.forall_since hextends₁ htame₀).2
  obtain ⟨hstarting, hlen⟩ := starting_fat32ReadFile (starting_execInitTable hidle hinit) hread htame₁
  obtain ⟨rfl, hwindowed⟩ := of_execLoadFile_ok hstarting hload htame₂
  obtain ⟨hmapping, httbr⟩ := hwindowed.mapping hstarting
  have hrules : Steps Tame (InVm fun _ => True)
      (fun s => (Mapping (ChildGrown o.vm) .kernel 0 0 [] s.vm ∧ s.vm.ttbr = kernelAsid) ∧
        s.view = o.view) (execProgram sbrks { file with data := kernelLoadAddr })
      fun _ => OnVm (ChildGrown o.vm (o.view.childPages file.nData sbrks)) :=
    (childGrown_pageRules o.vm).execProgram sbrks rfl
  have hgrown := ((hrules.of_ok hprogram).elim ⟨⟨hmapping, httbr⟩, rfl⟩ htame₃).1
  have hdata : ({ file with data := kernelLoadAddr } : PiFile).data = kernelLoadAddr := rfl
  have hturn := ((((kernelProc_childStable o.vm.kernelProc).execProgram (H := Tame) sbrks hdata).of_ok
    hprogram).elim ⟨⟨hmapping.child, hmapping.currentProc, rfl⟩, httbr⟩ htame₃).1
  refine ⟨r, file, ?_, htame₀, ?_, hlen, hstarting, hwindowed, ?_,
    hturn.1.kept.trans hwindowed.kernelProc⟩
  · rw [bind_ok hinit]
    exact hread
  · rw [bind_ok hinit]
    exact hopen
  · have hpages : ChildGrown o.vm (o.view.childPages file.nData sbrks) t.vm := hgrown
    rwa [hlen] at hpages

/-- `exec_file` that returns got to its call of `mmu_unmap`. -/
theorem of_execFile_ok {disk : Disk} {fuel : ℕ} {fs : Fat32} {entry : Dirent} {sbrks : List ℕ}
    {u : Machine} (hidle : Idle s.vm) (hrun : (execFile disk fuel fs entry sbrks).run s = .ok () u)
    (htame : ∀ x ∈ since Machine.trace s u, Tame x) :
    ∃ r o t file, Used disk fuel fs entry sbrks s r o t file ∧
      Unmapped t.vm u.vm childAsid (List.range nVirtPages) := by
  rw [execFile_eq] at hrun
  obtain ⟨_, s₁, hinit, hrun⟩ := of_bind_ok hrun
  obtain ⟨f, o, hopen, hchild⟩ := of_bind_ok hrun
  obtain ⟨_, t, hprogram, hclose⟩ := of_bind_ok hchild
  have hopened : Extends Machine.trace s o := .trans (storeless_execInitTable.extends_ok hinit)
    ((growing_execOpen disk fuel fs entry).extends_ok hopen)
  have hused : Extends Machine.trace s t := hopened.trans ((growing_execProgram sbrks f).extends_ok hprogram)
  have hclosed : Extends Machine.trace t u := storeless_execClose.extends_ok hclose
  obtain ⟨r, file, h⟩ :=
    of_execProgram_ok hidle hinit hopen hprogram (hused.forall_since hclosed htame).1
  exact ⟨r, o, t, file, h, (execClose_ok hclose).1⟩

theorem childPages_lt {w : View} {n : ℕ} {sbrks : List ℕ} (hp : p ∈ w.childPages n sbrks) :
    p < nVirtPages := by
  obtain ⟨range, -, hp⟩ := List.mem_flatMap.mp hp
  exact (mem_pageRange hp).2.2

theorem View.childPages_short {w : View} {n : ℕ} {sbrks : List ℕ} (h : n < 52) :
    w.childPages n sbrks = [] := by
  have hnone : (w.elfLoad kernelLoadAddr n).result = .ok none := by
    rw [elfLoad_short h]
    rfl
  rw [View.childPages_none hnone, elfLoad_short h]
  rfl

/-- Right after the start a file that is shorter than an ELF header is run and given up. -/
theorem sectorFile_given_up (bs : List UInt8) (hshort : bs.length < 52) : ∃ s r o t file,
    notmainInit.run powerOn = .ok () s ∧
    (do execInitTable; fat32ReadFile kernel (sectorDisk bs) 2 sectorFs (sectorFile bs)).run s =
      .ok file r ∧
    (do execInitTable; execOpen (sectorDisk bs) 2 sectorFs (sectorFile bs)).run s =
      .ok { file with data := kernelLoadAddr } o ∧
    (execFile (sectorDisk bs) 2 sectorFs (sectorFile bs) []).run s = .ok () t ∧
    file.nAlloc = 512 ∧ file.nData = bs.length ∧ ∀ x ∈ since Machine.trace s t, Tame x := by
  obtain ⟨s, hboot, hheap, hfree, hcursor, -⟩ := notmainInit_run powerOn rfl
  have hchain : Chain sectorFs ⟨8, by decide⟩ 5 [5] := .last (by omega) (by decide) (by decide)
  have hdata : (sectorFile bs).nbytes ≤ 512 := Nat.le_trans (Nat.le_of_lt hshort) (by decide)
  have hloop : CommandLoop none s := .boot hboot
  obtain ⟨file, s₁, s₂, t, halloc, hlen, hinit, hopen, hchild, hlim⟩ := hloop.exec_short (sectorDisk bs)
    (d := sectorFile bs) hheap hchain (by decide) (by decide : 1 < 2) rfl hdata
    (by rw [hcursor]; decide) (by rw [hfree, Nat.card_Ico]; decide) hshort
    (notmainInit_limited hboot)
  obtain ⟨g, r, hread, hload⟩ := of_bind_ok hopen
  have hopened := ((growing_execChild [] file).extends_ok hchild).forall_past hlim
  have hread' := ((growing_execLoadFile g).extends_ok hload).forall_past hopened
  obtain ⟨hstarting, -⟩ := starting_fat32ReadFile (starting_execInitTable hheap.idle hinit) hread
    fun x hx => (hread' x (List.mem_of_mem_take hx)).1
  obtain ⟨rfl, -⟩ := of_execLoadFile_ok hstarting hload fun x hx => (hopened x (List.mem_of_mem_take hx)).1
  refine ⟨s, r, s₂, t, g, hboot, ?_, ?_, ?_, halloc, hlen, fun x hx => (hlim x (List.mem_of_mem_take hx)).1⟩
  · rw [bind_ok hinit]
    exact hread
  · rw [bind_ok hinit]
    exact hopen
  · rw [execFile_eq, bind_ok hinit, bind_ok hopen]
    exact hchild

/-- What the child's table gives back: the sections behind the program's pages, and those of the
window that are still shown. -/
theorem Used.released_iff {disk : Disk} {fuel : ℕ} {fs : Fat32} {entry : Dirent} {sbrks : List ℕ}
    {r o : Machine} (h : Used disk fuel fs entry sbrks s r o t file) {sec : ℕ} :
    (∃ p ∈ List.range nVirtPages, (t.vm.table childAsid p).Released ∧
      (t.vm.table childAsid p).sec = sec) ↔
    (∃ p ∈ o.view.childPages entry.nbytes sbrks, (t.vm.table childAsid p).sec = sec) ∨
      ∃ q ∈ filePages entry.nbytes, childPage q ∉ o.view.childPages entry.nbytes sbrks ∧
        (o.vm.table kernelAsid q).sec = sec := by
  constructor
  · rintro ⟨p, hp, hrel, hsec⟩
    by_cases hpage : p ∈ o.view.childPages entry.nbytes sbrks
    · exact .inl ⟨p, hpage, hsec⟩
    · rw [h.grown.old p hpage] at hrel hsec
      obtain ⟨q, hq, rfl⟩ := h.windowed.released h.starting (List.mem_range.mp hp) hrel
      have hsame := (h.windowed.shown hq).2.2
      rw [h.nData] at hq
      exact .inr ⟨q, hq, hpage, hsame.symm.trans hsec⟩
  · rintro (⟨p, hp, hsec⟩ | ⟨q, hq, hpage, hsec⟩)
    · have hpriv := h.grown.priv p hp
      refine ⟨p, List.mem_range.mpr (childPages_lt hp), ⟨?_, ?_⟩, hsec⟩
      · rw [hpriv.1]
        decide
      · rw [hpriv.2]
        decide
    · rw [← h.nData] at hq
      obtain ⟨-, hrel, hsame⟩ := h.windowed.shown hq
      refine ⟨childPage q, List.mem_range.mpr (childPage_lt q), ?_, ?_⟩
      · rw [h.grown.old _ hpage]
        exact hrel
      · rw [h.grown.old _ hpage, hsame]
        exact hsec

/-- A section is taken after the loop if it was before and was not given back. -/
theorem Unmapped.taken_iff {pt : Asid} {pages : List ℕ} (h : Unmapped v w pt pages) (sec : ℕ) :
    w.paddrToAsidMap sec ≠ 0 ↔ v.paddrToAsidMap sec ≠ 0 ∧
      ¬ ∃ p ∈ pages, (v.table pt p).Released ∧ (v.table pt p).sec = sec := by
  by_cases hback : ∃ p ∈ pages, (v.table pt p).Released ∧ (v.table pt p).sec = sec
  · obtain ⟨p, hp, hrel, rfl⟩ := hback
    rw [h.back p hp hrel]
    constructor
    · exact fun hne => absurd rfl hne
    · exact fun hkept => absurd ⟨p, hp, hrel, rfl⟩ hkept.2
  · have hkept := hback
    push Not at hkept
    rw [h.kept sec hkept]
    exact ⟨fun hne => ⟨hne, hback⟩, fun hne => hne.1⟩

end Use

end SimplePiOS.Kernel
