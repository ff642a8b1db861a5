import SimplePiOS.Kernel.ExecIsolation
import SimplePiOS.Kernel.LoadTargets

/-! Sessions of the kernel's command loop, from `notmain`'s initialisation on. -/
namespace SimplePiOS.Kernel
open Lib Libpi

/-- Code of libpi and fs.c: it uses the kernel's memory and its allocator, and nothing else of
the kernel. -/
def UsesPlatform {α : Type} (m : Kern α) : Prop :=
  ∀ I E, PlatformKeeps kernel I E → Keeps I E m

/-- The states of the command loop. `ls` and `cat`, and `run` up to its call of `exec_file`, are
code of libpi and fs.c. The first argument is the file in the load window, as long as the tables
are the way its program left them. -/
inductive CommandLoop : Option PiFile → Machine → Prop where
  | boot {s : Machine} : notmainInit.run powerOn = .ok () s → CommandLoop none s
  | code {last : Option PiFile} {s t : Machine} {α : Type} {a : α} (m : Kern α) :
      CommandLoop last s → UsesPlatform m → m.run s = .ok a t → CommandLoop none t
  | still {last : Option PiFile} {s t : Machine} {α : Type} {a : α} (m : Kern α) :
      CommandLoop last s → UsesPlatform m → m.run s = .ok a t → t.vm = s.vm → CommandLoop last t
  | run {last : Option PiFile} {s s₁ s₂ t : Machine} {file : PiFile} (disk : Disk) (fuel : ℕ)
      (fs : Fat32) (entry : Dirent) (sbrks : List ℕ) : CommandLoop last s →
      execInitTable.run s = .ok () s₁ → (execOpen disk fuel fs entry).run s₁ = .ok file s₂ →
      (execChild sbrks file).run s₂ = .ok () t → CommandLoop (some file) t

theorem usesPlatform_fat32ReadFile (disk : Disk) (fuel : ℕ) (fs : Fat32) (d : Dirent) :
    UsesPlatform (fat32ReadFile kernel disk fuel fs d) :=
  fun _ _ h => h.fat32ReadFile disk fuel fs d

theorem usesPlatform_kernelSbrk (incr : ℕ) : UsesPlatform (kernelSbrk incr) :=
  fun _ _ h => h.sbrk incr

/-- Before a file is loaded. -/
structure Early (v : Vm) : Prop where
  heap : v.kernelProc.heapEnd ≤ kernelLoadAddr
  file : ∀ f, v.frame = some f → f.file = none

section Early
variable {v : Vm} {H : Moment → Prop}

theorem Early.limits (hv : Early v) : WithinLimits v := by
  refine ⟨hv.heap, ?_⟩
  intro f file hf hfile
  rw [hv.file f hf] at hfile
  cases hfile

theorem steps_mmuMapSection_early (pt : Asid) (va pa : ℕ) (flags : MapFlags) :
    Steps H Limited (OnVm Early) (mmuMapSection pt va pa flags) fun _ => OnVm Early := by
  apply Steps.mmuMapSection (OnVm Early) (OnVm Early) (OnVm Early)
  · intro s _ _ _ hs _
    have hs' : Early (s.vm.setOwner (pa / 2 ^ 20) pt) := ⟨hs.heap, hs.file⟩
    exact ⟨hs', by simp [Tame], hs'.limits⟩
  · exact fun s _ hs => hs
  · intro s hs _
    have hs' : Early (s.vm.setFld pt (va / 2 ^ 20) (sectionFld pa flags) flags) :=
      ⟨hs.heap, hs.file⟩
    exact ⟨hs', by simp [Tame], hs'.limits⟩
  · exact fun s _ hs _ => ⟨hs, by simp [Tame], hs.limits⟩
  · exact fun s _ hs => hs
  · exact fun s hs _ => ⟨hs, by simp [Tame], hs.limits⟩

theorem steps_update_early {e : Event} (he : e ≠ .wild) {f : Vm → Vm}
    (h : ∀ v, Early v → Early (f v)) :
    Steps H Limited (OnVm Early) (perform e f) fun _ => OnVm Early := by
  apply Steps.perform
  intro s hs _
  have hs' := h s.vm hs
  exact ⟨hs', he, hs'.limits⟩

theorem steps_mmuInit_early (pt : Asid) :
    Steps H Limited (OnVm Early) (mmuInit pt) fun _ => OnVm Early := by
  apply Traced.bind (Steps.assert _ _)
  intro _
  apply Traced.pre (L := OnVm Early) _ fun s hs => hs.1
  apply steps_update_early (by simp)
  exact fun v hv => ⟨hv.heap, hv.file⟩

theorem steps_mmuMapKernelSections_early (pt : Asid) :
    Steps H Limited (OnVm Early) (mmuMapKernelSections pt) fun _ => OnVm Early := by
  unfold mmuMapKernelSections
  apply Traced.bind (steps_mmuMapSection_early _ _ _ _)
  intro _
  apply Traced.bind (steps_mmuMapSection_early _ _ _ _)
  intro _
  apply Traced.bind (steps_mmuMapSection_early _ _ _ _)
  intro _
  apply Traced.bind (steps_mmuMapSection_early _ _ _ _)
  intro _
  exact steps_mmuMapSection_early _ _ _ _

/-- The initialisation keeps within the limits. -/
theorem steps_notmainInit_early :
    Steps H Limited (OnVm Early) notmainInit fun _ => OnVm Early := by
  have hswitch : Steps H Limited (OnVm Early) (setProcidTtbr0 kernelAsid kernelAsid) fun _ =>
      OnVm Early := by
    refine .bind (steps_update_early (by simp) ?_) fun _ => ?_
    · exact fun v hv => ⟨hv.heap, hv.file⟩
    refine .bind (steps_update_early (by simp) ?_) fun _ => ?_
    · exact fun v hv => ⟨hv.heap, hv.file⟩
    apply steps_update_early (by simp)
    exact fun v hv => ⟨hv.heap, hv.file⟩
  have henable : Steps H Limited (OnVm Early) vmEnable fun _ => OnVm Early := by
    refine .bind (steps_update_early (by simp) ?_) fun _ => ?_
    · exact fun v hv => ⟨hv.heap, hv.file⟩
    apply Traced.bind (steps_mmuInit_early 0)
    intro _
    apply Traced.bind (steps_mmuInit_early kernelAsid)
    intro _
    apply Traced.bind (steps_mmuMapKernelSections_early kernelAsid)
    intro _
    apply Traced.bind (Traced.forM_keeps fun i _ => steps_mmuMapSection_early _ _ _ _)
    intro _
    apply Traced.bind hswitch
    intro _
    exact steps_update_early (by simp) fun v hv => hv
  apply Traced.bind henable
  intro _
  refine .bind (steps_update_early (by simp) ?_) fun _ => ?_
  · intro v hv
    have hlow : kernelHeapAddr ≤ kernelLoadAddr := by decide
    exact ⟨hlow, hv.file⟩
  · apply steps_update_early (by simp)
    exact fun v hv => ⟨hv.heap, hv.file⟩

/-- So does a new child's table. -/
theorem steps_execInitTable_early :
    Steps H Limited (OnVm Early) execInitTable fun _ => OnVm Early := by
  have hopen : ∀ v : Vm, Early v → Early { v with
      frame := some { proc := { heapStart := 0, heapEnd := 0, asid := childAsid }, file := none } } := by
    intro v hv
    refine ⟨hv.heap, ?_⟩
    intro f hf
    obtain rfl := Option.some.inj hf
    rfl
  apply Traced.bind (steps_update_early (by simp) hopen)
  intro _
  refine .bind (steps_update_early (by simp) ?_) fun _ => ?_
  · exact fun v hv => ⟨hv.heap, hv.file⟩
  apply Traced.bind (steps_mmuInit_early childAsid)
  intro _
  exact steps_mmuMapKernelSections_early childAsid

end Early

section Start
variable {s t : Machine}

/-- The kernel's table and the ownership map after the initialisation. -/
theorem notmainInit_table (s : Machine) : ∃ t, notmainInit.run s = .ok () t ∧
    (∀ sec, t.vm.paddrToAsidMap sec = if 1 ≤ sec ∧ sec < 5 then kernelAsid else 0) ∧
    (∀ p < nVirtPages, t.vm.table kernelAsid p = if p ∈ reservedPages then identityFld p else
      if 1 ≤ p ∧ p < 5 then ramFld p false else Fld.zero) ∧ t.vm.frame = s.vm.frame := by
  refine ⟨_, rfl, ?_, ?_, rfl⟩
  · intro sec
    change Function.update (Function.update (Function.update (Function.update (fun _ => 0)
      1 kernelAsid) 2 kernelAsid) 3 kernelAsid) 4 kernelAsid sec = _
    simp only [Function.update_apply]
    grind
  · intro p hp
    by_cases hres : p ∈ reservedPages
    · rw [if_pos hres]
      simp only [reservedPages, List.mem_cons, List.not_mem_nil, or_false] at hres
      rcases hres with rfl | rfl | rfl | rfl | rfl <;> rfl
    · rw [if_neg hres]
      by_cases htab : 1 ≤ p ∧ p < 5
      · rw [if_pos htab]
        obtain ⟨hlo, hhi⟩ := htab
        interval_cases p <;> rfl
      · rw [if_neg htab]
        change Function.update (Function.update (Function.update (Function.update (Function.update
          (Function.update (Function.update (Function.update (Function.update
            (fun i => if i < nVirtPages then Fld.zero else s.vm.table kernelAsid i)
          0 _) 0x200 _) 0x201 _) 0x202 _) 0x203 _) 1 _) 2 _) 3 _) 4 _ p = _
        simp only [reservedPages, List.mem_cons, List.not_mem_nil, or_false, not_or] at hres
        simp only [Function.update_apply, if_pos hp]
        grind

theorem identityFld_not_private (page : ℕ) : ¬ (identityFld page).Private := by
  intro h
  have hnG : (0 : BitVec 1) = 1 := h.2
  cases hnG

/-- The kernel holds its tables and an empty heap. -/
theorem notmainInit_held (hs : notmainInit.run powerOn = .ok () s) :
    KernelHeld ∅ s.vm ∧ Alone s.vm := by
  obtain ⟨t, hrun, hmap, htable, hframe⟩ := notmainInit_table powerOn
  obtain ⟨u, hrun', hat, -, -, -⟩ := notmainInit_run powerOn rfl
  obtain rfl := (EStateM.Result.ok.inj (hrun.symm.trans hs)).2
  obtain rfl := (EStateM.Result.ok.inj (hrun'.symm.trans hs)).2
  have hend := hat.heapEnd
  have hheap : kernelHeapAddr = 5 * 2 ^ 20 := rfl
  have hload : kernelLoadAddr = 0x100 * 2 ^ 20 := rfl
  have howns := hat.owns
  refine ⟨⟨hat.idle.kernelProc, by omega, by omega, howns.mono ?_, ?_, fun q hq => hq.elim, ?_⟩,
    hat.idle, hframe⟩
  · intro p hp
    obtain ⟨hlo, hhi⟩ := hp.resolve_right fun hin => hin
    rw [hend] at hhi
    exact ⟨hlo, Nat.lt_of_mul_lt_mul_right hhi⟩
  · intro sec hlo hhi
    rw [hmap, if_pos ⟨hlo, hhi⟩]
  · intro p hlo hhi hvalid
    have hzero : ¬ Fld.zero.Valid := by decide
    have hres : p ∉ reservedPages := by
      simp only [reservedPages, List.mem_cons, List.not_mem_nil, or_false]
      omega
    rw [htable p hhi, if_neg hres, if_neg (by omega)] at hvalid
    exact absurd hvalid hzero

theorem notmainInit_limited (hs : notmainInit.run powerOn = .ok () s) : ∀ x ∈ s.trace, Limited x := by
  have hearly : Early powerOn.vm := ⟨Nat.zero_le _, fun f hf => by cases hf⟩
  obtain ⟨new, htrace, hnew⟩ := (steps_notmainInit_early (H := fun _ => True)).of_ok hs
  have hnil : powerOn.trace = [] := rfl
  rw [htrace, hnil, List.append_nil]
  exact (hnew hearly fun _ _ => trivial).2

theorem mapGlobals_vacant (pages : List ℕ) {v : Vm}
    (hv : ∀ p < nVirtPages, ¬ (v.table childAsid p).Private ∧
      ((v.table childAsid p).tag ≠ 0 → (v.table childAsid p).Valid)) :
    ∀ p < nVirtPages, ¬ ((pages.foldl Vm.mapGlobal v).table childAsid p).Private ∧
      (((pages.foldl Vm.mapGlobal v).table childAsid p).tag ≠ 0 →
        ((pages.foldl Vm.mapGlobal v).table childAsid p).Valid) := by
  induction pages generalizing v with
  | nil => exact hv
  | cons page pages ih =>
    apply ih
    intro p hp
    unfold Vm.mapGlobal
    rw [setFld_table]
    split
    · exact ⟨identityFld_not_private page, fun _ => rfl⟩
    · exact hv p hp

/-- A child's table starts with global sections only. -/
theorem execInitTable_child (h : execInitTable.run s = .ok () t) :
    ∀ p < nVirtPages, ¬ (t.vm.table childAsid p).Private ∧
      ((t.vm.table childAsid p).tag ≠ 0 → (t.vm.table childAsid p).Valid) := by
  obtain ⟨v, hzero, -, hvm⟩ := execInitTable_vm h
  have hempty : ¬ Fld.zero.Private ∧ (Fld.zero.tag ≠ 0 → Fld.zero.Valid) := by decide
  rw [hvm]
  apply mapGlobals_vacant reservedPages
  intro p hp
  rw [hzero p hp]
  exact hempty

theorem execInitTable_frame (h : execInitTable.run s = .ok () t) :
    t.vm.frame = some ⟨⟨0, 0, childAsid⟩, none⟩ := by
  cases h
  rfl

theorem vacant_execInitTable (hs : KernelHeld ∅ s.vm ∧ Alone s.vm)
    (h : execInitTable.run s = .ok () t) : KernelHeld ∅ t.vm ∧ Vacant t.vm := by
  have hglobal := execInitTable_child h
  have hframe := execInitTable_frame h
  have hidle := hs.2.idle
  refine ⟨?_, ⟨?_, ⟨_, hframe, rfl⟩, fun p hp => (hglobal p hp).1, fun p hp => (hglobal p hp).2, ?_⟩⟩
  · cases h
    exact hs.1.congr rfl rfl rfl
  · cases h
    exact ⟨hidle.ttbr, hidle.currentProc, hidle.kernelProc⟩
  · intro f file hf hfile
    rw [hframe] at hf
    obtain rfl := Option.some.inj hf
    cases hfile

end Start

section Held
variable {last : Option PiFile} {s t : Machine} {H K : Moment → Prop} {L L' : Machine → Prop}

/-- A part of a session that keeps within the limits. -/
theorem along_limited (h : Along Machine.trace Limited K L L' s t) (hlim : ∀ x ∈ t.trace, Limited x) :
    (∀ x ∈ s.trace, Limited x) ∧ (L s → L' t) := by
  obtain ⟨new, htrace, hnew⟩ := h
  rw [htrace] at hlim
  constructor
  · exact fun x hx => hlim x (List.mem_append_right _ hx)
  · exact fun hs => (hnew hs fun x hx => hlim x (List.mem_append_left _ hx)).1

/-- What the kernel holds between two commands. -/
theorem CommandLoop.held (h : CommandLoop last s) (hlim : ∀ x ∈ s.trace, Limited x) :
    (KernelHeld ∅ s.vm ∧ Alone s.vm) ∧
      ∀ file, last = some file → Leftover (windowOf file.nAlloc) s.vm := by
  have hcode : ∀ {α : Type} (m : Kern α) {a : α} {s t : Machine}, UsesPlatform m →
      m.run s = .ok a t → (∀ x ∈ t.trace, Limited x) → (∀ x ∈ s.trace, Limited x) ∧
        (KernelHeld ∅ s.vm ∧ Alone s.vm → KernelHeld ∅ t.vm ∧ Alone t.vm) := by
    intro α m a s t hm hrun hlim
    have hsteps := Steps.of_platform (stable_onVm _) hm
      (steps_kernelSbrk_held alone_kernelStable fun _ v hheld hv => hv.guarded hheld)
    exact along_limited (hsteps.of_ok hrun) hlim
  induction h with
  | boot hrun => exact ⟨notmainInit_held hrun, fun _ h => by cases h⟩
  | code m _ hm hrun ih =>
    obtain ⟨hbefore, hkeep⟩ := hcode m hm hrun hlim
    exact ⟨hkeep (ih hbefore).1, fun _ h => by cases h⟩
  | still m _ hm hrun hvm ih =>
    obtain ⟨hbefore, -⟩ := hcode m hm hrun hlim
    rw [hvm]
    exact ih hbefore
  | run disk fuel fs entry sbrks _ hinit hopen hchild ih =>
    rename_i last s s₁ s₂ t file hloop
    have hgrown : Along Machine.trace Limited (fun _ => True) (fun _ => True) (fun _ => True) s₂ t :=
      ((growing_execChild sbrks file).of_ok hchild).mono id id (fun _ _ => trivial) fun _ => id
    have hlim₂ := (along_limited hgrown hlim).1
    obtain ⟨hlim₁, hopened⟩ := along_limited ((steps_execOpen_held disk fuel fs entry).of_ok hopen) hlim₂
    obtain ⟨hlim₀, -⟩ := along_limited (steps_execInitTable_early.of_ok hinit) hlim₁
    obtain ⟨hserving, hdata⟩ := hopened (vacant_execInitTable (ih hlim₀).1 hinit)
    obtain ⟨hheld, hleft⟩ := (along_limited ((steps_execChild_held sbrks hdata).of_ok hchild) hlim).2
      hserving
    refine ⟨hheld, ?_⟩
    intro file' hfile'
    obtain rfl := Option.some.inj hfile'
    exact hleft

/-- `exec_file` behind the set-up of the child's table. -/
theorem steps_execRest_held (disk : Disk) (fuel : ℕ) (fs : Fat32) (entry : Dirent)
    (sbrks : List ℕ) :
    Steps Limited GuardedNow (OnVm fun v => KernelHeld ∅ v ∧ Vacant v)
      (execOpen disk fuel fs entry >>= execChild sbrks) fun _ => OnVm fun v => KernelHeld ∅ v ∧ Alone v := by
  apply Traced.bind (steps_execOpen_held disk fuel fs entry)
  intro file
  apply (Traced.assume (P := file.data = kernelLoadAddr) (growing_execChild sbrks file) _).pre
  · exact fun s hs => hs
  · intro hdata
    exact (steps_execChild_held sbrks hdata).post fun _ s hs => hs.1

/-- A file that its chain covers, and that fits below the load window, is read within the limits. -/
theorem fat32ReadFile_limited {e n : ℕ} {size : FatSize} {cs : List ℕ} {fuel : ℕ} {d : Dirent}
    {fs : Fat32} (disk : Disk) (hs : KernelHeld ∅ s.vm ∧ Alone s.vm)
    (h : HeapAt e s) (hchain : Chain fs size d.clusterId cs) (hspc : 1 ≤ fs.sectorsPerCluster)
    (hfuel : cs.length < fuel) (hn : cs.length * fs.sectorsPerCluster * 512 = n)
    (hdata : d.nbytes ≤ n) (hfits : s.cursor + n ≤ kernelLoadAddr)
    (hroom : s.cursor + n ≤ (e + (freeSecs s.vm).card) * 2 ^ 20) (hlim : ∀ x ∈ s.trace, Limited x) :
    ∃ s₁ s₂ data cksum, execInitTable.run s = .ok () s₁ ∧
      (fat32ReadFile kernel disk fuel fs d).run s₁ = .ok ⟨data, cksum, n, d.nbytes⟩ s₂ ∧
      (∀ x ∈ s₂.trace, Limited x) ∧ KernelHeld ∅ s₂.vm ∧ Vacant s₂.vm := by
  have hload : kernelLoadAddr = 0x100 * 2 ^ 20 := rfl
  have hlow : e * 2 ^ 20 ≤ kernelLoadAddr := by
    rw [← h.heapEnd]
    exact hs.1.below
  obtain ⟨s₁, hinit⟩ := execInitTable_ok s
  obtain ⟨h₁, hcursor, hfree⟩ := h.execInitTable hinit
  have hearly : Early s.vm := by
    refine ⟨hs.1.below, ?_⟩
    intro f hf
    rw [hs.2.frame] at hf
    cases hf
  obtain ⟨new, htrace, hnew⟩ := (steps_execInitTable_early (H := fun _ => True)).of_ok hinit
  obtain ⟨hearly₁, hnew⟩ := hnew hearly fun _ _ => trivial
  have hlim₁ : ∀ x ∈ s₁.trace, Limited x := by
    intro x hx
    rw [htrace] at hx
    exact (List.mem_append.mp hx).elim (hnew x) (hlim x)
  rw [← hcursor] at hfits hroom
  rw [← hfree] at hroom
  have hpast : s₁.cursor + n + 2 ^ 20 ≤ 2 ^ 32 := by omega
  obtain ⟨k, s₂, cksum, hread, hext, -, -, -, hleast, hbelow, -⟩ :=
    fat32ReadFile_run disk fs size d cs fuel h₁ hchain hspc hfuel (by rw [hn]; exact hroom)
      (by rw [hn]; exact hpast) (by rw [hn]; exact hdata)
  rw [hn] at hread hleast
  have htop : (e + k) * 2 ^ 20 ≤ kernelLoadAddr := by
    have hpages : e + k ≤ 0x100 := by
      have hlow' : e ≤ 0x100 := Nat.le_of_mul_le_mul_right hlow (by decide)
      clear hroom hlow
      omega
    exact Nat.mul_le_mul_right (2 ^ 20) hpages
  have hlim₂ : ∀ x ∈ s₂.trace, Limited x := by
    obtain ⟨new, htrace, hnew⟩ := hbelow
    intro x hx
    rw [htrace] at hx
    rcases List.mem_append.mp hx with hx | hx
    · obtain ⟨htame', hbreak, hframe⟩ := hnew x hx
      have hx' : Early x.2 := ⟨Nat.le_trans hbreak htop, by rw [hframe]; exact hearly₁.file⟩
      exact ⟨htame', hx'.limits⟩
    · exact hlim₁ x hx
  have hheld := (along_limited ((steps_fat32ReadFile_held disk fuel fs d).of_ok hread) hlim₂).2
    (vacant_execInitTable hs hinit)
  exact ⟨s₁, s₂, _, cksum, hinit, hread, hlim₂, hheld.1⟩

/-- What is run then keeps within them whatever the program does, as long as no store goes through a
global descriptor. -/
theorem execFile_limited {e n : ℕ} {size : FatSize} {cs : List ℕ} {fuel : ℕ} {d : Dirent}
    {fs : Fat32} (disk : Disk) (sbrks : List ℕ) (hs : KernelHeld ∅ s.vm ∧ Alone s.vm)
    (h : HeapAt e s) (hchain : Chain fs size d.clusterId cs) (hspc : 1 ≤ fs.sectorsPerCluster)
    (hfuel : cs.length < fuel) (hn : cs.length * fs.sectorsPerCluster * 512 = n)
    (hdata : d.nbytes ≤ n) (hfits : s.cursor + n ≤ kernelLoadAddr)
    (hroom : s.cursor + n ≤ (e + (freeSecs s.vm).card) * 2 ^ 20)
    (hlim : ∀ x ∈ s.trace, Limited x)
    (htame : ∀ x ∈ (endState ((execFile disk fuel fs d sbrks).run s)).trace, Tame x) :
    ∀ x ∈ (endState ((execFile disk fuel fs d sbrks).run s)).trace, Limited x := by
  obtain ⟨s₁, s₂, data, cksum, hinit, hread, hlim₂, hheld⟩ :=
    fat32ReadFile_limited disk hs h hchain hspc hfuel hn hdata hfits hroom hlim
  have hrest : Steps Tame GuardedNow (OnVm fun v => KernelHeld ∅ v ∧ Vacant v)
      (execLoadFile ⟨data, cksum, n, d.nbytes⟩ >>= execChild sbrks) fun _ _ => True := by
    have halloc : n ≤ 0x30000000 :=
      Nat.le_trans (Nat.le_add_left _ _) (Nat.le_trans hfits (by decide))
    apply Traced.bind (Q := fun file s => (Serving .kernel (windowOf n) s.vm ∧
      s.vm.ttbr = kernelAsid) ∧ file.data = kernelLoadAddr)
    · apply (steps_execLoadFile_held halloc hdata).post
      intro file s hs
      obtain ⟨hserving, rfl⟩ := hs
      exact ⟨hserving, rfl⟩
    · intro file
      apply Traced.assume (growing_execChild sbrks file)
      intro hwindow
      exact (steps_execChild_held (n := n) sbrks hwindow).post fun _ _ _ => trivial
  have hend : (execFile disk fuel fs d sbrks).run s =
      (execLoadFile ⟨data, cksum, n, d.nbytes⟩ >>= execChild sbrks).run s₂ := by
    rw [execFile_eq, bind_ok hinit]
    unfold execOpen
    rw [bind_assoc, bind_ok hread]
  rw [hend] at htame ⊢
  obtain ⟨last, htrace', hlast⟩ := hrest.at_end s₂
  rw [htrace'] at htame ⊢
  have hkept := (hlast hheld fun x hx => htame x (List.mem_append_left _ hx)).2
  intro x hx
  rcases List.mem_append.mp hx with hin | hin
  · exact ⟨htame x hx, (hkept x hin).limits⟩
  · exact hlim₂ x hin

/-- The child stays isolated at every moment from the set-up of its table to the end of
`exec_file`, after whatever has been run before, if no store goes through a global descriptor. -/
theorem child_isolated (h : CommandLoop last s) (disk : Disk) (fuel : ℕ) (fs : Fat32) (entry : Dirent)
    (sbrks : List ℕ)
    (hlim : ∀ x ∈ (endState ((execFile disk fuel fs entry sbrks).run s)).trace, Limited x) :
    ∃ s₁, execInitTable.run s = .ok () s₁ ∧ Isolated s₁.vm ∧
      ∀ x ∈ since Machine.trace s₁ (endState ((execFile disk fuel fs entry sbrks).run s)),
        x.2.frame.isSome → Isolated x.2 := by
  obtain ⟨s₁, hinit⟩ := execInitTable_ok s
  rw [execFile_eq, bind_ok hinit] at hlim ⊢
  have hrest := (steps_execRest_held disk fuel fs entry sbrks).at_end s₁
  have hlim₁ := (along_limited hrest hlim).1
  have hlim₀ := (along_limited (steps_execInitTable_early.of_ok hinit) hlim₁).1
  have hvacant := vacant_execInitTable (h.held hlim₀).1 hinit
  refine ⟨s₁, hinit, .of_vacant hvacant.2.none, ?_⟩
  intro x hx hsome
  have hnew := (hrest.elim hvacant fun y hy => hlim y (List.mem_of_mem_take hy)).2
  exact (hnew x hx).isolated hsome

theorem child_isolated_oneSegment : ∃ s, notmainInit.run powerOn = .ok () s ∧
    ∃ s₁, execInitTable.run s = .ok () s₁ ∧ Isolated s₁.vm ∧
      ∀ x ∈ since Machine.trace s₁ (endState ((execFile (sectorDisk (oneSegment 0x400000 16)) 2
        sectorFs (sectorFile (oneSegment 0x400000 16)) [0x100000]).run s)),
        x.2.frame.isSome → Isolated x.2 := by
  obtain ⟨s, hboot, hheap, hfree, hcursor, -⟩ := notmainInit_run powerOn rfl
  have hlen : (oneSegment 0x400000 16).length = 170 := length_oneSegment _ _
  have hplan : (fileView (oneSegment 0x400000 16)).elfLoad kernelLoadAddr 170 =
      .map 0x400000 16 (.setHeapStart 0 (.ret (some
        [.copy 0x400000 kernelLoadAddr 16, .jump 0x400000]))) := by rfl
  have hchain : Chain sectorFs ⟨8, by decide⟩ 5 [5] := .last (by omega) (by decide) (by decide)
  have hboot' := notmainInit_limited hboot
  have htame := tameTo_segment [0x100000] (by rw [hlen]; decide) (by rw [hlen]; exact hplan) (by decide) hheap
    (by decide) (by rw [hcursor]; decide) (by rw [hfree, Nat.card_Ico]; decide)
  have hlim := execFile_limited (sectorDisk (oneSegment 0x400000 16)) [0x100000]
    (d := sectorFile (oneSegment 0x400000 16)) (notmainInit_held hboot) hheap hchain (by decide)
    (by decide : 1 < 2) rfl (by change (oneSegment 0x400000 16).length ≤ _; rw [hlen]; decide)
    (by rw [hcursor]; decide) (by rw [hcursor, hfree, Nat.card_Ico]; decide) hboot'
    (htame.all fun x hx => (hboot' x hx).1)
  exact ⟨s, hboot, child_isolated (.boot hboot) _ _ _ _ _ hlim⟩

end Held

section Refuted
variable {a : ℕ} {s t : Machine}

/-- An executable of 16 bytes of code at 0x400000. A byte of its .bss is where a kernel whose map is at
0x10000 keeps the owner of the first section of the translation tables. Its heap starts at 0x500000. -/
def ownerProgram (code : List UInt8) : List UInt8 :=
  [0x7f, 0x45, 0x4c, 0x46] ++ List.replicate 12 0 ++ word 2 ++ word 1 ++ word 0x400000 ++ word 52 ++
    word 84 ++ word 0 ++ word 0x200034 ++ word 0x280001 ++ word 4 ++
    (word ptLoad ++ word 256 ++ word 0x400000 ++ word 0x400000 ++ word 16 ++ word 16 ++ word 5 ++ word 4) ++
    (word 0 ++ word shtSymtab ++ word 0 ++ word 0 ++ word 244 ++ word 16 ++ word 0 ++ word 0 ++
      word 4 ++ word 16) ++
    (word 0 ++ word shtProgbits ++ word 0 ++ word 0x400000 ++ word 256 ++ word 16 ++ word 0 ++ word 0 ++
      word 4 ++ word 0) ++
    (word 6 ++ word shtNobits ++ word 0 ++ word 0x10001 ++ word 0 ++ word 1 ++ word 0 ++ word 0 ++
      word 1 ++ word 0) ++
    (word 6 ++ word shtNobits ++ word 0 ++ word 0x500000 ++ word 0 ++ word 0 ++ word 0 ++ word 0 ++
      word 1 ++ word 0) ++ textName ++ [0] ++ bssName ++ [0, 0] ++ code

/-- `push {r4, lr}`, `mov r0, #0x100000`, `svc 1`, `pop {r4, pc}`. -/
def sbrkCode : List UInt8 := word 0xE92D4010 ++ word 0xE3A00601 ++ word 0xEF000001 ++ word 0xE8BD8010

/-- `bx lr`. -/
def returnCode : List UInt8 := word 0xE12FFF1E ++ List.replicate 12 0

def ownerInstrs : List LoadInstr :=
  [.copy 0x400000 (kernelLoadAddr + 256) 16, .zero 0x10001 1, .zero 0x500000 0, .jump 0x400000]

/-- What `elf_load` does for it. -/
structure OwnerCode (code : List UInt8) : Prop where
  length : (ownerProgram code).length = 272
  plan : (fileView (ownerProgram code)).elfLoad kernelLoadAddr 272 = .map 0x400000 16
    (.map 0x10001 1 (.map 0x500000 0 (.setHeapStart 0x500000 (.ret (some ownerInstrs)))))

theorem length_ownerProgram {code : List UInt8} (hcode : code.length = 16) :
    (ownerProgram code).length = 272 := by
  have hword : ∀ x, (word x).length = 4 := fun _ => rfl
  unfold ownerProgram textName bssName
  simp only [List.length_append, hword, List.length_replicate, List.length_cons, List.length_nil, hcode]

theorem ownerCode_sbrkCode : OwnerCode sbrkCode := by
  refine ⟨length_ownerProgram rfl, ?_⟩
  rfl

theorem ownerCode_returnCode : OwnerCode returnCode := by
  refine ⟨length_ownerProgram rfl, ?_⟩
  rfl

/-- The linker's choice. -/
abbrev MapAt (a : ℕ) (s : Machine) : Prop := s.mapAddr = a

theorem stable_mapAt : Stable (fun _ => True) (fun _ => True) (MapAt a) :=
  ⟨⟨fun _ _ hs => hs, fun _ _ _ hs _ => ⟨hs, trivial⟩⟩, fun _ _ hs => hs⟩

theorem steps_mmuMapToMem_mapAt (pt : Asid) (addr size : ℕ) (sync : Bool) :
    Steps (fun _ => True) (fun _ => True) (MapAt a) (mmuMapToMem pt addr size sync) fun _ => MapAt a := by
  apply Traced.forM_keeps
  intro page _
  apply Steps.mapPage (fun _ => MapAt a) (fun _ => MapAt a) (fun _ => MapAt a)
  · exact fun _ _ _ _ _ hs _ => ⟨hs, trivial⟩
  · exact fun _ _ _ _ hs _ => ⟨hs, trivial⟩
  · exact fun _ _ _ hs _ => ⟨hs, trivial⟩
  · exact fun _ _ _ hs => hs
  · exact fun _ _ hs _ => ⟨hs, trivial⟩

theorem steps_kernelSbrk_mapAt (incr : ℕ) :
    Steps (fun _ => True) (fun _ => True) (MapAt a) (kernelSbrk incr) fun _ => MapAt a := by
  have hswitch : ∀ procid pt, Steps (fun _ => True) (fun _ => True) (MapAt a)
      (setProcidTtbr0 procid pt) fun _ => MapAt a := by
    intro procid pt
    apply Steps.setProcidTtbr0 (MapAt a) (MapAt a)
    all_goals exact fun _ hs _ => ⟨hs, trivial⟩
  apply Steps.kernelSbrk (A := fun _ => True) fun _ _ => trivial
  intro v _
  have hof : Steps (fun _ => True) (fun _ => True) (MapAt a)
      (sbrkOf v.currentProc (v.proc v.currentProc) incr)
      fun r s => MapAt a s ∧ r = (s.vm.proc v.currentProc).heapEnd := by
    apply Steps.sbrkOf (MapAt a) (MapAt a) (MapAt a) (MapAt a) (MapAt a)
    · exact fun _ => hswitch _ _
    · exact fun _ _ hs => hs
    · exact steps_mmuMapToMem_mapAt _ _ _ _
    · exact fun _ => hswitch _ _
    · exact fun _ _ hs => hs
    · exact .of_still stable_mapAt (still_memset _ _ _)
    · exact fun _ _ hs _ => ⟨hs, trivial⟩
    · exact fun _ _ hs => hs
    · exact fun _ hs _ => ⟨hs, trivial⟩
  exact hof.conseq (fun _ hs => hs.1) fun _ _ hs => hs.1

theorem steps_execOpen_mapAt (disk : Disk) (fuel : ℕ) (fs : Fat32) (entry : Dirent) :
    Steps (fun _ => True) (fun _ => True) (MapAt a) (execOpen disk fuel fs entry) fun _ => MapAt a := by
  apply Traced.bind ((Steps.fat32ReadFile disk fuel fs entry stable_mapAt steps_kernelSbrk_mapAt).post
    fun _ _ hs => hs.1)
  intro file
  have hload : Steps (fun _ => True) (fun _ => True) (MapAt a) (execLoadFile file) fun f s =>
      MapAt a s ∧ f = { file with data := kernelLoadAddr } := by
    apply Steps.execLoadFile (MapAt a) (MapAt a) (MapAt a) (MapAt a)
    · exact fun _ hs _ => ⟨hs, trivial⟩
    · exact steps_mmuMapToMem_mapAt _ _ _ _
    · exact .of_still stable_mapAt (still_memcpy _ _ _)
    · apply Traced.forM_keeps
      intro page _
      apply Steps.sharePage
      · exact fun _ _ _ hs _ => ⟨hs, trivial⟩
      · exact fun _ hs _ => ⟨hs, trivial⟩
  exact hload.post fun _ _ hs => hs.1

/-- At a moment between `s` and `t` there is a child that is not isolated. -/
def Exposed (s t : Machine) : Prop :=
  ∃ x later old, t.trace = later ++ x :: (old ++ s.trace) ∧ x.2.frame.isSome ∧ ¬ Isolated x.2

namespace Exposed
variable {α β : Type} {m : Kern α} {f : α → Kern β} {b : α} {s t u : Machine}

theorem before (h : Extends Machine.trace s t) (h' : Exposed t u) : Exposed s u := by
  obtain ⟨new, hnew⟩ := h
  obtain ⟨x, later, old, htrace, hx⟩ := h'
  exact ⟨x, later, old ++ new, by rw [htrace, hnew, List.append_assoc], hx⟩

theorem after (h : Exposed s t) (h' : Extends Machine.trace t u) : Exposed s u := by
  obtain ⟨x, later, old, htrace, hx⟩ := h
  obtain ⟨new, hnew⟩ := h'
  exact ⟨x, new ++ later, old, by rw [hnew, htrace, List.append_assoc], hx⟩

/-- The first part of a run does it. -/
theorem bind (hf : ∀ a, Growing (f a)) (h : Exposed s (endState (m.run t))) :
    Exposed s (endState ((m >>= f).run t)) := by
  cases hr : m.run t with
  | ok a u =>
    rw [hr] at h
    rw [bind_ok hr]
    exact h.after ((hf a).extends_end u)
  | error e u =>
    rw [hr] at h
    rwa [bind_error hr]

theorem mem_since (h : Exposed s t) : ∃ x ∈ since Machine.trace s t, x.2.frame.isSome ∧ ¬ Isolated x.2 := by
  obtain ⟨x, later, old, htrace, hx⟩ := h
  have hsince : since Machine.trace s t = later ++ x :: old :=
    since_eq (by rw [htrace, List.append_assoc, List.cons_append])
  exact ⟨x, by rw [hsince]; exact List.mem_append_right _ List.mem_cons_self, hx⟩

end Exposed

/-- A program gets the first section of the translation tables if nobody owns it. -/
theorem kernelSbrk_exposed {start brk incr page : ℕ} (hfirst : s.vm.paddrToAsidMap 1 = 0)
    (hcur : s.vm.currentProc = .child) (hframe : s.vm.frame.isSome)
    (hproc : s.vm.proc .child = ⟨start, brk, childAsid⟩) (hincr : incr ≠ 0)
    (hpages : pageRange brk incr = [page]) (hpage : page < nVirtPages) :
    Exposed s (endState ((kernelSbrk incr).run s)) := by
  let w := ((s.step .update ({ · with asid := 0 })).step .update ({ · with ttbr := kernelAsid })).step
    .update ({ · with asid := kernelAsid })
  have hget : getVm.run s = .ok s.vm s := rfl
  have hswitch : (setProcidTtbr0 kernelAsid kernelAsid).run s = .ok () w := rfl
  have hfree : Free w.vm 1 := ⟨by decide, by decide, hfirst⟩
  have hmap : (mapPage childAsid true page).run w = .ok () (w.mapRam childAsid page 1 true) :=
    mapPage_found page (findAvailablePage_first hfirst) hfree
  have hgiven : Exposed s (w.mapRam childAsid page 1 true) := by
    refine ⟨(.ret .mmuMapSection, w.vm.mapRam childAsid page 1 true), [], [_, _, _, _, _, _], rfl, hframe, ?_⟩
    intro hisolated
    have hsec : ((w.vm.mapRam childAsid page 1 true).table childAsid page).sec = 1 := by
      rw [mapRam_table, if_pos ⟨rfl, rfl⟩]
      exact ramFld_sec (by decide)
    have hown : page ∈ (w.vm.mapRam childAsid page 1 true).ownPages := by
      refine ⟨hpage, ?_, ?_⟩
      · rw [mapRam_table, if_pos ⟨rfl, rfl⟩]
        exact ramFld_private
      · rw [mapRam_flags, if_pos ⟨rfl, rfl⟩]
    have hreserved := hisolated.reserved page hown
    rw [hsec] at hreserved
    exact absurd hreserved (by decide)
  rw [kernelSbrk_eq, bind_ok hget, bind_ok hget, hcur, hproc]
  unfold sbrkOf
  rw [if_pos hincr, if_pos (by decide), bind_ok hswitch]
  apply Exposed.bind
  · intro _
    have htail : Growing (do
        memset mmu brk 0 incr
        perform .update (·.setHeapEnd (add32 brk incr) .child)
        let heapEnd := ((← getVm).proc .child).heapEnd
        perform (.ret .kernelSbrk) id
        return heapEnd) := by
      refine growing_bind (growing_still (still_memset _ _ _)) fun _ => ?_
      refine growing_bind (growing_perform _ _) fun _ => growing_bind growing_getVm fun _ => ?_
      exact growing_bind (growing_perform _ _) fun _ => growing_pure _
    exact growing_ite (growing_bind (growing_setProcidTtbr0 _ _) fun _ => htail) htail
  · unfold mmuMapToMem
    rw [hpages, List.forM_cons, bind_ok hmap]
    exact hgiven

/-- The child's table has got pages that are not reserved. -/
theorem Opening.grown {v w : Vm} {h : ℕ} {pages : List ℕ} (hv : Opening h v) (hw : Grown v w childAsid pages)
    (hpages : ∀ p ∈ pages, p ∉ reservedPages) : Opening h w := by
  refine ⟨⟨?_, ?_, ?_⟩, ⟨hw.ttbr.trans hv.idle.ttbr, hw.currentProc.trans hv.idle.currentProc, ?_⟩⟩
  · rw [hw.kernelProc]
    exact hv.kernelProc
  · rw [hw.frame]
    exact hv.childProc
  · intro page hpage
    rw [hw.table childAsid page fun hin => hpages page hin.2 hpage]
    exact hv.reserved page hpage
  · rw [hw.kernelProc]
    exact hv.idle.kernelProc

/-- The program's code has a page of its own, and the file can be read. -/
structure OwnerReady (s : Machine) : Prop where
  opening : Opening 0x500000 s.vm
  mapAddr : s.mapAddr = 0x10000
  code : (s.vm.table childAsid 4).Private
  window : (s.vm.table childAsid 0x800).Valid

/-- The program is about to run, and the byte of .bss has taken the owner away. -/
structure OwnerRunning (s u : Machine) : Prop where
  past : Extends Machine.trace s u
  table : u.vm.table = s.vm.table
  kernelProc : u.vm.kernelProc = s.vm.kernelProc
  currentProc : u.vm.currentProc = .child
  frame : u.vm.frame.isSome
  proc : u.vm.proc .child = ⟨0x500000, 0x500000, childAsid⟩
  first : u.vm.paddrToAsidMap 1 = 0

theorem execLoaded_owner (h : OwnerReady s) (sbrks : List ℕ) :
    ∃ u, OwnerRunning s u ∧ (execLoaded sbrks (some ownerInstrs)).run s = (do
      runProgram sbrks
      perform .update ({ · with currentProc := .kernel })
      setProcidTtbr0 kernelAsid kernelAsid
      mmuInvAsid childAsid).run u := by
  let w := ((s.step .update ({ · with asid := 0 })).step .update ({ · with ttbr := childAsid })).step
    .update ({ · with asid := childAsid })
  have hswitch : (setProcidTtbr0 childAsid childAsid).run s = .ok () w := rfl
  have hsrc : ∀ i < 16, w.vm.Mapped (0x80000100 + i) := by
    intro i hi
    have hpage : (0x80000100 + i) % 2 ^ 32 / 2 ^ 20 = 0x800 := by omega
    unfold Vm.Mapped Vm.fldAt
    rw [hpage]
    exact h.window
  have hdst : ∀ i < 16, (w.vm.fldAt ((0x400000 + i) % 2 ^ 32)).Private := by
    intro i hi
    have hpage : (0x400000 + i) % 2 ^ 32 / 2 ^ 20 = 4 := by omega
    unfold Vm.fldAt
    rw [hpage]
    exact h.code
  obtain ⟨_, c, hmemcpy, hvm, htrace⟩ := (needs_memcpy 0x400000 0x80000100 16 hdst).1 hsrc w rfl
  have hat : c.mapAddr = 0x10000 :=
    (((still_memcpy 0x400000 0x80000100 16 stable_mapAt.toMemStable).of_ok hmemcpy).elim h.mapAddr
      fun _ _ => trivial).1
  have hcopy : (execLoadInstr sbrks (.copy 0x400000 (kernelLoadAddr + 256) 16)).run w = .ok true c :=
    bind_ok hmemcpy
  let z := ({ c with mem := Function.update c.mem 0x10001 0 } : Machine).step .wild
    (·.poke c.mapAddr 0x10001 0)
  have hz : z.vm = w.vm.setOwner 1 0 := by
    change c.vm.poke c.mapAddr 0x10001 0 = _
    rw [hat, hvm]
    rfl
  have hzero : c.vm.fldAt (0x10001 % 2 ^ 32) = identityFld 0 := by
    rw [hvm]
    exact h.opening.reserved 0 (by decide)
  have hclear : (memset mmu 0x10001 0 1).run c = .ok () z := by
    have hstore : (mmu.store 0x10001 0).run c = .ok () z :=
      storeByte_global 0 (by rw [hzero]; decide) (by rw [hzero]; decide)
    have hone : add32 0x10001 1 - 0x10001 = 1 := rfl
    unfold memset fillBytes
    rw [hone]
    exact bind_ok hstore
  have hbss : (execLoadInstr sbrks (.zero 0x10001 1)).run c = .ok true z := bind_ok hclear
  have hempty : (execLoadInstr sbrks (.zero 0x500000 0)).run z = .ok true z := rfl
  obtain ⟨f, hf, hasid, hstart⟩ := h.opening.childProc
  let u := (z.step .update (·.setHeapEnd 0x500000 .child)).step .update ({ · with currentProc := .child })
  have hframe : z.vm.frame = some f := by
    rw [hz]
    exact hf
  have hframe' : u.vm.frame = some { f with proc := ⟨f.proc.heapStart, 0x500000, f.proc.asid⟩ } :=
    congrArg (Option.map _) hframe
  have hjump : (execLoadInstr sbrks (.jump 0x400000)).run z = (do
      runProgram sbrks
      perform .update ({ · with currentProc := .kernel })
      return true).run u := by
    have hget : ∀ s : Machine, getVm.run s = .ok s.vm s := fun _ => rfl
    have hbrk : (perform .update (·.setHeapEnd 0x500000 .child)).run z =
      .ok () (z.step .update (·.setHeapEnd 0x500000 .child)) := rfl
    have hturn : (perform .update ({ · with currentProc := .child })).run
      (z.step .update (·.setHeapEnd 0x500000 .child)) = .ok () u := rfl
    have hkernel : (z.step .update (·.setHeapEnd 0x500000 .child)).vm.currentProc = .kernel := by
      change z.vm.currentProc = .kernel
      rw [hz]
      exact h.opening.idle.currentProc
    have hchild : (z.vm.proc .child).heapStart = 0x500000 := by rw [proc_child hframe, hstart]
    unfold execLoadInstr
    dsimp only
    rw [bind_ok (hget _), hchild, if_neg (by decide), bind_ok hbrk, bind_ok (hget _), hkernel, bind_ok hturn]
  refine ⟨u, ⟨?_, ?_, ?_, rfl, ?_, ?_, ?_⟩, ?_⟩
  · have hw : Extends Machine.trace s w := ⟨[_, _, _], rfl⟩
    have hc : Extends Machine.trace w c := ⟨[], htrace⟩
    exact (hw.trans hc).trans ⟨[_, _, _], rfl⟩
  · change z.vm.table = _
    rw [hz]
    rfl
  · change z.vm.kernelProc = _
    rw [hz]
    rfl
  · rw [hframe']
    rfl
  · rw [proc_child hframe', hstart, hasid]
  · change z.vm.paddrToAsidMap 1 = 0
    rw [hz]
    rfl
  · unfold execLoaded
    dsimp only
    rw [bind_ok hswitch]
    unfold ownerInstrs
    rw [execLoadInstrs, bind_assoc, bind_ok hcopy, if_pos rfl, execLoadInstrs, bind_assoc, bind_ok hbss,
      if_pos rfl, execLoadInstrs, bind_assoc, bind_ok hempty, if_pos rfl, execLoadInstrs, bind_assoc,
      EStateM.run_bind, hjump, ← EStateM.run_bind]
    simp only [bind_assoc, pure_bind, if_true, execLoadInstrs]

/-- A program that is started then is given the first section of the translation tables when it asks for
memory. -/
theorem execLoaded_exposed (h : OwnerReady s) :
    Exposed s (endState ((execLoaded [0x100000] (some ownerInstrs)).run s)) := by
  obtain ⟨u, hu, hrun⟩ := execLoaded_owner h [0x100000]
  have hsbrk : Exposed u (endState ((kernelSbrk 0x100000).run u)) :=
    kernelSbrk_exposed hu.first hu.currentProc hu.frame hu.proc (by decide) (by decide : _ = [5]) (by decide)
  rw [hrun]
  apply Exposed.before hu.past
  apply Exposed.bind
  · intro _
    refine growing_bind (growing_perform _ _) fun _ => growing_bind (growing_setProcidTtbr0 _ _) fun _ => ?_
    exact growing_perform _ _
  · unfold runProgram
    rw [List.forM_cons]
    exact .bind (fun _ => growing_pure _) (.bind (fun _ => growing_pure _) hsbrk)

theorem WithinLimits.map_frame {v : Vm} (h : WithinLimits v) {g : ExecFrame → ExecFrame}
    (hg : ∀ f, (g f).file = f.file) : WithinLimits { v with frame := v.frame.map g } := by
  refine ⟨h.heap, ?_⟩
  intro f file hf hfile
  obtain ⟨f', hf', rfl⟩ := Option.map_eq_some_iff.mp hf
  rw [hg] at hfile
  exact h.file f' file hf' hfile

/-- What is done for the child changes neither the kernel's heap nor the file. -/
theorem limits_childStable : ChildStable (WithChild WithinLimits) WithinLimits := by
  apply WithChild.stable
  · exact fun v sec hv => ⟨hv.heap, hv.file⟩
  · exact fun v page sec sync hv => ⟨hv.heap, hv.file⟩
  · exact fun v a t pid hv => ⟨hv.heap, hv.file⟩
  · exact fun v g hg hv => hv.map_frame hg
  · exact fun v hv => hv

theorem steps_execChild_limits (sbrks : List ℕ) {file : PiFile} (hdata : file.data = kernelLoadAddr) :
    Steps (fun _ => True) (InVm WithinLimits) (fun s => WithChild WithinLimits .kernel s.vm ∧
      s.vm.ttbr = kernelAsid) (execChild sbrks file) fun _ => OnVm WithinLimits := by
  have hset : ∀ pid, Stable (fun _ => True) (InVm WithinLimits) (OnVm (WithChild WithinLimits pid)) :=
    fun pid => stable_setOwner
      (fun _ _ _ hv => ⟨hv.child, hv.currentProc, hv.kept.heap, hv.kept.file⟩) fun _ hv => hv.kept
  unfold execChild
  apply Traced.bind (limits_childStable.execProgram_stable hset sbrks hdata)
  intro _
  have hclose : Steps (fun _ => True) (InVm WithinLimits) (OnVm WithinLimits) execClose fun _ =>
      OnVm WithinLimits :=
    .execClose (fun _ _ hv => ⟨hv.heap, hv.file⟩) (fun _ hv => ⟨hv.heap, nofun⟩) (fun _ => id) fun _ => id
  exact hclose.pre fun s hs => hs.1.kept

/-- The file is open. -/
structure OwnerOpened (code : List UInt8) (e : ℕ) (file : PiFile) (t : Machine) : Prop where
  data : file.data = kernelLoadAddr
  nData : file.nData = 272
  holds : t.Holds kernelLoadAddr (ownerProgram code)
  opening : Opening 0 t.vm
  mapAddr : t.mapAddr = 0x10000
  window : (t.vm.table childAsid 0x800).Valid
  room : 1 ≤ (freeSecs t.vm).card
  heap : HeapAt e t
  lo : 5 ≤ e
  hi : e ≤ 0x100
  globals : ∀ page ∈ reservedPages, t.vm.table kernelAsid page = identityFld page

/-- A kernel that has just started opens it, as any other file. -/
theorem ownerProgram_opened {code : List UInt8} (h : OwnerCode code) (mem : ℕ → UInt8) :
    ∃ (s s₁ t : Machine) (file : PiFile) (e : ℕ), notmainInit.run { powerOn with mem := mem } = .ok () s ∧
      s.mem = mem ∧ execInitTable.run s = .ok () s₁ ∧
      (execOpen (sectorDisk (ownerProgram code)) 2 sectorFs (sectorFile (ownerProgram code))).run s₁ =
        .ok file t ∧ TameTo s₁ t ∧ OwnerOpened code e file t := by
  let m : Machine := { powerOn with mem := mem }
  obtain ⟨s, hboot, hheap, hfree, hcursor, -⟩ := notmainInit_run m rfl
  obtain ⟨s', hboot', -, htable, -⟩ := notmainInit_table m
  obtain rfl := (EStateM.Result.ok.inj (hboot.symm.trans hboot')).2
  have hmem : s.mem = mem := by
    cases hboot
    rfl
  have hn : (sectorFile (ownerProgram code)).nbytes = 272 := h.length
  have hsize : (ownerProgram code).length ≤ 512 := by
    rw [h.length]
    decide
  have hchain : Chain sectorFs ⟨8, by decide⟩ 5 [5] := .last (by omega) (by decide) (by decide)
  obtain ⟨t', file', hopen', hdata, hlen, hholds, hleft, -, -⟩ := execOpen_sector (ownerProgram code) hsize
    hheap (by decide) (by rw [hcursor]; decide) (by rw [hfree, Nat.card_Ico]; decide)
  obtain ⟨s₁, hinit⟩ := execInitTable_ok s
  obtain ⟨h₁, hcursor₁, hfree₁⟩ := hheap.execInitTable hinit
  obtain ⟨k, t, w, v, cksum, hopen, hext, hlow, hgrown, hvm, ht, -, -, htame⟩ :=
    execOpen_run (n := 512) (sectorDisk (ownerProgram code)) sectorFs _ (sectorFile (ownerProgram code)) [5] 2
      h₁ hchain (by decide) (by decide) rfl (by rw [hn]; decide) (by decide)
      (by rw [hcursor₁, hcursor]; decide) (by rw [hfree₁, hfree, Nat.card_Ico]; decide)
  obtain ⟨-, hchild, -, -⟩ := execOpen_childOpened hheap.idle hopen'
  rw [bind_ok hinit, hopen] at hopen'
  obtain ⟨rfl, rfl⟩ := EStateM.Result.ok.inj hopen'
  have hkernel₁ : s₁.vm.table kernelAsid = s.vm.table kernelAsid := by
    cases hinit
    rfl
  have hat : s₁.mapAddr = 0x10000 := by
    cases hboot
    cases hinit
    rfl
  have hat' := ((steps_execOpen_mapAt _ _ _ _).of_ok hopen).elim hat fun _ _ => trivial
  have hopening := ((steps_execOpen (sectorDisk (ownerProgram code)) 2 sectorFs (sectorFile (ownerProgram code)) (by
    rw [hn]
    decide)).of_ok hopen).elim (execInitTable_opening hheap.idle hinit) htame.tame
  refine ⟨s, s₁, t, _, 5 + k, hboot, hmem, hinit, hopen, htame, ⟨hdata, hlen.trans h.length, hholds,
    hopening.1.1, hat'.1, ?_, ?_, ht, Nat.le_add_right 5 k, hlow, ?_⟩⟩
  · apply (hchild.valid 0x800 (by decide)).mpr
    rw [hn]
    decide
  · rw [hfree, Nat.card_Ico] at hleft
    have hpages : nPhysPages = 0x200 := rfl
    omega
  · intro page hpage
    have hlt : page < nVirtPages := by
      revert hpage
      revert page
      decide
    have hout : page ∉ List.range' 5 k := by
      have hload : kernelLoadAddr / 2 ^ 20 = 0x100 := rfl
      rw [List.mem_range'_1]
      simp only [reservedPages, List.mem_cons, List.not_mem_nil, or_false] at hpage
      omega
    have hwindow : page ∉ pageRange kernelLoadAddr 512 := by
      have hpages : pageRange kernelLoadAddr 512 = [0x100] := by decide
      rw [hpages, List.mem_singleton]
      rintro rfl
      exact absurd hpage (by decide)
    obtain ⟨x, hgrow, hw⟩ := hext
    rw [hvm, (shareAll_same v _).table _ (by decide), hgrown.table _ _ fun hin => hwindow hin.2]
    change w.table kernelAsid page = _
    rw [hw]
    change x.table kernelAsid page = _
    rw [hgrow.table _ _ fun hin => hout hin.2, hkernel₁, htable page hlt, if_pos hpage]

/-- `elf_load` maps a page for its code. -/
theorem elfLoad_owner {code : List UInt8} {e : ℕ} {file : PiFile} (h : OwnerCode code)
    (ht : OwnerOpened code e file t) :
    ∃ v, (elfLoad kernelLoadAddr 272 childAsid).run t = .ok (some ownerInstrs) v ∧ OwnerReady v ∧
      v.vm.kernelProc = t.vm.kernelProc ∧ (v.vm.table childAsid 4).sec < nPhysPages ∧
      (∀ b p, ¬ (b = childAsid ∧ p = 4) → v.vm.table b p = t.vm.table b p) ∧
      Extends Machine.trace t v := by
  have hview := elfLoad_fileView ht.holds 272 (by intro a; rw [h.plan]; simp [Plan.result])
  rw [h.plan] at hview
  have hpages : pageRange 0x400000 16 = [4] := by decide
  have hsegment := mmuMapToMem_run (by decide : childAsid ≠ 0) 0x400000 16 false t
  rw [hpages] at hsegment
  obtain ⟨v, hmap, hgrown, hmem, hheap⟩ | ⟨hfull, -⟩ := hsegment
  · have hbss : (mmuMapToMem childAsid 0x10001 1 false).run v = .ok () v := rfl
    have hempty : (mmuMapToMem childAsid 0x500000 0 false).run v = .ok () v := rfl
    have hat := ((steps_mmuMapToMem_mapAt childAsid 0x400000 16 false).of_ok hmap).elim ht.mapAddr
      fun _ _ => trivial
    have htable : ∀ b p, ¬ (b = childAsid ∧ p = 4) → v.vm.table b p = t.vm.table b p := by
      intro b p hp
      exact hgrown.table b p (by simpa using hp)
    have hopening : Opening 0 v.vm := ht.opening.grown hgrown (by decide)
    refine ⟨(v.step .update (·.setHeapStart 0x500000)).step (.ret .elfLoad) id, ?_,
      ⟨hopening.setHeapStart 0x500000, hat.1, hgrown.priv 4 (by simp), ?_⟩, hgrown.kernelProc,
      (hgrown.fresh 4 (by simp)).hi, htable, ?_⟩
    · rw [elfLoad_run ht.opening.idle.ttbr hview (by simp)]
      unfold Plan.exec
      rw [bind_assoc, bind_ok hmap]
      unfold Plan.exec
      rw [bind_assoc, bind_ok hbss]
      unfold Plan.exec
      rw [bind_assoc, bind_ok hempty]
      rfl
    · change (v.vm.table childAsid 0x800).Valid
      rw [htable _ _ (by decide)]
      exact ht.window
    · exact ((growing_mmuMapToMem _ _ _ _).extends_ok hmap).trans ⟨[_, _], rfl⟩
  · have hroom := ht.room
    simp only [List.length_singleton] at hfull
    omega

/-- The limits hold all the while. -/
theorem ownerProgram_limits {code : List UInt8} (h : OwnerCode code) {s s₁ t : Machine} {file : PiFile}
    (hboot : notmainInit.run powerOn = .ok () s) (hinit : execInitTable.run s = .ok () s₁)
    (hopen : (execOpen (sectorDisk (ownerProgram code)) 2 sectorFs (sectorFile (ownerProgram code))).run s₁ =
      .ok file t) (htame : TameTo s₁ t) : (∀ x ∈ t.trace, WithinLimits x.2) ∧ WithinLimits t.vm := by
  obtain ⟨s', hboot', hheap, hfree, hcursor, -⟩ := notmainInit_run powerOn rfl
  obtain rfl := (EStateM.Result.ok.inj (hboot.symm.trans hboot')).2
  have hchain : Chain sectorFs ⟨8, by decide⟩ 5 [5] := .last (by omega) (by decide) (by decide)
  have hbytes : (sectorFile (ownerProgram code)).nbytes ≤ 512 := by
    change (ownerProgram code).length ≤ 512
    rw [h.length]
    decide
  have halloc : [5].length * sectorFs.sectorsPerCluster * 512 ≤ 0x30000000 := by decide
  obtain ⟨s₁', s₂, data, cksum, hinit', hread, hlim, hheld⟩ := fat32ReadFile_limited
    (sectorDisk (ownerProgram code)) (d := sectorFile (ownerProgram code)) (notmainInit_held hboot) hheap hchain
    (by decide) (by decide : 1 < 2) rfl hbytes (by rw [hcursor]; decide)
    (by rw [hcursor, hfree, Nat.card_Ico]; decide) (notmainInit_limited hboot)
  obtain rfl := (EStateM.Result.ok.inj (hinit.symm.trans hinit')).2
  unfold execOpen at hopen
  rw [bind_ok hread] at hopen
  have hfile : Extends Machine.trace s₁ s₂ := (growing_fat32ReadFile _ _ _ _).extends_ok hread
  have hloaded : Extends Machine.trace s₂ t := (growing_execLoadFile _).extends_ok hopen
  obtain ⟨⟨⟨hserving, -⟩, -⟩, hguarded⟩ := ((steps_execLoadFile_held (H := Tame) halloc hbytes).of_ok
    hopen).elim hheld (hfile.forall_since hloaded htame.tame).2
  refine ⟨?_, (Held.guarded hserving.toHeld).limits⟩
  intro x hx
  obtain ⟨new, htrace⟩ := hloaded
  rw [since_eq htrace] at hguarded
  rw [htrace] at hx
  rcases List.mem_append.mp hx with hx | hx
  · exact (hguarded x hx).limits
  · exact (hlim x hx).2

/-- A program may give itself a section of the translation tables. -/
theorem child_not_isolated : ¬ ∀ (last : Option PiFile) (s : Machine) (disk : Disk) (fuel : ℕ)
    (fs : Fat32) (entry : Dirent) (sbrks : List ℕ), CommandLoop last s →
    (∀ x ∈ (endState ((execFile disk fuel fs entry sbrks).run s)).trace, WithinLimits x.2) →
    ∃ s₁, execInitTable.run s = .ok () s₁ ∧ Isolated s₁.vm ∧
      ∀ x ∈ since Machine.trace s₁ (endState ((execFile disk fuel fs entry sbrks).run s)),
        x.2.frame.isSome → Isolated x.2 := by
  intro hall
  have hcode := ownerCode_sbrkCode
  obtain ⟨s, s₁, t, file, e, hboot, -, hinit, hopen, htame, ht⟩ := ownerProgram_opened hcode powerOn.mem
  obtain ⟨hlim, hnow⟩ := ownerProgram_limits hcode hboot hinit hopen htame
  have hend : (execFile (sectorDisk (ownerProgram sbrkCode)) 2 sectorFs (sectorFile (ownerProgram sbrkCode))
      [0x100000]).run s = (execChild [0x100000] file).run t := by
    rw [execFile_eq, bind_ok hinit, bind_ok hopen]
  have hexposed : Exposed s₁ (endState ((execChild [0x100000] file).run t)) := by
    obtain ⟨v, hload, hready, -, -, -, hext⟩ := elfLoad_owner hcode ht
    have hopened : Extends Machine.trace s₁ v := .trans ((growing_bind (growing_fat32ReadFile _ _ _ _)
      growing_execLoadFile).extends_ok hopen) hext
    rw [execChild_eq, ht.data, ht.nData, bind_ok hload]
    exact .before hopened (.bind (fun _ => storeless_execClose.grows) (execLoaded_exposed hready))
  obtain ⟨f, hf, hasid, -⟩ := ht.opening.childProc
  obtain ⟨new, htrace, hnew⟩ := (steps_execChild_limits [0x100000] ht.data).at_end t
  have hwithin : ∀ x ∈ (endState ((execChild [0x100000] file).run t)).trace, WithinLimits x.2 := by
    intro x hx
    rw [htrace] at hx
    rcases List.mem_append.mp hx with hx | hx
    · exact (hnew ⟨⟨⟨f, hf, hasid⟩, ht.opening.idle.currentProc, hnow⟩, ht.opening.idle.ttbr⟩
        fun _ _ => trivial).2 x hx
    · exact hlim x hx
  obtain ⟨s₁', hinit', -, hkept⟩ := hall none s (sectorDisk (ownerProgram sbrkCode)) 2 sectorFs
    (sectorFile (ownerProgram sbrkCode)) [0x100000] (.boot hboot) (by rw [hend]; exact hwithin)
  obtain rfl := (EStateM.Result.ok.inj (hinit.symm.trans hinit')).2
  rw [hend] at hkept
  obtain ⟨x, hx, hsome, hnot⟩ := hexposed.mem_since
  exact hnot (hkept x hx hsome)

end Refuted

section Held
variable {s : Machine}

/-- `mmu_unmap` ends if every section behind the table exists. -/
theorem mmuUnmap_run {pt : Asid} (h : ∀ p < nVirtPages, (s.vm.table pt p).tag ≠ 0 →
      (s.vm.table pt p).nG ≠ 0 → (s.vm.table pt p).sec < nPhysPages) :
    ∃ t, (mmuUnmap pt).run s = .ok () t := by
  have hloop : ∀ (pages : List ℕ) (u : Machine), u.vm.table = s.vm.table →
      (∀ p ∈ pages, p < nVirtPages) → ∃ t, (forM pages (unmapEntry pt)).run u = .ok () t := by
    intro pages
    induction pages with
    | nil => exact fun u _ _ => ⟨u, rfl⟩
    | cons p pages ih =>
      intro u htable hpages
      have hentry : ∃ u', (unmapEntry pt p).run u = .ok () u' ∧ u'.vm.table = s.vm.table := by
        have hget : getVm.run u = .ok u.vm u := rfl
        unfold unmapEntry
        rw [bind_ok hget, htable]
        dsimp only
        by_cases hp : (s.vm.table pt p).tag ≠ 0 ∧ (s.vm.table pt p).nG ≠ 0
        · rw [if_pos hp, if_pos (h p (hpages p (by simp)) hp.1 hp.2)]
          exact ⟨_, rfl, htable⟩
        · rw [if_neg hp]
          exact ⟨u, rfl, htable⟩
      obtain ⟨u', hrun, htable'⟩ := hentry
      rw [List.forM_cons, bind_ok hrun]
      exact ih u' htable' fun q hq => hpages q (by simp [hq])
  exact hloop _ s rfl fun p hp => List.mem_range.mp hp

/-- A file that is shorter than an ELF header is given up at once. -/
theorem execProgram_short {sbrks : List ℕ} {file : PiFile} (hshort : file.nData < 52) (s : Machine) :
    (execProgram sbrks file).run s = .ok () (s.step (.ret .elfLoad) id) := by
  have hload : (elfLoad file.data file.nData childAsid).run s =
      .ok none (s.step (.ret .elfLoad) id) := by
    unfold elfLoad elfLoadBody
    rw [if_pos hshort]
    rfl
  exact bind_ok hload

theorem storeless_execChild_short {file : PiFile} (sbrks : List ℕ) (hshort : file.nData < 52) :
    Storeless (execChild sbrks file) := by
  have hload : elfLoad file.data file.nData childAsid = (do
      perform (.ret .elfLoad) id
      return none) := by
    unfold elfLoad elfLoadBody
    rw [if_pos hshort]
    rfl
  have hchild : execChild sbrks file = (do
      perform (.ret .elfLoad) id
      execClose) := by
    rw [execChild_eq, hload, bind_assoc]
    simp only [pure_bind, execLoaded]
  rw [hchild]
  exact .bind (storeless_perform (by simp) _) fun _ => storeless_execClose

theorem execChild_short {sbrks : List ℕ} {file : PiFile} (hshort : file.nData < 52)
    (hsec : ∀ p < nVirtPages, (s.vm.table childAsid p).tag ≠ 0 →
      (s.vm.table childAsid p).nG ≠ 0 → (s.vm.table childAsid p).sec < nPhysPages) :
    ∃ t, (execChild sbrks file).run s = .ok () t := by
  obtain ⟨t, hunmap⟩ := mmuUnmap_run (s := s.step (.ret .elfLoad) id) hsec
  unfold execChild
  rw [bind_ok (execProgram_short hshort s)]
  unfold execClose
  rw [bind_ok hunmap]
  exact ⟨_, rfl⟩

theorem Held.sec_lt {v : Vm} {win : Set ℕ} (h : Held win v) (p : ℕ) (hp : p < nVirtPages)
    (htag : (v.table childAsid p).tag ≠ 0) (hnG : (v.table childAsid p).nG ≠ 0) :
    (v.table childAsid p).sec < nPhysPages := by
  have hbit : ∀ x : BitVec 1, x ≠ 0 → x = 1 := by decide
  have hpriv : (v.table childAsid p).Private := ⟨h.entries p hp htag, hbit _ hnG⟩
  cases hshared : (v.flags childAsid p).shared with
  | false => exact h.own.hi p ⟨hp, hpriv, hshared⟩
  | true =>
    obtain ⟨q, hq, hsame⟩ := h.shared p ⟨hp, hpriv, hshared⟩
    rw [← hsame]
    exact h.owns.hi q (.inr hq)

/-- From any state of a session with the room for it, a short file is opened, given up and closed. -/
theorem CommandLoop.exec_short {e n : ℕ} {size : FatSize} {cs : List ℕ} {fuel : ℕ} {d : Dirent}
    {fs : Fat32} (hs : CommandLoop last s) (disk : Disk)
    (h : HeapAt e s) (hchain : Chain fs size d.clusterId cs) (hspc : 1 ≤ fs.sectorsPerCluster)
    (hfuel : cs.length < fuel) (hn : cs.length * fs.sectorsPerCluster * 512 = n)
    (hdata : d.nbytes ≤ n) (hfits : s.cursor + n ≤ kernelLoadAddr)
    (hroom : 2 * (n / 2 ^ 20 + 1) ≤ (freeSecs s.vm).card) (hshort : d.nbytes < 52)
    (hlim : ∀ x ∈ s.trace, Limited x) :
    ∃ file s₁ s₂ t, file.nAlloc = n ∧ file.nData = d.nbytes ∧ execInitTable.run s = .ok () s₁ ∧
      (execOpen disk fuel fs d).run s₁ = .ok file s₂ ∧ (execChild [] file).run s₂ = .ok () t ∧
      ∀ x ∈ t.trace, Limited x := by
  have hheld := (hs.held hlim).1
  have hram : s.cursor + n ≤ (e + (freeSecs s.vm).card) * 2 ^ 20 := by
    have hcur := h.hi
    clear hfits hn
    omega
  have hlow : e ≤ kernelLoadAddr / 2 ^ 20 := by
    apply (Nat.le_div_iff_mul_le (by decide)).mpr
    rw [← h.heapEnd]
    exact hheld.1.below
  obtain ⟨s₁, hinit⟩ := execInitTable_ok s
  obtain ⟨h₁, hcursor, hfree⟩ := h.execInitTable hinit
  obtain ⟨k, s₂, u, v, cksum, hopen, -, -, -, -, -, -, -, hopened⟩ :=
    execOpen_run disk fs size d cs fuel h₁ hchain hspc hfuel hn hdata hlow (by rw [hcursor]; exact hfits)
      (by rw [hfree]; exact hroom)
  have hall := execFile_limited disk [] hheld h hchain hspc hfuel hn hdata hfits hram hlim
  rw [execFile_eq, bind_ok hinit, bind_ok hopen] at hall
  have hchildTame : TameTo s₂ (endState ((execChild [] ⟨kernelLoadAddr, cksum, n, d.nbytes⟩).run s₂)) :=
    (storeless_execChild_short [] hshort).tameTo_end s₂
  have htame : TameTo s s₂ := (storeless_execInitTable.tameTo hinit).trans hopened
  replace hall := hall ((htame.trans hchildTame).all fun x hx => (hlim x hx).1)
  have hlim₂ : ∀ x ∈ s₂.trace, Limited x := by
    obtain ⟨new, htrace, -⟩ := (growing_execChild [] _).at_end s₂
    rw [htrace] at hall
    exact fun x hx => hall x (List.mem_append_right _ hx)
  obtain ⟨hserving, -⟩ := (along_limited ((steps_execOpen_held disk fuel fs d).of_ok hopen) hlim₂).2
    (vacant_execInitTable hheld hinit)
  have hrun : ∃ t, (execChild [] ⟨kernelLoadAddr, cksum, n, d.nbytes⟩).run s₂ = .ok () t :=
    execChild_short hshort hserving.1.toHeld.sec_lt
  obtain ⟨t, hchild⟩ := hrun
  rw [hchild] at hall
  exact ⟨_, s₁, s₂, t, rfl, rfl, hinit, hopen, hchild, hall⟩

end Held

end SimplePiOS.Kernel
