import Mathlib.Tactic.IntervalCases
import SimplePiOS.Kernel.HeapRun

/-! `exec_file` on a kernel that has RAM enough: the file is in the load window, and the child's
table shares it. -/
namespace SimplePiOS.Kernel
open Lib Libpi

/-- The update of the child's table for one page of the load window. -/
def Vm.share (v : Vm) (page : ℕ) : Vm :=
  v.setFld childAsid (childPage page) (sectionFld ((v.table kernelAsid page).sec * 2 ^ 20) sharedFlags)
    sharedFlags

def Vm.shareAll (v : Vm) (pages : List ℕ) : Vm := pages.foldl Vm.share v

section Share
variable {s t : Machine} {v : Vm} {e k n : ℕ}

@[simp] theorem share_paddrToAsidMap (v : Vm) (page : ℕ) :
    (v.share page).paddrToAsidMap = v.paddrToAsidMap := rfl
@[simp] theorem share_ttbr (v : Vm) (page : ℕ) : (v.share page).ttbr = v.ttbr := rfl
@[simp] theorem share_kernelProc (v : Vm) (page : ℕ) : (v.share page).kernelProc = v.kernelProc := rfl
@[simp] theorem share_currentProc (v : Vm) (page : ℕ) :
    (v.share page).currentProc = v.currentProc := rfl
@[simp] theorem share_frame (v : Vm) (page : ℕ) : (v.share page).frame = v.frame := rfl

theorem share_table (v : Vm) (page : ℕ) (b : Asid) (i : ℕ) : (v.share page).table b i =
    if b = childAsid ∧ i = childPage page then
      sectionFld ((v.table kernelAsid page).sec * 2 ^ 20) sharedFlags
    else v.table b i :=
  setFld_table _ _ _ _ _ b i

/-- All but the child's table stays as it is. -/
structure SameButChild (v w : Vm) : Prop where
  paddrToAsidMap : w.paddrToAsidMap = v.paddrToAsidMap
  table : ∀ b, b ≠ childAsid → w.table b = v.table b
  ttbr : w.ttbr = v.ttbr
  kernelProc : w.kernelProc = v.kernelProc
  currentProc : w.currentProc = v.currentProc
  frame : w.frame = v.frame

theorem shareAll_same (v : Vm) (pages : List ℕ) : SameButChild v (v.shareAll pages) := by
  induction pages generalizing v with
  | nil => exact ⟨rfl, fun _ _ => rfl, rfl, rfl, rfl, rfl⟩
  | cons page pages ih =>
    have h := ih (v.share page)
    refine ⟨h.paddrToAsidMap, ?_, h.ttbr, h.kernelProc, h.currentProc, h.frame⟩
    intro b hb
    have htable := h.table b hb
    change ((v.share page).shareAll pages).table b = v.table b
    rw [htable]
    funext i
    rw [share_table]
    simp [hb]

theorem childVa_eq (page : ℕ) :
    add32 (sub32 (page * 2 ^ 20) kernelLoadAddr) procLoadAddr = (page + 0x700) % nVirtPages * 2 ^ 20 := by
  have hload : kernelLoadAddr = 0x100 * 2 ^ 20 := rfl
  have hproc : procLoadAddr = 0x800 * 2 ^ 20 := rfl
  have hpages : 2 ^ 32 = nVirtPages * 2 ^ 20 := rfl
  have hsub : page * 2 ^ 20 + nVirtPages * 2 ^ 20 - 0x100 * 2 ^ 20 = (page + nVirtPages - 0x100) * 2 ^ 20 := by
    rw [Nat.sub_mul, Nat.add_mul]
  unfold add32 sub32
  rw [hload, hproc, hpages, hsub, Nat.mod_add_mod, ← Nat.add_mul, Nat.mul_mod_mul_right]
  have hmod : (page + nVirtPages - 0x100 + 0x800) % nVirtPages = (page + 0x700) % nVirtPages := by
    change (page + 4096 - 0x100 + 0x800) % 4096 = (page + 0x700) % 4096
    omega
  rw [hmod]

theorem childPage_eq (page : ℕ) : childPage page = (page + 0x700) % nVirtPages := by
  unfold childPage
  rw [childVa_eq, Nat.mul_div_cancel _ (by omega)]

theorem childPage_inj {p q : ℕ} (hp : p < nVirtPages) (hq : q < nVirtPages)
    (h : childPage p = childPage q) : p = q := by
  have hpages : nVirtPages = 4096 := rfl
  rw [childPage_eq, childPage_eq] at h
  change (p + 0x700) % 4096 = (q + 0x700) % 4096 at h
  omega

/-- The other entries of the child's table stay. -/
theorem shareAll_other {pages : List ℕ} {p : ℕ} (hp : ∀ q ∈ pages, childPage q ≠ p) :
    (v.shareAll pages).table childAsid p = v.table childAsid p := by
  induction pages generalizing v with
  | nil => rfl
  | cons page pages ih =>
    have hrest := ih (v := v.share page) fun q hq => hp q (List.mem_cons_of_mem _ hq)
    rw [share_table, if_neg (fun hin => hp page List.mem_cons_self hin.2.symm)] at hrest
    exact hrest

/-- Each page is shown. -/
theorem shareAll_shown {pages : List ℕ} (hlt : ∀ q ∈ pages, q < nVirtPages) {q : ℕ} (hq : q ∈ pages) :
    (v.shareAll pages).table childAsid (childPage q) =
      sectionFld ((v.table kernelAsid q).sec * 2 ^ 20) sharedFlags := by
  induction pages generalizing v with
  | nil => cases hq
  | cons page pages ih =>
    have hkernel : (v.share page).table kernelAsid q = v.table kernelAsid q := by
      rw [share_table, if_neg (fun hin => absurd hin.1 (by decide))]
    by_cases hin : q ∈ pages
    · have hrest := ih (v := v.share page) (fun p hp => hlt p (List.mem_cons_of_mem _ hp)) hin
      rw [hkernel] at hrest
      exact hrest
    · obtain rfl := (List.mem_cons.mp hq).resolve_right hin
      have hlast : ∀ p ∈ pages, childPage p ≠ childPage q := by
        intro p hp heq
        obtain rfl := childPage_inj (hlt p (List.mem_cons_of_mem _ hp)) (hlt q hq) heq
        exact hin hp
      have hrest := shareAll_other (v := v.share q) hlast
      rw [share_table, if_pos ⟨rfl, rfl⟩] at hrest
      exact hrest

theorem sharePage_run (page : ℕ) (s : Machine) : ∃ t, (sharePage page).run s = .ok () t ∧
    t.vm = s.vm.share page ∧ t.mem = s.mem ∧ t.heap = s.heap := by
  have hget : getVm.run s = .ok s.vm s := rfl
  have hdiv : ∀ m, m * 2 ^ 20 / 2 ^ 20 = m := fun m => Nat.mul_div_cancel m (by omega)
  have hva : add32 (sub32 (page * 2 ^ 20) kernelLoadAddr) procLoadAddr =
      childPage page * 2 ^ 20 := by
    rw [childVa_eq, childPage_eq]
  unfold sharePage
  rw [bind_ok hget]
  dsimp only
  rw [hva]
  unfold mmuMapSection
  rw [bind_ok (run_assert (isAligned_mib _) _ _), bind_ok (run_assert (isAligned_mib _) _ _)]
  simp only [hdiv]
  exact ⟨_, rfl, rfl, rfl, rfl⟩

theorem sharePages_run (pages : List ℕ) (s : Machine) : ∃ t,
    (forM pages sharePage).run s = .ok ⟨⟩ t ∧ t.vm = s.vm.shareAll pages ∧ t.mem = s.mem ∧
      t.heap = s.heap := by
  induction pages generalizing s with
  | nil => exact ⟨s, rfl, rfl, rfl, rfl⟩
  | cons page pages ih =>
    obtain ⟨t, hrun, hvm, hmem, hheap⟩ := sharePage_run page s
    obtain ⟨u, hrun', hvm', hmem', hheap'⟩ := ih t
    refine ⟨u, ?_, ?_, hmem'.trans hmem, hheap'.trans hheap⟩
    · rw [List.forM_cons, bind_ok hrun]
      exact hrun'
    · rw [hvm', hvm]
      rfl

end Share

section Window
variable {s : Machine} {v w : Vm} {e n : ℕ}

/-- The pages of the load window for `n` bytes. -/
theorem mem_windowPages (hn : 1 ≤ n) (htop : kernelLoadAddr + n ≤ 2 ^ 32) (page : ℕ) :
    page ∈ pageRange kernelLoadAddr n ↔
      kernelLoadAddr / 2 ^ 20 ≤ page ∧ page ≤ (kernelLoadAddr + n - 1) / 2 ^ 20 := by
  have hload : kernelLoadAddr = 0x10000000 := rfl
  have hend : sub32 (add32 kernelLoadAddr n) 1 = kernelLoadAddr + n - 1 := by
    unfold sub32 add32
    omega
  have hstart : sub32 kernelLoadAddr 1 / 2 ^ 20 = 0xFF := rfl
  unfold pageRange
  dsimp only
  rw [hend, hstart, List.mem_range'_1]
  omega

theorem mem_windowPages_of_lt {i : ℕ} (htop : kernelLoadAddr + n ≤ 2 ^ 32) (hi : i < n) :
    (kernelLoadAddr + i) / 2 ^ 20 ∈ pageRange kernelLoadAddr n := by
  rw [mem_windowPages (by omega) htop]
  exact ⟨Nat.div_le_div_right (by omega), Nat.div_le_div_right (by omega)⟩

/-- A page below the window keeps its entry while the window is mapped. -/
theorem Grown.below_window {page : ℕ} (h : Grown v w kernelAsid (pageRange kernelLoadAddr n))
    (hpage : page < kernelLoadAddr / 2 ^ 20) : w.table kernelAsid page = v.table kernelAsid page := by
  apply h.table
  rintro ⟨-, hmem⟩
  have hstart : sub32 kernelLoadAddr 1 / 2 ^ 20 = 0xFF := rfl
  have hlow := (mem_pageRange hmem).1
  have hload : kernelLoadAddr / 2 ^ 20 = 0x100 := rfl
  omega

/-- The window is filled with the file and shared, if there is RAM for it and the file was read to
other pages. -/
theorem execLoadFile_run (h : HeapAt e s) (file : PiFile) {bs : List UInt8}
    (hholds : s.Holds file.data bs) (hlen : bs.length = file.nData)
    (hlo : 2 ^ 20 ≤ file.data) (hhi : file.data + file.nData ≤ e * 2 ^ 20)
    (hbelow : e ≤ nVirtPages)
    (hout : ∀ i < file.nData, (file.data + i) / 2 ^ 20 ∉ pageRange kernelLoadAddr file.nAlloc)
    (hdata : file.nData ≤ file.nAlloc) (htop : kernelLoadAddr + file.nAlloc ≤ 2 ^ 32)
    (hroom : (pageRange kernelLoadAddr file.nAlloc).length ≤ (freeSecs s.vm).card) :
    ∃ t v, (execLoadFile file).run s = .ok { file with data := kernelLoadAddr } t ∧
      Grown (s.vm.openFile { file with data := kernelLoadAddr }) v kernelAsid
        (pageRange kernelLoadAddr file.nAlloc) ∧
      t.vm = v.shareAll (filePages file.nData) ∧ t.heap = s.heap ∧ t.Holds kernelLoadAddr bs ∧
      TameTo s t := by
  let s₁ := s.step .update (·.openFile { file with data := kernelLoadAddr })
  have hload : kernelLoadAddr / 2 ^ 20 = 0x100 := rfl
  rcases mmuMapToMem_run kernelAsid_ne kernelLoadAddr file.nAlloc true s₁ with
    ⟨s₂, hmap, hgrown, hmem, hheap⟩ | ⟨hfull, -⟩
  · have hold : Owns s₁.vm kernelAsid {p | 1 ≤ p ∧ p < e} :=
      ⟨h.owns.priv, h.owns.lo, h.owns.hi, h.owns.owner, h.owns.inj⟩
    have howns := hgrown.owns (by decide) hold
    have httbr : s₂.vm.ttbr = kernelAsid := hgrown.ttbr.trans h.idle.ttbr
    rw [← httbr] at howns
    have hwindow : ∀ i < file.nData, (kernelLoadAddr + i) / 2 ^ 20 ∈
        pageRange kernelLoadAddr file.nAlloc :=
      fun i hi => mem_windowPages_of_lt htop (Nat.lt_of_lt_of_le hi hdata)
    have hbuffer : ∀ i < file.nData, 1 ≤ (file.data + i) / 2 ^ 20 ∧ (file.data + i) / 2 ^ 20 < e := by
      intro i hi
      constructor
      · exact Nat.div_pos (by omega) (by omega)
      · exact Nat.div_lt_of_lt_mul (by rw [Nat.mul_comm]; omega)
    have hbacked : Backed s₂.vm kernelLoadAddr file.nData :=
      howns.backed (by omega) fun i hi => .inr (hwindow i hi)
    have hsmall : ∀ i < file.nData, (file.data + i) % 2 ^ 32 = file.data + i := by
      intro i hi
      apply Nat.mod_eq_of_lt
      have hmul := Nat.mul_le_mul_right (2 ^ 20) hbelow
      have hpages : nVirtPages = 4096 := rfl
      omega
    have hfld : ∀ i < file.nData, s₂.vm.fldAt (file.data + i) = s.vm.fldAt (file.data + i) := by
      intro i hi
      unfold Vm.fldAt
      rw [httbr, h.idle.ttbr]
      exact hgrown.table _ _ fun hin => hout i hi hin.2
    have hview : s₂.Holds file.data bs := by
      intro i b hb
      have hi : i < file.nData := hlen ▸ (List.getElem?_eq_some_iff.mp hb).1
      have hs := hholds i b hb
      unfold Machine.view at hs ⊢
      rw [hsmall i hi] at hs ⊢
      rw [hfld i hi, hmem]
      exact hs
    have hbuffer_ne : ∀ i < file.nData, ∀ j < file.nData,
        (s₂.vm.fldAt (kernelLoadAddr + j)).sec = (s₂.vm.fldAt (file.data + i)).sec →
        (kernelLoadAddr + j) / 2 ^ 20 = (file.data + i) / 2 ^ 20 := by
      intro i hi j hj
      apply howns.inj
      · exact .inr (hwindow j hj)
      · exact .inl (hbuffer i hi)
    have hapart : ∀ i < bs.length, ∀ j < file.nData,
        s₂.vm.phys (kernelLoadAddr + j) ≠ s₂.vm.phys ((file.data + i) % 2 ^ 32) := by
      intro i hi j hj heq
      rw [hlen] at hi
      rw [hsmall i hi] at heq
      have hsec := congrArg (· / 2 ^ 20) heq
      simp only [phys_div] at hsec
      have hpage := hbuffer_ne i hi j hj hsec
      exact hout i hi (hpage ▸ hwindow j hj)
    obtain ⟨s₃, hcopy, hst⟩ := (mmuBlock s₂ _ _ hbacked).memcpy_eq (o := 0) (.refl s₂ _ _)
      (mmuBlock_source hbacked hview hapart) (by omega)
    have hs₃ : Within s₂ kernelLoadAddr file.nData s₃ := hst.inv
    obtain ⟨t, hshare, hvm, hmemt, hheapt⟩ := sharePages_run (filePages file.nData) s₃
    have hsame := shareAll_same s₂.vm (filePages file.nData)
    have hvmt : t.vm = s₂.vm.shareAll (filePages file.nData) := by rw [hvm, hs₃.vm]
    rw [Nat.add_zero, hlen] at hcopy
    have hshared : TameTo s₃ t :=
      Storeless.tameTo (Traced.forM_keeps fun page _ => storeless_sharePage page) hshare
    have htame : TameTo s t := by
      apply TameTo.trans (t := s₁) ((storeless_perform (by simp) _).tameTo rfl)
      apply TameTo.trans ((storeless_mmuMapToMem _ _ _ _).tameTo hmap)
      exact TameTo.trans (.of_trace hs₃.trace) hshared
    refine ⟨t, s₂.vm, ?_, hgrown, hvmt, ?_, ?_, htame⟩
    · unfold execLoadFile
      dsimp only
      let opened : PiFile := { file with data := kernelLoadAddr }
      have hopen : (perform .update fun v => { v with frame := v.frame.map fun f =>
          { f with file := some opened } }).run s = .ok () s₁ := rfl
      rw [bind_ok hopen, bind_ok hmap, bind_ok hcopy, bind_ok hshare]
      rfl
    · rw [hheapt, hs₃.heap, hheap]
      rfl
    · intro i b hb
      have hi : i < file.nData := hlen ▸ (List.getElem?_eq_some_iff.mp hb).1
      have hlt : kernelLoadAddr + i < 2 ^ 32 := Nat.lt_of_lt_of_le (by omega) htop
      have hfldt : t.vm.fldAt (kernelLoadAddr + i) = s₂.vm.fldAt (kernelLoadAddr + i) := by
        unfold Vm.fldAt
        rw [hvmt, hsame.ttbr, hsame.table _ (by rw [httbr]; decide)]
      have hget : s₃.mem (s₂.vm.phys (kernelLoadAddr + i)) = _ := hst.get_eq i hi
      unfold Machine.view
      rw [Nat.mod_eq_of_lt hlt, hfldt, translate_private (hbacked.priv i hi), hmemt]
      change some (s₃.mem (s₂.vm.phys (kernelLoadAddr + i))) = some b
      rw [hget]
      simp [List.getD_eq_getElem?_getD, hb]
  · change (freeSecs s.vm).card < _ at hfull
    omega

theorem length_windowPages (n : ℕ) (hn : 1 ≤ n) (htop : kernelLoadAddr + n ≤ 2 ^ 32) :
    (pageRange kernelLoadAddr n).length ≤ n / 2 ^ 20 + 1 := by
  have hload : kernelLoadAddr = 0x10000000 := rfl
  have hend : sub32 (add32 kernelLoadAddr n) 1 = kernelLoadAddr + n - 1 := by
    unfold sub32 add32
    omega
  have hstart : sub32 kernelLoadAddr 1 / 2 ^ 20 = 0xFF := rfl
  unfold pageRange
  dsimp only
  rw [hend, hstart, List.length_range']
  omega

theorem Extended.room {k : ℕ} (h : Extended v w e k) :
    (freeSecs w).card = (freeSecs v).card - k := by
  obtain ⟨u, hgrown, hw⟩ := h
  have hroom := hgrown.room
  rw [List.length_range'] at hroom
  rw [← hroom, hw]
  rfl

/-- The kernel is idle again once the window is shared, with the heap where it was. -/
theorem HeapAt.opened {t u : Machine} {file : PiFile} (h : HeapAt e u)
    (hgrown : Grown (u.vm.openFile file) v kernelAsid (pageRange kernelLoadAddr n))
    (hvm : t.vm = v.shareAll (filePages file.nData))
    (hheap : t.heap = u.heap) : HeapAt e t := by
  have hsame := shareAll_same v (filePages file.nData)
  have hold : Owns (u.vm.openFile file) kernelAsid {p | 1 ≤ p ∧ p < e} :=
    ⟨h.owns.priv, h.owns.lo, h.owns.hi, h.owns.owner, h.owns.inj⟩
  have howns := (hgrown.owns (by decide) hold).mono Set.subset_union_left
  have hproc : t.vm.kernelProc = u.vm.kernelProc := by
    rw [hvm, hsame.kernelProc, hgrown.kernelProc]
    rfl
  have htable : t.vm.table kernelAsid = v.table kernelAsid := by
    rw [hvm, hsame.table _ (by decide)]
  have hcursor : t.cursor = u.cursor := by
    unfold Machine.cursor
    rw [hheap, hproc]
  constructor
  · refine ⟨?_, ?_, ?_⟩
    · rw [hvm, hsame.ttbr, hgrown.ttbr]
      exact h.idle.ttbr
    · rw [hvm, hsame.currentProc, hgrown.currentProc]
      exact h.idle.currentProc
    · rw [hproc]
      exact h.idle.kernelProc
  · rw [hproc]
    exact h.heapEnd
  · rw [hcursor]
    exact h.lo
  · rw [hcursor]
    exact h.hi
  · have hmap : t.vm.paddrToAsidMap = v.paddrToAsidMap := by rw [hvm, hsame.paddrToAsidMap]
    constructor
    · rw [htable]
      exact howns.priv
    · rw [htable]
      exact howns.lo
    · rw [htable]
      exact howns.hi
    · rw [htable, hmap]
      exact howns.owner
    · rw [htable]
      exact howns.inj
  · rw [hheap]
    exact h.statics

/-- The whole opening of a file whose chain covers it. -/
theorem execOpen_run (disk : Disk) (fs : Fat32) (size : FatSize) (d : Dirent) (cs : List ℕ)
    (fuel : ℕ) (h : HeapAt e s) (hchain : Chain fs size d.clusterId cs)
    (hspc : 1 ≤ fs.sectorsPerCluster) (hfuel : cs.length < fuel)
    (hn : cs.length * fs.sectorsPerCluster * 512 = n) (hdata : d.nbytes ≤ n)
    (hbelow : e ≤ kernelLoadAddr / 2 ^ 20) (hfits : s.cursor + n ≤ kernelLoadAddr)
    (hroom : 2 * (n / 2 ^ 20 + 1) ≤ (freeSecs s.vm).card) :
    ∃ k t u v cksum, (execOpen disk fuel fs d).run s =
        .ok ⟨kernelLoadAddr, cksum, n, d.nbytes⟩ t ∧
      Extended s.vm u e k ∧ e + k ≤ kernelLoadAddr / 2 ^ 20 ∧
      Grown (u.openFile ⟨kernelLoadAddr, cksum, n, d.nbytes⟩) v kernelAsid
        (pageRange kernelLoadAddr n) ∧
      t.vm = v.shareAll (filePages d.nbytes) ∧ HeapAt (e + k) t ∧
      t.Holds kernelLoadAddr ((chainBytes disk fs cs).take d.nbytes) ∧
      k ≤ n / 2 ^ 20 + 1 ∧ TameTo s t := by
  have hload : kernelLoadAddr = 0x10000000 := rfl
  have hpage : kernelLoadAddr / 2 ^ 20 = 0x100 := rfl
  have hone : 1 ≤ cs.length := List.length_pos_iff.mpr hchain.ne_nil
  have hn1 : 1 ≤ n := by
    rw [← hn]
    exact Nat.mul_pos (Nat.mul_pos hone hspc) (by omega)
  have hcur := h.hi
  have hlo := h.lo
  have hram : s.cursor + n ≤ (e + (freeSecs s.vm).card) * 2 ^ 20 := by
    clear hn hfits
    omega
  have hpast : s.cursor + n + 2 ^ 20 ≤ 2 ^ 32 := by
    clear hram hroom hn
    omega
  obtain ⟨k, u, cksum, hread, hext, hu, -, hend, hleast, hbelow', hholds⟩ :=
    fat32ReadFile_run disk fs size d cs fuel h hchain hspc hfuel (by rw [hn]; exact hram)
      (by rw [hn]; exact hpast) (by rw [hn]; exact hdata)
  rw [hn] at hread hend hleast
  have hk : k ≤ n / 2 ^ 20 + 1 := by
    clear hroom hram hn
    omega
  have hke : e + k ≤ kernelLoadAddr / 2 ^ 20 := by
    clear hroom hram hn
    omega
  have htop : kernelLoadAddr + n ≤ 2 ^ 32 := by omega
  have hwindow := length_windowPages _ hn1 htop
  have hroomu := hext.room
  have hfree : (pageRange kernelLoadAddr n).length ≤ (freeSecs u.vm).card := by omega
  have htake : u.Holds s.cursor ((chainBytes disk fs cs).take d.nbytes) := by
    intro i b hb
    rw [List.getElem?_take] at hb
    split at hb
    · exact hholds i b hb
    · cases hb
  have hlen : ((chainBytes disk fs cs).take d.nbytes).length = d.nbytes := by
    rw [List.length_take, length_chainBytes, ← Nat.mul_assoc, hn]
    exact Nat.min_eq_left hdata
  have hpages : e + k ≤ nVirtPages := by
    rw [hpage] at hke
    exact Nat.le_trans hke (by decide)
  have hout : ∀ i < d.nbytes, (s.cursor + i) / 2 ^ 20 ∉ pageRange kernelLoadAddr n := by
    intro i hi hin
    have hwin := ((mem_windowPages hn1 htop _).mp hin).1
    rw [hpage] at hwin
    clear hroom hram hn
    omega
  obtain ⟨t, v, hopen, hgrown, hvm, hheap, ht, htame⟩ :=
    execLoadFile_run hu ⟨s.cursor, cksum, n, d.nbytes⟩ htake hlen hlo
      (Nat.le_trans (Nat.add_le_add_left hdata _) hend) hpages hout hdata htop hfree
  refine ⟨k, t, u.vm, v, cksum, ?_, hext, hke, hgrown, hvm, hu.opened hgrown hvm hheap, ht, hk,
    hbelow'.tameTo.trans htame⟩
  unfold execOpen
  rw [bind_ok hread]
  exact hopen

end Window
section Boot

/-- `notmain` of shell.c from its call of `vm_enable` to the one of `syscall_set_current_proc`. -/
def notmainInit : Kern Unit := do
  vmEnable
  perform .update fun v =>
    { v with kernelProc := { heapStart := kernelHeapAddr, heapEnd := kernelHeapAddr, asid := kernelAsid } }
  perform .update ({ · with currentProc := .kernel })

/-- The sections of the tables are the kernel's, and its heap is empty. -/
theorem notmainInit_run (s : Machine) (hheap : s.heap.heapStart = 0) : ∃ t,
    notmainInit.run s = .ok () t ∧ HeapAt 5 t ∧ freeSecs t.vm = Finset.Ico 5 nPhysPages ∧
      t.cursor = kernelHeapAddr ∧ t.heap = s.heap := by
  obtain ⟨t, hrun, htable, hmap, hidle, hproc, hstart⟩ : ∃ t, notmainInit.run s = .ok () t ∧
      (∀ p, 1 ≤ p → p < 5 → t.vm.table kernelAsid p = ramFld p false) ∧
      (∀ sec, t.vm.paddrToAsidMap sec = if 1 ≤ sec ∧ sec < 5 then kernelAsid else 0) ∧
      Idle t.vm ∧ t.vm.kernelProc.heapEnd = kernelHeapAddr ∧ t.heap = s.heap := by
    refine ⟨_, rfl, ?_, ?_, ⟨rfl, rfl, rfl⟩, rfl, rfl⟩
    · intro p hlo hhi
      interval_cases p <;> rfl
    · intro sec
      change Function.update (Function.update (Function.update (Function.update (fun _ => 0)
        1 kernelAsid) 2 kernelAsid) 3 kernelAsid) 4 kernelAsid sec = _
      simp only [Function.update_apply]
      grind
  have hsec : ∀ p, 1 ≤ p → p < 5 → (t.vm.table kernelAsid p).sec = p := by
    intro p hlo hhi
    rw [htable p hlo hhi, ramFld_sec]
    exact Nat.lt_trans hhi (by decide)
  have hcursor : t.cursor = kernelHeapAddr := by
    unfold Machine.cursor
    rw [hstart, if_pos hheap, hproc]
  refine ⟨t, hrun, ⟨hidle, hproc, ?_, ?_, ?_, ?_⟩, ?_, hcursor, hstart⟩
  · rw [hcursor]
    decide
  · exact Nat.le_of_eq hcursor
  · constructor
    · intro p hp
      rw [htable p hp.1 hp.2]
      exact ramFld_private
    · intro p hp
      rw [hsec p hp.1 hp.2]
      exact hp.1
    · intro p hp
      rw [hsec p hp.1 hp.2]
      exact Nat.lt_trans hp.2 (by decide)
    · intro p hp
      rw [hsec p hp.1 hp.2, hmap]
      exact if_pos hp
    · intro p hp q hq heq
      simp only [hsec p hp.1 hp.2, hsec q hq.1 hq.2] at heq
      exact heq
  · rw [hstart, hheap]
    exact fun h => absurd rfl h
  · ext sec
    have hne : kernelAsid ≠ 0 := kernelAsid_ne
    rw [mem_freeSecs, Finset.mem_Ico]
    constructor
    · intro h
      have howner := h.owner
      rw [hmap] at howner
      have hlo := h.lo
      have hhi := h.hi
      grind
    · rintro ⟨hlo, hhi⟩
      refine ⟨by omega, hhi, ?_⟩
      rw [hmap, if_neg (by omega)]

/-- A machine as it is switched on, with the ownership map somewhere in the kernel's `.bss`. -/
def powerOn : Machine where
  vm := ⟨fun _ => 0, fun _ _ => Fld.zero, fun _ _ => ⟨false, false, false⟩, 0, 0,
    ⟨0, 0, 0⟩, .kernel, none⟩
  mapAddr := 0x10000
  mem := fun _ => 0
  heap := ⟨0, 0, 0⟩
  trace := []

end Boot

section Sector
variable {e : ℕ} {s t : Machine}

/-- The new child's table is no concern of the kernel's heap. -/
theorem HeapAt.execInitTable (h : HeapAt e s) (hrun : execInitTable.run s = .ok () t) :
    HeapAt e t ∧ t.cursor = s.cursor ∧ freeSecs t.vm = freeSecs s.vm := by
  cases hrun
  exact ⟨⟨⟨h.idle.ttbr, h.idle.currentProc, h.idle.kernelProc⟩, h.heapEnd, h.lo, h.hi,
    ⟨h.owns.priv, h.owns.lo, h.owns.hi, h.owns.owner, h.owns.inj⟩, h.statics⟩, rfl, rfl⟩

/-- A disk with these bytes in each sector, and a file of one sector. -/
def sectorFs : Fat32 := ⟨32, 100, 1, 2, fun _ => 0xFFFFFFF, 1024⟩

def sectorDisk (bs : List UInt8) : Disk := fun _ i => bs.getD i 0

def sectorFile (bs : List UInt8) : Dirent := ⟨[], 5, false, bs.length⟩

theorem chainBytes_sectorDisk {bs : List UInt8} (hlen : bs.length ≤ 512) :
    (chainBytes (sectorDisk bs) sectorFs [5]).take bs.length = bs := by
  have hsector : chainBytes (sectorDisk bs) sectorFs [5] =
      (List.range 512).map fun i => bs.getD i 0 := by
    simp [chainBytes, sectorBytes, sectorFs, sectorDisk]
  rw [hsector]
  apply List.ext_getElem
  · simp [hlen]
  · intro i hi hi'
    simp [hi']

/-- Such a file is opened, if there is RAM for it. -/
theorem execOpen_sector (bs : List UInt8) (hlen : bs.length ≤ 512) (h : HeapAt e s)
    (hbelow : e ≤ kernelLoadAddr / 2 ^ 20) (hfits : s.cursor + 512 ≤ kernelLoadAddr)
    (hroom : 2 ≤ (freeSecs s.vm).card) :
    ∃ t file, (do
        execInitTable
        execOpen (sectorDisk bs) 2 sectorFs (sectorFile bs)).run s = .ok file t ∧
      file.data = kernelLoadAddr ∧ file.nData = bs.length ∧ t.Holds kernelLoadAddr bs ∧
      (freeSecs s.vm).card ≤ (freeSecs t.vm).card + 2 ∧ (Idle t.vm ∧ t.vm.frame.isSome) ∧ TameTo s t := by
  obtain ⟨s₁, hinit⟩ := execInitTable_ok s
  obtain ⟨h₁, hcursor, hfree⟩ := h.execInitTable hinit
  have hchain : Chain sectorFs ⟨8, by decide⟩ 5 [5] := .last (by omega) (by decide) (by decide)
  obtain ⟨k, t, u, v, cksum, hrun, hext, -, hgrown, hvm, ht, hholds, hk, htame⟩ :=
    execOpen_run (sectorDisk bs) sectorFs _ (sectorFile bs) [5] 2 h₁ hchain (by decide)
      (by decide) rfl hlen hbelow (by rw [hcursor]; exact hfits) (by rw [hfree]; exact hroom)
  refine ⟨t, ⟨kernelLoadAddr, cksum, 512, bs.length⟩, ?_, rfl, rfl, ?_, ?_, ⟨ht.idle, ?_⟩,
    (storeless_execInitTable.tameTo hinit).trans htame⟩
  · rw [bind_ok hinit]
    exact hrun
  · have hbytes := chainBytes_sectorDisk hlen
    have hn : (sectorFile bs).nbytes = bs.length := rfl
    rw [hn, hbytes] at hholds
    exact hholds
  · have hheap := hext.room
    have hwindow := hgrown.room
    have hpages : (pageRange kernelLoadAddr 512).length = 1 := by decide
    have hshared : freeSecs t.vm = freeSecs v := by
      unfold freeSecs
      rw [hvm, (shareAll_same v _).paddrToAsidMap]
    have hopened : (freeSecs (u.openFile ⟨kernelLoadAddr, cksum, 512, bs.length⟩)).card =
        (freeSecs u).card := rfl
    rw [hfree] at hheap
    rw [hshared]
    change (freeSecs v).card = (freeSecs (u.openFile ⟨kernelLoadAddr, cksum, 512, bs.length⟩)).card -
      (pageRange kernelLoadAddr 512).length at hwindow
    rw [hpages, hopened] at hwindow
    have hk1 : k ≤ 1 := hk
    clear hfits hbelow
    omega
  · have hframe : s₁.vm.frame.isSome := by
      cases hinit
      rfl
    rw [hvm, (shareAll_same v _).frame, hgrown.frame]
    simp [Vm.openFile, hext.frame, hframe]

end Sector

end SimplePiOS.Kernel
