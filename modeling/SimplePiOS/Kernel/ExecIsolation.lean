import Mathlib.Data.Nat.ModEq
import SimplePiOS.Kernel.ExecRules
import SimplePiOS.Kernel.FsWalk
import SimplePiOS.Kernel.Isolation
import SimplePiOS.Kernel.SecRead

/-! `exec_file` step by step, as far as the ownership of sections goes. -/
namespace SimplePiOS.Kernel
open Lib Libpi

/-- While there is a child, it is isolated. -/
structure Guarded (v : Vm) : Prop where
  limits : WithinLimits v
  isolated : v.frame.isSome → Isolated v

/-- The limits are met, and no store goes through a global descriptor. -/
abbrev Limited : Moment → Prop := fun x => Tame x ∧ WithinLimits x.2
abbrev GuardedNow : Moment → Prop := InVm Guarded

/-- Who owns a section has no part in it. -/
theorem Guarded.setOwner {v : Vm} (h : Guarded v) (sec : ℕ) (a : Asid) :
    Guarded (v.setOwner sec a) :=
  ⟨⟨h.limits.heap, h.limits.file⟩, fun hsome => (h.isolated hsome).congr rfl rfl rfl rfl⟩

section Growth
variable {X : Vm → Prop} {H : Moment → Prop}

/-- The kernel maps some pages. -/
theorem steps_mapPages_held (extra : Set ℕ) (hown : ∀ v sec, X v → X (v.setOwner sec kernelAsid))
    (hfld : ∀ v page f fl, X v → X (v.setFld kernelAsid page f fl))
    (hK : ∀ extra v, KernelHeld extra v → X v → Guarded v) (pages : List ℕ) (sync : Bool) :
    Steps H GuardedNow (OnVm fun v => KernelHeld extra v ∧ X v)
      (forM pages (mapPage kernelAsid sync)) fun _ =>
        OnVm fun v => KernelHeld (extra ∪ {p | p ∈ pages}) v ∧ X v := by
  have hloop : Steps H GuardedNow
      (OnVm fun v => KernelHeld (extra ∪ {p | p ∈ ([] : List ℕ)}) v ∧ X v)
      (forM pages (mapPage kernelAsid sync)) fun _ =>
        OnVm fun v => KernelHeld (extra ∪ {p | p ∈ pages}) v ∧ X v := by
    apply Traced.forM (I := fun done => OnVm fun v => KernelHeld (extra ∪ {p | p ∈ done}) v ∧ X v)
    intro done page rest _
    have hset : insert page (extra ∪ {p | p ∈ done}) = extra ∪ {p | p ∈ done ++ [page]} := by
      ext p
      simp only [Set.mem_insert_iff, Set.mem_union, Set.mem_ofPred_eq, List.mem_append,
        List.mem_singleton]
      tauto
    apply Steps.mapPage_ram
    · intro v sec hv _
      exact (hK _ v hv.1 hv.2).setOwner sec kernelAsid
    · intro v sec hv hsec
      have hheld : KernelHeld (insert page (extra ∪ {p | p ∈ done}))
          (v.mapRam kernelAsid page sec sync) := hv.1.mapRam hsec
      rw [hset] at hheld
      exact ⟨hheld, hfld _ page _ _ (hown v sec hv.2)⟩
    · intro v hv
      exact hK _ v hv.1 hv.2
  have hnil : extra ∪ {p | p ∈ ([] : List ℕ)} = extra := by simp
  rw [hnil] at hloop
  exact hloop

/-- The kernel's heap grows below the load window. -/
theorem steps_kernelSbrk_held (hX : KernelStable X)
    (hK : ∀ extra v, KernelHeld extra v → X v → Guarded v) (incr : ℕ) :
    Steps Limited GuardedNow (OnVm fun v => KernelHeld ∅ v ∧ X v) (kernelSbrk incr) fun _ =>
      OnVm fun v => KernelHeld ∅ v ∧ X v := by
  -- the break stays while the pages are mapped
  let Y : Vm → Vm → Prop := fun v w => X w ∧ w.kernelProc.heapEnd = v.kernelProc.heapEnd
  apply Steps.kernelSbrk_own fun v w =>
    KernelHeld {p | p ∈ pageRange v.kernelProc.heapEnd incr} w ∧ Y v w
  · exact fun v hv => hX.idle v hv.2
  · intro v _
    have hmap := steps_mapPages_held (X := Y v) (H := Limited) ∅
      (fun w sec hw => ⟨hX.setOwner w sec _ hw.1, hw.2⟩)
      (fun w page f fl hw => ⟨hX.setFld w page f fl hw.1, hw.2⟩)
      (fun extra w hheld hw => hK extra w hheld hw.1) (pageRange v.kernelProc.heapEnd incr) true
    rw [Set.empty_union] at hmap
    apply hmap.pre
    intro s hs
    exact ⟨hs.1.1, hs.1.2, by rw [hs.2]⟩
  · intro _ v w hw hlimits
    obtain ⟨hheld, hx, heq⟩ := hw
    rw [← heq] at hheld hlimits ⊢
    exact ⟨hheld.setHeapEnd hlimits.2.heap, hX.setHeapEnd w _ hx⟩
  · exact fun _ => stable_onVm _
  · exact fun _ v hv => hv
  · exact fun v hv => hK _ v hv.1 hv.2

end Growth

section Read
variable {disk : Disk} {fs : Fat32} {s t : Machine}

/-- A range that wraps around leaves no page out. -/
theorem length_le_of_low {base n : ℕ} (h : ∀ i < n, (base + i) % 2 ^ 32 < 0x30000000) :
    n ≤ 0x30000000 := by
  by_contra hlong
  by_cases hbase : base % 2 ^ 32 < 0x30000000
  · have hbad := h (0x30000000 - base % 2 ^ 32) (by omega)
    omega
  · have hbad := h 0 (by omega)
    omega

theorem still_readCluster (disk : Disk) (fs : Fat32) (data id : ℕ) :
    Still (readCluster mmu disk fs data id) :=
  still_of_bus fun _ _ h => h.readCluster disk fs data id

/-- A cluster was stored behind the ones before it. -/
theorem readCluster_low {data id r : ℕ} (hrun : (readCluster mmu disk fs data id).run s = .ok r t)
    (hlow : ∀ a < 2 ^ 32, (s.vm.fldAt a).Valid → a < 0x30000000) :
    r = data + 512 * fs.sectorsPerCluster ∧
      ∀ i < 512 * fs.sectorsPerCluster, (data + i) % 2 ^ 32 < 0x30000000 := by
  obtain ⟨n, u, hread, hrest⟩ := of_bind_ok hrun
  obtain ⟨_, u', hassert, hret⟩ := of_bind_ok hrest
  obtain ⟨hn, hvalid⟩ := sdReadblock_valid hread
  have hbytes := (of_assert_ok hassert).1
  have hstored : ∀ i < 512 * max 1 fs.sectorsPerCluster, (data + i) % 2 ^ 32 < 0x30000000 :=
    fun i hi => hlow _ (Nat.mod_lt _ (by omega)) (hvalid i hi)
  have hlength := length_le_of_low hstored
  have hr : r = data + n := (EStateM.Result.ok.inj hret).1.symm
  have hone : 1 ≤ fs.sectorsPerCluster := by
    by_contra hzero
    have hspc : fs.sectorsPerCluster = 0 := by omega
    rw [hn, hspc] at hbytes
    exact absurd hbytes (by decide)
  have hmax : max 1 fs.sectorsPerCluster = fs.sectorsPerCluster := Nat.max_eq_right hone
  rw [hmax] at hn hstored hlength
  refine ⟨?_, hstored⟩
  omega

/-- Both walks of `fat32_read_file` take the same number of steps. -/
theorem forClusters_low {v : Vm} (hlow : ∀ a < 2 ^ 32, (v.fldAt a).Valid → a < 0x30000000)
    (fuel : ℕ) {start n m data r : ℕ} {u u' : Machine} (ht : v.SameTables s.vm)
    (hcount : (forClusters fs (fun n _ => pure (add32 n 1)) fuel start n : Kern ℕ).run u = .ok m u')
    (hread : (forClusters fs (readCluster mmu disk fs) fuel start data).run s = .ok r t) :
    ∃ k, m % 2 ^ 32 = (n + k) % 2 ^ 32 ∧
      ∀ i < k * (512 * fs.sectorsPerCluster), (data + i) % 2 ^ 32 < 0x30000000 := by
  induction fuel generalizing start n data u s with
  | zero => cases hcount
  | succ fuel ih =>
    by_cases hc : Continues start
    · rw [forClusters_continues _ hc] at hcount hread
      obtain ⟨n', u₁, hn, hcount⟩ := of_bind_ok hcount
      obtain ⟨data', s₁, hcluster, hread⟩ := of_bind_ok hread
      obtain ⟨rfl, rfl⟩ := EStateM.Result.ok.inj hn
      obtain ⟨hdata, hfirst⟩ := readCluster_low hcluster fun a ha hvalid =>
        hlow a ha (ht.fldAt a ▸ hvalid)
      have hs₁ : v.SameTables s₁.vm := ht.trans (tables_of_still (still_readCluster disk fs _ _) hcluster)
      obtain ⟨k, hk, hrest⟩ := ih hs₁ hcount hread
      refine ⟨k + 1, ?_, ?_⟩
      · rw [hk]
        unfold add32
        omega
      · intro i hi
        by_cases hlt : i < 512 * fs.sectorsPerCluster
        · exact hfirst i hlt
        · have hbehind := hrest (i - 512 * fs.sectorsPerCluster) (by
            rw [Nat.add_mul, Nat.one_mul] at hi
            omega)
          rw [hdata] at hbehind
          have haddr : data + 512 * fs.sectorsPerCluster + (i - 512 * fs.sectorsPerCluster) =
              data + i := by omega
          rwa [haddr] at hbehind
    · rw [forClusters_ends _ hc] at hcount
      by_cases hl : IsLast start
      · rw [if_pos hl] at hcount
        obtain ⟨rfl, -⟩ := EStateM.Result.ok.inj hcount
        exact ⟨0, rfl, by simp⟩
      · rw [if_neg hl] at hcount
        cases hcount

/-- `fat32_read_file` counts the clusters, takes a block for them and stores them there; behind the
block's call it only loads and stores. -/
theorem of_fat32ReadFile_ok {fuel : ℕ} {d : Dirent} {file : PiFile}
    (hrun : (fat32ReadFile kernel disk fuel fs d).run s = .ok file t) : ∃ m s₁ s₂ r s₃,
      (countClusters fuel fs d.clusterId).run s = .ok m s₁ ∧
      (kmalloc kernel fuel file.nAlloc).run s₁ = .ok file.data s₂ ∧
      (forClusters fs (readCluster mmu disk fs) fuel d.clusterId file.data).run s₂ = .ok r s₃ ∧
      file.nAlloc = m * fs.sectorsPerCluster % 2 ^ 32 * 512 % 2 ^ 32 ∧
      ∃ rest : Kern PiFile, Still rest ∧ rest.run s₂ = .ok file t := by
  obtain ⟨m, s₁, hcount, hrun⟩ := of_bind_ok hrun
  obtain ⟨data, s₂, halloc, hrun⟩ := of_bind_ok hrun
  have hrest := hrun
  obtain ⟨r, s₃, hread, hrun⟩ := of_bind_ok hrun
  obtain ⟨cksum, s₄, hcrc, hret⟩ := of_bind_ok hrun
  obtain ⟨rfl, rfl⟩ := EStateM.Result.ok.inj hret
  refine ⟨m, s₁, s₂, r, s₃, hcount, halloc, hread, rfl, _, still_of_bus fun I E h => ?_, hrest⟩
  have hsum : Keeps I E (crc32Buf mmu data d.nbytes) :=
    .bind (h.crc32Loop _ _ _) fun _ => .pure fun _ hs => hs
  apply Triple.bind (h.forClusters fs (h.readCluster disk fs) _ _ _)
  intro _
  apply Triple.bind hsum
  intro _
  exact .pure fun _ hs => hs

/-- A file that has been read is no longer than the memory it could be stored to. -/
theorem fat32ReadFile_nAlloc {fuel : ℕ} {d : Dirent} {file : PiFile}
    (hrun : (fat32ReadFile kernel disk fuel fs d).run s = .ok file t)
    (hlow : ∀ a < 2 ^ 32, (t.vm.fldAt a).Valid → a < 0x30000000) : file.nAlloc ≤ 0x30000000 := by
  obtain ⟨m, s₁, s₂, r, s₃, hcount, -, hread, halloc, rest, hstill, hrest⟩ := of_fat32ReadFile_ok hrun
  have hsame := tables_of_still hstill hrest
  have hlow₂ : ∀ a < 2 ^ 32, (s₂.vm.fldAt a).Valid → a < 0x30000000 :=
    fun a ha hvalid => hlow a ha ((hsame.fldAt a).symm ▸ hvalid)
  obtain ⟨k, hk, hstored⟩ := forClusters_low hlow₂ fuel ⟨rfl, rfl⟩ hcount hread
  have hlength := length_le_of_low hstored
  have hbytes : m * fs.sectorsPerCluster % 2 ^ 32 * 512 % 2 ^ 32 =
      k * (512 * fs.sectorsPerCluster) % 2 ^ 32 := by
    have hmod : Nat.ModEq (2 ^ 32) m k := by
      unfold Nat.ModEq
      rw [hk, Nat.zero_add]
    have hprod : Nat.ModEq (2 ^ 32) (m * fs.sectorsPerCluster % 2 ^ 32 * 512)
        (k * fs.sectorsPerCluster * 512) :=
      ((Nat.mod_modEq _ _).trans (hmod.mul_right _)).mul_right _
    rw [Nat.mul_comm 512, ← Nat.mul_assoc]
    exact hprod
  rw [halloc, hbytes]
  exact Nat.le_trans (Nat.mod_le _ _) hlength

end Read

/-- A child whose table has global sections at most. -/
structure Vacant (v : Vm) : Prop where
  idle : Idle v
  child : ∃ f, v.frame = some f ∧ f.proc.asid = childAsid
  none : ∀ p < nVirtPages, ¬ (v.table childAsid p).Private
  entries : ∀ p < nVirtPages, (v.table childAsid p).tag ≠ 0 → (v.table childAsid p).Valid
  fits : ∀ f file, v.frame = some f → f.file = some file → file.nData ≤ file.nAlloc

/-- A child with its load window, and whose turn it is. -/
structure Serving (pid : Pid) (win : Set ℕ) (v : Vm) : Prop extends Held win v where
  child : ∃ f, v.frame = some f ∧ f.proc.asid = childAsid
  currentProc : v.currentProc = pid

/-- The pages of the load window for so many bytes. -/
def windowOf (nAlloc : ℕ) : Set ℕ := {p | p ∈ pageRange kernelLoadAddr nAlloc}

theorem mem_windowOf {nAlloc q : ℕ} : q ∈ windowOf nAlloc ↔ q ∈ pageRange kernelLoadAddr nAlloc :=
  Iff.rfl

section Opening
variable {v : Vm} {win : Set ℕ} {file : PiFile} {H : Moment → Prop}

theorem Vacant.guarded (hv : Vacant v) {extra : Set ℕ} (h : KernelHeld extra v) : Guarded v :=
  ⟨⟨h.below, hv.fits⟩, fun _ => .of_vacant hv.none⟩

theorem Held.guarded (hv : Held win v) : Guarded v :=
  ⟨⟨hv.below, hv.fits⟩, fun _ => hv.isolated⟩

theorem Vacant.setOwner (hv : Vacant v) (sec : ℕ) (a : Asid) : Vacant (v.setOwner sec a) :=
  ⟨⟨hv.idle.ttbr, hv.idle.currentProc, hv.idle.kernelProc⟩, hv.child, hv.none, hv.entries,
    hv.fits⟩

theorem Vacant.setFld (hv : Vacant v) (page : ℕ) (f : Fld) (fl : MapFlags) :
    Vacant (v.setFld kernelAsid page f fl) := by
  have htable : (v.setFld kernelAsid page f fl).table childAsid = v.table childAsid := by
    funext i
    rw [setFld_table, if_neg (fun hin => childAsid_ne_kernelAsid hin.1)]
  refine ⟨⟨hv.idle.ttbr, hv.idle.currentProc, hv.idle.kernelProc⟩, hv.child, ?_, ?_, hv.fits⟩
  · rw [htable]
    exact hv.none
  · rw [htable]
    exact hv.entries

theorem vacant_kernelStable : KernelStable Vacant :=
  ⟨fun _ hv => hv.idle, fun _ sec a hv => hv.setOwner sec a,
    fun _ page f fl hv => hv.setFld page f fl,
    fun _ _ hv => ⟨⟨hv.idle.ttbr, hv.idle.currentProc, hv.idle.kernelProc⟩, hv.child, hv.none,
      hv.entries, hv.fits⟩⟩

/-- The kernel can only store below page 0x300. -/
theorem KernelHeld.low (h : KernelHeld ∅ v) (hv : v.ttbr = kernelAsid) :
    ∀ a < 2 ^ 32, (v.fldAt a).Valid → a < 0x30000000 := by
  intro a ha hvalid
  have hpages : nVirtPages = 4096 := rfl
  unfold Vm.fldAt at hvalid
  rw [hv] at hvalid
  by_contra hhigh
  exact h.top (a / 2 ^ 20) (by omega) (by omega) hvalid

/-- A file is read into the kernel's heap. -/
theorem steps_fat32ReadFile_held (disk : Disk) (fuel : ℕ) (fs : Fat32) (d : Dirent) :
    Steps Limited GuardedNow (OnVm fun v => KernelHeld ∅ v ∧ Vacant v)
      (fat32ReadFile kernel disk fuel fs d) fun file s =>
        (KernelHeld ∅ s.vm ∧ Vacant s.vm) ∧ file.nData = d.nbytes ∧ file.nAlloc ≤ 0x30000000 := by
  have hread := Steps.fat32ReadFile disk fuel fs d (stable_onVm _)
    (steps_kernelSbrk_held vacant_kernelStable fun _ v hheld hv => hv.guarded hheld)
  have hlow : Triple (fun _ => True) (fat32ReadFile kernel disk fuel fs d) (fun file t =>
      (∀ a < 2 ^ 32, (t.vm.fldAt a).Valid → a < 0x30000000) → file.nAlloc ≤ 0x30000000)
      fun _ => True := by
    intro s _
    cases hrun : (fat32ReadFile kernel disk fuel fs d).run s with
    | ok file t => exact fat32ReadFile_nAlloc hrun
    | error e t => trivial
  apply (hread.and_triple hlow).post
  intro file s hs
  obtain ⟨⟨hheld, hn⟩, hbound⟩ := hs
  exact ⟨hheld, hn, hbound (hheld.1.low hheld.2.idle.ttbr)⟩

/-- The child gets the load window. -/
theorem steps_execLoadFile_held [Calm H] (halloc : file.nAlloc ≤ 0x30000000) (hfits : file.nData ≤ file.nAlloc) :
    Steps H GuardedNow (OnVm fun v => KernelHeld ∅ v ∧ Vacant v) (execLoadFile file)
      fun f s => (Serving .kernel (windowOf file.nAlloc) s.vm ∧ s.vm.ttbr = kernelAsid) ∧
        f = { file with data := kernelLoadAddr } := by
  let X : Vm → Prop := fun v => Vacant v ∧
    ∃ f, v.frame = some f ∧ f.file = some { file with data := kernelLoadAddr }
  let Y : Vm → Prop := fun v => Serving .kernel (windowOf file.nAlloc) v ∧ v.ttbr = kernelAsid
  apply Steps.execLoadFile (OnVm fun v => KernelHeld ∅ v ∧ X v)
    (OnVm fun v => KernelHeld (windowOf file.nAlloc) v ∧ X v)
    (OnVm fun v => KernelHeld (windowOf file.nAlloc) v ∧ X v) (OnVm Y)
  · intro s hs _
    obtain ⟨hheld, hvacant⟩ := hs
    obtain ⟨f, hf, hasid⟩ := hvacant.child
    have hf' : (s.vm.openFile { file with data := kernelLoadAddr }).frame =
        some { f with file := some { file with data := kernelLoadAddr } } := by
      simp [Vm.openFile, hf]
    have hfits' : ∀ g file', (s.vm.openFile { file with data := kernelLoadAddr }).frame = some g →
        g.file = some file' → file'.nData ≤ file'.nAlloc := by
      intro g file' hg hgfile
      obtain rfl := Option.some.inj (hf'.symm.trans hg)
      obtain rfl := Option.some.inj hgfile
      exact hfits
    have hvacant' : Vacant (s.vm.openFile { file with data := kernelLoadAddr }) :=
      ⟨⟨hvacant.idle.ttbr, hvacant.idle.currentProc, hvacant.idle.kernelProc⟩, ⟨_, hf', hasid⟩,
        hvacant.none, hvacant.entries, hfits'⟩
    have hheld' : KernelHeld ∅ (s.vm.openFile { file with data := kernelLoadAddr }) :=
      hheld.congr rfl rfl rfl
    exact ⟨⟨hheld', hvacant', ⟨_, hf', rfl⟩⟩, hvacant'.guarded hheld'⟩
  · have hmap := steps_mapPages_held (X := X) (H := H) ∅
      (fun v sec hv => ⟨hv.1.setOwner sec kernelAsid, hv.2⟩)
      (fun v page f fl hv => ⟨hv.1.setFld page f fl, hv.2⟩)
      (fun _ v hheld hv => hv.1.guarded hheld) (pageRange kernelLoadAddr file.nAlloc) true
    rw [Set.empty_union] at hmap
    exact hmap
  · exact .of_still (stable_onVm _) (still_memcpy _ _ _)
  · have hloop : Steps H GuardedNow (OnVm Y) (forM (filePages file.nData) sharePage)
        fun _ => OnVm Y := by
      apply Traced.forM_keeps
      intro page hpage
      apply Steps.sharePage
      · intro s sec hsec hs _
        obtain ⟨hserving, httbr⟩ := hs
        have hwin := mem_windowOf.mpr (filePages_subset hfits halloc hpage)
        have hheld : Held (windowOf file.nAlloc) (s.vm.setFld childAsid (childPage page)
            (sectionFld (sec * 2 ^ 20) sharedFlags) sharedFlags) :=
          hserving.toHeld.share hwin hsec
        exact ⟨⟨⟨hheld, hserving.child, hserving.currentProc⟩, httbr⟩, hheld.guarded⟩
      · exact fun s hs _ => ⟨hs, hs.1.toHeld.guarded⟩
    apply hloop.pre
    rintro s ⟨hheld, hvacant, f, hf, hfile⟩
    have hbuffer : ∀ g file', s.vm.frame = some g → g.file = some file' →
        ∀ q ∈ filePages file'.nData, q ∈ windowOf file.nAlloc := by
      intro g file' hg hgfile q hq
      obtain rfl := Option.some.inj (hf.symm.trans hg)
      obtain rfl := Option.some.inj (hfile.symm.trans hgfile)
      exact mem_windowOf.mpr (filePages_subset hfits halloc hq)
    exact ⟨⟨.of_vacant hheld hvacant.none hvacant.entries hbuffer hvacant.fits, hvacant.child,
      hvacant.idle.currentProc⟩, hvacant.idle.ttbr⟩

/-- A file that does not fit is beyond the limits as soon as it is loaded. -/
theorem steps_execLoadFile_limited (hfits : ¬ file.nData ≤ file.nAlloc)
    {Q : PiFile → Machine → Prop} :
    Steps Limited GuardedNow (OnVm Vacant) (execLoadFile file) Q := by
  have hload : Steps Limited GuardedNow (OnVm Vacant) (execLoadFile file) fun f s =>
      False ∧ f = { file with data := kernelLoadAddr } := by
    apply Steps.execLoadFile (fun _ => False) (fun _ => False) (fun _ => False) fun _ => False
    · intro s hs hlimits
      obtain ⟨f, hf, -⟩ := hs.child
      have hf' : (s.vm.openFile { file with data := kernelLoadAddr }).frame =
          some { f with file := some { file with data := kernelLoadAddr } } := by
        simp [Vm.openFile, hf]
      exact absurd (hlimits.2.file _ _ hf' rfl) hfits
    · exact .of_false (growing_mmuMapToMem _ _ _ _) fun _ => id
    · exact .of_false (growing_still (still_memcpy _ _ _)) fun _ => id
    · exact .of_false (.forM_keeps fun page _ => (storeless_sharePage page).grows) fun _ => id
  exact hload.post fun f s hs => hs.1.elim

/-- `exec_file` up to its call of `elf_load`. -/
theorem steps_execOpen_held (disk : Disk) (fuel : ℕ) (fs : Fat32) (entry : Dirent) :
    Steps Limited GuardedNow (OnVm fun v => KernelHeld ∅ v ∧ Vacant v)
      (execOpen disk fuel fs entry) fun file s =>
        (Serving .kernel (windowOf file.nAlloc) s.vm ∧ s.vm.ttbr = kernelAsid) ∧
          file.data = kernelLoadAddr := by
  apply Traced.bind (steps_fat32ReadFile_held disk fuel fs entry)
  intro file
  by_cases hfits : file.nData ≤ file.nAlloc
  · apply (Traced.assume (P := file.nAlloc ≤ 0x30000000) (growing_execLoadFile file) _).pre
    · exact fun s hs => ⟨hs.1, hs.2.2⟩
    · intro halloc
      apply (steps_execLoadFile_held halloc hfits).post
      intro f s hs
      obtain ⟨hserving, rfl⟩ := hs
      exact ⟨hserving, rfl⟩
  · exact (steps_execLoadFile_limited hfits).pre fun s hs => hs.1.2

end Opening

section Running
variable {v : Vm} {win : Set ℕ} {pid : Pid} {page sec : ℕ} {sync : Bool} {A : Vm → Prop}
  {H : Moment → Prop}

/-- The registers have no part in it. -/
theorem Held.registers (h : Held win v) (a t : Asid) (p : Pid) :
    Held win { v with asid := a, ttbr := t, currentProc := p } :=
  h.congr rfl rfl rfl rfl fun g _ hg hfile => ⟨g, hg, hfile⟩

/-- Nor have the bounds of the child's heap. -/
theorem Held.mapProc (h : Held win v) (f : Process → Process) :
    Held win { v with frame := v.frame.map fun g => { g with proc := f g.proc } } := by
  refine Held.congr h rfl rfl rfl rfl ?_
  intro g file hg hfile
  obtain ⟨g₀, hg₀, rfl⟩ := Option.map_eq_some_iff.mp hg
  exact ⟨g₀, hg₀, hfile⟩

theorem Serving.mapRam (hv : Serving pid win v) (hsec : Free v sec) :
    Serving pid win (v.mapRam childAsid page sec sync) :=
  ⟨hv.toHeld.mapRam hsec, hv.child, hv.currentProc⟩

theorem Serving.setHeapEnd (hv : Serving pid win v) (e : ℕ) :
    Serving pid win (v.setHeapEnd e .child) := by
  obtain ⟨f, hf, hasid⟩ := hv.child
  have hf' : (v.setHeapEnd e .child).frame =
      some { f with proc := { f.proc with heapEnd := e } } := by
    simp [Vm.setHeapEnd, hf]
  exact ⟨hv.toHeld.mapProc fun p => { p with heapEnd := e }, ⟨_, hf', hasid⟩, hv.currentProc⟩

theorem Serving.setHeapStart (hv : Serving pid win v) (addr : ℕ) :
    Serving pid win (v.setHeapStart addr) := by
  obtain ⟨f, hf, hasid⟩ := hv.child
  have hf' : (v.setHeapStart addr).frame =
      some { f with proc := { f.proc with heapStart := addr } } := by
    simp [Vm.setHeapStart, hf]
  exact ⟨hv.toHeld.mapProc fun p => { p with heapStart := addr }, ⟨_, hf', hasid⟩, hv.currentProc⟩

theorem serving_childStable : ChildStable (fun pid => Serving pid win) Guarded := by
  constructor
  · exact fun _ v hv => hv.child
  · exact fun _ v hv => hv.currentProc
  · exact fun _ v sec hv _ => hv.toHeld.guarded.setOwner sec childAsid
  · exact fun _ v page sec sync hv hsec => hv.mapRam hsec
  · exact fun _ v a t hv => ⟨hv.toHeld.registers a t _, hv.child, hv.currentProc⟩
  · exact fun _ pid v hv => ⟨hv.toHeld.registers v.asid v.ttbr pid, hv.child, rfl⟩
  · exact fun _ v e hv => hv.setHeapEnd e
  · exact fun _ v addr hv => hv.setHeapStart addr
  · exact fun _ v hv => hv.toHeld.guarded

end Running

/-- What the load window is when its program has returned: each page has a section that nothing
else uses, and that nobody but the kernel may own. -/
structure Leftover (win : Set ℕ) (v : Vm) : Prop where
  priv : ∀ q ∈ win, (v.table kernelAsid q).Private
  lo : ∀ q ∈ win, 5 ≤ (v.table kernelAsid q).sec
  hi : ∀ q ∈ win, (v.table kernelAsid q).sec < nPhysPages
  owner : ∀ q ∈ win, v.paddrToAsidMap (v.table kernelAsid q).sec = 0 ∨
    v.paddrToAsidMap (v.table kernelAsid q).sec = kernelAsid
  heap : ∀ q ∈ win, ∀ p ∈ v.heapPages, (v.table kernelAsid q).sec ≠ (v.table kernelAsid p).sec

/-- The kernel at its command loop. -/
structure Alone (v : Vm) : Prop where
  idle : Idle v
  frame : v.frame = none

/-- The child has returned, and its sections are given back one by one. -/
structure Closing (win : Set ℕ) (v : Vm) : Prop where
  idle : Idle v
  kernel : KernelHeld ∅ v
  isolated : Isolated v
  entries : ∀ p < nVirtPages, (v.table childAsid p).tag ≠ 0 → (v.table childAsid p).Valid
  spare : ∀ p < nVirtPages, (v.table childAsid p).Private → 5 ≤ (v.table childAsid p).sec ∧
    ∀ q ∈ v.heapPages, (v.table kernelAsid q).sec ≠ (v.table childAsid p).sec
  leftover : Leftover win v
  fits : ∀ f file, v.frame = some f → f.file = some file → file.nData ≤ file.nAlloc

section Closing
variable {v w : Vm} {win : Set ℕ} {n : ℕ} {H : Moment → Prop}

theorem Leftover.congr (h : Leftover win v) (hmap : w.paddrToAsidMap = v.paddrToAsidMap)
    (htable : w.table = v.table) (hproc : w.kernelProc = v.kernelProc) : Leftover win w := by
  have hpages : w.heapPages = v.heapPages := by
    unfold Vm.heapPages
    rw [hproc]
  constructor
  · rw [htable]
    exact h.priv
  · rw [htable]
    exact h.lo
  · rw [htable]
    exact h.hi
  · rw [hmap, htable]
    exact h.owner
  · rw [htable, hpages]
    exact h.heap

theorem Leftover.setOwner (h : Leftover win v) (sec : ℕ) : Leftover win (v.setOwner sec 0) := by
  refine ⟨h.priv, h.lo, h.hi, ?_, h.heap⟩
  intro q hq
  rw [setOwner_table, setOwner_paddrToAsidMap]
  split
  · exact .inl rfl
  · exact h.owner q hq

/-- The load window begins where the heap ends at most. -/
theorem windowOf_above {q : ℕ} (hq : q ∈ windowOf n) : 0x100 ≤ q := by
  have hlow := (mem_pageRange (mem_windowOf.mp hq)).1
  have hstart : sub32 kernelLoadAddr 1 / 2 ^ 20 = 0xFF := rfl
  omega

theorem KernelHeld.heapPages_lt {extra : Set ℕ} (h : KernelHeld extra v) {p : ℕ}
    (hp : p ∈ v.heapPages) : p < 0x100 := by
  have hbelow := h.below
  have hload : kernelLoadAddr = 0x100 * 2 ^ 20 := rfl
  have hlt : p * 2 ^ 20 < v.kernelProc.heapEnd := hp.2
  omega

theorem Held.closing (h : Held (windowOf n) v) (hidle : Idle v) : Closing (windowOf n) v := by
  have hheap : ∀ q ∈ windowOf n, ∀ p ∈ v.heapPages,
      (v.table kernelAsid q).sec ≠ (v.table kernelAsid p).sec := by
    intro q hq p hp heq
    have hsame := h.owns.inj (.inr hq) (.inl hp) heq
    have hlt := h.heapPages_lt hp
    have hle := windowOf_above hq
    omega
  have hkernel : KernelHeld ∅ v := by
    refine ⟨h.asid, h.brk, h.below, h.owns.mono ?_, h.tables, fun q hq => hq.elim, ?_⟩
    · rw [Set.union_empty]
      exact Set.subset_union_left
    · intro p hlo hhi hpriv
      have hlt := h.toKernelHeld.window_lt (mem_windowOf.mp (h.top p hlo hhi hpriv))
      omega
  refine ⟨hidle, hkernel, h.isolated, h.entries, ?_, ?_, h.fits⟩
  · intro p hlt hpriv
    cases hshared : (v.flags childAsid p).shared with
    | false =>
      have hown : p ∈ v.ownPages := ⟨hlt, hpriv, hshared⟩
      refine ⟨h.isolated.reserved p hown, ?_⟩
      intro q hq
      exact h.owns.apart h.own childAsid_ne_kernelAsid.symm (.inl hq) hown
    | true =>
      obtain ⟨q, hq, hsame⟩ := h.shared p ⟨hlt, hpriv, hshared⟩
      rw [← hsame]
      exact ⟨h.behind q hq, fun p' hp' heq => hheap q hq p' hp' heq.symm⟩
  · constructor
    · exact fun q hq => h.owns.priv q (.inr hq)
    · exact h.behind
    · exact fun q hq => h.owns.hi q (.inr hq)
    · exact fun q hq => .inr (h.owns.owner q (.inr hq))
    · exact hheap

/-- A section of the child is given back. -/
theorem Closing.free (h : Closing win v) {p : ℕ} (hp : p < nVirtPages)
    (htag : (v.table childAsid p).tag ≠ 0) (hnG : (v.table childAsid p).nG ≠ 0) :
    Closing win (v.setOwner (v.table childAsid p).sec 0) := by
  have hbit : ∀ x : BitVec 1, x ≠ 0 → x = 1 := by decide
  obtain ⟨h5, hapart⟩ := h.spare p hp ⟨h.entries p hp htag, hbit _ hnG⟩
  refine ⟨⟨h.idle.ttbr, h.idle.currentProc, h.idle.kernelProc⟩, ?_, ?_, h.entries, h.spare, ?_,
    h.fits⟩
  · apply h.kernel.setOwner h5
    intro q hq
    exact hapart q (hq.resolve_right fun hin => hin)
  · exact h.isolated.congr rfl rfl rfl rfl
  · exact h.leftover.setOwner _

theorem Alone.guarded (hv : Alone v) {extra : Set ℕ} (h : KernelHeld extra v) : Guarded v := by
  have hnone : ∀ f, v.frame ≠ some f := by
    intro f hf
    rw [hv.frame] at hf
    cases hf
  refine ⟨⟨h.below, fun f _ hf => absurd hf (hnone f)⟩, ?_⟩
  intro hsome
  obtain ⟨f, hf⟩ := Option.isSome_iff_exists.mp hsome
  exact absurd hf (hnone f)

theorem alone_kernelStable : KernelStable Alone := by
  constructor
  · exact fun v hv => hv.idle
  · exact fun v sec a hv => ⟨⟨hv.idle.ttbr, hv.idle.currentProc, hv.idle.kernelProc⟩, hv.frame⟩
  · exact fun v page f fl hv =>
      ⟨⟨hv.idle.ttbr, hv.idle.currentProc, hv.idle.kernelProc⟩, hv.frame⟩
  · exact fun v e hv => ⟨⟨hv.idle.ttbr, hv.idle.currentProc, hv.idle.kernelProc⟩, hv.frame⟩

theorem steps_execClose_held :
    Steps H GuardedNow (OnVm (Closing win)) execClose fun _ =>
      OnVm fun v => (KernelHeld ∅ v ∧ Alone v) ∧ Leftover win v := by
  apply Traced.bind (Q := fun _ => OnVm (Closing win))
  · apply Traced.forM_keeps
    intro i hi
    apply Steps.unmapEntry
    · exact fun s hs => hs
    · intro s htag hnG _ hs _
      have hs' := hs.free (List.mem_range.mp hi) htag hnG
      exact ⟨hs', ⟨hs'.kernel.below, hs'.fits⟩, fun _ => hs'.isolated⟩
  · intro _
    apply Traced.bind (Q := fun _ =>
      OnVm fun v => (KernelHeld ∅ v ∧ Alone v) ∧ Leftover win v)
    · apply Steps.perform
      intro s hs _
      have halone : Alone { s.vm with frame := none } :=
        ⟨⟨hs.idle.ttbr, hs.idle.currentProc, hs.idle.kernelProc⟩, rfl⟩
      have hheld : KernelHeld ∅ { s.vm with frame := none } := hs.kernel.congr rfl rfl rfl
      exact ⟨⟨⟨hheld, halone⟩, hs.leftover.congr rfl rfl rfl⟩, halone.guarded hheld⟩
    · intro _
      exact Steps.mark fun s hs _ => ⟨hs, hs.1.2.guarded hs.1.1⟩

/-- `exec_file` from its call of `elf_load` on. -/
theorem steps_execChild_held [Calm H] (sbrks : List ℕ) {file : PiFile} (hdata : file.data = kernelLoadAddr) :
    Steps H GuardedNow
      (fun s => Serving .kernel (windowOf n) s.vm ∧ s.vm.ttbr = kernelAsid)
      (execChild sbrks file) fun _ =>
        OnVm fun v => (KernelHeld ∅ v ∧ Alone v) ∧ Leftover (windowOf n) v := by
  unfold execChild
  apply Traced.bind (serving_childStable.execProgram sbrks hdata)
  intro _
  apply steps_execClose_held.pre
  intro s hs
  exact hs.1.toHeld.closing ⟨hs.2, hs.1.currentProc, hs.1.asid⟩

end Closing

end SimplePiOS.Kernel
