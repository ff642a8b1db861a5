import SimplePiOS.Kernel.FsChain

/-! What fat32_read_file and fat32_read_dir return, on memory where only they run. -/
namespace SimplePiOS.Kernel
open Lib Libpi

theorem crc32Loop_flat (s : Flat) (p n : ℕ) (crc : BitVec 32) :
    ∃ r, (crc32Loop flat.toBus p n crc).run s = .ok r s := by
  induction n generalizing p crc with
  | zero => exact ⟨crc, rfl⟩
  | succ n ih =>
    obtain ⟨r, hr⟩ := ih (p + 1) (crc32Step crc (s.mem (p % 2 ^ 32)).toBitVec)
    refine ⟨r, ?_⟩
    unfold crc32Loop
    rw [bind_ok (run_load_flat s p)]
    exact hr

/-- The buffer is the chain, and both walks are folds over it. -/
theorem fat32ReadFile_chain (fs : Fat32) (size : FatSize) (disk : Disk) (d : Dirent)
    (cs : List ℕ) (s : Flat) (fuel : ℕ) (hchain : Chain fs size d.clusterId cs)
    (hspc : 1 ≤ fs.sectorsPerCluster)
    (hsize : cs.length * fs.sectorsPerCluster * 512 < 2 ^ 32)
    (hroom : s.Room (cs.length * fs.sectorsPerCluster * 512)) (hfuel : cs.length < fuel) :
    (∃ f t, (fat32ReadFile flat disk fuel fs d).run s = .ok f t ∧
      f.nAlloc = cs.length * fs.sectorsPerCluster * 512 ∧ f.nData = d.nbytes ∧
      t.bytes f.data f.nAlloc = chainBytes disk fs cs ∧
      ∀ a, a < f.data ∨ f.data + f.nAlloc ≤ a → t.mem a = s.mem a) ∧
    (countClusters fuel fs d.clusterId : EStateM Stop Flat ℕ) =
      cs.foldlM (fun n _ => pure (add32 n 1)) 0 ∧
    ∀ data, forClusters fs (readCluster flat.toBus disk fs) fuel d.clusterId data =
      cs.foldlM (readCluster flat.toBus disk fs) data := by
  refine ⟨?_, forClusters_chain _ hchain hfuel 0, forClusters_chain _ hchain hfuel⟩
  obtain ⟨hk, hks, hbytes⟩ := chain_counts hspc hsize
  have hone : 1 ≤ cs.length := List.length_pos_iff.mpr hchain.ne_nil
  have hcluster : fs.sectorsPerCluster * 512 < 2 ^ 32 := by
    refine lt_of_le_of_lt (Nat.mul_le_mul_right _ ?_) hsize
    exact Nat.le_mul_of_pos_left _ hone
  obtain ⟨t, halloc, hframe⟩ := kmalloc_flat fuel hroom (by omega) (by omega)
  have hfits := hroom.fits
  let B := flatBlock t s.cursor (cs.length * fs.sectorsPerCluster * 512) (by omega)
  obtain ⟨u, hread, hst⟩ := readClusters_stored (o := 0) B disk hspc cs (fun _ _ => rfl) hcluster
    (by rw [Nat.zero_add, Nat.mul_assoc])
  rw [Nat.add_zero] at hread
  obtain ⟨cksum, hcrc⟩ := crc32Loop_flat u s.cursor d.nbytes (0 ^^^ ~~~0)
  refine ⟨⟨s.cursor, cksum ^^^ ~~~0, cs.length * fs.sectorsPerCluster * 512, d.nbytes⟩, u, ?_,
    rfl, rfl, ?_, ?_⟩
  · unfold fat32ReadFile crc32Buf
    simp only [countClusters_chain hchain hfuel, pure_bind, hk, hks, hbytes]
    rw [bind_ok halloc, forClusters_chain _ hchain hfuel, bind_ok hread, bind_assoc, bind_ok hcrc]
    rfl
  · exact hst.contents (by rw [length_chainBytes, Nat.mul_assoc])
  · intro a ha
    rw [hst.inv a ha, hframe a ha]

/-- A two-cluster chain that skips over other clusters, on a disk whose sectors differ. -/
def scatteredFs : Fat32 where
  fatBeginLba := 32
  clusterBeginLba := 100
  sectorsPerCluster := 1
  rootDirFirstCluster := 2
  fat := fun id => if id = 2 then 5 else 0xFFFFFFF
  nFat := 2

def scatteredSize : FatSize := ⟨128, by decide⟩

def numberedDisk : Disk := fun lba _ => UInt8.ofNat lba

def emptyFlat : Flat := ⟨fun _ => 0, 0x500000, ⟨0, 0, 0⟩⟩

theorem scattered_chain : Chain scatteredFs scatteredSize 2 [2, 5] :=
  .next (by decide) (by decide) (by decide) (.last (by decide) (by decide) (by decide))

theorem emptyFlat_room : emptyFlat.Room 1024 := by
  constructor
  · intro h
    exact absurd rfl h
  · intro h
    exact absurd rfl h
  · decide
  · decide

theorem scattered_room :
    emptyFlat.Room ([2, 5].length * scatteredFs.sectorsPerCluster * 512 % 2 ^ 32) := by
  have hsize : [2, 5].length * scatteredFs.sectorsPerCluster * 512 % 2 ^ 32 = 1024 := by decide
  rw [hsize]
  exact emptyFlat_room

theorem fat32ReadFile_chain_scattered :
    ∃ f t, (fat32ReadFile flat numberedDisk 3 scatteredFs ⟨[], 2, false, 700⟩).run emptyFlat =
        .ok f t ∧ f.nAlloc = 1024 ∧ f.nData = 700 ∧
      t.bytes f.data f.nAlloc = chainBytes numberedDisk scatteredFs [2, 5] ∧
      ∀ a, a < f.data ∨ f.data + f.nAlloc ≤ a → t.mem a = emptyFlat.mem a :=
  (fat32ReadFile_chain scatteredFs scatteredSize numberedDisk ⟨[], 2, false, 700⟩ [2, 5]
    emptyFlat 3 scattered_chain (by decide) (by decide) emptyFlat_room (by decide)).1

section Directory
variable {fs : Fat32} {size : FatSize} {cs : List ℕ} {s t : Flat} {fuel : ℕ} {d : Option Dirent}

theorem sectorBytes_add (disk : Disk) (lba m n : ℕ) :
    sectorBytes disk lba (m + n) = sectorBytes disk lba m ++ sectorBytes disk (lba + m) n := by
  simp only [sectorBytes, List.range_add, List.flatMap_append, List.flatMap_map, Nat.add_assoc]

theorem sectorBytes_eq_iff (disk : Disk) (lba lba' num : ℕ) :
    sectorBytes disk lba num = sectorBytes disk lba' num ↔
      ∀ j < num, ∀ b < 512, disk (lba + j) b = disk (lba' + j) b := by
  induction num with
  | zero => simp [sectorBytes_zero]
  | succ num ih =>
    rw [sectorBytes_succ, sectorBytes_succ,
      List.append_eq_append_iff_of_size_eq_left (by simp only [length_sectorBytes]), ih,
      List.map_inj_left]
    simp only [List.mem_range]
    exact Nat.forall_lt_succ_right.symm

/-- Consecutive sectors agree with the chain when each cluster is where its place in the
chain puts it, byte by byte. -/
theorem sectorBytes_eq_chainBytes_iff (disk : Disk) (lba : ℕ) (cs : List ℕ) :
    sectorBytes disk lba (cs.length * fs.sectorsPerCluster) = chainBytes disk fs cs ↔
      ∀ i c, cs[i]? = some c → ∀ j < fs.sectorsPerCluster, ∀ b < 512,
        disk (lba + i * fs.sectorsPerCluster + j) b = disk (clusterToLba fs c + j) b := by
  induction cs generalizing lba with
  | nil => simp [sectorBytes_zero, chainBytes]
  | cons c cs ih =>
    have hcons : chainBytes disk fs (c :: cs) =
        sectorBytes disk (clusterToLba fs c) fs.sectorsPerCluster ++ chainBytes disk fs cs := rfl
    have hmul : (c :: cs).length * fs.sectorsPerCluster =
        fs.sectorsPerCluster + cs.length * fs.sectorsPerCluster := by
      rw [List.length_cons, Nat.succ_mul, Nat.add_comm]
    rw [hcons, hmul, sectorBytes_add,
      List.append_eq_append_iff_of_size_eq_left (by simp only [length_sectorBytes]),
      sectorBytes_eq_iff, ih]
    constructor
    · rintro ⟨hhead, htail⟩ i c' hc'
      cases i with
      | zero =>
        cases hc'
        simpa using hhead
      | succ i =>
        rw [Nat.succ_mul, Nat.add_comm _ fs.sectorsPerCluster, ← Nat.add_assoc]
        exact htail i c' hc'
    · intro h
      constructor
      · simpa using h 0 c rfl
      · intro i c' hc'
        have hi := h (i + 1) c' hc'
        rwa [Nat.succ_mul, Nat.add_comm _ fs.sectorsPerCluster, ← Nat.add_assoc] at hi

/-- The first cluster of the directory `fat32_read_dir` is given. -/
def dirCluster (fs : Fat32) (d : Option Dirent) : ℕ := d.elim fs.rootDirFirstCluster (·.clusterId)

/-- The array `fat32_to_dirent` gets is the contents of the chain in chain order. -/
def ReadsChain (fs : Fat32) (cs : List ℕ) (fuel : ℕ) (d : Option Dirent) (s : Flat)
    (disk : Disk) : Prop :=
  ∃ dirs dirN t, (fat32ReadDirArray flat disk fuel fs d).run s = .ok (dirs, dirN) t ∧
    t.bytes dirs (32 * dirN) = chainBytes disk fs cs

/-- The number of entries comes from 32-bit products, whatever was read. -/
theorem fat32ReadDirArray_count {disk : Disk} {dirs dirN : ℕ}
    (hchain : Chain fs size (dirCluster fs d) cs) (hfuel : cs.length < fuel)
    (h : (fat32ReadDirArray flat disk fuel fs d).run s = .ok (dirs, dirN) t) :
    dirN = cs.length % 2 ^ 32 * fs.sectorsPerCluster % 2 ^ 32 * 512 % 2 ^ 32 / 32 := by
  have hstart : d.elim fs.rootDirFirstCluster (·.clusterId) = dirCluster fs d := rfl
  unfold fat32ReadDirArray at h
  simp only [hstart, countClusters_chain hchain hfuel, pure_bind] at h
  obtain ⟨a, u, _, hret⟩ := of_bind_ok h
  cases hret
  rfl

/-- One read of as many sectors as the chain has, from the first cluster on. -/
theorem fat32ReadDirArray_contiguous (disk : Disk)
    (hchain : Chain fs size (dirCluster fs d) cs) (hspc : 1 ≤ fs.sectorsPerCluster)
    (hsize : cs.length * fs.sectorsPerCluster * 512 < 2 ^ 32)
    (hroom : s.Room (cs.length * fs.sectorsPerCluster * 512)) (hfuel : cs.length < fuel) :
    ∃ t, (fat32ReadDirArray flat disk fuel fs d).run s =
        .ok (s.cursor, cs.length * fs.sectorsPerCluster * 512 / 32) t ∧
      t.bytes s.cursor (cs.length * fs.sectorsPerCluster * 512) =
        sectorBytes disk (clusterToLba fs (dirCluster fs d))
          (cs.length * fs.sectorsPerCluster) := by
  obtain ⟨hk, hks, hbytes⟩ := chain_counts hspc hsize
  have hone : 1 ≤ cs.length := List.length_pos_iff.mpr hchain.ne_nil
  have hnum : 1 ≤ cs.length * fs.sectorsPerCluster := Nat.mul_pos hone hspc
  obtain ⟨t, halloc, -⟩ := kmalloc_flat fuel hroom (by omega) (by omega)
  have hfits := hroom.fits
  let B := flatBlock t s.cursor (cs.length * fs.sectorsPerCluster * 512) (by omega)
  obtain ⟨u, hread, hst⟩ := sdReadblock_stored (o := 0) B disk
    (clusterToLba fs (dirCluster fs d)) hnum (fun _ _ => rfl) (by rw [Nat.zero_add])
  rw [Nat.add_zero] at hread
  refine ⟨u, ?_, hst.contents (by rw [length_sectorBytes])⟩
  have hstart : d.elim fs.rootDirFirstCluster (·.clusterId) = dirCluster fs d := rfl
  unfold fat32ReadDirArray secRead
  simp only [hstart, countClusters_chain hchain hfuel, pure_bind, hk, hks, hbytes,
    Nat.mul_comm 512 (cs.length * fs.sectorsPerCluster)]
  rw [bind_assoc, bind_ok halloc, bind_assoc, bind_ok hread, bind_assoc,
    bind_ok (run_assert (by rw [hks]) _ _)]
  rfl

/-- On one disk: the counts fit, and the sectors after the first cluster happen to hold
what the chain's clusters hold. -/
theorem readsChain_iff (disk : Disk)
    (hchain : Chain fs size (dirCluster fs d) cs) (hspc : 1 ≤ fs.sectorsPerCluster)
    (hroom : s.Room (cs.length * fs.sectorsPerCluster * 512 % 2 ^ 32))
    (hfuel : cs.length < fuel) :
    ReadsChain fs cs fuel d s disk ↔
      cs.length * fs.sectorsPerCluster * 512 < 2 ^ 32 ∧
      ∀ i c, cs[i]? = some c → ∀ j < fs.sectorsPerCluster, ∀ b < 512,
        disk (clusterToLba fs (dirCluster fs d) + i * fs.sectorsPerCluster + j) b =
          disk (clusterToLba fs c + j) b := by
  have hsmall : ReadsChain fs cs fuel d s disk →
      cs.length * fs.sectorsPerCluster * 512 < 2 ^ 32 := by
    rintro ⟨dirs, dirN, t, hrun, hbytes⟩
    have hlen := congrArg List.length hbytes
    have hcount := fat32ReadDirArray_count hchain hfuel hrun
    rw [length_chainBytes, ← Nat.mul_assoc] at hlen
    unfold Flat.bytes at hlen
    rw [List.length_map, List.length_range] at hlen
    omega
  have hcontents : cs.length * fs.sectorsPerCluster * 512 < 2 ^ 32 →
      (ReadsChain fs cs fuel d s disk ↔
        sectorBytes disk (clusterToLba fs (dirCluster fs d))
          (cs.length * fs.sectorsPerCluster) = chainBytes disk fs cs) := by
    intro hsize
    rw [Nat.mod_eq_of_lt hsize] at hroom
    obtain ⟨t, hrun, hbytes⟩ := fat32ReadDirArray_contiguous disk hchain hspc hsize hroom hfuel
    have h32 : 32 * (cs.length * fs.sectorsPerCluster * 512 / 32) =
        cs.length * fs.sectorsPerCluster * 512 := by omega
    constructor
    · rintro ⟨dirs, dirN, t', hrun', hbytes'⟩
      rw [hrun] at hrun'
      cases hrun'
      rw [← hbytes', h32, hbytes]
    · intro h
      exact ⟨_, _, t, hrun, by rw [h32, hbytes, h]⟩
  constructor
  · intro h
    have hsize := hsmall h
    exact ⟨hsize, (sectorBytes_eq_chainBytes_iff disk _ cs).mp ((hcontents hsize).mp h)⟩
  · rintro ⟨hsize, h⟩
    exact (hcontents hsize).mpr ((sectorBytes_eq_chainBytes_iff disk _ cs).mpr h)

/-- A directory is read along its chain on every disk exactly when its clusters lie one
after the other on the card. -/
theorem fat32ReadDir_follows_chain (fs : Fat32) (size : FatSize) (d : Option Dirent)
    (cs : List ℕ) (s : Flat) (fuel : ℕ) (hchain : Chain fs size (dirCluster fs d) cs)
    (hspc : 1 ≤ fs.sectorsPerCluster)
    (hroom : s.Room (cs.length * fs.sectorsPerCluster * 512 % 2 ^ 32))
    (hfuel : cs.length < fuel) :
    (∀ disk, ReadsChain fs cs fuel d s disk) ↔
      cs.length * fs.sectorsPerCluster * 512 < 2 ^ 32 ∧
      ∀ i c, cs[i]? = some c →
        clusterToLba fs c = clusterToLba fs (dirCluster fs d) + i * fs.sectorsPerCluster := by
  constructor
  · intro h
    refine ⟨((readsChain_iff (fun _ _ => 0) hchain hspc hroom hfuel).mp (h _)).1, ?_⟩
    intro i c hc
    -- A disk that differs in one sector only tells the two places apart.
    let disk : Disk := fun lba _ => if lba = clusterToLba fs c then 255 else 0
    obtain ⟨-, hsame⟩ := (readsChain_iff disk hchain hspc hroom hfuel).mp (h disk)
    have hi := hsame i c hc 0 hspc 0 (Nat.zero_lt_succ 511)
    by_contra hne
    change (if _ + 0 = _ then (255 : UInt8) else 0) = if _ + 0 = _ then 255 else 0 at hi
    rw [Nat.add_zero, Nat.add_zero, if_neg (Ne.symm hne), if_pos rfl] at hi
    exact absurd hi (by decide)
  · rintro ⟨hsize, hlba⟩ disk
    refine (readsChain_iff disk hchain hspc hroom hfuel).mpr ⟨hsize, ?_⟩
    intro i c hc j _ b _
    rw [hlba i c hc]

end Directory

theorem fat32ReadDir_follows_chain_scattered :
    (∀ disk, ReadsChain scatteredFs [2, 5] 3 none emptyFlat disk) ↔
      [2, 5].length * scatteredFs.sectorsPerCluster * 512 < 2 ^ 32 ∧
      ∀ i c, [2, 5][i]? = some c → clusterToLba scatteredFs c =
        clusterToLba scatteredFs (dirCluster scatteredFs none) +
          i * scatteredFs.sectorsPerCluster :=
  fat32ReadDir_follows_chain scatteredFs scatteredSize none [2, 5] emptyFlat 3 scattered_chain
    (by decide) scattered_room (by decide)

/-- Cluster 3 is read in the place of cluster 5. -/
theorem scattered_dir_not_readsChain :
    Chain scatteredFs scatteredSize (dirCluster scatteredFs none) [2, 5] ∧
      ¬ ReadsChain scatteredFs [2, 5] 3 none emptyFlat numberedDisk := by
  refine ⟨scattered_chain, ?_⟩
  intro h
  have hbytes := ((readsChain_iff numberedDisk scattered_chain (by decide) scattered_room
    (by decide)).mp h).2 1 5 rfl 0 (by decide) 0 (by decide)
  exact absurd hbytes (by decide)

end SimplePiOS.Kernel
