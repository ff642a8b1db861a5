import Mathlib.Data.Nat.ModEq
import SimplePiOS.Kernel.Mount

/-! The volume `fat32_init` takes from a disk, and where its clusters are looked for. -/
namespace SimplePiOS.Kernel
open Lib Libpi

/-- Little-endian numbers in a sector. -/
def sector16 (f : ℕ → UInt8) (i : ℕ) : ℕ := (f i).toNat + 2 ^ 8 * (f (i + 1)).toNat
def sector32 (f : ℕ → UInt8) (i : ℕ) : ℕ := sector16 f i + 2 ^ 16 * sector16 f (i + 2)

def BootSec.ofSector (f : ℕ → UInt8) : BootSec where
  bytesPerSec := .ofNat 16 (sector16 f 11)
  secPerCluster := (f 13).toBitVec
  reservedAreaNsec := .ofNat 16 (sector16 f 14)
  nfats := (f 16).toBitVec
  maxFiles := .ofNat 16 (sector16 f 17)
  fsNsec := .ofNat 16 (sector16 f 19)
  zero := .ofNat 16 (sector16 f 22)
  nsecInFs := .ofNat 32 (sector32 f 32)
  nsecPerFat := .ofNat 32 (sector32 f 36)
  firstCluster := .ofNat 32 (sector32 f 44)
  infoSecNum := .ofNat 16 (sector16 f 48)
  backupBootLoc := .ofNat 16 (sector16 f 50)
  extendedSig := (f 66).toBitVec
  sig := .ofNat 16 (sector16 f 510)

/-- Entry `i` of the partition table is all zeros. -/
def emptyEntry (f : ℕ → UInt8) (i : ℕ) : Bool := (List.range 16).all fun d => f (446 + 16 * i + d) == 0

/-- What `fat32_init` asks of the master boot record. -/
structure MbrOk (f : ℕ → UInt8) : Prop where
  signature : sector16 f 510 = 0xAA55
  present : emptyEntry f 0 = false
  single : emptyEntry f 1 = true ∧ emptyEntry f 2 = true ∧ emptyEntry f 3 = true
  kind : isFat32 (f 450) = true

/-- `s` has the sector at `a`. -/
def HasSector (s : Machine) (a : ℕ) (f : ℕ → UInt8) : Prop := ∀ i < 512, s.view (a + i) = some (f i)

section Sector
variable {s t : Machine} {a i n : ℕ} {f : ℕ → UInt8}

theorem HasSector.load (h : HasSector s a f) (hi : i < 512) :
    (mmu.load (a + i)).run s = .ok (f i) s := load_view (h i hi)

theorem HasSector.load16 (h : HasSector s a f) (hi : i + 1 < 512) :
    (Libpi.load16 mmu (a + i)).run s = .ok (sector16 f i) s := by
  have hlow := h.load (Nat.lt_of_succ_lt hi)
  have hhigh := h.load hi
  rw [← Nat.add_assoc] at hhigh
  unfold Libpi.load16
  rw [bind_ok hlow, bind_ok hhigh]
  rfl

theorem HasSector.load32 (h : HasSector s a f) (hi : i + 3 < 512) :
    (Libpi.load32 mmu (a + i)).run s = .ok (sector32 f i) s := by
  have hlow := h.load16 (i := i) (by omega)
  have hhigh := h.load16 (i := i + 2) (by omega)
  rw [← Nat.add_assoc] at hhigh
  unfold Libpi.load32
  rw [bind_ok hlow, bind_ok hhigh]
  rfl

theorem HasSector.bootSecAt (h : HasSector s a f) :
    (Kernel.bootSecAt mmu a).run s = .ok (BootSec.ofSector f) s := by
  unfold Kernel.bootSecAt
  rw [bind_ok (h.load16 (by omega)), bind_ok (h.load (by omega)), bind_ok (h.load16 (by omega)),
    bind_ok (h.load (by omega)), bind_ok (h.load16 (by omega)), bind_ok (h.load16 (by omega)),
    bind_ok (h.load16 (by omega)), bind_ok (h.load32 (by omega)), bind_ok (h.load32 (by omega)),
    bind_ok (h.load32 (by omega)), bind_ok (h.load16 (by omega)), bind_ok (h.load16 (by omega)),
    bind_ok (h.load (by omega)), bind_ok (h.load16 (by omega))]
  rfl

theorem HasSector.allZero (h : HasSector s a f) (hi : i + n ≤ 512) :
    (Kernel.allZero mmu (a + i) n).run s =
      .ok ((List.range n).all fun d => f (i + d) == 0) s := by
  induction n generalizing i with
  | zero => rfl
  | succ n ih =>
    have hrest := ih (i := i + 1) (by omega)
    have hall : ((List.range (n + 1)).all fun d => f (i + d) == 0) =
        (f i == 0 && (List.range n).all fun d => f (i + 1 + d) == 0) := by
      rw [List.range_succ_eq_map, List.all_cons, List.all_map]
      congr 2
      funext d
      change (f (i + (d + 1)) == 0) = _
      rw [Nat.add_comm d, ← Nat.add_assoc]
    unfold Kernel.allZero
    rw [bind_ok (h.load (by omega)), hall]
    by_cases hz : f i = 0
    · rw [if_neg (not_not_intro hz), hz]
      exact hrest
    · have hbeq : (f i == 0) = false := beq_false_of_ne hz
      rw [if_pos hz, hbeq]
      rfl

theorem HasSector.partitionEmpty (h : HasSector s a f) (hi : i < 4) :
    (fat32PartitionEmpty mmu (partTab a i)).run s = .ok (emptyEntry f i) s := by
  have hzero := h.allZero (i := 446 + 16 * i) (n := 16) (by omega)
  unfold fat32PartitionEmpty partTab
  rw [Nat.add_assoc]
  exact hzero

/-- `m` returns where it is if `c` holds, and not at all otherwise. -/
def Checks (s : Machine) (m : Kern Unit) (c : Prop) : Prop := ∀ u t, m.run s = .ok u t ↔ c ∧ t = s

theorem Checks.bind {m : Kern Unit} {c : Prop} (h : Checks s m c) {β : Type} {k : Unit → Kern β}
    {b : β} : (m >>= k).run s = .ok b t ↔ c ∧ (k ()).run s = .ok b t := by
  constructor
  · intro hrun
    obtain ⟨u, s', hm, hrest⟩ := of_bind_ok hrun
    obtain ⟨hc, rfl⟩ := (h u s').mp hm
    exact ⟨hc, hrest⟩
  · rintro ⟨hc, hrest⟩
    rw [bind_ok ((h () s).mpr ⟨hc, rfl⟩)]
    exact hrest

theorem checks_assert (s : Machine) (p : Prop) [Decidable p] (msg : String) :
    Checks s (assert p msg) p := by
  intro u t
  constructor
  · exact of_assert_ok
  · rintro ⟨hp, rfl⟩
    exact run_assert hp msg t

theorem checks_forM (s : Machine) (cs : List (Bool × String)) :
    Checks s (forM cs fun c => assert (c.1 = true) c.2) (∀ c ∈ cs, c.1 = true) := by
  induction cs with
  | nil =>
    intro u t
    constructor
    · intro h
      cases h
      exact ⟨by simp, rfl⟩
    · rintro ⟨-, rfl⟩
      rfl
  | cons c cs ih =>
    intro u t
    rw [List.forM_cons, List.forall_mem_cons, (checks_assert s _ _).bind, ih u t, and_assoc]

/-- Some entry is one of FAT32. -/
theorem HasSector.mbrCheck (h : HasSector s a f) : Checks s (fat32MbrCheck mmu a)
    (((List.range 4).any fun i => isFat32 (f (450 + 16 * i))) = true ∧ sector16 f 510 = 0xAA55) := by
  have hfold : ∀ (l : List ℕ), (∀ i ∈ l, i < 4) → ∀ acc : Bool,
      (l.foldlM (fun anyValid i => do
        let partType ← mmu.load (partTab a i + 4)
        return anyValid || isFat32 partType) acc).run s =
        .ok (acc || l.any fun i => isFat32 (f (450 + 16 * i))) s := by
    intro l
    induction l with
    | nil =>
      intro _ acc
      rw [List.any_nil, Bool.or_false]
      rfl
    | cons i l ih =>
      intro hl acc
      obtain ⟨hi, hl⟩ := List.forall_mem_cons.mp hl
      have hload := h.load (i := 450 + 16 * i) (by omega)
      have haddr : partTab a i + 4 = a + (450 + 16 * i) := by
        unfold partTab
        omega
      rw [List.foldlM_cons, haddr, bind_assoc, bind_ok hload, pure_bind, ih hl, List.any_cons,
        Bool.or_assoc]
  have hall := hfold (List.range 4) (fun i hi => List.mem_range.mp hi) false
  intro u t
  unfold fat32MbrCheck
  rw [bind_ok hall, (checks_assert s _ _).bind, bind_ok (h.load16 (by omega)),
    checks_assert s _ _ u t, Bool.false_or, and_assoc]

end Sector

section Init
variable {s : Machine} {top fuel : ℕ} {disk : Disk}

/-- What a mount reads off a disk: where the partition begins, and its boot sector. -/
def partitionLba (disk : Disk) : ℕ := sector32 (disk 0) 454
def bootSec (disk : Disk) : BootSec := .ofSector (disk (partitionLba disk))

/-- A sector that was read in. -/
theorem Allocated.hasSector {t : Machine} {lba : ℕ} (h : Allocated top s t (sectorBytes disk lba 1)) :
    HasSector t s.cursor (disk lba) := by
  intro i hi
  have hview := h.holds.diskByte (i := i) (by omega)
  unfold diskByte at hview
  rwa [Nat.div_eq_of_lt hi, Nat.mod_eq_of_lt hi] at hview

/-- Behind the checks of the master boot record, which leave the state alone. -/
theorem fat32Init_mbr {w : Machine} {a : ℕ}
    (hread : (secRead kernel disk fuel 0 1).run s = .ok a w) (hmbr : HasSector w a (disk 0))
    (fs : Fat32Fs) (t : Machine) : (fat32Init kernel disk fuel).run s = .ok fs t ↔
      MbrOk (disk 0) ∧ (do
        let sector ← secRead kernel disk fuel (partitionLba disk) 1
        let b ← bootSecAt mmu sector
        fat32VolumeIdCheck b
        fat32Mk kernel disk fuel (partitionLba disk) b : Kern Fat32Fs).run w = .ok fs t := by
  have hbus : kernel.toBus = mmu := rfl
  have hkind := hmbr.load (i := 450) (by omega)
  have hlba : (load32 mmu (a + 454)).run w = .ok (partitionLba disk) w := hmbr.load32 (by omega)
  have haddr : partTab a 0 + 4 = a + 450 := rfl
  have haddr' : partTab a 0 + 8 = a + 454 := rfl
  unfold fat32Init
  rw [bind_ok hread, hbus, haddr, haddr', hmbr.mbrCheck.bind,
    bind_ok (hmbr.partitionEmpty (by omega)), (checks_assert w _ _).bind,
    bind_ok (hmbr.partitionEmpty (by omega)), (checks_assert w _ _).bind,
    bind_ok (hmbr.partitionEmpty (by omega)), (checks_assert w _ _).bind,
    bind_ok (hmbr.partitionEmpty (by omega)), (checks_assert w _ _).bind,
    bind_ok hkind, (checks_assert w _ _).bind, bind_ok hlba]
  constructor
  · rintro ⟨⟨-, hsig⟩, h0, h1, h2, h3, hkind, hrest⟩
    exact ⟨⟨hsig, h0, ⟨h1, h2, h3⟩, hkind⟩, hrest⟩
  · rintro ⟨⟨hsig, h0, ⟨h1, h2, h3⟩, hkind⟩, hrest⟩
    refine ⟨⟨?_, hsig⟩, h0, h1, h2, h3, hkind, hrest⟩
    exact List.any_eq_true.mpr ⟨0, by simp, hkind⟩

/-- `fat32_init` is `fat32_mk` on a disk that passes the checks. -/
theorem fat32Init_ok_iff (disk : Disk) (h : CanGrowTo top s) (hfuel : 2 ≤ fuel)
    (hroom : s.cursor + 1024 ≤ top * 2 ^ 20) :
    ∃ u, CanGrowTo top u ∧ u.cursor = s.cursor + 1024 ∧ ∀ fs t,
      (fat32Init kernel disk fuel).run s = .ok fs t ↔
        MbrOk (disk 0) ∧ (∀ c ∈ volumeIdChecks (bootSec disk), c.1 = true) ∧
          (fat32Mk kernel disk fuel (partitionLba disk) (bootSec disk)).run u = .ok fs t := by
  obtain ⟨w, hread, hw⟩ := secRead_run disk 0 h (Nat.le_refl 1) (by omega) hfuel
  have hcurw := hw.cursor
  rw [length_sectorBytes] at hcurw
  obtain ⟨u, hread', hu⟩ := secRead_run disk (partitionLba disk) hw.grows (Nat.le_refl 1)
    (by omega) hfuel
  have hcuru := hu.cursor
  rw [length_sectorBytes] at hcuru
  refine ⟨u, hu.grows, by omega, ?_⟩
  intro fs t
  rw [fat32Init_mbr hread hw.hasSector, bind_ok hread', bind_ok hu.hasSector.bootSecAt]
  unfold fat32VolumeIdCheck
  rw [(checks_forM u _).bind]
  rfl

/-- A mount that returns had room for the two sectors it begins with. -/
theorem room_of_fat32Init {fs : Fat32Fs} {t : Machine} (h : CanGrowTo top s) (hfuel : 2 ≤ fuel)
    (hrun : (fat32Init kernel disk fuel).run s = .ok fs t) : s.cursor + 1024 ≤ top * 2 ^ 20 := by
  have hreads := hrun
  unfold fat32Init at hreads
  obtain ⟨mbr, w, hread, -⟩ := of_bind_ok hreads
  obtain ⟨-, hroom⟩ := of_secRead_ok h hfuel hread
  obtain ⟨w', hread', hw⟩ := secRead_run disk 0 h (Nat.le_refl 1) hroom hfuel
  have hcur := hw.cursor
  rw [length_sectorBytes] at hcur
  obtain ⟨-, hrest⟩ := (fat32Init_mbr hread' hw.hasSector fs t).mp hrun
  obtain ⟨sector, u, hboot, -⟩ := of_bind_ok hrest
  obtain ⟨-, hroom'⟩ := of_secRead_ok hw.grows hfuel hboot
  omega

/-- Where cluster `c` of a FAT32 volume lies. -/
def clusterLocation (lbaStart : ℕ) (b : BootSec) (c : ℕ) : ℕ :=
  lbaStart + b.reservedAreaNsec.toNat + b.nfats.toNat * b.nsecPerFat.toNat +
    (c - 2) * b.secPerCluster.toNat

/-- The address of a cluster as it is computed is its location if no carry is lost and the
root directory's cluster number differs from 2 by nothing that is left of it in a word. -/
theorem clusterToLba_mounted {lbaStart c fat : ℕ} {b : BootSec} {words : ℕ → ℕ} (hc : 2 ≤ c) :
    clusterToLba ((mountedFs lbaStart b fat).withTable words) c = clusterLocation lbaStart b c ↔
      clusterLocation lbaStart b c < 2 ^ 32 ∧
        b.firstCluster.toNat * b.secPerCluster.toNat ≡ 2 * b.secPerCluster.toNat [MOD 2 ^ 32] := by
  have hroot := b.firstCluster.isLt
  obtain ⟨root, hroot'⟩ : ∃ root, root = b.firstCluster.toNat := ⟨_, rfl⟩
  obtain ⟨spc, hspc⟩ : ∃ spc, spc = b.secPerCluster.toNat := ⟨_, rfl⟩
  obtain ⟨base, hbase⟩ : ∃ base, base = lbaStart + b.reservedAreaNsec.toNat +
    b.nfats.toNat * b.nsecPerFat.toNat := ⟨_, rfl⟩
  have hbegin : ((mountedFs lbaStart b fat).withTable words).clusterBeginLba = base % 2 ^ 32 := by
    change add32 (add32 _ _) (_ % 2 ^ 32) = _
    unfold add32
    rw [hbase]
    simp only [Nat.mod_add_mod, Nat.add_mod_mod]
  have hlba : clusterToLba ((mountedFs lbaStart b fat).withTable words) c =
      (base + sub32 c root * spc) % 2 ^ 32 := by
    unfold clusterToLba
    rw [hbegin]
    unfold add32
    simp only [Nat.mod_add_mod, Nat.add_mod_mod]
    rw [hroot', hspc]
    rfl
  have hloc : clusterLocation lbaStart b c = base + (c - 2) * spc := by
    unfold clusterLocation
    rw [hbase, hspc]
  -- both sides with the root's sectors added
  have hsub : sub32 c root * spc + root * spc ≡ (c - 2) * spc + 2 * spc [MOD 2 ^ 32] := by
    rw [← Nat.add_mul, ← Nat.add_mul]
    apply Nat.ModEq.mul_right
    unfold Nat.ModEq sub32
    omega
  rw [hlba, hloc, ← hroot', ← hspc]
  have hmod : (base + sub32 c root * spc ≡ base + (c - 2) * spc [MOD 2 ^ 32]) ↔
      root * spc ≡ 2 * spc [MOD 2 ^ 32] := by
    constructor
    · intro h
      have hdiff := Nat.ModEq.add_left_cancel' base h
      exact Nat.ModEq.add_left_cancel hdiff hsub
    · intro h
      exact (Nat.ModEq.add_right_cancel h hsub).add_left base
  rw [← hmod]
  unfold Nat.ModEq
  constructor
  · intro h
    have hlt := Nat.mod_lt (base + sub32 c root * spc) (show 0 < 2 ^ 32 by omega)
    rw [h] at hlt
    exact ⟨hlt, by rw [h, Nat.mod_eq_of_lt hlt]⟩
  · rintro ⟨hlt, h⟩
    rw [h, Nat.mod_eq_of_lt hlt]

/-- On a volume that was mounted, a cluster is looked for where it is exactly if the root
directory's cluster is the second one, up to what does not count in 32 bits. -/
theorem clusterToLba_located_iff {fs : Fat32Fs} {t : Machine} (words : ℕ → ℕ) {c : ℕ}
    (h : CanGrowTo top s) (hfuel : 2 ≤ fuel)
    (hrun : (fat32Init kernel disk fuel).run s = .ok fs t) (hc : 2 ≤ c) :
    clusterToLba (fs.withTable words) c = clusterLocation (partitionLba disk) (bootSec disk) c ↔
      clusterLocation (partitionLba disk) (bootSec disk) c < 2 ^ 32 ∧
        (bootSec disk).firstCluster.toNat * (bootSec disk).secPerCluster.toNat ≡
          2 * (bootSec disk).secPerCluster.toNat [MOD 2 ^ 32] := by
  obtain ⟨u, hgrow, -, hinit⟩ := fat32Init_ok_iff disk h hfuel (room_of_fat32Init h hfuel hrun)
  obtain ⟨-, -, hmk⟩ := (hinit fs t).mp hrun
  obtain ⟨-, -, -, rfl⟩ := (fat32Mk_ok_iff disk _ _ hgrow hfuel fs).mp ⟨t, hmk⟩
  exact clusterToLba_mounted hc

/-- A disk with a volume from sector 8 on, with one sector to a cluster and to each table. Its
root directory begins at the given cluster. -/
def volumeDisk (root : UInt8) : Disk := fun lba i =>
  if lba = 0 then ([(450, 0x0b), (454, 8), (510, 0x55), (511, 0xAA)].lookup i).getD 0
  else if lba = 8 then ([(12, 2), (13, 1), (14, 32), (16, 2), (32, 64), (36, 1), (44, root),
    (48, 1), (50, 6), (66, 0x29), (510, 0x55), (511, 0xAA)].lookup i).getD 0
  else 0

theorem volumeDisk_mounts (root : UInt8) (hroot : root = 2 ∨ root = 3) :
    ∃ s fs t, notmainInit.run powerOn = .ok () s ∧ CanGrowTo nPhysPages s ∧
      (fat32Init kernel (volumeDisk root) 2).run s = .ok fs t ∧
      ∃ fat, fs = mountedFs 8 (bootSec (volumeDisk root)) fat := by
  obtain ⟨s, hboot, hgrow, hcur⟩ := notmainInit_canGrow powerOn rfl
  have hphys : nPhysPages = 512 := rfl
  have hheap : kernelHeapAddr = 5 * 2 ^ 20 := rfl
  obtain ⟨u, hgrow', hcur', hinit⟩ := fat32Init_ok_iff (volumeDisk root) hgrow (Nat.le_refl 2)
    (by omega)
  have hsmall : (bootSec (volumeDisk root)).nsecPerFat.toNat = 1 := by
    rcases hroot with rfl | rfl <;> rfl
  have hmbr : MbrOk (volumeDisk root 0) := by
    rcases hroot with rfl | rfl <;> exact ⟨by decide, by decide, by decide, by decide⟩
  have hchecks : ∀ c ∈ volumeIdChecks (bootSec (volumeDisk root)), c.1 = true := by
    rw [← List.all_eq_true]
    rcases hroot with rfl | rfl <;> decide
  have hlba : partitionLba (volumeDisk root) = 8 := by
    rcases hroot with rfl | rfl <;> rfl
  have hcopies : ∀ i < (bootSec (volumeDisk root)).nsecPerFat.toNat,
      CopiesAgreeAt (volumeDisk root) 8 (bootSec (volumeDisk root)) i := by
    intro i hi
    have hzero : i = 0 := by omega
    subst hzero
    rcases hroot with rfl | rfl <;> rfl
  obtain ⟨t, hmk⟩ := (fat32Mk_ok_iff (volumeDisk root) 8 (bootSec (volumeDisk root)) hgrow'
    (Nat.le_refl 2) _).mpr ⟨by omega, by omega, hcopies, rfl⟩
  rw [← hlba] at hmk
  exact ⟨s, _, t, hboot, hgrow, (hinit _ t).mpr ⟨hmbr, hchecks, hmk⟩, u.cursor, by rw [hlba]⟩

theorem clusterToLba_located_second : ∃ s fs t, notmainInit.run powerOn = .ok () s ∧
    (fat32Init kernel (volumeDisk 2) 2).run s = .ok fs t ∧
    (clusterToLba (fs.withTable fun _ => 0) 5 =
        clusterLocation (partitionLba (volumeDisk 2)) (bootSec (volumeDisk 2)) 5 ↔
      clusterLocation (partitionLba (volumeDisk 2)) (bootSec (volumeDisk 2)) 5 < 2 ^ 32 ∧
        (bootSec (volumeDisk 2)).firstCluster.toNat * (bootSec (volumeDisk 2)).secPerCluster.toNat ≡
          2 * (bootSec (volumeDisk 2)).secPerCluster.toNat [MOD 2 ^ 32]) := by
  obtain ⟨s, fs, t, hboot, hgrow, hinit, -⟩ := volumeDisk_mounts 2 (.inl rfl)
  exact ⟨s, fs, t, hboot, hinit, clusterToLba_located_iff _ hgrow (Nat.le_refl 2) hinit (by omega)⟩

/-- With the root directory in cluster 3, cluster 3 is looked for where cluster 2 is. -/
theorem thirdRoot_mislocated : ∃ s fs t, notmainInit.run powerOn = .ok () s ∧
    (fat32Init kernel (volumeDisk 3) 2).run s = .ok fs t ∧
    ∀ words, clusterToLba (fs.withTable words) 3 ≠
      clusterLocation (partitionLba (volumeDisk 3)) (bootSec (volumeDisk 3)) 3 := by
  obtain ⟨s, fs, t, hboot, -, hinit, fat, rfl⟩ := volumeDisk_mounts 3 (.inr rfl)
  refine ⟨s, _, t, hboot, hinit, ?_⟩
  intro words
  exact (by decide : clusterToLba ((mountedFs 8 (bootSec (volumeDisk 3)) 0).withTable fun _ => 0) 3 ≠
    clusterLocation (partitionLba (volumeDisk 3)) (bootSec (volumeDisk 3)) 3)

end Init
end SimplePiOS.Kernel
