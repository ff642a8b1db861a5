import SimplePiOS.Kernel.ExecRun
import SimplePiOS.Kernel.SecRead

/-! `fat32_init`: the checks of the master boot record and the boot sector, the two copies of
the table, and the volume that comes of them. -/
namespace SimplePiOS.Kernel
open Lib Libpi

/-- `fat32_boot_sec_t`, the fields that mounting looks at. -/
structure BootSec where
  bytesPerSec : BitVec 16
  secPerCluster : BitVec 8
  reservedAreaNsec : BitVec 16
  nfats : BitVec 8
  maxFiles : BitVec 16
  fsNsec : BitVec 16
  zero : BitVec 16
  nsecInFs : BitVec 32
  nsecPerFat : BitVec 32
  firstCluster : BitVec 32
  infoSecNum : BitVec 16
  backupBootLoc : BitVec 16
  extendedSig : BitVec 8
  sig : BitVec 16
  deriving DecidableEq

/-- `fat32_fs_t` with the table as the pointer it is. -/
structure Fat32Fs where
  fatBeginLba : ℕ
  clusterBeginLba : ℕ
  sectorsPerCluster : ℕ
  rootDirFirstCluster : ℕ
  fat : ℕ
  nFat : ℕ
  deriving DecidableEq

/-- The volume with the words that lie behind the pointer. -/
def Fat32Fs.withTable (fs : Fat32Fs) (words : ℕ → ℕ) : Fat32 :=
  ⟨fs.fatBeginLba, fs.clusterBeginLba, fs.sectorsPerCluster, fs.rootDirFirstCluster, words, fs.nFat⟩

/-- `is_pow2` takes 0 for a power of two. -/
def isPow2 (x : BitVec 32) : Bool := x &&& -x == x

/-- The assertions of `fat32_volume_id_check` in their order. -/
def volumeIdChecks (b : BootSec) : List (Bool × String) :=
  [(b.bytesPerSec == 512, "b->bytes_per_sec == 512"),
   (b.nfats == 2, "b->nfats == 2"),
   (b.sig == 0xAA55, "b->sig == 0xAA55"),
   (isPow2 (b.secPerCluster.setWidth 32), "is_pow2(b->sec_per_cluster)"),
   (b.bytesPerSec == 512 || b.bytesPerSec == 1024 || b.bytesPerSec == 2048 ||
     b.bytesPerSec == 4096, "n == 512 || n == 1024 || n == 2048 || n == 4096"),
   (b.maxFiles == 0, "!b->max_files"),
   (b.fsNsec == 0, "b->fs_nsec == 0"),
   (b.zero == 0, "b->zero == 0"),
   (b.nsecInFs != 0, "b->nsec_in_fs != 0"),
   (b.infoSecNum == 1, "b->info_sec_num == 1"),
   (b.backupBootLoc == 6, "b->backup_boot_loc == 6"),
   (b.extendedSig == 0x29, "b->extended_sig == 0x29")]

variable {σ : Type} (bus : Bus σ) (sys : Platform σ) (disk : Disk) (fuel : ℕ)

def fat32VolumeIdCheck (b : BootSec) : EStateM Stop σ Unit :=
  forM (volumeIdChecks b) fun c => assert (c.1 = true) c.2

/-- The fields of the packed structure at `b`. No store of mounting goes there, so it makes no
difference that the source loads them where it uses them. -/
def bootSecAt (b : ℕ) : EStateM Stop σ BootSec := do
  let bytesPerSec ← load16 bus (b + 11)
  let secPerCluster ← bus.load (b + 13)
  let reservedAreaNsec ← load16 bus (b + 14)
  let nfats ← bus.load (b + 16)
  let maxFiles ← load16 bus (b + 17)
  let fsNsec ← load16 bus (b + 19)
  let zeroField ← load16 bus (b + 22)
  let nsecInFs ← load32 bus (b + 32)
  let nsecPerFat ← load32 bus (b + 36)
  let firstCluster ← load32 bus (b + 44)
  let infoSecNum ← load16 bus (b + 48)
  let backupBootLoc ← load16 bus (b + 50)
  let extendedSig ← bus.load (b + 66)
  let sig ← load16 bus (b + 510)
  return {
    bytesPerSec := .ofNat 16 bytesPerSec
    secPerCluster := secPerCluster.toBitVec
    reservedAreaNsec := .ofNat 16 reservedAreaNsec
    nfats := nfats.toBitVec
    maxFiles := .ofNat 16 maxFiles
    fsNsec := .ofNat 16 fsNsec
    zero := .ofNat 16 zeroField
    nsecInFs := .ofNat 32 nsecInFs
    nsecPerFat := .ofNat 32 nsecPerFat
    firstCluster := .ofNat 32 firstCluster
    infoSecNum := .ofNat 16 infoSecNum
    backupBootLoc := .ofNat 16 backupBootLoc
    extendedSig := extendedSig.toBitVec
    sig := .ofNat 16 sig }

/-- `&mbr->part_tab[i]`. -/
def partTab (mbr i : ℕ) : ℕ := mbr + 446 + 16 * i

def isFat32 (t : UInt8) : Bool := t == 0x0b || t == 0x0c

def fat32MbrCheck (mbr : ℕ) : EStateM Stop σ Unit := do
  let anyValidEntries ← (List.range 4).foldlM (fun anyValid i => do
    let partType ← bus.load (partTab mbr i + 4)
    return anyValid || isFat32 partType) false
  assert (anyValidEntries = true) "any_valid_entries"
  let sigval ← load16 bus (mbr + 510)
  assert (sigval = 0xAA55) "mbr->sigval == 0xAA55"

def allZero : ℕ → ℕ → EStateM Stop σ Bool
  | _, 0 => return true
  | p, n + 1 => do
    let b ← bus.load p
    if b ≠ 0 then return false
    allZero (p + 1) n

def fat32PartitionEmpty (part : ℕ) : EStateM Stop σ Bool := allZero bus part 16

/-- Both copies of the table are read in, and the first is kept. -/
def fat32Mk (lbaStart : ℕ) (b : BootSec) : EStateM Stop σ Fat32Fs := do
  let fatBeginLba := add32 lbaStart b.reservedAreaNsec.toNat
  let clusterBeginLba := add32 fatBeginLba (b.nfats.toNat * b.nsecPerFat.toNat % 2 ^ 32)
  let fat1 ← secRead sys disk fuel fatBeginLba b.nsecPerFat.toNat
  let fat2 ← secRead sys disk fuel (add32 fatBeginLba b.nsecPerFat.toNat) b.nsecPerFat.toNat
  let differ ← memcmp sys.toBus fat1 fat2 b.nsecPerFat.toNat
  assert (differ = 0) "memcmp(fat1, fat2, b->nsec_per_fat) == 0"
  return {
    fatBeginLba := fatBeginLba
    clusterBeginLba := clusterBeginLba
    sectorsPerCluster := b.secPerCluster.toNat
    rootDirFirstCluster := b.firstCluster.toNat
    fat := fat1
    nFat := b.nfats.toNat }

def fat32Init : EStateM Stop σ Fat32Fs := do
  let mbr ← secRead sys disk fuel 0 1
  fat32MbrCheck sys.toBus mbr
  let empty0 ← fat32PartitionEmpty sys.toBus (partTab mbr 0)
  assert (empty0 = false) "!fat32_partition_empty((uint8_t*)&mbr->part_tab[0])"
  let empty1 ← fat32PartitionEmpty sys.toBus (partTab mbr 1)
  assert (empty1 = true) "fat32_partition_empty((uint8_t*)&mbr->part_tab[1])"
  let empty2 ← fat32PartitionEmpty sys.toBus (partTab mbr 2)
  assert (empty2 = true) "fat32_partition_empty((uint8_t*)&mbr->part_tab[2])"
  let empty3 ← fat32PartitionEmpty sys.toBus (partTab mbr 3)
  assert (empty3 = true) "fat32_partition_empty((uint8_t*)&mbr->part_tab[3])"
  let partType ← sys.load (partTab mbr 0 + 4)
  assert (isFat32 partType = true) "is_fat32(p->part_type)"
  let lbaStart ← load32 sys.toBus (partTab mbr 0 + 8)
  let sector ← secRead sys disk fuel lbaStart 1
  let b ← bootSecAt sys.toBus sector
  fat32VolumeIdCheck b
  fat32Mk sys disk fuel lbaStart b

/-- Byte `i` of the sectors from `lba` on. -/
def diskByte (lba i : ℕ) : UInt8 := disk (lba + i / 512) (i % 512)

/-- Where the first copy of the table begins. -/
def fatLba (lbaStart : ℕ) (b : BootSec) : ℕ := add32 lbaStart b.reservedAreaNsec.toNat

/-- The two copies of the table have the same byte `i`. -/
def CopiesAgreeAt (lbaStart : ℕ) (b : BootSec) (i : ℕ) : Prop :=
  diskByte disk (fatLba lbaStart b) i =
    diskByte disk (add32 (fatLba lbaStart b) b.nsecPerFat.toNat) i

/-- Tables that are mounted agree. -/
def DetectsDivergence (lbaStart : ℕ) (b : BootSec) (s : Machine) : Prop :=
  ∀ fs t, (fat32Mk kernel disk fuel lbaStart b).run s = .ok fs t →
    ∀ i < 512 * b.nsecPerFat.toNat, CopiesAgreeAt disk lbaStart b i

section Tables
variable {s t : Machine} {top a : ℕ} {fuel : ℕ} {disk : Disk} {lbaStart : ℕ} {b : BootSec}

theorem sectorBytes_getElem? {lba num i : ℕ} (h : i < num * 512) :
    (sectorBytes disk lba num)[i]? = some (diskByte disk lba i) := by
  induction num with
  | zero => omega
  | succ num ih =>
    rw [sectorBytes_succ]
    by_cases hi : i < num * 512
    · rw [List.getElem?_append_left (by rwa [length_sectorBytes])]
      exact ih hi
    · have hdiv : i / 512 = num := by omega
      have hmod : i - num * 512 = i % 512 := by omega
      have hlt : i % 512 < 512 := Nat.mod_lt _ (by omega)
      rw [List.getElem?_append_right (by rw [length_sectorBytes]; omega), length_sectorBytes, hmod,
        List.getElem?_map, List.getElem?_range hlt]
      unfold diskByte
      rw [hdiv]
      rfl

/-- What a sector read in leaves to be read. -/
theorem Machine.Holds.diskByte {lba num i : ℕ} (h : s.Holds a (sectorBytes disk lba num))
    (hi : i < 512 * num) : s.view (a + i) = some (diskByte disk lba i) :=
  h i _ (sectorBytes_getElem? (by omega))

theorem load_view {c : UInt8} (h : s.view a = some c) : (mmu.load a).run s = .ok c s := by
  have hrun : (mmu.load a).run s = _ := run_loadByte a s
  rw [hrun, h]

/-- `memcmp` of two readable ranges decides whether they are the same. -/
theorem memcmp_run {p q n : ℕ} {f g : ℕ → UInt8} (hp : ∀ i < n, s.view (p + i) = some (f i))
    (hq : ∀ i < n, s.view (q + i) = some (g i)) :
    ∃ v, (memcmp mmu p q n).run s = .ok v s ∧ (v = 0 ↔ ∀ i < n, f i = g i) := by
  induction n generalizing p q f g with
  | zero => exact ⟨0, rfl, by simp⟩
  | succ n ih =>
    have hload := load_view (hp 0 (Nat.succ_pos n))
    have hload' := load_view (hq 0 (Nat.succ_pos n))
    rw [Nat.add_zero] at hload hload'
    have hzero : ((f 0).toNat : ℤ) - (g 0).toNat = 0 ↔ f 0 = g 0 := by
      rw [sub_eq_zero, Nat.cast_inj, UInt8.toNat_inj]
    unfold memcmp
    rw [bind_ok hload, bind_ok hload']
    dsimp only
    by_cases hfirst : f 0 = g 0
    · obtain ⟨v, hrun, hv⟩ := ih (p := p + 1) (q := q + 1) (f := fun i => f (i + 1))
        (g := fun i => g (i + 1)) (by
          intro i hi
          rw [Nat.add_assoc, Nat.add_comm 1]
          exact hp (i + 1) (Nat.succ_lt_succ hi)) (by
          intro i hi
          rw [Nat.add_assoc, Nat.add_comm 1]
          exact hq (i + 1) (Nat.succ_lt_succ hi))
      refine ⟨v, ?_, ?_⟩
      · rw [if_neg (not_not_intro (hzero.mpr hfirst))]
        exact hrun
      · rw [hv]
        constructor
        · intro h i hi
          cases i with
          | zero => exact hfirst
          | succ i => exact h i (Nat.lt_of_succ_lt_succ hi)
        · exact fun h i hi => h (i + 1) (Nat.succ_lt_succ hi)
    · refine ⟨((f 0).toNat : ℤ) - (g 0).toNat, ?_, ?_⟩
      · rw [if_pos (fun h => hfirst (hzero.mp h))]
        rfl
      · constructor
        · exact fun h => absurd (hzero.mp h) hfirst
        · exact fun h => absurd (h 0 (Nat.succ_pos n)) hfirst

/-- The volume that is mounted, its table at the heap's cursor. -/
def mountedFs (lbaStart : ℕ) (b : BootSec) (fat : ℕ) : Fat32Fs where
  fatBeginLba := fatLba lbaStart b
  clusterBeginLba := add32 (fatLba lbaStart b) (b.nfats.toNat * b.nsecPerFat.toNat % 2 ^ 32)
  sectorsPerCluster := b.secPerCluster.toNat
  rootDirFirstCluster := b.firstCluster.toNat
  fat := fat
  nFat := b.nfats.toNat

/-- Two tables that fit in the RAM are read in and compared. -/
theorem fat32Mk_run (disk : Disk) (lbaStart : ℕ) (h : CanGrowTo top s) (hm : 1 ≤ b.nsecPerFat.toNat)
    (hroom : s.cursor + 1024 * b.nsecPerFat.toNat ≤ top * 2 ^ 20) (hfuel : 2 ≤ fuel) :
    ∃ t v, (v = 0 ↔ ∀ i < b.nsecPerFat.toNat, CopiesAgreeAt disk lbaStart b i) ∧
      (fat32Mk kernel disk fuel lbaStart b).run s = (do
        assert (v = (0 : ℤ)) "memcmp(fat1, fat2, b->nsec_per_fat) == 0"
        return mountedFs lbaStart b s.cursor : Kern Fat32Fs).run t := by
  obtain ⟨u, hread, hu⟩ := secRead_run disk (fatLba lbaStart b) h hm (by omega) hfuel
  have hcur := hu.cursor
  rw [length_sectorBytes] at hcur
  obtain ⟨w, hread', hw⟩ := secRead_run disk (add32 (fatLba lbaStart b) b.nsecPerFat.toNat)
    hu.grows hm (by omega) hfuel
  have hlo := h.lo
  have hfirst : ∀ i < b.nsecPerFat.toNat, w.view (s.cursor + i) =
      some (diskByte disk (fatLba lbaStart b) i) := by
    intro i hi
    rw [hw.kept _ (by omega) (by omega)]
    exact hu.holds.diskByte (by omega)
  have hsecond : ∀ i < b.nsecPerFat.toNat, w.view (u.cursor + i) =
      some (diskByte disk (add32 (fatLba lbaStart b) b.nsecPerFat.toNat) i) :=
    fun i hi => hw.holds.diskByte (by omega)
  obtain ⟨v, hcmp, hv⟩ := memcmp_run hfirst hsecond
  refine ⟨w, v, hv, ?_⟩
  unfold fat32Mk
  dsimp only
  have hcmp' : (memcmp kernel.toBus s.cursor u.cursor b.nsecPerFat.toNat).run w = _ := hcmp
  unfold fatLba at hread hread'
  rw [bind_ok hread, bind_ok hread', bind_ok hcmp']
  rfl

/-- A volume is mounted if its tables fit in the RAM and agree as far as they are compared. -/
theorem fat32Mk_ok_iff (disk : Disk) (lbaStart : ℕ) (b : BootSec) (h : CanGrowTo top s) (hfuel : 2 ≤ fuel) (fs : Fat32Fs) :
    (∃ t, (fat32Mk kernel disk fuel lbaStart b).run s = .ok fs t) ↔
      1 ≤ b.nsecPerFat.toNat ∧ s.cursor + 1024 * b.nsecPerFat.toNat ≤ top * 2 ^ 20 ∧
      (∀ i < b.nsecPerFat.toNat, CopiesAgreeAt disk lbaStart b i) ∧
      fs = mountedFs lbaStart b s.cursor := by
  constructor
  · rintro ⟨t, hrun⟩
    have hreads := hrun
    unfold fat32Mk at hreads
    obtain ⟨fat1, u, hread, hrest⟩ := of_bind_ok hreads
    obtain ⟨fat2, w, hread', -⟩ := of_bind_ok hrest
    obtain ⟨hm, hroom⟩ := of_secRead_ok h hfuel hread
    obtain ⟨u', hread₁, hu⟩ := secRead_run disk (fatLba lbaStart b) h hm hroom hfuel
    have hsame : u = u' := (EStateM.Result.ok.inj (hread.symm.trans hread₁)).2
    subst hsame
    have hcur := hu.cursor
    rw [length_sectorBytes] at hcur
    obtain ⟨-, hroom'⟩ := of_secRead_ok hu.grows hfuel hread'
    have hfits : s.cursor + 1024 * b.nsecPerFat.toNat ≤ top * 2 ^ 20 := by omega
    obtain ⟨t', v, hv, hmk⟩ := fat32Mk_run disk lbaStart h hm hfits hfuel
    rw [hmk] at hrun
    obtain ⟨_, t'', hassert, hret⟩ := of_bind_ok hrun
    have hzero := (of_assert_ok hassert).1
    exact ⟨hm, hfits, hv.mp hzero, (EStateM.Result.ok.inj hret).1.symm⟩
  · rintro ⟨hm, hroom, hagree, rfl⟩
    obtain ⟨t, v, hv, hmk⟩ := fat32Mk_run disk lbaStart h hm hroom hfuel
    refine ⟨t, ?_⟩
    rw [hmk, bind_ok (run_assert (hv.mpr hagree) _ _)]
    rfl

/-- Divergence shows exactly if it shows in as many bytes as a table has sectors. Nothing is
mounted either if there is no table or too little RAM for two. -/
theorem fat32Mk_detects_iff (h : CanGrowTo top s) (hfuel : 2 ≤ fuel) :
    DetectsDivergence disk fuel lbaStart b s ↔
      b.nsecPerFat.toNat = 0 ∨ top * 2 ^ 20 < s.cursor + 1024 * b.nsecPerFat.toNat ∨
      (∃ i < b.nsecPerFat.toNat, ¬ CopiesAgreeAt disk lbaStart b i) ∨
      ∀ i, b.nsecPerFat.toNat ≤ i → i < 512 * b.nsecPerFat.toNat →
        CopiesAgreeAt disk lbaStart b i := by
  constructor
  · intro hdetects
    by_cases hm : b.nsecPerFat.toNat = 0
    · exact .inl hm
    by_cases hroom : top * 2 ^ 20 < s.cursor + 1024 * b.nsecPerFat.toNat
    · exact .inr (.inl hroom)
    by_cases hagree : ∀ i < b.nsecPerFat.toNat, CopiesAgreeAt disk lbaStart b i
    · obtain ⟨t, hrun⟩ := (fat32Mk_ok_iff disk lbaStart b h hfuel
        (mountedFs lbaStart b s.cursor)).mpr ⟨by omega, by omega, hagree, rfl⟩
      exact .inr (.inr (.inr fun i _ hi => hdetects _ t hrun i hi))
    · push Not at hagree
      exact .inr (.inr (.inl hagree))
  · intro hcond fs t hrun i hi
    obtain ⟨hm, hroom, hagree, -⟩ := (fat32Mk_ok_iff disk lbaStart b h hfuel fs).mp ⟨t, hrun⟩
    rcases hcond with hzero | hfull | ⟨j, hj, hdiffers⟩ | hrest
    · omega
    · omega
    · exact absurd (hagree j hj) hdiffers
    · by_cases hlt : i < b.nsecPerFat.toNat
      · exact hagree i hlt
      · exact hrest i (Nat.not_lt.mp hlt) hi

end Tables

section Boot

/-- The heap of a kernel that has just started may take all of the RAM. -/
theorem notmainInit_canGrow (s : Machine) (hheap : s.heap.heapStart = 0) :
    ∃ t, notmainInit.run s = .ok () t ∧ CanGrowTo nPhysPages t ∧ t.cursor = kernelHeapAddr := by
  obtain ⟨t, hrun, hat, hfree, hcur, -⟩ := notmainInit_run s hheap
  refine ⟨t, hrun, ⟨5, hat, ?_, ?_⟩, hcur⟩
  · rw [hfree, Nat.card_Ico]
    rfl
  · let device page := sectionFld (page * 2 ^ 20) ⟨true, false, false⟩
    let empty : ℕ → Fld := fun i => if i < nVirtPages then Fld.zero else s.vm.table kernelAsid i
    let global := Function.update (Function.update (Function.update (Function.update
      (Function.update empty 0 (device 0)) 0x200 (device 0x200)) 0x201 (device 0x201))
      0x202 (device 0x202)) 0x203 (device 0x203)
    obtain ⟨t', hrun', htable⟩ : ∃ t', notmainInit.run s = .ok () t' ∧
        t'.vm.table kernelAsid = Function.update (Function.update (Function.update
          (Function.update global 1 (ramFld 1 false)) 2 (ramFld 2 false)) 3 (ramFld 3 false))
          4 (ramFld 4 false) := ⟨_, rfl, rfl⟩
    rw [hrun] at hrun'
    obtain ⟨-, rfl⟩ := EStateM.Result.ok.inj hrun'
    have hzero : ¬ Fld.zero.Valid := by decide
    have hempty : empty behindDevices = Fld.zero := if_pos (by decide)
    rw [htable]
    simp only [global]
    rw [Function.update_of_ne (by decide), Function.update_of_ne (by decide),
      Function.update_of_ne (by decide), Function.update_of_ne (by decide),
      Function.update_of_ne (by decide), Function.update_of_ne (by decide),
      Function.update_of_ne (by decide), Function.update_of_ne (by decide),
      Function.update_of_ne (by decide), hempty]
    exact hzero

/-- A boot sector of a small volume with one sector to a table. -/
def smallBootSec : BootSec where
  bytesPerSec := 512
  secPerCluster := 1
  reservedAreaNsec := 32
  nfats := 2
  maxFiles := 0
  fsNsec := 0
  zero := 0
  nsecInFs := 64
  nsecPerFat := 1
  firstCluster := 2
  infoSecNum := 1
  backupBootLoc := 6
  extendedSig := 0x29
  sig := 0xAA55

/-- Its tables differ in their second byte. -/
def divergedDisk : Disk := fun lba i => if lba = 41 ∧ i = 1 then 1 else 0

theorem fat32Mk_detects_small : ∃ s, notmainInit.run powerOn = .ok () s ∧
    (DetectsDivergence divergedDisk 2 8 smallBootSec s ↔
      smallBootSec.nsecPerFat.toNat = 0 ∨
      nPhysPages * 2 ^ 20 < s.cursor + 1024 * smallBootSec.nsecPerFat.toNat ∨
      (∃ i < smallBootSec.nsecPerFat.toNat, ¬ CopiesAgreeAt divergedDisk 8 smallBootSec i) ∨
      ∀ i, smallBootSec.nsecPerFat.toNat ≤ i → i < 512 * smallBootSec.nsecPerFat.toNat →
        CopiesAgreeAt divergedDisk 8 smallBootSec i) := by
  obtain ⟨s, hrun, hgrow, -⟩ := notmainInit_canGrow powerOn rfl
  exact ⟨s, hrun, fat32Mk_detects_iff hgrow (Nat.le_refl 2)⟩

theorem divergedDisk_mounted : ∃ s, notmainInit.run powerOn = .ok () s ∧
    ¬ DetectsDivergence divergedDisk 2 8 smallBootSec s := by
  obtain ⟨s, hrun, hgrow, hcur⟩ := notmainInit_canGrow powerOn rfl
  refine ⟨s, hrun, ?_⟩
  intro hdetects
  have hfirst : ∀ i < smallBootSec.nsecPerFat.toNat,
      CopiesAgreeAt divergedDisk 8 smallBootSec i := by
    intro i hi
    have hzero : i = 0 := Nat.lt_one_iff.mp hi
    subst hzero
    exact (by decide : diskByte divergedDisk 40 0 = diskByte divergedDisk 41 0)
  obtain ⟨t, hmk⟩ := (fat32Mk_ok_iff divergedDisk 8 smallBootSec hgrow (Nat.le_refl 2) _).mpr
    ⟨by decide, by rw [hcur]; decide, hfirst, rfl⟩
  have hsecond := hdetects _ t hmk 1 (by decide)
  exact absurd hsecond
    (by decide : ¬ diskByte divergedDisk 40 1 = diskByte divergedDisk 41 1)

end Boot
end SimplePiOS.Kernel
