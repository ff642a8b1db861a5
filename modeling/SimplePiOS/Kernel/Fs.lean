import SimplePiOS.Libpi.Crc32
import SimplePiOS.Libpi.Kmalloc

/-! disk/fs.c on a mounted volume: the walks along a cluster chain and the reads of files
and directories, on any memory that has an allocator. -/
namespace SimplePiOS.Kernel
open Libpi

/-- Byte `i` of a sector, as `sd_readblock` delivers it. -/
abbrev Disk := ℕ → ℕ → UInt8

/-- `fat32_fs_t`; `fat i` is the word at `fs->fat + i`, of the table read in at mount time
or of whatever lies behind it. -/
structure Fat32 where
  fatBeginLba : ℕ
  clusterBeginLba : ℕ
  sectorsPerCluster : ℕ
  rootDirFirstCluster : ℕ
  fat : ℕ → ℕ
  nFat : ℕ

structure Dirent where
  name : List UInt8
  clusterId : ℕ
  isDirP : Bool
  nbytes : ℕ
  deriving DecidableEq

/-- `pi_file_t`. -/
structure PiFile where
  data : ℕ
  cksum : BitVec 32
  nAlloc : ℕ
  nData : ℕ
  deriving DecidableEq

inductive ClusterType where
  | free
  | reserved
  | bad
  | last
  | used
  deriving DecidableEq

variable {σ : Type} (bus : Bus σ) (sys : Platform σ) (disk : Disk) (fuel : ℕ) (fs : Fat32)

def fat32FatEntryType (x : ℕ) : EStateM Stop σ ClusterType :=
  let x := x * 2 ^ 4 % 2 ^ 32 / 2 ^ 4
  if x = 0 then pure .free
  else if x = 1 then pure .reserved
  else if x = 0xFFFFFF7 then pure .bad
  else if x ≥ 0x2 ∧ x ≤ 0xFFFFFEF then pure .used
  else if x ≥ 0xFFFFFF0 ∧ x ≤ 0xFFFFFF6 then throw (.panic "reserved value")
  else if x ≥ 0xFFFFFF8 ∧ x ≤ 0xFFFFFFF then pure .last
  else throw (.panic "impossible type value")

def clusterToLba (clusterNum : ℕ) : ℕ :=
  add32 fs.clusterBeginLba
    (sub32 clusterNum fs.rootDirFirstCluster * fs.sectorsPerCluster % 2 ^ 32)

/-- `fs->fat[id]`: the id is taken as it is, top bits included, and the address wraps. -/
def nextId (id : ℕ) : ℕ := fs.fat (id % 2 ^ 30)

/-- The loop head both walks share: the end test is on the current id. -/
def forClusters {β : Type} (body : β → ℕ → EStateM Stop σ β) :
    ℕ → ℕ → β → EStateM Stop σ β
  | 0, _, _ => throw .diverge
  | fuel + 1, id, b => do
    let ty ← fat32FatEntryType id
    if ty = .last then return b
    let b ← body b id
    forClusters body fuel (nextId fs id) b

def countClusters (startId : ℕ) : EStateM Stop σ ℕ :=
  forClusters fs (fun n _ => pure (add32 n 1)) fuel startId 0

def readSector (sector : ℕ → UInt8) (buf : ℕ) : EStateM Stop σ Unit :=
  forM (List.range 512) fun d => bus.store (buf + d) (sector d)

/-- `sd_readblock` on a card that answers: the requested sectors are stored in order. -/
def sdReadblock (lba buf num : ℕ) : EStateM Stop σ ℕ := do
  let num := if num < 1 then 1 else num
  forM (List.range num) fun c => readSector bus (disk (lba + c)) (buf + 512 * c)
  return num * 512 % 2 ^ 32

def secRead (lba nsec : ℕ) : EStateM Stop σ ℕ := do
  let data ← kmalloc sys fuel (512 * nsec % 2 ^ 32)
  let result ← sdReadblock sys.toBus disk lba data nsec
  assert (result = nsec * 512 % 2 ^ 32) "failed to read block"
  return data

def crc32Loop : ℕ → ℕ → BitVec 32 → EStateM Stop σ (BitVec 32)
  | _, 0, crc => pure crc
  | p, n + 1, crc => do
    let b ← bus.load p
    crc32Loop (p + 1) n (crc32Step crc b.toBitVec)

def crc32Buf (buf size : ℕ) : EStateM Stop σ (BitVec 32) := do
  let crc ← crc32Loop bus buf size (0 ^^^ ~~~0)
  return crc ^^^ ~~~0

def readCluster (data id : ℕ) : EStateM Stop σ ℕ := do
  let bytesRead ← sdReadblock bus disk (clusterToLba fs id) data fs.sectorsPerCluster
  assert (bytesRead = fs.sectorsPerCluster * 512 % 2 ^ 32) "failed to read block"
  return data + bytesRead

def fat32ReadFile (d : Dirent) : EStateM Stop σ PiFile := do
  let startId := d.clusterId
  let nClusters ← countClusters fuel fs startId
  let nSectors := nClusters * fs.sectorsPerCluster % 2 ^ 32
  let nAlloc := nSectors * 512 % 2 ^ 32
  let data ← kmalloc sys fuel nAlloc
  let _ ← forClusters fs (readCluster sys.toBus disk fs) fuel startId data
  let cksum ← crc32Buf sys.toBus data d.nbytes
  return ⟨data, cksum, nAlloc, d.nbytes⟩

/-- `fat32_read_dir` up to its call of `fat32_to_dirent`: the array and its length in
32-byte entries. -/
def fat32ReadDirArray (d : Option Dirent) : EStateM Stop σ (ℕ × ℕ) := do
  let clusterId := d.elim fs.rootDirFirstCluster (·.clusterId)
  let nClusters ← countClusters fuel fs clusterId
  let nSectors := nClusters * fs.sectorsPerCluster % 2 ^ 32
  let dirLba := clusterToLba fs clusterId
  let dirN := nSectors * 512 % 2 ^ 32 / 32
  let dirs ← secRead sys disk fuel dirLba nSectors
  return (dirs, dirN)

end SimplePiOS.Kernel
