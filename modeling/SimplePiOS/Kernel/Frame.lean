import SimplePiOS.Kernel.Fs

/-! What calls of libpi and of fs.c keep: whatever the memory, the break and the statics of
the allocator keep. -/
namespace SimplePiOS.Kernel
open Lib Libpi

variable {σ : Type} {I E : σ → Prop} {bus : Bus σ} {sys : Platform σ}

/-- Every access from `I` ends in `I` or stops in `E`. -/
structure BusKeeps (bus : Bus σ) (I E : σ → Prop) : Prop where
  load : ∀ a, Keeps I E (bus.load a)
  store : ∀ a b, Keeps I E (bus.store a b)
  stop : ∀ s, I s → E s

structure PlatformKeeps (sys : Platform σ) (I E : σ → Prop) : Prop
    extends BusKeeps sys.toBus I E where
  sbrk : ∀ n, Keeps I E (sys.sbrk n)
  getHeap : Keeps I E sys.getHeap
  setHeap : ∀ f, Keeps I E (sys.setHeap f)

/-- What code keeps that reaches the break through `kmalloc` only. -/
structure AllocatorKeeps (sys : Platform σ) (I E : σ → Prop) : Prop
    extends BusKeeps sys.toBus I E where
  kmalloc : ∀ fuel sz, Keeps I E (kmalloc sys fuel sz)

namespace BusKeeps

theorem assert (h : BusKeeps bus I E) (p : Prop) [Decidable p] (msg : String) :
    Keeps I E (assert p msg : EStateM Stop σ Unit) := by
  apply Triple.ite
  · intro _
    exact .pure fun _ hs => hs
  · intro _
    exact .throw h.stop

theorem fillBytes (h : BusKeeps bus I E) (c : UInt8) (p n : ℕ) :
    Keeps I E (fillBytes bus c p n) := by
  induction n generalizing p with
  | zero => exact .pure fun _ hs => hs
  | succ n ih => exact .bind (h.store p c) fun _ => ih (p + 1)

theorem memset (h : BusKeeps bus I E) (p : ℕ) (c : UInt8) (n : ℕ) :
    Keeps I E (memset bus p c n) :=
  h.fillBytes c p _

theorem copyBytes (h : BusKeeps bus I E) (dst src n : ℕ) :
    Keeps I E (copyBytes bus dst src n) := by
  induction n generalizing dst src with
  | zero => exact .pure fun _ hs => hs
  | succ n ih =>
    apply Triple.bind (h.load src)
    intro b
    exact .bind (h.store dst b) fun _ => ih (dst + 1) (src + 1)

theorem copyWords (h : BusKeeps bus I E) (dst src n : ℕ) :
    Keeps I E (copyWords bus dst src n) := by
  induction n generalizing dst src with
  | zero => exact .pure fun _ hs => hs
  | succ n ih =>
    apply Triple.bind (h.load src)
    intro b0
    apply Triple.bind (h.load (src + 1))
    intro b1
    apply Triple.bind (h.load (src + 2))
    intro b2
    apply Triple.bind (h.load (src + 3))
    intro b3
    apply Triple.bind (h.store dst b0)
    intro _
    apply Triple.bind (h.store (dst + 1) b1)
    intro _
    apply Triple.bind (h.store (dst + 2) b2)
    intro _
    exact .bind (h.store (dst + 3) b3) fun _ => ih (dst + 4) (src + 4)

theorem memcpy (h : BusKeeps bus I E) (dst src n : ℕ) : Keeps I E (memcpy bus dst src n) :=
  .ite (fun _ => h.copyWords dst src _) fun _ => h.copyBytes dst src n

theorem strcmpEq (h : BusKeeps bus I E) (a : ℕ) (l : List UInt8) :
    Keeps I E (strcmpEq bus a l) := by
  induction l generalizing a with
  | nil => exact .bind (h.load a) fun _ => .pure fun _ hs => hs
  | cons c l ih =>
    exact .bind (h.load a) fun _ => .ite (fun _ => ih (a + 1)) fun _ => .pure fun _ hs => hs

theorem strncmpEq (h : BusKeeps bus I E) (a : ℕ) (l : List UInt8) :
    Keeps I E (strncmpEq bus a l) := by
  induction l generalizing a with
  | nil => exact .pure fun _ hs => hs
  | cons c l ih =>
    exact .bind (h.load a) fun _ => .ite (fun _ => ih (a + 1)) fun _ => .pure fun _ hs => hs

theorem load16 (h : BusKeeps bus I E) (a : ℕ) : Keeps I E (load16 bus a) :=
  .bind (h.load a) fun _ => .bind (h.load (a + 1)) fun _ => .pure fun _ hs => hs

theorem load32 (h : BusKeeps bus I E) (a : ℕ) : Keeps I E (load32 bus a) :=
  .bind (h.load16 a) fun _ => .bind (h.load16 (a + 2)) fun _ => .pure fun _ hs => hs

theorem fat32FatEntryType (h : BusKeeps bus I E) (x : ℕ) :
    Keeps I E (fat32FatEntryType x : EStateM Stop σ ClusterType) := by
  unfold Kernel.fat32FatEntryType
  refine .ite (fun _ => .pure fun _ hs => hs) fun _ => ?_
  refine .ite (fun _ => .pure fun _ hs => hs) fun _ => ?_
  refine .ite (fun _ => .pure fun _ hs => hs) fun _ => ?_
  refine .ite (fun _ => .pure fun _ hs => hs) fun _ => ?_
  refine .ite (fun _ => .throw h.stop) fun _ => ?_
  exact .ite (fun _ => .pure fun _ hs => hs) fun _ => .throw h.stop

theorem forClusters (h : BusKeeps bus I E) {β : Type} (fs : Fat32)
    {body : β → ℕ → EStateM Stop σ β} (hbody : ∀ b id, Keeps I E (body b id)) (fuel id : ℕ)
    (b : β) : Keeps I E (forClusters fs body fuel id b) := by
  induction fuel generalizing id b with
  | zero => exact .throw h.stop
  | succ fuel ih =>
    apply Triple.bind (h.fat32FatEntryType id)
    intro ty
    apply Triple.ite
    · intro _
      exact .pure fun _ hs => hs
    · intro _
      exact .bind (hbody b id) fun b' => ih (nextId fs id) b'

theorem storeAll (h : BusKeeps bus I E) (sector : ℕ → UInt8) (buf : ℕ) (l : List ℕ) :
    Keeps I E (forM l fun d => bus.store (buf + d) (sector d)) := by
  refine Keeps.forM ?_
  intro d _
  exact h.store (buf + d) (sector d)

theorem sdReadblock (h : BusKeeps bus I E) (disk : Disk) (lba buf num : ℕ) :
    Keeps I E (sdReadblock bus disk lba buf num) := by
  have hloop : ∀ n, Keeps I E
      (forM (List.range n) fun c => readSector bus (disk (lba + c)) (buf + 512 * c)) := by
    intro n
    refine Keeps.forM ?_
    intro c _
    unfold readSector
    generalize List.range 512 = sector
    exact h.storeAll (disk (lba + c)) (buf + 512 * c) sector
  apply Triple.bind (hloop (if num < 1 then 1 else num))
  intro _
  exact .pure fun _ hs => hs

theorem readCluster (h : BusKeeps bus I E) (disk : Disk) (fs : Fat32) (data id : ℕ) :
    Keeps I E (readCluster bus disk fs data id) :=
  .bind (h.sdReadblock disk _ _ _) fun _ =>
    .bind (h.assert _ _) fun _ => .pure fun _ hs => hs

theorem crc32Loop (h : BusKeeps bus I E) (p n : ℕ) (crc : BitVec 32) :
    Keeps I E (crc32Loop bus p n crc) := by
  induction n generalizing p crc with
  | zero => exact .pure fun _ hs => hs
  | succ n ih => exact .bind (h.load p) fun b => ih (p + 1) _

end BusKeeps

namespace AllocatorKeeps

theorem fat32ReadFile (h : AllocatorKeeps sys I E) (disk : Disk) (fuel : ℕ) (fs : Fat32)
    (d : Dirent) : Keeps I E (fat32ReadFile sys disk fuel fs d) := by
  apply Triple.bind (h.forClusters fs (fun _ _ => .pure fun _ hs => hs) _ _ _)
  intro nClusters
  apply Triple.bind (h.kmalloc _ _)
  intro data
  apply Triple.bind (h.forClusters fs (h.readCluster disk fs) _ _ _)
  intro _
  apply Triple.bind (Q := fun _ => I)
  · exact .bind (h.crc32Loop _ _ _) fun _ => .pure fun _ hs => hs
  · intro _
    exact .pure fun _ hs => hs

theorem fat32ReadDirArray (h : AllocatorKeeps sys I E) (disk : Disk) (fuel : ℕ) (fs : Fat32)
    (d : Option Dirent) : Keeps I E (fat32ReadDirArray sys disk fuel fs d) := by
  apply Triple.bind (h.forClusters fs (fun _ _ => .pure fun _ hs => hs) _ _ _)
  intro nClusters
  apply Triple.bind (Q := fun _ => I)
  · apply Triple.bind (h.kmalloc _ _)
    intro data
    apply Triple.bind (h.sdReadblock disk _ _ _)
    intro result
    exact .bind (h.assert _ _) fun _ => .pure fun _ hs => hs
  · intro dirs
    exact .pure fun _ hs => hs

end AllocatorKeeps

namespace PlatformKeeps

theorem kmallocGrow (h : PlatformKeeps sys I E) (sz fuel : ℕ) :
    Keeps I E (kmallocGrow sys sz fuel) := by
  induction fuel with
  | zero => exact .throw h.stop
  | succ fuel ih =>
    apply Triple.bind h.getHeap
    intro hp
    apply Triple.ite
    · intro _
      apply Triple.bind (h.sbrk _)
      intro brk
      apply Triple.bind (h.assert _ _)
      intro _
      exact .bind (h.setHeap _) fun _ => ih
    · intro _
      exact .pure fun _ hs => hs

theorem kmallocTake (h : PlatformKeeps sys I E) (fuel sz : ℕ) :
    Keeps I E (kmallocTake sys fuel sz) := by
  apply Triple.bind (h.kmallocGrow _ _)
  intro _
  apply Triple.bind h.getHeap
  intro _
  apply Triple.bind (h.setHeap _)
  intro _
  exact .bind (h.memset _ _ _) fun _ => .pure fun _ hs => hs

theorem kmalloc (h : PlatformKeeps sys I E) (fuel sz : ℕ) : Keeps I E (kmalloc sys fuel sz) := by
  apply Triple.bind h.getHeap
  intro _
  apply Triple.ite
  · intro _
    exact .bind (h.sbrk 0) fun _ => .bind (h.setHeap _) fun _ => h.kmallocTake fuel _
  · intro _
    exact h.kmallocTake fuel _

theorem allocator (h : PlatformKeeps sys I E) : AllocatorKeeps sys I E := ⟨h.toBusKeeps, h.kmalloc⟩

theorem fat32ReadFile (h : PlatformKeeps sys I E) (disk : Disk) (fuel : ℕ) (fs : Fat32)
    (d : Dirent) : Keeps I E (fat32ReadFile sys disk fuel fs d) :=
  h.allocator.fat32ReadFile disk fuel fs d

end PlatformKeeps
end SimplePiOS.Kernel
