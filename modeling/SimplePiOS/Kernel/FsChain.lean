import SimplePiOS.Kernel.Vm
import SimplePiOS.Libpi.Flat

/-! Cluster chains: both walks of fs.c go over the chain of the start cluster, and the
sectors they read land in the buffer in that order. -/
namespace SimplePiOS.Kernel
open Lib Libpi

/-- An end-of-chain entry; the top four bits of an entry are not part of the id. -/
def EndOfChain (v : ℕ) : Prop := v < 2 ^ 32 ∧ 0xFFFFFF8 ≤ v % 2 ^ 28

instance (v : ℕ) : Decidable (EndOfChain v) := inferInstanceAs (Decidable (_ ∧ _))

/-- The extent of a table that was read in: its 32-bit entries fit in the SDRAM. -/
structure FatSize where
  n : ℕ
  fits : 4 * n ≤ nPhysPages * 2 ^ 20

/-- The clusters from `c` on. -/
inductive Chain (fs : Fat32) (size : FatSize) : ℕ → List ℕ → Prop where
  | last {c : ℕ} (hlo : 2 ≤ c) (hhi : c < size.n) (hend : EndOfChain (fs.fat c)) :
      Chain fs size c [c]
  | next {c : ℕ} {cs : List ℕ} (hlo : 2 ≤ c) (hhi : c < size.n) (htop : fs.fat c < 2 ^ 28)
      (hcs : Chain fs size (fs.fat c) cs) : Chain fs size c (c :: cs)

/-- The contents of `num` sectors from `lba` on. -/
def sectorBytes (disk : Disk) (lba num : ℕ) : List UInt8 :=
  (List.range num).flatMap fun i => (List.range 512).map (disk (lba + i))

/-- The contents of the clusters `cs`, one after the other. -/
def chainBytes (disk : Disk) (fs : Fat32) (cs : List ℕ) : List UInt8 :=
  cs.flatMap fun c => sectorBytes disk (clusterToLba fs c) fs.sectorsPerCluster

@[simp] theorem length_sectorBytes (disk : Disk) (lba num : ℕ) :
    (sectorBytes disk lba num).length = num * 512 := by
  simp [sectorBytes, List.length_flatMap, List.map_const']

theorem sectorBytes_zero (disk : Disk) (lba : ℕ) : sectorBytes disk lba 0 = [] := by
  simp [sectorBytes]

theorem sectorBytes_succ (disk : Disk) (lba num : ℕ) :
    sectorBytes disk lba (num + 1) =
      sectorBytes disk lba num ++ (List.range 512).map (disk (lba + num)) := by
  simp only [sectorBytes, List.range_succ (n := num), List.flatMap_append, List.flatMap_singleton]

@[simp] theorem length_chainBytes (disk : Disk) (fs : Fat32) (cs : List ℕ) :
    (chainBytes disk fs cs).length = cs.length * (fs.sectorsPerCluster * 512) := by
  simp [chainBytes, List.length_flatMap, List.map_const']

section Chain
variable {σ : Type} {fs : Fat32} {size : FatSize} {c : ℕ} {cs : List ℕ}

theorem Chain.ne_nil (h : Chain fs size c cs) : cs ≠ [] := by
  cases h <;> simp

/-- Ids of the table index it without wrapping. -/
theorem nextId_eq (hhi : c < size.n) : nextId fs c = fs.fat c := by
  have hfit : 4 * size.n ≤ 512 * 2 ^ 20 := size.fits
  unfold nextId
  rw [Nat.mod_eq_of_lt (by omega)]

/-- A table that fits in the memory is too short for the special ids. -/
theorem fat32FatEntryType_used (hlo : 2 ≤ c) (hhi : c < size.n) :
    (fat32FatEntryType c : EStateM Stop σ ClusterType) = pure .used := by
  have hfit : 4 * size.n ≤ 512 * 2 ^ 20 := size.fits
  have hx : c * 2 ^ 4 % 2 ^ 32 / 2 ^ 4 = c := by omega
  unfold fat32FatEntryType
  simp only [hx]
  rw [if_neg (by omega), if_neg (by omega), if_neg (by omega), if_pos (by omega)]

theorem fat32FatEntryType_last {v : ℕ} (h : EndOfChain v) :
    (fat32FatEntryType v : EStateM Stop σ ClusterType) = pure .last := by
  obtain ⟨hv, hlow⟩ := h
  have hx : v * 2 ^ 4 % 2 ^ 32 / 2 ^ 4 = v % 2 ^ 28 := by omega
  unfold fat32FatEntryType
  simp only [hx]
  rw [if_neg (by omega), if_neg (by omega), if_neg (by omega), if_neg (by omega),
    if_neg (by omega), if_pos (by omega)]

/-- A walk with any body is that body folded over the chain. -/
theorem forClusters_chain {β : Type} (body : β → ℕ → EStateM Stop σ β)
    (h : Chain fs size c cs) {fuel : ℕ} (hfuel : cs.length < fuel) (b : β) :
    forClusters fs body fuel c b = cs.foldlM body b := by
  induction h generalizing fuel b with
  | last hlo hhi hend =>
    obtain ⟨fuel, rfl⟩ : ∃ f, fuel = f + 2 := ⟨fuel - 2, by simp at hfuel; omega⟩
    unfold forClusters
    rw [fat32FatEntryType_used hlo hhi]
    unfold forClusters
    rw [nextId_eq hhi, fat32FatEntryType_last hend]
    simp
  | next hlo hhi htop hcs ih =>
    obtain ⟨fuel, rfl⟩ : ∃ f, fuel = f + 1 := ⟨fuel - 1, by simp at hfuel; omega⟩
    unfold forClusters
    rw [fat32FatEntryType_used hlo hhi, nextId_eq hhi]
    have hrest := ih (Nat.lt_of_succ_lt_succ hfuel)
    simp [hrest]

theorem countClusters_chain (h : Chain fs size c cs) {fuel : ℕ} (hfuel : cs.length < fuel) :
    (countClusters fuel fs c : EStateM Stop σ ℕ) = pure (cs.length % 2 ^ 32) := by
  have hfold : ∀ (l : List ℕ) (m : ℕ), m < 2 ^ 32 →
      l.foldlM (fun m (_ : ℕ) => (pure (add32 m 1) : EStateM Stop σ ℕ)) m =
        pure ((m + l.length) % 2 ^ 32) := by
    intro l
    induction l with
    | nil =>
      intro m hm
      rw [List.foldlM_nil, List.length_nil, Nat.add_zero, Nat.mod_eq_of_lt hm]
    | cons _ l ih =>
      intro m _
      have hlt : add32 m 1 < 2 ^ 32 := Nat.mod_lt _ (by omega)
      rw [List.foldlM_cons, pure_bind, ih _ hlt]
      unfold add32
      congr 1
      simp only [List.length_cons]
      omega
  unfold countClusters
  rw [forClusters_chain _ h hfuel, hfold cs 0 (by omega), Nat.zero_add]

end Chain

/-- The counts of a chain whose clusters fit in the address space do not wrap. -/
theorem chain_counts {k s : ℕ} (hs : 1 ≤ s) (h : k * s * 512 < 2 ^ 32) :
    k % 2 ^ 32 = k ∧ k * s % 2 ^ 32 = k * s ∧ k * s * 512 % 2 ^ 32 = k * s * 512 := by
  have hk : k ≤ k * s := Nat.le_mul_of_pos_right k hs
  exact ⟨Nat.mod_eq_of_lt (by omega), Nat.mod_eq_of_lt (by omega), Nat.mod_eq_of_lt h⟩

section Read
variable {σ : Type} {bus : Bus σ} {base n o : ℕ} {s : σ} (B : Block bus base n) (disk : Disk)

theorem readSector_stored (sector : ℕ → UInt8) (h : B.inv s) (ho : o + 512 ≤ n) :
    ∃ t, (readSector bus sector (base + o)).run s = .ok ⟨⟩ t ∧
      B.Stored s t o ((List.range 512).map sector) :=
  B.forM_store sector 512 h ho

theorem sdReadblock_stored (lba : ℕ) {num : ℕ} (hnum : 1 ≤ num) (h : B.inv s)
    (ho : o + num * 512 ≤ n) :
    ∃ t, (sdReadblock bus disk lba (base + o) num).run s = .ok (num * 512 % 2 ^ 32) t ∧
      B.Stored s t o (sectorBytes disk lba num) := by
  have hloop : ∀ m, o + m * 512 ≤ n → ∃ t,
      (forM (List.range m) fun c => readSector bus (disk (lba + c)) (base + o + 512 * c)).run s =
        .ok ⟨⟩ t ∧ B.Stored s t o (sectorBytes disk lba m) := by
    intro m
    induction m with
    | zero =>
      intro _
      refine ⟨s, by simp, ?_⟩
      rw [sectorBytes_zero]
      exact .nil h
    | succ m ih =>
      intro hm
      have hroom : o + m * 512 ≤ n ∧ o + 512 * m + 512 ≤ n := by
        clear ih
        omega
      obtain ⟨t, hrun, hst⟩ := ih hroom.1
      obtain ⟨u, hrun', hst'⟩ := readSector_stored B (o := o + 512 * m) (disk (lba + m))
        hst.inv hroom.2
      rw [← Nat.add_assoc] at hrun'
      refine ⟨u, ?_, ?_⟩
      · rw [List.range_succ, List.forM_append, bind_ok hrun, List.forM_cons]
        exact bind_ok hrun'
      · have hlen : o + (sectorBytes disk lba m).length = o + 512 * m := by
          rw [length_sectorBytes, Nat.mul_comm]
        rw [sectorBytes_succ]
        exact hst.append (hlen ▸ hst')
  obtain ⟨t, hrun, hst⟩ := hloop num ho
  refine ⟨t, ?_, hst⟩
  unfold sdReadblock
  simp only [Nat.not_lt.mpr hnum, if_false]
  exact bind_ok hrun

variable {fs : Fat32} (hs : 1 ≤ fs.sectorsPerCluster)
include hs

theorem readCluster_stored (id : ℕ) (h : B.inv s) (hlt : fs.sectorsPerCluster * 512 < 2 ^ 32)
    (ho : o + fs.sectorsPerCluster * 512 ≤ n) :
    ∃ t, (readCluster bus disk fs (base + o) id).run s =
        .ok (base + (o + fs.sectorsPerCluster * 512)) t ∧
      B.Stored s t o (sectorBytes disk (clusterToLba fs id) fs.sectorsPerCluster) := by
  obtain ⟨t, hrun, hst⟩ := sdReadblock_stored B disk (clusterToLba fs id) hs h ho
  refine ⟨t, ?_, hst⟩
  unfold readCluster
  rw [bind_ok hrun, bind_ok (run_assert rfl _ _), Nat.mod_eq_of_lt hlt, Nat.add_assoc]
  rfl

/-- The reading walk fills the block cluster by cluster. -/
theorem readClusters_stored (cs : List ℕ) (h : B.inv s)
    (hlt : fs.sectorsPerCluster * 512 < 2 ^ 32)
    (ho : o + cs.length * (fs.sectorsPerCluster * 512) ≤ n) :
    ∃ t, (cs.foldlM (readCluster bus disk fs) (base + o)).run s =
        .ok (base + (o + cs.length * (fs.sectorsPerCluster * 512))) t ∧
      B.Stored s t o (chainBytes disk fs cs) := by
  induction cs generalizing s o with
  | nil => exact ⟨s, by simp, .nil h⟩
  | cons id cs ih =>
    rw [List.length_cons, Nat.add_mul, Nat.one_mul] at ho
    obtain ⟨t, hrun, hst⟩ := readCluster_stored (o := o) B disk hs id h hlt (by omega)
    obtain ⟨u, hrun', hst'⟩ := ih (o := o + fs.sectorsPerCluster * 512) hst.inv (by omega)
    refine ⟨u, ?_, ?_⟩
    · rw [List.foldlM_cons, bind_ok hrun, hrun', List.length_cons, Nat.add_mul, Nat.one_mul]
      congr 2
      omega
    · unfold chainBytes
      rw [List.flatMap_cons]
      apply hst.append
      rw [length_sectorBytes]
      exact hst'

end Read
end SimplePiOS.Kernel
