import SimplePiOS.Kernel.ExecSteps
import SimplePiOS.Kernel.Ownership

/-! The physical sections behind a child's private pages: they are its own. What the kernel
holds meanwhile is its heap, the tables and the load window. -/
namespace SimplePiOS.Kernel
open Lib Libpi

/-- The pages of the kernel's table up to its break. -/
def Vm.heapPages (v : Vm) : Set ℕ := {p | 1 ≤ p ∧ p * 2 ^ 20 < v.kernelProc.heapEnd}

/-- The child's private pages, neither global nor shared. -/
def Vm.ownPages (v : Vm) : Set ℕ :=
  {p | p < nVirtPages ∧ (v.table childAsid p).Private ∧ (v.flags childAsid p).shared = false}

/-- The child's pages that show it the load window. -/
def Vm.sharedPages (v : Vm) : Set ℕ :=
  {p | p < nVirtPages ∧ (v.table childAsid p).Private ∧ (v.flags childAsid p).shared = true}

/-- No two of the child's private pages have the same section, and none has one of section 0,
the translation tables, the kernel's heap or the load buffer. -/
structure Isolated (v : Vm) : Prop where
  apart : Set.InjOn (fun p => (v.table childAsid p).sec) v.ownPages
  reserved : ∀ p ∈ v.ownPages, 5 ≤ (v.table childAsid p).sec
  heap : ∀ p ∈ v.ownPages, ∀ a, kernelHeapAddr ≤ a → a < v.kernelProc.heapEnd →
    (v.table childAsid p).sec ≠ (v.table kernelAsid (a / 2 ^ 20)).sec
  buffer : ∀ f file, v.frame = some f → f.file = some file → ∀ p ∈ v.ownPages,
    ∀ q ∈ filePages file.nData, (v.table childAsid p).sec ≠ (v.table kernelAsid q).sec

/-- The kernel's heap stays below the load window, and a file that is loaded has room for its
data. -/
structure WithinLimits (v : Vm) : Prop where
  heap : v.kernelProc.heapEnd ≤ kernelLoadAddr
  file : ∀ f file, v.frame = some f → f.file = some file → file.nData ≤ file.nAlloc

/-- What the kernel owns, with some pages beyond its heap. -/
structure KernelHeld (extra : Set ℕ) (v : Vm) : Prop where
  asid : v.kernelProc.asid = kernelAsid
  brk : 0 < v.kernelProc.heapEnd
  below : v.kernelProc.heapEnd ≤ kernelLoadAddr
  owns : Owns v kernelAsid (v.heapPages ∪ extra)
  tables : ∀ sec, 1 ≤ sec → sec < 5 → v.paddrToAsidMap sec = kernelAsid
  behind : ∀ q ∈ extra, 5 ≤ (v.table kernelAsid q).sec
  top : ∀ p, 0x300 ≤ p → p < nVirtPages → (v.table kernelAsid p).Valid → p ∈ extra

/-- A child with the load window `win`. -/
structure Held (win : Set ℕ) (v : Vm) : Prop extends KernelHeld win v where
  own : Owns v childAsid v.ownPages
  shared : ∀ p ∈ v.sharedPages, ∃ q ∈ win, (v.table kernelAsid q).sec = (v.table childAsid p).sec
  entries : ∀ p < nVirtPages, (v.table childAsid p).tag ≠ 0 → (v.table childAsid p).Valid
  buffer : ∀ f file, v.frame = some f → f.file = some file → ∀ q ∈ filePages file.nData, q ∈ win
  fits : ∀ f file, v.frame = some f → f.file = some file → file.nData ≤ file.nAlloc

theorem nodup_pageRange (addr size : ℕ) : (pageRange addr size).Nodup := List.nodup_range' 1

theorem childAsid_ne : childAsid ≠ 0 := by decide

theorem childAsid_ne_kernelAsid : childAsid ≠ kernelAsid := by decide

namespace Owns
variable {v w : Vm} {pt : Asid} {pages : Set ℕ}

theorem congr (h : Owns v pt pages) (hmap : w.paddrToAsidMap = v.paddrToAsidMap)
    (htable : w.table pt = v.table pt) : Owns w pt pages := by
  constructor
  · rw [htable]
    exact h.priv
  · rw [htable]
    exact h.lo
  · rw [htable]
    exact h.hi
  · rw [hmap, htable]
    exact h.owner
  · rw [htable]
    exact h.inj

/-- A section behind none of the pages changes hands. -/
theorem setOwner_apart {sec : ℕ} (h : Owns v pt pages) (hsec : ∀ p ∈ pages, (v.table pt p).sec ≠ sec)
    (a : Asid) : Owns (v.setOwner sec a) pt pages := by
  refine ⟨h.priv, h.lo, h.hi, ?_, h.inj⟩
  intro p hp
  rw [setOwner_table, setOwner_paddrToAsidMap, if_neg (hsec p hp)]
  exact h.owner p hp

/-- Two tables own nothing in common. -/
theorem apart {b : Asid} {pages' : Set ℕ} (h : Owns v pt pages) (h' : Owns v b pages')
    (hne : pt ≠ b) {p q : ℕ} (hp : p ∈ pages) (hq : q ∈ pages') :
    (v.table pt p).sec ≠ (v.table b q).sec := by
  intro heq
  have howner := h.owner p hp
  rw [heq, h'.owner q hq] at howner
  exact hne howner.symm

end Owns

namespace KernelHeld
variable {v w : Vm} {extra : Set ℕ} {page sec : ℕ} {sync : Bool}

theorem congr (h : KernelHeld extra v) (hmap : w.paddrToAsidMap = v.paddrToAsidMap)
    (htable : w.table kernelAsid = v.table kernelAsid) (hproc : w.kernelProc = v.kernelProc) :
    KernelHeld extra w := by
  have hpages : w.heapPages = v.heapPages := by
    unfold Vm.heapPages
    rw [hproc]
  constructor
  · rw [hproc]
    exact h.asid
  · rw [hproc]
    exact h.brk
  · rw [hproc]
    exact h.below
  · rw [hpages]
    exact h.owns.congr hmap htable
  · rw [hmap]
    exact h.tables
  · rw [htable]
    exact h.behind
  · rw [htable]
    exact h.top

/-- No section of a table is free. -/
theorem five_le (h : KernelHeld extra v) (hsec : Free v sec) : 5 ≤ sec := by
  by_contra hlt
  have howner := h.tables sec hsec.lo (by omega)
  rw [hsec.owner] at howner
  exact kernelAsid_ne howner.symm

theorem tables_setOwner (h : KernelHeld extra v) (hsec : 5 ≤ sec) (a : Asid) (i : ℕ)
    (hlo : 1 ≤ i) (hhi : i < 5) : (v.setOwner sec a).paddrToAsidMap i = kernelAsid := by
  rw [setOwner_paddrToAsidMap, if_neg (by omega)]
  exact h.tables i hlo hhi

/-- The kernel maps one more page. -/
theorem mapRam (h : KernelHeld extra v) (hsec : Free v sec) :
    KernelHeld (insert page extra) (v.mapRam kernelAsid page sec sync) := by
  have h5 := h.five_le hsec
  have hother : ∀ p, p ≠ page →
      (v.mapRam kernelAsid page sec sync).table kernelAsid p = v.table kernelAsid p := by
    intro p hp
    rw [mapRam_table, if_neg (fun hin => hp hin.2)]
  have hnew : (v.mapRam kernelAsid page sec sync).table kernelAsid page = ramFld sec sync := by
    rw [mapRam_table, if_pos ⟨rfl, rfl⟩]
  have howns : Owns (v.mapRam kernelAsid page sec sync) kernelAsid (insert page (v.heapPages ∪ extra)) :=
    h.owns.mapRam kernelAsid_ne hsec
  constructor
  · exact h.asid
  · exact h.brk
  · exact h.below
  · apply howns.mono
    rw [Set.union_insert]
    exact Set.Subset.rfl
  · intro i hlo hhi
    exact h.tables_setOwner h5 kernelAsid i hlo hhi
  · intro q hq
    by_cases hpage : q = page
    · rw [hpage, hnew, ramFld_sec hsec.hi]
      exact h5
    · rw [hother q hpage]
      exact h.behind q (hq.resolve_left hpage)
  · intro p hlo hhi hpriv
    by_cases hpage : p = page
    · exact .inl hpage
    · rw [hother p hpage] at hpriv
      exact .inr (h.top p hlo hhi hpriv)

/-- The child maps a page. -/
theorem mapRam_child (h : KernelHeld extra v) (hsec : Free v sec) :
    KernelHeld extra (v.mapRam childAsid page sec sync) := by
  have htable : (v.mapRam childAsid page sec sync).table kernelAsid = v.table kernelAsid := by
    funext p
    rw [mapRam_table, if_neg (fun hin => childAsid_ne_kernelAsid hin.1.symm)]
  have howns : Owns (v.mapRam childAsid page sec sync) kernelAsid (v.heapPages ∪ extra) :=
    h.owns.mapRam_other kernelAsid_ne childAsid_ne_kernelAsid.symm hsec
  constructor
  · exact h.asid
  · exact h.brk
  · exact h.below
  · exact howns
  · intro i hlo hhi
    exact h.tables_setOwner (h.five_le hsec) childAsid i hlo hhi
  · rw [htable]
    exact h.behind
  · rw [htable]
    exact h.top

/-- A section changes hands that the kernel has no use for. -/
theorem setOwner (h : KernelHeld extra v) (hsec : 5 ≤ sec)
    (hbehind : ∀ p ∈ v.heapPages ∪ extra, (v.table kernelAsid p).sec ≠ sec) (a : Asid) :
    KernelHeld extra (v.setOwner sec a) :=
  ⟨h.asid, h.brk, h.below, h.owns.setOwner_apart hbehind a,
    fun i hlo hhi => h.tables_setOwner hsec a i hlo hhi, h.behind, h.top⟩

/-- More pages than there are sections have not been mapped. -/
theorem length_le (h : KernelHeld extra v) {pages : List ℕ} (hnodup : pages.Nodup)
    (hpages : ∀ p ∈ pages, p ∈ extra) : pages.length ≤ nPhysPages - 1 := by
  have hcard := h.owns.card_le pages.toFinset (by
    intro p hp
    exact .inr (hpages p (List.mem_toFinset.mp hp)))
  rwa [List.toFinset_card_of_nodup hnodup] at hcard

/-- The break moves over the pages that were mapped for it. -/
theorem setHeapEnd {n : ℕ} (h : KernelHeld {p | p ∈ pageRange v.kernelProc.heapEnd n} v)
    (hlimit : add32 v.kernelProc.heapEnd n ≤ kernelLoadAddr) :
    KernelHeld ∅ (v.setHeapEnd (add32 v.kernelProc.heapEnd n) .kernel) := by
  obtain ⟨e, he⟩ : ∃ e, e = v.kernelProc.heapEnd := ⟨_, rfl⟩
  obtain ⟨e', he'⟩ : ∃ e', e' = add32 e n := ⟨_, rfl⟩
  have hbrk := h.brk
  have hbelow := h.below
  have hlength := h.length_le (nodup_pageRange _ n) fun p hp => hp
  have howns := h.owns
  have htop := h.top
  have hload : kernelLoadAddr = 0x100 * 2 ^ 20 := rfl
  have hphys : nPhysPages = 512 := rfl
  rw [← he] at hbrk hbelow hlength howns htop hlimit ⊢
  rw [← he'] at hlimit ⊢
  have hstart : sub32 e 1 / 2 ^ 20 = (e - 1) / 2 ^ 20 := by
    unfold sub32
    omega
  -- a break that wraps around to 0 would have taken all pages from the old one on
  have hpos : 0 < e' := by
    by_contra hzero
    have hend : sub32 (add32 e n) 1 / 2 ^ 20 = 0xFFF := by
      rw [← he', Nat.le_zero.mp (Nat.not_lt.mp hzero)]
      rfl
    unfold pageRange at hlength
    dsimp only at hlength
    rw [hstart, hend, List.length_range'] at hlength
    omega
  have hend : sub32 (add32 e n) 1 / 2 ^ 20 = (e' - 1) / 2 ^ 20 := by
    rw [← he']
    unfold sub32
    omega
  have hmem : ∀ p, p ∈ pageRange e n ↔ (e - 1) / 2 ^ 20 < p ∧ p ≤ (e' - 1) / 2 ^ 20 := by
    intro p
    unfold pageRange
    dsimp only
    rw [hstart, hend, List.mem_range'_1]
    omega
  constructor
  · exact h.asid
  · exact hpos
  · exact hlimit
  · refine (howns.mono ?_).congr rfl rfl
    intro p hp
    obtain ⟨hlo, hhi⟩ : 1 ≤ p ∧ p * 2 ^ 20 < e' := hp.resolve_right fun hin => hin
    by_cases hold : p * 2 ^ 20 < e
    · left
      refine ⟨hlo, ?_⟩
      rw [← he]
      exact hold
    · right
      exact (hmem p).mpr (by omega)
  · exact h.tables
  · intro q hq
    exact hq.elim
  · intro p hlo hhi hpriv
    have hin := (hmem p).mp (htop p hlo hhi hpriv)
    omega

/-- After the pages of the load window, nothing has been mapped as high as page 0x300. -/
theorem window_lt {n : ℕ} (h : KernelHeld {p | p ∈ pageRange kernelLoadAddr n} v) {q : ℕ}
    (hq : q ∈ pageRange kernelLoadAddr n) : q < 0x300 := by
  have hlength := h.length_le (nodup_pageRange _ n) fun p hp => hp
  have hstart : sub32 kernelLoadAddr 1 / 2 ^ 20 = 0xFF := rfl
  have hphys : nPhysPages = 512 := rfl
  unfold pageRange at hlength hq
  dsimp only at hlength hq
  rw [hstart] at hlength hq
  rw [List.length_range'] at hlength
  rw [List.mem_range'_1] at hq
  omega

end KernelHeld

/-- The pages of a file's data are among those of its window. -/
theorem filePages_subset {nData nAlloc q : ℕ} (hle : nData ≤ nAlloc) (halloc : nAlloc ≤ 0x30000000)
    (hq : q ∈ filePages nData) : q ∈ pageRange kernelLoadAddr nAlloc := by
  have hload : kernelLoadAddr = 0x100 * 2 ^ 20 := rfl
  have hdata : sub32 (add32 kernelLoadAddr nData) 1 = kernelLoadAddr + nData - 1 := by
    unfold sub32 add32
    omega
  have hend : sub32 (add32 kernelLoadAddr nAlloc) 1 = kernelLoadAddr + nAlloc - 1 := by
    unfold sub32 add32
    omega
  have hstart : sub32 kernelLoadAddr 1 / 2 ^ 20 = 0xFF := rfl
  unfold filePages at hq
  dsimp only at hq
  rw [hdata, List.mem_range'_1] at hq
  unfold pageRange
  dsimp only
  rw [hstart, hend, List.mem_range'_1]
  clear hstart hend hdata
  generalize kernelLoadAddr = load at *
  omega

theorem sharedFld_sec {sec : ℕ} (h : sec < nPhysPages) :
    (sectionFld (sec * 2 ^ 20) sharedFlags).sec = sec :=
  sectionFld_sec _ (Nat.lt_trans h (by decide))

namespace Held
variable {v w : Vm} {win : Set ℕ} {page sec q : ℕ} {sync : Bool}

/-- A child that has no pages yet. -/
theorem of_vacant (h : KernelHeld win v) (hnone : ∀ p < nVirtPages, ¬ (v.table childAsid p).Private)
    (hentries : ∀ p < nVirtPages, (v.table childAsid p).tag ≠ 0 → (v.table childAsid p).Valid)
    (hbuffer : ∀ f file, v.frame = some f → f.file = some file →
      ∀ q ∈ filePages file.nData, q ∈ win)
    (hfits : ∀ f file, v.frame = some f → f.file = some file → file.nData ≤ file.nAlloc) :
    Held win v := by
  refine ⟨h, ⟨?_, ?_, ?_, ?_, ?_⟩, ?_, hentries, hbuffer, hfits⟩
  · exact fun p hp => absurd hp.2.1 (hnone p hp.1)
  · exact fun p hp => absurd hp.2.1 (hnone p hp.1)
  · exact fun p hp => absurd hp.2.1 (hnone p hp.1)
  · exact fun p hp => absurd hp.2.1 (hnone p hp.1)
  · exact fun p hp => absurd hp.2.1 (hnone p hp.1)
  · exact fun p hp => absurd hp.2.1 (hnone p hp.1)

theorem congr (h : Held win v) (hmap : w.paddrToAsidMap = v.paddrToAsidMap)
    (htable : w.table = v.table) (hflags : w.flags = v.flags) (hproc : w.kernelProc = v.kernelProc)
    (hfile : ∀ g file, w.frame = some g → g.file = some file →
      ∃ f, v.frame = some f ∧ f.file = some file) : Held win w := by
  have hown : w.ownPages = v.ownPages := by
    unfold Vm.ownPages
    rw [htable, hflags]
  have hshared : w.sharedPages = v.sharedPages := by
    unfold Vm.sharedPages
    rw [htable, hflags]
  refine ⟨h.toKernelHeld.congr hmap (by rw [htable]) hproc, ?_, ?_, ?_, ?_, ?_⟩
  · rw [hown]
    exact h.own.congr hmap (by rw [htable])
  · rw [hshared, htable]
    exact h.shared
  · rw [htable]
    exact h.entries
  · intro g file hg hgfile
    obtain ⟨f, hf, hffile⟩ := hfile g file hg hgfile
    exact h.buffer f file hf hffile
  · intro g file hg hgfile
    obtain ⟨f, hf, hffile⟩ := hfile g file hg hgfile
    exact h.fits f file hf hffile

/-- The child maps a page of its own. -/
theorem mapRam (h : Held win v) (hsec : Free v sec) :
    Held win (v.mapRam childAsid page sec sync) := by
  have hother : ∀ p, p ≠ page →
      (v.mapRam childAsid page sec sync).table childAsid p = v.table childAsid p := by
    intro p hp
    rw [mapRam_table, if_neg (fun hin => hp hin.2)]
  have hnew : (v.mapRam childAsid page sec sync).table childAsid page = ramFld sec sync := by
    rw [mapRam_table, if_pos ⟨rfl, rfl⟩]
  have hflags : ∀ p, p ≠ page →
      (v.mapRam childAsid page sec sync).flags childAsid p = v.flags childAsid p := by
    intro p hp
    rw [mapRam_flags, if_neg (fun hin => hp hin.2)]
  have hflag : (v.mapRam childAsid page sec sync).flags childAsid page = ramFlags sync := by
    rw [mapRam_flags, if_pos ⟨rfl, rfl⟩]
  have hkernel : ∀ p,
      (v.mapRam childAsid page sec sync).table kernelAsid p = v.table kernelAsid p := by
    intro p
    rw [mapRam_table, if_neg (fun hin => childAsid_ne_kernelAsid hin.1.symm)]
  refine ⟨h.toKernelHeld.mapRam_child hsec, ?_, ?_, ?_, h.buffer, h.fits⟩
  · have hown : Owns (v.mapRam childAsid page sec sync) childAsid (insert page v.ownPages) :=
      h.own.mapRam childAsid_ne hsec
    apply hown.mono
    intro p hp
    by_cases hpage : p = page
    · exact .inl hpage
    · obtain ⟨hlt, hpriv, hshared⟩ := hp
      rw [hother p hpage] at hpriv
      rw [hflags p hpage] at hshared
      exact .inr ⟨hlt, hpriv, hshared⟩
  · intro p hp
    obtain ⟨hlt, hpriv, hshared⟩ := hp
    by_cases hpage : p = page
    · rw [hpage, hflag] at hshared
      cases hshared
    · rw [hother p hpage] at hpriv ⊢
      rw [hflags p hpage] at hshared
      obtain ⟨q, hq, hsame⟩ := h.shared p ⟨hlt, hpriv, hshared⟩
      exact ⟨q, hq, (congrArg Fld.sec (hkernel q)).trans hsame⟩
  · intro p hlt htag
    by_cases hpage : p = page
    · rw [hpage, hnew]
      exact ramFld_private.1
    · rw [hother p hpage] at htag ⊢
      exact h.entries p hlt htag

/-- The child is shown a page of the load window. -/
theorem share (h : Held win v) (hq : q ∈ win) (hsec : sec = (v.table kernelAsid q).sec) :
    Held win (v.setFld childAsid page (sectionFld (sec * 2 ^ 20) sharedFlags) sharedFlags) := by
  have hlt : sec < nPhysPages := hsec ▸ h.owns.hi q (.inr hq)
  have hother : ∀ p, p ≠ page → (v.setFld childAsid page (sectionFld (sec * 2 ^ 20) sharedFlags)
      sharedFlags).table childAsid p = v.table childAsid p := by
    intro p hp
    rw [setFld_table, if_neg (fun hin => hp hin.2)]
  have hnew : (v.setFld childAsid page (sectionFld (sec * 2 ^ 20) sharedFlags)
      sharedFlags).table childAsid page = sectionFld (sec * 2 ^ 20) sharedFlags := by
    rw [setFld_table, if_pos ⟨rfl, rfl⟩]
  have hflags : ∀ p, p ≠ page → (v.setFld childAsid page (sectionFld (sec * 2 ^ 20) sharedFlags)
      sharedFlags).flags childAsid p = v.flags childAsid p := by
    intro p hp
    rw [setFld_flags, if_neg (fun hin => hp hin.2)]
  have hflag : (v.setFld childAsid page (sectionFld (sec * 2 ^ 20) sharedFlags)
      sharedFlags).flags childAsid page = sharedFlags := by
    rw [setFld_flags, if_pos ⟨rfl, rfl⟩]
  have hkernel : (v.setFld childAsid page (sectionFld (sec * 2 ^ 20) sharedFlags)
      sharedFlags).table kernelAsid = v.table kernelAsid := by
    funext p
    rw [setFld_table, if_neg (fun hin => childAsid_ne_kernelAsid hin.1.symm)]
  refine ⟨h.toKernelHeld.congr rfl hkernel rfl, ?_, ?_, ?_, h.buffer, h.fits⟩
  · have hsub : (v.setFld childAsid page (sectionFld (sec * 2 ^ 20) sharedFlags)
        sharedFlags).ownPages ⊆ {p | p ∈ v.ownPages ∧ p ≠ page} := by
      intro p hp
      obtain ⟨hlt', hpriv, hown⟩ := hp
      by_cases hpage : p = page
      · rw [hpage, hflag] at hown
        cases hown
      · rw [hother p hpage] at hpriv
        rw [hflags p hpage] at hown
        exact ⟨⟨hlt', hpriv, hown⟩, hpage⟩
    have hkept : Owns (v.setFld childAsid page (sectionFld (sec * 2 ^ 20) sharedFlags)
        sharedFlags) childAsid {p | p ∈ v.ownPages ∧ p ≠ page} := by
      constructor
      · intro p hp
        rw [hother p hp.2]
        exact h.own.priv p hp.1
      · intro p hp
        rw [hother p hp.2]
        exact h.own.lo p hp.1
      · intro p hp
        rw [hother p hp.2]
        exact h.own.hi p hp.1
      · intro p hp
        rw [hother p hp.2]
        exact h.own.owner p hp.1
      · intro p hp p' hp' heq
        simp only [hother p hp.2, hother p' hp'.2] at heq
        exact h.own.inj hp.1 hp'.1 heq
    exact hkept.mono hsub
  · intro p hp
    obtain ⟨hlt', hpriv, hshared⟩ := hp
    rw [hkernel]
    by_cases hpage : p = page
    · refine ⟨q, hq, ?_⟩
      rw [hpage, hnew, sharedFld_sec hlt, hsec]
    · rw [hother p hpage] at hpriv ⊢
      rw [hflags p hpage] at hshared
      exact h.shared p ⟨hlt', hpriv, hshared⟩
  · intro p hlt' htag
    by_cases hpage : p = page
    · rw [hpage, hnew]
      rfl
    · rw [hother p hpage] at htag ⊢
      exact h.entries p hlt' htag

theorem isolated (h : Held win v) : Isolated v := by
  constructor
  · exact h.own.inj
  · intro p hp
    by_contra hlt
    have howner := h.tables _ (h.own.lo p hp) (by omega)
    rw [h.own.owner p hp] at howner
    exact childAsid_ne_kernelAsid howner
  · intro p hp a hlo hhi
    have hheap : kernelHeapAddr = 5 * 2 ^ 20 := rfl
    have hpage : a / 2 ^ 20 ∈ v.heapPages := by
      change 1 ≤ a / 2 ^ 20 ∧ a / 2 ^ 20 * 2 ^ 20 < v.kernelProc.heapEnd
      omega
    exact h.own.apart h.owns childAsid_ne_kernelAsid hp (.inl hpage)
  · intro f file hf hfile p hp q hq
    exact h.own.apart h.owns childAsid_ne_kernelAsid hp (.inr (h.buffer f file hf hfile q hq))

end Held

/-- Without private pages there is nothing to isolate. -/
theorem Isolated.of_vacant {v : Vm} (hnone : ∀ p < nVirtPages, ¬ (v.table childAsid p).Private) :
    Isolated v := by
  constructor
  · exact fun p hp => absurd hp.2.1 (hnone p hp.1)
  · exact fun p hp => absurd hp.2.1 (hnone p hp.1)
  · exact fun p hp => absurd hp.2.1 (hnone p hp.1)
  · exact fun f file _ _ p hp => absurd hp.2.1 (hnone p hp.1)

/-- The tables and the break decide. -/
theorem Isolated.congr {v w : Vm} (h : Isolated v) (htable : w.table = v.table)
    (hflags : w.flags = v.flags) (hproc : w.kernelProc = v.kernelProc)
    (hframe : w.frame = v.frame) : Isolated w := by
  have hown : w.ownPages = v.ownPages := by
    unfold Vm.ownPages
    rw [htable, hflags]
  constructor
  · rw [hown, htable]
    exact h.apart
  · rw [hown, htable]
    exact h.reserved
  · rw [hown, htable, hproc]
    exact h.heap
  · rw [hown, htable, hframe]
    exact h.buffer

end SimplePiOS.Kernel
