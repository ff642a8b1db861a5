import SimplePiOS.Kernel.ExecRanges

/-! What a program finds in its memory when it is started: the segments of its file, with zeros in .bss. -/
namespace SimplePiOS.Kernel
open Lib Libpi

section Mapped
variable {s : Machine} {v : Vm} {done : List ℕ} {α : Type} {a : α}

theorem mapPages_grown (h : ChildGrown v done s.vm) {pages : List ℕ}
    (hroom : pages.length ≤ (freeSecs s.vm).card) :
    ∃ t, (forM pages (mapPage childAsid false)).run s = .ok ⟨⟩ t ∧
      ChildGrown v (done ++ pages) t.vm ∧ t.vm.frame = s.vm.frame ∧ t.mem = s.mem := by
  induction pages generalizing s done with
  | nil => exact ⟨s, rfl, by rwa [List.append_nil], rfl, rfl⟩
  | cons page pages ih =>
    rw [List.length_cons] at hroom
    rcases mapPage_run childAsid false page s with ⟨hnone, -⟩ | ⟨sec, hsec, hrun⟩
    · have hempty : freeSecs s.vm = ∅ :=
        Finset.eq_empty_of_forall_notMem fun sec hsec => hnone sec (mem_freeSecs.mp hsec)
      rw [hempty, Finset.card_empty] at hroom
      omega
    · have hnext : ChildGrown v (done ++ [page]) (s.mapRam childAsid page sec false).vm := by
        rw [mapRam_vm]
        exact h.mapRam hsec
      have hleft : pages.length ≤ (freeSecs (s.mapRam childAsid page sec false).vm).card := by
        rw [mapRam_vm, freeSecs_mapRam childAsid_ne, Finset.card_erase_of_mem (mem_freeSecs.mpr hsec)]
        omega
      obtain ⟨t, ht, hgrown, hframe, hmem⟩ := ih hnext hleft
      rw [List.append_assoc, List.singleton_append] at hgrown
      rw [mapRam_vm] at hframe
      refine ⟨t, ?_, hgrown, hframe, hmem.trans (mapRam_mem s)⟩
      rw [List.forM_cons, bind_ok hrun]
      exact ht

theorem ChildGrown.room_left {w u : Vm} {new : List ℕ} {k : ℕ} (h : ChildGrown v done w)
    (h' : ChildGrown v (done ++ new) u) (hk : new.length + k ≤ (freeSecs w).card) : k ≤ (freeSecs u).card := by
  have hroom := h.room
  have hroom' := h'.room
  rw [List.length_append] at hroom'
  omega

/-- A plan that comes to an end is carried out, if there is RAM for it. -/
theorem exec_grown {p : Plan α} {f : ExecFrame} (h : ChildGrown v done s.vm) (hf : s.vm.frame = some f)
    (hresult : p.result = .ok a)
    (hroom : (rangePages p.ranges).length ≤ (freeSecs s.vm).card) :
    ∃ t, (p.exec childAsid).run s = .ok a t ∧ ChildGrown v (done ++ rangePages p.ranges) t.vm ∧
      (∃ g, t.vm.frame = some g ∧ g.proc = { f.proc with heapStart := p.heapStart f.proc.heapStart }) ∧
      t.mem = s.mem := by
  induction p generalizing s done f with
  | ret b =>
    cases hresult
    exact ⟨s, rfl, by simpa [rangePages, Plan.ranges] using h, ⟨f, hf, rfl⟩, rfl⟩
  | stop e => cases hresult
  | map addr size next ih =>
    have hpages : rangePages (Plan.map addr size next).ranges = pageRange addr size ++ rangePages next.ranges :=
      List.flatMap_cons
    rw [hpages, List.length_append] at hroom
    have hsize : (pageRange addr size).length ≤ (freeSecs s.vm).card := by omega
    obtain ⟨t, hmap, hgrown, hframe, hmem⟩ := mapPages_grown h hsize
    obtain ⟨u, hnext, hgrown', hframe', hmem'⟩ := ih hgrown (hframe.trans hf) hresult (h.room_left hgrown hroom)
    rw [hpages, ← List.append_assoc]
    refine ⟨u, ?_, hgrown', hframe', hmem'.trans hmem⟩
    have hmap' : (mmuMapToMem childAsid addr size false).run s = .ok ⟨⟩ t := hmap
    unfold Plan.exec
    rw [bind_ok hmap']
    exact hnext
  | setHeapStart addr next ih =>
    have hset : ChildGrown v done (s.step .update (·.setHeapStart addr)).vm := h.congr rfl rfl
    have hf' : (s.step .update (·.setHeapStart addr)).vm.frame =
        some { f with proc := { f.proc with heapStart := addr } } := congrArg (Option.map _) hf
    exact ih hset hf' hresult hroom

/-- `elf_load` on a file that is accepted. -/
theorem elfLoad_grown {nData : ℕ} {instrLst : List LoadInstr} {f : ExecFrame} (httbr : s.vm.ttbr = kernelAsid)
    (hf : s.vm.frame = some f)
    (hresult : (s.view.elfLoad kernelLoadAddr nData).result = .ok (some instrLst))
    (hroom : (rangePages (s.view.loadRanges kernelLoadAddr)).length ≤ (freeSecs s.vm).card) :
    ∃ t, (elfLoad kernelLoadAddr nData childAsid).run s = .ok (some instrLst) t ∧
      ChildGrown s.vm (rangePages (s.view.loadRanges kernelLoadAddr)) t.vm ∧
      (∃ g, t.vm.frame = some g ∧ g.proc =
        { f.proc with heapStart := (s.view.elfLoad kernelLoadAddr nData).heapStart f.proc.heapStart }) ∧
      t.mem = s.mem := by
  have hranges := (View.of_elfLoad_ok hresult).1
  have hplan : s.view.elfLoad kernelLoadAddr nData ≠ .ret none := by
    intro heq
    rw [heq] at hresult
    cases hresult
  rw [← hranges] at hroom ⊢
  obtain ⟨t, hrun, hgrown, hframe, hmem⟩ := exec_grown (.refl s.vm) hf hresult hroom
  refine ⟨t.step (.ret .elfLoad) id, ?_, hgrown, hframe, hmem⟩
  rw [elfLoad_run httbr rfl hplan, bind_ok hrun]
  rfl

theorem ChildGrown.owns {w : Vm} (h : ChildGrown v done w) : Owns w childAsid {p | p ∈ done} :=
  ⟨h.priv, fun p hp => (h.fresh p hp).lo, fun p hp => (h.fresh p hp).hi, h.taken, h.inj⟩

end Mapped

/-- A list of bytes at an address. -/
def bytesAt (base : ℕ) (cs : List UInt8) (a : ℕ) : Option UInt8 := if base ≤ a then cs[a - base]? else none

/-- What an instruction leaves in memory, for the file `bs`. -/
def LoadInstr.stored (bs : List UInt8) : LoadInstr → ℕ → Option UInt8
  | .copy dstAddr srcAddr size => bytesAt dstAddr ((bs.drop (srcAddr - kernelLoadAddr)).take size)
  | .zero dstAddr size => bytesAt dstAddr (List.replicate size 0)
  | .jump _ => fun _ => none

/-- The image that load instructions make of a file: where several of them store, the last one counts. -/
def imageOf (bs : List UInt8) : List LoadInstr → ℕ → Option UInt8
  | [], _ => none
  | instr :: is, a => (imageOf bs is a).or (instr.stored bs a)

/-- The range lies in the pages, below the top of the address space. -/
def InPages (pages : List ℕ) (addr size : ℕ) : Prop :=
  addr + size < 2 ^ 32 ∧ ∀ i < size, (addr + i) / 2 ^ 20 ∈ pages

/-- The instruction copies from the file, and stores to the pages. -/
def LoadInstr.Placed (bs : List UInt8) (pages : List ℕ) : LoadInstr → Prop
  | .copy dstAddr srcAddr size => InPages pages dstAddr size ∧
      ∃ offset, srcAddr = kernelLoadAddr + offset ∧ offset + size ≤ bs.length
  | .zero dstAddr size => InPages pages dstAddr size
  | .jump _ => False

/-- A table is in force in which the pages are the program's own, and which shows it the file. -/
structure Shown (bs : List UInt8) (pages : List ℕ) (s : Machine) : Prop where
  owns : Owns s.vm s.vm.ttbr {p | p ∈ pages}
  fits : procLoadAddr + bs.length < 2 ^ 32
  file : s.Holds procLoadAddr bs
  apart : ∀ i < bs.length, ∀ p ∈ pages,
    (s.vm.table s.vm.ttbr p).sec ≠ (s.vm.fldAt (procLoadAddr + i)).sec

/-- `t` is `s` with the bytes of `f` in the program's pages. -/
structure Imaged (pages : List ℕ) (f : ℕ → Option UInt8) (s t : Machine) : Prop where
  vm : t.vm = s.vm
  mem : ∀ a, a / 2 ^ 20 ∈ pages → t.mem (s.vm.phys a) = (f a).getD (s.mem (s.vm.phys a))
  other : ∀ pa, (∀ p ∈ pages, (s.vm.table s.vm.ttbr p).sec ≠ pa / 2 ^ 20) → t.mem pa = s.mem pa

section Loads
variable {bs cs : List UInt8} {pages : List ℕ} {s t u : Machine} {base n : ℕ} {f g : ℕ → Option UInt8}

theorem bytesAt_add (base i : ℕ) (cs : List UInt8) : bytesAt base cs (base + i) = cs[i]? := by
  simp [bytesAt]

theorem bytesAt_outside {a : ℕ} (h : ¬ (base ≤ a ∧ a < base + cs.length)) : bytesAt base cs a = none := by
  unfold bytesAt
  split
  · rw [List.getElem?_eq_none_iff]
    omega
  · rfl

theorem Imaged.refl (pages : List ℕ) (s : Machine) : Imaged pages (fun _ => none) s s :=
  ⟨rfl, fun _ _ => rfl, fun _ _ => rfl⟩

theorem Imaged.trans (h : Imaged pages f s t) (h' : Imaged pages g t u) :
    Imaged pages (fun a => (g a).or (f a)) s u := by
  have hmem := h'.mem
  have hother := h'.other
  rw [h.vm] at hmem hother
  refine ⟨h'.vm.trans h.vm, fun a ha => ?_, fun pa hpa => (hother pa hpa).trans (h.other pa hpa)⟩
  rw [hmem a ha, h.mem a ha]
  cases g a with
  | none => rfl
  | some b => rfl

/-- In the pages each address has a byte of its own. -/
theorem Shown.phys_inj (h : Shown bs pages s) {a b : ℕ} (ha : a / 2 ^ 20 ∈ pages) (hb : b / 2 ^ 20 ∈ pages)
    (heq : s.vm.phys a = s.vm.phys b) : a = b := by
  have hdiv := congrArg (· / 2 ^ 20) heq
  have hmod := congrArg (· % 2 ^ 20) heq
  simp only [phys_div] at hdiv
  simp only [phys_mod] at hmod
  have hpage : a / 2 ^ 20 = b / 2 ^ 20 := h.owns.inj ha hb hdiv
  omega

theorem Shown.backed (h : Shown bs pages s) (hin : InPages pages base n) : Backed s.vm base n :=
  h.owns.backed (Nat.le_of_lt hin.1) hin.2

/-- A store to a range of the program's own. -/
theorem Shown.imaged (h : Shown bs pages s) (hin : InPages pages base n) (hcs : cs.length = n)
    (hst : (mmuBlock s base n (h.backed hin)).Stored s t 0 cs) :
    Imaged pages (bytesAt base cs) s t := by
  have hwithin : Within s base n t := hst.inv
  refine ⟨hwithin.vm, fun a ha => ?_, fun pa hpa => ?_⟩
  · by_cases hrange : base ≤ a ∧ a < base + n
    · obtain ⟨i, rfl⟩ := Nat.exists_eq_add_of_le hrange.1
      have hget : t.mem (s.vm.phys (base + i)) = _ := hst.get_eq i (by omega)
      rw [hget, bytesAt_add, if_neg (Nat.not_lt_zero i), List.getD_eq_getElem?_getD]
      rfl
    · rw [bytesAt_outside (by rwa [hcs])]
      apply hwithin.mem
      intro i hi heq
      have hsame := h.phys_inj (hin.2 i hi) ha heq
      omega
  · apply hwithin.mem
    intro i hi heq
    have hsec := phys_div s.vm (base + i)
    rw [heq] at hsec
    exact hpa _ (hin.2 i hi) hsec.symm

/-- The file is where no store goes. -/
theorem Shown.step (h : Shown bs pages s) (h' : Imaged pages f s t) : Shown bs pages t := by
  obtain ⟨howns, hfits, hfile, hapart⟩ := h
  rw [← h'.vm] at howns
  refine ⟨howns, hfits, ?_, ?_⟩
  · intro i b hb
    have hi : i < bs.length := (List.getElem?_eq_some_iff.mp hb).1
    have hold := hfile i b hb
    have hmod : (procLoadAddr + i) % 2 ^ 32 = procLoadAddr + i := Nat.mod_eq_of_lt (by omega)
    unfold Machine.view Fld.translate at hold ⊢
    rw [hmod] at hold ⊢
    rw [h'.vm]
    split at hold
    · next hvalid =>
      rw [if_pos hvalid]
      have hsame : t.mem (s.vm.phys (procLoadAddr + i)) = s.mem (s.vm.phys (procLoadAddr + i)) := by
        apply h'.other
        rw [phys_div]
        exact hapart i hi
      simp only [Option.map_some, Option.some.injEq] at hold ⊢
      exact hsame.trans hold
    · cases hold
  · rw [h'.vm]
    exact hapart

theorem execLoadInstr_imaged (sbrks : List ℕ) (h : Shown bs pages s) {instr : LoadInstr}
    (hplaced : instr.Placed bs pages) :
    ∃ t, (execLoadInstr sbrks instr).run s = .ok true t ∧ Imaged pages (instr.stored bs) s t := by
  cases instr with
  | copy dstAddr srcAddr size =>
    obtain ⟨hin, offset, rfl, hoffset⟩ := hplaced
    have hfits := h.fits
    have hload : kernelLoadAddr = 0x10000000 := rfl
    have hproc : procLoadAddr = 0x80000000 := rfl
    have hsrc : add32 (kernelLoadAddr + offset) (procLoadAddr - kernelLoadAddr) = procLoadAddr + offset := by
      unfold add32
      omega
    have hlen : ((bs.drop offset).take size).length = size := by
      rw [List.length_take, List.length_drop]
      omega
    have hbyte : ∀ i < size, ((bs.drop offset).take size)[i]? = bs[offset + i]? := by
      intro i hi
      simp [hi, List.getElem?_drop]
    have hsource : (mmuBlock s dstAddr size (h.backed hin)).Source (procLoadAddr + offset)
        ((bs.drop offset).take size) := by
      apply mmuBlock_source
      · intro i b hb
        have hi : i < size := hlen ▸ (List.getElem?_eq_some_iff.mp hb).1
        rw [hbyte i hi] at hb
        rw [Nat.add_assoc]
        exact h.file _ _ hb
      · intro i hi j hj heq
        rw [hlen] at hi
        rw [Nat.add_assoc, Nat.mod_eq_of_lt (by omega)] at heq
        have hsec := congrArg (· / 2 ^ 20) heq
        simp only [phys_div] at hsec
        exact h.apart (offset + i) (by omega) _ (hin.2 j hj) hsec
    obtain ⟨t, hcopy, hst⟩ := (mmuBlock s dstAddr size (h.backed hin)).memcpy_eq (o := 0) (.refl s _ _) hsource
      (by omega)
    rw [Nat.add_zero, hlen] at hcopy
    refine ⟨t, ?_, ?_⟩
    · unfold execLoadInstr
      dsimp only
      rw [hsrc, bind_ok hcopy]
      rfl
    · have himaged := h.imaged hin hlen hst
      simpa [LoadInstr.stored] using himaged
  | zero dstAddr size =>
    obtain ⟨t, hset, hst⟩ := (mmuBlock s dstAddr size (h.backed hplaced)).memset_eq 0 (.refl s _ _) hplaced.1
    refine ⟨t, ?_, ?_⟩
    · unfold execLoadInstr
      rw [bind_ok hset]
      rfl
    · exact h.imaged hplaced List.length_replicate hst
  | jump dstAddr => exact hplaced.elim

/-- The instructions in order leave the image. -/
theorem execLoadInstrs_imaged (sbrks : List ℕ) {instrLst : List LoadInstr} (h : Shown bs pages s)
    (hplaced : ∀ instr ∈ instrLst, instr.Placed bs pages) :
    ∃ t, (execLoadInstrs sbrks instrLst).run s = .ok () t ∧ Imaged pages (imageOf bs instrLst) s t := by
  induction instrLst generalizing s with
  | nil => exact ⟨s, rfl, .refl pages s⟩
  | cons instr is ih =>
    obtain ⟨t, hrun, himaged⟩ := execLoadInstr_imaged sbrks h (hplaced instr List.mem_cons_self)
    obtain ⟨u, hrest, himaged'⟩ := ih (h.step himaged) fun i hi => hplaced i (List.mem_cons_of_mem instr hi)
    refine ⟨u, ?_, himaged.trans himaged'⟩
    unfold execLoadInstrs
    rw [bind_ok hrun]
    exact hrest

end Loads

section Image
variable {bs : List UInt8} {instr : LoadInstr} {is js : List LoadInstr} {a : ℕ}

/-- An address is one of a range. -/
def InRange (r : ℕ × ℕ) (a : ℕ) : Prop := r.1 ≤ a ∧ a < r.1 + r.2

theorem imageOf_append (is js : List LoadInstr) :
    imageOf bs (is ++ js) a = (imageOf bs js a).or (imageOf bs is a) := by
  induction is with
  | nil => simp [imageOf]
  | cons instr is ih => simp [imageOf, ih, Option.or_assoc]

theorem imageOf_none (h : ∀ instr ∈ is, instr.stored bs a = none) : imageOf bs is a = none := by
  induction is with
  | nil => rfl
  | cons instr is ih =>
    have hrest := ih fun i hi => h i (List.mem_cons_of_mem instr hi)
    simp [imageOf, hrest, h instr List.mem_cons_self]

/-- What the last instruction for an address stores there. -/
theorem imageOf_last {b : UInt8} (hinstr : instr.stored bs a = some b)
    (h : ∀ instr ∈ js, instr.stored bs a = none) : imageOf bs (is ++ instr :: js) a = some b := by
  simp [imageOf_append, imageOf, imageOf_none h, hinstr]

theorem exists_stored {c : UInt8} (h : imageOf bs is a = some c) : ∃ instr ∈ is, instr.stored bs a = some c := by
  induction is with
  | nil => cases h
  | cons instr is ih =>
    unfold imageOf at h
    rcases Option.or_eq_some_iff.mp h with hrest | ⟨-, hfirst⟩
    · obtain ⟨i, hi, hstored⟩ := ih hrest
      exact ⟨i, List.mem_cons_of_mem instr hi, hstored⟩
    · exact ⟨instr, List.mem_cons_self, hfirst⟩

/-- What instructions leave that agree on what they store. -/
theorem imageOf_same {b : UInt8} (hin : instr ∈ is) (hinstr : instr.stored bs a = some b)
    (h : ∀ instr ∈ is, ∀ c, instr.stored bs a = some c → c = b) : imageOf bs is a = some b := by
  obtain ⟨pre, post, rfl⟩ := List.append_of_mem hin
  obtain ⟨c, hc⟩ : ∃ c, imageOf bs (pre ++ instr :: post) a = some c := by
    rw [imageOf_append, imageOf, hinstr]
    cases imageOf bs post a with
    | none => exact ⟨b, rfl⟩
    | some c => exact ⟨c, rfl⟩
  obtain ⟨i, hi, hstored⟩ := exists_stored hc
  rw [hc, h i hi c hstored]

theorem stored_copy {dstAddr offset size i : ℕ} (hi : i < size) :
    LoadInstr.stored bs (.copy dstAddr (kernelLoadAddr + offset) size) (dstAddr + i) = bs[offset + i]? := by
  simp [LoadInstr.stored, bytesAt_add, hi, List.getElem?_drop]

theorem stored_zero {dstAddr size i : ℕ} (hi : i < size) :
    LoadInstr.stored bs (.zero dstAddr size) (dstAddr + i) = some 0 := by
  simp [LoadInstr.stored, bytesAt_add, hi]

theorem stored_zero_eq {dstAddr size : ℕ} {c : UInt8} (h : LoadInstr.stored bs (.zero dstAddr size) a = some c) :
    c = 0 := by
  simp only [LoadInstr.stored, bytesAt] at h
  split at h
  · exact (List.mem_replicate.mp (List.mem_of_getElem? h)).2
  · cases h

/-- Nothing is stored outside its range. -/
theorem stored_outside (bs : List UInt8) (w : View) (fileData : ℕ) {phdrs shdrs : List ℕ}
    (hout : ∀ r ∈ phdrs.map w.phdrRange ++ shdrs.map w.shdrRange, ¬ InRange r a) :
    ∀ instr ∈ phdrs.map (w.copyInstr fileData) ++ shdrs.map w.zeroInstr, instr.stored bs a = none := by
  intro instr hinstr
  rcases List.mem_append.mp hinstr with hinstr | hinstr
  · obtain ⟨phdr, hphdr, rfl⟩ := List.mem_map.mp hinstr
    have hno := hout _ (List.mem_append_left _ (List.mem_map_of_mem hphdr))
    apply bytesAt_outside
    unfold InRange at hno
    rw [List.length_take]
    omega
  · obtain ⟨shdr, hshdr, rfl⟩ := List.mem_map.mp hinstr
    have hno := hout _ (List.mem_append_right _ (List.mem_map_of_mem hshdr))
    apply bytesAt_outside
    rwa [List.length_replicate]

end Image

/-- A file whose segments lie in it, whose ranges have a page mapped for each of their bytes, and which
leaves the window alone in which it is shown. -/
structure LoadableFile (bs : List UInt8) : Prop where
  inside : ∀ phdr ∈ (fileView bs).phdrs kernelLoadAddr,
    (fileView bs).u32 (phdr + 4) + ((fileView bs).phdrRange phdr).2 ≤ bs.length
  covered : ∀ r ∈ (fileView bs).loadRanges kernelLoadAddr,
    InPages (rangePages ((fileView bs).loadRanges kernelLoadAddr)) r.1 r.2
  clear : ∀ page ∈ rangePages ((fileView bs).loadRanges kernelLoadAddr), page ∉ windowPages bs.length

section Opened
variable {bs : List UInt8} {s t u : Machine} {w v : Vm} {file : PiFile} {n : ℕ} {pages : List ℕ}

theorem copyInstr_eq {phdr : ℕ} (hoffset : kernelLoadAddr + (fileView bs).u32 (phdr + 4) < 2 ^ 32) :
    (fileView bs).copyInstr kernelLoadAddr phdr =
      .copy ((fileView bs).phdrRange phdr).1 (kernelLoadAddr + (fileView bs).u32 (phdr + 4))
        ((fileView bs).phdrRange phdr).2 := by
  unfold View.copyInstr add32
  rw [Nat.mod_eq_of_lt hoffset]

theorem LoadableFile.placed (h : LoadableFile bs) (hlen : kernelLoadAddr + bs.length < 2 ^ 32) :
    ∀ instr ∈ (fileView bs).loadInstrs kernelLoadAddr,
      instr.Placed bs (rangePages ((fileView bs).loadRanges kernelLoadAddr)) := by
  intro instr hinstr
  rcases List.mem_append.mp hinstr with hinstr | hinstr
  · obtain ⟨phdr, hphdr, rfl⟩ := List.mem_map.mp hinstr
    have hinside := h.inside phdr hphdr
    rw [copyInstr_eq (by omega)]
    exact ⟨h.covered _ (List.mem_append_left _ (List.mem_map_of_mem hphdr)), _, rfl, hinside⟩
  · obtain ⟨shdr, hshdr, rfl⟩ := List.mem_map.mp hinstr
    exact h.covered _ (List.mem_append_right _ (List.mem_map_of_mem hshdr))

/-- The file is open: the kernel has it in the window, and the child's table shows it. -/
structure FileOpen (bs : List UInt8) (s : Machine) : Prop where
  ttbr : s.vm.ttbr = kernelAsid
  fits : procLoadAddr + bs.length < 2 ^ 32
  holds : s.Holds kernelLoadAddr bs
  taken : ∀ i < bs.length,
    s.vm.paddrToAsidMap (s.vm.table kernelAsid ((kernelLoadAddr + i) / 2 ^ 20)).sec = kernelAsid
  shown : ∀ i < bs.length, ∃ f, s.vm.table childAsid ((procLoadAddr + i) / 2 ^ 20) = f ∧ f.Valid ∧
    f.sec = (s.vm.table kernelAsid ((kernelLoadAddr + i) / 2 ^ 20)).sec

theorem mem_filePages {i : ℕ} (hlen : kernelLoadAddr + n ≤ 2 ^ 32) (hi : i < n) :
    (kernelLoadAddr + i) / 2 ^ 20 ∈ filePages n := by
  have hload : kernelLoadAddr = 0x10000000 := rfl
  have hend : sub32 (add32 kernelLoadAddr n) 1 = kernelLoadAddr + n - 1 := by
    unfold sub32 add32
    omega
  unfold filePages
  dsimp only
  rw [hend, List.mem_range'_1]
  omega

theorem childPage_window {i : ℕ} (hi : procLoadAddr + i < 2 ^ 32) :
    childPage ((kernelLoadAddr + i) / 2 ^ 20) = (procLoadAddr + i) / 2 ^ 20 := by
  have hload : kernelLoadAddr = 0x10000000 := rfl
  have hproc : procLoadAddr = 0x80000000 := rfl
  rw [childPage_eq]
  change ((kernelLoadAddr + i) / 2 ^ 20 + 0x700) % 4096 = _
  omega

/-- A window that is filled and shared. -/
theorem fileOpen_of_shared (httbr : s.vm.ttbr = kernelAsid) (hfits : procLoadAddr + bs.length < 2 ^ 32)
    (hholds : s.Holds kernelLoadAddr bs) (hgrown : Grown w v kernelAsid (pageRange kernelLoadAddr n))
    (hvm : s.vm = v.shareAll (filePages bs.length)) (hlen : bs.length ≤ n) (htop : kernelLoadAddr + n ≤ 2 ^ 32) :
    FileOpen bs s := by
  have hload : kernelLoadAddr = 0x10000000 := rfl
  have hproc : procLoadAddr = 0x80000000 := rfl
  have hsame := shareAll_same v (filePages bs.length)
  have hkernel : s.vm.table kernelAsid = v.table kernelAsid := by rw [hvm, hsame.table _ (by decide)]
  have hwindow : ∀ i < bs.length, (kernelLoadAddr + i) / 2 ^ 20 ∈ pageRange kernelLoadAddr n :=
    fun i hi => mem_windowPages_of_lt htop (by omega)
  refine ⟨httbr, hfits, hholds, ?_, ?_⟩
  · intro i hi
    rw [hkernel, hvm, hsame.paddrToAsidMap]
    exact hgrown.taken _ (hwindow i hi)
  · intro i hi
    have hpage : (kernelLoadAddr + i) / 2 ^ 20 ∈ filePages bs.length := mem_filePages (by omega) hi
    have hshown := shareAll_shown (v := v) (fun _ hq => filePages_lt hq) hpage
    rw [childPage_window (by omega), ← hvm] at hshown
    have hsec := (hgrown.fresh _ (hwindow i hi)).hi
    rw [hkernel]
    exact ⟨_, hshown, rfl, sectionFld_sec _ (Nat.lt_trans hsec (by decide))⟩

/-- Once the program's pages are mapped and its table is in force, it sees the file. -/
theorem FileOpen.toShown (h : FileOpen bs s) (hgrown : ChildGrown s.vm pages t.vm) (hmem : t.mem = s.mem)
    (hclear : ∀ page ∈ pages, page ∉ windowPages bs.length)
    (hu : u.vm.ttbr = childAsid) (htable : u.vm.table = t.vm.table)
    (howner : u.vm.paddrToAsidMap = t.vm.paddrToAsidMap) (humem : u.mem = t.mem) : Shown bs pages u := by
  have hfits := h.fits
  have hload : kernelLoadAddr = 0x10000000 := rfl
  have hproc : procLoadAddr = 0x80000000 := rfl
  have hentry : ∀ i < bs.length, u.vm.fldAt (procLoadAddr + i) =
      s.vm.table childAsid ((procLoadAddr + i) / 2 ^ 20) := by
    intro i hi
    have hin : (procLoadAddr + i) / 2 ^ 20 ∈ windowPages bs.length := by
      rw [← childPage_window (by omega)]
      exact List.mem_map_of_mem (mem_filePages (by omega) hi)
    unfold Vm.fldAt
    rw [hu, htable]
    exact hgrown.old _ fun hpage => hclear _ hpage hin
  refine ⟨?_, hfits, ?_, ?_⟩
  · rw [hu]
    exact hgrown.owns.congr howner (by rw [htable])
  · intro i b hb
    have hi : i < bs.length := (List.getElem?_eq_some_iff.mp hb).1
    have hold := h.holds i b hb
    obtain ⟨f, hf, hvalid, hsec⟩ := h.shown i hi
    have hoffset : (procLoadAddr + i) % 2 ^ 20 = (kernelLoadAddr + i) % 2 ^ 20 := by omega
    unfold Machine.view Fld.translate at hold ⊢
    rw [Nat.mod_eq_of_lt (by omega)] at hold ⊢
    rw [hentry i hi, hf, if_pos hvalid, hsec, humem, hmem, hoffset]
    unfold Vm.fldAt at hold
    rw [h.ttbr] at hold
    split at hold
    · exact hold
    · cases hold
  · intro i hi p hp heq
    obtain ⟨f, hf, -, hsec⟩ := h.shown i hi
    have htaken := h.taken i hi
    rw [hentry i hi, hf, hsec, hu, htable] at heq
    rw [← heq, (hgrown.fresh p hp).owner] at htaken
    exact kernelAsid_ne htaken.symm

end Opened

/-- The memory `u` in which a program is started whose file is `bs`. Its .bss is zero, the bytes of a segment
are those of the file where no later range has them, the window shows the file, and of the memory `s` before
only what was free has changed. -/
structure ImageLoaded (bs : List UInt8) (s u : Machine) : Prop where
  bss : ∀ shdr ∈ (fileView bs).bssSections kernelLoadAddr, ∀ i < ((fileView bs).shdrRange shdr).2,
    u.view (((fileView bs).shdrRange shdr).1 + i) = some 0
  segments : ∀ pre phdr post, (fileView bs).phdrs kernelLoadAddr = pre ++ phdr :: post →
    ∀ i < ((fileView bs).phdrRange phdr).2,
      (∀ r ∈ post.map (fileView bs).phdrRange ++
        ((fileView bs).bssSections kernelLoadAddr).map (fileView bs).shdrRange,
          ¬ InRange r (((fileView bs).phdrRange phdr).1 + i)) →
      u.view (((fileView bs).phdrRange phdr).1 + i) = bs[(fileView bs).u32 (phdr + 4) + i]?
  window : u.Holds procLoadAddr bs
  others : ∀ pa, ¬ Free s.vm (pa / 2 ^ 20) → u.mem pa = s.mem pa

section Start
variable {bs : List UInt8} {s t u : Machine} {pages : List ℕ} {f : ℕ → Option UInt8} {e n a : ℕ} {b : UInt8}

/-- What the program reads where the image has a byte. -/
theorem Imaged.view_eq (h : Imaged pages f s t) (hs : Shown bs pages s) (htop : a < 2 ^ 32)
    (hpage : a / 2 ^ 20 ∈ pages) (hf : f a = some b) : t.view a = some b := by
  have hpriv : (s.vm.fldAt a).Private := hs.owns.priv _ hpage
  have hmem := h.mem a hpage
  rw [hf, Option.getD_some] at hmem
  unfold Machine.view
  rw [h.vm, Nat.mod_eq_of_lt htop, translate_private hpriv]
  exact congrArg some hmem

theorem LoadableFile.image (h : LoadableFile bs) (hlen : kernelLoadAddr + bs.length < 2 ^ 32)
    (hs : Shown bs (rangePages ((fileView bs).loadRanges kernelLoadAddr)) t)
    (himaged : Imaged (rangePages ((fileView bs).loadRanges kernelLoadAddr))
      (imageOf bs ((fileView bs).loadInstrs kernelLoadAddr)) t u)
    (hothers : ∀ pa, ¬ Free s.vm (pa / 2 ^ 20) → u.mem pa = s.mem pa) : ImageLoaded bs s u := by
  have hview : ∀ r ∈ (fileView bs).loadRanges kernelLoadAddr, ∀ i < r.2, ∀ b,
      imageOf bs ((fileView bs).loadInstrs kernelLoadAddr) (r.1 + i) = some b → u.view (r.1 + i) = some b := by
    intro r hr i hi b hb
    have hin := h.covered r hr
    have htop := hin.1
    exact himaged.view_eq hs (by omega) (hin.2 i hi) hb
  constructor
  · intro shdr hshdr i hi
    apply hview _ (List.mem_append_right _ (List.mem_map_of_mem hshdr)) i hi
    unfold View.loadInstrs
    rw [imageOf_append]
    have hzero : ∀ instr ∈ ((fileView bs).bssSections kernelLoadAddr).map (fileView bs).zeroInstr,
        ∀ c, instr.stored bs (((fileView bs).shdrRange shdr).1 + i) = some c → c = 0 := by
      intro instr hinstr c hc
      obtain ⟨other, -, rfl⟩ := List.mem_map.mp hinstr
      exact stored_zero_eq hc
    have hstored : ((fileView bs).zeroInstr shdr).stored bs (((fileView bs).shdrRange shdr).1 + i) = some 0 :=
      stored_zero hi
    have hlast := imageOf_same (List.mem_map_of_mem hshdr) hstored hzero
    simp [hlast]
  · intro pre phdr post hsplit i hi hout
    have hphdr : phdr ∈ (fileView bs).phdrs kernelLoadAddr := by simp [hsplit]
    have hinside := h.inside phdr hphdr
    obtain ⟨b, hb⟩ : ∃ b, bs[(fileView bs).u32 (phdr + 4) + i]? = some b :=
      ⟨_, List.getElem?_eq_getElem (by omega)⟩
    rw [hb]
    apply hview _ (List.mem_append_left _ (List.mem_map_of_mem hphdr)) i hi
    have hcopy : ((fileView bs).copyInstr kernelLoadAddr phdr).stored bs
        (((fileView bs).phdrRange phdr).1 + i) = some b := by
      rw [copyInstr_eq (by omega), stored_copy hi, hb]
    have hlater := stored_outside bs (fileView bs) kernelLoadAddr hout
    unfold View.loadInstrs
    rw [hsplit, List.map_append, List.map_cons, List.append_assoc, List.cons_append]
    exact imageOf_last hcopy hlater
  · exact (hs.step himaged).file
  · exact hothers

/-- A file on the disk, and a kernel with room for it: its chain covers it, and read to the kernel's heap it
stays below the window. -/
structure Readable (disk : Disk) (fuel : ℕ) (fs : Fat32) (size : FatSize) (d : Dirent) (cs : List ℕ)
    (bs : List UInt8) (e n : ℕ) (s : Machine) : Prop where
  heap : HeapAt e s
  chain : Chain fs size d.clusterId cs
  cluster : 1 ≤ fs.sectorsPerCluster
  fuel : cs.length < fuel
  alloc : cs.length * fs.sectorsPerCluster * 512 = n
  covers : d.nbytes ≤ n
  below : e ≤ kernelLoadAddr / 2 ^ 20
  fits : s.cursor + n ≤ kernelLoadAddr
  bytes : (chainBytes disk fs cs).take d.nbytes = bs

/-- At the jump to a program its table is in force, its pages have RAM that was free before, and nothing has
been taken from its heap. -/
structure AtJump (bs : List UInt8) (start : ℕ) (s u : Machine) : Prop extends ImageLoaded bs s u where
  asid : u.vm.asid = childAsid
  ttbr : u.vm.ttbr = childAsid
  frame : ∃ f, u.vm.frame = some f ∧ f.proc = ⟨start, 0, childAsid⟩
  owns : Owns u.vm childAsid {p | p ∈ rangePages ((fileView bs).loadRanges kernelLoadAddr)}
  fresh : ∀ p ∈ rangePages ((fileView bs).loadRanges kernelLoadAddr), Free s.vm (u.vm.table childAsid p).sec
  free : ∀ sec, Free u.vm sec → Free s.vm sec
  room : (freeSecs u.vm).card + (rangePages ((fileView bs).loadRanges kernelLoadAddr)).length =
    (freeSecs s.vm).card

variable {disk : Disk} {fuel : ℕ} {fs : Fat32} {size : FatSize} {d : Dirent} {cs : List ℕ} {s₀ : Machine}
  {instrLst : List LoadInstr} {p : Plan (Option (List LoadInstr))}

/-- The window takes no more RAM than is there for it, and the frame is that of a process yet to be loaded. -/
theorem Readable.opened (h : Readable disk fuel fs size d cs bs e n s₀) {k : ℕ}
    (hroom : 2 * (n / 2 ^ 20 + 1) + k ≤ (freeSecs s₀.vm).card) :
    ∃ cksum s, (do execInitTable; execOpen disk fuel fs d).run s₀ = .ok ⟨kernelLoadAddr, cksum, n, d.nbytes⟩ s ∧
      FileOpen bs s ∧ (∃ g, s.vm.frame = some g ∧ g.proc = ⟨0, 0, childAsid⟩) ∧ k ≤ (freeSecs s.vm).card := by
  have hload : kernelLoadAddr = 0x10000000 := rfl
  have hproc : procLoadAddr = 0x80000000 := rfl
  obtain ⟨s₁, hinit⟩ := execInitTable_ok s₀
  obtain ⟨h₁, hcursor, hfree⟩ := h.heap.execInitTable hinit
  obtain ⟨g, hg, hgproc⟩ : ∃ g, s₁.vm.frame = some g ∧ g.proc = ⟨0, 0, childAsid⟩ := by
    cases hinit
    exact ⟨_, rfl, rfl⟩
  have hfits := h.fits
  rw [← hcursor] at hfits
  rw [← hfree] at hroom
  obtain ⟨j, s, w, v, cksum, hopen, hext, -, hgrown, hvm, hs, hholds, hj⟩ :=
    execOpen_run disk fs size d cs fuel h₁ h.chain h.cluster h.fuel h.alloc h.covers h.below hfits (by omega)
  rw [h.bytes] at hholds
  have hsame := shareAll_same v (filePages d.nbytes)
  have hlen : bs.length = d.nbytes := by
    rw [← h.bytes, List.length_take, length_chainBytes, ← Nat.mul_assoc, h.alloc]
    exact Nat.min_eq_left h.covers
  have hcovers := h.covers
  refine ⟨cksum, s, ?_, ?_, ?_, ?_⟩
  · rw [bind_ok hinit]
    exact hopen
  · rw [← hlen] at hvm
    exact fileOpen_of_shared hs.idle.ttbr (by omega) hholds hgrown hvm (by omega) (by omega)
  · have hw : w.frame = some g := hext.frame.trans hg
    refine ⟨{ g with file := some ⟨kernelLoadAddr, cksum, n, d.nbytes⟩ }, ?_, hgproc⟩
    rw [hvm, hsame.frame, hgrown.frame]
    simp [Vm.openFile, hw]
  · have hheap := hext.room
    have hwindow := hgrown.room
    have hone : 1 ≤ n := by
      rw [← h.alloc]
      exact Nat.mul_pos (Nat.mul_pos (List.length_pos_iff.mpr h.chain.ne_nil) h.cluster) (by omega)
    have hpages := length_windowPages n hone (by omega)
    have hshared : freeSecs s.vm = freeSecs v := by
      unfold freeSecs
      rw [hvm, hsame.paddrToAsidMap]
    change (freeSecs v).card = (freeSecs w).card - (pageRange kernelLoadAddr n).length at hwindow
    rw [hshared]
    omega

/-- An open file that `elf_load` accepts is brought to its jump. -/
theorem FileOpen.loaded (sbrks : List ℕ) (h : FileOpen bs s) (hloadable : LoadableFile bs) {g : ExecFrame}
    (hg : s.vm.frame = some g) (hgproc : g.proc = ⟨0, 0, childAsid⟩)
    (hp : (fileView bs).elfLoad kernelLoadAddr n = p) (haccepted : p.result = .ok (some instrLst))
    (hroom : (rangePages ((fileView bs).loadRanges kernelLoadAddr)).length ≤ (freeSecs s.vm).card) :
    ∃ (t u : Machine) (a : ℕ),
      (elfLoad kernelLoadAddr n childAsid).run s = .ok (some instrLst) t ∧
      instrLst = (fileView bs).loadInstrs kernelLoadAddr ++ [.jump a] ∧
      (do
        setProcidTtbr0 childAsid childAsid
        execLoadInstrs sbrks ((fileView bs).loadInstrs kernelLoadAddr) : Kern Unit).run t = .ok () u ∧
      AtJump bs (p.heapStart 0) s u := by
  have hfits := h.fits
  have hload : kernelLoadAddr = 0x10000000 := rfl
  have hproc : procLoadAddr = 0x80000000 := rfl
  have hplan : s.view.elfLoad kernelLoadAddr n = p := by
    rw [← hp]
    exact elfLoad_fileView h.holds n (by simp [hp, haccepted])
  have hresult : (s.view.elfLoad kernelLoadAddr n).result = .ok (some instrLst) := by rwa [hplan]
  have hresult' : ((fileView bs).elfLoad kernelLoadAddr n).result = .ok (some instrLst) := by rwa [hp]
  have hranges : s.view.loadRanges kernelLoadAddr = (fileView bs).loadRanges kernelLoadAddr := by
    rw [← (View.of_elfLoad_ok hresult).1, hplan, ← hp, (View.of_elfLoad_ok hresult').1]
  obtain ⟨t, hrun, hchild, ⟨f, hf, hfproc⟩, hmem⟩ := elfLoad_grown h.ttbr hg hresult (by rwa [hranges])
  rw [hplan, hgproc] at hfproc
  rw [hranges] at hchild
  obtain ⟨a, ha⟩ := (View.of_elfLoad_ok hresult').2
  obtain ⟨t', hswitch, hasid, httbr, htable, howner, hframe', hmem'⟩ : ∃ t' : Machine,
      (setProcidTtbr0 childAsid childAsid).run t = .ok () t' ∧ t'.vm.asid = childAsid ∧ t'.vm.ttbr = childAsid ∧
        t'.vm.table = t.vm.table ∧ t'.vm.paddrToAsidMap = t.vm.paddrToAsidMap ∧ t'.vm.frame = t.vm.frame ∧
        t'.mem = t.mem :=
    ⟨_, rfl, rfl, rfl, rfl, rfl, rfl, rfl⟩
  have hshown := h.toShown hchild hmem hloadable.clear httbr htable howner hmem'
  obtain ⟨u, hloads, himaged⟩ := execLoadInstrs_imaged sbrks hshown (hloadable.placed (by omega))
  have howns := (hshown.step himaged).owns
  rw [himaged.vm, httbr] at howns
  have hsame : freeSecs u.vm = freeSecs t.vm := by
    unfold freeSecs
    rw [himaged.vm, howner]
  refine ⟨t, u, a, hrun, ha, ?_, ?_, ?_, ?_, ?_, ?_, ?_, ?_, ?_⟩
  · rw [bind_ok hswitch]
    exact hloads
  · apply hloadable.image (by omega) hshown himaged
    intro pa hpa
    rw [himaged.other pa, hmem', hmem]
    intro page hpage heq
    rw [httbr, htable] at heq
    rw [← heq] at hpa
    exact hpa (hchild.fresh page hpage)
  · rw [himaged.vm]
    exact hasid
  · rw [himaged.vm]
    exact httbr
  · refine ⟨f, ?_, hfproc⟩
    rw [himaged.vm, hframe']
    exact hf
  · rwa [himaged.vm]
  · rw [himaged.vm, htable]
    exact hchild.fresh
  · intro sec hsec
    rw [← mem_freeSecs, hsame, mem_freeSecs] at hsec
    exact hchild.free hsec
  · rw [hsame]
    exact hchild.room

/-- A file that `elf_load` accepts is opened and loaded, if there is RAM for it, and when the program is started
its image is in memory. -/
theorem exec_image (sbrks : List ℕ) (h : Readable disk fuel fs size d cs bs e n s₀) (hloadable : LoadableFile bs)
    (haccepted : ((fileView bs).elfLoad kernelLoadAddr d.nbytes).result = .ok (some instrLst))
    (hroom : 2 * (n / 2 ^ 20 + 1) + (rangePages ((fileView bs).loadRanges kernelLoadAddr)).length ≤
      (freeSecs s₀.vm).card) :
    ∃ (file : PiFile) (s t u : Machine) (a : ℕ),
      (do execInitTable; execOpen disk fuel fs d).run s₀ = .ok file s ∧
      (elfLoad file.data file.nData childAsid).run s = .ok (some instrLst) t ∧
      instrLst = (fileView bs).loadInstrs kernelLoadAddr ++ [.jump a] ∧
      (do
        setProcidTtbr0 childAsid childAsid
        execLoadInstrs sbrks ((fileView bs).loadInstrs kernelLoadAddr) : Kern Unit).run t = .ok () u ∧
      ImageLoaded bs s u := by
  obtain ⟨cksum, s, hopen, hfile, ⟨g, hg, hgproc⟩, hleft⟩ := h.opened hroom
  obtain ⟨t, u, a, hload, ha, hrun, hjump⟩ := hfile.loaded sbrks hloadable hg hgproc rfl haccepted hleft
  exact ⟨⟨kernelLoadAddr, cksum, n, d.nbytes⟩, s, t, u, a, hopen, hload, ha, hrun, hjump.toImageLoaded⟩

/-- Both are in the section at 4 MiB. -/
def smallProgram : List UInt8 := bssSegment 0x400000 16 0x400100 16

theorem length_smallProgram : smallProgram.length = 215 := length_bssSegment _ _ _ _

def smallInstrs : List LoadInstr := [.copy 0x400000 kernelLoadAddr 16, .zero 0x400100 16, .jump 0x400000]

theorem elfLoad_smallProgram : (fileView smallProgram).elfLoad kernelLoadAddr 215 =
    .map 0x400000 16 (.map 0x400100 16 (.setHeapStart 0x400110 (.ret (some smallInstrs)))) := by
  rfl

theorem loadRanges_smallProgram :
    (fileView smallProgram).loadRanges kernelLoadAddr = [(0x400000, 16), (0x400100, 16)] := by
  decide +kernel

theorem smallProgram_loadable : LoadableFile smallProgram := by
  constructor
  · decide +kernel
  · rw [loadRanges_smallProgram]
    simp only [List.mem_cons, List.not_mem_nil, or_false, forall_eq_or_imp, forall_eq]
    exact ⟨⟨by decide, by decide⟩, ⟨by decide, by decide⟩⟩
  · rw [loadRanges_smallProgram]
    decide +kernel

theorem smallProgram_readable : ∃ s₀, Readable (sectorDisk smallProgram) 2 sectorFs ⟨8, by decide⟩
    (sectorFile smallProgram) [5] smallProgram 5 512 s₀ ∧ (freeSecs s₀.vm).card = 507 := by
  obtain ⟨s₀, -, hheap, hfree, hcursor, -⟩ := notmainInit_run powerOn rfl
  have hsize : smallProgram.length ≤ 512 := by
    rw [length_smallProgram]
    decide
  have hchain : Chain sectorFs ⟨8, by decide⟩ 5 [5] := .last (by omega) (by decide) (by decide)
  refine ⟨s₀, ⟨hheap, hchain, by decide, by decide, rfl, hsize, by decide, ?_, chainBytes_sectorDisk hsize⟩, ?_⟩
  · rw [hcursor]
    decide
  · rw [hfree, Nat.card_Ico]
    rfl

theorem exec_image_smallProgram : ∃ (s₀ s t u : Machine) (file : PiFile) (a : ℕ),
    (do
      execInitTable
      execOpen (sectorDisk smallProgram) 2 sectorFs (sectorFile smallProgram)).run s₀ = .ok file s ∧
    (elfLoad file.data file.nData childAsid).run s = .ok (some smallInstrs) t ∧
    smallInstrs = (fileView smallProgram).loadInstrs kernelLoadAddr ++ [.jump a] ∧
    (do
      setProcidTtbr0 childAsid childAsid
      execLoadInstrs [] ((fileView smallProgram).loadInstrs kernelLoadAddr) : Kern Unit).run t = .ok () u ∧
    ImageLoaded smallProgram s u := by
  obtain ⟨s₀, hreadable, hfree⟩ := smallProgram_readable
  have haccepted : ((fileView smallProgram).elfLoad kernelLoadAddr smallProgram.length).result =
      .ok (some smallInstrs) := by
    rw [length_smallProgram, elfLoad_smallProgram]
    rfl
  obtain ⟨file, s, t, u, a, hrun⟩ := exec_image [] hreadable smallProgram_loadable haccepted (by
    rw [loadRanges_smallProgram, hfree]
    decide)
  exact ⟨s₀, s, t, u, file, a, hrun⟩

end Start
end SimplePiOS.Kernel
