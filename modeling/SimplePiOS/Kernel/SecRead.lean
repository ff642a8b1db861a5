import SimplePiOS.Kernel.HeapLimit

/-! `sec_read`: the block it asks for against the sectors it has read into it. -/
namespace SimplePiOS.Kernel
open Lib Libpi

/-- The bytes `sec_read` asks `kmalloc` for, a product of 32-bit words. -/
def secReadBytes (nsec : ℕ) : ℕ := 512 * nsec % 2 ^ 32

/-- A memory that notes the addresses of its stores, the last one first. -/
def recorder : Bus (List ℕ) where
  load _ := pure 0
  store a _ := modify (a :: ·)

/-- The addresses `sd_readblock` stores at, the last one first. -/
def storedAddrs (disk : Disk) (lba buf num : ℕ) : List ℕ :=
  endState ((sdReadblock recorder disk lba buf num).run [])

/-- `sd_readblock` keeps to the block `sec_read` got for it. -/
structure ReadFits (disk : Disk) (lba data nsec : ℕ) : Prop where
  asked : (storedAddrs disk lba data nsec).length ≤ secReadBytes nsec
  rounded : (storedAddrs disk lba data nsec).length ≤ roundup (secReadBytes nsec) 8
  within : ∀ a ∈ storedAddrs disk lba data nsec, data ≤ a ∧ a < data + secReadBytes nsec

section Fits
variable (disk : Disk) (lba data nsec : ℕ)

theorem secRead_eq {σ : Type} (sys : Platform σ) (fuel : ℕ) :
    secRead sys disk fuel lba nsec = (do
      let data ← kmalloc sys fuel (secReadBytes nsec)
      let result ← sdReadblock sys.toBus disk lba data nsec
      assert (result = nsec * 512 % 2 ^ 32) "failed to read block"
      return data) := rfl

theorem run_store_recorder (a : ℕ) (b : UInt8) (l : List ℕ) :
    (recorder.store a b).run l = .ok () (a :: l) := rfl

/-- A loop of single stores notes them all. -/
theorem forM_recorder (f : ℕ → UInt8) (buf m : ℕ) (l : List ℕ) :
    (forM (List.range m) fun d => recorder.store (buf + d) (f d)).run l =
      .ok ⟨⟩ (((List.range m).map (buf + ·)).reverse ++ l) := by
  induction m with
  | zero => rfl
  | succ m ih =>
    rw [List.range_succ, List.forM_append, bind_ok ih, List.forM_cons,
      bind_ok (run_store_recorder _ _ _)]
    simp only [List.map_append, List.map_cons, List.map_nil, List.reverse_append]
    rfl

theorem forM_readSector_recorder (m : ℕ) (l : List ℕ) :
    (forM (List.range m) fun c => readSector recorder (disk (lba + c)) (data + 512 * c)).run l =
      .ok ⟨⟩ (((List.range (512 * m)).map (data + ·)).reverse ++ l) := by
  induction m with
  | zero => rfl
  | succ m ih =>
    have hsector := forM_recorder (disk (lba + m)) (data + 512 * m) 512
      (((List.range (512 * m)).map (data + ·)).reverse ++ l)
    have hmap : (List.range 512).map (data + 512 * m + ·) =
        ((List.range 512).map (512 * m + ·)).map (data + ·) := by
      rw [List.map_map]
      apply List.map_congr_left
      intro d _
      exact Nat.add_assoc data (512 * m) d
    rw [List.range_succ, List.forM_append, bind_ok ih, List.forM_cons]
    unfold readSector
    rw [bind_ok hsector, hmap, Nat.mul_succ, List.range_add, List.map_append,
      List.reverse_append, List.append_assoc]
    rfl

/-- At least one sector is stored, whatever the number asked for. -/
theorem storedAddrs_eq : storedAddrs disk lba data nsec =
    ((List.range (512 * max 1 nsec)).map (data + ·)).reverse := by
  have hnum : (if nsec < 1 then 1 else nsec) = max 1 nsec := by
    split
    all_goals omega
  have hloop := forM_readSector_recorder disk lba data (max 1 nsec) []
  unfold storedAddrs sdReadblock
  dsimp only
  rw [hnum, bind_ok hloop, List.append_nil]
  rfl

theorem length_storedAddrs : (storedAddrs disk lba data nsec).length = 512 * max 1 nsec := by
  rw [storedAddrs_eq, List.length_reverse, List.length_map, List.length_range]

theorem mem_storedAddrs {a : ℕ} : a ∈ storedAddrs disk lba data nsec ↔
    data ≤ a ∧ a < data + 512 * max 1 nsec := by
  rw [storedAddrs_eq, List.mem_reverse, List.mem_map]
  constructor
  · intro h
    obtain ⟨i, hi, rfl⟩ := h
    rw [List.mem_range] at hi
    omega
  · intro h
    refine ⟨a - data, List.mem_range.mpr ?_, ?_⟩
    all_goals omega

/-- A whole number of sectors needs no rounding. -/
theorem roundup_secReadBytes : roundup (secReadBytes nsec) 8 = secReadBytes nsec := by
  unfold roundup add32 secReadBytes
  omega

theorem readFits_of_length (h : 512 * max 1 nsec ≤ secReadBytes nsec) :
    ReadFits disk lba data nsec := by
  have hlen := length_storedAddrs disk lba data nsec
  constructor
  · rw [hlen]
    exact h
  · rw [hlen, roundup_secReadBytes]
    exact h
  · intro a ha
    rw [mem_storedAddrs] at ha
    omega

/-- The sectors fit from one sector on, as long as their bytes are counted without a carry. -/
theorem readFits_iff (nsec : BitVec 32) :
    ReadFits disk lba data nsec.toNat ↔ 1 ≤ nsec.toNat ∧ nsec.toNat < 2 ^ 23 := by
  constructor
  · intro h
    have hasked := h.asked
    rw [length_storedAddrs] at hasked
    unfold secReadBytes at hasked
    omega
  · intro h
    apply readFits_of_length
    unfold secReadBytes
    omega

/-- No sector: one is stored into a block of no bytes. The least number whose bytes need a
33rd bit: all of them are, into such a block again. -/
theorem readFits_not : ¬ ReadFits (fun _ _ => 0) 0 0 (0 : BitVec 32).toNat ∧
    ¬ ReadFits (fun _ _ => 0) 0 0 (0x800000 : BitVec 32).toNat := by
  constructor
  · intro h
    have hasked := h.asked
    rw [length_storedAddrs] at hasked
    exact absurd hasked (by decide)
  · intro h
    have hasked := h.asked
    rw [length_storedAddrs] at hasked
    exact absurd hasked (by decide)

end Fits

/-- `t` is `s` with the bytes `bs` in a new block of the kernel's heap. -/
structure Allocated (top : ℕ) (s t : Machine) (bs : List UInt8) : Prop where
  grows : CanGrowTo top t
  cursor : t.cursor = s.cursor + bs.length
  holds : t.Holds s.cursor bs
  kept : ∀ a, 2 ^ 20 ≤ a → a < s.cursor → t.view a = s.view a

section SecRead
variable {s t : Machine} {top lba m fuel a : ℕ} {disk : Disk}

/-- Sectors that fit in the RAM end up in a new block. -/
theorem secRead_run (disk : Disk) (lba : ℕ) (h : CanGrowTo top s) (hm : 1 ≤ m)
    (hroom : s.cursor + 512 * m ≤ top * 2 ^ 20) (hfuel : 2 ≤ fuel) :
    ∃ t, (secRead kernel disk fuel lba m).run s = .ok s.cursor t ∧
      Allocated top s t (sectorBytes disk lba m) := by
  have hlimit := h.limit
  have hphys : nPhysPages = 512 := rfl
  have hbytes : secReadBytes m = 512 * m := Nat.mod_eq_of_lt (by omega)
  have hlow := h.lo
  obtain ⟨t, halloc, hgrows, hcur, hview⟩ := h.kmalloc (n := 512 * m) (by omega) hroom hfuel
  have howns := hgrows.owns
  have hrange : ∀ i < 512 * m, (s.cursor + i) / 2 ^ 20 ∈ {p | 1 ≤ p ∧ p * 2 ^ 20 < t.cursor} := by
    intro i hi
    change 1 ≤ (s.cursor + i) / 2 ^ 20 ∧ (s.cursor + i) / 2 ^ 20 * 2 ^ 20 < t.cursor
    omega
  have hbacked : Backed t.vm s.cursor (512 * m) := howns.backed (by omega) hrange
  obtain ⟨u, hread, hst⟩ := sdReadblock_stored (o := 0) (mmuBlock t _ _ hbacked) disk lba hm
    (.refl t _ _) (by omega)
  have hu : Within t s.cursor (512 * m) u := hst.inv
  refine ⟨u, ?_, ?_⟩
  · have hread' : (sdReadblock kernel.toBus disk lba s.cursor m).run t = _ := hread
    rw [secRead_eq, hbytes, bind_ok halloc, bind_ok hread', bind_ok (run_assert rfl _ _)]
    rfl
  · constructor
    · exact hgrows.congr hu.vm hu.heap
    · rw [Machine.cursor_congr hu.vm hu.heap, hcur, length_sectorBytes, Nat.mul_comm]
    · intro i b hb
      have hi : i < 512 * m := by
        have hlen := (List.getElem?_eq_some_iff.mp hb).1
        rwa [length_sectorBytes, Nat.mul_comm] at hlen
      have hget : u.mem (t.vm.phys (s.cursor + i)) = _ := hst.get_eq i hi
      unfold Machine.view
      rw [hu.vm, Nat.mod_eq_of_lt (by omega), translate_private (hbacked.priv i hi)]
      change some (u.mem (t.vm.phys (s.cursor + i))) = _
      rw [hget]
      simp [List.getD_eq_getElem?_getD, hb]
    · intro a hlo hhi
      have hpage : a / 2 ^ 20 ∈ {p | 1 ≤ p ∧ p * 2 ^ 20 < t.cursor} := by
        change 1 ≤ a / 2 ^ 20 ∧ a / 2 ^ 20 * 2 ^ 20 < t.cursor
        omega
      have hsame : u.view a = t.view a :=
        hu.view_eq howns hrange (by omega) hpage (.inl hhi)
      exact hsame.trans (hview a hlo hhi)

theorem readSector_valid {sector : ℕ → UInt8} {buf : ℕ} {u : Unit}
    (hrun : (readSector mmu sector buf).run s = .ok u t) :
    s.vm.SameTables t.vm ∧ ∀ d < 512, (s.vm.fldAt ((buf + d) % 2 ^ 32)).Valid := by
  have hstored := of_forM_ok (I := fun w : Machine => s.vm.SameTables w.vm)
    (P := fun d => (s.vm.fldAt ((buf + d) % 2 ^ 32)).Valid) (by
      intro d _ w w' _ hw hstore
      obtain ⟨hsame, hvalid⟩ := store_valid hstore
      rw [hw.fldAt] at hvalid
      exact ⟨hw.trans hsame, hvalid⟩) ⟨rfl, rfl⟩ hrun
  exact ⟨hstored.1, fun d hd => hstored.2 d (List.mem_range.mpr hd)⟩

/-- Sectors are stored to mapped pages only, one sector at least. -/
theorem sdReadblock_valid {buf num r : ℕ}
    (hrun : (sdReadblock mmu disk lba buf num).run s = .ok r t) :
    r = max 1 num * 512 % 2 ^ 32 ∧
      ∀ i < 512 * max 1 num, (s.vm.fldAt ((buf + i) % 2 ^ 32)).Valid := by
  have hnum : (if num < 1 then 1 else num) = max 1 num := by
    split
    all_goals omega
  unfold sdReadblock at hrun
  dsimp only at hrun
  rw [hnum] at hrun
  obtain ⟨u, w, hloop, hret⟩ := of_bind_ok hrun
  have hstored := of_forM_ok (I := fun w : Machine => s.vm.SameTables w.vm)
    (P := fun c => ∀ d < 512, (s.vm.fldAt ((buf + 512 * c + d) % 2 ^ 32)).Valid) (by
      intro c _ w w' _ hw hsector
      obtain ⟨hsame, hvalid⟩ := readSector_valid hsector
      refine ⟨hw.trans hsame, ?_⟩
      intro d hd
      rw [← hw.fldAt]
      exact hvalid d hd) ⟨rfl, rfl⟩ hloop
  refine ⟨(EStateM.Result.ok.inj hret).1.symm, ?_⟩
  intro i hi
  have hsector := hstored.2 (i / 512) (List.mem_range.mpr (by omega)) (i % 512)
    (Nat.mod_lt _ (by omega))
  rwa [Nat.add_assoc, Nat.div_add_mod] at hsector

/-- Sectors that were read did fit in the RAM, and there was one at least. -/
theorem of_secRead_ok (h : CanGrowTo top s) (hfuel : 2 ≤ fuel)
    (hrun : (secRead kernel disk fuel lba m).run s = .ok a t) :
    1 ≤ m ∧ s.cursor + 512 * m ≤ top * 2 ^ 20 := by
  have hlimit := h.limit
  have hphys : nPhysPages = 512 := rfl
  have hgrow := h
  obtain ⟨e, hat, hcard, hbehind⟩ := h
  have hhi := hat.hi
  have hend := hat.limit
  rw [secRead_eq] at hrun
  obtain ⟨data, u, halloc, hrest⟩ := of_bind_ok hrun
  obtain ⟨r, w, hread, hcheck⟩ := of_bind_ok hrest
  obtain ⟨_, w', hassert, -⟩ := of_bind_ok hcheck
  have hread' : (sdReadblock mmu disk lba data m).run u = .ok r w := hread
  obtain ⟨hr, hvalid⟩ := sdReadblock_valid hread'
  have hres := (of_assert_ok hassert).1
  have hbytes : secReadBytes m % 8 = 0 ∧ secReadBytes m + 8 ≤ 2 ^ 32 := by
    unfold secReadBytes
    omega
  have hone : 1 ≤ m := by
    by_contra hzero
    have hm : m = 0 := by omega
    rw [hr, hm] at hres
    exact absurd hres (by decide)
  refine ⟨hone, ?_⟩
  -- a block that wraps around would reach the page behind the devices
  have hstop : u.vm.ttbr = kernelAsid → ¬ (u.vm.table kernelAsid behindDevices).Valid →
      ∀ i < 512 * m, (data + i) % 2 ^ 32 ≠ behindDevices * 2 ^ 20 := by
    intro httbr hnot i hi haddr
    have hfld := hvalid i (by omega)
    have hpage : behindDevices * 2 ^ 20 / 2 ^ 20 = behindDevices := by decide
    rw [haddr] at hfld
    unfold Vm.fldAt at hfld
    rw [httbr, hpage] at hfld
    exact hnot hfld
  have hdevices : behindDevices * 2 ^ 20 = 0x20400000 := by decide
  rw [hdevices] at hstop
  rcases of_kmalloc_ok hat hbytes.1 hbytes.2 halloc with hfits | ⟨hwrap, hdata, hvm⟩
  · rw [hcard] at hfits
    obtain ⟨u', halloc', hgrows, -, -⟩ := hgrow.kmalloc hbytes.1 hfits hfuel
    rw [halloc] at halloc'
    obtain ⟨hdata, rfl⟩ := EStateM.Result.ok.inj halloc'
    obtain ⟨e', hat', hcard', hbehind'⟩ := hgrows
    by_cases hshort : 512 * m < 2 ^ 32
    · have hsame : secReadBytes m = 512 * m := Nat.mod_eq_of_lt hshort
      rwa [hsame] at hfits
    · have hbad := hstop hat'.idle.ttbr hbehind' (0x20400000 - s.cursor) (by omega)
      rw [hdata] at hbad
      omega
  · rw [hvm] at hstop
    have hbad := hstop hat.idle.ttbr hbehind (0x20400000 - s.cursor) (by
      unfold secReadBytes at hwrap
      omega)
    rw [hdata] at hbad
    omega

end SecRead
end SimplePiOS.Kernel
