import SimplePiOS.Kernel.ExecRun

/-! The 32-bit words behind the first level descriptors, and what the table walk makes of them. -/
namespace SimplePiOS.Kernel
open Lib Libpi

/-- The bits of a `fld_t`: the first field is in the lowest ones. -/
def Fld.word (f : Fld) : BitVec 32 :=
  (f.secBaseAddr ++ f.sbz1 ++ f.super ++ f.nG ++ f.S ++ f.APX ++ f.TEX ++ f.AP ++ f.IMP ++ f.domain ++
    f.XN ++ f.C ++ f.B ++ f.tag).cast rfl

/-- The first level of the table walk: a section, a supersection, or a second level table,
whose part of the walk is a parameter. -/
def walkWord (coarse : BitVec 32 → BitVec 32 → Option (BitVec 32)) (d va : BitVec 32) :
    Option (BitVec 32) :=
  if d.extractLsb' 0 2 = 2 then
    if d.getLsbD 18 then some ((d.extractLsb' 24 8 ++ va.extractLsb' 0 24).cast rfl)
    else some ((d.extractLsb' 20 12 ++ va.extractLsb' 0 20).cast rfl)
  else if d.extractLsb' 0 2 = 1 then coarse d va
  else none

/-- Translation through a table. -/
def translateBy (coarse : BitVec 32 → BitVec 32 → Option (BitVec 32)) (table : ℕ → Fld)
    (va : BitVec 32) : Option (BitVec 32) :=
  walkWord coarse (table (va.toNat / 2 ^ 20)).word va

section Word
variable (f : Fld)

theorem word_secBaseAddr : f.word.extractLsb' 20 12 = f.secBaseAddr := by
  apply BitVec.eq_of_getLsbD_eq
  intro i hi
  rw [BitVec.getLsbD_extractLsb']
  unfold Fld.word
  simp (disch := omega) only [BitVec.getLsbD_cast, BitVec.getLsbD_append, hi, if_neg, decide_true,
    Bool.true_and]
  congr 1
  omega

theorem word_tag : f.word.extractLsb' 0 2 = f.tag := by
  apply BitVec.eq_of_getLsbD_eq
  intro i hi
  rw [BitVec.getLsbD_extractLsb']
  unfold Fld.word
  simp only [BitVec.getLsbD_cast, BitVec.getLsbD_append, hi, decide_true, Bool.true_and,
    Nat.zero_add, if_true]

theorem word_super : f.word.getLsbD 18 = f.super.getLsbD 0 := by
  unfold Fld.word
  simp only [BitVec.getLsbD_cast, BitVec.getLsbD_append]
  rfl

end Word

section Section
variable {coarse : BitVec 32 → BitVec 32 → Option (BitVec 32)} {table : ℕ → Fld} {flags : MapFlags}

/-- A section descriptor replaces the upper 12 bits. -/
theorem walkWord_sectionFld (pa va : BitVec 32) : walkWord coarse (sectionFld pa.toNat flags).word va =
    some (BitVec.ofNat 32 (pa.toNat / 2 ^ 20 * 2 ^ 20 + va.toNat % 2 ^ 20)) := by
  have htag : (sectionFld pa.toNat flags).word.extractLsb' 0 2 = 2 := word_tag _
  have hsuper : (sectionFld pa.toNat flags).word.getLsbD 18 = false := by
    rw [word_super]
    simp [sectionFld]
  have hbase : (sectionFld pa.toNat flags).word.extractLsb' 20 12 =
      BitVec.ofNat 12 (pa.toNat / 2 ^ 20) := word_secBaseAddr _
  have hpa := pa.isLt
  unfold walkWord
  rw [if_pos htag, hsuper, if_neg Bool.false_ne_true, hbase]
  congr 1
  apply BitVec.eq_of_toNat_eq
  rw [BitVec.toNat_cast, BitVec.toNat_append, BitVec.toNat_ofNat, BitVec.toNat_ofNat,
    BitVec.extractLsb'_toNat, Nat.shiftRight_zero]
  have hlow : va.toNat % 2 ^ 20 < 2 ^ 20 := Nat.mod_lt _ (by decide)
  rw [← Nat.shiftLeft_add_eq_or_of_lt hlow, Nat.shiftLeft_eq]
  omega

/-- The table after a call, section by section. -/
theorem translateBy_update (pa va a : BitVec 32) :
    translateBy coarse (Function.update table (va.toNat / 2 ^ 20) (sectionFld pa.toNat flags)) a =
      if a.toNat / 2 ^ 20 = va.toNat / 2 ^ 20 then
        some (BitVec.ofNat 32 (pa.toNat / 2 ^ 20 * 2 ^ 20 + a.toNat % 2 ^ 20))
      else translateBy coarse table a := by
  unfold translateBy
  by_cases h : a.toNat / 2 ^ 20 = va.toNat / 2 ^ 20
  · rw [if_pos h, h, Function.update_self, walkWord_sectionFld]
  · rw [if_neg h, Function.update_of_ne h]

/-- The section at `va` translates to the one at `pa`, and the rest as in the table before. -/
structure MapsAsAsked (coarse : BitVec 32 → BitVec 32 → Option (BitVec 32)) (before after : ℕ → Fld)
    (va pa : BitVec 32) : Prop where
  inside : ∀ k < 2 ^ 20, translateBy coarse after (va + BitVec.ofNat 32 k) =
    some (pa + BitVec.ofNat 32 k)
  outside : ∀ a, (∀ k < 2 ^ 20, a ≠ va + BitVec.ofNat 32 k) →
    translateBy coarse after a = translateBy coarse before a

/-- Both addresses are aligned, or both are off by as much, and the table already maps what they
are off by: the start of their sections, and the start of the ones behind. -/
structure AlignedOrMapped (coarse : BitVec 32 → BitVec 32 → Option (BitVec 32)) (table : ℕ → Fld)
    (va pa : BitVec 32) : Prop where
  offset : va.toNat % 2 ^ 20 = pa.toNat % 2 ^ 20
  start : ∀ j < va.toNat % 2 ^ 20,
    translateBy coarse table (BitVec.ofNat 32 (va.toNat / 2 ^ 20 * 2 ^ 20 + j)) =
      some (BitVec.ofNat 32 (pa.toNat / 2 ^ 20 * 2 ^ 20 + j))
  next : ∀ j < va.toNat % 2 ^ 20,
    translateBy coarse table (BitVec.ofNat 32 ((va.toNat / 2 ^ 20 + 1) * 2 ^ 20 + j)) =
      some (BitVec.ofNat 32 ((pa.toNat / 2 ^ 20 + 1) * 2 ^ 20 + j))

/-- An address of the section at `va`, by its distance from `va`. -/
theorem toNat_add (va : BitVec 32) (k : ℕ) :
    (va + BitVec.ofNat 32 k).toNat = (va.toNat + k) % 2 ^ 32 := by
  rw [BitVec.toNat_add, BitVec.toNat_ofNat, Nat.add_mod_mod]

/-- The addresses from the start of the section up to `va` are left out, if `va` is inside. -/
theorem start_outside {va : BitVec 32} {j : ℕ} (hj : j < va.toNat % 2 ^ 20) :
    ∀ k < 2 ^ 20, BitVec.ofNat 32 (va.toNat / 2 ^ 20 * 2 ^ 20 + j) ≠ va + BitVec.ofNat 32 k := by
  intro k hk heq
  have hva := va.isLt
  have hnat := congrArg BitVec.toNat heq
  rw [toNat_add, BitVec.toNat_ofNat] at hnat
  omega

/-- The start of the next section is part of the range, if `va` is inside. -/
theorem next_inside {va : BitVec 32} {j : ℕ} :
    BitVec.ofNat 32 ((va.toNat / 2 ^ 20 + 1) * 2 ^ 20 + j) =
      va + BitVec.ofNat 32 (2 ^ 20 - va.toNat % 2 ^ 20 + j) := by
  have hva := va.isLt
  apply BitVec.eq_of_toNat_eq
  rw [toNat_add, BitVec.toNat_ofNat]
  omega

theorem mapsAsAsked_iff {va pa : BitVec 32} :
    MapsAsAsked coarse table (Function.update table (va.toNat / 2 ^ 20) (sectionFld pa.toNat flags))
      va pa ↔ AlignedOrMapped coarse table va pa := by
  have hva := va.isLt
  have hpa := pa.isLt
  constructor
  · intro h
    have hoffset : va.toNat % 2 ^ 20 = pa.toNat % 2 ^ 20 := by
      have hzero := h.inside 0 (by decide)
      have hself : va + BitVec.ofNat 32 0 = va := BitVec.add_zero va
      rw [hself, translateBy_update, if_pos rfl, Option.some.injEq] at hzero
      have hnat := congrArg BitVec.toNat hzero
      rw [toNat_add, BitVec.toNat_ofNat] at hnat
      omega
    refine ⟨hoffset, ?_, ?_⟩
    · intro j hj
      have hout := h.outside _ (start_outside hj)
      have hsec : (BitVec.ofNat 32 (va.toNat / 2 ^ 20 * 2 ^ 20 + j)).toNat =
          va.toNat / 2 ^ 20 * 2 ^ 20 + j := by
        rw [BitVec.toNat_ofNat]
        exact Nat.mod_eq_of_lt (by omega)
      have hpage : (va.toNat / 2 ^ 20 * 2 ^ 20 + j) / 2 ^ 20 = va.toNat / 2 ^ 20 := by omega
      have hrest : (va.toNat / 2 ^ 20 * 2 ^ 20 + j) % 2 ^ 20 = j := by omega
      rw [translateBy_update, hsec, if_pos hpage, hrest] at hout
      exact hout.symm
    · intro j hj
      have hin := h.inside (2 ^ 20 - va.toNat % 2 ^ 20 + j) (by omega)
      rw [← next_inside, translateBy_update, if_neg (by rw [BitVec.toNat_ofNat]; omega)] at hin
      rw [hin, Option.some.injEq]
      apply BitVec.eq_of_toNat_eq
      rw [toNat_add, BitVec.toNat_ofNat]
      omega
  · intro h
    have hoffset := h.offset
    constructor
    · intro k hk
      rw [translateBy_update]
      by_cases hsec : (va + BitVec.ofNat 32 k).toNat / 2 ^ 20 = va.toNat / 2 ^ 20
      · rw [if_pos hsec, Option.some.injEq]
        rw [toNat_add] at hsec ⊢
        apply BitVec.eq_of_toNat_eq
        rw [toNat_add, BitVec.toNat_ofNat]
        omega
      · rw [if_neg hsec]
        rw [toNat_add] at hsec
        have hj : va.toNat % 2 ^ 20 + k - 2 ^ 20 < va.toNat % 2 ^ 20 := by omega
        have hnext := h.next _ hj
        have hk' : 2 ^ 20 - va.toNat % 2 ^ 20 + (va.toNat % 2 ^ 20 + k - 2 ^ 20) = k := by omega
        rw [next_inside, hk'] at hnext
        rw [hnext, Option.some.injEq]
        apply BitVec.eq_of_toNat_eq
        rw [toNat_add, BitVec.toNat_ofNat]
        omega
    · intro a ha
      rw [translateBy_update]
      by_cases hsec : a.toNat / 2 ^ 20 = va.toNat / 2 ^ 20
      · have hbefore : a.toNat % 2 ^ 20 < va.toNat % 2 ^ 20 := by
          by_contra hge
          apply ha (a.toNat - va.toNat) (by omega)
          apply BitVec.eq_of_toNat_eq
          rw [toNat_add]
          omega
        have hstart := h.start _ hbefore
        have hself : BitVec.ofNat 32 (va.toNat / 2 ^ 20 * 2 ^ 20 + a.toNat % 2 ^ 20) = a := by
          apply BitVec.eq_of_toNat_eq
          rw [BitVec.toNat_ofNat]
          omega
        rw [hself] at hstart
        rw [if_pos hsec, hstart]
      · rw [if_neg hsec]

end Section

section Call
variable {s t : Machine}

/-- A call that passes its checks writes one descriptor. -/
theorem mmuMapSection_table {pt : Asid} {va pa : ℕ} {flags : MapFlags}
    (h : (mmuMapSection pt va pa flags).run s = .ok () t) :
    t.vm.table pt = Function.update (s.vm.table pt) (va / 2 ^ 20) (sectionFld pa flags) := by
  let After : Vm → Prop := fun v =>
    v.table pt = Function.update (s.vm.table pt) (va / 2 ^ 20) (sectionFld pa flags)
  have hsteps : Steps (fun _ => True) (fun _ => True) (OnVm fun v => v.table pt = s.vm.table pt)
      (mmuMapSection pt va pa flags) fun _ => OnVm After := by
    apply Steps.mmuMapSection (OnVm fun v => v.table pt = s.vm.table pt) (OnVm After) (OnVm After)
    · exact fun s _ _ _ hs _ => ⟨hs, trivial⟩
    · exact fun s _ hs => hs
    · intro u hu _
      refine ⟨?_, trivial⟩
      change Function.update u.vm.table pt (Function.update (u.vm.table pt) (va / 2 ^ 20)
        (sectionFld pa flags)) pt = _
      rw [Function.update_self]
      exact congrArg (Function.update · (va / 2 ^ 20) (sectionFld pa flags)) hu
    · exact fun s _ hs _ => ⟨hs, trivial⟩
    · exact fun s _ hs => hs
    · exact fun s hs _ => ⟨hs, trivial⟩
  exact ((hsteps.of_ok h).elim rfl fun _ _ => trivial).1

/-- `mmu_map_section` maps what it is asked for exactly when its arguments are aligned, or the
table already maps what they are off by. -/
theorem mmuMapSection_maps_iff (coarse : BitVec 32 → BitVec 32 → Option (BitVec 32)) (pt : Asid)
    (va pa : BitVec 32) (flags : MapFlags)
    (h : (mmuMapSection pt va.toNat pa.toNat flags).run s = .ok () t) :
    MapsAsAsked coarse (s.vm.table pt) (t.vm.table pt) va pa ↔
      AlignedOrMapped coarse (s.vm.table pt) va pa := by
  rw [mmuMapSection_table h]
  exact mapsAsAsked_iff

theorem mmuMapSection_maps_iff_heap : ∃ t,
    (mmuMapSection kernelAsid 0x500000 0x500000 ⟨false, false, true⟩).run powerOn = .ok () t ∧
    (MapsAsAsked (fun _ _ => none) (powerOn.vm.table kernelAsid) (t.vm.table kernelAsid)
        0x500000 0x500000 ↔
      AlignedOrMapped (fun _ _ => none) (powerOn.vm.table kernelAsid) 0x500000 0x500000) :=
  ⟨_, rfl, mmuMapSection_maps_iff (fun _ _ => none) kernelAsid 0x500000 0x500000
    ⟨false, false, true⟩ rfl⟩

/-- The mask of `is_aligned(va, 20)` is 19: addresses that end in 4 pass it. -/
theorem mmuMapSection_maps_less : ¬ ∀ (coarse : BitVec 32 → BitVec 32 → Option (BitVec 32))
    (s t : Machine) (pt : Asid) (va pa : BitVec 32) (flags : MapFlags),
    (mmuMapSection pt va.toNat pa.toNat flags).run s = .ok () t →
      MapsAsAsked coarse (s.vm.table pt) (t.vm.table pt) va pa := by
  intro hall
  obtain ⟨t, ht⟩ : ∃ t, (mmuMapSection kernelAsid (4 : BitVec 32).toNat (4 : BitVec 32).toNat
      ⟨true, false, false⟩).run powerOn = .ok () t := ⟨_, rfl⟩
  have hmaps := hall (fun _ _ => none) powerOn t kernelAsid 4 4 ⟨true, false, false⟩ ht
  rw [mmuMapSection_table ht] at hmaps
  have hnext := (mapsAsAsked_iff.mp hmaps).next 0 (by decide)
  have hnone : translateBy (fun _ _ => none) (powerOn.vm.table kernelAsid) 0x100000 = none := by
    decide
  exact absurd (hnone.symm.trans hnext) (by simp)

end Call

end SimplePiOS.Kernel
