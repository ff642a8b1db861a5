import Mathlib.Data.Finset.Card
import Mathlib.Data.Set.Function
import Mathlib.Order.Interval.Finset.Nat
import SimplePiOS.Kernel.Paging

/-! Which sections belong to which table. Mapping takes a section nobody owns, so what a table
owns stays its own while any table grows. -/
namespace SimplePiOS.Kernel
open Lib Libpi

/-- Each of the pages has a section of RAM of its own that is marked as `pt`'s. -/
structure Owns (v : Vm) (pt : Asid) (pages : Set ℕ) : Prop where
  priv : ∀ p ∈ pages, (v.table pt p).Private
  lo : ∀ p ∈ pages, 1 ≤ (v.table pt p).sec
  hi : ∀ p ∈ pages, (v.table pt p).sec < nPhysPages
  owner : ∀ p ∈ pages, v.paddrToAsidMap (v.table pt p).sec = pt
  inj : Set.InjOn (fun p => (v.table pt p).sec) pages

/-- A section that may be handed out. -/
structure Free (v : Vm) (sec : ℕ) : Prop where
  lo : 1 ≤ sec
  hi : sec < nPhysPages
  owner : v.paddrToAsidMap sec = 0

/-- The two updates of a mapping. -/
def Vm.mapRam (v : Vm) (pt : Asid) (page sec : ℕ) (sync : Bool) : Vm :=
  (v.setOwner sec pt).setFld pt page (ramFld sec sync) (ramFlags sync)

def Machine.mapRam (s : Machine) (pt : Asid) (page sec : ℕ) (sync : Bool) : Machine :=
  let s := s.step .update (·.setOwner sec pt)
  let s := s.step .update (·.setFld pt page (ramFld sec sync) (ramFlags sync))
  let s := if sync then s.step (.sync page pt) id else s
  s.step (.ret .mmuMapSection) id

section MapRam
variable {v : Vm} {pt : Asid} {page sec : ℕ} {sync : Bool}

theorem sectionFld_sec (flags : MapFlags) (h : sec < 2 ^ 12) :
    (sectionFld (sec * 2 ^ 20) flags).sec = sec := by
  have hdiv : sec * 2 ^ 20 / 2 ^ 20 = sec := Nat.mul_div_cancel _ (by omega)
  change (BitVec.ofNat 12 (sec * 2 ^ 20 / 2 ^ 20)).toNat = sec
  rw [hdiv, BitVec.toNat_ofNat, Nat.mod_eq_of_lt h]

theorem ramFld_sec (h : sec < nPhysPages) : (ramFld sec sync).sec = sec :=
  sectionFld_sec _ (Nat.lt_trans h (by decide))

theorem ramFld_private : (ramFld sec sync).Private := ⟨rfl, rfl⟩

@[simp] theorem mapRam_asid : (v.mapRam pt page sec sync).asid = v.asid := rfl
@[simp] theorem mapRam_ttbr : (v.mapRam pt page sec sync).ttbr = v.ttbr := rfl
@[simp] theorem mapRam_kernelProc : (v.mapRam pt page sec sync).kernelProc = v.kernelProc := rfl
@[simp] theorem mapRam_currentProc : (v.mapRam pt page sec sync).currentProc = v.currentProc := rfl
@[simp] theorem mapRam_frame : (v.mapRam pt page sec sync).frame = v.frame := rfl

theorem mapRam_owner (i : ℕ) : (v.mapRam pt page sec sync).paddrToAsidMap i =
    if i = sec then pt else v.paddrToAsidMap i :=
  setOwner_paddrToAsidMap v sec pt i

theorem mapRam_table (b : Asid) (i : ℕ) : (v.mapRam pt page sec sync).table b i =
    if b = pt ∧ i = page then ramFld sec sync else v.table b i :=
  setFld_table _ _ _ _ _ b i

theorem mapRam_flags (b : Asid) (i : ℕ) : (v.mapRam pt page sec sync).flags b i =
    if b = pt ∧ i = page then ramFlags sync else v.flags b i :=
  setFld_flags _ _ _ _ _ b i

theorem mapRam_vm (s : Machine) :
    (s.mapRam pt page sec sync).vm = s.vm.mapRam pt page sec sync := by
  unfold Machine.mapRam
  cases sync <;> rfl

theorem mapRam_mem (s : Machine) : (s.mapRam pt page sec sync).mem = s.mem := by
  unfold Machine.mapRam
  cases sync <;> rfl

theorem mapRam_heap (s : Machine) : (s.mapRam pt page sec sync).heap = s.heap := by
  unfold Machine.mapRam
  cases sync <;> rfl

/-- One page of `mmu_map_to_mem` maps the section that was found. -/
theorem mapPage_found {s : Machine} (page : ℕ) (hfound : findAvailablePage s.vm = sec * 2 ^ 20)
    (hsec : Free s.vm sec) : (mapPage pt sync page).run s = .ok () (s.mapRam pt page sec sync) := by
  have hget : getVm.run s = .ok s.vm s := rfl
  have hne : ¬ sec * 2 ^ 20 = 0 := by
    have hlo := hsec.lo
    omega
  have hdiv : ∀ n, n * 2 ^ 20 / 2 ^ 20 = n := fun n => Nat.mul_div_cancel n (by omega)
  unfold mapPage
  rw [bind_ok hget]
  simp only [hfound, hne, if_false]
  unfold mmuMapSection
  rw [bind_ok (run_assert (isAligned_mib page) _ _), bind_ok (run_assert (isAligned_mib sec) _ _)]
  have hram : ¬ (false = true ∨ false = true) ∧ sec < nPhysPages := ⟨by simp, hsec.hi⟩
  rw [hdiv page, hdiv sec, if_pos hram, bind_ok hget, bind_ok (run_assert hsec.owner _ _)]
  cases sync <;> rfl

/-- It maps a free section, or there is none. -/
theorem mapPage_run (pt : Asid) (sync : Bool) (page : ℕ) (s : Machine) :
    ((∀ sec, ¬ Free s.vm sec) ∧
      (mapPage pt sync page).run s = .error (.panic "Out of memory\n") s) ∨
    ∃ sec, Free s.vm sec ∧ (mapPage pt sync page).run s = .ok () (s.mapRam pt page sec sync) := by
  have hget : getVm.run s = .ok s.vm s := rfl
  rcases findAvailablePage_eq s.vm with ⟨hnone, hall⟩ | ⟨sec, hfound, hlo, hhi, hfree⟩
  · left
    refine ⟨fun sec hsec => hall sec hsec.lo hsec.hi hsec.owner, ?_⟩
    unfold mapPage
    rw [bind_ok hget]
    simp only [hnone, if_true]
    rfl
  · have hsec : Free s.vm sec := ⟨hlo, hhi, hfree⟩
    exact .inr ⟨sec, hsec, mapPage_found page hfound hsec⟩

end MapRam

/-- One page of `mmu_map_to_mem`, as one update. -/
theorem Steps.mapPage_ram {H : Moment → Prop} {Kv A A' : Vm → Prop} {pt : Asid} {page : ℕ} {sync : Bool}
    (hmid : ∀ v sec, A v → Free v sec → Kv (v.setOwner sec pt))
    (hmap : ∀ v sec, A v → Free v sec → A' (v.mapRam pt page sec sync)) (hK : ∀ v, A' v → Kv v) :
    Steps H (InVm Kv) (OnVm A) (Kernel.mapPage pt sync page) fun _ => OnVm A' := by
  have hsteps : Steps (InVm fun _ => True) (InVm Kv) (OnVm A) (Kernel.mapPage pt sync page)
      fun _ => OnVm A' := by
    apply Steps.mapPage_vm (fun _ => True) fun sec w => ∃ v, A v ∧ Free v sec ∧ w = v.setOwner sec pt
    · intro v sec hlo hhi hfree hv _
      exact ⟨⟨v, hv, ⟨hlo, hhi, hfree⟩, rfl⟩, hmid v sec hv ⟨hlo, hhi, hfree⟩⟩
    · intro w sec _ _ hw _
      obtain ⟨v, hv, hsec, rfl⟩ := hw
      exact hmap v sec hv hsec
    · exact hK
  exact hsteps.mono (fun _ => id) (fun _ _ => id) (fun _ _ => trivial) fun _ => id

namespace Owns
variable {v : Vm} {pt b : Asid} {page sec : ℕ} {sync : Bool} {pages : Set ℕ}

theorem mono {pages' : Set ℕ} (h : Owns v pt pages) (hsub : pages' ⊆ pages) : Owns v pt pages' :=
  ⟨fun p hp => h.priv p (hsub hp), fun p hp => h.lo p (hsub hp), fun p hp => h.hi p (hsub hp),
    fun p hp => h.owner p (hsub hp), h.inj.mono hsub⟩

/-- A free section is behind none of the pages. -/
theorem ne_free (h : Owns v pt pages) (hpt : pt ≠ 0) (hsec : Free v sec) {p : ℕ} (hp : p ∈ pages) :
    (v.table pt p).sec ≠ sec := by
  intro heq
  have howner := h.owner p hp
  rw [heq, hsec.owner] at howner
  exact hpt howner.symm

theorem setOwner (h : Owns v pt pages) (hpt : pt ≠ 0) (hsec : Free v sec) (b : Asid) :
    Owns (v.setOwner sec b) pt pages := by
  refine ⟨h.priv, h.lo, h.hi, ?_, h.inj⟩
  intro p hp
  rw [setOwner_paddrToAsidMap]
  simp [h.ne_free hpt hsec hp, h.owner p hp]

/-- The table that grows owns the new page as well. -/
theorem mapRam (h : Owns v pt pages) (hpt : pt ≠ 0) (hsec : Free v sec) :
    Owns (v.mapRam pt page sec sync) pt (insert page pages) := by
  have hnew : (v.mapRam pt page sec sync).table pt page = ramFld sec sync := by
    rw [mapRam_table]
    simp
  have hold : ∀ p, p ≠ page → (v.mapRam pt page sec sync).table pt p = v.table pt p := by
    intro p hp
    rw [mapRam_table]
    simp [hp]
  have hfresh : ∀ p ∈ pages, (v.table pt p).sec ≠ sec := fun p hp => h.ne_free hpt hsec hp
  have hcases : ∀ p ∈ insert page pages, p = page ∨ (p ≠ page ∧ p ∈ pages) := by
    intro p hp
    rcases hp with rfl | hp
    · exact .inl rfl
    · by_cases hpage : p = page
      · exact .inl hpage
      · exact .inr ⟨hpage, hp⟩
  constructor
  · intro p hp
    rcases hcases p hp with rfl | ⟨hne, hp⟩
    · rw [hnew]
      exact ramFld_private
    · rw [hold p hne]
      exact h.priv p hp
  · intro p hp
    rcases hcases p hp with rfl | ⟨hne, hp⟩
    · rw [hnew, ramFld_sec hsec.hi]
      exact hsec.lo
    · rw [hold p hne]
      exact h.lo p hp
  · intro p hp
    rcases hcases p hp with rfl | ⟨hne, hp⟩
    · rw [hnew, ramFld_sec hsec.hi]
      exact hsec.hi
    · rw [hold p hne]
      exact h.hi p hp
  · intro p hp
    rw [mapRam_owner]
    rcases hcases p hp with rfl | ⟨hne, hp⟩
    · rw [hnew, ramFld_sec hsec.hi]
      simp
    · rw [hold p hne]
      simp [hfresh p hp, h.owner p hp]
  · intro p hp q hq heq
    simp only at heq
    rcases hcases p hp with rfl | ⟨hne, hp'⟩
    · rcases hcases q hq with rfl | ⟨hne', hq'⟩
      · rfl
      · rw [hnew, ramFld_sec hsec.hi, hold q hne'] at heq
        exact absurd heq.symm (hfresh q hq')
    · rcases hcases q hq with rfl | ⟨hne', hq'⟩
      · rw [hnew, ramFld_sec hsec.hi, hold p hne] at heq
        exact absurd heq (hfresh p hp')
      · rw [hold p hne, hold q hne'] at heq
        exact h.inj hp' hq' heq

/-- Any other table owns what it owned. -/
theorem mapRam_other (h : Owns v b pages) (hb : b ≠ 0) (hne : b ≠ pt) (hsec : Free v sec) :
    Owns (v.mapRam pt page sec sync) b pages := by
  have htable : ∀ p, (v.mapRam pt page sec sync).table b p = v.table b p := by
    intro p
    rw [mapRam_table]
    simp [hne]
  have hown := h.setOwner hb hsec pt
  constructor
  · intro p hp
    rw [htable]
    exact h.priv p hp
  · intro p hp
    rw [htable]
    exact h.lo p hp
  · intro p hp
    rw [htable]
    exact h.hi p hp
  · intro p hp
    rw [htable]
    exact hown.owner p hp
  · intro p hp q hq heq
    simp only [htable] at heq
    exact h.inj hp hq heq

/-- There is RAM for so many pages only. -/
theorem card_le (h : Owns v pt pages) (s : Finset ℕ) (hs : ↑s ⊆ pages) : s.card ≤ nPhysPages - 1 := by
  have hmaps : ∀ p ∈ s, (v.table pt p).sec ∈ Finset.Ico 1 nPhysPages := by
    intro p hp
    have hp' := hs hp
    exact Finset.mem_Ico.mpr ⟨h.lo p hp', h.hi p hp'⟩
  have hcard := Finset.card_le_card_of_injOn _ hmaps (h.inj.mono hs)
  simpa using hcard

end Owns

/-- The sections that may be handed out. -/
def freeSecs (v : Vm) : Finset ℕ := (Finset.Ico 1 nPhysPages).filter fun sec => v.paddrToAsidMap sec = 0

theorem mem_freeSecs {v : Vm} {sec : ℕ} : sec ∈ freeSecs v ↔ Free v sec := by
  unfold freeSecs
  rw [Finset.mem_filter, Finset.mem_Ico]
  constructor
  · rintro ⟨⟨hlo, hhi⟩, howner⟩
    exact ⟨hlo, hhi, howner⟩
  · rintro ⟨hlo, hhi, howner⟩
    exact ⟨⟨hlo, hhi⟩, howner⟩

theorem freeSecs_mapRam {v : Vm} {pt : Asid} {page sec : ℕ} {sync : Bool} (hpt : pt ≠ 0) :
    freeSecs (v.mapRam pt page sec sync) = (freeSecs v).erase sec := by
  ext i
  rw [Finset.mem_erase, mem_freeSecs, mem_freeSecs]
  constructor
  · intro h
    have howner := h.owner
    rw [mapRam_owner] at howner
    by_cases hi : i = sec
    · simp [hi, hpt] at howner
    · exact ⟨hi, h.lo, h.hi, by simpa [hi] using howner⟩
  · rintro ⟨hi, h⟩
    refine ⟨h.lo, h.hi, ?_⟩
    rw [mapRam_owner]
    simp [hi, h.owner]

/-- `w` is `v` with a section of RAM of its own behind each of the pages of `pt`. -/
structure Grown (v w : Vm) (pt : Asid) (pages : List ℕ) : Prop where
  asid : w.asid = v.asid
  ttbr : w.ttbr = v.ttbr
  kernelProc : w.kernelProc = v.kernelProc
  currentProc : w.currentProc = v.currentProc
  frame : w.frame = v.frame
  table : ∀ b i, ¬ (b = pt ∧ i ∈ pages) → w.table b i = v.table b i
  priv : ∀ p ∈ pages, (w.table pt p).Private
  fresh : ∀ p ∈ pages, Free v (w.table pt p).sec
  inj : Set.InjOn (fun p => (w.table pt p).sec) {p | p ∈ pages}
  taken : ∀ p ∈ pages, w.paddrToAsidMap (w.table pt p).sec = pt
  owner : ∀ sec, (∀ p ∈ pages, (w.table pt p).sec ≠ sec) →
    w.paddrToAsidMap sec = v.paddrToAsidMap sec
  room : (freeSecs w).card = (freeSecs v).card - pages.length

namespace Grown
variable {v w : Vm} {pt : Asid} {page sec : ℕ} {sync : Bool} {pages : List ℕ}

theorem refl (v : Vm) (pt : Asid) : Grown v v pt [] := by
  constructor
  all_goals simp [Set.InjOn]

/-- The page that is mapped first, and the others after it. -/
theorem cons (hpt : pt ≠ 0) (hpage : page ∉ pages) (hsec : Free v sec)
    (h : Grown (v.mapRam pt page sec sync) w pt pages) : Grown v w pt (page :: pages) := by
  have hnew : w.table pt page = ramFld sec sync := by
    rw [h.table pt page (by simp [hpage]), mapRam_table]
    simp
  have hnewSec : (w.table pt page).sec = sec := by
    rw [hnew, ramFld_sec hsec.hi]
  have hfresh : ∀ p ∈ pages, Free v (w.table pt p).sec ∧ (w.table pt p).sec ≠ sec := by
    intro p hp
    have hfree := mem_freeSecs.mpr (h.fresh p hp)
    rw [freeSecs_mapRam hpt, Finset.mem_erase, mem_freeSecs] at hfree
    exact ⟨hfree.2, hfree.1⟩
  have hcases : ∀ p ∈ page :: pages, p = page ∨ p ∈ pages := fun p hp => List.mem_cons.mp hp
  constructor
  · exact h.asid
  · exact h.ttbr
  · exact h.kernelProc
  · exact h.currentProc
  · exact h.frame
  · intro b i hbi
    rw [List.mem_cons, not_and_or, not_or] at hbi
    rw [h.table b i (by tauto), mapRam_table, if_neg (by tauto)]
  · intro p hp
    rcases hcases p hp with rfl | hp
    · rw [hnew]
      exact ramFld_private
    · exact h.priv p hp
  · intro p hp
    rcases hcases p hp with rfl | hp
    · rwa [hnewSec]
    · exact (hfresh p hp).1
  · intro p hp q hq heq
    dsimp only at heq
    rcases hcases p hp with rfl | hp'
    · rcases hcases q hq with rfl | hq'
      · rfl
      · rw [hnewSec] at heq
        exact absurd heq.symm (hfresh q hq').2
    · rcases hcases q hq with rfl | hq'
      · rw [hnewSec] at heq
        exact absurd heq (hfresh p hp').2
      · exact h.inj hp' hq' heq
  · intro p hp
    rcases hcases p hp with rfl | hp
    · rw [hnewSec, h.owner sec fun q hq => (hfresh q hq).2, mapRam_owner, if_pos rfl]
    · exact h.taken p hp
  · intro i hi
    have hne : i ≠ sec := fun heq => hi page (by simp) (hnewSec.trans heq.symm)
    rw [h.owner i fun p hp => hi p (by simp [hp]), mapRam_owner, if_neg hne]
  · rw [h.room, freeSecs_mapRam hpt, Finset.card_erase_of_mem (mem_freeSecs.mpr hsec),
      List.length_cons]
    omega

/-- What a table owned before, it owns with the new pages. -/
theorem owns {old : Set ℕ} (h : Grown v w pt pages) (hpt : pt ≠ 0) (hold : Owns v pt old) :
    Owns w pt (old ∪ {p | p ∈ pages}) := by
  have hkept : ∀ p ∈ old, p ∉ pages → w.table pt p = v.table pt p :=
    fun p _ hp => h.table pt p (by simp [hp])
  have hcases : ∀ p ∈ old ∪ {p | p ∈ pages}, p ∈ pages ∨ (p ∈ old ∧ p ∉ pages) := by
    intro p hp
    by_cases hnew : p ∈ pages
    · exact .inl hnew
    · exact .inr ⟨hp.resolve_right hnew, hnew⟩
  have hne : ∀ p ∈ old, ∀ q ∈ pages, (w.table pt q).sec ≠ (v.table pt p).sec :=
    fun p hp q hq heq => hold.ne_free hpt (h.fresh q hq) hp heq.symm
  constructor
  · intro p hp
    rcases hcases p hp with hp | ⟨hp, hnew⟩
    · exact h.priv p hp
    · rw [hkept p hp hnew]
      exact hold.priv p hp
  · intro p hp
    rcases hcases p hp with hp | ⟨hp, hnew⟩
    · exact (h.fresh p hp).lo
    · rw [hkept p hp hnew]
      exact hold.lo p hp
  · intro p hp
    rcases hcases p hp with hp | ⟨hp, hnew⟩
    · exact (h.fresh p hp).hi
    · rw [hkept p hp hnew]
      exact hold.hi p hp
  · intro p hp
    rcases hcases p hp with hp | ⟨hp, hnew⟩
    · exact h.taken p hp
    · rw [hkept p hp hnew, h.owner _ (hne p hp)]
      exact hold.owner p hp
  · intro p hp q hq heq
    dsimp only at heq
    rcases hcases p hp with hp' | ⟨hp', hnew⟩
    · rcases hcases q hq with hq' | ⟨hq', hnew'⟩
      · exact h.inj hp' hq' heq
      · rw [hkept q hq' hnew'] at heq
        exact absurd heq (hne q hq' p hp')
    · rcases hcases q hq with hq' | ⟨hq', hnew'⟩
      · rw [hkept p hp' hnew] at heq
        exact absurd heq.symm (hne p hp' q hq')
      · rw [hkept p hp' hnew, hkept q hq' hnew'] at heq
        exact hold.inj hp' hq' heq

end Grown

/-- Mapping some pages ends with all of them mapped, or there is too little RAM. -/
theorem mapPages_run {pt : Asid} (hpt : pt ≠ 0) (sync : Bool) {pages : List ℕ}
    (hnodup : pages.Nodup) (s : Machine) :
    (∃ t, (forM pages (mapPage pt sync)).run s = .ok ⟨⟩ t ∧ Grown s.vm t.vm pt pages ∧
      t.mem = s.mem ∧ t.heap = s.heap) ∨
    ((freeSecs s.vm).card < pages.length ∧
      ∃ t, (forM pages (mapPage pt sync)).run s = .error (.panic "Out of memory\n") t) := by
  induction pages generalizing s with
  | nil => exact .inl ⟨s, rfl, .refl s.vm pt, rfl, rfl⟩
  | cons page pages ih =>
    obtain ⟨hpage, hnodup⟩ := List.nodup_cons.mp hnodup
    rw [List.forM_cons]
    rcases mapPage_run pt sync page s with ⟨hnone, hrun⟩ | ⟨sec, hsec, hrun⟩
    · right
      have hempty : freeSecs s.vm = ∅ :=
        Finset.eq_empty_of_forall_notMem fun sec hsec => hnone sec (mem_freeSecs.mp hsec)
      exact ⟨by simp [hempty], s, bind_error hrun⟩
    · rw [bind_ok hrun]
      rcases ih hnodup (s.mapRam pt page sec sync) with
        ⟨t, ht, hgrown, hmem, hheap⟩ | ⟨hroom, t, ht⟩
      · left
        rw [mapRam_vm] at hgrown
        exact ⟨t, ht, .cons hpt hpage hsec hgrown, hmem.trans (mapRam_mem s),
          hheap.trans (mapRam_heap s)⟩
      · right
        rw [mapRam_vm, freeSecs_mapRam hpt, Finset.card_erase_of_mem (mem_freeSecs.mpr hsec)] at hroom
        exact ⟨by simp only [List.length_cons]; omega, t, ht⟩

theorem kernelAsid_ne : kernelAsid ≠ 0 := by decide

theorem mmuMapToMem_run {pt : Asid} (hpt : pt ≠ 0) (addr size : ℕ) (sync : Bool) (s : Machine) :
    (∃ t, (mmuMapToMem pt addr size sync).run s = .ok ⟨⟩ t ∧
      Grown s.vm t.vm pt (pageRange addr size) ∧ t.mem = s.mem ∧ t.heap = s.heap) ∨
    ((freeSecs s.vm).card < (pageRange addr size).length ∧
      ∃ t, (mmuMapToMem pt addr size sync).run s = .error (.panic "Out of memory\n") t) :=
  mapPages_run hpt sync (List.nodup_range' 1) s

end SimplePiOS.Kernel
