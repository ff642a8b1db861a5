import SimplePiOS.Kernel.WellFormed

/-! The sections in use before and after `exec_file`: what the kernel's heap gained, and what
`mmu_unmap` leaves behind. -/
namespace SimplePiOS.Kernel
open Lib Libpi

/-- The sections that the map gives to somebody. -/
def Vm.inUse (v : Vm) : Set ℕ := {sec | v.paddrToAsidMap sec ≠ 0}

/-- The sections that the kernel has taken. -/
def heapGain (v w : Vm) : Set ℕ := {sec | Free v sec ∧ w.paddrToAsidMap sec = kernelAsid}

/-- From `v` to `w` the kernel has taken free sections, and nothing else was done to the map. -/
def Gained (v w : Vm) : Prop :=
  ∀ sec, w.paddrToAsidMap sec = v.paddrToAsidMap sec ∨ Free v sec ∧ w.paddrToAsidMap sec = kernelAsid

/-- The cluster chain covers the file. -/
def CoversFile (s : Machine) : KernelOp → Prop
  | .exec disk fuel fs entry _ => ∀ file r,
    (do execInitTable; fat32ReadFile kernel disk fuel fs entry).run s = .ok file r →
      file.nData ≤ file.nAlloc
  | _ => True

/-- After `exec_file` exactly the sections are in use that were in use before or were added to the
kernel's heap, which only `fat32_read_file` does. -/
def NoneLeaked (disk : Disk) (fuel : ℕ) (fs : Fat32) (entry : Dirent) (s u : Machine) : Prop :=
  ∀ file r, (do execInitTable; fat32ReadFile kernel disk fuel fs entry).run s = .ok file r →
    u.vm.inUse = s.vm.inUse ∪ heapGain s.vm r.vm

/-- The child sees every page of the load window to the end, and none was mapped for it twice. -/
def AllShown (disk : Disk) (fuel : ℕ) (fs : Fat32) (entry : Dirent) (sbrks : List ℕ) (s : Machine) :
    Prop :=
  ∀ file t, (do execInitTable; execOpen disk fuel fs entry).run s = .ok file t →
    let pages := t.view.childPages entry.nbytes sbrks
    (∀ q ∈ pageRange kernelLoadAddr file.nAlloc, q ∈ filePages entry.nbytes ∧ childPage q ∉ pages) ∧
      pages.Nodup

/-- The kernel's heap and what it may still get fit in the RAM; its pages end below 0x300. -/
structure Bounded (v : Vm) : Prop where
  pos : 0 < v.kernelProc.heapEnd
  room : v.kernelProc.heapEnd + (freeSecs v).card * 2 ^ 20 ≤ nPhysPages * 2 ^ 20
  low : ∀ p < nVirtPages, (v.table kernelAsid p).Valid → p < 0x300

section Heap
variable {v w : Vm} {s t : Machine} {page sec incr r : ℕ} {sync : Bool}

theorem Gained.inUse (h : Gained v w) : w.inUse = v.inUse ∪ heapGain v w := by
  ext sec
  constructor
  · intro hsec
    rcases h sec with hsame | hgain
    · left
      exact fun hzero => hsec (hsame.trans hzero)
    · exact .inr hgain
  · rintro (hsec | hgain)
    · rcases h sec with hsame | ⟨hfree, -⟩
      · exact fun hzero => hsec (hsame.symm.trans hzero)
      · exact absurd hfree.owner hsec
    · exact fun hzero => kernelAsid_ne (hgain.2.symm.trans hzero)

theorem Gained.mapRam (h : Gained v w) (hsec : Free w sec) :
    Gained v (w.mapRam kernelAsid page sec sync) := by
  intro i
  rw [mapRam_owner]
  split
  · next heq =>
    right
    rcases h i with hsame | ⟨-, hkernel⟩
    · rw [heq] at hsame ⊢
      exact ⟨⟨hsec.lo, hsec.hi, hsame.symm.trans hsec.owner⟩, rfl⟩
    · rw [heq, hsec.owner] at hkernel
      exact absurd hkernel.symm kernelAsid_ne
  · exact h i

/-- What one call of the kernel for itself did. -/
theorem of_kernelSbrk_ok (hidle : Idle s.vm) (hrun : (kernelSbrk incr).run s = .ok r t)
    (htame : ∀ x ∈ since Machine.trace s t, Tame x) :
    t.vm = s.vm ∨ ∃ u, Grown s.vm u kernelAsid (pageRange s.vm.kernelProc.heapEnd incr) ∧
      t.vm = u.setHeapEnd (add32 s.vm.kernelProc.heapEnd incr) .kernel := by
  have hget : ∀ u : Machine, getVm.run u = .ok u.vm u := fun _ => rfl
  have hproc : s.vm.proc .kernel = s.vm.kernelProc := rfl
  rw [kernelSbrk_eq, bind_ok (hget s), bind_ok (hget s), hidle.currentProc, hproc] at hrun
  unfold sbrkOf at hrun
  by_cases hincr : incr ≠ 0
  · rw [if_pos hincr, hidle.kernelProc] at hrun
    simp only [ne_eq, not_true_eq_false, if_false] at hrun
    obtain ⟨_, s₁, hmap, hrun⟩ := of_bind_ok hrun
    obtain ⟨_, s₂, hset, hrun⟩ := of_bind_ok hrun
    obtain ⟨_, s₃, hend, hrun⟩ := of_bind_ok hrun
    obtain ⟨v, s₄, hv, hrun⟩ := of_bind_ok hrun
    obtain ⟨_, s₅, hret, hrun⟩ := of_bind_ok hrun
    have hmapped : Extends Machine.trace s s₁ := (growing_mmuMapToMem _ _ _ _).extends_ok hmap
    have hstored : Extends Machine.trace s₁ s₂ := (growing_still (still_memset _ _ _)).extends_ok hset
    have hended : Extends Machine.trace s₂ s₃ := (growing_perform _ _).extends_ok hend
    obtain ⟨-, rfl⟩ := EStateM.Result.ok.inj hend
    obtain ⟨-, rfl⟩ := EStateM.Result.ok.inj hv
    obtain ⟨-, rfl⟩ := EStateM.Result.ok.inj hrun
    have hafter : Extends Machine.trace s₂ s₅ := hended.trans ((growing_perform _ _).extends_ok hret)
    obtain ⟨-, rfl⟩ := EStateM.Result.ok.inj hret
    have htame₂ := (hmapped.forall_since hstored
      ((hmapped.trans hstored).forall_since hafter htame).1).2
    right
    rcases mmuMapToMem_run kernelAsid_ne s.vm.kernelProc.heapEnd incr true s with
      ⟨u, hgrow, hgrown, -⟩ | ⟨-, u, hfull⟩
    · obtain rfl := (EStateM.Result.ok.inj (hgrow.symm.trans hmap)).2
      refine ⟨u.vm, hgrown, ?_⟩
      rw [← vm_of_still (still_memset _ _ _) hset htame₂]
      rfl
    · have hstop := hfull.symm.trans hmap
      cases hstop
  · rw [if_neg hincr] at hrun
    obtain ⟨-, rfl⟩ := EStateM.Result.ok.inj hrun
    exact .inl rfl

theorem card_freeSecs_lt (v : Vm) : (freeSecs v).card < nPhysPages := by
  have hcard := Finset.card_le_card (Finset.filter_subset (fun sec => v.paddrToAsidMap sec = 0)
    (Finset.Ico 1 nPhysPages))
  rw [Nat.card_Ico] at hcard
  exact Nat.lt_of_le_of_lt hcard (by decide)

/-- The pages of a growth follow the old break, and the new one is at most the end of the last. -/
theorem growth_bounds {h n free top : ℕ} (htop : top ≤ 0x300) (hpos : 0 < h)
    (hroom : h + free * 2 ^ 20 ≤ top * 2 ^ 20) (hlen : (pageRange h n).length ≤ free) :
    0 < add32 h n ∧ add32 h n + (free - (pageRange h n).length) * 2 ^ 20 ≤ top * 2 ^ 20 ∧
      ∀ p ∈ pageRange h n, p < top := by
  have hstart : sub32 h 1 / 2 ^ 20 = (h - 1) / 2 ^ 20 := by
    unfold sub32
    omega
  have hlength : (pageRange h n).length = sub32 (add32 h n) 1 / 2 ^ 20 - (h - 1) / 2 ^ 20 := by
    unfold pageRange
    dsimp only
    rw [hstart, List.length_range']
  have hlast : add32 h n < 2 ^ 32 := Nat.mod_lt _ (by omega)
  have hpages : ∀ p ∈ pageRange h n, p ≤ sub32 (add32 h n) 1 / 2 ^ 20 :=
    fun p hp => (mem_pageRange hp).2.1
  rw [hlength] at hlen ⊢
  have hne : 0 < add32 h n := by
    by_contra hzero
    have hwrap : sub32 (add32 h n) 1 / 2 ^ 20 = 4095 := by
      have h0 : add32 h n = 0 := by omega
      rw [h0]
      rfl
    rw [hwrap] at hlen
    omega
  have hend : sub32 (add32 h n) 1 / 2 ^ 20 = (add32 h n - 1) / 2 ^ 20 := by
    generalize add32 h n = e at *
    unfold sub32
    omega
  rw [hend] at hlen hpages ⊢
  generalize add32 h n = e at *
  refine ⟨hne, by omega, ?_⟩
  intro p hp
  have hp' := hpages p hp
  omega

theorem Bounded.congr (h : Bounded v) (hmap : w.paddrToAsidMap = v.paddrToAsidMap)
    (htable : w.table kernelAsid = v.table kernelAsid) (hproc : w.kernelProc = v.kernelProc) :
    Bounded w := by
  have hfree : freeSecs w = freeSecs v := by
    unfold freeSecs
    rw [hmap]
  constructor
  · rw [hproc]
    exact h.pos
  · rw [hproc, hfree]
    exact h.room
  · rw [htable]
    exact h.low

/-- The break may have moved down: an increment may be negative. -/
theorem Bounded.sbrk (h : Bounded s.vm) (hidle : Idle s.vm) (hrun : (kernelSbrk incr).run s = .ok r t)
    (htame : ∀ x ∈ since Machine.trace s t, Tame x) : Bounded t.vm := by
  rcases of_kernelSbrk_ok hidle hrun htame with hsame | ⟨u, hgrown, hend⟩
  · rw [hsame]
    exact h
  · have hlen := hgrown.length_le (nodup_pageRange _ _)
    have htop : nPhysPages ≤ 0x300 := by decide
    obtain ⟨hpos, hroom, hlow⟩ := growth_bounds htop h.pos h.room hlen
    rw [hend]
    constructor
    · exact hpos
    · change add32 _ _ + (freeSecs u).card * 2 ^ 20 ≤ _
      rw [hgrown.room]
      exact hroom
    · intro p hp hvalid
      by_cases hpage : p ∈ pageRange s.vm.kernelProc.heapEnd incr
      · exact Nat.lt_trans (hlow p hpage) (by decide)
      · apply h.low p hp
        rw [← hgrown.table kernelAsid p fun hin => hpage hin.2]
        exact hvalid

theorem Grown.eq_of_sec {pt : Asid} {pages : List ℕ} {p q : ℕ} (h : Grown v w pt pages)
    (hp : p ∈ pages) (hq : q ∈ pages) (hsec : (w.table pt p).sec = (w.table pt q).sec) : p = q :=
  h.inj hp hq hsec

end Heap

section Window
variable {v w : Vm} {done : List ℕ}

theorem freeSecs_subset (h : ChildGrown v done w) : freeSecs w ⊆ freeSecs v :=
  fun _ hsec => mem_freeSecs.mpr (h.free (mem_freeSecs.mp hsec))

/-- The child still sees all that was taken for it if and only if no page was mapped twice. -/
theorem ChildGrown.shown_iff (h : ChildGrown v done w) :
    (∀ sec, Free v sec → w.paddrToAsidMap sec = childAsid →
      ∃ p ∈ done, (w.table childAsid p).sec = sec) ↔ done.Nodup := by
  let shown := done.toFinset.image fun p => (w.table childAsid p).sec
  let taken := freeSecs v \ freeSecs w
  have htaken : ∀ sec, sec ∈ taken ↔ Free v sec ∧ w.paddrToAsidMap sec = childAsid := by
    intro sec
    rw [Finset.mem_sdiff, mem_freeSecs, mem_freeSecs]
    constructor
    · rintro ⟨hfree, hnot⟩
      refine ⟨hfree, ?_⟩
      rcases h.owner sec with hsame | ⟨-, hchild⟩
      · exact absurd ⟨hfree.lo, hfree.hi, hsame.trans hfree.owner⟩ hnot
      · exact hchild
    · rintro ⟨hfree, hchild⟩
      refine ⟨hfree, ?_⟩
      intro hstill
      exact childAsid_ne (hchild.symm.trans hstill.owner)
  have hsub : shown ⊆ taken := by
    intro sec hsec
    obtain ⟨p, hp, rfl⟩ := Finset.mem_image.mp hsec
    have hp' := List.mem_toFinset.mp hp
    exact (htaken _).mpr ⟨h.fresh p hp', h.taken p hp'⟩
  have hshown : shown.card = done.toFinset.card := by
    apply Finset.card_image_of_injOn
    apply h.inj.mono
    intro p hp
    exact List.mem_toFinset.mp hp
  have hcount : taken.card = done.length := by
    have hroom := h.room
    rw [Finset.card_sdiff_of_subset (freeSecs_subset h)]
    omega
  have hall : (∀ sec, Free v sec → w.paddrToAsidMap sec = childAsid →
      ∃ p ∈ done, (w.table childAsid p).sec = sec) ↔ taken ⊆ shown := by
    constructor
    · intro hmem sec hsec
      obtain ⟨hfree, hchild⟩ := (htaken sec).mp hsec
      obtain ⟨p, hp, heq⟩ := hmem sec hfree hchild
      exact Finset.mem_image.mpr ⟨p, List.mem_toFinset.mpr hp, heq⟩
    · intro hmem sec hfree hchild
      obtain ⟨p, hp, heq⟩ := Finset.mem_image.mp (hmem ((htaken sec).mpr ⟨hfree, hchild⟩))
      exact ⟨p, List.mem_toFinset.mp hp, heq⟩
  rw [hall]
  constructor
  · intro hback
    have heq := Finset.Subset.antisymm hsub hback
    rw [heq, hcount] at hshown
    exact Multiset.toFinset_card_eq_card_iff_nodup.mp hshown.symm
  · intro hnodup
    rw [← List.toFinset_card_of_nodup hnodup, ← hshown] at hcount
    exact (Finset.eq_of_subset_of_card_le hsub hcount.le).symm.subset

end Window

section Exec
variable {s t u r o : Machine} {disk : Disk} {fuel : ℕ} {fs : Fat32} {entry : Dirent}
  {sbrks : List ℕ} {file : PiFile} {H : Moment → Prop}

/-- A rule from single runs. -/
theorem Growing.steps {α : Type} {L : Machine → Prop} {m : Kern α} {Q : α → Machine → Prop}
    (hm : Growing m) (h : ∀ s a t, L s → m.run s = .ok a t → (∀ x ∈ since Machine.trace s t, H x) →
      Q a t) :
    Steps H (InVm fun _ => True) L m Q := by
  apply Traced.intro
  · intro s a t hrun
    obtain ⟨new, hpast, -⟩ := hm.of_ok hrun
    refine ⟨new, hpast, fun hs hH => ⟨h s a t hs hrun ?_, fun _ _ => trivial⟩⟩
    rwa [since_eq hpast]
  · intro s e t hrun
    obtain ⟨new, hpast, -⟩ := hm.of_error hrun
    exact ⟨new, hpast, fun _ _ => ⟨trivial, fun _ _ => trivial⟩⟩

theorem steps_kernelSbrk_bounded (incr : ℕ) : Steps Tame (InVm fun _ => True)
    (OnVm fun v => Idle v ∧ Bounded v) (kernelSbrk incr) fun _ => OnVm Bounded :=
  (growing_kernelSbrk incr).steps fun _ _ _ hs hrun htame => hs.2.sbrk hs.1 hrun htame

/-- While the file is read the kernel's heap grows. -/
theorem Bounded.read (hidle : Idle s.vm) (h : Bounded s.vm)
    (hrun : (do execInitTable; fat32ReadFile kernel disk fuel fs entry).run s = .ok file r)
    (htame : ∀ x ∈ since Machine.trace s r, Tame x) :
    Gained s.vm r.vm ∧ Bounded r.vm ∧ file.nAlloc ≤ 0x30000000 := by
  obtain ⟨_, s₁, hinit, hread⟩ := of_bind_ok hrun
  have hstarting := starting_execInitTable hidle hinit
  have hbounded : Gained s.vm s₁.vm ∧ Bounded s₁.vm := by
    cases hinit
    exact ⟨fun _ => .inl rfl, h.congr rfl rfl rfl⟩
  have hgained : HeapStable (fun v => Starting v ∧ Gained s.vm v) fun _ => True :=
    starting_heapStable.and (fun _ _ _ _ hv hsec => hv.mapRam hsec) fun _ _ hv => hv
  have hsbrk : ∀ incr, Steps Tame (InVm fun _ => True)
      (OnVm fun v => (Starting v ∧ Gained s.vm v) ∧ Bounded v) (kernelSbrk incr) fun _ =>
        OnVm fun v => (Starting v ∧ Gained s.vm v) ∧ Bounded v := by
    intro incr
    have hboth := (hgained.kernelSbrk (H := Tame) incr).and (steps_kernelSbrk_bounded incr)
    exact hboth.mono (fun s hs => ⟨hs.1, hs.1.1.idle, hs.2⟩) (fun _ s hs => hs) (fun _ => id)
      fun _ _ => trivial
  have hstart : Extends Machine.trace s s₁ := storeless_execInitTable.extends_ok hinit
  have hsteps := Steps.fat32ReadFile disk fuel fs entry (stable_onVm _) hsbrk
  have htame₁ := (hstart.forall_since (hsteps.extends_ok hread) htame).2
  obtain ⟨⟨⟨hready, hgain⟩, hlow⟩, -⟩ :=
    ((hsteps.of_ok hread).elim ⟨⟨hstarting, hbounded.1⟩, hbounded.2⟩ htame₁).1
  refine ⟨hgain, hlow, fat32ReadFile_nAlloc hread ?_⟩
  intro a ha hvalid
  unfold Vm.fldAt at hvalid
  rw [hready.idle.ttbr] at hvalid
  have hpage := hlow.low (a / 2 ^ 20) (Nat.div_lt_of_lt_mul ha) hvalid
  omega

theorem card_freeSecs_le {v w : Vm} (h : v.inUse ⊆ w.inUse) : (freeSecs w).card ≤ (freeSecs v).card := by
  apply Finset.card_le_card
  intro sec hsec
  have hfree := mem_freeSecs.mp hsec
  refine mem_freeSecs.mpr ⟨hfree.lo, hfree.hi, ?_⟩
  by_contra hin
  exact h hin hfree.owner

/-- There is RAM for so many pages of the window only. -/
theorem Grown.window_low {v w : Vm} {n p : ℕ} (h : Grown v w kernelAsid (pageRange kernelLoadAddr n))
    (hp : p ∈ pageRange kernelLoadAddr n) : p < 0x300 := by
  have hlen := h.length_le (nodup_pageRange _ _)
  have hfree := card_freeSecs_lt v
  have hphys : nPhysPages = 512 := rfl
  have hstart : sub32 kernelLoadAddr 1 / 2 ^ 20 = 0xFF := rfl
  unfold pageRange at hlen hp
  rw [List.length_range'] at hlen
  rw [List.mem_range'_1] at hp
  omega

/-- The window's sections are the kernel's, and were free before. -/
theorem Used.window (h : Used disk fuel fs entry sbrks s r o t file) {q : ℕ}
    (hq : q ∈ pageRange kernelLoadAddr file.nAlloc) :
    Free r.vm (o.vm.table kernelAsid q).sec ∧
      o.vm.paddrToAsidMap (o.vm.table kernelAsid q).sec = kernelAsid := by
  obtain ⟨w, hgrown, -, heq⟩ := h.windowed
  obtain ⟨htable, hmap⟩ := Windowed.kernel_eq heq
  rw [htable, hmap]
  have hfree := hgrown.fresh q hq
  exact ⟨⟨hfree.lo, hfree.hi, hfree.owner⟩, hgrown.taken q hq⟩

/-- Before the program is loaded nothing but the window was taken. -/
theorem Used.opened_taken (h : Used disk fuel fs entry sbrks s r o t file) (sec : ℕ) :
    o.vm.paddrToAsidMap sec ≠ 0 ↔ r.vm.paddrToAsidMap sec ≠ 0 ∨
      ∃ q ∈ pageRange kernelLoadAddr file.nAlloc, (o.vm.table kernelAsid q).sec = sec := by
  by_cases hwindow : ∃ q ∈ pageRange kernelLoadAddr file.nAlloc, (o.vm.table kernelAsid q).sec = sec
  · obtain ⟨q, hq, rfl⟩ := hwindow
    rw [(h.window hq).2]
    exact ⟨fun _ => .inr ⟨q, hq, rfl⟩, fun _ => kernelAsid_ne⟩
  · obtain ⟨w, hgrown, -, heq⟩ := h.windowed
    obtain ⟨htable, hmap⟩ := Windowed.kernel_eq heq
    have hnone := hwindow
    push Not at hnone
    rw [htable] at hnone
    rw [hmap, hgrown.owner sec hnone]
    exact ⟨.inl, fun hor => hor.resolve_right hwindow⟩

/-- When the child's pages are given back there is also what was mapped for it. -/
theorem Used.taken (h : Used disk fuel fs entry sbrks s r o t file) (sec : ℕ) :
    t.vm.paddrToAsidMap sec ≠ 0 ↔ o.vm.paddrToAsidMap sec ≠ 0 ∨
      Free o.vm sec ∧ t.vm.paddrToAsidMap sec = childAsid := by
  rcases h.grown.owner sec with hsame | ⟨hfree, hchild⟩
  · rw [hsame]
    refine ⟨.inl, ?_⟩
    rintro (hne | ⟨-, hchild⟩)
    · exact hne
    · exact fun hzero => childAsid_ne (hchild.symm.trans hzero)
  · rw [hchild]
    exact ⟨fun _ => .inr ⟨hfree, rfl⟩, fun _ => childAsid_ne⟩

/-- The sections in use after `exec_file` against those in use when the file had been read. -/
theorem Used.inUse (h : Used disk fuel fs entry sbrks s r o t file)
    (hfile : ∀ q ∈ filePages entry.nbytes, q ∈ pageRange kernelLoadAddr file.nAlloc)
    (hunmap : Unmapped t.vm u.vm childAsid (List.range nVirtPages)) :
    r.vm.inUse ⊆ u.vm.inUse ∧ (u.vm.inUse = r.vm.inUse ↔
      (∀ q ∈ pageRange kernelLoadAddr file.nAlloc, q ∈ filePages entry.nbytes ∧
        childPage q ∉ o.view.childPages entry.nbytes sbrks) ∧
      (o.view.childPages entry.nbytes sbrks).Nodup) := by
  have hend : ∀ sec, sec ∈ u.vm.inUse ↔ t.vm.paddrToAsidMap sec ≠ 0 ∧
      ¬ ((∃ p ∈ o.view.childPages entry.nbytes sbrks, (t.vm.table childAsid p).sec = sec) ∨
        ∃ q ∈ filePages entry.nbytes, childPage q ∉ o.view.childPages entry.nbytes sbrks ∧
          (o.vm.table kernelAsid q).sec = sec) := by
    intro sec
    rw [← h.released_iff]
    exact hunmap.taken_iff sec
  have hread : ∀ sec, r.vm.paddrToAsidMap sec ≠ 0 → t.vm.paddrToAsidMap sec ≠ 0 :=
    fun sec hsec => (h.taken sec).mpr (.inl ((h.opened_taken sec).mpr (.inl hsec)))
  have hnew : ∀ sec, Free o.vm sec → r.vm.paddrToAsidMap sec = 0 := by
    intro sec hfree
    by_contra hsec
    exact (h.opened_taken sec).mpr (.inl hsec) hfree.owner
  have hsub : r.vm.inUse ⊆ u.vm.inUse := by
    intro sec hsec
    refine (hend sec).mpr ⟨hread sec hsec, ?_⟩
    rintro (⟨p, hp, rfl⟩ | ⟨q, hq, -, rfl⟩)
    · exact hsec (hnew _ (h.grown.fresh p hp))
    · exact hsec (h.window (hfile q hq)).1.owner
  refine ⟨hsub, ?_⟩
  rw [← h.grown.shown_iff]
  constructor
  · intro heq
    have hback : ∀ sec, r.vm.paddrToAsidMap sec = 0 → t.vm.paddrToAsidMap sec ≠ 0 →
        (∃ p ∈ o.view.childPages entry.nbytes sbrks, (t.vm.table childAsid p).sec = sec) ∨
          ∃ q ∈ filePages entry.nbytes, childPage q ∉ o.view.childPages entry.nbytes sbrks ∧
            (o.vm.table kernelAsid q).sec = sec := by
      intro sec hzero hsec
      by_contra hnone
      have hin : sec ∈ u.vm.inUse := (hend sec).mpr ⟨hsec, hnone⟩
      rw [heq] at hin
      exact hin hzero
    constructor
    · intro q hq
      obtain ⟨hfree, howner⟩ := h.window hq
      have hopened : o.vm.paddrToAsidMap (o.vm.table kernelAsid q).sec ≠ 0 := by
        rw [howner]
        exact kernelAsid_ne
      rcases hback _ hfree.owner ((h.taken _).mpr (.inl hopened)) with
        ⟨p, hp, hsame⟩ | ⟨q', hq', hpage, hsame⟩
      · have hfresh := h.grown.fresh p hp
        rw [hsame] at hfresh
        exact absurd hfresh.owner hopened
      · obtain ⟨w, hgrown, -, heq'⟩ := h.windowed
        rw [(Windowed.kernel_eq heq').1] at hsame
        obtain rfl := hgrown.eq_of_sec (hfile q' hq') hq hsame
        exact ⟨hq', hpage⟩
    · intro sec hfree hchild
      rcases hback sec (hnew sec hfree) ((h.taken sec).mpr (.inr ⟨hfree, hchild⟩)) with
        hshown | ⟨q, hq, -, hsame⟩
      · exact hshown
      · have howner := (h.window (hfile q hq)).2
        rw [hsame, hfree.owner] at howner
        exact absurd howner.symm kernelAsid_ne
  · rintro ⟨hwindow, hshown⟩
    apply Set.Subset.antisymm _ hsub
    intro sec hsec
    obtain ⟨htaken, hkept⟩ := (hend sec).mp hsec
    rcases (h.taken sec).mp htaken with hopened | ⟨hfree, hchild⟩
    · rcases (h.opened_taken sec).mp hopened with hold | ⟨q, hq, hsame⟩
      · exact hold
      · exact absurd (.inr ⟨q, (hwindow q hq).1, (hwindow q hq).2, hsame⟩) hkept
    · exact absurd (.inl (hshown sec hfree hchild)) hkept

/-- One `exec_file` from its start to its return. -/
theorem Bounded.exec (hidle : Idle s.vm) (h : Bounded s.vm)
    (hcovers : CoversFile s (.exec disk fuel fs entry sbrks))
    (hrun : (execFile disk fuel fs entry sbrks).run s = .ok () u)
    (htame : ∀ x ∈ since Machine.trace s u, Tame x) :
    Bounded u.vm ∧
      (NoneLeaked disk fuel fs entry s u ↔ AllShown disk fuel fs entry sbrks s) := by
  obtain ⟨r, o, t, file, hused, hunmap⟩ := of_execFile_ok hidle hrun htame
  obtain ⟨hgain, hread, halloc⟩ := h.read hidle hused.read hused.tame
  have hfile : ∀ q ∈ filePages entry.nbytes, q ∈ pageRange kernelLoadAddr file.nAlloc := by
    rw [← hused.nData]
    exact fun q hq => filePages_subset (hcovers _ _ hused.read) halloc hq
  obtain ⟨hsub, hiff⟩ := hused.inUse hfile hunmap
  constructor
  · have hproc : u.vm.kernelProc = r.vm.kernelProc := hunmap.kernelProc.trans hused.kernelProc
    constructor
    · rw [hproc]
      exact hread.pos
    · rw [hproc]
      exact Nat.le_trans (Nat.add_le_add_left (Nat.mul_le_mul_right _
        (card_freeSecs_le hsub)) _) hread.room
    · intro p hp hvalid
      obtain ⟨w, hgrown, -, heq⟩ := hused.windowed
      rw [hunmap.table, hused.grown.kernel, (Windowed.kernel_eq heq).1] at hvalid
      by_cases hpage : p ∈ pageRange kernelLoadAddr file.nAlloc
      · exact hgrown.window_low hpage
      · rw [hgrown.table kernelAsid p fun hin => hpage hin.2] at hvalid
        exact hread.low p hp hvalid
  · constructor
    · intro hnone f o' hopen
      obtain ⟨rfl, rfl⟩ := EStateM.Result.ok.inj (hused.opened.symm.trans hopen)
      apply hiff.mp
      rw [hnone _ _ hused.read, hgain.inUse]
    · intro hall f r' hrun'
      obtain ⟨rfl, rfl⟩ := EStateM.Result.ok.inj (hused.read.symm.trans hrun')
      have hshown := hall _ _ hused.opened
      rw [hiff.mpr hshown, hgain.inUse]

theorem notmainInit_bounded (hs : notmainInit.run s = .ok () t) : Bounded t.vm := by
  obtain ⟨u, hrun, hmap, htable, -⟩ := notmainInit_table s
  obtain rfl := (EStateM.Result.ok.inj (hrun.symm.trans hs)).2
  have hbrk : u.vm.kernelProc.heapEnd = kernelHeapAddr := by
    cases hs
    rfl
  have hsub : freeSecs u.vm ⊆ Finset.Ico 5 nPhysPages := by
    intro sec hsec
    have hfree := mem_freeSecs.mp hsec
    have howner := hfree.owner
    rw [hmap] at howner
    split at howner
    · exact absurd howner kernelAsid_ne
    · next htab =>
      have hlo := hfree.lo
      exact Finset.mem_Ico.mpr ⟨by omega, hfree.hi⟩
  have hcard := Finset.card_le_card hsub
  have hphys : nPhysPages = 512 := rfl
  have hheap : kernelHeapAddr = 5 * 2 ^ 20 := rfl
  rw [Nat.card_Ico] at hcard
  constructor
  · rw [hbrk]
    decide
  · rw [hbrk]
    omega
  · intro p hp hvalid
    have hzero : ¬ Fld.zero.Valid := by decide
    have hlow : ∀ q ∈ reservedPages, q < 0x300 := by decide
    rw [htable p hp] at hvalid
    split at hvalid
    · next hres => exact hlow p hres
    · split at hvalid
      · next htab => omega
      · exact absurd hvalid hzero

theorem KernelRun.bounded (h : KernelRun (fun s op => op.TameFrom s ∧ CoversFile s op) s) :
    Bounded s.vm := by
  induction h with
  | boot hrun => exact notmainInit_bounded hrun
  | @step s t op hs hok hrun ih =>
    have hidle := (hs.mono fun _ _ hok => hok.1).formed.1
    have htame := hok.1.of_ok hrun
    cases op with
    | code mem heap =>
      obtain ⟨-, rfl⟩ := EStateM.Result.ok.inj hrun
      exact ih
    | grow incr =>
      obtain ⟨r, s₁, hsbrk, hret⟩ := of_bind_ok hrun
      obtain ⟨-, rfl⟩ := EStateM.Result.ok.inj hret
      exact ih.sbrk hidle hsbrk htame
    | exec disk fuel fs entry sbrks => exact (ih.exec hidle hok.2 hrun htame).1

/-- After any run without a store through a global descriptor in which each file was covered by its
cluster chain, such an `exec_file` leaks no section if and only if the child saw the whole window to
the end and no page was mapped twice. -/
theorem noneLeaked_iff (h : KernelRun (fun s op => op.TameFrom s ∧ CoversFile s op) s)
    (hcovers : CoversFile s (.exec disk fuel fs entry sbrks))
    (hrun : (execFile disk fuel fs entry sbrks).run s = .ok () u)
    (htame : ∀ x ∈ since Machine.trace s u, Tame x) :
    NoneLeaked disk fuel fs entry s u ↔ AllShown disk fuel fs entry sbrks s := by
  have hidle := (h.mono fun _ _ hok => hok.1).formed.1
  exact (h.bounded.exec hidle hcovers hrun htame).2

theorem CoversFile.of_read (hle : file.nData ≤ file.nAlloc)
    (hread : (do execInitTable; fat32ReadFile kernel disk fuel fs entry).run s = .ok file r) :
    CoversFile s (.exec disk fuel fs entry sbrks) := by
  intro f r' hrun
  obtain ⟨rfl, -⟩ := EStateM.Result.ok.inj (hread.symm.trans hrun)
  exact hle

/-- A file of one byte in one cluster. -/
theorem noneLeaked_iff_oneByte : ∃ s u, notmainInit.run powerOn = .ok () s ∧
    (execFile (sectorDisk [0x41]) 2 sectorFs (sectorFile [0x41]) []).run s = .ok () u ∧
    NoneLeaked (sectorDisk [0x41]) 2 sectorFs (sectorFile [0x41]) s u := by
  obtain ⟨s, r, o, u, file, hboot, hread, hopen, hrun, halloc, hlen, htame⟩ :=
    sectorFile_given_up [0x41] (by decide)
  have hcovers : CoversFile s (.exec (sectorDisk [0x41]) 2 sectorFs (sectorFile [0x41]) []) :=
    .of_read (by rw [halloc, hlen]; decide) hread
  refine ⟨s, u, hboot, hrun, (noneLeaked_iff (.boot hboot) hcovers hrun htame).mpr ?_⟩
  intro f o' hopen'
  obtain ⟨rfl, rfl⟩ := EStateM.Result.ok.inj (hopen.symm.trans hopen')
  have hwindow : ∀ q ∈ pageRange kernelLoadAddr 512, q ∈ filePages (sectorFile [0x41]).nbytes := by
    decide
  rw [View.childPages_short (by decide), halloc]
  exact ⟨fun q hq => ⟨hwindow q hq, List.not_mem_nil⟩, .nil⟩

/-- An empty file in one cluster: its page of the window is the kernel's for good. -/
theorem empty_leaked : ∃ s u, KernelRun CoversFile s ∧
    CoversFile s (.exec (sectorDisk []) 2 sectorFs (sectorFile []) []) ∧
    (execFile (sectorDisk []) 2 sectorFs (sectorFile []) []).run s = .ok () u ∧
    ¬ NoneLeaked (sectorDisk []) 2 sectorFs (sectorFile []) s u := by
  obtain ⟨s, r, o, u, file, hboot, hread, hopen, hrun, halloc, hlen, htame⟩ :=
    sectorFile_given_up [] (by decide)
  have hcovers : CoversFile s (.exec (sectorDisk []) 2 sectorFs (sectorFile []) []) :=
    .of_read (by rw [halloc, hlen]; decide) hread
  refine ⟨s, u, .boot hboot, hcovers, hrun, ?_⟩
  have hidle := (notmainInit_formed hboot).1
  rw [((notmainInit_bounded hboot).exec hidle hcovers hrun htame).2]
  intro hall
  have hpage : 0x100 ∈ pageRange kernelLoadAddr 512 := by decide
  have hnone : 0x100 ∉ filePages (sectorFile []).nbytes := by decide
  have hshown := (hall _ o hopen).1
  rw [halloc] at hshown
  exact hnone (hshown 0x100 hpage).1

end Exec

end SimplePiOS.Kernel
