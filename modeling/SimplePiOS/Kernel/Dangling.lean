import SimplePiOS.Kernel.WellFormed

/-! What `mmu_unmap` leaves of the kernel's own table over runs of heap growth and `exec_file`. -/
namespace SimplePiOS.Kernel
open Lib Libpi

/-- Each private entry of the kernel's table shows a section that the map gives to the kernel, and
no two valid ones show the same. -/
structure NoDangling (v : Vm) : Prop where
  owned : ∀ p < nVirtPages, (v.table kernelAsid p).Private →
    v.paddrToAsidMap (v.table kernelAsid p).sec = kernelAsid
  apart : ∀ p < nVirtPages, ∀ q < nVirtPages, (v.table kernelAsid p).Valid →
    (v.table kernelAsid q).Valid → (v.table kernelAsid p).sec = (v.table kernelAsid q).sec → p = q

/-- No entry that `mmu_unmap` takes for the child's own shows a section of the kernel's. -/
def SparesKernel (v : Vm) : Prop :=
  ∀ p < nVirtPages, (v.table childAsid p).Released →
    v.paddrToAsidMap (v.table childAsid p).sec ≠ kernelAsid

/-- The kernel's table, entry by entry: a section of RAM of its own, a global one, or nothing. -/
structure KernelSound (v : Vm) : Prop where
  owns : Owns v kernelAsid {p | p < nVirtPages ∧ (v.table kernelAsid p).Private}
  others : ∀ p < nVirtPages, (v.table kernelAsid p).Private ∨ v.table kernelAsid p = Fld.zero ∨
    p ∈ reservedPages ∧ v.table kernelAsid p = identityFld p
  ram : ∀ sec, v.paddrToAsidMap sec = kernelAsid → 1 ≤ sec ∧ sec < nPhysPages

/-- The pages of the operation's program, if it has one, include all those at which the child sees
the load window. -/
def CoversWindow (s : Machine) : KernelOp → Prop
  | .exec disk fuel fs entry sbrks =>
    ∀ file t, (do execInitTable; execOpen disk fuel fs entry).run s = .ok file t →
      ∀ q ∈ filePages entry.nbytes, childPage q ∈ t.view.childPages entry.nbytes sbrks
  | _ => True

section Sound
variable {v w : Vm} {page sec : ℕ} {sync : Bool}

theorem reserved_sec {p : ℕ} (hp : p ∈ reservedPages) :
    (identityFld p).sec = p ∧ (p = 0 ∨ nPhysPages ≤ p) := by
  simp only [reservedPages, List.mem_cons, List.not_mem_nil, or_false] at hp
  rcases hp with rfl | rfl | rfl | rfl | rfl
  all_goals decide

namespace KernelSound

/-- The kernel's table is as it was, and so is what the kernel owns. -/
theorem kept (h : KernelSound v) (htable : w.table kernelAsid = v.table kernelAsid)
    (hmap : ∀ i, w.paddrToAsidMap i = kernelAsid ↔ v.paddrToAsidMap i = kernelAsid) :
    KernelSound w := by
  constructor
  · rw [htable]
    refine ⟨?_, ?_, ?_, ?_, ?_⟩
    · rw [htable]
      exact h.owns.priv
    · rw [htable]
      exact h.owns.lo
    · rw [htable]
      exact h.owns.hi
    · rw [htable]
      exact fun p hp => (hmap _).mpr (h.owns.owner p hp)
    · rw [htable]
      exact h.owns.inj
  · rw [htable]
    exact h.others
  · exact fun i howner => h.ram i ((hmap i).mp howner)

theorem noDangling (h : KernelSound v) : NoDangling v := by
  have hzero : ¬ Fld.zero.Valid := by decide
  have hglobal : ∀ p < nVirtPages, (v.table kernelAsid p).Valid → ¬ (v.table kernelAsid p).Private →
      (v.table kernelAsid p).sec = p ∧ (p = 0 ∨ nPhysPages ≤ p) := by
    intro p hp hvalid hpriv
    rcases (h.others p hp).resolve_left hpriv with heq | ⟨hres, heq⟩
    · rw [heq] at hvalid
      exact absurd hvalid hzero
    · rw [heq]
      exact reserved_sec hres
  constructor
  · exact fun p hp hpriv => h.owns.owner p ⟨hp, hpriv⟩
  · intro p hp q hq hvp hvq heq
    by_cases hpp : (v.table kernelAsid p).Private
    · by_cases hpq : (v.table kernelAsid q).Private
      · exact h.owns.inj ⟨hp, hpp⟩ ⟨hq, hpq⟩ heq
      · have hlo := h.owns.lo p ⟨hp, hpp⟩
        have hhi := h.owns.hi p ⟨hp, hpp⟩
        obtain ⟨hsec, hout⟩ := hglobal q hq hvq hpq
        omega
    · by_cases hpq : (v.table kernelAsid q).Private
      · have hlo := h.owns.lo q ⟨hq, hpq⟩
        have hhi := h.owns.hi q ⟨hq, hpq⟩
        obtain ⟨hsec, hout⟩ := hglobal p hp hvp hpp
        omega
      · rw [(hglobal p hp hvp hpp).1, (hglobal q hq hvq hpq).1] at heq
        exact heq

/-- The kernel maps a page, whatever was there before. -/
theorem mapRam (h : KernelSound v) (hsec : Free v sec) :
    KernelSound (v.mapRam kernelAsid page sec sync) := by
  have hold : ∀ p, p ≠ page →
      (v.mapRam kernelAsid page sec sync).table kernelAsid p = v.table kernelAsid p := by
    intro p hp
    rw [mapRam_table, if_neg (fun hin => hp hin.2)]
  constructor
  · apply (h.owns.mapRam kernelAsid_ne hsec).mono
    rintro p ⟨hp, hpriv⟩
    by_cases hpage : p = page
    · exact .inl hpage
    · rw [hold p hpage] at hpriv
      exact .inr ⟨hp, hpriv⟩
  · intro p hp
    by_cases hpage : p = page
    · left
      rw [mapRam_table, if_pos ⟨rfl, hpage⟩]
      exact ramFld_private
    · rw [hold p hpage]
      exact h.others p hp
  · intro i howner
    rw [mapRam_owner] at howner
    split at howner
    · next heq =>
      rw [heq]
      exact ⟨hsec.lo, hsec.hi⟩
    · exact h.ram i howner

/-- The kernel maps pages that may have been its own before. -/
theorem grown {pages : List ℕ} (h : KernelSound v) (hgrown : Grown v w kernelAsid pages) :
    KernelSound w := by
  have hold : ∀ p, p ∉ pages → w.table kernelAsid p = v.table kernelAsid p :=
    fun p hp => hgrown.table kernelAsid p fun hin => hp hin.2
  constructor
  · apply (hgrown.owns kernelAsid_ne h.owns).mono
    rintro p ⟨hp, hpriv⟩
    by_cases hpage : p ∈ pages
    · exact .inr hpage
    · rw [hold p hpage] at hpriv
      exact .inl ⟨hp, hpriv⟩
  · intro p hp
    by_cases hpage : p ∈ pages
    · exact .inl (hgrown.priv p hpage)
    · rw [hold p hpage]
      exact h.others p hp
  · intro i howner
    by_cases hnew : ∀ p ∈ pages, (w.table kernelAsid p).sec ≠ i
    · rw [hgrown.owner i hnew] at howner
      exact h.ram i howner
    · push Not at hnew
      obtain ⟨p, hp, rfl⟩ := hnew
      exact ⟨(hgrown.fresh p hp).lo, (hgrown.fresh p hp).hi⟩

theorem childGrown {pages : List ℕ} (h : KernelSound v) (hgrown : ChildGrown v pages w) :
    KernelSound w := by
  apply h.kept hgrown.kernel
  intro i
  rcases hgrown.owner i with hsame | ⟨hfree, hchild⟩
  · rw [hsame]
  · rw [hchild, hfree.owner]
    exact ⟨fun h => absurd h childAsid_ne_kernelAsid, fun h => absurd h.symm kernelAsid_ne⟩

/-- What `mmu_unmap` gives back is not the kernel's. -/
theorem unmapped (h : KernelSound v) (hspares : SparesKernel v)
    (hunmap : Unmapped v w childAsid (List.range nVirtPages)) : KernelSound w := by
  apply h.kept (congrFun hunmap.table kernelAsid)
  intro i
  by_cases hback : ∃ p ∈ List.range nVirtPages, (v.table childAsid p).Released ∧
      (v.table childAsid p).sec = i
  · obtain ⟨p, hp, hrel, rfl⟩ := hback
    rw [hunmap.back p hp hrel]
    exact ⟨fun h => absurd h.symm kernelAsid_ne,
      fun h => absurd h (hspares p (List.mem_range.mp hp) hrel)⟩
  · push Not at hback
    rw [hunmap.kept i hback]

end KernelSound

end Sound

section Run
variable {s t u : Machine} {disk : Disk} {fuel : ℕ} {fs : Fat32} {entry : Dirent} {sbrks : List ℕ}
  {H : Moment → Prop} {A : Vm → Prop}

theorem idle_heapStable : HeapStable Idle fun _ => True :=
  ⟨fun _ hv => hv, fun _ _ _ _ => trivial,
    fun _ _ _ _ hv _ => ⟨hv.ttbr, hv.currentProc, hv.kernelProc⟩,
    fun _ _ hv => ⟨hv.ttbr, hv.currentProc, hv.kernelProc⟩, fun _ _ => trivial⟩

/-- The kernel may grow its heap. -/
theorem sound_heapStable (hA : HeapStable A fun _ => True) :
    HeapStable (fun v => A v ∧ KernelSound v) fun _ => True :=
  hA.and (fun _ _ _ _ hv hsec => hv.mapRam hsec) fun _ _ hv => hv.kept rfl fun _ => .rfl

theorem notmainInit_sound (hs : notmainInit.run s = .ok () t) : KernelSound t.vm := by
  obtain ⟨u, hrun, hmap, htable, -⟩ := notmainInit_table s
  obtain rfl := (EStateM.Result.ok.inj (hrun.symm.trans hs)).2
  have hram : ∀ p, 1 ≤ p ∧ p < 5 → p ∉ reservedPages ∧ p < nVirtPages ∧ p < nPhysPages := by
    rintro p ⟨hlo, hhi⟩
    interval_cases p <;> decide
  have hpriv : ∀ p < nVirtPages, (u.vm.table kernelAsid p).Private →
      (1 ≤ p ∧ p < 5) ∧ (u.vm.table kernelAsid p).sec = p := by
    intro p hp hpriv
    have hzero : ¬ Fld.zero.Private := by decide
    rw [htable p hp] at hpriv ⊢
    split at hpriv
    · exact absurd hpriv (identityFld_not_private p)
    · next hres =>
      rw [if_neg hres]
      split at hpriv
      · next htab =>
        rw [if_pos htab]
        exact ⟨htab, ramFld_sec (hram p htab).2.2⟩
      · exact absurd hpriv hzero
  refine ⟨⟨fun p hp => hp.2, ?_, ?_, ?_, ?_⟩, ?_, ?_⟩
  · rintro p ⟨hp, hp'⟩
    obtain ⟨htab, hsec⟩ := hpriv p hp hp'
    rw [hsec]
    exact htab.1
  · rintro p ⟨hp, hp'⟩
    obtain ⟨htab, hsec⟩ := hpriv p hp hp'
    rw [hsec]
    exact (hram p htab).2.2
  · rintro p ⟨hp, hp'⟩
    obtain ⟨htab, hsec⟩ := hpriv p hp hp'
    rw [hsec, hmap, if_pos htab]
  · rintro p ⟨hp, hp'⟩ q ⟨hq, hq'⟩ heq
    dsimp only at heq
    rw [(hpriv p hp hp').2, (hpriv q hq hq').2] at heq
    exact heq
  · intro p hp
    rw [htable p hp]
    by_cases hres : p ∈ reservedPages
    · exact .inr (.inr ⟨hres, if_pos hres⟩)
    · rw [if_neg hres]
      by_cases htab : 1 ≤ p ∧ p < 5
      · rw [if_pos htab]
        exact .inl ramFld_private
      · exact .inr (.inl (if_neg htab))
  · intro sec howner
    rw [hmap] at howner
    split at howner
    · next htab => exact ⟨htab.1, (hram sec htab).2.2⟩
    · exact absurd howner.symm kernelAsid_ne

/-- The file is read, into sections of the kernel's. -/
theorem KernelSound.read {file : PiFile} (hidle : Idle s.vm) (h : KernelSound s.vm)
    (hrun : (do execInitTable; fat32ReadFile kernel disk fuel fs entry).run s = .ok file t)
    (htame : ∀ x ∈ since Machine.trace s t, Tame x) : KernelSound t.vm := by
  obtain ⟨_, s₁, hinit, hread⟩ := of_bind_ok hrun
  have hstarting := starting_execInitTable hidle hinit
  have hsound : KernelSound s₁.vm := by
    cases hinit
    exact h.kept rfl fun _ => .rfl
  have hstart : Extends Machine.trace s s₁ := storeless_execInitTable.extends_ok hinit
  have hsteps := Steps.fat32ReadFile (H := Tame) disk fuel fs entry (stable_onVm _)
    (sound_heapStable starting_heapStable).kernelSbrk
  have hof := hsteps.of_ok hread
  exact (hof.elim ⟨hstarting, hsound⟩ (hstart.forall_since (hsteps.extends_ok hread) htame).2).1.1.2

/-- One `exec_file` from its start to its return. -/
theorem KernelSound.exec (hidle : Idle s.vm) (h : KernelSound s.vm)
    (hrun : (execFile disk fuel fs entry sbrks).run s = .ok () u)
    (htame : ∀ x ∈ since Machine.trace s u, Tame x) :
    (CoversWindow s (.exec disk fuel fs entry sbrks) → KernelSound u.vm) ∧
      (NoDangling u.vm → CoversWindow s (.exec disk fuel fs entry sbrks)) := by
  obtain ⟨r, o, t, file, hused, hunmap⟩ := of_execFile_ok hidle hrun htame
  have hopened : KernelSound o.vm := by
    obtain ⟨v, hgrown, -, heq⟩ := hused.windowed
    have hread := h.read hidle hused.read hused.tame
    have hwindow : KernelSound v :=
      KernelSound.grown (hread.kept (w := r.vm.openFile { file with data := kernelLoadAddr }) rfl
        fun _ => .rfl) hgrown
    obtain ⟨htable, hmap⟩ := Windowed.kernel_eq heq
    apply hwindow.kept htable
    intro i
    rw [hmap]
  have hend : KernelSound t.vm := hopened.childGrown hused.grown
  constructor
  · intro hcovers
    have hpages := hcovers _ o hused.opened
    apply hend.unmapped _ hunmap
    intro p hp hrel
    by_cases hpage : p ∈ o.view.childPages entry.nbytes sbrks
    · rw [hused.grown.taken p hpage]
      exact childAsid_ne_kernelAsid
    · rw [hused.grown.old p hpage] at hrel
      obtain ⟨q, hq, rfl⟩ := hused.windowed.released hused.starting hp hrel
      rw [hused.nData] at hq
      exact absurd (hpages q hq) hpage
  · intro hw f o' hopen q hq
    obtain ⟨-, rfl⟩ := EStateM.Result.ok.inj (hused.opened.symm.trans hopen)
    by_contra hpage
    rw [← hused.nData] at hq
    obtain ⟨hpriv, hrel, hsec⟩ := hused.windowed.shown hq
    rw [← hused.grown.old _ hpage] at hrel hsec
    have hback := hunmap.back _ (List.mem_range.mpr (childPage_lt q)) hrel
    have howned := hw.owned q (filePages_lt hq)
    rw [hunmap.table, hused.grown.kernel, ← hsec, hback] at howned
    exact kernelAsid_ne (howned hpriv).symm

theorem KernelRun.sound (h : KernelRun (fun s op => op.TameFrom s ∧ CoversWindow s op) s) :
    KernelSound s.vm := by
  induction h with
  | boot hrun => exact notmainInit_sound hrun
  | @step s t op hs hok hrun ih =>
    have hidle := (hs.mono fun _ _ hok => hok.1).formed.1
    have htame := hok.1.of_ok hrun
    cases op with
    | code mem heap =>
      obtain ⟨-, rfl⟩ := EStateM.Result.ok.inj hrun
      exact ih
    | grow incr =>
      obtain ⟨r, s₁, hsbrk, hret⟩ := of_bind_ok hrun
      obtain ⟨-, rfl⟩ := EStateM.Result.ok.inj hret
      have hsteps := (sound_heapStable idle_heapStable).kernelSbrk (H := Tame) incr
      exact ((hsteps.of_ok hsbrk).elim ⟨hidle, ih⟩ htame).1.2
    | exec disk fuel fs entry sbrks => exact (ih.exec hidle hrun htame).1 hok.2

/-- In a run without a store through a global descriptor in which every program's pages cover the
window, no state has a dangling mapping of the kernel's; and the next operation, if it makes no such
store, leaves none if and only if its program's pages do. -/
theorem noDangling_iff (h : KernelRun (fun s op => op.TameFrom s ∧ CoversWindow s op) s) :
    NoDangling s.vm ∧ ∀ op t, op.TameFrom s → op.run.run s = .ok () t →
      (NoDangling t.vm ↔ CoversWindow s op) := by
  refine ⟨h.sound.noDangling, ?_⟩
  intro op t htame hrun
  have hcovered : CoversWindow s op → NoDangling t.vm :=
    fun hok => (KernelRun.step op h ⟨htame, hok⟩ hrun).sound.noDangling
  refine ⟨?_, hcovered⟩
  have hidle := (h.mono fun _ _ hok => hok.1).formed.1
  cases op with
  | code => exact fun _ => trivial
  | grow => exact fun _ => trivial
  | exec => exact (h.sound.exec hidle hrun (htame.of_ok hrun)).2

/-- An empty file is run. -/
theorem noDangling_iff_empty : ∃ s t, notmainInit.run powerOn = .ok () s ∧
    (execFile (sectorDisk []) 2 sectorFs (sectorFile []) []).run s = .ok () t ∧ NoDangling t.vm := by
  obtain ⟨s, r, o, t, file, hboot, -, -, hrun, -, -, htame⟩ := sectorFile_given_up [] (by decide)
  have hcovers : CoversWindow s (.exec (sectorDisk []) 2 sectorFs (sectorFile []) []) := by
    intro _ _ _ q hq
    have hnone : filePages 0 = [] := by decide
    change q ∈ filePages 0 at hq
    rw [hnone] at hq
    exact absurd hq List.not_mem_nil
  have hop : (KernelOp.exec (sectorDisk []) 2 sectorFs (sectorFile []) []).TameFrom s :=
    .of_run hrun htame
  exact ⟨s, t, hboot, hrun, ((noDangling_iff (.boot hboot)).2 _ t hop hrun).mpr hcovers⟩

/-- After a file of one byte the kernel's table still shows the section that `mmu_unmap` gave back. -/
theorem oneByte_dangling : ∃ s, KernelRun (fun _ _ => True) s ∧ ¬ NoDangling s.vm := by
  obtain ⟨s, r, o, t, file, hboot, -, hopen, hrun, -, -, htame⟩ :=
    sectorFile_given_up [0x41] (by decide)
  have hidle := (notmainInit_formed hboot).1
  have hsound := notmainInit_sound hboot
  refine ⟨t, .step (.exec _ _ _ _ _) (.boot hboot) trivial hrun, ?_⟩
  intro hnone
  have hcovers := (hsound.exec hidle hrun htame).2 hnone
  have hpages : filePages (sectorFile [0x41]).nbytes = [0x100] := by decide
  have hmem := hcovers _ o hopen 0x100 (by rw [hpages]; exact List.mem_singleton.mpr rfl)
  rw [View.childPages_short (by decide)] at hmem
  exact absurd hmem List.not_mem_nil

end Run

end SimplePiOS.Kernel
