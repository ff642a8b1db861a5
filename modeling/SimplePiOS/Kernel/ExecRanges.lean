import SimplePiOS.Kernel.ExecRules
import SimplePiOS.Kernel.Isolation
import SimplePiOS.Kernel.LoadTargets

/-! The pages that `exec_file` maps for a program, one after the other: those of its file's ranges and
those of its `sbrk` calls. -/
namespace SimplePiOS.Kernel
open Lib Libpi

/-- The pages that are mapped for a program, in order. -/
def View.childPages (w : View) (nData : ℕ) (sbrks : List ℕ) : List ℕ :=
  rangePages (w.childRanges nData sbrks)

/-- The pages of the calls of a program that is started. -/
def heapPagesOf (start : ℕ) (sbrks : List ℕ) : List ℕ :=
  rangePages (if start = 0 then [] else sbrkRanges start sbrks)

/-- Assertions about the pages mapped for the child so far. Its registers, the process whose turn it
is and the bounds of its heap have no part in them. -/
structure PageRules (P : List ℕ → Vm → Prop) : Prop where
  mapRam : ∀ done v page sec sync, P done v → Free v sec →
    P (done ++ [page]) (v.mapRam childAsid page sec sync)
  congr : ∀ done v w, w.paddrToAsidMap = v.paddrToAsidMap → w.table = v.table → P done v → P done w

/-- A child with its heap at `start` and its break at `brk`, in the turn of `pid`. -/
structure Mapping (P : List ℕ → Vm → Prop) (pid : Pid) (start brk : ℕ) (done : List ℕ) (v : Vm) :
    Prop where
  frame : ∃ f, v.frame = some f ∧ f.proc = ⟨start, brk, childAsid⟩
  currentProc : v.currentProc = pid
  pages : P done v

section Lists

theorem rangePages_append (l l' : List (ℕ × ℕ)) :
    rangePages (l ++ l') = rangePages l ++ rangePages l' :=
  List.flatMap_append

theorem rangePages_singleton (r : ℕ × ℕ) : rangePages [r] = pageRange r.1 r.2 := List.append_nil _

/-- Without an increment nothing is mapped. -/
theorem pageRange_zero (brk : ℕ) : pageRange brk 0 = [] := by
  have hsame : sub32 (add32 brk 0) 1 = sub32 brk 1 := by
    unfold sub32 add32
    omega
  unfold pageRange
  simp only [hsame, Nat.sub_self, List.range'_zero]

/-- A file that `elf_load` gives up keeps the ranges up to there. -/
theorem View.childPages_none {w : View} {n : ℕ} {sbrks : List ℕ}
    (h : (w.elfLoad kernelLoadAddr n).result = .ok none) :
    w.childPages n sbrks = rangePages (w.elfLoad kernelLoadAddr n).ranges := by
  unfold View.childPages View.childRanges
  simp only [h, List.append_nil]

theorem View.childPages_some {w : View} {n : ℕ} {sbrks : List ℕ} {instrLst : List LoadInstr}
    (h : (w.elfLoad kernelLoadAddr n).result = .ok (some instrLst)) :
    w.childPages n sbrks = rangePages (w.elfLoad kernelLoadAddr n).ranges ++
      heapPagesOf ((w.elfLoad kernelLoadAddr n).heapStart 0) sbrks := by
  unfold View.childPages View.childRanges heapPagesOf
  simp only [h, rangePages_append]

theorem sbrkRanges_snoc (brk : ℕ) (sbrks : List ℕ) (incr : ℕ) :
    sbrkRanges brk (sbrks ++ [incr]) = sbrkRanges brk sbrks ++ [(sbrks.foldl nextBrk brk, incr)] := by
  induction sbrks generalizing brk with
  | nil => rfl
  | cons i sbrks ih =>
    have hrest := ih (nextBrk brk i)
    simp only [List.cons_append, sbrkRanges, List.foldl_cons, hrest]

end Lists

section Rules
variable {P : List ℕ → Vm → Prop} {H : Moment → Prop} {pid : Pid} {start brk : ℕ} {done : List ℕ}
  {v : Vm}

theorem Mapping.setHeapEnd (hP : PageRules P) (hv : Mapping P pid start brk done v) (e : ℕ) :
    Mapping P pid start e done (v.setHeapEnd e .child) := by
  obtain ⟨f, hf, hproc⟩ := hv.frame
  refine ⟨⟨_, congrArg (Option.map _) hf, ?_⟩, hv.currentProc, hP.congr _ v _ rfl rfl hv.pages⟩
  dsimp only
  rw [hproc]

theorem Mapping.setHeapStart (hP : PageRules P) (hv : Mapping P pid start brk done v) (addr : ℕ) :
    Mapping P pid addr brk done (v.setHeapStart addr) := by
  obtain ⟨f, hf, hproc⟩ := hv.frame
  refine ⟨⟨_, congrArg (Option.map _) hf, ?_⟩, hv.currentProc, hP.congr _ v _ rfl rfl hv.pages⟩
  dsimp only
  rw [hproc]

theorem Mapping.turn (hP : PageRules P) (hv : Mapping P pid start brk done v) (pid' : Pid) :
    Mapping P pid' start brk done { v with currentProc := pid' } :=
  ⟨hv.frame, rfl, hP.congr _ v _ rfl rfl hv.pages⟩

theorem Mapping.registers (hP : PageRules P) (hv : Mapping P pid start brk done v) (a t : Asid) :
    Mapping P pid start brk done { v with asid := a, ttbr := t } :=
  ⟨hv.frame, hv.currentProc, hP.congr _ v _ rfl rfl hv.pages⟩

theorem Mapping.child (hv : Mapping P pid start brk done v) :
    ∃ f, v.frame = some f ∧ f.proc.asid = childAsid := by
  obtain ⟨f, hf, hproc⟩ := hv.frame
  exact ⟨f, hf, by rw [hproc]⟩

theorem Mapping.proc (hv : Mapping P pid start brk done v) :
    v.proc .child = ⟨start, brk, childAsid⟩ := by
  obtain ⟨f, hf, hproc⟩ := hv.frame
  rw [proc_child hf, hproc]

namespace PageRules

/-- The pages of a range are done in order. -/
theorem mmuMapToMem (hP : PageRules P) (addr size : ℕ) (sync : Bool) :
    Steps H (InVm fun _ => True) (OnVm (Mapping P pid start brk done))
      (mmuMapToMem childAsid addr size sync) fun _ =>
        OnVm (Mapping P pid start brk (done ++ pageRange addr size)) := by
  have hloop : Steps H (InVm fun _ => True) (OnVm (Mapping P pid start brk (done ++ [])))
      (forM (pageRange addr size) (mapPage childAsid sync)) fun _ =>
        OnVm (Mapping P pid start brk (done ++ pageRange addr size)) := by
    apply Traced.forM (I := fun pages => OnVm (Mapping P pid start brk (done ++ pages)))
    intro pages page rest _
    apply Steps.mapPage_ram
    · exact fun _ _ _ _ => trivial
    · intro v sec hv hsec
      have hpages := hP.mapRam _ v page sec sync hv.pages hsec
      rw [List.append_assoc] at hpages
      exact ⟨hv.frame, hv.currentProc, hpages⟩
    · exact fun _ _ => trivial
  rw [List.append_nil] at hloop
  exact hloop

theorem setProcidTtbr0 (hP : PageRules P) (procid pt : Asid) :
    Steps H (InVm fun _ => True) (OnVm (Mapping P pid start brk done)) (setProcidTtbr0 procid pt)
      fun _ => OnVm (Mapping P pid start brk done) := by
  have hsteps : Steps H (InVm fun _ => True) (OnVm (Mapping P pid start brk done))
      (Kernel.setProcidTtbr0 procid pt) fun _ s => Mapping P pid start brk done s.vm ∧ s.vm.ttbr = pt :=
    .setProcidTtbr0_vm (fun v a t hv => hv.registers hP a t) (fun _ _ => trivial) procid pt
  exact hsteps.post fun _ s hs => hs.1

/-- One `sbrk` call of the program. -/
theorem kernelSbrk [Calm H] (hP : PageRules P) (incr : ℕ) :
    Steps H (InVm fun _ => True) (OnVm (Mapping P .child start brk done)) (kernelSbrk incr) fun _ =>
      OnVm (Mapping P .child start (nextBrk brk incr) (done ++ pageRange brk incr)) := by
  apply Steps.kernelSbrk_child (M := Mapping P .child start brk (done ++ pageRange brk incr))
    (stable_onVm _)
  · exact fun v hv => hv.currentProc
  · exact fun v hv => hv.child
  · exact hP.setProcidTtbr0
  · intro v hv
    rw [hv.proc]
    exact hP.mmuMapToMem brk incr true
  · exact hP.setProcidTtbr0
  · intro hne v w hv hw
    have hnext : nextBrk brk incr = add32 brk incr := if_neg hne
    rw [hv.proc, hnext]
    exact hw.setHeapEnd hP _
  · intro hzero v hv
    have hnext : nextBrk brk 0 = brk := if_pos rfl
    rw [hzero, hnext, pageRange_zero, List.append_nil]
    exact hv
  · exact fun _ _ => trivial

theorem runProgram [Calm H] (hP : PageRules P) (sbrks : List ℕ) :
    Steps H (InVm fun _ => True) (OnVm (Mapping P .child start brk done)) (runProgram sbrks) fun _ =>
      OnVm (Mapping P .child start (sbrks.foldl nextBrk brk)
        (done ++ rangePages (sbrkRanges brk sbrks))) := by
  let Past : List ℕ → Vm → Prop := fun past =>
    Mapping P .child start (past.foldl nextBrk brk) (done ++ rangePages (sbrkRanges brk past))
  have hcall : ∀ past incr, Steps H (InVm fun _ => True) (OnVm (Past past)) (Kernel.kernelSbrk incr)
      fun _ => OnVm (Past (past ++ [incr])) := by
    intro past incr
    have hone : Past (past ++ [incr]) = Mapping P .child start (nextBrk (past.foldl nextBrk brk) incr)
        (done ++ rangePages (sbrkRanges brk past) ++ pageRange (past.foldl nextBrk brk) incr) := by
      unfold Past
      rw [List.foldl_append, sbrkRanges_snoc, rangePages_append, rangePages_singleton,
        ← List.append_assoc]
      rfl
    rw [hone]
    exact hP.kernelSbrk incr
  have hloop : Steps H (InVm fun _ => True) (OnVm (Past [])) (Kernel.runProgram sbrks) fun _ =>
      OnVm (Past sbrks) := by
    apply Traced.forM (I := fun past => OnVm (Past past))
    intro past incr rest _
    apply Traced.bind (hcall past incr)
    intro _
    exact .pure fun s hs => hs
  have hnone : Past [] = Mapping P .child start brk done := by
    unfold Past
    exact congrArg (Mapping P .child start brk) (List.append_nil _)
  rw [hnone] at hloop
  exact hloop

/-- The jump starts the program, if it has a heap. -/
theorem jump [Calm H] (hP : PageRules P) (sbrks : List ℕ) (a : ℕ) :
    Steps H (InVm fun _ => True) (OnVm (Mapping P .kernel start brk done))
      (execLoadInstr sbrks (.jump a)) fun _ =>
        OnVm fun v => ∃ brk', Mapping P .kernel start brk' (done ++ heapPagesOf start sbrks) v := by
  unfold heapPagesOf
  by_cases h0 : start = 0
  · rw [if_pos h0]
    apply Steps.jump (fun _ => False) (fun _ => False) (fun _ => False)
    · intro s _ hs
      have hnone : done ++ rangePages [] = done := List.append_nil _
      rw [hnone]
      exact ⟨brk, hs⟩
    · rintro s h rfl hne hs
      rw [hs.proc] at hne
      exact absurd h0 hne
    · exact fun s hs => hs.elim
    · exact .of_false (growing_runProgram sbrks) fun s hs => hs
    · exact fun s hs => hs.elim
    · exact fun s hs => hs.elim
  · rw [if_neg h0]
    apply Steps.jump (OnVm (Mapping P .kernel start start done))
      (OnVm (Mapping P .child start start done))
      (OnVm (Mapping P .child start (sbrks.foldl nextBrk start)
        (done ++ rangePages (sbrkRanges start sbrks))))
    · intro s hzero hs
      rw [hs.proc] at hzero
      exact absurd hzero h0
    · rintro s h rfl _ hs _
      rw [hs.proc]
      exact ⟨Mapping.setHeapEnd hP hs start, trivial⟩
    · exact fun s hs _ => ⟨Mapping.turn hP hs .child, trivial⟩
    · exact hP.runProgram sbrks
    · exact fun s hs => hs.currentProc
    · exact fun s hs _ => ⟨⟨_, Mapping.turn hP hs .kernel⟩, trivial⟩

/-- Copying and clearing map nothing, and the program is run once. -/
theorem execLoadInstrs [Calm H] (hP : PageRules P) (sbrks : List ℕ) {loads : List LoadInstr}
    (hloads : ∀ instr ∈ loads, instr.IsLoad) (a : ℕ) :
    Steps H (InVm fun _ => True) (OnVm (Mapping P .kernel start brk done))
      (execLoadInstrs sbrks (loads ++ [.jump a])) fun _ =>
        OnVm fun v => ∃ brk', Mapping P .kernel start brk' (done ++ heapPagesOf start sbrks) v := by
  induction loads with
  | nil =>
    apply Traced.bind (hP.jump sbrks a)
    intro go
    apply Traced.ite
    · exact fun _ => .pure fun s hs => hs
    · exact fun _ => .pure fun s hs => hs
  | cons instr loads ih =>
    have hrest := ih fun i hi => hloads i (List.mem_cons_of_mem _ hi)
    have hinstr : Steps H (InVm fun _ => True) (OnVm (Mapping P .kernel start brk done))
        (execLoadInstr sbrks instr) fun go s => Mapping P .kernel start brk done s.vm ∧ go = true := by
      cases instr with
      | copy dstAddr srcAddr size =>
        apply Traced.bind (Steps.of_still (stable_onVm _) (still_memcpy _ _ _))
        intro _
        exact .pure fun s hs => ⟨hs, rfl⟩
      | zero dstAddr size =>
        apply Traced.bind (Steps.of_still (stable_onVm _) (still_memset _ _ _))
        intro _
        exact .pure fun s hs => ⟨hs, rfl⟩
      | jump dstAddr => exact (hloads (.jump dstAddr) List.mem_cons_self).elim
    apply Traced.bind hinstr
    intro go
    apply Traced.ite
    · exact fun _ => hrest.pre fun s hs => hs.1
    · intro hstop
      exact .pure fun s hs => absurd hs.2 hstop

/-- What is mapped from the call of `elf_load` up to the one of `mmu_unmap`, for a file that reads
as `w`. -/
theorem execProgram [Calm H] (hP : PageRules P) {w : View} (sbrks : List ℕ) {file : PiFile}
    (hdata : file.data = kernelLoadAddr) :
    Steps H (InVm fun _ => True)
      (fun s => (Mapping P .kernel 0 0 [] s.vm ∧ s.vm.ttbr = kernelAsid) ∧ s.view = w)
      (execProgram sbrks file) fun _ => OnVm (P (w.childPages file.nData sbrks)) := by
  let plan := w.elfLoad kernelLoadAddr file.nData
  let Load : ℕ → List (ℕ × ℕ) → Machine → Prop := fun start done =>
    OnVm fun v => Mapping P .kernel start 0 (rangePages done) v ∧ (done = [] → v.ttbr = kernelAsid)
  have hload : Steps H (InVm fun _ => True)
      (fun s => (Mapping P .kernel 0 0 [] s.vm ∧ s.vm.ttbr = kernelAsid) ∧ s.view = w)
      (elfLoad kernelLoadAddr file.nData childAsid) fun r s =>
        Mapping P .kernel (plan.heapStart 0) 0 (rangePages plan.ranges) s.vm ∧ plan.result = .ok r := by
    apply Traced.pre (L := fun s => Load 0 [] s ∧ s.view = w) _
      fun s hs => ⟨⟨hs.1.1, fun _ => hs.1.2⟩, hs.2⟩
    apply Steps.elfLoad_ranges (L := Load) 0 (stable_onVm _)
    · exact fun s hs => hs.2 rfl
    · intro start done r _
      apply (hP.mmuMapToMem r.1 r.2 false).conseq (fun s hs => hs.1)
      intro _ s hs
      refine ⟨?_, fun hnil => (List.append_ne_nil_of_right_ne_nil done (List.cons_ne_nil r []) hnil).elim⟩
      rw [rangePages_append, rangePages_singleton]
      exact hs
    · exact fun start done addr s hs _ => ⟨⟨hs.1.setHeapStart hP addr, hs.2⟩, trivial⟩
    · exact fun r s hs hr _ => ⟨⟨hs.1, hr⟩, trivial⟩
  unfold Kernel.execProgram
  rw [hdata]
  apply Traced.bind hload
  intro r
  apply Traced.assume _
  · intro hresult
    cases r with
    | none =>
      have hpages : w.childPages file.nData sbrks = rangePages plan.ranges :=
        View.childPages_none hresult
      rw [hpages]
      exact .pure fun s hs => hs.pages
    | some instrLst =>
      have hpages : w.childPages file.nData sbrks =
          rangePages plan.ranges ++ heapPagesOf (plan.heapStart 0) sbrks :=
        View.childPages_some hresult
      obtain ⟨-, a, rfl⟩ := View.of_elfLoad_ok hresult
      rw [hpages]
      apply Traced.bind (hP.setProcidTtbr0 _ _)
      intro _
      apply Traced.bind (hP.execLoadInstrs sbrks (isLoad_loadInstrs _ _) a)
      intro _
      let Run : Vm → Prop := fun v => ∃ brk', Mapping P .kernel (plan.heapStart 0) brk'
        (rangePages plan.ranges ++ heapPagesOf (plan.heapStart 0) sbrks) v
      have hregs : ∀ v a t, Run v → Run { v with asid := a, ttbr := t } := by
        rintro v a t ⟨brk', hv⟩
        exact ⟨brk', hv.registers hP a t⟩
      apply Traced.bind (Steps.setProcidTtbr0_vm hregs (fun _ _ => trivial) _ _)
      intro _
      apply Steps.mark
      rintro s ⟨⟨brk', hs⟩, -⟩ _
      exact ⟨hs.pages, trivial⟩
  · cases r with
    | none => exact growing_pure _
    | some instrLst =>
      refine growing_bind (growing_setProcidTtbr0 _ _) fun _ => ?_
      refine growing_bind (growing_execLoadInstrs _ _) fun _ => ?_
      exact growing_bind (growing_setProcidTtbr0 _ _) fun _ => growing_perform _ _

end PageRules

end Rules

/-- `w` is `v` with sections of the child's own behind the pages, in the child's table; a page that
comes twice was given two of them and shows the second. -/
structure ChildGrown (v : Vm) (done : List ℕ) (w : Vm) : Prop where
  kernel : w.table kernelAsid = v.table kernelAsid
  old : ∀ p, p ∉ done → w.table childAsid p = v.table childAsid p
  priv : ∀ p ∈ done, (w.table childAsid p).Private
  fresh : ∀ p ∈ done, Free v (w.table childAsid p).sec
  taken : ∀ p ∈ done, w.paddrToAsidMap (w.table childAsid p).sec = childAsid
  inj : Set.InjOn (fun p => (w.table childAsid p).sec) {p | p ∈ done}
  owner : ∀ sec, w.paddrToAsidMap sec = v.paddrToAsidMap sec ∨
    Free v sec ∧ w.paddrToAsidMap sec = childAsid
  room : (freeSecs w).card + done.length = (freeSecs v).card

namespace ChildGrown
variable {v w : Vm} {page sec : ℕ} {sync : Bool} {done : List ℕ}

theorem refl (v : Vm) : ChildGrown v [] v :=
  ⟨rfl, fun _ _ => rfl, fun _ hp => absurd hp List.not_mem_nil, fun _ hp => absurd hp List.not_mem_nil,
    fun _ hp => absurd hp List.not_mem_nil, fun _ hp => absurd hp List.not_mem_nil,
    fun _ => .inl rfl, rfl⟩

theorem free (h : ChildGrown v done w) (hsec : Free w sec) : Free v sec := by
  refine ⟨hsec.lo, hsec.hi, ?_⟩
  rcases h.owner sec with hsame | ⟨-, hchild⟩
  · rw [← hsame]
    exact hsec.owner
  · rw [hsec.owner] at hchild
    exact absurd hchild.symm childAsid_ne

theorem mapRam (h : ChildGrown v done w) (hsec : Free w sec) :
    ChildGrown v (done ++ [page]) (w.mapRam childAsid page sec sync) := by
  have hnew : (w.mapRam childAsid page sec sync).table childAsid page = ramFld sec sync := by
    rw [mapRam_table, if_pos ⟨rfl, rfl⟩]
  have hold : ∀ p, p ≠ page →
      (w.mapRam childAsid page sec sync).table childAsid p = w.table childAsid p := by
    intro p hp
    rw [mapRam_table, if_neg (fun hin => hp hin.2)]
  have hcases : ∀ p ∈ done ++ [page], p = page ∨ p ≠ page ∧ p ∈ done := by
    intro p hp
    by_cases hpage : p = page
    · exact .inl hpage
    · rcases List.mem_append.mp hp with hp | hp
      · exact .inr ⟨hpage, hp⟩
      · exact absurd (List.mem_singleton.mp hp) hpage
  have hapart : ∀ p ∈ done, (w.table childAsid p).sec ≠ sec := by
    intro p hp heq
    have howner := h.taken p hp
    rw [heq, hsec.owner] at howner
    exact childAsid_ne howner.symm
  constructor
  · rw [← h.kernel]
    funext p
    rw [mapRam_table, if_neg (fun hin => childAsid_ne_kernelAsid hin.1.symm)]
  · intro p hp
    rw [List.mem_append, List.mem_singleton, not_or] at hp
    rw [hold p hp.2, h.old p hp.1]
  · intro p hp
    rcases hcases p hp with rfl | ⟨hne, hp⟩
    · rw [hnew]
      exact ramFld_private
    · rw [hold p hne]
      exact h.priv p hp
  · intro p hp
    rcases hcases p hp with rfl | ⟨hne, hp⟩
    · rw [hnew, ramFld_sec hsec.hi]
      exact h.free hsec
    · rw [hold p hne]
      exact h.fresh p hp
  · intro p hp
    rw [mapRam_owner]
    rcases hcases p hp with rfl | ⟨hne, hp⟩
    · rw [hnew, ramFld_sec hsec.hi, if_pos rfl]
    · rw [hold p hne, if_neg (hapart p hp)]
      exact h.taken p hp
  · intro p hp q hq heq
    dsimp only at heq
    rcases hcases p hp with rfl | ⟨hne, hp'⟩
    · rcases hcases q hq with rfl | ⟨hne', hq'⟩
      · rfl
      · rw [hnew, ramFld_sec hsec.hi, hold q hne'] at heq
        exact absurd heq.symm (hapart q hq')
    · rcases hcases q hq with rfl | ⟨hne', hq'⟩
      · rw [hnew, ramFld_sec hsec.hi, hold p hne] at heq
        exact absurd heq (hapart p hp')
      · rw [hold p hne, hold q hne'] at heq
        exact h.inj hp' hq' heq
  · intro i
    rw [mapRam_owner]
    split
    · next heq =>
      rw [heq]
      exact .inr ⟨h.free hsec, rfl⟩
    · exact h.owner i
  · rw [freeSecs_mapRam childAsid_ne, Finset.card_erase_of_mem (mem_freeSecs.mpr hsec),
      List.length_append, List.length_singleton, ← h.room]
    have hpos : 0 < (freeSecs w).card := Finset.card_pos.mpr ⟨sec, mem_freeSecs.mpr hsec⟩
    omega

theorem congr {u : Vm} (h : ChildGrown v done w) (hmap : u.paddrToAsidMap = w.paddrToAsidMap)
    (htable : u.table = w.table) : ChildGrown v done u := by
  have hfree : freeSecs u = freeSecs w := by
    unfold freeSecs
    rw [hmap]
  constructor
  · rw [htable]
    exact h.kernel
  · rw [htable]
    exact h.old
  · rw [htable]
    exact h.priv
  · rw [htable]
    exact h.fresh
  · rw [htable, hmap]
    exact h.taken
  · rw [htable]
    exact h.inj
  · rw [hmap]
    exact h.owner
  · rw [hfree]
    exact h.room

end ChildGrown

theorem childGrown_pageRules (v : Vm) : PageRules (ChildGrown v) :=
  ⟨fun _ _ _ _ _ h hsec => h.mapRam hsec, fun _ _ _ hmap htable h => h.congr hmap htable⟩

end SimplePiOS.Kernel
