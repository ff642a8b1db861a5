import SimplePiOS.Kernel.ExecRun
import SimplePiOS.Libpi.KmallocAligned

/-! `kmalloc_aligned` on the break that `kernel_sbrk` keeps for the running process. -/
namespace SimplePiOS.Kernel
open Lib Libpi

/-- The end of the running process's heap. -/
def Machine.brk (s : Machine) : ℕ := (s.vm.proc s.vm.currentProc).heapEnd

/-- The running process exists, and its break is an address. -/
def Machine.Live (s : Machine) : Prop :=
  (s.vm.currentProc = .child → s.vm.frame ≠ none) ∧ s.brk < 2 ^ 32

/-- The processes are those of `v`, the allocator's statics are `h`. -/
structure SameProcs (v : Vm) (h : Heap) (s : Machine) : Prop where
  heap : s.heap = h
  currentProc : s.vm.currentProc = v.currentProc
  kernelProc : s.vm.kernelProc = v.kernelProc
  frame : s.vm.frame = v.frame

section Procs
variable {v : Vm} {h : Heap} {s t : Machine} {H : Moment → Prop}

theorem SameProcs.proc (hs : SameProcs v h s) (pid : Pid) : s.vm.proc pid = v.proc pid := by
  cases pid with
  | kernel => exact hs.kernelProc
  | child =>
    unfold Vm.proc
    rw [hs.frame, hs.kernelProc]

theorem SameProcs.step (hs : SameProcs v h s) (e : Event) {f : Vm → Vm}
    (hcurrent : (f s.vm).currentProc = s.vm.currentProc)
    (hkernel : (f s.vm).kernelProc = s.vm.kernelProc) (hframe : (f s.vm).frame = s.vm.frame) :
    SameProcs v h (s.step e f) :=
  ⟨hs.heap, hcurrent.trans hs.currentProc, hkernel.trans hs.kernelProc, hframe.trans hs.frame⟩

theorem sameProcs_memStable : MemStable H (fun _ => True) (SameProcs v h) where
  mem _ _ hs := ⟨hs.heap, hs.currentProc, hs.kernelProc, hs.frame⟩
  wild _ _ _ hs _ := ⟨hs.step .wild (poke_currentProc ..) (poke_kernelProc ..) (poke_frame ..), trivial⟩

theorem sameProcs_mmuMapToMem (pt : Asid) (addr size : ℕ) (sync : Bool) :
    Steps (fun _ => True) (fun _ => True) (SameProcs v h) (mmuMapToMem pt addr size sync)
      fun _ => SameProcs v h := by
  apply Traced.forM_keeps
  intro page _
  apply Steps.mapPage (fun _ => SameProcs v h) (fun _ => SameProcs v h) (fun _ => SameProcs v h)
  · exact fun s _ _ _ _ hs _ => ⟨hs.step .update rfl rfl rfl, trivial⟩
  · exact fun s _ _ _ hs _ => ⟨hs.step .update rfl rfl rfl, trivial⟩
  · exact fun s _ _ hs _ => ⟨hs.step _ rfl rfl rfl, trivial⟩
  · exact fun s _ _ hs => hs
  · exact fun s _ hs _ => ⟨hs.step _ rfl rfl rfl, trivial⟩

theorem sameProcs_setProcidTtbr0 (procid pt : Asid) :
    Steps (fun _ => True) (fun _ => True) (SameProcs v h) (setProcidTtbr0 procid pt)
      fun _ => SameProcs v h := by
  apply Traced.bind (Q := fun _ => SameProcs v h)
  · exact Steps.perform fun s hs _ => ⟨hs.step _ rfl rfl rfl, trivial⟩
  · intro _
    apply Traced.bind (Q := fun _ => SameProcs v h)
    · exact Steps.perform fun s hs _ => ⟨hs.step _ rfl rfl rfl, trivial⟩
    · intro _
      exact Steps.perform fun s hs _ => ⟨hs.step _ rfl rfl rfl, trivial⟩

theorem setHeapEnd_self (v : Vm) (pid : Pid) : v.setHeapEnd (v.proc pid).heapEnd pid = v := by
  obtain ⟨map, table, flags, asid, ttbr, kernelProc, currentProc, frame⟩ := v
  cases pid with
  | kernel => rfl
  | child => cases frame <;> rfl

theorem setHeapEnd_currentProc (v : Vm) (e : ℕ) (pid : Pid) :
    (v.setHeapEnd e pid).currentProc = v.currentProc := by
  cases pid <;> rfl

theorem proc_setHeapEnd {pid : Pid} (hpid : pid = .child → v.frame ≠ none) (e : ℕ) :
    ((v.setHeapEnd e pid).proc pid).heapEnd = e ∧
      (pid = .child → (v.setHeapEnd e pid).frame ≠ none) := by
  cases pid with
  | kernel => exact ⟨rfl, nofun⟩
  | child =>
    cases hframe : v.frame with
    | none => exact absurd hframe (hpid rfl)
    | some f => simp [Vm.setHeapEnd, Vm.proc, hframe]

theorem SameProcs.setHeapEnd {u : Machine} (hu : SameProcs v h u) (e : ℕ) (pid : Pid) :
    SameProcs (v.setHeapEnd e pid) h (u.step .update (·.setHeapEnd e pid)) := by
  have hcurrent : (u.vm.setHeapEnd e pid).currentProc = (v.setHeapEnd e pid).currentProc := by
    rw [setHeapEnd_currentProc, setHeapEnd_currentProc, hu.currentProc]
  refine ⟨hu.heap, hcurrent, ?_, ?_⟩
  · change (u.vm.setHeapEnd e pid).kernelProc = _
    cases pid with
    | kernel => simp [Vm.setHeapEnd, hu.kernelProc]
    | child => exact hu.kernelProc
  · change (u.vm.setHeapEnd e pid).frame = _
    cases pid with
    | kernel => exact hu.frame
    | child => simp [Vm.setHeapEnd, hu.frame]

/-- `kernel_sbrk` answers the break it leaves. -/
theorem kernelSbrk_brk {n r : ℕ} (hs : s.Live) (hrun : (kernelSbrk n).run s = .ok r t) :
    t.Live ∧ t.heap = s.heap ∧ t.brk = add32 s.brk n ∧ r = t.brk := by
  obtain ⟨pid, hpid⟩ : ∃ pid, pid = s.vm.currentProc := ⟨_, rfl⟩
  obtain ⟨w, hw⟩ : ∃ w, w = s.vm.setHeapEnd (add32 s.brk n) pid := ⟨_, rfl⟩
  have hbrk : s.brk = (s.vm.proc pid).heapEnd := by rw [hpid]; rfl
  have hof : ∀ v, v.currentProc = pid ∧ v.proc pid = s.vm.proc pid →
      Steps (fun _ => True) (fun _ => True) (fun u => SameProcs s.vm s.heap u ∧ u.vm = v)
        (sbrkOf v.currentProc (v.proc v.currentProc) n)
        fun r u => SameProcs w s.heap u ∧ r = (u.vm.proc pid).heapEnd := by
    intro v hv
    rw [hv.1, hv.2]
    apply Traced.pre _ fun s hs => hs.1
    apply Steps.sbrkOf (SameProcs s.vm s.heap) (SameProcs s.vm s.heap) (SameProcs s.vm s.heap)
      (SameProcs s.vm s.heap) (SameProcs w s.heap)
    · exact fun _ => sameProcs_setProcidTtbr0 _ _
    · exact fun _ s hs => hs
    · exact sameProcs_mmuMapToMem _ _ _ _
    · exact fun _ => sameProcs_setProcidTtbr0 _ _
    · exact fun _ s hs => hs
    · exact still_memset _ _ _ sameProcs_memStable
    · intro _ u hu _
      rw [← hbrk, hw]
      exact ⟨hu.setHeapEnd _ _, trivial⟩
    · intro h0 u hu
      have hsame : add32 s.brk 0 = s.brk := Nat.mod_eq_of_lt hs.2
      rw [hw, h0, hsame, hbrk, setHeapEnd_self]
      exact hu
    · exact fun s hs _ => ⟨hs.step _ rfl rfl rfl, trivial⟩
  have hsteps := Steps.kernelSbrk (L := SameProcs s.vm s.heap)
    (A := fun v => v.currentProc = pid ∧ v.proc pid = s.vm.proc pid)
    (fun u hu => ⟨hu.currentProc.trans hpid.symm, hu.proc pid⟩) hof
  have htriple := hsteps.triple s ⟨rfl, rfl, rfl, rfl⟩
  rw [hrun] at htriple
  obtain ⟨ht, hr⟩ := htriple
  have hcurrent : t.vm.currentProc = pid := by
    rw [ht.currentProc, hw, setHeapEnd_currentProc, hpid]
  have hpresent : pid = .child → s.vm.frame ≠ none := by
    rw [hpid]
    exact hs.1
  obtain ⟨hend, hframe⟩ := proc_setHeapEnd hpresent (add32 s.brk n)
  have hbrkt : t.brk = add32 s.brk n := by
    change (t.vm.proc t.vm.currentProc).heapEnd = _
    rw [hcurrent, ht.proc, hw, hend]
  refine ⟨⟨?_, ?_⟩, ht.heap, hbrkt, ?_⟩
  · rw [hcurrent, ht.frame, hw]
    exact hframe
  · rw [hbrkt]
    exact Nat.mod_lt _ (by omega)
  · rw [hr]
    unfold Machine.brk
    rw [hcurrent]

/-- No store reaches the processes. -/
theorem brk_poke (s : Machine) (pa : ℕ) (b : UInt8) :
    (s.step .wild (·.poke s.mapAddr pa b)).brk = s.brk := by
  have hsame : SameProcs s.vm s.heap s := ⟨rfl, rfl, rfl, rfl⟩
  have hs := ((sameProcs_memStable (H := fun _ => True)).wild s pa b hsame trivial).1
  unfold Machine.brk
  rw [hs.proc, hs.currentProc]

theorem Machine.Live.poke (hs : s.Live) (pa : ℕ) (b : UInt8) :
    (s.step .wild (·.poke s.mapAddr pa b)).Live := by
  have hcurrent : (s.step .wild (·.poke s.mapAddr pa b)).vm.currentProc = s.vm.currentProc :=
    poke_currentProc ..
  have hframe : (s.step .wild (·.poke s.mapAddr pa b)).vm.frame = s.vm.frame := poke_frame ..
  refine ⟨?_, by rw [brk_poke]; exact hs.2⟩
  rw [hcurrent, hframe]
  exact hs.1

/-- The platform of the running process. -/
theorem kernel_breaks : Breaks kernel Machine.Live Machine.heap Machine.brk where
  brk_lt hs := hs.2
  getHeap _ := rfl
  setHeap hs hrun := by
    obtain ⟨-, rfl⟩ := EStateM.Result.ok.inj hrun
    exact ⟨hs, rfl, rfl⟩
  sbrk hs hrun := kernelSbrk_brk hs hrun
  store := by
    intro a b s u t hs hrun
    rcases run_storeByte a b s with ⟨pa, -, hstore⟩ | ⟨pa, -, hstore⟩ | ⟨e, hstore⟩
    · have hrun' : (kernel.store a b).run s = _ := hstore
      rw [hrun'] at hrun
      obtain ⟨-, rfl⟩ := EStateM.Result.ok.inj hrun
      exact ⟨hs, rfl, rfl⟩
    · have hrun' : (kernel.store a b).run s = _ := hstore
      rw [hrun'] at hrun
      obtain ⟨-, rfl⟩ := EStateM.Result.ok.inj hrun
      exact ⟨hs.poke pa b, rfl, brk_poke s pa b⟩
    · have hrun' : (kernel.store a b).run s = _ := hstore
      rw [hrun'] at hrun
      cases hrun

end Procs

/-- In a run of calls within their bounds, from any break on, a block of `kmalloc_aligned` is at a
multiple of its alignment, in the heap and apart from all others, if the call is within its
bounds too. Where the heap does not begin at 0, no other call gets such a block. -/
theorem kmallocAligned_iff {s₀ s t : Machine} {blocks : List (ℕ × ℕ)} {fuel a : ℕ}
    {nbytes alignment : BitVec 32} (hs₀ : s₀.Live) (hzero : s₀.heap.heapStart = 0)
    (h : Calls kernel Machine.Live Machine.heap Machine.brk s₀ blocks s)
    (hrun : (kmallocAligned kernel fuel nbytes alignment).run s = .ok a t) :
    ((Call.kmallocAligned nbytes alignment).Fits s.heap s.brk →
      AlignedBlock s₀.brk blocks a (blockBytes nbytes.toNat) alignment.toNat t.brk) ∧
    (s₀.brk ≠ 0 → AlignedBlock s₀.brk blocks a (blockBytes nbytes.toNat) alignment.toNat t.brk →
      (Call.kmallocAligned nbytes alignment).Fits s.heap s.brk) :=
  kernel_breaks.aligned_iff hs₀ hzero h hrun

/-- A first block of 8 bytes, then one at the next multiple of 4 KiB. -/
theorem kmallocAligned_iff_page : ∃ s t u a b, notmainInit.run powerOn = .ok () s ∧
    (kmalloc kernel 2 8).run s = .ok a t ∧ (kmallocAligned kernel 2 16 0x1000).run t = .ok b u ∧
    AlignedBlock kernelHeapAddr [(a, 8)] b 16 0x1000 u.brk := by
  have hheapAddr : kernelHeapAddr = 0x500000 := rfl
  have hphys : nPhysPages = 512 := rfl
  obtain ⟨s, hboot, hat, hfree, hcur, hheap⟩ := notmainInit_run powerOn rfl
  have hstart : s.heap.heapStart = 0 := by rw [hheap]; rfl
  have hcard : (freeSecs s.vm).card = 507 := by
    rw [hfree, Nat.card_Ico]
    rfl
  obtain ⟨k, t, hrun, hext, hatt, hcurt, hend, hleast, -, hstartt, -⟩ :=
    kmalloc_run 2 hat (n := 8) (by decide) (by omega) (by omega) (Nat.le_refl 2)
  obtain rfl : k = 1 := by omega
  rw [if_pos hstart, hcur] at hstartt
  have hset : t.heap.heapStart ≠ 0 := by rw [hstartt]; decide
  have hheapt : t.heap.heap = 0x500008 := by
    have hcursor : t.cursor = t.heap.heap := if_neg hset
    omega
  let w : Machine := { t with heap := { t.heap with heap := 0x501000 } }
  have hcurw : w.cursor = 0x501000 := if_neg hset
  have hatw : HeapAt 6 w :=
    ⟨hatt.idle, hatt.heapEnd, by omega, by omega, hatt.owns, fun _ => hatt.statics hset⟩
  have hcardw : (freeSecs w.vm).card = 506 := by
    have hroom := hext.room
    change (freeSecs t.vm).card = 506
    omega
  obtain ⟨_, u, hrun', -⟩ :=
    kmalloc_run 2 hatw (n := 16) (by decide) (by omega) (by omega) (Nat.le_refl 2)
  have haligned : (kmallocAligned kernel 2 16 0x1000).run t = .ok w.cursor u := by
    rw [← hrun']
    apply kmallocAligned_run 2 (by decide) (h := t.heap) rfl
    rw [hheapt]
    rfl
  have hbrk : s.brk = kernelHeapAddr := by
    have hproc : s.brk = s.vm.kernelProc.heapEnd := by
      unfold Machine.brk
      rw [hat.idle.currentProc]
      rfl
    rw [hproc, hat.heapEnd]
    rfl
  have hlive : s.Live := by
    refine ⟨?_, by rw [hbrk]; decide⟩
    rw [hat.idle.currentProc]
    exact nofun
  have hcalls : Calls kernel Machine.Live Machine.heap Machine.brk s [(s.cursor, 8)] t := by
    refine .call (.kmalloc 8) .start ?_ hrun
    change Heap.cursor s.heap s.brk + 8 < 2 ^ 32
    unfold Heap.cursor
    rw [if_pos hstart, hbrk]
    decide
  have hfits : (Call.kmallocAligned 16 0x1000).Fits t.heap t.brk := by
    unfold Call.Fits
    dsimp only
    rw [if_neg hset, hheapt]
    decide
  have hblock := (kmallocAligned_iff hlive hstart hcalls haligned).1 hfits
  rw [hbrk] at hblock
  exact ⟨s, t, u, _, _, hboot, hrun, haligned, hblock⟩

/-- The set-up of the first call forgets the alignment: the block is at the break. -/
theorem kmallocAligned_first_misaligned : ∃ s a t, notmainInit.run powerOn = .ok () s ∧
    Libpi.isPow2 0x1000000 ∧ (kmallocAligned kernel 2 16 0x1000000).run s = .ok a t ∧
    ¬ 0x1000000 ∣ a := by
  have hheapAddr : kernelHeapAddr = 0x500000 := rfl
  obtain ⟨s, hboot, hat, hfree, hcur, hheap⟩ := notmainInit_run powerOn rfl
  have hcard : (freeSecs s.vm).card = 507 := by
    rw [hfree, Nat.card_Ico]
    rfl
  obtain ⟨_, t, hrun, -⟩ :=
    kmalloc_run 2 hat (n := 16) (by decide) (by omega) (by omega) (Nat.le_refl 2)
  refine ⟨s, s.cursor, t, hboot, by decide, ?_, ?_⟩
  · rw [← hrun]
    apply kmallocAligned_run 2 (by decide) (h := s.heap) rfl
    rw [hheap]
    obtain ⟨vm, mem, heap, trace⟩ := s
    subst hheap
    rfl
  · rw [hcur]
    omega

end SimplePiOS.Kernel
