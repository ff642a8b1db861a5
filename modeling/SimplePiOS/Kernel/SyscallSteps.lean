import SimplePiOS.Kernel.Ownership

/-! `kernel_sbrk` as a sequence of updates, and what is built on it. -/
namespace SimplePiOS.Kernel
open Lib Libpi

/-- The kernel between two calls of `exec_file`. -/
structure Idle (v : Vm) : Prop where
  ttbr : v.ttbr = kernelAsid
  currentProc : v.currentProc = .kernel
  kernelProc : v.kernelProc.asid = kernelAsid

section Sbrk
variable {H K : Moment → Prop} {L L' L₁ L₂ L₃ L₄ L₅ : Machine → Prop} {incr : ℕ} {pid : Pid}
  {proc : Process}

/-- `kernel_sbrk` once the process is looked up. -/
def sbrkOf (pid : Pid) (proc : Process) (incr : ℕ) : Kern ℕ := do
  if incr ≠ 0 then
    if pid ≠ .kernel then setProcidTtbr0 kernelAsid kernelAsid
    mmuMapToMem proc.asid proc.heapEnd incr true
    if pid ≠ .kernel then setProcidTtbr0 proc.asid proc.asid
    memset mmu proc.heapEnd 0 incr
    perform .update (·.setHeapEnd (add32 proc.heapEnd incr) pid)
  let heapEnd := ((← getVm).proc pid).heapEnd
  perform (.ret .kernelSbrk) id
  return heapEnd

theorem kernelSbrk_eq (incr : ℕ) : kernelSbrk incr = (do
    let v ← getVm
    let u ← getVm
    sbrkOf v.currentProc (u.proc v.currentProc) incr) := rfl

/-- The updates of `kernel_sbrk`, which runs under the kernel's table while it maps. -/
theorem Steps.sbrkOf (L₁ L₂ L₃ L₄ L₅ : Machine → Prop)
    (hin : pid ≠ .kernel → Steps H K L (setProcidTtbr0 kernelAsid kernelAsid) fun _ => L₁)
    (hin' : pid = .kernel → ∀ s, L s → L₁ s)
    (hmap : Steps H K L₁ (mmuMapToMem proc.asid proc.heapEnd incr true) fun _ => L₂)
    (hout : pid ≠ .kernel → Steps H K L₂ (setProcidTtbr0 proc.asid proc.asid) fun _ => L₃)
    (hout' : pid = .kernel → ∀ s, L₂ s → L₃ s)
    (hset : Steps H K L₃ (memset mmu proc.heapEnd 0 incr) fun _ => L₄)
    (hend : incr ≠ 0 → ∀ s, L₄ s → H (.update, s.vm.setHeapEnd (add32 proc.heapEnd incr) pid) →
      L₅ (s.step .update (·.setHeapEnd (add32 proc.heapEnd incr) pid)) ∧
        K (.update, s.vm.setHeapEnd (add32 proc.heapEnd incr) pid))
    (hzero : incr = 0 → ∀ s, L s → L₅ s)
    (hret : ∀ s, L₅ s → H (.ret .kernelSbrk, s.vm) →
      L' (s.step (.ret .kernelSbrk) id) ∧ K (.ret .kernelSbrk, s.vm)) :
    Steps H K L (sbrkOf pid proc incr) fun r s => L' s ∧ r = (s.vm.proc pid).heapEnd := by
  have hreturn : Steps H K L₅ (do
      let heapEnd := ((← Kernel.getVm).proc pid).heapEnd
      Kernel.perform (.ret .kernelSbrk) id
      return heapEnd) fun r s => L' s ∧ r = (s.vm.proc pid).heapEnd := by
    apply Traced.bind getVm
    intro v
    apply Traced.bind (Q := fun _ s => L' s ∧ s.vm = v)
    · apply perform
      rintro s ⟨hL, hv⟩ hH
      have hs := hret s hL hH
      exact ⟨⟨hs.1, hv⟩, hs.2⟩
    · intro _
      apply Traced.pure
      rintro s ⟨hL, rfl⟩
      exact ⟨hL, rfl⟩
  have hstore : incr ≠ 0 → Steps H K L₃ (do
      memset mmu proc.heapEnd 0 incr
      Kernel.perform .update (·.setHeapEnd (add32 proc.heapEnd incr) pid)
      let heapEnd := ((← Kernel.getVm).proc pid).heapEnd
      Kernel.perform (.ret .kernelSbrk) id
      return heapEnd) fun r s => L' s ∧ r = (s.vm.proc pid).heapEnd :=
    fun hne => .bind hset fun _ => .bind (perform (hend hne)) fun _ => hreturn
  have hgrow : incr ≠ 0 → Steps H K L₁ (do
      mmuMapToMem proc.asid proc.heapEnd incr true
      if pid ≠ .kernel then setProcidTtbr0 proc.asid proc.asid
      memset mmu proc.heapEnd 0 incr
      Kernel.perform .update (·.setHeapEnd (add32 proc.heapEnd incr) pid)
      let heapEnd := ((← Kernel.getVm).proc pid).heapEnd
      Kernel.perform (.ret .kernelSbrk) id
      return heapEnd) fun r s => L' s ∧ r = (s.vm.proc pid).heapEnd := by
    intro hne
    apply Traced.bind hmap
    intro _
    apply Traced.ite
    · intro h
      exact .bind (hout h) fun _ => hstore hne
    · intro h
      exact (hstore hne).pre (hout' (not_not.mp h))
  unfold Kernel.sbrkOf
  apply Traced.ite
  · intro hne
    apply Traced.ite
    · intro h
      exact .bind (hin h) fun _ => hgrow hne
    · intro h
      exact (hgrow hne).pre (hin' (not_not.mp h))
  · intro h
    exact hreturn.pre (hzero (not_not.mp h))

theorem growing_sbrkOf (pid : Pid) (proc : Process) (incr : ℕ) :
    Growing (sbrkOf pid proc incr) := by
  have h : Steps (fun _ => True) (fun _ => True) (fun _ => True) (sbrkOf pid proc incr)
      fun r s => True ∧ r = (s.vm.proc pid).heapEnd := by
    apply Steps.sbrkOf (fun _ => True) (fun _ => True) (fun _ => True) (fun _ => True) fun _ => True
    · exact fun _ => growing_setProcidTtbr0 _ _
    · exact fun _ _ _ => trivial
    · exact growing_mmuMapToMem _ _ _ _
    · exact fun _ => growing_setProcidTtbr0 _ _
    · exact fun _ _ _ => trivial
    · exact growing_still (still_memset _ _ _)
    · exact fun _ _ _ _ => ⟨trivial, trivial⟩
    · exact fun _ _ _ => trivial
    · exact fun _ _ _ => ⟨trivial, trivial⟩
  exact h.post fun _ _ _ => trivial

theorem growing_kernelSbrk (incr : ℕ) : Growing (kernelSbrk incr) :=
  growing_bind growing_getVm fun _ =>
    growing_bind growing_getVm fun _ => growing_sbrkOf _ _ _

/-- The process is looked up in the state the call starts in. -/
theorem Steps.kernelSbrk {A : Vm → Prop} {Q : ℕ → Machine → Prop} (hA : ∀ s, L s → A s.vm)
    (h : ∀ v, A v → Steps H K (fun s => L s ∧ s.vm = v)
      (Kernel.sbrkOf v.currentProc (v.proc v.currentProc) incr) Q) :
    Steps H K L (Kernel.kernelSbrk incr) Q := by
  rw [kernelSbrk_eq]
  apply getVm_bind _ hA
  · intro v hv
    apply getVm_bind (A := (· = v)) _ fun s hs => hs.2
    · intro u hu
      subst hu
      exact (h u hv).pre fun s hs => hs.1
    · intro u
      exact growing_sbrkOf _ _ _
  · intro v
    exact growing_bind growing_getVm fun _ => growing_sbrkOf _ _ _

end Sbrk

section Turns
variable {H : Moment → Prop} {A A' M Kv : Vm → Prop} {incr : ℕ}

/-- `sbrk` of the kernel itself. `M` is what its pages leave of the state they are mapped in. -/
theorem Steps.kernelSbrk_own (M : Vm → Vm → Prop) (hidle : ∀ v, A v → Idle v)
    (hmap : ∀ v, A v → Steps H (InVm Kv) (fun s => A s.vm ∧ s.vm = v)
      (mmuMapToMem kernelAsid v.kernelProc.heapEnd incr true) fun _ => OnVm (M v))
    (hend : incr ≠ 0 → ∀ v w, M v w →
      H (.update, w.setHeapEnd (add32 v.kernelProc.heapEnd incr) .kernel) →
      A' (w.setHeapEnd (add32 v.kernelProc.heapEnd incr) .kernel))
    (hset : ∀ v, Stable H (InVm Kv) (OnVm (M v)))
    (hzero : incr = 0 → ∀ v, A v → A' v) (hkeeps : ∀ v, A' v → Kv v) :
    Steps H (InVm Kv) (OnVm A) (Kernel.kernelSbrk incr) fun _ => OnVm A' := by
  have hof : ∀ v, A v → Steps H (InVm Kv) (fun s => A s.vm ∧ s.vm = v)
      (Kernel.sbrkOf v.currentProc (v.proc v.currentProc) incr)
      fun r s => A' s.vm ∧ r = (s.vm.proc .kernel).heapEnd := by
    intro v hv
    have hproc : v.proc .kernel = v.kernelProc := rfl
    rw [(hidle v hv).currentProc, hproc]
    apply Steps.sbrkOf (fun s => A s.vm ∧ s.vm = v) (OnVm (M v)) (OnVm (M v)) (OnVm (M v)) (OnVm A')
    · exact fun hpid => absurd rfl hpid
    · exact fun _ s hs => hs
    · rw [(hidle v hv).kernelProc]
      exact hmap v hv
    · exact fun hpid => absurd rfl hpid
    · exact fun _ s hs => hs
    · exact .of_still (hset v) (still_memset _ _ _)
    · intro hne s hs hH
      have hs' := hend hne v s.vm hs hH
      exact ⟨hs', hkeeps _ hs'⟩
    · exact fun h0 s hs => hzero h0 s.vm hs.1
    · exact fun s hs _ => ⟨hs, hkeeps _ hs⟩
  exact (Steps.kernelSbrk (A := A) (fun s hs => hs) hof).post fun r s hs => hs.1

/-- `sbrk` of the child, which maps under the kernel's table. -/
theorem Steps.kernelSbrk_child (hset : Stable H (InVm Kv) (OnVm M)) (hcur : ∀ v, A v → v.currentProc = .child)
    (hchild : ∀ v, A v → ∃ f, v.frame = some f ∧ f.proc.asid = childAsid)
    (hin : ∀ procid pt, Steps H (InVm Kv) (OnVm A) (setProcidTtbr0 procid pt) fun _ => OnVm A)
    (hmap : ∀ v, A v → Steps H (InVm Kv) (OnVm A)
      (mmuMapToMem childAsid (v.proc .child).heapEnd incr true) fun _ => OnVm M)
    (hout : ∀ procid pt, Steps H (InVm Kv) (OnVm M) (setProcidTtbr0 procid pt) fun _ => OnVm M)
    (hend : incr ≠ 0 → ∀ v w, A v → M w →
      A' (w.setHeapEnd (add32 (v.proc .child).heapEnd incr) .child))
    (hzero : incr = 0 → ∀ v, A v → A' v) (hkeeps : ∀ v, A' v → Kv v) :
    Steps H (InVm Kv) (OnVm A) (Kernel.kernelSbrk incr) fun _ => OnVm A' := by
  have hof : ∀ v, A v → Steps H (InVm Kv) (fun s => A s.vm ∧ s.vm = v)
      (Kernel.sbrkOf v.currentProc (v.proc v.currentProc) incr)
      fun r s => A' s.vm ∧ r = (s.vm.proc .child).heapEnd := by
    intro v hv
    obtain ⟨f, hf, hasid⟩ := hchild v hv
    have hproc : v.proc .child = f.proc := proc_child hf
    have hpages := hmap v hv
    have hbreak := fun hne w hw => hend hne v w hv hw
    rw [hproc] at hpages hbreak
    rw [hcur v hv, hproc]
    apply Traced.pre _ fun s hs => hs.1
    apply Steps.sbrkOf (OnVm A) (OnVm M) (OnVm M) (OnVm M) (OnVm A')
    · exact fun _ => hin _ _
    · intro hpid
      cases hpid
    · rw [hasid]
      exact hpages
    · exact fun _ => hout _ _
    · intro hpid
      cases hpid
    · exact .of_still hset (still_memset _ _ _)
    · intro hne s hs _
      have hs' := hbreak hne s.vm hs
      exact ⟨hs', hkeeps _ hs'⟩
    · exact fun h0 s hs => hzero h0 s.vm hs
    · exact fun s hs _ => ⟨hs, hkeeps _ hs⟩
  exact (Steps.kernelSbrk (A := A) (fun s hs => hs) hof).post fun r s hs => hs.1

end Turns

section HeapStable
variable {H : Moment → Prop} {A Kv : Vm → Prop}

/-- An assertion that the kernel's heap may grow under, in the sections it is given. Between the
two updates of a mapping `Kv` holds at least. -/
structure HeapStable (A Kv : Vm → Prop) : Prop where
  idle : ∀ v, A v → Idle v
  between : ∀ v sec, A v → Free v sec → Kv (v.setOwner sec kernelAsid)
  mapRam : ∀ v page sec sync, A v → Free v sec → A (v.mapRam kernelAsid page sec sync)
  setHeapEnd : ∀ v e, A v → A (v.setHeapEnd e .kernel)
  keeps : ∀ v, A v → Kv v

namespace HeapStable

theorem mmuMapToMem (hA : HeapStable A Kv) (addr size : ℕ) (sync : Bool) :
    Steps H (InVm Kv) (OnVm A) (mmuMapToMem kernelAsid addr size sync) fun _ => OnVm A := by
  apply Traced.forM_keeps
  intro page _
  apply Steps.mapPage_ram
  · exact hA.between
  · exact fun v sec => hA.mapRam v page sec sync
  · exact hA.keeps

/-- The kernel's heap grows in the kernel's table. -/
theorem kernelSbrk_stable (hA : HeapStable A Kv) (hset : Stable H (InVm Kv) (OnVm A)) (incr : ℕ) :
    Steps H (InVm Kv) (OnVm A) (kernelSbrk incr) fun _ => OnVm A := by
  apply Steps.kernelSbrk_own (fun _ => A) hA.idle
  · exact fun v _ => (hA.mmuMapToMem _ _ _).pre fun s hs => hs.1
  · exact fun _ _ w hw _ => hA.setHeapEnd w _ hw
  · exact fun _ => hset
  · exact fun _ _ hv => hv
  · exact hA.keeps

theorem kernelSbrk [Calm H] (hA : HeapStable A Kv) (incr : ℕ) :
    Steps H (InVm Kv) (OnVm A) (kernelSbrk incr) fun _ => OnVm A :=
  hA.kernelSbrk_stable (stable_onVm A) incr

/-- With an assertion that the process whose turn it is has no part in. -/
theorem and {B : Vm → Prop} (hA : HeapStable A Kv)
    (hmap : ∀ v page sec sync, B v → Free v sec → B (v.mapRam kernelAsid page sec sync))
    (hend : ∀ v e, B v → B (v.setHeapEnd e .kernel)) : HeapStable (fun v => A v ∧ B v) Kv :=
  ⟨fun v hv => hA.idle v hv.1, fun v sec hv => hA.between v sec hv.1,
    fun v page sec sync hv hsec => ⟨hA.mapRam v page sec sync hv.1 hsec, hmap v page sec sync hv.2 hsec⟩,
    fun v e hv => ⟨hA.setHeapEnd v e hv.1, hend v e hv.2⟩, fun v hv => hA.keeps v hv.1⟩

end HeapStable

/-- An assertion that the kernel may grow its own heap under, from any sections and whatever the
ownership map says. -/
structure KernelStable (A : Vm → Prop) : Prop where
  idle : ∀ v, A v → Idle v
  setOwner : ∀ v sec a, A v → A (v.setOwner sec a)
  setFld : ∀ v page f fl, A v → A (v.setFld kernelAsid page f fl)
  setHeapEnd : ∀ v e, A v → A (v.setHeapEnd e .kernel)

theorem KernelStable.heapStable (hA : KernelStable A) (hK : ∀ v, A v → Kv v) : HeapStable A Kv :=
  ⟨hA.idle, fun v sec hv _ => hK _ (hA.setOwner v sec _ hv),
    fun v page sec _ hv _ => hA.setFld _ page _ _ (hA.setOwner v sec _ hv), hA.setHeapEnd, hK⟩

theorem KernelStable.stable (hA : KernelStable A) (hK : ∀ v, A v → Kv v) :
    Stable H (InVm Kv) (OnVm A) :=
  stable_setOwner hA.setOwner hK

theorem KernelStable.kernelSbrk (hA : KernelStable A) (hK : ∀ v, A v → Kv v) (incr : ℕ) :
    Steps H (InVm Kv) (OnVm A) (kernelSbrk incr) fun _ => OnVm A :=
  (hA.heapStable hK).kernelSbrk_stable (hA.stable hK) incr

end HeapStable

section Platform
variable {α : Type} {H K : Moment → Prop} {L : Machine → Prop} {m : Kern α}

/-- Code that uses the memory and the allocator of the kernel changes the tables through
`kernel_sbrk` only. -/
theorem Steps.of_platform (hL : Stable H K L)
    (hm : ∀ I E, PlatformKeeps kernel I E → Keeps I E m)
    (hsbrk : ∀ n, Steps H K (L) (Kernel.kernelSbrk n) fun _ => L) :
    Steps H K (L) m fun _ => L := by
  have hget : Steps H K L kernel.getHeap fun _ => L := .quiet (fun _ hs => hs) fun _ _ hs => hs
  have hset : ∀ f, Steps H K L (kernel.setHeap f) fun _ => L :=
    fun f => .quiet (fun s hs => hL.heap s _ hs) fun _ _ hs => hs
  have hkeeps : ∀ s, PlatformKeeps kernel (Along Machine.trace H K L L s)
      (Along Machine.trace H K L (fun _ => True) s) := by
    intro s
    constructor
    · exact busKeeps_along hL.toMemStable s
    · exact fun n => (hsbrk n).extends_from s
    · exact hget.extends_from s
    · exact fun f => (hset f).extends_from s
  exact .of_extends fun s => hm _ _ (hkeeps s)

theorem growing_platform (hm : ∀ I E, PlatformKeeps kernel I E → Keeps I E m) : Growing m := by
  have hL : Stable Tame (fun _ => True) (OnVm fun _ => True) := stable_onVm _
  exact (Steps.of_platform hL hm fun n => (growing_kernelSbrk n).mono (fun _ => id) (fun _ _ => id)
    (fun _ _ => trivial) fun _ => id).grows

end Platform
end SimplePiOS.Kernel
