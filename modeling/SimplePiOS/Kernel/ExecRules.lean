import SimplePiOS.Kernel.ExecSteps

/-! `exec_file` from its call of `elf_load` on, for assertions that whatever is mapped for the child
keeps. -/
namespace SimplePiOS.Kernel
open Lib Libpi

/-- Assertions about a kernel with a child, while it is the turn of one of them: mapping for the
child, the registers and the bounds of the child's heap keep them. Between the two updates of a
mapping `Kv` holds at least. -/
structure ChildStable (B : Pid → Vm → Prop) (Kv : Vm → Prop) : Prop where
  child : ∀ pid v, B pid v → ∃ f, v.frame = some f ∧ f.proc.asid = childAsid
  currentProc : ∀ pid v, B pid v → v.currentProc = pid
  between : ∀ pid v sec, B pid v → Free v sec → Kv (v.setOwner sec childAsid)
  mapRam : ∀ pid v page sec sync, B pid v → Free v sec → B pid (v.mapRam childAsid page sec sync)
  registers : ∀ pid v a t, B pid v → B pid { v with asid := a, ttbr := t }
  turn : ∀ pid pid' v, B pid v → B pid' { v with currentProc := pid' }
  setHeapEnd : ∀ pid v e, B pid v → B pid (v.setHeapEnd e .child)
  setHeapStart : ∀ pid v addr, B pid v → B pid (v.setHeapStart addr)
  keeps : ∀ pid v, B pid v → Kv v

namespace ChildStable
variable {H : Moment → Prop} {B : Pid → Vm → Prop} {Kv A : Vm → Prop} {pid : Pid}

/-- Whatever is mapped for the child, from whatever section is free. -/
theorem mmuMapToMem (hB : ChildStable B Kv) (hA : ∀ v, A v → B pid v)
    (hmap : ∀ v page sec sync, A v → Free v sec → A (v.mapRam childAsid page sec sync))
    (addr size : ℕ) (sync : Bool) :
    Steps H (InVm Kv) (OnVm A) (mmuMapToMem childAsid addr size sync) fun _ => OnVm A := by
  apply Traced.forM_keeps
  intro page _
  apply Steps.mapPage_ram
  · exact fun v sec hv => hB.between pid v sec (hA v hv)
  · exact fun v sec => hmap v page sec sync
  · exact fun v hv => hB.keeps pid v (hA v hv)

theorem setProcidTtbr0 (hB : ChildStable B Kv) (procid pt : Asid) :
    Steps H (InVm Kv) (OnVm (B pid)) (setProcidTtbr0 procid pt) fun _ s =>
      B pid s.vm ∧ s.vm.ttbr = pt :=
  Steps.setProcidTtbr0_vm (hB.registers pid) (hB.keeps pid) procid pt

/-- `sbrk` of the program, with any increment. -/
theorem kernelSbrk (hB : ChildStable B Kv) (hset : Stable H (InVm Kv) (OnVm (B .child))) (incr : ℕ) :
    Steps H (InVm Kv) (OnVm (B .child)) (kernelSbrk incr) fun _ => OnVm (B .child) := by
  have hswitch : ∀ procid pt, Steps H (InVm Kv) (OnVm (B .child)) (Kernel.setProcidTtbr0 procid pt)
      fun _ => OnVm (B .child) :=
    fun procid pt => (hB.setProcidTtbr0 procid pt).post fun _ s hs => hs.1
  apply Steps.kernelSbrk_child hset (hB.currentProc .child) (hB.child .child) hswitch _ hswitch
  · exact fun _ _ w _ hw => hB.setHeapEnd .child w _ hw
  · exact fun _ _ hv => hv
  · exact hB.keeps .child
  · intro v _
    apply hB.mmuMapToMem (fun _ => id)
    exact hB.mapRam .child

theorem execLoadInstrs (hB : ChildStable B Kv) (hset : ∀ pid, Stable H (InVm Kv) (OnVm (B pid)))
    (sbrks : List ℕ) (instrLst : List LoadInstr) :
    Steps H (InVm Kv) (OnVm (B .kernel)) (execLoadInstrs sbrks instrLst) fun _ =>
      OnVm (B .kernel) := by
  apply Steps.execLoadInstrs (hset .kernel)
  intro a
  apply Steps.jump (OnVm (B .kernel)) (OnVm (B .child)) (OnVm (B .child))
  · exact fun s _ hs => hs
  · intro s h _ _ hs _
    have hs' := hB.setHeapEnd .kernel s.vm h hs
    exact ⟨hs', hB.keeps _ _ hs'⟩
  · intro s hs _
    have hs' := hB.turn .kernel .child s.vm hs
    exact ⟨hs', hB.keeps _ _ hs'⟩
  · apply Traced.forM_keeps
    intro incr _
    apply Traced.bind (hB.kernelSbrk (hset .child) incr)
    intro _
    exact .pure fun s hs => hs
  · exact fun s hs => hB.currentProc _ _ hs
  · intro s hs _
    have hs' := hB.turn .child .kernel s.vm hs
    exact ⟨hs', hB.keeps _ _ hs'⟩

/-- The program's image is mapped and copied, the program runs, and the kernel is back. -/
theorem execProgram_stable (hB : ChildStable B Kv) (hset : ∀ pid, Stable H (InVm Kv) (OnVm (B pid)))
    (sbrks : List ℕ) {file : PiFile} (hdata : file.data = kernelLoadAddr) :
    Steps H (InVm Kv) (fun s => B .kernel s.vm ∧ s.vm.ttbr = kernelAsid) (execProgram sbrks file)
      fun _ s => B .kernel s.vm ∧ s.vm.ttbr = kernelAsid := by
  let Back : Vm → Prop := fun v => B .kernel v ∧ v.ttbr = kernelAsid
  have hload : Steps H (InVm Kv) (OnVm Back) (elfLoad kernelLoadAddr file.nData childAsid)
      fun _ => OnVm Back := by
    apply Traced.of_value Machine.view
    intro w
    apply Steps.elfLoad (L := fun _ => OnVm Back) 0 (hset .kernel).and_ttbr
    · exact fun s hs => hs.2
    · intro _ r _
      apply hB.mmuMapToMem (A := Back) fun v hv => hv.1
      exact fun v page sec sync hv hsec => ⟨hB.mapRam _ _ _ _ _ hv.1 hsec, hv.2⟩
    · intro _ addr s hs _
      have hs' := hB.setHeapStart .kernel s.vm addr hs.1
      exact ⟨⟨hs', hs.2⟩, hB.keeps _ _ hs'⟩
    · exact fun r s hs _ _ => ⟨hs, hB.keeps _ _ hs.1⟩
  unfold Kernel.execProgram
  rw [hdata]
  apply Traced.bind hload
  intro r
  cases r with
  | none => exact .pure fun s hs => hs
  | some instrLst =>
    apply Traced.bind ((hB.setProcidTtbr0 _ _).pre fun s hs => hs.1)
    intro _
    apply Traced.bind ((hB.execLoadInstrs hset sbrks instrLst).pre fun s hs => hs.1)
    intro _
    apply Traced.bind (hB.setProcidTtbr0 _ _)
    intro _
    exact Steps.mark fun s hs _ => ⟨hs, hB.keeps _ _ hs.1⟩

theorem execProgram [Calm H] (hB : ChildStable B Kv) (sbrks : List ℕ) {file : PiFile}
    (hdata : file.data = kernelLoadAddr) :
    Steps H (InVm Kv) (fun s => B .kernel s.vm ∧ s.vm.ttbr = kernelAsid) (execProgram sbrks file)
      fun _ s => B .kernel s.vm ∧ s.vm.ttbr = kernelAsid :=
  hB.execProgram_stable (fun _ => stable_onVm _) sbrks hdata

end ChildStable

/-- `A` holds of a kernel with a child, while it is the turn of `pid`. -/
structure WithChild (A : Vm → Prop) (pid : Pid) (v : Vm) : Prop where
  child : ∃ f, v.frame = some f ∧ f.proc.asid = childAsid
  currentProc : v.currentProc = pid
  kept : A v

/-- What no update for the child changes. -/
theorem WithChild.stable {A Kv : Vm → Prop} (hbetween : ∀ v sec, A v → Kv (v.setOwner sec childAsid))
    (hmap : ∀ v page sec sync, A v → A (v.mapRam childAsid page sec sync))
    (hregs : ∀ v a t pid, A v → A { v with asid := a, ttbr := t, currentProc := pid })
    (hframe : ∀ v (g : ExecFrame → ExecFrame), (∀ f, (g f).file = f.file) → A v →
      A { v with frame := v.frame.map g })
    (hK : ∀ v, A v → Kv v) : ChildStable (WithChild A) Kv := by
  constructor
  · exact fun _ v hv => hv.child
  · exact fun _ v hv => hv.currentProc
  · exact fun _ v sec hv _ => hbetween v sec hv.kept
  · exact fun _ v page sec sync hv _ => ⟨hv.child, hv.currentProc, hmap v page sec sync hv.kept⟩
  · exact fun _ v a t hv => ⟨hv.child, hv.currentProc, hregs v a t v.currentProc hv.kept⟩
  · exact fun _ pid v hv => ⟨hv.child, rfl, hregs v v.asid v.ttbr pid hv.kept⟩
  · intro _ v e hv
    obtain ⟨f, hf, hasid⟩ := hv.child
    exact ⟨⟨_, congrArg (Option.map _) hf, hasid⟩, hv.currentProc, hframe v _ (fun _ => rfl) hv.kept⟩
  · intro _ v addr hv
    obtain ⟨f, hf, hasid⟩ := hv.child
    exact ⟨⟨_, congrArg (Option.map _) hf, hasid⟩, hv.currentProc, hframe v _ (fun _ => rfl) hv.kept⟩
  · exact fun _ v hv => hK v hv.kept

end SimplePiOS.Kernel
