import SimplePiOS.Kernel.CommandLoop
import SimplePiOS.Shell.Loader

/-! The address range of `load_code` and the kernel's page table. -/
namespace SimplePiOS.Shell
open Lib Libpi Kernel

/-- The kernel can store to the address `a`, and nothing else is there: it is none of the
kernel's heap, and its section is neither a table's nor a child's nor behind the heap. -/
structure Loadable (v : Vm) (a : ℕ) : Prop where
  mapped : (v.table kernelAsid (a / 2 ^ 20)).Valid
  notHeap : ¬ (kernelHeapAddr ≤ a ∧ a < v.kernelProc.heapEnd)
  lo : 5 ≤ (v.table kernelAsid (a / 2 ^ 20)).sec
  hi : (v.table kernelAsid (a / 2 ^ 20)).sec < nPhysPages
  owner : v.paddrToAsidMap (v.table kernelAsid (a / 2 ^ 20)).sec = 0 ∨
    v.paddrToAsidMap (v.table kernelAsid (a / 2 ^ 20)).sec = kernelAsid
  unshared : ∀ p ∈ v.heapPages,
    (v.table kernelAsid (a / 2 ^ 20)).sec ≠ (v.table kernelAsid p).sec

/-- The addresses `load_code` stores to. -/
def target (addr : BitVec 32) (i : ℕ) : ℕ := add32 addr.toNat i

def RespectsAddressSpace (v : Vm) (addr nbytes : BitVec 32) : Prop :=
  ∀ i < nbytes.toNat, Loadable v (target addr i)

/-- The range is empty, or lies in the load window of the program that was run last. -/
def InLoadWindow (last : Option PiFile) (addr nbytes : BitVec 32) : Prop :=
  nbytes = 0 ∨ ∃ file, last = some file ∧
    ∀ i < nbytes.toNat, target addr i / 2 ^ 20 ∈ windowOf file.nAlloc

section Window
variable {last : Option PiFile} {s : Machine} {v : Vm} {a n : ℕ}

/-- What a program leaves in its load window can be stored to. -/
theorem Loadable.of_leftover (hleft : Leftover (windowOf n) v) (hheld : KernelHeld ∅ v)
    (ha : a / 2 ^ 20 ∈ windowOf n) : Loadable v a := by
  have habove := windowOf_above ha
  have hbelow := hheld.below
  have hload : kernelLoadAddr = 0x100 * 2 ^ 20 := rfl
  refine ⟨(hleft.priv _ ha).1, ?_, hleft.lo _ ha, hleft.hi _ ha, hleft.owner _ ha,
    hleft.heap _ ha⟩
  intro hheap
  have hlt := hheap.2
  omega

/-- In the load window of the last program, with the kernel's heap below it, a download stays
clear of everything else. -/
theorem load_respects (h : CommandLoop last s) (version addr nbytes : BitVec 32)
    (hlim : nbytes ≠ 0 → ∀ x ∈ s.trace, Limited x) (_ : HeaderOk version addr nbytes)
    (hrange : InLoadWindow last addr nbytes) : RespectsAddressSpace s.vm addr nbytes := by
  intro i hi
  have hne : nbytes ≠ 0 := by
    rintro rfl
    exact absurd hi (Nat.not_lt_zero i)
  obtain ⟨⟨hheld, -⟩, hleft⟩ := h.held (hlim hne)
  rcases hrange with hzero | ⟨file, hfile, hpages⟩
  · exact absurd hzero hne
  · exact .of_leftover (hleft file hfile) hheld (hpages i hi)

theorem load_respects_short : ∃ (file : PiFile) (s : Machine), CommandLoop (some file) s ∧
    RespectsAddressSpace s.vm 0x10000000 4 := by
  obtain ⟨s, hboot, hheap, hfree, hcursor, -⟩ := notmainInit_run powerOn rfl
  have hchain : Chain sectorFs ⟨8, by decide⟩ 5 [5] := .last (by omega) (by decide) (by decide)
  have hloop : CommandLoop none s := .boot hboot
  obtain ⟨file, s₁, s₂, t, halloc, -, hinit, hopen, hchild, hlim⟩ := hloop.exec_short (sectorDisk [])
    (d := sectorFile []) hheap hchain (by decide) (by decide : 1 < 2) rfl (Nat.zero_le _)
    (by rw [hcursor]; decide) (by rw [hfree, Nat.card_Ico]; decide) (by decide)
    (notmainInit_limited hboot)
  have hrun : CommandLoop (some file) t := .run _ _ _ _ _ hloop hinit hopen hchild
  refine ⟨file, t, hrun, load_respects hrun 2 0x10000000 4 (fun _ => hlim) (by constructor <;> decide) ?_⟩
  right
  refine ⟨file, rfl, ?_⟩
  intro i hi
  rw [halloc, mem_windowOf]
  change i < 4 at hi
  interval_cases i <;> decide

end Window

/-- Right after the initialisation nothing is mapped where a download may start. -/
theorem load_unmapped : ¬ ∀ (last : Option PiFile) (s : Machine) (version addr nbytes : BitVec 32),
    CommandLoop last s → HeaderOk version addr nbytes → RespectsAddressSpace s.vm addr nbytes := by
  intro hall
  obtain ⟨s, hboot, -, htable, -⟩ := notmainInit_table powerOn
  have hok : HeaderOk 2 0x9000000 4 := by constructor <;> decide
  have hmapped := (hall none s 2 0x9000000 4 (.boot hboot) hok 0 (by decide)).mapped
  have hzero : s.vm.table kernelAsid (target 0x9000000 0 / 2 ^ 20) = Fld.zero := by
    rw [htable _ (by decide), if_neg (by decide), if_neg (by decide)]
  rw [hzero] at hmapped
  exact absurd hmapped (by decide)

end SimplePiOS.Shell
