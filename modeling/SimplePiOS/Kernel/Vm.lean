import Mathlib.Logic.Function.Basic
import SimplePiOS.Kernel.Fs

/-! vm.h, vm.c and vm-asm.S: section descriptors, the translation tables, the global map
from physical sections to ASIDs, and the operations on them. -/
namespace SimplePiOS.Kernel
open Libpi

/-- layout.h and vm.h. -/
abbrev transTableAddr : ℕ := 0x00100000
abbrev kernelHeapAddr : ℕ := 0x00500000
abbrev kernelLoadAddr : ℕ := 0x10000000
abbrev procLoadAddr : ℕ := 0x80000000
abbrev nVirtPages : ℕ := 4096
abbrev nPhysPages : ℕ := 512

abbrev Asid := ℕ

/-- ASID 1 is the kernel's, ASID 2 that of the one program `exec_file` runs. -/
abbrev kernelAsid : Asid := 1
abbrev childAsid : Asid := 2

/-- `fld_t`, a first level descriptor. -/
structure Fld where
  tag : BitVec 2
  B : BitVec 1
  C : BitVec 1
  XN : BitVec 1
  domain : BitVec 4
  IMP : BitVec 1
  AP : BitVec 2
  TEX : BitVec 3
  APX : BitVec 1
  S : BitVec 1
  nG : BitVec 1
  super : BitVec 1
  sbz1 : BitVec 1
  secBaseAddr : BitVec 12
  deriving DecidableEq

def Fld.zero : Fld := ⟨0, 0, 0, 0, 0, 0, 0, 0, 0, 0, 0, 0, 0, 0⟩

/-- The physical section a descriptor points at. -/
def Fld.sec (f : Fld) : ℕ := f.secBaseAddr.toNat

/-- What the table walk takes for a section descriptor. -/
def Fld.Valid (f : Fld) : Prop := f.tag = 2

instance (f : Fld) : Decidable f.Valid := inferInstanceAs (Decidable (_ = _))

/-- A valid descriptor of one address space only. -/
def Fld.Private (f : Fld) : Prop := f.Valid ∧ f.nG = 1

instance (f : Fld) : Decidable f.Private := inferInstanceAs (Decidable (_ ∧ _))

/-- The `MAP_FLAG_*` bits; all clear is `MAP_FLAG_NONE`. -/
structure MapFlags where
  global : Bool
  shared : Bool
  sync : Bool
  deriving DecidableEq

/-- The descriptor `mmu_map_section` leaves: it assigns every field. -/
def sectionFld (pa : ℕ) (flags : MapFlags) : Fld where
  tag := 2
  B := 0
  C := 0
  XN := 0
  domain := 0
  IMP := 0
  AP := 3
  TEX := 0
  APX := 0
  S := 0
  nG := if flags.global then 0 else 1
  super := 0
  sbz1 := 0
  secBaseAddr := BitVec.ofNat 12 (pa / 2 ^ 20)

/-- `process_t`, its page table being the one at `TT_BASE + asid`. -/
structure Process where
  heapStart : ℕ
  heapEnd : ℕ
  asid : Asid
  deriving DecidableEq

/-- The locals of a running `exec_file`. -/
structure ExecFrame where
  proc : Process
  file : Option PiFile
  deriving DecidableEq

inductive Pid where
  | kernel
  | child
  deriving DecidableEq

/-- Everything the paging code reads or writes. -/
structure Vm where
  paddrToAsidMap : ℕ → Asid
  /-- `TT_BASE[asid][page]`. -/
  table : Asid → ℕ → Fld
  /-- Ghost: the flags of the call that wrote the descriptor. -/
  flags : Asid → ℕ → MapFlags
  /-- The context ID register and the table TTBR0 points at. -/
  asid : Asid
  ttbr : Asid
  kernelProc : Process
  currentProc : Pid
  /-- `exec_file`'s frame while it runs: a child exists. -/
  frame : Option ExecFrame

def Vm.proc (v : Vm) : Pid → Process
  | .kernel => v.kernelProc
  | .child => (v.frame.map (·.proc)).getD v.kernelProc

def Vm.setHeapEnd (v : Vm) (e : ℕ) : Pid → Vm
  | .kernel => { v with kernelProc := { v.kernelProc with heapEnd := e } }
  | .child => { v with frame := v.frame.map fun f => { f with proc := { f.proc with heapEnd := e } } }

def Vm.setOwner (v : Vm) (sec : ℕ) (a : Asid) : Vm :=
  { v with paddrToAsidMap := Function.update v.paddrToAsidMap sec a }

/-- The byte `b` at the physical address `pa`, if `paddr_to_asid_map` is at `mapAddr`. -/
def Vm.poke (v : Vm) (mapAddr pa : ℕ) (b : UInt8) : Vm :=
  if mapAddr ≤ pa ∧ pa < mapAddr + nPhysPages then v.setOwner (pa - mapAddr) b.toNat else v

def Vm.setFld (v : Vm) (pt : Asid) (page : ℕ) (f : Fld) (flags : MapFlags) : Vm :=
  { v with
    table := Function.update v.table pt (Function.update (v.table pt) page f)
    flags := Function.update v.flags pt (Function.update (v.flags pt) page flags) }

/-- Functions whose completion a run records. -/
inductive Fn where
  | mmuMapSection
  | kernelSbrk
  | elfLoad
  | execFile
  deriving DecidableEq

/-- What an update means to the TLB; an `update` of the tables or the registers means
nothing to it by itself. -/
inductive Event where
  | update
  /-- A store through a global descriptor: to the kernel's own section or to a device. -/
  | wild
  | sync (page : ℕ) (asid : Asid)
  | invAsid (asid : Asid)
  | invTlb
  | ret (f : Fn)
  deriving DecidableEq

structure Machine where
  vm : Vm
  /-- Where the linker put `paddr_to_asid_map`. -/
  mapAddr : ℕ
  /-- Bytes of physical memory. The kernel's own image and the translation tables are not
  kept here: C objects of the source are fields of their own. -/
  mem : ℕ → UInt8
  heap : Heap
  /-- Ghost: every update of `vm` so far with the state it led to, the last one first. -/
  trace : List (Event × Vm)

abbrev Kern := EStateM Stop Machine

def Machine.step (s : Machine) (e : Event) (f : Vm → Vm) : Machine :=
  { s with vm := f s.vm, trace := (e, f s.vm) :: s.trace }

def perform (e : Event) (f : Vm → Vm) : Kern Unit :=
  fun s => .ok () (s.step e f)

def getVm : Kern Vm := fun s => .ok s.vm s

def setOwner (sec : ℕ) (a : Asid) : Kern Unit := perform .update (·.setOwner sec a)

def mmuSync (page : ℕ) (a : Asid) : Kern Unit := perform (.sync page a) id

def mmuInvAsid (a : Asid) : Kern Unit := perform (.invAsid a) id

/-- The recipe of vm-asm.S: ASID 0 is in force while the table base changes. -/
def setProcidTtbr0 (procid pt : Asid) : Kern Unit := do
  perform .update ({ · with asid := 0 })
  perform .update ({ · with ttbr := pt })
  perform .update ({ · with asid := procid })

def mmuMapSection (pt : Asid) (va pa : ℕ) (flags : MapFlags) : Kern Unit := do
  assert (isAligned va 20) "is_aligned(va, 20)"
  assert (isAligned pa 20) "is_aligned(pa, 20)"
  if ¬ (flags.global ∨ flags.shared) ∧ pa / 2 ^ 20 < nPhysPages then
    let v ← getVm
    assert (v.paddrToAsidMap (pa / 2 ^ 20) = 0) "physical page already assigned"
    setOwner (pa / 2 ^ 20) pt
  perform .update (·.setFld pt (va / 2 ^ 20) (sectionFld pa flags) flags)
  if flags.sync then mmuSync (va / 2 ^ 20) pt
  perform (.ret .mmuMapSection) id

/-- Index 0 holds the kernel's code and is never given out; 0 means none is free. -/
def findAvailablePage (v : Vm) : ℕ :=
  match (List.range' 1 (nPhysPages - 1)).find? (fun i => v.paddrToAsidMap i = 0) with
  | some i => i * 2 ^ 20
  | none => 0

/-- The pages the loop of `mmu_map_to_mem` goes over. -/
def pageRange (addr size : ℕ) : List ℕ :=
  let startPage := sub32 addr 1 / 2 ^ 20
  let endPage := sub32 (add32 addr size) 1 / 2 ^ 20
  List.range' (startPage + 1) (endPage - startPage)

def mapPage (pt : Asid) (sync : Bool) (page : ℕ) : Kern Unit := do
  let v ← getVm
  let pa := findAvailablePage v
  if pa = 0 then throw (.panic "Out of memory\n")
  mmuMapSection pt (page * 2 ^ 20) pa ⟨false, false, sync⟩

def mmuMapToMem (pt : Asid) (addr size : ℕ) (sync : Bool) : Kern Unit :=
  forM (pageRange addr size) (mapPage pt sync)

def unmapEntry (pt : Asid) (i : ℕ) : Kern Unit := do
  let v ← getVm
  let pte := v.table pt i
  if pte.tag ≠ 0 ∧ pte.nG ≠ 0 then
    if pte.sec < nPhysPages then setOwner pte.sec 0
    else throw (.clobber pte.sec)

def mmuUnmap (pt : Asid) : Kern Unit :=
  forM (List.range nVirtPages) (unmapEntry pt)

/-- `memset` of the first `n` descriptors of a table. -/
def zeroFlds (pt : Asid) (n : ℕ) : Kern Unit :=
  perform .update fun v =>
    { v with table := Function.update v.table pt fun i => if i < n then Fld.zero else v.table pt i }

def mmuInit (pt : Asid) : Kern Unit := do
  assert (isAligned (transTableAddr + 0x4000 * pt) 14) "must be 14 bit aligned!"
  zeroFlds pt nVirtPages

def mmuMapKernelSections (pt : Asid) : Kern Unit := do
  let flags : MapFlags := ⟨true, false, false⟩
  mmuMapSection pt 0x00000000 0x00000000 flags
  mmuMapSection pt 0x20000000 0x20000000 flags
  mmuMapSection pt 0x20100000 0x20100000 flags
  mmuMapSection pt 0x20200000 0x20200000 flags
  mmuMapSection pt 0x20300000 0x20300000 flags

/-- `vm_enable`, without the control register fields and the self-test through a word of
the kernel section. -/
def vmEnable : Kern Unit := do
  perform .update ({ · with paddrToAsidMap := fun _ => 0 })
  mmuInit 0
  mmuInit kernelAsid
  mmuMapKernelSections kernelAsid
  let nTtPages := 4096 * 4 * 256 / 2 ^ 20
  forM (List.range nTtPages) fun i => do
    let addr := transTableAddr + i * 2 ^ 20
    mmuMapSection kernelAsid addr addr ⟨false, false, false⟩
  setProcidTtbr0 kernelAsid kernelAsid
  perform .invTlb id

/-- The table walk under the current TTBR0. -/
def Vm.fldAt (v : Vm) (va : ℕ) : Fld := v.table v.ttbr (va / 2 ^ 20)

def Fld.translate (f : Fld) (va : ℕ) : Option ℕ :=
  if f.Valid then some (f.sec * 2 ^ 20 + va % 2 ^ 20) else none

def loadByte (a : ℕ) : Kern UInt8 := fun s =>
  let va := a % 2 ^ 32
  match (s.vm.fldAt va).translate va with
  | some pa => .ok (s.mem pa) s
  | none => .error (.dataAbort va) s

/-- A store through a global descriptor is carried out like any other. Of the kernel's own
objects the ownership map is the one that is followed. -/
def storeByte (a : ℕ) (b : UInt8) : Kern Unit := fun s =>
  let va := a % 2 ^ 32
  match (s.vm.fldAt va).translate va with
  | some pa =>
    let t : Machine := { s with mem := Function.update s.mem pa b }
    if (s.vm.fldAt va).nG = 0 then .ok () (t.step .wild (·.poke s.mapAddr pa b)) else .ok () t
  | none => .error (.dataAbort va) s

/-- Memory as the running process sees it. -/
def mmu : Bus Machine := ⟨loadByte, storeByte⟩

end SimplePiOS.Kernel
