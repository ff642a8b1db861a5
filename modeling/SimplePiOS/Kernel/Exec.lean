import SimplePiOS.Kernel.Elf

/-! exec.c. The loaded program is any sequence of `sbrk` system calls before it returns. -/
namespace SimplePiOS.Kernel
open Libpi

/-- `BRANCHTO` a program that grows its heap by the given increments. -/
def runProgram (sbrks : List ℕ) : Kern Unit :=
  forM sbrks fun incr => do
    let _ ← kernelSbrk incr

def execLoadInstr (sbrks : List ℕ) : LoadInstr → Kern Bool
  | .copy dstAddr srcAddr size => do
    let srcAddr := add32 srcAddr (procLoadAddr - kernelLoadAddr)
    memcpy mmu dstAddr srcAddr size
    return true
  | .zero dstAddr size => do
    memset mmu dstAddr 0 size
    return true
  | .jump _ => do
    let heapStart := ((← getVm).proc .child).heapStart
    if heapStart = 0 then return false
    perform .update (·.setHeapEnd heapStart .child)
    let originalProc := (← getVm).currentProc
    perform .update ({ · with currentProc := .child })
    runProgram sbrks
    perform .update ({ · with currentProc := originalProc })
    return true

/-- The load loop of `exec_file`, left at the first instruction that fails. -/
def execLoadInstrs (sbrks : List ℕ) : List LoadInstr → Kern Unit
  | [] => pure ()
  | instr :: is => do
    if ← execLoadInstr sbrks instr then execLoadInstrs sbrks is

/-- `sizeof(page_table_t)` covers this many descriptors. -/
abbrev pageTableFlds : ℕ := 258

/-- Start of `exec_file`: an empty table with the global sections. -/
def execInitTable : Kern Unit := do
  perform .update fun v =>
    { v with frame := some { proc := { heapStart := 0, heapEnd := 0, asid := childAsid }, file := none } }
  zeroFlds childAsid pageTableFlds
  mmuInit childAsid
  mmuMapKernelSections childAsid

/-- The child virtual page of a page of the load buffer. -/
def childPage (page : ℕ) : ℕ := add32 (sub32 (page * 2 ^ 20) kernelLoadAddr) procLoadAddr / 2 ^ 20

def sharePage (page : ℕ) : Kern Unit := do
  let pte := (← getVm).table kernelAsid page
  let childVa := add32 (sub32 (page * 2 ^ 20) kernelLoadAddr) procLoadAddr
  mmuMapSection childAsid childVa (pte.sec * 2 ^ 20) ⟨false, true, false⟩

/-- Pages `file_start_page` to `file_end_page`. -/
def filePages (nData : ℕ) : List ℕ :=
  let fileStartPage := kernelLoadAddr / 2 ^ 20
  let fileEndPage := sub32 (add32 kernelLoadAddr nData) 1 / 2 ^ 20
  List.range' fileStartPage (fileEndPage + 1 - fileStartPage)

/-- The middle of `exec_file`: the file goes to the load window, and the child shares it. -/
def execLoadFile (file : PiFile) : Kern PiFile := do
  let oldData := file.data
  let file := { file with data := kernelLoadAddr }
  perform .update fun v => { v with frame := v.frame.map ({ · with file := some file }) }
  mmuMapToMem kernelAsid file.data file.nAlloc true
  memcpy mmu file.data oldData file.nData
  forM (filePages file.nData) sharePage
  return file

def execFile (disk : Disk) (fuel : ℕ) (fs : Fat32) (entry : Dirent) (sbrks : List ℕ) :
    Kern Unit := do
  execInitTable
  let file ← fat32ReadFile kernel disk fuel fs entry
  let file ← execLoadFile file
  match ← elfLoad file.data file.nData childAsid with
  | none => pure ()
  | some instrLst =>
    setProcidTtbr0 childAsid childAsid
    execLoadInstrs sbrks instrLst
    setProcidTtbr0 kernelAsid kernelAsid
    mmuInvAsid childAsid
  mmuUnmap childAsid
  perform .update ({ · with frame := none })
  perform (.ret .execFile) id

end SimplePiOS.Kernel
