import SimplePiOS.Kernel.Syscall

/-! elf.c: the file is read where `exec_file` put it, through the kernel's table. -/
namespace SimplePiOS.Kernel
open Libpi

/-- `load_instr_t`, one constructor for each `op`. -/
inductive LoadInstr where
  | copy (dstAddr srcAddr size : ℕ)
  | zero (dstAddr size : ℕ)
  | jump (dstAddr : ℕ)
  deriving DecidableEq

/-- Entries of the array `instr_lst` in `exec_file`. -/
abbrev instrLstCapacity : ℕ := 256

def bssName : List UInt8 := [0x2e, 0x62, 0x73, 0x73]
def dataName : List UInt8 := [0x2e, 0x64, 0x61, 0x74, 0x61]
def data1Name : List UInt8 := [0x2e, 0x64, 0x61, 0x74, 0x61, 0x31]
def textName : List UInt8 := [0x2e, 0x74, 0x65, 0x78, 0x74]

abbrev ptLoad : ℕ := 1
abbrev shtProgbits : ℕ := 1
abbrev shtSymtab : ℕ := 2
abbrev shtNobits : ℕ := 8

def elfMagicValid (ehdr : ℕ) : Kern Bool :=
  strncmpEq mmu ehdr [0x7f, 0x45, 0x4c, 0x46]

/-- Append to the list behind the capacity check. -/
def emitInstr (instrLst : List LoadInstr) (instr : LoadInstr) : Kern (List LoadInstr) := do
  assert (instrLst.length ≠ instrLstCapacity) "load instruction list capacity too small"
  return instrLst ++ [instr]

/-- Fields of `Elf32_Phdr` and `Elf32_Shdr` at their offsets. -/
def phdrAt (phdrTab i : ℕ) : ℕ := add32 phdrTab (32 * i)
def shdrAt (shdrTab i : ℕ) : ℕ := add32 shdrTab (40 * i)
def pType (phdr : ℕ) : Kern ℕ := load32 mmu phdr
def pOffset (phdr : ℕ) : Kern ℕ := load32 mmu (phdr + 4)
def pVaddr (phdr : ℕ) : Kern ℕ := load32 mmu (phdr + 8)
def pFilesz (phdr : ℕ) : Kern ℕ := load32 mmu (phdr + 16)
def shName (shdr : ℕ) : Kern ℕ := load32 mmu shdr
def shType (shdr : ℕ) : Kern ℕ := load32 mmu (shdr + 4)
def shAddr (shdr : ℕ) : Kern ℕ := load32 mmu (shdr + 12)
def shOffset (shdr : ℕ) : Kern ℕ := load32 mmu (shdr + 16)
def shSize (shdr : ℕ) : Kern ℕ := load32 mmu (shdr + 20)
def shEntsize (shdr : ℕ) : Kern ℕ := load32 mmu (shdr + 36)

/-- The loop of `elf_load` over the program headers; `none` is its `return NULL`. -/
def loadPhdrs (pt : Asid) (fileData phdrTab : ℕ) :
    List ℕ → List LoadInstr → Kern (Option (List LoadInstr))
  | [], instrLst => return some instrLst
  | i :: is, instrLst => do
    let phdr := phdrAt phdrTab i
    let ty ← pType phdr
    if ty = ptLoad then
      let vaddr ← pVaddr phdr
      let filesz ← pFilesz phdr
      mmuMapToMem pt vaddr filesz false
      let offset ← pOffset phdr
      let instrLst ← emitInstr instrLst (.copy vaddr (add32 fileData offset) filesz)
      loadPhdrs pt fileData phdrTab is instrLst
    else return none

def locateSymbolTable (shdrTab : ℕ) : List ℕ → Kern ℕ
  | [] => return 0
  | i :: is => do
    let shdr := shdrAt shdrTab i
    if (← shType shdr) = shtSymtab then
      assert ((← shEntsize shdr) = 16) "symbol table entsize is wrong"
      return (← shSize shdr) / 16
    else locateSymbolTable shdrTab is

def sectionNameEq (shStrTab shdr : ℕ) (name : List UInt8) : Kern Bool := do
  let off ← shName shdr
  strcmpEq mmu (add32 shStrTab off) name

def initBssSections (pt : Asid) (shdrTab shStrTab : ℕ) :
    List ℕ → List LoadInstr → Kern (List LoadInstr)
  | [], instrLst => return instrLst
  | i :: is, instrLst => do
    let shdr := shdrAt shdrTab i
    if (← shType shdr) = shtNobits then
      if ← sectionNameEq shStrTab shdr bssName then
        let addr ← shAddr shdr
        let size ← shSize shdr
        mmuMapToMem pt addr size false
        let instrLst ← emitInstr instrLst (.zero addr size)
        initBssSections pt shdrTab shStrTab is instrLst
      else initBssSections pt shdrTab shStrTab is instrLst
    else initBssSections pt shdrTab shStrTab is instrLst

/-- The test of `get_heap_address` on one section. -/
def isHeapBelow (shStrTab shdr : ℕ) : Kern Bool := do
  let name := add32 shStrTab (← shName shdr)
  let ty ← shType shdr
  if ty = shtNobits then strcmpEq mmu name bssName
  else if ty = shtProgbits then
    if ← strcmpEq mmu name dataName then return true
    else strcmpEq mmu name data1Name
  else return false

def getHeapAddress (shdrTab shStrTab : ℕ) : List ℕ → ℕ → Kern ℕ
  | [], heapAddr => return heapAddr
  | i :: is, heapAddr => do
    let shdr := shdrAt shdrTab i
    if ← isHeapBelow shStrTab shdr then
      let addr ← shAddr shdr
      let size ← shSize shdr
      getHeapAddress shdrTab shStrTab is (max heapAddr (add32 addr size))
    else getHeapAddress shdrTab shStrTab is heapAddr

def locateTextSection (shdrTab shStrTab : ℕ) : List ℕ → Kern (Option ℕ)
  | [] => return none
  | i :: is => do
    let shdr := shdrAt shdrTab i
    if (← shType shdr) = shtProgbits then
      if ← sectionNameEq shStrTab shdr textName then return some shdr
      else locateTextSection shdrTab shStrTab is
    else locateTextSection shdrTab shStrTab is

/-- `elf_load` on the child process. The counts are read once: nothing in between stores
to the file. -/
def elfLoadBody (fileData nData : ℕ) (pt : Asid) : Kern (Option (List LoadInstr)) := do
  if nData < 52 then return none
  let ehdr := fileData
  if !(← elfMagicValid ehdr) then
    storeByte (ehdr + 4) 0
    return none
  if (← load16 mmu (ehdr + 16)) ≠ 2 then return none
  let phdrTab := add32 fileData (← load32 mmu (ehdr + 28))
  let shdrTab := add32 fileData (← load32 mmu (ehdr + 32))
  let shstrndx ← load16 mmu (ehdr + 50)
  let shStrTab := add32 fileData (← shOffset (shdrAt shdrTab shstrndx))
  let phnum ← load16 mmu (ehdr + 44)
  match ← loadPhdrs pt fileData phdrTab (List.range phnum) [] with
  | none => return none
  | some instrLst =>
    let shdrs := List.range (← load16 mmu (ehdr + 48))
    if (← locateSymbolTable shdrTab shdrs) = 0 then return none
    let instrLst ← initBssSections pt shdrTab shStrTab shdrs instrLst
    let heapStart ← getHeapAddress shdrTab shStrTab shdrs 0
    perform .update fun v =>
      { v with frame := v.frame.map fun f => { f with proc := { f.proc with heapStart := heapStart } } }
    match ← locateTextSection shdrTab shStrTab shdrs with
    | none => return none
    | some textSh =>
      let addr ← shAddr textSh
      return some (← emitInstr instrLst (.jump addr))

def elfLoad (fileData nData : ℕ) (pt : Asid) : Kern (Option (List LoadInstr)) := do
  let r ← elfLoadBody fileData nData pt
  perform (.ret .elfLoad) id
  return r

end SimplePiOS.Kernel
