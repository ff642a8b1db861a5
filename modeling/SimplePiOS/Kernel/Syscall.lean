import SimplePiOS.Kernel.Vm

/-! syscall.c, and the kernel as a platform for libpi. -/
namespace SimplePiOS.Kernel
open Libpi

/-- `kernel_sbrk`; the process pointers of syscall.c are set from boot on. -/
def kernelSbrk (incr : ℕ) : Kern ℕ := do
  let pid := (← getVm).currentProc
  let proc := (← getVm).proc pid
  if incr ≠ 0 then
    if pid ≠ .kernel then setProcidTtbr0 kernelAsid kernelAsid
    mmuMapToMem proc.asid proc.heapEnd incr true
    if pid ≠ .kernel then setProcidTtbr0 proc.asid proc.asid
    memset mmu proc.heapEnd 0 incr
    perform .update (·.setHeapEnd (add32 proc.heapEnd incr) pid)
  let heapEnd := ((← getVm).proc pid).heapEnd
  perform (.ret .kernelSbrk) id
  return heapEnd

def setHeap (f : Heap → Heap) : Kern Unit := fun s => .ok () { s with heap := f s.heap }

def getHeap : Kern Heap := fun s => .ok s.heap s

/-- The platform of the kernel's own libpi calls: `rpi_sbrk` traps into `kernel_sbrk`. -/
def kernel : Platform Machine where
  toBus := mmu
  sbrk := kernelSbrk
  getHeap := getHeap
  setHeap := setHeap

end SimplePiOS.Kernel
