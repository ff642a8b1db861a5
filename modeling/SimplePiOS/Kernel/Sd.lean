import SimplePiOS.Kernel.Fs

/-! disk/sd.c: the driver of the card's controller. The controller is arbitrary: what a
register reads depends on all accesses so far in any way it likes. -/
namespace SimplePiOS.Kernel.Sd
open Lib Libpi

/-- The registers at `MMIO_BASE+0x00300000`. -/
inductive Emmc where
  | arg2 | blksizecnt | arg1 | cmdtm | resp0 | resp1 | resp2 | resp3 | data | status
  | control0 | control1 | interrupt | intMask | intEn | control2 | slotisrVer
  deriving DecidableEq

/-- An access; what a read yields is up to the controller. -/
inductive Access where
  | read (r : Emmc)
  | write (r : Emmc) (v : BitVec 32)
  /-- `delay_us`, which the driver calls `wait_msec`. -/
  | waitUs (n : ℕ)
  deriving DecidableEq

/-- What a register reads after the accesses so far, the last one first. -/
abbrev Device := List Access → Emmc → BitVec 32

/-- The variables of `sd_init` that the reads and writes look at. -/
structure Statics where
  scr : Fin 2 → BitVec 32
  rca : BitVec 32

structure State (σ : Type) where
  statics : Statics
  err : BitVec 32
  /-- Every access, the last one first. -/
  log : List Access
  /-- The memory of the caller's buffer. -/
  mach : σ

abbrev SdM (σ : Type) := EStateM Stop (State σ)

def sdOk : BitVec 32 := 0
def sdTimeout : BitVec 32 := -1
def sdError : BitVec 32 := -2

def cmdNeedApp : BitVec 32 := 0x80000000
def cmdRspns48 : BitVec 32 := 0x00020000
def cmdErrorsMask : BitVec 32 := 0xfff9c004
def cmdRcaMask : BitVec 32 := 0xffff0000

def cmdGoIdle : BitVec 32 := 0x00000000
def cmdAllSendCid : BitVec 32 := 0x02010000
def cmdSendRelAddr : BitVec 32 := 0x03020000
def cmdSendIfCond : BitVec 32 := 0x08020000
def cmdStopTrans : BitVec 32 := 0x0C030000
def cmdReadSingle : BitVec 32 := 0x11220010
def cmdReadMulti : BitVec 32 := 0x12220032
def cmdSetBlockcnt : BitVec 32 := 0x17020000
def cmdWriteSingle : BitVec 32 := 0x18220010
def cmdWriteMulti : BitVec 32 := 0x19220032
def cmdAppCmd : BitVec 32 := 0x37000000
def cmdSendOpCond : BitVec 32 := 0x29020000 ||| cmdNeedApp

def srWriteAvailable : BitVec 32 := 0x00000400
def srDatInhibit : BitVec 32 := 0x00000002
def srCmdInhibit : BitVec 32 := 0x00000001
def srAppCmd : BitVec 32 := 0x00000020

def intDataTimeout : BitVec 32 := 0x00100000
def intCmdTimeout : BitVec 32 := 0x00010000
def intReadRdy : BitVec 32 := 0x00000020
def intWriteRdy : BitVec 32 := 0x00000010
def intCmdDone : BitVec 32 := 0x00000001
def intErrorMask : BitVec 32 := 0x017E8000

def scrSuppSetBlkcnt : BitVec 32 := 0x02000000
def scrSuppCcs : BitVec 32 := 0x00000001

variable {σ : Type} (dev : Device)

def read (r : Emmc) : SdM σ (BitVec 32) := fun s =>
  .ok (dev s.log r) { s with log := .read r :: s.log }

def write (r : Emmc) (v : BitVec 32) : SdM σ Unit := fun s =>
  .ok () { s with log := .write r v :: s.log }

def waitMsec (n : ℕ) : SdM σ Unit := fun s => .ok () { s with log := .waitUs n :: s.log }

def setErr (e : BitVec 32) : SdM σ Unit := fun s => .ok () { s with err := e }
def getErr : SdM σ (BitVec 32) := fun s => .ok s.err s
def statics : SdM σ Statics := fun s => .ok s.statics s

/-- A load or a store of the caller's memory. -/
def onMach {α : Type} (m : EStateM Stop σ α) : SdM σ α := fun s =>
  match m.run s.mach with
  | .ok a t => .ok a { s with mach := t }
  | .error e t => .error e { s with mach := t }

/-- `while (busy && cnt--) delay;`: the count it leaves is -1 when it ran out. -/
def poll (busy : SdM σ Bool) (delay : SdM σ Unit) : ℕ → SdM σ ℤ
  | 0 => do
    if ← busy then return -1 else return 0
  | cnt + 1 => do
    if ← busy then
      delay
      poll busy delay cnt
    else return cnt + 1

/-- `SD_OK` once the bits of `mask` are clear and no error is shown; a wait that uses the
last count is an error even if they are clear by then. -/
def sdStatus (mask : BitVec 32) : SdM σ (BitVec 32) := do
  let cnt ← poll (do
    if (← read dev .status) &&& mask = 0 then return false
    return (← read dev .interrupt) &&& intErrorMask = 0) (waitMsec 1) 500000
  if cnt ≤ 0 then return sdError
  if (← read dev .interrupt) &&& intErrorMask ≠ 0 then return sdError
  return sdOk

def sdInt (mask : BitVec 32) : SdM σ (BitVec 32) := do
  let m := mask ||| intErrorMask
  let cnt ← poll (do return (← read dev .interrupt) &&& m = 0) (waitMsec 1) 1000000
  let r ← read dev .interrupt
  if cnt ≤ 0 ∨ r &&& intCmdTimeout ≠ 0 ∨ r &&& intDataTimeout ≠ 0 then
    write .interrupt r
    return sdTimeout
  if r &&& intErrorMask ≠ 0 then
    write .interrupt r
    return sdError
  write .interrupt mask
  return sdOk

/-- The end of `sd_cmd`: what a command that was carried out returns. Without
`CMD_NEED_APP`, no code is `CMD_SEND_OP_COND`. -/
def sdResponse (code arg : BitVec 32) : SdM σ (BitVec 32) := do
  let r ← read dev .resp0
  if code = cmdGoIdle ∨ code = cmdAppCmd then return 0
  if code = cmdAppCmd ||| cmdRspns48 then return r &&& srAppCmd
  if code = cmdSendOpCond then return r
  if code = cmdSendIfCond then return if r = arg then sdOk else sdError
  if code = cmdAllSendCid then
    let r3 ← read dev .resp3
    let r2 ← read dev .resp2
    let r1 ← read dev .resp1
    return r ||| r3 ||| r2 ||| r1
  if code = cmdSendRelAddr then
    setErr (((r &&& 0x1fff) ||| ((r &&& 0x2000) <<< 6) ||| ((r &&& 0x4000) <<< 8) |||
      ((r &&& 0x8000) <<< 8)) &&& cmdErrorsMask)
    return r &&& cmdRcaMask
  return r &&& cmdErrorsMask

def sdSettle (code : BitVec 32) : SdM σ Unit :=
  if code = cmdSendOpCond then waitMsec 1000
  else if code = cmdSendIfCond ∨ code = cmdAppCmd then waitMsec 100
  else pure ()

/-- `sd_cmd` behind its application prefix; `code` is free of `CMD_NEED_APP`. -/
def sdSend (code arg : BitVec 32) : SdM σ (BitVec 32) := do
  if (← sdStatus dev srCmdInhibit) ≠ sdOk then
    setErr sdTimeout
    return 0
  write .interrupt (← read dev .interrupt)
  write .arg1 arg
  write .cmdtm code
  sdSettle code
  let r ← sdInt dev intCmdDone
  if r ≠ sdOk then
    setErr r
    return 0
  sdResponse dev code arg

/-- The recursive call's own code is free of `CMD_NEED_APP`. -/
def sdCmd (code arg : BitVec 32) : SdM σ (BitVec 32) := do
  setErr sdOk
  if code &&& cmdNeedApp = 0 then sdSend dev code arg
  else
    let rca := (← statics).rca
    setErr sdOk
    let r ← sdSend dev (cmdAppCmd ||| if rca ≠ 0 then cmdRspns48 else 0) rca
    if rca ≠ 0 ∧ r = 0 then
      setErr sdError
      return 0
    sdSend dev (code &&& ~~~cmdNeedApp) arg

/-- `sd_cmd(..); if(sd_err)`: whether the command went well. -/
def sdCmdOk (code arg : BitVec 32) : SdM σ Bool := do
  let _ ← sdCmd dev code arg
  return (← getErr) = sdOk

/-- What `sd_readblock` and `sd_writeblock` differ in: the bits waited for, the commands, and
how a word of the buffer is moved. -/
structure Transfer (σ : Type) where
  inhibit : BitVec 32
  single : BitVec 32
  multi : BitVec 32
  ready : BitVec 32
  word : ℕ → SdM σ Unit

def hasCcs (v : Statics) : Prop := v.scr 0 &&& scrSuppCcs ≠ 0
def hasSetBlkcnt (v : Statics) : Prop := v.scr 0 &&& scrSuppSetBlkcnt ≠ 0

instance (v : Statics) : Decidable (hasCcs v) := inferInstanceAs (Decidable (_ ≠ _))
instance (v : Statics) : Decidable (hasSetBlkcnt v) := inferInstanceAs (Decidable (_ ≠ _))

/-- The command that moves all blocks of a card with `SCR_SUPP_CCS`. -/
def startCcs (T : Transfer σ) (lba num : ℕ) : SdM σ Bool := do
  write .blksizecnt (BitVec.ofNat 32 num <<< 16 ||| 512)
  sdCmdOk dev (if num = 1 then T.single else T.multi) (BitVec.ofNat 32 lba)

/-- What comes before the first block, and whether it went well. -/
def startBlocks (T : Transfer σ) (lba num : ℕ) : SdM σ Bool := do
  let v ← statics
  if hasCcs v then
    if num > 1 ∧ hasSetBlkcnt v then
      if ← sdCmdOk dev cmdSetBlockcnt (BitVec.ofNat 32 num) then startCcs dev T lba num
      else return false
    else startCcs dev T lba num
  else
    write .blksizecnt (1 <<< 16 ||| 512)
    return true

/-- The command before a block of a card without `SCR_SUPP_CCS`, addressed by bytes. -/
def startBlock (T : Transfer σ) (lba c : ℕ) : SdM σ Bool := do
  let v ← statics
  if hasCcs v then return true
  else sdCmdOk dev T.single (BitVec.ofNat 32 ((lba + c) * 512))

/-- The loop `while( c < num )`, with `k = num - c`. -/
def moveBlocks (T : Transfer σ) (lba : ℕ) : (k c buf : ℕ) → SdM σ Bool
  | 0, _, _ => return true
  | k + 1, c, buf => do
    if !(← startBlock dev T lba c) then return false
    let r ← sdInt dev T.ready
    if r ≠ sdOk then
      setErr r
      return false
    forM (List.range 128) fun d => T.word (buf + 4 * d)
    moveBlocks T lba k (c + 1) (buf + 512)

def stopBlocks (num : ℕ) : SdM σ Unit := do
  let v ← statics
  if num > 1 ∧ ¬ hasSetBlkcnt v ∧ hasCcs v then
    let _ ← sdCmd dev cmdStopTrans 0
  else return ()

/-- Both functions; the loop leaves `c = num`, so at its end only `sd_err` is left to test. -/
def sdBlocks (T : Transfer σ) (lba buffer num : ℕ) : SdM σ ℕ := do
  let num := if num < 1 then 1 else num
  if (← sdStatus dev T.inhibit) ≠ sdOk then
    setErr sdTimeout
    return 0
  if !(← startBlocks dev T lba num) then return 0
  if !(← moveBlocks dev T lba num 0 buffer) then return 0
  stopBlocks dev num
  if (← getErr) ≠ sdOk then return 0
  return num * 512 % 2 ^ 32

variable (bus : Bus σ)

/-- Words are stored with the low byte first. -/
def store32 (a : ℕ) (v : BitVec 32) : EStateM Stop σ Unit :=
  forM (List.range 4) fun i => bus.store (a + i) (UInt8.ofBitVec (v.extractLsb' (8 * i) 8))

def readTransfer : Transfer σ where
  inhibit := srDatInhibit
  single := cmdReadSingle
  multi := cmdReadMulti
  ready := intReadRdy
  word a := do
    let v ← read dev .data
    onMach (store32 bus a v)

def writeTransfer : Transfer σ where
  inhibit := srDatInhibit ||| srWriteAvailable
  single := cmdWriteSingle
  multi := cmdWriteMulti
  ready := intWriteRdy
  word a := do
    let v ← onMach (load32 bus a)
    write .data (BitVec.ofNat 32 v)

def sdReadblock (lba buffer num : ℕ) : SdM σ ℕ := sdBlocks dev (readTransfer dev bus) lba buffer num

def sdWriteblock (buffer lba num : ℕ) : SdM σ ℕ := sdBlocks dev (writeTransfer bus) lba buffer num

end SimplePiOS.Kernel.Sd
