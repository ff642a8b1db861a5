import SimplePiOS.Libpi.Uart

/-! The two ends of the boot protocol: simple-boot.c on the Unix side and bootloader.c on
the Pi. -/
namespace SimplePiOS.Boot
open Lib Lib.Fifo Libpi

/-- simple-boot.h. -/
abbrev armbase : ℕ := 0x8000
def soh : BitVec 32 := 0x12345678
def ack : BitVec 32 := 5
def nak : BitVec 32 := 6
def eot : BitVec 32 := 7

/-- How `simple_boot` ends. -/
inductive Outcome where
  | returned
  | panicked (msg : String)
  deriving DecidableEq

/-- Read a word and go on if it is the expected one. -/
def expect (msg : String) (v : BitVec 32) (p : Prog Byte Outcome) : Prog Byte Outcome := do
  let x ← getUint
  if x ≠ v then
    putUint nak
    return .panicked msg
  else p

def simpleBoot (buf : List Byte) : Prog Byte Outcome := do
  if buf.length % 4 ≠ 0 then return .panicked "n must be word-aligned"
  else
    let n := BitVec.ofNat 32 buf.length
    let codeChecksum := crc32 buf
    let sizeChecksum := crc32 (leBytes n)
    putUint soh
    putUint n
    putUint codeChecksum
    expect "bad SOH" soh <|
      expect "bad size cksum" sizeChecksum <|
      expect "bad code cksum" codeChecksum do
        putUint ack
        forM (toWords buf) putUint
        putUint eot
        expect "no ACK" ack (return .returned)

/-- The result of an attempt: the reply, the memory and, as a ghost, the size it used. -/
structure Received where
  response : BitVec 32
  mem : Mem
  size : ℕ

/-- `none` when the bound on the turns of the copying loop is used up. -/
def receiveImage (fuel : ℕ) (m : Mem) : Prog Byte (Option Received) := do
  let start ← getUint
  if start ≠ soh then return some ⟨nak, m, 0⟩
  else
    let size ← getUint
    let codeChecksum ← getUint
    let sizeChecksum := crc32 (leBytes size)
    putUint soh
    putUint sizeChecksum
    putUint codeChecksum
    let answer ← getUint
    if answer ≠ ack then return some ⟨nak, m, size.toNat⟩
    else
      match ← loadWords armbase size.toNat fuel 0 m with
      | none => return none
      | some m =>
        let last ← getUint
        if last ≠ eot then return some ⟨nak, m, size.toNat⟩
        else if crc32 (readBytes m armbase size.toNat) ≠ codeChecksum then
          return some ⟨nak, m, size.toNat⟩
        else return some ⟨ack, m, size.toNat⟩

/-- One turn of the `do` loop of `notmain`. -/
def attempt (fuel : ℕ) (m : Mem) : Prog Byte (Option Received) := do
  match ← receiveImage fuel m with
  | none => return none
  | some r =>
    putUint r.response
    return some r

/-- The loop goes round until it has answered ACK; then it branches to `ARMBASE`. -/
def nextAttempt (fuel : ℕ) : Option Received → Option (Prog Byte (Option Received))
  | none => none
  | some r => if r.response ≠ ack then some (attempt fuel r.mem) else none

/-- `simple_boot` runs once. -/
def nextHost (_ : Outcome) : Option (Prog Byte Outcome) := none

/-- Both ends at the start, nothing in flight. -/
def bootStart (fuel : ℕ) (buf : List Byte) (m : Mem) : Config Byte Outcome (Option Received) :=
  ⟨simpleBoot buf, attempt fuel m, [], [], 0⟩

/-- Any interleaving of the two ends; `noise i` replaces the `i`-th byte to the Pi. -/
abbrev BootStep (fuel : ℕ) (noise : ℕ → Byte → Byte) :
    Config Byte Outcome (Option Received) → Config Byte Outcome (Option Received) → Prop :=
  Step nextHost (nextAttempt fuel) noise

end SimplePiOS.Boot
