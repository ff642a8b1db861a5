import SimplePiOS.Boot.Protocol
import SimplePiOS.Libpi.CopyLoop

/-! Where the bootloader stores what it receives. -/
namespace SimplePiOS.Boot
open Lib Lib.Fifo Libpi

/-- start.s puts the code of the bootloader here. -/
abbrev bootloaderAddr : ℕ := 0x200000

/-- The stores of `receive_image` on the words it gets. -/
def receiveStores : List (BitVec 32) → List Store
  | start :: size :: _ :: answer :: ws =>
    if start ≠ soh then [] else if answer ≠ ack then []
    else (copyLoop armbase size.toNat 0 ws).1
  | _ => []

/-- Nothing is stored outside the space below the bootloader. -/
def StaysBelow (ws : List (BitVec 32)) : Prop :=
  ∀ st ∈ receiveStores ws, Store.Within armbase bootloaderAddr st

/-- The words of a handshake for `size` bytes, with data behind. -/
def handshake (size codeChecksum : BitVec 32) (data : List (BitVec 32)) : List (BitVec 32) :=
  soh :: size :: codeChecksum :: ack :: data

section Stores
variable {size codeChecksum : BitVec 32} {data ws : List (BitVec 32)} {st : Store}

theorem receiveStores_handshake :
    receiveStores (handshake size codeChecksum data) = (copyLoop armbase size.toNat 0 data).1 := by
  change (if soh ≠ soh then [] else if ack ≠ ack then []
    else (copyLoop armbase size.toNat 0 data).1) = _
  rw [if_neg (not_not_intro rfl), if_neg (not_not_intro rfl)]

/-- Without a handshake there are none. -/
theorem of_mem_receiveStores (h : st ∈ receiveStores ws) :
    ∃ size codeChecksum data, ws = handshake size codeChecksum data := by
  unfold receiveStores at h
  split at h
  · next start size codeChecksum answer data =>
    split_ifs at h with hstart hanswer
    · cases h
    · cases h
    · rw [not_not.mp hstart, not_not.mp hanswer]
      exact ⟨size, codeChecksum, data, rfl⟩
  · cases h

/-- After the handshake the program is in its loop. -/
theorem solo_handshake (size codeChecksum : BitVec 32) (fuel : ℕ) (m : Mem)
    {next : Option Received → Option (Prog Byte (Option Received))} :
    ∃ k, ∀ data outs q, Solo next (loadWords armbase size.toNat fuel 0 m >>= k)
        (wordBytes data) outs q →
      Solo next (receiveImage fuel m) (wordBytes (handshake size codeChecksum data))
        (leBytes soh ++ (leBytes (crc32 (leBytes size)) ++ (leBytes codeChecksum ++ outs))) q := by
  apply Exists.intro
  intro data outs q h
  unfold receiveImage handshake
  simp only [wordBytes_cons]
  apply solo_getUint
  rw [if_neg (not_not_intro rfl)]
  apply solo_getUint
  apply solo_getUint
  apply solo_putUint
  apply solo_putUint
  apply solo_putUint
  apply solo_getUint
  rw [if_neg (not_not_intro rfl)]
  exact h

/-- While it waits for data, it has made the stores of the words it got. -/
theorem solo_receiveStores (size codeChecksum : BitVec 32) (fuel : ℕ) (m : Mem)
    {next : Option Received → Option (Prog Byte (Option Received))}
    (hwaits : (copyLoop armbase size.toNat 0 data).2 = none) :
    ∃ j k outs, Solo next (receiveImage (data.length + fuel) m)
      (wordBytes (handshake size codeChecksum data)) outs
      (loadWords armbase size.toNat fuel j
        ((receiveStores (handshake size codeChecksum data)).foldl Store.apply m) >>= k) := by
  obtain ⟨k, hk⟩ : ∃ k, ∀ data outs q, Solo next _ (wordBytes data) outs q → Solo next _ _ _ q :=
    solo_handshake size codeChecksum (data.length + fuel) m
  obtain ⟨j, hsolo⟩ : ∃ j, Solo next (_ >>= k) (wordBytes data) []
      (loadWords armbase size.toNat fuel j (_ : Mem) >>= k) := solo_copyLoop_waits hwaits
  rw [receiveStores_handshake]
  exact ⟨j, k, _, hk data [] _ hsolo⟩

theorem staysBelow_handshake (size codeChecksum : BitVec 32) (data : List (BitVec 32)) :
    StaysBelow (handshake size codeChecksum data) ↔
      size.toNat ≤ bootloaderAddr - armbase ∨ 4 * data.length ≤ bootloaderAddr - armbase := by
  have harm : armbase = 0x8000 := rfl
  have hboot : bootloaderAddr = 0x200000 := rfl
  unfold StaysBelow
  rw [receiveStores_handshake, copyLoop_within_iff (by omega) (by omega) (by omega)]
  constructor
  · intro h
    by_contra hbig
    have := h 0x7E000 (by omega) (by omega)
    omega
  · intro h j hj hlt
    omega

/-- The bootloader keeps off itself exactly if the announced image ends below it or the words
that come do; and its loop ends unless the counter cannot pass the announced size. -/
theorem receiveImage_stays_below (ws : List (BitVec 32)) (announced : BitVec 32) :
    (StaysBelow ws ↔ ∀ size codeChecksum data, ws = handshake size codeChecksum data →
      size.toNat ≤ bootloaderAddr - armbase ∨ 4 * data.length ≤ bootloaderAddr - armbase) ∧
    (LoopEnds armbase announced.toNat ↔ announced.toNat ≤ 2 ^ 32 - 4) := by
  constructor
  · constructor
    · rintro h size codeChecksum data rfl
      exact (staysBelow_handshake size codeChecksum data).mp h
    · intro h st hst
      obtain ⟨size, codeChecksum, data, rfl⟩ := of_mem_receiveStores hst
      exact (staysBelow_handshake size codeChecksum data).mpr (h size codeChecksum data rfl) st hst
  · exact loopEnds_iff

/-- One word more than there is room for, and a size no multiple of 4 reaches. -/
theorem receiveImage_overruns :
    ¬ StaysBelow (handshake 0x1F8004 0 (List.replicate 0x7E001 0)) ∧
    ¬ LoopEnds armbase (0xFFFFFFFF : BitVec 32).toNat := by
  have harm : armbase = 0x8000 := rfl
  have hboot : bootloaderAddr = 0x200000 := rfl
  have hsize : (0x1F8004 : BitVec 32).toNat = 0x1F8004 := rfl
  have htop : (0xFFFFFFFF : BitVec 32).toNat = 2 ^ 32 - 1 := rfl
  constructor
  · rw [staysBelow_handshake, List.length_replicate]
    omega
  · rw [loopEnds_iff]
    omega

end Stores

end SimplePiOS.Boot
