import SimplePiOS.Libpi.CopyLoop
import SimplePiOS.Shell.Loader

/-! Where `load_code` stores what it receives. -/
namespace SimplePiOS.Shell
open Lib Lib.Fifo Libpi
open Boot (ack)

/-- The stores of `load_code` on the words it gets. -/
def loadCodeStores : List (BitVec 32) → List Store
  | version :: addr :: nbytes :: _ :: ws =>
    if version ≠ protocolVersion then []
    else if addr < lastUsedAddresses ∨ addr + nbytes > maxAddress then []
    else if nbytes % 4 ≠ 0 then []
    else (copyLoop addr.toNat nbytes.toNat 0 ws).1
  | _ => []

/-- Nothing is stored outside the window for programs. -/
def StaysInWindow (ws : List (BitVec 32)) : Prop :=
  ∀ st ∈ loadCodeStores ws, st.Within lastUsedAddresses.toNat maxAddress.toNat

section Stores
variable {v a n c : BitVec 32} {data ws : List (BitVec 32)} {st : Store}

theorem loadCodeStores_ok (h : HeaderOk v a n) :
    loadCodeStores (v :: a :: n :: c :: data) = (copyLoop a.toNat n.toNat 0 data).1 := by
  obtain ⟨hv, haddr, hn⟩ := h.checks
  change (if v ≠ protocolVersion then [] else if a < lastUsedAddresses ∨ a + n > maxAddress then []
    else if n % 4 ≠ 0 then [] else (copyLoop a.toNat n.toNat 0 data).1) = _
  rw [if_neg hv, if_neg haddr, if_neg hn]

/-- A header that is refused has none. -/
theorem of_mem_loadCodeStores (h : st ∈ loadCodeStores ws) :
    ∃ v a n c data, ws = v :: a :: n :: c :: data ∧ HeaderOk v a n := by
  unfold loadCodeStores at h
  split at h
  · next v a n c data =>
    split_ifs at h with hv haddr hn
    · cases h
    · cases h
    · cases h
    · obtain ⟨hlow, hhigh⟩ := not_or.mp haddr
      exact ⟨v, a, n, c, data, rfl,
        ⟨not_not.mp hv, BitVec.not_lt.mp hlow, BitVec.not_lt.mp hhigh, not_not.mp hn⟩⟩
  · cases h

/-- After a header that is accepted the program is in its loop. -/
theorem solo_accepted (h : HeaderOk v a n) (fuel : ℕ) (m : Mem) :
    ∃ k, ∀ data outs q, Solo nextLoader (loadWords a.toNat n.toNat fuel 0 m >>= k)
        (wordBytes data) outs q →
      Solo nextLoader (loadCode fuel m) (wordBytes (v :: a :: n :: c :: data))
        (leBytes ack ++ (leBytes ack ++ outs)) q := by
  obtain ⟨hv, haddr, hn⟩ := h.checks
  apply Exists.intro
  intro data outs q hloop
  unfold loadCode
  simp only [wordBytes_cons]
  apply solo_putUint
  apply solo_getUint
  apply solo_getUint
  apply solo_getUint
  apply solo_getUint
  rw [if_neg hv, if_neg haddr, if_neg hn]
  apply solo_putUint
  exact hloop

/-- While it waits for data, it has made the stores of the words it got. -/
theorem solo_loadCodeStores (h : HeaderOk v a n) (fuel : ℕ) (m : Mem)
    (hwaits : (copyLoop a.toNat n.toNat 0 data).2 = none) :
    ∃ j k outs, Solo nextLoader (loadCode (data.length + fuel) m)
      (wordBytes (v :: a :: n :: c :: data)) outs
      (loadWords a.toNat n.toNat fuel j
        ((loadCodeStores (v :: a :: n :: c :: data)).foldl Store.apply m) >>= k) := by
  obtain ⟨k, hk⟩ := solo_accepted (c := c) h (data.length + fuel) m
  obtain ⟨j, hsolo⟩ : ∃ j, Solo nextLoader (_ >>= k) (wordBytes data) []
      (loadWords a.toNat n.toNat fuel j (_ : Mem) >>= k) := solo_copyLoop_waits hwaits
  rw [loadCodeStores_ok h]
  exact ⟨j, k, _, hk data [] _ hsolo⟩

theorem HeaderOk.window (h : HeaderOk v a n) : lastUsedAddresses.toNat ≤ a.toNat ∧
    (a.toNat + n.toNat) % 2 ^ 32 ≤ maxAddress.toNat ∧ n.toNat % 4 = 0 := by
  have hhigh := BitVec.le_def.mp h.high
  rw [BitVec.toNat_add] at hhigh
  refine ⟨BitVec.le_def.mp h.low, hhigh, ?_⟩
  have h4 := congrArg BitVec.toNat h.aligned
  rwa [BitVec.toNat_umod] at h4

theorem HeaderOk.staysInWindow (h : HeaderOk v a n) :
    StaysInWindow (v :: a :: n :: c :: data) ↔ a.toNat + n.toNat < 2 ^ 32 ∨ data = [] ∨
      a.toNat + 4 * data.length ≤ maxAddress.toNat := by
  have hmax : maxAddress.toNat = 0x16000000 := rfl
  have hlast : lastUsedAddresses.toNat = 0x9000000 := rfl
  obtain ⟨hlow, hhigh, h4⟩ := h.window
  have ha := a.isLt
  have hn := n.isLt
  unfold StaysInWindow
  rw [loadCodeStores_ok h, copyLoop_within_iff hlow (by omega) ha, ← List.length_eq_zero_iff]
  constructor
  · intro hin
    by_contra hbig
    have hlast := hin (data.length - 1) (by omega)
    have hfirst := hin ((maxAddress.toNat - a.toNat) / 4) (by omega)
    omega
  · intro hin j hj hlt
    omega

/-- The stores stay in the window exactly if the sum that is checked does not wrap around, or
the sender stops before the end of the window. -/
theorem staysInWindow_iff (ws : List (BitVec 32)) : StaysInWindow ws ↔
    ∀ v a n c data, ws = v :: a :: n :: c :: data → HeaderOk v a n →
      a.toNat + n.toNat < 2 ^ 32 ∨ data = [] ∨
        a.toNat + 4 * data.length ≤ maxAddress.toNat := by
  constructor
  · rintro hin v a n c data rfl h
    exact h.staysInWindow.mp hin
  · intro hin st hst
    obtain ⟨v, a, n, c, data, rfl, h⟩ := of_mem_loadCodeStores hst
    exact h.staysInWindow.mpr (hin v a n c data rfl h) st hst

/-- Eight bytes at the top of the address space: the sum is 4. -/
theorem loadCode_wraps : ¬ StaysInWindow [2, 0xFFFFFFFC, 8, 0, 0] := by
  intro h
  have hheader : HeaderOk 2 0xFFFFFFFC 8 := ⟨by decide, by decide, by decide, by decide⟩
  have hbad := hheader.staysInWindow.mp h
  have haddr : (0xFFFFFFFC : BitVec 32).toNat = 0xFFFFFFFC := rfl
  have hnbytes : (8 : BitVec 32).toNat = 8 := rfl
  have hmax : maxAddress.toNat = 0x16000000 := rfl
  rcases hbad with hsum | hnil | hend
  · omega
  · cases hnil
  · rw [haddr, hmax, List.length_singleton] at hend
    omega

end Stores
end SimplePiOS.Shell
