import SimplePiOS.Libpi.Block
import SimplePiOS.Libpi.Kmalloc

/-! The platform without address translation: 32-bit byte memory and a break that moves
freely. `kmalloc` hands out blocks there. -/
namespace SimplePiOS.Libpi
open Lib

structure Flat where
  mem : ℕ → UInt8
  brk : ℕ
  heap : Heap

namespace Flat

def load (a : ℕ) : EStateM Stop Flat UInt8 := fun s => .ok (s.mem (a % 2 ^ 32)) s

def store (a : ℕ) (b : UInt8) : EStateM Stop Flat Unit := fun s =>
  .ok () { s with mem := Function.update s.mem (a % 2 ^ 32) b }

def sbrk (incr : ℕ) : EStateM Stop Flat ℕ := fun s =>
  .ok (add32 s.brk incr) { s with brk := add32 s.brk incr }

def setHeap (f : Heap → Heap) : EStateM Stop Flat Unit := fun s =>
  .ok () { s with heap := f s.heap }

/-- The bytes of a range, in address order. -/
def bytes (s : Flat) (base n : ℕ) : List UInt8 := (List.range n).map fun i => s.mem (base + i)

/-- Where the next block starts. -/
def cursor (s : Flat) : ℕ := if s.heap.heapStart = 0 then s.brk else s.heap.heap

/-- The allocator's statics agree with the break, and a block of `n` bytes fits below the
top of the address space with the break rounded up. -/
structure Room (s : Flat) (n : ℕ) : Prop where
  heap_le : s.heap.heapStart ≠ 0 → s.heap.heap ≤ s.brk
  heapEnd_eq : s.heap.heapStart ≠ 0 → s.heap.heapEnd = s.brk
  brk_lt : s.brk < 2 ^ 32
  fits : s.cursor + n + 2 ^ 20 ≤ 2 ^ 32

end Flat

def flat : Platform Flat where
  load := Flat.load
  store := Flat.store
  sbrk := Flat.sbrk
  getHeap := fun s => .ok s.heap s
  setHeap := Flat.setHeap

section Run
variable (s : Flat)

@[simp] theorem run_load_flat (a : ℕ) :
    (flat.load a).run s = .ok (s.mem (a % 2 ^ 32)) s := rfl

@[simp] theorem run_getHeap_flat : flat.getHeap.run s = .ok s.heap s := rfl

@[simp] theorem run_setHeap_flat (f : Heap → Heap) :
    (flat.setHeap f).run s = .ok () { s with heap := f s.heap } := rfl

@[simp] theorem run_sbrk_flat (incr : ℕ) :
    (flat.sbrk incr).run s = .ok (add32 s.brk incr) { s with brk := add32 s.brk incr } := rfl

end Run

/-- Any range below the top of the address space is a block, and stores to it leave the
rest of the memory as it is in `s₀`. -/
def flatBlock (s₀ : Flat) (base n : ℕ) (h : base + n ≤ 2 ^ 32) : Block flat.toBus base n where
  inv s := ∀ a, a < base ∨ base + n ≤ a → s.mem a = s₀.mem a
  get s i := s.mem (base + i)
  set i b s := { s with mem := Function.update s.mem (base + i) b }
  load_eq := by
    intro s i _ hi
    change EStateM.Result.ok (s.mem ((base + i) % 2 ^ 32)) s = _
    rw [Nat.mod_eq_of_lt (by omega)]
  store_eq := by
    intro s i b _ hi
    change EStateM.Result.ok () { s with mem := Function.update s.mem ((base + i) % 2 ^ 32) b } = _
    rw [Nat.mod_eq_of_lt (by omega)]
  inv_set := by
    intro s i b hs hi a ha
    have hne : a ≠ base + i := by omega
    simp only [Function.update_of_ne hne]
    exact hs a ha
  get_set := by
    intro s i j b _ _ _
    simp [Function.update_apply]

theorem kmallocGrow_enough {s : Flat} {n : ℕ} (fuel : ℕ) (h : ¬ add32 s.heap.heap n > s.heap.heapEnd) :
    (kmallocGrow flat n (fuel + 1)).run s = .ok () s :=
  kmallocGrow_fits (run_getHeap_flat s) h

/-- One turn of the loop moves the break. -/
theorem kmallocGrow_more {s : Flat} {n k : ℕ} (fuel : ℕ) (hend : s.heap.heapEnd = s.brk)
    (hgt : add32 s.heap.heap n > s.heap.heapEnd)
    (hincr : roundup (sub32 (add32 s.heap.heap n) s.heap.heapEnd) (2 ^ 20) = k) :
    ∃ t, (kmallocGrow flat n (fuel + 1)).run s = (kmallocGrow flat n fuel).run t ∧
      t.mem = s.mem ∧ t.heap.heap = s.heap.heap ∧ t.heap.heapEnd = add32 s.brk k := by
  have hsbrk := run_sbrk_flat s k
  rw [← hend] at hsbrk
  have hstep := kmallocGrow_grows fuel (run_getHeap_flat s) hgt hincr hsbrk (run_setHeap_flat _ _)
  exact ⟨_, hstep, rfl, rfl, by rw [hend]⟩

theorem kmallocGrow_flat {s : Flat} {n fuel : ℕ} (hend : s.heap.heapEnd = s.brk)
    (hfits : s.heap.heap + n + 2 ^ 20 ≤ 2 ^ 32) (hfuel : 2 ≤ fuel) :
    ∃ t, (kmallocGrow flat n fuel).run s = .ok () t ∧ t.mem = s.mem ∧
      t.heap.heap = s.heap.heap := by
  obtain ⟨fuel, rfl⟩ : ∃ f, fuel = f + 2 := ⟨fuel - 2, by omega⟩
  have hsum : add32 s.heap.heap n = s.heap.heap + n := by
    unfold add32
    omega
  by_cases hgt : s.heap.heap + n > s.heap.heapEnd
  · obtain ⟨k, hincr, -, hlo, hhi⟩ := growth hgt hfits
    have hinc : add32 s.brk (k * 2 ^ 20) = s.brk + k * 2 ^ 20 := by
      unfold add32
      omega
    obtain ⟨t, hstep, hmem, hheap, hbrk⟩ :=
      kmallocGrow_more (fuel + 1) hend (by rwa [hsum]) hincr
    have hfit : ¬ add32 t.heap.heap n > t.heap.heapEnd := by
      rw [hheap, hbrk, hinc]
      omega
    exact ⟨t, hstep.trans (kmallocGrow_enough fuel hfit), hmem, hheap⟩
  · rw [← hsum] at hgt
    exact ⟨s, kmallocGrow_enough _ hgt, rfl, rfl⟩

/-- With room left the allocator returns a block and touches nothing else. -/
theorem kmalloc_flat {s : Flat} {n : ℕ} (fuel : ℕ) (hroom : s.Room n) (h8 : n % 8 = 0)
    (hfuel : 2 ≤ fuel) :
    ∃ t, (kmalloc flat fuel n).run s = .ok s.cursor t ∧
      ∀ a, a < s.cursor ∨ s.cursor + n ≤ a → t.mem a = s.mem a := by
  obtain ⟨-, hend, hbrk, hfits⟩ := hroom
  have hwipe : ∀ u : Flat, ∃ t, (memset flat.toBus s.cursor 0 n).run u = .ok () t ∧
      ∀ a, a < s.cursor ∨ s.cursor + n ≤ a → t.mem a = u.mem a := by
    intro u
    let B := flatBlock u s.cursor n (by omega)
    obtain ⟨t, hrun, hst⟩ := B.memset_eq (s := u) 0 (fun _ _ => rfl) (by omega)
    exact ⟨t, hrun, hst.inv⟩
  have hblock : ∀ u : Flat, u.mem = s.mem → u.heap.heap = s.cursor →
      u.heap.heapEnd = u.brk → ∃ t, (kmallocTake flat fuel n).run u = .ok s.cursor t ∧
      ∀ a, a < s.cursor ∨ s.cursor + n ≤ a → t.mem a = s.mem a := by
    intro u hmem hcur hend
    obtain ⟨v, hgrow, hvmem, hvcur⟩ := kmallocGrow_flat (n := n) hend (by omega) hfuel
    obtain ⟨t, hrun, hframe⟩ := hwipe { v with heap := { v.heap with heap := add32 s.cursor n } }
    have hvcur' : v.heap.heap = s.cursor := hvcur.trans hcur
    have htake := kmallocTake_run hgrow (run_getHeap_flat v) (run_setHeap_flat v _)
      (by rw [hvcur']; exact hrun)
    refine ⟨t, hvcur' ▸ htake, ?_⟩
    intro a ha
    rw [hframe a ha, hvmem, hmem]
  by_cases h0 : s.heap.heapStart = 0
  · have hcur : s.cursor = s.brk := if_pos h0
    have hbrk0 : add32 s.brk 0 = s.brk := Nat.mod_eq_of_lt hbrk
    rw [kmalloc_first (run_getHeap_flat s) h0 (run_sbrk_flat s 0) (run_setHeap_flat _ _), hbrk0,
      roundup_eight h8 (by omega)]
    exact hblock _ rfl hcur.symm rfl
  · have hcur : s.cursor = s.heap.heap := if_neg h0
    rw [kmalloc_started (run_getHeap_flat s) h0, roundup_eight h8 (by omega)]
    exact hblock s rfl hcur.symm (hend h0)

section Memcpy
variable {s : Flat} {dst src n : ℕ}

/-- The state after a store. -/
def Flat.put (s : Flat) (a : ℕ) (b : UInt8) : Flat :=
  { s with mem := Function.update s.mem (a % 2 ^ 32) b }

theorem run_store_flat (s : Flat) (a : ℕ) (b : UInt8) :
    (flat.store a b).run s = .ok () (s.put a b) := rfl

/-- A store leaves the bytes of the other residue classes alone. -/
theorem put_mem_of_mod {a p : ℕ} {b : UInt8} (h : a % 4 ≠ p % 4) :
    (s.put p b).mem (a % 2 ^ 32) = s.mem (a % 2 ^ 32) := by
  apply Function.update_of_ne
  omega

/-- One word of the word path is four bytes of the byte path: what the byte path has stored of
the word is not what it loads next, since both pointers are aligned. -/
theorem copy_word (hdst : dst % 4 = 0) (hsrc : src % 4 = 0) (s : Flat) :
    ∃ t, (∀ m, (copyWords flat.toBus dst src (m + 1)).run s =
        (copyWords flat.toBus (dst + 4) (src + 4) m).run t) ∧
      ∀ m, (copyBytes flat.toBus dst src (m + 4)).run s =
        (copyBytes flat.toBus (dst + 4) (src + 4) m).run t := by
  let b : ℕ → UInt8 := fun i => s.mem ((src + i) % 2 ^ 32)
  let s₁ := s.put dst (b 0)
  let s₂ := s₁.put (dst + 1) (b 1)
  let s₃ := s₂.put (dst + 2) (b 2)
  have h₁ : s₁.mem ((src + 1) % 2 ^ 32) = b 1 := put_mem_of_mod (by omega)
  have h₂ : s₂.mem ((src + 2) % 2 ^ 32) = b 2 := by
    rw [put_mem_of_mod (by omega), put_mem_of_mod (by omega)]
  have h₃ : s₃.mem ((src + 3) % 2 ^ 32) = b 3 := by
    rw [put_mem_of_mod (by omega), put_mem_of_mod (by omega), put_mem_of_mod (by omega)]
  refine ⟨s₃.put (dst + 3) (b 3), fun m => rfl, ?_⟩
  intro m
  have hload₁ := run_load_flat s₁ (src + 1)
  have hload₂ := run_load_flat s₂ (src + 2)
  have hload₃ := run_load_flat s₃ (src + 3)
  rw [h₁] at hload₁
  rw [h₂] at hload₂
  rw [h₃] at hload₃
  have hstep : ∀ (p q m : ℕ) (u : Flat) (c : UInt8), (flat.load q).run u = .ok c u →
      (copyBytes flat.toBus p q (m + 1)).run u =
        (copyBytes flat.toBus (p + 1) (q + 1) m).run (u.put p c) := by
    intro p q m u c hload
    rw [copyBytes, bind_ok hload, bind_ok (run_store_flat u p c)]
  rw [hstep dst src (m + 3) s (b 0) (run_load_flat s src), hstep _ _ (m + 2) _ _ hload₁,
    hstep _ _ (m + 1) _ _ hload₂, hstep _ _ m _ _ hload₃]

/-- `memcpy` by words and by bytes, whether or not the ranges overlap. -/
theorem copyWords_eq_copyBytes (hdst : dst % 4 = 0) (hsrc : src % 4 = 0) (m : ℕ) (s : Flat) :
    (copyWords flat.toBus dst src m).run s = (copyBytes flat.toBus dst src (4 * m)).run s := by
  induction m generalizing dst src s with
  | zero => rfl
  | succ m ih =>
    obtain ⟨t, hwords, hbytes⟩ := copy_word hdst hsrc s
    rw [hwords m, Nat.mul_succ, hbytes (4 * m)]
    exact ih (by omega) (by omega) t

/-- Ranges that do not overlap: the bytes are copied and nothing else changes. -/
theorem memcpy_disjoint (s : Flat) (hdst : dst + n ≤ 2 ^ 32) (hsrc : src + n ≤ 2 ^ 32)
    (happart : dst + n ≤ src ∨ src + n ≤ dst) :
    ∃ t, (memcpy flat.toBus dst src n).run s = .ok () t ∧ ∀ a, t.mem a =
      if dst ≤ a ∧ a < dst + n then s.mem (src + (a - dst)) else s.mem a := by
  let B := flatBlock s dst n hdst
  have hlen : (s.bytes src n).length = n := by simp [Flat.bytes]
  have hsource : B.Source src (s.bytes src n) := by
    intro t ht i b hb
    obtain ⟨hi, hb⟩ := List.getElem?_eq_some_iff.mp hb
    rw [hlen] at hi
    have hmod : (src + i) % 2 ^ 32 = src + i := Nat.mod_eq_of_lt (by omega)
    have hkept : t.mem (src + i) = s.mem (src + i) := ht (src + i) (by omega)
    have hbyte : s.mem (src + i) = b := by
      rw [← hb]
      simp [Flat.bytes]
    rw [run_load_flat t, hmod, hkept, hbyte]
  obtain ⟨t, hrun, hst⟩ := B.memcpy_eq (s := s) (o := 0) (fun _ _ => rfl) hsource (by omega)
  rw [hlen] at hrun
  refine ⟨t, hrun, ?_⟩
  intro a
  by_cases ha : dst ≤ a ∧ a < dst + n
  · rw [if_pos ha]
    have hget : t.mem (dst + (a - dst)) = _ := hst.get_eq (a - dst) (by omega)
    have haddr : dst + (a - dst) = a := by omega
    rw [haddr] at hget
    rw [hget]
    have hi : a - dst < n := by omega
    simp [Flat.bytes, List.getD_eq_getElem?_getD, hi]
  · rw [if_neg ha]
    exact hst.inv a (by omega)

/-- The two paths of `memcpy` agree, and it copies. -/
theorem memcpy_paths (s : Flat) (dst src n : ℕ) (hdst : dst + n ≤ 2 ^ 32)
    (hsrc : src + n ≤ 2 ^ 32) :
    (dst % 4 = 0 → src % 4 = 0 → n % 4 = 0 →
      (copyWords flat.toBus dst src (n / 4)).run s = (copyBytes flat.toBus dst src n).run s) ∧
    (dst + n ≤ src ∨ src + n ≤ dst →
      ∃ t, (memcpy flat.toBus dst src n).run s = .ok () t ∧ ∀ a, t.mem a =
        if dst ≤ a ∧ a < dst + n then s.mem (src + (a - dst)) else s.mem a) := by
  constructor
  · intro hd hs hn
    have hmul : 4 * (n / 4) = n := by omega
    rw [copyWords_eq_copyBytes hd hs, hmul]
  · exact memcpy_disjoint s hdst hsrc

/-- Memory that holds its own addresses. -/
def countingFlat : Flat := ⟨UInt8.ofNat, 0, ⟨0, 0, 0⟩⟩

/-- An overlap by one word, which repeats it, and a copy without one. -/
theorem memcpy_paths_counting :
    (copyWords flat.toBus 4 0 3).run countingFlat = (copyBytes flat.toBus 4 0 12).run countingFlat ∧
    ∃ t, (memcpy flat.toBus 21 2 7).run countingFlat = .ok () t ∧ ∀ a, t.mem a =
      if 21 ≤ a ∧ a < 21 + 7 then UInt8.ofNat (2 + (a - 21)) else UInt8.ofNat a :=
  ⟨(memcpy_paths countingFlat 4 0 12 (by decide) (by decide)).1 rfl rfl rfl,
    (memcpy_paths countingFlat 21 2 7 (by decide) (by decide)).2 (.inr (by decide))⟩

end Memcpy

end SimplePiOS.Libpi
