import SimplePiOS.Libpi.Kmalloc

/-! kmalloc_aligned of libpi/kmalloc.c. Its calls are mixed with those of `kmalloc`, on any
platform whose break moves as `sbrk` says. -/
namespace SimplePiOS.Libpi
open Lib

/-- The macro `is_pow2(x)`. -/
def isPow2 (x : BitVec 32) : Prop := x &&& -x = x

instance (x : BitVec 32) : Decidable (isPow2 x) := inferInstanceAs (Decidable (_ = _))

/-- The macro `roundup(x, n)` on any two words. -/
def roundupWord (x n : BitVec 32) : BitVec 32 := (x + (n - 1)) &&& ~~~(n - 1)

def kmallocAligned {σ : Type} (sys : Platform σ) (fuel : ℕ) (nbytes alignment : BitVec 32) :
    EStateM Stop σ ℕ := do
  assert (isPow2 alignment) "assuming power of two"
  let h := BitVec.ofNat 32 (← sys.getHeap).heap
  let h := roundupWord h alignment
  assert (h &&& (alignment - 1) = 0) "impossible"
  sys.setHeap ({ · with heap := h.toNat })
  kmalloc sys fuel nbytes.toNat

/-- A call of the allocator. -/
inductive Call where
  | kmalloc (nbytes : BitVec 32)
  | kmallocAligned (nbytes alignment : BitVec 32)

/-- The size of the call's block. -/
def Call.bytes : Call → ℕ
  | .kmalloc nbytes => blockBytes nbytes.toNat
  | .kmallocAligned nbytes _ => blockBytes nbytes.toNat

def Call.run {σ : Type} (sys : Platform σ) (fuel : ℕ) : Call → EStateM Stop σ ℕ
  | .kmalloc nbytes => Libpi.kmalloc sys fuel nbytes.toNat
  | .kmallocAligned nbytes alignment => Libpi.kmallocAligned sys fuel nbytes alignment

/-- Where the next block starts: the first call takes the break. -/
def Heap.cursor (h : Heap) (brk : ℕ) : ℕ := if h.heapStart = 0 then brk else h.heap

/-- The block ends below the top of the address space, and the rounding of the cursor is not
lost: the set-up overwrites it, and an alignment of 0 rounds to 0. -/
def Call.Fits (h : Heap) (brk : ℕ) : Call → Prop
  | .kmalloc nbytes => h.cursor brk + blockBytes nbytes.toNat < 2 ^ 32
  | .kmallocAligned nbytes alignment =>
    if h.heapStart = 0 then
      alignment.toNat ∣ brk ∧ brk + blockBytes nbytes.toNat < 2 ^ 32
    else
      alignment ≠ 0 ∧ (h.heap + (alignment.toNat - 1)) / alignment.toNat * alignment.toNat +
        blockBytes nbytes.toNat < 2 ^ 32

section Words
variable {x n : BitVec 32}

theorem and_not_add_and (x m : BitVec 32) : (x &&& ~~~m).toNat + (x &&& m).toNat = x.toNat := by
  have hdisj : (x &&& ~~~m) &&& (x &&& m) = 0 := by
    rw [BitVec.and_assoc, BitVec.and_comm (~~~m), BitVec.and_assoc x m, BitVec.and_not_self]
    simp
  have hor : (x &&& ~~~m) ||| (x &&& m) = x := by
    rw [← BitVec.and_or_distrib_left, BitVec.or_comm, BitVec.or_not_self, BitVec.and_allOnes]
  rw [← BitVec.toNat_add_of_and_eq_zero hdisj, BitVec.add_eq_or_of_and_eq_zero _ _ hdisj, hor]

/-- 0 passes the test with the powers of two. -/
theorem isPow2_iff : isPow2 x ↔ x = 0 ∨ ∃ k, x.toNat = 2 ^ k := by
  have hneg : -x = ~~~(x - 1) := by
    rw [BitVec.sub_eq_add_neg]
    bv_omega
  have hsplit := and_not_add_and x (x - 1)
  have htest : isPow2 x ↔ x &&& (x - 1) = 0 := by
    unfold isPow2
    rw [hneg]
    constructor
    · intro h
      rw [h] at hsplit
      apply BitVec.eq_of_toNat_eq
      change _ = 0
      omega
    · intro h
      rw [h] at hsplit
      exact BitVec.eq_of_toNat_eq hsplit
  rw [htest]
  by_cases hx : x = 0
  · simp [hx]
  · have hx1 : x.toNat ≠ 0 := fun h => hx (BitVec.eq_of_toNat_eq h)
    have hsub : (x - 1).toNat = x.toNat - 1 := by bv_omega
    have hpow := Nat.and_sub_one_eq_zero_iff_isPowerOfTwo hx1
    rw [← hsub, ← BitVec.toNat_and] at hpow
    constructor
    · intro h
      rw [h] at hpow
      exact .inr (hpow.mp rfl)
    · intro h
      exact BitVec.eq_of_toNat_eq (hpow.mpr (h.resolve_left hx))

theorem roundupWord_zero (x : BitVec 32) : roundupWord x 0 = 0 := by
  have hmask : ~~~((0 : BitVec 32) - 1) = 0 := by decide
  unfold roundupWord
  rw [hmask]
  exact BitVec.and_zero

/-- The second check of `kmalloc_aligned` passes as its text says. -/
theorem roundupWord_and (x n : BitVec 32) : roundupWord x n &&& (n - 1) = 0 := by
  unfold roundupWord
  rw [BitVec.and_assoc, BitVec.and_comm (~~~_), BitVec.and_not_self]
  exact BitVec.and_zero

theorem toNat_roundupWord {k : ℕ} (h : n.toNat = 2 ^ k) :
    (roundupWord x n).toNat = roundup x.toNat n.toNat := by
  have hpos : 1 ≤ n.toNat := by
    rw [h]
    exact Nat.one_le_two_pow
  have hsub : (n - 1).toNat = n.toNat - 1 := by bv_omega
  have hsplit := and_not_add_and (x + (n - 1)) (n - 1)
  have hmod : ((x + (n - 1)) &&& (n - 1)).toNat = (x + (n - 1)).toNat % n.toNat := by
    rw [BitVec.toNat_and, hsub, h]
    exact Nat.and_two_pow_sub_one_eq_mod _ _
  have hdiv := Nat.div_add_mod' (x + (n - 1)).toNat n.toNat
  have hsum : (x + (n - 1)).toNat = add32 x.toNat (n.toNat - 1) := by
    rw [BitVec.toNat_add, hsub]
    rfl
  unfold roundupWord roundup
  rw [← hsum]
  omega

end Words
/-- Past its checks it is `kmalloc` with a rounded cursor. -/
theorem kmallocAligned_run {σ : Type} {sys : Platform σ} {s u : σ} {h : Heap}
    {nbytes alignment : BitVec 32} (fuel : ℕ) (hpow : isPow2 alignment)
    (hget : sys.getHeap.run s = .ok h s)
    (hset : (sys.setHeap ({ · with heap :=
      (roundupWord (BitVec.ofNat 32 h.heap) alignment).toNat })).run s = .ok () u) :
    (kmallocAligned sys fuel nbytes alignment).run s = (kmalloc sys fuel nbytes.toNat).run u := by
  unfold kmallocAligned
  rw [bind_ok (run_assert hpow _ s), bind_ok hget]
  dsimp only
  rw [bind_ok (run_assert (roundupWord_and _ _) _ s), bind_ok hset]

/-- The allocator's statics and the break are where the platform says, and change as it is told. -/
structure Breaks {σ : Type} (sys : Platform σ) (live : σ → Prop) (statics : σ → Heap)
    (brk : σ → ℕ) : Prop where
  brk_lt : ∀ {s}, live s → brk s < 2 ^ 32
  getHeap : ∀ s, sys.getHeap.run s = .ok (statics s) s
  setHeap : ∀ {f s u t}, live s → (sys.setHeap f).run s = .ok u t →
    live t ∧ statics t = f (statics s) ∧ brk t = brk s
  sbrk : ∀ {n s r t}, live s → (sys.sbrk n).run s = .ok r t →
    live t ∧ statics t = statics s ∧ brk t = add32 (brk s) n ∧ r = brk t
  store : ∀ {a b s u t}, live s → (sys.store a b).run s = .ok u t →
    live t ∧ statics t = statics s ∧ brk t = brk s

section Calls
variable {σ : Type} {sys : Platform σ} {live : σ → Prop} {statics : σ → Heap} {brk : σ → ℕ}
  {s t : σ} {fuel n a : ℕ}

namespace Breaks

theorem fillBytes (hb : Breaks sys live statics brk) {c : UInt8} {p n : ℕ} {u : Unit}
    (hs : live s) (hrun : (fillBytes sys.toBus c p n).run s = .ok u t) :
    live t ∧ statics t = statics s ∧ brk t = brk s := by
  induction n generalizing p s with
  | zero =>
    obtain rfl : s = t := (EStateM.Result.ok.inj hrun).2
    exact ⟨hs, rfl, rfl⟩
  | succ n ih =>
    obtain ⟨_, w, hstore, hrest⟩ := of_bind_ok hrun
    obtain ⟨hw, hheap, hbrk⟩ := hb.store hs hstore
    obtain ⟨ht, hheap', hbrk'⟩ := ih hw hrest
    exact ⟨ht, hheap'.trans hheap, hbrk'.trans hbrk⟩

/-- When the loop ends, the block it was asked for ends within the heap or wraps. -/
theorem kmallocGrow (hb : Breaks sys live statics brk) {u : Unit} (hs : live s)
    (hend : (statics s).heapEnd = brk s) (hrun : (kmallocGrow sys n fuel).run s = .ok u t) :
    live t ∧ (statics t).heap = (statics s).heap ∧ (statics t).heapStart = (statics s).heapStart ∧
      (statics t).heapEnd = brk t ∧ add32 (statics s).heap n ≤ brk t ∧ brk s ≤ brk t := by
  induction fuel generalizing s with
  | zero => cases hrun
  | succ fuel ih =>
    unfold Libpi.kmallocGrow at hrun
    rw [bind_ok (hb.getHeap s)] at hrun
    split at hrun
    case isTrue hgt =>
      obtain ⟨r, w, hsbrk, hgrown⟩ := of_bind_ok hrun
      obtain ⟨hw, hheap, hbrk, hr⟩ := hb.sbrk hs hsbrk
      obtain ⟨_, w', hassert, hchecked⟩ := of_bind_ok hgrown
      obtain ⟨hsame, rfl⟩ := of_assert_ok hassert
      obtain ⟨_, v, hset, hrest⟩ := of_bind_ok hchecked
      obtain ⟨hv, hheapv, hbrkv⟩ := hb.setHeap hw hset
      rw [hheap] at hheapv
      have hendv : (statics v).heapEnd = brk v := by
        rw [hheapv, hbrkv, ← hr]
        exact hsame.symm
      obtain ⟨ht, hcur, hstart, hendt, hfits, -⟩ := ih hv hendv hrest
      rw [hheapv] at hcur hstart hfits
      rw [hend] at hgt
      exact ⟨ht, hcur, hstart, hendt, hfits, Nat.le_trans (Nat.le_of_lt hgt) hfits⟩
    case isFalse hfits =>
      obtain rfl : s = t := (EStateM.Result.ok.inj hrun).2
      rw [hend] at hfits
      exact ⟨hs, rfl, rfl, hend, Nat.not_lt.mp hfits, Nat.le_refl _⟩

theorem kmallocTake (hb : Breaks sys live statics brk) (hs : live s)
    (hend : (statics s).heapEnd = brk s) (hrun : (kmallocTake sys fuel n).run s = .ok a t) :
    a = (statics s).heap ∧ live t ∧ (statics t).heap = add32 a n ∧
      (statics t).heapStart = (statics s).heapStart ∧ (statics t).heapEnd = brk t ∧
      add32 a n ≤ brk t ∧ brk s ≤ brk t := by
  obtain ⟨_, w, hgrow, hrun⟩ := of_bind_ok hrun
  obtain ⟨hw, hcur, hstart, hendw, hfits, hle⟩ := hb.kmallocGrow hs hend hgrow
  rw [bind_ok (hb.getHeap w)] at hrun
  obtain ⟨_, v, hset, hrun⟩ := of_bind_ok hrun
  obtain ⟨hv, hheapv, hbrkv⟩ := hb.setHeap hw hset
  obtain ⟨_, v', hclear, hrun⟩ := of_bind_ok hrun
  obtain ⟨hv', hheapv', hbrkv'⟩ := hb.fillBytes hv hclear
  obtain ⟨rfl, rfl⟩ := EStateM.Result.ok.inj hrun
  have hheap := hheapv'.trans hheapv
  have hbrk := hbrkv'.trans hbrkv
  rw [hheap, hbrk, hcur]
  exact ⟨rfl, hv', rfl, hstart, hendw, hfits, hle⟩

/-- The block starts at the cursor, and the new cursor is its end, wrapped. -/
theorem kmalloc (hb : Breaks sys live statics brk) (hs : live s)
    (hend : (statics s).heapStart ≠ 0 → (statics s).heapEnd = brk s)
    (hrun : (kmalloc sys fuel n).run s = .ok a t) :
    a = (statics s).cursor (brk s) ∧ live t ∧ (statics t).heap = add32 a (roundup n 8) ∧
      (statics t).heapEnd = brk t ∧ add32 a (roundup n 8) ≤ brk t ∧ brk s ≤ brk t := by
  by_cases h0 : (statics s).heapStart = 0
  · unfold Libpi.kmalloc at hrun
    dsimp only at hrun
    rw [bind_ok (hb.getHeap s), if_pos h0] at hrun
    obtain ⟨r, w, hsbrk, hrun⟩ := of_bind_ok hrun
    obtain ⟨hw, -, hbrk, hr⟩ := hb.sbrk hs hsbrk
    obtain ⟨_, v, hset, hrun⟩ := of_bind_ok hrun
    obtain ⟨hv, hheapv, hbrkv⟩ := hb.setHeap hw hset
    have hsame : brk w = brk s := by
      rw [hbrk]
      exact Nat.mod_eq_of_lt (hb.brk_lt hs)
    have hendv : (statics v).heapEnd = brk v := by rw [hheapv, hbrkv, hr]
    have htake : (Libpi.kmallocTake sys fuel (roundup n 8)).run v = .ok a t := hrun
    obtain ⟨ha, ht, hcur, -, hendt, hfits, hle⟩ := hb.kmallocTake hv hendv htake
    rw [hbrkv, hsame] at hle
    refine ⟨?_, ht, hcur, hendt, hfits, hle⟩
    rw [ha, hheapv, hr, hsame]
    exact (if_pos h0).symm
  · rw [kmalloc_started (hb.getHeap s) h0] at hrun
    obtain ⟨ha, ht, hcur, -, hendt, hfits, hle⟩ := hb.kmallocTake hs (hend h0) hrun
    refine ⟨?_, ht, hcur, hendt, hfits, hle⟩
    rw [ha]
    exact (if_neg h0).symm

/-- The set-up drops the rounded cursor. -/
theorem kmallocAligned (hb : Breaks sys live statics brk) {nbytes alignment : BitVec 32}
    (hs : live s) (hend : (statics s).heapStart ≠ 0 → (statics s).heapEnd = brk s)
    (hrun : (kmallocAligned sys fuel nbytes alignment).run s = .ok a t) :
    isPow2 alignment ∧
      a = (if (statics s).heapStart = 0 then brk s
        else (roundupWord (BitVec.ofNat 32 (statics s).heap) alignment).toNat) ∧
      live t ∧ (statics t).heap = add32 a (roundup nbytes.toNat 8) ∧ (statics t).heapEnd = brk t ∧
      add32 a (roundup nbytes.toNat 8) ≤ brk t ∧ brk s ≤ brk t := by
  obtain ⟨_, w, hassert, hpow⟩ := of_bind_ok hrun
  obtain ⟨halign, rfl⟩ := of_assert_ok hassert
  rw [bind_ok (hb.getHeap w)] at hpow
  obtain ⟨_, w', hassert', hchecked⟩ := of_bind_ok hpow
  obtain ⟨-, rfl⟩ := of_assert_ok hassert'
  obtain ⟨_, v, hset, hcall⟩ := of_bind_ok hchecked
  obtain ⟨hv, hheapv, hbrkv⟩ := hb.setHeap hs hset
  have hendv : (statics v).heapStart ≠ 0 → (statics v).heapEnd = brk v := by
    rw [hheapv, hbrkv]
    exact hend
  obtain ⟨ha, ht, hcur, hendt, hfits, hle⟩ := hb.kmalloc hv hendv hcall
  rw [hbrkv] at hle
  refine ⟨halign, ?_, ht, hcur, hendt, hfits, hle⟩
  rw [ha, hheapv, hbrkv]
  rfl

end Breaks

/-- The blocks lie below the cursor, in a heap that begins at `start`. -/
structure Carved (start : ℕ) (blocks : List (ℕ × ℕ)) (h : Heap) (brk : ℕ) : Prop where
  heapEnd : h.heapStart ≠ 0 → h.heapEnd = brk
  lo : start ≤ h.cursor brk
  hi : h.cursor brk ≤ brk
  below : ∀ b ∈ blocks, b.1 + b.2 ≤ h.cursor brk

/-- The block of `n` bytes at `a` is one of the heap, apart from `blocks` and aligned. -/
structure AlignedBlock (start : ℕ) (blocks : List (ℕ × ℕ)) (a n alignment brk : ℕ) : Prop where
  aligned : alignment ∣ a
  lo : start ≤ a
  hi : a + n ≤ brk
  apart : ∀ b ∈ blocks, b.1 + b.2 ≤ a ∨ a + n ≤ b.1

/-- From `s₀` on the program calls the allocator, each time within the call's bounds. What it does
besides leaves the allocator's statics and the break alone. -/
inductive Calls (sys : Platform σ) (live : σ → Prop) (statics : σ → Heap) (brk : σ → ℕ) (s₀ : σ) :
    List (ℕ × ℕ) → σ → Prop
  | start : Calls sys live statics brk s₀ [] s₀
  | other {blocks : List (ℕ × ℕ)} {s t : σ} : Calls sys live statics brk s₀ blocks s → live t →
    statics t = statics s → brk t = brk s → Calls sys live statics brk s₀ blocks t
  | call {blocks : List (ℕ × ℕ)} {s t : σ} {fuel a : ℕ} (c : Call) :
    Calls sys live statics brk s₀ blocks s → c.Fits (statics s) (brk s) →
    (c.run sys fuel).run s = .ok a t → Calls sys live statics brk s₀ ((a, c.bytes) :: blocks) t

section Step
variable {start : ℕ} {blocks : List (ℕ × ℕ)} {h : Heap} {b : ℕ}

theorem Carved.next {g : Heap} {e : ℕ} (hc : Carved start blocks h b) (ha : h.cursor b ≤ a)
    (hcur : g.heap = a + n) (hend : g.heapEnd = e) (hfits : a + n ≤ e) :
    Carved start ((a, n) :: blocks) g e := by
  have hlo := hc.lo
  have hcursor : a + n ≤ g.cursor e ∧ g.cursor e ≤ e := by
    unfold Heap.cursor
    rw [hcur]
    split
    · exact ⟨hfits, Nat.le_refl _⟩
    · exact ⟨Nat.le_refl _, hfits⟩
  refine ⟨fun _ => hend, by omega, hcursor.2, ?_⟩
  intro x hx
  rcases List.mem_cons.mp hx with rfl | hx
  · exact hcursor.1
  · have := hc.below x hx
    omega

/-- The rounding adds less than the alignment, and gives 0 when that wraps. -/
theorem roundup_cases {x k : ℕ} (hk : k < 2 ^ 32) (hx : x < 2 ^ 32) (hpos : 0 < k) :
    x + (k - 1) < 2 ^ 32 ∧ roundup x k = (x + (k - 1)) / k * k ∨
      2 ^ 32 ≤ x + (k - 1) ∧ roundup x k = 0 := by
  by_cases hfits : x + (k - 1) < 2 ^ 32
  · left
    have hsum : add32 x (k - 1) = x + (k - 1) := Nat.mod_eq_of_lt hfits
    unfold roundup
    rw [hsum]
    exact ⟨hfits, rfl⟩
  · right
    have hsum : add32 x (k - 1) = x + (k - 1) - 2 ^ 32 := by
      unfold add32
      omega
    unfold roundup
    rw [hsum, Nat.div_eq_of_lt (by omega), Nat.zero_mul]
    exact ⟨Nat.not_lt.mp hfits, rfl⟩

/-- Where the rounding wraps there is no multiple left below the top. -/
theorem ceil_ge_of_wraps {x k : ℕ} (hpow : k ∣ 2 ^ 32) (hpos : 0 < k) (h : 2 ^ 32 ≤ x + (k - 1)) :
    2 ^ 32 ≤ (x + (k - 1)) / k * k := by
  obtain ⟨m, hm⟩ := hpow
  have hquot : m ≤ (x + (k - 1)) / k := by
    rw [Nat.le_div_iff_mul_le hpos, Nat.mul_comm, ← hm]
    exact h
  calc
    2 ^ 32 = m * k := by rw [hm, Nat.mul_comm]
    _ ≤ (x + (k - 1)) / k * k := Nat.mul_le_mul_right k hquot

theorem le_ceil {x k : ℕ} (hpos : 0 < k) : x ≤ (x + (k - 1)) / k * k := by
  have hdiv := Nat.div_add_mod' (x + (k - 1)) k
  have hmod := Nat.mod_lt (x + (k - 1)) hpos
  omega

/-- What passes the test and is not 0 divides the size of the address space. -/
theorem isPow2.dvd {x : BitVec 32} (hpow : isPow2 x) (hx : x ≠ 0) :
    0 < x.toNat ∧ x.toNat ∣ 2 ^ 32 ∧ ∀ y : BitVec 32, (roundupWord y x).toNat = roundup y.toNat x.toNat := by
  obtain ⟨k, hk⟩ := (isPow2_iff.mp hpow).resolve_left hx
  have hlt : 2 ^ k < 2 ^ 32 := hk ▸ x.isLt
  have hk32 : k < 32 := (Nat.pow_lt_pow_iff_right (by omega)).mp hlt
  refine ⟨?_, ?_, fun y => toNat_roundupWord hk⟩
  · rw [hk]
    exact Nat.two_pow_pos k
  · rw [hk]
    exact Nat.pow_dvd_pow 2 (Nat.le_of_lt hk32)

variable {nbytes alignment : BitVec 32}

/-- A call within its bounds gets a block that starts at a multiple of the alignment. -/
theorem Breaks.placed (hb : Breaks sys live statics brk) (hs : live s)
    (hc : Carved start blocks (statics s) (brk s))
    (hrun : (Libpi.kmallocAligned sys fuel nbytes alignment).run s = .ok a t)
    (hfits : (Call.kmallocAligned nbytes alignment).Fits (statics s) (brk s)) :
    alignment.toNat ∣ a ∧ (statics s).cursor (brk s) ≤ a ∧ a + blockBytes nbytes.toNat < 2 ^ 32 := by
  obtain ⟨hpow, ha, -⟩ := hb.kmallocAligned hs hc.heapEnd hrun
  have hlt := hb.brk_lt hs
  unfold Call.Fits at hfits
  unfold Heap.cursor
  by_cases h0 : (statics s).heapStart = 0
  · simp only [if_pos h0] at hfits ha ⊢
    rw [ha]
    exact ⟨hfits.1, Nat.le_refl _, hfits.2⟩
  · simp only [if_neg h0] at hfits ha ⊢
    obtain ⟨hpos, hdvd, hround⟩ := hpow.dvd hfits.1
    have hheap : (statics s).heap ≤ brk s := by
      have hhi := hc.hi
      unfold Heap.cursor at hhi
      rwa [if_neg h0] at hhi
    have hword : (BitVec.ofNat 32 (statics s).heap).toNat = (statics s).heap := by
      rw [BitVec.toNat_ofNat]
      exact Nat.mod_eq_of_lt (by omega)
    rw [hround, hword] at ha
    rcases roundup_cases (x := (statics s).heap) alignment.isLt (by omega) hpos with ⟨-, heq⟩ | ⟨hwraps, -⟩
    · rw [ha, heq]
      exact ⟨Nat.dvd_mul_left _ _, le_ceil hpos, hfits.2⟩
    · have := ceil_ge_of_wraps hdvd hpos hwraps
      omega

/-- And only such a call, if the heap does not begin at 0. -/
theorem Breaks.fits (hb : Breaks sys live statics brk) (hs : live s)
    (hc : Carved start blocks (statics s) (brk s)) (hstart : start ≠ 0)
    (hrun : (Libpi.kmallocAligned sys fuel nbytes alignment).run s = .ok a t)
    (hblock : AlignedBlock start blocks a (blockBytes nbytes.toNat) alignment.toNat (brk t)) :
    (Call.kmallocAligned nbytes alignment).Fits (statics s) (brk s) := by
  obtain ⟨hpow, ha, ht, -⟩ := hb.kmallocAligned hs hc.heapEnd hrun
  have hlt := hb.brk_lt hs
  have htop := hb.brk_lt ht
  have hlo := hblock.lo
  have hhi := hblock.hi
  unfold Call.Fits
  by_cases h0 : (statics s).heapStart = 0
  · simp only [if_pos h0] at ha ⊢
    rw [← ha]
    exact ⟨hblock.aligned, by omega⟩
  · simp only [if_neg h0] at ha ⊢
    have hheap : (statics s).heap ≤ brk s := by
      have hcur := hc.hi
      unfold Heap.cursor at hcur
      rwa [if_neg h0] at hcur
    have hword : (BitVec.ofNat 32 (statics s).heap).toNat = (statics s).heap := by
      rw [BitVec.toNat_ofNat]
      exact Nat.mod_eq_of_lt (by omega)
    have hne : alignment ≠ 0 := by
      intro hzero
      rw [hzero, roundupWord_zero] at ha
      have hzero : a = 0 := ha
      omega
    obtain ⟨hpos, hdvd, hround⟩ := hpow.dvd hne
    rw [hround, hword] at ha
    rcases roundup_cases (x := (statics s).heap) alignment.isLt (by omega) hpos with ⟨-, heq⟩ | ⟨-, hzero⟩
    · rw [← heq, ← ha]
      exact ⟨hne, by omega⟩
    · omega

/-- What each call within its bounds leaves. -/
theorem Breaks.call (hb : Breaks sys live statics brk) (hs : live s)
    (hc : Carved start blocks (statics s) (brk s)) (c : Call) (hfits : c.Fits (statics s) (brk s))
    (hrun : (c.run sys fuel).run s = .ok a t) :
    live t ∧ (statics s).cursor (brk s) ≤ a ∧ a + c.bytes ≤ brk t ∧
      Carved start ((a, c.bytes) :: blocks) (statics t) (brk t) := by
  have hsum : ∀ n, a + blockBytes n < 2 ^ 32 → add32 a (roundup n 8) = a + blockBytes n := by
    intro n hn
    rw [roundup_blockBytes (by omega)]
    exact Nat.mod_eq_of_lt hn
  cases c with
  | kmalloc nbytes =>
    obtain ⟨ha, ht, hcur, hend, hle, -⟩ := hb.kmalloc hs hc.heapEnd hrun
    have hbound : (statics s).cursor (brk s) + blockBytes nbytes.toNat < 2 ^ 32 := hfits
    rw [← ha] at hbound
    rw [hsum _ hbound] at hcur hle
    exact ⟨ht, Nat.le_of_eq ha.symm, hle, hc.next (Nat.le_of_eq ha.symm) hcur hend hle⟩
  | kmallocAligned nbytes alignment =>
    obtain ⟨-, -, ht, hcur, hend, hle, -⟩ := hb.kmallocAligned hs hc.heapEnd hrun
    obtain ⟨-, ha, hbound⟩ := hb.placed hs hc hrun hfits
    rw [hsum _ hbound] at hcur hle
    exact ⟨ht, ha, hle, hc.next ha hcur hend hle⟩

/-- The heap is in order after all of them. -/
theorem Breaks.carved {s₀ : σ} (hb : Breaks sys live statics brk) (hs₀ : live s₀)
    (hzero : (statics s₀).heapStart = 0) (h : Calls sys live statics brk s₀ blocks s) :
    live s ∧ Carved (brk s₀) blocks (statics s) (brk s) := by
  induction h with
  | start =>
    have hcursor : (statics s₀).cursor (brk s₀) = brk s₀ := if_pos hzero
    refine ⟨hs₀, fun hne => absurd hzero hne, ?_, ?_, by simp⟩
    · exact Nat.le_of_eq hcursor.symm
    · exact Nat.le_of_eq hcursor
  | other _ ht hheap hbrk ih =>
    rw [hheap, hbrk]
    exact ⟨ht, ih.2⟩
  | call c _ hfits hrun ih =>
    obtain ⟨ht, -, -, hc⟩ := hb.call ih.1 ih.2 c hfits hrun
    exact ⟨ht, hc⟩

/-- In a run of calls within their bounds, an aligned call that returns is right if it is within
its own, and only then unless the heap begins at 0. -/
theorem Breaks.aligned_iff {s₀ : σ} (hb : Breaks sys live statics brk) (hs₀ : live s₀)
    (hzero : (statics s₀).heapStart = 0) (h : Calls sys live statics brk s₀ blocks s)
    (hrun : (Libpi.kmallocAligned sys fuel nbytes alignment).run s = .ok a t) :
    ((Call.kmallocAligned nbytes alignment).Fits (statics s) (brk s) →
      AlignedBlock (brk s₀) blocks a (blockBytes nbytes.toNat) alignment.toNat (brk t)) ∧
    (brk s₀ ≠ 0 →
      AlignedBlock (brk s₀) blocks a (blockBytes nbytes.toNat) alignment.toNat (brk t) →
      (Call.kmallocAligned nbytes alignment).Fits (statics s) (brk s)) := by
  obtain ⟨hs, hc⟩ := hb.carved hs₀ hzero h
  constructor
  · intro hfits
    obtain ⟨hdvd, hcur, -⟩ := hb.placed hs hc hrun hfits
    obtain ⟨-, -, hend, -⟩ := hb.call hs hc (.kmallocAligned nbytes alignment) hfits hrun
    refine ⟨hdvd, Nat.le_trans hc.lo hcur, hend, ?_⟩
    intro b hb
    exact .inl (Nat.le_trans (hc.below b hb) hcur)
  · intro hstart hblock
    exact hb.fits hs hc hstart hrun hblock

end Step
end Calls
end SimplePiOS.Libpi
