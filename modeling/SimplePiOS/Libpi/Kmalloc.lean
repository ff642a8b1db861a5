import SimplePiOS.Libpi.Memory

/-! libpi/kmalloc.c over any memory with a break. -/
namespace SimplePiOS.Libpi

/-- The statics of kmalloc.c. -/
structure Heap where
  heapStart : ℕ
  heapEnd : ℕ
  heap : ℕ
  deriving DecidableEq

/-- What the allocator stands on: memory, `rpi_sbrk` and its own statics. -/
structure Platform (σ : Type) extends Bus σ where
  sbrk : ℕ → EStateM Stop σ ℕ
  getHeap : EStateM Stop σ Heap
  setHeap : (Heap → Heap) → EStateM Stop σ Unit

variable {σ : Type} (sys : Platform σ)

/-- The `while` loop of `kmalloc`. -/
def kmallocGrow (sz : ℕ) : ℕ → EStateM Stop σ Unit
  | 0 => throw .diverge
  | fuel + 1 => do
    let h ← sys.getHeap
    if add32 h.heap sz > h.heapEnd then
      let incr := roundup (sub32 (add32 h.heap sz) h.heapEnd) (2 ^ 20)
      let brk ← sys.sbrk incr
      assert (brk = add32 h.heapEnd incr) "rpi_sbrk(incr) == heap_end + incr"
      sys.setHeap ({ · with heapEnd := add32 h.heapEnd incr })
      kmallocGrow sz fuel

def kmalloc (fuel sz : ℕ) : EStateM Stop σ ℕ := do
  let sz := roundup sz 8
  if (← sys.getHeap).heapStart = 0 then
    let brk ← sys.sbrk 0
    sys.setHeap fun _ => ⟨brk, brk, brk⟩
  kmallocGrow sys sz fuel
  let addr := (← sys.getHeap).heap
  sys.setHeap fun h => { h with heap := add32 addr sz }
  memset sys.toBus addr 0 sz
  return addr

/-- What `kmalloc` takes off the heap for a request of `sz` bytes, where no sum wraps. -/
def blockBytes (sz : ℕ) : ℕ := (sz + 7) / 8 * 8

/-- The part of `kmalloc` behind the first call's set-up. -/
def kmallocTake (fuel sz : ℕ) : EStateM Stop σ ℕ := do
  kmallocGrow sys sz fuel
  let addr := (← sys.getHeap).heap
  sys.setHeap fun h => { h with heap := add32 addr sz }
  memset sys.toBus addr 0 sz
  return addr

section Rules
open Lib
variable {sys} {s t u : σ} {h : Heap} {n incr fuel : ℕ}

theorem kmalloc_started (hget : sys.getHeap.run s = .ok h s) (hstart : h.heapStart ≠ 0) :
    (kmalloc sys fuel n).run s = (kmallocTake sys fuel (roundup n 8)).run s := by
  unfold kmalloc
  dsimp only
  rw [bind_ok hget, if_neg hstart]
  rfl

/-- The first call takes the break it finds for the heap's start. -/
theorem kmalloc_first {brk : ℕ} (hget : sys.getHeap.run s = .ok h s) (hstart : h.heapStart = 0)
    (hsbrk : (sys.sbrk 0).run s = .ok brk t)
    (hset : (sys.setHeap fun _ => ⟨brk, brk, brk⟩).run t = .ok () u) :
    (kmalloc sys fuel n).run s = (kmallocTake sys fuel (roundup n 8)).run u := by
  unfold kmalloc
  dsimp only
  rw [bind_ok hget, if_pos hstart, bind_ok hsbrk, bind_ok hset]
  rfl

theorem kmallocGrow_fits (hget : sys.getHeap.run s = .ok h s) (hfits : ¬ add32 h.heap n > h.heapEnd) :
    (kmallocGrow sys n (fuel + 1)).run s = .ok () s := by
  unfold kmallocGrow
  rw [bind_ok hget, if_neg hfits]
  rfl

/-- One turn of the loop, on statics that agree with the break. -/
theorem kmallocGrow_grows (fuel : ℕ) (hget : sys.getHeap.run s = .ok h s) (hgt : add32 h.heap n > h.heapEnd)
    (hincr : roundup (sub32 (add32 h.heap n) h.heapEnd) (2 ^ 20) = incr)
    (hsbrk : (sys.sbrk incr).run s = .ok (add32 h.heapEnd incr) t)
    (hset : (sys.setHeap ({ · with heapEnd := add32 h.heapEnd incr })).run t = .ok () u) :
    (kmallocGrow sys n (fuel + 1)).run s = (kmallocGrow sys n fuel).run u := by
  unfold kmallocGrow
  rw [bind_ok hget, if_pos hgt, hincr, bind_ok hsbrk, bind_ok (run_assert rfl _ _), bind_ok hset]
  cases fuel <;> rfl

/-- The block is taken off the heap and cleared. -/
theorem kmallocTake_run {s₁ s₂ : σ} (hgrow : (kmallocGrow sys n fuel).run s = .ok () s₁)
    (hget : sys.getHeap.run s₁ = .ok h s₁)
    (hset : (sys.setHeap fun g => { g with heap := add32 h.heap n }).run s₁ = .ok () s₂)
    (hclear : (memset sys.toBus h.heap 0 n).run s₂ = .ok () t) :
    (kmallocTake sys fuel n).run s = .ok h.heap t := by
  unfold kmallocTake
  rw [bind_ok hgrow, bind_ok hget, bind_ok hset]
  exact bind_ok hclear

theorem roundup_eight (h : n % 8 = 0) (hn : n + 8 ≤ 2 ^ 32) : roundup n 8 = n := by
  unfold roundup add32
  omega

theorem roundup_blockBytes (h : blockBytes n < 2 ^ 32) : roundup n 8 = blockBytes n := by
  have hsmall : (n + 7) / 8 * 8 < 2 ^ 32 := h
  unfold roundup add32 blockBytes
  omega

/-- The increment asks for whole sections, no more than needed. -/
theorem growth {heap brk : ℕ} (hgt : heap + n > brk)
    (hfits : heap + n + 2 ^ 20 ≤ 2 ^ 32) :
    ∃ k, roundup (sub32 (add32 heap n) brk) (2 ^ 20) = k * 2 ^ 20 ∧ 1 ≤ k ∧
      heap + n ≤ brk + k * 2 ^ 20 ∧ brk + k * 2 ^ 20 < heap + n + 2 ^ 20 := by
  have hneed : sub32 (add32 heap n) brk = heap + n - brk := by
    unfold sub32 add32
    omega
  have hsum : add32 (heap + n - brk) (2 ^ 20 - 1) = heap + n - brk + (2 ^ 20 - 1) := by
    unfold add32
    omega
  have hmod := Nat.mod_lt (heap + n - brk + (2 ^ 20 - 1)) (show 0 < 2 ^ 20 by omega)
  have hdiv := Nat.div_add_mod' (heap + n - brk + (2 ^ 20 - 1)) (2 ^ 20)
  refine ⟨_, rfl, ?_⟩
  rw [hneed, hsum]
  omega

end Rules

end SimplePiOS.Libpi
