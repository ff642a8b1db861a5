import SimplePiOS.Kernel.ExecRun
import SimplePiOS.Kernel.HeapLimit

/-! libpi's break and the process's break over all the blocks the kernel takes from its heap. -/
namespace SimplePiOS.Kernel
open Lib Libpi

/-- The bytes of all blocks, each an address and a size. -/
def taken (blocks : List (ℕ × ℕ)) : ℕ := (blocks.map Prod.snd).sum

/-- From the kernel's start on it takes blocks and writes to memory: the blocks taken so far, the
newest first. -/
inductive HeapUse : List (ℕ × ℕ) → Machine → Prop
  | boot {s t : Machine} : s.heap.heapStart = 0 → notmainInit.run s = .ok () t → HeapUse [] t
  | write {blocks : List (ℕ × ℕ)} {s : Machine} (mem : ℕ → UInt8) :
    HeapUse blocks s → HeapUse blocks { s with mem := mem }
  | alloc {blocks : List (ℕ × ℕ)} {s t : Machine} {fuel sz a : ℕ} : HeapUse blocks s → 2 ≤ fuel →
    (kmalloc kernel fuel sz).run s = .ok a t → HeapUse ((a, blockBytes sz) :: blocks) t

/-- What a call leaves that returned the block of `n` bytes at `a`. -/
structure NewBlock (blocks : List (ℕ × ℕ)) (s : Machine) (a n : ℕ) (t : Machine) : Prop where
  sameBreak : t.heap.heapEnd = t.vm.kernelProc.heapEnd
  start : t.heap.heapStart = kernelHeapAddr
  aligned : a % 8 = 0
  lo : t.heap.heapStart ≤ a
  hi : a + n ≤ t.heap.heapEnd
  apart : ∀ b ∈ blocks, b.1 + b.2 ≤ a
  zero : ∀ i < n, t.view (a + i) = some 0
  mapped : ∀ i < n, (t.vm.table kernelAsid ((a + i) / 2 ^ 20)).Private
  kept : ∀ b ∈ blocks, ∀ i < b.2, t.view (b.1 + i) = s.view (b.1 + i)

/-- The blocks fill the heap from its start to the cursor, and all the RAM is there to grow. -/
structure Books (blocks : List (ℕ × ℕ)) (s : Machine) : Prop where
  pages : ∃ e, HeapAt e s ∧ e + (freeSecs s.vm).card = nPhysPages
  start : s.heap.heapStart = 0 ∨ s.heap.heapStart = kernelHeapAddr
  first : s.heap.heapStart = 0 → s.cursor = kernelHeapAddr
  cursor : s.cursor = kernelHeapAddr + taken blocks
  aligned : s.cursor % 8 = 0
  below : ∀ b ∈ blocks, kernelHeapAddr ≤ b.1 ∧ b.1 + b.2 ≤ s.cursor

section Blocks
variable {blocks : List (ℕ × ℕ)} {s t : Machine} {fuel : ℕ}

theorem taken_cons (a n : ℕ) (blocks : List (ℕ × ℕ)) :
    taken ((a, n) :: blocks) = n + taken blocks := by
  unfold taken
  rw [List.map_cons, List.sum_cons]

/-- A size and its rounded size make the same call. -/
theorem kmalloc_blockBytes {sz : ℕ} (fuel : ℕ) (h : blockBytes sz ≤ kernelLoadAddr) :
    kmalloc kernel fuel sz = kmalloc kernel fuel (blockBytes sz) := by
  have hload : kernelLoadAddr = 0x10000000 := rfl
  have h8 : blockBytes sz % 8 = 0 := Nat.mul_mod_left _ _
  have hround : roundup sz 8 = roundup (blockBytes sz) 8 := by
    rw [roundup_eight h8 (by omega), roundup_blockBytes (by omega)]
  unfold kmalloc
  rw [hround]

theorem Books.boot (hstart : s.heap.heapStart = 0) (hrun : notmainInit.run s = .ok () t) :
    Books [] t := by
  obtain ⟨u, hboot, hat, hfree, hcur, hheap⟩ := notmainInit_run s hstart
  obtain rfl : t = u := (EStateM.Result.ok.inj (hrun.symm.trans hboot)).2
  constructor
  · refine ⟨5, hat, ?_⟩
    rw [hfree, Nat.card_Ico]
    rfl
  · left
    rw [hheap]
    exact hstart
  · exact fun _ => hcur
  · exact hcur
  · rw [hcur]
    rfl
  · simp

theorem Books.write (h : Books blocks s) (mem : ℕ → UInt8) :
    Books blocks { s with mem := mem } := by
  obtain ⟨e, hat, hroom⟩ := h.pages
  exact ⟨⟨e, hat.congr rfl rfl, hroom⟩, h.start, h.first, h.cursor, h.aligned, h.below⟩

/-- One call takes the next block, while the blocks end below the load window. -/
theorem Books.alloc (sz : ℕ) (h : Books blocks s) (hfuel : 2 ≤ fuel)
    (hfits : kernelHeapAddr + taken blocks + blockBytes sz ≤ kernelLoadAddr) :
    ∃ t, (kmalloc kernel fuel sz).run s = .ok s.cursor t ∧
      NewBlock blocks s s.cursor (blockBytes sz) t ∧
      Books ((s.cursor, blockBytes sz) :: blocks) t := by
  have hload : kernelLoadAddr = 0x100 * 2 ^ 20 := rfl
  have hphys : nPhysPages = 512 := rfl
  have hheap : kernelHeapAddr = 0x500000 := rfl
  obtain ⟨e, hat, hroom⟩ := h.pages
  have h8 : blockBytes sz % 8 = 0 := Nat.mul_mod_left _ _
  have hcur := h.cursor
  rw [← hcur] at hfits
  obtain ⟨k, t, hrun, hext, hatt, hcurt, hend, -, -, hstart, hzero, hview⟩ :=
    kmalloc_run fuel hat h8 (by rw [hroom]; omega) (by omega) hfuel
  have hheapStart : t.heap.heapStart = kernelHeapAddr := by
    rw [hstart]
    split
    case isTrue h0 => exact h.first h0
    case isFalse h0 => exact h.start.resolve_left h0
  have hset : t.heap.heapStart ≠ 0 := by
    rw [hheapStart]
    decide
  have hlo : kernelHeapAddr ≤ s.cursor := by omega
  rw [kmalloc_blockBytes fuel (by omega)]
  refine ⟨t, hrun, ?_, ?_⟩
  · constructor
    · rw [hatt.statics hset, hatt.heapEnd]
    · exact hheapStart
    · exact h.aligned
    · rw [hheapStart]
      exact hlo
    · rw [hatt.statics hset]
      exact hend
    · exact fun b hb => (h.below b hb).2
    · exact hzero
    · intro i hi
      apply hatt.owns.priv
      constructor
      · exact Nat.div_pos (by omega) (by omega)
      · exact Nat.div_lt_of_lt_mul (by rw [Nat.mul_comm]; omega)
    · intro b hb i hi
      obtain ⟨hb₁, hb₂⟩ := h.below b hb
      apply hview
      · omega
      · omega
  · constructor
    · refine ⟨e + k, hatt, ?_⟩
      have hcount := hatt.limit
      have hcard := hext.room
      omega
    · exact .inr hheapStart
    · exact fun h0 => absurd h0 hset
    · rw [hcurt, taken_cons, hcur]
      omega
    · have := h.aligned
      omega
    · intro b hb
      rw [hcurt]
      rcases List.mem_cons.mp hb with rfl | hb
      · exact ⟨hlo, Nat.le_refl _⟩
      · obtain ⟨hb₁, hb₂⟩ := h.below b hb
        exact ⟨hb₁, by omega⟩

/-- The books are in order after every run whose blocks end below the load window. -/
theorem HeapUse.books (h : HeapUse blocks s)
    (hfits : kernelHeapAddr + taken blocks ≤ kernelLoadAddr) : Books blocks s := by
  induction h with
  | boot hstart hrun => exact .boot hstart hrun
  | write mem _ ih => exact (ih hfits).write mem
  | @alloc blocks s t fuel sz a _ hfuel hrun ih =>
    rw [taken_cons] at hfits
    have hbooks := ih (by omega)
    obtain ⟨u, hrun', -, hnext⟩ := hbooks.alloc sz hfuel (by omega)
    rw [hrun'] at hrun
    obtain ⟨rfl, rfl⟩ := EStateM.Result.ok.inj hrun
    exact hnext

/-- Every call of such a run returns: libpi's break is the process's, and the block is new, clear
and mapped. -/
theorem kmalloc_keeps_books (sz : ℕ) (h : HeapUse blocks s) (hfuel : 2 ≤ fuel)
    (hfits : kernelHeapAddr + taken blocks + blockBytes sz ≤ kernelLoadAddr) :
    ∃ a t, (kmalloc kernel fuel sz).run s = .ok a t ∧ NewBlock blocks s a (blockBytes sz) t := by
  obtain ⟨t, hrun, hnew, -⟩ := (h.books (Nat.le_of_add_right_le hfits)).alloc sz hfuel hfits
  exact ⟨s.cursor, t, hrun, hnew⟩

/-- A first block that ends with its section, and one of 1 byte after it. -/
theorem kmalloc_keeps_books_two : ∃ s t u a b, notmainInit.run powerOn = .ok () s ∧
    (kmalloc kernel 2 0x100000).run s = .ok a t ∧ (kmalloc kernel 2 1).run t = .ok b u ∧
    NewBlock [] s a 0x100000 t ∧ NewBlock [(a, 0x100000)] t b 8 u := by
  obtain ⟨s, hboot, -⟩ := notmainInit_run powerOn rfl
  have h₀ : HeapUse [] s := .boot rfl hboot
  obtain ⟨a, t, hrun, hnew⟩ := kmalloc_keeps_books 0x100000 h₀ (Nat.le_refl 2) (by decide)
  have h₁ : HeapUse [(a, 0x100000)] t := .alloc h₀ (Nat.le_refl 2) hrun
  obtain ⟨b, u, hrun', hnew'⟩ :=
    kmalloc_keeps_books 1 h₁ (Nat.le_refl 2) (by rw [taken_cons]; decide)
  exact ⟨s, t, u, a, b, hboot, hrun, hrun', hnew, hnew'⟩

end Blocks
end SimplePiOS.Kernel
