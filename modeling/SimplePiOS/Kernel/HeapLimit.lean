import SimplePiOS.Kernel.HeapRun

/-! How far the kernel's heap can grow, and what follows when `kmalloc` returns. -/
namespace SimplePiOS.Kernel
open Lib Libpi

section Limit
variable {s t : Machine} {e k n : ℕ}

/-- So many free sections it took at least. -/
theorem Grown.length_le {v w : Vm} {pt : Asid} {pages : List ℕ} (h : Grown v w pt pages)
    (hnodup : pages.Nodup) : pages.length ≤ (freeSecs v).card := by
  have hmaps : ∀ p ∈ pages.toFinset, (w.table pt p).sec ∈ freeSecs v := by
    intro p hp
    exact mem_freeSecs.mpr (h.fresh p (List.mem_toFinset.mp hp))
  have hinj : Set.InjOn (fun p => (w.table pt p).sec) pages.toFinset := by
    apply h.inj.mono
    intro p hp
    exact List.mem_toFinset.mp hp
  have hcard := Finset.card_le_card_of_injOn _ hmaps hinj
  rwa [List.toFinset_card_of_nodup hnodup] at hcard

/-- The heap and what it may still get fit in the RAM. -/
theorem HeapAt.limit (h : HeapAt e s) : e + (freeSecs s.vm).card ≤ nPhysPages := by
  let held := (Finset.Ico 1 e).image fun p => (s.vm.table kernelAsid p).sec
  have hpages : ∀ p ∈ Finset.Ico 1 e, p ∈ {p | 1 ≤ p ∧ p < e} := fun p hp => Finset.mem_Ico.mp hp
  have hheld : held.card = e - 1 := by
    rw [Finset.card_image_of_injOn (h.owns.inj.mono hpages), Nat.card_Ico]
  have hdisj : Disjoint held (freeSecs s.vm) := by
    rw [Finset.disjoint_left]
    intro sec hsec hfree
    obtain ⟨p, hp, rfl⟩ := Finset.mem_image.mp hsec
    exact h.owns.ne_free kernelAsid_ne (mem_freeSecs.mp hfree) (hpages p hp) rfl
  have hsub : held ∪ freeSecs s.vm ⊆ Finset.Ico 1 nPhysPages := by
    apply Finset.union_subset
    · intro sec hsec
      obtain ⟨p, hp, rfl⟩ := Finset.mem_image.mp hsec
      exact Finset.mem_Ico.mpr ⟨h.owns.lo p (hpages p hp), h.owns.hi p (hpages p hp)⟩
    · exact Finset.filter_subset _ _
  have hcard := Finset.card_le_card hsub
  rw [Finset.card_union_of_disjoint hdisj, hheld, Nat.card_Ico] at hcard
  have hlo := h.lo
  have hhi := h.hi
  have hsome : 1 ≤ nPhysPages := by decide
  omega

/-- The pages of a growth that may reach the top of the address space. -/
theorem length_pageRange (he : 1 ≤ e) (hk : 1 ≤ k) (htop : (e + k) * 2 ^ 20 ≤ 2 ^ 32) :
    (pageRange (e * 2 ^ 20) (k * 2 ^ 20)).length = k := by
  have hstart : sub32 (e * 2 ^ 20) 1 / 2 ^ 20 = e - 1 := by
    unfold sub32
    omega
  have hend : sub32 (add32 (e * 2 ^ 20) (k * 2 ^ 20)) 1 / 2 ^ 20 = e + k - 1 := by
    unfold sub32 add32
    omega
  unfold pageRange
  dsimp only
  rw [hstart, hend, List.length_range']
  omega

/-- Growth past the RAM ends in a panic. -/
theorem kernelSbrk_full (h : HeapAt e s) (hk : (freeSecs s.vm).card < k)
    (htop : (e + k) * 2 ^ 20 ≤ 2 ^ 32) :
    ∃ t, (kernelSbrk (k * 2 ^ 20)).run s = .error (.panic "Out of memory\n") t := by
  have he : 1 ≤ e := by
    have := h.lo
    have := h.hi
    omega
  have hget : ∀ u : Machine, getVm.run u = .ok u.vm u := fun _ => rfl
  have hproc : s.vm.proc s.vm.currentProc = s.vm.kernelProc := by
    rw [h.idle.currentProc]
    rfl
  have hne : k * 2 ^ 20 ≠ 0 := by omega
  have hlen := length_pageRange he (by omega) htop
  rcases mmuMapToMem_run kernelAsid_ne (e * 2 ^ 20) (k * 2 ^ 20) true s with
    ⟨u, -, hgrown, -⟩ | ⟨-, u, hrun⟩
  · have hle := hgrown.length_le (List.nodup_range' 1)
    rw [hlen] at hle
    omega
  · refine ⟨u, ?_⟩
    rw [kernelSbrk_eq, bind_ok (hget s), bind_ok (hget s), hproc, h.idle.currentProc]
    unfold sbrkOf
    rw [h.heapEnd, h.idle.kernelProc, if_pos hne]
    simp only [ne_eq, not_true_eq_false, if_false]
    rw [bind_error hrun]

/-- A block that `kmalloc` returns fits in the RAM, or its end passes the top of the address
space: that one is neither grown for nor cleared. -/
theorem of_kmallocTake_ok {fuel a : ℕ} (h : HeapAt e s) (hstart : s.heap.heapStart ≠ 0)
    (hn : n < 2 ^ 32) (hrun : (kmallocTake kernel fuel n).run s = .ok a t) :
    s.heap.heap + n ≤ (e + (freeSecs s.vm).card) * 2 ^ 20 ∨
      2 ^ 32 ≤ s.heap.heap + n ∧ a = s.heap.heap ∧ t.vm = s.vm := by
  have hget : ∀ u : Machine, kernel.getHeap.run u = .ok u.heap u := fun _ => rfl
  have hend := h.statics hstart
  have hcur : s.cursor = s.heap.heap := if_neg hstart
  have hlo := h.lo
  have hhi := h.hi
  have hlimit := h.limit
  have hphys : nPhysPages = 512 := rfl
  rw [hcur] at hlo hhi
  obtain ⟨_, u, hgrow, -⟩ := of_bind_ok hrun
  obtain ⟨fuel, rfl⟩ : ∃ f, fuel = f + 1 := by
    cases fuel with
    | zero => cases hgrow
    | succ f => exact ⟨f, rfl⟩
  by_cases hwrap : 2 ^ 32 ≤ s.heap.heap + n
  · right
    have hsum : add32 s.heap.heap n = s.heap.heap + n - 2 ^ 32 := by
      unfold add32
      omega
    have hfits : ¬ add32 s.heap.heap n > s.heap.heapEnd := by
      rw [hsum, hend]
      omega
    have hnone : add32 s.heap.heap n - s.heap.heap = 0 := by omega
    let u : Machine := { s with heap := { s.heap with heap := add32 s.heap.heap n } }
    have hclear : (memset kernel.toBus s.heap.heap 0 n).run u = .ok () u := by
      unfold memset
      rw [hnone]
      rfl
    have hgrow' : (kmallocGrow kernel n (fuel + 1)).run s = .ok () s :=
      kmallocGrow_fits (hget s) hfits
    have htake := kmallocTake_run hgrow' (hget s) rfl hclear
    rw [htake] at hrun
    obtain ⟨haddr, hstate⟩ := EStateM.Result.ok.inj hrun
    exact ⟨hwrap, haddr.symm, hstate ▸ rfl⟩
  · left
    by_contra hfull
    obtain ⟨k, hk⟩ : ∃ k, k = (s.heap.heap + n - e * 2 ^ 20 + (2 ^ 20 - 1)) / 2 ^ 20 := ⟨_, rfl⟩
    have hsum : add32 s.heap.heap n = s.heap.heap + n := Nat.mod_eq_of_lt (by omega)
    have hgt : add32 s.heap.heap n > s.heap.heapEnd := by
      rw [hsum, hend]
      omega
    have hincr : roundup (sub32 (add32 s.heap.heap n) s.heap.heapEnd) (2 ^ 20) = k * 2 ^ 20 := by
      rw [hsum, hend, hk]
      unfold roundup sub32 add32
      omega
    obtain ⟨w, hsbrk⟩ := kernelSbrk_full (k := k) h (by omega) (by omega)
    unfold kmallocGrow at hgrow
    have hsbrk' : (kernel.sbrk (k * 2 ^ 20)).run s = _ := hsbrk
    rw [bind_ok (hget s), if_pos hgt, hincr, bind_error hsbrk'] at hgrow
    cases hgrow

theorem of_kmalloc_ok {fuel a : ℕ} (h : HeapAt e s) (h8 : n % 8 = 0) (hn : n + 8 ≤ 2 ^ 32)
    (hrun : (kmalloc kernel fuel n).run s = .ok a t) :
    s.cursor + n ≤ (e + (freeSecs s.vm).card) * 2 ^ 20 ∨
      2 ^ 32 ≤ s.cursor + n ∧ a = s.cursor ∧ t.vm = s.vm := by
  have hround : roundup n 8 = n := roundup_eight h8 hn
  obtain ⟨u, hu, hvm, hset, hcur, -, -, -, hstarted⟩ := h.started
  rw [hstarted, hround] at hrun
  rw [← hcur, ← hvm]
  exact of_kmallocTake_ok hu hset (by omega) hrun

end Limit

/-- The page behind the device registers. -/
abbrev behindDevices : ℕ := 0x204

/-- The kernel's heap may grow up to page `top`. Nothing is mapped behind the device registers. -/
def CanGrowTo (top : ℕ) (s : Machine) : Prop :=
  ∃ e, HeapAt e s ∧ e + (freeSecs s.vm).card = top ∧ ¬ (s.vm.table kernelAsid behindDevices).Valid

section CanGrowTo
variable {s t : Machine} {top n fuel : ℕ}

theorem CanGrowTo.lo (h : CanGrowTo top s) : 2 ^ 20 ≤ s.cursor := by
  obtain ⟨e, hheap, -⟩ := h
  exact hheap.lo

theorem CanGrowTo.limit (h : CanGrowTo top s) : top ≤ nPhysPages := by
  obtain ⟨e, hheap, hcard, -⟩ := h
  rw [← hcard]
  exact hheap.limit

/-- The pages that begin below the cursor are the kernel's. -/
theorem CanGrowTo.owns (h : CanGrowTo top s) :
    Owns s.vm s.vm.ttbr {p | 1 ≤ p ∧ p * 2 ^ 20 < s.cursor} := by
  obtain ⟨e, hat, -⟩ := h
  have hhi := hat.hi
  rw [hat.idle.ttbr]
  apply hat.owns.mono
  intro p hp
  obtain ⟨hlo, hlt⟩ : 1 ≤ p ∧ p * 2 ^ 20 < s.cursor := hp
  change 1 ≤ p ∧ p < e
  omega

theorem CanGrowTo.congr (h : CanGrowTo top s) (hvm : t.vm = s.vm) (hheap : t.heap = s.heap) :
    CanGrowTo top t := by
  obtain ⟨e, hat, hcard, hbehind⟩ := h
  refine ⟨e, hat.congr hvm hheap, ?_, ?_⟩
  · rw [hvm]
    exact hcard
  · rw [hvm]
    exact hbehind

theorem Machine.cursor_congr (hvm : t.vm = s.vm) (hheap : t.heap = s.heap) :
    t.cursor = s.cursor := by
  unfold Machine.cursor
  rw [hvm, hheap]

/-- The pages a growth is not about stay as they are, and the sections are counted. -/
theorem CanGrowTo.extended {e k : ℕ} (hcard : e + (freeSecs s.vm).card = top)
    (hbehind : ¬ (s.vm.table kernelAsid behindDevices).Valid)
    (hext : Extended s.vm t.vm e k) (hat : HeapAt (e + k) t) (hk : k ≤ (freeSecs s.vm).card) :
    CanGrowTo top t := by
  obtain ⟨u, hgrown, hvm⟩ := hext
  refine ⟨e + k, hat, ?_, ?_⟩
  · have hroom : (freeSecs t.vm).card = (freeSecs s.vm).card - (List.range' e k).length := by
      rw [hvm]
      exact hgrown.room
    rw [List.length_range'] at hroom
    omega
  · have hlimit := hat.limit
    have hphys : nPhysPages = 512 := rfl
    have hdevices : behindDevices = 0x204 := rfl
    have hp : behindDevices ∉ List.range' e k := by
      rw [List.mem_range'_1]
      omega
    rw [hvm]
    change ¬ (u.table kernelAsid behindDevices).Valid
    rw [hgrown.table kernelAsid behindDevices fun hin => hp hin.2]
    exact hbehind

/-- A block that fits in the RAM is got, and nothing below it changes. -/
theorem CanGrowTo.kmalloc (h : CanGrowTo top s) (h8 : n % 8 = 0)
    (hroom : s.cursor + n ≤ top * 2 ^ 20) (hfuel : 2 ≤ fuel) :
    ∃ t, (Libpi.kmalloc kernel fuel n).run s = .ok s.cursor t ∧ CanGrowTo top t ∧
      t.cursor = s.cursor + n ∧ ∀ a, 2 ^ 20 ≤ a → a < s.cursor → t.view a = s.view a := by
  have hlimit := h.limit
  have hphys : nPhysPages = 512 := rfl
  obtain ⟨e, hat, hcard, hbehind⟩ := h
  rw [← hcard] at hroom hlimit
  obtain ⟨k, t, hrun, hext, hatt, hcur, hfits, hleast, -, -, -, hview⟩ :=
    kmalloc_run fuel hat h8 hroom (by omega) hfuel
  have hgrows : CanGrowTo top t := .extended hcard hbehind hext hatt (by omega)
  exact ⟨t, hrun, hgrows, hcur, hview⟩

end CanGrowTo
end SimplePiOS.Kernel
