import SimplePiOS.Kernel.Backed
import SimplePiOS.Kernel.FsChain
import SimplePiOS.Kernel.ExecSteps

/-! The kernel's heap while there is RAM for it: what its growth and its blocks leave. -/
namespace SimplePiOS.Kernel
open Lib Libpi

/-- Where the next block of the kernel's heap starts. -/
def Machine.cursor (s : Machine) : ℕ :=
  if s.heap.heapStart = 0 then s.vm.kernelProc.heapEnd else s.heap.heap

/-- The kernel's heap ends with page `e`, and all pages below it are the kernel's. -/
structure HeapAt (e : ℕ) (s : Machine) : Prop where
  idle : Idle s.vm
  heapEnd : s.vm.kernelProc.heapEnd = e * 2 ^ 20
  lo : 2 ^ 20 ≤ s.cursor
  hi : s.cursor ≤ e * 2 ^ 20
  owns : Owns s.vm kernelAsid {p | 1 ≤ p ∧ p < e}
  statics : s.heap.heapStart ≠ 0 → s.heap.heapEnd = e * 2 ^ 20

/-- The heap grew from page `e` by `k` pages. -/
def Extended (v w : Vm) (e k : ℕ) : Prop :=
  ∃ u, Grown v u kernelAsid (List.range' e k) ∧ w = u.setHeapEnd ((e + k) * 2 ^ 20) .kernel

/-- From `s` to `t` the kernel's break stayed below page `top`, no child came or went, and stores
went to private pages. -/
def BreakBelow (top : ℕ) (s t : Machine) : Prop :=
  ∃ new, t.trace = new ++ s.trace ∧
    ∀ x ∈ new, Tame x ∧ x.2.kernelProc.heapEnd ≤ top * 2 ^ 20 ∧ x.2.frame = s.vm.frame

/-- Memory has no part in it. -/
theorem HeapAt.congr {e : ℕ} {s t : Machine} (h : HeapAt e s) (hvm : t.vm = s.vm)
    (hheap : t.heap = s.heap) : HeapAt e t := by
  obtain ⟨v, m, hp, tr⟩ := t
  subst hvm hheap
  exact ⟨h.idle, h.heapEnd, h.lo, h.hi, h.owns, h.statics⟩

section Sbrk
variable {s t : Machine} {e k n : ℕ}

theorem pageRange_aligned (he : 1 ≤ e) (hk : 1 ≤ k) (htop : (e + k) * 2 ^ 20 < 2 ^ 32) :
    pageRange (e * 2 ^ 20) (k * 2 ^ 20) = List.range' e k := by
  have hstart : sub32 (e * 2 ^ 20) 1 / 2 ^ 20 = e - 1 := by
    unfold sub32
    omega
  have hend : sub32 (add32 (e * 2 ^ 20) (k * 2 ^ 20)) 1 / 2 ^ 20 = e + k - 1 := by
    unfold sub32 add32
    omega
  unfold pageRange
  dsimp only
  rw [hstart, hend, Nat.sub_add_cancel he]
  congr 1
  omega

theorem Extended.zero (h : HeapAt e s) : Extended s.vm s.vm e 0 := by
  refine ⟨s.vm, .refl s.vm kernelAsid, ?_⟩
  rw [Nat.add_zero, ← h.heapEnd]
  rfl

theorem Extended.frame {v w : Vm} (h : Extended v w e k) : w.frame = v.frame := by
  obtain ⟨u, hgrown, rfl⟩ := h
  exact hgrown.frame

theorem BreakBelow.of_trace {top : ℕ} (h : t.trace = s.trace) : BreakBelow top s t :=
  ⟨[], by simpa using h, by simp⟩

theorem BreakBelow.step {top : ℕ} {ev : Event} (hev : ev ≠ .wild)
    (h : s.vm.kernelProc.heapEnd ≤ top * 2 ^ 20) : BreakBelow top s (s.step ev id) := by
  refine ⟨[(ev, s.vm)], rfl, ?_⟩
  intro x hx
  rw [List.mem_singleton.mp hx]
  exact ⟨hev, h, rfl⟩

theorem BreakBelow.tameTo {top : ℕ} (h : BreakBelow top s t) : TameTo s t := by
  obtain ⟨new, htrace, hnew⟩ := h
  exact ⟨new, htrace, fun _ _ => ⟨trivial, fun x hx => (hnew x hx).1⟩⟩

theorem BreakBelow.trans {top : ℕ} {u : Machine} (h : BreakBelow top s t) (hframe : t.vm.frame = s.vm.frame)
    (h' : BreakBelow top t u) : BreakBelow top s u := by
  obtain ⟨new, htrace, hnew⟩ := h
  obtain ⟨new', htrace', hnew'⟩ := h'
  refine ⟨new' ++ new, by rw [htrace', htrace, List.append_assoc], ?_⟩
  intro x hx
  rcases List.mem_append.mp hx with hx | hx
  · rw [← hframe]
    exact hnew' x hx
  · exact hnew x hx

/-- What the running process reads in a page of its own, outside the range that is stored to. -/
theorem Within.view_eq {pages : Set ℕ} {base a : ℕ} (h : Within s base n t)
    (howns : Owns s.vm s.vm.ttbr pages) (hrange : ∀ i < n, (base + i) / 2 ^ 20 ∈ pages)
    (htop : a < 2 ^ 32) (hpage : a / 2 ^ 20 ∈ pages) (hout : a < base ∨ base + n ≤ a) :
    t.view a = s.view a := by
  have hpriv : (s.vm.fldAt a).Private := howns.priv _ hpage
  have hapart : ∀ i < n, s.vm.phys (base + i) ≠ s.vm.phys a := by
    intro i hi heq
    have hdiv := congrArg (· / 2 ^ 20) heq
    have hmod := congrArg (· % 2 ^ 20) heq
    simp only [phys_div] at hdiv
    simp only [phys_mod] at hmod
    have hsame : (base + i) / 2 ^ 20 = a / 2 ^ 20 := howns.inj (hrange i hi) hpage hdiv
    omega
  have hmem : t.mem (s.vm.phys a) = s.mem (s.vm.phys a) := h.mem _ hapart
  unfold Machine.view
  rw [h.vm, Nat.mod_eq_of_lt htop, translate_private hpriv]
  exact congrArg some hmem

/-- What the running process reads in a range of its own. -/
theorem Within.view_backed {base : ℕ} (h : Within s base n t) (hbacked : Backed s.vm base n)
    (htop : base + n ≤ 2 ^ 32) (i : ℕ) (hi : i < n) :
    t.view (base + i) = some (t.mem (s.vm.phys (base + i))) := by
  have hlt : base + i < 2 ^ 32 := by omega
  unfold Machine.view
  rw [h.vm, Nat.mod_eq_of_lt hlt, translate_private (hbacked.priv i hi)]
  rfl

/-- Pages mapped elsewhere change nothing for the running process. -/
theorem Grown.view_eq {pt : Asid} {pages : List ℕ} {a : ℕ} (h : Grown s.vm t.vm pt pages)
    (hmem : t.mem = s.mem) (htop : a < 2 ^ 32) (hpage : a / 2 ^ 20 ∉ pages) :
    t.view a = s.view a := by
  have hfld : t.vm.fldAt a = s.vm.fldAt a := by
    unfold Vm.fldAt
    rw [h.ttbr]
    exact h.table _ _ fun hin => hpage hin.2
  unfold Machine.view
  rw [hmem, Nat.mod_eq_of_lt htop, hfld]

/-- The break moves once, when the pages are there. -/
theorem kernelSbrk_below {r : ℕ} (h : HeapAt e s) (htop : (e + k) * 2 ^ 20 < 2 ^ 32)
    (hrun : (kernelSbrk (k * 2 ^ 20)).run s = .ok r t) (htame : TameTo s t) :
    BreakBelow (e + k) s t := by
  let A : ℕ → Vm → Prop := fun b v => Idle v ∧ v.kernelProc.heapEnd = b ∧ v.frame = s.vm.frame
  let K : Vm → Prop := fun v => v.kernelProc.heapEnd ≤ (e + k) * 2 ^ 20 ∧ v.frame = s.vm.frame
  have hsum : add32 (e * 2 ^ 20) (k * 2 ^ 20) = (e + k) * 2 ^ 20 := by
    unfold add32
    omega
  have hold : ∀ v, A (e * 2 ^ 20) v → K v := by
    intro v hv
    refine ⟨?_, hv.2.2⟩
    rw [hv.2.1, Nat.add_mul]
    exact Nat.le_add_right _ _
  have hmap : ∀ v, A (e * 2 ^ 20) v → Steps (fun _ => True) (InVm K)
      (fun s => A (e * 2 ^ 20) s.vm ∧ s.vm = v)
      (mmuMapToMem kernelAsid v.kernelProc.heapEnd (k * 2 ^ 20) true) fun _ =>
        OnVm (A (e * 2 ^ 20)) := by
    intro v _
    have hpages : Steps (fun _ => True) (InVm K) (OnVm (A (e * 2 ^ 20)))
        (mmuMapToMem kernelAsid v.kernelProc.heapEnd (k * 2 ^ 20) true) fun _ =>
          OnVm (A (e * 2 ^ 20)) := by
      apply Traced.forM_keeps
      intro page _
      apply Steps.mapPage_ram
      · exact fun w sec hw _ => hold w hw
      · exact fun w sec hw _ => ⟨⟨hw.1.ttbr, hw.1.currentProc, hw.1.kernelProc⟩, hw.2⟩
      · exact hold
    exact hpages.pre fun s hs => hs.1
  have hsteps : Steps (fun _ => True) (InVm K) (OnVm (A (e * 2 ^ 20))) (kernelSbrk (k * 2 ^ 20))
      fun _ => OnVm K := by
    apply Steps.kernelSbrk_own (fun v w => A (e * 2 ^ 20) v ∧ A (e * 2 ^ 20) w)
    · exact fun v hv => hv.1
    · exact fun v hv => (hmap v hv).post fun _ s hs => ⟨hv, hs⟩
    · intro _ v w hw _
      rw [hw.1.2.1, hsum]
      exact ⟨Nat.le_refl _, hw.2.2.2⟩
    · intro v
      apply stable_setOwner
      · exact fun w sec a hw => ⟨hw.1, ⟨hw.2.1.ttbr, hw.2.1.currentProc, hw.2.1.kernelProc⟩, hw.2.2⟩
      · exact fun w hw => hold w hw.2
    · exact fun _ v hv => hold v hv
    · exact fun v hv => hv
  obtain ⟨new, htrace, hnew⟩ := Along.and htame (hsteps.of_ok hrun)
  exact ⟨new, htrace, (hnew ⟨trivial, h.idle, h.heapEnd, rfl⟩ fun _ _ => trivial).2⟩

/-- Growth of the kernel's heap by whole sections, as far as there is RAM. -/
theorem kernelSbrk_run (h : HeapAt e s) (hk : 1 ≤ k) (htop : (e + k) * 2 ^ 20 < 2 ^ 32)
    (hroom : k ≤ (freeSecs s.vm).card) :
    ∃ t, (kernelSbrk (k * 2 ^ 20)).run s = .ok ((e + k) * 2 ^ 20) t ∧ Extended s.vm t.vm e k ∧
      t.heap = s.heap ∧ BreakBelow (e + k) s t ∧
      ∀ a, 2 ^ 20 ≤ a → a < e * 2 ^ 20 → t.view a = s.view a := by
  have he : 1 ≤ e := by
    have := h.lo
    have := h.hi
    omega
  have hget : ∀ u : Machine, getVm.run u = .ok u.vm u := fun _ => rfl
  have hproc : s.vm.proc s.vm.currentProc = s.vm.kernelProc := by
    rw [h.idle.currentProc]
    rfl
  have hne : k * 2 ^ 20 ≠ 0 := by omega
  have hpages := pageRange_aligned he hk htop
  rcases mmuMapToMem_run kernelAsid_ne (e * 2 ^ 20) (k * 2 ^ 20) true s with
    ⟨u, hmap, hgrown, hmem, hheap⟩ | ⟨hfull, -⟩
  · rw [hpages] at hgrown
    have howns : Owns u.vm u.vm.ttbr ({p | 1 ≤ p ∧ p < e} ∪ {p | p ∈ List.range' e k}) := by
      have httbr : u.vm.ttbr = kernelAsid := hgrown.ttbr.trans h.idle.ttbr
      rw [httbr]
      exact hgrown.owns (by decide) h.owns
    have hrange : ∀ i < k * 2 ^ 20, (e * 2 ^ 20 + i) / 2 ^ 20 ∈
        {p | 1 ≤ p ∧ p < e} ∪ {p | p ∈ List.range' e k} := by
      intro i hi
      right
      change _ ∈ List.range' e k
      rw [List.mem_range'_1]
      omega
    have hbacked : Backed u.vm (e * 2 ^ 20) (k * 2 ^ 20) := howns.backed (by omega) hrange
    have hfits : e * 2 ^ 20 + k * 2 ^ 20 < 2 ^ 32 := Nat.add_mul e k _ ▸ htop
    obtain ⟨w, hset, hstored⟩ := (mmuBlock u _ _ hbacked).memset_eq 0 (.refl u _ _) hfits
    have hw : Within u (e * 2 ^ 20) (k * 2 ^ 20) w := hstored.inv
    have hsum : add32 (e * 2 ^ 20) (k * 2 ^ 20) = (e + k) * 2 ^ 20 := by
      unfold add32
      omega
    let t := (w.step .update (·.setHeapEnd ((e + k) * 2 ^ 20) .kernel)).step (.ret .kernelSbrk) id
    have hrun : (kernelSbrk (k * 2 ^ 20)).run s = .ok ((e + k) * 2 ^ 20) t := by
      rw [kernelSbrk_eq, bind_ok (hget s), bind_ok (hget s), hproc, h.idle.currentProc]
      unfold sbrkOf
      rw [h.heapEnd, h.idle.kernelProc, if_pos hne]
      simp only [ne_eq, not_true_eq_false, if_false]
      rw [bind_ok hmap, bind_ok hset, hsum]
      rfl
    have hlast : TameTo w t :=
      ⟨[(.ret .kernelSbrk, t.vm), (.update, t.vm)], rfl, fun _ _ => ⟨trivial, by simp [Tame]⟩⟩
    have htame : TameTo s t :=
      (((storeless_mmuMapToMem _ _ _ _).tameTo hmap).trans (.of_trace hw.trace)).trans hlast
    refine ⟨t, hrun, ⟨u.vm, hgrown, ?_⟩, ?_, kernelSbrk_below h htop hrun htame, ?_⟩
    · rw [← hw.vm]
      rfl
    · exact hw.heap.trans hheap
    · intro a hlo hhi
      have hpage : a / 2 ^ 20 ∉ List.range' e k := by
        rw [List.mem_range'_1]
        omega
      have hold : a / 2 ^ 20 ∈ {p | 1 ≤ p ∧ p < e} ∪ {p | p ∈ List.range' e k} := by
        left
        change 1 ≤ a / 2 ^ 20 ∧ a / 2 ^ 20 < e
        omega
      exact (hw.view_eq howns hrange (by omega) hold (.inl hhi)).trans
        (hgrown.view_eq hmem (by omega) hpage)
  · rw [hpages, List.length_range'] at hfull
    omega

theorem kernelSbrk_zero (h : HeapAt e s) :
    (kernelSbrk 0).run s = .ok (e * 2 ^ 20) (s.step (.ret .kernelSbrk) id) := by
  have hget : ∀ u : Machine, getVm.run u = .ok u.vm u := fun _ => rfl
  have hproc : s.vm.proc s.vm.currentProc = s.vm.kernelProc := by
    rw [h.idle.currentProc]
    rfl
  rw [kernelSbrk_eq, bind_ok (hget s), bind_ok (hget s), hproc, h.idle.currentProc, ← h.heapEnd]
  rfl

/-- The grown heap is the kernel's as before. -/
theorem Extended.heapAt (h : HeapAt e s) (hext : Extended s.vm t.vm e k)
    (hlo : 2 ^ 20 ≤ t.cursor) (hhi : t.cursor ≤ (e + k) * 2 ^ 20)
    (hstatics : t.heap.heapStart ≠ 0 → t.heap.heapEnd = (e + k) * 2 ^ 20) : HeapAt (e + k) t := by
  obtain ⟨u, hgrown, hvm⟩ := hext
  have howns := hgrown.owns (by decide) h.owns
  have hpages : {p | 1 ≤ p ∧ p < e} ∪ {p | p ∈ List.range' e k} = {p | 1 ≤ p ∧ p < e + k} := by
    have := h.lo
    have := h.hi
    ext p
    simp only [Set.mem_union, Set.mem_ofPred_eq, List.mem_range'_1]
    omega
  rw [hpages] at howns
  constructor
  · rw [hvm]
    exact ⟨hgrown.ttbr.trans h.idle.ttbr, hgrown.currentProc.trans h.idle.currentProc,
      (congrArg (·.asid) hgrown.kernelProc).trans h.idle.kernelProc⟩
  · rw [hvm]
    rfl
  · exact hlo
  · exact hhi
  · rw [hvm]
    exact ⟨howns.priv, howns.lo, howns.hi, howns.owner, howns.inj⟩
  · exact hstatics

/-- `kmalloc` grows the heap by the sections its block needs. -/
theorem kmallocGrow_run {fuel : ℕ} (h : HeapAt e s) (hstart : s.heap.heapStart ≠ 0)
    (hroom : s.heap.heap + n ≤ (e + (freeSecs s.vm).card) * 2 ^ 20)
    (htop : s.heap.heap + n + 2 ^ 20 ≤ 2 ^ 32) (hfuel : 2 ≤ fuel) :
    ∃ k t, (kmallocGrow kernel n fuel).run s = .ok () t ∧ Extended s.vm t.vm e k ∧
      HeapAt (e + k) t ∧ t.heap.heap = s.heap.heap ∧ t.heap.heapStart = s.heap.heapStart ∧
      s.heap.heap + n ≤ (e + k) * 2 ^ 20 ∧
      (k = 0 ∨ (e + k) * 2 ^ 20 < s.heap.heap + n + 2 ^ 20) ∧ BreakBelow (e + k) s t ∧
      ∀ a, 2 ^ 20 ≤ a → a < e * 2 ^ 20 → t.view a = s.view a := by
  obtain ⟨fuel, rfl⟩ : ∃ f, fuel = f + 2 := ⟨fuel - 2, by omega⟩
  have hget : ∀ u : Machine, kernel.getHeap.run u = .ok u.heap u := fun _ => rfl
  have hsum : add32 s.heap.heap n = s.heap.heap + n := Nat.mod_eq_of_lt (by omega)
  have hend := h.statics hstart
  by_cases hgt : s.heap.heap + n > s.heap.heapEnd
  · obtain ⟨k, hincr, hk, hlo, hhi⟩ := growth hgt htop
    rw [hend, ← Nat.add_mul] at hlo hhi
    have htop' : (e + k) * 2 ^ 20 < 2 ^ 32 := Nat.lt_of_lt_of_le hhi htop
    have hfree : k ≤ (freeSecs s.vm).card := by
      by_contra hlt
      have hmul : (e + (freeSecs s.vm).card + 1) * 2 ^ 20 ≤ (e + k) * 2 ^ 20 :=
        Nat.mul_le_mul_right _ (by omega)
      rw [Nat.succ_mul] at hmul
      omega
    obtain ⟨t, hsbrk, hext, hheap, hgrew, hview⟩ := kernelSbrk_run h hk htop' hfree
    have hinc : add32 s.heap.heapEnd (k * 2 ^ 20) = (e + k) * 2 ^ 20 := by
      rw [hend, Nat.add_mul]
      rw [Nat.add_mul] at htop'
      exact Nat.mod_eq_of_lt htop'
    let u : Machine := { t with heap := { t.heap with heapEnd := (e + k) * 2 ^ 20 } }
    have hcursor : u.cursor = s.heap.heap := by
      unfold Machine.cursor
      change (if t.heap.heapStart = 0 then _ else t.heap.heap) = _
      rw [hheap, if_neg hstart]
    have hold : s.cursor = s.heap.heap := if_neg hstart
    have hstep := kmallocGrow_grows (u := u) (fuel + 1) (hget s) (by rwa [hsum]) hincr
      (by rw [hinc]; exact hsbrk) (by rw [hinc]; rfl)
    have hbelow : BreakBelow (e + k) s u := hgrew.trans hext.frame (.of_trace rfl)
    refine ⟨k, u, ?_, hext, ?_, ?_, ?_, hlo, .inr hhi, hbelow, hview⟩
    · rw [hstep]
      apply kmallocGrow_fits (hget u)
      change ¬ add32 t.heap.heap n > (e + k) * 2 ^ 20
      rw [hheap, hsum]
      exact Nat.not_lt.mpr hlo
    · have hext' : Extended s.vm u.vm e k := hext
      apply Extended.heapAt h hext'
      · rw [hcursor, ← hold]
        exact h.lo
      · rw [hcursor]
        exact Nat.le_of_add_right_le hlo
      · intro _
        rfl
    · exact congrArg (·.heap) hheap
    · exact congrArg (·.heapStart) hheap
  · rw [← hsum] at hgt
    refine ⟨0, s, kmallocGrow_fits (hget s) hgt, .zero h, h, rfl, rfl, ?_, .inl rfl,
      .of_trace rfl, fun _ _ _ => rfl⟩
    rw [hsum, hend] at hgt
    exact Nat.not_lt.mp hgt

/-- On a heap with its start the block is taken at the cursor, and cleared. -/
theorem kmallocTake_fits {fuel : ℕ} (h : HeapAt e s) (hstart : s.heap.heapStart ≠ 0)
    (hroom : s.heap.heap + n ≤ (e + (freeSecs s.vm).card) * 2 ^ 20)
    (htop : s.heap.heap + n + 2 ^ 20 ≤ 2 ^ 32) (hfuel : 2 ≤ fuel) :
    ∃ k t, (kmallocTake kernel fuel n).run s = .ok s.heap.heap t ∧ Extended s.vm t.vm e k ∧
      HeapAt (e + k) t ∧ t.cursor = s.heap.heap + n ∧ s.heap.heap + n ≤ (e + k) * 2 ^ 20 ∧
      (k = 0 ∨ (e + k) * 2 ^ 20 < s.heap.heap + n + 2 ^ 20) ∧ BreakBelow (e + k) s t ∧
      t.heap.heapStart = s.heap.heapStart ∧ (∀ i < n, t.view (s.heap.heap + i) = some 0) ∧
      ∀ a, 2 ^ 20 ≤ a → a < s.heap.heap → t.view a = s.view a := by
  have hget : ∀ u : Machine, kernel.getHeap.run u = .ok u.heap u := fun _ => rfl
  have hcur : s.cursor = s.heap.heap := if_neg hstart
  have hlo : 2 ^ 20 ≤ s.heap.heap := hcur ▸ h.lo
  have hhi : s.heap.heap ≤ e * 2 ^ 20 := hcur ▸ h.hi
  obtain ⟨k, w, hgrow, hext, hw, hheap, hstart', hfits, hleast, hbelow, hview⟩ :=
    kmallocGrow_run h hstart hroom htop hfuel
  rw [← hheap] at hlo hfits hleast htop ⊢
  let w' : Machine := { w with heap := { w.heap with heap := add32 w.heap.heap n } }
  have howns : Owns w'.vm w'.vm.ttbr {p | 1 ≤ p ∧ p < e + k} := by
    have httbr : w'.vm.ttbr = kernelAsid := hw.idle.ttbr
    rw [httbr]
    exact hw.owns
  have hrange : ∀ i < n, (w.heap.heap + i) / 2 ^ 20 ∈ {p | 1 ≤ p ∧ p < e + k} := by
    intro i hi
    constructor
    · exact Nat.div_pos (by omega) (by omega)
    · exact Nat.div_lt_of_lt_mul (by rw [Nat.mul_comm]; omega)
  have hbacked : Backed w'.vm w.heap.heap n := howns.backed (by omega) hrange
  obtain ⟨t, hset, hstored⟩ := (mmuBlock w' _ _ hbacked).memset_eq 0 (.refl w' _ _) (by omega)
  have ht : Within w' w.heap.heap n t := hstored.inv
  have hrun := kmallocTake_run hgrow (hget w) rfl hset
  have hsum : add32 w.heap.heap n = w.heap.heap + n := Nat.mod_eq_of_lt (by omega)
  have hheapt : t.heap = { w.heap with heap := w.heap.heap + n } := by
    rw [ht.heap, ← hsum]
  have hcursort : t.cursor = w.heap.heap + n := by
    unfold Machine.cursor
    rw [hheapt]
    exact if_neg (hstart' ▸ hstart)
  have hvmt : t.vm = w.vm := ht.vm
  refine ⟨k, t, hrun, ?_, ?_, hcursort, hfits, hleast, ?_, ?_, ?_, ?_⟩
  · rw [hvmt]
    exact hext
  · constructor
    · rw [hvmt]
      exact hw.idle
    · rw [hvmt]
      exact hw.heapEnd
    · rw [hcursort]
      exact Nat.le_trans hlo (Nat.le_add_right _ _)
    · rw [hcursort]
      exact hfits
    · rw [hvmt]
      exact hw.owns
    · intro _
      rw [hheapt]
      exact hw.statics (hstart' ▸ hstart)
  · exact hbelow.trans hext.frame (.of_trace ht.trace)
  · rw [hheapt]
    exact hstart'
  · intro i hi
    have hzero : t.mem (w'.vm.phys (w.heap.heap + i)) = _ := hstored.get_eq i hi
    rw [ht.view_backed hbacked (by omega) i hi, hzero]
    simp [List.getD_eq_getElem?_getD, hi]
  · intro a hlow hhigh
    have hpage : a / 2 ^ 20 ∈ {p | 1 ≤ p ∧ p < e + k} := by
      change 1 ≤ a / 2 ^ 20 ∧ a / 2 ^ 20 < e + k
      omega
    have hsame : t.view a = w'.view a :=
      ht.view_eq howns hrange (by omega) hpage (.inl hhigh)
    exact hsame.trans (hview a hlow (by omega))

/-- The first call of `kmalloc` finds the heap's start, and every call goes on from there. -/
theorem HeapAt.started (h : HeapAt e s) : ∃ u, HeapAt e u ∧ u.vm = s.vm ∧
    u.heap.heapStart ≠ 0 ∧ u.heap.heap = s.cursor ∧
    u.heap.heapStart = (if s.heap.heapStart = 0 then s.cursor else s.heap.heapStart) ∧
    (∀ a, u.view a = s.view a) ∧ (∀ k, BreakBelow (e + k) s u) ∧
    ∀ fuel n, (kmalloc kernel fuel n).run s = (kmallocTake kernel fuel (roundup n 8)).run u := by
  have hget : ∀ u : Machine, kernel.getHeap.run u = .ok u.heap u := fun _ => rfl
  by_cases h0 : s.heap.heapStart = 0
  · have hcur : s.cursor = e * 2 ^ 20 := by
      rw [← h.heapEnd]
      exact if_pos h0
    have hne : e * 2 ^ 20 ≠ 0 := by
      have := h.lo
      omega
    let u : Machine := { s.step (.ret .kernelSbrk) id with heap := ⟨e * 2 ^ 20, e * 2 ^ 20, e * 2 ^ 20⟩ }
    have hcuru : u.cursor = e * 2 ^ 20 := if_neg hne
    have hu : HeapAt e u :=
      ⟨h.idle, h.heapEnd, by rw [hcuru, ← hcur]; exact h.lo, by rw [hcuru], h.owns, fun _ => rfl⟩
    refine ⟨u, hu, rfl, hne, hcur.symm, ?_, fun _ => rfl, ?_, ?_⟩
    · rw [if_pos h0, hcur]
    · intro k
      have hstep : BreakBelow (e + k) s (s.step (.ret .kernelSbrk) id) := by
        apply BreakBelow.step (by simp)
        rw [h.heapEnd, Nat.add_mul]
        exact Nat.le_add_right _ _
      exact hstep.trans rfl (.of_trace rfl)
    · intro fuel n
      exact kmalloc_first (hget s) h0 (kernelSbrk_zero h) rfl
  · refine ⟨s, h, rfl, h0, (if_neg h0).symm, (if_neg h0).symm, fun _ => rfl,
      fun _ => .of_trace rfl, ?_⟩
    intro fuel n
    exact kmalloc_started (hget s) h0

/-- With RAM left the kernel gets its block, at the cursor and within its own pages. -/
theorem kmalloc_run (fuel : ℕ) (h : HeapAt e s) (h8 : n % 8 = 0)
    (hroom : s.cursor + n ≤ (e + (freeSecs s.vm).card) * 2 ^ 20)
    (htop : s.cursor + n + 2 ^ 20 ≤ 2 ^ 32) (hfuel : 2 ≤ fuel) :
    ∃ k t, (kmalloc kernel fuel n).run s = .ok s.cursor t ∧ Extended s.vm t.vm e k ∧
      HeapAt (e + k) t ∧ t.cursor = s.cursor + n ∧ s.cursor + n ≤ (e + k) * 2 ^ 20 ∧
      (k = 0 ∨ (e + k) * 2 ^ 20 < s.cursor + n + 2 ^ 20) ∧ BreakBelow (e + k) s t ∧
      t.heap.heapStart = (if s.heap.heapStart = 0 then s.cursor else s.heap.heapStart) ∧
      (∀ i < n, t.view (s.cursor + i) = some 0) ∧
      ∀ a, 2 ^ 20 ≤ a → a < s.cursor → t.view a = s.view a := by
  have hround : roundup n 8 = n := roundup_eight h8 (by omega)
  obtain ⟨u, hu, hvm, hset, hcur, hstart, hsame, hbelow, hrun⟩ := h.started
  rw [← hcur, ← hvm] at hroom
  rw [← hcur] at htop
  obtain ⟨k, t, htake, hext, ht, hcurt, hfits, hleast, hbelow', hstart', hzero, hview⟩ :=
    kmallocTake_fits hu hset hroom htop hfuel
  rw [hcur] at htake hcurt hfits hleast hzero hview
  rw [hvm] at hext
  refine ⟨k, t, ?_, hext, ht, hcurt, hfits, hleast, ?_, hstart'.trans hstart, hzero, ?_⟩
  · rw [hrun, hround]
    exact htake
  · exact (hbelow k).trans (congrArg (·.frame) hvm) hbelow'
  · intro a hlo hhi
    exact (hview a hlo hhi).trans (hsame a)

end Sbrk

section ReadFile
variable {s : Machine} {e : ℕ}

/-- `bs` is what the running process reads at `a`. -/
def Machine.Holds (s : Machine) (a : ℕ) (bs : List UInt8) : Prop :=
  ∀ i b, bs[i]? = some b → s.view (a + i) = some b

theorem crc32Loop_run (p n : ℕ) (crc : BitVec 32) (h : ∀ i < n, ∃ b, s.view (p + i) = some b) :
    ∃ r, (crc32Loop mmu p n crc).run s = .ok r s := by
  induction n generalizing p crc with
  | zero => exact ⟨crc, rfl⟩
  | succ n ih =>
    obtain ⟨b, hb⟩ := h 0 (Nat.succ_pos n)
    have hload : (mmu.load p).run s = .ok b s := by
      have hrun : (mmu.load p).run s = _ := run_loadByte p s
      rw [hrun, ← Nat.add_zero p, hb]
    obtain ⟨r, hr⟩ := ih (p + 1) (crc32Step crc b.toBitVec) (by
      intro i hi
      rw [Nat.add_assoc, Nat.add_comm 1]
      exact h (i + 1) (Nat.succ_lt_succ hi))
    refine ⟨r, ?_⟩
    unfold crc32Loop
    rw [bind_ok hload]
    exact hr

/-- A file is read along its chain into a new block of the kernel's heap. -/
theorem fat32ReadFile_run (disk : Disk) (fs : Fat32) (size : FatSize) (d : Dirent) (cs : List ℕ)
    (fuel : ℕ) (h : HeapAt e s) (hchain : Chain fs size d.clusterId cs)
    (hspc : 1 ≤ fs.sectorsPerCluster) (hfuel : cs.length < fuel)
    (hroom : s.cursor + cs.length * fs.sectorsPerCluster * 512 ≤
      (e + (freeSecs s.vm).card) * 2 ^ 20)
    (htop : s.cursor + cs.length * fs.sectorsPerCluster * 512 + 2 ^ 20 ≤ 2 ^ 32)
    (hdata : d.nbytes ≤ cs.length * fs.sectorsPerCluster * 512) :
    ∃ k t cksum, (fat32ReadFile kernel disk fuel fs d).run s =
        .ok ⟨s.cursor, cksum, cs.length * fs.sectorsPerCluster * 512, d.nbytes⟩ t ∧
      Extended s.vm t.vm e k ∧ HeapAt (e + k) t ∧
      t.cursor = s.cursor + cs.length * fs.sectorsPerCluster * 512 ∧
      s.cursor + cs.length * fs.sectorsPerCluster * 512 ≤ (e + k) * 2 ^ 20 ∧
      (k = 0 ∨ (e + k) * 2 ^ 20 < s.cursor + cs.length * fs.sectorsPerCluster * 512 + 2 ^ 20) ∧
      BreakBelow (e + k) s t ∧ t.Holds s.cursor (chainBytes disk fs cs) := by
  obtain ⟨hk, hks, hbytes⟩ := chain_counts hspc (k := cs.length) (by omega)
  have hone : 1 ≤ cs.length := List.length_pos_iff.mpr hchain.ne_nil
  have hcluster : fs.sectorsPerCluster * 512 < 2 ^ 32 := by
    apply Nat.lt_of_le_of_lt (m := cs.length * fs.sectorsPerCluster * 512)
    · exact Nat.mul_le_mul_right _ (Nat.le_mul_of_pos_left _ hone)
    · omega
  obtain ⟨k, t, halloc, hext, ht, hcur, hfits, hleast, hbelow, -⟩ :=
    kmalloc_run fuel h (by omega) hroom htop (by omega)
  have hbacked : Backed t.vm s.cursor (cs.length * fs.sectorsPerCluster * 512) := by
    have howns := ht.owns
    have hlow := h.lo
    rw [← ht.idle.ttbr] at howns
    apply howns.backed
    · omega
    · intro i hi
      constructor
      · exact Nat.div_pos (by omega) (by omega)
      · exact Nat.div_lt_of_lt_mul (by rw [Nat.mul_comm]; omega)
  obtain ⟨u, hread, hst⟩ := readClusters_stored (o := 0) (mmuBlock t _ _ hbacked) disk hspc cs
    (.refl t _ _) hcluster (by rw [Nat.zero_add, Nat.mul_assoc])
  rw [Nat.add_zero] at hread
  have hu : Within t s.cursor (cs.length * fs.sectorsPerCluster * 512) u := hst.inv
  have hview : ∀ i < cs.length * fs.sectorsPerCluster * 512, u.view (s.cursor + i) =
      some (u.mem (t.vm.phys (s.cursor + i))) := hu.view_backed hbacked (by omega)
  obtain ⟨cksum, hcrc⟩ := crc32Loop_run (s := u) s.cursor d.nbytes (0 ^^^ ~~~0)
    fun i hi => ⟨_, hview i (by omega)⟩
  refine ⟨k, u, cksum ^^^ ~~~0, ?_, ?_, ?_, ?_, hfits, hleast,
    hbelow.trans hext.frame (.of_trace hu.trace), ?_⟩
  · unfold fat32ReadFile crc32Buf
    simp only [countClusters_chain hchain hfuel, pure_bind, hk, hks, hbytes]
    rw [bind_ok halloc, forClusters_chain _ hchain hfuel]
    have hread' : (cs.foldlM (readCluster kernel.toBus disk fs) s.cursor).run t = _ := hread
    have hcrc' : (crc32Loop kernel.toBus s.cursor d.nbytes (0 ^^^ ~~~0)).run u = _ := hcrc
    rw [bind_ok hread', bind_assoc, bind_ok hcrc']
    rfl
  · rw [hu.vm]
    exact hext
  · exact ht.congr hu.vm hu.heap
  · rw [← hcur]
    unfold Machine.cursor
    rw [hu.heap, hu.vm]
  · intro i b hb
    have hi : i < cs.length * fs.sectorsPerCluster * 512 := by
      have hlen := (List.getElem?_eq_some_iff.mp hb).1
      rwa [length_chainBytes, ← Nat.mul_assoc] at hlen
    have hget : u.mem (t.vm.phys (s.cursor + i)) = _ := hst.get_eq i hi
    rw [hview i hi, hget]
    simp [List.getD_eq_getElem?_getD, hb]

end ReadFile
end SimplePiOS.Kernel
