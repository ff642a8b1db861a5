import SimplePiOS.Kernel.Image

/-! A program while it runs: its loads, its stores and its calls of `sbrk` work on a memory of its own. -/
namespace SimplePiOS.Kernel
open Lib Libpi

/-- What a program does to its memory. -/
inductive ProgCall where
  | load (addr : ℕ)
  | store (addr : ℕ) (b : UInt8)
  | sbrk (incr : ℕ)
  deriving DecidableEq

def ProgCall.run : ProgCall → Kern ℕ
  | .load addr => do
    let b ← mmu.load addr
    return b.toNat
  | .store addr b => do
    mmu.store addr b
    return 0
  | .sbrk incr => kernelSbrk incr

def ProgCall.runAll : List ProgCall → Kern (List ℕ)
  | [] => return []
  | call :: calls => do
    let r ← call.run
    let rs ← runAll calls
    return r :: rs

/-- The jump of `exec_load_instr`, to a program that does more than to call `sbrk`. -/
def jumpTo (calls : List ProgCall) : Kern (List ℕ) := do
  let heapStart := ((← getVm).proc .child).heapStart
  perform .update (·.setHeapEnd heapStart .child)
  perform .update ({ · with currentProc := .child })
  ProgCall.runAll calls

/-- The memory a program has: the bytes it may use, and the end of its heap. -/
structure ProgMem where
  bytes : ℕ → Option UInt8
  heapEnd : ℕ

namespace ProgMem

/-- The memory with `cs` from `base` on. -/
def put (m : ProgMem) (base : ℕ) (cs : List UInt8) : ℕ → Option UInt8 :=
  fun a => (bytesAt base cs a).or (m.bytes a)

/-- A load returns what was stored last, and `sbrk` the new end of the heap, with zeros up to it. -/
def step (m : ProgMem) : ProgCall → Option (ℕ × ProgMem)
  | .load addr => (m.bytes addr).map fun b => (b.toNat, m)
  | .store addr b => (m.bytes addr).map fun _ => (0, ⟨Function.update m.bytes addr (some b), m.heapEnd⟩)
  | .sbrk incr => some (m.heapEnd + incr, ⟨m.put m.heapEnd (List.replicate incr 0), m.heapEnd + incr⟩)

def run : List ProgCall → ProgMem → Option (List ℕ × ProgMem)
  | [], m => some ([], m)
  | call :: calls, m => do
    let (r, m) ← m.step call
    let (rs, m) ← run calls m
    return (r :: rs, m)

end ProgMem

/-- A program has the memory `m` in its own pages. The sections `K` and the entries `R` of its table, which
are not its own, are as they were in `u`. -/
structure HasMemory (K R : Set ℕ) (u : Machine) (pages : Set ℕ) (m : ProgMem) (s : Machine) : Prop where
  asid : s.vm.asid = childAsid
  ttbr : s.vm.ttbr = childAsid
  current : s.vm.currentProc = .child
  proc : ∃ f, s.vm.frame = some f ∧ f.proc.asid = childAsid ∧ f.proc.heapEnd = m.heapEnd
  owns : Owns s.vm childAsid pages
  bytes : ∀ a b, m.bytes a = some b → a < 2 ^ 32 ∧ a / 2 ^ 20 ∈ pages ∧ s.view a = some b
  foreign : ∀ sec ∈ K, ¬ Free s.vm sec ∧ ∀ p ∈ pages, (s.vm.table childAsid p).sec ≠ sec
  mem : ∀ pa, pa / 2 ^ 20 ∈ K → s.mem pa = u.mem pa
  table : ∀ p ∈ R, s.vm.table childAsid p = u.vm.table childAsid p

/-- The heap may grow up to `limit`: the pages are not in use, and there is RAM for them. -/
structure HeapLeft (R : Set ℕ) (limit : ℕ) (pages : Set ℕ) (m : ProgMem) (s : Machine) : Prop where
  pos : 0 < m.heapEnd
  last : m.heapEnd % 2 ^ 20 = 0 ∨ m.heapEnd / 2 ^ 20 ∈ pages
  clear : ∀ p, (m.heapEnd - 1) / 2 ^ 20 < p → p ≤ (limit - 1) / 2 ^ 20 → p ∉ pages ∧ p ∉ R
  room : (limit - 1) / 2 ^ 20 ≤ (m.heapEnd - 1) / 2 ^ 20 + (freeSecs s.vm).card

section Calls
variable {K R pages : Set ℕ} {u s t : Machine} {m m' : ProgMem} {base limit incr : ℕ} {new : List ℕ}
  {cs : List UInt8} {v w : Vm}

theorem ProgMem.put_nil (m : ProgMem) (base : ℕ) : m.put base [] = m.bytes := by
  funext a
  simp [put, bytesAt]

theorem ProgMem.put_singleton (m : ProgMem) (addr : ℕ) (b : UInt8) :
    m.put addr [b] = Function.update m.bytes addr (some b) := by
  funext a
  unfold put
  by_cases ha : a = addr
  · subst ha
    have hat : bytesAt a [b] (a + 0) = _ := bytesAt_add a 0 [b]
    rw [Nat.add_zero] at hat
    rw [hat, Function.update_self]
    rfl
  · rw [bytesAt_outside (by rw [List.length_singleton]; omega), Function.update_of_ne ha]
    rfl

theorem HasMemory.proc_asid (h : HasMemory K R u pages m s) : (s.vm.proc .child).asid = childAsid := by
  obtain ⟨f, hf, hasid, -⟩ := h.proc
  simp [Vm.proc, hf, hasid]

theorem HasMemory.proc_heapEnd (h : HasMemory K R u pages m s) : (s.vm.proc .child).heapEnd = m.heapEnd := by
  obtain ⟨f, hf, -, hend⟩ := h.proc
  simp [Vm.proc, hf, hend]

theorem HasMemory.backed (h : HasMemory K R u pages m s) {n : ℕ} (htop : base + n ≤ 2 ^ 32)
    (hpages : ∀ i < n, (base + i) / 2 ^ 20 ∈ pages) : Backed s.vm base n := by
  have howns := h.owns
  rw [← h.ttbr] at howns
  exact howns.backed htop hpages

/-- A range of its pages that the program stores to. -/
theorem HasMemory.stored (h : HasMemory K R u pages m s) {n : ℕ} (hcs : cs.length = n)
    (htop : base + n ≤ 2 ^ 32) (hpages : ∀ i < n, (base + i) / 2 ^ 20 ∈ pages)
    (hst : (mmuBlock s base n (h.backed htop hpages)).Stored s t 0 cs) :
    HasMemory K R u pages ⟨m.put base cs, m.heapEnd⟩ t := by
  subst hcs
  have hwithin : Within s base cs.length t := hst.inv
  have howns := h.owns
  rw [← h.ttbr] at howns
  obtain ⟨hasid, httbr, hcurrent, hproc, howns', hbytes, hforeign, hmem, htable⟩ := h
  rw [← hwithin.vm] at hasid httbr hcurrent hproc howns' hforeign htable
  refine ⟨hasid, httbr, hcurrent, hproc, howns', ?_, hforeign, ?_, htable⟩
  · intro a b hb
    by_cases hrange : base ≤ a ∧ a < base + cs.length
    · obtain ⟨i, rfl⟩ := Nat.exists_eq_add_of_le hrange.1
      have hi : i < cs.length := by omega
      have hget : t.mem (s.vm.phys (base + i)) = _ := hst.get_eq i hi
      refine ⟨by omega, hpages i hi, ?_⟩
      rw [hwithin.view_backed (howns.backed htop hpages) htop i hi, hget, if_neg (Nat.not_lt_zero i)]
      simp only [ProgMem.put, bytesAt_add, List.getElem?_eq_getElem hi] at hb
      rw [Nat.sub_zero, List.getD_eq_getElem?_getD, List.getElem?_eq_getElem hi]
      exact hb
    · simp only [ProgMem.put, bytesAt_outside hrange, Option.none_or] at hb
      obtain ⟨ha, hpage, hview⟩ := hbytes a b hb
      refine ⟨ha, hpage, ?_⟩
      rw [hwithin.view_eq howns hpages ha hpage (by omega)]
      exact hview
  · intro pa hpa
    rw [← hmem pa hpa]
    apply hwithin.mem
    intro i hi heq
    have hsec := phys_div s.vm (base + i)
    rw [heq] at hsec
    unfold Vm.fldAt at hsec
    rw [hwithin.vm] at httbr hforeign
    rw [httbr] at hsec
    exact (hforeign _ hpa).2 _ (hpages i hi) hsec.symm

/-- The pages of a growth of the heap. -/
theorem pageRange_eq {addr size : ℕ} (hpos : 0 < addr) (hsize : 0 < size) (htop : addr + size ≤ 2 ^ 32) :
    pageRange addr size =
      List.range' ((addr - 1) / 2 ^ 20 + 1) ((addr + size - 1) / 2 ^ 20 - (addr - 1) / 2 ^ 20) := by
  have hstart : sub32 addr 1 = addr - 1 := by
    unfold sub32
    omega
  have hend : sub32 (add32 addr size) 1 = addr + size - 1 := by
    unfold sub32 add32
    omega
  unfold pageRange
  dsimp only
  rw [hstart, hend]

theorem registers_self {a b : Asid} (ha : v.asid = a) (hb : v.ttbr = b) : { v with asid := a, ttbr := b } = v := by
  subst ha hb
  rfl

/-- While the kernel maps pages, its own table is in force. -/
theorem Grown.registers {pt : Asid} (h : Grown v w pt new) (a b : Asid) :
    Grown { v with asid := a, ttbr := b } { w with asid := a, ttbr := b } pt new := by
  have hfresh : ∀ p ∈ new, Free { v with asid := a, ttbr := b } (w.table pt p).sec :=
    fun p hp => ⟨(h.fresh p hp).lo, (h.fresh p hp).hi, (h.fresh p hp).owner⟩
  exact ⟨rfl, rfl, h.kernelProc, h.currentProc, h.frame, h.table, h.priv, hfresh, h.inj, h.taken, h.owner,
    h.room⟩

theorem Grown.free {pt : Asid} {sec : ℕ} (h : Grown v w pt new) (hpt : pt ≠ 0) (hsec : Free w sec) :
    Free v sec := by
  refine ⟨hsec.lo, hsec.hi, ?_⟩
  have hnone : ∀ p ∈ new, (w.table pt p).sec ≠ sec := by
    intro p hp heq
    have htaken := h.taken p hp
    rw [heq, hsec.owner] at htaken
    exact hpt htaken.symm
  rw [← h.owner sec hnone]
  exact hsec.owner

/-- New pages for the program. -/
theorem HasMemory.grown (h : HasMemory K R u pages m s) (hgrown : Grown s.vm t.vm childAsid new)
    (hmem : t.mem = s.mem) (hclear : ∀ p ∈ new, p ∉ pages ∧ p ∉ R) :
    HasMemory K R u (pages ∪ {p | p ∈ new}) m t := by
  have hold : ∀ p, p ∉ new → t.vm.table childAsid p = s.vm.table childAsid p :=
    fun p hp => hgrown.table childAsid p (by simp [hp])
  refine ⟨hgrown.asid.trans h.asid, hgrown.ttbr.trans h.ttbr, hgrown.currentProc.trans h.current, ?_,
    hgrown.owns childAsid_ne h.owns, ?_, ?_, ?_, ?_⟩
  · rw [hgrown.frame]
    exact h.proc
  · intro a b hb
    obtain ⟨ha, hpage, hview⟩ := h.bytes a b hb
    refine ⟨ha, .inl hpage, ?_⟩
    rw [hgrown.view_eq hmem ha fun hin => (hclear _ hin).1 hpage]
    exact hview
  · intro sec hsec
    obtain ⟨hfree, hapart⟩ := h.foreign sec hsec
    refine ⟨fun hfree' => hfree (hgrown.free childAsid_ne hfree'), ?_⟩
    intro p hp heq
    by_cases hin : p ∈ new
    · have hfresh := hgrown.fresh p hin
      rw [heq] at hfresh
      exact hfree hfresh
    · rw [hold p hin] at heq
      exact hapart p (hp.resolve_right hin) heq
  · intro pa hpa
    rw [hmem]
    exact h.mem pa hpa
  · intro p hp
    rw [hold p fun hin => (hclear p hin).2 hp]
    exact h.table p hp

/-- The end of the heap is set, and `kernel_sbrk` returns. -/
theorem HasMemory.setHeapEnd (h : HasMemory K R u pages m s) (heapEnd : ℕ) :
    HasMemory K R u pages ⟨m.bytes, heapEnd⟩
      ((s.step .update (·.setHeapEnd heapEnd .child)).step (.ret .kernelSbrk) id) := by
  obtain ⟨f, hf, hasid, -⟩ := h.proc
  have hframe : (s.vm.setHeapEnd heapEnd .child).frame =
      some { f with proc := { f.proc with heapEnd := heapEnd } } := congrArg (Option.map _) hf
  have hforeign : ∀ sec ∈ K, ¬ Free (s.vm.setHeapEnd heapEnd .child) sec ∧
      ∀ p ∈ pages, (s.vm.table childAsid p).sec ≠ sec := by
    intro sec hsec
    obtain ⟨hfree, hapart⟩ := h.foreign sec hsec
    exact ⟨fun hfree' => hfree ⟨hfree'.lo, hfree'.hi, hfree'.owner⟩, hapart⟩
  exact ⟨h.asid, h.ttbr, h.current, ⟨_, hframe, hasid, rfl⟩, h.owns.congr rfl rfl, h.bytes, hforeign, h.mem,
    h.table⟩

/-- `sbrk` of no bytes. -/
theorem kernelSbrk_none (h : HasMemory K R u pages m s) : ∃ t, (kernelSbrk 0).run s = .ok m.heapEnd t ∧
    t.vm = s.vm ∧ t.mem = s.mem := by
  have hget : ∀ s : Machine, getVm.run s = .ok s.vm s := fun _ => rfl
  refine ⟨s.step (.ret .kernelSbrk) id, ?_, rfl, rfl⟩
  rw [kernelSbrk_eq, bind_ok (hget s), bind_ok (hget s), h.current]
  unfold sbrkOf
  rw [if_neg (not_not.mpr rfl)]
  exact congrArg (EStateM.Result.ok · _) h.proc_heapEnd

/-- `sbrk` of a program: the kernel's table is in force while it maps, the program's while it clears. -/
theorem kernelSbrk_grown (h : HasMemory K R u pages m s) (hincr : 0 < incr)
    (htop : m.heapEnd + incr < 2 ^ 32) (hroom : (pageRange m.heapEnd incr).length ≤ (freeSecs s.vm).card)
    (hclear : ∀ p ∈ pageRange m.heapEnd incr, p ∉ pages ∧ p ∉ R)
    (hin : ∀ i < incr, (m.heapEnd + i) / 2 ^ 20 ∈ pages ∪ {p | p ∈ pageRange m.heapEnd incr}) :
    ∃ t, (kernelSbrk incr).run s = .ok (m.heapEnd + incr) t ∧
      HasMemory K R u (pages ∪ {p | p ∈ pageRange m.heapEnd incr})
        ⟨m.put m.heapEnd (List.replicate incr 0), m.heapEnd + incr⟩ t ∧
      (freeSecs t.vm).card = (freeSecs s.vm).card - (pageRange m.heapEnd incr).length := by
  have hget : ∀ s : Machine, getVm.run s = .ok s.vm s := fun _ => rfl
  have hsum : add32 m.heapEnd incr = m.heapEnd + incr := Nat.mod_eq_of_lt htop
  obtain ⟨s₁, hswitch, hvm₁, hmem₁⟩ : ∃ s₁ : Machine, (setProcidTtbr0 kernelAsid kernelAsid).run s = .ok () s₁ ∧
      s₁.vm = { s.vm with asid := kernelAsid, ttbr := kernelAsid } ∧ s₁.mem = s.mem := ⟨_, rfl, rfl, rfl⟩
  rcases mmuMapToMem_run childAsid_ne m.heapEnd incr true s₁ with
    ⟨s₂, hmap, hgrown, hmem₂, -⟩ | ⟨hfull, -⟩
  · obtain ⟨s₃, hback, hvm₃, hmem₃⟩ : ∃ s₃ : Machine, (setProcidTtbr0 childAsid childAsid).run s₂ = .ok () s₃ ∧
        s₃.vm = { s₂.vm with asid := childAsid, ttbr := childAsid } ∧ s₃.mem = s₂.mem := ⟨_, rfl, rfl, rfl⟩
    have hsame : { s₁.vm with asid := childAsid, ttbr := childAsid } = s.vm := by
      rw [hvm₁]
      exact registers_self h.asid h.ttbr
    have hgrown' := hgrown.registers childAsid childAsid
    rw [hsame, ← hvm₃] at hgrown'
    have h₃ := h.grown hgrown' (hmem₃.trans (hmem₂.trans hmem₁)) hclear
    obtain ⟨s₄, hset, hst⟩ := (mmuBlock s₃ m.heapEnd incr (h₃.backed (Nat.le_of_lt htop) hin)).memset_eq 0
      (.refl s₃ _ _) htop
    have hwithin : Within s₃ m.heapEnd incr s₄ := hst.inv
    have h₄ := (h₃.stored List.length_replicate (Nat.le_of_lt htop) hin hst).setHeapEnd (m.heapEnd + incr)
    refine ⟨_, ?_, h₄, ?_⟩
    · rw [kernelSbrk_eq, bind_ok (hget s), bind_ok (hget s), h.current]
      unfold sbrkOf
      rw [if_pos (Nat.ne_of_gt hincr), h.proc_asid, h.proc_heapEnd]
      simp only [ne_eq, reduceCtorEq, not_false_eq_true, if_true]
      rw [bind_ok hswitch, bind_ok hmap, bind_ok hback, bind_ok hset, hsum]
      exact congrArg (EStateM.Result.ok · _) h₄.proc_heapEnd
    · have hroom' := hgrown'.room
      have hvm : freeSecs (s₄.vm.setHeapEnd (m.heapEnd + incr) .child) = freeSecs s₃.vm := by
        rw [hwithin.vm]
        rfl
      rw [← hroom', ← hvm]
      rfl
  · have hfree : freeSecs s₁.vm = freeSecs s.vm := by
      rw [hvm₁]
      rfl
    rw [hfree] at hfull
    omega

/-- Nothing but the trace of the kernel is changed. -/
theorem HasMemory.congr (h : HasMemory K R u pages m s) (hvm : t.vm = s.vm) (hmem : t.mem = s.mem) :
    HasMemory K R u pages m t := by
  have hview : t.view = s.view := by
    funext a
    unfold Machine.view
    rw [hvm, hmem]
  constructor
  all_goals simp only [hvm, hmem, hview]
  exacts [h.asid, h.ttbr, h.current, h.proc, h.owns, h.bytes, h.foreign, h.mem, h.table]

/-- A store to an address of the program's. -/
theorem storeByte_stored (h : HasMemory K R u pages m s) {addr : ℕ} (haddr : addr < 2 ^ 32)
    (hpage : addr / 2 ^ 20 ∈ pages) (b : UInt8) : ∃ t, (mmu.store addr b).run s = .ok () t ∧
      HasMemory K R u pages ⟨Function.update m.bytes addr (some b), m.heapEnd⟩ t ∧ t.vm = s.vm := by
  have hpages : ∀ i < 1, (addr + i) / 2 ^ 20 ∈ pages := by
    intro i hi
    obtain rfl : i = 0 := by omega
    exact hpage
  have hbacked := h.backed haddr hpages
  have hinv : (mmuBlock s addr 1 hbacked).inv s := Within.refl s addr 1
  have hst := Block.Stored.set b hinv Nat.one_pos
  have hwithin : Within s addr 1 _ := hst.inv
  refine ⟨_, (mmuBlock s addr 1 hbacked).store_eq b hinv Nat.one_pos, ?_, hwithin.vm⟩
  rw [← m.put_singleton]
  exact h.stored rfl haddr hpages hst

theorem ProgMem.le_of_step {call : ProgCall} {r : ℕ} (h : m.step call = some (r, m')) :
    m.heapEnd ≤ m'.heapEnd := by
  cases call with
  | load addr =>
    obtain ⟨b, -, heq⟩ := Option.map_eq_some_iff.mp h
    cases heq
    exact Nat.le_refl _
  | store addr b =>
    obtain ⟨old, -, heq⟩ := Option.map_eq_some_iff.mp h
    cases heq
    exact Nat.le_refl _
  | sbrk incr =>
    cases h
    exact Nat.le_add_right _ _

theorem ProgMem.run_cons {call : ProgCall} {calls : List ProgCall} {rs : List ℕ}
    (h : ProgMem.run (call :: calls) m = some (rs, m')) : ∃ r m₁ rs', m.step call = some (r, m₁) ∧
      ProgMem.run calls m₁ = some (rs', m') ∧ rs = r :: rs' := by
  unfold run at h
  obtain ⟨⟨r, m₁⟩, hstep, h⟩ := Option.bind_eq_some_iff.mp h
  obtain ⟨⟨rs', m₂⟩, hrest, h⟩ := Option.bind_eq_some_iff.mp h
  cases h
  exact ⟨r, m₁, rs', hstep, hrest, rfl⟩

theorem ProgMem.le_of_run {calls : List ProgCall} {rs : List ℕ} (h : ProgMem.run calls m = some (rs, m')) :
    m.heapEnd ≤ m'.heapEnd := by
  induction calls generalizing m rs with
  | nil =>
    cases h
    exact Nat.le_refl _
  | cons call calls ih =>
    obtain ⟨r, m₁, rs', hstep, hrest, -⟩ := ProgMem.run_cons h
    exact Nat.le_trans (ProgMem.le_of_step hstep) (ih hrest)

/-- `sbrk`: the pages up to the new end are mapped, those that were there stay. -/
theorem kernelSbrk_served (h : HasMemory K R u pages m s) (hleft : HeapLeft R limit pages m s)
    (hlimit : limit < 2 ^ 32) (hend : m.heapEnd + incr ≤ limit) :
    ∃ t pages', (kernelSbrk incr).run s = .ok (m.heapEnd + incr) t ∧
      HasMemory K R u pages' ⟨m.put m.heapEnd (List.replicate incr 0), m.heapEnd + incr⟩ t ∧
      HeapLeft R limit pages' ⟨m.put m.heapEnd (List.replicate incr 0), m.heapEnd + incr⟩ t := by
  obtain ⟨hpos, hlast, hclear, hroom⟩ := hleft
  rcases Nat.eq_zero_or_pos incr with rfl | hincr
  · obtain ⟨t, hrun, hvm, hmem⟩ := kernelSbrk_none h
    rw [List.replicate_zero, m.put_nil]
    refine ⟨t, pages, hrun, h.congr hvm hmem, hpos, hlast, hclear, ?_⟩
    rw [hvm]
    exact hroom
  · have htop : m.heapEnd + incr < 2 ^ 32 := by omega
    have hpages := pageRange_eq hpos hincr (Nat.le_of_lt htop)
    have hlen := congrArg List.length hpages
    rw [List.length_range'] at hlen
    have hnew : ∀ p, p ∈ pageRange m.heapEnd incr ↔
        (m.heapEnd - 1) / 2 ^ 20 < p ∧ p ≤ (m.heapEnd + incr - 1) / 2 ^ 20 := by
      intro p
      rw [hpages, List.mem_range'_1]
      omega
    have hin : ∀ i < incr, (m.heapEnd + i) / 2 ^ 20 ∈ pages ∪ {p | p ∈ pageRange m.heapEnd incr} := by
      intro i hi
      by_cases hpage : (m.heapEnd - 1) / 2 ^ 20 < (m.heapEnd + i) / 2 ^ 20
      · right
        exact (hnew _).mpr ⟨hpage, by omega⟩
      · left
        have hsame : (m.heapEnd + i) / 2 ^ 20 = m.heapEnd / 2 ^ 20 := by omega
        rw [hsame]
        exact hlast.resolve_left (by omega)
    have hunused : ∀ p ∈ pageRange m.heapEnd incr, p ∉ pages ∧ p ∉ R := by
      intro p hp
      obtain ⟨hlo, hhi⟩ := (hnew p).mp hp
      exact hclear p hlo (by omega)
    obtain ⟨t, hrun, hmemory, hfree⟩ := kernelSbrk_grown h hincr htop (by omega) hunused hin
    refine ⟨t, _, hrun, hmemory, Nat.add_pos_left hpos _, ?_, ?_, ?_⟩
    · dsimp only
      by_cases haligned : (m.heapEnd + incr) % 2 ^ 20 = 0
      · exact .inl haligned
      · right
        have hend' : (m.heapEnd + incr) / 2 ^ 20 = (m.heapEnd + (incr - 1)) / 2 ^ 20 := by omega
        rw [hend']
        exact hin _ (by omega)
    · intro p hlo hhi
      dsimp only at hlo
      obtain ⟨hold, hR⟩ := hclear p (by omega) hhi
      refine ⟨?_, hR⟩
      rintro (hp | hp)
      · exact hold hp
      · have hle := ((hnew p).mp hp).2
        omega
    · dsimp only
      omega

/-- One call: the program finds what it is promised, and the heap stays fit to grow. -/
theorem run_call (h : HasMemory K R u pages m s) (hleft : HeapLeft R limit pages m s) (hlimit : limit < 2 ^ 32)
    {call : ProgCall} {r : ℕ} (hstep : m.step call = some (r, m')) (hend : m'.heapEnd ≤ limit) :
    ∃ t pages', call.run.run s = .ok r t ∧ HasMemory K R u pages' m' t ∧ HeapLeft R limit pages' m' t := by
  cases call with
  | load addr =>
    obtain ⟨b, hb, heq⟩ := Option.map_eq_some_iff.mp hstep
    cases heq
    obtain ⟨-, -, hview⟩ := h.bytes addr b hb
    have hload : (mmu.load addr).run s = .ok b s := by
      have hrun : (mmu.load addr).run s = _ := run_loadByte addr s
      rw [hrun, hview]
    refine ⟨s, pages, ?_, h, hleft⟩
    unfold ProgCall.run
    rw [bind_ok hload]
    rfl
  | store addr b =>
    obtain ⟨old, hold, heq⟩ := Option.map_eq_some_iff.mp hstep
    cases heq
    obtain ⟨haddr, hpage, -⟩ := h.bytes addr old hold
    obtain ⟨t, hstore, hmemory, hvm⟩ := storeByte_stored h haddr hpage b
    refine ⟨t, pages, ?_, hmemory, hleft.pos, hleft.last, hleft.clear, ?_⟩
    · unfold ProgCall.run
      rw [bind_ok hstore]
      rfl
    · rw [hvm]
      exact hleft.room
  | sbrk incr =>
    cases hstep
    exact kernelSbrk_served h hleft hlimit hend

/-- Any calls one after the other. -/
theorem run_calls (h : HasMemory K R u pages m s) (hleft : HeapLeft R limit pages m s) (hlimit : limit < 2 ^ 32)
    {calls : List ProgCall} {rs : List ℕ} (hrun : ProgMem.run calls m = some (rs, m')) (hend : m'.heapEnd ≤ limit) :
    ∃ t pages', (ProgCall.runAll calls).run s = .ok rs t ∧ HasMemory K R u pages' m' t := by
  induction calls generalizing s m rs pages with
  | nil =>
    cases hrun
    exact ⟨s, pages, rfl, h⟩
  | cons call calls ih =>
    obtain ⟨r, m₁, rs', hstep, hrest, rfl⟩ := ProgMem.run_cons hrun
    have hend₁ := Nat.le_trans (ProgMem.le_of_run hrest) hend
    obtain ⟨t, pages', hcall, hmemory, hleft'⟩ := run_call h hleft hlimit hstep hend₁
    obtain ⟨v, pages'', hcalls, hmemory'⟩ := ih hmemory hleft' hrest
    refine ⟨v, pages'', ?_, hmemory'⟩
    unfold ProgCall.runAll
    rw [bind_ok hcall, bind_ok hcalls]
    rfl

end Calls

/-- What a program finds in its own pages, with its heap at `start`. -/
def foundMemory (bs : List UInt8) (start : ℕ) (u : Machine) : ProgMem where
  bytes a :=
    if a < 2 ^ 32 ∧ a / 2 ^ 20 ∈ rangePages ((fileView bs).loadRanges kernelLoadAddr) then u.view a else none
  heapEnd := start

/-- The pages from the heap of a program up to `limit` are neither its own already nor those that its table has
for the kernel and for the file. -/
structure HeapClear (bs : List UInt8) (start limit : ℕ) : Prop where
  pos : 0 < start
  last : start % 2 ^ 20 = 0 ∨ start / 2 ^ 20 ∈ rangePages ((fileView bs).loadRanges kernelLoadAddr)
  clear : ∀ p, (start - 1) / 2 ^ 20 < p → p ≤ (limit - 1) / 2 ^ 20 →
    p ∉ rangePages ((fileView bs).loadRanges kernelLoadAddr) ∧ p ∉ reservedPages ∧ p ∉ windowPages bs.length

/-- A program that only calls `sbrk`. -/
theorem runProgram_eq (sbrks : List ℕ) : runProgram sbrks = (do
    let _ ← ProgCall.runAll (sbrks.map .sbrk)) := by
  induction sbrks with
  | nil => rfl
  | cons incr sbrks ih =>
    unfold runProgram at ih ⊢
    rw [List.forM_cons, ih]
    simp only [List.map_cons, ProgCall.runAll, ProgCall.run, bind_assoc, pure_bind]

theorem execLoadInstr_jump (sbrks : List ℕ) (addr : ℕ) : execLoadInstr sbrks (.jump addr) = (do
    let heapStart := ((← getVm).proc .child).heapStart
    if heapStart = 0 then return false
    let originalProc := (← getVm).currentProc
    let _ ← jumpTo (sbrks.map .sbrk)
    perform .update ({ · with currentProc := originalProc })
    return true) := by
  unfold execLoadInstr jumpTo
  rw [runProgram_eq]
  simp only [bind_assoc, pure_bind]
  funext s
  have hget : getVm.run s = .ok s.vm s := rfl
  change EStateM.run _ s = EStateM.run _ s
  rw [bind_ok hget, bind_ok hget]
  split
  · rfl
  · rfl

section Start
variable {bs : List UInt8} {s t u : Machine} {start limit e n : ℕ} {disk : Disk} {fuel : ℕ} {fs : Fat32}
  {size : FatSize} {d : Dirent} {cs : List ℕ} {s₀ : Machine} {instrLst : List LoadInstr}

/-- The program at its first instruction. -/
theorem AtJump.hasMemory (h : AtJump bs start s u) (hheap : HeapClear bs start limit)
    (hroom : (rangePages ((fileView bs).loadRanges kernelLoadAddr)).length +
      ((limit - 1) / 2 ^ 20 - (start - 1) / 2 ^ 20) ≤ (freeSecs s.vm).card) :
    ∃ v, (∀ calls, (jumpTo calls).run u = (ProgCall.runAll calls).run v) ∧
      HasMemory {sec | ¬ Free s.vm sec} {p | p ∈ reservedPages ∨ p ∈ windowPages bs.length} u
        {p | p ∈ rangePages ((fileView bs).loadRanges kernelLoadAddr)} (foundMemory bs start u) v ∧
      HeapLeft {p | p ∈ reservedPages ∨ p ∈ windowPages bs.length} limit
        {p | p ∈ rangePages ((fileView bs).loadRanges kernelLoadAddr)} (foundMemory bs start u) v := by
  obtain ⟨f, hf, hfproc⟩ := h.frame
  have hstart : (u.vm.proc .child).heapStart = start := by simp [Vm.proc, hf, hfproc]
  have hframe : (u.vm.setHeapEnd start .child).frame =
      some { f with proc := { f.proc with heapEnd := start } } := by
    simp [Vm.setHeapEnd, hf]
  refine ⟨(u.step .update (·.setHeapEnd start .child)).step .update ({ · with currentProc := .child }), ?_, ?_, ?_⟩
  · intro calls
    subst hstart
    rfl
  · refine ⟨h.asid, h.ttbr, rfl, ⟨_, hframe, ?_, rfl⟩, h.owns.congr rfl rfl, ?_, ?_, fun _ _ => rfl, fun _ _ => rfl⟩
    · rw [hfproc]
    · intro a b hb
      unfold foundMemory at hb
      dsimp only at hb
      split at hb
      · next hin => exact ⟨hin.1, hin.2, hb⟩
      · cases hb
    · intro sec hsec
      refine ⟨fun hfree => hsec (h.free sec ⟨hfree.lo, hfree.hi, hfree.owner⟩), ?_⟩
      intro p hp heq
      have hfresh := h.fresh p hp
      change (u.vm.table childAsid p).sec = sec at heq
      rw [heq] at hfresh
      exact hsec hfresh
  · refine ⟨hheap.pos, hheap.last, ?_, ?_⟩
    · intro p hlo hhi
      obtain ⟨hown, hreserved, hwindow⟩ := hheap.clear p hlo hhi
      exact ⟨hown, not_or.mpr ⟨hreserved, hwindow⟩⟩
    · have hleft := h.room
      change (limit - 1) / 2 ^ 20 ≤ (start - 1) / 2 ^ 20 + (freeSecs u.vm).card
      omega

/-- A file that `elf_load` accepts is opened, loaded and started, if there is RAM for it and for its heap. What it
then loads, stores and asks for by `sbrk` goes as on the memory it found, and nothing that was in use when it was
loaded has changed, nor what its table has for the kernel and for the file. -/
theorem exec_program (sbrks : List ℕ) (h : Readable disk fuel fs size d cs bs e n s₀) (hloadable : LoadableFile bs)
    (haccepted : ((fileView bs).elfLoad kernelLoadAddr d.nbytes).result = .ok (some instrLst))
    (hstart : ((fileView bs).elfLoad kernelLoadAddr d.nbytes).heapStart 0 = start)
    (hheap : HeapClear bs start limit) (hlimit : limit < 2 ^ 32)
    (hroom : 2 * (n / 2 ^ 20 + 1) + ((rangePages ((fileView bs).loadRanges kernelLoadAddr)).length +
      ((limit - 1) / 2 ^ 20 - (start - 1) / 2 ^ 20)) ≤ (freeSecs s₀.vm).card) :
    ∃ (file : PiFile) (s t u : Machine) (a : ℕ),
      (do execInitTable; execOpen disk fuel fs d).run s₀ = .ok file s ∧
      (elfLoad file.data file.nData childAsid).run s = .ok (some instrLst) t ∧
      instrLst = (fileView bs).loadInstrs kernelLoadAddr ++ [.jump a] ∧
      (do
        setProcidTtbr0 childAsid childAsid
        execLoadInstrs sbrks ((fileView bs).loadInstrs kernelLoadAddr) : Kern Unit).run t = .ok () u ∧
      ImageLoaded bs s u ∧
      ∀ calls rs m, ProgMem.run calls (foundMemory bs start u) = some (rs, m) → m.heapEnd ≤ limit →
        ∃ v, (jumpTo calls).run u = .ok rs v ∧ (∀ a b, m.bytes a = some b → v.view a = some b) ∧
          (∀ pa, ¬ Free s.vm (pa / 2 ^ 20) → v.mem pa = s.mem pa) ∧
          ∀ p, p ∈ reservedPages ∨ p ∈ windowPages bs.length →
            v.vm.table childAsid p = u.vm.table childAsid p := by
  obtain ⟨cksum, s, hopen, hfile, ⟨g, hg, hgproc⟩, hleft⟩ := h.opened hroom
  obtain ⟨t, u, a, hload, ha, hrun, hjump⟩ := hfile.loaded sbrks hloadable hg hgproc rfl haccepted (by omega)
  rw [hstart] at hjump
  refine ⟨⟨kernelLoadAddr, cksum, n, d.nbytes⟩, s, t, u, a, hopen, hload, ha, hrun, hjump.toImageLoaded, ?_⟩
  intro calls rs m hcalls hend
  obtain ⟨v, hentry, hmemory, hheapLeft⟩ := hjump.hasMemory hheap hleft
  obtain ⟨w, pages, hrs, hafter⟩ := run_calls hmemory hheapLeft hlimit hcalls hend
  refine ⟨w, ?_, fun a b hb => (hafter.bytes a b hb).2.2, ?_, hafter.table⟩
  · rw [hentry]
    exact hrs
  · intro pa hpa
    rw [hafter.mem pa hpa]
    exact hjump.others pa hpa

theorem smallProgram_heapClear : HeapClear smallProgram 0x400110 0x600000 := by
  have hpages : rangePages ((fileView smallProgram).loadRanges kernelLoadAddr) = [4] := by
    rw [loadRanges_smallProgram]
    decide
  constructor
  · decide
  · rw [hpages]
    decide
  · intro p hlo hhi
    obtain rfl : p = 5 := by omega
    rw [hpages, length_smallProgram]
    decide

theorem exec_program_smallProgram : ∃ (s₀ s t u v : Machine) (file : PiFile) (a : ℕ),
    (do
      execInitTable
      execOpen (sectorDisk smallProgram) 2 sectorFs (sectorFile smallProgram)).run s₀ = .ok file s ∧
    (elfLoad file.data file.nData childAsid).run s = .ok (some smallInstrs) t ∧
    smallInstrs = (fileView smallProgram).loadInstrs kernelLoadAddr ++ [.jump a] ∧
    (do
      setProcidTtbr0 childAsid childAsid
      execLoadInstrs [] ((fileView smallProgram).loadInstrs kernelLoadAddr) : Kern Unit).run t = .ok () u ∧
    ImageLoaded smallProgram s u ∧
    (jumpTo [.sbrk 16, .store 0x400110 7, .load 0x400110]).run u = .ok [0x400120, 0, 7] v ∧
    v.view 0x400110 = some 7 := by
  obtain ⟨s₀, hreadable, hfree⟩ := smallProgram_readable
  have hplan : (fileView smallProgram).elfLoad kernelLoadAddr smallProgram.length = _ :=
    length_smallProgram ▸ elfLoad_smallProgram
  have hstart : ((fileView smallProgram).elfLoad kernelLoadAddr smallProgram.length).heapStart 0 = 0x400110 :=
    congrArg (Plan.heapStart · 0) hplan
  obtain ⟨file, s, t, u, a, hopen, hload, ha, hrun, himage, hcalls⟩ := exec_program [] hreadable
    smallProgram_loadable (congrArg Plan.result hplan) hstart smallProgram_heapClear (by decide) (by
      rw [loadRanges_smallProgram, hfree]
      decide)
  have hend : 0x400120 ≤ 0x600000 := by decide
  obtain ⟨v, hv, hview, -⟩ := hcalls [.sbrk 16, .store 0x400110 7, .load 0x400110] _ _ rfl hend
  exact ⟨s₀, s, t, u, v, file, a, hopen, hload, ha, hrun, himage, hv, hview _ _ rfl⟩

end Start
end SimplePiOS.Kernel
