import SimplePiOS.Kernel.Cat
import SimplePiOS.Kernel.Leaked
import SimplePiOS.Kernel.HeapAligned

/-! The kernel's heap and the load window in the kernel's table, over sessions of the command loop. -/
namespace SimplePiOS.Kernel
open Lib Libpi

/-- Code of libpi and fs.c that reaches the break through `kmalloc` only, as `ls` and `cat` do. -/
def UsesAllocator {α : Type} (m : Kern α) : Prop :=
  ∀ I E, AllocatorKeeps kernel I E → Keeps I E m

/-- `n_alloc` of a file, if the walk of its chain ends. -/
def allocBytes (fuel : ℕ) (fs : Fat32) (entry : Dirent) : Option ℕ :=
  match (countClusters fuel fs entry.clusterId : EStateM Stop Unit ℕ).run () with
  | .ok n _ => some (n * fs.sectorsPerCluster % 2 ^ 32 * 512 % 2 ^ 32)
  | .error _ _ => none

/-- The heap ends below the load window, also with the file in it; or the file has no bytes. -/
def BelowWindow (s : Machine) (fuel : ℕ) (fs : Fat32) (entry : Dirent) : Prop :=
  ∀ n, allocBytes fuel fs entry = some n →
    s.vm.kernelProc.heapEnd ≤ kernelLoadAddr ∧ s.cursor + n ≤ kernelLoadAddr ∨
      n = 0 ∧ entry.nbytes = 0

/-- One command that returns: `ls` or `cat`, or a `run` whose file meets `Ok`. -/
inductive CommandStep (Ok : Machine → ℕ → Fat32 → Dirent → Prop) : Machine → Machine → Prop
  | code {s t : Machine} {α : Type} {a : α} (m : Kern α) :
    UsesAllocator m → m.run s = .ok a t → CommandStep Ok s t
  | run {s t : Machine} (disk : Disk) (fuel : ℕ) (fs : Fat32) (entry : Dirent) (sbrks : List ℕ) :
    Ok s fuel fs entry → (execFile disk fuel fs entry sbrks).run s = .ok () t → CommandStep Ok s t

/-- A session of such commands. -/
abbrev Commands (Ok : Machine → ℕ → Fat32 → Dirent → Prop) : Machine → Machine → Prop :=
  Relation.ReflTransGen (CommandStep Ok)

/-- The heap has not shrunk, and what was behind its pages still is. -/
structure HeapKept (v w : Vm) : Prop where
  brk : v.kernelProc.heapEnd ≤ w.kernelProc.heapEnd
  entries : ∀ p ∈ v.heapPages, w.table kernelAsid p = v.table kernelAsid p

/-- Reading the file keeps the heap, mapping the window leaves the entries of the heap alone, and
from then on the kernel's table stays as it is until `exec_file` returns. -/
def WindowApart (disk : Disk) (fuel : ℕ) (fs : Fat32) (entry : Dirent) (s u : Machine) : Prop :=
  ∃ file r f o, (do execInitTable; fat32ReadFile kernel disk fuel fs entry).run s = .ok file r ∧
    (do execInitTable; execOpen disk fuel fs entry).run s = .ok f o ∧ HeapKept s.vm r.vm ∧
    (∀ p ∈ r.vm.heapPages, o.vm.table kernelAsid p = r.vm.table kernelAsid p) ∧
    ∀ x ∈ since Machine.trace o u, x.2.table kernelAsid = o.vm.table kernelAsid

/-- The kernel between two commands: its heap ends with a page, and so far below the top of the
address space that no growth the RAM allows for gets there. -/
structure Growable (v : Vm) : Prop where
  formed : Idle v ∧ Formed false v
  aligned : 2 ^ 20 ∣ v.kernelProc.heapEnd
  pos : 0 < v.kernelProc.heapEnd
  room : v.kernelProc.heapEnd + (freeSecs v).card * 2 ^ 20 ≤ 0x300 * 2 ^ 20

section Heap
variable {v w : Vm} {s t : Machine} {fuel n incr r a : ℕ} {u : Unit}

theorem HeapKept.refl (v : Vm) : HeapKept v v := ⟨Nat.le_refl _, fun _ _ => rfl⟩

theorem HeapKept.trans {x : Vm} (h : HeapKept v w) (h' : HeapKept w x) : HeapKept v x := by
  refine ⟨Nat.le_trans h.brk h'.brk, ?_⟩
  intro p hp
  have hlater : p ∈ w.heapPages := ⟨hp.1, Nat.lt_of_lt_of_le hp.2 h.brk⟩
  rw [h'.entries p hlater, h.entries p hp]

theorem Growable.live (h : Growable s.vm) : s.Live ∧ s.brk = s.vm.kernelProc.heapEnd := by
  have hbrk : s.brk = s.vm.kernelProc.heapEnd := by
    unfold Machine.brk
    rw [h.formed.1.currentProc]
    rfl
  have hroom := h.room
  refine ⟨⟨?_, by rw [hbrk]; omega⟩, hbrk⟩
  rw [h.formed.1.currentProc]
  exact nofun

/-- The pages of a growth are past the heap, and its end does not wrap. -/
theorem Growable.sbrk (h : Growable s.vm) (hincr : 2 ^ 20 ∣ incr)
    (hrun : (kernelSbrk incr).run s = .ok r t) (htame : ∀ x ∈ since Machine.trace s t, Tame x) :
    Growable t.vm ∧ t.heap = s.heap ∧
      t.vm.kernelProc.heapEnd = add32 s.vm.kernelProc.heapEnd incr ∧ r = t.vm.kernelProc.heapEnd ∧
      ∀ p ∈ s.vm.heapPages, t.vm.table kernelAsid p = s.vm.table kernelAsid p := by
  obtain ⟨hlive, hbrk⟩ := h.live
  obtain ⟨-, hheap, hend, hret⟩ := kernelSbrk_brk hlive hrun
  have hformed : Idle t.vm ∧ Formed false t.vm :=
    (((formed_heapStable.kernelSbrk (H := Tame) incr).of_ok hrun).elim h.formed htame).1
  have hbrkt : t.brk = t.vm.kernelProc.heapEnd := by
    unfold Machine.brk
    rw [hformed.1.currentProc]
    rfl
  rw [hbrk, hbrkt] at hend
  rw [hbrkt] at hret
  rcases of_kernelSbrk_ok h.formed.1 hrun htame with hsame | ⟨u, hgrown, hvm⟩
  · rw [hsame] at hend ⊢
    exact ⟨h, hheap, hend, by rw [hret, hsame], fun _ _ => rfl⟩
  · have hlen := hgrown.length_le (nodup_pageRange _ _)
    obtain ⟨hpos, hroom, -⟩ := growth_bounds (Nat.le_refl _) h.pos h.room hlen
    rw [← hend] at hpos hroom
    refine ⟨⟨hformed, ?_, hpos, ?_⟩, hheap, hend, hret, ?_⟩
    · rw [hend]
      exact (Nat.dvd_mod_iff (by decide)).mpr (Nat.dvd_add h.aligned hincr)
    · have hfree : freeSecs t.vm = freeSecs u := by
        rw [hvm]
        rfl
      rw [hfree, hgrown.room]
      exact hroom
    · intro p hp
      have htable : t.vm.table kernelAsid p = u.table kernelAsid p := by
        rw [hvm]
        rfl
      rw [htable]
      apply hgrown.table
      rintro ⟨-, hmem⟩
      have hpast := (mem_pageRange hmem).1
      obtain ⟨k, hk⟩ := h.aligned
      have hlow := hp.2
      have hstart : sub32 s.vm.kernelProc.heapEnd 1 / 2 ^ 20 = k - 1 := by
        have hpos := h.pos
        have hroom := h.room
        unfold sub32
        omega
      omega

theorem growing_kmallocGrow (n fuel : ℕ) : Growing (kmallocGrow kernel n fuel) :=
  growing_platform fun _ _ h => h.kmallocGrow n fuel

theorem growing_kmallocTake (fuel n : ℕ) : Growing (kmallocTake kernel fuel n) :=
  growing_platform fun _ _ h => h.kmallocTake fuel n

theorem growing_kmalloc (fuel n : ℕ) : Growing (kmalloc kernel fuel n) :=
  growing_platform fun _ _ h => h.kmalloc fuel n

theorem roundup_dvd (n : ℕ) : 2 ^ 20 ∣ roundup n (2 ^ 20) := Nat.dvd_mul_left _ _

/-- The allocator's loop takes no more sections than it needs, or panics. -/
theorem Growable.kmallocGrow (h : Growable s.vm) (hrun : (kmallocGrow kernel n fuel).run s = .ok u t)
    (htame : ∀ x ∈ since Machine.trace s t, Tame x) : Growable t.vm ∧ HeapKept s.vm t.vm ∧ t.heap.heap = s.heap.heap ∧
      (t.vm.kernelProc.heapEnd = s.vm.kernelProc.heapEnd ∨
        t.vm.kernelProc.heapEnd < add32 s.heap.heap n + 2 ^ 20) := by
  induction fuel generalizing s with
  | zero => cases hrun
  | succ fuel ih =>
    have hget : kernel.getHeap.run s = .ok s.heap s := rfl
    unfold Libpi.kmallocGrow at hrun
    rw [bind_ok hget] at hrun
    by_cases hgt : add32 s.heap.heap n > s.heap.heapEnd
    · rw [if_pos hgt] at hrun
      obtain ⟨incr, hincr⟩ : ∃ incr, incr = roundup (sub32 (add32 s.heap.heap n) s.heap.heapEnd) (2 ^ 20) :=
        ⟨_, rfl⟩
      dsimp only at hrun
      rw [← hincr] at hrun
      obtain ⟨brk, s₁, hsbrk, hrun⟩ := of_bind_ok hrun
      obtain ⟨_, s₂, hassert, hrun⟩ := of_bind_ok hrun
      obtain ⟨_, s₃, hset, hrest⟩ := of_bind_ok hrun
      obtain ⟨hagree, rfl⟩ := of_assert_ok hassert
      obtain ⟨-, rfl⟩ := EStateM.Result.ok.inj hset
      have hbefore : Extends Machine.trace s s₂ := (growing_kernelSbrk incr).extends_ok hsbrk
      have hafter := (growing_kmallocGrow n fuel).extends_ok hrest
      obtain ⟨htame₂, htame₃⟩ := Extends.forall_since hbefore hafter htame
      obtain ⟨hgrown, hheap, hend, hret, hentries⟩ := h.sbrk (hincr ▸ roundup_dvd _) hsbrk htame₂
      -- libpi's break is the process's: otherwise the assertion stops the run
      have hlt : add32 s.heap.heap n < 2 ^ 32 := Nat.mod_lt _ (by omega)
      have hsame : s.heap.heapEnd = s.vm.kernelProc.heapEnd := by
        have hroom := h.room
        rw [hret, hend] at hagree
        unfold add32 at hagree
        omega
      have hstep : s.vm.kernelProc.heapEnd ≤ s₂.vm.kernelProc.heapEnd ∧
          s₂.vm.kernelProc.heapEnd < add32 s.heap.heap n + 2 ^ 20 := by
        have hpos := hgrown.pos
        have hroom := h.room
        obtain ⟨k, hk⟩ := h.aligned
        rw [hsame] at hincr hgt
        rw [hend] at hpos ⊢
        generalize add32 s.heap.heap n = e at *
        rw [hincr] at hpos ⊢
        unfold roundup sub32 add32 at hpos ⊢
        omega
      obtain ⟨hend', hkept, hcur, hleast⟩ := ih (s := { s₂ with
        heap := { s₂.heap with heapEnd := add32 s.heap.heapEnd incr } }) hgrown hrest htame₃
      have hcur' : s₂.heap.heap = s.heap.heap := congrArg (·.heap) hheap
      refine ⟨hend', .trans ⟨hstep.1, hentries⟩ hkept, hcur.trans hcur', .inr ?_⟩
      dsimp only at hleast
      rw [hcur'] at hleast
      rcases hleast with hleast | hleast
      · rw [hleast]
        exact hstep.2
      · exact hleast
    · rw [if_neg hgt] at hrun
      obtain ⟨-, rfl⟩ := EStateM.Result.ok.inj hrun
      exact ⟨h, .refl _, rfl, .inl rfl⟩

theorem Growable.kmallocTake (h : Growable s.vm) (hrun : (kmallocTake kernel fuel n).run s = .ok a t)
    (htame : ∀ x ∈ since Machine.trace s t, Tame x) : Growable t.vm ∧ HeapKept s.vm t.vm ∧
      (t.vm.kernelProc.heapEnd = s.vm.kernelProc.heapEnd ∨
        t.vm.kernelProc.heapEnd < add32 s.heap.heap n + 2 ^ 20) := by
  obtain ⟨_, s₁, hgrow, hrun⟩ := of_bind_ok hrun
  obtain ⟨hp, s₂, hget, hrun⟩ := of_bind_ok hrun
  obtain ⟨_, s₃, hset, hrun⟩ := of_bind_ok hrun
  obtain ⟨_, s₄, hclear, hret⟩ := of_bind_ok hrun
  obtain ⟨rfl, rfl⟩ := EStateM.Result.ok.inj hget
  obtain ⟨-, rfl⟩ := EStateM.Result.ok.inj hset
  obtain ⟨-, rfl⟩ := EStateM.Result.ok.inj hret
  have hclear' : (memset mmu s₁.heap.heap 0 n).run
    { s₁ with heap := { s₁.heap with heap := add32 s₁.heap.heap n } } = .ok () s₄ := hclear
  have hbefore : Extends Machine.trace s s₁ := (growing_kmallocGrow n fuel).extends_ok hgrow
  have hafter := (growing_still (still_memset _ _ _)).extends_ok hclear'
  obtain ⟨htame₁, htame₂⟩ := Extends.forall_since hbefore hafter htame
  obtain ⟨hgrown, hkept, -, hleast⟩ := h.kmallocGrow hgrow htame₁
  rw [vm_of_still (still_memset _ _ _) hclear' htame₂]
  exact ⟨hgrown, hkept, hleast⟩

/-- A block keeps the heap, whatever its size. -/
theorem Growable.kmalloc (h : Growable s.vm) (hrun : (kmalloc kernel fuel n).run s = .ok a t)
    (htame : ∀ x ∈ since Machine.trace s t, Tame x) : Growable t.vm ∧ HeapKept s.vm t.vm ∧
      (t.vm.kernelProc.heapEnd = s.vm.kernelProc.heapEnd ∨
        t.vm.kernelProc.heapEnd < add32 s.cursor (roundup n 8) + 2 ^ 20) := by
  have hget : kernel.getHeap.run s = .ok s.heap s := rfl
  by_cases hstart : s.heap.heapStart = 0
  · obtain ⟨brk, hbrk⟩ : ∃ brk, brk = s.cursor := ⟨_, rfl⟩
    have hzero : (kernel.sbrk 0).run s = .ok brk (s.step (.ret .kernelSbrk) id) := by
      have hcur : s.cursor = (s.vm.proc s.vm.currentProc).heapEnd := by
        rw [h.formed.1.currentProc]
        exact if_pos hstart
      rw [hbrk, hcur]
      rfl
    rw [kmalloc_first hget hstart hzero rfl] at hrun
    rw [← hbrk]
    have hfirst : Extends Machine.trace s (s.step (.ret .kernelSbrk) id) := ⟨[_], rfl⟩
    have hrest := (growing_kmallocTake fuel _).extends_ok hrun
    exact h.kmallocTake (s := { s.step (.ret .kernelSbrk) id with heap := ⟨brk, brk, brk⟩ }) hrun
      (Extends.forall_since hfirst hrest htame).2
  · have hcur : s.cursor = s.heap.heap := if_neg hstart
    rw [kmalloc_started hget hstart] at hrun
    rw [hcur]
    exact h.kmallocTake hrun htame

/-- `ls` reads the directory. -/
theorem usesAllocator_fat32ReadDirArray (disk : Disk) (fuel : ℕ) (fs : Fat32) (d : Option Dirent) :
    UsesAllocator (fat32ReadDirArray kernel disk fuel fs d) :=
  fun _ _ h => h.fat32ReadDirArray disk fuel fs d

/-- `cat` reads the file and prints from it. -/
theorem usesAllocator_doReadEntry (disk : Disk) (fuel : ℕ) (fs : Fat32) (entry : Dirent)
    (buf : ℕ → UInt8) : UsesAllocator (doReadEntry disk fuel fs entry buf) := by
  intro I E h
  have hstring : ∀ room a, Keeps I E (cstringAt a room) := by
    intro room
    induction room with
    | zero => exact fun a => .pure fun _ hs => hs
    | succ room ih =>
      intro a
      apply Triple.bind (h.load a)
      intro c
      apply Triple.ite
      · exact fun _ => .pure fun _ hs => hs
      · exact fun _ => .bind (ih (a + 1)) fun _ => .pure fun _ hs => hs
  apply Triple.bind (h.fat32ReadFile disk fuel fs entry)
  intro file
  apply Triple.bind (hstring _ _)
  intro str
  cases vaPrintk buf printkSize ['%'.toUInt8, 's'.toUInt8, newline] [.str (cstr str)] with
  | ok r => exact .pure fun _ hs => hs
  | error e => exact .throw h.stop

theorem UsesAllocator.growing {α : Type} {m : Kern α} (hm : UsesAllocator m) : Growing m :=
  growing_platform fun _ _ h => hm _ _ h.allocator

/-- What they keep. -/
theorem steps_kmalloc_heap (v : Vm) (fuel n : ℕ) : Steps Tame (fun _ => True)
    (OnVm fun w => Growable w ∧ HeapKept v w) (Libpi.kmalloc kernel fuel n) fun _ =>
      OnVm fun w => Growable w ∧ HeapKept v w := by
  refine (growing_kmalloc fuel n).steps ?_
  intro s a t hs hrun htame
  obtain ⟨hgrown, hkept, -⟩ := hs.1.kmalloc hrun htame
  exact ⟨hgrown, hs.2.trans hkept⟩

theorem Growable.code {α : Type} {m : Kern α} {b : α} (h : Growable s.vm) (hm : UsesAllocator m)
    (hrun : m.run s = .ok b t) (htame : ∀ x ∈ since Machine.trace s t, Tame x) :
    Growable t.vm ∧ HeapKept s.vm t.vm := by
  have hL : MemStable Tame (fun _ => True) (OnVm fun w => Growable w ∧ HeapKept s.vm w) :=
    (stable_onVm _).toMemStable
  have hsteps : Steps Tame (fun _ => True) (OnVm fun w => Growable w ∧ HeapKept s.vm w) m fun _ =>
      OnVm fun w => Growable w ∧ HeapKept s.vm w :=
    .of_extends fun u => hm _ _ ⟨Steps.busKeeps_along hL u, fun fuel n =>
      (steps_kmalloc_heap s.vm fuel n).extends_from u⟩
  exact ((hsteps.of_ok hrun).elim ⟨h, .refl _⟩ htame).1

end Heap

section Read
variable {s t : Machine} {disk : Disk} {fuel : ℕ} {fs : Fat32} {entry : Dirent} {file : PiFile}

/-- A walk that only counts is the same on any memory. -/
theorem run_countClusters {σ : Type} (fs : Fat32) (fuel id n : ℕ) (x : σ) :
    (forClusters fs (fun n _ => pure (add32 n 1)) fuel id n : EStateM Stop σ ℕ).run x =
      match (forClusters fs (fun n _ => pure (add32 n 1)) fuel id n : EStateM Stop Unit ℕ).run () with
      | .ok m _ => .ok m x
      | .error e _ => .error e x := by
  have htype : ∀ {τ : Type} (c : ℕ) (y : τ), (fat32FatEntryType c : EStateM Stop τ ClusterType).run y =
      match (fat32FatEntryType c : EStateM Stop Unit ClusterType).run () with
      | .ok ty _ => .ok ty y
      | .error e _ => .error e y := by
    intro τ c y
    unfold fat32FatEntryType
    dsimp only
    split_ifs <;> rfl
  induction fuel generalizing id n with
  | zero => rfl
  | succ fuel ih =>
    unfold forClusters
    cases hty : (fat32FatEntryType id : EStateM Stop Unit ClusterType).run () with
    | ok ty u =>
      have hx := htype id x
      rw [hty] at hx
      rw [bind_ok hx, bind_ok hty]
      by_cases hlast : ty = .last
      · rw [if_pos hlast, if_pos hlast]
        rfl
      · rw [if_neg hlast, if_neg hlast]
        exact ih _ _
    | error e u =>
      have hx := htype id x
      rw [hty] at hx
      rw [bind_error hx, bind_error hty]

/-- `fat32_read_file` takes one block, of `n_alloc` bytes. -/
theorem of_fat32ReadFile_block (hrun : (fat32ReadFile kernel disk fuel fs entry).run s = .ok file t) :
    allocBytes fuel fs entry = some file.nAlloc ∧
      ∃ a u, (kmalloc kernel fuel file.nAlloc).run s = .ok a u ∧
        ∃ rest : Kern PiFile, Still rest ∧ rest.run u = .ok file t := by
  obtain ⟨m, s₁, s₂, r, s₃, hcount, halloc, -, hbytes, hrest⟩ := of_fat32ReadFile_ok hrun
  unfold countClusters at hcount
  rw [run_countClusters] at hcount
  unfold allocBytes countClusters
  cases hwalk : (forClusters fs (fun n _ => pure (add32 n 1)) fuel entry.clusterId 0 :
      EStateM Stop Unit ℕ).run () with
  | ok k x =>
    rw [hwalk] at hcount
    obtain ⟨rfl, rfl⟩ := EStateM.Result.ok.inj hcount
    exact ⟨congrArg some hbytes.symm, _, s₂, halloc, hrest⟩
  | error e x =>
    rw [hwalk] at hcount
    cases hcount

theorem allocBytes_aligned {n : ℕ} (h : allocBytes fuel fs entry = some n) : n % 8 = 0 := by
  unfold allocBytes at h
  split at h
  · obtain rfl := Option.some.inj h
    omega
  · cases h

/-- A new child's table is no concern of the kernel's heap. -/
theorem Growable.initTable (h : Growable s.vm) (hrun : execInitTable.run s = .ok () t) :
    Growable t.vm ∧ HeapKept s.vm t.vm ∧ t.vm.kernelProc.heapEnd = s.vm.kernelProc.heapEnd ∧
      t.cursor = s.cursor := by
  cases hrun
  have hidle := h.formed.1
  exact ⟨⟨⟨⟨hidle.ttbr, hidle.currentProc, hidle.kernelProc⟩, h.formed.2.kernel, nofun⟩, h.aligned, h.pos, h.room⟩, ⟨Nat.le_refl _, fun _ _ => rfl⟩, rfl, rfl⟩

/-- Reading a file keeps the heap, and keeps it below the window where the file fits there. -/
theorem Growable.read (h : Growable s.vm)
    (hrun : (do execInitTable; fat32ReadFile kernel disk fuel fs entry).run s = .ok file t)
    (htame : ∀ x ∈ since Machine.trace s t, Tame x) : Growable t.vm ∧ HeapKept s.vm t.vm ∧ (BelowWindow s fuel fs entry →
      t.vm.kernelProc.heapEnd ≤ kernelLoadAddr ∨ file.nAlloc = 0 ∧ entry.nbytes = 0) := by
  obtain ⟨_, s₁, hinit, hread⟩ := of_bind_ok hrun
  obtain ⟨h₁, hkept₁, hend₁, hcur₁⟩ := h.initTable hinit
  obtain ⟨hbytes, a, u, halloc, rest, hstill, hrest⟩ := of_fat32ReadFile_block hread
  have hstart : Extends Machine.trace s s₁ := storeless_execInitTable.extends_ok hinit
  have htaken : Extends Machine.trace s₁ u := (growing_kmalloc fuel _).extends_ok halloc
  have hstored : Extends Machine.trace u t := (growing_still hstill).extends_ok hrest
  obtain ⟨htame₁, htame₂⟩ := (hstart.trans htaken).forall_since hstored htame
  obtain ⟨hgrown, hkept, hleast⟩ := h₁.kmalloc halloc (hstart.forall_since htaken htame₁).2
  rw [vm_of_still hstill hrest htame₂]
  refine ⟨hgrown, hkept₁.trans hkept, ?_⟩
  intro hbelow
  rcases hbelow _ hbytes with ⟨hlow, hfits⟩ | hempty
  · left
    have hload : kernelLoadAddr = 0x100 * 2 ^ 20 := rfl
    have hround : roundup file.nAlloc 8 = file.nAlloc :=
      roundup_eight (allocBytes_aligned hbytes) (by omega)
    have hsum : add32 s.cursor file.nAlloc = s.cursor + file.nAlloc := Nat.mod_eq_of_lt (by omega)
    rw [hround, hcur₁, hsum, hend₁] at hleast
    obtain ⟨k, hk⟩ := hgrown.aligned
    omega
  · exact .inr hempty

end Read

section Exec
variable {v w : Vm} {s t u r o : Machine} {disk : Disk} {fuel : ℕ} {fs : Fat32} {entry : Dirent}
  {sbrks : List ℕ} {file : PiFile} {H : Moment → Prop}

/-- What is done for the child is not done in the kernel's table. -/
theorem kernelTable_childStable (T : ℕ → Fld) :
    ChildStable (WithChild fun v => v.table kernelAsid = T) fun v => v.table kernelAsid = T := by
  apply WithChild.stable
  · exact fun v sec hv => hv
  · intro v page sec sync hv
    rw [← hv]
    funext p
    rw [mapRam_table, if_neg (fun hin => childAsid_ne_kernelAsid hin.1.symm)]
  · exact fun v a t pid hv => hv
  · exact fun v g _ hv => hv
  · exact fun v hv => hv

theorem steps_execClose_table (T : ℕ → Fld) :
    Steps H (InVm fun v => v.table kernelAsid = T) (OnVm fun v => v.table kernelAsid = T) execClose
      fun _ => OnVm fun v => v.table kernelAsid = T :=
  .execClose (fun _ _ hv => hv) (fun _ hv => hv) (fun _ hv => hv) fun _ hv => hv

/-- From the opening of the file on, at every moment. -/
theorem Used.table_kept (h : Used disk fuel fs entry sbrks s r o t file)
    (hrun : (execChild sbrks { file with data := kernelLoadAddr }).run o = .ok () u)
    (htame : ∀ x ∈ since Machine.trace o u, Tame x) :
    ∀ x ∈ since Machine.trace o u, x.2.table kernelAsid = o.vm.table kernelAsid := by
  obtain ⟨hmapping, httbr⟩ := h.windowed.mapping h.starting
  have hdata : ({ file with data := kernelLoadAddr } : PiFile).data = kernelLoadAddr := rfl
  have hsteps : Steps Tame (InVm fun v => v.table kernelAsid = o.vm.table kernelAsid)
      (fun s => WithChild (fun v => v.table kernelAsid = o.vm.table kernelAsid) .kernel s.vm ∧
        s.vm.ttbr = kernelAsid)
      (execChild sbrks { file with data := kernelLoadAddr })
      fun _ => OnVm fun v => v.table kernelAsid = o.vm.table kernelAsid := by
    unfold execChild
    apply Traced.bind ((kernelTable_childStable (o.vm.table kernelAsid)).execProgram sbrks hdata)
    intro _
    exact (steps_execClose_table _).pre fun s hs => hs.1.kept
  exact ((hsteps.of_ok hrun).elim ⟨⟨hmapping.child, hmapping.currentProc, rfl⟩, httbr⟩ htame).2

/-- The entries of a heap that ends below the window are not touched by its mapping. -/
theorem Used.heap_entries (h : Used disk fuel fs entry sbrks s r o t file)
    (hlow : r.vm.kernelProc.heapEnd ≤ kernelLoadAddr ∨ file.nAlloc = 0) :
    ∀ p ∈ r.vm.heapPages, o.vm.table kernelAsid p = r.vm.table kernelAsid p := by
  intro p hp
  obtain ⟨w, hgrown, -, heq⟩ := h.windowed
  rw [(Windowed.kernel_eq heq).1]
  rcases hlow with hlow | hzero
  · apply hgrown.below_window
    have hload : kernelLoadAddr = 0x100 * 2 ^ 20 := rfl
    have hlt := hp.2
    omega
  · rw [hzero] at hgrown
    apply hgrown.table
    rintro ⟨-, hin⟩
    have hnone : pageRange kernelLoadAddr 0 = [] := by decide
    rw [hnone] at hin
    exact absurd hin List.not_mem_nil

/-- One `run` whose file fits. -/
theorem Growable.exec (h : Growable s.vm) (hbelow : BelowWindow s fuel fs entry)
    (hrun : (execFile disk fuel fs entry sbrks).run s = .ok () u)
    (htame : ∀ x ∈ since Machine.trace s u, Tame x) :
    Growable u.vm ∧ HeapKept s.vm u.vm ∧ WindowApart disk fuel fs entry s u := by
  have hformed : Idle u.vm ∧ Formed false u.vm := by
    have hop : (KernelOp.exec disk fuel fs entry sbrks).run.run s = .ok () u := hrun
    exact (((steps_op_formed (H := Tame) _).of_ok hop).elim h.formed htame).1
  obtain ⟨r, o, t, file, hused, hunmap⟩ := of_execFile_ok h.formed.1 hrun htame
  obtain ⟨hgrown, hkept, hlow⟩ := h.read hused.read hused.tame
  have hentries := hused.heap_entries ((hlow hbelow).imp_right (·.1))
  have hproc : u.vm.kernelProc = r.vm.kernelProc := hunmap.kernelProc.trans hused.kernelProc
  have htable : u.vm.table kernelAsid = o.vm.table kernelAsid := by
    rw [hunmap.table, hused.grown.kernel]
  have hafter : HeapKept r.vm u.vm := by
    refine ⟨by rw [hproc], ?_⟩
    rw [htable]
    exact hentries
  refine ⟨⟨hformed, ?_, ?_, ?_⟩, hkept.trans hafter, file, r, _, o, hused.read, hused.opened, hkept,
    hentries, ?_⟩
  · rw [hproc]
    exact hgrown.aligned
  · rw [hproc]
    exact hgrown.pos
  · rw [hproc]
    rcases hlow hbelow with hend | ⟨hzero, hnone⟩
    · have hload : kernelLoadAddr = 0x100 * 2 ^ 20 := rfl
      have hcard := card_freeSecs_lt u.vm
      have hphys : nPhysPages = 512 := rfl
      omega
    · have hfile : ∀ q ∈ filePages entry.nbytes, q ∈ pageRange kernelLoadAddr file.nAlloc := by
        have hnil : filePages 0 = [] := by decide
        rw [hnone, hnil]
        exact fun q hq => absurd hq List.not_mem_nil
      have hcard := card_freeSecs_le (hused.inUse hfile hunmap).1
      exact Nat.le_trans (Nat.add_le_add_left (Nat.mul_le_mul_right _ hcard) _) hgrown.room
  · rw [execFile_eq, ← bind_assoc] at hrun
    obtain ⟨f, o', hopen, hchild⟩ := of_bind_ok hrun
    obtain ⟨rfl, rfl⟩ := EStateM.Result.ok.inj (hused.opened.symm.trans hopen)
    have hopened : Extends Machine.trace s o := (growing_bind storeless_execInitTable.grows fun _ =>
      growing_execOpen disk fuel fs entry).extends_ok hopen
    exact hused.table_kept hchild (hopened.forall_since ((growing_execChild _ _).extends_ok hchild) htame).2

theorem notmainInit_growable (hs : notmainInit.run s = .ok () t) : Growable t.vm := by
  have hbounded := notmainInit_bounded hs
  refine ⟨notmainInit_formed hs, ?_, hbounded.pos, ?_⟩
  · cases hs
    exact ⟨5, rfl⟩
  · exact Nat.le_trans hbounded.room (by decide)

theorem CommandStep.kept (hs : Growable s.vm) (h : CommandStep BelowWindow s t)
    (htame : ∀ x ∈ since Machine.trace s t, Tame x) : Growable t.vm ∧ HeapKept s.vm t.vm := by
  cases h with
  | code m hm hrun => exact hs.code hm hrun htame
  | run disk fuel fs entry sbrks hok hrun =>
    obtain ⟨hgrown, hkept, -⟩ := hs.exec hok hrun htame
    exact ⟨hgrown, hkept⟩

theorem CommandStep.extends {Ok : Machine → ℕ → Fat32 → Dirent → Prop} (h : CommandStep Ok s t) :
    Extends Machine.trace s t := by
  cases h with
  | code m hm hrun => exact hm.growing.extends_ok hrun
  | run disk fuel fs entry sbrks _ hrun => exact (growing_execFile disk fuel fs entry sbrks).extends_ok hrun

theorem Commands.extends {Ok : Machine → ℕ → Fat32 → Dirent → Prop} (h : Commands Ok s t) :
    Extends Machine.trace s t := by
  induction h with
  | refl => exact ⟨[], rfl⟩
  | tail _ hstep ih => exact ih.trans hstep.extends

theorem Commands.kept (hs : Growable s.vm) (h : Commands BelowWindow s t)
    (htame : ∀ x ∈ since Machine.trace s t, Tame x) : Growable t.vm ∧ HeapKept s.vm t.vm := by
  induction h with
  | refl => exact ⟨hs, .refl _⟩
  | tail hsession hstep ih =>
    obtain ⟨htame₁, htame₂⟩ := (Commands.extends hsession).forall_since hstep.extends htame
    obtain ⟨hgrown₁, hkept₁⟩ := ih htame₁
    obtain ⟨hgrown, hkept⟩ := hstep.kept hgrown₁ htame₂
    exact ⟨hgrown, hkept₁.trans hkept⟩

/-- In a session without a store through a global descriptor in which every file that is run fits
below the window, the heap's entries are never replaced, and no `run` that fits and makes no such
store puts the window on one. -/
theorem heap_window_apart {m b : Machine} (hboot : notmainInit.run m = .ok () b)
    (hs : Commands BelowWindow b s) (ht : Commands BelowWindow s t)
    (htame : ∀ x ∈ since Machine.trace b t, Tame x) :
    HeapKept s.vm t.vm ∧ ∀ disk fuel fs entry sbrks u, BelowWindow t fuel fs entry →
      (execFile disk fuel fs entry sbrks).run t = .ok () u →
      (∀ x ∈ since Machine.trace t u, Tame x) → WindowApart disk fuel fs entry t u := by
  obtain ⟨htame₁, htame₂⟩ := (Commands.extends hs).forall_since (Commands.extends ht) htame
  obtain ⟨hgrown, -⟩ := Commands.kept (notmainInit_growable hboot) hs htame₁
  obtain ⟨hgrown', hkept⟩ := Commands.kept hgrown ht htame₂
  refine ⟨hkept, ?_⟩
  intro disk fuel fs entry sbrks u hbelow hrun htame'
  exact (hgrown'.exec hbelow hrun htame').2.2

/-- A file of one byte is run by a kernel that has just started. -/
theorem heap_window_apart_oneByte : ∃ s u, notmainInit.run powerOn = .ok () s ∧
    (execFile (sectorDisk [0x41]) 2 sectorFs (sectorFile [0x41]) []).run s = .ok () u ∧
    HeapKept s.vm u.vm ∧ WindowApart (sectorDisk [0x41]) 2 sectorFs (sectorFile [0x41]) s u := by
  obtain ⟨s, r, o, u, file, hboot, hread, hopen, hrun, -, -, htame⟩ :=
    sectorFile_given_up [0x41] (by decide)
  obtain ⟨b, hboot', hat, -, hcur, -⟩ := notmainInit_run powerOn rfl
  obtain rfl := (EStateM.Result.ok.inj (hboot'.symm.trans hboot)).2
  have hbelow : BelowWindow b 2 sectorFs (sectorFile [0x41]) := by
    intro n hn
    have hbytes : allocBytes 2 sectorFs (sectorFile [0x41]) = some 512 := by decide
    obtain rfl := Option.some.inj (hbytes.symm.trans hn)
    rw [hat.heapEnd, hcur]
    exact .inl (by decide)
  have hsession : Commands BelowWindow b b := .refl
  have hstep : Commands BelowWindow b u := .single (.run _ _ _ _ _ hbelow hrun)
  have hstart : ∀ x ∈ since Machine.trace b b, Tame x := (TameTo.of_trace rfl).tame
  exact ⟨b, u, hboot, hrun, (heap_window_apart hboot hsession hstep htame).1,
    (heap_window_apart hboot hsession hsession hstart).2 _ _ _ _ _ _ hbelow hrun htame⟩

/-- The window replaces an entry of a heap that goes past its start. -/
theorem HeapAt.window_replaces {e n : ℕ} (h : HeapAt e s) (he : kernelLoadAddr / 2 ^ 20 < e)
    (hn : 1 ≤ n) (htop : kernelLoadAddr + n ≤ 2 ^ 32)
    (hgrown : Grown (s.vm.openFile file) w kernelAsid (pageRange kernelLoadAddr n)) :
    ∃ p ∈ s.vm.heapPages, w.table kernelAsid p ≠ s.vm.table kernelAsid p := by
  have hpage : kernelLoadAddr / 2 ^ 20 = 0x100 := rfl
  have hfirst : 0x100 ∈ pageRange kernelLoadAddr n := by
    rw [mem_windowPages hn htop, hpage]
    exact ⟨Nat.le_refl _, (Nat.le_div_iff_mul_le (by decide)).mpr (by
      have hload : kernelLoadAddr = 0x100 * 2 ^ 20 := rfl
      omega)⟩
  refine ⟨0x100, ⟨by decide, ?_⟩, ?_⟩
  · rw [h.heapEnd]
    omega
  · intro hsame
    have hfree := hgrown.fresh _ hfirst
    rw [hsame] at hfree
    have hfree' : Free s.vm (s.vm.table kernelAsid 0x100).sec := ⟨hfree.lo, hfree.hi, hfree.owner⟩
    exact h.owns.ne_free kernelAsid_ne hfree' (p := 0x100) ⟨by decide, by omega⟩ rfl

/-- A file system of clusters of 64 KiB: a file of 252 MiB and one of one byte. -/
def bigFs : Fat32 := ⟨32, 100, 128, 2, fun c => if c < 4033 then c + 1 else 0xFFFFFFF, 4096⟩

def bigFile : Dirent := ⟨[], 2, false, 252 * 2 ^ 20⟩

def lastFile : Dirent := ⟨[], 4034, false, 1⟩

def bigSize : FatSize := ⟨4096, by decide⟩

theorem bigFs_chain (k : ℕ) (hk : k ≤ 4031) : Chain bigFs bigSize (4033 - k) (List.range' (4033 - k) (k + 1)) := by
  induction k with
  | zero => exact .last (by decide) (by decide) (by decide)
  | succ k ih =>
    have hnext : bigFs.fat (4033 - (k + 1)) = 4033 - k := by
      change (if 4033 - (k + 1) < 4033 then 4033 - (k + 1) + 1 else 0xFFFFFFF) = 4033 - k
      rw [if_pos (by omega)]
      omega
    have hrest := ih (by omega)
    have hlist : List.range' (4033 - (k + 1)) (k + 1 + 1) =
        (4033 - (k + 1)) :: List.range' (4033 - k) (k + 1) := by
      have hstart : 4033 - k = 4033 - (k + 1) + 1 := by omega
      rw [hstart]
      rfl
    rw [hlist]
    refine .next (by omega) ?_ ?_ ?_
    · change 4033 - (k + 1) < 4096
      omega
    · rw [hnext]
      omega
    · rw [hnext]
      exact hrest

theorem chainBytes_zero {cs : List ℕ} (hcs : cs ≠ []) :
    (chainBytes (fun _ _ => 0) bigFs cs)[0]? = some 0 := by
  have hpos : 0 < (chainBytes (fun _ _ => 0) bigFs cs).length := by
    rw [length_chainBytes]
    exact Nat.mul_pos (List.length_pos_iff.mpr hcs) (by decide)
  have hzero : ∀ b ∈ chainBytes (fun _ _ => 0) bigFs cs, b = 0 := by
    intro b hb
    obtain ⟨c, -, hb⟩ := List.mem_flatMap.mp hb
    obtain ⟨i, -, hb⟩ := List.mem_flatMap.mp hb
    obtain ⟨j, -, rfl⟩ := List.mem_map.mp hb
    rfl
  rw [List.getElem?_eq_getElem hpos, hzero _ (List.getElem_mem hpos)]

/-- The long file, all zeros, is printed, and the heap ends a page past the start of the window. -/
theorem bigFile_printed (hfuel : 4033 ≤ fuel) (hat : HeapAt 5 s) (hcur : s.cursor = kernelHeapAddr)
    (hfree : (freeSecs s.vm).card = 507) : ∃ t,
      (doReadEntry (fun _ _ => 0) fuel bigFs bigFile fun _ => 0).run s = .ok [newline] t ∧
      HeapAt 257 t ∧ t.cursor = 0x101 * 2 ^ 20 ∧ (freeSecs t.vm).card = 255 ∧ TameTo s t := by
  have hchain : Chain bigFs bigSize bigFile.clusterId (List.range' 2 4032) :=
    bigFs_chain 4031 (Nat.le_refl _)
  have hheap : kernelHeapAddr = 5 * 2 ^ 20 := rfl
  have hbytes : (List.range' 2 4032).length * bigFs.sectorsPerCluster * 512 = 252 * 2 ^ 20 := by
    rw [List.length_range']
    rfl
  obtain ⟨k, t, cksum, hread, hext, ht, hcurt, hfits, hleast, hbreak, hholds⟩ :=
    fat32ReadFile_run (fun _ _ => 0) bigFs bigSize bigFile _ fuel hat hchain (by decide)
      (by rw [List.length_range']; omega) (by rw [hbytes, hcur, hfree]; omega)
      (by rw [hbytes, hcur]; omega) (by rw [hbytes]; exact Nat.le_refl _)
  have hzero : t.view s.cursor = some 0 := hholds 0 0 (chainBytes_zero hchain.ne_nil)
  have hline : (printkLine (fun _ => 0) s.cursor).run t = .ok [newline] t :=
    printkLine_ok_iff.mpr ⟨[], IsCString.nil.mpr hzero, rfl, rfl⟩
  rw [hbytes, hcur] at hcurt hfits hleast
  obtain rfl : k = 252 := by omega
  have hroom := hext.room
  rw [hfree] at hroom
  refine ⟨t, ?_, ht, hcurt, hroom, hbreak.tameTo⟩
  unfold doReadEntry
  rw [bind_ok hread]
  exact hline

/-- A file of one byte is opened while the heap ends past the start of the window. -/
theorem lastFile_opened (disk : Disk) (hfuel : 4033 ≤ fuel) (hat : HeapAt 257 s) (hcur : s.cursor = 0x101 * 2 ^ 20)
    (hfree : (freeSecs s.vm).card = 255) : ∃ file r f o,
      (do execInitTable; fat32ReadFile kernel disk fuel bigFs lastFile).run s = .ok file r ∧
      (do execInitTable; execOpen disk fuel bigFs lastFile).run s = .ok f o ∧ f.nData = 1 ∧
      TameTo s o ∧ ∃ p ∈ r.vm.heapPages, o.vm.table kernelAsid p ≠ r.vm.table kernelAsid p := by
  obtain ⟨s₁, hinit⟩ := execInitTable_ok s
  obtain ⟨h₁, hcur₁, hfree₁⟩ := hat.execInitTable hinit
  have hchain : Chain bigFs bigSize lastFile.clusterId [4034] :=
    .last (by decide) (by decide) (by decide)
  have hbytes : [4034].length * bigFs.sectorsPerCluster * 512 = 65536 := rfl
  have hlast : lastFile.nbytes = 1 := rfl
  obtain ⟨k, r, cksum, hread, hext, hr, -, hfits, hleast, hbreak, hholds⟩ :=
    fat32ReadFile_run disk bigFs bigSize lastFile _ fuel h₁ hchain (by decide)
      (by rw [List.length_singleton]; omega) (by rw [hbytes, hcur₁, hcur, hfree₁, hfree]; omega)
      (by rw [hbytes, hcur₁, hcur]; omega) (by rw [hbytes, hlast]; omega)
  rw [hbytes, hcur₁, hcur, hlast] at hread
  rw [hbytes, hcur₁, hcur] at hfits hleast
  rw [hcur₁, hcur] at hholds
  obtain rfl : k = 1 := by omega
  have hroom := hext.room
  rw [hfree₁, hfree] at hroom
  obtain ⟨file, hfile⟩ : ∃ file : PiFile, file = ⟨0x101 * 2 ^ 20, cksum, 65536, 1⟩ := ⟨_, rfl⟩
  rw [← hfile] at hread
  have hdata : file.data = 0x101 * 2 ^ 20 := by rw [hfile]
  have halloc : file.nAlloc = 65536 := by rw [hfile]
  have hsize : file.nData = 1 := by rw [hfile]
  have hlen : ((chainBytes disk bigFs [4034]).take 1).length = file.nData := by
    rw [hsize, List.length_take, length_chainBytes, ← Nat.mul_assoc, hbytes]
    exact Nat.min_eq_left (by decide)
  have htake : r.Holds file.data ((chainBytes disk bigFs [4034]).take 1) := by
    intro i b hb
    rw [List.getElem?_take] at hb
    rw [hdata]
    split at hb
    · exact hholds i b hb
    · cases hb
  have hwindow : pageRange kernelLoadAddr file.nAlloc = [0x100] := by
    rw [halloc]
    decide
  obtain ⟨o, w, hopen, hgrown, hvm, -, -, htame⟩ := execLoadFile_run hr file htake hlen
    (by rw [hdata]; omega) (by rw [hdata, hsize]; omega) (by decide)
    (by
      intro i hi
      rw [hwindow, hdata, List.mem_singleton]
      omega)
    (by rw [hsize, halloc]; omega) (by rw [halloc]; decide)
    (by rw [hwindow, hroom]; decide)
  obtain ⟨p, hp, hother⟩ := hr.window_replaces (by decide) (by rw [halloc]; omega)
    (by rw [halloc]; decide) hgrown
  refine ⟨file, r, { file with data := kernelLoadAddr }, o, ?_, ?_, hsize,
    ((storeless_execInitTable.tameTo hinit).trans hbreak.tameTo).trans htame, p, hp, ?_⟩
  · rw [bind_ok hinit]
    exact hread
  · rw [bind_ok hinit]
    unfold execOpen
    rw [bind_ok hread]
    exact hopen
  · rw [(Windowed.kernel_eq hvm).1]
    exact hother

/-- The long file is printed, then the short one is run. -/
theorem heap_window_collide : ∃ fuel b t u, notmainInit.run powerOn = .ok () b ∧
    Commands (fun _ _ _ _ => True) b t ∧
    (execFile (fun _ _ => 0) fuel bigFs lastFile []).run t = .ok () u ∧
    ¬ WindowApart (fun _ _ => 0) fuel bigFs lastFile t u := by
  obtain ⟨fuel, hfuel⟩ : ∃ fuel, 4033 ≤ fuel := ⟨4033, Nat.le_refl _⟩
  obtain ⟨b, hboot, hat, hfree, hcur, -⟩ := notmainInit_run powerOn rfl
  have hcard : (freeSecs b.vm).card = 507 := by
    rw [hfree, Nat.card_Ico]
    rfl
  obtain ⟨t, hcat, ht, hcurt, hfreet, htame⟩ := bigFile_printed hfuel hat hcur hcard
  have hcode := usesAllocator_doReadEntry (fun _ _ => 0) fuel bigFs bigFile fun _ => 0
  obtain ⟨hgrowable, -⟩ := Growable.code (notmainInit_growable hboot) hcode hcat htame.tame
  obtain ⟨file, r, f, o, hread, hopen, hsize, htame', p, hp, hother⟩ :=
    lastFile_opened (fun _ _ => 0) hfuel ht hcurt hfreet
  have hprogram : (execProgram [] f).run o = .ok () (o.step (.ret .elfLoad) id) :=
    execProgram_short (by rw [hsize]; decide) o
  have huse : (do execInitTable; execOpen (fun _ _ => 0) fuel bigFs lastFile >>= execProgram []).run t =
      .ok () (o.step (.ret .elfLoad) id) := by
    rw [← bind_assoc, bind_ok hopen]
    exact hprogram
  have hend : TameTo o (o.step (.ret .elfLoad) id) := (storeless_perform (by simp) id).tameTo rfl
  have hformed := execProgram_formed hgrowable.formed huse (htame'.trans hend).tame
  obtain ⟨v, hunmap⟩ := mmuUnmap_run fun p hp htag hnG =>
    ((hformed.child rfl p hp).released ⟨htag, hnG⟩).2
  obtain ⟨u, hclose⟩ : ∃ u, execClose.run (o.step (.ret .elfLoad) id) = .ok () u := by
    unfold execClose
    rw [bind_ok hunmap]
    exact ⟨_, rfl⟩
  refine ⟨fuel, b, t, u, hboot, .single (.code _ hcode hcat), ?_, ?_⟩
  · rw [execFile_eq, ← bind_assoc, bind_ok hopen]
    unfold execChild
    rw [bind_ok hprogram]
    exact hclose
  · rintro ⟨file', r', f', o', hread', hopen', -, hentries, -⟩
    obtain ⟨-, rfl⟩ := EStateM.Result.ok.inj (hread.symm.trans hread')
    obtain ⟨-, rfl⟩ := EStateM.Result.ok.inj (hopen.symm.trans hopen')
    exact hother (hentries p hp)

end Exec

end SimplePiOS.Kernel
