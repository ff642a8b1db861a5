import SimplePiOS.Kernel.Ownership
import SimplePiOS.Libpi.Block

/-! Ranges of virtual addresses with memory of their own: they are blocks, so that the bulk
stores of libpi leave there what they are meant to leave. -/
namespace SimplePiOS.Kernel
open Lib Libpi

/-- The physical address behind a mapped one. -/
def Vm.phys (v : Vm) (a : ℕ) : ℕ := (v.fldAt a).sec * 2 ^ 20 + a % 2 ^ 20

/-- Every page of the range has a section of its own under the active table. -/
structure Backed (v : Vm) (base n : ℕ) : Prop where
  top : base + n ≤ 2 ^ 32
  priv : ∀ i < n, (v.fldAt (base + i)).Private
  inj : ∀ i < n, ∀ j < n, (v.fldAt (base + i)).sec = (v.fldAt (base + j)).sec →
    (base + i) / 2 ^ 20 = (base + j) / 2 ^ 20

/-- `s` is `s₀` with other bytes behind the range. -/
structure Within (s₀ : Machine) (base n : ℕ) (s : Machine) : Prop where
  vm : s.vm = s₀.vm
  heap : s.heap = s₀.heap
  trace : s.trace = s₀.trace
  mem : ∀ pa, (∀ i < n, s₀.vm.phys (base + i) ≠ pa) → s.mem pa = s₀.mem pa

section Block
variable {v : Vm} {s s₀ : Machine} {base n : ℕ}

theorem phys_div (v : Vm) (a : ℕ) : v.phys a / 2 ^ 20 = (v.fldAt a).sec := by
  unfold Vm.phys
  rw [Nat.add_comm, Nat.add_mul_div_right _ _ (by omega), Nat.div_eq_of_lt (Nat.mod_lt _ (by omega)),
    Nat.zero_add]

theorem phys_mod (v : Vm) (a : ℕ) : v.phys a % 2 ^ 20 = a % 2 ^ 20 := by
  unfold Vm.phys
  rw [Nat.add_comm, Nat.add_mul_mod_self_right, Nat.mod_mod]

/-- Two addresses of the range have different bytes behind them. -/
theorem Backed.phys_inj (h : Backed v base n) {i j : ℕ} (hi : i < n) (hj : j < n)
    (heq : v.phys (base + i) = v.phys (base + j)) : i = j := by
  have hdiv := congrArg (· / 2 ^ 20) heq
  have hmod := congrArg (· % 2 ^ 20) heq
  simp only [phys_div] at hdiv
  simp only [phys_mod] at hmod
  have hpage := h.inj i hi j hj hdiv
  have hleft := Nat.div_add_mod (base + i) (2 ^ 20)
  have hright := Nat.div_add_mod (base + j) (2 ^ 20)
  rw [hpage, hmod, hright] at hleft
  omega

theorem Within.refl (s : Machine) (base n : ℕ) : Within s base n s :=
  ⟨rfl, rfl, rfl, fun _ _ => rfl⟩

theorem translate_private {f : Fld} (hf : f.Private) (va : ℕ) :
    f.translate va = some (f.sec * 2 ^ 20 + va % 2 ^ 20) := by
  unfold Fld.translate
  rw [if_pos hf.1]

theorem run_loadByte_private {a : ℕ} (ha : a < 2 ^ 32) (hf : (s.vm.fldAt a).Private) :
    (loadByte a).run s = .ok (s.mem (s.vm.phys a)) s := by
  rw [run_loadByte]
  unfold Machine.view
  rw [Nat.mod_eq_of_lt ha, translate_private hf]
  rfl

theorem run_storeByte_private {a : ℕ} (ha : a < 2 ^ 32) (hf : (s.vm.fldAt a).Private) (b : UInt8) :
    (storeByte a b).run s = .ok () { s with mem := Function.update s.mem (s.vm.phys a) b } := by
  have hnG : ¬ (s.vm.fldAt a).nG = 0 := by
    rw [hf.2]
    decide
  unfold storeByte EStateM.run
  dsimp only
  rw [Nat.mod_eq_of_lt ha, translate_private hf]
  dsimp only
  rw [if_neg hnG]
  rfl

/-- A backed range is a block. -/
def mmuBlock (s₀ : Machine) (base n : ℕ) (h : Backed s₀.vm base n) : Block mmu base n where
  inv := Within s₀ base n
  get s i := s.mem (s₀.vm.phys (base + i))
  set i b s := { s with mem := Function.update s.mem (s₀.vm.phys (base + i)) b }
  load_eq := by
    intro s i hs hi
    have hlt : base + i < 2 ^ 32 := Nat.lt_of_lt_of_le (by omega) h.top
    have hrun := run_loadByte_private (s := s) hlt (by rw [hs.vm]; exact h.priv i hi)
    rw [hs.vm] at hrun
    exact hrun
  store_eq := by
    intro s i b hs hi
    have hlt : base + i < 2 ^ 32 := Nat.lt_of_lt_of_le (by omega) h.top
    have hphys : s.vm.phys (base + i) = s₀.vm.phys (base + i) := by rw [hs.vm]
    have hrun := run_storeByte_private (s := s) hlt (by rw [hs.vm]; exact h.priv i hi) b
    rw [hphys] at hrun
    exact hrun
  inv_set := by
    intro s i b hs hi
    refine ⟨hs.vm, hs.heap, hs.trace, ?_⟩
    intro pa hpa
    dsimp only
    rw [Function.update_of_ne (Ne.symm (hpa i hi))]
    exact hs.mem pa hpa
  get_set := by
    intro s i j b _ hi hj
    by_cases hij : j = i
    · simp [hij]
    · have hne : s₀.vm.phys (base + j) ≠ s₀.vm.phys (base + i) :=
        fun heq => hij (h.phys_inj hj hi heq)
      simp [hij, Function.update_of_ne hne]

/-- Bytes that are read from outside the range. -/
theorem mmuBlock_source (h : Backed s₀.vm base n) {src : ℕ} {bs : List UInt8}
    (hview : ∀ i b, bs[i]? = some b → s₀.view (src + i) = some b)
    (hapart : ∀ i < bs.length, ∀ j < n,
      s₀.vm.phys (base + j) ≠ s₀.vm.phys ((src + i) % 2 ^ 32)) :
    (mmuBlock s₀ base n h).Source src bs := by
  intro t ht i b hb
  have hi : i < bs.length := (List.getElem?_eq_some_iff.mp hb).1
  have hs₀ := hview i b hb
  have hrun : (mmu.load (src + i)).run t = _ := run_loadByte (src + i) t
  have hsame : t.view (src + i) = s₀.view (src + i) := by
    unfold Machine.view at hs₀ ⊢
    rw [ht.vm]
    cases htr : (s₀.vm.fldAt ((src + i) % 2 ^ 32)).translate ((src + i) % 2 ^ 32) with
    | none => rfl
    | some pa =>
      unfold Fld.translate at htr
      split at htr
      · cases htr
        simp only [Option.map_some, Option.some.injEq]
        exact ht.mem _ (hapart i hi)
      · cases htr
  rw [hrun, hsame, hs₀]

/-- A range within the pages a table owns is backed while the table is active. -/
theorem Owns.backed {pages : Set ℕ} (h : Owns v v.ttbr pages) (htop : base + n ≤ 2 ^ 32)
    (hpages : ∀ i < n, (base + i) / 2 ^ 20 ∈ pages) : Backed v base n :=
  ⟨htop, fun i hi => h.priv _ (hpages i hi), fun i hi j hj heq =>
    h.inj (hpages i hi) (hpages j hj) heq⟩

end Block

section Access
variable {v : Vm} {α β : Type} {m : Kern α} {f : α → Kern β}

/-- From the tables `v` the code comes to its end, and changes memory only. -/
def Runs (v : Vm) (m : Kern α) : Prop :=
  ∀ s, s.vm = v → ∃ a t, m.run s = .ok a t ∧ t.vm = v ∧ t.trace = s.trace

/-- From the tables `v` the code accesses an address without a mapping. -/
def Aborts (v : Vm) (m : Kern α) : Prop :=
  ∀ s, s.vm = v → ∃ va t, m.run s = .error (.dataAbort va) t ∧ t.trace = s.trace

theorem Runs.pure (a : α) : Runs v (Pure.pure a : Kern α) := fun s hs => ⟨a, s, rfl, hs, rfl⟩

theorem Runs.bind (hm : Runs v m) (hf : ∀ a, Runs v (f a)) : Runs v (m >>= f) := by
  intro s hs
  obtain ⟨a, t, hrun, ht, htrace⟩ := hm s hs
  obtain ⟨b, u, hrun', hu, htrace'⟩ := hf a t ht
  refine ⟨b, u, ?_, hu, htrace'.trans htrace⟩
  rw [bind_ok hrun]
  exact hrun'

theorem Runs.bind_aborts (hm : Runs v m) (hf : ∀ a, Aborts v (f a)) : Aborts v (m >>= f) := by
  intro s hs
  obtain ⟨a, t, hrun, ht, htrace⟩ := hm s hs
  obtain ⟨va, u, hrun', htrace'⟩ := hf a t ht
  refine ⟨va, u, ?_, htrace'.trans htrace⟩
  rw [bind_ok hrun]
  exact hrun'

theorem Aborts.bind (hm : Aborts v m) : Aborts v (m >>= f) := by
  intro s hs
  obtain ⟨va, t, hrun, htrace⟩ := hm s hs
  exact ⟨va, t, bind_error hrun, htrace⟩

/-- The two ways of a computation that depends on a mapping. -/
def Needs (v : Vm) (c : Prop) (m : Kern α) : Prop := (c → Runs v m) ∧ (¬ c → Aborts v m)

theorem Needs.bind {c c' : Prop} (hm : Needs v c m) (hf : ∀ a, Needs v c' (f a)) :
    Needs v (c ∧ c') (m >>= f) := by
  refine ⟨fun h => (hm.1 h.1).bind fun a => (hf a).1 h.2, fun h => ?_⟩
  by_cases hc : c
  · exact (hm.1 hc).bind_aborts fun a => (hf a).2 fun hc' => h ⟨hc, hc'⟩
  · exact (hm.2 hc).bind

theorem Runs.needs_bind {c : Prop} (hm : Runs v m) (hf : ∀ a, Needs v c (f a)) :
    Needs v c (m >>= f) :=
  ⟨fun h => hm.bind fun a => (hf a).1 h, fun h => hm.bind_aborts fun a => (hf a).2 h⟩

theorem Needs.congr {c c' : Prop} (hm : Needs v c m) (h : c ↔ c') : Needs v c' m :=
  ⟨fun hc => hm.1 (h.mpr hc), fun hc => hm.2 fun hc' => hc (h.mp hc')⟩

/-- The page of an address, under the active table. -/
def Vm.Mapped (v : Vm) (a : ℕ) : Prop := (v.fldAt (a % 2 ^ 32)).Valid

theorem needs_load (a : ℕ) : Needs v (v.Mapped a) (mmu.load a) := by
  have hrun : ∀ s, (mmu.load a).run s = _ := fun s => run_loadByte a s
  unfold Vm.Mapped
  constructor
  · intro hvalid s hs
    refine ⟨s.mem (s.vm.phys (a % 2 ^ 32)), s, ?_, hs, rfl⟩
    rw [hrun]
    unfold Machine.view Fld.translate Vm.phys
    rw [hs, if_pos hvalid]
    rfl
  · intro hinvalid s hs
    refine ⟨a % 2 ^ 32, s, ?_, rfl⟩
    rw [hrun]
    unfold Machine.view Fld.translate
    rw [hs, if_neg hinvalid]
    rfl

theorem runs_store {a : ℕ} (h : (v.fldAt (a % 2 ^ 32)).Private) (b : UInt8) :
    Runs v (mmu.store a b) := by
  intro s hs
  refine ⟨(), { s with mem := Function.update s.mem (s.vm.phys (a % 2 ^ 32)) b }, ?_, hs, rfl⟩
  have hmod : (mmu.store a b).run s = (mmu.store (a % 2 ^ 32) b).run s := by
    change (storeByte a b).run s = (storeByte (a % 2 ^ 32) b).run s
    unfold storeByte
    rw [Nat.mod_mod]
  rw [hmod]
  exact run_storeByte_private (Nat.mod_lt _ (by omega)) (by rw [hs]; exact h) b

theorem runs_fillBytes (c : UInt8) (n p : ℕ)
    (h : ∀ i < n, (v.fldAt ((p + i) % 2 ^ 32)).Private) : Runs v (fillBytes mmu c p n) := by
  induction n generalizing p with
  | zero => exact .pure _
  | succ n ih =>
    apply (runs_store (h 0 (by omega)) c).bind
    intro _
    apply ih
    intro i hi
    rw [Nat.add_assoc, Nat.add_comm 1 i]
    exact h (i + 1) (by omega)

/-- A bound variable split off. -/
theorem forall_lt_succ {P : ℕ → Prop} {n : ℕ} :
    (∀ i < n + 1, P i) ↔ P 0 ∧ ∀ i < n, P (i + 1) := by
  constructor
  · intro h
    exact ⟨h 0 (by omega), fun i hi => h (i + 1) (by omega)⟩
  · rintro ⟨h0, h⟩ i hi
    cases i with
    | zero => exact h0
    | succ i => exact h i (by omega)

theorem needs_copyBytes (n dst src : ℕ)
    (h : ∀ i < n, (v.fldAt ((dst + i) % 2 ^ 32)).Private) :
    Needs v (∀ i < n, v.Mapped (src + i)) (copyBytes mmu dst src n) := by
  induction n generalizing dst src with
  | zero => exact ⟨fun _ => .pure _, fun hn => absurd (by simp) hn⟩
  | succ n ih =>
    have hrest : ∀ i < n, (v.fldAt ((dst + 1 + i) % 2 ^ 32)).Private := by
      intro i hi
      rw [Nat.add_assoc, Nat.add_comm 1 i]
      exact h (i + 1) (by omega)
    have hstep : Needs v (v.Mapped src ∧ ∀ i < n, v.Mapped (src + 1 + i)) (copyBytes mmu dst src (n + 1)) := by
      apply (needs_load src).bind
      intro b
      apply (runs_store (h 0 (by omega)) b).needs_bind
      intro _
      exact ih (dst + 1) (src + 1) hrest
    apply hstep.congr
    rw [forall_lt_succ]
    simp only [Nat.add_zero, Nat.add_assoc, Nat.add_comm 1]

theorem needs_copyWords (n dst src : ℕ)
    (h : ∀ i < 4 * n, (v.fldAt ((dst + i) % 2 ^ 32)).Private) :
    Needs v (∀ i < 4 * n, v.Mapped (src + i)) (copyWords mmu dst src n) := by
  induction n generalizing dst src with
  | zero => exact ⟨fun _ => .pure _, fun hn => absurd (by simp) hn⟩
  | succ n ih =>
    have hrest : ∀ i < 4 * n, (v.fldAt ((dst + 4 + i) % 2 ^ 32)).Private := by
      intro i hi
      rw [Nat.add_assoc, Nat.add_comm 4 i]
      exact h (i + 4) (by omega)
    have hstep : Needs v (v.Mapped src ∧ v.Mapped (src + 1) ∧ v.Mapped (src + 2) ∧
        v.Mapped (src + 3) ∧ ∀ i < 4 * n, v.Mapped (src + 4 + i))
        (copyWords mmu dst src (n + 1)) := by
      apply (needs_load src).bind
      intro b0
      apply (needs_load (src + 1)).bind
      intro b1
      apply (needs_load (src + 2)).bind
      intro b2
      apply (needs_load (src + 3)).bind
      intro b3
      apply (runs_store (h 0 (by omega)) b0).needs_bind
      intro _
      apply (runs_store (h 1 (by omega)) b1).needs_bind
      intro _
      apply (runs_store (h 2 (by omega)) b2).needs_bind
      intro _
      apply (runs_store (h 3 (by omega)) b3).needs_bind
      intro _
      exact ih (dst + 4) (src + 4) hrest
    apply hstep.congr
    rw [Nat.mul_succ, forall_lt_succ, forall_lt_succ, forall_lt_succ, forall_lt_succ]
    simp only [Nat.add_zero, Nat.add_assoc, Nat.add_comm 4]

theorem needs_memcpy (dst src n : ℕ) (h : ∀ i < n, (v.fldAt ((dst + i) % 2 ^ 32)).Private) :
    Needs v (∀ i < n, v.Mapped (src + i)) (memcpy mmu dst src n) := by
  unfold memcpy
  split
  · next hwords =>
    have hn : 4 * (n / 4) = n := by omega
    have hcopy := needs_copyWords (v := v) (n / 4) dst src (by rwa [hn])
    rwa [hn] at hcopy
  · exact needs_copyBytes n dst src h

theorem runs_memset {p : ℕ} (c : UInt8) (n : ℕ)
    (h : ∀ i < n, (v.fldAt ((p + i) % 2 ^ 32)).Private) : Runs v (memset mmu p c n) := by
  apply runs_fillBytes
  intro i hi
  apply h
  have hle : add32 p n ≤ p + n := Nat.mod_le _ _
  omega

theorem Needs.of_ok {c : Prop} {s t : Machine} {a : α} (h : Needs v c m) (hs : s.vm = v)
    (hrun : m.run s = .ok a t) : t.vm = v ∧ t.trace = s.trace := by
  by_cases hc : c
  · obtain ⟨b, u, hok, hkept⟩ := h.1 hc s hs
    rw [hrun] at hok
    cases hok
    exact hkept
  · obtain ⟨va, u, herror, -⟩ := h.2 hc s hs
    rw [hrun] at herror
    cases herror

theorem Needs.of_error {c : Prop} {s t : Machine} {e : Stop} (h : Needs v c m) (hs : s.vm = v)
    (hrun : m.run s = .error e t) : t.trace = s.trace := by
  by_cases hc : c
  · obtain ⟨b, u, hok, -⟩ := h.1 hc s hs
    rw [hrun] at hok
    cases hok
  · obtain ⟨va, u, herror, htrace⟩ := h.2 hc s hs
    rw [hrun] at herror
    cases herror
    exact htrace

/-- What stops at most at a missing mapping records nothing. -/
theorem Steps.of_needs {H K : Moment → Prop} {A c : Vm → Prop} (hgrows : Growing m)
    (h : ∀ v, A v → Needs v (c v) m) : Steps H K (OnVm A) m fun _ => OnVm A := by
  apply Traced.intro
  · intro s a t hrun
    by_cases hA : A s.vm
    · obtain ⟨hvm, htrace⟩ := (h s.vm hA).of_ok rfl hrun
      exact ⟨[], by simpa using htrace, fun _ _ => ⟨by rwa [← hvm] at hA, by simp⟩⟩
    · obtain ⟨new, htrace, -⟩ := hgrows.of_ok hrun
      exact ⟨new, htrace, fun hs => absurd hs hA⟩
  · intro s e t hrun
    by_cases hA : A s.vm
    · have htrace := (h s.vm hA).of_error rfl hrun
      exact ⟨[], by simpa using htrace, fun _ _ => ⟨trivial, by simp⟩⟩
    · obtain ⟨new, htrace, -⟩ := hgrows.of_error hrun
      exact ⟨new, htrace, fun hs => absurd hs hA⟩

end Access


end SimplePiOS.Kernel
