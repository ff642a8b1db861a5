import SimplePiOS.Kernel.Exec
import SimplePiOS.Kernel.Frame
import SimplePiOS.Lib.Trace

/-! What the paging code does to the tables and to the ownership map, update by update. -/
namespace SimplePiOS.Kernel
open Lib Libpi

section Fields
variable (v : Vm) (sec page : ℕ) (a pt : Asid) (f : Fld) (fl : MapFlags)

@[simp] theorem setOwner_table : (v.setOwner sec a).table = v.table := rfl
@[simp] theorem setOwner_flags : (v.setOwner sec a).flags = v.flags := rfl
@[simp] theorem setOwner_asid : (v.setOwner sec a).asid = v.asid := rfl
@[simp] theorem setOwner_ttbr : (v.setOwner sec a).ttbr = v.ttbr := rfl
@[simp] theorem setOwner_kernelProc : (v.setOwner sec a).kernelProc = v.kernelProc := rfl
@[simp] theorem setOwner_currentProc : (v.setOwner sec a).currentProc = v.currentProc := rfl
@[simp] theorem setOwner_frame : (v.setOwner sec a).frame = v.frame := rfl
@[simp] theorem setFld_paddrToAsidMap :
    (v.setFld pt page f fl).paddrToAsidMap = v.paddrToAsidMap := rfl
@[simp] theorem setFld_asid : (v.setFld pt page f fl).asid = v.asid := rfl
@[simp] theorem setFld_ttbr : (v.setFld pt page f fl).ttbr = v.ttbr := rfl
@[simp] theorem setFld_kernelProc : (v.setFld pt page f fl).kernelProc = v.kernelProc := rfl
@[simp] theorem setFld_currentProc : (v.setFld pt page f fl).currentProc = v.currentProc := rfl
@[simp] theorem setFld_frame : (v.setFld pt page f fl).frame = v.frame := rfl

/-- A store through a global descriptor changes one entry of the ownership map, or none. -/
theorem poke_cases (v : Vm) (mapAddr pa : ℕ) (b : UInt8) :
    v.poke mapAddr pa b = v ∨ ∃ sec a, v.poke mapAddr pa b = v.setOwner sec a := by
  unfold Vm.poke
  split
  · exact .inr ⟨_, _, rfl⟩
  · exact .inl rfl

@[simp] theorem poke_table (mapAddr pa : ℕ) (b : UInt8) : (v.poke mapAddr pa b).table = v.table := by
  unfold Vm.poke
  split <;> rfl

@[simp] theorem poke_flags (mapAddr pa : ℕ) (b : UInt8) : (v.poke mapAddr pa b).flags = v.flags := by
  unfold Vm.poke
  split <;> rfl

@[simp] theorem poke_asid (mapAddr pa : ℕ) (b : UInt8) : (v.poke mapAddr pa b).asid = v.asid := by
  unfold Vm.poke
  split <;> rfl

@[simp] theorem poke_ttbr (mapAddr pa : ℕ) (b : UInt8) : (v.poke mapAddr pa b).ttbr = v.ttbr := by
  unfold Vm.poke
  split <;> rfl

@[simp] theorem poke_kernelProc (mapAddr pa : ℕ) (b : UInt8) :
    (v.poke mapAddr pa b).kernelProc = v.kernelProc := by
  unfold Vm.poke
  split <;> rfl

@[simp] theorem poke_currentProc (mapAddr pa : ℕ) (b : UInt8) :
    (v.poke mapAddr pa b).currentProc = v.currentProc := by
  unfold Vm.poke
  split <;> rfl

@[simp] theorem poke_frame (mapAddr pa : ℕ) (b : UInt8) : (v.poke mapAddr pa b).frame = v.frame := by
  unfold Vm.poke
  split <;> rfl

theorem setOwner_paddrToAsidMap (i : ℕ) :
    (v.setOwner sec a).paddrToAsidMap i = if i = sec then a else v.paddrToAsidMap i := by
  simp [Vm.setOwner, Function.update_apply]

theorem setFld_table (b : Asid) (i : ℕ) :
    (v.setFld pt page f fl).table b i = if b = pt ∧ i = page then f else v.table b i := by
  by_cases hb : b = pt
  · subst hb
    simp [Vm.setFld, Function.update_apply]
  · simp [Vm.setFld, hb]

theorem setFld_flags (b : Asid) (i : ℕ) :
    (v.setFld pt page f fl).flags b i = if b = pt ∧ i = page then fl else v.flags b i := by
  by_cases hb : b = pt
  · subst hb
    simp [Vm.setFld, Function.update_apply]
  · simp [Vm.setFld, hb]

theorem proc_child {v : Vm} {f : ExecFrame} (h : v.frame = some f) : v.proc .child = f.proc := by
  simp [Vm.proc, h]

end Fields

theorem isAligned_mib (n : ℕ) : isAligned (n * 2 ^ 20) 20 := by
  unfold isAligned
  apply Nat.eq_of_testBit_eq
  intro i
  have hsmall : 20 ≤ i → Nat.testBit (20 - 1) i = false := by
    intro hi
    apply Nat.testBit_lt_two_pow
    have hpow : 2 ^ 20 ≤ 2 ^ i := Nat.pow_le_pow_right (by omega) hi
    omega
  rw [Nat.testBit_and, Nat.testBit_mul_two_pow]
  by_cases hi : 20 ≤ i
  · simp [hsmall hi]
  · simp [hi]

/-- The allocator returns a section without an owner, or there is none. -/
theorem findAvailablePage_eq (v : Vm) :
    (findAvailablePage v = 0 ∧ ∀ sec, 1 ≤ sec → sec < nPhysPages → v.paddrToAsidMap sec ≠ 0) ∨
      ∃ sec, findAvailablePage v = sec * 2 ^ 20 ∧ 1 ≤ sec ∧ sec < nPhysPages ∧
        v.paddrToAsidMap sec = 0 := by
  unfold findAvailablePage
  cases hfind : (List.range' 1 (nPhysPages - 1)).find? fun i => v.paddrToAsidMap i = 0 with
  | none =>
    left
    refine ⟨rfl, ?_⟩
    intro sec hlo hhi
    have hnone := List.find?_eq_none.mp hfind sec
      (by rw [List.mem_range'_1]; constructor <;> omega)
    simpa using hnone
  | some sec =>
    right
    have hmem := List.mem_of_find?_eq_some hfind
    rw [List.mem_range'_1] at hmem
    have hfree := List.find?_some hfind
    exact ⟨sec, rfl, hmem.1, by omega, by simpa using hfree⟩

/-- The search starts behind the kernel's own section. -/
theorem findAvailablePage_first {v : Vm} (h : v.paddrToAsidMap 1 = 0) :
    findAvailablePage v = 1 * 2 ^ 20 := by
  have hfirst : List.range' 1 (nPhysPages - 1) = 1 :: List.range' 2 (nPhysPages - 2) := rfl
  unfold findAvailablePage
  rw [hfirst, List.find?_cons_of_pos (by simpa using h)]

theorem mem_pageRange {addr size page : ℕ} (h : page ∈ pageRange addr size) :
    sub32 addr 1 / 2 ^ 20 < page ∧ page ≤ sub32 (add32 addr size) 1 / 2 ^ 20 ∧
      page < nVirtPages := by
  unfold pageRange at h
  rw [List.mem_range'_1] at h
  have hlt : sub32 (add32 addr size) 1 < 2 ^ 32 := Nat.mod_lt _ (by omega)
  have hpages : nVirtPages = 4096 := rfl
  omega

/-- What `mmu_map_to_mem` writes for a section of RAM. -/
abbrev ramFlags (sync : Bool) : MapFlags := ⟨false, false, sync⟩
abbrev ramFld (sec : ℕ) (sync : Bool) : Fld := sectionFld (sec * 2 ^ 20) (ramFlags sync)

/-- What `exec_file` maps for the child's view of the load buffer. -/
abbrev sharedFlags : MapFlags := ⟨false, true, false⟩

/-- An entry of the trace. -/
abbrev Moment := Event × Vm

abbrev Steps {α : Type} (H K : Moment → Prop) (L : Machine → Prop) (m : Kern α)
    (L' : α → Machine → Prop) : Prop :=
  Traced Machine.trace H K L m L'

namespace Steps

variable {α : Type} {H K : Moment → Prop} {L L' : Machine → Prop}

theorem perform {e : Event} {f : Vm → Vm}
    (h : ∀ s, L s → H (e, f s.vm) → L' (s.step e f) ∧ K (e, f s.vm)) :
    Steps H K L (perform e f) fun _ => L' :=
  Traced.step (f := fun s => s.step e f) (e := fun s => (e, f s.vm)) (fun _ => rfl)
    (fun _ => rfl) h

theorem getVm : Steps H K L getVm fun v s => L s ∧ s.vm = v := by
  apply Traced.quiet
  · intro s hs
    exact ⟨hs, rfl⟩
  · intro p s hs
    exact hs

theorem assert (p : Prop) [Decidable p] (msg : String) :
    Steps H K L (assert p msg) fun _ s => L s ∧ p := by
  unfold Libpi.assert
  apply Traced.ite
  · intro hp
    exact .pure fun s hs => ⟨hs, hp⟩
  · intro _
    exact .throw

section MapSection
variable {pt : Asid} {va pa page : ℕ} {flags : MapFlags} {sync : Bool}
  {L₁ L₂ L₃ : Machine → Prop}

/-- The three updates of a mapping: a section of RAM that is neither global nor shared gets
its owner, the descriptor is written, and the TLB is synced if the caller asks for it. -/
theorem mmuMapSection (L₁ L₂ L₃ : Machine → Prop)
    (hown : ∀ s, ¬ (flags.global ∨ flags.shared) → pa / 2 ^ 20 < nPhysPages →
      s.vm.paddrToAsidMap (pa / 2 ^ 20) = 0 → L s →
      H (.update, s.vm.setOwner (pa / 2 ^ 20) pt) →
      L₁ (s.step .update (·.setOwner (pa / 2 ^ 20) pt)) ∧
        K (.update, s.vm.setOwner (pa / 2 ^ 20) pt))
    (hskip : ∀ s, (flags.global ∨ flags.shared) ∨ nPhysPages ≤ pa / 2 ^ 20 → L s → L₁ s)
    (hfld : ∀ s, L₁ s → H (.update, s.vm.setFld pt (va / 2 ^ 20) (sectionFld pa flags) flags) →
      L₂ (s.step .update (·.setFld pt (va / 2 ^ 20) (sectionFld pa flags) flags)) ∧
        K (.update, s.vm.setFld pt (va / 2 ^ 20) (sectionFld pa flags) flags))
    (hsync : ∀ s, flags.sync → L₂ s → H (.sync (va / 2 ^ 20) pt, s.vm) →
      L₃ (s.step (.sync (va / 2 ^ 20) pt) id) ∧ K (.sync (va / 2 ^ 20) pt, s.vm))
    (hnosync : ∀ s, ¬ flags.sync → L₂ s → L₃ s)
    (hret : ∀ s, L₃ s → H (.ret .mmuMapSection, s.vm) →
      L' (s.step (.ret .mmuMapSection) id) ∧ K (.ret .mmuMapSection, s.vm)) :
    Steps H K L (mmuMapSection pt va pa flags) fun _ => L' := by
  have htail : Steps H K L₁ (do
      Kernel.perform .update (·.setFld pt (va / 2 ^ 20) (sectionFld pa flags) flags)
      if flags.sync then mmuSync (va / 2 ^ 20) pt
      Kernel.perform (.ret .mmuMapSection) id) fun _ => L' := by
    apply Traced.bind (perform hfld)
    intro _
    apply Traced.ite
    · intro h
      exact .bind (perform fun s => hsync s h) fun _ => perform hret
    · intro h
      exact (perform hret).pre fun s => hnosync s h
  unfold Kernel.mmuMapSection
  apply Traced.bind (assert _ _)
  intro _
  apply Traced.bind (assert _ _)
  intro _
  apply Traced.ite
  · rintro ⟨hflags, hram⟩
    apply Traced.bind getVm
    intro v
    apply Traced.bind (assert _ _)
    intro _
    refine .bind (perform ?_) fun _ => htail
    rintro s ⟨⟨⟨⟨hL, -⟩, -⟩, hv⟩, hfree⟩ hH
    subst hv
    exact hown s hflags hram hfree hL hH
  · intro hno
    refine htail.pre ?_
    rintro s ⟨⟨hL, -⟩, -⟩
    refine hskip s ?_ hL
    by_cases hflags : flags.global ∨ flags.shared
    · exact .inl hflags
    · exact .inr (Nat.not_lt.mp fun hram => hno ⟨hflags, hram⟩)

/-- One page of `mmu_map_to_mem`: some section without an owner is mapped there. -/
theorem mapPage (L₁ L₂ L₃ : ℕ → Machine → Prop)
    (hown : ∀ s sec, 1 ≤ sec → sec < nPhysPages → s.vm.paddrToAsidMap sec = 0 → L s →
      H (.update, s.vm.setOwner sec pt) →
      L₁ sec (s.step .update (·.setOwner sec pt)) ∧ K (.update, s.vm.setOwner sec pt))
    (hfld : ∀ s sec, 1 ≤ sec → sec < nPhysPages → L₁ sec s →
      H (.update, s.vm.setFld pt page (ramFld sec sync) (ramFlags sync)) →
      L₂ sec (s.step .update (·.setFld pt page (ramFld sec sync) (ramFlags sync))) ∧
        K (.update, s.vm.setFld pt page (ramFld sec sync) (ramFlags sync)))
    (hsync : ∀ s sec, sync → L₂ sec s → H (.sync page pt, s.vm) →
      L₃ sec (s.step (.sync page pt) id) ∧ K (.sync page pt, s.vm))
    (hnosync : ∀ s sec, ¬ sync → L₂ sec s → L₃ sec s)
    (hret : ∀ s sec, L₃ sec s → H (.ret .mmuMapSection, s.vm) →
      L' (s.step (.ret .mmuMapSection) id) ∧ K (.ret .mmuMapSection, s.vm)) :
    Steps H K L (mapPage pt sync page) fun _ => L' := by
  unfold Kernel.mapPage
  apply Traced.bind getVm
  intro v
  rcases findAvailablePage_eq v with ⟨hnone, -⟩ | ⟨sec, hsec, hlo, hhi, hfree⟩
  · simp only [hnone, if_true]
    exact .throw
  · have hne : ¬ sec * 2 ^ 20 = 0 := by omega
    have hdiv : ∀ n, n * 2 ^ 20 / 2 ^ 20 = n := fun n => Nat.mul_div_cancel n (by omega)
    simp only [hsec, hne, if_false]
    apply mmuMapSection (L₁ sec) (L₂ sec) (L₃ sec)
    · simp only [hdiv]
      rintro s - - hs ⟨hL, -⟩ hH
      exact hown s sec hlo hhi hs hL hH
    · simp only [hdiv]
      rintro s (h | h)
      · simp at h
      · exact absurd hhi (Nat.not_lt.mpr h)
    · simp only [hdiv]
      exact fun s => hfld s sec hlo hhi
    · simp only [hdiv]
      exact fun s => hsync s sec
    · exact fun s => hnosync s sec
    · exact fun s => hret s sec

end MapSection
end Steps

/-- An assertion about the tables and registers alone. -/
abbrev OnVm (A : Vm → Prop) : Machine → Prop := fun s => A s.vm

/-- An invariant of the recorded states, whatever led to them. -/
abbrev InVm (A : Vm → Prop) : Moment → Prop := fun x => A x.2

/-- No store goes through a global descriptor. -/
def Tame (x : Moment) : Prop := x.1 ≠ .wild

/-- An assumption on the moments that leaves no room for such a store. -/
class Calm (H : Moment → Prop) : Prop where
  tame : ∀ x, H x → Tame x

instance : Calm Tame := ⟨fun _ hx => hx⟩
instance {H : Moment → Prop} : Calm fun x => Tame x ∧ H x := ⟨fun _ hx => hx.1⟩

/-- An assertion that memory has no part in; a store through a global descriptor keeps it, if `H`
has room for one. -/
structure MemStable (H K : Moment → Prop) (L : Machine → Prop) : Prop where
  mem : ∀ s mem, L s → L { s with mem := mem }
  wild : ∀ s pa b, L s → H (.wild, s.vm.poke s.mapAddr pa b) →
    L (s.step .wild (·.poke s.mapAddr pa b)) ∧ K (.wild, s.vm.poke s.mapAddr pa b)

/-- The statics of the allocator have no part in it either. -/
structure Stable (H K : Moment → Prop) (L : Machine → Prop) : Prop extends MemStable H K L where
  heap : ∀ s heap, L s → L { s with heap := heap }

section Stable
variable {H K : Moment → Prop}

theorem stable_onVm [Calm H] (A : Vm → Prop) : Stable H K (OnVm A) where
  mem _ _ hs := hs
  wild _ _ _ _ hH := absurd rfl (Calm.tame _ hH)
  heap _ _ hs := hs

/-- No store writes the table base. -/
theorem Stable.and_ttbr {A : Vm → Prop} {a : Asid} (hA : Stable H K (OnVm A)) :
    Stable H K (OnVm fun v => A v ∧ v.ttbr = a) where
  mem _ _ hs := hs
  wild := by
    intro s pa b hs hH
    have hpoke := hA.wild s pa b hs.1 hH
    exact ⟨⟨hpoke.1, (poke_ttbr ..).trans hs.2⟩, hpoke.2⟩
  heap _ _ hs := hs

/-- What does not depend on the ownership map needs no assumption. -/
theorem stable_setOwner {A Kv : Vm → Prop} (hA : ∀ v sec a, A v → A (v.setOwner sec a))
    (hK : ∀ v, A v → Kv v) : Stable H (InVm Kv) (OnVm A) where
  mem _ _ hs := hs
  wild := by
    intro s pa b hs _
    have hpoke : A (s.vm.poke s.mapAddr pa b) := by
      rcases poke_cases s.vm s.mapAddr pa b with h | ⟨sec, a, h⟩
      · rw [h]
        exact hs
      · rw [h]
        exact hA _ sec a hs
    exact ⟨hpoke, hK _ hpoke⟩
  heap _ _ hs := hs

end Stable

/-- Only memory changes, but for stores through global descriptors. -/
def Still {α : Type} (m : Kern α) : Prop :=
  ∀ {H K : Moment → Prop} {L : Machine → Prop}, MemStable H K L → Steps H K L m fun _ => L

/-- Memory as far as the running process can read it. -/
abbrev View := ℕ → Option UInt8

def Machine.view (s : Machine) : View := fun a =>
  ((s.vm.fldAt (a % 2 ^ 32)).translate (a % 2 ^ 32)).map s.mem

theorem run_loadByte (a : ℕ) (s : Machine) : (loadByte a).run s =
    match s.view a with
    | some b => .ok b s
    | none => .error (.dataAbort (a % 2 ^ 32)) s := by
  unfold loadByte Machine.view EStateM.run
  dsimp only
  cases (s.vm.fldAt (a % 2 ^ 32)).translate (a % 2 ^ 32) <;> rfl

/-- A store changes one byte of memory, or stops; through a global descriptor it is recorded. -/
theorem run_storeByte (a : ℕ) (b : UInt8) (s : Machine) :
    (∃ pa, (s.vm.fldAt (a % 2 ^ 32)).Private ∧
      (storeByte a b).run s = .ok () { s with mem := Function.update s.mem pa b }) ∨
    (∃ pa, (s.vm.fldAt (a % 2 ^ 32)).Valid ∧ (storeByte a b).run s = .ok ()
      (({ s with mem := Function.update s.mem pa b } : Machine).step .wild (·.poke s.mapAddr pa b))) ∨
    ∃ e, (storeByte a b).run s = .error e s := by
  have hbit : ∀ x : BitVec 1, x ≠ 0 → x = 1 := by decide
  unfold storeByte EStateM.run
  dsimp only
  cases htr : (s.vm.fldAt (a % 2 ^ 32)).translate (a % 2 ^ 32) with
  | none => exact .inr (.inr ⟨_, rfl⟩)
  | some pa =>
    dsimp only
    have hvalid : (s.vm.fldAt (a % 2 ^ 32)).Valid := by
      by_contra hvalid
      unfold Fld.translate at htr
      rw [if_neg hvalid] at htr
      cases htr
    by_cases hnG : (s.vm.fldAt (a % 2 ^ 32)).nG = 0
    · exact .inr (.inl ⟨pa, hvalid, by rw [if_pos hnG]⟩)
    · exact .inl ⟨pa, ⟨hvalid, hbit _ hnG⟩, by rw [if_neg hnG]⟩

theorem load_ok {s t : Machine} {a : ℕ} {b : UInt8} (hrun : (mmu.load a).run s = .ok b t) :
    t = s := by
  have hload : (mmu.load a).run s = _ := run_loadByte a s
  rw [hload] at hrun
  cases hview : s.view a with
  | none =>
    rw [hview] at hrun
    cases hrun
  | some c =>
    rw [hview] at hrun
    exact (EStateM.Result.ok.inj hrun).2.symm

/-- The table in force and what it says. -/
def Vm.SameTables (v w : Vm) : Prop := w.table = v.table ∧ w.ttbr = v.ttbr

theorem Vm.SameTables.fldAt {v w : Vm} (h : v.SameTables w) (va : ℕ) : w.fldAt va = v.fldAt va := by
  unfold Vm.fldAt
  rw [h.1, h.2]

theorem Vm.SameTables.trans {u v w : Vm} (h : u.SameTables v) (h' : v.SameTables w) : u.SameTables w :=
  ⟨h'.1.trans h.1, h'.2.trans h.2⟩

theorem storeByte_global {s : Machine} {a pa : ℕ} (b : UInt8)
    (htranslate : (s.vm.fldAt (a % 2 ^ 32)).translate (a % 2 ^ 32) = some pa)
    (hnG : (s.vm.fldAt (a % 2 ^ 32)).nG = 0) : (storeByte a b).run s = .ok ()
      (({ s with mem := Function.update s.mem pa b } : Machine).step .wild (·.poke s.mapAddr pa b)) := by
  unfold storeByte EStateM.run
  dsimp only
  rw [htranslate]
  exact if_pos hnG

theorem store_valid {s t : Machine} {a : ℕ} {b : UInt8} {u : Unit}
    (hrun : (mmu.store a b).run s = .ok u t) :
    s.vm.SameTables t.vm ∧ (s.vm.fldAt (a % 2 ^ 32)).Valid := by
  rcases run_storeByte a b s with ⟨pa, hpriv, hstore⟩ | ⟨pa, hvalid, hstore⟩ | ⟨e, hstore⟩
  · have hrun' : (mmu.store a b).run s = _ := hstore
    rw [hrun'] at hrun
    cases hrun
    exact ⟨⟨rfl, rfl⟩, hpriv.1⟩
  · have hrun' : (mmu.store a b).run s = _ := hstore
    rw [hrun'] at hrun
    cases hrun
    exact ⟨⟨poke_table .., poke_ttbr ..⟩, hvalid⟩
  · have hrun' : (mmu.store a b).run s = _ := hstore
    rw [hrun'] at hrun
    cases hrun

/-- The bus keeps whatever neither memory nor the ownership map has a part in. -/
theorem busKeeps_of_mem {I E : Machine → Prop} (hI : ∀ s mem, I s → I { s with mem := mem })
    (hwild : ∀ s pa b, I s → I (s.step .wild (·.poke s.mapAddr pa b))) (hE : ∀ s, I s → E s) :
    BusKeeps mmu I E := by
  constructor
  · intro a s hs
    have hload : (mmu.load a).run s = _ := run_loadByte a s
    rw [hload]
    cases s.view a with
    | none => exact hE s hs
    | some b => exact hs
  · intro a b s hs
    rcases run_storeByte a b s with ⟨pa, -, hstore⟩ | ⟨pa, -, hstore⟩ | ⟨e, hstore⟩
    · have hrun : (mmu.store a b).run s = _ := hstore
      rw [hrun]
      exact hI s _ hs
    · have hrun : (mmu.store a b).run s = _ := hstore
      rw [hrun]
      exact hwild _ pa b (hI s _ hs)
    · have hrun : (mmu.store a b).run s = _ := hstore
      rw [hrun]
      exact hE s hs
  · exact hE

namespace Steps
variable {α : Type} {H K : Moment → Prop} {L : Machine → Prop} {A A' Hv Kv : Vm → Prop}

theorem load (a : ℕ) : Steps H K L (mmu.load a) fun _ => L := by
  apply Traced.intro
  · intro s b t hrun
    rw [load_ok hrun]
    exact .refl id
  · intro s e t hrun
    have hload : (mmu.load a).run s = _ := run_loadByte a s
    rw [hload] at hrun
    cases hview : s.view a with
    | none =>
      rw [hview] at hrun
      cases hrun
      exact .refl fun _ => trivial
    | some c =>
      rw [hview] at hrun
      cases hrun

theorem store (hL : MemStable H K L) (a : ℕ) (b : UInt8) : Steps H K L (mmu.store a b) fun _ => L := by
  apply Traced.intro
  · intro s u t hrun
    rcases run_storeByte a b s with ⟨pa, -, hstore⟩ | ⟨pa, -, hstore⟩ | ⟨e, hstore⟩
    · have hrun' : (mmu.store a b).run s = _ := hstore
      rw [hrun'] at hrun
      cases hrun
      exact ⟨[], rfl, fun hs _ => ⟨hL.mem _ _ hs, by simp⟩⟩
    · have hrun' : (mmu.store a b).run s = _ := hstore
      rw [hrun'] at hrun
      cases hrun
      refine ⟨[(.wild, s.vm.poke s.mapAddr pa b)], rfl, ?_⟩
      intro hs hH
      have hmem : L { s with mem := Function.update s.mem pa b } := hL.mem _ _ hs
      have hwild := hL.wild _ pa b hmem (hH _ List.mem_cons_self)
      exact ⟨hwild.1, by simpa using hwild.2⟩
    · have hrun' : (mmu.store a b).run s = _ := hstore
      rw [hrun'] at hrun
      cases hrun
  · intro s e t hrun
    rcases run_storeByte a b s with ⟨pa, -, hstore⟩ | ⟨pa, -, hstore⟩ | ⟨e', hstore⟩
    · have hrun' : (mmu.store a b).run s = _ := hstore
      rw [hrun'] at hrun
      cases hrun
    · have hrun' : (mmu.store a b).run s = _ := hstore
      rw [hrun'] at hrun
      cases hrun
    · have hrun' : (mmu.store a b).run s = _ := hstore
      rw [hrun'] at hrun
      cases hrun
      exact .refl fun _ => trivial

/-- A store that goes through no global descriptor goes to a page of its own. -/
theorem store_private [Calm H] (hL : MemStable H K L) (a : ℕ) (b : UInt8) :
    Steps H K L (mmu.store a b) fun _ s => L s ∧ (s.vm.fldAt (a % 2 ^ 32)).Private := by
  have hsteps := store hL a b
  apply Traced.intro
  · intro s u t hrun
    rcases run_storeByte a b s with ⟨pa, hpriv, hstore⟩ | ⟨pa, -, hstore⟩ | ⟨e, hstore⟩
    · have hrun' : (mmu.store a b).run s = _ := hstore
      have hof := hsteps.of_ok hrun
      rw [hrun'] at hrun
      cases hrun
      exact hof.mono id (fun hs => ⟨hs, hpriv⟩) (fun _ => id) fun _ => id
    · have hrun' : (mmu.store a b).run s = _ := hstore
      rw [hrun'] at hrun
      cases hrun
      refine ⟨[(.wild, s.vm.poke s.mapAddr pa b)], rfl, ?_⟩
      intro _ hH
      exact absurd rfl (Calm.tame _ (hH _ List.mem_cons_self))
    · have hrun' : (mmu.store a b).run s = _ := hstore
      rw [hrun'] at hrun
      cases hrun
  · intro s e t hrun
    exact hsteps.of_error hrun

theorem of_still {m : Kern α} (hL : Stable H K L) (h : Still m) : Steps H K L m fun _ => L :=
  h hL.toMemStable

theorem busKeeps_along (hL : MemStable H K L) (s : Machine) : BusKeeps mmu
    (Along Machine.trace H K L L s) (Along Machine.trace H K L (fun _ => True) s) := by
  constructor
  · exact fun a => (load a).extends_from s
  · exact fun a b => (store hL a b).extends_from s
  · exact fun t ht => ht.mono id (fun _ => trivial) (fun _ => id) fun _ => id

section Copied
variable [Calm H] {dst src n : ℕ}

/-- What is known of the tables is not changed by a tame store. -/
theorem memStable_and (hL : MemStable H K L) (A : Vm → Prop) :
    MemStable H K fun s => L s ∧ A s.vm where
  mem s mem hs := ⟨hL.mem s mem hs.1, hs.2⟩
  wild _ _ _ _ hH := absurd rfl (Calm.tame _ hH)

theorem copyBytes (hL : MemStable H K L) : Steps H K L (copyBytes mmu dst src n) fun _ s =>
    L s ∧ ∀ i < n, (s.vm.fldAt ((dst + i) % 2 ^ 32)).Private := by
  induction n generalizing dst src L with
  | zero => exact .pure fun s hs => ⟨hs, fun i hi => absurd hi (Nat.not_lt_zero i)⟩
  | succ n ih =>
    apply Traced.bind (load src)
    intro b
    apply Traced.bind (store_private hL dst b)
    intro _
    apply (ih (memStable_and hL fun v => (v.fldAt (dst % 2 ^ 32)).Private)).post
    rintro _ s ⟨⟨hs, hfirst⟩, hothers⟩
    refine ⟨hs, ?_⟩
    intro i hi
    cases i with
    | zero => exact hfirst
    | succ i =>
      rw [Nat.add_comm i 1, ← Nat.add_assoc]
      exact hothers i (by omega)

/-- A word is copied byte by byte, after all its bytes have been read. -/
theorem copyWords (hL : MemStable H K L) : Steps H K L (copyWords mmu dst src n) fun _ s =>
    L s ∧ ∀ i < 4 * n, (s.vm.fldAt ((dst + i) % 2 ^ 32)).Private := by
  induction n generalizing dst src L with
  | zero => exact .pure fun s hs => ⟨hs, fun i hi => absurd hi (Nat.not_lt_zero i)⟩
  | succ n ih =>
    have h₁ := memStable_and hL fun v => (v.fldAt (dst % 2 ^ 32)).Private
    have h₂ := memStable_and h₁ fun v => (v.fldAt ((dst + 1) % 2 ^ 32)).Private
    have h₃ := memStable_and h₂ fun v => (v.fldAt ((dst + 2) % 2 ^ 32)).Private
    have h₄ := memStable_and h₃ fun v => (v.fldAt ((dst + 3) % 2 ^ 32)).Private
    apply Traced.bind (load src)
    intro b0
    apply Traced.bind (load (src + 1))
    intro b1
    apply Traced.bind (load (src + 2))
    intro b2
    apply Traced.bind (load (src + 3))
    intro b3
    apply Traced.bind (store_private hL dst b0)
    intro _
    apply Traced.bind (store_private h₁ (dst + 1) b1)
    intro _
    apply Traced.bind (store_private h₂ (dst + 2) b2)
    intro _
    apply Traced.bind (store_private h₃ (dst + 3) b3)
    intro _
    apply (ih h₄).post
    rintro _ s ⟨⟨⟨⟨⟨hs, hp0⟩, hp1⟩, hp2⟩, hp3⟩, hothers⟩
    refine ⟨hs, ?_⟩
    intro i hi
    match i with
    | 0 => exact hp0
    | 1 => exact hp1
    | 2 => exact hp2
    | 3 => exact hp3
    | i + 4 =>
      rw [Nat.add_comm i 4, ← Nat.add_assoc]
      exact hothers i (by omega)

/-- Whatever is copied to is a page of its own. -/
theorem memcpy (hL : MemStable H K L) : Steps H K L (memcpy mmu dst src n) fun _ s =>
    L s ∧ ∀ i < n, (s.vm.fldAt ((dst + i) % 2 ^ 32)).Private := by
  unfold Libpi.memcpy
  apply Traced.ite
  · intro hwords
    have hn : 4 * (n / 4) = n := by omega
    have hcopied : Steps H K L (Libpi.copyWords mmu dst src (n / 4)) fun _ s =>
      L s ∧ ∀ i < 4 * (n / 4), (s.vm.fldAt ((dst + i) % 2 ^ 32)).Private := copyWords hL
    rwa [hn] at hcopied
  · intro _
    exact copyBytes hL

end Copied

theorem mapPage_vm {pt : Asid} {page : ℕ} {sync : Bool} (Hv : Vm → Prop) (A₁ : ℕ → Vm → Prop)
    (hown : ∀ v sec, 1 ≤ sec → sec < nPhysPages → v.paddrToAsidMap sec = 0 → A v →
      Hv (v.setOwner sec pt) → A₁ sec (v.setOwner sec pt) ∧ Kv (v.setOwner sec pt))
    (hfld : ∀ v sec, 1 ≤ sec → sec < nPhysPages → A₁ sec v →
      Hv (v.setFld pt page (ramFld sec sync) (ramFlags sync)) →
      A' (v.setFld pt page (ramFld sec sync) (ramFlags sync)))
    (hK : ∀ v, A' v → Kv v) :
    Steps (InVm Hv) (InVm Kv) (OnVm A) (Kernel.mapPage pt sync page) fun _ => OnVm A' := by
  apply mapPage (fun sec => OnVm (A₁ sec)) (fun _ => OnVm A') (fun _ => OnVm A')
  · intro s sec hlo hhi hfree hA hH
    exact hown s.vm sec hlo hhi hfree hA hH
  · intro s sec hlo hhi hA hH
    have hA' := hfld s.vm sec hlo hhi hA hH
    exact ⟨hA', hK _ hA'⟩
  · intro s _ _ hA _
    exact ⟨hA, hK _ hA⟩
  · intro s _ _ hA
    exact hA
  · intro s _ hA _
    exact ⟨hA, hK _ hA⟩

end Steps

/-- Code that only loads and stores. -/
theorem still_of_bus {α : Type} {m : Kern α} (h : ∀ I E, BusKeeps mmu I E → Keeps I E m) : Still m :=
  fun hL => .of_extends fun s => h _ _ (Steps.busKeeps_along hL s)

theorem still_memset (p : ℕ) (c : UInt8) (n : ℕ) : Still (memset mmu p c n) :=
  still_of_bus fun _ _ h => h.memset p c n

theorem still_memcpy (dst src n : ℕ) : Still (memcpy mmu dst src n) :=
  still_of_bus fun _ _ h => h.memcpy dst src n

section Run
variable {α : Type} {m : Kern α} {a : α} {s t : Machine}

/-- Whatever is stored, the tables stay. -/
theorem tables_of_still (h : Still m) (hrun : m.run s = .ok a t) : s.vm.SameTables t.vm := by
  have hsteps : Steps (fun _ => True) (fun _ => True) (OnVm s.vm.SameTables) m fun _ =>
      OnVm s.vm.SameTables :=
    h (stable_setOwner (fun _ _ _ hv => hv) fun _ _ => trivial).toMemStable
  exact ((hsteps.of_ok hrun).elim ⟨rfl, rfl⟩ fun _ _ => trivial).1

/-- A run without a store through a global descriptor leaves tables and registers alone. -/
theorem vm_of_still (h : Still m) (hrun : m.run s = .ok a t)
    (htame : ∀ x ∈ since Machine.trace s t, Tame x) : t.vm = s.vm :=
  (((h (H := Tame) (K := fun _ => True) (stable_onVm (· = s.vm)).toMemStable).of_ok hrun).elim rfl htame).1

theorem memcpy_private {dst src n : ℕ} {u : Unit} (hrun : (memcpy mmu dst src n).run s = .ok u t)
    (htame : ∀ x ∈ since Machine.trace s t, Tame x) :
    t.vm = s.vm ∧ ∀ i < n, (s.vm.fldAt ((dst + i) % 2 ^ 32)).Private := by
  have hsteps : Steps Tame (fun _ => True) (OnVm (· = s.vm)) (memcpy mmu dst src n) fun _ t =>
    t.vm = s.vm ∧ ∀ i < n, (t.vm.fldAt ((dst + i) % 2 ^ 32)).Private :=
    Steps.memcpy (stable_onVm _).toMemStable
  obtain ⟨⟨hvm, hpriv⟩, -⟩ := (hsteps.of_ok hrun).elim rfl htame
  rw [hvm] at hpriv
  exact ⟨hvm, hpriv⟩

end Run

section Storeless

/-- No store of this code goes through a global descriptor, whatever the tables say. -/
abbrev Storeless {α : Type} (m : Kern α) : Prop :=
  Steps (fun _ => True) Tame (fun _ => True) m fun _ _ => True

theorem storeless_perform {e : Event} (he : e ≠ .wild) (f : Vm → Vm) : Storeless (perform e f) :=
  Steps.perform fun _ _ _ => ⟨trivial, he⟩

theorem storeless_assert (p : Prop) [Decidable p] (msg : String) : Storeless (assert p msg) :=
  (Steps.assert p msg).post fun _ _ _ => trivial

theorem storeless_mmuMapSection (pt : Asid) (va pa : ℕ) (flags : MapFlags) :
    Storeless (mmuMapSection pt va pa flags) := by
  apply Steps.mmuMapSection (fun _ => True) (fun _ => True) (fun _ => True)
  all_goals simp [Tame]

theorem storeless_mapPage (pt : Asid) (sync : Bool) (page : ℕ) : Storeless (mapPage pt sync page) := by
  apply Steps.mapPage (fun _ _ => True) (fun _ _ => True) (fun _ _ => True)
  all_goals simp [Tame]

theorem storeless_mmuMapToMem (pt : Asid) (addr size : ℕ) (sync : Bool) :
    Storeless (mmuMapToMem pt addr size sync) :=
  .forM_keeps fun page _ => storeless_mapPage pt sync page

theorem storeless_setProcidTtbr0 (procid pt : Asid) : Storeless (setProcidTtbr0 procid pt) := by
  apply Traced.bind (storeless_perform (by simp) _)
  intro _
  apply Traced.bind (storeless_perform (by simp) _)
  intro _
  exact storeless_perform (by simp) _

/-- From `s` to `t` no store goes through a global descriptor. -/
def TameTo (s t : Machine) : Prop :=
  Along Machine.trace (fun _ => True) Tame (fun _ => True) (fun _ => True) s t

namespace TameTo
variable {s t u : Machine}

theorem of_trace (h : t.trace = s.trace) : TameTo s t :=
  ⟨[], by simpa using h, fun _ _ => ⟨trivial, by simp⟩⟩

theorem trans (h : TameTo s t) (h' : TameTo t u) : TameTo s u := Along.trans h h'

theorem tame (h : TameTo s t) : ∀ x ∈ since Machine.trace s t, Tame x :=
  (Along.elim h trivial fun _ _ => trivial).2

/-- What was recorded before `s` counts as well. -/
theorem all (h : TameTo s t) (hs : ∀ x ∈ s.trace, Tame x) : ∀ x ∈ t.trace, Tame x := by
  obtain ⟨new, htrace, hnew⟩ := h
  intro x hx
  rw [htrace] at hx
  rcases List.mem_append.mp hx with hx | hx
  · exact (hnew trivial fun _ _ => trivial).2 x hx
  · exact hs x hx

end TameTo

theorem Storeless.tameTo {α : Type} {m : Kern α} {a : α} {s t : Machine} (h : Storeless m)
    (hrun : m.run s = .ok a t) : TameTo s t :=
  h.of_ok hrun

/-- However such a run ends. -/
theorem Storeless.tameTo_end {α : Type} {m : Kern α} (h : Storeless m) (s : Machine) :
    TameTo s (endState (m.run s)) :=
  h.at_end s

end Storeless

section Grows

abbrev Growing {α : Type} (m : Kern α) : Prop := Grows Machine.trace m

theorem growing_perform (e : Event) (f : Vm → Vm) : Growing (perform e f) :=
  Steps.perform fun _ _ _ => ⟨trivial, trivial⟩

theorem growing_still {α : Type} {m : Kern α} (h : Still m) : Growing m :=
  (h (H := Tame) (K := fun _ => True) (stable_onVm fun _ => True).toMemStable).grows

theorem growing_bind {α β : Type} {m : Kern α} {f : α → Kern β} (hm : Growing m)
    (hf : ∀ a, Growing (f a)) : Growing (m >>= f) :=
  .bind hm hf

theorem growing_getVm : Growing getVm := Steps.getVm.post fun _ _ _ => trivial

theorem growing_mmuMapToMem (pt : Asid) (addr size : ℕ) (sync : Bool) :
    Growing (mmuMapToMem pt addr size sync) :=
  (storeless_mmuMapToMem pt addr size sync).grows

theorem growing_setProcidTtbr0 (procid pt : Asid) : Growing (setProcidTtbr0 procid pt) :=
  (storeless_setProcidTtbr0 procid pt).grows

end Grows

namespace Steps
variable {α : Type} {H K : Moment → Prop} {L L' : Machine → Prop}

/-- What is known of the state a computation looks at may be used outside. -/
theorem getVm_bind {A : Vm → Prop} {f : Vm → Kern α} {Q : α → Machine → Prop}
    (hgrows : ∀ v, Growing (f v)) (hA : ∀ s, L s → A s.vm)
    (h : ∀ v, A v → Steps H K (fun s => L s ∧ s.vm = v) (f v) Q) :
    Steps H K L (Kernel.getVm >>= f) Q := by
  apply Traced.bind getVm
  intro v
  refine (Traced.assume (P := A v) (hgrows v) (h v)).pre ?_
  rintro s ⟨hL, hv⟩
  exact ⟨⟨hL, hv⟩, hv ▸ hA s hL⟩

end Steps
end SimplePiOS.Kernel
