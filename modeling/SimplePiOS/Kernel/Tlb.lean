import SimplePiOS.Kernel.Descriptor
import SimplePiOS.Kernel.WellFormed
import SimplePiOS.Lib.Cache

/-! The TLB beside the two tables, as a cache that may load any private descriptor of the active
table under the active ASID at every moment of a run. -/
namespace SimplePiOS.Kernel
open Lib Libpi

/-- What the table walk finds for a page of an address space. -/
def Walks (x : Moment) (k : Asid × ℕ) (f : Fld) : Prop :=
  k.1 = x.2.asid ∧ k.2 < nVirtPages ∧ f = x.2.table x.2.ttbr k.2 ∧ f.Private

/-- The entries that an event takes out of the TLB. -/
def Event.Drops : Event → Asid × ℕ → Prop
  | .update, _ => False
  | .wild, _ => False
  | .sync page asid, k => k = (asid, page)
  | .invAsid asid, k => k.1 = asid
  | .invTlb, _ => True
  | .ret _, _ => False

/-- `(asid, page)` may be cached as `f` after what was recorded. -/
abbrev InTlb (tr : List Moment) (k : Asid × ℕ) (f : Fld) : Prop :=
  Cached Walks (fun x => x.1.Drops) tr k f

/-- Entries of the kernel and of the child are those of their tables. -/
def TlbCoherent (tr : List Moment) (v : Vm) : Prop :=
  ∀ asid page f, asid = kernelAsid ∨ asid = childAsid → InTlb tr (asid, page) f →
    f = v.table asid page

/-- The registers are those of one address space. -/
structure Vm.Runs (v : Vm) (a : Asid) : Prop where
  asid : v.asid = a
  ttbr : v.ttbr = a

/-- The address space of whoever goes on when a function has returned. -/
def Vm.resumed (v : Vm) : Fn → Asid
  | .kernelSbrk => (v.proc v.currentProc).asid
  | .mmuMapSection => v.kernelProc.asid
  | .elfLoad => v.kernelProc.asid
  | .execFile => v.kernelProc.asid

/-- Each return recorded after `base`, with no store through a global descriptor before it, left a
coherent TLB and the right address space. -/
def ReturnsSound (base tr : List Moment) : Prop :=
  ∀ new fn v, ((.ret fn, v) :: (new ++ base)) <:+ tr → (∀ x ∈ new, Tame x) →
    TlbCoherent ((.ret fn, v) :: (new ++ base)) v ∧ v.Runs (v.resumed fn)

/-- The address spaces the kernel uses, and the child's alone. -/
def usedKeys : Set (Asid × ℕ) := {k | k.1 = kernelAsid ∨ k.1 = childAsid}
def childKeys : Set (Asid × ℕ) := {k | k.1 = childAsid}

def Vm.entry (v : Vm) (k : Asid × ℕ) : Fld := v.table k.1 k.2

abbrev CoherentOn (keys : Set (Asid × ℕ)) (tr : List Moment) (v : Vm) : Prop :=
  Coherent Walks (fun x => x.1.Drops) keys v.entry tr

/-- Nothing of the child's can be cached. -/
abbrev Unwalked (tr : List Moment) : Prop := Uncached Walks (fun x => x.1.Drops) childKeys tr

theorem tlbCoherent_iff {tr : List Moment} {v : Vm} : TlbCoherent tr v ↔ CoherentOn usedKeys tr v := by
  constructor
  · exact fun h k hk f hf => h k.1 k.2 f hk hf
  · exact fun h asid page f hk hf => h (asid, page) hk f hf

theorem zero_notMem_usedKeys {k : Asid × ℕ} (h : k ∈ usedKeys) : k.1 ≠ 0 := by
  rcases h with h | h <;> rw [h] <;> decide

namespace ReturnsSound
variable {base tr : List Moment} {x : Moment}

theorem start (base : List Moment) : ReturnsSound base base := by
  intro new fn v hret
  have hlen := hret.length_le
  simp only [List.length_cons, List.length_append] at hlen
  omega

theorem cons (h : ReturnsSound base tr)
    (hx : ∀ fn, x.1 = .ret fn → TlbCoherent (x :: tr) x.2 ∧ x.2.Runs (x.2.resumed fn)) :
    ReturnsSound base (x :: tr) := by
  intro new fn v hret htame
  rcases List.suffix_cons_iff.mp hret with heq | hold
  · obtain ⟨rfl, rfl⟩ := List.cons.inj heq
    exact hx fn rfl
  · exact h new fn v hold htame

end ReturnsSound

/-- What the kernel is about: whether there is a child's frame, whether its table may have been
walked since the last flush, whose turn it is and which address space is active. -/
structure Phase where
  child : Bool
  live : Bool
  pid : Pid
  asid : Asid

/-- The kernel between two commands. -/
def Phase.idle : Phase := ⟨false, false, .kernel, kernelAsid⟩

/-- `exec_file` while it prepares the child, or has flushed it. -/
def Phase.opened : Phase := ⟨true, false, .kernel, kernelAsid⟩

/-- `exec_file` under the child's table. -/
def Phase.loading : Phase := ⟨true, true, .kernel, childAsid⟩

/-- The program. -/
def Phase.running : Phase := ⟨true, true, .child, childAsid⟩

/-- The program's `sbrk` under the kernel's table. -/
def Phase.trapped : Phase := ⟨true, true, .child, kernelAsid⟩

/-- `exec_file` under the kernel's table, before it flushes the child's entries. -/
def Phase.closing : Phase := ⟨true, true, .kernel, kernelAsid⟩

/-- The processes of a phase. -/
structure Roles (ph : Phase) (v : Vm) : Prop where
  kernel : v.kernelProc.asid = kernelAsid
  current : v.currentProc = ph.pid
  frame : ph.child → ∃ f, v.frame = some f ∧ f.proc.asid = childAsid

/-- The invariant of the TLB. -/
structure Translating (base : List Moment) (ph : Phase) (s : Machine) : Prop where
  returns : ReturnsSound base s.trace
  coherent : CoherentOn usedKeys s.trace s.vm
  unwalked : ph.live = false → Unwalked s.trace
  runs : s.vm.Runs ph.asid
  roles : Roles ph s.vm

theorem Roles.congr {ph ph' : Phase} {v w : Vm} (h : Roles ph v) (hkernel : w.kernelProc = v.kernelProc)
    (hcurrent : w.currentProc = v.currentProc) (hframe : w.frame = v.frame)
    (hpid : ph'.pid = ph.pid) (hchild : ph'.child = ph.child) : Roles ph' w := by
  constructor
  · rw [hkernel]
    exact h.kernel
  · rw [hcurrent, hpid]
    exact h.current
  · rw [hframe, hchild]
    exact h.frame

/-- The child's frame changes, but not the child's address space. -/
theorem Roles.map_frame {ph : Phase} {v : Vm} (h : Roles ph v) {g : ExecFrame → ExecFrame}
    (hg : ∀ f, (g f).proc.asid = f.proc.asid) : Roles ph { v with frame := v.frame.map g } := by
  refine ⟨h.kernel, h.current, fun hchild => ?_⟩
  obtain ⟨f, hf, hasid⟩ := h.frame hchild
  refine ⟨g f, ?_, (hg f).trans hasid⟩
  dsimp only
  rw [hf]
  rfl

section Moments
variable {keys : Set (Asid × ℕ)} {tr : List Moment} {v w : Vm} {e : Event} {a : Asid}

/-- The active table is that of the active address space. -/
theorem Vm.Runs.walks (h : w.Runs a) {k : Asid × ℕ} {f : Fld} (hk : Walks (e, w) k f) : f = w.entry k := by
  obtain ⟨hasid, -, hf, -⟩ := hk
  rw [hf]
  change w.table w.ttbr k.2 = w.table k.1 k.2
  rw [hasid, h.asid, h.ttbr]

/-- One event under an address space: entries it does not drop stay in the tables. -/
theorem CoherentOn.cons (h : CoherentOn keys tr v) {keys' : Set (Asid × ℕ)} (hruns : w.Runs a)
    (hkept : ∀ k ∈ keys', ¬ e.Drops k → k ∈ keys ∧ w.entry k = v.entry k) :
    CoherentOn keys' ((e, w) :: tr) w :=
  Coherent.cons h (fun _ _ _ hk => hruns.walks hk) hkept

/-- Under ASID 0 nothing of the two processes is walked. -/
theorem CoherentOn.cons_zero (h : CoherentOn usedKeys tr v) (hasid : w.asid = 0)
    (htable : w.table = v.table) : CoherentOn usedKeys ((e, w) :: tr) w := by
  apply Coherent.cons h
  · intro k hk f hf
    exact absurd (hf.1.trans hasid) (zero_notMem_usedKeys hk)
  · intro k hk _
    refine ⟨hk, ?_⟩
    unfold Vm.entry
    rw [htable]

/-- The child's table is not walked under another ASID. -/
theorem Unwalked.cons (h : Unwalked tr) (hasid : w.asid ≠ childAsid) : Unwalked ((e, w) :: tr) := by
  apply Uncached.cons h
  · intro k hk f hf
    exact hasid (hf.1.symm.trans hk)
  · exact fun k hk _ => hk

end Moments

namespace Translating
variable {base : List Moment} {ph ph' : Phase} {s : Machine} {e : Event} {f : Vm → Vm}

/-- An event that leaves the tables and the registers alone. -/
theorem step (h : Translating base ph s) (hf : (f s.vm).table = s.vm.table)
    (hruns : (f s.vm).Runs ph'.asid) (hroles : Roles ph' (f s.vm)) (hlive : ph'.live = ph.live)
    (hasid : ph'.live = false → ph'.asid ≠ childAsid)
    (hret : ∀ fn, e = .ret fn → (f s.vm).resumed fn = ph'.asid) :
    Translating base ph' (s.step e f) := by
  have hcoherent : CoherentOn usedKeys ((e, f s.vm) :: s.trace) (f s.vm) := by
    apply CoherentOn.cons h.coherent hruns
    intro k hk _
    refine ⟨hk, ?_⟩
    unfold Vm.entry
    rw [hf]
  constructor
  · apply h.returns.cons
    rintro fn rfl
    refine ⟨tlbCoherent_iff.mpr hcoherent, ?_⟩
    rw [hret fn rfl]
    exact hruns
  · exact hcoherent
  · intro hnone
    apply Unwalked.cons (h.unwalked (hlive.symm.trans hnone))
    rw [hruns.asid]
    exact hasid hnone
  · exact hruns
  · exact hroles

/-- A store leaves the tables, the registers and the processes alone, wherever it goes. -/
theorem busKeeps (base : List Moment) (hasid : ph.live = false → ph.asid ≠ childAsid) :
    BusKeeps mmu (Translating base ph) fun s => ReturnsSound base s.trace := by
  apply busKeeps_of_mem
  · exact fun s mem h => ⟨h.returns, h.coherent, h.unwalked, h.runs, h.roles⟩
  · intro s pa b h
    apply h.step
    · exact poke_table ..
    · exact ⟨(poke_asid ..).trans h.runs.asid, (poke_ttbr ..).trans h.runs.ttbr⟩
    · exact h.roles.congr (poke_kernelProc ..) (poke_currentProc ..) (poke_frame ..) rfl rfl
    · rfl
    · exact hasid
    · exact fun fn hfn => by cases hfn
  · exact fun s h => h.returns

/-- An entry changes and is synced. -/
theorem setFld_sync (h : Translating base ph s) (hasid : ph.asid = kernelAsid) (pt : Asid) (page : ℕ)
    (fld : Fld) (fl : MapFlags) : Translating base ph
      ((s.step .update (·.setFld pt page fld fl)).step (.sync page pt) id) := by
  have hruns : (s.vm.setFld pt page fld fl).Runs ph.asid := ⟨h.runs.asid, h.runs.ttbr⟩
  have hother : (s.vm.setFld pt page fld fl).asid ≠ childAsid := by
    rw [hruns.asid, hasid]
    exact childAsid_ne_kernelAsid.symm
  have hbut : CoherentOn (usedKeys \ {(pt, page)})
      ((.update, s.vm.setFld pt page fld fl) :: s.trace) (s.vm.setFld pt page fld fl) := by
    apply CoherentOn.cons h.coherent hruns
    rintro ⟨b, p⟩ hk _
    refine ⟨hk.1, ?_⟩
    have hne : ¬ (b = pt ∧ p = page) := fun heq => hk.2 (Prod.ext heq.1 heq.2)
    exact (setFld_table _ _ _ _ _ b p).trans (if_neg hne)
  constructor
  · apply ReturnsSound.cons _ fun fn hfn => by cases hfn
    exact h.returns.cons fun fn hfn => by cases hfn
  · apply CoherentOn.cons hbut hruns
    exact fun k hk hdrop => ⟨⟨hk, hdrop⟩, rfl⟩
  · intro hnone
    exact Unwalked.cons (Unwalked.cons (h.unwalked hnone) hother) hother
  · exact hruns
  · exact h.roles.congr rfl rfl rfl rfl rfl

/-- The child's table changes while nothing of it can be cached. -/
theorem rebuild (h : Translating base ph s) (hlive : ph.live = false) (hasid : ph.asid = kernelAsid)
    (hf : ∀ k : Asid × ℕ, k.1 ≠ childAsid → (f s.vm).entry k = s.vm.entry k)
    (hruns : (f s.vm).Runs ph.asid) (hroles : Roles ph (f s.vm)) :
    Translating base ph (s.step .update f) := by
  have hnow : CoherentOn usedKeys s.trace (f s.vm) :=
    Coherent.of_uncached h.coherent (h.unwalked hlive) fun k _ hk => hf k hk
  constructor
  · exact h.returns.cons fun fn hfn => by cases hfn
  · exact CoherentOn.cons hnow hruns fun k hk _ => ⟨hk, rfl⟩
  · intro _
    apply Unwalked.cons (h.unwalked hlive)
    rw [hruns.asid, hasid]
    exact childAsid_ne_kernelAsid.symm
  · exact hruns
  · exact hroles

/-- The recipe of `set_procid_ttbr0`: in between, the active ASID is no process's. -/
theorem setProcidTtbr0 (h : Translating base ph s) {a : Asid}
    (hlive : ph'.live = false → ph.live = false ∧ a ≠ childAsid) (hasid : ph'.asid = a)
    (hpid : ph'.pid = ph.pid) (hchild : ph'.child = ph.child) : Translating base ph'
      (((s.step .update ({ · with asid := 0 })).step .update ({ · with ttbr := a })).step .update
        ({ · with asid := a })) := by
  have h₁ : CoherentOn usedKeys ((.update, { s.vm with asid := 0 }) :: s.trace)
      { s.vm with asid := 0 } := CoherentOn.cons_zero h.coherent rfl rfl
  have h₂ : CoherentOn usedKeys ((.update, { s.vm with asid := 0, ttbr := a }) ::
      (.update, { s.vm with asid := 0 }) :: s.trace) { s.vm with asid := 0, ttbr := a } :=
    CoherentOn.cons_zero h₁ rfl rfl
  have hruns : ({ s.vm with asid := a, ttbr := a } : Vm).Runs a := ⟨rfl, rfl⟩
  constructor
  · apply ReturnsSound.cons _ fun fn hfn => by cases hfn
    apply ReturnsSound.cons _ fun fn hfn => by cases hfn
    exact h.returns.cons fun fn hfn => by cases hfn
  · exact CoherentOn.cons h₂ hruns fun k hk _ => ⟨hk, rfl⟩
  · intro hnone
    obtain ⟨hbefore, hne⟩ := hlive hnone
    have hzero : (0 : Asid) ≠ childAsid := by decide
    apply Unwalked.cons _ hne
    apply Unwalked.cons _ hzero
    exact Unwalked.cons (h.unwalked hbefore) hzero
  · rw [hasid]
    exact hruns
  · exact h.roles.congr rfl rfl rfl hpid hchild

/-- The child's entries are flushed under the kernel's table. -/
theorem invAsid (h : Translating base ph s) (hasid : ph'.asid = kernelAsid) (hsame : ph.asid = kernelAsid)
    (hpid : ph'.pid = ph.pid) (hchild : ph'.child = ph.child) :
    Translating base ph' (s.step (.invAsid childAsid) id) := by
  have hruns : s.vm.Runs kernelAsid := by
    have := h.runs
    rwa [hsame] at this
  constructor
  · exact h.returns.cons fun fn hfn => by cases hfn
  · exact CoherentOn.cons h.coherent hruns fun k hk _ => ⟨hk, rfl⟩
  · intro _
    apply Uncached.of_drops
    · intro k hk x hx
      exact childAsid_ne_kernelAsid (hk.symm.trans (hx.1.trans hruns.asid))
    · exact fun k hk => hk
  · rw [hasid]
    exact hruns
  · exact h.roles.congr rfl rfl rfl hpid hchild

end Translating

/-- `m` takes the kernel from one phase to another, or stops with all returns so far sound. -/
abbrev Takes {α : Type} (base : List Moment) (ph : Phase) (m : Kern α) (ph' : Phase) : Prop :=
  Triple (Translating base ph) m (fun _ => Translating base ph') fun s => ReturnsSound base s.trace

namespace Takes
variable {α : Type} {base : List Moment} {ph ph' : Phase} {pt : Asid} {f : Vm → Vm} {e : Event}

theorem assert (p : Prop) [Decidable p] (msg : String) : Takes base ph (assert p msg) ph := by
  apply Triple.ite
  · exact fun _ => .pure fun s hs => hs
  · exact fun _ => .throw fun s hs => hs.returns

/-- The state that a computation looks at. -/
theorem getVm_bind {P : Machine → Prop} {Q : α → Machine → Prop} {E : Machine → Prop} {A : Vm → Prop}
    {m : Vm → Kern α} (hA : ∀ s, P s → A s.vm) (h : ∀ v, A v → Triple (fun s => P s ∧ s.vm = v) (m v) Q E) :
    Triple P (getVm >>= m) Q E := by
  intro s hs
  have hget : getVm.run s = .ok s.vm s := rfl
  rw [bind_ok hget]
  exact h s.vm (hA s hs) s ⟨hs, rfl⟩

theorem step (hf : ∀ v, (f v).table = v.table) (hregs : ∀ v, (f v).asid = v.asid ∧ (f v).ttbr = v.ttbr)
    (hroles : ∀ v, Roles ph v → Roles ph' (f v)) (hlive : ph'.live = ph.live)
    (hsame : ph'.asid = ph.asid) (hasid : ph'.live = false → ph'.asid ≠ childAsid)
    (hret : ∀ fn v, e = .ret fn → Roles ph' v → v.resumed fn = ph'.asid) :
    Takes base ph (perform e f) ph' := by
  apply Triple.of_run fun _ => rfl
  intro s hs
  have hruns : (f s.vm).Runs ph'.asid := by
    rw [hsame]
    exact ⟨(hregs s.vm).1.trans hs.runs.asid, (hregs s.vm).2.trans hs.runs.ttbr⟩
  have hroles' := hroles s.vm hs.roles
  exact hs.step (hf s.vm) hruns hroles' hlive hasid fun fn hfn => hret fn _ hfn hroles'

/-- An update of the ownership map or of a process. -/
theorem update (hf : ∀ v, (f v).table = v.table) (hregs : ∀ v, (f v).asid = v.asid ∧ (f v).ttbr = v.ttbr)
    (hroles : ∀ v, Roles ph v → Roles ph (f v)) (hasid : ph.live = false → ph.asid ≠ childAsid) :
    Takes base ph (perform .update f) ph :=
  step hf hregs hroles rfl rfl hasid fun fn v h => by cases h

theorem ret {fn : Fn} (hasid : ph.live = false → ph.asid ≠ childAsid)
    (hret : ∀ v, Roles ph v → v.resumed fn = ph.asid) : Takes base ph (perform (.ret fn) id) ph := by
  apply step (fun _ => rfl) (fun _ => ⟨rfl, rfl⟩) (fun _ => id) rfl rfl hasid
  intro fn' v h hv
  cases h
  exact hret v hv

/-- A mapping under the kernel's table: it is synced, or it is one for a child that has not run. -/
theorem mmuMapSection (hasid : ph.asid = kernelAsid) {va pa : ℕ} {flags : MapFlags}
    (hok : flags.sync = true ∨ pt = childAsid ∧ ph.live = false) :
    Takes base ph (mmuMapSection pt va pa flags) ph := by
  have hkernel : ph.live = false → ph.asid ≠ childAsid := by
    intro _
    rw [hasid]
    exact childAsid_ne_kernelAsid.symm
  have hret : Takes base ph (perform (.ret .mmuMapSection) id) ph :=
    ret hkernel fun v hv => hv.kernel.trans hasid.symm
  have htail : Takes base ph (do
      perform .update (·.setFld pt (va / 2 ^ 20) (sectionFld pa flags) flags)
      if flags.sync then mmuSync (va / 2 ^ 20) pt
      perform (.ret .mmuMapSection) id) ph := by
    cases hsync : flags.sync with
    | true =>
      apply Triple.bind (Q := fun _ t => ∃ s, Translating base ph s ∧
        t = s.step .update (·.setFld pt (va / 2 ^ 20) (sectionFld pa flags) flags))
      · exact .of_run (fun _ => rfl) fun s hs => ⟨s, hs, rfl⟩
      · intro _
        apply Triple.bind _ fun _ => hret
        apply Triple.of_run fun _ => rfl
        rintro t ⟨s, hs, rfl⟩
        exact hs.setFld_sync hasid pt _ _ _
    | false =>
      obtain ⟨rfl, hlive⟩ : pt = childAsid ∧ ph.live = false := by simpa [hsync] using hok
      apply Triple.bind (Q := fun _ => Translating base ph)
      · apply Triple.of_run fun _ => rfl
        intro s hs
        apply hs.rebuild hlive hasid
        · intro k hk
          exact (setFld_table _ _ _ _ _ k.1 k.2).trans (if_neg fun h => hk h.1)
        · exact ⟨hs.runs.asid, hs.runs.ttbr⟩
        · exact hs.roles.congr rfl rfl rfl rfl rfl
      · exact fun _ => hret
  unfold Kernel.mmuMapSection
  apply Triple.bind (assert _ _)
  intro _
  apply Triple.bind (assert _ _)
  intro _
  apply Triple.ite
  · intro _
    apply getVm_bind (A := fun _ => True) fun _ _ => trivial
    intro v _
    apply Triple.bind ((assert _ _).weaken (fun s hs => hs.1) fun _ _ => id)
    intro _
    apply Triple.bind _ fun _ => htail
    exact update (fun _ => rfl) (fun _ => ⟨rfl, rfl⟩) (fun v hv => hv.congr rfl rfl rfl rfl rfl) hkernel
  · exact fun _ => htail

theorem mmuMapToMem (hasid : ph.asid = kernelAsid) {addr size : ℕ} {sync : Bool}
    (hok : sync = true ∨ pt = childAsid ∧ ph.live = false) :
    Takes base ph (mmuMapToMem pt addr size sync) ph := by
  apply Keeps.forM
  intro page _
  apply getVm_bind (A := fun _ => True) fun _ _ => trivial
  intro v _
  apply Triple.ite
  · intro _
    apply Triple.bind (Q := fun _ => Translating base ph)
    · exact .throw fun s hs => hs.1.returns
    · exact fun _ => mmuMapSection hasid hok
  · intro _
    exact (mmuMapSection hasid hok).weaken (fun s hs => hs.1) fun _ _ => id

theorem setProcidTtbr0 {a : Asid} (hlive : ph'.live = false → ph.live = false ∧ a ≠ childAsid)
    (hasid : ph'.asid = a) (hpid : ph'.pid = ph.pid) (hchild : ph'.child = ph.child) :
    Takes base ph (setProcidTtbr0 a a) ph' :=
  .of_run (fun _ => rfl) fun _ hs => hs.setProcidTtbr0 hlive hasid hpid hchild

/-- The return of `kernel_sbrk`. -/
theorem sbrkRet {pid : Pid} (hasid : ph.live = false → ph.asid ≠ childAsid)
    (hrole : ∀ v, Roles ph v → (v.proc v.currentProc).asid = ph.asid) : Takes base ph (do
      let heapEnd := ((← getVm).proc pid).heapEnd
      perform (.ret .kernelSbrk) id
      return heapEnd) ph := by
  have hret : Takes base ph (perform (.ret .kernelSbrk) id) ph := ret hasid hrole
  apply getVm_bind (A := fun _ => True) fun _ _ => trivial
  intro v _
  apply Triple.bind (hret.weaken (fun s hs => hs.1) fun _ _ => id)
  intro _
  exact .pure fun s hs => hs

/-- `kernel_sbrk` behind its mappings. -/
theorem sbrkEnd {pid : Pid} {heapEnd incr : ℕ} (hasid : ph.live = false → ph.asid ≠ childAsid)
    (hrole : ∀ v, Roles ph v → (v.proc v.currentProc).asid = ph.asid) : Takes base ph (do
      memset mmu heapEnd 0 incr
      perform .update (·.setHeapEnd (add32 heapEnd incr) pid)
      let heapEnd := ((← getVm).proc pid).heapEnd
      perform (.ret .kernelSbrk) id
      return heapEnd) ph := by
  apply Triple.bind ((Translating.busKeeps base hasid).memset _ _ _)
  intro _
  apply Triple.bind (Q := fun _ => Translating base ph)
  · apply update _ _ _ hasid
    · intro v
      cases pid <;> rfl
    · intro v
      cases pid <;> exact ⟨rfl, rfl⟩
    · intro v hv
      cases pid with
      | kernel => exact ⟨hv.kernel, hv.current, hv.frame⟩
      | child => exact hv.map_frame fun _ => rfl
  · exact fun _ => sbrkRet hasid hrole

/-- `sbrk` of the kernel. -/
theorem kernelSbrk_own (hpid : ph.pid = .kernel) (hasid : ph.asid = kernelAsid) (incr : ℕ) :
    Takes base ph (kernelSbrk incr) ph := by
  have hkernel : ph.live = false → ph.asid ≠ childAsid := by
    intro _
    rw [hasid]
    exact childAsid_ne_kernelAsid.symm
  have hrole : ∀ v, Roles ph v → (v.proc v.currentProc).asid = ph.asid := by
    intro v hv
    rw [hv.current, hpid, hasid]
    exact hv.kernel
  have hof : ∀ proc : Process, proc.asid = kernelAsid →
      Takes base ph (sbrkOf .kernel proc incr) ph := by
    intro proc hproc
    apply Triple.ite
    · intro _
      apply Triple.ite
      · exact fun h => absurd rfl h
      · intro _
        apply Triple.bind (mmuMapToMem hasid (.inl rfl))
        intro _
        apply Triple.ite
        · exact fun h => absurd rfl h
        · exact fun _ => sbrkEnd hkernel hrole
    · exact fun _ => sbrkRet hkernel hrole
  intro s hs
  have hrun : (kernelSbrk incr).run s =
      (sbrkOf s.vm.currentProc (s.vm.proc s.vm.currentProc) incr).run s := rfl
  rw [hrun, hs.roles.current, hpid]
  exact hof _ hs.roles.kernel s hs

/-- `sbrk` of the program, which maps under the kernel's table. -/
theorem kernelSbrk_child (incr : ℕ) : Takes base .running (kernelSbrk incr) .running := by
  have hrole : ∀ v, Roles .running v → (v.proc v.currentProc).asid = childAsid := by
    intro v hv
    obtain ⟨f, hf, hfa⟩ := hv.frame rfl
    rw [hv.current, show Phase.running.pid = .child from rfl, proc_child hf]
    exact hfa
  have hlive : Phase.running.live = false → Phase.running.asid ≠ childAsid := fun h => by cases h
  have hof : ∀ proc : Process, proc.asid = childAsid →
      Takes base .running (sbrkOf .child proc incr) .running := by
    intro proc hproc
    unfold sbrkOf
    rw [hproc]
    apply Triple.ite
    · intro _
      apply Triple.ite
      · intro _
        have hin : Takes base .running (Kernel.setProcidTtbr0 kernelAsid kernelAsid) .trapped :=
          setProcidTtbr0 (fun h => by cases h) rfl rfl rfl
        apply Triple.bind hin
        intro _
        apply Triple.bind (mmuMapToMem rfl (.inl rfl))
        intro _
        apply Triple.ite
        · intro _
          have hout : Takes base .trapped (Kernel.setProcidTtbr0 childAsid childAsid) .running :=
            setProcidTtbr0 (fun h => by cases h) rfl rfl rfl
          apply Triple.bind hout
          exact fun _ => sbrkEnd hlive hrole
        · exact fun h => absurd (not_not.mp h) (by decide)
      · exact fun h => absurd (not_not.mp h) (by decide)
    · exact fun _ => sbrkRet hlive hrole
  intro s hs
  have hrun : (kernelSbrk incr).run s =
      (sbrkOf s.vm.currentProc (s.vm.proc s.vm.currentProc) incr).run s := rfl
  have hproc := hrole s.vm hs.roles
  rw [hs.roles.current] at hproc
  rw [hrun, hs.roles.current]
  exact hof _ hproc s hs

/-- Code that uses the memory and the allocator of the kernel. -/
theorem platformKeeps (hpid : ph.pid = .kernel) (hasid : ph.asid = kernelAsid) :
    PlatformKeeps kernel (Translating base ph) fun s => ReturnsSound base s.trace := by
  constructor
  · apply Translating.busKeeps
    intro _
    rw [hasid]
    exact childAsid_ne_kernelAsid.symm
  · exact fun n => kernelSbrk_own hpid hasid n
  · exact fun s hs => hs
  · exact fun f s hs => ⟨hs.returns, hs.coherent, hs.unwalked, hs.runs, hs.roles⟩

/-- `elf_load` maps for a child that has not run. -/
theorem loaderKeeps : LoaderKeeps childAsid (Translating base .opened) fun s =>
    ReturnsSound base s.trace := by
  constructor
  · exact Translating.busKeeps base fun _ => childAsid_ne_kernelAsid.symm
  · rintro m addr size rfl
    exact mmuMapToMem rfl (.inr ⟨rfl, rfl⟩)
  · rintro m addr rfl
    apply update
    · exact fun _ => rfl
    · exact fun _ => ⟨rfl, rfl⟩
    · exact fun v hv => hv.map_frame fun _ => rfl
    · exact fun _ => childAsid_ne_kernelAsid.symm

/-- The new child's table, before anything of it can be cached. -/
theorem execInitTable : Takes base .idle execInitTable .opened := by
  have hzero : ∀ n, Takes base .opened (zeroFlds childAsid n) .opened := by
    intro n
    apply Triple.of_run fun _ => rfl
    intro s hs
    apply hs.rebuild rfl rfl
    · rintro ⟨b, p⟩ hb
      have htable : ∀ t, Function.update s.vm.table childAsid t b = s.vm.table b :=
        fun t => Function.update_of_ne hb _ _
      exact congrFun (htable _) p
    · exact ⟨hs.runs.asid, hs.runs.ttbr⟩
    · exact hs.roles.congr rfl rfl rfl rfl rfl
  apply Triple.bind (Q := fun _ => Translating base .opened)
  · apply step
    · exact fun _ => rfl
    · exact fun _ => ⟨rfl, rfl⟩
    · exact fun v hv => ⟨hv.kernel, hv.current, fun _ => ⟨_, rfl, rfl⟩⟩
    · rfl
    · rfl
    · exact fun _ => childAsid_ne_kernelAsid.symm
    · exact fun fn v h => by cases h
  · intro _
    apply Triple.bind (hzero _)
    intro _
    apply Triple.bind (Triple.bind (assert _ _) fun _ => hzero _)
    intro _
    have hglobal : ∀ va pa, Takes base .opened
        (Kernel.mmuMapSection childAsid va pa ⟨true, false, false⟩) .opened :=
      fun va pa => mmuMapSection rfl (.inr ⟨rfl, rfl⟩)
    exact .bind (hglobal _ _) fun _ => .bind (hglobal _ _) fun _ => .bind (hglobal _ _) fun _ =>
      .bind (hglobal _ _) fun _ => hglobal _ _

theorem sharePages (pages : List ℕ) : Takes base .opened (forM pages sharePage) .opened := by
  apply Keeps.forM
  intro page _
  have hmap : ∀ va pa, Takes base .opened
      (Kernel.mmuMapSection childAsid va pa ⟨false, true, false⟩) .opened :=
    fun va pa => mmuMapSection rfl (.inr ⟨rfl, rfl⟩)
  apply getVm_bind (A := fun _ => True) fun _ _ => trivial
  intro v _
  exact (hmap _ _).weaken (fun s hs => hs.1) fun _ _ => id

/-- The file goes to the load window, which the child shares. -/
theorem execLoadFile (file : PiFile) : Takes base .opened (execLoadFile file) .opened := by
  have hopen : ∀ file : PiFile, Takes base .opened
      (perform .update fun v => { v with frame := v.frame.map ({ · with file := some file }) }) .opened := by
    intro file
    apply update
    · exact fun _ => rfl
    · exact fun _ => ⟨rfl, rfl⟩
    · exact fun v hv => hv.map_frame fun _ => rfl
    · exact fun _ => childAsid_ne_kernelAsid.symm
  apply Triple.bind (hopen _)
  intro _
  apply Triple.bind (mmuMapToMem rfl (.inl rfl))
  intro _
  apply Triple.bind ((Translating.busKeeps base fun _ => childAsid_ne_kernelAsid.symm).memcpy _ _ _)
  intro _
  dsimp only
  generalize filePages file.nData = pages
  apply Triple.bind (sharePages pages)
  exact fun _ => .pure fun s hs => hs

theorem runProgram (sbrks : List ℕ) : Takes base .running (runProgram sbrks) .running := by
  apply Keeps.forM
  intro incr _
  apply Triple.bind (kernelSbrk_child incr)
  exact fun _ => .pure fun s hs => hs

/-- The turn goes to the program and comes back. -/
theorem jump (sbrks : List ℕ) (dstAddr : ℕ) :
    Takes base .loading (execLoadInstr sbrks (.jump dstAddr)) .loading := by
  have hturn : ∀ ph ph' : Phase, ph'.asid = ph.asid → ph'.live = ph.live → ph'.child = ph.child →
      ph'.live = true → Takes base ph (perform .update ({ · with currentProc := ph'.pid })) ph' := by
    intro ph ph' hasid hlive hchild htrue
    apply step
    · exact fun _ => rfl
    · exact fun _ => ⟨rfl, rfl⟩
    · exact fun v hv => ⟨hv.kernel, rfl, by rw [hchild]; exact hv.frame⟩
    · exact hlive
    · exact hasid
    · exact fun hfalse => absurd (htrue.symm.trans hfalse) (by decide)
    · exact fun fn v h => by cases h
  apply getVm_bind (A := fun _ => True) fun _ _ => trivial
  intro v _
  apply Triple.ite
  · intro _
    exact .pure fun s hs => hs.1
  · intro _
    have hbrk : Takes base .loading
        (perform .update (·.setHeapEnd (v.proc .child).heapStart .child)) .loading := by
      apply update
      · exact fun _ => rfl
      · exact fun _ => ⟨rfl, rfl⟩
      · exact fun w hw => hw.map_frame fun _ => rfl
      · exact fun h => by cases h
    apply Triple.bind (hbrk.weaken (fun s hs => hs.1) fun _ _ => id)
    intro _
    apply getVm_bind (A := (·.currentProc = .kernel)) fun s hs => hs.roles.current
    intro u hu
    rw [hu]
    apply Triple.bind ((hturn .loading .running rfl rfl rfl rfl).weaken (fun s hs => hs.1) fun _ _ => id)
    intro _
    apply Triple.bind (runProgram sbrks)
    intro _
    apply Triple.bind (hturn .running .loading rfl rfl rfl rfl)
    exact fun _ => .pure fun s hs => hs

theorem execLoadInstrs (sbrks : List ℕ) (instrLst : List LoadInstr) :
    Takes base .loading (execLoadInstrs sbrks instrLst) .loading := by
  have hbus : BusKeeps mmu (Translating base .loading) fun s => ReturnsSound base s.trace :=
    Translating.busKeeps base fun h => by cases h
  have hinstr : ∀ instr, Takes base .loading (execLoadInstr sbrks instr) .loading := by
    intro instr
    cases instr with
    | copy dstAddr srcAddr size => exact .bind (hbus.memcpy _ _ _) fun _ => .pure fun s hs => hs
    | zero dstAddr size => exact .bind (hbus.memset _ _ _) fun _ => .pure fun s hs => hs
    | jump dstAddr => exact jump sbrks dstAddr
  induction instrLst with
  | nil => exact .pure fun s hs => hs
  | cons instr is ih =>
    apply Triple.bind (hinstr instr)
    intro go
    apply Triple.ite
    · exact fun _ => ih
    · exact fun _ => .pure fun s hs => hs

theorem elfLoad (nData : ℕ) (fileData : ℕ) :
    Takes base .opened (elfLoad fileData nData childAsid) .opened := by
  have hret : Takes base .opened (perform (.ret .elfLoad) id) .opened :=
    ret (fun _ => childAsid_ne_kernelAsid.symm) fun v hv => hv.kernel
  apply Triple.bind (loaderKeeps.elfLoadBody _ _)
  intro r
  apply Triple.bind hret
  exact fun _ => .pure fun s hs => hs

/-- Whether or not the file is loaded, nothing of the child's is left in the TLB. -/
theorem execProgram (sbrks : List ℕ) (file : PiFile) :
    Takes base .opened (execProgram sbrks file) .opened := by
  have hin : Takes base .opened (Kernel.setProcidTtbr0 childAsid childAsid) .loading :=
    setProcidTtbr0 (fun h => by cases h) rfl rfl rfl
  have hout : Takes base .loading (Kernel.setProcidTtbr0 kernelAsid kernelAsid) .closing :=
    setProcidTtbr0 (fun h => by cases h) rfl rfl rfl
  have hflush : Takes base .closing (mmuInvAsid childAsid) .opened :=
    .of_run (fun _ => rfl) fun s hs => hs.invAsid rfl rfl rfl rfl
  apply Triple.bind (elfLoad _ _)
  intro r
  cases r with
  | none => exact .pure fun s hs => hs
  | some instrLst =>
    apply Triple.bind hin
    intro _
    apply Triple.bind (execLoadInstrs sbrks instrLst)
    intro _
    apply Triple.bind hout
    exact fun _ => hflush

theorem unmapPages (pages : List ℕ) : Takes base .opened (forM pages (unmapEntry childAsid)) .opened := by
  apply Keeps.forM
  intro i _
  apply getVm_bind (A := fun _ => True) fun _ _ => trivial
  intro v _
  apply Triple.ite
  · intro _
    apply Triple.ite
    · intro _
      have hfree : Takes base .opened (setOwner (v.table childAsid i).sec 0) .opened := by
        apply update
        · exact fun _ => rfl
        · exact fun _ => ⟨rfl, rfl⟩
        · exact fun w hw => hw.congr rfl rfl rfl rfl rfl
        · exact fun _ => childAsid_ne_kernelAsid.symm
      exact hfree.weaken (fun s hs => hs.1) fun _ _ => id
    · exact fun _ => .throw fun s hs => hs.1.returns
  · exact fun _ => .pure fun s hs => hs.1

theorem execClose : Takes base .opened execClose .idle := by
  have hother : Phase.opened.live = false → Phase.opened.asid ≠ childAsid :=
    fun _ => childAsid_ne_kernelAsid.symm
  unfold Kernel.execClose mmuUnmap
  generalize List.range nVirtPages = pages
  apply Triple.bind (unmapPages pages)
  intro _
  apply Triple.bind (Q := fun _ => Translating base .idle)
  · apply step
    · exact fun _ => rfl
    · exact fun _ => ⟨rfl, rfl⟩
    · exact fun v hv => ⟨hv.kernel, hv.current, fun h => by cases h⟩
    · rfl
    · rfl
    · exact hother
    · exact fun fn v h => by cases h
  · exact fun _ => ret hother fun v hv => hv.kernel

theorem execFile (disk : Disk) (fuel : ℕ) (fs : Fat32) (entry : Dirent) (sbrks : List ℕ) :
    Takes base .idle (execFile disk fuel fs entry sbrks) .idle := by
  rw [execFile_eq]
  apply Triple.bind execInitTable
  intro _
  apply Triple.bind
  · exact .bind ((platformKeeps rfl rfl).fat32ReadFile disk fuel fs entry) fun file => execLoadFile file
  · intro file
    exact .bind (execProgram sbrks file) fun _ => @execClose base

/-- Each operation of the kernel. -/
theorem op (o : KernelOp) : Takes base .idle o.run .idle := by
  cases o with
  | code mem heap => exact fun s hs => ⟨hs.returns, hs.coherent, hs.unwalked, hs.runs, hs.roles⟩
  | grow incr =>
    apply Triple.bind (kernelSbrk_own rfl rfl incr)
    exact fun _ => .pure fun s hs => hs
  | exec disk fuel fs entry sbrks => exact execFile disk fuel fs entry sbrks

theorem ops (os : List KernelOp) : Takes base .idle (forM os KernelOp.run) .idle :=
  Keeps.forM fun o _ => op o

end Takes

/-- The flush at the end of `vm_enable` leaves the kernel's table to be walked. -/
theorem notmainInit_translating {m s : Machine} (h : notmainInit.run m = .ok () s) :
    Translating s.trace .idle s := by
  obtain ⟨v, w, tr, t, hrun, htrace, htable, hv, hw, hruns, hroles⟩ : ∃ v w tr t,
      notmainInit.run m = .ok () t ∧
      t.trace = (.update, t.vm) :: (.update, w) :: (.invTlb, v) :: tr ∧
      (t.vm.table = v.table ∧ w.table = v.table) ∧ v.Runs kernelAsid ∧ w.Runs kernelAsid ∧
      t.vm.Runs kernelAsid ∧ Roles .idle t.vm := by
    refine ⟨_, _, _, _, rfl, rfl, ⟨rfl, rfl⟩, ⟨rfl, rfl⟩, ⟨rfl, rfl⟩, ⟨rfl, rfl⟩, rfl, rfl, ?_⟩
    exact fun hchild => by cases hchild
  obtain rfl := (EStateM.Result.ok.inj (hrun.symm.trans h)).2
  have hflushed : Uncached Walks (fun x => x.1.Drops) childKeys ((.invTlb, v) :: tr) := by
    apply Uncached.of_drops
    · intro k hk f hf
      exact childAsid_ne_kernelAsid (hk.symm.trans (hf.1.trans hv.asid))
    · exact fun _ _ => trivial
  have hother : ∀ u : Vm, u.Runs kernelAsid → u.asid ≠ childAsid := by
    intro u hu
    rw [hu.asid]
    exact childAsid_ne_kernelAsid.symm
  have hempty : CoherentOn ∅ tr v := fun k hk => absurd hk (Set.notMem_empty k)
  have hkept : ∀ u u' : Vm, u'.table = u.table → ∀ k ∈ usedKeys, u'.entry k = u.entry k := by
    intro u u' hsame k _
    unfold Vm.entry
    rw [hsame]
  have h₁ : CoherentOn usedKeys ((.invTlb, v) :: tr) v :=
    CoherentOn.cons hempty hv fun k _ hdrop => absurd trivial hdrop
  have h₂ : CoherentOn usedKeys ((.update, w) :: (.invTlb, v) :: tr) w :=
    CoherentOn.cons h₁ hw fun k hk _ => ⟨hk, hkept v w htable.2 k hk⟩
  constructor
  · exact .start _
  · rw [htrace]
    exact CoherentOn.cons h₂ hruns fun k hk _ =>
      ⟨hk, hkept w t.vm (htable.1.trans htable.2.symm) k hk⟩
  · intro _
    rw [htrace]
    exact Unwalked.cons (Unwalked.cons hflushed (hother w hw)) (hother _ hruns)
  · exact hruns
  · exact hroles

/-- Whatever the kernel runs, and wherever it stops: each function that has returned left a TLB
that agrees with the two tables, and the address space of whoever goes on. A store through a global
descriptor could change the tables themselves, so nothing is said from the first one on. -/
theorem returns_coherent {m s : Machine} (hboot : notmainInit.run m = .ok () s) (ops : List KernelOp) :
    ReturnsSound s.trace (endState ((forM ops KernelOp.run : Kern PUnit).run s)).trace := by
  have hruns := Takes.ops ops s (notmainInit_translating hboot)
  cases hr : (forM ops KernelOp.run : Kern PUnit).run s with
  | ok u t =>
    rw [hr] at hruns
    exact hruns.returns
  | error e t =>
    rw [hr] at hruns
    exact hruns

theorem returns_coherent_oneSegment : ∃ s, notmainInit.run powerOn = .ok () s ∧
    ReturnsSound s.trace (endState ((forM [.grow 1, .exec (sectorDisk (oneSegment 0x400000 16)) 2 sectorFs
      (sectorFile (oneSegment 0x400000 16)) [0x100000]] KernelOp.run : Kern PUnit).run s)).trace := by
  obtain ⟨s, hboot, -⟩ := notmainInit_run powerOn rfl
  exact ⟨s, hboot, returns_coherent hboot _⟩

section Refuted
variable {s t : Machine}

/-- A program that makes no system call returns at once. -/
theorem execLoaded_returns (h : OwnerReady s) :
    ∃ u, (execLoaded [] (some ownerInstrs)).run s = .ok () u ∧ u.vm.table = s.vm.table ∧
      u.vm.kernelProc = s.vm.kernelProc ∧ Idle u.vm ∧ u.vm.paddrToAsidMap 1 = 0 := by
  obtain ⟨u, hu, hrun⟩ := execLoaded_owner h []
  rw [hrun]
  refine ⟨_, rfl, hu.table, hu.kernelProc, ⟨rfl, rfl, ?_⟩, hu.first⟩
  change u.vm.kernelProc.asid = _
  rw [hu.kernelProc]
  exact h.opening.kernelProc

/-- The global sections are mapped in both tables. Where it maps a section of RAM, `mmu_map_section` leaves
no such entry. -/
def GlobalsMapped (v : Vm) : Prop :=
  ∀ page ∈ reservedPages, v.table kernelAsid page = identityFld page ∧ v.table childAsid page = identityFld page

/-- The kernel between two commands, with a heap up to page `e`, when nobody owns the first section of the
translation tables. -/
structure OwnerGone (e : ℕ) (v : Vm) : Prop where
  idle : Idle v
  heapEnd : v.kernelProc.heapEnd = e * 2 ^ 20
  lo : 5 ≤ e
  hi : e ≤ 0x100
  first : v.paddrToAsidMap 1 = 0
  tables : (v.table kernelAsid 1).Private
  globals : GlobalsMapped v

/-- A complete run of the program leaves the kernel so. The memory had something in it before. -/
theorem ownerProgram_run : ∃ s u e, notmainInit.run { powerOn with mem := fun _ => 1 } = .ok () s ∧
    s.mem = (fun _ => 1) ∧ (execFile (sectorDisk (ownerProgram returnCode)) 2 sectorFs
      (sectorFile (ownerProgram returnCode)) []).run s = .ok () u ∧ OwnerGone e u.vm := by
  have hcode := ownerCode_returnCode
  obtain ⟨s, s₁, t, file, e, hboot, hmem, hinit, hopen, htame, ht⟩ := ownerProgram_opened hcode fun _ => 1
  obtain ⟨v, hload, hready, hkernelProc, hsec, htable, -⟩ := elfLoad_owner hcode ht
  obtain ⟨r, hloaded, hentries, hproc, hidle, hfirst⟩ := execLoaded_returns hready
  have hformed : ∀ p < nVirtPages, (t.vm.table childAsid p).Released →
      (t.vm.table childAsid p).sec < nPhysPages := by
    intro p hp hrel
    obtain ⟨c, hclear, hcleared⟩ := execClear_formed (notmainInit_formed hboot)
    rw [execInitTable_eq, bind_ok hclear] at hinit
    have hstart := ((steps_mmuMapKernelSections_formed (H := fun _ => True)).of_ok hinit).elim hcleared
      fun _ _ => trivial
    have hend := ((steps_execOpen_formed (H := Tame) _ _ _ _).of_ok hopen).elim hstart.1 htame.tame
    exact ((hend.1.1.formed.child rfl p hp).released hrel).2
  obtain ⟨w, hunmap⟩ : ∃ w, (mmuUnmap childAsid).run r = .ok () w := by
    apply mmuUnmap_run
    intro p hp htag hnG
    rw [hentries] at htag hnG ⊢
    by_cases hpage : p = 4
    · rw [hpage]
      exact hsec
    · rw [htable _ _ fun hin => hpage hin.2] at htag hnG ⊢
      exact hformed p hp ⟨htag, hnG⟩
  have hback := unmapPages_ok _ hunmap
  have hrun : (execFile (sectorDisk (ownerProgram returnCode)) 2 sectorFs (sectorFile (ownerProgram returnCode))
      []).run s = .ok () ((w.step .update ({ · with frame := none })).step (.ret .execFile) id) := by
    rw [execFile_eq, bind_ok hinit, bind_ok hopen, execChild_eq, ht.data, ht.nData, bind_ok hload,
      bind_ok hloaded]
    unfold execClose
    rw [bind_ok hunmap]
    rfl
  have hend : w.vm.kernelProc = t.vm.kernelProc := hback.kernelProc.trans (hproc.trans hkernelProc)
  have htables : w.vm.table = v.vm.table := hback.table.trans hentries
  refine ⟨s, _, e, hboot, hmem, hrun, ⟨⟨?_, ?_, ?_⟩, ?_, ht.lo, ht.hi, ?_, ?_, ?_⟩⟩
  · exact hback.ttbr.trans hidle.ttbr
  · exact hback.currentProc.trans hidle.currentProc
  · change w.vm.kernelProc.asid = kernelAsid
    rw [hend]
    exact ht.heap.idle.kernelProc
  · change w.vm.kernelProc.heapEnd = e * 2 ^ 20
    rw [hend]
    exact ht.heap.heapEnd
  · -- the unmapping takes owners away, and gives none
    change w.vm.paddrToAsidMap 1 = 0
    by_cases hkept : ∀ p ∈ List.range nVirtPages, (r.vm.table childAsid p).Released →
        (r.vm.table childAsid p).sec ≠ 1
    · rw [hback.kept 1 hkept]
      exact hfirst
    · push Not at hkept
      obtain ⟨p, hp, hrel, hsec⟩ := hkept
      rw [← hsec]
      exact hback.back p hp hrel
  · change (w.vm.table kernelAsid 1).Private
    rw [htables, htable _ _ (by decide)]
    have hlo := ht.lo
    exact ht.heap.owns.priv 1 ⟨Nat.le_refl 1, by omega⟩
  · intro page hpage
    change w.vm.table kernelAsid page = _ ∧ w.vm.table childAsid page = _
    rw [htables, htable _ _ fun hin => absurd hin.1 (by decide)]
    exact ⟨ht.globals page hpage, hready.opening.reserved page hpage⟩

/-- The next growth of the heap takes the first section of the translation tables and clears it. -/
theorem kernelSbrk_clears {e : ℕ} (h : OwnerGone e s.vm) : ∃ t w,
    (kernelSbrk (2 ^ 20)).run s = .ok ((e + 1) * 2 ^ 20) t ∧
    (∃ old, t.trace = (.ret .kernelSbrk, t.vm) :: (.update, t.vm) :: (.ret .mmuMapSection, w) :: old) ∧
    (w.table = t.vm.table ∧ w.asid = t.vm.asid ∧ w.ttbr = t.vm.ttbr) ∧ t.vm.ttbr = kernelAsid ∧
    (t.vm.table kernelAsid 1).Private ∧ GlobalsMapped t.vm ∧
    ∀ i < 2 ^ 20, t.mem (transTableAddr + i) = 0 := by
  have hlo := h.lo
  have hhi := h.hi
  have hget : ∀ u : Machine, getVm.run u = .ok u.vm u := fun _ => rfl
  have hproc : s.vm.proc s.vm.currentProc = s.vm.kernelProc := by
    rw [h.idle.currentProc]
    rfl
  have hpages : pageRange (e * 2 ^ 20) (2 ^ 20) = [e] := by
    have hrange := pageRange_aligned (e := e) (k := 1) (by omega) (by omega) (by omega)
    simpa using hrange
  have hfree : Free s.vm 1 := ⟨by decide, by decide, h.first⟩
  have hmap : (mapPage kernelAsid true e).run s = .ok () (s.mapRam kernelAsid e 1 true) :=
    mapPage_found e (findAvailablePage_first h.first) hfree
  let u := s.mapRam kernelAsid e 1 true
  have huvm : u.vm = s.vm.mapRam kernelAsid e 1 true := mapRam_vm s
  have hpage : ∀ i < 2 ^ 20, (e * 2 ^ 20 + i) / 2 ^ 20 = e := by
    intro i hi
    omega
  have hfld : ∀ i < 2 ^ 20, u.vm.fldAt (e * 2 ^ 20 + i) = ramFld 1 true := by
    intro i hi
    unfold Vm.fldAt
    rw [hpage i hi, huvm, mapRam_ttbr, h.idle.ttbr, mapRam_table, if_pos ⟨rfl, rfl⟩]
  have hbacked : Backed u.vm (e * 2 ^ 20) (2 ^ 20) := by
    refine ⟨by omega, ?_, ?_⟩
    · intro i hi
      rw [hfld i hi]
      exact ramFld_private
    · intro i hi j hj _
      rw [hpage i hi, hpage j hj]
  obtain ⟨v, hset, hstored⟩ := (mmuBlock u _ _ hbacked).memset_eq 0 (.refl u _ _) (by omega)
  have hv : Within u (e * 2 ^ 20) (2 ^ 20) v := hstored.inv
  have hsum : add32 (e * 2 ^ 20) (2 ^ 20) = (e + 1) * 2 ^ 20 := by
    unfold add32
    omega
  let t := (v.step .update (·.setHeapEnd ((e + 1) * 2 ^ 20) .kernel)).step (.ret .kernelSbrk) id
  have hrun : (kernelSbrk (2 ^ 20)).run s = .ok ((e + 1) * 2 ^ 20) t := by
    rw [kernelSbrk_eq, bind_ok (hget s), bind_ok (hget s), hproc, h.idle.currentProc]
    unfold sbrkOf
    rw [h.heapEnd, h.idle.kernelProc, if_pos (by decide)]
    simp only [ne_eq, not_true_eq_false, if_false]
    have hmapped : (mmuMapToMem kernelAsid (e * 2 ^ 20) (2 ^ 20) true).run s = .ok () u := by
      unfold mmuMapToMem
      rw [hpages, List.forM_cons, bind_ok hmap]
      rfl
    rw [bind_ok hmapped, bind_ok hset, hsum]
    rfl
  have htvm : t.vm = u.vm.setHeapEnd ((e + 1) * 2 ^ 20) .kernel := by
    rw [← hv.vm]
    rfl
  have htable : ∀ b p, p ≠ e → t.vm.table b p = s.vm.table b p := by
    intro b p hp
    rw [htvm]
    change u.vm.table b p = _
    rw [huvm, mapRam_table, if_neg (fun hin => hp hin.2)]
  refine ⟨t, u.vm, hrun, ⟨u.trace.tail, ?_⟩, ⟨?_, ?_, ?_⟩, ?_, ?_, ?_, ?_⟩
  · change _ :: _ :: v.trace = _
    rw [hv.trace]
    rfl
  · rw [htvm]
    rfl
  · rw [htvm]
    rfl
  · rw [htvm]
    rfl
  · rw [htvm]
    change u.vm.ttbr = _
    rw [huvm, mapRam_ttbr, h.idle.ttbr]
  · rw [htable _ _ (by omega)]
    exact h.tables
  · intro p hp
    have hne : p ≠ e := by
      rintro rfl
      simp only [reservedPages, List.mem_cons, List.not_mem_nil, or_false] at hp
      omega
    rw [htable _ _ hne, htable _ _ hne]
    exact h.globals p hp
  · intro i hi
    have hphys : u.vm.phys (e * 2 ^ 20 + i) = transTableAddr + i := by
      unfold Vm.phys
      rw [hfld i hi, ramFld_sec (by decide)]
      change 1 * 2 ^ 20 + _ = 2 ^ 20 + i
      omega
    have hbyte : v.mem (u.vm.phys (e * 2 ^ 20 + i)) = _ := hstored.get_eq i hi
    rw [hphys] at hbyte
    change v.mem (transTableAddr + i) = 0
    rw [hbyte, if_neg (Nat.not_lt_zero i), Nat.sub_zero, List.getD_eq_getElem?_getD,
      List.getElem?_replicate_of_lt hi, Option.getD_some]

/-- Where `TT_BASE[asid][page]` is. -/
def fldAddr (asid : Asid) (page : ℕ) : ℕ := transTableAddr + 4 * nVirtPages * asid + 4 * page

def wordAt (mem : ℕ → UInt8) (a : ℕ) : BitVec 32 :=
  (mem (a + 3)).toBitVec ++ (mem (a + 2)).toBitVec ++ (mem (a + 1)).toBitVec ++ (mem a).toBitVec

/-- The word of `TT_BASE[asid][page]` at `t`: what the paging code wrote last, if no store since `s` has
changed it. -/
def wordSince (s t : Machine) (asid : Asid) (page : ℕ) : BitVec 32 :=
  let a := fldAddr asid page
  if wordAt t.mem a = wordAt s.mem a then (t.vm.table asid page).word else wordAt t.mem a

/-- The operations that are about paging. -/
def KernelOp.Pages : KernelOp → Prop
  | .code _ _ => False
  | .grow _ => True
  | .exec _ _ _ _ _ => True

/-- The heap may grow into the translation tables, while the TLB keeps what was in them. -/
theorem growth_incoherent : ¬ ∀ (m s t : Machine) (ops : List KernelOp), notmainInit.run m = .ok () s →
    (∀ op ∈ ops, op.Pages) → (forM ops KernelOp.run : Kern PUnit).run s = .ok ⟨⟩ t → GlobalsMapped t.vm →
    ∀ asid page f, asid = kernelAsid ∨ asid = childAsid → InTlb t.trace (asid, page) f →
      f.word = wordSince s t asid page := by
  intro hall
  obtain ⟨s, u, e, hboot, hmem, hexec, howner⟩ := ownerProgram_run
  obtain ⟨t, w, hgrow, ⟨old, htrace⟩, ⟨htable, hasid, httbr⟩, httbr', hpriv, hglobals, hzero⟩ :=
    kernelSbrk_clears howner
  let run : KernelOp := .exec (sectorDisk (ownerProgram returnCode)) 2 sectorFs
    (sectorFile (ownerProgram returnCode)) []
  let ops : List KernelOp := [run, .grow ⟨2 ^ 20, by decide⟩]
  have hrun : (forM ops KernelOp.run : Kern PUnit).run s = .ok ⟨⟩ t := by
    have hop : (KernelOp.grow ⟨2 ^ 20, by decide⟩).run.run u = .ok () t := bind_ok hgrow
    have hfirst : run.run.run s = .ok () u := hexec
    rw [List.forM_cons, bind_ok hfirst, List.forM_cons, bind_ok hop]
    rfl
  have hruns : t.vm.Runs kernelAsid := by
    have htakes := Takes.ops ops s (notmainInit_translating hboot)
    rw [hrun] at htakes
    exact htakes.runs
  -- the walk of page 1 is done before the table is cleared
  have hcached : InTlb t.trace (kernelAsid, 1) (t.vm.table kernelAsid 1) := by
    rw [htrace]
    refine .keep (.keep (.load ⟨?_, by decide, ?_, hpriv⟩) id) id
    · exact (hasid.trans hruns.asid).symm
    · rw [htable, httbr, httbr']
  have hentry := hall _ s t ops hboot (by simp [ops, run, KernelOp.Pages]) hrun hglobals kernelAsid 1 _
    (.inl rfl) hcached
  have hword : wordAt t.mem (fldAddr kernelAsid 1) = 0 := by
    have hfld : ∀ i < 4, t.mem (fldAddr kernelAsid 1 + i) = 0 := by
      intro i hi
      have haddr : fldAddr kernelAsid 1 + i = transTableAddr + (0x4004 + i) := by
        change 0x104004 + i = 0x100000 + (0x4004 + i)
        omega
      rw [haddr]
      exact hzero _ (by omega)
    have hfirst : t.mem (fldAddr kernelAsid 1) = 0 := hfld 0 (by decide)
    unfold wordAt
    rw [hfld 3 (by decide), hfld 2 (by decide), hfld 1 (by decide), hfirst]
    rfl
  have hbefore : wordAt s.mem (fldAddr kernelAsid 1) = 0x01010101 := by
    rw [hmem]
    rfl
  have hnow : wordSince s t kernelAsid 1 = 0 := by
    unfold wordSince
    dsimp only
    rw [hword, hbefore, if_neg (by decide)]
  have htag : (2 : BitVec 2) = 0 := by
    rw [← hpriv.1, ← word_tag, hentry, hnow]
    rfl
  exact absurd htag (by decide)

end Refuted

end SimplePiOS.Kernel
