import SimplePiOS.Kernel.SyscallSteps

/-! What a file asks `elf_load` for. The loader only reads the file, so everything it maps and
everything it returns is a function of the bytes the kernel sees; a `Plan` is such a list of
requests, and `elf_load` carries out the plan of its file. -/
namespace SimplePiOS.Kernel
open Lib Libpi

/-- Ranges to map and a heap start to record, up to the end of the loader. -/
inductive Plan (α : Type) where
  | ret (a : α)
  | stop (e : Stop)
  | map (addr size : ℕ) (next : Plan α)
  | setHeapStart (addr : ℕ) (next : Plan α)

namespace Plan
variable {α β : Type}

def bind : Plan α → (α → Plan β) → Plan β
  | ret a, f => f a
  | stop e, _ => stop e
  | map addr size next, f => map addr size (next.bind f)
  | setHeapStart addr next, f => setHeapStart addr (next.bind f)

instance : Monad Plan where
  pure := ret
  bind := bind

/-- What is mapped, in order. -/
def ranges : Plan α → List (ℕ × ℕ)
  | ret _ => []
  | stop _ => []
  | map addr size next => (addr, size) :: next.ranges
  | setHeapStart _ next => next.ranges

/-- How it ends, given memory enough. -/
def result : Plan α → Except Stop α
  | ret a => .ok a
  | stop e => .error e
  | map _ _ next => next.result
  | setHeapStart _ next => next.result

/-- The heap start recorded last. -/
def heapStart : Plan α → ℕ → ℕ
  | ret _, h => h
  | stop _, h => h
  | map _ _ next, h => next.heapStart h
  | setHeapStart addr next, _ => next.heapStart addr

end Plan

def Vm.setHeapStart (v : Vm) (addr : ℕ) : Vm :=
  { v with frame := v.frame.map fun f => { f with proc := { f.proc with heapStart := addr } } }

/-- Carry out a plan for the table `pt`. -/
def Plan.exec {α : Type} (pt : Asid) : Plan α → Kern α
  | ret a => pure a
  | stop e => throw e
  | map addr size next => do
    mmuMapToMem pt addr size false
    next.exec pt
  | setHeapStart addr next => do
    perform .update (·.setHeapStart addr)
    next.exec pt

namespace View
variable (w : View)

def byte (a : ℕ) : Plan UInt8 :=
  match w a with
  | some b => .ret b
  | none => .stop (.dataAbort (a % 2 ^ 32))

def load16 (a : ℕ) : Plan ℕ := do
  let b0 ← w.byte a
  let b1 ← w.byte (a + 1)
  return b0.toNat + 2 ^ 8 * b1.toNat

def load32 (a : ℕ) : Plan ℕ := do
  let h0 ← w.load16 a
  let h1 ← w.load16 (a + 2)
  return h0 + 2 ^ 16 * h1

def strcmpEq : ℕ → List UInt8 → Plan Bool
  | a, [] => do
    let c ← w.byte a
    return c == 0
  | a, l :: ls => do
    let c ← w.byte a
    if c == l then strcmpEq (a + 1) ls else return false

def strncmpEq : ℕ → List UInt8 → Plan Bool
  | _, [] => return true
  | a, l :: ls => do
    let c ← w.byte a
    if c == l then strncmpEq (a + 1) ls else return false

def assert (p : Prop) [Decidable p] (msg : String) : Plan Unit :=
  if p then .ret () else .stop (.panic msg)

def emitInstr (instrLst : List LoadInstr) (instr : LoadInstr) : Plan (List LoadInstr) := do
  assert (instrLst.length ≠ instrLstCapacity) "load instruction list capacity too small"
  return instrLst ++ [instr]

def loadPhdrs (fileData phdrTab : ℕ) : List ℕ → List LoadInstr → Plan (Option (List LoadInstr))
  | [], instrLst => return some instrLst
  | i :: is, instrLst => do
    let phdr := phdrAt phdrTab i
    let ty ← w.load32 phdr
    if ty = ptLoad then
      let vaddr ← w.load32 (phdr + 8)
      let filesz ← w.load32 (phdr + 16)
      .map vaddr filesz do
        let offset ← w.load32 (phdr + 4)
        let instrLst ← emitInstr instrLst (.copy vaddr (add32 fileData offset) filesz)
        loadPhdrs fileData phdrTab is instrLst
    else return none

def locateSymbolTable (shdrTab : ℕ) : List ℕ → Plan ℕ
  | [] => return 0
  | i :: is => do
    let shdr := shdrAt shdrTab i
    if (← w.load32 (shdr + 4)) = shtSymtab then
      assert ((← w.load32 (shdr + 36)) = 16) "symbol table entsize is wrong"
      return (← w.load32 (shdr + 20)) / 16
    else locateSymbolTable shdrTab is

def sectionNameEq (shStrTab shdr : ℕ) (name : List UInt8) : Plan Bool := do
  let off ← w.load32 shdr
  w.strcmpEq (add32 shStrTab off) name

def initBssSections (shdrTab shStrTab : ℕ) : List ℕ → List LoadInstr → Plan (List LoadInstr)
  | [], instrLst => return instrLst
  | i :: is, instrLst => do
    let shdr := shdrAt shdrTab i
    if (← w.load32 (shdr + 4)) = shtNobits then
      if ← w.sectionNameEq shStrTab shdr bssName then
        let addr ← w.load32 (shdr + 12)
        let size ← w.load32 (shdr + 20)
        .map addr size do
          let instrLst ← emitInstr instrLst (.zero addr size)
          initBssSections shdrTab shStrTab is instrLst
      else initBssSections shdrTab shStrTab is instrLst
    else initBssSections shdrTab shStrTab is instrLst

def isHeapBelow (shStrTab shdr : ℕ) : Plan Bool := do
  let name := add32 shStrTab (← w.load32 shdr)
  let ty ← w.load32 (shdr + 4)
  if ty = shtNobits then w.strcmpEq name bssName
  else if ty = shtProgbits then
    if ← w.strcmpEq name dataName then return true
    else w.strcmpEq name data1Name
  else return false

def getHeapAddress (shdrTab shStrTab : ℕ) : List ℕ → ℕ → Plan ℕ
  | [], heapAddr => return heapAddr
  | i :: is, heapAddr => do
    let shdr := shdrAt shdrTab i
    if ← w.isHeapBelow shStrTab shdr then
      let addr ← w.load32 (shdr + 12)
      let size ← w.load32 (shdr + 20)
      getHeapAddress shdrTab shStrTab is (max heapAddr (add32 addr size))
    else getHeapAddress shdrTab shStrTab is heapAddr

def locateTextSection (shdrTab shStrTab : ℕ) : List ℕ → Plan (Option ℕ)
  | [] => return none
  | i :: is => do
    let shdr := shdrAt shdrTab i
    if (← w.load32 (shdr + 4)) = shtProgbits then
      if ← w.sectionNameEq shStrTab shdr textName then return some shdr
      else locateTextSection shdrTab shStrTab is
    else locateTextSection shdrTab shStrTab is

/-- The loader behind the check of the magic number. -/
def loadElf (fileData : ℕ) : Plan (Option (List LoadInstr)) := do
  let ehdr := fileData
  if (← w.load16 (ehdr + 16)) ≠ 2 then return none
  let phdrTab := add32 fileData (← w.load32 (ehdr + 28))
  let shdrTab := add32 fileData (← w.load32 (ehdr + 32))
  let shstrndx ← w.load16 (ehdr + 50)
  let shStrTab := add32 fileData (← w.load32 (shdrAt shdrTab shstrndx + 16))
  let phnum ← w.load16 (ehdr + 44)
  match ← w.loadPhdrs fileData phdrTab (List.range phnum) [] with
  | none => return none
  | some instrLst =>
    let shdrs := List.range (← w.load16 (ehdr + 48))
    if (← w.locateSymbolTable shdrTab shdrs) = 0 then return none
    let instrLst ← w.initBssSections shdrTab shStrTab shdrs instrLst
    let heapStart ← w.getHeapAddress shdrTab shStrTab shdrs 0
    .setHeapStart heapStart do
      match ← w.locateTextSection shdrTab shStrTab shdrs with
      | none => return none
      | some textSh =>
        let addr ← w.load32 (textSh + 12)
        return some (← emitInstr instrLst (.jump addr))

/-- The whole of `elf_load` on a file of `nData` bytes. -/
def elfLoad (fileData nData : ℕ) : Plan (Option (List LoadInstr)) := do
  if nData < 52 then return none
  if !(← w.strncmpEq fileData [0x7f, 0x45, 0x4c, 0x46]) then return none
  w.loadElf fileData

/-- The file is long enough but has another magic number; the loader then clears a byte of it. -/
def badMagic (fileData nData : ℕ) : Bool :=
  52 ≤ nData && match (w.strncmpEq fileData [0x7f, 0x45, 0x4c, 0x46]).result with
    | .ok eq => !eq
    | .error _ => false

end View

/-- The kernel's table is active, and memory reads as `w`. -/
def Reads (w : View) (s : Machine) : Prop := s.vm.ttbr = kernelAsid ∧ s.view = w

theorem view_congr {s t : Machine} (htable : t.vm.fldAt = s.vm.fldAt) (hmem : t.mem = s.mem) :
    t.view = s.view := by
  unfold Machine.view
  rw [htable, hmem]

theorem fldAt_setFld {v : Vm} {pt : Asid} (h : v.ttbr ≠ pt) (page : ℕ) (f : Fld)
    (fl : MapFlags) : (v.setFld pt page f fl).fldAt = v.fldAt := by
  funext va
  unfold Vm.fldAt
  rw [setFld_table]
  simp [h]

/-- A mapping for a table that is not active does not change what is read. -/
theorem steps_mapPage_reads {w : View} {pt : Asid} (hpt : pt ≠ kernelAsid) (sync : Bool)
    (page : ℕ) {H : Moment → Prop} :
    Steps H (fun _ => True) (Reads w) (mapPage pt sync page) fun _ => Reads w := by
  apply Steps.mapPage (fun _ => Reads w) (fun _ => Reads w) (fun _ => Reads w)
  · rintro s sec - - - ⟨httbr, hview⟩ -
    exact ⟨⟨httbr, (view_congr rfl rfl).trans hview⟩, trivial⟩
  · rintro s sec - - ⟨httbr, hview⟩ -
    have hother : s.vm.ttbr ≠ pt := httbr ▸ hpt.symm
    have hsame : (s.step .update (·.setFld pt page (ramFld sec sync) (ramFlags sync))).view =
        s.view := view_congr (fldAt_setFld hother page _ _) rfl
    exact ⟨⟨httbr, hsame.trans hview⟩, trivial⟩
  · rintro s sec - ⟨httbr, hview⟩ -
    exact ⟨⟨httbr, (view_congr rfl rfl).trans hview⟩, trivial⟩
  · exact fun _ _ _ h => h
  · rintro s sec ⟨httbr, hview⟩ -
    exact ⟨⟨httbr, (view_congr rfl rfl).trans hview⟩, trivial⟩

theorem steps_mmuMapToMem_reads {w : View} {pt : Asid} (hpt : pt ≠ kernelAsid)
    (addr size : ℕ) (sync : Bool) {H : Moment → Prop} :
    Steps H (fun _ => True) (Reads w) (mmuMapToMem pt addr size sync) fun _ => Reads w :=
  .forM_keeps fun page _ => steps_mapPage_reads hpt sync page

section Follows
variable {w : View} {α β : Type}

/-- On memory that reads as `w` the computation carries out the plan for the child. -/
def Follows (w : View) (m : Kern α) (p : Plan α) : Prop :=
  ∀ s, Reads w s → m.run s = (p.exec childAsid).run s

/-- Carrying out a plan does not change what is read. -/
theorem exec_reads (p : Plan α) : Triple (Reads w) (p.exec childAsid) (fun _ => Reads w)
    fun _ => True := by
  induction p with
  | ret a => exact .pure fun _ hs => hs
  | stop e => exact .throw fun _ _ => trivial
  | map addr size next ih =>
    exact .bind (steps_mmuMapToMem_reads (by decide) addr size false).triple fun _ => ih
  | setHeapStart addr next ih =>
    refine .bind (Q := fun _ => Reads w) ?_ fun _ => ih
    rintro s ⟨httbr, hview⟩
    exact ⟨httbr, (view_congr rfl rfl).trans hview⟩

theorem exec_bind (p : Plan α) (f : α → Plan β) :
    (p >>= f).exec childAsid = p.exec childAsid >>= fun a => (f a).exec childAsid := by
  induction p with
  | ret a => rfl
  | stop e => rfl
  | map addr size next ih =>
    change (mmuMapToMem childAsid addr size false >>= fun _ => (next >>= f).exec childAsid) =
      (mmuMapToMem childAsid addr size false >>= fun _ => next.exec childAsid) >>= _
    rw [ih, bind_assoc]
  | setHeapStart addr next ih =>
    change (perform .update (·.setHeapStart addr) >>= fun _ => (next >>= f).exec childAsid) =
      (perform .update (·.setHeapStart addr) >>= fun _ => next.exec childAsid) >>= _
    rw [ih, bind_assoc]

namespace Follows

theorem pure (a : α) : Follows w (Pure.pure a) (Pure.pure a) := fun _ _ => rfl

theorem bind {m : Kern α} {p : Plan α} {f : α → Kern β} {g : α → Plan β} (hm : Follows w m p)
    (hf : ∀ a, Follows w (f a) (g a)) : Follows w (m >>= f) (p >>= g) := by
  intro s hs
  rw [exec_bind]
  have hreads := exec_reads p s hs
  have hrun := hm s hs
  cases hr : (p.exec childAsid).run s with
  | ok a t =>
    rw [hr] at hreads hrun
    rw [bind_ok hrun, bind_ok hr]
    exact hf a t hreads
  | error e t =>
    rw [hr] at hrun
    rw [bind_error hrun, bind_error hr]

theorem ite {c : Prop} [Decidable c] {m m' : Kern α} {p p' : Plan α} (h : Follows w m p)
    (h' : Follows w m' p') : Follows w (if c then m else m') (if c then p else p') := by
  split
  · exact h
  · exact h'

theorem map {f : Kern α} {p : Plan α} (addr size : ℕ) (h : Follows w f p) :
    Follows w (do mmuMapToMem childAsid addr size false; f) (.map addr size p) := by
  have hstep : Follows w (mmuMapToMem childAsid addr size false)
      (.map addr size (Pure.pure ())) := fun _ _ => by
    change _ = (mmuMapToMem childAsid addr size false >>= fun _ => Pure.pure ()).run _
    simp
  exact bind hstep fun _ => h

theorem setHeapStart {f : Kern α} {p : Plan α} (addr : ℕ) (h : Follows w f p) :
    Follows w (do perform .update (·.setHeapStart addr); f) (.setHeapStart addr p) := by
  have hstep : Follows w (perform .update (·.setHeapStart addr))
      (.setHeapStart addr (Pure.pure ())) := fun _ _ => by
    change _ = (perform .update (·.setHeapStart addr) >>= fun _ => Pure.pure ()).run _
    simp
  exact bind hstep fun _ => h

theorem byte (a : ℕ) : Follows w (mmu.load a) (w.byte a) := by
  rintro s ⟨-, hview⟩
  have hload : (mmu.load a).run s = _ := run_loadByte a s
  rw [hload, hview]
  unfold View.byte
  cases w a <;> rfl

theorem load16 (a : ℕ) : Follows w (load16 mmu a) (w.load16 a) :=
  .bind (byte a) fun _ => .bind (byte (a + 1)) fun _ => .pure _

theorem load32 (a : ℕ) : Follows w (load32 mmu a) (w.load32 a) :=
  .bind (load16 a) fun _ => .bind (load16 (a + 2)) fun _ => .pure _

theorem strcmpEq (a : ℕ) (l : List UInt8) : Follows w (strcmpEq mmu a l) (w.strcmpEq a l) := by
  induction l generalizing a with
  | nil => exact .bind (byte a) fun _ => .pure _
  | cons c l ih => exact .bind (byte a) fun _ => .ite (ih (a + 1)) (.pure _)

theorem strncmpEq (a : ℕ) (l : List UInt8) : Follows w (strncmpEq mmu a l) (w.strncmpEq a l) := by
  induction l generalizing a with
  | nil => exact .pure _
  | cons c l ih => exact .bind (byte a) fun _ => .ite (ih (a + 1)) (.pure _)

theorem assert (p : Prop) [Decidable p] (msg : String) :
    Follows w (assert p msg) (View.assert p msg) := by
  intro s _
  unfold Libpi.assert View.assert
  split <;> rfl

theorem emitInstr (instrLst : List LoadInstr) (instr : LoadInstr) :
    Follows w (emitInstr instrLst instr) (View.emitInstr instrLst instr) :=
  .bind (assert _ _) fun _ => .pure _

theorem loadPhdrs (fileData phdrTab : ℕ) (is : List ℕ) (instrLst : List LoadInstr) :
    Follows w (loadPhdrs childAsid fileData phdrTab is instrLst)
      (w.loadPhdrs fileData phdrTab is instrLst) := by
  induction is generalizing instrLst with
  | nil => exact .pure _
  | cons i is ih =>
    apply bind (load32 _)
    intro ty
    apply ite
    · apply bind (load32 _)
      intro vaddr
      apply bind (load32 _)
      intro filesz
      apply map
      apply bind (load32 _)
      intro offset
      exact .bind (emitInstr _ _) fun _ => ih _
    · exact .pure _

theorem locateSymbolTable (shdrTab : ℕ) (is : List ℕ) :
    Follows w (locateSymbolTable shdrTab is) (w.locateSymbolTable shdrTab is) := by
  induction is with
  | nil => exact .pure _
  | cons i is ih =>
    apply bind (load32 _)
    intro ty
    apply ite
    · apply bind (load32 _)
      intro entsize
      apply bind (assert _ _)
      intro _
      exact .bind (load32 _) fun _ => .pure _
    · exact ih

theorem sectionNameEq (shStrTab shdr : ℕ) (name : List UInt8) :
    Follows w (sectionNameEq shStrTab shdr name) (w.sectionNameEq shStrTab shdr name) :=
  .bind (load32 _) fun _ => strcmpEq _ _

theorem initBssSections (shdrTab shStrTab : ℕ) (is : List ℕ) (instrLst : List LoadInstr) :
    Follows w (initBssSections childAsid shdrTab shStrTab is instrLst)
      (w.initBssSections shdrTab shStrTab is instrLst) := by
  induction is generalizing instrLst with
  | nil => exact .pure _
  | cons i is ih =>
    apply bind (load32 _)
    intro ty
    apply ite
    · apply bind (sectionNameEq _ _ _)
      intro bss
      apply ite
      · apply bind (load32 _)
        intro addr
        apply bind (load32 _)
        intro size
        apply map
        exact .bind (emitInstr _ _) fun _ => ih _
      · exact ih _
    · exact ih _

theorem isHeapBelow (shStrTab shdr : ℕ) :
    Follows w (isHeapBelow shStrTab shdr) (w.isHeapBelow shStrTab shdr) := by
  apply bind (load32 _)
  intro off
  apply bind (load32 _)
  intro ty
  apply ite (strcmpEq _ _)
  apply ite
  · exact .bind (strcmpEq _ _) fun _ => .ite (.pure _) (strcmpEq _ _)
  · exact .pure _

theorem getHeapAddress (shdrTab shStrTab : ℕ) (is : List ℕ) (heapAddr : ℕ) :
    Follows w (getHeapAddress shdrTab shStrTab is heapAddr)
      (w.getHeapAddress shdrTab shStrTab is heapAddr) := by
  induction is generalizing heapAddr with
  | nil => exact .pure _
  | cons i is ih =>
    apply bind (isHeapBelow _ _)
    intro below
    apply ite
    · apply bind (load32 _)
      intro addr
      exact .bind (load32 _) fun _ => ih _
    · exact ih _

theorem locateTextSection (shdrTab shStrTab : ℕ) (is : List ℕ) :
    Follows w (locateTextSection shdrTab shStrTab is) (w.locateTextSection shdrTab shStrTab is) := by
  induction is with
  | nil => exact .pure _
  | cons i is ih =>
    apply bind (load32 _)
    intro ty
    apply ite
    · exact .bind (sectionNameEq _ _ _) fun _ => .ite (.pure _) ih
    · exact ih

end Follows
end Follows

/-- `elf_load` behind the check of the magic number. -/
def loadElf (fileData : ℕ) (pt : Asid) : Kern (Option (List LoadInstr)) := do
  let ehdr := fileData
  if (← load16 mmu (ehdr + 16)) ≠ 2 then return none
  let phdrTab := add32 fileData (← load32 mmu (ehdr + 28))
  let shdrTab := add32 fileData (← load32 mmu (ehdr + 32))
  let shstrndx ← load16 mmu (ehdr + 50)
  let shStrTab := add32 fileData (← shOffset (shdrAt shdrTab shstrndx))
  let phnum ← load16 mmu (ehdr + 44)
  match ← loadPhdrs pt fileData phdrTab (List.range phnum) [] with
  | none => return none
  | some instrLst =>
    let shdrs := List.range (← load16 mmu (ehdr + 48))
    if (← locateSymbolTable shdrTab shdrs) = 0 then return none
    let instrLst ← initBssSections pt shdrTab shStrTab shdrs instrLst
    let heapStart ← getHeapAddress shdrTab shStrTab shdrs 0
    perform .update (·.setHeapStart heapStart)
    match ← locateTextSection shdrTab shStrTab shdrs with
    | none => return none
    | some textSh =>
      let addr ← shAddr textSh
      return some (← emitInstr instrLst (.jump addr))

theorem elfLoadBody_eq (fileData nData : ℕ) (pt : Asid) : elfLoadBody fileData nData pt = (do
    if nData < 52 then return none
    if !(← elfMagicValid fileData) then
      storeByte (fileData + 4) 0
      return none
    loadElf fileData pt) := rfl

section Load
variable {w : View}

theorem follows_loadElf (fileData : ℕ) :
    Follows w (loadElf fileData childAsid) (w.loadElf fileData) := by
  apply Follows.bind (.load16 _)
  intro ty
  apply Follows.ite
  · exact .pure _
  apply Follows.bind (.load32 _)
  intro phoff
  apply Follows.bind (.load32 _)
  intro shoff
  apply Follows.bind (.load16 _)
  intro shstrndx
  apply Follows.bind (.load32 _)
  intro shStrOff
  apply Follows.bind (.load16 _)
  intro phnum
  apply Follows.bind (.loadPhdrs _ _ _ _)
  intro r
  cases r with
  | none => exact .pure _
  | some instrLst =>
    apply Follows.bind (.load16 _)
    intro shnum
    apply Follows.bind (.locateSymbolTable _ _)
    intro n
    apply Follows.ite
    · exact .pure _
    apply Follows.bind (.initBssSections _ _ _ _)
    intro instrLst
    apply Follows.bind (.getHeapAddress _ _ _ _)
    intro heapStart
    apply Follows.setHeapStart
    apply Follows.bind (.locateTextSection _ _ _)
    intro text
    cases text with
    | none => exact .pure _
    | some textSh =>
      apply Follows.bind (.load32 _)
      intro addr
      exact .bind (.emitInstr _ _) fun _ => .pure _

/-- Reading has no requests. -/
theorem strncmpEq_cases (w : View) (a : ℕ) (l : List UInt8) :
    (∃ eq, w.strncmpEq a l = .ret eq) ∨ ∃ e, w.strncmpEq a l = .stop e := by
  induction l generalizing a with
  | nil => exact .inl ⟨true, rfl⟩
  | cons c l ih =>
    unfold View.strncmpEq View.byte
    cases w a with
    | none => exact .inr ⟨_, rfl⟩
    | some b =>
      change (∃ eq, (if b == c then w.strncmpEq (a + 1) l else .ret false) = .ret eq) ∨
        ∃ e, (if b == c then w.strncmpEq (a + 1) l else .ret false) = .stop e
      split
      · exact ih (a + 1)
      · exact .inl ⟨false, rfl⟩

theorem elfLoad_short {fileData nData : ℕ} (h : nData < 52) : w.elfLoad fileData nData = .ret none := by
  unfold View.elfLoad
  rw [if_pos h]
  rfl

theorem elfLoad_magic {fileData nData : ℕ} {eq : Bool} (h : ¬ nData < 52)
    (hmagic : w.strncmpEq fileData [0x7f, 0x45, 0x4c, 0x46] = .ret eq) :
    w.elfLoad fileData nData = if eq then w.loadElf fileData else .ret none := by
  unfold View.elfLoad
  rw [if_neg h, hmagic]
  cases eq <;> rfl

/-- What the two ends of the loader have in common: short files and files of another kind. -/
theorem elfLoadBody_badMagic {fileData nData : ℕ} (h : w.badMagic fileData nData) :
    w.elfLoad fileData nData = .ret none ∧ ∀ s, Reads w s →
      (elfLoadBody fileData nData childAsid).run s =
        (do storeByte (fileData + 4) 0; return none).run s := by
  unfold View.badMagic at h
  obtain ⟨hlen, hres⟩ := Bool.and_eq_true_iff.mp h
  have hlong : ¬ nData < 52 := Nat.not_lt.mpr (of_decide_eq_true hlen)
  rcases strncmpEq_cases w fileData [0x7f, 0x45, 0x4c, 0x46] with ⟨eq, hmagic⟩ | ⟨e, hmagic⟩
  · rw [hmagic] at hres
    cases eq with
    | true => simp [Plan.result] at hres
    | false =>
      refine ⟨elfLoad_magic hlong hmagic, ?_⟩
      intro s hs
      have hrun : (elfMagicValid fileData).run s = _ := Follows.strncmpEq _ _ s hs
      rw [hmagic] at hrun
      rw [elfLoadBody_eq, if_neg hlong, bind_ok hrun]
      rfl
  · rw [hmagic] at hres
    simp [Plan.result] at hres

/-- `elf_load` carries out the plan of its file. -/
theorem elfLoadBody_run {fileData nData : ℕ} (h : ¬ w.badMagic fileData nData) {s : Machine}
    (hs : Reads w s) : (elfLoadBody fileData nData childAsid).run s =
      ((w.elfLoad fileData nData).exec childAsid).run s := by
  rw [elfLoadBody_eq]
  by_cases hlen : nData < 52
  · rw [elfLoad_short hlen, if_pos hlen]
    rfl
  · have hrun : (elfMagicValid fileData).run s = _ := Follows.strncmpEq _ _ s hs
    rw [if_neg hlen]
    rcases strncmpEq_cases w fileData [0x7f, 0x45, 0x4c, 0x46] with ⟨eq, hmagic⟩ | ⟨e, hmagic⟩
    · cases eq with
      | false =>
        refine absurd ?_ h
        unfold View.badMagic
        simp [hmagic, Plan.result, Nat.not_lt.mp hlen]
      | true =>
        rw [elfLoad_magic hlen hmagic]
        rw [hmagic] at hrun
        rw [bind_ok hrun]
        exact follows_loadElf fileData s hs
    · rw [hmagic] at hrun
      unfold View.elfLoad
      rw [if_neg hlen, bind_error hrun, hmagic]
      rfl

end Load

/-- What `elf_load` keeps: whatever the memory, its mappings and the update of the heap start keep. -/
structure LoaderKeeps (pt : Asid) (I E : Machine → Prop) : Prop extends BusKeeps mmu I E where
  mapOp : ∀ m addr size, m = mmuMapToMem pt addr size false → Keeps I E m
  startOp : ∀ m addr, m = perform .update (·.setHeapStart addr) → Keeps I E m

namespace LoaderKeeps
variable {pt : Asid} {I E : Machine → Prop}

theorem map (h : LoaderKeeps pt I E) (addr size : ℕ) : Keeps I E (mmuMapToMem pt addr size false) :=
  h.mapOp _ addr size rfl

theorem start (h : LoaderKeeps pt I E) (addr : ℕ) :
    Keeps I E (perform .update (·.setHeapStart addr)) :=
  h.startOp _ addr rfl

theorem emitInstr (h : LoaderKeeps pt I E) (instrLst : List LoadInstr) (instr : LoadInstr) :
    Keeps I E (emitInstr instrLst instr) :=
  .bind (h.assert _ _) fun _ => .pure fun _ hs => hs

theorem loadPhdrs (h : LoaderKeeps pt I E) (fileData phdrTab : ℕ) (is : List ℕ)
    (instrLst : List LoadInstr) : Keeps I E (loadPhdrs pt fileData phdrTab is instrLst) := by
  induction is generalizing instrLst with
  | nil => exact .pure fun _ hs => hs
  | cons i is ih =>
    refine .bind (h.load32 _) fun ty => .ite (fun _ => ?_) fun _ => .pure fun _ hs => hs
    refine .bind (h.load32 _) fun vaddr => ?_
    refine .bind (h.load32 _) fun filesz => ?_
    refine .bind (h.map _ _) fun _ => ?_
    refine .bind (h.load32 _) fun offset => ?_
    exact .bind (h.emitInstr _ _) fun _ => ih _

theorem locateSymbolTable (h : LoaderKeeps pt I E) (shdrTab : ℕ) (is : List ℕ) :
    Keeps I E (locateSymbolTable shdrTab is) := by
  induction is with
  | nil => exact .pure fun _ hs => hs
  | cons i is ih =>
    refine .bind (h.load32 _) fun ty => .ite (fun _ => ?_) fun _ => ih
    refine .bind (h.load32 _) fun entsize => ?_
    refine .bind (h.assert _ _) fun _ => ?_
    exact .bind (h.load32 _) fun _ => .pure fun _ hs => hs

theorem sectionNameEq (h : LoaderKeeps pt I E) (shStrTab shdr : ℕ) (name : List UInt8) :
    Keeps I E (sectionNameEq shStrTab shdr name) :=
  .bind (h.load32 _) fun _ => h.strcmpEq _ _

theorem initBssSections (h : LoaderKeeps pt I E) (shdrTab shStrTab : ℕ) (is : List ℕ)
    (instrLst : List LoadInstr) : Keeps I E (initBssSections pt shdrTab shStrTab is instrLst) := by
  induction is generalizing instrLst with
  | nil => exact .pure fun _ hs => hs
  | cons i is ih =>
    refine .bind (h.load32 _) fun ty => .ite (fun _ => ?_) fun _ => ih _
    refine .bind (h.sectionNameEq _ _ _) fun bss => .ite (fun _ => ?_) fun _ => ih _
    refine .bind (h.load32 _) fun addr => ?_
    refine .bind (h.load32 _) fun size => ?_
    refine .bind (h.map _ _) fun _ => ?_
    exact .bind (h.emitInstr _ _) fun _ => ih _

theorem isHeapBelow (h : LoaderKeeps pt I E) (shStrTab shdr : ℕ) :
    Keeps I E (isHeapBelow shStrTab shdr) := by
  refine .bind (h.load32 _) fun off => ?_
  refine .bind (h.load32 _) fun ty => .ite (fun _ => h.strcmpEq _ _) fun _ => ?_
  refine .ite (fun _ => ?_) fun _ => .pure fun _ hs => hs
  refine .bind (h.strcmpEq _ _) fun _ => ?_
  exact .ite (fun _ => .pure fun _ hs => hs) fun _ => h.strcmpEq _ _

theorem getHeapAddress (h : LoaderKeeps pt I E) (shdrTab shStrTab : ℕ) (is : List ℕ) (heapAddr : ℕ) :
    Keeps I E (getHeapAddress shdrTab shStrTab is heapAddr) := by
  induction is generalizing heapAddr with
  | nil => exact .pure fun _ hs => hs
  | cons i is ih =>
    refine .bind (h.isHeapBelow _ _) fun below => .ite (fun _ => ?_) fun _ => ih _
    refine .bind (h.load32 _) fun addr => ?_
    exact .bind (h.load32 _) fun _ => ih _

theorem locateTextSection (h : LoaderKeeps pt I E) (shdrTab shStrTab : ℕ) (is : List ℕ) :
    Keeps I E (locateTextSection shdrTab shStrTab is) := by
  induction is with
  | nil => exact .pure fun _ hs => hs
  | cons i is ih =>
    refine .bind (h.load32 _) fun ty => .ite (fun _ => ?_) fun _ => ih
    exact .bind (h.sectionNameEq _ _ _) fun _ => .ite (fun _ => .pure fun _ hs => hs) fun _ => ih

theorem loadElf (h : LoaderKeeps pt I E) (fileData : ℕ) : Keeps I E (loadElf fileData pt) := by
  refine .bind (h.load16 _) fun ty => .ite (fun _ => .pure fun _ hs => hs) fun _ => ?_
  refine .bind (h.load32 _) fun phoff => ?_
  refine .bind (h.load32 _) fun shoff => ?_
  refine .bind (h.load16 _) fun shstrndx => ?_
  refine .bind (h.load32 _) fun shStrOff => ?_
  refine .bind (h.load16 _) fun phnum => ?_
  refine .bind (h.loadPhdrs _ _ _ _) fun r => ?_
  cases r with
  | none => exact .pure fun _ hs => hs
  | some instrLst =>
    refine .bind (h.load16 _) fun shnum => ?_
    refine .bind (h.locateSymbolTable _ _) fun n => .ite (fun _ => .pure fun _ hs => hs) fun _ => ?_
    refine .bind (h.initBssSections _ _ _ _) fun instrLst => ?_
    refine .bind (h.getHeapAddress _ _ _ _) fun heapStart => ?_
    refine .bind (h.start _) fun _ => ?_
    refine .bind (h.locateTextSection _ _ _) fun text => ?_
    cases text with
    | none => exact .pure fun _ hs => hs
    | some textSh =>
      refine .bind (h.load32 _) fun addr => ?_
      exact .bind (h.emitInstr _ _) fun _ => .pure fun _ hs => hs

theorem elfLoadBody (h : LoaderKeeps pt I E) (fileData nData : ℕ) :
    Keeps I E (elfLoadBody fileData nData pt) := by
  rw [elfLoadBody_eq]
  refine .ite (fun _ => .pure fun _ hs => hs) fun _ => ?_
  refine .bind (h.strncmpEq _ _) fun eq => .ite (fun _ => ?_) fun _ => h.loadElf _
  exact .bind (h.store _ _) fun _ => .pure fun _ hs => hs

end LoaderKeeps

section Growing

theorem growing_pure {α : Type} (a : α) : Growing (pure a : Kern α) :=
  .pure fun _ _ => trivial

theorem growing_ite {α : Type} {c : Prop} [Decidable c] {m m' : Kern α} (h : Growing m)
    (h' : Growing m') : Growing (if c then m else m') :=
  .ite (fun _ => h) fun _ => h'

theorem growing_elfLoadBody (fileData nData : ℕ) (pt : Asid) :
    Growing (elfLoadBody fileData nData pt) := by
  have hany : ∀ {α : Type} {m : Kern α}, Growing m →
      Steps Tame (fun _ => True) (OnVm fun _ => True) m fun _ => OnVm fun _ => True := fun hm =>
    hm.mono (fun _ _ => trivial) (fun _ _ _ => trivial) (fun _ _ => trivial) fun _ _ => trivial
  have hsteps : Steps Tame (fun _ => True) (OnVm fun _ => True) (elfLoadBody fileData nData pt)
      fun _ => OnVm fun _ => True := by
    apply Traced.of_extends
    intro s
    apply LoaderKeeps.elfLoadBody
    constructor
    · exact Steps.busKeeps_along (stable_onVm _).toMemStable s
    · rintro m addr size rfl
      exact (hany (growing_mmuMapToMem pt addr size false)).extends_from s
    · rintro m addr rfl
      exact (hany (growing_perform _ _)).extends_from s
  exact hsteps.grows

end Growing

section Steps
variable {H K : Moment → Prop} {w : View} {α : Type}

/-- The rule for a plan; the assertion is indexed by the heap start recorded last and by what has
been mapped. -/
theorem Steps.exec {p : Plan α} {L : ℕ → List (ℕ × ℕ) → Machine → Prop} (h : ℕ)
    (done : List (ℕ × ℕ))
    (hmap : ∀ h done, ∀ r ∈ p.ranges, Steps H K (L h done)
      (mmuMapToMem childAsid r.1 r.2 false) fun _ => L h (done ++ [r]))
    (hheap : ∀ h done addr s, L h done s → H (.update, s.vm.setHeapStart addr) →
      L addr done (s.step .update (·.setHeapStart addr)) ∧ K (.update, s.vm.setHeapStart addr)) :
    Steps H K (L h done) (p.exec childAsid) fun a s =>
      L (p.heapStart h) (done ++ p.ranges) s ∧ p.result = .ok a := by
  induction p generalizing h done with
  | ret a =>
    apply Traced.pure
    intro s hs
    exact ⟨by rwa [Plan.ranges, List.append_nil], rfl⟩
  | stop e => exact .throw
  | map addr size next ih =>
    apply Traced.bind (hmap h done (addr, size) (by simp [Plan.ranges]))
    intro _
    have hnext := ih h (done ++ [(addr, size)])
      fun h' done' r hr => hmap h' done' r (by simp [Plan.ranges, hr])
    rw [List.append_assoc] at hnext
    exact hnext
  | setHeapStart addr next ih =>
    apply Traced.bind (perform (hheap h done addr))
    intro _
    exact ih addr done hmap

/-- `elf_load` maps the ranges of its file's plan for the child, in order, and nothing else. -/
theorem Steps.elfLoad_ranges {fileData nData : ℕ} {L : ℕ → List (ℕ × ℕ) → Machine → Prop}
    {L' : Option (List LoadInstr) → Machine → Prop} (h : ℕ) (hL : Stable H K (L h []))
    (httbr : ∀ s, L h [] s → s.vm.ttbr = kernelAsid)
    (hmap : ∀ h done, ∀ r ∈ (w.elfLoad fileData nData).ranges, Steps H K (L h done)
      (mmuMapToMem childAsid r.1 r.2 false) fun _ => L h (done ++ [r]))
    (hheap : ∀ h done addr s, L h done s → H (.update, s.vm.setHeapStart addr) →
      L addr done (s.step .update (·.setHeapStart addr)) ∧ K (.update, s.vm.setHeapStart addr))
    (hret : ∀ r s, L ((w.elfLoad fileData nData).heapStart h) (w.elfLoad fileData nData).ranges s →
      (w.elfLoad fileData nData).result = .ok r → H (.ret .elfLoad, s.vm) →
      L' r (s.step (.ret .elfLoad) id) ∧ K (.ret .elfLoad, s.vm)) :
    Steps H K (fun s => L h [] s ∧ s.view = w) (Kernel.elfLoad fileData nData childAsid) L' := by
  have hbody : Steps H K (fun s => L h [] s ∧ s.view = w)
      (elfLoadBody fileData nData childAsid) fun r s =>
        L ((w.elfLoad fileData nData).heapStart h) (w.elfLoad fileData nData).ranges s ∧
          (w.elfLoad fileData nData).result = .ok r := by
    have hreads : ∀ s, L h [] s ∧ s.view = w → Reads w s := by
      rintro s ⟨hs, hview⟩
      exact ⟨httbr s hs, hview⟩
    by_cases hbad : w.badMagic fileData nData
    · obtain ⟨hplan, hrun⟩ := elfLoadBody_badMagic hbad
      apply Traced.congr (growing_elfLoadBody _ _ _) _ fun s hs => hrun s (hreads s hs)
      have hstore : Steps H K (L h []) (storeByte (fileData + 4) 0) fun _ => L h [] :=
        store hL.toMemStable _ _
      rw [hplan]
      apply Traced.bind (hstore.pre fun s hs => hs.1)
      intro _
      exact .pure fun s hs => ⟨hs, rfl⟩
    · apply Traced.congr (growing_elfLoadBody _ _ _) _
        fun s hs => elfLoadBody_run hbad (hreads s hs)
      exact (exec h [] hmap hheap).pre fun s hs => hs.1
  apply Traced.bind hbody
  intro r
  apply Traced.bind (Q := fun _ => L' r)
  · apply perform
    rintro s ⟨hs, hr⟩ hH
    exact hret r s hs hr hH
  · intro _
    exact .pure fun s hs => hs

theorem Steps.elfLoad {fileData nData : ℕ} {L : ℕ → Machine → Prop}
    {L' : Option (List LoadInstr) → Machine → Prop} (h : ℕ) (hL : Stable H K (L h))
    (httbr : ∀ s, L h s → s.vm.ttbr = kernelAsid)
    (hmap : ∀ h, ∀ r ∈ (w.elfLoad fileData nData).ranges,
      Steps H K (L h) (mmuMapToMem childAsid r.1 r.2 false) fun _ => L h)
    (hheap : ∀ h addr s, L h s → H (.update, s.vm.setHeapStart addr) →
      L addr (s.step .update (·.setHeapStart addr)) ∧ K (.update, s.vm.setHeapStart addr))
    (hret : ∀ r s, L ((w.elfLoad fileData nData).heapStart h) s →
      (w.elfLoad fileData nData).result = .ok r → H (.ret .elfLoad, s.vm) →
      L' r (s.step (.ret .elfLoad) id) ∧ K (.ret .elfLoad, s.vm)) :
    Steps H K (fun s => L h s ∧ s.view = w) (Kernel.elfLoad fileData nData childAsid) L' :=
  elfLoad_ranges (L := fun h _ => L h) h hL httbr (fun h _ => hmap h) (fun h _ => hheap h) hret

end Steps
end SimplePiOS.Kernel
