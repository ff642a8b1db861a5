import SimplePiOS.Kernel.ElfFields
import SimplePiOS.Kernel.HeapRun

/-! The loader and the end of the file. On the bytes of the file alone a plan breaks off where it
reads behind them; on any memory that holds the file a plan that does not is the same. -/
namespace SimplePiOS.Kernel
open Lib Libpi

namespace Plan
variable {α β : Type} {p p' : Plan α}

/-- The second plan is the first one, or goes on where that one misses a byte. -/
inductive Below : Plan α → Plan α → Prop where
  | refl (p : Plan α) : Below p p
  | abort (va : ℕ) (p : Plan α) : Below (stop (.dataAbort va)) p
  | map (addr size : ℕ) {p p' : Plan α} : Below p p' → Below (map addr size p) (map addr size p')
  | setHeapStart (addr : ℕ) {p p' : Plan α} :
    Below p p' → Below (setHeapStart addr p) (setHeapStart addr p')

namespace Below

theorem bind {f f' : α → Plan β} (h : Below p p') (hf : ∀ a, Below (f a) (f' a)) :
    Below (p >>= f) (p' >>= f') := by
  induction h with
  | refl p =>
    induction p with
    | ret a => exact hf a
    | stop e => exact .refl _
    | map addr size next ih => exact .map addr size ih
    | setHeapStart addr next ih => exact .setHeapStart addr ih
  | abort va p => exact .abort va _
  | map addr size _ ih => exact .map addr size ih
  | setHeapStart addr _ ih => exact .setHeapStart addr ih

theorem ite {c : Prop} [Decidable c] {q q' : Plan α} (h : Below p p') (h' : Below q q') :
    Below (if c then p else q) (if c then p' else q') := by
  split
  · exact h
  · exact h'

/-- A plan that misses nothing is the plan on more memory as well. -/
theorem eq (h : Below p p') (hno : ∀ va, p.result ≠ .error (.dataAbort va)) : p' = p := by
  induction h with
  | refl p => rfl
  | abort va p => exact absurd rfl (hno va)
  | map addr size _ ih => rw [ih hno]
  | setHeapStart addr _ ih => rw [ih hno]

end Below
end Plan

namespace View
open Plan (Below)

section More
variable {w w' : View} {fileData shdrTab shStrTab : ℕ}

/-- Whatever `w` has, `w'` has. -/
def Le (w w' : View) : Prop := ∀ a b, w a = some b → w' a = some b

theorem Le.byte (h : Le w w') (a : ℕ) : Below (w.byte a) (w'.byte a) := by
  unfold View.byte
  cases hb : w a with
  | some b =>
    rw [h a b hb]
    exact .refl _
  | none => exact .abort _ _

theorem Le.load16 (h : Le w w') (a : ℕ) : Below (w.load16 a) (w'.load16 a) :=
  (h.byte a).bind fun _ => (h.byte (a + 1)).bind fun _ => .refl _

theorem Le.load32 (h : Le w w') (a : ℕ) : Below (w.load32 a) (w'.load32 a) :=
  (h.load16 a).bind fun _ => (h.load16 (a + 2)).bind fun _ => .refl _

theorem Le.strcmpEq (h : Le w w') (a : ℕ) (l : List UInt8) :
    Below (w.strcmpEq a l) (w'.strcmpEq a l) := by
  induction l generalizing a with
  | nil => exact (h.byte a).bind fun _ => .refl _
  | cons c l ih => exact (h.byte a).bind fun _ => .ite (ih (a + 1)) (.refl _)

theorem Le.strncmpEq (h : Le w w') (a : ℕ) (l : List UInt8) :
    Below (w.strncmpEq a l) (w'.strncmpEq a l) := by
  induction l generalizing a with
  | nil => exact .refl _
  | cons c l ih => exact (h.byte a).bind fun _ => .ite (ih (a + 1)) (.refl _)

theorem Le.loadPhdrs (h : Le w w') (phdrTab : ℕ) (is : List ℕ) (instrLst : List LoadInstr) :
    Below (w.loadPhdrs fileData phdrTab is instrLst) (w'.loadPhdrs fileData phdrTab is instrLst) := by
  induction is generalizing instrLst with
  | nil => exact .refl _
  | cons i is ih =>
    apply (h.load32 _).bind
    intro ty
    apply Below.ite
    · apply (h.load32 _).bind
      intro vaddr
      apply (h.load32 _).bind
      intro filesz
      apply Below.map
      apply (h.load32 _).bind
      intro offset
      exact (Below.refl _).bind fun _ => ih _
    · exact .refl _

theorem Le.locateSymbolTable (h : Le w w') (is : List ℕ) :
    Below (w.locateSymbolTable shdrTab is) (w'.locateSymbolTable shdrTab is) := by
  induction is with
  | nil => exact .refl _
  | cons i is ih =>
    apply (h.load32 _).bind
    intro ty
    apply Below.ite
    · apply (h.load32 _).bind
      intro entsize
      apply (Below.refl _).bind
      intro _
      exact (h.load32 _).bind fun _ => .refl _
    · exact ih

theorem Le.sectionNameEq (h : Le w w') (shdr : ℕ) (name : List UInt8) :
    Below (w.sectionNameEq shStrTab shdr name) (w'.sectionNameEq shStrTab shdr name) :=
  (h.load32 _).bind fun _ => h.strcmpEq _ _

theorem Le.initBssSections (h : Le w w') (is : List ℕ) (instrLst : List LoadInstr) :
    Below (w.initBssSections shdrTab shStrTab is instrLst)
      (w'.initBssSections shdrTab shStrTab is instrLst) := by
  induction is generalizing instrLst with
  | nil => exact .refl _
  | cons i is ih =>
    apply (h.load32 _).bind
    intro ty
    apply Below.ite
    · apply (h.sectionNameEq _ _).bind
      intro bss
      apply Below.ite
      · apply (h.load32 _).bind
        intro addr
        apply (h.load32 _).bind
        intro size
        apply Below.map
        exact (Below.refl _).bind fun _ => ih _
      · exact ih _
    · exact ih _

theorem Le.isHeapBelow (h : Le w w') (shdr : ℕ) :
    Below (w.isHeapBelow shStrTab shdr) (w'.isHeapBelow shStrTab shdr) := by
  apply (h.load32 _).bind
  intro off
  apply (h.load32 _).bind
  intro ty
  apply Below.ite (h.strcmpEq _ _)
  apply Below.ite
  · exact (h.strcmpEq _ _).bind fun _ => .ite (.refl _) (h.strcmpEq _ _)
  · exact .refl _

theorem Le.getHeapAddress (h : Le w w') (is : List ℕ) (heapAddr : ℕ) :
    Below (w.getHeapAddress shdrTab shStrTab is heapAddr)
      (w'.getHeapAddress shdrTab shStrTab is heapAddr) := by
  induction is generalizing heapAddr with
  | nil => exact .refl _
  | cons i is ih =>
    apply (h.isHeapBelow _).bind
    intro below
    apply Below.ite
    · apply (h.load32 _).bind
      intro addr
      exact (h.load32 _).bind fun _ => ih _
    · exact ih _

theorem Le.locateTextSection (h : Le w w') (is : List ℕ) :
    Below (w.locateTextSection shdrTab shStrTab is) (w'.locateTextSection shdrTab shStrTab is) := by
  induction is with
  | nil => exact .refl _
  | cons i is ih =>
    apply (h.load32 _).bind
    intro ty
    apply Below.ite
    · exact (h.sectionNameEq _ _).bind fun _ => .ite (.refl _) ih
    · exact ih

theorem Le.loadElf (h : Le w w') : Below (w.loadElf fileData) (w'.loadElf fileData) := by
  apply (h.load16 _).bind
  intro ty
  apply Below.ite (.refl _)
  apply (h.load32 _).bind
  intro phoff
  apply (h.load32 _).bind
  intro shoff
  apply (h.load16 _).bind
  intro shstrndx
  apply (h.load32 _).bind
  intro shStrOff
  apply (h.load16 _).bind
  intro phnum
  apply (h.loadPhdrs _ _ _).bind
  intro r
  cases r with
  | none => exact .refl _
  | some instrLst =>
    apply (h.load16 _).bind
    intro shnum
    apply (h.locateSymbolTable _).bind
    intro n
    apply Below.ite (.refl _)
    apply (h.initBssSections _ _).bind
    intro instrLst
    apply (h.getHeapAddress _ _).bind
    intro heapStart
    apply Below.setHeapStart
    apply (h.locateTextSection _).bind
    intro text
    cases text with
    | none => exact .refl _
    | some textSh => exact (h.load32 _).bind fun _ => .refl _

theorem Le.elfLoad (h : Le w w') (nData : ℕ) :
    Below (w.elfLoad fileData nData) (w'.elfLoad fileData nData) := by
  apply Below.ite (.refl _)
  apply (h.strncmpEq _ _).bind
  intro eq
  exact .ite (.refl _) h.loadElf

end More
end View
namespace Plan
variable {α β : Type}

/-- The plan misses no byte, and what it returns satisfies `Q`. -/
def Inside (p : Plan α) (Q : α → Prop) : Prop :=
  match p.result with
  | .ok a => Q a
  | .error (.dataAbort _) => False
  | .error _ => True

theorem inside_bind (p : Plan α) (f : α → Plan β) (Q : β → Prop) :
    (p >>= f).Inside Q ↔ p.Inside fun a => (f a).Inside Q := by
  unfold Inside
  rw [result_bind]
  cases p.result with
  | ok a => rfl
  | error e => cases e <;> rfl

end Plan

namespace View
open Plan (Inside)

section Reads
variable {w : View} {α β : Type} {p : Plan α} {f : α → Plan β} {c : Prop} {a : α} {Q : β → Prop}

theorem Gets.inside_bind (h : Gets p c (.ok a)) :
    (p >>= f).Inside Q ↔ c ∧ (f a).Inside Q := by
  by_cases hc : c
  · rw [h.there hc]
    exact ⟨fun hf => ⟨hc, hf⟩, fun hf => hf.2⟩
  · obtain ⟨va, hp⟩ := h.missing hc
    rw [hp]
    exact ⟨fun hf => hf.elim, fun hf => absurd hf.1 hc⟩

/-- The same for a computation that may end in a panic. -/
theorem Gets.inside_bind_ok {r : Except Stop α} (h : Gets p c r)
    (hr : ∀ va, r ≠ .error (.dataAbort va)) :
    (p >>= f).Inside Q ↔ c ∧ ∀ a, r = .ok a → (f a).Inside Q := by
  by_cases hc : c
  · rw [h.there hc]
    cases r with
    | ok a => exact ⟨fun hf => ⟨hc, by rintro _ ⟨⟩; exact hf⟩, fun hf => hf.2 a rfl⟩
    | error e =>
      refine ⟨fun _ => ⟨hc, by rintro _ ⟨⟩⟩, fun _ => ?_⟩
      cases e with
      | dataAbort va => exact absurd rfl (hr va)
      | _ => trivial
  · obtain ⟨va, hp⟩ := h.missing hc
    rw [hp]
    exact ⟨fun hf => hf.elim, fun hf => absurd hf.1 hc⟩

theorem inside_emitInstr (instrLst : List LoadInstr) (instr : LoadInstr)
    {f : List LoadInstr → Plan β} : (emitInstr instrLst instr >>= f).Inside Q ↔
      (instrLst.length ≠ instrLstCapacity → (f (instrLst ++ [instr])).Inside Q) := by
  unfold emitInstr View.assert
  by_cases h : instrLst.length ≠ instrLstCapacity
  · rw [if_pos h]
    exact ⟨fun hf _ => hf, fun hf => hf h⟩
  · rw [if_neg h]
    exact ⟨fun _ hn => absurd hn h, fun _ => trivial⟩

end Reads

section Reached
variable {ι : Type} {r : List ι → Prop} {c : ι → Prop} {i : ι} {is : List ι}

/-- `c` holds of the elements that are reached, which depends on those in front of them. -/
def AtEach (r : List ι → Prop) (c : ι → Prop) (is : List ι) : Prop :=
  ∀ pre i post, is = pre ++ i :: post → r pre → c i

theorem atEach_nil : AtEach r c [] := by
  intro pre i post h
  simp at h

theorem atEach_cons : AtEach r c (i :: is) ↔ (r [] → c i) ∧ AtEach (fun pre => r (i :: pre)) c is := by
  constructor
  · intro h
    refine ⟨h [] i is rfl, ?_⟩
    intro pre j post hsplit hpre
    exact h (i :: pre) j post (by rw [hsplit, List.cons_append]) hpre
  · rintro ⟨hi, his⟩ pre j post hsplit hpre
    cases pre with
    | nil =>
      cases hsplit
      exact hi hpre
    | cons i' pre =>
      cases hsplit
      exact his pre j post rfl hpre

theorem atEach_of_not (h : ∀ pre, ¬ r pre) : AtEach r c is :=
  fun pre _ _ _ hpre => absurd hpre (h pre)

end Reached

section Tables
variable (w : View) (shStrTab : ℕ)

def IsPtLoad (phdr : ℕ) : Prop := w.u32 phdr = ptLoad

instance (phdr : ℕ) : Decidable (w.IsPtLoad phdr) := inferInstanceAs (Decidable (_ = _))

/-- What the loops over the headers need of a header. -/
def HasPhdr (phdr : ℕ) : Prop :=
  w.Has phdr 4 ∧ (w.IsPtLoad phdr → w.Has (phdr + 8) 4 ∧ w.Has (phdr + 16) 4 ∧ w.Has (phdr + 4) 4)

def HasBss (shdr : ℕ) : Prop :=
  w.Has (shdr + 4) 4 ∧ (w.u32 (shdr + 4) = shtNobits → w.HasName shStrTab bssName shdr) ∧
    (w.IsBss shStrTab shdr → w.Has (shdr + 12) 4 ∧ w.Has (shdr + 20) 4)

end Tables

section Loops
variable {w : View} {fileData shdrTab shStrTab : ℕ} {instrLst : List LoadInstr}

/-- The loop over the program headers ends with a header of another kind, with the list full, or
with all of them. -/
theorem inside_loadPhdrs {phdrTab : ℕ} {is : List ℕ} {Q : Option (List LoadInstr) → Prop}
    (hnone : Q none) (hlen : instrLst.length ≤ instrLstCapacity) :
    (w.loadPhdrs fileData phdrTab is instrLst).Inside Q ↔
      AtEach (fun pre => (∀ phdr ∈ pre, w.IsPtLoad phdr) ∧
        instrLst.length + pre.length ≤ instrLstCapacity) w.HasPhdr (is.map (phdrAt phdrTab)) ∧
      ((∀ phdr ∈ is.map (phdrAt phdrTab), w.IsPtLoad phdr) →
        instrLst.length + is.length ≤ instrLstCapacity →
        Q (some (instrLst ++ (is.map (phdrAt phdrTab)).map (w.copyInstr fileData)))) := by
  induction is generalizing instrLst with
  | nil =>
    have hnil : (w.loadPhdrs fileData phdrTab [] instrLst).Inside Q ↔ Q (some instrLst) := Iff.rfl
    rw [hnil]
    simp [atEach_nil, hlen]
  | cons i is ih =>
    rw [List.map_cons, atEach_cons]
    unfold View.loadPhdrs
    dsimp only
    rw [(gets_load32 _).inside_bind]
    by_cases hload : w.u32 (phdrAt phdrTab i) = ptLoad
    · have hmap : ∀ {addr size : ℕ} {p : Plan (Option (List LoadInstr))},
          (Plan.map addr size p).Inside Q ↔ p.Inside Q := Iff.rfl
      have hfirst : w.HasPhdr (phdrAt phdrTab i) ↔ w.Has (phdrAt phdrTab i) 4 ∧
          w.Has (phdrAt phdrTab i + 8) 4 ∧ w.Has (phdrAt phdrTab i + 16) 4 ∧
          w.Has (phdrAt phdrTab i + 4) 4 := by
        unfold HasPhdr IsPtLoad
        simp [hload]
      rw [if_pos hload, (gets_load32 _).inside_bind, (gets_load32 _).inside_bind, hmap,
        (gets_load32 _).inside_bind, inside_emitInstr]
      have hhead : ∀ rest, (w.Has (phdrAt phdrTab i) 4 ∧ w.Has (phdrAt phdrTab i + 8) 4 ∧
          w.Has (phdrAt phdrTab i + 16) 4 ∧ w.Has (phdrAt phdrTab i + 4) 4 ∧ rest) ↔
          w.HasPhdr (phdrAt phdrTab i) ∧ rest := by
        intro rest
        rw [hfirst]
        tauto
      have hstart : (∀ phdr ∈ ([] : List ℕ), w.IsPtLoad phdr) ∧
          instrLst.length + ([] : List ℕ).length ≤ instrLstCapacity := ⟨by simp, by simpa using hlen⟩
      rw [hhead, and_assoc, iff_true_intro hstart, true_imp_iff]
      apply and_congr_right
      intro _
      have hi : w.IsPtLoad (phdrAt phdrTab i) := hload
      have hcount : ∀ l : List ℕ, instrLst.length + (l.length + 1) = instrLst.length + 1 + l.length := by
        intro l
        omega
      simp only [List.forall_mem_cons, hi, true_and, List.length_cons, hcount]
      by_cases hfull : instrLst.length = instrLstCapacity
      · -- The header is read, and the list has no room for its instruction.
        have hmany : ∀ n, ¬ instrLst.length + 1 + n ≤ instrLstCapacity := by omega
        exact ⟨fun _ => ⟨atEach_of_not fun pre hpre => hmany _ hpre.2,
          fun _ hle => absurd hle (hmany _)⟩, fun _ hne => absurd hfull hne⟩
      · have hroom : (instrLst ++ [w.copyInstr fileData (phdrAt phdrTab i)]).length ≤
            instrLstCapacity := by
          rw [List.length_append, List.length_singleton]
          omega
        apply (forall_prop_of_true hfull).trans
        apply (ih hroom).trans
        simp
    · rw [if_neg hload]
      have hret : (Pure.pure none : Plan (Option (List LoadInstr))).Inside Q ↔ Q none := Iff.rfl
      have hnot : ¬ w.IsPtLoad (phdrAt phdrTab i) := hload
      have hlast : AtEach (fun pre => (∀ phdr ∈ phdrAt phdrTab i :: pre, w.IsPtLoad phdr) ∧
          instrLst.length + (phdrAt phdrTab i :: pre).length ≤ instrLstCapacity) w.HasPhdr
          (is.map (phdrAt phdrTab)) :=
        atEach_of_not fun pre hpre => hnot (hpre.1 _ (by simp))
      rw [hret, iff_true_intro hlast]
      simp [hnone, hnot, hlen, HasPhdr]

/-- The loop over the .bss sections ends with the list full, or with all of them. -/
theorem inside_initBssSections {is : List ℕ} {Q : List LoadInstr → Prop}
    (hlen : instrLst.length ≤ instrLstCapacity) :
    (w.initBssSections shdrTab shStrTab is instrLst).Inside Q ↔
      AtEach (fun pre => instrLst.length + (pre.filter (w.IsBss shStrTab)).length ≤ instrLstCapacity)
        (w.HasBss shStrTab) (is.map (shdrAt shdrTab)) ∧
      (instrLst.length + ((is.map (shdrAt shdrTab)).filter (w.IsBss shStrTab)).length ≤
          instrLstCapacity →
        Q (instrLst ++ ((is.map (shdrAt shdrTab)).filter (w.IsBss shStrTab)).map w.zeroInstr)) := by
  induction is generalizing instrLst with
  | nil =>
    have hnil : (w.initBssSections shdrTab shStrTab [] instrLst).Inside Q ↔ Q instrLst := Iff.rfl
    rw [hnil]
    simp [atEach_nil, hlen]
  | cons i is ih =>
    have hstart : instrLst.length + (([] : List ℕ).filter (w.IsBss shStrTab)).length ≤
        instrLstCapacity := by simpa using hlen
    rw [List.map_cons, atEach_cons, forall_prop_of_true hstart]
    unfold View.initBssSections
    dsimp only
    rw [(gets_load32 _).inside_bind]
    by_cases hbits : w.u32 (shdrAt shdrTab i + 4) = shtNobits
    · rw [if_pos hbits, (gets_sectionNameEq _ _).inside_bind]
      by_cases hname : w.strEq (add32 shStrTab (w.u32 (shdrAt shdrTab i))) bssName
      · have hbss : w.IsBss shStrTab (shdrAt shdrTab i) := ⟨hbits, hname⟩
        have hmap : ∀ {addr size : ℕ} {p : Plan (List LoadInstr)},
            (Plan.map addr size p).Inside Q ↔ p.Inside Q := Iff.rfl
        have hhead : ∀ rest, (w.Has (shdrAt shdrTab i + 4) 4 ∧
            w.HasName shStrTab bssName (shdrAt shdrTab i) ∧ w.Has (shdrAt shdrTab i + 12) 4 ∧
            w.Has (shdrAt shdrTab i + 20) 4 ∧ rest) ↔ w.HasBss shStrTab (shdrAt shdrTab i) ∧ rest := by
          intro rest
          unfold HasBss
          tauto
        rw [if_pos hname, (gets_load32 _).inside_bind, (gets_load32 _).inside_bind, hmap,
          inside_emitInstr, hhead, and_assoc]
        apply and_congr_right
        intro _
        have hcount : ∀ pre : List ℕ,
            instrLst.length + ((shdrAt shdrTab i :: pre).filter (w.IsBss shStrTab)).length =
              instrLst.length + 1 + (pre.filter (w.IsBss shStrTab)).length := by
          intro pre
          rw [List.filter_cons_of_pos (by simpa using hbss), List.length_cons]
          omega
        simp only [hcount]
        by_cases hfull : instrLst.length = instrLstCapacity
        · have hmany : ∀ n, ¬ instrLst.length + 1 + n ≤ instrLstCapacity := by omega
          exact ⟨fun _ => ⟨atEach_of_not fun pre => hmany _, fun hle => absurd hle (hmany _)⟩,
            fun _ hne => absurd hfull hne⟩
        · have hroom : (instrLst ++ [w.zeroInstr (shdrAt shdrTab i)]).length ≤ instrLstCapacity := by
            rw [List.length_append, List.length_singleton]
            omega
          apply (forall_prop_of_true hfull).trans
          apply (ih hroom).trans
          simp [hbss]
      · have hbss : ¬ w.IsBss shStrTab (shdrAt shdrTab i) := fun h => hname h.2
        have hhead : ∀ rest, (w.Has (shdrAt shdrTab i + 4) 4 ∧
            w.HasName shStrTab bssName (shdrAt shdrTab i) ∧ rest) ↔
            w.HasBss shStrTab (shdrAt shdrTab i) ∧ rest := by
          intro rest
          unfold HasBss
          tauto
        rw [if_neg hname, hhead, and_assoc, ih hlen]
        simp [hbss]
    · have hbss : ¬ w.IsBss shStrTab (shdrAt shdrTab i) := fun h => hbits h.1
      have hhead : ∀ rest, (w.Has (shdrAt shdrTab i + 4) 4 ∧ rest) ↔
          w.HasBss shStrTab (shdrAt shdrTab i) ∧ rest := by
        intro rest
        unfold HasBss
        tauto
      rw [if_neg hbits, hhead, and_assoc, ih hlen]
      simp [hbss]

end Loops
section Magic
variable (w : View)

/-- The bytes at `a` are these. -/
def startsWith : ℕ → List UInt8 → Bool
  | _, [] => true
  | a, l :: ls => w.u8 a == l && startsWith (a + 1) ls

variable {w}

theorem Has.mono {a m n i : ℕ} (h : w.Has a n) (hi : i + m ≤ n) : w.Has (a + i) m := by
  intro j hj
  rw [Nat.add_assoc]
  exact h (i + j) (by omega)

theorem strncmpEq_eq {a : ℕ} {l : List UInt8} (h : w.Has a l.length) :
    w.strncmpEq a l = .ret (w.startsWith a l) := by
  induction l generalizing a with
  | nil => rfl
  | cons c l ih =>
    have hbyte : w.byte a = .ret (w.u8 a) := (gets_byte a).there (h.mono (i := 0) (by simp))
    have hrest := ih (h.mono (m := l.length) (i := 1) (by simp [Nat.add_comm]))
    unfold View.strncmpEq startsWith
    rw [hbyte]
    change (if w.u8 a == c then w.strncmpEq (a + 1) l else .ret false) = _
    rw [hrest]
    cases w.u8 a == c <;> rfl

end Magic

section File
variable (w : View) (fileData nData : ℕ)

/-- An executable, as far as the loader looks. -/
def Recognised : Prop :=
  52 ≤ nData ∧ w.startsWith fileData [0x7f, 0x45, 0x4c, 0x46] ∧ w.u16 (fileData + 16) = 2

/-- The loader gets past the program headers. -/
def PhdrsLoaded : Prop :=
  (∀ phdr ∈ w.phdrs fileData, w.IsPtLoad phdr) ∧ w.phnum fileData ≤ instrLstCapacity

/-- It gets past the symbol table. -/
def SymbolsFound : Prop := ∃ n, w.symbolTable (w.shdrs fileData) = .ok n ∧ n ≠ 0

/-- It gets past the .bss sections. -/
def BssLoaded : Prop :=
  w.SymbolsFound fileData ∧
    w.phnum fileData + (w.bssSections fileData).length ≤ instrLstCapacity

/-- The bytes of a segment in the file. -/
def HasSegment (phdr : ℕ) : Prop := w.Has (add32 fileData (w.u32 (phdr + 4))) (w.phdrRange phdr).2

/-- What the loader reads of the sections, as far as it gets, and what it has copied if it gets to
its end. -/
structure SectionsInside : Prop where
  symbols : UpTo w.IsSymtab w.HasSymtab (w.shdrs fileData)
  bss : w.SymbolsFound fileData →
    AtEach (fun pre => w.phnum fileData + (pre.filter (w.IsBss (w.shStrTab fileData))).length ≤
      instrLstCapacity) (w.HasBss (w.shStrTab fileData)) (w.shdrs fileData)
  heap : w.BssLoaded fileData → ∀ shdr ∈ w.shdrs fileData, w.HasHeap (w.shStrTab fileData) shdr
  text : w.BssLoaded fileData →
    UpTo (w.IsText (w.shStrTab fileData)) (w.HasText (w.shStrTab fileData)) (w.shdrs fileData)
  entry : w.BssLoaded fileData →
    ∀ textSh ∈ (w.shdrs fileData).find? (w.IsText (w.shStrTab fileData)), w.Has (textSh + 12) 4
  segments : w.BssLoaded fileData →
    ((w.shdrs fileData).find? (w.IsText (w.shStrTab fileData))).isSome →
    w.phnum fileData + (w.bssSections fileData).length ≠ instrLstCapacity →
    ∀ phdr ∈ w.phdrs fileData, w.HasSegment fileData phdr

/-- The same from the program headers on. -/
structure TablesInside : Prop where
  names : w.Has (shdrAt (w.shdrTab fileData) (w.u16 (fileData + 50)) + 16) 4
  phdrs : AtEach (fun pre => (∀ phdr ∈ pre, w.IsPtLoad phdr) ∧ pre.length ≤ instrLstCapacity)
    w.HasPhdr (w.phdrs fileData)
  sections : w.PhdrsLoaded fileData → w.SectionsInside fileData

/-- The condition on the file. -/
def InBounds : Prop := w.Recognised fileData nData → w.TablesInside fileData

/-- The bytes an instruction copies. -/
def HasSource : LoadInstr → Prop
  | .copy _ srcAddr size => w.Has srcAddr size
  | _ => True

/-- All of them are there, if a list is returned at all. -/
def HasSources (r : Option (List LoadInstr)) : Prop :=
  ∀ instrLst ∈ r, ∀ instr ∈ instrLst, w.HasSource instr

end File

section Whole
variable {w : View} {fileData nData : ℕ}

theorem hasSources_loadInstrs {a : ℕ} :
    w.HasSources (some (w.loadInstrs fileData ++ [.jump a])) ↔
      ∀ phdr ∈ w.phdrs fileData, w.HasSegment fileData phdr := by
  unfold HasSources loadInstrs
  simp only [Option.mem_def, Option.some.injEq, forall_eq', List.mem_append, List.mem_map,
    List.mem_singleton]
  constructor
  · intro h phdr hphdr
    exact h _ (.inl (.inl ⟨phdr, hphdr, rfl⟩))
  · rintro h instr ((⟨phdr, hphdr, rfl⟩ | ⟨shdr, -, rfl⟩) | rfl)
    · exact h phdr hphdr
    · trivial
    · trivial

theorem inside_ret {α : Type} {a : α} {Q : α → Prop} : (Plan.ret a).Inside Q ↔ Q a := Iff.rfl

/-- The end of the loader. -/
def loadText (w : View) (fileData : ℕ) (instrLst : List LoadInstr) :
    Plan (Option (List LoadInstr)) := do
  match ← w.locateTextSection (w.shdrTab fileData) (w.shStrTab fileData)
    (List.range (w.shnum fileData)) with
  | none => return none
  | some textSh =>
    let addr ← w.load32 (textSh + 12)
    return some (← emitInstr instrLst (.jump addr))

/-- The loader behind the program headers. -/
def loadSections (w : View) (fileData : ℕ) (instrLst : List LoadInstr) :
    Plan (Option (List LoadInstr)) := do
  let shdrs := List.range (w.shnum fileData)
  if (← w.locateSymbolTable (w.shdrTab fileData) shdrs) = 0 then return none
  let instrLst ← w.initBssSections (w.shdrTab fileData) (w.shStrTab fileData) shdrs instrLst
  let heapStart ← w.getHeapAddress (w.shdrTab fileData) (w.shStrTab fileData) shdrs 0
  .setHeapStart heapStart (w.loadText fileData instrLst)

theorem inside_loadText : (w.loadText fileData (w.loadInstrs fileData)).Inside w.HasSources ↔
    UpTo (w.IsText (w.shStrTab fileData)) (w.HasText (w.shStrTab fileData)) (w.shdrs fileData) ∧
      ∀ textSh ∈ (w.shdrs fileData).find? (w.IsText (w.shStrTab fileData)), w.Has (textSh + 12) 4 ∧
        (w.phnum fileData + (w.bssSections fileData).length ≠ instrLstCapacity →
          ∀ phdr ∈ w.phdrs fileData, w.HasSegment fileData phdr) := by
  have hlen : (w.loadInstrs fileData).length =
      w.phnum fileData + (w.bssSections fileData).length := by
    simp [loadInstrs, phdrs]
  have hget : Gets (w.locateTextSection (w.shdrTab fileData) (w.shStrTab fileData)
      (List.range (w.shnum fileData))) _ _ := gets_locateTextSection _
  unfold loadText
  rw [hget.inside_bind]
  apply and_congr_right
  intro _
  change _ ↔ ∀ textSh ∈ ((List.range (w.shnum fileData)).map
    (shdrAt (w.shdrTab fileData))).find? (w.IsText (w.shStrTab fileData)), _
  cases ((List.range (w.shnum fileData)).map (shdrAt (w.shdrTab fileData))).find?
      (w.IsText (w.shStrTab fileData)) with
  | none =>
    have hnone : (Plan.ret none).Inside w.HasSources := by simp [inside_ret, HasSources]
    exact ⟨fun _ => by simp, fun _ => hnone⟩
  | some textSh =>
    dsimp only
    rw [(gets_load32 _).inside_bind, inside_emitInstr, hlen]
    simp only [Option.mem_def, Option.some.injEq, forall_eq']
    apply and_congr_right
    intro _
    exact imp_congr_right fun _ => hasSources_loadInstrs

theorem symbolTable_no_abort (shdrs : List ℕ) (va : ℕ) :
    w.symbolTable shdrs ≠ .error (.dataAbort va) := by
  unfold symbolTable
  split
  · simp
  · split <;> simp

/-- The loader behind the symbol table. -/
theorem inside_loadImage (hlen : w.phnum fileData ≤ instrLstCapacity) :
    (do
      let shdrs := List.range (w.shnum fileData)
      let instrLst ← w.initBssSections (w.shdrTab fileData) (w.shStrTab fileData) shdrs
        ((w.phdrs fileData).map (w.copyInstr fileData))
      let heapStart ← w.getHeapAddress (w.shdrTab fileData) (w.shStrTab fileData) shdrs 0
      .setHeapStart heapStart (w.loadText fileData instrLst) : Plan _).Inside w.HasSources ↔
    AtEach (fun pre => w.phnum fileData + (pre.filter (w.IsBss (w.shStrTab fileData))).length ≤
        instrLstCapacity) (w.HasBss (w.shStrTab fileData)) (w.shdrs fileData) ∧
      (w.phnum fileData + (w.bssSections fileData).length ≤ instrLstCapacity →
        (∀ shdr ∈ w.shdrs fileData, w.HasHeap (w.shStrTab fileData) shdr) ∧
        (w.loadText fileData (w.loadInstrs fileData)).Inside w.HasSources) := by
  have hcopies : ((w.phdrs fileData).map (w.copyInstr fileData)).length = w.phnum fileData := by
    simp [phdrs]
  dsimp only
  rw [Plan.inside_bind, inside_initBssSections (by rw [hcopies]; exact hlen), hcopies]
  apply and_congr_right
  intro _
  apply imp_congr_right
  intro _
  rw [(gets_getHeapAddress _ _).inside_bind]
  rfl

theorem inside_loadSections (hloaded : w.PhdrsLoaded fileData) :
    (w.loadSections fileData ((w.phdrs fileData).map (w.copyInstr fileData))).Inside w.HasSources ↔
      w.SectionsInside fileData := by
  have hget : Gets (w.locateSymbolTable (w.shdrTab fileData) (List.range (w.shnum fileData)))
      (UpTo w.IsSymtab w.HasSymtab (w.shdrs fileData)) (w.symbolTable (w.shdrs fileData)) :=
    gets_symbolTable _
  have himage := inside_loadImage hloaded.2
  rw [inside_loadText] at himage
  unfold loadSections
  dsimp only
  rw [hget.inside_bind_ok (symbolTable_no_abort _)]
  constructor
  · rintro ⟨hsymbols, hrest⟩
    have hfound := fun h : w.SymbolsFound fileData => himage.mp (by
      obtain ⟨n, hn, hne⟩ := h
      have hbody := hrest n hn
      rw [if_neg hne] at hbody
      exact hbody)
    constructor
    · exact hsymbols
    · exact fun h => (hfound h).1
    · exact fun h => ((hfound h.1).2 h.2).1
    · exact fun h => ((hfound h.1).2 h.2).2.1
    · exact fun h textSh htext => (((hfound h.1).2 h.2).2.2 textSh htext).1
    · intro h htext
      obtain ⟨textSh, htext⟩ := Option.isSome_iff_exists.mp htext
      exact (((hfound h.1).2 h.2).2.2 textSh htext).2
  · intro h
    refine ⟨h.symbols, ?_⟩
    intro n hn
    by_cases hne : n = 0
    · rw [if_pos hne]
      have hnone : (Plan.ret none).Inside w.HasSources := by simp [inside_ret, HasSources]
      exact hnone
    · rw [if_neg hne]
      have hfound : w.SymbolsFound fileData := ⟨n, hn, hne⟩
      apply himage.mpr
      refine ⟨h.bss hfound, fun hbss => ⟨h.heap ⟨hfound, hbss⟩, h.text ⟨hfound, hbss⟩, ?_⟩⟩
      intro textSh htext
      exact ⟨h.entry ⟨hfound, hbss⟩ textSh htext,
        h.segments ⟨hfound, hbss⟩ (Option.isSome_iff_exists.mpr ⟨textSh, htext⟩)⟩

/-- The loader behind the header: it stays inside as far as it gets. -/
theorem inside_loadElf (hehdr : w.Has fileData 52) (hexec : w.u16 (fileData + 16) = 2) :
    (w.loadElf fileData).Inside w.HasSources ↔ w.TablesInside fileData := by
  have hnone : w.HasSources none := by simp [HasSources]
  have hskip : ∀ {β : Type} {p : Plan ℕ} {i m a : ℕ} {f : ℕ → Plan β} {Q : β → Prop},
      Gets p (w.Has (fileData + i) m) (.ok a) → i + m ≤ 52 →
        ((p >>= f).Inside Q ↔ (f a).Inside Q) := by
    intro β p i m a f Q h hi
    rw [h.inside_bind]
    simp [hehdr.mono hi]
  have hphdrs : ∀ {Q : Option (List LoadInstr) → Prop}, Q none →
      ((w.loadPhdrs fileData (w.phdrTab fileData) (List.range (w.phnum fileData)) []).Inside Q ↔
        AtEach (fun pre => (∀ phdr ∈ pre, w.IsPtLoad phdr) ∧ pre.length ≤ instrLstCapacity)
          w.HasPhdr (w.phdrs fileData) ∧
        (w.PhdrsLoaded fileData → Q (some ((w.phdrs fileData).map (w.copyInstr fileData))))) := by
    intro Q hQ
    rw [inside_loadPhdrs hQ (by simp)]
    simp only [List.length_nil, Nat.zero_add, List.nil_append, List.length_range]
    exact and_congr_right fun _ => and_imp.symm
  unfold View.loadElf
  dsimp only
  rw [hskip (gets_load16 _) (by omega), if_neg (by simp [hexec]), hskip (gets_load32 _) (by omega),
    hskip (gets_load32 _) (by omega), hskip (gets_load16 _) (by omega),
    (gets_load32 _).inside_bind, hskip (gets_load16 _) (by omega), Plan.inside_bind]
  refine (and_congr_right fun _ => hphdrs ?_).trans ?_
  · exact hnone
  have hshnum : ∀ f : ℕ → Plan (Option (List LoadInstr)), _ :=
    fun f => hskip (f := f) (Q := w.HasSources) (gets_load16 (fileData + 48)) (by omega)
  constructor
  · rintro ⟨hnames, hheaders, hrest⟩
    exact ⟨hnames, hheaders, fun h => (inside_loadSections h).mp ((hshnum _).mp (hrest h))⟩
  · intro h
    exact ⟨h.names, h.phdrs, fun hl => (hshnum _).mpr ((inside_loadSections hl).mpr (h.sections hl))⟩

theorem inside_elfLoad (hehdr : 52 ≤ nData → w.Has fileData 52) :
    (w.elfLoad fileData nData).Inside w.HasSources ↔ w.InBounds fileData nData := by
  have hnone : (Plan.ret none).Inside w.HasSources := by simp [inside_ret, HasSources]
  unfold InBounds Recognised View.elfLoad
  by_cases hlen : nData < 52
  · rw [if_pos hlen]
    exact ⟨fun _ h => absurd h.1 (Nat.not_le.mpr hlen), fun _ => hnone⟩
  · have hlong : 52 ≤ nData := Nat.not_lt.mp hlen
    have hmagic := strncmpEq_eq (l := [0x7f, 0x45, 0x4c, 0x46])
      ((hehdr hlong).mono (m := 4) (i := 0) (by omega))
    rw [if_neg hlen]
    rw [Nat.add_zero] at hmagic
    rw [hmagic]
    change ((if !(w.startsWith fileData [0x7f, 0x45, 0x4c, 0x46]) then Pure.pure none
      else w.loadElf fileData : Plan _)).Inside w.HasSources ↔ _
    by_cases hstart : w.startsWith fileData [0x7f, 0x45, 0x4c, 0x46]
    · rw [if_neg (by simp [hstart])]
      by_cases hexec : w.u16 (fileData + 16) = 2
      · rw [inside_loadElf (hehdr hlong) hexec]
        exact ⟨fun h _ => h, fun h => h ⟨hlong, hstart, hexec⟩⟩
      · unfold View.loadElf
        dsimp only
        rw [(gets_load16 _).inside_bind, if_pos hexec]
        exact ⟨fun _ h => absurd h.2.2 hexec, fun _ => ⟨(hehdr hlong).mono (by omega), hnone⟩⟩
    · rw [if_pos (by simp [hstart])]
      exact ⟨fun _ h => absurd h.2.1 hstart, fun _ => hnone⟩

end Whole
end View

/-- A file alone in memory, where the kernel's table has it. -/
def fileView (bs : List UInt8) : View := fun a => bs[sub32 (a % 2 ^ 32) kernelLoadAddr]?

/-- On this file the loader reads nothing behind the end of it, and what it has copied lies in it. -/
def StaysInside (bs : List UInt8) : Prop :=
  ((fileView bs).elfLoad kernelLoadAddr bs.length).Inside (fileView bs).HasSources

theorem fileView_at {bs : List UInt8} {i : ℕ} (hi : i < 2 ^ 32) :
    fileView bs (kernelLoadAddr + i) = bs[i]? := by
  have hload : kernelLoadAddr = 0x10000000 := rfl
  have hoff : sub32 ((kernelLoadAddr + i) % 2 ^ 32) kernelLoadAddr = i := by
    unfold sub32
    omega
  unfold fileView
  rw [hoff]

/-- The loader stays inside the file exactly when the tables it gets to do. -/
theorem staysInside_iff (bs : List UInt8) :
    StaysInside bs ↔ (fileView bs).InBounds kernelLoadAddr bs.length := by
  apply View.inside_elfLoad
  intro hlen i hi
  rw [fileView_at (by omega), List.getElem?_eq_getElem (by omega)]
  rfl

/-- An executable that ends with its header: the section headers are behind the end. -/
def headerOnly : List UInt8 :=
  [0x7f, 0x45, 0x4c, 0x46] ++ List.replicate 12 0 ++ [2, 0] ++ List.replicate 14 0 ++ [52, 0, 0, 0] ++
    List.replicate 16 0

theorem headerOnly_leaves : ¬ ∀ bs, StaysInside bs := by
  intro h
  have hresult : ((fileView headerOnly).elfLoad kernelLoadAddr headerOnly.length).result =
      .error (.dataAbort 0x10000044) := by rfl
  have hinside := h headerOnly
  unfold StaysInside Plan.Inside at hinside
  rw [hresult] at hinside
  exact hinside

section Holds
variable {s : Machine} {bs : List UInt8}

theorem fileView_le (h : s.Holds kernelLoadAddr bs) : (fileView bs).Le s.view := by
  intro a b hb
  have hload : kernelLoadAddr = 0x10000000 := rfl
  have hview := h _ _ hb
  have haddr : (kernelLoadAddr + sub32 (a % 2 ^ 32) kernelLoadAddr) % 2 ^ 32 = a % 2 ^ 32 := by
    unfold sub32
    omega
  unfold Machine.view at hview ⊢
  rw [haddr] at hview
  exact hview

/-- In memory that holds a file on which the loader misses no byte, it carries out the plan of the
file alone. -/
theorem elfLoad_fileView (h : s.Holds kernelLoadAddr bs) (nData : ℕ)
    (hno : ∀ va, ((fileView bs).elfLoad kernelLoadAddr nData).result ≠ .error (.dataAbort va)) :
    s.view.elfLoad kernelLoadAddr nData = (fileView bs).elfLoad kernelLoadAddr nData :=
  ((fileView_le h).elfLoad nData).eq hno

/-- `elf_load` on memory with a plan that is more than a refusal. -/
theorem elfLoad_run {fileData nData : ℕ} {p : Plan (Option (List LoadInstr))}
    (httbr : s.vm.ttbr = kernelAsid) (hplan : s.view.elfLoad fileData nData = p)
    (hp : p ≠ .ret none) : (elfLoad fileData nData childAsid).run s =
      (do let r ← p.exec childAsid; perform (.ret .elfLoad) id; return r).run s := by
  have hgood : ¬ s.view.badMagic fileData nData := by
    intro hbad
    exact hp (hplan.symm.trans (elfLoadBody_badMagic hbad).1)
  have hbody := elfLoadBody_run hgood (s := s) ⟨httbr, rfl⟩
  unfold elfLoad
  rw [EStateM.run_bind, EStateM.run_bind, hbody, hplan]

end Holds

/-- A word of a file. -/
def word (x : ℕ) : List UInt8 := [x, x / 2 ^ 8, x / 2 ^ 16, x / 2 ^ 24].map UInt8.ofNat

/-- An executable with one segment, which copies from the start of the file, a symbol table and
a .text section. -/
def oneSegment (vaddr filesz : ℕ) : List UInt8 :=
  [0x7f, 0x45, 0x4c, 0x46] ++ List.replicate 12 0 ++ word 2 ++ word 1 ++ word vaddr ++ word 52 ++
    word 84 ++ word 0 ++ word 0x200034 ++ word 0x280001 ++ word 2 ++
    (word ptLoad ++ word 0 ++ word vaddr ++ word vaddr ++ word filesz ++ word filesz ++ word 5 ++ word 1) ++
    (word 0 ++ word shtSymtab ++ word 0 ++ word 0 ++ word 164 ++ word 16 ++ word 0 ++ word 0 ++
      word 4 ++ word 16) ++
    (word 0 ++ word shtProgbits ++ word 0 ++ word vaddr ++ word 0 ++ word filesz ++ word 0 ++ word 0 ++
      word 4 ++ word 0) ++ textName ++ [0]

theorem length_oneSegment (vaddr filesz : ℕ) : (oneSegment vaddr filesz).length = 170 := by
  have hword : ∀ x, (word x).length = 4 := fun _ => rfl
  unfold oneSegment textName
  simp only [List.length_append, hword, List.length_replicate, List.length_cons, List.length_nil]

/-- An executable with a segment, which copies from the start of the file, and .bss behind it. -/
def bssSegment (vaddr filesz bssAddr bssSize : ℕ) : List UInt8 :=
  [0x7f, 0x45, 0x4c, 0x46] ++ List.replicate 12 0 ++ word 2 ++ word 1 ++ word vaddr ++ word 52 ++
    word 84 ++ word 0 ++ word 0x200034 ++ word 0x280001 ++ word 3 ++
    (word ptLoad ++ word 0 ++ word vaddr ++ word vaddr ++ word filesz ++ word filesz ++ word 5 ++ word 1) ++
    (word 0 ++ word shtSymtab ++ word 0 ++ word 0 ++ word 204 ++ word 16 ++ word 0 ++ word 0 ++
      word 4 ++ word 16) ++
    (word 0 ++ word shtProgbits ++ word 0 ++ word vaddr ++ word 0 ++ word filesz ++ word 0 ++ word 0 ++
      word 4 ++ word 0) ++
    (word 6 ++ word shtNobits ++ word 0 ++ word bssAddr ++ word 0 ++ word bssSize ++ word 0 ++ word 0 ++
      word 4 ++ word 0) ++ textName ++ [0] ++ bssName ++ [0]

theorem length_bssSegment (vaddr filesz bssAddr bssSize : ℕ) :
    (bssSegment vaddr filesz bssAddr bssSize).length = 215 := by
  have hword : ∀ x, (word x).length = 4 := fun _ => rfl
  unfold bssSegment textName bssName
  simp only [List.length_append, hword, List.length_replicate, List.length_cons, List.length_nil]

end SimplePiOS.Kernel
