import SimplePiOS.Kernel.ElfPlan

/-! The fields of an ELF file in memory, and what the loader makes of them when it comes to its
end: one instruction for each program header, one for each .bss section, and the jump. -/
namespace SimplePiOS.Kernel
open Lib Libpi

namespace Plan
variable {α β : Type} {p : Plan α} {f : α → Plan β}

theorem result_bind (p : Plan α) (f : α → Plan β) :
    (p >>= f).result = match p.result with
      | .ok a => (f a).result
      | .error e => .error e := by
  induction p with
  | ret a => rfl
  | stop e => rfl
  | map addr size next ih => exact ih
  | setHeapStart addr next ih => exact ih

theorem ranges_bind {a : α} (h : p.result = .ok a) :
    (p >>= f).ranges = p.ranges ++ (f a).ranges := by
  induction p with
  | ret b =>
    cases h
    rfl
  | stop e => cases h
  | map addr size next ih =>
    change (addr, size) :: (next >>= f).ranges = (addr, size) :: (next.ranges ++ (f a).ranges)
    rw [ih h]
  | setHeapStart addr next ih => exact ih h

/-- The plan without requests. -/
def done : Except Stop α → Plan α
  | .ok a => ret a
  | .error e => stop e

/-- A plan that ends well has both its parts end well. -/
theorem of_bind_ok {b : β} (h : (p >>= f).result = .ok b) :
    ∃ a, p.result = .ok a ∧ (f a).result = .ok b := by
  rw [result_bind] at h
  cases hp : p.result with
  | ok a =>
    rw [hp] at h
    exact ⟨a, rfl, h⟩
  | error e =>
    rw [hp] at h
    cases h

end Plan

namespace View
variable (w : View)

/-- Numbers in memory, an unmapped byte being 0. -/
def u8 (a : ℕ) : UInt8 := (w a).getD 0
def u16 (a : ℕ) : ℕ := (w.u8 a).toNat + 2 ^ 8 * (w.u8 (a + 1)).toNat
def u32 (a : ℕ) : ℕ := w.u16 a + 2 ^ 16 * w.u16 (a + 2)

/-- The name at `a` is the literal. -/
def strEq : ℕ → List UInt8 → Bool
  | a, [] => w.u8 a == 0
  | a, l :: ls => w.u8 a == l && strEq (a + 1) ls

/-- All of the bytes are mapped. -/
def Has (a n : ℕ) : Prop := ∀ i < n, (w (a + i)).isSome

/-- So much of the name is mapped as is compared with the literal. -/
def HasStr : ℕ → List UInt8 → Prop
  | a, [] => w.Has a 1
  | a, l :: ls => w.Has a 1 ∧ (w.u8 a = l → HasStr (a + 1) ls)

/-- `p` reads something that needs `c`, and comes to `r`. -/
structure Gets {α : Type} (p : Plan α) (c : Prop) (r : Except Stop α) : Prop where
  there : c → p = .done r
  missing : ¬ c → ∃ va, p = .stop (.dataAbort va)

section Gets
variable {w} {α β : Type} {p p' : Plan α} {f : α → Plan β} {c c' : Prop} {a : α} {b : β}
  {r r' : Except Stop α}

theorem Gets.pure (a : α) : Gets (Pure.pure a) True (.ok a) :=
  ⟨fun _ => rfl, fun h => absurd trivial h⟩

theorem Gets.stop (e : Stop) : Gets (Plan.stop e : Plan α) True (.error e) :=
  ⟨fun _ => rfl, fun h => absurd trivial h⟩

theorem Gets.bind {r : Except Stop β} (h : Gets p c (.ok a)) (hf : Gets (f a) c' r) :
    Gets (p >>= f) (c ∧ c') r := by
  by_cases hc : c
  · rw [h.there hc]
    exact ⟨fun h' => hf.there h'.2, fun h' => hf.missing fun hc' => h' ⟨hc, hc'⟩⟩
  · obtain ⟨va, hp⟩ := h.missing hc
    rw [hp]
    exact ⟨fun h' => absurd h'.1 hc, fun _ => ⟨va, rfl⟩⟩

theorem Gets.ite {d : Prop} [Decidable d] (h : d → Gets p c r) (h' : ¬ d → Gets p' c' r') :
    Gets (if d then p else p') ((d → c) ∧ (¬ d → c')) (if d then r else r') := by
  by_cases hd : d
  · rw [if_pos hd, if_pos hd]
    exact ⟨fun hc => (h hd).there (hc.1 hd),
      fun hc => (h hd).missing fun hp => hc ⟨fun _ => hp, fun hn => absurd hd hn⟩⟩
  · rw [if_neg hd, if_neg hd]
    exact ⟨fun hc => (h' hd).there (hc.2 hd),
      fun hc => (h' hd).missing fun hp => hc ⟨fun hn => absurd hn hd, fun _ => hp⟩⟩

theorem Gets.congr (h : Gets p c r) (hc : c ↔ c') (hr : r = r') : Gets p c' r' := by
  subst hr
  exact ⟨fun h' => h.there (hc.mpr h'), fun h' => h.missing fun hc' => h' (hc.mp hc')⟩

/-- A computation that comes to its end goes on with what it has read. -/
theorem Gets.bind_ok (h : Gets p c r) (hb : (p >>= f).result = .ok b) :
    ∃ a, r = .ok a ∧ p >>= f = f a ∧ (f a).result = .ok b := by
  by_cases hc : c
  · rw [h.there hc] at hb ⊢
    cases r with
    | ok a => exact ⟨a, rfl, rfl, hb⟩
    | error e => cases hb
  · obtain ⟨va, hp⟩ := h.missing hc
    rw [hp] at hb
    cases hb

theorem Gets.value_ok (h : Gets p c (.ok a)) (hb : (p >>= f).result = .ok b) :
    p >>= f = f a ∧ (f a).result = .ok b := by
  obtain ⟨a', ha, hf⟩ := h.bind_ok hb
  cases ha
  exact hf

theorem gets_byte (a : ℕ) : Gets (w.byte a) (w.Has a 1) (.ok (w.u8 a)) := by
  unfold byte u8
  cases hb : w a with
  | some b => exact ⟨fun _ => rfl, fun h => absurd (by intro i hi; simp [Nat.lt_one_iff.mp hi, hb]) h⟩
  | none =>
    refine ⟨fun h => ?_, fun _ => ⟨_, rfl⟩⟩
    have hs := h 0 (by omega)
    rw [Nat.add_zero, hb] at hs
    cases hs

theorem has_append (a m n : ℕ) : w.Has a m ∧ w.Has (a + m) n ↔ w.Has a (m + n) := by
  constructor
  · rintro ⟨hm, hn⟩ i hi
    by_cases him : i < m
    · exact hm i him
    · have hrest := hn (i - m) (by omega)
      rwa [Nat.add_assoc, Nat.add_sub_cancel' (Nat.not_lt.mp him)] at hrest
  · intro h
    refine ⟨fun i hi => h i (by omega), fun i hi => ?_⟩
    rw [Nat.add_assoc]
    exact h (m + i) (by omega)

theorem gets_load16 (a : ℕ) : Gets (w.load16 a) (w.Has a 2) (.ok (w.u16 a)) := by
  have h : Gets (w.load16 a) (w.Has a 1 ∧ w.Has (a + 1) 1 ∧ True) (.ok (w.u16 a)) :=
    (gets_byte a).bind ((gets_byte (a + 1)).bind (.pure _))
  refine h.congr ?_ rfl
  rw [and_true, has_append]

theorem gets_load32 (a : ℕ) : Gets (w.load32 a) (w.Has a 4) (.ok (w.u32 a)) := by
  have h : Gets (w.load32 a) (w.Has a 2 ∧ w.Has (a + 2) 2 ∧ True) (.ok (w.u32 a)) :=
    (gets_load16 a).bind ((gets_load16 (a + 2)).bind (.pure _))
  refine h.congr ?_ rfl
  rw [and_true, has_append]

theorem gets_strcmpEq (a : ℕ) (l : List UInt8) :
    Gets (w.strcmpEq a l) (w.HasStr a l) (.ok (w.strEq a l)) := by
  induction l generalizing a with
  | nil =>
    have h : Gets (w.strcmpEq a []) (w.Has a 1 ∧ True) (.ok (w.strEq a [])) :=
      (gets_byte a).bind (.pure _)
    exact h.congr (iff_of_eq (and_true _)) rfl
  | cons l ls ih =>
    apply (gets_byte a).bind
    unfold strEq
    by_cases heq : w.u8 a = l
    · have hb : (w.u8 a == l) = true := beq_iff_eq.mpr heq
      rw [hb, if_pos rfl, Bool.true_and]
      exact (ih (a + 1)).congr ⟨fun h _ => h, fun h => h heq⟩ rfl
    · have hb : (w.u8 a == l) = false := beq_eq_false_iff_ne.mpr heq
      rw [hb, if_neg (by simp), Bool.false_and]
      exact (Gets.pure false).congr ⟨fun _ h => absurd h heq, fun _ => trivial⟩ rfl

end Gets

section Scan
variable {ι : Type} {stop c : ι → Prop} {i : ι} {is : List ι}

/-- `c` holds of the elements up to the first one that stops the scan. -/
def UpTo (stop c : ι → Prop) (is : List ι) : Prop :=
  ∀ pre i post, is = pre ++ i :: post → (∀ j ∈ pre, ¬ stop j) → c i

theorem upTo_nil : UpTo stop c [] := by
  intro pre i post h
  simp at h

theorem upTo_cons : UpTo stop c (i :: is) ↔ c i ∧ (¬ stop i → UpTo stop c is) := by
  constructor
  · intro h
    refine ⟨h [] i is rfl (by simp), ?_⟩
    intro hi pre j post hsplit hpre
    apply h (i :: pre) j post (by rw [hsplit, List.cons_append])
    simpa [hi] using hpre
  · rintro ⟨hi, his⟩ pre j post hsplit hpre
    cases pre with
    | nil =>
      cases hsplit
      exact hi
    | cons i' pre =>
      cases hsplit
      exact his (hpre i (by simp)) pre j post rfl fun j hj => hpre j (by simp [hj])

end Scan

section Tables
variable (shStrTab : ℕ)

/-- Sections by type and name. -/
def IsBss (shdr : ℕ) : Prop :=
  w.u32 (shdr + 4) = shtNobits ∧ w.strEq (add32 shStrTab (w.u32 shdr)) bssName

def IsText (shdr : ℕ) : Prop :=
  w.u32 (shdr + 4) = shtProgbits ∧ w.strEq (add32 shStrTab (w.u32 shdr)) textName

def IsSymtab (shdr : ℕ) : Prop := w.u32 (shdr + 4) = shtSymtab

/-- The heap begins behind these. -/
def IsHeapBelow (shdr : ℕ) : Prop :=
  let name := add32 shStrTab (w.u32 shdr)
  w.IsBss shStrTab shdr ∨
    w.u32 (shdr + 4) = shtProgbits ∧ (w.strEq name dataName ∨ w.strEq name data1Name)

instance (shdr : ℕ) : Decidable (w.IsBss shStrTab shdr) := inferInstanceAs (Decidable (_ ∧ _))
instance (shdr : ℕ) : Decidable (w.IsText shStrTab shdr) := inferInstanceAs (Decidable (_ ∧ _))
instance (shdr : ℕ) : Decidable (w.IsSymtab shdr) := inferInstanceAs (Decidable (_ = _))
instance (shdr : ℕ) : Decidable (w.IsHeapBelow shStrTab shdr) :=
  inferInstanceAs (Decidable (_ ∨ _))

/-- The range a header is about. -/
def phdrRange (phdr : ℕ) : ℕ × ℕ := (w.u32 (phdr + 8), w.u32 (phdr + 16))
def shdrRange (shdr : ℕ) : ℕ × ℕ := (w.u32 (shdr + 12), w.u32 (shdr + 20))

def heapAfter (heapAddr shdr : ℕ) : ℕ :=
  if w.IsHeapBelow shStrTab shdr then
    max heapAddr (add32 (w.shdrRange shdr).1 (w.shdrRange shdr).2)
  else heapAddr

/-- The number of symbols; the loader stops at a symbol table of another entry size. -/
def symbolTable (shdrs : List ℕ) : Except Stop ℕ :=
  match shdrs.find? w.IsSymtab with
  | none => .ok 0
  | some shdr =>
    if w.u32 (shdr + 36) = 16 then .ok (w.u32 (shdr + 20) / 16)
    else .error (.panic "symbol table entsize is wrong")

/-- What the loops over the section headers need of a header. -/
def HasName (name : List UInt8) (shdr : ℕ) : Prop :=
  w.Has shdr 4 ∧ w.HasStr (add32 shStrTab (w.u32 shdr)) name

def HasSymtab (shdr : ℕ) : Prop :=
  w.Has (shdr + 4) 4 ∧
    (w.IsSymtab shdr → w.Has (shdr + 36) 4 ∧ (w.u32 (shdr + 36) = 16 → w.Has (shdr + 20) 4))

def HasText (shdr : ℕ) : Prop :=
  w.Has (shdr + 4) 4 ∧ (w.u32 (shdr + 4) = shtProgbits → w.HasName shStrTab textName shdr)

def HasHeap (shdr : ℕ) : Prop :=
  let name := add32 shStrTab (w.u32 shdr)
  w.Has shdr 4 ∧ w.Has (shdr + 4) 4 ∧
    (w.u32 (shdr + 4) = shtNobits → w.HasStr name bssName) ∧
    (w.u32 (shdr + 4) = shtProgbits →
      w.HasStr name dataName ∧ (¬ w.strEq name dataName → w.HasStr name data1Name)) ∧
    (w.IsHeapBelow shStrTab shdr → w.Has (shdr + 12) 4 ∧ w.Has (shdr + 20) 4)

end Tables

section Loops
variable {w} {shStrTab shdrTab : ℕ}

theorem gets_sectionNameEq (shdr : ℕ) (name : List UInt8) :
    Gets (w.sectionNameEq shStrTab shdr name) (w.HasName shStrTab name shdr)
      (.ok (w.strEq (add32 shStrTab (w.u32 shdr)) name)) :=
  (gets_load32 shdr).bind (gets_strcmpEq _ _)

theorem gets_locateTextSection (is : List ℕ) :
    Gets (w.locateTextSection shdrTab shStrTab is)
      (UpTo (w.IsText shStrTab) (w.HasText shStrTab) (is.map (shdrAt shdrTab)))
      (.ok ((is.map (shdrAt shdrTab)).find? (w.IsText shStrTab))) := by
  induction is with
  | nil => exact (Gets.pure none).congr ⟨fun _ => upTo_nil, fun _ => trivial⟩ rfl
  | cons i is ih =>
    have hstep : Gets (w.locateTextSection shdrTab shStrTab (i :: is)) _ _ :=
      (gets_load32 _).bind (.ite
        (fun _ => (gets_sectionNameEq _ _).bind (.ite (fun _ => .pure (some _)) fun _ => ih))
        fun _ => ih)
    apply hstep.congr
    · rw [List.map_cons, upTo_cons]
      generalize UpTo _ _ (is.map (shdrAt shdrTab)) = rest
      unfold HasText IsText
      tauto
    · rw [List.map_cons, List.find?_cons]
      unfold IsText
      by_cases hty : w.u32 (shdrAt shdrTab i + 4) = shtProgbits
      · by_cases hname : w.strEq (add32 shStrTab (w.u32 (shdrAt shdrTab i))) textName
        · simp [hty, hname]
        · simp [hty, hname]
      · simp [hty]

/-- The entries of the symbol table that is found. -/
theorem gets_symbolTable (is : List ℕ) :
    Gets (w.locateSymbolTable shdrTab is)
      (UpTo w.IsSymtab w.HasSymtab (is.map (shdrAt shdrTab)))
      (w.symbolTable (is.map (shdrAt shdrTab))) := by
  induction is with
  | nil => exact (Gets.pure 0).congr ⟨fun _ => upTo_nil, fun _ => trivial⟩ rfl
  | cons i is ih =>
    have hfound : Gets (do
        View.assert ((← w.load32 (shdrAt shdrTab i + 36)) = 16) "symbol table entsize is wrong"
        return (← w.load32 (shdrAt shdrTab i + 20)) / 16)
        (w.Has (shdrAt shdrTab i + 36) 4 ∧
          (w.u32 (shdrAt shdrTab i + 36) = 16 → w.Has (shdrAt shdrTab i + 20) 4))
        (if w.u32 (shdrAt shdrTab i + 36) = 16 then .ok (w.u32 (shdrAt shdrTab i + 20) / 16)
          else .error (.panic "symbol table entsize is wrong")) := by
      apply (gets_load32 _).bind
      unfold View.assert
      by_cases hent : w.u32 (shdrAt shdrTab i + 36) = 16
      · rw [if_pos hent, if_pos hent]
        refine Gets.congr ((gets_load32 (shdrAt shdrTab i + 20)).bind (.pure _)) ?_ rfl
        simp [hent]
      · rw [if_neg hent, if_neg hent]
        exact (Gets.stop _).congr (by simp [hent]) rfl
    have hstep : Gets (w.locateSymbolTable shdrTab (i :: is)) _ _ :=
      (gets_load32 _).bind (.ite (fun _ => hfound) fun _ => ih)
    apply hstep.congr
    · rw [List.map_cons, upTo_cons]
      generalize UpTo _ _ (is.map (shdrAt shdrTab)) = rest
      unfold HasSymtab IsSymtab
      tauto
    · unfold symbolTable
      rw [List.map_cons, List.find?_cons]
      unfold IsSymtab
      by_cases hty : w.u32 (shdrAt shdrTab i + 4) = shtSymtab
      · simp [hty]
      · simp [hty]

theorem gets_isHeapBelow (shdr : ℕ) :
    Gets (w.isHeapBelow shStrTab shdr) (w.Has shdr 4 ∧ w.Has (shdr + 4) 4 ∧
      (w.u32 (shdr + 4) = shtNobits → w.HasStr (add32 shStrTab (w.u32 shdr)) bssName) ∧
      (w.u32 (shdr + 4) = shtProgbits → w.HasStr (add32 shStrTab (w.u32 shdr)) dataName ∧
        (¬ w.strEq (add32 shStrTab (w.u32 shdr)) dataName →
          w.HasStr (add32 shStrTab (w.u32 shdr)) data1Name)))
      (.ok (decide (w.IsHeapBelow shStrTab shdr))) := by
  have hstep : Gets (w.isHeapBelow shStrTab shdr) _ _ :=
    (gets_load32 shdr).bind ((gets_load32 (shdr + 4)).bind (.ite (fun _ => gets_strcmpEq _ _)
      fun _ => .ite (fun _ => (gets_strcmpEq _ _).bind (.ite (fun _ => .pure true)
        fun _ => gets_strcmpEq _ _)) fun _ => .pure false))
  have hother : w.u32 (shdr + 4) = shtProgbits → ¬ w.u32 (shdr + 4) = shtNobits := by
    intro hp hn
    rw [hp] at hn
    exact absurd hn (by decide)
  apply hstep.congr
  · tauto
  · unfold IsHeapBelow IsBss
    by_cases hbits : w.u32 (shdr + 4) = shtNobits
    · have hne : ¬ shtNobits = shtProgbits := by decide
      simp [hbits, hne]
    · by_cases hprog : w.u32 (shdr + 4) = shtProgbits
      · have hne : ¬ shtProgbits = shtNobits := by decide
        by_cases hdata : w.strEq (add32 shStrTab (w.u32 shdr)) dataName
        · simp [hprog, hne, hdata]
        · simp [hprog, hne, hdata]
      · simp [hbits, hprog]

theorem gets_getHeapAddress (is : List ℕ) (heapAddr : ℕ) :
    Gets (w.getHeapAddress shdrTab shStrTab is heapAddr)
      (∀ shdr ∈ is.map (shdrAt shdrTab), w.HasHeap shStrTab shdr)
      (.ok ((is.map (shdrAt shdrTab)).foldl (w.heapAfter shStrTab) heapAddr)) := by
  induction is generalizing heapAddr with
  | nil => exact (Gets.pure heapAddr).congr (by simp) rfl
  | cons i is ih =>
    rw [List.map_cons, List.foldl_cons]
    have hstep : Gets (w.getHeapAddress shdrTab shStrTab (i :: is) heapAddr) _ _ :=
      (gets_isHeapBelow _).bind (.ite
        (fun _ => (gets_load32 _).bind ((gets_load32 _).bind (ih _))) fun _ => ih heapAddr)
    apply hstep.congr
    · rw [List.forall_mem_cons]
      generalize (∀ shdr ∈ is.map (shdrAt shdrTab), w.HasHeap shStrTab shdr) = rest
      unfold HasHeap
      by_cases hbelow : w.IsHeapBelow shStrTab (shdrAt shdrTab i)
      · simp [hbelow, and_assoc]
      · simp [hbelow, and_assoc]
    · unfold heapAfter shdrRange
      by_cases hbelow : w.IsHeapBelow shStrTab (shdrAt shdrTab i)
      · simp [hbelow]
      · simp [hbelow]

end Loops

section File
variable (fileData : ℕ)

/-- The tables of a file, and their lengths. -/
def phdrTab : ℕ := add32 fileData (w.u32 (fileData + 28))
def shdrTab : ℕ := add32 fileData (w.u32 (fileData + 32))
def phnum : ℕ := w.u16 (fileData + 44)
def shnum : ℕ := w.u16 (fileData + 48)
def shStrTab : ℕ :=
  add32 fileData (w.u32 (shdrAt (w.shdrTab fileData) (w.u16 (fileData + 50)) + 16))

def phdrs : List ℕ := (List.range (w.phnum fileData)).map (phdrAt (w.phdrTab fileData))

def shdrs : List ℕ := (List.range (w.shnum fileData)).map (shdrAt (w.shdrTab fileData))

def bssSections : List ℕ := (w.shdrs fileData).filter (w.IsBss (w.shStrTab fileData))

/-- The ranges of the image: the file's segments, and its .bss sections. -/
def loadRanges : List (ℕ × ℕ) :=
  (w.phdrs fileData).map w.phdrRange ++ (w.bssSections fileData).map w.shdrRange

def copyInstr (phdr : ℕ) : LoadInstr :=
  .copy (w.phdrRange phdr).1 (add32 fileData (w.u32 (phdr + 4))) (w.phdrRange phdr).2

def zeroInstr (shdr : ℕ) : LoadInstr := .zero (w.shdrRange shdr).1 (w.shdrRange shdr).2

/-- The instructions in front of the jump. -/
def loadInstrs : List LoadInstr :=
  (w.phdrs fileData).map (w.copyInstr fileData) ++ (w.bssSections fileData).map w.zeroInstr

end File

section Complete
variable {w} {fileData : ℕ} {instrLst instrLst' : List LoadInstr}

theorem emitInstr_bind_ok {β : Type} {instr : LoadInstr} {f : List LoadInstr → Plan β} {b : β}
    (h : (emitInstr instrLst instr >>= f).result = .ok b) :
    emitInstr instrLst instr >>= f = f (instrLst ++ [instr]) ∧
      (f (instrLst ++ [instr])).result = .ok b := by
  unfold emitInstr View.assert at h ⊢
  split at h
  · next hlen =>
    rw [if_pos hlen]
    exact ⟨rfl, h⟩
  · cases h

/-- The loop over the program headers, if it gets through. -/
theorem of_loadPhdrs_ok {phdrTab : ℕ} {is : List ℕ}
    (h : (w.loadPhdrs fileData phdrTab is instrLst).result = .ok (some instrLst')) :
    instrLst' = instrLst ++ (is.map (phdrAt phdrTab)).map (w.copyInstr fileData) ∧
      (w.loadPhdrs fileData phdrTab is instrLst).ranges =
        (is.map (phdrAt phdrTab)).map w.phdrRange := by
  induction is generalizing instrLst with
  | nil =>
    cases h
    exact ⟨by simp, rfl⟩
  | cons i is ih =>
    unfold View.loadPhdrs at h ⊢
    dsimp only at h ⊢
    obtain ⟨hty, h⟩ := (gets_load32 _).value_ok h
    rw [hty]
    split at h
    · next hload =>
      rw [if_pos hload]
      obtain ⟨hvaddr, h⟩ := (gets_load32 _).value_ok h
      obtain ⟨hfilesz, h⟩ := (gets_load32 _).value_ok h
      rw [hvaddr, hfilesz]
      obtain ⟨hoffset, h⟩ := (gets_load32 _).value_ok h
      obtain ⟨hemit, h⟩ := emitInstr_bind_ok h
      obtain ⟨hlst, hranges⟩ := ih h
      rw [Plan.ranges, hoffset, hemit, hranges]
      exact ⟨by simp [hlst, copyInstr, phdrRange], rfl⟩
    · cases h

/-- The loop over the .bss sections. -/
theorem of_initBssSections_ok {shdrTab shStrTab : ℕ} {is : List ℕ}
    (h : (w.initBssSections shdrTab shStrTab is instrLst).result = .ok instrLst') :
    instrLst' = instrLst ++
        ((is.map (shdrAt shdrTab)).filter (w.IsBss shStrTab)).map w.zeroInstr ∧
      (w.initBssSections shdrTab shStrTab is instrLst).ranges =
        ((is.map (shdrAt shdrTab)).filter (w.IsBss shStrTab)).map w.shdrRange := by
  induction is generalizing instrLst with
  | nil =>
    cases h
    exact ⟨by simp, rfl⟩
  | cons i is ih =>
    rw [List.map_cons, List.filter_cons]
    unfold View.initBssSections at h ⊢
    dsimp only at h ⊢
    obtain ⟨hty, h⟩ := (gets_load32 _).value_ok h
    rw [hty]
    split at h
    · next hbits =>
      rw [if_pos hbits]
      obtain ⟨hname, h⟩ := (gets_sectionNameEq _ _).value_ok h
      rw [hname]
      split at h
      · next hbss =>
        have hsection : w.IsBss shStrTab (shdrAt shdrTab i) := ⟨hbits, hbss⟩
        rw [if_pos hbss, if_pos (by simpa using hsection)]
        obtain ⟨haddr, h⟩ := (gets_load32 _).value_ok h
        obtain ⟨hsize, h⟩ := (gets_load32 _).value_ok h
        rw [haddr, hsize]
        obtain ⟨hemit, h⟩ := emitInstr_bind_ok h
        obtain ⟨hlst, hranges⟩ := ih h
        rw [Plan.ranges, hemit, hranges]
        exact ⟨by simp [hlst, zeroInstr, shdrRange], rfl⟩
      · next hbss =>
        have hsection : ¬ w.IsBss shStrTab (shdrAt shdrTab i) := fun hs => hbss hs.2
        rw [if_neg hbss, if_neg (by simpa using hsection)]
        exact ih h
    · next hbits =>
      have hsection : ¬ w.IsBss shStrTab (shdrAt shdrTab i) := fun hs => hbits hs.1
      rw [if_neg hbits, if_neg (by simpa using hsection)]
      exact ih h

/-- What a file that is loaded makes the loader do. -/
theorem of_elfLoad_ok {nData : ℕ}
    (h : (w.elfLoad fileData nData).result = .ok (some instrLst)) :
    (w.elfLoad fileData nData).ranges = w.loadRanges fileData ∧
      ∃ a, instrLst = w.loadInstrs fileData ++ [.jump a] := by
  have hlong : ¬ nData < 52 := by
    intro hshort
    rw [elfLoad_short hshort] at h
    cases h
  have hmagic : w.elfLoad fileData nData = w.loadElf fileData := by
    rcases strncmpEq_cases w fileData [0x7f, 0x45, 0x4c, 0x46] with ⟨eq, heq⟩ | ⟨e, he⟩
    · rw [elfLoad_magic hlong heq] at h ⊢
      cases eq with
      | true => rfl
      | false => cases h
    · unfold View.elfLoad at h
      rw [if_neg hlong, he] at h
      cases h
  rw [hmagic] at h ⊢
  unfold View.loadElf at h ⊢
  dsimp only at h ⊢
  obtain ⟨htype, h⟩ := (gets_load16 _).value_ok h
  rw [htype]
  split at h
  · cases h
  · next hexec =>
    rw [if_neg hexec]
    obtain ⟨hphoff, h⟩ := (gets_load32 _).value_ok h
    obtain ⟨hshoff, h⟩ := (gets_load32 _).value_ok h
    obtain ⟨hstrndx, h⟩ := (gets_load16 _).value_ok h
    obtain ⟨hstroff, h⟩ := (gets_load32 _).value_ok h
    obtain ⟨hphnum, h⟩ := (gets_load16 _).value_ok h
    rw [hphoff, hshoff, hstrndx, hstroff, hphnum]
    obtain ⟨r, hphdrs, h⟩ := Plan.of_bind_ok h
    rw [Plan.ranges_bind hphdrs]
    cases r with
    | none => cases h
    | some copies =>
      obtain ⟨rfl, hcopied⟩ := of_loadPhdrs_ok hphdrs
      rw [hcopied]
      dsimp only at h ⊢
      obtain ⟨hshnum, h⟩ := (gets_load16 _).value_ok h
      rw [hshnum]
      obtain ⟨n, -, hsymbols, h⟩ := (gets_symbolTable _).bind_ok h
      rw [hsymbols]
      split at h
      · cases h
      · next hsym =>
        rw [if_neg hsym]
        obtain ⟨zeros, hbss, h⟩ := Plan.of_bind_ok h
        rw [Plan.ranges_bind hbss]
        obtain ⟨rfl, hzeroed⟩ := of_initBssSections_ok hbss
        rw [hzeroed]
        obtain ⟨hheap, h⟩ := (gets_getHeapAddress _ _).value_ok h
        rw [hheap, Plan.ranges]
        obtain ⟨htext, h⟩ := (gets_locateTextSection _).value_ok h
        rw [htext]
        split at h
        · cases h
        · next textSh _ =>
          obtain ⟨haddr, h⟩ := (gets_load32 _).value_ok h
          obtain ⟨hemit, h⟩ := emitInstr_bind_ok h
          rw [haddr, hemit]
          cases h
          refine ⟨?_, w.u32 (textSh + 12), rfl⟩
          change _ ++ (_ ++ []) = _
          rw [List.append_nil]
          rfl

end Complete
end View
end SimplePiOS.Kernel
