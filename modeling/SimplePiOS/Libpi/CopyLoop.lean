import SimplePiOS.Libpi.Uart

/-! The loop of the loaders that copies received words, by the stores it makes. -/
namespace SimplePiOS.Libpi
open Lib Lib.Fifo

/-- `PUT32(addr, val)`. -/
structure Store where
  addr : ℕ
  val : BitVec 32
  deriving DecidableEq

def Store.apply (m : Mem) (st : Store) : Mem := put32 m st.addr st.val

/-- All four bytes of a store lie between two addresses. -/
def Store.Within (lo hi : ℕ) (st : Store) : Prop :=
  ∀ k < 4, lo ≤ add32 st.addr k ∧ add32 st.addr k < hi

/-- The stores the loop makes from a counter on when it gets these words, and what is left of
them once it ends; before that it waits for more. -/
def copyLoop (base size : ℕ) : ℕ → List (BitVec 32) → List Store × Option (List (BitVec 32))
  | i, [] => ([], if i < size then none else some [])
  | i, u :: ws =>
    if i < size then
      let r := copyLoop base size (add32 i 4) ws
      (⟨add32 base i, u⟩ :: r.1, r.2)
    else ([], some (u :: ws))

/-- The loop ends when it has got enough words, whatever they are. -/
def LoopEnds (base size : ℕ) : Prop :=
  ∃ n, ∀ ws, n ≤ ws.length → (copyLoop base size 0 ws).2.isSome

section Turn
variable {base size i : ℕ} {u : BitVec 32} {ws : List (BitVec 32)}

theorem copyLoop_turn (h : i < size) : copyLoop base size i (u :: ws) =
    (⟨add32 base i, u⟩ :: (copyLoop base size (add32 i 4) ws).1,
      (copyLoop base size (add32 i 4) ws).2) := if_pos h

theorem copyLoop_end (h : ¬ i < size) (ws : List (BitVec 32)) :
    copyLoop base size i ws = ([], some ws) := by
  cases ws with
  | nil =>
    unfold copyLoop
    rw [if_neg h]
  | cons u ws => exact if_neg h

/-- The stores on part of the words come first. -/
theorem copyLoop_prefix (ws₂ : List (BitVec 32)) :
    (copyLoop base size i ws).1 <+: (copyLoop base size i (ws ++ ws₂)).1 := by
  induction ws generalizing i with
  | nil =>
    have hnone : (copyLoop base size i []).1 = [] := rfl
    rw [hnone]
    exact List.nil_prefix
  | cons u ws ih =>
    by_cases h : i < size
    · rw [List.cons_append, copyLoop_turn h, copyLoop_turn h]
      exact List.cons_prefix_cons.mpr ⟨rfl, ih⟩
    · simp only [List.cons_append, copyLoop_end h, List.prefix_rfl]

/-- The stores, as long as the counter does not pass the top of a word. -/
theorem mem_copyLoop (hi : size ≤ 2 ^ 32 - 4 ∨ i + 4 * ws.length < 2 ^ 32) {st : Store} :
    st ∈ (copyLoop base size i ws).1 ↔
      ∃ j u, ws[j]? = some u ∧ i + 4 * j < size ∧ st = ⟨add32 base (i + 4 * j), u⟩ := by
  induction ws generalizing i with
  | nil =>
    constructor
    · intro h
      cases h
    · rintro ⟨j, u, hu, -⟩
      cases hu
  | cons u ws ih =>
    by_cases h : i < size
    · rw [List.length_cons] at hi
      have hnext : add32 i 4 = i + 4 := by
        unfold add32
        omega
      have hnext' : i + 4 + 4 * ws.length = i + 4 * (ws.length + 1) := by omega
      rw [copyLoop_turn h, hnext, List.mem_cons, ih (by omega)]
      constructor
      · rintro (rfl | ⟨j, v, hv, hlt, rfl⟩)
        · exact ⟨0, u, rfl, h, rfl⟩
        · have hadd : i + 4 + 4 * j = i + 4 * (j + 1) := by omega
          rw [hadd] at hlt ⊢
          exact ⟨j + 1, v, hv, hlt, rfl⟩
      · rintro ⟨j, v, hv, hlt, rfl⟩
        cases j with
        | zero =>
          cases hv
          exact .inl rfl
        | succ j =>
          have hadd : i + 4 * (j + 1) = i + 4 + 4 * j := by omega
          rw [hadd] at hlt ⊢
          exact .inr ⟨j, v, hv, hlt, rfl⟩
    · rw [copyLoop_end h]
      constructor
      · intro hmem
        cases hmem
      · rintro ⟨j, v, -, hlt, -⟩
        omega

/-- Words stored from `base` on up to `hi`, where the address space is not exceeded. -/
theorem within_of_le {lo hi j : ℕ} (hlo : lo ≤ base) (hhi : base + 4 * (j + 1) ≤ hi)
    (hle : hi ≤ 2 ^ 32) : Store.Within lo hi ⟨add32 base (4 * j), u⟩ := by
  intro k hk
  unfold add32
  dsimp only
  omega

/-- The loop stays below `hi` exactly if the words it gets or those it takes do. -/
theorem copyLoop_within_iff {lo hi : ℕ} (hlo : lo ≤ base) (hhi : hi + 4 < 2 ^ 32)
    (hbase : base < 2 ^ 32) :
    (∀ st ∈ (copyLoop base size 0 ws).1, Store.Within lo hi st) ↔
      ∀ j < ws.length, 4 * j < size → base + 4 * (j + 1) ≤ hi := by
  constructor
  · -- Up to the first word too much the counter is far from its top.
    intro h j
    induction j using Nat.strongRecOn with
    | ind j ih =>
      intro hj hlt
      have hprev : base + 4 * j ≤ hi ∨ j = 0 := by
        cases j with
        | zero => exact .inr rfl
        | succ j => exact .inl (ih j (Nat.lt_succ_self j) (by omega) (by omega))
      have hlen : (ws.take (j + 1)).length = j + 1 := by
        rw [List.length_take]
        omega
      have hmem : (⟨add32 base (4 * j), ws[j]⟩ : Store) ∈
          (copyLoop base size 0 (ws.take (j + 1))).1 := by
        rw [mem_copyLoop (by rw [hlen]; omega)]
        refine ⟨j, ws[j], ?_, by omega, by rw [Nat.zero_add]⟩
        rw [List.getElem?_take_of_lt (Nat.lt_succ_self j), List.getElem?_eq_getElem hj]
      have hpre : (copyLoop base size 0 (ws.take (j + 1))).1 <+:
          (copyLoop base size 0 (ws.take (j + 1) ++ ws.drop (j + 1))).1 := copyLoop_prefix _
      rw [List.take_append_drop] at hpre
      have hin := h _ (hpre.subset hmem) 3 (by omega)
      have hfirst := h _ (hpre.subset hmem) 0 (by omega)
      unfold add32 at hin hfirst
      dsimp only at hin hfirst
      omega
  · intro h st hst
    have hnowrap : size ≤ 2 ^ 32 - 4 ∨ 0 + 4 * ws.length < 2 ^ 32 := by
      by_contra hbig
      have := h (2 ^ 30 - 1) (by omega) (by omega)
      omega
    obtain ⟨j, u, hu, hlt, rfl⟩ := (mem_copyLoop hnowrap).mp hst
    rw [Nat.zero_add] at hlt ⊢
    have hj : j < ws.length := (List.getElem?_eq_some_iff.mp hu).1
    exact within_of_le hlo (h j hj hlt) (by omega)

theorem copyLoop_ends (hsize : size ≤ 2 ^ 32 - 4) (hlen : size ≤ i + 4 * ws.length) :
    (copyLoop base size i ws).2.isSome := by
  induction ws generalizing i with
  | nil =>
    rw [copyLoop_end (by simpa using hlen)]
    rfl
  | cons u ws ih =>
    by_cases h : i < size
    · have hnext : add32 i 4 = i + 4 := by
        unfold add32
        omega
      rw [List.length_cons] at hlen
      rw [copyLoop_turn h, hnext]
      exact ih (by omega)
    · rw [copyLoop_end h]
      rfl

/-- A counter that is a multiple of 4 never gets past the last one of them. -/
theorem copyLoop_waits (hsize : 2 ^ 32 - 4 < size) (hi : i < 2 ^ 32) (h4 : i % 4 = 0) :
    (copyLoop base size i ws).2 = none := by
  have h : i < size := by omega
  induction ws generalizing i with
  | nil => exact if_pos h
  | cons u ws ih =>
    have hnext : add32 i 4 < 2 ^ 32 ∧ add32 i 4 % 4 = 0 := by
      unfold add32
      omega
    rw [copyLoop_turn h]
    exact ih hnext.1 hnext.2 (by omega)

theorem loopEnds_iff : LoopEnds base size ↔ size ≤ 2 ^ 32 - 4 := by
  constructor
  · rintro ⟨n, hends⟩
    by_contra hsize
    have hwaits : (copyLoop base size 0 (List.replicate n 0)).2 = none :=
      copyLoop_waits (by omega) (Nat.two_pow_pos 32) (Nat.zero_mod 4)
    have hsome := hends (List.replicate n 0) (by simp)
    rw [hwaits] at hsome
    cases hsome
  · intro hsize
    exact ⟨size, fun ws hws => copyLoop_ends hsize (by omega)⟩

end Turn

section Loop
variable {α : Type} {next : α → Option (Prog Byte α)} {base size fuel i : ℕ} {m : Mem}
  {k : Option Mem → Prog Byte α}

/-- The program that runs the loop has made these stores when it waits for the next word. -/
theorem solo_copyLoop_waits {ws : List (BitVec 32)} (h : (copyLoop base size i ws).2 = none) :
    ∃ j, Solo next (loadWords base size (ws.length + fuel) i m >>= k) (wordBytes ws) []
      (loadWords base size fuel j ((copyLoop base size i ws).1.foldl Store.apply m) >>= k) := by
  induction ws generalizing i m with
  | nil =>
    refine ⟨i, ?_⟩
    rw [List.length_nil, Nat.zero_add]
    exact .refl _
  | cons u ws ih =>
    by_cases hlt : i < size
    · rw [copyLoop_turn hlt] at h
      obtain ⟨j, hsolo⟩ := ih (m := put32 m (add32 base i) u) h
      refine ⟨j, ?_⟩
      rw [List.length_cons, Nat.add_right_comm, loadWords, if_pos hlt, bind_assoc, wordBytes_cons,
        copyLoop_turn hlt]
      exact solo_getUint hsolo
    · rw [copyLoop_end hlt] at h
      cases h

end Loop
end SimplePiOS.Libpi
