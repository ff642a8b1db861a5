import Mathlib.Order.Nat
import SimplePiOS.Libpi.Memory

/-! Ranges of addresses that behave like an array, and what the bulk stores leave there. -/
namespace SimplePiOS.Libpi
open Lib

variable {σ : Type} {bus : Bus σ} {base n : ℕ}

/-- The bytes at `base` to `base + n` load and store independently of each other in every
state satisfying `inv`. What a store must leave alone besides them goes into `inv`. -/
structure Block (bus : Bus σ) (base n : ℕ) where
  inv : σ → Prop
  get : σ → ℕ → UInt8
  set : ℕ → UInt8 → σ → σ
  load_eq : ∀ {s i}, inv s → i < n → (bus.load (base + i)).run s = .ok (get s i) s
  store_eq : ∀ {s i} (b : UInt8), inv s → i < n →
    (bus.store (base + i) b).run s = .ok () (set i b s)
  inv_set : ∀ {s i} (b : UInt8), inv s → i < n → inv (set i b s)
  get_set : ∀ {s i j} (b : UInt8), inv s → i < n → j < n →
    get (set i b s) j = if j = i then b else get s j

namespace Block

/-- `t` is `s` with the bytes `bs` stored from offset `o` on. -/
structure Stored (B : Block bus base n) (s t : σ) (o : ℕ) (bs : List UInt8) : Prop where
  inv : B.inv t
  get_eq : ∀ j < n, B.get t j = if j < o then B.get s j else bs.getD (j - o) (B.get s j)

variable {B : Block bus base n} {s t u : σ} {o : ℕ} {bs cs : List UInt8}

theorem Stored.nil (h : B.inv s) : B.Stored s s o [] := by
  constructor
  · exact h
  · intro j _
    simp

theorem Stored.set (b : UInt8) (h : B.inv s) (ho : o < n) : B.Stored s (B.set o b s) o [b] := by
  constructor
  · exact B.inv_set b h ho
  · intro j hj
    rw [B.get_set b h ho hj]
    rcases lt_trichotomy j o with hlt | rfl | hgt
    · simp [hlt, hlt.ne]
    · simp
    · obtain ⟨d, hd⟩ : ∃ d, j - o = d + 1 := ⟨j - o - 1, by omega⟩
      simp [hd, hgt.ne', not_lt.mpr hgt.le]

theorem Stored.append (h : B.Stored s t o bs) (h' : B.Stored t u (o + bs.length) cs) :
    B.Stored s u o (bs ++ cs) := by
  constructor
  · exact h'.inv
  · intro j hj
    rw [h'.get_eq j hj, h.get_eq j hj]
    by_cases h1 : j < o
    · simp [h1, Nat.lt_add_right bs.length h1]
    · by_cases h2 : j < o + bs.length
      · have hlt : j - o < bs.length := by omega
        simp [h1, h2, List.getD_eq_getElem?_getD, List.getElem?_append_left hlt]
      · have hge : bs.length ≤ j - o := by omega
        simp [h1, h2, List.getD_eq_getElem?_getD, List.getElem?_append_right hge,
          List.getElem?_eq_none hge, Nat.sub_add_eq]

/-- A store of as many bytes as the block has determines its contents. -/
theorem Stored.contents (h : B.Stored s t 0 bs) (hn : bs.length = n) :
    (List.range n).map (B.get t) = bs := by
  apply List.ext_getElem
  · simp [hn]
  · intro i hi hi'
    have hin : i < n := by simpa using hi
    simp [h.get_eq i hin, List.getD_eq_getElem?_getD, List.getElem?_eq_getElem hi']

/-- A run of single stores, one for each index below `m`. -/
theorem forM_store (B : Block bus base n) (f : ℕ → UInt8) (m : ℕ) (h : B.inv s)
    (ho : o + m ≤ n) :
    ∃ t, (forM (List.range m) fun d => bus.store (base + o + d) (f d)).run s = .ok ⟨⟩ t ∧
      B.Stored s t o ((List.range m).map f) := by
  induction m with
  | zero => exact ⟨s, rfl, Stored.nil h⟩
  | succ m ih =>
    obtain ⟨t, hrun, hst⟩ := ih (by omega)
    refine ⟨B.set (o + m) (f m) t, ?_, ?_⟩
    · have hm := B.store_eq (f m) hst.inv (i := o + m) (by omega)
      rw [← Nat.add_assoc] at hm
      rw [List.range_succ, List.forM_append, bind_ok hrun, List.forM_cons]
      exact bind_ok hm
    · rw [List.range_succ, List.map_append]
      apply hst.append
      simpa using Stored.set (f m) hst.inv (by omega)

theorem fillBytes_eq (B : Block bus base n) (c : UInt8) (m : ℕ) (h : B.inv s)
    (ho : o + m ≤ n) :
    ∃ t, (fillBytes bus c (base + o) m).run s = .ok () t ∧ B.Stored s t o (List.replicate m c) := by
  induction m generalizing s o with
  | zero => exact ⟨s, rfl, Stored.nil h⟩
  | succ m ih =>
    have hst := Stored.set (B := B) (o := o) c h (by omega)
    obtain ⟨t, hrun, hst'⟩ := ih (o := o + 1) hst.inv (by omega)
    refine ⟨t, ?_, ?_⟩
    · unfold fillBytes
      rw [bind_ok (B.store_eq c h (i := o) (by omega)), Nat.add_assoc]
      exact hrun
    · rw [List.replicate_succ]
      exact hst.append hst'

/-- `memset` of a block that ends below the top of the address space. -/
theorem memset_eq (B : Block bus base n) (c : UInt8) (h : B.inv s) (hn : base + n < 2 ^ 32) :
    ∃ t, (memset bus base c n).run s = .ok () t ∧ B.Stored s t 0 (List.replicate n c) := by
  have hlen : add32 base n - base = n := by
    unfold add32
    rw [Nat.mod_eq_of_lt hn]
    omega
  unfold memset
  rw [hlen]
  exact fillBytes_eq (o := 0) B c n h (by omega)

section Copy
variable {src : ℕ}

/-- The bytes `bs` lie at `src`, out of reach of stores to the block. -/
def Source (B : Block bus base n) (src : ℕ) (bs : List UInt8) : Prop :=
  ∀ t, B.inv t → ∀ i b, bs[i]? = some b → (bus.load (src + i)).run t = .ok b t

theorem Source.head {b : UInt8} (h : B.Source src (b :: bs)) (ht : B.inv t) :
    (bus.load src).run t = .ok b t := h t ht 0 b rfl

theorem Source.tail {b : UInt8} (h : B.Source src (b :: bs)) : B.Source (src + 1) bs := by
  intro t ht i c hc
  rw [Nat.add_assoc, Nat.add_comm 1]
  exact h t ht (i + 1) c hc

theorem copyBytes_eq (B : Block bus base n) (h : B.inv s) (hsrc : B.Source src bs)
    (ho : o + bs.length ≤ n) :
    ∃ t, (copyBytes bus (base + o) src bs.length).run s = .ok () t ∧ B.Stored s t o bs := by
  induction bs generalizing s o src with
  | nil => exact ⟨s, rfl, .nil h⟩
  | cons b bs ih =>
    rw [List.length_cons] at ho
    have hst := Stored.set (B := B) (o := o) b h (by omega)
    obtain ⟨t, hrun, hst'⟩ := ih (o := o + 1) hst.inv hsrc.tail (by omega)
    refine ⟨t, ?_, hst.append hst'⟩
    rw [List.length_cons]
    unfold copyBytes
    rw [bind_ok (hsrc.head h), bind_ok (B.store_eq b h (by omega))]
    exact hrun

/-- Four bytes at a time; all four are loaded before the first is stored. -/
theorem copyWords_eq (B : Block bus base n) (m : ℕ) (h : B.inv s) (hsrc : B.Source src bs)
    (hm : bs.length = 4 * m) (ho : o + bs.length ≤ n) :
    ∃ t, (copyWords bus (base + o) src m).run s = .ok () t ∧ B.Stored s t o bs := by
  induction m generalizing s o src bs with
  | zero =>
    rw [Nat.mul_zero, List.length_eq_zero_iff] at hm
    subst hm
    exact ⟨s, rfl, .nil h⟩
  | succ m ih =>
    match bs, hm with
    | b0 :: b1 :: b2 :: b3 :: rest, hm =>
      simp only [List.length_cons] at hm ho
      have h0 := Stored.set (B := B) (o := o) b0 h (by omega)
      have h1 := Stored.set (B := B) (o := o + 1) b1 h0.inv (by omega)
      have h2 := Stored.set (B := B) (o := o + 2) b2 h1.inv (by omega)
      have h3 := Stored.set (B := B) (o := o + 3) b3 h2.inv (by omega)
      obtain ⟨t, hrun, hst⟩ := ih (o := o + 4) h3.inv hsrc.tail.tail.tail.tail (by omega) (by omega)
      refine ⟨t, ?_, h0.append (h1.append (h2.append (h3.append hst)))⟩
      unfold copyWords
      simp only [Nat.add_assoc base o]
      rw [bind_ok (hsrc.head h), bind_ok (hsrc.tail.head h), bind_ok (hsrc.tail.tail.head h),
        bind_ok (hsrc.tail.tail.tail.head h), bind_ok (B.store_eq b0 h (by omega)),
        bind_ok (B.store_eq b1 h0.inv (by omega)), bind_ok (B.store_eq b2 h1.inv (by omega)),
        bind_ok (B.store_eq b3 h2.inv (by omega))]
      exact hrun

theorem memcpy_eq (B : Block bus base n) (h : B.inv s) (hsrc : B.Source src bs)
    (ho : o + bs.length ≤ n) :
    ∃ t, (memcpy bus (base + o) src bs.length).run s = .ok () t ∧ B.Stored s t o bs := by
  unfold memcpy
  split
  · next haligned => exact copyWords_eq B _ h hsrc (by omega) ho
  · exact copyBytes_eq B h hsrc ho

end Copy
end Block
end SimplePiOS.Libpi
