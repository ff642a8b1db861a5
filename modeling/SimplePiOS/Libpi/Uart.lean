import SimplePiOS.Lib.Fifo
import SimplePiOS.Libpi.Crc32

/-! 32-bit words over a byte stream: `get_uint` and `put_uint`, the same on the Unix side, in
the bootloader and in the kernel, and the loop that stores received words. -/
namespace SimplePiOS.Libpi
open Lib Lib.Fifo

abbrev Byte := BitVec 8

def ofLeBytes (b0 b1 b2 b3 : Byte) : BitVec 32 :=
  b0.setWidth 32 ||| b1.setWidth 32 <<< 8 ||| b2.setWidth 32 <<< 16 ||| b3.setWidth 32 <<< 24

def sendByte (b : Byte) : Prog Byte Unit := .send b (.done ())

def getByte : Prog Byte Byte := .recv .done

def putUint (u : BitVec 32) : Prog Byte Unit := do
  sendByte ((u >>> 0).setWidth 8)
  sendByte ((u >>> 8).setWidth 8)
  sendByte ((u >>> 16).setWidth 8)
  sendByte ((u >>> 24).setWidth 8)

def getUint : Prog Byte (BitVec 32) := do
  let b0 ← getByte
  let b1 ← getByte
  let b2 ← getByte
  let b3 ← getByte
  return ofLeBytes b0 b1 b2 b3

/-- Byte memory, of which the low 2^32 addresses exist. -/
abbrev Mem := ℕ → Byte

/-- `PUT32`, little-endian. -/
def put32 (m : Mem) (a : ℕ) (u : BitVec 32) : Mem := fun x =>
  if x < 2 ^ 32 ∧ sub32 x a < 4 then (u >>> (8 * sub32 x a)).setWidth 8 else m x

/-- The bytes a checksum of `n` bytes at `a` reads. -/
def readBytes (m : Mem) (a n : ℕ) : List Byte := (List.range n).map fun i => m (add32 a i)

/-- `for (int i = ..; i < size; i += 4) PUT32(base + i, get_uint())`; `none` when the bound on
its turns is used up. -/
def loadWords (base size : ℕ) : ℕ → ℕ → Mem → Prog Byte (Option Mem)
  | 0, _, _ => return none
  | fuel + 1, i, m => do
    if i < size then
      let u ← getUint
      loadWords base size fuel (add32 i 4) (put32 m (add32 base i) u)
    else return some m

theorem ofLeBytes_leBytes (u : BitVec 32) :
    ofLeBytes ((u >>> 0).setWidth 8) ((u >>> 8).setWidth 8) ((u >>> 16).setWidth 8)
      ((u >>> 24).setWidth 8) = u := by
  unfold ofLeBytes
  apply BitVec.eq_of_getLsbD_eq
  intro i hi
  simp only [BitVec.getLsbD_or, BitVec.getLsbD_shiftLeft, BitVec.getLsbD_setWidth,
    BitVec.getLsbD_ushiftRight]
  grind

theorem leBytes_ofLeBytes (b0 b1 b2 b3 : Byte) :
    leBytes (ofLeBytes b0 b1 b2 b3) = [b0, b1, b2, b3] := by
  have hbyte : ∀ (k : ℕ) (b : Byte), (∀ i < 8, ((ofLeBytes b0 b1 b2 b3) >>> k).getLsbD i = b.getLsbD i) →
      ((ofLeBytes b0 b1 b2 b3) >>> k).setWidth 8 = b := by
    intro k b h
    apply BitVec.eq_of_getLsbD_eq
    intro i hi
    rw [BitVec.getLsbD_setWidth, h i hi]
    simp [hi]
  unfold leBytes
  rw [hbyte 0 b0, hbyte 8 b1, hbyte 16 b2, hbyte 24 b3] <;>
    · intro i hi
      simp only [ofLeBytes, BitVec.getLsbD_or, BitVec.getLsbD_shiftLeft, BitVec.getLsbD_setWidth,
        BitVec.getLsbD_ushiftRight]
      grind

theorem leBytes_injective {u v : BitVec 32} (h : leBytes u = leBytes v) : u = v := by
  unfold leBytes at h
  simp only [List.cons.injEq, and_true] at h
  obtain ⟨h0, h1, h2, h3⟩ := h
  rw [← ofLeBytes_leBytes u, ← ofLeBytes_leBytes v, h0, h1, h2, h3]

@[simp] theorem length_leBytes (u : BitVec 32) : (leBytes u).length = 4 := rfl

/-- A stream that starts with a word starts with no other. -/
theorem leBytes_append_inj {u v : BitVec 32} {bs cs : List Byte}
    (h : leBytes u ++ bs = leBytes v ++ cs) : u = v ∧ bs = cs := by
  obtain ⟨hw, hrest⟩ := List.append_inj h rfl
  exact ⟨leBytes_injective hw, hrest⟩

/-- The bytes of a list of words. -/
def wordBytes (ws : List (BitVec 32)) : List Byte := ws.flatMap leBytes

@[simp] theorem wordBytes_nil : wordBytes [] = [] := rfl

@[simp] theorem wordBytes_cons (u : BitVec 32) (ws : List (BitVec 32)) :
    wordBytes (u :: ws) = leBytes u ++ wordBytes ws := rfl

@[simp] theorem length_wordBytes (ws : List (BitVec 32)) :
    (wordBytes ws).length = 4 * ws.length := by
  simp [wordBytes, List.length_flatMap, List.map_const', Nat.mul_comm]

/-- Bytes taken as words. -/
def toWords : List Byte → List (BitVec 32)
  | b0 :: b1 :: b2 :: b3 :: bs => ofLeBytes b0 b1 b2 b3 :: toWords bs
  | _ => []

theorem wordBytes_toWords (bs : List Byte) (h : bs.length % 4 = 0) :
    wordBytes (toWords bs) = bs := by
  induction bs using toWords.induct with
  | case1 b0 b1 b2 b3 bs ih =>
    have hlen : bs.length % 4 = 0 := by
      simp only [List.length_cons] at h
      omega
    unfold toWords
    rw [wordBytes_cons, leBytes_ofLeBytes, ih hlen]
    rfl
  | case2 bs hshort =>
    match bs with
    | [] => rfl
    | [_] => simp at h
    | [_, _] => simp at h
    | [_, _, _] => simp at h
    | b0 :: b1 :: b2 :: b3 :: bs => exact absurd rfl (hshort b0 b1 b2 b3 bs)

section Solo
variable {α : Type} {next : α → Option (Prog Byte α)} {q : Prog Byte α} {ins outs : List Byte}

theorem solo_putUint (u : BitVec 32) {p : Unit → Prog Byte α}
    (h : Solo next (p ()) ins outs q) : Solo next (putUint u >>= p) ins (leBytes u ++ outs) q :=
  .send (.send (.send (.send h)))

theorem solo_getUint {u : BitVec 32} {k : BitVec 32 → Prog Byte α}
    (h : Solo next (k u) ins outs q) : Solo next (getUint >>= k) (leBytes u ++ ins) outs q := by
  refine .recv (.recv (.recv (.recv ?_)))
  rw [← ofLeBytes_leBytes u] at h
  exact h

theorem solo_of_putUint {u : BitVec 32} {p : Unit → Prog Byte α}
    (h : Solo next (putUint u >>= p) ins outs q) (hq : 4 ≤ outs.length ∨ q.IsDone) :
    ∃ outs', outs = leBytes u ++ outs' ∧ Solo next (p ()) ins outs' q := by
  have hne : ∀ {os : List Byte}, 0 < os.length ∨ q.IsDone → os ≠ [] ∨ q.IsDone :=
    fun hos => hos.imp List.length_pos_iff.mp id
  obtain ⟨o1, rfl, h1⟩ := Solo.of_send h (hne (hq.imp (by omega) id))
  rw [List.length_cons] at hq
  obtain ⟨o2, rfl, h2⟩ := Solo.of_send h1 (hne (hq.imp (by omega) id))
  rw [List.length_cons] at hq
  obtain ⟨o3, rfl, h3⟩ := Solo.of_send h2 (hne (hq.imp (by omega) id))
  rw [List.length_cons] at hq
  obtain ⟨o4, rfl, h4⟩ := Solo.of_send h3 (hne (hq.imp (by omega) id))
  exact ⟨o4, rfl, h4⟩

theorem solo_of_getUint {k : BitVec 32 → Prog Byte α} (h : Solo next (getUint >>= k) ins outs q)
    (hq : outs ≠ [] ∨ q.IsDone) :
    ∃ u ins', ins = leBytes u ++ ins' ∧ Solo next (k u) ins' outs q := by
  obtain ⟨b0, i1, rfl, h1⟩ := Solo.of_recv h hq
  obtain ⟨b1, i2, rfl, h2⟩ := Solo.of_recv h1 hq
  obtain ⟨b2, i3, rfl, h3⟩ := Solo.of_recv h2 hq
  obtain ⟨b3, i4, rfl, h4⟩ := Solo.of_recv h3 hq
  refine ⟨ofLeBytes b0 b1 b2 b3, i4, ?_, h4⟩
  rw [leBytes_ofLeBytes]
  rfl

theorem solo_putWords (ws : List (BitVec 32)) {p : Unit → Prog Byte α}
    (h : Solo next (p ()) ins outs q) :
    Solo next (forM ws putUint >>= p) ins (wordBytes ws ++ outs) q := by
  induction ws with
  | nil => exact h
  | cons u ws ih =>
    rw [List.forM_cons, bind_assoc, wordBytes_cons, List.append_assoc]
    exact solo_putUint u ih

theorem solo_of_putWords {ws : List (BitVec 32)} {p : Unit → Prog Byte α}
    (h : Solo next (forM ws putUint >>= p) ins outs q) (hq : q.IsDone) :
    ∃ outs', outs = wordBytes ws ++ outs' ∧ Solo next (p ()) ins outs' q := by
  induction ws generalizing outs with
  | nil => exact ⟨outs, rfl, h⟩
  | cons u ws ih =>
    rw [List.forM_cons, bind_assoc] at h
    obtain ⟨outs1, rfl, h1⟩ := solo_of_putUint h (.inr hq)
    obtain ⟨outs2, rfl, h2⟩ := ih h1
    refine ⟨outs2, ?_, h2⟩
    rw [wordBytes_cons, List.append_assoc]

end Solo

/-- Consecutive words stored from `a` on. -/
def storeWords (m : Mem) (a : ℕ) : List (BitVec 32) → Mem
  | [] => m
  | u :: ws => storeWords (put32 m a u) (add32 a 4) ws

section Store
variable {m : Mem} {a : ℕ}

theorem put32_outside {x : ℕ} (u : BitVec 32) (h : x < a ∨ a + 4 ≤ x) (ha : a + 4 ≤ 2 ^ 32) :
    put32 m a u x = m x := by
  unfold put32
  rw [if_neg]
  unfold sub32
  omega

theorem put32_inside {i : ℕ} (u : BitVec 32) (hi : i < 4) (ha : a + 4 ≤ 2 ^ 32) :
    put32 m a u (a + i) = (u >>> (8 * i)).setWidth 8 := by
  have hsub : sub32 (a + i) a = i := by
    unfold sub32
    omega
  unfold put32
  rw [if_pos ⟨by omega, by omega⟩, hsub]

theorem storeWords_outside {x : ℕ} (ws : List (BitVec 32)) (h : x < a ∨ a + 4 * ws.length ≤ x)
    (ha : a + 4 * ws.length ≤ 2 ^ 32) : storeWords m a ws x = m x := by
  induction ws generalizing m a with
  | nil => rfl
  | cons u ws ih =>
    rw [List.length_cons] at h ha
    unfold storeWords
    by_cases hend : ws = []
    · subst hend
      exact put32_outside u (by simpa using h) (by simpa using ha)
    · have hlen := List.length_pos_iff.mpr hend
      have hadd : add32 a 4 = a + 4 := by
        unfold add32
        omega
      rw [hadd, ih (by omega) (by omega)]
      exact put32_outside u (by omega) (by omega)

theorem readBytes_storeWords (ws : List (BitVec 32)) (ha : a + 4 * ws.length ≤ 2 ^ 32) :
    readBytes (storeWords m a ws) a (4 * ws.length) = wordBytes ws := by
  induction ws generalizing m a with
  | nil => rfl
  | cons u ws ih =>
    rw [List.length_cons] at ha
    have hword : ∀ i < 4, storeWords m a (u :: ws) (add32 a i) = (u >>> (8 * i)).setWidth 8 := by
      intro i hi
      have hadd : add32 a i = a + i := by
        unfold add32
        omega
      rw [hadd, ← put32_inside (m := m) (a := a) u hi (by omega)]
      unfold storeWords
      by_cases hend : ws = []
      · subst hend
        rfl
      · have hlen := List.length_pos_iff.mpr hend
        have hnext : add32 a 4 = a + 4 := by
          unfold add32
          omega
        rw [hnext]
        exact storeWords_outside (a := a + 4) (x := a + i) ws (by omega) (by omega)
    have hrest : ((List.range (4 * ws.length)).map fun i =>
        storeWords m a (u :: ws) (add32 a (4 + i))) = wordBytes ws := by
      by_cases hend : ws = []
      · subst hend
        rfl
      · have hlen := List.length_pos_iff.mpr hend
        have hnext : add32 a 4 = a + 4 := by
          unfold add32
          omega
        rw [← ih (m := put32 m a u) (a := a + 4) (by omega)]
        unfold readBytes
        apply List.map_congr_left
        intro i _
        have hadd : add32 a (4 + i) = add32 (a + 4) i := by
          unfold add32
          omega
        rw [hadd]
        conv_lhs => unfold storeWords
        rw [hnext]
    have hsplit : List.range (4 * (ws.length + 1)) =
        List.range 4 ++ (List.range (4 * ws.length)).map (4 + ·) := by
      rw [Nat.mul_succ, Nat.add_comm, List.range_add]
    rw [List.length_cons, readBytes, hsplit, List.map_append, List.map_map, wordBytes_cons]
    congr 1
    simp only [List.range_succ, List.range_zero, List.nil_append, List.map_append, List.map_cons,
      List.map_nil, hword 0 (by omega), hword 1 (by omega), hword 2 (by omega),
      hword 3 (by omega)]
    rfl

variable {α : Type} {next : α → Option (Prog Byte α)} {q : Prog Byte α} {ins outs : List Byte}
  {base size fuel i : ℕ} {k : Option Mem → Prog Byte α}

theorem solo_loadWords (ws : List (BitVec 32)) (hi : i + 4 * ws.length = size)
    (hsize : size < 2 ^ 32) (hfuel : ws.length < fuel)
    (h : Solo next (k (some (storeWords m (add32 base i) ws))) ins outs q) :
    Solo next (loadWords base size fuel i m >>= k) (wordBytes ws ++ ins) outs q := by
  induction ws generalizing m i fuel with
  | nil =>
    obtain ⟨f, rfl⟩ : ∃ f, fuel = f + 1 := ⟨fuel - 1, by omega⟩
    unfold loadWords
    rw [if_neg (by simp at hi; omega)]
    exact h
  | cons u ws ih =>
    rw [List.length_cons] at hi hfuel
    obtain ⟨f, rfl⟩ : ∃ f, fuel = f + 1 := ⟨fuel - 1, by omega⟩
    have hlt : add32 i 4 = i + 4 := by
      unfold add32
      omega
    have haddr : add32 base (add32 i 4) = add32 (add32 base i) 4 := by
      unfold add32
      omega
    unfold loadWords
    rw [if_pos (by omega), bind_assoc, wordBytes_cons, List.append_assoc]
    apply solo_getUint
    apply ih (by omega) (by omega)
    rw [haddr]
    exact h

theorem solo_of_loadWords (hi : i % 4 = 0) (hle : i ≤ size) (h4 : size % 4 = 0)
    (hsize : size < 2 ^ 32) (h : Solo next (loadWords base size fuel i m >>= k) ins outs q)
    (hq : outs ≠ [] ∨ q.IsDone) :
    (∃ ins', Solo next (k none) ins' outs q) ∨
    ∃ ws ins', ins = wordBytes ws ++ ins' ∧ i + 4 * ws.length = size ∧
      Solo next (k (some (storeWords m (add32 base i) ws))) ins' outs q := by
  induction fuel generalizing i m ins with
  | zero => exact .inl ⟨ins, h⟩
  | succ fuel ih =>
    unfold loadWords at h
    by_cases hend : i < size
    · rw [if_pos hend, bind_assoc] at h
      obtain ⟨u, ins1, rfl, h1⟩ := solo_of_getUint h hq
      have hnext : add32 i 4 = i + 4 := by
        unfold add32
        omega
      have haddr : add32 base (add32 i 4) = add32 (add32 base i) 4 := by
        unfold add32
        omega
      rcases ih (by omega) (by omega) h1 with hnone | ⟨ws, ins2, rfl, hlen, h2⟩
      · exact .inl hnone
      · refine .inr ⟨u :: ws, ins2, ?_, ?_, ?_⟩
        · rw [wordBytes_cons, List.append_assoc]
        · rw [List.length_cons]
          omega
        · rw [haddr] at h2
          exact h2
    · rw [if_neg hend] at h
      exact .inr ⟨[], ins, rfl, by simp; omega, h⟩

end Store
end SimplePiOS.Libpi
