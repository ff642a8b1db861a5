import Mathlib.Algebra.Order.Field.Basic
import Mathlib.Algebra.Order.Field.Rat
import Mathlib.Data.Nat.Count
import Mathlib.Tactic.FieldSimp
import Mathlib.Tactic.Linarith
import Mathlib.Tactic.Ring

/-! libpi/pwm.c: on and off slots spread evenly by an integer line drawing algorithm. -/
namespace SimplePiOS.Libpi

/-- Why `int_line` ends without returning. -/
inductive LineFault where
  /-- A signed operation leaves the range of `int`: the source says nothing about the rest. -/
  | overflow
  | assertFailed (expr : String)
  /-- The bound on the turns of the loop is used up. -/
  | diverge
  deriving DecidableEq

/-- The value of a signed operation. -/
def int (x : ℤ) : Except LineFault ℤ :=
  if -2 ^ 31 ≤ x ∧ x < 2 ^ 31 then .ok x else .error .overflow

def lineAssert (p : Prop) [Decidable p] (expr : String) : Except LineFault Unit :=
  if p then .ok () else .error (.assertFailed expr)

/-- The locals of `int_line` that change, and the array it writes to. -/
structure Line where
  x0 : ℤ
  y0 : ℤ
  err : ℤ
  pos : ℤ
  choice : ℕ → BitVec 32

/-- `if (e2 >-dx) { err -= dy; x0++; pwm_choice[pos++] = 1; }` -/
def stepOn (dx dy e2 : ℤ) (s : Line) : Except LineFault Line := do
  let ndx ← int (-dx)
  if e2 > ndx then
    let err ← int (s.err - dy)
    let x0 ← int (s.x0 + 1)
    let pos ← int (s.pos + 1)
    return { s with err, x0, pos, choice := Function.update s.choice s.pos.toNat 1 }
  else return s

/-- `if (e2 < dy) { err += dx; y0++; pwm_choice[pos++] = 0; }` -/
def stepOff (dx dy e2 : ℤ) (s : Line) : Except LineFault Line := do
  if e2 < dy then
    let err ← int (s.err + dx)
    let y0 ← int (s.y0 + 1)
    let pos ← int (s.pos + 1)
    return { s with err, y0, pos, choice := Function.update s.choice s.pos.toNat 0 }
  else return s

def intLineLoop (dx dy : ℤ) : ℕ → Line → Except LineFault Line
  | 0, _ => .error .diverge
  | fuel + 1, s =>
    if s.x0 = dx ∧ s.y0 = dy then return s
    else do
      let e2 := s.err
      let s ← stepOn dx dy e2 s
      let s ← stepOff dx dy e2 s
      intLineLoop dx dy fuel s

/-- Division truncates, and the sum is compared with `n` as an unsigned value. -/
def intLine (fuel : ℕ) (choice : ℕ → BitVec 32) (n : BitVec 32) (x1 y1 : ℤ) :
    Except LineFault (ℕ → BitVec 32) := do
  let ndy ← int (-y1)
  let err ← int ((if x1 > y1 then x1 else ndy).tdiv 2)
  let sum ← int (x1 + y1)
  lineAssert (n = BitVec.ofInt 32 sum) "n==x1+y1"
  let s ← intLineLoop x1 y1 fuel ⟨0, 0, err, 0, choice⟩
  lineAssert (BitVec.ofInt 32 s.pos = n) "pos == n"
  return s.choice

/-- An `unsigned` argument becomes an `int` of the same bits. -/
def pwmCompute (fuel : ℕ) (choices : ℕ → BitVec 32) (on n : BitVec 32) :
    Except LineFault (ℕ → BitVec 32) := do
  lineAssert (on ≤ n) "on<=n"
  let off := n - on
  intLine fuel choices n on.toInt off.toInt

def Line.emitOn (dy : ℤ) (s : Line) : Line where
  x0 := s.x0 + 1
  y0 := s.y0
  err := s.err - dy
  pos := s.pos + 1
  choice := Function.update s.choice s.pos.toNat 1

def Line.emitOff (dx : ℤ) (s : Line) : Line where
  x0 := s.x0
  y0 := s.y0 + 1
  err := s.err + dx
  pos := s.pos + 1
  choice := Function.update s.choice s.pos.toNat 0

/-- The number of ones among the first `k` slots. -/
def onSlots (choice : ℕ → BitVec 32) (k : ℕ) : ℕ := Nat.count (fun i => choice i = 1) k

theorem lineAssert_ok {p : Prop} [Decidable p] {expr : String} (h : p) :
    lineAssert p expr = .ok () :=
  if_pos h

theorem int_ok {x : ℤ} (hlo : -2 ^ 31 ≤ x) (hhi : x < 2 ^ 31) : int x = .ok x :=
  if_pos ⟨hlo, hhi⟩

section Slots
variable {choice : ℕ → BitVec 32} {k : ℕ} {b : BitVec 32}

theorem onSlots_congr {choice' : ℕ → BitVec 32} (h : ∀ i < k, choice' i = choice i) :
    onSlots choice' k = onSlots choice k := by
  induction k with
  | zero => rfl
  | succ k ih =>
    have hrest := ih fun i hi => h i (by omega)
    unfold onSlots at hrest ⊢
    rw [Nat.count_succ, Nat.count_succ, hrest, h k (by omega)]

theorem onSlots_update {p : ℕ} (hk : k ≤ p) :
    onSlots (Function.update choice p b) k = onSlots choice k := by
  apply onSlots_congr
  intro i hi
  rw [Function.update_of_ne (by omega)]

theorem onSlots_update_succ :
    onSlots (Function.update choice k b) (k + 1) = onSlots choice k + if b = 1 then 1 else 0 := by
  have hbefore : onSlots (Function.update choice k b) k = onSlots choice k := onSlots_update le_rfl
  unfold onSlots at hbefore ⊢
  rw [Nat.count_succ, hbefore, Function.update_self]

end Slots

/-- After `x` on and `y` off slots: they stand in front, evenly spread, and the rest of the
array is as it was. -/
structure Emitted (dx dy : ℤ) (choices : ℕ → BitVec 32) (x y : ℕ) (s : Line) : Prop where
  x0 : s.x0 = x
  y0 : s.y0 = y
  pos : s.pos = (x + y : ℕ)
  rest : ∀ i, x + y ≤ i → s.choice i = choices i
  bits : ∀ i < x + y, s.choice i = 0 ∨ s.choice i = 1
  ones : onSlots s.choice (x + y) = x
  even : ∀ k ≤ x + y, |(dx + dy) * onSlots s.choice k - k * dx| < dx + dy

section Loop
variable {dx dy e2 : ℤ} {choices : ℕ → BitVec 32} {x y fuel : ℕ} {s : Line}

/-- One slot more. -/
theorem Emitted.emit {b : BitVec 32} {t : Line} {x' y' : ℕ} (h : Emitted dx dy choices x y s)
    (hsum : x' + y' = x + y + 1) (hx : x' = x + if b = 1 then 1 else 0) (hb : b = 0 ∨ b = 1)
    (ht : t.choice = Function.update s.choice (x + y) b) (hx0 : t.x0 = x') (hy0 : t.y0 = y')
    (hpos : t.pos = s.pos + 1) (heven : |(dx + dy) * x' - (x + y + 1 : ℕ) * dx| < dx + dy) :
    Emitted dx dy choices x' y' t := by
  have hones : onSlots t.choice (x + y + 1) = x' := by
    rw [ht, onSlots_update_succ, h.ones, hx]
  refine ⟨hx0, hy0, ?_, ?_, ?_, ?_, ?_⟩
  · rw [hpos, h.pos, hsum]
    push_cast
    ring
  · intro i hi
    rw [ht, Function.update_of_ne (by omega)]
    exact h.rest i (by omega)
  · intro i hi
    rw [ht]
    by_cases hlast : i = x + y
    · rw [hlast, Function.update_self]
      exact hb
    · rw [Function.update_of_ne hlast]
      exact h.bits i (by omega)
  · rw [hsum]
    exact hones
  · intro k hk
    by_cases hlast : k = x + y + 1
    · rw [hlast, hones]
      exact heven
    · rw [ht, onSlots_update (by omega)]
      exact h.even k (by omega)

theorem Emitted.on (h : Emitted dx dy choices x y s) (heven : |dy * x - dx * y + dy| < dx + dy) :
    Emitted dx dy choices (x + 1) y (s.emitOn dy) := by
  have hpos : s.pos.toNat = x + y := by
    rw [h.pos]
    rfl
  refine h.emit (b := 1) ?_ rfl (.inr rfl) ?_ ?_ h.y0 rfl ?_
  · omega
  · unfold Line.emitOn
    rw [hpos]
  · unfold Line.emitOn
    rw [h.x0]
    rfl
  · have hgap : (dx + dy) * ((x + 1 : ℕ) : ℤ) - (x + y + 1 : ℕ) * dx = dy * x - dx * y + dy := by
      push_cast
      ring
    rw [hgap]
    exact heven

theorem Emitted.off (h : Emitted dx dy choices x y s) (heven : |dy * x - dx * y - dx| < dx + dy) :
    Emitted dx dy choices x (y + 1) (s.emitOff dx) := by
  have hpos : s.pos.toNat = x + y := by
    rw [h.pos]
    rfl
  refine h.emit (b := 0) ?_ rfl (.inl rfl) ?_ h.x0 ?_ rfl ?_
  · omega
  · unfold Line.emitOff
    rw [hpos]
  · unfold Line.emitOff
    rw [h.y0]
    rfl
  · have hgap : (dx + dy) * (x : ℤ) - (x + y + 1 : ℕ) * dx = dy * x - dx * y - dx := by
      push_cast
      ring
    rw [hgap]
    exact heven

theorem stepOn_fires (h : e2 > -dx) (hdx : 0 ≤ dx) (hdx' : dx < 2 ^ 30)
    (herr : -2 ^ 31 ≤ s.err - dy ∧ s.err - dy < 2 ^ 31) (hx : 0 ≤ s.x0 ∧ s.x0 < 2 ^ 30)
    (hpos : 0 ≤ s.pos ∧ s.pos < 2 ^ 31 - 1) :
    stepOn dx dy e2 s = .ok (s.emitOn dy) := by
  have hndx : int (-dx) = .ok (-dx) := int_ok (by omega) (by omega)
  have herr' : int (s.err - dy) = .ok (s.err - dy) := int_ok herr.1 herr.2
  have hx' : int (s.x0 + 1) = .ok (s.x0 + 1) := int_ok (by omega) (by omega)
  have hpos' : int (s.pos + 1) = .ok (s.pos + 1) := int_ok (by omega) (by omega)
  unfold stepOn
  simp only [hndx, herr', hx', hpos', bind, Except.bind]
  rw [if_pos h]
  rfl

theorem stepOn_skips (h : ¬ e2 > -dx) (hdx : 0 ≤ dx) (hdx' : dx < 2 ^ 30) :
    stepOn dx dy e2 s = .ok s := by
  have hndx : int (-dx) = .ok (-dx) := int_ok (by omega) (by omega)
  unfold stepOn
  simp only [hndx, bind, Except.bind]
  rw [if_neg h]
  rfl

theorem stepOff_fires (h : e2 < dy) (herr : -2 ^ 31 ≤ s.err + dx ∧ s.err + dx < 2 ^ 31)
    (hy : 0 ≤ s.y0 ∧ s.y0 < 2 ^ 30) (hpos : 0 ≤ s.pos ∧ s.pos < 2 ^ 31 - 1) :
    stepOff dx dy e2 s = .ok (s.emitOff dx) := by
  have herr' : int (s.err + dx) = .ok (s.err + dx) := int_ok herr.1 herr.2
  have hy' : int (s.y0 + 1) = .ok (s.y0 + 1) := int_ok (by omega) (by omega)
  have hpos' : int (s.pos + 1) = .ok (s.pos + 1) := int_ok (by omega) (by omega)
  unfold stepOff
  simp only [herr', hy', hpos', bind, Except.bind]
  rw [if_pos h]
  rfl

theorem stepOff_skips (h : ¬ e2 < dy) : stepOff dx dy e2 s = .ok s := by
  unfold stepOff
  rw [if_neg h]
  rfl

theorem intLineLoop_done (h : s.x0 = dx ∧ s.y0 = dy) : intLineLoop dx dy (fuel + 1) s = .ok s :=
  if_pos h

theorem intLineLoop_turn {s₁ s₂ : Line} (h : ¬ (s.x0 = dx ∧ s.y0 = dy))
    (hon : stepOn dx dy s.err s = .ok s₁) (hoff : stepOff dx dy s.err s₁ = .ok s₂) :
    intLineLoop dx dy (fuel + 1) s = intLineLoop dx dy fuel s₂ := by
  rw [intLineLoop, if_neg h]
  simp only [hon, hoff, bind, Except.bind]

/-- With more on than off slots, each turn begins with an on slot. -/
structure MoreOn (dx dy : ℤ) (choices : ℕ → BitVec 32) (x y : ℕ) (s : Line) : Prop
    extends Emitted dx dy choices x y s where
  err : s.err = dx / 2 + dx * y - dy * x
  lo : 0 ≤ s.err
  hi : s.err < dx
  le : x ≤ dx
  off : y ≤ x

/-- Otherwise each turn ends with an off slot. -/
structure MoreOff (dx dy : ℤ) (choices : ℕ → BitVec 32) (x y : ℕ) (s : Line) : Prop
    extends Emitted dx dy choices x y s where
  err : s.err = -(dy / 2) + dx * y - dy * x
  lo : -dy < s.err
  hi : s.err ≤ 0
  le : y ≤ dy
  on : x ≤ y

/-- A multiple of `d` between `-d` and `d` is 0. -/
theorem eq_zero_of_mul_lt {d z : ℤ} (hlo : -d < d * z) (hhi : d * z < d) : z = 0 := by
  have hd : 0 < d := by omega
  have hlt : z < 1 := by
    apply lt_of_mul_lt_mul_left _ hd.le
    omega
  have hgt : -1 < z := by
    apply lt_of_mul_lt_mul_left _ hd.le
    omega
  omega

theorem intLineLoop_moreOn (hdy : 0 ≤ dy) (hlt : dy < dx) (hdx : dx < 2 ^ 30) (fuel : ℕ)
    (h : MoreOn dx dy choices x y s) (hfuel : dx - x < fuel) :
    ∃ t, intLineLoop dx dy fuel s = .ok t ∧ Emitted dx dy choices dx.toNat dy.toNat t := by
  induction fuel generalizing x y s with
  | zero =>
    have hle := h.le
    omega
  | succ fuel ih =>
    have hx0 := h.x0
    have hy0 := h.y0
    have hpos := h.pos
    have herr := h.err
    have hlo := h.lo
    have hhi := h.hi
    have hle := h.le
    have hoff := h.off
    by_cases hdone : s.x0 = dx ∧ s.y0 = dy
    · refine ⟨s, intLineLoop_done hdone, ?_⟩
      have hx : dx.toNat = x := by omega
      have hy : dy.toNat = y := by omega
      rw [hx, hy]
      exact h.toEmitted
    · have hxlt : (x : ℤ) < dx := by
        by_contra hge
        have hx : (x : ℤ) = dx := by omega
        have hmul : dx * ((y : ℤ) - dy) = s.err - dx / 2 := by
          rw [herr, hx]
          ring
        have hy := eq_zero_of_mul_lt (d := dx) (z := (y : ℤ) - dy) (by omega) (by omega)
        exact hdone ⟨by omega, by omega⟩
      have hgap : dy * x - dx * y = dx / 2 - s.err := by
        rw [herr]
        ring
      have hon : stepOn dx dy s.err s = .ok (s.emitOn dy) := stepOn_fires (by omega) (by omega)
        hdx ⟨by omega, by omega⟩ ⟨by omega, by omega⟩ ⟨by omega, by omega⟩
      have hfirst : Emitted dx dy choices (x + 1) y (s.emitOn dy) := by
        apply h.toEmitted.on
        rw [abs_lt]
        omega
      have herr₁ : (s.emitOn dy).err = s.err - dy := rfl
      have hx₁ := hfirst.x0
      have hy₁ := hfirst.y0
      have hpos₁ := hfirst.pos
      by_cases hless : s.err < dy
      · have hoff' : stepOff dx dy s.err (s.emitOn dy) = .ok ((s.emitOn dy).emitOff dx) :=
          stepOff_fires hless ⟨by omega, by omega⟩ ⟨by omega, by omega⟩ ⟨by omega, by omega⟩
        rw [intLineLoop_turn hdone hon hoff']
        have hsecond : Emitted dx dy choices (x + 1) (y + 1) ((s.emitOn dy).emitOff dx) := by
          apply hfirst.off
          have hgap₁ : dy * ((x + 1 : ℕ) : ℤ) - dx * y - dx = dy * x - dx * y + dy - dx := by
            push_cast
            ring
          rw [hgap₁, hgap, abs_lt]
          omega
        apply ih (x := x + 1) (y := y + 1)
        · have herr₂ : ((s.emitOn dy).emitOff dx).err = s.err - dy + dx := rfl
          refine ⟨hsecond, ?_, ?_, ?_, ?_, ?_⟩
          · rw [herr₂, herr]
            push_cast
            ring
          · omega
          · omega
          · omega
          · omega
        · omega
      · rw [intLineLoop_turn hdone hon (stepOff_skips hless)]
        apply ih (x := x + 1) (y := y)
        · refine ⟨hfirst, ?_, ?_, ?_, ?_, ?_⟩
          · rw [herr₁, herr]
            push_cast
            ring
          · omega
          · omega
          · omega
          · omega
        · omega

theorem intLineLoop_moreOff (hdx : 0 ≤ dx) (hle : dx ≤ dy) (hdy : dy < 2 ^ 30) (fuel : ℕ)
    (h : MoreOff dx dy choices x y s) (hfuel : dy - y < fuel) :
    ∃ t, intLineLoop dx dy fuel s = .ok t ∧ Emitted dx dy choices dx.toNat dy.toNat t := by
  induction fuel generalizing x y s with
  | zero =>
    have hle := h.le
    omega
  | succ fuel ih =>
    have hx0 := h.x0
    have hy0 := h.y0
    have hpos := h.pos
    have herr := h.err
    have hlo := h.lo
    have hhi := h.hi
    have hyle := h.le
    have hon := h.on
    by_cases hdone : s.x0 = dx ∧ s.y0 = dy
    · refine ⟨s, intLineLoop_done hdone, ?_⟩
      have hx : dx.toNat = x := by omega
      have hy : dy.toNat = y := by omega
      rw [hx, hy]
      exact h.toEmitted
    · have hylt : (y : ℤ) < dy := by
        by_contra hge
        have hy : (y : ℤ) = dy := by omega
        have hmul : dy * (dx - x) = s.err + dy / 2 := by
          rw [herr, hy]
          ring
        have hx := eq_zero_of_mul_lt (d := dy) (z := dx - x) (by omega) (by omega)
        exact hdone ⟨by omega, by omega⟩
      have hgap : dy * x - dx * y = -(dy / 2) - s.err := by
        rw [herr]
        ring
      by_cases hmore : s.err > -dx
      · have hon' : stepOn dx dy s.err s = .ok (s.emitOn dy) := stepOn_fires hmore hdx
          (by omega) ⟨by omega, by omega⟩ ⟨by omega, by omega⟩ ⟨by omega, by omega⟩
        have hfirst : Emitted dx dy choices (x + 1) y (s.emitOn dy) := by
          apply h.toEmitted.on
          rw [abs_lt]
          omega
        have herr₁ : (s.emitOn dy).err = s.err - dy := rfl
        have hy₁ := hfirst.y0
        have hpos₁ := hfirst.pos
        have hoff : stepOff dx dy s.err (s.emitOn dy) = .ok ((s.emitOn dy).emitOff dx) :=
          stepOff_fires (by omega) ⟨by omega, by omega⟩ ⟨by omega, by omega⟩ ⟨by omega, by omega⟩
        rw [intLineLoop_turn hdone hon' hoff]
        have hsecond : Emitted dx dy choices (x + 1) (y + 1) ((s.emitOn dy).emitOff dx) := by
          apply hfirst.off
          have hgap₁ : dy * ((x + 1 : ℕ) : ℤ) - dx * y - dx = dy * x - dx * y + dy - dx := by
            push_cast
            ring
          rw [hgap₁, hgap, abs_lt]
          omega
        apply ih (x := x + 1) (y := y + 1)
        · have herr₂ : ((s.emitOn dy).emitOff dx).err = s.err - dy + dx := rfl
          refine ⟨hsecond, ?_, ?_, ?_, ?_, ?_⟩
          · rw [herr₂, herr]
            push_cast
            ring
          · omega
          · omega
          · omega
          · omega
        · omega
      · have hoff : stepOff dx dy s.err s = .ok (s.emitOff dx) :=
          stepOff_fires (by omega) ⟨by omega, by omega⟩ ⟨by omega, by omega⟩ ⟨by omega, by omega⟩
        rw [intLineLoop_turn hdone (stepOn_skips hmore hdx (by omega)) hoff]
        have hsecond : Emitted dx dy choices x (y + 1) (s.emitOff dx) := by
          apply h.toEmitted.off
          rw [abs_lt]
          omega
        apply ih (x := x) (y := y + 1)
        · have herr₂ : (s.emitOff dx).err = s.err + dx := rfl
          refine ⟨hsecond, ?_, ?_, ?_, ?_, ?_⟩
          · rw [herr₂, herr]
            push_cast
            ring
          · omega
          · omega
          · omega
          · omega
        · omega

end Loop

section Schedule
variable {choices : ℕ → BitVec 32} {fuel : ℕ} {on n : BitVec 32}

/-- `err = (dx>dy ? dx : -dy)/2` -/
def startErr (dx dy : ℤ) : ℤ := (if dx > dy then dx else -dy).tdiv 2

theorem startErr_eq {dx dy : ℤ} (hdx : 0 ≤ dx) (hdy : 0 ≤ dy) :
    startErr dx dy = if dy < dx then dx / 2 else -(dy / 2) := by
  unfold startErr
  by_cases hlt : dy < dx
  · rw [if_pos hlt, if_pos hlt, Int.tdiv_eq_ediv_of_nonneg hdx]
  · rw [if_neg hlt, if_neg hlt, Int.neg_tdiv, Int.tdiv_eq_ediv_of_nonneg hdy]

/-- Nothing has been emitted yet. -/
theorem Emitted.start {dx dy : ℤ} (hpos : 0 < dx + dy) (err : ℤ) :
    Emitted dx dy choices 0 0 ⟨0, 0, err, 0, choices⟩ := by
  refine ⟨rfl, rfl, rfl, fun _ _ => rfl, fun i hi => absurd hi (Nat.not_lt_zero i), rfl, ?_⟩
  intro k hk
  have hk0 : k = 0 := by omega
  have hones : onSlots choices 0 = 0 := rfl
  rw [hk0]
  change |(dx + dy) * (onSlots choices 0 : ℤ) - ((0 : ℕ) : ℤ) * dx| < dx + dy
  rw [hones]
  simpa using hpos

/-- The loop starts with half the longer side as its error and ends at the corner. -/
theorem intLineLoop_emitted {dx dy : ℤ} (hdx : 0 ≤ dx) (hdy : 0 ≤ dy) (hpos : 0 < dx + dy)
    (hsum : dx + dy < 2 ^ 30) (hfuel : dx + dy < fuel) :
    ∃ t, intLineLoop dx dy fuel ⟨0, 0, startErr dx dy, 0, choices⟩ = .ok t ∧
      Emitted dx dy choices dx.toNat dy.toNat t := by
  obtain ⟨err, herr⟩ : ∃ err, err = startErr dx dy := ⟨_, rfl⟩
  rw [← herr]
  rw [startErr_eq hdx hdy] at herr
  have hstart : Emitted dx dy choices 0 0 ⟨0, 0, err, 0, choices⟩ := .start hpos err
  by_cases hlt : dy < dx
  · have herr' : err = dx / 2 := by
      rw [herr, if_pos hlt]
    apply intLineLoop_moreOn (x := 0) (y := 0) hdy hlt (by omega)
    · refine ⟨hstart, ?_, ?_, ?_, hdx, le_rfl⟩
      · simpa using herr'
      · change 0 ≤ err
        omega
      · change err < dx
        omega
    · omega
  · have herr' : err = -(dy / 2) := by
      rw [herr, if_neg hlt]
    apply intLineLoop_moreOff (x := 0) (y := 0) hdx (by omega) (by omega)
    · refine ⟨hstart, ?_, ?_, ?_, hdy, le_rfl⟩
      · simpa using herr'
      · change -dy < err
        omega
      · change err ≤ 0
        omega
    · omega

theorem ok_bind {α β : Type} {x : Except LineFault α} {a : α} (h : x = .ok a)
    (f : α → Except LineFault β) : (x >>= f) = f a := by
  rw [h]
  rfl

theorem intLine_ok {x1 y1 : ℤ} {t : Line} (hx : 0 ≤ x1) (hy : 0 ≤ y1) (hsum : x1 + y1 < 2 ^ 30)
    (hn : n = BitVec.ofInt 32 (x1 + y1))
    (hloop : intLineLoop x1 y1 fuel ⟨0, 0, startErr x1 y1, 0, choices⟩ = .ok t)
    (hpos : t.pos = x1 + y1) : intLine fuel choices n x1 y1 = .ok t.choice := by
  have hndy : int (-y1) = .ok (-y1) := int_ok (by omega) (by omega)
  have herr : int (startErr x1 y1) = .ok (startErr x1 y1) := by
    rw [startErr_eq hx hy]
    apply int_ok
    · split <;> omega
    · split <;> omega
  have hint : int (x1 + y1) = .ok (x1 + y1) := int_ok (by omega) (by omega)
  have hend : BitVec.ofInt 32 t.pos = n := by
    rw [hpos]
    exact hn.symm
  have hfold : (if x1 > y1 then x1 else -y1).tdiv 2 = startErr x1 y1 := rfl
  unfold intLine
  rw [ok_bind hndy, hfold, ok_bind herr, ok_bind hint, ok_bind (lineAssert_ok hn), ok_bind hloop,
    ok_bind (lineAssert_ok hend)]
  rfl

/-- `pwm_compute` on any side lengths that fit: it returns what its loop emits. -/
theorem pwmCompute_ok {t : Line} (hon : on ≤ n) (hn : n.toNat < 2 ^ 30)
    (hloop : intLineLoop on.toNat (n - on).toNat fuel
      ⟨0, 0, startErr on.toNat (n - on).toNat, 0, choices⟩ = .ok t) (hpos : t.pos = n.toNat) :
    pwmCompute fuel choices on n = .ok t.choice := by
  have hle : on.toNat ≤ n.toNat := hon
  have hoff : (n - on).toNat = n.toNat - on.toNat := BitVec.toNat_sub_of_le hon
  have hint : ∀ x : BitVec 32, x.toNat < 2 ^ 30 → x.toInt = x.toNat := by
    intro x hx
    apply BitVec.toInt_eq_toNat_of_lt
    omega
  have hsum : (on.toNat : ℤ) + ((n - on).toNat : ℤ) = n.toNat := by omega
  unfold pwmCompute
  rw [ok_bind (lineAssert_ok hon)]
  dsimp only
  rw [hint on (by omega), hint (n - on) (by omega)]
  apply intLine_ok (by omega) (by omega) (by omega) _ hloop
  · rw [hpos, hsum]
  · rw [hsum, BitVec.ofInt_natCast, BitVec.ofNat_toNat, BitVec.setWidth_eq]

/-- The schedule of `pwm_compute`: it returns, nothing overflows, the first `n` slots are
written and no other, `on` of them are on, and they are spread evenly. -/
theorem pwmCompute_schedule (choices : ℕ → BitVec 32) (on n : BitVec 32) (fuel : ℕ) (hon : on ≤ n)
    (hn : n.toNat < 2 ^ 30) (hfuel : n.toNat < fuel) :
    ∃ out, pwmCompute fuel choices on n = .ok out ∧ (∀ i, n.toNat ≤ i → out i = choices i) ∧
      (∀ i < n.toNat, out i = 0 ∨ out i = 1) ∧ onSlots out n.toNat = on.toNat ∧
      ∀ k ≤ n.toNat, |(onSlots out k : ℚ) - k * on.toNat / n.toNat| < 1 := by
  have hle : on.toNat ≤ n.toNat := hon
  have hoff : (n - on).toNat = n.toNat - on.toNat := BitVec.toNat_sub_of_le hon
  by_cases hzero : n.toNat = 0
  · have hloop : intLineLoop on.toNat (n - on).toNat fuel
        ⟨0, 0, startErr on.toNat (n - on).toNat, 0, choices⟩ =
          .ok ⟨0, 0, startErr on.toNat (n - on).toNat, 0, choices⟩ := by
      obtain ⟨m, rfl⟩ : ∃ m, fuel = m + 1 := ⟨fuel - 1, by omega⟩
      apply intLineLoop_done
      constructor
      · change (0 : ℤ) = on.toNat
        omega
      · change (0 : ℤ) = (n - on).toNat
        omega
    refine ⟨_, pwmCompute_ok hon hn hloop ?_, fun _ _ => rfl, ?_, ?_, ?_⟩
    · rw [hzero]
      rfl
    · intro i hi
      omega
    · have hones : onSlots choices 0 = 0 := rfl
      rw [hzero]
      exact hones.trans (by omega)
    · intro k hk
      have hk0 : k = 0 := by omega
      have hones : onSlots choices 0 = 0 := rfl
      rw [hk0, hones]
      simp
  · have hloops : (on.toNat : ℤ) + ((n - on).toNat : ℤ) < fuel := by omega
    obtain ⟨t, hloop, ht⟩ : ∃ t, intLineLoop on.toNat (n - on).toNat fuel
        ⟨0, 0, startErr on.toNat (n - on).toNat, 0, choices⟩ = .ok t ∧
          Emitted on.toNat (n - on).toNat choices on.toNat (n - on).toNat t :=
      intLineLoop_emitted (by omega) (by omega) (by omega) (by omega) hloops
    have hsum : on.toNat + (n - on).toNat = n.toNat := by omega
    have hrest := ht.rest
    have hbits := ht.bits
    have hones := ht.ones
    have heven := ht.even
    rw [hsum] at hrest hbits hones heven
    refine ⟨_, pwmCompute_ok hon hn hloop ?_, hrest, hbits, hones, ?_⟩
    · rw [ht.pos, hsum]
    · intro k hk
      have hint := heven k hk
      have htotal : (on.toNat : ℤ) + ((n - on).toNat : ℤ) = n.toNat := by omega
      rw [htotal] at hint
      have hpos : (0 : ℚ) < n.toNat := by
        have hn0 : 0 < n.toNat := by omega
        exact_mod_cast hn0
      have hrat : |(n.toNat : ℚ) * onSlots t.choice k - k * on.toNat| < n.toNat := by
        exact_mod_cast hint
      have hscaled : (onSlots t.choice k : ℚ) - k * on.toNat / n.toNat =
          ((n.toNat : ℚ) * onSlots t.choice k - k * on.toNat) / n.toNat := by
        field_simp
      rw [hscaled, abs_div, abs_of_pos hpos, div_lt_one hpos]
      exact hrat

theorem pwmCompute_schedule_three : ∃ out, pwmCompute 11 (fun _ => 7) 3 10 = .ok out ∧
    (∀ i, 10 ≤ i → out i = 7) ∧ (∀ i < 10, out i = 0 ∨ out i = 1) ∧ onSlots out 10 = 3 ∧
    ∀ k ≤ 10, |(onSlots out k : ℚ) - k * (3 : ℕ) / (10 : ℕ)| < 1 :=
  pwmCompute_schedule (fun _ => 7) 3 10 11 (by decide) (by decide) (by decide)

end Schedule

end SimplePiOS.Libpi
