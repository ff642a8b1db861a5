import SimplePiOS.Libpi.Peripherals

/-! The pin driver: what any sequence of its calls makes of the pins. -/
namespace SimplePiOS.Libpi.Hw
open Lib.Mmio

section Code

def gpioPinLast : Word := 53
def gpioInvalidRequest : Word := -1
def gpioFuncBits : ℕ := 3
def gpioFuncMask : Word := 7
def gpioFuncInput : Word := 0
def gpioFuncOutput : Word := 1
def gpioFuncAlt5 : Word := 2
def gpioPudDisable : Word := 0
def gpioPudPulldown : Word := 1
def gpioPudPullup : Word := 2

/-- A pin number that is in range. -/
def pinOf (pin : Word) (h : ¬ pin > gpioPinLast) : Fin 54 :=
  ⟨pin.toNat, Nat.lt_succ_of_le (Nat.le_of_not_lt h)⟩

/-- The function select register of a pin: `gpio_fsel[pin / 10]`. -/
def fselOf (p : Fin 54) : Fin 6 := ⟨p.val / 10, by omega⟩

/-- A function put into the field at `3 * k`: the mask and the two steps on `value`. -/
def putField (value function : Word) (k : ℕ) : Word :=
  value &&& ~~~ (gpioFuncMask <<< (gpioFuncBits * k)) ||| function <<< (gpioFuncBits * k)

def gpioSetFunction (pin function : Word) : HwM Word :=
  if h : pin > gpioPinLast ∨ function > gpioFuncMask then return 0
  else do
    let value ← get32 (.gpioFsel (fselOf (pinOf pin (not_or.mp h).1)))
    put32 (.gpioFsel (fselOf (pinOf pin (not_or.mp h).1))) (putField value function (pin.toNat % 10))
    return 1

def gpioGetFunction (pin : Word) : HwM Word :=
  if h : pin > gpioPinLast then return gpioInvalidRequest
  else do
    let value ← get32 (.gpioFsel (fselOf (pinOf pin h)))
    return value >>> (gpioFuncBits * (pin.toNat % 10)) &&& gpioFuncMask

def gpioSetInput (pin : Word) : HwM Word := do
  let _ ← gpioSetFunction pin gpioFuncInput
  return 1

def gpioSetOutput (pin : Word) : HwM Word := do
  let _ ← gpioSetFunction pin gpioFuncOutput
  return 1

def gpioWrite (pin val : Word) : HwM Word :=
  if h : pin > gpioPinLast then return gpioInvalidRequest
  else if val ≠ 0 then do
    put32 (.gpioSet (bank (pinOf pin h))) ((1 : Word) <<< (pin.toNat % 32))
    return 1
  else do
    put32 (.gpioClr (bank (pinOf pin h))) ((1 : Word) <<< (pin.toNat % 32))
    return 1

def gpioRead (pin : Word) : HwM Word :=
  if h : pin > gpioPinLast then return gpioInvalidRequest
  else do
    let value ← get32 (.gpioLvl (bank (pinOf pin h)))
    return value >>> (pin.toNat % 32) &&& 1

def gpioSetPud (pin pud : Word) : HwM Word :=
  if h : pin > gpioPinLast then return gpioInvalidRequest
  else do
    put32 .gpioPud pud
    delayCycles 150
    put32 (.gpioPudclk (bank (pinOf pin h))) ((1 : Word) <<< (pin.toNat % 32))
    delayCycles 150
    put32 .gpioPud gpioPudDisable
    put32 (.gpioPudclk (bank (pinOf pin h))) 0
    return 1

def gpioSetPullup (pin : Word) : HwM Word := gpioSetPud pin gpioPudPullup
def gpioSetPulldown (pin : Word) : HwM Word := gpioSetPud pin gpioPudPulldown
def gpioSetOn (pin : Word) : HwM Word := gpioWrite pin 1
def gpioSetOff (pin : Word) : HwM Word := gpioWrite pin 0

/-- The calls of gpio.h. -/
inductive Call where
  | setFunction (pin function : Word)
  | getFunction (pin : Word)
  | setInput (pin : Word)
  | setOutput (pin : Word)
  | write (pin val : Word)
  | read (pin : Word)
  | setPud (pin pud : Word)
  | setPullup (pin : Word)
  | setPulldown (pin : Word)
  | setOn (pin : Word)
  | setOff (pin : Word)

def Call.run : Call → HwM Word
  | .setFunction pin function => gpioSetFunction pin function
  | .getFunction pin => gpioGetFunction pin
  | .setInput pin => gpioSetInput pin
  | .setOutput pin => gpioSetOutput pin
  | .write pin val => gpioWrite pin val
  | .read pin => gpioRead pin
  | .setPud pin pud => gpioSetPud pin pud
  | .setPullup pin => gpioSetPullup pin
  | .setPulldown pin => gpioSetPulldown pin
  | .setOn pin => gpioSetOn pin
  | .setOff pin => gpioSetOff pin

/-- One call after the other, with their results. -/
def runCalls : List Call → HwM (List Word)
  | [] => return []
  | call :: calls => do
    let r ← call.run
    let rs ← runCalls calls
    return r :: rs

end Code

section Pins

/-- What the driver is for: each pin with its function, its output and its pull. -/
structure Pin where
  function : Word
  out : Bool
  pull : Word

abbrev Pins := Fin 54 → Pin

/-- The function of a pin, in its register. -/
def functionOf (fsel : Fin 6 → Word) (p : Fin 54) : Word :=
  fsel (fselOf p) >>> (gpioFuncBits * (p.val % 10)) &&& gpioFuncMask

/-- The pins as the registers have them. -/
def Gpio.pins (c : Gpio) : Pins := fun p =>
  ⟨functionOf c.fsel p, (c.out (bank p)).getLsbD (p.val % 32), c.pull p⟩

/-- Changes of one pin, if there is one of that number. -/
def alter (pin : Word) (f : Pin → Pin) (s : Pins) : Pins := fun p =>
  if p.val = pin.toNat then f (s p) else s p

def setFunction (pin function : Word) (s : Pins) : Pins :=
  if function > gpioFuncMask then s else alter pin (fun x => { x with function := function }) s

def setOut (pin : Word) (out : Bool) : Pins → Pins := alter pin fun x => { x with out := out }
def setPull (pin pud : Word) : Pins → Pins := alter pin fun x => { x with pull := pud }

/-- What a call does to the pins. -/
def Call.effect : Call → Pins → Pins
  | .setFunction pin function => Hw.setFunction pin function
  | .setInput pin => Hw.setFunction pin gpioFuncInput
  | .setOutput pin => Hw.setFunction pin gpioFuncOutput
  | .write pin val => setOut pin (val ≠ 0)
  | .setOn pin => setOut pin true
  | .setOff pin => setOut pin false
  | .setPud pin pud => setPull pin pud
  | .setPullup pin => setPull pin gpioPudPullup
  | .setPulldown pin => setPull pin gpioPudPulldown
  | .getFunction _ => id
  | .read _ => id

/-- Whether a pin is high. -/
def Gpio.High (g : Gpio) (p : Fin 54) : Prop := (g.lvl (bank p)).getLsbD (p.val % 32) = true

instance (g : Gpio) (p : Fin 54) : Decidable (g.High p) := inferInstanceAs (Decidable (_ = _))

/-- What it answers, run from `c` to `c'`. A read gives the level at the moment of the access. -/
def Call.Answers (c c' : Chip) (r : Word) : Call → Prop
  | .setFunction pin function => r = if pin > gpioPinLast ∨ function > gpioFuncMask then 0 else 1
  | .setInput _ => r = 1
  | .setOutput _ => r = 1
  | .getFunction pin => if h : pin > gpioPinLast then r = gpioInvalidRequest
    else r = (c.gpio.pins (pinOf pin h)).function
  | .read pin => if h : pin > gpioPinLast then r = gpioInvalidRequest
    else ∃ c₁, Reach chip (gpioRead pin, c) (.done r, c₁) ∧ Drifts chip c₁ c' ∧
      r = if c₁.gpio.High (pinOf pin h) then 1 else 0
  | .write pin _ => r = if pin > gpioPinLast then gpioInvalidRequest else 1
  | .setPud pin _ => r = if pin > gpioPinLast then gpioInvalidRequest else 1
  | .setPullup pin => r = if pin > gpioPinLast then gpioInvalidRequest else 1
  | .setPulldown pin => r = if pin > gpioPinLast then gpioInvalidRequest else 1
  | .setOn pin => r = if pin > gpioPinLast then gpioInvalidRequest else 1
  | .setOff pin => r = if pin > gpioPinLast then gpioInvalidRequest else 1

end Pins

section Bits
variable {f w : Word} {i j k : ℕ}

theorem getLsbD_mask (i : ℕ) : gpioFuncMask.getLsbD i = decide (i < 3) := by
  by_cases hi : i < 32
  · revert i
    decide
  · rw [BitVec.getLsbD_of_ge _ _ (by omega)]
    simp
    omega

theorem getLsbD_function (hf : ¬ f > gpioFuncMask) (hi : 3 ≤ i) : f.getLsbD i = false := by
  have hle : f.toNat ≤ 7 := Nat.le_of_not_lt hf
  have hpow : 2 ^ 3 ≤ 2 ^ i := Nat.pow_le_pow_right (by decide) hi
  exact Nat.testBit_lt_two_pow (by omega)

/-- Outside of its field nothing changes. -/
theorem getLsbD_putField (hf : ¬ f > gpioFuncMask) (h : i < 3 * k ∨ 3 * k + 3 ≤ i) :
    (putField w f k).getLsbD i = w.getLsbD i := by
  have hbits : gpioFuncBits = 3 := rfl
  simp only [putField, hbits, BitVec.getLsbD_or, BitVec.getLsbD_and, BitVec.getLsbD_not,
    BitVec.getLsbD_shiftLeft]
  by_cases hi : i < 32
  · rcases h with h | h
    · simp [h, hi]
    · have hmask : gpioFuncMask.getLsbD (i - 3 * k) = false := by
        rw [getLsbD_mask]
        simp
        omega
      have hfun : f.getLsbD (i - 3 * k) = false := getLsbD_function hf (by omega)
      rw [hmask, hfun]
      simp [hi]
  · simp [hi, BitVec.getLsbD_of_ge w i (by omega)]

theorem field_putField (hf : ¬ f > gpioFuncMask) (hk : k < 10) (hj : j < 10) :
    putField w f k >>> (gpioFuncBits * j) &&& gpioFuncMask =
      if j = k then f else w >>> (gpioFuncBits * j) &&& gpioFuncMask := by
  have hbits : gpioFuncBits = 3 := rfl
  apply BitVec.eq_of_getLsbD_eq
  intro i hi
  rw [BitVec.getLsbD_and, BitVec.getLsbD_ushiftRight, getLsbD_mask, hbits]
  by_cases hfield : i < 3
  · by_cases hjk : j = k
    · subst hjk
      have hmask : gpioFuncMask.getLsbD i = true := by simp [getLsbD_mask, hfield]
      have hlt : 3 * j + i < 32 := by omega
      simp only [putField, hbits, BitVec.getLsbD_or, BitVec.getLsbD_and, BitVec.getLsbD_not,
        BitVec.getLsbD_shiftLeft, Nat.add_sub_cancel_left, hmask]
      simp [hfield, hlt, Nat.not_lt.mpr (Nat.le_add_right (3 * j) i)]
    · rw [getLsbD_putField hf (by omega), if_neg hjk, BitVec.getLsbD_and, BitVec.getLsbD_ushiftRight,
        getLsbD_mask]
  · rw [decide_eq_false hfield, Bool.and_false]
    split
    · exact (getLsbD_function hf (by omega)).symm
    · simp [getLsbD_mask, hfield]

end Bits

section Like
variable {g : Gpio} {n : ℕ} {v : Word}

/-- The registers as in `g`, for so many cycles at least. -/
def Gpio.Near (g : Gpio) (n : ℕ) (c : Gpio) : Prop :=
  ∃ held lvl, n ≤ held ∧ c = { g with held := held, lvl := lvl }

def Like (g : Gpio) (n : ℕ) (c : Chip) : Prop := g.Near n c.gpio

theorem Gpio.Near.later {c c' : Gpio} {m : ℕ} (h : g.Near n c) (hlater : c.Later m c') :
    g.Near (n + m) c' := by
  obtain ⟨held, lvl, hheld, rfl⟩ := h
  obtain ⟨k, lvl', hk, rfl⟩ := hlater
  exact ⟨held + k, lvl', by omega, rfl⟩

theorem stable_like (g : Gpio) (n : ℕ) : Stable chip (Like g n) := fun _ _ h henv => h.later henv.1

theorem stable_and {p : Prop} {P : Chip → Prop} (h : Stable chip P) : Stable chip fun c => p ∧ P c :=
  fun _ _ hc henv => ⟨hc.1, h _ _ hc.2 henv⟩

theorem like_get (i : Fin 6) :
    Triple chip (Like g n) (get32 (.gpioFsel i)) fun v c => v = g.fsel i ∧ Like g n c := by
  refine .get (fun v c => v = g.fsel i ∧ Like g n c) (stable_like g n) ?_ fun v =>
    .done (stable_and (stable_like g n)) fun _ => id
  rintro c v c' ⟨held, lvl, hheld, hc⟩ ⟨hgpio, hget, -⟩
  refine ⟨?_, held, lvl, hheld, hgpio.trans hc⟩
  rw [hc] at hget
  exact hget

theorem like_lvl (i : Fin 2) : Triple chip (Like g n) (get32 (.gpioLvl i)) fun _ => Like g n := by
  refine .get (fun _ => Like g n) (stable_like g n) ?_ fun v =>
    .done (stable_like g n) fun _ => id
  rintro c v c' ⟨held, lvl, hheld, hc⟩ hget
  exact ⟨held, lvl, hheld, hget.1.trans hc⟩

theorem like_wait (m : ℕ) : Triple chip (Like g n) (delayCycles m) fun _ => Like g (n + m) :=
  .wait (stable_like g n) (fun _ _ h hwait => h.later hwait.1) (.done (stable_like g (n + m)) fun _ => id)

/-- A write, by what it makes of the registers. -/
theorem like_put {g' : Gpio} {m : ℕ} {r : Reg} (h : ∀ c c', g.Near n c → c.Put v c' r → g'.Near m c') :
    Triple chip (Like g n) (put32 r v) fun _ => Like g' m :=
  .put (stable_like g n) (fun _ _ hc hput => h _ _ hc hput.1) (.done (stable_like g' m) fun _ => id)

theorem like_fsel (i : Fin 6) : Triple chip (Like g n) (put32 (.gpioFsel i) v) fun _ =>
    Like { g with fsel := Function.update g.fsel i v } n := by
  apply like_put
  rintro c c' ⟨held, lvl, hheld, rfl⟩ rfl
  exact ⟨held, lvl, hheld, rfl⟩

theorem like_set (i : Fin 2) : Triple chip (Like g n) (put32 (.gpioSet i) v) fun _ =>
    Like { g with out := Function.update g.out i (g.out i ||| v) } n := by
  apply like_put
  rintro c c' ⟨held, lvl, hheld, rfl⟩ rfl
  exact ⟨held, lvl, hheld, rfl⟩

theorem like_clr (i : Fin 2) : Triple chip (Like g n) (put32 (.gpioClr i) v) fun _ =>
    Like { g with out := Function.update g.out i (g.out i &&& ~~~ v) } n := by
  apply like_put
  rintro c c' ⟨held, lvl, hheld, rfl⟩ rfl
  exact ⟨held, lvl, hheld, rfl⟩

/-- No pin is being clocked in, or the time for it is over. -/
def Quiet (g : Gpio) (n : ℕ) : Prop := (∀ i, g.edge i = 0) ∨ pudCycles ≤ n

theorem Quiet.settled (h : Quiet g n) {c : Gpio} (hc : g.Near n c) (p : Fin 54) : c.Settled p := by
  obtain ⟨held, lvl, hheld, rfl⟩ := hc
  rcases h with h | h
  · left
    simp [h]
  · right
    exact Nat.le_trans h hheld

theorem like_pud (h : Quiet g n) : Triple chip (Like g n) (put32 .gpioPud v) fun _ =>
    Like { g with pud := v, edge := fun _ => 0 } 0 := by
  apply like_put
  intro c c' hc hput
  have hpull : c'.pull = c.pull := funext fun p => hput.others p (h.settled hc p)
  obtain ⟨hfsel, hout, hpud, hclk, hheld, hedge, -⟩ := hput
  obtain ⟨held, lvl, -, rfl⟩ := hc
  refine ⟨0, c'.lvl, Nat.le_refl 0, ?_⟩
  cases c'
  simp_all

/-- The pins that a write to a clock register clocks. -/
def edgesOf (clk : Fin 2 → Word) (i : Fin 2) (v : Word) (j : Fin 2) : Word :=
  if j = i then v &&& ~~~ clk i else 0

def clockedBy (clk : Fin 2 → Word) (i : Fin 2) (v : Word) (p : Fin 54) : Bool :=
  (edgesOf clk i v (bank p)).getLsbD (p.val % 32)

theorem like_pudclk (i : Fin 2) (h : Quiet g n) (hn : (∀ p, clockedBy g.pudclk i v p = false) ∨ pudCycles ≤ n) :
    Triple chip (Like g n) (put32 (.gpioPudclk i) v) fun _ =>
      Like { g with
        pudclk := Function.update g.pudclk i v
        edge := edgesOf g.pudclk i v
        pull := fun p => if clockedBy g.pudclk i v p then g.pud else g.pull p } 0 := by
  apply like_put
  intro c c' hc hput
  have hsettled := h.settled hc
  obtain ⟨hfsel, hout, hpud, hclk, hheld, hedge, hclocked, hothers⟩ := hput
  obtain ⟨held, lvl, hle, rfl⟩ := hc
  have hpull : c'.pull = fun p => if clockedBy g.pudclk i v p then g.pud else g.pull p := by
    funext p
    have hbit : (c'.edge (bank p)).getLsbD (p.val % 32) = clockedBy g.pudclk i v p := by
      rw [hedge]
      rfl
    cases hp : clockedBy g.pudclk i v p with
    | false => exact hothers p (hsettled p) (hbit.trans hp)
    | true =>
      have hlong : pudCycles ≤ held := by
        rcases hn with hn | hn
        · simp [hn p] at hp
        · omega
      exact hclocked p (hsettled p) (hbit.trans hp) hlong
  refine ⟨0, c'.lvl, Nat.le_refl 0, ?_⟩
  cases c'
  simp only at hfsel hout hpud hclk hheld hedge hpull
  subst hfsel hout hpud hclk hheld hedge hpull
  rfl

end Like

section Calls
variable {g g' : Gpio} {n : ℕ}

/-- No clock is on, and no pin is being clocked in. -/
structure Gpio.Rest (g : Gpio) : Prop where
  pudclk : ∀ i, g.pudclk i = 0
  edge : ∀ i, g.edge i = 0

/-- The bits that belong to no pin are as they were. -/
structure Gpio.SameSpare (g g' : Gpio) : Prop where
  fsel : ∀ (i : Fin 6) b, 54 ≤ 10 * i.val + b / 3 ∨ 30 ≤ b → (g'.fsel i).getLsbD b = (g.fsel i).getLsbD b
  out : ∀ (i : Fin 2) b, 54 ≤ 32 * i.val + b → (g'.out i).getLsbD b = (g.out i).getLsbD b

theorem Gpio.SameSpare.refl (g : Gpio) : g.SameSpare g := ⟨fun _ _ _ => rfl, fun _ _ _ => rfl⟩

theorem Gpio.SameSpare.trans {g'' : Gpio} (h : g.SameSpare g') (h' : g'.SameSpare g'') : g.SameSpare g'' :=
  ⟨fun i b hb => (h'.fsel i b hb).trans (h.fsel i b hb), fun i b hb => (h'.out i b hb).trans (h.out i b hb)⟩

/-- The registers after a function has been put into the field of a pin. -/
def Gpio.select (g : Gpio) (pin function : Word) (hpin : ¬ pin > gpioPinLast) : Gpio :=
  { g with
    fsel := Function.update g.fsel (fselOf (pinOf pin hpin))
      (putField (g.fsel (fselOf (pinOf pin hpin))) function (pin.toNat % 10)) }

theorem pins_select {pin function : Word} (hpin : ¬ pin > gpioPinLast) (hf : ¬ function > gpioFuncMask) :
    (g.select pin function hpin).pins = setFunction pin function g.pins := by
  funext p
  have hlt : pin.toNat < 54 := (pinOf pin hpin).isLt
  have hp : (pinOf pin hpin).val = pin.toNat := rfl
  simp only [setFunction, if_neg hf, alter, Gpio.pins, Gpio.select, functionOf]
  by_cases hsame : fselOf p = fselOf (pinOf pin hpin)
  · rw [hsame, Function.update_self, field_putField hf (Nat.mod_lt _ (by decide))
      (Nat.mod_lt _ (by decide))]
    have hdiv : p.val / 10 = pin.toNat / 10 := congrArg Fin.val hsame
    have hiff : p.val % 10 = pin.toNat % 10 ↔ p.val = pin.toNat := by omega
    simp only [hiff]
    split
    · rfl
    · rfl
  · rw [Function.update_of_ne hsame, if_neg]
    intro heq
    exact hsame (Fin.ext (by simp [fselOf, hp, heq]))

/-- A pin and a function in range: one field of one register changes. -/
theorem like_setFunction {pin function : Word} (hpin : ¬ pin > gpioPinLast) (hf : ¬ function > gpioFuncMask) :
    Triple chip (Like g n) (gpioSetFunction pin function) fun r c =>
      r = 1 ∧ Like (g.select pin function hpin) n c := by
  unfold gpioSetFunction
  rw [dif_neg (not_or.mpr ⟨hpin, hf⟩)]
  apply Triple.bind (like_get _)
  intro value
  apply Triple.assume
  intro hvalue
  subst hvalue
  apply Triple.bind (like_fsel _)
  intro _
  exact .done (stable_like _ n) fun _ hc => ⟨rfl, hc⟩

/-- What is left behind. -/
structure Leaves (s : Pins) (g g' : Gpio) : Prop where
  pins : g'.pins = s
  rest : g'.Rest
  spare : g.SameSpare g'

/-- The specification of a call, from registers as in `g`. -/
def Meets (g : Gpio) (n : ℕ) (io : HwM Word) (s : Pins) (answer : Word → Prop) : Prop :=
  Triple chip (Like g n) io fun r c => answer r ∧ ∃ g', Leaves s g g' ∧ Like g' 0 c

theorem Like.zero {c : Chip} (h : Like g n c) : Like g 0 c := by
  obtain ⟨held, lvl, -, hc⟩ := h
  exact ⟨held, lvl, Nat.zero_le held, hc⟩

/-- The last step of a call. -/
theorem meets_return {s : Pins} {answer : Word → Prop} {r : Word} (hr : answer r) (h : Leaves s g g') :
    Triple chip (Like g' n) (return r) fun r c => answer r ∧ ∃ g', Leaves s g g' ∧ Like g' 0 c :=
  .done (stable_like g' n) fun _ hc => ⟨hr, g', h, hc.zero⟩

theorem Leaves.refl (hrest : g.Rest) : Leaves g.pins g g := ⟨rfl, hrest, .refl g⟩

theorem alter_of_gt {pin : Word} (h : pin > gpioPinLast) (f : Pin → Pin) (s : Pins) : alter pin f s = s := by
  have hgt : 53 < pin.toNat := h
  funext p
  unfold alter
  rw [if_neg (by omega)]

theorem fsel_leaves {pin function : Word} (hrest : g.Rest) (hpin : ¬ pin > gpioPinLast)
    (hf : ¬ function > gpioFuncMask) :
    Leaves (setFunction pin function g.pins) g (g.select pin function hpin) := by
  refine ⟨pins_select hpin hf, ⟨hrest.pudclk, hrest.edge⟩, ⟨fun i b hb => ?_, fun _ _ _ => rfl⟩⟩
  have hp : (pinOf pin hpin).val < 54 := (pinOf pin hpin).isLt
  unfold Gpio.select
  by_cases hsame : i = fselOf (pinOf pin hpin)
  · subst hsame
    simp only [Function.update_self]
    apply getLsbD_putField hf
    simp only [fselOf, pinOf] at hb hp
    omega
  · simp only [Function.update_of_ne hsame]

theorem meets_setFunction (pin function : Word) (hrest : g.Rest) :
    Meets g n (gpioSetFunction pin function) (setFunction pin function g.pins) fun r =>
      r = if pin > gpioPinLast ∨ function > gpioFuncMask then 0 else 1 := by
  by_cases h : pin > gpioPinLast ∨ function > gpioFuncMask
  · unfold Meets gpioSetFunction
    rw [dif_pos h, if_pos h]
    apply meets_return
    · rfl
    have hsame : setFunction pin function g.pins = g.pins := by
      unfold setFunction
      split
      · rfl
      · rename_i hf
        exact alter_of_gt (h.resolve_right hf) _ _
    rw [hsame]
    exact .refl hrest
  · obtain ⟨hpin, hf⟩ := not_or.mp h
    rw [if_neg h]
    constructor
    intro c r c' hc hrun
    obtain ⟨hr, hlike⟩ := (like_setFunction hpin hf).of_reach c r c' hc hrun
    exact ⟨hr, _, fsel_leaves hrest hpin hf, hlike.zero⟩

theorem meets_getFunction (pin : Word) (hrest : g.Rest) :
    Meets g n (gpioGetFunction pin) g.pins fun r =>
      if h : pin > gpioPinLast then r = gpioInvalidRequest else r = (g.pins (pinOf pin h)).function := by
  unfold Meets gpioGetFunction
  split
  · rename_i h
    refine meets_return ?_ (.refl hrest)
    rfl
  · rename_i h
    apply Triple.bind (like_get _)
    intro value
    apply Triple.assume
    intro hvalue
    subst hvalue
    refine meets_return ?_ (.refl hrest)
    rfl

theorem getLsbD_wordOne (i : ℕ) : (1 : Word).getLsbD i = decide (i = 0) := by
  simp

theorem getLsbD_one_shift {m : ℕ} (hm : m < 32) (i : ℕ) : ((1 : Word) <<< m).getLsbD i = decide (i = m) := by
  by_cases hi : i < 32
  · rw [BitVec.getLsbD_shiftLeft, decide_eq_true hi, Bool.true_and]
    by_cases hlt : i < m
    · simp [hlt, Nat.ne_of_lt hlt]
    · rw [decide_eq_false hlt, Bool.not_false, Bool.true_and, getLsbD_wordOne]
      by_cases heq : i = m
      · simp [heq]
      · simp [heq]
        omega
  · rw [BitVec.getLsbD_of_ge _ _ (by omega), decide_eq_false (by omega)]

theorem out_leaves {pin w : Word} {out : Bool} (hrest : g.Rest) (hpin : ¬ pin > gpioPinLast)
    (hw : ∀ i, w.getLsbD i =
      if i = pin.toNat % 32 then out else (g.out (bank (pinOf pin hpin))).getLsbD i) :
    Leaves (setOut pin out g.pins) g { g with out := Function.update g.out (bank (pinOf pin hpin)) w } := by
  have hp : (pinOf pin hpin).val = pin.toNat := rfl
  have hlt : pin.toNat < 54 := (pinOf pin hpin).isLt
  refine ⟨?_, ⟨hrest.pudclk, hrest.edge⟩, ⟨fun _ _ _ => rfl, fun i b hb => ?_⟩⟩
  · funext p
    simp only [setOut, alter, Gpio.pins]
    by_cases hsame : bank p = bank (pinOf pin hpin)
    · rw [hsame, Function.update_self, hw]
      have hdiv : p.val / 32 = pin.toNat / 32 := congrArg Fin.val hsame
      have hiff : p.val % 32 = pin.toNat % 32 ↔ p.val = pin.toNat := by omega
      simp only [hiff]
      split
      · rfl
      · rfl
    · rw [Function.update_of_ne hsame, if_neg]
      intro heq
      exact hsame (Fin.ext (by simp [bank, hp, heq]))
  · by_cases hsame : i = bank (pinOf pin hpin)
    · subst hsame
      simp only [Function.update_self]
      simp only [bank, hp] at hb
      rw [hw, if_neg (by omega)]
    · simp only [Function.update_of_ne hsame]

theorem meets_write (pin val : Word) (hrest : g.Rest) :
    Meets g n (gpioWrite pin val) (setOut pin (val ≠ 0) g.pins) fun r =>
      r = if pin > gpioPinLast then gpioInvalidRequest else 1 := by
  have hmod : pin.toNat % 32 < 32 := Nat.mod_lt _ (by decide)
  unfold Meets gpioWrite
  split
  · rename_i h
    apply meets_return
    · rfl
    have hsame : setOut pin (val ≠ 0) g.pins = g.pins := alter_of_gt h _ _
    rw [hsame]
    exact .refl hrest
  · rename_i h
    by_cases hval : val ≠ 0
    · simp only [if_pos hval]
      apply Triple.bind (like_set _)
      intro _
      apply meets_return
      · rfl
      apply out_leaves hrest h
      intro i
      rw [BitVec.getLsbD_or, getLsbD_one_shift hmod, decide_eq_true hval]
      by_cases hi : i = pin.toNat % 32
      · simp [hi]
      · simp [hi]
    · simp only [if_neg hval]
      apply Triple.bind (like_clr _)
      intro _
      apply meets_return
      · rfl
      apply out_leaves hrest h
      intro i
      rw [BitVec.getLsbD_and, BitVec.getLsbD_not, getLsbD_one_shift hmod, decide_eq_false hval]
      by_cases hi : i = pin.toNat % 32
      · simp [hi]
      · by_cases hi32 : i < 32
        · simp [hi, hi32]
        · rw [BitVec.getLsbD_of_ge _ _ (by omega), if_neg hi]
          simp

theorem and_one (w : Word) : w &&& 1 = if w.getLsbD 0 then 1 else 0 := by
  have hmod : (w &&& 1).toNat = w.toNat % 2 := by
    rw [BitVec.toNat_and]
    exact Nat.and_one_is_mod w.toNat
  apply BitVec.eq_of_toNat_eq
  rw [hmod, BitVec.getLsbD, Nat.testBit_zero]
  rcases Nat.mod_two_eq_zero_or_one w.toNat with h | h
  · simp [h]
  · simp [h]

/-- The answer to a read is the level of the pin. -/
theorem lands_read {pin : Word} (hpin : ¬ pin > gpioPinLast) :
    Lands chip (fun _ => True) (gpioRead pin) fun r c =>
      r = if c.gpio.High (pinOf pin hpin) then 1 else 0 := by
  unfold gpioRead
  rw [dif_neg hpin]
  refine .get (fun _ _ _ _ => trivial) ?_
  rintro c v c' - ⟨hgpio, hget, -⟩
  have hv : v = c'.gpio.lvl (bank (pinOf pin hpin)) := by
    rw [hgpio]
    exact hget
  rw [and_one, BitVec.getLsbD_ushiftRight, Nat.add_zero, hv]
  rfl

theorem meets_read (pin : Word) (hrest : g.Rest) :
    Meets g n (gpioRead pin) g.pins fun r => pin > gpioPinLast → r = gpioInvalidRequest := by
  unfold Meets gpioRead
  split
  · refine meets_return ?_ (.refl hrest)
    exact fun _ => rfl
  · rename_i h
    apply Triple.bind (like_lvl _)
    intro value
    refine meets_return ?_ (.refl hrest)
    exact fun hpin => absurd hpin h

theorem clockedBy_one {clk : Fin 2 → Word} {pin : Word} (hpin : ¬ pin > gpioPinLast)
    (hclk : ∀ i, clk i = 0) (p : Fin 54) :
    clockedBy clk (bank (pinOf pin hpin)) ((1 : Word) <<< (pin.toNat % 32)) p =
      decide (p = pinOf pin hpin) := by
  have hmod : pin.toNat % 32 < 32 := Nat.mod_lt _ (by decide)
  have hval : (pinOf pin hpin).val = pin.toNat := rfl
  unfold clockedBy edgesOf
  by_cases hsame : bank p = bank (pinOf pin hpin)
  · have hdiv : p.val / 32 = (pinOf pin hpin).val / 32 := congrArg Fin.val hsame
    have hnot : (1 : Word) <<< (pin.toNat % 32) &&& ~~~ (0 : Word) = (1 : Word) <<< (pin.toNat % 32) := by
      change _ &&& ~~~ 0#32 = _
      rw [BitVec.not_zero, BitVec.and_allOnes]
    rw [if_pos hsame, hclk, hnot, getLsbD_one_shift hmod, decide_eq_decide, Fin.ext_iff]
    omega
  · have hne : p ≠ pinOf pin hpin := fun heq => hsame (congrArg bank heq)
    simp [if_neg hsame, hne]

theorem meets_setPud (pin pud : Word) (hrest : g.Rest) :
    Meets g n (gpioSetPud pin pud) (setPull pin pud g.pins) fun r =>
      r = if pin > gpioPinLast then gpioInvalidRequest else 1 := by
  unfold Meets gpioSetPud
  split
  · rename_i h
    apply meets_return
    · rfl
    have hsame : setPull pin pud g.pins = g.pins := alter_of_gt h _ _
    rw [hsame]
    exact .refl hrest
  · rename_i h
    have hwait : pudCycles ≤ 0 + 150 := Nat.le_refl 150
    -- the control signal, and the time that it must stand
    apply Triple.bind (like_pud (.inl hrest.edge))
    intro _
    apply Triple.bind (like_wait 150)
    intro _
    -- the clock, and the time that it must stand
    apply Triple.bind (like_pudclk _ (.inr hwait) (.inr hwait))
    intro _
    apply Triple.bind (like_wait 150)
    intro _
    apply Triple.bind (like_pud (.inr hwait))
    intro _
    -- the clock goes off, so nothing is clocked
    have hoff : ∀ clk p, clockedBy clk (bank (pinOf pin h)) 0 p = false := by
      intro clk p
      simp only [clockedBy, edgesOf]
      split
      · simp
      · simp
    apply Triple.bind (like_pudclk _ (.inl fun _ => rfl) (.inl (hoff _)))
    intro _
    apply meets_return
    · rfl
    refine ⟨?_, ⟨fun i => ?_, fun i => ?_⟩, ⟨fun _ _ _ => rfl, fun _ _ _ => rfl⟩⟩
    · funext p
      simp only [setPull, alter, Gpio.pins, hoff, Bool.false_eq_true, if_false]
      rw [clockedBy_one h hrest.pudclk]
      by_cases hp : p = pinOf pin h
      · subst hp
        simp [pinOf]
      · have hne : ¬ p.val = pin.toNat := fun heq => hp (Fin.ext heq)
        simp [hp, hne]
    · by_cases hi : i = bank (pinOf pin h)
      · subst hi
        simp
      · simp [Function.update_of_ne hi, hrest.pudclk]
    · simp only [edgesOf]
      split
      · simp
      · rfl

/-- A call whose answer is not looked at. -/
theorem meets_ignoring {io : HwM Word} {s : Pins} {answer : Word → Prop} (h : Meets g n io s answer) :
    Meets g n (io >>= fun _ => return 1) s fun r => r = 1 := by
  apply Triple.bind h
  intro _
  apply Triple.assume
  intro _
  apply Triple.choose
  intro g'
  apply Triple.assume
  exact fun hleaves => meets_return rfl hleaves

/-- A call does its part to the pins, answers by it and leaves the registers in order. -/
theorem call_answers {c c' : Chip} {call : Call} {r : Word} (hrest : c.gpio.Rest)
    (hrun : Reach chip (call.run, c) (.done r, c')) :
    call.Answers c c' r ∧ Leaves (call.effect c.gpio.pins) c.gpio c'.gpio := by
  have hlike : Like c.gpio c.gpio.held c := ⟨c.gpio.held, c.gpio.lvl, Nat.le_refl _, rfl⟩
  have hmeets : ∀ {io : HwM Word} {s : Pins} {answer : Word → Prop}, Meets c.gpio c.gpio.held io s answer →
      Reach chip (io, c) (.done r, c') → answer r ∧ Leaves s c.gpio c'.gpio := by
    intro io s answer h hrun
    obtain ⟨hr, g', hleaves, held, lvl, -, hgpio⟩ := h.of_reach c r c' hlike hrun
    rw [hgpio]
    exact ⟨hr, hleaves.pins, ⟨hleaves.rest.pudclk, hleaves.rest.edge⟩, ⟨hleaves.spare.fsel, hleaves.spare.out⟩⟩
  cases call with
  | setFunction pin function => exact hmeets (meets_setFunction pin function hrest) hrun
  | getFunction pin => exact hmeets (meets_getFunction pin hrest) hrun
  | setInput pin => exact hmeets (meets_ignoring (meets_setFunction pin gpioFuncInput hrest)) hrun
  | setOutput pin => exact hmeets (meets_ignoring (meets_setFunction pin gpioFuncOutput hrest)) hrun
  | write pin val => exact hmeets (meets_write pin val hrest) hrun
  | read pin =>
    obtain ⟨hinvalid, hleaves⟩ := hmeets (meets_read pin hrest) hrun
    refine ⟨?_, hleaves⟩
    unfold Call.Answers
    dsimp only
    split
    · next h => exact hinvalid h
    · next h =>
      obtain ⟨c₁, hreach, hlevel, hdrift⟩ := (lands_read h).of_reach c r c' trivial hrun
      exact ⟨c₁, hreach, hdrift, hlevel⟩
  | setPud pin pud => exact hmeets (meets_setPud pin pud hrest) hrun
  | setPullup pin => exact hmeets (meets_setPud pin gpioPudPullup hrest) hrun
  | setPulldown pin => exact hmeets (meets_setPud pin gpioPudPulldown hrest) hrun
  | setOn pin => exact hmeets (meets_write pin 1 hrest) hrun
  | setOff pin => exact hmeets (meets_write pin 0 hrest) hrun

/-- A run of a sequence of calls, cut where one call ends and the next begins, with the answers. -/
inductive Answered : Chip → List Call → List Word → Chip → Prop where
  | nil {c c' : Chip} (hdrift : Drifts chip c c') : Answered c [] [] c'
  | cons {c c₁ c' : Chip} {call : Call} {calls : List Call} {r : Word} {rs : List Word}
    (hrun : Reach chip (call.run, c) (.done r, c₁)) (hpins : c₁.gpio.pins = call.effect c.gpio.pins)
    (hr : call.Answers c c₁ r) (hrest : Answered c₁ calls rs c') : Answered c (call :: calls) (r :: rs) c'

theorem Answered.drift {c c' c'' : Chip} {calls : List Call} {rs : List Word} (h : Answered c calls rs c')
    (hdrift : Drifts chip c' c'') : Answered c calls rs c'' := by
  induction h with
  | nil h => exact .nil (h.trans hdrift)
  | cons hrun hpins hr _ ih => exact .cons hrun hpins hr (ih hdrift)

/-- The device on its own changes levels only. -/
theorem leaves_of_drifts {c c' : Chip} (hrest : c.gpio.Rest) (h : Drifts chip c c') :
    Leaves c.gpio.pins c.gpio c'.gpio := by
  have hlike : Like c.gpio 0 c' := by
    induction h with
    | refl => exact ⟨c.gpio.held, c.gpio.lvl, Nat.zero_le _, rfl⟩
    | tail _ henv ih => exact stable_like c.gpio 0 _ _ ih henv
  obtain ⟨held, lvl, -, hgpio⟩ := hlike
  rw [hgpio]
  exact ⟨rfl, ⟨hrest.pudclk, hrest.edge⟩, ⟨fun _ _ _ => rfl, fun _ _ _ => rfl⟩⟩

theorem runCalls_answered {c c' : Chip} {calls : List Call} {rs : List Word} (hrest : c.gpio.Rest)
    (hrun : Reach chip (runCalls calls, c) (.done rs, c')) : Answered c calls rs c' ∧
      Leaves (calls.foldl (fun s call => call.effect s) c.gpio.pins) c.gpio c'.gpio := by
  induction calls generalizing c c' rs with
  | nil =>
    obtain ⟨rfl, hdrift⟩ := drifts_of_done hrun
    exact ⟨.nil hdrift, leaves_of_drifts hrest hdrift⟩
  | cons call calls ih =>
    obtain ⟨r, c₁, hcall, hrun⟩ := reach_bind hrun
    obtain ⟨rs', c₂, hcalls, hend⟩ := reach_bind hrun
    obtain ⟨rfl, hdrift⟩ := drifts_of_done hend
    obtain ⟨hr, hleaves⟩ := call_answers hrest hcall
    obtain ⟨hanswered, hleaves'⟩ := ih hleaves.rest hcalls
    have hlast := leaves_of_drifts hleaves'.rest hdrift
    refine ⟨.cons hcall hleaves.pins hr (hanswered.drift hdrift), ?_, hlast.rest,
      hleaves.spare.trans (hleaves'.spare.trans hlast.spare)⟩
    rw [hlast.pins, hleaves'.pins, hleaves.pins]
    rfl

/-- The chip answers every access. -/
theorem chip_total : chip.Total := by
  constructor
  · intro r c
    cases r with
    | gpioFsel i => exact ⟨c.gpio.fsel i, c, rfl, rfl, rfl⟩
    | gpioLvl i => exact ⟨c.gpio.lvl i, c, rfl, rfl, rfl⟩
    | auxEnb => exact ⟨c.uart.enb, c, rfl, trivial, rfl, rfl⟩
    | auxMuStat =>
      refine ⟨(if c.uart.rx ≠ [] then 1 else 0) ||| (if c.uart.tx.length < MiniUart.depth then 2 else 0), c,
        rfl, trivial, rfl, fun _ => ⟨?_, ?_⟩⟩
      · split <;> split <;> simp_all
      · split <;> split <;> simp_all
    | auxMuIo =>
      by_cases hopen : c.uart.Enabled ∧ c.uart.rx ≠ []
      · obtain ⟨hen, hne⟩ := hopen
        obtain ⟨b, bs, hrx⟩ := List.exists_cons_of_ne_nil hne
        refine ⟨b.setWidth 32, { c with uart := { c.uart with rx := bs } }, rfl, trivial, ?_, ?_⟩
        · rintro - b' bs' hrx'
          obtain ⟨rfl, rfl⟩ := List.cons.inj (hrx.symm.trans hrx')
          exact ⟨by simp, rfl⟩
        · rintro (h | h)
          · exact absurd hen h
          · exact absurd h hne
      · refine ⟨0, c, rfl, trivial, fun hen b bs hrx => ?_, fun _ => rfl⟩
        exact absurd ⟨hen, by simp [hrx]⟩ hopen
    | _ => exact ⟨0, c, rfl, trivial, rfl⟩
  · intro r v c
    have huart : ∃ u, c.uart.Put v u r := by
      by_cases hen : c.uart.Enabled
      · cases r with
        | auxEnb => exact ⟨_, rfl⟩
        | _ => exact ⟨_, fun _ => rfl, fun h => absurd hen h⟩
      · cases r with
        | auxEnb => exact ⟨_, rfl⟩
        | _ => exact ⟨c.uart, fun h => absurd h hen, fun _ => rfl⟩
    have hgpio : ∃ g, c.gpio.Put v g r := by
      cases r with
      | gpioPud =>
        exact ⟨{ c.gpio with pud := v, held := 0, edge := fun _ => 0 }, rfl, rfl, rfl, rfl, rfl, rfl,
          fun _ _ => rfl⟩
      | gpioPudclk i =>
        refine ⟨{ c.gpio with
          pudclk := Function.update c.gpio.pudclk i v
          held := 0
          edge := edgesOf c.gpio.pudclk i v
          pull := fun p => if clockedBy c.gpio.pudclk i v p then c.gpio.pud else c.gpio.pull p },
          rfl, rfl, rfl, rfl, rfl, rfl, fun p _ hp _ => if_pos hp, fun p _ hp => ?_⟩
        exact if_neg (ne_true_of_eq_false hp)
      | _ => exact ⟨_, rfl⟩
    obtain ⟨u, hu⟩ := huart
    obtain ⟨g, hg⟩ := hgpio
    exact ⟨⟨g, u⟩, hg, hu⟩
  · intro n c
    exact ⟨⟨{ c.gpio with held := c.gpio.held + n }, c.uart⟩, ⟨n, c.gpio.lvl, Nat.le_refl n, rfl⟩, rfl⟩

end Calls

section Example

/-- All pins inputs, nothing driven. -/
def resetChip : Chip where
  gpio := ⟨fun _ => 0, fun _ => 0, fun _ => 0, 0, fun _ => 0, 0, fun _ => 0, fun _ => 0⟩
  uart := ⟨0, 0, 0, 0, 0, [], []⟩

end Example
end SimplePiOS.Libpi.Hw
