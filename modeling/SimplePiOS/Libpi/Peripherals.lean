import Mathlib.Data.Fin.Basic
import Mathlib.Data.Fintype.Basic
import SimplePiOS.Lib.Mmio

/-! The peripherals that libpi drives, as far as its comments cite the data sheet: the pins and the mini
UART. -/
namespace SimplePiOS.Libpi.Hw
open Lib.Mmio

abbrev Word := BitVec 32

/-- The registers of gpio.c and uart.c. -/
inductive Reg where
  | gpioFsel (i : Fin 6)
  | gpioSet (i : Fin 2)
  | gpioClr (i : Fin 2)
  | gpioLvl (i : Fin 2)
  | gpioPud
  | gpioPudclk (i : Fin 2)
  | auxEnb
  | auxMuIo
  | auxMuIer
  | auxMuIir
  | auxMuLcr
  | auxMuCntl
  | auxMuStat
  | auxMuBaud
  deriving DecidableEq

def Reg.addr : Reg → ℕ
  | gpioFsel i => 0x20200000 + 4 * i
  | gpioSet i => 0x2020001C + 4 * i
  | gpioClr i => 0x20200028 + 4 * i
  | gpioLvl i => 0x20200034 + 4 * i
  | gpioPud => 0x20200094
  | gpioPudclk i => 0x20200098 + 4 * i
  | auxEnb => 0x20215004
  | auxMuIo => 0x20215040
  | auxMuIer => 0x20215044
  | auxMuIir => 0x20215048
  | auxMuLcr => 0x2021504C
  | auxMuCntl => 0x20215060
  | auxMuStat => 0x20215064
  | auxMuBaud => 0x20215068

/-- No two of them share an address. -/
theorem Reg.addr_injective : Function.Injective Reg.addr := by
  intro r r' h
  cases r <;> cases r' <;> simp only [Reg.addr] at h <;>
    first
      | rfl
      | (simp only [reduceCtorEq]; omega)
      | (congr 1; omega)

abbrev HwM (α : Type) := Io Reg Word α

def get32 (r : Reg) : HwM Word := .get r .done
def put32 (r : Reg) (v : Word) : HwM Unit := .put r v (.done ())
def delayCycles (ticks : ℕ) : HwM Unit := .wait ticks (.done ())

section Gpio

/-- Where the bit of a pin is, in registers with one bit a pin. -/
def bank (p : Fin 54) : Fin 2 := ⟨p.val / 32, by omega⟩

/-- How long the control signal must stand before it is clocked, and after. -/
def pudCycles : ℕ := 150

/-- The pins. `lvl` is what is on them; `held` counts the cycles since the last write to the pull control, and
`edge` has the pins that were clocked by it. -/
structure Gpio where
  fsel : Fin 6 → Word
  out : Fin 2 → Word
  lvl : Fin 2 → Word
  pud : Word
  pudclk : Fin 2 → Word
  held : ℕ
  edge : Fin 2 → Word
  pull : Fin 54 → Word

namespace Gpio

/-- A pin whose pull is not just being clocked in. -/
def Settled (c : Gpio) (p : Fin 54) : Prop := (c.edge (bank p)).getLsbD (p.val % 32) = false ∨ pudCycles ≤ c.held

/-- A write to the clock register of a bank. The pins that it clocks take over the control signal, if that
has stood long enough; what becomes of a pin whose times are not kept is open. -/
structure Clocked (i : Fin 2) (v : Word) (c c' : Gpio) : Prop where
  fsel : c'.fsel = c.fsel
  out : c'.out = c.out
  pud : c'.pud = c.pud
  pudclk : c'.pudclk = Function.update c.pudclk i v
  held : c'.held = 0
  edge : c'.edge = fun j => if j = i then v &&& ~~~ c.pudclk i else 0
  clocked : ∀ p, c.Settled p → (c'.edge (bank p)).getLsbD (p.val % 32) = true → pudCycles ≤ c.held →
    c'.pull p = c.pud
  others : ∀ p, c.Settled p → (c'.edge (bank p)).getLsbD (p.val % 32) = false → c'.pull p = c.pull p

/-- A write of the control signal. -/
structure Signalled (v : Word) (c c' : Gpio) : Prop where
  fsel : c'.fsel = c.fsel
  out : c'.out = c.out
  pud : c'.pud = v
  pudclk : c'.pudclk = c.pudclk
  held : c'.held = 0
  edge : c'.edge = fun _ => 0
  others : ∀ p, c.Settled p → c'.pull p = c.pull p

def Get (c : Gpio) (v : Word) : Reg → Prop
  | .gpioFsel i => v = c.fsel i
  | .gpioLvl i => v = c.lvl i
  | _ => True

def Put (v : Word) (c c' : Gpio) : Reg → Prop
  | .gpioFsel i => c' = { c with fsel := Function.update c.fsel i v }
  | .gpioSet i => c' = { c with out := Function.update c.out i (c.out i ||| v) }
  | .gpioClr i => c' = { c with out := Function.update c.out i (c.out i &&& ~~~ v) }
  | .gpioPud => Signalled v c c'
  | .gpioPudclk i => Clocked i v c c'
  | _ => c' = c

/-- At least so many cycles later. -/
def Later (n : ℕ) (c c' : Gpio) : Prop := ∃ m lvl, n ≤ m ∧ c' = { c with held := c.held + m, lvl := lvl }

end Gpio
end Gpio

section MiniUart

/-- The mini UART: its settings and its two FIFOs. -/
structure MiniUart where
  enb : Word
  ier : Word
  lcr : Word
  cntl : Word
  baud : Word
  rx : List (BitVec 8)
  tx : List (BitVec 8)

namespace MiniUart

/-- Symbols a FIFO holds. -/
def depth : ℕ := 8

/-- Its registers can be accessed. -/
def Enabled (c : MiniUart) : Prop := c.enb.getLsbD 0 = true

/-- A register it is read. Of the status only two bits matter here. -/
def Get (c : MiniUart) (v : Word) (c' : MiniUart) : Reg → Prop
  | .auxEnb => v = c.enb ∧ c' = c
  | .auxMuStat => c' = c ∧ (c.Enabled → (v.getLsbD 0 = true ↔ c.rx ≠ []) ∧
      (v.getLsbD 1 = true ↔ c.tx.length < depth))
  | .auxMuIo => (c.Enabled → ∀ b bs, c.rx = b :: bs → v.setWidth 8 = b ∧ c' = { c with rx := bs }) ∧
      (¬ c.Enabled ∨ c.rx = [] → c' = c)
  | _ => c' = c

/-- What a write does when the registers can be accessed. -/
def put (v : Word) (c : MiniUart) : Reg → MiniUart
  | .auxMuIo => if c.tx.length < depth then { c with tx := c.tx ++ [v.setWidth 8] } else c
  | .auxMuIer => { c with ier := v }
  | .auxMuIir =>
    { c with
      rx := if v.getLsbD 1 then [] else c.rx
      tx := if v.getLsbD 2 then [] else c.tx }
  | .auxMuLcr => { c with lcr := v }
  | .auxMuCntl => { c with cntl := v }
  | .auxMuBaud => { c with baud := v }
  | _ => c

def Put (v : Word) (c c' : MiniUart) : Reg → Prop
  | .auxEnb => c' = { c with enb := v }
  | r => (c.Enabled → c' = c.put v r) ∧ (¬ c.Enabled → c' = c)

/-- Eight bits at the speed of the other side. -/
structure Configured (c : MiniUart) : Prop where
  enabled : c.Enabled
  lcr : c.lcr = 3
  baud : c.baud = 270

/-- What happens on the two lines. -/
inductive Move where
  | arrive (b : BitVec 8)
  | leave (b : BitVec 8)

/-- A symbol that arrives is put behind the others, or lost when there is no room. What arrives or leaves
under other settings may be anything. -/
inductive Moves : Move → MiniUart → MiniUart → Prop where
  | arrive {c : MiniUart} {b got : BitVec 8} (hon : c.cntl.getLsbD 0 = true) (hen : c.Enabled)
    (hroom : c.rx.length < depth) (hgot : c.Configured → got = b) :
    Moves (.arrive b) c { c with rx := c.rx ++ [got] }
  | overrun {c : MiniUart} {b : BitVec 8} (hfull : ¬ c.rx.length < depth) : Moves (.arrive b) c c
  | deaf {c : MiniUart} {b : BitVec 8} (hoff : ¬ (c.cntl.getLsbD 0 = true ∧ c.Enabled)) : Moves (.arrive b) c c
  | leave {c : MiniUart} {b sent : BitVec 8} {bs : List (BitVec 8)} (hon : c.cntl.getLsbD 1 = true) (hen : c.Enabled)
    (htx : c.tx = b :: bs) (hsent : c.Configured → sent = b) : Moves (.leave sent) c { c with tx := bs }

end MiniUart
end MiniUart

/-- Both of them. -/
structure Chip where
  gpio : Gpio
  uart : MiniUart

/-- Each access goes to both, and is for one of them; the levels, the time and the lines move on. -/
def chip : Device Reg Word Chip where
  get r c v c' := c'.gpio = c.gpio ∧ c.gpio.Get v r ∧ c.uart.Get v c'.uart r
  put r v c c' := c.gpio.Put v c'.gpio r ∧ c.uart.Put v c'.uart r
  wait n c c' := c.gpio.Later n c'.gpio ∧ c'.uart = c.uart
  env c c' := c.gpio.Later 0 c'.gpio ∧ (c'.uart = c.uart ∨ ∃ m, MiniUart.Moves m c.uart c'.uart)

end SimplePiOS.Libpi.Hw
