import SimplePiOS.Libpi.Gpio
import SimplePiOS.Libpi.Uart

/-! The serial driver, and the channels that it makes of the mini UART. -/
namespace SimplePiOS.Libpi.Hw
open Lib Lib.Mmio
open Lib.Fifo (Config)

section Code
variable {α : Type}

def gpioPin14 : Word := 14
def gpioPin15 : Word := 15
def baudRate : Word := 270

def uartInit : HwM Unit := do
  let _ ← gpioSetFunction gpioPin14 gpioFuncAlt5
  let _ ← gpioSetFunction gpioPin15 gpioFuncAlt5
  let enable ← get32 .auxEnb
  put32 .auxEnb (enable ||| (1 : Word) <<< 0)
  put32 .auxMuCntl 0
  put32 .auxMuIer 0
  put32 .auxMuIir 6
  put32 .auxMuLcr 3
  put32 .auxMuBaud baudRate
  put32 .auxMuCntl 3

/-- `uart_getc` from a reading of the status on. When the bit is not set, the loop goes round. -/
def uartGetc (k : Byte → Prog Byte α) (status : Word) : HwM (Prog Byte α) :=
  if status &&& (1 : Word) <<< 0 ≠ 0 then do
    let data ← get32 .auxMuIo
    return k ((data &&& 255).setWidth 8)
  else return .recv k

/-- `uart_putc`, likewise. -/
def uartPutc (b : Byte) (p : Prog Byte α) (status : Word) : HwM (Prog Byte α) :=
  if status &&& (1 : Word) <<< 1 ≠ 0 then do
    put32 .auxMuIo (b.setWidth 32 &&& 255)
    return p
  else return .send b p

/-- A program that gets and puts bytes runs by one turn of a polling loop after the other. -/
def nextTurn (next : α → Option (Prog Byte α)) : Prog Byte α → Option (HwM (Prog Byte α))
  | .done x => (next x).map fun p => return p
  | .recv k => some (get32 .auxMuStat >>= uartGetc k)
  | .send b p => some (get32 .auxMuStat >>= uartPutc b p)

end Code

section Init

/-- Ready to send and receive. -/
structure MiniUart.Ready (u : MiniUart) : Prop where
  configured : u.Configured
  receiver : u.cntl.getLsbD 0 = true
  transmitter : u.cntl.getLsbD 1 = true

/-- What `uart_init` makes of any chip, before bytes arrive again. -/
structure Initialised (s : Pins) (c : Chip) : Prop where
  pins : c.gpio.pins = setFunction gpioPin15 gpioFuncAlt5 (setFunction gpioPin14 gpioFuncAlt5 s)
  ready : c.uart.Ready
  rx : c.uart.rx = []
  tx : c.uart.tx = []

variable {g : Gpio} {U : MiniUart → Prop} {r : Reg} {v : Word}

/-- The pins as in `g`, and the serial side as in `U`. -/
def Both (g : Gpio) (U : MiniUart → Prop) (c : Chip) : Prop := U c.uart ∧ Like g 0 c

def Unmoved (U : MiniUart → Prop) : Prop := ∀ m u u', U u → MiniUart.Moves m u u' → U u'

theorem stable_both (g : Gpio) (hU : Unmoved U) : Stable chip (Both g U) := by
  rintro c c' ⟨hu, hlike⟩ henv
  refine ⟨?_, stable_like g 0 c c' hlike henv⟩
  obtain ⟨-, heq | ⟨m, hmove⟩⟩ := henv
  · rwa [heq]
  · exact hU m _ _ hu hmove

/-- A register of the serial side. -/
def Reg.Serial (r : Reg) : Prop := ∀ v g g', Gpio.Put v g g' r → g' = g

theorem both_put (U' : MiniUart → Prop) (hr : r.Serial) (hU : Unmoved U) (hU' : Unmoved U')
    (h : ∀ u u', U u → u.Put v u' r → U' u') : Mmio.Triple chip (Both g U) (put32 r v) fun _ => Both g U' := by
  refine .put (stable_both g hU) ?_ (.done (stable_both g hU') fun _ => id)
  rintro c c' ⟨hu, hlike⟩ ⟨hgpio, huart⟩
  refine ⟨h _ _ hu huart, ?_⟩
  unfold Like
  rwa [hr _ _ _ hgpio]

/-- While the receiver and the transmitter are off nothing moves. -/
theorem unmoved_of_off (hoff : ∀ u, U u → u.cntl = 0) : Unmoved U := by
  intro m u u' hu hmove
  have hcntl := hoff u hu
  cases hmove with
  | arrive hon => simp [hcntl] at hon
  | overrun => exact hu
  | deaf => exact hu
  | leave hon => simp [hcntl] at hon

/-- Any write but the first needs the registers to be accessible. -/
theorem put_of_enabled {u u' : MiniUart} (hr : r ≠ .auxEnb) (hen : u.Enabled) (h : u.Put v u' r) :
    u' = u.put v r := by
  cases r with
  | auxEnb => exact absurd rfl hr
  | _ => exact h.1 hen

theorem enabled_unmoved : Unmoved MiniUart.Enabled := by
  intro m u u' hu hmove
  cases hmove with
  | arrive => exact hu
  | overrun => exact hu
  | deaf => exact hu
  | leave => exact hu

/-- While the settings are made everything is off. -/
structure MiniUart.Off (u : MiniUart) : Prop where
  enabled : u.Enabled
  cntl : u.cntl = 0

structure MiniUart.Cleared (u : MiniUart) : Prop extends u.Off where
  rx : u.rx = []
  tx : u.tx = []

/-- However the chip is set, `uart_init` makes it ready; its last write lets bytes move again. -/
theorem uartInit_lands : Mmio.Lands chip (Like g 0) uartInit fun _ => Initialised g.pins := by
  have hserial : ∀ r ∈ [Reg.auxEnb, .auxMuCntl, .auxMuIer, .auxMuIir, .auxMuLcr, .auxMuBaud], r.Serial := by
    simp [Reg.Serial, Gpio.Put]
  have hoff : ∀ {U : MiniUart → Prop}, (∀ u, U u → u.Off) → Unmoved U := fun h =>
    unmoved_of_off fun u hu => (h u hu).cntl
  have h14 : ¬ gpioPin14 > gpioPinLast := by decide
  have h15 : ¬ gpioPin15 > gpioPinLast := by decide
  have halt5 : ¬ gpioFuncAlt5 > gpioFuncMask := by decide
  obtain ⟨g₁, hg₁⟩ : ∃ g₁, g.select gpioPin14 gpioFuncAlt5 h14 = g₁ := ⟨_, rfl⟩
  obtain ⟨g₂, hg₂⟩ : ∃ g₂, g₁.select gpioPin15 gpioFuncAlt5 h15 = g₂ := ⟨_, rfl⟩
  have hpins : g₂.pins = setFunction gpioPin15 gpioFuncAlt5 (setFunction gpioPin14 gpioFuncAlt5 g.pins) := by
    rw [← hg₂, pins_select h15 halt5, ← hg₁, pins_select h14 halt5]
  apply Mmio.Lands.bind (like_setFunction h14 halt5)
  intro _
  apply Mmio.Lands.bind (Mmio.Triple.assume fun _ => like_setFunction h15 halt5)
  intro _
  rw [hg₁, hg₂]
  have hread : Mmio.Triple chip (Like g₂ 0) (get32 .auxEnb) fun _ => Both g₂ fun _ => True := by
    refine .get (fun _ => Like g₂ 0) (stable_like g₂ 0) ?_ fun v =>
      .done (stable_like g₂ 0) fun c hc => ⟨trivial, hc⟩
    rintro c v c' hc ⟨hgpio, -, -⟩
    unfold Like
    rwa [hgpio]
  apply Mmio.Lands.bind (Mmio.Triple.assume fun _ => hread)
  intro enable
  apply Mmio.Lands.bind (both_put MiniUart.Enabled (hserial _ (by simp)) (fun _ _ _ _ _ => trivial)
    enabled_unmoved ?_)
  swap
  · rintro u u' - rfl
    simp [MiniUart.Enabled]
  intro _
  apply Mmio.Lands.bind (both_put MiniUart.Off (hserial _ (by simp)) enabled_unmoved
    (hoff fun _ => id) ?_)
  swap
  · intro u u' hu hput
    rw [put_of_enabled (by decide) hu hput]
    exact ⟨hu, rfl⟩
  intro _
  apply Mmio.Lands.bind (both_put MiniUart.Off (hserial _ (by simp)) (hoff fun _ => id)
    (hoff fun _ => id) ?_)
  swap
  · intro u u' hu hput
    rw [put_of_enabled (by decide) hu.enabled hput]
    exact ⟨hu.enabled, hu.cntl⟩
  intro _
  apply Mmio.Lands.bind (both_put MiniUart.Cleared (hserial _ (by simp)) (hoff fun _ => id)
    (hoff fun _ h => h.toOff) ?_)
  swap
  · intro u u' hu hput
    rw [put_of_enabled (by decide) hu.enabled hput]
    exact ⟨⟨hu.enabled, hu.cntl⟩, rfl, rfl⟩
  intro _
  apply Mmio.Lands.bind (both_put (fun u => u.Cleared ∧ u.lcr = 3) (hserial _ (by simp))
    (hoff fun _ h => h.toOff) (hoff fun _ h => h.1.toOff) ?_)
  swap
  · intro u u' hu hput
    rw [put_of_enabled (by decide) hu.enabled hput]
    exact ⟨⟨⟨hu.enabled, hu.cntl⟩, hu.rx, hu.tx⟩, rfl⟩
  intro _
  apply Mmio.Lands.bind (both_put (fun u => u.Cleared ∧ u.lcr = 3 ∧ u.baud = 270) (hserial _ (by simp))
    (hoff fun _ h => h.1.toOff) (hoff fun _ h => h.1.toOff) ?_)
  swap
  · rintro u u' ⟨hu, hlcr⟩ hput
    rw [put_of_enabled (by decide) hu.enabled hput]
    exact ⟨⟨⟨hu.enabled, hu.cntl⟩, hu.rx, hu.tx⟩, hlcr, rfl⟩
  intro _
  -- from here on bytes may arrive
  refine .put (stable_both g₂ (hoff fun _ h => h.1.toOff)) ?_
  rintro c c' ⟨⟨hu, hlcr, hbaud⟩, held, lvl, -, hlike⟩ ⟨hgpio, huart⟩
  refine ⟨?_, ?_, ?_, ?_⟩
  · rw [hserial .auxMuCntl (by simp) _ _ _ hgpio, hlike, ← hpins]
    rfl
  · rw [put_of_enabled (by decide) hu.enabled huart]
    exact ⟨⟨hu.enabled, hlcr, hbaud⟩, by simp [MiniUart.put], by simp [MiniUart.put]⟩
  · rw [put_of_enabled (by decide) hu.enabled huart]
    exact hu.rx
  · rw [put_of_enabled (by decide) hu.enabled huart]
    exact hu.tx

/-- `uart_init` makes any chip ready, whatever was set before and whatever was in the FIFOs: every run of it
comes to its end with the two pins set and no others and with both FIFOs empty, and only the device moves after
that. -/
theorem uartInit_initialises (c c' : Chip) (h : Reach chip (uartInit, c) (.done (), c')) :
    ∃ c₁, Reach chip (uartInit, c) (.done (), c₁) ∧ Initialised c.gpio.pins c₁ ∧ Drifts chip c₁ c' :=
  uartInit_lands.of_reach c () c' ⟨c.gpio.held, c.gpio.lvl, Nat.zero_le _, rfl⟩ h

theorem uartInit_initialises_reset : ∃ c', Reach chip (uartInit, resetChip) (.done (), c') ∧
    ∃ c₁, Reach chip (uartInit, resetChip) (.done (), c₁) ∧ Initialised resetChip.gpio.pins c₁ ∧
      Drifts chip c₁ c' := by
  obtain ⟨⟨⟩, c', h⟩ := chip_total.reach uartInit resetChip
  exact ⟨c', h, uartInit_initialises resetChip c' h⟩

end Init

section Wired
variable {α β : Type}

/-- A party and the Pi with the two lines between them. `pi` is what is left of the turn that the Pi is in, and
`lost` counts the bytes that found the FIFO full. -/
structure Wired (α β : Type) where
  host : Prog Byte α
  toPi : List Byte
  toHost : List Byte
  pi : HwM (Prog Byte β)
  board : Chip
  count : ℕ
  lost : ℕ

variable (nextA : α → Option (Prog Byte α)) (nextB : β → Option (Prog Byte β)) (noise : ℕ → Byte → Byte)

inductive Wired.Step : Wired α β → Wired α β → Prop where
  | host {w : Wired α β} {p : Prog Byte β} {c : Config Byte α β}
    (h : Fifo.stepA nextA noise ⟨w.host, p, w.toPi, w.toHost, w.count⟩ = some c) :
    Step w { w with host := c.a, toPi := c.ab, toHost := c.ba, count := c.count }
  | turn {w : Wired α β} {p : Prog Byte β} {io : HwM (Prog Byte β)} (hp : w.pi = .done p)
    (h : nextTurn nextB p = some io) : Step w { w with pi := io }
  | access {w : Wired α β} {io : HwM (Prog Byte β)} {c : Chip} (h : Access chip (w.pi, w.board) (io, c)) :
    Step w { w with pi := io, board := c }
  | idle {w : Wired α β} {c : Chip} (h : chip.env w.board c) (huart : c.uart = w.board.uart) :
    Step w { w with board := c }
  | arrive {w : Wired α β} {b : Byte} {bs : List Byte} {u : MiniUart} (hb : w.toPi = b :: bs)
    (h : MiniUart.Moves (.arrive b) w.board.uart u) :
    Step w { w with
      toPi := bs
      board := { w.board with uart := u }
      lost := if u.rx.length = w.board.uart.rx.length then w.lost + 1 else w.lost }
  | leave {w : Wired α β} {b : Byte} {u : MiniUart} (h : MiniUart.Moves (.leave b) w.board.uart u) :
    Step w { w with toHost := w.toHost ++ [b], board := { w.board with uart := u } }

abbrev Wired.Reach : Wired α β → Wired α β → Prop := Relation.ReflTransGen (Wired.Step nextA nextB noise)

/-- How far the Pi is with what the program does next. -/
inductive At (u : MiniUart) : Prog Byte β → HwM (Prog Byte β) → Prop where
  | between (p : Prog Byte β) : At u p (.done p)
  | pollRx (k : Byte → Prog Byte β) : At u (.recv k) (.get .auxMuStat (uartGetc k))
  | reading (k : Byte → Prog Byte β) (h : u.rx ≠ []) :
    At u (.recv k) (.get .auxMuIo fun data => .done (k ((data &&& 255).setWidth 8)))
  | pollTx (b : Byte) (p : Prog Byte β) : At u (.send b p) (.get .auxMuStat (uartPutc b p))
  | writing (b : Byte) (p : Prog Byte β) (h : u.tx.length < MiniUart.depth) :
    At u (.send b p) (.put .auxMuIo (b.setWidth 32 &&& 255) (.done p))

/-- The channels that the lines and the FIFOs make together. -/
structure Channels (w : Wired α β) (c : Config Byte α β) : Prop where
  host : c.a = w.host
  pi : At w.board.uart c.b w.pi
  ab : c.ab = w.board.uart.rx ++ w.toPi
  ba : c.ba = w.toHost ++ w.board.uart.tx
  count : c.count = w.count
  ready : w.board.uart.Ready

variable {nextA nextB noise} {w w' : Wired α β} {c c' : Config Byte α β} {u u' : MiniUart}

theorem and_one_shift_ne_zero (v : Word) {n : ℕ} (hn : n < 32) : v &&& (1 : Word) <<< n ≠ 0 ↔ v.getLsbD n = true := by
  constructor
  · contrapose
    intro hbit
    apply BitVec.eq_of_getLsbD_eq
    intro i hi
    rw [BitVec.getLsbD_and, getLsbD_one_shift hn]
    by_cases h : i = n
    · simp [h, hbit]
    · simp [h]
  · intro hbit hzero
    have hget := congrArg (fun x : Word => x.getLsbD n) hzero
    simp [hbit] at hget
    omega

/-- The masks leave a byte as it is. -/
theorem getLsbD_dataMask {i : ℕ} (hi : i < 8) : (255 : Word).getLsbD i = true := by
  have h : ∀ i < 8, (255 : Word).getLsbD i = true := by decide
  exact h i hi

theorem setWidth_data (v : Word) : (v &&& 255).setWidth 8 = (v.setWidth 8 : Byte) := by
  apply BitVec.eq_of_getLsbD_eq
  intro i hi
  rw [BitVec.getLsbD_setWidth, BitVec.getLsbD_and, getLsbD_dataMask hi, BitVec.getLsbD_setWidth]
  simp

theorem setWidth_symbol (b : Byte) : (b.setWidth 32 &&& 255 : Word).setWidth 8 = b := by
  apply BitVec.eq_of_getLsbD_eq
  intro i hi
  rw [BitVec.getLsbD_setWidth, BitVec.getLsbD_and, getLsbD_dataMask hi, BitVec.getLsbD_setWidth]
  simp [hi]
  omega

/-- The first party sees only the near ends of its channels. -/
theorem stepA_frame {a : Prog Byte α} {b p : Prog Byte β} {ab ba rx tx : List Byte} {n : ℕ} {d : Config Byte α β}
    (h : Fifo.stepA nextA noise ⟨a, p, ab, ba, n⟩ = some d) :
    Fifo.stepA nextA noise ⟨a, b, rx ++ ab, ba ++ tx, n⟩ = some ⟨d.a, b, rx ++ d.ab, d.ba ++ tx, d.count⟩ := by
  cases a with
  | done x =>
    obtain ⟨q, hq, rfl⟩ := Option.map_eq_some_iff.mp h
    simp [Fifo.stepA, hq]
  | send v q =>
    cases h
    simp [Fifo.stepA]
  | recv k =>
    cases ba with
    | nil => cases h
    | cons v vs =>
      cases h
      simp [Fifo.stepA]

/-- And when nothing is on its way to it, these are all. -/
theorem stepA_near {a : Prog Byte α} {b : Prog Byte β} {ab ba rx : List Byte} {n : ℕ} {d : Config Byte α β}
    (h : Fifo.stepA nextA noise ⟨a, b, rx ++ ab, ba, n⟩ = some d) :
    ∃ e : Config Byte α β, Fifo.stepA nextA noise ⟨a, b, ab, ba, n⟩ = some e ∧
      d = ⟨e.a, b, rx ++ e.ab, e.ba, e.count⟩ := by
  cases a with
  | done x =>
    obtain ⟨q, hq, rfl⟩ := Option.map_eq_some_iff.mp h
    exact ⟨⟨q, b, ab, ba, n⟩, by simp [Fifo.stepA, hq], rfl⟩
  | send v q =>
    cases h
    exact ⟨⟨q, b, ab ++ [noise n v], ba, n + 1⟩, rfl, by simp⟩
  | recv k =>
    cases ba with
    | nil => cases h
    | cons v vs =>
      cases h
      exact ⟨⟨k v, b, ab, vs, n⟩, rfl, rfl⟩

theorem channels_host {d : Config Byte α β} {p : Prog Byte β} (h : Channels w c)
    (hd : Fifo.stepA nextA noise ⟨w.host, p, w.toPi, w.toHost, w.count⟩ = some d) :
    ∃ c', Fifo.Step nextA nextB noise c c' ∧
      Channels { w with host := d.a, toPi := d.ab, toHost := d.ba, count := d.count } c' := by
  obtain ⟨a, b, ab, ba, count⟩ := c
  obtain ⟨rfl, hpi, rfl, rfl, rfl, hready⟩ := h
  exact ⟨_, .inl (stepA_frame hd), ⟨rfl, hpi, rfl, rfl, rfl, hready⟩⟩

/-- The settings stay as they are. -/
theorem MiniUart.Ready.fifos (h : u.Ready) (rx tx : List Byte) : ({ u with rx := rx, tx := tx }).Ready :=
  ⟨⟨h.configured.enabled, h.configured.lcr, h.configured.baud⟩, h.receiver, h.transmitter⟩

theorem channels_turn {p : Prog Byte β} {io : HwM (Prog Byte β)} (h : Channels w c) (hp : w.pi = .done p)
    (hn : nextTurn nextB p = some io) :
    ∃ c', Relation.ReflGen (Fifo.Step nextA nextB noise) c c' ∧ Channels { w with pi := io } c' := by
  obtain ⟨host, toPi, toHost, pi, board, count, lost⟩ := w
  obtain ⟨a, b, ab, ba, sent⟩ := c
  obtain ⟨hhost, hpi, hab, hba, hcount, hready⟩ := h
  dsimp only at hp hpi
  subst hp
  cases hpi with
  | between =>
    cases p with
    | done x =>
      obtain ⟨q, hq, rfl⟩ := Option.map_eq_some_iff.mp hn
      have hstep : Fifo.stepB nextB (⟨a, .done x, ab, ba, sent⟩ : Config Byte α β) = some ⟨a, q, ab, ba, sent⟩ := by
        simp [Fifo.stepB, hq]
      exact ⟨_, .single (.inr hstep), ⟨hhost, .between q, hab, hba, hcount, hready⟩⟩
    | recv k =>
      cases hn
      exact ⟨_, .refl, ⟨hhost, .pollRx k, hab, hba, hcount, hready⟩⟩
    | send v q =>
      cases hn
      exact ⟨_, .refl, ⟨hhost, .pollTx v q, hab, hba, hcount, hready⟩⟩

/-- The Pi takes a byte when it reads the data register, and gives one away when it writes to it. -/
theorem channels_access {io : HwM (Prog Byte β)} {d : Chip} (h : Channels w c)
    (haccess : Access chip (w.pi, w.board) (io, d)) :
    ∃ c', Relation.ReflGen (Fifo.Step nextA nextB noise) c c' ∧ Channels { w with pi := io, board := d } c' := by
  obtain ⟨host, toPi, toHost, pi, board, count, lost⟩ := w
  obtain ⟨a, b, ab, ba, sent⟩ := c
  obtain ⟨hhost, hpi, hab, hba, hcount, hready⟩ := h
  dsimp only at hpi hab hba haccess
  cases hpi with
  | between p => cases haccess
  | pollRx k =>
    cases haccess with
    | @get _ _ _ _ status hget =>
      obtain ⟨-, -, huart, hstatus⟩ := hget
      have hrx := (hstatus hready.configured.enabled).1
      refine ⟨_, .refl, ⟨hhost, ?_, by rw [huart]; exact hab, by rw [huart]; exact hba, hcount, by rwa [huart]⟩⟩
      unfold uartGetc
      split
      · rename_i hbit
        rw [and_one_shift_ne_zero status (by omega)] at hbit
        exact .reading k (by rw [huart]; exact hrx.mp hbit)
      · exact .between _
  | reading k hne =>
    cases haccess with
    | @get _ _ _ _ data hget =>
      obtain ⟨-, -, htake, -⟩ := hget
      obtain ⟨v, vs, hrx⟩ := List.exists_cons_of_ne_nil hne
      obtain ⟨hdata, huart⟩ := htake hready.configured.enabled v vs hrx
      have hstep : Fifo.stepB nextB (⟨a, .recv k, ab, ba, sent⟩ : Config Byte α β) =
          some ⟨a, k v, vs ++ toPi, ba, sent⟩ := by
        rw [hab, hrx]
        rfl
      refine ⟨_, .single (.inr hstep), ⟨hhost, ?_, ?_, ?_, hcount, ?_⟩⟩
      · dsimp only
        rw [setWidth_data, hdata]
        exact .between _
      · rw [huart]
      · rw [huart]
        exact hba
      · rw [huart]
        exact hready.fifos vs board.uart.tx
  | pollTx v p =>
    cases haccess with
    | @get _ _ _ _ status hget =>
      obtain ⟨-, -, huart, hstatus⟩ := hget
      have htx := (hstatus hready.configured.enabled).2
      refine ⟨_, .refl, ⟨hhost, ?_, by rw [huart]; exact hab, by rw [huart]; exact hba, hcount, by rwa [huart]⟩⟩
      unfold uartPutc
      split
      · rename_i hbit
        rw [and_one_shift_ne_zero status (by omega)] at hbit
        exact .writing v p (by rw [huart]; exact htx.mp hbit)
      · exact .between _
  | writing v p hroom =>
    cases haccess with
    | put hput =>
      have huart := put_of_enabled (by decide) hready.configured.enabled hput.2
      rw [MiniUart.put, if_pos hroom, setWidth_symbol] at huart
      have hstep : Fifo.stepB nextB (⟨a, .send v p, ab, ba, sent⟩ : Config Byte α β) =
          some ⟨a, p, ab, ba ++ [v], sent⟩ := rfl
      refine ⟨_, .single (.inr hstep), ⟨hhost, .between p, ?_, ?_, hcount, ?_⟩⟩
      · rw [huart]
        exact hab
      · simp [huart, hba]
      · rw [huart]
        exact hready.fifos board.uart.rx _

/-- A byte that comes in or goes out does not change where the Pi is. -/
theorem At.of_moves {m : MiniUart.Move} {p : Prog Byte β} {io : HwM (Prog Byte β)} (h : At u p io)
    (hmove : MiniUart.Moves m u u') : At u' p io := by
  cases h with
  | between => exact .between _
  | pollRx k => exact .pollRx k
  | pollTx v p => exact .pollTx v p
  | reading k hne =>
    apply At.reading
    cases hmove with
    | arrive => simp
    | overrun => exact hne
    | deaf => exact hne
    | leave => exact hne
  | writing v p hroom =>
    apply At.writing
    cases hmove with
    | arrive => exact hroom
    | overrun => exact hroom
    | deaf => exact hroom
    | leave _ _ htx =>
      rw [htx, List.length_cons] at hroom
      dsimp only
      omega

/-- One step of the wired parties is at most one of the channels, if no byte is lost. -/
theorem channels_step (h : Channels w c) (hstep : Wired.Step nextA nextB noise w w') (hlost : w'.lost = w.lost) :
    ∃ c', Relation.ReflGen (Fifo.Step nextA nextB noise) c c' ∧ Channels w' c' := by
  cases hstep with
  | host hd =>
    obtain ⟨c', hc, hchan⟩ := channels_host h hd
    exact ⟨c', .single hc, hchan⟩
  | turn hp hn => exact channels_turn h hp hn
  | access haccess => exact channels_access h haccess
  | idle henv huart =>
    obtain ⟨hhost, hpi, hab, hba, hcount, hready⟩ := h
    rw [← huart] at hpi hab hba hready
    exact ⟨c, .refl, ⟨hhost, hpi, hab, hba, hcount, hready⟩⟩
  | arrive hb hmove =>
    have hpi := h.pi.of_moves hmove
    cases hmove with
    | arrive _ _ _ hgot =>
      refine ⟨c, .refl, ⟨h.host, hpi, ?_, h.ba, h.count, h.ready.fifos _ _⟩⟩
      simp [h.ab, hb, hgot h.ready.configured]
    | overrun => simp at hlost
    | deaf hoff => exact absurd ⟨h.ready.receiver, h.ready.configured.enabled⟩ hoff
  | leave hmove =>
    have hpi := h.pi.of_moves hmove
    cases hmove with
    | leave _ _ htx hsent =>
      refine ⟨c, .refl, ⟨h.host, hpi, h.ab, ?_, h.count, h.ready.fifos _ _⟩⟩
      simp [h.ba, htx, hsent h.ready.configured]

theorem At.of_send {v : Byte} {p : Prog Byte β} {io : HwM (Prog Byte β)} (h : At u (.send v p) io) :
    io = .done (.send v p) ∨ io = .get .auxMuStat (uartPutc v p) ∨
      io = .put .auxMuIo (v.setWidth 32 &&& 255) (.done p) := by
  cases h with
  | between => exact .inl rfl
  | pollTx => exact .inr (.inl rfl)
  | writing => exact .inr (.inr rfl)

theorem At.of_recv {k : Byte → Prog Byte β} {io : HwM (Prog Byte β)} (h : At u (.recv k) io) :
    io = .done (.recv k) ∨ io = .get .auxMuStat (uartGetc k) ∨
      io = .get .auxMuIo fun data => .done (k ((data &&& 255).setWidth 8)) := by
  cases h with
  | between => exact .inl rfl
  | pollRx => exact .inr (.inl rfl)
  | reading => exact .inr (.inr rfl)

variable (nextA noise) in
/-- The Pi polls until the status is as it waits for. -/
theorem reach_polled {p : Prog Byte β} {f : Word → HwM (Prog Byte β)} {io : HwM (Prog Byte β)}
    (hpi : w.pi = .done p ∨ w.pi = .get .auxMuStat f ∨ w.pi = io)
    (hturn : nextTurn nextB p = some (.get .auxMuStat f))
    (hf : ∀ status d, chip.get .auxMuStat w.board status d → f status = io) :
    ∃ d : Chip, d.uart = w.board.uart ∧ Wired.Reach nextA nextB noise w { w with pi := io, board := d } := by
  obtain ⟨host, toPi, toHost, pi, board, count, lost⟩ := w
  dsimp only at hpi hf
  have hpoll : ∃ d : Chip, d.uart = board.uart ∧ Wired.Reach nextA nextB noise
      ⟨host, toPi, toHost, .get .auxMuStat f, board, count, lost⟩ ⟨host, toPi, toHost, io, d, count, lost⟩ := by
    obtain ⟨status, d, hget⟩ := chip_total.get .auxMuStat board
    rw [← hf status d hget]
    exact ⟨d, hget.2.2.1, .single (.access (.get hget))⟩
  obtain rfl | rfl | rfl := hpi
  · obtain ⟨d, hd, hreach⟩ := hpoll
    exact ⟨d, hd, .head (.turn rfl hturn) hreach⟩
  · exact hpoll
  · exact ⟨board, rfl, .refl⟩

/-- There is always a way on without losing a byte. -/
abbrev Wired.On (nextA : α → Option (Prog Byte α)) (nextB : β → Option (Prog Byte β)) (noise : ℕ → Byte → Byte)
    (w : Wired α β) (c : Config Byte α β) : Prop :=
  ∃ w', Wired.Reach nextA nextB noise w w' ∧ w'.lost = w.lost ∧ Channels w' c

variable (nextA nextB noise) in
/-- All that the Pi has put goes out. -/
theorem reach_drained (h : Channels w c) :
    ∃ w', Wired.Reach nextA nextB noise w w' ∧ w'.lost = w.lost ∧ Channels w' c ∧ w'.board.uart.tx = [] := by
  generalize htx : w.board.uart.tx = tx
  induction tx generalizing w with
  | nil => exact ⟨w, .refl, rfl, h, htx⟩
  | cons v vs ih =>
    have hmove : MiniUart.Moves (.leave v) w.board.uart { w.board.uart with tx := vs } :=
      .leave h.ready.transmitter h.ready.configured.enabled htx fun _ => rfl
    have hstep : Wired.Step nextA nextB noise w
        { w with toHost := w.toHost ++ [v], board := { w.board with uart := { w.board.uart with tx := vs } } } :=
      .leave hmove
    have hchan : Channels
        { w with toHost := w.toHost ++ [v], board := { w.board with uart := { w.board.uart with tx := vs } } } c :=
      ⟨h.host, h.pi.of_moves hmove, h.ab, by simp [h.ba, htx], h.count, h.ready.fifos _ _⟩
    obtain ⟨w', hreach, hlost, hchan', hdry⟩ := ih hchan rfl
    exact ⟨w', .head hstep hreach, hlost, hchan', hdry⟩

variable (nextA nextB noise) in
/-- What is on the line comes in when there is nothing before it. -/
theorem reach_filled (h : Channels w c) (hab : c.ab ≠ []) :
    ∃ w', Wired.Reach nextA nextB noise w w' ∧ w'.lost = w.lost ∧ Channels w' c ∧ w'.board.uart.rx ≠ [] := by
  by_cases hrx : w.board.uart.rx = []
  · rw [h.ab, hrx, List.nil_append] at hab
    obtain ⟨v, vs, hto⟩ := List.exists_cons_of_ne_nil hab
    have hmove : MiniUart.Moves (.arrive v) w.board.uart { w.board.uart with rx := w.board.uart.rx ++ [v] } :=
      .arrive h.ready.receiver h.ready.configured.enabled (by simp [hrx, MiniUart.depth]) fun _ => rfl
    refine ⟨_, .single (.arrive hto hmove), ?_, ⟨h.host, h.pi.of_moves hmove, ?_, h.ba, h.count, h.ready.fifos _ _⟩,
      ?_⟩
    · simp
    · simp [h.ab, hto]
    · simp
  · exact ⟨w, .refl, rfl, h, hrx⟩

theorem on_host {d : Config Byte α β} (h : Channels w c) (hd : Fifo.stepA nextA noise c = some d) :
    Wired.On nextA nextB noise w d := by
  obtain ⟨w', hreach, hlost, ⟨hhost, hpi, hab, hba, hcount, hready⟩, hdry⟩ := reach_drained nextA nextB noise h
  obtain ⟨a, b, ab, ba, count⟩ := c
  dsimp only at hhost hpi hab hba hcount
  rw [hdry, List.append_nil] at hba
  subst hhost hab hba hcount
  obtain ⟨e, he, rfl⟩ := stepA_near hd
  exact ⟨_, hreach.tail (.host he), hlost, ⟨rfl, hpi, rfl, by simp [hdry], rfl, hready⟩⟩

theorem on_pi {d : Config Byte α β} (h : Channels w c) (hd : Fifo.stepB nextB c = some d) :
    Wired.On nextA nextB noise w d := by
  obtain ⟨a, b, ab, ba, count⟩ := c
  cases b with
  | done x =>
    obtain ⟨q, hq, rfl⟩ := Option.map_eq_some_iff.mp hd
    obtain ⟨host, toPi, toHost, pi, board, sent, lost⟩ := w
    obtain ⟨hhost, hpi, hab, hba, hcount, hready⟩ := h
    dsimp only at hpi
    cases hpi with
    | between =>
      have hturn : nextTurn nextB (.done x) = some (.done q) := by simp [nextTurn, hq]
      exact ⟨_, .single (.turn rfl hturn), rfl, ⟨hhost, .between q, hab, hba, hcount, hready⟩⟩
  | send v q =>
    cases hd
    obtain ⟨w', hreach, hlost, h', hdry⟩ := reach_drained nextA nextB noise h
    have hready := h'.ready
    have hpoll : ∀ status e, chip.get .auxMuStat w'.board status e →
        uartPutc v q status = .put .auxMuIo (v.setWidth 32 &&& 255) (.done q) := by
      intro status e hget
      have hbit := ((hget.2.2.2 hready.configured.enabled).2).mpr (by simp [hdry, MiniUart.depth])
      rw [← and_one_shift_ne_zero status (by omega)] at hbit
      rw [uartPutc, if_pos hbit]
      rfl
    obtain ⟨e, he, hwriting⟩ := reach_polled nextA noise h'.pi.of_send rfl hpoll
    obtain ⟨e', hput⟩ := chip_total.put .auxMuIo (v.setWidth 32 &&& 255) e
    have huart : e'.uart = { w'.board.uart with tx := [v] } := by
      rw [put_of_enabled (by decide) (by rw [he]; exact hready.configured.enabled) hput.2, he]
      rw [MiniUart.put, if_pos (by simp [hdry, MiniUart.depth]), hdry, setWidth_symbol]
      rfl
    have hab : ab = _ := h'.ab
    have hba : ba = _ := h'.ba
    rw [hdry, List.append_nil] at hba
    refine ⟨_, hreach.trans (hwriting.tail (.access (.put hput))), hlost, ⟨h'.host, .between q, ?_, ?_, h'.count, ?_⟩⟩
    · simp [huart, hab]
    · simp [huart, hba]
    · rw [huart]
      exact hready.fifos _ _
  | recv k =>
    obtain ⟨v, vs, rfl⟩ : ∃ v vs, ab = v :: vs := by
      cases ab with
      | nil => cases hd
      | cons v vs => exact ⟨v, vs, rfl⟩
    cases hd
    obtain ⟨w', hreach, hlost, h', hne⟩ := reach_filled nextA nextB noise h (List.cons_ne_nil v vs)
    have hready := h'.ready
    have hpoll : ∀ status e, chip.get .auxMuStat w'.board status e →
        uartGetc k status = .get .auxMuIo fun data => .done (k ((data &&& 255).setWidth 8)) := by
      intro status e hget
      have hbit := ((hget.2.2.2 hready.configured.enabled).1).mpr hne
      rw [← and_one_shift_ne_zero status (by omega)] at hbit
      rw [uartGetc, if_pos hbit]
      rfl
    obtain ⟨e, he, hreading⟩ := reach_polled nextA noise h'.pi.of_recv rfl hpoll
    obtain ⟨data, e', hget⟩ := chip_total.get .auxMuIo e
    obtain ⟨u, us, hrx⟩ := List.exists_cons_of_ne_nil hne
    have hab : v :: vs = _ := h'.ab
    have hba : ba = _ := h'.ba
    simp only [hrx, List.cons_append, List.cons.injEq] at hab
    obtain ⟨rfl, hab⟩ := hab
    obtain ⟨hdata, huart⟩ := hget.2.2.1 (by rw [he]; exact hready.configured.enabled) v us (by rw [he]; exact hrx)
    refine ⟨_, hreach.trans (hreading.tail (.access (.get hget))), hlost, ⟨h'.host, ?_, ?_, ?_, h'.count, ?_⟩⟩
    · dsimp only
      rw [setWidth_data, hdata]
      exact .between _
    · simp [huart, hab]
    · simp [huart, he, hba]
    · rw [huart, he]
      exact hready.fifos _ _

/-- Every step of the channels can be made over the lines, and nothing need be lost. -/
theorem on_step (h : Channels w c) (hstep : Fifo.Step nextA nextB noise c c') : Wired.On nextA nextB noise w c' := by
  obtain hstep | hstep := hstep
  · exact on_host h hstep
  · exact on_pi h hstep

/-- No byte that was lost comes back. -/
theorem lost_mono (h : Wired.Step nextA nextB noise w w') : w.lost ≤ w'.lost := by
  cases h with
  | arrive hb hmove =>
    dsimp only
    split
    · omega
    · exact Nat.le_refl _
  | host => exact Nat.le_refl _
  | turn => exact Nat.le_refl _
  | access => exact Nat.le_refl _
  | idle => exact Nat.le_refl _
  | leave => exact Nat.le_refl _

theorem lost_mono_reach (h : Wired.Reach nextA nextB noise w w') : w.lost ≤ w'.lost := by
  induction h with
  | refl => exact Nat.le_refl _
  | tail _ hstep ih => exact Nat.le_trans ih (lost_mono hstep)

theorem channels_reach (h : Channels w c) (hreach : Wired.Reach nextA nextB noise w w') (hlost : w'.lost = w.lost) :
    ∃ c', Fifo.Reach nextA nextB noise c c' ∧ Channels w' c' := by
  induction hreach with
  | refl => exact ⟨c, .refl, h⟩
  | @tail v w' hreach hstep ih =>
    have hmono := lost_mono_reach hreach
    have hlast := lost_mono hstep
    obtain ⟨d, hd, hchan⟩ := ih (by omega)
    obtain ⟨c', hc', hchan'⟩ := channels_step hchan hstep (by omega)
    exact ⟨c', hd.trans hc'.to_reflTransGen, hchan'⟩

theorem on_reach (h : Channels w c) (hreach : Fifo.Reach nextA nextB noise c c') :
    Wired.On nextA nextB noise w c' := by
  induction hreach with
  | refl => exact ⟨w, .refl, rfl, h⟩
  | tail _ hstep ih =>
    obtain ⟨v, hv, hlost, hchan⟩ := ih
    obtain ⟨w', hw', hlost', hchan'⟩ := on_step hchan hstep
    exact ⟨w', hv.trans hw', hlost'.trans hlost, hchan'⟩

/-- However a run without loss began, what is inevitable over the channels can still be reached. -/
theorem on_inevitable (h : Channels w c) (hend : Inevitable (Fifo.Step nextA nextB noise) c c')
    (hreach : Wired.Reach nextA nextB noise w w') (hlost : w'.lost = w.lost) :
    Wired.On nextA nextB noise w' c' := by
  obtain ⟨d, hd, hchan⟩ := channels_reach h hreach hlost
  exact on_reach hchan (hend.reach hd)

/-- The two parties over a Pi that has been initialised. -/
def Wired.start (a : Prog Byte α) (b : Prog Byte β) (board : Chip) : Wired α β := ⟨a, [], [], .done b, board, 0, 0⟩

theorem channels_start {s : Pins} {board : Chip} (a : Prog Byte α) (b : Prog Byte β) (h : Initialised s board) :
    Channels (.start a b board) ⟨a, b, [], [], 0⟩ :=
  ⟨rfl, .between b, by simp [Wired.start, h.rx], by simp [Wired.start, h.tx], rfl, h.ready⟩

/-- The driver and the mini UART make of the two lines the channels that the programs are written for: a run
that loses no byte does to the parties what a run over the channels does, each run over the channels can be
made, and the parties never get stuck where they would not over the channels. -/
theorem wired_refines (nextA : α → Option (Prog Byte α)) (nextB : β → Option (Prog Byte β)) (noise : ℕ → Byte → Byte)
    (a : Prog Byte α) (b : Prog Byte β) {s : Pins} {board : Chip} (h : Initialised s board) :
    (∀ w, Wired.Reach nextA nextB noise (.start a b board) w → w.lost = 0 →
      ∃ c, Fifo.Reach nextA nextB noise ⟨a, b, [], [], 0⟩ c ∧ Channels w c) ∧
    (∀ c, Fifo.Reach nextA nextB noise ⟨a, b, [], [], 0⟩ c →
      ∃ w, Wired.Reach nextA nextB noise (.start a b board) w ∧ w.lost = 0 ∧ Channels w c) ∧
    ∀ c, Inevitable (Fifo.Step nextA nextB noise) ⟨a, b, [], [], 0⟩ c →
      ∀ w, Wired.Reach nextA nextB noise (.start a b board) w → w.lost = 0 →
        ∃ w', Wired.Reach nextA nextB noise w w' ∧ w'.lost = 0 ∧ Channels w' c := by
  refine ⟨fun w => channels_reach (channels_start a b h), fun c => on_reach (channels_start a b h), ?_⟩
  intro c hend w hreach hlost
  obtain ⟨w', hreach', hlost', hchan⟩ := on_inevitable (channels_start a b h) hend hreach hlost
  exact ⟨w', hreach', hlost'.trans hlost, hchan⟩

/-- The chip after a reset, once it is initialised. -/
theorem reset_initialised : ∃ board, Initialised resetChip.gpio.pins board := by
  obtain ⟨⟨⟩, c', hrun⟩ := chip_total.reach uartInit resetChip
  obtain ⟨board, -, hinit, -⟩ := (uartInit_lands (g := resetChip.gpio)).of_reach resetChip () c'
    ⟨resetChip.gpio.held, resetChip.gpio.lvl, Nat.zero_le _, rfl⟩ hrun
  exact ⟨board, hinit⟩

/-- One side sends a word, and the other takes it. -/
theorem wired_refines_word : ∃ board, Initialised resetChip.gpio.pins board ∧
    ∀ w, Wired.Reach (fun _ => none) (fun _ => none) (fun _ => id)
      (.start (putUint 0x12345678) getUint board) w → w.lost = 0 →
      ∃ c, Fifo.Reach (fun _ => none) (fun _ => none) (fun _ => id) ⟨putUint 0x12345678, getUint, [], [], 0⟩ c ∧
        Channels w c := by
  obtain ⟨board, hinit⟩ := reset_initialised
  exact ⟨board, hinit,
    (wired_refines (fun _ => none) (fun _ => none) (fun _ => id) (putUint 0x12345678) getUint hinit).1⟩

end Wired
end SimplePiOS.Libpi.Hw
