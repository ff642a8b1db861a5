import SimplePiOS.Lib.EState

/-! libpi/stdlib.c over any memory. The same source runs on the kernel's mapped memory
and, for the file system alone, on a flat one, so the functions take the memory as a `Bus`. -/
namespace SimplePiOS.Libpi

/-- Why a run ends without returning. -/
inductive Stop where
  /-- `panic`, `assert` and `demand`: print the text and reboot. -/
  | panic (msg : String)
  /-- The access has no mapping; `data_abort_vector` panics. -/
  | dataAbort (va : ℕ)
  /-- A store past the end of an array of the kernel: the source says nothing about what runs
  next. -/
  | clobber (va : ℕ)
  /-- The bound on a loop's iterations is used up. -/
  | diverge
  deriving DecidableEq, Repr

/-- Byte loads and stores at a program's addresses. -/
structure Bus (σ : Type) where
  load : ℕ → EStateM Stop σ UInt8
  store : ℕ → UInt8 → EStateM Stop σ Unit

variable {σ : Type} (bus : Bus σ)

def assert (p : Prop) [Decidable p] (msg : String) : EStateM Stop σ Unit :=
  if p then pure () else throw (.panic msg)

theorem run_assert {p : Prop} [Decidable p] (h : p) (msg : String) (s : σ) :
    (assert p msg : EStateM Stop σ Unit).run s = .ok () s := by
  unfold assert
  rw [if_pos h]
  rfl

/-- A check that is passed held. -/
theorem of_assert_ok {p : Prop} [Decidable p] {msg : String} {s t : σ} {u : Unit}
    (h : (assert p msg : EStateM Stop σ Unit).run s = .ok u t) : p ∧ t = s := by
  unfold assert at h
  split at h
  · next hp => exact ⟨hp, (EStateM.Result.ok.inj h).2.symm⟩
  · cases h

/-- 32-bit addition and subtraction, the arithmetic of `unsigned` and of pointers. -/
def add32 (a b : ℕ) : ℕ := (a + b) % 2 ^ 32

def sub32 (a b : ℕ) : ℕ := (a + 2 ^ 32 - b) % 2 ^ 32

/-- The macro `is_aligned(x, a)`: it masks with `a - 1` itself, so `is_aligned(x, 20)`
looks at bits 0, 1 and 4 only. -/
def isAligned (x a : ℕ) : Prop := x &&& (a - 1) = 0

instance (x a : ℕ) : Decidable (isAligned x a) := inferInstanceAs (Decidable (_ = _))

/-- The macro `roundup(x, n)` for a power of two `n`. -/
def roundup (x n : ℕ) : ℕ := add32 x (n - 1) / n * n

def fillBytes (c : UInt8) : ℕ → ℕ → EStateM Stop σ Unit
  | _, 0 => pure ()
  | p, n + 1 => do
    bus.store p c
    fillBytes c (p + 1) n

/-- The loop ends on a pointer comparison `p < e`, and `e = p + n` wraps at the top of
the address space: a block that ends there, or passes it, is left alone. -/
def memset (p : ℕ) (c : UInt8) (n : ℕ) : EStateM Stop σ Unit :=
  fillBytes bus c p (add32 p n - p)

/-- The difference of the first bytes that differ, or 0. -/
def memcmp : ℕ → ℕ → ℕ → EStateM Stop σ ℤ
  | _, _, 0 => pure 0
  | s1, s2, n + 1 => do
    let a ← bus.load s1
    let b ← bus.load s2
    let v : ℤ := (a.toNat : ℤ) - b.toNat
    if v ≠ 0 then return v
    memcmp (s1 + 1) (s2 + 1) n

def copyBytes : ℕ → ℕ → ℕ → EStateM Stop σ Unit
  | _, _, 0 => pure ()
  | dst, src, n + 1 => do
    let b ← bus.load src
    bus.store dst b
    copyBytes (dst + 1) (src + 1) n

def copyWords : ℕ → ℕ → ℕ → EStateM Stop σ Unit
  | _, _, 0 => pure ()
  | dst, src, n + 1 => do
    let b0 ← bus.load src
    let b1 ← bus.load (src + 1)
    let b2 ← bus.load (src + 2)
    let b3 ← bus.load (src + 3)
    bus.store dst b0
    bus.store (dst + 1) b1
    bus.store (dst + 2) b2
    bus.store (dst + 3) b3
    copyWords (dst + 4) (src + 4) n

def memcpy (dst src n : ℕ) : EStateM Stop σ Unit :=
  if dst % 4 = 0 ∧ src % 4 = 0 ∧ n % 4 = 0 then copyWords bus dst src (n / 4)
  else copyBytes bus dst src n

/-- `strcmp(a, lit) == 0` for a literal without its terminator. -/
def strcmpEq : ℕ → List UInt8 → EStateM Stop σ Bool
  | a, [] => do
    let c ← bus.load a
    return c == 0
  | a, l :: ls => do
    let c ← bus.load a
    if c == l then strcmpEq (a + 1) ls else return false

/-- `strncmp(a, lit, n) == 0` where `n` is the length of the literal. -/
def strncmpEq : ℕ → List UInt8 → EStateM Stop σ Bool
  | _, [] => return true
  | a, l :: ls => do
    let c ← bus.load a
    if c == l then strncmpEq (a + 1) ls else return false

def load16 (a : ℕ) : EStateM Stop σ ℕ := do
  let b0 ← bus.load a
  let b1 ← bus.load (a + 1)
  return b0.toNat + 2 ^ 8 * b1.toNat

def load32 (a : ℕ) : EStateM Stop σ ℕ := do
  let h0 ← load16 bus a
  let h1 ← load16 bus (a + 2)
  return h0 + 2 ^ 16 * h1

end SimplePiOS.Libpi
