import Mathlib.Algebra.GroupWithZero.Nat
import Mathlib.Data.List.Basic
import Mathlib.Logic.Function.Basic
import Mathlib.Order.Nat
import Mathlib.Tactic.Common

/-! libpi/printf.c without `USE_FLOAT`: `va_printk` and the functions below it. -/
namespace SimplePiOS.Libpi

/-- What `va_arg` delivers: a word, or the memory from a string's first byte on. -/
inductive Arg where
  | int (v : BitVec 32)
  | str (s : ℕ → UInt8)

inductive PrintkStop where
  | panic (msg : String)
  /-- An argument is missing, or not of the type `va_arg` takes it for. -/
  | noArg
  | diverge
  deriving DecidableEq

/-- The bytes at `buf`, by their offset, and the offset of `p`. -/
structure Cursor where
  buf : ℕ → UInt8
  p : ℕ

/-- `*p++ = c`. -/
def Cursor.put (w : Cursor) (c : UInt8) : Cursor := ⟨Function.update w.buf w.p c, w.p + 1⟩

def isdigit (c : UInt8) : Prop := '0'.toUInt8 ≤ c ∧ c ≤ '9'.toUInt8

instance (c : UInt8) : Decidable (isdigit c) := inferInstanceAs (Decidable (_ ∧ _))

/-- The characters of an array before its NUL, as memory with zeros behind. -/
def cstr (bs : List UInt8) (i : ℕ) : UInt8 := bs.getD i 0

/-- `pad`; an array is the list of what lies between its start and `p`. -/
def pad (buf : List UInt8) (width : ℕ) : List UInt8 :=
  buf ++ List.replicate (width - buf.length) ' '.toUInt8

/-- `reverse` into `n` bytes, NUL included: what is too much is dropped at the start. -/
def reverse (n : ℕ) (buf : List UInt8) : List UInt8 :=
  let len := buf.length + 1
  (buf.drop (if len > n then len - n else 0)).reverse

/-- `do { *p++ = digits[u % base]; } while(u /= base)`. -/
def emitDigits (digits : String) (base : ℕ) : ℕ → ℕ → List UInt8
  | 0, _ => []
  | turns + 1, u =>
    let c := (digits.toList.getD (u % base) '0').toUInt8
    if u / base ≠ 0 then c :: emitDigits digits base turns (u / base) else [c]

/-- The `switch` of `emit`; an `unsigned` has at most 32 digits. -/
def emitReversed (base : ℕ) (val : BitVec 32) (signedP : Bool) : Except PrintkStop (List UInt8) :=
  if base = 10 then
    if val.toInt < 0 ∧ signedP then
      .ok (emitDigits "0123456789" 10 32 (-val).toNat ++ ['-'.toUInt8])
    else .ok (emitDigits "0123456789" 10 32 val.toNat)
  else if base = 16 then .ok (emitDigits "0123456789abcdef" 16 32 val.toNat)
  else if base = 8 then .ok [UInt8.ofBitVec (val.setWidth 8)]
  else if base = 2 then .ok (emitDigits "01" 2 32 val.toNat)
  else .error (.panic "0")

def emit (base n : ℕ) (val : BitVec 32) (width : ℕ) (signedP : Bool) :
    Except PrintkStop (List UInt8) := do
  let width := if width > n then n - 1 else width
  let buf ← emitReversed base val signedP
  return reverse n (pad buf width)

/-- `while(isdigit(*fmt))`. -/
def parseWidth : BitVec 32 → List UInt8 → BitVec 32 × List UInt8
  | width, [] => (width, [])
  | width, c :: fmt =>
    if isdigit c then parseWidth (width * 10 + c.toBitVec.setWidth 32 - 48) fmt
    else (width, c :: fmt)

/-- The conversions that go through `emit`, with `num[128]`. -/
def emitArg (base width : ℕ) (signedP : Bool) :
    List Arg → Except PrintkStop ((ℕ → UInt8) × List Arg)
  | .int v :: args => do
    let num ← emit base 128 v width signedP
    return (cstr num, args)
  | _ => .error .noArg

/-- The `switch` of `va_printk`: the string to copy. -/
def convert (spec : UInt8) (width : ℕ) (args : List Arg) :
    Except PrintkStop ((ℕ → UInt8) × List Arg) :=
  if spec = 'f'.toUInt8 then .error (.panic "float not enabled!!!")
  else if spec = 'd'.toUInt8 ∨ spec = 'i'.toUInt8 then emitArg 10 width true args
  else if spec = 'u'.toUInt8 then emitArg 10 width false args
  else if spec = 'p'.toUInt8 ∨ spec = 'x'.toUInt8 then emitArg 16 width false args
  else if spec = 'b'.toUInt8 then emitArg 2 width false args
  else if spec = 's'.toUInt8 then
    match args with
    | .str s :: args => .ok (s, args)
    | _ => .error .noArg
  else if spec = 'c'.toUInt8 then emitArg 8 width false args
  else .error (.panic "printk: not handling specifier '%c'\n")

/-- `for(; p < e && *s; ) *p++ = *s++` with room for `e - p` bytes. -/
def copyString (s : ℕ → UInt8) : ℕ → ℕ → Cursor → Cursor
  | 0, _, w => w
  | room + 1, i, w => if s i = 0 then w else copyString s room (i + 1) (w.put (s i))

/-- The loop over the format, a string without its NUL. -/
def printkLoop (e : ℕ) : ℕ → List UInt8 → List Arg → Cursor → Except PrintkStop Cursor
  | 0, _, _, _ => .error .diverge
  | _ + 1, [], _, w => .ok w
  | fuel + 1, c :: fmt, args, w =>
    if ¬ w.p < e then .ok w
    else if c ≠ '%'.toUInt8 then printkLoop e fuel fmt args (w.put c)
    else if fmt.head? = some '%'.toUInt8 then printkLoop e fuel fmt.tail args (w.put c)
    else
      let (width, fmt) := parseWidth 0 fmt
      if ¬ width.toNat < 32 then .error (.panic "width < 32")
      else do
        let (s, args) ← convert (fmt.headD 0) width.toNat args
        printkLoop e fuel fmt.tail args (copyString s (e - w.p) 0 w)

/-- The number of bytes and what `buf` holds then. Each turn of the loop takes something off
the format. -/
def vaPrintk (buf : ℕ → UInt8) (n : ℕ) (fmt : List UInt8) (args : List Arg) :
    Except PrintkStop (ℕ × (ℕ → UInt8)) := do
  let w ← printkLoop (n - 1) (fmt.length + 1) fmt args ⟨Function.update buf 0 0, 0⟩
  let w := w.put 0
  return (w.p, w.buf)

section Digits

/-- The shortest numeral. -/
def numeral (base u : ℕ) : List UInt8 := (Nat.toDigits base u).map Char.toUInt8

theorem numeral_eq {base : ℕ} (hbase : 1 < base) (u : ℕ) : numeral base u =
    if u < base then [u.digitChar.toUInt8]
    else numeral base (u / base) ++ [(u % base).digitChar.toUInt8] := by
  unfold numeral
  rw [Nat.toDigits_eq_if hbase]
  split_ifs with h
  · rfl
  · rw [List.map_append, List.map_singleton]

/-- The string has the digits in their places. -/
def DigitTable (digits : String) (base : ℕ) : Prop :=
  ∀ d < base, digits.toList.getD d '0' = d.digitChar

instance (digits : String) (base : ℕ) : Decidable (DigitTable digits base) :=
  inferInstanceAs (Decidable (∀ d < base, _))

theorem digitTable_decimal : DigitTable "0123456789" 10 := by decide
theorem digitTable_hex : DigitTable "0123456789abcdef" 16 := by decide
theorem digitTable_binary : DigitTable "01" 2 := by decide

/-- One digit less. -/
theorem div_lt_pow {base k u : ℕ} (hbase : 1 < base) (hu : u < base ^ (k + 1)) (hle : base ≤ u) :
    u / base ≠ 0 ∧ u / base < base ^ k ∧ 0 < k := by
  have hpos := Nat.div_pos hle (by omega)
  have hlt : u / base < base ^ k := by
    rw [Nat.div_lt_iff_lt_mul (by omega), ← Nat.pow_succ]
    exact hu
  refine ⟨by omega, hlt, ?_⟩
  by_contra h0
  rw [Nat.eq_zero_of_not_pos h0, Nat.pow_zero] at hlt
  omega

/-- The loop produces the numeral backwards. -/
theorem emitDigits_eq {digits : String} {base : ℕ} (hdigits : DigitTable digits base)
    (hbase : 1 < base) {turns u : ℕ} (hu : u < base ^ turns) (hturns : 0 < turns) :
    emitDigits digits base turns u = (numeral base u).reverse := by
  induction turns generalizing u with
  | zero => exact absurd hturns (Nat.lt_irrefl 0)
  | succ turns ih =>
    have hmod : u % base < base := Nat.mod_lt u (by omega)
    unfold emitDigits
    rw [hdigits _ hmod, numeral_eq hbase]
    by_cases hlt : u < base
    · rw [if_neg (by simp [Nat.div_eq_of_lt hlt]), if_pos hlt, Nat.mod_eq_of_lt hlt]
      rfl
    · obtain ⟨hdiv, hnext, hpos⟩ := div_lt_pow hbase hu (not_lt.mp hlt)
      rw [if_pos hdiv, if_neg hlt, ih hnext hpos, List.reverse_append]
      rfl

theorem numeral_length {base : ℕ} (hbase : 1 < base) {k u : ℕ} (hu : u < base ^ k) (hk : 0 < k) :
    (numeral base u).length ≤ k := by
  induction k generalizing u with
  | zero => omega
  | succ k ih =>
    rw [numeral_eq hbase]
    split_ifs with hlt
    · simp
    · obtain ⟨-, hnext, hpos⟩ := div_lt_pow hbase hu (not_lt.mp hlt)
      have hrest := ih hnext hpos
      rw [List.length_append, List.length_singleton]
      omega

theorem digitChar_ne_zero {d : ℕ} (hd : d < 16) : d.digitChar.toUInt8 ≠ 0 := by
  have hall : ∀ d < 16, d.digitChar.toUInt8 ≠ 0 := by decide
  exact hall d hd

theorem zero_not_mem_numeral {base : ℕ} (hbase : 1 < base) (hle : base ≤ 16) (u : ℕ) :
    (0 : UInt8) ∉ numeral base u := by
  induction u using Nat.strongRecOn with
  | ind u ih =>
    rw [numeral_eq hbase]
    split_ifs with hlt
    · rw [List.mem_singleton]
      exact (digitChar_ne_zero (by omega)).symm
    · have hmod := Nat.mod_lt u (by omega : 0 < base)
      rw [List.mem_append, List.mem_singleton, not_or]
      exact ⟨ih _ (Nat.div_lt_self (by omega) hbase), (digitChar_ne_zero (by omega)).symm⟩

end Digits

section Emit

/-- Padded with blanks on the left. -/
def padLeft (width : ℕ) (bs : List UInt8) : List UInt8 :=
  List.replicate (width - bs.length) ' '.toUInt8 ++ bs

theorem zero_not_mem_padLeft {width : ℕ} {bs : List UInt8} (h : (0 : UInt8) ∉ bs) :
    (0 : UInt8) ∉ padLeft width bs := by
  rw [padLeft, List.mem_append, not_or]
  refine ⟨?_, h⟩
  intro hmem
  exact absurd (List.eq_of_mem_replicate hmem) (by decide)

/-- What goes into the array backwards and fits comes out padded. -/
theorem reverse_pad {n width : ℕ} {bs : List UInt8} (hbs : bs.length < n) (hwidth : width < n) :
    reverse n (pad bs.reverse width) = padLeft width bs := by
  have hlen : ¬ (pad bs.reverse width).length + 1 > n := by
    unfold pad
    rw [List.length_append, List.length_reverse, List.length_replicate]
    omega
  unfold reverse
  dsimp only
  rw [if_neg hlen, List.drop_zero, pad, List.reverse_append, List.reverse_replicate,
    List.reverse_reverse, List.length_reverse]
  rfl

theorem emit_eq {base width : ℕ} {val : BitVec 32} {signedP : Bool} {bs : List UInt8}
    (hbuf : emitReversed base val signedP = .ok bs.reverse) (hbs : bs.length < 128)
    (hwidth : width < 32) : emit base 128 val width signedP = .ok (padLeft width bs) := by
  unfold emit
  dsimp only
  rw [if_neg (by omega), hbuf]
  change Except.ok (reverse 128 (pad bs.reverse width)) = _
  rw [reverse_pad hbs (by omega)]

inductive NumConv where
  | d | i | u | x | b
  deriving DecidableEq

def NumConv.spec : NumConv → UInt8
  | d => 'd'.toUInt8
  | i => 'i'.toUInt8
  | u => 'u'.toUInt8
  | x => 'x'.toUInt8
  | b => 'b'.toUInt8

/-- The text of a word under a conversion, without padding. -/
def NumConv.digits : NumConv → BitVec 32 → List UInt8
  | d, v | i, v =>
    if v.toInt < 0 then '-'.toUInt8 :: numeral 10 v.toInt.natAbs else numeral 10 v.toNat
  | u, v => numeral 10 v.toNat
  | x, v => numeral 16 v.toNat
  | b, v => numeral 2 v.toNat

def NumConv.base : NumConv → ℕ
  | d | i | u => 10
  | x => 16
  | b => 2

def NumConv.signed : NumConv → Bool
  | d | i => true
  | _ => false

theorem emitDigits_word {digits : String} {base : ℕ} (hdigits : DigitTable digits base)
    (hbase : 1 < base) (v : BitVec 32) :
    emitDigits digits base 32 v.toNat = (numeral base v.toNat).reverse :=
  emitDigits_eq hdigits hbase (v.isLt.trans_le (Nat.pow_le_pow_left hbase 32)) (by omega)

/-- `-val` is the absolute value, also of INT_MIN. -/
theorem toNat_neg_word {v : BitVec 32} (h : v.toInt < 0) : (-v).toNat = v.toInt.natAbs := by
  have hlt := v.isLt
  rw [BitVec.toInt_eq_toNat_cond] at h ⊢
  rw [BitVec.toNat_neg]
  split_ifs at h ⊢ <;> omega

theorem emitReversed_eq (c : NumConv) (v : BitVec 32) :
    emitReversed c.base v c.signed = .ok (c.digits v).reverse := by
  have hdec := emitDigits_word digitTable_decimal (by omega) v
  have hsigned : emitReversed 10 v true = .ok
      (if v.toInt < 0 then '-'.toUInt8 :: numeral 10 v.toInt.natAbs
        else numeral 10 v.toNat).reverse := by
    unfold emitReversed
    rw [if_pos rfl]
    by_cases hneg : v.toInt < 0
    · rw [if_pos ⟨hneg, rfl⟩, if_pos hneg, emitDigits_word digitTable_decimal (by omega),
        toNat_neg_word hneg, List.reverse_cons]
    · rw [if_neg fun h => hneg h.1, if_neg hneg, hdec]
  cases c with
  | d => exact hsigned
  | i => exact hsigned
  | u =>
    change emitReversed 10 v false = _
    unfold emitReversed
    rw [if_pos rfl, if_neg fun h => (by cases h.2), hdec]
    rfl
  | x =>
    change Except.ok (emitDigits "0123456789abcdef" 16 32 v.toNat) = _
    rw [emitDigits_word digitTable_hex (by omega)]
    rfl
  | b =>
    change Except.ok (emitDigits "01" 2 32 v.toNat) = _
    rw [emitDigits_word digitTable_binary (by omega)]
    rfl

theorem numeral_word_length {base : ℕ} (hbase : 1 < base) {u : ℕ} (hu : u < 2 ^ 32) :
    (numeral base u).length ≤ 32 :=
  numeral_length hbase (hu.trans_le (Nat.pow_le_pow_left hbase 32)) (by omega)

theorem natAbs_word_lt (v : BitVec 32) : v.toInt.natAbs < 2 ^ 32 := by
  have hlt := v.isLt
  rw [BitVec.toInt_eq_toNat_cond]
  split_ifs <;> omega

theorem digits_length (c : NumConv) (v : BitVec 32) : (c.digits v).length ≤ 33 := by
  have hsigned : (if v.toInt < 0 then '-'.toUInt8 :: numeral 10 v.toInt.natAbs
      else numeral 10 v.toNat).length ≤ 33 := by
    split_ifs
    · exact Nat.succ_le_succ (numeral_word_length (by omega) (natAbs_word_lt v))
    · exact (numeral_word_length (by omega) v.isLt).trans (by omega)
  cases c with
  | d => exact hsigned
  | i => exact hsigned
  | u => exact (numeral_word_length (by omega) v.isLt).trans (by omega)
  | x => exact (numeral_word_length (by omega) v.isLt).trans (by omega)
  | b => exact (numeral_word_length (by omega) v.isLt).trans (by omega)

theorem zero_not_mem_digits (c : NumConv) (v : BitVec 32) : (0 : UInt8) ∉ c.digits v := by
  have hsigned : (0 : UInt8) ∉ (if v.toInt < 0 then '-'.toUInt8 :: numeral 10 v.toInt.natAbs
      else numeral 10 v.toNat) := by
    split_ifs
    · rw [List.mem_cons, not_or]
      exact ⟨by decide, zero_not_mem_numeral (by omega) (by omega) _⟩
    · exact zero_not_mem_numeral (by omega) (by omega) _
  cases c with
  | d => exact hsigned
  | i => exact hsigned
  | u => exact zero_not_mem_numeral (by omega) (by omega) _
  | x => exact zero_not_mem_numeral (by omega) (by omega) _
  | b => exact zero_not_mem_numeral (by omega) (by omega) _

/-- `buf[64]` of `emit` and `num[128]` have room for any number. -/
theorem num_fits (c : NumConv) (v : BitVec 32) {width : ℕ} (hwidth : width < 32) :
    (pad (c.digits v).reverse width).length < 64 ∧
      (padLeft width (c.digits v)).length < 128 := by
  have hlen := digits_length c v
  unfold pad padLeft
  simp only [List.length_append, List.length_replicate, List.length_reverse]
  omega

end Emit

section Format

/-- Memory with a string in it; what lies behind the NUL is anything. -/
structure CString where
  mem : ℕ → UInt8
  len : ℕ
  ne_zero : ∀ i < len, mem i ≠ 0
  terminated : mem len = 0

def CString.chars (s : CString) : List UInt8 := (List.range s.len).map s.mem

def widthValue (digits : List UInt8) : ℕ := digits.foldl (fun w c => w * 10 + (c.toNat - 48)) 0

/-- A decimal width as a format has it: no digits stand for none. -/
structure Width where
  digits : List UInt8
  isdigit : ∀ c ∈ digits, isdigit c
  lt : widthValue digits < 32

/-- A piece of a format with the argument that belongs to it. -/
inductive Item where
  | lit (c : UInt8) (hc : c ≠ 0 ∧ c ≠ '%'.toUInt8)
  | percent
  | num (width : Width) (conv : NumConv) (val : BitVec 32)
  | str (width : Width) (s : CString)
  | char (width : Width) (val : BitVec 32) (hval : UInt8.ofBitVec (val.setWidth 8) ≠ 0)

def Item.text : Item → List UInt8
  | lit c _ => [c]
  | percent => ['%'.toUInt8, '%'.toUInt8]
  | num width conv _ => '%'.toUInt8 :: (width.digits ++ [conv.spec])
  | str width _ => '%'.toUInt8 :: (width.digits ++ ['s'.toUInt8])
  | char width _ _ => '%'.toUInt8 :: (width.digits ++ ['c'.toUInt8])

def Item.args : Item → List Arg
  | lit _ _ | percent => []
  | num _ _ val | char _ val _ => [.int val]
  | str _ s => [.str s.mem]

/-- What the piece stands for: numbers and characters are padded, strings copied whole. -/
def Item.expand : Item → List UInt8
  | lit c _ => [c]
  | percent => ['%'.toUInt8]
  | num width conv val => padLeft (widthValue width.digits) (conv.digits val)
  | str _ s => s.chars
  | char width val _ => padLeft (widthValue width.digits) [UInt8.ofBitVec (val.setWidth 8)]

def formatText (items : List Item) : List UInt8 := items.flatMap Item.text
def formatArgs (items : List Item) : List Arg := items.flatMap Item.args

/-- The full expansion. -/
def expansion (items : List Item) : List UInt8 := items.flatMap Item.expand

/-- Bytes one after the other. -/
def Cursor.puts (w : Cursor) (bs : List UInt8) : Cursor := bs.foldl Cursor.put w

@[simp] theorem puts_nil (w : Cursor) : w.puts [] = w := rfl

@[simp] theorem puts_cons (w : Cursor) (c : UInt8) (bs : List UInt8) :
    w.puts (c :: bs) = (w.put c).puts bs := rfl

theorem puts_append (w : Cursor) (bs cs : List UInt8) :
    w.puts (bs ++ cs) = (w.puts bs).puts cs := List.foldl_append

@[simp] theorem put_p (w : Cursor) (c : UInt8) : (w.put c).p = w.p + 1 := rfl

@[simp] theorem puts_p (w : Cursor) (bs : List UInt8) : (w.puts bs).p = w.p + bs.length := by
  induction bs generalizing w with
  | nil => rfl
  | cons c bs ih =>
    rw [puts_cons, ih, put_p, List.length_cons]
    omega

theorem puts_buf (w : Cursor) (bs : List UInt8) (i : ℕ) :
    (w.puts bs).buf i = if i < w.p then w.buf i else bs.getD (i - w.p) (w.buf i) := by
  induction bs generalizing w with
  | nil => simp
  | cons c bs ih =>
    have hput : (w.put c).buf i = if i = w.p then c else w.buf i := Function.update_apply _ _ _ _
    rw [puts_cons, ih, put_p, hput]
    rcases lt_trichotomy i w.p with hlt | rfl | hgt
    · have hnext : i < w.p + 1 := by omega
      rw [if_pos hnext, if_neg hlt.ne, if_pos hlt]
    · rw [if_pos (Nat.lt_succ_self _), if_pos rfl, if_neg (lt_irrefl _), Nat.sub_self]
      rfl
    · obtain ⟨d, hd⟩ : ∃ d, i - w.p = d + 1 := ⟨i - w.p - 1, by omega⟩
      have hd' : i - (w.p + 1) = d := by omega
      have hnext : ¬ i < w.p + 1 := by omega
      rw [if_neg hnext, if_neg hgt.not_gt, if_neg hgt.ne', hd, hd', List.getD_cons_succ]

/-- As much of a list as there is room for, in two parts. -/
theorem puts_take_append (w : Cursor) (e : ℕ) (bs cs : List UInt8) :
    (w.puts (bs.take (e - w.p))).puts (cs.take (e - (w.puts (bs.take (e - w.p))).p)) =
      w.puts ((bs ++ cs).take (e - w.p)) := by
  rw [List.take_append, puts_append, puts_p, List.length_take]
  congr 2
  omega

theorem copyString_eq {s : ℕ → UInt8} {bs : List UInt8} (room : ℕ) {i : ℕ} (w : Cursor)
    (hs : ∀ j b, bs[j]? = some b → s (i + j) = b) (hend : s (i + bs.length) = 0)
    (hne : (0 : UInt8) ∉ bs) : copyString s room i w = w.puts (bs.take room) := by
  induction bs generalizing room i w with
  | nil =>
    cases room with
    | zero => rfl
    | succ room =>
      have hzero : s i = 0 := hend
      unfold copyString
      rw [if_pos hzero]
      rfl
  | cons b bs ih =>
    obtain ⟨hb, hrest⟩ := not_or.mp (List.mem_cons.not.mp hne)
    have hfirst : s i = b := hs 0 b rfl
    cases room with
    | zero => rfl
    | succ room =>
      unfold copyString
      rw [hfirst, if_neg (Ne.symm hb), List.take_succ_cons, puts_cons]
      apply ih
      · intro j c hc
        rw [Nat.add_assoc, Nat.add_comm 1]
        exact hs (j + 1) c hc
      · rw [Nat.add_assoc, Nat.add_comm 1]
        exact hend
      · exact hrest

theorem copyString_cstr {bs : List UInt8} (room : ℕ) (w : Cursor) (hne : (0 : UInt8) ∉ bs) :
    copyString (cstr bs) room 0 w = w.puts (bs.take room) := by
  apply copyString_eq room w _ _ hne
  · intro j b hb
    rw [cstr, Nat.zero_add, List.getD_eq_getElem?_getD, hb]
    rfl
  · rw [cstr, Nat.zero_add, List.getD_eq_getElem?_getD, List.getElem?_eq_none le_rfl]
    rfl

theorem CString.zero_not_mem (s : CString) : (0 : UInt8) ∉ s.chars := by
  intro hmem
  obtain ⟨i, hi, hzero⟩ := List.mem_map.mp hmem
  exact s.ne_zero i (List.mem_range.mp hi) hzero

theorem copyString_chars (s : CString) (room : ℕ) (w : Cursor) :
    copyString s.mem room 0 w = w.puts (s.chars.take room) := by
  apply copyString_eq room w _ _ s.zero_not_mem
  · intro j b hb
    unfold CString.chars at hb
    rw [List.getElem?_map] at hb
    obtain ⟨k, hk, rfl⟩ := Option.map_eq_some_iff.mp hb
    obtain ⟨hj, rfl⟩ := List.getElem?_eq_some_iff.mp hk
    rw [Nat.zero_add, List.getElem_range]
  · rw [Nat.zero_add, CString.chars, List.length_map, List.length_range]
    exact s.terminated

theorem parseWidth_eq {digits : List UInt8} (hdigits : ∀ c ∈ digits, isdigit c) {c : UInt8}
    (hc : ¬ isdigit c) (rest : List UInt8) (w : ℕ) :
    parseWidth (BitVec.ofNat 32 w) (digits ++ c :: rest) =
      (BitVec.ofNat 32 (digits.foldl (fun w c => w * 10 + (c.toNat - 48)) w), c :: rest) := by
  induction digits generalizing w with
  | nil => exact if_neg hc
  | cons d digits ih =>
    have hd := hdigits d List.mem_cons_self
    have hge : 48 ≤ d.toNat := UInt8.le_iff_toNat_le.mp hd.1
    have hlt : d.toNat < 2 ^ 8 := d.toNat_lt
    have hten : (10 : BitVec 32).toNat = 10 := rfl
    have hzero : (48 : BitVec 32).toNat = 48 := rfl
    have hnext : BitVec.ofNat 32 w * 10 + d.toBitVec.setWidth 32 - 48 =
        BitVec.ofNat 32 (w * 10 + (d.toNat - 48)) := by
      apply BitVec.eq_of_toNat_eq
      simp only [BitVec.toNat_sub, BitVec.toNat_add, BitVec.toNat_mul, BitVec.toNat_ofNat,
        BitVec.toNat_setWidth, UInt8.toNat_toBitVec, hten, hzero]
      omega
    rw [List.cons_append, parseWidth, if_pos hd, hnext, List.foldl_cons]
    exact ih (fun c hc => hdigits c (List.mem_cons_of_mem _ hc)) _

section Turn
variable {e fuel : ℕ} {w : Cursor} {fmt : List UInt8} {args rest : List Arg}

/-- A turn of the loop on a conversion. -/
theorem printkLoop_convert {width : Width} {spec : UInt8} {s : ℕ → UInt8} {bs : List UInt8}
    (hw : w.p < e) (hspec : ¬ isdigit spec ∧ spec ≠ '%'.toUInt8)
    (hconv : convert spec (widthValue width.digits) args = .ok (s, rest))
    (hcopy : ∀ room, copyString s room 0 w = w.puts (bs.take room)) :
    printkLoop e (fuel + 1) ('%'.toUInt8 :: (width.digits ++ [spec]) ++ fmt) args w =
      printkLoop e fuel fmt rest (w.puts (bs.take (e - w.p))) := by
  have hfmt : width.digits ++ [spec] ++ fmt = width.digits ++ spec :: fmt := by
    rw [List.append_assoc, List.singleton_append]
  have hhead : (width.digits ++ spec :: fmt).head? ≠ some '%'.toUInt8 := by
    cases hdigits : width.digits with
    | nil => simpa using hspec.2
    | cons d digits =>
      have hd := width.isdigit d (by rw [hdigits]; exact List.mem_cons_self)
      intro heq
      rw [Option.some.inj heq] at hd
      exact absurd hd (by decide)
  have hparse : parseWidth 0 (width.digits ++ spec :: fmt) =
      (BitVec.ofNat 32 (widthValue width.digits), spec :: fmt) :=
    parseWidth_eq width.isdigit hspec.1 fmt 0
  have hvalue : (BitVec.ofNat 32 (widthValue width.digits)).toNat = widthValue width.digits :=
    Nat.mod_eq_of_lt (width.lt.trans (by omega))
  rw [List.cons_append, hfmt, printkLoop, if_neg (not_not_intro hw), if_neg (not_not_intro rfl),
    if_neg hhead, hparse]
  dsimp only [List.headD_cons, List.tail_cons]
  rw [hvalue, if_neg (not_not_intro width.lt), hconv]
  change printkLoop e fuel fmt rest (copyString s (e - w.p) 0 w) = _
  rw [hcopy]

theorem convert_num {width : ℕ} (hwidth : width < 32) (conv : NumConv) (val : BitVec 32) :
    convert conv.spec width (.int val :: args) =
      .ok (cstr (padLeft width (conv.digits val)), args) := by
  have hemit := emit_eq (emitReversed_eq conv val) (by have := digits_length conv val; omega) hwidth
  have harg : convert conv.spec width (.int val :: args) =
      emitArg conv.base width conv.signed (.int val :: args) := by
    cases conv <;> rfl
  rw [harg, emitArg, hemit]
  rfl

theorem convert_char {width : ℕ} (hwidth : width < 32) (val : BitVec 32) :
    convert 'c'.toUInt8 width (.int val :: args) =
      .ok (cstr (padLeft width [UInt8.ofBitVec (val.setWidth 8)]), args) := by
  have hemit : emit 8 128 val width false =
      .ok (padLeft width [UInt8.ofBitVec (val.setWidth 8)]) :=
    emit_eq rfl (by rw [List.length_singleton]; omega) hwidth
  have harg : convert 'c'.toUInt8 width (.int val :: args) =
      emitArg 8 width false (.int val :: args) := rfl
  rw [harg, emitArg, hemit]
  rfl

theorem printkLoop_item (hw : w.p < e) (item : Item) :
    printkLoop e (fuel + 1) (item.text ++ fmt) (item.args ++ args) w =
      printkLoop e fuel fmt args (w.puts (item.expand.take (e - w.p))) := by
  obtain ⟨room, hroom⟩ : ∃ room, e - w.p = room + 1 := ⟨e - w.p - 1, by omega⟩
  cases item with
  | lit c hc =>
    change printkLoop e (fuel + 1) (c :: fmt) args w = _
    rw [printkLoop, if_neg (not_not_intro hw), if_pos hc.2, hroom, Item.expand,
      List.take_succ_cons, List.take_nil]
    rfl
  | percent =>
    change printkLoop e (fuel + 1) ('%'.toUInt8 :: '%'.toUInt8 :: fmt) args w = _
    have hhead : ('%'.toUInt8 :: fmt).head? = some '%'.toUInt8 := rfl
    rw [printkLoop, if_neg (not_not_intro hw), if_neg (not_not_intro rfl), if_pos hhead, hroom,
      Item.expand, List.take_succ_cons, List.take_nil]
    rfl
  | num width conv val =>
    have hspec : ¬ isdigit conv.spec ∧ conv.spec ≠ '%'.toUInt8 := by
      cases conv <;> decide
    exact printkLoop_convert hw hspec (convert_num width.lt conv val) fun room =>
      copyString_cstr room w (zero_not_mem_padLeft (zero_not_mem_digits conv val))
  | str width s =>
    exact printkLoop_convert hw (by decide) rfl fun room => copyString_chars s room w
  | char width val hval =>
    refine printkLoop_convert hw (by decide) (convert_char width.lt val) fun room =>
      copyString_cstr room w (zero_not_mem_padLeft ?_)
    rw [List.mem_singleton]
    exact hval.symm

theorem text_ne_nil (item : Item) : item.text ≠ [] := by
  cases item <;> exact List.cons_ne_nil _ _

/-- The run: item by item, until there is no room. -/
theorem printkLoop_items (items : List Item) (hfuel : (formatText items).length < fuel) :
    printkLoop e fuel (formatText items) (formatArgs items) w =
      .ok (w.puts ((expansion items).take (e - w.p))) := by
  induction items generalizing fuel w with
  | nil =>
    obtain ⟨fuel, rfl⟩ : ∃ f, fuel = f + 1 := ⟨fuel - 1, by omega⟩
    rw [expansion, List.flatMap_nil, List.take_nil]
    rfl
  | cons item items ih =>
    have htext : formatText (item :: items) = item.text ++ formatText items := rfl
    have hargs : formatArgs (item :: items) = item.args ++ formatArgs items := rfl
    have hexpand : expansion (item :: items) = item.expand ++ expansion items := rfl
    obtain ⟨fuel, rfl⟩ : ∃ f, fuel = f + 1 := ⟨fuel - 1, by omega⟩
    by_cases hw : w.p < e
    · have hitem := List.length_pos_iff.mpr (text_ne_nil item)
      rw [htext, List.length_append] at hfuel
      rw [htext, hargs, hexpand, printkLoop_item hw, ih (by omega), puts_take_append]
    · obtain ⟨c, text, htext'⟩ := List.exists_cons_of_ne_nil (text_ne_nil item)
      have hroom : e - w.p = 0 := by omega
      rw [htext, htext', List.cons_append, printkLoop, if_pos hw, hroom]
      rfl

end Turn

/-- The buffer: as much of the full expansion as there is room for, a NUL, and what it held. -/
theorem vaPrintk_eq (n : ℕ) (items : List Item) (buf : ℕ → UInt8) :
    vaPrintk buf n (formatText items) (formatArgs items) =
      .ok (min (n - 1) (expansion items).length + 1, fun i =>
        if i = min (n - 1) (expansion items).length then 0
        else ((expansion items).take (n - 1)).getD i (Function.update buf 0 0 i)) := by
  let w : Cursor := ⟨Function.update buf 0 0, 0⟩
  let printed := w.puts ((expansion items).take (n - 1))
  have hp : printed.p = min (n - 1) (expansion items).length := by
    change (w.puts _).p = _
    rw [puts_p, List.length_take]
    exact Nat.zero_add _
  have hbuf : ∀ i, printed.buf i =
      ((expansion items).take (n - 1)).getD i (Function.update buf 0 0 i) := by
    intro i
    exact (puts_buf w _ i).trans (if_neg (Nat.not_lt_zero i))
  have hout : (printed.put 0).buf = fun i => if i = min (n - 1) (expansion items).length then 0
      else ((expansion items).take (n - 1)).getD i (Function.update buf 0 0 i) := by
    funext i
    rw [← hp, ← hbuf]
    exact Function.update_apply _ _ _ _
  unfold vaPrintk
  rw [printkLoop_items items (Nat.lt_succ_self _)]
  change Except.ok (printed.p + 1, (printed.put 0).buf) = _
  rw [hp, hout]

/-- What is printed is the full expansion up to the size of the buffer, and a NUL. -/
theorem vaPrintk_truncates (n : ℕ) (hn : 1 ≤ n) (items : List Item) (buf : ℕ → UInt8) :
    ∃ out, vaPrintk buf n (formatText items) (formatArgs items) =
        .ok (min (n - 1) (expansion items).length + 1, out) ∧
      (List.range (min (n - 1) (expansion items).length)).map out =
        (expansion items).take (n - 1) ∧
      out (min (n - 1) (expansion items).length) = 0 ∧
      ∀ i, n ≤ i → out i = buf i := by
  refine ⟨_, vaPrintk_eq n items buf, ?_, if_pos rfl, ?_⟩
  · apply List.ext_getElem
    · simp
    · intro i hi hi'
      have hlt : i < min (n - 1) (expansion items).length := by simpa using hi
      rw [List.getElem_map, List.getElem_range, if_neg (by omega), List.getD_eq_getElem?_getD,
        List.getElem?_eq_getElem hi']
      rfl
  · intro i hi
    have hlen : ((expansion items).take (n - 1)).length ≤ i := by
      rw [List.length_take]
      omega
    have hne : i ≠ 0 := by omega
    rw [if_neg (by omega), List.getD_eq_getElem?_getD, List.getElem?_eq_none hlen,
      Function.update_of_ne hne]
    rfl

/-- A width of five. -/
def Width.five : Width := ⟨['5'.toUInt8], List.forall_mem_singleton.mpr (by decide), by decide⟩

/-- INT_MIN is cut off in the middle. -/
theorem vaPrintk_truncates_min : ∃ out, vaPrintk (fun _ => 0) 8
      (formatText [.percent, .num .five .d (BitVec.intMin 32)])
      (formatArgs [.percent, .num .five .d (BitVec.intMin 32)]) =
        .ok (min (8 - 1) (expansion [.percent, .num .five .d (BitVec.intMin 32)]).length + 1, out) ∧
      (List.range (min (8 - 1) (expansion [.percent, .num .five .d (BitVec.intMin 32)]).length)).map
        out = (expansion [.percent, .num .five .d (BitVec.intMin 32)]).take (8 - 1) ∧
      out (min (8 - 1) (expansion [.percent, .num .five .d (BitVec.intMin 32)]).length) = 0 ∧
      ∀ i, 8 ≤ i → out i = 0 :=
  vaPrintk_truncates 8 (by decide) _ _

example : expansion [.percent, .num .five .d (BitVec.intMin 32)] =
    "%-2147483648".toList.map Char.toUInt8 := by decide

end Format

end SimplePiOS.Libpi
