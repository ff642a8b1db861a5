import Mathlib.Tactic.IntervalCases
import SimplePiOS.Kernel.LongNames

/-! disk/unicode-utf8.c in both directions: the bytes of code points, one after the other, tell
where each begins and which one it is. -/
namespace SimplePiOS.Kernel

/-- The position of the first kind of byte that `ch` is; position 0 is the bytes that continue
a code point. As in `codepoint_len` the loop reads on behind the table if there is none. -/
def utf8Len (ch : UInt8) : Option ℕ :=
  utf.findIdx? fun u => ch &&& ~~~(UInt8.ofNat u.mask) = UInt8.ofNat u.lead

/-- The loop of `to_cp`, with `k` bytes to come and `codep` shifted to its place already. -/
def toCpLoop (chr : ℕ → UInt8) : (k i codep : ℕ) → ℕ
  | 0, _, codep => codep
  | k + 1, i, codep => toCpLoop chr k (i + 1) (codep ||| ((chr i).toNat &&& 0x3f) <<< (6 * k))

/-- From a continuing byte `to_cp` shifts by a negative count, about which C says nothing. -/
def toCp (chr : ℕ → UInt8) : Option ℕ :=
  match utf8Len (chr 0) with
  | some (k + 1) =>
    let u := utf.getD (k + 1) ⟨0, 0, 0, 0, 0⟩
    some (toCpLoop chr k 1 (((chr 0).toNat &&& u.mask) <<< (6 * k)))
  | _ => none

/-- A byte that continues a code point. -/
def IsTail (b : UInt8) : Prop := 0x80 ≤ b.toNat ∧ b.toNat < 0xC0

theorem utf8Len_eq : ∀ b : UInt8, utf8Len b =
    if b.toNat < 0x80 then some 1 else if b.toNat < 0xC0 then some 0
    else if b.toNat < 0xE0 then some 2 else if b.toNat < 0xF0 then some 3
    else if b.toNat < 0xF8 then some 4 else none := by
  intro b
  have h : ∀ n : Fin 256, utf8Len (UInt8.ofNat n) =
      if n.val < 0x80 then some 1 else if n.val < 0xC0 then some 0
      else if n.val < 0xE0 then some 2 else if n.val < 0xF0 then some 3
      else if n.val < 0xF8 then some 4 else none := by
    decide +kernel
  have hb := h ⟨b.toNat, b.toNat_lt⟩
  rwa [UInt8.ofNat_toNat] at hb

section Loop

/-- The six bits of a byte that continues a code point. -/
def tailBits (b : UInt8) : ℕ := b.toNat % 64

/-- The code point that `a` at its front and `k` bytes make together. -/
def joined (chr : ℕ → UInt8) : (k i a : ℕ) → ℕ
  | 0, _, a => a
  | k + 1, i, a => joined chr k (i + 1) (a * 64 + tailBits (chr i))

theorem tailBits_lt (b : UInt8) : tailBits b < 64 := Nat.mod_lt _ (by decide)

theorem toCpLoop_eq (chr : ℕ → UInt8) (k i a : ℕ) : toCpLoop chr k i (a <<< (6 * k)) = joined chr k i a := by
  induction k generalizing i a with
  | zero => simp [toCpLoop, joined]
  | succ k ih =>
    have hbits : (chr i).toNat &&& 0x3f = tailBits (chr i) := Nat.and_two_pow_sub_one_eq_mod _ 6
    have hor : a <<< (6 * (k + 1)) ||| tailBits (chr i) <<< (6 * k) = (a * 64 + tailBits (chr i)) <<< (6 * k) := by
      have hshift : a <<< (6 * (k + 1)) = (a <<< 6) <<< (6 * k) := by
        rw [← Nat.shiftLeft_add]
        congr 1
        omega
      have hlt : tailBits (chr i) < 2 ^ 6 := tailBits_lt _
      rw [hshift, ← Nat.shiftLeft_or_distrib, Nat.shiftLeft_eq a 6, Nat.mul_comm a,
        ← Nat.two_pow_add_eq_or_of_lt hlt, Nat.mul_comm]
    rw [toCpLoop, hbits, hor, ih, joined]

/-- A code point is its front and its parts of six bits. -/
theorem joined_eq {chr : ℕ → UInt8} {k i a cp : ℕ} (ha : cp / 64 ^ k = a)
    (h : ∀ j < k, tailBits (chr (i + j)) = cp / 64 ^ (k - 1 - j) % 64) : joined chr k i a = cp := by
  induction k generalizing i a with
  | zero => simpa [joined] using ha.symm
  | succ k ih =>
    rw [joined]
    apply ih
    · have hfirst := h 0 (by omega)
      rw [Nat.add_zero, Nat.sub_zero, Nat.add_sub_cancel] at hfirst
      rw [hfirst, ← ha, Nat.pow_succ, ← Nat.div_div_eq_div_mul]
      omega
    · intro j hj
      have hnext := h (j + 1) (by omega)
      have hsub : k + 1 - 1 - (j + 1) = k - 1 - j := by omega
      rwa [hsub, Nat.add_comm j, ← Nat.add_assoc] at hnext

theorem joined_div (chr : ℕ → UInt8) (k i a : ℕ) : joined chr k i a / 64 ^ k = a := by
  induction k generalizing i a with
  | zero => simp [joined]
  | succ k ih =>
    have hlt := tailBits_lt (chr i)
    rw [joined, Nat.pow_succ, ← Nat.div_div_eq_div_mul, ih]
    omega

theorem joined_bits (chr : ℕ → UInt8) {k j : ℕ} (i a : ℕ) (hj : j < k) :
    joined chr k i a / 64 ^ (k - 1 - j) % 64 = tailBits (chr (i + j)) := by
  induction k generalizing i a j with
  | zero => omega
  | succ k ih =>
    rw [joined]
    cases j with
    | zero =>
      have hlt := tailBits_lt (chr i)
      rw [Nat.add_sub_cancel, Nat.sub_zero, joined_div, Nat.add_zero]
      omega
    | succ j =>
      have hsub : k + 1 - 1 - (j + 1) = k - 1 - j := by omega
      rw [hsub, ih (i + 1) _ (by omega), Nat.add_assoc, Nat.add_comm 1]

end Loop

section Encode
variable {cp n : ℕ}

/-- The code points that `to_utf8` is for; 0 ends a string. -/
def IsCodepoint (cp : ℕ) : Prop := 0 < cp ∧ cp ≤ 0x10FFFF

/-- The row of the table for an encoding of `n + 1` bytes. -/
def utfRow (n : ℕ) : Utf := utf.getD (n + 1) ⟨0, 0, 0, 0, 0⟩

theorem utfRow_mask (hn : n ≤ 3) : (utfRow n).mask = 2 ^ (utfRow n).bitsStored - 1 := by
  interval_cases n <;> rfl

/-- The length of a code point's encoding is the position of its range. -/
theorem codepointLen_iff (h : IsCodepoint cp) (hn : n ≤ 3) :
    codepointLen cp = some (n + 1) ↔ (utfRow n).beg ≤ cp ∧ cp ≤ (utfRow n).end_ := by
  obtain ⟨hpos, hmax⟩ := h
  have h0 : ¬ cp ≤ 0 := by omega
  have hiff : codepointLen cp = some (if cp ≤ 0o177 then 1 else if cp ≤ 0o3777 then 2
      else if cp ≤ 0o177777 then 3 else 4) := by
    unfold codepointLen utf
    by_cases h1 : cp ≤ 0o177
    · simp [List.findIdx?_cons, h0, h1]
    · by_cases h2 : cp ≤ 0o3777
      · have hbeg : 0o200 ≤ cp := by omega
        simp [List.findIdx?_cons, h0, h1, h2, hbeg]
      · by_cases h3 : cp ≤ 0o177777
        · have hbeg : 0o4000 ≤ cp := by omega
          simp [List.findIdx?_cons, h0, h1, h2, h3, hbeg]
        · have hbeg : 0o200000 ≤ cp := by omega
          have hend : cp ≤ 0o4177777 := by omega
          simp [List.findIdx?_cons, h0, h1, h2, h3, hbeg, hend]
  rw [hiff, Option.some_inj]
  interval_cases n <;> simp [utfRow, utf] <;> split_ifs <;> omega

theorem exists_codepointLen (h : IsCodepoint cp) : ∃ n ≤ 3, codepointLen cp = some (n + 1) := by
  have hmax := h.2
  by_cases h1 : cp ≤ 0o177
  · exact ⟨0, by omega, (codepointLen_iff h (by omega)).mpr ⟨Nat.zero_le _, h1⟩⟩
  · by_cases h2 : cp ≤ 0o3777
    · exact ⟨1, by omega, (codepointLen_iff h (by omega)).mpr ⟨Nat.not_le.mp h1, h2⟩⟩
    · by_cases h3 : cp ≤ 0o177777
      · exact ⟨2, by omega, (codepointLen_iff h (by omega)).mpr ⟨Nat.not_le.mp h2, h3⟩⟩
      · exact ⟨3, by omega, (codepointLen_iff h (by omega)).mpr ⟨Nat.not_le.mp h3, hmax⟩⟩

/-- What is left for the first byte fits its bits. -/
theorem front_lt (hn : n ≤ 3) (h : cp ≤ (utfRow n).end_) : cp / 64 ^ n < 2 ^ (utfRow n).bitsStored := by
  interval_cases n <;> simp [utfRow, utf] at h ⊢ <;> omega

theorem shiftRight_six (x k : ℕ) : x >>> (6 * k) = x / 64 ^ k := by
  rw [Nat.shiftRight_eq_div_pow, Nat.pow_mul]

theorem exists_lead (hn : n ≤ 3) : ∃ m, (utfRow n).lead = 2 ^ (utfRow n).bitsStored * m := by
  interval_cases n
  · exact ⟨0, rfl⟩
  · exact ⟨6, rfl⟩
  · exact ⟨14, rfl⟩
  · exact ⟨30, rfl⟩

/-- The mask of a row takes its mark away again. -/
theorem lead_and_mask (hn : n ≤ 3) {x : ℕ} (hx : x < 2 ^ (utfRow n).bitsStored) :
    ((utfRow n).lead + x) &&& (utfRow n).mask = x := by
  obtain ⟨m, hm⟩ := exists_lead hn
  rw [utfRow_mask hn, Nat.and_two_pow_sub_one_eq_mod, hm, Nat.mul_add_mod, Nat.mod_eq_of_lt hx]

theorem utf8Byte_front (hn : n ≤ 3) (h : cp ≤ (utfRow n).end_) :
    (utf8Byte cp (n + 1) 0).toNat = (utfRow n).lead + cp / 64 ^ n := by
  have hlt := front_lt hn h
  have hor : cp / 64 ^ n &&& (utfRow n).mask ||| (utfRow n).lead = (utfRow n).lead + cp / 64 ^ n := by
    obtain ⟨m, hm⟩ := exists_lead hn
    rw [utfRow_mask hn, hm, mask_lead, Nat.mod_eq_of_lt hlt, Nat.add_comm]
  unfold utf8Byte
  simp only [if_true, Nat.add_sub_cancel, Nat.sub_zero, shiftRight_six]
  change (UInt8.ofNat (cp / 64 ^ n &&& (utfRow n).mask ||| (utfRow n).lead)).toNat = _
  rw [hor, UInt8.toNat_ofNat']
  apply Nat.mod_eq_of_lt
  interval_cases n <;> simp [utfRow, utf] at hlt ⊢ <;> omega

theorem utf8Byte_tail (cp n j : ℕ) : (utf8Byte cp (n + 1) (j + 1)).toNat = 0x80 + cp / 64 ^ (n - 1 - j) % 64 := by
  have hsub : n + 1 - 1 - (j + 1) = n - 1 - j := by omega
  have hlt : cp / 64 ^ (n - 1 - j) % 64 < 64 := Nat.mod_lt _ (by decide)
  have hor := mask_lead (cp / 64 ^ (n - 1 - j)) 6 2
  unfold utf8Byte
  simp only [if_neg (Nat.succ_ne_zero j), hsub, shiftRight_six]
  change (UInt8.ofNat (cp / 64 ^ (n - 1 - j) &&& (2 ^ 6 - 1) ||| 2 ^ 6 * 2)).toNat = _
  rw [hor, UInt8.toNat_ofNat']
  omega

/-- `n + 1` bytes that are an encoding of the code point, whatever comes behind them. -/
structure Spelled (chr : ℕ → UInt8) (n cp : ℕ) : Prop where
  lead : utf8Len (chr 0) = some (n + 1)
  front : (chr 0).toNat &&& (utfRow n).mask = cp / 64 ^ n
  tail : ∀ j < n, IsTail (chr (1 + j)) ∧ tailBits (chr (1 + j)) = cp / 64 ^ (n - 1 - j) % 64

theorem toCp_of_spelled {chr : ℕ → UInt8} (h : Spelled chr n cp) : toCp chr = some cp := by
  unfold toCp
  rw [h.lead]
  change some (toCpLoop chr n 1 (((chr 0).toNat &&& (utfRow n).mask) <<< (6 * n))) = _
  rw [toCpLoop_eq, joined_eq h.front.symm fun j hj => (h.tail j hj).2]

theorem utf8Len_front (hn : n ≤ 3) {b : UInt8} {x : ℕ} (hb : b.toNat = (utfRow n).lead + x)
    (hx : x < 2 ^ (utfRow n).bitsStored) : utf8Len b = some (n + 1) := by
  rw [utf8Len_eq, hb]
  interval_cases n
  · change x < 0x80 at hx
    change (if 0 + x < 0x80 then some 1 else _) = some 1
    rw [if_pos (by omega)]
  · change x < 0x20 at hx
    change (if 0xC0 + x < 0x80 then _ else if 0xC0 + x < 0xC0 then _ else
      if 0xC0 + x < 0xE0 then some 2 else _) = some 2
    rw [if_neg (by omega), if_neg (by omega), if_pos (by omega)]
  · change x < 0x10 at hx
    change (if 0xE0 + x < 0x80 then _ else if 0xE0 + x < 0xC0 then _ else
      if 0xE0 + x < 0xE0 then _ else if 0xE0 + x < 0xF0 then some 3 else _) = some 3
    rw [if_neg (by omega), if_neg (by omega), if_neg (by omega), if_pos (by omega)]
  · change x < 0x08 at hx
    change (if 0xF0 + x < 0x80 then _ else if 0xF0 + x < 0xC0 then _ else
      if 0xF0 + x < 0xE0 then _ else if 0xF0 + x < 0xF0 then _ else
      if 0xF0 + x < 0xF8 then some 4 else _) = some 4
    rw [if_neg (by omega), if_neg (by omega), if_neg (by omega), if_neg (by omega), if_pos (by omega)]

theorem utf8Of_len (hlen : codepointLen cp = some (n + 1)) :
    utf8Of cp = (List.range (n + 1)).map (utf8Byte cp (n + 1)) := by
  unfold utf8Of
  rw [toUtf8_of_len hlen]
  rfl

theorem length_utf8Of_succ (hlen : codepointLen cp = some (n + 1)) : (utf8Of cp).length = n + 1 := by
  simp [utf8Of_len hlen]

theorem spelled_utf8Of (h : IsCodepoint cp) (hn : n ≤ 3) (hlen : codepointLen cp = some (n + 1))
    {chr : ℕ → UInt8} (hchr : ∀ i < n + 1, chr i = (utf8Of cp).getD i 0) : Spelled chr n cp := by
  have hrange := (codepointLen_iff h hn).mp hlen
  have hlt := front_lt hn hrange.2
  have hbyte (i : ℕ) (hi : i < n + 1) : chr i = utf8Byte cp (n + 1) i := by
    rw [hchr i hi]
    simp [utf8Of_len hlen, hi]
  have hfront := utf8Byte_front hn hrange.2
  rw [← hbyte 0 (by omega)] at hfront
  refine ⟨utf8Len_front hn hfront hlt, ?_, fun j hj => ?_⟩
  · rw [hfront, lead_and_mask hn hlt]
  · have htail := utf8Byte_tail cp n j
    rw [← hbyte (j + 1) (by omega), Nat.add_comm j] at htail
    have hmod : cp / 64 ^ (n - 1 - j) % 64 < 64 := Nat.mod_lt _ (by decide)
    unfold IsTail tailBits
    omega

end Encode

section Shortest

theorem front_of_utf8Len {b : UInt8} {n : ℕ} (h : utf8Len b = some (n + 1)) :
    n ≤ 3 ∧ ∃ x < 2 ^ (utfRow n).bitsStored, b.toNat = (utfRow n).lead + x := by
  rw [utf8Len_eq] at h
  split_ifs at h with h1 h2 h3 h4 h5
  · obtain rfl : n = 0 := by simpa using h.symm
    exact ⟨by omega, b.toNat, h1, (Nat.zero_add _).symm⟩
  · simp at h
  · obtain rfl : n = 1 := by simpa using h.symm
    exact ⟨by omega, b.toNat - 0xC0, by simp [utfRow, utf]; omega, by simp [utfRow, utf]; omega⟩
  · obtain rfl : n = 2 := by simpa using h.symm
    exact ⟨by omega, b.toNat - 0xE0, by simp [utfRow, utf]; omega, by simp [utfRow, utf]; omega⟩
  · obtain rfl : n = 3 := by simpa using h.symm
    exact ⟨by omega, b.toNat - 0xF0, by simp [utfRow, utf]; omega, by simp [utfRow, utf]; omega⟩

theorem isCodepoint_of_codepointLen {cp n : ℕ} (h : codepointLen cp = some (n + 1)) : IsCodepoint cp := by
  constructor
  · by_contra hzero
    obtain rfl : cp = 0 := by omega
    cases h
  · by_contra hmax
    have hbig (m : ℕ) (hm : m ≤ 0x10FFFF) : ¬ cp ≤ m := by omega
    have hnone : codepointLen cp = none := by
      unfold codepointLen utf
      simp [List.findIdx?_cons, hbig]
    rw [hnone] at h
    cases h

/-- Nothing is said about the encoding of a number that is no code point. -/
theorem toUtf8_none {cp : ℕ} (h : ¬ IsCodepoint cp) : toUtf8 cp = none := by
  unfold toUtf8
  split
  · next k hlen => exact absurd (isCodepoint_of_codepointLen hlen) h
  · rfl

variable {chr : ℕ → UInt8} {n cp : ℕ}

/-- Bytes of the right kinds are an encoding of some number. -/
theorem exists_spelled (hlead : utf8Len (chr 0) = some (n + 1)) (htail : ∀ j < n, IsTail (chr (1 + j))) :
    ∃ cp, Spelled chr n cp := by
  obtain ⟨hn, x, hx, hfront⟩ := front_of_utf8Len hlead
  refine ⟨joined chr n 1 x, hlead, ?_, fun j hj => ⟨htail j hj, ?_⟩⟩
  · rw [hfront, lead_and_mask hn hx, joined_div]
  · rw [joined_bits chr 1 x hj]

theorem Spelled.front_eq (h : Spelled chr n cp) : n ≤ 3 ∧ cp / 64 ^ n < 2 ^ (utfRow n).bitsStored ∧
    (chr 0).toNat = (utfRow n).lead + cp / 64 ^ n := by
  obtain ⟨hn, x, hx, hfront⟩ := front_of_utf8Len h.lead
  obtain rfl : cp / 64 ^ n = x := by rw [← h.front, hfront, lead_and_mask hn hx]
  exact ⟨hn, hx, hfront⟩

/-- The number that `n + 1` bytes encode is in their row of the table or below it. -/
theorem Spelled.le (h : Spelled chr n cp) (hcp : IsCodepoint cp) : cp ≤ (utfRow n).end_ := by
  obtain ⟨hn, hx, -⟩ := h.front_eq
  have hmax := hcp.2
  interval_cases n <;> simp [utfRow, utf] at hx ⊢ <;> omega

/-- In the row they are its encoding. -/
theorem Spelled.bytes (h : Spelled chr n cp) (hlen : codepointLen cp = some (n + 1)) :
    toUtf8 cp = some ((List.range (n + 1)).map chr) := by
  obtain ⟨hn, -, hfront⟩ := h.front_eq
  have hrange := (codepointLen_iff (isCodepoint_of_codepointLen hlen) hn).mp hlen
  rw [toUtf8_of_len hlen, Option.some_inj]
  apply List.map_congr_left
  intro i hi
  apply UInt8.toNat_inj.mp
  cases i with
  | zero => rw [utf8Byte_front hn hrange.2, hfront]
  | succ j =>
    obtain ⟨hkind, hbits⟩ := h.tail j (by simpa using hi)
    rw [utf8Byte_tail, ← hbits, Nat.add_comm j]
    unfold IsTail at hkind
    unfold tailBits
    omega

/-- A code point below the row has a shorter encoding. -/
theorem codepointLen_lt (hcp : IsCodepoint cp) (hn : n ≤ 3) (h : cp < (utfRow n).beg) :
    ∃ m < n, codepointLen cp = some (m + 1) := by
  obtain ⟨m, hm, hlen⟩ := exists_codepointLen hcp
  have hrange := (codepointLen_iff hcp hm).mp hlen
  refine ⟨m, ?_, hlen⟩
  by_contra hge
  interval_cases n <;> interval_cases m <;> simp [utfRow, utf] at h hrange hge <;> omega

/-- Bytes of the right kinds are taken for the number that their bits make up. Among the code
points it is the row of the table for so many bytes that decides: there they are its encoding, and
below it they are overlong. -/
theorem toUtf8_toCp (chr : ℕ → UInt8) (n : ℕ) (hlead : utf8Len (chr 0) = some (n + 1))
    (htail : ∀ j < n, IsTail (chr (1 + j))) :
    ∃ cp, toCp chr = some cp ∧ Spelled chr n cp ∧
      (toUtf8 cp = some ((List.range (n + 1)).map chr) ↔ IsCodepoint cp ∧ (utfRow n).beg ≤ cp) ∧
      (IsCodepoint cp → cp < (utfRow n).beg → ∃ bs, toUtf8 cp = some bs ∧ bs.length < n + 1) ∧
      (¬ IsCodepoint cp → toUtf8 cp = none) := by
  have hn : n ≤ 3 := (front_of_utf8Len hlead).1
  obtain ⟨cp, hsp⟩ := exists_spelled hlead htail
  have hshort : IsCodepoint cp → cp < (utfRow n).beg →
      ∃ bs, toUtf8 cp = some bs ∧ bs.length < n + 1 := by
    intro hcp hbelow
    obtain ⟨m, hm, hlen⟩ := codepointLen_lt hcp hn hbelow
    exact ⟨_, toUtf8_of_len hlen, by simpa using hm⟩
  refine ⟨cp, toCp_of_spelled hsp, hsp, ⟨fun heq => ?_, fun ⟨hcp, hbeg⟩ => ?_⟩, hshort, toUtf8_none⟩
  · have hcp : IsCodepoint cp := by
      by_contra hno
      rw [toUtf8_none hno] at heq
      cases heq
    refine ⟨hcp, ?_⟩
    by_contra hbelow
    obtain ⟨bs, hbs, hlength⟩ := hshort hcp (Nat.not_le.mp hbelow)
    obtain rfl := Option.some.inj (hbs.symm.trans heq)
    simp at hlength
  · exact hsp.bytes ((codepointLen_iff hcp hn).mpr ⟨hbeg, hsp.le hcp⟩)

theorem toUtf8_toCp_euro : ∃ cp, toCp (fun i => [0xE2, 0x82, 0xAC].getD i 0) = some cp ∧
    Spelled (fun i => [0xE2, 0x82, 0xAC].getD i 0) 2 cp ∧
    (toUtf8 cp = some ((List.range 3).map fun i => [0xE2, 0x82, 0xAC].getD i 0) ↔
      IsCodepoint cp ∧ (utfRow 2).beg ≤ cp) ∧
    (IsCodepoint cp → cp < (utfRow 2).beg → ∃ bs, toUtf8 cp = some bs ∧ bs.length < 3) ∧
    (¬ IsCodepoint cp → toUtf8 cp = none) :=
  toUtf8_toCp _ 2 (by decide) (by unfold IsTail; decide)

end Shortest

section Decode

/-- Where code point `k` begins in the encoding of all of them. -/
def startOf (cps : List ℕ) (k : ℕ) : ℕ := ((cps.take k).flatMap utf8Of).length

/-- The string from offset `o` on. -/
def bytesFrom (text : List UInt8) (o : ℕ) : ℕ → UInt8 := fun i => text.getD (o + i) 0

/-- What the functions find at offset `o` of a text: where it lies in which code point, and how
they tell. -/
structure FoundAt (cps : List ℕ) (text : List UInt8) (o k d : ℕ) (hk : k < cps.length) : Prop where
  place : o = startOf cps k + d
  inside : d < (utf8Of cps[k]).length
  first : d = 0 → utf8Len (bytesFrom text o 0) = some (utf8Of cps[k]).length ∧
    toCp (bytesFrom text o) = some cps[k]
  rest : d ≠ 0 → utf8Len (bytesFrom text o 0) = some 0

theorem utf8Len_tail {b : UInt8} (h : IsTail b) : utf8Len b = some 0 := by
  obtain ⟨hlo, hhi⟩ := h
  rw [utf8Len_eq, if_neg (by omega), if_pos hhi]

theorem foundAt_head {cp : ℕ} (h : IsCodepoint cp) (cps : List ℕ) (behind : List UInt8) {o : ℕ}
    (ho : o < (utf8Of cp).length) :
    FoundAt (cp :: cps) (utf8Of cp ++ behind) o 0 o (Nat.succ_pos _) := by
  obtain ⟨n, hn, hlen⟩ := exists_codepointLen h
  have hlen' := length_utf8Of_succ hlen
  have hbyte (i : ℕ) (hi : i < n + 1) : bytesFrom (utf8Of cp ++ behind) 0 i = (utf8Of cp).getD i 0 := by
    have hi' : i < (utf8Of cp).length := by rwa [hlen']
    simp [bytesFrom, List.getElem?_append_left hi']
  have hsp := spelled_utf8Of h hn hlen hbyte
  refine ⟨by simp [startOf], ho, fun hd => ?_, fun hd => ?_⟩
  · subst hd
    exact ⟨hsp.lead.trans (congrArg some hlen'.symm), toCp_of_spelled hsp⟩
  · obtain ⟨j, rfl⟩ : ∃ j, o = 1 + j := ⟨o - 1, by omega⟩
    have htail := (hsp.tail j (by omega)).1
    have hsame : bytesFrom (utf8Of cp ++ behind) (1 + j) 0 = bytesFrom (utf8Of cp ++ behind) 0 (1 + j) := by
      simp [bytesFrom]
    rw [hsame]
    exact utf8Len_tail htail

/-- At each byte of an encoded text `utf8_len` tells whether a code point begins there and how
long it is, and `to_cp` gives it. -/
theorem exists_foundAt {cps : List ℕ} (h : ∀ cp ∈ cps, IsCodepoint cp) {o : ℕ}
    (ho : o < (cps.flatMap utf8Of).length) : ∃ k d, ∃ hk, FoundAt cps (cps.flatMap utf8Of) o k d hk := by
  induction cps generalizing o with
  | nil => exact absurd ho (Nat.not_lt_zero o)
  | cons cp cps ih =>
    obtain ⟨hcp, hcps⟩ := List.forall_mem_cons.mp h
    rw [List.flatMap_cons] at ho ⊢
    by_cases hin : o < (utf8Of cp).length
    · exact ⟨0, o, _, foundAt_head hcp cps _ hin⟩
    · obtain ⟨o, rfl⟩ : ∃ o', o = (utf8Of cp).length + o' := ⟨o - (utf8Of cp).length, by omega⟩
      rw [List.length_append] at ho
      obtain ⟨k, d, hk, hfound⟩ := ih hcps (o := o) (by omega)
      have hbytes : bytesFrom (utf8Of cp ++ cps.flatMap utf8Of) ((utf8Of cp).length + o) =
          bytesFrom (cps.flatMap utf8Of) o := by
        funext i
        have hge : (utf8Of cp).length ≤ (utf8Of cp).length + o + i := by omega
        have hsub : (utf8Of cp).length + o + i - (utf8Of cp).length = o + i := by omega
        simp [bytesFrom, List.getElem?_append_right hge, hsub]
      refine ⟨k + 1, d, Nat.succ_lt_succ hk, ?_, hfound.inside, ?_, ?_⟩
      · have hplace := hfound.place
        simp only [startOf, List.take_succ_cons, List.flatMap_cons, List.length_append] at hplace ⊢
        omega
      · rw [hbytes]
        exact hfound.first
      · rw [hbytes]
        exact hfound.rest

end Decode

section LongName
open Libpi
variable {s : List Fat32Dir} {name : List UInt8}

/-- The units of a long name can be encoded, halves of pairs included. -/
theorem lfnUnits_codepoints (s : List Fat32Dir) : ∀ u ∈ lfnUnits s, IsCodepoint u := by
  intro u hu
  obtain ⟨hne, hlt⟩ := mem_lfnUnits hu
  exact ⟨by omega, by omega⟩

/-- Only long-name entries are read to the end. -/
theorem isLong_of_lfnGetName (h : lfnGetName s = .ok name) : ∀ l ∈ s, l.IsLong := by
  have hfold : ∀ (ls : List Fat32Dir) (buf : List UInt8), ls.foldlM utf8AppendEntry buf = .ok name →
      ∀ l ∈ ls, l.IsLong := by
    intro ls
    induction ls with
    | nil => simp
    | cons l ls ih =>
      intro buf hrun
      rw [List.foldlM_cons] at hrun
      cases hl : utf8AppendEntry buf l with
      | error e => rw [hl] at hrun; cases hrun
      | ok buf' =>
        rw [hl] at hrun
        refine List.forall_mem_cons.mpr ⟨?_, ih buf' hrun⟩
        by_contra hno
        unfold utf8AppendEntry check at hl
        rw [if_neg hno] at hl
        cases hl
  intro l hl
  exact hfold s.reverse [] h l (by simpa using hl)

/-- A long name that is read is what its units spell, and at each of its bytes `utf8_len` and
`to_cp` find the unit that the byte belongs to. -/
theorem lfnGetName_found (s : List Fat32Dir) (name : List UInt8) (h : lfnGetName s = .ok name) :
    (∀ u ∈ lfnUnits s, toUtf8 u = some (utf8Of u)) ∧ name = (lfnUnits s).flatMap utf8Of ∧
      ∀ o < name.length, ∃ k d, ∃ hk, FoundAt (lfnUnits s) name o k d hk := by
  have hall : ∀ u ∈ lfnUnits s, toUtf8 u = some (utf8Of u) := by
    intro u hu
    obtain ⟨hne, hlt⟩ := mem_lfnUnits hu
    exact toUtf8_utf8Of hne hlt
  rw [lfnGetName_eq (isLong_of_lfnGetName h)] at h
  unfold appended at h
  split at h
  · obtain rfl := Except.ok.inj h
    exact ⟨hall, List.nil_append _, fun o ho => exists_foundAt (lfnUnits_codepoints s) ho⟩
  · cases h

/-- One entry with two letters and its end mark. -/
def twoLetters : Fat32Dir := lfnEntry 0x41 0 ([0xE9, 0x20AC, 0] ++ List.replicate 10 0xFFFF)

theorem lfnGetName_found_two : (∀ u ∈ lfnUnits [twoLetters], toUtf8 u = some (utf8Of u)) ∧
    [0xC3, 0xA9, 0xE2, 0x82, 0xAC] = (lfnUnits [twoLetters]).flatMap utf8Of ∧
    ∀ o < 5, ∃ k d, ∃ hk, FoundAt (lfnUnits [twoLetters]) [0xC3, 0xA9, 0xE2, 0x82, 0xAC] o k d hk :=
  lfnGetName_found [twoLetters] _ (by rfl)

end LongName

end SimplePiOS.Kernel
