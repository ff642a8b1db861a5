import Mathlib.Data.List.TakeWhile
import SimplePiOS.Kernel.Dirent

/-! Long names: which units a group of entries spells, what becomes of them, and whether the
group belongs to the file it is used for. -/
namespace SimplePiOS.Kernel
open Libpi

/-- The 16-bit units in a field. -/
def fieldUnits : List UInt8 → List ℕ
  | x0 :: x1 :: unicode => (x0.toNat ||| x1.toNat <<< 8) :: fieldUnits unicode
  | _ => []

/-- A unit that ends the name in its field. -/
def IsTerminator (u : ℕ) : Prop := u = 0 ∨ u = 0xFFFF

instance (u : ℕ) : Decidable (IsTerminator u) := inferInstanceAs (Decidable (_ ∨ _))

def spelled (us : List ℕ) : List ℕ := us.takeWhile fun u => ¬ IsTerminator u

/-- The three fields of an entry, in the order of the name. -/
def Fat32Dir.fields (l : Fat32Dir) : List (List ℕ) :=
  [fieldUnits l.name1_5, fieldUnits l.name6_11, fieldUnits l.name12_13]

/-- The units the entries spell: the last entry comes first, and each field up to its own
terminator counts. -/
def lfnUnits (s : List Fat32Dir) : List ℕ := (s.reverse.flatMap Fat32Dir.fields).flatMap spelled

/-- Bytes of a unit in UTF-8. -/
def unitBytes (u : ℕ) : ℕ := if u < 0x80 then 1 else if u < 0x800 then 2 else 3

section Unit

theorem unit_lt (x0 x1 : UInt8) : x0.toNat ||| x1.toNat <<< 8 < 2 ^ 16 := by
  have h0 := x0.toNat_lt
  have h1 := x1.toNat_lt
  rw [Nat.shiftLeft_eq]
  apply Nat.or_lt_two_pow
  · omega
  · omega

theorem unit_eq (x0 x1 : UInt8) : x0.toNat ||| x1.toNat <<< 8 = x0.toNat + 2 ^ 8 * x1.toNat := by
  have h0 : x0.toNat < 2 ^ 8 := x0.toNat_lt
  rw [Nat.shiftLeft_eq, Nat.mul_comm, Nat.or_comm, ← Nat.two_pow_add_eq_or_of_lt h0, Nat.add_comm]

theorem fieldUnits_lt (bs : List UInt8) : ∀ u ∈ fieldUnits bs, u < 2 ^ 16 := by
  induction bs using fieldUnits.induct with
  | case1 x0 x1 bs ih =>
    rw [fieldUnits, List.forall_mem_cons]
    exact ⟨unit_lt x0 x1, ih⟩
  | case2 bs hbs =>
    rw [fieldUnits]
    · simp
    · exact hbs

theorem lfnTerminator_iff (x0 x1 : UInt8) :
    lfnTerminator x0 x1 ↔ IsTerminator (x0.toNat ||| x1.toNat <<< 8) := by
  have h0 := x0.toNat_lt
  have h1 := x1.toNat_lt
  unfold lfnTerminator IsTerminator
  rw [unit_eq, ← UInt8.toNat_inj, ← UInt8.toNat_inj, ← UInt8.toNat_inj, ← UInt8.toNat_inj]
  change (x0.toNat = 0 ∧ x1.toNat = 0) ∨ (x0.toNat = 255 ∧ x1.toNat = 255) ↔ _
  omega

/-- A unit other than 0 has one, two or three bytes. -/
theorem codepointLen_unit {u : ℕ} (h0 : u ≠ 0) (h : u < 2 ^ 16) :
    codepointLen u = some (unitBytes u) := by
  unfold codepointLen unitBytes utf
  by_cases h7 : u < 0x80
  · have h2 : 0 ≤ u ∧ u ≤ 0o177 := by omega
    simp [List.findIdx?_cons, h2, h7]
    omega
  · by_cases h11 : u < 0x800
    · have h2 : ¬ u ≤ 0o177 := by omega
      have h3 : 0o200 ≤ u ∧ u ≤ 0o3777 := by omega
      simp [List.findIdx?_cons, h2, h3, h7, h11]
      omega
    · have h2 : ¬ u ≤ 0o177 := by omega
      have h3 : ¬ u ≤ 0o3777 := by omega
      have h4 : 0o4000 ≤ u ∧ u ≤ 0o177777 := by omega
      simp [List.findIdx?_cons, h2, h3, h4, h7, h11]
      omega

/-- The encoding of a code point that has one. -/
def utf8Of (cp : ℕ) : List UInt8 := (toUtf8 cp).getD []

theorem toUtf8_of_len {cp n : ℕ} (h : codepointLen cp = some (n + 1)) :
    toUtf8 cp = some ((List.range (n + 1)).map (utf8Byte cp (n + 1))) := by
  unfold toUtf8
  rw [h]

theorem exists_unitBytes (u : ℕ) : ∃ n, unitBytes u = n + 1 := by
  unfold unitBytes
  split_ifs
  · exact ⟨0, rfl⟩
  · exact ⟨1, rfl⟩
  · exact ⟨2, rfl⟩

theorem toUtf8_unit {u : ℕ} (h0 : u ≠ 0) (h : u < 2 ^ 16) :
    toUtf8 u = some ((List.range (unitBytes u)).map (utf8Byte u (unitBytes u))) := by
  obtain ⟨n, hn⟩ := exists_unitBytes u
  rw [hn]
  apply toUtf8_of_len
  rw [codepointLen_unit h0 h, hn]

theorem toUtf8_utf8Of {u : ℕ} (h0 : u ≠ 0) (h : u < 2 ^ 16) : toUtf8 u = some (utf8Of u) := by
  unfold utf8Of
  rw [toUtf8_unit h0 h]
  rfl

theorem length_utf8Of {u : ℕ} (h0 : u ≠ 0) (h : u < 2 ^ 16) : (utf8Of u).length = unitBytes u := by
  unfold utf8Of
  rw [toUtf8_unit h0 h]
  simp

/-- Masking and marking a byte of the encoding in arithmetic. -/
theorem mask_lead (x k m : ℕ) : x &&& (2 ^ k - 1) ||| 2 ^ k * m = x % 2 ^ k + 2 ^ k * m := by
  have hlt : x % 2 ^ k < 2 ^ k := Nat.mod_lt _ (Nat.two_pow_pos k)
  rw [Nat.and_two_pow_sub_one_eq_mod, Nat.or_comm, ← Nat.two_pow_add_eq_or_of_lt hlt, Nat.add_comm]

/-- The characters that have one unit. -/
def IsScalar (u : ℕ) : Prop := u < 0xD800 ∨ (0xDFFF < u ∧ u < 2 ^ 16)

theorem utf8Of_eq {u : ℕ} (h0 : u ≠ 0) (h : IsScalar u) :
    utf8Of u = String.utf8EncodeChar (Char.ofNat u) := by
  have hlt : u < 2 ^ 16 := by
    unfold IsScalar at h
    omega
  have hval : (Char.ofNat u).val.toNat = u := by
    have hvalid : u.isValidChar := by
      unfold IsScalar at h
      unfold Nat.isValidChar
      omega
    unfold Char.ofNat
    rw [dif_pos hvalid]
    rfl
  have h1 := mask_lead u 7 0
  have h2 := mask_lead (u >>> 6) 5 6
  have h3 := mask_lead u 6 2
  have h4 := mask_lead (u >>> 12) 4 14
  have h5 := mask_lead (u >>> 6) 6 2
  rw [Nat.shiftRight_eq_div_pow] at h2 h4 h5
  unfold utf8Of String.utf8EncodeChar
  rw [toUtf8_unit h0 hlt, Option.getD_some]
  simp only [hval]
  unfold unitBytes
  by_cases h7 : u < 0x80
  · rw [if_pos h7, if_pos (by omega)]
    have hmod : u % 2 ^ 7 = u := Nat.mod_eq_of_lt h7
    rw [hmod] at h1
    change [UInt8.ofNat (u >>> 0 &&& 0x7f ||| 0)] = _
    rw [Nat.shiftRight_zero]
    exact congrArg (fun x => [UInt8.ofNat x]) h1
  · by_cases h11 : u < 0x800
    · rw [if_neg h7, if_pos h11, if_neg (by omega), if_pos (by omega)]
      change [UInt8.ofNat (u >>> 6 &&& 0x1f ||| 0xc0), UInt8.ofNat (u >>> 0 &&& 0x3f ||| 0x80)] = _
      rw [Nat.shiftRight_zero, Nat.shiftRight_eq_div_pow]
      exact congrArg₂ (fun x y => [UInt8.ofNat x, UInt8.ofNat y]) h2 h3
    · rw [if_neg h7, if_neg h11, if_neg (by omega), if_neg (by omega), if_pos (by omega)]
      change [UInt8.ofNat (u >>> 12 &&& 0x0f ||| 0xe0), UInt8.ofNat (u >>> 6 &&& 0x3f ||| 0x80),
        UInt8.ofNat (u >>> 0 &&& 0x3f ||| 0x80)] = _
      rw [Nat.shiftRight_zero, Nat.shiftRight_eq_div_pow, Nat.shiftRight_eq_div_pow]
      have hhead := congrArg UInt8.ofNat h4
      have htail := congrArg₂ (fun x y => [UInt8.ofNat x, UInt8.ofNat y]) h5 h3
      exact congrArg₂ List.cons hhead htail

end Unit

section GetName
variable {buf : List UInt8} {s : List Fat32Dir}

/-- Appending some units to a buffer that holds a name: all of them or past its end. -/
def appended (buf : List UInt8) (us : List ℕ) : Except Stop (List UInt8) :=
  if buf.length + (us.flatMap utf8Of).length < filenameSize then .ok (buf ++ us.flatMap utf8Of)
  else .error (.clobber filenameSize)

theorem appended_nil (h : buf.length < filenameSize) : appended buf [] = .ok buf := by
  unfold appended
  simp [h]

/-- Once past the end there is no way back. -/
theorem appended_append (buf : List UInt8) (us vs : List ℕ) :
    appended buf (us ++ vs) = (appended buf us >>= fun buf => appended buf vs) := by
  unfold appended
  by_cases h : buf.length + (us.flatMap utf8Of).length < filenameSize
  · rw [if_pos h]
    change _ = if _ then _ else _
    simp only [List.flatMap_append, List.length_append, List.append_assoc, Nat.add_assoc]
  · rw [if_neg h, if_neg]
    · rfl
    · rw [List.flatMap_append, List.length_append]
      omega

theorem appended_lt {us : List ℕ} {name : List UInt8} (h : appended buf us = .ok name) :
    name.length < filenameSize := by
  unfold appended at h
  split at h
  · next hlt =>
    cases h
    rwa [List.length_append]
  · cases h

theorem utf8Append_eq (field : List UInt8) (h : buf.length < filenameSize) :
    utf8Append buf field = appended buf (spelled (fieldUnits field)) := by
  induction field using fieldUnits.induct generalizing buf with
  | case1 x0 x1 unicode ih =>
    unfold utf8Append fieldUnits spelled
    by_cases hterm : IsTerminator (x0.toNat ||| x1.toNat <<< 8)
    · rw [if_pos ((lfnTerminator_iff x0 x1).mpr hterm), List.takeWhile_cons, if_neg (by simpa using hterm),
        appended_nil h]
    · rw [if_neg (fun ht => hterm ((lfnTerminator_iff x0 x1).mp ht)), List.takeWhile_cons,
        if_pos (by simpa using hterm)]
      have hsplit := appended_append buf [x0.toNat ||| x1.toNat <<< 8] (spelled (fieldUnits unicode))
      have hone : appended buf [x0.toNat ||| x1.toNat <<< 8] =
          strcatName buf (utf8Of (x0.toNat ||| x1.toNat <<< 8)) := by
        unfold appended strcatName
        rw [List.flatMap_cons, List.flatMap_nil, List.append_nil]
      have henc := toUtf8_utf8Of (fun h0 => hterm (.inl h0)) (unit_lt x0 x1)
      rw [List.singleton_append, hone] at hsplit
      change _ = appended buf (_ :: spelled (fieldUnits unicode))
      rw [hsplit, ← hone, henc]
      dsimp only
      rw [← hone]
      cases happ : appended buf [x0.toNat ||| x1.toNat <<< 8] with
      | error e => rfl
      | ok name => exact ih (appended_lt happ)
  | case2 field hfield =>
    have hunits : fieldUnits field = [] := by
      unfold fieldUnits
      split
      · next x0 x1 unicode => exact absurd rfl (hfield x0 x1 unicode)
      · rfl
    have hskip : utf8Append buf field = .ok buf := by
      unfold utf8Append
      split
      · next x0 x1 unicode => exact absurd rfl (hfield x0 x1 unicode)
      · rfl
    rw [hunits, hskip]
    exact (appended_nil h).symm

theorem utf8AppendEntry_eq {l : Fat32Dir} (hlong : l.IsLong) (h : buf.length < filenameSize) :
    utf8AppendEntry buf l = appended buf (l.fields.flatMap spelled) := by
  have hcheck : check l.IsLong "l->attr == FAT32_LONG_FILE_NAME" = .ok () := if_pos hlong
  have hfields : l.fields.flatMap spelled = spelled (fieldUnits l.name1_5) ++
      (spelled (fieldUnits l.name6_11) ++ spelled (fieldUnits l.name12_13)) := by
    simp [Fat32Dir.fields]
  unfold utf8AppendEntry
  rw [hcheck, hfields, appended_append, utf8Append_eq _ h]
  change (appended buf _ >>= _) = _
  cases h1 : appended buf (spelled (fieldUnits l.name1_5)) with
  | error e => rfl
  | ok name =>
    change (utf8Append name _ >>= _) = appended name _
    rw [appended_append, utf8Append_eq _ (appended_lt h1)]
    cases h2 : appended name (spelled (fieldUnits l.name6_11)) with
    | error e => rfl
    | ok name' => exact utf8Append_eq _ (appended_lt h2)

/-- The name of a group is what its units spell, if it fits. -/
theorem lfnGetName_eq (hlong : ∀ l ∈ s, l.IsLong) : lfnGetName s = appended [] (lfnUnits s) := by
  have hloop : ∀ (ls : List Fat32Dir) (buf : List UInt8), (∀ l ∈ ls, l.IsLong) →
      buf.length < filenameSize →
      ls.foldlM utf8AppendEntry buf = appended buf ((ls.flatMap Fat32Dir.fields).flatMap spelled) := by
    intro ls
    induction ls with
    | nil =>
      intro buf _ hbuf
      exact (appended_nil hbuf).symm
    | cons l ls ih =>
      intro buf hls hbuf
      rw [List.foldlM_cons, List.flatMap_cons, List.flatMap_append, appended_append,
        utf8AppendEntry_eq (hls l (by simp)) hbuf]
      cases happ : appended buf (l.fields.flatMap spelled) with
      | error e => rfl
      | ok name => exact ih name (fun l' hl' => hls l' (by simp [hl'])) (appended_lt happ)
  exact hloop s.reverse [] (fun l hl => hlong l (by simpa using hl)) (by decide)

end GetName

section RoundTrip

def Fat32Dir.units (l : Fat32Dir) : List ℕ := l.fields.flatten

/-- The name as it lies in the entries: ended and filled up unless it fills them itself. -/
def lfnPadded (name : List UInt16) : List ℕ :=
  let us := name.map UInt16.toNat
  if us.length % 13 = 0 then us else us ++ 0 :: List.replicate (12 - us.length % 13) 0xFFFF

/-- The entries hold the name in parts of 13 units, the last part first. -/
structure Splits (name : List UInt16) (s : List Fat32Dir) : Prop where
  long : ∀ l ∈ s, l.IsLong
  units : s.reverse.flatMap Fat32Dir.units = lfnPadded name

/-- Neither an end mark nor a part of a pair. -/
def IsNameUnit (u : UInt16) : Prop := ¬ IsTerminator u.toNat ∧ IsScalar u.toNat

/-- The standard encoding of the name. -/
def utf8Name (name : List UInt16) : List UInt8 :=
  name.flatMap fun u => String.utf8EncodeChar (Char.ofNat u.toNat)

theorem spelled_append {us pad : List ℕ} (hus : ∀ u ∈ us, ¬ IsTerminator u)
    (hpad : ∀ u ∈ pad, IsTerminator u) : spelled (us ++ pad) = us := by
  unfold spelled
  rw [List.takeWhile_append_of_pos (by simpa using hus)]
  cases pad with
  | nil => simp
  | cons u pad => simp [hpad u (by simp)]

/-- However a padded name is cut into fields, the fields spell the name. -/
theorem flatMap_spelled {fs : List (List ℕ)} {us pad : List ℕ} (h : fs.flatten = us ++ pad)
    (hus : ∀ u ∈ us, ¬ IsTerminator u) (hpad : ∀ u ∈ pad, IsTerminator u) :
    fs.flatMap spelled = us := by
  induction fs generalizing us pad with
  | nil =>
    have hnil := (List.append_eq_nil_iff.mp h.symm).1
    rw [hnil]
    rfl
  | cons f fs ih =>
    rw [List.flatten_cons, List.append_eq_append_iff] at h
    rw [List.flatMap_cons]
    rcases h with ⟨us', hus', hrest⟩ | ⟨pad', hf, hpad'⟩
    · subst hus'
      have hfield : spelled (f ++ []) = f :=
        spelled_append (fun u hu => hus u (List.mem_append_left us' hu)) (by simp)
      rw [List.append_nil] at hfield
      rw [hfield, ih hrest (fun u hu => hus u (List.mem_append_right f hu)) hpad]
    · subst hf hpad'
      have hrest : fs.flatMap spelled = [] :=
        ih (List.nil_append _).symm (by simp) fun u hu => hpad u (List.mem_append_right pad' hu)
      rw [spelled_append hus fun u hu => hpad u (List.mem_append_left _ hu), hrest, List.append_nil]

theorem lfnUnits_of_splits {name : List UInt16} {s : List Fat32Dir} (h : Splits name s)
    (hname : ∀ u ∈ name, IsNameUnit u) : lfnUnits s = name.map UInt16.toNat := by
  have hus : ∀ u ∈ name.map UInt16.toNat, ¬ IsTerminator u := by
    intro u hu
    obtain ⟨w, hw, rfl⟩ := List.mem_map.mp hu
    exact (hname w hw).1
  have hflat : (s.reverse.flatMap Fat32Dir.fields).flatten = lfnPadded name := by
    rw [← h.units]
    induction s.reverse with
    | nil => rfl
    | cons l ls ih =>
      rw [List.flatMap_cons, List.flatten_append, ih, List.flatMap_cons]
      rfl
  unfold lfnUnits
  unfold lfnPadded at hflat
  dsimp only at hflat
  split at hflat
  · exact flatMap_spelled (hflat.trans (List.append_nil _).symm) hus (by simp)
  · refine flatMap_spelled hflat hus ?_
    intro u hu
    rcases List.mem_cons.mp hu with rfl | hu
    · exact .inl rfl
    · exact .inr (List.eq_of_mem_replicate hu)

/-- Splitting a name into entries and reading the entries gives its encoding. -/
theorem lfnGetName_splits (name : List UInt16) (s : List Fat32Dir) (h : Splits name s)
    (hname : ∀ u ∈ name, IsNameUnit u) (hfits : (utf8Name name).length < filenameSize) :
    lfnGetName s = .ok (utf8Name name) := by
  have hbytes : (name.map UInt16.toNat).flatMap utf8Of = utf8Name name := by
    unfold utf8Name
    rw [List.flatMap_map]
    apply List.flatMap_congr
    intro u hu
    have hu' := hname u hu
    exact utf8Of_eq (fun h0 => hu'.1 (.inl h0)) hu'.2
  rw [lfnGetName_eq h.long, lfnUnits_of_splits h hname]
  unfold appended
  rw [hbytes, List.length_nil, Nat.zero_add, if_pos hfits, List.nil_append]

/-- An entry with 13 given units. -/
def lfnEntry (seqno cksum : UInt8) (us : List UInt16) : Fat32Dir :=
  let bytes : List UInt8 := us.flatMap fun (u : UInt16) => [u.toUInt8, (u >>> 8).toUInt8]
  fun i => ([seqno] ++ bytes.take 10 ++ [fat32LongFileName, 0, cksum] ++
    (bytes.drop 10).take 12 ++ [0, 0] ++ bytes.drop 22).getD i 0

/-- A name with letters of all three lengths in two entries. -/
def menuName : List UInt16 :=
  [0x63, 0x61, 0x66, 0xE9, 0x20, 0x6D, 0x65, 0x6E, 0x75, 0x20, 0x20AC, 0x31, 0x30, 0x2E, 0x74]

def menuEntries : List Fat32Dir := [
  lfnEntry 0x42 0x99 ([0x2E, 0x74, 0] ++ List.replicate 10 0xFFFF),
  lfnEntry 0x01 0x99 (menuName.take 13)]

theorem menu_splits : Splits menuName menuEntries := by
  have hlong : menuEntries.all (·.IsLong) = true := by decide
  exact ⟨by simpa using hlong, by decide⟩

theorem lfnGetName_menu : lfnGetName menuEntries = .ok (utf8Name menuName) :=
  lfnGetName_splits menuName menuEntries menu_splits
    (by simp [menuName, IsNameUnit, IsTerminator, IsScalar]) (by decide)

end RoundTrip

section Fits
variable {d : Fat32Dir} {rest : List Fat32Dir}

/-- The long-name entries from `d` on. -/
def lfnGroup (d : Fat32Dir) (rest : List Fat32Dir) : List Fat32Dir := d :: rest.takeWhile (·.IsLong)

theorem lfnGroup_long (h : d.IsLong) : ∀ l ∈ lfnGroup d rest, l.IsLong := by
  intro l hl
  rcases List.mem_cons.mp hl with rfl | hl
  · exact h
  · simpa using List.mem_takeWhile_imp hl

/-- The long name from `d` on passes the checks of `fat32_dir_filename` and is copied. -/
def CopiesLongName (d : Fat32Dir) (rest : List Fat32Dir) : Prop :=
  ¬ fat32DirentFree d ∧ d.IsLong ∧ ∃ e tl, rest.dropWhile (·.IsLong) = e :: tl ∧
    (isAttr e.attr fat32Dir ∨ isAttr e.attr fat32Archive)

theorem fat32DirFilename_long (h : CopiesLongName d rest) : fat32DirFilename d rest = (do
    let filename ← lfnGetName (lfnGroup d rest)
    let name ← strcpyName filename
    return (name, (lfnGroup d rest).length)) := by
  obtain ⟨hlive, hlong, e, tl, hdrop, hattr⟩ := h
  have hcheck : check (¬ fat32DirentFree d) "!fat32_dirent_free(d)" = .ok () := if_pos hlive
  have hcheck' : check (isAttr e.attr fat32Dir ∨ isAttr e.attr fat32Archive)
      "is_attr(d[cnt].attr, FAT32_DIR) || is_attr(d[cnt].attr, FAT32_ARCHIVE)" = .ok () :=
    if_pos hattr
  unfold fat32DirFilename
  rw [hcheck, hdrop, if_pos hlong]
  dsimp only
  rw [hcheck']
  rfl

theorem fat32DirFilename_other (h : ¬ CopiesLongName d rest) :
    (∃ msg, fat32DirFilename d rest = .error (.panic msg)) ∨
      (¬ d.IsLong ∧ fat32DirFilename d rest = .ok (shortName d, 0)) := by
  unfold fat32DirFilename check
  by_cases hlive : fat32DirentFree d
  · rw [if_neg (not_not.mpr hlive)]
    exact .inl ⟨_, rfl⟩
  · rw [if_pos hlive]
    by_cases hlong : d.IsLong
    · left
      change ∃ msg, (if d.IsLong then _ else _) = _
      rw [if_pos hlong]
      cases hdrop : rest.dropWhile (·.IsLong) with
      | nil => exact ⟨_, rfl⟩
      | cons e tl =>
        have hattr : ¬ (isAttr e.attr fat32Dir ∨ isAttr e.attr fat32Archive) :=
          fun hattr => h ⟨hlive, hlong, e, tl, hdrop, hattr⟩
        dsimp only
        rw [if_neg hattr]
        exact ⟨_, rfl⟩
    · change (∃ msg, (if d.IsLong then _ else _) = _) ∨ _
      rw [if_neg hlong]
      split
      · exact .inr ⟨hlong, rfl⟩
      · exact .inl ⟨_, rfl⟩

theorem mem_lfnUnits {s : List Fat32Dir} {u : ℕ} (h : u ∈ lfnUnits s) : u ≠ 0 ∧ u < 2 ^ 16 := by
  unfold lfnUnits at h
  obtain ⟨f, hf, hu⟩ := List.mem_flatMap.mp h
  obtain ⟨l, -, hf⟩ := List.mem_flatMap.mp hf
  have hterm : ¬ IsTerminator u := by simpa using List.mem_takeWhile_imp hu
  refine ⟨fun h0 => hterm (.inl h0), ?_⟩
  have hmem := (List.takeWhile_sublist _).subset hu
  simp only [Fat32Dir.fields, List.mem_cons, List.not_mem_nil, or_false] at hf
  rcases hf with rfl | rfl | rfl
  · exact fieldUnits_lt _ u hmem
  · exact fieldUnits_lt _ u hmem
  · exact fieldUnits_lt _ u hmem

theorem length_spelled_bytes (s : List Fat32Dir) :
    ((lfnUnits s).flatMap utf8Of).length = ((lfnUnits s).map unitBytes).sum := by
  have hall : ∀ u ∈ lfnUnits s, u ≠ 0 ∧ u < 2 ^ 16 := fun u hu => mem_lfnUnits hu
  rw [List.length_flatMap]
  congr 1
  apply List.map_congr_left
  intro u hu
  exact length_utf8Of (hall u hu).1 (hall u hu).2

theorem copied_name {s : List Fat32Dir} {α : Type} {f : List UInt8 → Except Stop α}
    (hlong : ∀ l ∈ s, l.IsLong) (h : ((lfnUnits s).map unitBytes).sum < maxName) :
    (do let filename ← lfnGetName s; let name ← strcpyName filename; f name) =
      f ((lfnUnits s).flatMap utf8Of) := by
  have hcopy : ((lfnUnits s).flatMap utf8Of).length < maxName := by rwa [length_spelled_bytes]
  have hfile : ((lfnUnits s).flatMap utf8Of).length < filenameSize :=
    Nat.lt_trans hcopy (by decide)
  have hname : lfnGetName s = .ok ((lfnUnits s).flatMap utf8Of) := by
    rw [lfnGetName_eq hlong]
    unfold appended
    rw [List.length_nil, Nat.zero_add, if_pos hfile, List.nil_append]
  have hstrcpy : strcpyName ((lfnUnits s).flatMap utf8Of) = .ok ((lfnUnits s).flatMap utf8Of) :=
    if_pos hcopy
  rw [hname]
  change (strcpyName _ >>= _) = _
  rw [hstrcpy]
  rfl

/-- One of the two buffers is too small. -/
theorem overrun_name {s : List Fat32Dir} (hlong : ∀ l ∈ s, l.IsLong)
    (h : ¬ ((lfnUnits s).map unitBytes).sum < maxName) :
    ∃ va, (lfnGetName s >>= strcpyName) = .error (.clobber va) := by
  rw [← length_spelled_bytes] at h
  rw [lfnGetName_eq hlong]
  unfold appended
  rw [List.length_nil, Nat.zero_add, List.nil_append]
  split
  · exact ⟨maxName, if_neg h⟩
  · exact ⟨filenameSize, rfl⟩

/-- No buffer is overrun exactly when the units of a copied name have 255 bytes at most. -/
theorem names_fit_iff (d : Fat32Dir) (rest : List Fat32Dir) :
    (∀ va, fat32DirFilename d rest ≠ .error (.clobber va)) ↔
      (CopiesLongName d rest → ((lfnUnits (lfnGroup d rest)).map unitBytes).sum < maxName) := by
  by_cases hcopies : CopiesLongName d rest
  · have hlong : ∀ l ∈ lfnGroup d rest, l.IsLong := lfnGroup_long hcopies.2.1
    by_cases hname : ((lfnUnits (lfnGroup d rest)).map unitBytes).sum < maxName
    · rw [fat32DirFilename_long hcopies, copied_name hlong hname]
      constructor
      · exact fun _ _ => hname
      · intro _ va h
        cases h
    · obtain ⟨va, hva⟩ := overrun_name hlong hname
      rw [fat32DirFilename_long hcopies, ← bind_assoc, hva]
      constructor
      · intro h
        exact absurd rfl (h va)
      · exact fun h => absurd (h hcopies) hname
  · constructor
    · exact fun _ h => absurd h hcopies
    · intro _ va h
      rcases fat32DirFilename_other hcopies with ⟨msg, hpanic⟩ | ⟨-, hok⟩
      · rw [hpanic] at h
        cases h
      · rw [hok] at h
        cases h

/-- A name of 91 letters, seven entries full, that need three bytes each. -/
def wideEntries : List Fat32Dir := List.replicate 7 (lfnEntry 0x41 0 (List.replicate 13 0x4E00))

/-- Some file of the archive kind. -/
def archiveEntry : Fat32Dir := fun i => if i = 11 then fat32Archive else 0x41

theorem wide_name_overruns :
    ¬ ∀ d rest, (lfnGroup d rest).length ≤ 20 →
      ∀ va, fat32DirFilename d rest ≠ .error (.clobber va) := by
  intro h
  exact h (lfnEntry 0x41 0 (List.replicate 13 0x4E00)) (wideEntries.tail ++ [archiveEntry])
    (by decide) maxName (by decide)

end Fits

section Belongs
variable {d : Fat32Dir} {rest : List Fat32Dir} {name : List UInt8} {cnt : ℕ}

/-- What `lfn_print` asserts of the group `d :: ls` before it prints it for `short`, apart from
its own limit on the length. -/
structure LfnChecks (d : Fat32Dir) (ls : List Fat32Dir) (short : Fat32Dir) : Prop where
  cksum : ∀ l ∈ d :: ls, l.cksum = lfnChecksum short.filename
  live : ∀ l ∈ d :: ls, ¬ lfnIsDeleted l.seqno
  last : lfnIsLast d.seqno
  first : lfnIsFirst (ls.getLastD d).seqno

/-- The name of the entry `short` that its long-name entries `group` give it: theirs if they
pass the checks, its own otherwise. -/
def NamedBy (group : List Fat32Dir) (short : Fat32Dir) (name : List UInt8) : Prop :=
  match group with
  | [] => name = shortName short
  | d :: ls => (LfnChecks d ls short ∧ lfnGetName (d :: ls) = .ok name) ∨
      (¬ LfnChecks d ls short ∧ name = shortName short)

theorem fat32DirFilename_ok (h : fat32DirFilename d rest = .ok (name, cnt)) :
    (¬ d.IsLong ∧ cnt = 0 ∧ name = shortName d) ∨
      (d.IsLong ∧ cnt = (lfnGroup d rest).length ∧ lfnGetName (lfnGroup d rest) = .ok name) := by
  by_cases hcopies : CopiesLongName d rest
  · right
    have hlong : ∀ l ∈ lfnGroup d rest, l.IsLong := lfnGroup_long hcopies.2.1
    rw [fat32DirFilename_long hcopies] at h
    by_cases hname : ((lfnUnits (lfnGroup d rest)).map unitBytes).sum < maxName
    · have hcopied := copied_name (f := fun filename => Except.ok filename) hlong hname
      rw [copied_name hlong hname] at h
      cases h
      refine ⟨hcopies.2.1, rfl, ?_⟩
      rw [lfnGetName_eq hlong]
      unfold appended
      rw [List.length_nil, Nat.zero_add, length_spelled_bytes, if_pos]
      · rfl
      · exact Nat.lt_trans hname (by decide)
    · obtain ⟨va, hva⟩ := overrun_name hlong hname
      rw [← bind_assoc, hva] at h
      cases h
  · left
    rcases fat32DirFilename_other hcopies with ⟨msg, hpanic⟩ | ⟨hshort, hok⟩
    · rw [hpanic] at h
      cases h
    · rw [hok] at h
      cases h
      exact ⟨hshort, rfl, rfl⟩

/-- The group behind a name is in front of its entry. -/
theorem take_lfnGroup : (d :: rest).take (lfnGroup d rest).length = lfnGroup d rest := by
  unfold lfnGroup
  rw [List.length_cons, List.take_succ_cons]
  congr 1
  exact List.prefix_iff_eq_take.mp (List.takeWhile_prefix _) |>.symm

/-- A name is taken from long-name entries whether or not they pass the checks; that is as it
should be when they do, or when they happen to spell the short name. -/
theorem named_by_group_iff (d : Fat32Dir) (rest : List Fat32Dir) (name : List UInt8) (cnt : ℕ)
    (h : fat32DirFilename d rest = .ok (name, cnt)) :
    NamedBy ((d :: rest).take cnt) ((d :: rest).getD cnt d) name ↔
      (d.IsLong → LfnChecks d (rest.takeWhile (·.IsLong)) ((d :: rest).getD cnt d) ∨
        lfnGetName (lfnGroup d rest) = .ok (shortName ((d :: rest).getD cnt d))) := by
  rcases fat32DirFilename_ok h with ⟨hshort, rfl, rfl⟩ | ⟨hlong, rfl, hname⟩
  · constructor
    · exact fun _ hlong => absurd hlong hshort
    · exact fun _ => rfl
  · rw [take_lfnGroup]
    change ((LfnChecks d _ _ ∧ lfnGetName (lfnGroup d rest) = .ok name) ∨ _) ↔ _
    rw [hname]
    constructor
    · rintro (⟨hchecks, -⟩ | ⟨-, rfl⟩) _
      · exact .inl hchecks
      · exact .inr rfl
    · intro himp
      by_cases hchecks : LfnChecks d (rest.takeWhile (·.IsLong))
          ((d :: rest).getD (lfnGroup d rest).length d)
      · exact .inl ⟨hchecks, rfl⟩
      · right
        refine ⟨hchecks, ?_⟩
        exact Except.ok.inj ((himp hlong).resolve_left hchecks)

/-- The long-name entry that a deleted file has left in front of the file `archiveEntry`. -/
def staleEntry : Fat32Dir := lfnEntry 0x41 0x99 [0x6F, 0x6C, 0x64, 0, 0xFFFF]

theorem stale_name : fat32DirFilename staleEntry [archiveEntry] = .ok ([0x6F, 0x6C, 0x64], 1) := by
  decide

theorem named_by_group_stale :
    NamedBy ([staleEntry, archiveEntry].take 1) ([staleEntry, archiveEntry].getD 1 staleEntry)
      [0x6F, 0x6C, 0x64] ↔
    (staleEntry.IsLong → LfnChecks staleEntry ([archiveEntry].takeWhile (·.IsLong))
        ([staleEntry, archiveEntry].getD 1 staleEntry) ∨
      lfnGetName (lfnGroup staleEntry [archiveEntry]) =
        .ok (shortName ([staleEntry, archiveEntry].getD 1 staleEntry))) :=
  named_by_group_iff staleEntry [archiveEntry] [0x6F, 0x6C, 0x64] 1 stale_name

/-- The file gets the name of the deleted one, whose checksum is not its own. -/
theorem stale_name_is_taken :
    ¬ ∀ d rest name cnt, fat32DirFilename d rest = .ok (name, cnt) →
      NamedBy ((d :: rest).take cnt) ((d :: rest).getD cnt d) name := by
  intro h
  rcases h staleEntry [archiveEntry] [0x6F, 0x6C, 0x64] 1 (by decide) with ⟨hchecks, -⟩ | ⟨-, hname⟩
  · exact absurd (hchecks.cksum staleEntry (by simp)) (by decide)
  · exact absurd hname (by decide)

end Belongs
end SimplePiOS.Kernel
