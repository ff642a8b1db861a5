import SimplePiOS.Kernel.LongNames

/-! Directory arrays: the count pass and the fill pass of `fat32_to_dirent` against each other,
and the names of entries without a long name. -/
namespace SimplePiOS.Kernel
open Libpi

/-- A dirent carries the data of an entry. -/
structure Carries (de : Dirent) (d : Fat32Dir) : Prop where
  clusterId : de.clusterId = (d.hiStart * 2 ^ 16 + d.loStart) % 2 ^ 32
  nbytes : de.nbytes = d.fileNbytes
  isDirP : de.isDirP ↔ d.attr &&& fat32Dir ≠ 0

theorem carries_direntOf (name : List UInt8) (d : Fat32Dir) : Carries (direntOf name d) d :=
  ⟨rfl, rfl, by simp [direntOf]⟩

section Fill
variable {d : Fat32Dir} {rest ents : List Fat32Dir} {n cnt : ℕ} {name : List UInt8}
  {dirs out : List Dirent}

theorem check_ok {p : Prop} [Decidable p] {msg : String} {u : Unit} (h : check p msg = .ok u) : p := by
  unfold check at h
  split at h
  · assumption
  · cases h

theorem except_bind_ok {ε α β : Type} {m : Except ε α} {f : α → Except ε β} {b : β}
    (h : (m >>= f) = .ok b) : ∃ a, m = .ok a ∧ f a = .ok b := by
  cases m with
  | error e => cases h
  | ok a => exact ⟨a, rfl, h⟩

/-- An entry in use is passed over together with the long-name entries before it. -/
theorem passed_over (hlive : ¬ fat32DirentFree d) (h : fat32DirFilename d rest = .ok (name, cnt)) :
    ∃ pre e tl, d :: rest = pre ++ e :: tl ∧ (∀ l ∈ pre, l.IsLong) ∧
      (d :: rest).getD cnt d = e ∧ rest.drop cnt = tl ∧ (pre = [] → e.Live) := by
  by_cases hcopies : CopiesLongName d rest
  · obtain ⟨-, hlong, e, tl, hdrop, -⟩ := hcopies
    rcases fat32DirFilename_ok h with ⟨hshort, -⟩ | ⟨-, rfl, -⟩
    · exact absurd hlong hshort
    · have hsplit : rest = rest.takeWhile (·.IsLong) ++ e :: tl := by
        rw [← hdrop, List.takeWhile_append_dropWhile]
      refine ⟨lfnGroup d rest, e, tl, ?_, lfnGroup_long hlong, ?_, ?_, by simp [lfnGroup]⟩
      · unfold lfnGroup
        rw [List.cons_append, ← hsplit]
      · have hget : (lfnGroup d rest ++ e :: tl).getD (lfnGroup d rest).length d = e := by simp
        rwa [lfnGroup, List.cons_append, ← hsplit] at hget
      · have hdropped : (rest.takeWhile (·.IsLong) ++ e :: tl).drop (lfnGroup d rest).length = tl := by
          simp [lfnGroup]
        rwa [← hsplit] at hdropped
  · rcases fat32DirFilename_other hcopies with ⟨msg, hpanic⟩ | ⟨hshort, hok⟩
    · rw [hpanic] at h
      cases h
    · rw [hok] at h
      cases h
      exact ⟨[], d, rest, rfl, by simp, rfl, rfl, fun _ => ⟨hlive, hshort⟩⟩

theorem filter_live_long {pre : List Fat32Dir} (h : ∀ l ∈ pre, l.IsLong) :
    pre.filter (·.Live) = [] := by
  rw [List.filter_eq_nil_iff]
  intro l hl
  simp [Fat32Dir.Live, h l hl]

/-- The fill pass makes a dirent for every live short entry, in order, and for none twice; it
may make others, but never more than `n` in all. -/
theorem fillDirents_ok (h : fillDirents n dirs ents = .ok out) :
    ∃ new filled, out = dirs ++ new ∧ List.Forall₂ Carries new filled ∧
      (ents.filter (·.Live)).Sublist filled ∧ (new = [] ∨ out.length ≤ n) := by
  induction dirs, ents using fillDirents.induct with
  | case1 dirs =>
    unfold fillDirents at h
    cases h
    exact ⟨[], [], by simp, .nil, by simp, .inl rfl⟩
  | case2 dirs e tl hfree ih =>
    rw [fillDirents, if_pos hfree] at h
    have hskip : ¬ e.Live := fun hlive => hlive.1 hfree
    obtain ⟨new, filled, hout, hcarries, hsub, hlen⟩ := ih h
    exact ⟨new, filled, hout, hcarries, by simpa [hskip] using hsub, hlen⟩
  | case3 dirs d rest hlive ih =>
    rw [fillDirents, if_neg hlive] at h
    obtain ⟨_, hcheck, h⟩ := except_bind_ok h
    obtain ⟨⟨name, cnt⟩, hname, h⟩ := except_bind_ok h
    obtain ⟨pre, e, tl, hsplit, hpre, hget, hdrop, -⟩ := passed_over hlive hname
    obtain ⟨new, filled, hout, hcarries, hsub, hlen⟩ := ih name cnt h
    rw [hget] at hout
    rw [hdrop] at hsub
    refine ⟨direntOf name e :: new, e :: filled, ?_, .cons (carries_direntOf name e) hcarries, ?_, ?_⟩
    · rw [hout, List.append_assoc, List.singleton_append]
    · rw [hsplit, List.filter_append, filter_live_long hpre, List.nil_append]
      by_cases he : e.Live
      · simpa [he] using hsub
      · simpa [he] using hsub.cons e
    · right
      rcases hlen with rfl | hlen
      · have hroom := check_ok hcheck
        rw [hout]
        simpa using hroom
      · exact hlen

/-- When the fill pass has room for what the count pass found, both find the same entries. -/
theorem fillDirents_carries (h : fillDirents (fat32DirCntEntries ents) [] ents = .ok dirs) :
    fat32DirCntEntries ents = (ents.filter (·.Live)).length ∧
      dirs.length = fat32DirCntEntries ents ∧ List.Forall₂ Carries dirs (ents.filter (·.Live)) := by
  obtain ⟨new, filled, hout, hcarries, hsub, hlen⟩ := fillDirents_ok h
  rw [List.nil_append] at hout
  subst hout
  have hcount : fat32DirCntEntries ents = (ents.filter (·.Live)).length :=
    List.countP_eq_length_filter
  have hsame : ents.filter (·.Live) = filled := by
    apply hsub.eq_of_length_le
    rw [← hcarries.length_eq]
    rcases hlen with rfl | hlen
    · simp
    · rwa [hcount] at hlen
  rw [← hsame] at hcarries
  exact ⟨hcount, by rw [hcount]; exact hcarries.length_eq, hcarries⟩

/-- Both passes find the same entries. -/
theorem fat32ToDirent_live (ents : List Fat32Dir) (p : PiDir) (h : fat32ToDirent ents = .ok p) :
    p.n = (ents.filter (·.Live)).length ∧ p.dirs.length = p.n ∧
      List.Forall₂ Carries p.dirs (ents.filter (·.Live)) := by
  unfold fat32ToDirent at h
  obtain ⟨dirs, hfill, h⟩ := except_bind_ok h
  cases h
  exact fillDirents_carries hfill

/-- A deleted file, a file with a long name and the end of the directory. -/
def menuDir : List Fat32Dir :=
  [fun i => if i = 0 then 0xe5 else 0x20] ++ menuEntries ++ [archiveEntry, fun _ => 0]

theorem menuDir_dirents :
    fat32ToDirent menuDir = .ok ⟨[direntOf (utf8Name menuName) archiveEntry], 1⟩ := by
  decide +kernel

theorem fat32ToDirent_live_menu :
    1 = (menuDir.filter (·.Live)).length ∧
      [direntOf (utf8Name menuName) archiveEntry].length = 1 ∧
      List.Forall₂ Carries [direntOf (utf8Name menuName) archiveEntry] (menuDir.filter (·.Live)) :=
  fat32ToDirent_live menuDir ⟨[direntOf (utf8Name menuName) archiveEntry], 1⟩ menuDir_dirents

/-- Each live long-name entry has a live short entry behind it, with long-name entries only in
between. -/
def Grouped (ents : List Fat32Dir) : Prop :=
  ∀ d rest, d :: rest <:+ ents → d.IsLong → ¬ fat32DirentFree d →
    ∃ e tl, rest.dropWhile (·.IsLong) = e :: tl ∧ e.Live

/-- The long names fit their buffers. -/
def NamesFit (ents : List Fat32Dir) : Prop :=
  ∀ d rest, d :: rest <:+ ents → d.IsLong → ¬ fat32DirentFree d →
    ((lfnUnits (lfnGroup d rest)).map unitBytes).sum < maxName

/-- Every live short entry is a directory, marked for the archive or the volume's label; with a
long name, it is not the label alone. -/
structure KindsMarked (ents : List Fat32Dir) : Prop where
  short : ∀ e ∈ ents, e.Live →
    isAttr e.attr fat32Dir ∨ isAttr e.attr fat32Archive ∨ isAttr e.attr fat32VolumeLabel
  named : ∀ d rest, d :: rest <:+ ents → d.IsLong → ¬ fat32DirentFree d →
    ∀ e tl, rest.dropWhile (·.IsLong) = e :: tl → isAttr e.attr fat32Dir ∨ isAttr e.attr fat32Archive

/-- In such a directory every entry in use has a name. -/
theorem fat32DirFilename_named (hsuffix : d :: rest <:+ ents) (hgroup : Grouped ents)
    (hfit : NamesFit ents) (hkind : KindsMarked ents) (hlive : ¬ fat32DirentFree d) :
    ∃ name cnt, fat32DirFilename d rest = .ok (name, cnt) := by
  by_cases hlong : d.IsLong
  · obtain ⟨e, tl, hdrop, -⟩ := hgroup d rest hsuffix hlong hlive
    have hcopies : CopiesLongName d rest :=
      ⟨hlive, hlong, e, tl, hdrop, hkind.named d rest hsuffix hlong hlive e tl hdrop⟩
    rw [fat32DirFilename_long hcopies,
      copied_name (lfnGroup_long hlong) (hfit d rest hsuffix hlong hlive)]
    exact ⟨_, _, rfl⟩
  · have hattr := hkind.short d (hsuffix.subset (by simp)) ⟨hlive, hlong⟩
    refine ⟨shortName d, 0, ?_⟩
    unfold fat32DirFilename check
    rw [if_pos hlive]
    change (if d.IsLong then _ else _) = _
    rw [if_neg hlong, if_pos hattr]
    rfl

/-- An entry in use stands for a live short entry. -/
theorem passed_over_live (hsuffix : d :: rest <:+ ents) (hgroup : Grouped ents)
    (hlive : ¬ fat32DirentFree d) (h : fat32DirFilename d rest = .ok (name, cnt)) :
    ((d :: rest).filter (·.Live)).length = ((rest.drop cnt).filter (·.Live)).length + 1 := by
  rcases fat32DirFilename_ok h with ⟨hshort, rfl, -⟩ | ⟨hlong, rfl, -⟩
  · have hd : d.Live := ⟨hlive, hshort⟩
    simp [hd]
  · obtain ⟨e, tl, hdrop, he⟩ := hgroup d rest hsuffix hlong hlive
    have hsplit : d :: rest = lfnGroup d rest ++ e :: tl := by
      unfold lfnGroup
      rw [← hdrop, List.cons_append, List.takeWhile_append_dropWhile]
    have htail : rest.drop (lfnGroup d rest).length = tl := by
      have hdropped : (d :: rest).drop ((lfnGroup d rest).length + 1) = tl := by
        rw [hsplit]
        simp
      rwa [List.drop_succ_cons] at hdropped
    rw [htail, hsplit, List.filter_append, filter_live_long (lfnGroup_long hlong)]
    simp [he]

theorem fillDirents_lists {l : List Fat32Dir} (hsuffix : l <:+ ents) (hgroup : Grouped ents)
    (hfit : NamesFit ents) (hkind : KindsMarked ents)
    (hroom : dirs.length + (l.filter (·.Live)).length ≤ n) : ∃ out, fillDirents n dirs l = .ok out := by
  induction dirs, l using fillDirents.induct with
  | case1 dirs =>
    unfold fillDirents
    exact ⟨dirs, rfl⟩
  | case2 dirs e tl hfree ih =>
    have hskip : ¬ e.Live := fun hlive => hlive.1 hfree
    have hfilter : (e :: tl).filter (·.Live) = tl.filter (·.Live) := by simp [hskip]
    rw [hfilter] at hroom
    rw [fillDirents, if_pos hfree]
    exact ih ((List.suffix_cons e tl).trans hsuffix) hroom
  | case3 dirs d rest hlive ih =>
    obtain ⟨name, cnt, hname⟩ := fat32DirFilename_named hsuffix hgroup hfit hkind hlive
    have hcount := passed_over_live hsuffix hgroup hlive hname
    have hdrop : rest.drop cnt <:+ ents :=
      (List.drop_suffix cnt rest).trans ((List.suffix_cons d rest).trans hsuffix)
    obtain ⟨out, hout⟩ := ih name cnt hdrop (by simp; omega)
    have hcheck : check (dirs.length + 1 ≤ n) "used <= p.n" = .ok () := if_pos (by omega)
    refine ⟨out, ?_⟩
    rw [fillDirents, if_neg hlive, hcheck, hname]
    exact hout

/-- Directories whose files are all marked list without a panic: one dirent for each live short
entry, in order, and none for any other. -/
theorem fat32ToDirent_lists (ents : List Fat32Dir) (hgroup : Grouped ents) (hfit : NamesFit ents)
    (hkind : KindsMarked ents) :
    ∃ p, fat32ToDirent ents = .ok p ∧ p.n = (ents.filter (·.Live)).length ∧ p.dirs.length = p.n ∧
      List.Forall₂ Carries p.dirs (ents.filter (·.Live)) := by
  have hcount : fat32DirCntEntries ents = (ents.filter (·.Live)).length :=
    List.countP_eq_length_filter
  have hroom : ([] : List Dirent).length + (ents.filter (·.Live)).length ≤ fat32DirCntEntries ents := by
    simp [hcount]
  obtain ⟨dirs, hfill⟩ := fillDirents_lists List.suffix_rfl hgroup hfit hkind hroom
  refine ⟨⟨dirs, fat32DirCntEntries ents⟩, ?_, fillDirents_carries hfill⟩
  unfold fat32ToDirent
  dsimp only
  rw [hfill]
  rfl

theorem suffix_cons_forall {α : Type} {P : α → List α → Prop} {a : α} {l : List α} (ha : P a l)
    (hl : ∀ d rest, d :: rest <:+ l → P d rest) : ∀ d rest, d :: rest <:+ a :: l → P d rest := by
  intro d rest h
  rcases List.suffix_cons_iff.mp h with heq | h
  · cases heq
    exact ha
  · exact hl d rest h

theorem suffix_nil_forall {α : Type} {P : α → List α → Prop} :
    ∀ d rest, d :: rest <:+ [] → P d rest := by
  intro d rest h
  simp at h

theorem fat32ToDirent_lists_menu :
    ∃ p, fat32ToDirent menuDir = .ok p ∧ p.n = (menuDir.filter (·.Live)).length ∧
      p.dirs.length = p.n ∧ List.Forall₂ Carries p.dirs (menuDir.filter (·.Live)) := by
  have hgroup : Grouped menuDir := by
    refine suffix_cons_forall (fun hlong => absurd hlong (by decide)) (suffix_cons_forall ?_
      (suffix_cons_forall ?_ (suffix_cons_forall (fun hlong => absurd hlong (by decide))
        (suffix_cons_forall (fun hlong => absurd hlong (by decide)) suffix_nil_forall))))
    · exact fun _ _ => ⟨archiveEntry, [fun _ => 0], rfl, by decide⟩
    · exact fun _ _ => ⟨archiveEntry, [fun _ => 0], rfl, by decide⟩
  have hfit : NamesFit menuDir :=
    suffix_cons_forall (by decide) (suffix_cons_forall (by decide) (suffix_cons_forall (by decide)
      (suffix_cons_forall (by decide) (suffix_cons_forall (by decide) suffix_nil_forall))))
  have hshort : menuDir.all (fun e => e.Live → isAttr e.attr fat32Dir ∨ isAttr e.attr fat32Archive ∨
      isAttr e.attr fat32VolumeLabel) = true := by decide
  have harchive : ∀ {l : List Fat32Dir} e tl, l = archiveEntry :: [fun _ => 0] → l = e :: tl →
      isAttr e.attr fat32Dir ∨ isAttr e.attr fat32Archive := by
    intro l e tl hl hsplit
    obtain ⟨rfl, -⟩ := List.cons.inj (hl.symm.trans hsplit)
    decide
  have hnamed : ∀ d rest, d :: rest <:+ menuDir → d.IsLong → ¬ fat32DirentFree d →
      ∀ e tl, rest.dropWhile (·.IsLong) = e :: tl →
        isAttr e.attr fat32Dir ∨ isAttr e.attr fat32Archive := by
    refine suffix_cons_forall (fun hlong => absurd hlong (by decide)) (suffix_cons_forall ?_
      (suffix_cons_forall ?_ (suffix_cons_forall (fun hlong => absurd hlong (by decide))
        (suffix_cons_forall (fun hlong => absurd hlong (by decide)) suffix_nil_forall))))
    · exact fun _ _ e tl => harchive e tl rfl
    · exact fun _ _ e tl => harchive e tl rfl
  exact fat32ToDirent_lists menuDir hgroup hfit ⟨by simpa [imp_iff_not_or] using hshort, hnamed⟩

/-- A file with no bit set, as left by a program that has saved its archive bit. -/
def plainEntry : Fat32Dir := fun i => if i = 11 then 0 else 0x41

theorem plain_file_panics :
    ¬ ∀ ents, Grouped ents → (∀ e ∈ ents, e.Live → e.attr &&& 0xc8 = 0) →
      ∃ p, fat32ToDirent ents = .ok p ∧ p.dirs.length = (ents.filter (·.Live)).length := by
  intro h
  have hgroup : Grouped [plainEntry] :=
    suffix_cons_forall (fun hlong => absurd hlong (by decide)) suffix_nil_forall
  obtain ⟨p, hp, -⟩ := h [plainEntry] hgroup (by simp [plainEntry, Fat32Dir.attr])
  have hpanic : fat32ToDirent [plainEntry] = .error (.panic
      "is_attr(x, FAT32_DIR) || is_attr(x, FAT32_ARCHIVE) || is_attr(x, FAT32_VOLUME_LABEL)") := by
    decide +kernel
  rw [hpanic] at hp
  cases hp

end Fill

section Short
variable {d : Fat32Dir} {base ext : List UInt8}

/-- The entry's 11 bytes are a name and an extension, each filled up with spaces. -/
structure ShortEntry (d : Fat32Dir) (base ext : List UInt8) : Prop where
  live : d.Live
  baseField : d.filename.take 8 = base ++ List.replicate (8 - base.length) 0x20
  extField : d.filename.drop 8 = ext ++ List.replicate (3 - ext.length) 0x20
  base_last : ∀ c, base.getLast? = some c → c ≠ 0x20
  ext_last : ∀ c, ext.getLast? = some c → c ≠ 0x20
  chars : ∀ c ∈ base ++ ext, c ≠ 0

/-- The usual spelling of a short name. -/
def conventionalName (d : Fat32Dir) (base ext : List UInt8) : List UInt8 :=
  (base ++ if ext = [] then [] else 0x2e :: ext).map (lowerCase (d.reserved0 = 0x18))

/-- The name of the entry is the usual one, and a directory that has no other entry of that
name before finds it. -/
def NamedConventionally (d : Fat32Dir) (base ext name : List UInt8) : Prop :=
  name = conventionalName d base ext ∧ ∀ before after,
    (∀ de ∈ before, de.name ≠ conventionalName d base ext) →
    dirLookup (before ++ direntOf name d :: after) (conventionalName d base ext) =
      some (direntOf name d)

theorem lowerCase_ne_zero {b : Bool} {c : UInt8} (h : c ≠ 0) : lowerCase b c ≠ 0 := by
  unfold lowerCase
  split
  · next hup =>
    obtain ⟨-, hlo, hhi⟩ := hup
    rw [UInt8.le_iff_toNat_le] at hlo hhi
    intro hzero
    have hnat := congrArg UInt8.toNat hzero
    rw [UInt8.toNat_add] at hnat
    change (c.toNat + 32) % 256 = 0 at hnat
    change 65 ≤ c.toNat at hlo
    change c.toNat ≤ 90 at hhi
    omega
  · exact h

theorem lowerCase_space {b : Bool} {c : UInt8} : lowerCase b c = 0x20 ↔ c = 0x20 := by
  unfold lowerCase
  split
  · next hup =>
    obtain ⟨-, hlo, hhi⟩ := hup
    rw [UInt8.le_iff_toNat_le] at hlo hhi
    rw [← UInt8.toNat_inj, ← UInt8.toNat_inj, UInt8.toNat_add]
    change (c.toNat + 32) % 256 = 32 ↔ c.toNat = 32
    change 65 ≤ c.toNat at hlo
    change c.toNat ≤ 90 at hhi
    omega
  · rfl

theorem cString_eq {buf : List UInt8} (h : ∀ c ∈ buf, c ≠ 0) : cString buf = buf := by
  unfold cString
  rw [List.takeWhile_eq_self_iff]
  simpa using h

theorem shortName_eq (h : ShortEntry d base ext) : shortName d =
    (base.filter (· ≠ 0x20)).map (lowerCase (d.reserved0 = 0x18)) ++
      (0x2e :: ext.map (lowerCase (d.reserved0 = 0x18))) ++ List.replicate (3 - ext.length) 0x20 := by
  have hspace : ∀ n, (List.replicate n (0x20 : UInt8)).map (lowerCase (d.reserved0 = 0x18)) =
      List.replicate n 0x20 := by
    intro n
    rw [List.map_replicate, lowerCase_space.mpr rfl]
  have hfilter : (d.filename.take 8).filter (· ≠ 0x20) = base.filter (· ≠ 0x20) := by
    rw [h.baseField, List.filter_append]
    simp
  unfold shortName
  dsimp only
  rw [hfilter, h.extField, List.map_append, hspace, cString_eq]
  · simp
  · intro c hc
    simp only [List.mem_append, List.mem_map, List.mem_singleton, List.mem_replicate] at hc
    rcases hc with (⟨b, hb, rfl⟩ | rfl) | ⟨b, hb, rfl⟩ | ⟨-, rfl⟩
    · exact lowerCase_ne_zero (h.chars b (List.mem_append_left _ (List.mem_of_mem_filter hb)))
    · decide
    · exact lowerCase_ne_zero (h.chars b (List.mem_append_right _ hb))
    · decide

theorem conventionalName_last (h : ShortEntry d base ext) {c : UInt8}
    (hc : (conventionalName d base ext).getLast? = some c) : c ≠ 0x20 := by
  unfold conventionalName at hc
  rw [List.getLast?_map, Option.map_eq_some_iff] at hc
  obtain ⟨b, hb, rfl⟩ := hc
  intro hspace
  rw [lowerCase_space] at hspace
  subst hspace
  by_cases hext : ext = []
  · rw [if_pos hext, List.append_nil] at hb
    exact h.base_last _ hb rfl
  · rw [if_neg hext, List.getLast?_append_of_ne_nil _ (by simp)] at hb
    obtain ⟨x, xs, rfl⟩ := List.exists_cons_of_ne_nil hext
    rw [List.getLast?_cons_cons] at hb
    exact h.ext_last _ hb rfl

theorem ext_length (h : ShortEntry d base ext) : ext.length ≤ 3 := by
  have hlen := congrArg List.length h.extField
  rw [List.length_append, List.length_replicate] at hlen
  change 3 = _ at hlen
  omega

/-- The short name is the usual one for an extension of three letters and a base without
spaces. -/
theorem shortName_eq_conventional_iff (h : ShortEntry d base ext) :
    shortName d = conventionalName d base ext ↔ ext.length = 3 ∧ 0x20 ∉ base := by
  have hle := ext_length h
  constructor
  · intro heq
    have hext : ext.length = 3 := by
      by_contra hne
      obtain ⟨k, hk⟩ : ∃ k, 3 - ext.length = k + 1 := ⟨2 - ext.length, by omega⟩
      have hlast : (shortName d).getLast? = some 0x20 := by
        rw [shortName_eq h, hk, List.replicate_succ', ← List.append_assoc, List.getLast?_concat]
      exact conventionalName_last h (heq ▸ hlast) rfl
    refine ⟨hext, ?_⟩
    have hne : ext ≠ [] := by
      rintro rfl
      simp at hext
    have hdot : lowerCase (d.reserved0 = 0x18) 0x2e = 0x2e := by
      unfold lowerCase
      simp
    rw [shortName_eq h, hext, Nat.sub_self, List.replicate_zero, List.append_nil] at heq
    unfold conventionalName at heq
    rw [if_neg hne, List.map_append, List.map_cons, hdot, List.append_cancel_right_eq] at heq
    have hlen := congrArg List.length heq
    rw [List.length_map, List.length_map] at hlen
    have hall := List.length_filter_eq_length_iff.mp hlen
    intro hmem
    simpa using hall 0x20 hmem
  · rintro ⟨hext, hbase⟩
    have hne : ext ≠ [] := by
      rintro rfl
      simp at hext
    have hfilter : base.filter (· ≠ 0x20) = base := by
      rw [List.filter_eq_self]
      intro c hc
      have hspace : c ≠ 0x20 := fun heq => hbase (heq ▸ hc)
      simpa using hspace
    have hdot : lowerCase (d.reserved0 = 0x18) 0x2e = 0x2e := by
      unfold lowerCase
      simp
    rw [shortName_eq h, hext, Nat.sub_self, List.replicate_zero, List.append_nil, hfilter]
    unfold conventionalName
    rw [if_neg hne, List.map_append, List.map_cons, hdot]

/-- The name that is produced for a short entry is the usual one, and finds it, exactly when
nothing of the extension is padding and no space is inside the base. -/
theorem short_name_conventional_iff (d : Fat32Dir) (rest : List Fat32Dir) (base ext name : List UInt8)
    (cnt : ℕ) (h : ShortEntry d base ext) (hname : fat32DirFilename d rest = .ok (name, cnt)) :
    NamedConventionally d base ext name ↔ ext.length = 3 ∧ 0x20 ∉ base := by
  have hshort : name = shortName d := by
    rcases fat32DirFilename_ok hname with ⟨-, -, hn⟩ | ⟨hlong, -, -⟩
    · exact hn
    · exact absurd hlong h.live.2
  rw [← shortName_eq_conventional_iff h, ← hshort]
  constructor
  · exact fun hn => hn.1
  · intro hn
    refine ⟨hn, ?_⟩
    intro before after hbefore
    unfold dirLookup
    rw [List.find?_append, List.find?_eq_none.mpr (by simpa using hbefore), Option.none_or,
      List.find?_cons_of_pos]
    simpa [direntOf] using hn

/-- `README.TXT`, marked for the archive. -/
def readmeEntry : Fat32Dir := fun i =>
  ([0x52, 0x45, 0x41, 0x44, 0x4D, 0x45, 0x20, 0x20, 0x54, 0x58, 0x54, 0x20] : List UInt8).getD i 0

theorem short_name_conventional_readme :
    NamedConventionally readmeEntry [0x52, 0x45, 0x41, 0x44, 0x4D, 0x45] [0x54, 0x58, 0x54]
      [0x52, 0x45, 0x41, 0x44, 0x4D, 0x45, 0x2e, 0x54, 0x58, 0x54] ↔
    [(0x54 : UInt8), 0x58, 0x54].length = 3 ∧
      (0x20 : UInt8) ∉ [0x52, 0x45, 0x41, 0x44, 0x4D, 0x45] :=
  short_name_conventional_iff readmeEntry [] _ _ _ 0
    ⟨by decide, by decide, by decide, by simp, by simp, by simp⟩ (by decide)

/-- The directory `BIN`. -/
def binEntry : Fat32Dir := fun i =>
  ([0x42, 0x49, 0x4E, 0x20, 0x20, 0x20, 0x20, 0x20, 0x20, 0x20, 0x20, 0x10] : List UInt8).getD i 0

theorem directory_name_has_dot :
    ¬ ∀ d rest base ext name cnt, ShortEntry d base ext →
      fat32DirFilename d rest = .ok (name, cnt) → NamedConventionally d base ext name := by
  intro h
  have hbin : ShortEntry binEntry [0x42, 0x49, 0x4E] [] :=
    ⟨by decide, by decide, by decide, by simp, by simp, by simp⟩
  have hname := (h binEntry [] _ _ [0x42, 0x49, 0x4E, 0x2e, 0x20, 0x20, 0x20] 0 hbin (by decide)).1
  exact absurd hname (by decide)

end Short
end SimplePiOS.Kernel
