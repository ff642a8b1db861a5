import SimplePiOS.Lib.Runs
import SimplePiOS.Shell.Framing

/-! The line splitter of the Unix-side shell. A pointer into `buf` is its offset; an access outside
the buffer stops the program. -/
namespace SimplePiOS.Shell
open Lib.Runs Libpi

instance : DecidablePred isSpace := fun c => inferInstanceAs (Decidable (c = 32 ∨ 9 ≤ c ∧ c ≤ 13))

inductive Halt where
  | outOfBounds
  | assertFailed
  | panicked (text : List Byte)
  deriving DecidableEq

section Code

/-- The loop of `skip_space`, on what the buffer holds from `p` on. -/
def skipSpaceFrom : List Byte → ℕ → Except Halt (Option ℕ)
  | [], _ => .error .outOfBounds
  | c :: cs, p =>
    if c ≠ 0 ∧ isSpace c then skipSpaceFrom cs (p + 1)
    else .ok (if c = 0 then none else some p)

def skipSpace (buf : List Byte) (p : ℕ) : Except Halt (Option ℕ) := skipSpaceFrom (buf.drop p) p

/-- The loop of `skip_nonspace`. The code only asks whether `n` is zero. -/
def skipNonspaceFrom : List Byte → ℕ → ℕ → Except Halt (Option ℕ)
  | [], _, _ => .error .outOfBounds
  | c :: cs, p, n =>
    if c ≠ 0 ∧ ¬ isSpace c then skipNonspaceFrom cs (p + 1) (n + 1)
    else .ok (if n = 0 then none else some p)

def skipNonspace (buf : List Byte) (p : ℕ) : Except Halt (Option ℕ) :=
  skipNonspaceFrom (buf.drop p) p 0

def store (buf : List Byte) (p : ℕ) (c : Byte) : Except Halt (List Byte) :=
  if p < buf.length then .ok (buf.set p c) else .error .outOfBounds

/-- What `%s` prints. -/
def readString : List Byte → Except Halt (List Byte)
  | [] => .error .outOfBounds
  | c :: cs => if c = 0 then .ok [] else (c :: ·) <$> readString cs

abbrev Argv := ℕ → Option ℕ

/-- The loop of `tokenize` with `left` turns to go. -/
def tokenizeLoop (argv : Argv) (buf : List Byte) (i p : ℕ) :
    ℕ → Except Halt (ℕ × Argv × List Byte)
  | 0 => do
    let text ← readString buf
    .error (.panicked text)
  | left + 1 => do
    match ← skipSpace buf p with
    | none => return (i, Function.update argv i none, buf)
    | some p =>
      let argv := Function.update argv i (some p)
      match ← skipNonspace buf p with
      | none => .error .assertFailed
      | some p =>
        let buf ← store buf p 0
        tokenizeLoop argv buf (i + 1) (p + 1) left

def tokenize (argv : Argv) (maxArgs : ℕ) (buf : List Byte) : Except Halt (ℕ × Argv × List Byte) :=
  tokenizeLoop argv buf 0 0 (maxArgs - 1)

end Code

section Scans

variable {p n : ℕ} {c : Byte} {rest : List Byte}

theorem isSpace_ne_zero (h : isSpace c) : c ≠ 0 := by
  rintro rfl
  revert h
  decide

theorem skipSpaceFrom_zero {spaces : List Byte} (hspaces : ∀ c ∈ spaces, isSpace c) :
    skipSpaceFrom (spaces ++ 0 :: rest) p = .ok none := by
  induction spaces generalizing p with
  | nil => rfl
  | cons c cs ih =>
    obtain ⟨hc, hcs⟩ := List.forall_mem_cons.mp hspaces
    rw [List.cons_append, skipSpaceFrom, if_pos ⟨isSpace_ne_zero hc, hc⟩, ih hcs]

theorem skipSpaceFrom_word {spaces : List Byte} (hspaces : ∀ c ∈ spaces, isSpace c)
    (hne : c ≠ 0) (hc : ¬ isSpace c) :
    skipSpaceFrom (spaces ++ c :: rest) p = .ok (some (p + spaces.length)) := by
  induction spaces generalizing p with
  | nil => rw [List.nil_append, skipSpaceFrom, if_neg fun h => hc h.2, if_neg hne]; rfl
  | cons d ds ih =>
    obtain ⟨hd, hds⟩ := List.forall_mem_cons.mp hspaces
    rw [List.cons_append, skipSpaceFrom, if_pos ⟨isSpace_ne_zero hd, hd⟩, ih hds, List.length_cons]
    simp [Nat.add_assoc, Nat.add_comm 1]

theorem skipNonspaceFrom_word {word : List Byte} (hnul : 0 ∉ word) (hword : ∀ c ∈ word, ¬ isSpace c)
    (hc : c = 0 ∨ isSpace c) : skipNonspaceFrom (word ++ c :: rest) p n =
      .ok (if n + word.length = 0 then none else some (p + word.length)) := by
  induction word generalizing p n with
  | nil =>
    rw [List.nil_append, skipNonspaceFrom, if_neg fun h => hc.elim h.1 h.2]
    rfl
  | cons d ds ih =>
    obtain ⟨hd, hds⟩ := List.forall_mem_cons.mp hword
    obtain ⟨hne, hnul⟩ := not_or.mp (List.mem_cons.not.mp hnul)
    rw [List.cons_append, skipNonspaceFrom, if_pos ⟨fun h => hne h.symm, hd⟩, ih hnul hds]
    simp [Nat.add_assoc, Nat.add_comm 1]

theorem readString_of_mem {buf : List Byte} (h : 0 ∈ buf) : readString buf = .ok (cString buf) := by
  induction buf with
  | nil => simp at h
  | cons c cs ih =>
    by_cases hc : c = 0
    · simp [readString, cString, hc]
    · have hmem : 0 ∈ cs := (List.mem_cons.mp h).resolve_left fun h => hc h.symm
      have htake : cString (c :: cs) = c :: cString cs :=
        List.takeWhile_cons_of_pos (by simpa using hc)
      rw [readString, if_neg hc, ih hmem, htake]
      rfl

end Scans

section Loop

/-- `argv` with the starts of the runs from entry `i` on. -/
def place (argv : Argv) (i : ℕ) : List (ℕ × ℕ) → Argv
  | [] => argv
  | r :: rs => place (Function.update argv i (some r.1)) (i + 1) rs

/-- The buffer with a NUL after each run. -/
def cut (buf : List Byte) : List (ℕ × ℕ) → List Byte
  | [] => buf
  | r :: rs => cut (buf.set r.2 0) rs

/-- One turn of the loop at a run: its start goes to `argv`, a NUL to its end, and the pointer to the
character after that. -/
theorem tokenizeLoop_word (argv : Argv) (i left : ℕ) {buf spaces word rest : List Byte} {c : Byte}
    {p : ℕ} (hbuf : buf.drop p = spaces ++ (word ++ c :: rest)) (hspaces : ∀ c ∈ spaces, isSpace c)
    (hne : word ≠ []) (hnul : 0 ∉ word) (hword : ∀ c ∈ word, ¬ isSpace c) (hc : c = 0 ∨ isSpace c) :
    tokenizeLoop argv buf i p (left + 1) =
      tokenizeLoop (Function.update argv i (some (p + spaces.length)))
        (buf.set (p + spaces.length + word.length) 0) (i + 1) (p + spaces.length + word.length + 1)
        left := by
  have hskip : skipSpace buf p = .ok (some (p + spaces.length)) := by
    obtain ⟨d, ds, rfl⟩ := List.exists_cons_of_ne_nil hne
    rw [skipSpace, hbuf]
    exact skipSpaceFrom_word hspaces (fun h => hnul (h ▸ List.mem_cons_self))
      (hword d List.mem_cons_self)
  have hfrom : buf.drop (p + spaces.length) = word ++ c :: rest := by
    rw [← List.drop_drop, hbuf, List.drop_left]
  have hpast : skipNonspace buf (p + spaces.length) =
      .ok (some (p + spaces.length + word.length)) := by
    rw [skipNonspace, hfrom, skipNonspaceFrom_word hnul hword hc,
      if_neg (by simpa using hne)]
  have hstore : store buf (p + spaces.length + word.length) 0 =
      .ok (buf.set (p + spaces.length + word.length) 0) := by
    have hlen := congrArg List.length hfrom
    simp only [List.length_drop, List.length_append, List.length_cons] at hlen
    rw [store, if_pos (by omega)]
  simp only [tokenizeLoop, hskip, hpast, hstore, bind, Except.bind]

/-- What the buffer holds after the end of a run: the rest of the line, if any, and a NUL. -/
theorem drop_after {buf after tail : List Byte} {p : ℕ} (hbuf : buf.drop p = after ++ 0 :: tail)
    (htail : tail.head? = some 0) : ∃ tail', (buf.set p 0).drop (p + 1) = after.tail ++ 0 :: tail' ∧
      (after.tail ≠ [] → tail'.head? = some 0) := by
  have hdrop : (buf.set p 0).drop (p + 1) = (after ++ 0 :: tail).tail := by
    rw [List.drop_set_of_lt (by omega : p < p + 1), ← List.drop_drop, hbuf, List.drop_one]
  rw [hdrop]
  cases after with
  | nil =>
    obtain ⟨t, ht⟩ := List.head?_eq_some_iff.mp htail
    exact ⟨t, by simp [ht], by simp⟩
  | cons c cs => exact ⟨tail, rfl, fun _ => htail⟩

/-- The loop from position `p`, where the buffer holds `cs` and the NUL that ends the line; if there
is anything of the line left, one more NUL follows. -/
theorem tokenizeLoop_eq (left : ℕ) (argv : Argv) (i : ℕ) {buf cs tail : List Byte} {p : ℕ}
    (hbuf : buf.drop p = cs ++ 0 :: tail) (hnul : 0 ∉ cs) (htail : cs ≠ [] → tail.head? = some 0) :
    tokenizeLoop argv buf i p left =
      let rs := runsFrom isSpace none p cs
      if rs.length < left then
        .ok (i + rs.length,
          Function.update (place argv i rs) (i + rs.length) none, cut buf rs)
      else .error (.panicked (cString (cut buf (rs.take left)))) := by
  induction left generalizing argv buf cs tail i p with
  | zero =>
    have hmem : 0 ∈ buf := List.mem_of_mem_drop (hbuf ▸ by simp : 0 ∈ buf.drop p)
    simp [tokenizeLoop, readString_of_mem hmem, cut, bind, Except.bind]
  | succ left ih =>
    cases hruns : runsFrom isSpace none p cs with
    | nil =>
      have hskip : skipSpace buf p = .ok none := by
        rw [skipSpace, hbuf, skipSpaceFrom_zero (runsFrom_nil hruns)]
      simp only [tokenizeLoop, hskip]
      simp [place, cut, bind, Except.bind, pure, Except.pure]
    | cons r rs =>
      obtain ⟨spaces, word, after, rfl, hspaces, hne, hword, hafter, rfl, rfl⟩ := runsFrom_cons hruns
      have hline : spaces ++ (word ++ after) ≠ [] := by simp [hne]
      simp only [List.mem_append, not_or] at hnul
      obtain ⟨-, hnulWord, hnulAfter⟩ := hnul
      have hend : buf.drop (p + spaces.length + word.length) = after ++ 0 :: tail := by
        rw [← List.drop_drop, ← List.drop_drop, hbuf]
        simp
      obtain ⟨tail', hdrop, htail'⟩ := drop_after hend (htail hline)
      obtain ⟨c, rest, hcons, hc⟩ : ∃ c rest, after ++ 0 :: tail = c :: rest ∧ (c = 0 ∨ isSpace c) := by
        cases after with
        | nil => exact ⟨0, tail, rfl, .inl rfl⟩
        | cons d ds => exact ⟨d, ds ++ 0 :: tail, rfl, .inr (hafter d rfl)⟩
      have hturn := tokenizeLoop_word argv i left (by rw [hbuf, ← hcons]; simp) hspaces hne hnulWord
        hword hc
      rw [hturn, ih _ _ hdrop (fun h => hnulAfter (List.mem_of_mem_tail h)) htail']
      simp [place, cut, Nat.add_assoc, Nat.add_comm 1]

theorem place_of_lt {argv : Argv} {rs : List (ℕ × ℕ)} {i m : ℕ} (h : m < i) :
    place argv i rs m = argv m := by
  induction rs generalizing argv i with
  | nil => rfl
  | cons s rs ih => rw [place, ih (by omega), Function.update_of_ne (by omega)]

theorem place_run (argv : Argv) {rs : List (ℕ × ℕ)} (i : ℕ) {j : ℕ} {r : ℕ × ℕ} (h : rs[j]? = some r) :
    place argv i rs (i + j) = some r.1 := by
  induction rs generalizing argv i j with
  | nil => simp at h
  | cons s rs ih =>
    cases j with
    | zero =>
      obtain rfl : s = r := by simpa using h
      rw [Nat.add_zero, place, place_of_lt (by omega), Function.update_self]
    | succ j =>
      rw [place, show i + (j + 1) = i + 1 + j by omega]
      exact ih _ _ (by simpa using h)

theorem place_of_le {argv : Argv} {rs : List (ℕ × ℕ)} {i m : ℕ} (h : i + rs.length ≤ m) :
    place argv i rs m = argv m := by
  induction rs generalizing argv i with
  | nil => rfl
  | cons s rs ih =>
    rw [List.length_cons] at h
    rw [place, ih (by omega), Function.update_of_ne (by omega)]

theorem cut_of_ne {buf : List Byte} {rs : List (ℕ × ℕ)} {q : ℕ} (h : ∀ r ∈ rs, r.2 ≠ q) :
    (cut buf rs)[q]? = buf[q]? := by
  induction rs generalizing buf with
  | nil => rfl
  | cons r rs ih =>
    obtain ⟨hr, hrs⟩ := List.forall_mem_cons.mp h
    rw [cut, ih hrs, List.getElem?_set_ne hr]

theorem cut_of_zero {buf : List Byte} {rs : List (ℕ × ℕ)} {q : ℕ} (h : buf[q]? = some 0) :
    (cut buf rs)[q]? = some 0 := by
  induction rs generalizing buf with
  | nil => exact h
  | cons r rs ih =>
    refine ih ?_
    rw [List.getElem?_set]
    split
    · rename_i heq
      rw [if_pos (heq ▸ (List.getElem?_eq_some_iff.mp h).1)]
    · exact h

theorem cut_of_mem {buf : List Byte} {rs : List (ℕ × ℕ)} {r : ℕ × ℕ} (hr : r ∈ rs)
    (hlt : r.2 < buf.length) : (cut buf rs)[r.2]? = some 0 := by
  induction rs generalizing buf with
  | nil => simp at hr
  | cons s rs ih =>
    rcases List.mem_cons.mp hr with rfl | hr
    · rw [cut]
      exact cut_of_zero (List.getElem?_set_self hlt)
    · exact ih hr (by rwa [List.length_set])

end Loop

section Tokenize

variable {argv argv' : Argv} {line buf buf' : List Byte}

/-- What `tokenize` leaves of a line: a pointer to each run, which stands in the buffer as it stood in
the line and ends with a NUL, and a null pointer after the last; nothing else has changed. -/
structure Tokenized (argv : Argv) (line buf : List Byte) (argv' : Argv) (buf' : List Byte) :
    Prop where
  start : ∀ i r, (runs isSpace line)[i]? = some r → argv' i = some r.1
  text : ∀ r ∈ runs isSpace line, ∀ q, r.1 ≤ q → q < r.2 → buf'[q]? = (line)[q]?
  nul : ∀ r ∈ runs isSpace line, buf'[r.2]? = some 0
  last : argv' (runs isSpace line).length = none
  argvRest : ∀ i, (runs isSpace line).length < i → argv' i = argv i
  bufRest : ∀ q, (∀ r ∈ runs isSpace line, r.2 ≠ q) → buf'[q]? = buf[q]?

theorem tokenized_cut (argv : Argv) (rest : List Byte) :
    Tokenized argv line (line ++ 0 :: 0 :: rest)
      (Function.update (place argv 0 (runs isSpace line)) (runs isSpace line).length none)
      (cut (line ++ 0 :: 0 :: rest) (runs isSpace line)) where
  start i r hr := by
    have hlt : i < (runs isSpace line).length := (List.getElem?_eq_some_iff.mp hr).1
    rw [Function.update_of_ne (by omega)]
    simpa using place_run argv 0 hr
  text r hr q hfirst hlast := by
    have hrun := mem_runs.mp hr
    have hlt : q < line.length := Nat.lt_of_lt_of_le hlast hrun.le
    rw [cut_of_ne, List.getElem?_append_left hlt]
    rintro s hs rfl
    -- a run ends at a space or at the end of the line, never inside another run
    have hget := List.getElem?_eq_getElem hlt
    exact hrun.noSep _ _ hfirst hlast hget ((mem_runs.mp hs).right _ hget)
  nul r hr := cut_of_mem hr (by have := (mem_runs.mp hr).le; simp; omega)
  last := Function.update_self ..
  argvRest i hi := by
    rw [Function.update_of_ne (by omega), place_of_le (by omega)]
  bufRest q hq := cut_of_ne hq

/-- `tokenize` returns the runs of a line that ends with two NULs when `argv` has room for them and the
null pointer, and panics otherwise; the buffer may end right after the second NUL. -/
theorem tokenize_words (argv : Argv) {maxArgs : ℕ} (hmax : 2 ≤ maxArgs) {line : List Byte}
    (hline : 0 ∉ line) (rest : List Byte) :
    ((runs isSpace line).length ≤ maxArgs - 2 → ∃ argv' buf',
      tokenize argv maxArgs (line ++ 0 :: 0 :: rest) =
        .ok ((runs isSpace line).length, argv', buf') ∧
      Tokenized argv line (line ++ 0 :: 0 :: rest) argv' buf') ∧
    (maxArgs - 1 ≤ (runs isSpace line).length → ∃ text,
      tokenize argv maxArgs (line ++ 0 :: 0 :: rest) = .error (.panicked text)) := by
  have hloop := tokenizeLoop_eq (maxArgs - 1) argv 0
    (show (line ++ 0 :: 0 :: rest).drop 0 = line ++ 0 :: 0 :: rest from rfl) hline fun _ => rfl
  constructor
  · intro hk
    refine ⟨_, _, ?_, tokenized_cut argv rest⟩
    rw [tokenize, hloop]
    simp only [Nat.zero_add]
    exact if_pos (show (runs isSpace line).length < maxArgs - 1 by omega)
  · intro hk
    refine ⟨cString (cut (line ++ 0 :: 0 :: rest) ((runs isSpace line).take (maxArgs - 1))), ?_⟩
    rw [tokenize, hloop]
    exact if_neg (show ¬ (runs isSpace line).length < maxArgs - 1 by omega)

theorem tokenize_words_two : ∃ argv' buf',
    tokenize (fun _ => none) 32 (lit " ls  a" ++ 0 :: 0 :: []) = .ok (2, argv', buf') ∧
      Tokenized (fun _ => none) (lit " ls  a") (lit " ls  a" ++ 0 :: 0 :: []) argv' buf' :=
  (tokenize_words (fun _ => none) (by decide) (by decide) []).1 (by decide)

end Tokenize

end SimplePiOS.Shell
