import SimplePiOS.Shell.Framing

/-! The command files of the FUSE file system: what a write to `/run.cmd` or `/echo.cmd` sends to the
Pi, and when the Pi reads it as one command. -/
namespace SimplePiOS.Fuse
open Lib Lib.Fifo Libpi Shell

section Code

/-- `fd_puts`: the characters of a C string. The list is the memory from `msg` on as far as it can be
read. -/
def fdPuts : List Byte → Option (List Byte)
  | [] => none
  | c :: cs => if c = 0 then some [] else (c :: ·) <$> fdPuts cs

/-- What `do_echo` sends; it does not look at `size`. -/
def doEcho (buf : List Byte) : Option (List Byte) := do
  let verb ← fdPuts (lit "echo " ++ [0])
  let text ← fdPuts buf
  let nl ← fdPuts (lit "\n" ++ [0])
  return verb ++ text ++ nl

def doRun (buf : List Byte) : Option (List Byte) := do
  let text ← fdPuts buf
  let nl ← fdPuts (lit "\n" ++ [0])
  return text ++ nl

inductive CmdFile where
  | run
  | echo
  deriving DecidableEq

def CmdFile.send : CmdFile → List Byte → Option (List Byte)
  | .run => doRun
  | .echo => doEcho

/-- What stands before the text on the line. -/
def CmdFile.verb : CmdFile → List Byte
  | .run => []
  | .echo => lit "echo "

end Code

section Line

theorem fdPuts_eq_some_iff {mem s : List Byte} :
    fdPuts mem = some s ↔ 0 ∉ s ∧ ∃ tail, mem = s ++ 0 :: tail := by
  induction mem generalizing s with
  | nil => simp [fdPuts]
  | cons c cs ih =>
    by_cases hc : c = 0
    · subst hc
      rw [fdPuts, if_pos rfl]
      constructor
      · rintro ⟨⟩
        exact ⟨List.not_mem_nil, cs, rfl⟩
      · rintro ⟨hnul, tail, htail⟩
        cases s with
        | nil => rfl
        | cons d ds =>
          obtain ⟨rfl, -⟩ := List.cons.inj htail
          exact absurd List.mem_cons_self hnul
    · rw [fdPuts, if_neg hc, Option.map_eq_map, Option.map_eq_some_iff]
      constructor
      · rintro ⟨t, ht, rfl⟩
        obtain ⟨hnul, tail, rfl⟩ := ih.mp ht
        refine ⟨fun h => ?_, tail, rfl⟩
        rcases List.mem_cons.mp h with h | h
        · exact hc h.symm
        · exact hnul h
      · rintro ⟨hnul, tail, htail⟩
        cases s with
        | nil => exact absurd (List.cons.inj htail).1 hc
        | cons d ds =>
          obtain ⟨rfl, rfl⟩ := List.cons.inj htail
          exact ⟨ds, ih.mpr ⟨fun h => hnul (List.mem_cons_of_mem _ h), tail, rfl⟩, rfl⟩

theorem CmdFile.send_eq (f : CmdFile) (mem : List Byte) :
    f.send mem = (fdPuts mem).map fun text => f.verb ++ text ++ [newline] := by
  cases f with
  | run =>
    cases h : fdPuts mem with
    | none => simp [send, doRun, h]
    | some text => simp only [send, doRun, h]; rfl
  | echo =>
    cases h : fdPuts mem with
    | none => simp [send, doEcho, h]
    | some text => simp only [send, doEcho, h]; rfl

/-- The text of a buffer: its bytes, without a newline at the end. -/
def lineText (buf : List Byte) : List Byte :=
  if buf.getLast? = some newline then buf.dropLast else buf

/-- The bytes sent are one line, not empty, with the text of the buffer, and the `readline` of the Pi's
loop reads them as that line, to the last byte. -/
structure Forwards (f : CmdFile) (buf sent : List Byte) : Prop where
  line : sent = f.verb ++ lineText buf ++ [newline]
  nonempty : f.verb ++ lineText buf ≠ []
  single : newline ∉ f.verb ++ lineText buf
  command : ∀ k : Option (List Byte) → Prog Byte Loop,
    Solo nextLoop (readline 1024 [] >>= k) sent [] (k (some (f.verb ++ lineText buf)))

/-- When a write is forwarded: no NUL and no newline among its bytes, a NUL right after them, and
a line that is neither empty nor too long for the Pi. -/
structure Forwardable (f : CmdFile) (buf after : List Byte) : Prop where
  noNul : 0 ∉ buf
  noNewline : newline ∉ buf
  ends : after.head? = some 0
  nonempty : f.verb ++ buf ≠ []
  fits : (f.verb ++ buf).length < 1024

variable {f : CmdFile} {buf after sent : List Byte}

/-- The Pi reads a line as one command only if the line fits its buffer. -/
theorem readline_fits {line : List Byte} (hline : newline ∉ line)
    (h : ∀ k : Option (List Byte) → Prog Byte Loop,
      Solo nextLoop (readline 1024 [] >>= k) (line ++ [newline]) [] (k (some line))) :
    line.length < 1024 := by
  by_contra hlen
  -- on a longer line `readline` gives up after 1024 characters
  let k : Option (List Byte) → Prog Byte Loop := fun r => return if r.isSome then .ready else .dead
  have hpart : newline ∉ line.take 1024 := fun hmem => hline (List.mem_of_mem_take hmem)
  have htake : (line.take 1024).length = 1024 := by
    rw [List.length_take]
    omega
  have hfull : Solo nextLoop (readline 1024 [] >>= k) (line.take 1024 ++ []) [] (k none) :=
    solo_readline_full hpart htake (.refl _)
  have hsplit : line.take 1024 ++ [] ++ (line.drop 1024 ++ [newline]) = line ++ [newline] ++ [] := by
    simp only [List.append_nil]
    rw [← List.append_assoc, List.take_append_drop]
  obtain ⟨-, -, hdead⟩ := Solo.det hfull (h k) rfl rfl hsplit
  cases hdead

/-- A newline at the end of the buffer is sent as it is, and one more after it. -/
theorem lineText_of_sent {text tail : List Byte} (hmem : buf ++ after = text ++ 0 :: tail)
    (htext : lineText buf = text) : lineText buf = buf := by
  unfold lineText at htext ⊢
  split
  · next hlast =>
    rw [if_pos hlast] at htext
    have hbuf := List.dropLast_append_getLast? newline hlast
    rw [← hbuf, ← htext, List.append_assoc] at hmem
    obtain ⟨hzero, -⟩ := List.cons.inj (List.append_cancel_left hmem)
    exact absurd hzero (by decide)
  · rfl

/-- A write is forwarded as one command exactly when its bytes are a C string and one line. -/
theorem forwards_iff (f : CmdFile) (buf after : List Byte) :
    (∃ sent, f.send (buf ++ after) = some sent ∧ Forwards f buf sent) ↔ Forwardable f buf after := by
  constructor
  · rintro ⟨sent, hsend, h⟩
    rw [f.send_eq, Option.map_eq_some_iff] at hsend
    obtain ⟨text, hputs, rfl⟩ := hsend
    obtain ⟨hnul, tail, hmem⟩ := fdPuts_eq_some_iff.mp hputs
    have htext : lineText buf = text :=
      (List.append_cancel_left (List.append_cancel_right h.line)).symm
    have hbuf := lineText_of_sent hmem htext
    have hcommand := h.command
    rw [h.line] at hcommand
    have hfits := readline_fits h.single hcommand
    have hsingle := h.single
    have hnonempty := h.nonempty
    rw [hbuf] at hfits hsingle hnonempty
    rw [← htext, hbuf] at hnul hmem
    have hafter := List.append_cancel_left hmem
    exact ⟨hnul, fun hn => hsingle (List.mem_append_right _ hn), by rw [hafter]; rfl, hnonempty,
      hfits⟩
  · intro h
    obtain ⟨tail, htail⟩ := List.head?_eq_some_iff.mp h.ends
    have hputs : fdPuts (buf ++ after) = some buf :=
      fdPuts_eq_some_iff.mpr ⟨h.noNul, tail, by rw [htail]⟩
    have hbuf : lineText buf = buf :=
      if_neg fun hlast => h.noNewline (List.mem_of_getLast? hlast)
    have hsingle : newline ∉ f.verb ++ buf := by
      have hverb : newline ∉ f.verb := by cases f <;> decide
      exact fun hn => (List.mem_append.mp hn).elim hverb h.noNewline
    refine ⟨f.verb ++ buf ++ [newline], by rw [f.send_eq, hputs]; rfl, ?_⟩
    refine ⟨by rw [hbuf], by rw [hbuf]; exact h.nonempty, by rw [hbuf]; exact hsingle, fun k => ?_⟩
    rw [hbuf]
    exact solo_readline hsingle h.fits (.refl _)

/-- The shell's `echo "run /a" > run.cmd` writes a newline of its own: the Pi gets an empty line after
the command. -/
theorem run_newline_not_forwarded : ¬ ∀ (f : CmdFile) (buf after : List Byte),
    ∃ sent, f.send (buf ++ after) = some sent ∧ Forwards f buf sent := by
  intro h
  obtain ⟨sent, hsend, hforwards⟩ := h .run (lit "run /a\n") [0]
  have hsent : CmdFile.send .run (lit "run /a\n" ++ [0]) = some (lit "run /a\n\n") := by decide
  have hline := hforwards.line
  rw [hsent] at hsend
  cases hsend
  revert hline
  decide

end Line

end SimplePiOS.Fuse
