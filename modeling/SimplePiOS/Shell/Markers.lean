import SimplePiOS.Lib.Matcher
import SimplePiOS.Shell.Commands

/-! The matchers with which the Unix side looks for the end of a program's output: the `fsm_t`
of shell-support.c and echo-until.c, which is the same in both, and `done` of install.c. -/
namespace SimplePiOS.Shell
open Lib.Matcher Libpi

/-- A `char` as an `int`; whether `char` is signed is up to the host. -/
def charInt (signed : Bool) (c : Byte) : ℤ := if signed then c.toInt else c.toNat

/-- `fsm_t`; of `exit_string` the part that `strcpy` sets. -/
structure Fsm where
  pos : ℕ
  fsmEnd : ℕ
  exitString : List Byte
  deriving DecidableEq

def mkFsm (str : List Byte) : Except String Fsm :=
  if str.length < 1024 - 1 then .ok ⟨0, str.length, str ++ [0]⟩ else .error "string too big"

def Fsm.chrDone (signed : Bool) (f : Fsm) (c : Byte) : Step Fsm :=
  if ¬ f.pos < f.fsmEnd then .failed
  else if (c.toNat : ℤ) ≠ charInt signed (f.exitString.getD f.pos 0) then
    .more { f with pos := 0 }
  else if f.pos + 1 = f.fsmEnd then .seen
  else .more { f with pos := f.pos + 1 }

/-- The exit string of `done`. -/
def exitString : List Byte := lit "DONE!!!\n"

/-- `done` on the bytes up to the NUL, with its static `pos`. -/
def done : ℕ → List Byte → Outcome Byte ℕ
  | pos, [] => .more pos
  | pos, c :: s =>
    if c = 0 then .more pos
    else if ¬ pos < exitString.length then .failed
    else if exitString[pos]? ≠ some c then done 0 s
    else if pos + 1 = exitString.length then .seen s
    else done (pos + 1) s

section Fsm
variable {signed : Bool} {str : List Byte} {pos : ℕ}

/-- The matcher for `str` at a position. -/
def Fsm.at (str : List Byte) (pos : ℕ) : Fsm := ⟨pos, str.length, str ++ [0]⟩

theorem mkFsm_eq (hlen : str.length < 1023) : mkFsm str = .ok (.at str 0) := if_pos hlen

/-- A character that reads back as the `unsigned char` it is. -/
def Plain (signed : Bool) (c : Byte) : Prop := signed = true → c.toNat < 128

theorem charInt_plain {c : Byte} (h : Plain signed c) : charInt signed c = c.toNat := by
  unfold charInt
  cases signed with
  | false => rfl
  | true =>
    have hlt := h rfl
    rw [if_pos rfl, BitVec.toInt_eq_toNat_of_lt (by omega)]

theorem charInt_not_plain {c : Byte} (h : ¬ Plain signed c) : charInt signed c < 0 := by
  unfold charInt
  cases signed with
  | false => exact absurd (fun hs => by cases hs) h
  | true =>
    have hge : 128 ≤ c.toNat := by
      by_contra hlt
      exact h fun _ => by omega
    have hmsb : 2 ^ 8 ≤ 2 * c.toNat := by omega
    have hlt := c.isLt
    rw [if_pos rfl, BitVec.toInt_eq_toNat_cond, if_neg (by omega)]
    omega

theorem getD_exitString (hpos : pos < str.length) : (str ++ [0]).getD pos 0 = str[pos] := by
  rw [List.getD_eq_getElem?_getD, List.getElem?_append_left hpos, List.getElem?_eq_getElem hpos]
  rfl

/-- On plain characters `fsm_chr_done` is the matcher that starts over. -/
theorem chrDone_plain (hstr : ∀ c ∈ str, Plain signed c) (hpos : pos < str.length) (c : Byte) :
    (restart str pos c = .seen ∧ (Fsm.at str pos).chrDone signed c = .seen) ∨
    ∃ q, q < str.length ∧ restart str pos c = .more q ∧
      (Fsm.at str pos).chrDone signed c = .more (.at str q) := by
  have hcmp : ((c.toNat : ℤ) ≠ charInt signed ((str ++ [0]).getD pos 0)) ↔ str[pos]? ≠ some c := by
    rw [getD_exitString hpos, charInt_plain (hstr _ (List.getElem_mem hpos)),
      List.getElem?_eq_getElem hpos]
    simp only [ne_eq, Int.natCast_inj, Option.some.injEq, ← BitVec.toNat_inj, eq_comm]
  unfold Fsm.chrDone Fsm.at
  rw [if_neg (not_not_intro hpos)]
  rcases restart_cases str hpos c with ⟨hc, hend, hstep⟩ | ⟨hc, hlt, hstep⟩ | ⟨hc, hstep⟩
  · left
    rw [if_neg (fun h => hcmp.mp h hc), if_pos hend]
    exact ⟨hstep, rfl⟩
  · right
    rw [if_neg (fun h => hcmp.mp h hc), if_neg hlt.ne]
    exact ⟨pos + 1, hlt, hstep, rfl⟩
  · right
    rw [if_pos (hcmp.mpr hc)]
    exact ⟨0, by omega, hstep, rfl⟩

theorem restart_eq_fsmChrDone (msg : List Byte) (pos : ℕ) (c : Byte) :
    restart msg pos c = (fsmChrDone msg pos c).elim .seen .more := by
  unfold restart fsmChrDone
  by_cases hc : msg[pos]? ≠ some c
  · rw [if_pos hc, if_pos hc]
    rfl
  · rw [if_neg hc, if_neg hc]
    by_cases hend : pos + 1 = msg.length
    · rw [if_pos hend, if_pos hend]
      rfl
    · rw [if_neg hend, if_neg hend]
      rfl

/-- On a marker of plain characters the step that the commands use is `fsm_chr_done`. -/
theorem chrDone_eq_fsmChrDone (hstr : ∀ c ∈ str, Plain signed c) (hpos : pos < str.length)
    (c : Byte) : (Fsm.at str pos).chrDone signed c =
      (fsmChrDone str pos c).elim .seen fun q => .more (.at str q) := by
  have hrestart := restart_eq_fsmChrDone str pos c
  rcases chrDone_plain hstr hpos c with ⟨hstep, hdone⟩ | ⟨q, -, hstep, hdone⟩
  · rw [hdone]
    rw [hstep] at hrestart
    cases hc : fsmChrDone str pos c with
    | none => rfl
    | some q => simp [hc] at hrestart
  · rw [hdone]
    rw [hstep] at hrestart
    cases hc : fsmChrDone str pos c with
    | none => simp [hc] at hrestart
    | some q' =>
      have hq : q = q' := by simpa [hc] using hrestart
      rw [hq]
      rfl

theorem feed_chrDone_plain (hstr : ∀ c ∈ str, Plain signed c) (hpos : pos < str.length)
    (cs : List Byte) : feed (Fsm.chrDone signed) (.at str pos) cs =
      (feed (restart str) pos cs).map (Fsm.at str) := by
  induction cs generalizing pos with
  | nil => rfl
  | cons c cs ih =>
    rcases chrDone_plain hstr hpos c with ⟨hstep, hdone⟩ | ⟨q, hq, hstep, hdone⟩
    · simp only [feed, hstep, hdone, Outcome.map]
    · rw [feed_more hstep, feed_more hdone]
      exact ih hq

/-- Past a character that does not read back as itself there is no way. -/
theorem feed_chrDone_stuck {j : ℕ} (hj : j < str.length) (hbad : ¬ Plain signed str[j])
    (hpos : pos ≤ j) (cs : List Byte) :
    ∃ q, q ≤ j ∧ feed (Fsm.chrDone signed) (.at str pos) cs = .more (.at str q) := by
  induction cs generalizing pos with
  | nil => exact ⟨pos, hpos, rfl⟩
  | cons c cs ih =>
    have hlt : pos < str.length := by omega
    have hstep : ∃ q, q ≤ j ∧ (Fsm.at str pos).chrDone signed c = .more (.at str q) := by
      unfold Fsm.chrDone Fsm.at
      rw [if_neg (not_not_intro hlt)]
      by_cases hc : (c.toNat : ℤ) ≠ charInt signed ((str ++ [0]).getD pos 0)
      · rw [if_pos hc]
        exact ⟨0, Nat.zero_le j, rfl⟩
      · have hne : pos ≠ j := by
          rintro rfl
          apply hc
          have hneg := charInt_not_plain hbad
          rw [getD_exitString hlt]
          omega
        have hend : pos + 1 ≠ str.length := by omega
        rw [if_neg hc, if_neg hend]
        exact ⟨pos + 1, by omega, rfl⟩
    obtain ⟨q, hq, hdone⟩ := hstep
    rw [feed_more hdone]
    exact ih hq

theorem not_plain_exists (h : ¬ ∀ c ∈ str, Plain signed c) :
    ∃ j, ∃ hj : j < str.length, ¬ Plain signed str[j] := by
  push Not at h
  obtain ⟨c, hc, hbad⟩ := h
  obtain ⟨j, hj, rfl⟩ := List.mem_iff_getElem.mp hc
  exact ⟨j, hj, hbad⟩

end Fsm

/-- On a chunk without a NUL `done` is the same matcher. -/
theorem done_eq_feed {pos : ℕ} {cs : List Byte} (hpos : pos < exitString.length)
    (h0 : (0 : Byte) ∉ cs) : done pos cs = feed (restart exitString) pos cs := by
  induction cs generalizing pos with
  | nil => rfl
  | cons c cs ih =>
    obtain ⟨hc0, hrest⟩ := not_or.mp (List.mem_cons.not.mp h0)
    unfold done
    rw [if_neg (Ne.symm hc0), if_neg (not_not_intro hpos)]
    rcases restart_cases exitString hpos c with ⟨hc, hend, hstep⟩ | ⟨hc, hlt, hstep⟩ | ⟨hc, hstep⟩
    · rw [if_neg (not_not_intro hc), if_pos hend]
      simp only [feed, hstep]
    · rw [if_neg (not_not_intro hc), if_neg hlt.ne, feed_more hstep]
      exact ih hlt hrest
    · rw [if_pos hc, feed_more hstep]
      exact ih (Nat.zero_lt_succ 7) hrest

theorem done_chunks_eq {chunks : List (List Byte)} (h0 : ∀ chunk ∈ chunks, (0 : Byte) ∉ chunk) :
    feedChunks done 0 chunks = feed (restart exitString) 0 chunks.flatten :=
  feedChunks_congr (I := (· < exitString.length)) (fun _ _ => done_eq_feed)
    (fun _ _ _ => feed_restart_lt) (Nat.zero_lt_succ 7) h0

theorem exitString_plain (signed : Bool) : ∀ c ∈ exitString, Plain signed c := by
  intro c hc _
  have hall : (exitString.all fun c => c.toNat < 128) = true := by decide
  simpa using List.all_eq_true.mp hall c hc

section Late
variable {signed : Bool} {str : List Byte}

/-- One repeated character, which reads back as itself. -/
structure Uniform (signed : Bool) (str : List Byte) : Prop where
  ne_nil : str ≠ []
  same : ∀ c ∈ str, ∀ d ∈ str, c = d
  plain : ∀ c ∈ str, Plain signed c

theorem neverLate_chrDone_iff :
    NeverLate (feed (Fsm.chrDone signed) (.at str 0)) str ↔ Uniform signed str := by
  by_cases hne : str = []
  · subst hne
    rw [neverLate_feed_iff]
    constructor
    · intro h
      exact absurd (h [] (firstEnd_self [])) not_seen_more
    · intro h
      exact absurd rfl h.ne_nil
  have hpos := List.length_pos_iff.mpr hne
  by_cases hplain : ∀ c ∈ str, Plain signed c
  · have hstart : NeverLate (feed (Fsm.chrDone signed) (.at str 0)) str ↔
        NeverLate (feed (restart str) 0) str := by
      rw [neverLate_feed_iff, neverLate_feed_iff]
      simp only [feed_chrDone_plain hplain hpos, seen_map]
    rw [hstart, neverLate_restart_iff]
    constructor
    · intro h
      exact ⟨h.1, h.2, hplain⟩
    · intro h
      exact ⟨h.ne_nil, h.same⟩
  · constructor
    · intro h
      obtain ⟨j, hj, hbad⟩ := not_plain_exists hplain
      have hseen := neverLate_feed_iff.mp h str (firstEnd_self str)
      obtain ⟨q, -, hstuck⟩ := feed_chrDone_stuck hj hbad (Nat.zero_le j) str
      rw [hstuck] at hseen
      exact absurd hseen not_seen_more
    · intro h
      exact absurd h.plain hplain

/-- Where nothing of a plain marker stands right before it, it is reported by its last byte. -/
theorem seen_of_clean (hne : str ≠ []) (hstr : ∀ c ∈ str, Plain signed c) {cs : List Byte}
    (hclean : ∀ j, 0 < j → j < str.length → ¬ str.take j <:+ cs) :
    (feed (Fsm.chrDone signed) (.at str 0) (cs ++ str)).Seen := by
  rw [feed_chrDone_plain hstr (List.length_pos_iff.mpr hne), seen_map]
  exact feed_restart_clean hne hclean

theorem done_of_clean {chunks : List (List Byte)} {cs : List Byte}
    (h0 : ∀ chunk ∈ chunks, (0 : Byte) ∉ chunk) (hchunks : chunks.flatten = cs ++ exitString)
    (hclean : ∀ j, 0 < j → j < exitString.length → ¬ exitString.take j <:+ cs) :
    (feedChunks done 0 chunks).Seen := by
  rw [done_chunks_eq h0, hchunks]
  exact feed_restart_clean (by decide) hclean

/-- The chunks of `done`, as they are read. -/
def DoneNeverLate : Prop := ∀ chunks rest : List (List Byte),
  FirstEnd exitString chunks.flatten →
    ∃ unread, feedChunks done 0 (chunks ++ rest) = .seen (unread ++ rest.flatten)

/-- The exit string behind its own first character. -/
theorem firstEnd_exitString : FirstEnd exitString (0x44 :: exitString) := by
  have hrun : exitString = List.replicate 1 0x44 ++ 0x4F :: exitString.drop 2 := by decide
  exact (feed_restart_behind (by decide) hrun).2

theorem not_doneNeverLate : ¬ DoneNeverLate := by
  intro h
  obtain ⟨unread, hseen⟩ := h [0x44 :: exitString] [] (by simpa using firstEnd_exitString)
  have hdone : feedChunks done 0 [0x44 :: exitString] = .more 0 := by decide
  rw [List.append_nil, hdone] at hseen
  cases hseen

/-- A matcher reports its marker in time in every stream exactly if the marker is one repeated
character; the marker of `done` is not. -/
theorem neverLate_iff_uniform (signed : Bool) (str : List Byte) (hlen : str.length < 1023) :
    (∃ f, mkFsm str = .ok f ∧
      (NeverLate (feed (Fsm.chrDone signed) f) str ↔ Uniform signed str)) ∧ ¬ DoneNeverLate :=
  ⟨⟨_, mkFsm_eq hlen, neverLate_chrDone_iff⟩, not_doneNeverLate⟩

theorem neverLate_iff_uniform_exit : (∃ f, mkFsm exitString = .ok f ∧
    (NeverLate (feed (Fsm.chrDone true) f) exitString ↔ Uniform true exitString)) ∧
    ¬ DoneNeverLate :=
  neverLate_iff_uniform true exitString (by decide)

/-- In DDONE!!! the second D is compared with the O, and is not looked at again. -/
theorem exitString_reported_late : FirstEnd exitString (0x44 :: exitString) ∧
    mkFsm exitString = .ok (.at exitString 0) ∧
    feed (Fsm.chrDone true) (.at exitString 0) (0x44 :: exitString) = .more (.at exitString 0) ∧
    feedChunks done 0 [0x44 :: exitString] = .more 0 :=
  ⟨firstEnd_exitString, rfl, by decide, by decide⟩

end Late

section Agree

/-- All matchers for the exit string report it at the same byte or not at all, and none before
the whole marker has been read. -/
theorem matchers_agree :
    (∀ (signed : Bool) (chunks : List (List Byte)), (∀ chunk ∈ chunks, (0 : Byte) ∉ chunk) →
      ∃ f, mkFsm exitString = .ok f ∧
        (feed (Fsm.chrDone signed) f chunks.flatten).map (·.pos) = feedChunks done 0 chunks) ∧
    ∀ (signed : Bool) (str : List Byte), str ≠ [] → str.length < 1023 →
      ∃ f, mkFsm str = .ok f ∧ ∀ cs, feed (Fsm.chrDone signed) f cs ≠ .failed ∧
        ∀ rest, feed (Fsm.chrDone signed) f cs = .seen rest →
          ∃ read, cs = read ++ rest ∧ str <:+ read := by
  constructor
  · intro signed chunks h0
    refine ⟨_, mkFsm_eq (by decide), ?_⟩
    rw [feed_chrDone_plain (exitString_plain signed) (Nat.zero_lt_succ 7), done_chunks_eq h0]
    cases feed (restart exitString) 0 chunks.flatten with
    | more q => rfl
    | seen rest => rfl
    | failed => rfl
  · intro signed str hne hlen
    refine ⟨_, mkFsm_eq hlen, ?_⟩
    intro cs
    by_cases hplain : ∀ c ∈ str, Plain signed c
    · rw [feed_chrDone_plain hplain (List.length_pos_iff.mpr hne)]
      rcases feed_restart_sound hne cs with ⟨pos, hfeed, -⟩ | ⟨rest, read, hfeed, hcs, hsuf⟩
      · rw [hfeed]
        exact ⟨fun h => (by cases h), fun _ h => (by cases h)⟩
      · rw [hfeed]
        refine ⟨fun h => (by cases h), ?_⟩
        intro rest' h
        cases h
        exact ⟨read, hcs, hsuf⟩
    · obtain ⟨j, hj, hbad⟩ := not_plain_exists hplain
      obtain ⟨q, -, hstuck⟩ := feed_chrDone_stuck hj hbad (Nat.zero_le j) cs
      rw [hstuck]
      exact ⟨fun h => (by cases h), fun _ h => (by cases h)⟩

/-- The exit string, cut in the middle. -/
theorem matchers_agree_cut : ∃ f, mkFsm exitString = .ok f ∧
    (feed (Fsm.chrDone true) f [exitString.take 3, exitString.drop 3].flatten).map (·.pos) =
      feedChunks done 0 [exitString.take 3, exitString.drop 3] := by
  apply matchers_agree.1 true
  intro chunk hchunk
  rcases List.mem_cons.mp hchunk with rfl | hchunk
  · decide
  · rw [List.mem_singleton.mp hchunk]
    decide

end Agree
end SimplePiOS.Shell
