import Mathlib.Algebra.GroupWithZero.Nat
import Mathlib.Data.List.Induction
import Mathlib.Data.List.TakeWhile
import Mathlib.Tactic.Common

/-! Matchers that read a stream one element at a time and report when they have seen what they
look for, and the one that looks for a list and starts over after each mismatch. -/
namespace Lib.Matcher

variable {α σ τ : Type}

/-- What a matcher in a state makes of the next element. -/
inductive Step (σ : Type) where
  | more (s : σ)
  | seen
  | failed

/-- What it has made of a stream; `rest` is the part it has not read. -/
inductive Outcome (α σ : Type) where
  | more (s : σ)
  | seen (rest : List α)
  | failed
  deriving DecidableEq

def Outcome.map (f : σ → τ) : Outcome α σ → Outcome α τ
  | .more s => .more (f s)
  | .seen rest => .seen rest
  | .failed => .failed

/-- It has reported, before or with the last element of the stream. -/
def Outcome.Seen (o : Outcome α σ) : Prop := ∃ rest, o = .seen rest

section Outcome
variable {s : σ} {rest : List α}

@[simp] theorem seen_seen : (Outcome.seen rest : Outcome α σ).Seen := ⟨rest, rfl⟩

@[simp] theorem not_seen_more : ¬ (Outcome.more s : Outcome α σ).Seen := by
  rintro ⟨_, h⟩
  cases h

@[simp] theorem not_seen_failed : ¬ (Outcome.failed : Outcome α σ).Seen := by
  rintro ⟨_, h⟩
  cases h

theorem seen_map {f : σ → τ} {o : Outcome α σ} : (o.map f).Seen ↔ o.Seen := by
  cases o <;> simp [Outcome.map]

end Outcome

/-- Elements until it reports. -/
def feed (step : σ → α → Step σ) : σ → List α → Outcome α σ
  | s, [] => .more s
  | s, c :: cs =>
    match step s c with
    | .more s => feed step s cs
    | .seen => .seen cs
    | .failed => .failed

/-- What is read comes in chunks, and the state is kept from one to the next. -/
def feedChunks (scan : σ → List α → Outcome α σ) : σ → List (List α) → Outcome α σ
  | s, [] => .more s
  | s, chunk :: chunks =>
    match scan s chunk with
    | .more s => feedChunks scan s chunks
    | .seen rest => .seen (rest ++ chunks.flatten)
    | .failed => .failed

section Feed
variable {step : σ → α → Step σ} {s : σ}

theorem feed_more {c : α} {cs : List α} {s t : σ} (h : step s c = .more t) :
    feed step s (c :: cs) = feed step t cs := by
  simp only [feed, h]

theorem feed_append (cs ds : List α) : feed step s (cs ++ ds) =
    match feed step s cs with
    | .more s => feed step s ds
    | .seen rest => .seen (rest ++ ds)
    | .failed => .failed := by
  induction cs generalizing s with
  | nil => rfl
  | cons c cs ih =>
    simp only [List.cons_append, feed]
    cases step s c with
    | more s => exact ih
    | seen => rfl
    | failed => rfl

/-- The chunks make no difference to a matcher that reads one element at a time. -/
theorem feedChunks_feed (chunks : List (List α)) :
    feedChunks (feed step) s chunks = feed step s chunks.flatten := by
  induction chunks generalizing s with
  | nil => rfl
  | cons chunk chunks ih =>
    rw [List.flatten_cons, feed_append, feedChunks]
    cases feed step s chunk with
    | more s => exact ih
    | seen rest => rfl
    | failed => rfl

/-- Nor to one that agrees with it on chunks of a kind, in the states it can be in between. -/
theorem feedChunks_congr {scan : σ → List α → Outcome α σ} {P : List α → Prop} {I : σ → Prop}
    (h : ∀ s cs, I s → P cs → scan s cs = feed step s cs)
    (hkeep : ∀ s t cs, I s → feed step s cs = .more t → I t) {chunks : List (List α)}
    (hs : I s) (hchunks : ∀ cs ∈ chunks, P cs) :
    feedChunks scan s chunks = feed step s chunks.flatten := by
  rw [← feedChunks_feed]
  induction chunks generalizing s with
  | nil => rfl
  | cons chunk chunks ih =>
    have hrest : ∀ cs ∈ chunks, P cs := fun cs hcs => hchunks cs (List.mem_cons_of_mem _ hcs)
    rw [feedChunks, feedChunks, h s chunk hs (hchunks chunk List.mem_cons_self)]
    cases hfeed : feed step s chunk with
    | more t => exact ih (hkeep s t chunk hs hfeed) hrest
    | seen rest => rfl
    | failed => rfl

/-- The rest is a rest of the stream. -/
theorem feed_seen {cs rest : List α} (h : feed step s cs = .seen rest) :
    ∃ read, cs = read ++ rest := by
  induction cs generalizing s with
  | nil => cases h
  | cons c cs ih =>
    unfold feed at h
    cases hstep : step s c with
    | more t =>
      simp only [hstep] at h
      obtain ⟨read, rfl⟩ := ih h
      exact ⟨c :: read, rfl⟩
    | seen =>
      simp only [hstep] at h
      cases h
      exact ⟨[c], rfl⟩
    | failed => simp [hstep] at h

end Feed

section Late
variable {marker : List α}

/-- A stream that ends with the first occurrence of the marker. -/
def FirstEnd (marker cs : List α) : Prop :=
  marker <:+ cs ∧ ∀ t, t <+: cs → marker <:+ t → t = cs

theorem firstEnd_self (marker : List α) : FirstEnd marker marker :=
  ⟨List.suffix_rfl, fun _ hpre hsuf => hpre.eq_of_length (le_antisymm hpre.length_le hsuf.length_le)⟩

/-- Whatever follows the first occurrence, that much is left when the matcher reports. -/
def NeverLate (run : List α → Outcome α σ) (marker : List α) : Prop :=
  ∀ cs rest, FirstEnd marker cs → ∃ unread, run (cs ++ rest) = .seen (unread ++ rest)

theorem neverLate_feed_iff {step : σ → α → Step σ} {s : σ} :
    NeverLate (feed step s) marker ↔
      ∀ cs, FirstEnd marker cs → (feed step s cs).Seen := by
  constructor
  · intro h cs hfirst
    obtain ⟨unread, hseen⟩ := h cs [] hfirst
    rw [List.append_nil] at hseen
    exact ⟨_, hseen⟩
  · intro h cs rest hfirst
    obtain ⟨unread, hseen⟩ := h cs hfirst
    refine ⟨unread, ?_⟩
    rw [feed_append, hseen]

end Late

section Restart
variable [DecidableEq α] {marker : List α}

/-- Look for `marker`; an element that does not continue it is dropped, and the next one is
compared with the start. -/
def restart (marker : List α) (pos : ℕ) (c : α) : Step ℕ :=
  if marker[pos]? ≠ some c then .more 0
  else if pos + 1 = marker.length then .seen
  else .more (pos + 1)

theorem restart_match {pos : ℕ} {c : α} (h : marker[pos]? = some c)
    (hend : pos + 1 < marker.length) : restart marker pos c = .more (pos + 1) := by
  unfold restart
  rw [if_neg (not_not_intro h), if_neg hend.ne]

theorem restart_mismatch {pos : ℕ} {c : α} (h : marker[pos]? ≠ some c) :
    restart marker pos c = .more 0 := by
  unfold restart
  rw [if_pos h]

theorem restart_last {pos : ℕ} {c : α} (h : marker[pos]? = some c)
    (hend : pos + 1 = marker.length) : restart marker pos c = .seen := by
  unfold restart
  rw [if_neg (not_not_intro h), if_pos hend]

/-- The cases of a step. -/
theorem restart_cases (marker : List α) {pos : ℕ} (hpos : pos < marker.length) (c : α) :
    (marker[pos]? = some c ∧ pos + 1 = marker.length ∧ restart marker pos c = .seen) ∨
    (marker[pos]? = some c ∧ pos + 1 < marker.length ∧
      restart marker pos c = .more (pos + 1)) ∨
    (marker[pos]? ≠ some c ∧ restart marker pos c = .more 0) := by
  by_cases h : marker[pos]? = some c
  · by_cases hend : pos + 1 = marker.length
    · exact .inl ⟨h, hend, restart_last h hend⟩
    · have hlt : pos + 1 < marker.length := by omega
      exact .inr (.inl ⟨h, hlt, restart_match h hlt⟩)
  · exact .inr (.inr ⟨h, restart_mismatch h⟩)

/-- Fewer elements than are missing do not complete it. -/
theorem feed_restart_short {pos : ℕ} {cs : List α} (h : pos + cs.length < marker.length) :
    ∃ q, q < marker.length ∧ feed (restart marker) pos cs = .more q := by
  induction cs generalizing pos with
  | nil => exact ⟨pos, h, rfl⟩
  | cons c cs ih =>
    rw [List.length_cons] at h
    rcases restart_cases marker (by omega : pos < marker.length) c with
      ⟨-, hend, -⟩ | ⟨-, -, hstep⟩ | ⟨-, hstep⟩
    · omega
    · rw [feed_more hstep]
      exact ih (by omega)
    · rw [feed_more hstep]
      exact ih (by omega)

theorem feed_restart_lt {pos q : ℕ} {cs : List α} (hpos : pos < marker.length)
    (h : feed (restart marker) pos cs = .more q) : q < marker.length := by
  induction cs generalizing pos with
  | nil =>
    cases h
    exact hpos
  | cons c cs ih =>
    rcases restart_cases marker hpos c with ⟨-, -, hstep⟩ | ⟨-, hlt, hstep⟩ | ⟨-, hstep⟩
    · simp only [feed, hstep] at h
      cases h
    · exact ih hlt (feed_more hstep ▸ h)
    · exact ih (by omega) (feed_more hstep ▸ h)

/-- What the position stands for: so much of the marker has just been read. -/
theorem feed_restart_sound (hne : marker ≠ []) (cs : List α) :
    (∃ pos, feed (restart marker) 0 cs = .more pos ∧ pos < marker.length ∧
      marker.take pos <:+ cs) ∨
    ∃ rest read, feed (restart marker) 0 cs = .seen rest ∧ cs = read ++ rest ∧
      marker <:+ read := by
  induction cs using List.reverseRecOn with
  | nil => exact .inl ⟨0, rfl, List.length_pos_iff.mpr hne, List.nil_suffix⟩
  | append_singleton cs c ih =>
    rw [feed_append]
    rcases ih with ⟨pos, hfeed, hpos, hsuf⟩ | ⟨rest, read, hfeed, rfl, hsuf⟩
    · simp only [hfeed]
      have hnext : marker[pos]? = some c → marker.take (pos + 1) <:+ cs ++ [c] := by
        intro hc
        rw [List.take_add_one, hc]
        exact (List.suffix_append_inj_of_length_eq rfl).mpr ⟨hsuf, rfl⟩
      rcases restart_cases marker hpos c with ⟨hc, hend, hstep⟩ | ⟨hc, hlt, hstep⟩ | ⟨-, hstep⟩
      · refine .inr ⟨[], cs ++ [c], ?_, (List.append_nil _).symm, ?_⟩
        · simp only [feed, hstep]
        · have hmarker := hnext hc
          rwa [hend, List.take_length] at hmarker
      · exact .inl ⟨pos + 1, feed_more hstep, hlt, hnext hc⟩
      · exact .inl ⟨0, feed_more hstep, by omega, List.nil_suffix⟩
    · simp only [hfeed]
      exact .inr ⟨rest ++ [c], read, rfl, List.append_assoc _ _ _, hsuf⟩

theorem feed_restart_take {j : ℕ} (hj : j < marker.length) :
    feed (restart marker) 0 (marker.take j) = .more j := by
  induction j with
  | zero => rfl
  | succ j ih =>
    have hc : marker[j]? = some marker[j] := List.getElem?_eq_getElem (by omega)
    rw [List.take_add_one, feed_append, ih (by omega), hc]
    exact feed_more (restart_match hc hj)

theorem feed_restart_self (hne : marker ≠ []) : (feed (restart marker) 0 marker).Seen := by
  obtain ⟨j, hj⟩ := Nat.exists_eq_succ_of_ne_zero (List.length_pos_iff.mpr hne).ne'
  have hc : marker[j]? = some marker[j] := List.getElem?_eq_getElem (by omega)
  have hsplit : marker.take (j + 1) = marker := List.take_of_length_le hj.le
  rw [List.take_add_one, hc] at hsplit
  have hfeed : feed (restart marker) 0 (marker.take j ++ [marker[j]]) = .seen [] := by
    rw [feed_append, feed_restart_take (by omega)]
    simp only [feed, restart_last hc hj.symm]
  exact ⟨[], (congrArg _ hsplit).symm.trans hfeed⟩

/-- Nor does the matcher miss the marker where none of its proper beginnings stands right before it. -/
theorem feed_restart_clean (hne : marker ≠ []) {cs : List α}
    (hclean : ∀ j, 0 < j → j < marker.length → ¬ marker.take j <:+ cs) :
    (feed (restart marker) 0 (cs ++ marker)).Seen := by
  rw [feed_append]
  rcases feed_restart_sound hne cs with ⟨pos, hfeed, hpos, hsuf⟩ | ⟨rest, read, hfeed, -⟩
  · have hstart : pos = 0 := by
      by_contra hne0
      exact hclean pos (Nat.pos_of_ne_zero hne0) hpos hsuf
    rw [hfeed, hstart]
    exact feed_restart_self hne
  · rw [hfeed]
    exact ⟨rest ++ marker, rfl⟩

/-- On a marker of one repeated element the position counts how often it was read last. -/
theorem feed_restart_replicate (c : α) {k : ℕ} (hk : 0 < k) (cs : List α) :
    (feed (restart (List.replicate k c)) 0 cs).Seen ∨
    ∃ pos, feed (restart (List.replicate k c)) 0 cs = .more pos ∧ pos < k ∧
      ¬ List.replicate (pos + 1) c <:+ cs := by
  induction cs using List.reverseRecOn with
  | nil => exact .inr ⟨0, rfl, hk, by simp⟩
  | append_singleton cs d ih =>
    rw [feed_append]
    rcases ih with ⟨rest, hfeed⟩ | ⟨pos, hfeed, hpos, hno⟩
    · simp only [hfeed]
      exact .inl ⟨rest ++ [d], rfl⟩
    · simp only [hfeed]
      have hlast : ∀ n, List.replicate (n + 1) c <:+ cs ++ [d] →
          List.replicate n c <:+ cs ∧ c = d := by
        intro n hn
        rw [List.replicate_succ'] at hn
        have hlen : [c].length = [d].length := rfl
        obtain ⟨hsuf, heq⟩ := (List.suffix_append_inj_of_length_eq hlen).mp hn
        exact ⟨hsuf, List.singleton_inj.mp heq⟩
      rcases restart_cases (List.replicate k c) (by simpa using hpos) d with
        ⟨-, -, hstep⟩ | ⟨-, hlt, hstep⟩ | ⟨hd, hstep⟩
      · refine .inl ⟨[], ?_⟩
        simp only [feed, hstep]
      · rw [List.length_replicate] at hlt
        exact .inr ⟨pos + 1, feed_more hstep, hlt, fun h => hno (hlast _ h).1⟩
      · rw [List.getElem?_replicate_of_lt hpos] at hd
        exact .inr ⟨0, feed_more hstep, hk, fun h => hd (congrArg some (hlast _ h).2)⟩

/-- One element too many in front of a marker that starts with a run of it: the matcher is
behind by one when the run ends, and what is left is too short. -/
theorem feed_restart_behind {c b : α} {i : ℕ} {tail : List α} (hb : b ≠ c)
    (hmarker : marker = List.replicate (i + 1) c ++ b :: tail) :
    ¬ (feed (restart marker) 0 (c :: marker)).Seen ∧ FirstEnd marker (c :: marker) := by
  have hlen : marker.length = i + 1 + (tail.length + 1) := by simp [hmarker]
  have hrun : feed (restart marker) 0 (List.replicate (i + 1) c) = .more (i + 1) := by
    have htake : marker.take (i + 1) = List.replicate (i + 1) c := by
      rw [hmarker]
      exact List.take_left' List.length_replicate
    rw [← htake]
    exact feed_restart_take (by omega)
  have hbehind : marker[i + 1]? = some b := by
    rw [hmarker, List.getElem?_append_right (by simp)]
    simp
  have hsplit : c :: marker = List.replicate (i + 1) c ++ c :: b :: tail := by
    rw [hmarker, ← List.cons_append, ← List.replicate_succ, List.replicate_succ']
    simp
  constructor
  · have hdrop : restart marker (i + 1) c = .more 0 := by
      apply restart_mismatch
      rw [hbehind]
      simpa using hb
    have hshort : 0 + (b :: tail).length < marker.length := by
      rw [List.length_cons]
      omega
    obtain ⟨q, -, hfeed⟩ := feed_restart_short hshort
    rw [hsplit, feed_append, hrun]
    simp only [feed_more hdrop, hfeed]
    exact not_seen_more
  · refine ⟨List.suffix_cons c marker, ?_⟩
    intro t hpre hsuf
    have hle := hpre.length_le
    have hge := hsuf.length_le
    rw [List.length_cons] at hle
    rcases Nat.lt_or_ge marker.length t.length with hlt | hnlt
    · exact hpre.eq_of_length (by rw [List.length_cons]; omega)
    · -- The marker would start with one more of its first element.
      have ht : t = marker := (hsuf.eq_of_length (by omega)).symm
      subst ht
      obtain ⟨last, hlast⟩ := hpre
      have hget : (c :: t)[i + 1]? = t[i + 1]? := by
        rw [← hlast, List.getElem?_append_left (by omega)]
      rw [hsplit, List.getElem?_append_right (by simp), hbehind] at hget
      simp at hget
      exact absurd hget.symm hb

/-- A list that is not one repeated element starts with a run that ends. -/
theorem exists_run {marker : List α} (hne : marker ≠ [])
    (hdiff : ¬ ∀ c ∈ marker, ∀ d ∈ marker, c = d) :
    ∃ c b i tail, b ≠ c ∧ marker = List.replicate (i + 1) c ++ b :: tail := by
  obtain ⟨c, cs, rfl⟩ := List.exists_cons_of_ne_nil hne
  have hsplit : cs = cs.takeWhile (· = c) ++ cs.dropWhile (· = c) :=
    (List.takeWhile_append_dropWhile).symm
  have hrun : cs.takeWhile (· = c) = List.replicate (cs.takeWhile (· = c)).length c := by
    apply List.eq_replicate_of_mem
    intro d hd
    simpa using List.mem_takeWhile_imp hd
  cases hdrop : cs.dropWhile (· = c) with
  | nil =>
    exfalso
    rw [hdrop, List.append_nil, hrun] at hsplit
    apply hdiff
    rw [hsplit, ← List.replicate_succ]
    intro d hd e he
    rw [List.eq_of_mem_replicate hd, List.eq_of_mem_replicate he]
  | cons b tail =>
    refine ⟨c, b, (cs.takeWhile (· = c)).length, tail, ?_, ?_⟩
    · have hb := List.head_dropWhile_not (· = c) (by rw [hdrop]; exact List.cons_ne_nil _ _)
      simpa [hdrop] using hb
    · rw [hdrop] at hsplit
      rw [List.replicate_succ, List.cons_append, ← hrun, ← hsplit]

/-- The matcher that starts over never misses its marker exactly if that is one element,
repeated. -/
theorem neverLate_restart_iff : NeverLate (feed (restart marker) 0) marker ↔
    marker ≠ [] ∧ ∀ c ∈ marker, ∀ d ∈ marker, c = d := by
  rw [neverLate_feed_iff]
  constructor
  · intro h
    have hne : marker ≠ [] := by
      rintro rfl
      exact not_seen_more (h [] (firstEnd_self []))
    refine ⟨hne, ?_⟩
    by_contra hdiff
    obtain ⟨c, b, i, tail, hb, hmarker⟩ := exists_run hne hdiff
    obtain ⟨hmiss, hfirst⟩ := feed_restart_behind hb hmarker
    exact hmiss (h _ hfirst)
  · rintro ⟨hne, hsame⟩ cs hfirst
    obtain ⟨c, tail, rfl⟩ := List.exists_cons_of_ne_nil hne
    have hrep : c :: tail = List.replicate (tail.length + 1) c :=
      List.eq_replicate_of_mem fun d hd => hsame d hd c List.mem_cons_self
    rw [hrep] at hfirst ⊢
    rcases feed_restart_replicate c (Nat.succ_pos tail.length) cs with hseen | ⟨pos, -, hpos, hno⟩
    · exact hseen
    · refine absurd (List.IsSuffix.trans ?_ hfirst.1) hno
      refine ⟨List.replicate (tail.length - pos) c, ?_⟩
      rw [List.replicate_append_replicate]
      congr 1
      omega

end Restart
end Lib.Matcher
