import Mathlib.Algebra.GroupWithZero.Nat
import Mathlib.Data.List.Basic
import Mathlib.Tactic.Common

/-! The maximal runs of a list between separators. -/
namespace Lib.Runs

variable {α : Type} (sep : α → Prop)

/-- A maximal run of elements that are no separators, from its first position up to the one after
its last. -/
structure IsRun (xs : List α) (r : ℕ × ℕ) : Prop where
  lt : r.1 < r.2
  le : r.2 ≤ xs.length
  noSep : ∀ q c, r.1 ≤ q → q < r.2 → xs[q]? = some c → ¬ sep c
  left : ∀ c, 0 < r.1 → xs[r.1 - 1]? = some c → sep c
  right : ∀ c, xs[r.2]? = some c → sep c

/-- Where a run that is open at `q` may have started. -/
structure Opened (xs : List α) (i q : ℕ) : Prop where
  lt : i < q
  noSep : ∀ p c, i ≤ p → p < q → xs[p]? = some c → ¬ sep c
  left : ∀ c, 0 < i → xs[i - 1]? = some c → sep c

variable {sep} {xs : List α} {q i : ℕ} {r : ℕ × ℕ}

theorem Opened.isRun (h : Opened sep xs i q) (hq : q ≤ xs.length)
    (hright : ∀ c, xs[q]? = some c → sep c) : IsRun sep xs (i, q) :=
  ⟨h.lt, hq, h.noSep, h.left, hright⟩

theorem IsRun.start (h : IsRun sep xs r) {c : α} (hc : xs[r.1]? = some c) : ¬ sep c :=
  h.noSep r.1 c (Nat.le_refl _) h.lt hc

/-- The only run that starts where one is open ends where it closes. -/
theorem Opened.eq_of_isRun (h : Opened sep xs i q) (hq : q ≤ xs.length)
    (hright : ∀ c, xs[q]? = some c → sep c) (hr : IsRun sep xs r) (hi : i ≤ r.1)
    (hlt : r.1 < q) : r = (i, q) := by
  have hstart : r.1 = i := by
    by_contra hne
    have hget := List.getElem?_eq_getElem (show r.1 - 1 < xs.length by omega)
    exact h.noSep (r.1 - 1) _ (by omega) (by omega) hget (hr.left _ (by omega) hget)
  have hend : r.2 = q := by
    have hrun := hr.lt
    rcases Nat.lt_trichotomy r.2 q with hbefore | heq | hbehind
    · have hget := List.getElem?_eq_getElem (show r.2 < xs.length by omega)
      exact absurd (hr.right _ hget) (h.noSep r.2 _ (by omega) hbefore hget)
    · exact heq
    · have hget := List.getElem?_eq_getElem (show q < xs.length by have := hr.le; omega)
      exact absurd (hright _ hget) (hr.noSep q _ (by omega) hbehind hget)
  exact Prod.ext hstart hend

variable [DecidablePred sep]

variable (sep) in
/-- The runs of what follows position `q`; `some i` when a run that started at `i` is still open. -/
def runsFrom : Option ℕ → ℕ → List α → List (ℕ × ℕ)
  | none, _, [] => []
  | some i, q, [] => [(i, q)]
  | none, q, c :: cs => if sep c then runsFrom none (q + 1) cs else runsFrom (some q) (q + 1) cs
  | some i, q, c :: cs =>
    if sep c then (i, q) :: runsFrom none (q + 1) cs else runsFrom (some i) (q + 1) cs

variable (sep) in
def runs (xs : List α) : List (ℕ × ℕ) := runsFrom sep none 0 xs

theorem mem_runsFrom (cs : List α) (hq : q ≤ xs.length) (hcs : xs.drop q = cs) :
    (∀ i, Opened sep xs i q → (r ∈ runsFrom sep (some i) q cs ↔ IsRun sep xs r ∧ i ≤ r.1)) ∧
      ((∀ c, 0 < q → xs[q - 1]? = some c → sep c) →
        (r ∈ runsFrom sep none q cs ↔ IsRun sep xs r ∧ q ≤ r.1)) := by
  induction cs generalizing q with
  | nil =>
    have hlen : xs.length = q := by have := List.drop_eq_nil_iff.mp hcs; omega
    have hnone : ∀ c, xs[q]? = some c → sep c := by
      intro c hc
      rw [List.getElem?_eq_none (by omega)] at hc
      cases hc
    refine ⟨fun i hopen => ?_, fun _ => ?_⟩
    · simp only [runsFrom, List.mem_singleton]
      constructor
      · rintro rfl
        exact ⟨hopen.isRun hq hnone, Nat.le_refl _⟩
      · rintro ⟨hr, hi⟩
        exact hopen.eq_of_isRun hq hnone hr hi (by have := hr.lt; have := hr.le; omega)
    · simp only [runsFrom, List.not_mem_nil, false_iff]
      rintro ⟨hr, hle⟩
      have := hr.lt
      have := hr.le
      omega
  | cons c cs ih =>
    have hget : xs[q]? = some c := by rw [← List.head?_drop, hcs]; rfl
    have hlt : q < xs.length := (List.getElem?_eq_some_iff.mp hget).1
    obtain ⟨hsome, hnone⟩ := ih (q := q + 1) hlt (by rw [← List.drop_drop, hcs]; rfl)
    refine ⟨fun i hopen => ?_, fun hleft => ?_⟩
    · by_cases hc : sep c
      · have hright : ∀ d, xs[q]? = some d → sep d := by
          intro d hd
          rw [hget] at hd
          cases hd
          exact hc
        rw [runsFrom, if_pos hc, List.mem_cons, hnone fun d _ hd => hright d hd]
        constructor
        · rintro (rfl | ⟨hr, hle⟩)
          · exact ⟨hopen.isRun hq hright, Nat.le_refl _⟩
          · exact ⟨hr, by have := hopen.lt; omega⟩
        · rintro ⟨hr, hi⟩
          rcases Nat.lt_trichotomy r.1 q with hbefore | heq | hbehind
          · exact .inl (hopen.eq_of_isRun hq hright hr hi hbefore)
          · exact absurd hc (hr.start (heq ▸ hget))
          · exact .inr ⟨hr, hbehind⟩
      · rw [runsFrom, if_neg hc]
        refine hsome i ⟨by have := hopen.lt; omega, fun p d hp hpq hd => ?_, hopen.left⟩
        rcases Nat.lt_or_ge p q with hbefore | hat
        · exact hopen.noSep p d hp hbefore hd
        · obtain rfl : p = q := by omega
          rw [hget] at hd
          cases hd
          exact hc
    · by_cases hc : sep c
      · rw [runsFrom, if_pos hc, hnone fun d _ hd => by
          rw [Nat.add_sub_cancel, hget] at hd
          cases hd
          exact hc]
        refine and_congr_right fun hr => ⟨fun hle => by omega, fun hle => ?_⟩
        have hne : r.1 ≠ q := fun heq => hr.start (heq ▸ hget) hc
        omega
      · rw [runsFrom, if_neg hc]
        refine hsome q ⟨by omega, fun p d hp hpq hd => ?_, hleft⟩
        obtain rfl : p = q := by omega
        rw [hget] at hd
        cases hd
        exact hc

/-- The list of runs holds the maximal runs of the xs and nothing else. -/
theorem mem_runs : r ∈ runs sep xs ↔ IsRun sep xs r := by
  rw [runs, (mem_runsFrom xs (Nat.zero_le _) rfl).2 (by intro c h; omega)]
  simp

theorem runsFrom_ordered (cs : List α) (q : ℕ) :
    ((runsFrom sep none q cs).Pairwise (fun r s => r.2 < s.1) ∧ ∀ r ∈ runsFrom sep none q cs, q ≤ r.1) ∧
      ∀ i ≤ q, (runsFrom sep (some i) q cs).Pairwise (fun r s => r.2 < s.1) ∧
        ∀ r ∈ runsFrom sep (some i) q cs, i ≤ r.1 := by
  induction cs generalizing q with
  | nil => simp [runsFrom]
  | cons c cs ih =>
    obtain ⟨⟨hpair, hfrom⟩, hsome⟩ := ih (q + 1)
    by_cases hc : sep c
    · refine ⟨⟨by rwa [runsFrom, if_pos hc], fun r hr => ?_⟩, fun i hi => ?_⟩
      · rw [runsFrom, if_pos hc] at hr
        have := hfrom r hr
        omega
      · rw [runsFrom, if_pos hc]
        refine ⟨List.pairwise_cons.mpr ⟨fun s hs => hfrom s hs, hpair⟩, fun r hr => ?_⟩
        rcases List.mem_cons.mp hr with rfl | hr
        · exact Nat.le_refl _
        · have := hfrom r hr
          omega
    · refine ⟨?_, fun i hi => ?_⟩
      · rw [runsFrom, if_neg hc]
        exact hsome q (by omega)
      · rw [runsFrom, if_neg hc]
        exact hsome i (by omega)

/-- The runs stand in the order of the xs. -/
theorem runs_ordered : (runs sep xs).Pairwise fun r s => r.2 < s.1 :=
  (runsFrom_ordered xs 0).1.1

variable (sep) in
theorem runsFrom_some (cs : List α) (i q : ℕ) : ∃ word tail, cs = word ++ tail ∧
    (∀ c ∈ word, ¬ sep c) ∧ (∀ c ∈ tail.head?, sep c) ∧
      runsFrom sep (some i) q cs =
        (i, q + word.length) :: runsFrom sep none (q + word.length + 1) tail.tail := by
  induction cs generalizing q with
  | nil => exact ⟨[], [], rfl, by simp, by simp, rfl⟩
  | cons c cs ih =>
    by_cases hc : sep c
    · exact ⟨[], c :: cs, rfl, by simp, by simpa using hc, by simp [runsFrom, hc]⟩
    · obtain ⟨word, tail, rfl, hword, htail, hruns⟩ := ih (q + 1)
      refine ⟨c :: word, tail, rfl, by simpa [hc] using hword, htail, ?_⟩
      rw [runsFrom, if_neg hc, hruns]
      simp [Nat.add_assoc, Nat.add_comm 1]

/-- The first run of what follows position `q`, as the code comes upon it: seps, the word, and the
element that ends it. -/
theorem runsFrom_cons {cs : List α} {rs : List (ℕ × ℕ)} (h : runsFrom sep none q cs = r :: rs) :
    ∃ seps word tail, cs = seps ++ (word ++ tail) ∧ (∀ c ∈ seps, sep c) ∧ word ≠ [] ∧
      (∀ c ∈ word, ¬ sep c) ∧ (∀ c ∈ tail.head?, sep c) ∧
      r = (q + seps.length, q + seps.length + word.length) ∧
      rs = runsFrom sep none (r.2 + 1) tail.tail := by
  induction cs generalizing q with
  | nil => cases h
  | cons c cs ih =>
    by_cases hc : sep c
    · rw [runsFrom, if_pos hc] at h
      obtain ⟨seps, word, tail, rfl, hseps, hne, hword, htail, hr, hrs⟩ := ih h
      refine ⟨c :: seps, word, tail, rfl, by simpa [hc] using hseps, hne, hword, htail, ?_, hrs⟩
      simp [hr, Nat.add_assoc, Nat.add_comm 1]
    · rw [runsFrom, if_neg hc] at h
      obtain ⟨word, tail, rfl, hword, htail, hruns⟩ := runsFrom_some sep cs q (q + 1)
      rw [hruns] at h
      obtain ⟨rfl, rfl⟩ := List.cons.inj h
      refine ⟨[], c :: word, tail, rfl, by simp, by simp, by simpa [hc] using hword, htail, ?_, rfl⟩
      simp [Nat.add_assoc, Nat.add_comm 1]

theorem runsFrom_nil {cs : List α} (h : runsFrom sep none q cs = []) : ∀ c ∈ cs, sep c := by
  induction cs generalizing q with
  | nil => simp
  | cons c cs ih =>
    by_cases hc : sep c
    · rw [runsFrom, if_pos hc] at h
      simpa [hc] using ih h
    · rw [runsFrom, if_neg hc] at h
      obtain ⟨word, tail, -, -, -, hruns⟩ := runsFrom_some sep cs q (q + 1)
      rw [hruns] at h
      cases h
end Lib.Runs
