import SimplePiOS.Lib.Fifo

/-! Dialogues of two programs over intact channels, put together from questions and answers. -/
namespace Lib.Fifo

variable {W α β γ : Type}

/-- A loop runs as part of a larger one, which keeps its place in it by `f`. -/
def Embeds (next : α → Option (Prog W α)) (next' : γ → Option (Prog W γ)) (f : α → γ) : Prop :=
  ∀ x p, next x = some p → next' (f x) = some do
    let x ← p
    return f x

/-- It does there what it does alone. -/
theorem Solo.embed {next : α → Option (Prog W α)} {next' : γ → Option (Prog W γ)} {f : α → γ}
    (hf : Embeds next next' f) {p q : Prog W α} {ins outs : List W} (h : Solo next p ins outs q) :
    Solo next' (p >>= fun x => return f x) ins outs (q >>= fun x => return f x) := by
  induction h with
  | refl p => exact .refl _
  | send _ ih => exact .send ih
  | recv _ ih => exact .recv ih
  | next hx _ ih => exact .next (hf _ _ hx) ih

/-- A party that runs once may be part of anything. -/
theorem Solo.once {next : α → Option (Prog W α)} (hnone : ∀ x, next x = none)
    (next' : γ → Option (Prog W γ)) (f : α → Prog W γ) {p q : Prog W α} {ins outs : List W}
    (h : Solo next p ins outs q) : Solo next' (p >>= f) ins outs (q >>= f) := by
  induction h with
  | refl p => exact .refl _
  | send _ ih => exact .send ih
  | recv _ ih => exact .recv ih
  | next hx _ _ => simp [hnone] at hx

section Talk
variable {nextA : α → Option (Prog W α)} {nextB : β → Option (Prog W β)} {p p' p'' : Prog W α}
  {q q' q'' : Prog W β} {sent sent' got got' : List W}

/-- Each party says its part, and there is a run on which all of it is heard. -/
structure Talk (nextA : α → Option (Prog W α)) (nextB : β → Option (Prog W β)) (p : Prog W α)
    (q : Prog W β) (sent got : List W) (p' : Prog W α) (q' : Prog W β) : Prop where
  first : Solo nextA p got sent p'
  second : Solo nextB q sent got q'
  run : ∀ n, ∃ k, RunN (Step nextA nextB fun _ => id) k ⟨p, q, [], [], n⟩
    ⟨p', q', [], [], n + sent.length⟩

namespace Talk

theorem refl (p : Prog W α) (q : Prog W β) : Talk nextA nextB p q [] [] p q :=
  ⟨.refl p, .refl q, fun _ => ⟨0, .refl _⟩⟩

theorem trans (h : Talk nextA nextB p q sent got p' q') (h' : Talk nextA nextB p' q' sent' got' p'' q'') :
    Talk nextA nextB p q (sent ++ sent') (got ++ got') p'' q'' := by
  refine ⟨h.first.trans h'.first, h.second.trans h'.second, fun n => ?_⟩
  obtain ⟨k, hk⟩ := h.run n
  obtain ⟨l, hl⟩ := h'.run (n + sent.length)
  rw [List.length_append, ← Nat.add_assoc]
  exact ⟨k + l, hk.trans hl⟩

/-- The first party asks, the second answers, and the first hears the answer. -/
theorem ask (hask : Solo nextA p [] sent p') (hanswer : Solo nextB q sent got q')
    (hhear : Solo nextA p' got [] p'') : Talk nextA nextB p q sent got p'' q' := by
  have hfirst := hask.trans hhear
  rw [List.nil_append, List.append_nil] at hfirst
  refine ⟨hfirst, hanswer, fun n => ?_⟩
  rw [← noised_id n sent] at hanswer
  obtain ⟨k, hk⟩ := turn (fun _ => id) n hask hanswer
  obtain ⟨l, hl⟩ := turn (fun _ => id) (n + sent.length) hhear (.idle nextB q')
  exact ⟨k + l, hk.trans hl⟩

/-- The first party goes on alone. -/
theorem alone (q : Prog W β) (h : Solo nextA p [] [] p') : Talk nextA nextB p q [] [] p' q :=
  ask h (.refl q) (.refl p')

/-- The second party speaks first. -/
theorem hear (htell : Solo nextB q [] got q') (hhear : Solo nextA p got [] p') :
    Talk nextA nextB p q [] got p' q' :=
  ask (.refl p) htell hhear

/-- A dialogue that leaves both parties without a step is how every run ends. -/
theorem inevitable (h : Talk nextA nextB p q sent got p' q') (n : ℕ)
    (hstuck : Stuck (Step nextA nextB fun _ => id) ⟨p', q', [], [], n + sent.length⟩) :
    Inevitable (Step nextA nextB fun _ => id) ⟨p, q, [], [], n⟩ ⟨p', q', [], [], n + sent.length⟩ := by
  obtain ⟨k, hk⟩ := h.run n
  exact hk.inevitable diamond hstuck

end Talk

/-- Both parties wait for each other, or are done. -/
theorem stuck_waiting {a : Prog W α} {b : Prog W β} {n : ℕ}
    (ha : (∃ k, a = .recv k) ∨ ∃ x, a = .done x ∧ nextA x = none)
    (hb : (∃ k, b = .recv k) ∨ ∃ y, b = .done y ∧ nextB y = none) :
    Stuck (Step nextA nextB fun _ => id) ⟨a, b, [], [], n⟩ := by
  intro c hc
  rcases hc with hc | hc
  · obtain ⟨k, rfl⟩ | ⟨x, rfl, hx⟩ := ha
    · cases hc
    · simp [stepA, hx] at hc
  · obtain ⟨k, rfl⟩ | ⟨y, rfl, hy⟩ := hb
    · cases hc
    · simp [stepB, hy] at hc

end Talk

end Lib.Fifo
