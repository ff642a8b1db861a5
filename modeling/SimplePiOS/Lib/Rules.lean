import SimplePiOS.Lib.EState

/-! More rules for the triples: facts and choices that a precondition carries along. -/
namespace Lib.Triple

variable {ε σ α β ι : Type} {P P' : σ → Prop} {Q Q' : α → σ → Prop} {R : β → σ → Prop} {E : σ → Prop}
  {m : EStateM ε σ α} {f : α → EStateM ε σ β}

/-- A fact that does not depend on the state may be used outside. -/
theorem assume {p : Prop} (h : p → Triple P m Q E) : Triple (fun s => p ∧ P s) m Q E :=
  fun s hs => h hs.1 s hs.2

/-- A choice made before may be fixed outside. -/
theorem choose {P : ι → σ → Prop} (h : ∀ i, Triple (P i) m Q E) :
    Triple (fun s => ∃ i, P i s) m Q E := by
  intro s hs
  obtain ⟨i, hi⟩ := hs
  exact h i s hi

theorem post (h : Triple P m Q E) (hq : ∀ a s, Q a s → Q' a s) : Triple P m Q' E :=
  h.weaken (fun _ => id) hq

theorem pre (h : Triple P m Q E) (hp : ∀ s, P' s → P s) : Triple P' m Q E :=
  h.weaken hp fun _ _ => id

/-- What the triple says of a run that returned. -/
theorem of_ok {a : α} {s t : σ} (h : Triple P m Q E) (hs : P s) (hr : m.run s = .ok a t) : Q a t := by
  have hrun := h s hs
  rwa [hr] at hrun

/-- A computation that stops nowhere returns. -/
theorem returns {s : σ} (h : Triple P m Q fun _ => False) (hs : P s) :
    ∃ a t, m.run s = .ok a t ∧ Q a t := by
  have hrun := h s hs
  cases hr : m.run s with
  | ok a t =>
    rw [hr] at hrun
    exact ⟨a, t, rfl, hrun⟩
  | error e t =>
    rw [hr] at hrun
    exact hrun.elim

end Lib.Triple
