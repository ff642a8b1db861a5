import Mathlib.Algebra.GroupWithZero.Nat
import Mathlib.Order.Basic
import Mathlib.Tactic.Common

/-! Partial-correctness triples for computations that carry a state and may stop early.
The state survives a stop, so a triple has a postcondition for either ending. -/
namespace Lib

variable {ε σ α β ι : Type}

/-- From a state satisfying `P`, a normal end satisfies `Q` and a stop satisfies `E`. -/
def Triple (P : σ → Prop) (m : EStateM ε σ α) (Q : α → σ → Prop) (E : σ → Prop) : Prop :=
  ∀ s, P s → match m.run s with
    | .ok a s' => Q a s'
    | .error _ s' => E s'

/-- The state a run ends in, normally or not. -/
def endState : EStateM.Result ε σ α → σ
  | .ok _ s => s
  | .error _ s => s

@[simp] theorem endState_ok (a : α) (s : σ) : endState (ε := ε) (.ok a s) = s := rfl
@[simp] theorem endState_error (e : ε) (s : σ) : endState (α := α) (.error e s) = s := rfl

section Run
variable {m : EStateM ε σ α} {f : α → EStateM ε σ β} {s s' : σ}

theorem bind_ok {a : α} (h : m.run s = .ok a s') : (m >>= f).run s = (f a).run s' := by
  rw [EStateM.run_bind, h]

theorem bind_error {e : ε} (h : m.run s = .error e s') : (m >>= f).run s = .error e s' := by
  rw [EStateM.run_bind, h]

/-- A sequence that ends normally splits at its first component. -/
theorem of_bind_ok {b : β} (h : (m >>= f).run s = .ok b s') :
    ∃ a t, m.run s = .ok a t ∧ (f a).run t = .ok b s' := by
  cases hm : m.run s with
  | ok a t => exact ⟨a, t, rfl, by rwa [bind_ok hm] at h⟩
  | error e t => rw [bind_error hm] at h; cases h

/-- A loop that ends normally did so at each of its elements. -/
theorem of_forM_ok {I : σ → Prop} {P : ι → Prop} {f : ι → EStateM ε σ PUnit}
    {l : List ι} {s t : σ} {u : PUnit}
    (h : ∀ i ∈ l, ∀ s t u, I s → (f i).run s = .ok u t → I t ∧ P i) (hs : I s)
    (hrun : (ForM.forM l f).run s = .ok u t) : I t ∧ ∀ i ∈ l, P i := by
  induction l generalizing s with
  | nil =>
    cases hrun
    exact ⟨hs, by simp⟩
  | cons i l ih =>
    rw [List.forM_cons] at hrun
    obtain ⟨a, s', hfirst, hrest⟩ := of_bind_ok hrun
    obtain ⟨hs', hi⟩ := h i (by simp) s s' a hs hfirst
    obtain ⟨ht, hl⟩ := ih (fun j hj => h j (by simp [hj])) hs' hrest
    exact ⟨ht, List.forall_mem_cons.mpr ⟨hi, hl⟩⟩

end Run

namespace Triple

variable {P P' : σ → Prop} {Q Q' : α → σ → Prop} {R : β → σ → Prop} {E E' : σ → Prop}

theorem pure {a : α} (h : ∀ s, P s → Q a s) :
    Triple P (Pure.pure a : EStateM ε σ α) Q E :=
  fun s hs => h s hs

theorem throw {e : ε} (h : ∀ s, P s → E s) :
    Triple P (MonadExcept.throw e : EStateM ε σ α) Q E :=
  fun s hs => h s hs

theorem of_run {m : EStateM ε σ α} {f : σ → σ} {a : α} (hm : ∀ s, m.run s = .ok a (f s))
    (h : ∀ s, P s → Q a (f s)) : Triple P m Q E := by
  intro s hs
  rw [hm s]
  exact h s hs

theorem bind {m : EStateM ε σ α} {f : α → EStateM ε σ β}
    (hm : Triple P m Q E) (hf : ∀ a, Triple (Q a) (f a) R E) :
    Triple P (m >>= f) R E := by
  intro s hs
  have h := hm s hs
  cases hr : m.run s with
  | ok a s' =>
    rw [hr] at h
    rw [bind_ok hr]
    exact hf a s' h
  | error e s' =>
    rw [hr] at h
    rw [bind_error hr]
    exact h

theorem conseq {m : EStateM ε σ α} (h : Triple P m Q E) (hp : ∀ s, P' s → P s)
    (hq : ∀ a s, Q a s → Q' a s) (he : ∀ s, E s → E' s) : Triple P' m Q' E' := by
  intro s hs
  have hh := h s (hp s hs)
  cases hr : m.run s with
  | ok a s' =>
    rw [hr] at hh
    exact hq a s' hh
  | error e s' =>
    rw [hr] at hh
    exact he s' hh

theorem weaken {m : EStateM ε σ α} (h : Triple P m Q E) (hp : ∀ s, P' s → P s)
    (hq : ∀ a s, Q a s → Q' a s) : Triple P' m Q' E :=
  h.conseq hp hq fun _ he => he

theorem ite {c : Prop} [Decidable c] {m m' : EStateM ε σ α}
    (hm : c → Triple P m Q E) (hm' : ¬ c → Triple P m' Q E) :
    Triple P (if c then m else m') Q E := by
  split
  · next h => exact hm h
  · next h => exact hm' h

/-- The loop rule; the invariant speaks about the elements already done. -/
theorem forM {f : ι → EStateM ε σ PUnit} {l : List ι} {I : List ι → σ → Prop}
    (h : ∀ done i rest, l = done ++ i :: rest →
      Triple (I done) (f i) (fun _ => I (done ++ [i])) E) :
    Triple (I []) (ForM.forM l f) (fun _ => I l) E := by
  suffices hs : ∀ rest done, l = done ++ rest →
      Triple (I done) (ForM.forM rest f) (fun _ => I l) E from hs l [] rfl
  intro rest
  induction rest with
  | nil =>
    intro done hl
    rw [List.append_nil] at hl
    subst hl
    exact .pure fun s hs => hs
  | cons i rest ih =>
    intro done hl
    rw [List.forM_cons]
    exact .bind (h done i rest hl) fun _ => ih (done ++ [i]) (by simpa using hl)

end Triple

/-- From `I`, `m` ends in `I` again or stops in `E`. -/
abbrev Keeps (I E : σ → Prop) (m : EStateM ε σ α) : Prop := Triple I m (fun _ => I) E

namespace Keeps

variable {I E : σ → Prop}

theorem forM {f : ι → EStateM ε σ PUnit} {l : List ι} (h : ∀ i ∈ l, Keeps I E (f i)) :
    Keeps I E (ForM.forM l f) := by
  apply Triple.forM (I := fun _ => I)
  intro done i rest hl
  exact h i (by simp [hl])

theorem foldlM {f : α → ι → EStateM ε σ α} {l : List ι} (h : ∀ a, ∀ i ∈ l, Keeps I E (f a i))
    (a : α) : Keeps I E (l.foldlM f a) := by
  induction l generalizing a with
  | nil => exact .pure fun s hs => hs
  | cons i l ih =>
    rw [List.foldlM_cons]
    apply Triple.bind (h a i (by simp))
    intro b
    exact ih (fun c j hj => h c j (by simp [hj])) b

end Keeps
end Lib
