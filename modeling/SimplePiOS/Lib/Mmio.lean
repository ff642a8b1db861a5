import Mathlib.Logic.Relation
import Mathlib.Tactic.Common

/-! Programs that read and write the registers of a device which also moves on its own. -/
namespace Lib.Mmio

variable {R V C α β : Type}

/-- Accesses to registers of `R` with values of `V`, and waits of a number of cycles. -/
inductive Io (R V α : Type) where
  | done (a : α)
  | get (r : R) (k : V → Io R V α)
  | put (r : R) (v : V) (io : Io R V α)
  | wait (n : ℕ) (io : Io R V α)

namespace Io

protected def bind : Io R V α → (α → Io R V β) → Io R V β
  | done a, f => f a
  | get r k, f => get r fun v => (k v).bind f
  | put r v io, f => put r v (io.bind f)
  | wait n io, f => wait n (io.bind f)

instance : Monad (Io R V) where
  pure := done
  bind := Io.bind

@[simp] theorem pure_eq (a : α) : (pure a : Io R V α) = done a := rfl
@[simp] theorem done_bind (a : α) (f : α → Io R V β) : done a >>= f = f a := rfl
@[simp] theorem get_bind (r : R) (k : V → Io R V α) (f : α → Io R V β) :
    get r k >>= f = get r fun v => k v >>= f := rfl
@[simp] theorem put_bind (r : R) (v : V) (io : Io R V α) (f : α → Io R V β) :
    put r v io >>= f = put r v (io >>= f) := rfl
@[simp] theorem wait_bind (n : ℕ) (io : Io R V α) (f : α → Io R V β) :
    wait n io >>= f = wait n (io >>= f) := rfl

end Io

/-- What an access may do, and what may happen between two accesses. -/
structure Device (R V C : Type) where
  get : R → C → V → C → Prop
  put : R → V → C → C → Prop
  wait : ℕ → C → C → Prop
  env : C → C → Prop

/-- The program's next access. -/
inductive Access (D : Device R V C) : Io R V α × C → Io R V α × C → Prop where
  | get {r : R} {k : V → Io R V α} {c c' : C} {v : V} (h : D.get r c v c') :
    Access D (.get r k, c) (k v, c')
  | put {r : R} {v : V} {io : Io R V α} {c c' : C} (h : D.put r v c c') :
    Access D (.put r v io, c) (io, c')
  | wait {n : ℕ} {io : Io R V α} {c c' : C} (h : D.wait n c c') : Access D (.wait n io, c) (io, c')

/-- An access, or a move of the device. -/
inductive Step (D : Device R V C) : Io R V α × C → Io R V α × C → Prop where
  | access {x y : Io R V α × C} (h : Access D x y) : Step D x y
  | env {io : Io R V α} {c c' : C} (h : D.env c c') : Step D (io, c) (io, c')

abbrev Reach (D : Device R V C) : Io R V α × C → Io R V α × C → Prop := Relation.ReflTransGen (Step D)

section Triple
variable {D : Device R V C} {P P' : C → Prop} {Q : α → C → Prop} {S : β → C → Prop} {io : Io R V α}

theorem Access.of_bind {f : α → Io R V β} {c : C} {y : Io R V β × C} (h : Access D (io >>= f, c) y) :
    (∃ a, io = .done a) ∨ ∃ io' c', y = (io' >>= f, c') ∧ Access D (io, c) (io', c') := by
  cases io with
  | done a => exact .inl ⟨a, rfl⟩
  | get r k =>
    cases h with
    | get h => exact .inr ⟨_, _, rfl, .get h⟩
  | put r v io =>
    cases h with
    | put h => exact .inr ⟨_, _, rfl, .put h⟩
  | wait n io =>
    cases h with
    | wait h => exact .inr ⟨_, _, rfl, .wait h⟩

/-- A run of a sequence is a run of its first part and one of the rest. -/
theorem reach_bind {f : α → Io R V β} {c c' : C} {b : β} (h : Reach D (io >>= f, c) (.done b, c')) :
    ∃ a c₁, Reach D (io, c) (.done a, c₁) ∧ Reach D (f a, c₁) (.done b, c') := by
  generalize hx : (io >>= f, c) = x at h
  induction h using Relation.ReflTransGen.head_induction_on generalizing io c with
  | refl =>
    cases io with
    | done a =>
      refine ⟨a, c, .refl, ?_⟩
      rw [← hx]
      exact .refl
    | get r k => cases hx
    | put r v io => cases hx
    | wait n io => cases hx
  | head hstep hrest ih =>
    subst hx
    cases hstep with
    | access h =>
      obtain ⟨a, rfl⟩ | ⟨io', c', rfl, haccess⟩ := h.of_bind
      · exact ⟨a, c, .refl, hrest.head (.access h)⟩
      · obtain ⟨a, c₁, h₁, h₂⟩ := ih rfl
        exact ⟨a, c₁, h₁.head (.access haccess), h₂⟩
    | env h =>
      obtain ⟨a, c₁, h₁, h₂⟩ := ih rfl
      exact ⟨a, c₁, h₁.head (.env h), h₂⟩

/-- The device keeps it while nobody accesses it. -/
def Stable (D : Device R V C) (P : C → Prop) : Prop := ∀ c c', P c → D.env c c' → P c'

/-- What a run to the end does first. -/
theorem reach_cases {c c' : C} {a : α} (h : Reach D (io, c) (.done a, c')) (hstable : Stable D P)
    (hP : P c) : ∃ c₁, P c₁ ∧ (io = .done a ∧ c₁ = c' ∨
      ∃ y, Access D (io, c₁) y ∧ Reach D y (.done a, c')) := by
  generalize hx : (io, c) = x at h
  induction h using Relation.ReflTransGen.head_induction_on generalizing c with
  | refl =>
    cases hx
    exact ⟨c', hP, .inl ⟨rfl, rfl⟩⟩
  | head hstep hrest ih =>
    subst hx
    cases hstep with
    | access h => exact ⟨c, hP, .inr ⟨_, h, hrest⟩⟩
    | env h => exact ih (hstable _ _ hP h) rfl

theorem Step.bind {f : α → Io R V β} {x y : Io R V α × C} (h : Step D x y) :
    Step D (x.1 >>= f, x.2) (y.1 >>= f, y.2) := by
  cases h with
  | access h =>
    cases h with
    | get h => exact .access (.get h)
    | put h => exact .access (.put h)
    | wait h => exact .access (.wait h)
  | env h => exact .env h

/-- A run of the first part is a run of the sequence. -/
theorem reach_bind_left {f : α → Io R V β} {x y : Io R V α × C} (h : Reach D x y) :
    Reach D (x.1 >>= f, x.2) (y.1 >>= f, y.2) :=
  h.lift (fun x => (x.1 >>= f, x.2)) fun _ _ => Step.bind

/-- Moves of the device alone. -/
abbrev Drifts (D : Device R V C) : C → C → Prop := Relation.ReflTransGen D.env

theorem stable_drifts (c : C) : Stable D (Drifts D c) := fun _ _ hdrift henv => hdrift.tail henv

/-- A program at its end leaves the device to itself. -/
theorem drifts_of_done {a b : α} {c c' : C} (h : Reach D (.done a, c) (.done b, c')) :
    a = b ∧ Drifts D c c' := by
  obtain ⟨c₁, hdrift, ⟨heq, rfl⟩ | ⟨y, haccess, -⟩⟩ := reach_cases h (stable_drifts c) .refl
  · cases heq
    exact ⟨rfl, hdrift⟩
  · cases haccess

/-- Every run to the end leads from `P` to `Q`. -/
structure Triple (D : Device R V C) (P : C → Prop) (io : Io R V α) (Q : α → C → Prop) : Prop where
  of_reach : ∀ c a c', P c → Reach D (io, c) (.done a, c') → Q a c'

namespace Triple

/-- A fact that does not depend on the device may be used outside. -/
theorem assume {p : Prop} (h : p → Triple D P io Q) : Triple D (fun c => p ∧ P c) io Q :=
  ⟨fun c a c' hc => (h hc.1).of_reach c a c' hc.2⟩

theorem choose {ι : Type} {P : ι → C → Prop} (h : ∀ i, Triple D (P i) io Q) :
    Triple D (fun c => ∃ i, P i c) io Q :=
  ⟨fun c a c' ⟨i, hc⟩ => (h i).of_reach c a c' hc⟩

theorem bind {f : α → Io R V β} (h : Triple D P io Q) (hf : ∀ a, Triple D (Q a) (f a) S) :
    Triple D P (io >>= f) S := by
  constructor
  intro c b c' hc hrun
  obtain ⟨a, c₁, h₁, h₂⟩ := reach_bind hrun
  exact (hf a).of_reach c₁ b c' (h.of_reach c a c₁ hc h₁) h₂

theorem done {a : α} (hstable : Stable D P) (h : ∀ c, P c → Q a c) : Triple D P (.done a) Q := by
  constructor
  intro c b c' hc hrun
  obtain ⟨c₁, hc₁, ⟨heq, rfl⟩ | ⟨y, haccess, -⟩⟩ := reach_cases hrun hstable hc
  · cases heq
    exact h c₁ hc₁
  · cases haccess

theorem get {r : R} {k : V → Io R V α} (P' : V → C → Prop) (hstable : Stable D P)
    (h : ∀ c v c', P c → D.get r c v c' → P' v c') (hk : ∀ v, Triple D (P' v) (k v) Q) :
    Triple D P (.get r k) Q := by
  constructor
  intro c b c' hc hrun
  obtain ⟨c₁, hc₁, ⟨heq, -⟩ | ⟨y, haccess, hrest⟩⟩ := reach_cases hrun hstable hc
  · cases heq
  · cases haccess with
    | get hget => exact (hk _).of_reach _ b c' (h _ _ _ hc₁ hget) hrest

theorem put {r : R} {v : V} (hstable : Stable D P) (h : ∀ c c', P c → D.put r v c c' → P' c')
    (hio : Triple D P' io Q) : Triple D P (.put r v io) Q := by
  constructor
  intro c b c' hc hrun
  obtain ⟨c₁, hc₁, ⟨heq, -⟩ | ⟨y, haccess, hrest⟩⟩ := reach_cases hrun hstable hc
  · cases heq
  · cases haccess with
    | put hput => exact hio.of_reach _ b c' (h _ _ hc₁ hput) hrest

theorem wait {n : ℕ} (hstable : Stable D P) (h : ∀ c c', P c → D.wait n c c' → P' c')
    (hio : Triple D P' io Q) : Triple D P (.wait n io) Q := by
  constructor
  intro c b c' hc hrun
  obtain ⟨c₁, hc₁, ⟨heq, -⟩ | ⟨y, haccess, hrest⟩⟩ := reach_cases hrun hstable hc
  · cases heq
  · cases haccess with
    | wait hwait => exact hio.of_reach _ b c' (h _ _ hc₁ hwait) hrest

end Triple

/-- From `P` every run comes to its end in `Q`; from then on the device moves on its own. -/
structure Lands (D : Device R V C) (P : C → Prop) (io : Io R V α) (Q : α → C → Prop) : Prop where
  of_reach : ∀ c a c', P c → Reach D (io, c) (.done a, c') →
    ∃ c₁, Reach D (io, c) (.done a, c₁) ∧ Q a c₁ ∧ Drifts D c₁ c'

namespace Lands

theorem bind {f : α → Io R V β} (h : Triple D P io Q) (hf : ∀ a, Lands D (Q a) (f a) S) :
    Lands D P (io >>= f) S := by
  constructor
  intro c b c' hc hrun
  obtain ⟨a, c₁, h₁, h₂⟩ := reach_bind hrun
  obtain ⟨c₂, hend, hS, hdrift⟩ := (hf a).of_reach c₁ b c' (h.of_reach c a c₁ hc h₁) h₂
  exact ⟨c₂, (reach_bind_left h₁).trans hend, hS, hdrift⟩

/-- The last access reads a register. -/
theorem get {r : R} {k : V → α} (hstable : Stable D P) (h : ∀ c v c', P c → D.get r c v c' → Q (k v) c') :
    Lands D P (.get r fun v => .done (k v)) Q := by
  constructor
  intro c a c' hc hrun
  have hboth : Stable D fun c₁ => P c₁ ∧ Reach D (.get r fun v => .done (k v), c) (.get r fun v => .done (k v), c₁) :=
    fun _ _ hc₁ henv => ⟨hstable _ _ hc₁.1 henv, hc₁.2.tail (.env henv)⟩
  obtain ⟨c₁, ⟨hc₁, hreach⟩, ⟨heq, -⟩ | ⟨y, haccess, hrest⟩⟩ := reach_cases hrun hboth ⟨hc, .refl⟩
  · cases heq
  · cases haccess with
    | get hget =>
      obtain ⟨rfl, hdrift⟩ := drifts_of_done hrest
      exact ⟨_, hreach.tail (.access (.get hget)), h _ _ _ hc₁ hget, hdrift⟩

/-- The last access writes one. -/
theorem put {r : R} {v : V} {b : α} (hstable : Stable D P) (h : ∀ c c', P c → D.put r v c c' → Q b c') :
    Lands D P (.put r v (.done b)) Q := by
  constructor
  intro c a c' hc hrun
  have hboth : Stable D fun c₁ => P c₁ ∧ Reach D (.put r v (.done b), c) (.put r v (.done b), c₁) :=
    fun _ _ hc₁ henv => ⟨hstable _ _ hc₁.1 henv, hc₁.2.tail (.env henv)⟩
  obtain ⟨c₁, ⟨hc₁, hreach⟩, ⟨heq, -⟩ | ⟨y, haccess, hrest⟩⟩ := reach_cases hrun hboth ⟨hc, .refl⟩
  · cases heq
  · cases haccess with
    | put hput =>
      obtain ⟨rfl, hdrift⟩ := drifts_of_done hrest
      exact ⟨_, hreach.tail (.access (.put hput)), h _ _ hc₁ hput, hdrift⟩

end Lands

/-- A device that answers every access lets every program come to its end. -/
structure Device.Total (D : Device R V C) : Prop where
  get : ∀ r c, ∃ v c', D.get r c v c'
  put : ∀ r v c, ∃ c', D.put r v c c'
  wait : ∀ n c, ∃ c', D.wait n c c'

theorem Device.Total.reach (h : D.Total) (io : Io R V α) (c : C) :
    ∃ a c', Reach D (io, c) (.done a, c') := by
  induction io generalizing c with
  | done a => exact ⟨a, c, .refl⟩
  | get r k ih =>
    obtain ⟨v, c₁, hget⟩ := h.get r c
    obtain ⟨a, c', hrun⟩ := ih v c₁
    exact ⟨a, c', hrun.head (.access (.get hget))⟩
  | put r v io ih =>
    obtain ⟨c₁, hput⟩ := h.put r v c
    obtain ⟨a, c', hrun⟩ := ih c₁
    exact ⟨a, c', hrun.head (.access (.put hput))⟩
  | wait n io ih =>
    obtain ⟨c₁, hwait⟩ := h.wait n c
    obtain ⟨a, c', hrun⟩ := ih c₁
    exact ⟨a, c', hrun.head (.access (.wait hwait))⟩

end Triple
end Lib.Mmio
