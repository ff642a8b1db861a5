import Mathlib.Algebra.GroupWithZero.Nat
import Mathlib.Logic.Function.Basic
import Mathlib.Tactic.Common

/-! Singly linked lists in a heap of `next` pointers. -/
namespace Lib.Linked

variable {α : Type} {next next' : α → Option α} {p q r : Option α} {l l' : List α} {x : α}

/-- The pointers lead from `p` through the nodes of the list to `q`. -/
def Path (next : α → Option α) : Option α → List α → Option α → Prop
  | p, [], q => p = q
  | p, x :: xs, q => p = some x ∧ Path next (next x) xs q

theorem Path.append (h : Path next p l q) (h' : Path next q l' r) : Path next p (l ++ l') r := by
  induction l generalizing p with
  | nil =>
    obtain rfl : p = q := h
    exact h'
  | cons x xs ih => exact ⟨h.1, ih h.2⟩

theorem Path.of_append (h : Path next p (l ++ l') r) : ∃ q, Path next p l q ∧ Path next q l' r := by
  induction l generalizing p with
  | nil => exact ⟨p, rfl, h⟩
  | cons x xs ih =>
    obtain ⟨q, hq, hrest⟩ := ih h.2
    exact ⟨q, ⟨h.1, hq⟩, hrest⟩

/-- Only the pointers of the nodes on the path matter. -/
theorem Path.congr (h : Path next p l q) (hnext : ∀ x ∈ l, next' x = next x) :
    Path next' p l q := by
  induction l generalizing p with
  | nil => exact h
  | cons x xs ih =>
    obtain ⟨hx, hxs⟩ := List.forall_mem_cons.mp hnext
    exact ⟨h.1, by rw [hx]; exact ih h.2 hxs⟩

theorem Path.unique (h : Path next p l none) (h' : Path next p l' none) : l = l' := by
  induction l generalizing p l' with
  | nil =>
    obtain rfl : p = none := h
    cases l' with
    | nil => rfl
    | cons y ys => cases h'.1
  | cons x xs ih =>
    obtain ⟨rfl, hxs⟩ := h
    cases l' with
    | nil => cases h'
    | cons y ys =>
      obtain ⟨hxy, hys⟩ := h'
      cases hxy
      rw [ih hxs hys]

/-- A list that ends does not come back to a node. -/
theorem Path.nodup (h : Path next p l none) : l.Nodup := by
  induction l generalizing p with
  | nil => exact List.nodup_nil
  | cons x xs ih =>
    refine List.nodup_cons.mpr ⟨fun hmem => ?_, ih h.2⟩
    obtain ⟨a, b, rfl⟩ := List.append_of_mem hmem
    obtain ⟨q, -, hq⟩ := h.2.of_append
    have hlen := congrArg List.length (h.2.unique hq.2)
    simp only [List.length_append, List.length_cons] at hlen
    omega

/-- Hanging a new node onto the last one. -/
theorem Path.snoc [DecidableEq α] (h : Path next p (l ++ [x]) none) {e : α} (he : e ∉ l ++ [x]) :
    Path (Function.update (Function.update next e none) x (some e)) p (l ++ [x] ++ [e]) none := by
  have hx : x ∉ l := by
    have hnodup := h.nodup
    rw [List.nodup_append] at hnodup
    exact fun hmem => hnodup.2.2 x hmem x List.mem_cons_self rfl
  have hex : e ≠ x := fun heq => he (heq ▸ List.mem_append_right _ List.mem_cons_self)
  obtain ⟨q, hl, rfl, -⟩ := h.of_append
  have hkeep : Path (Function.update (Function.update next e none) x (some e)) p l (some x) := by
    refine hl.congr fun y hy => ?_
    have hyx : y ≠ x := fun heq => hx (heq ▸ hy)
    have hye : y ≠ e := fun heq => he (heq ▸ List.mem_append_left _ hy)
    rw [Function.update_of_ne hyx, Function.update_of_ne hye]
  have hlast : Path (Function.update (Function.update next e none) x (some e)) (some x) [x]
      (some e) := ⟨rfl, Function.update_self ..⟩
  have hnew : Path (Function.update (Function.update next e none) x (some e)) (some e) [e] none := by
    refine ⟨rfl, ?_⟩
    rw [Function.update_of_ne hex, Function.update_self]
    rfl
  exact (hkeep.append hlast).append hnew

end Lib.Linked
