import SimplePiOS.Lib.EState

/-! Computations whose state records its own past. An assertion speaks about the present
state, an invariant about every entry recorded since the computation began. -/
namespace Lib

variable {ε σ E α β ι : Type}

/-- What was recorded between `s` and `t`; the last entry comes first. -/
def since (past : σ → List E) (s t : σ) : List E :=
  (past t).take ((past t).length - (past s).length)

/-- `t` only adds entries to `s`. If `L` holds at `s` and each new entry satisfies `H`, then
each satisfies `K`, and `L'` holds at `t`. -/
def Along (past : σ → List E) (H K : E → Prop) (L L' : σ → Prop) (s t : σ) : Prop :=
  ∃ new, past t = new ++ past s ∧ (L s → (∀ x ∈ new, H x) → L' t ∧ ∀ x ∈ new, K x)

/-- `m` takes `L` to `L'` and records entries that satisfy `K`, as long as they satisfy `H`;
it may stop on the way. -/
def Traced (past : σ → List E) (H K : E → Prop) (L : σ → Prop) (m : EStateM ε σ α)
    (L' : α → σ → Prop) : Prop :=
  ∀ s, match m.run s with
    | .ok a t => Along past H K L (L' a) s t
    | .error _ t => Along past H K L (fun _ => True) s t

/-- The past is never lost. -/
def Grows (past : σ → List E) (m : EStateM ε σ α) : Prop :=
  Traced past (fun _ => True) (fun _ => True) (fun _ => True) m fun _ _ => True

/-- `t` comes after `s`. -/
def Extends (past : σ → List E) (s t : σ) : Prop := ∃ new, past t = new ++ past s

variable {past : σ → List E} {H K : E → Prop} {L L' L'' : σ → Prop} {s t u : σ}

theorem since_eq {new : List E} (h : past t = new ++ past s) : since past s t = new := by
  unfold since
  simp [h]

theorem Extends.trans (h : Extends past s t) (h' : Extends past t u) : Extends past s u := by
  obtain ⟨new, hpast⟩ := h
  obtain ⟨new', hpast'⟩ := h'
  exact ⟨new' ++ new, by rw [hpast', hpast, List.append_assoc]⟩

/-- What was recorded falls into two parts at any state in between. -/
theorem Extends.since_append (h : Extends past s t) (h' : Extends past t u) :
    since past s u = since past t u ++ since past s t := by
  obtain ⟨new, hpast⟩ := h
  obtain ⟨new', hpast'⟩ := h'
  rw [since_eq hpast, since_eq hpast']
  apply since_eq
  rw [hpast', hpast, List.append_assoc]

theorem Extends.forall_since {P : E → Prop} (h : Extends past s t) (h' : Extends past t u)
    (hall : ∀ x ∈ since past s u, P x) :
    (∀ x ∈ since past s t, P x) ∧ ∀ x ∈ since past t u, P x := by
  rw [h.since_append h'] at hall
  exact ⟨fun x hx => hall x (List.mem_append_right _ hx), fun x hx => hall x (List.mem_append_left _ hx)⟩

theorem Extends.forall_past {P : E → Prop} (h : Extends past s t) (hall : ∀ x ∈ past t, P x) :
    ∀ x ∈ past s, P x := by
  obtain ⟨new, hpast⟩ := h
  rw [hpast] at hall
  exact fun x hx => hall x (List.mem_append_right _ hx)

namespace Along

theorem refl (h : L s → L' s) : Along past H K L L' s s :=
  ⟨[], by simp, fun hL _ => ⟨h hL, by simp⟩⟩

theorem trans (h : Along past H K L L' s t) (h' : Along past H K L' L'' t u) :
    Along past H K L L'' s u := by
  obtain ⟨new, hpast, hall⟩ := h
  obtain ⟨new', hpast', hall'⟩ := h'
  refine ⟨new' ++ new, by simp [hpast', hpast], ?_⟩
  intro hL hH
  have hfirst := hall hL fun x hx => hH x (by simp [hx])
  have hsecond := hall' hfirst.1 fun x hx => hH x (by simp [hx])
  refine ⟨hsecond.1, ?_⟩
  intro x hx
  rcases List.mem_append.mp hx with hx | hx
  · exact hsecond.2 x hx
  · exact hfirst.2 x hx

theorem mono {H' K' : E → Prop} {M M' : σ → Prop} (h : Along past H K L L' s t)
    (hM : M s → L s) (hL' : L' t → M' t) (hH : ∀ x, H' x → H x) (hK : ∀ x, K x → K' x) :
    Along past H' K' M M' s t := by
  obtain ⟨new, hpast, hall⟩ := h
  refine ⟨new, hpast, ?_⟩
  intro hs hnew
  obtain ⟨ht, hks⟩ := hall (hM hs) fun x hx => hH x (hnew x hx)
  exact ⟨hL' ht, fun x hx => hK x (hks x hx)⟩

theorem and {K' : E → Prop} {M M' : σ → Prop} (h : Along past H K L L' s t)
    (h' : Along past H K' M M' s t) :
    Along past H (fun x => K x ∧ K' x) (fun s => L s ∧ M s) (fun s => L' s ∧ M' s) s t := by
  obtain ⟨new, hpast, hall⟩ := h
  obtain ⟨new', hpast', hall'⟩ := h'
  have heq : new' = new := List.append_cancel_right (hpast'.symm.trans hpast)
  subst heq
  refine ⟨new', hpast, ?_⟩
  intro hs hnew
  obtain ⟨h1, h2⟩ := hall hs.1 hnew
  obtain ⟨h3, h4⟩ := hall' hs.2 hnew
  exact ⟨⟨h1, h3⟩, fun x hx => ⟨h2 x hx, h4 x hx⟩⟩

/-- The present and the entries, once the hypothesis on the entries is met. -/
theorem elim (h : Along past H K L L' s t) (hL : L s) (hH : ∀ x ∈ since past s t, H x) :
    L' t ∧ ∀ x ∈ since past s t, K x := by
  obtain ⟨new, hpast, hall⟩ := h
  rw [since_eq hpast] at hH ⊢
  exact hall hL hH

end Along

namespace Traced

variable {m : EStateM ε σ α} {f : α → EStateM ε σ β} {Q Q' : α → σ → Prop} {R : β → σ → Prop}

theorem of_ok {a : α} (h : Traced past H K L m Q) (hr : m.run s = .ok a t) :
    Along past H K L (Q a) s t := by
  have hs := h s
  rwa [hr] at hs

theorem of_error {e : ε} (h : Traced past H K L m Q) (hr : m.run s = .error e t) :
    Along past H K L (fun _ => True) s t := by
  have hs := h s
  rwa [hr] at hs

/-- Whatever is known of a computation, it adds to the past only. -/
theorem grows (h : Traced past H K L m Q) : Grows past m := by
  intro s
  have hs := h s
  cases hr : m.run s with
  | ok a t =>
    rw [hr] at hs
    obtain ⟨new, hpast, -⟩ := hs
    exact ⟨new, hpast, fun _ _ => ⟨trivial, fun _ _ => trivial⟩⟩
  | error e t =>
    rw [hr] at hs
    obtain ⟨new, hpast, -⟩ := hs
    exact ⟨new, hpast, fun _ _ => ⟨trivial, fun _ _ => trivial⟩⟩

theorem extends_ok {a : α} (h : Traced past H K L m Q) (hr : m.run s = .ok a t) : Extends past s t := by
  obtain ⟨new, hpast, -⟩ := h.of_ok hr
  exact ⟨new, hpast⟩

/-- Without a hypothesis on the entries the assertions alone form a triple. -/
theorem triple (h : Traced past (fun _ => True) K L m Q) : Triple L m Q fun _ => True := by
  intro s hL
  cases hr : m.run s with
  | ok a t =>
    obtain ⟨new, -, hall⟩ := h.of_ok hr
    exact (hall hL fun _ _ => trivial).1
  | error e t => trivial

/-- However a run ends, it only adds to the past. -/
theorem at_end (h : Traced past H K L m Q) (s : σ) :
    Along past H K L (fun _ => True) s (endState (m.run s)) := by
  cases hr : m.run s with
  | ok a t => exact (h.of_ok hr).mono id (fun _ => trivial) (fun _ => id) fun _ => id
  | error e t => exact h.of_error hr

theorem extends_end (h : Traced past H K L m Q) (s : σ) : Extends past s (endState (m.run s)) := by
  obtain ⟨new, hpast, -⟩ := h.at_end s
  exact ⟨new, hpast⟩

theorem intro (hok : ∀ s a t, m.run s = .ok a t → Along past H K L (Q a) s t)
    (herror : ∀ s e t, m.run s = .error e t → Along past H K L (fun _ => True) s t) :
    Traced past H K L m Q := by
  intro s
  cases hr : m.run s with
  | ok a t => exact hok s a t hr
  | error e t => exact herror s e t hr

theorem pure {a : α} (h : ∀ s, L s → Q a s) :
    Traced past H K L (Pure.pure a : EStateM ε σ α) Q :=
  fun s => .refl (h s)

theorem throw {e : ε} : Traced past H K L (MonadExcept.throw e : EStateM ε σ α) Q :=
  fun _ => .refl fun _ => trivial

theorem bind (hm : Traced past H K L m Q) (hf : ∀ a, Traced past H K (Q a) (f a) R) :
    Traced past H K L (m >>= f) R := by
  intro s
  cases hr : m.run s with
  | ok a t =>
    have h := hf a t
    rw [bind_ok hr]
    cases hr' : (f a).run t with
    | ok b u =>
      rw [hr'] at h
      exact (hm.of_ok hr).trans h
    | error e u =>
      rw [hr'] at h
      exact (hm.of_ok hr).trans h
  | error e t =>
    rw [bind_error hr]
    exact hm.of_error hr

theorem mono {H' K' : E → Prop} (h : Traced past H K L m Q) (hp : ∀ s, L' s → L s)
    (hq : ∀ a s, Q a s → Q' a s) (hH : ∀ x, H' x → H x) (hK : ∀ x, K x → K' x) :
    Traced past H' K' L' m Q' := by
  apply intro
  · intro s a t hr
    exact (h.of_ok hr).mono (hp s) (hq a t) hH hK
  · intro s e t hr
    exact (h.of_error hr).mono (hp s) id hH hK

theorem conseq (h : Traced past H K L m Q) (hp : ∀ s, L' s → L s)
    (hq : ∀ a s, Q a s → Q' a s) : Traced past H K L' m Q' :=
  h.mono hp hq (fun _ => id) fun _ => id

theorem post (h : Traced past H K L m Q) (hq : ∀ a s, Q a s → Q' a s) :
    Traced past H K L m Q' :=
  h.conseq (fun _ => id) hq

theorem pre (h : Traced past H K L m Q) (hp : ∀ s, L' s → L s) : Traced past H K L' m Q :=
  h.conseq hp fun _ _ => id

/-- Two descriptions of the same run. -/
theorem and {K' : E → Prop} {M : σ → Prop} (h : Traced past H K L m Q)
    (h' : Traced past H K' M m Q') :
    Traced past H (fun x => K x ∧ K' x) (fun s => L s ∧ M s) m fun a s => Q a s ∧ Q' a s := by
  apply intro
  · intro s a t hr
    exact (h.of_ok hr).and (h'.of_ok hr)
  · intro s e t hr
    exact ((h.of_error hr).and (h'.of_error hr)).mono id (fun _ => trivial) (fun _ => id)
      fun _ => id

theorem and_triple (h : Traced past H K L m Q) (h' : Triple (fun _ => True) m Q' fun _ => True) :
    Traced past H K L m fun a s => Q a s ∧ Q' a s := by
  apply intro
  · intro s a t hr
    have hQ' := h' s trivial
    rw [hr] at hQ'
    exact (h.of_ok hr).mono id (fun hQ => ⟨hQ, hQ'⟩) (fun _ => id) fun _ => id
  · intro s e t hr
    exact h.of_error hr

theorem ite {c : Prop} [Decidable c] {m' : EStateM ε σ α} (hm : c → Traced past H K L m Q)
    (hm' : ¬ c → Traced past H K L m' Q) : Traced past H K L (if c then m else m') Q := by
  split
  · next h => exact hm h
  · next h => exact hm' h

/-- The loop rule; the assertion speaks about the elements already done. -/
theorem forM {f : ι → EStateM ε σ PUnit} {l : List ι} {I : List ι → σ → Prop}
    (h : ∀ done i rest, l = done ++ i :: rest →
      Traced past H K (I done) (f i) fun _ => I (done ++ [i])) :
    Traced past H K (I []) (ForM.forM l f) fun _ => I l := by
  suffices hs : ∀ rest done, l = done ++ rest →
      Traced past H K (I done) (ForM.forM rest f) fun _ => I l from hs l [] rfl
  intro rest
  induction rest with
  | nil =>
    intro done hl
    rw [List.append_nil] at hl
    subst hl
    exact .pure fun s hs => hs
  | cons i rest ih =>
    intro done hl
    rw [List.forM_cons]
    exact .bind (h done i rest hl) fun _ => ih (done ++ [i]) (by simpa using hl)

theorem forM_keeps {f : ι → EStateM ε σ PUnit} {l : List ι}
    (h : ∀ i ∈ l, Traced past H K L (f i) fun _ => L) :
    Traced past H K L (ForM.forM l f) fun _ => L := by
  apply forM (I := fun _ => L)
  intro done i rest hl
  exact h i (by simp [hl])

/-- A computation that records nothing. -/
theorem quiet (h : Triple L m Q fun _ => True)
    (hpast : ∀ p, Keeps (fun s => past s = p) (fun s => past s = p) m) :
    Traced past H K L m Q := by
  intro s
  have hs := hpast (past s) s rfl
  have hQ := h s
  cases hr : m.run s with
  | ok a t =>
    rw [hr] at hs hQ
    exact ⟨[], by simpa using hs, fun hL _ => ⟨hQ hL, by simp⟩⟩
  | error e t =>
    rw [hr] at hs
    exact ⟨[], by simpa using hs, fun _ _ => ⟨trivial, by simp⟩⟩

/-- One recorded step. -/
theorem step {m : EStateM ε σ Unit} {f : σ → σ} {e : σ → E}
    (hm : ∀ s, m.run s = .ok () (f s)) (hpast : ∀ s, past (f s) = e s :: past s)
    (h : ∀ s, L s → H (e s) → L' (f s) ∧ K (e s)) : Traced past H K L m fun _ => L' := by
  intro s
  rw [hm s]
  refine ⟨[e s], by simp [hpast], ?_⟩
  intro hL hH
  have hs := h s hL (hH _ (by simp))
  exact ⟨hs.1, by simpa using hs.2⟩

theorem of_false (hgrows : Grows past m) (hL : ∀ s, ¬ L s) : Traced past H K L m Q := by
  apply intro
  · intro s a t hr
    obtain ⟨new, hpast, -⟩ := hgrows.of_ok hr
    exact ⟨new, hpast, fun hs => absurd hs (hL s)⟩
  · intro s e t hr
    obtain ⟨new, hpast, -⟩ := hgrows.of_error hr
    exact ⟨new, hpast, fun hs => absurd hs (hL s)⟩

/-- A computation may be replaced by one that runs the same where the assertion holds. -/
theorem congr {m' : EStateM ε σ α} (hgrows : Grows past m) (h' : Traced past H K L m' Q)
    (h : ∀ s, L s → m.run s = m'.run s) : Traced past H K L m Q := by
  intro s
  by_cases hL : L s
  · rw [h s hL]
    exact h' s
  · have hm := (of_false (H := H) (K := K) (L := fun s => L s ∧ False) (Q := Q) hgrows
      fun _ hs => hs.2) s
    cases hr : m.run s with
    | ok a t =>
      rw [hr] at hm
      obtain ⟨new, hpast, -⟩ := hm
      exact ⟨new, hpast, fun hs => absurd hs hL⟩
    | error e t =>
      rw [hr] at hm
      obtain ⟨new, hpast, -⟩ := hm
      exact ⟨new, hpast, fun hs => absurd hs hL⟩

/-- What was recorded before may be put in front. -/
theorem extends_from (h : Traced past H K L m fun _ => L) (s : σ) :
    Keeps (Along past H K L L s) (Along past H K L (fun _ => True) s) m := by
  intro t ht
  cases hr : m.run t with
  | ok a u => exact ht.trans (h.of_ok hr)
  | error e u => exact ht.trans (h.of_error hr)

theorem of_extends (h : ∀ s, Keeps (Along past H K L L s) (Along past H K L (fun _ => True) s) m) :
    Traced past H K L m fun _ => L := by
  apply intro
  · intro s a t hr
    have hs := h s s (.refl id)
    rwa [hr] at hs
  · intro s e t hr
    have hs := h s s (.refl id)
    rwa [hr] at hs

/-- A fact that does not depend on the state may be used outside. -/
theorem assume {P : Prop} (hgrows : Grows past m) (h : P → Traced past H K L m Q) :
    Traced past H K (fun s => L s ∧ P) m Q := by
  by_cases hp : P
  · exact (h hp).pre fun s hs => hs.1
  · exact .of_false hgrows fun s hs => hp hs.2

/-- What a state is worth may be fixed outside. -/
theorem of_value {γ : Type} (f : σ → γ)
    (h : ∀ c, Traced past H K (fun s => L s ∧ f s = c) m Q) : Traced past H K L m Q := by
  apply intro
  · intro s a t hr
    exact ((h (f s)).of_ok hr).mono (fun hs => ⟨hs, rfl⟩) id (fun _ => id) fun _ => id
  · intro s e t hr
    exact ((h (f s)).of_error hr).mono (fun hs => ⟨hs, rfl⟩) id (fun _ => id) fun _ => id

end Traced

-- From here on only the rules are used; unfolding would run the computation.
attribute [irreducible] Traced

end Lib
