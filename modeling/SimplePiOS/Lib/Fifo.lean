import Mathlib.Algebra.GroupWithZero.Nat
import Mathlib.Logic.Relation
import Mathlib.Tactic.Common

/-! Two sequential programs over a pair of FIFO channels. The parties are deterministic, so
the order in which they take their steps does not matter: a complete run decides them all. -/
namespace Lib

/-- A program that sends and receives values of `W` and ends with an `α`. -/
inductive Prog (W α : Type) where
  | done (a : α)
  | send (w : W) (p : Prog W α)
  | recv (k : W → Prog W α)

namespace Prog

variable {W α β : Type}

protected def bind : Prog W α → (α → Prog W β) → Prog W β
  | done a, f => f a
  | send w p, f => send w (p.bind f)
  | recv k, f => recv fun w => (k w).bind f

instance : Monad (Prog W) where
  pure := done
  bind := Prog.bind

@[simp] theorem pure_eq (a : α) : (pure a : Prog W α) = done a := rfl
@[simp] theorem done_bind (a : α) (f : α → Prog W β) : done a >>= f = f a := rfl
@[simp] theorem send_bind (w : W) (p : Prog W α) (f : α → Prog W β) :
    send w p >>= f = send w (p >>= f) := rfl
@[simp] theorem recv_bind (k : W → Prog W α) (f : α → Prog W β) :
    recv k >>= f = recv fun w => k w >>= f := rfl

theorem bind_done (p : Prog W α) : p >>= done = p := by
  induction p with
  | done a => rfl
  | send w p ih => rw [send_bind, ih]
  | recv k ih => rw [recv_bind, funext ih]

theorem bind_assoc' {γ : Type} (p : Prog W α) (f : α → Prog W β) (g : β → Prog W γ) :
    p >>= f >>= g = p >>= fun a => f a >>= g := by
  induction p with
  | done a => rfl
  | send w p ih => rw [send_bind, send_bind, send_bind, ih]
  | recv k ih => rw [recv_bind, recv_bind, recv_bind, funext ih]

instance : LawfulMonad (Prog W) :=
  LawfulMonad.mk' (Prog W) (fun p => bind_done p) (fun _ _ => rfl) bind_assoc'

/-- The program has nothing left to do. -/
def IsDone : Prog W α → Prop
  | done _ => True
  | _ => False

end Prog

section Diamond
variable {α : Type} {r : α → α → Prop} {a b c : α} {m n : ℕ}

/-- Runs of a given number of steps. -/
inductive RunN (r : α → α → Prop) : ℕ → α → α → Prop where
  | refl (a : α) : RunN r 0 a a
  | step {n : ℕ} {a b c : α} (h : r a b) (hn : RunN r n b c) : RunN r (n + 1) a c

theorem RunN.trans (h : RunN r m a b) (h' : RunN r n b c) : RunN r (m + n) a c := by
  induction h with
  | refl a => rwa [Nat.zero_add]
  | step h _ ih =>
    rw [Nat.add_right_comm]
    exact .step h (ih h')

theorem RunN.reflTransGen (h : RunN r n a b) : Relation.ReflTransGen r a b := by
  induction h with
  | refl a => exact .refl
  | step h _ ih => exact .head h ih

def Stuck (r : α → α → Prop) (a : α) : Prop := ∀ b, ¬ r a b

/-- Two different steps from one state can be joined by one more step each. -/
def Diamond (r : α → α → Prop) : Prop :=
  ∀ a b c, r a b → r a c → b = c ∨ ∃ d, r b d ∧ r c d

theorem RunN.after_step (hd : Diamond r) (h : RunN r n a c) (hc : Stuck r c) (hab : r a b) :
    ∃ m, n = m + 1 ∧ RunN r m b c := by
  induction h generalizing b with
  | refl a => exact absurd hab (hc b)
  | @step n a y c hay hn ih =>
    rcases hd a b y hab hay with rfl | ⟨d, hbd, hyd⟩
    · exact ⟨n, rfl, hn⟩
    · obtain ⟨m, rfl, hm⟩ := ih hc hyd
      exact ⟨m + 1, rfl, .step hbd hm⟩

/-- One run to a stuck state: every other run is at most as long and goes on to that state. -/
theorem RunN.completes (hd : Diamond r) (h : RunN r n a c) (hc : Stuck r c) (hb : RunN r m a b) :
    m ≤ n ∧ RunN r (n - m) b c := by
  induction hb generalizing n with
  | refl a => exact ⟨Nat.zero_le n, h⟩
  | step hab _ ih =>
    obtain ⟨k, rfl, hk⟩ := h.after_step hd hc hab
    obtain ⟨hle, hrun⟩ := ih hk
    refine ⟨by omega, ?_⟩
    rwa [Nat.add_sub_add_right]

/-- However a run from `a` begins, it ends in `c`, within a number of steps fixed from the start. -/
def Inevitable (r : α → α → Prop) (a c : α) : Prop :=
  Stuck r c ∧ ∃ n, ∀ m b, RunN r m a b → m ≤ n ∧ RunN r (n - m) b c

theorem RunN.inevitable (hd : Diamond r) (h : RunN r n a c) (hc : Stuck r c) : Inevitable r a c :=
  ⟨hc, n, fun _ _ hb => h.completes hd hc hb⟩

theorem RunN.of_reflTransGen (h : Relation.ReflTransGen r a b) : ∃ n, RunN r n a b := by
  induction h with
  | refl => exact ⟨0, .refl a⟩
  | tail _ hstep ih =>
    obtain ⟨n, hn⟩ := ih
    exact ⟨n + 1, hn.trans (.step hstep (.refl _))⟩

theorem Inevitable.reach (h : Inevitable r a c) (hb : Relation.ReflTransGen r a b) :
    Relation.ReflTransGen r b c := by
  obtain ⟨-, n, hn⟩ := h
  obtain ⟨m, hm⟩ := RunN.of_reflTransGen hb
  exact (hn m b hm).2.reflTransGen

end Diamond

namespace Fifo

variable {W α β : Type}

/-- The two programs and what is in flight. `count` is the number of values the first has
sent, for the sake of the noise on its channel. -/
structure Config (W α β : Type) where
  a : Prog W α
  b : Prog W β
  ab : List W
  ba : List W
  count : ℕ

variable (nextA : α → Option (Prog W α)) (nextB : β → Option (Prog W β)) (noise : ℕ → W → W)

/-- The first party's step: what it sends arrives as `noise` has it. A program that is done
may have a next one. -/
def stepA (c : Config W α β) : Option (Config W α β) :=
  match c.a with
  | .done x => (nextA x).map fun p => { c with a := p }
  | .send w p => some { c with a := p, ab := c.ab ++ [noise c.count w], count := c.count + 1 }
  | .recv k =>
    match c.ba with
    | [] => none
    | w :: ba => some { c with a := k w, ba := ba }

/-- The second party's step; its channel is intact. -/
def stepB (c : Config W α β) : Option (Config W α β) :=
  match c.b with
  | .done x => (nextB x).map fun p => { c with b := p }
  | .send w p => some { c with b := p, ba := c.ba ++ [w] }
  | .recv k =>
    match c.ab with
    | [] => none
    | w :: ab => some { c with b := k w, ab := ab }

def Step (c d : Config W α β) : Prop := stepA nextA noise c = some d ∨ stepB nextB c = some d

abbrev Reach : Config W α β → Config W α β → Prop :=
  Relation.ReflTransGen (Step nextA nextB noise)

variable {nextA nextB noise}

/-- Steps of different parties commute: each takes from the front of one channel and adds
to the back of the other. -/
theorem step_comm {c d e : Config W α β} (hd : stepA nextA noise c = some d)
    (he : stepB nextB c = some e) : ∃ f, stepB nextB d = some f ∧ stepA nextA noise e = some f := by
  obtain ⟨a, b, ab, ba, count⟩ := c
  unfold stepA at hd ⊢
  unfold stepB at he ⊢
  cases a with
  | done x =>
    obtain ⟨p, hp, rfl⟩ := Option.map_eq_some_iff.mp hd
    cases b with
    | done y =>
      obtain ⟨q, hq, rfl⟩ := Option.map_eq_some_iff.mp he
      exact ⟨⟨p, q, ab, ba, count⟩, by simp [hq], by simp [hp]⟩
    | send w q =>
      cases he
      exact ⟨⟨p, q, ab, ba ++ [w], count⟩, rfl, by simp [hp]⟩
    | recv k =>
      cases ab with
      | nil => cases he
      | cons w ab =>
        cases he
        exact ⟨⟨p, k w, ab, ba, count⟩, rfl, by simp [hp]⟩
  | send w p =>
    cases hd
    cases b with
    | done y =>
      obtain ⟨q, hq, rfl⟩ := Option.map_eq_some_iff.mp he
      exact ⟨⟨p, q, ab ++ [noise count w], ba, count + 1⟩, by simp [hq], rfl⟩
    | send v q =>
      cases he
      exact ⟨⟨p, q, ab ++ [noise count w], ba ++ [v], count + 1⟩, rfl, rfl⟩
    | recv k =>
      cases ab with
      | nil => cases he
      | cons v ab =>
        cases he
        exact ⟨⟨p, k v, ab ++ [noise count w], ba, count + 1⟩, rfl, rfl⟩
  | recv j =>
    cases ba with
    | nil => cases hd
    | cons w ba =>
      cases hd
      cases b with
      | done y =>
        obtain ⟨q, hq, rfl⟩ := Option.map_eq_some_iff.mp he
        exact ⟨⟨j w, q, ab, ba, count⟩, by simp [hq], rfl⟩
      | send v q =>
        cases he
        exact ⟨⟨j w, q, ab, ba ++ [v], count⟩, rfl, rfl⟩
      | recv k =>
        cases ab with
        | nil => cases he
        | cons v ab =>
          cases he
          exact ⟨⟨j w, k v, ab, ba, count⟩, rfl, rfl⟩

theorem diamond : Diamond (Step nextA nextB noise (W := W)) := by
  intro c d e hd he
  rcases hd with hd | hd <;> rcases he with he | he
  · exact .inl (Option.some.inj (hd.symm.trans he))
  · obtain ⟨f, hf, hf'⟩ := step_comm hd he
    exact .inr ⟨f, .inr hf, .inl hf'⟩
  · obtain ⟨f, hf, hf'⟩ := step_comm he hd
    exact .inr ⟨f, .inl hf', .inr hf⟩
  · exact .inl (Option.some.inj (hd.symm.trans he))

section Solo
variable {next : α → Option (Prog W α)} {p q r : Prog W α} {ins outs ins' outs' : List W}

/-- What one party does on its own: the values it reads, those it sends, and the program
that is left. -/
inductive Solo (next : α → Option (Prog W α)) : Prog W α → List W → List W → Prog W α → Prop where
  | refl (p : Prog W α) : Solo next p [] [] p
  | send {w : W} {p q : Prog W α} {ins outs : List W} (h : Solo next p ins outs q) :
      Solo next (.send w p) ins (w :: outs) q
  | recv {w : W} {k : W → Prog W α} {q : Prog W α} {ins outs : List W}
      (h : Solo next (k w) ins outs q) : Solo next (.recv k) (w :: ins) outs q
  | next {x : α} {p q : Prog W α} {ins outs : List W} (hx : next x = some p)
      (h : Solo next p ins outs q) : Solo next (.done x) ins outs q

theorem Solo.idle (next : α → Option (Prog W α)) (p : Prog W α) : Solo next p [] [] p := .refl p

theorem Solo.trans (h : Solo next p ins outs q) (h' : Solo next q ins' outs' r) :
    Solo next p (ins ++ ins') (outs ++ outs') r := by
  induction h with
  | refl p => exact h'
  | send _ ih => exact .send (ih h')
  | recv _ ih => exact .recv (ih h')
  | next hx _ ih => exact .next hx (ih h')

/-- A party that has sent something, or is done, has got past what it waits for. -/
theorem Solo.of_recv {k : W → Prog W α} (h : Solo next (.recv k) ins outs q)
    (hq : outs ≠ [] ∨ q.IsDone) : ∃ w ins', ins = w :: ins' ∧ Solo next (k w) ins' outs q := by
  cases h with
  | refl =>
    rcases hq with hq | hq
    · exact absurd rfl hq
    · exact hq.elim
  | recv h => exact ⟨_, _, rfl, h⟩

theorem Solo.of_send {w : W} (h : Solo next (.send w p) ins outs q)
    (hq : outs ≠ [] ∨ q.IsDone) : ∃ outs', outs = w :: outs' ∧ Solo next p ins outs' q := by
  cases h with
  | refl =>
    rcases hq with hq | hq
    · exact absurd rfl hq
    · exact hq.elim
  | send h => exact ⟨_, rfl, h⟩

theorem Solo.of_done {x : α} (h : Solo next (.done x) ins outs q) (hx : next x = none) :
    ins = [] ∧ outs = [] ∧ q = .done x := by
  cases h with
  | refl => exact ⟨rfl, rfl, rfl⟩
  | next hx' _ => rw [hx] at hx'; cases hx'

/-- A program that ends has read and sent the same things however it got there. -/
theorem Solo.det {x y : α} {r r' : List W} (h : Solo next p ins outs (.done x))
    (h' : Solo next p ins' outs' (.done y)) (hx : next x = none) (hy : next y = none)
    (hin : ins ++ r = ins' ++ r') : ins = ins' ∧ outs = outs' ∧ x = y := by
  generalize hq : Prog.done x = q at h
  induction h generalizing ins' outs' with
  | refl p =>
    subst hq
    obtain ⟨rfl, rfl, hxy⟩ := h'.of_done hx
    exact ⟨rfl, rfl, (Prog.done.inj hxy).symm⟩
  | send _ ih =>
    obtain ⟨outs'', rfl, h''⟩ := h'.of_send (.inr trivial)
    obtain ⟨rfl, rfl, hxy⟩ := ih h'' hin hq
    exact ⟨rfl, rfl, hxy⟩
  | recv _ ih =>
    obtain ⟨w, ins'', rfl, h''⟩ := h'.of_recv (.inr trivial)
    obtain ⟨rfl, hrest⟩ := List.cons.inj hin
    obtain ⟨rfl, rfl, hxy⟩ := ih h'' hrest hq
    exact ⟨rfl, rfl, hxy⟩
  | @next z p q ins outs hz _ ih =>
    cases h' with
    | refl => rw [hy] at hz; cases hz
    | next hz' h'' =>
      rw [hz] at hz'
      cases hz'
      exact ih h'' hin hq

end Solo

/-- What arrives of values sent from the `n`-th on. -/
def noised (noise : ℕ → W → W) : ℕ → List W → List W
  | _, [] => []
  | n, w :: ws => noise n w :: noised noise (n + 1) ws

@[simp] theorem length_noised (noise : ℕ → W → W) (n : ℕ) (ws : List W) :
    (noised noise n ws).length = ws.length := by
  induction ws generalizing n with
  | nil => rfl
  | cons w ws ih => rw [noised, List.length_cons, List.length_cons, ih]

theorem noised_append (noise : ℕ → W → W) (n : ℕ) (ws vs : List W) :
    noised noise n (ws ++ vs) = noised noise n ws ++ noised noise (n + ws.length) vs := by
  induction ws generalizing n with
  | nil => rfl
  | cons w ws ih =>
    rw [List.cons_append, noised, noised, ih, List.cons_append, List.length_cons,
      Nat.add_right_comm, Nat.add_assoc]

theorem noised_congr {noise noise' : ℕ → W → W} {n : ℕ} {ws : List W}
    (h : ∀ i, n ≤ i → i < n + ws.length → noise i = noise' i) :
    noised noise n ws = noised noise' n ws := by
  induction ws generalizing n with
  | nil => rfl
  | cons w ws ih =>
    rw [List.length_cons] at h
    rw [noised, noised, h n (Nat.le_refl n) (by omega), ih fun i hi hi' => h i (by omega) (by omega)]

theorem noised_id (n : ℕ) (ws : List W) : noised (fun _ => id) n ws = ws := by
  induction ws generalizing n with
  | nil => rfl
  | cons w ws ih => rw [noised, ih, id]

/-- The past of a configuration: each party alone did its part, on what the other had sent. -/
structure History (nextA : α → Option (Prog W α)) (nextB : β → Option (Prog W β))
    (noise : ℕ → W → W) (a : Prog W α) (b : Prog W β) (c : Config W α β)
    (insA outsA insB outsB : List W) : Prop where
  soloA : Solo nextA a insA outsA c.a
  soloB : Solo nextB b insB outsB c.b
  ab : insB ++ c.ab = noised noise 0 outsA
  ba : insA ++ c.ba = outsB
  count : c.count = outsA.length

theorem Reach.history {a : Prog W α} {b : Prog W β} {c : Config W α β}
    (h : Reach nextA nextB noise ⟨a, b, [], [], 0⟩ c) :
    ∃ insA outsA insB outsB, History nextA nextB noise a b c insA outsA insB outsB := by
  induction h with
  | refl => exact ⟨[], [], [], [], .refl a, .refl b, rfl, rfl, rfl⟩
  | @tail c d _ hstep ih =>
    obtain ⟨insA, outsA, insB, outsB, hA, hB, hab, hba, hcount⟩ := ih
    obtain ⟨ca, cb, ab, ba, count⟩ := c
    dsimp only at hA hB hab hba hcount
    rcases hstep with hstep | hstep
    · unfold stepA at hstep
      cases ca with
      | done x =>
        obtain ⟨p, hp, rfl⟩ := Option.map_eq_some_iff.mp hstep
        have hA' := hA.trans (.next hp (.refl p))
        rw [List.append_nil, List.append_nil] at hA'
        exact ⟨insA, outsA, insB, outsB, hA', hB, hab, hba, hcount⟩
      | send w p =>
        cases hstep
        have hA' := hA.trans (.send (.refl p))
        rw [List.append_nil] at hA'
        refine ⟨insA, outsA ++ [w], insB, outsB, hA', hB, ?_, hba, ?_⟩
        · rw [noised_append, ← hab, ← List.append_assoc, Nat.zero_add, ← hcount]
          rfl
        · rw [List.length_append, ← hcount]
          rfl
      | recv k =>
        cases ba with
        | nil => cases hstep
        | cons w ba =>
          cases hstep
          have hA' := hA.trans (.recv (.refl (k w)))
          rw [List.append_nil] at hA'
          refine ⟨insA ++ [w], outsA, insB, outsB, hA', hB, hab, ?_, hcount⟩
          rw [List.append_assoc]
          exact hba
    · unfold stepB at hstep
      cases cb with
      | done x =>
        obtain ⟨p, hp, rfl⟩ := Option.map_eq_some_iff.mp hstep
        have hB' := hB.trans (.next hp (.refl p))
        rw [List.append_nil, List.append_nil] at hB'
        exact ⟨insA, outsA, insB, outsB, hA, hB', hab, hba, hcount⟩
      | send w p =>
        cases hstep
        have hB' := hB.trans (.send (.refl p))
        rw [List.append_nil] at hB'
        refine ⟨insA, outsA, insB, outsB ++ [w], hA, hB', hab, ?_, hcount⟩
        rw [← hba, List.append_assoc]
      | recv k =>
        cases ab with
        | nil => cases hstep
        | cons w ab =>
          cases hstep
          have hB' := hB.trans (.recv (.refl (k w)))
          rw [List.append_nil] at hB'
          refine ⟨insA, outsA, insB ++ [w], outsB, hA, hB', ?_, hba, hcount⟩
          rw [List.append_assoc]
          exact hab

theorem Reach.a_done {x : α} {c d : Config W α β} (hx : nextA x = none)
    (h : Reach nextA nextB noise c d) (hc : c.a = .done x) : d.a = .done x := by
  induction h with
  | refl => exact hc
  | @tail d e _ hstep ih =>
    rcases hstep with hstep | hstep
    · unfold stepA at hstep
      rw [ih] at hstep
      simp only [hx, Option.map_none] at hstep
      cases hstep
    · rw [← ih]
      unfold stepB at hstep
      split at hstep
      · obtain ⟨p, -, rfl⟩ := Option.map_eq_some_iff.mp hstep
        rfl
      · cases hstep
        rfl
      · split at hstep <;> cases hstep
        rfl

theorem Reach.b_done {x : β} {c d : Config W α β} (hx : nextB x = none)
    (h : Reach nextA nextB noise c d) (hc : c.b = .done x) : d.b = .done x := by
  induction h with
  | refl => exact hc
  | @tail d e _ hstep ih =>
    rcases hstep with hstep | hstep
    · rw [← ih]
      unfold stepA at hstep
      split at hstep
      · obtain ⟨p, -, rfl⟩ := Option.map_eq_some_iff.mp hstep
        rfl
      · cases hstep
        rfl
      · split at hstep <;> cases hstep
        rfl
    · unfold stepB at hstep
      rw [ih] at hstep
      simp only [hx, Option.map_none] at hstep
      cases hstep

/-- A party can do at once what it does alone on the front of its channel. -/
theorem Solo.runA {p p' : Prog W α} {ins outs : List W} (h : Solo nextA p ins outs p')
    (b : Prog W β) (ab ba : List W) (count : ℕ) :
    ∃ n, RunN (Step nextA nextB noise) n ⟨p, b, ab, ins ++ ba, count⟩
      ⟨p', b, ab ++ noised noise count outs, ba, count + outs.length⟩ := by
  induction h generalizing ab count with
  | refl p =>
    refine ⟨0, ?_⟩
    rw [noised, List.append_nil]
    exact .refl _
  | @send w p q ins outs _ ih =>
    obtain ⟨n, hn⟩ := ih (ab ++ [noise count w]) (count + 1)
    have hab : ab ++ noised noise count (w :: outs) =
        ab ++ [noise count w] ++ noised noise (count + 1) outs := by
      rw [noised, List.append_cons]
    have hcount : count + (w :: outs).length = count + 1 + outs.length := by
      rw [List.length_cons]
      omega
    rw [hab, hcount]
    exact ⟨n + 1, .step (.inl rfl) hn⟩
  | recv _ ih =>
    obtain ⟨n, hn⟩ := ih ab count
    exact ⟨n + 1, .step (.inl rfl) hn⟩
  | next hx _ ih =>
    obtain ⟨n, hn⟩ := ih ab count
    refine ⟨n + 1, .step (.inl ?_) hn⟩
    unfold stepA
    simp only [hx, Option.map_some]

theorem Solo.runB {q q' : Prog W β} {ins outs : List W} (h : Solo nextB q ins outs q')
    (a : Prog W α) (ab ba : List W) (count : ℕ) :
    ∃ n, RunN (Step nextA nextB noise) n ⟨a, q, ins ++ ab, ba, count⟩
      ⟨a, q', ab, ba ++ outs, count⟩ := by
  induction h generalizing ba with
  | refl q =>
    refine ⟨0, ?_⟩
    rw [List.append_nil]
    exact .refl _
  | @send w p q ins outs _ ih =>
    obtain ⟨n, hn⟩ := ih (ba ++ [w])
    rw [List.append_cons ba w outs]
    exact ⟨n + 1, .step (.inr rfl) hn⟩
  | recv _ ih =>
    obtain ⟨n, hn⟩ := ih ba
    exact ⟨n + 1, .step (.inr rfl) hn⟩
  | next hx _ ih =>
    obtain ⟨n, hn⟩ := ih ba
    refine ⟨n + 1, .step (.inr ?_) hn⟩
    unfold stepB
    simp only [hx, Option.map_some]

theorem stuck_done {x : α} {y : β} {ab ba : List W} {n : ℕ} (hx : nextA x = none)
    (hy : nextB y = none) : Stuck (Step nextA nextB noise) ⟨.done x, .done y, ab, ba, n⟩ := by
  rintro c (hc | hc)
  · simp [stepA, hx] at hc
  · simp [stepB, hy] at hc

/-- One turn of a dialogue: the first party reads all that waits for it and goes on to send,
the second reads all that arrives and answers. -/
theorem turn (noise : ℕ → W → W) (n : ℕ) {p p' : Prog W α} {q q' : Prog W β}
    {ba outs ba' : List W}
    (hA : Solo nextA p ba outs p') (hB : Solo nextB q (noised noise n outs) ba' q') :
    ∃ k, RunN (Step nextA nextB noise) k ⟨p, q, [], ba, n⟩
      ⟨p', q', [], ba', n + outs.length⟩ := by
  obtain ⟨k, hk⟩ : ∃ k, RunN (Step nextA nextB noise) k ⟨p, q, [], ba ++ [], n⟩
      ⟨p', q, [] ++ noised noise n outs, [], n + outs.length⟩ := hA.runA q [] [] n
  obtain ⟨l, hl⟩ : ∃ l, RunN (Step nextA nextB noise) l
      ⟨p', q, noised noise n outs ++ [], [], n + outs.length⟩
      ⟨p', q', [], [] ++ ba', n + outs.length⟩ := hB.runB p' [] [] (n + outs.length)
  rw [List.append_nil, List.nil_append] at hk
  rw [List.append_nil, List.nil_append] at hl
  exact ⟨k + l, hk.trans hl⟩

end Fifo
end Lib
