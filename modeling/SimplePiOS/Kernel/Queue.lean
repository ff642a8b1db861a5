import SimplePiOS.Lib.Linked

/-! The queues of Q.h: a head, a tail, and the `next` pointers of the nodes, which all queues share. -/
namespace SimplePiOS.Kernel
open Lib.Linked

section Code

structure Q (E : Type) where
  head : Option E
  tail : Option E

variable {E : Type}

def Q.empty : Q E := ⟨none, none⟩

/-- `Q_pop`; `none` when its `demand` fails. -/
def qPop (next : E → Option E) (q : Q E) : Option (Option E × Q E) :=
  match q.head with
  | none => if q.tail = none then some (none, q) else none
  | some e =>
    let q := { q with head := next e }
    some (some e, if q.head = none then { q with tail := none } else q)

/-- `Q_append`, with the new `next` pointers. -/
def qAppend [DecidableEq E] (next : E → Option E) (q : Q E) (e : E) : (E → Option E) × Q E :=
  let next := Function.update next e none
  match q.tail with
  | none => (next, ⟨some e, some e⟩)
  | some t => (Function.update next t (some e), ⟨q.head, some e⟩)

end Code

section Lists
variable {E : Type} {next next' : E → Option E} {q q' : Q E} {l l' : List E}

/-- The queue holds these nodes, first to last. -/
structure Q.Holds (next : E → Option E) (q : Q E) (l : List E) : Prop where
  path : Path next q.head l none
  tail : q.tail = l.getLast?

theorem Q.holds_empty (next : E → Option E) : Q.empty.Holds next [] := ⟨rfl, rfl⟩

theorem Q.Holds.congr (h : q.Holds next l) (hnext : ∀ e ∈ l, next' e = next e) : q.Holds next' l :=
  ⟨h.path.congr hnext, h.tail⟩

theorem Q.Holds.tail_none_iff (h : q.Holds next l) : q.tail = none ↔ q.head = none := by
  rw [h.tail, List.getLast?_eq_none_iff]
  cases l with
  | nil => exact ⟨fun _ => h.path, fun _ => rfl⟩
  | cons e es =>
    have hhead : q.head = some e := h.path.1
    rw [hhead]
    exact ⟨fun hnil => (List.cons_ne_nil e es hnil).elim, fun hnone => (Option.some_ne_none e hnone).elim⟩

theorem qPop_nil (h : q.Holds next []) : qPop next q = some (none, q) := by
  have hhead : q.head = none := h.path
  have htail : q.tail = none := h.tail
  simp [qPop, hhead, htail]

theorem qPop_cons {e : E} (h : q.Holds next (e :: l)) :
    ∃ q', qPop next q = some (some e, q') ∧ q'.Holds next l := by
  obtain ⟨hhead, hrest⟩ := h.path
  refine ⟨_, by rw [qPop, hhead], ?_⟩
  cases l with
  | nil =>
    have hnone : next e = none := hrest
    simp only [hnone, if_true]
    exact Q.holds_empty next
  | cons d ds =>
    have hsome : next e = some d := hrest.1
    rw [if_neg (by rw [hsome]; exact Option.some_ne_none d)]
    refine ⟨hrest, ?_⟩
    rw [show q.tail = _ from h.tail, List.getLast?_cons_cons]

variable [DecidableEq E]

theorem qAppend_holds (h : q.Holds next l) {e : E} (he : e ∉ l) :
    (qAppend next q e).2.Holds (qAppend next q e).1 (l ++ [e]) := by
  rcases List.eq_nil_or_concat l with rfl | ⟨ds, d, rfl⟩
  · have htail : q.tail = none := h.tail
    simp only [qAppend, htail]
    refine ⟨⟨rfl, ?_⟩, rfl⟩
    rw [Function.update_self]
    rfl
  · rw [List.concat_eq_append] at *
    have htail : q.tail = some d := by rw [h.tail, List.getLast?_concat]
    simp only [qAppend, htail]
    exact ⟨h.path.snoc he, by rw [List.getLast?_concat]⟩

/-- The other queues are left alone. -/
theorem qAppend_frame (h : q.Holds next l) {e : E} (h' : q'.Holds next l') (he : e ∉ l')
    (hdisjoint : ∀ x ∈ l, x ∉ l') : q'.Holds (qAppend next q e).1 l' := by
  refine h'.congr fun x hx => ?_
  have hxe : x ≠ e := fun heq => he (heq ▸ hx)
  cases htail : q.tail with
  | none => simp only [qAppend, htail, Function.update_of_ne hxe]
  | some t =>
    have ht : t ∈ l := List.mem_of_getLast? (h.tail ▸ htail)
    have hxt : x ≠ t := fun heq => hdisjoint t ht (heq ▸ hx)
    simp only [qAppend, htail, Function.update_of_ne hxt, Function.update_of_ne hxe]

end Lists

section Calls
variable {ι E : Type}

/-- Any number of queues over one heap of nodes. -/
structure Queues (ι E : Type) where
  next : E → Option E
  queue : ι → Q E

/-- Each queue holds its list, and no node is in two. -/
structure Queues.Hold (s : Queues ι E) (l : ι → List E) : Prop where
  holds : ∀ i, (s.queue i).Holds s.next (l i)
  apart : ∀ i j, i ≠ j → ∀ e ∈ l i, e ∉ l j

theorem Queues.hold_empty (next : E → Option E) :
    (⟨next, fun _ => .empty⟩ : Queues ι E).Hold fun _ => [] :=
  ⟨fun _ => Q.holds_empty next, fun _ _ _ _ he => absurd he List.not_mem_nil⟩

inductive QCall (ι E : Type) where
  | append (i : ι) (e : E)
  | pop (i : ι)
  deriving DecidableEq

variable [DecidableEq ι]

/-- The nodes appended to each queue and not popped yet, first to last, after one more call. -/
def QCall.fifo (l : ι → List E) : QCall ι E → ι → List E
  | .append i e => Function.update l i (l i ++ [e])
  | .pop i => Function.update l i (l i).tail

/-- The oldest node of the queue, if any. -/
def QCall.oldest (l : ι → List E) : QCall ι E → Option E
  | .append _ _ => none
  | .pop i => (l i).head?

/-- A node that is appended is in no queue. -/
def QCall.Allowed (l : ι → List E) : QCall ι E → Prop
  | .append _ e => ∀ j, e ∉ l j
  | .pop _ => True

def fifos (l : ι → List E) (cs : List (QCall ι E)) : ι → List E := cs.foldl QCall.fifo l

def popped (l : ι → List E) : List (QCall ι E) → List (Option E)
  | [] => []
  | c :: cs => c.oldest l :: popped (c.fifo l) cs

def AllAllowed (l : ι → List E) : List (QCall ι E) → Prop
  | [] => True
  | c :: cs => c.Allowed l ∧ AllAllowed (c.fifo l) cs

variable [DecidableEq E]

/-- One call, and the node that `Q_pop` returns. -/
def Queues.step (s : Queues ι E) : QCall ι E → Option (Option E × Queues ι E)
  | .append i e =>
    let (next, q) := qAppend s.next (s.queue i) e
    some (none, ⟨next, Function.update s.queue i q⟩)
  | .pop i => do
    let (e, q) ← qPop s.next (s.queue i)
    return (e, { s with queue := Function.update s.queue i q })

def Queues.run (s : Queues ι E) : List (QCall ι E) → Option (List (Option E) × Queues ι E)
  | [] => some ([], s)
  | c :: cs => do
    let (e, s) ← s.step c
    let (es, s) ← s.run cs
    return (e :: es, s)

variable {s : Queues ι E} {l : ι → List E}

/-- `Q_append` of a node that is in no queue. -/
theorem Queues.Hold.append (h : s.Hold l) (i : ι) {e : E} (he : ∀ j, e ∉ l j) :
    ∃ s', s.step (.append i e) = some (none, s') ∧ s'.Hold (Function.update l i (l i ++ [e])) := by
  refine ⟨_, rfl, ?_, ?_⟩
  · intro j
    by_cases hj : j = i
    · subst hj
      simp only [Function.update_self]
      exact qAppend_holds (h.holds j) (he j)
    · simp only [Function.update_of_ne hj]
      exact qAppend_frame (h.holds i) (h.holds j) (he j) (h.apart i j (Ne.symm hj))
  · intro j k hjk x hx
    by_cases hj : j = i
    · subst hj
      rw [Function.update_self, List.mem_append, List.mem_singleton] at hx
      rw [Function.update_of_ne (Ne.symm hjk)]
      rcases hx with hx | rfl
      · exact h.apart j k hjk x hx
      · exact he k
    · rw [Function.update_of_ne hj] at hx
      by_cases hk : k = i
      · subst hk
        rw [Function.update_self, List.mem_append, List.mem_singleton]
        rintro (hxk | rfl)
        · exact h.apart j k hjk x hx hxk
        · exact he j hx
      · rw [Function.update_of_ne hk]
        exact h.apart j k hjk x hx

/-- `Q_pop` takes the oldest node, which may keep its `next`. -/
theorem Queues.Hold.pop (h : s.Hold l) (i : ι) :
    ∃ s', s.step (.pop i) = some ((l i).head?, s') ∧ s'.Hold (Function.update l i (l i).tail) := by
  have hpop : ∃ q', qPop s.next (s.queue i) = some ((l i).head?, q') ∧ q'.Holds s.next (l i).tail := by
    have hi := h.holds i
    cases hl : l i with
    | nil =>
      rw [hl] at hi
      exact ⟨_, qPop_nil hi, hi⟩
    | cons e es =>
      rw [hl] at hi
      exact qPop_cons hi
  obtain ⟨q', hrun, hq'⟩ := hpop
  have hsub : ∀ j x, x ∈ Function.update l i (l i).tail j → x ∈ l j := by
    intro j x hx
    by_cases hj : j = i
    · subst hj
      rw [Function.update_self] at hx
      exact List.mem_of_mem_tail hx
    · rwa [Function.update_of_ne hj] at hx
  refine ⟨{ s with queue := Function.update s.queue i q' }, ?_, ?_, ?_⟩
  · simp only [Queues.step, hrun]
    rfl
  · intro j
    by_cases hj : j = i
    · subst hj
      simp only [Function.update_self]
      exact hq'
    · simp only [Function.update_of_ne hj]
      exact h.holds j
  · exact fun j k hjk x hx hxk => h.apart j k hjk x (hsub j x hx) (hsub k x hxk)

theorem Queues.Hold.step (h : s.Hold l) {c : QCall ι E} (hc : c.Allowed l) :
    ∃ s', s.step c = some (c.oldest l, s') ∧ s'.Hold (c.fifo l) := by
  cases c with
  | append i e => exact h.append i hc
  | pop i => exact h.pop i

theorem Queues.Hold.run (h : s.Hold l) {cs : List (QCall ι E)} (hcs : AllAllowed l cs) :
    ∃ s', s.run cs = some (popped l cs, s') ∧ s'.Hold (fifos l cs) := by
  induction cs generalizing s l with
  | nil => exact ⟨s, rfl, h⟩
  | cons c cs ih =>
    obtain ⟨s₁, hstep, h₁⟩ := h.step hcs.1
    obtain ⟨s', hrun, h'⟩ := ih h₁ hcs.2
    refine ⟨s', ?_, h'⟩
    simp only [Queues.run, hstep, hrun, Option.bind_eq_bind, Option.bind_some, popped]
    rfl

/-- Whatever the heap and the calls, each queue is the list of its nodes, each pop returns the
oldest one, and no `demand` fails. -/
theorem queues_hold_fifos (next : E → Option E) (cs : List (QCall ι E))
    (hcs : AllAllowed (fun _ => []) cs) :
    ∃ s, (⟨next, fun _ => .empty⟩ : Queues ι E).run cs = some (popped (fun _ => []) cs, s) ∧
      s.Hold (fifos (fun _ => []) cs) ∧
      ∀ i, ((s.queue i).tail = none ↔ (s.queue i).head = none) ∧ qPop s.next (s.queue i) ≠ none := by
  obtain ⟨s, hrun, h⟩ := (Queues.hold_empty next).run hcs
  refine ⟨s, hrun, h, fun i => ⟨(h.holds i).tail_none_iff, ?_⟩⟩
  intro hfail
  obtain ⟨s', hpop, -⟩ := h.pop i
  simp only [Queues.step, hfail] at hpop
  cases hpop

/-- Node 1 goes from one queue to the other with its old `next`. -/
theorem queues_hold_fifos_moved :
    let cs : List (QCall Bool ℕ) :=
      [.append true 1, .append true 2, .append false 3, .pop true, .append false 1, .pop false]
    ∃ s, (⟨fun _ => some 2, fun _ => .empty⟩ : Queues Bool ℕ).run cs =
        some ([none, none, none, some 1, none, some 3], s) ∧
      s.Hold (fifos (fun _ => []) cs) ∧
      ∀ i, ((s.queue i).tail = none ↔ (s.queue i).head = none) ∧ qPop s.next (s.queue i) ≠ none :=
  queues_hold_fifos (fun _ => some 2) _ (by simp [AllAllowed, QCall.Allowed, QCall.fifo])

end Calls

end SimplePiOS.Kernel
