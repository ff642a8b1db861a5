import Mathlib.Data.Set.Basic
import Mathlib.Tactic.Common

/-! A cache that loads when it likes. Its store is known by a history of events: at each of them
some values may be loaded, and the keys that the event drops are lost. -/
namespace Lib

variable {Ev K X : Type}

/-- What a cache may hold behind a history, the last event of which comes first. -/
inductive Cached (shows : Ev → K → X → Prop) (drops : Ev → K → Prop) : List Ev → K → X → Prop
  | load {e : Ev} {tr : List Ev} {k : K} {x : X} : shows e k x → Cached shows drops (e :: tr) k x
  | keep {e : Ev} {tr : List Ev} {k : K} {x : X} :
    Cached shows drops tr k x → ¬ drops e k → Cached shows drops (e :: tr) k x

/-- Whatever may be cached for a key of `keys` is what the store has there now. -/
def Coherent (shows : Ev → K → X → Prop) (drops : Ev → K → Prop) (keys : Set K) (now : K → X)
    (tr : List Ev) : Prop :=
  ∀ k ∈ keys, ∀ x, Cached shows drops tr k x → x = now k

/-- Nothing can be cached for a key of `keys`. -/
def Uncached (shows : Ev → K → X → Prop) (drops : Ev → K → Prop) (keys : Set K) (tr : List Ev) :
    Prop :=
  ∀ k ∈ keys, ∀ x, ¬ Cached shows drops tr k x

variable {shows : Ev → K → X → Prop} {drops : Ev → K → Prop} {keys keys' : Set K} {now now' : K → X}
  {e : Ev} {tr : List Ev}

namespace Coherent

theorem mono (h : Coherent shows drops keys now tr) (hsub : keys' ⊆ keys) :
    Coherent shows drops keys' now tr :=
  fun k hk => h k (hsub hk)

/-- The rule for one event: what it shows is current, and a key that it does not drop was coherent
before and still has its value. -/
theorem cons (h : Coherent shows drops keys now tr)
    (hshows : ∀ k ∈ keys', ∀ x, shows e k x → x = now' k)
    (hkept : ∀ k ∈ keys', ¬ drops e k → k ∈ keys ∧ now' k = now k) :
    Coherent shows drops keys' now' (e :: tr) := by
  intro k hk x hx
  cases hx with
  | load hload => exact hshows k hk x hload
  | keep hold hdrop =>
    obtain ⟨hmem, hsame⟩ := hkept k hk hdrop
    rw [hsame]
    exact h k hmem x hold

/-- Keys for which nothing is cached may be given any value. -/
theorem of_uncached (h : Coherent shows drops keys now tr) (hnone : Uncached shows drops keys' tr)
    (hsame : ∀ k ∈ keys, k ∉ keys' → now' k = now k) : Coherent shows drops keys now' tr := by
  intro k hk x hx
  by_cases hmem : k ∈ keys'
  · exact absurd hx (hnone k hmem x)
  · rw [hsame k hk hmem]
    exact h k hk x hx

end Coherent

namespace Uncached

theorem coherent (h : Uncached shows drops keys tr) (now : K → X) :
    Coherent shows drops keys now tr :=
  fun k hk x hx => absurd hx (h k hk x)

theorem cons (h : Uncached shows drops keys tr) (hshows : ∀ k ∈ keys', ∀ x, ¬ shows e k x)
    (hkept : ∀ k ∈ keys', ¬ drops e k → k ∈ keys) : Uncached shows drops keys' (e :: tr) := by
  intro k hk x hx
  cases hx with
  | load hload => exact hshows k hk x hload
  | keep hold hdrop => exact h k (hkept k hk hdrop) x hold

/-- An event that drops all of the keys and shows none. -/
theorem of_drops (hshows : ∀ k ∈ keys, ∀ x, ¬ shows e k x) (hdrops : ∀ k ∈ keys, drops e k) :
    Uncached shows drops keys (e :: tr) := by
  intro k hk x hx
  cases hx with
  | load hload => exact hshows k hk x hload
  | keep _ hdrop => exact hdrop (hdrops k hk)

end Uncached
end Lib
