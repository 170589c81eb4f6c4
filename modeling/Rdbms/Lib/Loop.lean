import Mathlib.Logic.Relation
import Mathlib.Order.Filter.AtTopBot.Basic

/-!
# Loops that may run forever

A `while` loop of an imperative program is a body that maps a loop state to the next state, to the
loop's result, or to nothing when something inside the body has not come back yet. `loop` runs a
body a bounded number of times, so it is an ordinary computable function. A call that takes such a
bound comes back with a result when every large enough bound gives that result (`Returns`).

`LoopReturns` is the loop read as a relation, without a bound. It is what proofs do induction on,
and `LoopReturns.returns` turns it into a statement about `loop`. Two rules cover the loops whose
shape is not a walk over a data structure: `LoopReturns.of_measure` for a loop with an invariant
and a measure, and `loop_of_inv` for what any loop that happens to come back has kept.
`LoopReaches` is what a loop goes through on its way.
-/

open Filter

namespace Rdbms

/-- A call with a bound `n` on the rounds of its loops comes back with `a`: every large enough
bound gives `a`. -/
def Returns {α : Type*} (f : Nat → Option α) (a : α) : Prop :=
  ∀ᶠ n in atTop, f n = some a

section
variable {α β : Type*}

/-- A call that does not look at the bound comes back. -/
theorem Returns.of_eq {f : Nat → Option α} {a : α} (h : ∀ n, f n = some a) : Returns f a :=
  Eventually.of_forall h

/-- A call that gives its result from the bound `N` on comes back. -/
theorem Returns.of_add {f : Nat → Option α} {a : α} (N : Nat) (h : ∀ n, f (n + N) = some a) :
    Returns f a :=
  eventually_atTop.2 ⟨N, fun n hn => by rw [← Nat.sub_add_cancel hn]; exact h _⟩

/-- A call comes back when it does with one round more. -/
theorem Returns.of_succ {f : Nat → Option α} {a : α} (h : Returns (fun n => f (n + 1)) a) :
    Returns f a := by
  obtain ⟨N, hN⟩ := eventually_atTop.1 h
  refine eventually_atTop.2 ⟨N + 1, fun n hn => ?_⟩
  rw [← Nat.sub_add_cancel (show 1 ≤ n by omega)]
  exact hN (n - 1) (by omega)

/-- A call comes back with at most one result. -/
theorem Returns.unique {f : Nat → Option α} {a b : α} (ha : Returns f a) (hb : Returns f b) :
    a = b := by
  obtain ⟨n, h1, h2⟩ := (ha.and hb).exists
  exact Option.some.inj (h1.symm.trans h2)

/-- Calls in sequence: the second starts from the result of the first. -/
theorem Returns.bind {f : Nat → Option α} {g : Nat → α → Option β} {a : α} {b : β}
    (hf : Returns f a) (hg : Returns (g · a) b) : Returns (fun n => (f n).bind (g n)) b := by
  filter_upwards [hf, hg] with n h1 h2
  rw [h1, Option.bind_some, h2]

/-- What follows the call does not depend on the bound. -/
theorem Returns.map {f : Nat → Option α} {a : α} (g : α → β) (hf : Returns f a) :
    Returns (fun n => (f n).map g) (g a) := by
  filter_upwards [hf] with n h
  rw [h, Option.map_some]

/-- Two calls that agree for every bound come back with the same result. -/
theorem Returns.congr {f g : Nat → Option α} {a : α} (hf : Returns f a) (h : ∀ n, g n = f n) :
    Returns g a := by
  filter_upwards [hf] with n hn
  rw [h, hn]

end

section
variable {σ ρ : Type*}

/-- Run a loop body for at most `n` rounds: `inl` is the next loop state, `inr` leaves the loop. -/
def loop (body : σ → Option (σ ⊕ ρ)) : Nat → σ → Option ρ
  | 0, _ => none
  | n + 1, s =>
    match body s with
    | none => none
    | some (.inl s') => loop body n s'
    | some (.inr r) => some r

/-- A loop started in `s` comes back with `r`. -/
inductive LoopReturns (body : Nat → σ → Option (σ ⊕ ρ)) : σ → ρ → Prop
  | done {s : σ} {r : ρ} : Returns (body · s) (.inr r) → LoopReturns body s r
  | step {s t : σ} {r : ρ} : Returns (body · s) (.inl t) → LoopReturns body t r →
      LoopReturns body s r

/-- The loop as a function of its bound. -/
theorem LoopReturns.returns {body : Nat → σ → Option (σ ⊕ ρ)} {s : σ} {r : ρ}
    (h : LoopReturns body s r) : Returns (fun n => loop (body n) n s) r := by
  -- the number of rounds is fixed first, then the bound inside the bodies
  have hk : ∃ k, ∀ᶠ n in atTop, ∀ m ≥ k, loop (body n) m s = some r := by
    induction h with
    | done h =>
      refine ⟨1, ?_⟩
      filter_upwards [h] with n hn m hm
      obtain ⟨m, rfl⟩ := Nat.exists_eq_succ_of_ne_zero (by omega : m ≠ 0)
      simp only [loop, hn]
    | step h _ ih =>
      obtain ⟨k, hk⟩ := ih
      refine ⟨k + 1, ?_⟩
      filter_upwards [h, hk] with n hn hk m hm
      obtain ⟨m, rfl⟩ := Nat.exists_eq_succ_of_ne_zero (by omega : m ≠ 0)
      simp only [loop, hn]
      exact hk m (by omega)
  obtain ⟨k, hk⟩ := hk
  filter_upwards [hk, eventually_ge_atTop k] with n hn hge
  exact hn n hge

/-- A loop whose body keeps `I` and lowers `μ` until it leaves with a result in `Q` comes back
with a result in `Q`. -/
theorem LoopReturns.of_measure {body : Nat → σ → Option (σ ⊕ ρ)} {I : σ → Prop} {Q : ρ → Prop}
    (μ : σ → Nat)
    (h : ∀ s, I s → (∃ r, Returns (body · s) (.inr r) ∧ Q r) ∨
      ∃ s', Returns (body · s) (.inl s') ∧ I s' ∧ μ s' < μ s)
    (s : σ) (hs : I s) : ∃ r, LoopReturns body s r ∧ Q r := by
  induction hm : μ s using Nat.strong_induction_on generalizing s with
  | _ m ih =>
    rcases h s hs with ⟨r, hr, hQ⟩ | ⟨s', hs', hI, hlt⟩
    · exact ⟨r, .done hr, hQ⟩
    · obtain ⟨r, hr, hQ⟩ := ih _ (hm ▸ hlt) s' hI rfl
      exact ⟨r, .step hs' hr, hQ⟩

/-- What the body keeps holds of the result of every loop that came back. -/
theorem loop_of_inv {body : σ → Option (σ ⊕ ρ)} {I : σ → Prop} {Q : ρ → Prop}
    (hstep : ∀ s s', I s → body s = some (.inl s') → I s')
    (hdone : ∀ s r, I s → body s = some (.inr r) → Q r) :
    ∀ {n : Nat} {s : σ} {r : ρ}, I s → loop body n s = some r → Q r
  | 0, _, _, _, h => nomatch h
  | n + 1, s, r, hs, h => by
    unfold loop at h
    split at h
    · cases h
    · next s' hb => exact loop_of_inv hstep hdone (hstep s s' hs hb) h
    · next r' hb => cases h; exact hdone s r hs hb

/-- Loops whose bodies agree on what the first one keeps. -/
theorem loop_congr {body body' : σ → Option (σ ⊕ ρ)} {I : σ → Prop}
    (hbody : ∀ s, I s → body s = body' s)
    (hstep : ∀ s s', I s → body s = some (.inl s') → I s') :
    ∀ (n : Nat) {s : σ}, I s → loop body n s = loop body' n s
  | 0, _, _ => rfl
  | n + 1, s, hs => by
    unfold loop
    rw [← hbody s hs]
    cases hb : body s with
    | none => rfl
    | some res =>
      cases res with
      | inl s' => exact loop_congr hbody hstep n (hstep s s' hs hb)
      | inr r => rfl

/-- The states that a loop started in `s` gets to. -/
def LoopReaches (body : σ → Option (σ ⊕ ρ)) : σ → σ → Prop :=
  Relation.ReflTransGen fun s t => body s = some (.inl t)

/-- What the body keeps holds of every state that the loop gets to. -/
theorem LoopReaches.inv {body : σ → Option (σ ⊕ ρ)} {I : σ → Prop} {s t : σ}
    (h : LoopReaches body s t) (hs : I s) (hstep : ∀ s s', I s → body s = some (.inl s') → I s') :
    I t := by
  induction h with
  | refl => exact hs
  | tail _ hbody ih => exact hstep _ _ ih hbody

end

end Rdbms
