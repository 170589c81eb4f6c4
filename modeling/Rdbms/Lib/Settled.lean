import Rdbms.Lib.Loop

/-!
# Bounds that are enough

`Returns` says that large enough bounds give a result. `Settled N f` says which are large enough:
all of them from `N` on, whatever the result is. It is proved by induction on what the call walks
over, next to the result itself, and `Settled.eq_of_returns` puts the two together.
-/

open Filter

namespace Rdbms

/-- Every bound from `N` on gives the same. -/
def Settled {α : Type*} (N : Nat) (f : Nat → α) : Prop := ∀ n, N ≤ n → f n = f N

namespace Settled
variable {α β : Type*} {f : Nat → Option α} {N M : Nat} {a : α}

/-- A call that does not look at the bound. -/
theorem of_eq {b : Option α} (h : ∀ n, f n = b) : Settled N f := fun n _ => by rw [h, h]

/-- More fuel does not change what has settled. -/
theorem mono (h : Settled N f) (hN : N ≤ M) : Settled M f := fun n hn => by
  rw [h n (hN.trans hn), h M hN]

/-- Two runs that are the same settle alike. -/
theorem congr {g : Nat → Option α} (h : Settled N f) (hg : ∀ n, g n = f n) : Settled N g :=
  fun n hn => by rw [hg, hg, h n hn]

/-- A call that has used one round. -/
theorem succ (h : Settled N fun n => f (n + 1)) : Settled (N + 1) f := fun n hn => by
  obtain ⟨m, rfl⟩ : ∃ m, n = m + 1 := ⟨n - 1, by omega⟩
  exact h m (by omega)

/-- What is made of a settled run is settled. -/
theorem map (g : α → β) (h : Settled N f) : Settled N fun n => (f n).map g := fun n hn => by
  show (f n).map g = (f N).map g
  rw [h n hn]

/-- A call that comes back does so from the bound `N` on. -/
theorem eq_of_returns (h : Settled N f) (hf : Returns f a) : ∀ n, N ≤ n → f n = some a := by
  intro n hn
  obtain ⟨m, hm, hge⟩ := (hf.and (eventually_ge_atTop N)).exists
  rw [h n hn, ← h m hge, hm]

/-- Calls in sequence, the first of which comes back. -/
theorem bind {g : Nat → α → Option β} (h : Settled N f) (hf : Returns f a)
    (hg : Settled N (g · a)) : Settled N fun n => (f n).bind (g n) := fun n hn => by
  have hfn := h.eq_of_returns hf
  show (f n).bind (g n) = (f N).bind (g N)
  rw [hfn n hn, hfn N le_rfl]
  exact hg n hn

/-- Calls in sequence, with what follows the first settled for each of its results. -/
theorem bind_all {g : Nat → α → Option β} (h : Settled N f) (hg : ∀ a, Settled N (g · a)) :
    Settled N fun n => (f n).bind (g n) := fun n hn => by
  show (f n).bind (g n) = (f N).bind (g N)
  rw [h n hn]
  cases f N with
  | none => rfl
  | some a => exact hg a n hn

/-- A choice that the bound has no part in. -/
theorem ite {c : Prop} [Decidable c] {g : Nat → Option α} (hf : c → Settled N f)
    (hg : ¬ c → Settled N g) : Settled N fun n => if c then f n else g n := by
  by_cases h : c
  · exact (hf h).congr fun n => if_pos h
  · exact (hg h).congr fun n => if_neg h

/-- A loop whose bodies are settled, in a state from which it has at most `d` rounds to go on. `I d`
holds of such a state, and a round that goes on leads to a state with fewer. -/
theorem loop {σ ρ : Type*} {body : Nat → σ → Option (σ ⊕ ρ)} {I : Nat → σ → Prop}
    (hbody : ∀ d s, I d s → Settled N (body · s))
    (hstep : ∀ d s t, I d s → body N s = some (.inl t) → ∃ e < d, I e t) {d : Nat} {s : σ}
    (hs : I d s) (hd : d < M) (hN : N ≤ M) : Settled M fun n => Rdbms.loop (body n) n s := by
  -- the bound inside the bodies and the number of rounds are apart in the induction
  have hrounds : ∀ d s, I d s → ∀ n, N ≤ n → ∀ m, d < m →
      Rdbms.loop (body n) m s = Rdbms.loop (body N) (d + 1) s := by
    intro d
    induction d using Nat.strong_induction_on with
    | _ d ih =>
      intro s hs n hn m hm
      obtain ⟨m, rfl⟩ := Nat.exists_eq_add_one_of_ne_zero (by omega : m ≠ 0)
      simp only [Rdbms.loop, hbody d s hs n hn]
      cases hres : body N s with
      | none => rfl
      | some res =>
        cases res with
        | inl t =>
          obtain ⟨e, he, ht⟩ := hstep d s t hs hres
          exact (ih e he t ht n hn m (by omega)).trans (ih e he t ht N le_rfl d he).symm
        | inr r => rfl
  intro n hn
  exact (hrounds d s hs n (hN.trans hn) n (by omega)).trans (hrounds d s hs M hN M hd).symm

/-- A loop whose body does not look at the bound. -/
theorem loop_body {σ ρ : Type*} {body : σ → Option (σ ⊕ ρ)} {I : Nat → σ → Prop}
    (hstep : ∀ d s t, I d s → body s = some (.inl t) → ∃ e < d, I e t) {d : Nat} {s : σ}
    (hs : I d s) (hd : d < M) : Settled M fun n => Rdbms.loop body n s := by
  have hbody : ∀ d s, I d s → Settled 0 fun _ => body s := fun _ _ _ => .of_eq fun _ => rfl
  exact loop hbody hstep hs hd (Nat.zero_le M)

end Settled

end Rdbms
