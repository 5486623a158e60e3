/-
# `TestDbug.Lib.Loop` — loops that may not end

A loop is given by its round: from a state it goes on to the next one, or it
leaves with a result.  Nothing bounds the number of rounds.

    after round n s      the state in front of round `n`, if it comes to that
    run round n s        the result, if the loop is left within `n` rounds
    Returns round s r    it is left, with `r`
    Halts round s        it is left

`after_invariant` is the induction over the rounds.  `halts_of_variant` and
`not_halts_of_invariant` are the two rules for the end of a loop: something
gets smaller every round, or no round leaves the invariant.
-/
import Mathlib.Logic.Basic
import Mathlib.Tactic.Common

namespace Loop

variable {σ ρ : Type}

/-- The state after `n` rounds; `none` if the loop is left before. -/
def after (round : σ → σ ⊕ ρ) : Nat → σ → Option σ
  | 0, s => some s
  | n + 1, s =>
      match round s with
      | .inl s' => after round n s'
      | .inr _ => none

/-- The result of the loop, if it is left within `n` rounds. -/
def run (round : σ → σ ⊕ ρ) : Nat → σ → Option ρ
  | 0, _ => none
  | n + 1, s =>
      match round s with
      | .inl s' => run round n s'
      | .inr r => some r

def Returns (round : σ → σ ⊕ ρ) (s : σ) (r : ρ) : Prop := ∃ n, run round n s = some r

def Halts (round : σ → σ ⊕ ρ) (s : σ) : Prop := ∃ r, Returns round s r

section
variable {round : σ → σ ⊕ ρ} {s s' : σ} {r q : ρ} {n : Nat}

/-! ## One round -/

theorem after_inl (h : round s = .inl s') : after round (n + 1) s = after round n s' := by
  rw [after, h]

theorem run_inl (h : round s = .inl s') : run round (n + 1) s = run round n s' := by
  rw [run, h]

theorem run_inr (h : round s = .inr q) : run round (n + 1) s = some q := by
  rw [run, h]

theorem returns_inl (h : round s = .inl s') : Returns round s r ↔ Returns round s' r := by
  constructor
  · rintro ⟨n, hn⟩
    cases n with
    | zero => cases hn
    | succ n => exact ⟨n, (run_inl h).symm.trans hn⟩
  · rintro ⟨n, hn⟩
    exact ⟨n + 1, (run_inl h).trans hn⟩

theorem halts_inl (h : round s = .inl s') : Halts round s ↔ Halts round s' :=
  exists_congr fun _ => returns_inl h

theorem halts_inr (h : round s = .inr q) : Halts round s := ⟨q, 1, run_inr h⟩

/-! ## All rounds -/

theorem after_add (m n : Nat) (s : σ) :
    after round (m + n) s = (after round m s).bind (after round n) := by
  induction m generalizing s with
  | zero => rw [Nat.zero_add, after, Option.bind_some]
  | succ m ih =>
      rw [Nat.succ_add, after, after]
      cases round s with
      | inl s' => exact ih s'
      | inr q => rfl

/-- What a loop is left with after some rounds, it is left with. -/
theorem run_after {m : Nat} (h : after round m s = some s') :
    run round (m + n) s = run round n s' := by
  induction m generalizing s with
  | zero => rw [Nat.zero_add, Option.some.inj h]
  | succ m ih =>
      rw [after] at h
      cases hgo : round s with
      | inl t =>
          rw [hgo] at h
          rw [Nat.succ_add, run_inl hgo]
          exact ih h
      | inr q =>
          rw [hgo] at h
          cases h

/-- What every round keeps holds in front of every round. -/
theorem after_invariant (I : σ → Prop) (hround : ∀ s s', I s → round s = .inl s' → I s')
    (h : after round n s = some s') (hs : I s) : I s' := by
  induction n generalizing s with
  | zero =>
      rw [← Option.some.inj h]
      exact hs
  | succ n ih =>
      rw [after] at h
      cases hgo : round s with
      | inl t =>
          rw [hgo] at h
          exact ih h (hround s t hs hgo)
      | inr q =>
          rw [hgo] at h
          cases h

/-! ## The end of a loop -/

/-- Every round is the last, or makes the measure smaller. -/
theorem halts_of_variant (I : σ → Prop) (μ : σ → Nat)
    (hround : ∀ s s', I s → round s = .inl s' → I s' ∧ μ s' < μ s) (hs : I s) :
    Halts round s := by
  induction hn : μ s using Nat.strongRecOn generalizing s with
  | ind n ih =>
      cases hgo : round s with
      | inl s' =>
          obtain ⟨hs', hlt⟩ := hround s s' hs hgo
          exact (halts_inl hgo).mpr (ih (μ s') (hn ▸ hlt) hs' rfl)
      | inr r => exact halts_inr hgo

/-- From an invariant that every round goes on in, the loop is never left. -/
theorem not_halts_of_invariant (I : σ → Prop)
    (hround : ∀ s, I s → ∃ s', round s = .inl s' ∧ I s') (hs : I s) : ¬ Halts round s := by
  rintro ⟨r, n, hn⟩
  induction n generalizing s with
  | zero => cases hn
  | succ n ih =>
      obtain ⟨s', hgo, hs'⟩ := hround s hs
      exact ih hs' ((run_inl hgo).symm.trans hn)

end

end Loop
