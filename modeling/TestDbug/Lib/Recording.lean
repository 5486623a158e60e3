/-
# `TestDbug.Lib.Recording` — kernels that keep a record

`recorded f K` does what `K` does and keeps what `f` sees of each request, the
oldest first.  A program that issues nothing `f` sees has the runs it has on
`K` and leaves the record alone (`wp_quiet`), so a record costs a proof only
the requests that are recorded.  That is a case of one kernel in another with a
larger state (`Embeds`).

A request with one answer in a state (`wp_sure`) is a step of a calculation.

A request that is never answered, such as the exit of the program itself, shows
in no complete run.  `Asks K p s r s'` says that `p` comes to issue it.
-/
import TestDbug.Lib.Interaction

namespace Interaction

open Prog

variable {Req : Type} {Resp : Req → Type} {α σ τ : Type} {K : Kernel Resp σ} {f : Req → List τ}
  {I : Req → σ → Prop} {p : Prog Req Resp α} {s s' : σ} {l l' : List τ} {a : α}

/-- A request whose answer and effect are known. -/
theorem wp_sure {r : Req} {x₀ : Resp r} {s₀ : σ} {Q : Resp r → σ → Prop}
    (h : ∀ x s', K r s x s' ↔ x = x₀ ∧ s' = s₀) : wp K Free (req r) Q s ↔ Q x₀ s₀ := by
  simp only [wp_req, h, Free, true_and]
  constructor
  · intro hQ
    exact hQ x₀ s₀ ⟨rfl, rfl⟩
  · rintro hQ x s' ⟨rfl, rfl⟩
    exact hQ

theorem ends_sure {r : Req} {x₀ : Resp r} {s₀ : σ} {g : Resp r → Prog Req Resp α}
    (h : ∀ x s', K r s x s' ↔ x = x₀ ∧ s' = s₀) :
    Ends K (req r >>= g) s a s' ↔ Ends K (g x₀) s₀ a s' := by
  rw [ends_ask]
  constructor
  · rintro ⟨x, s₁, hK, he⟩
    obtain ⟨rfl, rfl⟩ := (h x s₁).mp hK
    exact he
  · intro he
    exact ⟨x₀, s₀, (h x₀ s₀).mpr ⟨rfl, rfl⟩, he⟩

/-- A part with one outcome is a step, too. -/
theorem ends_seq_sure {β : Type} {g : α → Prog Req Resp β} {a₀ : α} {s₀ : σ} {b : β}
    (h : ∀ Q : α → σ → Prop, wp K Free p Q s ↔ Q a₀ s₀) :
    Ends K (p >>= g) s b s' ↔ Ends K (g a₀) s₀ b s' := by
  rw [ends_bind]
  constructor
  · rintro ⟨a, s₁, hp, hg⟩
    obtain ⟨rfl, rfl⟩ := (ends_iff_of_wp h).mp hp
    exact hg
  · intro hg
    exact ⟨a₀, s₀, (ends_iff_of_wp h).mpr ⟨rfl, rfl⟩, hg⟩

/-- `K`, with a record of the requests. -/
def recorded (f : Req → List τ) (K : Kernel Resp σ) : Kernel Resp (σ × List τ) :=
  fun r s x s' => K r s.1 x s'.1 ∧ s'.2 = s.2 ++ f r

theorem recorded_unseen {r : Req} (hr : f r = []) {x : Resp r} :
    recorded f K r (s, l) x (s', l') ↔ K r s x s' ∧ l' = l := by
  rw [recorded, hr, List.append_nil]

/-- A sure request is sure with a record. -/
theorem recorded_sure {r : Req} {x₀ : Resp r} {s₀ : σ} (h : ∀ x s', K r s x s' ↔ x = x₀ ∧ s' = s₀)
    {x : Resp r} {w : σ × List τ} :
    recorded f K r (s, l) x w ↔ x = x₀ ∧ w = (s₀, l ++ f r) := by
  obtain ⟨s', l'⟩ := w
  simp only [recorded, h, Prod.mk.injEq, and_assoc]

/-- The record does not get in the way. -/
theorem ends_forget (h : Ends (recorded f K) p (s, l) a (s', l')) : Ends K p s a s' := by
  induction p generalizing s l with
  | ret b =>
      obtain ⟨rfl, hs⟩ := ends_ret.mp h
      obtain ⟨rfl, -⟩ := Prod.mk.inj hs
      exact .refl _ _
  | call r k ih =>
      obtain ⟨x, ⟨s₁, l₁⟩, ⟨hK, -⟩, hk⟩ := ends_call.mp h
      exact ends_call.mpr ⟨x, s₁, hK, ih x hk⟩

/-- On the requests of `P`, `K'` at `e s` does what `K` does at `s`. -/
def Embeds (P : Req → Prop) (K : Kernel Resp σ) {τ : Type} (K' : Kernel Resp τ) (e : σ → τ) :
    Prop :=
  ∀ {r : Req}, P r → ∀ {s x w}, K' r (e s) x w ↔ ∃ s', w = e s' ∧ K r s x s'

section
variable {ρ : Type} {K' : Kernel Resp ρ} {e : σ → ρ} {P : Req → Prop} {V : α → Prop}

/-- What holds of a program on `K` holds of it on `K'`. -/
theorem Embeds.wp (h : Embeds P K K' e) (hp : Emits P V p) {Q : α → ρ → Prop} :
    wp K' Free p Q (e s) ↔ Interaction.wp K Free p (fun a s' => Q a (e s')) s := by
  induction p generalizing s with
  | ret a => exact Iff.rfl
  | call r k ih =>
      simp only [wp_call, Free, true_and]
      constructor
      · intro hw x s' hK
        exact (ih x (hp.2 x)).mp (hw x (e s') ((h hp.1).mpr ⟨s', rfl, hK⟩))
      · intro hw x w hK'
        obtain ⟨s', rfl, hK⟩ := (h hp.1).mp hK'
        exact (ih x (hp.2 x)).mpr (hw x s' hK)

theorem Embeds.sure (h : Embeds P K K' e) {r : Req} (hr : P r) {x₀ : Resp r} {s₀ : σ}
    (hK : ∀ x s', K r s x s' ↔ x = x₀ ∧ s' = s₀) {x : Resp r} {w : ρ} :
    K' r (e s) x w ↔ x = x₀ ∧ w = e s₀ := by
  rw [h hr]
  simp only [hK]
  constructor
  · rintro ⟨s', rfl, rfl, rfl⟩
    exact ⟨rfl, rfl⟩
  · rintro ⟨rfl, rfl⟩
    exact ⟨s₀, rfl, rfl, rfl⟩

end

/-- A record does not get in the way of what it does not see. -/
theorem embeds_recorded : Embeds (fun r => f r = []) K (recorded f K) (fun s => (s, l)) := by
  rintro r hr s x ⟨s', l'⟩
  rw [recorded_unseen hr]
  constructor
  · rintro ⟨hK, rfl⟩
    exact ⟨s', rfl, hK⟩
  · rintro ⟨s₁, hw, hK⟩
    obtain ⟨rfl, rfl⟩ := Prod.mk.inj hw
    exact ⟨hK, rfl⟩

theorem wp_quiet {V : α → Prop} (hp : Emits (fun r => f r = []) V p) {Q : α → σ × List τ → Prop} :
    wp (recorded f K) Free p Q (s, l) ↔ wp K Free p (fun a s' => Q a (s', l)) s :=
  embeds_recorded.wp hp

/-! ## On the way -/

/-- From `s`, the program comes to issue `r` in `s'`. -/
def Asks (K : Kernel Resp σ) (p : Prog Req Resp α) (s : σ) (r : Req) (s' : σ) : Prop :=
  ∃ k, Path K p s (call r k) s'

section
variable {β : Type} {r r' : Req} {k : Resp r' → Prog Req Resp α} {g : α → Prog Req Resp β}

theorem not_asks_ret : ¬ Asks K (ret a : Prog Req Resp α) s r s' := by
  rintro ⟨k, h⟩
  cases h

theorem asks_call : Asks K (call r' k) s r s' ↔
    (r = r' ∧ s' = s) ∨ ∃ x s₁, K r' s x s₁ ∧ Asks K (k x) s₁ r s' := by
  constructor
  · rintro ⟨k', h⟩
    cases h with
    | refl => exact Or.inl ⟨rfl, rfl⟩
    | step hK h => exact Or.inr ⟨_, _, hK, k', h⟩
  · rintro (⟨rfl, rfl⟩ | ⟨x, s₁, hK, k', h⟩)
    · exact ⟨k, .refl _ _⟩
    · exact ⟨k', .step hK h⟩

theorem asks_ask {g : Resp r' → Prog Req Resp β} : Asks K (req r' >>= g) s r s' ↔
    (r = r' ∧ s' = s) ∨ ∃ x s₁, K r' s x s₁ ∧ Asks K (g x) s₁ r s' :=
  asks_call

theorem asks_sure {g : Resp r' → Prog Req Resp β} {x₀ : Resp r'} {s₀ : σ}
    (h : ∀ x s', K r' s x s' ↔ x = x₀ ∧ s' = s₀) (hr : r ≠ r') :
    Asks K (req r' >>= g) s r s' ↔ Asks K (g x₀) s₀ r s' := by
  rw [asks_ask]
  constructor
  · rintro (⟨rfl, -⟩ | ⟨x, s₁, hK, ha⟩)
    · exact absurd rfl hr
    · obtain ⟨rfl, rfl⟩ := (h x s₁).mp hK
      exact ha
  · intro ha
    exact Or.inr ⟨x₀, s₀, (h x₀ s₀).mpr ⟨rfl, rfl⟩, ha⟩

/-- A sequence issues what its first part issues, and then what its second does. -/
theorem asks_bind : Asks K (p >>= g) s r s' ↔
    Asks K p s r s' ∨ ∃ a s₁, Ends K p s a s₁ ∧ Asks K (g a) s₁ r s' := by
  induction p generalizing s with
  | ret a =>
      simp only [ret_bind, not_asks_ret, false_or, ends_ret]
      constructor
      · intro h
        exact ⟨a, s, ⟨rfl, rfl⟩, h⟩
      · rintro ⟨a', s₁, ⟨rfl, rfl⟩, h⟩
        exact h
  | call r'' k ih =>
      simp only [call_bind, asks_call, ih, ends_call]
      constructor
      · rintro (h | ⟨x, s₁, hK, h | ⟨a, s₂, he, h⟩⟩)
        · exact Or.inl (Or.inl h)
        · exact Or.inl (Or.inr ⟨x, s₁, hK, h⟩)
        · exact Or.inr ⟨a, s₂, ⟨x, s₁, hK, he⟩, h⟩
      · rintro ((h | ⟨x, s₁, hK, h⟩) | ⟨a, s₂, ⟨x, s₁, hK, he⟩, h⟩)
        · exact Or.inl h
        · exact Or.inr ⟨x, s₁, hK, Or.inl h⟩
        · exact Or.inr ⟨x, s₁, hK, Or.inr ⟨a, s₂, he, h⟩⟩

theorem Emits.not_asks {P : Req → Prop} {V : α → Prop} (hp : Emits P V p) (hr : ¬ P r) :
    ¬ Asks K p s r s' := by
  induction p generalizing s with
  | ret a => exact not_asks_ret
  | call r'' k ih =>
      rw [asks_call]
      rintro (⟨rfl, rfl⟩ | ⟨x, s₁, -, h⟩)
      · exact hr hp.1
      · exact ih x (hp.2 x) h

/-- A session issues what one of its inputs issues, behind those before it. -/
theorem asks_runAll {ι : Type} {step : ι → α → Prog Req Resp α} {is : List ι} :
    Asks K (runAll step is a) s r s' ↔ ∃ is₁ i is₂ b s₁, is = is₁ ++ i :: is₂ ∧
      Runs K step Always a s is₁ b s₁ ∧ Asks K (step i b) s₁ r s' := by
  induction is generalizing a s with
  | nil =>
      simp only [runAll, not_asks_ret, false_iff]
      rintro ⟨is₁, i, is₂, b, s₁, his, -⟩
      exact absurd his (by simp)
  | cons i is ih =>
      simp only [runAll, asks_bind, ih]
      constructor
      · rintro (h | ⟨b, s₁, he, is₁, j, is₂, c, s₂, rfl, hr, h⟩)
        · exact ⟨[], i, is, a, s, rfl, .nil _ _, h⟩
        · exact ⟨i :: is₁, j, is₂, c, s₂, rfl, .cons trivial he hr, h⟩
      · rintro ⟨is₁, j, is₂, c, s₂, his, hr, h⟩
        cases hr with
        | nil =>
            obtain ⟨rfl, rfl⟩ := List.cons.inj his
            exact Or.inl h
        | cons _ he hr =>
            obtain ⟨rfl, rfl⟩ := List.cons.inj his
            exact Or.inr ⟨_, _, he, _, j, is₂, c, s₂, rfl, hr, h⟩

end

end Interaction
