/-
# `TestDbug.Lib.Machine` — a machine under an overlay

A machine runs one instruction at a time on registers and memory.  What an
instruction may look at is part of the machine: its own bytes (`len` of them
from `pc` on) and the data it `reads`; what it may change is what it
`writes`.  The law `footprint` says that it looks at nothing else and changes
nothing else.

Put a value `trap` on a set `S` of addresses.  An instruction that keeps clear
of `S` (`Undisturbed`, and `pc` not in `S`) does on the overlaid memory what it
does on the true one, and leaves the same overlay (`step_patched`).  Running
the overlaid memory until the machine stands on `trap` therefore follows the
true run, and stops on an address of `S` (`Go.lockstep`, `stands_on`).
-/
import TestDbug.Lib.ByteMemory

open ByteMemory

/-- The two outcomes of an instruction that may write `W`, on memories that
agree on what it looks at; `m'` is the second memory. -/
def SameOutcome {n : Nat} {β R : Type} (W : Set (BitVec n)) (m' : Mem n β) :
    Option (R × Mem n β) → Option (R × Mem n β) → Prop
  | none, none => True
  | some (r₁, m₁), some (r₂, m₂) =>
      r₂ = r₁ ∧ (∀ x ∈ W, m₂ x = m₁ x) ∧ ∀ x ∉ W, m₂ x = m' x
  | _, _ => False

/-- A deterministic machine with its footprints; `step` is `none` when the
instruction ends the process. -/
structure Machine (n : Nat) (β R : Type) where
  pc : R → BitVec n
  len : R → Mem n β → Nat
  reads : R → Mem n β → Set (BitVec n)
  writes : R → Mem n β → Set (BitVec n)
  step : R → Mem n β → Option (R × Mem n β)
  footprint : ∀ (r : R) (m m' : Mem n β),
    (∀ i < len r m, m' (pc r + BitVec.ofNat n i) = m (pc r + BitVec.ofNat n i)) →
    (∀ x ∈ reads r m, m' x = m x) →
    SameOutcome (writes r m) m' (step r m) (step r m')

namespace Machine

variable {n : Nat} {β R : Type} {M : Machine n β R} {B S : Set (BitVec n)} {trap : β}
  {r r' : R} {m m' : Mem n β}

/-- The instruction at `(r, m)` does not use `B` as data, and no address of `B`
lies strictly inside it. -/
structure Undisturbed (M : Machine n β R) (B : Set (BitVec n)) (r : R) (m : Mem n β) : Prop where
  inside : ∀ i, 0 < i → i < M.len r m → M.pc r + BitVec.ofNat n i ∉ B
  reads : ∀ x ∈ M.reads r m, x ∉ B
  writes : ∀ x ∈ M.writes r m, x ∉ B

/-- An instruction leaves every byte it does not write. -/
theorem step_frame (h : M.step r m = some (r', m')) {x : BitVec n} (hx : x ∉ M.writes r m) :
    m' x = m x := by
  have hf := M.footprint r m m (fun _ _ => rfl) (fun _ _ => rfl)
  rw [h] at hf
  exact hf.2.2 x hx

theorem Undisturbed.keeps (hu : M.Undisturbed B r m) (h : M.step r m = some (r', m'))
    {x : BitVec n} (hx : x ∈ B) : m' x = m x :=
  step_frame h (fun hw => hu.writes x hw hx)

/-- Off the overlay, the overlaid memory gives the same outcome. -/
theorem sameOutcome_of_patched {mp : Mem n β} (hS : S ⊆ B) (hu : M.Undisturbed B r m)
    (hpc : M.pc r ∉ S) (hp : Patched S trap m mp) :
    SameOutcome (M.writes r m) mp (M.step r m) (M.step r mp) := by
  apply M.footprint
  · intro i hi
    apply hp.2
    rcases Nat.eq_zero_or_pos i with rfl | hpos
    · simpa using hpc
    · exact fun hin => hu.inside i hpos hi (hS hin)
  · exact fun x hx => hp.2 x (fun hin => hu.reads x hx (hS hin))

/-- One instruction, run over the overlay. -/
theorem step_patched {mp : Mem n β} (hp : Patched S trap m mp) (hS : S ⊆ B)
    (hu : M.Undisturbed B r m) (hpc : M.pc r ∉ S) (h : M.step r m = some (r', m')) :
    ∃ mp', M.step r mp = some (r', mp') ∧ Patched S trap m' mp' := by
  have hso := sameOutcome_of_patched hS hu hpc hp
  rw [h] at hso
  cases hm : M.step r mp with
  | none => simp [hm, SameOutcome] at hso
  | some q =>
      obtain ⟨r₂, mp'⟩ := q
      rw [hm] at hso
      obtain ⟨rfl, hw, hf⟩ := hso
      refine ⟨mp', rfl, ?_, ?_⟩
      · intro x hx
        rw [hf x (fun hw' => hu.writes x hw' (hS hx))]
        exact hp.1 x hx
      · intro x hx
        by_cases hxw : x ∈ M.writes r m
        · exact hw x hxw
        · rw [hf x hxw, hp.2 x hx, step_frame h hxw]

/-! ## Runs -/

/-- The machine after `k` instructions, if it has not ended before. -/
def after (M : Machine n β R) : Nat → R × Mem n β → Option (R × Mem n β)
  | 0, s => some s
  | k + 1, s => (M.after k s).bind (fun q => M.step q.1 q.2)

/-- What every instruction of a run satisfies. -/
def Along (M : Machine n β R) (s : R × Mem n β) (P : R → Mem n β → Prop) : Prop :=
  ∀ k r m, M.after k s = some (r, m) → P r m

/-- `Go M trap s s'`: instructions run from `s` to `s'`, none of them at `trap`. -/
inductive Go (M : Machine n β R) (trap : β) : R × Mem n β → R × Mem n β → Prop
  | refl (s : R × Mem n β) : Go M trap s s
  | step {r : R} {m : Mem n β} {s₁ s₂ : R × Mem n β} :
      m (M.pc r) ≠ trap → M.step r m = some s₁ → Go M trap s₁ s₂ → Go M trap (r, m) s₂

/-- A run that never disturbs `B` never changes it. -/
theorem after_keeps {s q : R × Mem n β} (hu : M.Along s (M.Undisturbed B)) {k : Nat}
    (h : M.after k s = some q) {x : BitVec n} (hx : x ∈ B) : q.2 x = s.2 x := by
  induction k generalizing q with
  | zero =>
      obtain rfl : s = q := by simpa [after] using h
      rfl
  | succ k ih =>
      cases hk : M.after k s with
      | none => simp [after, hk] at h
      | some p =>
          have hstep : M.step p.1 p.2 = some q := by simpa [after, hk] using h
          rw [(hu k p.1 p.2 hk).keeps hstep hx, ih hk]

/-- Following the overlaid memory up to the trap follows the true run. -/
theorem Go.lockstep {s : R × Mem n β} {sp qp : R × Mem n β} (hgo : Go M trap sp qp) (hS : S ⊆ B)
    (hu : M.Along s (M.Undisturbed B)) {k : Nat} {m : Mem n β}
    (hk : M.after k s = some (sp.1, m)) (hp : Patched S trap m sp.2) :
    ∃ j m', M.after (k + j) s = some (qp.1, m') ∧ Patched S trap m' qp.2 := by
  induction hgo generalizing k m with
  | refl sp => exact ⟨0, m, hk, hp⟩
  | @step r mp s₁ s₂ hne hstep _ ih =>
      -- the overlaid byte at `pc` is not the trap, so `pc` is off the overlay
      have hpc : M.pc r ∉ S := fun hin => hne (hp.1 _ hin)
      have hur := hu k r m hk
      have hso := sameOutcome_of_patched hS hur hpc hp
      rw [hstep] at hso
      cases hm : M.step r m with
      | none => simp [hm, SameOutcome] at hso
      | some q =>
          obtain ⟨r₁, m₁⟩ := q
          obtain ⟨mp', hstep', hp'⟩ := step_patched hp hS hur hpc hm
          obtain rfl : s₁ = (r₁, mp') := by
            rw [hstep] at hstep'
            exact Option.some.inj hstep'
          have hk' : M.after (k + 1) s = some (r₁, m₁) := by simp [after, hk, hm]
          obtain ⟨j, m', hj, hpj⟩ := ih hk' hp'
          exact ⟨1 + j, m', by rw [← Nat.add_assoc]; exact hj, hpj⟩

/-- Run up to the trap, at most `fuel` instructions. -/
def runUntil [DecidableEq β] (M : Machine n β R) (trap : β) :
    Nat → R × Mem n β → Option (R × Mem n β)
  | 0, _ => none
  | fuel + 1, s =>
      if s.2 (M.pc s.1) = trap then some s
      else (M.step s.1 s.2).bind (runUntil M trap fuel)

theorem go_of_runUntil [DecidableEq β] {fuel : Nat} {s q : R × Mem n β}
    (h : M.runUntil trap fuel s = some q) : Go M trap s q ∧ q.2 (M.pc q.1) = trap := by
  induction fuel generalizing s with
  | zero => cases h
  | succ fuel ih =>
      rw [runUntil] at h
      split at h
      · rename_i htrap
        obtain rfl := Option.some.inj h
        exact ⟨.refl _, htrap⟩
      · rename_i hne
        obtain ⟨s₁, hstep, h⟩ := Option.bind_eq_some_iff.mp h
        obtain ⟨hgo, hq⟩ := ih h
        exact ⟨.step hne hstep hgo, hq⟩

/-- Where the true run has no trap, the overlaid one stops on the overlay. -/
theorem stands_on {mp : Mem n β} (hp : Patched S trap m mp) (hne : m (M.pc r) ≠ trap)
    (htrap : mp (M.pc r) = trap) : M.pc r ∈ S := by
  by_contra hpc
  exact hne (by rw [← hp.2 _ hpc, htrap])

end Machine
