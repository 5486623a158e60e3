/-
# `TestDbug.Lib.Visits` — the visits of a run to a set of addresses

`Tour M S s as q` is a run of a machine from `s` to `q` with its visits to
`S`: the addresses of `S` at which an instruction has run, in their order.
A tour without visits stays off `S`; one with visits is such a tour up to the
first of them, one instruction there, and the rest (`tour_cons`).

Put `trap` on `S`.  If the program has no trap of its own and does not disturb
`S`, to run the overlaid memory until it traps is to run the true one until it
visits `S` (`go_overlay`).  Unlike `Go.lockstep` this is an equivalence: the
overlay misses no visit.  Nor does it if something else stops the machine at
the addresses of a second set `A` (`goPast_overlay`).
-/
import TestDbug.Lib.Machine

namespace ByteMemory

variable {n : Nat} {β : Type} {S : Set (BitVec n)} {v : β} {m m' : Mem n β}

/-- A store over a shorter one at the same address. -/
theorem store_store (m : Mem n β) (a : BitVec n) {xs ys : List β} (h : xs.length ≤ ys.length) :
    store (store m a xs) a ys = store m a ys := by
  funext x
  simp only [store]
  cases hy : ys[(x - a).toNat]? with
  | some b => rfl
  | none =>
      have hx : xs[(x - a).toNat]? = none := by
        rw [List.getElem?_eq_none_iff] at hy ⊢
        exact Nat.le_trans h hy
      rw [hx]
      rfl

open Classical in
/-- `m` with `v` put on every address of `S`. -/
noncomputable def overlay (S : Set (BitVec n)) (v : β) (m : Mem n β) : Mem n β :=
  fun x => if x ∈ S then v else m x

theorem patched_iff : Patched S v m m' ↔ m' = overlay S v m := by
  constructor
  · intro h
    funext x
    by_cases hx : x ∈ S
    · rw [h.1 x hx, overlay, if_pos hx]
    · rw [h.2 x hx, overlay, if_neg hx]
  · rintro rfl
    exact ⟨fun x hx => if_pos hx, fun x hx => if_neg hx⟩

theorem patched_overlay : Patched S v m (overlay S v m) := patched_iff.mpr rfl

@[simp] theorem overlay_empty : overlay ∅ v m = m :=
  patched_empty.mp patched_overlay

theorem overlay_restore (a : BitVec n) :
    store (overlay S v m) a [m a] = overlay (S \ {a}) v m :=
  patched_iff.mp (patched_overlay.restore a)

theorem overlay_plant (a : BitVec n) : store (overlay S v m) a [v] = overlay (insert a S) v m :=
  patched_iff.mp (patched_overlay.plant a)

end ByteMemory

open ByteMemory

namespace Machine

variable {n : Nat} {β R : Type} {M : Machine n β R} {A B S : Set (BitVec n)} {trap : β}
  {P : R → Mem n β → Prop} {r r' : R} {m m' : Mem n β} {s s₁ q t : R × Mem n β}
  {as bs : List (BitVec n)}

/-! ## From the first instruction on -/

/-- The run, unrolled at its start. -/
theorem after_succ (k : Nat) (s : R × Mem n β) :
    M.after (k + 1) s = (M.step s.1 s.2).bind (M.after k) := by
  induction k with
  | zero =>
      cases h : M.step s.1 s.2 with
      | none => simp [after, h]
      | some q => simp [after, h]
  | succ k ih =>
      rw [after, ih]
      cases h : M.step s.1 s.2 with
      | none => rfl
      | some q => rfl

theorem Along.here (h : M.Along (r, m) P) : P r m := h 0 r m rfl

theorem Along.next (h : M.Along (r, m) P) (hstep : M.step r m = some s) : M.Along s P := by
  intro k r' m' hk
  apply h (k + 1) r' m'
  rw [after_succ, hstep]
  exact hk

theorem Along.after (h : M.Along s P) {k : Nat} (hk : M.after k s = some q) : M.Along q P := by
  induction k generalizing s with
  | zero =>
      obtain rfl : s = q := by simpa [Machine.after] using hk
      exact h
  | succ k ih =>
      rw [after_succ] at hk
      obtain ⟨s₁, hstep, hk⟩ := Option.bind_eq_some_iff.mp hk
      exact ih (h.next hstep) hk

theorem after_add {j k : Nat} (hj : M.after j s = some q) (hk : M.after k q = some t) :
    M.after (j + k) s = some t := by
  induction k generalizing t with
  | zero =>
      obtain rfl : q = t := by simpa [Machine.after] using hk
      exact hj
  | succ k ih =>
      obtain ⟨u, hu, hstep⟩ := Option.bind_eq_some_iff.mp hk
      rw [← Nat.add_assoc, Machine.after, ih hu]
      exact hstep

/-! ## Tours -/

/-- `Tour M S s as q`: instructions run from `s` to `q`, and those of them that
are at an address of `S` are at `as`, in this order. -/
inductive Tour (M : Machine n β R) (S : Set (BitVec n)) :
    R × Mem n β → List (BitVec n) → R × Mem n β → Prop
  | refl (s : R × Mem n β) : Tour M S s [] s
  | off {r : R} {m : Mem n β} {s q : R × Mem n β} {as : List (BitVec n)} :
      M.pc r ∉ S → M.step r m = some s → Tour M S s as q → Tour M S (r, m) as q
  | visit {r : R} {m : Mem n β} {s q : R × Mem n β} {as : List (BitVec n)} :
      M.pc r ∈ S → M.step r m = some s → Tour M S s as q → Tour M S (r, m) (M.pc r :: as) q

theorem Tour.trans (h : Tour M S s as q) (h' : Tour M S q bs t) : Tour M S s (as ++ bs) t := by
  induction h with
  | refl s => exact h'
  | off hpc hstep _ ih => exact .off hpc hstep (ih h')
  | visit hpc hstep _ ih => exact .visit hpc hstep (ih h')

theorem Tour.mem (h : Tour M S s as q) {a : BitVec n} (ha : a ∈ as) : a ∈ S := by
  induction h with
  | refl s => cases ha
  | off _ _ _ ih => exact ih ha
  | visit hpc _ _ ih =>
      rcases List.mem_cons.mp ha with rfl | ha
      · exact hpc
      · exact ih ha

/-- A tour is some number of instructions. -/
theorem Tour.after (h : Tour M S s as q) : ∃ k, M.after k s = some q := by
  induction h with
  | refl s => exact ⟨0, rfl⟩
  | off _ hstep _ ih =>
      obtain ⟨k, hk⟩ := ih
      exact ⟨k + 1, by rw [after_succ, hstep]; exact hk⟩
  | visit _ hstep _ ih =>
      obtain ⟨k, hk⟩ := ih
      exact ⟨k + 1, by rw [after_succ, hstep]; exact hk⟩

theorem Along.tour (h : M.Along s P) (ht : Tour M S s as q) : M.Along q P := by
  induction ht with
  | refl s => exact h
  | off _ hstep _ ih => exact ih (h.next hstep)
  | visit _ hstep _ ih => exact ih (h.next hstep)

/-- Up to the first visit, the instruction there, and the rest. -/
theorem tour_cons {a : BitVec n} : Tour M S s (a :: as) q ↔
    ∃ r m s₁, Tour M S s [] (r, m) ∧ M.pc r ∈ S ∧ M.pc r = a ∧ M.step r m = some s₁ ∧
      Tour M S s₁ as q := by
  constructor
  · intro h
    generalize hvs : a :: as = vs at h
    induction h with
    | refl s => cases hvs
    | off hpc hstep _ ih =>
        obtain ⟨r, m, s₁, hclear, hrest⟩ := ih hvs
        exact ⟨r, m, s₁, .off hpc hstep hclear, hrest⟩
    | visit hpc hstep h _ =>
        obtain ⟨rfl, rfl⟩ := List.cons.inj hvs
        exact ⟨_, _, _, .refl _, hpc, rfl, hstep, h⟩
  · rintro ⟨r, m, s₁, hclear, hpc, rfl, hstep, h⟩
    exact hclear.trans (.visit hpc hstep h)

/-- There is one run: what ends it after a tour ends it after every other. -/
theorem Tour.ends_once (h : Tour M S s as q) (hq : M.step q.1 q.2 = none)
    (h' : Tour M S s bs t) (ht : M.step t.1 t.2 = none) : bs = as ∧ t = q := by
  induction h generalizing bs with
  | refl s =>
      cases h' with
      | refl => exact ⟨rfl, rfl⟩
      | off _ hstep _ => exact absurd (hstep.symm.trans hq) (Option.some_ne_none _)
      | visit _ hstep _ => exact absurd (hstep.symm.trans hq) (Option.some_ne_none _)
  | off hpc hstep _ ih =>
      cases h' with
      | refl => exact absurd (hstep.symm.trans ht) (Option.some_ne_none _)
      | off _ hstep' h' =>
          obtain rfl := Option.some.inj (hstep.symm.trans hstep')
          exact ih hq h'
      | visit hpc' _ _ => exact absurd hpc' hpc
  | visit hpc hstep _ ih =>
      cases h' with
      | refl => exact absurd (hstep.symm.trans ht) (Option.some_ne_none _)
      | off hpc' _ _ => exact absurd hpc hpc'
      | visit _ hstep' h' =>
          obtain rfl := Option.some.inj (hstep.symm.trans hstep')
          obtain ⟨rfl, rfl⟩ := ih hq h'
          exact ⟨rfl, rfl⟩

/-! ## Under an overlay -/

/-- `GoPast M trap A passed s passed' q`: instructions run from `s` to `q`, none
of them at `trap`, and none at an address of `A` but the first, where `passed`
lets it run. -/
inductive GoPast (M : Machine n β R) (trap : β) (A : Set (BitVec n)) :
    Bool → R × Mem n β → Bool → R × Mem n β → Prop
  | refl (passed : Bool) (s : R × Mem n β) : GoPast M trap A passed s passed s
  | step {passed passed' : Bool} {r : R} {m : Mem n β} {s q : R × Mem n β} :
      passed = true ∨ M.pc r ∉ A → m (M.pc r) ≠ trap → M.step r m = some s →
      GoPast M trap A false s passed' q → GoPast M trap A passed (r, m) passed' q

/-- Without such addresses it is `Go`. -/
theorem goPast_empty : GoPast M trap ∅ false s false q ↔ Go M trap s q := by
  constructor
  · have hgo : ∀ {p p'}, GoPast M trap ∅ p s p' q → Go M trap s q := by
      intro p p' h
      induction h with
      | refl _ s => exact .refl s
      | step _ hne hstep _ ih => exact .step hne hstep ih
    exact hgo
  · intro h
    induction h with
    | refl s => exact .refl false s
    | step hne hstep _ ih => exact .step (Or.inr (Set.notMem_empty _)) hne hstep ih

/-- Before the first instruction, or behind it. -/
theorem goPast_passed {passed' : Bool} : GoPast M trap A true (r, m) passed' q ↔
    (passed' = true ∧ q = (r, m)) ∨
      (m (M.pc r) ≠ trap ∧ ∃ s, M.step r m = some s ∧ GoPast M trap A false s passed' q) := by
  constructor
  · intro h
    cases h with
    | refl => exact Or.inl ⟨rfl, rfl⟩
    | step _ hne hstep h => exact Or.inr ⟨hne, _, hstep, h⟩
  · rintro (⟨rfl, rfl⟩ | ⟨hne, s, hstep, h⟩)
    · exact .refl true _
    · exact .step (Or.inl rfl) hne hstep h

theorem GoPast.tour {passed' : Bool} (hgo : GoPast M trap A false s passed' q) (hS : S ⊆ B)
    (hu : M.Along (s.1, m) (M.Undisturbed B)) (hp : Patched S trap m s.2) :
    passed' = false ∧ ∃ m', Tour M (S ∪ A) (s.1, m) [] (q.1, m') ∧ Patched S trap m' q.2 := by
  generalize hpassed : false = passed at hgo
  induction hgo generalizing m with
  | refl passed s => exact ⟨rfl, m, .refl _, hp⟩
  | @step passed passed' r mp s₁ s₂ hlet hne hstep _ ih =>
      subst hpassed
      have hpc : M.pc r ∉ S := fun hin => hne (hp.1 _ hin)
      have hout : M.pc r ∉ S ∪ A := by
        rintro (hin | hin)
        · exact hpc hin
        · exact hlet.resolve_left Bool.false_ne_true hin
      have hso := sameOutcome_of_patched hS hu.here hpc hp
      rw [hstep] at hso
      cases hm : M.step r m with
      | none => simp [hm, SameOutcome] at hso
      | some q =>
          obtain ⟨mp', hstep', hp'⟩ := step_patched hp hS hu.here hpc hm
          obtain rfl := Option.some.inj (hstep.symm.trans hstep')
          obtain ⟨hfalse, m', htour, hpm⟩ := ih (hu.next hm) hp' rfl
          exact ⟨hfalse, m', .off hout hm htour, hpm⟩

theorem Tour.goPast (ht : Tour M (S ∪ A) s [] q) (hS : S ⊆ B) (hu : M.Along s (M.Undisturbed B))
    (hown : M.Along s fun r m => m (M.pc r) ≠ trap) {mp : Mem n β} (hp : Patched S trap s.2 mp) :
    ∃ mp', GoPast M trap A false (s.1, mp) false (q.1, mp') ∧ Patched S trap q.2 mp' := by
  generalize hvs : ([] : List (BitVec n)) = vs at ht
  induction ht generalizing mp with
  | refl s => exact ⟨mp, .refl _ _, hp⟩
  | off hpc hstep _ ih =>
      have hpcS : M.pc _ ∉ S := fun hin => hpc (Or.inl hin)
      obtain ⟨mp₁, hstep', hp'⟩ := step_patched hp hS hu.here hpcS hstep
      obtain ⟨mp', hgo, hpm⟩ := ih (hu.next hstep) (hown.next hstep) hp' hvs
      refine ⟨mp', .step (Or.inr fun hin => hpc (Or.inr hin)) ?_ hstep' hgo, hpm⟩
      rw [hp.2 _ hpcS]
      exact hown.here
  | visit => cases hvs

/-- Off the trap and off `A` on the overlaid memory is off `S` and `A` on the true one. -/
theorem goPast_overlay (hS : S ⊆ B) (hu : M.Along (r, m) (M.Undisturbed B))
    (hown : M.Along (r, m) fun r m => m (M.pc r) ≠ trap) {passed' : Bool} {mp : Mem n β} :
    GoPast M trap A false (r, overlay S trap m) passed' (r', mp) ↔
      passed' = false ∧ ∃ m', Tour M (S ∪ A) (r, m) [] (r', m') ∧ mp = overlay S trap m' := by
  constructor
  · intro hgo
    obtain ⟨hfalse, m', htour, hp⟩ := hgo.tour hS hu patched_overlay
    exact ⟨hfalse, m', htour, patched_iff.mp hp⟩
  · rintro ⟨rfl, m', htour, rfl⟩
    obtain ⟨mp', hgo, hp⟩ := htour.goPast hS hu hown patched_overlay
    rw [← patched_iff.mp hp]
    exact hgo

/-- Off the trap on the overlaid memory is off `S` on the true one. -/
theorem go_overlay (hS : S ⊆ B) (hu : M.Along (r, m) (M.Undisturbed B))
    (hown : M.Along (r, m) fun r m => m (M.pc r) ≠ trap) {mp : Mem n β} :
    Go M trap (r, overlay S trap m) (r', mp) ↔
      ∃ m', Tour M S (r, m) [] (r', m') ∧ mp = overlay S trap m' := by
  rw [← goPast_empty, goPast_overlay hS hu hown, Set.union_empty]
  simp

/-- An instruction off `S`, on the overlaid memory. -/
theorem step_overlay (hS : S ⊆ B) (hu : M.Undisturbed B r m) (hpc : M.pc r ∉ S)
    (h : M.step r m = some s) : M.step r (overlay S trap m) = some (s.1, overlay S trap s.2) := by
  obtain ⟨mp', hstep, hp⟩ := step_patched patched_overlay hS hu hpc h
  rw [hstep, patched_iff.mp hp]

/-- Off `S`, the program ends on the overlaid memory where it ends on the true one. -/
theorem step_overlay_none (hS : S ⊆ B) (hu : M.Undisturbed B r m) (hpc : M.pc r ∉ S) :
    M.step r (overlay S trap m) = none ↔ M.step r m = none := by
  have hso := sameOutcome_of_patched hS hu hpc (patched_overlay (v := trap))
  cases hm : M.step r m with
  | none =>
      cases hp : M.step r (overlay S trap m) with
      | none => simp
      | some q => simp [hm, hp, SameOutcome] at hso
  | some q =>
      cases hp : M.step r (overlay S trap m) with
      | none => simp [hm, hp, SameOutcome] at hso
      | some q' => simp

/-- The overlaid memory has the trap at `pc` where `pc` is on the overlay. -/
theorem overlay_pc (hown : m (M.pc r) ≠ trap) : overlay S trap m (M.pc r) = trap ↔ M.pc r ∈ S := by
  constructor
  · exact stands_on patched_overlay hown
  · exact patched_overlay.1 _

end Machine
