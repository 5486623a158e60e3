/-
# `TestDbug.Lib.Interaction` — programs that issue requests

A program of this library is a tree: it has returned, or it issues one
request and goes on with whatever the answer is.  Nothing in the tree says
what a request does.  That is said by a *kernel*, a relation between the
request, the state of the world before it, the answer and the state after.

    Path K p s q s'      from `p` in `s` the kernel leads to `q` in `s'`
    Ends K p s a s'      the program returns `a` in `s'`
    Safe K I p s         every request issued on the way satisfies `I`
    wp K I p Q s         both at once, by recursion on the program

A program that waits for ever, or asks for something the kernel never
answers, has no `Ends`; `Safe` still speaks about what it did before.
`wp_iff` is the adequacy of the last line for the other three.

Some requests can be left out of a program (`hide`), and two programs compared
request by request (`Coupled`).

A session feeds a list of inputs to one program after the other (`runAll`);
`Runs` is the same with a guard on each input in the state it meets, and
`Runs.invariant` is the one induction over sessions.
-/
import Mathlib.Logic.Basic
import Mathlib.Tactic.Common

namespace Interaction

/-- A program over the requests `Req`, each answered by a `Resp`. -/
inductive Prog (Req : Type) (Resp : Req → Type) (α : Type) : Type where
  | ret (a : α)
  | call (r : Req) (k : Resp r → Prog Req Resp α)

variable {Req : Type} {Resp : Req → Type} {α β γ σ ι : Type}

namespace Prog

/-- Sequencing: the answers of the first program run out before the second starts. -/
def bind : Prog Req Resp α → (α → Prog Req Resp β) → Prog Req Resp β
  | ret a, f => f a
  | call r k, f => call r (fun x => (k x).bind f)

instance : Monad (Prog Req Resp) where
  pure := ret
  bind := bind

/-- One request, and its answer. -/
def req (r : Req) : Prog Req Resp (Resp r) := call r ret

@[simp] theorem pure_eq (a : α) : (pure a : Prog Req Resp α) = ret a := rfl

@[simp] theorem ret_bind (a : α) (f : α → Prog Req Resp β) : (ret a >>= f) = f a := rfl

@[simp] theorem call_bind (r : Req) (k : Resp r → Prog Req Resp α) (f : α → Prog Req Resp β) :
    (call r k >>= f) = call r (fun x => k x >>= f) := rfl

@[simp] theorem req_bind (r : Req) (f : Resp r → Prog Req Resp β) :
    (req r >>= f) = call r f := rfl

theorem bind_ret (p : Prog Req Resp α) : (p >>= ret) = p := by
  induction p with
  | ret a => rfl
  | call r k ih => simp only [call_bind, ih]

theorem bind_assoc (p : Prog Req Resp α) (f : α → Prog Req Resp β) (g : β → Prog Req Resp γ) :
    (p >>= f >>= g) = (p >>= fun a => f a >>= g) := by
  induction p with
  | ret a => rfl
  | call r k ih => simp only [call_bind, ih]

instance : LawfulMonad (Prog Req Resp) :=
  LawfulMonad.mk' _ bind_ret (fun _ _ => rfl) bind_assoc

end Prog

open Prog

/-! ## Kernels and paths -/

/-- What a request does: the request, the world before, the answer, the world after. -/
abbrev Kernel (Resp : Req → Type) (σ : Type) := (r : Req) → σ → Resp r → σ → Prop

/-- `Path K p s q s'`: some requests of `p`, answered by `K`, leave `q` to be done. -/
inductive Path (K : Kernel Resp σ) : Prog Req Resp α → σ → Prog Req Resp α → σ → Prop
  | refl (p : Prog Req Resp α) (s : σ) : Path K p s p s
  | step {r : Req} {k : Resp r → Prog Req Resp α} {x : Resp r} {q : Prog Req Resp α}
      {s s₁ s₂ : σ} :
      K r s x s₁ → Path K (k x) s₁ q s₂ → Path K (call r k) s q s₂

/-- A complete run: the program returns. -/
def Ends (K : Kernel Resp σ) (p : Prog Req Resp α) (s : σ) (a : α) (s' : σ) : Prop :=
  Path K p s (ret a) s'

/-- Every request issued by `p`, also on runs that never return, satisfies `I`. -/
def Safe (K : Kernel Resp σ) (I : Req → σ → Prop) (p : Prog Req Resp α) (s : σ) : Prop :=
  ∀ r k s', Path K p s (call r k) s' → I r s'

/-- There is a run, and whenever the program returns, `Q` holds. -/
def Returns (K : Kernel Resp σ) (p : Prog Req Resp α) (Q : α → σ → Prop) (s : σ) : Prop :=
  (∃ a s', Ends K p s a s') ∧ ∀ a s', Ends K p s a s' → Q a s'

section
variable {K : Kernel Resp σ} {I : Req → σ → Prop}

theorem ends_ret {a b : α} {s s' : σ} : Ends K (ret a) s b s' ↔ b = a ∧ s' = s := by
  constructor
  · intro h
    cases h
    exact ⟨rfl, rfl⟩
  · rintro ⟨rfl, rfl⟩
    exact .refl _ _

theorem ends_call {r : Req} {k : Resp r → Prog Req Resp α} {s s' : σ} {a : α} :
    Ends K (call r k) s a s' ↔ ∃ x s₁, K r s x s₁ ∧ Ends K (k x) s₁ a s' := by
  constructor
  · intro h
    cases h with
    | step hK hp => exact ⟨_, _, hK, hp⟩
  · rintro ⟨x, s₁, hK, hp⟩
    exact .step hK hp

theorem ends_ask {r : Req} {f : Resp r → Prog Req Resp α} {s s' : σ} {a : α} :
    Ends K (req r >>= f) s a s' ↔ ∃ x s₁, K r s x s₁ ∧ Ends K (f x) s₁ a s' :=
  ends_call

/-- A run of a sequence is a run of the first part, then one of the second. -/
theorem ends_bind {p : Prog Req Resp α} {f : α → Prog Req Resp β} {s s' : σ} {b : β} :
    Ends K (p >>= f) s b s' ↔ ∃ a s₁, Ends K p s a s₁ ∧ Ends K (f a) s₁ b s' := by
  induction p generalizing s with
  | ret a =>
      simp only [ret_bind, ends_ret]
      constructor
      · intro h
        exact ⟨a, s, ⟨rfl, rfl⟩, h⟩
      · rintro ⟨a', s₁, ⟨rfl, rfl⟩, h⟩
        exact h
  | call r k ih =>
      simp only [call_bind, ends_call, ih]
      constructor
      · rintro ⟨x, s₁, hK, a, s₂, hp, hf⟩
        exact ⟨a, s₂, ⟨x, s₁, hK, hp⟩, hf⟩
      · rintro ⟨a, s₂, ⟨x, s₁, hK, hp⟩, hf⟩
        exact ⟨x, s₁, hK, a, s₂, hp, hf⟩

end

/-! ## Weakest preconditions -/

/-- `wp K I p Q s`: started in `s`, every request of `p` satisfies `I`, and
whenever `p` returns, the value and the state satisfy `Q`. -/
def wp (K : Kernel Resp σ) (I : Req → σ → Prop) :
    Prog Req Resp α → (α → σ → Prop) → σ → Prop
  | ret a, Q, s => Q a s
  | call r k, Q, s => I r s ∧ ∀ x s', K r s x s' → wp K I (k x) Q s'

/-- No demand on the requests. -/
def Free : Req → σ → Prop := fun _ _ => True

section
variable {K : Kernel Resp σ} {I : Req → σ → Prop} {Q Q' : α → σ → Prop} {s s' : σ}

@[simp] theorem wp_ret {a : α} : wp K I (ret a) Q s ↔ Q a s := Iff.rfl

@[simp] theorem wp_call {r : Req} {k : Resp r → Prog Req Resp α} :
    wp K I (call r k) Q s ↔ I r s ∧ ∀ x s', K r s x s' → wp K I (k x) Q s' := Iff.rfl

@[simp] theorem wp_req {r : Req} {Q : Resp r → σ → Prop} :
    wp K I (req r) Q s ↔ I r s ∧ ∀ x s', K r s x s' → Q x s' := Iff.rfl

theorem wp_bind {p : Prog Req Resp α} {f : α → Prog Req Resp β} {Q : β → σ → Prop} :
    wp K I (p >>= f) Q s ↔ wp K I p (fun a s' => wp K I (f a) Q s') s := by
  induction p generalizing s with
  | ret a => exact Iff.rfl
  | call r k ih => simp only [call_bind, wp_call, ih]

theorem wp_mono {p : Prog Req Resp α} (h : ∀ a s', Q a s' → Q' a s') :
    wp K I p Q s → wp K I p Q' s := by
  induction p generalizing s with
  | ret a => exact h a s
  | call r k ih =>
      rintro ⟨hI, hk⟩
      exact ⟨hI, fun x s' hK => ih x (hk x s' hK)⟩

/-- The rule of sequence: meet `Q` after `p`, and go on from any such state. -/
theorem wp_seq {p : Prog Req Resp α} {f : α → Prog Req Resp β} {R : β → σ → Prop}
    (hp : wp K I p Q s) (hf : ∀ a s', Q a s' → wp K I (f a) R s') :
    wp K I (p >>= f) R s :=
  wp_bind.mpr (wp_mono hf hp)

theorem wp_ask_iff {r : Req} {f : Resp r → Prog Req Resp α} :
    wp K I (req r >>= f) Q s ↔ I r s ∧ ∀ x s', K r s x s' → wp K I (f x) Q s' := Iff.rfl

/-- The rule of sequence after one request. -/
theorem wp_ask {r : Req} {f : Resp r → Prog Req Resp α} (hI : I r s)
    (hf : ∀ x s', K r s x s' → wp K I (f x) Q s') : wp K I (req r >>= f) Q s :=
  ⟨hI, hf⟩

/-- Adequacy: the recursive definition says what the runs say. -/
theorem wp_iff {p : Prog Req Resp α} :
    wp K I p Q s ↔ Safe K I p s ∧ ∀ a s', Ends K p s a s' → Q a s' := by
  induction p generalizing s with
  | ret a =>
      constructor
      · intro h
        constructor
        · intro r k s' hp
          cases hp
        · intro b s' he
          obtain ⟨rfl, rfl⟩ := ends_ret.mp he
          exact h
      · intro h
        exact h.2 a s (.refl _ _)
  | call r k ih =>
      simp only [wp_call, ih]
      constructor
      · rintro ⟨hI, hk⟩
        constructor
        · intro r' k' s' hp
          cases hp with
          | refl => exact hI
          | step hK hp => exact (hk _ _ hK).1 _ _ _ hp
        · intro a s' he
          obtain ⟨x, s₁, hK, he⟩ := ends_call.mp he
          exact (hk x s₁ hK).2 a s' he
      · rintro ⟨hsafe, hends⟩
        refine ⟨hsafe r k s (.refl _ _), fun x s' hK => ⟨?_, ?_⟩⟩
        · exact fun r' k' s'' hp => hsafe r' k' s'' (.step hK hp)
        · exact fun a s'' he => hends a s'' (ends_call.mpr ⟨x, s', hK, he⟩)

theorem wp.safe {p : Prog Req Resp α} (h : wp K I p Q s) : Safe K I p s :=
  (wp_iff.mp h).1

/-- What holds all the way holds at the start. -/
theorem wp.start {J : σ → Prop} {p : Prog Req Resp α}
    (h : wp K (fun _ => J) p (fun _ => J) s) : J s := by
  cases p with
  | ret a => exact h
  | call r k => exact h.1

theorem wp.ends {p : Prog Req Resp α} {a : α} (h : wp K I p Q s) (he : Ends K p s a s') :
    Q a s' :=
  (wp_iff.mp h).2 a s' he

theorem wp_free_iff {p : Prog Req Resp α} :
    wp K Free p Q s ↔ ∀ a s', Ends K p s a s' → Q a s' := by
  rw [wp_iff]
  exact ⟨fun h => h.2, fun h => ⟨fun _ _ _ _ => trivial, h⟩⟩

/-- Kernels that agree on the requests allowed give the same weakest preconditions. -/
theorem wp_congr {K' : Kernel Resp σ} {p : Prog Req Resp α}
    (hK : ∀ r s x s', I r s → (K r s x s' ↔ K' r s x s')) :
    wp K I p Q s ↔ wp K' I p Q s := by
  induction p generalizing s with
  | ret a => exact Iff.rfl
  | call r k ih =>
      simp only [wp_call, ih]
      refine and_congr_right fun hI => forall_congr' fun x => forall_congr' fun s' => ?_
      rw [hK r s x s' hI]

/-- A program whose weakest precondition asks for one outcome has that outcome,
and no other. -/
theorem ends_iff_of_wp {p : Prog Req Resp α} {a₀ : α} {s₀ : σ}
    (h : ∀ Q : α → σ → Prop, wp K Free p Q s ↔ Q a₀ s₀) {a : α} :
    Ends K p s a s' ↔ a = a₀ ∧ s' = s₀ := by
  constructor
  · exact fun he => ((h fun a s' => a = a₀ ∧ s' = s₀).mpr ⟨rfl, rfl⟩).ends he
  · rintro ⟨rfl, rfl⟩
    by_contra hno
    have hw : wp K Free p (fun b t => ¬(b = a ∧ t = s')) s := by
      rw [wp_free_iff]
      rintro b t he ⟨rfl, rfl⟩
      exact hno he
    exact (h _).mp hw ⟨rfl, rfl⟩

end

/-! ## What holds under every kernel -/

/-- `p` issues only requests in `P` and returns only values in `V`, whatever
the answers are. -/
def Emits (P : Req → Prop) (V : α → Prop) : Prog Req Resp α → Prop
  | ret a => V a
  | call r k => P r ∧ ∀ x, Emits P V (k x)

section
variable {K : Kernel Resp σ} {P P' : Req → Prop} {V V' : α → Prop}

@[simp] theorem emits_call {r : Req} {k : Resp r → Prog Req Resp α} :
    Emits P V (call r k) ↔ P r ∧ ∀ x, Emits P V (k x) := Iff.rfl

theorem emits_bind {p : Prog Req Resp α} {f : α → Prog Req Resp β} {V : β → Prop} :
    Emits P V (p >>= f) ↔ Emits P (fun a => Emits P V (f a)) p := by
  induction p with
  | ret a => exact Iff.rfl
  | call r k ih => simp only [call_bind, emits_call, ih]

theorem Emits.mono {p : Prog Req Resp α} (hP : ∀ r, P r → P' r) (hV : ∀ a, V a → V' a) :
    Emits P V p → Emits P' V' p := by
  induction p with
  | ret a => exact hV a
  | call r k ih =>
      intro h
      exact ⟨hP r h.1, fun x => ih x (h.2 x)⟩

/-- The rule of sequence for requests and values. -/
theorem Emits.seq {p : Prog Req Resp α} {f : α → Prog Req Resp β} {W : β → Prop}
    (hp : Emits P V p) (hf : ∀ a, V a → Emits P W (f a)) : Emits P W (p >>= f) :=
  emits_bind.mpr (hp.mono (fun _ h => h) hf)

/-- The rule of sequence after one request. -/
theorem Emits.ask {r : Req} {f : Resp r → Prog Req Resp α} (hr : P r)
    (hf : ∀ x, Emits P V (f x)) : Emits P V (req r >>= f) :=
  ⟨hr, hf⟩

theorem emits_every (p : Prog Req Resp α) : Emits (fun _ => True) (fun _ => True) p := by
  induction p with
  | ret a => trivial
  | call r k ih => exact ⟨trivial, ih⟩

/-- What the requests of `P` preserve, a program over `P` preserves. -/
theorem Emits.wp {I : Req → σ → Prop} {J : σ → Prop} {p : Prog Req Resp α} (h : Emits P V p)
    (hI : ∀ r s, P r → J s → I r s)
    (hJ : ∀ r s x s', P r → J s → K r s x s' → J s') {s : σ} (hs : J s) :
    wp K I p (fun a s' => V a ∧ J s') s := by
  induction p generalizing s with
  | ret a => exact ⟨h, hs⟩
  | call r k ih =>
      exact ⟨hI r s h.1 hs, fun x s' hK => ih x (h.2 x) (hJ r s x s' h.1 hs hK)⟩

/-- What is said of every outcome holds of one. -/
theorem Emits.of_ends {p : Prog Req Resp α} (h : Emits P V p) {s s' : σ} {a : α}
    (he : Ends K p s a s') : V a := by
  induction p generalizing s with
  | ret b =>
      obtain ⟨rfl, rfl⟩ := ends_ret.mp he
      exact h
  | call r k ih =>
      obtain ⟨x, s₁, -, hk⟩ := ends_call.mp he
      exact ih x (h.2 x) hk

/-- Kernels that agree on the requests of a program have the same runs of it. -/
theorem Emits.ends_congr {K' : Kernel Resp σ} {p : Prog Req Resp α} (h : Emits P V p)
    (hK : ∀ r, P r → ∀ s x s', K r s x s' ↔ K' r s x s') {s s' : σ} {a : α} :
    Ends K p s a s' ↔ Ends K' p s a s' := by
  induction p generalizing s with
  | ret b => simp only [ends_ret]
  | call r k ih => simp only [ends_call, hK r h.1, ih _ (h.2 _)]

end

/-! ## Sessions -/

/-- Feed the inputs to `step`, one after the other. -/
def runAll (step : ι → α → Prog Req Resp α) : List ι → α → Prog Req Resp α
  | [], a => ret a
  | i :: is, a => step i a >>= runAll step is

theorem Emits.runAll {P : Req → Prop} {step : ι → α → Prog Req Resp α}
    (h : ∀ i a, Emits P (fun _ => True) (step i a)) {is : List ι} {a : α} :
    Emits P (fun _ => True) (runAll step is a) := by
  induction is generalizing a with
  | nil => trivial
  | cons i is ih => exact (h i a).seq fun _ _ => ih

/-- `Runs K step C a s is b s'`: the inputs `is` take `(a, s)` to `(b, s')`,
and each input meets the guard `C` in the state it is fed to. -/
inductive Runs (K : Kernel Resp σ) (step : ι → α → Prog Req Resp α) (C : ι → α → σ → Prop) :
    α → σ → List ι → α → σ → Prop
  | nil (a : α) (s : σ) : Runs K step C a s [] a s
  | cons {i : ι} {is : List ι} {a b c : α} {s s₁ s₂ : σ} :
      C i a s → Ends K (step i a) s b s₁ → Runs K step C b s₁ is c s₂ →
      Runs K step C a s (i :: is) c s₂

/-- No guard. -/
def Always : ι → α → σ → Prop := fun _ _ _ => True

section
variable {K : Kernel Resp σ} {step : ι → α → Prog Req Resp α} {C : ι → α → σ → Prop}
  {a b : α} {s s' : σ} {is : List ι}

/-- Without a guard, `Runs` is the complete runs of `runAll`. -/
theorem runs_iff_ends :
    Runs K step Always a s is b s' ↔ Ends K (runAll step is a) s b s' := by
  induction is generalizing a s with
  | nil =>
      simp only [runAll, ends_ret]
      constructor
      · rintro ⟨⟩
        exact ⟨rfl, rfl⟩
      · rintro ⟨rfl, rfl⟩
        exact .nil _ _
  | cons i is ih =>
      simp only [runAll, ends_bind, ← ih]
      constructor
      · rintro (_ | ⟨_, he, hr⟩)
        exact ⟨_, _, he, hr⟩
      · rintro ⟨c, s₁, he, hr⟩
        exact .cons trivial he hr

theorem Runs.mono {C' : ι → α → σ → Prop} (hC : ∀ i a s, C i a s → C' i a s)
    (h : Runs K step C a s is b s') : Runs K step C' a s is b s' := by
  induction h with
  | nil a s => exact .nil a s
  | cons hc he _ ih => exact .cons (hC _ _ _ hc) he ih

/-- A property of every input is a guard. -/
theorem Runs.guarded {P : ι → Prop} (h : Runs K step C a s is b s') (hP : ∀ i ∈ is, P i) :
    Runs K step (fun i a s => P i ∧ C i a s) a s is b s' := by
  induction h with
  | nil a s => exact .nil a s
  | cons hc he _ ih =>
      exact .cons ⟨hP _ List.mem_cons_self, hc⟩ he
        (ih fun i hi => hP i (List.mem_cons_of_mem _ hi))

/-- The induction over sessions, with the inputs fed so far. -/
theorem Runs.history (Inv : List ι → α → σ → Prop) {I : ι → Req → σ → Prop} (js : List ι)
    (hstep : ∀ js i a s, C i a s → Inv js a s → wp K (I i) (step i a) (Inv (js ++ [i])) s)
    (h : Runs K step C a s is b s') (h₀ : Inv js a s) : Inv (js ++ is) b s' := by
  induction h generalizing js with
  | nil a s =>
      rw [List.append_nil]
      exact h₀
  | cons hc he _ ih =>
      rw [List.append_cons]
      exact ih _ ((hstep _ _ _ _ hc h₀).ends he)

/-- What every guarded input preserves, every session preserves. -/
theorem Runs.invariant (Inv : α → σ → Prop) {I : ι → Req → σ → Prop}
    (hstep : ∀ i a s, C i a s → Inv a s → wp K (I i) (step i a) Inv s)
    (h : Runs K step C a s is b s') (h₀ : Inv a s) : Inv b s' :=
  h.history (fun _ => Inv) [] (fun _ => hstep) h₀

/-- At every prompt the session can reach, the next input meets the guard. -/
def AllSteps (K : Kernel Resp σ) (step : ι → α → Prog Req Resp α) (C : ι → α → σ → Prop) :
    List ι → α → σ → Prop
  | [], _, _ => True
  | i :: is, a, s => C i a s ∧ ∀ b s', Ends K (step i a) s b s' → AllSteps K step C is b s'

/-- `Runs.invariant` for sessions that need not come to an end: the requests of
a guarded session are as good as those of its steps. -/
theorem wp_runAll {I : Req → σ → Prop} (Inv : α → σ → Prop)
    (hstep : ∀ i a s, C i a s → Inv a s → wp K I (step i a) Inv s)
    (hC : AllSteps K step C is a s) (h₀ : Inv a s) : wp K I (runAll step is a) Inv s := by
  induction is generalizing a s with
  | nil => exact h₀
  | cons i is ih =>
      have hw := hstep i a s hC.1 h₀
      refine wp_bind.mpr (wp_iff.mpr ⟨hw.safe, ?_⟩)
      intro b s' he
      exact ih (hC.2 b s' he) (hw.ends he)

/-- A guard that is exact for one step is exact for sessions. -/
theorem wp_runAll_iff {I : Req → σ → Prop} {Inv : α → σ → Prop}
    (hstart : ∀ is a s, wp K I (runAll step is a) Inv s → Inv a s)
    (hstep : ∀ i a s, Inv a s → (wp K I (step i a) Inv s ↔ C i a s)) (h₀ : Inv a s) :
    wp K I (runAll step is a) Inv s ↔ AllSteps K step C is a s := by
  constructor
  · intro h
    induction is generalizing a s with
    | nil => trivial
    | cons i is ih =>
        have hw := wp_bind.mp h
        have hinv : wp K I (step i a) Inv s := wp_mono (fun b s' hb => hstart is b s' hb) hw
        refine ⟨(hstep i a s h₀).mp hinv, ?_⟩
        intro b s' he
        exact ih (hinv.ends he) (hw.ends he)
  · intro hC
    exact wp_runAll Inv (fun i a s hc hi => (hstep i a s hi).mpr hc) hC h₀

end

/-! ## Deterministic kernels

A handler answers every request itself, or stops the program (`none`).  It
makes programs executable; `eval_ends` turns an evaluation into a run of any
kernel that allows the handler's answers. -/

/-- An executable kernel. -/
abbrev Handler (Resp : Req → Type) (σ : Type) := (r : Req) → σ → Option (Resp r × σ)

/-- Run a program on a handler. -/
def eval (h : Handler Resp σ) : Prog Req Resp α → σ → Option (α × σ)
  | ret a, s => some (a, s)
  | call r k, s =>
      match h r s with
      | some (x, s') => eval h (k x) s'
      | none => none

/-- The kernel that answers exactly as the handler does. -/
def Handler.kernel (h : Handler Resp σ) : Kernel Resp σ :=
  fun r s x s' => h r s = some (x, s')

/-- An evaluation is a run of every kernel that contains the handler. -/
theorem eval_ends {h : Handler Resp σ} {K : Kernel Resp σ}
    (hK : ∀ r s x s', h r s = some (x, s') → K r s x s') :
    ∀ {p : Prog Req Resp α} {s : σ} {a : α} {s' : σ},
      eval h p s = some (a, s') → Ends K p s a s'
  | ret _, _, _, _, he => by
      simp only [eval, Option.some.injEq, Prod.mk.injEq] at he
      obtain ⟨rfl, rfl⟩ := he
      exact .refl _ _
  | call r k, s, a, s', he => by
      cases hr : h r s with
      | none => simp [eval, hr] at he
      | some xs =>
          simp only [eval, hr] at he
          exact ends_call.mpr ⟨xs.1, xs.2, hK r s xs.1 xs.2 hr, eval_ends hK he⟩

/-- On a handler the program comes to an end, and there `Q` holds. -/
def Meets (h : Handler Resp σ) : Prog Req Resp α → (α → σ → Prop) → σ → Prop
  | ret a, Q, s => Q a s
  | call r k, Q, s => ∃ x s', h r s = some (x, s') ∧ Meets h (k x) Q s'

section
variable {h : Handler Resp σ} {Q : α → σ → Prop} {s s' : σ}

@[simp] theorem meets_ret {a : α} : Meets h (ret a) Q s ↔ Q a s := Iff.rfl

/-- The rule of one request: the handler has one answer. -/
theorem meets_ask {r : Req} {f : Resp r → Prog Req Resp α} {x : Resp r}
    (hr : h r s = some (x, s')) : Meets h (req r >>= f) Q s ↔ Meets h (f x) Q s' := by
  constructor
  · rintro ⟨y, t, hy, hf⟩
    obtain ⟨rfl, rfl⟩ := Prod.mk.inj (Option.some.inj (hr.symm.trans hy))
    exact hf
  · intro hf
    exact ⟨x, s', hr, hf⟩

theorem meets_bind {p : Prog Req Resp α} {f : α → Prog Req Resp β} {Q : β → σ → Prop} :
    Meets h (p >>= f) Q s ↔ Meets h p (fun a s' => Meets h (f a) Q s') s := by
  induction p generalizing s with
  | ret a => exact Iff.rfl
  | call r k ih => simp only [call_bind, Meets, ih]

/-- Adequacy: to meet `Q` is to return with it. -/
theorem meets_iff {p : Prog Req Resp α} : Meets h p Q s ↔ Returns h.kernel p Q s := by
  induction p generalizing s with
  | ret a =>
      simp only [meets_ret, Returns, ends_ret]
      constructor
      · intro hQ
        refine ⟨⟨a, s, rfl, rfl⟩, ?_⟩
        rintro b s' ⟨rfl, rfl⟩
        exact hQ
      · exact fun hQ => hQ.2 a s ⟨rfl, rfl⟩
  | call r k ih =>
      simp only [Meets, ih, Returns, ends_call, Handler.kernel]
      constructor
      · rintro ⟨x, t, hr, ⟨a, s', he⟩, hall⟩
        refine ⟨⟨a, s', x, t, hr, he⟩, ?_⟩
        rintro b s'' ⟨y, u, hy, he'⟩
        obtain ⟨rfl, rfl⟩ := Prod.mk.inj (Option.some.inj (hr.symm.trans hy))
        exact hall b s'' he'
      · rintro ⟨⟨a, s', x, t, hr, he⟩, hall⟩
        exact ⟨x, t, hr, ⟨a, s', he⟩, fun b s'' he' => hall b s'' ⟨x, t, hr, he'⟩⟩

/-- To meet `Q` is to be answered all the way, and to return with it. -/
theorem meets_iff_wp {p : Prog Req Resp α} :
    Meets h p Q s ↔ wp h.kernel (fun r s => (h r s).isSome = true) p Q s := by
  induction p generalizing s with
  | ret a => exact Iff.rfl
  | call r k ih =>
      constructor
      · rintro ⟨x, s', hr, hk⟩
        refine ⟨Option.isSome_iff_exists.mpr ⟨_, hr⟩, fun y t hy => ?_⟩
        obtain ⟨rfl, rfl⟩ := Prod.mk.inj (Option.some.inj (hr.symm.trans hy))
        exact (ih x).mp hk
      · rintro ⟨hI, hk⟩
        obtain ⟨⟨x, s'⟩, hr⟩ := Option.isSome_iff_exists.mp hI
        exact ⟨x, s', hr, (ih x).mpr (hk x s' hr)⟩

/-- A handler has one run at most. -/
theorem Ends.meets {p : Prog Req Resp α} {a : α} (hp : Ends h.kernel p s a s') (hQ : Q a s') :
    Meets h p Q s := by
  induction p generalizing s with
  | ret b =>
      obtain ⟨rfl, rfl⟩ := ends_ret.mp hp
      exact hQ
  | call r k ih =>
      obtain ⟨x, s₁, hr, hk⟩ := ends_call.mp hp
      exact ⟨x, s₁, hr, ih x hk⟩

/-- A program that meets what holds of one outcome, and that under a condition,
has this outcome under it. -/
theorem ends_iff_of_meets {p : Prog Req Resp α} {c : Prop} {a₀ : α} {s₀ : σ}
    (hp : ∀ Q, Meets h p Q s ↔ c ∧ Q a₀ s₀) {a : α} :
    Ends h.kernel p s a s' ↔ c ∧ a = a₀ ∧ s' = s₀ := by
  constructor
  · intro he
    obtain ⟨hc, ha, hs⟩ := (hp fun b t => a = b ∧ s' = t).mp (he.meets ⟨rfl, rfl⟩)
    exact ⟨hc, ha, hs⟩
  · rintro ⟨hc, rfl, rfl⟩
    have hmeets := (hp fun b t => b = a ∧ t = s').mpr ⟨hc, rfl, rfl⟩
    obtain ⟨⟨b, t, he⟩, hall⟩ := meets_iff.mp hmeets
    obtain ⟨rfl, rfl⟩ := hall b t he
    exact he

/-- A program with one outcome meets what holds of that. -/
theorem meets_of_ends {p : Prog Req Resp α} {a₀ : α} {s₀ : σ}
    (hp : ∀ a s', Ends h.kernel p s a s' ↔ a = a₀ ∧ s' = s₀) :
    Meets h p Q s ↔ Q a₀ s₀ := by
  simp only [meets_iff, Returns, hp]
  constructor
  · intro hQ
    exact hQ.2 a₀ s₀ ⟨rfl, rfl⟩
  · intro hQ
    refine ⟨⟨a₀, s₀, rfl, rfl⟩, ?_⟩
    rintro a s' ⟨rfl, rfl⟩
    exact hQ

/-- A kernel that does as the handler on the requests of a program. -/
theorem Emits.returns_iff {K : Kernel Resp σ} {P : Req → Prop} {V : α → Prop}
    {p : Prog Req Resp α} (hp : Emits P V p)
    (hK : ∀ r, P r → ∀ s x s', K r s x s' ↔ h.kernel r s x s') :
    Returns K p Q s ↔ Meets h p Q s := by
  rw [meets_iff]
  simp only [Returns, hp.ends_congr hK]

end

/-! ## Hiding requests -/

/-- Leave out the requests that `ans` answers, and go on with that answer. -/
def hide (ans : (r : Req) → Option (Resp r)) : Prog Req Resp α → Prog Req Resp α
  | ret a => ret a
  | call r k =>
      match ans r with
      | some x => hide ans (k x)
      | none => call r (fun x => hide ans (k x))

theorem hide_bind (ans : (r : Req) → Option (Resp r)) (f : α → Prog Req Resp β) :
    ∀ p : Prog Req Resp α, hide ans (p >>= f) = (hide ans p >>= fun a => hide ans (f a))
  | ret _ => rfl
  | call r k => by
      cases hr : ans r with
      | none => simp [hide, hr, hide_bind ans f]
      | some x => simpa [hide, hr] using hide_bind ans f (k x)

/-! ## Two programs side by side

For statements about two runs: both programs issue the same requests, whatever
they are answered, and return related values. -/

inductive Coupled (R : α → β → Prop) : Prog Req Resp α → Prog Req Resp β → Prop
  | ret {a : α} {b : β} : R a b → Coupled R (ret a) (ret b)
  | call {r : Req} {k : Resp r → Prog Req Resp α} {l : Resp r → Prog Req Resp β} :
      (∀ x, Coupled R (k x) (l x)) → Coupled R (call r k) (call r l)

section
variable {δ : Type} {R : α → β → Prop} {S : γ → δ → Prop} {r : Req}

theorem Coupled.ask {f : Resp r → Prog Req Resp α} {g : Resp r → Prog Req Resp β}
    (h : ∀ x, Coupled R (f x) (g x)) : Coupled R (req r >>= f) (req r >>= g) :=
  .call h

theorem Coupled.seq {p : Prog Req Resp α} {q : Prog Req Resp β} {f : α → Prog Req Resp γ}
    {g : β → Prog Req Resp δ} (h : Coupled R p q)
    (hfg : ∀ a b, R a b → Coupled S (f a) (g b)) : Coupled S (p >>= f) (q >>= g) := by
  induction h with
  | ret hab => exact hfg _ _ hab
  | call _ ih => exact .call ih

/-- A common first part. -/
theorem Coupled.after (p : Prog Req Resp α) {f : α → Prog Req Resp γ} {g : α → Prog Req Resp δ}
    (h : ∀ a, Coupled S (f a) (g a)) : Coupled S (p >>= f) (p >>= g) := by
  induction p with
  | ret a => exact h a
  | call r k ih => exact .call ih

theorem Coupled.ite {c : Prop} [Decidable c] {p p' : Prog Req Resp α} {q q' : Prog Req Resp β}
    (hp : Coupled R p q) (hp' : Coupled R p' q') :
    Coupled R (if c then p else p') (if c then q else q') := by
  by_cases hc : c
  · rw [if_pos hc, if_pos hc]
    exact hp
  · rw [if_neg hc, if_neg hc]
    exact hp'

/-- Programs that return the same are the same. -/
theorem Coupled.eq {p q : Prog Req Resp α} (h : Coupled Eq p q) : p = q := by
  induction p generalizing q with
  | ret a =>
      cases h with
      | ret hab => rw [hab]
  | call r k ih =>
      cases h with
      | call hk => rw [show k = _ from funext fun x => ih x (hk x)]

end

end Interaction
