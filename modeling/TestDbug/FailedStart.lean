/-
# `TestDbug.FailedStart` — a `dbug` that fails

After `fork` two processes run `command_dbug` to its end: the debugger, for
which `fork` returned the child's pid, and the child, for which it returned 0.
Both run the same program here, the one under `parentKernel`, the other under
`childKernel`.

Two things go wrong.  A child whose `PTRACE_TRACEME` or `execvp` fails *returns*
instead of exiting, so that a second debugger reads commands from the same
terminal.  And the debugger looks for a failure with `WIFEXITED` alone, which
a death by signal is not, and which an event of another child answers as well.
`intact_iff` says when neither happens.
-/
import TestDbug.Effects

open ByteMemory Interaction

namespace TestDbug

/-- How a start fails. -/
inductive StartFailure where
  | forkFails
  /-- `PTRACE_TRACEME` is refused in the child. -/
  | tracemeRefused
  | execFails
  /-- The child exits before its first stop. -/
  | childExits (code : Byte)
  /-- The child is killed before its first stop. -/
  | childKilled (sig : Signal)
deriving DecidableEq

/-- What the debugger may be told of the child `p`.  A child that goes on as a
second debugger may be told of too, once something happens to it. -/
def StartFailure.Tells (p : Pid) : StartFailure → WaitEvent → Prop
  | forkFails, _ => False
  | tracemeRefused, e | execFails, e => e.pid = p
  | childExits code, e => e = ⟨p, .exited code⟩
  | childKilled sig, e => e = ⟨p, .signaled sig⟩

/-- The system as the debugger sees it: `fork` answers with the child's pid, a
wait with an event of the child or one that another child has to report. -/
def parentKernel (f : StartFailure) (p : Pid) (others : Set WaitEvent) : Kernel Resp Unit
  | .fork, _, x, _ => x = if f = .forkFails then -1 else p
  | .wait, _, x, _ => ∃ e, x = some e ∧ (f.Tells p e ∨ e ∈ others)
  | _, _, _, _ => True

/-- The system as the child sees it: `execvp` answers only where it fails. -/
def childKernel (f : StartFailure) : Kernel Resp Unit
  | .fork, _, x, _ => f ≠ .forkFails ∧ x = 0
  | .traceme, _, x, _ => x = decide (f ≠ .tracemeRefused)
  | .execvp _ _, _, _, _ => f = .execFails
  | _, _, _, _ => True

/-- One debugger is left, as it was. -/
structure Intact (f : StartFailure) (p : Pid) (others : Set WaitEvent) (dbug : Dbug)
    (arg : NgxArray) : Prop where
  /-- The child does not come back to the loop of `main`. -/
  child : ¬ ∃ x, Ends (childKernel f) (commandDbug dbug arg) () x ()
  /-- The debugger does. -/
  parent : ∃ x, Ends (parentKernel f p others) (commandDbug dbug arg) () x ()
  kept : ∀ x, Ends (parentKernel f p others) (commandDbug dbug arg) () x () →
    x.2.pid = dbug.pid ∧ x.2.funs = dbug.funs ∧ x.2.bps = dbug.bps

/-! ## Through `command_dbug` -/

section
variable {K : Kernel Resp Unit} {dbug : Dbug} {arg : NgxArray} {f : StartFailure} {p : Pid}
  {others : Set WaitEvent} {path : Option CStr} {argv : List (Option CStr)}

theorem ends_commandDbug {x : Int × Dbug} (h : Ends K (commandDbug dbug arg) () x ()) :
    ∃ argv r, Ends K (dbugPro dbug (arg.str 1) argv) () (r, x.2) () := by
  rw [commandDbug] at h
  obtain ⟨argv, _, -, h⟩ := ends_bind.mp h
  obtain ⟨⟨r, d⟩, _, hpro, hret⟩ := ends_bind.mp h
  obtain ⟨rfl, -⟩ := ends_ret.mp hret
  exact ⟨argv, r, hpro⟩

theorem ends_commandDbug_of (hK : ∀ k, ∃ x, K (.beyond k) () x ())
    {x : Int × Dbug} (h : ∀ argv, Ends K (dbugPro dbug (arg.str 1) argv) () x ()) :
    Ends K (commandDbug dbug arg) () (0, x.2) () := by
  obtain ⟨argv, hargv⟩ : ∃ argv, Ends K (copyArgv arg arg.nelts 0) () argv () := ends_copyArgv hK
  rw [commandDbug]
  exact ends_bind.mpr ⟨argv, (), hargv, ends_bind.mpr ⟨x, (), h argv, .refl _ _⟩⟩

/-! ## Through `dbug_pro` -/

/-- The child comes back exactly where it should have exited. -/
theorem child_returns_iff :
    (∃ x, Ends (childKernel f) (commandDbug dbug arg) () x ()) ↔
      f = .tracemeRefused ∨ f = .execFails := by
  constructor
  · rintro ⟨x, h⟩
    obtain ⟨argv, r, h⟩ := ends_commandDbug h
    rw [dbugPro] at h
    obtain ⟨pid, _, ⟨hf, rfl⟩, h⟩ := ends_ask.mp h
    rw [if_pos rfl] at h
    obtain ⟨ok, _, hok, h⟩ := ends_ask.mp h
    have hexec : ok = true → f = .execFails := by
      rintro rfl
      rw [if_pos rfl] at h
      obtain ⟨_, _, hexec, -⟩ := ends_ask.mp h
      exact hexec
    cases f with
    | forkFails => exact absurd rfl hf
    | tracemeRefused => exact Or.inl rfl
    | execFails => exact Or.inr rfl
    | childExits code => exact Or.inr (hexec hok)
    | childKilled sig => exact Or.inr (hexec hok)
  · intro hf
    refine ⟨_, ends_commandDbug_of (x := (-1, dbug)) (fun k => ⟨none, trivial⟩) fun argv => ?_⟩
    rw [dbugPro]
    rcases hf with rfl | rfl
    · refine ends_ask.mpr ⟨(0 : Pid), (), ⟨by decide, rfl⟩, ?_⟩
      rw [if_pos rfl]
      refine ends_ask.mpr ⟨false, (), rfl, ?_⟩
      exact ends_ask.mpr ⟨(), (), trivial, .refl _ _⟩
    · refine ends_ask.mpr ⟨(0 : Pid), (), ⟨by decide, rfl⟩, ?_⟩
      rw [if_pos rfl]
      refine ends_ask.mpr ⟨true, (), rfl, ?_⟩
      rw [if_pos rfl]
      refine ends_ask.mpr ⟨(), (), rfl, ?_⟩
      exact ends_ask.mpr ⟨(), (), trivial, .refl _ _⟩

/-- The debugger's part, once `fork` has made a child: a normal exit is taken
for a failure, and every other event for the first stop. -/
theorem parent_ends_iff (hp : 0 < p) (hf : f ≠ .forkFails) {x : Int × Dbug} :
    Ends (parentKernel f p others) (dbugPro dbug path argv) () x () ↔
      ∃ e, (f.Tells p e ∨ e ∈ others) ∧
        (((∃ code, e.change = .exited code) ∧
            x = (-1, { dbug with status := e.change.status })) ∨
          ((¬ ∃ code, e.change = .exited code) ∧ ∃ funs,
            x = (0, { dbug with status := e.change.status, pid := p, funs := funs }))) := by
  have hne : p ≠ 0 := Int.ne_of_gt hp
  have hpos : ¬ p < 0 := Int.not_lt.mpr (Int.le_of_lt hp)
  have hfork : (if f = .forkFails then -1 else p) = p := if_neg hf
  rw [dbugPro]
  constructor
  · intro h
    obtain ⟨pid, _, hpid, h⟩ := ends_ask.mp h
    obtain rfl : pid = p := hpid.trans hfork
    rw [if_neg hne, if_neg hpos] at h
    obtain ⟨ev, _, ⟨e, rfl, he⟩, h⟩ := ends_ask.mp h
    refine ⟨e, he, ?_⟩
    by_cases hexit : ∃ code, e.change = .exited code
    · have hW : WIFEXITED e.change.status = true := WIFEXITED_status.mpr hexit
      rw [storeStatus_some, if_pos hW] at h
      exact Or.inl ⟨hexit, (ends_ret.mp h).1⟩
    · have hW : ¬ WIFEXITED e.change.status = true := fun hW => hexit (WIFEXITED_status.mp hW)
      rw [storeStatus_some, if_neg hW] at h
      obtain ⟨funs, _, -, h⟩ := ends_ask.mp h
      exact Or.inr ⟨hexit, funs, (ends_ret.mp h).1⟩
  · rintro ⟨e, he, hx⟩
    refine ends_ask.mpr ⟨p, (), hfork.symm, ?_⟩
    rw [if_neg hne, if_neg hpos]
    refine ends_ask.mpr ⟨some e, (), ⟨e, rfl, he⟩, ?_⟩
    rcases hx with ⟨hexit, rfl⟩ | ⟨hexit, funs, rfl⟩
    · rw [storeStatus_some, if_pos (WIFEXITED_status.mpr hexit)]
      exact .refl _ _
    · rw [storeStatus_some, if_neg fun hW => hexit (WIFEXITED_status.mp hW)]
      exact ends_ask.mpr ⟨funs, (), trivial, .refl _ _⟩

theorem parent_ends_forkFails {x : Int × Dbug} :
    Ends (parentKernel .forkFails p others) (dbugPro dbug path argv) () x () ↔
      x = (-1, dbug) := by
  rw [dbugPro]
  constructor
  · intro h
    obtain ⟨pid, _, rfl, h⟩ := ends_ask.mp h
    obtain ⟨_, _, -, h⟩ := ends_ask.mp h
    exact (ends_ret.mp h).1
  · rintro rfl
    refine ends_ask.mpr ⟨(-1 : Pid), (), rfl, ?_⟩
    exact ends_ask.mpr ⟨(), (), trivial, .refl _ _⟩

/-- An event that is not a normal exit makes the debugger another one. -/
theorem not_kept (dbug : Dbug) (arg : NgxArray) (hp : 0 < p) (hf : f ≠ .forkFails) {e : WaitEvent}
    (he : f.Tells p e ∨ e ∈ others) (hexit : ¬ ∃ code, e.change = .exited code) :
    ∃ x, Ends (parentKernel f p others) (commandDbug dbug arg) () x () ∧
      x.2.funs ≠ dbug.funs := by
  have hother : ∃ funs : Option FunArr, funs ≠ dbug.funs := by
    cases dbug.funs with
    | none => exact ⟨some [], Option.some_ne_none _⟩
    | some funs => exact ⟨none, (Option.some_ne_none funs).symm⟩
  obtain ⟨funs, hfuns⟩ := hother
  exact ⟨_, ends_commandDbug_of (fun k => ⟨none, trivial⟩) fun argv =>
    (parent_ends_iff hp hf).mpr ⟨e, he, Or.inr ⟨hexit, funs, rfl⟩⟩, hfuns⟩

theorem intact_forkFails : Intact .forkFails p others dbug arg where
  child := by
    rw [child_returns_iff]
    rintro (h | h) <;> cases h
  parent :=
    ⟨_, ends_commandDbug_of (fun k => ⟨none, trivial⟩) fun argv => parent_ends_forkFails.mpr rfl⟩
  kept := by
    intro x h
    obtain ⟨argv, r, h⟩ := ends_commandDbug h
    obtain ⟨-, hd⟩ := Prod.mk.inj (parent_ends_forkFails.mp h)
    rw [hd]
    exact ⟨rfl, rfl, rfl⟩

/-- Every event the debugger can be told of is a normal exit. -/
theorem intact_childExits (hp : 0 < p) (code : Byte)
    (hothers : ∀ e ∈ others, ∃ code, e.change = .exited code) :
    Intact (.childExits code) p others dbug arg where
  child := by
    rw [child_returns_iff]
    rintro (h | h) <;> cases h
  parent :=
    ⟨_, ends_commandDbug_of (fun k => ⟨none, trivial⟩) fun argv =>
      (parent_ends_iff hp (by simp)).mpr
        ⟨⟨p, .exited code⟩, Or.inl rfl, Or.inl ⟨⟨code, rfl⟩, rfl⟩⟩⟩
  kept := by
    intro x h
    obtain ⟨argv, r, h⟩ := ends_commandDbug h
    obtain ⟨e, he, hx⟩ := (parent_ends_iff hp (by simp)).mp h
    have hexit : ∃ code, e.change = .exited code := by
      rcases he with rfl | he
      · exact ⟨code, rfl⟩
      · exact hothers e he
    rcases hx with ⟨-, hx⟩ | ⟨hno, -⟩
    · obtain ⟨-, hd⟩ := Prod.mk.inj hx
      rw [hd]
      exact ⟨rfl, rfl, rfl⟩
    · exact absurd hexit hno

/-- **When a failed `dbug` leaves one debugger as it was.**  Whatever the state
before and the arguments: when `fork` itself fails, or the child exits normally
and no other child has an event but a normal exit to report. -/
theorem intact_iff (hp : 0 < p) :
    Intact f p others dbug arg ↔
      f = .forkFails ∨
        (∃ code, f = .childExits code) ∧ ∀ e ∈ others, ∃ code, e.change = .exited code := by
  constructor
  · rintro ⟨hchild, -, hkept⟩
    rw [child_returns_iff, not_or] at hchild
    by_cases hf : f = .forkFails
    · exact Or.inl hf
    have hall : ∀ e, f.Tells p e ∨ e ∈ others → ∃ code, e.change = .exited code := by
      intro e he
      by_contra hexit
      obtain ⟨x, hends, hfuns⟩ := not_kept dbug arg hp hf he hexit
      exact hfuns (hkept x hends).2.1
    refine Or.inr ⟨?_, fun e he => hall e (Or.inr he)⟩
    cases f with
    | forkFails => exact absurd rfl hf
    | tracemeRefused => exact absurd rfl hchild.1
    | execFails => exact absurd rfl hchild.2
    | childExits code => exact ⟨code, rfl⟩
    | childKilled sig =>
        obtain ⟨code, hcode⟩ := hall ⟨p, .signaled sig⟩ (Or.inl rfl)
        cases hcode
  · rintro (rfl | ⟨⟨code, rfl⟩, hothers⟩)
    · exact intact_forkFails
    · exact intact_childExits hp code hothers

end

/-- A program that exits with 1 before it stops, and no other child. -/
theorem intact_iff_exits :
    (0 : Pid) < 7 ∧
      Intact (.childExits 1) 7 ∅ initDbug (typed ['d', 'b', 'u', 'g', ' ', 'p', '\n']) :=
  ⟨by decide, (intact_iff (by decide)).mpr
    (Or.inr ⟨⟨1, rfl⟩, fun _ he => absurd he (Set.notMem_empty _)⟩)⟩

/-- A program that cannot be executed leaves two debuggers; one that is killed
leaves a debugger of a dead process. -/
theorem failed_dbug_is_not_intact :
    ¬ Intact .execFails 7 ∅ initDbug (typed ['d', 'b', 'u', 'g', ' ', 'n', 'o', '\n']) ∧
      ¬ Intact (.childKilled SIGKILL) 7 ∅ initDbug (typed ['d', 'b', 'u', 'g', ' ', 'p', '\n']) := by
  constructor
  · intro h
    exact h.child (child_returns_iff.mpr (Or.inr rfl))
  · intro h
    have hexit : ¬ ∃ code, Change.signaled SIGKILL = .exited code := by
      rintro ⟨code, hcode⟩
      cases hcode
    have htold : StartFailure.Tells 7 (.childKilled SIGKILL) ⟨7, .signaled SIGKILL⟩ := rfl
    obtain ⟨x, hends, hfuns⟩ := not_kept initDbug (typed ['d', 'b', 'u', 'g', ' ', 'p', '\n'])
      (by decide) (by decide) (Or.inl htold) hexit
    exact hfuns (h.kept x hends).2.1

end TestDbug
