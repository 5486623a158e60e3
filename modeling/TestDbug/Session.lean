/-
# `TestDbug.Session` — commands, one after the other

The properties of the debugger are about the states at its prompt.  A session
is what happens between two prompts, over and over: `play arg` runs
`play_command` on the array `arg` that the reader has left in `dbug->cmd`.
The arrays of a session are arbitrary, so a session also covers every array
the reader can leave, used slots and stale ones alike (`mainLoop_runs`).

`play_break` and its siblings resolve the command table.
-/
import TestDbug.Command

open ByteMemory Interaction

namespace TestDbug

/-- `play_command` on the tokens `arg`. -/
def play (arg : NgxArray) (dbug : Dbug) : Dbg Dbug := do
  let (_, dbug) ← playCommand { dbug with cmd := arg }
  return dbug

/-- The tokens of a typed line, in a fresh array. -/
def typed (cs : List Char) : NgxArray := splitLine (some (lit cs)) .create

/-! ## The command table -/

abbrev nameB : CStr := lit ['b']
abbrev nameC : CStr := lit ['c']
abbrev nameDbug : CStr := lit ['d', 'b', 'u', 'g']
abbrev nameAttach : CStr := lit ['a', 't', 't', 'a', 'c', 'h']
abbrev nameWatch : CStr := lit ['w', 'a', 't', 'c', 'h']

/-- The command of `arg` is one of `names`. -/
def Named (names : List CStr) (arg : NgxArray) : Prop := ∃ n ∈ names, arg.str 0 = some n

section
variable {arg : NgxArray} {dbug : Dbug}

/-- What `play` does once the table has been searched. -/
theorem play_of_find (it : CStr × CommandFun)
    (h : cmdSet.find? (fun it => arg.str 0 = some it.1) = some it) :
    play arg dbug = (it.2 { dbug with cmd := arg } arg >>= fun x => Prog.ret x.2) := by
  simp only [play, playCommand, h, Prog.bind_assoc, Prog.ret_bind, Prog.pure_eq]

theorem play_of_none (h : cmdSet.find? (fun it => arg.str 0 = some it.1) = none) :
    play arg dbug = (ask (.print (.notCommand (arg.str 0))) >>= fun _ =>
      Prog.ret { dbug with cmd := arg }) := by
  simp only [play, playCommand, h, Prog.bind_assoc, Prog.ret_bind, Prog.pure_eq]

theorem play_break (h : arg.str 0 = some nameB) :
    play arg dbug = (commandBreak { dbug with cmd := arg } arg >>= fun x => Prog.ret x.2) :=
  play_of_find (nameB, commandBreak) (by rw [h]; rfl)

theorem play_continue (h : arg.str 0 = some nameC) :
    play arg dbug = (commandContinue { dbug with cmd := arg } arg >>= fun x => Prog.ret x.2) :=
  play_of_find (nameC, commandContinue) (by rw [h]; rfl)

theorem play_dbug (h : arg.str 0 = some nameDbug) :
    play arg dbug = (commandDbug { dbug with cmd := arg } arg >>= fun x => Prog.ret x.2) :=
  play_of_find (nameDbug, commandDbug) (by rw [h]; rfl)

theorem play_attach (h : arg.str 0 = some nameAttach) :
    play arg dbug = (commandAttach { dbug with cmd := arg } arg >>= fun x => Prog.ret x.2) :=
  play_of_find (nameAttach, commandAttach) (by rw [h]; rfl)

theorem play_watch (h : arg.str 0 = some nameWatch) :
    play arg dbug = (commandWatch { dbug with cmd := arg } arg >>= fun x => Prog.ret x.2) :=
  play_of_find (nameWatch, commandWatch) (by rw [h]; rfl)

end

/-! ## The loop of `main` -/

/-- A round reads a line and plays it. -/
theorem round_eq (dbug : Dbug) :
    round dbug = (ask (.print .prompt) >>= fun _ => ask (.fgets 50) >>= fun line =>
      play (splitLine (line.map Subtype.val) dbug.cmd) dbug) := by
  simp only [round, getCommand, play, Prog.bind_assoc, Prog.pure_eq, Prog.ret_bind]

/-- Reading and printing do not touch the world of `K`. -/
def QuietIO {σ : Type} (K : Kernel Resp σ) : Prop :=
  (∀ o s x s', K (.print o) s x s' → s' = s) ∧ ∀ size s x s', K (.fgets size) s x s' → s' = s

/-- The rounds of `main` are a session. -/
theorem mainLoop_runs {σ : Type} {K : Kernel Resp σ} (hK : QuietIO K) {n : Nat}
    {dbug dbug' : Dbug} {s s' : σ} (h : Ends K (mainLoop n dbug) s dbug' s') :
    ∃ args : List NgxArray, args.length = n ∧ Runs K play Always dbug s args dbug' s' := by
  induction n generalizing dbug s with
  | zero =>
      obtain ⟨rfl, rfl⟩ := ends_ret.mp h
      exact ⟨[], rfl, .nil _ _⟩
  | succ n ih =>
      rw [mainLoop, round_eq, Prog.bind_assoc, ends_bind] at h
      obtain ⟨x, s₁, hprint, h⟩ := h
      rw [Prog.bind_assoc, ends_bind] at h
      obtain ⟨line, s₂, hgets, h⟩ := h
      obtain ⟨d₁, s₃, hplay, h⟩ := ends_bind.mp h
      obtain ⟨_, _, hK₁, he₁⟩ := ends_call.mp hprint
      obtain ⟨_, rfl⟩ := ends_ret.mp he₁
      obtain ⟨_, _, hK₂, he₂⟩ := ends_call.mp hgets
      obtain ⟨_, rfl⟩ := ends_ret.mp he₂
      obtain rfl := hK.1 _ _ _ _ hK₁
      obtain rfl := hK.2 _ _ _ _ hK₂
      obtain ⟨args, hlen, hruns⟩ := ih h
      exact ⟨_ :: args, by rw [List.length_cons, hlen], .cons trivial hplay hruns⟩

/-! ## Scripts

What the system is going to answer, in the order it is asked.  A kernel with a
script in its state answers from it, so that a condition on the state before a
command can speak of the events the command will meet. -/

structure Script where
  forks : List Pid
  attaches : List Bool
  events : List (Option WaitEvent)
  regs : List (Option UserRegs)

/-- The software breakpoint `command_continue` takes a stop for, when its wait
reports `ev` and its `GETREGS` answers `regs`. -/
def takenFor (dbug : Dbug) (ev : Option WaitEvent) (regs : Option UserRegs) : Option Breakpoint :=
  let status := storeStatus dbug.status ev
  if WIFEXITED status then none
  else if WSTOPSIG status = SIGTRAP.num then
    firstSF dbug.bps ((storeRegs dbug.regs regs).rip - 1)
  else none

end TestDbug
