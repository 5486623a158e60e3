/-
# `TestDbug.Command` — the commands and the command loop

`command.c` and `main.c`: the handlers, the table that names them, the reader
that splits a line into tokens, and the loop that reads and plays one command
after the other.

Every handler gets `dbug->cmd` as its argument, and so do the handlers here
(`arg`).  A handler that calls `exit` never returns; neither does one that
follows a NULL pointer (`crash`).
-/
import TestDbug.Dbug

open ByteMemory Interaction

namespace TestDbug

/-- `exit(0)`. -/
def exit {α : Type} : Dbg α := do
  let e ← ask (.exit 0)
  nomatch e

/-- A read through a NULL pointer. -/
def crash {α : Type} : Dbg α := do
  let e ← ask .segv
  nomatch e

/-! ## Numbers in arguments -/

/-- `'\n'`. -/
def newline : Byte := 10

/-- `isspace` in the C locale. -/
def isspace (c : Byte) : Bool := c = 32 || (9 ≤ c && c ≤ 13)

def isdigit (c : Byte) : Bool := 48 ≤ c && c ≤ 57

/-- The value of a hexadecimal digit. -/
def xdigit (c : Byte) : Option Nat :=
  if isdigit c then some (c.toNat - 48)
  else if 97 ≤ c && c ≤ 102 then some (c.toNat - 87)
  else if 65 ≤ c && c ≤ 70 then some (c.toNat - 55)
  else none

/-- A sign, and what follows it. -/
def signed : CStr → Bool × CStr
  | c :: cs => if c = 45 then (true, cs) else if c = 43 then (false, cs) else (false, c :: cs)
  | [] => (false, [])

/-- `atoi`: `strtol` in base 10, cut to an `int`. -/
def atoi (s : CStr) : Int :=
  let (neg, s) := signed (s.dropWhile isspace)
  let n : Nat := (s.takeWhile isdigit).foldl (fun v c => 10 * v + (c.toNat - 48)) 0
  let long : Int := if neg then max (-n) (-2 ^ 63) else min n (2 ^ 63 - 1)
  long.bmod (2 ^ 32)

/-- The digits of `%lx`, after an optional `0x`; the `0` of a bare `0x` counts. -/
def hexDigits (s : CStr) : List Nat :=
  let s := if s.take 2 = lit ['0', 'x'] ∨ s.take 2 = lit ['0', 'X'] then 48 :: s.drop 2 else s
  (s.takeWhile (fun c => (xdigit c).isSome)).filterMap xdigit

/-- `sscanf(s, "%lx", &v)`; `none` when nothing is converted. -/
def sscanfLx (s : CStr) : Option Word :=
  let (neg, s) := signed (s.dropWhile isspace)
  let digits := hexDigits s
  if digits = [] then none
  else
    let v := digits.foldl (fun v d => 16 * v + d) 0
    if 2 ^ 64 ≤ v then some (BitVec.allOnes 64)
    else some (if neg then -BitVec.ofNat 64 v else BitVec.ofNat 64 v)

/-! ## Handlers -/

/-- One output line after the other. -/
def printAll : List Out → Dbg Unit
  | [] => return ()
  | o :: os => do
      ask (.print o)
      printAll os

/-- `command_break`. -/
def commandBreak (dbug : Dbug) (arg : NgxArray) : Dbg (Int × Dbug) :=
  match findFunc dbug.funs (arg.str 1) with
  | none => return (-1, dbug)
  | some index => do
      let f := (dbug.funs.getD []).getD index ⟨[], 0⟩
      let (_, bp) ← insertINT3Bp dbug.pid { name := some f.name, addr := f.addr }
      return (0, { dbug with bps := dbug.bps ++ [bp] })

/-- The part of `command_continue` that deals with a software breakpoint.
`resume_INT3_bp_next` is given `&dbug->regs`, so it moves the `rip` there. -/
def triggerSF (dbug : Dbug) : Dbg Dbug :=
  match findCurrentSFBp dbug with
  | none => return dbug
  | some index => do
      let bp := dbug.bps.getD index {}
      ask (.print (.trigger bp.addr bp.name))
      let (_, regs) ← resumeINT3BpNext dbug.pid bp dbug.regs
      return { dbug with regs := regs }

/-- The part of `command_continue` that deals with a hardware breakpoint. -/
def triggerHW (dbug : Dbug) : Dbg Unit :=
  match findCurrentHWBp dbug with
  | none => return ()
  | some index => ask (.print (.triggerHW (dbug.bps.getD index {}).addr))

/-- `command_continue`. -/
def commandContinue (dbug : Dbug) (_arg : NgxArray) : Dbg (Int × Dbug) := do
  let ok ← ask (.cont dbug.pid 0)
  unless ok do
    ask (.print (.perror "ptrace cont err"))
  let ev ← ask .wait
  let dbug := { dbug with status := storeStatus dbug.status ev }
  if WIFEXITED dbug.status then
    exit
  else do
    let regs ← ask (.getregs dbug.pid)
    let dbug := { dbug with regs := storeRegs dbug.regs regs }
    if WSTOPSIG dbug.status = SIGTRAP.num then do
      let dbug ← triggerSF dbug
      triggerHW dbug
      return (0, dbug)
    else
      return (0, dbug)

/-- `command_show`, with `foreach_fun`. -/
def commandShow (dbug : Dbug) (_arg : NgxArray) : Dbg (Int × Dbug) := do
  printAll ((dbug.funs.getD []).zipIdx.map fun (f, i) => .func i f.name f.addr)
  return (0, dbug)

/-- `command_exit`. -/
def commandExit (dbug : Dbug) (_arg : NgxArray) : Dbg (Int × Dbug) := do
  let _ ← ask (.kill dbug.pid SIGKILL)
  exit

/-- `command_showbps`. -/
def commandShowbps (dbug : Dbug) (_arg : NgxArray) : Dbg (Int × Dbug) := do
  printAll (dbug.bps.zipIdx.map fun (bp, i) => .bp i bp.addr)
  return (0, dbug)

/-- `argv[i] = str[i+1].data` for the next `n` values of `i`. -/
def copyArgv (arg : NgxArray) : Nat → Nat → Dbg (List (Option CStr))
  | 0, _ => return []
  | n + 1, i => do
      let p ← arg.data (i + 1)
      let ps ← copyArgv arg n (i + 1)
      return p :: ps

/-- `command_dbug`. -/
def commandDbug (dbug : Dbug) (arg : NgxArray) : Dbg (Int × Dbug) := do
  let argv ← copyArgv arg arg.nelts 0
  let (_, dbug) ← dbugPro dbug (arg.str 1) argv
  return (0, dbug)

/-- `command_attach`. -/
def commandAttach (dbug : Dbug) (arg : NgxArray) : Dbg (Int × Dbug) :=
  match arg.str 1 with
  | none => crash
  | some s => do
      let (_, dbug) ← attachPro dbug (atoi s)
      return (0, dbug)

/-- The lines `command_showreg` prints. -/
def regLines (reg : UserRegs) : List Out :=
  [.reg "r15" reg.r15, .reg "r14" reg.r14, .reg "r13" reg.r13, .reg "r12" reg.r12,
   .reg "rbp" reg.rbp, .reg "rbx" reg.rbx, .reg "r11" reg.r11, .reg "r10" reg.r10,
   .reg "r9" reg.r9, .reg "r8" reg.r8, .reg "rax" reg.rax, .reg "rcx" reg.rcx,
   .reg "rdx" reg.rdx, .reg "rsi" reg.rsi, .reg "rdi" reg.rdi, .reg "orig_rax" reg.orig_rax,
   .reg "rip" reg.rip, .reg "cs" reg.cs, .reg "eflags" reg.eflags, .reg "rsp" reg.rsp,
   .reg "ss" reg.ss, .reg "fs_base" reg.fs_base, .reg "gs_base" reg.gs_base, .reg "ds" reg.ds,
   .reg "es" reg.es, .reg "fs" reg.fs, .reg "gs" reg.gs]

/-- `command_showreg`. -/
def commandShowreg (dbug : Dbug) (_arg : NgxArray) : Dbg (Int × Dbug) := do
  let regs ← ask (.getregs dbug.pid)
  let dbug := { dbug with regs := storeRegs dbug.regs regs }
  if regs.isNone then
    ask (.print (.perror "PTRACE_GETREGS err\n"))
  printAll (regLines dbug.regs)
  return (0, dbug)

/-- `command_watch`. -/
def commandWatch (dbug : Dbug) (arg : NgxArray) : Dbg (Int × Dbug) :=
  match arg.str 1 with
  | none => crash
  | some s => do
      let bp : Breakpoint := { addr := (sscanfLx s).getD 0 }
      ask (.print (.watch bp.addr))
      let (_, bp) ← insertHardBreak dbug.pid bp
      return (0, { dbug with bps := dbug.bps ++ [bp] })

/-! ## The command loop -/

/-- A handler. -/
abbrev CommandFun := Dbug → NgxArray → Dbg (Int × Dbug)

/-- `cmd_set`. -/
def cmdSet : List (CStr × CommandFun) :=
  [(lit ['b'], commandBreak),
   (lit ['c'], commandContinue),
   (lit ['s', 'h', 'o', 'w'], commandShow),
   (lit ['d', 'b', 'u', 'g'], commandDbug),
   (lit ['a', 't', 't', 'a', 'c', 'h'], commandAttach),
   (lit ['s', 'h', 'o', 'w', 'r', 'e', 'g'], commandShowreg),
   (lit ['w', 'a', 't', 'c', 'h'], commandWatch),
   (lit ['q'], commandExit),
   (lit ['e', 'x', 'i', 't'], commandExit),
   (lit ['q', 'u', 'i', 't'], commandExit),
   (lit ['s', 'h', 'o', 'w', 'b', 'p', 's'], commandShowbps)]

/-- The loops of `get_command` over the rest of the line.  A token begins at
any character that is not a blank and ends before the next whitespace; without
one the inner loop finds nothing and the outer one takes the next character.
The first argument is the number of rounds the outer loop may still make. -/
def tokenLoop : Nat → List Byte → NgxArray → NgxArray
  | 0, _, cmds => cmds
  | _ + 1, [], cmds => cmds
  | n + 1, c :: cs, cmds =>
      if c = 32 then tokenLoop n cs cmds
      else
        match (c :: cs).findIdx? isspace with
        | some k => tokenLoop n ((c :: cs).drop (k + 1)) (cmds.push (some ((c :: cs).take k)))
        | none => tokenLoop n cs cmds

/-- What `get_command` makes of the buffer `fgets` has filled; `buf` is zeroed
before, so at the end of the input it holds the empty string. -/
def splitLine (line : Option (List Byte)) (cmds : NgxArray) : NgxArray :=
  let buf := (line.getD []).takeWhile (· ≠ 0)
  tokenLoop buf.length buf cmds.clear

/-- `get_command`. -/
def getCommand (dbug : Dbug) : Dbg Dbug := do
  ask (.print .prompt)
  let line ← ask (.fgets 50)
  return { dbug with cmd := splitLine (line.map Subtype.val) dbug.cmd }

/-- `play_command`. -/
def playCommand (dbug : Dbug) : Dbg (Int × Dbug) :=
  match cmdSet.find? (fun it => dbug.cmd.str 0 = some it.1) with
  | some it => do
      let (_, dbug) ← it.2 dbug dbug.cmd
      return (0, dbug)
  | none => do
      ask (.print (.notCommand (dbug.cmd.str 0)))
      return (-1, dbug)

/-- One round of the loop in `main`. -/
def round (dbug : Dbug) : Dbg Dbug := do
  let dbug ← getCommand dbug
  let (_, dbug) ← playCommand dbug
  return dbug

/-- The loop in `main`, cut off after some rounds. -/
def mainLoop : Nat → Dbug → Dbg Dbug
  | 0, dbug => return dbug
  | n + 1, dbug => do
      let dbug ← round dbug
      mainLoop n dbug

/-! ## The stop of `command_continue`

The search of `find_current_SF_bp`, by what it finds instead of by an index. -/

theorem triggerSF_eq_ret {dbug : Dbug} (h : firstSF dbug.bps (dbug.regs.rip - 1) = none) :
    triggerSF dbug = Prog.ret dbug := by
  rw [triggerSF, findCurrentSFBp_eq_none.mpr h]
  rfl

theorem triggerSF_eq_resume {dbug : Dbug} {bp : Breakpoint}
    (h : firstSF dbug.bps (dbug.regs.rip - 1) = some bp) :
    triggerSF dbug = (ask (.print (.trigger bp.addr bp.name)) >>= fun _ =>
      resumeINT3BpNext dbug.pid bp dbug.regs >>= fun x => Prog.ret { dbug with regs := x.2 }) := by
  cases hfind : findCurrentSFBp dbug with
  | none =>
      rw [findCurrentSFBp_eq_none, h] at hfind
      cases hfind
  | some i =>
      have hbp := findCurrentSFBp_eq_some hfind
      rw [h] at hbp
      obtain rfl := Option.some.inj hbp
      rw [triggerSF, hfind]
      rfl

theorem triggerHW_cases (dbug : Dbug) :
    triggerHW dbug = Prog.ret () ∨ ∃ a, triggerHW dbug = ask (.print (.triggerHW a)) := by
  rw [triggerHW]
  cases findCurrentHWBp dbug with
  | none => exact Or.inl rfl
  | some i => exact Or.inr ⟨_, rfl⟩

theorem wp_triggerHW {σ : Type} {K : Kernel Resp σ} {pid : Pid} (V : MemView K pid) {dbug : Dbug}
    {s : σ} {Q : Unit → σ → Prop} (h : Q () s) : wp K Free (triggerHW dbug) Q s := by
  rcases triggerHW_cases dbug with hHW | ⟨a, hHW⟩
  · rw [hHW]
    exact h
  · rw [hHW]
    exact wp_print V h

/-! ## The argument vector of `command_dbug` -/

/-- Copying the arguments only reads, whatever lies behind the array. -/
theorem wp_copyArgv {σ : Type} {K : Kernel Resp σ} {I : Req → σ → Prop}
    {s : σ} (hK : ∀ k x s', K (.beyond k) s x s' → s' = s) (hI : ∀ k, I (.beyond k) s)
    (arg : NgxArray) {n i : Nat} {Q : List (Option CStr) → σ → Prop}
    (h : ∀ argv, Q argv s) : wp K I (copyArgv arg n i) Q s := by
  induction n generalizing i Q with
  | zero => exact h []
  | succ n ih =>
      have hrest : ∀ p, wp K I (copyArgv arg n (i + 1) >>= fun ps => Prog.ret (p :: ps)) Q s :=
        fun p => wp_bind.mpr (ih fun argv => h _)
      rw [copyArgv, NgxArray.data]
      split
      · exact hrest _
      · refine ⟨hI _, ?_⟩
        intro x s' hx
        obtain rfl := hK _ _ _ hx
        exact hrest x

/-- Where memory behind the array can be read, the copy comes to an end. -/
theorem ends_copyArgv {σ : Type} {K : Kernel Resp σ} {s : σ}
    (hK : ∀ k, ∃ x, K (.beyond k) s x s) {arg : NgxArray} {n i : Nat} :
    ∃ argv, Ends K (copyArgv arg n i) s argv s := by
  induction n generalizing i with
  | zero => exact ⟨[], .refl _ _⟩
  | succ n ih =>
      obtain ⟨ps, hps⟩ := ih (i := i + 1)
      have hrest : ∀ q, Ends K (copyArgv arg n (i + 1) >>= fun ps => Prog.ret (q :: ps)) s
          (q :: ps) s := fun q => ends_bind.mpr ⟨ps, s, hps, .refl _ _⟩
      rw [copyArgv, NgxArray.data]
      split
      · exact ⟨_, hrest _⟩
      · obtain ⟨q, hq⟩ := hK (i + 1)
        exact ⟨_, .step hq (hrest q)⟩

end TestDbug
