/-
# `TestDbug.Ptrace` — what the debugger asks of the system

The debugger is a program over the requests below: the `ptrace` calls it makes,
the process calls, its input and its output.  An answer carries what the C
call returns; where the call can fail, it also carries whether it did, which
the program sees only as far as the C code looks at it.

A change of state of a child (`Change`) is reported to `wait` as a status
word, and the status word is all the debugger ever reads of it.  Why the child
stopped (`Stop`) is kept beside it, so that properties can be stated about the
real event.
-/
import TestDbug.Lib.Interaction
import TestDbug.Lib.ByteMemory

open ByteMemory Interaction

namespace TestDbug

/-- `pid_t`. -/
abbrev Pid := Int

/-- The characters of a C string, without the closing NUL. -/
abbrev CStr := List Byte

/-- A literal of the source, as bytes. -/
def lit (cs : List Char) : CStr := cs.map (fun c => BitVec.ofNat 8 c.toNat)

/-- `struct user_regs_struct`. -/
structure UserRegs where
  r15 : Word := 0
  r14 : Word := 0
  r13 : Word := 0
  r12 : Word := 0
  rbp : Word := 0
  rbx : Word := 0
  r11 : Word := 0
  r10 : Word := 0
  r9 : Word := 0
  r8 : Word := 0
  rax : Word := 0
  rcx : Word := 0
  rdx : Word := 0
  rsi : Word := 0
  rdi : Word := 0
  orig_rax : Word := 0
  rip : Word := 0
  cs : Word := 0
  eflags : Word := 0
  rsp : Word := 0
  ss : Word := 0
  fs_base : Word := 0
  gs_base : Word := 0
  ds : Word := 0
  es : Word := 0
  fs : Word := 0
  gs : Word := 0

/-- `regs->rip = rip`. -/
def UserRegs.withRip (regs : UserRegs) (rip : Word) : UserRegs := { regs with rip := rip }

@[simp] theorem UserRegs.withRip_rip (regs : UserRegs) (rip : Word) :
    (regs.withRip rip).rip = rip := rfl

@[simp] theorem UserRegs.withRip_withRip (regs : UserRegs) (a b : Word) :
    (regs.withRip a).withRip b = regs.withRip b := rfl

@[simp] theorem UserRegs.withRip_self (regs : UserRegs) : regs.withRip regs.rip = regs := rfl

/-! ## Signals and wait statuses -/

/-- A signal number. -/
structure Signal where
  num : Nat
  pos : 0 < num
  le : num ≤ 64
deriving DecidableEq

def SIGTRAP : Signal := ⟨5, by decide, by decide⟩
def SIGKILL : Signal := ⟨9, by decide, by decide⟩
def SIGSTOP : Signal := ⟨19, by decide, by decide⟩

/-- Why a traced process stopped. -/
inductive Stop where
  /-- It executed an INT3 at this address. -/
  | int3 (addr : Word)
  /-- A debug register holds this address; the instruction there has not run. -/
  | debugReg (addr : Word)
  /-- The instruction of a `PTRACE_SINGLESTEP` has run. -/
  | singleStep
  /-- `execve` of a process that asked to be traced. -/
  | exec
  /-- `PTRACE_ATTACH`. -/
  | attach
  /-- A signal is about to be delivered. -/
  | signal (s : Signal)
deriving DecidableEq

/-- The signal the stop shows. -/
def Stop.sig : Stop → Signal
  | int3 _ | debugReg _ | singleStep | exec => SIGTRAP
  | attach => SIGSTOP
  | signal s => s

/-- A change of state of a child. -/
inductive Change where
  | exited (code : Byte)
  | signaled (s : Signal)
  | stopped (why : Stop)
deriving DecidableEq

/-- The process is gone. -/
def Change.isEnd : Change → Bool
  | exited _ | signaled _ => true
  | stopped _ => false

/-- The status word `wait` stores. -/
def Change.status : Change → Nat
  | exited code => code.toNat * 256
  | signaled s => s.num
  | stopped why => why.sig.num * 256 + 0x7f

/-- `WIFEXITED`. -/
def WIFEXITED (status : Nat) : Bool := status % 128 == 0

/-- `WSTOPSIG`. -/
def WSTOPSIG (status : Nat) : Nat := status / 256 % 256

@[simp] theorem WIFEXITED_exited (code : Byte) : WIFEXITED (Change.exited code).status = true := by
  simp [WIFEXITED, Change.status]
  omega

@[simp] theorem WIFEXITED_signaled (s : Signal) :
    WIFEXITED (Change.signaled s).status = false := by
  have := s.pos
  have := s.le
  simp only [WIFEXITED, Change.status, beq_eq_false_iff_ne]
  omega

@[simp] theorem WIFEXITED_stopped (why : Stop) :
    WIFEXITED (Change.stopped why).status = false := by
  simp only [WIFEXITED, Change.status, beq_eq_false_iff_ne]
  omega

@[simp] theorem WSTOPSIG_stopped (why : Stop) :
    WSTOPSIG (Change.stopped why).status = why.sig.num := by
  have := why.sig.le
  simp only [WSTOPSIG, Change.status]
  omega

@[simp] theorem WSTOPSIG_signaled (s : Signal) : WSTOPSIG (Change.signaled s).status = 0 := by
  have := s.le
  simp only [WSTOPSIG, Change.status]
  omega

/-- `WIFEXITED` holds of normal exits only. -/
theorem WIFEXITED_status {c : Change} :
    WIFEXITED c.status = true ↔ ∃ code, c = .exited code := by
  cases c with
  | exited code => simp
  | signaled s => simp
  | stopped why => simp

theorem Signal.eq_of_num {s t : Signal} (h : s.num = t.num) : s = t := by
  cases s
  cases t
  cases h
  rfl

/-- What one `wait` reports. -/
structure WaitEvent where
  pid : Pid
  change : Change
deriving DecidableEq

/-! ## Function symbols

`open_funs` reads `/proc/pid/maps`, `/proc/pid/exe` and the executable; here it
is one request, answered by the table it builds. -/

/-- `struct func_org`. -/
structure FuncOrg where
  name : CStr
  addr : Word
deriving DecidableEq

/-- The entries of a `struct fun_arr`. -/
abbrev FunArr := List FuncOrg

/-! ## Requests -/

/-- For the numerals of the eight debug registers. -/
instance neZero_debugRegs : NeZero 8 := ⟨by decide⟩

/-- What the debugger prints. -/
inductive Out where
  | prompt
  | perror (text : String)
  | breakAt (addr : Word) (name : Option CStr)
  | trigger (addr : Word) (name : Option CStr)
  | triggerHW (addr : Word)
  | watch (addr : Word)
  | func (i : Nat) (name : CStr) (addr : Word)
  | bp (i : Nat) (addr : Word)
  | reg (name : String) (value : Word)
  | notCommand (data : Option CStr)

inductive Req where
  | peektext (pid : Pid) (addr : Word)
  | poketext (pid : Pid) (addr data : Word)
  /-- `PTRACE_POKEUSER` at `DR_OFFSET(num)`. -/
  | pokeuser (pid : Pid) (num : Fin 8) (data : Word)
  | getregs (pid : Pid)
  | setregs (pid : Pid) (regs : UserRegs)
  | cont (pid : Pid) (data : Nat)
  | singlestep (pid : Pid) (data : Nat)
  | attach (pid : Pid)
  | traceme
  | fork
  | execvp (path : Option CStr) (argv : List (Option CStr))
  | wait
  | waitpid (pid : Pid)
  | kill (pid : Pid) (sig : Signal)
  | exit (code : Nat)
  | openFuns (pid : Pid)
  /-- A read of the slot `k` behind the end of the command array. -/
  | beyond (k : Nat)
  /-- A read through a NULL pointer. -/
  | segv
  | fgets (size : Nat)
  | print (o : Out)

/-- The answers.  `fork` answers with what it returns; `execvp` answers only when it fails. -/
@[reducible] def Resp : Req → Type
  | .peektext _ _ => Option Word
  | .poketext _ _ _ | .pokeuser _ _ _ | .setregs _ _ => Bool
  | .cont _ _ | .singlestep _ _ | .attach _ | .traceme | .kill _ _ => Bool
  | .getregs _ => Option UserRegs
  | .fork => Pid
  | .execvp _ _ | .print _ => Unit
  | .wait | .waitpid _ => Option WaitEvent
  | .exit _ | .segv => Empty
  | .openFuns _ => Option FunArr
  | .beyond _ => Option CStr
  | .fgets size => Option { line : List Byte // line.length < size }

/-- A piece of the debugger. -/
abbrev Dbg (α : Type) := Prog Req Resp α

/-- Ask the system. -/
abbrev ask (r : Req) : Dbg (Resp r) := Prog.req r

/-- What `ptrace(PTRACE_PEEKTEXT, ..)` returns: -1 when it fails. -/
def peekResult : Option Word → Word
  | some w => w
  | none => BitVec.allOnes 64

/-- `dbug->status` after a `wait` that was to store there: a failed one stores nothing. -/
def storeStatus (old : Nat) : Option WaitEvent → Nat
  | some e => e.change.status
  | none => old

/-- `dbug->regs` after a `PTRACE_GETREGS`: a failed one stores nothing. -/
def storeRegs (old : UserRegs) : Option UserRegs → UserRegs
  | some regs => regs
  | none => old

@[simp] theorem storeStatus_some (old : Nat) (e : WaitEvent) :
    storeStatus old (some e) = e.change.status := rfl

@[simp] theorem storeStatus_none (old : Nat) : storeStatus old none = old := rfl

@[simp] theorem storeRegs_some (old regs : UserRegs) : storeRegs old (some regs) = regs := rfl

@[simp] theorem storeRegs_none (old : UserRegs) : storeRegs old none = old := rfl

end TestDbug
