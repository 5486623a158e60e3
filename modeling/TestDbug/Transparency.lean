/-
# `TestDbug.Transparency` — a debugged program does what it does undebugged

The kernel of this module runs one debuggee on a deterministic machine, with
`ptrace` as specified: memory by words, exact registers, `SINGLESTEP` for one
instruction, and `CONT` until an INT3 has been executed, which leaves `rip` one
past it, or until the process exits.

For a program that is `Suitable` for the breakpoint addresses, the state at
every prompt is that of the undebugged program after some number of
instructions: the same registers, and the same memory but for an INT3 at each
address of the table (`breakpoints_are_transparent`).

The invariant (`InStep`) ties the table to the memory.  Its part `saved` is
what makes a symbol broken twice harmless: the second entry saves the INT3 of
the first as the original byte, and only the search for the *first* entry
keeps it from being used.
-/
import TestDbug.Session
import TestDbug.Lib.Machine

open ByteMemory Interaction

namespace TestDbug

/-- A machine on the registers `ptrace` shows, with `rip` as its program counter. -/
structure Cpu extends Machine 64 Byte UserRegs where
  pc_eq : ∀ r, pc r = r.rip

/-! ## The kernel -/

/-- Where the debuggee stands towards its tracer. -/
inductive Phase where
  /-- Not started. -/
  | none
  /-- Stopped by its `execve`, not yet waited for. -/
  | started
  /-- Stopped and waited for. -/
  | stopped
  /-- Resumed by `PTRACE_CONT`. -/
  | running
  /-- Stopped after a single step, not yet waited for. -/
  | stepped
  /-- Ended, not yet waited for. -/
  | ended
  /-- Ended by a SIGKILL, not yet waited for. -/
  | killed
  | gone
deriving DecidableEq

structure Debuggee where
  phase : Phase
  regs : UserRegs
  mem : Mem 64 Byte

/-- Before `dbug`. -/
def noDebuggee : Debuggee := ⟨.none, {}, fun _ => 0⟩

/-- What `wait` reports of the debuggee, and the state it leaves. -/
inductive WaitStep (M : Cpu) (pid : Pid) : Debuggee → WaitEvent → Debuggee → Prop
  | exec {r : UserRegs} {m : Mem 64 Byte} :
      WaitStep M pid ⟨.started, r, m⟩ ⟨pid, .stopped .exec⟩ ⟨.stopped, r, m⟩
  | stepped {r : UserRegs} {m : Mem 64 Byte} :
      WaitStep M pid ⟨.stepped, r, m⟩ ⟨pid, .stopped .singleStep⟩ ⟨.stopped, r, m⟩
  | int3 {r r' : UserRegs} {m m' : Mem 64 Byte} :
      M.Go INT_3 (r, m) (r', m') → m' r'.rip = INT_3 →
      WaitStep M pid ⟨.running, r, m⟩ ⟨pid, .stopped (.int3 r'.rip)⟩
        ⟨.stopped, r'.withRip (r'.rip + 1), m'⟩
  | exit {r r' : UserRegs} {m m' : Mem 64 Byte} (code : Byte) :
      M.Go INT_3 (r, m) (r', m') → m' r'.rip ≠ INT_3 → M.step r' m' = none →
      WaitStep M pid ⟨.running, r, m⟩ ⟨pid, .exited code⟩ ⟨.gone, r', m'⟩
  | ended {r : UserRegs} {m : Mem 64 Byte} (code : Byte) :
      WaitStep M pid ⟨.ended, r, m⟩ ⟨pid, .exited code⟩ ⟨.gone, r, m⟩
  | killed {r : UserRegs} {m : Mem 64 Byte} :
      WaitStep M pid ⟨.killed, r, m⟩ ⟨pid, .signaled SIGKILL⟩ ⟨.gone, r, m⟩

/-- One instruction. -/
def stepOnce (M : Cpu) (s : Debuggee) : Debuggee :=
  match M.step s.regs s.mem with
  | some (r, m) => ⟨.stepped, r, m⟩
  | none => { s with phase := .ended }

/-- `ptrace` on the one debuggee `pid`, which starts in `init` and has the symbols `funs`. -/
def cpuKernel (M : Cpu) (pid : Pid) (init : UserRegs × Mem 64 Byte) (funs : Option FunArr) :
    Kernel Resp Debuggee
  | .fork, s, x, s' => s.phase = .none ∧ x = pid ∧ s' = ⟨.started, init.1, init.2⟩
  | .wait, s, x, s' => ∃ e, x = some e ∧ WaitStep M pid s e s'
  | .peektext q a, s, x, s' => q = pid ∧ s.phase = .stopped ∧ x = some (peek s.mem a) ∧ s' = s
  | .poketext q a w, s, x, s' =>
      q = pid ∧ s.phase = .stopped ∧ x = true ∧ s' = { s with mem := poke s.mem a w }
  | .getregs q, s, x, s' => q = pid ∧ s.phase = .stopped ∧ x = some s.regs ∧ s' = s
  | .setregs q regs, s, x, s' =>
      q = pid ∧ s.phase = .stopped ∧ x = true ∧ s' = { s with regs := regs }
  | .cont q data, s, x, s' =>
      q = pid ∧ data = 0 ∧ s.phase = .stopped ∧ x = true ∧ s' = { s with phase := .running }
  | .singlestep q data, s, x, s' =>
      q = pid ∧ data = 0 ∧ s.phase = .stopped ∧ x = true ∧ s' = stepOnce M s
  | .openFuns q, s, x, s' => q = pid ∧ x = funs ∧ s' = s
  | .kill q sig, s, x, s' =>
      q = pid ∧ sig = SIGKILL ∧ s.phase = .stopped ∧ x = true ∧ s' = { s with phase := .killed }
  | .beyond _, s, _, s' | .fgets _, s, _, s' | .print _, s, _, s' => s' = s
  | _, _, _, _ => False

/-! ## The law -/

/-- The addresses the `b` commands of a session resolve to. -/
def breakAddrs (funs : Option FunArr) (args : List NgxArray) : Set Word :=
  { a | ∃ arg ∈ args, arg.str 0 = some nameB ∧ ∃ i, findFunc funs (arg.str 1) = some i ∧
      a = ((funs.getD []).getD i ⟨[], 0⟩).addr }

/-- What the program must be for breakpoints at `B` to go unnoticed: it
executes no INT3 of its own, does not use the bytes at `B` as data, executes no
instruction with an address of `B` strictly inside it, and does not end in an
instruction at an address of `B`. -/
structure Suitable (M : Cpu) (init : UserRegs × Mem 64 Byte) (B : Set Word) : Prop where
  noInt3 : M.Along init fun r m => m r.rip ≠ INT_3
  undisturbed : M.Along init (M.Undisturbed B)
  goesOn : M.Along init fun r m => r.rip ∈ B → M.step r m ≠ none

/-- The addresses of the table. -/
def addrs (bps : List Breakpoint) : Set Word := { a | ∃ bp ∈ bps, bp.addr = a }

/-- The state at a prompt, for a program that began in `init`. -/
structure InStep (M : Cpu) (pid : Pid) (init : UserRegs × Mem 64 Byte) (funs : Option FunArr)
    (B : Set Word) (dbug : Dbug) (s : Debuggee) : Prop where
  pid_eq : dbug.pid = pid
  funs_eq : dbug.funs = funs
  phase : s.phase = .stopped
  soft : ∀ bp ∈ dbug.bps, bp.type = .SFBP ∧ bp.addr ∈ B
  saved : ∀ a bp, firstSF dbug.bps a = some bp → bp.origByte = init.2 a
  sim : ∃ k m, M.after k init = some (s.regs, m) ∧ Patched (addrs dbug.bps) INT_3 m s.mem

/-! ## Requests to the debuggee -/

section
variable {M : Cpu} {pid : Pid} {init : UserRegs × Mem 64 Byte} {funs : Option FunArr}
  {B : Set Word} {dbug : Dbug} {s : Debuggee}

def cpuMem (M : Cpu) (pid : Pid) (init : UserRegs × Mem 64 Byte) (funs : Option FunArr) :
    MemView (cpuKernel M pid init funs) pid where
  ok := fun s => s.phase = .stopped
  get := Debuggee.mem
  set := fun m s => { s with mem := m }
  peek_iff := by
    intro s a x s' hok
    simp only [cpuKernel, hok, true_and]
  poke_iff := by
    intro s a w x s' hok
    simp only [cpuKernel, hok, true_and]
  ok_set := id
  get_set := fun _ _ => rfl
  set_set := fun _ _ _ => rfl
  set_get := fun _ => rfl
  print_quiet := id

/-- The stop that `wait` finds after `PTRACE_CONT`. -/
theorem WaitStep.of_running {e : WaitEvent} {s s' : Debuggee} (h : WaitStep M pid s e s')
    (hs : s.phase = .running) :
    (∃ r m, M.Go INT_3 (s.regs, s.mem) (r, m) ∧ m r.rip = INT_3 ∧
      e = ⟨pid, .stopped (.int3 r.rip)⟩ ∧ s' = ⟨.stopped, r.withRip (r.rip + 1), m⟩) ∨
    ∃ code, e = ⟨pid, .exited code⟩ := by
  cases h with
  | exec => cases hs
  | stepped => cases hs
  | int3 hgo htrap => exact Or.inl ⟨_, _, hgo, htrap, rfl, rfl⟩
  | exit code => exact Or.inr ⟨code, rfl⟩
  | ended => cases hs
  | killed => cases hs

theorem wp_start {Q : Pid → Debuggee → Prop}
    (hQ : Q pid ⟨.started, init.1, init.2⟩) :
    wp (cpuKernel M pid init funs) Free (ask .fork) Q s := by
  refine ⟨trivial, ?_⟩
  rintro x s' ⟨-, rfl, rfl⟩
  exact hQ

theorem wp_cont {Q : Bool → Debuggee → Prop}
    (hQ : Q true { s with phase := .running }) :
    wp (cpuKernel M pid init funs) Free (ask (.cont pid 0)) Q s := by
  refine ⟨trivial, ?_⟩
  rintro x s' ⟨-, -, -, rfl, rfl⟩
  exact hQ

theorem wp_getregs {Q : Option UserRegs → Debuggee → Prop}
    (hQ : Q (some s.regs) s) :
    wp (cpuKernel M pid init funs) Free (ask (.getregs pid)) Q s := by
  refine ⟨trivial, ?_⟩
  rintro x s' ⟨-, -, rfl, rfl⟩
  exact hQ

theorem wp_setregs {regs : UserRegs} {Q : Bool → Debuggee → Prop}
    (hQ : Q true { s with regs := regs }) :
    wp (cpuKernel M pid init funs) Free (ask (.setregs pid regs)) Q s := by
  refine ⟨trivial, ?_⟩
  rintro x s' ⟨-, -, rfl, rfl⟩
  exact hQ

theorem wp_singlestep {Q : Bool → Debuggee → Prop}
    (hQ : Q true (stepOnce M s)) :
    wp (cpuKernel M pid init funs) Free (ask (.singlestep pid 0)) Q s := by
  refine ⟨trivial, ?_⟩
  rintro x s' ⟨-, -, -, rfl, rfl⟩
  exact hQ

theorem wp_wait_stepped {r : UserRegs} {m : Mem 64 Byte} {Q : Option WaitEvent → Debuggee → Prop}
    (hQ : Q (some ⟨pid, .stopped .singleStep⟩) ⟨.stopped, r, m⟩) :
    wp (cpuKernel M pid init funs) Free (ask .wait) Q ⟨.stepped, r, m⟩ := by
  refine ⟨trivial, ?_⟩
  rintro x s' ⟨e, rfl, h⟩
  cases h
  exact hQ

theorem wp_wait_started {r : UserRegs} {m : Mem 64 Byte} {Q : Option WaitEvent → Debuggee → Prop}
    (hQ : Q (some ⟨pid, .stopped .exec⟩) ⟨.stopped, r, m⟩) :
    wp (cpuKernel M pid init funs) Free (ask .wait) Q ⟨.started, r, m⟩ := by
  refine ⟨trivial, ?_⟩
  rintro x s' ⟨e, rfl, h⟩
  cases h
  exact hQ

/-! ## The commands keep in step -/

@[simp] theorem addrs_append (bps : List Breakpoint) (bp : Breakpoint) :
    addrs (bps ++ [bp]) = insert bp.addr (addrs bps) := by
  ext a
  simp only [addrs, List.mem_append, List.mem_singleton, Set.mem_ofPred_eq, Set.mem_insert_iff]
  constructor
  · rintro ⟨b, hb | rfl, rfl⟩
    · exact Or.inr ⟨b, hb, rfl⟩
    · exact Or.inl rfl
  · rintro (rfl | ⟨b, hb, rfl⟩)
    · exact ⟨bp, Or.inr rfl, rfl⟩
    · exact ⟨b, Or.inl hb, rfl⟩

/-- A table of software breakpoints finds an entry for every address it holds. -/
theorem firstSF_of_mem_addrs {bps : List Breakpoint} (hsoft : ∀ bp ∈ bps, bp.type = .SFBP)
    {a : Word} (ha : a ∈ addrs bps) : ∃ bp, firstSF bps a = some bp := by
  obtain ⟨bp, hbp, rfl⟩ := ha
  cases h : firstSF bps bp.addr with
  | none => exact absurd rfl (firstSF_eq_none.mp h bp hbp (hsoft bp hbp))
  | some bp' => exact ⟨bp', rfl⟩

theorem InStep.addrs_subset (h : InStep M pid init funs B dbug s) : addrs dbug.bps ⊆ B := by
  rintro a ⟨bp, hbp, rfl⟩
  exact (h.soft bp hbp).2

/-- The byte at an address that is not in the table yet is the program's own. -/
theorem InStep.mem_of_notMem (hM : Suitable M init B) (h : InStep M pid init funs B dbug s)
    {a : Word} (haB : a ∈ B) (ha : a ∉ addrs dbug.bps) : s.mem a = init.2 a := by
  obtain ⟨k, m, hk, hp⟩ := h.sim
  rw [hp.2 a ha]
  exact Machine.after_keeps hM.undisturbed hk haB

theorem inStep_break (hM : Suitable M init B) (h : InStep M pid init funs B dbug s)
    {arg : NgxArray} (hname : arg.str 0 = some nameB)
    (haddr : ∀ i, findFunc funs (arg.str 1) = some i →
      ((funs.getD []).getD i ⟨[], 0⟩).addr ∈ B) :
    wp (cpuKernel M pid init funs) Free (play arg dbug)
      (fun dbug' s' => InStep M pid init funs B dbug' s') s := by
  rw [play_break hname, wp_bind, commandBreak]
  cases hfind : findFunc dbug.funs (arg.str 1) with
  | none => exact ⟨h.pid_eq, h.funs_eq, h.phase, h.soft, h.saved, h.sim⟩
  | some i =>
      have hB := haddr i (by rw [← h.funs_eq]; exact hfind)
      rw [← h.funs_eq] at hB
      simp only [wp_bind]
      set f := (dbug.funs.getD []).getD i ⟨[], 0⟩
      rw [h.pid_eq]
      apply wp_insertINT3Bp (cpuMem M pid init funs) h.phase
      obtain ⟨k, m, hk, hp⟩ := h.sim
      refine ⟨rfl, h.funs_eq, h.phase, ?_, ?_, k, m, hk, ?_⟩
      · intro bp hbp
        rcases List.mem_append.mp hbp with hbp | hbp
        · exact h.soft bp hbp
        · rw [List.mem_singleton.mp hbp]
          exact ⟨rfl, hB⟩
      · -- the new entry is found only at an address without an older one, and
        -- there the byte it saved is the program's own
        intro a bp hbp
        rw [firstSF_append] at hbp
        cases hold : firstSF dbug.bps a with
        | some bp' =>
            rw [hold] at hbp
            obtain rfl : bp' = bp := by simpa using hbp
            exact h.saved a bp' hold
        | none =>
            rw [hold, Option.none_or] at hbp
            obtain ⟨hmem, -, rfl⟩ := firstSF_eq_some hbp
            rw [List.mem_singleton.mp hmem, Breakpoint.planted_origByte]
            refine h.mem_of_notMem hM hB ?_
            rintro ⟨b, hb, hbf⟩
            rw [List.mem_singleton.mp hmem] at hold
            exact firstSF_eq_none.mp hold b hb (h.soft b hb).1 hbf
      · rw [addrs_append]
        exact hp.plant f.addr

/-- Stepping over a breakpoint: the true byte is put back for one instruction. -/
theorem wp_resumeINT3BpNext {bp : Breakpoint} (hbp : bp.type = .SFBP) (hs : s.phase = .stopped)
    {regs r₁ : UserRegs} {m₁ : Mem 64 Byte} {Q : Int × UserRegs → Debuggee → Prop}
    (hstep : M.step (regs.withRip bp.addr) (store s.mem bp.addr [bp.origByte])
      = some (r₁, m₁))
    (hQ : Q (0, regs.withRip bp.addr) ⟨.stopped, r₁, store m₁ bp.addr [INT_3]⟩) :
    wp (cpuKernel M pid init funs) Free (resumeINT3BpNext pid bp regs) Q s := by
  simp only [resumeINT3BpNext, hbp, ne_eq, not_true_eq_false, if_false, wp_bind]
  rw [wp_writeProMem (cpuMem M pid init funs) (by simp) (by decide) hs, toBytes_take_one]
  refine wp_setregs (wp_singlestep ?_)
  have hone : stepOnce M ⟨s.phase, regs.withRip bp.addr,
      store s.mem bp.addr [bp.origByte]⟩ = ⟨.stepped, r₁, m₁⟩ := by
    simp only [stepOnce, hstep]
  change wp _ _ _ _ (stepOnce M ⟨s.phase, regs.withRip bp.addr,
    store s.mem bp.addr [bp.origByte]⟩)
  rw [hone]
  refine wp_wait_stepped ?_
  have hok : (cpuMem M pid init funs).ok ⟨.stopped, r₁, m₁⟩ := rfl
  rw [wp_writeProMem (cpuMem M pid init funs) (by simp) (by decide) hok]
  exact hQ

/-- Where the debuggee stands after `PTRACE_CONT`: on a breakpoint of the table,
one of whose INT3s it has just executed. -/
theorem InStep.stop (hM : Suitable M init B) (h : InStep M pid init funs B dbug s)
    {r : UserRegs} {m' : Mem 64 Byte} (hgo : M.Go INT_3 (s.regs, s.mem) (r, m'))
    (htrap : m' r.rip = INT_3) :
    ∃ k m, M.after k init = some (r, m) ∧ Patched (addrs dbug.bps) INT_3 m m' ∧
      r.rip ∈ addrs dbug.bps := by
  obtain ⟨k, m, hk, hp⟩ := h.sim
  obtain ⟨j, m₁, hj, hp₁⟩ := hgo.lockstep h.addrs_subset hM.undisturbed hk hp
  refine ⟨k + j, m₁, hj, hp₁, ?_⟩
  have hown : m₁ r.rip ≠ INT_3 := hM.noInt3 _ _ _ hj
  rw [← M.pc_eq] at hown htrap ⊢
  exact Machine.stands_on hp₁ hown htrap

/-- The instruction at a breakpoint of the table, with its true byte put back. -/
theorem InStep.step_over (hM : Suitable M init B) (h : InStep M pid init funs B dbug s)
    {k : Nat} {r : UserRegs} {m m' : Mem 64 Byte} (hk : M.after k init = some (r, m))
    (hp : Patched (addrs dbug.bps) INT_3 m m') (hin : r.rip ∈ addrs dbug.bps) :
    ∃ r₁ m₁ m₂, M.step r (store m' r.rip [init.2 r.rip]) = some (r₁, m₁) ∧
      M.after (k + 1) init = some (r₁, m₂) ∧
      Patched (addrs dbug.bps) INT_3 m₂ (store m₁ r.rip [INT_3]) := by
  have hB := h.addrs_subset hin
  have htrue : m r.rip = init.2 r.rip := Machine.after_keeps hM.undisturbed hk hB
  have hrest := hp.restore r.rip
  rw [htrue] at hrest
  cases hstep : M.step r m with
  | none => exact absurd hstep (hM.goesOn k r m hk hB)
  | some q =>
      obtain ⟨r₁, m₂⟩ := q
      have hpc : M.pc r ∉ addrs dbug.bps \ {r.rip} := by
        rw [M.pc_eq]
        exact fun hmem => hmem.2 rfl
      obtain ⟨m₁, hstep', hp₁⟩ := Machine.step_patched hrest
        (fun x hx => h.addrs_subset hx.1) (hM.undisturbed k r m hk) hpc hstep
      refine ⟨r₁, m₁, m₂, hstep', ?_, hp₁.replant hin⟩
      simp [Machine.after, hk, hstep]

theorem inStep_continue (hM : Suitable M init B) (h : InStep M pid init funs B dbug s)
    {arg : NgxArray} (hname : arg.str 0 = some nameC) :
    wp (cpuKernel M pid init funs) Free (play arg dbug)
      (fun dbug' s' => InStep M pid init funs B dbug' s') s := by
  rw [play_continue hname, wp_bind, commandContinue, wp_bind, h.pid_eq]
  refine wp_cont ?_
  simp only [if_true, wp_bind]
  refine ⟨trivial, ?_⟩
  rintro x s' ⟨e, rfl, hwait⟩
  rcases hwait.of_running rfl with ⟨r, m', hgo, htrap, rfl, rfl⟩ | ⟨code, rfl⟩
  · obtain ⟨k, m, hk, hp, hin⟩ := h.stop hM hgo htrap
    obtain ⟨r₁, m₁, m₂, hstep, hk', hp'⟩ := h.step_over hM hk hp hin
    simp only [wp_ret, storeStatus_some, WIFEXITED_stopped, Bool.false_eq_true, if_false, wp_bind]
    refine wp_getregs ?_
    simp only [WSTOPSIG_stopped, Stop.sig, if_true, wp_bind, storeRegs_some]
    -- the stop is looked up by `rip - 1`, the address of the INT3
    obtain ⟨bp, hbp⟩ := firstSF_of_mem_addrs (fun bp hbp => (h.soft bp hbp).1) hin
    obtain ⟨-, htype, haddr⟩ := firstSF_eq_some hbp
    have hsaved := h.saved _ _ hbp
    rw [← hsaved, ← haddr] at hstep
    rw [triggerSF_eq_resume (by simpa using hbp)]
    simp only [wp_bind]
    have hstep' : M.step ((r.withRip (r.rip + 1)).withRip bp.addr)
        (store m' bp.addr [bp.origByte]) = some (r₁, m₁) := by
      rw [UserRegs.withRip_withRip, haddr, UserRegs.withRip_self, ← haddr, hstep]
    refine wp_print (cpuMem M pid init funs) (wp_resumeINT3BpNext htype rfl hstep' ?_)
    refine wp_triggerHW (cpuMem M pid init funs) ⟨rfl, h.funs_eq, rfl, h.soft, h.saved, ?_⟩
    rw [← haddr] at hp'
    exact ⟨k + 1, m₂, hk', hp'⟩
  · simp only [wp_ret, storeStatus_some, WIFEXITED_exited, if_true, exit, wp_bind]
    exact ⟨trivial, fun x => x.elim⟩

theorem inStep_start (hpid : 0 < pid) {arg : NgxArray} (hname : arg.str 0 = some nameDbug) :
    wp (cpuKernel M pid init funs) Free (play arg initDbug)
      (fun dbug' s' => InStep M pid init funs B dbug' s') noDebuggee := by
  have hne : pid ≠ 0 := Int.ne_of_gt hpid
  have hpos : ¬ pid < 0 := Int.not_lt.mpr (Int.le_of_lt hpid)
  rw [play_dbug hname, wp_bind, commandDbug, wp_bind]
  refine wp_copyArgv (fun k x s' h => h) (fun _ => trivial) arg fun argv => ?_
  rw [wp_bind, dbugPro, wp_bind]
  refine wp_start ?_
  simp only [if_neg hne, if_neg hpos, wp_bind]
  refine wp_wait_started ?_
  simp only [storeStatus_some, WIFEXITED_stopped, Bool.false_eq_true, if_false, wp_bind]
  refine ⟨trivial, ?_⟩
  rintro x s' ⟨-, rfl, rfl⟩
  refine ⟨rfl, rfl, rfl, ?_, ?_, 0, init.2, rfl, ?_⟩
  · exact fun bp hbp => absurd hbp List.not_mem_nil
  · intro a bp hbp
    cases hbp
  · have hempty : addrs ([] : List Breakpoint) = ∅ := by
      ext a
      simp [addrs]
    show Patched (addrs []) INT_3 init.2 init.2
    rw [hempty, patched_empty]

/-- **Software breakpoints are transparent.**  One `dbug`, then any `b` and `c`
commands: at the prompt the debuggee has the registers and, but for an INT3 at
each address of the table, the memory of the undebugged program after `k`
instructions. -/
theorem breakpoints_are_transparent (M : Cpu) {pid : Pid} (hpid : 0 < pid)
    (init : UserRegs × Mem 64 Byte) (funs : Option FunArr) {start : NgxArray}
    (hstart : start.str 0 = some nameDbug) {args : List NgxArray}
    (hargs : ∀ arg ∈ args, Named [nameB, nameC] arg)
    (hM : Suitable M init (breakAddrs funs args)) {dbug : Dbug} {s : Debuggee}
    (hrun : Runs (cpuKernel M pid init funs) play Always initDbug noDebuggee (start :: args) dbug s) :
    ∃ k m, M.after k init = some (s.regs, m) ∧ Patched (addrs dbug.bps) INT_3 m s.mem := by
  obtain _ | ⟨_, hstart', hrest⟩ := hrun
  have hinit := (inStep_start (B := breakAddrs funs args) hpid hstart).ends hstart'
  have hguard := hrest.guarded (P := fun arg => arg ∈ args) fun arg harg => harg
  refine (hguard.invariant (InStep M pid init funs (breakAddrs funs args))
    (I := fun _ => Free) ?_ hinit).sim
  rintro arg dbug s ⟨harg, -⟩ h
  obtain ⟨n, hn, hname⟩ := hargs arg harg
  simp only [List.mem_cons, List.not_mem_nil, or_false] at hn
  rcases hn with rfl | rfl
  · exact inStep_break hM h hname fun i hi => ⟨arg, harg, hname, i, hi, rfl⟩
  · exact inStep_continue hM h hname

end

/-! ## Running it

`cpuHandler` runs the debuggee, with a bound on the instructions between two
stops.  The program of the example is a field of `nop`s. -/

/-- The answers of `cpuKernel` on a debuggee that goes on from stop to stop. -/
def cpuHandler (M : Cpu) (pid : Pid) (init : UserRegs × Mem 64 Byte) (funs : Option FunArr)
    (fuel : Nat) : Handler Resp Debuggee
  | .fork, s => if s.phase = .none then some (pid, ⟨.started, init.1, init.2⟩) else none
  | .wait, s =>
      match s.phase with
      | .started => some (some ⟨pid, .stopped .exec⟩, ⟨.stopped, s.regs, s.mem⟩)
      | .stepped => some (some ⟨pid, .stopped .singleStep⟩, ⟨.stopped, s.regs, s.mem⟩)
      | .running =>
          (M.runUntil INT_3 fuel (s.regs, s.mem)).map fun q =>
            (some ⟨pid, .stopped (.int3 q.1.rip)⟩, ⟨.stopped, q.1.withRip (q.1.rip + 1), q.2⟩)
      | _ => none
  | .peektext q a, s =>
      if q = pid ∧ s.phase = .stopped then some (some (peek s.mem a), s) else none
  | .poketext q a w, s =>
      if q = pid ∧ s.phase = .stopped then some (true, { s with mem := poke s.mem a w }) else none
  | .getregs q, s => if q = pid ∧ s.phase = .stopped then some (some s.regs, s) else none
  | .setregs q regs, s =>
      if q = pid ∧ s.phase = .stopped then some (true, { s with regs := regs }) else none
  | .cont q data, s =>
      if q = pid ∧ data = 0 ∧ s.phase = .stopped then some (true, { s with phase := .running })
      else none
  | .singlestep q data, s =>
      if q = pid ∧ data = 0 ∧ s.phase = .stopped then some (true, stepOnce M s) else none
  | .openFuns q, s => if q = pid then some (funs, s) else none
  | .print _, s => some ((), s)
  | _, _ => none

theorem cpuHandler_wait {M : Cpu} {pid : Pid} {init : UserRegs × Mem 64 Byte}
    {funs : Option FunArr} {fuel : Nat} {s s' : Debuggee} {x : Option WaitEvent}
    (h : cpuHandler M pid init funs fuel .wait s = some (x, s')) :
    ∃ e, x = some e ∧ WaitStep M pid s e s' := by
  obtain ⟨phase, r, m⟩ := s
  cases phase with
  | started =>
      obtain ⟨rfl, rfl⟩ : _ = x ∧ _ = s' := by simpa [cpuHandler] using h
      exact ⟨_, rfl, .exec⟩
  | stepped =>
      obtain ⟨rfl, rfl⟩ : _ = x ∧ _ = s' := by simpa [cpuHandler] using h
      exact ⟨_, rfl, .stepped⟩
  | running =>
      simp only [cpuHandler, Option.map_eq_some_iff] at h
      obtain ⟨⟨r', m'⟩, hrun, hxs⟩ := h
      obtain ⟨rfl, rfl⟩ := Prod.mk.inj hxs
      obtain ⟨hgo, htrap⟩ := Machine.go_of_runUntil hrun
      rw [M.pc_eq] at htrap
      exact ⟨_, rfl, .int3 hgo htrap⟩
  | none => cases h
  | stopped => cases h
  | ended => cases h
  | killed => cases h
  | gone => cases h

theorem cpuHandler_kernel {M : Cpu} {pid : Pid} {init : UserRegs × Mem 64 Byte}
    {funs : Option FunArr} {fuel : Nat} (r : Req) (s : Debuggee) (x : Resp r) (s' : Debuggee)
    (h : cpuHandler M pid init funs fuel r s = some (x, s')) :
    cpuKernel M pid init funs r s x s' := by
  cases r with
  | wait => exact cpuHandler_wait h
  | _ =>
      simp only [cpuHandler, cpuKernel, Option.ite_none_right_eq_some, Option.some.injEq,
        Prod.mk.injEq, reduceCtorEq] at h ⊢
      try grind

/-- One byte per instruction, and nothing but the next one. -/
def nopCpu : Cpu where
  pc := fun r => r.rip
  len := fun _ _ => 1
  reads := fun _ _ => ∅
  writes := fun _ _ => ∅
  step := fun r m => some (r.withRip (r.rip + 1), m)
  footprint := fun _ _ _ _ _ => ⟨rfl, fun _ hx => absurd hx (Set.notMem_empty _), fun _ _ => rfl⟩
  pc_eq := fun _ => rfl

def nopInit : UserRegs × Mem 64 Byte := (({} : UserRegs).withRip 0x1000, fun _ => 0x90)

def nopFuns : Option FunArr := some [⟨lit ['f'], 0x1002⟩, ⟨lit ['g'], 0x1003⟩]

theorem nopCpu_suitable (B : Set Word) : Suitable nopCpu nopInit B := by
  have hund : nopCpu.Along nopInit (nopCpu.Undisturbed Set.univ) := by
    intro k r m _
    refine ⟨fun i hpos hlt => ?_, fun x hx => absurd hx (Set.notMem_empty x),
      fun x hx => absurd hx (Set.notMem_empty x)⟩
    have : i < 1 := hlt
    omega
  constructor
  · intro k r m hk
    have hkeep : m r.rip = nopInit.2 r.rip := Machine.after_keeps hund hk (Set.mem_univ r.rip)
    rw [hkeep]
    show (0x90 : Byte) ≠ INT_3
    decide
  · exact fun k r m hk => ⟨fun i hpos hlt => absurd hlt (Nat.not_lt.mpr hpos),
      fun x hx => absurd hx (Set.notMem_empty x), fun x hx => absurd hx (Set.notMem_empty x)⟩
  · intro k r m _ _ hnone
    cases hnone

/-- `f` broken twice and its neighbour `g` once; then both stops in turn. -/
def nopArgs : List NgxArray :=
  [typed ['b', ' ', 'f', '\n'], typed ['b', ' ', 'f', '\n'], typed ['b', ' ', 'g', '\n'],
   typed ['c', '\n'], typed ['c', '\n']]

theorem breakpoints_are_transparent_nops :
    ∃ (dbug : Dbug) (s : Debuggee), dbug.bps.length = 3 ∧ s.regs.rip = 0x1004 ∧
      ∃ k m, nopCpu.after k nopInit = some (s.regs, m) ∧
        Patched (addrs dbug.bps) INT_3 m s.mem := by
  have heval : (eval (cpuHandler nopCpu 7 nopInit nopFuns 10)
      (runAll play (typed ['d', 'b', 'u', 'g', ' ', 'p', '\n'] :: nopArgs) initDbug)
      noDebuggee).map (fun q => (q.1.bps.length, q.2.regs.rip)) = some (3, 0x1004) := by
    decide +kernel
  have hargs : ∀ arg ∈ nopArgs, Named [nameB, nameC] arg := by
    simp only [nopArgs, List.forall_mem_cons, List.not_mem_nil, false_implies, implies_true,
      and_true]
    exact ⟨⟨nameB, by decide, by decide⟩, ⟨nameB, by decide, by decide⟩,
      ⟨nameB, by decide, by decide⟩, ⟨nameC, by decide, by decide⟩, ⟨nameC, by decide, by decide⟩⟩
  obtain ⟨⟨dbug, s⟩, hrun, hq⟩ := Option.map_eq_some_iff.mp heval
  obtain ⟨hlen, hrip⟩ := Prod.mk.inj hq
  have hruns := runs_iff_ends.mpr (eval_ends cpuHandler_kernel hrun)
  exact ⟨dbug, s, hlen, hrip, breakpoints_are_transparent nopCpu (by decide) nopInit nopFuns
    (by decide) hargs (nopCpu_suitable _) hruns⟩

end TestDbug
