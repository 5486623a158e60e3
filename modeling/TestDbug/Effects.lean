/-
# `TestDbug.Effects` — what the commands ask for, and what they change

One lemma a function, for every answer of the system: which requests it can
issue, and in which fields the debugger it returns differs from the one it was
given.  What a kernel does with the requests is left to the modules that have
one; `Interaction.Emits.wp` carries these lemmas there.

`play_cases` is the command table read backwards: every array is played by one
of nine handlers, or by none.  `wp_dbugPro` and `wp_attachPro` are the two rules
for kernels on which only the debugger's own part of a start matters.
-/
import TestDbug.Session

open ByteMemory Interaction

namespace TestDbug

/-! ## Requests -/

/-- It reports a breakpoint, as `command_continue` alone does. -/
def isTrigger : Out → Bool
  | .trigger _ _ | .triggerHW _ => true
  | _ => false

/-- What reading and writing the memory of `pid` asks for. -/
inductive MemReq (pid : Pid) : Req → Prop
  | peektext (addr : Word) : MemReq pid (.peektext pid addr)
  | poketext (addr data : Word) : MemReq pid (.poketext pid addr data)
  | print (o : Out) (h : isTrigger o = false) : MemReq pid (.print o)

/-- What `command_continue` on `pid` asks for. -/
inductive ContReq (pid : Pid) : Req → Prop
  | mem {r : Req} : MemReq pid r → ContReq pid r
  | print (o : Out) : ContReq pid (.print o)
  | cont : ContReq pid (.cont pid 0)
  | singlestep : ContReq pid (.singlestep pid 0)
  | getregs : ContReq pid (.getregs pid)
  | setregs (regs : UserRegs) : ContReq pid (.setregs pid regs)
  | wait : ContReq pid .wait
  | exit : ContReq pid (.exit 0)

/-- What `command_watch` on `pid` asks for. -/
inductive WatchReq (pid : Pid) : Req → Prop
  | pokeuser (num : Fin 8) (data : Word) : WatchReq pid (.pokeuser pid num data)
  | print (o : Out) (h : isTrigger o = false) : WatchReq pid (.print o)
  | segv : WatchReq pid .segv

/-- What a command asks for that leaves the debuggee alone. -/
inductive OutReq : Req → Prop
  | print (o : Out) (h : isTrigger o = false) : OutReq (.print o)
  | segv : OutReq .segv

/-- What the commands ask for that neither resume the debuggee nor get a new one. -/
inductive PlainReq (pid : Pid) : Req → Prop
  | mem {r : Req} : MemReq pid r → PlainReq pid r
  | watch {r : Req} : WatchReq pid r → PlainReq pid r
  | out {r : Req} : OutReq r → PlainReq pid r
  | getregs : PlainReq pid (.getregs pid)
  | kill : PlainReq pid (.kill pid SIGKILL)
  | exit : PlainReq pid (.exit 0)

/-- What starting a process and attaching to one ask for. -/
inductive StartReq : Req → Prop
  | fork : StartReq .fork
  | traceme : StartReq .traceme
  | execvp (path : Option CStr) (argv : List (Option CStr)) : StartReq (.execvp path argv)
  | attach (pid : Pid) : StartReq (.attach pid)
  | wait : StartReq .wait
  | waitpid (pid : Pid) : StartReq (.waitpid pid)
  | openFuns (pid : Pid) : StartReq (.openFuns pid)
  | print (o : Out) (h : isTrigger o = false) : StartReq (.print o)
  | beyond (k : Nat) : StartReq (.beyond k)
  | segv : StartReq .segv

/-- What `dbug_pro` asks for without a child of its own. -/
inductive ChildReq : Req → Prop
  | traceme : ChildReq .traceme
  | execvp (path : Option CStr) (argv : List (Option CStr)) : ChildReq (.execvp path argv)
  | print (o : Out) (h : isTrigger o = false) : ChildReq (.print o)

/-! ## Memory -/

section
variable {pid : Pid} {addr : Word} {str : List Byte} {len : Nat}

theorem emits_readLoop {n i : Nat} :
    Emits (MemReq pid) (fun _ => True) (readLoop pid addr len n i str) := by
  induction n generalizing i str with
  | zero =>
      rw [readLoop]
      by_cases hrem : len % WORD ≠ 0
      · simp only [hrem, if_true, ne_eq, not_false_eq_true]
        refine .ask (.peektext _) fun x => ?_
        rw [if_neg (not_data_lt_zero _)]
        trivial
      · simp only [hrem, if_false]
        trivial
  | succ n ih =>
      rw [readLoop]
      refine .ask (.peektext _) fun x => ?_
      rw [if_neg (not_data_lt_zero _)]
      exact ih

theorem emits_readProMem :
    Emits (MemReq pid) (fun _ => True) (readProMem pid addr str len) :=
  emits_readLoop

theorem emits_pokeWord {w : Word} {p : Dbg Int} (hp : Emits (MemReq pid) (fun _ => True) p) :
    Emits (MemReq pid) (fun _ => True)
      (ask (.poketext pid addr w) >>= fun ok =>
        if ok then p else ask (.print (.perror "write mem err")) >>= fun _ => Prog.ret (-1)) := by
  refine .ask (.poketext _ _) fun ok => ?_
  cases ok with
  | true => exact hp
  | false => exact .ask (.print _ rfl) fun _ => trivial

theorem emits_writeLoop {n i : Nat} :
    Emits (MemReq pid) (fun _ => True) (writeLoop pid addr str len n i) := by
  induction n generalizing i with
  | zero =>
      rw [writeLoop]
      by_cases hrem : len % WORD ≠ 0
      · simp only [hrem, if_true, ne_eq, not_false_eq_true]
        refine .ask (.peektext _) fun x => ?_
        rw [if_neg (not_data_lt_zero _)]
        exact emits_pokeWord trivial
      · simp only [hrem, if_false]
        trivial
  | succ n ih =>
      rw [writeLoop]
      exact emits_pokeWord ih

theorem emits_writeProMem :
    Emits (MemReq pid) (fun _ => True) (writeProMem pid addr str len) :=
  emits_writeLoop

end

/-! ## `dbug.c` -/

section
variable {pid : Pid} {bp : Breakpoint} {regs : UserRegs} {dbug : Dbug} {status : Nat}

theorem emits_insertINT3Bp :
    Emits (MemReq pid) (fun x => x.2.type = .SFBP ∧ x.2.addr = bp.addr) (insertINT3Bp pid bp) := by
  rw [insertINT3Bp]
  refine emits_readProMem.seq fun code _ => ?_
  refine emits_writeProMem.seq fun _ _ => ?_
  exact .ask (.print _ rfl) fun _ => ⟨rfl, rfl⟩

/-- A failure that is only reported. -/
theorem emits_warn {α : Type} {P : Req → Prop} {V : α → Prop} {o : Out} {ok : Bool} {p : Dbg α}
    (ho : P (.print o)) (hp : Emits P V p) :
    Emits P V (if ok then p else ask (.print o) >>= fun _ => p) := by
  cases ok with
  | true => exact hp
  | false => exact .ask ho fun _ => hp

theorem wp_warn {α σ : Type} {K : Kernel Resp σ} {I : Req → σ → Prop} {Q : α → σ → Prop} {s : σ}
    {o : Out} {ok : Bool} {p : Dbg α} (hK : ∀ x s', K (.print o) s x s' → s' = s)
    (ho : I (.print o) s) (hp : wp K I p Q s) :
    wp K I (if ok then p else ask (.print o) >>= fun _ => p) Q s := by
  cases ok with
  | true => exact hp
  | false =>
      refine wp_ask ho fun x s' hx => ?_
      rw [hK x s' hx]
      exact hp

theorem emits_insertHardBreak :
    Emits (WatchReq pid) (fun x => x.2.type = .HWBP ∧ x.2.addr = bp.addr)
      (insertHardBreak pid bp) := by
  rw [insertHardBreak]
  refine .ask (.pokeuser _ _) fun ok => emits_warn (.print _ rfl) ?_
  exact .ask (.pokeuser _ _) fun ok => emits_warn (.print _ rfl) ⟨rfl, rfl⟩

theorem emits_resumeINT3BpNext :
    Emits (ContReq pid) (fun _ => True) (resumeINT3BpNext pid bp regs) := by
  have hwrite : ∀ {a : Word} {str : List Byte},
      Emits (ContReq pid) (fun _ => True) (writeProMem pid a str 1) :=
    emits_writeProMem.mono (fun _ => .mem) (fun _ h => h)
  rw [resumeINT3BpNext]
  split
  · trivial
  · refine hwrite.seq fun _ _ => ?_
    refine .ask (.setregs _) fun _ => .ask .singlestep fun _ => .ask .wait fun _ => ?_
    exact hwrite.seq fun _ _ => trivial

/-- The last steps of `dbug_pro` and `attach_pro`, once the wait has stored `status`. -/
def install (dbug : Dbug) (pid : Pid) (status : Nat) : Dbg (Int × Dbug) :=
  if WIFEXITED status then Prog.ret (-1, { dbug with status := status })
  else ask (.openFuns pid) >>= fun funs =>
    Prog.ret (0, { dbug with status := status, pid := pid, funs := funs })

theorem emits_install {P : Req → Prop} (hP : P (.openFuns pid)) :
    Emits P (fun x => x.2.bps = dbug.bps ∧ x.2.cmd = dbug.cmd) (install dbug pid status) := by
  rw [install]
  split
  · exact ⟨rfl, rfl⟩
  · exact .ask hP fun _ => ⟨rfl, rfl⟩

/-- `dbug_pro` keeps the table and the arguments. -/
theorem emits_dbugPro {path : Option CStr} {argv : List (Option CStr)} :
    Emits StartReq (fun x => x.2.bps = dbug.bps ∧ x.2.cmd = dbug.cmd) (dbugPro dbug path argv) := by
  rw [dbugPro]
  refine .ask .fork fun pid => ?_
  split
  · refine .ask .traceme fun ok => ?_
    cases ok with
    | true =>
        exact .ask (.execvp _ _) fun _ => .ask (.print _ rfl) fun _ => ⟨rfl, rfl⟩
    | false => exact .ask (.print _ rfl) fun _ => ⟨rfl, rfl⟩
  · split
    · exact .ask (.print _ rfl) fun _ => ⟨rfl, rfl⟩
    · exact .ask .wait fun ev => emits_install (.openFuns _)

theorem emits_attachPro :
    Emits StartReq (fun x => x.2.bps = dbug.bps ∧ x.2.cmd = dbug.cmd) (attachPro dbug pid) := by
  rw [attachPro]
  refine .ask (.attach _) fun ok => ?_
  cases ok with
  | true =>
      refine .ask (.waitpid _) fun ev => ?_
      dsimp only
      cases ev with
      | none => exact .ask (.print _ rfl) fun _ => emits_install (.openFuns _)
      | some e => exact emits_install (.openFuns _)
  | false => exact .ask (.print _ rfl) fun _ => ⟨rfl, rfl⟩

end

/-! ### Starting and attaching on a kernel

For the kernels on which what the child does, and what is printed, changes
nothing. -/

section
variable {σ : Type} {K : Kernel Resp σ} {I : Req → σ → Prop} {s : σ} {dbug : Dbug} {pid : Pid}
  {Q : Int × Dbug → σ → Prop}

/-- `dbug_pro`: the child and a failed `fork` come back empty-handed, and the
debugger with a child waits and installs it. -/
theorem wp_dbugPro {path : Option CStr} {argv : List (Option CStr)}
    (hK : ∀ r s x s', ChildReq r → K r s x s' → s' = s) (hfork : I .fork s)
    (hchild : ∀ p s', K .fork s p s' → p ≤ 0 → (∀ r, ChildReq r → I r s') ∧ Q (-1, dbug) s')
    (hparent : ∀ p s', K .fork s p s' → 0 < p → I .wait s' ∧
      ∀ ev s'', K .wait s' ev s'' → wp K I (install dbug p (storeStatus dbug.status ev)) Q s'') :
    wp K I (dbugPro dbug path argv) Q s := by
  have hquiet : ∀ (q : Dbg (Int × Dbug)) s', Emits ChildReq (fun x => x = (-1, dbug)) q →
      (∀ r, ChildReq r → I r s') ∧ Q (-1, dbug) s' → wp K I q Q s' := by
    rintro q s' hq ⟨hI, hQ⟩
    refine wp_mono ?_ (hq.wp (J := fun s => s = s') ?_ ?_ rfl)
    · rintro x _ ⟨rfl, rfl⟩
      exact hQ
    · rintro r _ hr rfl
      exact hI r hr
    · rintro r s₁ x s₂ hr rfl hx
      exact hK r _ x _ hr hx
  rw [dbugPro]
  refine wp_ask hfork fun p s' hp => ?_
  split
  · rename_i hzero
    refine hquiet _ s' (.ask .traceme fun ok => ?_) (hchild p s' hp (Int.le_of_eq hzero))
    cases ok with
    | true => exact .ask (.execvp _ _) fun _ => .ask (.print _ rfl) fun _ => rfl
    | false => exact .ask (.print _ rfl) fun _ => rfl
  · rename_i hzero
    split
    · rename_i hneg
      exact hquiet _ s' (.ask (.print _ rfl) fun _ => rfl) (hchild p s' hp (Int.le_of_lt hneg))
    · rename_i hneg
      obtain ⟨hI, hwait⟩ := hparent p s' hp (lt_of_le_of_ne (Int.not_lt.mp hneg) (Ne.symm hzero))
      exact wp_ask hI hwait

/-- `attach_pro`: the process is installed if it can be attached to. -/
theorem wp_attachPro (hK : ∀ o s x s', K (.print o) s x s' → s' = s) (hattach : I (.attach pid) s)
    (hno : ∀ s', K (.attach pid) s false s' →
      (∀ o, isTrigger o = false → I (.print o) s') ∧ Q (-1, dbug) s')
    (hyes : ∀ s', K (.attach pid) s true s' → I (.waitpid pid) s' ∧
      ∀ ev s'', K (.waitpid pid) s' ev s'' → (∀ o, isTrigger o = false → I (.print o) s'') ∧
        wp K I (install dbug pid (storeStatus dbug.status ev)) Q s'') :
    wp K I (attachPro dbug pid) Q s := by
  rw [attachPro]
  refine wp_ask hattach fun ok s' hok => ?_
  cases ok with
  | true =>
      obtain ⟨hI, hwait⟩ := hyes s' hok
      refine wp_ask hI fun ev s'' hev => ?_
      obtain ⟨hprint, hinstall⟩ := hwait ev s'' hev
      cases ev with
      | some e => exact hinstall
      | none =>
          refine wp_ask (hprint _ rfl) fun x s₃ hx => ?_
          rw [hK _ _ _ _ hx]
          exact hinstall
  | false =>
      obtain ⟨hprint, hQ⟩ := hno s' hok
      refine wp_ask (hprint _ rfl) fun x s₃ hx => ?_
      rw [hK _ _ _ _ hx]
      exact hQ

end

/-! ## `command.c` -/

section
variable {dbug : Dbug} {arg : NgxArray}

theorem emits_printAll {os : List Out} (hos : ∀ o ∈ os, isTrigger o = false) :
    Emits OutReq (fun _ => True) (printAll os) := by
  induction os with
  | nil => trivial
  | cons o os ih =>
      exact .ask (.print o (hos o List.mem_cons_self)) fun _ =>
        ih fun o' ho' => hos o' (List.mem_cons_of_mem o ho')

theorem emits_copyArgv {n i : Nat} :
    Emits StartReq (fun _ => True) (copyArgv arg n i) := by
  induction n generalizing i with
  | zero => trivial
  | succ n ih =>
      have hrest : ∀ p, Emits StartReq (fun _ => True)
          (copyArgv arg n (i + 1) >>= fun ps => Prog.ret (p :: ps)) :=
        fun p => ih.seq fun _ _ => trivial
      rw [copyArgv, NgxArray.data]
      split
      · exact hrest _
      · exact .ask (.beyond _) fun p => hrest p

/-- `command_break` appends one software breakpoint, or does nothing. -/
theorem emits_break :
    Emits (MemReq dbug.pid) (fun x => x.2 = dbug ∨
      ∃ bp : Breakpoint, bp.type = .SFBP ∧ x.2 = { dbug with bps := dbug.bps ++ [bp] })
      (commandBreak dbug arg) := by
  rw [commandBreak]
  cases findFunc dbug.funs (arg.str 1) with
  | none => exact Or.inl rfl
  | some index => exact emits_insertINT3Bp.seq fun x hx => Or.inr ⟨x.2, hx.1, rfl⟩

/-- `command_watch` appends one hardware breakpoint. -/
theorem emits_watch :
    Emits (WatchReq dbug.pid) (fun x => ∃ s bp, arg.str 1 = some s ∧ bp.type = .HWBP ∧
      bp.addr = (sscanfLx s).getD 0 ∧ x.2 = { dbug with bps := dbug.bps ++ [bp] })
      (commandWatch dbug arg) := by
  rw [commandWatch]
  cases h : arg.str 1 with
  | none => exact .ask .segv fun x => x.elim
  | some s =>
      refine .ask (.print _ rfl) fun _ => ?_
      exact emits_insertHardBreak.seq fun x hx => ⟨s, x.2, rfl, hx.1, hx.2, rfl⟩

theorem emits_triggerSF :
    Emits (ContReq dbug.pid) (fun d => ∃ regs, d = { dbug with regs := regs }) (triggerSF dbug) := by
  rw [triggerSF]
  split
  · exact ⟨dbug.regs, rfl⟩
  · refine .ask (.print _) fun _ => ?_
    exact emits_resumeINT3BpNext.seq fun x _ => ⟨x.2, rfl⟩

theorem emits_triggerHW {pid : Pid} :
    Emits (ContReq pid) (fun _ => True) (triggerHW dbug) := by
  rw [triggerHW]
  split
  · trivial
  · exact ⟨.print _, fun _ => trivial⟩

theorem emits_stop (dbug : Dbug) :
    Emits (ContReq dbug.pid) (fun x => ∃ regs, x.2 = { dbug with regs := regs })
      (triggerSF dbug >>= fun d => triggerHW d >>= fun _ => Prog.ret ((0 : Int), d)) := by
  refine emits_triggerSF.seq ?_
  rintro d ⟨regs, rfl⟩
  exact emits_triggerHW.seq fun _ _ => ⟨regs, rfl⟩

/-- `command_continue` changes the status and the registers. -/
theorem emits_continue :
    Emits (ContReq dbug.pid)
      (fun x => ∃ status regs, x.2 = { dbug with status := status, regs := regs })
      (commandContinue dbug arg) := by
  rw [commandContinue]
  refine .ask .cont fun ok => emits_warn (.mem (.print _ rfl)) ?_
  refine .ask .wait fun ev => ?_
  dsimp only
  split
  · exact .ask .exit fun x => x.elim
  · refine .ask .getregs fun regs => ?_
    split
    · refine (emits_stop { dbug with
        status := storeStatus dbug.status ev, regs := storeRegs dbug.regs regs }).mono
          (fun _ hr => hr) ?_
      rintro x ⟨regs', hx⟩
      exact ⟨_, regs', hx⟩
    · exact ⟨_, _, rfl⟩

theorem emits_show : Emits OutReq (fun x => x.2 = dbug) (commandShow dbug arg) := by
  rw [commandShow]
  refine (emits_printAll ?_).seq fun _ _ => rfl
  simp only [List.forall_mem_map]
  exact fun _ _ => rfl

theorem emits_showbps : Emits OutReq (fun x => x.2 = dbug) (commandShowbps dbug arg) := by
  rw [commandShowbps]
  refine (emits_printAll ?_).seq fun _ _ => rfl
  simp only [List.forall_mem_map]
  exact fun _ _ => rfl

theorem regLines_not_trigger (reg : UserRegs) : ∀ o ∈ regLines reg, isTrigger o = false := by
  simp [regLines, isTrigger]

/-- `command_showreg` changes the registers. -/
theorem emits_showreg :
    Emits (fun r => OutReq r ∨ r = .getregs dbug.pid)
      (fun x => ∃ regs, x.2 = { dbug with regs := regs }) (commandShowreg dbug arg) := by
  rw [commandShowreg]
  refine .ask (Or.inr rfl) fun regs => ?_
  have hlines : ∀ {reg : UserRegs},
      Emits (fun r => OutReq r ∨ r = .getregs dbug.pid) (fun _ => True) (printAll (regLines reg)) :=
    fun {reg} => (emits_printAll (regLines_not_trigger reg)).mono (fun _ => Or.inl) fun _ h => h
  cases regs with
  | none => exact .ask (Or.inl (.print _ rfl)) fun _ => hlines.seq fun _ _ => ⟨_, rfl⟩
  | some regs => exact hlines.seq fun _ _ => ⟨_, rfl⟩

theorem emits_exit {V : Int × Dbug → Prop} :
    Emits (fun r => r = .kill dbug.pid SIGKILL ∨ r = .exit 0) V (commandExit dbug arg) := by
  rw [commandExit]
  exact .ask (Or.inl rfl) fun _ => .ask (Or.inr rfl) fun x => x.elim

theorem emits_dbug :
    Emits StartReq (fun x => x.2.bps = dbug.bps ∧ x.2.cmd = dbug.cmd) (commandDbug dbug arg) := by
  rw [commandDbug]
  refine emits_copyArgv.seq fun argv _ => ?_
  exact emits_dbugPro.seq fun _ hx => hx

theorem emits_attach :
    Emits StartReq (fun x => x.2.bps = dbug.bps ∧ x.2.cmd = dbug.cmd) (commandAttach dbug arg) := by
  rw [commandAttach]
  split
  · exact .ask .segv fun x => x.elim
  · exact emits_attachPro.seq fun _ hx => hx

end

/-! ## The command table -/

/-- What is true of every handler of the table, and of the answer to a word
that is none of them, is true of every array. -/
theorem play_cases {motive : Dbg Dbug → Prop} {arg : NgxArray} {dbug : Dbug}
    (hnone : motive (ask (.print (.notCommand (arg.str 0))) >>= fun _ =>
      Prog.ret { dbug with cmd := arg }))
    (hcmd : ∀ it ∈ cmdSet, arg.str 0 = some it.1 →
      motive (it.2 { dbug with cmd := arg } arg >>= fun x => Prog.ret x.2)) :
    motive (play arg dbug) := by
  cases hfind : cmdSet.find? (fun it => arg.str 0 = some it.1) with
  | none =>
      rw [play_of_none hfind]
      exact hnone
  | some it =>
      rw [play_of_find it hfind]
      refine hcmd it (List.mem_of_find?_eq_some hfind) ?_
      simpa using List.find?_some hfind

/-- Neither `c`, nor `dbug`, nor `attach`. -/
def Plain (arg : NgxArray) : Prop := ¬ Named [nameC, nameDbug, nameAttach] arg

theorem plain_or_named (arg : NgxArray) :
    Plain arg ∨ arg.str 0 = some nameC ∨ arg.str 0 = some nameDbug ∨ arg.str 0 = some nameAttach := by
  by_cases h : Named [nameC, nameDbug, nameAttach] arg
  · right
    simpa [Named] using h
  · exact Or.inl h

/-- A plain command keeps the debuggee. -/
theorem emits_plain {arg : NgxArray} {dbug : Dbug} (h : Plain arg) :
    Emits (PlainReq dbug.pid) (fun d => d.pid = dbug.pid ∧ d.funs = dbug.funs) (play arg dbug) := by
  have hnamed : ∀ n ∈ [nameC, nameDbug, nameAttach], arg.str 0 ≠ some n :=
    fun n hn hname => h ⟨n, hn, hname⟩
  simp only [List.forall_mem_cons, List.not_mem_nil, false_implies, implies_true, and_true]
    at hnamed
  obtain ⟨hc, hdbug, hattach⟩ := hnamed
  refine play_cases (.ask (.mem (.print _ rfl)) fun _ => ⟨rfl, rfl⟩) ?_
  simp only [cmdSet, List.forall_mem_cons, List.not_mem_nil, false_implies, implies_true, and_true]
  generalize hd : { dbug with cmd := arg } = d
  have hpid : dbug.pid = d.pid := by rw [← hd]
  have hfuns : dbug.funs = d.funs := by rw [← hd]
  rw [hpid, hfuns]
  have hexit : Emits (PlainReq d.pid) (fun d' => d'.pid = d.pid ∧ d'.funs = d.funs)
      (commandExit d arg >>= fun x => Prog.ret x.2) := by
    refine (emits_exit.mono ?_ fun _ h => h).seq fun _ h => h
    rintro r (rfl | rfl)
    · exact .kill
    · exact .exit
  refine ⟨fun _ => ?_, fun hn => absurd hn hc, fun _ => ?_, fun hn => absurd hn hdbug,
    fun hn => absurd hn hattach, fun _ => ?_, fun _ => ?_, fun _ => hexit, fun _ => hexit,
    fun _ => hexit, fun _ => ?_⟩
  · refine (emits_break.mono (fun _ => .mem) fun _ h => h).seq ?_
    rintro ⟨r, d⟩ (rfl | ⟨bp, -, rfl⟩)
    · exact ⟨rfl, rfl⟩
    · exact ⟨rfl, rfl⟩
  · refine (emits_show.mono (fun _ => .out) fun _ h => h).seq ?_
    rintro ⟨r, d⟩ rfl
    exact ⟨rfl, rfl⟩
  · refine (emits_showreg.mono ?_ fun _ h => h).seq ?_
    · rintro r (hr | rfl)
      · exact .out hr
      · exact .getregs
    · rintro ⟨r, d⟩ ⟨regs, rfl⟩
      exact ⟨rfl, rfl⟩
  · refine (emits_watch.mono (fun _ => .watch) fun _ h => h).seq ?_
    rintro ⟨r, d⟩ ⟨text, bp, -, -, -, rfl⟩
    exact ⟨rfl, rfl⟩
  · refine (emits_showbps.mono (fun _ => .out) fun _ h => h).seq ?_
    rintro ⟨r, d⟩ rfl
    exact ⟨rfl, rfl⟩

end TestDbug
