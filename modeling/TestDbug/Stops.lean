/-
# `TestDbug.Stops` — every visit to a breakpoint is reported, once

That a debugged program does what it does undebugged leaves open what its user
sees: a debugger that never stopped would be as transparent.  Here the reports
of `command_continue` are kept, and compared with a debugger that works on the
undebugged program and has a table of functions and nothing else (`Story`):

    b name      the first function of that name goes into the table
    c           the program runs up to its next visit to an address of the
                table, and one instruction further; the visit is reported
    others      nothing

Its runs are the sessions of the debugger, and the reports are its visits, in
their order, each with the name that was set first (`every_visit_once`).  The
two directions say different things: no report without a visit, and no visit
without a report.
-/
import TestDbug.Overlaid
import TestDbug.Effects

open ByteMemory Interaction

namespace TestDbug

/-! ## A debugger of the undebugged program -/

/-- The reports of a session. -/
def reports : Req → List Out
  | .print o => if isTrigger o then [o] else []
  | _ => []

/-- What `command_continue` prints of a visit to `f`. -/
def FuncOrg.report (f : FuncOrg) : Out := .trigger f.addr (some f.name)

/-- The addresses of a table. -/
def places (t : List FuncOrg) : Set Word := { a | ∃ f ∈ t, f.addr = a }

/-- The first function of a table at an address. -/
def functionAt (t : List FuncOrg) (a : Word) : Option FuncOrg := t.find? fun f => f.addr = a

/-- A command that neither resumes the debuggee, nor ends it, nor changes the
table: `show`, `showreg`, `showbps`, and whatever is no command. -/
def Bystander (arg : NgxArray) : Prop :=
  ¬ Named [nameB, nameC, nameDbug, nameAttach, nameWatch, lit ['q'], lit ['e', 'x', 'i', 't'],
    lit ['q', 'u', 'i', 't']] arg

/-- `Story M funs t q args hits t' q'`: with the table `t` and the undebugged
program at `q`, the commands `args` report the visits `hits`, and leave `t'` and
`q'`. -/
inductive Story (M : Cpu) (funs : Option FunArr) :
    List FuncOrg → UserRegs × Mem 64 Byte → List NgxArray → List FuncOrg →
      List FuncOrg → UserRegs × Mem 64 Byte → Prop
  | done (t : List FuncOrg) (q : UserRegs × Mem 64 Byte) : Story M funs t q [] [] t q
  | other {t t' hits : List FuncOrg} {q q' : UserRegs × Mem 64 Byte} {arg : NgxArray}
      {args : List NgxArray} :
      Bystander arg → Story M funs t q args hits t' q' → Story M funs t q (arg :: args) hits t' q'
  | unknown {t t' hits : List FuncOrg} {q q' : UserRegs × Mem 64 Byte} {arg : NgxArray}
      {args : List NgxArray} :
      arg.str 0 = some nameB → findFunc funs (arg.str 1) = none →
      Story M funs t q args hits t' q' → Story M funs t q (arg :: args) hits t' q'
  | set {t t' hits : List FuncOrg} {q q' : UserRegs × Mem 64 Byte} {arg : NgxArray}
      {args : List NgxArray} {i : Nat} :
      arg.str 0 = some nameB → findFunc funs (arg.str 1) = some i →
      Story M funs (t ++ [(funs.getD []).getD i ⟨[], 0⟩]) q args hits t' q' →
      Story M funs t q (arg :: args) hits t' q'
  | hit {t t' hits : List FuncOrg} {q q₁ q' : UserRegs × Mem 64 Byte} {arg : NgxArray}
      {args : List NgxArray} {r : UserRegs} {m : Mem 64 Byte} {f : FuncOrg} :
      arg.str 0 = some nameC → M.Tour (places t) q [] (r, m) → functionAt t r.rip = some f →
      M.step r m = some q₁ → Story M funs t q₁ args hits t' q' →
      Story M funs t q (arg :: args) (f :: hits) t' q'

/-! ## The table -/

/-- The entries of `dbug->bps` are software breakpoints on the functions of `t`. -/
def Tabled (bps : List Breakpoint) (t : List FuncOrg) : Prop :=
  List.Forall₂ (fun bp f => bp.type = .SFBP ∧ bp.name = some f.name ∧ bp.addr = f.addr) bps t

section
variable {bps : List Breakpoint} {t : List FuncOrg}

theorem Tabled.addrs (h : Tabled bps t) : addrs bps = places t := by
  induction h with
  | nil => simp [TestDbug.addrs, places]
  | @cons bp f bps t hbp _ ih =>
      have hcons : ∀ a, a ∈ places (f :: t) ↔ f.addr = a ∨ a ∈ places t := by
        simp [places]
      ext a
      rw [hcons, ← ih]
      simp [TestDbug.addrs, hbp.2.2]

theorem Tabled.append (h : Tabled bps t) {bp : Breakpoint} {f : FuncOrg}
    (hbp : bp.type = .SFBP ∧ bp.name = some f.name ∧ bp.addr = f.addr) :
    Tabled (bps ++ [bp]) (t ++ [f]) :=
  List.rel_append h (.cons hbp .nil)

@[simp] theorem places_append (t : List FuncOrg) (f : FuncOrg) :
    places (t ++ [f]) = insert f.addr (places t) := by
  ext a
  simp [places, or_comm, eq_comm]

/-- The entry found for a stop is on the first function at the address. -/
theorem Tabled.firstSF (h : Tabled bps t) {a : Word} {f : FuncOrg} (hf : functionAt t a = some f) :
    ∃ bp, firstSF bps a = some bp ∧ bp.type = .SFBP ∧ bp.name = some f.name ∧ bp.addr = f.addr := by
  induction h with
  | nil => cases hf
  | @cons bp f' bps t hbp _ ih =>
      by_cases ha : f'.addr = a
      · obtain rfl : f' = f := by simpa [functionAt, ha] using hf
        refine ⟨bp, ?_, hbp⟩
        simp [TestDbug.firstSF, hbp, ha]
      · have hf' : functionAt t a = some f := by simpa [functionAt, ha] using hf
        obtain ⟨bp', hfirst, hbp'⟩ := ih hf'
        refine ⟨bp', ?_, hbp'⟩
        rw [← hfirst]
        simp [TestDbug.firstSF, hbp, ha]

theorem functionAt_addr {a : Word} {f : FuncOrg} (h : functionAt t a = some f) : f.addr = a := by
  simpa using List.find?_some h

theorem functionAt_of_mem {a : Word} (h : a ∈ places t) : ∃ f, functionAt t a = some f := by
  obtain ⟨f, hf, rfl⟩ := h
  exact Option.isSome_iff_exists.mp (List.find?_isSome.mpr ⟨f, hf, by simp⟩)

theorem mem_places_of_functionAt {a : Word} {f : FuncOrg} (h : functionAt t a = some f) :
    a ∈ places t :=
  ⟨f, List.mem_of_find?_eq_some h, functionAt_addr h⟩

end

/-! ## The state at a prompt -/

/-- The debugger `dbug` and its debuggee `s` are where the story has the table
`t` and the program at `q`. -/
structure Follows (M : Cpu) (pid : Pid) (init : UserRegs × Mem 64 Byte) (funs : Option FunArr)
    (B : Set Word) (dbug : Dbug) (s : Debuggee) (t : List FuncOrg)
    (q : UserRegs × Mem 64 Byte) : Prop where
  inStep : InStep M pid init funs B dbug s
  tabled : Tabled dbug.bps t
  state : s = planted .stopped (places t) q
  reached : ∃ k, M.after k init = some q

section
variable {M : Cpu} {pid : Pid} {init q q' : UserRegs × Mem 64 Byte} {funs : Option FunArr}
  {B : Set Word} {dbug dbug' : Dbug} {s s' : Debuggee} {t t' : List FuncOrg} {arg : NgxArray}
  {args : List NgxArray} {l l' : List Out}

/-- The kernel, with the reports. -/
abbrev watched (M : Cpu) (pid : Pid) (init : UserRegs × Mem 64 Byte) (funs : Option FunArr) :
    Kernel Resp (Debuggee × List Out) :=
  recorded reports (cpuKernel M pid init funs)

theorem Follows.subset (h : Follows M pid init funs B dbug s t q) : places t ⊆ B := by
  rw [← h.tabled.addrs]
  exact h.inStep.addrs_subset

theorem Follows.suitable (hM : Suitable M init B) (h : Follows M pid init funs B dbug s t q) :
    Suitable M q (places t) := by
  obtain ⟨k, hk⟩ := h.reached
  exact (hM.after hk).mono h.subset

/-- The byte an entry has saved is the one the program has there now. -/
theorem Follows.saved (hM : Suitable M init B) (h : Follows M pid init funs B dbug s t q)
    {k : Nat} {r : UserRegs} {m : Mem 64 Byte} (hk : M.after k init = some (r, m))
    {bp : Breakpoint} (hbp : firstSF dbug.bps bp.addr = some bp) : bp.origByte = m bp.addr := by
  obtain ⟨hmem, htype, -⟩ := firstSF_eq_some hbp
  have hB : bp.addr ∈ B := (h.inStep.soft bp hmem).2
  rw [h.inStep.saved _ _ hbp]
  exact (Machine.after_keeps hM.undisturbed hk hB).symm

/-! ## Requests without a report -/

/-- It reports no breakpoint. -/
abbrev Unreported (r : Req) : Prop := reports r = []

theorem MemReq.unreported {r : Req} (h : MemReq pid r) : Unreported r := by
  cases h with
  | peektext | poketext => rfl
  | print o ho => simp [Unreported, reports, ho]

theorem StartReq.unreported {r : Req} (h : StartReq r) : Unreported r := by
  cases h with
  | print o ho => simp [Unreported, reports, ho]
  | _ => rfl

theorem quiet_resumeINT3BpNext {bp : Breakpoint} {regs : UserRegs} :
    Emits Unreported (fun _ => True) (resumeINT3BpNext pid bp regs) := by
  have hwrite : ∀ {a : Word} {str : List Byte},
      Emits Unreported (fun _ => True) (writeProMem pid a str 1) :=
    emits_writeProMem.mono (fun _ => MemReq.unreported) (fun _ h => h)
  rw [resumeINT3BpNext]
  split
  · trivial
  · refine hwrite.seq fun _ _ => ?_
    refine .ask rfl fun _ => .ask rfl fun _ => .ask rfl fun _ => ?_
    exact hwrite.seq fun _ _ => trivial

/-- A print that is no report has no effect at all. -/
theorem watched_print {o : Out} (ho : isTrigger o = false) {x : Unit} {w : Debuggee × List Out} :
    watched M pid init funs (.print o) (s, l) x w ↔ x = () ∧ w = (s, l) := by
  have hl : l ++ reports (.print o) = l := by simp [reports, ho]
  rw [watched, recorded_sure fun _ _ => cpu_print, hl]

/-! ## Commands with one outcome -/

section
variable {σ : Type} {K : Kernel Resp σ} {w w₁ w' : σ}

theorem wp_printAll {os : List Out}
    (hprint : ∀ o ∈ os, ∀ x w', K (.print o) w x w' ↔ x = () ∧ w' = w) {Q : Unit → σ → Prop} :
    wp K Free (printAll os) Q w ↔ Q () w := by
  induction os with
  | nil => exact Iff.rfl
  | cons o os ih =>
      rw [printAll, wp_bind, wp_sure (hprint o List.mem_cons_self)]
      exact ih fun o' ho' => hprint o' (List.mem_cons_of_mem o ho')

/-- A bystander changes `cmd` and `regs`. -/
theorem wp_bystander {regs : UserRegs}
    (hprint : ∀ o, isTrigger o = false → ∀ x w', K (.print o) w x w' ↔ x = () ∧ w' = w)
    (hregs : ∀ x w', K (.getregs dbug.pid) w x w' ↔ x = some regs ∧ w' = w)
    (hb : Bystander arg) :
    ∃ regs, ∀ Q : Dbug → σ → Prop, wp K Free (play arg dbug) Q w ↔
      Q { dbug with cmd := arg, regs := regs } w := by
  have hnamed : ∀ n ∈ [nameB, nameC, nameDbug, nameAttach, nameWatch, lit ['q'],
      lit ['e', 'x', 'i', 't'], lit ['q', 'u', 'i', 't']], arg.str 0 ≠ some n :=
    fun n hn hname => hb ⟨n, hn, hname⟩
  simp only [List.forall_mem_cons, List.not_mem_nil, false_implies, implies_true, and_true]
    at hnamed
  obtain ⟨hnb, hnc, hnd, hna, hnw, hnq, hne, hnquit⟩ := hnamed
  refine play_cases (motive := fun p => ∃ regs, ∀ Q : Dbug → σ → Prop, wp K Free p Q w ↔
    Q { dbug with cmd := arg, regs := regs } w) ?_ ?_
  · refine ⟨dbug.regs, fun Q => ?_⟩
    rw [wp_bind, wp_sure (hprint _ rfl)]
    exact Iff.rfl
  · simp only [cmdSet, List.forall_mem_cons, List.not_mem_nil, false_implies, implies_true,
      and_true]
    refine ⟨fun hn => absurd hn hnb, fun hn => absurd hn hnc, fun _ => ⟨dbug.regs, fun Q => ?_⟩,
      fun hn => absurd hn hnd, fun hn => absurd hn hna, fun _ => ⟨regs, fun Q => ?_⟩,
      fun hn => absurd hn hnw, fun hn => absurd hn hnq, fun hn => absurd hn hne,
      fun hn => absurd hn hnquit, fun _ => ⟨dbug.regs, fun Q => ?_⟩⟩
    · have hos : ∀ o ∈ (dbug.funs.getD []).zipIdx.map
          (fun x => Out.func x.2 x.1.name x.1.addr), isTrigger o = false := by
        simp only [List.forall_mem_map]
        exact fun _ _ => rfl
      rw [wp_bind, commandShow, wp_bind]
      exact wp_printAll fun o ho => hprint o (hos o ho)
    · rw [wp_bind, commandShowreg, wp_bind, wp_sure hregs]
      simp only [storeRegs_some, Option.isNone_some, Bool.false_eq_true, if_false, wp_bind]
      exact wp_printAll fun o ho => hprint o (regLines_not_trigger regs o ho)
    · have hos : ∀ o ∈ dbug.bps.zipIdx.map (fun x => Out.bp x.2 x.1.addr),
          isTrigger o = false := by
        simp only [List.forall_mem_map]
        exact fun _ _ => rfl
      rw [wp_bind, commandShowbps, wp_bind]
      exact wp_printAll fun o ho => hprint o (hos o ho)

/-- A `b` of a name that is not in the function table. -/
theorem wp_unknown (hname : arg.str 0 = some nameB)
    (hfind : findFunc dbug.funs (arg.str 1) = none) {Q : Dbug → σ → Prop} :
    wp K Free (play arg dbug) Q w ↔ Q { dbug with cmd := arg } w := by
  rw [play_break hname, wp_bind, commandBreak]
  simp only [hfind]
  exact Iff.rfl

/-- A command with one outcome is one step of a session. -/
theorem runs_cons_sure {d₁ : Dbug}
    (honly : ∀ Q, wp K Free (play arg dbug) Q w ↔ Q d₁ w₁) :
    Runs K play Always dbug w (arg :: args) dbug' w' ↔ Runs K play Always d₁ w₁ args dbug' w' := by
  constructor
  · intro h
    cases h with
    | cons _ he hr =>
        obtain ⟨rfl, rfl⟩ := (ends_iff_of_wp honly).mp he
        exact hr
  · intro h
    exact .cons trivial ((ends_iff_of_wp honly).mpr ⟨rfl, rfl⟩) h

end

/-! ## Commands that report nothing -/

/-- The debugger after a command that has changed nothing but `cmd` and `regs`. -/
theorem Follows.kept (h : Follows M pid init funs B dbug s t q) {regs : UserRegs} :
    Follows M pid init funs B { dbug with cmd := arg, regs := regs } s t q :=
  ⟨⟨h.inStep.pid_eq, h.inStep.funs_eq, h.inStep.phase, h.inStep.soft, h.inStep.saved,
    h.inStep.sim⟩, h.tabled, h.state, h.reached⟩

theorem Follows.other (h : Follows M pid init funs B dbug s t q) (hb : Bystander arg) :
    ∃ regs, ∀ Q, wp (watched M pid init funs) Free (play arg dbug) Q (s, l) ↔
      Q { dbug with cmd := arg, regs := regs } (s, l) := by
  have hregs : ∀ x w, watched M pid init funs (.getregs dbug.pid) (s, l) x w ↔
      x = some q.1 ∧ w = (s, l) := by
    intro x w
    rw [h.state, h.inStep.pid_eq, watched, recorded_sure fun _ _ => cpu_getregs]
    simp [reports]
  exact wp_bystander (fun o ho _ _ => watched_print ho) hregs hb

/-! ## `b` -/

/-- `insert_INT3_bp` in a debuggee with INT3s. -/
theorem wp_insertINT3Bp_planted {S : Set Word} {bp : Breakpoint}
    {Q : Int × Breakpoint → Debuggee → Prop} :
    wp (cpuKernel M pid init funs) Free (insertINT3Bp pid bp) Q (planted .stopped S q) ↔
      Q (0, bp.planted (overlay S INT_3 q.2 bp.addr)) (planted .stopped (insert bp.addr S) q) := by
  simp only [insertINT3Bp, wp_bind]
  rw [wp_readProMem (cpuMem M pid init funs) cpu_stopped (by simp)]
  dsimp only
  rw [wp_putIn, wp_sure fun _ _ => cpu_print]
  exact Iff.rfl

theorem Follows.set (hM : Suitable M init B) (h : Follows M pid init funs B dbug s t q)
    (hname : arg.str 0 = some nameB) {i : Nat} (hfind : findFunc funs (arg.str 1) = some i)
    (hB : ((funs.getD []).getD i ⟨[], 0⟩).addr ∈ B) :
    ∃ dbug₁ s₁, (∀ Q, wp (watched M pid init funs) Free (play arg dbug) Q (s, l) ↔
        Q dbug₁ (s₁, l)) ∧
      Follows M pid init funs B dbug₁ s₁ (t ++ [(funs.getD []).getD i ⟨[], 0⟩]) q := by
  obtain rfl := h.inStep.pid_eq
  obtain rfl := h.inStep.funs_eq
  set f := (dbug.funs.getD []).getD i ⟨[], 0⟩ with hf
  set bp : Breakpoint := { name := some f.name, addr := f.addr }
  set dbug₁ : Dbug := { dbug with
    cmd := arg, bps := dbug.bps ++ [bp.planted (overlay (places t) INT_3 q.2 f.addr)] }
  set s₁ := planted .stopped (insert f.addr (places t)) q
  have honly : ∀ Q, wp (watched M dbug.pid init dbug.funs) Free (play arg dbug) Q (s, l) ↔
      Q dbug₁ (s₁, l) := by
    intro Q
    rw [play_break hname, wp_bind, commandBreak]
    simp only [hfind, ← hf]
    rw [wp_bind, h.state, wp_quiet (emits_insertINT3Bp.mono (fun _ => MemReq.unreported)
      fun _ h => h), wp_insertINT3Bp_planted]
    exact Iff.rfl
  refine ⟨dbug₁, s₁, honly, ?_, h.tabled.append ⟨rfl, rfl, rfl⟩, ?_, h.reached⟩
  · -- the invariant of the whole session is kept
    have hends := (ends_iff_of_wp honly).mpr ⟨rfl, rfl⟩
    have hB' : ∀ j, findFunc dbug.funs (arg.str 1) = some j →
        ((dbug.funs.getD []).getD j ⟨[], 0⟩).addr ∈ B := by
      intro j hj
      obtain rfl := Option.some.inj (hfind.symm.trans hj)
      exact hB
    exact (inStep_break hM h.inStep hname hB').ends (ends_forget hends)
  · rw [places_append]

/-! ## `c` -/

/-- A table of software breakpoints has no hardware breakpoint to report. -/
theorem triggerHW_soft {d : Dbug} (hsoft : ∀ bp ∈ d.bps, bp.type = .SFBP) :
    triggerHW d = Prog.ret () := by
  have hnone : findCurrentHWBp d = none := by
    rw [findCurrentHWBp_eq_none]
    intro bp hbp htype
    rw [hsoft bp hbp] at htype
    cases htype
  rw [triggerHW, hnone]
  rfl

/-- Behind its `GETREGS`, `command_continue` reports the visit and steps over it. -/
theorem Follows.wp_stop (hM : Suitable M init B) (h : Follows M pid init funs B dbug s t q)
    {r : UserRegs} {m : Mem 64 Byte} {q₁ : UserRegs × Mem 64 Byte} {f : FuncOrg} {status : Nat}
    (htour : M.Tour (places t) q [] (r, m)) (hf : functionAt t r.rip = some f)
    (hstep : M.step r m = some q₁) {Q : Int × Dbug → Debuggee × List Out → Prop} :
    wp (watched M pid init funs) Free
        (triggerSF { dbug with cmd := arg, status := status, regs := r.withRip (r.rip + 1) } >>=
          fun d => triggerHW d >>= fun _ => Prog.ret ((0 : Int), d)) Q
        (planted .stopped (places t) (r.withRip (r.rip + 1), m), l) ↔
      Q (0, { dbug with cmd := arg, status := status, regs := r })
        (planted .stopped (places t) q₁, l ++ [f.report]) := by
  obtain ⟨bp, hbp, htype, hbpname, hbpaddr⟩ := h.tabled.firstSF hf
  have haddr : bp.addr = r.rip := by rw [hbpaddr, functionAt_addr hf]
  have hin : r.rip ∈ places t := mem_places_of_functionAt hf
  have hS : Suitable M (r, m) (places t) := (h.suitable hM).tour htour
  have hsaved : bp.origByte = m r.rip := by
    obtain ⟨k, hk⟩ := h.reached
    obtain ⟨j, hj⟩ := htour.after
    rw [← haddr]
    refine h.saved hM (Machine.after_add hk hj) ?_
    rw [haddr]
    exact hbp
  have hreport : reports (.print (.trigger bp.addr bp.name)) = [f.report] := by
    rw [hbpaddr, hbpname]
    rfl
  have hHW : triggerHW { dbug with cmd := arg, status := status, regs := r } = Prog.ret () :=
    triggerHW_soft fun bp hbp => (h.inStep.soft bp hbp).1
  obtain rfl := h.inStep.pid_eq
  obtain ⟨name, type, a, code⟩ := bp
  obtain rfl : type = .SFBP := htype
  obtain rfl : a = r.rip := haddr
  rw [triggerSF_eq_resume (by simpa using hbp)]
  simp only [wp_bind]
  rw [wp_sure fun _ _ => recorded_sure fun _ _ => cpu_print, hreport,
    wp_quiet quiet_resumeINT3BpNext]
  simp only [resumeINT3BpNext, ne_eq, not_true_eq_false, if_false, wp_bind]
  rw [wp_takeOut (by rw [toBytes_take_one]; exact congrArg (fun b => [b]) hsaved),
    wp_sure fun _ _ => cpu_setregs]
  simp only [UserRegs.withRip_withRip, UserRegs.withRip_self]
  rw [wp_sure fun _ _ => cpu_singlestep hS hstep, wp_sure fun _ _ => cpu_wait_stepped, wp_putIn,
    Set.insert_sdiff_singleton, Set.insert_eq_of_mem hin]
  simp only [Prog.pure_eq, wp_ret, hHW]

/-- `command_continue` behind its `wait`. -/
def onEvent (dbug : Dbug) (ev : Option WaitEvent) : Dbg (Int × Dbug) :=
  if WIFEXITED (storeStatus dbug.status ev) then exit
  else ask (.getregs dbug.pid) >>= fun regs =>
    if WSTOPSIG (storeStatus dbug.status ev) = SIGTRAP.num then
      triggerSF { dbug with
        status := storeStatus dbug.status ev, regs := storeRegs dbug.regs regs } >>= fun d =>
        triggerHW d >>= fun _ => Prog.ret (0, d)
    else Prog.ret (0, { dbug with
      status := storeStatus dbug.status ev, regs := storeRegs dbug.regs regs })

theorem commandContinue_eq (dbug : Dbug) (arg : NgxArray) :
    commandContinue dbug arg = ask (.cont dbug.pid 0) >>= fun ok =>
      if ok then ask .wait >>= onEvent dbug
      else ask (.print (.perror "ptrace cont err")) >>= fun _ => ask .wait >>= onEvent dbug := rfl

/-- The stop at a visit, up to the prompt. -/
theorem Follows.ends_visit (hM : Suitable M init B) (h : Follows M pid init funs B dbug s t q)
    {r : UserRegs} {m : Mem 64 Byte} {q₁ : UserRegs × Mem 64 Byte} {f : FuncOrg}
    (htour : M.Tour (places t) q [] (r, m)) (hf : functionAt t r.rip = some f)
    (hstep : M.step r m = some q₁) {x : Int × Dbug} {w : Debuggee × List Out} :
    Ends (watched M pid init funs)
        (onEvent { dbug with cmd := arg } (some ⟨pid, .stopped (.int3 r.rip)⟩))
        (planted .stopped (places t) (r.withRip (r.rip + 1), m), l) x w ↔
      x = (0, { dbug with
        cmd := arg, status := (Change.stopped (.int3 r.rip)).status, regs := r }) ∧
        w = (planted .stopped (places t) q₁, l ++ [f.report]) := by
  have hregs : ∀ x w, watched M pid init funs (.getregs pid)
      (planted .stopped (places t) (r.withRip (r.rip + 1), m), l) x w ↔
        x = some (r.withRip (r.rip + 1)) ∧
          w = (planted .stopped (places t) (r.withRip (r.rip + 1), m), l) := by
    intro x w
    rw [watched, recorded_sure fun _ _ => cpu_getregs]
    simp [reports]
  obtain rfl := h.inStep.pid_eq
  simp only [onEvent, storeStatus_some, WIFEXITED_stopped, Bool.false_eq_true, if_false]
  rw [ends_sure hregs]
  simp only [WSTOPSIG_stopped, Stop.sig, if_true, storeRegs_some]
  exact ends_iff_of_wp fun Q => h.wp_stop hM htour hf hstep

/-- The `PTRACE_CONT` of a `c`. -/
theorem Follows.cont (h : Follows M dbug.pid init funs B dbug s t q) (x : Bool)
    (w : Debuggee × List Out) :
    watched M dbug.pid init funs (.cont dbug.pid 0) (s, l) x w ↔
      x = true ∧ w = (planted .running (places t) q, l) := by
  rw [h.state, watched, recorded_sure fun _ _ => cpu_cont]
  simp [reports]

/-- A `c` comes back exactly where the program visits the table again. -/
theorem Follows.ends_continue (hM : Suitable M init B)
    (h : Follows M pid init funs B dbug s t q) (hname : arg.str 0 = some nameC) :
    Ends (watched M pid init funs) (play arg dbug) (s, l) dbug' (s', l') ↔
      ∃ r m q₁ f, M.Tour (places t) q [] (r, m) ∧ functionAt t r.rip = some f ∧
        M.step r m = some q₁ ∧ l' = l ++ [f.report] ∧ s' = planted .stopped (places t) q₁ ∧
        dbug' = { dbug with
          cmd := arg, status := (Change.stopped (.int3 r.rip)).status, regs := r } := by
  obtain rfl := h.inStep.pid_eq
  rw [play_continue hname, commandContinue_eq, Prog.bind_assoc, ends_sure h.cont, if_pos rfl,
    Prog.bind_assoc, ends_ask]
  constructor
  · rintro ⟨x, ⟨s₁, l₁⟩, hanswer, hrest⟩
    obtain ⟨⟨e, rfl, hwait⟩, rfl⟩ := (recorded_unseen rfl).mp hanswer
    obtain ⟨r, m, htour, hin, rfl, rfl⟩ | ⟨r, m, code, -, -, rfl, rfl⟩ :=
      (waitStep_planted (h.suitable hM)).mp hwait
    · obtain ⟨f, hf⟩ := functionAt_of_mem hin
      cases hstep : M.step r m with
      | none => exact absurd hstep (((h.suitable hM).tour htour).goesOn.here hin)
      | some q₁ =>
          obtain ⟨x, w, hx, hret⟩ := ends_bind.mp hrest
          obtain ⟨rfl, rfl⟩ := (h.ends_visit hM htour hf hstep).mp hx
          obtain ⟨rfl, hw⟩ := ends_ret.mp hret
          obtain ⟨rfl, rfl⟩ := Prod.mk.inj hw
          exact ⟨r, m, q₁, f, htour, hf, hstep, rfl, rfl, rfl⟩
    · -- the end of the program is the end of the debugger
      obtain ⟨x, w, hx, -⟩ := ends_bind.mp hrest
      simp only [onEvent, storeStatus_some, WIFEXITED_exited, if_true, exit] at hx
      obtain ⟨y, -⟩ := ends_ask.mp hx
      exact y.elim
  · rintro ⟨r, m, q₁, f, htour, hf, hstep, rfl, rfl, rfl⟩
    refine ⟨some ⟨dbug.pid, .stopped (.int3 r.rip)⟩, (_, l), (recorded_unseen rfl).mpr
      ⟨⟨_, rfl, (waitStep_planted (h.suitable hM)).mpr
        (Or.inl ⟨r, m, htour, mem_places_of_functionAt hf, rfl, rfl⟩)⟩, rfl⟩, ?_⟩
    exact ends_bind.mpr ⟨_, _, (h.ends_visit hM htour hf hstep).mpr ⟨rfl, rfl⟩, .refl _ _⟩

/-- One instruction behind the visit, the two are in step again. -/
theorem Follows.hit (hM : Suitable M init B) (h : Follows M pid init funs B dbug s t q)
    (hname : arg.str 0 = some nameC) {r : UserRegs} {m : Mem 64 Byte}
    {q₁ : UserRegs × Mem 64 Byte} {f : FuncOrg} (htour : M.Tour (places t) q [] (r, m))
    (hf : functionAt t r.rip = some f) (hstep : M.step r m = some q₁) :
    Follows M pid init funs B
      { dbug with cmd := arg, status := (Change.stopped (.int3 r.rip)).status, regs := r }
      (planted .stopped (places t) q₁) t q₁ := by
  have hends := (h.ends_continue (l := []) hM hname).mpr
    ⟨r, m, q₁, f, htour, hf, hstep, rfl, rfl, rfl⟩
  refine ⟨(inStep_continue hM h.inStep hname).ends (ends_forget hends), h.tabled, rfl, ?_⟩
  obtain ⟨k, hk⟩ := h.reached
  obtain ⟨j, hj⟩ := htour.after
  exact ⟨k + j + 1, by simp [Machine.after, Machine.after_add hk hj, hstep]⟩

/-! ## The start and the end -/

/-- What does not depend on the arguments does not depend on copying them. -/
theorem wp_copyArgv_iff {σ : Type} {K : Kernel Resp σ} {w : σ}
    (hK : ∀ k x w', K (.beyond k) w x w' ↔ w' = w) {n i : Nat}
    {Q : List (Option CStr) → σ → Prop} {P : Prop} (hQ : ∀ argv, Q argv w ↔ P) :
    wp K Free (copyArgv arg n i) Q w ↔ P := by
  constructor
  · intro h
    have hcopied : ∃ argv, Ends K (copyArgv arg n i) w argv w :=
      ends_copyArgv fun k => ⟨none, (hK k none w).mpr rfl⟩
    obtain ⟨argv, hargv⟩ := hcopied
    exact (hQ argv).mp (h.ends hargv)
  · intro hP
    exact wp_copyArgv (fun k x w' => (hK k x w').mp) (fun _ => trivial) arg
      fun argv => (hQ argv).mpr hP

/-- `dbug_pro`, where the program starts. -/
theorem wp_dbugPro_planted (hpid : 0 < pid) {path : Option CStr} {argv : List (Option CStr)}
    {Q : Int × Dbug → Debuggee × List Out → Prop} :
    wp (watched M pid init funs) Free (dbugPro dbug path argv) Q (noDebuggee, l) ↔
      Q (0, { dbug with status := (Change.stopped .exec).status, pid := pid, funs := funs })
        (planted .stopped ∅ init, l) := by
  have hne : pid ≠ 0 := Int.ne_of_gt hpid
  have hpos : ¬ pid < 0 := Int.not_lt.mpr (Int.le_of_lt hpid)
  rw [wp_quiet (emits_dbugPro.mono (fun _ => StartReq.unreported) fun _ h => h), dbugPro, wp_bind,
    wp_sure fun _ _ => cpu_fork, if_neg hne, if_neg hpos, wp_bind,
    wp_sure fun _ _ => cpu_wait_started]
  simp only [storeStatus_some, WIFEXITED_stopped, Bool.false_eq_true, if_false, wp_bind]
  rw [wp_sure fun _ _ => cpu_openFuns]
  simp only [Prog.pure_eq, wp_ret, planted, overlay_empty]

theorem places_nil : places [] = ∅ := by
  simp [places]

variable (M init funs B l) in
/-- A `dbug` gets the story going. -/
theorem follows_start (hpid : 0 < pid) (hname : arg.str 0 = some nameDbug) :
    ∃ dbug₁ s₁, (∀ Q, wp (watched M pid init funs) Free (play arg initDbug) Q (noDebuggee, l) ↔
        Q dbug₁ (s₁, l)) ∧
      Follows M pid init funs B dbug₁ s₁ [] init := by
  have hbeyond : ∀ k x w, watched M pid init funs (.beyond k) (noDebuggee, l) x w ↔
      w = (noDebuggee, l) := by
    rintro k x ⟨s', l'⟩
    rw [watched, recorded_unseen rfl, Prod.mk.injEq]
    rfl
  have honly : ∀ Q, wp (watched M pid init funs) Free (play arg initDbug) Q (noDebuggee, l) ↔
      Q { initDbug with
        cmd := arg, status := (Change.stopped .exec).status, pid := pid, funs := funs }
        (planted .stopped ∅ init, l) := by
    intro Q
    rw [play_dbug hname, wp_bind, commandDbug, wp_bind]
    refine wp_copyArgv_iff hbeyond fun argv => ?_
    rw [wp_bind, wp_dbugPro_planted hpid]
    exact Iff.rfl
  refine ⟨_, _, honly, ?_, .nil, by rw [places_nil], 0, rfl⟩
  have hends := (ends_iff_of_wp honly).mpr ⟨rfl, rfl⟩
  exact (inStep_start hpid hname).ends (ends_forget hends)

/-- `q`, `exit` and `quit`. -/
def Quits (arg : NgxArray) : Prop :=
  Named [lit ['q'], lit ['e', 'x', 'i', 't'], lit ['q', 'u', 'i', 't']] arg

theorem play_quit (h : Quits arg) : play arg dbug =
    (commandExit { dbug with cmd := arg } arg >>= fun x => Prog.ret x.2) := by
  obtain ⟨n, hn, hname⟩ := h
  simp only [List.mem_cons, List.not_mem_nil, or_false] at hn
  rcases hn with rfl | rfl | rfl
  · exact play_of_find (_, commandExit) (by rw [hname]; rfl)
  · exact play_of_find (_, commandExit) (by rw [hname]; rfl)
  · exact play_of_find (_, commandExit) (by rw [hname]; rfl)

/-- They do not come back. -/
theorem Quits.not_ends {σ : Type} {K : Kernel Resp σ} {w w' : σ} (h : Quits arg) :
    ¬ Ends K (play arg dbug) w dbug' w' := by
  intro hends
  rw [play_quit h, commandExit, Prog.bind_assoc] at hends
  obtain ⟨x, w₁, -, hexit⟩ := ends_ask.mp hends
  rw [exit, Prog.bind_assoc] at hexit
  obtain ⟨y, -⟩ := ends_ask.mp hexit
  exact y.elim

/-! ## Sessions -/

theorem bystander_or_named (h : ¬ Named [nameDbug, nameAttach, nameWatch] arg) :
    Bystander arg ∨ arg.str 0 = some nameB ∨ arg.str 0 = some nameC ∨ Quits arg := by
  by_contra hno
  simp only [not_or] at hno
  obtain ⟨hb, hnb, hnc, hnq⟩ := hno
  apply hb
  rintro ⟨n, hn, hname⟩
  simp only [List.mem_cons, List.not_mem_nil, or_false] at hn
  rcases hn with rfl | rfl | rfl | rfl | rfl | rfl | rfl | rfl
  · exact hnb hname
  · exact hnc hname
  · exact h ⟨_, by simp, hname⟩
  · exact h ⟨_, by simp, hname⟩
  · exact h ⟨_, by simp, hname⟩
  · exact hnq ⟨_, by simp, hname⟩
  · exact hnq ⟨_, by simp, hname⟩
  · exact hnq ⟨_, by simp, hname⟩

/-- A function that a `b` of the session is for is at one of the addresses of `B`. -/
def Covers (funs : Option FunArr) (B : Set Word) (args : List NgxArray) : Prop :=
  ∀ arg ∈ args, arg.str 0 = some nameB → ∀ i, findFunc funs (arg.str 1) = some i →
    ((funs.getD []).getD i ⟨[], 0⟩).addr ∈ B

theorem Covers.tail (hB : Covers funs B (arg :: args)) : Covers funs B args :=
  fun a ha => hB a (List.mem_cons_of_mem arg ha)

/-- Every session tells a story. -/
theorem Follows.story (hM : Suitable M init B) (h : Follows M pid init funs B dbug s t q)
    (hargs : ∀ arg ∈ args, ¬ Named [nameDbug, nameAttach, nameWatch] arg)
    (hB : Covers funs B args)
    (hruns : Runs (watched M pid init funs) play Always dbug (s, l) args dbug' (s', l')) :
    ∃ hits t' q', Story M funs t q args hits t' q' ∧ Follows M pid init funs B dbug' s' t' q' ∧
      l' = l ++ hits.map FuncOrg.report := by
  induction args generalizing dbug s t q l with
  | nil =>
      cases hruns
      exact ⟨[], t, q, .done t q, h, by simp⟩
  | cons arg args ih =>
      have hargs' := fun a ha => hargs a (List.mem_cons_of_mem arg ha)
      rcases bystander_or_named (hargs arg List.mem_cons_self) with hb | hname | hname | hquit
      · obtain ⟨regs, honly⟩ := h.other hb (l := l)
        obtain ⟨hits, t', q', hstory, hrest⟩ :=
          ih h.kept hargs' hB.tail ((runs_cons_sure honly).mp hruns)
        exact ⟨hits, t', q', .other hb hstory, hrest⟩
      · cases hfind : findFunc funs (arg.str 1) with
        | none =>
            obtain ⟨hits, t', q', hstory, hrest⟩ := ih h.kept hargs' hB.tail
              ((runs_cons_sure fun Q => wp_unknown hname (by rwa [h.inStep.funs_eq])).mp hruns)
            exact ⟨hits, t', q', .unknown hname hfind hstory, hrest⟩
        | some i =>
            obtain ⟨d₁, s₁, honly, h₁⟩ := h.set hM hname hfind
              (hB arg List.mem_cons_self hname i hfind) (l := l)
            obtain ⟨hits, t', q', hstory, hrest⟩ :=
              ih h₁ hargs' hB.tail ((runs_cons_sure honly).mp hruns)
            exact ⟨hits, t', q', .set hname hfind hstory, hrest⟩
      · cases hruns with
        | @cons _ _ _ d₁ _ _ w₁ _ _ he hr =>
            obtain ⟨s₁, l₁⟩ := w₁
            obtain ⟨r, m, q₁, f, htour, hf, hstep, rfl, rfl, rfl⟩ :=
              (h.ends_continue hM hname).mp he
            obtain ⟨hits, t', q', hstory, hrest, rfl⟩ :=
              ih (h.hit hM hname htour hf hstep) hargs' hB.tail hr
            exact ⟨f :: hits, t', q', .hit hname htour hf hstep hstory, hrest,
              (List.append_cons l f.report _).symm⟩
      · cases hruns with
        | cons _ he _ => exact absurd he hquit.not_ends

/-- Every story is told by a session. -/
theorem Follows.told (hM : Suitable M init B) (h : Follows M pid init funs B dbug s t q)
    (hB : Covers funs B args) {hits : List FuncOrg} (hstory : Story M funs t q args hits t' q') :
    ∃ dbug' s', Runs (watched M pid init funs) play Always dbug (s, l) args dbug'
      (s', l ++ hits.map FuncOrg.report) ∧ Follows M pid init funs B dbug' s' t' q' := by
  induction hstory generalizing dbug s l with
  | done t q =>
      rw [List.map_nil, List.append_nil]
      exact ⟨dbug, s, .nil _ _, h⟩
  | other hb _ ih =>
      obtain ⟨regs, honly⟩ := h.other hb (l := l)
      obtain ⟨dbug', s', hruns, h'⟩ := ih h.kept hB.tail
      exact ⟨dbug', s', (runs_cons_sure honly).mpr hruns, h'⟩
  | unknown hname hfind _ ih =>
      obtain ⟨dbug', s', hruns, h'⟩ := ih h.kept hB.tail
      refine ⟨dbug', s', (runs_cons_sure fun Q => wp_unknown hname ?_).mpr hruns, h'⟩
      rwa [h.inStep.funs_eq]
  | set hname hfind _ ih =>
      obtain ⟨d₁, s₁, honly, h₁⟩ := h.set hM hname hfind
        (hB _ List.mem_cons_self hname _ hfind) (l := l)
      obtain ⟨dbug', s', hruns, h'⟩ := ih h₁ hB.tail
      exact ⟨dbug', s', (runs_cons_sure honly).mpr hruns, h'⟩
  | @hit _ _ _ _ _ _ _ _ r m f hname htour hf hstep _ ih =>
      obtain ⟨dbug', s', hruns, h'⟩ := ih (h.hit hM hname htour hf hstep) hB.tail
      rw [List.map_cons, List.append_cons]
      exact ⟨dbug', s', .cons trivial ((h.ends_continue hM hname).mpr
        ⟨r, m, _, f, htour, hf, hstep, rfl, rfl, rfl⟩) hruns, h'⟩

/-! ### A program that ends

The field of `nop`s of `Transparency`, up to an instruction that ends the
process. -/

def shortCpu : Cpu :=
  { nopCpu with
    step := fun r m => if r.rip = 0x1004 then none else some (r.withRip (r.rip + 1), m)
    footprint := by
      intro r m m' _ _
      show SameOutcome ∅ m' (if r.rip = 0x1004 then none else some (r.withRip (r.rip + 1), m))
        (if r.rip = 0x1004 then none else some (r.withRip (r.rip + 1), m'))
      split
      · trivial
      · exact ⟨rfl, fun _ hx => absurd hx (Set.notMem_empty _), fun _ _ => rfl⟩ }

def shortAt (a : Word) : UserRegs × Mem 64 Byte := (({} : UserRegs).withRip a, fun _ => 0x90)

theorem short_undisturbed (q : UserRegs × Mem 64 Byte) :
    shortCpu.Along q (shortCpu.Undisturbed Set.univ) := by
  intro k r m _
  refine ⟨fun i hpos hlt => ?_, fun x hx => absurd hx (Set.notMem_empty x),
    fun x hx => absurd hx (Set.notMem_empty x)⟩
  have : i < 1 := hlt
  omega

/-- It does not change its memory. -/
theorem short_mem (q : UserRegs × Mem 64 Byte) : shortCpu.Along q fun _ m => m = q.2 := by
  intro k r m hk
  funext x
  exact Machine.after_keeps (short_undisturbed q) hk (Set.mem_univ x)

theorem shortCpu_suitable {B : Set Word} (hB : (0x1004 : Word) ∉ B) :
    Suitable shortCpu (shortAt 0x1000) B := by
  constructor
  · intro k r m hk
    rw [short_mem _ k r m hk]
    show (0x90 : Byte) ≠ INT_3
    decide
  · exact fun k r m hk => ⟨fun i hpos hlt => absurd hlt (Nat.not_lt.mpr hpos),
      fun x hx => absurd hx (Set.notMem_empty x), fun x hx => absurd hx (Set.notMem_empty x)⟩
  · intro k r m _ hin hnone
    have hend : r.rip = 0x1004 := by
      by_contra hne
      rw [show shortCpu.step r m = some (r.withRip (r.rip + 1), m) from if_neg hne] at hnone
      cases hnone
    exact hB (hend ▸ hin)

theorem short_step {a : Word} (ha : a ≠ 0x1004) :
    shortCpu.step (shortAt a).1 (shortAt a).2 = some (shortAt (a + 1)) :=
  if_neg ha

theorem short_off {S : Set Word} {a : Word} {as : List Word} {p : UserRegs × Mem 64 Byte}
    (hS : a ∉ S) (ha : a ≠ 0x1004) (h : shortCpu.Tour S (shortAt (a + 1)) as p) :
    shortCpu.Tour S (shortAt a) as p :=
  .off hS (short_step ha) h

theorem nopFuns_short (args : List NgxArray) : (0x1004 : Word) ∉ breakAddrs nopFuns args := by
  rintro ⟨arg, -, -, i, -, hi⟩
  match i with
  | 0 => exact absurd hi (by decide)
  | 1 => exact absurd hi (by decide)
  | i + 2 => exact absurd hi (by simp [nopFuns])

/-- `f` is broken at and met; then the program ends. -/
def shortArgs : List NgxArray := [typed ['b', ' ', 'f', '\n'], typed ['c', '\n']]

theorem shortStory : Story shortCpu nopFuns [] (shortAt 0x1000) shortArgs [⟨lit ['f'], 0x1002⟩]
    [⟨lit ['f'], 0x1002⟩] (shortAt 0x1003) := by
  have hplaces : ∀ a : Word, a ∈ places [⟨lit ['f'], 0x1002⟩] ↔ a = 0x1002 := by
    simp [places, eq_comm]
  refine .set (i := 0) (by decide) (by decide +kernel) ?_
  show Story shortCpu nopFuns [⟨lit ['f'], 0x1002⟩] (shortAt 0x1000) _ _ _ _
  refine .hit (r := (shortAt 0x1002).1) (m := (shortAt 0x1002).2) (by decide) ?_ rfl
    (short_step (a := 0x1002) (by decide)) (.done _ _)
  refine short_off (by rw [hplaces]; decide) (by decide) ?_
  exact short_off (by rw [hplaces]; decide) (by decide) (.refl _)

theorem short_named : ∀ arg ∈ shortArgs, ¬ Named [nameDbug, nameAttach, nameWatch] arg := by
  show ∀ arg ∈ shortArgs, ¬ ∃ n ∈ [nameDbug, nameAttach, nameWatch], arg.str 0 = some n
  decide +kernel

/-- **Every visit is reported, once.**  The sessions of one debuggee are the
stories of the undebugged program: a session with the reports `l` is there
exactly where a story has visited the table as often, in this order and under
these names, and the debuggee is then where the program is. -/
theorem every_visit_once (M : Cpu) {pid : Pid} (hpid : 0 < pid)
    (init : UserRegs × Mem 64 Byte) (funs : Option FunArr) {start : NgxArray}
    (hstart : start.str 0 = some nameDbug) {args : List NgxArray}
    (hargs : ∀ arg ∈ args, ¬ Named [nameDbug, nameAttach, nameWatch] arg)
    (hM : Suitable M init (breakAddrs funs args)) {s : Debuggee} {l : List Out} :
    (∃ dbug, Runs (recorded reports (cpuKernel M pid init funs)) play Always initDbug
        (noDebuggee, []) (start :: args) dbug (s, l)) ↔
      ∃ hits t q, Story M funs [] init args hits t q ∧ s = planted .stopped (places t) q ∧
        l = hits.map FuncOrg.report := by
  obtain ⟨d₁, s₁, honly, h⟩ := follows_start M init funs (breakAddrs funs args) [] hpid hstart
  have hB : Covers funs (breakAddrs funs args) args :=
    fun arg harg hname i hi => ⟨arg, harg, hname, i, hi, rfl⟩
  simp only [runs_cons_sure honly]
  constructor
  · rintro ⟨dbug, hruns⟩
    obtain ⟨hits, t, q, hstory, h', rfl⟩ := h.story hM hargs hB hruns
    exact ⟨hits, t, q, hstory, h'.state, by simp⟩
  · rintro ⟨hits, t, q, hstory, rfl, rfl⟩
    obtain ⟨dbug, s, hruns, h'⟩ := h.told hM hB hstory (l := [])
    rw [← h'.state]
    exact ⟨dbug, by simpa using hruns⟩

/-! ## The exit -/

/-- No exit is asked for. -/
abbrev Stays (r : Req) : Prop := r ≠ .exit 0

theorem MemReq.stays {r : Req} (h : MemReq pid r) : Stays r := by
  cases h <;> simp [Stays]

theorem StartReq.stays {r : Req} (h : StartReq r) : Stays r := by
  cases h <;> simp [Stays]

theorem OutReq.stays {r : Req} (h : OutReq r) : Stays r := by
  cases h <;> simp [Stays]

theorem stays_resumeINT3BpNext {bp : Breakpoint} {regs : UserRegs} :
    Emits Stays (fun _ => True) (resumeINT3BpNext pid bp regs) := by
  have hwrite : ∀ {a : Word} {str : List Byte},
      Emits Stays (fun _ => True) (writeProMem pid a str 1) :=
    emits_writeProMem.mono (fun _ => MemReq.stays) (fun _ h => h)
  rw [resumeINT3BpNext]
  split
  · trivial
  · refine hwrite.seq fun _ _ => ?_
    refine .ask (by simp) fun _ => .ask (by simp) fun _ => .ask (by simp) fun _ => ?_
    exact hwrite.seq fun _ _ => trivial

/-- Behind a stop, `command_continue` comes back. -/
theorem stays_onEvent {dbug : Dbug} {why : Stop} :
    Emits Stays (fun _ => True) (onEvent dbug (some ⟨pid, .stopped why⟩)) := by
  have hSF : ∀ d, Emits Stays (fun _ => True) (triggerSF d) := by
    intro d
    rw [triggerSF]
    split
    · trivial
    · refine .ask (by simp) fun _ => ?_
      exact stays_resumeINT3BpNext.seq fun _ _ => trivial
  have hHW : ∀ d, Emits Stays (fun _ => True) (triggerHW d) := by
    intro d
    rcases triggerHW_cases d with h | ⟨a, h⟩
    · rw [h]
      trivial
    · rw [h]
      exact ⟨by simp, fun _ => trivial⟩
  simp only [onEvent, storeStatus_some, WIFEXITED_stopped, Bool.false_eq_true, if_false,
    WSTOPSIG_stopped]
  refine .ask (by simp) fun regs => ?_
  by_cases htrap : why.sig.num = SIGTRAP.num
  · rw [if_pos htrap]
    exact (hSF _).seq fun d _ => (hHW d).seq fun _ _ => trivial
  · rw [if_neg htrap]
    trivial

theorem stays_bystander (hb : Bystander arg) :
    Emits Stays (fun _ => True) (play arg dbug) := by
  have hnamed : ∀ n ∈ [nameB, nameC, nameDbug, nameAttach, nameWatch, lit ['q'],
      lit ['e', 'x', 'i', 't'], lit ['q', 'u', 'i', 't']], arg.str 0 ≠ some n :=
    fun n hn hname => hb ⟨n, hn, hname⟩
  simp only [List.forall_mem_cons, List.not_mem_nil, false_implies, implies_true, and_true]
    at hnamed
  obtain ⟨hnb, hnc, hnd, hna, hnw, hnq, hne, hnquit⟩ := hnamed
  refine play_cases (.ask (by simp) fun _ => trivial) ?_
  simp only [cmdSet, List.forall_mem_cons, List.not_mem_nil, false_implies, implies_true, and_true]
  refine ⟨fun hn => absurd hn hnb, fun hn => absurd hn hnc, fun _ => ?_,
    fun hn => absurd hn hnd, fun hn => absurd hn hna, fun _ => ?_,
    fun hn => absurd hn hnw, fun hn => absurd hn hnq, fun hn => absurd hn hne,
    fun hn => absurd hn hnquit, fun _ => ?_⟩
  · exact (emits_show.mono (fun _ => OutReq.stays) fun _ h => h).seq fun _ _ => trivial
  · refine (emits_showreg.mono ?_ fun _ h => h).seq fun _ _ => trivial
    rintro r (hr | rfl)
    · exact hr.stays
    · simp [Stays]
  · exact (emits_showbps.mono (fun _ => OutReq.stays) fun _ h => h).seq fun _ _ => trivial

theorem stays_break (hname : arg.str 0 = some nameB) :
    Emits Stays (fun _ => True) (play arg dbug) := by
  rw [play_break hname]
  exact (emits_break.mono (fun _ => MemReq.stays) fun _ h => h).seq fun _ _ => trivial

theorem stays_dbug (hname : arg.str 0 = some nameDbug) :
    Emits Stays (fun _ => True) (play arg dbug) := by
  rw [play_dbug hname]
  exact (emits_dbug.mono (fun _ => StartReq.stays) fun _ h => h).seq fun _ _ => trivial

/-- `q` kills the debuggee where it is, and exits. -/
theorem Follows.asks_quit (h : Follows M pid init funs B dbug s t q) (hquit : Quits arg) :
    Asks (watched M pid init funs) (play arg dbug) (s, l) (.exit 0) (s', l') ↔
      s' = planted .killed (places t) q ∧ l' = l := by
  obtain rfl := h.inStep.pid_eq
  have hkill : ∀ x w, watched M dbug.pid init funs (.kill dbug.pid SIGKILL) (s, l) x w ↔
      x = true ∧ w = (planted .killed (places t) q, l) := by
    intro x w
    rw [h.state, watched, recorded_sure fun _ _ => cpu_kill]
    simp [reports]
  rw [play_quit hquit, commandExit, Prog.bind_assoc, asks_sure hkill (by simp), exit,
    Prog.bind_assoc, asks_ask]
  constructor
  · rintro (⟨-, hs⟩ | ⟨y, -⟩)
    · exact Prod.mk.inj hs
    · exact y.elim
  · rintro ⟨rfl, rfl⟩
    exact Or.inl ⟨rfl, rfl⟩

/-- A `c` exits exactly where the program ends without another visit. -/
theorem Follows.asks_exit (hM : Suitable M init B) (h : Follows M pid init funs B dbug s t q)
    (hname : arg.str 0 = some nameC) :
    Asks (watched M pid init funs) (play arg dbug) (s, l) (.exit 0) (s', l') ↔
      ∃ r m, M.Tour (places t) q [] (r, m) ∧ M.step r m = none ∧
        s' = planted .gone (places t) (r, m) ∧ l' = l := by
  obtain rfl := h.inStep.pid_eq
  have hexited : ∀ code, onEvent { dbug with cmd := arg } (some ⟨dbug.pid, .exited code⟩) =
      exit := by
    intro code
    simp only [onEvent, storeStatus_some, WIFEXITED_exited, if_true]
  rw [play_continue hname, commandContinue_eq, Prog.bind_assoc,
    asks_sure (h.cont) (by simp), if_pos rfl, Prog.bind_assoc, asks_ask]
  constructor
  · rintro (⟨hr, -⟩ | ⟨x, ⟨s₁, l₁⟩, hanswer, hrest⟩)
    · cases hr
    · obtain ⟨⟨e, rfl, hwait⟩, rfl⟩ := (recorded_unseen rfl).mp hanswer
      obtain ⟨r, m, -, -, rfl, rfl⟩ | ⟨r, m, code, htour, hend, rfl, rfl⟩ :=
        (waitStep_planted (h.suitable hM)).mp hwait
      · have hstays : Emits Stays (fun _ => True)
            (onEvent { dbug with cmd := arg } (some ⟨dbug.pid, .stopped (.int3 r.rip)⟩) >>=
              fun x => Prog.ret x.2) := stays_onEvent.seq fun _ _ => trivial
        exact absurd hrest (hstays.not_asks (by simp))
      · rw [hexited, exit, Prog.bind_assoc, asks_ask] at hrest
        rcases hrest with ⟨-, hs⟩ | ⟨y, -⟩
        · obtain ⟨rfl, rfl⟩ := Prod.mk.inj hs
          exact ⟨r, m, htour, hend, rfl, rfl⟩
        · exact y.elim
  · rintro ⟨r, m, htour, hend, rfl, rfl⟩
    refine Or.inr ⟨some ⟨dbug.pid, .exited 0⟩, (_, l'), (recorded_unseen rfl).mpr
      ⟨⟨_, rfl, (waitStep_planted (h.suitable hM)).mpr
        (Or.inr ⟨r, m, 0, htour, hend, rfl, rfl⟩)⟩, rfl⟩, ?_⟩
    rw [hexited, exit, Prog.bind_assoc, asks_ask]
    exact Or.inl ⟨rfl, rfl⟩

theorem every_visit_once_short : ∃ dbug, Runs (recorded reports
    (cpuKernel shortCpu 7 (shortAt 0x1000) nopFuns)) play Always initDbug (noDebuggee, [])
    (typed ['d', 'b', 'u', 'g', ' ', 'p', '\n'] :: shortArgs) dbug
    (planted .stopped (places [⟨lit ['f'], 0x1002⟩]) (shortAt 0x1003),
      [.trigger 0x1002 (some (lit ['f']))]) :=
  (every_visit_once shortCpu (by decide) (shortAt 0x1000) nopFuns (by decide) short_named
    (shortCpu_suitable (nopFuns_short _))).mpr ⟨_, _, _, shortStory, rfl, rfl⟩

/-- **The debugger exits with the program, or when it is told to.**  It asks for
its exit exactly where, behind some story, a `c` finds the program at its end
without another visit, or the command is one of those that quit.  The reports are
then those of the story; the debuggee has ended as the program does, or has been
killed where the program is. -/
theorem exits_with_the_program (M : Cpu) {pid : Pid} (hpid : 0 < pid)
    (init : UserRegs × Mem 64 Byte) (funs : Option FunArr) {start : NgxArray}
    (hstart : start.str 0 = some nameDbug) {args : List NgxArray}
    (hargs : ∀ arg ∈ args, ¬ Named [nameDbug, nameAttach, nameWatch] arg)
    (hM : Suitable M init (breakAddrs funs args)) {s : Debuggee} {l : List Out} :
    Asks (recorded reports (cpuKernel M pid init funs)) (runAll play (start :: args) initDbug)
        (noDebuggee, []) (.exit 0) (s, l) ↔
      ∃ before last rest hits t q, args = before ++ last :: rest ∧
        Story M funs [] init before hits t q ∧ l = hits.map FuncOrg.report ∧
        ((last.str 0 = some nameC ∧ ∃ r m, M.Tour (places t) q [] (r, m) ∧
            M.step r m = none ∧ s = planted .gone (places t) (r, m)) ∨
          (Quits last ∧ s = planted .killed (places t) q)) := by
  obtain ⟨d₁, s₁, honly, h⟩ := follows_start M init funs (breakAddrs funs args) [] hpid hstart
  have hB : Covers funs (breakAddrs funs args) args :=
    fun arg harg hname i hi => ⟨arg, harg, hname, i, hi, rfl⟩
  rw [asks_runAll]
  constructor
  · rintro ⟨before, last, rest, dbug, ⟨s₂, l₂⟩, hsplit, hruns, hasks⟩
    cases before with
    | nil =>
        obtain ⟨rfl, rfl⟩ := List.cons.inj hsplit
        cases hruns
        exact absurd hasks ((stays_dbug hstart).not_asks (by simp))
    | cons _ before =>
        obtain ⟨rfl, rfl⟩ := List.cons.inj hsplit
        have hlast : last ∈ before ++ last :: rest := by simp
        obtain ⟨hits, t, q, hstory, h', rfl⟩ := h.story hM
          (fun a ha => hargs a (List.mem_append_left _ ha))
          (fun a ha => hB a (List.mem_append_left _ ha)) ((runs_cons_sure honly).mp hruns)
        refine ⟨before, last, rest, hits, t, q, rfl, hstory, ?_⟩
        rcases bystander_or_named (hargs last hlast) with hb | hname | hname | hquit
        · exact absurd hasks ((stays_bystander hb).not_asks (by simp))
        · exact absurd hasks ((stays_break hname).not_asks (by simp))
        · obtain ⟨r, m, htour, hend, rfl, rfl⟩ := (h'.asks_exit hM hname).mp hasks
          exact ⟨by simp, Or.inl ⟨hname, r, m, htour, hend, rfl⟩⟩
        · obtain ⟨rfl, rfl⟩ := (h'.asks_quit hquit).mp hasks
          exact ⟨by simp, Or.inr ⟨hquit, rfl⟩⟩
  · rintro ⟨before, last, rest, hits, t, q, rfl, hstory, rfl, hlast⟩
    obtain ⟨dbug, s₂, hruns, h'⟩ := h.told hM
      (fun a ha => hB a (List.mem_append_left _ ha)) hstory (l := [])
    refine ⟨start :: before, last, rest, dbug, (s₂, _), rfl, (runs_cons_sure honly).mpr hruns, ?_⟩
    rcases hlast with ⟨hname, r, m, htour, hend, rfl⟩ | ⟨hquit, rfl⟩
    · exact (h'.asks_exit hM hname).mpr ⟨r, m, htour, hend, rfl, by simp⟩
    · exact (h'.asks_quit hquit).mpr ⟨rfl, by simp⟩

theorem exits_with_the_program_short : Asks (recorded reports
    (cpuKernel shortCpu 7 (shortAt 0x1000) nopFuns))
    (runAll play (typed ['d', 'b', 'u', 'g', ' ', 'p', '\n'] :: (shortArgs ++
      [typed ['c', '\n']])) initDbug) (noDebuggee, []) (.exit 0)
    (planted .gone (places [⟨lit ['f'], 0x1002⟩]) (shortAt 0x1004),
      [.trigger 0x1002 (some (lit ['f']))]) := by
  have hargs : ∀ arg ∈ shortArgs ++ [typed ['c', '\n']],
      ¬ Named [nameDbug, nameAttach, nameWatch] arg := by
    show ∀ arg ∈ shortArgs ++ [typed ['c', '\n']],
      ¬ ∃ n ∈ [nameDbug, nameAttach, nameWatch], arg.str 0 = some n
    decide +kernel
  have htour : shortCpu.Tour (places [⟨lit ['f'], 0x1002⟩]) (shortAt 0x1003) []
      (shortAt 0x1004) := short_off (by simp [places]) (by decide) (.refl _)
  exact (exits_with_the_program shortCpu (by decide) (shortAt 0x1000) nopFuns (by decide) hargs
    (shortCpu_suitable (nopFuns_short _))).mpr ⟨shortArgs, typed ['c', '\n'], [], _, _, _,
      rfl, shortStory, rfl, Or.inl ⟨by decide, _, _, htour, rfl, rfl⟩⟩

end

end TestDbug
