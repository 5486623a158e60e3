/-
# `TestDbug.Attribution` — which stops are taken for which breakpoints

`command_continue` looks at two things: a status that shows a SIGTRAP, and a
software breakpoint one byte below `rip`, or a hardware breakpoint at it.  The
kernel of this module knows where the debugger has put INT3s in which process
(`planted`), what the wait and the `GETREGS` of the present `command_continue`
have answered (`Stage`), and that the registers of a process agree with its
stop: one past an INT3, on the address of a debug register.

A report is `Attributed` if it is of the event of this very call, and for a
software breakpoint if that is the INT3 planted there.  `attributed_iff` says when
every report is: any stop but at an INT3 planted in the debuggee must find no
software breakpoint one byte below `rip`, and after a failed wait or `GETREGS` the
leftover status and registers must match nothing.
-/
import TestDbug.Effects

open ByteMemory Interaction

namespace TestDbug

/-- The addresses of a process at which the debugger has put an INT3, after a
`POKETEXT` of `w` at `a`.  The word may also cover other INT3s, or keep them. -/
def plant (a w : Word) (P : Set Word) : Set Word :=
  { x | (x = a ∨ x ∈ P) ∧
    ∀ i < 8, x = a + BitVec.ofNat 64 i → (toBytes w)[i]? = some INT_3 }

/-- An `execve` leaves none of them. -/
def afterEvent (ev : Option WaitEvent) (planted : Pid → Set Word) : Pid → Set Word :=
  match ev with
  | some ⟨q, .stopped .exec⟩ => Function.update planted q ∅
  | _ => planted

/-- How far the present `command_continue` on `pid` has come; `P` are the INT3s
planted in `pid` at the event. -/
inductive Stage where
  | idle
  | resumed (pid : Pid)
  | reported (pid : Pid) (P : Set Word) (ev : Option WaitEvent)
  | read (pid : Pid) (P : Set Word) (ev : Option WaitEvent) (regs : Option UserRegs)

/-- A wait that reports `ev`: the first one after `CONT` is the one of
`command_continue`. -/
def Stage.report (planted : Pid → Set Word) (ev : Option WaitEvent) : Stage → Stage
  | resumed pid => reported pid (planted pid) ev
  | stage => stage

/-- A `GETREGS` that answers `regs`. -/
def Stage.fetch (regs : Option UserRegs) : Stage → Stage
  | reported pid P ev => read pid P ev regs
  | stage => stage

/-- The registers of `pid` are those of the stop that was reported of it. -/
def Agrees (pid : Pid) : Option WaitEvent → Option UserRegs → Prop
  | some ⟨q, .stopped (.int3 a)⟩, some regs => q = pid → regs.rip = a + 1
  | some ⟨q, .stopped (.debugReg a)⟩, some regs => q = pid → regs.rip = a
  | _, _ => True

/-- What `GETREGS` can answer. -/
def Stage.Allows (regs : Option UserRegs) : Stage → Prop
  | reported pid _ ev => Agrees pid ev regs
  | _ => True

/-- The system's answers to come, the stage, and the INT3s in each process. -/
structure Stops extends Script where
  stage : Stage
  planted : Pid → Set Word

/-- A `POKETEXT` that succeeds.  A process started or attached to is new. -/
def stopKernel : Kernel Resp Stops
  | .poketext pid a w, s, x, s' => s' = if x then
      { s with planted := Function.update s.planted pid (plant a w (s.planted pid)) } else s
  | .fork, s, x, s' => s' = if 0 < x then
      { s with planted := Function.update s.planted x ∅ } else s
  | .attach pid, s, x, s' => s' = if x then
      { s with planted := Function.update s.planted pid ∅ } else s
  | .cont pid _, s, _, s' => s' = { s with stage := .resumed pid }
  | .wait, s, x, s' => ∃ xs, s.events = x :: xs ∧
      s' = { s with
        events := xs, stage := s.stage.report s.planted x, planted := afterEvent x s.planted }
  | .waitpid _, s, x, s' => ∃ xs, s.events = x :: xs ∧
      s' = { s with events := xs, planted := afterEvent x s.planted }
  | .getregs _, s, x, s' => ∃ xs, s.regs = x :: xs ∧ s.stage.Allows x ∧
      s' = { s with regs := xs, stage := s.stage.fetch x }
  | _, s, _, s' => s' = s

/-! ## The law -/

/-- A software breakpoint is reported, and `rip` moved to it, only for the INT3
planted there, which the debuggee has executed; a hardware breakpoint only for a
stop and registers that this call has received. -/
def Attributed : Req → Stops → Prop
  | .print (.trigger a _), s =>
      ∃ pid P regs, s.stage = .read pid P (some ⟨pid, .stopped (.int3 a)⟩) (some regs) ∧ a ∈ P
  | .setregs pid regs, s =>
      ∃ P old, s.stage = .read pid P (some ⟨pid, .stopped (.int3 regs.rip)⟩) (some old) ∧
        regs.rip ∈ P
  | .print (.triggerHW _), s => ∃ pid P e regs, s.stage = .read pid P (some e) (some regs)
  | _, _ => True

/-- A status that `command_continue` takes for a stop at a breakpoint. -/
def ShowsTrap (status : Nat) : Prop := WIFEXITED status = false ∧ WSTOPSIG status = SIGTRAP.num

/-- No breakpoint is found for these registers. -/
def MatchesNone (bps : List Breakpoint) (regs : UserRegs) : Prop :=
  ∀ bp ∈ bps, (bp.type = .SFBP → bp.addr ≠ regs.rip - 1) ∧ (bp.type = .HWBP → bp.addr ≠ regs.rip)

/-- What `c` may be answered, with INT3s planted in the debuggee at `P`: one of
these, a stop with no software breakpoint one byte below `rip`, or a failure that
leaves nothing to be found. -/
def Unambiguous (dbug : Dbug) (P : Set Word) : Option WaitEvent → Option UserRegs → Prop
  | some e, some regs => ∀ why, e.change = .stopped why → why.sig = SIGTRAP →
      (e.pid = dbug.pid ∧ ∃ a ∈ P, why = .int3 a) ∨
        ∀ bp ∈ dbug.bps, bp.type = .SFBP → bp.addr ≠ regs.rip - 1
  | some e, none => ∀ why, e.change = .stopped why → why.sig = SIGTRAP →
      MatchesNone dbug.bps dbug.regs
  | none, regs => ShowsTrap dbug.status → MatchesNone dbug.bps (storeRegs dbug.regs regs)

/-- The condition on a command. -/
def Clear (arg : NgxArray) (dbug : Dbug) (s : Stops) : Prop :=
  arg.str 0 = some nameC → ∀ ev evs regs rest, s.events = ev :: evs → s.regs = regs :: rest →
    Agrees dbug.pid ev regs → Unambiguous dbug (s.planted dbug.pid) ev regs

section
variable {s s' : Stops} {dbug : Dbug} {arg : NgxArray} {pid : Pid} {P : Set Word}
  {ev : Option WaitEvent} {regs : Option UserRegs}

/-! ## Requests that report nothing -/

theorem print_attributed {o : Out} (ho : isTrigger o = false) : Attributed (.print o) s := by
  cases o with
  | trigger | triggerHW => cases ho
  | _ => trivial

theorem MemReq.attributed {r : Req} (hr : MemReq pid r) : Attributed r s := by
  cases hr with
  | print o ho => exact print_attributed ho
  | _ => trivial

theorem PlainReq.attributed {r : Req} (hr : PlainReq pid r) : Attributed r s := by
  cases hr with
  | mem hm => exact hm.attributed
  | watch hw =>
      cases hw with
      | print o ho => exact print_attributed ho
      | _ => trivial
  | out hout =>
      cases hout with
      | print o ho => exact print_attributed ho
      | segv => trivial
  | _ => trivial

theorem StartReq.attributed {r : Req} (hr : StartReq r) : Attributed r s := by
  cases hr with
  | print o ho => exact print_attributed ho
  | _ => trivial

/-- A program without reports. -/
theorem Stops.wp_quiet {α : Type} {P : Req → Prop} {V : α → Prop} {p : Dbg α} (hp : Emits P V p)
    (hP : ∀ r s, P r → Attributed r s) :
    wp stopKernel Attributed p (fun _ _ => True) s :=
  wp_mono (fun _ _ _ => trivial)
    (hp.wp (J := fun _ => True) (fun r s hr _ => hP r s hr) (fun _ _ _ _ _ _ _ => trivial) trivial)

theorem Stops.wp_mem {α : Type} {V : α → Prop} {p : Dbg α} (hp : Emits (MemReq pid) V p) :
    wp stopKernel Attributed p (fun a s' => V a ∧ s'.stage = s.stage) s := by
  refine hp.wp (J := fun (s' : Stops) => s'.stage = s.stage) (fun _ _ hr _ => hr.attributed) ?_ rfl
  intro r s₁ x s₂ hr hs hK
  rw [← hs]
  cases hr with
  | poketext a w =>
      obtain rfl := hK
      split <;> rfl
  | _ =>
      obtain rfl : s₂ = s₁ := hK
      rfl

/-! ## Behind the `GETREGS` -/

/-- What makes the reports of a stop right. -/
def Judged (dbug : Dbug) (P : Set Word) : Option WaitEvent → Option UserRegs → Prop
  | some e, some _ => ∀ bp, firstSF dbug.bps (dbug.regs.rip - 1) = some bp →
      e = ⟨dbug.pid, .stopped (.int3 bp.addr)⟩ ∧ bp.addr ∈ P
  | _, _ => firstSF dbug.bps (dbug.regs.rip - 1) = none ∧ findCurrentHWBp dbug = none

/-- The status of an event shows a SIGTRAP for stops that do. -/
theorem showsTrap_iff {c : Change} :
    ShowsTrap c.status ↔ ∃ why, c = .stopped why ∧ why.sig = SIGTRAP := by
  cases c with
  | exited code => simp [ShowsTrap]
  | signaled sig => simp [ShowsTrap, SIGTRAP]
  | stopped why =>
      simp only [ShowsTrap, WIFEXITED_stopped, WSTOPSIG_stopped, true_and, Change.stopped.injEq]
      constructor
      · intro h
        exact ⟨why, rfl, Signal.eq_of_num h⟩
      · rintro ⟨_, rfl, h⟩
        rw [h]

theorem matchesNone_iff :
    MatchesNone dbug.bps dbug.regs ↔
      firstSF dbug.bps (dbug.regs.rip - 1) = none ∧ findCurrentHWBp dbug = none := by
  rw [firstSF_eq_none, findCurrentHWBp_eq_none]
  constructor
  · intro h
    exact ⟨fun bp hbp => (h bp hbp).1, fun bp hbp => (h bp hbp).2⟩
  · rintro ⟨hsoft, hhard⟩ bp hbp
    exact ⟨hsoft bp hbp, hhard bp hbp⟩

/-- After a failure, nothing may be found. -/
theorem judged_of_failed (hfail : ev = none ∨ regs = none) :
    Judged dbug P ev regs ↔
      firstSF dbug.bps (dbug.regs.rip - 1) = none ∧ findCurrentHWBp dbug = none := by
  rcases hfail with rfl | rfl
  · exact Iff.rfl
  · cases ev with
    | none => exact Iff.rfl
    | some e => exact Iff.rfl

/-- Where a software breakpoint is found, the event must be its INT3. -/
theorem judged_of_found {bp : Breakpoint}
    (hfirst : firstSF dbug.bps (dbug.regs.rip - 1) = some bp) :
    Judged dbug P ev regs ↔
      ∃ r, ev = some ⟨dbug.pid, .stopped (.int3 bp.addr)⟩ ∧ regs = some r ∧ bp.addr ∈ P := by
  by_cases hfail : ev = none ∨ regs = none
  · rw [judged_of_failed hfail, hfirst]
    constructor
    · rintro ⟨h, -⟩
      cases h
    · rintro ⟨r, rfl, rfl, -⟩
      rcases hfail with h | h <;> cases h
  · rw [not_or] at hfail
    obtain ⟨e, rfl⟩ := Option.ne_none_iff_exists'.mp hfail.1
    obtain ⟨r, rfl⟩ := Option.ne_none_iff_exists'.mp hfail.2
    constructor
    · intro h
      obtain ⟨he, hP⟩ := h bp hfirst
      exact ⟨r, congrArg some he, rfl, hP⟩
    · rintro ⟨_, he, -, hP⟩ bp' hbp'
      obtain rfl := Option.some.inj (hfirst.symm.trans hbp')
      exact ⟨Option.some.inj he, hP⟩

/-- The condition on the answers is the condition on what they lead to. -/
theorem unambiguous_iff (hagrees : Agrees dbug.pid ev regs) :
    Unambiguous dbug P ev regs ↔
      (ShowsTrap (storeStatus dbug.status ev) → Judged { dbug with
        status := storeStatus dbug.status ev, regs := storeRegs dbug.regs regs } P ev regs) := by
  cases ev with
  | none =>
      rw [Unambiguous, judged_of_failed (Or.inl rfl), ← matchesNone_iff]
      rfl
  | some e =>
      rw [storeStatus_some, showsTrap_iff]
      cases regs with
      | none =>
          rw [Unambiguous, judged_of_failed (Or.inr rfl), ← matchesNone_iff]
          constructor
          · rintro h ⟨why, hwhy, hsig⟩
            exact h why hwhy hsig
          · intro h why hwhy hsig
            exact h ⟨why, hwhy, hsig⟩
      | some r =>
          rw [Unambiguous, Judged]
          constructor
          · rintro h ⟨why, hwhy, hsig⟩ bp hbp
            obtain ⟨q, c⟩ := e
            obtain rfl : c = .stopped why := hwhy
            rcases h why rfl hsig with ⟨hpid, a, haP, rfl⟩ | hnone
            · obtain rfl : q = dbug.pid := hpid
              have hrip : r.rip = a + 1 := hagrees rfl
              obtain ⟨-, -, haddr⟩ := firstSF_eq_some hbp
              rw [storeRegs_some, hrip, BitVec.add_sub_cancel] at haddr
              rw [haddr]
              exact ⟨rfl, haP⟩
            · have hno := hbp.symm.trans (firstSF_eq_none.mpr hnone)
              cases hno
          · intro h why hwhy hsig
            cases hfirst : firstSF dbug.bps (r.rip - 1) with
            | none => exact Or.inr (firstSF_eq_none.mp hfirst)
            | some bp =>
                obtain ⟨he, hP⟩ : e = ⟨dbug.pid, .stopped (.int3 bp.addr)⟩ ∧ bp.addr ∈ P :=
                  h ⟨why, hwhy, hsig⟩ bp hfirst
                subst he
                exact Or.inl ⟨rfl, bp.addr, hP, (Change.stopped.inj hwhy).symm⟩

/-! ## Reporting -/

theorem Stops.wp_resume {bp : Breakpoint} {old : UserRegs} {r : UserRegs}
    (hstage : s.stage = .read pid P (some ⟨pid, .stopped (.int3 bp.addr)⟩) (some old))
    (hP : bp.addr ∈ P) :
    wp stopKernel Attributed (resumeINT3BpNext pid bp r) (fun _ s' => s'.stage = s.stage) s := by
  rw [resumeINT3BpNext]
  split
  · exact rfl
  · refine wp_seq (Stops.wp_mem emits_writeProMem) ?_
    rintro _ s₁ ⟨-, hs₁⟩
    refine wp_ask ⟨P, old, hs₁.trans hstage, hP⟩ ?_
    rintro _ s₂ rfl
    refine wp_ask trivial ?_
    rintro _ s₃ rfl
    refine wp_ask trivial ?_
    rintro ev s₄ ⟨evs, -, rfl⟩
    refine wp_seq (Stops.wp_mem emits_writeProMem) ?_
    rintro _ s₅ ⟨-, hs₅⟩
    show s₅.stage = s.stage
    rw [hs₅]
    show s₃.stage.report s₃.planted ev = s.stage
    rw [hs₁, hstage]
    rfl

/-- A hardware breakpoint may be reported of any event of this call. -/
theorem Stops.wp_triggerHW {e : WaitEvent} {r : UserRegs}
    (hstage : s.stage = .read pid P (some e) (some r)) (d : Dbug) :
    wp stopKernel Attributed (triggerHW d >>= fun _ => Prog.ret ((0 : Int), d))
      (fun _ _ => True) s := by
  rcases triggerHW_cases d with hret | ⟨a, hprint⟩
  · rw [hret]
    trivial
  · rw [hprint]
    exact wp_ask ⟨pid, P, e, r, hstage⟩ fun _ _ _ => trivial

/-- Of any other call none may be. -/
theorem Stops.triggerHW_iff (hstage : s.stage = .read dbug.pid P ev regs)
    (hfail : ev = none ∨ regs = none) :
    wp stopKernel Attributed (triggerHW dbug >>= fun _ => Prog.ret ((0 : Int), dbug))
      (fun _ _ => True) s ↔ findCurrentHWBp dbug = none := by
  rw [triggerHW]
  cases findCurrentHWBp dbug with
  | none => exact ⟨fun _ => rfl, fun _ => trivial⟩
  | some i =>
      refine ⟨fun h => ?_, fun h => by cases h⟩
      obtain ⟨q, P', e, r, heq⟩ := (wp_ask_iff.mp h).1
      rw [hstage] at heq
      obtain ⟨-, -, rfl, rfl⟩ := Stage.read.inj heq
      rcases hfail with hfail | hfail <;> cases hfail

theorem Stops.stop_iff (hstage : s.stage = .read dbug.pid P ev regs) :
    wp stopKernel Attributed
      (triggerSF dbug >>= fun d => triggerHW d >>= fun _ => Prog.ret ((0 : Int), d))
      (fun _ _ => True) s ↔ Judged dbug P ev regs := by
  cases hfirst : firstSF dbug.bps (dbug.regs.rip - 1) with
  | none =>
      rw [triggerSF_eq_ret hfirst, Prog.ret_bind]
      by_cases hfail : ev = none ∨ regs = none
      · rw [Stops.triggerHW_iff hstage hfail, judged_of_failed hfail, hfirst]
        exact ⟨fun h => ⟨rfl, h⟩, fun h => h.2⟩
      · rw [not_or] at hfail
        obtain ⟨e, rfl⟩ := Option.ne_none_iff_exists'.mp hfail.1
        obtain ⟨r, rfl⟩ := Option.ne_none_iff_exists'.mp hfail.2
        refine ⟨fun _ bp hbp => ?_, fun _ => Stops.wp_triggerHW hstage dbug⟩
        rw [hfirst] at hbp
        cases hbp
  | some bp =>
      rw [triggerSF_eq_resume hfirst, judged_of_found hfirst]
      constructor
      · intro h
        obtain ⟨q, P', r, heq, hP⟩ := (wp_ask_iff.mp (wp_bind.mp h)).1
        rw [hstage] at heq
        obtain ⟨rfl, rfl, rfl, rfl⟩ := Stage.read.inj heq
        exact ⟨r, rfl, rfl, hP⟩
      · rintro ⟨r, rfl, rfl, hP⟩
        refine wp_bind.mpr (wp_ask ⟨dbug.pid, P, r, hstage, hP⟩ ?_)
        rintro _ s₁ rfl
        refine wp_seq (Stops.wp_resume hstage hP) ?_
        intro x s₂ hs₂
        exact Stops.wp_triggerHW (hs₂.trans hstage) _

/-! ## `command_continue` -/

theorem continue_attributed_iff :
    wp stopKernel Attributed (commandContinue dbug arg) (fun _ _ => True) s ↔
      ∀ ev evs regs rest, s.events = ev :: evs → s.regs = regs :: rest →
        Agrees dbug.pid ev regs → Unambiguous dbug (s.planted dbug.pid) ev regs := by
  rw [commandContinue]
  constructor
  · intro h ev evs regs rest hevents hregs hagrees
    rw [unambiguous_iff hagrees]
    rintro ⟨hW, htrap⟩
    have hcont := (wp_ask_iff.mp h).2 true { s with stage := .resumed dbug.pid } rfl
    have hwait := (wp_ask_iff.mp hcont).2 ev _ ⟨evs, hevents, rfl⟩
    rw [if_neg (by rw [hW]; exact Bool.false_ne_true)] at hwait
    have hget := (wp_ask_iff.mp hwait).2 regs _ ⟨rest, hregs, hagrees, rfl⟩
    rw [if_pos htrap] at hget
    exact (Stops.stop_iff rfl).mp hget
  · intro h
    refine wp_ask trivial ?_
    rintro ok s₁ rfl
    refine wp_warn (fun _ _ hK => hK) trivial ?_
    refine wp_ask trivial ?_
    rintro ev s₂ ⟨evs, hevents, rfl⟩
    dsimp only
    split
    · exact wp_ask trivial fun x => x.elim
    · rename_i hW
      refine wp_ask trivial ?_
      rintro regs s₃ ⟨rest, hregs, hagrees, rfl⟩
      have hjudged := (unambiguous_iff hagrees).mp (h ev evs regs rest hevents hregs hagrees)
      split
      · rename_i htrap
        exact (Stops.stop_iff rfl).mpr (hjudged ⟨Bool.eq_false_iff.mpr hW, htrap⟩)
      · trivial

/-! ## Sessions -/

theorem play_attributed_iff :
    wp stopKernel Attributed (play arg dbug) (fun _ _ => True) s ↔ Clear arg dbug s := by
  rcases plain_or_named arg with hname | hname | hname | hname
  · refine ⟨fun _ hc => absurd ⟨nameC, by simp, hc⟩ hname, fun _ => ?_⟩
    exact Stops.wp_quiet (emits_plain hname) fun r s => PlainReq.attributed
  · rw [play_continue hname, wp_bind]
    refine Iff.trans (b := ∀ ev evs regs rest, s.events = ev :: evs → s.regs = regs :: rest →
      Agrees dbug.pid ev regs → Unambiguous dbug (s.planted dbug.pid) ev regs) ?_ ⟨fun h _ => h, fun h => h hname⟩
    exact continue_attributed_iff
  · refine ⟨fun _ hc => ?_, fun _ => ?_⟩
    · rw [hname] at hc
      cases hc
    · rw [play_dbug hname]
      exact wp_seq (Stops.wp_quiet emits_dbug fun r s => StartReq.attributed) fun _ _ h => h
  · refine ⟨fun _ hc => ?_, fun _ => ?_⟩
    · rw [hname] at hc
      cases hc
    · rw [play_attach hname]
      exact wp_seq (Stops.wp_quiet emits_attach fun r s => StartReq.attributed) fun _ _ h => h

end

/-- **When every stop is taken for what it is.**  In any session, whatever the
waits and `GETREGS` answer: if and only if each `c` is answered unambiguously. -/
theorem attributed_iff (args : List NgxArray) (s₀ : Stops) :
    Safe stopKernel Attributed (runAll play args initDbug) s₀ ↔
      AllSteps stopKernel play Clear args initDbug s₀ := by
  have hwp : wp stopKernel Attributed (runAll play args initDbug) (fun _ _ => True) s₀ ↔
      Safe stopKernel Attributed (runAll play args initDbug) s₀ := by
    rw [wp_iff]
    exact ⟨fun h => h.1, fun h => ⟨h, fun _ _ _ => trivial⟩⟩
  rw [← hwp]
  exact wp_runAll_iff (fun _ _ _ _ => trivial) (fun _ _ _ _ => play_attributed_iff) trivial

/-! ## Adjacent breakpoints -/

/-- A debuggee 7 that starts, with a function `f` at 0x1000. -/
def stopHandler : Handler Resp Stops
  | .fork, s => some (7, { s with planted := Function.update s.planted 7 ∅ })
  | .openFuns _, s => some (some [⟨lit ['f'], 0x1000⟩], s)
  | .peektext _ _, s => some (some 0x90, s)
  | .poketext pid a w, s => some (true,
      { s with planted := Function.update s.planted pid (plant a w (s.planted pid)) })
  | .pokeuser _ _ _, s => some (true, s)
  | .print _, s => some ((), s)
  | .wait, s =>
      match s.events with
      | x :: xs => some (x, { s with
          events := xs, stage := s.stage.report s.planted x, planted := afterEvent x s.planted })
      | [] => none
  | _, _ => none

theorem stopHandler_kernel (r : Req) (s : Stops) (x : Resp r) (s' : Stops)
    (h : stopHandler r s = some (x, s')) : stopKernel r s x s' := by
  cases r with
  | wait =>
      simp only [stopHandler] at h
      split at h
      · rename_i hevents
        obtain ⟨rfl, rfl⟩ := Prod.mk.inj (Option.some.inj h)
        exact ⟨_, hevents, rfl⟩
      · cases h
  | fork =>
      obtain ⟨rfl, rfl⟩ := Prod.mk.inj (Option.some.inj h)
      exact (if_pos (by decide)).symm
  | poketext pid a w =>
      obtain ⟨rfl, rfl⟩ := Prod.mk.inj (Option.some.inj h)
      exact (if_pos rfl).symm
  | _ =>
      simp only [stopHandler, Option.some.injEq, Prod.mk.injEq, reduceCtorEq] at h
      try exact h.2.symm

def adjacent : List NgxArray :=
  [typed ['d', 'b', 'u', 'g', ' ', 'p', '\n'], typed ['b', ' ', 'f', '\n'],
   typed ['w', 'a', 't', 'c', 'h', ' ', '1', '0', '0', '1', '\n']]

/-- After the start the debuggee jumps to the watched address. -/
def jumpToWatched : Stops :=
  ⟨⟨[], [], [some ⟨7, .stopped .exec⟩, some ⟨7, .stopped (.debugReg 0x1001)⟩],
    [some { rip := 0x1001 }]⟩, .idle, fun _ => ∅⟩

set_option synthInstance.maxSize 256 in
/-- A stop of the debug register at 0x1001 is taken for the breakpoint at 0x1000. -/
theorem watch_taken_for_breakpoint :
    ∃ (dbug : Dbug) (s : Stops),
      Runs stopKernel play Always initDbug jumpToWatched adjacent dbug s ∧ dbug.pid = 7 ∧
        dbug.bps.map (fun bp => (bp.type, bp.addr)) = [(.SFBP, 0x1000), (.HWBP, 0x1001)] ∧
        s.events = [some ⟨7, .stopped (.debugReg 0x1001)⟩] ∧
        ¬ Safe stopKernel Attributed (play (typed ['c', '\n']) dbug) s := by
  have heval : (eval stopHandler (runAll play adjacent initDbug) jumpToWatched).map
      (fun q => (q.1.pid, q.1.bps.map (fun bp => (bp.type, bp.addr)), q.2.events,
        q.2.regs.map (Option.map UserRegs.rip)))
        = some (7, [(.SFBP, 0x1000), (.HWBP, 0x1001)],
            [some ⟨7, .stopped (.debugReg 0x1001)⟩], [some 0x1001]) := by
    decide +kernel
  obtain ⟨⟨dbug, s⟩, hrun, hq⟩ := Option.map_eq_some_iff.mp heval
  obtain ⟨hpid, hrest⟩ := Prod.mk.inj hq
  obtain ⟨hbps, hrest⟩ := Prod.mk.inj hrest
  obtain ⟨hevents, hrips⟩ := Prod.mk.inj hrest
  obtain ⟨x, hregs, hx⟩ := List.map_eq_singleton_iff.mp hrips
  obtain ⟨regs, rfl, hrip⟩ := Option.map_eq_some_iff.mp hx
  refine ⟨dbug, s, runs_iff_ends.mpr (eval_ends stopHandler_kernel hrun), hpid, hbps, hevents,
    ?_⟩
  intro hsafe
  have hclear := play_attributed_iff.mp (wp_iff.mpr ⟨hsafe, fun _ _ _ => trivial⟩)
  have hun := hclear (by decide) _ _ _ _ hevents hregs (fun _ => hrip)
  have hentry : (BpType.SFBP, (0x1000 : Word)) ∈ dbug.bps.map (fun bp => (bp.type, bp.addr)) := by
    rw [hbps]
    exact List.mem_cons_self
  obtain ⟨bp, hbp, heq⟩ := List.mem_map.mp hentry
  obtain ⟨htype, haddr⟩ := Prod.mk.inj heq
  rcases hun _ rfl rfl with ⟨-, a, -, hint3⟩ | hnone
  · cases hint3
  · refine hnone bp hbp htype ?_
    rw [show regs.rip = 0x1001 from hrip]
    exact haddr

end TestDbug
