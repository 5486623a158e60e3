/-
# `TestDbug.Waits` — whose events the waits report

`wait` reports an event of any process the debugger has started or attached to
and not yet buried.  Only `attach_pro` names the process it waits for
(`waitpid`); `dbug_pro`, `command_continue` and `resume_INT3_bp_next` take
whatever comes.

The kernel of this module keeps the list of these processes, hands over an
event of any of them at any wait, and collects in `strays` the events of
processes other than the one the debugger has just started, resumed or
attached to.  `no_stray_iff` says when a session has none, in whatever order
events arrive: when no other process is left over at each `dbug` and each `c`.
-/
import TestDbug.Effects
import Mathlib.Data.Fintype.EquivFin

open ByteMemory Interaction

namespace TestDbug

/-- The processes that can answer a wait, and what the waits have reported. -/
structure Family where
  alive : List Pid
  /-- The process last started, resumed or attached to. -/
  awaited : Option Pid
  strays : List WaitEvent

def Family.start : Family := ⟨[], none, []⟩

/-- A wait that reports `e`. -/
def Family.report (s : Family) (e : WaitEvent) : Family where
  alive := if e.change.isEnd then s.alive.filter (· ≠ e.pid) else s.alive
  awaited := s.awaited
  strays := if s.awaited = some e.pid then s.strays else s.strays ++ [e]

/-- `fork`, `attach` and the waits on a family.  The child of a `fork` has no
family of its own. -/
def familyKernel : Kernel Resp Family
  | .fork, s, x, s' =>
      (x < 0 ∧ s' = s) ∨ (x = 0 ∧ s' = { s with alive := [], awaited := none }) ∨
        (0 < x ∧ x ∉ s.alive ∧ s' = { s with alive := x :: s.alive, awaited := some x })
  | .attach pid, s, x, s' =>
      (x = false ∧ s' = s) ∨
        (x = true ∧ pid ∉ s.alive ∧ s' = { s with alive := pid :: s.alive, awaited := some pid })
  | .cont pid _, s, _, s' | .singlestep pid _, s, _, s' => s' = { s with awaited := some pid }
  | .wait, s, x, s' =>
      (x = none ∧ s.alive = [] ∧ s' = s) ∨ ∃ e, x = some e ∧ e.pid ∈ s.alive ∧ s' = s.report e
  | .waitpid pid, s, x, s' =>
      (x = none ∧ pid ∉ s.alive ∧ s' = s) ∨
        ∃ e, x = some e ∧ e.pid = pid ∧ pid ∈ s.alive ∧ s' = s.report e
  | _, s, _, s' => s' = s

/-! ## The law -/

/-- Every event reported so far was one of the process waited for. -/
def NoStray (s : Family) : Prop := s.strays = []

/-- No other process is left when the command is `dbug`, or `c` on `dbug->pid`. -/
def Alone (arg : NgxArray) (dbug : Dbug) (s : Family) : Prop :=
  (arg.str 0 = some nameDbug → s.alive = []) ∧
    (arg.str 0 = some nameC → ∀ q ∈ s.alive, q = dbug.pid)

section
variable {s s' : Family} {dbug : Dbug} {arg : NgxArray} {pid : Pid} {e : WaitEvent}

/-- Only `p` can answer, and it is waited for. -/
structure OnlyFrom (p : Pid) (s : Family) : Prop where
  noStray : NoStray s
  alone : ∀ q ∈ s.alive, q = p
  awaited : s.awaited = some p

theorem NoStray.report (h : NoStray s) (he : s.awaited = some e.pid) : NoStray (s.report e) := by
  rw [NoStray, Family.report, if_pos he]
  exact h

theorem OnlyFrom.report (h : OnlyFrom pid s) (he : e.pid ∈ s.alive) :
    OnlyFrom pid (s.report e) := by
  have haw : s.awaited = some e.pid := by rw [h.alone _ he, h.awaited]
  refine ⟨h.noStray.report haw, ?_, h.awaited⟩
  intro q hq
  rw [Family.report] at hq
  dsimp only at hq
  split at hq
  · exact h.alone q (List.mem_filter.mp hq).1
  · exact h.alone q hq

theorem OnlyFrom.wait (h : OnlyFrom pid s) {x : Option WaitEvent}
    (hK : familyKernel .wait s x s') : OnlyFrom pid s' := by
  rcases hK with ⟨-, -, rfl⟩ | ⟨e, -, he, rfl⟩
  · exact h
  · exact h.report he

/-- An event of a process that is not waited for. -/
theorem not_noStray_report (he : s.awaited ≠ some e.pid) :
    ¬ NoStray (s.report e) := by
  rw [NoStray, Family.report, if_neg he]
  simp

/-- Requests that say nothing to the family. -/
def Silent : Req → Prop
  | .fork | .attach _ | .cont _ _ | .singlestep _ _ | .wait | .waitpid _ => False
  | _ => True

theorem familyKernel_silent {r : Req} (hr : Silent r) {x : Resp r}
    (hK : familyKernel r s x s') : s' = s := by
  cases r with
  | fork | attach | cont | singlestep | wait | waitpid => cases hr
  | _ => exact hK

theorem MemReq.silent {r : Req} (h : MemReq pid r) : Silent r := by
  cases h <;> trivial

theorem PlainReq.silent {r : Req} (h : PlainReq pid r) : Silent r := by
  cases h with
  | mem hm => exact hm.silent
  | watch hw => cases hw <;> trivial
  | out ho => cases ho <;> trivial
  | _ => trivial

theorem Family.wp_silent {α : Type} {V : α → Prop} {p : Dbg α} (hp : Emits Silent V p)
    {J : Family → Prop} (h : J s) :
    wp familyKernel (fun _ => J) p (fun _ => J) s := by
  refine wp_mono (fun _ _ h => h.2) (hp.wp (J := J) (fun _ _ _ h => h) ?_ h)
  intro r s x s' hr hs hK
  rw [familyKernel_silent hr hK]
  exact hs

/-! ## `command_continue` -/

theorem contReq_onlyFrom {r : Req} (hr : ContReq pid r) (h : OnlyFrom pid s) {x : Resp r}
    (hK : familyKernel r s x s') : OnlyFrom pid s' := by
  cases hr with
  | mem hm =>
      rw [familyKernel_silent hm.silent hK]
      exact h
  | cont =>
      obtain rfl : s' = { s with awaited := some pid } := hK
      exact ⟨h.noStray, h.alone, rfl⟩
  | singlestep =>
      obtain rfl : s' = { s with awaited := some pid } := hK
      exact ⟨h.noStray, h.alone, rfl⟩
  | wait => exact h.wait hK
  | getregs | setregs | exit | print =>
      obtain rfl : s' = s := hK
      exact h

theorem Family.continue_iff (h : NoStray s) :
    wp familyKernel (fun _ => NoStray) (commandContinue dbug arg) (fun _ => NoStray) s ↔
      ∀ q ∈ s.alive, q = dbug.pid := by
  constructor
  · intro hwp q hq
    by_contra hne
    -- the other process is killed, and its death is what the wait reports
    rw [commandContinue] at hwp
    have hcont := (wp_ask_iff.mp hwp).2 true { s with awaited := some dbug.pid } rfl
    have hwait := (wp_ask_iff.mp hcont).2 (some ⟨q, .signaled SIGKILL⟩) _ (Or.inr ⟨_, rfl, hq, rfl⟩)
    have hstray : ¬ NoStray (Family.report { s with awaited := some dbug.pid }
        ⟨q, .signaled SIGKILL⟩) :=
      not_noStray_report (fun heq => hne (Option.some.inj heq).symm)
    exact hstray (wp.start hwait)
  · intro halone
    have hrest : Emits (ContReq dbug.pid) _ (commandContinue dbug arg) := emits_continue
    rw [commandContinue] at hrest ⊢
    refine wp_ask h ?_
    rintro ok s' rfl
    have honly : OnlyFrom dbug.pid { s with awaited := some dbug.pid } := ⟨h, halone, rfl⟩
    exact wp_mono (fun _ _ h => h.2.noStray) ((hrest.2 ok).wp (J := OnlyFrom dbug.pid)
      (fun _ _ _ h => h.noStray) (fun _ _ _ _ hr h hK => contReq_onlyFrom hr h hK) honly)

/-! ## `command_dbug` and `command_attach` -/

theorem exists_fresh (l : List Pid) : ∃ p : Pid, 0 < p ∧ p ∉ l := by
  obtain ⟨n, hn⟩ := Infinite.exists_notMem_finset (insert 0 (l.map Int.toNat).toFinset)
  simp only [Finset.mem_insert, List.mem_toFinset, List.mem_map, not_or, not_exists] at hn
  refine ⟨(n : Int), Int.natCast_pos.mpr (Nat.pos_of_ne_zero hn.1), ?_⟩
  intro hmem
  exact hn.2 _ ⟨hmem, Int.toNat_natCast n⟩

theorem ChildReq.silent {r : Req} (h : ChildReq r) : Silent r := by
  cases h <;> trivial

theorem Family.wp_dbugPro (h : NoStray s) (halone : s.alive = []) {path : Option CStr}
    {argv : List (Option CStr)} :
    wp familyKernel (fun _ => NoStray) (dbugPro dbug path argv) (fun _ => NoStray) s := by
  refine TestDbug.wp_dbugPro (fun r s x s' hr hK => familyKernel_silent hr.silent hK) h ?_ ?_
  · rintro pid s' (⟨-, rfl⟩ | ⟨-, rfl⟩ | ⟨hpos, -⟩) hle
    · exact ⟨fun _ _ => h, h⟩
    · exact ⟨fun _ _ => h, h⟩
    · exact absurd hle (Int.not_le.mpr hpos)
  · rintro pid s' (⟨hneg, -⟩ | ⟨hzero, -⟩ | ⟨-, -, rfl⟩) hpos
    · exact absurd hneg (Int.not_lt.mpr (Int.le_of_lt hpos))
    · exact absurd hzero (Int.ne_of_gt hpos)
    · have honly : OnlyFrom pid { s with alive := pid :: s.alive, awaited := some pid } := by
        refine ⟨h, fun q hq => ?_, rfl⟩
        rw [halone] at hq
        exact List.mem_singleton.mp hq
      refine ⟨h, fun ev s' hK => ?_⟩
      exact Family.wp_silent (emits_install trivial) (honly.wait hK).noStray

theorem Family.dbug_iff (h : NoStray s) :
    wp familyKernel (fun _ => NoStray) (commandDbug dbug arg) (fun _ => NoStray) s ↔
      s.alive = [] := by
  constructor
  · intro hwp
    by_contra hne
    obtain ⟨q, hq⟩ := List.exists_mem_of_ne_nil _ hne
    obtain ⟨p, hpos, hp⟩ := exists_fresh s.alive
    -- the child of the fork is waited for, and the other process is killed
    obtain ⟨argv, hargv⟩ : ∃ argv, Ends familyKernel (copyArgv arg arg.nelts 0) s argv s :=
      ends_copyArgv fun k => ⟨none, rfl⟩
    rw [commandDbug] at hwp
    have hpro := wp_bind.mp ((wp_bind.mp hwp).ends hargv)
    rw [dbugPro] at hpro
    have hfork := (wp_ask_iff.mp hpro).2 p _ (Or.inr (Or.inr ⟨hpos, hp, rfl⟩))
    rw [if_neg (Int.ne_of_gt hpos), if_neg (Int.not_lt.mpr (Int.le_of_lt hpos))] at hfork
    have hwait := (wp_ask_iff.mp hfork).2 (some ⟨q, .signaled SIGKILL⟩) _
      (Or.inr ⟨_, rfl, List.mem_cons_of_mem p hq, rfl⟩)
    refine not_noStray_report ?_ (wp.start hwait)
    intro heq
    obtain rfl := Option.some.inj heq
    exact hp hq
  · intro halone
    rw [commandDbug, wp_bind]
    refine wp_copyArgv (fun k x s' hK => hK) (fun _ => h) arg fun argv => ?_
    exact wp_seq (Family.wp_dbugPro h halone) fun _ _ h => h

/-- `attach_pro` waits for its process alone. -/
theorem Family.wp_attach (h : NoStray s) :
    wp familyKernel (fun _ => NoStray) (commandAttach dbug arg) (fun _ => NoStray) s := by
  rw [commandAttach]
  split
  · exact Family.wp_silent (V := fun _ => True) (p := crash) ⟨trivial, fun x => x.elim⟩ h
  · refine wp_seq (Q := fun _ => NoStray) ?_ fun _ _ h => h
    refine wp_attachPro (fun o s x s' hK => hK) h ?_ ?_
    · rintro s' (⟨-, rfl⟩ | ⟨hok, -⟩)
      · exact ⟨fun _ _ => h, h⟩
      · cases hok
    · rintro s' (⟨hok, -⟩ | ⟨-, -, rfl⟩)
      · cases hok
      · refine ⟨h, fun ev s' hK => ?_⟩
        have hs' : NoStray s' := by
          rcases hK with ⟨-, -, rfl⟩ | ⟨e, -, he, -, rfl⟩
          · exact h
          · refine NoStray.report h ?_
            rw [he]
        exact ⟨fun _ _ => hs', Family.wp_silent (emits_install trivial) hs'⟩

/-! ## Sessions -/

/-- One command, whatever it is. -/
theorem Family.play_iff (h : NoStray s) :
    wp familyKernel (fun _ => NoStray) (play arg dbug) (fun _ => NoStray) s ↔ Alone arg dbug s := by
  have hnames : some nameDbug ≠ some nameC := by decide
  rcases plain_or_named arg with hplain | hc | hdbug | hattach
  · have hwp : wp familyKernel (fun _ => NoStray) (play arg dbug) (fun _ => NoStray) s :=
      Family.wp_silent ((emits_plain hplain).mono (fun _ => PlainReq.silent) fun _ h => h) h
    refine ⟨fun _ => ⟨fun hn => ?_, fun hn => ?_⟩, fun _ => hwp⟩
    · exact absurd ⟨nameDbug, by simp, hn⟩ hplain
    · exact absurd ⟨nameC, by simp, hn⟩ hplain
  · rw [play_continue hc, wp_bind, Alone, hc]
    exact (Family.continue_iff h).trans ⟨fun hs => ⟨fun hn => absurd hn.symm hnames, fun _ => hs⟩,
      fun ha => ha.2 rfl⟩
  · rw [play_dbug hdbug, wp_bind, Alone, hdbug]
    exact (Family.dbug_iff h).trans ⟨fun hs => ⟨fun _ => hs, fun hn => absurd hn hnames⟩,
      fun ha => ha.1 rfl⟩
  · have hwp : wp familyKernel (fun _ => NoStray) (commandAttach { dbug with cmd := arg } arg)
        (fun _ => NoStray) s := Family.wp_attach h
    rw [play_attach hattach, wp_bind, Alone, hattach]
    refine ⟨fun _ => ⟨fun hn => ?_, fun hn => ?_⟩, fun _ => hwp⟩
    · exact absurd hn (by decide)
    · exact absurd hn (by decide)

end

/-- **When every wait reports the process it is meant for.**  In a session of
any commands, whatever events arrive and in whatever order: if and only if no
other process is left at each `dbug`, and none but `dbug->pid` at each `c`. -/
theorem no_stray_iff (args : List NgxArray) :
    (Safe familyKernel (fun _ => NoStray) (runAll play args initDbug) .start ∧
      ∀ dbug s, Ends familyKernel (runAll play args initDbug) .start dbug s → NoStray s) ↔
    AllSteps familyKernel play Alone args initDbug .start := by
  rw [← wp_iff]
  exact wp_runAll_iff (fun _ _ _ h => wp.start h) (fun _ _ _ h => Family.play_iff h) rfl

/-! ## A second debuggee -/

/-- Two programs are started; the first is killed as the second is forked. -/
def familyHandler : Handler Resp Family
  | .fork, s =>
      let x := if s.alive = [] then 7 else 8
      if x ∉ s.alive then some (x, { s with alive := x :: s.alive, awaited := some x }) else none
  | .wait, s =>
      if s.alive = [7] then some (some ⟨7, .stopped .exec⟩, s.report ⟨7, .stopped .exec⟩)
      else if 7 ∈ s.alive then
        some (some ⟨7, .signaled SIGKILL⟩, s.report ⟨7, .signaled SIGKILL⟩)
      else none
  | .openFuns _, s => some (none, s)
  | .print _, s => some ((), s)
  | _, _ => none

theorem familyHandler_kernel (r : Req) (s : Family) (x : Resp r) (s' : Family)
    (h : familyHandler r s = some (x, s')) : familyKernel r s x s' := by
  cases r with
  | fork =>
      simp only [familyHandler, Option.ite_none_right_eq_some, Option.some.injEq,
        Prod.mk.injEq] at h
      obtain ⟨hfresh, rfl, rfl⟩ := h
      refine Or.inr (Or.inr ⟨?_, hfresh, rfl⟩)
      split <;> decide
  | wait =>
      simp only [familyHandler] at h
      split at h
      · rename_i halive
        obtain ⟨rfl, rfl⟩ := Prod.mk.inj (Option.some.inj h)
        exact Or.inr ⟨_, rfl, by simp [halive], rfl⟩
      · obtain ⟨hmem, h⟩ := Option.ite_none_right_eq_some.mp h
        obtain ⟨rfl, rfl⟩ := Prod.mk.inj (Option.some.inj h)
        exact Or.inr ⟨_, rfl, hmem, rfl⟩
  | _ =>
      simp only [familyHandler, Option.some.injEq, Prod.mk.injEq, reduceCtorEq] at h
      try exact h.2.symm

def twoPrograms : List NgxArray :=
  [typed ['d', 'b', 'u', 'g', ' ', 'a', '\n'], typed ['d', 'b', 'u', 'g', ' ', 'b', '\n']]

/-- The death of the first program is taken for the first stop of the second. -/
theorem stray_event :
    ∃ (dbug : Dbug) (s : Family),
      Runs familyKernel play Always initDbug .start twoPrograms dbug s ∧ dbug.pid = 8 ∧
        s.strays = [⟨7, .signaled SIGKILL⟩] ∧ ¬ NoStray s := by
  have heval : (eval familyHandler (runAll play twoPrograms initDbug) .start).map
      (fun q => (q.1.pid, q.2.strays)) = some (8, [⟨7, .signaled SIGKILL⟩]) := by
    decide +kernel
  obtain ⟨⟨dbug, s⟩, hrun, hq⟩ := Option.map_eq_some_iff.mp heval
  obtain ⟨hpid, hstrays⟩ := Prod.mk.inj hq
  refine ⟨dbug, s, runs_iff_ends.mpr (eval_ends familyHandler_kernel hrun), hpid, hstrays, ?_⟩
  rw [NoStray]
  rw [hstrays]
  exact List.cons_ne_nil _ _

end TestDbug
