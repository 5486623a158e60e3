/-
# `TestDbug.Signals` — what becomes of the debuggee's signals

Every `PTRACE_CONT` and `PTRACE_SINGLESTEP` of the debugger carries 0 as its
signal, and nothing in it looks at `WSTOPSIG` for any other purpose than to
recognise a SIGTRAP.  The kernel of this module follows the signals of one
debuggee: `arrived` are those it stopped for, `got` the numbers handed to it,
`lost` those it was resumed without.

So the debugger takes every signal away from the program: at every prompt, and
at every request in between, what has arrived is lost, but for the one signal
the debuggee may be stopped for (`signals_are_discarded`).  The one signal it
sends itself is the SIGKILL of `command_exit`, right before its own exit.
-/
import TestDbug.Effects

open ByteMemory Interaction

namespace TestDbug

/-- The signals of one debuggee. -/
structure Delivery where
  running : Bool
  /-- The signal of the stop it is in. -/
  pending : Option Signal
  arrived : List Signal
  got : List Nat
  lost : List Signal

/-- Not stopped yet. -/
def Delivery.start : Delivery := ⟨true, none, [], [], []⟩

/-- It stops. -/
def Delivery.stop (s : Delivery) : Stop → Delivery
  | .signal sig => { s with running := false, pending := some sig, arrived := s.arrived ++ [sig] }
  | _ => { s with running := false, pending := none }

/-- It is resumed with `data`: 0 delivers nothing. -/
def Delivery.resume (s : Delivery) (data : Nat) : Delivery :=
  match s.pending with
  | none => { s with running := true }
  | some sig =>
      { s with
        running := true
        pending := none
        got := if data = 0 then s.got else s.got ++ [data]
        lost := if data = sig.num then s.lost else s.lost ++ [sig] }

/-- A wait that reports `ev` to the tracer of `q`. -/
def Delivery.Sees (q : Pid) (s : Delivery) (ev : Option WaitEvent) (s' : Delivery) : Prop :=
  (∃ why, ev = some ⟨q, .stopped why⟩ ∧ s.running = true ∧ s' = s.stop why) ∨
    ((∀ why, ev ≠ some ⟨q, .stopped why⟩) ∧ s' = s)

/-- A request to go on with `data`, which only a stopped process can meet. -/
def Delivery.GoesOn (s : Delivery) (data : Nat) (ok : Bool) (s' : Delivery) : Prop :=
  (ok = true ∧ s.running = false ∧ s' = s.resume data) ∨ (ok = false ∧ s' = s)

/-- A `kill` of this process, or of its group, gives it the signal at once. -/
def Delivery.kill (s : Delivery) (sig : Signal) : Delivery := { s with got := s.got ++ [sig.num] }

/-- The signals of the process `q`. -/
def sigKernel (q : Pid) : Kernel Resp Delivery
  | .cont pid data, s, x, s' => if pid = q then s.GoesOn data x s' else s' = s
  | .singlestep pid data, s, x, s' => if pid = q then s.GoesOn data x s' else s' = s
  | .wait, s, x, s' => s.Sees q x s'
  | .waitpid _, s, x, s' => s.Sees q x s'
  | .kill pid sig, s, _, s' => s' = s ∨ ((pid = q ∨ pid ≤ 0) ∧ s' = s.kill sig)
  | _, s, _, s' => s' = s

/-! ## The law -/

/-- It sends no signal, but for the SIGKILL of `command_exit`. -/
def Unsignalled : Req → Prop
  | .cont _ data | .singlestep _ data => data = 0
  | .kill _ sig => sig = SIGKILL
  | _ => True

/-- Nothing delivered, and nothing forgotten: an arrived signal is lost, or is
the one of the present stop. -/
structure Discarded (s : Delivery) : Prop where
  got_nil : s.got = []
  lost_eq : s.lost ++ s.pending.toList = s.arrived
  idle : s.running = true → s.pending = none

/-- The law for a request: nothing has been delivered, and nothing is now.  At an
exit there may have been the SIGKILL. -/
def Withheld : Req → Delivery → Prop
  | .exit _, s =>
      s.lost ++ s.pending.toList = s.arrived ∧ (s.got = [] ∨ s.got = [SIGKILL.num])
  | r, s => Unsignalled r ∧ Discarded s

/-- The program has received what it would have received undebugged, up to the
signal of the present stop. -/
def Delivered (s : Delivery) : Prop :=
  s.got ++ s.pending.toList.map Signal.num = s.arrived.map Signal.num

section
variable {q : Pid} {s s' : Delivery}

theorem Discarded.start : Discarded .start := ⟨rfl, rfl, fun _ => rfl⟩

theorem Discarded.stop (h : Discarded s) (hrun : s.running = true) (why : Stop) :
    Discarded (s.stop why) := by
  have hlost := h.lost_eq
  rw [h.idle hrun, Option.toList_none, List.append_nil] at hlost
  cases why with
  | signal sig =>
      refine ⟨h.got_nil, ?_, fun hr => by cases hr⟩
      show s.lost ++ [sig] = s.arrived ++ [sig]
      rw [hlost]
  | _ =>
      refine ⟨h.got_nil, ?_, fun _ => rfl⟩
      show s.lost ++ [] = s.arrived
      rw [List.append_nil, hlost]

/-- No signal has the number 0, so 0 delivers none. -/
theorem Discarded.resume (h : Discarded s) : Discarded (s.resume 0) := by
  have hlost := h.lost_eq
  rw [Delivery.resume]
  cases hp : s.pending with
  | none =>
      rw [hp] at hlost
      exact ⟨h.got_nil, hlost, fun _ => rfl⟩
  | some sig =>
      rw [hp] at hlost
      have hpos : ¬ 0 = sig.num := Nat.ne_of_lt sig.pos
      refine ⟨by simp [h.got_nil], ?_, fun _ => rfl⟩
      simpa [hpos] using hlost

theorem Discarded.sees (h : Discarded s) {ev : Option WaitEvent} (hs : s.Sees q ev s') :
    Discarded s' := by
  rcases hs with ⟨why, -, hrun, rfl⟩ | ⟨-, rfl⟩
  · exact h.stop hrun why
  · exact h

theorem Discarded.goesOn (h : Discarded s) {ok : Bool} (hs : s.GoesOn 0 ok s') :
    Discarded s' := by
  rcases hs with ⟨-, -, rfl⟩ | ⟨-, rfl⟩
  · exact h.resume
  · exact h

/-! ## The requests of the debugger -/

/-- The requests that are no `kill`. -/
def Mild (r : Req) : Prop := Unsignalled r ∧ ∀ pid sig, r ≠ .kill pid sig

theorem MemReq.mild {pid : Pid} {r : Req} (h : MemReq pid r) : Mild r := by
  cases h <;> simp [Mild, Unsignalled]

theorem OutReq.mild {r : Req} (h : OutReq r) : Mild r := by
  cases h <;> simp [Mild, Unsignalled]

theorem ContReq.mild {pid : Pid} {r : Req} (h : ContReq pid r) : Mild r := by
  cases h with
  | mem hm => exact hm.mild
  | _ => simp [Mild, Unsignalled]

theorem WatchReq.mild {pid : Pid} {r : Req} (h : WatchReq pid r) : Mild r := by
  cases h <;> simp [Mild, Unsignalled]

theorem StartReq.mild {r : Req} (h : StartReq r) : Mild r := by
  cases h <;> simp [Mild, Unsignalled]

theorem Mild.withheld {r : Req} (hr : Mild r) (h : Discarded s) : Withheld r s := by
  cases r with
  | exit => exact ⟨h.lost_eq, Or.inl h.got_nil⟩
  | _ => exact ⟨hr.1, h⟩

/-- What a request that is no `kill` leaves. -/
theorem Mild.step {r : Req} {x : Resp r} (hr : Mild r) (h : Discarded s)
    (hK : sigKernel q r s x s') : Discarded s' := by
  cases r with
  | cont pid data =>
      obtain rfl : data = 0 := hr.1
      simp only [sigKernel] at hK
      split at hK
      · exact h.goesOn hK
      · obtain rfl := hK
        exact h
  | singlestep pid data =>
      obtain rfl : data = 0 := hr.1
      simp only [sigKernel] at hK
      split at hK
      · exact h.goesOn hK
      · obtain rfl := hK
        exact h
  | wait => exact h.sees hK
  | waitpid pid => exact h.sees hK
  | kill pid sig => exact absurd rfl (hr.2 pid sig)
  | _ =>
      obtain rfl : s' = s := hK
      exact h

/-- A command that kills nothing. -/
theorem wp_mild {p : Dbg Dbug} {V : Dbug → Prop} (hp : Emits Mild V p) (h : Discarded s) :
    wp (sigKernel q) Withheld p (fun _ => Discarded) s :=
  wp_mono (fun _ _ hd => hd.2)
    (hp.wp (J := Discarded) (fun _ _ hr hd => hr.withheld hd)
      (fun _ _ _ _ hr hd hK => hr.step hd hK) h)

/-- `command_exit` kills, and asks for nothing more than its exit. -/
theorem wp_exit (dbug : Dbug) (arg : NgxArray) (h : Discarded s) :
    wp (sigKernel q) Withheld (commandExit dbug arg >>= fun x => Prog.ret x.2)
      (fun _ => Discarded) s := by
  rw [commandExit, Prog.bind_assoc]
  refine wp_ask ⟨rfl, h⟩ ?_
  rintro x s₁ (rfl | ⟨-, rfl⟩)
  · exact ⟨⟨h.lost_eq, Or.inl h.got_nil⟩, fun y => y.elim⟩
  · refine ⟨⟨h.lost_eq, Or.inr ?_⟩, fun y => y.elim⟩
    show s.got ++ [SIGKILL.num] = [SIGKILL.num]
    rw [h.got_nil, List.nil_append]

theorem play_withheld (arg : NgxArray) (dbug : Dbug) (h : Discarded s) :
    wp (sigKernel q) Withheld (play arg dbug) (fun _ => Discarded) s := by
  refine play_cases (motive := fun p => wp (sigKernel q) Withheld p (fun _ => Discarded) s) ?_ ?_
  · exact wp_mild (V := fun _ => True) ⟨by simp [Mild, Unsignalled], fun _ => trivial⟩ h
  · simp only [cmdSet, List.forall_mem_cons, List.not_mem_nil, false_implies, implies_true,
      and_true]
    generalize { dbug with cmd := arg } = d
    have hmild : ∀ {P : Req → Prop} {V : Int × Dbug → Prop} {p : Dbg (Int × Dbug)},
        Emits P V p → (∀ r, P r → Mild r) →
        wp (sigKernel q) Withheld (p >>= fun x => Prog.ret x.2) (fun _ => Discarded) s :=
      fun hp hP => wp_mild (V := fun _ => True)
        ((hp.mono hP fun _ hv => hv).seq fun _ _ => trivial) h
    have hregs : ∀ r, (OutReq r ∨ r = .getregs d.pid) → Mild r := by
      rintro r (hr | rfl)
      · exact hr.mild
      · simp [Mild, Unsignalled]
    exact ⟨fun _ => hmild emits_break fun _ => MemReq.mild,
      fun _ => hmild emits_continue fun _ => ContReq.mild,
      fun _ => hmild emits_show fun _ => OutReq.mild,
      fun _ => hmild emits_dbug fun _ => StartReq.mild,
      fun _ => hmild emits_attach fun _ => StartReq.mild,
      fun _ => hmild emits_showreg hregs,
      fun _ => hmild emits_watch fun _ => WatchReq.mild,
      fun _ => wp_exit d arg h, fun _ => wp_exit d arg h, fun _ => wp_exit d arg h,
      fun _ => hmild emits_showbps fun _ => OutReq.mild⟩

/-- **The debugger keeps every signal from the debuggee.**  In any session,
whatever stops the waits report: it passes none on, the program has received
none but the SIGKILL that ends it, and each one it stopped for was dropped when
it was next resumed. -/
theorem signals_are_discarded (q : Pid) (args : List NgxArray) :
    Safe (sigKernel q) Withheld (runAll play args initDbug) .start ∧
      ∀ dbug s, Ends (sigKernel q) (runAll play args initDbug) .start dbug s → Discarded s := by
  have hwp : ∀ (args : List NgxArray) dbug s, Discarded s →
      wp (sigKernel q) Withheld (runAll play args dbug) (fun _ => Discarded) s := by
    intro args
    induction args with
    | nil => exact fun _ _ h => h
    | cons arg args ih =>
        exact fun dbug s h => wp_seq (play_withheld arg dbug h) fun d s' hd => ih d s' hd
  have hsession := hwp args initDbug .start .start
  exact ⟨hsession.safe, fun dbug s he => hsession.ends he⟩

end

/-! ## Two signals -/

def SIGUSR1 : Signal := ⟨10, by decide, by decide⟩
def SIGUSR2 : Signal := ⟨12, by decide, by decide⟩

/-- A process 7 that is sent SIGUSR1 and then SIGUSR2. -/
def sigHandler : Handler Resp Delivery
  | .attach pid, s => if pid = 7 then some (true, s) else none
  | .waitpid pid, s =>
      if pid = 7 ∧ s.running then some (some ⟨7, .stopped .attach⟩, s.stop .attach) else none
  | .cont pid data, s => if pid = 7 ∧ s.running = false then some (true, s.resume data) else none
  | .wait, s =>
      if s.running then
        let why := if s.arrived = [] then .signal SIGUSR1 else .signal SIGUSR2
        some (some ⟨7, .stopped why⟩, s.stop why)
      else none
  | .getregs _, s => some (some {}, s)
  | .openFuns _, s => some (none, s)
  | .print _, s => some ((), s)
  | _, _ => none

theorem sigHandler_kernel (r : Req) (s : Delivery) (x : Resp r) (s' : Delivery)
    (h : sigHandler r s = some (x, s')) : sigKernel 7 r s x s' := by
  cases r with
  | cont pid data =>
      simp only [sigHandler, Option.ite_none_right_eq_some, Option.some.injEq, Prod.mk.injEq] at h
      obtain ⟨⟨rfl, hrun⟩, rfl, rfl⟩ := h
      exact Or.inl ⟨rfl, hrun, rfl⟩
  | wait =>
      simp only [sigHandler, Option.ite_none_right_eq_some, Option.some.injEq, Prod.mk.injEq] at h
      obtain ⟨hrun, rfl, rfl⟩ := h
      exact Or.inl ⟨_, rfl, hrun, rfl⟩
  | waitpid pid =>
      simp only [sigHandler, Option.ite_none_right_eq_some, Option.some.injEq, Prod.mk.injEq] at h
      obtain ⟨⟨-, hrun⟩, rfl, rfl⟩ := h
      exact Or.inl ⟨_, rfl, hrun, rfl⟩
  | _ =>
      simp only [sigHandler, Option.ite_none_right_eq_some, Option.some.injEq, Prod.mk.injEq,
        reduceCtorEq] at h
      try grind [sigKernel]

/-- Attach, and continue twice. -/
def twoSignals : List NgxArray :=
  [typed ['a', 't', 't', 'a', 'c', 'h', ' ', '7', '\n'], typed ['c', '\n'], typed ['c', '\n']]

/-- SIGUSR1 has arrived, the program has gone on, and it has not received it. -/
theorem signal_is_not_delivered :
    ∃ (dbug : Dbug) (s : Delivery),
      Runs (sigKernel 7) play Always initDbug .start twoSignals dbug s ∧
        s.arrived = [SIGUSR1, SIGUSR2] ∧ s.got = [] ∧ ¬ Delivered s := by
  have heval : (eval sigHandler (runAll play twoSignals initDbug) .start).map
      (fun q => (q.2.arrived, q.2.got, q.2.pending)) = some ([SIGUSR1, SIGUSR2], [], some SIGUSR2) := by
    decide +kernel
  obtain ⟨⟨dbug, s⟩, hrun, hq⟩ := Option.map_eq_some_iff.mp heval
  obtain ⟨harrived, hrest⟩ := Prod.mk.inj hq
  obtain ⟨hgot, hpending⟩ := Prod.mk.inj hrest
  refine ⟨dbug, s, runs_iff_ends.mpr (eval_ends sigHandler_kernel hrun), harrived, hgot, ?_⟩
  rw [Delivered, harrived, hgot, hpending]
  decide

end TestDbug
