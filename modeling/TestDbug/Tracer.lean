/-
# `TestDbug.Tracer` — the loops that print `write`

`blog/getsyscall.c` and `blog/dbug.c` stop their child at every system call,
before and behind it, and print the calls of `write`.  Nothing in a stop says
whether it is before or behind; `iscalling` changes at every stop that shows
the number of `write`, and a stop for a signal may show it as well.

`writes_pair_up_iff` says for which stops every record is of one call: whatever
is in the other registers, the arguments are those before the call, the result
is that behind it, and no call is left out.
-/
import TestDbug.Ptrace

open ByteMemory Interaction

namespace TestDbug

/-! ## The two programs -/

def SYS_write : BitVec 32 := 1

/-- `orig_rax == SYS_write`, where `orig_rax` is an `int`. -/
def IsWrite (orig_rax : Word) : Prop := orig_rax.setWidth 32 = SYS_write

instance decIsWrite (orig_rax : Word) : Decidable (IsWrite orig_rax) :=
  inferInstanceAs (Decidable (orig_rax.setWidth 32 = SYS_write))

/-- `%lld = write(%ld,"%s",%ld)`. -/
structure WriteLine where
  rax : Word
  arg1 : Word
  text : CStr
  arg3 : Word
deriving DecidableEq

inductive TracerReq where
  | wait
  | getregs
  /-- `PTRACE_SYSCALL`. -/
  | syscall
  | peekdata (addr : Word)
  /-- A string of the tracer's own memory. -/
  | string (addr : Word)
  | printf (line : WriteLine)
  | perror (text : String)

/-- The answers.  `wait` answers with the status. -/
@[reducible] def TracerResp : TracerReq → Type
  | .wait => Option Nat
  | .getregs => Option UserRegs
  | .syscall => Bool
  | .peekdata _ => Option Word
  | .string _ => CStr
  | .printf _ | .perror _ => Unit

/-- A piece of a tracer. -/
abbrev Trc (α : Type) := Prog TracerReq TracerResp α

abbrev trc (r : TracerReq) : Trc (TracerResp r) := Prog.req r

/-- The variables of the loops. -/
structure Tracer where
  iscalling : Bool
  arg1 : Word
  arg2 : Word
  arg3 : Word
  regs : UserRegs
  status : Nat

/-- The part between `PTRACE_GETREGS` and `PTRACE_SYSCALL`, where `text` gets
what is printed for `arg2`. -/
def onCall (text : Word → Trc CStr) (t : Tracer) : Trc Tracer := do
  if IsWrite t.regs.orig_rax then
    if t.iscalling = false then
      return { t with
        iscalling := true, arg1 := t.regs.rdi, arg2 := t.regs.rsi, arg3 := t.regs.rdx }
    else
      let s ← text t.arg2
      trc (.printf ⟨t.regs.rax, t.arg1, s, t.arg3⟩)
      return { t with iscalling := false }
  else return t

/-- The loop, for `n` rounds at most: what `main` returns, or `none` if it is
still there. -/
def tracerLoop (text : Word → Trc CStr) : Nat → Tracer → Trc (Option Int)
  | 0, _ => return none
  | n + 1, t => do
      let status := (← trc .wait).getD t.status
      if WIFEXITED status then return some 0
      else
        let regs := storeRegs t.regs (← trc .getregs)
        let t ← onCall text { t with regs, status }
        if ← trc .syscall then tracerLoop text n t
        else
          trc (.perror "CONT err")
          return some (-1)

/-- `(char *)arg2` in `blog/getsyscall.c`. -/
def ownText (arg2 : Word) : Trc CStr := trc (.string arg2)

/-- `buf` in `blog/dbug.c`: twice the same eight bytes. -/
def peekedText (arg2 : Word) : Trc CStr := do
  let low := peekResult (← trc (.peekdata arg2))
  let high := peekResult (← trc (.peekdata arg2))
  return (toBytes low ++ toBytes high).takeWhile (· ≠ 0)

/-- The loop of `blog/getsyscall.c`. -/
def getsyscallLoop : Nat → Tracer → Trc (Option Int) := tracerLoop ownText

/-- The loop of `blog/dbug.c`. -/
def dbugLoop : Nat → Tracer → Trc (Option Int) := tracerLoop peekedText

/-! ## The child -/

inductive SysKind where
  | entry
  | exit
  /-- A signal is about to be delivered. -/
  | signal (s : Signal)
deriving DecidableEq

/-- The status of a stop at a system call is that of a SIGTRAP. -/
def SysKind.status : SysKind → Nat
  | entry | exit => (Change.stopped (.signal SIGTRAP)).status
  | signal s => (Change.stopped (.signal s)).status

/-- What a stop shows of the call. -/
structure Shown where
  kind : SysKind
  orig_rax : Word

/-- A stop, with the memory of the child there. -/
structure SysStop where
  kind : SysKind
  regs : UserRegs
  peek : Word → Option Word

def SysStop.shown (x : SysStop) : Shown := ⟨x.kind, x.regs.orig_rax⟩

/-- How a child ends. -/
inductive Ending where
  | exited (code : Byte)
  | killed (s : Signal)

def Ending.status : Ending → Nat
  | exited code => (Change.exited code).status
  | killed s => (Change.signaled s).status

/-- The child and the terminal: the stops to come, the one the child is in, and
what was printed. -/
structure Child where
  stops : List SysStop
  here : Option SysStop := none
  ending : Ending
  printed : List WriteLine := []

/-- The answers to a tracer, whose own strings are `own`. -/
def Child.answer (own : Word → CStr) : Handler TracerResp Child
  | .wait, c =>
      match c.stops with
      | [] => some (some c.ending.status, { c with here := none })
      | x :: xs => some (some x.kind.status, { c with stops := xs, here := some x })
  | .getregs, c => some (c.here.map SysStop.regs, c)
  | .syscall, c => some (c.here.isSome, c)
  | .peekdata addr, c => some (c.here.bind (fun x => x.peek addr), c)
  | .string addr, c => some (own addr, c)
  | .printf line, c => some ((), { c with printed := c.printed ++ [line] })
  | .perror _, c => some ((), c)

/-! ## Calls of `write` -/

/-- Entries and exits take turns, and an exit of `write` is behind an entry of
it.  `inside` says whether the call that the child is in is one.  Signals come
anywhere. -/
def TakesTurns : Option Bool → List Shown → Prop
  | _, [] => True
  | inside, x :: xs =>
      match x.kind with
      | .entry => inside = none ∧ TakesTurns (some (decide (IsWrite x.orig_rax))) xs
      | .exit => inside = some (decide (IsWrite x.orig_rax)) ∧ TakesTurns none xs
      | .signal _ => TakesTurns inside xs

/-- The registers at the entry of the call of `write` that the child is in behind
a stop. -/
def callBehind (entered : Option UserRegs) (x : SysStop) : Option UserRegs :=
  match x.kind with
  | .entry => if IsWrite x.regs.orig_rax then some x.regs else none
  | .exit => none
  | .signal _ => entered

/-- The record of the call of `write` that is complete with a stop. -/
def recordAt (said : Option SysStop → Word → CStr) (entered : Option UserRegs) (x : SysStop) :
    List WriteLine :=
  match x.kind, entered with
  | .exit, some regs => [⟨x.regs.rax, regs.rdi, said x regs.rsi, regs.rdx⟩]
  | _, _ => []

/-- The records of all calls of `write` that are complete, in their order. -/
def completed (said : Option SysStop → Word → CStr) : Option UserRegs → List SysStop →
    List WriteLine
  | _, [] => []
  | entered, x :: xs => recordAt said entered x ++ completed said (callBehind entered x) xs

/-- The loop prints just these, on any stops that show this. -/
def PairsUp (own : Word → CStr) (loop : Nat → Tracer → Trc (Option Int))
    (said : Option SysStop → Word → CStr) (shown : List Shown) (ending : Ending) : Prop :=
  ∀ stops : List SysStop, stops.map SysStop.shown = shown →
    ∀ t : Tracer, t.iscalling = false →
      Meets (Child.answer own) (loop (stops.length + 1) t)
        (fun r c => r.isSome = true ∧ c.printed = completed said none stops)
        { stops, ending }

/-- Whether the child is in a call of `write` behind a stop. -/
def Shown.inWrite (x : Shown) (inside : Bool) : Bool :=
  match x.kind with
  | .entry => decide (IsWrite x.orig_rax)
  | .exit => false
  | .signal _ => inside

/-- A stop for a signal, with the number of `write`. -/
def Shown.Misleads (x : Shown) : Prop :=
  x.kind ≠ .entry ∧ x.kind ≠ .exit ∧ IsWrite x.orig_rax

/-- No stop for a signal is taken for one at a call of `write`: those that could
be are not inside such a call, and behind them no stop shows its number. -/
def Undisturbed : Bool → List Shown → Prop
  | _, [] => True
  | inside, x :: xs =>
      (x.Misleads → inside = false ∧ ∀ y ∈ xs, ¬ IsWrite y.orig_rax) ∧
        Undisturbed (x.inWrite inside) xs

/-- A child that is killed was not stopped last with the number of `write`, but
behind a call of it. -/
def EndsOutside (shown : List Shown) : Ending → Prop
  | .exited _ => True
  | .killed _ => ∀ x ∈ shown.getLast?, IsWrite x.orig_rax → x.kind = .exit

instance decTakesTurns : (inside : Option Bool) → (shown : List Shown) →
    Decidable (TakesTurns inside shown)
  | _, [] => isTrue trivial
  | inside, ⟨.entry, n⟩ :: xs =>
      have := decTakesTurns (some (decide (IsWrite n))) xs
      inferInstanceAs (Decidable (inside = none ∧ TakesTurns (some (decide (IsWrite n))) xs))
  | inside, ⟨.exit, n⟩ :: xs =>
      have := decTakesTurns none xs
      inferInstanceAs (Decidable (inside = some (decide (IsWrite n)) ∧ TakesTurns none xs))
  | inside, ⟨.signal _, _⟩ :: xs => decTakesTurns inside xs

instance decMisleads (x : Shown) : Decidable x.Misleads :=
  inferInstanceAs (Decidable (x.kind ≠ .entry ∧ x.kind ≠ .exit ∧ IsWrite x.orig_rax))

instance decUndisturbed : (inside : Bool) → (shown : List Shown) →
    Decidable (Undisturbed inside shown)
  | _, [] => isTrue trivial
  | inside, x :: xs =>
      have := decUndisturbed (x.inWrite inside) xs
      inferInstanceAs (Decidable ((x.Misleads → inside = false ∧ ∀ y ∈ xs, ¬ IsWrite y.orig_rax) ∧
        Undisturbed (x.inWrite inside) xs))

instance decEndsOutside (shown : List Shown) : (ending : Ending) →
    Decidable (EndsOutside shown ending)
  | .exited _ => isTrue trivial
  | .killed _ =>
      inferInstanceAs (Decidable (∀ x ∈ shown.getLast?, IsWrite x.orig_rax → x.kind = .exit))

/-! ## A round -/

/-- What `text` answers, where the child is in this stop. -/
def Says (own : Word → CStr) (text : Word → Trc CStr) (said : Option SysStop → Word → CStr) :
    Prop :=
  ∀ (a : Word) (Q : CStr → Child → Prop) (c : Child),
    Meets (Child.answer own) (text a) Q c ↔ Q (said c.here a) c

def Tracer.stopped (t : Tracer) (x : SysStop) : Tracer :=
  { t with regs := x.regs, status := x.kind.status }

/-- The variables behind `onCall`. -/
def Tracer.next (t : Tracer) : Tracer :=
  if IsWrite t.regs.orig_rax then
    if t.iscalling = false then
      { t with iscalling := true, arg1 := t.regs.rdi, arg2 := t.regs.rsi, arg3 := t.regs.rdx }
    else { t with iscalling := false }
  else t

/-- What `onCall` prints. -/
def Tracer.lines (say : Word → CStr) (t : Tracer) : List WriteLine :=
  if IsWrite t.regs.orig_rax ∧ t.iscalling = true then
    [⟨t.regs.rax, t.arg1, say t.arg2, t.arg3⟩]
  else []

/-- What the loop prints. -/
def printedBy (said : Option SysStop → Word → CStr) (ending : Ending) : Tracer → List SysStop →
    List WriteLine
  | t, [] =>
      match ending with
      | .exited _ => []
      | .killed _ => t.lines (said none)
  | t, x :: xs =>
      (t.stopped x).lines (said x) ++ printedBy said ending (t.stopped x).next xs

section
variable {own : Word → CStr} {text : Word → Trc CStr} {said : Option SysStop → Word → CStr}
  {say : Word → CStr} {t : Tracer} {c : Child} {x : SysStop} {ending : Ending}

theorem says_ownText : Says own ownText fun _ => own := by
  intro a Q c
  exact meets_ask rfl

/-- `buf`, as far as it goes. -/
def peekedAt (x : Option SysStop) (a : Word) : CStr :=
  let w := peekResult (x.bind fun x => x.peek a)
  (toBytes w ++ toBytes w).takeWhile (· ≠ 0)

theorem says_peekedText : Says own peekedText peekedAt := by
  intro a Q c
  rw [peekedText, meets_ask rfl, meets_ask rfl]
  exact Iff.rfl

theorem meets_onCall (htext : Says own text said) {Q : Tracer → Child → Prop} :
    Meets (Child.answer own) (onCall text t) Q c ↔
      Q t.next { c with printed := c.printed ++ t.lines (said c.here) } := by
  rw [onCall, Tracer.next, Tracer.lines]
  by_cases hwrite : IsWrite t.regs.orig_rax
  · cases hcall : t.iscalling with
    | false => simp [hwrite]
    | true =>
        simp only [hwrite, if_true, Bool.true_eq_false, if_false, and_self]
        rw [meets_bind, htext, meets_ask rfl]
        exact Iff.rfl
  · simp [hwrite]

/-- The loop comes to its end with the child. -/
theorem meets_tracerLoop (htext : Says own text said) {lines : List WriteLine}
    (stops : List SysStop) (t : Tracer) (here : Option SysStop) (printed : List WriteLine) :
    Meets (Child.answer own) (tracerLoop text (stops.length + 1) t)
        (fun r c => r.isSome = true ∧ c.printed = lines) ⟨stops, here, ending, printed⟩ ↔
      printed ++ printedBy said ending t stops = lines := by
  induction stops generalizing t here printed with
  | nil =>
      cases ending with
      | exited code =>
          rw [tracerLoop, meets_ask rfl]
          simp [Ending.status, printedBy]
      | killed s =>
          rw [tracerLoop, meets_ask rfl]
          simp only [Ending.status, Option.getD_some, WIFEXITED_signaled]
          rw [if_neg Bool.false_ne_true, meets_ask rfl, meets_bind, meets_onCall htext,
            meets_ask rfl, printedBy]
          rw [if_neg (by exact Bool.false_ne_true), meets_ask rfl]
          exact and_iff_right rfl
  | cons x xs ih =>
      have hstatus : WIFEXITED x.kind.status = false := by
        cases x.kind <;> exact WIFEXITED_stopped _
      rw [List.length_cons, tracerLoop, meets_ask rfl]
      simp only [Option.getD_some, hstatus]
      rw [if_neg Bool.false_ne_true, meets_ask rfl, meets_bind, meets_onCall htext,
        meets_ask rfl, printedBy, ← List.append_assoc]
      exact ih (t.stopped x).next (some x) (printed ++ (t.stopped x).lines (said x))

theorem lines_of_not (h : ¬ IsWrite t.regs.orig_rax) : t.lines say = [] :=
  if_neg fun hc => h hc.1

theorem next_of_not (h : ¬ IsWrite t.regs.orig_rax) : t.next = t := if_neg h

theorem lines_of_entry (hcall : t.iscalling = false) : t.lines say = [] :=
  if_neg fun hc => Bool.false_ne_true (hcall.symm.trans hc.2)

theorem next_of_entry (h : IsWrite t.regs.orig_rax) (hcall : t.iscalling = false) :
    t.next = { t with
      iscalling := true, arg1 := t.regs.rdi, arg2 := t.regs.rsi, arg3 := t.regs.rdx } := by
  rw [Tracer.next, if_pos h, if_pos hcall]

theorem lines_of_exit (h : IsWrite t.regs.orig_rax) (hcall : t.iscalling = true) :
    t.lines say = [⟨t.regs.rax, t.arg1, say t.arg2, t.arg3⟩] :=
  if_pos ⟨h, hcall⟩

theorem next_of_exit (h : IsWrite t.regs.orig_rax) (hcall : t.iscalling = true) :
    t.next = { t with iscalling := false } := by
  rw [Tracer.next, if_pos h, if_neg (by rw [hcall]; exact Bool.noConfusion)]

theorem next_regs : t.next.regs = t.regs := by
  rw [Tracer.next]
  split
  · split <;> rfl
  · rfl

/-! ## One stop -/

/-- The loop has the arguments of the call of `write` that the child is in. -/
structure Tracer.InStep (t : Tracer) (entered : Option UserRegs) : Prop where
  calling : t.iscalling = entered.isSome
  args : ∀ regs ∈ entered, t.arg1 = regs.rdi ∧ t.arg2 = regs.rsi ∧ t.arg3 = regs.rdx

theorem inStep_none (h : t.iscalling = false) : t.InStep none :=
  ⟨h, fun _ hr => by cases hr⟩

variable {entered : Option UserRegs} {inside : Option Bool} {shown : List Shown}

/-- A stop that may come where the child is. -/
def Fits (entered : Option UserRegs) (x : SysStop) : Prop :=
  match x.kind with
  | .entry => entered = none
  | .exit => IsWrite x.regs.orig_rax ↔ entered.isSome = true
  | .signal _ => True

theorem fits_of_takesTurns (hturns : TakesTurns inside (x.shown :: shown))
    (hinside : entered.isSome = true ↔ inside = some true) :
    Fits entered x ∧ ∃ inside', ((callBehind entered x).isSome = true ↔ inside' = some true) ∧
      TakesTurns inside' shown := by
  obtain ⟨kind, regs, peek⟩ := x
  cases kind with
  | entry =>
      obtain ⟨rfl, hturns⟩ := hturns
      refine ⟨?_, _, ?_, hturns⟩
      · exact Option.not_isSome_iff_eq_none.mp fun h => nomatch hinside.mp h
      · by_cases hwrite : IsWrite regs.orig_rax <;> simp [callBehind, SysStop.shown, hwrite]
  | exit =>
      obtain ⟨hin, hturns⟩ := hturns
      refine ⟨?_, none, iff_of_false Bool.false_ne_true nofun, hturns⟩
      rw [hin, Option.some_inj, decide_eq_true_iff] at hinside
      exact hinside.symm
  | signal s => exact ⟨trivial, _, hinside, hturns⟩

theorem isSome_callBehind (entered : Option UserRegs) (x : SysStop) :
    (callBehind entered x).isSome = x.shown.inWrite entered.isSome := by
  obtain ⟨kind, regs, peek⟩ := x
  cases kind with
  | entry => by_cases hwrite : IsWrite regs.orig_rax <;>
      simp [callBehind, Shown.inWrite, SysStop.shown, hwrite]
  | exit => rfl
  | signal s => rfl

/-- A stop that does not mislead: what is printed is the record of the call that
is complete with it. -/
theorem step_of_fits (said : Option SysStop → Word → CStr) (hstep : t.InStep entered)
    (hfits : Fits entered x) (hcalm : ¬ x.shown.Misleads) :
    (t.stopped x).lines (said x) = recordAt said entered x ∧
      (t.stopped x).next.InStep (callBehind entered x) := by
  obtain ⟨kind, regs, peek⟩ := x
  by_cases hwrite : IsWrite regs.orig_rax
  · cases kind with
    | entry =>
        obtain rfl : entered = none := hfits
        have hcall : (t.stopped ⟨.entry, regs, peek⟩).iscalling = false := hstep.calling
        refine ⟨lines_of_entry hcall, ?_⟩
        rw [next_of_entry hwrite hcall, callBehind]
        dsimp only
        rw [if_pos hwrite]
        refine ⟨rfl, ?_⟩
        rintro r ⟨rfl⟩
        exact ⟨rfl, rfl, rfl⟩
    | exit =>
        obtain ⟨r, rfl⟩ := Option.isSome_iff_exists.mp (hfits.mp hwrite)
        obtain ⟨h1, h2, h3⟩ := hstep.args r rfl
        have hcall : (t.stopped ⟨.exit, regs, peek⟩).iscalling = true := hstep.calling
        have hrecord : recordAt said (some r) ⟨.exit, regs, peek⟩ =
          [⟨regs.rax, r.rdi, said (some ⟨.exit, regs, peek⟩) r.rsi, r.rdx⟩] := rfl
        rw [next_of_exit hwrite hcall, lines_of_exit hwrite hcall, hrecord, ← h1, ← h2, ← h3]
        exact ⟨rfl, inStep_none rfl⟩
    | signal s => exact absurd ⟨nofun, nofun, hwrite⟩ hcalm
  · rw [lines_of_not hwrite, next_of_not hwrite]
    cases kind with
    | entry =>
        obtain rfl : entered = none := hfits
        rw [callBehind]
        dsimp only
        rw [if_neg hwrite]
        exact ⟨rfl, inStep_none hstep.calling⟩
    | exit =>
        obtain rfl : entered = none :=
          Option.not_isSome_iff_eq_none.mp fun h => hwrite (hfits.mpr h)
        exact ⟨rfl, inStep_none hstep.calling⟩
    | signal s => exact ⟨by cases entered <;> rfl, hstep.calling, hstep.args⟩

/-- A stop that misleads, outside a call of `write`: the toggle goes on. -/
theorem misled_outside (say : Word → CStr) (hcall : t.iscalling = false)
    (hwrite : IsWrite x.regs.orig_rax) :
    (t.stopped x).lines say = [] ∧ (t.stopped x).next.iscalling = true ∧
      (t.stopped x).next.arg1 = x.regs.rdi ∧ (t.stopped x).next.regs = x.regs := by
  have hcall : (t.stopped x).iscalling = false := hcall
  rw [lines_of_entry hcall, next_of_entry hwrite hcall]
  exact ⟨rfl, rfl, rfl, rfl⟩

theorem kind_of_misleads (h : x.shown.Misleads) : ∃ s, x.kind = .signal s := by
  cases hkind : x.kind with
  | entry => exact absurd hkind h.1
  | exit => exact absurd hkind h.2.1
  | signal s => exact ⟨s, rfl⟩

theorem callBehind_of_misleads (h : x.shown.Misleads) : callBehind entered x = entered := by
  obtain ⟨s, hs⟩ := kind_of_misleads h
  rw [callBehind, hs]

theorem recordAt_none : recordAt said none x = [] := by
  obtain ⟨kind, regs, peek⟩ := x
  cases kind <;> rfl

theorem recordAt_of_misleads (h : x.shown.Misleads) : recordAt said entered x = [] := by
  obtain ⟨s, hs⟩ := kind_of_misleads h
  obtain ⟨kind, regs, peek⟩ := x
  obtain rfl : kind = .signal s := hs
  cases entered <;> rfl

/-! ## Stops that do not disturb -/

/-- Where no stop shows `write` nothing is printed. -/
theorem printedBy_eq_nil {stops : List SysStop} (hno : ∀ x ∈ stops, ¬ IsWrite x.regs.orig_rax)
    (hend : ∀ s, stops = [] → ending = .killed s → ¬ IsWrite t.regs.orig_rax) :
    printedBy said ending t stops = [] := by
  induction stops generalizing t with
  | nil =>
      cases ending with
      | exited code => rfl
      | killed s => exact lines_of_not (hend s rfl rfl)
  | cons x xs ih =>
      obtain ⟨hx, hxs⟩ := List.forall_mem_cons.mp hno
      have hx' : ¬ IsWrite (t.stopped x).regs.orig_rax := hx
      rw [printedBy, lines_of_not hx', next_of_not hx', List.nil_append]
      exact ih hxs fun _ _ _ => hx

theorem completed_eq_nil {stops : List SysStop} (hno : ∀ x ∈ stops, ¬ IsWrite x.regs.orig_rax) :
    completed said none stops = [] := by
  induction stops with
  | nil => rfl
  | cons x xs ih =>
      obtain ⟨hx, hxs⟩ := List.forall_mem_cons.mp hno
      have hstay : callBehind none x = none := by
        rw [callBehind, if_neg hx]
        cases x.kind <;> rfl
      rw [completed, hstay, ih hxs, recordAt_none, List.append_nil]

theorem endsOutside_cons {y : Shown} :
    EndsOutside (y :: shown) ending ↔ EndsOutside shown ending ∧
      ∀ s, shown = [] → ending = .killed s → IsWrite y.orig_rax → y.kind = .exit := by
  cases ending with
  | exited code => exact iff_of_true trivial ⟨trivial, nofun⟩
  | killed s =>
      cases shown with
      | nil => simp [EndsOutside]
      | cons z zs => simp [EndsOutside, List.getLast?_cons_cons]

/-- The loop goes with the calls as long as no signal gets between. -/
theorem printedBy_eq_completed {stops : List SysStop}
    (hturns : TakesTurns inside (stops.map SysStop.shown))
    (hinside : entered.isSome = true ↔ inside = some true) (hstep : t.InStep entered)
    (hquiet : Undisturbed entered.isSome (stops.map SysStop.shown))
    (hend : EndsOutside (stops.map SysStop.shown) ending)
    (hlast : ∀ s, stops = [] → ending = .killed s → IsWrite t.regs.orig_rax →
      t.iscalling = false) :
    printedBy said ending t stops = completed said entered stops := by
  induction stops generalizing t entered inside with
  | nil =>
      cases ending with
      | exited code => rfl
      | killed s =>
          by_cases hwrite : IsWrite t.regs.orig_rax
          · exact lines_of_entry (hlast s rfl rfl hwrite)
          · exact lines_of_not hwrite
  | cons x xs ih =>
      obtain ⟨hfits, inside', hinside', hturns'⟩ := fits_of_takesTurns hturns hinside
      obtain ⟨hmislead, hquiet'⟩ := hquiet
      obtain ⟨hend', hlastStop⟩ := endsOutside_cons.mp hend
      rw [printedBy, completed]
      by_cases hcalm : x.shown.Misleads
      · obtain ⟨hout, hno⟩ := hmislead hcalm
        have hno : ∀ y ∈ xs, ¬ IsWrite y.regs.orig_rax := fun y hy =>
          hno y.shown (List.mem_map_of_mem hy)
        obtain rfl : entered = none := Option.not_isSome_iff_eq_none.mp (Bool.eq_false_iff.mp hout)
        obtain ⟨hlines, -, -, hregs⟩ := misled_outside _ hstep.calling hcalm.2.2
        rw [hlines, recordAt_of_misleads hcalm, callBehind_of_misleads hcalm, completed_eq_nil hno]
        refine printedBy_eq_nil hno ?_
        rintro s rfl hkill -
        exact hcalm.2.1 (hlastStop s rfl hkill hcalm.2.2)
      · obtain ⟨hlines, hnext⟩ := step_of_fits said hstep hfits hcalm
        rw [← isSome_callBehind] at hquiet'
        rw [hlines, ih hturns' hinside' hnext hquiet' hend']
        rintro s rfl hkill hwrite
        rw [next_regs] at hwrite
        have hexit : x.kind = .exit := hlastStop s rfl hkill hwrite
        rw [hnext.calling, callBehind, hexit]
        rfl

/-! ## Stops that do -/

theorem mem_recordAt {l : WriteLine} (hl : l ∈ recordAt said entered x) :
    ∃ r ∈ entered, l.rax = x.regs.rax ∧ l.arg1 = r.rdi := by
  obtain ⟨kind, regs, peek⟩ := x
  cases entered with
  | none =>
      rw [recordAt_none] at hl
      cases hl
  | some r =>
      cases kind with
      | entry => cases hl
      | exit =>
          obtain rfl := List.mem_singleton.mp hl
          exact ⟨r, rfl, rfl, rfl⟩
      | signal s => cases hl

theorem mem_callBehind {r : UserRegs} (hr : r ∈ callBehind entered x) :
    r ∈ entered ∨ r = x.regs := by
  rw [callBehind] at hr
  split at hr
  · split at hr
    · exact .inr (Option.some.inj hr).symm
    · cases hr
  · cases hr
  · exact .inl hr

/-- The result in a record is from one of the stops, and so is the argument. -/
theorem mem_completed {stops : List SysStop} {l : WriteLine}
    (hl : l ∈ completed said entered stops) :
    (∃ x ∈ stops, l.rax = x.regs.rax) ∧
      ((∃ r ∈ entered, l.arg1 = r.rdi) ∨ ∃ x ∈ stops, l.arg1 = x.regs.rdi) := by
  induction stops generalizing entered with
  | nil => cases hl
  | cons x xs ih =>
      rw [completed] at hl
      rcases List.mem_append.mp hl with hl | hl
      · obtain ⟨r, hr, hrax, harg⟩ := mem_recordAt hl
        exact ⟨⟨x, List.mem_cons_self, hrax⟩, .inl ⟨r, hr, harg⟩⟩
      · obtain ⟨⟨y, hy, hrax⟩, harg⟩ := ih hl
        refine ⟨⟨y, List.mem_cons_of_mem x hy, hrax⟩, ?_⟩
        rcases harg with ⟨r, hr, harg⟩ | ⟨z, hz, harg⟩
        · rcases mem_callBehind hr with hr | rfl
          · exact .inl ⟨r, hr, harg⟩
          · exact .inr ⟨x, List.mem_cons_self, harg⟩
        · exact .inr ⟨z, List.mem_cons_of_mem x hz, harg⟩

/-- With the toggle on, the next stop that shows `write` is printed. -/
theorem exists_line (said : Option SysStop → Word → CStr) (ending : Ending)
    {stops : List SysStop} (hcall : t.iscalling = true)
    (hsome : ∃ x ∈ stops, IsWrite x.regs.orig_rax) :
    ∃ l ∈ printedBy said ending t stops, l.arg1 = t.arg1 := by
  induction stops generalizing t with
  | nil =>
      obtain ⟨x, hx, -⟩ := hsome
      cases hx
  | cons x xs ih =>
      rw [printedBy]
      have hcall : (t.stopped x).iscalling = true := hcall
      by_cases hwrite : IsWrite x.regs.orig_rax
      · rw [lines_of_exit hwrite hcall]
        exact ⟨_, List.mem_cons_self, rfl⟩
      · have hwrite' : ¬ IsWrite (t.stopped x).regs.orig_rax := hwrite
        rw [lines_of_not hwrite', next_of_not hwrite']
        have hrest : ∃ y ∈ xs, IsWrite y.regs.orig_rax := by
          obtain ⟨y, hy, hy'⟩ := hsome
          rcases List.mem_cons.mp hy with rfl | hy
          · exact absurd hy' hwrite
          · exact ⟨y, hy, hy'⟩
        exact ih (t := (t.stopped x)) hcall hrest

/-- A stop that shows this, with these in `rax` and `rdi`. -/
def Shown.holding (rax rdi : Word) (y : Shown) : SysStop :=
  ⟨y.kind, { rax, rdi, orig_rax := y.orig_rax }, fun _ => none⟩

theorem map_shown_holding (shown : List Shown) :
    (shown.map (Shown.holding 0 0)).map SysStop.shown = shown := by
  rw [List.map_map]
  exact List.map_id shown

theorem undisturbed_of_none {shown : List Shown} (hno : ∀ y ∈ shown, ¬ IsWrite y.orig_rax)
    (inside : Bool) : Undisturbed inside shown := by
  induction shown generalizing inside with
  | nil => trivial
  | cons y ys ih =>
      obtain ⟨hy, hys⟩ := List.forall_mem_cons.mp hno
      exact ⟨fun h => absurd h.2.2 hy, ih hys _⟩

theorem endsOutside_of_none {shown : List Shown} (hno : ∀ y ∈ shown, ¬ IsWrite y.orig_rax)
    (ending : Ending) : EndsOutside shown ending := by
  cases ending with
  | exited code => trivial
  | killed s => exact fun y hy hwrite => absurd hwrite (hno y (List.mem_of_getLast? hy))

theorem inWrite_of_entry {y : Shown} (h : y.kind = .entry) (inside : Bool) :
    y.inWrite inside = decide (IsWrite y.orig_rax) := by
  rw [Shown.inWrite, h]

/-- The loop prints the records, on any stops that show this. -/
def Pairs (said : Option SysStop → Word → CStr) (ending : Ending) (shown : List Shown) (t : Tracer)
    (entered : Option UserRegs) : Prop :=
  ∀ stops : List SysStop, stops.map SysStop.shown = shown →
    printedBy said ending t stops = completed said entered stops

variable {y : Shown}

/-- Inside a call of `write` it is printed with the result at the signal. -/
theorem not_pairs_inside {regs : UserRegs} (hcall : t.iscalling = true) (h : y.Misleads) :
    ¬ Pairs said ending (y :: shown) t (some regs) := by
  intro hpairs
  have h' : (y.holding 1 0).shown.Misleads := h
  have hcall : (t.stopped (y.holding 1 0)).iscalling = true := hcall
  have hlines := hpairs (y.holding 1 0 :: shown.map (Shown.holding 0 0))
    (congrArg (y :: ·) (map_shown_holding shown))
  rw [printedBy, completed, lines_of_exit h.2.2 hcall, recordAt_of_misleads h',
    callBehind_of_misleads h'] at hlines
  obtain ⟨x, hx, hrax⟩ :=
    (mem_completed (hlines ▸ List.mem_append_left _ (List.mem_singleton_self _))).1
  obtain ⟨z, -, rfl⟩ := List.mem_map.mp hx
  cases hrax

/-- Outside it the next stop that shows `write` is printed, with the argument at
the signal. -/
theorem no_write_behind (hcall : t.iscalling = true) (harg : t.arg1 = 1)
    (hpairs : Pairs said ending shown t none) : ∀ y ∈ shown, ¬ IsWrite y.orig_rax := by
  intro y hy hwrite
  obtain ⟨l, hl, hl1⟩ := exists_line said ending hcall
    ⟨y.holding 0 0, List.mem_map_of_mem hy, hwrite⟩
  rw [hpairs _ (map_shown_holding shown)] at hl
  rcases (mem_completed hl).2 with ⟨r, hr, -⟩ | ⟨x, hx, hx0⟩
  · cases hr
  · obtain ⟨z, -, rfl⟩ := List.mem_map.mp hx
    cases hx0.symm.trans (hl1.trans harg)

/-- A child that is killed makes the loop look at the same registers once more. -/
theorem not_calling_of_pairs {s : Signal} (hpairs : Pairs said (.killed s) [] t entered)
    (hwrite : IsWrite t.regs.orig_rax) : t.iscalling ≠ true := by
  intro hcall
  have hnone := hpairs [] rfl
  rw [printedBy, lines_of_exit hwrite hcall] at hnone
  cases hnone

/-- Where the records pair up whatever the registers hold, no signal is in the
way. -/
theorem undisturbed_of_pairs (hturns : TakesTurns inside shown)
    (hinside : entered.isSome = true ↔ inside = some true) (hstep : t.InStep entered)
    (hpairs : Pairs said ending shown t entered) :
    Undisturbed entered.isSome shown ∧ EndsOutside shown ending := by
  induction shown generalizing t entered inside with
  | nil => exact ⟨trivial, endsOutside_of_none (List.forall_mem_nil _) ending⟩
  | cons y ys ih =>
      rw [endsOutside_cons]
      by_cases hcalm : y.Misleads
      · cases entered with
        | none =>
            have hcalm' : (y.holding 0 1).shown.Misleads := hcalm
            obtain ⟨hlines, hcall, harg, hregs⟩ :=
              misled_outside (said (y.holding 0 1)) (x := y.holding 0 1) hstep.calling hcalm.2.2
            have hrest : Pairs said ending ys (t.stopped (y.holding 0 1)).next none := by
              intro stops hstops
              have h := hpairs (y.holding 0 1 :: stops) (congrArg (y :: ·) hstops)
              rwa [printedBy, completed, hlines, recordAt_none, callBehind_of_misleads hcalm'] at h
            have hno := no_write_behind hcall harg hrest
            refine ⟨⟨fun _ => ⟨rfl, hno⟩, undisturbed_of_none hno _⟩,
              endsOutside_of_none hno ending, ?_⟩
            rintro s rfl rfl hwrite
            exact absurd hcall (not_calling_of_pairs hrest (hregs ▸ hwrite))
        | some regs => exact absurd hpairs (not_pairs_inside hstep.calling hcalm)
      · obtain ⟨hfits, inside', hinside', hturns'⟩ :=
          fits_of_takesTurns (x := y.holding 0 0) hturns hinside
        obtain ⟨hlines, hnext⟩ := step_of_fits said hstep hfits hcalm
        have hrest : Pairs said ending ys (t.stopped (y.holding 0 0)).next
            (callBehind entered (y.holding 0 0)) := by
          intro stops hstops
          have h := hpairs (y.holding 0 0 :: stops) (congrArg (y :: ·) hstops)
          rw [printedBy, completed, hlines] at h
          exact List.append_cancel_left h
        obtain ⟨hquiet, hend⟩ := ih hturns' hinside' hnext hrest
        rw [isSome_callBehind] at hquiet
        refine ⟨⟨fun h => absurd h hcalm, hquiet⟩, hend, ?_⟩
        rintro s rfl rfl hwrite
        by_contra hkind
        have hentry : y.kind = .entry := by
          by_contra h
          exact hcalm ⟨h, hkind, hwrite⟩
        refine not_calling_of_pairs hrest ?_ ?_
        · rw [next_regs]
          exact hwrite
        · rw [hnext.calling, isSome_callBehind]
          exact (inWrite_of_entry hentry _).trans (decide_eq_true hwrite)

theorem pairsUp_iff (htext : Says own text said) (hturns : TakesTurns none shown) :
    PairsUp own (tracerLoop text) said shown ending ↔
      Undisturbed false shown ∧ EndsOutside shown ending := by
  have hout : (none : Option UserRegs).isSome = true ↔ (none : Option Bool) = some true :=
    iff_of_false Bool.false_ne_true nofun
  constructor
  · intro h
    have hpairs : Pairs said ending shown ⟨false, 0, 0, 0, {}, 0⟩ none := fun stops hstops =>
      (meets_tracerLoop htext stops _ none []).mp (h stops hstops _ rfl)
    exact undisturbed_of_pairs hturns hout (inStep_none rfl) hpairs
  · rintro ⟨hquiet, hend⟩ stops rfl t hcall
    refine (meets_tracerLoop htext stops t none []).mpr ?_
    refine printedBy_eq_completed hturns hout (inStep_none hcall) hquiet hend ?_
    exact fun s _ _ _ => hcall

end

/-- **When the records pair up.**  For both programs: if and only if no stop for
a signal shows the number of `write` in a call of it or in front of another, and
the child is not killed in such a call. -/
theorem writes_pair_up_iff (own : Word → CStr) {shown : List Shown} (ending : Ending)
    (hturns : TakesTurns none shown) :
    (PairsUp own getsyscallLoop (fun _ => own) shown ending ↔
      Undisturbed false shown ∧ EndsOutside shown ending) ∧
    (PairsUp own dbugLoop peekedAt shown ending ↔
      Undisturbed false shown ∧ EndsOutside shown ending) :=
  ⟨pairsUp_iff says_ownText hturns, pairsUp_iff says_peekedText hturns⟩

/-! ### Two calls, and a signal behind the first -/

def SIGALRM : Signal := ⟨14, by decide, by decide⟩

/-- `write(1, .., 8)` and `write(1, .., 5)`, and a call of another kind between. -/
def twoWrites : List Shown :=
  [⟨.entry, 1⟩, ⟨.exit, 1⟩, ⟨.entry, 39⟩, ⟨.exit, 39⟩, ⟨.signal SIGALRM, 39⟩, ⟨.entry, 1⟩,
    ⟨.exit, 1⟩]

theorem writes_pair_up_iff_two :
    PairsUp (fun _ => []) getsyscallLoop (fun _ _ => []) twoWrites (.exited 0) :=
  (writes_pair_up_iff (fun _ => []) (.exited 0)
    (by decide : TakesTurns none twoWrites)).1.mpr (by decide)

/-- The same two calls, where the signal comes on the way back from the first. -/
def interrupted : List SysStop :=
  [⟨.entry, { orig_rax := 1, rax := -38, rdi := 1, rdx := 8 }, fun _ => none⟩,
    ⟨.exit, { orig_rax := 1, rax := 8, rdi := 1, rdx := 8 }, fun _ => none⟩,
    ⟨.signal SIGALRM, { orig_rax := 1, rax := 8, rdi := 1, rdx := 8 }, fun _ => none⟩,
    ⟨.entry, { orig_rax := 1, rax := -38, rdi := 1, rdx := 5 }, fun _ => none⟩,
    ⟨.exit, { orig_rax := 1, rax := 5, rdi := 1, rdx := 5 }, fun _ => none⟩]

/-- The second is printed with the arguments of the first, and with the `rax`
of its entry. -/
theorem signal_shifts_the_records :
    TakesTurns none (interrupted.map SysStop.shown) ∧
      ¬ PairsUp (fun _ => []) getsyscallLoop (fun _ _ => []) (interrupted.map SysStop.shown)
        (.exited 0) ∧
      ¬ PairsUp (fun _ => []) dbugLoop peekedAt (interrupted.map SysStop.shown) (.exited 0) := by
  refine ⟨by decide, ?_, ?_⟩
  · intro h
    have hprinted := (meets_tracerLoop says_ownText interrupted ⟨false, 0, 0, 0, {}, 0⟩ none []).mp
      (h interrupted rfl _ rfl)
    exact absurd hprinted (by decide)
  · intro h
    have hprinted := (meets_tracerLoop says_peekedText interrupted ⟨false, 0, 0, 0, {}, 0⟩ none
      []).mp (h interrupted rfl _ rfl)
    exact absurd hprinted (by decide)

end TestDbug
