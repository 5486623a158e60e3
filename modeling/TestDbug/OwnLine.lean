/-
# `TestDbug.OwnLine` — what a command takes from earlier lines

`get_command` resets `nelts` and leaves the slots of `dbug->cmd` as they are;
the handlers read the slots without looking at `nelts`.  Two histories of lines
leave two arrays, and this module compares the next round on the one with the
next round on the other: the same requests, whatever they are answered, and
the same `bps`, `pid` and `funs` in the end.

`tokens` is what `get_command` finds in a line, and `slot_takeLine` what it
leaves in the array: its own tokens, and behind them what was there before.
`acts_on_own_line_iff` says for which lines the array that was there before
makes no difference.
-/
import TestDbug.Effects
import Mathlib.Data.List.GetD

open ByteMemory Interaction

namespace TestDbug

/-! ## Tokens -/

/-- What `fgets` returns to `get_command`: a line, or nothing at the end of the input. -/
abbrev Line := Option { line : List Byte // line.length < 50 }

/-- The tokens `tokenLoop` pushes. -/
def tokenize : Nat → List Byte → List CStr
  | 0, _ => []
  | _ + 1, [] => []
  | n + 1, c :: cs =>
      if c = 32 then tokenize n cs
      else
        match (c :: cs).findIdx? isspace with
        | some k => (c :: cs).take k :: tokenize n ((c :: cs).drop (k + 1))
        | none => tokenize n cs

/-- The C string the buffer of `get_command` holds. -/
def text (line : Line) : List Byte := ((line.map Subtype.val).getD []).takeWhile (· ≠ 0)

/-- The tokens of a line. -/
def tokens (line : Line) : List CStr := tokenize (text line).length (text line)

/-- A word of the input: any blanks, and then what stands before a whitespace.
The second component is what stands behind it. -/
def nextWord (buf : List Byte) : Option (CStr × List Byte) :=
  let s := buf.dropWhile (· = 32)
  (s.findIdx? isspace).map fun k => (s.take k, s.drop (k + 1))

/-- `get_command` on `dbug->cmd`. -/
def takeLine (cmd : NgxArray) (line : Line) : NgxArray := splitLine (line.map Subtype.val) cmd

/-- `dbug->cmd` after these lines. -/
def leftBy (earlier : List Line) : NgxArray := earlier.foldl takeLine .create

/-- The pushes of a list of tokens. -/
def NgxArray.pushAll (a : NgxArray) (ts : List CStr) : NgxArray :=
  ts.foldl (fun a t => a.push (some t)) a

theorem tokenLoop_eq (n : Nat) (buf : List Byte) (a : NgxArray) :
    tokenLoop n buf a = a.pushAll (tokenize n buf) := by
  induction n generalizing buf a with
  | zero => rfl
  | succ n ih =>
      cases buf with
      | nil => rfl
      | cons c cs =>
          rw [tokenLoop, tokenize]
          by_cases hc : c = 32
          · rw [if_pos hc, if_pos hc]
            exact ih _ _
          · rw [if_neg hc, if_neg hc]
            cases (c :: cs).findIdx? isspace with
            | none => exact ih _ _
            | some k => exact ih _ _

theorem takeLine_eq (cmd : NgxArray) (line : Line) :
    takeLine cmd line = cmd.clear.pushAll (tokens line) :=
  tokenLoop_eq _ _ _

/-- Every token is followed by a whitespace of its own. -/
theorem tokenize_length (n : Nat) (buf : List Byte) :
    ((tokenize n buf).map List.length).sum + (tokenize n buf).length ≤ buf.length := by
  induction n generalizing buf with
  | zero => exact Nat.zero_le _
  | succ n ih =>
      cases buf with
      | nil => exact Nat.zero_le _
      | cons c cs =>
          have hrest := ih cs
          rw [tokenize]
          split
          · exact Nat.le_succ_of_le hrest
          · split
            · rename_i k hk
              obtain ⟨hlt, -, -⟩ := List.findIdx?_eq_some_iff_getElem.mp hk
              have hdrop := ih ((c :: cs).drop (k + 1))
              simp only [List.map_cons, List.sum_cons, List.length_cons, List.length_take,
                List.length_drop] at hlt hdrop ⊢
              omega
            · exact Nat.le_succ_of_le hrest

/-- The tokens are the words of the line, one after the other. -/
theorem tokenize_of_nextWord {n : Nat} {buf : List Byte} (hn : buf.length ≤ n) :
    (nextWord buf = none ∧ tokenize n buf = []) ∨
      ∃ word rest m, nextWord buf = some (word, rest) ∧ rest.length ≤ m ∧
        tokenize n buf = word :: tokenize m rest := by
  induction n generalizing buf with
  | zero =>
      obtain rfl := List.length_eq_zero_iff.mp (Nat.le_zero.mp hn)
      exact Or.inl ⟨rfl, rfl⟩
  | succ n ih =>
      cases buf with
      | nil => exact Or.inl ⟨rfl, rfl⟩
      | cons c cs =>
          have hcs : cs.length ≤ n := Nat.le_of_succ_le_succ hn
          by_cases hc : c = 32
          · rw [tokenize, if_pos hc, nextWord, List.dropWhile_cons_of_pos (by simpa using hc)]
            exact ih hcs
          · rw [tokenize, if_neg hc, nextWord, List.dropWhile_cons_of_neg (by simpa using hc)]
            cases hfind : (c :: cs).findIdx? isspace with
            | some k =>
                refine Or.inr ⟨_, _, n, rfl, ?_, rfl⟩
                rw [List.length_drop, List.length_cons]
                omega
            | none =>
                refine Or.inl ⟨rfl, ?_⟩
                have hnone : (cs.dropWhile (· = 32)).findIdx? isspace = none := by
                  rw [List.findIdx?_eq_none_iff] at hfind ⊢
                  intro x hx
                  exact hfind x (List.mem_cons_of_mem c ((List.dropWhile_sublist _).mem hx))
                rcases ih hcs with ⟨-, h⟩ | ⟨word, rest, m, h, -, -⟩
                · exact h
                · rw [nextWord, hnone] at h
                  cases h

theorem tokens_length (line : Line) :
    ((tokens line).map List.length).sum + (tokens line).length < 50 := by
  refine Nat.lt_of_le_of_lt (tokenize_length _ _) ?_
  refine Nat.lt_of_le_of_lt (List.takeWhile_sublist _).length_le ?_
  cases line with
  | none => decide
  | some l => exact l.property

/-! ## Slots -/

/-- `str[k]`, as far as the array reaches. -/
def NgxArray.slot (a : NgxArray) (k : Nat) : NgxStr := a.elts.getD k none

section
variable {a b : NgxArray} {k : Nat} {ts : List CStr}

theorem NgxArray.str_eq_slot (a : NgxArray) (k : Fin 10) : a.str k = a.slot k := by
  simp [NgxArray.str, NgxArray.slot, List.getD, Nat.lt_of_lt_of_le k.isLt a.room]

theorem NgxArray.slot_eq_none (h : a.elts.length ≤ k) : a.slot k = none := by
  simp [NgxArray.slot, List.getD, h]

theorem NgxArray.slot_push (a : NgxArray) (str : NgxStr) (k : Nat) :
    (a.push str).slot k = if k = a.nelts then str else a.slot k := by
  have hused := a.used
  have hroom := a.room
  rw [NgxArray.push]
  split
  · rename_i hfull
    simp only [NgxArray.slot, List.getD_eq_getElem?_getD, List.getElem?_set, List.length_append,
      List.length_replicate, List.getElem?_append, List.getElem?_replicate]
    grind
  · simp only [NgxArray.slot, List.getD_eq_getElem?_getD, List.getElem?_set]
    grind

theorem NgxArray.nelts_push (a : NgxArray) (str : NgxStr) : (a.push str).nelts = a.nelts + 1 := by
  rw [NgxArray.push]
  split <;> rfl

theorem NgxArray.nelts_pushAll (a : NgxArray) (ts : List CStr) :
    (a.pushAll ts).nelts = a.nelts + ts.length := by
  induction ts generalizing a with
  | nil => rfl
  | cons t ts ih =>
      rw [NgxArray.pushAll, List.foldl_cons, ← NgxArray.pushAll, ih, NgxArray.nelts_push,
        List.length_cons]
      omega

theorem NgxArray.slot_pushAll (a : NgxArray) (ts : List CStr) (k : Nat) :
    (a.pushAll ts).slot k =
      if k < a.nelts then a.slot k else (ts[k - a.nelts]?).or (a.slot k) := by
  induction ts generalizing a with
  | nil => exact (ite_self _).symm
  | cons t ts ih =>
      rw [NgxArray.pushAll, List.foldl_cons, ← NgxArray.pushAll, ih, NgxArray.nelts_push,
        NgxArray.slot_push]
      rcases Nat.lt_trichotomy k a.nelts with hlt | rfl | hgt
      · rw [if_pos (Nat.lt_succ_of_lt hlt), if_neg (Nat.ne_of_lt hlt), if_pos hlt]
      · rw [if_pos (Nat.lt_succ_self _), if_pos rfl, if_neg (Nat.lt_irrefl _), Nat.sub_self]
        rfl
      · obtain ⟨j, rfl⟩ := Nat.exists_eq_add_of_lt hgt
        rw [if_neg (by omega), if_neg (by omega), if_neg (by omega),
          show a.nelts + j + 1 - (a.nelts + 1) = j by omega,
          show a.nelts + j + 1 - a.nelts = j + 1 by omega, List.getElem?_cons_succ]

/-- The slots behind a line's own tokens keep what they had. -/
theorem slot_takeLine (cmd : NgxArray) (line : Line) (k : Nat) :
    (takeLine cmd line).slot k = ((tokens line)[k]?).or (cmd.slot k) := by
  rw [takeLine_eq, NgxArray.slot_pushAll]
  exact if_neg (Nat.not_lt_zero k)

theorem nelts_takeLine (cmd : NgxArray) (line : Line) :
    (takeLine cmd line).nelts = (tokens line).length := by
  rw [takeLine_eq, NgxArray.nelts_pushAll]
  exact Nat.zero_add _

end

/-! ## A round on one line -/

/-- What the two runs have in common: the line, and the memory behind the array.
What is printed is not compared. -/
def given (behind : Nat → Option CStr) (line : Line) : (r : Req) → Option (Resp r)
  | .print _ => some ()
  | .fgets 50 => some line
  | .beyond k => some (behind k)
  | _ => none

/-- What a command leaves, `dbug->cmd` aside. -/
def Dbug.outcome (dbug : Dbug) : List Breakpoint × Pid × Option FunArr :=
  (dbug.bps, dbug.pid, dbug.funs)

/-- `get_command` and `play_command` on a line: the requests for the debuggee, and the outcome. -/
def onLine (behind : Nat → Option CStr) (line : Line) (dbug : Dbug) :
    Dbg (List Breakpoint × Pid × Option FunArr) :=
  hide (given behind line) (round dbug >>= fun d => Prog.ret d.outcome)

/-- Whatever was typed before: the same requests and the same outcome. -/
def ActsOnOwnLine (line : Line) : Prop :=
  ∀ (behind : Nat → Option CStr) (dbug : Dbug) (h₁ h₂ : List Line),
    onLine behind line { dbug with cmd := leftBy h₁ } =
      onLine behind line { dbug with cmd := leftBy h₂ }

/-- The line names a command, which is not `dbug`, and gives it its argument. -/
def SaysAll (line : Line) : Prop :=
  ∃ name rest, nextWord (text line) = some (name, rest) ∧ name ≠ nameDbug ∧
    (name ∈ [nameB, nameWatch, nameAttach] → nextWord rest ≠ none)

theorem saysAll_iff_tokens {line : Line} :
    SaysAll line ↔ ∃ name args, tokens line = name :: args ∧ name ≠ nameDbug ∧
      (name ∈ [nameB, nameWatch, nameAttach] → args ≠ []) := by
  rcases tokenize_of_nextWord (Nat.le_refl (text line).length) with
    ⟨hnone, hnil⟩ | ⟨word, rest, m, hword, hm, hcons⟩
  · simp [SaysAll, tokens, hnone, hnil]
  · have hrest : nextWord rest ≠ none ↔ tokenize m rest ≠ [] := by
      rcases tokenize_of_nextWord hm with ⟨h, h'⟩ | ⟨_, _, _, h, -, h'⟩
      · simp [h, h']
      · simp [h, h']
    constructor
    · rintro ⟨name, rest', heq, hdbug, harg⟩
      obtain ⟨rfl, rfl⟩ := Prod.mk.inj (Option.some.inj (hword.symm.trans heq))
      exact ⟨word, _, hcons, hdbug, fun hname => hrest.mp (harg hname)⟩
    · rintro ⟨name, args, heq, hdbug, harg⟩
      obtain ⟨rfl, rfl⟩ := List.cons.inj (hcons.symm.trans heq)
      exact ⟨word, rest, hword, hdbug, fun hname => hrest.mpr (harg hname)⟩

theorem onLine_eq (behind : Nat → Option CStr) (line : Line) (dbug : Dbug) :
    onLine behind line dbug =
      hide (given behind line)
        (play (takeLine dbug.cmd line) dbug >>= fun d => Prog.ret d.outcome) := by
  rw [onLine, round_eq]
  rfl

/-! ## Lines that say all -/

/-- Different at most in `cmd`. -/
def Dbug.Alike (d e : Dbug) : Prop := e = { d with cmd := e.cmd }

theorem Dbug.Alike.outcome_eq {d e : Dbug} (h : d.Alike e) : d.outcome = e.outcome := by
  rw [h]
  rfl

/-- The handler does the same for both arrays. -/
def Alike (f : CommandFun) (dbug : Dbug) (a b : NgxArray) : Prop :=
  Coupled (fun x y => x.2.Alike y.2) (f { dbug with cmd := a } a) (f { dbug with cmd := b } b)

theorem coupled_warn {α β : Type} {R : α → β → Prop} {o : Out} {ok : Bool} {p : Dbg α} {q : Dbg β}
    (h : Coupled R p q) : Coupled R (if ok then p else ask (.print o) >>= fun _ => p)
      (if ok then q else ask (.print o) >>= fun _ => q) :=
  .ite h (.ask fun _ => h)

theorem coupled_exit {α β : Type} {R : α → β → Prop} : Coupled R (exit : Dbg α) (exit : Dbg β) :=
  .call fun x => x.elim

section
variable {dbug : Dbug} {a b : NgxArray} {line : Line}

theorem commandBreak_alike (h : a.str 1 = b.str 1) : Alike commandBreak dbug a b := by
  rw [Alike, commandBreak, commandBreak, h]
  cases findFunc dbug.funs (b.str 1) with
  | none => exact .ret rfl
  | some i => exact .after _ fun _ => .ret rfl

theorem triggerSF_alike {d e : Dbug} (h : d.Alike e) :
    Coupled Dbug.Alike (triggerSF d) (triggerSF e) := by
  cases hfirst : firstSF d.bps (d.regs.rip - 1) with
  | none =>
      have hother : firstSF e.bps (e.regs.rip - 1) = none := by
        rw [h]
        exact hfirst
      rw [triggerSF_eq_ret hfirst, triggerSF_eq_ret hother]
      exact .ret h
  | some bp =>
      have hother : firstSF e.bps (e.regs.rip - 1) = some bp := by
        rw [h]
        exact hfirst
      rw [triggerSF_eq_resume hfirst, triggerSF_eq_resume hother, h]
      exact .ask fun _ => .after _ fun _ => .ret rfl

theorem triggerHW_alike {d e : Dbug} (h : d.Alike e) : triggerHW d = triggerHW e := by
  rw [h]
  rfl

theorem commandContinue_alike : Alike commandContinue dbug a b := by
  rw [Alike, commandContinue, commandContinue]
  refine .ask fun ok => coupled_warn (.ask fun ev => .ite coupled_exit (.ask fun regs => ?_))
  refine .ite ?_ ?_
  · refine .seq (triggerSF_alike ?_) fun d e h => ?_
    · exact rfl
    · rw [triggerHW_alike h]
      exact .after _ fun _ => .ret h
  · exact .ret rfl

theorem commandShow_alike : Alike commandShow dbug a b := .after _ fun _ => .ret rfl

theorem commandShowbps_alike : Alike commandShowbps dbug a b := .after _ fun _ => .ret rfl

theorem commandShowreg_alike : Alike commandShowreg dbug a b := by
  refine .ask fun regs => .ite (.ask fun _ => ?_) ?_
  · exact .after _ fun _ => .ret rfl
  · exact .after _ fun _ => .ret rfl

theorem commandExit_alike : Alike commandExit dbug a b := .ask fun _ => coupled_exit

theorem commandAttach_alike (h : a.str 1 = b.str 1) : Alike commandAttach dbug a b := by
  rw [Alike, commandAttach, commandAttach, h]
  cases b.str 1 with
  | none => exact .call fun x => x.elim
  | some s =>
      refine .seq (R := fun x y => x.2.Alike y.2) ?_ fun x y h => .ret h
      refine .ask fun ok => .ite (.ask fun ev => .ite (.ask fun _ => .ite ?_ ?_) (.ite ?_ ?_)) ?_
      · exact .ret rfl
      · exact .ask fun funs => .ret rfl
      · exact .ret rfl
      · exact .ask fun funs => .ret rfl
      · exact .ask fun _ => .ret rfl

theorem commandWatch_alike (h : a.str 1 = b.str 1) : Alike commandWatch dbug a b := by
  rw [Alike, commandWatch, commandWatch, h]
  cases b.str 1 with
  | none => exact .call fun x => x.elim
  | some s => exact .ask fun _ => .after _ fun _ => .ret rfl

/-- Two arrays with the same name in them, and the same argument if the command takes one. -/
theorem play_alike (hname : a.str 0 = b.str 0) (hdbug : a.str 0 ≠ some nameDbug)
    (harg : Named [nameB, nameWatch, nameAttach] a → a.str 1 = b.str 1) :
    Coupled Dbug.Alike (play a dbug) (play b dbug) := by
  have hcmd : ∀ it ∈ cmdSet, a.str 0 = some it.1 → Alike it.2 dbug a b := by
    have hnamed : ∀ n ∈ [nameB, nameWatch, nameAttach], a.str 0 = some n → a.str 1 = b.str 1 :=
      fun n hn h => harg ⟨n, hn, h⟩
    simp only [cmdSet, List.forall_mem_cons, List.not_mem_nil, false_implies, implies_true,
      and_true] at hnamed ⊢
    obtain ⟨hb, hwatch, hattach⟩ := hnamed
    exact ⟨fun h => commandBreak_alike (hb h), fun _ => commandContinue_alike,
      fun _ => commandShow_alike, fun h => absurd h hdbug, fun h => commandAttach_alike (hattach h),
      fun _ => commandShowreg_alike, fun h => commandWatch_alike (hwatch h),
      fun _ => commandExit_alike, fun _ => commandExit_alike, fun _ => commandExit_alike,
      fun _ => commandShowbps_alike⟩
  cases hfind : cmdSet.find? (fun it => a.str 0 = some it.1) with
  | none =>
      have hother : cmdSet.find? (fun it => b.str 0 = some it.1) = none := hname ▸ hfind
      rw [play_of_none hfind, play_of_none hother, hname]
      exact .ask fun _ => .ret rfl
  | some it =>
      have hother : cmdSet.find? (fun it => b.str 0 = some it.1) = some it := hname ▸ hfind
      have hit : a.str 0 = some it.1 := by simpa using List.find?_some hfind
      rw [play_of_find it hfind, play_of_find it hother]
      exact (hcmd it (List.mem_of_find?_eq_some hfind) hit).seq fun _ _ h => .ret h

/-- The slots a line fills are its tokens, whatever the array was. -/
theorem str_takeLine {cmd : NgxArray} {k : Fin 10} {t : CStr} (h : (tokens line)[k.val]? = some t) :
    (takeLine cmd line).str k = some t := by
  rw [NgxArray.str_eq_slot, slot_takeLine, h]
  rfl

theorem SaysAll.acts (h : SaysAll line) : ActsOnOwnLine line := by
  obtain ⟨name, args, htokens, hdbug, hargs⟩ := saysAll_iff_tokens.mp h
  intro behind dbug h₁ h₂
  have hname : ∀ cmd, (takeLine cmd line).str 0 = some name :=
    fun _ => str_takeLine (by rw [htokens]; rfl)
  rw [onLine_eq, onLine_eq]
  refine congrArg _ (Coupled.eq (.seq (play_alike ?_ ?_ ?_) fun d e hde => .ret hde.outcome_eq))
  · rw [hname, hname]
  · rw [hname]
    exact fun heq => hdbug (Option.some.inj heq)
  · rintro ⟨n, hn, heq⟩
    rw [hname] at heq
    obtain rfl := Option.some.inj heq
    cases args with
    | nil => exact absurd rfl (hargs hn)
    | cons arg args =>
        have harg : ∀ cmd, (takeLine cmd line).str 1 = some arg :=
          fun _ => str_takeLine (by rw [htokens]; rfl)
        rw [harg, harg]

/-! ## Lines that do not -/

/-- `n` tabs, which are `n` empty tokens. -/
def tabs (n : Nat) (h : n < 50) : Line :=
  some ⟨List.replicate n 9, by rw [List.length_replicate]; exact h⟩

theorem tokenize_tabs (n : Nat) : tokenize n (List.replicate n 9) = List.replicate n [] := by
  induction n with
  | zero => rfl
  | succ n ih =>
      rw [List.replicate_succ, List.replicate_succ, ← ih]
      rfl

theorem tokens_tabs {n : Nat} (h : n < 50) : tokens (tabs n h) = List.replicate n [] := by
  have hbuf : (List.replicate n (9 : Byte)).takeWhile (· ≠ 0) = List.replicate n 9 :=
    List.takeWhile_replicate
  rw [tokens, show text (tabs n h) = List.replicate n 9 from hbuf, List.length_replicate]
  exact tokenize_tabs n

theorem NgxArray.slot_create (k : Nat) : NgxArray.create.slot k = none := by
  rw [NgxArray.slot, NgxArray.create, List.getD_eq_getElem?_getD, List.getElem?_replicate]
  split <;> rfl

/-- On a fresh array a line leaves its tokens only. -/
theorem slot_fresh (line : Line) (k : Nat) :
    (takeLine (leftBy []) line).slot k = (tokens line)[k]? := by
  rw [slot_takeLine, leftBy, List.foldl_nil, NgxArray.slot_create, Option.or_none]

/-- After a line of tabs there are empty strings behind the tokens. -/
theorem slot_tabs (line : Line) {n k : Nat} (h : n < 50) (hk : k < n)
    (hlen : (tokens line).length ≤ k) :
    (takeLine (leftBy [tabs n h]) line).slot k = some [] := by
  rw [slot_takeLine, List.getElem?_eq_none hlen, Option.none_or, leftBy, List.foldl_cons,
    List.foldl_nil, slot_takeLine, tokens_tabs, List.getElem?_replicate, if_pos hk]
  rfl

/-- With nothing behind the array, the copy is a list of slots. -/
theorem hide_copyArgv (arg : NgxArray) (n i : Nat) :
    hide (given (fun _ => none) line) (copyArgv arg n i) =
      Prog.ret ((List.range' (i + 1) n).map arg.slot) := by
  induction n generalizing i with
  | zero => rfl
  | succ n ih =>
      have hdata : hide (given (fun _ => none) line) (arg.data (i + 1)) =
          Prog.ret (arg.slot (i + 1)) := by
        rw [NgxArray.data]
        split
        · rename_i hlt
          rw [NgxArray.slot, List.getD_eq_getElem _ _ hlt]
          rfl
        · rename_i hlt
          rw [NgxArray.slot_eq_none (Nat.le_of_not_lt hlt)]
          rfl
      rw [copyArgv, hide_bind, hdata, Prog.ret_bind, hide_bind, ih]
      rfl

/-- The child of a fork; the state is what it gives to `execvp`. -/
def childHandler : Handler Resp (Option (List (Option CStr)))
  | .fork, s => some (0, s)
  | .traceme, s => some (true, s)
  | .execvp _ argv, _ => some ((), some argv)
  | _, _ => none

def continueLine : Line := some ⟨lit ['c', '\n'], by decide⟩

/-- A line without tokens runs the command before it. -/
theorem tokens_ne_nil (h : ActsOnOwnLine line) : tokens line ≠ [] := by
  intro hnil
  have hnone : (takeLine (leftBy []) line).str 0 = none := by
    rw [NgxArray.str_eq_slot, slot_fresh, hnil]
    rfl
  have hc : (takeLine (leftBy [continueLine]) line).str 0 = some nameC := by
    rw [NgxArray.str_eq_slot, slot_takeLine, hnil]
    decide
  have heq := h (fun _ => none) initDbug [] [continueLine]
  rw [onLine_eq, onLine_eq, play_continue hc, play_of_none (by rw [hnone]; rfl)] at heq
  cases heq

/-- A command without its argument takes that of an earlier line. -/
theorem args_ne_nil (h : ActsOnOwnLine line) {name : CStr} {args : List CStr}
    (htokens : tokens line = name :: args) (hname : name ∈ [nameB, nameWatch, nameAttach]) :
    args ≠ [] := by
  rintro rfl
  have hfirst : ∀ cmd, (takeLine cmd line).str 0 = some name :=
    fun _ => str_takeLine (by rw [htokens]; rfl)
  have hnone : (takeLine (leftBy []) line).str 1 = none := by
    rw [NgxArray.str_eq_slot, slot_fresh, htokens]
    rfl
  have hsome : (takeLine (leftBy [tabs 2 (by decide)]) line).str 1 = some [] := by
    rw [NgxArray.str_eq_slot]
    exact slot_tabs line _ (by decide) (by rw [htokens]; exact Nat.le_refl _)
  have heq := h (fun _ => none) { initDbug with funs := some [⟨[], 0⟩] } [] [tabs 2 (by decide)]
  rw [onLine_eq, onLine_eq] at heq
  simp only [List.mem_cons, List.not_mem_nil, or_false] at hname
  rcases hname with rfl | rfl | rfl
  · rw [play_break (hfirst _), play_break (hfirst _), commandBreak, commandBreak, hnone, hsome]
      at heq
    cases heq
  · rw [play_watch (hfirst _), play_watch (hfirst _), commandWatch, commandWatch, hnone, hsome]
      at heq
    cases heq
  · rw [play_attach (hfirst _), play_attach (hfirst _), commandAttach, commandAttach, hnone, hsome]
      at heq
    cases heq

/-- What `dbug` gives to `execvp`: its arguments, and the slot behind them. -/
theorem eval_onLine_dbug (hname : (takeLine dbug.cmd line).str 0 = some nameDbug) :
    (eval childHandler (onLine (fun _ => none) line dbug) none).map Prod.snd =
      some (some ((List.range' 1 (tokens line).length).map (takeLine dbug.cmd line).slot)) := by
  rw [onLine_eq, play_dbug hname, commandDbug, nelts_takeLine, Prog.bind_assoc, Prog.bind_assoc,
    hide_bind, hide_copyArgv]
  rfl

theorem name_ne_dbug (h : ActsOnOwnLine line) {name : CStr} {args : List CStr}
    (htokens : tokens line = name :: args) : name ≠ nameDbug := by
  rintro rfl
  have hfirst : ∀ cmd, (takeLine cmd line).str 0 = some nameDbug :=
    fun _ => str_takeLine (by rw [htokens]; rfl)
  obtain ⟨n, hn⟩ : ∃ n, (tokens line).length = n := ⟨_, rfl⟩
  have hbound : n + 1 < 50 := by
    have hlen := tokens_length line
    rw [hn, htokens, List.map_cons, List.sum_cons] at hlen
    have hname : nameDbug.length = 4 := rfl
    omega
  have hargv := congrArg (fun p => (eval childHandler p none).map Prod.snd)
    (h (fun _ => none) initDbug [] [tabs (n + 1) hbound])
  rw [eval_onLine_dbug (hfirst _), eval_onLine_dbug (hfirst _), hn] at hargv
  have hslots := List.map_inj_left.mp (Option.some.inj (Option.some.inj hargv))
  have hlast : n ∈ List.range' 1 n := by
    rw [List.mem_range'_1, ← hn, htokens]
    exact ⟨Nat.succ_pos _, by rw [Nat.add_comm]; exact Nat.lt_succ_self _⟩
  have hslot := hslots n hlast
  rw [slot_fresh, List.getElem?_eq_none (Nat.le_of_eq hn),
    slot_tabs line hbound (Nat.lt_succ_self n) (Nat.le_of_eq hn)] at hslot
  cases hslot

end

/-- **What a line must say.**  Whatever was typed before, a round does the same
if and only if the line names a command other than `dbug`, with its argument. -/
theorem acts_on_own_line_iff (line : Line) : ActsOnOwnLine line ↔ SaysAll line := by
  refine ⟨fun h => saysAll_iff_tokens.mpr ?_, SaysAll.acts⟩
  cases htokens : tokens line with
  | nil => exact absurd htokens (tokens_ne_nil h)
  | cons name args =>
      exact ⟨name, args, rfl, name_ne_dbug h htokens, fun hname => args_ne_nil h htokens hname⟩

/-! ## The end of the input -/

/-- A program 7, stopped by a SIGTRAP. -/
def started : Dbug := { initDbug with pid := 7, status := (Change.stopped .exec).status }

def dbugLine : Line := some ⟨lit ['d', 'b', 'u', 'g', ' ', 'p', '\n'], by decide⟩

/-- There is no line, and the last command is run once more: the program is
started again, or resumed. -/
theorem end_of_input_repeats :
    (∃ k, onLine (fun _ => none) none { started with cmd := leftBy [dbugLine] } =
        Prog.call .fork k) ∧
      (∃ k, onLine (fun _ => none) none { started with cmd := leftBy [dbugLine, continueLine] } =
        Prog.call (.cont 7 0) k) ∧
      ¬ ActsOnOwnLine none := by
  refine ⟨⟨_, rfl⟩, ⟨_, rfl⟩, ?_⟩
  intro h
  have heq := h (fun _ => none) started [dbugLine] [dbugLine, continueLine]
  cases heq

end TestDbug
