/-
# `TestDbug.Argv` — what the started program is given

`command_dbug` makes `argv` out of as many slots as the line has tokens, but
starts at the second: the last slot it copies is the one behind the line, and
the NULL that ends `argv` is whatever stands there.

To say that no such slot is read, the copying loop is written once more
as a program whose requests are the slots (`copySlots`); `commandDbug_eq` says
that on the array this is `command_dbug`.  With that, `argv_from_line` says
what is right and what is wrong about `argv`, for every history of lines.
-/
import TestDbug.OwnLine

open ByteMemory Interaction

namespace TestDbug

/-! ## Slots as requests -/

/-- A piece of the debugger that asks for slots of `dbug->cmd`, by their numbers. -/
abbrev SlotProg (α : Type) := Prog Nat (fun _ => NgxStr) α

/-- The loop of `command_dbug`, from `i` on. -/
def copySlots : Nat → Nat → SlotProg (List NgxStr)
  | 0, _ => return []
  | n + 1, i => do
      let p ← Prog.req (i + 1)
      let ps ← copySlots n (i + 1)
      return p :: ps

/-- What `command_dbug` gives to `dbug_pro`: the path and `argv`. -/
def dbugArgs (nelts : Nat) : SlotProg (NgxStr × List NgxStr) := do
  let argv ← copySlots nelts 0
  let path ← Prog.req 1
  return (path, argv)

/-- The slots of an array. -/
def onSlots {α : Type} (arg : NgxArray) : SlotProg α → Dbg α
  | .ret a => .ret a
  | .call k f => arg.data k >>= fun x => onSlots arg (f x)

/-- What stands in a slot, or in memory behind the array. -/
def NgxArray.dataAt (a : NgxArray) (behind : Nat → Option CStr) (k : Nat) : NgxStr :=
  if k < a.elts.length then a.slot k else behind k

section
variable {α β : Type} {arg : NgxArray} {dbug : Dbug} {behind : Nat → Option CStr} {k : Nat}

theorem onSlots_bind (p : SlotProg α) (f : α → SlotProg β) :
    onSlots arg (p >>= f) = (onSlots arg p >>= fun a => onSlots arg (f a)) := by
  induction p with
  | ret a => rfl
  | call k g ih => simp only [Prog.call_bind, onSlots, ih, Prog.bind_assoc]

theorem onSlots_req (k : Nat) : onSlots arg (Prog.req k) = arg.data k := Prog.bind_ret _

theorem copyArgv_eq (n i : Nat) : copyArgv arg n i = onSlots arg (copySlots n i) := by
  induction n generalizing i with
  | zero => rfl
  | succ n ih =>
      simp only [copyArgv, copySlots, onSlots_bind, onSlots_req, ih, Prog.pure_eq, onSlots]

/-- `str[1]` is there whatever was typed. -/
theorem data_one : arg.data 1 = Prog.ret (arg.str 1) := by
  have hroom : 1 < arg.elts.length := Nat.lt_of_lt_of_le (by decide) arg.room
  rw [NgxArray.data, dif_pos hroom]
  rfl

/-- `command_dbug` is `dbug_pro` on these slots. -/
theorem commandDbug_eq :
    commandDbug dbug arg = (onSlots arg (dbugArgs arg.nelts) >>= fun args =>
      dbugPro dbug args.1 args.2 >>= fun x => Prog.ret (0, x.2)) := by
  rw [dbugArgs, onSlots_bind, Prog.bind_assoc]
  simp only [onSlots_bind, onSlots_req, data_one, commandDbug, copyArgv_eq, Prog.ret_bind, onSlots,
    Prog.pure_eq]

/-! ## The child -/

/-- What `execvp` was given. -/
abbrev Execd := Option (Option CStr × List (Option CStr))

/-- The child of a fork; memory behind the array holds `behind`. -/
def execHandler (behind : Nat → Option CStr) : Handler Resp Execd
  | .fork, s => some (0, s)
  | .traceme, s => some (true, s)
  | .execvp path argv, _ => some ((), some (path, argv))
  | .beyond k, s => some (behind k, s)
  | .print _, s => some ((), s)
  | _, _ => none

theorem meets_data {s : Execd} {Q : NgxStr → Execd → Prop} :
    Meets (execHandler behind) (arg.data k) Q s ↔ Q (arg.dataAt behind k) s := by
  rw [NgxArray.data, NgxArray.dataAt]
  split
  · rename_i hlt
    rw [NgxArray.slot, List.getD_eq_getElem _ _ hlt]
    exact Iff.rfl
  · exact meets_ask rfl

theorem meets_copyArgv {s : Execd} (n i : Nat) {Q : List (Option CStr) → Execd → Prop} :
    Meets (execHandler behind) (copyArgv arg n i) Q s ↔
      Q ((List.range' (i + 1) n).map (arg.dataAt behind)) s := by
  induction n generalizing i Q with
  | zero => exact Iff.rfl
  | succ n ih =>
      rw [copyArgv, meets_bind, meets_data, meets_bind, ih]
      exact Iff.rfl

/-- The child hands the slots from the second on to `execvp`, as many as the
line has tokens. -/
theorem meets_commandDbug {P : Execd → Prop} :
    Meets (execHandler behind) (commandDbug dbug arg) (fun _ got => P got) none ↔
      P (some (arg.str 1, (List.range' 1 arg.nelts).map (arg.dataAt behind))) := by
  rw [commandDbug, meets_bind, meets_copyArgv, dbugPro, meets_bind, meets_ask rfl, if_pos rfl,
    meets_ask rfl, if_pos rfl, meets_ask rfl, meets_ask rfl]
  exact Iff.rfl

/-! ## What the loop reads -/

theorem emits_copySlots {P : Nat → Prop} (n i : Nat) :
    Emits P (fun _ => True) (copySlots n i) ↔ ∀ k ∈ List.range' (i + 1) n, P k := by
  induction n generalizing i with
  | zero => simp [copySlots, Emits]
  | succ n ih =>
      rw [copySlots, List.range'_succ, List.forall_mem_cons, ← ih]
      refine and_congr_right fun _ => ?_
      show (∀ p, Emits P _ (copySlots n (i + 1) >>= fun ps => Prog.ret (p :: ps))) ↔ _
      simp only [emits_bind]
      show (∀ _ : NgxStr, Emits P (fun _ => True) (copySlots n (i + 1))) ↔ _
      exact forall_const NgxStr

/-! ## The line -/

/-- **Typed and given.**  `execvp` gets the words behind `dbug` and a NULL,
`argv` has room for them, and only the slots of the line are read. -/
structure GivesTyped (behind : Nat → Option CStr) (dbug : Dbug) (arg : NgxArray)
    (args : List CStr) : Prop where
  argv : Meets (execHandler behind) (commandDbug dbug arg)
    (fun _ got => got.map Prod.snd = some (args.map some ++ [none])) none
  room : args.length + 1 ≤ arg.nelts
  reads : Emits (fun k => k ≤ args.length) (fun _ => True) (dbugArgs arg.nelts)

/-- A slot is NULL until a line has been long enough to fill it. -/
theorem slot_leftBy_eq_none {earlier : List Line} :
    (leftBy earlier).slot k = none ↔ ∀ l ∈ earlier, (tokens l).length ≤ k := by
  induction earlier using List.reverseRecOn with
  | nil => simp [leftBy, NgxArray.slot_create]
  | append_singleton ls l ih =>
      rw [leftBy, List.foldl_append, ← leftBy, List.foldl_cons, List.foldl_nil, slot_takeLine,
        Option.or_eq_none_iff, List.getElem?_eq_none_iff, ih]
      simp only [List.mem_append, List.mem_singleton, or_imp, forall_and, forall_eq]
      exact And.comm

end

section
variable {earlier : List Line} {line : Line} {behind : Nat → Option CStr} {dbug : Dbug}
  {args : List CStr}

/-- The slots of the line hold its tokens. -/
theorem dataAt_own {k : Nat} {t : CStr} (h : (tokens line)[k]? = some t) :
    (takeLine (leftBy earlier) line).dataAt behind k = some t := by
  have hslot : (takeLine (leftBy earlier) line).slot k = some t := by
    rw [slot_takeLine, h]
    rfl
  rw [NgxArray.dataAt]
  split
  · exact hslot
  · rename_i hge
    rw [NgxArray.slot_eq_none (Nat.le_of_not_lt hge)] at hslot
    cases hslot

theorem map_dataAt_own {name : CStr} (htokens : tokens line = name :: args) :
    (List.range' 1 args.length).map ((takeLine (leftBy earlier) line).dataAt behind) =
      args.map some := by
  apply List.ext_getElem
  · simp
  · intro k hk _
    rw [List.length_map, List.length_range'] at hk
    rw [List.getElem_map, List.getElem_range', List.getElem_map, Nat.one_mul]
    apply dataAt_own
    rw [htokens, Nat.add_comm, List.getElem?_cons_succ, List.getElem?_eq_getElem hk]

/-- `argv` is right if and only if the slot behind the line is NULL. -/
theorem meets_argv_iff (htokens : tokens line = nameDbug :: args) :
    Meets (execHandler behind) (commandDbug dbug (takeLine (leftBy earlier) line))
        (fun _ got => got.map Prod.snd = some (args.map some ++ [none])) none ↔
      (takeLine (leftBy earlier) line).dataAt behind (args.length + 1) = none := by
  rw [meets_commandDbug, nelts_takeLine, htokens, List.length_cons, List.range'_1_concat,
    List.map_append, map_dataAt_own htokens, Nat.add_comm 1]
  simp

/-- That slot is as the earlier lines have left it. -/
theorem dataAt_behind (htokens : tokens line = nameDbug :: args) :
    (takeLine (leftBy earlier) line).dataAt behind (args.length + 1) = none ↔
      if args.length + 1 < (takeLine (leftBy earlier) line).elts.length then
        ∀ l ∈ earlier, (tokens l).length ≤ args.length + 1
      else behind (args.length + 1) = none := by
  rw [NgxArray.dataAt]
  split
  · rw [slot_takeLine, htokens, List.getElem?_eq_none (Nat.le_of_eq List.length_cons),
      Option.none_or, slot_leftBy_eq_none]
  · exact Iff.rfl

theorem not_reads_own (htokens : tokens line = nameDbug :: args) :
    ¬ Emits (fun k => k ≤ args.length) (fun _ => True)
      (dbugArgs (takeLine (leftBy earlier) line).nelts) := by
  rw [nelts_takeLine, htokens, List.length_cons, dbugArgs, emits_bind]
  intro h
  have hslots := (emits_copySlots _ _).mp (h.mono (fun _ hk => hk) fun _ _ => trivial)
  have hlast := hslots (args.length + 1) (List.mem_range'_1.mpr ⟨by omega, by omega⟩)
  exact absurd hlast (Nat.not_succ_le_self _)

/-- **What the started program is given.**  For every history and every line
`dbug a1 … an`: a slot behind the line is read; `argv` has room for it; and what
stands there ends `argv`, so that this is right as long as no earlier line had
more than `n + 1` tokens, and where the array ends with the line, as memory
behind it happens to be. -/
theorem argv_from_line (htokens : tokens line = nameDbug :: args) :
    ¬ GivesTyped behind dbug (takeLine (leftBy earlier) line) args ∧
      args.length + 1 ≤ (takeLine (leftBy earlier) line).nelts ∧
      (Meets (execHandler behind) (commandDbug dbug (takeLine (leftBy earlier) line))
          (fun _ got => got.map Prod.snd = some (args.map some ++ [none])) none ↔
        if args.length + 1 < (takeLine (leftBy earlier) line).elts.length then
          ∀ l ∈ earlier, (tokens l).length ≤ args.length + 1
        else behind (args.length + 1) = none) := by
  refine ⟨fun h => not_reads_own htokens h.reads, ?_, ?_⟩
  · rw [nelts_takeLine, htokens]
    exact Nat.le_refl _
  · exact (meets_argv_iff htokens).trans (dataAt_behind htokens)

end

/-! ## A shorter line -/

def longLine : Line :=
  some ⟨lit ['d', 'b', 'u', 'g', ' ', 'p', ' ', 'a', ' ', 'b', '\n'], by decide⟩

/-- On a fresh array `argv` is right. -/
theorem argv_from_line_fresh :
    Meets (execHandler fun _ => none) (commandDbug initDbug (takeLine (leftBy []) dbugLine))
      (fun _ got => got.map Prod.snd = some ([lit ['p']].map some ++ [none])) none := by
  have htokens : tokens dbugLine = nameDbug :: [lit ['p']] := by decide
  have hroom : ([lit ['p']] : List CStr).length + 1 < (takeLine (leftBy []) dbugLine).elts.length :=
    by decide
  refine (argv_from_line htokens).2.2.mpr ?_
  rw [if_pos hroom]
  intro l hl
  cases hl

/-- After `dbug p a b`, the line `dbug p` starts `p` with the word `a`, and
without a NULL. -/
theorem argv_from_earlier_line :
    (eval (execHandler fun _ => none)
        (commandDbug initDbug (takeLine (leftBy [longLine]) dbugLine)) none).map Prod.snd =
      some (some (some (lit ['p']), [some (lit ['p']), some (lit ['a'])])) ∧
      ¬ GivesTyped (fun _ => none) initDbug (takeLine (leftBy [longLine]) dbugLine) [lit ['p']] := by
  constructor
  · decide +kernel
  · intro h
    have hargv := meets_commandDbug.mp h.argv
    cases hargv

end TestDbug
