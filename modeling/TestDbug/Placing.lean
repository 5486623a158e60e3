/-
# `TestDbug.Placing` — breakpoints that are not there

`command_break` and `command_watch` push their entry before they touch the
debuggee, and drop what the functions they call return; these drop in turn
what `ptrace` returns.  Whatever fails, there is a new entry and the answer is 0.

In the kernel of this module any `PEEKTEXT`, `POKETEXT` and `POKEUSER` may fail
(`Target.grants`), and programs may write to their own memory whenever they
run.  `all_or_nothing_iff` says, for every state a session can reach and every
pattern of failures, when the entry is true: the breakpoint is armed, and the
byte it has saved is the one the program had there (`Target.own`).
-/
import TestDbug.Watch

open ByteMemory Interaction

namespace TestDbug

/-! ## A system that fails -/

/-- Memory and debug registers of all processes. -/
structure Target where
  mem : Pid → Mem 64 Byte
  /-- What the program of the process put there. -/
  own : Pid → Mem 64 Byte
  dr : Pid → DebugRegs
  /-- Which of the requests to come succeed. -/
  grants : Nat → Bool

/-- One request has been answered. -/
def Target.next (s : Target) : Target := { s with grants := fun k => s.grants (k + 1) }

/-- A process the debugger has not touched. -/
def Target.load (s : Target) (pid : Pid) (m : Mem 64 Byte) : Target :=
  { s with
    mem := Function.update s.mem pid m
    own := Function.update s.own pid m
    dr := Function.update s.dr pid fun _ => 0 }

/-- Every program has run, and written where it liked. -/
structure Target.Ran (s s' : Target) : Prop where
  dr : s'.dr = s.dr
  grants : s'.grants = s.grants
  wrote : ∀ q a, (s'.mem q a = s.mem q a ∧ s'.own q a = s.own q a) ∨ s'.mem q a = s'.own q a

/-- A `POKETEXT`. -/
def Target.poketext (s : Target) (pid : Pid) (a w : Word) : Target :=
  if s.grants 0 then
    { s.next with mem := Function.update s.mem pid (poke (s.mem pid) a w) }
  else s.next

/-- A `POKEUSER` of a debug register. -/
def Target.pokeuser (s : Target) (pid : Pid) (num : Fin 8) (w : Word) : Target :=
  if s.grants 0 then
    { s.next with dr := Function.update s.dr pid (Function.update (s.dr pid) num w) }
  else s.next

/-- The requests that place a breakpoint. -/
def placeHandler : Handler Resp Target
  | .peektext pid a, s =>
      some (if s.grants 0 then some (peek (s.mem pid) a) else none, s.next)
  | .poketext pid a w, s => some (s.grants 0, s.poketext pid a w)
  | .pokeuser pid num w, s => some (s.grants 0, s.pokeuser pid num w)
  | .print _, s => some ((), s)
  | _, _ => none

/-- All requests; those above are answered as above. -/
def placeKernel : Kernel Resp Target
  | .peektext pid a, s, x, s' => placeHandler.kernel (.peektext pid a) s x s'
  | .poketext pid a w, s, x, s' => placeHandler.kernel (.poketext pid a w) s x s'
  | .pokeuser pid num w, s, x, s' => placeHandler.kernel (.pokeuser pid num w) s x s'
  | .fork, s, x, s' => (x ≤ 0 ∧ s' = s) ∨ (0 < x ∧ ∃ m, s' = s.load x m)
  | .attach pid, s, x, s' => (x = false ∧ s' = s) ∨ (x = true ∧ ∃ m, s' = s.load pid m)
  | .wait, s, _, s' => s.Ran s'
  | .waitpid _, s, _, s' => s.Ran s'
  | _, s, _, s' => s' = s

/-! ## The law -/

/-- The breakpoint is where the entry says: an INT3 over a byte of the program
that has been saved, or an enabled debug register. -/
def Breakpoint.Placed (bp : Breakpoint) (pid : Pid) (s : Target) : Prop :=
  match bp.type with
  | .SFBP => s.mem pid bp.addr = INT_3 ∧ bp.origByte = s.own pid bp.addr
  | .HWBP => ∃ k, Enabled (s.dr pid) k bp.addr
  | .unset => False

/-- 0 and one new entry, which is true; or a negative value, and nothing has changed. -/
def AllOrNothing (dbug : Dbug) (s : Target) (x : Int × Dbug) (s' : Target) : Prop :=
  (x.1 = 0 ∧ ∃ bp, x.2.bps = dbug.bps ++ [bp] ∧ bp.Placed dbug.pid s') ∨
    (x.1 < 0 ∧ x.2.bps = dbug.bps ∧ s'.mem = s.mem ∧ s'.dr = s.dr)

/-- What `b` breaks at. -/
def breakAddr (dbug : Dbug) (arg : NgxArray) : Option Word :=
  (findFunc dbug.funs (arg.str 1)).map fun i => ((dbug.funs.getD []).getD i ⟨[], 0⟩).addr

/-- No such function; or the INT3 is written, or one was there, and the byte
saved is the program's: read, or 0xFF where nothing was read. -/
def BreakLands (dbug : Dbug) (arg : NgxArray) (s : Target) : Prop :=
  ∀ a, breakAddr dbug arg = some a →
    (s.grants 2 = true ∨ s.mem dbug.pid a = INT_3) ∧
      (if s.grants 0 then s.mem dbug.pid a else 0xFF) = s.own dbug.pid a

/-- There is an argument, and either register is written or held the value before. -/
def WatchLands (dbug : Dbug) (arg : NgxArray) (s : Target) : Prop :=
  ∃ text, arg.str 1 = some text ∧
    (s.grants 0 = true ∨ s.dr dbug.pid 0 = (sscanfLx text).getD 0) ∧
      (s.grants 1 = true ∨ s.dr dbug.pid 7 = dr7Word)

section
variable {s s' : Target} {dbug : Dbug} {arg : NgxArray} {pid : Pid} {a : Word} {b : Byte}

/-! ## One byte -/

theorem peeked_byte (ok : Bool) (m : Mem 64 Byte) :
    (toBytes (peekResult (if ok then some (peek m a) else none))).take 1 =
      [if ok then m a else 0xFF] := by
  cases ok with
  | true =>
      rw [if_pos rfl, if_pos rfl, peekResult, toBytes_peek]
      rfl
  | false =>
      rw [if_neg Bool.false_ne_true, if_neg Bool.false_ne_true]
      decide

/-- `read_pro_mem` of one byte always finds one. -/
theorem meets_readByte {str : List Byte} {Q : Int × List Byte → Target → Prop} :
    Meets placeHandler (readProMem pid a str 1) Q s ↔
      Q (0, (if s.grants 0 then s.mem pid a else 0xFF) :: str.drop 1) s.next := by
  show Meets placeHandler (readLoop pid a 1 0 0 str) Q s ↔ _
  have haddr : a + BitVec.ofNat 64 (0 * WORD) = a := BitVec.add_zero a
  rw [readLoop, if_pos (by decide), meets_ask rfl, if_neg (not_data_lt_zero _), haddr,
    show 1 % WORD = 1 from rfl, peeked_byte]
  exact Iff.rfl

@[simp] theorem Target.poketext_own (w : Word) : (s.poketext pid a w).own = s.own := by
  rw [poketext]
  split <;> rfl

theorem Target.pokeuser_dr (num k : Fin 8) (w : Word) :
    (s.pokeuser pid num w).dr pid k =
      if s.grants 0 = true ∧ k = num then w else s.dr pid k := by
  rw [pokeuser]
  by_cases hgrant : s.grants 0 = true
  · rw [if_pos hgrant]
    show Function.update s.dr pid (Function.update (s.dr pid) num w) pid k = _
    rw [Function.update_self]
    by_cases hk : k = num
    · subst hk
      rw [Function.update_self, if_pos ⟨hgrant, rfl⟩]
    · rw [Function.update_of_ne hk, if_neg fun h => hk h.2]
  · rw [if_neg hgrant, if_neg fun h => hgrant h.1]
    rfl

theorem Target.pokeuser_dr_of_ne {q : Pid} (hq : q ≠ pid) (num : Fin 8) (w : Word) :
    (s.pokeuser pid num w).dr q = s.dr q := by
  rw [pokeuser]
  split
  · exact Function.update_of_ne hq _ _
  · rfl

/-- The state after `write_pro_mem` of one byte: the word read, with its first byte replaced. -/
def Target.byteWritten (s : Target) (pid : Pid) (a : Word) (b : Byte) : Target :=
  s.next.poketext pid a (ofBytes (memcpy (toBytes (peekResult
    (if s.grants 0 then some (peek (s.mem pid) a) else none))) 0 [b]))

/-- A word whose first byte is `b` puts `b` at its address. -/
theorem poke_first (m : Mem 64 Byte) (w : Word) :
    poke m a (ofBytes (memcpy (toBytes w) 0 [b])) a = b := by
  have hlen : (memcpy (toBytes w) 0 [b]).length = 8 := by simp [memcpy]
  rw [poke, toBytes_ofBytes hlen, store, BitVec.sub_self]
  rfl

/-- The byte is there if the `POKETEXT` has succeeded. -/
theorem Target.byteWritten_mem :
    (s.byteWritten pid a b).mem pid a = if s.grants 1 then b else s.mem pid a := by
  have hgrant : s.next.grants 0 = s.grants 1 := rfl
  rw [byteWritten, poketext, hgrant]
  split
  · show Function.update s.mem pid _ pid a = b
    rw [Function.update_self]
    exact poke_first _ _
  · rfl

theorem meets_writeByte {Q : Int → Target → Prop} :
    Meets placeHandler (writeProMem pid a [b] 1) Q s ↔
      Q (if s.grants 1 then 0 else -1) (s.byteWritten pid a b) := by
  show Meets placeHandler (writeLoop pid a [b] 1 0 0) Q s ↔ _
  have haddr : a + BitVec.ofNat 64 (0 * WORD) = a := BitVec.add_zero a
  have hgrant : s.next.grants 0 = s.grants 1 := rfl
  rw [writeLoop, if_pos (by decide), meets_ask rfl, if_neg (not_data_lt_zero _), haddr,
    meets_ask rfl, hgrant]
  cases s.grants 1 with
  | true => exact Iff.rfl
  | false =>
      simp only [Bool.false_eq_true, if_false]
      exact meets_ask rfl

/-! ## The commands -/

/-- `insert_INT3_bp` saves the byte it has found, or 0xFF. -/
theorem meets_insertINT3Bp_failing {bp : Breakpoint} {Q : Int × Breakpoint → Target → Prop} :
    Meets placeHandler (insertINT3Bp pid bp) Q s ↔
      Q (0, bp.planted (if s.grants 0 then s.mem pid bp.addr else 0xFF))
        (s.next.byteWritten pid bp.addr INT_3) := by
  rw [insertINT3Bp, meets_bind, meets_readByte, meets_bind]
  refine meets_writeByte.trans ?_
  rw [meets_ask rfl]
  exact Iff.rfl

/-- A command that answers 0 is judged by the entry it has pushed. -/
theorem allOrNothing_pushed {bp : Breakpoint} :
    AllOrNothing dbug s (0, { dbug with bps := dbug.bps ++ [bp] }) s' ↔ bp.Placed dbug.pid s' := by
  constructor
  · rintro (⟨-, bp', hbps, hplaced⟩ | ⟨hneg, -⟩)
    · have hbp := List.append_cancel_left hbps
      obtain rfl := (List.cons.inj hbp).1
      exact hplaced
    · exact absurd hneg (Int.lt_irrefl 0)
  · intro hplaced
    exact Or.inl ⟨rfl, bp, rfl, hplaced⟩

theorem placed_planted {bp : Breakpoint} :
    (bp.planted b).Placed pid (s.next.byteWritten pid bp.addr INT_3) ↔
      (s.grants 2 = true ∨ s.mem pid bp.addr = INT_3) ∧ b = s.own pid bp.addr := by
  show (_ ∧ (bp.planted b).origByte = _) ↔ _
  rw [Breakpoint.planted_addr, Target.byteWritten_mem, Target.byteWritten, Target.poketext_own,
    Breakpoint.planted_origByte]
  refine and_congr_left fun _ => ?_
  show (if s.grants 2 = true then INT_3 else s.mem pid bp.addr) = INT_3 ↔ _
  split
  · rename_i hgrant
    exact iff_of_true rfl (Or.inl hgrant)
  · rename_i hgrant
    exact (or_iff_right hgrant).symm

theorem meets_break :
    Meets placeHandler (commandBreak dbug arg) (AllOrNothing dbug s) s ↔ BreakLands dbug arg s := by
  rw [commandBreak, BreakLands, breakAddr]
  cases hfind : findFunc dbug.funs (arg.str 1) with
  | none =>
      refine iff_of_true (Or.inr ⟨show (-1 : Int) < 0 by decide, rfl, rfl, rfl⟩) ?_
      intro a ha
      cases ha
  | some i =>
      dsimp only
      rw [meets_bind, meets_insertINT3Bp_failing]
      simp only [Option.map_some, Option.some.injEq, forall_eq']
      exact allOrNothing_pushed.trans placed_planted

theorem meets_warn {α : Type} {o : Out} {ok : Bool} {p : Dbg α} {Q : α → Target → Prop} :
    Meets placeHandler (if ok then p else ask (.print o) >>= fun _ => p) Q s ↔
      Meets placeHandler p Q s := by
  cases ok with
  | true => exact Iff.rfl
  | false => exact meets_ask rfl

theorem meets_insertHardBreak {bp : Breakpoint} {Q : Int × Breakpoint → Target → Prop} :
    Meets placeHandler (insertHardBreak pid bp) Q s ↔
      Q (0, { bp with type := .HWBP })
        ((s.pokeuser pid 0 bp.addr).pokeuser pid 7 dr7Word) := by
  rw [insertHardBreak, meets_ask rfl]
  refine meets_warn.trans ?_
  rw [meets_ask rfl]
  exact meets_warn

/-- With `L0` and `G0` set, or none of the bits, only DR0 can be enabled. -/
theorem enabled_iff {r : DebugRegs} (h7 : r 7 = 0 ∨ r 7 = dr7Word) :
    (∃ k, Enabled r k a) ↔ r 0 = a ∧ r 7 = dr7Word := by
  constructor
  · rintro ⟨k, hk, hbits⟩
    rcases h7 with h7 | h7
    · rw [h7] at hbits
      simp at hbits
    · rw [h7] at hbits
      rw [dr7Word_bits k hbits] at hk
      exact ⟨hk, h7⟩
  · rintro ⟨h0, h7⟩
    refine ⟨0, h0, Or.inl ?_⟩
    rw [h7]
    rfl

theorem watched_dr0 {w : Word} : ((s.pokeuser pid 0 a).pokeuser pid 7 w).dr pid 0 =
    if s.grants 0 = true then a else s.dr pid 0 := by
  rw [Target.pokeuser_dr, if_neg fun h => absurd h.2 (by decide), Target.pokeuser_dr]
  simp only [and_true]

theorem watched_dr7 {w : Word} : ((s.pokeuser pid 0 a).pokeuser pid 7 w).dr pid 7 =
    if s.grants 1 = true then w else s.dr pid 7 := by
  have hgrant : (s.pokeuser pid 0 a).grants 0 = s.grants 1 := by
    rw [Target.pokeuser]
    split <;> rfl
  have hkeep : (s.pokeuser pid 0 a).dr pid 7 = s.dr pid 7 := by
    rw [Target.pokeuser_dr, if_neg fun h => absurd h.2 (by decide)]
  rw [Target.pokeuser_dr, hkeep, hgrant]
  simp only [and_true]

theorem ite_eq_left_or {α : Type} {c : Prop} [Decidable c] {x y : α} :
    (if c then x else y) = x ↔ c ∨ y = x := by
  by_cases hc : c
  · simp [hc]
  · simp [hc]

theorem meets_watch (h7 : s.dr dbug.pid 7 = 0 ∨ s.dr dbug.pid 7 = dr7Word) :
    Meets placeHandler (commandWatch dbug arg) (AllOrNothing dbug s) s ↔ WatchLands dbug arg s := by
  rw [commandWatch, WatchLands]
  cases harg : arg.str 1 with
  | none =>
      refine iff_of_false ?_ ?_
      · rintro ⟨x, -⟩
        exact x.elim
      · rintro ⟨text, htext, -⟩
        cases htext
  | some text =>
      dsimp only
      rw [meets_ask rfl, meets_bind, meets_insertHardBreak]
      refine allOrNothing_pushed.trans ((enabled_iff ?_).trans ?_)
      · rw [watched_dr7]
        split
        · exact Or.inr rfl
        · exact h7
      · rw [watched_dr0, watched_dr7, ite_eq_left_or, ite_eq_left_or]
        simp only [Option.some.injEq, exists_eq_left']

end

/-! ## Sessions -/

/-- DR7 is as it was, or as `insert_hard_break` sets it. -/
def Dr7Known (s : Target) : Prop := ∀ pid, s.dr pid 7 = 0 ∨ s.dr pid 7 = dr7Word

/-- Nothing else is written to DR7. -/
def KeepsDr7 (r : Req) : Prop := ∀ pid w, r = .pokeuser pid 7 w → w = dr7Word

theorem keepsDr7_of_mem {pid : Pid} {r : Req} (h : MemReq pid r) : KeepsDr7 r := by
  rintro pid' w rfl
  cases h

theorem keepsDr7_of_out {r : Req} (h : OutReq r) : KeepsDr7 r := by
  rintro pid w rfl
  cases h

theorem keepsDr7_of_start {r : Req} (h : StartReq r) : KeepsDr7 r := by
  rintro pid w rfl
  cases h

theorem keepsDr7_of_cont {pid : Pid} {r : Req} (h : ContReq pid r) : KeepsDr7 r := by
  rintro pid' w rfl
  cases h with
  | mem h => cases h

theorem emits_watch_keepsDr7 {dbug : Dbug} {arg : NgxArray} :
    Emits KeepsDr7 (fun _ => True) (commandWatch dbug arg) := by
  have hprint : ∀ o, KeepsDr7 (.print o) := fun o pid w h => by cases h
  rw [commandWatch]
  cases arg.str 1 with
  | none => exact .ask (fun pid w h => by cases h) fun x => x.elim
  | some text =>
      refine .ask (hprint _) fun _ => ?_
      have hplace : ∀ {bp : Breakpoint},
          Emits KeepsDr7 (fun _ => True) (insertHardBreak dbug.pid bp) := by
        intro bp
        rw [insertHardBreak]
        refine .ask (fun pid w h => ?_) fun _ => emits_warn (hprint _) ?_
        · injection h with _ hnum
          exact absurd hnum (by decide)
        · refine .ask (fun pid w h => ?_) fun _ => emits_warn (hprint _) trivial
          injection h with _ _ hw
          exact hw.symm
      exact hplace.seq fun _ _ => trivial

theorem emits_play_keepsDr7 (arg : NgxArray) (dbug : Dbug) :
    Emits KeepsDr7 (fun _ => True) (play arg dbug) := by
  have hret : ∀ {p : Dbg (Int × Dbug)} {V}, Emits KeepsDr7 V p →
      Emits KeepsDr7 (fun _ => True) (p >>= fun x => Prog.ret x.2) :=
    fun h => h.seq fun _ _ => trivial
  refine play_cases (.ask (fun pid w h => by cases h) fun _ => trivial) ?_
  simp only [cmdSet, List.forall_mem_cons, List.not_mem_nil, false_implies, implies_true, and_true]
  have hexit : ∀ {d : Dbug}, Emits KeepsDr7 (fun _ => True)
      (commandExit d arg >>= fun x => Prog.ret x.2) := by
    intro d
    refine hret (emits_exit.mono (V := fun _ => True) ?_ fun _ h => h)
    rintro r (rfl | rfl) pid w h
    · cases h
    · cases h
  refine ⟨fun _ => hret (emits_break.mono (fun _ => keepsDr7_of_mem) fun _ h => h),
    fun _ => hret (emits_continue.mono (fun _ => keepsDr7_of_cont) fun _ h => h),
    fun _ => hret (emits_show.mono (fun _ => keepsDr7_of_out) fun _ h => h),
    fun _ => hret (emits_dbug.mono (fun _ => keepsDr7_of_start) fun _ h => h),
    fun _ => hret (emits_attach.mono (fun _ => keepsDr7_of_start) fun _ h => h),
    fun _ => hret (emits_showreg.mono ?_ fun _ h => h),
    fun _ => hret emits_watch_keepsDr7, fun _ => hexit, fun _ => hexit, fun _ => hexit,
    fun _ => hret (emits_showbps.mono (fun _ => keepsDr7_of_out) fun _ h => h)⟩
  rintro r (hr | rfl)
  · exact keepsDr7_of_out hr
  · intro pid w h
    cases h

theorem Dr7Known.load {s : Target} (h : Dr7Known s) (pid : Pid) (m : Mem 64 Byte) :
    Dr7Known (s.load pid m) := by
  intro q
  show Function.update s.dr pid (fun _ => 0) q 7 = 0 ∨ _
  by_cases hq : q = pid
  · subst hq
    rw [Function.update_self]
    exact Or.inl rfl
  · show _ ∨ Function.update s.dr pid (fun _ => 0) q 7 = dr7Word
    rw [Function.update_of_ne hq]
    exact h q

theorem Dr7Known.pokeuser {s : Target} (h : Dr7Known s) (pid : Pid) {num : Fin 8} {w : Word}
    (hw : num = 7 → w = dr7Word) : Dr7Known (s.pokeuser pid num w) := by
  intro q
  by_cases hq : q = pid
  · subst hq
    rw [Target.pokeuser_dr]
    split
    · rename_i hnum
      exact Or.inr (hw hnum.2.symm)
    · exact h q
  · rw [Target.pokeuser_dr_of_ne hq]
    exact h q

theorem Dr7Known.step {r : Req} {s s' : Target} {x : Resp r} (h : Dr7Known s) (hr : KeepsDr7 r)
    (hK : placeKernel r s x s') : Dr7Known s' := by
  cases r with
  | peektext pid a =>
      cases hK
      exact h
  | poketext pid a w =>
      cases hK
      intro q
      rw [Target.poketext]
      split <;> exact h q
  | pokeuser pid num w =>
      cases hK
      exact h.pokeuser pid fun hnum => hr pid w (hnum ▸ rfl)
  | fork =>
      rcases hK with ⟨-, rfl⟩ | ⟨-, m, rfl⟩
      · exact h
      · exact h.load _ m
  | attach pid =>
      rcases hK with ⟨-, rfl⟩ | ⟨-, m, rfl⟩
      · exact h
      · exact h.load _ m
  | wait =>
      intro q
      rw [hK.dr]
      exact h q
  | waitpid pid =>
      intro q
      rw [hK.dr]
      exact h q
  | _ =>
      obtain rfl := hK
      exact h

theorem placeKernel_print {o : Out} {s s' : Target} {x : Unit} :
    placeKernel (.print o) s x s' ↔ placeHandler.kernel (.print o) s x s' := by
  constructor
  · rintro rfl
    rfl
  · intro h
    cases h
    rfl

theorem returns_break {dbug : Dbug} {arg : NgxArray} {s : Target} :
    Returns placeKernel (commandBreak dbug arg) (AllOrNothing dbug s) s ↔
      BreakLands dbug arg s := by
  refine (emits_break.returns_iff fun r hr s x s' => ?_).trans meets_break
  cases hr with
  | peektext a => exact Iff.rfl
  | poketext a w => exact Iff.rfl
  | print o _ => exact placeKernel_print

theorem returns_watch {dbug : Dbug} {arg : NgxArray} {s : Target}
    (h7 : s.dr dbug.pid 7 = 0 ∨ s.dr dbug.pid 7 = dr7Word) :
    Returns placeKernel (commandWatch dbug arg) (AllOrNothing dbug s) s ↔
      WatchLands dbug arg s := by
  refine (emits_watch.returns_iff fun r hr s x s' => ?_).trans (meets_watch h7)
  cases hr with
  | pokeuser num w => exact Iff.rfl
  | print o _ => exact placeKernel_print
  | segv => exact x.elim

/-- **When a breakpoint is really set.**  At any prompt, and whatever requests
are going to fail: `b` does all or nothing if and only if `BreakLands`, and
`watch` if and only if `WatchLands`. -/
theorem all_or_nothing_iff {dbug₀ dbug : Dbug} {s₀ s : Target} {args : List NgxArray}
    (hfresh : ∀ pid, s₀.dr pid = fun _ => 0)
    (hrun : Runs placeKernel play Always dbug₀ s₀ args dbug s) (arg : NgxArray) :
    (Returns placeKernel (commandBreak dbug arg) (AllOrNothing dbug s) s ↔
      BreakLands dbug arg s) ∧
    (Returns placeKernel (commandWatch dbug arg) (AllOrNothing dbug s) s ↔
      WatchLands dbug arg s) := by
  have h₀ : Dr7Known s₀ := by
    intro pid
    rw [hfresh]
    exact Or.inl rfl
  have h7 : Dr7Known s := by
    refine hrun.invariant (fun _ => Dr7Known) (I := fun _ => Free) ?_ h₀
    intro arg d s _ hs
    refine wp_mono (fun _ _ h => h.2) ((emits_play_keepsDr7 arg d).wp (J := Dr7Known) ?_ ?_ hs)
    · exact fun _ _ _ _ => trivial
    · exact fun r s x s' hr hs hK => hs.step hr hK
  exact ⟨returns_break, returns_watch (h7 dbug.pid)⟩

/-! ### A function at an address that is not mapped -/

/-- The process 7 is started, and has a function `f`. -/
def startHandler : Handler Resp Target
  | .fork, s => some (7, s.load 7 fun _ => 0x90)
  | .wait, s => some (some ⟨7, .stopped .exec⟩, s)
  | .openFuns _, s => some (some [⟨lit ['f'], 0x1000⟩], s)
  | .print _, s => some ((), s)
  | _, _ => none

theorem startHandler_kernel (r : Req) (s : Target) (x : Resp r) (s' : Target)
    (h : startHandler r s = some (x, s')) : placeKernel r s x s' := by
  cases r with
  | fork =>
      cases h
      exact Or.inr ⟨by decide, _, rfl⟩
  | wait =>
      cases h
      exact ⟨rfl, rfl, fun q a => Or.inl ⟨rfl, rfl⟩⟩
  | openFuns pid =>
      cases h
      rfl
  | print o =>
      cases h
      rfl
  | _ => cases h

/-- Nothing but NOPs anywhere, and `granted` says which requests succeed. -/
def nops (granted : Nat → Bool) : Target :=
  ⟨fun _ _ => 0x90, fun _ _ => 0x90, fun _ _ => 0, granted⟩

def startSeven : List NgxArray := [typed ['d', 'b', 'u', 'g', ' ', 'p', '\n']]

def breakF : NgxArray := typed ['b', ' ', 'f', '\n']

/-- The debugger of the process 7, after `startSeven`. -/
def afterStart : Dbug :=
  { initDbug with
    pid := 7
    status := (Change.stopped .exec).status
    cmd := typed ['d', 'b', 'u', 'g', ' ', 'p', '\n']
    funs := some [⟨lit ['f'], 0x1000⟩] }

theorem startSeven_runs (granted : Nat → Bool) :
    Runs placeKernel play Always initDbug (nops granted) startSeven afterStart
      ((nops granted).load 7 fun _ => 0x90) :=
  runs_iff_ends.mpr (eval_ends startHandler_kernel rfl)

theorem all_or_nothing_iff_granted :
    Returns placeKernel (commandBreak afterStart breakF)
      (AllOrNothing afterStart ((nops fun _ => true).load 7 fun _ => 0x90))
      ((nops fun _ => true).load 7 fun _ => 0x90) := by
  refine ((all_or_nothing_iff (fun _ => rfl) (startSeven_runs _) breakF).1).mpr ?_
  intro a ha
  obtain rfl : 0x1000 = a := by
    have haddr : breakAddr afterStart breakF = some 0x1000 := by decide +kernel
    exact Option.some.inj (haddr.symm.trans ha)
  exact ⟨Or.inl rfl, rfl⟩

/-- No request succeeds: `b f` returns 0 and lists a breakpoint. -/
theorem failed_break_is_listed :
    ∃ (dbug : Dbug) (s : Target),
      Runs placeKernel play Always initDbug (nops fun _ => false) startSeven dbug s ∧
        (eval placeHandler (commandBreak dbug breakF) s).map
            (fun q => (q.1.1, q.1.2.bps.map Breakpoint.addr, q.2.mem 7 0x1000)) =
          some (0, [0x1000], 0x90) ∧
        ¬ Returns placeKernel (commandBreak dbug breakF) (AllOrNothing dbug s) s := by
  refine ⟨afterStart, _, startSeven_runs _, by decide +kernel, ?_⟩
  rw [returns_break]
  intro h
  rcases (h 0x1000 (by decide +kernel)).1 with hgrant | hmem
  · cases hgrant
  · exact absurd hmem (by decide)

end TestDbug
