/-
# `TestDbug.Blog` — the breakpoint programs of `blog/`

`softbreak.c`, `dbug_break.c` and `attach.c` stop their child at each call of
one function and print where it stands.  They share a loop (`breakLoop`) and
differ in how they take the INT3 out and put it back: `softbreak.c` writes the
word it has saved at the start, the other two the one byte.

On a program that is `Suitable` for the function's address the loop prints the
visits of the undebugged program to it, all of them, and ends where the program
ends (`breakLoop_ends`).  For `softbreak.c` the program must in addition leave
alone the word it has been patched in, since each stop writes all of it back.
-/
import TestDbug.Stops
import TestDbug.Hardware

open ByteMemory Interaction

namespace TestDbug

/-! ## The programs -/

/-- A stop of the loop, between its `wait` and its `PTRACE_CONT`: the registers,
and the numbers printed so far. -/
def breakStop (pid : Pid) (shown : UserRegs → List Word) (restore plant : Dbg Unit)
    (regs : UserRegs) (out : List Word) : Dbg (UserRegs × List Word) := do
  let regs := storeRegs regs (← ask (.getregs pid))
  let out := out ++ shown regs
  restore
  let regs := regs.withRip (regs.rip - 1)
  let _ ← ask (.setregs pid regs)
  let _ ← ask (.singlestep pid 0)
  let _ ← ask .wait
  plant
  return (regs, out)

/-- The loop, for `n` stops at most: what `main` returns, or `none` if it is
still there, and the numbers it has printed. -/
def breakLoop (pid : Pid) (shown : UserRegs → List Word) (restore plant : Dbg Unit) (err : String) :
    Nat → Nat → UserRegs → List Word → Dbg (Option Int × List Word)
  | 0, _, _, out => return (none, out)
  | n + 1, status, regs, out => do
      let status := storeStatus status (← ask .wait)
      if WIFEXITED status then return (some 0, out)
      else do
        let (regs, out) ← breakStop pid shown restore plant regs out
        if ← ask (.cont pid 0) then
          breakLoop pid shown restore plant err n status regs out
        else do
          ask (.print (.perror err))
          return (some (-1), out)

/-- `(orig_code & 0xFFFFFFFFFFFFFF00) | INT_3`. -/
def trapped (orig_code : Word) : Word := (orig_code &&& 0xFFFFFFFFFFFFFF00) ||| 0xCC

/-- The loop of `softbreak.c`. -/
def softbreakLoop (pid : Pid) (bar orig_code : Word) :
    Nat → Nat → UserRegs → List Word → Dbg (Option Int × List Word) :=
  breakLoop pid (fun regs => [regs.rip, bar])
    (do let _ ← ask (.poketext pid bar orig_code))
    (do let _ ← ask (.poketext pid bar (trapped orig_code))) "ptrace SYSCALL err"

/-- `main` of `softbreak.c` behind its first `wait`. -/
def softbreak (pid : Pid) (bar : Word) (n status : Nat) (regs : UserRegs) :
    Dbg (Option Int × List Word) := do
  let orig_code := peekResult (← ask (.peektext pid bar))
  let _ ← ask (.poketext pid bar (trapped orig_code))
  if ← ask (.cont pid 0) then
    softbreakLoop pid bar orig_code n status regs []
  else do
    ask (.print (.perror "ptrace SYSCALL err"))
    return (some (-1), [])

/-- The loop of `dbug_break.c` and `attach.c`. -/
def dbugBreakLoop (pid : Pid) (fun_addr : Word) (orig_code : Byte) :
    Nat → Nat → UserRegs → List Word → Dbg (Option Int × List Word) :=
  breakLoop pid (fun regs => [regs.rip])
    (do let _ ← writeProMem pid fun_addr [orig_code] 1)
    (do let _ ← writeProMem pid fun_addr [INT_3] 1) "CONT err"

/-- `funs->data[index].addr` for the index of `print_int`.  With the index -1 it
is the `size` of the table, which lies where the address of an entry before the
first would be. -/
def printIntAddr (funs : FunArr) : Word :=
  match findFunc (some funs) (some (lit ['p', 'r', 'i', 'n', 't', '_', 'i', 'n', 't'])) with
  | some index => (funs.getD index ⟨[], 0⟩).addr
  | none => BitVec.ofNat 64 funs.length

/-- `main` of `dbug_break.c` and of `attach.c` behind the first `wait`. -/
def dbugBreak (pid : Pid) (n status : Nat) (regs : UserRegs) : Dbg (Option Int × List Word) := do
  match ← ask (.openFuns pid) with
  | none => crash
  | some funs => do
      let fun_addr := printIntAddr funs
      let (_, orig_code) ← readProMem pid fun_addr [0] 1
      let _ ← writeProMem pid fun_addr [INT_3] 1
      if ← ask (.cont pid 0) then
        dbugBreakLoop pid fun_addr (orig_code.headD 0) n status regs []
      else do
        ask (.print (.perror "CONT err"))
        return (some (-1), [])

/-- `main` of `dbug_break.c`. -/
def dbugBreakMain (n : Nat) (regs : UserRegs) : Dbg (Option Int × List Word) := do
  let pid ← ask .fork
  if pid = 0 then do
    if ← ask .traceme then do
      ask (.execvp (some (lit "./dbuf_break_test".toList))
        [some (lit "dbuf_break_test".toList), none])
      return (some 0, [])
    else do
      ask (.print (.perror "ptrace TRACEME err"))
      return (some (-1), [])
  else if pid < 0 then do
    ask (.print (.perror "fork err"))
    return (some (-1), [])
  else do
    let status := storeStatus 0 (← ask .wait)
    if WIFEXITED status then return (some 0, [])
    else dbugBreak pid n status regs

/-! ## The loop -/

section
variable {M : Cpu} {pid : Pid} {init q : UserRegs × Mem 64 Byte} {funs : Option FunArr}
  {bar : Word} {J : Mem 64 Byte → Prop} {shown : UserRegs → List Word} {restore plant : Dbg Unit}
  {err : String} {n status : Nat} {regs : UserRegs} {out out' : List Word} {s : Debuggee}

/-- On the memories `J` of the program, `restore` takes the INT3 at `bar` out and
`plant` puts it in. -/
structure Patches (M : Cpu) (pid : Pid) (init : UserRegs × Mem 64 Byte) (funs : Option FunArr)
    (bar : Word) (J : Mem 64 Byte → Prop) (restore plant : Dbg Unit) : Prop where
  restore : ∀ {q : UserRegs × Mem 64 Byte}, J q.2 → ∀ Q : Unit → Debuggee → Prop,
    (wp (cpuKernel M pid init funs) Free restore Q (planted .stopped {bar} q) ↔
      Q () (planted .stopped ∅ q))
  plant : ∀ {q : UserRegs × Mem 64 Byte}, J q.2 → ∀ Q : Unit → Debuggee → Prop,
    (wp (cpuKernel M pid init funs) Free plant Q (planted .stopped ∅ q) ↔
      Q () (planted .stopped {bar} q))

/-- The lines for visits to `as`, where `rip` is one past the address. -/
def linesFor (shown : UserRegs → List Word) (as : List Word) : List Word :=
  as.flatMap fun a => shown (({} : UserRegs).withRip (a + 1))

/-- A stop prints the visit and steps over it. -/
theorem wp_breakStop (hP : Patches M pid init funs bar J restore plant)
    {r : UserRegs} {m : Mem 64 Byte} {q₁ : UserRegs × Mem 64 Byte} (hM : Suitable M (r, m) {bar})
    (hin : r.rip = bar) (hstep : M.step r m = some q₁) (hJ : J m) (hJ₁ : J q₁.2)
    {Q : UserRegs × List Word → Debuggee → Prop} :
    wp (cpuKernel M pid init funs) Free (breakStop pid shown restore plant regs out) Q
        (planted .stopped {bar} (r.withRip (r.rip + 1), m)) ↔
      Q (r, out ++ shown (r.withRip (r.rip + 1))) (planted .stopped {bar} q₁) := by
  have hover : ∀ x s,
      cpuKernel M pid init funs (.singlestep pid 0) (planted .stopped ∅ (r, m)) x s ↔
      x = true ∧ s = planted .stepped ∅ q₁ := by
    intro x s
    have hempty : ({bar} : Set Word) \ {r.rip} = ∅ := by simp [hin]
    rw [← hempty]
    exact cpu_singlestep hM hstep
  simp only [breakStop, wp_bind]
  rw [wp_sure fun _ _ => cpu_getregs, hP.restore hJ, wp_sure fun _ _ => cpu_setregs]
  simp only [storeRegs_some, UserRegs.withRip_rip, UserRegs.withRip_withRip,
    BitVec.add_sub_cancel, UserRegs.withRip_self]
  rw [wp_sure hover, wp_sure fun _ _ => cpu_wait_stepped, hP.plant hJ₁]
  exact Iff.rfl

/-- A round is a stop at `bar`, which is printed and stepped over, or the end. -/
theorem breakLoop_succ (hP : Patches M pid init funs bar J restore plant)
    (hM : Suitable M q {bar}) (hJ : M.Along q fun _ m => J m) {x : Int} :
    Ends (cpuKernel M pid init funs) (breakLoop pid shown restore plant err (n + 1) status regs out)
        (planted .running {bar} q) (some x, out') s ↔
      (∃ r m q₁, M.Tour {bar} q [] (r, m) ∧ r.rip = bar ∧ M.step r m = some q₁ ∧
        Ends (cpuKernel M pid init funs) (breakLoop pid shown restore plant err n
          (Change.stopped (.int3 r.rip)).status r (out ++ shown (r.withRip (r.rip + 1))))
          (planted .running {bar} q₁) (some x, out') s) ∨
      ∃ r m, M.Tour {bar} q [] (r, m) ∧ M.step r m = none ∧ x = 0 ∧ out' = out ∧
        s = planted .gone {bar} (r, m) := by
  have hover : ∀ {r m q₁ status}, M.Tour {bar} q [] (r, m) → r.rip = bar →
      M.step r m = some q₁ →
      (Ends (cpuKernel M pid init funs)
        (breakStop pid shown restore plant regs out >>= fun z => ask (.cont pid 0) >>= fun ok =>
          if ok then breakLoop pid shown restore plant err n status z.1 z.2
          else ask (.print (.perror err)) >>= fun _ => Prog.ret (some (-1), z.2))
        (planted .stopped {bar} (r.withRip (r.rip + 1), m)) (some x, out') s ↔
      Ends (cpuKernel M pid init funs) (breakLoop pid shown restore plant err n status r
        (out ++ shown (r.withRip (r.rip + 1)))) (planted .running {bar} q₁) (some x, out') s) := by
    intro r m q₁ status htour hin hstep
    rw [ends_seq_sure fun Q => wp_breakStop hP (hM.tour htour) hin hstep
      (hJ.tour htour).here ((hJ.tour htour).next hstep).here,
      ends_sure fun _ _ => cpu_cont, if_pos rfl]
  rw [breakLoop, ends_ask]
  constructor
  · rintro ⟨_, s₁, ⟨e, rfl, hwait⟩, hrest⟩
    obtain ⟨r, m, htour, hin, rfl, rfl⟩ | ⟨r, m, code, htour, hend, rfl, rfl⟩ :=
      (waitStep_planted hM).mp hwait
    · cases hstep : M.step r m with
      | none => exact absurd hstep ((hM.tour htour).goesOn.here hin)
      | some q₁ =>
          simp only [storeStatus_some, WIFEXITED_stopped, Bool.false_eq_true, if_false] at hrest
          exact Or.inl ⟨r, m, q₁, htour, hin, hstep, (hover htour hin hstep).mp hrest⟩
    · simp only [storeStatus_some, WIFEXITED_exited, if_true, Prog.pure_eq, ends_ret] at hrest
      obtain ⟨hx, rfl⟩ := hrest
      cases hx
      exact Or.inr ⟨r, m, htour, hend, rfl, rfl, rfl⟩
  · rintro (⟨r, m, q₁, htour, hin, hstep, hrest⟩ | ⟨r, m, htour, hend, rfl, rfl, rfl⟩)
    · refine ⟨some ⟨pid, .stopped (.int3 r.rip)⟩, _,
        ⟨_, rfl, (waitStep_planted hM).mpr (Or.inl ⟨r, m, htour, hin, rfl, rfl⟩)⟩, ?_⟩
      simp only [storeStatus_some, WIFEXITED_stopped, Bool.false_eq_true, if_false]
      exact (hover htour hin hstep).mpr hrest
    · refine ⟨some ⟨pid, .exited 0⟩, _,
        ⟨_, rfl, (waitStep_planted hM).mpr (Or.inr ⟨r, m, 0, htour, hend, rfl, rfl⟩)⟩, ?_⟩
      simp only [storeStatus_some, WIFEXITED_exited, if_true]
      exact .refl _ _

/-- The loop prints the visits of the program to `bar`, and ends with it. -/
theorem breakLoop_ends (hP : Patches M pid init funs bar J restore plant)
    (hshown : ∀ regs, shown regs = shown (({} : UserRegs).withRip regs.rip))
    (hM : Suitable M q {bar}) (hJ : M.Along q fun _ m => J m) {x : Int} :
    Ends (cpuKernel M pid init funs) (breakLoop pid shown restore plant err n status regs out)
        (planted .running {bar} q) (some x, out') s ↔
      ∃ as r m, M.Tour {bar} q as (r, m) ∧ M.step r m = none ∧ as.length < n ∧ x = 0 ∧
        out' = out ++ linesFor shown as ∧ s = planted .gone {bar} (r, m) := by
  induction n generalizing q status regs out with
  | zero =>
      rw [breakLoop, Prog.pure_eq, ends_ret]
      simp
  | succ n ih =>
      have hlines : ∀ (r : UserRegs) as, out ++ linesFor shown (r.rip :: as) =
          out ++ shown (r.withRip (r.rip + 1)) ++ linesFor shown as := by
        intro r as
        rw [hshown (r.withRip (r.rip + 1))]
        simp [linesFor]
      rw [breakLoop_succ hP hM hJ]
      constructor
      · rintro (⟨r, m, q₁, htour, hin, hstep, hrest⟩ | ⟨r, m, htour, hend, rfl, rfl, rfl⟩)
        · obtain ⟨as, r', m', htour', hend, hn, rfl, rfl, rfl⟩ :=
            (ih ((hM.tour htour).next hstep) ((hJ.tour htour).next hstep)).mp hrest
          have hpc : M.pc r ∈ ({bar} : Set Word) := by
            rw [M.pc_eq]
            exact hin
          exact ⟨r.rip :: as, r', m', Machine.tour_cons.mpr
              ⟨r, m, q₁, htour, hpc, M.pc_eq r, hstep, htour'⟩, hend,
            Nat.succ_lt_succ hn, rfl, (hlines r as).symm, rfl⟩
        · exact ⟨[], r, m, htour, hend, Nat.succ_pos n, rfl, by simp [linesFor], rfl⟩
      · rintro ⟨as, r, m, htour, hend, hn, rfl, rfl, rfl⟩
        cases as with
        | nil => exact Or.inr ⟨r, m, htour, hend, rfl, by simp [linesFor], rfl⟩
        | cons a as =>
            obtain ⟨r₁, m₁, q₁, htour₁, hpc, ha, hstep, hrest⟩ := Machine.tour_cons.mp htour
            rw [M.pc_eq] at hpc ha
            obtain rfl := ha
            exact Or.inl ⟨r₁, m₁, q₁, htour₁, hpc, hstep,
              (ih ((hM.tour htour₁).next hstep) ((hJ.tour htour₁).next hstep)).mpr
                ⟨as, r, m, hrest, hend, Nat.lt_of_succ_lt_succ hn, rfl, hlines r₁ as, rfl⟩⟩

/-! ## The two ways to patch -/

/-- The byte alone. -/
theorem patches_byte {b : Byte} : Patches M pid init funs bar (fun m => m bar = b)
    (do let _ ← writeProMem pid bar [b] 1) (do let _ ← writeProMem pid bar [INT_3] 1) := by
  constructor
  · rintro ⟨r, m⟩ rfl Q
    rw [wp_bind, wp_takeOut rfl]
    simp
  · intro q _ Q
    rw [wp_bind, wp_putIn]
    simp

/-- The low byte of a patched word is the INT3, and the others are as they were. -/
theorem toBytes_trapped (w : Word) : toBytes (trapped w) = [INT_3] ++ (toBytes w).drop 1 := by
  have hmask : ∀ i < 64, (0xFFFFFFFFFFFFFF00 : Word).getLsbD i = decide (8 ≤ i) := by decide
  have htrap : ∀ i < 64, (0xCC : Word).getLsbD i = INT_3.getLsbD i := by decide
  have hbit : ∀ i < 64, (trapped w).getLsbD i =
      ((w.getLsbD i && decide (8 ≤ i)) || INT_3.getLsbD i) := by
    intro i hi
    rw [trapped, BitVec.getLsbD_or, BitVec.getLsbD_and, hmask i hi, htrap i hi]
  have hlow : BitVec.ofNat 8 (trapped w).toNat = INT_3 := by
    apply BitVec.eq_of_getLsbD_eq
    intro i hi
    rw [BitVec.ofNat_toNat, BitVec.getLsbD_setWidth, hbit i (by omega)]
    simp [hi, Nat.not_le.mpr hi]
  have hhigh : (trapped w).toNat / 256 = w.toNat / 256 := by
    have hshift : trapped w >>> 8 = w >>> 8 := by
      apply BitVec.eq_of_getLsbD_eq
      intro i hi
      rw [BitVec.getLsbD_ushiftRight, BitVec.getLsbD_ushiftRight]
      by_cases h : 8 + i < 64
      · rw [hbit _ h]
        simp
      · rw [BitVec.getLsbD_of_ge _ _ (by omega), BitVec.getLsbD_of_ge _ _ (by omega)]
    simpa [Nat.shiftRight_eq_div_pow] using congrArg BitVec.toNat hshift
  simp only [toBytes, bytesOfNat, hlow, hhigh, List.drop_succ_cons, List.drop_zero,
    List.singleton_append]

theorem overlay_singleton (m : Mem 64 Byte) : overlay {bar} INT_3 m = store m bar [INT_3] := by
  rw [← insert_empty_eq, ← overlay_plant, overlay_empty]

theorem cpu_peek {a : Word} {x : Option Word} :
    cpuKernel M pid init funs (.peektext pid a) (planted .stopped ∅ q) x s ↔
      x = some (peek q.2 a) ∧ s = planted .stopped ∅ q := by
  simp [cpuKernel, planted]

/-- Writing the word back takes the INT3 out of it. -/
theorem cpu_poke_saved {x : Bool} :
    cpuKernel M pid init funs (.poketext pid bar (peek q.2 bar)) (planted .stopped {bar} q) x s ↔
      x = true ∧ s = planted .stopped ∅ q := by
  have hback : poke (overlay {bar} INT_3 q.2) bar (peek q.2 bar) = q.2 := by
    rw [overlay_singleton, poke, toBytes_peek, store_store _ _ (by simp), store_load]
  simp [cpuKernel, planted, hback]

/-- Writing the patched word puts the INT3 in. -/
theorem cpu_poke_trapped {x : Bool} :
    cpuKernel M pid init funs (.poketext pid bar (trapped (peek q.2 bar)))
        (planted .stopped ∅ q) x s ↔
      x = true ∧ s = planted .stopped {bar} q := by
  have hput : poke q.2 bar (trapped (peek q.2 bar)) = overlay {bar} INT_3 q.2 := by
    rw [overlay_singleton, poke, toBytes_trapped, toBytes_peek]
    exact store_append_load q.2 bar [INT_3] (by simp) (by decide)
  simp [cpuKernel, planted, hput]

/-- The whole word. -/
theorem patches_word {w : Word} : Patches M pid init funs bar (fun m => peek m bar = w)
    (do let _ ← ask (.poketext pid bar w)) (do let _ ← ask (.poketext pid bar (trapped w))) := by
  constructor
  · rintro ⟨r, m⟩ rfl Q
    rw [wp_bind, wp_sure fun _ _ => cpu_poke_saved]
    exact Iff.rfl
  · rintro ⟨r, m⟩ rfl Q
    rw [wp_bind, wp_sure fun _ _ => cpu_poke_trapped]
    exact Iff.rfl

/-- The byte at `bar` is the program's own all along. -/
theorem Suitable.own_byte (hM : Suitable M q {bar}) : M.Along q fun _ m => m bar = q.2 bar := by
  intro k r m hk
  exact Machine.after_keeps hM.undisturbed hk (Set.mem_singleton bar)

end

/-! ## What they print -/

/-- The short program visits its third instruction once. -/
theorem short_visit : shortCpu.Tour {0x1002} (shortAt 0x1000) [0x1002] (shortAt 0x1004) := by
  refine short_off (by decide) (by decide) (short_off (by decide) (by decide) ?_)
  refine .visit rfl (short_step (a := 0x1002) (by decide)) ?_
  exact short_off (by decide) (by decide) (.refl _)

def shortFuns : FunArr :=
  [⟨lit ['m', 'a', 'i', 'n'], 0x1000⟩,
   ⟨lit ['p', 'r', 'i', 'n', 't', '_', 'i', 'n', 't'], 0x1002⟩]

section
variable {M : Cpu} {pid : Pid} {init q : UserRegs × Mem 64 Byte} {bar : Word} {n status : Nat}
  {regs : UserRegs} {x : Int} {out : List Word} {s : Debuggee}

theorem softbreak_ends (hM : Suitable M q {bar})
    (hword : M.Along q fun _ m => peek m bar = peek q.2 bar) :
    Ends (cpuKernel M pid q none) (softbreak pid bar n status regs) (planted .stopped ∅ q)
        (some x, out) s ↔
      ∃ as r m, M.Tour {bar} q as (r, m) ∧ M.step r m = none ∧ as.length < n ∧ x = 0 ∧
        out = as.flatMap (fun a => [a + 1, bar]) ∧ s = planted .gone {bar} (r, m) := by
  have hlines : ∀ as, linesFor (fun regs => [regs.rip, bar]) as =
      as.flatMap fun a => [a + 1, bar] := fun _ => rfl
  rw [softbreak, ends_sure fun _ _ => cpu_peek, peekResult,
    ends_sure fun _ _ => cpu_poke_trapped, ends_sure fun _ _ => cpu_cont, if_pos rfl,
    softbreakLoop, breakLoop_ends patches_word (fun _ => rfl) hM hword]
  simp only [hlines, List.nil_append]

/-- From a stop anywhere in the program, as `attach.c` makes one. -/
theorem dbugBreak_ends {funs : FunArr} (hM : Suitable M q {printIntAddr funs}) :
    Ends (cpuKernel M pid init (some funs)) (dbugBreak pid n status regs) (planted .stopped ∅ q)
        (some x, out) s ↔
      ∃ as r m, M.Tour {printIntAddr funs} q as (r, m) ∧ M.step r m = none ∧ as.length < n ∧
        x = 0 ∧ out = as.map (fun a => a + 1) ∧ s = planted .gone {printIntAddr funs} (r, m) := by
  have hread : ∀ Q : Int × List Byte → Debuggee → Prop,
      wp (cpuKernel M pid init (some funs)) Free (readProMem pid (printIntAddr funs) [0] 1) Q
        (planted .stopped ∅ q) ↔ Q (0, [q.2 (printIntAddr funs)]) (planted .stopped ∅ q) := by
    intro Q
    rw [wp_readProMem (cpuMem M pid init (some funs)) cpu_stopped (by simp)]
    simp [cpuMem, planted, load]
  have hlines : ∀ as, linesFor (fun regs => [regs.rip]) as = as.map fun a => a + 1 := by
    intro as
    rw [List.map_eq_flatMap]
    rfl
  rw [dbugBreak, ends_sure fun _ _ => cpu_openFuns]
  dsimp only
  rw [ends_seq_sure hread, ends_seq_sure fun Q => wp_putIn, insert_empty_eq,
    ends_sure fun _ _ => cpu_cont, if_pos rfl, dbugBreakLoop, List.headD_cons,
    breakLoop_ends patches_byte (fun _ => rfl) hM hM.own_byte]
  simp only [hlines, List.nil_append]

theorem dbugBreakMain_start (hpid : 0 < pid) {funs : Option FunArr} :
    Ends (cpuKernel M pid init funs) (dbugBreakMain n regs) noDebuggee (some x, out) s ↔
      Ends (cpuKernel M pid init funs) (dbugBreak pid n (Change.stopped .exec).status regs)
        (planted .stopped ∅ init) (some x, out) s := by
  have hne : pid ≠ 0 := Int.ne_of_gt hpid
  have hpos : ¬ pid < 0 := Int.not_lt.mpr (Int.le_of_lt hpid)
  have hinit : (⟨.stopped, init.1, init.2⟩ : Debuggee) = planted .stopped ∅ init := by
    simp [planted]
  rw [dbugBreakMain, ends_sure fun _ _ => cpu_fork, if_neg hne, if_neg hpos,
    ends_sure fun _ _ => cpu_wait_started]
  simp only [storeStatus_some, WIFEXITED_stopped, Bool.false_eq_true, if_false]
  rw [hinit]

end

/-- **`softbreak.c` prints every call.**  On a program that leaves the word at
`bar` alone, it comes to its end exactly where the program does, returns 0 and
has printed two lines a call: the address after the INT3, and `bar`. -/
theorem softbreak_prints_visits (M : Cpu) (pid : Pid) (q : UserRegs × Mem 64 Byte) (bar : Word)
    (status : Nat) (regs : UserRegs) (hM : Suitable M q {bar})
    (hword : M.Along q fun _ m => peek m bar = peek q.2 bar) {x : Int} {out : List Word}
    {s : Debuggee} :
    (∃ n, Ends (cpuKernel M pid q none) (softbreak pid bar n status regs)
        (planted .stopped ∅ q) (some x, out) s) ↔
      ∃ as r m, M.Tour {bar} q as (r, m) ∧ M.step r m = none ∧ x = 0 ∧
        out = as.flatMap (fun a => [a + 1, bar]) ∧ s = planted .gone {bar} (r, m) := by
  simp only [softbreak_ends hM hword]
  constructor
  · rintro ⟨n, as, r, m, htour, hend, -, hrest⟩
    exact ⟨as, r, m, htour, hend, hrest⟩
  · rintro ⟨as, r, m, htour, hend, hrest⟩
    exact ⟨as.length + 1, as, r, m, htour, hend, Nat.lt_succ_self _, hrest⟩

theorem softbreak_prints_visits_short :
    ∃ n, Ends (cpuKernel shortCpu 7 (shortAt 0x1000) none) (softbreak 7 0x1002 n 0 {})
      (planted .stopped ∅ (shortAt 0x1000)) (some 0, [0x1003, 0x1002])
      (planted .gone {0x1002} (shortAt 0x1004)) := by
  have hword : shortCpu.Along (shortAt 0x1000) fun _ m =>
      peek m 0x1002 = peek (shortAt 0x1000).2 0x1002 := by
    intro k r m hk
    rw [short_mem _ k r m hk]
  exact (softbreak_prints_visits shortCpu 7 (shortAt 0x1000) 0x1002 0 {}
    (shortCpu_suitable (by decide)) hword).mpr ⟨[0x1002], _, _, short_visit, rfl, rfl, rfl, rfl⟩

/-- **`dbug_break.c` prints every call.**  From `fork` on: it comes to its end
exactly where the program does, returns 0 and has printed one line a call, the
address after the INT3.  The function is the first whose name begins with
`print_int`. -/
theorem dbug_break_prints_visits (M : Cpu) {pid : Pid} (hpid : 0 < pid)
    (init : UserRegs × Mem 64 Byte) (funs : FunArr) (regs : UserRegs)
    (hM : Suitable M init {printIntAddr funs}) {x : Int} {out : List Word} {s : Debuggee} :
    (∃ n, Ends (cpuKernel M pid init (some funs)) (dbugBreakMain n regs) noDebuggee
        (some x, out) s) ↔
      ∃ as r m, M.Tour {printIntAddr funs} init as (r, m) ∧ M.step r m = none ∧ x = 0 ∧
        out = as.map (fun a => a + 1) ∧ s = planted .gone {printIntAddr funs} (r, m) := by
  simp only [dbugBreakMain_start hpid, dbugBreak_ends hM]
  constructor
  · rintro ⟨n, as, r, m, htour, hend, -, hrest⟩
    exact ⟨as, r, m, htour, hend, hrest⟩
  · rintro ⟨as, r, m, htour, hend, hrest⟩
    exact ⟨as.length + 1, as, r, m, htour, hend, Nat.lt_succ_self _, hrest⟩

theorem dbug_break_prints_visits_short :
    ∃ n, Ends (cpuKernel shortCpu 7 (shortAt 0x1000) (some shortFuns)) (dbugBreakMain n {})
      noDebuggee (some 0, [0x1003]) (planted .gone {printIntAddr shortFuns} (shortAt 0x1004)) := by
  have haddr : printIntAddr shortFuns = 0x1002 := by decide
  refine (dbug_break_prints_visits shortCpu (by decide) (shortAt 0x1000) shortFuns {}
    (shortCpu_suitable (by rw [haddr]; decide))).mpr ⟨[0x1002], _, _, ?_, rfl, rfl, rfl, rfl⟩
  rw [haddr]
  exact short_visit

/-! ## Debug registers

`hardbreak.c` puts the address into DR0 instead. -/

/-- The loop of `hardbreak.c`, for `n` stops at most. -/
def hardbreakLoop (pid : Pid) (bar : Word) :
    Nat → Nat → UserRegs → List Word → Dbg (Option Int × List Word)
  | 0, _, _, out => return (none, out)
  | n + 1, status, regs, out => do
      let status := storeStatus status (← ask .wait)
      if WIFEXITED status then return (some 0, out)
      else do
        let regs := storeRegs regs (← ask (.getregs pid))
        let out := out ++ [bar, regs.rip]
        if ← ask (.cont pid 0) then
          hardbreakLoop pid bar n status regs out
        else do
          ask (.print (.perror "ptrace SYSCALL err"))
          return (some (-1), out)

/-- `main` of `hardbreak.c` behind its first `wait`. -/
def hardbreak (pid : Pid) (bar : Word) (n status : Nat) (regs : UserRegs) :
    Dbg (Option Int × List Word) := do
  unless ← ask (.pokeuser pid 0 bar) do
    ask (.print (.perror "tracer, faile to set DR_0\n"))
  let dr_7 : Word := 0 ||| 0x01 ||| 0x02
  unless ← ask (.pokeuser pid 7 dr_7) do
    ask (.print (.perror "tracer, faile to set DR_7\n"))
  if ← ask (.cont pid 0) then
    hardbreakLoop pid bar n status regs []
  else do
    ask (.print (.perror "ptrace SYSCALL err"))
    return (some (-1), [])

/-- The stops of a run that ends at `r`: its visits, and the last instruction. -/
def stopsOf (bar : Word) (as : List Word) (r : UserRegs) : List Word :=
  as ++ if r.rip = bar then [bar] else []

section
variable {M : Cpu} {pid : Pid} {init q q₁ : UserRegs × Mem 64 Byte} {funs : Option FunArr}
  {bar : Word} {dr : DebugRegs} {passed : Bool} {n status : Nat} {regs : UserRegs}
  {out out' : List Word} {s : HwDebuggee} {x : Int}

/-- Without breakpoints of its own making, the debugger needs nothing else of a program. -/
theorem suitable_empty (h : M.Along q fun r m => m r.rip ≠ INT_3) : Suitable M q ∅ :=
  ⟨h, fun _ _ _ _ => ⟨fun _ _ _ hin => hin, fun _ _ hin => hin, fun _ _ hin => hin⟩,
    fun _ _ _ _ hin => absurd hin (Set.notMem_empty _)⟩

/-- A child that ends with the instruction it goes on with. -/
theorem hardbreakLoop_last (hM : Suitable M q ∅) (hend : onward M passed q = none) :
    Ends (hwKernel M pid init funs) (hardbreakLoop pid bar n status regs out)
        ⟨planted .running ∅ q, dr, passed⟩ (some x, out') s ↔
      0 < n ∧ x = 0 ∧ out' = out ∧ s = ⟨planted .gone ∅ q, dr, false⟩ := by
  have hwait : ∀ {e w}, HwWait M pid ⟨planted .running ∅ q, dr, passed⟩ e w ↔
      ∃ code, e = ⟨pid, .exited code⟩ ∧ w = ⟨planted .gone ∅ q, dr, false⟩ := by
    intro e w
    rw [hwWait_planted hM fun _ => Set.notMem_empty _, hend]
    simp
  cases n with
  | zero =>
      rw [hardbreakLoop, Prog.pure_eq, ends_ret]
      simp
  | succ n =>
      rw [hardbreakLoop, ends_ask]
      constructor
      · rintro ⟨_, s₁, ⟨e, rfl, hstop⟩, hrest⟩
        obtain ⟨code, rfl, rfl⟩ := hwait.mp hstop
        simp only [storeStatus_some, WIFEXITED_exited, if_true, Prog.pure_eq, ends_ret] at hrest
        obtain ⟨hx, rfl⟩ := hrest
        cases hx
        exact ⟨Nat.succ_pos n, rfl, rfl, rfl⟩
      · rintro ⟨-, rfl, rfl, rfl⟩
        refine ⟨some ⟨pid, .exited 0⟩, _, ⟨_, rfl, hwait.mpr ⟨0, rfl, rfl⟩⟩, ?_⟩
        simp only [storeStatus_some, WIFEXITED_exited, if_true]
        exact .refl _ _

/-- A round is a stop in front of `bar`, or the end somewhere else. -/
theorem hardbreakLoop_succ (hM : Suitable M q ∅) (harmed : armedAt dr = {bar})
    (hon : onward M passed q = some q₁) :
    Ends (hwKernel M pid init funs) (hardbreakLoop pid bar (n + 1) status regs out)
        ⟨planted .running ∅ q, dr, passed⟩ (some x, out') s ↔
      (∃ r m, M.Tour {bar} q₁ [] (r, m) ∧ r.rip = bar ∧
        Ends (hwKernel M pid init funs) (hardbreakLoop pid bar n
          (Change.stopped (.debugReg bar)).status r (out ++ [bar, bar]))
          ⟨planted .running ∅ (r, m), dr, true⟩ (some x, out') s) ∨
      ∃ r m, M.Tour {bar} q₁ [] (r, m) ∧ r.rip ≠ bar ∧ M.step r m = none ∧ x = 0 ∧
        out' = out ∧ s = ⟨planted .gone ∅ (r, m), dr, false⟩ := by
  have hset : ∅ ∪ armedAt dr = {bar} := by
    rw [Set.empty_union, harmed]
  have hwait : ∀ {e w}, HwWait M pid ⟨planted .running ∅ q, dr, passed⟩ e w ↔
      HwStop M pid ∅ dr q₁ e w := by
    intro e w
    rw [hwWait_planted hM fun _ => Set.notMem_empty _, hon]
    simp
  rw [hardbreakLoop, ends_ask]
  constructor
  · rintro ⟨_, s₁, ⟨e, rfl, hstop⟩, hrest⟩
    cases hwait.mp hstop with
    | @debugReg r m htour hin =>
        rw [hset] at htour
        rw [harmed] at hin
        obtain rfl : r.rip = bar := hin
        simp only [storeStatus_some, WIFEXITED_stopped, Bool.false_eq_true, if_false] at hrest
        rw [ends_sure fun _ _ => hw_getregs, ends_sure fun _ _ => hw_cont, if_pos rfl] at hrest
        exact Or.inl ⟨r, m, htour, rfl, hrest⟩
    | int3 _ _ hin => exact absurd hin (Set.notMem_empty _)
    | @exit r m code htour hout hend =>
        rw [hset] at htour
        rw [harmed] at hout
        simp only [storeStatus_some, WIFEXITED_exited, if_true, Prog.pure_eq, ends_ret] at hrest
        obtain ⟨hx, rfl⟩ := hrest
        cases hx
        exact Or.inr ⟨r, m, htour, hout, hend, rfl, rfl, rfl⟩
  · rintro (⟨r, m, htour, rfl, hrest⟩ | ⟨r, m, htour, hne, hend, rfl, rfl, rfl⟩)
    · refine ⟨some ⟨pid, .stopped (.debugReg r.rip)⟩, ⟨planted .stopped ∅ (r, m), dr, true⟩,
        ⟨_, rfl, hwait.mpr (.debugReg (by rwa [hset]) (by rw [harmed]; rfl))⟩, ?_⟩
      simp only [storeStatus_some, WIFEXITED_stopped, Bool.false_eq_true, if_false]
      rw [ends_sure fun _ _ => hw_getregs, ends_sure fun _ _ => hw_cont, if_pos rfl]
      exact hrest
    · refine ⟨some ⟨pid, .exited 0⟩, _,
        ⟨_, rfl, hwait.mpr (.exit 0 (by rwa [hset]) (by rwa [harmed]) hend)⟩, ?_⟩
      simp only [storeStatus_some, WIFEXITED_exited, if_true]
      exact .refl _ _

/-- The loop prints the stops of the run, and ends with it. -/
theorem hardbreakLoop_ends (hM : Suitable M q ∅) (harmed : armedAt dr = {bar})
    (hon : onward M passed q = some q₁) :
    Ends (hwKernel M pid init funs) (hardbreakLoop pid bar n status regs out)
        ⟨planted .running ∅ q, dr, passed⟩ (some x, out') s ↔
      ∃ as r m, M.Tour {bar} q₁ as (r, m) ∧ M.step r m = none ∧
        (stopsOf bar as r).length < n ∧ x = 0 ∧
        out' = out ++ (stopsOf bar as r).flatMap (fun a => [bar, a]) ∧
        s = ⟨planted .gone ∅ (r, m), dr, false⟩ := by
  induction n generalizing q q₁ passed status regs out with
  | zero =>
      rw [hardbreakLoop, Prog.pure_eq, ends_ret]
      simp
  | succ n ih =>
      have hM₁ : Suitable M q₁ ∅ := hM.onward hon
      rw [hardbreakLoop_succ hM harmed hon]
      constructor
      · rintro (⟨r, m, htour, rfl, hrest⟩ | ⟨r, m, htour, hne, hend, rfl, rfl, rfl⟩)
        · -- the instruction at `bar` runs next: it ends the child, or the loop goes on behind it
          cases hstep : M.step r m with
          | none =>
              have hlast : onward M true (r, m) = none := hstep
              obtain ⟨hn, rfl, rfl, rfl⟩ := (hardbreakLoop_last (hM₁.tour htour) hlast).mp hrest
              exact ⟨[], r, m, htour, hstep, by simpa [stopsOf] using hn, rfl,
                by simp [stopsOf], rfl⟩
          | some q₂ =>
              have hon₂ : onward M true (r, m) = some q₂ := hstep
              obtain ⟨as, r', m', htour', hend, hn, rfl, rfl, rfl⟩ :=
                (ih (hM₁.tour htour) hon₂).mp hrest
              have hpc : M.pc r ∈ ({r.rip} : Set Word) := M.pc_eq r
              exact ⟨r.rip :: as, r', m', Machine.tour_cons.mpr
                  ⟨r, m, q₂, htour, hpc, M.pc_eq r, hstep, htour'⟩, hend,
                by simpa [stopsOf] using hn, rfl, by simp [stopsOf], rfl⟩
        · exact ⟨[], r, m, htour, hend, by simp [stopsOf, hne], rfl, by simp [stopsOf, hne], rfl⟩
      · rintro ⟨as, r', m', htour, hend, hn, rfl, rfl, rfl⟩
        cases as with
        | nil =>
            by_cases hbar : r'.rip = bar
            · subst hbar
              have hlast : onward M true (r', m') = none := hend
              exact Or.inl ⟨r', m', htour, rfl, (hardbreakLoop_last (hM₁.tour htour) hlast).mpr
                ⟨by simpa [stopsOf] using hn, rfl, by simp [stopsOf], rfl⟩⟩
            · exact Or.inr ⟨r', m', htour, hbar, hend, rfl, by simp [stopsOf, hbar], rfl⟩
        | cons a as =>
            obtain ⟨r, m, q₂, htour₁, hpc, ha, hstep, hrest⟩ := Machine.tour_cons.mp htour
            rw [M.pc_eq] at hpc ha
            obtain rfl : r.rip = bar := hpc
            obtain rfl := ha
            have hon₂ : onward M true (r, m) = some q₂ := hstep
            exact Or.inl ⟨r, m, htour₁, rfl, (ih (hM₁.tour htour₁) hon₂).mpr ⟨as, r', m', hrest,
              hend, by simpa [stopsOf] using hn, rfl, by simp [stopsOf], rfl⟩⟩

theorem hardbreak_ends (hM : Suitable M q ∅) :
    Ends (hwKernel M pid init funs) (hardbreak pid bar n status regs)
        ⟨planted .stopped ∅ q, dr, false⟩ (some x, out) s ↔
      ∃ as r m, M.Tour {bar} q as (r, m) ∧ M.step r m = none ∧ (stopsOf bar as r).length < n ∧
        x = 0 ∧ out = (stopsOf bar as r).flatMap (fun a => [bar, a]) ∧
        s = ⟨planted .gone ∅ (r, m), dr.watching bar, false⟩ := by
  rw [hardbreak, ends_sure fun _ _ => hw_pokeuser, if_pos rfl, ends_sure fun _ _ => hw_pokeuser,
    if_pos rfl, ends_sure fun _ _ => hw_cont, if_pos rfl]
  exact hardbreakLoop_ends hM armedAt_watching rfl

end

/-- **`hardbreak.c` prints every call.**  It leaves the memory of the program
alone and needs nothing of it but that it has no INT3 of its own: it comes to its
end exactly where the program does, and has printed two lines for every time
`bar` was reached, be it by the last instruction. -/
theorem hardbreak_prints_visits (M : Cpu) (pid : Pid) (q : UserRegs × Mem 64 Byte) (bar : Word)
    (dr : DebugRegs) (status : Nat) (regs : UserRegs)
    (hM : M.Along q fun r m => m r.rip ≠ INT_3) {x : Int} {out : List Word} {s : HwDebuggee} :
    (∃ n, Ends (hwKernel M pid q none) (hardbreak pid bar n status regs)
        ⟨planted .stopped ∅ q, dr, false⟩ (some x, out) s) ↔
      ∃ as r m, M.Tour {bar} q as (r, m) ∧ M.step r m = none ∧ x = 0 ∧
        out = (stopsOf bar as r).flatMap (fun a => [bar, a]) ∧
        s = ⟨planted .gone ∅ (r, m), dr.watching bar, false⟩ := by
  simp only [hardbreak_ends (suitable_empty hM)]
  constructor
  · rintro ⟨n, as, r, m, htour, hend, -, hrest⟩
    exact ⟨as, r, m, htour, hend, hrest⟩
  · rintro ⟨as, r, m, htour, hend, hrest⟩
    exact ⟨_, as, r, m, htour, hend, Nat.lt_succ_self _, hrest⟩

/-- Called with the address of its last instruction, which softbreak.c could not
step over. -/
theorem hardbreak_prints_visits_short :
    ∃ n, Ends (hwKernel shortCpu 7 (shortAt 0x1000) none) (hardbreak 7 0x1004 n 0 {})
      ⟨planted .stopped ∅ (shortAt 0x1000), fun _ => 0, false⟩ (some 0, [0x1004, 0x1004])
      ⟨planted .gone ∅ (shortAt 0x1004), DebugRegs.watching (fun _ => 0) 0x1004, false⟩ := by
  have htour : shortCpu.Tour {0x1004} (shortAt 0x1000) [] (shortAt 0x1004) := by
    refine short_off (by decide) (by decide) (short_off (by decide) (by decide) ?_)
    exact short_off (by decide) (by decide) (short_off (by decide) (by decide) (.refl _))
  exact (hardbreak_prints_visits shortCpu 7 (shortAt 0x1000) 0x1004 (fun _ => 0) 0 {}
    (shortCpu_suitable (Set.notMem_empty _)).noInt3).mpr ⟨[], _, _, htour, rfl, rfl, rfl, rfl⟩

/-- **The two kinds of breakpoint agree.**  Where `softbreak.c` may be used, it and
`hardbreak.c` see the same calls of the same child: as many stops, the same
registers in the end, and the same memory but for the INT3. -/
theorem soft_and_hard_agree (M : Cpu) (pid : Pid) (q : UserRegs × Mem 64 Byte) (bar : Word)
    (dr : DebugRegs) (status : Nat) (regs : UserRegs) (hM : Suitable M q {bar})
    (hword : M.Along q fun _ m => peek m bar = peek q.2 bar) {n n' : Nat} {x x' : Int}
    {out out' : List Word} {s : Debuggee} {s' : HwDebuggee}
    (hsoft : Ends (cpuKernel M pid q none) (softbreak pid bar n status regs)
      (planted .stopped ∅ q) (some x, out) s)
    (hhard : Ends (hwKernel M pid q none) (hardbreak pid bar n' status regs)
      ⟨planted .stopped ∅ q, dr, false⟩ (some x', out') s') :
    ∃ k, out = (List.replicate k [bar + 1, bar]).flatten ∧
      out' = (List.replicate k [bar, bar]).flatten ∧ s.regs = s'.regs ∧
      s.mem = store s'.mem bar [INT_3] := by
  obtain ⟨as, r, m, htour, hend, -, -, rfl, rfl⟩ := (softbreak_ends hM hword).mp hsoft
  obtain ⟨bs, r', m', htour', hend', -, -, rfl, rfl⟩ :=
    (hardbreak_ends (hM.mono (Set.empty_subset _))).mp hhard
  obtain ⟨rfl, hq⟩ := htour.ends_once hend htour' hend'
  obtain ⟨rfl, rfl⟩ := Prod.mk.inj hq
  have hne : r'.rip ≠ bar := fun hbar => (hM.tour htour).goesOn.here hbar hend
  obtain ⟨k, rfl⟩ : ∃ k, bs = List.replicate k bar :=
    ⟨_, List.eq_replicate_of_mem fun a ha => htour'.mem ha⟩
  have hmem : overlay {bar} INT_3 m' = store (overlay ∅ INT_3 m') bar [INT_3] := by
    rw [overlay_singleton, overlay_empty]
  refine ⟨k, ?_, ?_, rfl, hmem⟩
  · rw [List.flatMap_replicate]
  · rw [stopsOf, if_neg hne, List.append_nil, List.flatMap_replicate]

theorem soft_and_hard_agree_short :
    ∃ k, [(0x1003 : Word), 0x1002] = (List.replicate k [0x1002 + 1, 0x1002]).flatten ∧
      [(0x1002 : Word), 0x1002] = (List.replicate k [0x1002, 0x1002]).flatten ∧
      (planted .gone {0x1002} (shortAt 0x1004)).regs = (shortAt 0x1004).1 ∧
      (planted .gone {0x1002} (shortAt 0x1004)).mem =
        store (planted .gone ∅ (shortAt 0x1004)).mem 0x1002 [INT_3] := by
  have hword : shortCpu.Along (shortAt 0x1000) fun _ m =>
      peek m 0x1002 = peek (shortAt 0x1000).2 0x1002 := by
    intro k r m hk
    rw [short_mem _ k r m hk]
  have hM : Suitable shortCpu (shortAt 0x1000) {0x1002} := shortCpu_suitable (by decide)
  exact soft_and_hard_agree shortCpu 7 (shortAt 0x1000) 0x1002 (fun _ => 0) 0 {} hM hword
    ((softbreak_ends (n := 2) hM hword).mpr ⟨_, _, _, short_visit, rfl, by decide, rfl, rfl, rfl⟩)
    ((hardbreak_ends (n := 2) (hM.mono (Set.empty_subset _))).mpr
      ⟨_, _, _, short_visit, rfl, by decide, rfl, rfl, rfl⟩)

end TestDbug
