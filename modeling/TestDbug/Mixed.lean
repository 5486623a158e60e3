/-
# `TestDbug.Mixed` — sessions with both kinds of breakpoint

`Stops` follows a session of `b` and `c`; here the sessions have `watch` as
well, on the kernel of `Hardware`.  The debugger of the undebugged program
(`Saga`) has, beside its table of functions, the one address it watches:

    watch a     `a` is the watched address, in place of the one before
    c           the program runs up to its next visit to the table, as before,
                or up to the watched address, whichever comes first; there it
                is stopped in front of the instruction, which runs with the
                next `c`

Every visit of either kind is reported, once, where the watched addresses keep
away from the table: no function a `b` names is at a watched address or one
before it (`either_kind_once`).  One before it is where `command_continue` takes
a stop by a debug register for a software breakpoint.
-/
import TestDbug.Stops
import TestDbug.Hardware

open ByteMemory Interaction

namespace TestDbug

/-! ## A debugger of the undebugged program -/

/-- The table of functions, the watched address, and the program, which may
have been stopped in front of its next instruction. -/
structure Scene where
  table : List FuncOrg
  watch : Option Word
  prog : UserRegs × Mem 64 Byte
  passed : Bool

/-- The watched address, as a set. -/
def Scene.watching (sc : Scene) : Set Word := { a | sc.watch = some a }

/-- What a `c` reports, and where it leads. -/
inductive Scene.Goes (M : Cpu) (sc : Scene) : Out → Scene → Prop
  | hit {q₁ q₂ : UserRegs × Mem 64 Byte} {r : UserRegs} {m : Mem 64 Byte} {f : FuncOrg} :
      onward M sc.passed sc.prog = some q₁ →
      M.Tour (places sc.table ∪ sc.watching) q₁ [] (r, m) → functionAt sc.table r.rip = some f →
      M.step r m = some q₂ → sc.Goes M f.report { sc with prog := q₂, passed := false }
  | seen {q₁ : UserRegs × Mem 64 Byte} {r : UserRegs} {m : Mem 64 Byte} :
      onward M sc.passed sc.prog = some q₁ →
      M.Tour (places sc.table ∪ sc.watching) q₁ [] (r, m) → sc.watch = some r.rip →
      sc.Goes M (.triggerHW r.rip) { sc with prog := (r, m), passed := true }

/-- `Saga M funs sc args outs sc'`: from `sc`, the commands `args` report `outs`
and lead to `sc'`. -/
inductive Saga (M : Cpu) (funs : Option FunArr) :
    Scene → List NgxArray → List Out → Scene → Prop
  | done (sc : Scene) : Saga M funs sc [] [] sc
  | other {sc sc' : Scene} {arg : NgxArray} {args : List NgxArray} {outs : List Out} :
      Bystander arg → Saga M funs sc args outs sc' → Saga M funs sc (arg :: args) outs sc'
  | unknown {sc sc' : Scene} {arg : NgxArray} {args : List NgxArray} {outs : List Out} :
      arg.str 0 = some nameB → findFunc funs (arg.str 1) = none →
      Saga M funs sc args outs sc' → Saga M funs sc (arg :: args) outs sc'
  | set {sc sc' : Scene} {arg : NgxArray} {args : List NgxArray} {outs : List Out} {i : Nat} :
      arg.str 0 = some nameB → findFunc funs (arg.str 1) = some i →
      Saga M funs { sc with table := sc.table ++ [(funs.getD []).getD i ⟨[], 0⟩] } args outs sc' →
      Saga M funs sc (arg :: args) outs sc'
  | watch {sc sc' : Scene} {arg : NgxArray} {args : List NgxArray} {outs : List Out} {a : Word} :
      watchedAddr arg = some a → Saga M funs { sc with watch := some a } args outs sc' →
      Saga M funs sc (arg :: args) outs sc'
  | go {sc sc₁ sc' : Scene} {arg : NgxArray} {args : List NgxArray} {o : Out} {outs : List Out} :
      arg.str 0 = some nameC → sc.Goes M o sc₁ → Saga M funs sc₁ args outs sc' →
      Saga M funs sc (arg :: args) (o :: outs) sc'

/-! ## Its debuggee -/

/-- The debug registers of a debuggee that watches an address, or none. -/
def Scene.dr (sc : Scene) : DebugRegs :=
  match sc.watch with
  | none => fun _ => 0
  | some a => DebugRegs.watching (fun _ => 0) a

/-- The debuggee at the prompt. -/
noncomputable def Scene.debuggee (sc : Scene) : HwDebuggee :=
  ⟨planted .stopped (places sc.table) sc.prog, sc.dr, sc.passed⟩

/-- The scene behind a `dbug`. -/
def Scene.start (init : UserRegs × Mem 64 Byte) : Scene := ⟨[], none, init, false⟩

theorem Scene.armedAt_dr (sc : Scene) : armedAt sc.dr = sc.watching := by
  obtain ⟨t, watch, q, passed⟩ := sc
  cases watch with
  | none =>
      show armedAt (fun _ => 0) = { a | none = some a }
      rw [armedAt_zero]
      simp
  | some a =>
      ext b
      simp [Scene.dr, Scene.watching, armedAt_watching, eq_comm]

/-- A later `watch` takes the registers of an earlier one. -/
theorem Scene.dr_watching (sc : Scene) (a : Word) :
    sc.dr.watching a = ({ sc with watch := some a } : Scene).dr := by
  obtain ⟨t, watch, q, passed⟩ := sc
  cases watch with
  | none => rfl
  | some b =>
      show DebugRegs.watching (DebugRegs.watching _ b) a = DebugRegs.watching _ a
      have h07 : (0 : Fin 8) ≠ 7 := by decide
      simp only [DebugRegs.watching]
      rw [Function.update_comm h07, Function.update_idem, Function.update_comm h07.symm,
        Function.update_idem]

/-! ## The state at a prompt -/

/-- The entries of the table that are software breakpoints. -/
def softOnly (bps : List Breakpoint) : List Breakpoint := bps.filter fun bp => bp.type = .SFBP

/-- The debugger `dbug` is where the saga has the scene `sc`. -/
structure Mirrors (M : Cpu) (pid : Pid) (init : UserRegs × Mem 64 Byte) (funs : Option FunArr)
    (B : Set Word) (dbug : Dbug) (sc : Scene) : Prop where
  pid_eq : dbug.pid = pid
  funs_eq : dbug.funs = funs
  tabled : Tabled (softOnly dbug.bps) sc.table
  subset : places sc.table ⊆ B
  saved : ∀ a bp, firstSF dbug.bps a = some bp → bp.origByte = init.2 a
  apart : ∀ a ∈ hwAddrs dbug.bps, a ∉ B ∧ a - 1 ∉ B
  listed : ∀ a, sc.watch = some a → a ∈ hwAddrs dbug.bps
  off : sc.passed = true → sc.prog.1.rip ∉ B
  reached : ∃ k, M.after k init = some sc.prog

section
variable {M : Cpu} {pid : Pid} {init : UserRegs × Mem 64 Byte} {funs : Option FunArr}
  {B : Set Word} {dbug dbug' : Dbug} {sc sc₁ sc' : Scene} {arg : NgxArray} {args : List NgxArray}
  {l l' : List Out} {w : HwDebuggee × List Out} {bps : List Breakpoint} {a : Word}

theorem firstSF_softOnly : firstSF (softOnly bps) a = firstSF bps a := by
  rw [firstSF, softOnly, List.find?_filter, firstSF]
  congr 1
  funext bp
  by_cases h : bp.type = .SFBP
  · simp [h]
  · simp [h]

theorem softOnly_append (bp : Breakpoint) :
    softOnly (bps ++ [bp]) = softOnly bps ++ softOnly [bp] := by
  simp only [softOnly, List.filter_append]

/-- An entry of `watch` behind the others is not one of `b`. -/
theorem softOnly_append_hard {bp : Breakpoint} (h : bp.type = .HWBP) :
    softOnly (bps ++ [bp]) = softOnly bps := by
  rw [softOnly_append]
  simp [softOnly, h]

theorem firstSF_append_hard {bp : Breakpoint} (h : bp.type = .HWBP) :
    firstSF (bps ++ [bp]) a = firstSF bps a := by
  rw [← firstSF_softOnly, softOnly_append_hard h, firstSF_softOnly]

/-- Off the table, no stop is taken for a software breakpoint. -/
theorem Mirrors.firstSF_none (h : Mirrors M pid init funs B dbug sc) (ha : a ∉ B) :
    firstSF dbug.bps a = none := by
  rw [← firstSF_softOnly, firstSF_eq_none]
  intro bp hbp _ haddr
  apply ha
  apply h.subset
  rw [← h.tabled.addrs]
  exact ⟨bp, hbp, haddr⟩

theorem Mirrors.suitable (hM : Suitable M init B) (h : Mirrors M pid init funs B dbug sc) :
    Suitable M sc.prog (places sc.table) := by
  obtain ⟨k, hk⟩ := h.reached
  exact (hM.after hk).mono h.subset

/-- The watched address is not on the table. -/
theorem Mirrors.unarmed (h : Mirrors M pid init funs B dbug sc) (ha : a ∈ places sc.table) :
    a ∉ armedAt sc.dr := by
  rw [sc.armedAt_dr]
  intro hwatch
  exact (h.apart a (h.listed a hwatch)).1 (h.subset ha)

/-- Neither `cmd`, nor `status`, nor `regs` matters, nor how far the program has come. -/
theorem Mirrors.moved (h : Mirrors M pid init funs B dbug sc) {status : Nat} {regs : UserRegs}
    {q : UserRegs × Mem 64 Byte} {passed : Bool} (hoff : passed = true → q.1.rip ∉ B)
    (hreached : ∃ k, M.after k init = some q) :
    Mirrors M pid init funs B { dbug with cmd := arg, status := status, regs := regs }
      { sc with prog := q, passed := passed } :=
  ⟨h.pid_eq, h.funs_eq, h.tabled, h.subset, h.saved, h.apart, h.listed, hoff, hreached⟩

theorem Mirrors.kept (h : Mirrors M pid init funs B dbug sc) {regs : UserRegs} :
    Mirrors M pid init funs B { dbug with cmd := arg, regs := regs } sc :=
  h.moved h.off h.reached

/-- Where a `c` leads, the debugger is there again. -/
theorem Mirrors.goes (h : Mirrors M pid init funs B dbug sc) {o : Out} (hgo : sc.Goes M o sc₁)
    {status : Nat} {regs : UserRegs} :
    Mirrors M pid init funs B { dbug with cmd := arg, status := status, regs := regs } sc₁ := by
  obtain ⟨k, hk⟩ := h.reached
  have hafter : ∀ {q₁ r m}, onward M sc.passed sc.prog = some q₁ →
      M.Tour (places sc.table ∪ sc.watching) q₁ [] (r, m) → ∃ j, M.after j init = some (r, m) := by
    intro q₁ r m hon htour
    obtain ⟨i, hi⟩ := onward_after hon
    obtain ⟨j, hj⟩ := htour.after
    exact ⟨_, Machine.after_add (Machine.after_add hk hi) hj⟩
  cases hgo with
  | hit hon htour hf hstep =>
      obtain ⟨j, hj⟩ := hafter hon htour
      exact h.moved (fun hfalse => by cases hfalse) ⟨j + 1, by simp [Machine.after, hj, hstep]⟩
  | seen hon htour hwatch =>
      exact h.moved (fun _ => (h.apart _ (h.listed _ hwatch)).1) (hafter hon htour)

/-! ## The requests, with a record -/

/-- The kernel, with the reports. -/
abbrev mixed (M : Cpu) (pid : Pid) (init : UserRegs × Mem 64 Byte) (funs : Option FunArr) :
    Kernel Resp (HwDebuggee × List Out) :=
  recorded reports (hwKernel M pid init funs)

theorem MemReq.plainly {r : Req} (h : MemReq pid r) : Plainly r := by
  cases h <;> trivial

/-- A print that is no report has no effect at all. -/
theorem mixed_print {o : Out} (ho : isTrigger o = false) {s : HwDebuggee} {x : Unit} :
    mixed M pid init funs (.print o) (s, l) x w ↔ x = () ∧ w = (s, l) := by
  have hl : l ++ reports (.print o) = l := by simp [reports, ho]
  rw [mixed, recorded_sure fun _ _ => hw_print, hl]

/-- One that is has none on the debuggee. -/
theorem mixed_report {o : Out} (ho : isTrigger o = true) {s : HwDebuggee} {x : Unit} :
    mixed M pid init funs (.print o) (s, l) x w ↔ x = () ∧ w = (s, l ++ [o]) := by
  have hl : l ++ reports (.print o) = l ++ [o] := by simp [reports, ho]
  rw [mixed, recorded_sure fun _ _ => hw_print, hl]

/-- Reading and writing memory is as without debug registers. -/
theorem wp_mixed_mem {α : Type} {V : α → Prop} {p : Dbg α} (hp : Emits (MemReq pid) V p)
    {s : Debuggee} {dr : DebugRegs} {passed : Bool} {Q : α → HwDebuggee × List Out → Prop} :
    wp (mixed M pid init funs) Free p Q (⟨s, dr, passed⟩, l) ↔
      wp (cpuKernel M pid init funs) Free p (fun a s' => Q a (⟨s', dr, passed⟩, l)) s := by
  rw [wp_quiet (hp.mono (fun _ => MemReq.unreported) fun _ h => h),
    embeds_hw.wp (hp.mono (fun _ => MemReq.plainly) fun _ h => h)]

theorem mixed_getregs {S : Set Word} {q : UserRegs × Mem 64 Byte} {dr : DebugRegs} {passed : Bool}
    {x : Option UserRegs} :
    mixed M pid init funs (.getregs pid) (⟨planted .stopped S q, dr, passed⟩, l) x w ↔
      x = some q.1 ∧ w = (⟨planted .stopped S q, dr, passed⟩, l) := by
  rw [mixed, recorded_sure fun _ _ => hw_getregs]
  simp [reports]

/-! ## `b` and `watch` -/

theorem Mirrors.other (h : Mirrors M pid init funs B dbug sc) (hb : Bystander arg) :
    ∃ regs, ∀ Q, wp (mixed M pid init funs) Free (play arg dbug) Q (sc.debuggee, l) ↔
      Q { dbug with cmd := arg, regs := regs } (sc.debuggee, l) := by
  have hregs : ∀ x w, mixed M pid init funs (.getregs dbug.pid) (sc.debuggee, l) x w ↔
      x = some sc.prog.1 ∧ w = (sc.debuggee, l) := by
    intro x w
    rw [h.pid_eq]
    exact mixed_getregs
  exact wp_bystander (fun o ho _ _ => mixed_print ho) hregs hb

/-- The byte an INT3 goes over is the program's own where none is there yet. -/
theorem Mirrors.saved_append (hM : Suitable M init B) (h : Mirrors M pid init funs B dbug sc)
    {bp : Breakpoint} (hbp : bp.type = .SFBP) (hB : bp.addr ∈ B)
    (hbyte : bp.origByte = overlay (places sc.table) INT_3 sc.prog.2 bp.addr) {bp' : Breakpoint}
    (hfirst : firstSF (dbug.bps ++ [bp]) a = some bp') : bp'.origByte = init.2 a := by
  rw [firstSF_append] at hfirst
  cases hold : firstSF dbug.bps a with
  | some old =>
      rw [hold] at hfirst
      obtain rfl : old = bp' := by simpa using hfirst
      exact h.saved a old hold
  | none =>
      rw [hold, Option.none_or, firstSF_singleton hbp] at hfirst
      obtain ⟨rfl, hsome⟩ := Option.ite_none_right_eq_some.mp hfirst
      obtain rfl := Option.some.inj hsome
      have hout : bp.addr ∉ places sc.table := by
        intro hin
        rw [← h.tabled.addrs] at hin
        obtain ⟨old, hmem, haddr⟩ := hin
        rw [← firstSF_softOnly, firstSF_eq_none] at hold
        exact hold old hmem (by simpa [softOnly] using (List.mem_filter.mp hmem).2) haddr
      obtain ⟨k, hk⟩ := h.reached
      rw [hbyte, overlay, if_neg hout]
      exact Machine.after_keeps hM.undisturbed hk hB

theorem Mirrors.set (hM : Suitable M init B) (h : Mirrors M pid init funs B dbug sc)
    (hname : arg.str 0 = some nameB) {i : Nat} (hfind : findFunc funs (arg.str 1) = some i)
    (hB : ((funs.getD []).getD i ⟨[], 0⟩).addr ∈ B) :
    ∃ dbug₁ sc₁, sc₁ = { sc with table := sc.table ++ [(funs.getD []).getD i ⟨[], 0⟩] } ∧
      (∀ Q, wp (mixed M pid init funs) Free (play arg dbug) Q (sc.debuggee, l) ↔
        Q dbug₁ (sc₁.debuggee, l)) ∧ Mirrors M pid init funs B dbug₁ sc₁ := by
  obtain rfl := h.pid_eq
  obtain rfl := h.funs_eq
  set f := (dbug.funs.getD []).getD i ⟨[], 0⟩ with hf
  set bp : Breakpoint := Breakpoint.planted { name := some f.name, addr := f.addr }
    (overlay (places sc.table) INT_3 sc.prog.2 f.addr) with hbp
  have hplaces : places (sc.table ++ [f]) ⊆ B := by
    rw [places_append]
    exact Set.insert_subset hB h.subset
  refine ⟨{ dbug with cmd := arg, bps := dbug.bps ++ [bp] }, _, rfl, ?_, rfl, rfl, ?_, hplaces, ?_,
    ?_, ?_, h.off, h.reached⟩
  · intro Q
    rw [play_break hname, wp_bind, commandBreak]
    simp only [hfind, ← hf]
    rw [wp_bind, Scene.debuggee, wp_mixed_mem emits_insertINT3Bp, wp_insertINT3Bp_planted,
      Scene.debuggee, places_append]
    exact Iff.rfl
  · show Tabled (softOnly (dbug.bps ++ [bp])) (sc.table ++ [f])
    rw [softOnly_append]
    exact h.tabled.append ⟨rfl, rfl, rfl⟩
  · intro a bp' hfirst
    exact h.saved_append hM rfl hB (Breakpoint.planted_origByte _ _) hfirst
  · show ∀ a ∈ hwAddrs (dbug.bps ++ [bp]), a ∉ B ∧ a - 1 ∉ B
    rw [hwAddrs_append, hwAddrs_soft rfl, List.append_nil]
    exact h.apart
  · show ∀ a, sc.watch = some a → a ∈ hwAddrs (dbug.bps ++ [bp])
    rw [hwAddrs_append, hwAddrs_soft rfl, List.append_nil]
    exact h.listed

/-- What a `watch` names. -/
theorem watchedAddr_eq_some : watchedAddr arg = some a ↔
    arg.str 0 = some nameWatch ∧ ∃ text, arg.str 1 = some text ∧ (sscanfLx text).getD 0 = a := by
  rw [watchedAddr, Option.ite_none_right_eq_some, Option.map_eq_some_iff]

/-- A `watch` sets the two registers, and the entry goes to the end of the table. -/
theorem wp_watch {text : CStr} {Q : Dbug → HwDebuggee × List Out → Prop}
    (hname : arg.str 0 = some nameWatch) (htext : arg.str 1 = some text) :
    wp (mixed M dbug.pid init funs) Free (play arg dbug) Q (sc.debuggee, l) ↔
      Q { dbug with
          cmd := arg,
          bps := dbug.bps ++ [{ addr := (sscanfLx text).getD 0, type := .HWBP }] }
        (({ sc with watch := some ((sscanfLx text).getD 0) } : Scene).debuggee, l) := by
  have hpoke : ∀ {dr num data x w}, mixed M dbug.pid init funs (.pokeuser dbug.pid num data)
      (⟨planted .stopped (places sc.table) sc.prog, dr, sc.passed⟩, l) x w ↔ x = true ∧
        w = (⟨planted .stopped (places sc.table) sc.prog, Function.update dr num data, sc.passed⟩,
          l) := by
    intro dr num data x w
    rw [mixed, recorded_sure fun _ _ => hw_pokeuser]
    simp [reports]
  rw [play_watch hname, wp_bind, commandWatch, htext]
  dsimp only
  rw [wp_bind, wp_sure fun _ _ => mixed_print rfl, wp_bind, insertHardBreak, wp_bind,
    Scene.debuggee, wp_sure fun _ _ => hpoke, if_pos rfl, wp_bind, wp_sure fun _ _ => hpoke,
    if_pos rfl, Scene.debuggee, ← sc.dr_watching]
  exact Iff.rfl

theorem Mirrors.watch (h : Mirrors M pid init funs B dbug sc) (ha : watchedAddr arg = some a)
    (hB : a ∉ B ∧ a - 1 ∉ B) :
    ∃ dbug₁, (∀ Q, wp (mixed M pid init funs) Free (play arg dbug) Q (sc.debuggee, l) ↔
        Q dbug₁ (({ sc with watch := some a } : Scene).debuggee, l)) ∧
      Mirrors M pid init funs B dbug₁ { sc with watch := some a } := by
  obtain ⟨hname, text, htext, rfl⟩ := watchedAddr_eq_some.mp ha
  obtain rfl := h.pid_eq
  set bp : Breakpoint := { addr := (sscanfLx text).getD 0, type := .HWBP }
  have hhw : hwAddrs (dbug.bps ++ [bp]) = hwAddrs dbug.bps ++ [bp.addr] := by
    rw [hwAddrs_append, hwAddrs_hard rfl]
  refine ⟨{ dbug with cmd := arg, bps := dbug.bps ++ [bp] }, fun Q => wp_watch hname htext, rfl,
    h.funs_eq, ?_, h.subset, ?_, ?_, ?_, h.off, h.reached⟩
  · show Tabled (softOnly (dbug.bps ++ [bp])) sc.table
    rw [softOnly_append_hard rfl]
    exact h.tabled
  · intro b bp' hb
    exact h.saved b bp' ((firstSF_append_hard rfl).symm.trans hb)
  · show ∀ b ∈ hwAddrs (dbug.bps ++ [bp]), b ∉ B ∧ b - 1 ∉ B
    rw [hhw]
    intro b hb
    rcases List.mem_append.mp hb with hb | hb
    · exact h.apart b hb
    · obtain rfl := List.mem_singleton.mp hb
      exact hB
  · show ∀ b, some bp.addr = some b → b ∈ hwAddrs (dbug.bps ++ [bp])
    rw [hhw]
    intro b hb
    obtain rfl := Option.some.inj hb
    exact List.mem_append_right _ (List.mem_singleton_self _)

/-! ## `c` -/

theorem triggerHW_none {d : Dbug} (h : d.regs.rip ∉ hwAddrs d.bps) :
    triggerHW d = Prog.ret () := by
  have hnone : findCurrentHWBp d = none := by
    rw [findCurrentHWBp_eq_none]
    intro bp hbp htype haddr
    apply h
    rw [← haddr]
    exact List.mem_map_of_mem (List.mem_filter.mpr ⟨hbp, by simpa using htype⟩)
  rw [triggerHW, hnone]
  rfl

theorem triggerHW_found {d : Dbug} (h : d.regs.rip ∈ hwAddrs d.bps) :
    triggerHW d = ask (.print (.triggerHW d.regs.rip)) := by
  cases hfind : findCurrentHWBp d with
  | none =>
      obtain ⟨bp, hbp, haddr⟩ := List.mem_map.mp h
      obtain ⟨hmem, htype⟩ := List.mem_filter.mp hbp
      exact absurd haddr (findCurrentHWBp_eq_none.mp hfind bp hmem (by simpa using htype))
  | some i =>
      obtain ⟨hi, hmatch, -⟩ := List.findIdx?_eq_some_iff_getElem.mp hfind
      have haddr : (d.bps.getD i {}).addr = d.regs.rip := by
        rw [List.getD_eq_getElem?_getD, List.getElem?_eq_getElem hi]
        simpa using (Bool.and_eq_true_iff.mp hmatch).2
      rw [triggerHW, hfind]
      dsimp only
      rw [haddr]

/-- A stop of a debug register is reported, and nothing is done to the debuggee. -/
theorem Mirrors.wp_seen (h : Mirrors M pid init funs B dbug sc) {r : UserRegs} {m : Mem 64 Byte}
    (hwatch : sc.watch = some r.rip) {Q : Int × Dbug → HwDebuggee × List Out → Prop} :
    wp (mixed M pid init funs) Free
        (onEvent { dbug with cmd := arg } (some ⟨pid, .stopped (.debugReg r.rip)⟩)) Q
        (⟨planted .stopped (places sc.table) (r, m), sc.dr, true⟩, l) ↔
      Q (0, { dbug with
          cmd := arg, status := (Change.stopped (.debugReg r.rip)).status, regs := r })
        (({ sc with prog := (r, m), passed := true } : Scene).debuggee,
          l ++ [.triggerHW r.rip]) := by
  have hlisted := h.listed _ hwatch
  have hnone := h.firstSF_none (h.apart _ hlisted).2
  obtain rfl := h.pid_eq
  simp only [onEvent, storeStatus_some, WIFEXITED_stopped, Bool.false_eq_true, if_false]
  rw [wp_bind, wp_sure fun _ _ => mixed_getregs]
  simp only [WSTOPSIG_stopped, Stop.sig, if_true, storeRegs_some]
  rw [triggerSF_eq_ret hnone, Prog.ret_bind, triggerHW_found hlisted, wp_bind,
    wp_sure fun _ _ => mixed_report rfl]
  exact Iff.rfl

/-- `resume_INT3_bp_next` runs the one instruction. -/
theorem wp_resume_hw {S : Set Word} {dr : DebugRegs} {r : UserRegs} {m : Mem 64 Byte}
    {q : UserRegs × Mem 64 Byte} (hS : Suitable M (r, m) S) (hstep : M.step r m = some q)
    (hin : r.rip ∈ S) (hout : r.rip ∉ armedAt dr) {bp : Breakpoint} (htype : bp.type = .SFBP)
    (haddr : bp.addr = r.rip) (hsaved : (toBytes bp.orig_code).take 1 = [m r.rip]) {ip : Word}
    {Q : Int × UserRegs → HwDebuggee → Prop} :
    wp (hwKernel M pid init funs) Free (resumeINT3BpNext pid bp (r.withRip ip)) Q
        ⟨planted .stopped S (r.withRip ip, m), dr, false⟩ ↔
      Q (0, r) ⟨planted .stopped S q, dr, false⟩ := by
  have hplain : ∀ {a : Word} {str : List Byte},
      Emits Plainly (fun _ => True) (writeProMem pid a str 1) :=
    emits_writeProMem.mono (fun _ => MemReq.plainly) fun _ h => h
  obtain ⟨name, type, a, code⟩ := bp
  obtain rfl : type = .SFBP := htype
  obtain rfl : a = r.rip := haddr
  simp only [resumeINT3BpNext, ne_eq, not_true_eq_false, if_false, wp_bind]
  rw [embeds_hw.wp hplain, wp_takeOut hsaved, wp_sure fun _ _ => hw_setregs]
  simp only [UserRegs.withRip_withRip, UserRegs.withRip_self]
  rw [wp_sure fun _ _ => hw_singlestep hS hstep hout, wp_sure fun _ _ => hw_wait_stepped,
    embeds_hw.wp hplain, wp_putIn, Set.insert_sdiff_singleton, Set.insert_eq_of_mem hin]
  exact Iff.rfl

/-- The byte an entry has saved is the one the program has there now. -/
theorem Mirrors.saved_now (hM : Suitable M init B) (h : Mirrors M pid init funs B dbug sc)
    {q₁ : UserRegs × Mem 64 Byte} {r : UserRegs} {m : Mem 64 Byte} {bp : Breakpoint}
    (hon : onward M sc.passed sc.prog = some q₁)
    (htour : M.Tour (places sc.table ∪ sc.watching) q₁ [] (r, m)) (ha : a ∈ B)
    (hbp : firstSF dbug.bps a = some bp) : (toBytes bp.orig_code).take 1 = [m a] := by
  obtain ⟨i, hi⟩ := h.reached
  obtain ⟨j, hj⟩ := onward_after hon
  obtain ⟨k, hk⟩ := htour.after
  have hkeeps : m a = init.2 a := Machine.after_keeps hM.undisturbed
    (Machine.after_add (Machine.after_add hi hj) hk) ha
  rw [toBytes_take_one, hkeeps]
  exact congrArg (fun b => [b]) (h.saved _ _ hbp)

/-- A stop of an INT3 is reported, and stepped over. -/
theorem Mirrors.wp_hit (hM : Suitable M init B) (h : Mirrors M pid init funs B dbug sc)
    {q₁ q₂ : UserRegs × Mem 64 Byte} {r : UserRegs} {m : Mem 64 Byte} {f : FuncOrg}
    (hon : onward M sc.passed sc.prog = some q₁)
    (htour : M.Tour (places sc.table ∪ sc.watching) q₁ [] (r, m))
    (hf : functionAt sc.table r.rip = some f) (hstep : M.step r m = some q₂)
    {Q : Int × Dbug → HwDebuggee × List Out → Prop} :
    wp (mixed M pid init funs) Free
        (onEvent { dbug with cmd := arg } (some ⟨pid, .stopped (.int3 r.rip)⟩)) Q
        (⟨planted .stopped (places sc.table) (r.withRip (r.rip + 1), m), sc.dr, false⟩, l) ↔
      Q (0, { dbug with cmd := arg, status := (Change.stopped (.int3 r.rip)).status, regs := r })
        (({ sc with prog := q₂, passed := false } : Scene).debuggee, l ++ [f.report]) := by
  obtain ⟨bp, hbp, htype, hbpname, hbpaddr⟩ := h.tabled.firstSF hf
  rw [firstSF_softOnly] at hbp
  have haddr : bp.addr = r.rip := by rw [hbpaddr, functionAt_addr hf]
  have hin : r.rip ∈ places sc.table := mem_places_of_functionAt hf
  have hS : Suitable M (r, m) (places sc.table) := ((h.suitable hM).onward hon).tour htour
  have hsaved := h.saved_now hM hon htour (h.subset hin) hbp
  have hreport : Out.trigger bp.addr bp.name = f.report := by
    rw [hbpaddr, hbpname]
    rfl
  have hHW : triggerHW { dbug with
      cmd := arg, status := (Change.stopped (.int3 r.rip)).status, regs := r } = Prog.ret () :=
    triggerHW_none fun hlisted => (h.apart _ hlisted).1 (h.subset hin)
  have hout := h.unarmed hin
  obtain rfl := h.pid_eq
  simp only [onEvent, storeStatus_some, WIFEXITED_stopped, Bool.false_eq_true, if_false]
  rw [wp_bind, wp_sure fun _ _ => mixed_getregs]
  simp only [WSTOPSIG_stopped, Stop.sig, if_true, storeRegs_some]
  rw [triggerSF_eq_resume (by simpa using hbp)]
  simp only [wp_bind]
  rw [hreport, wp_sure fun _ _ => mixed_report rfl, wp_quiet quiet_resumeINT3BpNext,
    wp_resume_hw hS hstep hin hout htype haddr hsaved]
  simp only [wp_ret, hHW]
  exact Iff.rfl

/-- The `PTRACE_CONT` of a `c`. -/
theorem Scene.cont (x : Bool) :
    mixed M pid init funs (.cont pid 0) (sc.debuggee, l) x w ↔
      x = true ∧ w = (⟨planted .running (places sc.table) sc.prog, sc.dr, sc.passed⟩, l) := by
  rw [mixed, Scene.debuggee, recorded_sure fun _ _ => hw_cont]
  simp [reports]

/-- Its `wait`. -/
theorem Mirrors.wait_iff (hM : Suitable M init B) (h : Mirrors M pid init funs B dbug sc)
    {e : WaitEvent} {s : HwDebuggee} :
    HwWait M pid ⟨planted .running (places sc.table) sc.prog, sc.dr, sc.passed⟩ e s ↔
      (∃ q₁, onward M sc.passed sc.prog = some q₁ ∧ HwStop M pid (places sc.table) sc.dr q₁ e s) ∨
      (onward M sc.passed sc.prog = none ∧ ∃ code, e = ⟨pid, .exited code⟩ ∧
        s = ⟨planted .gone (places sc.table) sc.prog, sc.dr, false⟩) :=
  hwWait_planted (h.suitable hM) fun hpassed hin => h.off hpassed (h.subset hin)

/-- And it comes back wherever the program goes. -/
theorem Mirrors.goes_ends (hM : Suitable M init B) (h : Mirrors M pid init funs B dbug sc)
    (hname : arg.str 0 = some nameC) {o : Out} (hgo : sc.Goes M o sc₁) :
    ∃ dbug₁, Ends (mixed M pid init funs) (play arg dbug) (sc.debuggee, l) dbug₁
      (sc₁.debuggee, l ++ [o]) ∧ Mirrors M pid init funs B dbug₁ sc₁ := by
  obtain rfl := h.pid_eq
  simp only [play_continue hname, commandContinue_eq, Prog.bind_assoc]
  cases hgo with
  | @hit q₁ q₂ r m f hon htour hf hstep =>
      refine ⟨{ dbug with
        cmd := arg, status := (Change.stopped (.int3 r.rip)).status, regs := r }, ?_,
        h.goes (.hit hon htour hf hstep)⟩
      rw [ends_sure fun x _ => Scene.cont x, if_pos rfl, Prog.bind_assoc, ends_ask]
      have hin : r.rip ∈ places sc.table := mem_places_of_functionAt hf
      have hrun : M.Tour (places sc.table ∪ armedAt sc.dr) q₁ [] (r, m) := by
        rw [sc.armedAt_dr]
        exact htour
      refine ⟨some ⟨dbug.pid, .stopped (.int3 r.rip)⟩, (_, l), (recorded_unseen rfl).mpr
        ⟨⟨_, rfl, (h.wait_iff hM).mpr (Or.inl ⟨q₁, hon, .int3 hrun (h.unarmed hin) hin⟩)⟩, rfl⟩, ?_⟩
      exact ends_bind.mpr
        ⟨_, _, (ends_iff_of_wp fun Q => h.wp_hit hM hon htour hf hstep).mpr ⟨rfl, rfl⟩, .refl _ _⟩
  | @seen q₁ r m hon htour hwatch =>
      refine ⟨{ dbug with
        cmd := arg, status := (Change.stopped (.debugReg r.rip)).status, regs := r }, ?_,
        h.goes (.seen hon htour hwatch)⟩
      rw [ends_sure fun x _ => Scene.cont x, if_pos rfl, Prog.bind_assoc, ends_ask]
      have hrun : M.Tour (places sc.table ∪ armedAt sc.dr) q₁ [] (r, m) := by
        rw [sc.armedAt_dr]
        exact htour
      have hin : r.rip ∈ armedAt sc.dr := by
        rw [sc.armedAt_dr]
        exact hwatch
      refine ⟨some ⟨dbug.pid, .stopped (.debugReg r.rip)⟩, (_, l), (recorded_unseen rfl).mpr
        ⟨⟨_, rfl, (h.wait_iff hM).mpr (Or.inl ⟨q₁, hon, .debugReg hrun hin⟩)⟩, rfl⟩, ?_⟩
      exact ends_bind.mpr
        ⟨_, _, (ends_iff_of_wp fun Q => h.wp_seen hwatch).mpr ⟨rfl, rfl⟩, .refl _ _⟩

/-! ## The start -/

/-- The watched addresses keep away from `B`. -/
def KeepsAway (B : Set Word) (args : List NgxArray) : Prop :=
  ∀ arg ∈ args, ∀ a, watchedAddr arg = some a → a ∉ B ∧ a - 1 ∉ B

theorem KeepsAway.tail (hW : KeepsAway B (arg :: args)) : KeepsAway B args :=
  fun a ha => hW a (List.mem_cons_of_mem arg ha)

/-- Every saga is told by a session. -/
theorem Mirrors.told (hM : Suitable M init B) (h : Mirrors M pid init funs B dbug sc)
    (hB : Covers funs B args) (hW : KeepsAway B args) {outs : List Out}
    (hsaga : Saga M funs sc args outs sc') :
    ∃ dbug', Runs (mixed M pid init funs) play Always dbug (sc.debuggee, l) args dbug'
      (sc'.debuggee, l ++ outs) := by
  induction hsaga generalizing dbug l with
  | done sc =>
      rw [List.append_nil]
      exact ⟨dbug, .nil _ _⟩
  | other hb _ ih =>
      obtain ⟨regs, honly⟩ := h.other hb (l := l)
      obtain ⟨dbug', hruns⟩ := ih h.kept hB.tail hW.tail
      exact ⟨dbug', (runs_cons_sure honly).mpr hruns⟩
  | unknown hname hfind _ ih =>
      obtain ⟨dbug', hruns⟩ := ih h.kept hB.tail hW.tail
      refine ⟨dbug', (runs_cons_sure fun Q => wp_unknown hname ?_).mpr hruns⟩
      rwa [h.funs_eq]
  | set hname hfind _ ih =>
      obtain ⟨d₁, _, rfl, honly, h₁⟩ := h.set hM hname hfind
        (hB _ List.mem_cons_self hname _ hfind) (l := l)
      obtain ⟨dbug', hruns⟩ := ih h₁ hB.tail hW.tail
      exact ⟨dbug', (runs_cons_sure honly).mpr hruns⟩
  | watch ha _ ih =>
      obtain ⟨d₁, honly, h₁⟩ := h.watch ha (hW _ List.mem_cons_self _ ha) (l := l)
      obtain ⟨dbug', hruns⟩ := ih h₁ hB.tail hW.tail
      exact ⟨dbug', (runs_cons_sure honly).mpr hruns⟩
  | go hname hgo _ ih =>
      obtain ⟨d₁, hends, h₁⟩ := h.goes_ends hM hname hgo (l := l)
      obtain ⟨dbug', hruns⟩ := ih h₁ hB.tail hW.tail
      rw [List.append_cons]
      exact ⟨dbug', .cons trivial hends hruns⟩

end

end TestDbug
