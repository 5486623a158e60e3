/-
# `TestDbug.Overlaid` — a debuggee with INT3s in it, and the program it runs

`planted phase S q` is the debuggee where the undebugged program stands at `q`,
with an INT3 at each address of `S`.  The rules of this module say what the
requests of a breakpoint program do in such a state, each with its one answer
and its one effect:

    CONT, wait      the program runs on to its next visit to `S`, or to its end
    writeProMem     takes an address out of `S`, or puts it back
    SINGLESTEP      the program runs one instruction

So a debugger that takes out the INT3 it has met, steps, and puts it back, is
in a `planted` state again, one instruction further.
-/
import TestDbug.Transparency
import TestDbug.Lib.Visits
import TestDbug.Lib.Recording

open ByteMemory Interaction

namespace TestDbug

/-- The debuggee where the undebugged program stands at `q`, with an INT3 at
each address of `S`. -/
noncomputable def planted (phase : Phase) (S : Set Word) (q : UserRegs × Mem 64 Byte) : Debuggee :=
  ⟨phase, q.1, overlay S INT_3 q.2⟩

section
variable {M : Cpu} {pid : Pid} {init q q' : UserRegs × Mem 64 Byte} {funs : Option FunArr}
  {B S : Set Word} {r : UserRegs} {m : Mem 64 Byte} {as : List Word}

/-! ## Suitable programs stay suitable -/

theorem Suitable.mono (hM : Suitable M q B) (hS : S ⊆ B) : Suitable M q S := by
  refine ⟨hM.noInt3, fun k r m hk => ?_, fun k r m hk hin => hM.goesOn k r m hk (hS hin)⟩
  have hu := hM.undisturbed k r m hk
  exact ⟨fun i hpos hlt hin => hu.inside i hpos hlt (hS hin),
    fun x hx hin => hu.reads x hx (hS hin), fun x hx hin => hu.writes x hx (hS hin)⟩

theorem Suitable.after (hM : Suitable M q B) {k : Nat} (hk : M.after k q = some q') :
    Suitable M q' B :=
  ⟨hM.noInt3.after hk, hM.undisturbed.after hk, hM.goesOn.after hk⟩

theorem Suitable.tour (hM : Suitable M q B) (ht : M.Tour S q as q') : Suitable M q' B := by
  obtain ⟨k, hk⟩ := ht.after
  exact hM.after hk

theorem Suitable.next (hM : Suitable M (r, m) B) (hstep : M.step r m = some q) :
    Suitable M q B :=
  ⟨hM.noInt3.next hstep, hM.undisturbed.next hstep, hM.goesOn.next hstep⟩

theorem Suitable.ownCode (hM : Suitable M q B) :
    M.Along q fun r m => m (M.pc r) ≠ INT_3 := by
  intro k r m hk
  rw [M.pc_eq]
  exact hM.noInt3 k r m hk

/-! ## Running on -/

/-- `PTRACE_CONT` runs the program to its next visit to `S`, or to its end. -/
theorem waitStep_planted (hM : Suitable M q S) {e : WaitEvent} {s : Debuggee} :
    WaitStep M pid (planted .running S q) e s ↔
      (∃ r m, M.Tour S q [] (r, m) ∧ r.rip ∈ S ∧ e = ⟨pid, .stopped (.int3 r.rip)⟩ ∧
        s = planted .stopped S (r.withRip (r.rip + 1), m)) ∨
      ∃ r m code, M.Tour S q [] (r, m) ∧ M.step r m = none ∧ e = ⟨pid, .exited code⟩ ∧
        s = planted .gone S (r, m) := by
  obtain ⟨r₀, m₀⟩ := q
  constructor
  · intro h
    cases h with
    | int3 hgo htrap =>
        obtain ⟨m, htour, rfl⟩ := (Machine.go_overlay subset_rfl hM.undisturbed hM.ownCode).mp hgo
        rw [← M.pc_eq, Machine.overlay_pc (hM.tour htour).ownCode.here, M.pc_eq] at htrap
        exact Or.inl ⟨_, m, htour, htrap, rfl, rfl⟩
    | exit code hgo hno hend =>
        obtain ⟨m, htour, rfl⟩ := (Machine.go_overlay subset_rfl hM.undisturbed hM.ownCode).mp hgo
        have hM' := hM.tour htour
        rw [← M.pc_eq, ne_eq, Machine.overlay_pc hM'.ownCode.here] at hno
        rw [Machine.step_overlay_none subset_rfl hM'.undisturbed.here hno] at hend
        exact Or.inr ⟨_, m, code, htour, hend, rfl, rfl⟩
  · rintro (⟨r, m, htour, hin, rfl, rfl⟩ | ⟨r, m, code, htour, hend, rfl, rfl⟩)
    · refine .int3 ((Machine.go_overlay subset_rfl hM.undisturbed hM.ownCode).mpr
        ⟨m, htour, rfl⟩) ?_
      rw [← M.pc_eq, Machine.overlay_pc (hM.tour htour).ownCode.here, M.pc_eq]
      exact hin
    · have hM' := hM.tour htour
      have hout : M.pc r ∉ S := by
        rw [M.pc_eq]
        exact fun hin => hM'.goesOn.here hin hend
      refine .exit code ((Machine.go_overlay subset_rfl hM.undisturbed hM.ownCode).mpr
        ⟨m, htour, rfl⟩) ?_ ?_
      · rw [← M.pc_eq, ne_eq, Machine.overlay_pc hM'.ownCode.here]
        exact hout
      · exact (Machine.step_overlay_none subset_rfl hM'.undisturbed.here hout).mpr hend

/-- One instruction at an address of `S`, with the INT3 there taken out. -/
theorem stepOnce_planted (hM : Suitable M (r, m) S) (hstep : M.step r m = some q) :
    stepOnce M (planted .stopped (S \ {r.rip}) (r, m)) = planted .stepped (S \ {r.rip}) q := by
  have hpc : M.pc r ∉ S \ {r.rip} := by
    rw [M.pc_eq]
    exact fun hin => hin.2 rfl
  obtain ⟨r₁, m₁⟩ := q
  obtain ⟨mp, hstep', hp⟩ := Machine.step_patched (patched_overlay (v := INT_3))
    (Set.sdiff_subset (s := S) (t := {r.rip})) hM.undisturbed.here hpc hstep
  rw [patched_iff.mp hp] at hstep'
  simp only [stepOnce, planted, hstep']

/-! ## The requests -/

section
variable {x : Bool} {s : Debuggee}

theorem cpu_cont : cpuKernel M pid init funs (.cont pid 0) (planted .stopped S q) x s ↔
    x = true ∧ s = planted .running S q := by
  simp [cpuKernel, planted]

theorem cpu_kill : cpuKernel M pid init funs (.kill pid SIGKILL) (planted .stopped S q) x s ↔
    x = true ∧ s = planted .killed S q := by
  simp [cpuKernel, planted]

theorem cpu_getregs {x : Option UserRegs} :
    cpuKernel M pid init funs (.getregs pid) (planted .stopped S q) x s ↔
      x = some q.1 ∧ s = planted .stopped S q := by
  simp [cpuKernel, planted]

theorem cpu_setregs {regs : UserRegs} :
    cpuKernel M pid init funs (.setregs pid regs) (planted .stopped S q) x s ↔
      x = true ∧ s = planted .stopped S (regs, q.2) := by
  simp [cpuKernel, planted]

theorem cpu_singlestep (hM : Suitable M (r, m) S) (hstep : M.step r m = some q) :
    cpuKernel M pid init funs (.singlestep pid 0) (planted .stopped (S \ {r.rip}) (r, m)) x s ↔
      x = true ∧ s = planted .stepped (S \ {r.rip}) q := by
  rw [← stepOnce_planted hM hstep]
  simp [cpuKernel, planted]

theorem cpu_wait_stepped {x : Option WaitEvent} :
    cpuKernel M pid init funs .wait (planted .stepped S q) x s ↔
      x = some ⟨pid, .stopped .singleStep⟩ ∧ s = planted .stopped S q := by
  constructor
  · rintro ⟨e, rfl, h⟩
    cases h
    exact ⟨rfl, rfl⟩
  · rintro ⟨rfl, rfl⟩
    exact ⟨_, rfl, .stepped⟩

theorem cpu_wait_started {x : Option WaitEvent} :
    cpuKernel M pid init funs .wait ⟨.started, r, m⟩ x s ↔
      x = some ⟨pid, .stopped .exec⟩ ∧ s = ⟨.stopped, r, m⟩ := by
  constructor
  · rintro ⟨e, rfl, h⟩
    cases h
    exact ⟨rfl, rfl⟩
  · rintro ⟨rfl, rfl⟩
    exact ⟨_, rfl, .exec⟩

theorem cpu_fork {x : Pid} : cpuKernel M pid init funs .fork noDebuggee x s ↔
    x = pid ∧ s = ⟨.started, init.1, init.2⟩ := by
  simp [cpuKernel, noDebuggee]

theorem cpu_openFuns {x : Option FunArr} {s₀ : Debuggee} :
    cpuKernel M pid init funs (.openFuns pid) s₀ x s ↔ x = funs ∧ s = s₀ := by
  simp [cpuKernel]

theorem cpu_print {o : Out} {x : Unit} {s₀ : Debuggee} :
    cpuKernel M pid init funs (.print o) s₀ x s ↔ x = () ∧ s = s₀ := by
  simp [cpuKernel]

end

theorem cpu_stopped : (cpuMem M pid init funs).ok (planted .stopped S q) := rfl

/-! ## Over a breakpoint -/

section
variable {Q : Int → Debuggee → Prop} {a : Word}

/-- The true byte put back. -/
theorem wp_takeOut {bs : List Byte} (hbs : bs.take 1 = [m a]) :
    wp (cpuKernel M pid init funs) Free (writeProMem pid a bs 1) Q (planted .stopped S (r, m)) ↔
      Q 0 (planted .stopped (S \ {a}) (r, m)) := by
  have hlen : 1 ≤ bs.length := by
    cases bs with
    | nil => cases hbs
    | cons b bs => simp
  rw [wp_writeProMem (cpuMem M pid init funs) hlen (by decide) cpu_stopped, hbs]
  simp only [cpuMem, planted, overlay_restore]

/-- An INT3 put in, or back in. -/
theorem wp_putIn :
    wp (cpuKernel M pid init funs) Free (writeProMem pid a [INT_3] 1) Q (planted .stopped S q) ↔
      Q 0 (planted .stopped (insert a S) q) := by
  rw [wp_writeProMem (cpuMem M pid init funs) (by simp) (by decide) cpu_stopped]
  simp only [cpuMem, planted, List.take_succ_cons, List.take_zero, overlay_plant]

end

end

end TestDbug
