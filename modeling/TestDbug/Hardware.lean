/-
# `TestDbug.Hardware` — a debuggee with its debug registers

The kernel of `Transparency`, with the debug registers of `Watch` and what the
processor does with them: an instruction at an enabled address does not run,
the debuggee stops in front of it, and the instruction runs when the debuggee
goes on.

With INT3s at `S`, going on takes a suitable program to its next visit to `S`
or to an enabled address, whichever comes first, or to its end
(`hwWait_planted`).
-/
import TestDbug.Overlaid
import TestDbug.Watch

open ByteMemory Interaction

namespace TestDbug

/-! ## The kernel -/

/-- `passed` says that the debuggee stands where a debug register has stopped
it, so that the instruction there is the next to run. -/
structure HwDebuggee extends Debuggee where
  dr : DebugRegs
  passed : Bool

/-- The addresses at which the registers stop a debuggee. -/
def armedAt (dr : DebugRegs) : Set Word := { a | ∃ k, Enabled dr k a }

/-- The registers let the debuggee run its next instruction. -/
def HwDebuggee.Lets (s : HwDebuggee) : Prop := s.passed = true ∨ s.regs.rip ∉ armedAt s.dr

/-- What `wait` reports of a debuggee with debug registers. -/
inductive HwWait (M : Cpu) (pid : Pid) : HwDebuggee → WaitEvent → HwDebuggee → Prop
  | plain {s s' : Debuggee} {e : WaitEvent} {dr : DebugRegs} {passed : Bool} :
      s.phase ≠ .running → WaitStep M pid s e s' → HwWait M pid ⟨s, dr, passed⟩ e ⟨s', dr, passed⟩
  | debugReg {r r' : UserRegs} {m m' : Mem 64 Byte} {dr : DebugRegs} {passed : Bool} :
      M.GoPast INT_3 (armedAt dr) passed (r, m) false (r', m') → r'.rip ∈ armedAt dr →
      HwWait M pid ⟨⟨.running, r, m⟩, dr, passed⟩ ⟨pid, .stopped (.debugReg r'.rip)⟩
        ⟨⟨.stopped, r', m'⟩, dr, true⟩
  | int3 {r r' : UserRegs} {m m' : Mem 64 Byte} {dr : DebugRegs} {passed passed' : Bool} :
      M.GoPast INT_3 (armedAt dr) passed (r, m) passed' (r', m') →
      passed' = true ∨ r'.rip ∉ armedAt dr → m' r'.rip = INT_3 →
      HwWait M pid ⟨⟨.running, r, m⟩, dr, passed⟩ ⟨pid, .stopped (.int3 r'.rip)⟩
        ⟨⟨.stopped, r'.withRip (r'.rip + 1), m'⟩, dr, false⟩
  | exit {r r' : UserRegs} {m m' : Mem 64 Byte} {dr : DebugRegs} {passed passed' : Bool}
      (code : Byte) :
      M.GoPast INT_3 (armedAt dr) passed (r, m) passed' (r', m') →
      passed' = true ∨ r'.rip ∉ armedAt dr → m' r'.rip ≠ INT_3 → M.step r' m' = none →
      HwWait M pid ⟨⟨.running, r, m⟩, dr, passed⟩ ⟨pid, .exited code⟩ ⟨⟨.gone, r', m'⟩, dr, false⟩

/-- `ptrace` on a debuggee with debug registers.  A new process has none of
them set, and `PTRACE_SINGLESTEP` in front of an enabled address runs nothing. -/
def hwKernel (M : Cpu) (pid : Pid) (init : UserRegs × Mem 64 Byte) (funs : Option FunArr) :
    Kernel Resp HwDebuggee
  | .wait, s, x, s' => ∃ e, x = some e ∧ HwWait M pid s e s'
  | .pokeuser q num data, s, x, s' =>
      q = pid ∧ s.phase = .stopped ∧ x = true ∧ s' = { s with dr := Function.update s.dr num data }
  | .fork, s, x, s' =>
      cpuKernel M pid init funs .fork s.toDebuggee x s'.toDebuggee ∧ s'.dr = (fun _ => 0) ∧
        s'.passed = false
  | .singlestep q data, s, x, s' =>
      q = pid ∧ data = 0 ∧ s.phase = .stopped ∧ x = true ∧
        (s.Lets ∧ s' = ⟨stepOnce M s.toDebuggee, s.dr, false⟩ ∨
          ¬ s.Lets ∧ s' = ⟨{ s.toDebuggee with phase := .running }, s.dr, false⟩)
  | r, s, x, s' =>
      cpuKernel M pid init funs r s.toDebuggee x s'.toDebuggee ∧ s'.dr = s.dr ∧
        s'.passed = s.passed

/-- The requests the debug registers have nothing to do with. -/
def Plainly : Req → Prop
  | .wait | .pokeuser _ _ _ | .fork | .singlestep _ _ => False
  | _ => True

section
variable {M : Cpu} {pid : Pid} {init q q₁ : UserRegs × Mem 64 Byte} {funs : Option FunArr}
  {S : Set Word} {dr : DebugRegs} {passed : Bool} {r : UserRegs} {m : Mem 64 Byte}
  {w : HwDebuggee} {e : WaitEvent}

theorem embeds_hw : Embeds Plainly (cpuKernel M pid init funs) (hwKernel M pid init funs)
    (fun s => ⟨s, dr, passed⟩) := by
  intro req hreq s x w
  have hplain : hwKernel M pid init funs req ⟨s, dr, passed⟩ x w ↔
      cpuKernel M pid init funs req s x w.toDebuggee ∧ w.dr = dr ∧ w.passed = passed := by
    cases req with
    | wait | pokeuser | fork | singlestep => cases hreq
    | _ => exact Iff.rfl
  rw [hplain]
  constructor
  · rintro ⟨hK, rfl, rfl⟩
    exact ⟨w.toDebuggee, rfl, hK⟩
  · rintro ⟨s', rfl, hK⟩
    exact ⟨hK, rfl, rfl⟩

/-! ## Going on -/

/-- From where on a debuggee can be stopped, when it goes on. -/
def onward (M : Cpu) (passed : Bool) (q : UserRegs × Mem 64 Byte) :
    Option (UserRegs × Mem 64 Byte) :=
  if passed then M.step q.1 q.2 else some q

theorem onward_after (hon : onward M passed q = some q₁) : ∃ k, M.after k q = some q₁ := by
  cases passed with
  | false => exact ⟨0, hon⟩
  | true => exact ⟨1, by rw [Machine.after_succ, show M.step q.1 q.2 = some q₁ from hon]; rfl⟩

theorem Suitable.onward (hM : Suitable M q S) (hon : TestDbug.onward M passed q = some q₁) :
    Suitable M q₁ S := by
  obtain ⟨k, hk⟩ := onward_after hon
  exact hM.after hk

/-- The first stop of the program from `q` on, with INT3s at `S`. -/
inductive HwStop (M : Cpu) (pid : Pid) (S : Set Word) (dr : DebugRegs)
    (q : UserRegs × Mem 64 Byte) : WaitEvent → HwDebuggee → Prop
  | debugReg {r : UserRegs} {m : Mem 64 Byte} :
      M.Tour (S ∪ armedAt dr) q [] (r, m) → r.rip ∈ armedAt dr →
      HwStop M pid S dr q ⟨pid, .stopped (.debugReg r.rip)⟩ ⟨planted .stopped S (r, m), dr, true⟩
  | int3 {r : UserRegs} {m : Mem 64 Byte} :
      M.Tour (S ∪ armedAt dr) q [] (r, m) → r.rip ∉ armedAt dr → r.rip ∈ S →
      HwStop M pid S dr q ⟨pid, .stopped (.int3 r.rip)⟩
        ⟨planted .stopped S (r.withRip (r.rip + 1), m), dr, false⟩
  | exit {r : UserRegs} {m : Mem 64 Byte} (code : Byte) :
      M.Tour (S ∪ armedAt dr) q [] (r, m) → r.rip ∉ armedAt dr → M.step r m = none →
      HwStop M pid S dr q ⟨pid, .exited code⟩ ⟨planted .gone S (r, m), dr, false⟩

/-- The instruction in front of which the debuggee has been stopped. -/
theorem hwWait_passed (hown : m r.rip ≠ INT_3) (hstep : M.step r m = some q) :
    HwWait M pid ⟨⟨.running, r, m⟩, dr, true⟩ e w ↔
      HwWait M pid ⟨⟨.running, q.1, q.2⟩, dr, false⟩ e w := by
  have hpc : m (M.pc r) ≠ INT_3 := by
    rw [M.pc_eq]
    exact hown
  constructor
  · intro h
    cases h with
    | plain hphase _ => exact absurd rfl hphase
    | debugReg hgo hin =>
        obtain ⟨hfalse, -⟩ | ⟨-, s, hs, hgo⟩ := Machine.goPast_passed.mp hgo
        · cases hfalse
        · obtain rfl := Option.some.inj (hstep.symm.trans hs)
          exact .debugReg hgo hin
    | int3 hgo hlet htrap =>
        obtain ⟨-, heq⟩ | ⟨-, s, hs, hgo⟩ := Machine.goPast_passed.mp hgo
        · obtain ⟨rfl, rfl⟩ := Prod.mk.inj heq
          exact absurd htrap hown
        · obtain rfl := Option.some.inj (hstep.symm.trans hs)
          exact .int3 hgo hlet htrap
    | exit code hgo hlet hno hend =>
        obtain ⟨-, heq⟩ | ⟨-, s, hs, hgo⟩ := Machine.goPast_passed.mp hgo
        · obtain ⟨rfl, rfl⟩ := Prod.mk.inj heq
          cases hstep.symm.trans hend
        · obtain rfl := Option.some.inj (hstep.symm.trans hs)
          exact .exit code hgo hlet hno hend
  · intro h
    cases h with
    | plain hphase _ => exact absurd rfl hphase
    | debugReg hgo hin => exact .debugReg (.step (Or.inl rfl) hpc hstep hgo) hin
    | int3 hgo hlet htrap => exact .int3 (.step (Or.inl rfl) hpc hstep hgo) hlet htrap
    | exit code hgo hlet hno hend =>
        exact .exit code (.step (Or.inl rfl) hpc hstep hgo) hlet hno hend

/-- It may be the last. -/
theorem hwWait_last (hown : m r.rip ≠ INT_3) (hend : M.step r m = none) :
    HwWait M pid ⟨⟨.running, r, m⟩, dr, true⟩ e w ↔
      ∃ code, e = ⟨pid, .exited code⟩ ∧ w = ⟨⟨.gone, r, m⟩, dr, false⟩ := by
  have hstay : ∀ {p q}, M.GoPast INT_3 (armedAt dr) true (r, m) p q → p = true ∧ q = (r, m) := by
    intro p q hgo
    obtain h | ⟨-, s, hs, -⟩ := Machine.goPast_passed.mp hgo
    · exact h
    · cases hend.symm.trans hs
  constructor
  · intro h
    cases h with
    | plain hphase _ => exact absurd rfl hphase
    | debugReg hgo _ => cases (hstay hgo).1
    | int3 hgo _ htrap =>
        obtain ⟨rfl, rfl⟩ := Prod.mk.inj (hstay hgo).2
        exact absurd htrap hown
    | exit code hgo _ _ _ =>
        obtain ⟨rfl, rfl⟩ := Prod.mk.inj (hstay hgo).2
        exact ⟨code, rfl, rfl⟩
  · rintro ⟨code, rfl, rfl⟩
    exact .exit code (.refl true _) (Or.inl rfl) hown hend

/-- Where no debug register has stopped it, it goes on to its first stop. -/
theorem hwWait_fresh (hM : Suitable M q S) :
    HwWait M pid ⟨planted .running S q, dr, false⟩ e w ↔ HwStop M pid S dr q e w := by
  obtain ⟨r₀, m₀⟩ := q
  have hgo : ∀ {p r mp}, M.GoPast INT_3 (armedAt dr) false (r₀, overlay S INT_3 m₀) p (r, mp) ↔
      p = false ∧ ∃ m, M.Tour (S ∪ armedAt dr) (r₀, m₀) [] (r, m) ∧ mp = overlay S INT_3 m :=
    Machine.goPast_overlay subset_rfl hM.undisturbed hM.ownCode
  have htraps : ∀ {r m}, M.Tour (S ∪ armedAt dr) (r₀, m₀) [] (r, m) →
      (overlay S INT_3 m r.rip = INT_3 ↔ r.rip ∈ S) := by
    intro r m htour
    rw [← M.pc_eq]
    exact Machine.overlay_pc (hM.ownCode.tour htour).here
  have hends : ∀ {r m}, M.Tour (S ∪ armedAt dr) (r₀, m₀) [] (r, m) → r.rip ∉ S →
      (M.step r (overlay S INT_3 m) = none ↔ M.step r m = none) := by
    intro r m htour hout
    rw [← M.pc_eq] at hout
    exact Machine.step_overlay_none subset_rfl (hM.undisturbed.tour htour).here hout
  constructor
  · intro h
    cases h with
    | plain hphase _ => exact absurd rfl hphase
    | debugReg hrun hin =>
        obtain ⟨-, m, htour, rfl⟩ := hgo.mp hrun
        exact .debugReg htour hin
    | int3 hrun hlet htrap =>
        obtain ⟨rfl, m, htour, rfl⟩ := hgo.mp hrun
        exact .int3 htour (hlet.resolve_left Bool.false_ne_true) ((htraps htour).mp htrap)
    | exit code hrun hlet hno hend =>
        obtain ⟨rfl, m, htour, rfl⟩ := hgo.mp hrun
        rw [ne_eq, htraps htour] at hno
        rw [hends htour hno] at hend
        exact .exit code htour (hlet.resolve_left Bool.false_ne_true) hend
  · intro h
    cases h with
    | debugReg htour hin => exact .debugReg (hgo.mpr ⟨rfl, _, htour, rfl⟩) hin
    | int3 htour hout hin =>
        exact .int3 (hgo.mpr ⟨rfl, _, htour, rfl⟩) (Or.inr hout) ((htraps htour).mpr hin)
    | exit code htour hout hend =>
        have hno := fun hin => (hM.goesOn.tour htour).here hin hend
        refine .exit code (hgo.mpr ⟨rfl, _, htour, rfl⟩) (Or.inr hout) ?_
          ((hends htour hno).mpr hend)
        rw [ne_eq, htraps htour]
        exact hno

/-- `PTRACE_CONT` takes the program to its first stop. -/
theorem hwWait_planted (hM : Suitable M q S) (hpassed : passed = true → q.1.rip ∉ S) :
    HwWait M pid ⟨planted .running S q, dr, passed⟩ e w ↔
      (∃ q₁, onward M passed q = some q₁ ∧ HwStop M pid S dr q₁ e w) ∨
      (onward M passed q = none ∧ ∃ code, e = ⟨pid, .exited code⟩ ∧
        w = ⟨planted .gone S q, dr, false⟩) := by
  cases passed with
  | false =>
      rw [hwWait_fresh hM]
      simp [onward]
  | true =>
      obtain ⟨r, m⟩ := q
      have hpc : M.pc r ∉ S := by
        rw [M.pc_eq]
        exact hpassed rfl
      have hown : overlay S INT_3 m r.rip ≠ INT_3 := by
        rw [← M.pc_eq, ne_eq, Machine.overlay_pc hM.ownCode.here]
        exact hpc
      have hon : onward M true (r, m) = M.step r m := rfl
      rw [hon]
      cases hstep : M.step r m with
      | none =>
          have hend : M.step r (overlay S INT_3 m) = none :=
            (Machine.step_overlay_none subset_rfl hM.undisturbed.here hpc).mpr hstep
          rw [planted, hwWait_last hown hend]
          simp [planted]
      | some q₁ =>
          have hstep' : M.step r (overlay S INT_3 m) = some (q₁.1, overlay S INT_3 q₁.2) :=
            Machine.step_overlay subset_rfl hM.undisturbed.here hpc hstep
          have hfresh : HwWait M pid ⟨⟨.running, q₁.1, overlay S INT_3 q₁.2⟩, dr, false⟩ e w ↔
              HwStop M pid S dr q₁ e w := hwWait_fresh (hM.next hstep)
          rw [planted, hwWait_passed hown hstep', hfresh]
          simp

/-! ## The requests -/

section
variable {x : Bool}

theorem hw_cont : hwKernel M pid init funs (.cont pid 0) ⟨planted .stopped S q, dr, passed⟩ x w ↔
    x = true ∧ w = ⟨planted .running S q, dr, passed⟩ :=
  embeds_hw.sure (show Plainly (.cont pid 0) from trivial) fun _ _ => cpu_cont

theorem hw_getregs {x : Option UserRegs} :
    hwKernel M pid init funs (.getregs pid) ⟨planted .stopped S q, dr, passed⟩ x w ↔
      x = some q.1 ∧ w = ⟨planted .stopped S q, dr, passed⟩ :=
  embeds_hw.sure (show Plainly (.getregs pid) from trivial) fun _ _ => cpu_getregs

theorem hw_setregs {regs : UserRegs} :
    hwKernel M pid init funs (.setregs pid regs) ⟨planted .stopped S q, dr, passed⟩ x w ↔
      x = true ∧ w = ⟨planted .stopped S (regs, q.2), dr, passed⟩ :=
  embeds_hw.sure (show Plainly (.setregs pid regs) from trivial) fun _ _ => cpu_setregs

theorem hw_print {o : Out} {s : HwDebuggee} {x : Unit} :
    hwKernel M pid init funs (.print o) s x w ↔ x = () ∧ w = s := by
  obtain ⟨s, dr, passed⟩ := s
  exact embeds_hw.sure (show Plainly (.print o) from trivial) fun _ _ => cpu_print

theorem hw_pokeuser {num : Fin 8} {data : Word} :
    hwKernel M pid init funs (.pokeuser pid num data) ⟨planted .stopped S q, dr, passed⟩ x w ↔
      x = true ∧ w = ⟨planted .stopped S q, Function.update dr num data, passed⟩ := by
  simp [hwKernel, planted]

theorem hw_singlestep (hM : Suitable M (r, m) S) (hstep : M.step r m = some q)
    (hlet : r.rip ∉ armedAt dr) :
    hwKernel M pid init funs (.singlestep pid 0)
        ⟨planted .stopped (S \ {r.rip}) (r, m), dr, passed⟩ x w ↔
      x = true ∧ w = ⟨planted .stepped (S \ {r.rip}) q, dr, false⟩ := by
  have hlets : HwDebuggee.Lets ⟨planted .stopped (S \ {r.rip}) (r, m), dr, passed⟩ := Or.inr hlet
  rw [← stepOnce_planted hM hstep]
  simp only [hwKernel, hlets, not_true_eq_false, false_and, or_false, true_and]
  simp [planted]

theorem hw_wait_stepped {x : Option WaitEvent} :
    hwKernel M pid init funs .wait ⟨planted .stepped S q, dr, passed⟩ x w ↔
      x = some ⟨pid, .stopped .singleStep⟩ ∧ w = ⟨planted .stopped S q, dr, passed⟩ := by
  constructor
  · rintro ⟨e, rfl, h⟩
    cases h with
    | plain _ h =>
        cases h
        exact ⟨rfl, rfl⟩
  · rintro ⟨rfl, rfl⟩
    exact ⟨_, rfl, .plain (by simp [planted]) .stepped⟩

end

end

/-! ## What the debugger arms -/

section
variable {dr : DebugRegs} {a : Word}

/-- With the word of `insert_hard_break` in DR7, DR0 alone is armed. -/
theorem armedAt_dr0 (h0 : dr 0 = a) (h7 : dr 7 = dr7Word) : armedAt dr = {a} := by
  ext b
  constructor
  · rintro ⟨k, hreg, hbits⟩
    rw [h7] at hbits
    rw [dr7Word_bits k hbits] at hreg
    exact hreg.symm.trans h0
  · rintro rfl
    refine ⟨0, h0, Or.inl ?_⟩
    rw [h7]
    rfl

/-- A new process can run everywhere. -/
theorem armedAt_zero : armedAt (fun _ => 0) = ∅ := by
  ext b
  simp [armedAt, Enabled]

/-- The debug registers as `insert_hard_break` leaves them. -/
def DebugRegs.watching (dr : DebugRegs) (a : Word) : DebugRegs :=
  Function.update (Function.update dr 0 a) 7 dr7Word

theorem armedAt_watching : armedAt (dr.watching a) = {a} := armedAt_dr0 rfl rfl

end

end TestDbug
