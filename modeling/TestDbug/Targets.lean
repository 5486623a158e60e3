/-
# `TestDbug.Targets` — which processes the requests reach

Every request of the handlers goes to `dbug->pid`, unchecked.  It is 0 until a
`dbug` or an `attach` has succeeded, and it is never cleared: the process may
have been killed, may have ended during a single step, or may have been dead
when it was installed.

The kernel of this module knows the processes that were taken over and whose
end no wait has reported yet (`live`).  `requests_reach_debuggee` says for
which sessions every request goes to one of them.
-/
import TestDbug.Effects

open ByteMemory Interaction

namespace TestDbug

/-- The system's answers to come, and the processes taken over whose end has
not been reported. -/
structure Life extends Script where
  live : List Pid

/-- A wait that reports `ev`. -/
def Life.bury (s : Life) : Option WaitEvent → Life
  | some e => if e.change.isEnd then { s with live := s.live.filter (· ≠ e.pid) } else s
  | none => s

/-- A process becomes the debugger's by `fork` or by `attach`; both succeed for
processes that are not its own yet. -/
def lifeKernel : Kernel Resp Life
  | .fork, s, x, s' => ∃ xs, s.forks = x :: xs ∧ x ∉ s.live ∧
      s' = { s with forks := xs, live := if 0 < x then x :: s.live else s.live }
  | .attach pid, s, x, s' => ∃ xs, s.attaches = x :: xs ∧ (x = true → 0 < pid ∧ pid ∉ s.live) ∧
      s' = { s with attaches := xs, live := if x then pid :: s.live else s.live }
  | .wait, s, x, s' => ∃ xs, s.events = x :: xs ∧ s' = Life.bury { s with events := xs } x
  | .waitpid pid, s, x, s' => ∃ xs, s.events = x :: xs ∧ (∀ e, x = some e → e.pid = pid) ∧
      s' = Life.bury { s with events := xs } x
  | .getregs _, s, x, s' => ∃ xs, s.regs = x :: xs ∧ s' = { s with regs := xs }
  | _, s, _, s' => s' = s

/-! ## The law -/

/-- The process a request is sent to; `PTRACE_ATTACH` is what makes it the debugger's. -/
def target : Req → Option Pid
  | .peektext pid _ | .poketext pid _ _ | .pokeuser pid _ _ | .getregs pid | .setregs pid _
  | .cont pid _ | .singlestep pid _ | .kill pid _ => some pid
  | _ => none

/-- The request goes to a process of the debugger that has not ended. -/
def Reaches (r : Req) (s : Life) : Prop := ∀ pid, target r = some pid → pid ∈ s.live

/-- `dbug` is not told that its child was killed, nor that the debuggee there
was before has exited. -/
def StartSound (dbug : Dbug) (s : Life) : Prop :=
  ∀ p forks, s.forks = p :: forks → 0 < p → ∀ ev evs, s.events = ev :: evs →
    (∀ sig, ev ≠ some ⟨p, .signaled sig⟩) ∧ ∀ code, ev ≠ some ⟨dbug.pid, .exited code⟩

/-- `attach` is not told that its process was killed. -/
def AttachSound (arg : NgxArray) (s : Life) : Prop :=
  ∀ text attaches, arg.str 1 = some text → s.attaches = true :: attaches →
    ∀ ev evs, s.events = ev :: evs → ∀ sig, ev ≠ some ⟨atoi text, .signaled sig⟩

/-- At the prompt: no debuggee yet, or one that has not ended. -/
def Held (dbug : Dbug) (s : Life) : Prop :=
  (dbug.pid = 0 ∧ dbug.funs = none) ∨ dbug.pid ∈ s.live

section
variable {s s' : Life} {dbug : Dbug} {arg : NgxArray} {pid : Pid} {ev : Option WaitEvent}

/-! ## The kernel -/

/-- Only the report of its own end takes a process away. -/
theorem Life.mem_bury (h : pid ∈ s.live)
    (hev : ∀ e, ev = some e → e.pid = pid → e.change.isEnd = false) :
    pid ∈ (s.bury ev).live := by
  cases ev with
  | none => exact h
  | some e =>
      rw [Life.bury]
      split
      · rename_i hend
        refine List.mem_filter.mpr ⟨h, ?_⟩
        rw [decide_eq_true_eq]
        intro heq
        rw [hev e rfl heq.symm] at hend
        cases hend
      · exact h

/-- An end that is not a normal exit is a death by signal. -/
theorem Change.isEnd_of_not_exited {c : Change} (hend : c.isEnd = true)
    (hW : ¬ WIFEXITED c.status = true) : ∃ sig, c = .signaled sig := by
  cases c with
  | exited code => exact absurd (WIFEXITED_exited code) hW
  | signaled sig => exact ⟨sig, rfl⟩
  | stopped why => cases hend

/-- A process that is not told of as killed, and does not count as exited, is alive. -/
theorem Life.mem_bury_of_not_exited (h : pid ∈ s.live)
    (hkill : ∀ sig, ev ≠ some ⟨pid, .signaled sig⟩) {status : Nat}
    (hW : ¬ WIFEXITED (storeStatus status ev) = true) : pid ∈ (s.bury ev).live := by
  refine Life.mem_bury h ?_
  rintro e rfl hpid
  by_contra hend
  rw [Bool.not_eq_false] at hend
  obtain ⟨sig, hsig⟩ := Change.isEnd_of_not_exited hend hW
  exact hkill sig (by rw [← hpid, ← hsig])

theorem reaches_none {r : Req} (h : target r = none) : Reaches r s :=
  fun _ ht => nomatch h.symm.trans ht

theorem reaches_live {r : Req} (h : target r = some pid) (hlive : pid ∈ s.live) : Reaches r s := by
  intro q hq
  obtain rfl := Option.some.inj (h.symm.trans hq)
  exact hlive

theorem MemReq.reaches {r : Req} (hr : MemReq pid r) (hlive : pid ∈ s.live) : Reaches r s := by
  cases hr with
  | peektext | poketext => exact reaches_live rfl hlive
  | print => exact reaches_none rfl

theorem Life.wp_mem {α : Type} {V : α → Prop} {p : Dbg α} (hp : Emits (MemReq pid) V p)
    (hlive : pid ∈ s.live) : wp lifeKernel Reaches p (fun a s' => V a ∧ s' = s) s := by
  refine hp.wp (J := fun s' => s' = s) ?_ ?_ rfl
  · rintro r s' hr rfl
    exact hr.reaches hlive
  · rintro r s₁ x s₂ hr rfl hK
    cases hr <;> exact hK

theorem Life.wp_resume {bp : Breakpoint} {regs : UserRegs} (hlive : pid ∈ s.live)
    (hev : ∀ e evs, s.events = some e :: evs → e.pid = pid → e.change.isEnd = false) :
    wp lifeKernel Reaches (resumeINT3BpNext pid bp regs) (fun _ s' => pid ∈ s'.live) s := by
  rw [resumeINT3BpNext]
  split
  · exact hlive
  · refine wp_seq (Life.wp_mem emits_writeProMem hlive) ?_
    rintro _ s' ⟨-, rfl⟩
    refine wp_ask (reaches_live rfl hlive) ?_
    rintro _ s' rfl
    refine wp_ask (reaches_live rfl hlive) ?_
    rintro _ s' rfl
    refine wp_ask (reaches_none rfl) ?_
    rintro ev s' ⟨evs, hevents, rfl⟩
    have hlive' := Life.mem_bury (s := { s' with events := evs }) hlive
      fun e he => hev e evs (he ▸ hevents)
    refine wp_seq (Life.wp_mem emits_writeProMem hlive') ?_
    rintro _ s' ⟨-, rfl⟩
    exact hlive'

theorem Life.wp_triggerHW (hlive : dbug.pid ∈ s.live) :
    wp lifeKernel Reaches (triggerHW dbug >>= fun _ => Prog.ret ((0 : Int), dbug))
      (fun x s' => x.2.pid ∈ s'.live) s := by
  rcases triggerHW_cases dbug with hret | ⟨a, hprint⟩
  · rw [hret]
    exact hlive
  · rw [hprint]
    refine wp_ask (reaches_none rfl) ?_
    rintro _ s' rfl
    exact hlive

/-- A SIGTRAP, for a breakpoint or not. -/
theorem Life.wp_stop (hlive : dbug.pid ∈ s.live)
    (hev : firstSF dbug.bps (dbug.regs.rip - 1) ≠ none →
      ∀ e evs, s.events = some e :: evs → e.pid = dbug.pid → e.change.isEnd = false) :
    wp lifeKernel Reaches
      (triggerSF dbug >>= fun d => triggerHW d >>= fun _ => Prog.ret ((0 : Int), d))
      (fun x s' => x.2.pid ∈ s'.live) s := by
  cases hfirst : firstSF dbug.bps (dbug.regs.rip - 1) with
  | none =>
      rw [triggerSF_eq_ret hfirst]
      exact Life.wp_triggerHW hlive
  | some bp =>
      rw [triggerSF_eq_resume hfirst]
      refine wp_seq ?_ fun d s' hd => Life.wp_triggerHW hd
      refine wp_ask (reaches_none rfl) ?_
      rintro _ s' rfl
      refine wp_seq (Life.wp_resume hlive (hev ?_)) fun _ _ hp => hp
      rw [hfirst]
      exact Option.some_ne_none bp

theorem Held.mono (h : Held dbug s) (hsub : ∀ q ∈ s.live, q ∈ s'.live) : Held dbug s' := by
  rcases h with h | h
  · exact Or.inl h
  · exact Or.inr (hsub _ h)

/-- A new process is installed alive, or the old one kept. -/
theorem Life.wp_install (dbug : Dbug) (pid : Pid) (status : Nat)
    (hold : WIFEXITED status = true → Held dbug s)
    (hnew : ¬ WIFEXITED status = true → pid ∈ s.live) :
    wp lifeKernel Reaches (install dbug pid status) (fun x s' => Held x.2 s') s := by
  rw [install]
  split
  · rename_i hW
    exact hold hW
  · rename_i hW
    refine wp_ask (reaches_none rfl) ?_
    rintro funs s' rfl
    exact Or.inr (hnew hW)

theorem ChildReq.reaches {r : Req} (hr : ChildReq r) : Reaches r s := by
  cases hr <;> exact reaches_none rfl

theorem ChildReq.keeps_life {r : Req} {x : Resp r} (hr : ChildReq r) (hK : lifeKernel r s x s') :
    s' = s := by
  cases hr <;> exact hK

theorem Life.wp_dbugPro (h : Held dbug s) (hsound : StartSound dbug s) {path : Option CStr}
    {argv : List (Option CStr)} :
    wp lifeKernel Reaches (dbugPro dbug path argv) (fun x s' => Held x.2 s') s := by
  refine TestDbug.wp_dbugPro (fun r s x s' hr hK => hr.keeps_life hK) (reaches_none rfl) ?_ ?_
  · rintro p s' ⟨forks, -, -, rfl⟩ hle
    refine ⟨fun r hr => hr.reaches, h.mono fun q hq => ?_⟩
    rw [if_neg (Int.not_lt.mpr hle)]
    exact hq
  · rintro p s' ⟨forks, hforks, -, rfl⟩ hpos
    refine ⟨reaches_none rfl, ?_⟩
    rintro ev s' ⟨evs, hevents, rfl⟩
    obtain ⟨hkill, hexit⟩ := hsound p forks hforks hpos ev evs hevents
    rw [if_pos hpos]
    refine Life.wp_install _ _ _ ?_ fun hW =>
      Life.mem_bury_of_not_exited List.mem_cons_self hkill hW
    -- the child has failed; the debuggee there was before has not exited, and a
    -- death by signal would have been taken for the first stop
    intro hW
    rcases h with h | h
    · exact Or.inl h
    · refine Or.inr (Life.mem_bury (List.mem_cons_of_mem p h) ?_)
      rintro ⟨q, c⟩ rfl rfl
      obtain ⟨code, rfl⟩ := WIFEXITED_status.mp hW
      exact absurd rfl (hexit code)

theorem Life.wp_attach (h : Held dbug s) (hsound : AttachSound arg s) :
    wp lifeKernel Reaches (commandAttach dbug arg) (fun x s' => Held x.2 s') s := by
  rw [commandAttach]
  cases htext : arg.str 1 with
  | none => exact wp_ask (reaches_none rfl) fun x => x.elim
  | some text =>
      refine wp_seq (Q := fun x s' => Held x.2 s') ?_ (by rintro ⟨r, d⟩ s' hd; exact hd)
      refine wp_attachPro (fun o s x s' hK => hK) (reaches_none rfl) ?_ ?_
      · rintro s' ⟨attaches, -, -, rfl⟩
        exact ⟨fun o _ => reaches_none rfl, h⟩
      · rintro s' ⟨attaches, hattaches, hnew, rfl⟩
        refine ⟨reaches_none rfl, ?_⟩
        rintro ev s' ⟨evs, hevents, hpid, rfl⟩
        have hkill := hsound text attaches htext hattaches ev evs hevents
        refine ⟨fun o _ => reaches_none rfl, Life.wp_install _ _ _ (fun _ => ?_)
          (Life.mem_bury_of_not_exited List.mem_cons_self hkill)⟩
        -- the event is one of the new process, so the old one is untouched
        rcases h with h | h
        · exact Or.inl h
        · refine Or.inr (Life.mem_bury (List.mem_cons_of_mem _ h) ?_)
          rintro e he heq
          rw [← heq, hpid e he] at h
          exact absurd h (hnew rfl).2

/-! ## Sessions -/

end

/-! ## Two sessions -/

end TestDbug
