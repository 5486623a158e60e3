/-
# `TestDbug.Watch` — which watched addresses are armed

`insert_hard_break` writes the address to DR0 and the word with `L0` and `G0`
to DR7, whatever the table already holds.  The kernel of this module is the
debug registers of the debuggee: `PTRACE_POKEUSER` succeeds, and nothing else
touches them.  So it is assumed of the debuggee that it keeps them while it
runs: a wait may report anything, but leaves the registers alone, although DR6
would show a hit and an `execve` would clear them all.

Every entry of a table is `Armed` when it sits in an enabled register of its
own.  After a session of `watch`, `b` and `c` that is so exactly when all its
`watch` commands named the same address (`armed_iff_one_address`): the table
goes on listing an address whose register has been overwritten.
-/
import TestDbug.Effects

open ByteMemory Interaction

namespace TestDbug

/-- DR0 to DR7. -/
abbrev DebugRegs := Fin 8 → Word

/-- The debug registers of `pid`. -/
def drKernel (pid : Pid) : Kernel Resp DebugRegs
  | .pokeuser q num data, s, x, s' => q = pid ∧ x = true ∧ s' = Function.update s num data
  | _, s, _, s' => s' = s

/-! ## The law -/

/-- `DR_k` holds `a`, and `L_k` or `G_k` is set. -/
def Enabled (s : DebugRegs) (k : Fin 4) (a : Word) : Prop :=
  s (k.castAdd 4) = a ∧ ((s 7).getLsbD (2 * k) ∨ (s 7).getLsbD (2 * k + 1))

/-- The addresses of the hardware breakpoints, in the order of the table. -/
def hwAddrs (bps : List Breakpoint) : List Word :=
  (bps.filter (fun bp => bp.type = .HWBP)).map Breakpoint.addr

/-- Every hardware breakpoint is in an enabled register, and different
addresses are in different ones. -/
def Armed (bps : List Breakpoint) (s : DebugRegs) : Prop :=
  ∃ slot : Word → Fin 4, (∀ a ∈ hwAddrs bps, Enabled s (slot a) a) ∧
    ∀ a ∈ hwAddrs bps, ∀ b ∈ hwAddrs bps, a ≠ b → slot a ≠ slot b

/-- The address a command asks to watch. -/
def watchedAddr (arg : NgxArray) : Option Word :=
  if arg.str 0 = some nameWatch then (arg.str 1).map (fun s => (sscanfLx s).getD 0) else none

/-- At the prompt: the table lists the addresses `ws` asked for so far, and
the debug registers are as the last of them left them. -/
structure Watching (pid : Pid) (ws : List Word) (dbug : Dbug) (s : DebugRegs) : Prop where
  pid_eq : dbug.pid = pid
  listed : hwAddrs dbug.bps = ws
  last : ∀ a, ws.getLast? = some a → s 0 = a ∧ s 7 = dr7Word

section
variable {pid : Pid} {bps : List Breakpoint} {s : DebugRegs} {dbug : Dbug} {ws : List Word}

/-- `L0` and `G0` enable DR0 alone. -/
theorem dr7Word_bits (k : Fin 4) (h : dr7Word.getLsbD (2 * k) ∨ dr7Word.getLsbD (2 * k + 1)) :
    k = 0 := by
  revert k
  decide

/-- Under the word that `insert_hard_break` writes, only DR0 can arm an address. -/
theorem armed_iff_dr0 (h7 : s 7 = dr7Word) : Armed bps s ↔ ∀ a ∈ hwAddrs bps, s 0 = a := by
  constructor
  · rintro ⟨slot, hslot, -⟩ a ha
    obtain ⟨hreg, hbits⟩ := hslot a ha
    rw [h7] at hbits
    rw [dr7Word_bits _ hbits] at hreg
    exact hreg
  · intro h
    have hbit : dr7Word.getLsbD (2 * (0 : Fin 4)) = true := rfl
    refine ⟨fun _ => 0, fun a ha => ⟨h a ha, ?_⟩, ?_⟩
    · rw [h7]
      exact Or.inl hbit
    · intro a ha b hb hab
      exact absurd ((h a ha).symm.trans (h b hb)) hab

theorem armed_of_nil (h : hwAddrs bps = []) : Armed bps s := by
  refine ⟨fun _ => 0, ?_, ?_⟩
  · intro a ha
    rw [h] at ha
    cases ha
  · intro a ha
    rw [h] at ha
    cases ha

theorem Watching.armed_iff (h : Watching pid ws dbug s) :
    Armed dbug.bps s ↔ ∀ a ∈ ws, ∀ b ∈ ws, a = b := by
  cases hlast : ws.getLast? with
  | none =>
      obtain rfl := List.getLast?_eq_none_iff.mp hlast
      constructor
      · intro _ a ha
        cases ha
      · intro _
        exact armed_of_nil h.listed
  | some a₀ =>
      obtain ⟨h0, h7⟩ := h.last a₀ hlast
      rw [armed_iff_dr0 h7, h.listed, h0]
      constructor
      · intro hall a ha b hb
        exact (hall a ha).symm.trans (hall b hb)
      · intro hall a ha
        exact hall a₀ (List.mem_of_getLast? hlast) a ha

/-! ## The commands -/

@[simp] theorem hwAddrs_append (bps bps' : List Breakpoint) :
    hwAddrs (bps ++ bps') = hwAddrs bps ++ hwAddrs bps' := by
  simp [hwAddrs]

theorem hwAddrs_hard {bp : Breakpoint} (h : bp.type = .HWBP) : hwAddrs [bp] = [bp.addr] := by
  simp [hwAddrs, h]

theorem hwAddrs_soft {bp : Breakpoint} (h : bp.type = .SFBP) : hwAddrs [bp] = [] := by
  simp [hwAddrs, h]

theorem wp_insertHardBreak {bp : Breakpoint} {Q : Int × Breakpoint → DebugRegs → Prop}
    (hQ : Q (0, { bp with type := .HWBP })
      (Function.update (Function.update s 0 bp.addr) 7 dr7Word)) :
    wp (drKernel pid) Free (insertHardBreak pid bp) Q s := by
  rw [insertHardBreak]
  refine wp_ask trivial ?_
  rintro x s' ⟨-, rfl, rfl⟩
  refine wp_ask trivial ?_
  rintro x s' ⟨-, rfl, rfl⟩
  exact hQ

theorem watching_watch (h : Watching pid ws dbug s) {arg : NgxArray}
    (hname : arg.str 0 = some nameWatch) :
    wp (drKernel pid) Free (play arg dbug)
      (fun dbug' s' => Watching pid (ws ++ (watchedAddr arg).toList) dbug' s') s := by
  rw [play_watch hname, wp_bind, commandWatch, watchedAddr, if_pos hname]
  cases hstr : arg.str 1 with
  | none => exact wp_ask trivial fun x => x.elim
  | some text =>
      refine wp_ask trivial ?_
      rintro x s' rfl
      rw [wp_bind]
      dsimp only
      rw [h.pid_eq]
      refine wp_insertHardBreak ⟨rfl, ?_, ?_⟩
      · rw [hwAddrs_append, h.listed, hwAddrs_hard rfl]
        rfl
      · intro a ha
        obtain rfl : (sscanfLx text).getD 0 = a := by simpa using ha
        exact ⟨rfl, rfl⟩

/-- Nothing but a `watch` reaches the debug registers. -/
theorem watching_keeps {α : Type} {P : Req → Prop} {V : α → Prop} {p : Dbg α}
    (hp : Emits P V p) (hP : ∀ q num data, ¬ P (.pokeuser q num data)) :
    wp (drKernel pid) Free p (fun a s' => V a ∧ s' = s) s := by
  refine hp.wp (J := fun s' => s' = s) (fun _ _ _ _ => trivial) ?_ rfl
  rintro r s₁ x s₂ hr rfl hK
  cases r with
  | pokeuser q num data => exact absurd hr (hP q num data)
  | _ => exact hK

theorem watching_break (h : Watching pid ws dbug s) {arg : NgxArray}
    (hname : arg.str 0 = some nameB) :
    wp (drKernel pid) Free (play arg dbug) (fun dbug' s' => Watching pid ws dbug' s') s := by
  rw [play_break hname]
  refine wp_seq (watching_keeps emits_break fun _ _ _ hr => by cases hr) ?_
  rintro ⟨r, d⟩ s' ⟨hd, rfl⟩
  rcases hd with rfl | ⟨bp, hbp, rfl⟩
  · exact ⟨h.pid_eq, h.listed, h.last⟩
  · refine ⟨h.pid_eq, ?_, h.last⟩
    rw [hwAddrs_append, hwAddrs_soft hbp, List.append_nil]
    exact h.listed

theorem watching_continue (h : Watching pid ws dbug s) {arg : NgxArray}
    (hname : arg.str 0 = some nameC) :
    wp (drKernel pid) Free (play arg dbug) (fun dbug' s' => Watching pid ws dbug' s') s := by
  rw [play_continue hname]
  refine wp_seq (watching_keeps emits_continue ?_) ?_
  · intro q num data hr
    cases hr with
    | mem hm => cases hm
  · rintro ⟨r, d⟩ s' ⟨⟨status, regs, rfl⟩, rfl⟩
    exact ⟨h.pid_eq, h.listed, h.last⟩

/-- **Which watches survive.**  From a prompt without hardware breakpoints,
after any `watch`, `b` and `c` commands, every watched address is armed if and
only if it is always the same one. -/
theorem armed_iff_one_address {dbug₀ : Dbug} {s₀ : DebugRegs} (hfresh : hwAddrs dbug₀.bps = [])
    {args : List NgxArray} (hargs : ∀ arg ∈ args, Named [nameWatch, nameB, nameC] arg)
    (hrun : Runs (drKernel dbug₀.pid) play Always dbug₀ s₀ args dbug s) :
    Armed dbug.bps s ↔
      ∀ a ∈ args.filterMap watchedAddr, ∀ b ∈ args.filterMap watchedAddr, a = b := by
  have h₀ : Watching dbug₀.pid (([] : List NgxArray).filterMap watchedAddr) dbug₀ s₀ :=
    ⟨rfl, hfresh, fun a ha => by cases ha⟩
  refine ((hrun.guarded hargs).history
    (fun js d s => Watching dbug₀.pid (js.filterMap watchedAddr) d s) []
    (I := fun _ => Free) ?_ h₀).armed_iff
  rintro js arg d s ⟨⟨n, hn, hname⟩, -⟩ h
  rw [List.filterMap_append]
  simp only [List.mem_cons, List.not_mem_nil, or_false] at hn
  rcases hn with rfl | rfl | rfl
  · have hone : [arg].filterMap watchedAddr = (watchedAddr arg).toList := by
      cases ha : watchedAddr arg <;> simp [ha]
    rw [hone]
    exact watching_watch h hname
  · have hnone : watchedAddr arg = none := by
      rw [watchedAddr, hname]
      rfl
    simp only [List.filterMap_cons, hnone, List.filterMap_nil, List.append_nil]
    exact watching_break h hname
  · have hnone : watchedAddr arg = none := by
      rw [watchedAddr, hname]
      rfl
    simp only [List.filterMap_cons, hnone, List.filterMap_nil, List.append_nil]
    exact watching_continue h hname

end

/-! ## Two watches -/

/-- A debuggee 7 that starts, and whose debug registers can be written. -/
def drHandler : Handler Resp DebugRegs
  | .pokeuser q num data, s => if q = 7 then some (true, Function.update s num data) else none
  | .fork, s => some (7, s)
  | .wait, s => some (some ⟨7, .stopped .exec⟩, s)
  | .openFuns _, s => some (none, s)
  | .print _, s => some ((), s)
  | _, _ => none

theorem drHandler_kernel (r : Req) (s : DebugRegs) (x : Resp r) (s' : DebugRegs)
    (h : drHandler r s = some (x, s')) : drKernel 7 r s x s' := by
  cases r with
  | pokeuser q num data =>
      simp only [drHandler, Option.ite_none_right_eq_some, Option.some.injEq, Prod.mk.injEq] at h
      exact ⟨h.1, h.2.1.symm, h.2.2.symm⟩
  | _ =>
      simp only [drHandler, Option.some.injEq, Prod.mk.injEq, reduceCtorEq] at h
      try exact h.2.symm

/-- The debugger of the process 7. -/
def onSeven : Dbug := { initDbug with pid := 7 }

/-- One address, written in two ways. -/
def oneAddress : List NgxArray :=
  [typed ['w', 'a', 't', 'c', 'h', ' ', '1', '0', '\n'],
   typed ['w', 'a', 't', 'c', 'h', ' ', '0', 'x', '1', '0', '\n']]

theorem armed_iff_one_address_twice :
    ∃ (dbug : Dbug) (s : DebugRegs), hwAddrs dbug.bps = [0x10, 0x10] ∧ Armed dbug.bps s := by
  have heval : (eval drHandler (runAll play oneAddress onSeven) (fun _ => 0)).map
      (fun q => hwAddrs q.1.bps) = some [0x10, 0x10] := by
    decide +kernel
  have hargs : ∀ arg ∈ oneAddress, Named [nameWatch, nameB, nameC] arg := by
    simp only [oneAddress, List.forall_mem_cons, List.not_mem_nil, false_implies, implies_true,
      and_true]
    exact ⟨⟨nameWatch, by decide, by decide⟩, ⟨nameWatch, by decide, by decide⟩⟩
  have haddrs : oneAddress.filterMap watchedAddr = [0x10, 0x10] := by
    decide +kernel
  obtain ⟨⟨dbug, s⟩, hrun, hq⟩ := Option.map_eq_some_iff.mp heval
  have hruns : Runs (drKernel onSeven.pid) play Always onSeven (fun _ => 0) oneAddress dbug s :=
    runs_iff_ends.mpr (eval_ends drHandler_kernel hrun)
  have hfresh : hwAddrs onSeven.bps = [] := rfl
  have hiff := armed_iff_one_address hfresh hargs hruns
  rw [haddrs] at hiff
  exact ⟨dbug, s, hq, hiff.mpr (by simp)⟩

/-- Two addresses, one debuggee. -/
def twoAddresses : List NgxArray :=
  [typed ['d', 'b', 'u', 'g', ' ', 'p', '\n'],
   typed ['w', 'a', 't', 'c', 'h', ' ', '1', '0', '\n'],
   typed ['w', 'a', 't', 'c', 'h', ' ', '2', '0', '\n']]

/-- The second watch takes the register of the first. -/
theorem second_watch_disarms_first :
    ∃ (dbug : Dbug) (s : DebugRegs),
      Runs (drKernel 7) play Always initDbug (fun _ => 0) twoAddresses dbug s ∧
        hwAddrs dbug.bps = [0x10, 0x20] ∧ ¬ Armed dbug.bps s := by
  have heval : (eval drHandler (runAll play twoAddresses initDbug)
      (fun _ => 0)).map (fun q => (hwAddrs q.1.bps, q.2 0, q.2 7))
        = some ([0x10, 0x20], 0x20, dr7Word) := by
    decide +kernel
  obtain ⟨⟨dbug, s⟩, hrun, hq⟩ := Option.map_eq_some_iff.mp heval
  obtain ⟨hlisted, hdr⟩ := Prod.mk.inj hq
  obtain ⟨h0, h7⟩ := Prod.mk.inj hdr
  refine ⟨dbug, s, runs_iff_ends.mpr (eval_ends drHandler_kernel hrun), hlisted, ?_⟩
  intro harmed
  have hfirst := (armed_iff_dr0 h7).mp harmed 0x10 (by rw [hlisted]; exact List.mem_cons_self)
  rw [h0] at hfirst
  exact absurd hfirst (by decide)

end TestDbug
