/-
# `TestDbug.Images` — whose breakpoints the table holds

`dbug` and `attach` install another process, and leave `dbug->bps` as it is.
The kernel of this module has the memory of every process, as it is (`mem`) and
as the program itself made it (`own`).  All requests succeed.  A program may
change the bytes at the addresses `W` of its own while it runs, by stores or by
mapping, and an `execve` gives its process another memory altogether.

`table_belongs_to_debuggee` is the law that every software breakpoint of the
table stands in the memory of `dbug->pid`, with the saved byte of the first
entry at its address being the program's.  It holds of the sessions that
install a process, or see the debuggee's `execve`, only while the table has no
software breakpoint, and break only at addresses the program does not change.
-/
import TestDbug.Effects

open ByteMemory Interaction

namespace TestDbug

/-- The memory of all processes, and the system's answers to come. -/
structure Images extends Script where
  mem : Pid → Mem 64 Byte
  /-- What the program of the process put there. -/
  own : Pid → Mem 64 Byte

/-- A process the debugger has not touched. -/
def Images.load (s : Images) (pid : Pid) (m : Mem 64 Byte) : Images :=
  { s with mem := Function.update s.mem pid m, own := Function.update s.own pid m }

/-- Every program has run, and changed bytes at its addresses `W`. -/
structure Images.Ran (W : Pid → Set Word) (s s' : Images) : Prop where
  script : s'.toScript = s.toScript
  wrote : ∀ q a, (s'.mem q a = s.mem q a ∧ s'.own q a = s.own q a) ∨
    (a ∈ W q ∧ s'.mem q a = s'.own q a)

/-- A wait that reports `ev`: the programs have run, and an `execve` has loaded
another one. -/
inductive Images.Reports (W : Pid → Set Word) (s : Images) : Option WaitEvent → Images → Prop
  | exec {s₁ : Images} {q : Pid} (m : Mem 64 Byte) :
      s.Ran W s₁ → Reports W s (some ⟨q, .stopped .exec⟩) (s₁.load q m)
  | plain {s₁ : Images} {ev : Option WaitEvent} :
      (∀ q, ev ≠ some ⟨q, .stopped .exec⟩) → s.Ran W s₁ → Reports W s ev s₁

/-- `ptrace` on these memories. -/
def imageKernel (W : Pid → Set Word) : Kernel Resp Images
  | .peektext pid a, s, x, s' => x = some (peek (s.mem pid) a) ∧ s' = s
  | .poketext pid a w, s, x, s' =>
      x = true ∧ s' = { s with mem := Function.update s.mem pid (poke (s.mem pid) a w) }
  | .fork, s, x, s' => ∃ xs, s.forks = x :: xs ∧
      ((x ≤ 0 ∧ s' = { s with forks := xs }) ∨ (0 < x ∧ ∃ m, s' = Images.load { s with forks := xs } x m))
  | .attach pid, s, x, s' => ∃ xs, s.attaches = x :: xs ∧
      ((x = false ∧ s' = { s with attaches := xs }) ∨
        (x = true ∧ ∃ m, s' = Images.load { s with attaches := xs } pid m))
  | .wait, s, x, s' => ∃ xs, s.events = x :: xs ∧ Images.Reports W { s with events := xs } x s'
  | .waitpid _, s, x, s' => ∃ xs, s.events = x :: xs ∧ Images.Reports W { s with events := xs } x s'
  | .getregs _, s, x, s' => ∃ xs, s.regs = x :: xs ∧ s' = { s with regs := xs }
  | _, s, _, s' => s' = s

/-! ## The law -/

/-- Every software breakpoint is an INT3 in the debuggee, and the entry that
`find_current_SF_bp` finds for it has saved the byte of the debuggee's program. -/
def BelongsTo (dbug : Dbug) (s : Images) : Prop :=
  ∀ bp ∈ dbug.bps, bp.type = .SFBP → s.mem dbug.pid bp.addr = INT_3 ∧
    ∀ first, firstSF dbug.bps bp.addr = some first → first.origByte = s.own dbug.pid bp.addr

def NoSoft (bps : List Breakpoint) : Prop := ∀ bp ∈ bps, bp.type ≠ .SFBP

/-- The process that `dbug` installs, or the debuggee's pid given to another. -/
def StartsOver (dbug : Dbug) (s : Images) : Prop :=
  ∃ p forks ev evs, s.forks = p :: forks ∧ 0 < p ∧ s.events = ev :: evs ∧
    (WIFEXITED (storeStatus dbug.status ev) = false ∨ p = dbug.pid)

/-- The same for `attach`. -/
def AttachesOver (arg : NgxArray) (dbug : Dbug) (s : Images) : Prop :=
  ∃ text attaches ev evs, arg.str 1 = some text ∧ s.attaches = true :: attaches ∧
    s.events = ev :: evs ∧ (WIFEXITED (storeStatus dbug.status ev) = false ∨ atoi text = dbug.pid)

/-- An `execve` of the debuggee, reported to `c` or to its step over a breakpoint. -/
def ExecsOver (dbug : Dbug) (s : Images) : Prop :=
  (∃ evs, s.events = some ⟨dbug.pid, .stopped .exec⟩ :: evs) ∨
    ∃ ev evs regs rest bp, s.events = ev :: some ⟨dbug.pid, .stopped .exec⟩ :: evs ∧
      s.regs = regs :: rest ∧ takenFor dbug ev regs = some bp

/-- The table is free of software breakpoints when a process is installed or
the debuggee's program replaced, and a breakpoint is at no address that the
program changes. -/
def Settled (W : Pid → Set Word) (arg : NgxArray) (dbug : Dbug) (s : Images) : Prop :=
  (arg.str 0 = some nameDbug → StartsOver dbug s → NoSoft dbug.bps) ∧
    (arg.str 0 = some nameAttach → AttachesOver arg dbug s → NoSoft dbug.bps) ∧
    (arg.str 0 = some nameC → ExecsOver dbug s → NoSoft dbug.bps) ∧
    (arg.str 0 = some nameB → ∀ i, findFunc dbug.funs (arg.str 1) = some i →
      ((dbug.funs.getD []).getD i ⟨[], 0⟩).addr ∉ W dbug.pid)

/-- The byte at `a` is the program's, or an INT3 over it. -/
def OwnedAt (W : Pid → Set Word) (dbug : Dbug) (s : Images) (a : Word) : Prop :=
  match firstSF dbug.bps a with
  | none => s.mem dbug.pid a = s.own dbug.pid a
  | some bp => s.mem dbug.pid a = INT_3 ∧ bp.origByte = s.own dbug.pid a ∧ a ∉ W dbug.pid

/-- At the prompt. -/
def Owned (W : Pid → Set Word) (dbug : Dbug) (s : Images) : Prop := ∀ a, OwnedAt W dbug s a

section
variable {W : Pid → Set Word} {s s' : Images} {dbug : Dbug} {arg : NgxArray} {pid : Pid} {a : Word}

theorem ownedAt_of_none (h : firstSF dbug.bps a = none) :
    OwnedAt W dbug s a ↔ s.mem dbug.pid a = s.own dbug.pid a := by
  rw [OwnedAt, h]

theorem ownedAt_of_some {bp : Breakpoint} (h : firstSF dbug.bps a = some bp) :
    OwnedAt W dbug s a ↔
      s.mem dbug.pid a = INT_3 ∧ bp.origByte = s.own dbug.pid a ∧ a ∉ W dbug.pid := by
  rw [OwnedAt, h]

theorem Owned.belongs (h : Owned W dbug s) : BelongsTo dbug s := by
  intro bp hbp htype
  cases hfirst : firstSF dbug.bps bp.addr with
  | none => exact absurd rfl (firstSF_eq_none.mp hfirst bp hbp htype)
  | some first =>
      obtain ⟨hmem, horig, -⟩ := (ownedAt_of_some hfirst).mp (h bp.addr)
      refine ⟨hmem, ?_⟩
      intro first' hfirst'
      obtain rfl := Option.some.inj hfirst'
      exact horig

theorem firstSF_of_noSoft (h : NoSoft dbug.bps) (a : Word) : firstSF dbug.bps a = none :=
  firstSF_eq_none.mpr fun bp hbp htype => absurd htype (h bp hbp)

/-! ## What keeps a byte owned -/

/-- It depends on the bytes at `a` of the debuggee alone. -/
theorem OwnedAt.congr (h : OwnedAt W dbug s a) (hmem : s'.mem dbug.pid a = s.mem dbug.pid a)
    (hown : s'.own dbug.pid a = s.own dbug.pid a) : OwnedAt W dbug s' a := by
  rw [OwnedAt, hmem, hown]
  exact h

theorem Images.load_of_ne {p q : Pid} (hq : q ≠ p) (m : Mem 64 Byte) :
    (s.load q m).mem p = s.mem p ∧ (s.load q m).own p = s.own p := by
  constructor
  · show Function.update s.mem q m p = s.mem p
    rw [Function.update_of_ne hq.symm]
  · show Function.update s.own q m p = s.own p
    rw [Function.update_of_ne hq.symm]

theorem Images.load_self (s : Images) (pid : Pid) (m : Mem 64 Byte) :
    (s.load pid m).mem pid = (s.load pid m).own pid := by
  simp [Images.load]

/-- What a process sees of a wait that reports no `execve` of it. -/
theorem Images.Reports.wrote {p : Pid} {ev : Option WaitEvent} (hr : s.Reports W ev s')
    (hno : ev ≠ some ⟨p, .stopped .exec⟩) (a : Word) :
    (s'.mem p a = s.mem p a ∧ s'.own p a = s.own p a) ∨
      (a ∈ W p ∧ s'.mem p a = s'.own p a) := by
  cases hr with
  | @exec s₁ q m hran =>
      have hq : q ≠ p := fun hq => hno (by rw [hq])
      obtain ⟨hmem, hown⟩ := Images.load_of_ne (s := s₁) hq m
      rw [hmem, hown]
      exact hran.wrote p a
  | plain _ hran => exact hran.wrote p a

/-- The program may run. -/
theorem OwnedAt.reports (h : OwnedAt W dbug s a) {ev : Option WaitEvent}
    (hr : s.Reports W ev s') (hno : ev ≠ some ⟨dbug.pid, .stopped .exec⟩) :
    OwnedAt W dbug s' a := by
  rcases hr.wrote hno a with ⟨hmem, hown⟩ | ⟨hW, hsame⟩
  · exact h.congr hmem hown
  · cases hfirst : firstSF dbug.bps a with
    | none => exact (ownedAt_of_none hfirst).mpr hsame
    | some bp => exact absurd hW ((ownedAt_of_some hfirst).mp h).2.2

/-- Another process may be loaded. -/
theorem Owned.load (h : Owned W dbug s) {q : Pid} (hq : q ≠ dbug.pid) (m : Mem 64 Byte) :
    Owned W dbug (s.load q m) := by
  obtain ⟨hmem, hown⟩ := Images.load_of_ne (s := s) hq m
  exact fun a => (h a).congr (congrFun hmem a) (congrFun hown a)

/-- A process just loaded is its own, if the table has nothing to put there. -/
theorem owned_of_noSoft (hsoft : NoSoft dbug.bps) (h : s.mem dbug.pid = s.own dbug.pid) :
    Owned W dbug s :=
  fun a => (ownedAt_of_none (firstSF_of_noSoft hsoft a)).mpr (congrFun h a)

/-- The debuggee's own `execve` needs an empty table. -/
theorem Owned.reports (h : Owned W dbug s) {ev : Option WaitEvent} (hr : s.Reports W ev s')
    (hexec : ev = some ⟨dbug.pid, .stopped .exec⟩ → NoSoft dbug.bps) : Owned W dbug s' := by
  by_cases hno : ev = some ⟨dbug.pid, .stopped .exec⟩
  · subst hno
    cases hr with
    | exec m hran => exact owned_of_noSoft (hexec rfl) (Images.load_self _ _ m)
    | plain hplain => exact absurd rfl (hplain dbug.pid)
  · exact fun a => (h a).reports hr hno

/-! ## Bytes in the debuggee -/

def imageMem (W : Pid → Set Word) (pid : Pid) : MemView (imageKernel W) pid where
  ok := fun _ => True
  get := fun s => s.mem pid
  set := fun m s => { s with mem := Function.update s.mem pid m }
  peek_iff := fun _ => Iff.rfl
  poke_iff := fun _ => Iff.rfl
  ok_set := fun _ => trivial
  get_set := by simp
  set_set := by simp
  set_get := by simp
  print_quiet := id

/-- The byte `b` is put at `a`. -/
def Images.put (s : Images) (pid : Pid) (a : Word) (b : Byte) : Images :=
  { s with mem := Function.update s.mem pid (store (s.mem pid) a [b]) }

theorem Images.put_mem (s : Images) (pid : Pid) (a : Word) (b : Byte) (x : Word) :
    (s.put pid a b).mem pid x = if x = a then b else s.mem pid x := by
  show Function.update s.mem pid (store (s.mem pid) a [b]) pid x = _
  rw [Function.update_self, store_singleton]

@[simp] theorem Images.put_own (s : Images) (pid : Pid) (a : Word) (b : Byte) :
    (s.put pid a b).own = s.own := rfl

theorem wp_put {str : List Byte} {b : Byte} (hstr : str.take 1 = [b]) {Q : Int → Images → Prop}
    (hQ : Q 0 (s.put pid a b)) : wp (imageKernel W) Free (writeProMem pid a str 1) Q s := by
  have hlen : 1 ≤ str.length := by
    cases str with
    | nil => cases hstr
    | cons c cs => exact Nat.le_add_left 1 cs.length
  rw [wp_writeProMem (imageMem W pid) hlen (by decide) trivial, hstr]
  exact hQ

theorem OwnedAt.put (h : OwnedAt W dbug s a) {x : Word} (hx : a ≠ x) (b : Byte) :
    OwnedAt W dbug (s.put dbug.pid x b) a :=
  h.congr (by rw [Images.put_mem, if_neg hx]) rfl

/-! ## `command_break` -/

/-- A new entry saves the program's byte, unless an older one has. -/
theorem Owned.insert (h : Owned W dbug s) {bp : Breakpoint} (htype : bp.type = .SFBP)
    (horig : bp.origByte = s.mem dbug.pid bp.addr) (hW : bp.addr ∉ W dbug.pid) :
    Owned W { dbug with bps := dbug.bps ++ [bp] } (s.put dbug.pid bp.addr INT_3) := by
  intro a
  have hfirst := firstSF_append dbug.bps [bp] a
  rw [firstSF_singleton htype] at hfirst
  by_cases ha : bp.addr = a
  · subst ha
    rw [if_pos rfl] at hfirst
    have hmem : (s.put dbug.pid bp.addr INT_3).mem dbug.pid bp.addr = INT_3 := by
      rw [Images.put_mem, if_pos rfl]
    cases hold : firstSF dbug.bps bp.addr with
    | none =>
        rw [hold, Option.none_or] at hfirst
        have hown := (ownedAt_of_none hold).mp (h bp.addr)
        exact (ownedAt_of_some hfirst).mpr ⟨hmem, horig.trans hown, hW⟩
    | some first =>
        rw [hold, Option.some_or] at hfirst
        obtain ⟨-, hown, -⟩ := (ownedAt_of_some hold).mp (h bp.addr)
        exact (ownedAt_of_some hfirst).mpr ⟨hmem, hown, hW⟩
  · rw [if_neg ha, Option.or_none] at hfirst
    have hat := (h a).put (Ne.symm ha) INT_3
    rw [OwnedAt] at hat ⊢
    rw [hfirst]
    exact hat

theorem owned_break (h : Owned W dbug s)
    (hW : ∀ i, findFunc dbug.funs (arg.str 1) = some i →
      ((dbug.funs.getD []).getD i ⟨[], 0⟩).addr ∉ W dbug.pid) :
    wp (imageKernel W) Free (commandBreak dbug arg) (fun x s' => Owned W x.2 s') s := by
  rw [commandBreak]
  cases hfind : findFunc dbug.funs (arg.str 1) with
  | none => exact h
  | some i =>
      rw [wp_bind]
      refine wp_insertINT3Bp (imageMem W dbug.pid) trivial ?_
      exact h.insert rfl (Breakpoint.planted_origByte _ _) (hW i hfind)

/-! ## `command_continue` -/

/-- While the instruction at a breakpoint runs, its byte is the program's; every
other byte is owned, and the INT3 comes back. -/
theorem owned_resume (h : Owned W dbug s) {bp : Breakpoint}
    (hbp : firstSF dbug.bps bp.addr = some bp)
    (hexec : ∀ evs, s.events ≠ some ⟨dbug.pid, .stopped .exec⟩ :: evs) {regs : UserRegs} :
    wp (imageKernel W) Free (resumeINT3BpNext dbug.pid bp regs) (fun _ s' => Owned W dbug s') s := by
  obtain ⟨-, htype, -⟩ := firstSF_eq_some hbp
  obtain ⟨-, horig, hW⟩ := (ownedAt_of_some hbp).mp (h bp.addr)
  rw [resumeINT3BpNext, if_neg (by rw [htype]; exact fun hne => hne rfl)]
  refine wp_bind.mpr (wp_put (toBytes_take_one _) ?_)
  refine wp_ask trivial ?_
  rintro _ s₁ rfl
  refine wp_ask trivial ?_
  rintro _ s₂ rfl
  refine wp_ask trivial ?_
  rintro ev s₃ ⟨evs, hevents, hr⟩
  have hno : ev ≠ some ⟨dbug.pid, .stopped .exec⟩ := by
    rintro rfl
    exact hexec evs hevents
  refine wp_bind.mpr (wp_put rfl ?_)
  intro a
  by_cases ha : a = bp.addr
  · subst ha
    refine (ownedAt_of_some hbp).mpr ⟨by rw [Images.put_mem, if_pos rfl], ?_, hW⟩
    rcases hr.wrote hno bp.addr with ⟨-, hown⟩ | ⟨hin, -⟩
    · rw [Images.put_own, hown]
      exact horig
    · exact absurd hin hW
  · have hat : OwnedAt W dbug
        { s.put dbug.pid bp.addr (bp.orig_code.setWidth 8) with events := evs } a := (h a).put ha _
    exact (hat.reports hr hno).put ha INT_3

/-- A SIGTRAP, for a breakpoint or not. -/
theorem owned_stop (h : Owned W dbug s)
    (hexec : ∀ bp, firstSF dbug.bps (dbug.regs.rip - 1) = some bp →
      ∀ evs, s.events ≠ some ⟨dbug.pid, .stopped .exec⟩ :: evs) :
    wp (imageKernel W) Free
      (triggerSF dbug >>= fun d => triggerHW d >>= fun _ => Prog.ret ((0 : Int), d))
      (fun x s' => Owned W x.2 s') s := by
  cases hfirst : firstSF dbug.bps (dbug.regs.rip - 1) with
  | none =>
      rw [triggerSF_eq_ret hfirst, Prog.ret_bind]
      exact wp_bind.mpr (wp_triggerHW (imageMem W dbug.pid) h)
  | some bp =>
      obtain ⟨-, -, haddr⟩ := firstSF_eq_some hfirst
      have hnext := hexec bp hfirst
      rw [triggerSF_eq_resume hfirst]
      rw [← haddr] at hfirst
      refine wp_bind.mpr ?_
      refine wp_ask trivial ?_
      rintro _ s₁ rfl
      refine wp_bind.mpr (wp_mono ?_ (owned_resume h hfirst hnext))
      intro x s₂ h₂
      exact wp_bind.mpr (wp_triggerHW (imageMem W dbug.pid) h₂)

theorem owned_continue (h : Owned W dbug s) (hsettled : ExecsOver dbug s → NoSoft dbug.bps) :
    wp (imageKernel W) Free (commandContinue dbug arg) (fun x s' => Owned W x.2 s') s := by
  rw [commandContinue]
  refine wp_ask trivial ?_
  rintro ok s' rfl
  refine wp_warn (fun _ _ hK => hK) trivial ?_
  refine wp_ask trivial ?_
  rintro ev s₁ ⟨evs, hevents, hr⟩
  have hat : Owned W dbug { s' with events := evs } := h
  have h₁ : Owned W dbug s₁ := hat.reports hr fun hev =>
    hsettled (Or.inl ⟨evs, by rw [hevents, hev]⟩)
  have hscript : s₁.toScript = { s'.toScript with events := evs } := by
    cases hr with
    | exec m hran => exact hran.script
    | plain _ hran => exact hran.script
  dsimp only
  split
  · exact wp_ask trivial fun x => x.elim
  · rename_i hW
    refine wp_ask trivial ?_
    rintro regs s₂ ⟨rest, hregs, rfl⟩
    have h₂ : Owned W dbug { s₁ with regs := rest } := h₁
    split
    · rename_i htrap
      refine owned_stop h₂ ?_
      intro bp hbp evs' hevents'
      have htaken : takenFor dbug ev regs = some bp := by
        rw [takenFor]
        simp only [hW, htrap, if_true, Bool.false_eq_true, if_false]
        exact hbp
      have hevents₁ : evs = some ⟨dbug.pid, .stopped .exec⟩ :: evs' := by
        rw [← hevents']
        exact (congrArg Script.events hscript).symm
      have hregs' : s'.regs = regs :: rest := by
        rw [← hregs]
        exact (congrArg Script.regs hscript).symm
      obtain ⟨hmem, htype, -⟩ := firstSF_eq_some hbp
      exact hsettled (Or.inr ⟨ev, evs', regs, rest, bp, by rw [hevents, hevents₁], hregs',
        htaken⟩) bp hmem htype
    · exact h₂

/-! ## `command_dbug` and `command_attach` -/

/-- A process just loaded, after the programs have run. -/
theorem reports_load {m : Mem 64 Byte} {ev : Option WaitEvent} {evs : List (Option WaitEvent)}
    (hr : Images.Reports W { s.load pid m with events := evs } ev s') :
    s'.mem pid = s'.own pid := by
  by_cases hno : ev = some ⟨pid, .stopped .exec⟩
  · subst hno
    cases hr with
    | exec m hran => exact Images.load_self _ _ m
    | plain hplain => exact absurd rfl (hplain pid)
  · funext a
    rcases hr.wrote hno a with ⟨hmem, hown⟩ | ⟨-, hsame⟩
    · exact hmem.trans ((congrFun (Images.load_self s pid m) a).trans hown.symm)
    · exact hsame

/-- The debuggee is kept as it was, or the new one is untouched and the table
has nothing in it. -/
theorem owned_install {ev : Option WaitEvent} (h : Owned W dbug s) {m : Mem 64 Byte}
    {evs : List (Option WaitEvent)}
    (hr : Images.Reports W { s.load pid m with events := evs } ev s')
    (hover : WIFEXITED (storeStatus dbug.status ev) = false ∨ pid = dbug.pid →
      NoSoft dbug.bps) :
    wp (imageKernel W) Free (install dbug pid (storeStatus dbug.status ev))
      (fun x s' => Owned W x.2 s') s' := by
  rw [install]
  cases hW : WIFEXITED (storeStatus dbug.status ev) with
  | true =>
      show Owned W dbug s'
      by_cases hpid : pid = dbug.pid
      · refine owned_of_noSoft (hover (Or.inr hpid)) ?_
        rw [← hpid]
        exact reports_load hr
      · have hload : Owned W dbug { s.load pid m with events := evs } := h.load hpid m
        refine hload.reports hr ?_
        rintro rfl
        rw [storeStatus_some, WIFEXITED_stopped] at hW
        cases hW
  | false =>
      refine wp_ask trivial ?_
      rintro funs s₂ rfl
      exact owned_of_noSoft (hover (Or.inl hW)) (reports_load hr)

theorem owned_dbugPro (h : Owned W dbug s) (hsettled : StartsOver dbug s → NoSoft dbug.bps)
    {path : Option CStr} {argv : List (Option CStr)} :
    wp (imageKernel W) Free (dbugPro dbug path argv) (fun x s' => Owned W x.2 s') s := by
  refine wp_dbugPro ?_ trivial ?_ ?_
  · intro r s x s' hr hK
    cases hr <;> exact hK
  · rintro p s' ⟨forks, -, ⟨-, rfl⟩ | ⟨hpos, -⟩⟩ hle
    · exact ⟨fun _ _ => trivial, h⟩
    · exact absurd hle (Int.not_le.mpr hpos)
  · rintro p s' ⟨forks, hforks, ⟨hle, -⟩ | ⟨-, m, rfl⟩⟩ hpos
    · exact absurd hle (Int.not_le.mpr hpos)
    · refine ⟨trivial, ?_⟩
      rintro ev s₂ ⟨evs, hevents, hr⟩
      have h₁ : Owned W dbug { s with forks := forks } := h
      exact owned_install h₁ hr fun hor =>
        hsettled ⟨p, forks, ev, evs, hforks, hpos, hevents, hor⟩

theorem owned_dbug (h : Owned W dbug s) (hsettled : StartsOver dbug s → NoSoft dbug.bps) :
    wp (imageKernel W) Free (commandDbug dbug arg) (fun x s' => Owned W x.2 s') s := by
  rw [commandDbug, wp_bind]
  refine wp_copyArgv (fun k x s' hK => hK) (fun _ => trivial) arg fun argv => ?_
  refine wp_seq (owned_dbugPro h hsettled) ?_
  rintro ⟨r, d⟩ s' hd
  exact hd

theorem owned_attach (h : Owned W dbug s) (hsettled : AttachesOver arg dbug s → NoSoft dbug.bps) :
    wp (imageKernel W) Free (commandAttach dbug arg) (fun x s' => Owned W x.2 s') s := by
  rw [commandAttach]
  cases htext : arg.str 1 with
  | none => exact wp_ask trivial fun x => x.elim
  | some text =>
      refine wp_seq (Q := fun x s' => Owned W x.2 s') ?_ (by rintro ⟨r, d⟩ s' hd; exact hd)
      refine wp_attachPro (fun o s x s' hK => hK) trivial ?_ ?_
      · rintro s₁ ⟨attaches, -, ⟨-, rfl⟩ | ⟨hok, -⟩⟩
        · exact ⟨fun _ _ => trivial, h⟩
        · cases hok
      · rintro s₁ ⟨attaches, hattaches, ⟨hok, -⟩ | ⟨-, m, rfl⟩⟩
        · cases hok
        · refine ⟨trivial, ?_⟩
          rintro ev s₂ ⟨evs, hevents, hr⟩
          have h₁ : Owned W dbug { s with attaches := attaches } := h
          exact ⟨fun _ _ => trivial, owned_install h₁ hr fun hor =>
            hsettled ⟨text, attaches, ev, evs, htext, hattaches, hevents, hor⟩⟩

/-! ## Sessions -/

/-- **The table belongs to the debuggee** in every session of `dbug`, `attach`,
`b` and `c` that has no software breakpoint in the table when it installs a
process or sees the debuggee's `execve`, and breaks where the program changes
nothing. -/
theorem table_belongs_to_debuggee {s₀ : Images} (h₀ : s₀.mem = s₀.own) {args : List NgxArray}
    (hargs : ∀ arg ∈ args, Named [nameDbug, nameAttach, nameB, nameC] arg)
    (hrun : Runs (imageKernel W) play (Settled W) initDbug s₀ args dbug s) :
    BelongsTo dbug s := by
  have hinit : Owned W initDbug s₀ :=
    owned_of_noSoft (fun bp hbp => absurd hbp List.not_mem_nil) (congrFun h₀ _)
  refine ((hrun.guarded hargs).invariant (Owned W) (I := fun _ => Free) ?_ hinit).belongs
  rintro arg dbug s ⟨⟨n, hn, hname⟩, hdbug, hattach, hcont, hbreak⟩ h
  have h' : Owned W { dbug with cmd := arg } s := h
  simp only [List.mem_cons, List.not_mem_nil, or_false] at hn
  rcases hn with rfl | rfl | rfl | rfl
  · rw [play_dbug hname]
    exact wp_seq (owned_dbug h' (hdbug hname)) fun _ _ h => h
  · rw [play_attach hname]
    exact wp_seq (owned_attach h' (hattach hname)) fun _ _ h => h
  · rw [play_break hname]
    exact wp_seq (owned_break h' (hbreak hname)) fun _ _ h => h
  · rw [play_continue hname]
    exact wp_seq (owned_continue h' (hcont hname)) fun _ _ h => h

end

/-! ## One program, and two -/

/-- Programs whose code is `image`, and which stop one byte behind `0x1000`. -/
def imageHandler (image : Pid → Mem 64 Byte) : Handler Resp Images
  | .fork, s =>
      match s.forks with
      | p :: xs => if 0 < p then some (p, Images.load { s with forks := xs } p (image p)) else none
      | [] => none
  | .wait, s =>
      match s.events with
      | some ⟨q, .stopped .exec⟩ :: evs =>
          some (some ⟨q, .stopped .exec⟩, Images.load { s with events := evs } q (image q))
      | ev :: evs => some (ev, { s with events := evs })
      | [] => none
  | .peektext pid a, s => some (some (peek (s.mem pid) a), s)
  | .poketext pid a w, s =>
      some (true, { s with mem := Function.update s.mem pid (poke (s.mem pid) a w) })
  | .getregs _, s =>
      match s.regs with
      | x :: xs => some (x, { s with regs := xs })
      | [] => none
  | .openFuns _, s => some (some [⟨lit ['f'], 0x1000⟩], s)
  | .cont _ _, s | .singlestep _ _, s | .setregs _ _, s => some (true, s)
  | .print _, s => some ((), s)
  | _, _ => none

theorem Images.Ran.refl (W : Pid → Set Word) (s : Images) : s.Ran W s :=
  ⟨rfl, fun _ _ => Or.inl ⟨rfl, rfl⟩⟩

theorem imageHandler_kernel {W : Pid → Set Word} {image : Pid → Mem 64 Byte} (r : Req) (s : Images)
    (x : Resp r) (s' : Images) (h : imageHandler image r s = some (x, s')) :
    imageKernel W r s x s' := by
  cases r with
  | fork =>
      simp only [imageHandler] at h
      split at h
      · rename_i p xs hforks
        obtain ⟨hpos, h⟩ := Option.ite_none_right_eq_some.mp h
        obtain ⟨rfl, rfl⟩ := Prod.mk.inj (Option.some.inj h)
        exact ⟨xs, hforks, Or.inr ⟨hpos, _, rfl⟩⟩
      · cases h
  | wait =>
      simp only [imageHandler] at h
      split at h
      · rename_i q evs hevents
        obtain ⟨rfl, rfl⟩ := Prod.mk.inj (Option.some.inj h)
        exact ⟨evs, hevents, .exec _ (.refl W _)⟩
      · rename_i ev evs hno hevents
        obtain ⟨rfl, rfl⟩ := Prod.mk.inj (Option.some.inj h)
        refine ⟨evs, hevents, .plain ?_ (.refl W _)⟩
        rintro q rfl
        exact hno q rfl
      · cases h
  | getregs pid =>
      simp only [imageHandler] at h
      split at h
      · rename_i x xs hregs
        obtain ⟨rfl, rfl⟩ := Prod.mk.inj (Option.some.inj h)
        exact ⟨xs, hregs, rfl⟩
      · cases h
  | peektext pid a =>
      obtain ⟨rfl, rfl⟩ := Prod.mk.inj (Option.some.inj h)
      exact ⟨rfl, rfl⟩
  | poketext pid a w =>
      obtain ⟨rfl, rfl⟩ := Prod.mk.inj (Option.some.inj h)
      exact ⟨rfl, rfl⟩
  | _ =>
      simp only [imageHandler, Option.some.injEq, Prod.mk.injEq, reduceCtorEq] at h
      try exact h.2.symm

/-- All programs are `nop`s. -/
def nopImages (script : Script) : Images := ⟨script, fun _ _ => 0x90, fun _ _ => 0x90⟩

/-- The program 7 starts, stops at `f`, and is stepped over it. -/
def stopOnce : Script :=
  ⟨[7], [], [some ⟨7, .stopped .exec⟩, some ⟨7, .stopped (.int3 0x1000)⟩,
    some ⟨7, .stopped .singleStep⟩], [some (({} : UserRegs).withRip 0x1001)]⟩

def breakOnce : List NgxArray :=
  [typed ['d', 'b', 'u', 'g', ' ', 'a', '\n'], typed ['b', ' ', 'f', '\n'], typed ['c', '\n']]

/-- No `execve` is to come. -/
def NoExec (s : Images) : Prop := ∀ ev ∈ s.events, ∀ q, ev ≠ some ⟨q, .stopped .exec⟩

theorem noExec_step {W : Pid → Set Word} {r : Req} {x : Resp r} {s s' : Images}
    (hK : imageKernel W r s x s') (h : NoExec s) : NoExec s' := by
  have htail : ∀ {s₁ : Images} {evs : List (Option WaitEvent)} {ev : Option WaitEvent},
      s.events = ev :: evs → s₁.events = evs → NoExec s₁ := by
    intro s₁ evs ev hevents hs₁ e he
    rw [hs₁] at he
    exact h e (by rw [hevents]; exact List.mem_cons_of_mem ev he)
  have hreports : ∀ {evs : List (Option WaitEvent)} {ev : Option WaitEvent},
      s.events = ev :: evs → Images.Reports W { s with events := evs } ev s' → NoExec s' := by
    intro evs ev hevents hr
    cases hr with
    | exec m hran => exact htail hevents (congrArg Script.events hran.script)
    | plain _ hran => exact htail hevents (congrArg Script.events hran.script)
  cases r with
  | wait => exact hreports hK.choose_spec.1 hK.choose_spec.2
  | waitpid => exact hreports hK.choose_spec.1 hK.choose_spec.2
  | fork =>
      obtain ⟨xs, -, ⟨-, rfl⟩ | ⟨-, m, rfl⟩⟩ := hK
      · exact h
      · exact h
  | attach =>
      obtain ⟨xs, -, ⟨-, rfl⟩ | ⟨-, m, rfl⟩⟩ := hK
      · exact h
      · exact h
  | getregs =>
      obtain ⟨xs, -, rfl⟩ := hK
      exact h
  | peektext =>
      obtain ⟨-, rfl⟩ := hK
      exact h
  | poketext =>
      obtain ⟨-, rfl⟩ := hK
      exact h
  | _ =>
      obtain rfl : s' = s := hK
      exact h

/-- With one process, no `execve` and no changes of code, every step is settled. -/
theorem settled_of_noExec {args : List NgxArray} {dbug dbug' : Dbug} {s s' : Images}
    (hargs : ∀ arg ∈ args, Named [nameB, nameC] arg) (hno : NoExec s)
    (hrun : Runs (imageKernel fun _ => ∅) play Always dbug s args dbug' s') :
    Runs (imageKernel fun _ => ∅) play (Settled fun _ => ∅) dbug s args dbug' s' := by
  induction hrun with
  | nil => exact .nil _ _
  | @cons arg args d _ _ s _ _ _ he _ ih =>
      obtain ⟨n, hn, hname⟩ := hargs arg List.mem_cons_self
      have hplay : Emits (fun _ => True) (fun _ => True) (play arg d) := emits_every _
      have hend := (hplay.wp (K := imageKernel fun _ => ∅) (I := Free) (J := NoExec)
        (fun _ _ _ _ => trivial) (fun _ _ _ _ _ hs hK => noExec_step hK hs) hno).ends he
      refine .cons ⟨?_, ?_, ?_, fun _ _ _ => Set.notMem_empty _⟩ he
        (ih (fun a ha => hargs a (List.mem_cons_of_mem arg ha)) hend.2)
      · intro hd
        rw [hname] at hd
        simp only [List.mem_cons, List.not_mem_nil, or_false] at hn
        rcases hn with rfl | rfl <;> cases hd
      · intro ha
        rw [hname] at ha
        simp only [List.mem_cons, List.not_mem_nil, or_false] at hn
        rcases hn with rfl | rfl <;> cases ha
      · rintro - (⟨evs, hevents⟩ | ⟨ev, evs, regs, rest, bp, hevents, -, -⟩)
        · exact absurd rfl (hno _ (by rw [hevents]; exact List.mem_cons_self) d.pid)
        · exact absurd rfl (hno _ (by rw [hevents]; simp) d.pid)

theorem table_belongs_to_debuggee_once :
    ∃ (dbug : Dbug) (s : Images), dbug.bps.map Breakpoint.addr = [0x1000] ∧
      s.mem dbug.pid 0x1000 = INT_3 ∧ BelongsTo dbug s := by
  have hstart : (eval (imageHandler fun _ _ => 0x90)
      (play (typed ['d', 'b', 'u', 'g', ' ', 'a', '\n']) initDbug) (nopImages stopOnce)).map
        (fun q => q.2.events) = some [some ⟨7, .stopped (.int3 0x1000)⟩,
          some ⟨7, .stopped .singleStep⟩] := by
    decide +kernel
  have hrest : ((eval (imageHandler fun _ _ => 0x90)
      (play (typed ['d', 'b', 'u', 'g', ' ', 'a', '\n']) initDbug) (nopImages stopOnce)).bind
        fun q => eval (imageHandler fun _ _ => 0x90)
          (runAll play [typed ['b', ' ', 'f', '\n'], typed ['c', '\n']] q.1) q.2).map
        (fun q => (q.1.bps.map Breakpoint.addr, q.2.mem q.1.pid 0x1000))
        = some ([0x1000], INT_3) := by
    decide +kernel
  have hargs : ∀ arg ∈ [typed ['b', ' ', 'f', '\n'], typed ['c', '\n']],
      Named [nameB, nameC] arg := by
    simp only [List.forall_mem_cons, List.not_mem_nil, false_implies, implies_true, and_true]
    exact ⟨⟨nameB, by decide, by decide⟩, ⟨nameC, by decide, by decide⟩⟩
  have hnames : ∀ arg ∈ breakOnce, Named [nameDbug, nameAttach, nameB, nameC] arg := by
    simp only [breakOnce, List.forall_mem_cons, List.not_mem_nil, false_implies, implies_true,
      and_true]
    exact ⟨⟨nameDbug, by decide, by decide⟩, ⟨nameB, by decide, by decide⟩,
      ⟨nameC, by decide, by decide⟩⟩
  have hnone : NoSoft initDbug.bps := fun bp hbp => absurd hbp List.not_mem_nil
  obtain ⟨⟨d₁, s₁⟩, hq₁, hevents⟩ := Option.map_eq_some_iff.mp hstart
  rw [hq₁, Option.bind_some] at hrest
  obtain ⟨⟨dbug, s⟩, hq, hshow⟩ := Option.map_eq_some_iff.mp hrest
  obtain ⟨haddrs, hmem⟩ := Prod.mk.inj hshow
  have hno : NoExec s₁ := by
    intro ev hev
    rw [show s₁.events = _ from hevents] at hev
    simp only [List.mem_cons, List.not_mem_nil, or_false] at hev
    rcases hev with rfl | rfl <;> simp
  have hruns := settled_of_noExec hargs hno
    (runs_iff_ends.mpr (eval_ends (imageHandler_kernel (W := fun _ => ∅)) hq))
  have hfirst := eval_ends (imageHandler_kernel (W := fun _ => ∅)) hq₁
  exact ⟨dbug, s, haddrs, hmem, table_belongs_to_debuggee rfl hnames
    (.cons ⟨fun _ _ => hnone, fun _ _ => hnone, fun _ _ => hnone, fun _ _ _ =>
      Set.notMem_empty _⟩ hfirst hruns)⟩

/-- A breakpoint in the program 7, and then the program 8. -/
def switchTarget : List NgxArray :=
  [typed ['d', 'b', 'u', 'g', ' ', 'a', '\n'], typed ['b', ' ', 'f', '\n'],
   typed ['d', 'b', 'u', 'g', ' ', 'b', '\n']]

def twoStarts : Script :=
  ⟨[7, 8], [], [some ⟨7, .stopped .exec⟩, some ⟨8, .stopped .exec⟩], []⟩

/-- The table of the program 8 lists the breakpoint of the program 7, whose
code at that address was another. -/
theorem stale_breakpoint :
    ∃ (dbug : Dbug) (s : Images),
      Runs (imageKernel fun _ => ∅) play Always initDbug (nopImages twoStarts) switchTarget dbug s ∧
        dbug.pid = 8 ∧ s.mem 8 0x1000 = 0x55 ∧ ¬ BelongsTo dbug s := by
  have heval : (eval (imageHandler fun pid _ => if pid = 8 then 0x55 else 0x90)
      (runAll play switchTarget initDbug) (nopImages twoStarts)).map
      (fun q => (q.1.pid, q.1.bps.map (fun bp => (bp.type, bp.addr)), q.2.mem 8 0x1000))
        = some (8, [(.SFBP, 0x1000)], 0x55) := by
    decide +kernel
  obtain ⟨⟨dbug, s⟩, hrun, hq⟩ := Option.map_eq_some_iff.mp heval
  obtain ⟨hpid, hrest⟩ := Prod.mk.inj hq
  obtain ⟨hbps, hmem⟩ := Prod.mk.inj hrest
  have hruns := runs_iff_ends.mpr (eval_ends (imageHandler_kernel (W := fun _ => ∅)) hrun)
  refine ⟨dbug, s, hruns, hpid, hmem, ?_⟩
  intro hbelongs
  have hentry : (BpType.SFBP, (0x1000 : Word)) ∈ dbug.bps.map (fun bp => (bp.type, bp.addr)) := by
    rw [hbps]
    exact List.mem_cons_self
  obtain ⟨bp, hbp, heq⟩ := List.mem_map.mp hentry
  obtain ⟨htype, haddr⟩ := Prod.mk.inj heq
  have hint3 := (hbelongs bp hbp htype).1
  rw [haddr, show dbug.pid = 8 from hpid, show s.mem 8 0x1000 = 0x55 from hmem] at hint3
  exact absurd hint3 (by decide)

end TestDbug
