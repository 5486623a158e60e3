/-
# `TestDbug.WordsSession` — the tables over whole sessions

`init_dbug` and then lines, new entries and argument vectors in any order: the
bytes in the pool are the tables replayed on lists (`tables_in_memory`), and an
argument vector stays what it was (`argv_in_memory`).  The rounds of `main` are
such sessions: each does to the tables what its line and its handler do
(`emits_play_tables`), so the state of `Dbug` is what the memory shows
(`rounds_in_memory`).

`command_dbug` reads one slot behind those in use, and behind the array when it
is full.  An argument vector is `Allowed` only where that slot is there.
-/
import TestDbug.Words
import TestDbug.PoolUse
import TestDbug.Input

open ByteMemory Interaction

namespace TestDbug

/-! ## Sessions -/

inductive TableOp where
  | line (line : Line)
  | entry (fields : List (Nat × List Byte))
  | argv

def stepTable (op : TableOp) (d : DbugHeap) : Pool (Option DbugHeap) :=
  match op with
  | .line line => putLine d line
  | .entry fields => putEntry d fields
  | .argv => do
      let r ← putArgv d
      return r.map Prod.snd

/-- Nothing happens any more once a NULL pointer was followed. -/
def serveTable (op : TableOp) (r : Option DbugHeap) : Pool (Option DbugHeap) :=
  match r with
  | none => return none
  | some d => stepTable op d

/-- The fields lie in the entry, and an argument vector is made only of slots that are there. -/
def Allowed (op : TableOp) (r : Option DbugHeap) (_ : World) : Prop :=
  match op, r with
  | .entry fields, _ => Fit sizeofBreakpoint fields
  | .argv, some d => d.cmd.nelts < d.cmd.nalloc
  | _, _ => True

/-- An argument vector is read from one slot more than are in use: that one is there. -/
def LeavesSlot (op : TableOp) (r : Option DbugHeap) (_ : World) : Prop :=
  match op, r with
  | .argv, some d => d.cmd.nelts < d.cmd.nalloc
  | _, _ => True

def Tables.apply (t : Tables) : TableOp → Tables
  | .line line => { t with cmd := takeLine t.cmd line }
  | .entry fields => { t with bps := t.bps ++ [record fields] }
  | .argv => t

def Tables.init : Tables := ⟨.create, []⟩

section
variable {L : Nat → Option Nat} {strs : List Region} {t : Tables} {d d' : DbugHeap}
  {r : Option DbugHeap} {w w' : World} {op : TableOp} {ops : List TableOp}

/-- What `ngx_array_create` has left shows no strings. -/
theorem cmdShown_create {c : NgxArrayT} (hok : c.Ok) (hnelts : c.nelts = 0)
    (hsize : c.size = sizeofStr) (hz : cells w.mem c.tail = .replicate c.tail.size 0) :
    CmdShown w.mem [] c .create := by
  refine ⟨hok, hsize, hnelts, ?_, fun k _ => NgxArray.slot_create k⟩
  intro k hk
  have htail : c.tail = c.room := by
    rw [NgxArrayT.tail, hnelts, Nat.mul_zero]
    rfl
  rw [htail] at hz
  rw [NgxArray.slot_create]
  have hzero := cells_zero_part (slot_within hk) hz
  rw [IsSlot, hzero, NgxArrayT.slot, hsize]

theorem wp_initDbugHeap :
    wp poolKernel Harmless initDbugHeap (Leads w.heap.live [] w .init) w := by
  rw [initDbugHeap]
  refine wp_seq (wp_ngxCreatePool (by decide) (by decide)) ?_
  rintro x w₁ ⟨-, -, hmade⟩
  cases x with
  | none => exact leads_none
  | some pool =>
      obtain ⟨hold, hblank, -, -⟩ := hmade pool rfl
      refine wp_seq (wp_ngxArrayCreate (n := 10) hold (by decide) (by decide) (by decide)) ?_
      rintro ⟨y, pool₁⟩ w₂ hb
      cases y with
      | none =>
          refine wp_seq (wp_ngxArrayCreate (n := 10) (hb.refused rfl) (by decide) (by decide)
            (by decide)) ?_
          rintro ⟨z, pool₂⟩ w₃ -
          exact leads_none
      | some bps =>
          obtain ⟨hbok, hbn, hbs, -, hold₁⟩ := hb.made bps rfl
          refine wp_seq (wp_ngxArrayCreate (n := 10) hold₁ (by decide) (by decide) (by decide)) ?_
          rintro ⟨z, pool₂⟩ w₃ hc
          cases z with
          | none => exact leads_none
          | some cmd =>
              obtain ⟨hcok, hcn, hcs, -, hold₂⟩ := hc.made cmd rfl
              have hblank₁ := hb.keeps.blank hblank
              have hnone : Lists w₂.mem bps [] := by
                refine ⟨hbok, hbn.symm, fun e he => absurd he List.not_mem_nil, ?_⟩
                rw [NgxArrayT.used, hbn, Nat.mul_zero]
                rfl
              obtain ⟨hbps, htail⟩ := entries_frame hnone (hb.fresh hblank bps rfl)
                (hc.keeps.kept _ (by simp))
              rintro _ ⟨⟩
              exact ⟨[], List.Subset.refl _, fun o ho => absurd ho List.not_mem_nil, hold₂,
                hc.keeps.blank hblank₁,
                cmdShown_create hcok hcn hcs (hc.fresh hblank₁ cmd rfl), hbps, hbs, htail⟩

/-- The step. -/
theorem wp_stepTable (h : InMemory L strs t d w) (hop : Allowed op (some d) w) :
    wp poolKernel Harmless (stepTable op d) (Leads L strs w (t.apply op)) w := by
  cases op with
  | line line => exact wp_putLine h line
  | entry fields => exact wp_putEntry h hop
  | argv =>
      refine wp_seq (wp_putArgv h hop) ?_
      rintro r w₁ hr d' hd'
      obtain ⟨⟨argv, d₁⟩, rfl, rfl⟩ := Option.map_eq_some_iff.mp hd'
      obtain ⟨strs₁, hsub, hkept, hshown, -⟩ := hr argv d₁ rfl
      exact ⟨strs₁, hsub, hkept, hshown⟩

/-- A session that went well goes on well. -/
theorem Leads.serve (h : Leads L strs w t r w') (hop : Allowed op r w') :
    wp poolKernel Harmless (serveTable op r) (Leads L strs w (t.apply op)) w' := by
  refine h.seq (f := stepTable op) fun strs' d hd hshown => ?_
  subst hd
  exact wp_stepTable hshown hop

/-- The run. -/
theorem Leads.run (h : Leads L strs w t r w') {r' : Option DbugHeap} {w'' : World}
    (hrun : Runs poolKernel serveTable Allowed r w' ops r' w'') :
    Leads L strs w (ops.foldl Tables.apply t) r' w'' := by
  refine hrun.history (fun js r w' => Leads L strs w (js.foldl Tables.apply t) r w')
    (I := fun _ => Harmless) [] ?_ h
  intro js op r w' hop hleads
  simp only [List.foldl_append, List.foldl_cons, List.foldl_nil]
  exact hleads.serve hop

end

/-! ## A first line -/

/-- The tables as `init_dbug` makes them, in one block at 16. -/
def firstHeap : DbugHeap :=
  ⟨onePool 4096 560, ⟨80, 120, 0, sizeofBreakpoint, 10⟩, ⟨440, 480, 0, sizeofStr, 10⟩⟩

def firstMem : Mem 64 Byte := put (fun _ => 0) 16 (.replicate 4096 0)

def dbugWorld (m : Mem 64 Byte) : World := oneWorld 4096 (by decide) m

theorem init_first : Ends poolKernel initDbugHeap ⟨.empty fun _ => 0, []⟩ (some firstHeap)
    (dbugWorld firstMem) :=
  ends_bind.mpr ⟨_, _, onePool_created (by decide) (by decide), .refl _ _⟩

/-- The tables after the line `c`. -/
def wordHeap : DbugHeap :=
  ⟨onePool 4096 562, ⟨80, 120, 0, sizeofBreakpoint, 10⟩, ⟨440, 480, 1, sizeofStr, 10⟩⟩

/-- The string is at 640, and the slot points to it. -/
def stringMem : Mem 64 Byte :=
  put (put (put (put firstMem 640 [0, 0]) 640 [99]) 641 [0]) 488 (toBytes 640)

def wordMem : Mem 64 Byte := put stringMem 480 (toBytes 1)

theorem store_dbugWorld (m : Mem 64 Byte) (a : Nat) (bs : List Byte) :
    poolKernel (.store a bs) (dbugWorld m) () (dbugWorld (put m a bs)) := ⟨⟨rfl, rfl⟩, rfl⟩

theorem line_first : Runs poolKernel serveTable Allowed (some firstHeap) (dbugWorld firstMem)
    [.line continueLine] (some wordHeap) (dbugWorld wordMem) := by
  have h₁ : poolKernel (.load 640 1) (dbugWorld stringMem) [99] (dbugWorld stringMem) := ⟨rfl, rfl⟩
  have h₂ : poolKernel (.load 641 1) (dbugWorld stringMem) [0] (dbugWorld stringMem) := ⟨rfl, rfl⟩
  refine .cons trivial ?_ (.nil _ _)
  refine .step (store_dbugWorld _ 640 [0, 0]) (.step (store_dbugWorld _ 640 [99]) ?_)
  refine .step (store_dbugWorld _ 641 [0]) (.step (store_dbugWorld _ 488 (toBytes 640)) ?_)
  refine .step h₁ (.step h₂ ?_)
  exact .step (store_dbugWorld _ 480 (toBytes 1)) (.refl _ _)

/-- The argument vector is at 648. -/
def argvHeap : DbugHeap := { wordHeap with pool := onePool 4096 576 }

def argvMem : Mem 64 Byte :=
  put (put wordMem 648 (.replicate 8 0)) 648 (cells (put wordMem 648 (.replicate 8 0)) ⟨504, 8⟩)

theorem argv_first : Ends poolKernel (putArgv wordHeap) (dbugWorld wordMem) (some (648, argvHeap))
    (dbugWorld argvMem) := by
  have h₁ : poolKernel (.load 504 8) (dbugWorld (put wordMem 648 (.replicate 8 0)))
      (cells (put wordMem 648 (.replicate 8 0)) ⟨504, 8⟩)
      (dbugWorld (put wordMem 648 (.replicate 8 0))) := ⟨rfl, rfl⟩
  refine .step (store_dbugWorld _ 648 (.replicate 8 0)) (.step h₁ ?_)
  exact .step (store_dbugWorld _ 648 _) (.refl _ _)

/-! ## What the memory shows -/

/-- **The tables in memory.**  Whatever was typed, if every `dbug` left the array a
slot, the bytes of `cmd` and `bps` are the tables, and no request of the next
step that does so can do damage. -/
theorem tables_in_memory {w₀ w₁ w : World} {r₀ r : Option DbugHeap} {ops : List TableOp}
    (hinit : Ends poolKernel initDbugHeap w₀ r₀ w₁)
    (hrun : Runs poolKernel serveTable Allowed r₀ w₁ ops r w) :
    (∀ d, r = some d → ∃ strs, InMemory w₀.heap.live strs (ops.foldl Tables.apply .init) d w) ∧
      ∀ op, Allowed op r w → Safe poolKernel Harmless (serveTable op r) w := by
  have h := (wp_initDbugHeap.ends hinit).run hrun
  constructor
  · intro d hd
    obtain ⟨strs, -, -, hshown⟩ := h d hd
    exact ⟨strs, hshown⟩
  · exact fun op hop => (h.serve hop).safe

theorem tables_in_memory_first :
    (∀ d, some wordHeap = some d →
      ∃ strs, InMemory (fun _ => none) strs (Tables.init.apply (.line continueLine)) d
        (dbugWorld wordMem)) ∧
      ∀ op, Allowed op (some wordHeap) (dbugWorld wordMem) →
        Safe poolKernel Harmless (serveTable op (some wordHeap)) (dbugWorld wordMem) :=
  tables_in_memory init_first line_first

/-- **The argument vector.**  What `command_dbug` gives to `execvp` are the
addresses of the words behind the first, NULL where there is none, and it stays
so whatever is typed afterwards: as long as every `dbug`, earlier or later, leaves
the array a slot. -/
theorem argv_in_memory {w₀ w₁ w w' w'' : World} {r₀ : Option DbugHeap} {d d' d'' : DbugHeap}
    {ops ops' : List TableOp} {argv : Nat} (hinit : Ends poolKernel initDbugHeap w₀ r₀ w₁)
    (hrun : Runs poolKernel serveTable Allowed r₀ w₁ ops (some d) w)
    (hroom : d.cmd.nelts < d.cmd.nalloc)
    (hargv : Ends poolKernel (putArgv d) w (some (argv, d')) w')
    (hlater : Runs poolKernel serveTable Allowed (some d') w' ops' (some d'') w'') :
    ∃ strs, ∀ j < d.cmd.nelts, IsPtr w''.mem strs (cells w''.mem ⟨argv + 8 * j, 8⟩)
      ((ops.foldl Tables.apply .init).cmd.slot (j + 1)) := by
  obtain ⟨strs, -, -, hshown⟩ := (wp_initDbugHeap.ends hinit).run hrun d rfl
  obtain ⟨strs', -, -, hshown', hptrs⟩ := (wp_putArgv hshown hroom).ends hargv argv d' rfl
  obtain ⟨strs'', hsub, hkept, -⟩ := hshown'.stays.run hlater d'' rfl
  refine ⟨strs'', ?_⟩
  rw [hshown.cmd.nelts]
  intro j hj
  obtain ⟨hmem, hptr⟩ := hptrs j hj
  have hin : Region.Within ⟨argv + 8 * j, 8⟩
      ⟨argv, 8 * (ops.foldl Tables.apply .init).cmd.nelts⟩ := by
    simp only [Region.Within, Region.fin_mk]
    omega
  rw [cells_eq_within hin (hkept _ hmem)]
  exact hptr.frame hsub hkept

theorem argv_in_memory_first : ∃ strs, ∀ j < 1,
    IsPtr argvMem strs (cells argvMem ⟨648 + 8 * j, 8⟩)
      ((Tables.init.apply (.line continueLine)).cmd.slot (j + 1)) :=
  argv_in_memory init_first line_first (by decide) argv_first (.nil _ _)

/-! ## While there is memory -/

/-- `calloc` never fails. -/
def Rich {σ : Type} (K : Kernel PoolResp σ) : Prop := ∀ n s x s', K (.calloc n) s x s' → x ≠ none

section
variable {σ : Type} {K : Kernel PoolResp σ} {s : σ} {pool : NgxPool} {size : Nat}

theorem rich_pallocSmall (hK : Rich K) (align : Bool) :
    wp K Free (ngxPallocSmall pool size align) (fun r _ => r.1 ≠ none) s := by
  rw [ngxPallocSmall]
  split
  · exact Option.some_ne_none _
  · refine wp_ask trivial ?_
    intro x s' hx
    cases x with
    | none => exact absurd rfl (hK _ _ _ _ hx)
    | some new => exact Option.some_ne_none _

theorem rich_palloc (hK : Rich K) :
    wp K Free (ngxPalloc pool size) (fun r _ => r.1 ≠ none) s := by
  rw [ngxPalloc]
  split
  · exact rich_pallocSmall hK true
  · refine wp_ask trivial ?_
    intro x s' hx
    cases x with
    | none => exact absurd rfl (hK _ _ _ _ hx)
    | some p =>
        simp only
        split
        · exact Option.some_ne_none _
        · refine wp_seq (rich_pallocSmall hK true) ?_
          rintro ⟨large, pool'⟩ s₁ hlarge
          cases large with
          | none => exact absurd rfl hlarge
          | some large => exact Option.some_ne_none _

theorem rich_pcalloc (hK : Rich K) :
    wp K Free (ngxPcalloc pool size) (fun r _ => r.1 ≠ none) s := by
  refine wp_seq (rich_palloc hK) ?_
  rintro ⟨p, pool'⟩ s₁ hp
  cases p with
  | none => exact absurd rfl hp
  | some a => exact wp_ask trivial fun _ _ _ => Option.some_ne_none _

theorem rich_arrayCreate (hK : Rich K) {n : Nat} :
    wp K Free (ngxArrayCreate pool n size) (fun r _ => r.1 ≠ none) s := by
  refine wp_seq (rich_palloc hK) ?_
  rintro ⟨a, pool'⟩ s₁ ha
  cases a with
  | none => exact absurd rfl ha
  | some a =>
      refine wp_seq (rich_palloc hK) ?_
      rintro ⟨elts, pool''⟩ s₂ helts
      cases elts with
      | none => exact absurd rfl helts
      | some elts => exact Option.some_ne_none _

theorem rich_arrayPush (hK : Rich K) {a : NgxArrayT} :
    wp K Free (ngxArrayPush a pool) (fun r _ => r.1 ≠ none) s := by
  rw [ngxArrayPush]
  split
  · simp only
    split
    · exact Option.some_ne_none _
    · have hmove : ∀ bytes len nalloc : Nat,
          wp K Free (ngxArrayMove a pool bytes len nalloc) (fun r _ => r.1 ≠ none) s := by
        intro bytes len nalloc
        refine wp_seq (rich_palloc hK) ?_
        rintro ⟨new, pool'⟩ s₁ hnew
        cases new with
        | none => exact absurd rfl hnew
        | some new =>
            exact wp_ask trivial fun _ _ _ => wp_ask trivial fun _ _ _ => Option.some_ne_none _
      refine wp_seq (hmove _ _ _) ?_
      rintro ⟨x, pool'⟩ s₁ hx
      cases x with
      | none => exact absurd rfl hx
      | some a => exact Option.some_ne_none _
  · exact Option.some_ne_none _

/-- A program that returns no NULL pointer whatever it is answered otherwise. -/
theorem rich_after {α : Type} {β : Type} (p : Pool α) {f : α → Pool (Option β)}
    (h : ∀ a s', wp K Free (f a) (fun r _ => r ≠ none) s') :
    wp K Free (p >>= f) (fun r _ => r ≠ none) s :=
  wp_seq (wp_free_iff.mpr fun _ _ _ => trivial : wp K Free p (fun _ _ => True) s)
    fun a s' _ => h a s'

theorem rich_putWord (hK : Rich K) {d : DbugHeap} {word : CStr} :
    wp K Free (putWord d word) (fun r _ => r ≠ none) s := by
  have hcopy : wp K Free (copyWord d.pool word) (fun r _ => r.1 ≠ none) s := by
    refine wp_seq (rich_pcalloc hK) ?_
    rintro ⟨p, pool'⟩ s₁ hp
    cases p with
    | none => exact absurd rfl hp
    | some p =>
        exact wp_ask trivial fun _ _ _ => wp_ask trivial fun _ _ _ => Option.some_ne_none _
  refine wp_seq hcopy ?_
  rintro ⟨p, pool'⟩ s₁ hp
  cases p with
  | none => exact absurd rfl hp
  | some p =>
      refine wp_seq (rich_arrayPush hK) ?_
      rintro ⟨str, cmd, pool''⟩ s₂ hstr
      cases str with
      | none => exact absurd rfl hstr
      | some str => exact rich_after _ fun _ _ => Option.some_ne_none _

theorem rich_putWords (hK : Rich K) {n : Nat} {buf : List Byte} {d : DbugHeap} :
    wp K Free (putWords n buf d) (fun r _ => r ≠ none) s := by
  induction n generalizing buf d s with
  | zero => exact Option.some_ne_none _
  | succ n ih =>
      cases buf with
      | nil => exact Option.some_ne_none _
      | cons c cs =>
          rw [putWords]
          split
          · exact ih
          · split
            · refine wp_seq (rich_putWord hK) ?_
              intro r s₁ hr
              cases r with
              | none => exact absurd rfl hr
              | some d => exact ih
            · exact ih

theorem rich_stepTable (hK : Rich K) (op : TableOp) {d : DbugHeap} :
    wp K Free (stepTable op d) (fun r _ => r ≠ none) s := by
  cases op with
  | line line => exact rich_putWords hK
  | entry fields =>
      refine wp_seq (rich_arrayPush hK) ?_
      rintro ⟨bp, bps, pool'⟩ s₁ hbp
      cases bp with
      | none => exact absurd rfl hbp
      | some bp => exact rich_after _ fun _ _ => Option.some_ne_none _
  | argv =>
      have hargv : wp K Free (putArgv d) (fun r _ => r ≠ none) s := by
        refine wp_seq (rich_pcalloc hK) ?_
        rintro ⟨p, pool'⟩ s₁ hp
        cases p with
        | none => exact absurd rfl hp
        | some p => exact rich_after _ fun _ _ => Option.some_ne_none _
      refine wp_seq hargv ?_
      intro r s₁ hr
      cases r with
      | none => exact absurd rfl hr
      | some r => exact Option.some_ne_none _

theorem rich_init (hK : Rich K) : wp K Free initDbugHeap (fun r _ => r ≠ none) s := by
  have hcreate : wp K Free (ngxCreatePool 4096) (fun r _ => r ≠ none) s := by
    refine wp_ask trivial ?_
    intro x s₁ hx
    cases x with
    | none => exact absurd rfl (hK _ _ _ _ hx)
    | some p => exact Option.some_ne_none _
  refine wp_seq hcreate ?_
  intro r s₁ hr
  cases r with
  | none => exact absurd rfl hr
  | some pool =>
      refine wp_seq (rich_arrayCreate hK) ?_
      rintro ⟨bps, pool₁⟩ s₂ hbps
      refine wp_seq (rich_arrayCreate hK) ?_
      rintro ⟨cmd, pool₂⟩ s₃ hcmd
      cases bps with
      | none => exact absurd rfl hbps
      | some bps =>
          cases cmd with
          | none => exact absurd rfl hcmd
          | some cmd => exact Option.some_ne_none _

end

/-- As long as `calloc` does not fail, no NULL pointer comes out of the pool:
not when the tables are made, and not in any session after that. -/
theorem never_null {σ : Type} {K : Kernel PoolResp σ} {s₀ s₁ s : σ} {r₀ r : Option DbugHeap}
    {ops : List TableOp} (hK : Rich K) (hinit : Ends K initDbugHeap s₀ r₀ s₁)
    (hrun : Runs K serveTable Always r₀ s₁ ops r s) : r ≠ none := by
  refine hrun.invariant (fun r _ => r ≠ none) (I := fun _ => Free) ?_ ((rich_init hK).ends hinit)
  intro op r s _ hr
  cases r with
  | none => exact absurd rfl hr
  | some d => exact rich_stepTable hK op

/-- What the first line is answered: a block at 16, and the string at 640. -/
def firstHandler : Handler PoolResp Unit
  | .calloc _, _ => some (some 16, ())
  | .load a _, _ => some (if a = 640 then [99] else [0], ())
  | .free _, _ | .store _ _, _ | .close _, _ | .unlink _, _ | .callback _ _, _ => some ((), ())

theorem never_null_first : some wordHeap ≠ none := by
  have hrich : Rich firstHandler.kernel := by
    intro n s x s' hx
    obtain ⟨rfl, -⟩ := Prod.mk.inj (Option.some.inj hx)
    exact Option.some_ne_none _
  have hinit : Ends firstHandler.kernel initDbugHeap () (some firstHeap) () :=
    eval_ends (fun _ _ _ _ h => h) rfl
  have hline : Ends firstHandler.kernel (serveTable (.line continueLine) (some firstHeap)) ()
      (some wordHeap) () := eval_ends (fun _ _ _ _ h => h) rfl
  exact never_null hrich hinit (.cons trivial hline (.nil _ _))

/-! ## The entries -/

/-- The value of a `type`. -/
def BpType.code : BpType → Byte
  | .unset => 0
  | .SFBP => 1
  | .HWBP => 2

/-- A `struct breakpoint`, where `names` has put the names of the functions. -/
def Breakpoint.bytes (names : CStr → Word) (bp : Breakpoint) : List Byte :=
  toBytes ((bp.name.map names).getD 0) ++ bp.type.code :: .replicate 7 0 ++ toBytes bp.addr ++
    toBytes bp.orig_code

/-- The fields `command_break` and `insert_INT3_bp` set. -/
def breakFields (name addr : Word) (code : Byte) : List (Nat × List Byte) :=
  [(0, toBytes name), (16, toBytes addr), (8, [BpType.SFBP.code]), (24, [code])]

/-- The fields `command_watch` and `insert_hard_break` set; `sscanf` may have set none. -/
def watchFields (addr : Option Word) : List (Nat × List Byte) :=
  (addr.map fun a => (16, toBytes a)).toList ++ [(8, [BpType.HWBP.code])]

theorem fit_breakFields (name addr : Word) (code : Byte) :
    Fit sizeofBreakpoint (breakFields name addr code) := by
  simp [Fit, breakFields, sizeofBreakpoint]

theorem fit_watchFields (addr : Option Word) : Fit sizeofBreakpoint (watchFields addr) := by
  cases addr <;> simp [Fit, watchFields, sizeofBreakpoint]

theorem record_break (name addr : Word) (code : Byte) : record (breakFields name addr code) =
    toBytes name ++ BpType.SFBP.code :: .replicate 7 0 ++ toBytes addr ++
      code :: .replicate 7 0 := rfl

theorem record_watch (addr : Option Word) : record (watchFields addr) =
    .replicate 8 0 ++ BpType.HWBP.code :: .replicate 7 0 ++ toBytes (addr.getD 0) ++
      .replicate 8 0 := by
  cases addr with
  | none => rfl
  | some a => rfl

/-! ## The rounds of `main` -/

/-- The tables of a debugger. -/
def Dbug.tables (names : CStr → Word) (dbug : Dbug) : Tables :=
  ⟨dbug.cmd, dbug.bps.map (Breakpoint.bytes names)⟩

/-- What a round does to the tables, if `b` finds the symbol `f` and `code` is the byte there. -/
def roundOps (names : CStr → Word) (cmd : NgxArray) (line : Line) (f : Option (FuncOrg × Byte)) :
    List TableOp :=
  let cmd := takeLine cmd line
  .line line ::
    if cmd.str 0 = some nameB then
      (f.map fun f => .entry (breakFields (names f.1.name) f.1.addr f.2)).toList
    else if cmd.str 0 = some nameWatch then
      [.entry (watchFields ((cmd.str 1).bind sscanfLx))]
    else if cmd.str 0 = some nameDbug then [.argv]
    else []

/-- The entry `find_func` finds for the first argument. -/
def foundFunc (funs : Option FunArr) (arg : NgxArray) : Option FuncOrg :=
  (findFunc funs (arg.str 1)).map fun index => (funs.getD []).getD index ⟨[], 0⟩

/-- The rounds of a run of `main`: the line that was read in each, and for a `b` the
symbol it found and the byte it saved. -/
inductive Rounds {σ : Type} (K : Kernel Resp σ) :
    Dbug → σ → List (Line × Option (FuncOrg × Byte)) → Dbug → σ → Prop
  | nil (d : Dbug) (s : σ) : Rounds K d s [] d s
  | cons {d d₁ d₂ : Dbug} {s s₁ s₂ s₃ s₄ : σ} {line : Line} {f : Option (FuncOrg × Byte)}
      {rounds : List (Line × Option (FuncOrg × Byte))} :
      K (.print .prompt) s () s₁ → K (.fgets 50) s₁ line s₂ →
      Ends K (play (takeLine d.cmd line) d) s₂ d₁ s₃ →
      ((takeLine d.cmd line).str 0 = some nameB →
        f.map Prod.fst = foundFunc d.funs (takeLine d.cmd line)) →
      Rounds K d₁ s₃ rounds d₂ s₄ → Rounds K d s ((line, f) :: rounds) d₂ s₄

/-- What they do to the tables. -/
def sessionOps (names : CStr → Word) : NgxArray → List (Line × Option (FuncOrg × Byte)) →
    List TableOp
  | _, [] => []
  | cmd, (line, f) :: rounds =>
      roundOps names cmd line f ++ sessionOps names (takeLine cmd line) rounds

section
variable {names : CStr → Word} {dbug : Dbug} {arg : NgxArray} {bp : Breakpoint} {pid : Pid}

/-- `insert_INT3_bp` saves whatever byte it reads. -/
theorem emits_planted :
    Emits (fun _ => True) (fun x => ∃ b, x.2 = bp.planted b) (insertINT3Bp pid bp) := by
  rw [insertINT3Bp]
  have hread : Emits (fun _ => True)
      (fun x : Int × List Byte => ∃ b, x.2 = b :: (toBytes bp.orig_code).drop 1)
      (readProMem pid bp.addr (toBytes bp.orig_code) 1) := by
    rw [readProMem, show 1 / WORD = 0 from rfl, readLoop, if_pos (by decide)]
    refine .ask trivial fun x => ?_
    rw [if_neg (not_data_lt_zero _)]
    exact ⟨_, rfl⟩
  refine hread.seq ?_
  rintro ⟨_, code⟩ ⟨b, rfl⟩
  refine (emits_writeProMem.mono (fun _ _ => trivial) fun _ h => h).seq fun _ _ => ?_
  exact .ask trivial fun _ => ⟨b, rfl⟩

theorem bytes_planted (f : FuncOrg) (b : Byte) :
    Breakpoint.bytes names (Breakpoint.planted { name := some f.name, addr := f.addr } b) =
      record (breakFields (names f.name) f.addr b) := by
  have hcode : toBytes (ofBytes (b :: (toBytes 0).drop 1)) = b :: .replicate 7 0 :=
    toBytes_ofBytes rfl
  rw [record_break]
  simp only [Breakpoint.bytes, Breakpoint.planted, hcode]
  rfl

/-- What `insert_hard_break` leaves in the table entry. -/
theorem emits_watched :
    Emits (fun _ => True) (fun x => x.2 = { bp with type := .HWBP }) (insertHardBreak pid bp) := by
  rw [insertHardBreak]
  refine .ask trivial fun ok => emits_warn trivial ?_
  exact .ask trivial fun ok => emits_warn trivial rfl

theorem bytes_watched (addr : Option Word) :
    Breakpoint.bytes names { addr := addr.getD 0, type := .HWBP } = record (watchFields addr) := by
  have hzero : toBytes 0 = .replicate 8 0 := by decide
  rw [record_watch, ← hzero]
  rfl

/-- A handler that keeps the two tables. -/
theorem emits_keeps {P : Req → Prop} {V : Int × Dbug → Prop} {p : Dbg (Int × Dbug)}
    (hp : Emits P V p) (hV : ∀ x, V x → x.2.bps = dbug.bps ∧ x.2.cmd = dbug.cmd) :
    Emits (fun _ => True) (fun d => d.tables names = dbug.tables names)
      (p >>= fun x => Prog.ret x.2) := by
  refine (hp.mono (fun _ _ => trivial) hV).seq ?_
  rintro x ⟨hbps, hcmd⟩
  show Tables.mk _ _ = Tables.mk _ _
  rw [hbps, hcmd]

/-- `command_break` appends the entry of the symbol, if there is one. -/
theorem emits_break_entry :
    Emits (fun _ => True) (fun x => ∃ f : Option (FuncOrg × Byte),
      f.map Prod.fst = foundFunc dbug.funs arg ∧ x.2 = { dbug with
        bps := dbug.bps ++ (f.map fun f =>
          Breakpoint.planted { name := some f.1.name, addr := f.1.addr } f.2).toList })
      (commandBreak dbug arg) := by
  rw [commandBreak, foundFunc]
  cases findFunc dbug.funs (arg.str 1) with
  | none =>
      refine ⟨none, rfl, ?_⟩
      simp
  | some index =>
      refine emits_planted.seq ?_
      rintro ⟨_, _⟩ ⟨b, rfl⟩
      exact ⟨some (_, b), rfl, rfl⟩

/-- `command_watch` appends the entry of the address. -/
theorem emits_watch_entry :
    Emits (fun _ => True) (fun x => x.2 = { dbug with
      bps := dbug.bps ++ [{ addr := ((arg.str 1).bind sscanfLx).getD 0, type := .HWBP }] })
      (commandWatch dbug arg) := by
  rw [commandWatch]
  cases arg.str 1 with
  | none => exact .ask trivial fun x => x.elim
  | some s =>
      refine .ask trivial fun _ => emits_watched.seq ?_
      rintro ⟨_, _⟩ rfl
      rfl

/-- The commands that have no say in the tables. -/
theorem emits_other (names : CStr → Word) (hb : arg.str 0 ≠ some nameB)
    (hwatch : arg.str 0 ≠ some nameWatch) :
    Emits (fun _ => True) (fun d => d.tables names = { dbug with cmd := arg }.tables names)
      (play arg dbug) := by
  refine play_cases (.ask trivial fun _ => rfl) ?_
  simp only [cmdSet, List.forall_mem_cons, List.not_mem_nil, false_implies, implies_true, and_true]
  refine ⟨fun h => absurd h hb, fun _ => ?_, fun _ => ?_, fun _ => ?_, fun _ => ?_, fun _ => ?_,
    fun h => absurd h hwatch, fun _ => ?_, fun _ => ?_, fun _ => ?_, fun _ => ?_⟩
  · refine emits_keeps emits_continue ?_
    rintro x ⟨_, _, hx⟩
    rw [hx]
    exact ⟨rfl, rfl⟩
  · exact emits_keeps emits_show fun x hx => by rw [hx]; exact ⟨rfl, rfl⟩
  · exact emits_keeps emits_dbug fun x hx => hx
  · exact emits_keeps emits_attach fun x hx => hx
  · refine emits_keeps emits_showreg ?_
    rintro x ⟨_, hx⟩
    rw [hx]
    exact ⟨rfl, rfl⟩
  · exact emits_keeps (emits_exit (V := fun _ => False)) fun x hx => hx.elim
  · exact emits_keeps (emits_exit (V := fun _ => False)) fun x hx => hx.elim
  · exact emits_keeps (emits_exit (V := fun _ => False)) fun x hx => hx.elim
  · exact emits_keeps emits_showbps fun x hx => by rw [hx]; exact ⟨rfl, rfl⟩

/-- What a command does to the tables. -/
theorem emits_play_tables (names : CStr → Word) (dbug : Dbug) (line : Line) :
    Emits (fun _ => True) (fun d => ∃ f : Option (FuncOrg × Byte),
      ((takeLine dbug.cmd line).str 0 = some nameB →
        f.map Prod.fst = foundFunc dbug.funs (takeLine dbug.cmd line)) ∧
      d.cmd = takeLine dbug.cmd line ∧
      d.tables names = (roundOps names dbug.cmd line f).foldl Tables.apply (dbug.tables names))
      (play (takeLine dbug.cmd line) dbug) := by
  by_cases hb : (takeLine dbug.cmd line).str 0 = some nameB
  · rw [play_break hb]
    refine emits_break_entry.seq ?_
    rintro ⟨_, _⟩ ⟨f, hf, rfl⟩
    refine ⟨f, fun _ => hf, rfl, ?_⟩
    rw [roundOps, if_pos hb]
    cases f with
    | none => simp [Tables.apply, Dbug.tables]
    | some f =>
        simp only [Dbug.tables, Option.map_some, Option.toList_some, List.map_append,
          List.map_singleton, bytes_planted]
        rfl
  · by_cases hw : (takeLine dbug.cmd line).str 0 = some nameWatch
    · rw [play_watch hw]
      refine emits_watch_entry.seq ?_
      rintro ⟨_, _⟩ rfl
      refine ⟨none, fun h => absurd h hb, rfl, ?_⟩
      rw [roundOps, if_neg hb, if_pos hw]
      simp only [Dbug.tables, List.map_append, List.map_singleton, bytes_watched]
      rfl
    · refine (emits_other names hb hw).mono (fun _ h => h) fun d hd =>
        ⟨none, fun h => absurd h hb, ?_, ?_⟩
      · exact congrArg Tables.cmd hd
      · rw [hd, roundOps, if_neg hb, if_neg hw]
        split
        · rfl
        · rfl

variable {σ : Type} {K : Kernel Resp σ} {s s' : σ} {dbug' : Dbug}
  {rounds : List (Line × Option (FuncOrg × Byte))}

/-- A run of `main` goes round by round. -/
theorem mainLoop_rounds (names : CStr → Word) {n : Nat}
    (h : Ends K (mainLoop n dbug) s dbug' s') :
    ∃ rounds, Rounds K dbug s rounds dbug' s' ∧ rounds.length = n ∧
      dbug'.tables names =
        (sessionOps names dbug.cmd rounds).foldl Tables.apply (dbug.tables names) := by
  induction n generalizing dbug s with
  | zero =>
      obtain ⟨rfl, rfl⟩ := ends_ret.mp h
      exact ⟨[], .nil _ _, rfl, rfl⟩
  | succ n ih =>
      rw [mainLoop, round_eq, ends_bind] at h
      obtain ⟨d₁, s₃, hround, h⟩ := h
      obtain ⟨_, s₁, hprompt, hround⟩ := ends_ask.mp hround
      obtain ⟨line, s₂, hgets, hplay⟩ := ends_ask.mp hround
      obtain ⟨f, hf, hcmd, hfold⟩ := (emits_play_tables names dbug line).of_ends hplay
      obtain ⟨rounds, hrounds, hlen, hrest⟩ := ih h
      refine ⟨(line, f) :: rounds, .cons hprompt hgets hplay hf hrounds, ?_, ?_⟩
      · rw [List.length_cons, hlen]
      · rw [hrest, sessionOps, List.foldl_append, hfold, hcmd]

/-- Their lines are those of `stdin`. -/
theorem Rounds.lines {stdin : σ → List Byte} (hK : ReadsStdin K stdin)
    (h : Rounds K dbug s rounds dbug' s') :
    rounds.map Prod.fst = linesRead rounds.length (stdin s) := by
  induction h with
  | nil d s => rfl
  | cons hprompt hgets hplay hf hrest ih =>
      obtain ⟨hline, hleft⟩ := hK.line hgets
      rw [hK.others (fun size heq => by cases heq) hprompt] at hline hleft
      rw [List.map_cons, ih, ends_play_stdin hK hplay, hleft, hline]
      rfl

/-- The fields of an entry lie in it, so only an argument vector can fail. -/
theorem allowed_of_leavesSlot {cmd : NgxArray} {op : TableOp} {r : Option DbugHeap} {w : World}
    (hop : op ∈ sessionOps names cmd rounds) (h : LeavesSlot op r w) : Allowed op r w := by
  induction rounds generalizing cmd with
  | nil => cases hop
  | cons round rounds ih =>
      obtain ⟨line, f⟩ := round
      rcases List.mem_append.mp hop with hop | hop
      · rw [roundOps] at hop
        rcases List.mem_cons.mp hop with rfl | hop
        · trivial
        · split at hop
          · obtain ⟨g, -, rfl⟩ := Option.map_eq_some_iff.mp (Option.mem_toList.mp hop)
            exact fit_breakFields _ _ _
          · split at hop
            · obtain rfl := List.mem_singleton.mp hop
              exact fit_watchFields _
            · split at hop
              · obtain rfl := List.mem_singleton.mp hop
                cases r with
                | none => trivial
                | some d => exact h
              · cases hop
      · exact ih hop

end

/-- **The debugger's state is what its memory shows.**  However a session of
`n` rounds goes, its tables are what the lines read and the symbols found have
made of them.  Whenever these rounds have gone through the pool, with a slot
left at each `dbug`, the bytes of the two arrays are `cmd` and `bps`. -/
theorem rounds_in_memory {σ : Type} {K : Kernel Resp σ} {n : Nat} {dbug : Dbug} {s s' : σ}
    (names : CStr → Word) (h : Ends K (mainLoop n initDbug) s dbug s') :
    ∃ rounds, Rounds K initDbug s rounds dbug s' ∧ rounds.length = n ∧
      (∀ stdin, ReadsStdin K stdin → rounds.map Prod.fst = linesRead n (stdin s)) ∧
      dbug.tables names = (sessionOps names .create rounds).foldl Tables.apply .init ∧
      ∀ w₀ w₁ w r₀ r, Ends poolKernel initDbugHeap w₀ r₀ w₁ →
        Runs poolKernel serveTable LeavesSlot r₀ w₁ (sessionOps names .create rounds) r w →
        ∀ d, r = some d → ∃ strs, InMemory w₀.heap.live strs (dbug.tables names) d w := by
  obtain ⟨rounds, hrounds, hlen, htables⟩ := mainLoop_rounds names h
  refine ⟨rounds, hrounds, hlen, fun stdin hK => hlen ▸ hrounds.lines hK, htables, ?_⟩
  intro w₀ w₁ w r₀ r hinit hrun d hd
  have hallowed : Runs poolKernel serveTable Allowed r₀ w₁ (sessionOps names .create rounds) r w :=
    (hrun.guarded fun op hop => hop).mono fun op r w h => allowed_of_leavesSlot h.1 h.2
  obtain ⟨strs, -, -, hshown⟩ := (wp_initDbugHeap.ends hinit).run hallowed d hd
  rw [htables]
  exact ⟨strs, hshown⟩

/-- Somebody types `watch 10`, and the registers can be set. -/
def watchHandler : Handler Resp Unit
  | .print _, _ => some ((), ())
  | .fgets 50, _ => some (some ⟨lit ['w', 'a', 't', 'c', 'h', ' ', '1', '0', '\n'], by decide⟩, ())
  | .pokeuser .., _ => some (true, ())
  | _, _ => none

def watchedDbug : Dbug := { initDbug with
  cmd := typed ['w', 'a', 't', 'c', 'h', ' ', '1', '0', '\n']
  bps := [{ addr := 0x10, type := .HWBP }] }

theorem rounds_in_memory_watch :
    ∃ rounds, Rounds watchHandler.kernel initDbug () rounds watchedDbug () ∧ rounds.length = 1 ∧
      (∀ stdin, ReadsStdin watchHandler.kernel stdin →
        rounds.map Prod.fst = linesRead 1 (stdin ())) ∧
      watchedDbug.tables (fun _ => 0) =
        (sessionOps (fun _ => 0) .create rounds).foldl Tables.apply .init ∧
      ∀ w₀ w₁ w r₀ r, Ends poolKernel initDbugHeap w₀ r₀ w₁ →
        Runs poolKernel serveTable LeavesSlot r₀ w₁ (sessionOps (fun _ => 0) .create rounds) r w →
        ∀ d, r = some d →
          ∃ strs, InMemory w₀.heap.live strs (watchedDbug.tables fun _ => 0) d w :=
  rounds_in_memory (fun _ => 0) (eval_ends (h := watchHandler) (K := watchHandler.kernel)
    (p := mainLoop 1 initDbug) (s := ()) (fun _ _ _ _ h => h) rfl)

end TestDbug
