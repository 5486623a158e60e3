/-
# `TestDbug.Dbug` — the debugger's state and `dbug.c`

`struct dbug_struct`, the two arrays it owns, the function table, and the
functions of `dbug.c`: planting the two kinds of breakpoint, stepping over a
software breakpoint, looking up the breakpoint a stop belongs to, starting a
process and attaching to one.

The pool never gives memory back and hands out zeroed blocks, so a fresh slot
of either array is zero and keeps what is written to it.  `dbug->bps` is a
list; of `dbug->cmd` the slots behind the used ones matter as well, since the
handlers read them, and `NgxArray` keeps them.
-/
import TestDbug.Mem

open ByteMemory Interaction

namespace TestDbug

/-! ## `ngx_array_t` of `ngx_str_t` -/

/-- `ngx_str_t`.  Its `len` is always `strlen(data)`, and 0 in a slot that was
never written, where `data` is NULL. -/
abbrev NgxStr := Option CStr

/-- `ngx_array_t` of strings: all `nalloc` slots, of which `nelts` are in use.
It is created with ten slots and only grows. -/
structure NgxArray where
  elts : List NgxStr
  nelts : Nat
  room : 10 ≤ elts.length
  used : nelts ≤ elts.length

/-- `ngx_array_create(pool, 10, sizeof(ngx_str_t))`. -/
def NgxArray.create : NgxArray := ⟨List.replicate 10 none, 0, by decide, by decide⟩

/-- `nelts = 0`; the slots keep their contents. -/
def NgxArray.clear (a : NgxArray) : NgxArray := ⟨a.elts, 0, a.room, Nat.zero_le _⟩

/-- `ngx_array_push` and the store through the pointer it returns.  A full
array is copied into one of twice the size.  Where it grows in place instead
(the string pushed lies in another block of the pool), it gets one slot only,
and the other empty slots here are not there. -/
def NgxArray.push (a : NgxArray) (str : NgxStr) : NgxArray :=
  if h : a.nelts = a.elts.length then
    ⟨(a.elts ++ List.replicate a.elts.length none).set a.nelts str, a.nelts + 1,
      by have := a.room; simp; omega, by have := a.room; simp; omega⟩
  else
    ⟨a.elts.set a.nelts str, a.nelts + 1, by simpa using a.room,
      by have := a.used; rw [List.length_set]; omega⟩

/-- For the numerals of the ten slots. -/
instance neZero_slots : NeZero 10 := ⟨by decide⟩

/-- `str[k]` for a slot that is there whatever was typed. -/
def NgxArray.str (a : NgxArray) (k : Fin 10) : NgxStr :=
  a.elts.get ⟨k, Nat.lt_of_lt_of_le k.isLt a.room⟩

/-- `str[k].data` for any `k`. -/
def NgxArray.data (a : NgxArray) (k : Nat) : Dbg (Option CStr) :=
  if h : k < a.elts.length then return a.elts.get ⟨k, h⟩ else ask (.beyond k)

/-! ## Function symbols -/

/-- `find_func`; `none` is its -1.  `memcmp` over `strlen(func)` bytes asks
only that `func` be a prefix. -/
def findFunc (funs : Option FunArr) (func : Option CStr) : Option Nat :=
  match funs, func with
  | some funs, some func => funs.findIdx? (fun f => func.isPrefixOf f.name)
  | _, _ => none

/-! ## `struct dbug_struct` -/

/-- The `type` of a breakpoint; 0 until it is inserted. -/
inductive BpType where
  | unset
  | SFBP
  | HWBP
deriving DecidableEq

/-- `struct breakpoint`. -/
structure Breakpoint where
  name : Option CStr := none
  type : BpType := .unset
  addr : Word := 0
  orig_code : Word := 0

/-- `struct dbug_struct`. -/
structure Dbug where
  pid : Pid
  status : Nat
  bps : List Breakpoint
  cmd : NgxArray
  regs : UserRegs
  funs : Option FunArr

/-- `init_dbug` on the zeroed structure of `main`. -/
def initDbug : Dbug where
  pid := 0
  status := 0
  bps := []
  cmd := .create
  regs := {}
  funs := none

/-! ## Breakpoints -/

/-- `INT_3`. -/
def INT_3 : Byte := 0xCC

/-- The low byte of `orig_code`. -/
def Breakpoint.origByte (bp : Breakpoint) : Byte := bp.orig_code.setWidth 8

/-- `insert_INT3_bp`: the result and the breakpoint as it leaves it.  What
`read_pro_mem` and `write_pro_mem` return is dropped. -/
def insertINT3Bp (pid : Pid) (bp : Breakpoint) : Dbg (Int × Breakpoint) := do
  let bp := { bp with type := .SFBP }
  let (_, code) ← readProMem pid bp.addr (toBytes bp.orig_code) 1
  let bp := { bp with orig_code := ofBytes code }
  let _ ← writeProMem pid bp.addr [INT_3] 1
  ask (.print (.breakAt bp.addr bp.name))
  return (0, bp)

/-- `struct DR7` with `L0` and `G0` set, as a word. -/
def dr7Word : Word := 0x3

/-- `insert_hard_break`. -/
def insertHardBreak (pid : Pid) (bp : Breakpoint) : Dbg (Int × Breakpoint) := do
  let bp := { bp with type := .HWBP }
  let ok ← ask (.pokeuser pid 0 bp.addr)
  unless ok do
    ask (.print (.perror "tracer, faile to set DR_0\n"))
  let ok ← ask (.pokeuser pid 7 dr7Word)
  unless ok do
    ask (.print (.perror "tracer, faile to set DR_7\n"))
  return (0, bp)

/-- `resume_INT3_bp_next`: the result and the registers, whose `rip` it moves. -/
def resumeINT3BpNext (pid : Pid) (bp : Breakpoint) (regs : UserRegs) : Dbg (Int × UserRegs) := do
  if bp.type ≠ .SFBP then
    return (-1, regs)
  else do
    let _ ← writeProMem pid bp.addr (toBytes bp.orig_code) 1
    let regs := regs.withRip bp.addr
    let _ ← ask (.setregs pid regs)
    let _ ← ask (.singlestep pid 0)
    let _ ← ask .wait
    let _ ← writeProMem pid bp.addr [INT_3] 1
    return (0, regs)

/-- `find_current_SF_bp`; `none` is its -1. -/
def findCurrentSFBp (dbug : Dbug) : Option Nat :=
  dbug.bps.findIdx? (fun bp => bp.type = .SFBP && bp.addr = dbug.regs.rip - 1)

/-- `find_current_HW_bp`. -/
def findCurrentHWBp (dbug : Dbug) : Option Nat :=
  dbug.bps.findIdx? (fun bp => bp.type = .HWBP && bp.addr = dbug.regs.rip)

/-! ## Starting and attaching -/

/-- `dbug_pro`.  After `fork` both processes go on: the child with 0, the
debugger with the child's pid. -/
def dbugPro (dbug : Dbug) (path : Option CStr) (argv : List (Option CStr)) : Dbg (Int × Dbug) := do
  let pid ← ask .fork
  if pid = 0 then do
    if ← ask .traceme then do
      ask (.execvp path argv)
      ask (.print (.perror "exec err"))
      return (-1, dbug)
    else do
      ask (.print (.perror "PTRACE_TRACEME err"))
      return (-1, dbug)
  else if pid < 0 then do
    ask (.print (.perror "fork err"))
    return (-1, dbug)
  else do
    let ev ← ask .wait
    let dbug := { dbug with status := storeStatus dbug.status ev }
    if WIFEXITED dbug.status then
      return (-1, dbug)
    else do
      let funs ← ask (.openFuns pid)
      return (0, { dbug with pid := pid, funs := funs })

/-- `attach_pro`. -/
def attachPro (dbug : Dbug) (pid : Pid) : Dbg (Int × Dbug) := do
  if ← ask (.attach pid) then do
    let ev ← ask (.waitpid pid)
    if ev.isNone then
      ask (.print (.perror "wait err"))
    let dbug := { dbug with status := storeStatus dbug.status ev }
    if WIFEXITED dbug.status then
      return (-1, dbug)
    else do
      let funs ← ask (.openFuns pid)
      return (0, { dbug with pid := pid, funs := funs })
  else do
    ask (.print (.perror "ATTACH err"))
    return (-1, dbug)

/-! ## The entry a stop belongs to -/

/-- The first software breakpoint at an address. -/
def firstSF (bps : List Breakpoint) (a : Word) : Option Breakpoint :=
  bps.find? (fun bp => bp.type = .SFBP && bp.addr = a)

theorem firstSF_eq_some {bps : List Breakpoint} {a : Word} {bp : Breakpoint}
    (h : firstSF bps a = some bp) : bp ∈ bps ∧ bp.type = .SFBP ∧ bp.addr = a := by
  refine ⟨List.mem_of_find?_eq_some h, ?_⟩
  simpa using List.find?_some h

theorem firstSF_eq_none {bps : List Breakpoint} {a : Word} :
    firstSF bps a = none ↔ ∀ bp ∈ bps, bp.type = .SFBP → bp.addr ≠ a := by
  simp [firstSF]

/-- A later entry is found only where no earlier one is. -/
theorem firstSF_append (bps bps' : List Breakpoint) (a : Word) :
    firstSF (bps ++ bps') a = (firstSF bps a).or (firstSF bps' a) :=
  List.find?_append

theorem firstSF_singleton {bp : Breakpoint} (h : bp.type = .SFBP) (a : Word) :
    firstSF [bp] a = if bp.addr = a then some bp else none := by
  simp [firstSF, h]

theorem findCurrentSFBp_eq_some {dbug : Dbug} {i : Nat} (h : findCurrentSFBp dbug = some i) :
    firstSF dbug.bps (dbug.regs.rip - 1) = some (dbug.bps.getD i {}) := by
  obtain ⟨hi, -, -⟩ := List.findIdx?_eq_some_iff_getElem.mp h
  rw [firstSF, List.find?_eq_bind_findIdx?_getElem?]
  simp [findCurrentSFBp] at h
  simp [h, List.getD_eq_getElem?_getD, List.getElem?_eq_getElem hi]

theorem findCurrentSFBp_eq_none {dbug : Dbug} :
    findCurrentSFBp dbug = none ↔ firstSF dbug.bps (dbug.regs.rip - 1) = none := by
  rw [findCurrentSFBp, List.findIdx?_eq_none_iff, firstSF, List.find?_eq_none]
  simp

theorem findCurrentHWBp_eq_none {dbug : Dbug} :
    findCurrentHWBp dbug = none ↔
      ∀ bp ∈ dbug.bps, bp.type = .HWBP → bp.addr ≠ dbug.regs.rip := by
  rw [findCurrentHWBp, List.findIdx?_eq_none_iff]
  simp

/-! ## Software breakpoints on a memory -/

/-- What `insert_INT3_bp` leaves in the table entry, if `b` is the byte it found. -/
def Breakpoint.planted (bp : Breakpoint) (b : Byte) : Breakpoint :=
  { bp with type := .SFBP, orig_code := ofBytes (b :: (toBytes bp.orig_code).drop 1) }

@[simp] theorem Breakpoint.planted_type (bp : Breakpoint) (b : Byte) :
    (bp.planted b).type = .SFBP := rfl

@[simp] theorem Breakpoint.planted_addr (bp : Breakpoint) (b : Byte) :
    (bp.planted b).addr = bp.addr := rfl

/-- The low byte of a word is the first in memory. -/
theorem toBytes_take_one (w : Word) : (toBytes w).take 1 = [w.setWidth 8] := by
  simp only [toBytes, bytesOfNat, List.take_succ_cons, List.take_zero, List.cons.injEq, and_true]
  apply BitVec.eq_of_toNat_eq
  simp

@[simp] theorem Breakpoint.planted_origByte (bp : Breakpoint) (b : Byte) :
    (bp.planted b).origByte = b := by
  have hlen : (b :: (toBytes bp.orig_code).drop 1).length = 8 := by simp
  have htake := toBytes_take_one (ofBytes (b :: (toBytes bp.orig_code).drop 1))
  rw [toBytes_ofBytes hlen] at htake
  exact (List.cons.inj htake).1.symm

section
variable {σ : Type} {K : Kernel Resp σ} {pid : Pid} {s : σ}

/-- `insert_INT3_bp` saves the byte that is there and puts an INT3 over it. -/
theorem wp_insertINT3Bp (V : MemView K pid) (hok : V.ok s) {bp : Breakpoint}
    {Q : Int × Breakpoint → σ → Prop}
    (h : Q (0, bp.planted (V.get s bp.addr)) (V.set (store (V.get s) bp.addr [INT_3]) s)) :
    wp K Free (insertINT3Bp pid bp) Q s := by
  simp only [insertINT3Bp, wp_bind]
  rw [wp_readProMem V hok (by simp)]
  dsimp only
  rw [wp_writeProMem V (by simp) (by decide) hok]
  exact wp_print V h

end

end TestDbug
