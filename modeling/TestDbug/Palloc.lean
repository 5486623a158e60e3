/-
# `TestDbug.Palloc` — `ngx/ngx_palloc.c`

The pool the debugger keeps its arrays and the words of its command lines in.
A pool is a chain of blocks of one size; small pieces are cut off the end of a
block, large ones are asked of `calloc` one by one and remembered in a list.

    passed  the blocks before `pool->current`
    active  the blocks from `pool->current` on
    large   the records of the large pieces
    cleanup the records of what is to be called at the end

Addresses are numbers, and arithmetic on them wraps where the source's does
(`padd`, `psub`).  The headers and the records are kept beside the memory; each
keeps the address it has there, so that they can be told from what the pool
gives away.  `LOG` is compiled to nothing.
-/
import TestDbug.Lib.Interaction
import TestDbug.Lib.Arena

open ByteMemory Interaction

namespace TestDbug

/-! ## What the pool asks for -/

/-- A pointer; `none` is NULL. -/
abbrev Ptr := Option Nat

/-- The address in a pointer. -/
def Ptr.addr (p : Ptr) : Nat := p.getD 0

/-- `ngx_pool_cleanup_pt`: the two handlers of `ngx_palloc.c`, and any other. -/
inductive CleanupPt where
  /-- `ngx_pool_cleanup_file`. -/
  | file
  /-- `ngx_pool_delete_file`. -/
  | deleteFile
  | other (id : Nat)
deriving DecidableEq

inductive PoolReq where
  /-- `calloc(1, size)`. -/
  | calloc (size : Nat)
  | free (p : Ptr)
  | load (a n : Nat)
  | store (a : Nat) (bs : List Byte)
  | close (fd : BitVec 32)
  | unlink (name : Word)
  /-- A handler that is not one of the pool's own. -/
  | callback (id : Nat) (data : Ptr)
deriving DecidableEq

@[reducible] def PoolResp : PoolReq → Type
  | .calloc _ => Ptr
  | .load _ _ => List Byte
  | .free _ | .store _ _ | .close _ | .unlink _ | .callback _ _ => Unit

/-- A piece of `ngx_palloc.c` or `ngx_array.c`. -/
abbrev Pool (α : Type) := Prog PoolReq PoolResp α

abbrev sys (r : PoolReq) : Pool (PoolResp r) := Prog.req r

/-! ## Pointers -/

/-- `a + n`. -/
def padd (a n : Nat) : Nat := (a + n) % 2 ^ 64

/-- `(size_t) (a - b)`. -/
def psub (a b : Nat) : Nat := (2 ^ 64 + a - b) % 2 ^ 64

/-- `ngx_align_ptr(p, NGX_ALIGNMENT)`. -/
def ngxAlignPtr (p : Nat) : Nat := padd p 7 / 8 * 8

/-- `sizeof(ngx_pool_t)`. -/
def sizeofPool : Nat := 64

/-- `sizeof(ngx_pool_data_t)`. -/
def sizeofPoolData : Nat := 32

/-- `sizeof(ngx_pool_large_t)`. -/
def sizeofPoolLarge : Nat := 16

/-- `sizeof(ngx_pool_cleanup_t)`. -/
def sizeofPoolCleanup : Nat := 24

/-- `NGX_MAX_ALLOC_FROM_POOL`. -/
def NGX_MAX_ALLOC_FROM_POOL : Nat := 4095

def NGX_OK : Int := 0

def NGX_ERROR : Int := -1

def NGX_DECLINED : Int := -5

/-! ## The pool -/

/-- `ngx_pool_data_t`, the front of every block, with the address of the block. -/
structure NgxPoolData where
  start : Nat
  last : Nat
  end_ : Nat
  failed : Nat
deriving DecidableEq, Inhabited

/-- `ngx_pool_large_t`. -/
structure NgxPoolLarge where
  addr : Nat
  alloc : Ptr
deriving DecidableEq

/-- `ngx_pool_cleanup_t`. -/
structure NgxPoolCleanup where
  addr : Nat
  handler : Option CleanupPt
  data : Ptr
deriving DecidableEq

/-- `ngx_pool_t`. -/
structure NgxPool where
  passed : List NgxPoolData
  active : List NgxPoolData
  max : Nat
  large : List NgxPoolLarge
  cleanup : List NgxPoolCleanup
deriving DecidableEq

/-- The blocks, from the first on. -/
def NgxPool.chain (pool : NgxPool) : List NgxPoolData := pool.passed ++ pool.active

/-- `pool->d`. -/
def NgxPool.d (pool : NgxPool) : NgxPoolData := pool.chain.headD default

/-- `ngx_create_pool`. -/
def ngxCreatePool (size : Nat) : Pool (Option NgxPool) := do
  match ← sys (.calloc size) with
  | none => return none
  | some p =>
      let rest := psub size sizeofPool
      return some {
        passed := []
        active := [⟨p, padd p sizeofPool, padd p size, 0⟩]
        max := if rest < NGX_MAX_ALLOC_FROM_POOL then rest else NGX_MAX_ALLOC_FROM_POOL
        large := []
        cleanup := [] }

/-! ## Small pieces -/

/-- The loop of `ngx_palloc_small` over the blocks from `current` on: the piece
and the blocks with it cut off, or `none` when no block has room. -/
def pallocSmallLoop (size : Nat) (align : Bool) :
    List NgxPoolData → Option (Nat × List NgxPoolData)
  | [] => none
  | p :: next =>
      let m := if align then ngxAlignPtr p.last else p.last
      if size ≤ psub p.end_ m then some (m, { p with last := padd m size } :: next)
      else (pallocSmallLoop size align next).map fun (m, next) => (m, p :: next)

/-- The loop of `ngx_palloc_block`: every block but the last has failed once
more, and `current` moves behind one that had failed more than four times.
`passed` is what is before `current`, `seen` what the loop has gone over since. -/
def pallocBlockLoop (passed seen : List NgxPoolData) :
    List NgxPoolData → List NgxPoolData × List NgxPoolData
  | [] => (passed, seen)
  | [p] => (passed, seen ++ [p])
  | p :: next :: rest =>
      let p' := { p with failed := p.failed + 1 }
      if p.failed > 4 then pallocBlockLoop (passed ++ seen ++ [p']) [] (next :: rest)
      else pallocBlockLoop passed (seen ++ [p']) (next :: rest)

/-- `ngx_palloc_block`. -/
def ngxPallocBlock (pool : NgxPool) (size : Nat) : Pool (Ptr × NgxPool) := do
  let psize := psub pool.d.end_ pool.d.start
  match ← sys (.calloc psize) with
  | none => return (none, pool)
  | some new =>
      let m := ngxAlignPtr (padd new sizeofPoolData)
      let (passed, active) := pallocBlockLoop pool.passed [] pool.active
      return (some m, { pool with
        passed := passed
        active := active ++ [⟨new, padd m size, padd new psize, 0⟩] })

/-- `ngx_palloc_small`. -/
def ngxPallocSmall (pool : NgxPool) (size : Nat) (align : Bool) : Pool (Ptr × NgxPool) :=
  match pallocSmallLoop size align pool.active with
  | some (m, active) => return (some m, { pool with active := active })
  | none => ngxPallocBlock pool size

/-! ## Large pieces -/

/-- The loop of `ngx_palloc_large`: one of the first five records whose piece
is gone is used again. -/
def pallocLargeLoop (p : Nat) : Nat → List NgxPoolLarge → Option (List NgxPoolLarge)
  | _, [] => none
  | n, large :: next =>
      if large.alloc = none then some ({ large with alloc := some p } :: next)
      else if n > 3 then none
      else (pallocLargeLoop p (n + 1) next).map (large :: ·)

/-- The end of `ngx_palloc_large` and of `ngx_pmemalign`: a new record. -/
def linkLarge (pool : NgxPool) (p : Nat) : Pool (Ptr × NgxPool) := do
  let (large, pool) ← ngxPallocSmall pool sizeofPoolLarge true
  match large with
  | none =>
      sys (.free (some p))
      return (none, pool)
  | some large => return (some p, { pool with large := ⟨large, some p⟩ :: pool.large })

/-- `ngx_palloc_large`. -/
def ngxPallocLarge (pool : NgxPool) (size : Nat) : Pool (Ptr × NgxPool) := do
  match ← sys (.calloc size) with
  | none => return (none, pool)
  | some p =>
      match pallocLargeLoop p 0 pool.large with
      | some large => return (some p, { pool with large := large })
      | none => linkLarge pool p

/-- `ngx_pmemalign`; `alignment` is not looked at. -/
def ngxPmemalign (pool : NgxPool) (size _alignment : Nat) : Pool (Ptr × NgxPool) := do
  match ← sys (.calloc size) with
  | none => return (none, pool)
  | some p => linkLarge pool p

/-! ## The pieces a user asks for -/

/-- `ngx_palloc`. -/
def ngxPalloc (pool : NgxPool) (size : Nat) : Pool (Ptr × NgxPool) :=
  if size ≤ pool.max then ngxPallocSmall pool size true else ngxPallocLarge pool size

/-- `ngx_pnalloc`. -/
def ngxPnalloc (pool : NgxPool) (size : Nat) : Pool (Ptr × NgxPool) :=
  if size ≤ pool.max then ngxPallocSmall pool size false else ngxPallocLarge pool size

/-- `ngx_pcalloc`. -/
def ngxPcalloc (pool : NgxPool) (size : Nat) : Pool (Ptr × NgxPool) := do
  let (p, pool) ← ngxPalloc pool size
  match p with
  | none => return (none, pool)
  | some a =>
      sys (.store a (.replicate size 0))
      return (some a, pool)

/-- The loop of `ngx_pfree`: what is freed, and the records after. -/
def pfreeLoop (p : Ptr) : List NgxPoolLarge → Option (List NgxPoolLarge)
  | [] => none
  | l :: next =>
      if p = l.alloc then some ({ l with alloc := none } :: next)
      else (pfreeLoop p next).map (l :: ·)

/-- `ngx_pfree`. -/
def ngxPfree (pool : NgxPool) (p : Ptr) : Pool (Int × NgxPool) := do
  match pfreeLoop p pool.large with
  | some large =>
      sys (.free p)
      return (NGX_OK, { pool with large := large })
  | none => return (NGX_DECLINED, pool)

/-! ## Cleanup handlers -/

/-- `c->fd` of an `ngx_pool_cleanup_file_t`. -/
def cleanupFileFd (data : Ptr) : Pool (BitVec 32) := do
  let bs ← sys (.load data.addr 4)
  return BitVec.ofNat 32 (natOfBytes bs)

/-- `ngx_pool_cleanup_file`. -/
def ngxPoolCleanupFile (data : Ptr) : Pool Unit := do
  let fd ← cleanupFileFd data
  sys (.close fd)

/-- `ngx_pool_delete_file`. -/
def ngxPoolDeleteFile (data : Ptr) : Pool Unit := do
  let name ← sys (.load (padd data.addr 8) 8)
  sys (.unlink (ofBytes name))
  let fd ← cleanupFileFd data
  sys (.close fd)

/-- `c->handler(c->data)`. -/
def CleanupPt.run : CleanupPt → Ptr → Pool Unit
  | .file, data => ngxPoolCleanupFile data
  | .deleteFile, data => ngxPoolDeleteFile data
  | .other id, data => sys (.callback id data)

/-- `ngx_pool_cleanup_add`: the record is the first of `cleanup`. -/
def ngxPoolCleanupAdd (p : NgxPool) (size : Nat) : Pool (Ptr × NgxPool) := do
  let (c, p) ← ngxPalloc p sizeofPoolCleanup
  match c with
  | none => return (none, p)
  | some c =>
      if size ≠ 0 then
        let (data, p) ← ngxPalloc p size
        match data with
        | none => return (none, p)
        | some data => return (some c, { p with cleanup := ⟨c, none, some data⟩ :: p.cleanup })
      else return (some c, { p with cleanup := ⟨c, none, none⟩ :: p.cleanup })

/-- The loop of `ngx_pool_run_cleanup_file`. -/
def runCleanupFileLoop (fd : BitVec 32) : List NgxPoolCleanup → Pool (List NgxPoolCleanup)
  | [] => return []
  | c :: next => do
      if c.handler = some .file then
        let cfd ← cleanupFileFd c.data
        if cfd = fd then
          CleanupPt.file.run c.data
          return { c with handler := none } :: next
        else return c :: (← runCleanupFileLoop fd next)
      else return c :: (← runCleanupFileLoop fd next)

/-- `ngx_pool_run_cleanup_file`. -/
def ngxPoolRunCleanupFile (p : NgxPool) (fd : BitVec 32) : Pool NgxPool := do
  let cleanup ← runCleanupFileLoop fd p.cleanup
  return { p with cleanup := cleanup }

/-! ## The end of a pool -/

/-- One round of the first loop of `ngx_destroy_pool`. -/
def runCleanup (c : NgxPoolCleanup) : Pool Unit :=
  match c.handler with
  | some handler => handler.run c.data
  | none => return ()

/-- The first loop of `ngx_destroy_pool`. -/
def runCleanups : List NgxPoolCleanup → Pool Unit
  | [] => return ()
  | c :: next => do
      runCleanup c
      runCleanups next

/-- The loop over the large pieces of `ngx_destroy_pool` and `ngx_reset_pool`. -/
def freeLarge : List NgxPoolLarge → Pool Unit
  | [] => return ()
  | l :: next =>
      if l.alloc ≠ none then do
        sys (.free l.alloc)
        freeLarge next
      else freeLarge next

/-- The last loop of `ngx_destroy_pool`. -/
def freeBlocks : List NgxPoolData → Pool Unit
  | [] => return ()
  | p :: next => do
      sys (.free (some p.start))
      freeBlocks next

/-- `ngx_destroy_pool`. -/
def ngxDestroyPool (pool : NgxPool) : Pool Unit := do
  runCleanups pool.cleanup
  freeLarge pool.large
  freeBlocks pool.chain

/-- `ngx_reset_pool`.  The cleanup records stay as they are. -/
def ngxResetPool (pool : NgxPool) : Pool NgxPool := do
  freeLarge pool.large
  return { pool with
    passed := []
    active := pool.chain.map fun p => { p with last := padd p.start sizeofPool, failed := 0 }
    large := [] }

/-! ## The C library -/

/-- The process: its heap, and what it has asked the system to do. -/
structure World where
  heap : Heap
  effects : List PoolReq

abbrev World.mem (w : World) : Mem 64 Byte := w.heap.mem

/-- What the requests do.  A handler of somebody else has its own affairs and
leaves the heap alone. -/
def poolKernel : Kernel PoolResp World
  | .calloc n, w, x, w' => w.heap.Calloc n x w'.heap ∧ w'.effects = w.effects
  | .free p, w, _, w' => w.heap.Free p w'.heap ∧ w'.effects = w.effects
  | .load a n, w, bs, w' => bs = cells w.mem ⟨a, n⟩ ∧ w' = w
  | .store a bs, w, _, w' => w.heap.Stored a bs w'.heap ∧ w'.effects = w.effects
  | .close fd, w, _, w' => w'.heap = w.heap ∧ w'.effects = w.effects ++ [.close fd]
  | .unlink name, w, _, w' => w'.heap = w.heap ∧ w'.effects = w.effects ++ [.unlink name]
  | .callback id data, w, _, w' =>
      w'.heap = w.heap ∧ w'.effects = w.effects ++ [.callback id data]

/-- What a process may ask without damage: to free what is allocated, and to
read and write inside of it. -/
def Harmless : PoolReq → World → Prop
  | .free (some a), w => (w.heap.live a).isSome = true
  | .load a n, w => w.heap.Covers ⟨a, n⟩
  | .store a bs, w => w.heap.Covers ⟨a, bs.length⟩
  | _, _ => True

end TestDbug
