/-
# `TestDbug.PoolArray` — `ngx/ngx_array.c`

An array is a header and a run of slots, both pieces of a pool.  A full array
grows in one of two ways.  If its slots are the last thing in the first block
and the block has room, the block is used up a little further and the slots
stay where they are; else the elements are copied into a new piece twice the
size.  Either way (`wp_ngxArrayPush`, `wp_ngxArrayPushN`) the elements are the
ones they were, the new slot is the array's own, and no other object of the
pool is touched: the comparison with `last` cannot be fooled by an object of
another block (`Holds.last_object`).
-/
import TestDbug.Pool

open ByteMemory Interaction

namespace TestDbug

/-! ## The functions -/

/-- `a * b` in `size_t`. -/
def pmul (a b : Nat) : Nat := a * b % 2 ^ 64

/-- `sizeof(ngx_array_t)`. -/
def sizeofArray : Nat := 40

/-- `ngx_array_t`, with its address; `pool` is passed beside it. -/
structure NgxArrayT where
  addr : Nat
  elts : Nat
  nelts : Nat
  size : Nat
  nalloc : Nat
deriving DecidableEq

/-- `pool->d.last = last`. -/
def NgxPool.setLast (pool : NgxPool) (last : Nat) : NgxPool :=
  match pool.passed, pool.active with
  | b :: bs, _ => { pool with passed := { b with last := last } :: bs }
  | [], b :: bs => { pool with active := { b with last := last } :: bs }
  | [], [] => pool

/-- `ngx_array_init`; `none` is `NGX_ERROR`. -/
def ngxArrayInit (addr : Nat) (pool : NgxPool) (n size : Nat) :
    Pool (Option NgxArrayT × NgxPool) := do
  let (elts, pool) ← ngxPalloc pool (pmul n size)
  match elts with
  | none => return (none, pool)
  | some elts => return (some ⟨addr, elts, 0, size, n⟩, pool)

/-- `ngx_array_create`. -/
def ngxArrayCreate (p : NgxPool) (n size : Nat) : Pool (Option NgxArrayT × NgxPool) := do
  let (a, p) ← ngxPalloc p sizeofArray
  match a with
  | none => return (none, p)
  | some a => ngxArrayInit a p n size

/-- `ngx_array_destroy`, as it leaves the pool. -/
def ngxArrayDestroy (a : NgxArrayT) (p : NgxPool) : NgxPool :=
  let p :=
    if padd a.elts (pmul a.size a.nalloc) = p.d.last then
      p.setLast (psub p.d.last (pmul a.size a.nalloc))
    else p
  if padd a.addr sizeofArray = p.d.last then p.setLast a.addr else p

/-- The branch of `ngx_array_push` and `ngx_array_push_n` that copies `len`
bytes into a new piece of `bytes`, for `nalloc` slots. -/
def ngxArrayMove (a : NgxArrayT) (p : NgxPool) (bytes len nalloc : Nat) :
    Pool (Option NgxArrayT × NgxPool) := do
  let (new, p) ← ngxPalloc p bytes
  match new with
  | none => return (none, p)
  | some new =>
      let bs ← sys (.load a.elts len)
      sys (.store new bs)
      return (some { a with elts := new, nalloc := nalloc }, p)

/-- The end of both: the address of the next slot, and `n` more in use. -/
def nextSlots (a : NgxArrayT) (p : NgxPool) (n : Nat) : Ptr × NgxArrayT × NgxPool :=
  (some (padd a.elts (pmul a.size a.nelts)), { a with nelts := padd a.nelts n }, p)

/-- `ngx_array_push`. -/
def ngxArrayPush (a : NgxArrayT) (p : NgxPool) : Pool (Ptr × NgxArrayT × NgxPool) := do
  if a.nelts = a.nalloc then
    let size := pmul a.size a.nalloc
    if padd a.elts size = p.d.last ∧ padd p.d.last a.size ≤ p.d.end_ then
      return nextSlots { a with nalloc := padd a.nalloc 1 } (p.setLast (padd p.d.last a.size)) 1
    else
      match ← ngxArrayMove a p (pmul 2 size) size (pmul a.nalloc 2) with
      | (none, p) => return (none, a, p)
      | (some a, p) => return nextSlots a p 1
  else return nextSlots a p 1

/-- `ngx_array_push_n`. -/
def ngxArrayPushN (a : NgxArrayT) (p : NgxPool) (n : Nat) : Pool (Ptr × NgxArrayT × NgxPool) := do
  let size := pmul n a.size
  if padd a.nelts n > a.nalloc then
    if padd a.elts (pmul a.size a.nalloc) = p.d.last ∧ padd p.d.last size ≤ p.d.end_ then
      return nextSlots { a with nalloc := padd a.nalloc n } (p.setLast (padd p.d.last size)) n
    else
      let nalloc := pmul 2 (if n ≥ a.nalloc then n else a.nalloc)
      match ← ngxArrayMove a p (pmul nalloc a.size) (pmul a.nelts a.size) nalloc with
      | (none, p) => return (none, a, p)
      | (some a, p) => return nextSlots a p n
  else return nextSlots a p n

/-! ## The memory of an array -/

namespace NgxArrayT

def head (a : NgxArrayT) : Region := ⟨a.addr, sizeofArray⟩

/-- All the slots. -/
def room (a : NgxArrayT) : Region := ⟨a.elts, a.size * a.nalloc⟩

/-- The slots in use. -/
def used (a : NgxArrayT) : Region := ⟨a.elts, a.size * a.nelts⟩

/-- The other slots. -/
def tail (a : NgxArrayT) : Region := ⟨a.elts + a.size * a.nelts, a.size * (a.nalloc - a.nelts)⟩

structure Ok (a : NgxArrayT) : Prop where
  size : 0 < a.size
  nalloc : 0 < a.nalloc
  used : a.nelts ≤ a.nalloc
  aligned : a.addr % 8 = 0 ∧ a.elts % 8 = 0

end NgxArrayT

theorem NgxArrayT.Ok.used_within {a : NgxArrayT} (hok : a.Ok) : a.used.Within a.room := by
  refine ⟨Nat.le_refl _, ?_⟩
  simp only [NgxArrayT.used, NgxArrayT.room, Region.fin_mk]
  exact Nat.add_le_add_left (Nat.mul_le_mul_left _ hok.used) _

theorem pmul_eq {a b : Nat} (h : a * b < 2 ^ 64) : pmul a b = a * b := Nat.mod_eq_of_lt h

section
variable {L : Nat → Option Nat} {psize : Nat} {ex : List Nat} {pool pool' : NgxPool}
  {w w' : World} {h : Heap} {os : List Region} {m n : Nat} {a a' : NgxArrayT}

/-! ## The first block -/

theorem setLast_spans (last : Nat) (hne : pool.active ≠ []) :
    pool.spans = pool.d.span :: pool.spans.tail ∧
      (pool.setLast last).spans = { pool.d.span with last := last } :: pool.spans.tail := by
  obtain ⟨passed, active, max, large, cleanup⟩ := pool
  cases passed with
  | nil =>
      cases active with
      | nil => exact absurd rfl hne
      | cons b bs => exact ⟨rfl, rfl⟩
  | cons b bs => exact ⟨rfl, rfl⟩

@[simp] theorem setLast_large (last : Nat) : (pool.setLast last).large = pool.large := by
  simp only [NgxPool.setLast]
  split <;> rfl

@[simp] theorem setLast_cleanup (last : Nat) : (pool.setLast last).cleanup = pool.cleanup := by
  simp only [NgxPool.setLast]
  split <;> rfl

@[simp] theorem setLast_max (last : Nat) : (pool.setLast last).max = pool.max := by
  simp only [NgxPool.setLast]
  split <;> rfl

theorem setLast_failed (last : Nat) :
    (pool.setLast last).active.map NgxPoolData.failed = pool.active.map NgxPoolData.failed := by
  simp only [NgxPool.setLast]
  split <;> simp_all

theorem setLast_active {last : Nat} (hne : pool.active ≠ []) :
    (pool.setLast last).active ≠ [] := by
  intro hnil
  have hmap : (pool.setLast last).active.map NgxPoolData.failed =
      pool.active.map NgxPoolData.failed := setLast_failed last
  rw [hnil] at hmap
  exact hne (List.map_eq_nil_iff.mp hmap.symm)

theorem setLast_short {last : Nat} (hs : pool.Short) : (pool.setLast last).Short := by
  have hmap : (pool.setLast last).active.map NgxPoolData.failed =
      pool.active.map NgxPoolData.failed := setLast_failed last
  refine ⟨hs.1.congr hmap, ?_⟩
  have hlen := congrArg List.length hmap
  simp only [List.length_map] at hlen
  rw [hlen]
  exact hs.2

namespace NgxPool.Holds

/-- The first block holds the header of the pool. -/
theorem head_used (hold : pool.Holds L psize ex h os) :
    pool.d.start + sizeofPool ≤ pool.d.last := by
  have hspans := (setLast_spans 0 hold.active).1
  have hd : pool.d.span ∈ pool.spans := List.mem_map_of_mem hold.d_mem
  have hrec : (⟨pool.d.start, sizeofPool⟩ : Region) ∈ pool.records ++ os := by
    apply List.mem_append_left
    rw [NgxPool.records, hspans]
    simp [headers, NgxPoolData.span]
  obtain ⟨-, -, hld⟩ := hold.arena.span _ hd
  rcases hold.arena.housed _ hrec with ⟨s, hs, h₁, h₂⟩ | ⟨b, hb, k, hl, he⟩
  · obtain ⟨h₃, h₄, hl⟩ := hold.arena.span s hs
    obtain ⟨-, h₆, h₇, -, -, -⟩ := hold.block hold.d_mem
    have hmax := hold.max
    simp only [Span.used, Region.fin_mk, sizeofPool] at h₁ h₂ hmax
    -- the header starts where the block does
    have hstart := hold.arena.span_eq hs hd (x := pool.d.start) ⟨h₁, by omega⟩
      ⟨Nat.le_refl _, by simp only [NgxPoolData.span]; omega⟩
    rw [hold.arena.start_inj hs hd hstart] at h₂
    simp only [NgxPoolData.span] at h₂
    simp only [sizeofPool]
    omega
  · obtain rfl := (Region.mk.inj he).1
    have hdis := (List.nodup_append.mp hold.arena.owns.nodup).2.2
    exact absurd rfl (hdis _ (List.mem_map_of_mem hd) _ hb)

/-- An object that ends where the first block's used part does lies in it. -/
theorem last_object {o : Region} (hold : pool.Holds L psize ex h (o :: os))
    (hlast : o.fin = pool.d.last) : o.Within pool.d.span.used := by
  have ho : o ∈ pool.records ++ o :: os := by simp
  have hpos := hold.arena.pos o ho
  have hd : pool.d.span ∈ pool.spans := List.mem_map_of_mem hold.d_mem
  obtain ⟨h₁, h₂, hld⟩ := hold.arena.span _ hd
  have hused := hold.head_used
  simp only [NgxPoolData.span, sizeofPool] at h₁ h₂ hld hused
  obtain ⟨start, size⟩ := o
  simp only [Region.fin_mk] at hlast hpos
  rcases hold.arena.housed _ ho with ⟨s, hs, hin⟩ | ⟨b, hb, k, hl, he⟩
  · obtain ⟨h₃, h₄, hl⟩ := hold.arena.span s hs
    have h₅ := hin.1
    have h₆ := hin.2
    simp only [Span.used, Region.fin_mk] at h₅ h₆
    -- the last byte of the object is a byte of the first block
    have hstart := hold.arena.span_eq hs hd (x := start + size - 1) ⟨by omega, by omega⟩
      (by simp only [NgxPoolData.span]; omega)
    rw [← hold.arena.start_inj hs hd hstart]
    exact hin
  · obtain ⟨rfl, rfl⟩ := Region.mk.inj he
    have hdis := (List.nodup_append.mp hold.arena.owns.nodup).2.2
    have hap := h.apart _ _ _ _ hl hld
      (fun heq => hdis _ (List.mem_map_of_mem hd) _ hb heq.symm)
    simp only [Region.Apart, Region.fin_mk] at hap
    omega

/-- The last object of the first block given back. -/
theorem rewind (hold : pool.Holds L psize ex h (⟨m, n⟩ :: os)) (hlast : m + n = pool.d.last) :
    (pool.setLast m).Holds L psize ex h os := by
  obtain ⟨hspans, hspans'⟩ := setLast_spans m hold.active
  have hin := (hold.last_object hlast).1
  have ar := hold.arena.perm List.perm_middle
  rw [hspans] at ar
  have ar' : Arena L ([] ++ { pool.d.span with last := m } :: pool.spans.tail) _ h _ :=
    Arena.rewind ar hin hlast
  have hhead : headers (pool.setLast m).spans = headers pool.spans := by
    apply headers_congr
    rw [hspans', hspans]
    rfl
  have hrec : (pool.setLast m).records = pool.records := by
    simp only [NgxPool.records, hhead, setLast_large, setLast_cleanup]
  refine ⟨?_, ?_, by simpa using hold.max, hold.word, setLast_active hold.active⟩
  · rw [hrec, hspans', NgxPool.bigs, setLast_large]
    exact ar'
  · intro s hs
    have hends := hold.ends
    rw [hspans] at hends
    rw [hspans'] at hs
    rcases List.mem_cons.mp hs with rfl | hs
    · exact hends pool.d.span List.mem_cons_self
    · exact hends s (List.mem_cons_of_mem _ hs)

/-- The last object of the first block made longer. -/
theorem growFirst {k : Nat} (hold : pool.Holds L psize ex h (⟨m, n⟩ :: os))
    (hlast : m + n = pool.d.last) (hk : pool.d.last + k ≤ pool.d.end_) :
    (pool.setLast (pool.d.last + k)).Holds L psize ex h (⟨m, n + k⟩ :: os) := by
  have hpos := hold.arena.pos ⟨m, n⟩ (by simp)
  have hback := hold.rewind hlast
  obtain ⟨-, hspans₁⟩ := setLast_spans m hold.active
  obtain ⟨-, hspans₂⟩ := setLast_spans (pool.d.last + k) hold.active
  simp only at hpos
  have hfirst : (pool.setLast m).spans = [] ++ { pool.d.span with last := m } :: pool.spans.tail :=
    hspans₁
  have hlen : 0 < n + k := by omega
  refine hback.take hfirst (Nat.le_refl m) hlen ?_ ?_ (by simp) (by simp) (by simp)
    (setLast_active hold.active)
  · simp only [NgxPoolData.span]
    omega
  · rw [hspans₂, List.nil_append, ← hlast, Nat.add_assoc]

end NgxPool.Holds

/-- Less free room in the first block, all of it zero as before. -/
theorem blank_setLast {k : Nat} (hold : pool.Holds L psize ex h os)
    (hk : pool.d.last + k ≤ pool.d.end_) (hb : Blank pool.spans h.mem) :
    Blank (pool.setLast (pool.d.last + k)).spans h.mem ∧
      cells h.mem ⟨pool.d.last, k⟩ = .replicate k 0 := by
  obtain ⟨hspans, hspans'⟩ := setLast_spans (pool.d.last + k) hold.active
  rw [hspans] at hb
  rw [hspans']
  exact @Blank.take [] _ _ _ _ _ hb (Nat.le_refl _) hk

/-! ## New arrays -/

/-- What `ngx_array_create` leaves. -/
structure Created (L : Nat → Option Nat) (psize : Nat) (ex : List Nat) (pool : NgxPool) (w : World)
    (os : List Region) (n size : Nat) (x : Option NgxArrayT) (pool' : NgxPool) (w' : World) :
    Prop where
  refused : x = none → pool'.Holds L psize ex w'.heap os
  made : ∀ a, x = some a → a.Ok ∧ a.nelts = 0 ∧ a.size = size ∧ a.nalloc = n ∧
    pool'.Holds L psize ex w'.heap (a.head :: a.room :: os)
  fresh : Blank pool.spans w.mem →
    ∀ a, x = some a → cells w'.mem a.tail = .replicate a.tail.size 0
  keeps : Keeps pool w os pool' w'
  cleanup : pool'.cleanup = pool.cleanup

/-- The specification of `ngx_array_create`, for slots whose size does not overflow. -/
theorem wp_ngxArrayCreate {size : Nat} (hold : pool.Holds L psize ex w.heap os) (hn : 0 < n)
    (hsize : 0 < size) (hfit : n * size < 2 ^ 64) :
    wp poolKernel Harmless (ngxArrayCreate pool n size)
      (fun r w' => Created L psize ex pool w os n size r.1 r.2 w') w := by
  rw [ngxArrayCreate]
  refine wp_seq (wp_ngxPalloc hold (by simp [sizeofArray])) fun r w₁ ⟨hg, hal⟩ => ?_
  obtain ⟨x, pool₁⟩ := r
  cases x with
  | none =>
      exact ⟨fun _ => hg.holds, (fun _ hx => nomatch hx), (fun _ _ hx => nomatch hx), hg.keeps,
        hg.cleanup⟩
  | some addr =>
      simp only [ngxArrayInit, pmul_eq hfit]
      refine wp_seq (wp_ngxPalloc hg.holds (Nat.mul_pos hn hsize)) fun r w₂ ⟨hg₂, hal₂⟩ => ?_
      obtain ⟨y, pool₂⟩ := r
      have hk := hg.keeps.trans hg₂.keeps (List.subset_cons_self _ _)
      have hcl := hg₂.cleanup.trans hg.cleanup
      cases y with
      | none =>
          exact ⟨fun _ => hg₂.holds.sub (List.sublist_cons_self _ _), (fun _ hx => nomatch hx),
            (fun _ _ hx => nomatch hx), hk, hcl⟩
      | some elts =>
          refine ⟨fun hx => absurd hx (Option.some_ne_none _), ?_, ?_, hk, hcl⟩
          · rintro a ⟨⟩
            refine ⟨⟨hsize, hn, Nat.zero_le _, hal _ rfl, hal₂ _ rfl⟩, rfl, rfl, rfl, ?_⟩
            have hroom : NgxArrayT.room ⟨addr, elts, 0, size, n⟩ = ⟨elts, n * size⟩ := by
              rw [NgxArrayT.room, Nat.mul_comm]
            rw [hroom]
            exact hg₂.holds.perm (List.Perm.swap ..)
          · rintro hb a ⟨⟩
            have hz := hg₂.zero (hg.keeps.blank hb) elts rfl
            simpa [NgxArrayT.tail, Nat.mul_comm n size] using hz

/-! ## Growth -/

/-- What growing leaves: the array with its elements, at the same place or another. -/
structure Grown (L : Nat → Option Nat) (psize : Nat) (ex : List Nat) (pool : NgxPool) (w : World)
    (os : List Region) (a a' : NgxArrayT) (pool' : NgxPool) (w' : World) : Prop where
  same : a'.addr = a.addr ∧ a'.size = a.size ∧ a'.nelts = a.nelts
  nalloc : a.nalloc ≤ a'.nalloc
  aligned : a.elts % 8 = 0 → a'.elts % 8 = 0
  holds : pool'.Holds L psize ex w'.heap (a'.head :: a'.room :: os)
  elements : cells w'.mem a'.used = cells w.mem a.used
  fresh : Blank pool.spans w.mem → cells w.mem a.tail = .replicate a.tail.size 0 →
    cells w'.mem a'.tail = .replicate a'.tail.size 0
  keeps : Keeps pool w os pool' w'
  cleanup : pool'.cleanup = pool.cleanup

/-- The slots of an array that does not overflow. -/
theorem room_fits (hold : pool.Holds L psize ex h (a.head :: a.room :: os)) :
    a.elts + a.size * a.nalloc < 2 ^ 63 := (hold.covers (o := a.room) (by simp)).fits

/-- Growing in place, by `k` slots. -/
theorem grown_inPlace {k : Nat} (hold : pool.Holds L psize ex w.heap (a.head :: a.room :: os))
    (hok : a.Ok) (hlast : a.elts + a.size * a.nalloc = pool.d.last)
    (hk : pool.d.last + a.size * k ≤ pool.d.end_) :
    Grown L psize ex pool w os a { a with nalloc := a.nalloc + k }
      (pool.setLast (pool.d.last + a.size * k)) w := by
  have hroom : NgxArrayT.room { a with nalloc := a.nalloc + k } =
      ⟨a.elts, a.size * a.nalloc + a.size * k⟩ := by
    rw [NgxArrayT.room, Nat.mul_add]
  have hgrow := (hold.perm (List.Perm.swap ..)).growFirst hlast hk
  refine ⟨⟨rfl, rfl, rfl⟩, Nat.le_add_right _ _, id, ?_, rfl, ?_, ?_, by simp⟩
  · rw [hroom]
    exact hgrow.perm (List.Perm.swap ..)
  · intro hb hz
    have hnew := (blank_setLast hold hk hb).2
    have hsplit : a.size * (a.nalloc + k - a.nelts) =
        a.size * (a.nalloc - a.nelts) + a.size * k := by
      rw [← Nat.mul_add]
      congr 1
      have := hok.used
      omega
    have hend : a.elts + a.size * a.nelts + a.size * (a.nalloc - a.nelts) = pool.d.last := by
      rw [← hlast, Nat.add_assoc, ← Nat.mul_add]
      congr 2
      have := hok.used
      omega
    simp only [NgxArrayT.tail, hsplit, cells_add, hend, hnew] at hz ⊢
    rw [hz, List.replicate_append_replicate]
  · exact ⟨fun _ _ => rfl, fun hb => (blank_setLast hold hk hb).1, setLast_short, rfl⟩

/-- What `ngxArrayMove` leaves. -/
structure Moved (L : Nat → Option Nat) (psize : Nat) (ex : List Nat) (pool : NgxPool) (w : World)
    (os : List Region) (a : NgxArrayT) (nalloc : Nat) (x : Option NgxArrayT) (pool' : NgxPool)
    (w' : World) : Prop where
  refused : x = none → pool'.Holds L psize ex w'.heap (a.head :: a.room :: os) ∧
    Keeps pool w (a.head :: a.room :: os) pool' w' ∧ pool'.cleanup = pool.cleanup
  made : ∀ a', x = some a' → a'.nalloc = nalloc ∧ Grown L psize ex pool w os a a' pool' w'

/-- Moving to a new piece; the old one is forgotten. -/
theorem wp_ngxArrayMove (nalloc : Nat)
    (hold : pool.Holds L psize ex w.heap (a.head :: a.room :: os)) (hok : a.Ok)
    (hn : a.nalloc ≤ nalloc) :
    wp poolKernel Harmless (ngxArrayMove a pool (a.size * nalloc) (a.size * a.nelts) nalloc)
      (fun r w' => Moved L psize ex pool w os a nalloc r.1 r.2 w') w := by
  rw [ngxArrayMove]
  have hbytes : 0 < a.size * nalloc :=
    Nat.mul_pos hok.size (Nat.lt_of_lt_of_le hok.nalloc hn)
  refine wp_seq (wp_ngxPalloc hold hbytes) fun r w₁ ⟨hg, hal⟩ => ?_
  obtain ⟨x, pool₁⟩ := r
  cases x with
  | none => exact ⟨fun _ => ⟨hg.holds, hg.keeps, hg.cleanup⟩, fun _ hx => nomatch hx⟩
  | some new =>
      have hused := hok.used_within
      have hroom : a.room ∈ handed (some new) (a.size * nalloc) ++ a.head :: a.room :: os := by
        simp [handed]
      have hcov := (hg.holds.covers hroom).within hused
      refine wp_ask hcov fun bs w₂ ⟨hbs, hw⟩ => ?_
      obtain rfl := hw
      have hlen : bs.length = a.size * a.nelts := by
        rw [hbs, length_cells]
      have hle : a.size * a.nelts ≤ a.size * nalloc :=
        Nat.mul_le_mul_left _ (Nat.le_trans hok.used hn)
      have hin : Region.Within ⟨new, bs.length⟩ ⟨new, a.size * nalloc⟩ := by
        refine ⟨Nat.le_refl _, ?_⟩
        simp only [Region.fin_mk, hlen]
        omega
      have hnew := hg.holds.covers (o := ⟨new, a.size * nalloc⟩) List.mem_cons_self
      refine wp_ask (hnew.within hin) fun _ w₃ ⟨hs, he⟩ => ?_
      obtain ⟨hold₃, hk₃⟩ := hg.holds.put hs he hin
      have hfit := hnew.fits
      simp only [Region.fin_mk] at hfit
      refine ⟨fun hx => absurd hx (Option.some_ne_none _), ?_⟩
      rintro a' ⟨⟩
      refine ⟨rfl, ⟨rfl, rfl, rfl⟩, hn, fun _ => hal new rfl, ?_, ?_, ?_, ?_, hg.cleanup⟩
      · refine (hold₃.perm (List.Perm.swap ..)).sub ?_
        simp only [NgxArrayT.head, NgxArrayT.room]
        exact ((List.sublist_cons_self _ _).cons_cons _).cons_cons _
      · simp only [NgxArrayT.used] at hbs ⊢
        rw [World.mem, hs.mem, ← hlen, cells_put (by omega), hlen]
        exact hbs.trans (cells_eq_within hused (hg.keeps.kept a.room (by simp)))
      · intro hb _
        have hz := hg.zero hb new rfl
        have htail : NgxArrayT.tail { a with elts := new, nalloc := nalloc } =
            ⟨new + bs.length, a.size * (nalloc - a.nelts)⟩ := by
          rw [hlen]
          rfl
        have hend : bs.length + a.size * (nalloc - a.nelts) = a.size * nalloc := by
          rw [hlen, ← Nat.mul_add]
          congr 1
          have := hok.used
          omega
        rw [htail, World.mem, hs.mem, cells_put_apart (.inr (Nat.le_refl _)) (by simp; omega)
          (by omega)]
        refine cells_zero_part (r := ⟨new, a.size * nalloc⟩) ⟨Nat.le_add_right _ _, ?_⟩ hz
        simp only [Region.fin_mk]
        omega
      · have hsub : os ⊆ a.head :: a.room :: os := fun o ho => by simp [ho]
        exact (hg.keeps.sub hsub).trans hk₃ hsub

/-! ## One more element, or several -/

theorem Grown.refl (hold : pool.Holds L psize ex w.heap (a.head :: a.room :: os)) :
    Grown L psize ex pool w os a a pool w :=
  ⟨⟨rfl, rfl, rfl⟩, Nat.le_refl _, id, hold, rfl, fun _ hz => hz, .refl .., rfl⟩

/-- What `ngx_array_push_n` leaves: `n` more slots behind the elements, or nothing. -/
structure Pushed (L : Nat → Option Nat) (psize : Nat) (ex : List Nat) (pool : NgxPool) (w : World)
    (os : List Region) (a : NgxArrayT) (n : Nat) (x : Ptr) (a' : NgxArrayT) (pool' : NgxPool)
    (w' : World) : Prop where
  refused : x = none → a' = a ∧ pool'.Holds L psize ex w'.heap (a.head :: a.room :: os) ∧
    Keeps pool w (a.head :: a.room :: os) pool' w'
  made : ∀ m, x = some m → a'.Ok ∧ (a'.addr = a.addr ∧ a'.size = a.size ∧ a'.nelts = a.nelts + n) ∧
    m = a'.elts + a.size * a.nelts ∧
    pool'.Holds L psize ex w'.heap (a'.head :: a'.room :: os) ∧
    cells w'.mem ⟨a'.elts, a.size * a.nelts⟩ = cells w.mem a.used
  fresh : Blank pool.spans w.mem → cells w.mem a.tail = .replicate a.tail.size 0 →
    ∀ m, x = some m → cells w'.mem ⟨m, a.size * n⟩ = .replicate (a.size * n) 0 ∧
      cells w'.mem a'.tail = .replicate a'.tail.size 0
  keeps : Keeps pool w os pool' w'
  cleanup : pool'.cleanup = pool.cleanup

/-- The slots behind the elements of an array that has grown enough. -/
theorem Grown.pushed (hg : Grown L psize ex pool w os a a' pool' w') (hok : a.Ok)
    (hn : a.nelts + n ≤ a'.nalloc) :
    Pushed L psize ex pool w os a n (nextSlots a' pool' n).1 (nextSlots a' pool' n).2.1
      (nextSlots a' pool' n).2.2 w' := by
  obtain ⟨haddr, hsize, hnelts⟩ := hg.same
  have hfit := room_fits hg.holds
  rw [hsize] at hfit
  have hle : a.size * (a.nelts + n) ≤ a.size * a'.nalloc := Nat.mul_le_mul_left _ hn
  have hnalloc : a'.nalloc ≤ a.size * a'.nalloc := Nat.le_mul_of_pos_left _ hok.size
  rw [Nat.mul_add] at hle
  have hnext : nextSlots a' pool' n =
      (some (a'.elts + a.size * a.nelts), { a' with nelts := a.nelts + n }, pool') := by
    rw [nextSlots, hsize, hnelts, pmul_eq (by omega), padd_eq (by omega), padd_eq (by omega)]
  rw [hnext]
  refine ⟨fun hx => absurd hx (Option.some_ne_none _), ?_, ?_, hg.keeps, hg.cleanup⟩
  · rintro m ⟨⟩
    have he := hg.elements
    simp only [NgxArrayT.used, hsize, hnelts] at he
    refine ⟨⟨hsize ▸ hok.size, Nat.lt_of_lt_of_le hok.nalloc hg.nalloc, hn, ?_⟩,
      ⟨haddr, hsize, rfl⟩, rfl, hg.holds, he⟩
    exact ⟨haddr ▸ hok.aligned.1, hg.aligned hok.aligned.2⟩
  · rintro hb hz m ⟨⟩
    have ht := hg.fresh hb hz
    have hend : a.size * (a'.nalloc - a.nelts) =
        a.size * n + a.size * (a'.nalloc - (a.nelts + n)) := by
      rw [← Nat.mul_add]
      congr 1
      omega
    have htail : a'.tail = ⟨a'.elts + a.size * a.nelts, a.size * (a'.nalloc - a.nelts)⟩ := by
      rw [NgxArrayT.tail, hsize, hnelts]
    have htail' : NgxArrayT.tail { a' with nelts := a.nelts + n } =
        ⟨a'.elts + a.size * a.nelts + a.size * n, a.size * (a'.nalloc - (a.nelts + n))⟩ := by
      rw [NgxArrayT.tail, hsize, Nat.mul_add, Nat.add_assoc]
    rw [htail] at ht
    refine ⟨cells_zero_part ?_ ht, ?_⟩
    · refine ⟨Nat.le_refl _, ?_⟩
      simp only [Region.fin_mk]
      omega
    · rw [htail']
      refine cells_zero_part ?_ ht
      simp only [Region.Within, Region.fin_mk]
      omega

/-- A move that is big enough, or refused. -/
theorem Moved.pushed {nalloc : Nat} {x : Option NgxArrayT}
    (hm : Moved L psize ex pool w os a nalloc x pool' w') (hok : a.Ok) (hn : a.nelts + n ≤ nalloc) :
    wp poolKernel Harmless
      (match (x, pool') with
        | (none, p) => (return (none, a, p) : Pool (Ptr × NgxArrayT × NgxPool))
        | (some a, p) => return nextSlots a p n)
      (fun r w' => Pushed L psize ex pool w os a n r.1 r.2.1 r.2.2 w') w' := by
  cases x with
  | none =>
      obtain ⟨hold, hk, hcl⟩ := hm.refused rfl
      exact ⟨fun _ => ⟨rfl, hold, hk⟩, (fun _ hx => nomatch hx), (fun _ _ _ hx => nomatch hx),
        hk.sub (fun o ho => by simp [ho]), hcl⟩
  | some a' =>
      obtain ⟨rfl, hg⟩ := hm.made a' rfl
      exact hg.pushed hok hn

/-- The specification of `ngx_array_push`. -/
theorem wp_ngxArrayPush (hold : pool.Holds L psize ex w.heap (a.head :: a.room :: os))
    (hok : a.Ok) :
    wp poolKernel Harmless (ngxArrayPush a pool)
      (fun r w' => Pushed L psize ex pool w os a 1 r.1 r.2.1 r.2.2 w') w := by
  have hfit := room_fits hold
  have hnalloc : a.nalloc ≤ a.size * a.nalloc := Nat.le_mul_of_pos_left _ hok.size
  have hsize : a.size ≤ a.size * a.nalloc := Nat.le_mul_of_pos_right _ hok.nalloc
  obtain ⟨-, -, -, -, -, hlt⟩ := hold.block hold.d_mem
  obtain ⟨-, hlast, -⟩ := hold.block hold.d_mem
  rw [ngxArrayPush]
  by_cases hfull : a.nelts = a.nalloc
  · rw [if_pos hfull, pmul_eq (a := a.size) (b := a.nalloc) (by omega)]
    simp only
    rw [padd_eq (a := a.elts) (by omega), padd_eq (a := pool.d.last) (by omega)]
    split
    · rename_i hroom
      have hg := grown_inPlace (k := 1) hold hok hroom.1 (by omega)
      rw [padd_eq (a := a.nalloc) (by omega)]
      rw [Nat.mul_one] at hg
      refine hg.pushed hok ?_
      simp only
      omega
    · have hmove := wp_ngxArrayMove (a.nalloc * 2) hold hok (by omega)
      have hbytes : pmul 2 (a.size * a.nalloc) = a.size * (a.nalloc * 2) := by
        rw [pmul_eq (by omega), Nat.mul_comm, Nat.mul_assoc]
      have hlen : a.size * a.nalloc = a.size * a.nelts := by rw [hfull]
      rw [hbytes, hlen, pmul_eq (a := a.nalloc) (by omega)]
      refine wp_seq hmove fun r w₁ hm => ?_
      have hpos := hok.nalloc
      exact hm.pushed hok (by omega)
  · rw [if_neg hfull]
    have hused := hok.used
    exact (Grown.refl hold).pushed hok (by omega)

/-- What `ngx_array_push` leaves of all the slots, in use or not. -/
structure Slots (pool : NgxPool) (w : World) (a : NgxArrayT) (x : Ptr) (a' : NgxArrayT)
    (w' : World) : Prop where
  nalloc : x ≠ none → a.nalloc ≤ a'.nalloc
  old : x ≠ none → cells w'.mem ⟨a'.elts, a.size * a.nalloc⟩ = cells w.mem a.room
  new : x ≠ none → Blank pool.spans w.mem →
    cells w'.mem ⟨a'.elts + a.size * a.nalloc, a.size * (a'.nalloc - a.nalloc)⟩ =
      .replicate (a.size * (a'.nalloc - a.nalloc)) 0

/-- The slots not in use are kept as well, and those that are new are zero. -/
theorem wp_ngxArrayPush_slots (hold : pool.Holds L psize ex w.heap (a.head :: a.room :: os))
    (hok : a.Ok) :
    wp poolKernel Harmless (ngxArrayPush a pool)
      (fun r w' => Pushed L psize ex pool w os a 1 r.1 r.2.1 r.2.2 w' ∧
        Slots pool w a r.1 r.2.1 w') w := by
  by_cases hfull : a.nelts = a.nalloc
  · refine wp_mono ?_ (wp_ngxArrayPush hold hok)
    rintro ⟨x, a', pool'⟩ w' hp
    refine ⟨hp, ?_⟩
    cases x with
    | none => exact ⟨fun hx => absurd rfl hx, fun hx => absurd rfl hx, fun hx => absurd rfl hx⟩
    | some m =>
        obtain ⟨hok', ⟨-, hsize, hnelts⟩, hm, -, helts⟩ := hp.made m rfl
        have hused := hok'.used
        simp only at hsize hnelts hm helts hused
        refine ⟨fun _ => by simp only; omega, fun _ => ?_, fun _ hb => ?_⟩
        · have hall : a.room = a.used := by rw [NgxArrayT.room, NgxArrayT.used, hfull]
          rw [hall, ← hfull]
          exact helts
        · have htail : cells w.mem a.tail = .replicate a.tail.size 0 := by
            simp only [NgxArrayT.tail, hfull, Nat.sub_self, Nat.mul_zero]
            rfl
          obtain ⟨hz, hz'⟩ := hp.fresh hb htail m rfl
          have hsplit : a.size * (a'.nalloc - a.nalloc) =
              a.size * 1 + a.size * (a'.nalloc - a'.nelts) := by
            rw [← Nat.mul_add]
            congr 1
            omega
          have hend : a'.elts + a.size * a'.nelts = m + a.size * 1 := by
            rw [hm, hnelts, Nat.mul_add, Nat.add_assoc]
          simp only [NgxArrayT.tail, hsize, hend] at hz'
          rw [hsplit, cells_add, ← hfull, ← hm, hz, hz', List.replicate_append_replicate]
  · have hused := hok.used
    have hp : Pushed L psize ex pool w os a 1 (nextSlots a pool 1).1 (nextSlots a pool 1).2.1
        (nextSlots a pool 1).2.2 w := (Grown.refl hold).pushed hok (by omega)
    rw [ngxArrayPush, if_neg hfull]
    refine ⟨hp, fun _ => Nat.le_refl _, fun _ => rfl, fun _ _ => ?_⟩
    simp only [nextSlots, Nat.sub_self, Nat.mul_zero]
    rfl

/-- The specification of `ngx_array_push_n`, for elements that fit into memory. -/
theorem wp_ngxArrayPushN (hold : pool.Holds L psize ex w.heap (a.head :: a.room :: os))
    (hok : a.Ok) (hn : n * a.size < 2 ^ 63) :
    wp poolKernel Harmless (ngxArrayPushN a pool n)
      (fun r w' => Pushed L psize ex pool w os a n r.1 r.2.1 r.2.2 w') w := by
  have hfit := room_fits hold
  have hnalloc : a.nalloc ≤ a.size * a.nalloc := Nat.le_mul_of_pos_left _ hok.size
  have hns : n ≤ n * a.size := Nat.le_mul_of_pos_right _ hok.size
  have hcomm : n * a.size = a.size * n := Nat.mul_comm ..
  have hused := hok.used
  obtain ⟨-, hlast, -, -, -, hlt⟩ := hold.block hold.d_mem
  rw [ngxArrayPushN]
  rw [padd_eq (a := a.nelts) (by omega)]
  by_cases hfull : a.nelts + n > a.nalloc
  · simp only [gt_iff_lt, hfull, if_true, pmul_eq (a := a.size) (b := a.nalloc) (by omega),
      pmul_eq (a := n) (b := a.size) (by omega)]
    rw [padd_eq (a := a.elts) (by omega), padd_eq (a := pool.d.last) (by omega)]
    split
    · rename_i hroom
      rw [hcomm] at hroom ⊢
      have hg := grown_inPlace (k := n) hold hok hroom.1 hroom.2
      rw [padd_eq (by omega)]
      exact hg.pushed hok (by simp only; omega)
    · -- twice the larger of what is asked for and what is there
      obtain ⟨k, hk, hkn, hka, hks⟩ : ∃ k, (if n ≥ a.nalloc then n else a.nalloc) = k ∧ n ≤ k ∧
          a.nalloc ≤ k ∧ a.size * k < 2 ^ 63 := by
        split
        · exact ⟨n, rfl, Nat.le_refl _, by omega, by omega⟩
        · exact ⟨a.nalloc, rfl, by omega, Nat.le_refl _, by omega⟩
      have hkle : k ≤ a.size * k := Nat.le_mul_of_pos_left _ hok.size
      have h2k : a.size * (2 * k) = 2 * (a.size * k) := by
        rw [← Nat.mul_assoc, Nat.mul_comm a.size, Nat.mul_assoc]
      have hbytes : pmul (2 * k) a.size = a.size * (2 * k) := by
        rw [pmul_eq (by rw [Nat.mul_comm, h2k]; omega), Nat.mul_comm]
      have hlen : pmul a.nelts a.size = a.size * a.nelts := by
        have hle : a.size * a.nelts ≤ a.size * a.nalloc := Nat.mul_le_mul_left _ hused
        rw [pmul_eq (by rw [Nat.mul_comm]; omega), Nat.mul_comm]
      have hmove := wp_ngxArrayMove (2 * k) hold hok (by omega)
      rw [hk, pmul_eq (a := 2) (by omega), hbytes, hlen]
      refine wp_seq hmove fun r w₁ hm => ?_
      exact hm.pushed hok (by omega)
  · simp only [gt_iff_lt, hfull, if_false]
    exact (Grown.refl hold).pushed hok (by omega)

/-! ## The end of an array -/

/-- What `ngx_array_destroy` leaves of the others. -/
theorem holds_ngxArrayDestroy (hold : pool.Holds L psize ex h (a.head :: a.room :: os)) :
    (ngxArrayDestroy a pool).Holds L psize ex h os := by
  have hfit := room_fits hold
  have hhead := (hold.covers (o := a.head) List.mem_cons_self).fits
  simp only [NgxArrayT.head, Region.fin_mk] at hhead
  obtain ⟨-, -, -, -, -, hlt⟩ := hold.block hold.d_mem
  have hroom : ∃ p, p.Holds L psize ex h (a.head :: os) ∧
      ngxArrayDestroy a pool =
        if padd a.addr sizeofArray = p.d.last then p.setLast a.addr else p := by
    rw [ngxArrayDestroy, pmul_eq (by omega), padd_eq (a := a.elts) (by omega)]
    split
    · rename_i hlast
      refine ⟨_, ?_, rfl⟩
      rw [← hlast, psub_eq (by omega) (by omega), Nat.add_sub_cancel]
      exact (hold.perm (List.Perm.swap ..)).rewind hlast
    · exact ⟨_, (hold.perm (List.Perm.swap ..)).sub (List.sublist_cons_self _ _), rfl⟩
  obtain ⟨p, hp, he⟩ := hroom
  rw [he, padd_eq (by omega)]
  split
  · rename_i hlast
    exact hp.rewind hlast
  · exact hp.sub (List.sublist_cons_self _ _)

theorem short_ngxArrayDestroy (hs : pool.Short) : (ngxArrayDestroy a pool).Short := by
  simp only [ngxArrayDestroy]
  split <;> split
  · exact setLast_short (setLast_short hs)
  · exact setLast_short hs
  · exact setLast_short hs
  · exact hs

end

end TestDbug
