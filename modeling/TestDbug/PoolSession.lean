/-
# `TestDbug.PoolSession` — a pool in use

Somebody uses a pool: asks for pieces in the four ways there are and fills
them, writes to them and frees them, registers cleanup handlers, keeps arrays
in the pool and pushes elements to them, in any order and with any request
refused.  He knows what he put where, as lists of bytes (`Store`).

`Good` is the invariant of such a session: reading the memory gives what the
requests granted so far, replayed on the lists, have left, and nothing given
away meets anything else given away.  `good_serve` is the step, one lemma for
each kind of request.
-/
import TestDbug.PoolLife

open ByteMemory Interaction

namespace TestDbug

/-! ## The user -/

/-- How a piece is asked for. -/
inductive Way where
  | palloc
  | pnalloc
  | pcalloc
  | pmemalign (alignment : Nat)
deriving DecidableEq

def Way.ask (pool : NgxPool) (n : Nat) : Way → Pool (Ptr × NgxPool)
  | .palloc => ngxPalloc pool n
  | .pnalloc => ngxPnalloc pool n
  | .pcalloc => ngxPcalloc pool n
  | .pmemalign alignment => ngxPmemalign pool n alignment

inductive PoolOp where
  /-- Ask for room for `bs`, and put them there. -/
  | get (way : Way) (bs : List Byte)
  /-- Write to the `i`-th piece. -/
  | write (i off : Nat) (bs : List Byte)
  | pfree (i : Nat)
  /-- Register a handler with its data. -/
  | cleanupAdd (f : CleanupPt) (bs : List Byte)
  | runCleanupFile (fd : BitVec 32)
  | arrayCreate (n size : Nat)
  | arrayPush (i : Nat) (e : List Byte)
  | arrayPushN (i : Nat) (es : List (List Byte))
  | arrayDestroy (i : Nat)
  | reset

/-- What the user has: the pieces and the arrays, the latest first, and the
requests that were granted. -/
structure Client where
  pool : NgxPool
  objs : List Region
  arrs : List NgxArrayT
  granted : List PoolOp

/-- `c->handler = f` for the latest record. -/
def NgxPool.setHandler (pool : NgxPool) (f : CleanupPt) : NgxPool :=
  match pool.cleanup with
  | [] => pool
  | c :: cs => { pool with cleanup := { c with handler := some f } :: cs }

/-- One request. -/
def serve (op : PoolOp) (c : Client) : Pool Client :=
  match op with
  | .get way bs => do
      let (p, pool) ← way.ask c.pool bs.length
      match p with
      | none => return { c with pool := pool }
      | some a =>
          sys (.store a bs)
          return { c with
            pool := pool, objs := ⟨a, bs.length⟩ :: c.objs, granted := c.granted ++ [op] }
  | .write i off bs =>
      match c.objs[i]? with
      | none => return c
      | some o => do
          sys (.store (o.start + off) bs)
          return { c with granted := c.granted ++ [op] }
  | .pfree i =>
      match c.objs[i]? with
      | none => return c
      | some o => do
          let (rc, pool) ← ngxPfree c.pool (some o.start)
          if rc = NGX_OK then
            return { c with pool := pool, objs := c.objs.eraseIdx i, granted := c.granted ++ [op] }
          else return { c with pool := pool }
  | .cleanupAdd f bs => do
      let (r, pool) ← ngxPoolCleanupAdd c.pool bs.length
      match r with
      | none => return { c with pool := pool }
      | some _ =>
          let c := { c with pool := pool.setHandler f, granted := c.granted ++ [op] }
          match (pool.cleanup.head?.bind NgxPoolCleanup.data) with
          | none => return c
          | some data =>
              sys (.store data bs)
              return c
  | .runCleanupFile fd => do
      let pool ← ngxPoolRunCleanupFile c.pool fd
      return { c with pool := pool, granted := c.granted ++ [op] }
  | .arrayCreate n size => do
      let (a, pool) ← ngxArrayCreate c.pool n size
      match a with
      | none => return { c with pool := pool }
      | some a => return { c with
          pool := pool, arrs := a :: c.arrs, granted := c.granted ++ [op] }
  | .arrayPush i e =>
      match c.arrs[i]? with
      | none => return c
      | some a => do
          let (x, a, pool) ← ngxArrayPush a c.pool
          match x with
          | none => return { c with pool := pool }
          | some elt =>
              sys (.store elt e)
              return { c with
                pool := pool, arrs := c.arrs.set i a, granted := c.granted ++ [op] }
  | .arrayPushN i es =>
      match c.arrs[i]? with
      | none => return c
      | some a => do
          let (x, a, pool) ← ngxArrayPushN a c.pool es.length
          match x with
          | none => return { c with pool := pool }
          | some elt =>
              sys (.store elt es.flatten)
              return { c with
                pool := pool, arrs := c.arrs.set i a, granted := c.granted ++ [op] }
  | .arrayDestroy i =>
      match c.arrs[i]? with
      | none => return c
      | some a => return { c with
          pool := ngxArrayDestroy a c.pool, arrs := c.arrs.eraseIdx i,
          granted := c.granted ++ [op] }
  | .reset => do
      let pool ← ngxResetPool c.pool
      return { c with pool := pool, objs := [], arrs := [], granted := c.granted ++ [op] }

/-- What a user of the pool has to see to: no empty pieces, writes inside of a
piece, elements of the size of the slots, sizes that do not overflow, data
for the handlers that read it, and no reset while handlers are registered. -/
def Proper (op : PoolOp) (c : Client) (_ : World) : Prop :=
  match op with
  | .get _ bs => bs ≠ []
  | .write i off bs => ∀ o, c.objs[i]? = some o → off + bs.length ≤ o.size
  | .cleanupAdd f bs => f.ReadsFile → 16 ≤ bs.length
  | .arrayCreate n size => 0 < n ∧ 0 < size ∧ n * size < 2 ^ 64
  | .arrayPush i e => ∀ a, c.arrs[i]? = some a → e.length = a.size
  | .arrayPushN i es =>
      ∀ a, c.arrs[i]? = some a → (∀ e ∈ es, e.length = a.size) ∧ es.length * a.size < 2 ^ 63
  | .reset => c.pool.cleanup = []
  | _ => True

/-! ## What he means -/

/-- Pieces and arrays as lists, the handlers registered, and what was asked of
the system. -/
structure Store where
  objs : List (Way × List Byte)
  arrs : List (List (List Byte))
  entries : List Entry
  effects : List PoolReq

def Store.empty : Store := ⟨[], [], [], []⟩

def Store.apply (s : Store) : PoolOp → Store
  | .get way bs => { s with objs := (way, bs) :: s.objs }
  | .write i off bs => { s with
      objs := s.objs.modify i fun o => (o.1, o.2.take off ++ bs ++ o.2.drop (off + bs.length)) }
  | .pfree i => { s with objs := s.objs.eraseIdx i }
  | .cleanupAdd f bs => { s with entries := (some f, bs) :: s.entries }
  | .runCleanupFile fd => { s with
      entries := (closeFile fd s.entries).1, effects := s.effects ++ (closeFile fd s.entries).2 }
  | .arrayCreate _ _ => { s with arrs := [] :: s.arrs }
  | .arrayPush i e => { s with arrs := s.arrs.modify i (· ++ [e]) }
  | .arrayPushN i es => { s with arrs := s.arrs.modify i (· ++ es) }
  | .arrayDestroy i => { s with arrs := s.arrs.eraseIdx i }
  | .reset => { s with objs := [], arrs := [], entries := [] }

/-- The requests granted, replayed. -/
def Client.store (c : Client) : Store := c.granted.foldl Store.apply .empty

/-! ## What the memory shows -/

/-- The piece holds the bytes, where the user may find them. -/
structure Piece (m : Mem 64 Byte) (o : Region) (x : Way × List Byte) : Prop where
  size : o.size = x.2.length
  bytes : cells m o = x.2
  aligned : x.1 ≠ .pnalloc → o.start % 8 = 0

/-- The array has these elements. -/
structure Lists (m : Mem 64 Byte) (a : NgxArrayT) (es : List (List Byte)) : Prop where
  ok : a.Ok
  length : es.length = a.nelts
  size : ∀ e ∈ es, e.length = a.size
  bytes : cells m a.used = es.flatten

/-- The memory of an array. -/
def NgxArrayT.regions (a : NgxArrayT) : List Region := [a.head, a.room]

/-- All the memory the pool has given away. -/
def Client.owned (c : Client) : List Region :=
  c.objs ++ c.arrs.flatMap NgxArrayT.regions ++ dataRegions c.pool.cleanup c.store.entries

/-- Reading the memory gives the store. -/
structure Shows (m : Mem 64 Byte) (c : Client) (s : Store) : Prop where
  objs : List.Forall₂ (Piece m) c.objs s.objs
  arrs : List.Forall₂ (Lists m) c.arrs s.arrs
  entries : List.Forall₂ (Backed m) c.pool.cleanup s.entries

/-- What the handlers of the entries will ask for, but for where their data is. -/
def Store.pending (s : Store) : List PoolReq :=
  s.entries.flatMap fun e => (e.1.map (CleanupPt.effects e.2 none)).getD []

/-- What the handler of a registration asks for. -/
def PoolOp.asks : PoolOp → List PoolReq
  | .cleanupAdd f bs => f.effects bs none
  | _ => []

/-- A session going well. -/
structure Good (L : Nat → Option Nat) (psize : Nat) (es : List PoolReq) (c : Client) (w : World) :
    Prop where
  holds : c.pool.Holds L psize [] w.heap c.owned
  shows : Shows w.mem c c.store
  effects : w.effects = es ++ c.store.effects
  accounts : (c.store.effects ++ c.store.pending).Perm (c.granted.flatMap PoolOp.asks)

/-- No memory is used a second time. -/
def PoolOp.Fresh (op : PoolOp) : Prop := op ≠ .reset ∧ ∀ i, op ≠ .arrayDestroy i

/-- What a request leaves: a session going well, and blocks as good as before. -/
structure Went (L : Nat → Option Nat) (psize : Nat) (es : List PoolReq) (op : PoolOp) (c : Client)
    (w : World) (c' : Client) (w' : World) : Prop where
  good : Good L psize es c' w'
  blank : op.Fresh → Blank c.pool.spans w.mem → Blank c'.pool.spans w'.mem
  short : op ≠ .reset → c.pool.Short → c'.pool.Short

section
variable {L : Nat → Option Nat} {psize : Nat} {es₀ : List PoolReq} {pool pool' : NgxPool}
  {w w' : World} {m m' : Mem 64 Byte} {c c' : Client} {op : PoolOp}

/-! ## Frames -/

theorem forall₂_mem {α β : Type} {R S : α → β → Prop} {as : List α} {bs : List β}
    (h : List.Forall₂ R as bs) (hS : ∀ a ∈ as, ∀ b, R a b → S a b) : List.Forall₂ S as bs := by
  induction h with
  | nil => exact .nil
  | cons hab _ ih =>
      exact .cons (hS _ List.mem_cons_self _ hab)
        (ih fun a ha => hS a (List.mem_cons_of_mem _ ha))

/-- Where two lists go together, so do their parts around an index. -/
theorem forall₂_split {α β : Type} {R : α → β → Prop} {as : List α} {bs : List β} {i : Nat} {a : α}
    (h : List.Forall₂ R as bs) (hi : as[i]? = some a) :
    ∃ pre post pre' b post', as = pre ++ a :: post ∧ bs = pre' ++ b :: post' ∧
      pre.length = i ∧ pre'.length = i ∧ List.Forall₂ R pre pre' ∧ R a b ∧
      List.Forall₂ R post post' := by
  induction h generalizing i with
  | nil => simp at hi
  | @cons x y as bs hxy hrest ih =>
      cases i with
      | zero =>
          obtain rfl : x = a := by simpa using hi
          exact ⟨[], as, [], y, bs, rfl, rfl, rfl, rfl, .nil, hxy, hrest⟩
      | succ i =>
          obtain ⟨pre, post, pre', b, post', rfl, rfl, h₁, h₂, h₃, h₄, h₅⟩ := ih (by simpa using hi)
          exact ⟨x :: pre, post, y :: pre', b, post', rfl, rfl, by simp [h₁], by simp [h₂],
            .cons hxy h₃, h₄, h₅⟩

theorem eraseIdx_middle {α : Type} (pre post : List α) (a : α) :
    (pre ++ a :: post).eraseIdx pre.length = pre ++ post := by
  rw [List.eraseIdx_append_of_length_le (Nat.le_refl _), Nat.sub_self, List.eraseIdx_cons_zero]

theorem Piece.frame {o : Region} {x : Way × List Byte} (hp : Piece m o x)
    (hk : cells m' o = cells m o) : Piece m' o x :=
  ⟨hp.size, hk.trans hp.bytes, hp.aligned⟩

theorem Lists.frame {a : NgxArrayT} {es : List (List Byte)} (hl : Lists m a es)
    (hk : cells m' a.room = cells m a.room) : Lists m' a es := by
  refine ⟨hl.ok, hl.length, hl.size, ?_⟩
  rw [← hl.bytes]
  exact cells_eq_within hl.ok.used_within hk

theorem backed_frame {cs : List NgxPoolCleanup} {es : List Entry}
    (h : List.Forall₂ (Backed m) cs es)
    (hk : ∀ o ∈ dataRegions cs es, cells m' o = cells m o) : List.Forall₂ (Backed m') cs es := by
  induction h with
  | nil => exact .nil
  | @cons c e cs es hc _ ih =>
      have hmem : ∀ o, o ∈ dataRegions (c :: cs) (e :: es) ↔
          o ∈ handed c.data e.2.length ∨ o ∈ dataRegions cs es := by
        intro o
        simp [dataRegions]
      exact .cons (hc.frame fun o ho => hk o ((hmem o).mpr (.inl ho)))
        (ih fun o ho => hk o ((hmem o).mpr (.inr ho)))

/-- A piece with a part of it overwritten. -/
theorem Piece.write {o : Region} {x : Way × List Byte} {off : Nat} {bs : List Byte}
    (hp : Piece m o x) (hle : off + bs.length ≤ o.size) (hfit : o.fin < 2 ^ 63) :
    Piece (put m (o.start + off) bs) o
      (x.1, x.2.take off ++ bs ++ x.2.drop (off + bs.length)) := by
  obtain ⟨a, n⟩ := o
  obtain ⟨way, xs⟩ := x
  obtain ⟨hsize, hbytes, hal⟩ := hp
  simp only [Region.fin_mk] at hsize hle hfit
  refine ⟨?_, ?_, hal⟩
  · simp only [List.length_append, List.length_take, List.length_drop]
    omega
  · show cells (put m (a + off) bs) ⟨a, n⟩ = overwrite xs (off, bs)
    rw [cells_put_part hle (by omega), hbytes]

theorem pieces_frame {os : List Region} {xs : List (Way × List Byte)}
    (h : List.Forall₂ (Piece m) os xs) (hk : ∀ o ∈ os, cells m' o = cells m o) :
    List.Forall₂ (Piece m') os xs :=
  forall₂_mem h fun o ho _ hp => hp.frame (hk o ho)

theorem lists_frame {as : List NgxArrayT} {ess : List (List (List Byte))}
    (h : List.Forall₂ (Lists m) as ess)
    (hk : ∀ o ∈ as.flatMap NgxArrayT.regions, cells m' o = cells m o) :
    List.Forall₂ (Lists m') as ess :=
  forall₂_mem h fun a ha _ hl =>
    hl.frame (hk _ (List.mem_flatMap.mpr ⟨a, ha, by simp [NgxArrayT.regions]⟩))

/-- What keeps the memory given away keeps what it shows. -/
theorem Shows.frame (hs : Shows m c c.store) (hk : ∀ o ∈ c.owned, cells m' o = cells m o) :
    Shows m' c c.store := by
  refine ⟨pieces_frame hs.objs ?_, lists_frame hs.arrs ?_, backed_frame hs.entries ?_⟩
  all_goals intro o ho; exact hk o (by simp [Client.owned, ho])

/-! ## Requests -/

theorem store_granted (c : Client) (op : PoolOp) (pool : NgxPool) (objs : List Region)
    (arrs : List NgxArrayT) :
    Client.store ⟨pool, objs, arrs, c.granted ++ [op]⟩ = c.store.apply op := by
  simp [Client.store, List.foldl_append]

/-- A request refused. -/
theorem Good.refused (hg : Good L psize es₀ c w)
    (hold : pool'.Holds L psize [] w'.heap c.owned) (hk : Keeps c.pool w c.owned pool' w')
    (hcl : pool'.cleanup = c.pool.cleanup) : Good L psize es₀ { c with pool := pool' } w' where
  holds := by
    rw [Client.owned]
    simp only [hcl]
    exact hold
  shows := by
    have hs := hg.shows.frame hk.kept
    refine ⟨hs.objs, hs.arrs, ?_⟩
    simp only [hcl]
    exact hs.entries
  effects := hk.effects.trans hg.effects
  accounts := hg.accounts

/-- A request granted that registers nothing and runs nothing. -/
theorem Good.granted {objs : List Region} {arrs : List NgxArrayT} (hg : Good L psize es₀ c w)
    (hasks : op.asks = []) (hentries : (c.store.apply op).entries = c.store.entries)
    (heff : (c.store.apply op).effects = c.store.effects)
    (hcl : pool'.cleanup = c.pool.cleanup)
    (hold : pool'.Holds L psize [] w'.heap
      (objs ++ arrs.flatMap NgxArrayT.regions ++ dataRegions c.pool.cleanup c.store.entries))
    (hobjs : List.Forall₂ (Piece w'.mem) objs (c.store.apply op).objs)
    (harrs : List.Forall₂ (Lists w'.mem) arrs (c.store.apply op).arrs)
    (hk : ∀ o ∈ dataRegions c.pool.cleanup c.store.entries, cells w'.mem o = cells w.mem o)
    (he : w'.effects = w.effects) :
    Good L psize es₀ ⟨pool', objs, arrs, c.granted ++ [op]⟩ w' where
  holds := by
    rw [Client.owned, store_granted, hentries]
    simp only [hcl]
    exact hold
  shows := by
    rw [store_granted]
    refine ⟨hobjs, harrs, ?_⟩
    rw [hentries]
    simp only [hcl]
    exact backed_frame hg.shows.entries hk
  effects := by
    rw [store_granted, heff, he]
    exact hg.effects
  accounts := by
    rw [store_granted, heff, Store.pending, hentries, List.flatMap_append, List.flatMap_singleton,
      hasks, List.append_nil]
    exact hg.accounts

theorem Good.went {os : List Region} (hg : Good L psize es₀ c' w')
    (hk : Keeps c.pool w os c'.pool w') : Went L psize es₀ op c w c' w' :=
  ⟨hg, fun _ => hk.blank, fun _ => hk.short⟩

/-- A request that is not carried out. -/
theorem Good.still (hg : Good L psize es₀ c w) : Went L psize es₀ op c w c w :=
  hg.went (Keeps.refl _ _ [])

theorem wp_way {L : Nat → Option Nat} {ex : List Nat} {os : List Region} {n : Nat} {way : Way}
    (hold : pool.Holds L psize ex w.heap os) (hn : 0 < n) :
    wp poolKernel Harmless (way.ask pool n)
      (fun r w' => Grant L psize ex pool w os n r.1 r.2 w' ∧ (way ≠ .pnalloc → Aligned r.1)) w := by
  cases way with
  | palloc => exact wp_mono (fun _ _ hg => ⟨hg.1, fun _ => hg.2⟩) (wp_ngxPalloc hold hn)
  | pnalloc => exact wp_mono (fun _ _ hg => ⟨hg, fun hne => absurd rfl hne⟩) (wp_ngxPnalloc hold hn)
  | pcalloc => exact wp_mono (fun _ _ hg => ⟨hg.1, fun _ => hg.2.1⟩) (wp_ngxPcalloc hold hn)
  | pmemalign alignment =>
      exact wp_mono (fun _ _ hg => ⟨hg.1, fun _ => hg.2⟩)
        (wp_ngxPmemalign alignment hold hn)

/-- A piece, and what its user puts into it. -/
theorem good_get {way : Way} {bs : List Byte} (hg : Good L psize es₀ c w) (hbs : bs ≠ []) :
    wp poolKernel Harmless (serve (.get way bs) c) (Went L psize es₀ (.get way bs) c w) w := by
  have hpos : 0 < bs.length := List.length_pos_iff.mpr hbs
  rw [serve]
  refine wp_seq (wp_way hg.holds hpos) fun r w₁ ⟨hgrant, hal⟩ => ?_
  obtain ⟨x, pool₁⟩ := r
  cases x with
  | none => exact (hg.refused hgrant.holds hgrant.keeps hgrant.cleanup).went hgrant.keeps
  | some a =>
      have hcov := hgrant.holds.covers (o := ⟨a, bs.length⟩) List.mem_cons_self
      refine wp_ask hcov fun _ w₂ ⟨hs, he⟩ => ?_
      obtain ⟨hold, hk⟩ := hgrant.holds.put hs he (.refl _)
      have hkeeps := hgrant.keeps.trans hk (fun _ ho => ho)
      have hfit := hcov.fits
      simp only [Region.fin_mk] at hfit
      refine Good.went ?_ hkeeps
      refine hg.granted rfl rfl rfl hgrant.cleanup hold ?_ ?_ ?_ hkeeps.effects
      · refine .cons ⟨rfl, ?_, fun hne => hal hne a rfl⟩ ?_
        · rw [World.mem, hs.mem]
          exact cells_put (by omega)
        · exact pieces_frame hg.shows.objs fun o ho => hkeeps.kept o (by simp [Client.owned, ho])
      · exact lists_frame hg.shows.arrs fun o ho => hkeeps.kept o (by simp [Client.owned, ho])
      · exact fun o ho => hkeeps.kept o (by simp [Client.owned, ho])

/-- Writing to a piece. -/
theorem good_write {i off : Nat} {bs : List Byte} (hg : Good L psize es₀ c w)
    (hp : ∀ o, c.objs[i]? = some o → off + bs.length ≤ o.size) :
    wp poolKernel Harmless (serve (.write i off bs) c)
      (Went L psize es₀ (.write i off bs) c w) w := by
  rw [serve]
  cases hi : c.objs[i]? with
  | none => exact hg.still
  | some o =>
      have hle := hp o hi
      obtain ⟨pre, post, pre', x, post', hobjs, hxs, hpre, hpre', hF₁, hpiece, hF₂⟩ :=
        forall₂_split hg.shows.objs hi
      have hin : Region.Within ⟨o.start + off, bs.length⟩ o := by
        refine ⟨Nat.le_add_right _ _, ?_⟩
        simp only [Region.fin]
        omega
      have hperm : c.owned.Perm (o :: (pre ++ post ++ c.arrs.flatMap NgxArrayT.regions ++
          dataRegions c.pool.cleanup c.store.entries)) := by
        rw [Client.owned, hobjs]
        simp only [List.append_assoc, List.cons_append]
        exact List.perm_middle
      have hold := hg.holds.perm hperm
      have hcov := (hold.covers List.mem_cons_self).within hin
      refine wp_ask hcov ?_
      rintro _ w₁ ⟨hs, he⟩
      obtain ⟨hold₁, hk⟩ := hold.put hs he hin
      refine Good.went ?_ hk
      refine hg.granted rfl rfl rfl rfl (hold₁.perm hperm.symm) ?_ ?_ ?_ he
      · have hmod : (c.store.apply (.write i off bs)).objs =
            pre' ++ (x.1, x.2.take off ++ bs ++ x.2.drop (off + bs.length)) :: post' := by
          simp only [Store.apply, hxs]
          rw [List.modify_eq_take_cons_drop (by simp [hpre'])]
          simp [← hpre']
        rw [hmod, hobjs]
        refine List.rel_append ?_ (.cons ?_ ?_)
        · exact pieces_frame hF₁ fun r hr => hk.kept r (by simp [hr])
        · rw [World.mem, hs.mem]
          exact hpiece.write hle (hold.covers List.mem_cons_self).fits
        · exact pieces_frame hF₂ fun r hr => hk.kept r (by simp [hr])
      · exact lists_frame hg.shows.arrs fun r hr => hk.kept r (by simp only [List.mem_append]; tauto)
      · exact fun r hr => hk.kept r (by simp [hr])

/-- Freeing a piece. -/
theorem good_pfree {i : Nat} (hg : Good L psize es₀ c w) :
    wp poolKernel Harmless (serve (.pfree i) c) (Went L psize es₀ (.pfree i) c w) w := by
  rw [serve]
  cases hi : c.objs[i]? with
  | none => exact hg.still
  | some o =>
      obtain ⟨pre, post, pre', x, post', hobjs, hxs, hpre, hpre', hF₁, -, hF₂⟩ :=
        forall₂_split hg.shows.objs hi
      have hperm : c.owned.Perm (o :: (pre ++ post ++ c.arrs.flatMap NgxArrayT.regions ++
          dataRegions c.pool.cleanup c.store.entries)) := by
        rw [Client.owned, hobjs]
        simp only [List.append_assoc, List.cons_append]
        exact List.perm_middle
      refine wp_seq (wp_ngxPfree (n := o.size) (hg.holds.perm hperm)) fun r w₁ ⟨hcl, hr⟩ => ?_
      obtain ⟨rc, pool₁⟩ := r
      rcases hr with ⟨hrc, hold, hk⟩ | ⟨hrc, hpool, hw⟩
      · simp only [show rc = NGX_OK from hrc, if_true]
        have hobjs' : c.objs.eraseIdx i = pre ++ post := by
          rw [hobjs, ← hpre, eraseIdx_middle]
        rw [hobjs']
        refine Good.went ?_ hk
        refine hg.granted rfl rfl rfl hcl hold ?_ ?_ ?_ hk.effects
        · have hmod : (c.store.apply (.pfree i)).objs = pre' ++ post' := by
            simp only [Store.apply, hxs]
            rw [← hpre', eraseIdx_middle]
          rw [hmod]
          refine List.rel_append ?_ ?_
          · exact pieces_frame hF₁ fun r hr => hk.kept r (by simp [hr])
          · exact pieces_frame hF₂ fun r hr => hk.kept r (by simp [hr])
        · exact lists_frame hg.shows.arrs fun r hr =>
            hk.kept r (by simp only [List.mem_append]; tauto)
        · exact fun r hr => hk.kept r (by simp [hr])
      · have hne : rc ≠ NGX_OK := by
          rw [show rc = NGX_DECLINED from hrc]
          decide
        simp only [hne, if_false]
        obtain rfl : pool₁ = c.pool := hpool
        obtain rfl := hw
        exact hg.still

/-! ### Handlers -/

/-- Records that keep their places. -/
theorem NgxPool.Holds.recleanup {ex : List Nat} {h : Heap} {os : List Region}
    {cs : List NgxPoolCleanup} (hold : pool.Holds L psize ex h os)
    (haddr : cs.map NgxPoolCleanup.addr = pool.cleanup.map NgxPoolCleanup.addr) :
    NgxPool.Holds { pool with cleanup := cs } L psize ex h os where
  arena := by
    have hmap : ∀ cs : List NgxPoolCleanup,
        cs.map (fun c => (⟨c.addr, sizeofPoolCleanup⟩ : Region)) =
          (cs.map NgxPoolCleanup.addr).map (fun a => ⟨a, sizeofPoolCleanup⟩) := by
      intro cs
      rw [List.map_map]
      rfl
    have hrec : NgxPool.records { pool with cleanup := cs } = pool.records := by
      simp only [NgxPool.records, hmap, haddr]
      rfl
    rw [hrec]
    exact hold.arena
  ends := hold.ends
  max := hold.max
  word := hold.word
  active := hold.active

/-- Registering a handler. -/
theorem good_cleanupAdd {f : CleanupPt} {bs : List Byte} (hg : Good L psize es₀ c w)
    (hp : f.ReadsFile → 16 ≤ bs.length) :
    wp poolKernel Harmless (serve (.cleanupAdd f bs) c)
      (Went L psize es₀ (.cleanupAdd f bs) c w) w := by
  rw [serve]
  refine wp_seq (wp_ngxPoolCleanupAdd (n := bs.length) hg.holds) ?_
  rintro r w₁ hr
  obtain ⟨x, pool₁⟩ := r
  cases x with
  | none => exact (hg.refused (hr.refused rfl).1 hr.keeps (hr.refused rfl).2).went hr.keeps
  | some r =>
      obtain ⟨data, hdata, hcl, hold⟩ := hr.made r rfl
      simp only at hcl hold
      have hset : pool₁.setHandler f =
          { pool₁ with cleanup := ⟨r, some f, data⟩ :: c.pool.cleanup } := by
        simp only [NgxPool.setHandler, hcl]
      have hold' : (pool₁.setHandler f).Holds L psize [] w₁.heap
          (handed data bs.length ++ c.owned) := by
        rw [hset]
        exact hold.recleanup (by simp [hcl])
      have hset' : Keeps c.pool w c.owned (pool₁.setHandler f) w₁ := by
        rw [hset]
        exact hr.keeps.blocks rfl rfl
      have hhead : pool₁.cleanup.head?.bind NgxPoolCleanup.data = data := by rw [hcl]; rfl
      have hacc : (c.store.effects ++ (f.effects bs none ++ c.store.pending)).Perm
          (c.granted.flatMap PoolOp.asks ++ f.effects bs none) := by
        refine (List.perm_append_comm.append_left c.store.effects).trans ?_
        rw [← List.append_assoc]
        exact hg.accounts.append_right _
      -- what is left to see: the data is in its place, and nothing else has changed
      have hdone : ∀ w₂ : World, w₂.heap.live = w₁.heap.live → w₂.effects = w₁.effects →
          (∀ o ∈ c.owned, cells w₂.mem o = cells w.mem o) →
          (∀ a, data = some a → cells w₂.mem ⟨a, bs.length⟩ = bs) →
          Good L psize es₀ ⟨pool₁.setHandler f, c.objs, c.arrs, c.granted ++ [.cleanupAdd f bs]⟩
            w₂ := by
        intro w₂ hlive heff hkept hbytes
        have hback : Backed w₂.mem ⟨r, some f, data⟩ (some f, bs) := by
          refine ⟨rfl, ?_, hbytes, ?_⟩
          · cases data with
            | none =>
                have hnil : bs = [] := by
                  have := hdata.mpr
                  cases bs with
                  | nil => rfl
                  | cons b bs => simp at this
                simp [hnil]
            | some a =>
                have hpos := hdata.mp rfl
                simp only [reduceCtorEq, false_iff]
                rintro rfl
                simp at hpos
          · rintro g ⟨⟩ hr
            exact hp hr
        refine ⟨?_, ?_, ?_, ?_⟩
        · refine (hold'.congr hlive).perm ?_
          rw [Client.owned, Client.owned, store_granted, hset]
          simp only [Store.apply, dataRegions, List.zipWith_cons_cons, List.flatten_cons]
          exact List.perm_iff_count.mpr fun o => by
            simp only [List.count_append]
            omega
        · rw [store_granted, hset]
          have hsh := hg.shows.frame hkept
          exact ⟨hsh.objs, hsh.arrs, .cons hback hsh.entries⟩
        · rw [store_granted, heff, hr.keeps.effects]
          exact hg.effects
        · rw [store_granted, List.flatMap_append, List.flatMap_singleton]
          exact hacc
      simp only [hhead]
      cases hd : data with
      | none =>
          subst hd
          refine (hdone w₁ rfl rfl hr.keeps.kept fun _ hx =>
            absurd hx.symm (Option.some_ne_none _)).went hset'
      | some a =>
          subst hd
          have hcov := hold'.covers (o := ⟨a, bs.length⟩) List.mem_cons_self
          have hfit := hcov.fits
          simp only [Region.fin_mk] at hfit
          refine wp_ask hcov ?_
          rintro _ w₂ ⟨hs, he⟩
          obtain ⟨-, hk⟩ := NgxPool.Holds.put (o := ⟨a, bs.length⟩) hold' hs he (.refl _)
          refine Good.went ?_ (hset'.trans hk (fun _ ho => ho))
          refine hdone w₂ hs.live he (fun o ho => (hk.kept o ho).trans (hr.keeps.kept o ho)) ?_
          rintro _ ⟨⟩
          rw [World.mem, hs.mem]
          exact cells_put (by omega)

theorem closeFile_data (fd : BitVec 32) (es : List Entry) :
    (closeFile fd es).1.map Prod.snd = es.map Prod.snd := by
  fun_induction closeFile fd es with
  | case1 => rfl
  | case2 => rfl
  | case3 e es hno ih => simp [ih]

/-- What is closed early is not pending any more. -/
theorem closeFile_pending (fd : BitVec 32) (s : Store) :
    ((closeFile fd s.entries).2 ++ (s.apply (.runCleanupFile fd)).pending).Perm s.pending := by
  have hgo : ∀ es : List Entry, ((closeFile fd es).2 ++ (closeFile fd es).1.flatMap
      fun e => (e.1.map (CleanupPt.effects e.2 none)).getD []).Perm
        (es.flatMap fun e => (e.1.map (CleanupPt.effects e.2 none)).getD []) := by
    intro es
    fun_induction closeFile fd es with
    | case1 => exact .nil
    | case2 e es hyes =>
        simp only [List.flatMap_cons, hyes.1, Option.map_none, Option.getD_none, Option.map_some,
          Option.getD_some, CleanupPt.effects, hyes.2, List.nil_append]
        exact .refl _
    | case3 e es hno ih =>
        simp only [List.flatMap_cons]
        refine List.Perm.trans ?_ (ih.append_left _)
        rw [← List.append_assoc, ← List.append_assoc]
        exact List.perm_append_comm.append_right _
  exact hgo s.entries

/-- Where the data is depends on the data alone. -/
theorem dataRegions_congr {cs cs' : List NgxPoolCleanup} {es es' : List Entry}
    (hcs : List.Forall₂ (fun c c' => c'.addr = c.addr ∧ c'.data = c.data) cs cs')
    (hes : es'.map Prod.snd = es.map Prod.snd) : dataRegions cs' es' = dataRegions cs es := by
  induction hcs generalizing es es' with
  | nil => rfl
  | @cons c c' cs cs' hc _ ih =>
      match es, es', hes with
      | [], [], _ => rfl
      | e :: es, e' :: es', hes =>
          obtain ⟨he, hrest⟩ := List.cons.inj hes
          simp only [dataRegions, List.zipWith_cons_cons, List.flatten_cons] at ih ⊢
          rw [ih hrest, hc.2, show e'.2 = e.2 from he]

theorem map_addr_eq {cs cs' : List NgxPoolCleanup}
    (hcs : List.Forall₂ (fun c c' => c'.addr = c.addr ∧ c'.data = c.data) cs cs') :
    cs'.map NgxPoolCleanup.addr = cs.map NgxPoolCleanup.addr := by
  induction hcs with
  | nil => rfl
  | cons hc _ ih => rw [List.map_cons, List.map_cons, hc.1, ih]

/-- Running a handler early. -/
theorem good_runCleanupFile {fd : BitVec 32} (hg : Good L psize es₀ c w) :
    wp poolKernel Harmless (serve (.runCleanupFile fd) c)
      (Went L psize es₀ (.runCleanupFile fd) c w) w := by
  have hcov : ∀ o ∈ dataRegions c.pool.cleanup c.store.entries, w.heap.Covers o := fun o ho =>
    hg.holds.covers (by simp [Client.owned, ho])
  rw [serve, ngxPoolRunCleanupFile]
  refine wp_bind.mpr ?_
  refine wp_seq (wp_runCleanupFileLoop hg.shows.entries hcov) fun cs w₁ ⟨hh, he, hback, hsame⟩ => ?_
  have hregions := dataRegions_congr hsame (closeFile_data fd c.store.entries)
  have haddr := map_addr_eq hsame
  have hblank : Blank c.pool.spans w.mem → Blank c.pool.spans w₁.mem := by
    rw [show w₁.mem = w.mem from congrArg Heap.mem hh]
    exact id
  refine ⟨⟨?_, ?_, ?_, ?_⟩, fun _ => hblank, fun _ => id⟩
  · rw [Client.owned, store_granted]
    simp only [Store.apply, hregions]
    exact (hg.holds.congr (by rw [hh])).recleanup haddr
  · rw [store_granted, World.mem, hh]
    exact ⟨hg.shows.objs, hg.shows.arrs, hback⟩
  · rw [store_granted, he, hg.effects, List.append_assoc]
    rfl
  · have hasks : PoolOp.asks (.runCleanupFile fd) = [] := rfl
    rw [store_granted, List.flatMap_append, List.flatMap_singleton, hasks, List.append_nil]
    refine List.Perm.trans ?_ hg.accounts
    have := (closeFile_pending fd c.store).append_left c.store.effects
    rw [← List.append_assoc] at this
    exact this

/-! ### Arrays -/

theorem forall₂_modify {α β : Type} {R S : α → β → Prop} {as : List α} {bs : List β} {i : Nat}
    {a a' : α} {f : β → β} (h : List.Forall₂ R as bs) (hi : as[i]? = some a)
    (hrest : ∀ x ∈ as.eraseIdx i, ∀ y, R x y → S x y) (hhere : ∀ y, R a y → S a' (f y)) :
    List.Forall₂ S (as.set i a') (bs.modify i f) := by
  induction h generalizing i with
  | nil => simp at hi
  | @cons x y as bs hxy hR ih =>
      cases i with
      | zero =>
          obtain rfl : x = a := by simpa using hi
          simp only [List.eraseIdx_cons_zero] at hrest
          exact .cons (hhere y hxy) (forall₂_mem hR hrest)
      | succ i =>
          simp only [List.eraseIdx_cons_succ, List.mem_cons] at hrest
          exact .cons (hrest x (.inl rfl) y hxy)
            (ih (by simpa using hi) fun x hx => hrest x (.inr hx))

/-- An array of the user, and what else he has. -/
theorem owned_array {i : Nat} {a : NgxArrayT} (hi : c.arrs[i]? = some a) :
    c.owned.Perm (a.head :: a.room :: (c.objs ++ (c.arrs.eraseIdx i).flatMap NgxArrayT.regions ++
      dataRegions c.pool.cleanup c.store.entries)) := by
  obtain ⟨hlt, rfl⟩ := List.getElem?_eq_some_iff.mp hi
  have hp : c.arrs.Perm (c.arrs[i] :: c.arrs.eraseIdx i) := (List.getElem_cons_eraseIdx_perm hlt).symm
  have hp' := hp.flatMap_right NgxArrayT.regions
  refine ((hp'.append_left c.objs).append_right _).trans (List.perm_iff_count.mpr fun o => ?_)
  simp only [List.flatMap_cons, NgxArrayT.regions, List.count_append, List.count_cons,
    List.count_nil]
  omega

/-- A new array. -/
theorem good_arrayCreate {n size : Nat} (hg : Good L psize es₀ c w) (hn : 0 < n) (hsize : 0 < size)
    (hfit : n * size < 2 ^ 64) :
    wp poolKernel Harmless (serve (.arrayCreate n size) c)
      (Went L psize es₀ (.arrayCreate n size) c w) w := by
  rw [serve]
  refine wp_seq (wp_ngxArrayCreate hg.holds hn hsize hfit) fun r w₁ hr => ?_
  obtain ⟨x, pool₁⟩ := r
  cases x with
  | none => exact (hg.refused (hr.refused rfl) hr.keeps hr.cleanup).went hr.keeps
  | some a =>
      obtain ⟨hok, hnelts, -, -, hold⟩ := hr.made a rfl
      refine Good.went ?_ hr.keeps
      refine hg.granted rfl rfl rfl hr.cleanup ?_ ?_ ?_ ?_ hr.keeps.effects
      · refine hold.perm (List.perm_iff_count.mpr fun o => ?_)
        simp only [Client.owned, List.flatMap_cons, NgxArrayT.regions, List.count_append,
          List.count_cons, List.count_nil]
        omega
      · exact pieces_frame hg.shows.objs fun o ho => hr.keeps.kept o (by simp [Client.owned, ho])
      · refine .cons ⟨hok, hnelts.symm, fun _ he => absurd he List.not_mem_nil, ?_⟩ ?_
        · apply List.length_eq_zero_iff.mp
          rw [length_cells, NgxArrayT.used, hnelts, Nat.mul_zero]
        · exact lists_frame hg.shows.arrs fun o ho => hr.keeps.kept o (by simp [Client.owned, ho])
      · exact fun o ho => hr.keeps.kept o (by simp [Client.owned, ho])

/-- Elements behind the ones that were there. -/
theorem Lists.push {a a' : NgxArrayT} {xs es : List (List Byte)} {mem : Nat}
    (hl : Lists m a xs) (hok : a'.Ok) (hsize : a'.size = a.size)
    (hnelts : a'.nelts = a.nelts + es.length) (hes : ∀ e ∈ es, e.length = a.size)
    (hmem : mem = a'.elts + a.size * a.nelts)
    (hkept : cells m' ⟨a'.elts, a.size * a.nelts⟩ = cells m a.used)
    (hnew : cells m' ⟨mem, a.size * es.length⟩ = es.flatten) : Lists m' a' (xs ++ es) := by
  refine ⟨hok, ?_, ?_, ?_⟩
  · rw [List.length_append, hl.length, hnelts]
  · intro e he
    rw [hsize]
    exact (List.mem_append.mp he).elim (hl.size e) (hes e)
  · rw [NgxArrayT.used, hsize, hnelts, Nat.mul_add, cells_add, hkept, ← hmem, hnew, hl.bytes,
      List.flatten_append]

theorem length_flatten_eq {es : List (List Byte)} {k : Nat} (h : ∀ e ∈ es, e.length = k) :
    es.flatten.length = k * es.length := by
  induction es with
  | nil => rfl
  | cons e es ih =>
      rw [List.flatten_cons, List.length_append, h e List.mem_cons_self,
        ih fun e he => h e (List.mem_cons_of_mem _ he), List.length_cons, Nat.mul_succ, Nat.add_comm]

/-- Elements pushed one way or the other, and put there. -/
theorem Good.pushed {i : Nat} {a : NgxArrayT} {es : List (List Byte)} {bs : List Byte}
    {prog : Pool (Ptr × NgxArrayT × NgxPool)} (hg : Good L psize es₀ c w)
    (hi : c.arrs[i]? = some a) (hes : ∀ e ∈ es, e.length = a.size) (hbs : bs = es.flatten)
    (hasks : op.asks = [])
    (hop : c.store.apply op = { c.store with arrs := c.store.arrs.modify i (· ++ es) })
    (hprog : ∀ os, c.pool.Holds L psize [] w.heap (a.head :: a.room :: os) → a.Ok →
      wp poolKernel Harmless prog
        (fun r w' => Pushed L psize [] c.pool w os a es.length r.1 r.2.1 r.2.2 w') w) :
    wp poolKernel Harmless (do
      let (x, a, pool) ← prog
      match x with
      | none => return { c with pool := pool }
      | some elt =>
          sys (.store elt bs)
          return { c with
            pool := pool, arrs := c.arrs.set i a, granted := c.granted ++ [op] })
      (Went L psize es₀ op c w) w := by
  have hperm := owned_array (c := c) hi
  have hold := hg.holds.perm hperm
  obtain ⟨-, -, -, xs, -, -, -, -, -, -, hl, -⟩ := forall₂_split hg.shows.arrs hi
  refine wp_seq (hprog _ hold hl.ok) fun r w₁ hr => ?_
  obtain ⟨x, a', pool₁⟩ := r
  cases x with
  | none =>
      obtain ⟨-, hold₁, hk⟩ := hr.refused rfl
      exact (hg.refused (hold₁.perm hperm.symm) (hk.sub hperm.subset) hr.cleanup).went hr.keeps
  | some mem =>
      obtain ⟨hok, ⟨haddr, hsize, hnelts⟩, hmem, hold₁, hkept⟩ := hr.made mem rfl
      have hlen : bs.length = a.size * es.length := by rw [hbs, length_flatten_eq hes]
      have hroom := hold₁.perm (List.Perm.swap ..)
      have hcov := hroom.covers (o := a'.room) List.mem_cons_self
      have hfit := hcov.fits
      simp only at hmem hnelts hsize
      have hend : a.size * a.nelts + bs.length ≤ a.size * a'.nalloc := by
        rw [hlen, ← Nat.mul_add, ← hnelts]
        exact Nat.mul_le_mul_left _ hok.used
      simp only [NgxArrayT.room, Region.fin_mk, hsize] at hfit
      have hin : Region.Within ⟨mem, bs.length⟩ a'.room := by
        refine ⟨by simp only [NgxArrayT.room]; omega, ?_⟩
        simp only [NgxArrayT.room, Region.fin_mk, hsize]
        omega
      refine wp_ask (hcov.within hin) ?_
      rintro _ w₂ ⟨hs, he⟩
      obtain ⟨hold₂, hk₂⟩ := hroom.put hs he hin
      have hk : ∀ o ∈ c.objs ++ (c.arrs.eraseIdx i).flatMap NgxArrayT.regions ++
          dataRegions c.pool.cleanup c.store.entries, cells w₂.mem o = cells w.mem o := fun o ho =>
        (hk₂.kept o (List.mem_cons_of_mem _ ho)).trans (hr.keeps.kept o ho)
      have hset := List.set_perm_cons_eraseIdx (List.getElem?_eq_some_iff.mp hi).1 a'
      refine Good.went ?_ (hr.keeps.trans hk₂ (List.subset_cons_self _ _))
      refine hg.granted hasks (by rw [hop]) (by rw [hop]) hr.cleanup ?_ ?_ ?_ ?_
        (hk₂.effects.trans hr.keeps.effects)
      · refine hold₂.perm (List.Perm.trans ?_
          (((hset.symm.flatMap_right NgxArrayT.regions).append_left c.objs).append_right _))
        refine List.perm_iff_count.mpr fun o => ?_
        simp only [List.flatMap_cons, NgxArrayT.regions, List.count_append, List.count_cons,
          List.count_nil]
        omega
      · rw [hop]
        exact pieces_frame hg.shows.objs fun o ho => hk o (by simp [ho])
      · rw [hop]
        refine forall₂_modify hg.shows.arrs hi ?_ fun ys hys => ?_
        · exact fun x hx ys hys => hys.frame (hk _ (by
            simp only [List.mem_append, List.mem_flatMap]
            exact .inl (.inr ⟨x, hx, by simp [NgxArrayT.regions]⟩)))
        · refine hys.push hok hsize hnelts hes hmem ?_ ?_
          · rw [← hkept, World.mem, hs.mem]
            exact cells_put_apart (.inl (by simp only [Region.fin_mk]; omega))
              (by simp only [Region.fin_mk]; omega) (by omega)
          · rw [World.mem, hs.mem, ← hlen, ← hbs]
            exact cells_put (by omega)
      · exact fun o ho => hk o (by simp [ho])

theorem good_arrayPush {i : Nat} {e : List Byte} (hg : Good L psize es₀ c w)
    (hp : ∀ a, c.arrs[i]? = some a → e.length = a.size) :
    wp poolKernel Harmless (serve (.arrayPush i e) c)
      (Went L psize es₀ (.arrayPush i e) c w) w := by
  rw [serve]
  cases hi : c.arrs[i]? with
  | none => exact hg.still
  | some a =>
      have hes : ∀ x ∈ [e], x.length = a.size := by simpa using hp a hi
      exact hg.pushed hi hes (by simp) rfl rfl
        fun os hold hok => wp_ngxArrayPush hold hok

theorem good_arrayPushN {i : Nat} {es : List (List Byte)} (hg : Good L psize es₀ c w)
    (hp : ∀ a, c.arrs[i]? = some a →
      (∀ e ∈ es, e.length = a.size) ∧ es.length * a.size < 2 ^ 63) :
    wp poolKernel Harmless (serve (.arrayPushN i es) c)
      (Went L psize es₀ (.arrayPushN i es) c w) w := by
  rw [serve]
  cases hi : c.arrs[i]? with
  | none => exact hg.still
  | some a =>
      obtain ⟨hes, hn⟩ := hp a hi
      exact hg.pushed hi hes rfl rfl rfl fun os hold hok => wp_ngxArrayPushN hold hok hn

/-- The end of an array. -/
theorem good_arrayDestroy {i : Nat} (hg : Good L psize es₀ c w) :
    wp poolKernel Harmless (serve (.arrayDestroy i) c)
      (Went L psize es₀ (.arrayDestroy i) c w) w := by
  rw [serve]
  cases hi : c.arrs[i]? with
  | none => exact hg.still
  | some a =>
      have hold := holds_ngxArrayDestroy (hg.holds.perm (owned_array hi))
      refine ⟨?_, fun hf => absurd rfl (hf.2 i), fun _ => short_ngxArrayDestroy⟩
      refine hg.granted rfl rfl rfl ?_ hold hg.shows.objs ?_ (fun _ _ => rfl) rfl
      · simp only [ngxArrayDestroy]
        split <;> split <;> simp
      · obtain ⟨pre, post, pre', x, post', harrs, hxs, hpre, hpre', hF₁, -, hF₂⟩ :=
          forall₂_split hg.shows.arrs hi
        simp only [Store.apply, harrs, hxs]
        rw [← hpre, eraseIdx_middle, hpre, ← hpre', eraseIdx_middle]
        exact List.rel_append hF₁ hF₂

/-! ### All of them -/

theorem good_reset (hg : Good L psize es₀ c w) (hp : c.pool.cleanup = []) :
    wp poolKernel Harmless (serve .reset c) (Went L psize es₀ .reset c w) w := by
  have hentries : c.store.entries = [] := by
    have := hg.shows.entries
    rw [hp] at this
    exact List.forall₂_nil_left_iff.mp this
  rw [serve]
  refine wp_seq (wp_ngxResetPool hg.holds hp) fun pool₁ w₁ ⟨hold, hcl, he⟩ => ?_
  refine ⟨?_, fun hf => absurd rfl hf.1, fun hne => absurd rfl hne⟩
  refine hg.granted rfl hentries.symm rfl (hcl.trans hp.symm) ?_ .nil .nil ?_ he
  · rw [hp]
    exact hold
  · rw [hp]
    exact fun o ho => absurd ho List.not_mem_nil

/-- One request. -/
theorem good_serve (hg : Good L psize es₀ c w) (hp : Proper op c w) :
    wp poolKernel Harmless (serve op c) (Went L psize es₀ op c w) w := by
  cases op with
  | get way bs => exact good_get hg hp
  | write i off bs => exact good_write hg hp
  | pfree i => exact good_pfree hg
  | cleanupAdd f bs => exact good_cleanupAdd hg hp
  | runCleanupFile fd => exact good_runCleanupFile hg
  | arrayCreate n size => exact good_arrayCreate hg hp.1 hp.2.1 hp.2.2
  | arrayPush i e => exact good_arrayPush hg hp
  | arrayPushN i es => exact good_arrayPushN hg hp
  | arrayDestroy i => exact good_arrayDestroy hg
  | reset => exact good_reset hg hp

end

end TestDbug
