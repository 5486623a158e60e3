/-
# `TestDbug.PoolUse` — what a user of a pool may rely on

A pool is made, serves any proper requests, each granted or refused, and is
destroyed.  Whatever the requests were, in blocks that hold the header and have
a size that is a multiple of eight:

  * the memory shows what the granted ones have left (`pool_contents`), and
    no request can do damage (`pool_apart`);
  * in the end the heap has what it had (`pool_gives_everything_back`), and
    every handler has run once (`every_handler_once`).

With any other size a request can do damage (`harmless_iff_word`).  As long as
no memory is used twice, new memory is zero (`fresh_zero`), and as long as the
pool is not reset, a request looks at seven blocks at most (`seven_blocks`).
-/
import TestDbug.PoolSession

open ByteMemory Interaction

namespace TestDbug

/-! ## Sessions -/

def Client.fresh (pool : NgxPool) : Client := ⟨pool, [], [], []⟩

/-- A pool of blocks of `psize` bytes, made in `w₀`, has served `ops`. -/
def Used (psize : Nat) (w₀ : World) (ops : List PoolOp) (c : Client) (w : World) : Prop :=
  ∃ pool w₁, Ends poolKernel (ngxCreatePool psize) w₀ (some pool) w₁ ∧
    Runs poolKernel serve Proper (.fresh pool) w₁ ops c w

/-- A request is granted once, or not. -/
theorem granted_serve (op : PoolOp) (c : Client) :
    Emits (fun _ => True) (fun c' => c'.granted = c.granted ∨ c'.granted = c.granted ++ [op])
      (serve op c) := by
  cases op with
  | get way bs =>
      refine (emits_every _).seq fun r _ => ?_
      obtain ⟨x, pool⟩ := r
      cases x with
      | none => exact .inl rfl
      | some a => exact ⟨trivial, fun _ => .inr rfl⟩
  | write i off bs =>
      rw [serve]
      cases c.objs[i]? with
      | none => exact .inl rfl
      | some o => exact ⟨trivial, fun _ => .inr rfl⟩
  | pfree i =>
      rw [serve]
      cases c.objs[i]? with
      | none => exact .inl rfl
      | some o =>
          refine (emits_every _).seq fun r _ => ?_
          obtain ⟨rc, pool⟩ := r
          by_cases hrc : rc = NGX_OK
          · simp only [hrc, if_true]
            exact .inr rfl
          · simp only [hrc, if_false]
            exact .inl rfl
  | cleanupAdd f bs =>
      refine (emits_every _).seq fun r _ => ?_
      obtain ⟨x, pool⟩ := r
      cases x with
      | none => exact .inl rfl
      | some r =>
          simp only
          split
          · exact .inr rfl
          · exact ⟨trivial, fun _ => .inr rfl⟩
  | runCleanupFile fd => exact (emits_every _).seq fun _ _ => .inr rfl
  | arrayCreate n size =>
      refine (emits_every _).seq fun r _ => ?_
      obtain ⟨x, pool⟩ := r
      cases x with
      | none => exact .inl rfl
      | some a => exact .inr rfl
  | arrayPush i e =>
      rw [serve]
      cases c.arrs[i]? with
      | none => exact .inl rfl
      | some a =>
          refine (emits_every _).seq fun r _ => ?_
          obtain ⟨x, a', pool⟩ := r
          cases x with
          | none => exact .inl rfl
          | some elt => exact ⟨trivial, fun _ => .inr rfl⟩
  | arrayPushN i es =>
      rw [serve]
      cases c.arrs[i]? with
      | none => exact .inl rfl
      | some a =>
          refine (emits_every _).seq fun r _ => ?_
          obtain ⟨x, a', pool⟩ := r
          cases x with
          | none => exact .inl rfl
          | some elt => exact ⟨trivial, fun _ => .inr rfl⟩
  | arrayDestroy i =>
      rw [serve]
      cases c.arrs[i]? with
      | none => exact .inl rfl
      | some a => exact .inr rfl
  | reset => exact (emits_every _).seq fun _ _ => .inr rfl

section
variable {psize : Nat} {w₀ w w' : World} {ops : List PoolOp} {c : Client}

/-- The invariant of sessions; `J` is what else is true of a new pool and kept
by the requests of the session. -/
theorem session_induction {J : Client → World → Prop} {P : PoolOp → Prop}
    (hsize : sizeofPool ≤ psize) (h8 : psize % 8 = 0) (h : Used psize w₀ ops c w)
    (hP : ∀ op ∈ ops, P op)
    (h₀ : ∀ pool w, Blank pool.spans w.mem → pool.Short → J (.fresh pool) w)
    (hstep : ∀ op c w c' w', P op → J c w → Went w₀.heap.live psize w₀.effects op c w c' w' →
      J c' w') : Good w₀.heap.live psize w₀.effects c w ∧ J c w := by
  obtain ⟨pool, w₁, hcreate, hrun⟩ := h
  obtain ⟨he, -, hmade⟩ := (wp_ngxCreatePool hsize h8).ends hcreate
  obtain ⟨hold, hb, hs, hcl⟩ := hmade pool rfl
  have hstart : Good w₀.heap.live psize w₀.effects (.fresh pool) w₁ := by
    refine ⟨?_, ⟨.nil, .nil, ?_⟩, ?_, ?_⟩
    · simp only [Client.owned, Client.fresh, hcl]
      exact hold
    · simp only [Client.fresh, hcl]
      exact .nil
    · rw [he]
      exact (List.append_nil _).symm
    · exact .nil
  refine (hrun.guarded hP).invariant
    (fun c w => Good w₀.heap.live psize w₀.effects c w ∧ J c w) (I := fun _ => Harmless) ?_
    ⟨hstart, h₀ pool w₁ hb hs⟩
  rintro op c w ⟨hop, hp⟩ ⟨hg, hj⟩
  exact wp_mono (fun c' w' hw => ⟨hw.good, hstep op c w c' w' hop hj hw⟩) (good_serve hg hp)

theorem good_run (hsize : sizeofPool ≤ psize) (h8 : psize % 8 = 0) (h : Used psize w₀ ops c w) :
    Good w₀.heap.live psize w₀.effects c w :=
  (session_induction (J := fun _ _ => True) (P := fun _ => True) hsize h8 h
    (fun _ _ => trivial) (fun _ _ _ _ => trivial) (fun _ _ _ _ _ _ _ _ => trivial)).1

end

/-! ## One block -/

/-- A pool of one block at 16, `k` bytes of which are given away. -/
def onePool (psize k : Nat) : NgxPool where
  passed := []
  active := [⟨16, 16 + sizeofPool + k, 16 + psize, 0⟩]
  max := min (psize - sizeofPool) NGX_MAX_ALLOC_FROM_POOL
  large := []
  cleanup := []

def oneWorld (psize : Nat) (hfit : psize < 2 ^ 62) (m : Mem 64 Byte) : World :=
  ⟨.one 16 psize m (by omega), []⟩

theorem onePool_created {psize : Nat} {m : Mem 64 Byte} (hsize : sizeofPool ≤ psize)
    (hfit : psize < 2 ^ 62) :
    Ends poolKernel (ngxCreatePool psize) ⟨.empty m, []⟩ (some (onePool psize 0))
      (oneWorld psize hfit (put m 16 (.replicate psize 0))) := by
  have hcalloc : poolKernel (.calloc psize) ⟨.empty m, []⟩ (some 16)
      (oneWorld psize hfit (put m 16 (.replicate psize 0))) := ⟨.gives rfl rfl rfl, rfl⟩
  refine .step hcalloc (ends_ret.mpr ⟨?_, rfl⟩)
  have hp : padd 16 sizeofPool = 16 + sizeofPool := rfl
  have hend : padd 16 psize = 16 + psize := padd_eq (by omega)
  have hmax : min (psize - sizeofPool) NGX_MAX_ALLOC_FROM_POOL =
      if psub psize sizeofPool < NGX_MAX_ALLOC_FROM_POOL then psub psize sizeofPool
        else NGX_MAX_ALLOC_FROM_POOL := by
    rw [psub_eq hsize (by omega)]
    split <;> omega
  rw [onePool, hmax, hp, hend, Nat.add_zero]

/-- A piece with two bytes in it, and a handler. -/
def shortOps : List PoolOp := [.get .palloc [1, 2], .cleanupAdd (.other 7) []]

def shortClient : Client where
  pool := { onePool 128 32 with cleanup := [⟨88, some (.other 7), none⟩] }
  objs := [⟨80, 2⟩]
  arrs := []
  granted := shortOps

def shortMem : Mem 64 Byte := put (put (fun _ => 0) 16 (.replicate 128 0)) 80 [1, 2]

def shortWorld : World := oneWorld 128 (by decide) shortMem

theorem used_short : Used 128 ⟨.empty fun _ => 0, []⟩ shortOps shortClient shortWorld := by
  refine ⟨_, _, onePool_created (by decide) (by decide), ?_⟩
  have hstore : poolKernel (.store 80 [1, 2])
      (oneWorld 128 (by decide) (put (fun _ => 0) 16 (.replicate 128 0))) () shortWorld :=
    ⟨⟨rfl, rfl⟩, rfl⟩
  have hget : Ends poolKernel (serve (.get .palloc [1, 2]) (.fresh (onePool 128 0)))
      (oneWorld 128 (by decide) (put (fun _ => 0) 16 (.replicate 128 0)))
      ⟨onePool 128 2, [⟨80, 2⟩], [], [.get .palloc [1, 2]]⟩ shortWorld :=
    .step hstore (.refl _ _)
  have hadd : Ends poolKernel (serve (.cleanupAdd (.other 7) [])
      ⟨onePool 128 2, [⟨80, 2⟩], [], [.get .palloc [1, 2]]⟩) shortWorld shortClient shortWorld :=
    .refl _ _
  exact .cons (by simp [Proper]) hget
    (.cons (by simp [Proper, CleanupPt.ReadsFile]) hadd (.nil _ _))

section
variable {psize : Nat} {w₀ w w' : World} {ops : List PoolOp} {c : Client}

/-! ## What a user may rely on -/

/-- Reading the memory gives what the requests granted have left, and the
requests granted are among those made, in their order. -/
theorem pool_contents (hsize : sizeofPool ≤ psize) (h8 : psize % 8 = 0)
    (h : Used psize w₀ ops c w) : Shows w.mem c c.store ∧ c.granted.Sublist ops := by
  refine ⟨(good_run hsize h8 h).shows, ?_⟩
  obtain ⟨pool, w₁, -, hrun⟩ := h
  refine hrun.history (fun js c _ => c.granted.Sublist js) (I := fun _ => Free) [] ?_ (.refl _)
  intro js op c w _ hsub
  refine wp_mono ?_ ((granted_serve op c).wp (J := fun _ => True) (fun _ _ _ _ => trivial)
    (fun _ _ _ _ _ _ _ => trivial) trivial)
  rintro c' w' ⟨hc | hc, -⟩
  · rw [hc]
    exact hsub.trans (List.sublist_append_left _ _)
  · rw [hc]
    exact hsub.append (.refl _)

theorem pool_contents_short :
    Shows shortWorld.mem shortClient shortClient.store ∧ shortClient.granted.Sublist shortOps :=
  pool_contents (by decide) (by decide) used_short

/-- What is given away lies in allocated memory, no two of it meet, and none
of it meets what the pool keeps for itself; and no request can do damage. -/
theorem pool_apart (hsize : sizeofPool ≤ psize) (h8 : psize % 8 = 0)
    (h : Used psize w₀ ops c w) :
    (c.pool.records ++ c.owned).Pairwise Region.Apart ∧
      (∀ o ∈ c.pool.records ++ c.owned, w.heap.Covers o) ∧
      ∀ op, Proper op c w → Safe poolKernel Harmless (serve op c) w := by
  have hg := good_run hsize h8 h
  exact ⟨hg.holds.arena.apart, fun o ho => hg.holds.arena.covers ho,
    fun op hp => (good_serve hg hp).safe⟩

theorem pool_apart_short :
    (shortClient.pool.records ++ shortClient.owned).Pairwise Region.Apart ∧
      (∀ o ∈ shortClient.pool.records ++ shortClient.owned, shortWorld.heap.Covers o) ∧
      ∀ op, Proper op shortClient shortWorld →
        Safe poolKernel Harmless (serve op shortClient) shortWorld :=
  pool_apart (by decide) (by decide) used_short

/-- Whatever was done with a pool, destroying it gives back all it has taken,
each region once. -/
theorem pool_gives_everything_back (hsize : sizeofPool ≤ psize) (h8 : psize % 8 = 0)
    (h : Used psize w₀ ops c w) :
    Safe poolKernel Harmless (ngxDestroyPool c.pool) w ∧
      ∀ w', Ends poolKernel (ngxDestroyPool c.pool) w () w' → w'.heap.live = w₀.heap.live := by
  have hg := good_run hsize h8 h
  have hcov : ∀ o ∈ dataRegions c.pool.cleanup c.store.entries, w.heap.Covers o := fun o ho =>
    hg.holds.covers (by simp [Client.owned, ho])
  have hw := wp_ngxDestroyPool hg.holds hg.shows.entries hcov
  exact ⟨hw.safe, fun w' he => (hw.ends he).1⟩

theorem pool_gives_everything_back_short :
    Safe poolKernel Harmless (ngxDestroyPool shortClient.pool) shortWorld ∧
      ∀ w', Ends poolKernel (ngxDestroyPool shortClient.pool) shortWorld () w' →
        w'.heap.live = fun _ => none :=
  pool_gives_everything_back (by decide) (by decide) used_short

/-- The handler of an entry asks for `rs`, called with the data of the entry. -/
def Called (m : Mem 64 Byte) (e : Entry) (rs : List PoolReq) : Prop :=
  ∃ data, rs = (e.1.map (CleanupPt.effects e.2 data)).getD [] ∧ (data = none ↔ e.2 = []) ∧
    ∀ a, data = some a → cells m ⟨a, e.2.length⟩ = e.2

/-- Handlers find the memory `m`. -/
def Finds (m : Mem 64 Byte) : PoolReq → World → Prop
  | .callback _ _, w => w.mem = m
  | _, _ => True

/-- The calls of the handlers, record by record. -/
theorem called_pending {m : Mem 64 Byte} {cs : List NgxPoolCleanup} {es : List Entry}
    (h : List.Forall₂ (Backed m) cs es) :
    ∃ rss, List.Forall₂ (Called m) es rss ∧ pending cs es = rss.flatten := by
  refine ⟨_, ?_, rfl⟩
  induction h with
  | nil => exact .nil
  | @cons c e cs es hc _ ih => exact .cons ⟨c.data, rfl, hc.null, hc.data⟩ ih

/-- What a handler asks for. -/
inductive HandlerReq : PoolReq → Prop
  | load (a n : Nat) : HandlerReq (.load a n)
  | close (fd : BitVec 32) : HandlerReq (.close fd)
  | unlink (name : Word) : HandlerReq (.unlink name)
  | callback (id : Nat) (data : Ptr) : HandlerReq (.callback id data)

theorem emits_runCleanups (cs : List NgxPoolCleanup) :
    Emits HandlerReq (fun _ => True) (runCleanups cs) := by
  have hrun : ∀ (f : CleanupPt) data, Emits HandlerReq (fun _ => True) (f.run data) := by
    intro f data
    cases f with
    | file => exact ⟨.load _ _, fun _ => ⟨.close _, fun _ => trivial⟩⟩
    | deleteFile =>
        exact ⟨.load _ _, fun _ => ⟨.unlink _, fun _ => ⟨.load _ _, fun _ => ⟨.close _,
          fun _ => trivial⟩⟩⟩⟩
    | other id => exact ⟨.callback _ _, fun _ => trivial⟩
  induction cs with
  | nil => trivial
  | cons c cs ih =>
      refine Emits.seq (V := fun _ => True) ?_ fun _ _ => ih
      rw [runCleanup]
      cases c.handler with
      | none => trivial
      | some f => exact hrun f c.data

/-- The loops behind the handlers only free. -/
theorem emits_frees (ls : List NgxPoolLarge) (bs : List NgxPoolData) :
    Emits (fun r => ∃ p, r = PoolReq.free p) (fun _ => True)
      (freeLarge ls >>= fun _ => freeBlocks bs) := by
  have hblocks : Emits (fun r => ∃ p, r = PoolReq.free p) (fun _ => True) (freeBlocks bs) := by
    induction bs with
    | nil => trivial
    | cons b bs ih => exact .ask ⟨_, rfl⟩ fun _ => ih
  refine Emits.seq (V := fun _ => True) ?_ fun _ _ => hblocks
  induction ls with
  | nil => trivial
  | cons l ls ih =>
      rw [freeLarge]
      split
      · exact .ask ⟨_, rfl⟩ fun _ => ih
      · exact ih

/-- No handler changes what the next one finds. -/
theorem finds_ngxDestroyPool (pool : NgxPool) (w : World) :
    Safe poolKernel (Finds w.mem) (ngxDestroyPool pool) w := by
  have hfirst : wp poolKernel (Finds w.mem) (runCleanups pool.cleanup)
      (fun _ (w' : World) => True ∧ w'.mem = w.mem) w := by
    refine (emits_runCleanups _).wp (J := fun (w' : World) => w'.mem = w.mem) ?_ ?_ rfl
    · intro r w' hr hw
      cases hr with
      | callback id data => exact hw
      | _ => trivial
    · intro r w₁ x w₂ hr hw hK
      cases hr with
      | load a n =>
          obtain ⟨-, rfl⟩ := hK
          exact hw
      | _ => rwa [World.mem, hK.1]
  have hrest : ∀ w', wp poolKernel (Finds w.mem)
      (freeLarge pool.large >>= fun _ => freeBlocks pool.chain) (fun _ _ => True) w' := by
    intro w'
    refine wp_mono (fun _ _ _ => trivial)
      ((emits_frees _ _).wp (J := fun _ => True) ?_ (fun _ _ _ _ _ _ _ => trivial) trivial)
    rintro r w₁ ⟨p, rfl⟩ -
    trivial
  exact wp.safe (wp_seq hfirst fun _ w' _ => hrest w')

/-- The request, but for where the data is. -/
def PoolReq.forget : PoolReq → PoolReq
  | .callback id _ => .callback id none
  | r => r

theorem forget_effects (f : CleanupPt) (bs : List Byte) (data : Ptr) :
    (f.effects bs data).map PoolReq.forget = f.effects bs none := by
  cases f <;> rfl

theorem forget_pending {m : Mem 64 Byte} {cs : List NgxPoolCleanup} {es : List Entry}
    (h : List.Forall₂ (Backed m) cs es) :
    (pending cs es).map PoolReq.forget =
      es.flatMap fun e => (e.1.map (CleanupPt.effects e.2 none)).getD [] := by
  induction h with
  | nil => rfl
  | @cons c e cs es hc _ ih =>
      simp only [pending, List.zipWith_cons_cons, List.flatten_cons, List.map_append,
        List.flatMap_cons] at ih ⊢
      rw [ih]
      congr 1
      cases e.1 with
      | none => rfl
      | some f => exact forget_effects f _ _

theorem forget_closeFile (fd : BitVec 32) (es : List Entry) :
    (closeFile fd es).2.map PoolReq.forget = (closeFile fd es).2 := by
  fun_induction closeFile fd es with
  | case1 => rfl
  | case2 => rfl
  | case3 e es hno ih => exact ih

theorem forget_store (c : Client) : c.store.effects.map PoolReq.forget = c.store.effects := by
  have hgo : ∀ (ops : List PoolOp) (s : Store), s.effects.map PoolReq.forget = s.effects →
      (ops.foldl Store.apply s).effects.map PoolReq.forget =
        (ops.foldl Store.apply s).effects := by
    intro ops
    induction ops with
    | nil => exact fun s hs => hs
    | cons op ops ih =>
        intro s hs
        refine ih _ ?_
        cases op with
        | runCleanupFile fd => rw [Store.apply, List.map_append, hs, forget_closeFile]
        | _ => exact hs
  exact hgo c.granted .empty rfl

/-- Every handler registered has run once when the pool is gone: those of files
closed early, in that order, then the others, the latest first, each with a
pointer to its own data, which it finds there. -/
theorem every_handler_once (hsize : sizeofPool ≤ psize) (h8 : psize % 8 = 0)
    (h : Used psize w₀ ops c w) (hend : Ends poolKernel (ngxDestroyPool c.pool) w () w') :
    Safe poolKernel (Finds w.mem) (ngxDestroyPool c.pool) w ∧
      ∃ rss, List.Forall₂ (Called w.mem) c.store.entries rss ∧
        w'.effects = w₀.effects ++ (c.store.effects ++ rss.flatten) ∧
        ((c.store.effects ++ rss.flatten).map PoolReq.forget).Perm
          (c.granted.flatMap PoolOp.asks) := by
  have hg := good_run hsize h8 h
  have hcov : ∀ o ∈ dataRegions c.pool.cleanup c.store.entries, w.heap.Covers o := fun o ho =>
    hg.holds.covers (by simp [Client.owned, ho])
  have he := ((wp_ngxDestroyPool hg.holds hg.shows.entries hcov).ends hend).2
  have hmap : (c.store.effects ++ pending c.pool.cleanup c.store.entries).map PoolReq.forget =
      c.store.effects ++ c.store.pending := by
    rw [List.map_append, forget_store, forget_pending hg.shows.entries]
    rfl
  obtain ⟨rss, hcalled, hrss⟩ := called_pending hg.shows.entries
  refine ⟨finds_ngxDestroyPool _ _, rss, hcalled, ?_, ?_⟩
  · rw [he, hg.effects, hrss, List.append_assoc]
  · rw [← hrss, hmap]
    exact hg.accounts

/-- The handler has run, and the block is freed. -/
theorem short_destroyed : Ends poolKernel (ngxDestroyPool shortClient.pool) shortWorld ()
    ⟨.empty (put shortMem 16 (.replicate 128 0)), [.callback 7 none]⟩ := by
  have hcall : poolKernel (.callback 7 none) shortWorld ()
      ⟨shortWorld.heap, [.callback 7 none]⟩ := ⟨rfl, rfl⟩
  have hfree : poolKernel (.free (some 16)) ⟨shortWorld.heap, [.callback 7 none]⟩ ()
      ⟨.empty (put shortMem 16 (.replicate 128 0)), [.callback 7 none]⟩ := by
    have hlive : shortWorld.heap.live 16 = some (List.replicate 128 (0 : Byte)).length := rfl
    refine ⟨.frees hlive ?_ rfl, rfl⟩
    funext a
    simp [Heap.empty, shortWorld, oneWorld, Heap.one, Function.update_apply]
  exact .step hcall (.step hfree (.refl _ _))

theorem every_handler_once_short :
    Safe poolKernel (Finds shortWorld.mem) (ngxDestroyPool shortClient.pool) shortWorld ∧
      ∃ rss, List.Forall₂ (Called shortWorld.mem) shortClient.store.entries rss ∧
        ([.callback 7 none] : List PoolReq) = [] ++ (shortClient.store.effects ++ rss.flatten) ∧
        ((shortClient.store.effects ++ rss.flatten).map PoolReq.forget).Perm
          (shortClient.granted.flatMap PoolOp.asks) :=
  every_handler_once (by decide) (by decide) used_short short_destroyed

/-- As long as no memory is used a second time, what the pool gives is zero. -/
theorem fresh_zero {way : Way} {n a : Nat} {pool : NgxPool} (hsize : sizeofPool ≤ psize)
    (h8 : psize % 8 = 0) (h : Used psize w₀ ops c w) (hops : ∀ op ∈ ops, op.Fresh) (hn : 0 < n)
    (hask : Ends poolKernel (way.ask c.pool n) w (some a, pool) w') :
    cells w'.mem ⟨a, n⟩ = .replicate n 0 := by
  obtain ⟨hg, hb⟩ := session_induction (J := fun c w => Blank c.pool.spans w.mem) hsize h8 h hops
    (fun _ _ hb _ => hb) (fun _ _ _ _ _ hf hb hw => hw.blank hf hb)
  exact ((wp_way hg.holds hn).ends hask).1.zero hb a rfl

theorem fresh_zero_short : cells shortMem ⟨112, 5⟩ = [0, 0, 0, 0, 0] :=
  have hask : Ends poolKernel (Way.palloc.ask shortClient.pool 5) shortWorld
      (some 112, { shortClient.pool with active := [⟨16, 117, 144, 0⟩] }) shortWorld := .refl _ _
  fresh_zero (by decide) (by decide) used_short (by simp [shortOps, PoolOp.Fresh]) (by decide) hask

/-- As long as the pool is not reset, a request looks at seven blocks at most,
and they have failed `k - 2`, …, 1, 0 and 0 times. -/
theorem seven_blocks (hsize : sizeofPool ≤ psize) (h8 : psize % 8 = 0)
    (h : Used psize w₀ ops c w) (hops : ∀ op ∈ ops, op ≠ .reset) : c.pool.Short :=
  (session_induction (J := fun c _ => c.pool.Short) hsize h8 h hops (fun _ _ _ hs => hs)
    (fun _ _ _ _ _ hf hs hw => hw.short hf hs)).2

theorem seven_blocks_short : shortClient.pool.Short :=
  seven_blocks (by decide) (by decide) used_short (by simp [shortOps])

end

/-! ## Block sizes -/

/-- One byte more is given away. -/
theorem onePool_pnalloc {psize k : Nat} (hfit : psize < 2 ^ 62) {m : Mem 64 Byte} {c : Client}
    (hc : c.pool = onePool psize k) (hk : sizeofPool + k < psize) :
    ∃ c' m', Ends poolKernel (serve (.get .pnalloc [0]) c) (oneWorld psize hfit m) c'
      (oneWorld psize hfit m') ∧ c'.pool = onePool psize (k + 1) := by
  simp only [sizeofPool] at hk
  have hask : ngxPnalloc (onePool psize k) 1 =
      Prog.ret (some (16 + sizeofPool + k), onePool psize (k + 1)) := by
    have hmax : 1 ≤ (onePool psize k).max := by
      simp only [onePool, sizeofPool, NGX_MAX_ALLOC_FROM_POOL]
      omega
    rw [ngxPnalloc, if_pos hmax, ngxPallocSmall]
    simp only [onePool, pallocSmallLoop, sizeofPool, Bool.false_eq_true, if_false]
    rw [psub_eq (by omega) (by omega), if_pos (by omega), padd_eq (by omega)]
    rfl
  have hstore : poolKernel (.store (16 + sizeofPool + k) [0]) (oneWorld psize hfit m) ()
      (oneWorld psize hfit (put m (16 + sizeofPool + k) [0])) := ⟨⟨rfl, rfl⟩, rfl⟩
  refine ⟨⟨onePool psize (k + 1), ⟨16 + sizeofPool + k, 1⟩ :: c.objs, c.arrs,
    c.granted ++ [.get .pnalloc [0]]⟩, put m (16 + sizeofPool + k) [0], ?_, rfl⟩
  rw [serve, hc]
  simp only [Way.ask, List.length_singleton, hask]
  exact .step hstore (.refl _ _)

/-- A whole block given away, byte by byte. -/
theorem onePool_filled {psize : Nat} (hfit : psize < 2 ^ 62) {m : Mem 64 Byte}
    (hsize : sizeofPool < psize) :
    ∃ c m', Runs poolKernel serve Proper (.fresh (onePool psize 0))
      (oneWorld psize hfit m)
      (.replicate (psize - sizeofPool) (.get .pnalloc [0])) c (oneWorld psize hfit m') ∧
      c.pool = onePool psize (psize - sizeofPool) := by
  have hgo : ∀ j k c m, c.pool = onePool psize k → sizeofPool + (k + j) = psize →
      ∃ c' m', Runs poolKernel serve Proper c (oneWorld psize hfit m)
        (.replicate j (.get .pnalloc [0])) c' (oneWorld psize hfit m') ∧
        c'.pool = onePool psize (k + j) := by
    intro j
    induction j with
    | zero => exact fun k c m hc _ => ⟨c, m, .nil _ _, hc⟩
    | succ j ih =>
        intro k c m hc hk
        obtain ⟨c₁, m₁, hone, hc₁⟩ := onePool_pnalloc (m := m) hfit hc (by omega)
        obtain ⟨c₂, m₂, hrest, hc₂⟩ := ih (k + 1) c₁ m₁ hc₁ (by omega)
        refine ⟨c₂, m₂, .cons (by simp [Proper]) hone hrest, ?_⟩
        rw [hc₂]
        congr 1
        omega
  simpa using hgo (psize - sizeofPool) 0 (.fresh (onePool psize 0)) m rfl (by omega)

/-- Whatever is asked of a pool is done without damage, if and only if the size
of its blocks, which hold the header, is a multiple of eight. -/
theorem harmless_iff_word {psize : Nat} (hsize : sizeofPool ≤ psize) (hfit : psize < 2 ^ 62) :
    (∀ w₀ ops c w op, Used psize w₀ ops c w → Proper op c w → Safe poolKernel Harmless (serve op c) w) ↔
      psize % 8 = 0 := by
  constructor
  · intro hsafe
    by_contra hodd
    have hlt : sizeofPool < psize := by
      simp only [sizeofPool] at hsize ⊢
      omega
    obtain ⟨c, m, hrun, hc⟩ := onePool_filled hfit
      (m := put (fun _ => 0) 16 (.replicate psize 0)) hlt
    have hused : Used psize ⟨.empty fun _ => 0, []⟩
        (.replicate (psize - sizeofPool) (.get .pnalloc [0])) c (oneWorld psize hfit m) :=
      ⟨_, _, onePool_created hsize hfit, hrun⟩
    -- the aligned address lies behind the end, so the difference is enormous
    obtain ⟨hle, hnear, h8⟩ := ngxAlignPtr_bounds (p := 16 + psize) (by omega)
    have hask : ngxPalloc (onePool psize (psize - sizeofPool)) 1 = Prog.ret
        (some (ngxAlignPtr (16 + psize)), { onePool psize (psize - sizeofPool) with
          active := [⟨16, padd (ngxAlignPtr (16 + psize)) 1, 16 + psize, 0⟩] }) := by
      have hmax : 1 ≤ (onePool psize (psize - sizeofPool)).max := by
        simp only [onePool, sizeofPool, NGX_MAX_ALLOC_FROM_POOL] at hlt ⊢
        omega
      have hlast : 16 + sizeofPool + (psize - sizeofPool) = 16 + psize := by omega
      have hroom : 1 ≤ psub (16 + psize) (ngxAlignPtr (16 + psize)) := by
        simp only [psub]
        omega
      rw [ngxPalloc, if_pos hmax, ngxPallocSmall]
      simp only [onePool, pallocSmallLoop, hlast, if_true, if_pos hroom]
      rfl
    have hbad := hsafe _ _ _ _ (.get .palloc [0]) hused (by simp [Proper])
    rw [serve, hc] at hbad
    simp only [Way.ask, List.length_singleton, hask] at hbad
    obtain ⟨a, n, hlive, -, hin⟩ := hbad _ _ _ (.refl _ _)
    simp only [oneWorld, Heap.one, Function.update_apply] at hlive
    split at hlive
    · rename_i ha
      obtain rfl := Option.some.inj hlive
      simp only [Region.fin_mk, List.length_singleton] at hin
      omega
    · cases hlive
  · intro h8 w₀ ops c w op h hp
    exact (good_serve (good_run hsize h8 h) hp).safe

/-- The blocks of the debugger's pool. -/
theorem harmless_iff_word_debugger :
    (∀ w₀ ops c w op, Used 4096 w₀ ops c w → Proper op c w →
      Safe poolKernel Harmless (serve op c) w) ↔ 4096 % 8 = 0 :=
  harmless_iff_word (by decide) (by decide)

end TestDbug
