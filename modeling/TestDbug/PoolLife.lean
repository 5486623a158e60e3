/-
# `TestDbug.PoolLife` — the beginning and the end of a pool

What `ngx_create_pool` makes, what the cleanup handlers do, and what
`ngx_reset_pool` and `ngx_destroy_pool` leave: after the first the pool is as
good as new, after the second the heap has what it had before the pool was
made, each of its regions freed once (`wp_ngxDestroyPool`).
-/
import TestDbug.PoolArray

open ByteMemory Interaction

namespace TestDbug

section
variable {L : Nat → Option Nat} {psize : Nat} {ex : List Nat} {pool pool' : NgxPool}
  {w w' : World} {h : Heap} {os : List Region} {n : Nat}

/-! ## `ngx_create_pool` -/

/-- The specification of `ngx_create_pool`, for a size that leaves room for the
header and is a multiple of eight. -/
theorem wp_ngxCreatePool (hsize : sizeofPool ≤ psize) (h8 : psize % 8 = 0) :
    wp poolKernel Harmless (ngxCreatePool psize)
      (fun r w' => w'.effects = w.effects ∧ (r = none → w'.heap.live = w.heap.live) ∧
        ∀ pool, r = some pool → pool.Holds w.heap.live psize [] w'.heap [] ∧
          Blank pool.spans w'.mem ∧ pool.Short ∧ pool.cleanup = []) w := by
  refine wp_ask trivial fun x w₁ ⟨hc, he⟩ => ?_
  cases x with
  | none =>
      exact ⟨he, fun _ => by rw [hc.eq_of_none], fun _ hx => nomatch hx⟩
  | some p =>
      have hfit := (w₁.heap.fits _ _ hc.live_new).2.2
      have hnil : Arena w.heap.live [] [] w.heap [] := by
        refine ⟨Heap.owns_nil.mpr rfl, ?_, ?_, List.Pairwise.nil, ?_⟩
        all_goals intro _ hin; exact absurd hin List.not_mem_nil
      have hpos : 0 < sizeofPool := by simp [sizeofPool]
      have ar := hnil.addSpan hc hpos hsize
      have hb := hnil.blank_addSpan hc hsize (fun _ hin => absurd hin List.not_mem_nil)
      simp only [Prog.pure_eq, wp_ret]
      refine ⟨he, fun hx => absurd hx (Option.some_ne_none _), ?_⟩
      rintro pool ⟨⟩
      have hp : padd p sizeofPool = p + sizeofPool := padd_eq (by omega)
      have hend : padd p psize = p + psize := padd_eq (by omega)
      have hmax : (if psub psize sizeofPool < NGX_MAX_ALLOC_FROM_POOL then
          psub psize sizeofPool else NGX_MAX_ALLOC_FROM_POOL) + sizeofPool ≤ psize := by
        rw [psub_eq hsize (by omega)]
        split <;> omega
      rw [hp, hend]
      refine ⟨⟨ar, ?_, hmax, h8, by simp⟩, hb, ?_, rfl⟩
      · intro s hs
        obtain rfl := List.mem_singleton.mp hs
        rfl
      · exact ⟨⟨rfl, trivial⟩, by simp⟩

/-! ## Cleanup handlers -/

/-- `fd` of an `ngx_pool_cleanup_file_t`. -/
def fdOf (bs : List Byte) : BitVec 32 := BitVec.ofNat 32 (natOfBytes (bs.take 4))

/-- `name` of an `ngx_pool_cleanup_file_t`. -/
def nameOf (bs : List Byte) : Word := ofBytes ((bs.drop 8).take 8)

/-- What a handler asks the system to do, with the data `bs` at `data`. -/
def CleanupPt.effects (bs : List Byte) (data : Ptr) : CleanupPt → List PoolReq
  | .file => [.close (fdOf bs)]
  | .deleteFile => [.unlink (nameOf bs), .close (fdOf bs)]
  | .other id => [.callback id data]

/-- The handler reads an `ngx_pool_cleanup_file_t`. -/
def CleanupPt.ReadsFile (f : CleanupPt) : Prop := f = .file ∨ f = .deleteFile

/-- What a user meant by a cleanup record: the handler and the data. -/
abbrev Entry := Option CleanupPt × List Byte

/-- The record has the handler, and its data is in memory. -/
structure Backed (m : Mem 64 Byte) (c : NgxPoolCleanup) (e : Entry) : Prop where
  handler : c.handler = e.1
  null : c.data = none ↔ e.2 = []
  data : ∀ a, c.data = some a → cells m ⟨a, e.2.length⟩ = e.2
  file : ∀ f, e.1 = some f → f.ReadsFile → 16 ≤ e.2.length

/-- The memory the data of the records takes. -/
def dataRegions (cs : List NgxPoolCleanup) (es : List Entry) : List Region :=
  (List.zipWith (fun c e => handed c.data e.2.length) cs es).flatten

/-- What the records still to be run will ask for, the latest first. -/
def pending (cs : List NgxPoolCleanup) (es : List Entry) : List PoolReq :=
  (List.zipWith (fun c e => (e.1.map (CleanupPt.effects e.2 c.data)).getD []) cs es).flatten

theorem Backed.frame {m m' : Mem 64 Byte} {c : NgxPoolCleanup} {e : Entry} (hb : Backed m c e)
    (hk : ∀ o ∈ handed c.data e.2.length, cells m' o = cells m o) : Backed m' c e := by
  refine ⟨hb.handler, hb.null, ?_, hb.file⟩
  intro a ha
  rw [hk _ (by simp [handed, ha])]
  exact hb.data a ha

/-- What is read of the data of a file. -/
theorem Backed.reads {m : Mem 64 Byte} {c : NgxPoolCleanup} {e : Entry} {f : CleanupPt}
    (hb : Backed m c e) (hf : e.1 = some f) (hr : f.ReadsFile) :
    ∃ a, c.data = some a ∧ cells m ⟨a, 4⟩ = e.2.take 4 ∧
      cells m ⟨a + 8, 8⟩ = (e.2.drop 8).take 8 := by
  have hlen := hb.file f hf hr
  cases ha : c.data with
  | none =>
      rw [hb.null.mp ha] at hlen
      simp at hlen
  | some a =>
      have hd := hb.data a ha
      refine ⟨a, rfl, ?_, ?_⟩
      · have hpart := cells_part (m := m) a 0 (e.2.length - 4) 4
        rw [show 0 + 4 + (e.2.length - 4) = e.2.length by omega, hd] at hpart
        simpa using hpart
      · have hpart := cells_part (m := m) a 8 (e.2.length - 16) 8
        rw [show 8 + 8 + (e.2.length - 16) = e.2.length by omega, hd] at hpart
        exact hpart

/-- Two words of data are read inside of it. -/
theorem Backed.covered {c : NgxPoolCleanup} {e : Entry} {f : CleanupPt}
    (hb : Backed w.mem c e) (hf : e.1 = some f) (hr : f.ReadsFile)
    (hcov : ∀ o ∈ handed c.data e.2.length, w.heap.Covers o) {i k : Nat} (hi : i + k ≤ 16) :
    w.heap.Covers ⟨c.data.addr + i, k⟩ ∧ c.data.addr + 16 < 2 ^ 63 := by
  have hlen := hb.file f hf hr
  obtain ⟨a, ha, -, -⟩ := hb.reads hf hr
  have hc := hcov ⟨a, e.2.length⟩ (by simp [handed, ha])
  have hfit := hc.fits
  rw [ha]
  simp only [Ptr.addr, Option.getD_some, Region.fin_mk] at hfit ⊢
  refine ⟨hc.within ⟨Nat.le_add_right _ _, ?_⟩, by omega⟩
  simp only [Region.fin_mk]
  omega

theorem wp_cleanupFileFd {c : NgxPoolCleanup} {e : Entry} {f : CleanupPt}
    (hb : Backed w.mem c e) (hf : e.1 = some f) (hr : f.ReadsFile)
    (hcov : ∀ o ∈ handed c.data e.2.length, w.heap.Covers o) :
    wp poolKernel Harmless (cleanupFileFd c.data) (fun fd w' => fd = fdOf e.2 ∧ w' = w) w := by
  refine wp_ask ?_ fun bs w' ⟨hbs, hw⟩ => ?_
  · exact (hb.covered hf hr hcov (i := 0) (k := 4) (by omega)).1
  · obtain ⟨a, ha, hread, -⟩ := hb.reads hf hr
    refine ⟨?_, hw⟩
    rw [hbs, ha]
    simp only [Ptr.addr, Option.getD_some, hread, fdOf]

/-- One handler. -/
theorem wp_run {c : NgxPoolCleanup} {e : Entry} {f : CleanupPt} (hb : Backed w.mem c e)
    (hf : e.1 = some f) (hcov : ∀ o ∈ handed c.data e.2.length, w.heap.Covers o) :
    wp poolKernel Harmless (f.run c.data)
      (fun _ w' => w'.heap = w.heap ∧ w'.effects = w.effects ++ f.effects e.2 c.data) w := by
  cases f with
  | file =>
      refine wp_seq (wp_cleanupFileFd hb hf (.inl rfl) hcov) ?_
      rintro fd w₁ ⟨hfd, hw⟩
      obtain rfl := hw
      refine wp_req.mpr ⟨trivial, ?_⟩
      rintro _ w₂ ⟨hh, he⟩
      refine ⟨hh, ?_⟩
      rw [he, hfd]
      rfl
  | deleteFile =>
      have hr : CleanupPt.ReadsFile .deleteFile := .inr rfl
      obtain ⟨hc, hfit⟩ := hb.covered hf hr hcov (i := 8) (k := 8) (by omega)
      obtain ⟨a, ha, -, hread⟩ := hb.reads hf hr
      have hadd : padd c.data.addr 8 = c.data.addr + 8 := padd_eq (by omega)
      have hsound : Harmless (.load (padd c.data.addr 8) 8) w := by
        rw [hadd]
        exact hc
      refine wp_ask hsound ?_
      rintro bs w₁ ⟨hbs, hw⟩
      obtain rfl := hw
      refine wp_ask trivial ?_
      rintro _ w₂ ⟨hh₂, he₂⟩
      have hb₂ : Backed w₂.mem c e := by
        rw [World.mem, hh₂]
        exact hb
      refine wp_seq (wp_cleanupFileFd hb₂ hf hr (by rw [hh₂]; exact hcov)) ?_
      rintro fd w₃ ⟨hfd, hw⟩
      obtain rfl := hw
      refine wp_req.mpr ⟨trivial, ?_⟩
      rintro _ w₄ ⟨hh₄, he₄⟩
      refine ⟨hh₄.trans hh₂, ?_⟩
      have hname : ofBytes bs = nameOf e.2 := by
        rw [hbs, hadd, ha]
        simp only [Ptr.addr, Option.getD_some, hread, nameOf]
      rw [he₄, he₂, hfd, hname, List.append_assoc]
      rfl
  | other id => exact wp_req.mpr ⟨trivial, fun _ w₁ hk => hk⟩

/-- The first loop of `ngx_destroy_pool`: every handler still there, each once. -/
theorem wp_runCleanups {cs : List NgxPoolCleanup} {es : List Entry}
    (hb : List.Forall₂ (Backed w.mem) cs es)
    (hcov : ∀ o ∈ dataRegions cs es, w.heap.Covers o) :
    wp poolKernel Harmless (runCleanups cs)
      (fun _ w' => w'.heap = w.heap ∧ w'.effects = w.effects ++ pending cs es) w := by
  induction cs generalizing es w with
  | nil =>
      cases hb
      exact ⟨rfl, (List.append_nil _).symm⟩
  | cons c cs ih =>
      obtain ⟨e, es, hc, hrest, rfl⟩ := List.forall₂_cons_left_iff.mp hb
      have hcov₁ : ∀ o ∈ handed c.data e.2.length, w.heap.Covers o := fun o ho =>
        hcov o (by simp [dataRegions, ho])
      have hcov₂ : ∀ o ∈ dataRegions cs es, w.heap.Covers o := by
        intro o ho
        apply hcov
        simp only [dataRegions, List.zipWith_cons_cons, List.flatten_cons, List.mem_append]
        exact .inr ho
      have hone : wp poolKernel Harmless (runCleanup c)
          (fun _ w' => w'.heap = w.heap ∧
            w'.effects = w.effects ++ (e.1.map (CleanupPt.effects e.2 c.data)).getD []) w := by
        rw [runCleanup, hc.handler]
        cases hf : e.1 with
        | none => exact ⟨rfl, (List.append_nil _).symm⟩
        | some f => exact wp_run hc hf hcov₁
      refine wp_seq hone fun _ w₁ ⟨hh₁, he₁⟩ => ?_
      have hrest₁ : List.Forall₂ (Backed w₁.mem) cs es := by rwa [World.mem, hh₁]
      refine wp_mono ?_ (ih hrest₁ (by rwa [hh₁]))
      rintro _ w₂ ⟨hh₂, he₂⟩
      refine ⟨hh₂.trans hh₁, ?_⟩
      rw [he₂, he₁, List.append_assoc]
      rfl

/-- The records after `ngx_pool_run_cleanup_file`, and what it asks for: the
latest entry for the descriptor is closed. -/
def closeFile (fd : BitVec 32) : List Entry → List Entry × List PoolReq
  | [] => ([], [])
  | e :: es =>
      if e.1 = some .file ∧ fdOf e.2 = fd then ((none, e.2) :: es, [.close fd])
      else (e :: (closeFile fd es).1, (closeFile fd es).2)

/-- The specification of the loop of `ngx_pool_run_cleanup_file`. -/
theorem wp_runCleanupFileLoop {fd : BitVec 32} {cs : List NgxPoolCleanup} {es : List Entry}
    (hb : List.Forall₂ (Backed w.mem) cs es)
    (hcov : ∀ o ∈ dataRegions cs es, w.heap.Covers o) :
    wp poolKernel Harmless (runCleanupFileLoop fd cs)
      (fun cs' w' => w'.heap = w.heap ∧ w'.effects = w.effects ++ (closeFile fd es).2 ∧
        List.Forall₂ (Backed w.mem) cs' (closeFile fd es).1 ∧
        List.Forall₂ (fun c c' => c'.addr = c.addr ∧ c'.data = c.data) cs cs') w := by
  induction cs generalizing es with
  | nil =>
      cases hb
      exact ⟨rfl, (List.append_nil _).symm, .nil, .nil⟩
  | cons c cs ih =>
      obtain ⟨e, es, hc, hrest, rfl⟩ := List.forall₂_cons_left_iff.mp hb
      have hcov₁ : ∀ o ∈ handed c.data e.2.length, w.heap.Covers o := fun o ho =>
        hcov o (by simp [dataRegions, ho])
      have hcov₂ : ∀ o ∈ dataRegions cs es, w.heap.Covers o := by
        intro o ho
        apply hcov
        simp only [dataRegions, List.zipWith_cons_cons, List.flatten_cons, List.mem_append]
        exact .inr ho
      -- the rest of the list, with this record as it is
      have hgo : ¬(e.1 = some .file ∧ fdOf e.2 = fd) →
          wp poolKernel Harmless (do return c :: (← runCleanupFileLoop fd cs))
            (fun cs' w' => w'.heap = w.heap ∧
              w'.effects = w.effects ++ (closeFile fd (e :: es)).2 ∧
              List.Forall₂ (Backed w.mem) cs' (closeFile fd (e :: es)).1 ∧
              List.Forall₂ (fun c c' => c'.addr = c.addr ∧ c'.data = c.data) (c :: cs) cs') w := by
        intro hno
        refine wp_seq (ih hrest hcov₂) ?_
        rintro cs' w' ⟨hh, he, hback, hsame⟩
        simp only [closeFile, if_neg hno, Prog.pure_eq, wp_ret]
        exact ⟨hh, he, .cons hc hback, .cons ⟨rfl, rfl⟩ hsame⟩
      rw [runCleanupFileLoop, hc.handler]
      by_cases hf : e.1 = some .file
      · rw [if_pos hf]
        refine wp_seq (wp_cleanupFileFd hc hf (.inl rfl) hcov₁) ?_
        rintro cfd w₁ ⟨hfd, hw⟩
        obtain rfl := hw
        by_cases heq : cfd = fd
        · have hyes : e.1 = some .file ∧ fdOf e.2 = fd := ⟨hf, hfd ▸ heq⟩
          rw [if_pos heq]
          refine wp_seq (wp_run hc hf hcov₁) ?_
          rintro _ w₂ ⟨hh, he⟩
          simp only [closeFile, if_pos hyes, Prog.pure_eq, wp_ret]
          refine ⟨hh, ?_,
            .cons ⟨rfl, hc.null, hc.data, fun _ hx => absurd hx.symm (Option.some_ne_none _)⟩ hrest,
            .cons ⟨rfl, rfl⟩ (List.forall₂_same.mpr fun _ _ => ⟨rfl, rfl⟩)⟩
          rw [he, ← hyes.2]
          rfl
        · rw [if_neg heq]
          exact hgo fun hyes => heq (hfd.trans hyes.2)
      · rw [if_neg hf]
        exact hgo fun hyes => hf hyes.1

/-! ## Everything given back -/

/-- The loop over the large pieces frees each of them once. -/
theorem wp_freeLarge {xs : List Nat} {ls : List NgxPoolLarge}
    (ho : w.heap.Owns L (xs ++ ls.filterMap NgxPoolLarge.alloc)) :
    wp poolKernel Harmless (freeLarge ls)
      (fun _ w' => w'.heap.Owns L xs ∧ (∀ a ∈ xs, w'.heap.live a = w.heap.live a) ∧
        w'.effects = w.effects) w := by
  induction ls generalizing w with
  | nil =>
      rw [List.filterMap_nil, List.append_nil] at ho
      exact ⟨ho, fun _ _ => rfl, rfl⟩
  | cons l ls ih =>
      rw [freeLarge]
      cases ha : l.alloc with
      | none =>
          simp only [ne_eq, not_true, if_false]
          exact ih (by simpa [List.filterMap_cons, ha] using ho)
      | some a =>
          simp only [List.filterMap_cons, ha] at ho
          have hown := ho.own a (by simp)
          have hnew : ∀ b ∈ xs, b ≠ a := by
            rintro b hb rfl
            exact (List.nodup_append.mp ho.nodup).2.2 b hb b List.mem_cons_self rfl
          simp only [ne_eq, reduceCtorEq, not_false_eq_true, if_true]
          refine wp_ask hown fun _ w₁ ⟨hf, he⟩ => ?_
          have ho₁ := (ho.perm List.perm_middle).free hf
          refine wp_mono ?_ (ih ho₁)
          rintro _ w₂ ⟨ho₂, hl₂, he₂⟩
          refine ⟨ho₂, ?_, he₂.trans he⟩
          intro b hb
          rw [hl₂ b hb, hf.live_other (hnew b hb)]

/-- The last loop of `ngx_destroy_pool` frees each block once. -/
theorem wp_freeBlocks {bs : List NgxPoolData}
    (ho : w.heap.Owns L (bs.map NgxPoolData.start)) :
    wp poolKernel Harmless (freeBlocks bs)
      (fun _ w' => w'.heap.live = L ∧ w'.effects = w.effects) w := by
  induction bs generalizing w with
  | nil => exact ⟨Heap.owns_nil.mp ho, rfl⟩
  | cons b bs ih =>
      refine wp_ask (ho.own _ List.mem_cons_self) fun _ w₁ ⟨hf, he⟩ => ?_
      refine wp_mono ?_ (ih (ho.free hf))
      rintro _ w₂ ⟨hl, he₂⟩
      exact ⟨hl, he₂.trans he⟩

theorem map_start_spans (pool : NgxPool) :
    pool.spans.map Span.start = pool.chain.map NgxPoolData.start := by
  rw [NgxPool.spans, List.map_map]
  rfl

/-- The specification of `ngx_destroy_pool`: the handlers, and the heap as it was. -/
theorem wp_ngxDestroyPool {es : List Entry} (hold : pool.Holds L psize [] w.heap os)
    (hb : List.Forall₂ (Backed w.mem) pool.cleanup es)
    (hcov : ∀ o ∈ dataRegions pool.cleanup es, w.heap.Covers o) :
    wp poolKernel Harmless (ngxDestroyPool pool)
      (fun _ w' => w'.heap.live = L ∧ w'.effects = w.effects ++ pending pool.cleanup es) w := by
  refine wp_seq (wp_runCleanups hb hcov) fun _ w₁ ⟨hh₁, he₁⟩ => ?_
  have ho := hold.arena.owns
  rw [map_start_spans, List.nil_append, ← hh₁] at ho
  refine wp_seq (wp_freeLarge ho) fun _ w₂ ⟨ho₂, _, he₂⟩ => ?_
  refine wp_mono ?_ (wp_freeBlocks ho₂)
  rintro _ w₃ ⟨hl, he₃⟩
  exact ⟨hl, by rw [he₃, he₂, he₁]⟩

/-- The headers, block by block. -/
theorem headers_eq {d : NgxPoolData} {bs : List NgxPoolData}
    (hd : ((d :: bs).map NgxPoolData.start).Nodup) (last : NgxPoolData → Nat) :
    headers ((d :: bs).map fun b => ⟨b.start, last b, b.end_⟩) =
      ((d :: bs).map fun b => (⟨b.start, last b, b.end_⟩ : Span)).map fun s =>
        ⟨s.start, if s.start = d.start then sizeofPool else sizeofPoolData⟩ := by
  simp only [List.map_cons, headers, List.map_map, if_true, List.cons.injEq, true_and]
  refine List.map_congr_left fun b hb => ?_
  have hne : b.start ≠ d.start := by
    intro he
    exact (List.nodup_cons.mp hd).1 (he ▸ List.mem_map_of_mem hb)
  simp only [Function.comp_apply, if_neg hne]

/-- The specification of `ngx_reset_pool`, for a pool without cleanup records. -/
theorem wp_ngxResetPool (hold : pool.Holds L psize [] w.heap os) (hcl : pool.cleanup = []) :
    wp poolKernel Harmless (ngxResetPool pool)
      (fun pool' w' => pool'.Holds L psize [] w'.heap [] ∧ pool'.cleanup = [] ∧
        w'.effects = w.effects) w := by
  have ho := hold.arena.owns
  rw [List.nil_append] at ho
  refine wp_seq (wp_freeLarge ho) fun _ w₁ ⟨ho₁, hl₁, he₁⟩ => ?_
  have hmax := hold.max
  have hne : pool.chain ≠ [] := fun hnil => hold.active (List.append_eq_nil_iff.mp hnil).2
  obtain ⟨d, bs, hchain⟩ := List.exists_cons_of_ne_nil hne
  have hblock : ∀ b ∈ d :: bs, padd b.start sizeofPool = b.start + sizeofPool ∧
      b.start + sizeofPool ≤ b.end_ ∧ b.end_ = b.start + psize ∧
      w₁.heap.live b.start = some (b.end_ - b.start) := by
    intro b hb
    rw [← hchain] at hb
    obtain ⟨-, h₂, h₃, -, -, h₆⟩ := hold.block hb
    have hs : b.span ∈ pool.spans := List.mem_map_of_mem hb
    refine ⟨padd_eq (by omega), by omega, h₃, ?_⟩
    rw [hl₁ b.start (List.mem_map_of_mem (f := Span.start) hs)]
    exact (hold.arena.span _ hs).2.2
  have hspans : NgxPool.spans { pool with
      passed := []
      active := pool.chain.map fun p => { p with last := padd p.start sizeofPool, failed := 0 }
      large := [] } = (d :: bs).map fun b => ⟨b.start, b.start + sizeofPool, b.end_⟩ := by
    simp only [NgxPool.spans, NgxPool.chain, List.nil_append, List.map_map]
    rw [show pool.passed ++ pool.active = d :: bs from hchain]
    refine List.map_congr_left fun b hb => ?_
    simp only [Function.comp_apply, NgxPoolData.span, (hblock b hb).1]
  rw [map_start_spans, hchain] at ho₁
  have hstarts : ((d :: bs).map fun b => (⟨b.start, b.start + sizeofPool, b.end_⟩ : Span)).map
      Span.start = (d :: bs).map NgxPoolData.start := by
    rw [List.map_map]
    rfl
  have ar := Arena.ofSpans (L := L) (h := w₁.heap)
    ((d :: bs).map fun b => ⟨b.start, b.start + sizeofPool, b.end_⟩)
    (fun s => if s.start = d.start then sizeofPool else sizeofPoolData)
    (by rwa [hstarts]) ?_ ?_
  · refine ⟨⟨?_, ?_, hmax, hold.word, ?_⟩, hcl, he₁⟩
    · rw [hspans]
      have hrec : NgxPool.records { pool with
          passed := []
          active := pool.chain.map fun p => { p with last := padd p.start sizeofPool, failed := 0 }
          large := [] } =
          headers ((d :: bs).map fun b => ⟨b.start, b.start + sizeofPool, b.end_⟩) := by
        rw [NgxPool.records, hspans]
        simp only [hcl, List.map_nil, List.append_nil]
      rw [hrec, headers_eq ho₁.nodup, List.append_nil]
      exact ar
    · intro s hs
      rw [hspans] at hs
      obtain ⟨b, hb, rfl⟩ := List.mem_map.mp hs
      exact (hblock b hb).2.2.1
    · simp [hchain]
  · intro s hs
    obtain ⟨b, hb, rfl⟩ := List.mem_map.mp hs
    obtain ⟨-, h₂, -, h₄⟩ := hblock b hb
    exact ⟨Nat.le_add_right _ _, h₂, h₄⟩
  · intro s hs
    obtain ⟨b, hb, rfl⟩ := List.mem_map.mp hs
    simp only [sizeofPool, sizeofPoolData]
    split <;> omega

end

end TestDbug
