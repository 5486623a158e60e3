/-
# `TestDbug.Pool` — what the operations of a pool leave

A pool owns memory and has given parts of it away.  `Holds` says which: the
blocks and the large pieces are all the heap has for it, and its headers, its
records and the objects `os` given away lie inside, no two of them meeting.
`Grant` says what a request for `n` bytes leaves, granted or not.

The block size must be a multiple of eight: `ngx_palloc_small` aligns the
address before it compares it with `end`, as an unsigned difference, so an
address aligned past an odd end would look like a block with room for
everything.
-/
import TestDbug.Palloc

open ByteMemory Interaction

namespace TestDbug

/-! ## Pointers -/

theorem padd_eq {a n : Nat} (h : a + n < 2 ^ 64) : padd a n = a + n := Nat.mod_eq_of_lt h

theorem psub_eq {a b : Nat} (hb : b ≤ a) (ha : a < 2 ^ 64) : psub a b = a - b := by
  simp only [psub]
  omega

/-- Aligning goes up, by less than eight. -/
theorem ngxAlignPtr_bounds {p : Nat} (h : p < 2 ^ 63) :
    p ≤ ngxAlignPtr p ∧ ngxAlignPtr p < p + 8 ∧ ngxAlignPtr p % 8 = 0 := by
  rw [ngxAlignPtr, padd_eq (by omega)]
  omega

theorem ngxAlignPtr_eq {p : Nat} (h : p < 2 ^ 63) (h8 : p % 8 = 0) : ngxAlignPtr p = p := by
  have := ngxAlignPtr_bounds h
  omega

/-! ## What a pool holds -/

/-- The block as a stretch of memory. -/
def NgxPoolData.span (b : NgxPoolData) : Span := ⟨b.start, b.last, b.end_⟩

def NgxPool.spans (pool : NgxPool) : List Span := pool.chain.map NgxPoolData.span

/-- Where the large pieces start. -/
def NgxPool.bigs (pool : NgxPool) : List Nat := pool.large.filterMap NgxPoolLarge.alloc

/-- The first block starts with the whole `ngx_pool_t`, the others with its first part. -/
def headers : List Span → List Region
  | [] => []
  | s :: ss => ⟨s.start, sizeofPool⟩ :: ss.map (fun s => ⟨s.start, sizeofPoolData⟩)

/-- The memory the pool keeps its own data in. -/
def NgxPool.records (pool : NgxPool) : List Region :=
  headers pool.spans ++ pool.large.map (fun l => ⟨l.addr, sizeofPoolLarge⟩) ++
    pool.cleanup.map (fun c => ⟨c.addr, sizeofPoolCleanup⟩)

/-- The pool owns its blocks, its large pieces and the regions at `ex`, and
nothing else on top of `L`; the objects `os` and its own data are apart. -/
structure NgxPool.Holds (pool : NgxPool) (L : Nat → Option Nat) (psize : Nat) (ex : List Nat)
    (h : Heap) (os : List Region) : Prop where
  arena : Arena L pool.spans (ex ++ pool.bigs) h (pool.records ++ os)
  ends : ∀ s ∈ pool.spans, s.fin = s.start + psize
  max : pool.max + sizeofPool ≤ psize
  word : psize % 8 = 0
  active : pool.active ≠ []

/-- The object a request for `n` bytes was answered with. -/
def handed (x : Ptr) (n : Nat) : List Region := x.toList.map (fun a => ⟨a, n⟩)

/-- The `k` blocks from `current` on have failed `k - 2`, …, 1, 0 and 0 times. -/
def Aged : List NgxPoolData → Prop
  | [] => True
  | b :: bs => b.failed = bs.length - 1 ∧ Aged bs

/-- At most seven blocks are looked at for a piece. -/
def NgxPool.Short (pool : NgxPool) : Prop := Aged pool.active ∧ pool.active.length ≤ 7

/-- What any operation leaves of the objects `os` it is not about. -/
structure Keeps (pool : NgxPool) (w : World) (os : List Region) (pool' : NgxPool) (w' : World) :
    Prop where
  kept : ∀ o ∈ os, cells w'.mem o = cells w.mem o
  blank : Blank pool.spans w.mem → Blank pool'.spans w'.mem
  short : pool.Short → pool'.Short
  effects : w'.effects = w.effects

/-- What a request for `n` bytes leaves. -/
structure Grant (L : Nat → Option Nat) (psize : Nat) (ex : List Nat) (pool : NgxPool) (w : World)
    (os : List Region) (n : Nat) (x : Ptr) (pool' : NgxPool) (w' : World) : Prop where
  holds : pool'.Holds L psize ex w'.heap (handed x n ++ os)
  keeps : Keeps pool w os pool' w'
  zero : Blank pool.spans w.mem → ∀ m, x = some m → cells w'.mem ⟨m, n⟩ = .replicate n 0
  cleanup : pool'.cleanup = pool.cleanup

/-- The address is a multiple of eight. -/
def Aligned (x : Ptr) : Prop := ∀ a, x = some a → a % 8 = 0

section
variable {L : Nat → Option Nat} {psize : Nat} {ex : List Nat} {pool pool' : NgxPool}
  {w w' : World} {h : Heap} {os os' : List Region} {n : Nat}

theorem headers_congr {ss ts : List Span} (he : ss.map Span.start = ts.map Span.start) :
    headers ss = headers ts := by
  match ss, ts, he with
  | [], [], _ => rfl
  | s :: ss, t :: ts, he =>
      simp only [List.map_cons, List.cons.injEq] at he
      have hmap : ∀ us : List Span, us.map (fun s => (⟨s.start, sizeofPoolData⟩ : Region)) =
          (us.map Span.start).map (fun a => ⟨a, sizeofPoolData⟩) := by
        intro us
        rw [List.map_map]
        rfl
      simp only [headers, hmap, he]

theorem headers_append {ss : List Span} (hne : ss ≠ []) (s : Span) :
    headers (ss ++ [s]) = headers ss ++ [⟨s.start, sizeofPoolData⟩] := by
  cases ss with
  | nil => exact absurd rfl hne
  | cons t ts => simp [headers]

theorem Keeps.refl (pool : NgxPool) (w : World) (os : List Region) : Keeps pool w os pool w :=
  ⟨fun _ _ => rfl, id, id, rfl⟩

theorem Keeps.trans {pool₁ : NgxPool} {w₁ : World} (h₁ : Keeps pool w os pool₁ w₁)
    (h₂ : Keeps pool₁ w₁ os' pool' w') (hsub : os ⊆ os') : Keeps pool w os pool' w' where
  kept o ho := (h₂.kept o (hsub ho)).trans (h₁.kept o ho)
  blank hb := h₂.blank (h₁.blank hb)
  short hs := h₂.short (h₁.short hs)
  effects := h₂.effects.trans h₁.effects

theorem Keeps.sub (hk : Keeps pool w os' pool' w') (hsub : os ⊆ os') : Keeps pool w os pool' w' :=
  ⟨fun o ho => hk.kept o (hsub ho), hk.blank, hk.short, hk.effects⟩

/-- Only the blocks of the pool matter, not its records. -/
theorem Keeps.blocks {pool'' : NgxPool} (hk : Keeps pool w os pool' w')
    (hpassed : pool''.passed = pool'.passed) (hactive : pool''.active = pool'.active) :
    Keeps pool w os pool'' w' where
  kept := hk.kept
  blank hb := by
    simp only [NgxPool.spans, NgxPool.chain, hpassed, hactive]
    exact hk.blank hb
  short hs := by
    simp only [NgxPool.Short, hactive]
    exact hk.short hs
  effects := hk.effects

/-- A `calloc` that fails changes nothing. -/
theorem refused_eq (hc : w.heap.Calloc n none w'.heap) (he : w'.effects = w.effects) : w' = w := by
  obtain ⟨h, es⟩ := w
  obtain ⟨h', es'⟩ := w'
  have hh : h' = h := hc.eq_of_none
  have hes : es' = es := he
  rw [hh, hes]

theorem Grant.refused (hold : pool.Holds L psize ex w.heap os) :
    Grant L psize ex pool w os n none pool w where
  holds := hold
  keeps := .refl ..
  zero _ _ hx := nomatch hx
  cleanup := rfl

namespace NgxPool.Holds

theorem spans_ne_nil (hold : pool.Holds L psize ex h os) : pool.spans ≠ [] := by
  simp [NgxPool.spans, NgxPool.chain, hold.active]

theorem perm (hold : pool.Holds L psize ex h os) (hp : os.Perm os') :
    pool.Holds L psize ex h os' where
  arena := hold.arena.perm (hp.append_left _)
  ends := hold.ends
  max := hold.max
  word := hold.word
  active := hold.active

/-- Objects may be forgotten. -/
theorem sub (hold : pool.Holds L psize ex h os) (hsub : os'.Sublist os) :
    pool.Holds L psize ex h os' where
  arena := hold.arena.sub (hsub.append_left _)
  ends := hold.ends
  max := hold.max
  word := hold.word
  active := hold.active

/-- Only the table of allocations matters. -/
theorem congr {h' : Heap} (hold : pool.Holds L psize ex h os) (hl : h'.live = h.live) :
    pool.Holds L psize ex h' os where
  arena := hold.arena.congr hl
  ends := hold.ends
  max := hold.max
  word := hold.word
  active := hold.active

/-- An object lies in allocated memory. -/
theorem covers (hold : pool.Holds L psize ex h os) {o : Region} (ho : o ∈ os) : h.Covers o :=
  hold.arena.covers (List.mem_append_right _ ho)

/-- What every block satisfies. -/
theorem block (hold : pool.Holds L psize ex h os) {b : NgxPoolData} (hb : b ∈ pool.chain) :
    b.start ≤ b.last ∧ b.last ≤ b.end_ ∧ b.end_ = b.start + psize ∧ b.start % 8 = 0 ∧
      b.end_ % 8 = 0 ∧ b.end_ < 2 ^ 63 := by
  have hs : b.span ∈ pool.spans := List.mem_map_of_mem hb
  obtain ⟨h₁, h₂, hl⟩ := hold.arena.span _ hs
  have hend := hold.ends _ hs
  have hword := hold.word
  have hfit := h.fits _ _ hl
  simp only [NgxPoolData.span] at h₁ h₂ hend hfit
  omega

/-- The pool pointer is the address of the first block. -/
theorem d_mem (hold : pool.Holds L psize ex h os) : pool.d ∈ pool.chain := by
  have hne : pool.chain ≠ [] := by
    intro hnil
    exact hold.active (List.append_eq_nil_iff.mp hnil).2
  cases hc : pool.chain with
  | nil => exact absurd hc hne
  | cons b bs => simp [NgxPool.d, hc]

/-- The rule for a piece cut off a block. -/
theorem take (hold : pool.Holds L psize ex h os) {pre post : List Span} {s : Span} {m : Nat}
    (hspans : pool.spans = pre ++ s :: post) (hm : s.last ≤ m) (hn : 0 < n) (hfin : m + n ≤ s.fin)
    (hspans' : pool'.spans = pre ++ { s with last := m + n } :: post)
    (hlarge : pool'.large = pool.large) (hcleanup : pool'.cleanup = pool.cleanup)
    (hmax : pool'.max = pool.max) (hactive : pool'.active ≠ []) :
    pool'.Holds L psize ex h (⟨m, n⟩ :: os) := by
  have hhead : headers pool'.spans = headers pool.spans := by
    apply headers_congr
    simp [hspans, hspans']
  have hrec : pool'.records = pool.records := by
    simp only [NgxPool.records, hhead, hlarge, hcleanup]
  refine ⟨?_, ?_, by rw [hmax]; exact hold.max, hold.word, hactive⟩
  · have ar := hold.arena
    rw [hspans] at ar
    have hp : (⟨m, n⟩ :: (pool.records ++ os)).Perm (pool.records ++ ⟨m, n⟩ :: os) :=
      List.perm_middle.symm
    have := (ar.take hm hn hfin).perm hp
    rwa [hrec, hspans', NgxPool.bigs, hlarge]
  · intro t ht
    rw [hspans'] at ht
    have hends := hold.ends
    rw [hspans] at hends
    simp only [List.mem_append, List.mem_cons] at ht
    rcases ht with ht | rfl | ht
    · exact hends t (by simp [ht])
    · exact hends s (by simp)
    · exact hends t (by simp [ht])

end NgxPool.Holds

/-! ## Small pieces -/

/-- Where the loop finds room. -/
theorem pallocSmallLoop_eq_some {align : Bool} {bs bs' : List NgxPoolData} {m : Nat}
    (hbs : ∀ b ∈ bs, b.last ≤ b.end_ ∧ b.end_ % 8 = 0 ∧ b.end_ < 2 ^ 63)
    (h : pallocSmallLoop n align bs = some (m, bs')) :
    ∃ pre b post, bs = pre ++ b :: post ∧ bs' = pre ++ { b with last := m + n } :: post ∧
      b.last ≤ m ∧ m + n ≤ b.end_ ∧ (align = true → m % 8 = 0) := by
  induction bs generalizing bs' with
  | nil => simp [pallocSmallLoop] at h
  | cons b bs ih =>
      obtain ⟨h₁, h₂, h₃⟩ := hbs b List.mem_cons_self
      have hal := ngxAlignPtr_bounds (p := b.last) (by omega)
      -- the address stays below `end`, because `end` is a multiple of eight
      have hle : ∃ m₀, (if align then ngxAlignPtr b.last else b.last) = m₀ ∧ b.last ≤ m₀ ∧
          m₀ ≤ b.end_ ∧ (align = true → m₀ % 8 = 0) := by
        cases align with
        | true => exact ⟨_, rfl, hal.1, by simp only [if_true]; omega, fun _ => hal.2.2⟩
        | false => exact ⟨_, rfl, Nat.le_refl _, h₁, fun hf => nomatch hf⟩
      obtain ⟨m₀, he, hle₁, hle₂, h8⟩ := hle
      simp only [pallocSmallLoop, he] at h
      split at h
      · rename_i hroom
        simp only [Option.some.injEq, Prod.mk.injEq] at h
        obtain ⟨rfl, rfl⟩ := h
        rw [psub_eq hle₂ (by omega)] at hroom
        refine ⟨[], b, bs, rfl, ?_, hle₁, by omega, h8⟩
        rw [padd_eq (by omega)]
        rfl
      · obtain ⟨⟨m', bs''⟩, hrest, he⟩ := Option.map_eq_some_iff.mp h
        simp only [Prod.mk.injEq] at he
        obtain ⟨rfl, rfl⟩ := he
        obtain ⟨pre, c, post, rfl, rfl, hroom⟩ :=
          ih (fun b hb => hbs b (List.mem_cons_of_mem _ hb)) hrest
        exact ⟨b :: pre, c, post, rfl, rfl, hroom⟩

/-- The blocks of a list, each but the last failed once more. -/
def older : List NgxPoolData → List NgxPoolData
  | [] => []
  | [b] => [b]
  | b :: c :: bs => { b with failed := b.failed + 1 } :: older (c :: bs)

theorem length_older (bs : List NgxPoolData) : (older bs).length = bs.length := by
  fun_induction older bs with
  | case1 => rfl
  | case2 => rfl
  | case3 b c bs ih => simp [ih]

/-- Counting failures moves no block. -/
theorem span_pallocBlockLoop (passed seen bs : List NgxPoolData) :
    ((pallocBlockLoop passed seen bs).1 ++ (pallocBlockLoop passed seen bs).2).map
      NgxPoolData.span = (passed ++ seen ++ bs).map NgxPoolData.span := by
  fun_induction pallocBlockLoop passed seen bs with
  | case1 => simp
  | case2 => simp
  | case3 passed seen p next rest p' hf ih =>
      rw [ih]
      simp [p', NgxPoolData.span]
  | case4 passed seen p next rest p' hf ih =>
      rw [ih]
      simp [p', NgxPoolData.span]

theorem Aged.congr {bs bs' : List NgxPoolData}
    (h : bs'.map NgxPoolData.failed = bs.map NgxPoolData.failed) (ha : Aged bs) : Aged bs' := by
  induction bs generalizing bs' with
  | nil =>
      obtain rfl := List.map_eq_nil_iff.mp h
      trivial
  | cons b bs ih =>
      obtain ⟨b', bs'', rfl, hb, hbs⟩ := List.map_eq_cons_iff.mp h
      have hlen : bs''.length = bs.length := by simpa using congrArg List.length hbs
      refine ⟨?_, ih hbs ha.2⟩
      rw [hb, ha.1, hlen]

/-- Up to six blocks no counter is beyond four, and `current` stays. -/
theorem pallocBlockLoop_aged {passed seen bs : List NgxPoolData} (ha : Aged bs)
    (hlen : bs.length ≤ 6) : pallocBlockLoop passed seen bs = (passed, seen ++ older bs) := by
  fun_induction pallocBlockLoop passed seen bs with
  | case1 => simp [older]
  | case2 => simp [older]
  | case3 passed seen p next rest p' hf ih =>
      have := ha.1
      simp only [List.length_cons] at this hlen
      omega
  | case4 passed seen p next rest p' hf ih =>
      simp only [List.length_cons] at hlen
      rw [ih ha.2 (by simp only [List.length_cons]; omega)]
      simp [older, p']

theorem aged_older {bs : List NgxPoolData} {b : NgxPoolData} (ha : Aged bs) (hb : b.failed = 0) :
    Aged (older bs ++ [b]) := by
  fun_induction older bs with
  | case1 => exact ⟨by simpa using hb, trivial⟩
  | case2 c => exact ⟨by simpa using ha.1, by simpa using hb, trivial⟩
  | case3 c d cs ih =>
      have hc := ha.1
      simp only [List.length_cons] at hc
      have hlen : (older (d :: cs) ++ [b]).length = cs.length + 2 := by
        simp [length_older]
      refine ⟨show c.failed + 1 = (older (d :: cs) ++ [b]).length - 1 from ?_, ih ha.2⟩
      omega

/-- With a block more, at most seven are active: the eighth time, `current` moves on. -/
theorem short_pallocBlock {pool : NgxPool} {b : NgxPoolData} (hs : pool.Short) (hb : b.failed = 0)
    (hactive : pool.active ≠ []) :
    NgxPool.Short { pool with
      passed := (pallocBlockLoop pool.passed [] pool.active).1
      active := (pallocBlockLoop pool.passed [] pool.active).2 ++ [b] } := by
  obtain ⟨ha, hlen⟩ := hs
  by_cases h6 : pool.active.length ≤ 6
  · simp only [NgxPool.Short, pallocBlockLoop_aged ha h6, List.nil_append]
    refine ⟨aged_older ha hb, ?_⟩
    simp only [List.length_append, length_older, List.length_cons, List.length_nil]
    omega
  · -- seven blocks: the first has failed five times
    match hact : pool.active with
    | [] => exact absurd hact hactive
    | [p] => simp [hact] at h6
    | p :: next :: rest =>
        simp only [hact, List.length_cons] at h6 hlen
        rw [hact] at ha
        have hp := ha.1
        simp only [List.length_cons] at hp
        have hrest : (next :: rest).length ≤ 6 := by
          simp only [List.length_cons]
          omega
        simp only [NgxPool.Short, pallocBlockLoop, if_pos (show p.failed > 4 by omega),
          pallocBlockLoop_aged ha.2 hrest, List.nil_append]
        refine ⟨aged_older ha.2 hb, ?_⟩
        simp only [List.length_append, length_older, List.length_cons, List.length_nil] at hrest ⊢
        omega

/-- The pool after `ngx_palloc_block` has hung in the block at `new`, used up to `last`. -/
def NgxPool.hang (pool : NgxPool) (new last psize : Nat) : NgxPool :=
  { pool with
    passed := (pallocBlockLoop pool.passed [] pool.active).1
    active := (pallocBlockLoop pool.passed [] pool.active).2 ++ [⟨new, last, new + psize, 0⟩] }

theorem spans_hang (pool : NgxPool) (new last psize : Nat) :
    (pool.hang new last psize).spans = pool.spans ++ [⟨new, last, new + psize⟩] := by
  have hloop := span_pallocBlockLoop pool.passed [] pool.active
  simp only [List.append_nil] at hloop
  simp only [NgxPool.spans, NgxPool.chain, NgxPool.hang, ← List.append_assoc]
  rw [List.map_append, hloop]
  rfl

/-- A block more, with its header. -/
theorem NgxPool.Holds.hang {h' : Heap} {new : Nat} (hold : pool.Holds L psize ex h os)
    (hc : h.Calloc psize (some new) h') :
    (pool.hang new (new + sizeofPoolData) psize).Holds L psize ex h' os := by
  have hsize : sizeofPoolData ≤ psize := by
    have := hold.max
    simp only [sizeofPool, sizeofPoolData] at this ⊢
    omega
  have ar := hold.arena.addSpan hc (by simp [sizeofPoolData]) hsize
  refine ⟨?_, ?_, hold.max, hold.word, by simp [NgxPool.hang]⟩
  · rw [spans_hang]
    refine ar.perm (List.perm_iff_count.mpr fun r => ?_)
    have hrec : (pool.hang new (new + sizeofPoolData) psize).records =
        headers pool.spans ++ [⟨new, sizeofPoolData⟩] ++
          pool.large.map (fun l => ⟨l.addr, sizeofPoolLarge⟩) ++
          pool.cleanup.map (fun c => ⟨c.addr, sizeofPoolCleanup⟩) := by
      rw [NgxPool.records, spans_hang, headers_append hold.spans_ne_nil]
      rfl
    rw [hrec]
    simp only [NgxPool.records, List.count_append, List.count_cons, List.count_nil]
    omega
  · intro s hs
    rw [spans_hang] at hs
    rcases List.mem_append.mp hs with hs | hs
    · exact hold.ends s hs
    · obtain rfl := List.mem_singleton.mp hs
      rfl

/-- The specification of `ngx_palloc_block`. -/
theorem wp_ngxPallocBlock (hold : pool.Holds L psize ex w.heap os) (hn : 0 < n)
    (hfit : sizeofPoolData + n ≤ psize) :
    wp poolKernel Harmless (ngxPallocBlock pool n)
      (fun r w' => Grant L psize ex pool w os n r.1 r.2 w' ∧ Aligned r.1) w := by
  obtain ⟨-, -, hend, -, -, hlt⟩ := hold.block hold.d_mem
  have hpsize : psub pool.d.end_ pool.d.start = psize := by
    rw [psub_eq (by omega) (by omega)]
    omega
  rw [ngxPallocBlock, hpsize]
  refine wp_ask trivial fun x w' ⟨hc, he⟩ => ?_
  cases x with
  | none =>
      obtain rfl := refused_eq hc he
      exact ⟨.refused hold, fun _ hx => nomatch hx⟩
  | some new =>
      have hnew := w'.heap.fits _ _ hc.live_new
      have hm : ngxAlignPtr (padd new sizeofPoolData) = new + sizeofPoolData := by
        simp only [sizeofPoolData] at hfit ⊢
        rw [padd_eq (by omega), ngxAlignPtr_eq (by omega) (by omega)]
      have hpool : ({ pool with
          passed := (pallocBlockLoop pool.passed [] pool.active).1
          active := (pallocBlockLoop pool.passed [] pool.active).2 ++
            [⟨new, padd (new + sizeofPoolData) n, padd new psize, 0⟩] } : NgxPool) =
          pool.hang new (new + sizeofPoolData + n) psize := by
        rw [NgxPool.hang, padd_eq (by omega), padd_eq (by omega)]
      simp only [hm, hpool, Prog.pure_eq, wp_ret]
      constructor
      · have hb' := fun hb => (hold.arena.blank_addSpan hc (k := sizeofPoolData) (by omega) hb).take
          (m := new + sizeofPoolData) (n := n) (Nat.le_refl _) (by simp only; omega)
        refine ⟨?_, ⟨?_, ?_, ?_, he⟩, ?_, rfl⟩
        · exact (hold.hang hc).take (spans_hang ..) (Nat.le_refl _) hn (by simp only; omega)
            (spans_hang ..) rfl rfl rfl (by simp [NgxPool.hang])
        · exact fun o ho => (hold.covers ho).kept_calloc hc
        · intro hb
          rw [spans_hang]
          exact (hb' hb).1
        · exact fun hs => short_pallocBlock hs rfl hold.active
        · rintro hb m ⟨⟩
          exact (hb' hb).2
      · rintro a ⟨⟩
        simp only [sizeofPoolData]
        omega

/-- The specification of `ngx_palloc_small`. -/
theorem wp_ngxPallocSmall {align : Bool} (hold : pool.Holds L psize ex w.heap os) (hn : 0 < n)
    (hfit : sizeofPoolData + n ≤ psize) :
    wp poolKernel Harmless (ngxPallocSmall pool n align)
      (fun r w' => Grant L psize ex pool w os n r.1 r.2 w' ∧ (align = true → Aligned r.1)) w := by
  rw [ngxPallocSmall]
  cases hloop : pallocSmallLoop n align pool.active with
  | none => exact wp_mono (fun _ _ hg => ⟨hg.1, fun _ => hg.2⟩) (wp_ngxPallocBlock hold hn hfit)
  | some r =>
      obtain ⟨m, active⟩ := r
      have hbs : ∀ b ∈ pool.active, b.last ≤ b.end_ ∧ b.end_ % 8 = 0 ∧ b.end_ < 2 ^ 63 := by
        intro b hb
        obtain ⟨-, h₂, -, -, h₅, h₆⟩ := hold.block (List.mem_append_right _ hb)
        exact ⟨h₂, h₅, h₆⟩
      obtain ⟨pre, b, post, hact, rfl, hm, hroom, h8⟩ := pallocSmallLoop_eq_some hbs hloop
      have hspans : pool.spans = (pool.passed ++ pre).map NgxPoolData.span ++
          b.span :: post.map NgxPoolData.span := by
        simp [NgxPool.spans, NgxPool.chain, hact]
      have hspans' : NgxPool.spans { pool with active := pre ++ { b with last := m + n } :: post } =
          (pool.passed ++ pre).map NgxPoolData.span ++
            { b.span with last := m + n } :: post.map NgxPoolData.span := by
        simp [NgxPool.spans, NgxPool.chain, NgxPoolData.span]
      constructor
      · refine ⟨?_, ⟨fun _ _ => rfl, ?_, ?_, rfl⟩, ?_, rfl⟩
        · exact hold.take hspans hm hn hroom hspans' rfl rfl rfl (by simp)
        · intro hb
          rw [hspans] at hb
          rw [hspans']
          exact (hb.take hm hroom).1
        · rintro ⟨ha, hlen⟩
          rw [hact] at ha hlen
          exact ⟨ha.congr (by simp), by simpa using hlen⟩
        · rintro hb _ ⟨⟩
          rw [hspans] at hb
          exact (hb.take hm hroom).2
      · rintro ha _ ⟨⟩
        exact h8 ha

/-! ## Large pieces -/

/-- What was done before the request counts as part of it. -/
theorem Grant.after {w₀ : World} {x : Ptr} (hg : Grant L psize ex pool w os n x pool' w')
    (hk : Keeps pool w₀ os pool w) : Grant L psize ex pool w₀ os n x pool' w' where
  holds := hg.holds
  keeps := hk.trans hg.keeps (fun _ ho => ho)
  zero hb := hg.zero (hk.blank hb)
  cleanup := hg.cleanup

namespace NgxPool.Holds
variable {a : Nat}

/-- A large piece, not recorded yet. -/
theorem adopt {h' : Heap} (hold : pool.Holds L psize ex h os) (hc : h.Calloc n (some a) h')
    (hn : 0 < n) : pool.Holds L psize (a :: ex) h' (⟨a, n⟩ :: os) where
  arena := (hold.arena.addBig hc hn).perm List.perm_middle.symm
  ends := hold.ends
  max := hold.max
  word := hold.word
  active := hold.active

/-- A large piece given back. -/
theorem drop {h' : Heap} (hold : pool.Holds L psize (a :: ex) h (⟨a, n⟩ :: os))
    (hf : h.Free (some a) h') : pool.Holds L psize ex h' os where
  arena := (hold.arena.perm List.perm_middle).dropBig hf
  ends := hold.ends
  max := hold.max
  word := hold.word
  active := hold.active

theorem kept_drop {h' : Heap} (hold : pool.Holds L psize (a :: ex) h (⟨a, n⟩ :: os))
    (hf : h.Free (some a) h') {o : Region} (ho : o ∈ os) : cells h'.mem o = cells h.mem o :=
  (hold.arena.perm List.perm_middle).kept_free hf (List.mem_append_right _ ho)

/-- A piece that is not recorded yet may be freed. -/
theorem live (hold : pool.Holds L psize (a :: ex) h os) : (h.live a).isSome = true :=
  hold.arena.owns.own a (by simp)

/-- A record, in the memory cut off for it. -/
theorem link {r : Nat} (hold : pool.Holds L psize (a :: ex) h (⟨r, sizeofPoolLarge⟩ :: os)) :
    NgxPool.Holds { pool with large := ⟨r, some a⟩ :: pool.large } L psize ex h os where
  arena := by
    refine (hold.arena.bigs_perm List.perm_middle.symm).perm
      (List.perm_iff_count.mpr fun o => ?_)
    have hspans : NgxPool.spans { pool with large := ⟨r, some a⟩ :: pool.large } = pool.spans :=
      rfl
    simp only [NgxPool.records, hspans, List.map_cons, List.count_append, List.count_cons]
    omega
  ends := hold.ends
  max := hold.max
  word := hold.word
  active := hold.active

/-- Records whose pieces change, but that stay where they are. -/
theorem rebig {ex' : List Nat} {large : List NgxPoolLarge} (hold : pool.Holds L psize ex h os)
    (haddr : large.map NgxPoolLarge.addr = pool.large.map NgxPoolLarge.addr)
    (hbigs : (ex ++ pool.bigs).Perm (ex' ++ large.filterMap NgxPoolLarge.alloc)) :
    NgxPool.Holds { pool with large := large } L psize ex' h os where
  arena := by
    have hrec : NgxPool.records { pool with large := large } = pool.records := by
      have hmap : ∀ ls : List NgxPoolLarge,
          ls.map (fun l => (⟨l.addr, sizeofPoolLarge⟩ : Region)) =
            (ls.map NgxPoolLarge.addr).map (fun a => ⟨a, sizeofPoolLarge⟩) := by
        intro ls
        rw [List.map_map]
        rfl
      simp only [NgxPool.records, hmap, haddr]
      rfl
    rw [hrec]
    exact hold.arena.bigs_perm hbigs
  ends := hold.ends
  max := hold.max
  word := hold.word
  active := hold.active

end NgxPool.Holds

/-- Which record the loop of `ngx_palloc_large` fills. -/
theorem pallocLargeLoop_eq_some {p k : Nat} {ls ls' : List NgxPoolLarge}
    (h : pallocLargeLoop p k ls = some ls') :
    ∃ pre l post, ls = pre ++ l :: post ∧ l.alloc = none ∧
      ls' = pre ++ { l with alloc := some p } :: post := by
  induction ls generalizing k ls' with
  | nil => simp [pallocLargeLoop] at h
  | cons l ls ih =>
      simp only [pallocLargeLoop] at h
      split at h
      · rename_i hnone
        exact ⟨[], l, ls, rfl, hnone, (Option.some.inj h).symm⟩
      · split at h
        · cases h
        · obtain ⟨ls'', hrest, rfl⟩ := Option.map_eq_some_iff.mp h
          obtain ⟨pre, c, post, rfl, hnone, rfl⟩ := ih hrest
          exact ⟨l :: pre, c, post, rfl, hnone, rfl⟩

theorem wp_linkLarge {a : Nat} (hold : pool.Holds L psize (a :: ex) w.heap (⟨a, n⟩ :: os))
    (hzero : cells w.mem ⟨a, n⟩ = .replicate n 0) :
    wp poolKernel Harmless (linkLarge pool a)
      (fun r w' => Grant L psize ex pool w os n r.1 r.2 w' ∧ ∀ m, r.1 = some m → m = a) w := by
  have hfit : sizeofPoolData + sizeofPoolLarge ≤ psize := by
    have := hold.max
    simp only [sizeofPool, sizeofPoolData, sizeofPoolLarge] at this ⊢
    omega
  rw [linkLarge]
  refine wp_seq (wp_ngxPallocSmall hold (by simp [sizeofPoolLarge]) hfit) fun r w₁ ⟨hg, _⟩ => ?_
  obtain ⟨x, pool₁⟩ := r
  cases x with
  | none =>
      refine wp_ask hg.holds.live fun _ w₂ ⟨hf, he⟩ => ?_
      have hk₂ : Keeps pool₁ w₁ os pool₁ w₂ :=
        ⟨fun o ho => hg.holds.kept_drop hf ho, hg.holds.arena.blank_free hf, id, he⟩
      refine ⟨⟨hg.holds.drop hf, ?_, (fun _ _ hx => nomatch hx), hg.cleanup⟩,
        fun _ hx => nomatch hx⟩
      exact (hg.keeps.sub (List.subset_cons_self _ _)).trans hk₂ (fun _ ho => ho)
  | some r =>
      refine ⟨⟨hg.holds.link, ?_, ?_, hg.cleanup⟩, ?_⟩
      · exact (hg.keeps.sub (List.subset_cons_self _ _)).blocks rfl rfl
      · rintro hb _ ⟨⟩
        exact (hg.keeps.kept _ List.mem_cons_self).trans hzero
      · rintro _ ⟨⟩
        rfl

/-- What `calloc` answers an allocation with, up to the moment it is recorded. -/
theorem wp_callocLarge {f : Ptr → Pool (Ptr × NgxPool)} (hold : pool.Holds L psize ex w.heap os)
    (hn : 0 < n) (hnone : f none = Prog.ret (none, pool))
    (hsome : ∀ a w₁, pool.Holds L psize (a :: ex) w₁.heap (⟨a, n⟩ :: os) →
      cells w₁.mem ⟨a, n⟩ = .replicate n 0 →
      wp poolKernel Harmless (f (some a))
        (fun r w' => Grant L psize ex pool w₁ os n r.1 r.2 w' ∧ ∀ m, r.1 = some m → m = a) w₁) :
    wp poolKernel Harmless (sys (.calloc n) >>= f)
      (fun r w' => Grant L psize ex pool w os n r.1 r.2 w' ∧ Aligned r.1) w := by
  refine wp_ask trivial fun x w₁ ⟨hc, he⟩ => ?_
  cases x with
  | none =>
      obtain rfl := refused_eq hc he
      rw [hnone]
      exact ⟨.refused hold, fun _ hx => nomatch hx⟩
  | some a =>
      have h16 := (w₁.heap.fits _ _ hc.live_new).2.1
      refine wp_mono ?_ (hsome a w₁ (hold.adopt hc hn) hc.zero)
      rintro r w' ⟨hg, heq⟩
      constructor
      · exact hg.after ⟨fun o ho => (hold.covers ho).kept_calloc hc, hold.arena.blank_calloc hc, id,
          he⟩
      · intro m hm
        rw [heq m hm]
        omega

/-- The specification of `ngx_palloc_large`. -/
theorem wp_ngxPallocLarge (hold : pool.Holds L psize ex w.heap os) (hn : 0 < n) :
    wp poolKernel Harmless (ngxPallocLarge pool n)
      (fun r w' => Grant L psize ex pool w os n r.1 r.2 w' ∧ Aligned r.1) w := by
  refine wp_callocLarge hold hn rfl fun a w₁ hold₁ hzero => ?_
  cases hloop : pallocLargeLoop a 0 pool.large with
  | none =>
      simp only [hloop]
      exact wp_linkLarge hold₁ hzero
  | some large =>
      obtain ⟨pre, l, post, hlarge, hnone, rfl⟩ := pallocLargeLoop_eq_some hloop
      simp only [hloop, Prog.pure_eq, wp_ret]
      refine ⟨⟨?_, (Keeps.refl ..).blocks rfl rfl, ?_, rfl⟩, ?_⟩
      · refine hold₁.rebig (by simp [hlarge]) ?_
        simp only [NgxPool.bigs, hlarge, List.filterMap_append, List.filterMap_cons, hnone,
          List.cons_append]
        exact List.perm_iff_count.mpr fun b => by
          simp only [List.count_append, List.count_cons]
          omega
      · rintro _ _ ⟨⟩
        exact hzero
      · rintro _ ⟨⟩
        rfl

/-- The specification of `ngx_pmemalign`. -/
theorem wp_ngxPmemalign (alignment : Nat) (hold : pool.Holds L psize ex w.heap os) (hn : 0 < n) :
    wp poolKernel Harmless (ngxPmemalign pool n alignment)
      (fun r w' => Grant L psize ex pool w os n r.1 r.2 w' ∧ Aligned r.1) w :=
  wp_callocLarge hold hn rfl fun _ _ hold₁ hzero => wp_linkLarge hold₁ hzero

/-! ## The pieces a user asks for -/

theorem NgxPool.Holds.fits_small (hold : pool.Holds L psize ex h os) (hn : n ≤ pool.max) :
    sizeofPoolData + n ≤ psize := by
  have := hold.max
  simp only [sizeofPool, sizeofPoolData] at this ⊢
  omega

/-- The specification of `ngx_palloc`. -/
theorem wp_ngxPalloc (hold : pool.Holds L psize ex w.heap os) (hn : 0 < n) :
    wp poolKernel Harmless (ngxPalloc pool n)
      (fun r w' => Grant L psize ex pool w os n r.1 r.2 w' ∧ Aligned r.1) w := by
  rw [ngxPalloc]
  split
  · rename_i hmax
    exact wp_mono (fun _ _ hg => ⟨hg.1, hg.2 rfl⟩)
      (wp_ngxPallocSmall hold hn (hold.fits_small hmax))
  · exact wp_ngxPallocLarge hold hn

/-- The specification of `ngx_pnalloc`. -/
theorem wp_ngxPnalloc (hold : pool.Holds L psize ex w.heap os) (hn : 0 < n) :
    wp poolKernel Harmless (ngxPnalloc pool n)
      (fun r w' => Grant L psize ex pool w os n r.1 r.2 w') w := by
  rw [ngxPnalloc]
  split
  · rename_i hmax
    exact wp_mono (fun _ _ hg => hg.1) (wp_ngxPallocSmall hold hn (hold.fits_small hmax))
  · exact wp_mono (fun _ _ hg => hg.1) (wp_ngxPallocLarge hold hn)

/-- What a store into an object leaves. -/
theorem NgxPool.Holds.put {o : Region} {a : Nat} {bs : List Byte}
    (hold : pool.Holds L psize ex w.heap (o :: os)) (hs : w.heap.Stored a bs w'.heap)
    (he : w'.effects = w.effects) (hin : Region.Within ⟨a, bs.length⟩ o) :
    pool.Holds L psize ex w'.heap (o :: os) ∧ Keeps pool w os pool w' := by
  have ar := hold.arena.perm List.perm_middle
  refine ⟨hold.congr hs.live, ?_, ar.blank_put hin hs, id, he⟩
  exact fun r hr => ar.kept_put hin hs (List.mem_append_right _ hr)

/-- The specification of `ngx_pcalloc`. -/
theorem wp_ngxPcalloc (hold : pool.Holds L psize ex w.heap os) (hn : 0 < n) :
    wp poolKernel Harmless (ngxPcalloc pool n)
      (fun r w' => Grant L psize ex pool w os n r.1 r.2 w' ∧ Aligned r.1 ∧
        ∀ m, r.1 = some m → cells w'.mem ⟨m, n⟩ = .replicate n 0) w := by
  rw [ngxPcalloc]
  refine wp_seq (wp_ngxPalloc hold hn) fun r w₁ ⟨hg, hal⟩ => ?_
  obtain ⟨x, pool₁⟩ := r
  cases x with
  | none => exact ⟨hg, hal, fun _ hx => nomatch hx⟩
  | some a =>
      have hin : Region.Within ⟨a, (List.replicate n (0 : Byte)).length⟩ ⟨a, n⟩ := by
        rw [List.length_replicate]
        exact .refl _
      have hcov := hg.holds.covers (o := ⟨a, n⟩) List.mem_cons_self
      refine wp_ask (hcov.within hin) fun _ w₂ ⟨hs, he⟩ => ?_
      obtain ⟨hold₂, hk₂⟩ := hg.holds.put hs he hin
      have hz : cells w₂.mem ⟨a, n⟩ = .replicate n 0 := by
        have hfit := hcov.fits
        simp only [Region.fin_mk] at hfit
        have hput : cells (put w₁.mem a (.replicate n 0)) ⟨a, (List.replicate n (0 : Byte)).length⟩ =
            .replicate n 0 := cells_put (by simp; omega)
        rw [World.mem, hs.mem]
        simpa using hput
      refine ⟨⟨hold₂, hg.keeps.trans hk₂ (fun _ ho => ho), ?_, hg.cleanup⟩, hal, ?_⟩
      · rintro _ _ ⟨⟩
        exact hz
      · rintro _ ⟨⟩
        exact hz

/-- Asked for nothing, the pool gives an address, and at most aligns a block. -/
theorem wp_ngxPcalloc_zero (hold : pool.Holds L psize ex w.heap os) :
    wp poolKernel Harmless (ngxPcalloc pool 0)
      (fun r w' => (∃ m, r.1 = some m) ∧ r.2.Holds L psize ex w'.heap os ∧
        Keeps pool w os r.2 w') w := by
  cases hact : pool.active with
  | nil => exact absurd hact hold.active
  | cons b bs =>
      have hb : b ∈ pool.chain := by simp [NgxPool.chain, hact]
      obtain ⟨hstart, hlast, -, -, hword, hlt⟩ := hold.block hb
      obtain ⟨m, hm, hle, hend⟩ : ∃ m, ngxAlignPtr b.last = m ∧ b.last ≤ m ∧ m ≤ b.end_ := by
        have hal := ngxAlignPtr_bounds (p := b.last) (by omega)
        exact ⟨_, rfl, hal.1, by omega⟩
      have hspans : pool.spans = pool.passed.map NgxPoolData.span ++
          b.span :: bs.map NgxPoolData.span := by
        simp [NgxPool.spans, NgxPool.chain, hact]
      have hspans' : NgxPool.spans { pool with active := { b with last := m } :: bs } =
          pool.passed.map NgxPoolData.span ++
            { b.span with last := m } :: bs.map NgxPoolData.span := by
        simp [NgxPool.spans, NgxPool.chain, NgxPoolData.span]
      have hask : ngxPalloc pool 0 =
          Prog.ret (some m, { pool with active := { b with last := m } :: bs }) := by
        rw [ngxPalloc, if_pos (Nat.zero_le _), ngxPallocSmall, hact]
        simp only [pallocSmallLoop, if_true, hm, if_pos (Nat.zero_le _)]
        rw [padd_eq (by omega)]
        rfl
      have hold' : NgxPool.Holds { pool with active := { b with last := m } :: bs } L psize ex
          w.heap os := by
        rcases Nat.eq_or_lt_of_le hle with heq | hskip
        · subst heq
          rw [← hact]
          exact hold
        · -- the bytes skipped are an object nobody has
          have htake : NgxPool.Holds { pool with active := { b with last := m } :: bs } L psize ex
              w.heap (⟨b.last, m - b.last⟩ :: os) := by
            refine hold.take hspans (Nat.le_refl b.last) (by omega) ?_ ?_ rfl rfl rfl (by simp)
            · simp only [NgxPoolData.span]
              omega
            · rw [hspans', Nat.add_sub_cancel' hle]
          exact htake.sub (List.sublist_cons_self _ _)
      have hcov : w.heap.Covers ⟨m, 0⟩ := by
        have hs : b.span ∈ pool.spans := List.mem_map_of_mem hb
        refine hold.arena.span_covers hs ⟨?_, ?_⟩
        · simp only [NgxPoolData.span]
          omega
        · simp only [Region.fin_mk, NgxPoolData.span]
          omega
      rw [ngxPcalloc, hask, Prog.ret_bind]
      refine wp_ask hcov ?_
      intro _ w₁ hw
      have hmem : w₁.mem = w.mem := by
        rw [World.mem, hw.1.mem, List.replicate_zero, put, store_nil]
      refine ⟨⟨m, rfl⟩, hold'.congr hw.1.live, fun _ _ => by rw [hmem], ?_, ?_, hw.2⟩
      · intro hblank
        rw [hspans] at hblank
        rw [hspans', hmem]
        exact (hblank.take hle (n := 0) hend).1
      · intro hs
        refine ⟨hs.1.congr ?_, ?_⟩
        · simp [hact]
        · simpa [hact] using hs.2

/-! ## Giving back -/

/-- Which record `ngx_pfree` empties. -/
theorem pfreeLoop_eq_some {p : Ptr} {ls ls' : List NgxPoolLarge} (h : pfreeLoop p ls = some ls') :
    ∃ pre l post, ls = pre ++ l :: post ∧ l.alloc = p ∧
      ls' = pre ++ { l with alloc := none } :: post := by
  induction ls generalizing ls' with
  | nil => simp [pfreeLoop] at h
  | cons l ls ih =>
      simp only [pfreeLoop] at h
      split at h
      · rename_i he
        exact ⟨[], l, ls, rfl, he.symm, (Option.some.inj h).symm⟩
      · obtain ⟨ls'', hrest, rfl⟩ := Option.map_eq_some_iff.mp h
        obtain ⟨pre, c, post, rfl, he, rfl⟩ := ih hrest
        exact ⟨l :: pre, c, post, rfl, he, rfl⟩

/-- The specification of `ngx_pfree`, for an object. -/
theorem wp_ngxPfree {a : Nat} (hold : pool.Holds L psize ex w.heap (⟨a, n⟩ :: os)) :
    wp poolKernel Harmless (ngxPfree pool (some a))
      (fun r w' => r.2.cleanup = pool.cleanup ∧
        (r.1 = NGX_OK ∧ r.2.Holds L psize ex w'.heap os ∧ Keeps pool w os r.2 w' ∨
          r.1 = NGX_DECLINED ∧ r.2 = pool ∧ w' = w)) w := by
  rw [ngxPfree]
  cases hloop : pfreeLoop (some a) pool.large with
  | none => exact ⟨rfl, .inr ⟨rfl, rfl, rfl⟩⟩
  | some large =>
      obtain ⟨pre, l, post, hlarge, halloc, rfl⟩ := pfreeLoop_eq_some hloop
      have hold₁ : NgxPool.Holds { pool with large := pre ++ { l with alloc := none } :: post }
          L psize (a :: ex) w.heap (⟨a, n⟩ :: os) := by
        refine hold.rebig (by simp [hlarge]) ?_
        simp only [NgxPool.bigs, hlarge, List.filterMap_append, List.filterMap_cons, halloc,
          List.cons_append]
        exact List.perm_iff_count.mpr fun b => by
          simp only [List.count_append, List.count_cons]
          omega
      refine wp_ask hold₁.live fun _ w₁ ⟨hf, he⟩ => ⟨rfl, .inl ⟨rfl, hold₁.drop hf, ?_⟩⟩
      exact ⟨fun o ho => hold₁.kept_drop hf ho, hold₁.arena.blank_free hf, id, he⟩

/-! ## Cleanup records -/

/-- The record `ngx_pool_cleanup_add` makes, with room for `n` bytes of data. -/
structure Registered (L : Nat → Option Nat) (psize : Nat) (ex : List Nat) (pool : NgxPool)
    (w : World) (os : List Region) (n : Nat) (x : Ptr) (pool' : NgxPool) (w' : World) :
    Prop where
  refused : x = none → pool'.Holds L psize ex w'.heap os ∧ pool'.cleanup = pool.cleanup
  made : ∀ c, x = some c → ∃ data : Ptr, (data.isSome = true ↔ 0 < n) ∧
    pool'.cleanup = ⟨c, none, data⟩ :: pool.cleanup ∧
    pool'.Holds L psize ex w'.heap (handed data n ++ os)
  keeps : Keeps pool w os pool' w'

/-- Memory cut off for a cleanup record becomes the first of them. -/
theorem NgxPool.Holds.record {c : Nat} {data : Ptr}
    (hold : pool.Holds L psize ex h (⟨c, sizeofPoolCleanup⟩ :: os)) :
    NgxPool.Holds { pool with cleanup := ⟨c, none, data⟩ :: pool.cleanup } L psize ex h os where
  arena := by
    refine hold.arena.perm (List.perm_iff_count.mpr fun o => ?_)
    have hspans : NgxPool.spans { pool with cleanup := ⟨c, none, data⟩ :: pool.cleanup } =
      pool.spans := rfl
    simp only [NgxPool.records, hspans, List.map_cons, List.count_append, List.count_cons]
    omega
  ends := hold.ends
  max := hold.max
  word := hold.word
  active := hold.active

/-- The specification of `ngx_pool_cleanup_add`. -/
theorem wp_ngxPoolCleanupAdd (hold : pool.Holds L psize ex w.heap os) :
    wp poolKernel Harmless (ngxPoolCleanupAdd pool n)
      (fun r w' => Registered L psize ex pool w os n r.1 r.2 w') w := by
  rw [ngxPoolCleanupAdd]
  refine wp_seq (wp_ngxPalloc hold (by simp [sizeofPoolCleanup])) ?_
  rintro r w₁ ⟨hg, _⟩
  obtain ⟨x, pool₁⟩ := r
  cases x with
  | none =>
      exact ⟨fun _ => ⟨hg.holds, hg.cleanup⟩,
        fun _ hx => absurd hx.symm (Option.some_ne_none _), hg.keeps⟩
  | some c =>
      by_cases hn : n = 0
      · simp only [hn, ne_eq, not_true, if_false, Prog.pure_eq, wp_ret]
        refine ⟨fun hx => absurd hx (Option.some_ne_none c), ?_, hg.keeps.blocks rfl rfl⟩
        rintro _ ⟨⟩
        refine ⟨none, by simp, ?_, hg.holds.record⟩
        rw [hg.cleanup]
      · simp only [ne_eq, hn, not_false_eq_true, if_true]
        refine wp_seq (wp_ngxPalloc hg.holds (by omega)) ?_
        rintro r w₂ ⟨hg₂, _⟩
        obtain ⟨y, pool₂⟩ := r
        have hk := hg.keeps.trans hg₂.keeps (List.subset_cons_self _ _)
        have hcl := hg₂.cleanup.trans hg.cleanup
        cases y with
        | none =>
            -- the memory of the record is lost, but for the end of the pool
            exact ⟨fun _ => ⟨hg₂.holds.sub (List.sublist_cons_self _ _), hcl⟩,
              fun _ hx => absurd hx.symm (Option.some_ne_none _), hk⟩
        | some data =>
            refine ⟨fun hx => absurd hx (Option.some_ne_none c), ?_, hk.blocks rfl rfl⟩
            rintro _ ⟨⟩
            refine ⟨some data, by simp; omega, ?_, ?_⟩
            · rw [← hcl]
            · exact (hg₂.holds.perm (List.Perm.swap ..)).record

end

end TestDbug
