/-
# `TestDbug.Lib.Arena` — objects carved out of a heap

A heap is a memory with the table of what is allocated in it: `live a = some n`
when a region of `n` bytes starts at `a`.  Any two live regions are apart, and
that is part of the type, so an allocation need not say that it is fresh.

An arena lives on such a heap.  It owns some spans, each with a used part in
front and a free part behind, and some big regions, each of which is one
object.  `Arena L spans bigs h os` says that this is all it owns on top of `L`,
and that the objects `os` lie inside, apart from each other.  The rules:

    take      an object behind the used part of a span
    rewind    the last object of a span given back
    addSpan   one more span, with its first object
    addBig    one more big object
    dropBig   a big object freed
    sub       objects forgotten

What an object holds survives all of them (`Covers.kept_calloc`,
`Arena.kept_free`, `Arena.kept_put`), and as long as no part of a span is used
twice, a new object is zero (`Blank`).
-/
import TestDbug.Lib.ByteMemory
import Mathlib.Logic.Function.Basic
import Mathlib.Data.List.Perm.Basic
import Mathlib.Data.List.Nodup

open ByteMemory

/-! ## Regions -/

/-- A run of addresses. -/
structure Region where
  start : Nat
  size : Nat
deriving DecidableEq

namespace Region

/-- The address behind it. -/
def fin (r : Region) : Nat := r.start + r.size

def Within (r s : Region) : Prop := s.start ≤ r.start ∧ r.fin ≤ s.fin

def Apart (r s : Region) : Prop := r.fin ≤ s.start ∨ s.fin ≤ r.start

@[simp] theorem fin_mk (a n : Nat) : (⟨a, n⟩ : Region).fin = a + n := rfl

theorem Apart.symm {r s : Region} (h : r.Apart s) : s.Apart r := Or.symm h

theorem Within.refl (r : Region) : r.Within r := ⟨Nat.le_refl _, Nat.le_refl _⟩

theorem Within.trans {r s t : Region} (h : r.Within s) (h' : s.Within t) : r.Within t :=
  ⟨Nat.le_trans h'.1 h.1, Nat.le_trans h.2 h'.2⟩

/-- What lies within two regions that are apart is apart. -/
theorem Apart.within {r s r' s' : Region} (h : r.Apart s) (hr : r'.Within r) (hs : s'.Within s) :
    r'.Apart s' :=
  h.imp (fun h => Nat.le_trans hr.2 (Nat.le_trans h hs.1))
    (fun h => Nat.le_trans hs.2 (Nat.le_trans h hr.1))

end Region

/-- The cells of a region. -/
def cells (m : Mem 64 Byte) (r : Region) : List Byte := load m (BitVec.ofNat 64 r.start) r.size

/-- Put the cells `bs` from the address `a` on. -/
def put (m : Mem 64 Byte) (a : Nat) (bs : List Byte) : Mem 64 Byte :=
  store m (BitVec.ofNat 64 a) bs

section
variable {m : Mem 64 Byte} {a : Nat} {bs : List Byte}

@[simp] theorem length_cells (r : Region) : (cells m r).length = r.size := by simp [cells]

theorem cells_add (a i j : Nat) :
    cells m ⟨a, i + j⟩ = cells m ⟨a, i⟩ ++ cells m ⟨a + i, j⟩ := by
  simp only [cells, load_add, BitVec.ofNat_add]

theorem cells_put (h : bs.length ≤ 2 ^ 64) : cells (put m a bs) ⟨a, bs.length⟩ = bs :=
  load_store m _ bs h

/-- What is put apart from a region does not show in it. -/
theorem cells_put_apart {r : Region} (h : r.Apart ⟨a, bs.length⟩) (hr : r.fin ≤ 2 ^ 64)
    (ha : a + bs.length ≤ 2 ^ 64) : cells (put m a bs) r = cells m r := by
  apply List.ext_getElem?
  intro i
  simp only [cells, getElem?_load]
  split
  · rename_i hi
    obtain ⟨start, size⟩ := r
    simp only [Region.Apart, Region.fin] at h hr hi
    -- no cell of the region is met, not even by coming round the address space
    have hoff : bs.length ≤
        (BitVec.ofNat 64 start + BitVec.ofNat 64 i - BitVec.ofNat 64 a).toNat := by
      simp only [BitVec.toNat_sub, BitVec.toNat_add, BitVec.toNat_ofNat]
      omega
    rw [put, store_frame m _ bs hoff]
  · rfl

/-- A part of a region overwritten. -/
theorem cells_put_within {i k : Nat} (hk : i + bs.length + k + a ≤ 2 ^ 64) :
    cells (put m (a + i) bs) ⟨a, i + bs.length + k⟩ =
      cells m ⟨a, i⟩ ++ bs ++ cells m ⟨a + (i + bs.length), k⟩ := by
  rw [cells_add, cells_add, cells_put (by omega)]
  rw [cells_put_apart (r := ⟨a, i⟩) (.inl (by simp)) (by simp; omega) (by omega)]
  rw [cells_put_apart (r := ⟨a + (i + bs.length), k⟩) (.inr (by simp; omega)) (by simp; omega)
    (by omega)]

/-- A part of a region. -/
theorem cells_part (a i j k : Nat) :
    cells m ⟨a + i, k⟩ = ((cells m ⟨a, i + k + j⟩).drop i).take k := by
  rw [cells_add, cells_add, List.append_assoc, List.drop_left' (by simp),
    List.take_left' (by simp)]

/-- Memories that agree on a region agree on its parts. -/
theorem cells_eq_within {m' : Mem 64 Byte} {r s : Region} (hs : s.Within r)
    (h : cells m' r = cells m r) : cells m' s = cells m s := by
  obtain ⟨a, n⟩ := r
  obtain ⟨b, k⟩ := s
  obtain ⟨h₁, h₂⟩ := hs
  simp only [Region.fin] at h₁ h₂
  obtain ⟨i, rfl⟩ := Nat.exists_eq_add_of_le h₁
  obtain ⟨j, rfl⟩ := Nat.exists_eq_add_of_le (show i + k ≤ n by omega)
  rw [cells_part a i j k, cells_part a i j k, h]

/-- A part of a zero region is zero. -/
theorem cells_zero_part {r s : Region} (hs : s.Within r) (h : cells m r = .replicate r.size 0) :
    cells m s = .replicate s.size 0 := by
  obtain ⟨a, n⟩ := r
  obtain ⟨b, k⟩ := s
  obtain ⟨h₁, h₂⟩ := hs
  simp only [Region.fin] at h₁ h₂
  obtain ⟨i, rfl⟩ := Nat.exists_eq_add_of_le h₁
  obtain ⟨j, rfl⟩ := Nat.exists_eq_add_of_le (show i + k ≤ n by omega)
  rw [cells_part a i j k, h, List.drop_replicate, List.take_replicate]
  congr 1
  simp only
  omega

end

/-- A list with the elements from `f.1` on replaced by those of `f.2`. -/
def overwrite {α : Type} (xs : List α) (f : Nat × List α) : List α :=
  xs.take f.1 ++ f.2 ++ xs.drop (f.1 + f.2.length)

theorem length_overwrite {α : Type} {xs : List α} {f : Nat × List α}
    (h : f.1 + f.2.length ≤ xs.length) : (overwrite xs f).length = xs.length := by
  simp only [overwrite, List.length_append, List.length_take, List.length_drop]
  omega

/-- What is put into a part of a region. -/
theorem cells_put_part {m : Mem 64 Byte} {a n off : Nat} {bs : List Byte}
    (hle : off + bs.length ≤ n) (hfit : a + n ≤ 2 ^ 64) :
    cells (put m (a + off) bs) ⟨a, n⟩ = overwrite (cells m ⟨a, n⟩) (off, bs) := by
  obtain ⟨k, rfl⟩ := Nat.exists_eq_add_of_le hle
  have hfront : cells m ⟨a, off⟩ = (cells m ⟨a, off + bs.length + k⟩).take off := by
    rw [Nat.add_assoc, cells_add, List.take_left' (by simp)]
  have hback : cells m ⟨a + (off + bs.length), k⟩ =
      (cells m ⟨a, off + bs.length + k⟩).drop (off + bs.length) := by
    rw [cells_add, List.drop_left' (by simp)]
  rw [cells_put_within (by omega), hfront, hback]
  rfl

/-- Regions with the same contents have the same contents part by part. -/
theorem cells_part_congr {m m' : Mem 64 Byte} {a b n i k : Nat} (hik : i + k ≤ n)
    (h : cells m' ⟨b, n⟩ = cells m ⟨a, n⟩) : cells m' ⟨b + i, k⟩ = cells m ⟨a + i, k⟩ := by
  obtain ⟨j, rfl⟩ := Nat.exists_eq_add_of_le hik
  rw [cells_part b i j k, cells_part a i j k, h]

/-! ## Heaps -/

/-- A memory and what is allocated in it.  A region starts on a multiple of 16
and lies in the lower half of the address space, as user memory does. -/
structure Heap where
  live : Nat → Option Nat
  mem : Mem 64 Byte
  fits : ∀ a n, live a = some n → 0 < a ∧ a % 16 = 0 ∧ a + n < 2 ^ 63
  apart : ∀ a b m n, live a = some m → live b = some n → a ≠ b → Region.Apart ⟨a, m⟩ ⟨b, n⟩

namespace Heap

/-- `calloc`: nothing, or a new region of zeros. -/
inductive Calloc (h : Heap) (n : Nat) : Option Nat → Heap → Prop
  | fails : Calloc h n none h
  | gives {a : Nat} {h' : Heap} : h.live a = none →
      h'.live = Function.update h.live a (some n) → h'.mem = put h.mem a (.replicate n 0) →
      Calloc h n (some a) h'

/-- `free`: nothing for the null pointer; what a freed region holds is lost. -/
inductive Free (h : Heap) : Option Nat → Heap → Prop
  | null : Free h none h
  | frees {a : Nat} {bs : List Byte} {h' : Heap} : h.live a = some bs.length →
      h'.live = Function.update h.live a none → h'.mem = put h.mem a bs → Free h (some a) h'

/-- A store into memory that is allocated. -/
structure Stored (h : Heap) (a : Nat) (bs : List Byte) (h' : Heap) : Prop where
  live : h'.live = h.live
  mem : h'.mem = put h.mem a bs

/-- The region lies in one that is allocated. -/
def Covers (h : Heap) (r : Region) : Prop := ∃ a n, h.live a = some n ∧ r.Within ⟨a, n⟩

/-- Nothing allocated. -/
def empty (m : Mem 64 Byte) : Heap where
  live _ := none
  mem := m
  fits _ _ h := nomatch h
  apart _ _ _ _ h := nomatch h

/-- One region allocated. -/
def one (a n : Nat) (m : Mem 64 Byte) (hfit : 0 < a ∧ a % 16 = 0 ∧ a + n < 2 ^ 63) : Heap where
  live := Function.update (fun _ => none) a (some n)
  mem := m
  fits b k h := by
    rw [Function.update_apply] at h
    split at h
    · rename_i hb
      obtain rfl := Option.some.inj h
      rw [hb]
      exact hfit
    · cases h
  apart b c j k hb hc hne := by
    rw [Function.update_apply] at hb hc
    by_cases hba : b = a
    · rw [if_neg fun hca => hne (hba.trans hca.symm)] at hc
      cases hc
    · rw [if_neg hba] at hb
      cases hb

variable {L : Nat → Option Nat} {h h' : Heap} {a n : Nat} {r : Region}

theorem Covers.fits (hr : h.Covers r) : r.fin < 2 ^ 63 := by
  obtain ⟨a, n, hlive, hin⟩ := hr
  have := (h.fits a n hlive).2.2
  have h₂ := hin.2
  simp only [Region.fin_mk] at h₂
  omega

theorem Covers.within {s : Region} (hr : h.Covers r) (hs : s.Within r) : h.Covers s := by
  obtain ⟨a, n, hlive, hin⟩ := hr
  exact ⟨a, n, hlive, hs.trans hin⟩

theorem Calloc.eq_of_none (hc : h.Calloc n none h') : h' = h := by
  cases hc
  rfl

theorem Calloc.live_new (hc : h.Calloc n (some a) h') : h'.live a = some n := by
  cases hc with
  | gives _ hl _ => rw [hl, Function.update_self]

theorem Calloc.live_old {b : Nat} {x : Option Nat} (hc : h.Calloc n x h') {k : Nat}
    (hb : h.live b = some k) : h'.live b = some k := by
  cases hc with
  | fails => exact hb
  | gives hnone hl _ =>
      rw [hl, Function.update_of_ne, hb]
      rintro rfl
      rw [hnone] at hb
      cases hb

/-- A new region is zero. -/
theorem Calloc.zero (hc : h.Calloc n (some a) h') : cells h'.mem ⟨a, n⟩ = .replicate n 0 := by
  have hfit := h'.fits a n hc.live_new
  cases hc with
  | gives _ _ hm =>
      have hput : cells (put h.mem a (.replicate n 0)) ⟨a, (List.replicate n (0 : Byte)).length⟩ =
          .replicate n 0 := cells_put (by simp; omega)
      rw [hm]
      simpa using hput

/-- A new region is apart from what was allocated before. -/
theorem Calloc.apart (hc : h.Calloc n (some a) h') (hr : h.Covers r) :
    r.Apart ⟨a, n⟩ := by
  obtain ⟨b, k, hb, hin⟩ := hr
  have hne : b ≠ a := by
    rintro rfl
    cases hc with
    | gives hnone _ _ =>
        rw [hnone] at hb
        cases hb
  exact (h'.apart b a k n (hc.live_old hb) hc.live_new hne).within hin (.refl _)

/-- What is allocated keeps its contents. -/
theorem Covers.kept_calloc {x : Option Nat} (hr : h.Covers r) (hc : h.Calloc n x h') :
    cells h'.mem r = cells h.mem r := by
  cases hx : x with
  | none =>
      subst hx
      cases hc
      rfl
  | some a =>
      subst hx
      have hap := hc.apart hr
      have hfit := (h'.fits a n hc.live_new).2.2
      have hr' := hr.fits
      cases hc with
      | gives _ _ hm =>
          rw [hm, cells_put_apart (by simpa using hap) (by omega) (by simp; omega)]

theorem Free.live_other {b : Nat} (hf : h.Free (some a) h') (hb : b ≠ a) :
    h'.live b = h.live b := by
  cases hf with
  | frees _ hl _ => rw [hl, Function.update_of_ne hb]

/-- What lies in another region survives a `free`. -/
theorem Free.kept {b k : Nat} (hf : h.Free (some a) h') (hb : h.live b = some k) (hne : b ≠ a)
    (hr : r.Within ⟨b, k⟩) : cells h'.mem r = cells h.mem r := by
  cases hf with
  | @frees _ bs _ hlive _ hm =>
      have hfit := (h.fits a _ hlive).2.2
      have hcov : h.Covers r := ⟨b, k, hb, hr⟩
      have hr' := hcov.fits
      have hap : r.Apart ⟨a, bs.length⟩ :=
        (h.apart b a k _ hb hlive hne).within hr (.refl _)
      rw [hm, cells_put_apart hap (by omega) (by omega)]

/-- What is stored apart from a region does not show in it. -/
theorem Stored.kept {bs : List Byte} (hs : h.Stored a bs h') (hr : h.Covers r)
    (ha : h.Covers ⟨a, bs.length⟩) (hap : r.Apart ⟨a, bs.length⟩) :
    cells h'.mem r = cells h.mem r := by
  have h₁ := hr.fits
  have h₂ := ha.fits
  simp only [Region.fin_mk] at h₂
  rw [hs.mem, cells_put_apart hap (by omega) (by omega)]

/-! ## What is owned -/

/-- The regions that start at `xs` are live, each on top of what `L` says. -/
structure Owns (L : Nat → Option Nat) (h : Heap) (xs : List Nat) : Prop where
  nodup : xs.Nodup
  own : ∀ a ∈ xs, (h.live a).isSome = true
  new : ∀ a ∈ xs, L a = none
  rest : ∀ a, a ∉ xs → h.live a = L a

theorem owns_nil : Owns L h [] ↔ h.live = L := by
  constructor
  · exact fun ho => funext fun a => ho.rest a List.not_mem_nil
  · intro he
    refine ⟨List.nodup_nil, ?_, ?_, fun a _ => by rw [he]⟩
    · exact fun a ha => absurd ha List.not_mem_nil
    · exact fun a ha => absurd ha List.not_mem_nil

theorem Owns.perm {xs ys : List Nat} (ho : Owns L h xs) (hp : xs.Perm ys) : Owns L h ys where
  nodup := hp.nodup_iff.mp ho.nodup
  own a ha := ho.own a (hp.mem_iff.mpr ha)
  new a ha := ho.new a (hp.mem_iff.mpr ha)
  rest a ha := ho.rest a (fun hin => ha (hp.mem_iff.mp hin))

theorem Owns.congr {xs : List Nat} (ho : Owns L h xs) (hl : h'.live = h.live) : Owns L h' xs where
  nodup := ho.nodup
  own a ha := by rw [hl]; exact ho.own a ha
  new := ho.new
  rest a ha := by rw [hl]; exact ho.rest a ha

theorem Owns.calloc {xs : List Nat} (ho : Owns L h xs) (hc : h.Calloc n (some a) h') :
    Owns L h' (a :: xs) := by
  cases hc with
  | gives hnone hl _ =>
      have hnot : a ∉ xs := by
        intro hin
        have := ho.own a hin
        rw [hnone] at this
        cases this
      refine ⟨List.nodup_cons.mpr ⟨hnot, ho.nodup⟩, ?_, ?_, ?_⟩
      · intro b hb
        rw [hl]
        by_cases hba : b = a
        · simp [hba]
        · rw [Function.update_of_ne hba]
          exact ho.own b ((List.mem_cons.mp hb).resolve_left hba)
      · intro b hb
        rcases List.mem_cons.mp hb with rfl | hb
        · rw [← ho.rest b hnot, hnone]
        · exact ho.new b hb
      · intro b hb
        obtain ⟨hba, hb⟩ := not_or.mp (fun h => hb (List.mem_cons.mpr h))
        rw [hl, Function.update_of_ne hba, ho.rest b hb]

theorem Owns.free {xs : List Nat} (ho : Owns L h (a :: xs)) (hf : h.Free (some a) h') :
    Owns L h' xs := by
  obtain ⟨hnot, hnd⟩ := List.nodup_cons.mp ho.nodup
  cases hf with
  | frees _ hl _ =>
      refine ⟨hnd, ?_, ?_, ?_⟩
      · intro b hb
        have hba : b ≠ a := fun he => hnot (he ▸ hb)
        rw [hl, Function.update_of_ne hba]
        exact ho.own b (List.mem_cons_of_mem _ hb)
      · exact fun b hb => ho.new b (List.mem_cons_of_mem _ hb)
      · intro b hb
        rw [hl]
        by_cases hba : b = a
        · rw [hba, Function.update_self, ho.new a List.mem_cons_self]
        · rw [Function.update_of_ne hba]
          exact ho.rest b (fun hin => (List.mem_cons.mp hin).elim hba hb)

end Heap

/-! ## Arenas -/

/-- A stretch of memory used up to `last`. -/
structure Span where
  start : Nat
  last : Nat
  fin : Nat
deriving DecidableEq

namespace Span

def used (s : Span) : Region := ⟨s.start, s.last - s.start⟩

def free (s : Span) : Region := ⟨s.last, s.fin - s.last⟩

end Span

/-- An object in the used part of a span, or a big region. -/
def Housed (spans : List Span) (bigs : List Nat) (h : Heap) (o : Region) : Prop :=
  (∃ s ∈ spans, o.Within s.used) ∨ ∃ a ∈ bigs, ∃ n, h.live a = some n ∧ o = ⟨a, n⟩

/-- The spans, the big regions, and the objects in them. -/
structure Arena (L : Nat → Option Nat) (spans : List Span) (bigs : List Nat) (h : Heap)
    (os : List Region) : Prop where
  owns : h.Owns L (spans.map Span.start ++ bigs)
  span : ∀ s ∈ spans, s.start ≤ s.last ∧ s.last ≤ s.fin ∧ h.live s.start = some (s.fin - s.start)
  housed : ∀ o ∈ os, Housed spans bigs h o
  apart : os.Pairwise Region.Apart
  pos : ∀ o ∈ os, 0 < o.size

/-- The free parts of the spans are zero. -/
def Blank (spans : List Span) (m : Mem 64 Byte) : Prop :=
  ∀ s ∈ spans, cells m s.free = .replicate s.free.size 0

namespace Arena

variable {L : Nat → Option Nat} {spans pre post : List Span} {s : Span} {bigs bigs' : List Nat}
  {h h' : Heap} {os os' : List Region} {o : Region} {a m n : Nat}

theorem span_covers (ar : Arena L spans bigs h os) (hs : s ∈ spans) {r : Region}
    (hr : s.start ≤ r.start ∧ r.fin ≤ s.fin) : h.Covers r := by
  obtain ⟨h₁, h₂, hl⟩ := ar.span s hs
  refine ⟨s.start, _, hl, hr.1, ?_⟩
  simp only [Region.fin_mk]
  have := hr.2
  omega

/-- An object lies in allocated memory. -/
theorem covers (ar : Arena L spans bigs h os) (ho : o ∈ os) : h.Covers o := by
  rcases ar.housed o ho with ⟨s, hs, hin⟩ | ⟨a, -, n, hl, rfl⟩
  · obtain ⟨h₁, h₂, hl⟩ := ar.span s hs
    apply ar.span_covers hs
    have h₃ := hin.1
    have h₄ := hin.2
    simp only [Span.used, Region.fin_mk] at h₃ h₄
    omega
  · exact ⟨a, n, hl, Nat.le_refl _, Nat.le_refl _⟩

/-- Two spans that meet are one. -/
theorem span_eq (ar : Arena L spans bigs h os) {s t : Span} (hs : s ∈ spans) (ht : t ∈ spans)
    {x : Nat} (h₁ : s.start ≤ x ∧ x < s.fin) (h₂ : t.start ≤ x ∧ x < t.fin) :
    s.start = t.start := by
  by_contra hne
  obtain ⟨-, -, hls⟩ := ar.span s hs
  obtain ⟨-, -, hlt⟩ := ar.span t ht
  have := h.apart _ _ _ _ hls hlt hne
  simp only [Region.Apart, Region.fin_mk] at this
  omega

/-- The spans of an arena are told apart by where they start. -/
theorem start_inj (ar : Arena L spans bigs h os) {s t : Span} (hs : s ∈ spans) (ht : t ∈ spans)
    (he : s.start = t.start) : s = t :=
  List.inj_on_of_nodup_map (List.nodup_append.mp ar.owns.nodup).1 hs ht he

theorem perm (ar : Arena L spans bigs h os) (hp : os.Perm os') : Arena L spans bigs h os' where
  owns := ar.owns
  span := ar.span
  housed o ho := ar.housed o (hp.mem_iff.mpr ho)
  apart := (hp.pairwise_iff Region.Apart.symm).mp ar.apart
  pos o ho := ar.pos o (hp.mem_iff.mpr ho)

/-- Objects may be forgotten. -/
theorem sub (ar : Arena L spans bigs h os) (hsub : os'.Sublist os) :
    Arena L spans bigs h os' where
  owns := ar.owns
  span := ar.span
  housed o ho := ar.housed o (hsub.subset ho)
  apart := ar.apart.sublist hsub
  pos o ho := ar.pos o (hsub.subset ho)

/-- Only the table of allocations matters. -/
theorem congr (ar : Arena L spans bigs h os) (hl : h'.live = h.live) :
    Arena L spans bigs h' os where
  owns := ar.owns.congr hl
  span s hs := by rw [hl]; exact ar.span s hs
  housed o ho := by
    simp only [Housed, hl]
    exact ar.housed o ho
  apart := ar.apart
  pos := ar.pos

theorem bigs_perm (ar : Arena L spans bigs h os) (hp : bigs.Perm bigs') :
    Arena L spans bigs' h os where
  owns := ar.owns.perm (hp.append_left _)
  span := ar.span
  housed o ho := by
    refine (ar.housed o ho).imp id ?_
    rintro ⟨a, ha, n, hl, he⟩
    exact ⟨a, hp.mem_iff.mp ha, n, hl, he⟩
  apart := ar.apart
  pos := ar.pos

/-- An object that does not reach into the free part of a span is apart from it. -/
theorem apart_free (ar : Arena L spans bigs h os) (hs : s ∈ spans) (ho : o ∈ os) :
    o.Apart s.free := by
  obtain ⟨h₁, h₂, hl⟩ := ar.span s hs
  have hpos := ar.pos o ho
  rcases ar.housed o ho with ⟨t, ht, hin⟩ | ⟨b, hb, k, hlb, rfl⟩
  · obtain ⟨h₃, h₄, hlt⟩ := ar.span t ht
    have h₅ := hin.1
    have h₆ := hin.2
    simp only [Span.used, Region.fin_mk] at h₅ h₆
    by_cases he : t.start = s.start
    · rw [ar.start_inj ht hs he] at h₆
      simp only [Region.Apart, Span.free]
      omega
    · have hap := h.apart _ _ _ _ hlt hl he
      refine hap.within ⟨h₅, ?_⟩ ⟨?_, ?_⟩
      all_goals simp only [Span.free, Region.fin_mk]; omega
  · have hne : b ≠ s.start := by
      rintro rfl
      have hdis := (List.nodup_append.mp ar.owns.nodup).2.2
      exact hdis _ (List.mem_map_of_mem hs) _ hb rfl
    refine (h.apart b s.start _ _ hlb hl hne).within (.refl _) ⟨?_, ?_⟩
    all_goals simp only [Span.free, Region.fin_mk]; omega

/-- The rule for an object behind the used part of a span. -/
theorem take (ar : Arena L (pre ++ s :: post) bigs h os) (hm : s.last ≤ m) (hn : 0 < n)
    (hfin : m + n ≤ s.fin) :
    Arena L (pre ++ { s with last := m + n } :: post) bigs h (⟨m, n⟩ :: os) := by
  have hs : s ∈ pre ++ s :: post := by simp
  obtain ⟨h₁, h₂, hl⟩ := ar.span s hs
  have hmem : ∀ t, t ∈ pre ++ { s with last := m + n } :: post →
      t = { s with last := m + n } ∨ t ∈ pre ++ s :: post := by
    intro t ht
    simp only [List.mem_append, List.mem_cons] at ht ⊢
    tauto
  refine ⟨?_, ?_, ?_, ?_, ?_⟩
  · simpa using ar.owns
  · intro t ht
    rcases hmem t ht with rfl | ht
    · exact ⟨by simp only; omega, hfin, hl⟩
    · exact ar.span t ht
  · intro o ho
    rcases List.mem_cons.mp ho with rfl | ho
    · refine .inl ⟨{ s with last := m + n }, by simp, ?_⟩
      simp only [Region.Within, Span.used, Region.fin_mk]
      omega
    · refine (ar.housed o ho).imp ?_ id
      rintro ⟨t, ht, hin⟩
      simp only [List.mem_append, List.mem_cons] at ht
      rcases ht with ht | rfl | ht
      · exact ⟨t, by simp [ht], hin⟩
      · refine ⟨{ t with last := m + n }, by simp, hin.1, Nat.le_trans hin.2 ?_⟩
        simp only [Span.used, Region.fin_mk]
        omega
      · exact ⟨t, by simp [ht], hin⟩
  · refine List.pairwise_cons.mpr ⟨fun o ho => ?_, ar.apart⟩
    have hin : Region.Within ⟨m, n⟩ s.free := by
      refine ⟨hm, ?_⟩
      simp only [Span.free, Region.fin_mk]
      omega
    exact ((ar.apart_free hs ho).within (.refl _) hin).symm
  · intro o ho
    rcases List.mem_cons.mp ho with rfl | ho
    · exact hn
    · exact ar.pos o ho

/-- The rule for giving back the last object of a span. -/
theorem rewind (ar : Arena L (pre ++ s :: post) bigs h (⟨m, n⟩ :: os)) (hm : s.start ≤ m)
    (hlast : m + n = s.last) :
    Arena L (pre ++ { s with last := m } :: post) bigs h os := by
  have hs : s ∈ pre ++ s :: post := by simp
  obtain ⟨h₁, h₂, hl⟩ := ar.span s hs
  obtain ⟨hap, hpw⟩ := List.pairwise_cons.mp ar.apart
  refine ⟨?_, ?_, ?_, hpw, fun o ho => ar.pos o (List.mem_cons_of_mem _ ho)⟩
  · simpa using ar.owns
  · intro t ht
    simp only [List.mem_append, List.mem_cons] at ht
    rcases ht with ht | rfl | ht
    · exact ar.span t (by simp [ht])
    · exact ⟨hm, by simp only; omega, hl⟩
    · exact ar.span t (by simp [ht])
  · intro o ho
    refine (ar.housed o (List.mem_cons_of_mem _ ho)).imp ?_ id
    rintro ⟨t, ht, hin⟩
    simp only [List.mem_append, List.mem_cons] at ht
    rcases ht with ht | rfl | ht
    · exact ⟨t, by simp [ht], hin⟩
    · -- an object behind the one given back would be empty
      refine ⟨{ t with last := m }, by simp, hin.1, ?_⟩
      have hpos := ar.pos o (List.mem_cons_of_mem _ ho)
      have h₃ := hin.2
      have h₄ := hap o ho
      simp only [Region.Apart, Region.fin, Span.used] at h₃ h₄ ⊢
      omega
    · exact ⟨t, by simp [ht], hin⟩

/-- The rule for one more span, with an object at its start. -/
theorem addSpan (ar : Arena L spans bigs h os) {k : Nat} (hc : h.Calloc n (some a) h')
    (hk : 0 < k) (hkn : k ≤ n) :
    Arena L (spans ++ [⟨a, a + k, a + n⟩]) bigs h' (⟨a, k⟩ :: os) := by
  refine ⟨?_, ?_, ?_, ?_, ?_⟩
  · refine (ar.owns.calloc hc).perm ?_
    simp only [List.map_append, List.map_cons, List.map_nil, List.append_assoc,
      List.singleton_append]
    exact List.perm_middle.symm
  · intro t ht
    rcases List.mem_append.mp ht with ht | ht
    · obtain ⟨h₁, h₂, hl⟩ := ar.span t ht
      exact ⟨h₁, h₂, hc.live_old hl⟩
    · obtain rfl := List.mem_singleton.mp ht
      refine ⟨by simp only; omega, by simp only; omega, ?_⟩
      simpa using hc.live_new
  · intro o ho
    rcases List.mem_cons.mp ho with rfl | ho
    · refine .inl ⟨⟨a, a + k, a + n⟩, by simp, Nat.le_refl _, ?_⟩
      simp [Span.used]
    · rcases ar.housed o ho with ⟨t, ht, hin⟩ | ⟨b, hb, j, hl, he⟩
      · exact .inl ⟨t, by simp [ht], hin⟩
      · exact .inr ⟨b, hb, j, hc.live_old hl, he⟩
  · refine List.pairwise_cons.mpr ⟨fun o ho => ?_, ar.apart⟩
    have hin : Region.Within ⟨a, k⟩ ⟨a, n⟩ := by
      refine ⟨Nat.le_refl _, ?_⟩
      simp only [Region.fin_mk]
      omega
    exact ((hc.apart (ar.covers ho)).within (.refl _) hin).symm
  · intro o ho
    rcases List.mem_cons.mp ho with rfl | ho
    · exact hk
    · exact ar.pos o ho

/-- The rule for one more big object. -/
theorem addBig (ar : Arena L spans bigs h os) (hc : h.Calloc n (some a) h') (hn : 0 < n) :
    Arena L spans (a :: bigs) h' (⟨a, n⟩ :: os) := by
  refine ⟨(ar.owns.calloc hc).perm List.perm_middle.symm, ?_, ?_, ?_, ?_⟩
  · intro t ht
    obtain ⟨h₁, h₂, hl⟩ := ar.span t ht
    exact ⟨h₁, h₂, hc.live_old hl⟩
  · intro o ho
    rcases List.mem_cons.mp ho with rfl | ho
    · exact .inr ⟨a, List.mem_cons_self, n, hc.live_new, rfl⟩
    · refine (ar.housed o ho).imp id ?_
      rintro ⟨b, hb, j, hl, he⟩
      exact ⟨b, List.mem_cons_of_mem _ hb, j, hc.live_old hl, he⟩
  · refine List.pairwise_cons.mpr ⟨fun o ho => ?_, ar.apart⟩
    exact (hc.apart (ar.covers ho)).symm
  · intro o ho
    rcases List.mem_cons.mp ho with rfl | ho
    · exact hn
    · exact ar.pos o ho

/-- Objects are told apart by where they start. -/
theorem start_ne (ar : Arena L spans bigs h (o :: os)) {r : Region} (hr : r ∈ os) :
    r.start ≠ o.start := by
  intro he
  have hap := (List.pairwise_cons.mp ar.apart).1 r hr
  have h₁ := ar.pos o List.mem_cons_self
  have h₂ := ar.pos r (List.mem_cons_of_mem _ hr)
  simp only [Region.Apart, Region.fin] at hap
  omega

/-- The other objects lie in memory that freeing a big one leaves alone. -/
theorem elsewhere (ar : Arena L spans (a :: bigs) h (⟨a, n⟩ :: os)) (ho : o ∈ os) :
    Housed spans bigs h o ∧ ∃ b k, h.live b = some k ∧ b ≠ a ∧ o.Within ⟨b, k⟩ := by
  have hne := ar.start_ne ho
  rcases ar.housed o (List.mem_cons_of_mem _ ho) with ⟨s, hs, hin⟩ | ⟨b, hb, n, hl, rfl⟩
  · obtain ⟨h₁, h₂, hl⟩ := ar.span s hs
    refine ⟨.inl ⟨s, hs, hin⟩, s.start, _, hl, ?_, hin.1, Nat.le_trans hin.2 ?_⟩
    · intro he
      have hdis := (List.nodup_append.mp ar.owns.nodup).2.2
      exact hdis _ (List.mem_map_of_mem hs) _ List.mem_cons_self he
    · simp only [Span.used, Region.fin_mk]
      omega
  · exact ⟨.inr ⟨b, (List.mem_cons.mp hb).resolve_left hne, n, hl, rfl⟩, b, n, hl, hne, .refl _⟩

/-- The rule for freeing a big object. -/
theorem dropBig (ar : Arena L spans (a :: bigs) h (⟨a, n⟩ :: os)) (hf : h.Free (some a) h') :
    Arena L spans bigs h' os := by
  refine ⟨(ar.owns.perm List.perm_middle).free hf, ?_, ?_, (List.pairwise_cons.mp ar.apart).2,
    fun o ho => ar.pos o (List.mem_cons_of_mem _ ho)⟩
  · intro t ht
    obtain ⟨h₁, h₂, hl⟩ := ar.span t ht
    refine ⟨h₁, h₂, ?_⟩
    rw [hf.live_other, hl]
    intro he
    have hdis := (List.nodup_append.mp ar.owns.nodup).2.2
    exact hdis _ (List.mem_map_of_mem ht) _ List.mem_cons_self he
  · intro o ho
    refine (ar.elsewhere ho).1.imp id ?_
    rintro ⟨c, hc, j, hlc, rfl⟩
    have hne := ar.start_ne ho
    exact ⟨c, hc, j, by rw [hf.live_other hne]; exact hlc, rfl⟩

/-- An arena of spans alone, with an object of `k s` bytes at the start of each. -/
theorem ofSpans (spans : List Span) (k : Span → Nat) (ho : h.Owns L (spans.map Span.start))
    (hs : ∀ s ∈ spans, s.start ≤ s.last ∧ s.last ≤ s.fin ∧ h.live s.start = some (s.fin - s.start))
    (hk : ∀ s ∈ spans, 0 < k s ∧ s.start + k s ≤ s.last) :
    Arena L spans [] h (spans.map fun s => ⟨s.start, k s⟩) := by
  refine ⟨by rwa [List.append_nil], hs, ?_, ?_, ?_⟩
  · intro o ho
    obtain ⟨s, hmem, rfl⟩ := List.mem_map.mp ho
    refine .inl ⟨s, hmem, Nat.le_refl _, ?_⟩
    have := hk s hmem
    simp only [Span.used, Region.fin_mk]
    omega
  · have hne : spans.Pairwise (fun s t => s.start ≠ t.start) := List.pairwise_map.mp ho.nodup
    refine List.pairwise_map.mpr (hne.imp_of_mem fun {s t} hs₁ ht₁ hst => ?_)
    obtain ⟨-, h₂, hls⟩ := hs s hs₁
    obtain ⟨-, h₄, hlt⟩ := hs t ht₁
    have hap := h.apart _ _ _ _ hls hlt hst
    have h₅ := (hk s hs₁).2
    have h₆ := (hk t ht₁).2
    simp only [Region.Apart, Region.fin_mk] at hap ⊢
    omega
  · intro o ho
    obtain ⟨s, hmem, rfl⟩ := List.mem_map.mp ho
    exact (hk s hmem).1

/-- What is left keeps its contents. -/
theorem kept_free (ar : Arena L spans (a :: bigs) h (⟨a, n⟩ :: os)) (hf : h.Free (some a) h')
    (ho : o ∈ os) : cells h'.mem o = cells h.mem o := by
  obtain ⟨-, b, k, hl, hba, hin⟩ := ar.elsewhere ho
  exact hf.kept hl hba hin

/-- What is stored into one object leaves the others as they were. -/
theorem kept_put (ar : Arena L spans bigs h (o :: os)) {bs : List Byte}
    (hin : Region.Within ⟨a, bs.length⟩ o) (hs : h.Stored a bs h') {r : Region} (hr : r ∈ os) :
    cells h'.mem r = cells h.mem r := by
  refine hs.kept (ar.covers (List.mem_cons_of_mem _ hr)) ((ar.covers List.mem_cons_self).within hin)
    ?_
  exact ((List.pairwise_cons.mp ar.apart).1 r hr).symm.within (.refl _) hin

/-! ### Zero memory -/

theorem blank_calloc (ar : Arena L spans bigs h os) {x : Option Nat} (hc : h.Calloc n x h')
    (hb : Blank spans h.mem) : Blank spans h'.mem := by
  intro s hs
  obtain ⟨h₁, h₂, -⟩ := ar.span s hs
  have hcov : h.Covers s.free := by
    apply ar.span_covers hs
    simp only [Span.free, Region.fin_mk]
    omega
  rw [hcov.kept_calloc hc]
  exact hb s hs

theorem blank_addSpan (ar : Arena L spans bigs h os) {k : Nat} (hc : h.Calloc n (some a) h')
    (hkn : k ≤ n) (hb : Blank spans h.mem) : Blank (spans ++ [⟨a, a + k, a + n⟩]) h'.mem := by
  intro s hs
  rcases List.mem_append.mp hs with hs | hs
  · exact ar.blank_calloc hc hb s hs
  · obtain rfl := List.mem_singleton.mp hs
    refine cells_zero_part (r := ⟨a, n⟩) ?_ hc.zero
    simp only [Span.free, Region.Within, Region.fin_mk]
    omega

theorem blank_free (ar : Arena L spans (a :: bigs) h os) (hf : h.Free (some a) h')
    (hb : Blank spans h.mem) : Blank spans h'.mem := by
  intro s hs
  obtain ⟨h₁, h₂, hl⟩ := ar.span s hs
  have hne : s.start ≠ a := by
    intro he
    have hdis := (List.nodup_append.mp ar.owns.nodup).2.2
    exact hdis _ (List.mem_map_of_mem hs) _ List.mem_cons_self he
  rw [hf.kept hl hne ⟨?_, ?_⟩]
  · exact hb s hs
  · exact h₁
  · simp only [Span.free, Region.fin_mk]
    omega

/-- A store into an object does not reach the free parts. -/
theorem blank_put (ar : Arena L spans bigs h (o :: os)) {bs : List Byte}
    (hin : Region.Within ⟨a, bs.length⟩ o) (hs : h.Stored a bs h') (hb : Blank spans h.mem) :
    Blank spans h'.mem := by
  intro s hss
  obtain ⟨h₁, h₂, -⟩ := ar.span s hss
  have hcov : h.Covers s.free := by
    apply ar.span_covers hss
    simp only [Span.free, Region.fin_mk]
    omega
  have hap := (ar.apart_free hss List.mem_cons_self).symm.within (.refl _) hin
  rw [hs.kept hcov ((ar.covers List.mem_cons_self).within hin) hap]
  exact hb s hss

end Arena

/-- An object cut off a zero span is zero, and so is what is left. -/
theorem Blank.take {pre post : List Span} {s : Span} {mem : Mem 64 Byte} {m n : Nat}
    (hb : Blank (pre ++ s :: post) mem) (hm : s.last ≤ m) (hfin : m + n ≤ s.fin) :
    Blank (pre ++ { s with last := m + n } :: post) mem ∧
      cells mem ⟨m, n⟩ = .replicate n 0 := by
  have hs := hb s (by simp)
  constructor
  · intro t ht
    simp only [List.mem_append, List.mem_cons] at ht
    rcases ht with ht | rfl | ht
    · exact hb t (by simp [ht])
    · refine cells_zero_part (r := s.free) ?_ hs
      simp only [Span.free, Region.Within, Region.fin_mk]
      omega
    · exact hb t (by simp [ht])
  · refine cells_zero_part (r := s.free) (s := ⟨m, n⟩) ?_ hs
    simp only [Span.free, Region.Within, Region.fin_mk]
    omega
