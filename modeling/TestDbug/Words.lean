/-
# `TestDbug.Words` — the debugger's tables in its pool

`init_dbug` makes a pool and two arrays in it: `cmd` for the words of the
command line, `bps` for the breakpoints.  `get_command` copies every word into
the pool and leaves its address in a slot of `cmd`; the handlers of `b` and
`watch` fill an entry of `bps` field by field; the handler of `dbug` copies
addresses out of `cmd` into an argument vector.

The other modules have these tables as lists.  Here they are bytes, and `InMemory`
says that the bytes are those lists: every slot of `cmd`, in use or not, points
to its string or is zero, and the entries of `bps` lie one behind the other
with zeros after them.  A function that follows a NULL pointer returns `none`.
-/
import TestDbug.PoolSession
import TestDbug.OwnLine

open ByteMemory Interaction

namespace TestDbug

/-! ## The functions -/

/-- `sizeof(struct breakpoint)`. -/
def sizeofBreakpoint : Nat := 32

/-- `sizeof(ngx_str_t)`. -/
def sizeofStr : Nat := 16

/-- The part of `struct dbug_struct` that is kept in the pool. -/
structure DbugHeap where
  pool : NgxPool
  bps : NgxArrayT
  cmd : NgxArrayT

/-- `init_dbug`. -/
def initDbugHeap : Pool (Option DbugHeap) := do
  match ← ngxCreatePool 4096 with
  | none => return none
  | some pool =>
      let (bps, pool) ← ngxArrayCreate pool 10 sizeofBreakpoint
      let (cmd, pool) ← ngxArrayCreate pool 10 sizeofStr
      match bps, cmd with
      | some bps, some cmd => return some ⟨pool, bps, cmd⟩
      | _, _ => return none

/-- `strlen`, from `p` on, with `len` counted so far; the first argument bounds
the rounds. -/
def strlenLoop : Nat → Nat → Nat → Pool Nat
  | 0, _, len => return len
  | n + 1, p, len => do
      let c ← sys (.load p 1)
      if c = [0] then return len else strlenLoop n (padd p 1) (len + 1)

/-- `strlen`; there are no more characters than addresses. -/
def strlen (p : Nat) : Pool Nat := strlenLoop (2 ^ 64) p 0

/-- `p_data` of `get_command`: a copy of the word, and the 0 behind it. -/
def copyWord (pool : NgxPool) (word : CStr) : Pool (Ptr × NgxPool) := do
  let (p_data, pool) ← ngxPcalloc pool (word.length + 1)
  match p_data with
  | none => return (none, pool)
  | some p_data =>
      sys (.store (padd p_data 0) word)
      sys (.store (padd p_data word.length) [0])
      return (some p_data, pool)

/-- `str->data = p_data` and `str->len = strlen(p_data)`. -/
def setStr (str p_data : Nat) : Pool Unit := do
  sys (.store (padd str 8) (toBytes (.ofNat 64 p_data)))
  let len ← strlen p_data
  sys (.store (padd str 0) (toBytes (.ofNat 64 len)))

/-- What the inner loop of `get_command` does with a word. -/
def putWord (d : DbugHeap) (word : CStr) : Pool (Option DbugHeap) := do
  let (p_data, pool) ← copyWord d.pool word
  match p_data with
  | none => return none
  | some p_data =>
      let (str, cmd, pool) ← ngxArrayPush d.cmd pool
      match str with
      | none => return none
      | some str =>
          setStr str p_data
          return some ⟨pool, d.bps, cmd⟩

/-- The loops of `get_command`, as in `tokenLoop`. -/
def putWords : Nat → List Byte → DbugHeap → Pool (Option DbugHeap)
  | 0, _, d => return some d
  | _ + 1, [], d => return some d
  | n + 1, c :: cs, d =>
      if c = 32 then putWords n cs d
      else
        match (c :: cs).findIdx? isspace with
        | some k => do
            match ← putWord d ((c :: cs).take k) with
            | none => return none
            | some d => putWords n ((c :: cs).drop (k + 1)) d
        | none => putWords n cs d

/-- `cmds->nelts = 0`. -/
def NgxArrayT.clear (a : NgxArrayT) : NgxArrayT := { a with nelts := 0 }

/-- `get_command` on the line that `fgets` has read. -/
def putLine (d : DbugHeap) (line : Line) : Pool (Option DbugHeap) :=
  putWords (text line).length (text line) { d with cmd := d.cmd.clear }

/-- Fields of a structure at `a`, each with its offset, set one after the other. -/
def storeFields (a : Nat) : List (Nat × List Byte) → Pool Unit
  | [] => return ()
  | f :: fs => do
      sys (.store (padd a f.1) f.2)
      storeFields a fs

/-- What the handlers of `b` and `watch` do to `dbug->bps`. -/
def putEntry (d : DbugHeap) (fields : List (Nat × List Byte)) : Pool (Option DbugHeap) := do
  let (bp, bps, pool) ← ngxArrayPush d.bps d.pool
  match bp with
  | none => return none
  | some bp =>
      storeFields bp fields
      return some ⟨pool, bps, d.cmd⟩

/-- `argv[i] = str[i+1].data` for the next `n` values of `i`. -/
def argvLoop (str argv : Nat) : Nat → Nat → Pool Unit
  | 0, _ => return ()
  | n + 1, i => do
      let data ← sys (.load (padd str (16 * (i + 1) + 8)) 8)
      sys (.store (padd argv (8 * i)) data)
      argvLoop str argv n (i + 1)

/-- What `command_dbug` does before it calls `dbug_pro`; with it, `argv`. -/
def putArgv (d : DbugHeap) : Pool (Option (Nat × DbugHeap)) := do
  let (argv, pool) ← ngxPcalloc d.pool (8 * d.cmd.nelts)
  match argv with
  | none => return none
  | some argv =>
      argvLoop d.cmd.elts argv d.cmd.nelts 0
      return some (argv, { d with pool := pool })

/-! ## Stores into an object -/

section
variable {L : Nat → Option Nat} {psize : Nat} {ex : List Nat} {pool : NgxPool} {w w' w'' : World}
  {os : List Region} {o : Region} {a n : Nat} {bytes bytes' : List Byte}

/-- What stores into the part `⟨a, n⟩` of the object `o` leave. -/
structure Wrote (L : Nat → Option Nat) (psize : Nat) (ex : List Nat) (pool : NgxPool) (w : World)
    (os : List Region) (o : Region) (a n : Nat) (bytes : List Byte) (w' : World) : Prop where
  holds : pool.Holds L psize ex w'.heap (o :: os)
  keeps : Keeps pool w os pool w'
  bytes : cells w'.mem ⟨a, n⟩ = bytes
  rest : ∀ r, r.Within o → r.Apart ⟨a, n⟩ → cells w'.mem r = cells w.mem r

theorem Wrote.refl (hold : pool.Holds L psize ex w.heap (o :: os)) :
    Wrote L psize ex pool w os o a n (cells w.mem ⟨a, n⟩) w :=
  ⟨hold, .refl .., rfl, fun _ _ _ => rfl⟩

theorem Wrote.trans (h : Wrote L psize ex pool w os o a n bytes w')
    (h' : Wrote L psize ex pool w' os o a n bytes' w'') :
    Wrote L psize ex pool w os o a n bytes' w'' where
  holds := h'.holds
  keeps := h.keeps.trans h'.keeps (List.Subset.refl _)
  bytes := h'.bytes
  rest r hr hap := (h'.rest r hr hap).trans (h.rest r hr hap)

/-- One store. -/
theorem wp_storeIn {off : Nat} {bs : List Byte} (hold : pool.Holds L psize ex w.heap (o :: os))
    (hin : Region.Within ⟨a, n⟩ o) (hle : off + bs.length ≤ n) :
    wp poolKernel Harmless (sys (.store (padd a off) bs))
      (fun _ w' => Wrote L psize ex pool w os o a n (overwrite (cells w.mem ⟨a, n⟩) (off, bs)) w')
      w := by
  have hcov := (hold.covers (o := o) List.mem_cons_self).within hin
  have hfit := hcov.fits
  simp only [Region.fin_mk] at hfit
  have hpart : Region.Within ⟨a + off, bs.length⟩ ⟨a, n⟩ := by
    simp only [Region.Within, Region.fin_mk]
    omega
  rw [padd_eq (by omega)]
  refine ⟨hcov.within hpart, ?_⟩
  rintro _ w' ⟨hs, he⟩
  obtain ⟨hold', hk⟩ := hold.put hs he (hpart.trans hin)
  refine ⟨hold', hk, ?_, ?_⟩
  · rw [World.mem, hs.mem, cells_put_part hle (by omega)]
  · intro r hr hap
    exact hs.kept ((hold.covers (o := o) List.mem_cons_self).within hr) (hcov.within hpart)
      (hap.within (.refl _) hpart)

/-- Fields that lie inside. -/
def Fit (n : Nat) (fields : List (Nat × List Byte)) : Prop :=
  ∀ f ∈ fields, f.1 + f.2.length ≤ n

theorem wp_storeFields {fields : List (Nat × List Byte)}
    (hold : pool.Holds L psize ex w.heap (o :: os)) (hin : Region.Within ⟨a, n⟩ o)
    (hfit : Fit n fields) :
    wp poolKernel Harmless (storeFields a fields)
      (fun _ w' => Wrote L psize ex pool w os o a n
        (fields.foldl overwrite (cells w.mem ⟨a, n⟩)) w') w := by
  induction fields generalizing w with
  | nil => exact .refl hold
  | cons f fs ih =>
      refine wp_seq (wp_storeIn hold hin (hfit f List.mem_cons_self)) ?_
      intro _ w₁ h₁
      refine wp_mono ?_ (ih h₁.holds fun g hg => hfit g (List.mem_cons_of_mem _ hg))
      intro _ w₂ h₂
      rw [h₁.bytes] at h₂
      exact h₁.trans h₂

/-! ## Strings -/

variable {t : CStr} {p : Nat}

/-- The bytes of a C string that fills a region. -/
def IsStr (m : Mem 64 Byte) (p : Nat) (t : CStr) : Prop :=
  0 ∉ t ∧ cells m ⟨p, t.length + 1⟩ = t ++ [0]

theorem wp_strlenLoop {k len : Nat} (hcov : w.heap.Covers ⟨p, t.length + 1⟩)
    (ht : IsStr w.mem p t) (hk : t.length < k) :
    wp poolKernel Harmless (strlenLoop k p len)
      (fun r w' => r = len + t.length ∧ w' = w) w := by
  induction t generalizing p k len with
  | nil =>
      obtain ⟨k, rfl⟩ := Nat.exists_eq_succ_of_ne_zero (Nat.ne_of_gt hk)
      refine wp_ask hcov ?_
      rintro c w' ⟨hc, rfl⟩
      have hend : c = [0] := hc.trans ht.2
      rw [if_pos hend]
      exact ⟨rfl, rfl⟩
  | cons b t ih =>
      obtain ⟨k, rfl⟩ := Nat.exists_eq_succ_of_ne_zero (Nat.ne_of_gt (Nat.lt_of_le_of_lt
        (Nat.zero_le _) hk))
      have hfits := hcov.fits
      simp only [List.length_cons, Region.fin_mk] at hfits hk
      have hcells : cells w.mem ⟨p, 1⟩ ++ cells w.mem ⟨p + 1, t.length + 1⟩ = b :: (t ++ [0]) := by
        rw [← cells_add, Nat.add_comm 1]
        exact ht.2
      obtain ⟨hb, hrest⟩ := List.append_inj (show _ = [b] ++ _ from hcells) (by simp)
      have hne : cells w.mem ⟨p, 1⟩ ≠ [0] := by
        rw [hb]
        intro h0
        exact ht.1 (List.mem_cons.mpr (.inl (List.cons.inj h0).1.symm))
      refine wp_ask (hcov.within ⟨Nat.le_refl _, ?_⟩) ?_
      · simp only [Region.fin_mk, List.length_cons]
        omega
      · rintro c w' ⟨rfl, rfl⟩
        rw [if_neg hne, padd_eq (by omega)]
        refine wp_mono ?_ (ih (hcov.within ?_) ⟨fun h => ht.1 (List.mem_cons_of_mem _ h), hrest⟩
          (by omega))
        · rintro r w' ⟨rfl, rfl⟩
          refine ⟨?_, rfl⟩
          rw [List.length_cons]
          omega
        · simp only [Region.Within, Region.fin_mk, List.length_cons]
          omega

/-- The two words of an `ngx_str_t`. -/
def strBytes (len data : Nat) : List Byte := toBytes (.ofNat 64 len) ++ toBytes (.ofNat 64 data)

/-- A slot is given a string. -/
theorem wp_setStr (hold : pool.Holds L psize ex w.heap (o :: os))
    (hin : Region.Within ⟨a, sizeofStr⟩ o) (hp : ⟨p, t.length + 1⟩ ∈ os) (ht : IsStr w.mem p t) :
    wp poolKernel Harmless (setStr a p)
      (fun _ w' => Wrote L psize ex pool w os o a sizeofStr (strBytes t.length p) w') w := by
  rw [setStr]
  refine wp_seq (wp_storeIn hold hin (by simp [sizeofStr])) ?_
  intro _ w₁ h₁
  have hp₁ : (⟨p, t.length + 1⟩ : Region) ∈ o :: os := List.mem_cons_of_mem _ hp
  have hcov := h₁.holds.covers hp₁
  have hfits := hcov.fits
  simp only [Region.fin_mk] at hfits
  have ht₁ : IsStr w₁.mem p t := ⟨ht.1, (h₁.keeps.kept _ hp).trans ht.2⟩
  refine wp_seq (wp_strlenLoop hcov ht₁ (by omega)) ?_
  rintro len w' ⟨rfl, rfl⟩
  refine wp_mono ?_ (wp_storeIn h₁.holds hin (by simp [sizeofStr]))
  intro _ w₂ h₂
  have hbytes : overwrite (cells w'.mem ⟨a, sizeofStr⟩) (0, toBytes (.ofNat 64 (0 + t.length))) =
      strBytes t.length p := by
    have hlen : (cells w.mem ⟨a, sizeofStr⟩).length = 16 := length_cells _
    rw [h₁.bytes, Nat.zero_add]
    simp [overwrite, strBytes, hlen]
  rw [hbytes] at h₂
  exact h₁.trans h₂

/-- A new string in the pool. -/
theorem wp_copyWord (hold : pool.Holds L psize ex w.heap os) :
    wp poolKernel Harmless (copyWord pool t)
      (fun r w' => r.2.Holds L psize ex w'.heap (handed r.1 (t.length + 1) ++ os) ∧
        Keeps pool w os r.2 w' ∧
        ∀ p, r.1 = some p → cells w'.mem ⟨p, t.length + 1⟩ = t ++ [0]) w := by
  rw [copyWord]
  refine wp_seq (wp_ngxPcalloc hold (Nat.succ_pos _)) ?_
  rintro ⟨x, pool₁⟩ w₁ ⟨hg, -, hz⟩
  cases x with
  | none => exact ⟨hg.holds, hg.keeps, fun _ hx => absurd hx.symm (Option.some_ne_none _)⟩
  | some p =>
      have hz₁ := hz p rfl
      have hin : Region.Within ⟨p, t.length + 1⟩ ⟨p, t.length + 1⟩ := .refl _
      refine wp_seq (wp_storeIn hg.holds hin (by omega)) ?_
      intro _ w₂ h₂
      refine wp_seq (wp_storeIn h₂.holds hin (Nat.le_refl _)) ?_
      intro _ w₃ h₃
      have hw := h₂.trans h₃
      refine ⟨hw.holds, hg.keeps.trans hw.keeps (List.Subset.refl _), ?_⟩
      rintro _ ⟨⟩
      rw [hw.bytes, h₂.bytes, hz₁]
      simp [overwrite]

end

/-! ## The tables -/

/-- The `k`-th slot. -/
def NgxArrayT.slot (a : NgxArrayT) (k : Nat) : Region := ⟨a.elts + a.size * k, a.size⟩

/-- A slot of `cmd`: zero, or the length and the address of a string among `strs`. -/
def IsSlot (m : Mem 64 Byte) (strs : List Region) (bytes : List Byte) : NgxStr → Prop
  | none => bytes = .replicate sizeofStr 0
  | some t => ∃ p, ⟨p, t.length + 1⟩ ∈ strs ∧ IsStr m p t ∧ bytes = strBytes t.length p

/-- `cmd` in memory.  The list may be longer: an array that grows in place gets
one slot at a time. -/
structure CmdShown (m : Mem 64 Byte) (strs : List Region) (c : NgxArrayT) (a : NgxArray) :
    Prop where
  ok : c.Ok
  size : c.size = sizeofStr
  nelts : c.nelts = a.nelts
  slots : ∀ k < c.nalloc, IsSlot m strs (cells m (c.slot k)) (a.slot k)
  behind : ∀ k, c.nalloc ≤ k → a.slot k = none

/-- The two tables, an entry of `bps` as its bytes. -/
structure Tables where
  cmd : NgxArray
  bps : List (List Byte)

/-- The tables in memory, with the strings `strs`. -/
structure InMemory (L : Nat → Option Nat) (strs : List Region) (t : Tables) (d : DbugHeap)
    (w : World) : Prop where
  holds : d.pool.Holds L 4096 [] w.heap
    (d.cmd.head :: d.cmd.room :: d.bps.head :: d.bps.room :: strs)
  blank : Blank d.pool.spans w.mem
  cmd : CmdShown w.mem strs d.cmd t.cmd
  bps : Lists w.mem d.bps t.bps
  entry : d.bps.size = sizeofBreakpoint
  tail : cells w.mem d.bps.tail = .replicate d.bps.tail.size 0

/-- Unless a NULL pointer was followed, the tables are `t` now; there may be
more strings, and those that were there are as they were. -/
def Leads (L : Nat → Option Nat) (strs : List Region) (w : World) (t : Tables)
    (r : Option DbugHeap) (w' : World) : Prop :=
  ∀ d, r = some d → ∃ strs', strs ⊆ strs' ∧ (∀ o ∈ strs, cells w'.mem o = cells w.mem o) ∧
    InMemory L strs' t d w'

section
variable {L : Nat → Option Nat} {strs strs' : List Region} {t t' : Tables} {d d' : DbugHeap}
  {w w' w'' : World} {m m' : Mem 64 Byte} {c c' : NgxArrayT} {a : NgxArray} {word : CStr}
  {p k j : Nat}

theorem leads_none : Leads L strs w t none w' := fun _ hx =>
  absurd hx.symm (Option.some_ne_none _)

theorem InMemory.stays (h : InMemory L strs t d w) : Leads L strs w t (some d) w := by
  rintro _ ⟨⟩
  exact ⟨strs, List.Subset.refl _, fun _ _ => rfl, h⟩

/-- What was reached before counts as well. -/
theorem Leads.after {r : Option DbugHeap} (h : Leads L strs' w' t r w'') (hsub : strs ⊆ strs')
    (hkept : ∀ o ∈ strs, cells w'.mem o = cells w.mem o) : Leads L strs w t r w'' := by
  intro d hd
  obtain ⟨strs₂, hsub₂, hk₂, hshown⟩ := h d hd
  exact ⟨strs₂, List.Subset.trans hsub hsub₂,
    fun o ho => (hk₂ o (hsub ho)).trans (hkept o ho), hshown⟩

/-- The rule of sequence. -/
theorem Leads.seq {f : DbugHeap → Pool (Option DbugHeap)} {r : Option DbugHeap}
    (h : Leads L strs w t r w')
    (hf : ∀ strs' d, r = some d → InMemory L strs' t d w' →
      wp poolKernel Harmless (f d) (Leads L strs' w' t') w') :
    wp poolKernel Harmless
      (match r with
        | none => (return none : Pool (Option DbugHeap))
        | some d => f d) (Leads L strs w t') w' := by
  cases r with
  | none => exact leads_none
  | some d =>
      obtain ⟨strs₁, hsub₁, hk₁, h₁⟩ := h d rfl
      exact wp_mono (fun _ _ h₂ => h₂.after hsub₁ hk₁) (hf strs₁ d rfl h₁)

theorem slot_within (hk : k < c.nalloc) : (c.slot k).Within c.room := by
  have hle : c.size * (k + 1) ≤ c.size * c.nalloc := Nat.mul_le_mul_left _ hk
  rw [Nat.mul_add] at hle
  simp only [NgxArrayT.slot, NgxArrayT.room, Region.Within, Region.fin_mk]
  omega

theorem slot_apart (hne : k ≠ j) : (c.slot k).Apart (c.slot j) := by
  simp only [NgxArrayT.slot, Region.Apart, Region.fin_mk]
  rcases Nat.lt_or_gt_of_ne hne with hlt | hgt
  · have hle : c.size * (k + 1) ≤ c.size * j := Nat.mul_le_mul_left _ hlt
    rw [Nat.mul_add] at hle
    omega
  · have hle : c.size * (j + 1) ≤ c.size * k := Nat.mul_le_mul_left _ hgt
    rw [Nat.mul_add] at hle
    omega

/-- The slots before the `k`-th, and those that are not in use. -/
theorem front_within (hk : k ≤ c.nalloc) : Region.Within ⟨c.elts, c.size * k⟩ c.room :=
  ⟨Nat.le_refl _, Nat.add_le_add_left (Nat.mul_le_mul_left _ hk) _⟩

theorem front_apart : Region.Apart ⟨c.elts, c.size * k⟩ (c.slot k) := .inl (Nat.le_refl _)

theorem tail_within (hok : c.Ok) : c.tail.Within c.room := by
  refine ⟨Nat.le_add_right _ _, ?_⟩
  have hle : c.size * c.nelts + c.size * (c.nalloc - c.nelts) = c.size * c.nalloc := by
    rw [← Nat.mul_add, Nat.add_sub_cancel' hok.used]
  simp only [NgxArrayT.tail, NgxArrayT.room, Region.fin_mk]
  omega

theorem tail_apart (hk : k < c.nelts) : c.tail.Apart (c.slot k) := by
  have hle : c.size * (k + 1) ≤ c.size * c.nelts := Nat.mul_le_mul_left _ hk
  rw [Nat.mul_add] at hle
  simp only [NgxArrayT.slot, NgxArrayT.tail, Region.Apart, Region.fin_mk]
  omega

/-- A push keeps the slots that were there, and the others are zero. -/
theorem Slots.slot {pool : NgxPool} {x : Ptr} (hs : Slots pool w c x c' w') (hx : x ≠ none)
    (hsize : c'.size = c.size) :
    (∀ k < c.nalloc, cells w'.mem (c'.slot k) = cells w.mem (c.slot k)) ∧
      (Blank pool.spans w.mem → ∀ k < c'.nalloc, c.nalloc ≤ k →
        cells w'.mem (c'.slot k) = .replicate c.size 0) := by
  have hnalloc := hs.nalloc hx
  constructor
  · intro k hk
    have hpart : c.size * (k + 1) ≤ c.size * c.nalloc := Nat.mul_le_mul_left _ hk
    rw [NgxArrayT.slot, hsize]
    exact cells_part_congr hpart (hs.old hx)
  · intro hb k hk hge
    have h₁ : c.size * c.nalloc ≤ c.size * k := Nat.mul_le_mul_left _ hge
    have h₂ : c.size * (k + 1) ≤ c.size * c'.nalloc := Nat.mul_le_mul_left _ hk
    have h₃ : c.size * c.nalloc + c.size * (c'.nalloc - c.nalloc) = c.size * c'.nalloc := by
      rw [← Nat.mul_add, Nat.add_sub_cancel' hnalloc]
    rw [Nat.mul_add] at h₂
    rw [NgxArrayT.slot, hsize]
    refine cells_zero_part (s := ⟨_, c.size⟩) ?_ (hs.new hx hb)
    simp only [Region.Within, Region.fin_mk]
    omega

theorem IsSlot.frame {bytes : List Byte} {x : NgxStr} (h : IsSlot m strs bytes x)
    (hsub : strs ⊆ strs') (hkept : ∀ o ∈ strs, cells m' o = cells m o) :
    IsSlot m' strs' bytes x := by
  cases x with
  | none => exact h
  | some t =>
      obtain ⟨p, hp, ht, hbytes⟩ := h
      exact ⟨p, hsub hp, ⟨ht.1, (hkept _ hp).trans ht.2⟩, hbytes⟩

theorem CmdShown.frame (h : CmdShown m strs c a) (hsub : strs ⊆ strs')
    (hroom : cells m' c.room = cells m c.room) (hkept : ∀ o ∈ strs, cells m' o = cells m o) :
    CmdShown m' strs' c a := by
  refine ⟨h.ok, h.size, h.nelts, ?_, h.behind⟩
  intro k hk
  rw [cells_eq_within (slot_within hk) hroom]
  exact (h.slots k hk).frame hsub hkept

theorem CmdShown.clear (h : CmdShown m strs c a) : CmdShown m strs c.clear a.clear :=
  ⟨⟨h.ok.size, h.ok.nalloc, Nat.zero_le _, h.ok.aligned⟩, h.size, rfl, h.slots, h.behind⟩

/-- One more string, in the slot behind those in use. -/
theorem CmdShown.push (h : CmdShown m strs c a) (hok : c'.Ok)
    (hsame : c'.size = c.size ∧ c'.nelts = c.nelts + 1 ∧ c.nalloc ≤ c'.nalloc)
    (hkept : ∀ o ∈ strs, cells m' o = cells m o)
    (hold : ∀ k < c.nalloc, k ≠ c.nelts → cells m' (c'.slot k) = cells m (c.slot k))
    (hnew : ∀ k < c'.nalloc, c.nalloc ≤ k → k ≠ c.nelts →
      cells m' (c'.slot k) = .replicate sizeofStr 0)
    (hput : cells m' (c'.slot c.nelts) = strBytes word.length p) (ht : IsStr m' p word) :
    CmdShown m' (⟨p, word.length + 1⟩ :: strs) c' (a.push (some word)) := by
  obtain ⟨hsize, hnelts, hnalloc⟩ := hsame
  have hused := hok.used
  refine ⟨hok, hsize.trans h.size, ?_, ?_, ?_⟩
  · rw [hnelts, h.nelts, NgxArray.nelts_push]
  · intro k hk
    rw [NgxArray.slot_push, ← h.nelts]
    by_cases hkn : k = c.nelts
    · rw [if_pos hkn, hkn, hput]
      exact ⟨p, List.mem_cons_self, ht, rfl⟩
    · rw [if_neg hkn]
      rcases Nat.lt_or_ge k c.nalloc with hlt | hge
      · rw [hold k hlt hkn]
        exact (h.slots k hlt).frame (List.subset_cons_self _ _) hkept
      · rw [hnew k hk hge hkn, h.behind k hge]
        rfl
  · intro k hk
    rw [NgxArray.slot_push, ← h.nelts, if_neg (by omega)]
    exact h.behind k (by omega)

/-- What does not touch the entries leaves them. -/
theorem entries_frame {b : NgxArrayT} {es : List (List Byte)} (hb : Lists m b es)
    (ht : cells m b.tail = .replicate b.tail.size 0) (hk : cells m' b.room = cells m b.room) :
    Lists m' b es ∧ cells m' b.tail = .replicate b.tail.size 0 := by
  refine ⟨hb.frame hk, ?_⟩
  rw [← ht]
  exact cells_eq_within (tail_within hb.ok) hk

/-! ## A word -/

theorem wp_putWord (h : InMemory L strs t d w) (h0 : 0 ∉ word) :
    wp poolKernel Harmless (putWord d word)
      (Leads L strs w { t with cmd := t.cmd.push (some word) }) w := by
  rw [putWord]
  refine wp_seq (wp_copyWord h.holds) ?_
  rintro ⟨x, pool₁⟩ w₁ ⟨hold₁, hk₁, hstr⟩
  cases x with
  | none => exact leads_none
  | some p =>
      have hold₁' : pool₁.Holds L 4096 [] w₁.heap (d.cmd.head :: d.cmd.room ::
          ⟨p, word.length + 1⟩ :: d.bps.head :: d.bps.room :: strs) := by
        have hgiven : pool₁.Holds L 4096 [] w₁.heap (⟨p, word.length + 1⟩ ::
            ([d.cmd.head, d.cmd.room] ++ d.bps.head :: d.bps.room :: strs)) := hold₁
        exact hgiven.perm List.perm_middle.symm
      refine wp_seq (wp_ngxArrayPush_slots hold₁' h.cmd.ok) ?_
      rintro ⟨y, cmd₂, pool₂⟩ w₂ ⟨hp, hs⟩
      cases y with
      | none => exact leads_none
      | some a =>
          dsimp only at hp hs hk₁
          obtain ⟨hok, ⟨-, hsize, hnelts⟩, ha, hold₂, -⟩ := hp.made a rfl
          have hslot : cmd₂.slot d.cmd.nelts = ⟨a, sizeofStr⟩ := by
            rw [NgxArrayT.slot, hsize, ← ha, h.cmd.size]
          have hlt : d.cmd.nelts < cmd₂.nalloc := by
            have hused := hok.used
            omega
          have hin : Region.Within ⟨a, sizeofStr⟩ cmd₂.room := hslot ▸ slot_within hlt
          have hp₂ : cells w₂.mem ⟨p, word.length + 1⟩ = word ++ [0] :=
            (hp.keeps.kept _ List.mem_cons_self).trans (hstr p rfl)
          refine wp_seq (wp_setStr (t := word) (p := p) (hold₂.perm (List.Perm.swap ..)) hin
            (by simp) ⟨h0, hp₂⟩) ?_
          intro _ w₃ h₃
          rintro d' ⟨⟩
          have hk : Keeps d.pool w (d.bps.head :: d.bps.room :: strs) pool₂ w₃ := by
            refine ((hk₁.sub ?_).trans hp.keeps (List.subset_cons_self _ _)).trans h₃.keeps ?_
            · intro o ho
              simp [ho]
            · intro o ho
              simp [ho]
          have hother : ∀ k < cmd₂.nalloc, k ≠ d.cmd.nelts →
              cells w₃.mem (cmd₂.slot k) = cells w₂.mem (cmd₂.slot k) := fun k hk hne =>
            h₃.rest _ (slot_within hk) (hslot ▸ slot_apart hne)
          have hslots := hs.slot (Option.some_ne_none a) hsize
          have hnalloc := hs.nalloc (Option.some_ne_none a)
          obtain ⟨hbps, htail⟩ := entries_frame h.bps h.tail (hk.kept _ (by simp))
          refine ⟨⟨p, word.length + 1⟩ :: strs, List.subset_cons_self _ _,
            fun o ho => hk.kept o (by simp [ho]), ?_, hk.blank h.blank, ?_, hbps, h.entry, htail⟩
          · refine h₃.holds.perm (List.perm_iff_count.mpr fun o => ?_)
            simp only [List.count_cons]
            omega
          · refine h.cmd.push hok ⟨hsize, hnelts, hnalloc⟩ (fun o ho => hk.kept o (by simp [ho]))
              ?_ ?_ (hslot ▸ h₃.bytes) ⟨h0, (h₃.keeps.kept _ (by simp)).trans hp₂⟩
            · intro k hk hne
              rw [hother k (Nat.lt_of_lt_of_le hk hnalloc) hne, hslots.1 k hk]
              exact cells_eq_within (slot_within hk) (hk₁.kept _ (by simp))
            · intro k hk hge hne
              rw [hother k hk hne, hslots.2 (hk₁.blank h.blank) k hk hge, h.cmd.size]

/-! ## A line -/

/-- The loops of `get_command`. -/
theorem wp_putWords {n : Nat} {buf : List Byte} (h : InMemory L strs t d w) (h0 : 0 ∉ buf) :
    wp poolKernel Harmless (putWords n buf d)
      (Leads L strs w { t with cmd := tokenLoop n buf t.cmd }) w := by
  induction n generalizing buf strs t d w with
  | zero => exact h.stays
  | succ n ih =>
      cases buf with
      | nil => exact h.stays
      | cons c cs =>
          have hcs : 0 ∉ cs := fun hin => h0 (List.mem_cons_of_mem _ hin)
          rw [putWords, tokenLoop]
          by_cases hc : c = 32
          · rw [if_pos hc, if_pos hc]
            exact ih h hcs
          · rw [if_neg hc, if_neg hc]
            cases (c :: cs).findIdx? isspace with
            | none => exact ih h hcs
            | some k =>
                refine wp_seq (wp_putWord h fun hin => h0 (List.mem_of_mem_take hin)) ?_
                intro r w₁ h₁
                refine h₁.seq fun strs₁ d₁ _ hd₁ => ?_
                exact ih hd₁ fun hin => h0 (List.mem_of_mem_drop hin)

theorem text_no_zero (line : Line) : 0 ∉ text line := by
  intro hin
  have hall := List.all_takeWhile (l := (line.map Subtype.val).getD []) (p := fun c => c ≠ 0)
  have hz := List.all_eq_true.mp hall 0 hin
  simp at hz

/-- `get_command` leaves in memory what `takeLine` leaves in the list. -/
theorem wp_putLine (h : InMemory L strs t d w) (line : Line) :
    wp poolKernel Harmless (putLine d line)
      (Leads L strs w { t with cmd := takeLine t.cmd line }) w := by
  have hclear : InMemory L strs { t with cmd := t.cmd.clear } { d with cmd := d.cmd.clear } w :=
    ⟨h.holds, h.blank, h.cmd.clear, h.bps, h.entry, h.tail⟩
  exact wp_putWords hclear (text_no_zero line)

/-! ## An entry -/

/-- The entry with these fields set. -/
def record (fields : List (Nat × List Byte)) : List Byte :=
  fields.foldl overwrite (.replicate sizeofBreakpoint 0)

theorem length_record {fields : List (Nat × List Byte)} (hfit : Fit sizeofBreakpoint fields) :
    (record fields).length = sizeofBreakpoint := by
  have hgo : ∀ (fs : List (Nat × List Byte)) (bs : List Byte), bs.length = sizeofBreakpoint →
      Fit sizeofBreakpoint fs → (fs.foldl overwrite bs).length = sizeofBreakpoint := by
    intro fs
    induction fs with
    | nil => exact fun _ hbs _ => hbs
    | cons f fs ih =>
        intro bs hbs hfs
        refine ih _ ?_ fun g hg => hfs g (List.mem_cons_of_mem _ hg)
        rw [length_overwrite (hbs ▸ hfs f List.mem_cons_self), hbs]
  exact hgo fields _ (List.length_replicate ..) hfit

/-- The handlers of `b` and `watch` append an entry, made of zeros and their fields. -/
theorem wp_putEntry {fields : List (Nat × List Byte)} (h : InMemory L strs t d w)
    (hfit : Fit sizeofBreakpoint fields) :
    wp poolKernel Harmless (putEntry d fields)
      (Leads L strs w { t with bps := t.bps ++ [record fields] }) w := by
  have hold : d.pool.Holds L 4096 [] w.heap
      (d.bps.head :: d.bps.room :: d.cmd.head :: d.cmd.room :: strs) := by
    refine h.holds.perm (List.perm_iff_count.mpr fun o => ?_)
    simp only [List.count_cons]
    omega
  rw [putEntry]
  refine wp_seq (wp_ngxArrayPush hold h.bps.ok) ?_
  rintro ⟨x, bps₁, pool₁⟩ w₁ hp
  cases x with
  | none => exact leads_none
  | some a =>
      dsimp only at hp
      obtain ⟨hok, ⟨-, hsize, hnelts⟩, ha, hold₁, helts⟩ := hp.made a rfl
      obtain ⟨hz, htail⟩ := hp.fresh h.blank h.tail a rfl
      have hused := hok.used
      have hlt : d.bps.nelts < bps₁.nelts := by omega
      have hslot : bps₁.slot d.bps.nelts = ⟨a, sizeofBreakpoint⟩ := by
        rw [NgxArrayT.slot, hsize, ha, h.entry]
      have hin : Region.Within ⟨a, sizeofBreakpoint⟩ bps₁.room := hslot ▸ slot_within (by omega)
      refine wp_seq (wp_storeFields (hold₁.perm (List.Perm.swap ..)) hin hfit) ?_
      intro _ w₂ h₂
      rintro d' ⟨⟩
      have hk : Keeps d.pool w (d.cmd.head :: d.cmd.room :: strs) pool₁ w₂ :=
        hp.keeps.trans h₂.keeps (List.subset_cons_self _ _)
      have hrec : cells w₂.mem ⟨a, sizeofBreakpoint⟩ = record fields := by
        rw [Nat.mul_one, h.entry] at hz
        rw [h₂.bytes, hz, record]
      have hfront : cells w₂.mem ⟨bps₁.elts, bps₁.size * d.bps.nelts⟩ = t.bps.flatten := by
        rw [h₂.rest _ (front_within (by omega)) (hslot ▸ front_apart), hsize, helts, h.bps.bytes]
      have hback : cells w₂.mem bps₁.tail = .replicate bps₁.tail.size 0 := by
        rw [h₂.rest _ (tail_within hok) (hslot ▸ tail_apart hlt), htail]
      rw [h.entry] at hsize
      have hsplit : bps₁.used = ⟨bps₁.elts, bps₁.size * d.bps.nelts + sizeofBreakpoint⟩ := by
        rw [NgxArrayT.used, hnelts, hsize]
        rfl
      have hend : bps₁.elts + bps₁.size * d.bps.nelts = a := by
        rw [ha, hsize, h.entry]
      refine ⟨strs, List.Subset.refl _, fun o ho => hk.kept o (by simp [ho]), ?_,
        hk.blank h.blank, ?_, ?_, hsize, hback⟩
      · refine h₂.holds.perm (List.perm_iff_count.mpr fun o => ?_)
        simp only [List.count_cons]
        omega
      · exact h.cmd.frame (List.Subset.refl _) (hk.kept _ (by simp)) fun o ho =>
          hk.kept o (by simp [ho])
      · refine ⟨hok, ?_, ?_, ?_⟩
        · simp [hnelts, h.bps.length]
        · intro e he
          rw [hsize]
          rcases List.mem_append.mp he with he | he
          · exact (h.bps.size e he).trans h.entry
          · obtain rfl := List.mem_singleton.mp he
            exact length_record hfit
        · rw [hsplit, cells_add, hfront, hend, hrec, List.flatten_append, List.flatten_singleton]

/-! ## An argument vector -/

/-- NULL, or the address of a string among `strs`. -/
def IsPtr (m : Mem 64 Byte) (strs : List Region) (bytes : List Byte) : Option CStr → Prop
  | none => bytes = .replicate 8 0
  | some t => ∃ p, ⟨p, t.length + 1⟩ ∈ strs ∧ IsStr m p t ∧ bytes = toBytes (.ofNat 64 p)

theorem IsPtr.frame {bytes : List Byte} {x : Option CStr} (h : IsPtr m strs bytes x)
    (hsub : strs ⊆ strs') (hkept : ∀ o ∈ strs, cells m' o = cells m o) :
    IsPtr m' strs' bytes x := by
  cases x with
  | none => exact h
  | some t =>
      obtain ⟨p, hp, ht, hbytes⟩ := h
      exact ⟨p, hsub hp, ⟨ht.1, (hkept _ hp).trans ht.2⟩, hbytes⟩

/-- The second word of a slot. -/
theorem IsSlot.data {b : Nat} {x : NgxStr} (h : IsSlot m strs (cells m ⟨b, sizeofStr⟩) x) :
    IsPtr m strs (cells m ⟨b + 8, 8⟩) x := by
  have hsplit : cells m ⟨b, sizeofStr⟩ = cells m ⟨b, 8⟩ ++ cells m ⟨b + 8, 8⟩ := cells_add b 8 8
  cases x with
  | none =>
      have hz : cells m ⟨b, 8⟩ ++ cells m ⟨b + 8, 8⟩ = .replicate 8 0 ++ .replicate 8 0 :=
        hsplit.symm.trans h
      exact (List.append_inj hz (by simp)).2
  | some t =>
      obtain ⟨p, hp, ht, hbytes⟩ := h
      have hz := hsplit.symm.trans hbytes
      exact ⟨p, hp, ht, (List.append_inj hz (by simp)).2⟩

/-- The loop copies the second words of the slots from the first on. -/
theorem wp_argvLoop {pool : NgxPool} {os : List Region} {o : Region} {n argv i total : Nat}
    (hold : pool.Holds L 4096 [] w.heap (o :: os)) (hin : Region.Within ⟨argv, 8 * total⟩ o)
    (hroom : c.room ∈ os) (hsize : c.size = sizeofStr) (hn : i + n = total)
    (htotal : total < c.nalloc) :
    wp poolKernel Harmless (argvLoop c.elts argv n i)
      (fun _ w' => pool.Holds L 4096 [] w'.heap (o :: os) ∧ Keeps pool w os pool w' ∧
        (∀ j < i, cells w'.mem ⟨argv + 8 * j, 8⟩ = cells w.mem ⟨argv + 8 * j, 8⟩) ∧
        ∀ j < total, i ≤ j →
          cells w'.mem ⟨argv + 8 * j, 8⟩ = cells w.mem ⟨(c.slot (j + 1)).start + 8, 8⟩) w := by
  induction n generalizing i w with
  | zero =>
      refine ⟨hold, .refl .., fun _ _ => rfl, fun j hj hge => ?_⟩
      omega
  | succ n ih =>
      have hdata : Region.Within ⟨(c.slot (i + 1)).start + 8, 8⟩ c.room := by
        refine Region.Within.trans ?_ (slot_within (k := i + 1) (by omega))
        simp only [NgxArrayT.slot, hsize, sizeofStr, Region.Within, Region.fin_mk]
        omega
      have hcov := (hold.covers (List.mem_cons_of_mem _ hroom)).within hdata
      have hfits := hcov.fits
      simp only [NgxArrayT.slot, hsize, sizeofStr, Region.fin_mk] at hfits
      have haddr : padd c.elts (16 * (i + 1) + 8) = (c.slot (i + 1)).start + 8 := by
        rw [padd_eq (by omega), NgxArrayT.slot, hsize, sizeofStr, Nat.add_assoc]
      rw [argvLoop, haddr]
      refine wp_ask hcov ?_
      rintro data w₁ ⟨rfl, rfl⟩
      have hcell : Region.Within ⟨argv + 8 * i, 8⟩ o := by
        refine Region.Within.trans ?_ hin
        simp only [Region.Within, Region.fin_mk]
        omega
      have hstore : padd argv (8 * i) = padd (argv + 8 * i) 0 := rfl
      rw [hstore]
      refine wp_seq (wp_storeIn (n := 8) hold hcell (by simp)) ?_
      intro _ w₂ h₂
      refine wp_mono ?_ (ih (i := i + 1) h₂.holds (by omega))
      rintro _ w₃ ⟨hold₃, hk₃, hdone, htodo⟩
      refine ⟨hold₃, h₂.keeps.trans hk₃ (List.Subset.refl _), ?_, ?_⟩
      · intro j hj
        rw [hdone j (by omega)]
        refine h₂.rest _ ?_ ?_
        · refine Region.Within.trans ?_ hin
          simp only [Region.Within, Region.fin_mk]
          omega
        · simp only [Region.Apart, Region.fin_mk]
          omega
      · intro j hj hge
        rcases Nat.eq_or_lt_of_le hge with rfl | hlt
        · rw [hdone i (by omega), h₂.bytes]
          simp [overwrite]
        · rw [htodo j hj (by omega)]
          have hslot : (c.slot (j + 1)).Within c.room := slot_within (by omega)
          refine cells_eq_within (Region.Within.trans ?_ hslot) (h₂.keeps.kept _ hroom)
          simp only [NgxArrayT.slot, hsize, sizeofStr, Region.Within, Region.fin_mk]
          omega

/-- What `command_dbug` gives to `execvp`, for a line that has not filled the array. -/
def Argv (L : Nat → Option Nat) (strs : List Region) (w : World) (t : Tables)
    (r : Option (Nat × DbugHeap)) (w' : World) : Prop :=
  ∀ argv d, r = some (argv, d) → ∃ strs', strs ⊆ strs' ∧
    (∀ o ∈ strs, cells w'.mem o = cells w.mem o) ∧ InMemory L strs' t d w' ∧
    ∀ j < t.cmd.nelts, ⟨argv, 8 * t.cmd.nelts⟩ ∈ strs' ∧
      IsPtr w'.mem strs' (cells w'.mem ⟨argv + 8 * j, 8⟩) (t.cmd.slot (j + 1))

theorem wp_putArgv (h : InMemory L strs t d w) (hroom : d.cmd.nelts < d.cmd.nalloc) :
    wp poolKernel Harmless (putArgv d) (Argv L strs w t) w := by
  rw [putArgv]
  rcases Nat.eq_zero_or_pos d.cmd.nelts with hnil | hpos
  · rw [hnil, Nat.mul_zero]
    refine wp_seq (wp_ngxPcalloc_zero h.holds) ?_
    rintro ⟨_, pool₁⟩ w₁ ⟨⟨argv, rfl⟩, hold₁, hk₁⟩
    obtain ⟨hbps, htail⟩ := entries_frame h.bps h.tail (hk₁.kept _ (by simp))
    have hstrs : ∀ o ∈ strs, cells w₁.mem o = cells w.mem o := fun o ho => hk₁.kept o (by simp [ho])
    rintro _ _ ⟨⟩
    refine ⟨strs, List.Subset.refl _, hstrs,
      ⟨hold₁, hk₁.blank h.blank, ?_, hbps, h.entry, htail⟩, ?_⟩
    · exact h.cmd.frame (List.Subset.refl _) (hk₁.kept _ (by simp)) hstrs
    · intro j hj
      rw [← h.cmd.nelts, hnil] at hj
      omega
  · refine wp_seq (wp_ngxPcalloc h.holds (Nat.mul_pos (by decide) hpos)) ?_
    rintro ⟨x, pool₁⟩ w₁ ⟨hg, -, -⟩
    cases x with
    | none => exact fun _ _ hx => absurd hx.symm (Option.some_ne_none _)
    | some argv =>
        dsimp only at hg
        have hloop := wp_argvLoop (c := d.cmd) (n := d.cmd.nelts) (i := 0) hg.holds
          (.refl _) (by simp) h.cmd.size (Nat.zero_add _) hroom
        refine wp_seq hloop ?_
        rintro _ w₂ ⟨hold₂, hk₂, -, hargv⟩
        have hk := hg.keeps.trans hk₂ (List.Subset.refl _)
        obtain ⟨hbps, htail⟩ := entries_frame h.bps h.tail (hk.kept _ (by simp))
        have hstrs : ∀ o ∈ strs, cells w₂.mem o = cells w.mem o := fun o ho =>
          hk.kept o (by simp [ho])
        have hcmd := h.cmd.frame (List.subset_cons_self ⟨argv, 8 * d.cmd.nelts⟩ _)
          (hk.kept _ (by simp)) hstrs
        rintro _ _ ⟨⟩
        refine ⟨⟨argv, 8 * d.cmd.nelts⟩ :: strs, List.subset_cons_self _ _, hstrs,
          ⟨?_, hk.blank h.blank, hcmd, hbps, h.entry, htail⟩, ?_⟩
        · have hgiven : pool₁.Holds L 4096 [] w₂.heap (⟨argv, 8 * d.cmd.nelts⟩ ::
              ([d.cmd.head, d.cmd.room, d.bps.head, d.bps.room] ++ strs)) := hold₂
          exact hgiven.perm List.perm_middle.symm
        · intro j hj
          rw [← h.cmd.nelts] at hj ⊢
          refine ⟨List.mem_cons_self, ?_⟩
          have hslot : (d.cmd.slot (j + 1)).Within d.cmd.room := slot_within (by omega)
          have hword : Region.Within ⟨(d.cmd.slot (j + 1)).start + 8, 8⟩ d.cmd.room := by
            refine Region.Within.trans ?_ hslot
            simp only [NgxArrayT.slot, h.cmd.size, sizeofStr, Region.Within, Region.fin_mk]
            omega
          have hshown := hcmd.slots (j + 1) (by omega)
          have hsame : d.cmd.slot (j + 1) = ⟨(d.cmd.slot (j + 1)).start, sizeofStr⟩ := by
            rw [NgxArrayT.slot, h.cmd.size]
          rw [hargv j hj (Nat.zero_le _), ← cells_eq_within hword (hk₂.kept _ (by simp))]
          rw [hsame] at hshown
          exact hshown.data

end

end TestDbug
