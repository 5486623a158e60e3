/-
# `TestDbug.Elf` — the function table out of the image of a program

`elf_parse.c` behind `get_pid_base`: `open_funs` loads the file into a block of
its own and reads the table out of that.  The image may hold anything, and the
pointers computed from it may lead anywhere, so the functions are programs over
the requests `ImgReq`: every read with its address, every entry stored.

Offsets into the image are 64-bit words, as the sums they come from.
`wp_openFuns` says for any memory which reads the functions make and which
table they leave; what it is for a well-formed file, for any file and for a
loaded program is said in `Symbols`, `Bounds` and `Bases`.
-/
import TestDbug.Loading

open ByteMemory Interaction

namespace TestDbug

/-! ## Reading an image -/

/-- `struct func_org` in the table; the name is a pointer. -/
structure FuncPtr where
  name : Word
  addr : Word
deriving DecidableEq

inductive ImgReq where
  | read (p : Word) (n : Nat)
  | calloc (size : Nat)
  | store (i : Nat) (f : FuncPtr)
  | segv

/-- The number read; whether the block is there. -/
abbrev ImgResp : ImgReq → Type
  | .read _ _ => Nat
  | .calloc _ => Bool
  | .store _ _ => Unit
  | .segv => Empty

abbrev Img (α : Type) := Prog ImgReq ImgResp α

/-- Issue one request. -/
abbrev imgReq (r : ImgReq) : Img (ImgResp r) := Prog.req r

/-- A field of `n` bytes. -/
def readNum (p : Word) (n : Nat) : Img Nat := imgReq (.read p n)

/-- A field of eight bytes. -/
def readWord (p : Word) : Img Word := do
  return BitVec.ofNat 64 (← readNum p 8)

/-- `strcmp(s, p) == 0`; it reads up to the first difference, or to the NUL. -/
def strcmpEq : CStr → Word → Img Bool
  | [], p => do
      return (← readNum p 1) = 0
  | c :: cs, p => do
      if (← readNum p 1) = c.toNat then strcmpEq cs (p + 1) else return false

/-- `&stables[i]`, with `sizeof(Elf64_Shdr)` bytes each. -/
def shdrAt (stables : Word) (i : Nat) : Word := stables + BitVec.ofNat 64 (i * 64)

/-- `&syns[i]`, with `sizeof(Elf64_Sym)` bytes each. -/
def symAt (syns : Word) (i : Nat) : Word := syns + BitVec.ofNat 64 (i * 24)

/-- The loop of `get_section_addr` from `i` on, with `n` headers to go. -/
def sectionLoop (stables shstrtab : Word) (name : CStr) : Nat → Nat → Img (Option Nat)
  | 0, _ => return none
  | n + 1, i => do
      let shName ← readNum (shdrAt stables i) 4
      if ← strcmpEq name (shstrtab + BitVec.ofNat 64 shName) then return some i
      else sectionLoop stables shstrtab name n (i + 1)

/-- `get_section_addr`: the pointer, and `*sectionsize`, an `int`, behind the call. -/
def getSectionAddr (stables word : Word) (tableMax shstrndx : Nat) (name : CStr) (size : Int) :
    Img (Word × Int) :=
  if stables = 0 ∨ word = 0 then return (0, size)
  else do
    let shstrtab ← readWord (shdrAt stables shstrndx + 24)
    match ← sectionLoop stables (word + shstrtab) name tableMax 0 with
    | some i => do
        let shSize ← readNum (shdrAt stables i + 32) 8
        let shOffset ← readWord (shdrAt stables i + 24)
        return (word + shOffset, (shSize : Int).bmod (2 ^ 32))
    | none => return (0, size)

def STT_FUNC : Nat := 2

/-- The loop of `get_all_func` from `i` on, with `n` symbols to go and `count`
entries stored. -/
def funcLoop (syns strtab base : Word) : Nat → Nat → Nat → Img Nat
  | 0, _, count => return count
  | n + 1, i, count => do
      let info ← readNum (symAt syns i + 4) 1
      if info % 16 = STT_FUNC then do
        let value ← readWord (symAt syns i + 8)
        if value ≠ 0 then do
          let name ← readNum (symAt syns i) 4
          imgReq (.store count ⟨strtab + BitVec.ofNat 64 name, value + base⟩)
          funcLoop syns strtab base n (i + 1) (count + 1)
        else
          funcLoop syns strtab base n (i + 1) count
      else
        funcLoop syns strtab base n (i + 1) count

/-- `get_all_func`; it returns the new `funs->size`. -/
def getAllFunc (syns strtab base : Word) (size : Int) : Img Nat :=
  funcLoop syns strtab base size.toNat 0 0

/-- `size/sizeof(Elf64_Sym)`: an `int` divided as a `size_t` and cut to an `int`. -/
def symCount (size : Int) : Int := (size % 2 ^ 64 / 24).bmod (2 ^ 32)

/-- `sizeof(struct fun_arr) + sizeof(struct func_org) * size`, a `size_t`. -/
def funsBytes (size : Int) : Nat := ((16 + 16 * size) % 2 ^ 64).toNat

/-- `open_funs` on the image loaded at `word`; `base` is what `get_pid_base`
has returned.  It returns `funs->size`. -/
def openFuns (word base : Word) : Img Nat := do
  let tableMax ← readNum (word + 60) 2
  let shstrndx ← readNum (word + 62) 2
  let stables := word + (← readWord (word + 40))
  let (syns, size) ← getSectionAddr stables word tableMax shstrndx
    (lit ['.', 's', 'y', 'm', 't', 'a', 'b']) 0
  let (strtab, _) ← getSectionAddr stables word tableMax shstrndx
    (lit ['.', 's', 't', 'r', 't', 'a', 'b']) 0
  if ← imgReq (.calloc (funsBytes (symCount size))) then
    getAllFunc syns strtab base (symCount size)
  else do
    let e ← imgReq .segv
    nomatch e

/-! ### The kernel -/

/-- Reads are of the memory, the state is the table.  No block is larger than
`PTRDIFF_MAX`. -/
def imgHandler (mem : Mem 64 Byte) : Handler ImgResp (List FuncPtr)
  | .read p n, s => some (natOfBytes (load mem p n), s)
  | .calloc size, s =>
      if size < 2 ^ 63 then some (true, List.replicate ((size - 16) / 16) ⟨0, 0⟩)
      else some (false, s)
  | .store i f, s => some ((), s.set i f)
  | .segv, _ => none

/-- Reads are in `R` and names in `N`, both by their offset from `word`; an
entry is stored in a slot of the table. -/
def Within (word : Word) (R : Word → Nat → Prop) (N : Word → Prop) : ImgReq → List FuncPtr → Prop
  | .read p n, _ => R (p - word) n
  | .calloc _, _ => True
  | .store i f, s => i < s.length ∧ N (f.name - word)
  | .segv, _ => False

/-- `I` says of the requests that reads are in `R` and names in `N`, and nothing
else of those that `open_funs` makes. -/
structure Allows (I : ImgReq → List FuncPtr → Prop) (word : Word) (R : Word → Nat → Prop)
    (N : Word → Prop) : Prop where
  read : ∀ p n s, I (.read p n) s ↔ R (p - word) n
  calloc : ∀ size s, I (.calloc size) s
  store : ∀ i f s, i < s.length → (I (.store i f) s ↔ N (f.name - word))
  segv : ∀ s, ¬I .segv s

theorem allows_within (word : Word) (R : Word → Nat → Prop) (N : Word → Prop) :
    Allows (Within word R N) word R N where
  read _ _ _ := Iff.rfl
  calloc _ _ := trivial
  store _ _ _ hi := and_iff_right hi
  segv _ h := h

/-- To be answered says nothing of the addresses. -/
theorem allows_answered (mem : Mem 64 Byte) (word : Word) :
    Allows (fun r s => (imgHandler mem r s).isSome = true) word (fun _ _ => True)
      (fun _ => True) where
  read _ _ _ := iff_of_true rfl trivial
  calloc size s := by
    rw [imgHandler]
    split <;> rfl
  store _ _ _ _ := iff_of_true rfl trivial
  segv _ h := by cases h

/-! ## What lies in the image -/

section
variable {mem img : Mem 64 Byte} {word off base : Word} {R : Word → Nat → Prop} {N : Word → Prop}
  {s : List FuncPtr} {n i : Nat} {I : ImgReq → List FuncPtr → Prop}

theorem wp_readNum (hI : Allows I word R N) {Q : Nat → List FuncPtr → Prop} :
    wp (imgHandler mem).kernel I (readNum (word + off) n) Q s ↔
      R off n ∧ Q (numAt (imageAt mem word) off n) s := by
  rw [readNum, wp_req, hI.read, BitVec.add_comm word off, BitVec.add_sub_cancel]
  refine and_congr_right fun _ => ?_
  rw [numAt, ← load_imageAt, BitVec.add_comm word off]
  constructor
  · exact fun h => h _ _ rfl
  · rintro h x s' hx
    obtain ⟨rfl, rfl⟩ := Prod.mk.inj (Option.some.inj hx)
    exact h

theorem wp_readWord (hI : Allows I word R N) {Q : Word → List FuncPtr → Prop} :
    wp (imgHandler mem).kernel I (readWord (word + off)) Q s ↔
      R off 8 ∧ Q (wordAt (imageAt mem word) off) s := by
  rw [readWord, wp_bind, wp_readNum hI]
  exact Iff.rfl

/-! ### Names -/

/-- The bytes of a name, up to its NUL. -/
def StrAt (img : Mem 64 Byte) (off : Word) (name : CStr) : Prop :=
  load img off (name.length + 1) = name ++ [0]

instance decStrAt (img : Mem 64 Byte) (off : Word) (name : CStr) : Decidable (StrAt img off name) :=
  inferInstanceAs (Decidable (load img off (name.length + 1) = name ++ [0]))

/-- `strcmp` reads the bytes of a name as long as those before are equal. -/
def Compared (R : Word → Nat → Prop) (img : Mem 64 Byte) (name : CStr) (off : Word) : Prop :=
  ∀ k ≤ name.length, load img off k = name.take k → R (off + BitVec.ofNat 64 k) 1

theorem compared_nil : Compared R img [] off ↔ R off 1 := by
  constructor
  · intro h
    have := h 0 (Nat.le_refl 0) rfl
    rwa [BitVec.add_zero] at this
  · intro h k hk _
    obtain rfl := Nat.le_zero.mp hk
    rwa [BitVec.add_zero]

theorem compared_cons {c : Byte} {cs : CStr} :
    Compared R img (c :: cs) off ↔ R off 1 ∧ (img off = c → Compared R img cs (off + 1)) := by
  constructor
  · intro h
    refine ⟨?_, fun hc k hk hload => ?_⟩
    · have := h 0 (Nat.zero_le _) rfl
      rwa [BitVec.add_zero] at this
    · have := h (k + 1) (Nat.succ_le_succ hk) (by rw [load, List.take_succ_cons, hc, hload])
      rwa [← add_one_add_ofNat] at this
  · rintro ⟨h0, h⟩ k hk hload
    cases k with
    | zero => rwa [BitVec.add_zero]
    | succ k =>
        rw [load, List.take_succ_cons, List.cons.injEq] at hload
        rw [← add_one_add_ofNat]
        exact h hload.1 k (Nat.le_of_succ_le_succ hk) hload.2

theorem numAt_one (img : Mem 64 Byte) (off : Word) : numAt img off 1 = (img off).toNat := by
  simp [numAt, load, natOfBytes]

theorem strAt_cons {c : Byte} {cs : CStr} :
    StrAt img off (c :: cs) ↔ img off = c ∧ StrAt img (off + 1) cs := by
  rw [StrAt, List.length_cons, load, List.cons_append, List.cons.injEq]
  exact Iff.rfl

theorem strAt_nil : StrAt img off [] ↔ img off = 0 := by
  rw [StrAt, List.length_nil, load, List.nil_append, List.cons.injEq]
  exact and_iff_left rfl

theorem wp_strcmpEq (hI : Allows I word R N) {name : CStr} {Q : Bool → List FuncPtr → Prop} :
    wp (imgHandler mem).kernel I (strcmpEq name (word + off)) Q s ↔
      Compared R (imageAt mem word) name off ∧
        Q (decide (StrAt (imageAt mem word) off name)) s := by
  induction name generalizing off with
  | nil =>
      have hnul : decide (numAt (imageAt mem word) off 1 = 0) =
          decide (StrAt (imageAt mem word) off []) := by
        rw [decide_eq_decide, numAt_one, strAt_nil]
        exact BitVec.toNat_inj (y := 0)
      rw [strcmpEq, wp_bind, wp_readNum hI, compared_nil, ← hnul]
      exact Iff.rfl
  | cons c cs ih =>
      rw [strcmpEq, wp_bind, wp_readNum hI, compared_cons, numAt_one, and_assoc]
      refine and_congr_right fun _ => ?_
      by_cases hc : imageAt mem word off = c
      · have hstr : decide (StrAt (imageAt mem word) off (c :: cs)) =
            decide (StrAt (imageAt mem word) (off + 1) cs) := by
          rw [decide_eq_decide, strAt_cons, and_iff_right hc]
        rw [if_pos (congrArg BitVec.toNat hc), hstr, BitVec.add_assoc, ih]
        exact and_congr_left' ⟨fun h _ => h, fun h => h hc⟩
      · have hstr : decide (StrAt (imageAt mem word) off (c :: cs)) = false := by
          rw [decide_eq_false_iff_not, strAt_cons]
          exact fun h => hc h.1
        rw [if_neg (fun h => hc (BitVec.eq_of_toNat_eq h)), hstr]
        exact (and_iff_right fun h => absurd h hc).symm

/-! ### Sections -/

/-- `e_shoff`, `e_shnum`, `e_shstrndx`. -/
def shoff (img : Mem 64 Byte) : Word := wordAt img 40

def shnum (img : Mem 64 Byte) : Nat := numAt img 60 2

def shstrndx (img : Mem 64 Byte) : Nat := numAt img 62 2

/-- Where the header of section `i` is. -/
def shdr (img : Mem 64 Byte) (i : Nat) : Word := shdrAt (shoff img) i

/-- `sh_offset` and `sh_size`. -/
def shOffset (img : Mem 64 Byte) (i : Nat) : Word := wordAt img (shdr img i + 24)

def shSize (img : Mem 64 Byte) (i : Nat) : Nat := numAt img (shdr img i + 32) 8

/-- Where the name of section `i` is. -/
def shName (img : Mem 64 Byte) (i : Nat) : Word :=
  shOffset img (shstrndx img) + BitVec.ofNat 64 (numAt img (shdr img i) 4)

/-- The first section of this name. -/
def findSection (img : Mem 64 Byte) (name : CStr) : Option Nat :=
  (List.range (shnum img)).find? (fun i => StrAt img (shName img i) name)

/-- `word + e_shoff` or `word` is NULL. -/
def NoHeaders (word : Word) (img : Mem 64 Byte) : Prop := word + shoff img = 0 ∨ word = 0

instance decNoHeaders (word : Word) (img : Mem 64 Byte) : Decidable (NoHeaders word img) :=
  inferInstanceAs (Decidable (word + shoff img = 0 ∨ word = 0))

/-- What `get_section_addr` finds, as an offset from `word`, and the size. -/
def sectionAt (word : Word) (img : Mem 64 Byte) (name : CStr) : Word × Int :=
  if NoHeaders word img then (-word, 0)
  else
    match findSection img name with
    | some i => (shOffset img i, (shSize img i : Int).bmod (2 ^ 32))
    | none => (-word, 0)

/-- `A` holds of the numbers from `i` to the first one in `P`. -/
def UpTo (P A : Nat → Prop) (i n : Nat) : Prop :=
  ∀ j, i ≤ j → j < i + n → (∀ k, i ≤ k → k < j → ¬P k) → A j

theorem upTo_zero {P A : Nat → Prop} {i : Nat} : UpTo P A i 0 :=
  fun _ hij hj => absurd hij (Nat.not_le.mpr hj)

theorem upTo_succ {P A : Nat → Prop} {i n : Nat} :
    UpTo P A i (n + 1) ↔ A i ∧ (¬P i → UpTo P A (i + 1) n) := by
  constructor
  · intro h
    refine ⟨h i (Nat.le_refl i) (by omega) fun k hik hki => by omega, fun hi j hij hj hk => ?_⟩
    refine h j (by omega) (by omega) fun k hik hkj => ?_
    by_cases heq : k = i
    · rw [heq]
      exact hi
    · exact hk k (by omega) hkj
  · rintro ⟨h, ht⟩ j hij hj hk
    by_cases heq : j = i
    · rw [heq]
      exact h
    · exact ht (hk i (Nat.le_refl i) (by omega)) j (by omega) (by omega)
        fun k hik hkj => hk k (by omega) hkj

instance decUpTo {P A : Nat → Prop} [DecidablePred P] [DecidablePred A] (i n : Nat) :
    Decidable (UpTo P A i n) :=
  decidable_of_iff (∀ d < n, (∀ e < d, ¬P (i + e)) → A (i + d)) <| by
    constructor
    · intro h j hij hj hk
      have := h (j - i) (by omega) fun e he => hk (i + e) (by omega) (by omega)
      rwa [Nat.add_sub_cancel' hij] at this
    · intro h d hd hk
      refine h (i + d) (by omega) (by omega) fun k hik hkd => ?_
      have := hk (k - i) (by omega)
      rwa [Nat.add_sub_cancel' hik] at this

/-- What `get_section_addr` reads in its search for a name. -/
def Searches (R : Word → Nat → Prop) (img : Mem 64 Byte) (name : CStr) (i n : Nat) : Prop :=
  UpTo (fun j => StrAt img (shName img j) name)
    (fun j => R (shdr img j) 4 ∧ Compared R img name (shName img j)) i n

/-- All it reads. -/
def Searched (R : Word → Nat → Prop) (word : Word) (img : Mem 64 Byte) (name : CStr) : Prop :=
  NoHeaders word img ∨
    (R (shdr img (shstrndx img) + 24) 8 ∧ Searches R img name 0 (shnum img) ∧
      ∀ i ∈ findSection img name, R (shdr img i + 32) 8 ∧ R (shdr img i + 24) 8)

instance decCompared {R : Word → Nat → Prop} [∀ off n, Decidable (R off n)] (img : Mem 64 Byte)
    (name : CStr) (off : Word) : Decidable (Compared R img name off) :=
  decidable_of_iff (∀ k < name.length + 1, load img off k = name.take k →
    R (off + BitVec.ofNat 64 k) 1) <| by
      simp only [Compared, Nat.lt_succ_iff]

instance decSearched {R : Word → Nat → Prop} [∀ off n, Decidable (R off n)] (word : Word)
    (img : Mem 64 Byte) (name : CStr) : Decidable (Searched R word img name) :=
  inferInstanceAs (Decidable (NoHeaders word img ∨
    (R (shdr img (shstrndx img) + 24) 8 ∧
      UpTo (fun j => StrAt img (shName img j) name)
        (fun j => R (shdr img j) 4 ∧ Compared R img name (shName img j)) 0 (shnum img) ∧
      ∀ i ∈ findSection img name, R (shdr img i + 32) 8 ∧ R (shdr img i + 24) 8)))

theorem shdrAt_add (word so : Word) (i : Nat) : shdrAt (word + so) i = word + shdrAt so i :=
  BitVec.add_assoc _ _ _

theorem wp_sectionLoop (hI : Allows I word R N) (name : CStr) (n i : Nat)
    {Q : Option Nat → List FuncPtr → Prop} :
    wp (imgHandler mem).kernel I
        (sectionLoop (word + shoff (imageAt mem word))
          (word + shOffset (imageAt mem word) (shstrndx (imageAt mem word))) name n i) Q s ↔
      Searches R (imageAt mem word) name i n ∧
        Q ((List.range' i n).find?
          (fun j => StrAt (imageAt mem word) (shName (imageAt mem word) j) name)) s := by
  induction n generalizing i with
  | zero =>
      rw [sectionLoop]
      exact (and_iff_right upTo_zero).symm
  | succ n ih =>
      rw [sectionLoop, wp_bind, shdrAt_add, ← shdr, wp_readNum hI, wp_bind, BitVec.add_assoc,
        ← shName, wp_strcmpEq hI, Searches, upTo_succ, List.range'_succ, and_assoc, and_assoc]
      refine and_congr_right fun _ => and_congr_right fun _ => ?_
      by_cases hname : StrAt (imageAt mem word) (shName (imageAt mem word) i) name
      · rw [if_pos (decide_eq_true hname), List.find?_cons_of_pos (by simpa using hname)]
        exact (and_iff_right fun h => absurd hname h).symm
      · rw [if_neg (fun h => hname (of_decide_eq_true h)),
          List.find?_cons_of_neg (by simpa using hname), ih]
        exact and_congr_left' ⟨fun h _ => h, fun h => h hname⟩

theorem wp_getSectionAddr (hI : Allows I word R N) (name : CStr)
    {Q : Word × Int → List FuncPtr → Prop} :
    wp (imgHandler mem).kernel I
        (getSectionAddr (word + shoff (imageAt mem word)) word (shnum (imageAt mem word))
          (shstrndx (imageAt mem word)) name 0) Q s ↔
      Searched R word (imageAt mem word) name ∧
        Q (word + (sectionAt word (imageAt mem word) name).1,
          (sectionAt word (imageAt mem word) name).2) s := by
  have hnull : word + -word = 0 := BitVec.add_right_neg word
  rw [getSectionAddr, sectionAt, Searched]
  by_cases hno : word + shoff (imageAt mem word) = 0 ∨ word = 0
  · rw [if_pos hno, if_pos (show NoHeaders word (imageAt mem word) from hno), hnull]
    exact (and_iff_right (Or.inl hno)).symm
  · have hyes : ¬NoHeaders word (imageAt mem word) := hno
    rw [if_neg hno, if_neg hyes, wp_bind, shdrAt_add, BitVec.add_assoc, wp_readWord hI, wp_bind,
      or_iff_right hyes, and_assoc]
    refine and_congr_right fun _ => ?_
    rw [← shdr, ← shOffset, wp_sectionLoop hI, ← List.range_eq_range', ← findSection, and_assoc]
    refine and_congr_right fun _ => ?_
    cases hfind : findSection (imageAt mem word) name with
    | none =>
        rw [hnull]
        exact (and_iff_right fun i hi => by cases hi).symm
    | some i =>
        dsimp only
        rw [wp_bind, shdrAt_add, BitVec.add_assoc, wp_readNum hI, wp_bind, BitVec.add_assoc,
          wp_readWord hI, ← and_assoc]
        refine and_congr ⟨?_, fun h => h i rfl⟩ Iff.rfl
        rintro h j hj
        obtain rfl := Option.some.inj hj
        exact h

/-! ### Symbols -/

/-- `st_info`, `st_value` and `st_name` of symbol `i` of the table at `syns`. -/
def stInfo (img : Mem 64 Byte) (syns : Word) (i : Nat) : Nat := numAt img (symAt syns i + 4) 1

def stValue (img : Mem 64 Byte) (syns : Word) (i : Nat) : Word := wordAt img (symAt syns i + 8)

def stName (img : Mem 64 Byte) (syns : Word) (i : Nat) : Nat := numAt img (symAt syns i) 4

/-- A symbol that `get_all_func` records. -/
def Recorded (img : Mem 64 Byte) (syns : Word) (i : Nat) : Prop :=
  stInfo img syns i % 16 = STT_FUNC ∧ stValue img syns i ≠ 0

instance decRecorded (img : Mem 64 Byte) (syns : Word) (i : Nat) :
    Decidable (Recorded img syns i) :=
  inferInstanceAs (Decidable (stInfo img syns i % 16 = STT_FUNC ∧ stValue img syns i ≠ 0))

/-- What it reads of a symbol, and the name it stores. -/
def SymRead (R : Word → Nat → Prop) (N : Word → Prop) (img : Mem 64 Byte) (syns strtab : Word)
    (i : Nat) : Prop :=
  R (symAt syns i + 4) 1 ∧ (stInfo img syns i % 16 = STT_FUNC →
    R (symAt syns i + 8) 8 ∧ (stValue img syns i ≠ 0 →
      R (symAt syns i) 4 ∧ N (strtab + BitVec.ofNat 64 (stName img syns i))))

instance decSymRead {R : Word → Nat → Prop} {N : Word → Prop} [∀ off n, Decidable (R off n)]
    [DecidablePred N] (img : Mem 64 Byte) (syns strtab : Word) (i : Nat) :
    Decidable (SymRead R N img syns strtab i) :=
  inferInstanceAs (Decidable (R (symAt syns i + 4) 1 ∧ (stInfo img syns i % 16 = STT_FUNC →
    R (symAt syns i + 8) 8 ∧ (stValue img syns i ≠ 0 →
      R (symAt syns i) 4 ∧ N (strtab + BitVec.ofNat 64 (stName img syns i))))))

/-- The entry for a symbol. -/
def funcPtr (img : Mem 64 Byte) (word base syns strtab : Word) (i : Nat) : FuncPtr :=
  ⟨word + (strtab + BitVec.ofNat 64 (stName img syns i)), stValue img syns i + base⟩

/-- The entries for those of the symbols `is` that are recorded. -/
def entries (img : Mem 64 Byte) (word base syns strtab : Word) (is : List Nat) : List FuncPtr :=
  (is.filter (fun i => Recorded img syns i)).map (funcPtr img word base syns strtab)

theorem entries_cons_pos {syns strtab : Word} {is : List Nat} (h : Recorded img syns i) :
    entries img word base syns strtab (i :: is) =
      funcPtr img word base syns strtab i :: entries img word base syns strtab is := by
  rw [entries, List.filter_cons_of_pos (by simpa using h)]
  rfl

theorem entries_cons_neg {syns strtab : Word} {is : List Nat} (h : ¬Recorded img syns i) :
    entries img word base syns strtab (i :: is) = entries img word base syns strtab is := by
  rw [entries, List.filter_cons_of_neg (by simpa using h)]
  rfl

/-- The table with these entries from slot `count` on. -/
def putAll : List FuncPtr → Nat → List FuncPtr → List FuncPtr
  | s, _, [] => s
  | s, count, f :: fs => putAll (s.set count f) (count + 1) fs

theorem take_putAll (s : List FuncPtr) (count : Nat) (fs : List FuncPtr)
    (h : count + fs.length ≤ s.length) :
    (putAll s count fs).take (count + fs.length) = s.take count ++ fs := by
  induction fs generalizing s count with
  | nil => simp [putAll]
  | cons f fs ih =>
      rw [List.length_cons] at h
      have hlen : count + 1 + fs.length ≤ (s.set count f).length := by
        rw [List.length_set]
        omega
      rw [putAll, List.length_cons, Nat.add_comm fs.length, ← Nat.add_assoc, ih _ _ hlen,
        List.take_succ_eq_append_getElem (by rw [List.length_set]; omega), List.getElem_set_self,
        List.take_set_of_le (Nat.le_refl count), List.append_assoc]
      rfl

theorem symAt_add (word syns : Word) (i : Nat) : symAt (word + syns) i = word + symAt syns i :=
  BitVec.add_assoc _ _ _

theorem wp_funcLoop (hI : Allows I word R N) (base syns strtab : Word) {n i count : Nat}
    (hroom : count + n ≤ s.length) {Q : Nat → List FuncPtr → Prop} :
    wp (imgHandler mem).kernel I
        (funcLoop (word + syns) (word + strtab) base n i count) Q s ↔
      (∀ j ∈ List.range' i n, SymRead R N (imageAt mem word) syns strtab j) ∧
        Q (count + (entries (imageAt mem word) word base syns strtab (List.range' i n)).length)
          (putAll s count
            (entries (imageAt mem word) word base syns strtab (List.range' i n))) := by
  induction n generalizing i count s with
  | zero =>
      rw [funcLoop]
      exact (and_iff_right fun j hj => by cases hj).symm
  | succ n ih =>
      rw [funcLoop, wp_bind, symAt_add, BitVec.add_assoc, wp_readNum hI, ← stInfo, List.range'_succ,
        List.forall_mem_cons, SymRead, and_assoc, and_assoc]
      refine and_congr_right fun _ => ?_
      by_cases hfunc : stInfo (imageAt mem word) syns i % 16 = STT_FUNC
      · rw [if_pos hfunc, forall_prop_of_true hfunc, wp_bind, BitVec.add_assoc, wp_readWord hI,
          ← stValue, and_assoc]
        refine and_congr_right fun _ => ?_
        by_cases hval : stValue (imageAt mem word) syns i ≠ 0
        · have hrec : Recorded (imageAt mem word) syns i := ⟨hfunc, hval⟩
          rw [if_pos hval, forall_prop_of_true hval, wp_bind, wp_readNum hI, ← stName, wp_bind,
            wp_req, entries_cons_pos hrec, and_assoc]
          refine and_congr_right fun _ => ?_
          have hslot : count < s.length := by omega
          have hroom' : count + 1 + n ≤
              (s.set count (funcPtr (imageAt mem word) word base syns strtab i)).length := by
            rw [List.length_set]
            omega
          have hnext := ih (i := i + 1) hroom'
          have hname : word + strtab + BitVec.ofNat 64 (stName (imageAt mem word) syns i) - word =
              strtab + BitVec.ofNat 64 (stName (imageAt mem word) syns i) := by
            rw [BitVec.add_assoc, BitVec.add_comm word, BitVec.add_sub_cancel]
          rw [hI.store _ _ _ hslot, hname, List.length_cons, putAll,
            Nat.add_comm (List.length _), ← Nat.add_assoc, ← hnext]
          refine and_congr_right fun _ => ?_
          constructor
          · intro h
            exact h () _ (by rw [BitVec.add_assoc]; rfl)
          · rintro h x s' hx
            obtain ⟨-, rfl⟩ := Prod.mk.inj (Option.some.inj hx)
            rw [BitVec.add_assoc]
            exact h
        · have hrec : ¬Recorded (imageAt mem word) syns i := fun h => hval h.2
          rw [if_neg hval, ih (by omega), entries_cons_neg hrec]
          exact (and_iff_right fun h => absurd h hval).symm
      · have hrec : ¬Recorded (imageAt mem word) syns i := fun h => hfunc h.1
        rw [if_neg hfunc, ih (by omega), entries_cons_neg hrec]
        exact (and_iff_right fun h => absurd h hfunc).symm

/-! ### The table -/

/-- `.symtab` and `.strtab`, by offset and size. -/
def symtab (word : Word) (img : Mem 64 Byte) : Word × Int :=
  sectionAt word img (lit ['.', 's', 'y', 'm', 't', 'a', 'b'])

def strtab (word : Word) (img : Mem 64 Byte) : Word × Int :=
  sectionAt word img (lit ['.', 's', 't', 'r', 't', 'a', 'b'])

/-- The symbols gone through. -/
def symbols (word : Word) (img : Mem 64 Byte) : List Nat :=
  List.range ((symtab word img).2 / 24).toNat

/-- The table of the image. -/
def table (word base : Word) (img : Mem 64 Byte) : List FuncPtr :=
  entries img word base (symtab word img).1 (strtab word img).1 (symbols word img)

/-- Every read of the image is in `R`, every name in `N`, and there is a number
of symbols. -/
structure Reads (R : Word → Nat → Prop) (N : Word → Prop) (word : Word) (img : Mem 64 Byte) :
    Prop where
  e_shnum : R 60 2
  e_shstrndx : R 62 2
  e_shoff : R 40 8
  for_symtab : Searched R word img (lit ['.', 's', 'y', 'm', 't', 'a', 'b'])
  for_strtab : Searched R word img (lit ['.', 's', 't', 'r', 't', 'a', 'b'])
  size : 0 ≤ (symtab word img).2
  syms : ∀ i ∈ symbols word img, SymRead R N img (symtab word img).1 (strtab word img).1 i

instance decReads {R : Word → Nat → Prop} {N : Word → Prop} [∀ off n, Decidable (R off n)]
    [DecidablePred N] (word : Word) (img : Mem 64 Byte) : Decidable (Reads R N word img) :=
  decidable_of_iff (R 60 2 ∧ R 62 2 ∧ R 40 8 ∧
      Searched R word img (lit ['.', 's', 'y', 'm', 't', 'a', 'b']) ∧
      Searched R word img (lit ['.', 's', 't', 'r', 't', 'a', 'b']) ∧
      0 ≤ (symtab word img).2 ∧
      ∀ i ∈ symbols word img, SymRead R N img (symtab word img).1 (strtab word img).1 i)
    ⟨fun ⟨h₁, h₂, h₃, h₄, h₅, h₆, h₇⟩ => ⟨h₁, h₂, h₃, h₄, h₅, h₆, h₇⟩,
      fun h => ⟨h.e_shnum, h.e_shstrndx, h.e_shoff, h.for_symtab, h.for_strtab, h.size, h.syms⟩⟩

theorem sectionAt_int (word : Word) (img : Mem 64 Byte) (name : CStr) :
    -2 ^ 31 ≤ (sectionAt word img name).2 ∧ (sectionAt word img name).2 < 2 ^ 31 := by
  have hzero : -2 ^ 31 ≤ (0 : Int) ∧ (0 : Int) < 2 ^ 31 := by decide
  rw [sectionAt]
  split
  · exact hzero
  · split
    · rename_i i _
      have hlow := Int.le_bmod (x := (shSize img i : Int)) (m := 2 ^ 32) (by decide)
      have hhigh := Int.bmod_lt (x := (shSize img i : Int)) (m := 2 ^ 32) (by decide)
      dsimp only
      omega
    · exact hzero

/-- A size that is none gives a number of symbols that is none, and the block
asked for is too large. -/
theorem symCount_neg {size : Int} (hlow : -2 ^ 31 ≤ size) (hneg : size < 0) :
    ¬funsBytes (symCount size) < 2 ^ 63 := by
  rw [funsBytes, symCount, Int.bmod_def]
  split <;> omega

theorem symCount_nonneg {size : Int} (hpos : 0 ≤ size) (hhigh : size < 2 ^ 31) :
    symCount size = size / 24 := by
  rw [symCount, Int.bmod_def]
  split <;> omega

theorem funsBytes_nonneg {size : Int} (hpos : 0 ≤ size) (hhigh : size < 2 ^ 31) :
    funsBytes size = 16 + 16 * size.toNat := by
  rw [funsBytes]
  omega

/-- The end of `open_funs`: the block for the table, and the table in it. -/
theorem wp_filled (hI : Allows I word R N) {syns strtab : Word} {size : Int} (hlow : -2 ^ 31 ≤ size)
    (hhigh : size < 2 ^ 31) {Q : Nat → List FuncPtr → Prop} :
    (∀ x s', (imgHandler mem).kernel (.calloc (funsBytes (symCount size))) s x s' →
        wp (imgHandler mem).kernel I
          (if x = true then getAllFunc (word + syns) (word + strtab) base (symCount size)
            else do
              let e ← imgReq .segv
              nomatch e) Q s') ↔
      0 ≤ size ∧
        (∀ i ∈ List.range (size / 24).toNat, SymRead R N (imageAt mem word) syns strtab i) ∧
        Q (entries (imageAt mem word) word base syns strtab
            (List.range (size / 24).toNat)).length
          (putAll (List.replicate (size / 24).toNat ⟨0, 0⟩) 0
            (entries (imageAt mem word) word base syns strtab (List.range (size / 24).toNat))) := by
  by_cases hpos : 0 ≤ size
  · have hcount := symCount_nonneg hpos hhigh
    have hbytes : funsBytes (symCount size) = 16 + 16 * (size / 24).toNat := by
      rw [hcount]
      exact funsBytes_nonneg (by omega) (by omega)
    have hfits : funsBytes (symCount size) < 2 ^ 63 := by
      rw [hbytes]
      omega
    have hslots : (funsBytes (symCount size) - 16) / 16 = (size / 24).toNat := by
      rw [hbytes]
      omega
    have hroom : 0 + (size / 24).toNat ≤
        (List.replicate (size / 24).toNat (⟨0, 0⟩ : FuncPtr)).length := by
      rw [List.length_replicate, Nat.zero_add]
    rw [and_iff_right hpos]
    constructor
    · intro h
      have hrun := h true _ (by rw [Handler.kernel, imgHandler, if_pos hfits])
      rw [if_pos rfl, getAllFunc, hslots, hcount, wp_funcLoop hI _ _ _ hroom,
        ← List.range_eq_range', Nat.zero_add] at hrun
      exact hrun
    · rintro h x s' hx
      rw [Handler.kernel, imgHandler, if_pos hfits] at hx
      obtain ⟨rfl, rfl⟩ := Prod.mk.inj (Option.some.inj hx)
      rw [if_pos rfl, getAllFunc, hslots, hcount, wp_funcLoop hI _ _ _ hroom,
        ← List.range_eq_range', Nat.zero_add]
      exact h
  · have hbig := symCount_neg hlow (Int.not_le.mp hpos)
    refine iff_of_false (fun h => ?_) (fun h => hpos h.1)
    exact hI.segv s (h false s (by rw [Handler.kernel, imgHandler, if_neg hbig])).1

/-- **What `open_funs` does with an image**, whatever it holds: the reads it makes,
and the table it leaves. -/
theorem wp_openFuns (hI : Allows I word R N) (base : Word) {Q : Nat → List FuncPtr → Prop} :
    wp (imgHandler mem).kernel I (openFuns word base) Q s ↔
      Reads R N word (imageAt mem word) ∧
        Q (table word base (imageAt mem word)).length
          (putAll (List.replicate (symbols word (imageAt mem word)).length ⟨0, 0⟩) 0
            (table word base (imageAt mem word))) := by
  have hsize := sectionAt_int word (imageAt mem word) (lit ['.', 's', 'y', 'm', 't', 'a', 'b'])
  rw [← symtab] at hsize
  rw [openFuns, wp_bind, wp_readNum hI, wp_bind, wp_readNum hI, wp_bind, wp_readWord hI, ← shnum,
    ← shstrndx, ← shoff, wp_bind, wp_getSectionAddr hI, ← symtab]
  dsimp only
  rw [wp_bind, wp_getSectionAddr hI, ← strtab]
  dsimp only
  rw [wp_bind, wp_req, table, symbols, List.length_range]
  constructor
  · rintro ⟨h60, h62, h40, hsyms, hstrs, -, h⟩
    obtain ⟨hpos, hread, hQ⟩ := (wp_filled hI hsize.1 hsize.2).mp h
    exact ⟨⟨h60, h62, h40, hsyms, hstrs, hpos, hread⟩, hQ⟩
  · rintro ⟨⟨h60, h62, h40, hsyms, hstrs, hpos, hread⟩, hQ⟩
    exact ⟨h60, h62, h40, hsyms, hstrs, hI.calloc _ _,
      (wp_filled hI hsize.1 hsize.2).mpr ⟨hpos, hread, hQ⟩⟩

theorem reads_true {img : Mem 64 Byte} :
    Reads (fun _ _ => True) (fun _ => True) word img ↔ 0 ≤ (symtab word img).2 := by
  have hsearched : ∀ name, Searched (fun _ _ => True) word img name := fun name =>
    Or.inr ⟨trivial, fun _ _ _ _ => ⟨trivial, fun _ _ _ => trivial⟩, fun _ _ => ⟨trivial, trivial⟩⟩
  constructor
  · exact fun h => h.size
  · exact fun h => ⟨trivial, trivial, trivial, hsearched _, hsearched _, h,
      fun i _ => ⟨trivial, fun _ => ⟨trivial, fun _ => ⟨trivial, trivial⟩⟩⟩⟩

/-- `open_funs` comes to its end unless the size is none, and leaves the table. -/
theorem meets_openFuns (base : Word) (Q : Nat → List FuncPtr → Prop) :
    Meets (imgHandler mem) (openFuns word base) Q s ↔
      0 ≤ (symtab word (imageAt mem word)).2 ∧
        Q (table word base (imageAt mem word)).length
          (putAll (List.replicate (symbols word (imageAt mem word)).length ⟨0, 0⟩) 0
            (table word base (imageAt mem word))) := by
  rw [meets_iff_wp, wp_openFuns (allows_answered mem word), reads_true]

/-- The first slots hold the table. -/
theorem take_table (base : Word) (img : Mem 64 Byte) :
    (putAll (List.replicate (symbols word img).length ⟨0, 0⟩) 0 (table word base img)).take
      (table word base img).length = table word base img := by
  have hlen : (table word base img).length ≤ (symbols word img).length := by
    rw [table, entries, List.length_map]
    exact List.length_filter_le _ _
  generalize table word base img = fs at hlen ⊢
  have htake := take_putAll (List.replicate (symbols word img).length ⟨0, 0⟩) 0 fs
    (by rw [List.length_replicate, Nat.zero_add]; exact hlen)
  rw [Nat.zero_add] at htake
  exact htake

end

/-! ## Files by the byte -/

/-- `Elf64_Ehdr` of an x86-64 program with one program header behind it. -/
def ehdrBytes (type shoff shnum shstrndx : Nat) : List Byte :=
  [0x7f, 0x45, 0x4c, 0x46, 2, 1, 1, 0] ++ bytesOfNat 8 0 ++ bytesOfNat 2 type ++
    bytesOfNat 2 62 ++ bytesOfNat 4 1 ++ bytesOfNat 8 0 ++ bytesOfNat 8 64 ++
    bytesOfNat 8 shoff ++ bytesOfNat 4 0 ++ bytesOfNat 2 64 ++ bytesOfNat 2 56 ++
    bytesOfNat 2 1 ++ bytesOfNat 2 64 ++ bytesOfNat 2 shnum ++ bytesOfNat 2 shstrndx

/-- `Elf64_Phdr` of a segment that holds the start of the file. -/
def phdrBytes (vaddr size : Nat) : List Byte :=
  bytesOfNat 4 1 ++ bytesOfNat 4 5 ++ bytesOfNat 8 0 ++ bytesOfNat 8 vaddr ++
    bytesOfNat 8 vaddr ++ bytesOfNat 8 size ++ bytesOfNat 8 size ++ bytesOfNat 8 0x1000

/-- `Elf64_Shdr`. -/
def shdrBytes (name type offset size : Nat) : List Byte :=
  bytesOfNat 4 name ++ bytesOfNat 4 type ++ bytesOfNat 8 0 ++ bytesOfNat 8 0 ++
    bytesOfNat 8 offset ++ bytesOfNat 8 size ++ bytesOfNat 4 0 ++ bytesOfNat 4 0 ++
    bytesOfNat 8 0 ++ bytesOfNat 8 0

/-- `Elf64_Sym`. -/
def symBytes (name info value : Nat) : List Byte :=
  bytesOfNat 4 name ++ bytesOfNat 1 info ++ bytesOfNat 1 0 ++ bytesOfNat 2 1 ++
    bytesOfNat 8 value ++ bytesOfNat 8 0

/-- The names of the sections at 120, those of the symbols at 137, and at 144
the symbols: none, and the function `f`. -/
def fileData (f : Nat) : List Byte :=
  0 :: lit ['.', 's', 'y', 'm', 't', 'a', 'b'] ++
    0 :: lit ['.', 's', 't', 'r', 't', 'a', 'b'] ++ [0] ++ (0 :: lit ['f'] ++ [0]) ++
    bytesOfNat 4 0 ++ symBytes 0 0 0 ++ symBytes 1 0x12 f

/-- A program of one function; the segment is at `vaddr`, the section headers at 192. -/
def smallFile (type vaddr f : Nat) : List Byte :=
  ehdrBytes type 192 4 3 ++ phdrBytes vaddr 448 ++ fileData f ++ shdrBytes 0 0 0 0 ++
    shdrBytes 1 2 144 48 ++ shdrBytes 9 3 137 3 ++ shdrBytes 0 3 120 17

/-- A memory with the file at `word`. -/
def memoryWith (word : Word) (file : List Byte) : Mem 64 Byte :=
  store (fun _ => 0) word (file ++ [0])

end TestDbug
