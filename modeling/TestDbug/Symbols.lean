/-
# `TestDbug.Symbols` — the function table of a file

What an ELF64 file says about its function symbols, field by field
(`functionSymbols`), and the table that `open_funs` makes of its image.  They
agree on every well-formed file whose section count is in `e_shnum`
(`table_extracted`).  A file with more sections than that field can hold keeps
the count in the first section header, which `open_funs` never looks at:
`many_sections_are_none` is such a file.
-/
import TestDbug.Elf
import TestDbug.Dbug
import Mathlib.Data.List.Find
import Mathlib.Data.List.GetD
import Mathlib.Data.List.TakeWhile

open ByteMemory Interaction

namespace TestDbug

/-! ## What the file says -/

/-- A field of `n` bytes. -/
def field (file : List Byte) (off n : Nat) : Nat := natOfBytes ((file.drop off).take n)

/-- The string at an offset, up to its NUL. -/
def cstrAt (file : List Byte) (off : Nat) : CStr := (file.drop off).takeWhile (· ≠ 0)

/-- There is a NUL to end it. -/
def Terminated (file : List Byte) (off : Nat) : Prop := 0 ∈ file.drop off

instance decTerminated (file : List Byte) (off : Nat) : Decidable (Terminated file off) :=
  inferInstanceAs (Decidable (0 ∈ file.drop off))

/-- What is used of an `Elf64_Shdr`. -/
structure Shdr where
  name : Nat
  offset : Nat
  size : Nat

def headerAt (file : List Byte) (i : Nat) : Nat := field file 40 8 + i * 64

def header (file : List Byte) (i : Nat) : Shdr where
  name := field file (headerAt file i) 4
  offset := field file (headerAt file i + 24) 8
  size := field file (headerAt file i + 32) 8

/-- The number of sections.  `e_shnum` is 0 if there is no section header, and
also if the number is too large for it: then it is the `sh_size` of the first. -/
def sectionCount (file : List Byte) : Nat :=
  if field file 60 2 = 0 ∧ field file 40 8 ≠ 0 then (header file 0).size else field file 60 2

/-- The section with the names of the sections; where `e_shstrndx` is too small
for it, it is the `sh_link` of the first. -/
def nameTable (file : List Byte) : Nat :=
  if field file 62 2 = 0xffff then field file (headerAt file 0 + 40) 4 else field file 62 2

/-- Where the name of section `i` is. -/
def nameAt (file : List Byte) (i : Nat) : Nat :=
  (header file (nameTable file)).offset + (header file i).name

def firstSection (file : List Byte) (name : CStr) : Option Nat :=
  (List.range (sectionCount file)).find? (fun i => cstrAt file (nameAt file i) = name)

def symtabSection (file : List Byte) : Option Nat :=
  firstSection file (lit ['.', 's', 'y', 'm', 't', 'a', 'b'])

def strtabSection (file : List Byte) : Option Nat :=
  firstSection file (lit ['.', 's', 't', 'r', 't', 'a', 'b'])

/-- The symbols of section `i`, by number. -/
def symbolsOf (file : List Byte) (i : Nat) : List Nat := List.range ((header file i).size / 24)

def symbolAt (file : List Byte) (i j : Nat) : Nat := (header file i).offset + j * 24

/-- A function with an address. -/
def IsFunction (file : List Byte) (i j : Nat) : Prop :=
  field file (symbolAt file i j + 4) 1 % 16 = STT_FUNC ∧ field file (symbolAt file i j + 8) 8 ≠ 0

instance decIsFunction (file : List Byte) (i j : Nat) : Decidable (IsFunction file i j) :=
  inferInstanceAs (Decidable (field file (symbolAt file i j + 4) 1 % 16 = STT_FUNC ∧
    field file (symbolAt file i j + 8) 8 ≠ 0))

/-- Where the name of a symbol of section `i` is, with the strings in section `k`. -/
def symbolName (file : List Byte) (i k j : Nat) : Nat :=
  (header file k).offset + field file (symbolAt file i j) 4

/-- A symbol with its address. -/
def functionOf (file : List Byte) (base : Word) (i k j : Nat) : FuncOrg where
  name := cstrAt file (symbolName file i k j)
  addr := BitVec.ofNat 64 (field file (symbolAt file i j + 8) 8) + base

/-- The function symbols of the first `.symtab`, with their names in the first
`.strtab`. -/
def functionSymbols (file : List Byte) (base : Word) : FunArr :=
  match symtabSection file, strtabSection file with
  | some i, some k =>
      ((symbolsOf file i).filter (fun j => IsFunction file i j)).map (functionOf file base i k)
  | _, _ => []

/-- The slots there are room for. -/
def slots (file : List Byte) : Nat :=
  match symtabSection file with
  | some i => (header file i).size / 24
  | none => 0

/-- Section `i` lies in the file, and its size is an `int`. -/
def InFile (file : List Byte) (i : Nat) : Prop :=
  (header file i).offset + (header file i).size ≤ file.length ∧ (header file i).size < 2 ^ 31

instance decInFile (file : List Byte) (i : Nat) : Decidable (InFile file i) :=
  inferInstanceAs (Decidable ((header file i).offset + (header file i).size ≤ file.length ∧
    (header file i).size < 2 ^ 31))

/-- An ELF64 file whose sections, as far as `open_funs` is to use them, lie in
the file. -/
structure IsElf64 (file : List Byte) : Prop where
  ident : file.take 6 = [0x7f, 0x45, 0x4c, 0x46, 2, 1]
  ehdr : 64 ≤ file.length
  headers : headerAt file (sectionCount file) ≤ file.length
  extended : field file 60 2 = 0 → field file 40 8 ≠ 0 → 0xff00 ≤ sectionCount file
  names : sectionCount file ≠ 0 → nameTable file < sectionCount file ∧ InFile file (nameTable file)
  name : ∀ i < sectionCount file, Terminated file (nameAt file i)
  symtab : ∀ i ∈ symtabSection file, InFile file i
  strtab : ∀ k ∈ strtabSection file, InFile file k
  strings : (symtabSection file).isSome = true → (strtabSection file).isSome = true
  string : ∀ i ∈ symtabSection file, ∀ k ∈ strtabSection file, ∀ j ∈ symbolsOf file i,
    IsFunction file i j → Terminated file (symbolName file i k j)

/-- The count and the name table are in `e_shnum` and `e_shstrndx`. -/
def PlainCount (file : List Byte) : Prop :=
  (field file 60 2 = 0 → field file 40 8 = 0) ∧ field file 62 2 ≠ 0xffff

instance decPlainCount (file : List Byte) : Decidable (PlainCount file) :=
  inferInstanceAs (Decidable ((field file 60 2 = 0 → field file 40 8 = 0) ∧
    field file 62 2 ≠ 0xffff))

/-- `open_funs` makes the table of the file: in slots it has allocated, in the
order of the symbols, each pointer to the name of its symbol. -/
def Extracts (mem : Mem 64 Byte) (word base : Word) (file : List Byte) : Prop :=
  Safe (imgHandler mem).kernel (Within word (fun _ _ => True) (fun _ => True))
      (openFuns word base) [] ∧
    Meets (imgHandler mem) (openFuns word base)
      (fun n t => t.length = slots file ∧ n = (functionSymbols file base).length ∧
        List.Forall₂ (fun f g => StrAt mem f.name g.name ∧ f.addr = g.addr)
          (t.take n) (functionSymbols file base)) []

/-! ## Fields in memory -/

theorem load_fileImage {file : List Byte} {off n : Nat} (h : off + n ≤ file.length)
    (hlen : file.length < 2 ^ 64) :
    load (fileImage file) (BitVec.ofNat 64 off) n = (file.drop off).take n := by
  apply List.ext_getElem?
  intro i
  rw [getElem?_load, List.getElem?_take]
  split
  · rename_i hi
    rw [← BitVec.ofNat_add, fileImage, BitVec.toNat_ofNat, Nat.mod_eq_of_lt (by omega),
      List.getElem?_drop, List.getD_eq_getElem _ _ (by omega), List.getElem?_eq_getElem (by omega)]
  · rfl

theorem field_lt (file : List Byte) (off n : Nat) : field file off n < 256 ^ n := by
  refine Nat.lt_of_lt_of_le (natOfBytes_lt _) (Nat.pow_le_pow_right (by decide) ?_)
  exact List.length_take_le _ _

section
variable {mem : Mem 64 Byte} {word base : Word} {file : List Byte} {off i j k n : Nat}

theorem Loaded.length_lt (h : Loaded mem word file (file.length + 1)) :
    word.toNat + file.length < 2 ^ 64 := by
  have := h.room
  omega

theorem Loaded.num (h : Loaded mem word file (file.length + 1)) (hoff : off + n ≤ file.length) :
    numAt (imageAt mem word) (BitVec.ofNat 64 off) n = field file off n := by
  have hlt := h.length_lt
  have hin : InBlock (file.length + 1) (BitVec.ofNat 64 off) n := by
    rw [InBlock, BitVec.toNat_ofNat, Nat.mod_eq_of_lt (by omega)]
    omega
  rw [numAt, h.load_eq hin, load_fileImage hoff (by omega), field]

theorem Loaded.wordAt_eq (h : Loaded mem word file (file.length + 1))
    (hoff : off + 8 ≤ file.length) :
    wordAt (imageAt mem word) (BitVec.ofNat 64 off) = BitVec.ofNat 64 (field file off 8) := by
  rw [wordAt, h.num hoff]

/-- A field at a fixed place behind the offset. -/
theorem Loaded.num_add (h : Loaded mem word file (file.length + 1)) (c : Nat)
    (hoff : off + c + n ≤ file.length) :
    numAt (imageAt mem word) (BitVec.ofNat 64 off + BitVec.ofNat 64 c) n =
      field file (off + c) n := by
  rw [← BitVec.ofNat_add]
  exact h.num hoff

theorem Loaded.wordAt_add (h : Loaded mem word file (file.length + 1)) (c : Nat)
    (hoff : off + c + 8 ≤ file.length) :
    wordAt (imageAt mem word) (BitVec.ofNat 64 off + BitVec.ofNat 64 c) =
      BitVec.ofNat 64 (field file (off + c) 8) := by
  rw [wordAt, h.num_add c hoff]

/-! ### Strings -/

theorem strAt_unique {img : Mem 64 Byte} {a : Word} {s t : CStr} (hs : StrAt img a s)
    (ht : StrAt img a t) (hs0 : 0 ∉ s) (ht0 : 0 ∉ t) : s = t := by
  induction s generalizing a t with
  | nil =>
      cases t with
      | nil => rfl
      | cons c t =>
          have hc := (strAt_cons.mp ht).1
          rw [strAt_nil.mp hs] at hc
          exact absurd (hc ▸ List.mem_cons_self) ht0
  | cons c s ih =>
      have hc := (strAt_cons.mp hs).1
      cases t with
      | nil =>
          rw [strAt_nil.mp ht] at hc
          exact absurd (hc ▸ List.mem_cons_self) hs0
      | cons d t =>
          rw [(strAt_cons.mp ht).1] at hc
          rw [hc, ih (strAt_cons.mp hs).2 (strAt_cons.mp ht).2
            (fun h => hs0 (List.mem_cons_of_mem _ h)) (fun h => ht0 (List.mem_cons_of_mem _ h))]

theorem zero_notMem_cstrAt (file : List Byte) (off : Nat) : 0 ∉ cstrAt file off := by
  intro h
  have := List.mem_takeWhile_imp h
  simp at this

/-- A string that has a NUL to end it stands there with the NUL. -/
theorem takeWhile_nul_prefix {l : List Byte} (h : 0 ∈ l) :
    l.takeWhile (· ≠ 0) ++ [0] <+: l := by
  induction l with
  | nil => cases h
  | cons c l ih =>
      by_cases hc : c = 0
      · rw [List.takeWhile_cons_of_neg (by simpa using hc), hc, List.nil_append]
        exact ⟨l, rfl⟩
      · rw [List.takeWhile_cons_of_pos (by simpa using hc), List.cons_append,
          List.prefix_cons_inj]
        exact ih ((List.mem_cons.mp h).resolve_left (Ne.symm hc))

theorem Loaded.str (h : Loaded mem word file (file.length + 1)) (hterm : Terminated file off) :
    StrAt (imageAt mem word) (BitVec.ofNat 64 off) (cstrAt file off) := by
  have hpre : cstrAt file off ++ [0] <+: file.drop off := takeWhile_nul_prefix hterm
  have hlen := hpre.length_le
  have hpos := List.length_pos_of_mem hterm
  rw [List.length_append, List.length_singleton, List.length_drop] at hlen
  rw [List.length_drop] at hpos
  have hlt := h.length_lt
  have hin : InBlock (file.length + 1) (BitVec.ofNat 64 off) ((cstrAt file off).length + 1) := by
    rw [InBlock, BitVec.toNat_ofNat, Nat.mod_eq_of_lt (by omega)]
    omega
  rw [StrAt, h.load_eq hin, load_fileImage (by omega) (by omega)]
  have htake := List.prefix_iff_eq_take.mp hpre
  rw [List.length_append, List.length_singleton] at htake
  exact htake.symm

theorem Loaded.str_iff (h : Loaded mem word file (file.length + 1)) (hterm : Terminated file off)
    {name : CStr} (hname : 0 ∉ name) :
    StrAt (imageAt mem word) (BitVec.ofNat 64 off) name ↔ cstrAt file off = name := by
  constructor
  · exact fun hs => strAt_unique (h.str hterm) hs (zero_notMem_cstrAt file off) hname
  · rintro rfl
    exact h.str hterm

/-! ### Sections -/

theorem sectionCount_eq (hplain : PlainCount file) : sectionCount file = field file 60 2 :=
  if_neg fun hext => hext.2 (hplain.1 hext.1)

theorem nameTable_eq (hplain : PlainCount file) : nameTable file = field file 62 2 :=
  if_neg hplain.2

theorem headerAt_inside (helf : IsElf64 file) (hi : i < sectionCount file) :
    headerAt file i + 64 ≤ file.length := by
  have := helf.headers
  simp only [headerAt] at this ⊢
  omega

theorem Loaded.shoff_eq (h : Loaded mem word file (file.length + 1)) (helf : IsElf64 file) :
    shoff (imageAt mem word) = BitVec.ofNat 64 (field file 40 8) :=
  h.wordAt_eq (show 40 + 8 ≤ file.length by have := helf.ehdr; omega)

theorem Loaded.shnum_eq (h : Loaded mem word file (file.length + 1)) (helf : IsElf64 file) :
    shnum (imageAt mem word) = field file 60 2 :=
  h.num (show 60 + 2 ≤ file.length by have := helf.ehdr; omega)

theorem Loaded.shstrndx_eq (h : Loaded mem word file (file.length + 1)) (helf : IsElf64 file) :
    shstrndx (imageAt mem word) = field file 62 2 :=
  h.num (show 62 + 2 ≤ file.length by have := helf.ehdr; omega)

theorem Loaded.shdr_eq (h : Loaded mem word file (file.length + 1)) (helf : IsElf64 file)
    (i : Nat) : shdr (imageAt mem word) i = BitVec.ofNat 64 (headerAt file i) := by
  rw [shdr, shdrAt, h.shoff_eq helf, ← BitVec.ofNat_add]
  rfl

theorem Loaded.shOffset_eq (h : Loaded mem word file (file.length + 1)) (helf : IsElf64 file)
    (hi : i < sectionCount file) :
    shOffset (imageAt mem word) i = BitVec.ofNat 64 (header file i).offset := by
  have hin := headerAt_inside helf hi
  rw [shOffset, h.shdr_eq helf]
  exact h.wordAt_add 24 (by omega)

theorem Loaded.shSize_eq (h : Loaded mem word file (file.length + 1)) (helf : IsElf64 file)
    (hi : i < sectionCount file) : shSize (imageAt mem word) i = (header file i).size := by
  have hin := headerAt_inside helf hi
  rw [shSize, h.shdr_eq helf]
  exact h.num_add 32 (by omega)

theorem Loaded.shName_eq (h : Loaded mem word file (file.length + 1)) (helf : IsElf64 file)
    (hplain : PlainCount file) (hi : i < sectionCount file) :
    shName (imageAt mem word) i = BitVec.ofNat 64 (nameAt file i) := by
  have hin := headerAt_inside helf hi
  have htable := (helf.names (by omega)).1
  rw [shName, h.shstrndx_eq helf, ← nameTable_eq hplain, h.shOffset_eq helf htable,
    h.shdr_eq helf, h.num (by omega), ← BitVec.ofNat_add]
  rfl

theorem Loaded.findSection_eq (h : Loaded mem word file (file.length + 1)) (helf : IsElf64 file)
    (hplain : PlainCount file) {name : CStr} (hname : 0 ∉ name) :
    findSection (imageAt mem word) name = firstSection file name := by
  rw [findSection, firstSection, h.shnum_eq helf, ← sectionCount_eq hplain]
  refine List.find?_congr fun i hi => ?_
  have hlt : i < sectionCount file := List.mem_range.mp hi
  rw [decide_eq_decide, h.shName_eq helf hplain hlt, h.str_iff (helf.name i hlt) hname]

theorem Loaded.headers (h : Loaded mem word file (file.length + 1)) (helf : IsElf64 file) :
    ¬NoHeaders word (imageAt mem word) := by
  rintro (hno | hno)
  · have hpos : 0 < word.toNat := by
      have hne : word.toNat ≠ 0 := fun h0 => h.nonNull (BitVec.eq_of_toNat_eq h0)
      omega
    have hle := helf.headers
    have hlt := h.length_lt
    rw [headerAt] at hle
    rw [h.shoff_eq helf] at hno
    have hsum : (word + BitVec.ofNat 64 (field file 40 8)).toNat =
        word.toNat + field file 40 8 := toNat_add_ofNat (by omega)
    have hzero : (0 : Word).toNat = 0 := rfl
    rw [hno, hzero] at hsum
    omega
  · exact h.nonNull hno

/-- A section of the file, where the code looks for it. -/
theorem Loaded.sectionAt_eq (h : Loaded mem word file (file.length + 1)) (helf : IsElf64 file)
    (hplain : PlainCount file) {name : CStr} (hname : 0 ∉ name)
    (hin : ∀ i ∈ firstSection file name, InFile file i) :
    sectionAt word (imageAt mem word) name =
      match firstSection file name with
      | some i => (BitVec.ofNat 64 (header file i).offset, ((header file i).size : Int))
      | none => (-word, 0) := by
  rw [sectionAt, if_neg (h.headers helf), h.findSection_eq helf hplain hname]
  cases hfirst : firstSection file name with
  | none => rfl
  | some i =>
      have hi : i < sectionCount file := List.mem_range.mp (List.mem_of_find?_eq_some hfirst)
      have hsize := (hin i hfirst).2
      dsimp only
      rw [h.shOffset_eq helf hi, h.shSize_eq helf hi,
        Int.bmod_eq_of_le_mul_two (by omega) (by omega)]

/-! ### Symbols -/

theorem symAt_eq (file : List Byte) (i j : Nat) :
    symAt (BitVec.ofNat 64 (header file i).offset) j = BitVec.ofNat 64 (symbolAt file i j) := by
  rw [symAt, ← BitVec.ofNat_add]
  rfl

theorem symbolAt_inside (hin : InFile file i) (hj : j ∈ symbolsOf file i) :
    symbolAt file i j + 24 ≤ file.length := by
  have hlt := List.mem_range.mp hj
  have hfit := hin.1
  rw [symbolAt]
  omega

theorem Loaded.stValue_eq (h : Loaded mem word file (file.length + 1)) (hin : InFile file i)
    (hj : j ∈ symbolsOf file i) :
    stValue (imageAt mem word) (BitVec.ofNat 64 (header file i).offset) j =
      BitVec.ofNat 64 (field file (symbolAt file i j + 8) 8) := by
  have hfit := symbolAt_inside hin hj
  rw [stValue, symAt_eq]
  exact h.wordAt_add 8 (by omega)

theorem Loaded.stInfo_eq (h : Loaded mem word file (file.length + 1)) (hin : InFile file i)
    (hj : j ∈ symbolsOf file i) :
    stInfo (imageAt mem word) (BitVec.ofNat 64 (header file i).offset) j =
      field file (symbolAt file i j + 4) 1 := by
  have hfit := symbolAt_inside hin hj
  rw [stInfo, symAt_eq]
  exact h.num_add 4 (by omega)

theorem Loaded.stName_eq (h : Loaded mem word file (file.length + 1)) (hin : InFile file i)
    (hj : j ∈ symbolsOf file i) :
    stName (imageAt mem word) (BitVec.ofNat 64 (header file i).offset) j =
      field file (symbolAt file i j) 4 := by
  have hfit := symbolAt_inside hin hj
  rw [stName, symAt_eq]
  exact h.num (by omega)

/-- The code records the functions of the file. -/
theorem Loaded.recorded_iff (h : Loaded mem word file (file.length + 1)) (hin : InFile file i)
    (hj : j ∈ symbolsOf file i) :
    Recorded (imageAt mem word) (BitVec.ofNat 64 (header file i).offset) j ↔
      IsFunction file i j := by
  have hlt : field file (symbolAt file i j + 8) 8 < 2 ^ 64 := field_lt file _ 8
  rw [Recorded, h.stInfo_eq hin hj, h.stValue_eq hin hj, IsFunction]
  refine and_congr_right fun _ => not_congr ?_
  constructor
  · intro h0
    have := congrArg BitVec.toNat h0
    rw [BitVec.toNat_ofNat, Nat.mod_eq_of_lt hlt] at this
    exact this
  · intro h0
    rw [h0]
    rfl

/-- Its entry for a function points to the name, and has the address. -/
theorem Loaded.entry_eq (h : Loaded mem word file (file.length + 1)) (hin : InFile file i)
    (hj : j ∈ symbolsOf file i) (hterm : Terminated file (symbolName file i k j)) :
    StrAt mem
        (funcPtr (imageAt mem word) word base (BitVec.ofNat 64 (header file i).offset)
          (BitVec.ofNat 64 (header file k).offset) j).name (functionOf file base i k j).name ∧
      (funcPtr (imageAt mem word) word base (BitVec.ofNat 64 (header file i).offset)
        (BitVec.ofNat 64 (header file k).offset) j).addr = (functionOf file base i k j).addr := by
  have hstr := h.str hterm
  rw [funcPtr, functionOf, h.stValue_eq hin hj, h.stName_eq hin hj, ← BitVec.ofNat_add]
  refine ⟨?_, rfl⟩
  rw [StrAt, load_imageAt]
  exact hstr

/-! ### The table -/

theorem length_putAll (s : List FuncPtr) (count : Nat) (fs : List FuncPtr) :
    (putAll s count fs).length = s.length := by
  induction fs generalizing s count with
  | nil => rfl
  | cons f fs ih => rw [putAll, ih, List.length_set]

/-- The code goes through the symbols of the file. -/
theorem Loaded.symbols_eq (h : Loaded mem word file (file.length + 1)) (helf : IsElf64 file)
    (hplain : PlainCount file) :
    (symbols word (imageAt mem word)).length = slots file ∧
      0 ≤ (symtab word (imageAt mem word)).2 := by
  have hsyms := h.sectionAt_eq helf hplain (by decide) helf.symtab
  rw [← symtab, ← symtabSection] at hsyms
  rw [symbols, List.length_range, slots, hsyms]
  cases symtabSection file with
  | none => exact ⟨rfl, Int.le_refl 0⟩
  | some i => exact ⟨rfl, Int.natCast_nonneg _⟩

/-- The entries made are those for the functions of the file. -/
theorem Loaded.table_eq (h : Loaded mem word file (file.length + 1)) (helf : IsElf64 file)
    (hplain : PlainCount file) (base : Word) :
    List.Forall₂ (fun f g => StrAt mem f.name g.name ∧ f.addr = g.addr)
      (table word base (imageAt mem word)) (functionSymbols file base) := by
  have hsyms := h.sectionAt_eq helf hplain (by decide) helf.symtab
  have hstrs := h.sectionAt_eq helf hplain (by decide) helf.strtab
  rw [← symtab, ← symtabSection] at hsyms
  rw [← strtab, ← strtabSection] at hstrs
  rw [table, symbols, functionSymbols, hsyms, hstrs]
  cases hi : symtabSection file with
  | none => exact List.Forall₂.nil
  | some i =>
      obtain ⟨k, hk⟩ := Option.isSome_iff_exists.mp (helf.strings (by rw [hi]; rfl))
      have hin := helf.symtab i hi
      rw [hk]
      dsimp only
      have hrange : List.range (((header file i).size : Int) / 24).toNat = symbolsOf file i := rfl
      have hfilter : (symbolsOf file i).filter (fun j =>
            Recorded (imageAt mem word) (BitVec.ofNat 64 (header file i).offset) j) =
          (symbolsOf file i).filter (fun j => IsFunction file i j) :=
        List.filter_congr fun j hj => decide_eq_decide.mpr (h.recorded_iff hin hj)
      rw [hrange, entries, hfilter, List.forall₂_map_left_iff, List.forall₂_map_right_iff,
        List.forall₂_same]
      intro j hj
      obtain ⟨hj, hfun⟩ := List.mem_filter.mp hj
      exact h.entry_eq hin hj (helf.string i hi k hk j hj (of_decide_eq_true hfun))

end

/-- Of a block that holds the file, `open_funs` makes the table of the file. -/
theorem Loaded.extracts {mem : Mem 64 Byte} {word : Word} {file : List Byte}
    (hload : Loaded mem word file (file.length + 1)) (helf : IsElf64 file)
    (hplain : PlainCount file) (base : Word) : Extracts mem word base file := by
  obtain ⟨hlen, hsize⟩ := hload.symbols_eq helf hplain
  have htable := hload.table_eq helf hplain base
  constructor
  · have hwp : wp (imgHandler mem).kernel (Within word (fun _ _ => True) fun _ => True)
        (openFuns word base) (fun _ _ => True) [] :=
      (wp_openFuns (allows_within word _ _) base).mpr ⟨reads_true.mpr hsize, trivial⟩
    exact hwp.safe
  · rw [meets_openFuns]
    refine ⟨hsize, ?_, htable.length_eq, ?_⟩
    · rw [length_putAll, List.length_replicate, hlen]
    · rw [take_table]
      exact htable

/-- **Symbol table extraction.**  `get_file_word` reads a well-formed file into
the block it was given, and from there `open_funs` makes the table of the file,
if the section count is in the header. -/
theorem table_extracted {mem : Mem 64 Byte} {word : Word} {file : List Byte}
    (hlen : file.length + 1 < 2 ^ 31) (hword : word ≠ 0)
    (hroom : word.toNat + (file.length + 1) ≤ 2 ^ 64) (helf : IsElf64 file)
    (hplain : PlainCount file) (base : Word) :
    Extracts (loadImage file mem word) word base file := by
  have hload : Loaded (loadImage file mem word) word file (file.length + 1) :=
    loaded_whole hlen hword hroom
  exact hload.extracts helf hplain base

/-! ### Four sections, and 0xff00 -/

theorem isElf64_small : IsElf64 (smallFile 3 0 0x150) where
  ident := by decide +kernel
  ehdr := by decide +kernel
  headers := by decide +kernel
  extended := by decide +kernel
  names := by decide +kernel
  name := by decide +kernel
  symtab := by decide +kernel
  strtab := by decide +kernel
  strings := by decide +kernel
  string := by decide +kernel

/-- The sections of `smallFile`, with the count in the first header. -/
def manyFront : List Byte :=
  ehdrBytes 3 192 0 3 ++ phdrBytes 0 448 ++ fileData 0x150 ++ shdrBytes 0 0 0 0xff00 ++
    shdrBytes 1 2 144 48 ++ shdrBytes 9 3 137 3 ++ shdrBytes 0 3 120 17

/-- Those, and unused ones up to the number 0xff00. -/
def manySections : List Byte := manyFront ++ List.replicate (64 * 0xfefc) 0

theorem length_manyFront : manyFront.length = 448 := by
  decide +kernel

theorem length_manySections : manySections.length = 448 + 64 * 0xfefc := by
  rw [manySections, List.length_append, List.length_replicate, length_manyFront]

theorem sectionCount_manySections : sectionCount manySections = 0xff00 := by
  decide +kernel

theorem symtab_manySections : symtabSection manySections = some 1 := by
  rw [symtabSection, firstSection, sectionCount_manySections, List.find?_range_eq_some,
    List.mem_range]
  decide +kernel

theorem strtab_manySections : strtabSection manySections = some 2 := by
  rw [strtabSection, firstSection, sectionCount_manySections, List.find?_range_eq_some,
    List.mem_range]
  decide +kernel

/-- Behind the first four sections there is nothing but zeros. -/
theorem drop_manySections {off : Nat} (hoff : 448 ≤ off) :
    manySections.drop off = List.replicate (64 * 0xfefc - (off - 448)) 0 := by
  rw [manySections, List.drop_append, length_manyFront, List.drop_replicate,
    List.drop_of_length_le (by rw [length_manyFront]; exact hoff), List.nil_append]

theorem natOfBytes_replicate (n : Nat) : natOfBytes (List.replicate n 0) = 0 := by
  induction n with
  | zero => rfl
  | succ n ih => rw [List.replicate_succ, natOfBytes, ih]; rfl

theorem field_manySections {off n : Nat} (hoff : 448 ≤ off) : field manySections off n = 0 := by
  rw [field, drop_manySections hoff, List.take_replicate, natOfBytes_replicate]

theorem terminated_manySections {off : Nat} (hoff : off < 448 + 64 * 0xfefc) :
    Terminated manySections off := by
  by_cases hfront : off ≤ 448
  · rw [← length_manyFront] at hfront
    rw [Terminated, manySections, List.drop_append_of_le_length hfront]
    exact List.mem_append_right _ (List.mem_replicate.mpr ⟨by decide, rfl⟩)
  · rw [Terminated, drop_manySections (by omega)]
    exact List.mem_replicate.mpr ⟨by omega, rfl⟩

theorem nameAt_manySections (i : Nat) : nameAt manySections i < 448 + 64 * 0xfefc := by
  by_cases hi : i < 4
  · have hfour : ∀ i < 4, nameAt manySections i < 448 := by decide +kernel
    have := hfour i hi
    omega
  · have htable : (header manySections (nameTable manySections)).offset = 120 := by decide +kernel
    have hshoff : field manySections 40 8 = 192 := by decide +kernel
    have hzero : (header manySections i).name = 0 := by
      refine field_manySections ?_
      rw [headerAt, hshoff]
      omega
    rw [nameAt, htable, hzero]
    decide

theorem isElf64_manySections : IsElf64 manySections where
  ident := by decide +kernel
  ehdr := by
    rw [length_manySections]
    decide
  headers := by
    rw [length_manySections, sectionCount_manySections]
    decide +kernel
  extended := by
    rw [sectionCount_manySections]
    decide
  names := by
    rw [sectionCount_manySections, InFile, length_manySections]
    decide +kernel
  name i _ := terminated_manySections (nameAt_manySections i)
  symtab := by
    simp only [symtab_manySections, InFile, length_manySections]
    decide +kernel
  strtab := by
    simp only [strtab_manySections, InFile, length_manySections]
    decide +kernel
  strings := by
    rw [strtab_manySections]
    exact fun _ => rfl
  string := by
    have hnames : ∀ j ∈ symbolsOf manySections 1, symbolName manySections 1 2 j < 448 := by
      decide +kernel
    rw [symtab_manySections, strtab_manySections]
    rintro i ⟨⟩ k ⟨⟩ j hj -
    exact terminated_manySections (Nat.lt_of_lt_of_le (hnames j hj) (by decide))

theorem table_extracted_small :
    Extracts (loadImage (smallFile 3 0 0x150) (fun _ => 0) 0x1000) 0x1000 0x2000
      (smallFile 3 0 0x150) :=
  table_extracted (by decide +kernel) (by decide) (by decide +kernel) isElf64_small
    (by decide +kernel) 0x2000

theorem symbols_of_no_sections (word : Word) {img : Mem 64 Byte} (h : shnum img = 0) :
    symbols word img = [] := by
  have hnone : ∀ name, findSection img name = none := by
    intro name
    rw [findSection, h]
    rfl
  rw [symbols, symtab, sectionAt, hnone]
  split <;> rfl

/-- `.symtab` and its function are there, and are not found. -/
theorem many_sections_are_none :
    IsElf64 manySections ∧
      Loaded (loadImage manySections (fun _ => 0) 0x1000) 0x1000 manySections
        (manySections.length + 1) ∧
      ¬Extracts (loadImage manySections (fun _ => 0) 0x1000) 0x1000 0x2000 manySections := by
  have hload : Loaded (loadImage manySections (fun _ => 0) 0x1000) 0x1000 manySections
      (manySections.length + 1) :=
    loaded_whole (by rw [length_manySections]; decide) (by decide)
      (by rw [length_manySections]; decide)
  refine ⟨isElf64_manySections, hload, fun h => ?_⟩
  have hfuns : (functionSymbols manySections 0x2000).length = 1 := by
    rw [functionSymbols, symtab_manySections, strtab_manySections]
    decide +kernel
  have hcount : shnum (imageAt (loadImage manySections (fun _ => 0) 0x1000) 0x1000) = 0 :=
    (hload.shnum_eq isElf64_manySections).trans (by decide +kernel)
  have hnone := symbols_of_no_sections 0x1000 hcount
  have hlen := ((meets_openFuns 0x2000 _).mp h.2).2.2.1
  rw [hfuns, table, hnone] at hlen
  cases hlen

end TestDbug
