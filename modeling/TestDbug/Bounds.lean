/-
# `TestDbug.Bounds` — what is read of an image, and what is not part of it

The kernel starts a program by its program headers and never looks at
`e_shoff`, `e_shnum`, `e_shstrndx` or a section header.  `open_funs` follows
all of them, unchecked: an index, an offset, a size or a name outside the file
is added to the image's address, and the sum is read or stored.

`stays_inside_iff` says for which files every read and every name is in the
block of the image.  The condition is `Reads`, for the bytes of the file: the
search for each of the two sections ends before a header or a name that is
outside, the size found is no negative `int`, and so is no symbol outside and
no name of a function.
-/
import TestDbug.Elf

open ByteMemory Interaction

namespace TestDbug

section
variable {mem : Mem 64 Byte} {word : Word} {file : List Byte} {size : Nat}

/-- A pointer into a block of this size. -/
def NameIn (size : Nat) (off : Word) : Prop := InBlock size off 1

instance decNameIn (size : Nat) (off : Word) : Decidable (NameIn size off) :=
  inferInstanceAs (Decidable (InBlock size off 1))

/-- Every read of `open_funs` and every name it stores is in the `size` bytes at
`word`, it stores in its table only, and it does not crash. -/
def StaysInside (mem : Mem 64 Byte) (word base : Word) (size : Nat) : Prop :=
  Safe (imgHandler mem).kernel (Within word (InBlock size) (NameIn size)) (openFuns word base) []

theorem staysInside_iff_wp {base : Word} :
    StaysInside mem word base size ↔
      wp (imgHandler mem).kernel (Within word (InBlock size) (NameIn size)) (openFuns word base)
        (fun _ _ => True) [] := by
  rw [wp_iff]
  exact (and_iff_left fun _ _ _ => trivial).symm

/-- The condition, on any memory. -/
theorem staysInside_iff_reads (base : Word) :
    StaysInside mem word base size ↔
      Reads (InBlock size) (NameIn size) word (imageAt mem word) := by
  rw [staysInside_iff_wp, wp_openFuns (allows_within word (InBlock size) (NameIn size)) base]
  exact and_iff_left trivial

/-- The file at `word`, and nothing else. -/
def fileAt (word : Word) (file : List Byte) : Mem 64 Byte := fun p => fileImage file (p - word)

theorem imageAt_fileAt (word : Word) (file : List Byte) :
    imageAt (fileAt word file) word = fileImage file := by
  funext off
  rw [imageAt, fileAt, BitVec.add_comm, BitVec.add_sub_cancel]

/-- As long as the reads are in the block, nothing but the file matters. -/
theorem kernel_fileAt (hload : Loaded mem word file size) {r : ImgReq} {s s' : List FuncPtr}
    {x : ImgResp r} (hr : Within word (InBlock size) (NameIn size) r s) :
    (imgHandler mem).kernel r s x s' ↔ (imgHandler (fileAt word file)).kernel r s x s' := by
  cases r with
  | read p n =>
      have hp : word + (p - word) = p := by rw [BitVec.add_comm, BitVec.sub_add_cancel]
      have hbytes : load mem p n = load (fileAt word file) p n := by
        rw [← hp, load_imageAt, load_imageAt, imageAt_fileAt]
        exact hload.load_eq hr
      rw [Handler.kernel, Handler.kernel, imgHandler, imgHandler, hbytes]
  | calloc size => exact Iff.rfl
  | store i f => exact Iff.rfl
  | segv => exact Iff.rfl

theorem staysInside_fileAt (hload : Loaded mem word file size) (base : Word) :
    StaysInside mem word base size ↔ StaysInside (fileAt word file) word base size := by
  rw [staysInside_iff_wp, staysInside_iff_wp]
  exact wp_congr fun r s x s' hr => kernel_fileAt hload hr

/-- **When the reader stays inside the image.**  If and only if what it follows
in the bytes held of the file stays inside the block. -/
theorem stays_inside_iff (mem : Mem 64 Byte) (base : Word)
    (hcalloc : 0 < blockSize file → word ≠ 0)
    (hroom : word.toNat + blockSize file ≤ 2 ^ 64) :
    StaysInside (loadImage file mem word) word base (blockSize file) ↔
      Reads (InBlock (blockSize file)) (NameIn (blockSize file)) word
        (fileImage (heldBytes file)) := by
  by_cases hblock : 0 < blockSize file
  · have hload : Loaded (loadImage file mem word) word (heldBytes file) (blockSize file) :=
      loaded_loadImage (hcalloc hblock) hroom
    rw [staysInside_fileAt hload, staysInside_iff_reads, imageAt_fileAt]
  · -- a size that is no `int` leaves no block to read the header from
    rw [Nat.eq_zero_of_not_pos hblock, staysInside_iff_reads]
    exact iff_of_false (fun h => absurd h.e_shnum (by decide))
      (fun h => absurd h.e_shnum (by decide))

end

/-! ### A file without the sections it claims to have -/

/-- What the kernel asks of the file of a program. -/
def RunsAsElf64 (file : List Byte) : Prop :=
  file.take 4 = [0x7f, 0x45, 0x4c, 0x46] ∧
    (numAt (fileImage file) 16 2 = 2 ∨ numAt (fileImage file) 16 2 = 3) ∧
    numAt (fileImage file) 18 2 = 62 ∧ numAt (fileImage file) 54 2 = 56 ∧
    0 < numAt (fileImage file) 56 2 ∧ 56 * numAt (fileImage file) 56 2 ≤ 65536 ∧
    numAt (fileImage file) 32 8 + 56 * numAt (fileImage file) 56 2 ≤ file.length

instance decRunsAsElf64 (file : List Byte) : Decidable (RunsAsElf64 file) :=
  inferInstanceAs (Decidable (_ ∧ _ ∧ _ ∧ _ ∧ _ ∧ _ ∧ _))

/-- A program whose section headers are said to be at 0x1000. -/
def stripped : List Byte := ehdrBytes 3 0x1000 4 3 ++ phdrBytes 0 120

theorem stays_inside_iff_small :
    StaysInside (loadImage (smallFile 3 0 0x150) (fun _ => 0) 0x1000) 0x1000 0
      (blockSize (smallFile 3 0 0x150)) :=
  (stays_inside_iff (fun _ => 0) 0 (by decide +kernel) (by decide +kernel)).mpr (by decide +kernel)

/-- The kernel runs it, and `open_funs` reads behind the file. -/
theorem headers_outside_are_followed :
    RunsAsElf64 stripped ∧
      ¬StaysInside (loadImage stripped (fun _ => 0) 0x1000) 0x1000 0 (blockSize stripped) := by
  refine ⟨by decide +kernel, fun h => ?_⟩
  rcases ((staysInside_iff_reads 0).mp h).for_symtab with hno | ⟨hread, -⟩
  · exact absurd hno (by decide +kernel)
  · exact absurd hread (by decide +kernel)

end TestDbug
