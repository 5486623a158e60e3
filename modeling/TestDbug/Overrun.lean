/-
# `TestDbug.Overrun` — the block and the file that goes into it

The block is as large as `get_file_size` says, an `int`; `get_file_word` never
looks at that, and stores until the file ends.  The two agree as long as the
size of the file, and the byte more, is an `int`.  For a longer file `calloc`
is either asked for more than it can give, or for a block that the pieces run
over: `file_is_loaded_iff`.
-/
import TestDbug.Loading

open ByteMemory Loop

namespace TestDbug

/-- `calloc(1, filesize+1)`: the bytes asked for, an `int` made a `size_t`. -/
def callocBytes (file : List Byte) : Nat :=
  ((getFileSize file + 1).bmod (2 ^ 32) % 2 ^ 64).toNat

/-- `calloc(1, n)` has answered `word`, and that is a block of `n` bytes.  None
is larger than `PTRDIFF_MAX`. -/
structure Allocated (n : Nat) (word : Word) : Prop where
  nonNull : word ≠ 0
  small : n < 2 ^ 63
  room : word.toNat + n ≤ 2 ^ 64

/-- The bytes that the next `fread` stores are in the `size` bytes of the block. -/
def FileWord.Inside (size : Nat) (s : FileWord) : Prop :=
  s.fp.eof = false → ∀ j < (s.fp.fread 1024).1.length,
    (BitVec.ofInt 64 s.seek + BitVec.ofNat 64 j).toNat < size

/-- The variables of `get_file_word` in front of the loop. -/
def fileWordStart (file : List Byte) (mem : Mem 64 Byte) (word : Word) : FileWord :=
  ⟨{ bytes := file }, 0, calloced file mem word⟩

/-- Every piece is stored in the block, and behind the loop the block holds the
file and a NUL. -/
structure LoadsFile (file : List Byte) (mem : Mem 64 Byte) (word : Word) : Prop where
  inside : ∀ n s, after (fileWordRound word) n (fileWordStart file mem word) = some s →
    s.Inside (callocBytes file)
  holds : ∃ fuel mem', getFileWord fuel (some { bytes := file }) (calloced file mem word) word =
    some (0, mem') ∧ load mem' word (file.length + 1) = file ++ [0]

section
variable {file : List Byte} {mem : Mem 64 Byte} {word : Word}

theorem toNat_ofInt_add {seek : Int} {j : Nat} (hseek : 0 ≤ seek) (hlt : seek + j < 2 ^ 64) :
    ((BitVec.ofInt 64 seek + BitVec.ofNat 64 j).toNat : Int) = seek + j := by
  rw [ofInt_add_ofNat, BitVec.toNat_ofInt]
  omega

/-! ## A size that is an `int` -/

theorem callocBytes_eq (hlen : file.length + 1 < 2 ^ 31) :
    callocBytes file = file.length + 1 := by
  have hblock := blockSize_eq hlen
  rw [blockSize] at hblock
  rw [callocBytes]
  omega

/-- `seek` is where the bytes to come belong. -/
def FileWord.InStep (file : List Byte) (s : FileWord) : Prop :=
  s.fp.eof = false → 0 ≤ s.seek ∧ s.seek + s.fp.bytes.length = file.length

theorem length_fread (fp : Stream) : (fp.fread 1024).1.length = min 1024 fp.bytes.length :=
  List.length_take

theorem inStep_round (hlen : file.length + 1 < 2 ^ 31) (s s' : FileWord) (hs : s.InStep file)
    (hgo : fileWordRound word s = .inl s') : s'.InStep file := by
  cases heof : s.fp.eof with
  | true =>
      rw [fileWordRound_eof heof] at hgo
      cases hgo
  | false =>
      rw [fileWordRound_open heof] at hgo
      obtain rfl := Sum.inl.inj hgo
      obtain ⟨hpos, hsum⟩ := hs heof
      have hread := length_fread s.fp
      have hrest : (s.fp.fread 1024).2.bytes.length = s.fp.bytes.length - 1024 := List.length_drop
      have hseek : (s.seek + (s.fp.fread 1024).1.length).bmod (2 ^ 32) =
          s.seek + (s.fp.fread 1024).1.length :=
        Int.bmod_eq_of_le_mul_two (by omega) (by omega)
      intro _
      dsimp only
      omega

theorem inside_of_inStep (hlen : file.length + 1 < 2 ^ 31) {s : FileWord} (hs : s.InStep file) :
    s.Inside (callocBytes file) := by
  intro heof j hj
  obtain ⟨hpos, hsum⟩ := hs heof
  rw [length_fread] at hj
  have hoff := toNat_ofInt_add (j := j) hpos (by omega)
  rw [callocBytes_eq hlen]
  omega

/-- All is well with a file whose size, and one byte more, is an `int`. -/
theorem loadsFile_of_short (hlen : file.length + 1 < 2 ^ 31) (hword : word ≠ 0) :
    LoadsFile file mem word := by
  constructor
  · intro n s hs
    refine inside_of_inStep hlen (after_invariant (FileWord.InStep file)
      (fun s s' => inStep_round hlen s s') hs ?_)
    intro _
    exact ⟨Int.le_refl 0, Int.zero_add _⟩
  · have hrun : run (fileWordRound word) (file.length / 1024 + 2)
        ⟨{ bytes := file }, 0, store mem word (List.replicate (blockSize file) 0)⟩ = some _ :=
      run_stretch (by omega) (Nat.le_refl _)
    refine ⟨file.length / 1024 + 2, loadImage file mem word, ?_, load_loadImage hlen hword⟩
    rw [loadImage_eq hword hrun, getFileWord, if_neg hword, calloced, if_neg hword, hrun]
    rfl

/-! ## A longer file -/

theorem bmod_bmod_long {n : Nat} (hn : 2 ^ 31 ≤ n + 1)
    (hlt : (((n : Int).bmod (2 ^ 32) + 1).bmod (2 ^ 32) % 2 ^ 64).toNat < 2 ^ 63) :
    (((n : Int).bmod (2 ^ 32) + 1).bmod (2 ^ 32) % 2 ^ 64).toNat < 2 ^ 31 ∧ 2 ^ 32 ≤ n + 1 := by
  rw [Int.bmod_def, Int.bmod_def] at hlt ⊢
  split at hlt <;> split at hlt <;> omega

/-- The block is there, and the file is longer by far. -/
theorem callocBytes_long (hlen : 2 ^ 31 ≤ file.length + 1) (hsmall : callocBytes file < 2 ^ 63) :
    callocBytes file < 2 ^ 31 ∧ 2 ^ 32 ≤ file.length + 1 :=
  bmod_bmod_long hlen hsmall

/-- The piece that holds the end of the block goes over it. -/
theorem not_loadsFile_of_long (hlen : 2 ^ 31 ≤ file.length + 1)
    (hsmall : callocBytes file < 2 ^ 63) : ¬ LoadsFile file mem word := by
  intro h
  obtain ⟨hblock, hfile⟩ := callocBytes_long hlen hsmall
  have hfront : (file.take (1024 * (callocBytes file / 1024))).length =
      1024 * (callocBytes file / 1024) := by
    rw [List.length_take]
    omega
  have hchunks : after (fileWordRound word) (callocBytes file / 1024)
      ⟨⟨file.take (1024 * (callocBytes file / 1024)) ++
        file.drop (1024 * (callocBytes file / 1024)), false, false⟩, 0,
        calloced file mem word⟩ = _ :=
    after_chunks (by decide) (by decide) hfront (by omega)
  rw [List.take_append_drop] at hchunks
  have hseek : (0 + 1024 * ((callocBytes file / 1024 : Nat) : Int)).bmod (2 ^ 32) =
      1024 * ((callocBytes file / 1024 : Nat) : Int) := by
    rw [Int.zero_add]
    exact Int.bmod_eq_of_le_mul_two (by omega) (by omega)
  rw [hseek] at hchunks
  have hinside := h.inside _ _ hchunks rfl (callocBytes file % 1024) (by
    rw [length_fread, List.length_drop]
    omega)
  have hoff : ((BitVec.ofInt 64 (1024 * ((callocBytes file / 1024 : Nat) : Int)) +
      BitVec.ofNat 64 (callocBytes file % 1024)).toNat : Int) =
      1024 * ((callocBytes file / 1024 : Nat) : Int) + (callocBytes file % 1024 : Nat) :=
    toNat_ofInt_add (by omega) (by omega)
  dsimp only at hinside
  omega

end

/-- **When a file is loaded into its block.**  Where there is a block: if and
only if the size of the file and one byte more is an `int`. -/
theorem file_is_loaded_iff {file : List Byte} {word : Word} (mem : Mem 64 Byte)
    (halloc : Allocated (callocBytes file) word) :
    LoadsFile file mem word ↔ file.length + 1 < 2 ^ 31 := by
  constructor
  · intro h
    by_contra hlen
    exact not_loadsFile_of_long (Nat.le_of_not_lt hlen) halloc.small h
  · intro hlen
    exact loadsFile_of_short hlen halloc.nonNull

/-! ### Three bytes, and 2^32 -/

theorem file_is_loaded_iff_three : LoadsFile [1, 2, 3] (fun _ => 0) 0x1000 :=
  (file_is_loaded_iff _ ⟨by decide, by decide, by decide⟩).mpr (by decide)

/-- A file of 2^32 bytes. -/
def hugeFile : List Byte := List.replicate (2 ^ 32) 0x90

theorem length_hugeFile : hugeFile.length = 2 ^ 32 := by
  simp only [hugeFile, List.length_replicate]

/-- It gets a block of one byte. -/
theorem callocBytes_hugeFile : callocBytes hugeFile = 1 := by
  have hsize : ∀ n : Nat, n = 2 ^ 32 →
      (((n : Int).bmod (2 ^ 32) + 1).bmod (2 ^ 32) % 2 ^ 64).toNat = 1 := by
    rintro n rfl
    decide
  exact hsize hugeFile.length length_hugeFile

/-- `calloc` succeeds, and `get_file_word` runs over the block. -/
theorem huge_file_overruns :
    Allocated (callocBytes hugeFile) 0x1000 ∧ ¬ LoadsFile hugeFile (fun _ => 0) 0x1000 := by
  constructor
  · rw [callocBytes_hugeFile]
    exact ⟨by decide, by decide, by decide⟩
  · refine not_loadsFile_of_long ?_ ?_
    · rw [length_hugeFile]
      decide
    · rw [callocBytes_hugeFile]
      decide

end TestDbug
