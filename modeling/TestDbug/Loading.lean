/-
# `TestDbug.Loading` — a file in memory

`open_funs` asks for the size of the file, an `int`, takes a zeroed block of one
byte more, and reads the file into it in pieces of 1024 bytes, whose offset in
the block is an `int` again.  What is in the block then is the file, as far as
the block goes, and a NUL behind it; a file whose size is no `int` has a block
too small, and the pieces go round it (`heldBytes`, `loaded_loadImage`).

The rest of `elf_parse.c` reads fields at offsets from the block, which are
64-bit words.  At offsets within the block it reads the bytes held there.
-/
import TestDbug.Ptrace
import TestDbug.Lib.Loop
import Mathlib.Data.List.GetD

open ByteMemory Loop

namespace TestDbug

/-! ## Streams -/

/-- What a `FILE *` has still to give, and `feof`.  Behind the bytes stands the
end of the file or, if the stream `fails`, an error that stays. -/
structure Stream where
  bytes : List Byte
  fails : Bool := false
  eof : Bool := false

/-- `fread(.., 1, n, fp)`: the bytes it stores.  Where they are fewer than `n`,
`feof` is set unless that was an error. -/
def Stream.fread (fp : Stream) (n : Nat) : List Byte × Stream :=
  (fp.bytes.take n,
    { fp with bytes := fp.bytes.drop n, eof := decide (fp.bytes.length < n) && !fp.fails })

/-! ## `get_file_size` and `get_file_word` -/

/-- `get_file_size`: `ftell` at the end, cut to an `int`. -/
def getFileSize (file : List Byte) : Int := (file.length : Int).bmod (2 ^ 32)

/-- The variables of `get_file_word`, and the memory. -/
structure FileWord where
  fp : Stream
  seek : Int
  mem : Mem 64 Byte

/-- The loop of `get_file_word`.  The sum of `seek`, an `int`, and what `fread`
returns is cut to an `int`. -/
def fileWordRound (word : Word) (s : FileWord) : FileWord ⊕ Mem 64 Byte :=
  if s.fp.eof then .inr s.mem
  else
    let (data, fp) := s.fp.fread 1024
    .inl ⟨fp, (s.seek + data.length).bmod (2 ^ 32),
      store s.mem (word + BitVec.ofInt 64 s.seek) data⟩

/-- `get_file_word`, and the memory behind it; `none` if the loop has not come
to its end after `fuel` rounds. -/
def getFileWord (fuel : Nat) (fp : Option Stream) (mem : Mem 64 Byte) (word : Word) :
    Option (Int × Mem 64 Byte) :=
  match fp with
  | none => some (-1, mem)
  | some fp =>
      if word = 0 then some (-1, mem)
      else (run (fileWordRound word) fuel ⟨fp, 0, mem⟩).map fun mem => (0, mem)

/-- `filesize+1`, an `int`: the bytes of the block, and none where `calloc` fails
at a negative number. -/
def blockSize (file : List Byte) : Nat := ((getFileSize file + 1).bmod (2 ^ 32)).toNat

/-- The memory behind `calloc`, which has answered `word`. -/
def calloced (file : List Byte) (mem : Mem 64 Byte) (word : Word) : Mem 64 Byte :=
  if word = 0 then mem else store mem word (List.replicate (blockSize file) 0)

/-- The memory behind both, where `calloc` has answered `word`. -/
def loadImage (file : List Byte) (mem : Mem 64 Byte) (word : Word) : Mem 64 Byte :=
  ((getFileWord (file.length / 1024 + 2) (some { bytes := file }) (calloced file mem word)
    word).map Prod.snd).getD mem

/-- What the block holds of the file.  From 2^32 bytes on `seek` has gone round:
there are the last bytes, and one of the round before. -/
def heldBytes (file : List Byte) : List Byte :=
  if file.length < 2 ^ 32 then file
  else
    file.drop (file.length / 2 ^ 32 * 2 ^ 32) ++
      [file.getD ((file.length / 2 ^ 32 - 1) * 2 ^ 32 + file.length % 2 ^ 32) 0]

/-- The file, or the front of it, lies in a block of `size` bytes at `word`. -/
structure Loaded (mem : Mem 64 Byte) (word : Word) (file : List Byte) (size : Nat) : Prop where
  nonNull : word ≠ 0
  room : word.toNat + size ≤ 2 ^ 64
  fits : size ≤ file.length + 1
  here : load mem word size = (file ++ [0]).take size

section
variable {mem : Mem 64 Byte} {word : Word} {file : List Byte}

/-! ### Whole pieces -/

variable {fails : Bool} {seek : Int} {a b rest : List Byte} {k n : Nat}

theorem ofInt_add_ofNat (seek : Int) (n : Nat) :
    BitVec.ofInt 64 seek + BitVec.ofNat 64 n = BitVec.ofInt 64 (seek + n) := by
  rw [BitVec.ofInt_add, BitVec.ofInt_natCast]

theorem fileWordRound_open {s : FileWord} (h : s.fp.eof = false) :
    fileWordRound word s = .inl
      ⟨(s.fp.fread 1024).2, (s.seek + (s.fp.fread 1024).1.length).bmod (2 ^ 32),
        store s.mem (word + BitVec.ofInt 64 s.seek) (s.fp.fread 1024).1⟩ := by
  rw [fileWordRound, if_neg (by rw [h]; exact Bool.false_ne_true)]

theorem fileWordRound_eof {s : FileWord} (h : s.fp.eof = true) :
    fileWordRound word s = .inr s.mem :=
  if_pos h

/-- A round with a whole piece. -/
theorem fileWordRound_chunk (ha : a.length = 1024) :
    fileWordRound word ⟨⟨a ++ rest, fails, false⟩, seek, mem⟩ =
      .inl ⟨⟨rest, fails, false⟩, (seek + 1024).bmod (2 ^ 32),
        store mem (word + BitVec.ofInt 64 seek) a⟩ := by
  have htake : (a ++ rest).take 1024 = a := by rw [← ha, List.take_left]
  have hdrop : (a ++ rest).drop 1024 = rest := by rw [← ha, List.drop_left]
  have hlong : decide ((a ++ rest).length < 1024) = false := by
    rw [List.length_append, ha]
    exact decide_eq_false (by omega)
  rw [fileWordRound_open rfl, Stream.fread]
  dsimp only
  rw [htake, hdrop, hlong, ha]
  rfl

/-- As long as `seek` does not go round, the pieces are stored in a row. -/
theorem after_chunks (hlow : -2 ^ 31 ≤ seek) (hlt : seek < 2 ^ 31)
    (ha : a.length = 1024 * k) (hhigh : seek + 1024 * k ≤ 2 ^ 31) :
    after (fileWordRound word) k ⟨⟨a ++ rest, fails, false⟩, seek, mem⟩ =
      some ⟨⟨rest, fails, false⟩, (seek + 1024 * k).bmod (2 ^ 32),
        store mem (word + BitVec.ofInt 64 seek) a⟩ := by
  induction k generalizing a seek mem with
  | zero =>
      obtain rfl : a = [] := List.eq_nil_of_length_eq_zero (by omega)
      rw [after, store_nil, List.nil_append, Int.bmod_eq_of_le_mul_two (by omega) (by omega)]
      simp
  | succ k ih =>
      obtain ⟨a₁, a₂, rfl, h₁⟩ : ∃ a₁ a₂, a = a₁ ++ a₂ ∧ a₁.length = 1024 :=
        ⟨a.take 1024, a.drop 1024, (List.take_append_drop _ _).symm, by
          rw [List.length_take]
          omega⟩
      rw [List.length_append] at ha
      rw [List.append_assoc, after_inl (fileWordRound_chunk h₁)]
      by_cases hk : k = 0
      · subst hk
        obtain rfl : a₂ = [] := List.eq_nil_of_length_eq_zero (by omega)
        rw [after, List.nil_append, List.append_nil]
        rfl
      · have hseek : (seek + 1024).bmod (2 ^ 32) = seek + 1024 :=
          Int.bmod_eq_of_le_mul_two (by omega) (by omega)
        have happ := store_append mem (word + BitVec.ofInt 64 seek) a₁ a₂ (by omega)
        rw [h₁, BitVec.add_assoc, ofInt_add_ofNat] at happ
        rw [hseek, ih (by omega) (by omega) (by omega) (by omega)]
        push_cast at happ ⊢
        rw [happ, Int.mul_add, Int.mul_one, Int.add_comm (1024 * (k : Int)), Int.add_assoc]

/-- The end of the loop: a piece that is no whole one, and no other behind it. -/
theorem run_last (hb : b.length < 1024) :
    run (fileWordRound word) (n + 2) ⟨⟨b, false, false⟩, seek, mem⟩ =
      some (store mem (word + BitVec.ofInt 64 seek) b) := by
  have hlast : fileWordRound word ⟨⟨b, false, false⟩, seek, mem⟩ =
      .inl ⟨⟨b.drop 1024, false, true⟩, (seek + (b.take 1024).length).bmod (2 ^ 32),
        store mem (word + BitVec.ofInt 64 seek) (b.take 1024)⟩ := by
    rw [fileWordRound_open rfl, Stream.fread]
    dsimp only
    rw [decide_eq_true hb]
    rfl
  rw [run_inl hlast, run_inr (fileWordRound_eof rfl), List.take_of_length_le (Nat.le_of_lt hb)]

/-! ### The whole file -/

/-- A file of less than 2^31 bytes is stored in one go, and so is what is left
of a longer one. -/
theorem run_stretch (hlen : b.length < 2 ^ 31) (hn : b.length / 1024 + 2 ≤ n) :
    run (fileWordRound word) n ⟨⟨b, false, false⟩, 0, mem⟩ = some (store mem word b) := by
  obtain ⟨m, rfl⟩ := Nat.exists_eq_add_of_le hn
  obtain ⟨a, c, rfl, ha, hc⟩ : ∃ a c, b = a ++ c ∧ a.length = 1024 * (b.length / 1024) ∧
      c.length < 1024 :=
    ⟨b.take (1024 * (b.length / 1024)), b.drop (1024 * (b.length / 1024)),
      (List.take_append_drop _ _).symm, by rw [List.length_take]; omega,
      by rw [List.length_drop]; omega⟩
  generalize (a ++ c).length / 1024 = k at ha ⊢
  rw [List.length_append] at hlen
  have hseek : (0 + 1024 * (k : Int)).bmod (2 ^ 32) = 1024 * k := by
    rw [Int.zero_add]
    exact Int.bmod_eq_of_le_mul_two (by omega) (by omega)
  have happ := store_append mem word a c (by omega)
  rw [ha, ← BitVec.ofInt_natCast] at happ
  push_cast at happ
  have hchunks : after (fileWordRound word) k ⟨⟨a ++ c, false, false⟩, 0, mem⟩ = _ :=
    after_chunks (by decide) (by decide) ha (by omega)
  rw [Nat.add_assoc k, Nat.add_comm 2, run_after hchunks, hseek, run_last hc,
    show BitVec.ofInt 64 0 = 0#64 from rfl, BitVec.add_zero, happ]

/-- Behind 2^32 bytes `seek` is 0 again; the second half of them stands in front of the block. -/
theorem after_lap (ha : a.length = 2 ^ 31) (hb : b.length = 2 ^ 31) :
    after (fileWordRound word) (2 ^ 22) ⟨⟨a ++ (b ++ rest), fails, false⟩, 0, mem⟩ =
      some ⟨⟨rest, fails, false⟩, 0,
        store (store mem word a) (word + BitVec.ofInt 64 (-2 ^ 31)) b⟩ := by
  have hfirst : after (fileWordRound word) (2 ^ 21) ⟨⟨a ++ (b ++ rest), fails, false⟩, 0, mem⟩ =
      some ⟨⟨b ++ rest, fails, false⟩, -2 ^ 31, store mem (word + BitVec.ofInt 64 0) a⟩ :=
    after_chunks (by decide) (by decide) (by omega) (by decide)
  have hsecond : after (fileWordRound word) (2 ^ 21)
      ⟨⟨b ++ rest, fails, false⟩, -2 ^ 31, store mem (word + BitVec.ofInt 64 0) a⟩ =
      some ⟨⟨rest, fails, false⟩, 0, _⟩ :=
    after_chunks (by decide) (by decide) (by omega) (by decide)
  have hzero : word + BitVec.ofInt 64 0 = word := BitVec.add_zero word
  rw [show (2 ^ 22 : Nat) = 2 ^ 21 + 2 ^ 21 from rfl, after_add, hfirst, Option.bind_some, hsecond,
    hzero]

/-- Whole rounds leave something in memory. -/
theorem after_laps (q : Nat) (ha : a.length = 2 ^ 32 * q) (rest : List Byte)
    (mem : Mem 64 Byte) :
    ∃ mem', after (fileWordRound word) (2 ^ 22 * q) ⟨⟨a ++ rest, fails, false⟩, 0, mem⟩ =
      some ⟨⟨rest, fails, false⟩, 0, mem'⟩ := by
  induction q generalizing a mem with
  | zero =>
      obtain rfl : a = [] := List.eq_nil_of_length_eq_zero ha
      exact ⟨mem, rfl⟩
  | succ q ih =>
      obtain ⟨a₁, a₂, a₃, rfl, h₁, h₂⟩ : ∃ a₁ a₂ a₃, a = a₁ ++ (a₂ ++ a₃) ∧
          a₁.length = 2 ^ 31 ∧ a₂.length = 2 ^ 31 :=
        ⟨a.take (2 ^ 31), (a.drop (2 ^ 31)).take (2 ^ 31), (a.drop (2 ^ 31)).drop (2 ^ 31),
          by rw [List.take_append_drop, List.take_append_drop],
          by rw [List.length_take]; omega,
          by rw [List.length_take, List.length_drop]; omega⟩
      simp only [List.length_append] at ha
      obtain ⟨mem', hrest⟩ := ih (a := a₃) (by omega)
        (store (store mem word a₁) (word + BitVec.ofInt 64 (-2 ^ 31)) a₂)
      refine ⟨mem', ?_⟩
      rw [Nat.mul_succ, Nat.add_comm, after_add, List.append_assoc, List.append_assoc,
        after_lap h₁ h₂, Option.bind_some, hrest]

/-- Of a file that goes round, the block holds the bytes behind the last round, and one of that. -/
theorem run_laps {q : Nat} {d₁ d₂ c : List Byte} (ha : a.length = 2 ^ 32 * q)
    (h₁ : d₁.length = 2 ^ 31) (h₂ : d₂.length = 2 ^ 31) (hc : c.length < 2 ^ 31)
    (hn : 2 ^ 22 * q + 2 ^ 22 + (c.length / 1024 + 2) ≤ n) (mem : Mem 64 Byte) :
    ∃ mem', run (fileWordRound word) n ⟨⟨a ++ (d₁ ++ (d₂ ++ c)), false, false⟩, 0, mem⟩ =
        some mem' ∧
      load mem' word (c.length + 1) = c ++ [d₁.getD c.length 0] := by
  obtain ⟨m, rfl⟩ := Nat.exists_eq_add_of_le hn
  obtain ⟨mem₁, hlaps⟩ : ∃ mem', after (fileWordRound word) (2 ^ 22 * q)
      ⟨⟨a ++ (d₁ ++ (d₂ ++ c)), false, false⟩, 0, mem⟩ = _ :=
    after_laps q ha (d₁ ++ (d₂ ++ c)) mem
  have hstretch : run (fileWordRound word) (c.length / 1024 + 2 + m)
      ⟨⟨c, false, false⟩, 0,
        store (store mem₁ word d₁) (word + BitVec.ofInt 64 (-2 ^ 31)) d₂⟩ = _ :=
    run_stretch hc (by omega)
  have hbehind : word + BitVec.ofNat 64 c.length =
      word + BitVec.ofInt 64 (-2 ^ 31) + BitVec.ofNat 64 (2 ^ 31 + c.length) := by
    rw [BitVec.add_assoc, ofInt_add_ofNat, ← BitVec.ofInt_natCast]
    push_cast
    rw [Int.neg_add_cancel_left]
  have hframe : d₂.length ≤
      (word + BitVec.ofNat 64 c.length - (word + BitVec.ofInt 64 (-2 ^ 31))).toNat := by
    rw [hbehind, toNat_add_ofNat_sub _ (by omega), h₂]
    omega
  have hbyte : store (store mem₁ word d₁) (word + BitVec.ofInt 64 (-2 ^ 31)) d₂
      (word + BitVec.ofNat 64 c.length) = d₁.getD c.length 0 := by
    rw [store_frame _ _ _ hframe, store, toNat_add_ofNat_sub word (by omega),
      List.getD_eq_getElem?_getD, List.getElem?_eq_getElem (by omega)]
    rfl
  refine ⟨store (store (store mem₁ word d₁) (word + BitVec.ofInt 64 (-2 ^ 31)) d₂) word c, ?_, ?_⟩
  · rw [Nat.add_assoc, Nat.add_assoc, run_after hlaps, run_after (after_lap h₁ h₂), hstretch]
  · rw [load_store_add _ _ _ (by omega), load, load, hbyte]

/-! ### The block -/

theorem bmod_bmod_pos {n : Nat} (hn : 2 ^ 31 ≤ n + 1)
    (hpos : 0 < (((n : Int).bmod (2 ^ 32) + 1).bmod (2 ^ 32)).toNat) :
    2 ^ 32 ≤ n ∧ n % 2 ^ 32 + 1 < 2 ^ 31 ∧
      (((n : Int).bmod (2 ^ 32) + 1).bmod (2 ^ 32)).toNat = n % 2 ^ 32 + 1 := by
  rw [Int.bmod_def, Int.bmod_def] at hpos ⊢
  split at hpos <;> split at hpos <;> omega

/-- A file whose size is an `int` has a block of its size. -/
theorem blockSize_eq (hlen : file.length + 1 < 2 ^ 31) : blockSize file = file.length + 1 := by
  have hsize : getFileSize file = file.length :=
    Int.bmod_eq_of_le_mul_two (by omega) (by omega)
  have hblock : (getFileSize file + 1).bmod (2 ^ 32) = getFileSize file + 1 :=
    Int.bmod_eq_of_le_mul_two (by omega) (by omega)
  rw [blockSize, hblock]
  omega

/-- A longer one has a block only if it goes round, of what is behind the last round. -/
theorem blockSize_eq_mod (hlen : 2 ^ 31 ≤ file.length + 1) (hpos : 0 < blockSize file) :
    2 ^ 32 ≤ file.length ∧ file.length % 2 ^ 32 + 1 < 2 ^ 31 ∧
      blockSize file = file.length % 2 ^ 32 + 1 :=
  bmod_bmod_pos hlen hpos

theorem loadImage_eq (hword : word ≠ 0) {mem' : Mem 64 Byte}
    (h : run (fileWordRound word) (file.length / 1024 + 2)
      ⟨{ bytes := file }, 0, store mem word (List.replicate (blockSize file) 0)⟩ = some mem') :
    loadImage file mem word = mem' := by
  rw [loadImage, getFileWord, calloced, if_neg hword, if_neg hword, h]
  rfl

/-- What the block holds of a file whose size is an `int`. -/
theorem load_loadImage (hlen : file.length + 1 < 2 ^ 31) (hword : word ≠ 0) :
    load (loadImage file mem word) word (file.length + 1) = file ++ [0] := by
  rw [loadImage_eq hword (run_stretch (by omega) (Nat.le_refl _)), load_store_add _ _ _ (by omega),
    load, load, store, toNat_add_ofNat_sub word (by omega), blockSize_eq hlen,
    List.getElem?_replicate, if_pos (Nat.lt_succ_self _), Option.getD_some]

/-- A file that goes round: rounds of it, the two halves of the last one, and the rest. -/
theorem exists_laps (hlen : 2 ^ 32 ≤ file.length) :
    ∃ q a d₁ d₂ c, file = a ++ (d₁ ++ (d₂ ++ c)) ∧ a.length = 2 ^ 32 * q ∧
      d₁.length = 2 ^ 31 ∧ d₂.length = 2 ^ 31 ∧ c.length < 2 ^ 32 := by
  obtain ⟨q, hq⟩ : ∃ q, file.length / 2 ^ 32 = q + 1 :=
    Nat.exists_eq_add_one.mpr (Nat.div_pos hlen (by decide))
  refine ⟨q, file.take (2 ^ 32 * q), (file.drop (2 ^ 32 * q)).take (2 ^ 31),
    ((file.drop (2 ^ 32 * q)).drop (2 ^ 31)).take (2 ^ 31),
    ((file.drop (2 ^ 32 * q)).drop (2 ^ 31)).drop (2 ^ 31), ?_, ?_, ?_, ?_, ?_⟩
  · rw [List.take_append_drop, List.take_append_drop, List.take_append_drop]
  all_goals
    simp only [List.length_take, List.length_drop]
    omega

theorem heldBytes_laps {q : Nat} {d₁ d₂ c : List Byte} (ha : a.length = 2 ^ 32 * q)
    (h₁ : d₁.length = 2 ^ 31) (h₂ : d₂.length = 2 ^ 31) (hc : c.length < 2 ^ 32) :
    (a ++ (d₁ ++ (d₂ ++ c))).length % 2 ^ 32 = c.length ∧
      (c.length < 2 ^ 31 →
        heldBytes (a ++ (d₁ ++ (d₂ ++ c))) = c ++ [d₁.getD c.length 0]) := by
  have hlen : (a ++ (d₁ ++ (d₂ ++ c))).length = 2 ^ 32 * (q + 1) + c.length := by
    simp only [List.length_append]
    omega
  have hdiv : (a ++ (d₁ ++ (d₂ ++ c))).length / 2 ^ 32 = q + 1 := by omega
  have hmod : (a ++ (d₁ ++ (d₂ ++ c))).length % 2 ^ 32 = c.length := by omega
  have hdrop : (a ++ (d₁ ++ (d₂ ++ c))).drop ((q + 1) * 2 ^ 32) = c := by
    rw [← List.append_assoc, ← List.append_assoc, List.drop_left' ?_]
    simp only [List.length_append]
    omega
  have hindex : q * 2 ^ 32 + c.length - a.length = c.length := by omega
  refine ⟨hmod, fun hshort => ?_⟩
  rw [heldBytes, if_neg (by omega), hdiv, hmod, hdrop, Nat.add_sub_cancel,
    List.getD_append_right _ _ _ _ (by omega), hindex, List.getD_append _ _ _ _ (by omega)]

/-- And of one that goes round. -/
theorem load_loadImage_laps (hlen : 2 ^ 32 ≤ file.length) (hmod : file.length % 2 ^ 32 + 1 < 2 ^ 31)
    (hword : word ≠ 0) :
    load (loadImage file mem word) word (file.length % 2 ^ 32 + 1) = heldBytes file := by
  obtain ⟨q, a, d₁, d₂, c, rfl, ha, h₁, h₂, hc⟩ := exists_laps hlen
  obtain ⟨hrest, hheld⟩ := heldBytes_laps ha h₁ h₂ hc
  rw [hrest] at hmod ⊢
  have hfuel : 2 ^ 22 * q + 2 ^ 22 + (c.length / 1024 + 2) ≤
      (a ++ (d₁ ++ (d₂ ++ c))).length / 1024 + 2 := by
    simp only [List.length_append]
    omega
  obtain ⟨mem', hrun, hload⟩ := run_laps ha h₁ h₂ (by omega) hfuel
    (store mem word (List.replicate (blockSize (a ++ (d₁ ++ (d₂ ++ c)))) 0))
  rw [loadImage_eq hword hrun, hload, hheld (by omega)]

theorem length_heldBytes (h : 2 ^ 32 ≤ file.length) :
    (heldBytes file).length = file.length % 2 ^ 32 + 1 := by
  rw [heldBytes, if_neg (Nat.not_lt.mpr h), List.length_append, List.length_drop,
    List.length_singleton]
  omega

/-- What the block holds of any file. -/
theorem loaded_loadImage (hword : word ≠ 0) (hroom : word.toNat + blockSize file ≤ 2 ^ 64) :
    Loaded (loadImage file mem word) word (heldBytes file) (blockSize file) := by
  by_cases hlen : file.length + 1 < 2 ^ 31
  · have hheld : heldBytes file = file := if_pos (by omega)
    rw [blockSize_eq hlen] at hroom ⊢
    rw [hheld]
    refine ⟨hword, hroom, Nat.le_refl _, ?_⟩
    rw [load_loadImage hlen hword, List.take_of_length_le]
    rw [List.length_append, List.length_singleton]
  · by_cases hpos : 0 < blockSize file
    · obtain ⟨hlong, hmod, hsize⟩ := blockSize_eq_mod (by omega) hpos
      have hheld := length_heldBytes hlong
      rw [hsize] at hroom ⊢
      refine ⟨hword, hroom, by omega, ?_⟩
      rw [load_loadImage_laps hlong hmod hword, List.take_append_of_le_length (by omega),
        List.take_of_length_le (by omega)]
    · rw [Nat.eq_zero_of_not_pos hpos] at hroom ⊢
      exact ⟨hword, hroom, Nat.zero_le _, rfl⟩

/-- For most files, all of the file. -/
theorem loaded_whole (hlen : file.length + 1 < 2 ^ 31) (hword : word ≠ 0)
    (hroom : word.toNat + (file.length + 1) ≤ 2 ^ 64) :
    Loaded (loadImage file mem word) word file (file.length + 1) := by
  have hheld : heldBytes file = file := if_pos (by omega)
  have hload : Loaded (loadImage file mem word) word (heldBytes file) (blockSize file) :=
    loaded_loadImage hword (by rw [blockSize_eq hlen]; exact hroom)
  rw [hheld, blockSize_eq hlen] at hload
  exact hload

end

/-! ## Fields -/

/-- The memory from `word` on. -/
def imageAt (mem : Mem 64 Byte) (word : Word) : Mem 64 Byte := fun off => mem (word + off)

/-- A field of `n` bytes. -/
def numAt (img : Mem 64 Byte) (off : Word) (n : Nat) : Nat := natOfBytes (load img off n)

/-- A field of eight bytes. -/
def wordAt (img : Mem 64 Byte) (off : Word) : Word := BitVec.ofNat 64 (numAt img off 8)

/-- The file and the NUL behind it, and zeros. -/
def fileImage (file : List Byte) : Mem 64 Byte := fun off => file.getD off.toNat 0

/-- `n` bytes from `off` on are in a block of this size. -/
def InBlock (size : Nat) (off : Word) (n : Nat) : Prop := off.toNat + n ≤ size

instance decInBlock (size : Nat) (off : Word) (n : Nat) : Decidable (InBlock size off n) :=
  inferInstanceAs (Decidable (off.toNat + n ≤ size))

section
variable {mem : Mem 64 Byte} {word off : Word} {file : List Byte} {n size : Nat}

theorem load_imageAt (mem : Mem 64 Byte) (word off : Word) (n : Nat) :
    load mem (word + off) n = load (imageAt mem word) off n := by
  induction n generalizing off with
  | zero => rfl
  | succ n ih => rw [load, load, BitVec.add_assoc, ih, imageAt]

theorem load_congr {m m' : Mem 64 Byte} {a a' : Word}
    (h : ∀ i < n, m (a + BitVec.ofNat 64 i) = m' (a' + BitVec.ofNat 64 i)) :
    load m a n = load m' a' n := by
  apply List.ext_getElem?
  intro i
  rw [getElem?_load, getElem?_load]
  split
  · rename_i hi
    rw [h i hi]
  · rfl

/-- Within the block the memory is the file. -/
theorem Loaded.byte (h : Loaded mem word file size) (hoff : off.toNat < size) :
    imageAt mem word off = fileImage file off := by
  have hfits := h.fits
  have hbyte := congrArg (fun l => l[off.toNat]?) h.here
  rw [getElem?_load, if_pos hoff, BitVec.ofNat_toNat, BitVec.setWidth_eq, List.getElem?_take,
    if_pos hoff] at hbyte
  rw [imageAt, fileImage, List.getD_eq_getElem?_getD]
  by_cases hlt : off.toNat < file.length
  · rw [List.getElem?_append_left hlt] at hbyte
    rw [← hbyte]
    rfl
  · rw [List.getElem?_append_right (by omega), show off.toNat - file.length = 0 by omega] at hbyte
    rw [List.getElem?_eq_none (by omega)]
    exact Option.some.inj hbyte

theorem toNat_add_ofNat {i : Nat} (h : off.toNat + i < 2 ^ 64) :
    (off + BitVec.ofNat 64 i).toNat = off.toNat + i := by
  rw [BitVec.toNat_add, BitVec.toNat_ofNat, Nat.mod_eq_of_lt (by omega : i < 2 ^ 64),
    Nat.mod_eq_of_lt h]

theorem Loaded.load_eq (h : Loaded mem word file size) (hoff : InBlock size off n) :
    load (imageAt mem word) off n = load (fileImage file) off n := by
  refine load_congr fun i hi => h.byte ?_
  have hroom := h.room
  rw [InBlock] at hoff
  rw [toNat_add_ofNat (by omega)]
  omega

end

end TestDbug
