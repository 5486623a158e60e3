/-
# `TestDbug.Maps` — the base address read from `/proc/pid/maps`

`get_pid_base` scans every line of the file into one buffer, which nothing
clears in between: a line without a path leaves the path of an earlier one
there.  A path is scanned up to the first blank and with its newline, and it is
compared with the path of the program over one character less than that has.

The fields go to four places of the buffer, each as long as it is.  Of a line
without blanks the first field runs over the places of the others; those of a
`MapsLine`, a line as the kernel prints it, keep apart as far as the loop looks
at them (`isTarget_scan`).  `base_from_maps_iff` says for which texts and
programs the address returned is that of the program.
-/
import TestDbug.Command
import TestDbug.Lib.Text
import Mathlib.Data.List.TakeWhile

open ByteMemory Interaction Text

namespace TestDbug

/-! ## `get_pid_base` -/

/-- `sscanf(s, "%[^ ] %[^ ] ...", ...)` with `n` fields: those it fills in. -/
def sscanfFields : Nat → CStr → List CStr
  | 0, _ => []
  | n + 1, s =>
      match s.takeWhile (· ≠ 32) with
      | [] => []
      | c :: cs => (c :: cs) :: sscanfFields n ((s.dropWhile (· ≠ 32)).dropWhile isspace)

/-- `buf`, of `BUFSIZE` bytes. -/
abbrev MapsBuf := Mem 10 Byte

/-! The pointers into it. -/

def proAddr : BitVec 10 := 0

def proMaps : BitVec 10 := proAddr + 100

def proName : BitVec 10 := proMaps + 100

def proP : BitVec 10 := proName + 256

/-- What `sscanf(data, ...)` stores, and where: the fields it fills in, each with
its NUL, one behind the other. -/
def fieldStores (data : CStr) : List (BitVec 10 × List Byte) :=
  [proAddr, proP, proMaps, proP, proP, proName].zip ((sscanfFields 6 data).map (· ++ [0]))

def MapsBuf.scan (buf : MapsBuf) (data : CStr) : MapsBuf := stores buf (fieldStores data)

/-- The string at a pointer. -/
def MapsBuf.str (buf : MapsBuf) (ptr : BitVec 10) : CStr :=
  (load buf ptr (1024 - ptr.toNat)).takeWhile (· ≠ 0)

/-- The two `memcmp`, over `target_len - 1` and 8 bytes. -/
def MapsBuf.isTarget (buf : MapsBuf) (target : CStr) : Bool :=
  load buf proName (target.length - 1) = target.dropLast &&
    load buf proMaps 8 = List.replicate 8 48

/-- `memset(p, 0, 10)`, `sscanf(pro_addr, "%[^-]", p)` and `str2uint64(p, num)`. -/
def MapsBuf.num (buf : MapsBuf) : Word :=
  let buf : MapsBuf := store buf proP (List.replicate 10 0)
  let addr := (buf.str proAddr).takeWhile (· ≠ 45)
  let buf : MapsBuf := if addr = [] then buf else store buf proP (addr ++ [0])
  (sscanfLx (buf.str proP)).getD 0

/-- `feof` behind a read of at most `n` characters: it looked for one more. -/
def hitsEnd (n : Nat) (s : List Byte) : Bool :=
  (gets newline n s).1.length < n && (gets newline n s).1.getLast? ≠ some newline

/-- The loop over the lines of `maps`; `none` if it has not come to its end
after `fuel` rounds.  `data` is zeroed behind every round. -/
def mapsLoop (target : CStr) : Nat → List Byte → MapsBuf → Option Word
  | 0, _, _ => none
  | fuel + 1, fp, buf =>
      let (data, rest) := gets newline 511 fp
      let buf := buf.scan (data.takeWhile (· ≠ 0))
      if buf.isTarget target then some buf.num
      else if hitsEnd 511 fp then some 0
      else mapsLoop target fuel rest buf

/-- `readlink` of a program's path, as it fits into `target`. -/
structure ExePath where
  path : CStr
  nonempty : path ≠ []
  noNul : 0 ∉ path
  short : path.length < 100

/-- `get_pid_base` on what `/proc/pid/maps` holds, if it can be opened. -/
def getPidBase (maps : Option (List Byte)) (target : ExePath) : Option Word :=
  match maps with
  | none => some (BitVec.allOnes 64)
  | some fp => mapsLoop target.path (fp.length + 1) fp (fun _ => 0)

/-! ## Lines of the kernel -/

/-- A digit of `%lx`. -/
def hexDigit (d : Nat) : Byte := BitVec.ofNat 8 (if d < 10 then 48 + d else 87 + d)

/-- The low `k` hexadecimal digits of a number, most significant first. -/
def hexDigitsOf : Nat → Nat → CStr
  | 0, _ => []
  | k + 1, n => hexDigitsOf k (n / 16) ++ [hexDigit (n % 16)]

/-- `%08lx`. -/
def hex8 (w : Word) : CStr :=
  ((hexDigitsOf 16 w.toNat).take 8).dropWhile (· = 48) ++ (hexDigitsOf 16 w.toNat).drop 8

/-- Something without whitespace, and no NUL in it. -/
def IsField (s : CStr) : Prop := s ≠ [] ∧ ∀ c ∈ s, isspace c = false ∧ c ≠ 0

/-- A path or the name of a mapping as `maps` shows it: blanks may be in it, a
newline is written otherwise. -/
def IsShown (s : CStr) : Prop :=
  (∀ c ∈ s.head?, isspace c = false) ∧ s ≠ [] ∧ ∀ c ∈ s, c ≠ newline ∧ c ≠ 0

instance decIsField (s : CStr) : Decidable (IsField s) :=
  inferInstanceAs (Decidable (s ≠ [] ∧ ∀ c ∈ s, isspace c = false ∧ c ≠ 0))

instance decIsShown (s : CStr) : Decidable (IsShown s) :=
  inferInstanceAs (Decidable ((∀ c ∈ s.head?, isspace c = false) ∧ s ≠ [] ∧
    ∀ c ∈ s, c ≠ newline ∧ c ≠ 0))

/-- A line of `/proc/pid/maps`. -/
structure MapsLine where
  start : Word
  stop : Word
  perms : CStr
  offset : Word
  dev : CStr
  inode : CStr
  pad : Nat
  path : Option CStr
  perms_field : IsField perms
  dev_field : IsField dev
  inode_field : IsField inode
  path_shown : ∀ p ∈ path, IsShown p

/-- `start-stop perms offset dev inode path`, where an anonymous mapping ends
with the blank behind the inode. -/
def MapsLine.front (l : MapsLine) : CStr :=
  hex8 l.start ++ 45 :: hex8 l.stop ++ 32 :: (l.perms ++ 32 :: (hex8 l.offset ++
    32 :: (l.dev ++ 32 :: (l.inode ++ 32 :: (List.replicate l.pad 32 ++ l.path.getD [])))))

def MapsLine.text (l : MapsLine) : List Byte := l.front ++ [newline]

def mapsText (ls : List MapsLine) : List Byte := ls.flatMap MapsLine.text

/-- What all but the path of the line puts into the buffer. -/
def MapsLine.frontStores (l : MapsLine) : List (BitVec 10 × List Byte) :=
  [(proAddr, hex8 l.start ++ 45 :: hex8 l.stop ++ [0]), (proP, l.perms ++ [0]),
    (proMaps, hex8 l.offset ++ [0]), (proP, l.dev ++ [0]), (proP, l.inode ++ [0])]

/-- What the line leaves at `pro_name`. -/
def MapsLine.shown (l : MapsLine) (earlier : CStr) : CStr :=
  match l.path with
  | some p => (p ++ [newline]).takeWhile (· ≠ 32)
  | none => earlier

/-- Every line, with what is at `pro_name` behind it. -/
def shownNames : CStr → List MapsLine → List (CStr × MapsLine)
  | _, [] => []
  | earlier, l :: ls => (l.shown earlier, l) :: shownNames (l.shown earlier) ls

/-! ### What is asked for -/

/-- The mapping of the program at the start of its file. -/
def MapsLine.IsProgram (target : CStr) (l : MapsLine) : Prop := l.path = some target ∧ l.offset = 0

instance decIsProgram (target : CStr) (l : MapsLine) : Decidable (l.IsProgram target) :=
  inferInstanceAs (Decidable (l.path = some target ∧ l.offset = 0))

/-- Where the program begins, and 0 if it is not there. -/
def programBase (target : CStr) (ls : List MapsLine) : Word :=
  ((ls.find? (fun l => l.IsProgram target)).map MapsLine.start).getD 0

/-- The loop stops at this line. -/
def Taken (target : CStr) (x : CStr × MapsLine) : Prop :=
  target.dropLast <+: x.1 ∧ x.2.offset = 0

instance decTaken (target : CStr) (x : CStr × MapsLine) : Decidable (Taken target x) :=
  inferInstanceAs (Decidable (target.dropLast <+: x.1 ∧ x.2.offset = 0))

/-! ## Numbers -/

theorem xdigit_hexDigit {d : Nat} (hd : d < 16) : xdigit (hexDigit d) = some d := by
  have h : ∀ d < 16, xdigit (hexDigit d) = some d := by decide
  exact h d hd

/-- Nothing of a number is taken for anything else. -/
theorem hexDigit_plain {d : Nat} (hd : d < 16) :
    isspace (hexDigit d) = false ∧ hexDigit d ≠ 0 ∧ hexDigit d ≠ 43 ∧ hexDigit d ≠ 45 ∧
      hexDigit d ≠ 88 ∧ hexDigit d ≠ 120 := by
  have h : ∀ d < 16, isspace (hexDigit d) = false ∧ hexDigit d ≠ 0 ∧ hexDigit d ≠ 43 ∧
      hexDigit d ≠ 45 ∧ hexDigit d ≠ 88 ∧ hexDigit d ≠ 120 := by decide
  exact h d hd

/-- A string of hexadecimal digits. -/
def IsHex (s : CStr) : Prop := ∀ c ∈ s, ∃ d < 16, c = hexDigit d

/-- The number they denote. -/
def hexValue (s : CStr) : Nat := (s.filterMap xdigit).foldl (fun v d => 16 * v + d) 0

theorem isHex_hexDigitsOf (k n : Nat) : IsHex (hexDigitsOf k n) := by
  induction k generalizing n with
  | zero => exact fun c hc => by cases hc
  | succ k ih =>
      intro c hc
      rcases List.mem_append.mp hc with hc | hc
      · exact ih _ c hc
      · exact ⟨n % 16, Nat.mod_lt n (by decide), List.mem_singleton.mp hc⟩

theorem length_hexDigitsOf (k n : Nat) : (hexDigitsOf k n).length = k := by
  induction k generalizing n with
  | zero => rfl
  | succ k ih => rw [hexDigitsOf, List.length_append, ih, List.length_singleton]

theorem hexValue_hexDigitsOf (k n : Nat) : hexValue (hexDigitsOf k n) = n % 16 ^ k := by
  induction k generalizing n with
  | zero => simp [hexValue, hexDigitsOf, Nat.mod_one]
  | succ k ih =>
      have hlast : [hexDigit (n % 16)].filterMap xdigit = [n % 16] := by
        simp [xdigit_hexDigit (Nat.mod_lt n (by decide : 0 < 16))]
      have hsum : 16 * hexValue (hexDigitsOf k (n / 16)) + n % 16 = n % 16 ^ (k + 1) := by
        rw [ih, Nat.pow_succ', Nat.mod_mul, Nat.add_comm]
      rw [← hsum, hexValue, hexDigitsOf, List.filterMap_append, hlast, List.foldl_append]
      rfl

/-- Leading zeros do not count. -/
theorem hexValue_dropWhile (s t : CStr) :
    hexValue (s.dropWhile (· = 48) ++ t) = hexValue (s ++ t) := by
  induction s with
  | nil => rfl
  | cons c s ih =>
      by_cases hc : c = 48
      · have hzero : xdigit 48 = some 0 := by decide
        rw [List.dropWhile_cons_of_pos (by simpa using hc), ih, hc, List.cons_append, hexValue,
          hexValue, List.filterMap_cons_some hzero]
        rfl
      · rw [List.dropWhile_cons_of_neg (by simpa using hc)]

theorem isHex_hex8 (w : Word) : IsHex (hex8 w) := by
  intro c hc
  rcases List.mem_append.mp hc with hc | hc
  · have hc := (List.dropWhile_suffix _).subset hc
    exact isHex_hexDigitsOf 16 w.toNat c (List.mem_of_mem_take hc)
  · exact isHex_hexDigitsOf 16 w.toNat c (List.mem_of_mem_drop hc)

theorem hexValue_hex8 (w : Word) : hexValue (hex8 w) = w.toNat := by
  rw [hex8, hexValue_dropWhile, List.take_append_drop, hexValue_hexDigitsOf]
  exact Nat.mod_eq_of_lt w.isLt

theorem length_drop_hex (w : Word) : ((hexDigitsOf 16 w.toNat).drop 8).length = 8 := by
  rw [List.length_drop, length_hexDigitsOf]

theorem length_hex8_le (w : Word) : (hex8 w).length ≤ 16 := by
  have hhigh := (List.dropWhile_suffix (p := (· = 48))
    (l := (hexDigitsOf 16 w.toNat).take 8)).length_le
  rw [hex8, List.length_append, length_drop_hex]
  rw [List.length_take, length_hexDigitsOf] at hhigh
  exact Nat.add_le_add_right hhigh 8

theorem hex8_ne_nil (w : Word) : hex8 w ≠ [] := by
  intro h
  have hlen := length_drop_hex w
  rw [(List.append_eq_nil_iff.mp h).2] at hlen
  cases hlen

/-- `%lx` reads what `%lx` has written. -/
theorem sscanfLx_hex {s : CStr} (hs : IsHex s) (hne : s ≠ []) (hlt : hexValue s < 2 ^ 64) :
    sscanfLx s = some (BitVec.ofNat 64 (hexValue s)) := by
  obtain ⟨c, t, rfl⟩ := List.exists_cons_of_ne_nil hne
  have hplain : ∀ x ∈ c :: t, isspace x = false ∧ x ≠ 0 ∧ x ≠ 43 ∧ x ≠ 45 ∧ x ≠ 88 ∧ x ≠ 120 := by
    intro x hx
    obtain ⟨d, hd, rfl⟩ := hs x hx
    exact hexDigit_plain hd
  have hdigit : ∀ x ∈ c :: t, (xdigit x).isSome = true := by
    intro x hx
    obtain ⟨d, hd, rfl⟩ := hs x hx
    rw [xdigit_hexDigit hd]
    rfl
  have hdrop : (c :: t).dropWhile isspace = c :: t :=
    List.dropWhile_cons_of_neg (by simp [(hplain c List.mem_cons_self).1])
  have hsigned : signed (c :: t) = (false, c :: t) := by
    rw [signed, if_neg (hplain c List.mem_cons_self).2.2.2.1,
      if_neg (hplain c List.mem_cons_self).2.2.1]
  have hno : ¬((c :: t).take 2 = lit ['0', 'x'] ∨ (c :: t).take 2 = lit ['0', 'X']) := by
    rintro (h | h)
    · have hx : (120 : Byte) ∈ (c :: t).take 2 := by rw [h]; decide
      exact (hplain 120 (List.mem_of_mem_take hx)).2.2.2.2.2 rfl
    · have hx : (88 : Byte) ∈ (c :: t).take 2 := by rw [h]; decide
      exact (hplain 88 (List.mem_of_mem_take hx)).2.2.2.2.1 rfl
  have hdigits : hexDigits (c :: t) = (c :: t).filterMap xdigit := by
    rw [hexDigits, if_neg hno, List.takeWhile_eq_self_iff.mpr hdigit]
  have hsome : (c :: t).filterMap xdigit ≠ [] := by
    obtain ⟨d, hd⟩ := Option.isSome_iff_exists.mp (hdigit c List.mem_cons_self)
    rw [List.filterMap_cons_some hd]
    exact List.cons_ne_nil _ _
  rw [sscanfLx, hdrop, hsigned]
  dsimp only
  rw [hdigits, if_neg hsome]
  exact if_neg (Nat.not_le.mpr hlt)

theorem dropWhile_eq_nil_of_prefix {x : Byte} {a b l : CStr}
    (h : x :: l <+: a.dropWhile (· = x) ++ b) : a.dropWhile (· = x) = [] := by
  induction a with
  | nil => rfl
  | cons c a ih =>
      by_cases hc : c = x
      · rw [List.dropWhile_cons_of_pos (by simpa using hc)] at h ⊢
        exact ih h
      · rw [List.dropWhile_cons_of_neg (by simpa using hc), List.cons_append] at h
        exact absurd (List.cons_prefix_cons.mp h).1.symm hc

/-- Eight zeros are the offset 0. -/
theorem zeros_prefix_hex8 {w : Word} : List.replicate 8 48 <+: hex8 w ↔ w = 0 := by
  constructor
  · intro h
    have hhigh := dropWhile_eq_nil_of_prefix h
    rw [hex8, hhigh, List.nil_append] at h
    have hlow := h.eq_of_length (by rw [length_drop_hex, List.length_replicate])
    have hval := hexValue_hex8 w
    rw [hex8, hhigh, ← hlow] at hval
    exact BitVec.eq_of_toNat_eq (hval.symm.trans (by decide))
  · rintro rfl
    decide

/-! ## Fields -/

section
variable {f rest s : CStr} {n : Nat} {l : MapsLine} {buf : MapsBuf} {target : CStr}

theorem isField_hex8 (w : Word) : IsField (hex8 w) := by
  refine ⟨hex8_ne_nil w, fun c hc => ?_⟩
  obtain ⟨d, hd, rfl⟩ := isHex_hex8 w c hc
  exact ⟨(hexDigit_plain hd).1, (hexDigit_plain hd).2.1⟩

theorem IsField.blank_notMem (hf : IsField f) : 32 ∉ f := by
  intro h
  cases (hf.2 32 h).1

/-- A field with a blank behind it. -/
theorem sscanfFields_field (hne : f ≠ []) (hf : 32 ∉ f) :
    sscanfFields (n + 1) (f ++ 32 :: rest) = f :: sscanfFields n (rest.dropWhile isspace) := by
  obtain ⟨c, cs, rfl⟩ := List.exists_cons_of_ne_nil hne
  rw [sscanfFields, takeWhile_ne_append hf, dropWhile_ne_append hf]
  rfl

/-- The last field goes to the next blank, or to the end. -/
theorem sscanfFields_last (hne : s.takeWhile (· ≠ 32) ≠ []) :
    sscanfFields 1 s = [s.takeWhile (· ≠ 32)] := by
  obtain ⟨c, cs, hs⟩ := List.exists_cons_of_ne_nil hne
  rw [sscanfFields, hs]
  rfl

theorem IsField.dropWhile_append (hf : IsField f) :
    (f ++ rest).dropWhile isspace = f ++ rest := by
  obtain ⟨c, cs, rfl⟩ := List.exists_cons_of_ne_nil hf.1
  exact List.dropWhile_cons_of_neg (by simp [(hf.2 c List.mem_cons_self).1])

theorem dropWhile_pad (n : Nat) (s : CStr) :
    (List.replicate n 32 ++ s).dropWhile isspace = s.dropWhile isspace := by
  refine List.dropWhile_append_of_pos fun c hc => ?_
  rw [List.eq_of_mem_replicate hc]
  rfl

/-- What stands behind the inode: nothing, or the path. -/
theorem sscanfFields_path (l : MapsLine) :
    sscanfFields 1
        ((List.replicate l.pad 32 ++ l.path.getD [] ++ [newline]).dropWhile isspace) =
      match l.path with
      | some p => [(p ++ [newline]).takeWhile (· ≠ 32)]
      | none => [] := by
  rw [List.append_assoc, dropWhile_pad]
  cases hpath : l.path with
  | none => rfl
  | some p =>
      obtain ⟨hhead, hne, -⟩ := l.path_shown p hpath
      obtain ⟨c, cs, rfl⟩ := List.exists_cons_of_ne_nil hne
      have hc : isspace c = false := hhead c rfl
      have hblank : c ≠ 32 := by
        rintro rfl
        cases hc
      rw [Option.getD_some, List.cons_append, List.dropWhile_cons_of_neg (by simp [hc])]
      refine sscanfFields_last ?_
      rw [List.takeWhile_cons_of_pos (by simpa using hblank)]
      exact List.cons_ne_nil _ _

theorem blank_notMem_range (a b : Word) : 32 ∉ hex8 a ++ 45 :: hex8 b := by
  intro h
  rcases List.mem_append.mp h with h | h
  · exact (isField_hex8 a).blank_notMem h
  · rcases List.mem_cons.mp h with h | h
    · cases h
    · exact (isField_hex8 b).blank_notMem h

/-- The fields of a line. -/
theorem sscanfFields_text (l : MapsLine) :
    sscanfFields 6 l.text =
      [hex8 l.start ++ 45 :: hex8 l.stop, l.perms, hex8 l.offset, l.dev, l.inode] ++
        match l.path with
        | some p => [(p ++ [newline]).takeWhile (· ≠ 32)]
        | none => [] := by
  have hrange : hex8 l.start ++ 45 :: hex8 l.stop ≠ [] := by simp
  have htext : l.text = (hex8 l.start ++ 45 :: hex8 l.stop) ++ 32 :: (l.perms ++ 32 ::
      (hex8 l.offset ++ 32 :: (l.dev ++ 32 :: (l.inode ++ 32 ::
        (List.replicate l.pad 32 ++ l.path.getD [] ++ [newline]))))) := by
    simp [MapsLine.text, MapsLine.front]
  rw [htext, sscanfFields_field hrange (blank_notMem_range _ _), l.perms_field.dropWhile_append,
    sscanfFields_field l.perms_field.1 l.perms_field.blank_notMem,
    (isField_hex8 l.offset).dropWhile_append,
    sscanfFields_field (hex8_ne_nil _) (isField_hex8 l.offset).blank_notMem,
    l.dev_field.dropWhile_append, sscanfFields_field l.dev_field.1 l.dev_field.blank_notMem,
    l.inode_field.dropWhile_append,
    sscanfFields_field l.inode_field.1 l.inode_field.blank_notMem, sscanfFields_path]
  rfl

/-- What it stores. -/
theorem fieldStores_text (l : MapsLine) :
    fieldStores l.text =
      l.frontStores ++
        match l.path with
        | some p => [(proName, (p ++ [newline]).takeWhile (· ≠ 32) ++ [0])]
        | none => [] := by
  rw [fieldStores, sscanfFields_text]
  cases l.path <;> rfl

/-- The characters of a line are printed ones, up to the newline. -/
theorem front_plain (l : MapsLine) : ∀ c ∈ l.front, c ≠ newline ∧ c ≠ 0 := by
  have hfield : ∀ {f : CStr}, IsField f → ∀ c ∈ f, c ≠ newline ∧ c ≠ 0 := by
    intro f hf c hc
    refine ⟨?_, (hf.2 c hc).2⟩
    rintro rfl
    cases (hf.2 newline hc).1
  have hpath : ∀ c ∈ l.path.getD [], c ≠ newline ∧ c ≠ 0 := by
    cases hl : l.path with
    | none => exact fun c hc => by cases hc
    | some p => exact (l.path_shown p hl).2.2
  have hpad : ∀ c ∈ List.replicate l.pad (32 : Byte), c ≠ newline ∧ c ≠ 0 := by
    intro c hc
    rw [List.eq_of_mem_replicate hc]
    decide
  have hblank : (32 : Byte) ≠ newline ∧ (32 : Byte) ≠ 0 := by decide
  have hdash : (45 : Byte) ≠ newline ∧ (45 : Byte) ≠ 0 := by decide
  simp only [MapsLine.front, List.forall_mem_append, List.forall_mem_cons]
  exact ⟨⟨hfield (isField_hex8 _), hdash, hfield (isField_hex8 _)⟩, hblank, hfield l.perms_field,
    hblank, hfield (isField_hex8 _), hblank, hfield l.dev_field, hblank, hfield l.inode_field,
    hblank, hpad, hpath⟩

/-! ### The buffer -/

/-- As much of a string as the path of a program can be compared with. -/
def MapsBuf.Names (buf : MapsBuf) (name : CStr) : Prop :=
  (load buf proName 99).takeWhile (· ≠ 0) = name.take 99

theorem names_zero : MapsBuf.Names (fun _ => 0) [] := rfl

/-- A string is there up to its NUL. -/
theorem takeWhile_load_store (buf : MapsBuf) (ptr : BitVec 10) {k : Nat} (h0 : 0 ∉ s)
    (hs : s.length < 1024) (hk : k ≤ 1024) :
    (load (store buf ptr (s ++ [0])) ptr k).takeWhile (· ≠ 0) = s.take k := by
  have hlen : (s ++ [(0 : Byte)]).length = s.length + 1 := List.length_append
  rw [load_store_upto buf ptr _ hk (by omega), hlen]
  rcases Nat.lt_or_ge s.length k with hlt | hge
  · rw [List.take_of_length_le (by omega), List.append_assoc, List.singleton_append,
      takeWhile_ne_append h0, List.take_of_length_le (Nat.le_of_lt hlt)]
  · rw [List.take_append_of_le_length hge, Nat.sub_eq_zero_of_le (by omega), load,
      List.append_nil]
    exact takeWhile_ne_eq_self fun h => h0 (List.mem_of_mem_take h)

/-- And is no matter elsewhere. -/
theorem load_store_str (buf : MapsBuf) {ptr ptr' : BitVec 10} {k : Nat}
    (hs : s.length < (ptr' - ptr).toNat) (hk : (ptr' - ptr).toNat + k ≤ 1024) :
    load (store buf ptr (s ++ [0])) ptr' k = load buf ptr' k :=
  load_store_off buf ptr ptr' _ (by rw [List.length_append, List.length_singleton]; omega) hk

/-- The parts of a line that fits are short. -/
theorem length_parts (hfit : l.text.length < 512) :
    l.perms.length < 512 ∧ l.dev.length < 512 ∧ l.inode.length < 512 ∧
      ∀ p ∈ l.path, (p ++ [newline]).length < 512 := by
  simp only [MapsLine.text, MapsLine.front, List.length_append, List.length_cons] at hfit
  refine ⟨by omega, by omega, by omega, fun p hp => ?_⟩
  rw [hp, Option.getD_some] at hfit
  rw [List.length_append, List.length_singleton]
  omega

theorem length_range_lt (a b : Word) : (hex8 a ++ 45 :: hex8 b).length < 34 := by
  have ha := length_hex8_le a
  have hb := length_hex8_le b
  rw [List.length_append, List.length_cons]
  omega

theorem length_shown_lt {p : CStr} (h : (p ++ [newline]).length < 512) :
    ((p ++ [newline]).takeWhile (· ≠ 32)).length < 512 :=
  Nat.lt_of_le_of_lt (List.takeWhile_prefix _).length_le h

/-- All but its path leaves the addresses and the offset, and the name as it was. -/
theorem load_front (buf : MapsBuf) (hfit : l.text.length < 512) :
    let front := stores buf l.frontStores
    load front proAddr ((hex8 l.start ++ 45 :: hex8 l.stop).length + 1) =
        hex8 l.start ++ 45 :: hex8 l.stop ++ [0] ∧
      load front proMaps 8 = (hex8 l.offset).take 8 ∧
      load front proName 99 = load buf proName 99 := by
  obtain ⟨hperms, hdev, hinode, -⟩ := length_parts hfit
  have hrange := length_range_lt l.start l.stop
  have hoffset := length_hex8_le l.offset
  have hlow : 8 ≤ (hex8 l.offset).length := by
    rw [hex8, List.length_append, length_drop_hex]
    exact Nat.le_add_left 8 _
  have hend : ∀ f : CStr, (f ++ [(0 : Byte)]).length = f.length + 1 := fun f => List.length_append
  -- how far the places are behind one another, round the end of the buffer
  have hAM : (proMaps - proAddr).toNat = 100 := rfl
  have hAN : (proName - proAddr).toNat = 200 := rfl
  have hMA : (proAddr - proMaps).toNat = 924 := rfl
  have hMN : (proName - proMaps).toNat = 100 := rfl
  have hPA : (proAddr - proP).toNat = 568 := rfl
  have hPM : (proMaps - proP).toNat = 668 := rfl
  have hPN : (proName - proP).toNat = 768 := rfl
  simp only [MapsLine.frontStores, stores]
  refine ⟨?_, ?_, ?_⟩
  · rw [load_store_str _ (by omega) (by omega), load_store_str _ (by omega) (by omega),
      load_store_str _ (by omega) (by omega), load_store_str _ (by omega) (by omega), ← hend]
    exact load_store _ _ _ (by rw [hend]; omega)
  · rw [load_store_str _ (by omega) (by omega), load_store_str _ (by omega) (by omega),
      load_store_upto _ _ _ (by decide) (by rw [hend]; omega), hend,
      Nat.sub_eq_zero_of_le (by omega), List.take_append_of_le_length hlow, load, List.append_nil]
  · rw [load_store_str _ (by omega) (by omega), load_store_str _ (by omega) (by omega),
      load_store_str _ (by omega) (by omega), load_store_str _ (by omega) (by omega),
      load_store_str _ (by omega) (by omega)]

theorem scan_text (buf : MapsBuf) (l : MapsLine) :
    buf.scan l.text =
      match l.path with
      | some p =>
          store (stores buf l.frontStores) proName ((p ++ [newline]).takeWhile (· ≠ 32) ++ [0])
      | none => stores buf l.frontStores := by
  rw [MapsBuf.scan, fieldStores_text, stores_append]
  cases l.path <;> simp only [stores]

/-- What a line of the kernel leaves in the buffer. -/
theorem load_scan (buf : MapsBuf) (hfit : l.text.length < 512) :
    load (buf.scan l.text) proAddr ((hex8 l.start ++ 45 :: hex8 l.stop).length + 1) =
        hex8 l.start ++ 45 :: hex8 l.stop ++ [0] ∧
      load (buf.scan l.text) proMaps 8 = (hex8 l.offset).take 8 := by
  obtain ⟨haddr, hmaps, -⟩ := load_front buf hfit
  rw [scan_text]
  cases hp : l.path with
  | none => exact ⟨haddr, hmaps⟩
  | some p =>
      have hshort := length_shown_lt ((length_parts hfit).2.2.2 p hp)
      have hrange := length_range_lt l.start l.stop
      have hNA : (proAddr - proName).toNat = 824 := rfl
      have hNM : (proMaps - proName).toNat = 924 := rfl
      dsimp only
      constructor
      · rw [load_store_str _ (by omega) (by omega)]
        exact haddr
      · rw [load_store_str _ (by omega) (by omega)]
        exact hmaps

theorem names_scan {earlier : CStr} (hfit : l.text.length < 512) (h : buf.Names earlier) :
    MapsBuf.Names (buf.scan l.text) (l.shown earlier) := by
  rw [scan_text, MapsBuf.Names, MapsLine.shown]
  cases hp : l.path with
  | none =>
      dsimp only
      rw [(load_front buf hfit).2.2]
      exact h
  | some p =>
      have hshort := length_shown_lt ((length_parts hfit).2.2.2 p hp)
      refine takeWhile_load_store _ proName ?_ (by omega) (by decide)
      intro h0
      have hmem := (List.takeWhile_prefix _).subset h0
      rcases List.mem_append.mp hmem with h0 | h0
      · exact ((l.path_shown p hp).2.2 0 h0).2 rfl
      · cases List.mem_singleton.mp h0

/-- What a path is compared with. -/
theorem MapsBuf.Names.load_eq_iff {name t : CStr} (h : buf.Names name) (h0 : 0 ∉ t)
    (hlen : t.length ≤ 99) : load buf proName t.length = t ↔ t <+: name := by
  have hfront : t <+: (load buf proName 99).takeWhile (· ≠ 0) ↔ t <+: load buf proName 99 :=
    prefix_takeWhile_ne h0
  have hload : t <+: load buf proName 99 ↔ t = load buf proName t.length := by
    rw [List.prefix_iff_eq_take, load_take _ _ hlen]
  rw [h, List.prefix_take_iff, and_iff_left hlen, hload] at hfront
  rw [hfront]
  exact eq_comm

/-- What the loop looks at after a line. -/
theorem isTarget_scan {earlier : CStr} (target : ExePath) (hfit : l.text.length < 512)
    (h : buf.Names earlier) :
    (buf.scan l.text).isTarget target.path = decide (Taken target.path (l.shown earlier, l)) := by
  have hname : load (buf.scan l.text) proName (target.path.length - 1) = target.path.dropLast ↔
      target.path.dropLast <+: l.shown earlier := by
    rw [← List.length_dropLast]
    refine (names_scan hfit h).load_eq_iff (fun h0 => ?_) ?_
    · exact target.noNul ((List.dropLast_prefix _).subset h0)
    · have := target.short
      rw [List.length_dropLast]
      omega
  have hzeros : load (buf.scan l.text) proMaps 8 = List.replicate 8 48 ↔ l.offset = 0 := by
    rw [(load_scan buf hfit).2, ← zeros_prefix_hex8, List.prefix_iff_eq_take,
      List.length_replicate]
    exact eq_comm
  rw [Bool.eq_iff_iff, MapsBuf.isTarget, Bool.and_eq_true, decide_eq_true_iff, decide_eq_true_iff,
    decide_eq_true_iff, hname, hzeros]
  exact Iff.rfl

/-- A string just stored. -/
theorem str_store (buf : MapsBuf) (ptr : BitVec 10) (h0 : 0 ∉ s)
    (hlen : s.length + 1 ≤ 1024 - ptr.toNat) :
    MapsBuf.str (store buf ptr (s ++ [0])) ptr = s := by
  rw [MapsBuf.str, takeWhile_load_store buf ptr h0 (by omega) (Nat.sub_le _ _),
    List.take_of_length_le (by omega)]

/-- One that was left alone. -/
theorem str_of_load (ptr : BitVec 10) (h0 : 0 ∉ s) (hlen : s.length + 1 ≤ 1024 - ptr.toNat)
    (hload : load buf ptr (s.length + 1) = s ++ [0]) : buf.str ptr = s := by
  obtain ⟨j, hj⟩ := Nat.exists_eq_add_of_le hlen
  rw [MapsBuf.str, hj, load_add, hload, List.append_assoc, List.singleton_append,
    takeWhile_ne_append h0]

theorem num_scan (buf : MapsBuf) (hfit : l.text.length < 512) :
    (buf.scan l.text).num = l.start := by
  have hhex : ∀ {w : Word}, ∀ c ∈ hex8 w, c ≠ 0 ∧ c ≠ 45 := by
    intro w c hc
    obtain ⟨d, hd, rfl⟩ := isHex_hex8 w c hc
    exact ⟨(hexDigit_plain hd).2.1, (hexDigit_plain hd).2.2.2.1⟩
  have hstart := length_hex8_le l.start
  have hrange := length_range_lt l.start l.stop
  have haddr : MapsBuf.str (store (buf.scan l.text) proP (List.replicate 10 0)) proAddr =
      hex8 l.start ++ 45 :: hex8 l.stop := by
    refine str_of_load proAddr ?_ ?_ ?_
    · simp only [List.mem_append, List.mem_cons, not_or]
      exact ⟨fun h => (hhex 0 h).1 rfl, by decide, fun h => (hhex 0 h).1 rfl⟩
    · have hzero : proAddr.toNat = 0 := rfl
      omega
    · have hPA : (proAddr - proP).toNat = 568 := rfl
      rw [load_store_off _ _ _ _ (by rw [List.length_replicate]; omega) (by omega)]
      exact (load_scan buf hfit).1
  have hP : proP.toNat = 456 := rfl
  have hval := hexValue_hex8 l.start
  rw [MapsBuf.num, haddr, takeWhile_ne_append fun h => (hhex 45 h).2 rfl,
    if_neg (hex8_ne_nil _), str_store _ proP (fun h => (hhex 0 h).1 rfl) (by omega),
    sscanfLx_hex (isHex_hex8 _) (hex8_ne_nil _) (by rw [hval]; exact l.start.isLt), hval]
  simp

/-! ## The loop -/

/-- Where the line found begins, and 0 if there is none. -/
def startOf (x : Option (CStr × MapsLine)) : Word := (x.map fun x => x.2.start).getD 0

theorem gets_text (hfit : l.text.length < 512) :
    gets newline 511 (l.text ++ s) = (l.text, s) := by
  have hnl : newline ∉ l.front := fun h => (front_plain l newline h).1 rfl
  rw [MapsLine.text, List.length_append, List.length_singleton] at hfit
  rw [MapsLine.text, List.append_assoc]
  exact gets_line hnl (by omega)

theorem hitsEnd_text (hfit : l.text.length < 512) : hitsEnd 511 (l.text ++ s) = false := by
  rw [hitsEnd, gets_text hfit, MapsLine.text, List.getLast?_concat]
  simp

theorem text_noNul (l : MapsLine) : l.text.takeWhile (· ≠ 0) = l.text := by
  refine takeWhile_ne_eq_self ?_
  intro h0
  rcases List.mem_append.mp h0 with h0 | h0
  · exact (front_plain l 0 h0).2 rfl
  · cases List.mem_singleton.mp h0

theorem length_mapsText (ls : List MapsLine) : ls.length ≤ (mapsText ls).length := by
  induction ls with
  | nil => exact Nat.le_refl 0
  | cons l ls ih =>
      rw [mapsText, List.flatMap_cons, List.length_append, MapsLine.text, List.length_append,
        List.length_singleton, List.length_cons]
      have := ih
      rw [mapsText] at this
      omega

/-- The loop stops at the first line that is taken, and returns where that
begins; behind the last line it looks once more at what that one left. -/
theorem mapsLoop_text (target : ExePath) (buf : MapsBuf) {earlier : CStr} {ls : List MapsLine}
    {fuel : Nat} (hfit : ∀ l ∈ ls, l.text.length < 512) (hnames : buf.Names earlier)
    (hbuf : buf.isTarget target.path = false) (hfuel : ls.length < fuel) :
    mapsLoop target.path fuel (mapsText ls) buf =
      some (startOf ((shownNames earlier ls).find? (fun x => Taken target.path x))) := by
  induction ls generalizing buf earlier fuel with
  | nil =>
      obtain ⟨n, rfl⟩ := Nat.exists_eq_add_one.mpr hfuel
      have hend : hitsEnd 511 (mapsText []) = true := rfl
      have hscan : buf.scan ((gets newline 511 (mapsText [])).1.takeWhile (· ≠ 0)) = buf := rfl
      rw [mapsLoop]
      dsimp only
      rw [hscan, hbuf, hend]
      rfl
  | cons l ls ih =>
      obtain ⟨n, rfl⟩ := Nat.exists_eq_add_one.mpr (Nat.zero_lt_of_lt hfuel)
      obtain ⟨hl, hls⟩ := List.forall_mem_cons.mp hfit
      rw [mapsText, List.flatMap_cons, mapsLoop, gets_text hl, hitsEnd_text hl, shownNames]
      dsimp only
      rw [text_noNul]
      have hfirst := isTarget_scan target hl hnames
      cases htaken : (buf.scan l.text).isTarget target.path with
      | true =>
          rw [htaken] at hfirst
          rw [if_pos rfl, num_scan buf hl, List.find?_cons_of_pos (by simpa using hfirst.symm)]
          rfl
      | false =>
          rw [htaken] at hfirst
          rw [if_neg Bool.false_ne_true, if_neg Bool.false_ne_true,
            List.find?_cons_of_neg (by simpa using hfirst.symm)]
          exact ih (buf.scan l.text) hls (names_scan hl hnames) htaken
            (Nat.lt_of_succ_lt_succ hfuel)

/-- The loop comes to its end on every text. -/
theorem isSome_getPidBase (maps : Option (List Byte)) (target : ExePath) :
    (getPidBase maps target).isSome = true := by
  have hloop : ∀ (n : Nat) (fp : List Byte) (buf : MapsBuf), fp.length < n →
      (mapsLoop target.path n fp buf).isSome = true := by
    intro n
    induction n with
    | zero => exact fun fp buf h => absurd h (Nat.not_lt_zero _)
    | succ n ih =>
        intro fp buf hn
        rw [mapsLoop]
        dsimp only
        split
        · rfl
        · split
          · rfl
          · rename_i hend
            have hall := congrArg List.length (gets_append newline 511 fp)
            rw [List.length_append] at hall
            have hpos : (gets newline 511 fp).1 ≠ [] := by
              intro hnil
              rw [hitsEnd, hnil] at hend
              exact hend rfl
            have := List.length_pos_of_ne_nil hpos
            exact ih _ _ (by omega)
  cases maps with
  | none => rfl
  | some fp => exact hloop _ _ _ (Nat.lt_succ_self _)

/-! ## The program's line and the line taken -/

variable {ls : List MapsLine} {earlier : CStr} {x y : CStr × MapsLine}

theorem map_snd_shownNames (earlier : CStr) (ls : List MapsLine) :
    (shownNames earlier ls).map Prod.snd = ls := by
  induction ls generalizing earlier with
  | nil => rfl
  | cons l ls ih => rw [shownNames, List.map_cons, ih]

theorem mem_shownNames (earlier : CStr) (l : MapsLine) :
    l ∈ ls ↔ ∃ x ∈ shownNames earlier ls, x.2 = l := by
  have hmem := List.mem_map (f := Prod.snd) (b := l) (l := shownNames earlier ls)
  rwa [map_snd_shownNames] at hmem

theorem fst_of_mem_shownNames (hx : x ∈ shownNames earlier ls) {p : CStr}
    (hp : x.2.path = some p) : x.1 = (p ++ [newline]).takeWhile (· ≠ 32) := by
  induction ls generalizing earlier with
  | nil => cases hx
  | cons l ls ih =>
      rcases List.mem_cons.mp hx with rfl | hx
      · rw [MapsLine.shown, hp]
      · exact ih hx

theorem programBase_eq (earlier : CStr) :
    programBase target ls =
      startOf ((shownNames earlier ls).find? (fun x => x.2.IsProgram target)) := by
  have hfind := List.find?_map (f := Prod.snd) (p := fun l : MapsLine => l.IsProgram target)
    (l := shownNames earlier ls)
  rw [map_snd_shownNames] at hfind
  rw [programBase, hfind, startOf, Option.map_map]
  rfl

/-- The line of the program is taken unless its path is cut before the part that counts. -/
theorem taken_program_iff (hx : x ∈ shownNames earlier ls) (hp : x.2.IsProgram target) :
    Taken target x ↔ 32 ∉ target.dropLast := by
  rw [Taken, fst_of_mem_shownNames hx hp.1, and_iff_left hp.2]
  constructor
  · intro hpre h32
    have := List.mem_takeWhile_imp (hpre.subset h32)
    simp at this
  · intro h32
    rw [prefix_takeWhile_ne h32]
    exact (List.dropLast_prefix target).trans (List.prefix_append _ _)

/-- Nothing before the program's line is taken for it (nothing at all, if it
has none), and no blank cuts its own path short. -/
def Unmistaken (target : CStr) (ls : List MapsLine) : Prop :=
  (∀ x ∈ (shownNames [] ls).takeWhile (fun x => ¬ x.2.IsProgram target), ¬ Taken target x) ∧
    ((∃ l ∈ ls, l.IsProgram target) → 32 ∉ target.dropLast)

instance decUnmistaken (target : CStr) (ls : List MapsLine) : Decidable (Unmistaken target ls) :=
  inferInstanceAs (Decidable
    ((∀ x ∈ (shownNames [] ls).takeWhile (fun x => ¬ x.2.IsProgram target), ¬ Taken target x) ∧
      ((∃ l ∈ ls, l.IsProgram target) → 32 ∉ target.dropLast)))

/-- Two lines begin at the same address, or one at 0, and the line taken begins
where the program's does. -/
def SameAddress (target : CStr) (ls : List MapsLine) : Prop :=
  ¬(0 :: ls.map MapsLine.start).Nodup ∧
    startOf ((shownNames [] ls).find? (fun x => Taken target x)) =
      startOf ((shownNames [] ls).find? (fun x => x.2.IsProgram target))

theorem unmistaken_iff :
    Unmistaken target ls ↔
      (shownNames [] ls).find? (fun x => Taken target x) =
        (shownNames [] ls).find? (fun x => x.2.IsProgram target) := by
  rw [find?_eq_find?_iff, Unmistaken]
  simp only [decide_not, decide_eq_false_iff_not, decide_eq_true_eq]
  refine and_congr_right fun _ => ?_
  constructor
  · intro h x hx
    have hmem := List.mem_of_find?_eq_some hx
    have hp : x.2.IsProgram target := by simpa using List.find?_some hx
    have hline : x.2 ∈ ls := (mem_shownNames [] x.2).mpr ⟨x, hmem, rfl⟩
    exact (taken_program_iff hmem hp).mpr (h ⟨x.2, hline, hp⟩)
  · rintro h ⟨l, hl, hp⟩
    obtain ⟨y, hy, rfl⟩ := (mem_shownNames [] l).mp hl
    obtain ⟨x, hx⟩ := Option.isSome_iff_exists.mp
      (List.find?_isSome (p := fun x => x.2.IsProgram target).mpr ⟨y, hy, decide_eq_true hp⟩)
    exact (taken_program_iff (List.mem_of_find?_eq_some hx)
      (by simpa using List.find?_some hx)).mp (h x hx)

/-- Lines that begin at addresses of their own are told apart by them. -/
theorem startOf_inj (hnodup : (0 :: ls.map MapsLine.start).Nodup)
    {a b : Option (CStr × MapsLine)} (ha : ∀ x ∈ a, x ∈ shownNames earlier ls)
    (hb : ∀ x ∈ b, x ∈ shownNames earlier ls) (h : startOf a = startOf b) : a = b := by
  obtain ⟨hzero, hnodup⟩ := List.nodup_cons.mp hnodup
  have hmap : (shownNames earlier ls).map (fun x => x.2.start) = ls.map MapsLine.start := by
    have hsnd := congrArg (List.map MapsLine.start) (map_snd_shownNames earlier ls)
    rw [List.map_map] at hsnd
    exact hsnd
  rw [← hmap] at hzero hnodup
  cases a with
  | none =>
      cases b with
      | none => rfl
      | some y =>
          refine absurd (List.mem_map.mpr ⟨y, hb y rfl, ?_⟩) hzero
          exact h.symm
  | some x =>
      cases b with
      | none =>
          refine absurd (List.mem_map.mpr ⟨x, ha x rfl, ?_⟩) hzero
          exact h
      | some y =>
          exact congrArg some (List.inj_on_of_nodup_map hnodup (ha x rfl) (hb y rfl) h)

end

/-- **When the base is that of the program.**  On a text whose lines fit the
buffer: if and only if nothing before the program's line is mistaken for it and
no blank cuts its path, or the line taken begins at the same address. -/
theorem base_from_maps_iff (target : ExePath) {ls : List MapsLine}
    (hfit : ∀ l ∈ ls, l.text.length < 512) :
    getPidBase (some (mapsText ls)) target = some (programBase target.path ls) ↔
      Unmistaken target.path ls ∨ SameAddress target.path ls := by
  have hloop := mapsLoop_text target (fun _ => 0) hfit names_zero (Bool.and_false _)
    (Nat.lt_succ_of_le (length_mapsText ls))
  rw [getPidBase, hloop, Option.some_inj, programBase_eq [], unmistaken_iff]
  constructor
  · intro h
    by_cases hnodup : (0 :: ls.map MapsLine.start).Nodup
    · exact Or.inl (startOf_inj hnodup (fun x hx => List.mem_of_find?_eq_some hx)
        (fun x hx => List.mem_of_find?_eq_some hx) h)
    · exact Or.inr ⟨hnodup, h⟩
  · rintro (h | ⟨-, h⟩)
    · rw [h]
    · exact h

/-! ### `/p1` and `/p2` -/

def p1 : ExePath := ⟨lit ['/', 'p', '1'], by decide, by decide, by decide⟩

/-- A private read-only mapping of the start of a file. -/
def fileLine (start : Word) (path : CStr) (h : IsShown path) : MapsLine where
  start := start
  stop := start + 0x1000
  perms := lit ['r', '-', '-', 'p']
  offset := 0
  dev := lit ['0', '8', ':', '0', '1']
  inode := lit ['7']
  pad := 20
  path := some path
  perms_field := by decide
  dev_field := by decide
  inode_field := by decide
  path_shown := fun _ hp => Option.some.inj hp ▸ h

theorem isShown_p1 : IsShown (lit ['/', 'p', '1']) := by decide

theorem isShown_p2 : IsShown (lit ['/', 'p', '2']) := by decide

def p1Line : MapsLine := fileLine 0x2000 (lit ['/', 'p', '1']) isShown_p1

def p2Line : MapsLine := fileLine 0x1000 (lit ['/', 'p', '2']) isShown_p2

theorem base_from_maps_iff_first :
    getPidBase (some (mapsText [p1Line, p2Line])) p1 =
      some (programBase p1.path [p1Line, p2Line]) :=
  (base_from_maps_iff p1 (by decide +kernel)).mpr (Or.inl (by decide))

/-- With `/p2` before `/p1`, the base is that of `/p2`. -/
theorem other_program_taken :
    getPidBase (some (mapsText [p2Line, p1Line])) p1 = some 0x1000 ∧
      getPidBase (some (mapsText [p2Line, p1Line])) p1 ≠
        some (programBase p1.path [p2Line, p1Line]) := by
  decide +kernel

end TestDbug
