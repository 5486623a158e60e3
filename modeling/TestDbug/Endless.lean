/-
# `TestDbug.Endless` — files that stop with an error

Both loops over a file go on until `feof`, and an error does not set that.  If
a stream stops with an error that stays, `get_file_word` never returns, and
`get_pid_base` only if it has met its line by then: `file_loops_end_iff`.

What a failing `fgets` leaves in `data` is not said anywhere: it may be any
string that fits.  Whether the line was met is a matter of the strings that
come into `data`, and of the bytes of `buf` that they are the last to come to
(`Stream.Shows`); for the lines of the kernel it is a matter of those lines
(`getPidBase_gone_iff`).
-/
import TestDbug.Loading
import TestDbug.Maps

open ByteMemory Loop Text

namespace TestDbug

/-- `fgets(data, n+1, fp)`: what is in `data`, which was zeroed, and the stream
behind it.  If it fails there is what is `left` there. -/
def Stream.fgets (fp : Stream) (n : Nat) (left : List Byte) : List Byte × Stream :=
  if hitsEnd n fp.bytes && fp.fails then (left, { fp with bytes := [] })
  else
    ((gets newline n fp.bytes).1,
      { fp with bytes := (gets newline n fp.bytes).2, eof := hitsEnd n fp.bytes })

/-- What a call of `fgets` that fails leaves in `data`: a string, which ends there. -/
structure Leftover where
  bytes : List Byte
  fits : bytes.length < 512

/-- Nothing, as it is zeroed behind every round. -/
def Leftover.nothing : Leftover := ⟨[], by decide⟩

/-- The variables of `get_pid_base`, and what the calls of `fgets` to come will
leave in `data` if they fail. -/
structure PidBase where
  fp : Stream
  left : Nat → Leftover
  buf : MapsBuf

/-- The loop of `get_pid_base`. -/
def pidBaseRound (target : CStr) (s : PidBase) : PidBase ⊕ Word :=
  if s.fp.eof then .inr 0
  else
    let (data, fp) := s.fp.fgets 511 (s.left 0).bytes
    let buf := s.buf.scan (data.takeWhile (· ≠ 0))
    if buf.isTarget target then .inr buf.num else .inl ⟨fp, fun n => s.left (n + 1), buf⟩

/-- `get_pid_base` on any stream; `none` if the loop has not come to its end
after `fuel` rounds. -/
def getPidBaseFrom (fuel : Nat) (fp : Option Stream) (target : ExePath) (left : Nat → Leftover) :
    Option Word :=
  match fp with
  | none => some (BitVec.allOnes 64)
  | some fp => run (pidBaseRound target.path) fuel ⟨fp, left, fun _ => 0⟩

/-- The first `n` strings in `data`. -/
def Stream.strings (left : Nat → Leftover) : Nat → Stream → List CStr
  | 0, _ => []
  | n + 1, fp =>
      (fp.fgets 511 (left 0).bytes).1.takeWhile (· ≠ 0) ::
        strings (fun n => left (n + 1)) n (fp.fgets 511 (left 0).bytes).2

/-- The last byte that a field of one of the strings puts at a place of `buf`, and
0 if none comes there. -/
def byteAt (strings : List CStr) (ptr : BitVec 10) : Byte :=
  (lastStored (strings.flatMap fieldStores) ptr).getD 0

/-- The line of the program: all but the last character of its path at `pro_name`,
and the offset 0 at `pro_maps`. -/
def ShowsLine (target : CStr) (strings : List CStr) : Prop :=
  (∀ i < target.length - 1, target[i]? = some (byteAt strings (proName + BitVec.ofNat 10 i))) ∧
    ∀ i < 8, byteAt strings (proMaps + BitVec.ofNat 10 i) = 48

/-- Some `n` of the strings show it. -/
def Stream.Shows (fp : Stream) (target : ExePath) (left : Nat → Leftover) : Prop :=
  ∃ n, ShowsLine target.path (fp.strings left n)

section
variable {fp : Stream} {mem : Mem 64 Byte} {word : Word} {target : CStr}

/-! ## Pieces -/

theorem isSome_getFileWord_iff :
    (∃ fuel, (getFileWord fuel (some fp) mem word).isSome = true) ↔
      word = 0 ∨ Halts (fileWordRound word) ⟨fp, 0, mem⟩ := by
  by_cases hword : word = 0
  · simp [getFileWord, hword]
  · simp only [getFileWord, hword, if_false, false_or, Option.isSome_map, Option.isSome_iff_exists]
    exact exists_comm

theorem isSome_getPidBaseFrom_iff {target : ExePath} {left : Nat → Leftover} :
    (∃ fuel, (getPidBaseFrom fuel (some fp) target left).isSome = true) ↔
      Halts (pidBaseRound target.path) ⟨fp, left, fun _ => 0⟩ := by
  simp only [getPidBaseFrom, Option.isSome_iff_exists]
  exact exists_comm

/-- The bytes to come, and the end of the file. -/
def Stream.togo (fp : Stream) : Nat := fp.bytes.length + if fp.eof then 0 else 1

theorem togo_fread {n : Nat} (hn : 0 < n) (hfails : fp.fails = false) (heof : fp.eof = false) :
    (fp.fread n).2.togo < fp.togo := by
  have hrest : (fp.fread n).2.bytes.length = fp.bytes.length - n := List.length_drop
  have hend : (fp.fread n).2.eof = decide (fp.bytes.length < n) := by
    rw [Stream.fread, hfails, Bool.not_false, Bool.and_true]
  rw [Stream.togo, Stream.togo, hrest, hend, heof, if_neg Bool.false_ne_true]
  by_cases hlast : fp.bytes.length < n
  · rw [decide_eq_true hlast, if_pos rfl]
    omega
  · rw [decide_eq_false hlast, if_neg Bool.false_ne_true]
    omega

/-- Every piece is one of the file, or the last. -/
theorem halts_fileWord {s : FileWord} (hs : s.fp.fails = false) : Halts (fileWordRound word) s := by
  refine halts_of_variant (fun s => s.fp.fails = false) (fun s => s.fp.togo) ?_ hs
  intro s s' hfails hgo
  cases heof : s.fp.eof with
  | true =>
      rw [fileWordRound_eof heof] at hgo
      cases hgo
  | false =>
      rw [fileWordRound_open heof] at hgo
      obtain rfl := Sum.inl.inj hgo
      exact ⟨hfails, togo_fread (by decide) hfails heof⟩

/-- Behind an error the pieces are empty, and there is always another. -/
theorem not_halts_fileWord {s : FileWord} (hs : s.fp.fails = true ∧ s.fp.eof = false) :
    ¬ Halts (fileWordRound word) s := by
  refine not_halts_of_invariant (fun s => s.fp.fails = true ∧ s.fp.eof = false) ?_ hs
  intro s ⟨hfails, heof⟩
  refine ⟨_, fileWordRound_open heof, hfails, ?_⟩
  simp [Stream.fread, hfails]

/-! ## Lines -/

theorem pidBaseRound_open (target : CStr) {s : PidBase} (h : s.fp.eof = false) :
    pidBaseRound target s =
      if (s.buf.scan ((s.fp.fgets 511 (s.left 0).bytes).1.takeWhile (· ≠ 0))).isTarget target then
        .inr (s.buf.scan ((s.fp.fgets 511 (s.left 0).bytes).1.takeWhile (· ≠ 0))).num
      else
        .inl ⟨(s.fp.fgets 511 (s.left 0).bytes).2, fun n => s.left (n + 1),
          s.buf.scan ((s.fp.fgets 511 (s.left 0).bytes).1.takeWhile (· ≠ 0))⟩ := by
  rw [pidBaseRound, if_neg (by rw [h]; exact Bool.false_ne_true)]

theorem pidBaseRound_eof {s : PidBase} (h : s.fp.eof = true) : pidBaseRound target s = .inr 0 :=
  if_pos h

theorem fgets_of_ends {left : List Byte} (h : fp.fails = false) :
    fp.fgets 511 left = ((gets newline 511 fp.bytes).1,
      { fp with bytes := (gets newline 511 fp.bytes).2, eof := hitsEnd 511 fp.bytes }) := by
  rw [Stream.fgets, h, Bool.and_false]
  rfl

/-- An error is no end of the file. -/
theorem fgets_of_fails (left : List Byte) (h : fp.fails = true) (heof : fp.eof = false) :
    (fp.fgets 511 left).2.fails = true ∧ (fp.fgets 511 left).2.eof = false := by
  cases hend : hitsEnd 511 fp.bytes with
  | true =>
      rw [Stream.fgets, hend, h]
      exact ⟨rfl, heof⟩
  | false =>
      rw [Stream.fgets, hend]
      exact ⟨h, rfl⟩

/-- On a stream that ends the loop does as `mapsLoop`, which asks for the end
of the file a round earlier. -/
theorem run_of_mapsLoop {n : Nat} {bytes : List Byte} {left : Nat → Leftover} {buf : MapsBuf}
    {r : Word} (h : mapsLoop target n bytes buf = some r) :
    run (pidBaseRound target) (n + 1) ⟨{ bytes }, left, buf⟩ = some r := by
  induction n generalizing bytes left buf with
  | zero => cases h
  | succ n ih =>
      have hgo := pidBaseRound_open target (s := ⟨{ bytes }, left, buf⟩) rfl
      rw [fgets_of_ends rfl] at hgo
      rw [mapsLoop] at h
      dsimp only at h hgo
      split at h
      · rename_i htaken
        rw [if_pos htaken] at hgo
        rw [run_inr hgo, h]
      · rename_i hnot
        rw [if_neg hnot] at hgo
        rw [run_inl hgo]
        cases hend : hitsEnd 511 bytes with
        | true =>
            rw [hend, if_pos rfl] at h
            exact (run_inr (pidBaseRound_eof rfl)).trans h
        | false =>
            rw [hend, if_neg Bool.false_ne_true] at h
            exact ih h

/-- `getPidBase` is `get_pid_base` on the streams that end. -/
theorem getPidBaseFrom_of_getPidBase {maps : Option (List Byte)} {target : ExePath}
    (left : Nat → Leftover) {r : Word} (h : getPidBase maps target = some r) :
    ∃ fuel, getPidBaseFrom fuel (maps.map fun bytes => { bytes }) target left = some r := by
  cases maps with
  | none => exact ⟨0, h⟩
  | some bytes => exact ⟨bytes.length + 1 + 1, run_of_mapsLoop h⟩

/-! ### The strings in the buffer -/

/-- What the strings store, in the end one list of stores. -/
theorem scans_eq_stores (buf : MapsBuf) (strs : List CStr) :
    strs.foldl MapsBuf.scan buf = stores buf (strs.flatMap fieldStores) := by
  induction strs generalizing buf with
  | nil => rfl
  | cons s strs ih =>
      rw [List.foldl_cons, ih, List.flatMap_cons, stores_append]
      rfl

/-- A byte is what was put there last. -/
theorem scans_apply (strs : List CStr) (ptr : BitVec 10) :
    strs.foldl MapsBuf.scan (fun _ => 0) ptr = byteAt strs ptr := by
  rw [scans_eq_stores, stores_apply]
  rfl

/-- What is compared is known by those bytes. -/
theorem isTarget_scans (target : CStr) (strs : List CStr) :
    (strs.foldl MapsBuf.scan (fun _ => 0)).isTarget target = true ↔ ShowsLine target strs := by
  have hfront : ∀ i < target.length - 1, target.dropLast[i]? = target[i]? := by
    intro i hi
    rw [List.getElem?_dropLast, if_pos hi]
  have hname : load (strs.foldl MapsBuf.scan (fun _ => 0)) proName (target.length - 1) =
      target.dropLast ↔
        ∀ i < target.length - 1, target[i]? = some (byteAt strs (proName + BitVec.ofNat 10 i)) := by
    rw [← List.length_dropLast, load_eq_iff, List.length_dropLast]
    refine forall₂_congr fun i hi => ?_
    rw [hfront i hi, scans_apply]
  have hzeros : load (strs.foldl MapsBuf.scan (fun _ => 0)) proMaps
      (List.replicate 8 (48 : Byte)).length = List.replicate 8 48 ↔
        ∀ i < 8, byteAt strs (proMaps + BitVec.ofNat 10 i) = 48 := by
    rw [load_eq_iff, List.length_replicate]
    refine forall₂_congr fun i hi => ?_
    rw [List.getElem?_replicate, if_pos hi, scans_apply, Option.some_inj]
    exact eq_comm
  rw [List.length_replicate] at hzeros
  rw [MapsBuf.isTarget, Bool.and_eq_true, decide_eq_true_iff, decide_eq_true_iff, hname, hzeros]
  exact Iff.rfl

/-! ### Behind an error -/

/-- The loop stops at the line of the program, if it has not before. -/
theorem halts_of_shown (n : Nat) {s : PidBase} (heof : s.fp.eof = false)
    (hfails : s.fp.fails = true) (hbuf : s.buf.isTarget target = false)
    (hshow : ((s.fp.strings s.left n).foldl MapsBuf.scan s.buf).isTarget target = true) :
    Halts (pidBaseRound target) s := by
  induction n generalizing s with
  | zero =>
      rw [Stream.strings, List.foldl_nil, hbuf] at hshow
      cases hshow
  | succ n ih =>
      rw [Stream.strings, List.foldl_cons] at hshow
      have hgo := pidBaseRound_open target heof
      split at hgo
      · exact halts_inr hgo
      · rename_i hnot
        rw [halts_inl hgo]
        obtain ⟨hfails', heof'⟩ := fgets_of_fails (s.left 0).bytes hfails heof
        exact ih heof' hfails' (Bool.eq_false_iff.mpr hnot) hshow

/-- Behind an error there is always another line, and it is not the one. -/
theorem not_halts_pidBase {s : PidBase} (heof : s.fp.eof = false) (hfails : s.fp.fails = true)
    (hshow : ∀ n, ((s.fp.strings s.left n).foldl MapsBuf.scan s.buf).isTarget target = false) :
    ¬ Halts (pidBaseRound target) s := by
  refine not_halts_of_invariant (fun s => s.fp.eof = false ∧ s.fp.fails = true ∧
    ∀ n, ((s.fp.strings s.left n).foldl MapsBuf.scan s.buf).isTarget target = false) ?_
    ⟨heof, hfails, hshow⟩
  intro s ⟨heof, hfails, hshow⟩
  obtain ⟨hfails', heof'⟩ := fgets_of_fails (s.left 0).bytes hfails heof
  have hgo := pidBaseRound_open target heof
  rw [if_neg (by exact Bool.eq_false_iff.mp (hshow 1))] at hgo
  exact ⟨_, hgo, heof', hfails', fun n => hshow (n + 1)⟩

/-- Behind an error the loop ends if and only if it met its line before. -/
theorem halts_pidBase_iff {bytes : List Byte} {target : ExePath} {left : Nat → Leftover} :
    Halts (pidBaseRound target.path) ⟨⟨bytes, true, false⟩, left, fun _ => 0⟩ ↔
      Stream.Shows ⟨bytes, true, false⟩ target left := by
  simp only [Stream.Shows, ← isTarget_scans]
  constructor
  · intro h
    by_contra hno
    refine not_halts_pidBase rfl rfl (fun n => ?_) h
    exact Bool.eq_false_iff.mpr fun hn => hno ⟨n, hn⟩
  · rintro ⟨n, hn⟩
    exact halts_of_shown n rfl rfl (Bool.and_false _) hn

/-! ### Lines of the kernel -/

theorem strings_gone (n : Nat) (buf : MapsBuf) :
    (Stream.strings (fun _ => .nothing) n ⟨[], true, false⟩).foldl MapsBuf.scan buf = buf := by
  induction n with
  | zero => rfl
  | succ n ih => exact ih

theorem strings_text {l : MapsLine} (hl : l.text.length < 512) (n : Nat) (s : List Byte) :
    Stream.strings (fun _ => .nothing) (n + 1) ⟨l.text ++ s, true, false⟩ =
      l.text :: Stream.strings (fun _ => .nothing) n ⟨s, true, false⟩ := by
  have hread : Stream.fgets ⟨l.text ++ s, true, false⟩ 511 Leftover.nothing.bytes =
      (l.text, ⟨s, true, false⟩) := by
    simp only [Stream.fgets, hitsEnd_text hl, gets_text hl, Bool.false_and, Bool.false_eq_true,
      if_false]
  rw [Stream.strings, hread, text_noNul]

/-- The line of the program is shown by a line of which `mapsLoop` takes it. -/
theorem exists_strings_text {target : ExePath} {ls : List MapsLine}
    (hfit : ∀ l ∈ ls, l.text.length < 512) (buf : MapsBuf) {earlier : CStr}
    (hnames : buf.Names earlier) (hbuf : buf.isTarget target.path = false) :
    (∃ n, ((Stream.strings (fun _ => .nothing) n ⟨mapsText ls, true, false⟩).foldl
        MapsBuf.scan buf).isTarget target.path = true) ↔
      ∃ x ∈ shownNames earlier ls, Taken target.path x := by
  induction ls generalizing buf earlier with
  | nil =>
      refine iff_of_false ?_ (by simp [shownNames])
      rintro ⟨n, hn⟩
      rw [mapsText, List.flatMap_nil, strings_gone, hbuf] at hn
      cases hn
  | cons l ls ih =>
      obtain ⟨hl, hls⟩ := List.forall_mem_cons.mp hfit
      have hfirst : (buf.scan l.text).isTarget target.path =
          decide (Taken target.path (l.shown earlier, l)) := isTarget_scan target hl hnames
      rw [shownNames, List.exists_mem_cons_iff, mapsText, List.flatMap_cons]
      cases htaken : (buf.scan l.text).isTarget target.path with
      | true =>
          rw [htaken] at hfirst
          refine iff_of_true ⟨1, ?_⟩ (.inl (of_decide_eq_true hfirst.symm))
          rw [strings_text hl, List.foldl_cons, Stream.strings, List.foldl_nil]
          exact htaken
      | false =>
          rw [htaken] at hfirst
          rw [← mapsText, ← ih hls (buf.scan l.text) (names_scan hl hnames) htaken,
            or_iff_right (of_decide_eq_false hfirst.symm)]
          constructor
          · rintro ⟨n, hn⟩
            cases n with
            | zero =>
                rw [Stream.strings, List.foldl_nil, hbuf] at hn
                cases hn
            | succ n =>
                rw [strings_text hl, List.foldl_cons] at hn
                exact ⟨n, hn⟩
          · rintro ⟨n, hn⟩
            refine ⟨n + 1, ?_⟩
            rw [strings_text hl, List.foldl_cons]
            exact hn

/-- The debuggee is gone behind some lines of `maps`. -/
theorem getPidBase_gone_iff {ls : List MapsLine} (hfit : ∀ l ∈ ls, l.text.length < 512)
    (target : ExePath) :
    (∃ fuel, (getPidBaseFrom fuel (some ⟨mapsText ls, true, false⟩) target
        (fun _ => .nothing)).isSome = true) ↔
      ∃ x ∈ shownNames [] ls, Taken target.path x := by
  rw [isSome_getPidBaseFrom_iff, halts_pidBase_iff]
  simp only [Stream.Shows, ← isTarget_scans]
  exact exists_strings_text hfit _ names_zero (Bool.and_false _)

end

/-- **When the loops over a file end.**  A stream newly opened gives its bytes,
and then the end of the file or an error that stays. -/
theorem file_loops_end_iff (bytes : List Byte) (fails : Bool) (mem : Mem 64 Byte) (word : Word)
    (target : ExePath) (left : Nat → Leftover) :
    ((∃ fuel, (getFileWord fuel (some ⟨bytes, fails, false⟩) mem word).isSome = true) ↔
      word = 0 ∨ fails = false) ∧
    ((∃ fuel, (getPidBaseFrom fuel (some ⟨bytes, fails, false⟩) target left).isSome = true) ↔
      fails = false ∨ Stream.Shows ⟨bytes, fails, false⟩ target left) := by
  constructor
  · rw [isSome_getFileWord_iff]
    refine or_congr_right ?_
    cases fails with
    | true => exact iff_of_false (not_halts_fileWord ⟨rfl, rfl⟩) Bool.noConfusion
    | false => exact iff_of_true (halts_fileWord rfl) rfl
  · cases fails with
    | true =>
        rw [isSome_getPidBaseFrom_iff]
        exact halts_pidBase_iff.trans (by simp)
    | false =>
        obtain ⟨r, hr⟩ := Option.isSome_iff_exists.mp (isSome_getPidBase (some bytes) target)
        obtain ⟨fuel, hfuel⟩ := getPidBaseFrom_of_getPidBase left hr
        exact iff_of_true ⟨fuel, Option.isSome_iff_exists.mpr ⟨r, hfuel⟩⟩ (.inl rfl)

/-- A piece of a line without blanks: its only field comes to all three places, and
is taken for the line of `/p1`. -/
example :
    getPidBaseFrom 1
      (some ⟨List.replicate 100 65 ++ List.replicate 100 48 ++ p1.path ++ List.replicate 308 65,
        true, false⟩) p1 (fun _ => .nothing) = some (BitVec.allOnes 64) := by
  decide +kernel

/-- A file that cannot be read, and a debuggee that is gone before the first
line is. -/
theorem unreadable_files_loop_forever :
    (¬ ∃ fuel, (getFileWord fuel (some ⟨[], true, false⟩) (fun _ => 0) 0x1000).isSome = true) ∧
      ¬ ∃ fuel, (getPidBaseFrom fuel (some ⟨[], true, false⟩) p1
        (fun _ => .nothing)).isSome = true := by
  constructor
  · rw [isSome_getFileWord_iff]
    rintro (h | h)
    · cases h
    · exact not_halts_fileWord ⟨rfl, rfl⟩ h
  · intro h
    have hfit : ∀ l ∈ ([] : List MapsLine), l.text.length < 512 := fun l hl => by cases hl
    obtain ⟨x, hx, -⟩ := (getPidBase_gone_iff hfit p1).mp h
    cases hx

end TestDbug
