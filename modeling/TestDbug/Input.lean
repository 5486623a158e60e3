/-
# `TestDbug.Input` — the characters typed and the commands read

`get_command` has a buffer of 50 bytes.  `fgets` fills it with one line, or
with the front of one that is longer; the loops behind it begin a token at
anything but a blank, end it before the next `isspace` character, and drop what
has no such character behind it.

The kernel of this module is the text on `stdin`.  `tokens_are_words_iff` says
for which lines the tokens are the words of the line, and
`input_is_kept_iff` for which texts each call takes one line and loses nothing
of it.  Under `main` commands run in between, and take nothing from it
(`ends_play_stdin`): `n` rounds get `linesRead n`.
-/
import TestDbug.OwnLine
import TestDbug.Lib.Text

open ByteMemory Interaction Text

namespace TestDbug

/-! ## `stdin` -/

/-- `fgets(buf, size, stdin)`, and what is left of the text. -/
def fgets (size : Nat) (s : List Byte) :
    Option { line : List Byte // line.length < size } × List Byte :=
  match size, s with
  | 0, s => (none, s)
  | _ + 1, [] => (none, [])
  | n + 1, c :: cs =>
      (some ⟨(gets newline n (c :: cs)).1, Nat.lt_succ_of_le (length_gets newline n (c :: cs))⟩,
        (gets newline n (c :: cs)).2)

def stdinHandler : Handler Resp (List Byte)
  | .fgets size, s => some (fgets size s)
  | .print _, s => some ((), s)
  | _, _ => none

/-- The tokens in use. -/
def NgxArray.strs (a : NgxArray) : List NgxStr := a.elts.take a.nelts

theorem getElem?_strs (a : NgxArray) (k : Nat) :
    a.strs[k]? = if k < a.nelts then some (a.slot k) else none := by
  rw [NgxArray.strs, List.getElem?_take]
  split
  · rename_i hk
    have hlt := Nat.lt_of_lt_of_le hk a.used
    rw [NgxArray.slot, List.getD_eq_getElem _ _ hlt, List.getElem?_eq_getElem hlt]
  · rfl

theorem strs_takeLine (cmd : NgxArray) (line : Line) :
    (takeLine cmd line).strs = (tokens line).map some := by
  apply List.ext_getElem?
  intro k
  rw [getElem?_strs, nelts_takeLine, slot_takeLine, List.getElem?_map]
  split
  · rename_i hk
    rw [List.getElem?_eq_getElem hk]
    rfl
  · rename_i hk
    rw [List.getElem?_eq_none (Nat.le_of_not_lt hk)]
    rfl

/-- `get_command` on a text: the line that `fgets` brings, whatever the array was. -/
theorem meets_getCommand {dbug : Dbug} {s : List Byte} {Q : Dbug → List Byte → Prop} :
    Meets stdinHandler (getCommand dbug) Q s ↔
      Q { dbug with cmd := takeLine dbug.cmd (fgets 50 s).1 } (fgets 50 s).2 := by
  rw [getCommand, meets_ask rfl, meets_ask rfl]
  exact Iff.rfl

/-! ## Tokens -/

section
variable {w rest s : List Byte} {x : Byte} {n : Nat}

theorem tokenize_tail (hw : ∀ c ∈ w, isspace c = false) : tokenize n w = [] := by
  induction n generalizing w with
  | zero => rfl
  | succ n ih =>
      cases w with
      | nil => rfl
      | cons c w =>
          have hw' := (List.forall_mem_cons.mp hw).2
          rw [tokenize, List.findIdx?_eq_none_iff.mpr hw]
          split
          · exact ih hw'
          · exact ih hw'

theorem tokenize_blank : tokenize (n + 1) (32 :: rest) = tokenize n rest := by
  rw [tokenize, if_pos rfl]

theorem findIdx?_first (hw : ∀ c ∈ w, isspace c = false) (hx : isspace x = true) :
    (w ++ x :: rest).findIdx? isspace = some w.length := by
  rw [List.findIdx?_append, List.findIdx?_eq_none_iff.mpr hw, Option.none_or,
    List.findIdx?_cons, if_pos hx]
  simp

/-- A token is what stands before a whitespace, if that is something or if the
whitespace is not the blank. -/
theorem tokenize_token (hw : ∀ c ∈ w, isspace c = false) (hx : isspace x = true)
    (hne : w ≠ [] ∨ x ≠ 32) :
    tokenize (n + 1) (w ++ x :: rest) = w :: tokenize n rest := by
  have hfind : (w ++ x :: rest).findIdx? isspace = some w.length := findIdx?_first hw hx
  have hcons : ∃ c cs, w ++ x :: rest = c :: cs ∧ c ≠ 32 := by
    cases w with
    | nil => exact ⟨x, rest, rfl, hne.resolve_left fun h => h rfl⟩
    | cons c w =>
        refine ⟨c, w ++ x :: rest, rfl, ?_⟩
        rintro rfl
        exact absurd (List.forall_mem_cons.mp hw).1 (by decide)
  obtain ⟨c, cs, heq, hc⟩ := hcons
  have htake : (w ++ x :: rest).take w.length = w := List.take_left
  have hdrop : (w ++ x :: rest).drop (w.length + 1) = rest := by
    rw [← List.drop_drop, List.drop_left]
    rfl
  rw [heq] at hfind htake hdrop ⊢
  rw [tokenize, if_neg hc, hfind]
  dsimp only
  rw [htake, hdrop]

/-! ### Words -/

/-- Every whitespace but the blank stands directly behind a word; `inWord` says
whether one ends where the text begins. -/
def Tight : Bool → List Byte → Prop
  | _, [] => True
  | inWord, c :: cs => (isspace c = true → c ≠ 32 → inWord = true) ∧ Tight (!isspace c) cs

instance decTight : (b : Bool) → (s : List Byte) → Decidable (Tight b s)
  | _, [] => isTrue trivial
  | b, c :: cs => @instDecidableAnd (isspace c = true → c ≠ 32 → b = true) _ inferInstance
      (decTight (!isspace c) cs)

theorem tight_word (hw : ∀ c ∈ w, isspace c = false) (hne : w ≠ []) (hx : isspace x = true)
    (b : Bool) : Tight b (w ++ x :: rest) ↔ Tight false rest := by
  induction w generalizing b with
  | nil => exact absurd rfl hne
  | cons c w ih =>
      obtain ⟨hc, hw⟩ := List.forall_mem_cons.mp hw
      rw [List.cons_append, Tight, hc]
      cases w with
      | nil => simp [Tight, hx]
      | cons d w => simpa using ih hw (List.cons_ne_nil d w) true

/-- The text ends with a whitespace, or is empty. -/
def Closed (s : List Byte) : Prop := ∀ c ∈ s.getLast?, isspace c = true

instance decClosed (s : List Byte) : Decidable (Closed s) :=
  inferInstanceAs (Decidable (∀ c ∈ s.getLast?, isspace c = true))

theorem closed_sep : Closed (w ++ x :: rest) ↔ (rest = [] → isspace x = true) ∧ Closed rest := by
  rw [Closed, Closed, List.getLast?_append, List.getLast?_cons]
  cases rest with
  | nil => simp
  | cons c rest => simp [List.getLast?_cons]

theorem closed_word (hw : ∀ c ∈ w, isspace c = false) : Closed w ↔ w = [] := by
  constructor
  · intro h
    cases hlast : w.getLast? with
    | none => exact List.getLast?_eq_none_iff.mp hlast
    | some c =>
        have hc := hw c (List.mem_of_getLast? hlast)
        rw [h c hlast] at hc
        cases hc
  · rintro rfl c hc
    cases hc

/-- The tokens of a closed text are its words if and only if it is tight. -/
theorem tokenize_eq_words_iff (hn : s.length ≤ n) (hs : Closed s) :
    tokenize n s = words isspace s ↔ Tight false s := by
  induction s using split_induction isspace generalizing n with
  | tail w hw =>
      obtain rfl := (closed_word hw).mp hs
      rw [tokenize_tail hw]
      exact iff_of_true rfl trivial
  | sep w x rest hw hx ih =>
      have hrest := (closed_sep.mp hs).2
      rw [List.length_append, List.length_cons] at hn
      obtain ⟨m, rfl⟩ : ∃ m, n = m + 1 := ⟨n - 1, by omega⟩
      have ih := fun h => ih (n := m) h hrest
      by_cases hword : w = []
      · subst hword
        by_cases hblank : x = 32
        · subst hblank
          rw [List.nil_append, tokenize_blank, words_sep hx, ih (by omega)]
          constructor
          · intro h
            exact ⟨fun _ hne => absurd rfl hne, h⟩
          · intro h
            exact h.2
        · -- an empty token
          rw [tokenize_token hw hx (Or.inr hblank)]
          refine iff_of_false ?_ ?_
          · intro h
            exact nil_notMem_words (h ▸ List.mem_cons_self)
          · rintro ⟨h, -⟩
            exact Bool.false_ne_true (h hx hblank)
      · rw [tokenize_token hw hx (Or.inl hword), words_append_sep hx, words_word hw hword,
          List.singleton_append, List.cons_inj_right, ih (by omega), tight_word hw hword hx]

/-- The tokens of a text keep its characters if and only if it is closed. -/
theorem flatten_tokenize_iff (hn : s.length ≤ n) :
    (tokenize n s).flatten = s.filter (fun c => !isspace c) ↔ Closed s := by
  induction s using split_induction isspace generalizing n with
  | tail w hw =>
      have hfilter : w.filter (fun c => !isspace c) = w := by
        rw [List.filter_eq_self]
        simpa using hw
      rw [tokenize_tail hw, hfilter, closed_word hw]
      exact eq_comm
  | sep w x rest hw hx ih =>
      rw [List.length_append, List.length_cons] at hn
      obtain ⟨m, rfl⟩ : ∃ m, n = m + 1 := ⟨n - 1, by omega⟩
      have ih := ih (n := m) (by omega)
      have hclosed : Closed (w ++ x :: rest) ↔ Closed rest := by
        rw [closed_sep]
        exact and_iff_right fun _ => hx
      have hfilter : (w ++ x :: rest).filter (fun c => !isspace c) =
          w ++ rest.filter (fun c => !isspace c) := by
        rw [List.filter_append, List.filter_cons_of_neg (by simp [hx]), List.filter_eq_self.mpr]
        simpa using hw
      rw [hclosed, hfilter, ← ih]
      by_cases hblank : w = [] ∧ x = 32
      · obtain ⟨rfl, rfl⟩ := hblank
        rw [List.nil_append, tokenize_blank, List.nil_append]
      · have hne : w ≠ [] ∨ x ≠ 32 := by
          rw [← not_and_or]
          exact hblank
        rw [tokenize_token hw hx hne, List.flatten_cons, List.append_cancel_left_eq]

end

/-! ## One line -/

section
variable {s : List Byte} {dbug : Dbug} {n : Nat}

theorem fgets_line (n : Nat) (s : List Byte) :
    ((fgets (n + 1) s).1.map Subtype.val).getD [] = (gets newline n s).1 := by
  cases s with
  | nil => cases n <;> rfl
  | cons c cs => rfl

theorem fgets_left (n : Nat) (s : List Byte) : (fgets (n + 1) s).2 = (gets newline n s).2 := by
  cases s with
  | nil => cases n <;> rfl
  | cons c cs => rfl

/-- Without a NUL, the whole buffer is the string. -/
theorem tokens_fgets (h0 : 0 ∉ (gets newline 49 s).1) :
    tokens (fgets 50 s).1 =
      tokenize (gets newline 49 s).1.length (gets newline 49 s).1 := by
  have htext : text (fgets 50 s).1 = (gets newline 49 s).1 := by
    rw [text, fgets_line 49, takeWhile_ne_eq_self h0]
  rw [tokens, htext]

/-- **Tokens and words.**  On a line of up to 48 characters, `get_command`
leaves the words of the line if and only if each whitespace but the blank, the
newline at the end among them, stands directly behind a word. -/
theorem tokens_are_words_iff {body : List Byte} (h0 : 0 ∉ body) (hnl : newline ∉ body)
    (hlen : body.length ≤ 48) (dbug : Dbug) (rest : List Byte) :
    Meets stdinHandler (getCommand dbug)
        (fun d _ => d.cmd.strs = (words isspace body).map some) (body ++ newline :: rest) ↔
      Tight false (body ++ [newline]) := by
  have hgets : gets newline 49 (body ++ newline :: rest) = (body ++ [newline], rest) :=
    gets_line hnl (Nat.lt_succ_of_le hlen)
  have h0' : 0 ∉ (gets newline 49 (body ++ newline :: rest)).1 := by
    rw [hgets, List.mem_append, List.mem_singleton, not_or]
    exact ⟨h0, by decide⟩
  have hwords : words isspace body = words isspace (body ++ [newline]) := by
    rw [words_append_sep rfl, words_nil, List.append_nil]
  rw [meets_getCommand, strs_takeLine, tokens_fgets h0', hgets, hwords,
    List.map_inj_right fun _ _ => Option.some.inj]
  have hclosed : Closed (body ++ [newline]) :=
    closed_sep.mpr ⟨fun _ => rfl, fun c hc => by cases hc⟩
  exact tokenize_eq_words_iff (Nat.le_refl _) hclosed

/-- `b  main`, with two blanks. -/
theorem tokens_are_words_iff_blanks :
    Meets stdinHandler (getCommand initDbug)
      (fun d _ => d.cmd.strs = (words isspace (lit ['b', ' ', ' ', 'm'])).map some)
      (lit ['b', ' ', ' ', 'm'] ++ newline :: []) :=
  (tokens_are_words_iff (by decide) (by decide) (by decide) initDbug []).mpr (by decide)

/-- A blank behind `c` makes the newline a token of its own. -/
theorem trailing_blank_adds_token :
    (eval stdinHandler (getCommand initDbug) (lit ['c', ' ', '\n'])).map
        (fun q => q.1.cmd.strs) = some [some (lit ['c']), some []] ∧
      ¬ Meets stdinHandler (getCommand initDbug)
        (fun d _ => d.cmd.strs = (words isspace (lit ['c', ' '])).map some)
        (lit ['c', ' '] ++ newline :: []) := by
  constructor
  · decide +kernel
  · rw [meets_getCommand]
    decide +kernel

/-! ## All lines -/

/-- What is left on `stdin` after `k` calls. -/
def stdinAfter : Nat → List Byte → List Byte
  | 0, s => s
  | k + 1, s => stdinAfter k (gets newline 49 s).2

/-- Calls of `get_command`, each on whatever the commands before it have made of the debugger. -/
def calls : List Dbug → Dbug → Dbg Dbug := runAll fun d _ => getCommand d

/-- The characters of the tokens in use. -/
def NgxArray.chars (a : NgxArray) : List Byte := (a.strs.map fun str => str.getD []).flatten

/-- **Line by line.**  The call that has the `k`-th line before it takes that
line, and its tokens have all of its characters but whitespace. -/
def LineByLine (stream : List Byte) : Prop :=
  ∀ (ds : List Dbug) (d₀ d : Dbug) (l : List Byte), (lines newline stream)[ds.length]? = some l →
    Meets stdinHandler (calls ds d₀)
      (fun _ s => s = ((lines newline stream).drop ds.length).flatten ∧
        Meets stdinHandler (getCommand d)
          (fun d' s' => s' = ((lines newline stream).drop (ds.length + 1)).flatten ∧
            d'.cmd.chars = l.filter (fun c => !isspace c)) s) stream

theorem meets_calls {ds : List Dbug} {d₀ : Dbug} {P : List Byte → Prop} :
    Meets stdinHandler (calls ds d₀) (fun _ s => P s) s ↔ P (stdinAfter ds.length s) := by
  induction ds generalizing d₀ s with
  | nil => exact Iff.rfl
  | cons d ds ih =>
      rw [calls, runAll, meets_bind, meets_getCommand, ← calls, ih, fgets_left, List.length_cons,
        stdinAfter]

/-- Lines that fit are taken one after the other. -/
theorem stdinAfter_eq (hfit : ∀ l ∈ lines newline s, l.length ≤ 49) (k : Nat) :
    stdinAfter k s = ((lines newline s).drop k).flatten := by
  induction k generalizing s with
  | zero => rw [stdinAfter, List.drop_zero, flatten_lines]
  | succ k ih =>
      cases hs : lines newline s with
      | nil =>
          obtain rfl : s = [] := by
            rw [← flatten_lines newline s, hs]
            rfl
          exact (ih hfit).trans (by rw [lines, List.drop_nil, List.drop_nil])
      | cons l ls =>
          rw [hs] at hfit
          have hls := lines_tail hs
          rw [stdinAfter, gets_eq_line hs (hfit l List.mem_cons_self), ih, hls, List.drop_succ_cons]
          rw [hls]
          exact fun l hl => hfit l (List.mem_cons_of_mem _ hl)

theorem chars_takeLine (cmd : NgxArray) (line : Line) :
    (takeLine cmd line).chars = (tokens line).flatten := by
  rw [NgxArray.chars, strs_takeLine, List.map_map]
  exact congrArg List.flatten (List.map_id _)

/-- One call, with a line before it. -/
theorem meets_getCommand_line (dbug : Dbug) {l : List Byte} {ls : List (List Byte)} (h0 : 0 ∉ s)
    (hs : lines newline s = l :: ls) :
    Meets stdinHandler (getCommand dbug)
        (fun d' s' => s' = ls.flatten ∧ d'.cmd.chars = l.filter (fun c => !isspace c)) s ↔
      l.length ≤ 49 ∧ Closed l := by
  rw [meets_getCommand, fgets_left, gets_rest_iff hs]
  refine and_congr_right fun hfit => ?_
  have hgets := gets_eq_line hs hfit
  have h0' : 0 ∉ (gets newline 49 s).1 := by
    intro hmem
    apply h0
    rw [← gets_append newline 49 s]
    exact List.mem_append_left _ hmem
  rw [chars_takeLine, tokens_fgets h0', hgets]
  exact flatten_tokenize_iff (Nat.le_refl _)

/-- The text in front of the `k`-th call, if all has gone well. -/
theorem lines_drop_of_getElem? {k : Nat} {l : List Byte} (h : (lines newline s)[k]? = some l) :
    lines newline ((lines newline s).drop k).flatten = l :: (lines newline s).drop (k + 1) := by
  obtain ⟨hk, hl⟩ := List.getElem?_eq_some_iff.mp h
  rw [lines_drop, List.drop_eq_getElem_cons hk, hl]

theorem notMem_flatten_drop {c : Byte} (h : c ∉ s) (k : Nat) :
    c ∉ ((lines newline s).drop k).flatten := by
  intro hmem
  obtain ⟨l, hl, hc⟩ := List.mem_flatten.mp hmem
  apply h
  rw [← flatten_lines newline s]
  exact List.mem_flatten.mpr ⟨l, List.mem_of_mem_drop hl, hc⟩

/-- **When no input is lost or split.**  If and only if no line, with its
newline, is longer than 49 characters, and a last line without a newline ends
with some other whitespace. -/
theorem input_is_kept_iff {stream : List Byte} (h0 : 0 ∉ stream) :
    LineByLine stream ↔ ∀ l ∈ lines newline stream, l.length ≤ 49 ∧ Closed l := by
  constructor
  · intro h l hl
    obtain ⟨k, hk⟩ := List.mem_iff_getElem?.mp hl
    have hlen : (List.replicate k initDbug).length = k := List.length_replicate
    have hcall := h (List.replicate k initDbug) initDbug initDbug l (by rw [hlen]; exact hk)
    rw [meets_calls, hlen] at hcall
    obtain ⟨hrest, hget⟩ := hcall
    rw [hrest] at hget
    exact (meets_getCommand_line _ (notMem_flatten_drop h0 k) (lines_drop_of_getElem? hk)).mp hget
  · intro h ds d₀ d l hl
    rw [meets_calls, stdinAfter_eq fun l hl => (h l hl).1]
    refine ⟨rfl, ?_⟩
    rw [meets_getCommand_line _ (notMem_flatten_drop h0 _) (lines_drop_of_getElem? hl)]
    exact h l (List.mem_of_getElem? hl)

end

/-! ### Under `main` -/

/-- `stdin` is part of the world of `K`, and only `fgets` takes from it. -/
structure ReadsStdin {σ : Type} (K : Kernel Resp σ) (stdin : σ → List Byte) : Prop where
  line : ∀ {size s x s'}, K (.fgets size) s x s' →
    x = (fgets size (stdin s)).1 ∧ stdin s' = (fgets size (stdin s)).2
  others : ∀ {r s x s'}, (∀ size, r ≠ .fgets size) → K r s x s' → stdin s' = stdin s

/-- What `n` reads of `get_command` find there. -/
def linesRead : Nat → List Byte → List Line
  | 0, _ => []
  | n + 1, s => (fgets 50 s).1 :: linesRead n (fgets 50 s).2

/-- No command reads from `stdin`. -/
theorem emits_play_noFgets (arg : NgxArray) (dbug : Dbug) :
    Emits (fun r => ∀ size, r ≠ .fgets size) (fun _ => True) (play arg dbug) := by
  have hmem : ∀ {pid : Pid} {r : Req}, MemReq pid r → ∀ size, r ≠ .fgets size := by
    rintro pid r hr size rfl
    cases hr
  have hstart : ∀ r, StartReq r → ∀ size, r ≠ .fgets size := by
    rintro r hr size rfl
    cases hr
  rcases plain_or_named arg with hplain | hname | hname | hname
  · refine (emits_plain hplain).mono ?_ fun _ _ => trivial
    rintro r hr size rfl
    rcases hr with hr | hr | hr
    · exact hmem hr size rfl
    · cases hr
    · cases hr
  · rw [play_continue hname]
    refine (emits_continue.mono ?_ fun _ h => h).seq fun _ _ => trivial
    rintro r hr size rfl
    cases hr with
    | mem hr => exact hmem hr size rfl
  · rw [play_dbug hname]
    exact (emits_dbug.mono hstart fun _ h => h).seq fun _ _ => trivial
  · rw [play_attach hname]
    exact (emits_attach.mono hstart fun _ h => h).seq fun _ _ => trivial

section
variable {σ : Type} {K : Kernel Resp σ} {stdin : σ → List Byte} {s s' : σ} {d d' : Dbug}

/-- A command leaves it as it is. -/
theorem ends_play_stdin (hK : ReadsStdin K stdin) {arg : NgxArray}
    (h : Ends K (play arg d) s d' s') : stdin s' = stdin s := by
  have hwp : wp K Free (play arg d) (fun _ s' => True ∧ stdin s' = stdin s) s :=
    (emits_play_noFgets arg d).wp (J := fun s' => stdin s' = stdin s) (fun _ _ _ _ => trivial)
      (fun r s₁ x s₂ hr hs hx => (hK.others hr hx).trans hs) rfl
  exact (hwp.ends h).2

end

/-! ### A line too long -/

/-- Forty-eight characters, a blank, and `q`. -/
def longWord : List Byte := List.replicate 48 120 ++ lit [' ', 'q', '\n']

theorem input_is_kept_iff_two : LineByLine (lit ['c', '\n', 'q', ' ']) :=
  (input_is_kept_iff (by decide)).mpr (by decide)

/-- The end of the line is another line, and `q` a command. -/
theorem long_line_runs_twice :
    (eval stdinHandler (calls [initDbug] initDbug >>= fun d => getCommand d) longWord).map
        (fun q => q.1.cmd.strs) = some [some (lit ['q'])] ∧
      ¬ LineByLine longWord := by
  constructor
  · decide +kernel
  · intro h
    have hlines : lines newline longWord = [longWord] := by decide +kernel
    have hcall := h [] initDbug initDbug longWord (by rw [hlines]; rfl)
    rw [hlines] at hcall
    have hfit := ((meets_getCommand_line _ (by decide +kernel) hlines).mp hcall.2).1
    exact absurd hfit (by decide +kernel)

end TestDbug
