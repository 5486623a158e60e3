/-
# `TestDbug.Faults` — accesses that fail

`read_pro_mem` and `write_pro_mem` on a system that fails as it likes.  The
kernel of this module answers the `k`-th request of a call by a script: the
request succeeds or not (`succeeds k`), and a `PEEKTEXT` that does brings the
word `words k`.  It logs what was asked, and whether it was granted.

A result is `Reported` when it is the one the log calls for.  `POKETEXT` is
tested as it should be; the test of `PEEKTEXT` never fires, so both functions
take the -1 of a failed one for a word and go on.  `reports_failures_iff` says
that this is all that is wrong.
-/
import TestDbug.Mem

open ByteMemory Interaction

namespace TestDbug

/-- A request, and whether it succeeded. -/
abbrev Issued := Req × Bool

/-- `PEEKTEXT` and `POKETEXT` by a script. -/
def faultHandler (succeeds : Nat → Bool) (words : Nat → Word) : Handler Resp (List Issued)
  | .peektext pid addr, log =>
      some (if succeeds log.length then some (words log.length) else none,
        log ++ [(.peektext pid addr, succeeds log.length)])
  | .poketext pid addr data, log =>
      some (succeeds log.length, log ++ [(.poketext pid addr data, succeeds log.length)])
  | .print _, log => some ((), log)
  | _, _ => none

/-- Every request was granted. -/
def AllGranted (log : List Issued) : Prop := ∀ q ∈ log, q.2 = true

/-- 0 if every request succeeded; else -1, and the failed request is the last one. -/
structure Reported (r : Int) (log : List Issued) : Prop where
  zero_iff : r = 0 ↔ AllGranted log
  failed : r ≠ 0 → r = -1 ∧ AllGranted log.dropLast

theorem allGranted_nil : AllGranted [] := fun q hq => by cases hq

theorem allGranted_snoc {log : List Issued} {r : Req} {ok : Bool} :
    AllGranted (log ++ [(r, ok)]) ↔ AllGranted log ∧ ok = true := by
  simp only [AllGranted, List.mem_append, List.mem_singleton, or_imp, forall_and, forall_eq]

theorem reported_zero {log : List Issued} : Reported 0 log ↔ AllGranted log := by
  constructor
  · intro h
    exact h.zero_iff.mp rfl
  · intro h
    exact ⟨⟨fun _ => h, fun _ => rfl⟩, fun hne => absurd rfl hne⟩

/-- A failure reported at once. -/
theorem reported_failure {log : List Issued} {r : Req} (h : AllGranted log) :
    Reported (-1) (log ++ [(r, false)]) := by
  constructor
  · constructor
    · intro hzero
      exact absurd hzero (by decide)
    · intro hall
      exact absurd (allGranted_snoc.mp hall).2 Bool.false_ne_true
  · intro _
    rw [List.dropLast_concat]
    exact ⟨rfl, h⟩

/-- A failure with a request behind it is not reported, whatever is returned. -/
theorem not_reported_two {log : List Issued} {r₁ r₂ : Req} {ok : Bool} {r : Int} :
    ¬ Reported r (log ++ [(r₁, false)] ++ [(r₂, ok)]) := by
  intro h
  by_cases hr : r = 0
  · have hall := allGranted_snoc.mp (h.zero_iff.mp hr)
    exact Bool.false_ne_true (allGranted_snoc.mp hall.1).2
  · have hall := (h.failed hr).2
    rw [List.dropLast_concat] at hall
    exact Bool.false_ne_true (allGranted_snoc.mp hall).2

section
variable {succeeds : Nat → Bool} {words : Nat → Word} {child : Pid} {addr : Word}
  {str : List Byte} {len : Nat} {log : List Issued}

/-! ## Reading -/

/-- How many words `read_pro_mem` asks for. -/
def wordCount (len : Nat) : Nat := if len % WORD = 0 then len / WORD else len / WORD + 1

/-- Every word is asked for and 0 is returned, which is right if no request fails. -/
theorem meets_readLoop (n i : Nat) :
    Meets (faultHandler succeeds words) (readLoop child addr len n i str)
        (fun x log' => Reported x.1 log') log ↔
      AllGranted log ∧
        ∀ j < (if len % WORD = 0 then n else n + 1), succeeds (log.length + j) = true := by
  induction n generalizing i str log with
  | zero =>
      rw [readLoop]
      by_cases hrem : len % WORD = 0
      · simp only [hrem, ne_eq, not_true_eq_false, if_false, if_true, Prog.pure_eq, meets_ret,
          reported_zero]
        simp
      · simp only [hrem, ne_eq, not_false_eq_true, if_true, if_false]
        rw [meets_ask rfl, if_neg (not_data_lt_zero _), Prog.pure_eq, meets_ret, reported_zero,
          allGranted_snoc]
        simp
  | succ n ih =>
      have hcount : (if len % WORD = 0 then n + 1 else n + 1 + 1) =
          (if len % WORD = 0 then n else n + 1) + 1 := by
        split <;> rfl
      rw [readLoop, meets_ask rfl, if_neg (not_data_lt_zero _), ih, allGranted_snoc,
        List.length_append, List.length_singleton, and_assoc, hcount, Nat.forall_lt_succ_left]
      simp only [Nat.add_assoc, Nat.add_comm 1, Nat.add_zero]

/-! ## Writing -/

/-- A `POKETEXT` and its test. -/
theorem meets_pokeWord {a w : Word} {p : Dbg Int} (hlog : AllGranted log) :
    Meets (faultHandler succeeds words)
        (ask (.poketext child a w) >>= fun ok =>
          if ok then p else ask (.print (.perror "write mem err")) >>= fun _ => Prog.ret (-1))
        Reported log ↔
      succeeds log.length = false ∨
        Meets (faultHandler succeeds words) p Reported (log ++ [(.poketext child a w, true)]) := by
  rw [meets_ask rfl]
  cases hok : succeeds log.length with
  | true => simp
  | false =>
      rw [if_neg Bool.false_ne_true, meets_ask rfl, meets_ret]
      simp [reported_failure hlog]

/-- A `POKETEXT` behind a failed request. -/
theorem not_meets_pokeWord {a w : Word} {r : Req} :
    ¬ Meets (faultHandler succeeds words)
        (ask (.poketext child a w) >>= fun ok =>
          if ok then Prog.ret 0
          else ask (.print (.perror "write mem err")) >>= fun _ => Prog.ret (-1))
        Reported (log ++ [(r, false)]) := by
  rw [meets_ask rfl]
  split
  · exact not_reported_two
  · rw [meets_ask rfl]
    exact not_reported_two

/-- A failed `POKETEXT` is reported; a failed `PEEKTEXT` before the last word is not. -/
theorem meets_writeLoop (n i : Nat) (hlog : AllGranted log) :
    Meets (faultHandler succeeds words) (writeLoop child addr str len n i) Reported log ↔
      len % WORD = 0 ∨ (∃ j < n, succeeds (log.length + j) = false) ∨
        succeeds (log.length + n) = true := by
  induction n generalizing i log with
  | zero =>
      rw [writeLoop]
      by_cases hrem : len % WORD = 0
      · simp only [hrem, ne_eq, not_true_eq_false, if_false, Prog.pure_eq, meets_ret,
          reported_zero]
        simp [hlog]
      · simp only [hrem, ne_eq, not_false_eq_true, if_true]
        rw [meets_ask rfl, if_neg (not_data_lt_zero _)]
        cases hpeek : succeeds log.length with
        | true =>
            refine iff_of_true ((meets_pokeWord (allGranted_snoc.mpr ⟨hlog, rfl⟩)).mpr ?_) ?_
            · rw [Prog.pure_eq, meets_ret, reported_zero]
              exact Or.inr (allGranted_snoc.mpr ⟨allGranted_snoc.mpr ⟨hlog, rfl⟩, rfl⟩)
            · exact Or.inr (Or.inr rfl)
        | false => exact iff_of_false not_meets_pokeWord (by simp)
  | succ n ih =>
      rw [writeLoop]
      refine (meets_pokeWord hlog).trans ?_
      rw [ih _ (allGranted_snoc.mpr ⟨hlog, rfl⟩), List.length_append, List.length_singleton,
        Nat.exists_lt_succ_left, or_left_comm, or_assoc]
      simp only [Nat.add_assoc, Nat.add_comm 1, Nat.add_zero]

theorem readProMem_reported_iff :
    Meets (faultHandler succeeds words) (readProMem child addr str len)
        (fun x log => Reported x.1 log) [] ↔
      ∀ k < wordCount len, succeeds k = true := by
  rw [readProMem, meets_readLoop, wordCount]
  simp [allGranted_nil]

theorem writeProMem_reported_iff :
    Meets (faultHandler succeeds words) (writeProMem child addr str len) Reported [] ↔
      len % WORD = 0 ∨ (∃ k < len / WORD, succeeds k = false) ∨ succeeds (len / WORD) = true := by
  rw [writeProMem, meets_writeLoop _ _ allGranted_nil]
  simp

end

/-- **When a failure is reported.**  By `read_pro_mem`, never: its result is
right if and only if every word can be read.  By `write_pro_mem`, unless it is
the `PEEKTEXT` in front of the last word that fails. -/
theorem reports_failures_iff (succeeds : Nat → Bool) (words : Nat → Word) (child : Pid)
    (addr : Word) (str : List Byte) (len : Nat) :
    (Meets (faultHandler succeeds words) (readProMem child addr str len)
        (fun x log => Reported x.1 log) [] ↔
      ∀ k < wordCount len, succeeds k = true) ∧
    (Meets (faultHandler succeeds words) (writeProMem child addr str len) Reported [] ↔
      len % WORD = 0 ∨ (∃ k < len / WORD, succeeds k = false) ∨ succeeds (len / WORD) = true) :=
  ⟨readProMem_reported_iff, writeProMem_reported_iff⟩

/-- Nothing can be read at 0x1000.  One byte is read all the same, and one is
written together with seven that were never there. -/
theorem failed_peek_goes_unnoticed :
    (eval (faultHandler (fun _ => false) (fun _ => 0)) (readProMem 7 0x1000 [0] 1) [] =
        some ((0, [0xFF]), [(.peektext 7 0x1000, false)]) ∧
      ¬ Reported 0 [(.peektext 7 0x1000, false)]) ∧
    eval (faultHandler (fun k => k = 1) (fun _ => 0)) (writeProMem 7 0x1000 [0xCC] 1) [] =
        some (0, [(.peektext 7 0x1000, false), (.poketext 7 0x1000 0xFFFFFFFFFFFFFFCC, true)]) ∧
      ¬ Reported 0 [(.peektext 7 0x1000, false), (.poketext 7 0x1000 0xFFFFFFFFFFFFFFCC, true)] := by
  have hno : ∀ r log, ¬ Reported 0 ((r, false) :: log) := by
    intro r log h
    exact Bool.false_ne_true (reported_zero.mp h _ List.mem_cons_self)
  exact ⟨⟨rfl, hno _ _⟩, rfl, hno _ _⟩

end TestDbug
