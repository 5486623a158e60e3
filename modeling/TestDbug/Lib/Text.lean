/-
# `TestDbug.Lib.Text` — words, lines, and a reader with little room

A text is a list over any type of characters.  Which of them separate words is
a predicate, and one character ends a line.

    words sp s      the maximal runs without a separator
    lines nl s      the lines with their ends, the last one perhaps without
    gets nl n s     what a reader with room for `n` characters takes, and the rest

`split_induction` goes through a text from separator to separator;
`find?_eq_find?_iff` compares two searches through one list.
`gets_rest_iff` is the law of the reader: it stops at the end of the line if
and only if there is room for it.
-/
import Mathlib.Data.List.Basic
import Mathlib.Data.List.TakeWhile
import Mathlib.Tactic.Common

namespace Text

variable {α : Type} {sp : α → Bool} {w rest s : List α} {x : α}

/-! ## Words -/

/-- The maximal runs of characters that separate nothing. -/
def words (sp : α → Bool) (s : List α) : List (List α) :=
  (s.splitOnP sp).filter (fun w => !w.isEmpty)

theorem words_nil : words sp [] = [] := rfl

theorem words_append_sep (hx : sp x = true) (s rest : List α) :
    words sp (s ++ x :: rest) = words sp s ++ words sp rest := by
  rw [words, List.splitOnP_append_cons s rest hx, List.filter_append]
  rfl

theorem words_sep (hx : sp x = true) : words sp (x :: rest) = words sp rest :=
  words_append_sep hx [] rest

theorem words_word (hw : ∀ c ∈ w, sp c = false) (hne : w ≠ []) : words sp w = [w] := by
  rw [words, List.splitOnP_eq_singleton hw]
  simp [hne]

theorem nil_notMem_words : [] ∉ words sp s := by
  simp [words]

/-- A text has no separator, or a first one. -/
theorem exists_first_sep (sp : α → Bool) (s : List α) :
    (∀ c ∈ s, sp c = false) ∨
      ∃ w x rest, s = w ++ x :: rest ∧ (∀ c ∈ w, sp c = false) ∧ sp x = true := by
  induction s with
  | nil => exact Or.inl fun c hc => by cases hc
  | cons c s ih =>
      cases hc : sp c with
      | true => exact Or.inr ⟨[], c, s, rfl, (fun d hd => by cases hd), hc⟩
      | false =>
          rcases ih with hs | ⟨w, x, rest, rfl, hw, hx⟩
          · exact Or.inl (List.forall_mem_cons.mpr ⟨hc, hs⟩)
          · exact Or.inr ⟨c :: w, x, rest, rfl, List.forall_mem_cons.mpr ⟨hc, hw⟩, hx⟩

/-- Induction from separator to separator. -/
theorem split_induction (sp : α → Bool) {motive : List α → Prop}
    (tail : ∀ w, (∀ c ∈ w, sp c = false) → motive w)
    (sep : ∀ w x rest, (∀ c ∈ w, sp c = false) → sp x = true → motive rest →
      motive (w ++ x :: rest)) (s : List α) : motive s := by
  induction hn : s.length using Nat.strongRecOn generalizing s with
  | ind n ih =>
      rcases exists_first_sep sp s with hs | ⟨w, x, rest, rfl, hw, hx⟩
      · exact tail s hs
      · refine sep w x rest hw hx (ih rest.length ?_ rest rfl)
        rw [← hn, List.length_append, List.length_cons]
        omega

/-- Up to a character that does not occur is all of the text. -/
theorem takeWhile_ne_eq_self [DecidableEq α] (h : x ∉ s) : s.takeWhile (· ≠ x) = s := by
  rw [List.takeWhile_eq_self_iff]
  intro c hc
  exact decide_eq_true (ne_of_mem_of_not_mem hc h)

/-- Up to its first occurrence is what stands before it. -/
theorem takeWhile_ne_append [DecidableEq α] (h : x ∉ w) :
    (w ++ x :: rest).takeWhile (· ≠ x) = w := by
  have hw : ∀ c ∈ w, decide (c ≠ x) = true :=
    fun c hc => decide_eq_true (ne_of_mem_of_not_mem hc h)
  rw [List.takeWhile_append_of_pos hw, List.takeWhile_cons_of_neg (by simp), List.append_nil]

/-- And from there on the rest. -/
theorem dropWhile_ne_append [DecidableEq α] (h : x ∉ w) :
    (w ++ x :: rest).dropWhile (· ≠ x) = x :: rest := by
  have hw : ∀ c ∈ w, decide (c ≠ x) = true :=
    fun c hc => decide_eq_true (ne_of_mem_of_not_mem hc h)
  rw [List.dropWhile_append_of_pos hw, List.dropWhile_cons_of_neg (by simp)]

/-- A front without the character ends before it. -/
theorem prefix_takeWhile_ne [DecidableEq α] (h : x ∉ w) :
    w <+: s.takeWhile (· ≠ x) ↔ w <+: s := by
  constructor
  · exact fun hpre => hpre.trans (List.takeWhile_prefix _)
  · rintro ⟨rest, rfl⟩
    rw [List.takeWhile_append_of_pos fun c hc => decide_eq_true (ne_of_mem_of_not_mem hc h)]
    exact List.prefix_append w _

/-! ## Two searches -/

section
variable {p q : α → Bool}

/-- Two searches find the same if and only if the first passes by everything before
the second's find, and not by that. -/
theorem find?_eq_find?_iff (l : List α) :
    l.find? p = l.find? q ↔
      (∀ a ∈ l.takeWhile (fun a => !q a), p a = false) ∧ ∀ a ∈ l.find? q, p a = true := by
  induction l with
  | nil => simp
  | cons a l ih =>
      cases hq : q a with
      | true =>
          rw [List.find?_cons_of_pos (p := q) hq, List.takeWhile_cons_of_neg (by simp [hq])]
          constructor
          · intro h
            refine ⟨(fun b hb => by cases hb), fun b hb => ?_⟩
            obtain rfl := Option.some.inj hb
            exact List.find?_some h
          · intro h
            exact List.find?_cons_of_pos (h.2 a rfl)
      | false =>
          rw [List.find?_cons_of_neg (p := q) (by simp [hq]),
            List.takeWhile_cons_of_pos (by simp [hq]), List.forall_mem_cons]
          cases hp : p a with
          | false =>
              rw [List.find?_cons_of_neg (by simp [hp]), ih]
              simp
          | true =>
              refine iff_of_false ?_ (fun h => by cases h.1.1)
              rw [List.find?_cons_of_pos hp]
              intro h
              have hqa := List.find?_some h.symm
              rw [hq] at hqa
              cases hqa

/-- If the second is the stricter, only what stands before its find matters. -/
theorem find?_eq_find?_iff_of_imp (hqp : ∀ a, q a = true → p a = true) (l : List α) :
    l.find? p = l.find? q ↔ ∀ a ∈ l.takeWhile (fun a => !q a), p a = false := by
  rw [find?_eq_find?_iff]
  exact and_iff_left fun a ha => hqp a (List.find?_some ha)

end

/-! ## Lines -/

variable [DecidableEq α] {nl : α} {l : List α} {ls : List (List α)} {n : Nat}

/-- The lines of a text, each with the character that ends it; what follows the
last of these is a line as well. -/
def lines (nl : α) : List α → List (List α)
  | [] => []
  | c :: cs =>
      if c = nl then [c] :: lines nl cs
      else
        match lines nl cs with
        | [] => [[c]]
        | l :: ls => (c :: l) :: ls

/-- Take characters up to the end of the line, at most `n`. -/
def gets (nl : α) : Nat → List α → List α × List α
  | 0, s => ([], s)
  | _ + 1, [] => ([], [])
  | n + 1, c :: cs =>
      if c = nl then ([c], cs)
      else (c :: (gets nl n cs).1, (gets nl n cs).2)

theorem flatten_lines (nl : α) (s : List α) : (lines nl s).flatten = s := by
  induction s with
  | nil => rfl
  | cons c s ih =>
      rw [lines]
      split
      · rw [List.flatten_cons, ih]
        rfl
      · cases hs : lines nl s with
        | nil =>
            rw [hs] at ih
            rw [← ih]
            rfl
        | cons l ls =>
            rw [hs] at ih
            rw [← ih]
            rfl

theorem gets_append (nl : α) (n : Nat) (s : List α) : (gets nl n s).1 ++ (gets nl n s).2 = s := by
  induction n generalizing s with
  | zero => rfl
  | succ n ih =>
      cases s with
      | nil => rfl
      | cons c s =>
          rw [gets]
          split
          · rfl
          · rw [List.cons_append, ih]

theorem length_gets (nl : α) (n : Nat) (s : List α) : (gets nl n s).1.length ≤ n := by
  induction n generalizing s with
  | zero => exact Nat.le_refl 0
  | succ n ih =>
      cases s with
      | nil => exact Nat.zero_le _
      | cons c s =>
          rw [gets]
          split
          · exact Nat.succ_le_succ (Nat.zero_le n)
          · exact Nat.succ_le_succ (ih s)

/-- A line that ends, read where there is room for it. -/
theorem gets_line (hl : nl ∉ l) (hn : l.length < n) :
    gets nl n (l ++ nl :: rest) = (l ++ [nl], rest) := by
  induction l generalizing n with
  | nil =>
      obtain ⟨n, rfl⟩ := Nat.exists_eq_add_one.mpr hn
      rw [List.nil_append, gets, if_pos rfl]
      rfl
  | cons c l ih =>
      obtain ⟨n, rfl⟩ := Nat.exists_eq_add_one.mpr (Nat.zero_lt_of_lt hn)
      rw [List.mem_cons, not_or] at hl
      rw [List.cons_append, gets, if_neg (Ne.symm hl.1), ih hl.2 (Nat.lt_of_succ_lt_succ hn)]
      rfl

/-- The lines behind the first are the lines of the rest. -/
theorem lines_tail (h : lines nl s = l :: ls) : lines nl ls.flatten = ls := by
  induction s generalizing l ls with
  | nil => cases h
  | cons c s ih =>
      rw [lines] at h
      split at h
      · cases h
        rw [flatten_lines]
      · cases hs : lines nl s with
        | nil =>
            rw [hs] at h
            cases h
            rfl
        | cons l' ls' =>
            rw [hs] at h
            cases h
            exact ih hs

theorem lines_drop (s : List α) (k : Nat) :
    lines nl ((lines nl s).drop k).flatten = (lines nl s).drop k := by
  induction k generalizing s with
  | zero => rw [List.drop_zero, flatten_lines]
  | succ k ih =>
      cases hs : lines nl s with
      | nil => rfl
      | cons l ls =>
          have hls := lines_tail hs
          rw [List.drop_succ_cons, ← hls]
          exact ih _

/-- The reader is through with the first line if and only if there is room for it. -/
theorem gets_rest_iff (h : lines nl s = l :: ls) :
    (gets nl n s).2 = ls.flatten ↔ l.length ≤ n := by
  induction s generalizing l ls n with
  | nil => cases h
  | cons c s ih =>
      have hflat : l ++ ls.flatten = c :: s := by
        rw [← flatten_lines nl (c :: s), h]
        rfl
      cases n with
      | zero =>
          rw [gets, ← hflat, Nat.le_zero, List.length_eq_zero_iff]
          exact List.append_left_eq_self
      | succ n =>
          rw [gets]
          rw [lines] at h
          split at h
          · rename_i hc
            cases h
            rw [if_pos hc]
            refine iff_of_true (flatten_lines nl s).symm ?_
            exact Nat.succ_le_succ (Nat.zero_le n)
          · rename_i hc
            rw [if_neg hc]
            cases hs : lines nl s with
            | nil =>
                rw [hs] at h
                cases h
                have hnil : s = [] := by
                  rw [← flatten_lines nl s, hs]
                  rfl
                rw [hnil]
                refine iff_of_true ?_ (Nat.succ_le_succ (Nat.zero_le n))
                cases n <;> rfl
            | cons l' ls' =>
                rw [hs] at h
                cases h
                rw [ih hs, List.length_cons, Nat.succ_le_succ_iff]

/-- What it has taken is that line, then. -/
theorem gets_eq_line (h : lines nl s = l :: ls) (hn : l.length ≤ n) :
    gets nl n s = (l, ls.flatten) := by
  have hrest := (gets_rest_iff h).mpr hn
  have hall := gets_append nl n s
  rw [hrest] at hall
  have hflat : l ++ ls.flatten = s := by
    rw [← flatten_lines nl s, h]
    rfl
  exact Prod.ext (List.append_cancel_right (hall.trans hflat.symm)) hrest

end Text
