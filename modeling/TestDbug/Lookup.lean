/-
# `TestDbug.Lookup` — the function `b` breaks at

`find_func` compares as many bytes as were typed, so it stops at the first
entry whose name *begins* with them; `play_command` and `get_section_addr`,
which search tables of their own, compare whole names.

`breaks_by_name_iff` says for which tables the difference does not show.  The
memory of the debuggee can be read and written throughout; what a failing
request does is the business of `Placing`.
-/
import TestDbug.Session
import TestDbug.Lib.Text

open ByteMemory Interaction Text

namespace TestDbug

/-- What `b func` is for: an INT3 at the first function of exactly that name,
or -1 and nothing done. -/
def BreaksByName (dbug : Dbug) (funs : FunArr) (func : CStr) (m : Memories) (x : Int × Dbug)
    (m' : Memories) : Prop :=
  match funs.find? (fun f => f.name = func) with
  | some f =>
      x.1 = 0 ∧
      (∃ bp, x.2 = { dbug with bps := dbug.bps ++ [bp] } ∧ bp.type = .SFBP ∧
        bp.name = some func ∧ bp.addr = f.addr) ∧
      m' = Function.update m dbug.pid (store (m dbug.pid) f.addr [INT_3])
  | none => x = (-1, dbug) ∧ m' = m

section
variable {dbug : Dbug} {funs : FunArr} {func : CStr} {m m' : Memories} {arg : NgxArray}

/-- `find_func`, by what it finds instead of by an index. -/
theorem findFunc_eq_some {i : Nat} (h : findFunc (some funs) (some func) = some i) :
    funs.find? (fun f => func.isPrefixOf f.name) = some (funs.getD i ⟨[], 0⟩) := by
  obtain ⟨hi, -, -⟩ := List.findIdx?_eq_some_iff_getElem.mp h
  rw [List.find?_eq_bind_findIdx?_getElem?]
  simp only [findFunc] at h
  simp [h, List.getD_eq_getElem?_getD, List.getElem?_eq_getElem hi]

theorem findFunc_eq_none (h : findFunc (some funs) (some func) = none) :
    funs.find? (fun f => func.isPrefixOf f.name) = none := by
  rw [findFunc, List.findIdx?_eq_none_iff] at h
  rw [List.find?_eq_none]
  intro f hf
  rw [h f hf]
  exact Bool.false_ne_true

theorem meets_insertINT3Bp {pid : Pid} {bp : Breakpoint}
    {Q : Int × Breakpoint → Memories → Prop} :
    Meets memHandler (insertINT3Bp pid bp) Q m ↔
      Q (0, bp.planted (m pid bp.addr))
        (Function.update m pid (store (m pid) bp.addr [INT_3])) := by
  rw [insertINT3Bp, meets_bind, meets_of_ends fun _ _ => ends_readProMem (by simp)]
  rw [meets_bind]
  refine (meets_of_ends fun _ _ => ends_writeProMem (by decide)).trans ?_
  rw [meets_ask rfl]
  exact Iff.rfl

/-- `command_break` on a memory that can be read and written. -/
theorem meets_commandBreak {Q : Int × Dbug → Memories → Prop} (hfuns : dbug.funs = some funs)
    (hname : arg.str 1 = some func) :
    Meets memHandler (commandBreak dbug arg) Q m ↔
      match funs.find? (fun f => func.isPrefixOf f.name) with
      | some f =>
          Q (0, { dbug with bps := dbug.bps ++
              [({ name := some f.name, addr := f.addr } : Breakpoint).planted (m dbug.pid f.addr)] })
            (Function.update m dbug.pid (store (m dbug.pid) f.addr [INT_3]))
      | none => Q (-1, dbug) m := by
  rw [commandBreak, hfuns, hname]
  cases hfind : findFunc (some funs) (some func) with
  | none =>
      rw [findFunc_eq_none hfind]
      exact Iff.rfl
  | some i =>
      rw [findFunc_eq_some hfind]
      dsimp only
      rw [meets_bind, meets_insertINT3Bp]
      exact Iff.rfl

/-- Breaking at `f` is right if `f` is the function meant. -/
theorem breaksByName_some {f : FuncOrg} {b : Byte} :
    BreaksByName dbug funs func m
        (0, { dbug with bps := dbug.bps ++
          [({ name := some f.name, addr := f.addr } : Breakpoint).planted b] })
        (Function.update m dbug.pid (store (m dbug.pid) f.addr [INT_3])) ↔
      some f = funs.find? (fun f => f.name = func) := by
  rw [BreaksByName]
  cases hexact : funs.find? (fun f => f.name = func) with
  | none =>
      refine iff_of_false ?_ (Option.some_ne_none f)
      rintro ⟨hx, -⟩
      exact absurd (congrArg Prod.fst hx) (show (0 : Int) ≠ -1 by decide)
  | some g =>
      have hg : g.name = func := by simpa using List.find?_some hexact
      constructor
      · rintro ⟨-, ⟨bp, hbps, -, hname, haddr⟩, -⟩
        have hbp := List.append_cancel_left (congrArg Dbug.bps hbps)
        obtain rfl := (List.cons.inj hbp).1
        have hf : f.name = g.name := (Option.some.inj hname).trans hg.symm
        cases f
        cases g
        cases hf
        cases haddr
        rfl
      · intro hfg
        obtain rfl := Option.some.inj hfg
        exact ⟨rfl, ⟨_, rfl, rfl, congrArg some hg, rfl⟩, rfl⟩

/-- Doing nothing is right if there is no such function. -/
theorem breaksByName_none :
    BreaksByName dbug funs func m (-1, dbug) m ↔
      none = funs.find? (fun f => f.name = func) := by
  rw [BreaksByName]
  cases funs.find? (fun f => f.name = func) with
  | none => exact iff_of_true ⟨rfl, rfl⟩ rfl
  | some g =>
      refine iff_of_false ?_ (Option.some_ne_none g).symm
      rintro ⟨hx, -⟩
      exact absurd hx (show (-1 : Int) ≠ 0 by decide)

/-- **Which function `b` breaks at.**  The one of the name typed, if and only if
no entry before it has a name that goes on after what was typed. -/
theorem breaks_by_name_iff (hfuns : dbug.funs = some funs) (hname : arg.str 1 = some func) :
    Meets memHandler (commandBreak dbug arg) (BreaksByName dbug funs func m) m ↔
      ∀ f ∈ funs.takeWhile (fun f => f.name ≠ func), ¬ func <+: f.name := by
  have hsame := find?_eq_find?_iff_of_imp (p := fun f : FuncOrg => func.isPrefixOf f.name)
    (q := fun f => f.name = func) (by simp +contextual) funs
  rw [meets_commandBreak hfuns hname]
  trans funs.find? (fun f => func.isPrefixOf f.name) = funs.find? (fun f => f.name = func)
  · cases funs.find? (fun f => func.isPrefixOf f.name) with
    | some f => exact breaksByName_some
    | none => exact breaksByName_none
  · rw [hsame]
    simp only [decide_not, ← List.isPrefixOf_iff_prefix, Bool.not_eq_true]

end

/-! ## `g` and `g2` -/

/-- A debugger with this table. -/
def withFuns (funs : FunArr) : Dbug := { initDbug with pid := 7, funs := some funs }

/-- `g` at 1, then `g2` at 2. -/
def shorterFirst : FunArr := [⟨lit ['g'], 1⟩, ⟨lit ['g', '2'], 2⟩]

def breakG : NgxArray := typed ['b', ' ', 'g', '\n']

theorem breaks_by_name_iff_two :
    Meets memHandler (commandBreak (withFuns shorterFirst) breakG)
      (BreaksByName (withFuns shorterFirst) shorterFirst (lit ['g']) fun _ _ => 0) fun _ _ => 0 :=
  (breaks_by_name_iff rfl (by decide)).mpr (by decide)

/-- With `g2` first, `b g` breaks there. -/
theorem longer_name_takes_breakpoint :
    (eval memHandler (commandBreak (withFuns shorterFirst.reverse) breakG) fun _ _ => 0).map
        (fun q => q.1.2.bps.map fun bp => (bp.name, bp.addr)) = some [(some (lit ['g', '2']), 2)] ∧
      ¬ Meets memHandler (commandBreak (withFuns shorterFirst.reverse) breakG)
        (BreaksByName (withFuns shorterFirst.reverse) shorterFirst.reverse (lit ['g']) fun _ _ => 0)
        fun _ _ => 0 := by
  constructor
  · decide +kernel
  · intro h
    have hwrong := (meets_commandBreak rfl (show breakG.str 1 = some (lit ['g']) by decide)).mp h
    cases breaksByName_some.mp hwrong

end TestDbug
