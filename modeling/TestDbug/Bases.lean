/-
# `TestDbug.Bases` — recorded addresses and addresses in the process

The kernel maps a program with a bias `B`: what the file calls the address `v`
is at `B + v`.  An `ET_EXEC` program has no bias.  `get_pid_base` returns where
the start of the file is mapped, which is `B + v` for the segment that holds
it, and `get_all_func` adds that to every `st_value`.

`recorded_addresses_iff` says for which programs the sum is the address of the
function: those whose first segment is at 0, and those without functions.
-/
import TestDbug.Elf
import TestDbug.Maps

open ByteMemory Interaction

namespace TestDbug

def ET_EXEC : Nat := 2

def ET_DYN : Nat := 3

def PT_LOAD : Nat := 1

def eType (img : Mem 64 Byte) : Nat := numAt img 16 2

/-- Where the program header `i` is. -/
def phdr (img : Mem 64 Byte) (i : Nat) : Word := wordAt img 32 + BitVec.ofNat 64 (i * 56)

/-- The segment that holds the start of the file is at this address. -/
def StartsAt (img : Mem 64 Byte) (low : Word) : Prop :=
  ∃ i < numAt img 56 2, numAt img (phdr img i) 4 = PT_LOAD ∧ wordAt img (phdr img i + 8) = 0 ∧
    wordAt img (phdr img i + 16) = low

/-- A program the kernel has loaded, and its image in the debugger's memory. -/
structure LoadedProgram where
  mem : Mem 64 Byte
  word : Word
  low : Word
  bias : Word
  maps : Option (List Byte)
  target : ExePath
  base : Word
  type : eType (imageAt mem word) = ET_EXEC ∨ eType (imageAt mem word) = ET_DYN
  starts : StartsAt (imageAt mem word) low
  exec : eType (imageAt mem word) = ET_EXEC → bias = 0
  found : getPidBase maps target = some base
  start : base = bias + low

def LoadedProgram.image (p : LoadedProgram) : Mem 64 Byte := imageAt p.mem p.word

/-- The function symbols for which there is an entry. -/
def functions (word : Word) (img : Mem 64 Byte) : List Nat :=
  (symbols word img).filter (fun i => Recorded img (symtab word img).1 i)

/-- Whenever `open_funs` returns, its entries are the functions of the program,
with the addresses they have in the process. -/
def RecordsRunTime (p : LoadedProgram) : Prop :=
  ∀ n t, Ends (imgHandler p.mem).kernel (openFuns p.word p.base) [] n t →
    List.Forall₂
      (fun i f => f.name = p.word + ((strtab p.word p.image).1 +
          BitVec.ofNat 64 (stName p.image (symtab p.word p.image).1 i)) ∧
        f.addr = stValue p.image (symtab p.word p.image).1 i + p.bias)
      (functions p.word p.image) (t.take n)

theorem table_eq (word base : Word) (img : Mem 64 Byte) :
    table word base img = (functions word img).map
      (funcPtr img word base (symtab word img).1 (strtab word img).1) := rfl

/-- Without a size there is no symbol. -/
theorem symbols_of_neg {word : Word} {img : Mem 64 Byte} (h : ¬0 ≤ (symtab word img).2) :
    symbols word img = [] := by
  have hzero : ((symtab word img).2 / 24).toNat = 0 := by omega
  rw [symbols, hzero]
  rfl

theorem add_eq_iff (value bias low : Word) : value + (bias + low) = value + bias ↔ low = 0 := by
  rw [← BitVec.add_assoc]
  exact BitVec.add_right_eq_self

/-- **When recorded addresses are those of the process.**  If and only if the
start of the file is at the address 0, or there is no function. -/
theorem recorded_addresses_iff (p : LoadedProgram) :
    RecordsRunTime p ↔ p.low = 0 ∨ functions p.word p.image = [] := by
  have hends : ∀ n t, Ends (imgHandler p.mem).kernel (openFuns p.word p.base) [] n t ↔
      0 ≤ (symtab p.word p.image).2 ∧ n = (table p.word p.base p.image).length ∧
        t = putAll (List.replicate (symbols p.word p.image).length ⟨0, 0⟩) 0
          (table p.word p.base p.image) :=
    fun n t => ends_iff_of_meets (meets_openFuns p.base)
  by_cases hsize : 0 ≤ (symtab p.word p.image).2
  · have hrun : RecordsRunTime p ↔ ∀ i ∈ functions p.word p.image, p.low = 0 := by
      simp only [RecordsRunTime, hends, and_iff_right hsize]
      constructor
      · intro h i hi
        have hentries := h _ _ ⟨rfl, rfl⟩
        rw [take_table, table_eq, List.forall₂_map_right_iff] at hentries
        have haddr := (List.forall₂_same.mp hentries i hi).2
        rw [funcPtr, p.start] at haddr
        exact (add_eq_iff _ _ _).mp haddr
      · rintro h n t ⟨hn, ht⟩
        rw [hn, ht, take_table, table_eq, List.forall₂_map_right_iff]
        refine List.forall₂_same.mpr fun i hi => ⟨rfl, ?_⟩
        rw [funcPtr, p.start]
        exact (add_eq_iff _ _ _).mpr (h i hi)
    rw [hrun]
    constructor
    · intro h
      cases hfuns : functions p.word p.image with
      | nil => exact Or.inr rfl
      | cons i is => exact Or.inl (h i (by rw [hfuns]; exact List.mem_cons_self))
    · rintro (h | h) i hi
      · exact h
      · rw [h] at hi
        cases hi
  · refine iff_of_true (fun n t he => absurd ((hends n t).mp he).1 hsize) (Or.inr ?_)
    rw [functions, symbols_of_neg hsize]
    rfl

/-! ### A program at 0 and one at 0x400000 -/

/-- `/p1` mapped from 0x2000 on. -/
def p1Maps : List Byte := mapsText [p1Line]

/-- `/p1` mapped from 0x400000 on. -/
def p1ExecMaps : List Byte := mapsText [fileLine 0x400000 (lit ['/', 'p', '1']) isShown_p1]

/-- A position-independent program. -/
def dynProgram : LoadedProgram where
  mem := memoryWith 0x1000 (smallFile 3 0 0x150)
  word := 0x1000
  low := 0
  bias := 0x2000
  maps := some p1Maps
  target := p1
  base := 0x2000
  type := by decide +kernel
  starts := ⟨0, by decide +kernel, by decide +kernel⟩
  exec := by decide +kernel
  found := by decide +kernel
  start := by decide

/-- A program linked to 0x400000. -/
def execProgram : LoadedProgram where
  mem := memoryWith 0x1000 (smallFile 2 0x400000 0x400150)
  word := 0x1000
  low := 0x400000
  bias := 0
  maps := some p1ExecMaps
  target := p1
  base := 0x400000
  type := by decide +kernel
  starts := ⟨0, by decide +kernel, by decide +kernel⟩
  exec := by decide +kernel
  found := by decide +kernel
  start := by decide

theorem recorded_addresses_iff_dyn : RecordsRunTime dynProgram :=
  (recorded_addresses_iff dynProgram).mpr (Or.inl rfl)

/-- `f` is at 0x400150, and is recorded at 0x800150. -/
theorem exec_address_is_doubled :
    eval (imgHandler execProgram.mem) (openFuns execProgram.word execProgram.base) [] =
        some (1, [⟨0x108a, 0x800150⟩, ⟨0, 0⟩]) ∧
      ¬RecordsRunTime execProgram := by
  have hrun : eval (imgHandler execProgram.mem) (openFuns execProgram.word execProgram.base) [] =
      some (1, [⟨0x108a, 0x800150⟩, ⟨0, 0⟩]) := by decide +kernel
  refine ⟨hrun, fun h => ?_⟩
  have hfuns : functions execProgram.word execProgram.image = [1] := by decide +kernel
  have haddr := h _ _ (eval_ends (fun _ _ _ _ hx => hx) hrun)
  rw [hfuns] at haddr
  cases haddr with
  | cons hf _ => exact absurd hf.2 (by decide +kernel)

end TestDbug
