/-
# `TestDbug.Mem` — reading and writing the memory of the debuggee

`mem.c`: `read_pro_mem` and `write_pro_mem` move `len` bytes by whole words and
finish with the remainder.  A read takes the low bytes of one more word; a
write must read that word, change its low bytes and put it back.

The failure test of the source compares the *unsigned* `data` with 0, so a
failing `PTRACE_PEEKTEXT` goes unnoticed in both functions; the model keeps the
test as it is.

A kernel under which `PEEKTEXT` and `POKETEXT` always succeed is one with a
`MemView`.  There both functions are what they are meant to be, at any address
and for any length: `wp_writeProMem`, `wp_readProMem`, and for whole sequences
of writes `memory_is_byte_exact`.
-/
import TestDbug.Ptrace
import Mathlib.Tactic.Ring

open ByteMemory Interaction

namespace TestDbug

/-- `WORD`. -/
def WORD : Nat := 8

/-- `memcpy(dst + off, src, |src|)`. -/
def memcpy (dst : List Byte) (off : Nat) (src : List Byte) : List Byte :=
  dst.take off ++ src ++ dst.drop (off + src.length)

/-- `read_pro_mem` from the `i`-th word on, with `n` whole words to go.  `str`
is the memory from the buffer's start, which may go on behind the buffer. -/
def readLoop (child : Pid) (addr : Word) (len : Nat) : Nat → Nat → List Byte → Dbg (Int × List Byte)
  | n + 1, i, str => do
      let data := peekResult (← ask (.peektext child (addr + BitVec.ofNat 64 (i * WORD))))
      if data < 0 then do
        ask (.print (.perror "read mem err"))
        return (-1, str)
      else
        readLoop child addr len n (i + 1) (memcpy str (i * WORD) (toBytes data))
  | 0, i, str => do
      let remainder := len % WORD
      if remainder ≠ 0 then do
        let data := peekResult (← ask (.peektext child (addr + BitVec.ofNat 64 (i * WORD))))
        if data < 0 then do
          ask (.print (.perror "read mem err"))
          return (-1, str)
        else
          return (0, memcpy str (i * WORD) ((toBytes data).take remainder))
      else
        return (0, str)

/-- `read_pro_mem`: what it returns, and the buffer it leaves. -/
def readProMem (child : Pid) (addr : Word) (str : List Byte) (len : Nat) : Dbg (Int × List Byte) :=
  readLoop child addr len (len / WORD) 0 str

/-- `write_pro_mem` from the `i`-th word on, with `n` whole words to go. -/
def writeLoop (child : Pid) (addr : Word) (str : List Byte) (len : Nat) : Nat → Nat → Dbg Int
  | n + 1, i => do
      let data := ofBytes ((str.drop (i * WORD)).take WORD)
      if ← ask (.poketext child (addr + BitVec.ofNat 64 (i * WORD)) data) then
        writeLoop child addr str len n (i + 1)
      else do
        ask (.print (.perror "write mem err"))
        return -1
  | 0, i => do
      let remainder := len % WORD
      if remainder ≠ 0 then do
        let data := peekResult (← ask (.peektext child (addr + BitVec.ofNat 64 (i * WORD))))
        if data < 0 then do
          ask (.print (.perror "read mem err"))
          return -1
        else do
          let data := ofBytes (memcpy (toBytes data) 0 ((str.drop (i * WORD)).take remainder))
          if ← ask (.poketext child (addr + BitVec.ofNat 64 (i * WORD)) data) then
            return 0
          else do
            ask (.print (.perror "write mem err"))
            return -1
      else
        return 0

/-- `write_pro_mem`. -/
def writeProMem (child : Pid) (addr : Word) (str : List Byte) (len : Nat) : Dbg Int :=
  writeLoop child addr str len (len / WORD) 0

/-! ## Kernels with a memory -/

/-- In the states `ok`, the requests of `K` for the memory of `pid` all succeed
and act on `get`; printing leaves every state alone. -/
structure MemView {σ : Type} (K : Kernel Resp σ) (pid : Pid) where
  ok : σ → Prop
  get : σ → Mem 64 Byte
  set : Mem 64 Byte → σ → σ
  peek_iff : ∀ {s a x s'}, ok s →
    (K (.peektext pid a) s x s' ↔ x = some (peek (get s) a) ∧ s' = s)
  poke_iff : ∀ {s a w x s'}, ok s →
    (K (.poketext pid a w) s x s' ↔ x = true ∧ s' = set (poke (get s) a w) s)
  ok_set : ∀ {m s}, ok s → ok (set m s)
  get_set : ∀ m s, get (set m s) = m
  set_set : ∀ m m' s, set m (set m' s) = set m s
  set_get : ∀ s, set (get s) s = s
  print_quiet : ∀ {o s x s'}, K (.print o) s x s' → s' = s

section
variable {σ : Type} {K : Kernel Resp σ} {pid : Pid} {s : σ}

theorem wp_peek (V : MemView K pid) (hok : V.ok s) {a : Word} {Q : Option Word → σ → Prop} :
    wp K Free (ask (.peektext pid a)) Q s ↔ Q (some (peek (V.get s) a)) s := by
  simp only [wp_req, Free, true_and, V.peek_iff hok]
  constructor
  · intro h
    exact h _ _ ⟨rfl, rfl⟩
  · rintro h x s' ⟨rfl, rfl⟩
    exact h

theorem wp_poke (V : MemView K pid) (hok : V.ok s) {a w : Word} {Q : Bool → σ → Prop} :
    wp K Free (ask (.poketext pid a w)) Q s ↔ Q true (V.set (poke (V.get s) a w) s) := by
  simp only [wp_req, Free, true_and, V.poke_iff hok]
  constructor
  · intro h
    exact h _ _ ⟨rfl, rfl⟩
  · rintro h x s' ⟨rfl, rfl⟩
    exact h

theorem wp_print (V : MemView K pid) {o : Out} {Q : Unit → σ → Prop} (h : Q () s) :
    wp K Free (ask (.print o)) Q s := by
  simp only [wp_req, Free, true_and]
  intro x s' hK
  obtain rfl := V.print_quiet hK
  exact h

end

/-- The failure test of the source never fires: the word is unsigned. -/
theorem not_data_lt_zero (data : Word) : ¬ data < 0 := by
  rw [BitVec.lt_def]
  simp

/-! ### Chunks of a buffer -/

theorem take_drop_append_drop (str : List Byte) {len i : Nat} (h : i * WORD + WORD ≤ len) :
    (str.drop (i * WORD)).take WORD ++ (str.take len).drop ((i + 1) * WORD)
      = (str.take len).drop (i * WORD) := by
  have hword : (str.drop (i * WORD)).take WORD = ((str.take len).drop (i * WORD)).take WORD := by
    rw [List.drop_take, List.take_take, Nat.min_eq_left (by omega)]
  rw [hword, Nat.add_mul, Nat.one_mul, ← List.drop_drop, List.take_append_drop]

theorem take_remainder (str : List Byte) (len : Nat) :
    (str.drop (len / WORD * WORD)).take (len % WORD) = (str.take len).drop (len / WORD * WORD) := by
  have : len - len / WORD * WORD = len % WORD := by
    have := Nat.div_add_mod len WORD
    rw [Nat.mul_comm] at this
    omega
  rw [List.drop_take, this]

/-- The word that `write_pro_mem` puts back at its tail. -/
theorem toBytes_ofBytes_memcpy (m : Mem 64 Byte) (a : Word) {src : List Byte}
    (h : src.length ≤ 8) :
    toBytes (ofBytes (memcpy (toBytes (peek m a)) 0 src)) = src ++ (load m a 8).drop src.length := by
  rw [toBytes_peek, toBytes_ofBytes]
  · simp [memcpy]
  · simp [memcpy]
    omega

section
variable {σ : Type} {K : Kernel Resp σ} {pid : Pid} {addr : Word} {str : List Byte} {len : Nat}

/-! ### Writing -/

theorem wp_writeTail (V : MemView K pid) {s : σ} (hok : V.ok s)
    {Q : Int → σ → Prop} :
    wp K Free (writeLoop pid addr str len 0 (len / WORD)) Q s ↔
      Q 0 (V.set (store (V.get s) (addr + BitVec.ofNat 64 (len / WORD * WORD))
        ((str.take len).drop (len / WORD * WORD))) s) := by
  have hdiv := Nat.div_add_mod len WORD
  rw [Nat.mul_comm] at hdiv
  have hmod : len % WORD < 8 := Nat.mod_lt _ (by decide)
  rw [writeLoop]
  by_cases hrem : len % WORD = 0
  · have hnil : (str.take len).drop (len / WORD * WORD) = [] := by
      rw [← take_remainder, hrem, List.take_zero]
    simp [hrem, hnil, store_nil, V.set_get]
  · have hsrc : ((str.take len).drop (len / WORD * WORD)).length ≤ 8 := by
      rw [← take_remainder, List.length_take]
      omega
    simp only [hrem, ne_eq, not_false_eq_true, if_true, wp_bind, wp_peek V hok, wp_poke V hok,
      if_neg (not_data_lt_zero _), peekResult, wp_ret, Prog.pure_eq, take_remainder]
    rw [poke, toBytes_ofBytes_memcpy _ _ hsrc, store_append_load _ _ _ hsrc (by decide)]

theorem wp_writeLoop (V : MemView K pid) (hstr : len ≤ str.length) (hlen : len < 2 ^ 31)
    {n i : Nat} (hni : n + i = len / WORD) {s : σ} (hok : V.ok s) {Q : Int → σ → Prop} :
    wp K Free (writeLoop pid addr str len n i) Q s ↔
      Q 0 (V.set (store (V.get s) (addr + BitVec.ofNat 64 (i * WORD))
        ((str.take len).drop (i * WORD))) s) := by
  induction n generalizing i s with
  | zero =>
      obtain rfl : i = len / WORD := by omega
      exact wp_writeTail V hok
  | succ n ih =>
      have hchunk : i * WORD + WORD ≤ len := by
        have := Nat.div_mul_le_self len WORD
        simp only [WORD] at hni this ⊢
        omega
      have hword : ((str.drop (i * WORD)).take WORD).length = 8 := by
        simp only [WORD] at hchunk ⊢
        rw [List.length_take, List.length_drop]
        omega
      have hnext : addr + BitVec.ofNat 64 ((i + 1) * WORD)
          = addr + BitVec.ofNat 64 (i * WORD) + BitVec.ofNat 64 8 := by
        rw [Nat.add_mul, Nat.one_mul, BitVec.ofNat_add, ← BitVec.add_assoc]
        rfl
      have hfit : 8 + ((str.take len).drop ((i + 1) * WORD)).length ≤ 2 ^ 64 := by
        rw [List.length_drop, List.length_take]
        omega
      rw [writeLoop]
      simp only [wp_bind, wp_poke V hok, if_true]
      rw [ih (by omega) (V.ok_set hok), V.get_set, V.set_set, poke, toBytes_ofBytes hword, hnext]
      have happ := store_append (V.get s) (addr + BitVec.ofNat 64 (i * WORD))
        ((str.drop (i * WORD)).take WORD) ((str.take len).drop ((i + 1) * WORD))
        (by rw [hword]; exact hfit)
      rw [hword] at happ
      rw [happ, take_drop_append_drop str hchunk]

/-- `write_pro_mem` returns 0 and stores the buffer, and nothing else. -/
theorem wp_writeProMem (V : MemView K pid) (hstr : len ≤ str.length) (hlen : len < 2 ^ 31)
    {s : σ} (hok : V.ok s) {Q : Int → σ → Prop} :
    wp K Free (writeProMem pid addr str len) Q s ↔
      Q 0 (V.set (store (V.get s) addr (str.take len)) s) := by
  rw [writeProMem, wp_writeLoop V hstr hlen (by omega) hok]
  simp

/-! ### Reading -/

theorem length_memcpy {dst src : List Byte} {off : Nat} (h : off + src.length ≤ dst.length) :
    (memcpy dst off src).length = dst.length := by
  simp only [memcpy, List.length_append, List.length_take, List.length_drop]
  omega

theorem take_memcpy {dst src : List Byte} {off : Nat} (h : off + src.length ≤ dst.length) :
    (memcpy dst off src).take (off + src.length) = dst.take off ++ src := by
  have hlen : (dst.take off ++ src).length = off + src.length := by
    rw [List.length_append, List.length_take, Nat.min_eq_left (by omega)]
  rw [memcpy, ← hlen, List.take_left]

theorem drop_memcpy {dst src : List Byte} {off k : Nat} (h : off + src.length ≤ dst.length)
    (hk : off + src.length ≤ k) : (memcpy dst off src).drop k = dst.drop k := by
  have hlen : (dst.take off ++ src).length = off + src.length := by
    rw [List.length_append, List.length_take, Nat.min_eq_left (by omega)]
  obtain ⟨j, rfl⟩ := Nat.exists_eq_add_of_le hk
  rw [memcpy, ← List.drop_drop, ← hlen, List.drop_left, hlen, List.drop_drop]

theorem wp_readTail (V : MemView K pid) {s : σ} (hok : V.ok s)
    {Q : Int × List Byte → σ → Prop} :
    wp K Free (readLoop pid addr len 0 (len / WORD) str) Q s ↔
      Q (0, str.take (len / WORD * WORD)
        ++ load (V.get s) (addr + BitVec.ofNat 64 (len / WORD * WORD)) (len % WORD)
        ++ str.drop len) s := by
  have hdiv := Nat.div_add_mod len WORD
  rw [Nat.mul_comm] at hdiv
  have hmod : len % WORD < 8 := Nat.mod_lt _ (by decide)
  rw [readLoop]
  by_cases hrem : len % WORD = 0
  · have hlen : len / WORD * WORD = len := by omega
    simp [hrem, hlen, load]
  · simp only [hrem, ne_eq, not_false_eq_true, if_true, wp_bind, wp_peek V hok,
      if_neg (not_data_lt_zero _), peekResult, wp_ret, Prog.pure_eq, toBytes_peek]
    rw [load_take _ _ (by omega), memcpy, length_load, hdiv]

theorem wp_readLoop (V : MemView K pid) {n i : Nat}
    (hni : n + i = len / WORD) {s : σ} (hok : V.ok s) (hstr : len ≤ str.length)
    {Q : Int × List Byte → σ → Prop} :
    wp K Free (readLoop pid addr len n i str) Q s ↔
      Q (0, str.take (i * WORD)
        ++ load (V.get s) (addr + BitVec.ofNat 64 (i * WORD)) (len - i * WORD)
        ++ str.drop len) s := by
  induction n generalizing i str with
  | zero =>
      obtain rfl : i = len / WORD := by omega
      have hdiv := Nat.div_add_mod len WORD
      rw [Nat.mul_comm] at hdiv
      have hrest : len - len / WORD * WORD = len % WORD := by omega
      rw [hrest]
      exact wp_readTail V hok
  | succ n ih =>
      have hchunk : i * WORD + 8 ≤ len := by
        have := Nat.div_mul_le_self len WORD
        simp only [WORD] at hni this ⊢
        omega
      have hnext : (i + 1) * WORD = i * WORD + 8 := by
        rw [Nat.add_mul, Nat.one_mul]
        rfl
      rw [readLoop]
      simp only [wp_bind, wp_peek V hok, if_neg (not_data_lt_zero _), peekResult, toBytes_peek]
      have hfit : i * WORD + (load (V.get s) (addr + BitVec.ofNat 64 (i * WORD)) 8).length
          ≤ str.length := by
        rw [length_load]
        omega
      have htake := take_memcpy hfit
      have hdrop := drop_memcpy (k := len) hfit (by rw [length_load]; omega)
      rw [length_load] at htake
      rw [ih (by omega) (by rw [length_memcpy hfit]; exact hstr), hnext, htake, hdrop]
      -- the word just read and the cells still to read are one run
      have hsplit : len - i * WORD = 8 + (len - (i * WORD + 8)) := by omega
      rw [hsplit, load_add, BitVec.ofNat_add, ← BitVec.add_assoc, List.append_assoc (str.take _)]

/-- `read_pro_mem` returns 0, fills the buffer with the cells, and changes
nothing behind it. -/
theorem wp_readProMem (V : MemView K pid) {s : σ} (hok : V.ok s)
    (hstr : len ≤ str.length) {Q : Int × List Byte → σ → Prop} :
    wp K Free (readProMem pid addr str len) Q s ↔
      Q (0, load (V.get s) addr len ++ str.drop len) s := by
  rw [readProMem, wp_readLoop V (by omega) hok hstr]
  simp

end

/-! ## The memories of all processes

The kernel of this section does nothing but `PEEKTEXT` and `POKETEXT`, and they
always succeed. -/

/-- Every process with its memory. -/
abbrev Memories := Pid → Mem 64 Byte

def memHandler : Handler Resp Memories
  | .peektext pid addr, m => some (some (peek (m pid) addr), m)
  | .poketext pid addr data, m => some (true, Function.update m pid (poke (m pid) addr data))
  | .print _, m => some ((), m)
  | _, _ => none

def memView (pid : Pid) : MemView memHandler.kernel pid where
  ok := fun _ => True
  get := fun m => m pid
  set := fun mem m => Function.update m pid mem
  peek_iff := by
    intro s a x s' _
    simp only [Handler.kernel, memHandler, Option.some.injEq, Prod.mk.injEq]
    constructor <;> rintro ⟨rfl, rfl⟩ <;> exact ⟨rfl, rfl⟩
  poke_iff := by
    intro s a w x s' _
    simp only [Handler.kernel, memHandler, Option.some.injEq, Prod.mk.injEq]
    constructor <;> rintro ⟨rfl, rfl⟩ <;> exact ⟨rfl, rfl⟩
  ok_set := fun _ => trivial
  get_set := by simp
  set_set := by simp
  set_get := by simp
  print_quiet := by
    intro o s x s' h
    simp only [Handler.kernel, memHandler, Option.some.injEq, Prod.mk.injEq] at h
    exact h.2.symm

theorem ends_writeProMem {pid : Pid} {addr : Word} {str : List Byte} {m m' : Memories} {r : Int}
    (hlen : str.length < 2 ^ 31) :
    Ends memHandler.kernel (writeProMem pid addr str str.length) m r m' ↔
      r = 0 ∧ m' = Function.update m pid (store (m pid) addr str) := by
  apply ends_iff_of_wp
  intro Q
  rw [wp_writeProMem (memView pid) le_rfl hlen trivial, List.take_length]
  rfl

theorem ends_readProMem {pid : Pid} {addr : Word} {buf : List Byte} {len : Nat} {m m' : Memories}
    {r : Int × List Byte} (hbuf : len ≤ buf.length) :
    Ends memHandler.kernel (readProMem pid addr buf len) m r m' ↔
      r = (0, load (m pid) addr len ++ buf.drop len) ∧ m' = m := by
  apply ends_iff_of_wp
  intro Q
  exact wp_readProMem (memView pid) trivial hbuf

/-! ### Sequences of writes -/

/-- A write: its address and its bytes. -/
abbrev Write := Word × List Byte

/-- The byte at `x` after the writes: that of the last write that covers `x`. -/
def lastByte (ws : List Write) (m : Mem 64 Byte) (x : Word) : Byte :=
  (ws.reverse.findSome? fun w => w.2[(x - w.1).toNat]?).getD (m x)

theorem lastByte_cons (w : Write) (ws : List Write) (m : Mem 64 Byte) :
    lastByte (w :: ws) m = lastByte ws (store m w.1 w.2) := by
  funext x
  simp only [lastByte, List.reverse_cons, List.findSome?_append, store]
  cases ws.reverse.findSome? fun w => w.2[(x - w.1).toNat]? with
  | none => simp
  | some b => simp

/-- Issue one write after the other; the value is what the last one returned. -/
def writeAll (pid : Pid) : List Write → Int → Dbg Int :=
  runAll (fun w _ => writeProMem pid w.1 w.2 w.2.length)

theorem ends_writeAll {pid : Pid} {ws : List Write} (hws : ∀ w ∈ ws, w.2.length < 2 ^ 31)
    {m m' : Memories} {r : Int} :
    Ends memHandler.kernel (writeAll pid ws 0) m r m' ↔
      r = 0 ∧ m' = Function.update m pid (lastByte ws (m pid)) := by
  induction ws generalizing m with
  | nil =>
      have hnil : lastByte [] (m pid) = m pid := by
        funext x
        rfl
      rw [hnil, Function.update_eq_self]
      exact ends_ret
  | cons w ws ih =>
      have hw := hws w List.mem_cons_self
      have ih' := fun {m} => ih (fun w hw => hws w (List.mem_cons_of_mem _ hw)) (m := m)
      simp only [writeAll, runAll, ends_bind, ends_writeProMem hw]
      constructor
      · rintro ⟨_, _, ⟨rfl, rfl⟩, h⟩
        obtain ⟨rfl, rfl⟩ := ih'.mp h
        simp [lastByte_cons]
      · rintro ⟨rfl, rfl⟩
        refine ⟨0, _, ⟨rfl, rfl⟩, ih'.mpr ⟨rfl, ?_⟩⟩
        simp [lastByte_cons]

/-- `write_pro_mem` stores exactly its buffer, `read_pro_mem` fetches exactly
its range, and a read after any writes finds the last byte written to each
address. -/
theorem memory_is_byte_exact (pid : Pid) (m : Memories) :
    (∀ (addr : Word) (str : List Byte), str.length < 2 ^ 31 → ∀ r m',
      Ends memHandler.kernel (writeProMem pid addr str str.length) m r m' ↔
        r = 0 ∧ m' = Function.update m pid (store (m pid) addr str)) ∧
    (∀ (addr : Word) (buf : List Byte) (len : Nat), len ≤ buf.length → len < 2 ^ 31 → ∀ r m',
      Ends memHandler.kernel (readProMem pid addr buf len) m r m' ↔
        r = (0, load (m pid) addr len ++ buf.drop len) ∧ m' = m) ∧
    (∀ (ws : List Write) (addr : Word) (buf : List Byte) (len : Nat),
      (∀ w ∈ ws, w.2.length < 2 ^ 31) → len ≤ buf.length → len < 2 ^ 31 → ∀ r m',
      Ends memHandler.kernel (writeAll pid ws 0 >>= fun _ => readProMem pid addr buf len) m r m' ↔
        r = (0, load (lastByte ws (m pid)) addr len ++ buf.drop len) ∧
          m' = Function.update m pid (lastByte ws (m pid))) := by
  refine ⟨fun addr str hlen r m' => ends_writeProMem hlen,
    fun addr buf len hbuf _ r m' => ends_readProMem hbuf, ?_⟩
  intro ws addr buf len hws hbuf _ r m'
  simp only [ends_bind, ends_writeAll hws, ends_readProMem hbuf]
  constructor
  · rintro ⟨_, _, ⟨rfl, rfl⟩, rfl, rfl⟩
    simp
  · rintro ⟨rfl, rfl⟩
    exact ⟨0, _, ⟨rfl, rfl⟩, by simp, rfl⟩

/-- Eleven bytes at an unaligned address, then a read across both ends. -/
theorem memory_is_byte_exact_eleven :
    Ends memHandler.kernel (writeProMem 1 3 (List.replicate 11 7) 11) (fun _ _ => 0) 0
        (Function.update (fun _ _ => 0) 1 (store (fun _ => 0) 3 (List.replicate 11 7))) ∧
      Ends memHandler.kernel
        (writeAll 1 [(3, List.replicate 11 7)] 0 >>= fun _ => readProMem 1 2 (List.replicate 14 9) 13)
        (fun _ _ => 0) (0, [0, 7, 7, 7, 7, 7, 7, 7, 7, 7, 7, 7, 0, 9])
        (Function.update (fun _ _ => 0) 1 (lastByte [(3, List.replicate 11 7)] (fun _ => 0))) := by
  obtain ⟨hwrite, -, hboth⟩ := memory_is_byte_exact 1 (fun _ _ => 0)
  constructor
  · exact (hwrite 3 (List.replicate 11 7) (by decide) 0 _).mpr ⟨rfl, rfl⟩
  · exact (hboth [(3, List.replicate 11 7)] 2 (List.replicate 14 9) 13 (by simp) (by decide)
      (by decide) _ _).mpr ⟨by decide, rfl⟩

end TestDbug
