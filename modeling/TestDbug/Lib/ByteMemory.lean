/-
# `TestDbug.Lib.ByteMemory` — memory by bytes, access by words

A memory is a function from `n`-bit addresses, so address arithmetic wraps.
`load` and `store` move a run of cells; as long as the run is no longer than
the address space, no cell of it is met twice, and the algebra is that of
lists:

    store (store m a xs) (a + |xs|) ys = store m a (xs ++ ys)
    load m a (i + j) = load m a i ++ load m (a + i) j
    store m a (bs ++ rest of what is there) = store m a bs

A cell holds what the last run to come there has put in it (`stores_apply`).
`peek` and `poke` are the access by little-endian words of eight bytes.  The
last section is the overlay: `Patched S v m m'` says that `m'` is `m` with the
value `v` put on every address of `S`.
-/
import Mathlib.Data.Set.Basic
import Mathlib.Data.BitVec
import Mathlib.Tactic.Ring

namespace ByteMemory

abbrev Byte := BitVec 8

/-- Eight bytes. -/
abbrev Word := BitVec 64

/-! ## Little-endian numbers -/

/-- The `k` low bytes of a number, least significant first. -/
def bytesOfNat : Nat → Nat → List Byte
  | 0, _ => []
  | k + 1, x => BitVec.ofNat 8 x :: bytesOfNat k (x / 256)

/-- The number with the given bytes. -/
def natOfBytes : List Byte → Nat
  | [] => 0
  | b :: bs => b.toNat + 256 * natOfBytes bs

@[simp] theorem length_bytesOfNat (k x : Nat) : (bytesOfNat k x).length = k := by
  induction k generalizing x with
  | zero => rfl
  | succ k ih => simp only [bytesOfNat, List.length_cons, ih]

theorem natOfBytes_lt (bs : List Byte) : natOfBytes bs < 256 ^ bs.length := by
  induction bs with
  | nil => simp [natOfBytes]
  | cons b bs ih =>
      have hb : b.toNat < 256 := b.isLt
      simp only [natOfBytes, List.length_cons, Nat.pow_succ]
      omega

theorem bytesOfNat_natOfBytes (bs : List Byte) :
    bytesOfNat bs.length (natOfBytes bs) = bs := by
  induction bs with
  | nil => rfl
  | cons b bs ih =>
      have hb : b.toNat < 256 := b.isLt
      simp only [List.length_cons, bytesOfNat, natOfBytes]
      congr 1
      · apply BitVec.eq_of_toNat_eq
        simp only [BitVec.toNat_ofNat]
        omega
      · rw [Nat.add_mul_div_left _ _ (by decide), Nat.div_eq_of_lt hb, Nat.zero_add, ih]

/-! ## Words -/

/-- The eight bytes of a word, as they lie in memory. -/
def toBytes (w : Word) : List Byte := bytesOfNat 8 w.toNat

/-- The word that lies in memory as these bytes. -/
def ofBytes (bs : List Byte) : Word := BitVec.ofNat 64 (natOfBytes bs)

@[simp] theorem length_toBytes (w : Word) : (toBytes w).length = 8 := by simp [toBytes]

theorem toBytes_ofBytes {bs : List Byte} (h : bs.length = 8) : toBytes (ofBytes bs) = bs := by
  have hlt := natOfBytes_lt bs
  rw [h] at hlt
  have hb := bytesOfNat_natOfBytes bs
  rw [h] at hb
  rw [toBytes, ofBytes, BitVec.toNat_ofNat, Nat.mod_eq_of_lt (by omega), hb]

/-! ## Runs of cells -/

/-- A memory with `n`-bit addresses and cells in `β`. -/
abbrev Mem (n : Nat) (β : Type) := BitVec n → β

variable {n : Nat} {β : Type}

theorem add_one_add_ofNat (a : BitVec n) (i : Nat) :
    a + 1 + BitVec.ofNat n i = a + BitVec.ofNat n (i + 1) := by
  rw [BitVec.ofNat_add, BitVec.add_assoc, BitVec.add_comm (BitVec.ofNat n i)]
  rfl

theorem toNat_add_ofNat_sub (a : BitVec n) {i : Nat} (h : i < 2 ^ n) :
    (a + BitVec.ofNat n i - a).toNat = i := by
  rw [BitVec.add_comm, BitVec.add_sub_cancel, BitVec.toNat_ofNat, Nat.mod_eq_of_lt h]

theorem toNat_sub_ne_zero {a x : BitVec n} (h : x ≠ a) : (x - a).toNat ≠ 0 := by
  intro h0
  have hz : x - a = 0 := BitVec.eq_of_toNat_eq (by simpa using h0)
  exact h (by rw [← BitVec.sub_add_cancel x a, hz]; simp)

/-- The offset from `a + i`, from the offset from `a`. -/
theorem toNat_sub_add_ofNat (a x : BitVec n) {i : Nat} (h : i < 2 ^ n) :
    (x - (a + BitVec.ofNat n i)).toNat = (2 ^ n - i + (x - a).toNat) % 2 ^ n := by
  rw [← BitVec.sub_sub, BitVec.toNat_sub, BitVec.toNat_ofNat, Nat.mod_eq_of_lt h]

/-- The `k` cells from `a` on. -/
def load (m : Mem n β) (a : BitVec n) : Nat → List β
  | 0 => []
  | k + 1 => m a :: load m (a + 1) k

/-- Put the cells `bs` from `a` on. -/
def store (m : Mem n β) (a : BitVec n) (bs : List β) : Mem n β :=
  fun x => (bs[(x - a).toNat]?).getD (m x)

@[simp] theorem length_load (m : Mem n β) (a : BitVec n) (k : Nat) : (load m a k).length = k := by
  induction k generalizing a with
  | zero => rfl
  | succ k ih => simp only [load, List.length_cons, ih]

theorem getElem?_load (m : Mem n β) (a : BitVec n) (k i : Nat) :
    (load m a k)[i]? = if i < k then some (m (a + BitVec.ofNat n i)) else none := by
  induction k generalizing a i with
  | zero => simp [load]
  | succ k ih =>
      cases i with
      | zero => simp [load]
      | succ i =>
          simp only [load, List.getElem?_cons_succ, ih, add_one_add_ofNat,
            Nat.add_lt_add_iff_right]

/-- A run is known by its cells. -/
theorem load_eq_iff {m : Mem n β} {a : BitVec n} {bs : List β} :
    load m a bs.length = bs ↔ ∀ i < bs.length, bs[i]? = some (m (a + BitVec.ofNat n i)) := by
  constructor
  · intro h i hi
    rw [← h, getElem?_load, if_pos hi]
  · intro h
    apply List.ext_getElem?
    intro i
    rw [getElem?_load]
    split
    · rename_i hi
      exact (h i hi).symm
    · rename_i hi
      exact (List.getElem?_eq_none (Nat.le_of_not_lt hi)).symm

theorem load_add (m : Mem n β) (a : BitVec n) (i j : Nat) :
    load m a (i + j) = load m a i ++ load m (a + BitVec.ofNat n i) j := by
  induction i generalizing a with
  | zero => simp [load]
  | succ i ih =>
      rw [Nat.succ_add]
      simp only [load, ih, add_one_add_ofNat, List.cons_append]

theorem load_take (m : Mem n β) (a : BitVec n) {i k : Nat} (h : i ≤ k) :
    (load m a k).take i = load m a i := by
  obtain ⟨j, rfl⟩ := Nat.exists_eq_add_of_le h
  rw [load_add, List.take_append_of_le_length (by simp), List.take_of_length_le (by simp)]

theorem store_nil (m : Mem n β) (a : BitVec n) : store m a [] = m := by
  funext x
  simp [store]

/-- One cell. -/
theorem store_singleton (m : Mem n β) (a : BitVec n) (b : β) (x : BitVec n) :
    store m a [b] x = if x = a then b else m x := by
  by_cases hx : x = a
  · subst hx
    simp [store]
  · have hne := toNat_sub_ne_zero hx
    have hlen : [b].length ≤ (x - a).toNat := by
      rw [List.length_singleton]
      omega
    rw [if_neg hx, store, List.getElem?_eq_none hlen]
    rfl

/-- The cells off the run stay as they were. -/
theorem store_frame (m : Mem n β) (a : BitVec n) (bs : List β) {x : BitVec n}
    (h : bs.length ≤ (x - a).toNat) : store m a bs x = m x := by
  rw [store, List.getElem?_eq_none h]
  rfl

/-- Two runs in a row are one run, as long as they do not wrap around. -/
theorem store_append (m : Mem n β) (a : BitVec n) (xs ys : List β)
    (h : xs.length + ys.length ≤ 2 ^ n) :
    store (store m a xs) (a + BitVec.ofNat n xs.length) ys = store m a (xs ++ ys) := by
  funext x
  have hx := (x - a).isLt
  by_cases hys : ys = []
  · rw [hys, List.append_nil, store_nil]
  have hpos : 0 < ys.length := List.length_pos_iff.mpr hys
  have hoff := toNat_sub_add_ofNat a x (i := xs.length) (by omega)
  simp only [store]
  by_cases hlt : (x - a).toNat < xs.length
  · -- inside the first run: the second one is too short to come round to `x`
    rw [Nat.mod_eq_of_lt (by omega)] at hoff
    rw [List.getElem?_eq_none (by omega), List.getElem?_append_left hlt]
    rfl
  · have hsum : 2 ^ n - xs.length + (x - a).toNat = ((x - a).toNat - xs.length) + 2 ^ n := by
      omega
    rw [hsum, Nat.add_mod_right, Nat.mod_eq_of_lt (by omega)] at hoff
    rw [hoff, List.getElem?_append_right (by omega),
      List.getElem?_eq_none (by omega : xs.length ≤ (x - a).toNat)]
    rfl

/-- Storing back what is there changes nothing. -/
theorem store_load (m : Mem n β) (a : BitVec n) (k : Nat) : store m a (load m a k) = m := by
  funext x
  simp only [store, getElem?_load, BitVec.ofNat_toNat, BitVec.setWidth_eq]
  split
  · have : a + (x - a) = x := by rw [BitVec.add_comm, BitVec.sub_add_cancel]
    simp [this]
  · rfl

/-- What was stored is there. -/
theorem load_store (m : Mem n β) (a : BitVec n) (bs : List β) (h : bs.length ≤ 2 ^ n) :
    load (store m a bs) a bs.length = bs := by
  apply List.ext_getElem?
  intro i
  rw [getElem?_load]
  split
  · rename_i hi
    rw [store, toNat_add_ofNat_sub a (by omega), List.getElem?_eq_getElem hi]
    rfl
  · rename_i hi
    exact (List.getElem?_eq_none (Nat.le_of_not_lt hi)).symm

/-- A run apart from it is as it was. -/
theorem load_store_off (m : Mem n β) (a b : BitVec n) (bs : List β) {k : Nat}
    (hb : bs.length ≤ (b - a).toNat) (hk : (b - a).toNat + k ≤ 2 ^ n) :
    load (store m a bs) b k = load m b k := by
  apply List.ext_getElem?
  intro i
  simp only [getElem?_load]
  split
  · rename_i hi
    have hoff : b + BitVec.ofNat n i = a + BitVec.ofNat n ((b - a).toNat + i) := by
      rw [BitVec.ofNat_add, BitVec.ofNat_toNat, BitVec.setWidth_eq, ← BitVec.add_assoc,
        BitVec.add_comm a, BitVec.sub_add_cancel]
    rw [hoff, store_frame m a bs (by rw [toNat_add_ofNat_sub a (by omega)]; omega)]
  · rfl

/-- Behind it there is what was there before. -/
theorem load_store_behind (m : Mem n β) (a : BitVec n) (bs : List β) {j : Nat}
    (h : bs.length + j ≤ 2 ^ n) :
    load (store m a bs) (a + BitVec.ofNat n bs.length) j =
      load m (a + BitVec.ofNat n bs.length) j := by
  cases j with
  | zero => rfl
  | succ j =>
      have hoff := toNat_add_ofNat_sub a (by omega : bs.length < 2 ^ n)
      exact load_store_off m a _ bs (by omega) (by omega)

theorem load_store_add (m : Mem n β) (a : BitVec n) (bs : List β) {j : Nat}
    (h : bs.length + j ≤ 2 ^ n) :
    load (store m a bs) a (bs.length + j) = bs ++ load m (a + BitVec.ofNat n bs.length) j := by
  rw [load_add, load_store m a bs (by omega), load_store_behind m a bs h]

/-- As far as it goes, and then what was there. -/
theorem load_store_upto (m : Mem n β) (a : BitVec n) (bs : List β) {k : Nat} (h : k ≤ 2 ^ n)
    (hbs : bs.length ≤ 2 ^ n) :
    load (store m a bs) a k =
      bs.take k ++ load m (a + BitVec.ofNat n bs.length) (k - bs.length) := by
  rcases Nat.le_total k bs.length with hk | hk
  · rw [← load_take _ a hk, load_store m a bs hbs, Nat.sub_eq_zero_of_le hk, load, List.append_nil]
  · obtain ⟨j, rfl⟩ := Nat.exists_eq_add_of_le hk
    rw [load_store_add m a bs h, List.take_of_length_le hk, Nat.add_sub_cancel_left]

/-- Completing a run with what is already there stores the run alone. -/
theorem store_append_load (m : Mem n β) (a : BitVec n) (bs : List β) {k : Nat}
    (hk : bs.length ≤ k) (h : k ≤ 2 ^ n) :
    store m a (bs ++ (load m a k).drop bs.length) = store m a bs := by
  obtain ⟨j, rfl⟩ := Nat.exists_eq_add_of_le hk
  have hdrop : (load m a (bs.length + j)).drop bs.length
      = load m (a + BitVec.ofNat n bs.length) j := by
    rw [load_add, List.drop_append_of_le_length (by simp), List.drop_of_length_le (by simp),
      List.nil_append]
  rw [hdrop, ← load_store_behind m a bs h, ← store_append m a bs _ (by simpa using h), store_load]

/-! ## Several runs -/

/-- Put every run where it goes, one behind the other. -/
def stores (m : Mem n β) : List (BitVec n × List β) → Mem n β
  | [] => m
  | r :: rs => stores (store m r.1 r.2) rs

/-- What the last of them that comes to a cell puts there. -/
def lastStored (rs : List (BitVec n × List β)) (x : BitVec n) : Option β :=
  rs.reverse.findSome? fun r => r.2[(x - r.1).toNat]?

theorem stores_append (m : Mem n β) (rs rs' : List (BitVec n × List β)) :
    stores m (rs ++ rs') = stores (stores m rs) rs' := by
  induction rs generalizing m with
  | nil => rfl
  | cons r rs ih => exact ih _

/-- A cell holds what was put there last. -/
theorem stores_apply (m : Mem n β) (rs : List (BitVec n × List β)) (x : BitVec n) :
    stores m rs x = (lastStored rs x).getD (m x) := by
  induction rs generalizing m with
  | nil => rfl
  | cons r rs ih =>
      rw [stores, ih, lastStored, lastStored, List.reverse_cons, List.findSome?_append, store]
      cases rs.reverse.findSome? fun r => r.2[(x - r.1).toNat]? with
      | some b => rfl
      | none =>
          rw [List.findSome?_singleton, Option.none_or]
          rfl

/-! ## Access by words -/

/-- The word at an address. -/
def peek (m : Mem 64 Byte) (a : Word) : Word := ofBytes (load m a 8)

/-- Put a word at an address. -/
def poke (m : Mem 64 Byte) (a w : Word) : Mem 64 Byte := store m a (toBytes w)

theorem toBytes_peek (m : Mem 64 Byte) (a : Word) : toBytes (peek m a) = load m a 8 :=
  toBytes_ofBytes (by simp)

/-! ## Overlays -/

/-- `m'` is `m` with `v` put on every address of `S`. -/
def Patched (S : Set (BitVec n)) (v : β) (m m' : Mem n β) : Prop :=
  (∀ x ∈ S, m' x = v) ∧ ∀ x ∉ S, m' x = m x

theorem patched_empty {v : β} {m m' : Mem n β} : Patched ∅ v m m' ↔ m' = m := by
  constructor
  · rintro ⟨-, h⟩
    funext x
    exact h x (Set.notMem_empty x)
  · rintro rfl
    exact ⟨fun x hx => absurd hx (Set.notMem_empty x), fun _ _ => rfl⟩

/-- Putting the true value back takes an address out of the overlay. -/
theorem Patched.restore {S : Set (BitVec n)} {v : β} {m m' : Mem n β} (h : Patched S v m m')
    (a : BitVec n) : Patched (S \ {a}) v m (store m' a [m a]) := by
  constructor
  · rintro x ⟨hx, hne⟩
    rw [store_singleton, if_neg (by simpa using hne)]
    exact h.1 x hx
  · intro x hx
    rw [store_singleton]
    split
    · rename_i heq
      rw [heq]
    · rename_i hne
      exact h.2 x fun hS => hx ⟨hS, hne⟩

/-- Putting `v` at an address takes it into the overlay. -/
theorem Patched.plant {S : Set (BitVec n)} {v : β} {m m' : Mem n β} (h : Patched S v m m')
    (a : BitVec n) : Patched (insert a S) v m (store m' a [v]) := by
  constructor
  · intro x hx
    rw [store_singleton]
    split
    · rfl
    · rename_i hne
      exact h.1 x (hx.resolve_left hne)
  · intro x hx
    rw [store_singleton, if_neg fun heq => hx (Or.inl heq)]
    exact h.2 x fun hS => hx (Or.inr hS)

/-- Taken out and put back, the overlay is the one it was. -/
theorem Patched.replant {S : Set (BitVec n)} {v : β} {m m' : Mem n β} {a : BitVec n}
    (ha : a ∈ S) (h : Patched (S \ {a}) v m m') : Patched S v m (store m' a [v]) := by
  have := h.plant a
  rwa [Set.insert_sdiff_singleton, Set.insert_eq_of_mem ha] at this

end ByteMemory
