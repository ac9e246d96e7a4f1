import Mathlib.Data.Set.Basic
import Mathlib.Data.Nat.Basic
import Mathlib.Tactic.Ring
import Mathlib.Tactic.Common

/-!
# Byte memory

A memory is a function from addresses to bytes. `load` and `store` read and write numbers of `n`
bytes, lowest byte first; `fill` and `copy` are `memset` and `memcpy`. Each write comes with two
facts: what a read of the written range gives, and that a read of any other range is unchanged.

`Frame P m m'` says that going from `m` to `m'` changes bytes in `P` only. Writes within `P` extend
a frame, and what is read outside of `P` is the same before and after.
-/

namespace Bytes

abbrev Mem := ℕ → UInt8

/-- The number in the `n` bytes from `a` on. -/
def load (m : Mem) (a : ℕ) : ℕ → ℕ
  | 0 => 0
  | n + 1 => (m a).toNat + 256 * load m (a + 1) n

/-- Put the lowest `n` bytes of `v` from `a` on. -/
def store (m : Mem) (a n v : ℕ) : Mem := fun b =>
  if a ≤ b ∧ b < a + n then UInt8.ofNat (v / 256 ^ (b - a)) else m b

/-- `n` copies of `x` from `a` on. -/
def fill (m : Mem) (a n : ℕ) (x : UInt8) : Mem := fun b =>
  if a ≤ b ∧ b < a + n then x else m b

/-- The `n` bytes of `src` from `s` on, put from `a` on. -/
def copy (m : Mem) (a : ℕ) (src : Mem) (s n : ℕ) : Mem := fun b =>
  if a ≤ b ∧ b < a + n then src (s + (b - a)) else m b

/-- The bytes of a list, put from `a` on. -/
def write (m : Mem) (a : ℕ) (bytes : List UInt8) : Mem := fun b =>
  if a ≤ b then bytes.getD (b - a) (m b) else m b

/-- The `n` bytes from `a` on. -/
def read (m : Mem) (a n : ℕ) : List UInt8 := (List.range n).map fun i => m (a + i)

/-- Two memories hold the same bytes from `a` to `b`, `b` excluded. -/
def Agree (m m' : Mem) (a b : ℕ) : Prop := ∀ i, a ≤ i → i < b → m i = m' i

variable {m m' m'' : Mem} {a b k n s v : ℕ} {x : UInt8}

/-! ## Agreement -/

theorem Agree.refl (m : Mem) (a b : ℕ) : Agree m m a b := fun _ _ _ => rfl

theorem Agree.symm (h : Agree m m' a b) : Agree m' m a b := fun i ha hb => (h i ha hb).symm

theorem Agree.trans (h : Agree m m' a b) (h' : Agree m' m'' a b) : Agree m m'' a b :=
  fun i ha hb => (h i ha hb).trans (h' i ha hb)

theorem Agree.mono {c d : ℕ} (h : Agree m m' a b) (hac : a ≤ c) (hdb : d ≤ b) :
    Agree m m' c d := fun i hc hd => h i (by omega) (by omega)

theorem agree_store (h : b ≤ a ∨ a + n ≤ s) : Agree (store m a n v) m s b := by
  intro i hs hb
  unfold store
  rw [if_neg (by omega)]

theorem agree_fill (h : b ≤ a ∨ a + n ≤ s) : Agree (fill m a n x) m s b := by
  intro i hs hb
  unfold fill
  rw [if_neg (by omega)]

theorem agree_write {bytes : List UInt8} (h : b ≤ a ∨ a + bytes.length ≤ k) :
    Agree (write m a bytes) m k b := by
  intro i hk hb
  unfold write
  split
  · rw [List.getD_eq_getElem?_getD, List.getElem?_eq_none (by omega), Option.getD_none]
  · rfl

/-! ## Loads -/

theorem load_lt (m : Mem) (a n : ℕ) : load m a n < 256 ^ n := by
  induction n generalizing a with
  | zero => exact Nat.one_pos
  | succ n ih =>
    have hbyte : (m a).toNat < 256 := (m a).toNat_lt
    have hrest := ih (a + 1)
    rw [load, pow_succ]
    omega

@[simp] theorem load_one (m : Mem) (a : ℕ) : load m a 1 = (m a).toNat := rfl

theorem load_congr (h : Agree m m' a (a + n)) : load m a n = load m' a n := by
  induction n generalizing a with
  | zero => rfl
  | succ n ih =>
    rw [load, load, h a le_rfl (by omega), ih (h.mono (by omega) (by omega))]

/-- The bytes of a number are determined by it. -/
theorem agree_of_load (h : load m a n = load m' a n) : Agree m m' a (a + n) := by
  induction n generalizing a with
  | zero => exact fun i ha hb => absurd hb (by omega)
  | succ n ih =>
    rw [load, load] at h
    have hbyte : (m a).toNat < 256 := (m a).toNat_lt
    have hbyte' : (m' a).toNat < 256 := (m' a).toNat_lt
    have hfirst : m a = m' a := UInt8.toNat_inj.1 (by omega)
    have hrest : load m (a + 1) n = load m' (a + 1) n := by omega
    intro i ha hb
    rcases Nat.eq_or_lt_of_le ha with rfl | hlt
    · exact hfirst
    · exact ih hrest i (by omega) (by omega)

theorem load_store_of_disjoint (h : b + k ≤ a ∨ a + n ≤ b) :
    load (store m a n v) b k = load m b k := load_congr (agree_store h)

theorem load_fill_of_disjoint (h : b + k ≤ a ∨ a + n ≤ b) :
    load (fill m a n x) b k = load m b k := load_congr (agree_fill h)

/-- A store without its first byte. -/
theorem store_succ_agree (m : Mem) (a n v : ℕ) :
    Agree (store m a (n + 1) v) (store m (a + 1) n (v / 256)) (a + 1) (a + 1 + n) := by
  intro i ha hb
  unfold store
  rw [if_pos (by omega), if_pos (by omega), Nat.div_div_eq_div_mul]
  congr 2
  rw [← pow_succ']
  congr 1
  omega

@[simp] theorem load_store (m : Mem) (a n v : ℕ) :
    load (store m a n v) a n = v % 256 ^ n := by
  induction n generalizing a v m with
  | zero => rw [pow_zero, Nat.mod_one]; rfl
  | succ n ih =>
    have hfirst : (store m a (n + 1) v a).toNat = v % 256 := by
      unfold store
      rw [if_pos (by omega)]
      simp
    have hrest : load (store m a (n + 1) v) (a + 1) n = v / 256 % 256 ^ n := by
      rw [load_congr (store_succ_agree m a n v), ih]
    rw [load, hfirst, hrest, pow_succ', Nat.mod_mul]

theorem load_fill_zero (h₁ : a ≤ b) (h₂ : b + k ≤ a + n) : load (fill m a n 0) b k = 0 := by
  induction k generalizing b with
  | zero => rfl
  | succ k ih =>
    have hfirst : fill m a n 0 b = 0 := by
      unfold fill
      rw [if_pos (by omega)]
    rw [load, hfirst, ih (by omega) (by omega)]
    rfl

theorem load_write_of_disjoint {bytes : List UInt8}
    (h : b + k ≤ a ∨ a + bytes.length ≤ b) : load (write m a bytes) b k = load m b k :=
  load_congr (agree_write h)

theorem read_congr (h : Agree m m' a (a + n)) : read m a n = read m' a n := by
  unfold read
  refine List.map_congr_left fun i hi => h _ (by omega) ?_
  have hlt := List.mem_range.1 hi
  omega

theorem length_read (m : Mem) (a n : ℕ) : (read m a n).length = n := by simp [read]

theorem read_write (m : Mem) (a : ℕ) (bytes : List UInt8) (c : List UInt8) :
    read (write m a (bytes ++ c)) a bytes.length = bytes := by
  apply List.ext_getElem (by simp [read])
  intro i h₁ h₂
  simp [read, write, List.getElem?_append_left h₂, List.getElem?_eq_getElem h₂]

/-! ## Frames -/

/-- Outside of `P`, `m'` holds the bytes of `m`. -/
def Frame (P : Set ℕ) (m m' : Mem) : Prop := ∀ i, i ∉ P → m' i = m i

variable {P Q : Set ℕ}

namespace Frame

theorem refl (P : Set ℕ) (m : Mem) : Frame P m m := fun _ _ => rfl

theorem trans (h : Frame P m m') (h' : Frame P m' m'') : Frame P m m'' :=
  fun i hi => (h' i hi).trans (h i hi)

theorem mono (h : Frame P m m') (hPQ : P ⊆ Q) : Frame Q m m' :=
  fun i hi => h i fun hP => hi (hPQ hP)

theorem store (h : Frame P m m') (hP : ∀ i, a ≤ i → i < a + n → i ∈ P) :
    Frame P m (store m' a n v) := by
  intro i hi
  unfold Bytes.store
  rw [if_neg fun hin => hi (hP i hin.1 hin.2)]
  exact h i hi

theorem write {bytes : List UInt8} (h : Frame P m m')
    (hP : ∀ i, a ≤ i → i < a + bytes.length → i ∈ P) : Frame P m (write m' a bytes) := by
  intro i hi
  unfold Bytes.write
  split
  · rename_i ha
    have hlen : ¬ i < a + bytes.length := fun hlt => hi (hP i ha hlt)
    rw [List.getD_eq_getElem?_getD, List.getElem?_eq_none (by omega), Option.getD_none]
    exact h i hi
  · exact h i hi

theorem update (h : Frame P m m') (ha : a ∈ P) : Frame P m (Function.update m' a x) := by
  intro i hi
  have hne : i ≠ a := by
    intro heq
    rw [heq] at hi
    exact hi ha
  rw [Function.update_of_ne hne]
  exact h i hi

theorem agree (h : Frame P m m') (hP : ∀ i, a ≤ i → i < b → i ∉ P) : Agree m m' a b :=
  fun i ha hb => (h i (hP i ha hb)).symm

/-- A load outside of `P`. -/
theorem load_eq (h : Frame P m m') (hP : ∀ i, a ≤ i → i < a + n → i ∉ P) :
    load m' a n = load m a n := (load_congr (h.agree hP)).symm

end Frame

end Bytes
