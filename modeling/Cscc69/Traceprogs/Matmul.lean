import Cscc69.Lib.Loops
import Mathlib.Tactic.Ring

/-!
# matmul.c and blocked.c

Two of the programs that are traced multiply matrices: `matmul.c` by the standard algorithm, and
`blocked.c` block by block. Nothing is known of the arithmetic of the entries, since floating-point
sums may not be reordered; and the arrays that `malloc` returns hold anything.

Orders and indexes are of type `int`. An overflow is undefined (`cInt`), and so is an access out of
bounds: the result is `none` then. With an order of at most 46340, whose square is less than 2^31,
and a positive order of the blocks that divides it, neither happens. A negative order of the blocks
passes the test of `main` too, and nothing is computed (`blockedProduct_neg`).

A matrix is `n * n` records. In blocked storage its blocks are stored one after the other, each row
by row, and `rowMajor n b t` is where the record at `t` stands in row-major storage. The two
conversions walk through all records, one pointer in each storage (`copyBlocks_eq`), so that they
are inverse to each other (`fromBlocked_spec`, `toBlocked_fromBlocked`).

**Theorem (`blockedProduct_eq`).** The product that `blocked.c` prints is the one of `matmul.c`: in
every entry the same sum is computed, in the same order. All accesses are in bounds.
-/

namespace Cscc69.Traceprogs

open Loops

variable {R σ : Type} {n b N : ℕ}

/-! ## The type `int` -/

/-- The result of an operation on values of type `int`. -/
def cInt (x : ℤ) : Option ℤ := if -2 ^ 31 ≤ x ∧ x < 2 ^ 31 then some x else none

/-- A quotient, which 0 does not have. -/
def cDiv (x y : ℤ) : Option ℤ := if y = 0 then none else cInt (x.tdiv y)

/-- `for (i = 0; i < n; i++)` -/
def forInt (n : ℤ) (body : ℤ → σ → Option σ) : σ → Option σ := upTo n.toNat fun i => body i

/-- The record at a place of an array. -/
def recordAt (A : Vector R N) (i : ℤ) : Option R := if 0 ≤ i then A[i.toNat]? else none

/-- Change the record at a place of an array. -/
def update (A : Vector R N) (i : ℤ) (f : R → R) : Option (Vector R N) :=
  if 0 ≤ i then modify A i.toNat f else none

/-! ## matmul.c -/

/-- `i*n + j` -/
def entryAt (n i j : ℤ) : Option ℤ := do cInt ((← cInt (i * n)) + j)

section Arithmetic
variable [Zero R] [Add R] [Mul R]

def matMult (n : ℤ) (A B C : Vector R N) : Option (Vector R N) :=
  forInt n (fun i => forInt n fun j C => do
    let C ← update C (← entryAt n i j) fun _ => 0
    forInt n (fun k C => do
      let x ← recordAt A (← entryAt n i k)
      let y ← recordAt B (← entryAt n k j)
      update C (← entryAt n i j) (· + x * y)) C) C

end Arithmetic

/-! ## blocked.c -/

/-- `i_bar*b*n + j_bar*b` -/
def corner (n b i_bar j_bar : ℤ) : Option ℤ := do
  let row ← cInt ((← cInt (i_bar * b)) * n)
  cInt (row + (← cInt (j_bar * b)))

/-- The four loops of `To_blocked` and of `From_blocked`. One pointer goes through the blocks, `p`,
and the other one through the rows, `q`. -/
def copyBlocks (n b : ℤ) (copy : ℤ → ℤ → Vector R N → Option (Vector R N)) (T : Vector R N) :
    Option (Vector R N) := do
  let n_bar ← cDiv n b
  (forInt n_bar (fun i_bar => forInt n_bar fun j_bar (T, p) => do
    let q ← corner n b i_bar j_bar
    (forInt b (fun _ (T, p, q) =>
      (forInt b (fun _ (T, p, q) => (copy p q T).map (·, p + 1, q + 1)) (T, p, q)).map
        fun (T, p, q) => (T, p, q + (n - b))) (T, p, q)).map
      fun (T, p, _) => (T, p)) (T, (0 : ℤ))).map (·.1)

/-- `T` is what `malloc` returns for the temporary array, `none` if it is a null pointer. The array
is copied to `A` as a whole. -/
def toBlocked (n b : ℤ) (T : Option (Vector R N)) (A : Vector R N) : Option (Vector R N) := do
  let _size ← cInt (n * n)
  copyBlocks n b (fun t_p a_p T => do
    let x ← recordAt A a_p
    update T t_p fun _ => x) (← T)

def fromBlocked (n b : ℤ) (T : Option (Vector R N)) (C : Vector R N) : Option (Vector R N) := do
  let _size ← cInt (n * n)
  copyBlocks n b (fun c_p t_p T => do
    let x ← recordAt C c_p
    update T t_p fun _ => x) (← T)

/-- `(i_bar*n_bar + j_bar)*b_sqr` -/
def blockAt (n_bar b_sqr i_bar j_bar : ℤ) : Option ℤ := do
  let block ← cInt ((← cInt (i_bar * n_bar)) + j_bar)
  cInt (block * b_sqr)

section Arithmetic
variable [Zero R] [Add R] [Mul R]

/-- The second result is `C_p`. -/
def zeroC (n_bar b_sqr i_bar j_bar : ℤ) (C : Vector R N) : Option (Vector R N × ℤ) := do
  let C_p ← blockAt n_bar b_sqr i_bar j_bar
  (forInt b_sqr (fun t C => update C (C_p + t) fun _ => 0) C).map (·, C_p)

def multAdd (n_bar b b_sqr : ℤ) (A B : Vector R N) (C_p i_bar j_bar k_bar : ℤ) (C : Vector R N) :
    Option (Vector R N) := do
  let c_p := C_p
  let a_p ← blockAt n_bar b_sqr i_bar k_bar
  let b_p ← blockAt n_bar b_sqr k_bar j_bar
  forInt b (fun i => forInt b fun j => forInt b fun k C => do
    let x ← recordAt A (a_p + (← cInt (i * b)) + k)
    let y ← recordAt B (b_p + (← cInt (k * b)) + j)
    update C (c_p + (← cInt (i * b)) + j) (· + x * y)) C

def blockedMatMult (n_bar b b_sqr : ℤ) (A B C : Vector R N) : Option (Vector R N) :=
  forInt n_bar (fun i_bar => forInt n_bar fun j_bar C => do
    let (C, C_p) ← zeroC n_bar b_sqr i_bar j_bar C
    forInt n_bar (fun k_bar => multAdd n_bar b b_sqr A B C_p i_bar j_bar k_bar) C) C

/-- `main` with `DEBUG` set, up to `Print_matrix`. The arrays are what `malloc` returns, with the
matrices of `Get_matrices` in `A` and `B`. -/
def blockedProduct (n b : ℤ) (A B C T₁ T₂ T₃ : Option (Vector R N)) : Option (Vector R N) :=
  -- `n % b` is undefined for 0; otherwise it is tested, and `Usage` ends the program
  if b = 0 ∨ n.tmod b ≠ 0 then none
  else do
    let _size ← cInt (n * n)
    let A ← A
    let B ← B
    let C ← C
    let n_bar ← cDiv n b
    let b_sqr ← cInt (b * b)
    let A ← toBlocked n b T₁ A
    let B ← toBlocked n b T₂ B
    let C ← blockedMatMult n_bar b b_sqr A B C
    fromBlocked n b T₃ C

end Arithmetic

/-! ## In the range of `int` -/

theorem cInt_cast {m : ℕ} (h : m < 2 ^ 31) : cInt m = some (m : ℤ) :=
  if_pos ⟨by omega, by omega⟩

theorem cInt_mul {l m : ℕ} (h : l * m < 2 ^ 31) : cInt ((l : ℤ) * m) = some ((l * m : ℕ) : ℤ) := by
  rw [← Nat.cast_mul]
  exact cInt_cast h

theorem cInt_add {l m : ℕ} (h : l + m < 2 ^ 31) : cInt ((l : ℤ) + m) = some ((l + m : ℕ) : ℤ) := by
  rw [← Nat.cast_add]
  exact cInt_cast h

theorem cDiv_cast (hb : 0 < b) (hn : n ≤ 46340) : cDiv n b = some ((n / b : ℕ) : ℤ) := by
  have hle := Nat.div_le_self n b
  rw [cDiv, if_neg (by omega), show (n : ℤ).tdiv b = (n / b : ℕ) from Int.ofNat_tdiv n b]
  exact cInt_cast (by omega)

theorem recordAt_cast (A : Vector R N) (i : ℕ) : recordAt A i = A[i]? :=
  if_pos (Int.natCast_nonneg i)

theorem update_cast (A : Vector R N) (i : ℕ) (f : R → R) : update A i f = modify A i f :=
  if_pos (Int.natCast_nonneg i)

theorem forInt_cast (n : ℕ) (body : ℤ → σ → Option σ) (s : σ) :
    forInt n body s = upTo n (fun i => body i) s := rfl

theorem forInt_nonpos {m : ℤ} (h : m ≤ 0) (body : ℤ → σ → Option σ) (s : σ) :
    forInt m body s = some s := by
  rw [forInt, Int.toNat_of_nonpos h]
  rfl

/-- The square of an order of at most 46340. -/
theorem sq_lt (hn : n ≤ 46340) : n * n < 2 ^ 31 :=
  (Nat.mul_le_mul hn hn).trans_lt (by decide)

theorem entryAt_cast {i j : ℕ} (hn : n ≤ 46340) (hi : i < n) (hj : j < n) :
    entryAt n i j = some ((i * n + j : ℕ) : ℤ) := by
  have hsq := sq_lt hn
  have hlt : i * n + j < n * n := cell_lt hi hj
  rw [entryAt, cInt_mul (by omega), Option.bind_eq_bind, Option.bind_some]
  exact cInt_add (by omega)

/-! ## The two storages -/

/-- The place in row-major storage of record `t` of blocked storage. -/
def rowMajor (n b t : ℕ) : ℕ :=
  (t / b / b / (n / b) * b + t / b % b) * n + (t / b / b % (n / b) * b + t % b)

/-- And the other way. -/
def blockIndex (n b r c : ℕ) : ℕ :=
  ((r / b * (n / b) + c / b) * b + r % b) * b + c % b

theorem rowMajor_cell {i_bar j_bar i j : ℕ} (hj_bar : j_bar < n / b) (hi : i < b) (hj : j < b) :
    rowMajor n b (((i_bar * (n / b) + j_bar) * b + i) * b + j) =
      (i_bar * b + i) * n + (j_bar * b + j) := by
  unfold rowMajor
  rw [cell_div hj, cell_mod hj, cell_div hi, cell_mod hi, cell_div hj_bar, cell_mod hj_bar]

theorem blockIndex_cell {i_bar j_bar i j : ℕ} (hi : i < b) (hj : j < b) :
    blockIndex n b (i_bar * b + i) (j_bar * b + j) =
      ((i_bar * (n / b) + j_bar) * b + i) * b + j := by
  unfold blockIndex
  rw [cell_div hj, cell_mod hj, cell_div hi, cell_mod hi]

/-- A row or column is one of a block. -/
theorem exists_block (hb : b ∣ n) {r : ℕ} (hr : r < n) :
    ∃ i_bar < n / b, ∃ i < b, r = i_bar * b + i := by
  obtain ⟨m, rfl⟩ := hb
  have hpos : 0 < b := Nat.pos_of_mul_pos_right (Nat.zero_lt_of_lt hr)
  rw [Nat.mul_div_cancel_left m hpos]
  exact ⟨r / b, Nat.div_lt_of_lt_mul hr, r % b, Nat.mod_lt r hpos, (Nat.div_add_mod' r b).symm⟩

theorem rowMajor_blockIndex (hb : b ∣ n) {r c : ℕ} (hr : r < n) (hc : c < n) :
    rowMajor n b (blockIndex n b r c) = r * n + c := by
  obtain ⟨i_bar, hi_bar, i, hi, rfl⟩ := exists_block hb hr
  obtain ⟨j_bar, hj_bar, j, hj, rfl⟩ := exists_block hb hc
  rw [blockIndex_cell hi hj, rowMajor_cell hj_bar hi hj]

theorem sq_blocks (hb : b ∣ n) : n / b * (n / b) * b * b = n * n := by
  obtain ⟨m, rfl⟩ := hb
  obtain rfl | hpos := Nat.eq_zero_or_pos b
  · simp
  · rw [Nat.mul_div_cancel_left m hpos]
    ring

theorem blockIndex_lt (hb : b ∣ n) {r c : ℕ} (hr : r < n) (hc : c < n) :
    blockIndex n b r c < n * n := by
  obtain ⟨i_bar, hi_bar, i, hi, rfl⟩ := exists_block hb hr
  obtain ⟨j_bar, hj_bar, j, hj, rfl⟩ := exists_block hb hc
  rw [blockIndex_cell hi hj, ← sq_blocks hb]
  exact cell_lt (cell_lt (cell_lt hi_bar hj_bar) hi) hj

/-! ## The conversions -/

theorem corner_cast {i_bar j_bar : ℕ} (hb : b ∣ n) (hn : n ≤ 46340) (hi_bar : i_bar < n / b)
    (hj_bar : j_bar < n / b) : corner n b i_bar j_bar =
      some ((i_bar * b * n + j_bar * b : ℕ) : ℤ) := by
  have hsq := sq_lt hn
  have hblocks : n / b * b = n := Nat.div_mul_cancel hb
  have hpos : 0 < n := Nat.pos_of_div_pos (Nat.zero_lt_of_lt hi_bar)
  have hrow : i_bar * b ≤ n := (Nat.mul_le_mul_right b hi_bar.le).trans_eq hblocks
  have hcolumn : j_bar * b ≤ n := (Nat.mul_le_mul_right b hj_bar.le).trans_eq hblocks
  have hle : n ≤ n * n := Nat.le_mul_of_pos_left n hpos
  -- the row is not the last one and something
  have hlast : (i_bar + 1) * b ≤ n := (Nat.mul_le_mul_right b hi_bar).trans_eq hblocks
  have hcorner : i_bar * b * n + j_bar * b ≤ n * n := by
    rw [Nat.succ_mul] at hlast
    have hb_pos : 0 < b := Nat.pos_of_dvd_of_pos hb hpos
    calc i_bar * b * n + j_bar * b ≤ i_bar * b * n + n := Nat.add_le_add_left hcolumn _
      _ = (i_bar * b + 1) * n := (Nat.succ_mul _ _).symm
      _ ≤ n * n := Nat.mul_le_mul_right n (by omega)
  have hrows : i_bar * b * n ≤ n * n := Nat.mul_le_mul_right n hrow
  simp only [corner, Option.bind_eq_bind]
  rw [cInt_mul (by omega), Option.bind_some, cInt_mul (by omega), Option.bind_some,
    cInt_mul (by omega), Option.bind_some]
  exact cInt_add (by omega)

theorem add_iterate (d : ℤ) (k : ℕ) (p : ℤ) : (fun p => p + d)^[k] p = p + k * d := by
  induction k with
  | zero => simp
  | succ k ih =>
    rw [Function.iterate_succ_apply', ih]
    push_cast
    ring

theorem add_iterate₂ (d e : ℤ) (k : ℕ) (p q : ℤ) :
    (fun x : ℤ × ℤ => (x.1 + d, x.2 + e))^[k] (p, q) = (p + k * d, q + k * e) := by
  induction k with
  | zero => simp
  | succ k ih =>
    rw [Function.iterate_succ_apply', ih]
    push_cast
    exact Prod.ext (by ring) (by ring)

section Walks
variable (copy : ℤ → ℤ → Vector R N → Option (Vector R N)) (T : Vector R N) (p q : ℤ)

/-- One row of a block. -/
theorem walk_row (b : ℕ) :
    upTo b (fun _ (T, p, q) => (copy p q T).map (·, p + 1, q + 1)) (T, p, q) =
      (upTo b (fun j => copy (p + j) (q + j)) T).map (·, p + b, q + b) := by
  have hwalk := upTo_walk (n := b) (s := T) (fun _ x => copy x.1 x.2) (fun x => (x.1 + 1, x.2 + 1))
    (p, q)
  simp only [add_iterate₂, mul_one] at hwalk
  exact hwalk

/-- One block. -/
theorem walk_block (n b : ℕ) :
    upTo b (fun _ (T, p, q) =>
      (upTo b (fun _ (T, p, q) => (copy p q T).map (·, p + 1, q + 1)) (T, p, q)).map
        fun (T, p, q) => (T, p, q + ((n : ℤ) - b))) (T, p, q) =
      (upTo b (fun i => upTo b fun j => copy (p + i * b + j) (q + i * n + j)) T).map
        (·, p + b * b, q + b * n) := by
  have hwalk := upTo_walk (n := b) (s := T) (fun _ x => upTo b fun j => copy (x.1 + j) (x.2 + j))
    (fun x => (x.1 + b, x.2 + n)) (p, q)
  simp only [add_iterate₂] at hwalk
  rw [← hwalk]
  refine upTo_congr fun _ _ => funext fun (T, p, q) => ?_
  dsimp only
  rw [walk_row, Option.map_map]
  congr 1
  funext T
  simp only [Function.comp_apply, add_assoc, add_sub_cancel]

end Walks

/-- **The loops go through all records**, in the order of blocked storage. -/
theorem copyBlocks_eq (hpos : 0 < b) (hb : b ∣ n) (hn : n ≤ 46340)
    (copy : ℤ → ℤ → Vector R N → Option (Vector R N)) (T : Vector R N) :
    copyBlocks n b copy T = upTo (n * n) (fun t => copy t (rowMajor n b t)) T := by
  have hrow : ∀ i_bar < n / b,
      upTo (n / b) (fun (j_bar : ℕ) (x : Vector R N × ℤ) => do
        let q ← corner n b i_bar j_bar
        (forInt b (fun _ (T, p, q) =>
          (forInt b (fun _ (T, p, q) => (copy p q T).map (·, p + 1, q + 1)) (T, p, q)).map
            fun (T, p, q) => (T, p, q + ((n : ℤ) - b))) (x.1, x.2, q)).map
          fun (T, p, _) => (T, p)) =
        fun (x : Vector R N × ℤ) => (upTo (n / b) (fun j_bar => upTo b fun i => upTo b fun j =>
          copy (x.2 + j_bar * (b * b) + i * b + j)
            ((i_bar * b * n + j_bar * b : ℕ) + i * n + j)) x.1).map
              (·, x.2 + (n / b : ℕ) * (b * b)) := by
    intro i_bar hi_bar
    funext (T, p)
    have hwalk := upTo_walk (n := n / b) (s := T) (fun j_bar p => upTo b fun i => upTo b fun j =>
      copy (p + i * b + j) ((i_bar * b * n + j_bar * b : ℕ) + i * n + j)) (fun p => p + b * b) p
    simp only [add_iterate] at hwalk
    rw [← hwalk]
    refine upTo_congr fun j_bar hj_bar => funext fun (T, p) => ?_
    rw [corner_cast hb hn hi_bar hj_bar, Option.bind_eq_bind, Option.bind_some]
    simp only [forInt_cast]
    rw [walk_block, Option.map_map]
    rfl
  have hall := upTo_walk (n := n / b) (s := T) (fun i_bar p => upTo (n / b) fun j_bar =>
    upTo b fun i => upTo b fun j =>
      copy (p + j_bar * (b * b) + i * b + j) ((i_bar * b * n + j_bar * b : ℕ) + i * n + j))
    (fun p => p + (n / b : ℕ) * (b * b)) 0
  simp only [add_iterate] at hall
  have hflat : upTo (n * n) (fun t => copy t (rowMajor n b t)) T =
      upTo (n / b * (n / b) * b * b) (fun t => copy t (rowMajor n b t)) T := by
    rw [sq_blocks hb]
  have hloops := upTo_congr (s := (T, (0 : ℤ))) hrow
  rw [hall] at hloops
  unfold copyBlocks
  rw [cDiv_cast hpos hn, Option.bind_eq_bind, Option.bind_some, forInt_cast]
  refine (congrArg (Option.map (·.1)) hloops).trans ?_
  rw [Option.map_map, Function.comp_def, Option.map_id', hflat, upTo_mul, upTo_mul, upTo_mul]
  refine upTo_congr fun i_bar hi_bar => funext fun T => upTo_congr fun j_bar hj_bar =>
    funext fun T => upTo_congr fun i hi => funext fun T => upTo_congr fun j hj => ?_
  rw [rowMajor_cell hj_bar hi hj]
  congr 1
  · push_cast
    ring
  · push_cast
    ring

theorem exists_record (hb : b ∣ n) {t : ℕ} (ht : t < n * n) : ∃ i_bar < n / b, ∃ j_bar < n / b,
    ∃ i < b, ∃ j < b, t = ((i_bar * (n / b) + j_bar) * b + i) * b + j := by
  rw [← sq_blocks hb] at ht
  obtain ⟨row, hrow, j, hj, rfl⟩ := exists_cell ht
  obtain ⟨block, hblock, i, hi, rfl⟩ := exists_cell hrow
  obtain ⟨i_bar, hi_bar, j_bar, hj_bar, rfl⟩ := exists_cell hblock
  exact ⟨i_bar, hi_bar, j_bar, hj_bar, i, hi, j, hj, rfl⟩

/-- Every record of blocked storage is an entry of the matrix. -/
theorem exists_blockIndex (hb : b ∣ n) {t : ℕ} (ht : t < n * n) :
    ∃ r < n, ∃ c < n, t = blockIndex n b r c := by
  obtain ⟨i_bar, hi_bar, j_bar, hj_bar, i, hi, j, hj, rfl⟩ := exists_record hb ht
  have hn : n / b * b = n := Nat.div_mul_cancel hb
  refine ⟨i_bar * b + i, ?_, j_bar * b + j, ?_, (blockIndex_cell hi hj).symm⟩
  · exact (cell_lt hi_bar hi).trans_eq hn
  · exact (cell_lt hj_bar hj).trans_eq hn

theorem rowMajor_lt (hb : b ∣ n) {t : ℕ} (ht : t < n * n) : rowMajor n b t < n * n := by
  obtain ⟨r, hr, c, hc, rfl⟩ := exists_blockIndex hb ht
  rw [rowMajor_blockIndex hb hr hc]
  exact cell_lt hr hc

theorem rowMajor_inj (hb : b ∣ n) {t t' : ℕ} (ht : t < n * n) (ht' : t' < n * n)
    (h : rowMajor n b t = rowMajor n b t') : t = t' := by
  obtain ⟨r, hr, c, hc, rfl⟩ := exists_blockIndex hb ht
  obtain ⟨r', hr', c', hc', rfl⟩ := exists_blockIndex hb ht'
  rw [rowMajor_blockIndex hb hr hc, rowMajor_blockIndex hb hr' hc'] at h
  obtain ⟨rfl, rfl⟩ := cell_inj hc hc' h
  rfl

/-- A record that is there is copied. -/
theorem update_recordAt {s t : ℕ} (T A : Vector R N) (hs : s < N) :
    (do
      let x ← recordAt A s
      update T t fun _ => x) = modify T t fun x => (A[s]?).getD x := by
  rw [recordAt_cast, Vector.getElem?_eq_getElem hs, Option.bind_eq_bind, Option.bind_some,
    update_cast]
  rfl

theorem toBlocked_spec (hpos : 0 < b) (hb : b ∣ n) (hn : n ≤ 46340) (T A : Vector R (n * n)) :
    ∃ A', toBlocked n b (some T) A = some A' ∧
      ∀ r < n, ∀ c < n, A'[blockIndex n b r c]? = A[r * n + c]? := by
  obtain ⟨A', hA', hcells, -⟩ := upTo_modify (n := n * n) T id
    (fun t x => (A[rowMajor n b t]?).getD x) (fun t ht => ht) fun t _ t' _ => id
  refine ⟨A', ?_, fun r hr c hc => ?_⟩
  · simp only [toBlocked, Option.bind_eq_bind]
    rw [cInt_mul (sq_lt hn), Option.bind_some, Option.bind_some, copyBlocks_eq hpos hb hn, ← hA']
    refine upTo_congr fun t ht => funext fun T => ?_
    exact update_recordAt T A (rowMajor_lt hb ht)
  · have hlt := blockIndex_lt hb hr hc
    have hcell := hcells _ hlt
    rw [id, (Vector.getElem?_eq_getElem hlt : T[_]? = _), rowMajor_blockIndex hb hr hc] at hcell
    rw [hcell, Vector.getElem?_eq_getElem (cell_lt hr hc)]
    rfl

theorem fromBlocked_spec (hpos : 0 < b) (hb : b ∣ n) (hn : n ≤ 46340) (T C : Vector R (n * n)) :
    ∃ C', fromBlocked n b (some T) C = some C' ∧
      ∀ r < n, ∀ c < n, C'[r * n + c]? = C[blockIndex n b r c]? := by
  obtain ⟨C', hC', hcells, -⟩ := upTo_modify (n := n * n) T (rowMajor n b)
    (fun t x => (C[t]?).getD x) (fun t ht => rowMajor_lt hb ht)
    fun t ht t' ht' => rowMajor_inj hb ht ht'
  refine ⟨C', ?_, fun r hr c hc => ?_⟩
  · simp only [fromBlocked, Option.bind_eq_bind]
    rw [cInt_mul (sq_lt hn), Option.bind_some, Option.bind_some, copyBlocks_eq hpos hb hn, ← hC']
    refine upTo_congr fun t ht => funext fun T => ?_
    exact update_recordAt T C ht
  · have hlt := blockIndex_lt hb hr hc
    have hcell := hcells _ hlt
    rw [rowMajor_blockIndex hb hr hc] at hcell
    rw [hcell, Vector.getElem?_eq_getElem (cell_lt hr hc), Vector.getElem?_eq_getElem hlt]
    rfl

/-- **From blocked storage and back**, if there is memory for the temporary arrays. What `malloc`
returned does not matter. -/
theorem toBlocked_fromBlocked (hpos : 0 < b) (hb : b ∣ n) (hn : n ≤ 46340)
    (T T' A : Vector R (n * n)) :
    (toBlocked n b (some T) A).bind (fromBlocked n b (some T')) = some A ∧
      (fromBlocked n b (some T') A).bind (toBlocked n b (some T)) = some A := by
  constructor
  · obtain ⟨A₁, h₁, hcells⟩ := toBlocked_spec hpos hb hn T A
    obtain ⟨A₂, h₂, hcells'⟩ := fromBlocked_spec hpos hb hn T' A₁
    rw [h₁, Option.bind_some, h₂, Option.some_inj]
    refine ext_getElem? fun t ht => ?_
    obtain ⟨r, hr, c, hc, rfl⟩ := exists_cell ht
    rw [hcells' r hr c hc, hcells r hr c hc]
  · obtain ⟨A₁, h₁, hcells⟩ := fromBlocked_spec hpos hb hn T' A
    obtain ⟨A₂, h₂, hcells'⟩ := toBlocked_spec hpos hb hn T A₁
    rw [h₁, Option.bind_some, h₂, Option.some_inj]
    refine ext_getElem? fun t ht => ?_
    obtain ⟨r, hr, c, hc, rfl⟩ := exists_blockIndex hb ht
    rw [hcells' r hr c hc, hcells r hr c hc]

/-- Four by four, in blocks of two by two. -/
theorem toBlocked_fromBlocked_four :
    (toBlocked 4 2 (some (Vector.replicate 16 0)) (Vector.range 16)).bind
        (fromBlocked 4 2 (some (Vector.replicate 16 0))) = some (Vector.range 16) ∧
      (fromBlocked 4 2 (some (Vector.replicate 16 0)) (Vector.range 16)).bind
        (toBlocked 4 2 (some (Vector.replicate 16 0))) = some (Vector.range 16) :=
  toBlocked_fromBlocked (b := 2) (n := 4) (by decide) (by decide) (by decide) _ _ _

/-! ## The products -/

/-- A loop that sets all records. -/
theorem upTo_setAll {N : ℕ} (v : ℕ → R) (C : Vector R N) :
    ∃ P, upTo N (fun t C => modify C t fun _ => v t) C = some P ∧ ∀ t < N, P[t]? = some (v t) := by
  obtain ⟨P, hP, hcells, -⟩ := upTo_modify C id (fun t _ => v t)
    (fun t ht => ht) fun t _ t' _ => id
  refine ⟨P, hP, fun t ht => ?_⟩
  have hcell := hcells t ht
  rwa [id, (Vector.getElem?_eq_getElem ht : C[t]? = _), Option.map_some] at hcell

section Arithmetic
variable [Add R] [Mul R]

/-- `c += x[k] * y[k]` for all `k` -/
def addProducts (m : ℕ) (x y : ℕ → R) (c : R) : R :=
  (List.range m).foldl (fun c k => c + x k * y k) c

theorem addProducts_congr {m : ℕ} {x x' y y' : ℕ → R} (hx : ∀ k < m, x k = x' k)
    (hy : ∀ k < m, y k = y' k) : addProducts m x y = addProducts m x' y' := by
  funext c
  refine List.foldl_ext _ _ _ fun c k hk => ?_
  rw [hx k (List.mem_range.1 hk), hy k (List.mem_range.1 hk)]

/-- The sum over a row, block by block. -/
theorem addProducts_mul (m l : ℕ) (x y : ℕ → R) (c : R) : addProducts (m * l) x y c =
    (List.range m).foldl
      (fun c i => addProducts l (fun k => x (i * l + k)) (fun k => y (i * l + k)) c) c :=
  foldl_range_mul _ m l c

variable [Zero R]

/-- The value of a record that is in bounds. -/
def value {N : ℕ} (A : Vector R N) (t : ℕ) : R := (A[t]?).getD 0

/-- The innermost loop of both programs. -/
theorem upTo_addProducts {N t m : ℕ} {C : Vector R N} (A B : Vector R N) (ix iy : ℕ → ℕ)
    (hx : ∀ k < m, ix k < N) (hy : ∀ k < m, iy k < N) (ht : t < N) :
    upTo m (fun k C => do
      let x ← A[ix k]?
      let y ← B[iy k]?
      modify C t (· + x * y)) C =
      modify C t (addProducts m (fun k => value A (ix k)) fun k => value B (iy k)) := by
  unfold addProducts
  rw [← upTo_modify_same (fun k c => c + value A (ix k) * value B (iy k)) ht]
  refine upTo_congr fun k hk => funext fun C => ?_
  simp [value, Vector.getElem?_eq_getElem (hx k hk), Vector.getElem?_eq_getElem (hy k hk)]

/-- **What `Mat_mult` computes.** -/
theorem matMult_spec (hn : n ≤ 46340) (A B C : Vector R (n * n)) :
    ∃ P, matMult n A B C = some P ∧ ∀ r < n, ∀ c < n, P[r * n + c]? =
      some (addProducts n (fun k => value A (r * n + k)) (fun k => value B (k * n + c)) 0) := by
  obtain ⟨P, hP, hcells⟩ := upTo_setAll (fun t => addProducts n
    (fun k => value A (t / n * n + k)) (fun k => value B (k * n + t % n)) 0) C
  refine ⟨P, ?_, fun r hr c hc => ?_⟩
  · rw [← hP, upTo_mul, matMult, forInt_cast]
    refine upTo_congr fun i hi => funext fun C => upTo_congr fun j (hj : j < n) =>
      funext fun C => ?_
    have hsum : ∀ C : Vector R (n * n), forInt n (fun k C => do
        let x ← recordAt A (← entryAt n i k)
        let y ← recordAt B (← entryAt n k j)
        update C (← entryAt n i j) (· + x * y)) C = modify C (i * n + j)
          (addProducts n (fun k => value A (i * n + k)) fun k => value B (k * n + j)) := by
      intro C
      rw [← upTo_addProducts A B (fun k => i * n + k) (fun k => k * n + j)
        (fun k hk => cell_lt hi hk) (fun k hk => cell_lt hk hj) (cell_lt hi hj), forInt_cast]
      refine upTo_congr fun k hk => funext fun C => ?_
      simp only [entryAt_cast hn hi hk, entryAt_cast hn hk hj, entryAt_cast hn hi hj,
        Option.bind_eq_bind, Option.bind_some, recordAt_cast, update_cast]
    simp only [hsum]
    simp only [entryAt_cast hn hi hj, Option.bind_eq_bind, Option.bind_some, update_cast,
      cell_div hj, cell_mod hj]
    exact modify_bind _ _
  · rw [hcells _ (cell_lt hr hc), cell_div hc, cell_mod hc]

theorem blockAt_cast {i_bar j_bar : ℕ} (hb : b ∣ n) (hn : n ≤ 46340) (hi_bar : i_bar < n / b)
    (hj_bar : j_bar < n / b) : blockAt (n / b : ℕ) (b * b : ℕ) i_bar j_bar =
      some (((i_bar * (n / b) + j_bar) * (b * b) : ℕ) : ℤ) := by
  have hsq := sq_lt hn
  have hblocks : n / b * (n / b) * (b * b) = n * n := by rw [← Nat.mul_assoc, sq_blocks hb]
  have hcell : i_bar * (n / b) + j_bar < n / b * (n / b) := cell_lt hi_bar hj_bar
  have hbar : n / b * (n / b) ≤ n * n :=
    Nat.mul_le_mul (Nat.div_le_self n b) (Nat.div_le_self n b)
  have hplace : (i_bar * (n / b) + j_bar) * (b * b) ≤ n * n :=
    (Nat.mul_le_mul_right _ hcell.le).trans_eq hblocks
  simp only [blockAt, Option.bind_eq_bind]
  rw [cInt_mul (by omega), Option.bind_some, cInt_add (by omega), Option.bind_some]
  exact cInt_mul (by omega)

/-- What `Mult_add` adds to a block. -/
theorem multAdd_eq {i_bar j_bar k_bar : ℕ} (hb : b ∣ n) (hn : n ≤ 46340) (hi_bar : i_bar < n / b)
    (hj_bar : j_bar < n / b) (hk_bar : k_bar < n / b) (A B C : Vector R (n * n)) :
    multAdd (n / b : ℕ) b (b * b : ℕ) A B ((i_bar * (n / b) + j_bar) * (b * b) : ℕ)
        i_bar j_bar k_bar C =
      upTo (b * b) (fun t C => modify C ((i_bar * (n / b) + j_bar) * (b * b) + t)
        (addProducts b
          (fun k => value A (blockIndex n b (i_bar * b + t / b) (k_bar * b + k)))
          fun k => value B (blockIndex n b (k_bar * b + k) (j_bar * b + t % b)))) C := by
  have hblocks : n / b * b = n := Nat.div_mul_cancel hb
  have hrow : ∀ {i_bar i}, i_bar < n / b → i < b → i_bar * b + i < n :=
    fun hi_bar hi => (cell_lt hi_bar hi).trans_eq hblocks
  have hint : ∀ {i : ℕ}, i < b → i * b < 2 ^ 31 := by
    intro i hi
    have hle : b ≤ n := Nat.le_of_dvd (Nat.zero_lt_of_lt (hrow hi_bar hi)) hb
    have hsq := sq_lt (hle.trans hn)
    exact (Nat.mul_le_mul_right b hi.le).trans_lt hsq
  -- where the loops find the entries
  have hplace : ∀ {i_bar j_bar i j}, i < b → j < b →
      (i_bar * (n / b) + j_bar) * (b * b) + i * b + j =
        blockIndex n b (i_bar * b + i) (j_bar * b + j) := by
    intro i_bar j_bar i j hi hj
    rw [blockIndex_cell hi hj]
    ring
  simp only [multAdd, Option.bind_eq_bind]
  rw [blockAt_cast hb hn hi_bar hk_bar, Option.bind_some, blockAt_cast hb hn hk_bar hj_bar,
    Option.bind_some, upTo_mul, forInt_cast]
  refine upTo_congr fun i hi => funext fun C => upTo_congr fun j (hj : j < b) =>
    funext fun C => ?_
  have hsum := upTo_addProducts (C := C) A B
    (fun k => (i_bar * (n / b) + k_bar) * (b * b) + i * b + k)
    (fun k => (k_bar * (n / b) + j_bar) * (b * b) + k * b + j)
    (t := (i_bar * (n / b) + j_bar) * (b * b) + i * b + j) (m := b) (fun k hk => ?_)
    (fun k hk => ?_) ?_
  · refine (upTo_congr fun k hk => funext fun C => ?_).trans (hsum.trans ?_)
    · simp only [cInt_mul (hint hi), cInt_mul (hint hk), Option.bind_eq_bind, Option.bind_some,
        ← Nat.cast_add, recordAt_cast, update_cast]
    · rw [cell_div hj, cell_mod hj, ← Nat.add_assoc]
      congr 1
      exact addProducts_congr (fun k hk => by rw [hplace hi hk]) fun k hk => by rw [hplace hk hj]
  · rw [hplace hi hk]
    exact blockIndex_lt hb (hrow hi_bar hi) (hrow hk_bar hk)
  · rw [hplace hk hj]
    exact blockIndex_lt hb (hrow hk_bar hk) (hrow hj_bar hj)
  · rw [hplace hi hj]
    exact blockIndex_lt hb (hrow hi_bar hi) (hrow hj_bar hj)

/-- **What `Blocked_mat_mult` computes**, in blocked storage. -/
theorem blockedMatMult_spec (hb : b ∣ n) (hn : n ≤ 46340) (A B C : Vector R (n * n)) :
    ∃ P, blockedMatMult (n / b : ℕ) b (b * b : ℕ) A B C = some P ∧
      ∀ r < n, ∀ c < n, P[blockIndex n b r c]? =
        some (addProducts n (fun k => value A (blockIndex n b r k))
          (fun k => value B (blockIndex n b k c)) 0) := by
  have hblocks : n / b * b = n := Nat.div_mul_cancel hb
  have hsq : n / b * (n / b) * (b * b) = n * n := by rw [← Nat.mul_assoc, sq_blocks hb]
  -- the sum for record `t` of a block
  let v := fun (i_bar j_bar t : ℕ) => addProducts (n / b * b)
    (fun k => value A (blockIndex n b (i_bar * b + t / b) k))
    (fun k => value B (blockIndex n b k (j_bar * b + t % b))) 0
  have hblock : ∀ i_bar < n / b, ∀ j_bar < n / b, ∀ C : Vector R (n * n),
      (do
        let (C, C_p) ← zeroC (n / b : ℕ) (b * b : ℕ) i_bar j_bar C
        forInt (n / b : ℕ)
          (fun k_bar => multAdd (n / b : ℕ) b (b * b : ℕ) A B C_p i_bar j_bar k_bar) C) =
      upTo (b * b) (fun t C => modify C ((i_bar * (n / b) + j_bar) * (b * b) + t)
        fun _ => v i_bar j_bar t) C := by
    intro i_bar hi_bar j_bar hj_bar C
    have hlt : ∀ t < b * b, (i_bar * (n / b) + j_bar) * (b * b) + t < n * n := by
      intro t ht
      rw [← hsq]
      exact cell_lt (cell_lt hi_bar hj_bar) ht
    have hinj : ∀ t < b * b, ∀ t' < b * b, (i_bar * (n / b) + j_bar) * (b * b) + t =
        (i_bar * (n / b) + j_bar) * (b * b) + t' → t = t' :=
      fun t _ t' _ => Nat.add_left_cancel
    have hadd : ∀ C : Vector R (n * n), _ = _ := fun C => upTo_congr (s := C) (n := n / b)
      fun k_bar hk_bar => funext fun C => multAdd_eq hb hn hi_bar hj_bar hk_bar A B C
    unfold zeroC
    rw [blockAt_cast hb hn hi_bar hj_bar]
    simp only [Option.bind_eq_bind, Option.bind_some, Option.bind_map, Function.comp_def,
      forInt_cast, ← Nat.cast_add, update_cast]
    simp only [hadd, upTo_interchange _ hlt hinj]
    rw [upTo_modify_bind _ _ hlt hinj]
    refine upTo_congr fun t ht => funext fun C => ?_
    congr 1
    funext x
    exact (addProducts_mul (n / b) b (fun k => value A (blockIndex n b (i_bar * b + t / b) k))
      (fun k => value B (blockIndex n b k (j_bar * b + t % b))) 0).symm
  obtain ⟨P, hP, hcells⟩ := upTo_setAll (fun t => v (t / (b * b) / (n / b)) (t / (b * b) % (n / b))
    (t % (b * b))) C
  refine ⟨P, ?_, fun r hr c hc => ?_⟩
  · have hflat : ∀ body : ℕ → Vector R (n * n) → Option (Vector R (n * n)),
        upTo (n * n) body C = upTo (n / b * (n / b) * (b * b)) body C := by
      intro body
      rw [hsq]
    rw [← hP, hflat, upTo_mul, upTo_mul, blockedMatMult, forInt_cast]
    refine upTo_congr fun i_bar hi_bar => funext fun C =>
      upTo_congr fun j_bar (hj_bar : j_bar < n / b) => funext fun C => ?_
    refine (hblock i_bar hi_bar j_bar hj_bar C).trans (upTo_congr fun t ht => ?_)
    rw [cell_div ht, cell_mod ht, cell_div hj_bar, cell_mod hj_bar]
  · obtain ⟨i_bar, hi_bar, i, hi, rfl⟩ := exists_block hb hr
    obtain ⟨j_bar, hj_bar, j, hj, rfl⟩ := exists_block hb hc
    have hplace : blockIndex n b (i_bar * b + i) (j_bar * b + j) =
        (i_bar * (n / b) + j_bar) * (b * b) + (i * b + j) := by
      rw [blockIndex_cell hi hj]
      ring
    have hij := cell_lt hi hj
    have hcell := hcells _ (blockIndex_lt hb hr hc)
    rw [hplace, cell_div hij, cell_mod hij, cell_div hj_bar, cell_mod hj_bar] at hcell
    rw [hplace, hcell]
    simp only [v, cell_div hj, cell_mod hj, hblocks]

/-- **`blocked.c` prints the product of `matmul.c`**, if the order of the blocks divides the order
of the matrices, and otherwise nothing. -/
theorem blockedProduct_eq (hpos : 0 < b) (hb : b ≤ 46340) (hn : n ≤ 46340)
    (A B C C' T₁ T₂ T₃ : Vector R (n * n)) : (matMult n A B C').isSome ∧
      blockedProduct n b (some A) (some B) (some C) (some T₁) (some T₂) (some T₃) =
        if b ∣ n then matMult n A B C' else none := by
  obtain ⟨P, hP, hcells⟩ := matMult_spec hn A B C'
  refine ⟨by rw [hP]; rfl, ?_⟩
  unfold blockedProduct
  by_cases hdvd : b ∣ n
  · have hrem : (n : ℤ).tmod b = 0 := Int.tmod_eq_zero_of_dvd (Int.natCast_dvd_natCast.2 hdvd)
    have hpass : ¬ ((b : ℤ) = 0 ∨ (n : ℤ).tmod b ≠ 0) := by
      rw [hrem]
      omega
    obtain ⟨A', hA', hA⟩ := toBlocked_spec hpos hdvd hn T₁ A
    obtain ⟨B', hB', hB⟩ := toBlocked_spec hpos hdvd hn T₂ B
    obtain ⟨Q, hQ, hQcells⟩ := blockedMatMult_spec hdvd hn A' B' C
    obtain ⟨P', hP', hP'cells⟩ := fromBlocked_spec hpos hdvd hn T₃ Q
    rw [if_neg hpass, if_pos hdvd, hP]
    simp only [Option.bind_eq_bind, Option.bind_some]
    rw [cInt_mul (sq_lt hn), Option.bind_some, cDiv_cast hpos hn, Option.bind_some,
      cInt_mul (sq_lt hb), Option.bind_some, hA', Option.bind_some, hB', Option.bind_some, hQ,
      Option.bind_some, hP', Option.some_inj]
    refine ext_getElem? fun t ht => ?_
    obtain ⟨r, hr, c, hc, rfl⟩ := exists_cell ht
    rw [hP'cells r hr c hc, hQcells r hr c hc, hcells r hr c hc, Option.some_inj]
    have hsum : addProducts n (fun k => value A' (blockIndex n b r k))
        (fun k => value B' (blockIndex n b k c)) =
        addProducts n (fun k => value A (r * n + k)) (fun k => value B (k * n + c)) := by
      refine addProducts_congr (fun k hk => ?_) fun k hk => ?_
      · rw [value, hA r hr k hk, value]
      · rw [value, hB k hk c hc, value]
    rw [hsum]
  · have hstop : (b : ℤ) = 0 ∨ (n : ℤ).tmod b ≠ 0 :=
      .inr fun hrem => hdvd (Int.natCast_dvd_natCast.1 (Int.dvd_of_tmod_eq_zero hrem))
    rw [if_pos hstop, if_neg hdvd]

/-- `[1 2; 3 4] * [5 6; 7 8]`, in blocks of one. -/
theorem blockedProduct_eq_two :
    blockedProduct 2 1 (some #v[1, 2, 3, 4]) (some #v[5, 6, 7, 8]) (some #v[9, 9, 9, 9])
        (some #v[0, 0, 0, 0]) (some #v[0, 0, 0, 0]) (some #v[0, 0, 0, 0]) =
      some #v[19, 22, 43, 50] :=
  (blockedProduct_eq (n := 2) (b := 1) (by decide) (by decide) (by decide) #v[1, 2, 3, 4]
    #v[5, 6, 7, 8] #v[9, 9, 9, 9] #v[0, 0, 0, 0] #v[0, 0, 0, 0] #v[0, 0, 0, 0]
    #v[0, 0, 0, 0]).2.trans (by decide +kernel)

/-- **A negative order of the blocks** that divides the order of the matrices. No loop runs, and
what is printed is what `malloc` returned for the last temporary array. -/
theorem blockedProduct_neg {n b : ℤ} (hn : 0 ≤ n) (hle : n ≤ 46340) (hb : b < 0)
    (hge : -46340 ≤ b) (hdvd : b ∣ n) (A B C T₁ T₂ T₃ : Vector R N) :
    blockedProduct n b (some A) (some B) (some C) (some T₁) (some T₂) (some T₃) = some T₃ := by
  obtain ⟨m, rfl⟩ := hdvd
  have hm : m ≤ 0 := by
    by_contra hpos
    have hneg : b * m < 0 := Int.mul_neg_of_neg_of_pos hb (by omega)
    omega
  have hm' : -m ≤ b * m := by
    have hscaled := Int.mul_le_mul_of_nonpos_right (show b ≤ -1 by omega) hm
    rwa [neg_one_mul] at hscaled
  have hsq : cInt (b * m * (b * m)) = some (b * m * (b * m)) := by
    lift b * m to ℕ using hn with n
    rw [cInt_mul (sq_lt (by omega))]
    push_cast
    rfl
  have hsq' : cInt (b * b) = some (b * b) := by
    obtain ⟨k, hk⟩ := Int.eq_ofNat_of_zero_le (show 0 ≤ -b by omega)
    rw [← neg_mul_neg, hk, cInt_mul (sq_lt (by omega))]
    push_cast
    rfl
  have hbar : cDiv (b * m) b = some m := by
    rw [cDiv, if_neg hb.ne, Int.mul_tdiv_cancel_left m hb.ne]
    exact if_pos ⟨by omega, by omega⟩
  have hcopy : ∀ copy (T : Vector R N), copyBlocks (b * m) b copy T = some T := by
    intro copy T
    rw [copyBlocks, hbar, Option.bind_eq_bind, Option.bind_some, forInt_nonpos hm]
    rfl
  have hpass : ¬ (b = 0 ∨ (b * m).tmod b ≠ 0) := by
    rw [Int.mul_tmod_right]
    omega
  unfold blockedProduct
  rw [if_neg hpass]
  simp only [toBlocked, fromBlocked, hsq, hsq', hbar, hcopy, blockedMatMult, forInt_nonpos hm,
    Option.bind_eq_bind, Option.bind_some]

end Arithmetic

end Cscc69.Traceprogs
