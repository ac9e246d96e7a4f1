import Mathlib.Data.List.Basic
import Mathlib.Logic.Function.Iterate
import Mathlib.Tactic.Common

/-!
# Counted loops over arrays

`upTo n body` is the loop `for (i = 0; i < n; i++)` over a body that may fail, and `Vector α N` an
array whose reads and writes are checked.

* `upTo_spec`: a loop whose body keeps an invariant and never fails ends, with the invariant.
* `upTo_mul`: two nested loops are one.
* `upTo_walk`: a pointer that a loop moves on is a function of the loop's index.
* `upTo_modify_same`, `upTo_modify`: a loop that changes one cell again and again, and one that
  changes every cell at most once.
* `upTo_interchange`: of two loops, the one through the cells can be the outer one.
-/

namespace Loops

variable {σ π α : Type*} {m n N i : ℕ} {s : σ}

def upTo (n : ℕ) (body : ℕ → σ → Option σ) (s : σ) : Option σ :=
  (List.range n).foldlM (fun s i => body i s) s

section Rules
variable {body body' : ℕ → σ → Option σ}

@[simp] theorem upTo_zero : upTo 0 body s = some s := rfl

theorem upTo_succ : upTo (n + 1) body s = (upTo n body s).bind (body n) := by
  simp [upTo, List.range_succ, Option.bind_eq_bind]

/-- **The invariant rule.** -/
theorem upTo_spec (I : ℕ → σ → Prop) (h₀ : I 0 s)
    (hstep : ∀ i < n, ∀ s, I i s → ∃ s', body i s = some s' ∧ I (i + 1) s') :
    ∃ s', upTo n body s = some s' ∧ I n s' := by
  induction n with
  | zero => exact ⟨s, rfl, h₀⟩
  | succ n ih =>
    obtain ⟨s₁, h₁, hI⟩ := ih fun i hi => hstep i (Nat.lt_succ_of_lt hi)
    obtain ⟨s₂, h₂, hI'⟩ := hstep n (Nat.lt_succ_self n) s₁ hI
    refine ⟨s₂, ?_, hI'⟩
    rw [upTo_succ, h₁, Option.bind_some, h₂]

theorem upTo_congr (h : ∀ i < n, body i = body' i) : upTo n body s = upTo n body' s := by
  induction n with
  | zero => rfl
  | succ n ih =>
    rw [upTo_succ, upTo_succ, ih fun i hi => h i (Nat.lt_succ_of_lt hi), h n (Nat.lt_succ_self n)]

theorem upTo_add (m n : ℕ) : upTo (m + n) body s =
    (upTo m body s).bind (upTo n fun i => body (m + i)) := by
  induction n with
  | zero => exact (Option.bind_fun_some _).symm
  | succ n ih =>
    rw [← Nat.add_assoc, upTo_succ, ih, Option.bind_assoc]
    congr 1
    funext s'
    rw [upTo_succ]

/-- **Two nested loops are one.** -/
theorem upTo_mul (m n : ℕ) : upTo (m * n) body s =
    upTo m (fun i => upTo n fun j => body (i * n + j)) s := by
  induction m with
  | zero => rw [Nat.zero_mul, upTo_zero, upTo_zero]
  | succ m ih => rw [Nat.succ_mul, upTo_add, ih, upTo_succ]

/-- **A pointer that moves on** from `p` in every pass is `next^[i] p` in pass `i`. -/
theorem upTo_walk (step : ℕ → π → σ → Option σ) (next : π → π) (p : π) :
    upTo n (fun i (x : σ × π) => (step i x.2 x.1).map (·, next x.2)) (s, p) =
      (upTo n (fun i => step i (next^[i] p)) s).map (·, next^[n] p) := by
  induction n with
  | zero => rfl
  | succ n ih =>
    rw [upTo_succ, ih, upTo_succ, Option.bind_map, Option.map_bind, Function.iterate_succ_apply']
    rfl

end Rules

/-! ## Arrays -/

/-- Change one cell, if it is in bounds. -/
def modify (xs : Vector α N) (i : ℕ) (f : α → α) : Option (Vector α N) :=
  if h : i < N then some (xs.set i (f xs[i])) else none

def store (xs : Vector α N) (i : ℕ) (x : α) : Option (Vector α N) := modify xs i fun _ => x

variable {xs ys : Vector α N}

theorem modify_of_lt {f : α → α} (h : i < N) : modify xs i f = some (xs.set i (f xs[i])) :=
  dif_pos h

theorem modify_getElem? {f : α → α} (h : modify xs i f = some ys) (j : ℕ) :
    ys[j]? = if j = i then xs[j]?.map f else xs[j]? := by
  unfold modify at h
  split at h
  · rename_i hi
    obtain rfl := Option.some.inj h
    split
    · rename_i hji
      subst hji
      rw [Vector.getElem?_set_self hi, Vector.getElem?_eq_getElem hi, Option.map_some]
    · rename_i hji
      exact Vector.getElem?_set_ne hi (Ne.symm hji)
  · cases h

/-- The same cell in every pass. -/
theorem upTo_modify_same (g : ℕ → α → α) (hi : i < N) :
    upTo n (fun k xs => modify xs i (g k)) xs =
      modify xs i fun x => (List.range n).foldl (fun x k => g k x) x := by
  induction n with
  | zero => simp [modify_of_lt hi]
  | succ n ih =>
    rw [upTo_succ, ih, modify_of_lt hi, Option.bind_some, modify_of_lt hi, modify_of_lt hi]
    simp [List.range_succ, List.foldl_append]

/-- **Another cell in every pass.** The cells of the passes are changed once, and the others
are not. -/
theorem upTo_modify (xs : Vector α N) (loc : ℕ → ℕ) (f : ℕ → α → α) (hlt : ∀ k < n, loc k < N)
    (hinj : ∀ k < n, ∀ l < n, loc k = loc l → k = l) :
    ∃ ys, upTo n (fun k xs => modify xs (loc k) (f k)) xs = some ys ∧
      (∀ k < n, ys[loc k]? = xs[loc k]?.map (f k)) ∧
      ∀ j, (∀ k < n, loc k ≠ j) → ys[j]? = xs[j]? := by
  refine upTo_spec (fun m ys => (∀ k < m, ys[loc k]? = xs[loc k]?.map (f k)) ∧
      ∀ j, (∀ k < m, loc k ≠ j) → ys[j]? = xs[j]?)
    ⟨fun k hk => absurd hk (Nat.not_lt_zero k), fun _ _ => rfl⟩ ?_
  rintro i hi ys ⟨hcells, hrest⟩
  have hne : ∀ k < i, loc k ≠ loc i := fun k hk heq =>
    Nat.ne_of_lt hk (hinj k (Nat.lt_trans hk hi) i hi heq)
  have hmod : modify ys (loc i) (f i) = _ := modify_of_lt (hlt i hi)
  refine ⟨_, hmod, fun k hk => ?_, fun j hj => ?_⟩
  · rw [modify_getElem? hmod]
    obtain hk | rfl := Nat.lt_succ_iff_lt_or_eq.1 hk
    · rw [if_neg (hne k hk), hcells k hk]
    · rw [if_pos rfl, hrest _ hne]
  · rw [modify_getElem? hmod, if_neg (hj i (Nat.lt_succ_self i)).symm]
    exact hrest j fun k hk => hj k (Nat.lt_succ_of_lt hk)

/-- Changing a cell twice. -/
theorem modify_bind (f g : α → α) : (modify xs i f).bind (modify · i g) = modify xs i (g ∘ f) := by
  unfold modify
  by_cases hi : i < N
  · simp [hi]
  · simp [hi]

theorem ext_getElem? (h : ∀ i < N, xs[i]? = ys[i]?) : xs = ys := by
  refine Vector.ext fun i hi => ?_
  have heq := h i hi
  rwa [Vector.getElem?_eq_getElem hi, Vector.getElem?_eq_getElem hi, Option.some_inj] at heq

/-- The second of two loops over the same cells can be done by the first. -/
theorem upTo_modify_bind {loc : ℕ → ℕ} (f g : ℕ → α → α) (hlt : ∀ k < n, loc k < N)
    (hinj : ∀ k < n, ∀ l < n, loc k = loc l → k = l) :
    (upTo n (fun k xs => modify xs (loc k) (f k)) xs).bind
      (upTo n fun k xs => modify xs (loc k) (g k)) =
        upTo n (fun k xs => modify xs (loc k) (g k ∘ f k)) xs := by
  obtain ⟨ys, hys, hcells, hrest⟩ := upTo_modify xs loc f hlt hinj
  obtain ⟨zs, hzs, hcells', hrest'⟩ := upTo_modify ys loc g hlt hinj
  obtain ⟨ws, hws, hcells'', hrest''⟩ := upTo_modify xs loc (fun k => g k ∘ f k) hlt hinj
  rw [hys, Option.bind_some, hzs, hws, Option.some_inj]
  refine ext_getElem? fun j _ => ?_
  by_cases hj : ∃ k < n, loc k = j
  · obtain ⟨k, hk, rfl⟩ := hj
    rw [hcells' k hk, hcells k hk, hcells'' k hk, Option.map_map]
  · have hj' : ∀ k < n, loc k ≠ j := fun k hk heq => hj ⟨k, hk, heq⟩
    rw [hrest' j hj', hrest j hj', hrest'' j hj']

/-- **Interchange.** Going through the cells `m` times, with one change each time, makes all the
changes of a cell. -/
theorem upTo_interchange {loc : ℕ → ℕ} (g : ℕ → ℕ → α → α) (hlt : ∀ k < n, loc k < N)
    (hinj : ∀ k < n, ∀ l < n, loc k = loc l → k = l) :
    upTo m (fun l => upTo n fun k xs => modify xs (loc k) (g l k)) xs =
      upTo n (fun k xs => modify xs (loc k) fun x =>
        (List.range m).foldl (fun x l => g l k x) x) xs := by
  induction m with
  | zero =>
    obtain ⟨ys, hys, hcells, hrest⟩ := upTo_modify xs loc (fun _ x => x) hlt hinj
    rw [upTo_zero]
    refine Eq.trans ?_ hys.symm
    refine congrArg some (ext_getElem? fun j _ => ?_)
    by_cases hj : ∃ k < n, loc k = j
    · obtain ⟨k, hk, rfl⟩ := hj
      rw [hcells k hk, Option.map_id']
    · exact (hrest j fun k hk heq => hj ⟨k, hk, heq⟩).symm
  | succ m ih =>
    rw [upTo_succ, ih, upTo_modify_bind _ _ hlt hinj]
    simp [List.range_succ, List.foldl_append, Function.comp_def]

/-! ## Cells of a table, row by row -/

theorem cell_lt {j : ℕ} (hi : i < m) (hj : j < n) : i * n + j < m * n :=
  calc i * n + j < i * n + n := Nat.add_lt_add_left hj _
    _ = (i + 1) * n := (Nat.succ_mul i n).symm
    _ ≤ m * n := Nat.mul_le_mul_right n hi

theorem cell_div {j : ℕ} (hj : j < n) : (i * n + j) / n = i := by
  rw [Nat.mul_comm, Nat.mul_add_div (Nat.zero_lt_of_lt hj), Nat.div_eq_of_lt hj, Nat.add_zero]

theorem cell_mod {j : ℕ} (hj : j < n) : (i * n + j) % n = j := by
  rw [Nat.mul_comm, Nat.mul_add_mod, Nat.mod_eq_of_lt hj]

theorem cell_inj {i' j j' : ℕ} (hj : j < n) (hj' : j' < n) (h : i * n + j = i' * n + j') :
    i = i' ∧ j = j' := by
  constructor
  · rw [← cell_div (i := i) hj, h, cell_div hj']
  · rw [← cell_mod (i := i) hj, h, cell_mod hj']

theorem exists_cell {t : ℕ} (ht : t < m * n) : ∃ i < m, ∃ j < n, t = i * n + j := by
  have hpos : 0 < n := Nat.pos_of_mul_pos_left (Nat.zero_lt_of_lt ht)
  refine ⟨t / n, Nat.div_lt_of_lt_mul ?_, t % n, Nat.mod_lt t hpos, (Nat.div_add_mod' t n).symm⟩
  rwa [Nat.mul_comm]

/-- A fold over all cells goes through the rows. -/
theorem foldl_range_mul (f : σ → ℕ → σ) (m n : ℕ) (s : σ) : (List.range (m * n)).foldl f s =
    (List.range m).foldl (fun s i => (List.range n).foldl (fun s j => f s (i * n + j)) s) s := by
  induction m with
  | zero => simp
  | succ m ih =>
    rw [Nat.succ_mul, List.range_add, List.foldl_append, ih, List.foldl_map, List.range_succ,
      List.foldl_append, List.foldl_cons, List.foldl_nil]

end Loops
