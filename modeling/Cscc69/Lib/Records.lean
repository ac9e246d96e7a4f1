import Mathlib.Data.List.Basic
import Mathlib.Tactic.Common
import Mathlib.Algebra.Order.Ring.Nat

/-!
# Records laid end to end

A record begins at a position and has a length; the next one begins where it ends. `Tiles len p e
ps` says that the records that begin at `ps` fill the space from `p` to `e` exactly. `scan` is the
loop that goes from record to record until it finds one or reaches a stop, with the record before
it at hand, and `Tiles.scan_eq` says what it returns on a space that is filled. `Visits` says that
the loop ends, and which records it looks at.

Two changes keep the space filled: a record takes in the one after it (`Tiles.merge`), or is cut
in two (`Tiles.cut`).
-/

namespace Records

/-- From `p` to `e`, records of lengths `len` begin at `ps`, each where the one before ends. -/
inductive Tiles (len : ℕ → ℕ) : ℕ → ℕ → List ℕ → Prop
  | nil (e : ℕ) : Tiles len e e []
  | cons {p e : ℕ} {ps : List ℕ} : 0 < len p → Tiles len (p + len p) e ps →
      Tiles len p e (p :: ps)

variable {len len' : ℕ → ℕ} {p q r e : ℕ} {ps qs as bs : List ℕ}

namespace Tiles

theorem le (h : Tiles len p e ps) : p ≤ e := by
  induction h with
  | nil => exact Nat.le_refl _
  | cons _ _ ih => omega

theorem le_of_mem (h : Tiles len p e ps) (hq : q ∈ ps) : p ≤ q := by
  induction h with
  | nil => cases hq
  | cons _ _ ih =>
    rcases List.mem_cons.1 hq with rfl | hq
    · exact Nat.le_refl _
    · have hle := ih hq
      omega

/-- A record ends within the space. -/
theorem add_le_of_mem (h : Tiles len p e ps) (hq : q ∈ ps) : q + len q ≤ e := by
  induction h with
  | nil => cases hq
  | cons _ ht ih =>
    rcases List.mem_cons.1 hq with rfl | hq
    · exact ht.le
    · exact ih hq

/-- The space can be filled in one way only. -/
theorem unique (h : Tiles len p e ps) (h' : Tiles len p e qs) : ps = qs := by
  induction h generalizing qs with
  | nil =>
    cases h' with
    | nil => rfl
    | cons hp ht => have hle := ht.le; omega
  | cons hp ht ih =>
    cases h' with
    | nil => have hle := ht.le; omega
    | cons _ ht' => rw [ih ht']

/-- Only the lengths of the records matter. -/
theorem congr (h : Tiles len p e ps) (heq : ∀ q ∈ ps, len' q = len q) : Tiles len' p e ps := by
  induction h with
  | nil => exact .nil _
  | @cons p e ps hp _ ih =>
    have hlen := heq p List.mem_cons_self
    refine .cons (by rw [hlen]; exact hp) ?_
    rw [hlen]
    exact ih fun q hq => heq q (List.mem_cons_of_mem p hq)

theorem append (h : Tiles len p q as) (h' : Tiles len q e bs) : Tiles len p e (as ++ bs) := by
  induction h with
  | nil => exact h'
  | cons hp _ ih => exact .cons hp (ih h')

/-- Cut at any of its records, a filled space is filled before and after it. -/
theorem split (h : Tiles len p e (as ++ q :: bs)) :
    Tiles len p q as ∧ 0 < len q ∧ Tiles len (q + len q) e bs := by
  induction as generalizing p with
  | nil => cases h with | cons hp ht => exact ⟨.nil _, hp, ht⟩
  | cons a as ih =>
    cases h with
    | cons hp ht =>
      obtain ⟨h₁, h₂, h₃⟩ := ih ht
      exact ⟨.cons hp h₁, h₂, h₃⟩

/-- A record that ends before the end of the space is followed by another one. -/
theorem next_mem (h : Tiles len p e ps) (hq : q ∈ ps) (hlt : q + len q < e) : q + len q ∈ ps := by
  obtain ⟨as, bs, rfl⟩ := List.append_of_mem hq
  obtain ⟨-, -, hrest⟩ := h.split
  cases hrest with
  | nil => omega
  | cons _ _ => simp

theorem sorted (h : Tiles len p e ps) : ps.Pairwise (· < ·) := by
  induction h with
  | nil => exact .nil
  | cons hp ht ih =>
    refine .cons (fun q hq => ?_) ih
    have hle := ht.le_of_mem hq
    omega

theorem nodup (h : Tiles len p e ps) : ps.Nodup := h.sorted.imp fun hlt => hlt.ne

/-- Two different records do not overlap. -/
theorem disjoint (h : Tiles len p e ps) (hq : q ∈ ps) (hr : r ∈ ps) (hlt : q < r) :
    q + len q ≤ r := by
  induction h with
  | nil => cases hq
  | cons hp ht ih =>
    rcases List.mem_cons.1 hr with rfl | hr'
    · rcases List.mem_cons.1 hq with rfl | hq
      · omega
      · have hle := ht.le_of_mem hq
        omega
    · rcases List.mem_cons.1 hq with rfl | hq
      · exact ht.le_of_mem hr'
      · exact ih hq hr'

theorem apart (h : Tiles len p e ps) (hq : q ∈ ps) (hr : r ∈ ps) (hne : q ≠ r) :
    q + len q ≤ r ∨ r + len r ≤ q := by
  rcases Nat.lt_or_gt_of_ne hne with hlt | hgt
  · exact .inl (h.disjoint hq hr hlt)
  · exact .inr (h.disjoint hr hq hgt)

/-- A record takes in the one after it. -/
theorem merge (h : Tiles len p e (as ++ q :: r :: bs)) (hq : len' q = len q + len r)
    (heq : ∀ x ∈ as ++ bs, len' x = len x) : Tiles len' p e (as ++ q :: bs) := by
  obtain ⟨h₁, hposq, h₂⟩ := h.split
  cases h₂ with
  | cons hposr h₃ =>
    refine append (h₁.congr fun x hx => heq x (List.mem_append_left _ hx)) (.cons (by omega) ?_)
    rw [hq, ← Nat.add_assoc]
    exact h₃.congr fun x hx => heq x (List.mem_append_right _ hx)

/-- A record is cut in two. -/
theorem cut (h : Tiles len p e (as ++ q :: bs)) {k : ℕ} (hk : 0 < k) (hlt : k < len q)
    (hq : len' q = k) (hr : len' (q + k) = len q - k)
    (heq : ∀ x ∈ as ++ bs, len' x = len x) : Tiles len' p e (as ++ q :: (q + k) :: bs) := by
  obtain ⟨h₁, _, h₂⟩ := h.split
  refine append (h₁.congr fun x hx => heq x (List.mem_append_left _ hx)) (.cons (by omega) ?_)
  rw [hq]
  refine .cons (by omega) ?_
  rw [hr, show q + k + (len q - k) = q + len q by omega]
  exact h₂.congr fun x hx => heq x (List.mem_append_right _ hx)

theorem nil_iff : Tiles len p e [] ↔ p = e := by
  constructor
  · intro h
    cases h
    rfl
  · rintro rfl
    exact .nil _

theorem cons_iff : Tiles len p e (q :: ps) ↔ p = q ∧ 0 < len q ∧ Tiles len (q + len q) e ps := by
  constructor
  · intro h
    cases h with
    | cons hp ht => exact ⟨rfl, hp, ht⟩
  · rintro ⟨rfl, hp, ht⟩
    exact .cons hp ht

instance decidable (len : ℕ → ℕ) : (p e : ℕ) → (ps : List ℕ) → Decidable (Tiles len p e ps)
  | _, _, [] => decidable_of_iff _ nil_iff.symm
  | _, e, q :: ps =>
    have : Decidable (Tiles len (q + len q) e ps) := decidable len (q + len q) e ps
    decidable_of_iff _ cons_iff.symm

end Tiles

/-! ## Scanning -/

/-- Where the records from `p` to `e` begin, at most `fuel` of them. -/
def positions (len : ℕ → ℕ) (e : ℕ) : ℕ → ℕ → List ℕ
  | 0, _ => []
  | fuel + 1, p => if p < e then p :: positions len e fuel (p + len p) else []

theorem Tiles.positions_eq (h : Tiles len p e ps) {fuel : ℕ} (hf : e ≤ p + fuel) :
    positions len e fuel p = ps := by
  induction h generalizing fuel with
  | nil => cases fuel <;> simp [positions]
  | cons hp ht ih =>
    have hle := ht.le
    obtain _ | fuel := fuel
    · omega
    · rw [positions, if_pos (by omega), ih (by omega)]

/-- The loop over the records from `pos` on, `pre` being the record before: it stops at a record
that is `found`, or where a record ends at a `stop`. The result is the record found and the one
before it; without result when the fuel runs out. -/
def scan (len : ℕ → ℕ) (stop found : ℕ → Bool) : ℕ → ℕ → ℕ → Option (Option (ℕ × ℕ))
  | 0, _, _ => none
  | fuel + 1, pre, pos =>
    if found pos then some (some (pre, pos))
    else if stop (pos + len pos) then some none
    else scan len stop found fuel pos (pos + len pos)

/-- The first record found and the one before it, `pre` being the one before them all. -/
def findPair (found : ℕ → Bool) : ℕ → List ℕ → Option (ℕ × ℕ)
  | _, [] => none
  | pre, q :: qs => if found q then some (pre, q) else findPair found q qs

variable {stop found : ℕ → Bool}

/-- **The loop on a filled space**: it visits its records in order and stops at its end. -/
theorem Tiles.scan_eq (h : Tiles len p e ps) (hlt : p < e) (hstop : stop e = true)
    (hgo : ∀ q, p < q → q < e → stop q = false) {fuel : ℕ} (hf : e ≤ p + fuel) (pre : ℕ) :
    scan len stop found fuel pre p = some (findPair found pre ps) := by
  induction h generalizing fuel pre with
  | nil => omega
  | @cons p e ps hp ht ih =>
    obtain _ | fuel := fuel
    · omega
    rw [scan, findPair]
    split
    · rfl
    · rcases Nat.lt_or_ge (p + len p) e with hlt' | hge
      · rw [hgo _ (by omega) hlt', if_neg Bool.false_ne_true]
        exact ih hlt' hstop (fun q hq hqe => hgo q (by omega) hqe) (by omega) p
      · have heq : p + len p = e := Nat.le_antisymm ht.le hge
        rw [heq, hstop, if_pos rfl]
        rw [heq] at ht
        cases ht with
        | nil => rfl
        | cons hp' ht' => have hle := ht'.le; omega

theorem findPair_snd (found : ℕ → Bool) (pre : ℕ) (ps : List ℕ) :
    (findPair found pre ps).map Prod.snd = ps.find? found := by
  induction ps generalizing pre with
  | nil => rfl
  | cons q qs ih =>
    rw [findPair, List.find?_cons]
    split
    · rename_i hq
      rw [hq]
      rfl
    · rename_i hq
      rw [Bool.not_eq_true] at hq
      rw [hq, ih]

/-- What is found stands right after what is returned with it, or first. -/
theorem findPair_some {pre : ℕ} (h : findPair found pre ps = some (r, q)) :
    found q = true ∧ ((∃ bs, ps = q :: bs ∧ r = pre) ∨ ∃ as bs, ps = as ++ r :: q :: bs) := by
  induction ps generalizing pre with
  | nil => cases h
  | cons a ps ih =>
    rw [findPair] at h
    split at h
    · rename_i ha
      obtain ⟨rfl, rfl⟩ := Prod.mk.inj (Option.some.inj h)
      exact ⟨ha, .inl ⟨ps, rfl, rfl⟩⟩
    · obtain ⟨hq, ⟨bs, rfl, rfl⟩ | ⟨as, bs, rfl⟩⟩ := ih h
      · exact ⟨hq, .inr ⟨[], bs, rfl⟩⟩
      · exact ⟨hq, .inr ⟨a :: as, bs, rfl⟩⟩

/-- The loop only goes forward. -/
theorem le_of_scan {fuel pre m : ℕ} (hpre : m ≤ pre) (hp : m ≤ p)
    (h : scan len stop found fuel pre p = some (some (r, q))) : m ≤ r ∧ m ≤ q := by
  induction fuel generalizing pre p with
  | zero => cases h
  | succ fuel ih =>
    rw [scan] at h
    split at h
    · cases h
      exact ⟨hpre, hp⟩
    · split at h
      · cases h
      · exact ih hp (hp.trans (Nat.le_add_right ..)) h

/-! ## The records looked at -/

/-- The loop from `pos` on ends, after it has looked at the records of the list. -/
inductive Visits (len : ℕ → ℕ) (stop found : ℕ → Bool) : ℕ → List ℕ → Prop
  | found {p : ℕ} : found p = true → Visits len stop found p [p]
  | stop {p : ℕ} : found p = false → stop (p + len p) = true → Visits len stop found p [p]
  | next {p : ℕ} {ps : List ℕ} : found p = false → stop (p + len p) = false →
      Visits len stop found (p + len p) ps → Visits len stop found p (p :: ps)

namespace Visits

/-- The loop has a result if it ends. -/
theorem scan_isSome (h : Visits len stop found p ps) {fuel : ℕ} (hf : ps.length ≤ fuel) (pre : ℕ) :
    (scan len stop found fuel pre p).isSome = true := by
  induction h generalizing fuel pre with
  | found hp =>
    obtain _ | fuel := fuel
    · cases hf
    · rw [scan, if_pos hp]
      rfl
  | stop hp hs =>
    obtain _ | fuel := fuel
    · cases hf
    · rw [scan, hp, if_neg Bool.false_ne_true, if_pos hs]
      rfl
  | next hp hs _ ih =>
    obtain _ | fuel := fuel
    · cases hf
    · rw [scan, hp, if_neg Bool.false_ne_true, hs, if_neg Bool.false_ne_true]
      exact ih (Nat.le_of_succ_le_succ hf) _

/-- A loop that finds nothing goes through records laid end to end, up to a stop. -/
theorem tiles (h : Visits len stop found p ps) (hno : ∀ q, found q = false)
    (hgo : stop p = false) : ∃ e, Tiles len p e ps ∧ stop e = true := by
  induction h with
  | found hp => rw [hno] at hp; cases hp
  | @stop p _ hs =>
    have hpos : len p ≠ 0 := by
      intro hzero
      rw [hzero, Nat.add_zero, hgo] at hs
      cases hs
    exact ⟨p + len p, .cons (Nat.pos_of_ne_zero hpos) (.nil _), hs⟩
  | @next p ps _ hs hrest ih =>
    obtain ⟨e, htiles, he⟩ := ih hs
    refine ⟨e, .cons (Nat.pos_of_ne_zero fun hzero => ?_) htiles, he⟩
    -- from a record without a length the loop comes back to it
    rw [hzero, Nat.add_zero] at htiles hrest
    cases htiles with
    | nil => cases hrest
    | cons hpos _ => omega

/-- The first record is looked at. -/
theorem mem (h : Visits len stop found p ps) : p ∈ ps := by
  cases h <;> exact List.mem_cons_self

/-- A loop that finds nothing looks at no record twice. -/
theorem nodup (h : Visits len stop found p ps) (hno : ∀ q, found q = false) : ps.Nodup := by
  cases h with
  | found _ => exact List.pairwise_singleton _ _
  | stop _ _ => exact List.pairwise_singleton _ _
  | @next _ ps _ hs hrest =>
    obtain ⟨e, htiles, -⟩ := hrest.tiles hno hs
    have hpos : len p ≠ 0 := by
      intro hzero
      -- it would come back to the first record
      rw [hzero, Nat.add_zero] at htiles hrest
      cases htiles with
      | nil => cases hrest
      | cons hpos _ => omega
    exact (Tiles.cons (Nat.pos_of_ne_zero hpos) htiles).nodup

end Visits

/-- On records laid end to end the loop ends, whatever it looks for. -/
theorem Tiles.visits (h : Tiles len p e ps) (hne : ps ≠ []) (hstop : stop e = true)
    (hgo : ∀ q ∈ ps.tail, stop q = false) : ∃ qs, Visits len stop found p qs ∧ qs <+: ps := by
  induction h with
  | nil => exact absurd rfl hne
  | @cons p e ps hp ht ih =>
    cases hfound : found p with
    | true => exact ⟨[p], .found hfound, List.prefix_append [p] ps⟩
    | false =>
      cases ht with
      | nil => exact ⟨[p], .stop hfound hstop, List.prefix_rfl⟩
      | cons hp' ht' =>
        obtain ⟨qs, hqs, hprefix⟩ := ih (List.cons_ne_nil _ _) hstop
          fun q hq => hgo q (List.mem_cons_of_mem _ hq)
        exact ⟨p :: qs, .next hfound (hgo _ List.mem_cons_self) hqs,
          List.cons_prefix_cons.2 ⟨rfl, hprefix⟩⟩

/-- A loop that finds nothing goes through all of them. -/
theorem Tiles.visits_all (h : Tiles len p e ps) (hne : ps ≠ []) (hstop : stop e = true)
    (hgo : ∀ q ∈ ps.tail, stop q = false) (hno : ∀ q, found q = false) :
    Visits len stop found p ps := by
  induction h with
  | nil => exact absurd rfl hne
  | cons hp ht ih =>
    cases ht with
    | nil => exact .stop (hno _) hstop
    | cons hp' ht' =>
      exact .next (hno _) (hgo _ List.mem_cons_self)
        (ih (List.cons_ne_nil _ _) hstop fun q hq => hgo q (List.mem_cons_of_mem _ hq))

end Records
