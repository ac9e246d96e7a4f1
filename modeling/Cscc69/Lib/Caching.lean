import Mathlib.Data.Finset.Card
import Mathlib.Tactic.Common

/-!
# Demand paging, and the farthest next use

A cache of `k` pages serves a list of requests. A page that is there is a hit. Otherwise it is
loaded, into free space if there is any, and in place of another page if not; which one is up to
the victim condition `Q` (`Serves`).

**Theorem (`farthest_least`).** Evicting a page whose next request is farthest away (a page never
requested again being farthest of all) makes the fewest misses.

The proof exchanges one page for another. `Serves.swap` takes a run from `insert z A` to one from
`insert y A`, with at most one more miss, and with no more if `y` is requested before `z`: the two
runs evict the same pages until one of the caches loses its odd page.
-/

namespace Caching

variable {α : Type*} [DecidableEq α] {k m : ℕ} {A C : Finset α} {p v y z : α} {fut : List α}

/-- The requests are served from the cache with so many misses; victims are chosen by `Q`, which
sees the cache and the requests to come. -/
inductive Serves (k : ℕ) (Q : Finset α → List α → α → Prop) : Finset α → List α → ℕ → Prop
  | nil {C : Finset α} : Serves k Q C [] 0
  | hit {C : Finset α} {p : α} {fut : List α} {m : ℕ} : p ∈ C → Serves k Q C fut m →
      Serves k Q C (p :: fut) m
  | free {C : Finset α} {p : α} {fut : List α} {m : ℕ} : p ∉ C → C.card < k →
      Serves k Q (insert p C) fut m → Serves k Q C (p :: fut) (m + 1)
  | evict {C : Finset α} {p v : α} {fut : List α} {m : ℕ} : p ∉ C → C.card = k → v ∈ C →
      Q C fut v → Serves k Q (insert p (C.erase v)) fut m → Serves k Q C (p :: fut) (m + 1)

/-- Any victim. -/
def AnyVictim (_ : Finset α) (_ : List α) (_ : α) : Prop := True

/-- No page of the cache is requested later than the victim. A page that is not requested has
`fut.length` for its next request. -/
def Farthest (C : Finset α) (fut : List α) (v : α) : Prop := ∀ q ∈ C, fut.idxOf q ≤ fut.idxOf v

theorem card_swap (hz : z ∉ A) (hy : y ∉ A) (hfull : (insert z A).card = k) :
    (insert y A).card = k := by
  rw [Finset.card_insert_of_notMem hz] at hfull
  rw [Finset.card_insert_of_notMem hy, hfull]

/-- **Exchange.** From a cache with `y` instead of `z` the requests are served with at most one
more miss, and with no more unless `z` is requested first. -/
theorem Serves.swap (h : Serves k AnyVictim (insert z A) fut m) (hz : z ∉ A) (hy : y ∉ A)
    (hne : z ≠ y) (hfull : (insert z A).card = k) :
    ∃ m', Serves k AnyVictim (insert y A) fut m' ∧
      m' ≤ m + if fut.idxOf z < fut.idxOf y then 1 else 0 := by
  generalize hC : insert z A = C at h
  induction h generalizing A y z with
  | nil => exact ⟨0, .nil, Nat.zero_le _⟩
  | @hit C p fut m hp h ih =>
    subst hC
    by_cases hpz : p = z
    · -- only the run with `z` has a hit; the other one loads `z` in place of `y`
      subst hpz
      have herase : insert p ((insert y A).erase y) = insert p A := by
        rw [Finset.erase_insert hy]
      refine ⟨m + 1, .evict (v := y) (by simp [hz, hne]) (card_swap hz hy hfull) (by simp) trivial
        (herase ▸ h), ?_⟩
      simp [List.idxOf_cons_ne fut hne]
    · have hpA : p ∈ A := (Finset.mem_insert.1 hp).resolve_left hpz
      have hpy : p ≠ y := ne_of_mem_of_not_mem hpA hy
      obtain ⟨m', h', hle⟩ := ih hz hy hne hfull rfl
      refine ⟨m', .hit (Finset.mem_insert_of_mem hpA) h', ?_⟩
      simpa [List.idxOf_cons_ne fut hpz, List.idxOf_cons_ne fut hpy] using hle
  | free hp hcard h ih =>
    subst hC
    omega
  | @evict C p v fut m hp hcard hv _ h ih =>
    subst hC
    obtain ⟨hpz, hpA⟩ := not_or.1 (mt Finset.mem_insert.2 hp)
    by_cases hvz : v = z
    · -- the odd page goes: the caches are equal, at once or after `y` has gone too
      subst hvz
      rw [Finset.erase_insert hz] at h
      by_cases hpy : p = y
      · subst hpy
        exact ⟨m, .hit (Finset.mem_insert_self ..) h, by omega⟩
      · refine ⟨m + 1, .evict (v := y) (by simp [hpy, hpA]) (card_swap hz hy hfull) (by simp)
          trivial ?_, by omega⟩
        rw [Finset.erase_insert hy]
        exact h
    · have hvA : v ∈ A := (Finset.mem_insert.1 hv).resolve_left hvz
      have hvp : v ≠ p := ne_of_mem_of_not_mem hvA hpA
      have hafter : insert p ((insert z A).erase v) = insert z (insert p (A.erase v)) := by
        rw [Finset.erase_insert_of_ne (Ne.symm hvz), Finset.insert_comm]
      have hz' : z ∉ insert p (A.erase v) := by simp [Ne.symm hpz, hz]
      have hv' : v ∉ insert p (A.erase v) := by simp [hvp]
      have hfull' : (insert z (insert p (A.erase v))).card = k := by
        rw [← hafter, Finset.card_insert_of_notMem (by simp [hp]), Finset.card_erase_of_mem hv,
          hfull]
        have hpos := Finset.card_pos.2 ⟨v, hv⟩
        omega
      by_cases hpy : p = y
      · -- now `v` is the odd page of the other cache
        subst hpy
        obtain ⟨m', h', hle⟩ := ih hz' hv' (Ne.symm hvz) hfull' hafter.symm
        have hsame : insert v (insert p (A.erase v)) = insert p A := by
          rw [Finset.insert_comm, Finset.insert_erase hvA]
        rw [hsame] at h'
        refine ⟨m', .hit (Finset.mem_insert_self ..) h', hle.trans ?_⟩
        split
        · omega
        · omega
      · have hy' : y ∉ insert p (A.erase v) := by simp [Ne.symm hpy, hy]
        obtain ⟨m', h', hle⟩ := ih hz' hy' hne hfull' hafter.symm
        have hother : insert p ((insert y A).erase v) = insert y (insert p (A.erase v)) := by
          rw [Finset.erase_insert_of_ne (ne_of_mem_of_not_mem hvA hy).symm, Finset.insert_comm]
        refine ⟨m' + 1, .evict (v := v) (by simp [hpy, hpA]) (card_swap hz hy hfull)
          (Finset.mem_insert_of_mem hvA) trivial (hother ▸ h'), ?_⟩
        rw [List.idxOf_cons_ne fut hpz, List.idxOf_cons_ne fut hpy]
        simp only [Nat.succ_eq_add_one, Nat.add_lt_add_iff_right]
        omega

/-- **Evicting the farthest next use makes the fewest misses.** -/
theorem farthest_least {m' : ℕ} (h : Serves k Farthest C fut m) (h' : Serves k AnyVictim C fut m') :
    m ≤ m' := by
  induction h generalizing m' with
  | nil => exact Nat.zero_le _
  | hit hp _ ih =>
    cases h' with
    | hit _ h' => exact ih h'
    | free hp' _ _ => exact absurd hp hp'
    | evict hp' _ _ _ _ => exact absurd hp hp'
  | free hp hcard _ ih =>
    cases h' with
    | hit hp' _ => exact absurd hp' hp
    | free _ _ h' => exact Nat.succ_le_succ (ih h')
    | evict _ hcard' _ _ _ => omega
  | @evict C p v fut m hp hcard hv hfar _ ih =>
    cases h' with
    | hit hp' _ => exact absurd hp' hp
    | free _ hcard' _ => omega
    | @evict _ _ w _ m' _ _ hw _ h' =>
      refine Nat.succ_le_succ ?_
      by_cases hvw : v = w
      · subst hvw
        exact ih h'
      · -- the run that evicted `w` still has `v`, which is not requested before `w`
        have hwv : insert p (C.erase w) = insert v (insert p ((C.erase w).erase v)) := by
          rw [Finset.insert_comm, Finset.insert_erase (Finset.mem_erase.2 ⟨hvw, hv⟩)]
        have hvw' : insert p (C.erase v) = insert w (insert p ((C.erase w).erase v)) := by
          rw [Finset.erase_right_comm, Finset.insert_comm,
            Finset.insert_erase (Finset.mem_erase.2 ⟨Ne.symm hvw, hw⟩)]
        have hfull : (insert v (insert p ((C.erase w).erase v))).card = k := by
          rw [← hwv, Finset.card_insert_of_notMem (by simp [hp]), Finset.card_erase_of_mem hw]
          have hpos := Finset.card_pos.2 ⟨w, hw⟩
          omega
        rw [hwv] at h'
        have hvp : v ≠ p := ne_of_mem_of_not_mem hv hp
        have hwp : w ≠ p := ne_of_mem_of_not_mem hw hp
        obtain ⟨m'', h'', hle⟩ := h'.swap (y := w) (by simp [hvp]) (by simp [hwp]) hvw hfull
        rw [← hvw'] at h''
        rw [if_neg (Nat.not_lt.2 (hfar w hw))] at hle
        exact (ih h'').trans hle

end Caching
