import Cscc69.Lib.Competitive

/-!
# Least recently used

`past` has the requests so far, the newest first. The cache that always evicts the least recently
requested page holds the first `k` pages of `recent past`, the list without the repetitions; which
request finds its page there depends on nothing but the pages requested since the last request for
it (`near_iff`). The number of misses, `farRequests`, can so be read off the requests. It does not
grow with the size of the cache (`farRequests_anti`), and the cache is patient
(`farRequests_patient`).
-/

namespace Caching

variable {α : Type*} [DecidableEq α] {k : ℕ} {p q v : α} {l past fut : List α}

/-- The pages in the order of their last requests. -/
def recent : List α → List α
  | [] => []
  | p :: past => p :: (recent past).erase p

/-- `p` was requested before, and fewer than `k` different pages since. -/
def Near (k : ℕ) (past : List α) (p : α) : Prop :=
  p ∈ past ∧ (past.takeWhile (· ≠ p)).toFinset.card < k

instance : Decidable (Near k past p) := by unfold Near; infer_instance

/-- The requests of `fut` for pages that are not near. -/
def farRequests (k : ℕ) : List α → List α → ℕ
  | _, [] => 0
  | past, p :: fut => farRequests k (p :: past) fut + if Near k past p then 0 else 1

/-- **No request gets far** when there is more room. -/
theorem farRequests_anti {k' : ℕ} (hle : k ≤ k') (past fut : List α) :
    farRequests k' past fut ≤ farRequests k past fut := by
  induction fut generalizing past with
  | nil => exact le_rfl
  | cons p fut ih =>
    refine Nat.add_le_add (ih (p :: past)) ?_
    by_cases hnear : Near k past p
    · have hnear' : Near k' past p := ⟨hnear.1, hnear.2.trans_le hle⟩
      rw [if_pos hnear']
      exact Nat.zero_le _
    · rw [if_neg hnear]
      split
      · exact Nat.zero_le 1
      · exact le_rfl

theorem farRequests_le (k : ℕ) (past fut : List α) : farRequests k past fut ≤ fut.length := by
  induction fut generalizing past with
  | nil => exact le_rfl
  | cons p fut ih =>
    refine Nat.add_le_add (ih (p :: past)) ?_
    split
    · exact Nat.zero_le 1
    · exact le_rfl

/-! ## The recent pages -/

theorem nodup_recent (past : List α) : (recent past).Nodup := by
  induction past with
  | nil => exact .nil
  | cons p past ih => exact List.nodup_cons.2 ⟨ih.not_mem_erase, ih.erase p⟩

@[simp] theorem mem_recent : q ∈ recent past ↔ q ∈ past := by
  induction past with
  | nil => rfl
  | cons p past ih =>
    rw [recent, List.mem_cons, List.mem_cons]
    refine or_congr_right' fun hne => ?_
    rw [List.mem_erase_of_ne hne, ih]

theorem recent_sorted (past : List α) :
    (recent past).Pairwise fun q q' => past.idxOf q < past.idxOf q' := by
  induction past with
  | nil => exact .nil
  | cons p past ih =>
    have hne : ∀ q ∈ (recent past).erase p, p ≠ q := by
      rintro q hq rfl
      exact (nodup_recent past).not_mem_erase hq
    refine List.pairwise_cons.2 ⟨fun q hq => ?_, ?_⟩
    · rw [List.idxOf_cons_self, List.idxOf_cons_ne _ (hne q hq)]
      exact Nat.succ_pos _
    · refine (ih.sublist List.erase_sublist).imp_of_mem fun {q q'} hq hq' hlt => ?_
      rw [List.idxOf_cons_ne _ (hne q hq), List.idxOf_cons_ne _ (hne q' hq')]
      exact Nat.succ_lt_succ hlt

theorem takeWhile_erase (hne : q ≠ p) (l : List α) :
    (l.erase q).takeWhile (· ≠ p) = (l.takeWhile (· ≠ p)).erase q := by
  induction l with
  | nil => rfl
  | cons r l ih =>
    by_cases hrq : r = q
    · subst hrq
      simp [hne]
    · rw [List.erase_cons_tail (by simpa using hrq)]
      by_cases hrp : r = p
      · simp [hrp]
      · simpa [hrp, hrq] using ih

theorem takeWhile_recent (past : List α) (p : α) :
    ((recent past).takeWhile (· ≠ p)).toFinset = (past.takeWhile (· ≠ p)).toFinset := by
  induction past with
  | nil => rfl
  | cons r past ih =>
    by_cases hrp : r = p
    · simp [recent, hrp]
    · have htail : (recent (r :: past)).takeWhile (· ≠ p) =
          r :: ((recent past).takeWhile (· ≠ p)).erase r := by
        rw [recent, List.takeWhile_cons_of_pos (by simpa using hrp), takeWhile_erase hrp]
      rw [htail, List.takeWhile_cons_of_pos (by simpa using hrp), List.toFinset_cons,
        List.toFinset_cons, ← ih]
      ext q
      by_cases hqr : q = r
      · simp [hqr]
      · simp [hqr, List.mem_erase_of_ne hqr]

theorem mem_take_iff : p ∈ l.take k ↔ p ∈ l ∧ (l.takeWhile (· ≠ p)).length < k := by
  induction l generalizing k with
  | nil => simp
  | cons r l ih =>
    cases k with
    | zero => simp
    | succ k =>
      rw [List.take_succ_cons, List.mem_cons, List.mem_cons, ih]
      by_cases hrp : r = p
      · simp [hrp]
      · simp [hrp, Ne.symm hrp]

/-- **The pages that are near are the first `k`.** -/
theorem near_iff : Near k past p ↔ p ∈ (recent past).take k := by
  have hnodup := (nodup_recent past).sublist (List.takeWhile_sublist (p := (· ≠ p)))
  rw [mem_take_iff, mem_recent, ← List.toFinset_card_of_nodup hnodup, takeWhile_recent]
  rfl

/-! ## The first pages after a request -/

theorem take_erase_of_mem (h : p ∈ l.take (k + 1)) :
    (l.erase p).take k = (l.take (k + 1)).erase p := by
  induction l generalizing k with
  | nil => simp
  | cons r l ih =>
    by_cases hrp : r = p
    · simp [hrp]
    · rw [List.take_succ_cons, List.mem_cons] at h
      have hl := h.resolve_left (Ne.symm hrp)
      cases k with
      | zero => exact absurd hl (by simp)
      | succ k =>
        rw [List.erase_cons_tail (by simpa using hrp), List.take_succ_cons, ih hl,
          List.take_succ_cons, List.erase_cons_tail (by simpa using hrp)]

theorem take_erase_of_notMem (h : p ∉ l.take k) : (l.erase p).take k = l.take k := by
  induction l generalizing k with
  | nil => rfl
  | cons r l ih =>
    cases k with
    | zero => rfl
    | succ k =>
      rw [List.take_succ_cons, List.mem_cons, not_or] at h
      rw [List.erase_cons_tail (by simpa using Ne.symm h.1), List.take_succ_cons,
        List.take_succ_cons, ih h.2]

/-- The cache. -/
def lruCache (k : ℕ) (past : List α) : Finset α := ((recent past).take k).toFinset

@[simp] theorem lruCache_nil (k : ℕ) : lruCache k ([] : List α) = ∅ := by
  rw [lruCache, recent, List.take_nil, List.toFinset_nil]

@[simp] theorem mem_lruCache : p ∈ lruCache k past ↔ Near k past p := by
  rw [lruCache, List.mem_toFinset, near_iff]

theorem lruCache_hit (h : Near k past p) : lruCache k (p :: past) = lruCache k past := by
  rw [near_iff] at h
  cases k with
  | zero => rfl
  | succ k =>
    unfold lruCache
    rw [recent, List.take_succ_cons, take_erase_of_mem h, List.toFinset_cons]
    ext q
    by_cases hq : q = p
    · simp [hq, h]
    · simp [hq, List.mem_erase_of_ne hq]

theorem card_lruCache (k : ℕ) (past : List α) :
    (lruCache k past).card = min k (recent past).length := by
  rw [lruCache, List.toFinset_card_of_nodup ((nodup_recent past).sublist (List.take_sublist _ _)),
    List.length_take]

/-- The cache holds all pages, or it is full and the last of the first `k` pages goes. -/
theorem lruCache_miss (hk : 0 < k) (h : ¬ Near k past p) :
    (lruCache k past).card < k ∧ lruCache k (p :: past) = insert p (lruCache k past) ∨
    (lruCache k past).card = k ∧ ∃ v ∈ lruCache k past,
      (∀ q ∈ lruCache k past, q ≠ v → past.idxOf q < past.idxOf v) ∧
      lruCache k (p :: past) = insert p ((lruCache k past).erase v) := by
  obtain ⟨k, rfl⟩ := Nat.exists_eq_succ_of_ne_zero hk.ne'
  rw [near_iff] at h
  have hcons : lruCache (k + 1) (p :: past) = insert p ((recent past).take k).toFinset := by
    have hp : p ∉ (recent past).take k := fun hp =>
      h ((List.take_sublist_take_left (Nat.le_succ k)).subset hp)
    unfold lruCache
    rw [recent, List.take_succ_cons, take_erase_of_notMem hp, List.toFinset_cons]
  rw [hcons, card_lruCache]
  obtain hle | hlt := Nat.lt_or_ge k (recent past).length
  · refine .inr ⟨Nat.min_eq_left hle, (recent past)[k], ?_⟩
    have htake : (recent past).take (k + 1) = (recent past).take k ++ [(recent past)[k]] :=
      List.take_succ_eq_append_getElem hle
    have hnodup := (nodup_recent past).sublist (List.take_sublist (k + 1) _)
    have hsorted := (recent_sorted past).sublist (List.take_sublist (k + 1) _)
    rw [htake] at hnodup hsorted
    have hlast : (recent past)[k] ∉ (recent past).take k := fun hmem =>
      (List.nodup_append.1 hnodup).2.2 _ hmem _ List.mem_cons_self rfl
    have hmem : ∀ q, q ∈ lruCache (k + 1) past ↔
        q ∈ (recent past).take k ∨ q = (recent past)[k] := by
      intro q
      rw [lruCache, htake, List.mem_toFinset, List.mem_append, List.mem_singleton]
    refine ⟨(hmem _).2 (.inr rfl), fun q hq hne => ?_, congrArg (insert p) (Finset.ext fun q => ?_)⟩
    · exact (List.pairwise_append.1 hsorted).2.2 q (((hmem q).1 hq).resolve_right hne) _
        List.mem_cons_self
    · rw [List.mem_toFinset, Finset.mem_erase, hmem]
      obtain rfl | hne := eq_or_ne q (recent past)[k]
      · simp [hlast]
      · simp [hne]
  · refine .inl ⟨?_, ?_⟩
    · omega
    · unfold lruCache
      rw [List.take_of_length_le hlt, List.take_of_length_le (hlt.trans (Nat.le_succ k))]

/-! ## Patience -/

/-- **The cache of the most recent pages is patient**, and misses the pages that are not near. -/
theorem farRequests_patient (hk : 0 < k) {since : α → Finset α}
    (hsince : ∀ v ∈ lruCache k past, ∀ q ∈ lruCache k past, past.idxOf q < past.idxOf v →
      q ∈ since v) (fut : List α) :
    Patient k since (lruCache k past) fut (farRequests k past fut) := by
  induction fut generalizing past since with
  | nil => exact .nil
  | cons p fut ih =>
    -- in front of `p` there is no page now, and `p` is in front of all
    have hnote : ∀ v q, v ∈ lruCache k past → (q = p ∨ q ∈ lruCache k past) → v ≠ p →
        (p :: past).idxOf q < (p :: past).idxOf v → q ∈ note since p v := by
      intro v q hv hq hvp hlt
      obtain rfl | hqp := eq_or_ne q p
      · exact Finset.mem_insert_self q _
      · rw [List.idxOf_cons_ne _ hqp.symm, List.idxOf_cons_ne _ hvp.symm] at hlt
        exact Finset.mem_insert_of_mem
          (hsince v hv q (hq.resolve_left hqp) (Nat.lt_of_succ_lt_succ hlt))
    have hfirst : ∀ q, ¬ (p :: past).idxOf q < (p :: past).idxOf p := fun q hlt => by
      rw [List.idxOf_cons_self] at hlt
      exact Nat.not_lt_zero _ hlt
    have hload : ∀ C ⊆ lruCache k past, lruCache k (p :: past) = insert p C →
        Patient k (noteLoad since p) (insert p C) fut (farRequests k (p :: past) fut) := by
      intro C hC hcache
      rw [← hcache]
      refine ih fun v hv q hq hlt => ?_
      rw [hcache] at hv hq
      obtain rfl | hvp := eq_or_ne v p
      · exact absurd hlt (hfirst q)
      · rw [noteLoad, Function.update_of_ne hvp]
        exact hnote v q (hC ((Finset.mem_insert.1 hv).resolve_left hvp))
          ((Finset.mem_insert.1 hq).imp_right fun h => hC h) hvp hlt
    unfold farRequests
    by_cases hnear : Near k past p
    · rw [if_pos hnear, Nat.add_zero]
      refine .hit (mem_lruCache.2 hnear) ?_
      rw [← lruCache_hit hnear]
      refine ih fun v hv q hq hlt => ?_
      rw [lruCache_hit hnear] at hv hq
      obtain rfl | hvp := eq_or_ne v p
      · exact absurd hlt (hfirst q)
      · exact hnote v q hv (.inr hq) hvp hlt
    · rw [if_neg hnear]
      have hnot : p ∉ lruCache k past := fun hp => hnear (mem_lruCache.1 hp)
      obtain ⟨hcard, hcache⟩ | ⟨hcard, v, hv, hold, hcache⟩ := lruCache_miss hk hnear
      · exact .free hnot hcard (hload _ subset_rfl hcache)
      · refine .evict hnot hcard hv (fun q hq => ?_) (hload _ (Finset.erase_subset _ _) hcache)
        obtain ⟨hqv, hq⟩ := Finset.mem_erase.1 hq
        exact hsince v hv q hq (hold q hq hqv)

end Caching
