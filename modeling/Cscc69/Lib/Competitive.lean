import Cscc69.Lib.Caching
import Cscc69.Lib.Epochs
import Mathlib.Tactic.Ring

/-!
# How many misses are too many

Three bounds on the misses of demand paging that hold whatever the requests are.

* **Every page must be loaded once** (`Serves.card_sdiff_le`), and with room for all pages no page
  is loaded twice (`Serves.eq_card_sdiff`).
* **Paging is competitive** (`Patient.competitive`). A patient cache evicts a page only if every
  other page that it holds was requested since the page was loaded. Served with `k` pages, a list
  of requests makes it miss at most `k / (k + 1 - h)` times as often as any other cache of `h`
  pages, up to a constant.
* **More room does no harm** to the best run (`Serves.mono`), nor does dropping a request
  (`Serves.sublist`). When only the first request for a page is left in each epoch, room for as many
  pages more as an epoch has makes up for the others (`Serves.expand`).

For the second the requests are cut into epochs of `k` different pages. A patient cache misses a
page at most once in an epoch (`Patient.epoch_le`). Any other cache holds the first page of an epoch
and `h - 1` others, while `k` other pages come before the first page of the next epoch is served; so
that it misses `k + 1 - h` times (`Serves.epochs_le`). For the third the requests are served by a
`Schedule`, which may hold pages that nobody asked for and may drop pages at any time; a demand
pager that waits for the misses does as well (`Schedule.serves`).
-/

namespace Caching

variable {α : Type*} [DecidableEq α] {k h m : ℕ} {A C : Finset α} {p v z : α} {ps qs : List α}
  {Q : Finset α → List α → α → Prop} {since : α → Finset α}

/-! ## Every page must be loaded -/

/-- **Every page that is not in the cache makes a miss.** -/
theorem Serves.card_sdiff_le (hs : Serves k Q C ps m) : (ps.toFinset \ C).card ≤ m := by
  induction hs with
  | nil => simp
  | @hit C p fut m hp _ ih =>
    rw [List.toFinset_cons, Finset.insert_sdiff_of_mem _ hp]
    exact ih
  | @free C p fut m hp _ _ ih =>
    have hsub : (p :: fut).toFinset \ C ⊆ insert p (fut.toFinset \ insert p C) := by
      intro q
      simp only [List.toFinset_cons, Finset.mem_sdiff, Finset.mem_insert]
      tauto
    exact (Finset.card_le_card hsub).trans ((Finset.card_insert_le _ _).trans
      (Nat.succ_le_succ ih))
  | @evict C p v fut m hp _ _ _ _ ih =>
    have hsub : (p :: fut).toFinset \ C ⊆ insert p (fut.toFinset \ insert p (C.erase v)) := by
      intro q
      simp only [List.toFinset_cons, Finset.mem_sdiff, Finset.mem_insert, Finset.mem_erase]
      tauto
    exact (Finset.card_le_card hsub).trans ((Finset.card_insert_le _ _).trans
      (Nat.succ_le_succ ih))

/-- **With room for all pages** there are no other misses. -/
theorem Serves.eq_card_sdiff (hs : Serves k Q C ps m) (hroom : (C ∪ ps.toFinset).card ≤ k) :
    m = (ps.toFinset \ C).card := by
  induction hs with
  | nil => simp
  | @hit C p fut m hp _ ih =>
    rw [List.toFinset_cons, Finset.insert_sdiff_of_mem _ hp]
    refine ih ((Finset.card_le_card ?_).trans hroom)
    exact Finset.union_subset_union_right (by simp [List.toFinset_cons])
  | @free C p fut m hp _ _ ih =>
    have hunion : insert p C ∪ fut.toFinset = C ∪ (p :: fut).toFinset := by
      rw [List.toFinset_cons, Finset.insert_union, Finset.union_insert]
    have hsdiff : (p :: fut).toFinset \ C = insert p (fut.toFinset \ insert p C) := by
      ext q
      simp only [List.toFinset_cons, Finset.mem_sdiff, Finset.mem_insert]
      by_cases hq : q = p
      · simp [hq, hp]
      · simp [hq]
    rw [hsdiff, Finset.card_insert_of_notMem (by simp), ← ih (by rwa [hunion])]
  | @evict C p v fut m hp hfull _ _ _ _ =>
    have hsub : insert p C ⊆ C ∪ (p :: fut).toFinset := by
      intro q
      simp only [List.toFinset_cons, Finset.mem_insert, Finset.mem_union]
      tauto
    have hcard := Finset.card_le_card hsub
    rw [Finset.card_insert_of_notMem hp] at hcard
    omega

/-! ## Cutting a run -/

/-- After a request its page is in the cache. -/
theorem Serves.split (hs : Serves k AnyVictim C (ps ++ p :: qs) m) (hC : C.card ≤ k) :
    ∃ C' m₁ m₂, Serves k AnyVictim C (ps ++ [p]) m₁ ∧ Serves k AnyVictim C' qs m₂ ∧
      m = m₁ + m₂ ∧ p ∈ C' ∧ C'.card ≤ k := by
  induction ps generalizing C m with
  | nil =>
    cases hs with
    | hit hp hs => exact ⟨C, 0, m, .hit hp .nil, hs, (Nat.zero_add m).symm, hp, hC⟩
    | @free _ _ _ m hp hcard hs =>
      exact ⟨_, 1, m, .free hp hcard .nil, hs, Nat.add_comm m 1, Finset.mem_insert_self _ _,
        (Finset.card_insert_le _ _).trans hcard⟩
    | @evict _ _ _ _ m hp hcard hv hQ hs =>
      refine ⟨_, 1, m, .evict hp hcard hv hQ .nil, hs, Nat.add_comm m 1,
        Finset.mem_insert_self _ _, (Finset.card_insert_le _ _).trans ?_⟩
      rw [Finset.card_erase_add_one hv, hcard]
  | cons q ps ih =>
    cases hs with
    | hit hq hs =>
      obtain ⟨C', m₁, m₂, h₁, h₂, hm, hp, hC'⟩ := ih hs hC
      exact ⟨C', m₁, m₂, .hit hq h₁, h₂, hm, hp, hC'⟩
    | free hq hcard hs =>
      obtain ⟨C', m₁, m₂, h₁, h₂, rfl, hp, hC'⟩ := ih hs ((Finset.card_insert_le _ _).trans hcard)
      exact ⟨C', m₁ + 1, m₂, .free hq hcard h₁, h₂, Nat.add_right_comm m₁ m₂ 1, hp, hC'⟩
    | evict hq hcard hv hQ hs =>
      obtain ⟨C', m₁, m₂, h₁, h₂, rfl, hp, hC'⟩ := ih hs (by
        refine (Finset.card_insert_le _ _).trans ?_
        rw [Finset.card_erase_add_one hv, hcard])
      exact ⟨C', m₁ + 1, m₂, .evict hq hcard hv hQ h₁, h₂, Nat.add_right_comm m₁ m₂ 1, hp, hC'⟩

open Epochs in
/-- **From each epoch to the next** a cache of `h` pages misses `k + 1 - h` times. -/
theorem Serves.epochs_le {es : List (List α)}
    (hchain : ((p :: ps) :: es).IsChain (Closes id k))
    (hs : Serves h AnyVictim C (ps ++ es.flatten) m) (hp : p ∈ C) (hC : C.card ≤ h) :
    es.length * (k + 1 - h) ≤ m := by
  induction es generalizing p ps C m with
  | nil => exact (Nat.zero_mul _).trans_le (Nat.zero_le m)
  | cons e es ih =>
    obtain ⟨⟨hcard, a, as, rfl, hnew⟩, hchain⟩ := List.isChain_cons_cons.1 hchain
    rw [List.map_id] at hcard hnew
    rw [List.flatten_cons, List.cons_append] at hs
    obtain ⟨C', m₁, m₂, h₁, h₂, rfl, ha, hC'⟩ := hs.split hC
    -- `k + 1` pages are requested, of which `C` has at most `h`
    have hpages : (insert a (p :: ps).toFinset).card = k + 1 := by
      rw [Finset.card_insert_of_notMem (by rwa [List.mem_toFinset]), hcard]
    have hsub : insert a (p :: ps).toFinset \ C ⊆ (ps ++ [a]).toFinset \ C := by
      intro q hq
      obtain ⟨hq, hqC⟩ := Finset.mem_sdiff.1 hq
      have hqp : q ≠ p := by
        rintro rfl
        exact hqC hp
      refine Finset.mem_sdiff.2 ⟨?_, hqC⟩
      simp only [List.toFinset_cons, Finset.mem_insert, List.mem_toFinset] at hq
      simp only [List.toFinset_append, Finset.mem_union, List.mem_toFinset, List.mem_singleton]
      tauto
    have hmiss := (Finset.card_le_card hsub).trans h₁.card_sdiff_le
    have hle := Finset.le_card_sdiff C (insert a (p :: ps).toFinset)
    have hrest := ih hchain h₂ ha hC'
    rw [List.length_cons, Nat.succ_mul]
    omega

/-! ## Patient caches -/

/-- The pages requested since each page was loaded, after a request of `p`. -/
def note (since : α → Finset α) (p : α) : α → Finset α := fun q => insert p (since q)

/-- And when `p` has been loaded for it. -/
def noteLoad (since : α → Finset α) (p : α) : α → Finset α := Function.update (note since p) p ∅

/-- A page is evicted only if all others in the cache were requested since it was loaded. -/
inductive Patient (k : ℕ) : (α → Finset α) → Finset α → List α → ℕ → Prop
  | nil {since : α → Finset α} {C : Finset α} : Patient k since C [] 0
  | hit {since : α → Finset α} {C : Finset α} {p : α} {fut : List α} {m : ℕ} : p ∈ C →
      Patient k (note since p) C fut m → Patient k since C (p :: fut) m
  | free {since : α → Finset α} {C : Finset α} {p : α} {fut : List α} {m : ℕ} : p ∉ C →
      C.card < k → Patient k (noteLoad since p) (insert p C) fut m →
      Patient k since C (p :: fut) (m + 1)
  | evict {since : α → Finset α} {C : Finset α} {p v : α} {fut : List α} {m : ℕ} : p ∉ C →
      C.card = k → v ∈ C → C.erase v ⊆ since v →
      Patient k (noteLoad since p) (insert p (C.erase v)) fut m →
      Patient k since C (p :: fut) (m + 1)

theorem noteLoad_subset {W L : Finset α} (h : ∀ v ∈ L, since v ⊆ W) :
    ∀ v ∈ insert p L, noteLoad since p v ⊆ insert p W := by
  intro v hv
  by_cases hvp : v = p
  · rw [noteLoad, hvp, Function.update_self]
    exact Finset.empty_subset _
  · rw [noteLoad, Function.update_of_ne hvp]
    exact Finset.insert_subset_insert p (h v ((Finset.mem_insert.1 hv).resolve_left hvp))

/-- **In an epoch no page is missed twice.** `W` are the pages requested in it so far, and `L` those
that have been loaded; they are still there. -/
theorem Patient.epoch {W L : Finset α} (hs : Patient k since C (ps ++ qs) m) (hC : C.card ≤ k)
    (hLC : L ⊆ C) (hLW : L ⊆ W) (hsince : ∀ v ∈ L, since v ⊆ W)
    (hfew : (W ∪ ps.toFinset).card ≤ k) :
    ∃ since' C' m₁ m₂, Patient k since' C' qs m₂ ∧ m = m₁ + m₂ ∧ C'.card ≤ k ∧
      L.card + m₁ ≤ (W ∪ ps.toFinset).card := by
  induction ps generalizing since C m W L with
  | nil =>
    refine ⟨since, C, 0, m, hs, (Nat.zero_add m).symm, hC, ?_⟩
    exact Finset.card_le_card (hLW.trans Finset.subset_union_left)
  | cons p ps ih =>
    have hW : W ∪ (p :: ps).toFinset = insert p W ∪ ps.toFinset := by
      rw [List.toFinset_cons, Finset.insert_union, Finset.union_insert]
    rw [hW] at hfew ⊢
    have hLW' : insert p L ⊆ insert p W := Finset.insert_subset_insert p hLW
    cases hs with
    | hit hp hs =>
      exact ih hs hC hLC (hLW.trans (Finset.subset_insert p W))
        (fun v hv => Finset.insert_subset_insert p (hsince v hv)) hfew
    | @free _ _ _ _ m hp hcard hs =>
      obtain ⟨since', C', m₁, m₂, h₂, rfl, hC', hle⟩ := ih hs
        ((Finset.card_insert_le _ _).trans hcard) (Finset.insert_subset_insert p hLC) hLW'
        (noteLoad_subset hsince) hfew
      rw [Finset.card_insert_of_notMem fun hmem => hp (hLC hmem)] at hle
      exact ⟨since', C', m₁ + 1, m₂, h₂, Nat.add_right_comm m₁ m₂ 1, hC', by omega⟩
    | @evict _ _ _ v _ m hp hcard hv hothers hs =>
      -- if the victim had been loaded in this epoch, `k + 1` pages would have been requested
      have hvL : v ∉ L := by
        intro hvL
        have hsub : insert p C ⊆ insert p W ∪ ps.toFinset := by
          refine (Finset.insert_subset_insert p ?_).trans Finset.subset_union_left
          rw [← Finset.insert_erase hv]
          exact Finset.insert_subset (hLW hvL) (hothers.trans (hsince v hvL))
        have hmany := (Finset.card_le_card hsub).trans hfew
        rw [Finset.card_insert_of_notMem hp] at hmany
        omega
      have hLC' : L ⊆ C.erase v := fun q hq =>
        Finset.mem_erase.2 ⟨ne_of_mem_of_not_mem hq hvL, hLC hq⟩
      obtain ⟨since', C', m₁, m₂, h₂, rfl, hC', hle⟩ := ih hs (by
        refine (Finset.card_insert_le _ _).trans ?_
        rw [Finset.card_erase_add_one hv, hcard]) (Finset.insert_subset_insert p hLC') hLW'
        (noteLoad_subset hsince) hfew
      rw [Finset.card_insert_of_notMem fun hmem => hp (hLC hmem)] at hle
      exact ⟨since', C', m₁ + 1, m₂, h₂, Nat.add_right_comm m₁ m₂ 1, hC', by omega⟩

/-- There are no more misses in an epoch than pages. -/
theorem Patient.epoch_le (hs : Patient k since C (ps ++ qs) m) (hC : C.card ≤ k)
    (hps : ps.toFinset.card ≤ k) :
    ∃ since' C' m₁ m₂, Patient k since' C' qs m₂ ∧ m = m₁ + m₂ ∧ C'.card ≤ k ∧
      m₁ ≤ ps.toFinset.card := by
  obtain ⟨since', C', m₁, m₂, h₂, hm, hC', hle⟩ := hs.epoch (L := ∅) (W := ∅) hC
    (Finset.empty_subset _) subset_rfl (fun v hv => absurd hv (Finset.notMem_empty v))
    (by rwa [Finset.empty_union])
  rw [Finset.card_empty, Nat.zero_add, Finset.empty_union] at hle
  exact ⟨since', C', m₁, m₂, h₂, hm, hC', hle⟩

theorem Patient.epochs_le {es : List (List α)} (hs : Patient k since C es.flatten m)
    (hC : C.card ≤ k) (hes : ∀ e ∈ es, e.toFinset.card ≤ k) : m ≤ es.length * k := by
  induction es generalizing since C m with
  | nil =>
    cases hs
    exact Nat.zero_le _
  | cons e es ih =>
    obtain ⟨since', C', m₁, m₂, h₂, rfl, hC', hle⟩ := Patient.epoch_le hs hC
      (hes e List.mem_cons_self)
    have hrest := ih h₂ hC' fun e' he' => hes e' (List.mem_cons_of_mem e he')
    have hfirst := hle.trans (hes e List.mem_cons_self)
    rw [List.length_cons, Nat.succ_mul]
    omega

/-- **A patient cache is competitive** with any cache of no more pages. -/
theorem Patient.competitive {m' : ℕ} (hk : 0 < k) (hle : h ≤ k) (hs : Patient k since ∅ ps m)
    (hs' : Serves h AnyVictim ∅ ps m') : (k + 1 - h) * m ≤ k * (m' + (k - h)) := by
  have hcut : Epochs.Cut id k ps _ _ := Epochs.epochs_cut hk ps
  obtain ⟨es, hes, hflat⟩ : ∃ es, (Epochs.epochs id k ps).1 ++ [(Epochs.epochs id k ps).2] = es ∧
      es.flatten = ps := ⟨_, rfl, by rw [List.flatten_concat, hcut.flatten]⟩
  have hchain := hcut.closed
  have hfew := hcut.card_le
  rw [hes] at hchain hfew
  simp only [List.map_id] at hfew
  rw [← hflat] at hs hs'
  have hmost := hs.epochs_le (Nat.zero_le k) hfew
  obtain rfl | hne := eq_or_ne m 0
  · exact (Nat.mul_zero _).trans_le (Nat.zero_le _)
  -- the first request is a miss for both
  obtain ⟨p, ps₁, es', rfl⟩ : ∃ p ps₁ es', es = (p :: ps₁) :: es' := by
    obtain ⟨e, es', rfl⟩ : ∃ e es', es = e :: es' := by
      refine List.exists_cons_of_ne_nil ?_
      rintro rfl
      exact absurd hes (by simp)
    cases e with
    | cons p ps₁ => exact ⟨p, ps₁, es', rfl⟩
    | nil =>
      cases es' with
      | nil =>
        cases hs
        exact absurd rfl hne
      | cons e' es' =>
        have hcard := (List.isChain_cons_cons.1 hchain).1.1
        exact absurd hcard hk.ne
  rw [List.flatten_cons, List.cons_append] at hs'
  cases hs' with
  | hit hp _ => exact absurd hp (Finset.notMem_empty p)
  | evict _ _ hv _ _ => exact absurd hv (Finset.notMem_empty _)
  | @free _ _ _ m'' _ hcard hs' =>
    have hleast := hs'.epochs_le hchain (Finset.mem_insert_self p ∅)
      ((Finset.card_insert_le _ _).trans hcard)
    calc (k + 1 - h) * m ≤ (k + 1 - h) * ((es'.length + 1) * k) := Nat.mul_le_mul_left _ hmost
      _ = k * (es'.length * (k + 1 - h) + (k + 1 - h)) := by ring
      _ ≤ k * (m'' + (k + 1 - h)) := Nat.mul_le_mul_left k (Nat.add_le_add_right hleast _)
      _ = k * (m'' + 1 + (k - h)) := by rw [Nat.succ_sub hle, Nat.succ_eq_add_one, Nat.add_assoc,
          Nat.add_comm 1]

/-! ## Any schedule can wait for the misses -/

/-- A schedule that gives up pages whenever it likes. `N` are the pages that it needs. -/
inductive Schedule (k : ℕ) : Finset α → List α → ℕ → Prop
  | nil {N : Finset α} : Schedule k N [] 0
  | keep {N N' : Finset α} {p : α} {fut : List α} {m : ℕ} : p ∈ N → N' ⊆ N →
      Schedule k N' fut m → Schedule k N (p :: fut) m
  | load {N N' : Finset α} {p : α} {fut : List α} {m : ℕ} : p ∉ N → N' ⊆ insert p N →
      (insert p N').card ≤ k → Schedule k N' fut m → Schedule k N (p :: fut) (m + 1)

theorem Serves.schedule {k' : ℕ} (hs : Serves k Q C ps m) (hle : k ≤ k') : Schedule k' C ps m := by
  induction hs with
  | nil => exact .nil
  | hit hp _ ih => exact .keep hp subset_rfl ih
  | free hp hcard _ ih =>
    refine .load hp subset_rfl ?_ ih
    rw [Finset.insert_idem]
    exact (Finset.card_insert_le _ _).trans (hcard.trans_le hle)
  | evict hp hcard hv _ _ ih =>
    refine .load hp (Finset.insert_subset_insert _ (Finset.erase_subset _ _)) ?_ ih
    rw [Finset.insert_idem]
    refine (Finset.card_insert_le _ _).trans ?_
    rw [Finset.card_erase_add_one hv, hcard]
    exact hle

/-- **Waiting is no worse**: a cache that has all pages that a schedule needs makes no more misses
when it gives up a page only for another one. -/
theorem Schedule.serves {N D : Finset α} (hs : Schedule k N ps m) (hND : N ⊆ D) (hD : D.card ≤ k) :
    ∃ m' ≤ m, Serves k AnyVictim D ps m' := by
  induction hs generalizing D with
  | nil => exact ⟨0, le_rfl, .nil⟩
  | keep hp hsub _ ih =>
    obtain ⟨m', hm, hs'⟩ := ih (hsub.trans hND) hD
    exact ⟨m', hm, .hit (hND hp) hs'⟩
  | @load N N' p fut m hp hsub hcard _ ih =>
    have hN' : N' ⊆ insert p D := hsub.trans (Finset.insert_subset_insert p hND)
    by_cases hpD : p ∈ D
    · obtain ⟨m', hm, hs'⟩ := ih (hN'.trans_eq (Finset.insert_eq_of_mem hpD)) hD
      exact ⟨m', hm.trans (Nat.le_succ m), .hit hpD hs'⟩
    obtain hlt | heq := hD.lt_or_eq
    · obtain ⟨m', hm, hs'⟩ := ih hN' ((Finset.card_insert_le _ _).trans hlt)
      exact ⟨m' + 1, Nat.succ_le_succ hm, .free hpD hlt hs'⟩
    · -- some page of the full cache is not needed
      obtain ⟨v, hv, hvN⟩ : ∃ v ∈ D, v ∉ N' := by
        by_contra hall
        push Not at hall
        have hmany := (Finset.card_le_card (Finset.insert_subset_insert p hall)).trans hcard
        rw [Finset.card_insert_of_notMem hpD] at hmany
        omega
      have hN'' : N' ⊆ insert p (D.erase v) := by
        intro q hq
        refine (Finset.mem_insert.1 (hN' hq)).elim (fun h => h ▸ Finset.mem_insert_self _ _) ?_
        intro hqD
        exact Finset.mem_insert_of_mem (Finset.mem_erase.2 ⟨ne_of_mem_of_not_mem hq hvN, hqD⟩)
      obtain ⟨m', hm, hs'⟩ := ih hN'' (by
        refine (Finset.card_insert_le _ _).trans ?_
        rw [Finset.card_erase_add_one hv, heq])
      exact ⟨m' + 1, Nat.succ_le_succ hm, .evict hpD heq hv trivial hs'⟩

/-- **More room and more pages** do not make more misses necessary. -/
theorem Serves.mono {k' : ℕ} {D : Finset α} (hs : Serves k Q C ps m) (hle : k ≤ k') (hCD : C ⊆ D)
    (hD : D.card ≤ k') : ∃ m' ≤ m, Serves k' AnyVictim D ps m' :=
  (hs.schedule hle).serves hCD hD

/-- Without one of its pages a schedule makes one more miss at most. -/
theorem Schedule.erase {N : Finset α} (hs : Schedule k N ps m) (hN : N.card ≤ k) (z : α) :
    ∃ m' ≤ m + 1, Schedule k (N.erase z) ps m' := by
  induction hs with
  | nil => exact ⟨0, Nat.zero_le _, .nil⟩
  | @keep N N' p fut m hp hsub hs ih =>
    by_cases hpz : p = z
    · subst hpz
      refine ⟨m + 1, le_rfl, .load (Finset.notMem_erase p N) ?_ ?_ hs⟩
      · rwa [Finset.insert_erase hp]
      · exact (Finset.card_le_card (Finset.insert_subset hp hsub)).trans hN
    · obtain ⟨m', hm, hs'⟩ := ih ((Finset.card_le_card hsub).trans hN)
      exact ⟨m', hm, .keep (Finset.mem_erase.2 ⟨hpz, hp⟩) (Finset.erase_subset_erase z hsub) hs'⟩
  | @load N N' p fut m hp hsub hcard hs ih =>
    by_cases hpz : p = z
    · subst hpz
      refine ⟨m + 1, Nat.le_succ _, .load (Finset.notMem_erase p N) ?_ hcard hs⟩
      rwa [Finset.erase_eq_of_notMem hp]
    · obtain ⟨m', hm, hs'⟩ := ih
        ((Finset.card_le_card (Finset.subset_insert p N')).trans hcard)
      refine ⟨m' + 1, Nat.succ_le_succ hm, .load (fun hmem => hp (Finset.mem_of_mem_erase hmem))
        ?_ ?_ hs'⟩
      · rw [← Finset.erase_insert_of_ne hpz]
        exact Finset.erase_subset_erase z hsub
      · exact (Finset.card_le_card (Finset.insert_subset_insert p
          (Finset.erase_subset z N'))).trans hcard

theorem Serves.anyVictim (hs : Serves k Q C ps m) : Serves k AnyVictim C ps m := by
  induction hs with
  | nil => exact .nil
  | hit hp _ ih => exact .hit hp ih
  | free hp hcard _ ih => exact .free hp hcard ih
  | evict hp hcard hv _ _ ih => exact .evict hp hcard hv trivial ih

/-- Without the first request there are no more misses. -/
theorem Serves.tail (hs : Serves k Q C (p :: ps) m) (hC : C.card ≤ k) :
    ∃ m' ≤ m, Serves k AnyVictim C ps m' := by
  cases hs with
  | hit _ hs => exact hs.mono le_rfl subset_rfl hC
  | @free _ _ _ m _ hcard hs =>
    obtain ⟨m₁, hm₁, hs₁⟩ := (hs.schedule le_rfl).erase ((Finset.card_insert_le _ _).trans hcard) p
    obtain ⟨m₂, hm₂, hs₂⟩ := hs₁.serves (Finset.erase_insert_subset p C) hC
    exact ⟨m₂, hm₂.trans hm₁, hs₂⟩
  | @evict _ _ v _ m _ hcard hv _ hs =>
    obtain ⟨m₁, hm₁, hs₁⟩ := (hs.schedule le_rfl).erase ((Finset.card_insert_le _ _).trans (by
      rw [Finset.card_erase_add_one hv, hcard])) p
    obtain ⟨m₂, hm₂, hs₂⟩ := hs₁.serves
      ((Finset.erase_insert_subset p _).trans (Finset.erase_subset v C)) hC
    exact ⟨m₂, hm₂.trans hm₁, hs₂⟩

/-- **Fewer requests** do not make more misses necessary. -/
theorem Serves.sublist (hs : Serves k Q C ps m) (hC : C.card ≤ k) (hsub : qs.Sublist ps) :
    ∃ m' ≤ m, Serves k AnyVictim C qs m' := by
  replace hs := hs.anyVictim
  induction hsub generalizing C m with
  | slnil => exact ⟨m, le_rfl, hs⟩
  | cons p _ ih =>
    obtain ⟨m₁, hm₁, hs₁⟩ := hs.tail hC
    obtain ⟨m₂, hm₂, hs₂⟩ := ih hC hs₁
    exact ⟨m₂, hm₂.trans hm₁, hs₂⟩
  | cons_cons p _ ih =>
    cases hs with
    | hit hp hs =>
      obtain ⟨m', hm', hs'⟩ := ih hC hs
      exact ⟨m', hm', .hit hp hs'⟩
    | free hp hcard hs =>
      obtain ⟨m', hm', hs'⟩ := ih ((Finset.card_insert_le _ _).trans hcard) hs
      exact ⟨m' + 1, Nat.succ_le_succ hm', .free hp hcard hs'⟩
    | evict hp hcard hv _ hs =>
      obtain ⟨m', hm', hs'⟩ := ih ((Finset.card_insert_le _ _).trans (by
        rw [Finset.card_erase_add_one hv, hcard])) hs
      exact ⟨m' + 1, Nat.succ_le_succ hm', .evict hp hcard hv trivial hs'⟩

/-! ## Leaving out repetitions -/

/-- The first requests for pages that are not in `E`. -/
def newPages (E : Finset α) : List α → List α
  | [] => []
  | p :: ps => if p ∈ E then newPages E ps else p :: newPages (insert p E) ps

theorem foldl_newPages {β : Type*} (key : β → α) (fs as : List β) :
    (as.foldl (fun fs a => if key a ∈ fs.map key then fs else fs ++ [a]) fs).map key =
      fs.map key ++ newPages (fs.map key).toFinset (as.map key) := by
  induction as generalizing fs with
  | nil => exact (List.append_nil _).symm
  | cons a as ih =>
    rw [List.foldl_cons, ih, List.map_cons, newPages]
    by_cases ha : key a ∈ fs.map key
    · rw [if_pos ha, if_pos (List.mem_toFinset.2 ha)]
    · rw [if_neg ha, if_neg (mt List.mem_toFinset.1 ha), List.map_append, List.append_assoc,
        List.toFinset_append, List.map_singleton, List.toFinset_cons, List.toFinset_nil,
        Finset.union_comm, Finset.insert_union, Finset.empty_union]
      rfl

/-- The pages of the first items of an epoch. -/
theorem map_firsts {β : Type*} (key : β → α) (as : List β) :
    (Epochs.firsts key as).map key = newPages ∅ (as.map key) := by
  have hfold := foldl_newPages key [] as
  rwa [List.map_nil, List.nil_append, List.toFinset_nil] at hfold

theorem Schedule.mono {N D : Finset α} (hs : Schedule k N ps m) (hND : N ⊆ D) :
    ∃ m' ≤ m, Schedule k D ps m' := by
  cases hs with
  | nil => exact ⟨0, le_rfl, .nil⟩
  | keep hp hsub hs => exact ⟨_, le_rfl, .keep (hND hp) (hsub.trans hND) hs⟩
  | @load _ N' p _ m hp hsub hcard hs =>
    have hN' := hsub.trans (Finset.insert_subset_insert p hND)
    by_cases hpD : p ∈ D
    · exact ⟨m, Nat.le_succ m, .keep hpD (hN'.trans_eq (Finset.insert_eq_of_mem hpD)) hs⟩
    · exact ⟨m + 1, le_rfl, .load hpD hN' hcard hs⟩

/-- With room for all pages none is given up. -/
theorem Schedule.all {N : Finset α} (hroom : (N ∪ ps.toFinset).card ≤ k) :
    ∃ m ≤ ps.toFinset.card, Schedule k N ps m := by
  suffices h : Schedule k N ps (ps.toFinset \ N).card from
    ⟨_, Finset.card_le_card Finset.sdiff_subset, h⟩
  induction ps generalizing N with
  | nil => simpa using Schedule.nil
  | cons p ps ih =>
    rw [List.toFinset_cons] at hroom ⊢
    by_cases hp : p ∈ N
    · rw [Finset.insert_sdiff_of_mem _ hp]
      refine .keep hp subset_rfl (ih ((Finset.card_le_card ?_).trans hroom))
      exact Finset.union_subset_union_right (Finset.subset_insert p _)
    · have hunion : insert p N ∪ ps.toFinset = N ∪ insert p ps.toFinset := by
        rw [Finset.insert_union, Finset.union_insert]
      have hsdiff : insert p ps.toFinset \ N = insert p (ps.toFinset \ insert p N) := by
        ext q
        simp only [Finset.mem_sdiff, Finset.mem_insert]
        by_cases hq : q = p
        · simp [hq, hp]
        · simp [hq]
      rw [hsdiff, Finset.card_insert_of_notMem (by simp)]
      refine .load hp subset_rfl ?_ (ih (by rwa [hunion]))
      rw [Finset.insert_idem]
      exact (Finset.card_le_card (Finset.subset_union_left.trans_eq hunion)).trans hroom

/-- **One epoch**, of which `E` are the pages requested so far. To what `C` holds, its pages are
added. -/
theorem Schedule.epoch {E : Finset α} {rest rest' : List α} {d : ℕ}
    (hs : Serves h AnyVictim C (newPages E ps ++ rest') m) (hC : C.card ≤ h)
    (hfew : (E ∪ ps.toFinset).card ≤ k)
    (hrest : ∀ C' m₁, C'.card ≤ h → Serves h AnyVictim C' rest' m₁ →
      ∃ m₂ ≤ m₁ + d, Schedule (h + k) C' rest m₂) :
    ∃ m' ≤ m + d, Schedule (h + k) (C ∪ E) (ps ++ rest) m' := by
  induction ps generalizing C E m with
  | nil =>
    obtain ⟨m₁, hm₁, hs₁⟩ := hrest C m hC hs
    obtain ⟨m₂, hm₂, hs₂⟩ := hs₁.mono Finset.subset_union_left
    exact ⟨m₂, hm₂.trans hm₁, hs₂⟩
  | cons p ps ih =>
    have hE : E ∪ (p :: ps).toFinset = insert p E ∪ ps.toFinset := by
      rw [List.toFinset_cons, Finset.insert_union, Finset.union_insert]
    by_cases hp : p ∈ E
    · rw [newPages, if_pos hp] at hs
      rw [hE, Finset.insert_eq_of_mem hp] at hfew
      obtain ⟨m', hm', hs'⟩ := ih hs hC hfew
      exact ⟨m', hm', .keep (Finset.mem_union_right C hp) subset_rfl hs'⟩
    rw [newPages, if_neg hp, List.cons_append] at hs
    rw [hE] at hfew
    have hcardE : (insert p E).card ≤ k :=
      (Finset.card_le_card Finset.subset_union_left).trans hfew
    -- what both hold after the request, if `C` is now `insert p D`
    have hload : ∀ {D m'}, p ∉ C → D ⊆ C → (insert p D).card ≤ h →
        Schedule (h + k) (insert p D ∪ insert p E) (ps ++ rest) m' →
        Schedule (h + k) (C ∪ E) (p :: ps ++ rest) (m' + 1) := by
      intro D m' hpC hD hcard hs'
      refine .load (by simp [hpC, hp]) ?_ ?_ hs'
      · rw [← Finset.insert_union_distrib]
        exact Finset.insert_subset_insert p (Finset.union_subset_union_left hD)
      · rw [Finset.insert_eq_of_mem (by simp)]
        exact (Finset.card_union_le _ _).trans (Nat.add_le_add hcard hcardE)
    cases hs with
    | hit hpC hs =>
      obtain ⟨m', hm', hs'⟩ := ih hs hC hfew
      rw [Finset.union_insert, Finset.insert_eq_of_mem (Finset.mem_union_left E hpC)] at hs'
      exact ⟨m', hm', .keep (Finset.mem_union_left E hpC) subset_rfl hs'⟩
    | free hpC hcard hs =>
      have hcard' := (Finset.card_insert_le p C).trans hcard
      obtain ⟨m', hm', hs'⟩ := ih hs hcard' hfew
      exact ⟨m' + 1, by omega, hload hpC subset_rfl hcard' hs'⟩
    | @evict _ _ v _ _ hpC hcard hv _ hs =>
      have hcard' : (insert p (C.erase v)).card ≤ h := by
        refine (Finset.card_insert_le _ _).trans ?_
        rw [Finset.card_erase_add_one hv, hcard]
      obtain ⟨m', hm', hs'⟩ := ih hs hcard' hfew
      exact ⟨m' + 1, by omega, hload hpC (Finset.erase_subset v C) hcard' hs'⟩

/-- **The repetitions in an epoch cost nothing** if there is room for its pages. -/
theorem Serves.expand {es : List (List α)} {last : List α} (hes : ∀ e ∈ es, e.toFinset.card ≤ k)
    (hlast : last.toFinset.card ≤ k)
    (hs : Serves h Q ∅ (es.map (newPages ∅)).flatten m) :
    ∃ m' ≤ m + last.toFinset.card, Serves (h + k) AnyVictim ∅ (es.flatten ++ last) m' := by
  suffices hall : ∀ C m, C.card ≤ h → Serves h AnyVictim C (es.map (newPages ∅)).flatten m →
      ∃ m' ≤ m + last.toFinset.card, Schedule (h + k) C (es.flatten ++ last) m' by
    obtain ⟨m₁, hm₁, hs₁⟩ := hall ∅ m (Nat.zero_le h) hs.anyVictim
    obtain ⟨m₂, hm₂, hs₂⟩ := hs₁.serves subset_rfl (Nat.zero_le _)
    exact ⟨m₂, hm₂.trans hm₁, hs₂⟩
  clear hs
  induction es with
  | nil =>
    intro C m hC _
    have hroom : (C ∪ last.toFinset).card ≤ h + k :=
      (Finset.card_union_le _ _).trans (Nat.add_le_add hC hlast)
    obtain ⟨m', hm', hs'⟩ := Schedule.all hroom
    exact ⟨m', hm'.trans (Nat.le_add_left _ m), hs'⟩
  | cons e es ih =>
    intro C m hC hs
    have hfew : (∅ ∪ e.toFinset).card ≤ k := by
      rw [Finset.empty_union]
      exact hes e List.mem_cons_self
    obtain ⟨m', hm', hs'⟩ := Schedule.epoch hs hC hfew
      (ih fun e' he' => hes e' (List.mem_cons_of_mem e he'))
    rw [Finset.union_empty] at hs'
    rw [List.flatten_cons, List.append_assoc]
    exact ⟨m', hm', hs'⟩

end Caching
