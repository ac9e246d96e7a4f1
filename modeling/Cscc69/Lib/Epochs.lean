import Mathlib.Data.Finset.Card
import Mathlib.Data.List.Dedup
import Mathlib.Tactic.Common

/-!
# Epochs

A list of items with keys is cut into epochs: an epoch goes on as long as its items have at most `k`
different keys, and an item with one more key closes it and begins the next (`epochs`). `Cut` says
what such a cut is, and `epochs_cut` that `epochs` is one.

`firsts` are the items of an epoch whose key is new. There is one for each key (`nodup_firsts`,
`mem_keys_firsts`), and they are all of the epoch if and only if no key comes twice
(`firsts_eq_self`).
-/

namespace Epochs

variable {α β : Type*} [DecidableEq β] {key : α → β} {k : ℕ} {a : α} {as cur last : List α}
  {es : List (List α)}

/-! ## The first item of each key -/

def firsts (key : α → β) (as : List α) : List α :=
  as.foldl (fun fs a => if key a ∈ fs.map key then fs else fs ++ [a]) []

theorem firsts_concat_eq : firsts key (as ++ [a]) =
    if key a ∈ (firsts key as).map key then firsts key as else firsts key as ++ [a] := by
  simp [firsts, List.foldl_append]

theorem mem_keys_firsts {b : β} : b ∈ (firsts key as).map key ↔ b ∈ as.map key := by
  induction as using List.reverseRecOn with
  | nil => rfl
  | append_singleton as a ih =>
    rw [firsts_concat_eq]
    split
    · rename_i h
      rw [List.map_append, List.mem_append, ih, List.map_singleton, List.mem_singleton]
      constructor
      · exact Or.inl
      · rintro (hb | rfl)
        · exact hb
        · exact ih.1 h
    · simp only [List.map_append, List.mem_append, ih]

/-- A known key adds nothing. -/
theorem firsts_concat_of_mem (h : key a ∈ as.map key) : firsts key (as ++ [a]) = firsts key as := by
  rw [firsts_concat_eq, if_pos (mem_keys_firsts.2 h)]

theorem firsts_concat_of_notMem (h : key a ∉ as.map key) :
    firsts key (as ++ [a]) = firsts key as ++ [a] := by
  rw [firsts_concat_eq, if_neg (mt mem_keys_firsts.1 h)]

@[simp]
theorem firsts_singleton : firsts key [a] = [a] := by simp [firsts]

/-- Keys that tell the same items apart have the same first items. -/
theorem firsts_congr {γ : Type*} [DecidableEq γ] {key' : α → γ}
    (h : ∀ a ∈ as, ∀ a' ∈ as, key a = key a' ↔ key' a = key' a') :
    firsts key as = firsts key' as := by
  induction as using List.reverseRecOn with
  | nil => rfl
  | append_singleton as a ih =>
    have hmem : key a ∈ as.map key ↔ key' a ∈ as.map key' := by
      simp only [List.mem_map]
      refine exists_congr fun a' => and_congr_right fun ha' => ?_
      exact h a' (List.mem_append_left _ ha') a (List.mem_append_right _ List.mem_cons_self)
    have hsame := ih fun a ha a' ha' =>
      h a (List.mem_append_left _ ha) a' (List.mem_append_left _ ha')
    by_cases ha : key a ∈ as.map key
    · rw [firsts_concat_of_mem ha, firsts_concat_of_mem (hmem.1 ha), hsame]
    · rw [firsts_concat_of_notMem ha, firsts_concat_of_notMem (mt hmem.2 ha), hsame]

theorem firsts_sublist (key : α → β) (as : List α) : (firsts key as).Sublist as := by
  induction as using List.reverseRecOn with
  | nil => exact List.Sublist.refl _
  | append_singleton as a ih =>
    rw [firsts_concat_eq]
    split
    · exact ih.trans (List.sublist_append_left as [a])
    · exact ih.append_right [a]

theorem nodup_firsts (key : α → β) (as : List α) : ((firsts key as).map key).Nodup := by
  induction as using List.reverseRecOn with
  | nil => exact List.nodup_nil
  | append_singleton as a ih =>
    rw [firsts_concat_eq]
    split
    · exact ih
    · rename_i h
      rw [List.map_append, List.map_singleton, List.nodup_append]
      refine ⟨ih, List.nodup_singleton _, fun b hb c hc => ?_⟩
      rw [List.mem_singleton.1 hc]
      rintro rfl
      exact h hb

/-- One item for each key. -/
theorem length_firsts (key : α → β) (as : List α) :
    (firsts key as).length = (as.map key).toFinset.card := by
  rw [← List.length_map (f := key), ← List.toFinset_card_of_nodup (nodup_firsts key as)]
  congr 1
  ext b
  rw [List.mem_toFinset, List.mem_toFinset, mem_keys_firsts]

/-- **The first** of the items with its key. -/
theorem firsts_first {r : α → α → Prop} {o : α} (has : as.Pairwise r) (ho : o ∈ firsts key as)
    (ha : a ∈ as) (hkey : key a = key o) : a = o ∨ r o a := by
  induction as using List.reverseRecOn with
  | nil => cases ha
  | append_singleton as b ih =>
    obtain ⟨has, -, hb⟩ := List.pairwise_append.1 has
    rw [firsts_concat_eq] at ho
    split at ho
    · obtain ha | ha := List.mem_append.1 ha
      · exact ih has ho ha
      · exact Or.inr (hb o ((firsts_sublist key as).subset ho) a ha)
    · rename_i hnew
      obtain ho | ho := List.mem_append.1 ho
      · obtain ha | ha := List.mem_append.1 ha
        · exact ih has ho ha
        · exact Or.inr (hb o ((firsts_sublist key as).subset ho) a ha)
      · obtain ha | ha := List.mem_append.1 ha
        · rw [List.mem_singleton.1 ho] at hkey
          exact absurd (mem_keys_firsts.2 (hkey ▸ List.mem_map_of_mem ha)) hnew
        · exact Or.inl ((List.mem_singleton.1 ha).trans (List.mem_singleton.1 ho).symm)

theorem firsts_eq_self : firsts key as = as ↔ (as.map key).Nodup := by
  constructor
  · intro h
    rw [← h]
    exact nodup_firsts key as
  · intro h
    refine (firsts_sublist key as).eq_of_length ?_
    rw [length_firsts, List.toFinset_card_of_nodup h, List.length_map]

/-! ## The epochs -/

/-- The epochs of the items that come when `cur` is open: the closed ones, and the open one. -/
def epochsFrom (key : α → β) (k : ℕ) : List α → List α → List (List α) × List α
  | cur, [] => ([], cur)
  | cur, a :: as =>
    if key a ∈ cur.map key ∨ (cur.map key).toFinset.card < k then epochsFrom key k (cur ++ [a]) as
    else (cur :: (epochsFrom key k [a] as).1, (epochsFrom key k [a] as).2)

def epochs (key : α → β) (k : ℕ) (as : List α) : List (List α) × List α := epochsFrom key k [] as

/-- The item closes the epoch: it has `k` keys, and this is another one. -/
def Closes (key : α → β) (k : ℕ) (cur : List α) (next : List α) : Prop :=
  (cur.map key).toFinset.card = k ∧ ∃ a as, next = a :: as ∧ key a ∉ cur.map key

/-- A cut of a list into closed epochs and an open one. -/
structure Cut (key : α → β) (k : ℕ) (as : List α) (es : List (List α)) (last : List α) : Prop where
  flatten : es.flatten ++ last = as
  closed : (es ++ [last]).IsChain (Closes key k)
  opened : (last.map key).toFinset.card ≤ k

/-- No epoch has more than `k` keys. -/
theorem Cut.card_le (h : Cut key k as es last) : ∀ e ∈ es ++ [last],
    (e.map key).toFinset.card ≤ k := by
  have hall : ∀ l : List (List α), (l ++ [last]).IsChain (Closes key k) → ∀ e ∈ l,
      (e.map key).toFinset.card ≤ k := by
    intro l hchain
    induction l with
    | nil => simp
    | cons e l ih =>
      obtain ⟨next, rest, hrest⟩ : ∃ next rest, l ++ [last] = next :: rest :=
        List.exists_cons_of_ne_nil (by simp)
      rw [List.cons_append, hrest, List.isChain_cons_cons, ← hrest] at hchain
      exact List.forall_mem_cons.2 ⟨hchain.1.1.le, ih hchain.2⟩
  intro e he
  rcases List.mem_append.1 he with he | he
  · exact hall es h.closed e he
  · rw [List.mem_singleton.1 he]
    exact h.opened

theorem epochsFrom_cons_of_pos
    (h : key a ∈ cur.map key ∨ (cur.map key).toFinset.card < k) :
    epochsFrom key k cur (a :: as) = epochsFrom key k (cur ++ [a]) as := if_pos h

theorem epochsFrom_cons_of_neg
    (h : ¬ (key a ∈ cur.map key ∨ (cur.map key).toFinset.card < k)) :
    epochsFrom key k cur (a :: as) =
      (cur :: (epochsFrom key k [a] as).1, (epochsFrom key k [a] as).2) := if_neg h

theorem card_concat_le (h : key a ∈ cur.map key ∨ (cur.map key).toFinset.card < k)
    (hcur : (cur.map key).toFinset.card ≤ k) : ((cur ++ [a]).map key).toFinset.card ≤ k := by
  rw [List.map_append, List.toFinset_append, List.map_singleton, Finset.union_comm]
  show (insert (key a) (cur.map key).toFinset).card ≤ k
  rcases h with hmem | hlt
  · rwa [Finset.insert_eq_of_mem (List.mem_toFinset.2 hmem)]
  · exact (Finset.card_insert_le _ _).trans hlt

/-- The open epoch is the beginning of the first list. -/
theorem epochsFrom_head (key : α → β) (k : ℕ) (cur as : List α) : ∃ rest es',
    (epochsFrom key k cur as).1 ++ [(epochsFrom key k cur as).2] = (cur ++ rest) :: es' := by
  induction as generalizing cur with
  | nil => exact ⟨[], [], by rw [List.append_nil]; rfl⟩
  | cons a as ih =>
    by_cases h : key a ∈ cur.map key ∨ (cur.map key).toFinset.card < k
    · obtain ⟨rest, es', hlists⟩ := ih (cur ++ [a])
      rw [epochsFrom_cons_of_pos h, hlists, List.append_assoc]
      exact ⟨_, _, rfl⟩
    · rw [epochsFrom_cons_of_neg h]
      exact ⟨[], _, by rw [List.append_nil]; rfl⟩

theorem epochsFrom_cut (hk : 0 < k) (hcur : (cur.map key).toFinset.card ≤ k) :
    Cut key k (cur ++ as) (epochsFrom key k cur as).1 (epochsFrom key k cur as).2 := by
  induction as generalizing cur with
  | nil => exact ⟨(List.append_nil cur).symm, List.IsChain.singleton cur, hcur⟩
  | cons a as ih =>
    by_cases h : key a ∈ cur.map key ∨ (cur.map key).toFinset.card < k
    · have hcut := ih (card_concat_le h hcur)
      rw [List.append_assoc] at hcut
      rw [epochsFrom_cons_of_pos h]
      exact hcut
    · have hcut : Cut key k ([a] ++ as) (epochsFrom key k [a] as).1 (epochsFrom key k [a] as).2 :=
        ih (by simpa using Nat.succ_le_of_lt hk)
      obtain ⟨rest, es', hhead⟩ := epochsFrom_head key k [a] as
      obtain ⟨hnew, hfull⟩ := not_or.1 h
      rw [epochsFrom_cons_of_neg h]
      refine ⟨?_, ?_, hcut.opened⟩
      · rw [List.flatten_cons, List.append_assoc, hcut.flatten]
        rfl
      · have hchain := hcut.closed
        rw [hhead] at hchain
        rw [List.cons_append, hhead]
        refine List.isChain_cons_cons.2 ⟨⟨le_antisymm hcur (Nat.le_of_not_lt hfull), ?_⟩, hchain⟩
        exact ⟨a, rest, rfl, hnew⟩

/-- **The epochs.** -/
theorem epochs_cut (hk : 0 < k) (as : List α) :
    Cut key k as (epochs key k as).1 (epochs key k as).2 := by
  have hcard : (([] : List α).map key).toFinset.card ≤ k := Nat.zero_le k
  exact epochsFrom_cut hk hcard

end Epochs
