import Cscc69.Ext2.Paths

/-!
# The loops of str_helper.c

`count_item_in_path` and `arr_names` call `strtok` until it returns NULL. Each call skips the
slashes before a component and takes the component and the slash after it (`strtok`), so that the
two loops go through the components, one for each call (`strtok_some`), and end.

`get_parent_path` takes one slash off the end and then cuts the path at its last slash. What is cut
off is the last component, unless a second slash stands at the end: then it is nothing, and the
parent path has all components of the path.

Main result: `helpersAgree_iff`.
-/

namespace Cscc69.Ext2

variable {path s rest tok : Name} {count n : ℕ}

/-! ## `strtok` -/

/-- A call of `strtok(s, "/")`: the component and where the next call goes on, or NULL. -/
def strtok (s : Name) : Option (Name × Name) :=
  match s.dropWhile (· = slash) with
  | [] => none
  | c :: s => some ((c :: s).takeWhile (· ≠ slash), ((c :: s).dropWhile (· ≠ slash)).drop 1)

/-- The loop of `count_item_in_path`. -/
def countItemLoop : ℕ → Name → ℕ → Option ℕ
  | 0, _, _ => none
  | fuel + 1, s, count =>
    match strtok s with
    | none => some count
    | some (_, rest) => countItemLoop fuel rest (count + 1)

/-- The loop of `arr_names`, with the names it has stored. It has no result when it writes past
the `count` elements of the array or the `EXT2_NAME_LEN` bytes of a name. -/
def arrNamesLoop (count : ℕ) : ℕ → Name → List Name → Option (List Name)
  | 0, _, _ => none
  | fuel + 1, s, names =>
    match strtok s with
    | none => some names
    | some (token, rest) =>
      if names.length < count ∧ token.length < 255 then
        arrNamesLoop count fuel rest (names ++ [token])
      else none

/-! ## The loops go through the components -/

theorem tokens_slash (s : Name) : tokens (slash :: s) = tokens s := by
  have h := tokens_append [] s
  rw [List.nil_append, tokens_of_notMem List.not_mem_nil, if_pos rfl, List.nil_append] at h
  exact h

theorem tokens_dropWhile (s : Name) : tokens (s.dropWhile (· = slash)) = tokens s := by
  induction s with
  | nil => rfl
  | cons c s ih =>
    by_cases hc : c = slash
    · rw [List.dropWhile_cons_of_pos (by simpa using hc), hc, tokens_slash, ih]
    · rw [List.dropWhile_cons_of_neg (by simpa using hc)]

/-- A component stands before the first slash. -/
theorem tokens_takeWhile {c : UInt8} (hc : c ≠ slash) (s : Name) : tokens (c :: s) =
    (c :: s).takeWhile (· ≠ slash) :: tokens (((c :: s).dropWhile (· ≠ slash)).drop 1) := by
  have hsplit : (c :: s).takeWhile (· ≠ slash) ++ (c :: s).dropWhile (· ≠ slash) = c :: s :=
    List.takeWhile_append_dropWhile
  have hno : slash ∉ (c :: s).takeWhile (· ≠ slash) := by
    intro hmem
    simpa using List.mem_takeWhile_imp hmem
  have hne : (c :: s).takeWhile (· ≠ slash) ≠ [] := by
    rw [List.takeWhile_cons_of_pos (by simpa using hc)]
    exact List.cons_ne_nil _ _
  generalize (c :: s).takeWhile (· ≠ slash) = w at hsplit hno hne ⊢
  cases hdrop : (c :: s).dropWhile (· ≠ slash) with
  | nil =>
    rw [hdrop, List.append_nil] at hsplit
    rw [← hsplit, tokens_of_notMem hno, if_neg hne]
    rfl
  | cons d rest =>
    have hd : d = slash := by
      have hhead := List.head?_dropWhile_not (fun c => decide (c ≠ slash)) (c :: s)
      rw [hdrop] at hhead
      simpa using hhead
    rw [hdrop, hd] at hsplit
    rw [← hsplit, tokens_append, tokens_of_notMem hno, if_neg hne]
    rfl

theorem strtok_none (h : strtok s = none) : tokens s = [] := by
  unfold strtok at h
  split at h
  · rename_i hdrop
    rw [← tokens_dropWhile, hdrop]
    rfl
  · cases h

/-- **A call takes one component.** -/
theorem strtok_some (h : strtok s = some (tok, rest)) :
    tokens s = tok :: tokens rest ∧ rest.length < s.length := by
  unfold strtok at h
  split at h
  · cases h
  · rename_i c s' hdrop
    obtain ⟨rfl, rfl⟩ := Prod.mk.inj (Option.some.inj h)
    have hc : c ≠ slash := by
      have hhead := List.head?_dropWhile_not (fun c => decide (c = slash)) s
      rw [hdrop] at hhead
      simpa using hhead
    constructor
    · rw [← tokens_dropWhile, hdrop]
      exact tokens_takeWhile hc s'
    · have hlen : (c :: s').length ≤ s.length := by
        rw [← hdrop]
        exact (List.dropWhile_sublist _).length_le
      rw [List.dropWhile_cons_of_pos (by simpa using hc)]
      have hrest : (s'.dropWhile (· ≠ slash)).length ≤ s'.length :=
        (List.dropWhile_sublist _).length_le
      rw [List.length_cons] at hlen
      rw [List.length_drop]
      omega

theorem countItemLoop_eq {fuel : ℕ} (hfuel : s.length < fuel) (count : ℕ) :
    countItemLoop fuel s count = some (count + (tokens s).length) := by
  induction fuel generalizing s count with
  | zero => omega
  | succ fuel ih =>
    rw [countItemLoop]
    cases hs : strtok s with
    | none => rw [strtok_none hs]; rfl
    | some r =>
      obtain ⟨tok, rest⟩ := r
      obtain ⟨htokens, hlt⟩ := strtok_some hs
      show countItemLoop fuel rest (count + 1) = _
      rw [ih (by omega), htokens, List.length_cons]
      congr 1
      omega

theorem arrNamesLoop_eq {fuel : ℕ} (hfuel : s.length < fuel) (names : List Name)
    (hcount : names.length + (tokens s).length = count) :
    arrNamesLoop count fuel s names =
      if (tokens s).all (·.length < 255) then some (names ++ tokens s) else none := by
  induction fuel generalizing s names with
  | zero => omega
  | succ fuel ih =>
    rw [arrNamesLoop]
    cases hs : strtok s with
    | none => rw [strtok_none hs]; simp
    | some r =>
      obtain ⟨tok, rest⟩ := r
      obtain ⟨htokens, hlt⟩ := strtok_some hs
      rw [htokens, List.length_cons] at hcount
      simp only
      rw [htokens, List.all_cons]
      by_cases hshort : tok.length < 255
      · rw [if_pos ⟨by omega, hshort⟩, ih (by omega) _ (by simp; omega), decide_eq_true hshort,
          Bool.true_and, List.append_assoc, List.singleton_append]
      · rw [if_neg fun h => hshort h.2, decide_eq_false hshort, Bool.false_and]
        rfl

/-- The two loops on a whole path compute what the model says they do. -/
theorem countItemLoop_path (path : Name) :
    countItemLoop (path.length + 1) path 0 = some (countItemInPath path) := by
  rw [countItemLoop_eq (Nat.lt_succ_self _), Nat.zero_add]
  rfl

theorem arrNamesLoop_path (path : Name) :
    arrNamesLoop (countItemInPath path) (path.length + 1) path [] = arrNames path := by
  unfold countItemInPath
  rw [arrNamesLoop_eq (Nat.lt_succ_self _) [] (Nat.zero_add _)]
  rfl

/-! ## The parent path -/

theorem endsTwice_iff : [slash, slash] <:+ path ↔
    (if path.getLast? = some slash then path.dropLast else path).getLast? = some slash := by
  constructor
  · rintro ⟨p, rfl⟩
    simp
  · intro h
    split at h
    · rename_i hlast
      have hpath : path.dropLast ++ [slash] = path := List.dropLast_append_getLast? slash hlast
      have hpath' : path.dropLast.dropLast ++ [slash] = path.dropLast :=
        List.dropLast_append_getLast? slash h
      refine ⟨path.dropLast.dropLast, ?_⟩
      rw [← List.singleton_append (l := [slash]), ← List.append_assoc, hpath', hpath]
    · contradiction

/-- **The parent path** has all components but the last, or all of them when the path ends in two
slashes. -/
theorem tokens_parent (h : 2 ≤ (tokens path).length) :
    tokens (getParentPath (tokens path).length path) =
      if [slash, slash] <:+ path then tokens path else (tokens path).dropLast := by
  rw [getParentPath, if_neg (by omega)]
  have htrim := tokens_trim path
  rw [← htrim] at h
  rw [tokens_beforeLastSlash h, htrim]
  simp only [endsTwice_iff]

/-- The three functions describe the same components. -/
structure HelpersAgree (path : Name) : Prop where
  count : countItemLoop (path.length + 1) path 0 = some (tokens path).length
  names : arrNamesLoop (tokens path).length (path.length + 1) path [] = some (tokens path)
  parent : 2 ≤ (tokens path).length →
    tokens (getParentPath (tokens path).length path) = (tokens path).take ((tokens path).length - 1)

/-- **The path helpers agree exactly on the paths that do not end in two slashes**, apart from those
of fewer than two components. -/
theorem helpersAgree_iff (hshort : ∀ w ∈ tokens path, w.length < 255) :
    HelpersAgree path ↔ ¬ (2 ≤ (tokens path).length ∧ [slash, slash] <:+ path) := by
  constructor
  · rintro h ⟨htwo, hends⟩
    have hparent := congrArg List.length (h.parent htwo)
    rw [tokens_parent htwo, if_pos hends, List.length_take] at hparent
    omega
  · intro h
    refine ⟨countItemLoop_path path, ?_, fun htwo => ?_⟩
    · have hall : (tokens path).all (·.length < 255) = true := by
        simpa only [List.all_eq_true, decide_eq_true_eq] using hshort
      exact (arrNamesLoop_path path).trans (if_pos hall)
    · rw [tokens_parent htwo, if_neg fun hends => h ⟨htwo, hends⟩, List.dropLast_eq_take]

/-- The path `/a/b`. -/
def twoNames : Name := [slash, 97, slash, 98]

theorem helpersAgree_iff_two : HelpersAgree twoNames :=
  (helpersAgree_iff (by decide)).2 (by decide)

/-- The parent path of `/a/b//` is `/a/b`. -/
theorem parent_of_slashes : getParentPath 2 (twoNames ++ [slash, slash]) = twoNames ∧
    ¬ HelpersAgree (twoNames ++ [slash, slash]) := by
  refine ⟨by decide, fun h => ?_⟩
  exact absurd (h.parent (by decide)) (by decide)

end Cscc69.Ext2
