import Cscc69.Ext2.Layout
import Mathlib.Data.List.Induction
import Mathlib.Data.List.TakeWhile

/-!
# Paths

`strtok` with the delimiter `/` goes through the non-empty parts between slashes. The functions of
str_helper.c count them, copy them out and cut the last one off.
-/

namespace Cscc69.Ext2

/-- The parts between slashes, empty ones included. -/
def splitSlash (path : Name) : List Name :=
  path.foldr (fun c ws =>
    if c = slash then [] :: ws
    else
      match ws with
      | [] => [[c]]
      | w :: ws => (c :: w) :: ws) [[]]

/-- What `strtok` returns on `path`, one after the other. -/
def tokens (path : Name) : List Name := (splitSlash path).filter (· ≠ [])

theorem slash_notMem_splitSlash (path : Name) : ∀ w ∈ splitSlash path, slash ∉ w := by
  induction path with
  | nil => simp [splitSlash]
  | cons c path ih =>
    unfold splitSlash at ih ⊢
    rw [List.foldr_cons]
    split
    · simpa using ih
    · rename_i hc
      split
      · simpa using Ne.symm hc
      · rename_i w ws heq
        rw [heq] at ih
        have hw := ih w List.mem_cons_self
        intro w' hw'
        rcases List.mem_cons.1 hw' with rfl | hw'
        · simp [hw, Ne.symm hc]
        · exact ih w' (List.mem_cons_of_mem w hw')

/-- No component is a slash. -/
theorem slash_notMem_tokens {path w : Name} (h : w ∈ tokens path) : slash ∉ w :=
  slash_notMem_splitSlash path w (List.mem_of_mem_filter h)

def countItemInPath (path : Name) : ℕ := (tokens path).length

/-- Each name is copied into `EXT2_NAME_LEN` bytes; a longer one is written past them. -/
def arrNames (path : Name) : Option (List Name) :=
  if (tokens path).all (·.length < 255) then some (tokens path) else none

/-- Everything before the last slash, if there is one. -/
def beforeLastSlash (path : Name) : Name :=
  if slash ∈ path then ((path.reverse.dropWhile (· ≠ slash)).drop 1).reverse else path

def getParentPath (count : ℕ) (path : Name) : Name :=
  if count = 1 then [slash]
  else beforeLastSlash (if path.getLast? = some slash then path.dropLast else path)

/-- The last component; `.` for an empty path and `/` for one of slashes only. -/
def basename (path : Name) : Name :=
  (tokens path).getLast?.getD (if path = [] then [dot] else [slash])

/-! ## The parent path -/

theorem splitSlash_ne_nil (path : Name) : splitSlash path ≠ [] := by
  unfold splitSlash
  cases path with
  | nil => simp
  | cons c path =>
    rw [List.foldr_cons]
    split
    · simp
    · split
      · simp
      · simp

theorem splitSlash_cons {c : UInt8} (hc : c ≠ slash) (path : Name) :
    ∃ w ws, splitSlash path = w :: ws ∧ splitSlash (c :: path) = (c :: w) :: ws := by
  obtain ⟨w, ws, hws⟩ := List.exists_cons_of_ne_nil (splitSlash_ne_nil path)
  refine ⟨w, ws, hws, ?_⟩
  unfold splitSlash at hws ⊢
  rw [List.foldr_cons, if_neg hc, hws]

theorem splitSlash_slash (path : Name) : splitSlash (slash :: path) = [] :: splitSlash path := by
  unfold splitSlash
  rw [List.foldr_cons, if_pos rfl]

theorem splitSlash_append (path₁ path₂ : Name) :
    splitSlash (path₁ ++ slash :: path₂) = splitSlash path₁ ++ splitSlash path₂ := by
  induction path₁ with
  | nil => exact splitSlash_slash path₂
  | cons c path₁ ih =>
    by_cases hc : c = slash
    · rw [hc, List.cons_append, splitSlash_slash, splitSlash_slash, ih, List.cons_append]
    · obtain ⟨w, ws, hws, hcons⟩ := splitSlash_cons hc path₁
      obtain ⟨w', ws', hws', hcons'⟩ := splitSlash_cons hc (path₁ ++ slash :: path₂)
      rw [ih, hws, List.cons_append] at hws'
      obtain ⟨rfl, rfl⟩ := List.cons.inj hws'
      rw [List.cons_append, hcons', hcons, List.cons_append]

/-- A slash separates the components before it from those after it. -/
theorem tokens_append (path₁ path₂ : Name) :
    tokens (path₁ ++ slash :: path₂) = tokens path₁ ++ tokens path₂ := by
  rw [tokens, splitSlash_append, List.filter_append]
  rfl

theorem tokens_of_notMem {w : Name} (h : slash ∉ w) : tokens w = if w = [] then [] else [w] := by
  have hsplit : splitSlash w = [w] := by
    induction w with
    | nil => rfl
    | cons c w ih =>
      rw [List.mem_cons, not_or] at h
      obtain ⟨w', ws, hws, hcons⟩ := splitSlash_cons (Ne.symm h.1) w
      rw [ih h.2] at hws
      obtain ⟨rfl, rfl⟩ := List.cons.inj hws
      exact hcons
  rw [tokens, hsplit]
  split
  · rename_i hnil
    simp [hnil]
  · rename_i hne
    simpa using hne

theorem beforeLastSlash_eq {path : Name} (h : slash ∈ path) :
    ∃ w, slash ∉ w ∧ path = beforeLastSlash path ++ slash :: w := by
  have hsplit : path.reverse.takeWhile (· ≠ slash) ++ path.reverse.dropWhile (· ≠ slash) =
      path.reverse := List.takeWhile_append_dropWhile
  have hno : slash ∉ path.reverse.takeWhile (· ≠ slash) := by
    intro hmem
    simpa using List.mem_takeWhile_imp hmem
  cases hdrop : path.reverse.dropWhile (· ≠ slash) with
  | nil =>
    rw [hdrop, List.append_nil] at hsplit
    rw [hsplit, List.mem_reverse] at hno
    exact absurd h hno
  | cons c rest =>
    have hc : c = slash := by
      have hhead := List.head?_dropWhile_not (fun c => decide (c ≠ slash)) path.reverse
      rw [hdrop] at hhead
      simpa using hhead
    refine ⟨(path.reverse.takeWhile (· ≠ slash)).reverse, by simpa using hno, ?_⟩
    rw [beforeLastSlash, if_pos h, hdrop, List.drop_succ_cons, List.drop_zero]
    have hpath := congrArg List.reverse hsplit
    rw [hdrop, hc, List.reverse_append, List.reverse_reverse, List.reverse_cons,
      List.append_assoc, List.singleton_append] at hpath
    exact hpath.symm

/-- The components of a path are those of the path without the slash at its end. -/
theorem tokens_trim (path : Name) :
    tokens (if path.getLast? = some slash then path.dropLast else path) = tokens path := by
  split
  · rename_i hlast
    have hpath : path.dropLast ++ [slash] = path := List.dropLast_append_getLast? slash hlast
    have htokens := tokens_append path.dropLast []
    rw [hpath, tokens_of_notMem List.not_mem_nil, if_pos rfl, List.append_nil] at htokens
    exact htokens.symm
  · rfl

/-- What is cut off at the last slash is a component unless the slash is at the end. -/
theorem tokens_beforeLastSlash {path : Name} (h : 2 ≤ (tokens path).length) :
    tokens (beforeLastSlash path) =
      if path.getLast? = some slash then tokens path else (tokens path).dropLast := by
  have hslash : slash ∈ path := by
    by_contra hno
    rw [tokens_of_notMem hno] at h
    split at h
    · cases h
    · rw [List.length_singleton] at h
      omega
  obtain ⟨w, hw, hpath⟩ := beforeLastSlash_eq hslash
  have htokens := tokens_append (beforeLastSlash path) w
  rw [← hpath, tokens_of_notMem hw] at htokens
  have hlast : path.getLast? = some slash ↔ w = [] := by
    rw [hpath]
    cases w with
    | nil => simp
    | cons c w =>
      rw [List.getLast?_append_of_ne_nil _ (List.cons_ne_nil _ _), List.getLast?_cons_cons]
      simp only [reduceCtorEq, iff_false]
      intro hend
      exact hw (List.mem_of_getLast? hend)
  by_cases hnil : w = []
  · rw [if_pos (hlast.2 hnil), htokens, if_pos hnil, List.append_nil]
  · rw [if_neg fun hend => hnil (hlast.1 hend), htokens, if_neg hnil, List.dropLast_concat]

/-- What is cut off a path of several components is the last one, or an empty one behind it. -/
theorem tokens_getParentPath {path : Name} (h : 2 ≤ (tokens path).length) :
    tokens (getParentPath (tokens path).length path) = (tokens path).dropLast ∨
      tokens (getParentPath (tokens path).length path) = tokens path := by
  rw [getParentPath, if_neg (by omega)]
  have htrim := tokens_trim path
  rw [← htrim] at h
  rw [tokens_beforeLastSlash h, htrim]
  exact (ite_eq_or_eq _ _ _).symm

end Cscc69.Ext2
