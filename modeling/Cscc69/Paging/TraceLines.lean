import Cscc69.Paging.TraceFile
import Mathlib.Algebra.Order.BigOperators.Group.List

/-!
# The accesses that `replay_trace` makes of any file

A line that does not begin with `=` and from which `sscanf` reads both a type and an address is a
record (`recordOf`). `replay_trace` does not look at what `sscanf` returns, and `fgets` gives it a
long line in pieces of `MAXLINE - 1` bytes. So each piece that does not begin with `=` is an access:
if it is not a record, then with the type or the address of an earlier one.

`replayTrace_iff` says that the accesses are the records if and only if the file is `Clean`: each
line is a record or begins with `=`, and so do the later pieces of a long line.
-/

namespace Cscc69.Paging

open CText

/-! ## Lines and records -/

/-- The lines of a file, with their newlines. -/
def linesOf : List UInt8 → List (List UInt8)
  | [] => []
  | c :: file =>
    if c = newline then [c] :: linesOf file
    else
      match linesOf file with
      | [] => [[c]]
      | l :: ls => (c :: l) :: ls

/-- The C string in a buffer. -/
def cString (l : List UInt8) : List UInt8 := l.takeWhile (· ≠ 0)

/-- The type and the address of a line, if it is a record: what `sscanf` takes with `%c %lx`. A
`HexText` is such an address (`recordOf_record`), and so is a number with a sign, or one that does
not fit 64 bits (`recordOf_some`). -/
def recordOf (l : List UInt8) : Option (UInt8 × BitVec 64) :=
  if l.head? = some equals then none
  else
    match scanRecord (cString l) with
    | (some c, some v, _) => some (c, v)
    | _ => none

/-- What `fgets` makes of a line. -/
def pieces (l : List UInt8) : List (List UInt8) :=
  (List.range ((l.length + 254) / 255)).map fun k => (l.drop (255 * k)).take 255

/-- The line is a record or a comment, and its pieces after the first are skipped. -/
structure CleanLine (l : List UInt8) : Prop where
  first : l.head? = some equals ∨ (recordOf l).isSome
  later : ∀ k, 1 ≤ k → 255 * k < l.length → l[255 * k]? = some equals

def Clean (file : List UInt8) : Prop := ∀ l ∈ linesOf file, CleanLine l

/-- A line with a type, blanks and a number is a record. -/
theorem recordOf_record {c : UInt8} (hc : c ≠ equals) (t : HexText) {l blanks rest : List UInt8}
    (hblanks : ∀ b ∈ blanks, isSpace b = true) (hrest : Ends rest) (hl : l.head? = some c)
    (hstring : cString l = c :: (blanks ++ (t.text ++ rest))) : recordOf l = some (c, t.value) := by
  have hhead : ¬ l.head? = some equals := fun h => hc (Option.some.inj (hl.symm.trans h))
  rw [recordOf, if_neg hhead, hstring, scanRecord_record c t hblanks hrest]

/-- Only a line with a type, blanks and a number is one. -/
theorem recordOf_some {c : UInt8} {v : BitVec 64} {l : List UInt8} (h : recordOf l = some (c, v)) :
    c ≠ equals ∧ ∃ (blanks rest : List UInt8) (t : SignedHex), (∀ b ∈ blanks, isSpace b = true) ∧
      cString l = c :: (blanks ++ (t.text ++ rest)) ∧ v = t.value := by
  unfold recordOf at h
  split at h
  · cases h
  · rename_i hhead
    cases hl : cString l with
    | nil =>
      rw [hl] at h
      cases h
    | cons d inp =>
      have hfirst : l.head? = some d := by
        cases l with
        | nil => cases hl
        | cons e l =>
          rw [cString, List.takeWhile_cons] at hl
          split at hl
          · rw [(List.cons.inj hl).1]
            rfl
          · cases hl
      rw [hl, scanRecord] at h
      cases hscan : scanHex (inp.dropWhile isSpace) with
      | mk number rest =>
        rw [hscan] at h
        cases number with
        | none => cases h
        | some w =>
          obtain ⟨rfl, rfl⟩ := Prod.mk.inj (Option.some.inj h)
          obtain ⟨t, htext, hvalue⟩ := scanHex_some hscan
          refine ⟨fun heq => hhead (hfirst.trans (congrArg some heq)), inp.takeWhile isSpace, rest,
            t, fun b hb => List.mem_takeWhile_imp hb, ?_, hvalue⟩
          rw [← htext, List.takeWhile_append_dropWhile]

theorem head?_of_recordOf {l : List UInt8} {r : UInt8 × BitVec 64} (h : recordOf l = some r) :
    l.head? ≠ some equals := by
  intro heq
  rw [recordOf, if_pos heq] at h
  cases h

/-- The line that a byte begins or continues. -/
theorem linesOf_cons {c : UInt8} {file l : List UInt8} {ls : List (List UInt8)}
    (h : linesOf (c :: file) = l :: ls) : ∃ l', l = c :: l' ∧
      (c = newline ∧ l' = [] ∧ linesOf file = ls ∨ c ≠ newline ∧
        (l' = [] ∧ file = [] ∧ ls = [] ∨ linesOf file = l' :: ls)) := by
  unfold linesOf at h
  split at h
  · rename_i hc
    obtain ⟨rfl, rfl⟩ := List.cons.inj h
    exact ⟨[], rfl, Or.inl ⟨hc, rfl, rfl⟩⟩
  · rename_i hc
    cases hfile : linesOf file with
    | nil =>
      rw [hfile] at h
      obtain ⟨rfl, rfl⟩ := List.cons.inj h
      refine ⟨[], rfl, Or.inr ⟨hc, Or.inl ⟨rfl, ?_, rfl⟩⟩⟩
      cases file with
      | nil => rfl
      | cons d file =>
        unfold linesOf at hfile
        split at hfile
        · cases hfile
        · split at hfile <;> cases hfile
    | cons l' ls' =>
      rw [hfile] at h
      obtain ⟨rfl, rfl⟩ := List.cons.inj h
      exact ⟨l', rfl, Or.inr ⟨hc, Or.inr rfl⟩⟩

theorem linesOf_ne_nil {c : UInt8} {file : List UInt8} : ∃ l ls, linesOf (c :: file) = l :: ls := by
  unfold linesOf
  split
  · exact ⟨_, _, rfl⟩
  · split <;> exact ⟨_, _, rfl⟩

theorem flatten_linesOf (file : List UInt8) : (linesOf file).flatten = file := by
  induction file with
  | nil => rfl
  | cons c file ih =>
    obtain ⟨l, ls, h⟩ : ∃ l ls, linesOf (c :: file) = l :: ls := linesOf_ne_nil
    rw [h]
    obtain ⟨l', rfl, ⟨-, rfl, hfile⟩ | ⟨-, ⟨rfl, rfl, rfl⟩ | hfile⟩⟩ := linesOf_cons h
    · rw [hfile] at ih
      simp [ih]
    · rfl
    · rw [hfile] at ih
      simpa using ih

/-- **`fgets` reads a line**, or its first bytes. -/
theorem takeLine_linesOf {n : ℕ} {file l : List UInt8} {ls : List (List UInt8)}
    (h : linesOf file = l :: ls) : takeLine n file = (l.take n, l.drop n ++ ls.flatten) := by
  induction file generalizing n l with
  | nil => cases h
  | cons c file ih =>
    have hfile := flatten_linesOf (c :: file)
    rw [h] at hfile
    cases n with
    | zero => simpa [takeLine] using hfile.symm
    | succ n =>
      obtain ⟨l', rfl, ⟨hc, rfl, hls⟩ | ⟨hc, ⟨rfl, rfl, rfl⟩ | hls⟩⟩ := linesOf_cons h
      · rw [takeLine, if_pos hc]
        simpa using hfile.symm
      · rw [takeLine, if_neg hc]
        cases n <;> rfl
      · rw [takeLine, if_neg hc, ih hls]
        rfl

/-- The lines of what is left of a file. -/
theorem linesOf_drop {n : ℕ} {file l : List UInt8} {ls : List (List UInt8)}
    (h : linesOf file = l :: ls) :
    linesOf (l.drop n ++ ls.flatten) = if n < l.length then l.drop n :: ls else ls := by
  induction n generalizing file l with
  | zero =>
    have hfile := flatten_linesOf file
    rw [h, List.flatten_cons] at hfile
    have hpos : 0 < l.length := by
      cases file with
      | nil => cases h
      | cons c file =>
        obtain ⟨l', rfl, -⟩ := linesOf_cons h
        exact Nat.zero_lt_succ _
    rw [if_pos hpos, List.drop_zero, hfile, h]
  | succ n ih =>
    cases file with
    | nil => cases h
    | cons c file =>
      obtain ⟨l', rfl, ⟨-, rfl, rfl⟩ | ⟨-, ⟨rfl, rfl, rfl⟩ | hls⟩⟩ := linesOf_cons h
      · simp [flatten_linesOf]
      · simp [linesOf]
      · rw [List.drop_succ_cons, ih hls]
        simp

/-! ## The pieces of a line -/

theorem pieces_eq {l : List UInt8} (hl : l ≠ []) :
    pieces l = l.take 255 :: pieces (l.drop 255) := by
  have hpos := List.length_pos_iff.2 hl
  have hlength : (l.length + 254) / 255 = ((l.drop 255).length + 254) / 255 + 1 := by
    rw [List.length_drop]
    omega
  unfold pieces
  rw [hlength, List.range_succ_eq_map, List.map_cons, List.map_map]
  congr 1
  refine List.map_congr_left fun k _ => ?_
  show (l.drop (255 * (k + 1))).take 255 = ((l.drop 255).drop (255 * k)).take 255
  rw [List.drop_drop, Nat.mul_succ, add_comm]

/-- The first bytes of the pieces. -/
theorem head?_mem_pieces {l : List UInt8} :
    (∀ s ∈ pieces l, s.head? = some equals) ↔
      ∀ k, 255 * k < l.length → l[255 * k]? = some equals := by
  have hhead : ∀ k, ((l.drop (255 * k)).take 255).head? = l[255 * k]? := by
    intro k
    rw [List.head?_take, if_neg (by decide), List.head?_drop]
  unfold pieces
  rw [List.forall_mem_map]
  simp only [hhead, List.mem_range]
  exact forall_congr' fun k => ⟨fun h hk => h (by omega), fun h hk => h (by omega)⟩

/-- The strings that `fgets` returns. -/
def strings : ℕ → List UInt8 → List (List UInt8)
  | 0, _ => []
  | fuel + 1, infp =>
    match fgets maxline infp with
    | none => []
    | some (buf, infp) => buf :: strings fuel infp

/-- **`fgets` returns the pieces of the lines.** -/
theorem strings_eq {fuel : ℕ} {file : List UInt8} (hfuel : file.length ≤ fuel) :
    strings fuel file = (linesOf file).flatMap pieces := by
  induction fuel generalizing file with
  | zero =>
    obtain rfl := List.length_eq_zero_iff.1 (Nat.le_zero.1 hfuel)
    rfl
  | succ fuel ih =>
    cases file with
    | nil => rfl
    | cons c file =>
      obtain ⟨l, ls, h⟩ : ∃ l ls, linesOf (c :: file) = l :: ls := linesOf_ne_nil
      have hfile := flatten_linesOf (c :: file)
      rw [h, List.flatten_cons] at hfile
      have hl : l ≠ [] := by
        obtain ⟨l', rfl, -⟩ := linesOf_cons h
        exact List.cons_ne_nil c l'
      have hlength := congrArg List.length hfile
      rw [List.length_append] at hlength
      have hpos := List.length_pos_iff.2 hl
      have hrest : (l.drop 255 ++ ls.flatten).length ≤ fuel := by
        rw [List.length_append, List.length_drop]
        omega
      have hget : fgets maxline (c :: file) = some (l.take 255, l.drop 255 ++ ls.flatten) := by
        rw [fgets, if_neg (List.cons_ne_nil c file)]
        exact congrArg some (takeLine_linesOf h)
      unfold strings
      rw [hget]
      dsimp only
      rw [ih hrest, linesOf_drop h, h, List.flatMap_cons, pieces_eq hl]
      split
      · rw [List.flatMap_cons]
        rfl
      · rename_i hshort
        rw [List.drop_eq_nil_of_le (Nat.le_of_not_lt hshort)]
        rfl

/-- What the loop does with the strings. -/
def accesses : List (List UInt8) → UInt8 → BitVec 64 → List (UInt8 × BitVec 64)
  | [], _, _ => []
  | buf :: bufs, type, vaddr =>
    if buf.head? ≠ some equals then
      let (c, v, _) := scanRecord (cString buf)
      (c.getD type, v.getD vaddr) :: accesses bufs (c.getD type) (v.getD vaddr)
    else accesses bufs type vaddr

theorem replayLoop_eq (fuel : ℕ) (infp : List UInt8) (type : UInt8) (vaddr : BitVec 64) :
    replayLoop fuel infp type vaddr = accesses (strings fuel infp) type vaddr := by
  induction fuel generalizing infp type vaddr with
  | zero => rfl
  | succ fuel ih =>
    unfold replayLoop strings
    cases fgets maxline infp with
    | none => rfl
    | some got =>
      dsimp only
      unfold accesses
      split
      · exact congrArg _ (ih _ _ _)
      · exact ih _ _ _

/-- The accesses of a file are those of the pieces of its lines. -/
theorem replayTrace_eq (type : UInt8) (file : List UInt8) :
    replayTrace type file = accesses ((linesOf file).flatMap pieces) type 0 := by
  rw [replayTrace, replayLoop_eq, strings_eq le_rfl]

/-! ## The number of accesses -/

/-- What does not begin with `=` is an access. -/
theorem length_accesses (bufs : List (List UInt8)) (type : UInt8) (vaddr : BitVec 64) :
    (accesses bufs type vaddr).length = bufs.countP (·.head? ≠ some equals) := by
  induction bufs generalizing type vaddr with
  | nil => rfl
  | cons buf bufs ih =>
    unfold accesses
    rw [List.countP_cons]
    split
    · rename_i h
      simp [ih, h]
    · rename_i h
      simp [ih, not_not.1 h]

theorem accesses_skip {bufs : List (List UInt8)} (h : ∀ s ∈ bufs, s.head? = some equals)
    (rest : List (List UInt8)) (type : UInt8) (vaddr : BitVec 64) :
    accesses (bufs ++ rest) type vaddr = accesses rest type vaddr := by
  induction bufs with
  | nil => rfl
  | cons buf bufs ih =>
    obtain ⟨hbuf, hbufs⟩ := List.forall_mem_cons.1 h
    rw [List.cons_append, accesses, if_neg (not_not.2 hbuf), ih hbufs]

/-- The accesses of a line. -/
def accessCount (l : List UInt8) : ℕ := (pieces l).countP (·.head? ≠ some equals)

/-- The records of a line. -/
def recordCount (l : List UInt8) : ℕ := (recordOf l).toList.length

theorem accessCount_eq {l : List UInt8} (hl : l ≠ []) : accessCount l =
    (if l.head? = some equals then 0 else 1) + accessCount (l.drop 255) := by
  have hhead : (l.take 255).head? = l.head? := by
    rw [List.head?_take, if_neg (by decide)]
  unfold accessCount
  rw [pieces_eq hl, List.countP_cons, hhead, add_comm]
  split <;> simp_all

/-- **A record is an access.** -/
theorem recordCount_le {l : List UInt8} (hl : l ≠ []) : recordCount l ≤ accessCount l := by
  unfold recordCount
  cases h : recordOf l with
  | none => exact Nat.zero_le _
  | some r =>
    rw [accessCount_eq hl, if_neg (head?_of_recordOf h)]
    exact Nat.le_add_right 1 _

/-- The later pieces. -/
theorem accessCount_drop {l : List UInt8} : accessCount (l.drop 255) = 0 ↔
    ∀ k, 1 ≤ k → 255 * k < l.length → l[255 * k]? = some equals := by
  have hpieces : accessCount (l.drop 255) = 0 ↔
      ∀ s ∈ pieces (l.drop 255), s.head? = some equals := by
    unfold accessCount
    rw [List.countP_eq_zero]
    simp
  rw [hpieces, head?_mem_pieces]
  constructor
  · intro h k hk hlt
    obtain ⟨k, rfl⟩ := Nat.exists_eq_succ_of_ne_zero (Nat.ne_of_gt hk)
    have hget := h k (by rw [List.length_drop]; omega)
    rw [List.getElem?_drop] at hget
    rwa [Nat.mul_succ, add_comm]
  · intro h k hlt
    rw [List.length_drop] at hlt
    rw [List.getElem?_drop, add_comm, ← Nat.mul_succ]
    exact h (k + 1) (Nat.succ_le_succ (Nat.zero_le k)) (by omega)

/-- As many accesses as records. -/
theorem accessCount_iff {l : List UInt8} (hl : l ≠ []) :
    accessCount l = recordCount l ↔ CleanLine l := by
  have hparts : CleanLine l ↔ (l.head? = some equals ∨ (recordOf l).isSome) ∧
      accessCount (l.drop 255) = 0 :=
    ⟨fun h => ⟨h.first, accessCount_drop.2 h.later⟩, fun h => ⟨h.1, accessCount_drop.1 h.2⟩⟩
  rw [hparts, accessCount_eq hl]
  unfold recordCount
  cases h : recordOf l with
  | some r =>
    rw [if_neg (head?_of_recordOf h)]
    simp [Option.toList]
  | none =>
    split
    · rename_i hhead
      simp [hhead]
    · rename_i hhead
      simp [hhead]

/-! ## Clean files -/

theorem stops_equals : Stops equals :=
  ⟨by decide, by decide, by decide, by decide⟩

/-- **The first piece has the record of the line** when the next begins with `=`. -/
theorem scanRecord_take {l : List UInt8} (hl : l ≠ [])
    (hnext : 255 < l.length → l[255]? = some equals) :
    (scanRecord (cString (l.take 255))).1 = (scanRecord (cString l)).1 ∧
      (scanRecord (cString (l.take 255))).2.1 = (scanRecord (cString l)).2.1 := by
  by_cases hlong : 255 < l.length
  · -- the string goes on after the piece only if the piece has no null byte
    have hcut : l = l.take 255 ++ equals :: l.drop 256 := by
      have hget : l[255] = equals := Option.some.inj ((List.getElem?_eq_getElem hlong).symm.trans
        (hnext hlong))
      rw [← hget, ← List.drop_eq_getElem_cons hlong, List.take_append_drop]
    have hne : l.take 255 ≠ [] := by simpa using hl
    generalize l.take 255 = first at hcut hne
    rw [hcut]
    unfold cString
    rw [List.takeWhile_append]
    split
    · rename_i hall
      rw [(List.takeWhile_prefix _).eq_of_length hall, List.takeWhile_cons_of_pos (by decide)]
      cases first with
      | nil => exact absurd rfl hne
      | cons d first =>
        obtain ⟨htype, hvaddr⟩ := scanRecord_stop stops_equals (d := d) first
          ((l.drop 256).takeWhile (· ≠ 0))
        exact ⟨htype.symm, hvaddr.symm⟩
    · exact ⟨rfl, rfl⟩
  · rw [List.take_of_length_le (Nat.le_of_not_lt hlong)]
    exact ⟨rfl, rfl⟩

/-- A clean line is the access that it denotes, whatever the variables were. -/
theorem accesses_line {l : List UInt8} (hl : l ≠ []) (hclean : CleanLine l)
    (rest : List (List UInt8)) (type : UInt8) (vaddr : BitVec 64) :
    ∃ type' vaddr', accesses (pieces l ++ rest) type vaddr =
      (recordOf l).toList ++ accesses rest type' vaddr' := by
  have hskip : ∀ s ∈ pieces (l.drop 255), s.head? = some equals := by
    have hzero := accessCount_drop.2 hclean.later
    unfold accessCount at hzero
    rw [List.countP_eq_zero] at hzero
    simpa using hzero
  have hhead : (l.take 255).head? = l.head? := by
    rw [List.head?_take, if_neg (by decide)]
  rw [pieces_eq hl, List.cons_append]
  cases h : recordOf l with
  | none =>
    have heq : l.head? = some equals := by simpa [h] using hclean.first
    refine ⟨type, vaddr, ?_⟩
    rw [accesses, hhead, if_neg (not_not.2 heq), accesses_skip hskip]
    rfl
  | some r =>
    have hne := head?_of_recordOf h
    refine ⟨r.1, r.2, ?_⟩
    rw [accesses, hhead, if_pos hne]
    dsimp only
    rw [accesses_skip hskip]
    obtain ⟨htype, hvaddr⟩ := scanRecord_take hl fun hlong => hclean.later 1 le_rfl hlong
    rw [recordOf, if_neg hne] at h
    rw [htype, hvaddr]
    split at h
    · rename_i hscan
      cases h
      rw [hscan]
      rfl
    · cases h

theorem accesses_clean {ls : List (List UInt8)} (hne : ∀ l ∈ ls, l ≠ [])
    (hclean : ∀ l ∈ ls, CleanLine l) (type : UInt8) (vaddr : BitVec 64) :
    accesses (ls.flatMap pieces) type vaddr = ls.filterMap recordOf := by
  induction ls generalizing type vaddr with
  | nil => rfl
  | cons l ls ih =>
    obtain ⟨hl, hne⟩ := List.forall_mem_cons.1 hne
    obtain ⟨hline, hclean⟩ := List.forall_mem_cons.1 hclean
    obtain ⟨type', vaddr', h⟩ := accesses_line hl hline (ls.flatMap pieces) type vaddr
    rw [List.flatMap_cons, h, ih hne hclean]
    cases hrecord : recordOf l with
    | none => rw [List.filterMap_cons_none hrecord]; rfl
    | some r => rw [List.filterMap_cons_some hrecord]; rfl

/-- As many accesses as records: the lines are clean. -/
theorem clean_of_count {ls : List (List UInt8)} (hne : ∀ l ∈ ls, l ≠ [])
    (h : (ls.flatMap pieces).countP (·.head? ≠ some equals) ≤ (ls.filterMap recordOf).length) :
    ∀ l ∈ ls, CleanLine l := by
  have hrecords : ∀ ls : List (List UInt8),
      (ls.filterMap recordOf).length = (ls.map recordCount).sum := by
    intro ls
    induction ls with
    | nil => rfl
    | cons l ls ih =>
      rw [List.filterMap_cons, List.map_cons, List.sum_cons, ← ih]
      unfold recordCount
      cases recordOf l with
      | none => simp
      | some r => simp [Nat.add_comm]
  have haccesses : ∀ ls : List (List UInt8), (ls.flatMap pieces).countP (·.head? ≠ some equals) =
      (ls.map accessCount).sum := fun ls => List.countP_flatMap
  rw [haccesses, hrecords] at h
  induction ls with
  | nil => simp
  | cons l ls ih =>
    obtain ⟨hl, hne⟩ := List.forall_mem_cons.1 hne
    have hline : recordCount l ≤ accessCount l := recordCount_le hl
    have hlines : (ls.map recordCount).sum ≤ (ls.map accessCount).sum :=
      List.sum_le_sum fun l hmem => recordCount_le (hne l hmem)
    rw [List.map_cons, List.map_cons, List.sum_cons, List.sum_cons] at h
    exact List.forall_mem_cons.2 ⟨(accessCount_iff hl).1 (by omega), ih hne (by omega)⟩

theorem ne_nil_of_mem_linesOf {file l : List UInt8} (h : l ∈ linesOf file) : l ≠ [] := by
  induction file generalizing l with
  | nil => cases h
  | cons c file ih =>
    obtain ⟨l', ls, hfile⟩ : ∃ l ls, linesOf (c :: file) = l :: ls := linesOf_ne_nil
    obtain ⟨l'', rfl, hrest⟩ := linesOf_cons hfile
    rw [hfile] at h
    obtain rfl | hmem := List.mem_cons.1 h
    · exact List.cons_ne_nil c l''
    · obtain ⟨-, -, rfl⟩ | ⟨-, ⟨-, -, rfl⟩ | hls⟩ := hrest
      · exact ih hmem
      · cases hmem
      · exact ih (by rw [hls]; exact List.mem_cons_of_mem l'' hmem)

/-- **The accesses of a file are its records** if and only if it is clean. -/
theorem replayTrace_iff (type : UInt8) (file : List UInt8) :
    replayTrace type file = (linesOf file).filterMap recordOf ↔ Clean file := by
  have hne : ∀ l ∈ linesOf file, l ≠ [] := fun _ => ne_nil_of_mem_linesOf
  rw [replayTrace_eq]
  constructor
  · intro h
    have hlength := congrArg List.length h
    rw [length_accesses] at hlength
    exact clean_of_count hne hlength.le
  · intro hclean
    exact accesses_clean hne hclean type 0

/-- The line `L 1000` and a blank line. -/
def blankLine : List UInt8 := [76, 32, 49, 48, 48, 48, 10, 10]

/-- The blank line is an access to the address of the line before it. -/
theorem blank_repeats : replayTrace 0 blankLine = [(76, 0x1000), (10, 0x1000)] ∧
    replayTrace 0 blankLine ≠ (linesOf blankLine).filterMap recordOf := by
  decide

end Cscc69.Paging
