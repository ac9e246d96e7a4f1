import Cscc69.Lib.Epochs
import Cscc69.Paging.TraceLines
import Mathlib.Data.Finset.Max

/-!
# fastslim.py

The script reduces a trace. A line that it keeps is a reference to a page, numbered by `ts`. The
references to the pages that are not in the trace buffer go to the buffer and to the list
`toprint`; when the buffer is full, another page makes `emit_marked_in_ts_order` print the list and
empty both. So the references are cut into epochs, and `fastslim_eq` says what the script has
printed and holds after any input: of each closed epoch it has printed the first reference to each
page, and of the open one it holds these.

Two things of the algorithm are missing.

* At the end of the input the list is not printed: a page is lost if it occurs in the last epoch
  only (`losesNoPage_iff`).
* A page in the buffer is looked up with a new item, and it is this one that is marked and gets the
  new timestamp, not the one in the buffer. So nothing in the buffer is ever marked, and the last
  reference to a page is printed only if it is the first (`keepsLast_iff`).
-/

namespace Cscc69.Traceprogs

open CText Epochs

/-! ## Strings -/

def comma : UInt8 := 44

/-- `s.strip()` -/
def strip (s : List UInt8) : List UInt8 :=
  ((s.dropWhile isSpace).reverse.dropWhile isSpace).reverse

/-- `s.split(',')[0]` -/
def splitComma (s : List UInt8) : List UInt8 := s.takeWhile (· ≠ comma)

/-- `int(s, 16)`, or `ValueError`: a sign, `0x` and digits. -/
def int16 (s : List UInt8) : Option ℤ :=
  let (negative, digits) := scanSign (strip s)
  let digits := scanPrefix digits
  if digits ≠ [] ∧ digits.all isHex then
    some (if negative then -(hexValue digits : ℤ) else hexValue digits)
  else none

/-! ## The script -/

structure TraceItem where
  reftype : List UInt8
  pg : ℤ
  tstamp : ℕ
  marked : Bool
  deriving DecidableEq

structure Args where
  keepcode : Bool
  buffersize : ℤ

/-- The global variables, and what each call of `emit_marked_in_ts_order` has printed. -/
structure State where
  ts : ℕ
  tracebuffer : List TraceItem
  toprint : List TraceItem
  printed : List (List TraceItem)

def State.initial : State := ⟨0, [], [], []⟩

def emitMarkedInTsOrder (s : State) : State :=
  let toprint := s.toprint ++ s.tracebuffer.filter (·.marked)
  let toprint := toprint.mergeSort fun a b => a.tstamp ≤ b.tstamp
  { s with tracebuffer := [], toprint := [], printed := s.printed ++ [toprint] }

/-- `I`, an instruction fetch. -/
def fetch : List UInt8 := [73]

/-- The type and the page of a line that is kept. -/
def parseLine (keepcode : Bool) (line : List UInt8) : Option (List UInt8 × ℤ) :=
  if line.head? = some Paging.equals then none
  else
    let reftype := strip (line.take 2)
    if reftype = fetch ∧ keepcode = false then none
    else
      let addrstr := strip ((splitComma line).drop 3)
      match int16 addrstr with
      | none => none
      | some addr => some (reftype, addr.fdiv 4096)

/-- The rest of the loop's body. Items are equal if their pages are. -/
def reference (args : Args) (s : State) (reftype : List UInt8) (pg : ℤ) : State :=
  let ti : TraceItem := ⟨reftype, pg, s.ts, false⟩
  let s :=
    if ti.pg ∈ s.tracebuffer.map (·.pg) then
      -- `ti` is marked and gets the timestamp; the item in the buffer is another object
      s
    else
      let s := if (s.tracebuffer.length : ℤ) = args.buffersize then emitMarkedInTsOrder s else s
      { s with toprint := s.toprint ++ [ti], tracebuffer := s.tracebuffer ++ [ti] }
  { s with ts := s.ts + 1 }

def processLine (args : Args) (s : State) (line : List UInt8) : State :=
  match parseLine args.keepcode line with
  | none => s
  | some (reftype, pg) => reference args s reftype pg

/-- The script, on the bytes of the trace. -/
def fastslim (args : Args) (file : List UInt8) : State :=
  (Paging.linesOf file).foldl (processLine args) State.initial

/-- The records that it prints. -/
def output (args : Args) (file : List UInt8) : List TraceItem :=
  (fastslim args file).printed.flatten

/-! ## The references -/

/-- References, numbered from `ts` on. -/
def stamped : ℕ → List (List UInt8 × ℤ) → List TraceItem
  | _, [] => []
  | ts, (reftype, pg) :: refs => ⟨reftype, pg, ts, false⟩ :: stamped (ts + 1) refs

/-- The references of the kept lines. -/
def references (args : Args) (file : List UInt8) : List TraceItem :=
  stamped 0 ((Paging.linesOf file).filterMap (parseLine args.keepcode))

theorem le_of_mem_stamped {ts : ℕ} {refs : List (List UInt8 × ℤ)} {ti : TraceItem}
    (h : ti ∈ stamped ts refs) : ts ≤ ti.tstamp ∧ ti.marked = false := by
  induction refs generalizing ts with
  | nil => cases h
  | cons r refs ih =>
    obtain rfl | h := List.mem_cons.1 h
    · exact ⟨le_rfl, rfl⟩
    · exact ⟨Nat.le_of_succ_le (ih h).1, (ih h).2⟩

theorem stamped_pairwise (ts : ℕ) (refs : List (List UInt8 × ℤ)) :
    (stamped ts refs).Pairwise (·.tstamp < ·.tstamp) := by
  induction refs generalizing ts with
  | nil => exact List.Pairwise.nil
  | cons r refs ih =>
    exact List.pairwise_cons.2 ⟨fun ti h => (le_of_mem_stamped h).1, ih (ts + 1)⟩

/-- The loop takes the references one after the other. -/
theorem foldl_processLine (args : Args) (s : State) (lines : List (List UInt8)) :
    lines.foldl (processLine args) s =
      (lines.filterMap (parseLine args.keepcode)).foldl
        (fun s r => reference args s r.1 r.2) s := by
  induction lines generalizing s with
  | nil => rfl
  | cons line lines ih =>
    rw [List.foldl_cons, ih, processLine]
    cases h : parseLine args.keepcode line with
    | none => rw [List.filterMap_cons_none h]
    | some r => rw [List.filterMap_cons_some h, List.foldl_cons]

/-! ## The buffer -/

/-- The buffer and the list hold the first references of the open epoch. -/
structure Holds (s : State) (cur : List TraceItem) : Prop where
  buffer : s.tracebuffer = firsts (·.pg) cur
  list : s.toprint = firsts (·.pg) cur
  unmarked : ∀ ti ∈ cur, ti.marked = false
  before : ∀ ti ∈ cur, ti.tstamp < s.ts
  ordered : cur.Pairwise (·.tstamp < ·.tstamp)

variable {args : Args} {k : ℕ} {s : State} {cur : List TraceItem}

theorem holds_initial : Holds State.initial [] :=
  ⟨rfl, rfl, by simp, by simp, List.Pairwise.nil⟩

/-- **Nothing in the buffer is marked**, and the list is in order. -/
theorem Holds.emit (h : Holds s cur) : emitMarkedInTsOrder s =
    { s with tracebuffer := [], toprint := [], printed := s.printed ++ [firsts (·.pg) cur] } := by
  have hnone : s.tracebuffer.filter (·.marked) = [] := by
    rw [List.filter_eq_nil_iff, h.buffer]
    intro ti hti
    rw [h.unmarked ti ((firsts_sublist _ _).subset hti)]
    exact Bool.false_ne_true
  have hsorted : (firsts (·.pg) cur).mergeSort (fun a b => a.tstamp ≤ b.tstamp) =
      firsts (·.pg) cur := by
    apply List.mergeSort_of_pairwise
    exact (h.ordered.sublist (firsts_sublist _ _)).imp fun hlt => decide_eq_true hlt.le
  unfold emitMarkedInTsOrder
  rw [hnone, h.list, List.append_nil]
  dsimp only
  rw [hsorted]

theorem Holds.concat (h : Holds s cur) {s' : State} {ti : TraceItem} (hts : ti.tstamp = s.ts)
    (hmarked : ti.marked = false) (hts' : s'.ts = s.ts + 1)
    (hbuffer : s'.tracebuffer = firsts (·.pg) (cur ++ [ti]))
    (hlist : s'.toprint = firsts (·.pg) (cur ++ [ti])) : Holds s' (cur ++ [ti]) := by
  refine ⟨hbuffer, hlist, ?_, ?_, ?_⟩
  · intro t ht
    obtain ht | ht := List.mem_append.1 ht
    · exact h.unmarked t ht
    · rwa [List.mem_singleton.1 ht]
  · intro t ht
    rw [hts']
    obtain ht | ht := List.mem_append.1 ht
    · exact Nat.lt_succ_of_lt (h.before t ht)
    · rw [List.mem_singleton.1 ht, hts]
      exact Nat.lt_succ_self _
  · refine List.pairwise_append.2 ⟨h.ordered, List.pairwise_singleton _ _, fun t ht t' ht' => ?_⟩
    rw [List.mem_singleton.1 ht', hts]
    exact h.before t ht

/-- A page of the open epoch. -/
theorem Holds.hit (h : Holds s cur) (reftype : List UInt8) {pg : ℤ} (hpg : pg ∈ cur.map (·.pg)) :
    Holds (reference args s reftype pg) (cur ++ [⟨reftype, pg, s.ts, false⟩]) ∧
      (reference args s reftype pg).printed = s.printed := by
  have hmem : pg ∈ s.tracebuffer.map (·.pg) := by
    rw [h.buffer]
    exact mem_keys_firsts.2 hpg
  have hrun : reference args s reftype pg = { s with ts := s.ts + 1 } := by
    unfold reference
    dsimp only
    rw [if_pos hmem]
  have hfirsts : firsts (·.pg) (cur ++ [⟨reftype, pg, s.ts, false⟩]) = firsts (·.pg) cur :=
    firsts_concat_of_mem hpg
  rw [hrun]
  exact ⟨h.concat rfl rfl rfl (h.buffer.trans hfirsts.symm) (h.list.trans hfirsts.symm), rfl⟩

/-- One more page, and there is room in the buffer. -/
theorem Holds.room (h : Holds s cur) (hsize : args.buffersize = k) (reftype : List UInt8) {pg : ℤ}
    (hpg : pg ∉ cur.map (·.pg)) (hroom : (cur.map (·.pg)).toFinset.card < k) :
    Holds (reference args s reftype pg) (cur ++ [⟨reftype, pg, s.ts, false⟩]) ∧
      (reference args s reftype pg).printed = s.printed := by
  have hmem : pg ∉ s.tracebuffer.map (·.pg) := by
    rw [h.buffer]
    exact mt mem_keys_firsts.1 hpg
  have hfull : (s.tracebuffer.length : ℤ) ≠ args.buffersize := by
    rw [h.buffer, length_firsts, hsize]
    exact Nat.cast_injective.ne hroom.ne
  have hrun : reference args s reftype pg = { s with
      ts := s.ts + 1
      toprint := s.toprint ++ [⟨reftype, pg, s.ts, false⟩]
      tracebuffer := s.tracebuffer ++ [⟨reftype, pg, s.ts, false⟩] } := by
    unfold reference
    dsimp only
    rw [if_neg hmem, if_neg hfull]
  have hfirsts : firsts (·.pg) (cur ++ [⟨reftype, pg, s.ts, false⟩]) =
      firsts (·.pg) cur ++ [⟨reftype, pg, s.ts, false⟩] := firsts_concat_of_notMem hpg
  rw [hrun]
  refine ⟨h.concat rfl rfl rfl ?_ ?_, rfl⟩
  · rw [hfirsts, ← h.buffer]
  · rw [hfirsts, ← h.list]

/-- One more page, and the buffer is full. -/
theorem Holds.full (h : Holds s cur) (hsize : args.buffersize = k) (reftype : List UInt8) {pg : ℤ}
    (hpg : pg ∉ cur.map (·.pg)) (hfull : (cur.map (·.pg)).toFinset.card = k) :
    Holds (reference args s reftype pg) [⟨reftype, pg, s.ts, false⟩] ∧
      (reference args s reftype pg).printed = s.printed ++ [firsts (·.pg) cur] := by
  have hmem : pg ∉ s.tracebuffer.map (·.pg) := by
    rw [h.buffer]
    exact mt mem_keys_firsts.1 hpg
  have hlength : (s.tracebuffer.length : ℤ) = args.buffersize := by
    rw [h.buffer, length_firsts, hsize, hfull]
  have hrun : reference args s reftype pg = { s with
      ts := s.ts + 1
      toprint := [⟨reftype, pg, s.ts, false⟩]
      tracebuffer := [⟨reftype, pg, s.ts, false⟩]
      printed := s.printed ++ [firsts (·.pg) cur] } := by
    unfold reference
    dsimp only
    rw [if_neg hmem, if_pos hlength, h.emit]
    rfl
  rw [hrun]
  refine ⟨⟨?_, ?_, ?_, ?_, List.pairwise_singleton _ _⟩, rfl⟩
  · exact firsts_singleton.symm
  · exact firsts_singleton.symm
  · simp
  · simp

theorem reference_ts (reftype : List UInt8) (pg : ℤ) :
    (reference args s reftype pg).ts = s.ts + 1 := by
  unfold reference emitMarkedInTsOrder
  dsimp only
  split_ifs <;> rfl

/-- **What the script has printed and holds** after more references. -/
theorem Holds.foldl (h : Holds s cur) (hk : 0 < k) (hsize : args.buffersize = k)
    (hcur : (cur.map (·.pg)).toFinset.card ≤ k) (refs : List (List UInt8 × ℤ)) :
    Holds (refs.foldl (fun s r => reference args s r.1 r.2) s)
        (epochsFrom (·.pg) k cur (stamped s.ts refs)).2 ∧
      (refs.foldl (fun s r => reference args s r.1 r.2) s).printed =
        s.printed ++ (epochsFrom (·.pg) k cur (stamped s.ts refs)).1.map (firsts (·.pg)) := by
  induction refs generalizing s cur with
  | nil => exact ⟨h, (List.append_nil _).symm⟩
  | cons r refs ih =>
    obtain ⟨reftype, pg⟩ := r
    rw [List.foldl_cons, stamped]
    have hts : (reference args s reftype pg).ts = s.ts + 1 := reference_ts reftype pg
    by_cases hgoes : pg ∈ cur.map (·.pg) ∨ (cur.map (·.pg)).toFinset.card < k
    · obtain ⟨hholds, hprinted⟩ : Holds (reference args s reftype pg)
          (cur ++ [⟨reftype, pg, s.ts, false⟩]) ∧
          (reference args s reftype pg).printed = s.printed := by
        by_cases hpg : pg ∈ cur.map (·.pg)
        · exact h.hit reftype hpg
        · exact h.room hsize reftype hpg (hgoes.resolve_left hpg)
      have hrest := ih hholds (card_concat_le hgoes hcur)
      rw [hts, hprinted] at hrest
      rw [epochsFrom_cons_of_pos hgoes]
      exact hrest
    · obtain ⟨hpg, hroom⟩ := not_or.1 hgoes
      have hfull : (cur.map (·.pg)).toFinset.card = k := le_antisymm hcur (Nat.le_of_not_lt hroom)
      obtain ⟨hholds, hprinted⟩ := h.full hsize reftype hpg hfull
      have hrest := ih hholds (by simpa using Nat.succ_le_of_lt hk)
      rw [hts, hprinted] at hrest
      rw [epochsFrom_cons_of_neg hgoes, List.map_cons, List.append_cons]
      exact hrest

/-- The closed epochs of the references, and the open one. -/
def epochsOf (args : Args) (file : List UInt8) : List (List TraceItem) × List TraceItem :=
  epochs (·.pg) args.buffersize.toNat (references args file)

theorem epochsOf_cut (hsize : 1 ≤ args.buffersize) (file : List UInt8) :
    Cut (·.pg) args.buffersize.toNat (references args file) (epochsOf args file).1
      (epochsOf args file).2 :=
  epochs_cut (by omega) _

/-- **What the script has printed and holds** at the end of the input. -/
theorem fastslim_eq (hsize : 1 ≤ args.buffersize) (file : List UInt8) :
    Holds (fastslim args file) (epochsOf args file).2 ∧
      (fastslim args file).printed = (epochsOf args file).1.map (firsts (·.pg)) := by
  have hk : args.buffersize = (args.buffersize.toNat : ℤ) := by omega
  have hcard : (([] : List TraceItem).map (·.pg)).toFinset.card ≤ args.buffersize.toNat :=
    Nat.zero_le _
  unfold fastslim
  rw [foldl_processLine]
  exact holds_initial.foldl (by omega) hk hcard _

theorem references_pairwise (args : Args) (file : List UInt8) :
    (references args file).Pairwise (·.tstamp < ·.tstamp) := stamped_pairwise 0 _

/-- The records are some of the references of the closed epochs. -/
theorem output_sublist (hsize : 1 ≤ args.buffersize) (file : List UInt8) :
    (output args file).Sublist (epochsOf args file).1.flatten := by
  unfold output
  rw [(fastslim_eq hsize file).2]
  induction (epochsOf args file).1 with
  | nil => exact List.Sublist.refl _
  | cons e es ih =>
    rw [List.map_cons, List.flatten_cons, List.flatten_cons]
    exact (firsts_sublist _ e).append ih

/-- The pages of the closed epochs are printed. -/
theorem mem_output (hsize : 1 ≤ args.buffersize) {file : List UInt8} {pg : ℤ} :
    (∃ o ∈ output args file, o.pg = pg) ↔ ∃ r ∈ (epochsOf args file).1.flatten, r.pg = pg := by
  unfold output
  rw [(fastslim_eq hsize file).2]
  simp only [List.mem_flatten, List.mem_map]
  constructor
  · rintro ⟨o, ⟨fs, ⟨e, he, rfl⟩, ho⟩, rfl⟩
    exact ⟨o, ⟨e, he, (firsts_sublist _ e).subset ho⟩, rfl⟩
  · rintro ⟨r, ⟨e, he, hr⟩, rfl⟩
    have hkey : r.pg ∈ e.map (·.pg) := List.mem_map_of_mem hr
    obtain ⟨o, ho, hpg⟩ := List.mem_map.1 (mem_keys_firsts.2 hkey)
    exact ⟨o, ⟨_, ⟨e, he, rfl⟩, ho⟩, hpg⟩

/-! ## The pages -/

/-- There is a record for each page that is referenced, and for no other page, and the records are
in order. -/
structure LosesNoPage (refs out : List TraceItem) : Prop where
  complete : ∀ r ∈ refs, ∃ o ∈ out, o.pg = r.pg
  sound : ∀ o ∈ out, ∃ r ∈ refs, r.pg = o.pg
  ordered : out.Pairwise (·.tstamp ≤ ·.tstamp)

/-- **No page is lost** if and only if the last epoch has no page that the closed ones do not have.
-/
theorem losesNoPage_iff (args : Args) (hsize : 1 ≤ args.buffersize) (file : List UInt8) :
    LosesNoPage (references args file) (output args file) ↔
      ∀ r ∈ (epochsOf args file).2, ∃ r' ∈ (epochsOf args file).1.flatten, r'.pg = r.pg := by
  have hflatten := (epochsOf_cut hsize file).flatten
  have hsub := output_sublist hsize file
  have hclosed : (epochsOf args file).1.flatten.Sublist (references args file) := by
    rw [← hflatten]
    exact List.sublist_append_left _ _
  constructor
  · intro h r hr
    have hmem : r ∈ references args file := by
      rw [← hflatten]
      exact List.mem_append_right _ hr
    exact (mem_output hsize).1 (h.complete r hmem)
  · intro h
    refine ⟨fun r hr => ?_, fun o ho => ⟨o, (hsub.trans hclosed).subset ho, rfl⟩, ?_⟩
    · rw [← hflatten] at hr
      obtain hr | hr := List.mem_append.1 hr
      · exact (mem_output hsize).2 ⟨r, hr, rfl⟩
      · exact (mem_output hsize).2 (h r hr)
    · exact ((references_pairwise args file).sublist (hsub.trans hclosed)).imp fun hlt => hlt.le

/-- Loads from the pages 1, 2 and 1. -/
def oneTwoOne : List UInt8 :=
  [32, 76, 32, 49, 48, 48, 48, 44, 56, 10, 32, 76, 32, 50, 48, 48, 48, 44, 56, 10,
    32, 76, 32, 49, 48, 48, 48, 44, 56, 10]

/-- With one page in the buffer, page 1 was in an epoch before the last one. -/
theorem losesNoPage_iff_one :
    LosesNoPage (references ⟨false, 1⟩ oneTwoOne) (output ⟨false, 1⟩ oneTwoOne) :=
  (losesNoPage_iff ⟨false, 1⟩ (by decide) oneTwoOne).2 (by decide)

/-- With four, nothing is printed. -/
theorem last_epoch_lost :
    ¬ LosesNoPage (references ⟨false, 4⟩ oneTwoOne) (output ⟨false, 4⟩ oneTwoOne) := by
  intro h
  have hr : (⟨[76], 1, 0, false⟩ : TraceItem) ∈ references ⟨false, 4⟩ oneTwoOne := by decide
  obtain ⟨o, ho, -⟩ := h.complete _ hr
  have hnone : output ⟨false, 4⟩ oneTwoOne = [] := by decide
  rw [hnone] at ho
  cases ho

/-! ## The last references -/

/-- Of an epoch, the last reference to each page that is referenced more than once is printed, and
the pages were last used in the order in which the records use them last. -/
structure KeepsLast (e out : List TraceItem) : Prop where
  last : ∀ r ∈ e, 2 ≤ (e.map (·.pg)).count r.pg →
    (∀ r' ∈ e, r'.pg = r.pg → r'.tstamp ≤ r.tstamp) →
      ∃ o ∈ out, o.pg = r.pg ∧ o.tstamp = r.tstamp
  order : (out.map (·.pg)).dedup = (e.map (·.pg)).dedup

/-- The references to a page that is referenced more than once have different timestamps. -/
theorem exists_earlier {e : List TraceItem} (he : e.Pairwise (·.tstamp < ·.tstamp)) {pg : ℤ}
    (hcount : 2 ≤ (e.map (·.pg)).count pg) :
    ∃ r ∈ e, ∃ r' ∈ e, r.pg = pg ∧ r'.pg = pg ∧ r.tstamp < r'.tstamp := by
  have hlength : 2 ≤ (e.filter (·.pg = pg)).length := by
    rw [List.count, List.countP_map, List.countP_eq_length_filter] at hcount
    exact hcount
  have hpair := he.filter (·.pg = pg)
  have hmem : ∀ r ∈ e.filter (·.pg = pg), r ∈ e ∧ r.pg = pg := fun r hr => by
    simpa using hr
  match hrefs : e.filter (·.pg = pg) with
  | [] => rw [hrefs] at hlength; cases hlength
  | [_] => rw [hrefs] at hlength; simp at hlength
  | r :: r' :: rest =>
    rw [hrefs] at hpair hmem
    obtain ⟨hr, hpg⟩ := hmem r (by simp)
    obtain ⟨hr', hpg'⟩ := hmem r' (by simp)
    exact ⟨r, hr, r', hr', hpg, hpg', List.rel_of_pairwise_cons hpair (by simp)⟩

/-- **The first references** are the last ones if and only if no page is referenced twice. -/
theorem keepsLast_firsts {e : List TraceItem} (he : e.Pairwise (·.tstamp < ·.tstamp)) :
    KeepsLast e (firsts (·.pg) e) ↔ (e.map (·.pg)).Nodup := by
  constructor
  · intro h
    by_contra hdup
    obtain ⟨pg, hpg⟩ := List.exists_duplicate_iff_not_nodup.2 hdup
    obtain ⟨r₁, hr₁, r₂, hr₂, hpg₁, hpg₂, hlt⟩ :=
      exists_earlier he (List.duplicate_iff_two_le_count.1 hpg)
    -- the last reference to the page
    obtain ⟨r, hr, hmax⟩ := Finset.exists_max_image (e.toFinset.filter (·.pg = pg)) (·.tstamp)
      ⟨r₁, by simp [hr₁, hpg₁]⟩
    obtain ⟨hre, hrpg⟩ : r ∈ e ∧ r.pg = pg := by simpa using hr
    have hlast : ∀ r' ∈ e, r'.pg = r.pg → r'.tstamp ≤ r.tstamp := fun r' hr' hpg' =>
      hmax r' (by simp [hr', hpg', hrpg])
    obtain ⟨o, ho, hopg, hots⟩ := h.last r hre
      (by rw [hrpg]; exact List.duplicate_iff_two_le_count.1 hpg) hlast
    -- it is printed, so it is also the first one
    have hfirst : o.tstamp ≤ r₁.tstamp := by
      have hkey : r₁.pg = o.pg := by rw [hpg₁, hopg, hrpg]
      obtain rfl | hlt := firsts_first he ho hr₁ hkey
      · exact le_rfl
      · exact hlt.le
    have hle := hlast r₂ hr₂ (hpg₂.trans hrpg.symm)
    omega
  · intro hnodup
    rw [firsts_eq_self.2 hnodup]
    exact ⟨fun r hr _ _ => ⟨r, hr, rfl, rfl⟩, rfl⟩

/-- **The last references of an epoch** are printed if and only if it has no page twice. -/
theorem keepsLast_iff (args : Args) (hsize : 1 ≤ args.buffersize) (file : List UInt8) :
    List.Forall₂ (fun e out => KeepsLast e out ↔ (e.map (·.pg)).Nodup) (epochsOf args file).1
      (fastslim args file).printed := by
  rw [(fastslim_eq hsize file).2, List.forall₂_map_right_iff, List.forall₂_same]
  intro e he
  have hsub : e.Sublist (references args file) := by
    rw [← (epochsOf_cut hsize file).flatten]
    exact (List.sublist_flatten_of_mem he).trans (List.sublist_append_left _ _)
  exact keepsLast_firsts ((references_pairwise args file).sublist hsub)

/-- The epochs of the pages 1 and 2. -/
theorem keepsLast_iff_one :
    (epochsOf ⟨false, 1⟩ oneTwoOne).1 = [[⟨[76], 1, 0, false⟩], [⟨[76], 2, 1, false⟩]] ∧
      List.Forall₂ KeepsLast (epochsOf ⟨false, 1⟩ oneTwoOne).1
        (fastslim ⟨false, 1⟩ oneTwoOne).printed := by
  have hclosed : (epochsOf ⟨false, 1⟩ oneTwoOne).1 =
      [[⟨[76], 1, 0, false⟩], [⟨[76], 2, 1, false⟩]] := by decide
  have hkeeps := keepsLast_iff ⟨false, 1⟩ (by decide) oneTwoOne
  generalize (fastslim ⟨false, 1⟩ oneTwoOne).printed = printed at hkeeps ⊢
  rw [hclosed] at hkeeps ⊢
  obtain _ | ⟨hone, _ | ⟨htwo, ⟨⟩⟩⟩ := hkeeps
  exact ⟨rfl, .cons (hone.2 (by decide)) (.cons (htwo.2 (by decide)) .nil)⟩

/-- Loads from the pages 1, 2, 1 and 3. -/
def oneTwoOneThree : List UInt8 :=
  oneTwoOne ++ [32, 76, 32, 51, 48, 48, 48, 44, 56, 10]

/-- Page 1 was used after page 2, and is printed before it. -/
theorem last_reference_lost : ¬ List.Forall₂ KeepsLast (epochsOf ⟨false, 2⟩ oneTwoOneThree).1
    (fastslim ⟨false, 2⟩ oneTwoOneThree).printed := by
  have hclosed : (epochsOf ⟨false, 2⟩ oneTwoOneThree).1 =
      [[⟨[76], 1, 0, false⟩, ⟨[76], 2, 1, false⟩, ⟨[76], 1, 2, false⟩]] := by decide
  rw [(fastslim_eq (by decide) oneTwoOneThree).2, hclosed]
  rintro (_ | ⟨h, -⟩)
  exact absurd h.order (by decide)

end Cscc69.Traceprogs
