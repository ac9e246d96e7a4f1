import Cscc69.Lib.Scanf
import Cscc69.Paging.Opt
import Mathlib.Data.List.TakeWhile

/-!
# The two readers of the trace file

`replay_trace` reads the file line by line, skips the lines that begin with `=`, and takes a type
and a 64-bit address from each of the others (`replayTrace_bytes`). `opt_init` reads it in a loop of
its own: a byte with `fgetc`, which is the type of the first record and the newline before each of
the others, and then a byte and a 32-bit number with `fscanf`. It

* does not skip the lines that begin with `=`,
* stores only the lower half of an address, and the upper half stays as `malloc` left it,
* keeps what `fgetc` returns in a `char`, so that the byte 0xFF ends the file.

`readers_agree_iff` says that on a file without `=` lines the other two are all that can go wrong. A
line `= end` behind the last record does no harm, but only because it is short: it adds items that
nothing refers to, and there is room for them in `addrs`. `optInit_init` hands over to the opt
policy.
-/

namespace Cscc69.Paging

open CText

def maxline : ℕ := 256

/-- `=` -/
def equals : UInt8 := 61

/-- What `char ch` holds when `fgetc` returned `EOF`, and when it returned this byte. -/
def eofChar : UInt8 := 0xFF

/-! ## replay_trace -/

/-- The accesses that the loop makes, with the variables `type` and `vaddr` as they were. -/
def replayLoop : ℕ → List UInt8 → UInt8 → BitVec 64 → List (UInt8 × BitVec 64)
  | 0, _, _, _ => []
  | fuel + 1, infp, type, vaddr =>
    match fgets maxline infp with
    | none => []
    | some (buf, infp) =>
      if buf.head? ≠ some equals then
        -- the string ends at the first null byte
        let (c, v, _) := scanRecord (buf.takeWhile (· ≠ 0))
        let type := c.getD type
        let vaddr := v.getD vaddr
        (type, vaddr) :: replayLoop fuel infp type vaddr
      else replayLoop fuel infp type vaddr

/-- The accesses of a file; `type` is not initialised. -/
def replayTrace (type : UInt8) (infp : List UInt8) : List (UInt8 × BitVec 64) :=
  replayLoop infp.length infp type 0

/-! ## opt_init -/

/-- The newlines of the file. -/
def countLines : List UInt8 → ℕ
  | [] => 0
  | ch :: file =>
    if ch = eofChar then 0
    else if ch = newline then countLines file + 1 else countLines file

/-- A number stored through an `unsigned *` that points to a 64-bit variable. -/
def storeLow (addr v : BitVec 64) : BitVec 64 := addr >>> 32 <<< 32 ||| (v.setWidth 32).setWidth 64

/-- The list of items; `junk i` is what `malloc` returns for item `i`. -/
def readItems (junk : ℕ → TraceItem) : ℕ → ℕ → List UInt8 → List TraceItem
  | 0, _, _ => []
  | _, _, [] => []
  | fuel + 1, i, ch :: file =>
    if ch = eofChar then []
    else
      let (_, v, file) := scanRecord file
      { index := (junk i).index
        time := i
        addr := (v.map (storeLow (junk i).addr)).getD (junk i).addr } ::
        readItems junk fuel (i + 1) file

/-- `opt_init`, where `malloc` returns `table` for `addrs`. -/
def optInit (junk : ℕ → TraceItem) (table : ℕ → BitVec 64) (file : List UInt8) : OptData :=
  let items := readItems junk file.length 0 file
  { pre := none
    cur := items
    lines := countLines file + 1
    addrs := fun i => (items[i]?.map (·.addr)).getD (table i)
    memory := fun _ => -1 }

/-! ## Trace files -/

/-- A line of text: a comment, or a type and an address. -/
inductive Line
  | comment (text : List UInt8) (no_newline : newline ∉ text)
  | access (type : UInt8) (type_ok : type ≠ 0 ∧ type ≠ newline ∧ type ≠ equals) (address : HexText)

def Line.text : Line → List UInt8
  | .comment text _ => equals :: text
  | .access type _ address => type :: blank :: address.text

def Line.record? : Line → Option (UInt8 × BitVec 64)
  | .comment _ _ => none
  | .access type _ address => some (type, address.value)

/-- The lines are shorter than `MAXLINE`, with their newlines. -/
structure TraceFile where
  lines : List Line
  short : ∀ l ∈ lines, l.text.length + 1 < maxline

/-- The lines and their newlines. -/
def bytesOf (lines : List Line) : List UInt8 := lines.flatMap fun l => l.text ++ [newline]

def TraceFile.bytes (f : TraceFile) : List UInt8 := bytesOf f.lines

def TraceFile.records (f : TraceFile) : List (UInt8 × BitVec 64) := f.lines.filterMap Line.record?

theorem bytesOf_cons (l : Line) (lines : List Line) :
    bytesOf (l :: lines) = l.text ++ newline :: bytesOf lines := by
  simp [bytesOf]

theorem hex_not_mem {t : HexText} {c : UInt8} (hc : isHex c = false) (hx : c ≠ 120) (hX : c ≠ 88) :
    c ∉ t.text := by
  intro h
  have hzero : c ≠ 48 := (isHex_ne (by decide) hc).symm
  obtain h | h := List.mem_append.1 h
  · obtain hpre | hpre | hpre := t.pre_ok
    · rw [hpre] at h
      cases h
    · rw [hpre] at h
      simp [hzero, hx] at h
    · rw [hpre] at h
      simp [hzero, hX] at h
  · exact isHex_ne (t.digits_hex c h) hc rfl

theorem Line.no_newline (l : Line) : newline ∉ l.text := by
  cases l with
  | comment text hnew =>
    intro h
    obtain h | h := List.mem_cons.1 h
    · exact absurd h (by decide)
    · exact hnew h
  | access type hok t =>
    intro h
    obtain h | h := List.mem_cons.1 h
    · exact hok.2.1 h.symm
    obtain h | h := List.mem_cons.1 h
    · exact absurd h (by decide)
    · exact hex_not_mem (by decide) (by decide) (by decide) h

theorem isSpace_blank : ∀ c ∈ [blank], isSpace c = true := List.forall_mem_singleton.2 rfl

theorem ends_newline (rest : List UInt8) : Ends (newline :: rest) := by
  intro c hc
  obtain rfl := Option.some.inj hc
  decide

/-- **`replay_trace` reads the records.** -/
theorem replayLoop_bytes {lines : List Line} (hshort : ∀ l ∈ lines, l.text.length + 1 < maxline)
    {fuel : ℕ} (hfuel : (bytesOf lines).length ≤ fuel) (type : UInt8) (vaddr : BitVec 64) :
    replayLoop fuel (bytesOf lines) type vaddr = lines.filterMap Line.record? := by
  induction lines generalizing fuel type vaddr with
  | nil =>
    cases fuel with
    | zero => rfl
    | succ fuel => rfl
  | cons l lines ih =>
    rw [bytesOf_cons] at hfuel ⊢
    rw [List.length_append, List.length_cons] at hfuel
    obtain ⟨fuel, rfl⟩ : ∃ fuel', fuel = fuel' + 1 :=
      Nat.exists_eq_succ_of_ne_zero (by omega)
    have ih := fun type vaddr => ih (fun l hl => hshort l (List.mem_cons_of_mem _ hl))
      (show (bytesOf lines).length ≤ fuel by omega) type vaddr
    unfold replayLoop
    rw [fgets_line _ l.no_newline (hshort l List.mem_cons_self)]
    dsimp only
    cases l with
    | comment text hnew =>
      rw [if_neg (by simp [Line.text])]
      exact ih type vaddr
    | access type' hok t =>
      have hhead : (Line.text (.access type' hok t) ++ [newline]).head? ≠ some equals := by
        intro heq
        exact hok.2.2 (Option.some.inj heq)
      have hstring : (Line.text (.access type' hok t) ++ [newline]).takeWhile (· ≠ 0) =
          type' :: ([blank] ++ (t.text ++ [newline])) := by
        refine List.takeWhile_eq_self_iff.2 fun c hc => decide_eq_true ?_
        rintro rfl
        obtain hc | hc := List.mem_append.1 hc
        · obtain hc | hc := List.mem_cons.1 hc
          · exact hok.1 hc.symm
          obtain hc | hc := List.mem_cons.1 hc
          · exact absurd hc (by decide)
          · exact hex_not_mem (by decide) (by decide) (by decide) hc
        · exact absurd hc (by decide)
      rw [if_pos hhead, hstring, scanRecord_record type' t isSpace_blank (ends_newline [])]
      dsimp only
      rw [ih]
      rfl

theorem replayTrace_bytes (f : TraceFile) (type : UInt8) : replayTrace type f.bytes = f.records :=
  replayLoop_bytes f.short le_rfl type 0

/-! ## The items -/

/-- The items of these records, and the one that the last newline makes. -/
def itemsOf (junk : ℕ → TraceItem) : ℕ → List (UInt8 × BitVec 64) → List TraceItem
  | i, [] => [⟨(junk i).index, i, (junk i).addr⟩]
  | i, r :: records =>
    ⟨(junk i).index, i, storeLow (junk i).addr r.2⟩ :: itemsOf junk (i + 1) records

/-- No line is a comment. -/
def Plain (lines : List Line) : Prop := ∀ l ∈ lines, (Line.record? l).isSome = true

variable {junk : ℕ → TraceItem} {lines : List Line} {fuel : ℕ}

theorem Plain.cons {l : Line} (h : Plain (l :: lines)) :
    ∃ type hok t, l = .access type hok t ∧ Plain lines := by
  have hl := h l List.mem_cons_self
  cases l with
  | comment text hnew => cases hl
  | access type hok t => exact ⟨type, hok, t, rfl, fun l hl => h l (List.mem_cons_of_mem _ hl)⟩

/-- **After the first record** `opt_init` reads a newline and a record at a time. -/
theorem readItems_rest (h : Plain lines) (hfuel : (bytesOf lines).length < fuel) (i : ℕ) :
    readItems junk fuel i (newline :: bytesOf lines) =
      itemsOf junk i (lines.filterMap Line.record?) := by
  induction lines generalizing fuel i with
  | nil =>
    obtain ⟨fuel, rfl⟩ := Nat.exists_eq_succ_of_ne_zero (Nat.ne_of_gt hfuel)
    cases fuel with
    | zero => rfl
    | succ fuel => rfl
  | cons l lines ih =>
    obtain ⟨type, hok, t, rfl, hplain⟩ := h.cons
    rw [bytesOf_cons] at hfuel ⊢
    rw [List.length_append, List.length_cons] at hfuel
    obtain ⟨fuel, rfl⟩ : ∃ fuel', fuel = fuel' + 1 := Nat.exists_eq_succ_of_ne_zero (by omega)
    have hscan : scanRecord (Line.text (.access type hok t) ++ newline :: bytesOf lines) =
        (some type, some t.value, newline :: bytesOf lines) :=
      scanRecord_record type t isSpace_blank (ends_newline _)
    unfold readItems
    rw [if_neg (by decide), hscan]
    dsimp only
    rw [ih hplain (by omega)]
    rfl

/-- The first record has no newline before it: `fgetc` returns its type. -/
theorem readItems_bytes {type : UInt8} {hok : type ≠ 0 ∧ type ≠ newline ∧ type ≠ equals}
    {t : HexText} (h : Plain lines)
    (hfuel : (bytesOf (.access type hok t :: lines)).length ≤ fuel) :
    readItems junk fuel 0 (bytesOf (.access type hok t :: lines)) =
      if type = eofChar then []
      else itemsOf junk 0 ((type, t.value) :: lines.filterMap Line.record?) := by
  rw [bytesOf_cons] at hfuel ⊢
  rw [List.length_append, List.length_cons] at hfuel
  obtain ⟨fuel, rfl⟩ : ∃ fuel', fuel = fuel' + 1 := Nat.exists_eq_succ_of_ne_zero (by omega)
  have hscan : scanRecord (blank :: t.text ++ newline :: bytesOf lines) =
      (some blank, some t.value, newline :: bytesOf lines) :=
    have hnone : ∀ c ∈ ([] : List UInt8), isSpace c = true := by simp
    scanRecord_record blank t hnone (ends_newline _)
  show readItems junk (fuel + 1) 0 (type :: (blank :: t.text ++ newline :: bytesOf lines)) = _
  unfold readItems
  split
  · rfl
  · rw [hscan]
    dsimp only
    have htext : 2 ≤ (Line.text (.access type hok t)).length := by simp [Line.text]
    rw [readItems_rest h (by omega)]
    rfl

theorem length_itemsOf (i : ℕ) (records : List (UInt8 × BitVec 64)) :
    (itemsOf junk i records).length = records.length + 1 := by
  induction records generalizing i with
  | nil => rfl
  | cons r records ih => simp [itemsOf, ih]

theorem getElem_itemsOf (i : ℕ) {records : List (UInt8 × BitVec 64)} {k : ℕ}
    (hk : k < records.length) : (itemsOf junk i records)[k]? =
      some ⟨(junk (i + k)).index, i + k, storeLow (junk (i + k)).addr records[k].2⟩ := by
  induction records generalizing i k with
  | nil => exact absurd hk (Nat.not_lt_zero k)
  | cons r records ih =>
    cases k with
    | zero => rfl
    | succ k =>
      rw [itemsOf, List.getElem?_cons_succ, ih (i + 1) (Nat.lt_of_succ_lt_succ hk),
        List.getElem_cons_succ, add_right_comm, add_assoc]

theorem getLsbD_storeLow (addr v : BitVec 64) {i : ℕ} (hi : i < 64) :
    (storeLow addr v).getLsbD i = if i < 32 then v.getLsbD i else addr.getLsbD i := by
  unfold storeLow
  simp only [BitVec.getLsbD_or, BitVec.getLsbD_shiftLeft, BitVec.getLsbD_ushiftRight,
    BitVec.getLsbD_setWidth]
  by_cases h : i < 32
  · simp [h, hi]
  · simp [h, hi, Nat.add_sub_cancel' (Nat.le_of_not_lt h)]

/-- **A number survives the store** if the upper half was right before. -/
theorem storeLow_eq_iff (addr v : BitVec 64) : storeLow addr v = v ↔ addr >>> 32 = v >>> 32 := by
  constructor
  · intro h
    apply BitVec.eq_of_getLsbD_eq
    intro i hi
    rw [BitVec.getLsbD_ushiftRight, BitVec.getLsbD_ushiftRight]
    by_cases hupper : 32 + i < 64
    · have hbit := getLsbD_storeLow addr v hupper
      rw [h, if_neg (by omega)] at hbit
      exact hbit.symm
    · rw [BitVec.getLsbD_of_ge _ _ (by omega), BitVec.getLsbD_of_ge _ _ (by omega)]
  · intro h
    apply BitVec.eq_of_getLsbD_eq
    intro i hi
    rw [getLsbD_storeLow _ _ hi]
    split
    · rfl
    · have hbit := congrArg (·.getLsbD (i - 32)) h
      simpa [Nat.add_sub_cancel' (show 32 ≤ i by omega)] using hbit

/-! ## The number of lines -/

theorem countLines_append {text : List UInt8} (rest : List UInt8) (hnew : newline ∉ text)
    (heof : eofChar ∉ text) : countLines (text ++ rest) = countLines rest := by
  induction text with
  | nil => rfl
  | cons c text ih =>
    obtain ⟨hc, hnew⟩ := not_or.1 (mt List.mem_cons.2 hnew)
    obtain ⟨hc', heof⟩ := not_or.1 (mt List.mem_cons.2 heof)
    rw [List.cons_append, countLines, if_neg (Ne.symm hc'), if_neg (Ne.symm hc), ih hnew heof]

/-- **A type byte 0xFF cuts the count short.** -/
theorem countLines_bytes (h : Plain lines) :
    countLines (bytesOf lines) ≤ lines.length ∧
      (countLines (bytesOf lines) = lines.length ↔
        ∀ r ∈ lines.filterMap Line.record?, r.1 ≠ eofChar) := by
  induction lines with
  | nil => exact ⟨le_rfl, by simp [bytesOf, countLines]⟩
  | cons l lines ih =>
    obtain ⟨type, hok, t, rfl, hplain⟩ := h.cons
    obtain ⟨hle, hiff⟩ := ih hplain
    have hrecords : (Line.access type hok t :: lines).filterMap Line.record? =
        (type, t.value) :: lines.filterMap Line.record? := rfl
    rw [bytesOf_cons, hrecords, List.forall_mem_cons, ← hiff]
    by_cases htype : type = eofChar
    · have hzero : countLines (Line.text (.access type hok t) ++ newline :: bytesOf lines) = 0 :=
        if_pos htype
      rw [hzero]
      simp [htype]
    · have hcount : countLines (Line.text (.access type hok t) ++ newline :: bytesOf lines) =
          countLines (bytesOf lines) + 1 := by
        rw [countLines_append _ (Line.no_newline _)]
        · rw [countLines, if_neg (by decide), if_pos rfl]
        · intro hmem
          obtain hmem | hmem := List.mem_cons.1 hmem
          · exact htype hmem.symm
          obtain hmem | hmem := List.mem_cons.1 hmem
          · exact absurd hmem (by decide)
          · exact hex_not_mem (by decide) (by decide) (by decide) hmem
      rw [hcount, List.length_cons]
      refine ⟨Nat.succ_le_succ hle, ?_⟩
      rw [Nat.add_right_cancel_iff]
      exact ⟨fun h => ⟨htype, h⟩, And.right⟩

/-! ## Agreement -/

/-- Item `i` of `opt_init` is the access `i` of `replay_trace`, and no store is past the end of
`addrs`. -/
structure ReadersAgree (junk : ℕ → TraceItem) (table : ℕ → BitVec 64) (type : UInt8)
    (file : List UInt8) : Prop where
  items : ∀ i (h : i < (replayTrace type file).length), ∃ item,
    (optInit junk table file).cur[i]? = some item ∧ item.time = i ∧
      item.addr = (replayTrace type file)[i].2 ∧
      (optInit junk table file).addrs i = (replayTrace type file)[i].2
  stores : (optInit junk table file).cur.length ≤ (optInit junk table file).lines

variable {table : ℕ → BitVec 64}

theorem addrs_of_cur {file : List UInt8} {i : ℕ} {item : TraceItem}
    (h : (optInit junk table file).cur[i]? = some item) :
    (optInit junk table file).addrs i = item.addr := by
  show (((optInit junk table file).cur[i]?).map (·.addr)).getD (table i) = item.addr
  rw [h]
  rfl

/-- The list that `opt_init` makes: none if the first byte is 0xFF. -/
theorem cur_bytes (h : Plain lines) :
    (optInit junk table (bytesOf lines)).cur =
      match lines.filterMap Line.record? with
      | [] => []
      | r :: records => if r.1 = eofChar then [] else itemsOf junk 0 (r :: records) := by
  cases lines with
  | nil => rfl
  | cons l lines =>
    obtain ⟨type, hok, t, rfl, hplain⟩ := h.cons
    exact readItems_bytes hplain le_rfl

theorem length_records (h : Plain lines) :
    (lines.filterMap Line.record?).length = lines.length := by
  induction lines with
  | nil => rfl
  | cons l lines ih =>
    obtain ⟨type, hok, t, rfl, hplain⟩ := h.cons
    exact congrArg (· + 1) (ih hplain)

/-- The item that `opt_init` makes of a record. -/
theorem cur_record (h : Plain lines) (heof : ∀ r ∈ lines.filterMap Line.record?, r.1 ≠ eofChar)
    {i : ℕ} (hi : i < (lines.filterMap Line.record?).length) :
    (optInit junk table (bytesOf lines)).cur[i]? = some ⟨(junk i).index, i,
      storeLow (junk i).addr (lines.filterMap Line.record?)[i].2⟩ := by
  rw [cur_bytes h]
  generalize lines.filterMap Line.record? = records at heof hi
  cases records with
  | nil => exact absurd hi (Nat.not_lt_zero i)
  | cons r records =>
    dsimp only
    rw [if_neg (heof r List.mem_cons_self), getElem_itemsOf 0 hi, Nat.zero_add]

/-- The stores, when the count is not cut short. -/
theorem length_cur_le (h : Plain lines)
    (heof : ∀ r ∈ lines.filterMap Line.record?, r.1 ≠ eofChar) :
    (optInit junk table (bytesOf lines)).cur.length ≤ lines.length + 1 := by
  rw [cur_bytes h, ← length_records h]
  generalize lines.filterMap Line.record? = records at heof
  cases records with
  | nil => exact Nat.zero_le _
  | cons r records =>
    dsimp only
    rw [if_neg (heof r List.mem_cons_self), length_itemsOf]

/-- **A type byte 0xFF** ends the list, or makes it longer than the table. -/
theorem eofChar_breaks (h : Plain lines) {type : UInt8}
    (hagree : ReadersAgree junk table type (bytesOf lines))
    (hread : replayTrace type (bytesOf lines) = lines.filterMap Line.record?) :
    ∀ r ∈ lines.filterMap Line.record?, r.1 ≠ eofChar := by
  obtain ⟨hitems, hstores⟩ := hagree
  rw [hread] at hitems
  obtain ⟨hle, hcount⟩ := countLines_bytes h
  refine hcount.1 (le_antisymm hle ?_)
  rw [cur_bytes h] at hstores
  have hlines : (optInit junk table (bytesOf lines)).lines = countLines (bytesOf lines) + 1 := rfl
  rw [hlines] at hstores
  rw [← length_records h]
  cases hrecords : lines.filterMap Line.record? with
  | nil => exact Nat.zero_le _
  | cons r records =>
    obtain ⟨item, hitem, -⟩ := hitems 0 (by rw [hrecords]; exact Nat.zero_lt_succ _)
    rw [cur_bytes h, hrecords] at hitem
    rw [hrecords] at hstores
    dsimp only at hitem hstores
    split at hitem
    · cases hitem
    · rename_i htype
      rw [if_neg htype, length_itemsOf] at hstores
      exact Nat.le_of_succ_le_succ hstores

/-- **On a file without `=` lines** the readers agree if and only if no type is the byte 0xFF and
the memory of each item had the upper half of its address. -/
theorem readers_agree_iff (f : TraceFile) (hplain : Plain f.lines) (junk : ℕ → TraceItem)
    (table : ℕ → BitVec 64) (type : UInt8) :
    ReadersAgree junk table type f.bytes ↔
      (∀ r ∈ f.records, r.1 ≠ eofChar) ∧
        ∀ i (h : i < f.records.length), (junk i).addr >>> 32 = f.records[i].2 >>> 32 := by
  have hread := replayTrace_bytes f type
  constructor
  · intro hagree
    have heof := eofChar_breaks hplain hagree hread
    refine ⟨heof, fun i hi => ?_⟩
    obtain ⟨item, hitem, -, haddr, -⟩ := hagree.items i (by rw [hread]; exact hi)
    have hcur : (optInit junk table f.bytes).cur[i]? = some ⟨(junk i).index, i,
        storeLow (junk i).addr f.records[i].2⟩ := cur_record hplain heof hi
    obtain rfl := Option.some.inj (hcur.symm.trans hitem)
    simp only [hread] at haddr
    exact (storeLow_eq_iff _ _).1 haddr
  · rintro ⟨heof, hjunk⟩
    refine ⟨fun i hi => ?_, ?_⟩
    · simp only [hread] at hi ⊢
      have hcur : (optInit junk table f.bytes).cur[i]? = some ⟨(junk i).index, i,
          storeLow (junk i).addr f.records[i].2⟩ := cur_record hplain heof hi
      have haddr := (storeLow_eq_iff _ _).2 (hjunk i hi)
      exact ⟨_, hcur, rfl, haddr, (addrs_of_cur hcur).trans haddr⟩
    · have hlines : (optInit junk table f.bytes).lines = countLines (bytesOf f.lines) + 1 := rfl
      rw [hlines, (countLines_bytes hplain).2.2 heof]
      exact length_cur_le hplain heof

/-- The line `L 1000`. -/
def loadLine : Line :=
  .access 76 (by decide)
    ⟨[], [49, 48, 48, 48], Or.inl rfl, by decide, List.all_eq_true.1 rfl, by decide⟩

/-- The lines `L 1000` and `L 1000`. -/
def twoLoads : TraceFile := ⟨[loadLine, loadLine], by decide⟩

theorem readers_agree_iff_two :
    ReadersAgree (fun _ => ⟨0, 0, 0⟩) (fun _ => 0) 0 twoLoads.bytes :=
  (readers_agree_iff twoLoads (by unfold Plain; decide) _ _ 0).2
    ⟨List.forall_mem_cons.2 ⟨by decide, List.forall_mem_singleton.2 (by decide)⟩, by decide⟩

/-- The lines `= 1` and `L 1000`. -/
def commented : TraceFile := ⟨[.comment [32, 49] (by decide), loadLine], by decide⟩

/-- `opt_init` takes the comment for a record with the address 1. -/
theorem comment_is_item :
    ¬ ReadersAgree (fun _ => ⟨0, 0, 0⟩) (fun _ => 0) 0 commented.bytes := by
  intro h
  obtain ⟨item, hitem, -, haddr, -⟩ := h.items 0 (by decide)
  have hone : ((optInit (fun _ => ⟨0, 0, 0⟩) (fun _ => 0) commented.bytes).cur[0]?).map (·.addr) =
      some 1 := by decide
  rw [hitem] at hone
  exact absurd ((Option.some.inj hone).symm.trans haddr) (by decide)

/-- What the opt policy needs: a file that `opt_init` reads right. -/
theorem optInit_init {f : TraceFile} (hplain : Plain f.lines)
    (heof : ∀ r ∈ f.records, r.1 ≠ eofChar)
    (hjunk : ∀ i (h : i < f.records.length), (junk i).addr >>> 32 = f.records[i].2 >>> 32)
    {rs : List Reference} (hrs : rs.map (·.vaddr) = f.records.map (·.2)) :
    OptInit rs (optInit junk table f.bytes) := by
  have hlength : rs.length = f.records.length := by
    simpa using congrArg List.length hrs
  have hitem : ∀ i (h : i < rs.length), (optInit junk table f.bytes).cur[i]? =
      some ⟨(junk i).index, i, rs[i].vaddr⟩ := by
    intro i hi
    have hi' : i < f.records.length := hlength ▸ hi
    have hvaddr : rs[i].vaddr = f.records[i].2 := by
      simpa [hi, hi'] using congrArg (·[i]?) hrs
    have hcur : (optInit junk table f.bytes).cur[i]? = some ⟨(junk i).index, i,
        storeLow (junk i).addr f.records[i].2⟩ := cur_record hplain heof hi'
    rw [(storeLow_eq_iff _ _).2 (hjunk i hi')] at hcur
    rw [hvaddr]
    exact hcur
  have hlines : (optInit junk table f.bytes).lines = f.records.length + 1 := by
    show countLines (bytesOf f.lines) + 1 = f.records.length + 1
    rw [(countLines_bytes hplain).2.2 heof]
    exact congrArg (· + 1) (length_records hplain).symm
  refine ⟨⟨fun i hi => ⟨_, hitem i hi, (Nat.zero_add i).symm, rfl⟩, fun i hi => ?_, ?_, ?_⟩, rfl,
    fun _ => rfl⟩
  · rw [Nat.zero_add]
    exact addrs_of_cur (hitem i hi)
  · omega
  · omega

end Cscc69.Paging
