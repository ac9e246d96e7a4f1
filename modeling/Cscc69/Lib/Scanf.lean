import Mathlib.Data.BitVec
import Mathlib.Data.List.TakeWhile
import Mathlib.Data.Nat.Digits.Lemmas
import Mathlib.Tactic.Common

/-!
# Reading lines and numbers from a text

`fgets`, and `scanf` with the format `"%c %x"`, on a list of bytes. `fgets_line` says that a line
that fits is read whole. `scanHex_number` says that a hexadecimal number is read to its end, and
`scanRecord_record` that a character, a blank and a number are; `scanHex_some` says what else is
read as a number. `scanRecord_stop` says that nothing after a byte that ends every number is looked
at. `strtoul_decimal` says that a decimal number is read as what it says.
-/

namespace CText

def newline : UInt8 := 10
def blank : UInt8 := 32

/-- `isspace` -/
def isSpace (c : UInt8) : Bool := c = blank || (9 ≤ c && c ≤ 13)

def hexDigit (c : UInt8) : Option ℕ :=
  if 48 ≤ c ∧ c ≤ 57 then some (c.toNat - 48)
  else if 97 ≤ c ∧ c ≤ 102 then some (c.toNat - 87)
  else if 65 ≤ c ∧ c ≤ 70 then some (c.toNat - 55)
  else none

def isHex (c : UInt8) : Bool := (hexDigit c).isSome

def hexValue (digits : List UInt8) : ℕ :=
  digits.foldl (fun v c => 16 * v + (hexDigit c).getD 0) 0

/-! ## Lines -/

/-- At most `n` bytes, to the end of the line: these and the rest. -/
def takeLine : ℕ → List UInt8 → List UInt8 × List UInt8
  | 0, inp => ([], inp)
  | _ + 1, [] => ([], [])
  | n + 1, c :: inp =>
    if c = newline then ([c], inp)
    else
      let (line, rest) := takeLine n inp
      (c :: line, rest)

/-- The string that `fgets` stores in a buffer of `size` bytes, and the rest of the input. -/
def fgets (size : ℕ) (inp : List UInt8) : Option (List UInt8 × List UInt8) :=
  if inp = [] then none else some (takeLine (size - 1) inp)

theorem takeLine_line {n : ℕ} {line : List UInt8} (rest : List UInt8) (hnew : newline ∉ line)
    (hn : line.length < n) :
    takeLine n (line ++ newline :: rest) = (line ++ [newline], rest) := by
  induction line generalizing n with
  | nil =>
    obtain ⟨n, rfl⟩ := Nat.exists_eq_succ_of_ne_zero (Nat.ne_of_gt hn)
    rfl
  | cons c line ih =>
    obtain ⟨n, rfl⟩ := Nat.exists_eq_succ_of_ne_zero (Nat.ne_of_gt (Nat.zero_lt_of_lt hn))
    obtain ⟨hc, hline⟩ := not_or.1 (mt List.mem_cons.2 hnew)
    rw [List.cons_append, takeLine, if_neg (Ne.symm hc), ih hline (Nat.lt_of_succ_lt_succ hn)]
    rfl

/-- **A line that fits is read whole.** -/
theorem fgets_line {size : ℕ} {line : List UInt8} (rest : List UInt8) (hnew : newline ∉ line)
    (hsize : line.length + 1 < size) :
    fgets size (line ++ newline :: rest) = some (line ++ [newline], rest) := by
  unfold fgets
  rw [if_neg (by simp), takeLine_line rest hnew (by omega)]

/-! ## Numbers -/

/-- The sign of a number: whether it is negative, and the rest. -/
def scanSign : List UInt8 → Bool × List UInt8
  | [] => (false, [])
  | c :: inp =>
    if c = 45 then (true, inp) else if c = 43 then (false, inp) else (false, c :: inp)

/-- Skip `0x` or `0X`. -/
def scanPrefix : List UInt8 → List UInt8
  | z :: x :: inp => if z = 48 ∧ (x = 120 ∨ x = 88) then inp else z :: x :: inp
  | inp => inp

/-- The conversion of `%lx` with the blanks before it skipped: the number, unless there is none,
and the rest. Beyond 64 bits it is the largest number. -/
def scanHex (inp : List UInt8) : Option (BitVec 64) × List UInt8 :=
  let (negative, inp) := scanSign inp
  let inp := scanPrefix inp
  let digits := inp.takeWhile isHex
  let rest := inp.dropWhile isHex
  if digits = [] then (none, rest)
  else if 2 ^ 64 ≤ hexValue digits then (some (BitVec.allOnes 64), rest)
  else if negative then (some (-BitVec.ofNat 64 (hexValue digits)), rest)
  else (some (BitVec.ofNat 64 (hexValue digits)), rest)

/-- `scanf` with `"%c %x"`: the character and the number, as far as they were read, and the rest. -/
def scanRecord : List UInt8 → Option UInt8 × Option (BitVec 64) × List UInt8
  | [] => (none, none, [])
  | c :: inp =>
    let (v, rest) := scanHex (inp.dropWhile isSpace)
    (some c, v, rest)

/-- The text of a hexadecimal number of at most 64 bits. -/
structure HexText where
  pre : List UInt8
  digits : List UInt8
  pre_ok : pre = [] ∨ pre = [48, 120] ∨ pre = [48, 88]
  digits_ne : digits ≠ []
  digits_hex : ∀ c ∈ digits, isHex c = true
  value_lt : hexValue digits < 2 ^ 64

namespace HexText

def text (t : HexText) : List UInt8 := t.pre ++ t.digits

def value (t : HexText) : BitVec 64 := BitVec.ofNat 64 (hexValue t.digits)

end HexText

theorem isHex_ne {c d : UInt8} (hc : isHex c = true) (hd : isHex d = false) : c ≠ d := by
  rintro rfl
  rw [hc] at hd
  cases hd

theorem isSpace_of_isHex {c : UInt8} (hc : isHex c = true) : isSpace c = false := by
  have hge : 48 ≤ c.toNat := by
    unfold isHex hexDigit at hc
    split at hc
    · rename_i h
      exact UInt8.le_iff_toNat_le.1 h.1
    split at hc
    · rename_i h
      exact le_trans (by decide) (UInt8.le_iff_toNat_le.1 h.1)
    split at hc
    · rename_i h
      exact le_trans (by decide) (UInt8.le_iff_toNat_le.1 h.1)
    · cases hc
  have hblank : c ≠ blank := by
    rintro rfl
    exact absurd hge (by decide)
  have hle : ¬ c ≤ 13 := by
    rw [UInt8.le_iff_toNat_le]
    show ¬ c.toNat ≤ 13
    omega
  simp [isSpace, hblank, hle]

/-- What can come after a number: the end of the input, or a byte that is no digit and no `x`. -/
def Ends (rest : List UInt8) : Prop :=
  ∀ c, rest.head? = some c → isHex c = false ∧ c ≠ 120 ∧ c ≠ 88

theorem span_digits {digits rest : List UInt8} (hdigits : ∀ c ∈ digits, isHex c = true)
    (hrest : Ends rest) : (digits ++ rest).takeWhile isHex = digits ∧
      (digits ++ rest).dropWhile isHex = rest := by
  rw [List.takeWhile_append_of_pos hdigits, List.dropWhile_append_of_pos hdigits]
  cases rest with
  | nil => simp
  | cons c rest =>
    have hc := (hrest c rfl).1
    simp [hc]

/-- **A number is read to its end.** -/
theorem scanHex_number (t : HexText) {rest : List UInt8} (hrest : Ends rest) :
    scanHex (t.text ++ rest) = (some t.value, rest) := by
  obtain ⟨c, digits, hdigits⟩ := List.exists_cons_of_ne_nil t.digits_ne
  have hc : isHex c = true := t.digits_hex c (by rw [hdigits]; exact List.mem_cons_self)
  obtain ⟨htake, hdrop⟩ := span_digits t.digits_hex hrest
  have hsign : scanSign (t.text ++ rest) = (false, t.text ++ rest) := by
    obtain ⟨z, text, htext, hz, hz'⟩ : ∃ z text, t.text ++ rest = z :: text ∧ z ≠ 45 ∧ z ≠ 43 := by
      unfold HexText.text
      obtain hpre | hpre | hpre := t.pre_ok
      · rw [hpre, hdigits]
        exact ⟨c, _, rfl, isHex_ne hc (by decide), isHex_ne hc (by decide)⟩
      · rw [hpre]
        exact ⟨48, _, rfl, by decide, by decide⟩
      · rw [hpre]
        exact ⟨48, _, rfl, by decide, by decide⟩
    rw [htext, scanSign, if_neg hz, if_neg hz']
  have hskip : scanPrefix (t.text ++ rest) = t.digits ++ rest := by
    unfold HexText.text
    obtain hpre | hpre | hpre := t.pre_ok
    · rw [hpre, List.nil_append, hdigits]
      -- after the first digit comes another, or what ends the number
      have hx : ∀ x inp, digits ++ rest = x :: inp → x ≠ 120 ∧ x ≠ 88 := by
        intro x inp hx
        cases digits with
        | nil =>
          obtain ⟨-, h⟩ := hrest x (by rw [show rest = x :: inp from hx]; rfl)
          exact h
        | cons d digits =>
          obtain rfl := (List.cons.inj hx).1
          have hd : isHex d = true := t.digits_hex d (by rw [hdigits]; simp)
          exact ⟨isHex_ne hd (by decide), isHex_ne hd (by decide)⟩
      rw [List.cons_append]
      cases hrest' : digits ++ rest with
      | nil => rfl
      | cons x inp =>
        obtain ⟨h, h'⟩ := hx x inp hrest'
        rw [scanPrefix, if_neg]
        exact fun hand => hand.2.elim h h'
    · rw [hpre]
      rfl
    · rw [hpre]
      rfl
  unfold scanHex
  rw [hsign]
  simp only [hskip, htake, hdrop]
  rw [if_neg t.digits_ne, if_neg (Nat.not_le.2 t.value_lt)]
  rfl

theorem scanSign_eq (inp : List UInt8) : ∃ sign, inp = sign ++ (scanSign inp).2 ∧
    (sign = [] ∨ sign = [43] ∨ sign = [45]) ∧ ((scanSign inp).1 = true ↔ sign = [45]) := by
  cases inp with
  | nil => exact ⟨[], rfl, .inl rfl, by simp [scanSign]⟩
  | cons c inp =>
    rw [scanSign]
    split
    · rename_i hc
      exact ⟨[45], by rw [hc]; rfl, .inr (.inr rfl), by simp⟩
    · split
      · rename_i hc
        exact ⟨[43], by rw [hc]; rfl, .inr (.inl rfl), by simp⟩
      · exact ⟨[], rfl, .inl rfl, by simp⟩

theorem scanPrefix_eq (inp : List UInt8) : ∃ pre, inp = pre ++ scanPrefix inp ∧
    (pre = [] ∨ pre = [48, 120] ∨ pre = [48, 88]) := by
  rcases inp with _ | ⟨z, _ | ⟨x, inp⟩⟩
  · exact ⟨[], rfl, .inl rfl⟩
  · exact ⟨[], rfl, .inl rfl⟩
  · rw [scanPrefix]
    split
    · rename_i h
      obtain ⟨rfl, rfl | rfl⟩ := h
      · exact ⟨[48, 120], rfl, .inr (.inl rfl)⟩
      · exact ⟨[48, 88], rfl, .inr (.inr rfl)⟩
    · exact ⟨[], rfl, .inl rfl⟩

/-- The text of any number that the conversion takes, with a sign or not and of any size. -/
structure SignedHex where
  sign : List UInt8
  pre : List UInt8
  digits : List UInt8
  sign_ok : sign = [] ∨ sign = [43] ∨ sign = [45]
  pre_ok : pre = [] ∨ pre = [48, 120] ∨ pre = [48, 88]
  digits_ne : digits ≠ []
  digits_hex : ∀ c ∈ digits, isHex c = true

namespace SignedHex

def text (t : SignedHex) : List UInt8 := t.sign ++ (t.pre ++ t.digits)

def value (t : SignedHex) : BitVec 64 :=
  if 2 ^ 64 ≤ hexValue t.digits then BitVec.allOnes 64
  else if t.sign = [45] then -BitVec.ofNat 64 (hexValue t.digits)
  else BitVec.ofNat 64 (hexValue t.digits)

end SignedHex

/-- **Only such a text is read as a number.** -/
theorem scanHex_some {inp rest : List UInt8} {v : BitVec 64} (h : scanHex inp = (some v, rest)) :
    ∃ t : SignedHex, inp = t.text ++ rest ∧ v = t.value := by
  obtain ⟨sign, hsign, hsigns, hneg⟩ := scanSign_eq inp
  obtain ⟨pre, hpre, hpres⟩ := scanPrefix_eq (scanSign inp).2
  unfold scanHex at h
  dsimp only at h
  split at h
  · cases h
  · rename_i hne
    have hdigits := List.takeWhile_append_dropWhile (p := isHex) (l := scanPrefix (scanSign inp).2)
    refine ⟨⟨sign, pre, (scanPrefix (scanSign inp).2).takeWhile isHex, hsigns, hpres, hne,
      fun c hc => List.mem_takeWhile_imp hc⟩, ?_, ?_⟩
    · have hrest : (scanPrefix (scanSign inp).2).dropWhile isHex = rest := by
        split at h
        · exact (Prod.mk.inj h).2
        · split at h <;> exact (Prod.mk.inj h).2
      rw [SignedHex.text, List.append_assoc, List.append_assoc, ← hrest, hdigits, ← hpre, ← hsign]
    · rw [SignedHex.value]
      dsimp only
      split at h
      · rename_i hbig
        rw [if_pos hbig, Option.some.inj (Prod.mk.inj h).1]
      · rename_i hbig
        rw [if_neg hbig]
        split at h
        · rename_i hminus
          rw [if_pos (hneg.1 hminus), Option.some.inj (Prod.mk.inj h).1]
        · rename_i hplus
          rw [if_neg (mt hneg.2 hplus), Option.some.inj (Prod.mk.inj h).1]

/-- **A record is read to its end.** -/
theorem scanRecord_record (c : UInt8) (t : HexText) {blanks rest : List UInt8}
    (hblanks : ∀ b ∈ blanks, isSpace b = true) (hrest : Ends rest) :
    scanRecord (c :: (blanks ++ (t.text ++ rest))) = (some c, some t.value, rest) := by
  have hskip : (blanks ++ (t.text ++ rest)).dropWhile isSpace = t.text ++ rest := by
    rw [List.dropWhile_append_of_pos hblanks]
    obtain ⟨z, text, htext, hz⟩ : ∃ z text, t.text = z :: text ∧ isSpace z = false := by
      unfold HexText.text
      obtain hpre | hpre | hpre := t.pre_ok
      · obtain ⟨c, digits, hdigits⟩ := List.exists_cons_of_ne_nil t.digits_ne
        have hc : isHex c = true := t.digits_hex c (by rw [hdigits]; exact List.mem_cons_self)
        rw [hpre, hdigits]
        exact ⟨c, digits, rfl, isSpace_of_isHex hc⟩
      · rw [hpre]
        exact ⟨48, _, rfl, by decide⟩
      · rw [hpre]
        exact ⟨48, _, rfl, by decide⟩
    rw [htext]
    simp [hz]
  rw [scanRecord, hskip, scanHex_number t hrest]

/-! ## A byte that ends every number -/

/-- No blank, digit or sign, and no `x`. -/
structure Stops (c : UInt8) : Prop where
  space : isSpace c = false
  hex : isHex c = false
  sign : c ≠ 45 ∧ c ≠ 43
  letter : c ≠ 120 ∧ c ≠ 88

variable {c : UInt8} {p : UInt8 → Bool}

theorem takeWhile_stop (hc : p c = false) (inp rest : List UInt8) :
    (inp ++ c :: rest).takeWhile p = inp.takeWhile p := by
  induction inp with
  | nil => simp [hc]
  | cons d inp ih => simp [List.takeWhile_cons, ih]

theorem dropWhile_stop (hc : p c = false) (inp rest : List UInt8) :
    (inp ++ c :: rest).dropWhile p = inp.dropWhile p ++ c :: rest := by
  induction inp with
  | nil => simp [hc]
  | cons d inp ih =>
    rw [List.cons_append, List.dropWhile_cons, List.dropWhile_cons, ih]
    split <;> rfl

theorem scanSign_stop (hc : Stops c) (inp rest : List UInt8) :
    scanSign (inp ++ c :: rest) = ((scanSign inp).1, (scanSign inp).2 ++ c :: rest) := by
  cases inp with
  | nil => simp [scanSign, hc.sign]
  | cons d inp =>
    rw [List.cons_append, scanSign, scanSign]
    split_ifs <;> rfl

theorem scanPrefix_stop (hc : Stops c) (inp rest : List UInt8) :
    scanPrefix (inp ++ c :: rest) = scanPrefix inp ++ c :: rest := by
  have hzero : c ≠ 48 := (isHex_ne (by decide) hc.hex).symm
  rcases inp with _ | ⟨z, _ | ⟨x, inp⟩⟩
  · cases rest with
    | nil => rfl
    | cons x rest => simp [scanPrefix, hzero]
  · simp [scanPrefix, hc.letter]
  · rw [List.cons_append, List.cons_append, scanPrefix, scanPrefix]
    split <;> rfl

/-- **What comes after it does not change the number.** -/
theorem scanRecord_stop (hc : Stops c) {d : UInt8} (inp rest : List UInt8) :
    (scanRecord (d :: (inp ++ c :: rest))).1 = (scanRecord (d :: inp)).1 ∧
      (scanRecord (d :: (inp ++ c :: rest))).2.1 = (scanRecord (d :: inp)).2.1 := by
  refine ⟨rfl, ?_⟩
  unfold scanRecord scanHex
  dsimp only
  rw [dropWhile_stop hc.space, scanSign_stop hc]
  dsimp only
  rw [scanPrefix_stop hc, takeWhile_stop hc.hex]
  split_ifs <;> rfl

/-! ## Writing numbers -/

/-- The digits of a number, the highest first. -/
def numeral (base : ℕ) (char : ℕ → UInt8) (n : ℕ) : List UInt8 :=
  (Nat.digits base n).reverse.map char

section

variable {base n : ℕ} {char : ℕ → UInt8} {digit : UInt8 → ℕ}

theorem mem_numeral (hbase : 1 < base) {c : UInt8} (h : c ∈ numeral base char n) :
    ∃ d < base, char d = c := by
  obtain ⟨d, hd, rfl⟩ := List.mem_map.1 h
  exact ⟨d, Nat.digits_lt_base hbase (List.mem_reverse.1 hd), rfl⟩

/-- Reading the digits one by one gives the number back. -/
theorem foldl_numeral (hbase : 1 < base) (hdigit : ∀ d < base, digit (char d) = d) :
    (numeral base char n).foldl (fun v c => base * v + digit c) 0 = n := by
  have hfold : (numeral base char n).foldl (fun v c => base * v + digit c) 0 =
      (Nat.digits base n).reverse.foldl (fun v d => d + base * v) 0 := by
    rw [numeral, List.foldl_map]
    refine List.foldl_ext _ _ _ fun v d hd => ?_
    rw [hdigit d (Nat.digits_lt_base hbase (List.mem_reverse.1 hd)), Nat.add_comm]
  rw [hfold, List.foldl_reverse]
  exact (Nat.ofDigits_eq_foldr base _).symm.trans (Nat.ofDigits_digits base n)

theorem length_numeral_le {k : ℕ} (hbase : 1 < base) (hn : n < base ^ k) :
    (numeral base char n).length ≤ k := by
  rw [numeral, List.length_map, List.length_reverse]
  exact (Nat.digits_length_le_iff hbase n).2 hn

end

/-! ## Hexadecimal numbers -/

def hexChar (d : ℕ) : UInt8 := UInt8.ofNat (if d < 10 then 48 + d else 87 + d)

theorem hexDigit_hexChar : ∀ d < 16, hexDigit (hexChar d) = some d := by decide

theorem hexValue_numeral (n : ℕ) : hexValue (48 :: numeral 16 hexChar n) = n :=
  foldl_numeral (by decide) fun d hd => by rw [hexDigit_hexChar d hd, Option.getD_some]

theorem HexText.nil_ok : ([] : List UInt8) = [] ∨ ([] : List UInt8) = [48, 120] ∨
    ([] : List UInt8) = [48, 88] := .inl rfl

/-- A number with a zero in front. -/
def HexText.ofBitVec (v : BitVec 64) : HexText where
  pre := []
  digits := 48 :: numeral 16 hexChar v.toNat
  pre_ok := nil_ok
  digits_ne := List.cons_ne_nil _ _
  digits_hex c hc := by
    rcases List.mem_cons.1 hc with rfl | hc
    · rfl
    · obtain ⟨d, hd, rfl⟩ := mem_numeral (by decide) hc
      rw [isHex, hexDigit_hexChar d hd]
      rfl
  value_lt := by
    rw [hexValue_numeral]
    exact v.isLt

theorem HexText.value_ofBitVec (v : BitVec 64) : (HexText.ofBitVec v).value = v := by
  apply BitVec.eq_of_toNat_eq
  rw [HexText.value, BitVec.toNat_ofNat]
  show hexValue (48 :: numeral 16 hexChar v.toNat) % 2 ^ 64 = v.toNat
  rw [hexValue_numeral, Nat.mod_eq_of_lt v.isLt]

/-! ## Decimal numbers -/

def isDigit (c : UInt8) : Bool := 48 ≤ c && c ≤ 57

/-- `strtoul(s, NULL, 10)` -/
def strtoul (s : List UInt8) : BitVec 64 :=
  let (neg, s) := scanSign (s.dropWhile isSpace)
  let v := (s.takeWhile isDigit).foldl (fun v c => 10 * v + (c.toNat - 48)) 0
  if 2 ^ 64 ≤ v then BitVec.allOnes 64
  else if neg then -BitVec.ofNat 64 v
  else BitVec.ofNat 64 v

def decimal (n : ℕ) : List UInt8 := numeral 10 (fun d => UInt8.ofNat (48 + d)) n

theorem isDigit_ofNat : ∀ d < 10, isDigit (UInt8.ofNat (48 + d)) = true ∧
    (UInt8.ofNat (48 + d)).toNat - 48 = d := by decide

theorem mem_decimal {n : ℕ} {c : UInt8} (h : c ∈ decimal n) : isDigit c = true := by
  obtain ⟨d, hd, rfl⟩ := mem_numeral (by decide) h
  exact (isDigit_ofNat d hd).1

theorem foldl_decimal (n : ℕ) :
    (decimal n).foldl (fun v c => 10 * v + (c.toNat - 48)) 0 = n :=
  foldl_numeral (by decide) fun d hd => (isDigit_ofNat d hd).2

theorem isDigit_blank {c : UInt8} (h : isDigit c = true) :
    isSpace c = false ∧ c ≠ 43 ∧ c ≠ 45 := by
  have hall : ∀ v : Fin 256, isDigit (UInt8.ofFin v) = true →
      isSpace (UInt8.ofFin v) = false ∧ UInt8.ofFin v ≠ 43 ∧ UInt8.ofFin v ≠ 45 := by
    decide +kernel
  exact hall c.toFin h

/-- **The text of a number is read as the number.** -/
theorem strtoul_decimal {n : ℕ} (hn : n < 2 ^ 64) : strtoul (decimal n) = BitVec.ofNat 64 n := by
  have hskip : (decimal n).dropWhile isSpace = decimal n := by
    cases htext : decimal n with
    | nil => rfl
    | cons c text =>
      have hc : c ∈ decimal n := by rw [htext]; exact List.mem_cons_self
      rw [List.dropWhile_cons_of_neg]
      rw [(isDigit_blank (mem_decimal hc)).1]
      exact Bool.false_ne_true
  have hsign : scanSign (decimal n) = (false, decimal n) := by
    cases htext : decimal n with
    | nil => rfl
    | cons c text =>
      have hc : c ∈ decimal n := by rw [htext]; exact List.mem_cons_self
      obtain ⟨-, hplus, hminus⟩ := isDigit_blank (mem_decimal hc)
      rw [scanSign, if_neg hminus, if_neg hplus]
  have hdigits : (decimal n).takeWhile isDigit = decimal n :=
    List.takeWhile_eq_self_iff.2 fun c hc => mem_decimal hc
  unfold strtoul
  rw [hskip, hsign]
  simp only [hdigits, foldl_decimal]
  rw [if_neg (by omega), if_neg Bool.false_ne_true]

end CText
