import Mathlib.Data.List.Basic
import Mathlib.Order.Nat
import Mathlib.Tactic.Common

/-!
# Second chance

The clock algorithm of the textbooks. Each of `m` frames has a reference bit, and a hand goes
around the frames. To find a victim the hand clears the bits that are set, until it stands at a
frame whose bit is clear; that is the victim, and the hand moves on to the next frame.

`passed` is the number of frames that the hand goes past: `m` if all bits are set, and then the
victim is where the hand started. `passed_eq` characterizes it, and `passed_next` says that it is
one less from the next frame on, when this one's bit has been cleared.

A `Clock` is the whole algorithm, which page is in which frame, the bits and the hand; `serve` is
what a list of requests makes of it, and the victims on the way.
-/

namespace SecondChance

variable {m hand : ℕ} {bit : ℕ → Bool}

/-- The number of frames that the hand goes past. -/
def passed (m hand : ℕ) (bit : ℕ → Bool) : ℕ :=
  ((List.range m).find? fun j => !bit ((hand + j) % m)).getD m

/-- The frame at which it stops. -/
def victim (m hand : ℕ) (bit : ℕ → Bool) : ℕ := (hand + passed m hand bit) % m

/-- The frames that the hand goes past have their bits set, and the one where it stops has its bit
clear, unless the hand went all around. -/
theorem passed_spec (m hand : ℕ) (bit : ℕ → Bool) : passed m hand bit ≤ m ∧
    (∀ j < passed m hand bit, bit ((hand + j) % m) = true) ∧
    (passed m hand bit < m → bit (victim m hand bit) = false) := by
  unfold victim passed
  cases h : (List.range m).find? fun j => !bit ((hand + j) % m) with
  | none =>
    rw [Option.getD_none]
    refine ⟨le_rfl, fun j hj => ?_, fun h => absurd h (lt_irrefl m)⟩
    simpa using List.find?_eq_none.1 h j (List.mem_range.2 hj)
  | some d =>
    obtain ⟨hclear, hd, hset⟩ := List.find?_range_eq_some.1 h
    rw [Option.getD_some]
    refine ⟨(List.mem_range.1 hd).le, fun j hj => ?_, fun _ => ?_⟩
    · simpa using hset j hj
    · simpa using hclear

/-- **Where the hand stops.** -/
theorem passed_eq {d : ℕ} (hd : d ≤ m) (hset : ∀ j < d, bit ((hand + j) % m) = true)
    (hclear : d < m → bit ((hand + d) % m) = false) : passed m hand bit = d := by
  obtain ⟨hle, hset', hclear'⟩ := passed_spec m hand bit
  rcases lt_trichotomy (passed m hand bit) d with hlt | heq | hgt
  · have hbit := hclear' (hlt.trans_le hd)
    rw [victim, hset _ hlt] at hbit
    exact absurd hbit.symm Bool.false_ne_true
  · exact heq
  · have hbit := hset' d hgt
    rw [hclear (hgt.trans_le hle)] at hbit
    exact absurd hbit Bool.false_ne_true

/-- With all bits set the hand goes all around. -/
theorem passed_full (h : ∀ f < m, bit f = true) : passed m hand bit = m :=
  passed_eq le_rfl (fun _ hj => h _ (Nat.mod_lt _ (Nat.zero_lt_of_lt hj)))
    fun hm => absurd hm (lt_irrefl m)

/-- Less than once around, the hand is not back where it was. -/
theorem around_ne {k : ℕ} (hh : hand < m) (hpos : 0 < k) (hk : k < m) :
    (hand + k) % m ≠ hand := by
  rcases Nat.lt_or_ge (hand + k) m with hlt | hge
  · rw [Nat.mod_eq_of_lt hlt]
    omega
  · rw [Nat.mod_eq_sub_mod hge, Nat.mod_eq_of_lt (by omega)]
    omega

/-- Once around it comes to every frame. -/
theorem around_surj {f : ℕ} (hh : hand < m) (hf : f < m) : ∃ j < m, (hand + j) % m = f := by
  rcases Nat.lt_or_ge f hand with hlt | hge
  · refine ⟨f + m - hand, by omega, ?_⟩
    rw [show hand + (f + m - hand) = f + m by omega, Nat.add_mod_right, Nat.mod_eq_of_lt hf]
  · refine ⟨f - hand, by omega, ?_⟩
    rw [Nat.add_sub_cancel' hge, Nat.mod_eq_of_lt hf]

theorem around_next (m hand j : ℕ) : ((hand + 1) % m + j) % m = (hand + (j + 1)) % m := by
  rw [Nat.mod_add_mod, Nat.add_assoc, Nat.add_comm 1]

/-- **Going past one frame**, and clearing its bit, leaves one less to go past. -/
theorem passed_next (hh : hand < m) (hbit : bit hand = true) :
    passed m ((hand + 1) % m) (Function.update bit hand false) + 1 = passed m hand bit := by
  obtain ⟨hle, hset, hclear⟩ := passed_spec m hand bit
  have hm : 0 < m := Nat.zero_lt_of_lt hh
  have hpos : passed m hand bit ≠ 0 := by
    intro hzero
    have hfirst := hclear (hzero ▸ hm)
    rw [victim, hzero, Nat.add_zero, Nat.mod_eq_of_lt hh, hbit] at hfirst
    exact Bool.false_ne_true hfirst.symm
  obtain ⟨d, hd⟩ := Nat.exists_eq_succ_of_ne_zero hpos
  rw [victim, hd] at hclear
  rw [hd] at hle hset ⊢
  rw [passed_eq (d := d) (Nat.le_of_succ_le hle)]
  · intro j hj
    have hne := around_ne hh (Nat.succ_pos j) (Nat.lt_of_lt_of_le (Nat.succ_lt_succ hj) hle)
    rw [around_next, Function.update_of_ne hne]
    exact hset _ (Nat.succ_lt_succ hj)
  · intro _
    rw [around_next]
    rcases Nat.lt_or_ge (d + 1) m with hlt | hge
    · rw [Function.update_of_ne (around_ne hh (Nat.succ_pos d) hlt)]
      exact hclear hlt
    · obtain rfl : m = d + 1 := Nat.le_antisymm hge hle
      rw [Nat.add_mod_right, Nat.mod_eq_of_lt hh, Function.update_self]

theorem victim_next (hh : hand < m) (hbit : bit hand = true) :
    victim m ((hand + 1) % m) (Function.update bit hand false) = victim m hand bit := by
  unfold victim
  rw [← passed_next hh hbit, around_next]

/-! ## Frames passed over -/

def Swept (m hand : ℕ) (bit : ℕ → Bool) (f : ℕ) : Prop :=
  ∃ j < passed m hand bit, (hand + j) % m = f

instance (f : ℕ) : Decidable (Swept m hand bit f) := by unfold Swept; infer_instance

theorem Swept.isSet {f : ℕ} (h : Swept m hand bit f) : bit f = true := by
  obtain ⟨j, hj, rfl⟩ := h
  exact (passed_spec m hand bit).2.1 j hj

theorem swept_next {f : ℕ} (hh : hand < m) (hbit : bit hand = true) :
    Swept m hand bit f ↔
      f = hand ∨ Swept m ((hand + 1) % m) (Function.update bit hand false) f := by
  unfold Swept
  rw [← passed_next hh hbit]
  constructor
  · rintro ⟨j, hj, rfl⟩
    cases j with
    | zero => exact .inl (Nat.mod_eq_of_lt hh)
    | succ j => exact .inr ⟨j, Nat.lt_of_succ_lt_succ hj, around_next m hand j⟩
  · rintro (rfl | ⟨j, hj, rfl⟩)
    · exact ⟨0, Nat.succ_pos _, Nat.mod_eq_of_lt hh⟩
    · exact ⟨j + 1, Nat.succ_lt_succ hj, (around_next m hand j).symm⟩

/-- All around, every frame is passed over. -/
theorem swept_full {f : ℕ} (h : ∀ f < m, bit f = true) (hh : hand < m) (hf : f < m) :
    Swept m hand bit f := by
  unfold Swept
  rw [passed_full h]
  exact around_surj hh hf

/-! ## The algorithm -/

/-- Which page is in which frame, the reference bits, and the hand. -/
structure Clock (α : Type*) where
  page : ℕ → Option α
  bit : ℕ → Bool
  hand : ℕ

namespace Clock

variable {α : Type*}

def empty : Clock α := ⟨fun _ => none, fun _ => false, 0⟩

/-- Put the page `p` in the frame `f`; it has just been referenced. -/
def put (f : ℕ) (p : α) (c : Clock α) : Clock α :=
  { c with page := Function.update c.page f (some p), bit := Function.update c.bit f true }

/-- Find a victim: the bits on the way are cleared, and the hand moves behind the victim. -/
def sweep (m : ℕ) (c : Clock α) : Clock α :=
  { c with
    bit := fun f => c.bit f && !decide (Swept m c.hand c.bit f)
    hand := (victim m c.hand c.bit + 1) % m }

/-- Serve one request. The victim comes with it, if there is one. -/
def request [DecidableEq α] (m : ℕ) (c : Clock α) (p : α) : Option ℕ × Clock α :=
  match (List.range m).find? fun f => c.page f = some p with
  | some f => (none, { c with bit := Function.update c.bit f true })
  | none =>
    match (List.range m).find? fun f => (c.page f).isNone with
    | some f => (none, c.put f p)
    | none => (some (victim m c.hand c.bit), (c.sweep m).put (victim m c.hand c.bit) p)

/-- The victims of a list of requests, in order, and the clock after it. -/
def serve [DecidableEq α] (m : ℕ) (ps : List α) : List ℕ × Clock α :=
  ps.foldl (fun x p => (x.1 ++ (x.2.request m p).1.toList, (x.2.request m p).2)) ([], empty)

theorem serve_append [DecidableEq α] (m : ℕ) (ps : List α) (p : α) :
    serve m (ps ++ [p]) = ((serve m ps).1 ++ ((serve m ps).2.request m p).1.toList,
      ((serve m ps).2.request m p).2) := by
  unfold serve
  rw [List.foldl_append, List.foldl_cons, List.foldl_nil]

end Clock

end SecondChance
