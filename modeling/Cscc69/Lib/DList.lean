import Mathlib.Data.Finset.Basic
import Mathlib.Data.List.Nodup
import Mathlib.Tactic.Common

/-!
# Doubly linked lists in a heap

A heap has cells, of which some are live. A read or a write of a cell that is not live fails, and
so does freeing it; `malloc` returns any cell that is not live, also one that was freed before
(`Malloc`).

`Heap.Seg h prev cells next` says that `cells` are linked up in both directions, between a cell
`prev` before them and `next` after them. The list operations are sequences of reads and writes,
and their rules say what they make of the cells of a list (`unlink_spec`, `pushFront_spec`,
`dropLast_spec`); `Seg.append` cuts a list where they work.
-/

namespace DList

/-! ## Heaps -/

structure Cell (α : Type*) where
  pre : Option ℕ
  nxt : Option ℕ
  data : α

structure Heap (α : Type*) where
  cell : ℕ → Cell α
  live : Finset ℕ
  /-- how many cells have been allocated so far -/
  mallocs : ℕ

variable {α : Type*}

/-- An allocator, which may look at the whole heap. -/
structure Malloc (α : Type*) where
  choose : Heap α → ℕ
  fresh : ∀ h, choose h ∉ h.live

namespace Heap

def read (h : Heap α) (a : ℕ) : Option (Cell α) := if a ∈ h.live then some (h.cell a) else none

def write (h : Heap α) (a : ℕ) (c : Cell α) : Option (Heap α) :=
  if a ∈ h.live then some { h with cell := Function.update h.cell a c } else none

def setPre (h : Heap α) (a : ℕ) (p : Option ℕ) : Option (Heap α) :=
  h.write a { h.cell a with pre := p }

def setNxt (h : Heap α) (a : ℕ) (n : Option ℕ) : Option (Heap α) :=
  h.write a { h.cell a with nxt := n }

def free (h : Heap α) (a : ℕ) : Option (Heap α) :=
  if a ∈ h.live then some { h with live := h.live.erase a } else none

/-- A new cell, with `c` written to it. -/
def alloc (m : Malloc α) (h : Heap α) (c : Cell α) : ℕ × Heap α :=
  (m.choose h, {
    cell := Function.update h.cell (m.choose h) c
    live := insert (m.choose h) h.live
    mallocs := h.mallocs + 1 })

/-- The cell that a pointer points to, if it is not null, has its `pre` set. -/
def setPre? (h : Heap α) (a : Option ℕ) (p : Option ℕ) : Option (Heap α) :=
  match a with
  | none => some h
  | some a => h.setPre a p

def setNxt? (h : Heap α) (a : Option ℕ) (n : Option ℕ) : Option (Heap α) :=
  match a with
  | none => some h
  | some a => h.setNxt a n

theorem read_of_mem {h : Heap α} {a : ℕ} (ha : a ∈ h.live) : h.read a = some (h.cell a) := if_pos ha

theorem read_of_notMem {h : Heap α} {a : ℕ} (ha : a ∉ h.live) : h.read a = none := if_neg ha

/-! ## Segments -/

/-- The cells are live and linked up, between `prev` and `next`. -/
def Seg (h : Heap α) : Option ℕ → List ℕ → Option ℕ → Prop
  | _, [], _ => True
  | prev, a :: cells, next => a ∈ h.live ∧ (h.cell a).pre = prev ∧
      (h.cell a).nxt = cells.head?.or next ∧ h.Seg (some a) cells next

variable {h h' : Heap α} {prev prev' next next' : Option ℕ} {cells as bs : List ℕ} {a b : ℕ}

theorem Seg.live (hs : h.Seg prev cells next) (ha : a ∈ cells) : a ∈ h.live := by
  induction cells generalizing prev with
  | nil => cases ha
  | cons c cells ih =>
    obtain ⟨hc, -, -, hs⟩ := hs
    obtain rfl | ha := List.mem_cons.1 ha
    · exact hc
    · exact ih hs ha

/-- A segment looks at its own cells only. -/
theorem Seg.congr (hs : h.Seg prev cells next) (hlive : ∀ a ∈ cells, a ∈ h'.live)
    (hcell : ∀ a ∈ cells, h'.cell a = h.cell a) : h'.Seg prev cells next := by
  induction cells generalizing prev with
  | nil => trivial
  | cons c cells ih =>
    obtain ⟨-, hpre, hnxt, hs⟩ := hs
    have hc := hcell c List.mem_cons_self
    refine ⟨hlive c List.mem_cons_self, by rw [hc, hpre], by rw [hc, hnxt], ?_⟩
    exact ih hs (fun a ha => hlive a (List.mem_cons_of_mem c ha))
      fun a ha => hcell a (List.mem_cons_of_mem c ha)

/-- **Cutting a list.** -/
theorem seg_append : h.Seg prev (as ++ bs) next ↔
    h.Seg prev as (bs.head?.or next) ∧ h.Seg (as.getLast?.or prev) bs next := by
  induction as generalizing prev with
  | nil => simp [Seg]
  | cons a as ih =>
    have hlast : ((a :: as).getLast?.or prev) = as.getLast?.or (some a) := by
      rw [List.getLast?_cons]
      cases as.getLast? <;> rfl
    have hhead : (as ++ bs).head?.or next = as.head?.or (bs.head?.or next) := by
      cases as <;> simp
    rw [List.cons_append, Seg, ih, hlast, hhead, Seg]
    simp only [and_assoc]

/-- From `h` to `h'`, at most the links of cell `a` changed. -/
structure Relinks (a : Option ℕ) (h h' : Heap α) : Prop where
  live : h'.live = h.live
  cell : ∀ x, a ≠ some x → h'.cell x = h.cell x
  data : ∀ x, (h'.cell x).data = (h.cell x).data

theorem write_spec {c : Cell α} (ha : a ∈ h.live) (hc : c.data = (h.cell a).data) :
    ∃ h', h.write a c = some h' ∧ Relinks (some a) h h' ∧ h'.cell a = c := by
  refine ⟨_, if_pos ha, ⟨rfl, fun x hx => ?_, fun x => ?_⟩, Function.update_self ..⟩
  · exact Function.update_of_ne (fun heq => hx (congrArg some heq.symm)) ..
  · show (Function.update h.cell a c x).data = _
    by_cases hx : x = a
    · subst hx
      rw [Function.update_self, hc]
    · rw [Function.update_of_ne hx]

/-- Changing the links of a live cell, or of none. -/
theorem relink?_spec {f : Cell α → Cell α} (hf : ∀ c, (f c).data = c.data) {a : Option ℕ}
    (ha : ∀ x, a = some x → x ∈ h.live) :
    ∃ h', a.elim (some h) (fun x => h.write x (f (h.cell x))) = some h' ∧ Relinks a h h' ∧
      ∀ x, a = some x → h'.cell x = f (h.cell x) := by
  cases a with
  | none => exact ⟨h, rfl, ⟨rfl, fun _ _ => rfl, fun _ => rfl⟩, fun x hx => by cases hx⟩
  | some a =>
    obtain ⟨h', hw, hre, hcell⟩ := write_spec (h := h) (ha a rfl) (hf (h.cell a))
    refine ⟨h', hw, hre, fun x hx => ?_⟩
    obtain rfl := Option.some.inj hx
    exact hcell

theorem setPre?_spec {a p : Option ℕ} (ha : ∀ x, a = some x → x ∈ h.live) :
    ∃ h', h.setPre? a p = some h' ∧ Relinks a h h' ∧
      ∀ x, a = some x → (h'.cell x).pre = p ∧ (h'.cell x).nxt = (h.cell x).nxt := by
  obtain ⟨h', hw, hre, hcell⟩ := relink?_spec (f := fun c => { c with pre := p }) (fun _ => rfl) ha
  refine ⟨h', ?_, hre, fun x hx => ?_⟩
  · rw [← hw]
    cases a <;> rfl
  · rw [hcell x hx]
    exact ⟨rfl, rfl⟩

theorem setNxt?_spec {a n : Option ℕ} (ha : ∀ x, a = some x → x ∈ h.live) :
    ∃ h', h.setNxt? a n = some h' ∧ Relinks a h h' ∧
      ∀ x, a = some x → (h'.cell x).nxt = n ∧ (h'.cell x).pre = (h.cell x).pre := by
  obtain ⟨h', hw, hre, hcell⟩ := relink?_spec (f := fun c => { c with nxt := n }) (fun _ => rfl) ha
  refine ⟨h', ?_, hre, fun x hx => ?_⟩
  · rw [← hw]
    cases a <;> rfl
  · rw [hcell x hx]
    exact ⟨rfl, rfl⟩

/-- A segment without the relinked cell stays. -/
theorem Seg.relink {a : Option ℕ} (hs : h.Seg prev cells next) (hre : Relinks a h h')
    (hnot : ∀ x ∈ cells, a ≠ some x) : h'.Seg prev cells next :=
  hs.congr (fun x hx => by rw [hre.live]; exact hs.live hx) fun x hx => hre.cell x (hnot x hx)

/-- Only the first cell points back to `prev`. -/
theorem Seg.relink_head (hs : h.Seg prev cells next) (hnd : cells.Nodup)
    (hre : Relinks cells.head? h h')
    (hset : ∀ x, cells.head? = some x → (h'.cell x).pre = prev' ∧
      (h'.cell x).nxt = (h.cell x).nxt) : h'.Seg prev' cells next := by
  cases cells with
  | nil => trivial
  | cons c cells =>
    obtain ⟨hc, -, hnxt, hs⟩ := hs
    obtain ⟨hnot, -⟩ := List.nodup_cons.1 hnd
    obtain ⟨hpre', hnxt'⟩ := hset c rfl
    refine ⟨by rw [hre.live]; exact hc, hpre', hnxt'.trans hnxt, hs.relink hre fun x hx heq => ?_⟩
    obtain rfl := Option.some.inj heq
    exact hnot hx

/-- Only the last cell points on to `next`. -/
theorem Seg.relink_last (hs : h.Seg prev cells next) (hnd : cells.Nodup)
    (hre : Relinks cells.getLast? h h')
    (hset : ∀ x, cells.getLast? = some x → (h'.cell x).nxt = next' ∧
      (h'.cell x).pre = (h.cell x).pre) : h'.Seg prev cells next' := by
  induction cells using List.reverseRecOn with
  | nil => trivial
  | append_singleton as c _ =>
    obtain ⟨hs, hc, hpre, -, -⟩ := seg_append.1 hs
    have hlast : (as ++ [c]).getLast? = some c := by simp
    obtain ⟨hnxt', hpre'⟩ := hset c hlast
    refine seg_append.2 ⟨hs.relink hre fun x hx heq => ?_, by rw [hre.live]; exact hc,
      hpre'.trans hpre, by simpa using hnxt', trivial⟩
    obtain rfl := Option.some.inj (hlast.symm.trans heq)
    exact List.disjoint_of_nodup_append hnd hx List.mem_cons_self

/-! ## Lists -/

/-- The list that begins at `head` has just these cells, linked in both directions. -/
structure IsList (h : Heap α) (head : Option ℕ) (cells : List ℕ) : Prop where
  head_eq : head = cells.head?
  nodup : cells.Nodup
  seg : h.Seg none cells none

theorem IsList.pre_head (hl : h.IsList (some a) cells) : (h.cell a).pre = none := by
  have hhead := hl.head_eq
  cases cells with
  | nil => cases hhead
  | cons c cells =>
    obtain rfl := Option.some.inj hhead
    obtain ⟨-, hpre, -⟩ := hl.seg
    exact hpre

/-- The cell's neighbours are linked to each other, and it is freed. -/
def unlink (h : Heap α) (b : ℕ) : Option (Heap α) := do
  let c ← h.read b
  let h ← h.setNxt? c.pre c.nxt
  let c ← h.read b
  let h ← h.setPre? c.nxt c.pre
  h.free b

/-- **Unlinking.** The cells before and after the cell make a list again. -/
theorem unlink_spec (hs : h.Seg none (as ++ b :: bs) none) (hnd : (as ++ b :: bs).Nodup) :
    ∃ h', h.unlink b = some h' ∧ h'.Seg none (as ++ bs) none ∧ h'.live = h.live.erase b ∧
      ∀ x, (h'.cell x).data = (h.cell x).data := by
  obtain ⟨has, hb, hpre, hnxt, hbs⟩ := seg_append.1 hs
  rw [Option.or_none] at hpre hnxt
  obtain ⟨hndas, hndbbs, hdis⟩ := List.nodup_append'.1 hnd
  obtain ⟨hbbs, hndbs⟩ := List.nodup_cons.1 hndbbs
  have hbas : b ∉ as := fun hmem => hdis hmem List.mem_cons_self
  have hlast : ∀ x, as.getLast? = some x → x ∈ as := fun x hx => List.mem_of_getLast? hx
  have hhead : ∀ x, bs.head? = some x → x ∈ bs := fun x hx => List.mem_of_head? hx
  -- the cell before
  obtain ⟨h₁, heq₁, hre₁, hset₁⟩ := setNxt?_spec (h := h) (a := as.getLast?) (n := bs.head?)
    fun x hx => has.live (hlast x hx)
  have hcell₁ : h₁.cell b = h.cell b := hre₁.cell b fun heq => hbas (hlast b heq)
  have has₁ := has.relink_last hndas hre₁ hset₁
  have hbs₁ := hbs.relink hre₁ fun x hx heq => hdis (hlast x heq) (List.mem_cons_of_mem b hx)
  have hb₁ : b ∈ h₁.live := by
    rw [hre₁.live]
    exact hb
  -- the cell after
  obtain ⟨h₂, heq₂, hre₂, hset₂⟩ := setPre?_spec (h := h₁) (a := bs.head?) (p := as.getLast?)
    fun x hx => hbs₁.live (hhead x hx)
  have has₂ := has₁.relink hre₂ fun x hx heq => hdis hx (List.mem_cons_of_mem b (hhead x heq))
  have hbs₂ := hbs₁.relink_head hndbs hre₂ hset₂
  have hlive₂ : h₂.live = h.live := hre₂.live.trans hre₁.live
  have hfree : h₂.free b = some { h₂ with live := h₂.live.erase b } := by
    refine if_pos ?_
    rw [hlive₂]
    exact hb
  refine ⟨{ h₂ with live := h₂.live.erase b }, ?_, ?_, ?_,
    fun x => (hre₂.data x).trans (hre₁.data x)⟩
  · unfold unlink
    rw [read_of_mem hb]
    simp only [Option.bind_eq_bind, Option.bind_some, hpre, hnxt, heq₁, read_of_mem hb₁, hcell₁,
      heq₂]
    exact hfree
  · have hseg : h₂.Seg none (as ++ bs) none := by
      refine seg_append.2 ⟨?_, ?_⟩
      · rw [Option.or_none]
        exact has₂
      · rw [Option.or_none]
        exact hbs₂
    refine hseg.congr (fun x hx => ?_) fun _ _ => rfl
    refine Finset.mem_erase.2 ⟨fun heq => ?_, hseg.live hx⟩
    subst heq
    obtain hx | hx := List.mem_append.1 hx
    · exact hbas hx
    · exact hbbs hx
  · show h₂.live.erase b = _
    rw [hlive₂]

/-- A new first cell, and the old one pointing back to it. -/
def pushFront (m : Malloc α) (h : Heap α) (head : Option ℕ) (d : α) : Option (ℕ × Heap α) :=
  let (n, h) := h.alloc m ⟨none, head, d⟩
  (h.setPre? head (some n)).map fun h => (n, h)

/-- **A new first cell.** -/
theorem pushFront_spec {m : Malloc α} {head : Option ℕ} (d : α) (hl : h.IsList head cells) :
    ∃ n h', h.pushFront m head d = some (n, h') ∧ h'.IsList (some n) (n :: cells) ∧
      h'.live = insert n h.live ∧ (h'.cell n).data = d ∧
      ∀ x ∈ cells, (h'.cell x).data = (h.cell x).data := by
  have hnew : m.choose h ∉ cells := fun hmem => m.fresh h (hl.seg.live hmem)
  set n := m.choose h with hn
  set h₁ := (h.alloc m ⟨none, head, d⟩).2 with hh₁
  have hcell₁ : ∀ x ≠ n, h₁.cell x = h.cell x := fun x hx => Function.update_of_ne hx ..
  have hself₁ : h₁.cell n = ⟨none, head, d⟩ := Function.update_self ..
  have hseg₁ : h₁.Seg none cells none := by
    refine hl.seg.congr (fun x hx => Finset.mem_insert_of_mem (hl.seg.live hx)) fun x hx => ?_
    exact hcell₁ x (ne_of_mem_of_not_mem hx hnew)
  have hhead : ∀ x, head = some x → x ∈ cells := by
    intro x hx
    rw [hl.head_eq] at hx
    exact List.mem_of_head? hx
  obtain ⟨h₂, heq₂, hre₂, hset₂⟩ := setPre?_spec (h := h₁) (a := head) (p := some n)
    fun x hx => hseg₁.live (hhead x hx)
  have hn₂ : h₂.cell n = ⟨none, head, d⟩ := by
    rw [hre₂.cell n fun heq => hnew (hhead n heq), hself₁]
  have hseg₂ : h₂.Seg (some n) cells none := by
    rw [hl.head_eq] at hre₂ hset₂
    exact hseg₁.relink_head hl.nodup hre₂ hset₂
  refine ⟨n, h₂, ?_, ⟨rfl, List.nodup_cons.2 ⟨hnew, hl.nodup⟩, ?_, ?_, ?_, hseg₂⟩, hre₂.live, ?_,
    fun x hx => ?_⟩
  · show (h₁.setPre? head (some n)).map _ = _
    rw [heq₂]
    rfl
  · rw [hre₂.live]
    exact Finset.mem_insert_self ..
  · rw [hn₂]
  · rw [hn₂, Option.or_none]
    exact hl.head_eq
  · rw [hn₂]
  · rw [hre₂.data, hcell₁ x (ne_of_mem_of_not_mem hx hnew)]

/-- A new cell in front of a freed one: the freed cell is written to, or the new cell is that cell
again and points back to itself. -/
theorem pushFront_dangling {m : Malloc α} {d : α} {c n : ℕ} (hc : c ∉ h.live)
    (hp : h.pushFront m (some c) d = some (n, h')) (cells : List ℕ) :
    ¬ h'.IsList (some n) cells := by
  obtain ⟨h₁, hset, heq⟩ := Option.map_eq_some_iff.1 hp
  obtain ⟨rfl, rfl⟩ := Prod.mk.inj heq
  simp only [setPre?, setPre, write] at hset
  split at hset
  · rename_i hmem
    have hself : c = m.choose h := (Finset.mem_insert.1 hmem).resolve_right hc
    obtain rfl := Option.some.inj hset
    intro hl
    have hpre := hl.pre_head
    rw [hself] at hpre
    simp at hpre
  · cases hset

/-- The last cell is freed, and the one before it becomes the last. -/
def dropLast (h : Heap α) (b : ℕ) : Option (Heap α) := do
  let c ← h.read b
  let h ← h.free b
  h.setNxt? c.pre none

theorem dropLast_spec (hs : h.Seg none (as ++ [b]) none) (hnd : (as ++ [b]).Nodup) :
    ∃ h', h.dropLast b = some h' ∧ h'.Seg none as none ∧ h'.live = h.live.erase b ∧
      ∀ x, (h'.cell x).data = (h.cell x).data := by
  obtain ⟨has, hb, hpre, -, -⟩ := seg_append.1 hs
  rw [Option.or_none] at hpre
  obtain ⟨hndas, -, hdis⟩ := List.nodup_append'.1 hnd
  have hbas : b ∉ as := fun hmem => hdis hmem List.mem_cons_self
  have hfree : h.free b = some { h with live := h.live.erase b } := if_pos hb
  have has₁ : ({ h with live := h.live.erase b } : Heap α).Seg none as ([b].head?.or none) := by
    refine has.congr (fun x hx => ?_) fun _ _ => rfl
    exact Finset.mem_erase.2 ⟨ne_of_mem_of_not_mem hx hbas, has.live hx⟩
  obtain ⟨h₂, heq₂, hre₂, hset₂⟩ := setNxt?_spec (n := none)
    fun x hx => has₁.live (List.mem_of_getLast? hx)
  refine ⟨h₂, ?_, has₁.relink_last hndas hre₂ hset₂, hre₂.live, hre₂.data⟩
  unfold dropLast
  rw [read_of_mem hb]
  simp only [Option.bind_eq_bind, Option.bind_some, hfree, hpre, heq₂]

/-! ## Walks -/

/-- Follow `nxt` to the last cell, over at most `fuel` cells. -/
def last (h : Heap α) : ℕ → ℕ → Option ℕ
  | 0, _ => none
  | fuel + 1, a => (h.read a).bind fun c =>
    match c.nxt with
    | none => some a
    | some n => h.last fuel n

/-- Follow `nxt` to the first cell with `p`, over at most `fuel` cells. -/
def find (h : Heap α) (p : α → Bool) : ℕ → Option ℕ → Option (Option ℕ)
  | _, none => some none
  | 0, some _ => none
  | fuel + 1, some a => (h.read a).bind fun c =>
    if p c.data then some (some a) else h.find p fuel c.nxt

/-- **Walks over a list end.** -/
theorem last_spec {fuel : ℕ} (hs : h.Seg prev (a :: cells) none) (hf : cells.length < fuel) :
    h.last fuel a = (a :: cells).getLast? := by
  induction cells generalizing prev a fuel with
  | nil =>
    obtain ⟨fuel, rfl⟩ := Nat.exists_eq_succ_of_ne_zero (Nat.ne_of_gt hf)
    obtain ⟨ha, -, hnxt, -⟩ := hs
    rw [last, read_of_mem ha, Option.bind_some, hnxt]
    rfl
  | cons c cells ih =>
    obtain ⟨fuel, rfl⟩ := Nat.exists_eq_succ_of_ne_zero (Nat.ne_of_gt (Nat.zero_lt_of_lt hf))
    obtain ⟨ha, -, hnxt, hs⟩ := hs
    rw [last, read_of_mem ha, Option.bind_some, hnxt, List.getLast?_cons_cons]
    exact ih hs (Nat.lt_of_succ_lt_succ hf)

theorem find_spec {fuel : ℕ} (p : α → Bool) (hs : h.Seg prev cells none)
    (hf : cells.length ≤ fuel) :
    h.find p fuel cells.head? = some (cells.find? fun a => p (h.cell a).data) := by
  induction cells generalizing prev fuel with
  | nil => cases fuel <;> rfl
  | cons c cells ih =>
    obtain ⟨fuel, rfl⟩ := Nat.exists_eq_succ_of_ne_zero (Nat.ne_of_gt (Nat.zero_lt_of_lt hf))
    obtain ⟨hc, -, hnxt, hs⟩ := hs
    rw [List.head?_cons, find, read_of_mem hc, Option.bind_some, List.find?_cons]
    cases hp : p (h.cell c).data with
    | true => simp
    | false =>
      rw [hnxt, Option.or_none]
      simpa using ih hs (Nat.le_of_succ_le_succ hf)

end Heap

end DList
