import Cscc69.Paging.Demand

/-!
# The opt policy

`opt_init` has the whole trace before the simulation starts, and `memory[k]` is to say when the page
in frame `k` is used next. `opt_ref` fills in the entry one reference late: while reference `t` is
served, the entries are right for all pages but the one of reference `t - 1`, whose frame still has
what `opt_ref` wrote for it before that reference (`Timeline`). When `opt_evict` is called then, the
one stale entry is compared with the right ones.

`opt_iff` says exactly when this does no harm: if the stale entry wins, the newest page must be
used last, and if it does not, some other page must be used no earlier than the newest one
(`StaleHarmless`). On the traces where all evictions are so, every victim's next use is the
farthest, and by `farthest_least` no policy has fewer misses.
-/

namespace Cscc69.Paging

open Caching Pager

/-! ## The two functions -/

/-- `struct traceItem`, without its links. -/
structure TraceItem where
  index : ℕ
  time : ℕ
  addr : BitVec 64

structure OptData where
  /-- `coremap->cur->pre`, if it is not null -/
  pre : Option TraceItem
  /-- `coremap->cur` and the items that follow it -/
  cur : List TraceItem
  lines : ℕ
  addrs : ℕ → BitVec 64
  memory : ℕ → ℤ

/-- One pass of the loop of `opt_evict` over `evict`, `max` and `found`. -/
def optScan (coremap : ℕ → Frame) (memory : ℕ → ℤ) (loop : ℕ × ℤ × Bool) (k : ℕ) : ℕ × ℤ × Bool :=
  let (evict, max, found) := loop
  if found then (evict, max, found)
  else if memory k = -1 ∧ (coremap k).pte.isSome then (k, max, true)
  else if memory k > max then (k, memory k, found)
  else (evict, max, found)

def optEvict (memsize : ℕ) (coremap : ℕ → Frame) (d : OptData) : Option (ℕ × OptData) :=
  let (evict, _, _) := (List.range memsize).foldl (optScan coremap d.memory) (0, -1, false)
  some (evict, d)

/-- The loop of `opt_ref`, with `n` more times to look at, from time `j` on. -/
def nextReference (addrs : ℕ → BitVec 64) (pre : TraceItem) : ℕ → ℕ → (ℕ → ℤ) → ℕ → ℤ
  | 0, _, memory => memory
  | n + 1, j, memory =>
    let memory := Function.update memory pre.index (-1)
    if pre.addr = addrs j then Function.update memory pre.index j
    else nextReference addrs pre n (j + 1) memory

def optRef (coremap : ℕ → Frame) (frame : ℕ) (d : OptData) : Option OptData :=
  match d.cur with
  | [] => none
  | cur :: items =>
    let cur := { cur with index := frame }
    let memory :=
      match (coremap frame).pte, d.pre with
      | some _, some pre => nextReference d.addrs pre (d.lines - cur.time) cur.time d.memory
      | _, _ => d.memory
    some { d with pre := some cur, cur := items, memory := memory }

def optData (memsize : ℕ) : DataPolicy OptData := ⟨optEvict memsize, optRef⟩

def opt (memsize : ℕ) : Policy OptData := (optData memsize).policy

/-- The list and the table describe the references `rs`, which begin at time `t`. The table has
room for one more line than there are references, as the file may end with a newline. -/
structure Describes (t : ℕ) (rs : List Reference) (d : OptData) : Prop where
  items : ∀ i (h : i < rs.length), ∃ item, d.cur[i]? = some item ∧ item.time = t + i ∧
    item.addr = rs[i].vaddr
  addrs : ∀ i (h : i < rs.length), d.addrs (t + i) = rs[i].vaddr
  lines_ge : t + rs.length ≤ d.lines
  lines_le : d.lines ≤ t + rs.length + 1

/-- What `opt_init` leaves for a trace that it reads right. -/
structure OptInit (rs : List Reference) (d : OptData) : Prop where
  describes : Describes 0 rs d
  pre : d.pre = none
  memory : ∀ k, d.memory k = -1

/-! ## The victim -/

/-- Time `m` is later than `m'`, where -1 stands for never. -/
def Later (m m' : ℤ) : Prop := m' ≠ -1 ∧ (m = -1 ∨ m' < m)

/-- `e` is the first of the frames with the latest entry. -/
structure FirstLatest (memory : ℕ → ℤ) (n e : ℕ) : Prop where
  lt : e < n
  first : ∀ g < e, Later (memory e) (memory g)
  latest : ∀ g < n, ¬ Later (memory g) (memory e)

variable {memory : ℕ → ℤ} {coremap : ℕ → Frame} {n e e' memsize : ℕ}

instance (m m' : ℤ) : Decidable (Later m m') := by unfold Later; infer_instance

instance : Decidable (FirstLatest memory n e) :=
  decidable_of_iff
    (e < n ∧ (∀ g < e, Later (memory e) (memory g)) ∧ ∀ g < n, ¬ Later (memory g) (memory e))
    ⟨fun h => ⟨h.1, h.2.1, h.2.2⟩, fun h => ⟨h.lt, h.first, h.latest⟩⟩

theorem FirstLatest.unique (h : FirstLatest memory n e) (h' : FirstLatest memory n e') :
    e = e' := by
  obtain hlt | heq | hlt := Nat.lt_trichotomy e e'
  · exact absurd (h'.first e hlt) (h.latest e' h'.lt)
  · exact heq
  · exact absurd (h.first e' hlt) (h'.latest e h.lt)

theorem not_later_self (m : ℤ) : ¬ Later m m := fun ⟨hne, hor⟩ =>
  hor.elim hne (lt_irrefl m)

/-- After `n` passes of the loop. -/
theorem optScan_range (hpte : ∀ k < n, (coremap k).pte.isSome = true)
    (hmemory : ∀ k, -1 ≤ memory k) :
    let (e, max, found) := (List.range n).foldl (optScan coremap memory) (0, -1, false)
    (found = true → FirstLatest memory n e ∧ memory e = -1) ∧
    (found = false → (∀ g < n, memory g ≠ -1) ∧
      (n = 0 ∧ max = -1 ∨ FirstLatest memory n e ∧ max = memory e)) := by
  induction n with
  | zero =>
    exact ⟨fun h => Bool.noConfusion h, fun _ => ⟨fun g hg => absurd hg (Nat.not_lt_zero g),
      .inl ⟨rfl, rfl⟩⟩⟩
  | succ n ih =>
    have ih := ih fun k hk => hpte k (Nat.lt_succ_of_lt hk)
    rw [List.range_succ, List.foldl_append]
    generalize (List.range n).foldl (optScan coremap memory) (0, -1, false) = loop at ih ⊢
    obtain ⟨e, max, found⟩ := loop
    obtain ⟨hfound, hsearch⟩ := ih
    rw [List.foldl_cons, List.foldl_nil]
    cases found with
    | true =>
      obtain ⟨he, hnever⟩ := hfound rfl
      refine ⟨fun _ => ⟨⟨Nat.lt_succ_of_lt he.lt, he.first, fun g _ hlater => ?_⟩, hnever⟩,
        fun h => Bool.noConfusion h⟩
      exact hlater.1 hnever
    | false =>
      obtain ⟨hne, hmax⟩ := hsearch rfl
      by_cases hn : memory n = -1
      · have hscan : optScan coremap memory (e, max, false) n = (n, max, true) := by
          simp [optScan, hn, hpte n (Nat.lt_succ_self n)]
        rw [hscan]
        refine ⟨fun _ => ⟨⟨Nat.lt_succ_self n, fun g hg => ⟨hne g hg, .inl hn⟩,
          fun g _ hlater => hlater.1 hn⟩, hn⟩, fun h => Bool.noConfusion h⟩
      have hne' : ∀ g < n + 1, memory g ≠ -1 := by
        intro g hg
        obtain hlt | rfl := Nat.lt_succ_iff_lt_or_eq.1 hg
        · exact hne g hlt
        · exact hn
      by_cases hgt : max < memory n
      · have hscan : optScan coremap memory (e, max, false) n = (n, memory n, false) := by
          simp [optScan, hn, hgt]
        rw [hscan]
        -- the entries before are below `memory n`
        have hbelow : ∀ g < n, memory g < memory n := by
          intro g hg
          obtain ⟨rfl, -⟩ | ⟨he, rfl⟩ := hmax
          · exact absurd hg (Nat.not_lt_zero g)
          · refine lt_of_le_of_lt (not_lt.1 fun hlt => ?_) hgt
            exact he.latest g hg ⟨hne e he.lt, .inr hlt⟩
        refine ⟨fun h => Bool.noConfusion h, fun _ => ⟨hne', .inr ⟨⟨Nat.lt_succ_self n,
          fun g hg => ⟨hne g hg, .inr (hbelow g hg)⟩, fun g hg hlater => ?_⟩, rfl⟩⟩⟩
        obtain hlt | rfl := Nat.lt_succ_iff_lt_or_eq.1 hg
        · exact hlater.2.elim (hne g hlt) (lt_asymm (hbelow g hlt))
        · exact not_later_self _ hlater
      · have hscan : optScan coremap memory (e, max, false) n = (e, max, false) := by
          simp [optScan, hn, hgt]
        rw [hscan]
        refine ⟨fun h => Bool.noConfusion h, fun _ => ⟨hne', .inr ?_⟩⟩
        obtain ⟨rfl, rfl⟩ | ⟨he, rfl⟩ := hmax
        · exact absurd (le_antisymm (not_lt.1 hgt) (hmemory 0)) hn
        · refine ⟨⟨Nat.lt_succ_of_lt he.lt, he.first, fun g hg hlater => ?_⟩, rfl⟩
          obtain hlt | rfl := Nat.lt_succ_iff_lt_or_eq.1 hg
          · exact he.latest g hlt hlater
          · exact hlater.2.elim hn hgt

/-- **`opt_evict` returns the first frame with the latest entry.** -/
theorem optEvict_firstLatest {d : OptData} (hpos : 1 ≤ memsize)
    (hpte : ∀ k < memsize, (coremap k).pte.isSome = true) (hmemory : ∀ k, -1 ≤ d.memory k) :
    ∃ e, optEvict memsize coremap d = some (e, d) ∧ FirstLatest d.memory memsize e := by
  have hscan := optScan_range hpte hmemory
  unfold optEvict
  generalize (List.range memsize).foldl (optScan coremap d.memory) (0, -1, false) = loop at hscan ⊢
  obtain ⟨e, max, found⟩ := loop
  refine ⟨e, rfl, ?_⟩
  cases found with
  | true => exact (hscan.1 rfl).1
  | false =>
    obtain ⟨hzero, -⟩ | ⟨he, -⟩ := (hscan.2 rfl).2
    · omega
    · exact he

/-! ## The next use -/

/-- The entry that the loop writes: the first time that the address comes up again, or -1. The last
line may be found by chance when the address does not come up. -/
theorem nextReference_eq {addrs : ℕ → BitVec 64} {pre : TraceItem} {j : ℕ}
    {vaddrs : List (BitVec 64)}
    (haddrs : ∀ i (h : i < vaddrs.length), addrs (j + i) = vaddrs[i])
    (hge : vaddrs.length ≤ n) (hle : n ≤ vaddrs.length + 1) (hn : n = 0 → memory pre.index = -1) :
    ∃ v, nextReference addrs pre n j memory = Function.update memory pre.index v ∧
      (v = j + vaddrs.idxOf pre.addr ∨ v = -1 ∧ pre.addr ∉ vaddrs) := by
  induction vaddrs generalizing n j memory with
  | nil =>
    obtain rfl | rfl := Nat.le_one_iff_eq_zero_or_eq_one.1 hle
    · refine ⟨-1, ?_, .inr ⟨rfl, List.not_mem_nil⟩⟩
      rw [← hn rfl, Function.update_eq_self]
      rfl
    · unfold nextReference
      dsimp only
      split
      · exact ⟨j, by rw [Function.update_idem], .inl (by simp)⟩
      · exact ⟨-1, rfl, .inr ⟨rfl, List.not_mem_nil⟩⟩
  | cons vaddr vaddrs ih =>
    obtain ⟨n, rfl⟩ : ∃ n', n = n' + 1 :=
      Nat.exists_eq_succ_of_ne_zero (Nat.ne_of_gt (Nat.lt_of_lt_of_le (Nat.succ_pos _) hge))
    have hfirst : addrs j = vaddr := haddrs 0 (Nat.succ_pos _)
    unfold nextReference
    dsimp only
    rw [hfirst]
    split
    · rename_i heq
      refine ⟨j, by rw [Function.update_idem], .inl ?_⟩
      rw [heq, List.idxOf_cons_self]
      simp
    · rename_i hne
      have htail : ∀ i (h : i < vaddrs.length), addrs (j + 1 + i) = vaddrs[i] := by
        intro i hi
        have h := haddrs (i + 1) (Nat.succ_lt_succ hi)
        rw [List.getElem_cons_succ] at h
        rw [← h, add_right_comm, add_assoc]
      have hset : n = 0 → Function.update memory pre.index (-1) pre.index = -1 :=
        fun _ => Function.update_self ..
      obtain ⟨v, hv, hcases⟩ := ih htail (Nat.le_of_succ_le_succ hge)
        (Nat.le_of_succ_le_succ hle) hset
      refine ⟨v, by rw [hv, Function.update_idem], ?_⟩
      rw [List.idxOf_cons_ne _ (Ne.symm hne)]
      refine hcases.imp (fun h => ?_) fun ⟨hv, hnot⟩ => ⟨hv, ?_⟩
      · rw [h]
        push_cast
        ring
      · rw [List.mem_cons, not_or]
        exact ⟨hne, hnot⟩

/-! ## Pages and addresses -/

/-- The address of the beginning of a page, below `2 ^ 32`. -/
def Aligned (vaddr : BitVec 64) : Prop := vaddr.toNat < 2 ^ 32 ∧ vaddr.toNat % 4096 = 0

instance (vaddr : BitVec 64) : Decidable (Aligned vaddr) := by unfold Aligned; infer_instance

theorem Aligned.entry {vaddr : BitVec 64} (h : Aligned vaddr) : ∃ p, entryOf vaddr = some p :=
  entryOf_isSome (h.1.trans (by decide))

theorem Aligned.eq_iff {vaddr vaddr' : BitVec 64} (h : Aligned vaddr) (h' : Aligned vaddr')
    {q : Ptr} (hq : entryOf vaddr' = some q) : vaddr = vaddr' ↔ entryOf vaddr = some q := by
  rw [← hq, entryOf_eq_iff (h.1.trans (by decide)) (h'.1.trans (by decide)), ← BitVec.toNat_inj]
  obtain ⟨-, hmod⟩ := h
  obtain ⟨-, hmod'⟩ := h'
  omega

/-- An address comes up when its page does. -/
theorem idxOf_pages {rs : List Reference} (hrs : ∀ r ∈ rs, Aligned r.vaddr) {vaddr : BitVec 64}
    (h : Aligned vaddr) {q : Ptr} (hq : entryOf vaddr = some q) :
    (rs.map (·.vaddr)).idxOf vaddr = (pages rs).idxOf q ∧
      (vaddr ∈ rs.map (·.vaddr) ↔ q ∈ pages rs) := by
  induction rs with
  | nil => exact ⟨rfl, by simp [pages]⟩
  | cons r rs ih =>
    obtain ⟨p, hp⟩ := (hrs r List.mem_cons_self).entry
    obtain ⟨hidx, hmem⟩ := ih fun r hr => hrs r (List.mem_cons_of_mem _ hr)
    have heq : r.vaddr = vaddr ↔ p = q := by
      rw [(hrs r List.mem_cons_self).eq_iff h hq, hp, Option.some_inj]
    rw [pages_cons hp, List.map_cons, List.mem_cons, List.mem_cons, hmem, @eq_comm _ vaddr, heq,
      @eq_comm _ q]
    refine ⟨?_, Iff.rfl⟩
    by_cases hpq : p = q
    · rw [heq.2 hpq, hpq, List.idxOf_cons_self, List.idxOf_cons_self]
    · rw [List.idxOf_cons_ne _ hpq, List.idxOf_cons_ne _ (mt heq.1 hpq), hidx]

/-! ## The timeline -/

/-- The entry `m` says at time `t` when the page of `q` is referenced next. -/
def Recorded (m : ℤ) (t : ℕ) (rs : List Reference) (q : Ptr) : Prop :=
  m = t + (pages rs).idxOf q ∨ m = -1 ∧ q ∉ pages rs

/-- Before the reference of time `t`, the first of `rs`. -/
structure Timeline (memsize t : ℕ) (rs : List Reference) (past : List Ptr) (s : Sim OptData) :
    Prop where
  tracked : Tracked memsize past s.pager
  describes : Describes t rs s.policy
  memory_ge : ∀ k, -1 ≤ s.policy.memory k
  /-- every page but the newest has its entry -/
  memory : ∀ q, (s.pager.page q).valid = true → past.head? ≠ some q →
    Recorded (s.policy.memory (s.pager.page q).frame) t rs q
  pre_none : past = [] → s.policy.pre = none
  pre : ∀ q, past.head? = some q → ∃ item, s.policy.pre = some item ∧
    item.index = (s.pager.page q).frame ∧ Aligned item.addr ∧ entryOf item.addr = some q

variable {t : ℕ} {rs : List Reference} {r : Reference} {past : List Ptr} {s : Sim OptData} {p : Ptr}

theorem Recorded.succ {m : ℤ} {q : Ptr} (h : Recorded m t (r :: rs) q)
    (hp : entryOf r.vaddr = some p) (hne : q ≠ p) : Recorded m (t + 1) rs q := by
  unfold Recorded at h ⊢
  rw [pages_cons hp, List.idxOf_cons_ne _ hne.symm, List.mem_cons, or_iff_right hne] at h
  refine h.imp_left fun hm => ?_
  rw [hm]
  push_cast
  ring

theorem Describes.tail {d : OptData} (h : Describes t (r :: rs) d) :
    ∃ item items, d.cur = item :: items ∧ item.time = t ∧ item.addr = r.vaddr ∧
      ∀ d', d'.cur = items → d'.lines = d.lines → d'.addrs = d.addrs →
        Describes (t + 1) rs d' := by
  obtain ⟨item, hitem, htime, haddr⟩ := h.items 0 (Nat.succ_pos _)
  cases hcur : d.cur with
  | nil =>
    rw [hcur] at hitem
    cases hitem
  | cons first items =>
    rw [hcur] at hitem
    obtain rfl := Option.some.inj hitem
    refine ⟨first, items, rfl, htime, haddr, fun d' hcur' hlines haddrs => ⟨fun i hi => ?_,
      fun i hi => ?_, ?_, ?_⟩⟩
    · obtain ⟨item, hitem, htime, haddr⟩ := h.items (i + 1) (Nat.succ_lt_succ hi)
      rw [hcur, List.getElem?_cons_succ, ← hcur'] at hitem
      exact ⟨item, hitem, by rw [htime]; ring, haddr⟩
    · have hi' := h.addrs (i + 1) (Nat.succ_lt_succ hi)
      rw [List.getElem_cons_succ] at hi'
      rw [haddrs, ← hi', add_right_comm, add_assoc]
    · have hge := h.lines_ge
      rw [List.length_cons] at hge
      omega
    · have hle := h.lines_le
      rw [List.length_cons] at hle
      omega

/-- What `opt_ref` writes about the page of the reference before. -/
theorem optRef_eq {coremap : ℕ → Frame} {frame : ℕ} {d : OptData} {item : TraceItem} {q : Ptr}
    (h : Describes t (r :: rs) d) (hrs : ∀ r' ∈ r :: rs, Aligned r'.vaddr)
    (hpte : (coremap frame).pte = some p) (hpre : d.pre = some item)
    (haligned : Aligned item.addr) (hq : entryOf item.addr = some q) :
    ∃ d' item' v, optRef coremap frame d = some d' ∧ Describes (t + 1) rs d' ∧
      d'.pre = some item' ∧ item'.index = frame ∧ item'.addr = r.vaddr ∧
      d'.memory = Function.update d.memory item.index v ∧ Recorded v t (r :: rs) q := by
  obtain ⟨cur, items, hcur, htime, haddr, htail⟩ := h.tail
  have hlines_ge := h.lines_ge
  have hlines_le := h.lines_le
  have haddrs : ∀ i (hi : i < ((r :: rs).map (·.vaddr)).length),
      d.addrs (t + i) = ((r :: rs).map (·.vaddr))[i] := by
    intro i hi
    rw [List.getElem_map]
    exact h.addrs i (by rwa [List.length_map] at hi)
  have hzero : d.lines - t = 0 → d.memory item.index = -1 := by
    intro hzero
    rw [List.length_cons] at hlines_ge
    omega
  obtain ⟨v, hv, hcases⟩ := nextReference_eq haddrs (by rw [List.length_map]; omega)
    (by rw [List.length_map]; omega) hzero
  obtain ⟨hidx, hmem⟩ := idxOf_pages hrs haligned hq
  refine ⟨_, { cur with index := frame }, v, ?_, htail { d with
    pre := some { cur with index := frame }, cur := items,
    memory := Function.update d.memory item.index v } rfl rfl rfl, rfl, rfl, haddr, rfl, ?_⟩
  · unfold optRef
    rw [hcur]
    simp only [hpte, hpre, htime, hv]
  · rw [hidx, hmem] at hcases
    exact hcases

/-- The first reference has none before it. -/
theorem optRef_first (coremap : ℕ → Frame) {d : OptData} (h : Describes t (r :: rs) d)
    (hpre : d.pre = none) (frame : ℕ) :
    ∃ d' item', optRef coremap frame d = some d' ∧ Describes (t + 1) rs d' ∧
      d'.pre = some item' ∧ item'.index = frame ∧ item'.addr = r.vaddr ∧ d'.memory = d.memory := by
  obtain ⟨cur, items, hcur, -, haddr, htail⟩ := h.tail
  refine ⟨_, { cur with index := frame }, ?_, htail { d with
    pre := some { cur with index := frame }, cur := items } rfl rfl rfl, rfl, rfl, haddr, rfl⟩
  unfold optRef
  rw [hcur]
  cases (coremap frame).pte with
  | none => rfl
  | some _ => simp only [hpre]

/-! ## One reference -/

theorem optScan_lt {coremap : ℕ → Frame} {memory : ℕ → ℤ} (ks : List ℕ) (loop : ℕ × ℤ × Bool)
    (hks : ∀ k ∈ ks, k < memsize) (hloop : loop.1 < memsize) :
    (ks.foldl (optScan coremap memory) loop).1 < memsize := by
  induction ks generalizing loop with
  | nil => exact hloop
  | cons k ks ih =>
    refine ih _ (fun k' hk' => hks k' (List.mem_cons_of_mem k hk')) ?_
    have hk := hks k List.mem_cons_self
    obtain ⟨evict, max, found⟩ := loop
    dsimp only [optScan]
    split
    · exact hloop
    split
    · exact hk
    split
    · exact hk
    · exact hloop

theorem optEvict_lt {coremap : ℕ → Frame} {d d' : OptData} {e : ℕ} (hpos : 1 ≤ memsize)
    (h : optEvict memsize coremap d = some (e, d')) : e < memsize := by
  obtain ⟨rfl, -⟩ := Prod.mk.inj (Option.some.inj h)
  exact optScan_lt _ _ (fun k hk => List.mem_range.1 hk) hpos

/-- In use, a frame has a page. -/
theorem pte_isSome {a : Pager} (hinv : a.Inv memsize)
    (hall : ∀ i < memsize, (a.coremap i).inUse = true) :
    ∀ k < memsize, (a.coremap k).pte.isSome = true := by
  intro k hk
  obtain ⟨-, q, hq, -⟩ := hinv.owned k (hall k hk)
  rw [hq]
  rfl

/-- What `opt_ref` does for the page of `p` in `frame`. -/
theorem Timeline.ref {coremap : ℕ → Frame} (h : Timeline memsize t (r :: rs) past s)
    (hrs : ∀ r' ∈ r :: rs, Aligned r'.vaddr) (hp : entryOf r.vaddr = some p)
    (hpte : (coremap frame).pte = some p) :
    ∃ d' item', optRef coremap frame s.policy = some d' ∧ Describes (t + 1) rs d' ∧
      d'.pre = some item' ∧ item'.index = frame ∧ item'.addr = r.vaddr ∧
      (∀ k, -1 ≤ d'.memory k) ∧
      ∀ q, q ≠ p → (s.pager.page q).valid = true →
        Recorded (d'.memory (s.pager.page q).frame) (t + 1) rs q := by
  cases past with
  | nil =>
    obtain ⟨d', item', href, hd', hitem', hindex', haddr', hmemory⟩ :=
      optRef_first coremap h.describes (h.pre_none rfl) frame
    refine ⟨d', item', href, hd', hitem', hindex', haddr', ?_, fun q _ hq => ?_⟩
    · rw [hmemory]
      exact h.memory_ge
    · exact absurd (h.tracked.known q hq) List.not_mem_nil
  | cons q₀ past =>
    obtain ⟨item, hitem, hindex, haligned, hq₀⟩ := h.pre q₀ rfl
    obtain ⟨d', item', v, href, hd', hitem', hindex', haddr', hmemory, hv⟩ :=
      optRef_eq h.describes hrs hpte hitem haligned hq₀
    refine ⟨d', item', href, hd', hitem', hindex', haddr', fun k => ?_, fun q hqp hq => ?_⟩
    · rw [hmemory]
      by_cases hk : k = item.index
      · subst hk
        rw [Function.update_self]
        obtain hv | ⟨hv, -⟩ := hv
        · rw [hv]
          omega
        · rw [hv]
      · rw [Function.update_of_ne hk]
        exact h.memory_ge k
    · rw [hmemory, hindex]
      by_cases hqq : q = q₀
      · subst hqq
        rw [Function.update_self]
        exact hv.succ hp hqp
      · have hne : (s.pager.page q).frame ≠ (s.pager.page q₀).frame := fun heq =>
          hqq (h.tracked.inv.frame_inj hq (h.tracked.newest q₀ rfl) heq)
        rw [Function.update_of_ne hne]
        refine (h.memory q hq fun hhead => hqq ?_).succ hp hqp
        exact (Option.some.inj hhead).symm

/-- **Every reference of the trace succeeds**, and the timeline moves on. -/
theorem Timeline.step (h : Timeline memsize t (r :: rs) past s) (hmem : memsize ≤ 2 ^ 19)
    (hpos : 1 ≤ memsize) (hrs : ∀ r' ∈ r :: rs, Aligned r'.vaddr) (hp : entryOf r.vaddr = some p) :
    ∃ ok s' a₁ frame x₁, accessMem (opt memsize) memsize r.io r.type r.vaddr s = some (ok, s') ∧
      (optData memsize).Placed memsize r.io.pageout p r.vaddr (decide (Writes r.type)) s.pager
        s.policy a₁ frame x₁ ∧
      s'.pager = a₁.bump p (decide (Writes r.type)) ∧
      Timeline memsize (t + 1) rs (p :: past) s' := by
  have hlt : ∀ frame x, (optData memsize).evict s.coremap s.policy = some (frame, x) →
      frame < memsize := fun _ _ hev => optEvict_lt hpos hev
  obtain ⟨a₁, frame, x₁, hplaced⟩ : ∃ a₁ frame x₁, (optData memsize).Placed memsize r.io.pageout p
      r.vaddr (decide (Writes r.type)) s.pager s.policy a₁ frame x₁ := by
    refine placed h.tracked.inv h.tracked.packed fun _ hall => ?_
    obtain ⟨e, hev, he⟩ := optEvict_firstLatest hpos (pte_isSome h.tracked.inv hall) h.memory_ge
    exact ⟨e, s.policy, hev, he.lt⟩
  -- `opt_evict` changes nothing
  have hx₁ : x₁ = s.policy := by
    cases hplaced with
    | hit _ => rfl
    | free _ _ => rfl
    | evict _ _ hev _ _ => exact (Prod.mk.inj (Option.some.inj hev)).2.symm
  have hacc := accessMem_placed hmem hlt hp hplaced
  have htracked := (h.tracked.refer (hplaced.refer hlt)).bump p (decide (Writes r.type))
  have hpte : (a₁.coremap frame).pte = some p := by
    rw [hplaced.coremap h.tracked.inv, Function.update_self]
  obtain ⟨d', item', href, hdescribes, hitem', hindex', haddr', hmemory_ge, hmemory⟩ :=
    h.ref hrs hp hpte
  rw [show (optData memsize).ref a₁.coremap frame x₁ = some d' by rw [hx₁]; exact href,
    Option.map_some] at hacc
  obtain ⟨⟨ok, s'⟩, hs', hboth⟩ := Option.map_eq_some_iff.1 hacc
  obtain ⟨hpager, hpol⟩ := Prod.mk.inj hboth
  have hpolicy : s'.policy = d' := hpol
  have hpage : ∀ q, s'.pager.page q = a₁.page q := by
    intro q
    rw [show s'.pager = _ from hpager, bump_page]
  refine ⟨ok, s', a₁, frame, x₁, hs', hplaced, hpager, ?_, ?_, ?_, fun q hq hhead => ?_,
    fun hnil => ?_, fun q hq => ?_⟩
  · rw [show s'.pager = _ from hpager]
    exact htracked
  · rw [hpolicy]
    exact hdescribes
  · rw [hpolicy]
    exact hmemory_ge
  · have hqp : q ≠ p := fun heq => hhead (congrArg some heq.symm)
    rw [hpage] at hq ⊢
    obtain ⟨hq', hframe⟩ := hplaced.other hqp hq
    rw [hframe, hpolicy]
    exact hmemory q hqp hq'
  · cases hnil
  · obtain rfl := Option.some.inj hq
    refine ⟨item', by rw [hpolicy, hitem'], ?_, ?_, ?_⟩
    · rw [hpage, hplaced.frame_eq, hindex']
    · rw [haddr']
      exact hrs r List.mem_cons_self
    · rw [haddr']
      exact hp

/-! ## Evictions -/

/-- All frames are in use, and the page of `p` is in none. -/
def Full (memsize : ℕ) (p : Ptr) (a : Pager) : Prop :=
  (a.page p).valid = false ∧ ∀ i < memsize, (a.coremap i).inUse = true

/-- No page in a frame is used later than that of `v`, by the references to come. A page that is not
used again comes last of all. -/
def UsedLast (memsize : ℕ) (coremap : ℕ → Frame) (fut : List Ptr) (v : Ptr) : Prop :=
  ∀ f < memsize, ∀ q ∈ (coremap f).pte, fut.idxOf q ≤ fut.idxOf v

/-- If the reference evicts a page, it is one that is used last. -/
def FarthestVictim (memsize : ℕ) (s : Sim OptData) (r : Reference) (rs : List Reference) : Prop :=
  ∀ p ∈ entryOf r.vaddr, Full memsize p s.pager →
    ∃ e d v, optEvict memsize s.coremap s.policy = some (e, d) ∧ e < memsize ∧
      (s.coremap e).pte = some v ∧ UsedLast memsize s.coremap (pages rs) v

/-- The stale entry `index`, of the frame of the newest page, does no harm. Where it is the first of
the latest entries, the newest page is used last; where it is not, some other page is used no
earlier than the newest. -/
def Harmless (memsize index : ℕ) (newest : Ptr) (s : Sim OptData) (fut : List Ptr) : Prop :=
  if FirstLatest s.policy.memory memsize index then UsedLast memsize s.coremap fut newest
  else ∃ f < memsize, f ≠ index ∧ ∃ q ∈ (s.coremap f).pte, fut.idxOf newest ≤ fut.idxOf q

/-- If the reference evicts a page, the stale entry does no harm. -/
def StaleHarmless (memsize : ℕ) (s : Sim OptData) (r : Reference) (rs : List Reference) : Prop :=
  ∀ p ∈ entryOf r.vaddr, Full memsize p s.pager →
    ∀ item ∈ s.policy.pre, ∀ newest ∈ (s.coremap item.index).pte,
      Harmless memsize item.index newest s (pages rs)

instance (memsize : ℕ) (p : Ptr) (a : Pager) : Decidable (Full memsize p a) := by
  unfold Full; infer_instance

-- not by going through all pages
instance (memsize : ℕ) (coremap : ℕ → Frame) (fut : List Ptr) (v : Ptr) :
    Decidable (UsedLast memsize coremap fut v) :=
  have : ∀ f, Decidable (∀ q ∈ (coremap f).pte, fut.idxOf q ≤ fut.idxOf v) :=
    fun _ => Option.decidableForallMem _
  inferInstanceAs (Decidable (∀ f < memsize, ∀ q ∈ (coremap f).pte, fut.idxOf q ≤ fut.idxOf v))

instance (memsize index : ℕ) (newest : Ptr) (s : Sim OptData) (fut : List Ptr) :
    Decidable (Harmless memsize index newest s fut) :=
  have : ∀ f, Decidable (∃ q ∈ (s.coremap f).pte, fut.idxOf newest ≤ fut.idxOf q) :=
    fun _ => Option.decidableExistsMem _
  inferInstanceAs (Decidable (if FirstLatest s.policy.memory memsize index then
      UsedLast memsize s.coremap fut newest
    else ∃ f < memsize, f ≠ index ∧ ∃ q ∈ (s.coremap f).pte, fut.idxOf newest ≤ fut.idxOf q))

instance (memsize : ℕ) (s : Sim OptData) (r : Reference) (rs : List Reference) :
    Decidable (StaleHarmless memsize s r rs) :=
  have : ∀ item : TraceItem, Decidable (∀ newest ∈ (s.coremap item.index).pte,
      Harmless memsize item.index newest s (pages rs)) := fun _ => Option.decidableForallMem _
  Option.decidableForallMem (p := fun p => Full memsize p s.pager → ∀ item ∈ s.policy.pre,
    ∀ newest ∈ (s.coremap item.index).pte, Harmless memsize item.index newest s (pages rs)) _

/-- Later entries are of pages used later. -/
theorem Recorded.le {m m' : ℤ} {q q' : Ptr} (h : Recorded m t rs q) (h' : Recorded m' t rs q')
    (hnot : ¬ Later m' m) : (pages rs).idxOf q' ≤ (pages rs).idxOf q := by
  by_cases hm : m = -1
  · obtain hm' | ⟨-, hq⟩ := h
    · omega
    · rw [List.idxOf_of_notMem hq]
      exact List.idxOf_le_length
  · have hm' : ¬ (m' = -1 ∨ m < m') := fun hor => hnot ⟨hm, hor⟩
    obtain ⟨hne, hle⟩ := not_or.1 hm'
    obtain heq | ⟨heq, -⟩ := h
    · obtain heq' | ⟨heq', -⟩ := h'
      · omega
      · exact absurd heq' hne
    · exact absurd heq hm

/-- With all frames in use the pages in frames are the pages in memory. -/
theorem usedLast_iff {a : Pager} (hinv : a.Inv memsize)
    (hall : ∀ i < memsize, (a.coremap i).inUse = true) {fut : List Ptr} {v : Ptr} :
    UsedLast memsize a.coremap fut v ↔
      ∀ q, (a.page q).valid = true → fut.idxOf q ≤ fut.idxOf v := by
  constructor
  · intro h q hq
    exact h _ (hinv.frame_lt hq) q (congrArg Frame.pte (hinv.resident q hq))
  · intro h f hf q hq
    obtain ⟨-, w, hw, hwv, -⟩ := hinv.owned f (hall f hf)
    obtain rfl := Option.some.inj (hw.symm.trans hq)
    exact h w hwv

/-- **The victim is the farthest just if the stale entry does no harm.** -/
theorem Timeline.farthest_iff (h : Timeline memsize t (r :: rs) past s) (hpos : 1 ≤ memsize) :
    FarthestVictim memsize s r rs ↔ StaleHarmless memsize s r rs := by
  refine forall_congr' fun p => forall_congr' fun hp => forall_congr' fun hfull => ?_
  obtain ⟨hinvalid, hall⟩ := hfull
  have hinv := h.tracked.inv
  -- there is a newest page
  obtain ⟨-, q, -, hq, -⟩ := hinv.owned 0 (hall 0 hpos)
  obtain ⟨newest, past, rfl⟩ := List.exists_cons_of_ne_nil
    (List.ne_nil_of_mem (h.tracked.known q hq))
  have hnewest := h.tracked.newest newest rfl
  obtain ⟨item, hitem, hindex, -, -⟩ := h.pre newest rfl
  have hcore := hinv.resident newest hnewest
  -- all entries but its are right
  have hright : ∀ q, (s.pager.page q).valid = true → q ≠ newest →
      Recorded (s.policy.memory (s.pager.page q).frame) (t + 1) rs q := by
    intro q hq hne
    have hqp : q ≠ p := by
      rintro rfl
      exact absurd (hinvalid.symm.trans hq) Bool.false_ne_true
    refine (h.memory q hq fun hhead => hne ?_).succ hp hqp
    exact (Option.some.inj hhead).symm
  obtain ⟨e, hev, he⟩ := optEvict_firstLatest hpos (pte_isSome hinv hall) h.memory_ge
  obtain ⟨-, v, hv, hvalid, hframe⟩ := hinv.owned e (hall e he.lt)
  have hvictim : (∃ e' d v', optEvict memsize s.coremap s.policy = some (e', d) ∧ e' < memsize ∧
      (s.coremap e').pte = some v' ∧ UsedLast memsize s.coremap (pages rs) v') ↔
      UsedLast memsize s.coremap (pages rs) v := by
    constructor
    · rintro ⟨e', d, v', hev', -, hv', hfar⟩
      obtain ⟨rfl, -⟩ := Prod.mk.inj (Option.some.inj (hev.symm.trans hev'))
      rwa [Option.some.inj (hv'.symm.trans hv)] at hfar
    · intro hfar
      exact ⟨e, _, v, hev, he.lt, hv, hfar⟩
  have hpte : (s.coremap item.index).pte = some newest := by
    rw [hindex]
    exact congrArg Frame.pte hcore
  have hstale : (∀ item' ∈ s.policy.pre, ∀ newest' ∈ (s.coremap item'.index).pte,
      Harmless memsize item'.index newest' s (pages rs)) ↔
      Harmless memsize item.index newest s (pages rs) := by
    constructor
    · exact fun hall => hall item hitem newest hpte
    · intro hstale item' hitem' newest' hpte'
      obtain rfl := Option.some.inj (hitem.symm.trans hitem')
      obtain rfl := Option.some.inj (hpte.symm.trans hpte')
      exact hstale
  rw [hvictim, hstale, Harmless, hindex]
  by_cases hvn : v = newest
  · -- the stale entry wins
    subst hvn
    rw [if_pos (by rw [hframe]; exact he)]
  · have hlose : ¬ FirstLatest s.policy.memory memsize (s.pager.page newest).frame := by
      intro hwins
      rw [he.unique hwins] at hframe
      exact hvn (hinv.frame_inj hvalid hnewest hframe)
    rw [if_neg hlose, show s.coremap = s.pager.coremap from rfl, usedLast_iff hinv hall]
    have hothers : ∀ q, (s.pager.page q).valid = true → q ≠ newest →
        (pages rs).idxOf q ≤ (pages rs).idxOf v := by
      intro q hq hne
      refine (hright v hvalid hvn).le (hright q hq hne) ?_
      rw [hframe]
      exact he.latest _ (hinv.frame_lt hq)
    constructor
    · intro hfar
      refine ⟨e, he.lt, fun heq => hvn ?_, v, hv, hfar newest hnewest⟩
      exact hinv.frame_inj hvalid hnewest (hframe.trans heq)
    · rintro ⟨f, hf, hfne, q, hq, hle⟩ q' hq'
      obtain ⟨-, w, hw, hwv, hwf⟩ := hinv.owned f (hall f hf)
      obtain rfl := Option.some.inj (hw.symm.trans hq)
      have hne : w ≠ newest := by
        rintro rfl
        exact hfne hwf.symm
      by_cases hqn : q' = newest
      · rw [hqn]
        exact hle.trans (hothers w hwv hne)
      · exact hothers q' hq' hqn

/-! ## Traces -/

/-- `P` holds before each reference that is replayed, of the state, the reference and the ones to
come. -/
def Along {σ : Type*} (pol : Policy σ) (memsize : ℕ)
    (P : Sim σ → Reference → List Reference → Prop) : List Reference → Sim σ → Prop
  | [], _ => True
  | r :: rs, s => P s r rs ∧
    match accessMem pol memsize r.io r.type r.vaddr s with
    | none => True
    | some (_, s') => Along pol memsize P rs s'

instance decidableAlong {σ : Type*} (pol : Policy σ) (memsize : ℕ)
    (P : Sim σ → Reference → List Reference → Prop) [∀ s r rs, Decidable (P s r rs)] :
    ∀ rs s, Decidable (Along pol memsize P rs s)
  | [], _ => .isTrue trivial
  | r :: rs, s =>
    have : Decidable (match accessMem pol memsize r.io r.type r.vaddr s with
        | none => True
        | some (_, s') => Along pol memsize P rs s') :=
      match accessMem pol memsize r.io r.type r.vaddr s with
      | none => .isTrue trivial
      | some (_, s') => decidableAlong pol memsize P rs s'
    inferInstanceAs (Decidable (_ ∧ _))

/-- Every victim is used last, and no policy that replays the same addresses to the end counts fewer
misses. -/
structure BeladyMin (memsize : ℕ) (rs : List Reference) (s₀ : Sim OptData) : Prop where
  farthest : Along (opt memsize) memsize (FarthestVictim memsize) rs s₀
  least : ∃ s, replay (opt memsize) memsize rs s₀ = some s ∧
    ∀ (τ : Type) (pol : Policy τ), pol.Ok memsize →
      ∀ swapsize physmem file policy t₀ t rs', rs'.map (·.vaddr) = rs.map (·.vaddr) →
        start swapsize physmem file policy = some t₀ → replay pol memsize rs' t₀ = some t →
        s.counters.miss.toNat ≤ t.counters.miss.toNat

theorem Timeline.along_iff (h : Timeline memsize t rs past s) (hmem : memsize ≤ 2 ^ 19)
    (hpos : 1 ≤ memsize) (hrs : ∀ r ∈ rs, Aligned r.vaddr) :
    Along (opt memsize) memsize (FarthestVictim memsize) rs s ↔
      Along (opt memsize) memsize (StaleHarmless memsize) rs s := by
  induction rs generalizing t past s with
  | nil => exact Iff.rfl
  | cons r rs ih =>
    obtain ⟨p, hp⟩ := (hrs r List.mem_cons_self).entry
    obtain ⟨ok, s', -, -, -, hacc, -, -, hnext⟩ := h.step hmem hpos hrs hp
    unfold Along
    rw [hacc]
    exact and_congr (h.farthest_iff hpos) (ih hnext fun r hr => hrs r (List.mem_cons_of_mem _ hr))

/-- The same index for both ways to compare pages. -/
theorem idxOf_ptr (q : Ptr) (l : List Ptr) :
    @List.idxOf Ptr instBEqOfDecidableEq q l = l.idxOf q := by
  rw [lawful_beq_subsingleton instBEqOfDecidableEq instBEqProd]

/-- **With every victim used last, opt serves the trace as Belady's algorithm does.** -/
theorem Timeline.serves (h : Timeline memsize t rs past s) (hmem : memsize ≤ 2 ^ 19)
    (hpos : 1 ≤ memsize) (hrs : ∀ r ∈ rs, Aligned r.vaddr)
    (hfar : Along (opt memsize) memsize (FarthestVictim memsize) rs s) :
    ∃ s' m, replay (opt memsize) memsize rs s = some s' ∧ m ≤ rs.length ∧
      Serves memsize Farthest (resident s.pager) (pages rs) m ∧
      s'.counters.miss = s.counters.miss + BitVec.ofNat 32 m := by
  induction rs generalizing t past s with
  | nil => exact ⟨s, 0, rfl, le_rfl, .nil, (BitVec.add_zero _).symm⟩
  | cons r rs ih =>
    obtain ⟨p, hp⟩ := (hrs r List.mem_cons_self).entry
    obtain ⟨ok, s₁, a₁, frame, x₁, hacc, hplaced, hpager, hnext⟩ := h.step hmem hpos hrs hp
    unfold Along at hfar
    rw [hacc] at hfar
    obtain ⟨hvictim, hrest⟩ := hfar
    obtain ⟨s', m, hs', hm, hserves, hmiss⟩ :=
      ih hnext (fun r hr => hrs r (List.mem_cons_of_mem _ hr)) hrest
    have hinv := h.tracked.inv
    have href := hplaced.refer fun _ _ hev => optEvict_lt hpos hev
    have hcount : s₁.counters.miss = a₁.counters.miss := by
      show s₁.pager.counters.miss = _
      rw [hpager, bump_counters]
    rw [hpager, bump_resident] at hserves
    -- the page that goes is the victim
    have hQ : ∀ v ∈ resident s.pager, p ∉ resident s.pager → (resident s.pager).card = memsize →
        (s.pager.page v).frame = (a₁.page p).frame →
        Farthest (resident s.pager) (pages rs) v := by
      intro v hv hnot hcard hframe
      rw [hplaced.frame_eq] at hframe
      have hinvalid : (s.pager.page p).valid = false := by
        rw [mem_resident] at hnot
        exact Bool.eq_false_iff.2 hnot
      cases hplaced with
      | hit hp => exact absurd (hinvalid.symm.trans hp) Bool.false_ne_true
      | free _ hfree =>
        have hlt := List.mem_range.1 (List.mem_of_find?_eq_some hfree)
        have hunused := List.find?_some hfree
        rw [Bool.not_eq_true'] at hunused
        have hless := framesInUse_lt hlt hunused
        rw [← card_resident hinv, hcard] at hless
        exact absurd hless (lt_irrefl _)
      | evict _ hall hev _ _ =>
        obtain ⟨e, d, v', hev', he, hv', hlast⟩ := hvictim p hp ⟨hinvalid, hall⟩
        obtain ⟨rfl, -⟩ := Prod.mk.inj (Option.some.inj (hev'.symm.trans hev))
        obtain ⟨-, w, hw, hwv, hwf⟩ := hinv.owned e (hall e he)
        obtain rfl := Option.some.inj (hv'.symm.trans hw)
        obtain rfl := hinv.frame_inj (mem_resident.1 hv) hwv (hframe.trans hwf.symm)
        intro q hq
        rw [idxOf_ptr, idxOf_ptr]
        exact (usedLast_iff hinv hall).1 hlast q (mem_resident.1 hq)
    obtain ⟨m', hm', hserves', hmiss'⟩ := href.serves hinv hQ hserves
    refine ⟨s', m', ?_, hm'.trans (Nat.succ_le_succ hm), ?_, ?_⟩
    · unfold replay
      rw [hacc]
      exact hs'
    · rw [pages_cons hp]
      exact hserves'
    · rw [hmiss, hcount]
      exact hmiss'

theorem start_resident {σ : Type*} {swapsize : BitVec 32} {physmem file : Bytes.Mem} {policy : σ}
    {s₀ : Sim σ} (hs₀ : start swapsize physmem file policy = some s₀) :
    resident s₀.pager = ∅ ∧ s₀.counters.miss = 0 := by
  obtain ⟨hpage, -, hcounters⟩ := start_pager hs₀
  refine ⟨Finset.eq_empty_of_forall_notMem fun q hq => ?_, congrArg Counters.miss hcounters⟩
  rw [mem_resident, hpage] at hq
  exact absurd hq (by decide)

theorem pages_congr {rs rs' : List Reference} (h : rs'.map (·.vaddr) = rs.map (·.vaddr)) :
    pages rs' = pages rs := by
  have hmap : ∀ l : List Reference, pages l = (l.map (·.vaddr)).filterMap entryOf := by
    intro l
    rw [List.filterMap_map]
    rfl
  rw [hmap, hmap, h]

theorem start_timeline {swapsize : BitVec 32} {physmem file : Bytes.Mem} {d : OptData}
    {s₀ : Sim OptData} (hd : OptInit rs d) (hs₀ : start swapsize physmem file d = some s₀) :
    Timeline memsize 0 rs [] s₀ := by
  have htracked : Tracked memsize [] s₀.pager := start_tracked hs₀
  obtain ⟨swap, -, rfl⟩ := Option.map_eq_some_iff.1 hs₀
  refine ⟨htracked, hd.describes, fun k => ?_, fun q hq _ => ?_, fun _ => hd.pre, fun q hq => ?_⟩
  · show -1 ≤ d.memory k
    rw [hd.memory]
  · exact absurd (htracked.known q hq) List.not_mem_nil
  · cases hq

/-- **Opt is Belady's algorithm just on the traces where no stale entry does harm.** -/
theorem opt_iff (hpos : 1 ≤ memsize) (hmem : memsize ≤ 2 ^ 19) {swapsize : BitVec 32}
    {physmem file : Bytes.Mem} {d : OptData} {s₀ : Sim OptData}
    (hs₀ : start swapsize physmem file d = some s₀) (hd : OptInit rs d)
    (hrs : ∀ r ∈ rs, Aligned r.vaddr) (hlen : rs.length + 1 < 2 ^ 31) :
    BeladyMin memsize rs s₀ ↔ Along (opt memsize) memsize (StaleHarmless memsize) rs s₀ := by
  have htimeline : Timeline memsize 0 rs [] s₀ := start_timeline hd hs₀
  rw [← htimeline.along_iff hmem hpos hrs]
  refine ⟨BeladyMin.farthest, fun hfar => ⟨hfar, ?_⟩⟩
  obtain ⟨s, m, hs, hm, hserves, hmiss⟩ := htimeline.serves hmem hpos hrs hfar
  refine ⟨s, hs, fun τ pol hok swapsize' physmem' file' policy t₀ t rs' hsame ht₀ ht => ?_⟩
  obtain ⟨m', hm', hserves', hmiss'⟩ := replay_serves hok hmem (inv_start ht₀) ht
  obtain ⟨hres, hzero⟩ := start_resident hs₀
  obtain ⟨hres', hzero'⟩ := start_resident ht₀
  have hlen' : rs'.length = rs.length := by
    have h := congrArg List.length hsame
    rwa [List.length_map, List.length_map] at h
  rw [hres] at hserves
  rw [hres', pages_congr hsame] at hserves'
  have hle := farthest_least hserves hserves'
  rw [hmiss, hmiss', hzero, hzero', zero_add, zero_add, BitVec.toNat_ofNat,
    BitVec.toNat_ofNat, Nat.mod_eq_of_lt (by omega), Nat.mod_eq_of_lt (by omega)]
  exact hle

/-! ## Two traces -/

/-- The list and the table of a trace. -/
def describe (rs : List Reference) : OptData where
  pre := none
  cur := rs.zipIdx.map fun r => ⟨0, r.2, r.1.vaddr⟩
  lines := rs.length + 1
  addrs i := (rs[i]?.map (·.vaddr)).getD 0
  memory _ := -1

theorem describe_init (rs : List Reference) : OptInit rs (describe rs) := by
  refine ⟨⟨fun i hi => ⟨⟨0, i, rs[i].vaddr⟩, ?_, ?_, rfl⟩, fun i hi => ?_, ?_, ?_⟩, rfl,
    fun _ => rfl⟩
  · simp [describe, hi]
  · exact (Nat.zero_add i).symm
  · simp [describe, hi]
  · simp [describe]
  · simp [describe]

/-- A load of page `n`. -/
def exRead (n : ℕ) : Reference := ⟨'L', BitVec.ofNat 64 (n * 4096), Io.whole⟩

/-- Two frames and three pages, none of which is used again. -/
theorem opt_iff_three : BeladyMin 2 [exRead 0, exRead 1, exRead 2]
    (exStart (describe [exRead 0, exRead 1, exRead 2])) :=
  (opt_iff (by decide) (by decide) (exStart_start _) (describe_init _) (by decide) (by decide)).2
    (by decide +kernel)

/-- **The newest page looks as if it were not used again.** Serving page 2, opt takes the frame of
page 1, which comes next, and then has five misses where fifo has four. -/
theorem opt_beaten : ¬ BeladyMin 2 [exRead 0, exRead 1, exRead 2, exRead 1, exRead 0]
    (exStart (describe [exRead 0, exRead 1, exRead 2, exRead 1, exRead 0])) := by
  rintro ⟨-, s, hs, hleast⟩
  have hopt : (replay (opt 2) 2 [exRead 0, exRead 1, exRead 2, exRead 1, exRead 0] (exStart
      (describe [exRead 0, exRead 1, exRead 2, exRead 1, exRead 0]))).map (·.counters.miss) =
        some 5 := by decide
  have hfifo : (replay (fifo 2) 2 [exRead 0, exRead 1, exRead 2, exRead 1, exRead 0]
      (exStart 0)).map (·.counters.miss) = some 4 := by decide
  obtain ⟨t, ht, hmiss⟩ := Option.map_eq_some_iff.1 hfifo
  have hle := hleast (Fin 2) (fifo 2) (fifo_ok 2) 4 _ _ 0 _ t _ rfl (exStart_start 0) ht
  have hmiss' : s.counters.miss = 5 := by
    rw [hs] at hopt
    exact Option.some.inj hopt
  rw [hmiss, hmiss'] at hle
  exact absurd hle (by decide)

end Cscc69.Paging
