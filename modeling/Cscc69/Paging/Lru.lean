import Cscc69.Lib.DList
import Cscc69.Paging.Demand
import Mathlib.Data.Finset.Lattice.Fold
import Mathlib.Data.List.Chain
import Mathlib.Data.List.TakeWhile
import Mathlib.Order.Lattice.Nat

/-!
# The lru policy

The policy keeps a doubly linked list of the frames in use, the most recently used first. A hit
unlinks and frees the frame's node and puts a new one in front, and an eviction frees the last
node.

Neither function looks after `coremap->head`. When `lru_ref` unlinks the first node, and when
`lru_evict` frees the only one, `coremap->head` still points to it, and what `lru_ref` does next
reads or writes a freed cell, or makes a node that `malloc` got the same cell for point to itself.
The first happens when a page is referenced twice in a row, the second when there is one frame and
a second page. `lru_iff` says that the policy is a correct LRU on just the traces where neither
happens. `LruData.Lists` is the invariant: the list holds these frames, in this order.
-/

namespace Cscc69.Paging

open DList Pager

/-! ## The two functions -/

/-- `coremap->head`, and the nodes. -/
structure LruData where
  head : Option ℕ
  heap : Heap ℕ

/-- Evict the frame of the last node. Each walk takes at most `fuel` steps. -/
def lruEvict (fuel : ℕ) (d : LruData) : Option (ℕ × LruData) := do
  let head ← d.head
  let last ← d.heap.last fuel head
  let node ← d.heap.read last
  let heap ← d.heap.dropLast last
  some (node.data, { d with heap := heap })

/-- Move the node of `frame` to the front, or make one. -/
def lruRef (malloc : Malloc ℕ) (fuel : ℕ) (frame : ℕ) (d : LruData) : Option LruData := do
  let old ← d.heap.find (· = frame) fuel d.head
  let heap ←
    match old with
    | none => some d.heap
    | some old => d.heap.unlink old
  let (n, heap) ← heap.pushFront malloc d.head frame
  some ⟨some n, heap⟩

def lruData (malloc : Malloc ℕ) (fuel : ℕ) : DataPolicy LruData where
  evict _ d := lruEvict fuel d
  ref _ frame d := lruRef malloc fuel frame d

def lru (malloc : Malloc ℕ) (fuel : ℕ) : Policy LruData := (lruData malloc fuel).policy

/-- `lru_init` -/
def lruInit (heap : Heap ℕ) : LruData := ⟨none, heap⟩

/-! ## What they do to the list -/

/-- The nodes from `coremap->head` on hold these frames. -/
def LruData.Lists (d : LruData) (frames : List ℕ) : Prop :=
  ∃ cells, d.heap.IsList d.head cells ∧ cells.map (fun c => (d.heap.cell c).data) = frames

variable {malloc : Malloc ℕ} {fuel frame : ℕ} {d d' : LruData} {frames : List ℕ}

theorem lists_init (heap : Heap ℕ) : (lruInit heap).Lists [] :=
  ⟨[], ⟨rfl, List.nodup_nil, trivial⟩, rfl⟩

/-- A new first node. -/
theorem pushFront_lists (malloc : Malloc ℕ) (hl : d.Lists frames) (frame : ℕ) :
    ∃ n heap, d.heap.pushFront malloc d.head frame = some (n, heap) ∧
      LruData.Lists ⟨some n, heap⟩ (frame :: frames) := by
  obtain ⟨cells, hlist, rfl⟩ := hl
  obtain ⟨n, heap, hpush, hlist', -, hn, hdata⟩ := Heap.pushFront_spec frame hlist
  refine ⟨n, heap, hpush, n :: cells, hlist', ?_⟩
  rw [List.map_cons, hn]
  exact congrArg _ (List.map_congr_left hdata)

/-- The node of a frame, if there is one, and the nodes around it. -/
theorem find_lists {cells : List ℕ} (hlist : d.heap.IsList d.head cells)
    (hf : cells.length ≤ fuel) (frame : ℕ) :
    (frame ∉ cells.map (fun c => (d.heap.cell c).data) ∧
      d.heap.find (· = frame) fuel d.head = some none) ∨
    ∃ as b bs, cells = as ++ b :: bs ∧ (d.heap.cell b).data = frame ∧
      frame ∉ as.map (fun c => (d.heap.cell c).data) ∧
      d.heap.find (· = frame) fuel d.head = some (some b) := by
  have hfind := Heap.find_spec (fun x => decide (x = frame)) hlist.seg hf
  rw [← hlist.head_eq] at hfind
  cases hc : cells.find? fun a => decide ((d.heap.cell a).data = frame) with
  | none =>
    rw [hc] at hfind
    refine .inl ⟨fun hmem => ?_, hfind⟩
    obtain ⟨c, hcells, hdata⟩ := List.mem_map.1 hmem
    exact List.find?_eq_none.1 hc c hcells (by simpa using hdata)
  | some b =>
    rw [hc] at hfind
    obtain ⟨hb, as, bs, rfl, has⟩ := List.find?_eq_some_iff_append.1 hc
    refine .inr ⟨as, b, bs, rfl, by simpa using hb, fun hmem => ?_, hfind⟩
    obtain ⟨c, hcells, hdata⟩ := List.mem_map.1 hmem
    simpa [hdata] using has c hcells

/-- **`lru_ref` moves the frame to the front**, unless it is there already. -/
theorem lruRef_lists (malloc : Malloc ℕ) (hl : d.Lists frames) (hf : frames.length ≤ fuel)
    (hhead : frames.head? ≠ some frame) :
    ∃ d', lruRef malloc fuel frame d = some d' ∧ d'.Lists (frame :: frames.erase frame) := by
  obtain ⟨cells, hlist, rfl⟩ := hl
  rw [List.length_map] at hf
  unfold lruRef
  obtain ⟨hnot, hfind⟩ | ⟨as, b, bs, rfl, hb, has, hfind⟩ := find_lists hlist hf frame
  · obtain ⟨n, heap, hpush, hlists⟩ := pushFront_lists malloc ⟨cells, hlist, rfl⟩ frame
    refine ⟨⟨some n, heap⟩, ?_, ?_⟩
    · simp only [Option.bind_eq_bind, hfind, Option.bind_some, hpush]
    · rw [List.erase_of_not_mem hnot]
      exact hlists
  · obtain ⟨heap, hunlink, hseg, -, hdata⟩ := Heap.unlink_spec hlist.seg hlist.nodup
    -- the node has another before it, so the list still begins at `head`
    have hne : as ≠ [] := by
      rintro rfl
      exact hhead (congrArg some hb)
    obtain ⟨a, as, rfl⟩ := List.exists_cons_of_ne_nil hne
    have hlist' : heap.IsList d.head (a :: as ++ bs) :=
      ⟨hlist.head_eq, hlist.nodup.sublist
        ((List.sublist_cons_self b bs).append_left (a :: as)), hseg⟩
    obtain ⟨n, heap', hpush, hlists⟩ := pushFront_lists malloc
      (d := ⟨d.head, heap⟩) ⟨_, hlist', rfl⟩ frame
    refine ⟨⟨some n, heap'⟩, ?_, ?_⟩
    · simp only [Option.bind_eq_bind, hfind, Option.bind_some, hunlink, hpush]
    · have herase : ((a :: as ++ b :: bs).map fun c => (d.heap.cell c).data).erase frame =
          (a :: as ++ bs).map fun c => (heap.cell c).data := by
        have hnode : (b :: bs).map (fun c => (d.heap.cell c).data) =
            frame :: bs.map fun c => (d.heap.cell c).data := by rw [List.map_cons, hb]
        rw [List.map_append, hnode, List.erase_append_right _ has, List.erase_cons_head,
          ← List.map_append]
        exact (List.map_congr_left fun c _ => hdata c).symm
      rw [herase]
      exact hlists

/-- **`lru_evict` takes the last frame.** It leaves a list if there are others. -/
theorem lruEvict_lists (hl : d.Lists (frames ++ [frame])) (hf : frames.length < fuel) :
    ∃ d', lruEvict fuel d = some (frame, d') ∧ (frames ≠ [] → d'.Lists frames) := by
  obtain ⟨cells, hlist, hmap⟩ := hl
  obtain ⟨as, bs, rfl, rfl, hbs⟩ := List.map_eq_append_iff.1 hmap
  obtain ⟨b, rfl, hb⟩ := List.map_eq_singleton_iff.1 hbs
  rw [List.length_map] at hf
  obtain ⟨heap, hdrop, hseg, -, hdata⟩ := Heap.dropLast_spec hlist.seg hlist.nodup
  have hlive : b ∈ d.heap.live := hlist.seg.live (by simp)
  refine ⟨⟨d.head, heap⟩, ?_, fun hne => ?_⟩
  · obtain ⟨c, cells, hcons⟩ : ∃ c cells, as ++ [b] = c :: cells :=
      List.exists_cons_of_ne_nil (by simp)
    have hhead : d.head = some c := by
      rw [hlist.head_eq, hcons]
      rfl
    have hseg' := hlist.seg
    rw [hcons] at hseg'
    have hlen : cells.length < fuel := by
      have hcount := congrArg List.length hcons
      simp at hcount
      omega
    have hlast : d.heap.last fuel c = some b := by
      rw [Heap.last_spec hseg' hlen, ← hcons]
      simp
    unfold lruEvict
    simp only [Option.bind_eq_bind, hhead, Option.bind_some, hlast, Heap.read_of_mem hlive,
      hdrop, hb]
  · have hne' : as ≠ [] := by
      rintro rfl
      exact hne rfl
    obtain ⟨a, as, rfl⟩ := List.exists_cons_of_ne_nil hne'
    exact ⟨a :: as, ⟨hlist.head_eq, (List.nodup_append'.1 hlist.nodup).1, hseg⟩,
      List.map_congr_left fun c _ => hdata c⟩

/-! ## Where they go wrong -/

/-- **Moving the first node to the front** makes no list: either a freed node is written, or the
new node points to itself. -/
theorem lruRef_first (hl : d.Lists (frame :: frames)) (hf : 0 < fuel)
    (href : lruRef malloc fuel frame d = some d') (frames' : List ℕ) : ¬ d'.Lists frames' := by
  obtain ⟨cells, hlist, hmap⟩ := hl
  obtain ⟨c, cells, rfl, hc, -⟩ := List.map_eq_cons_iff.1 hmap
  obtain ⟨fuel, rfl⟩ := Nat.exists_eq_succ_of_ne_zero (Nat.pos_iff_ne_zero.1 hf)
  have hhead : d.head = some c := hlist.head_eq
  have hlive : c ∈ d.heap.live := hlist.seg.live List.mem_cons_self
  have hcells : d.heap.Seg none ([] ++ c :: cells) none := hlist.seg
  obtain ⟨heap, hunlink, -, hheap, -⟩ := Heap.unlink_spec hcells hlist.nodup
  have hdead : c ∉ heap.live := by
    rw [hheap]
    exact Finset.notMem_erase c _
  have hfind : d.heap.find (· = frame) (fuel + 1) (some c) = some (some c) := by
    rw [Heap.find, Heap.read_of_mem hlive, Option.bind_some, if_pos (by simpa using hc)]
  unfold lruRef at href
  simp only [Option.bind_eq_bind, hhead] at href
  rw [hfind, Option.bind_some] at href
  simp only [hunlink, Option.bind_some] at href
  obtain ⟨⟨n, heap'⟩, hpush, heq⟩ := Option.bind_eq_some_iff.1 href
  obtain rfl := Option.some.inj heq
  rintro ⟨cells', hlist', -⟩
  exact Heap.pushFront_dangling hdead hpush cells' hlist'

/-- **Freeing the only node** makes the next `lru_ref` read it. -/
theorem lruRef_dangling {victim : ℕ} (hl : d.Lists [victim]) (hf : 0 < fuel)
    (hev : lruEvict fuel d = some (victim, d')) : lruRef malloc fuel frame d' = none := by
  obtain ⟨cells, hlist, hmap⟩ := hl
  obtain ⟨c, rfl, hc⟩ := List.map_eq_singleton_iff.1 hmap
  obtain ⟨fuel, rfl⟩ := Nat.exists_eq_succ_of_ne_zero (Nat.pos_iff_ne_zero.1 hf)
  have hhead : d.head = some c := hlist.head_eq
  have hlive : c ∈ d.heap.live := hlist.seg.live List.mem_cons_self
  have hcells : d.heap.Seg none ([] ++ [c]) none := hlist.seg
  obtain ⟨heap, hdrop, -, hheap, -⟩ := Heap.dropLast_spec hcells hlist.nodup
  have hlast : d.heap.last (fuel + 1) c = some c := Heap.last_spec hlist.seg (Nat.succ_pos _)
  unfold lruEvict at hev
  simp only [Option.bind_eq_bind, hhead, Option.bind_some, hlast, Heap.read_of_mem hlive,
    hdrop] at hev
  obtain ⟨-, rfl⟩ := Prod.mk.inj (Option.some.inj hev)
  have hdead : c ∉ heap.live := by
    rw [hheap]
    exact Finset.notMem_erase c _
  unfold lruRef
  simp only [Option.bind_eq_bind, Heap.find, Heap.read_of_notMem hdead, Option.bind_none]

variable {memsize : ℕ} {past : List Ptr} {a a₁ : Pager} {io : Transfer} {p : Ptr}
  {vaddr : BitVec 64} {write : Bool}

/-! ## The order of the list -/

/-- How many references were made since the last one to the page in frame `f`. -/
def age (past : List Ptr) (coremap : ℕ → Frame) (f : ℕ) : ℕ :=
  match (coremap f).pte with
  | some q => past.idxOf q
  | none => past.length

/-- The list holds the frames in use, from the most to the least recently referenced. -/
structure Ordered (memsize : ℕ) (past : List Ptr) (coremap : ℕ → Frame) (d : LruData)
    (frames : List ℕ) : Prop where
  lists : d.Lists frames
  mem_iff : ∀ f, f ∈ frames ↔ f < memsize ∧ (coremap f).inUse = true
  sorted : frames.Pairwise fun f g => age past coremap f < age past coremap g

theorem age_of_pte {coremap : ℕ → Frame} {f : ℕ} {q : Ptr} (h : (coremap f).pte = some q) :
    age past coremap f = past.idxOf q := by
  unfold age
  rw [h]

theorem age_newest {coremap : ℕ → Frame} {f : ℕ} {q : Ptr} (h : (coremap f).pte = some q)
    (hq : past.head? = some q) : age past coremap f = 0 := by
  obtain ⟨past, rfl⟩ := List.head?_eq_some_iff.1 hq
  rw [age_of_pte h, List.idxOf_cons_self]

section Order
variable {coremap coremap' : ℕ → Frame}

theorem Ordered.nodup (h : Ordered memsize past coremap d frames) : frames.Nodup := by
  refine h.sorted.imp fun hlt heq => ?_
  rw [heq] at hlt
  exact lt_irrefl _ hlt

theorem Ordered.length_le (h : Ordered memsize past coremap d frames) :
    frames.length ≤ memsize := by
  have hsub : frames ⊆ List.range memsize := fun f hf => List.mem_range.2 ((h.mem_iff f).1 hf).1
  have hle := (h.nodup.subperm hsub).length_le
  rwa [List.length_range] at hle

/-- **A frame moves to the front** when its page is referenced; the others grow older. -/
theorem sorted_cons {moved : List ℕ}
    (hsorted : frames.Pairwise fun f g => age past coremap f < age past coremap g)
    (hsub : moved.Sublist frames) (hself : (coremap' frame).pte = some p)
    (hother : ∀ g ∈ moved, ∃ q, (coremap g).pte = some q ∧ (coremap' g).pte = some q ∧ q ≠ p) :
    (frame :: moved).Pairwise fun f g =>
      age (p :: past) coremap' f < age (p :: past) coremap' g := by
  have hage : ∀ g ∈ moved, age (p :: past) coremap' g = age past coremap g + 1 := by
    intro g hg
    obtain ⟨q, hq, hq', hne⟩ := hother g hg
    rw [age_of_pte hq, age_of_pte hq', List.idxOf_cons_ne past hne.symm]
  refine List.pairwise_cons.2 ⟨fun g hg => ?_, ?_⟩
  · rw [hage g hg, age_newest hself rfl]
    exact Nat.succ_pos _
  · refine (hsorted.sublist hsub).imp_of_mem fun {f g} hf hg hlt => ?_
    rw [hage f hf, hage g hg]
    exact Nat.succ_lt_succ hlt

/-- Only the newest page's frame comes first. -/
theorem Ordered.head_newest (h : Ordered memsize past coremap d (frame :: frames)) {f : ℕ} {q : Ptr}
    (hf : f ∈ frame :: frames) (hpte : (coremap f).pte = some q) (hq : past.head? = some q) :
    f = frame := by
  obtain rfl | hf := List.mem_cons.1 hf
  · rfl
  · have hlt := (List.pairwise_cons.1 h.sorted).1 f hf
    rw [age_newest hpte hq] at hlt
    exact absurd hlt (Nat.not_lt_zero _)

end Order

/-! ## One reference -/

section Step
variable {coremap : ℕ → Frame} {x x₁ : LruData}

/-- Which frame goes, if the list has any. -/
theorem Ordered.evict (h : Ordered memsize past coremap x frames) (hfuel : memsize < fuel) :
    (frames = [] ∧ lruEvict fuel x = none) ∨
    ∃ others last x', frames = others ++ [last] ∧ lruEvict fuel x = some (last, x') ∧
      (others ≠ [] → x'.Lists others) := by
  obtain rfl | hne := List.eq_nil_or_concat' frames
  · left
    refine ⟨rfl, ?_⟩
    obtain ⟨cells, hlist, hmap⟩ := h.lists
    obtain rfl := List.map_eq_nil_iff.1 hmap
    unfold lruEvict
    rw [hlist.head_eq]
    rfl
  · obtain ⟨others, last, rfl⟩ := hne
    right
    have hlen := h.length_le
    rw [List.length_append, List.length_singleton] at hlen
    have hf : others.length < fuel := by omega
    obtain ⟨x', hev, hlists⟩ := lruEvict_lists h.lists hf
    exact ⟨others, last, x', rfl, hev, hlists⟩

theorem Ordered.evict_lt (h : Ordered memsize past coremap x frames) (hfuel : memsize < fuel) :
    ∀ f x', lruEvict fuel x = some (f, x') → f < memsize := by
  intro f x' hev
  obtain ⟨-, hnone⟩ | ⟨others, last, x'', rfl, hsome, -⟩ := h.evict hfuel
  · rw [hnone] at hev
    cases hev
  · obtain ⟨rfl, -⟩ := Prod.mk.inj (Option.some.inj (hsome.symm.trans hev))
    exact ((h.mem_iff last).1 (by simp)).1

/-- With all frames in use, some frame goes. -/
theorem Ordered.evict_full (h : Ordered memsize past coremap x frames) (hfuel : memsize < fuel)
    (hpos : 1 ≤ memsize) (hall : ∀ i < memsize, (coremap i).inUse = true) :
    ∃ others last x', frames = others ++ [last] ∧ lruEvict fuel x = some (last, x') ∧
      (others ≠ [] → x'.Lists others) := by
  refine (h.evict hfuel).resolve_left fun ⟨hnil, _⟩ => ?_
  have hmem := (h.mem_iff 0).2 ⟨hpos, hall 0 hpos⟩
  rw [hnil] at hmem
  cases hmem

/-- Every page is placed. -/
theorem Ordered.placed (malloc : Malloc ℕ) (ho : Ordered memsize past a.coremap x frames)
    (hfuel : memsize < fuel) (hpos : 1 ≤ memsize) (ht : Tracked memsize past a) (io : Transfer)
    (p : Ptr) (vaddr : BitVec 64) (write : Bool) :
    ∃ a₁ frame x₁, (lruData malloc fuel).Placed memsize io p vaddr write a x a₁ frame x₁ := by
  refine Paging.placed ht.inv ht.packed fun _ hall => ?_
  obtain ⟨others, last, x', rfl, hev, -⟩ := ho.evict_full hfuel hpos hall
  exact ⟨last, x', hev, ((ho.mem_iff last).1 (by simp)).1⟩

/-- The page is placed, and the list is ready for `lru_ref`. -/
theorem placed_lists (ht : Tracked memsize past a) (ho : Ordered memsize past a.coremap x frames)
    (hfuel : memsize < fuel) (hpos : 1 ≤ memsize) (hnew : past.head? ≠ some p)
    (hsingle : memsize = 1 → past = [])
    (h : (lruData malloc fuel).Placed memsize io p vaddr write a x a₁ frame x₁) :
    ∃ frames₁, x₁.Lists frames₁ ∧ frames₁.Sublist frames ∧ frames₁.head? ≠ some frame ∧
      ∀ g, g ∈ frame :: frames₁.erase frame ↔ g < memsize ∧ (a₁.coremap g).inUse = true := by
  have hcore := h.coremap ht.inv
  have huse : ∀ g, (a₁.coremap g).inUse = true ↔ g = frame ∨ (a.coremap g).inUse = true := by
    intro g
    rw [hcore]
    by_cases hg : g = frame
    · subst hg
      simp
    · simp [hg]
  have hin : ∀ {g}, g ∈ frames ↔ g < memsize ∧ (a.coremap g).inUse = true := fun {g} => ho.mem_iff g
  cases h with
  | hit hv =>
    have hlt := ht.inv.frame_lt hv
    have hres := ht.inv.resident p hv
    refine ⟨frames, ho.lists, .refl frames, fun hhead => ?_, fun g => ?_⟩
    · -- the newest page is in memory and its frame comes first
      obtain ⟨rest, rfl⟩ := List.head?_eq_some_iff.1 hhead
      obtain ⟨q, past, rfl⟩ := List.exists_cons_of_ne_nil (List.ne_nil_of_mem (ht.known p hv))
      have hq := ht.newest q rfl
      have hqres := ht.inv.resident q hq
      have hqmem := hin.2 ⟨ht.inv.frame_lt hq, by rw [hqres]⟩
      have heq := ho.head_newest hqmem (by rw [hqres]) rfl
      exact hnew (congrArg some (ht.inv.frame_inj hq hv heq))
    · rw [huse, List.mem_cons, ho.nodup.mem_erase_iff, hin]
      constructor
      · rintro (rfl | ⟨-, hg⟩)
        · exact ⟨hlt, .inl rfl⟩
        · exact ⟨hg.1, .inr hg.2⟩
      · rintro ⟨hg, hor⟩
        by_cases heq : g = (a.page p).frame
        · exact .inl heq
        · exact .inr ⟨heq, hg, hor.resolve_left heq⟩
  | free hv hfree =>
    have hlt := List.mem_range.1 (List.mem_of_find?_eq_some hfree)
    have hnot : frame ∉ frames := by
      intro hmem
      have hused := (hin.1 hmem).2
      have hunused := List.find?_some hfree
      rw [hused] at hunused
      cases hunused
    refine ⟨frames, ho.lists, .refl frames, fun hhead => hnot (List.mem_of_head? hhead),
      fun g => ?_⟩
    rw [huse, List.erase_of_not_mem hnot, List.mem_cons, hin]
    constructor
    · rintro (rfl | hg)
      · exact ⟨hlt, .inl rfl⟩
      · exact ⟨hg.1, .inr hg.2⟩
    · rintro ⟨hg, hor⟩
      exact hor.imp_right fun hused => ⟨hg, hused⟩
  | @evict _ bye a' _ hv hall hev hbye hout =>
    obtain ⟨others, last, x', rfl, hev', hlists⟩ := ho.evict_full hfuel hpos hall
    obtain ⟨rfl, rfl⟩ := Prod.mk.inj (Option.some.inj (hev'.symm.trans hev))
    have hnd := ho.nodup
    rw [List.nodup_append_comm] at hnd
    have hnot : last ∉ others := (List.nodup_cons.1 hnd).1
    have hne : others ≠ [] := by
      rintro rfl
      -- one frame only, which the newest page has
      have hone : ∀ i < memsize, i = last := fun i hi => by simpa using hin.2 ⟨hi, hall i hi⟩
      have hmem : memsize = 1 := by
        by_contra hmem
        have h0 := hone 0 hpos
        have h1 := hone 1 (by omega)
        omega
      obtain ⟨-, q, -, hq, -⟩ := ht.inv.owned 0 (hall 0 hpos)
      have hknown := ht.known q hq
      rw [hsingle hmem] at hknown
      cases hknown
    refine ⟨others, hlists hne, List.sublist_append_left ..,
      fun hhead => hnot (List.mem_of_head? hhead), fun g => ?_⟩
    rw [huse, List.erase_of_not_mem hnot, List.mem_cons]
    constructor
    · rintro (rfl | hg)
      · have hlt := hin.1 (List.mem_append_right others List.mem_cons_self)
        exact ⟨hlt.1, .inl rfl⟩
      · have hused := hin.1 (List.mem_append_left [last] hg)
        exact ⟨hused.1, .inr hused.2⟩
    · rintro ⟨hg, -⟩
      have hmem := hin.2 ⟨hg, hall g hg⟩
      rw [List.mem_append, List.mem_singleton] at hmem
      exact hmem.symm

variable {s s' : Sim LruData} {r : Reference}

/-- **Between different pages** `lru_ref` keeps the order. -/
theorem step_ordered (malloc : Malloc ℕ) (hmem : memsize ≤ 2 ^ 19) (hpos : 1 ≤ memsize)
    (hfuel : memsize < fuel)
    (ht : Tracked memsize past s.pager) (ho : Ordered memsize past s.coremap s.policy frames)
    (hp : entryOf r.vaddr = some p) (hnew : past.head? ≠ some p)
    (hsingle : memsize = 1 → past = []) :
    ∃ ok s', accessMem (lru malloc fuel) memsize r.io r.type r.vaddr s = some (ok, s') ∧
      ∃ frames', Ordered memsize (p :: past) s'.coremap s'.policy frames' := by
  obtain ⟨a₁, frame, x₁, hplaced⟩ := ho.placed malloc hfuel hpos ht r.io.pageout p r.vaddr
    (decide (Writes r.type))
  obtain ⟨frames₁, hlists, hsub, hhead, hmem_iff⟩ :=
    placed_lists ht ho hfuel hpos hnew hsingle hplaced
  have hlen : frames₁.length ≤ fuel := by
    have hle := hsub.length_le.trans ho.length_le
    omega
  obtain ⟨x₂, href, hlists₂⟩ := lruRef_lists malloc hlists hlen hhead
  have hacc := accessMem_placed hmem (ho.evict_lt hfuel) hp hplaced
  rw [show (lruData malloc fuel).ref a₁.coremap frame x₁ = some x₂ from href, Option.map_some]
    at hacc
  obtain ⟨⟨ok, s'⟩, hs', hboth⟩ := Option.map_eq_some_iff.1 hacc
  obtain ⟨hpager, hpol⟩ := Prod.mk.inj hboth
  have hcore : s'.coremap = a₁.coremap := by
    have h := congrArg Pager.coremap hpager
    rwa [bump_coremap] at h
  refine ⟨ok, s', hs', frame :: frames₁.erase frame, ?_, ?_, ?_⟩
  · rw [show s'.policy = x₂ from hpol]
    exact hlists₂
  · rw [hcore]
    exact hmem_iff
  · rw [hcore, hplaced.coremap ht.inv]
    refine sorted_cons ho.sorted ((List.erase_sublist ..).trans hsub) (by simp) fun g hg => ?_
    have hnd := (ho.nodup.sublist hsub)
    obtain ⟨hne, hg₁⟩ := hnd.mem_erase_iff.1 hg
    obtain ⟨hlt, hused⟩ := (ho.mem_iff g).1 (hsub.subset hg₁)
    obtain ⟨-, q, hq, hqv, hqf⟩ := ht.inv.owned g hused
    refine ⟨q, hq, by rw [Function.update_of_ne hne]; exact hq, ?_⟩
    rintro rfl
    -- a page in memory is found in its own frame
    have hframe : frame = g := by
      cases hplaced with
      | hit _ => exact hqf
      | free hv _ => exact absurd (hv.symm.trans hqv) Bool.false_ne_true
      | evict hv _ _ _ _ => exact absurd (hv.symm.trans hqv) Bool.false_ne_true
    exact hne hframe.symm

/-- **The same page twice in a row**, or one frame and a second page, and the list is lost. -/
theorem step_unordered (hmem : memsize ≤ 2 ^ 19) (hpos : 1 ≤ memsize) (hfuel : memsize < fuel)
    (ht : Tracked memsize past s.pager) (ho : Ordered memsize past s.coremap s.policy frames)
    (hp : entryOf r.vaddr = some p) (hold : past.head? = some p ∨ memsize = 1 ∧ past ≠ [])
    {ok : Bool} (hacc : accessMem (lru malloc fuel) memsize r.io r.type r.vaddr s = some (ok, s'))
    (frames' : List ℕ) : ¬ s'.policy.Lists frames' := by
  have hin : ∀ {g}, g ∈ frames ↔ g < memsize ∧ (s.coremap g).inUse = true :=
    fun {g} => ho.mem_iff g
  by_cases hhead : past.head? = some p
  · have hv := ht.newest p hhead
    have hplaced : (lruData malloc fuel).Placed memsize r.io.pageout p r.vaddr
        (decide (Writes r.type)) s.pager s.policy _ _ _ := .hit hv
    have hserve := accessMem_placed hmem (ho.evict_lt hfuel) hp hplaced
    rw [show accessMem (lruData malloc fuel).policy _ _ _ _ _ = _ from hacc] at hserve
    obtain ⟨x₂, href, hboth⟩ := Option.map_eq_some_iff.1 hserve.symm
    rw [← show x₂ = s'.policy from congrArg Prod.snd hboth]
    -- the page's frame comes first
    have hres := ht.inv.resident p hv
    have hframe := hin.2 ⟨ht.inv.frame_lt hv, congrArg Frame.inUse hres⟩
    obtain ⟨first, rest, rfl⟩ := List.exists_cons_of_ne_nil (List.ne_nil_of_mem hframe)
    have hfirst := ho.head_newest hframe (congrArg Frame.pte hres) hhead
    exact lruRef_first (hfirst ▸ ho.lists) (Nat.zero_lt_of_lt hfuel) href frames'
  · obtain ⟨hone, hne⟩ := hold.resolve_left hhead
    subst hone
    obtain ⟨q, past, rfl⟩ := List.exists_cons_of_ne_nil hne
    have hq := ht.newest q rfl
    have hzero : (s.pager.page q).frame = 0 := Nat.lt_one_iff.1 (ht.inv.frame_lt hq)
    have hall : ∀ i < 1, (s.coremap i).inUse = true := by
      intro i hi
      obtain rfl := Nat.lt_one_iff.1 hi
      rw [← hzero]
      exact congrArg Frame.inUse (ht.inv.resident q hq)
    have hv : (s.pager.page p).valid = false := by
      by_contra hv
      rw [Bool.not_eq_false] at hv
      have hzero' : (s.pager.page p).frame = 0 := Nat.lt_one_iff.1 (ht.inv.frame_lt hv)
      have heq := ht.inv.frame_inj hq hv (hzero.trans hzero'.symm)
      exact hhead (congrArg some heq)
    obtain ⟨others, last, x', rfl, hev, -⟩ := ho.evict_full hfuel hpos hall
    have hothers : others = [] := by
      refine List.eq_nil_iff_forall_not_mem.2 fun g hg => ?_
      have hg0 := Nat.lt_one_iff.1 (hin.1 (List.mem_append_left [last] hg)).1
      have hlast0 := Nat.lt_one_iff.1 (hin.1 (List.mem_append_right others List.mem_cons_self)).1
      have hdis := List.disjoint_of_nodup_append ho.nodup hg
      rw [hg0, hlast0] at hdis
      exact hdis List.mem_cons_self
    subst hothers
    obtain ⟨-, bye, hbye, -⟩ := ht.inv.owned last
      (hall last ((hin (g := last)).1 (by simp)).1)
    obtain ⟨a', hout⟩ := evictFrame_isSome (a := s.pager.countMiss) ht.packed r.io.pageout last bye
    have hplaced : (lruData malloc fuel).Placed 1 r.io.pageout p r.vaddr
        (decide (Writes r.type)) s.pager s.policy _ _ _ := .evict hv hall hev hbye hout
    have hserve := accessMem_placed hmem (ho.evict_lt hfuel) hp hplaced
    rw [show accessMem (lruData malloc fuel).policy _ _ _ _ _ = _ from hacc,
      show (lruData malloc fuel).ref _ last x' = _ from
        lruRef_dangling ho.lists (Nat.zero_lt_of_lt hfuel) hev] at hserve
    cases hserve

end Step

/-! ## Traces -/

/-- The references before the first address beyond the page directory, where `find_physpage` indexes
out of bounds. -/
def served (rs : List Reference) : List Reference := rs.takeWhile fun r => (entryOf r.vaddr).isSome

/-- The list is in order, and with all frames in use `lru_evict` returns the one whose page was
referenced least recently. -/
structure LeastRecent (fuel memsize : ℕ) (past : List Ptr) (s : Sim LruData) : Prop where
  ordered : ∃ frames, Ordered memsize past s.coremap s.policy frames
  evict : (∀ i < memsize, (s.coremap i).inUse = true) →
    ∃ f d, lruEvict fuel s.policy = some (f, d) ∧ f < memsize ∧
      ∀ g < memsize, age past s.coremap g ≤ age past s.coremap f

/-- All along the trace no freed node is read or written, the walks end, and `LeastRecent` holds
after each reference. -/
def LruCorrect (malloc : Malloc ℕ) (fuel memsize : ℕ) (s₀ : Sim LruData) (rs : List Reference) :
    Prop :=
  ∀ rs₁, rs₁ <+: rs → ∃ s, replay (lru malloc fuel) memsize rs₁ s₀ = some s ∧
    LeastRecent fuel memsize (pages rs₁).reverse s

theorem Ordered.leastRecent {s : Sim LruData} (hpos : 1 ≤ memsize) (hfuel : memsize < fuel)
    (h : Ordered memsize past s.coremap s.policy frames) : LeastRecent fuel memsize past s := by
  refine ⟨⟨frames, h⟩, fun hall => ?_⟩
  obtain ⟨others, last, d, rfl, hev, -⟩ := h.evict_full hfuel hpos hall
  refine ⟨last, d, hev, ((h.mem_iff last).1 (by simp)).1, fun g hg => ?_⟩
  have hmem := (h.mem_iff g).2 ⟨hg, hall g hg⟩
  obtain hmem | hmem := List.mem_append.1 hmem
  · exact le_of_lt ((List.pairwise_append.1 h.sorted).2.2 g hmem last List.mem_cons_self)
  · rw [List.mem_singleton.1 hmem]

theorem start_ordered {swapsize : BitVec 32} {physmem file : Bytes.Mem} {heap : Heap ℕ}
    {s₀ : Sim LruData} (hs₀ : start swapsize physmem file (lruInit heap) = some s₀) :
    Ordered memsize [] s₀.coremap s₀.policy [] := by
  obtain ⟨swap, -, rfl⟩ := Option.map_eq_some_iff.1 hs₀
  refine ⟨lists_init heap, fun f => ?_, .nil⟩
  simp

/-- What a step does to `Tracked`. -/
theorem step_tracked {s s' : Sim LruData} {r : Reference} (hmem : memsize ≤ 2 ^ 19)
    (hpos : 1 ≤ memsize) (hfuel : memsize < fuel) (ht : Tracked memsize past s.pager)
    (ho : Ordered memsize past s.coremap s.policy frames) (hp : entryOf r.vaddr = some p)
    {ok : Bool} (hacc : accessMem (lru malloc fuel) memsize r.io r.type r.vaddr s = some (ok, s')) :
    Tracked memsize (p :: past) s'.pager := by
  obtain ⟨a₁, frame, x₁, hplaced⟩ := ho.placed malloc hfuel hpos ht r.io.pageout p r.vaddr
    (decide (Writes r.type))
  have hserve := accessMem_placed hmem (ho.evict_lt hfuel) hp hplaced
  rw [show accessMem (lruData malloc fuel).policy _ _ _ _ _ = _ from hacc] at hserve
  obtain ⟨x₂, -, hboth⟩ := Option.map_eq_some_iff.1 hserve.symm
  rw [← show _ = s'.pager from congrArg Prod.fst hboth]
  exact (ht.refer (hplaced.refer (ho.evict_lt hfuel))).bump p _

/-- **One reference goes well** just if its page is not the newest and, with one frame, it is the
first. -/
theorem step_leastRecent {s : Sim LruData} {r : Reference} (hmem : memsize ≤ 2 ^ 19)
    (hpos : 1 ≤ memsize) (hfuel : memsize < fuel) (ht : Tracked memsize past s.pager)
    (ho : Ordered memsize past s.coremap s.policy frames) (hp : entryOf r.vaddr = some p) :
    (∃ s', (accessMem (lru malloc fuel) memsize r.io r.type r.vaddr s).map Prod.snd = some s' ∧
      LeastRecent fuel memsize (p :: past) s') ↔
    past.head? ≠ some p ∧ (memsize = 1 → past = []) := by
  constructor
  · rintro ⟨s', hacc, ⟨frames', hlists, -, -⟩, -⟩
    obtain ⟨⟨ok, s'⟩, hacc', rfl⟩ := Option.map_eq_some_iff.1 hacc
    by_contra hold
    refine step_unordered hmem hpos hfuel ht ho hp ?_ hacc' frames' hlists
    by_cases hhead : past.head? = some p
    · exact .inl hhead
    · exact .inr (by simpa [hhead] using hold)
  · rintro ⟨hnew, hsingle⟩
    obtain ⟨ok, s', hacc, frames', ho'⟩ := step_ordered malloc hmem hpos hfuel ht ho hp hnew
      hsingle
    exact ⟨s', by rw [hacc]; rfl, ho'.leastRecent hpos hfuel⟩

theorem lruCorrect_append (malloc : Malloc ℕ) (s₀ : Sim LruData) (rs : List Reference)
    (r : Reference) : LruCorrect malloc fuel memsize s₀ (rs ++ [r]) ↔
      LruCorrect malloc fuel memsize s₀ rs ∧
      ∃ s, replay (lru malloc fuel) memsize (rs ++ [r]) s₀ = some s ∧
        LeastRecent fuel memsize (pages (rs ++ [r])).reverse s := by
  unfold LruCorrect
  simp only [List.prefix_concat_iff, forall_eq_or_imp]
  exact and_comm

/-- One more page keeps the condition just if it is new. -/
theorem chain_append (qs : List Ptr) (p : Ptr) :
    (qs ++ [p]).IsChain (· ≠ ·) ∧ (memsize = 1 → (qs ++ [p]).length ≤ 1) ↔
      (qs.IsChain (· ≠ ·) ∧ (memsize = 1 → qs.length ≤ 1)) ∧
        qs.reverse.head? ≠ some p ∧ (memsize = 1 → qs.reverse = []) := by
  have hchain : (qs ++ [p]).IsChain (· ≠ ·) ↔ qs.IsChain (· ≠ ·) ∧ qs.reverse.head? ≠ some p := by
    rw [List.isChain_append, List.head?_reverse]
    simp only [List.isChain_singleton, true_and, List.head?_cons, Option.mem_some_iff]
    refine and_congr_right fun _ => ⟨fun h heq => h p heq p rfl rfl, fun h x hx y hy heq => ?_⟩
    subst hy heq
    exact h hx
  have hlen : (qs ++ [p]).length ≤ 1 ↔ qs.reverse = [] := by
    rw [List.length_append, List.length_singleton, List.reverse_eq_nil_iff,
      ← List.length_eq_zero_iff]
    exact ⟨fun h => Nat.le_zero.1 (Nat.le_of_succ_le_succ h), fun h => by rw [h]⟩
  rw [hchain, hlen]
  constructor
  · rintro ⟨⟨hqs, hhead⟩, hsingle⟩
    refine ⟨⟨hqs, fun hone => ?_⟩, hhead, hsingle⟩
    rw [List.reverse_eq_nil_iff.1 (hsingle hone)]
    exact Nat.zero_le 1
  · rintro ⟨⟨hqs, -⟩, hhead, hsingle⟩
    exact ⟨⟨hqs, hhead⟩, hsingle⟩

/-- **The trace goes well just if no page comes twice in a row** and, with one frame, there is only
one reference; and then its references are tracked. -/
theorem lruCorrect_iff (hmem : memsize ≤ 2 ^ 19) (hpos : 1 ≤ memsize) (hfuel : memsize < fuel)
    {s₀ : Sim LruData} (ht₀ : Tracked memsize [] s₀.pager)
    (ho₀ : Ordered memsize [] s₀.coremap s₀.policy []) {rs : List Reference}
    (hrs : ∀ r ∈ rs, (entryOf r.vaddr).isSome = true) :
    (LruCorrect malloc fuel memsize s₀ rs ↔
      (pages rs).IsChain (· ≠ ·) ∧ (memsize = 1 → (pages rs).length ≤ 1)) ∧
    (LruCorrect malloc fuel memsize s₀ rs →
      ∃ s frames, replay (lru malloc fuel) memsize rs s₀ = some s ∧
        Tracked memsize (pages rs).reverse s.pager ∧
        Ordered memsize (pages rs).reverse s.coremap s.policy frames) := by
  induction rs using List.reverseRecOn with
  | nil =>
    refine ⟨⟨fun _ => ⟨.nil, fun _ => Nat.zero_le 1⟩, fun _ rs₁ hrs₁ => ?_⟩,
      fun _ => ⟨s₀, [], rfl, ht₀, ho₀⟩⟩
    obtain rfl := List.prefix_nil.1 hrs₁
    exact ⟨s₀, rfl, ho₀.leastRecent hpos hfuel⟩
  | append_singleton rs r ih =>
    obtain ⟨p, hp⟩ := Option.isSome_iff_exists.1 (hrs r (by simp))
    obtain ⟨hiff, hreach⟩ := ih fun r hr => hrs r (List.mem_append_left _ hr)
    have hpast : (pages (rs ++ [r])).reverse = p :: (pages rs).reverse := by
      rw [pages_append hp, List.reverse_append]
      rfl
    rw [lruCorrect_append, hpast, pages_append hp, chain_append, ← hiff]
    constructor
    · refine and_congr_right fun hgood => ?_
      obtain ⟨s, frames, hs, ht, ho⟩ := hreach hgood
      rw [replay_append, hs, Option.bind_some]
      exact step_leastRecent hmem hpos hfuel ht ho hp
    · rintro ⟨hgood, s', hs', hleast⟩
      obtain ⟨s, frames, hs, ht, ho⟩ := hreach hgood
      obtain ⟨frames', ho'⟩ := hleast.ordered
      refine ⟨s', frames', hs', ?_, ho'⟩
      rw [replay_append, hs, Option.bind_some] at hs'
      obtain ⟨⟨ok, s'⟩, hacc, rfl⟩ := Option.map_eq_some_iff.1 hs'
      exact step_tracked hmem hpos hfuel ht ho hp hacc

/-- **The lru policy is a correct LRU just on the traces where no page is referenced twice in a
row** and, with one frame, at most one reference is made. -/
theorem lru_iff (malloc : Malloc ℕ) (hmem : memsize ≤ 2 ^ 19) (hpos : 1 ≤ memsize)
    (hfuel : memsize < fuel) {swapsize : BitVec 32} {physmem file : Bytes.Mem} {heap : Heap ℕ}
    {s₀ : Sim LruData} (hs₀ : start swapsize physmem file (lruInit heap) = some s₀)
    (rs : List Reference) :
    LruCorrect malloc fuel memsize s₀ (served rs) ↔
      (pages (served rs)).IsChain (· ≠ ·) ∧ (memsize = 1 → (pages (served rs)).length ≤ 1) := by
  refine (lruCorrect_iff hmem hpos hfuel (start_tracked hs₀) (start_ordered hs₀) fun r hr => ?_).1
  have hserved := List.mem_takeWhile_imp (p := fun r : Reference => (entryOf r.vaddr).isSome) hr
  exact hserved

/-! ## Two traces -/

/-- The cell after the last one in use. -/
def bumpMalloc : Malloc ℕ where
  choose h := h.live.sup id + 1
  fresh _ hmem := Nat.not_succ_le_self _ (Finset.le_sup (f := id) hmem)

def emptyHeap : Heap ℕ := ⟨fun _ => ⟨none, none, 0⟩, ∅, 0⟩

def exLoad (n : ℕ) : Reference := ⟨'L', BitVec.ofNat 64 (n * 4096), Io.whole⟩

/-- Three pages in two frames, one after the other. -/
theorem lru_iff_three : LruCorrect bumpMalloc 3 2 (exStart (lruInit emptyHeap))
    (served [exLoad 0, exLoad 1, exLoad 2]) :=
  (lru_iff bumpMalloc (by decide) (by decide) (by decide) (exStart_start (lruInit emptyHeap))
    [exLoad 0, exLoad 1, exLoad 2]).2 (by decide)

/-- **The same page twice**: the second `lru_ref` frees the first node, `malloc` returns it again,
and it points to itself. -/
theorem twice_breaks_lru : ¬ LruCorrect bumpMalloc 3 2 (exStart (lruInit emptyHeap))
    (served [exLoad 0, exLoad 0]) := by
  intro h
  obtain ⟨s, hs, hleast⟩ := h (served [exLoad 0, exLoad 0]) (List.prefix_refl _)
  obtain ⟨frames, ⟨cells, hlist, -⟩, -, -⟩ := hleast.ordered
  have hloop : (replay (lru bumpMalloc 3) 2 (served [exLoad 0, exLoad 0])
      (exStart (lruInit emptyHeap))).map
        (fun s => (s.policy.head, (s.policy.heap.cell 1).pre)) = some (some 1, some 1) := by decide
  rw [hs] at hloop
  obtain ⟨hhead, hpre⟩ := Prod.mk.inj (Option.some.inj hloop)
  rw [hhead] at hlist
  exact absurd (hpre.symm.trans hlist.pre_head) (Option.some_ne_none 1)

end Cscc69.Paging
