import Cscc69.Paging.Fifo

/-!
# The page table as bytes

Here a second-level table is the 65536 bytes that `posix_memalign` returns, and an entry is 16 of
them. The word `pde` of the page directory is the table's address with `PG_VALID` in its lowest bit.
It is decoded in two places:

* `find_physpage` uses the whole word as a pointer, so that its entries begin one byte late;
* `print_pagedirectory` takes the lowest bits off.

The first byte of an entry as it is printed is then the last byte of the `swap_off` before it as
`find_physpage` writes it. `init_second_level` makes it zero, and so does every page-out, because a
seek to a negative offset fails (`TableInv.step`). All status bits are in that byte: whatever was
simulated, the dump shows nothing but `INVALID` (`dump_run`, `dump_iff`).
-/

namespace Cscc69.Paging

open Bytes

variable {σ : Type*}

/-! ## Layout -/

/-- The fields of `pgtbl_entry_t`. -/
inductive Field
  | frame
  | swapOff
  deriving DecidableEq

def Field.offset : Field → ℕ
  | .frame => 0
  | .swapOff => 8

def Field.size : Field → ℕ
  | .frame => 4
  | .swapOff => 8

/-- `sizeof(pgtbl_entry_t)` -/
def sizeofEntry : ℕ := 16

def pageSize : ℕ := 4096

/-- `PAGE_MASK`, as it is widened from an `int`. -/
def pageMask : BitVec 64 := ~~~4095

/-- The entry at an address. -/
def loadEntry (heap : Mem) (addr : ℕ) : PgtblEntry where
  frame := BitVec.ofNat 32 (load heap (addr + Field.offset .frame) (Field.size .frame))
  swapOff := BitVec.ofNat 64 (load heap (addr + Field.offset .swapOff) (Field.size .swapOff))

/-- The simulator with its second-level tables in memory. A pointer to an entry is still the pair
of its indices. -/
structure Machine (σ : Type*) where
  pde : Fin ptrsPerPgdir → BitVec 64
  heap : Mem
  coremap : ℕ → Frame
  physmem : Mem
  swap : Swap
  counters : Counters
  policy : σ
  /-- the fields of entries that `find_physpage` and `allocate_frame` used -/
  log : List (Ptr × Field)

namespace Machine

/-- `pter + idx2`, where `pter` is the whole word of the directory. -/
def addr (m : Machine σ) (p : Ptr) : ℕ := (m.pde p.1).toNat + sizeofEntry * p.2

def entry (m : Machine σ) (p : Ptr) : PgtblEntry := loadEntry m.heap (m.addr p)

def touch (m : Machine σ) (p : Ptr) (field : Field) : Machine σ :=
  { m with log := (p, field) :: m.log }

def put (m : Machine σ) (p : Ptr) (field : Field) (v : ℕ) : Machine σ :=
  { m with heap := store m.heap (m.addr p + field.offset) field.size v }

def setFrame (m : Machine σ) (p : Ptr) (w : BitVec 32) : Machine σ := m.put p .frame w.toNat

/-- `p->frame |= flags` -/
def orFrame (m : Machine σ) (p : Ptr) (flags : BitVec 32) : Machine σ :=
  m.setFrame p ((m.entry p).frame ||| flags)

/-! ## The policies -/

/-- What a policy sees. -/
def view (m : Machine σ) : Sim σ where
  pgdir i := if m.pde i = 0 then none else some fun j => m.entry (i, j)
  coremap := m.coremap
  physmem := m.physmem
  swap := m.swap
  counters := m.counters
  policy := m.policy

/-- What a policy stored in the entry of a frame. -/
def storeBack (s : Sim σ) (m : Machine σ) (i : ℕ) : Machine σ :=
  match (m.coremap i).pte with
  | none => m
  | some q => m.setFrame q (s.entry q).frame

/-- What a policy did, in memory. -/
def absorb (m : Machine σ) (memsize : ℕ) (s : Sim σ) : Machine σ :=
  (List.range memsize).foldl (storeBack s) { m with policy := s.policy }

/-! ## The functions of the program -/

/-- Take `frame` for the page of `p`. -/
def claim (m : Machine σ) (frame : ℕ) (p : Ptr) : Machine σ :=
  { m with coremap := Function.update m.coremap frame ⟨true, some p⟩ }

/-- The eviction of `allocate_frame`. -/
def evictFrame (io : Transfer) (frame : ℕ) (bye : Ptr) (m : Machine σ) : Option (Machine σ) :=
  let m := m.touch bye .frame
  if (m.entry bye).frame &&& pgDirty = 0 then
    let m := { m with counters := m.counters.countClean }
    some (m.setFrame bye ((m.entry bye).frame &&& ~~~pgValid))
  else
    let m := { m with counters := m.counters.countDirty }
    let m := m.touch bye .swapOff
    match swapPageout io m.physmem frame ((m.entry bye).swapOff.setWidth 32) m.swap with
    | none => none
    | some (offset, swap) =>
      let m := { m with swap := swap }
      let m :=
        if offset ≠ invalidSwap then
          let m := m.orFrame bye pgOnswap
          m.put bye .swapOff (offset.signExtend 64).toNat
        else m
      some (m.setFrame bye ((m.entry bye).frame &&& ~~~pgValid))

def allocateFrame (pol : Policy σ) (memsize : ℕ) (io : Transfer) (p : Ptr) (m : Machine σ) :
    Option (ℕ × Machine σ) :=
  match (List.range memsize).find? fun i => !(m.coremap i).inUse with
  | some frame => some (frame, m.claim frame p)
  | none =>
    match pol.evict m.view with
    | none => none
    | some (frame, s) =>
      let m := m.absorb memsize s
      match (m.coremap frame).pte with
      | none => none
      | some bye => (m.evictFrame io frame bye).map fun m => (frame, m.claim frame p)

/-- The stores of `init_second_level` for one entry. The padding stays as it was. -/
def initEntry (heap : Mem) (addr : ℕ) : Mem :=
  let heap := store heap (addr + Field.offset .frame) (Field.size .frame) 0
  store heap (addr + Field.offset .swapOff) (Field.size .swapOff) invalidSwapOff.toNat

/-- `init_second_level`, when `posix_memalign` returns `base`. -/
def initSecondLevel (m : Machine σ) (dir : Fin ptrsPerPgdir) (base : BitVec 64) : Machine σ :=
  { m with
    heap := (List.range ptrsPerPgtbl).foldl
      (fun heap i => initEntry heap (base.toNat + sizeofEntry * i)) m.heap
    pde := Function.update m.pde dir (base ||| 1) }

/-- The miss of `find_physpage`. -/
def loadPage (pol : Policy σ) (memsize : ℕ) (io : Io) (vaddr : BitVec 64) (p : Ptr)
    (m : Machine σ) : Option (Machine σ) :=
  match m.allocateFrame pol memsize io.pageout p with
  | none => none
  | some (frame, m) =>
    let m := m.setFrame p (frameWord (BitVec.ofNat 32 frame))
    if (m.entry p).frame &&& pgOnswap ≠ 0 then
      let m := m.touch p .swapOff
      (swapPagein io.pagein m.swap frame ((m.entry p).swapOff.setWidth 32) m.physmem).map
        fun (_, physmem) => { m with physmem := physmem }
    else some { m with physmem := initFrame frame vaddr m.physmem }

/-- The byte of `physmem` that the returned pointer points to, and the new state; `base` is what
`posix_memalign` returns, if a table is made. -/
def findPhyspage (pol : Policy σ) (memsize : ℕ) (io : Io) (base vaddr : BitVec 64) (type : Char)
    (m : Machine σ) : Option (BitVec 32 × Machine σ) :=
  match dirOf vaddr with
  | none => none
  | some dir =>
    let m := if m.pde dir = 0 then m.initSecondLevel dir base else m
    let p : Ptr := (dir, pgtblIndex vaddr)
    let m := { m with counters := m.counters.countRef }
    let m := m.touch p .frame
    let found :=
      if (m.entry p).frame &&& pgValid = 0 then
        loadPage pol memsize io vaddr p { m with counters := m.counters.countMiss }
      else some { m with counters := m.counters.countHit }
    match found with
    | none => none
    | some m =>
      let m := m.orFrame p pgValid
      let m := m.orFrame p pgRef
      let m := if Writes type then m.orFrame p pgDirty else m
      (pol.ref p m.view).map fun s =>
        let m := m.absorb memsize s
        ((m.entry p).frame >>> pageShift * BitVec.ofNat 32 simpagesize, m)

/-- One access: whether the address check passes, and the new state. -/
def accessMem (pol : Policy σ) (memsize : ℕ) (io : Io) (base : BitVec 64) (type : Char)
    (vaddr : BitVec 64) (m : Machine σ) : Option (Bool × Machine σ) :=
  (m.findPhyspage pol memsize io base vaddr type).map fun (memptr, m) =>
    let ok := decide (load m.physmem (memptr.toNat + 4) 8 = vaddr.toNat)
    if Writes type then
      (ok, { m with
        physmem := store m.physmem memptr.toNat 4 (version m.physmem memptr + 1) })
    else (ok, m)

end Machine

/-! ## Runs -/

/-- A reference, with the address for its table. -/
structure TableReference extends Reference where
  base : BitVec 64
  aligned : pageSize ∣ base.toNat

def Machine.step (pol : Policy σ) (memsize : ℕ) (m : Machine σ) (r : TableReference)
    (m' : Machine σ) : Prop :=
  ∃ ok, m.accessMem pol memsize r.io r.base r.type r.vaddr = some (ok, m')

/-- The simulator before the trace. The heap may hold anything. -/
def Machine.start (swapsize : BitVec 32) (physmem file heap : Mem) (policy : σ) :
    Option (Machine σ) :=
  (swapInit swapsize file).map fun swap =>
    { pde := fun _ => 0
      heap := heap
      coremap := fun _ => ⟨false, none⟩
      physmem := physmem
      swap := swap
      counters := ⟨0, 0, 0, 0, 0⟩
      policy := policy
      log := [] }

/-! ## The dump -/

/-- What `print_pagetbl` prints: a range of invalid entries, or an entry. -/
inductive TableLine
  | invalid (first last : ℕ)
  | valid (i : ℕ) (dirty : Bool) (frame : BitVec 32)
  | onswap (i : ℕ) (offset : BitVec 64)

inductive DirLine
  | invalid (first last : ℕ)
  | table (i : ℕ) (pgtbl : BitVec 64) (lines : List TableLine)

/-- The next range of invalid entries; `none` is -1 in both of its bounds. -/
def extendRange (i : ℕ) (range : Option (ℕ × ℕ)) : Option (ℕ × ℕ) :=
  some ((range.map Prod.fst).getD i, i)

def printEntry (i : ℕ) (e : PgtblEntry) : TableLine :=
  if e.frame &&& pgValid ≠ 0 then
    .valid i (decide (e.frame &&& pgDirty ≠ 0)) (e.frame >>> pageShift)
  else .onswap i e.swapOff

def printEntries (pgtbl : ℕ → PgtblEntry) : List ℕ → Option (ℕ × ℕ) → List TableLine
  | [], range => range.toList.map fun r => .invalid r.1 r.2
  | i :: is, range =>
    if (pgtbl i).frame &&& pgValid = 0 ∧ (pgtbl i).frame &&& pgOnswap = 0 then
      printEntries pgtbl is (extendRange i range)
    else (range.toList.map fun r => .invalid r.1 r.2) ++
      printEntry i (pgtbl i) :: printEntries pgtbl is none

def printPagetbl (heap : Mem) (pgtbl : BitVec 64) : List TableLine :=
  printEntries (fun i => loadEntry heap (pgtbl.toNat + sizeofEntry * i)) (List.range ptrsPerPgtbl)
    none

def printDirs (m : Machine σ) : List (Fin ptrsPerPgdir) → Option (ℕ × ℕ) → List DirLine
  | [], _ => []
  | i :: is, range =>
    if m.pde i &&& 1 = 0 then printDirs m is (extendRange i range)
    else
      let pgtbl := m.pde i &&& pageMask
      (range.toList.map fun r => .invalid r.1 r.2) ++
        .table i pgtbl (printPagetbl m.heap pgtbl) :: printDirs m is none

def printPagedirectory (m : Machine σ) : List DirLine :=
  printDirs m (List.finRange ptrsPerPgdir) none

/-! ## Addresses -/

theorem pageMask_toNat (w : BitVec 64) : (w &&& pageMask).toNat = w.toNat / 4096 * 4096 := by
  have hmask : pageMask = BitVec.allOnes 64 >>> 12 <<< 12 := by decide
  have hand : w &&& pageMask = w >>> 12 <<< 12 := by
    rw [hmask]
    apply BitVec.eq_of_getLsbD_eq
    intro i hi
    simp only [BitVec.getLsbD_and, BitVec.getLsbD_shiftLeft, BitVec.getLsbD_ushiftRight,
      BitVec.getLsbD_allOnes]
    by_cases h : i < 12
    · simp [h]
    · simp [h, hi, Nat.add_sub_cancel' (Nat.le_of_not_lt h)]
  have hlt := w.isLt
  rw [hand, BitVec.toNat_shiftLeft, BitVec.toNat_ushiftRight, Nat.shiftRight_eq_div_pow,
    Nat.shiftLeft_eq]
  exact Nat.mod_eq_of_lt (by omega)

/-- The lowest bit of a page's address is free for `PG_VALID`. -/
theorem tagged_toNat {base : BitVec 64} (h : pageSize ∣ base.toNat) :
    (base ||| 1).toNat = base.toNat + 1 := by
  obtain ⟨k, hk⟩ := h
  have hk : base.toNat = 2 ^ 12 * k := hk
  rw [BitVec.toNat_or, hk]
  show 2 ^ 12 * k ||| 1 = _
  rw [← Nat.two_pow_add_eq_or_of_lt (by decide)]

/-! ## The first bytes of the printed entries -/

/-- The directory's words are tagged, all entries in a table begin with a zero byte where the dump
reads them, and the coremap points into tables. -/
structure TableInv (m : Machine σ) : Prop where
  tagged : ∀ i, m.pde i ≠ 0 → (m.pde i).toNat = (m.pde i &&& pageMask).toNat + 1
  zero : ∀ i, m.pde i ≠ 0 → ∀ j < ptrsPerPgtbl,
    m.heap ((m.pde i &&& pageMask).toNat + sizeofEntry * j) = 0
  linked : ∀ k q, (m.coremap k).pte = some q → m.pde q.1 ≠ 0

variable {m m' : Machine σ} {p q : Ptr}

/-- An entry of `find_physpage` begins one byte late. -/
theorem TableInv.addr_mod (h : TableInv m) (hp : m.pde p.1 ≠ 0) : m.addr p % 16 = 1 := by
  have htag := h.tagged p.1 hp
  have hmask := pageMask_toNat (m.pde p.1)
  unfold Machine.addr sizeofEntry
  omega

/-- What the printed entries begin with, after a store. -/
theorem store_zero {heap : Mem} {a A v : ℕ} {field : Field} (ha : heap a = 0) (ha' : a % 16 = 0)
    (hA : A % 16 = 1) (hv : field = .swapOff → v < 256 ^ 7) :
    store heap (A + field.offset) field.size v a = 0 := by
  unfold store
  split
  · rename_i hin
    cases field with
    | frame =>
      -- four bytes, of which none is the first of 16
      have hlt : a < A + 0 + 4 := hin.2
      have hge : A + 0 ≤ a := hin.1
      omega
    | swapOff =>
      have hlt : a < A + 8 + 8 := hin.2
      have hge : A + 8 ≤ a := hin.1
      have hlast : a - (A + Field.offset .swapOff) = 7 := by
        show a - (A + 8) = 7
        omega
      rw [hlast, Nat.div_eq_of_lt (hv rfl)]
      rfl
  · exact ha

theorem TableInv.put (h : TableInv m) (hp : m.pde p.1 ≠ 0) (field : Field) {v : ℕ}
    (hv : field = .swapOff → v < 256 ^ 7) : TableInv (m.put p field v) := by
  refine ⟨h.tagged, fun i hi j hj => store_zero (h.zero i hi j hj) ?_ (h.addr_mod hp) hv, h.linked⟩
  have hmask := pageMask_toNat (m.pde i)
  show ((m.pde i &&& pageMask).toNat + 16 * j) % 16 = 0
  omega

theorem TableInv.setFrame (h : TableInv m) (hp : m.pde p.1 ≠ 0) (w : BitVec 32) :
    TableInv (m.setFrame p w) := h.put hp .frame (by simp)

theorem TableInv.orFrame (h : TableInv m) (hp : m.pde p.1 ≠ 0) (flags : BitVec 32) :
    TableInv (m.orFrame p flags) := h.setFrame hp _

/-! ## Frame words -/

theorem entry_setFrame (m : Machine σ) (p : Ptr) (w : BitVec 32) :
    ((m.setFrame p w).entry p).frame = w := by
  show BitVec.ofNat 32 (load (store m.heap (m.addr p + Field.offset .frame) 4 w.toNat)
    (m.addr p + Field.offset .frame) 4) = w
  rw [load_store]
  apply BitVec.eq_of_toNat_eq
  rw [BitVec.toNat_ofNat]
  have hlt := w.isLt
  omega

/-- The frame words of two entries are the same bytes, or have none in common. -/
theorem TableInv.entry_setFrame_ne (h : TableInv m) (hp : m.pde p.1 ≠ 0) (hq : m.pde q.1 ≠ 0)
    (hne : m.addr p ≠ m.addr q) (w : BitVec 32) :
    ((m.setFrame q w).entry p).frame = (m.entry p).frame := by
  have hpmod := h.addr_mod hp
  have hqmod := h.addr_mod hq
  show BitVec.ofNat 32 (load (store m.heap (m.addr q + 0) 4 w.toNat) (m.addr p + 0) 4) =
    BitVec.ofNat 32 (load m.heap (m.addr p + 0) 4)
  rw [load_store_of_disjoint (by omega)]

/-- A store that keeps a frame word up to `PG_REF` keeps them all so. -/
theorem TableInv.keep_ref (h : TableInv m) (hp : m.pde p.1 ≠ 0) (hq : m.pde q.1 ≠ 0)
    {w : BitVec 32} (hw : w &&& ~~~pgRef = (m.entry q).frame &&& ~~~pgRef) :
    ((m.setFrame q w).entry p).frame &&& ~~~pgRef = (m.entry p).frame &&& ~~~pgRef := by
  by_cases heq : m.addr p = m.addr q
  · have hentry : m.entry p = m.entry q := congrArg (loadEntry m.heap) heq
    have hstored : (m.setFrame q w).entry p = (m.setFrame q w).entry q :=
      congrArg (loadEntry (m.setFrame q w).heap) heq
    rw [hstored, entry_setFrame, hw, hentry]
  · rw [h.entry_setFrame_ne hp hq heq]

theorem view_entry (hp : m.pde p.1 ≠ 0) : m.view.entry p = m.entry p := by
  show (if m.pde p.1 = 0 then none else some fun j => m.entry (p.1, j)).getD initSecondLevel p.2 = _
  rw [if_neg hp]
  rfl

/-- **What a policy does** keeps the frame words up to `PG_REF`. -/
theorem TableInv.absorb (h : TableInv m) {s : Sim σ} (href : OnlyRef m.view s) (memsize : ℕ) :
    TableInv (m.absorb memsize s) ∧ (m.absorb memsize s).pde = m.pde ∧
      (m.absorb memsize s).coremap = m.coremap ∧
      ∀ p, m.pde p.1 ≠ 0 → ((m.absorb memsize s).entry p).frame &&& ~~~pgRef =
        (m.entry p).frame &&& ~~~pgRef := by
  unfold Machine.absorb
  induction memsize with
  | zero => exact ⟨⟨h.tagged, h.zero, h.linked⟩, rfl, rfl, fun _ _ => rfl⟩
  | succ k ih =>
    rw [List.range_succ, List.foldl_append, List.foldl_cons, List.foldl_nil]
    generalize (List.range k).foldl (Machine.storeBack s) { m with policy := s.policy } = m₁ at ih
    obtain ⟨hinv, hpde, hcoremap, hframes⟩ := ih
    unfold Machine.storeBack
    split
    · exact ⟨hinv, hpde, hcoremap, hframes⟩
    · rename_i q hq
      have hq₀ : m.pde q.1 ≠ 0 := h.linked k q (hcoremap ▸ hq)
      have hq₁ : m₁.pde q.1 ≠ 0 := by
        rw [hpde]
        exact hq₀
      have hw : (s.entry q).frame &&& ~~~pgRef = (m₁.entry q).frame &&& ~~~pgRef := by
        rw [href.frame q, view_entry hq₀, hframes q hq₀]
      refine ⟨hinv.setFrame hq₁ _, hpde, hcoremap, fun p hp => ?_⟩
      rw [hinv.keep_ref (by rw [hpde]; exact hp) hq₁ hw, hframes p hp]

/-! ## The functions of the program -/

/-- What the functions keep besides: the tables. -/
structure TableKept (m m' : Machine σ) : Prop where
  inv : TableInv m'
  pde : m'.pde = m.pde

theorem TableKept.trans {m'' : Machine σ} (h : TableKept m m') (h' : TableKept m' m'') :
    TableKept m m'' := ⟨h'.inv, h'.pde.trans h.pde⟩

/-- A page is written at no negative offset, since the seek would fail. -/
theorem swapPageout_nonneg {io : Transfer} {physmem : Mem} {frame : ℕ} {off offset : BitVec 32}
    {sw sw' : Swap} (h : swapPageout io physmem frame off sw = some (offset, sw'))
    (hoffset : offset ≠ invalidSwap) : 0 ≤ offset.toInt := by
  unfold swapPageout at h
  split at h
  · cases h
  · obtain ⟨heq, -⟩ := Prod.mk.inj (Option.some.inj h)
    exact absurd heq.symm hoffset
  · rename_i offset' sw₁ hslot
    split_ifs at h with hinvalid hseek hmoved
    · obtain ⟨heq, -⟩ := Prod.mk.inj (Option.some.inj h)
      exact absurd heq.symm hoffset
    · obtain ⟨heq, -⟩ := Prod.mk.inj (Option.some.inj h)
      exact absurd heq.symm hoffset
    · obtain ⟨rfl, -⟩ := Prod.mk.inj (Option.some.inj h)
      by_contra hneg
      refine hseek ?_
      unfold Transfer.lseek
      rw [if_pos (by omega)]
      rfl

theorem signExtend_lt {offset : BitVec 32} (h : 0 ≤ offset.toInt) :
    (offset.signExtend 64).toNat < 256 ^ 7 := by
  have hmsb : offset.msb = false := by
    rw [BitVec.msb_eq_toInt]
    simpa using h
  rw [BitVec.signExtend_eq_setWidth_of_msb_false hmsb, BitVec.toNat_setWidth]
  have hlt := offset.isLt
  omega

theorem TableInv.evictFrame (h : TableInv m) {io : Transfer} {frame : ℕ} {bye : Ptr}
    (hbye : m.pde bye.1 ≠ 0) (hev : m.evictFrame io frame bye = some m') :
    TableKept m m' ∧ m'.coremap = m.coremap := by
  have htouch : TableInv (m.touch bye .frame) := ⟨h.tagged, h.zero, h.linked⟩
  unfold Machine.evictFrame at hev
  dsimp only at hev
  split at hev
  · obtain rfl := Option.some.inj hev
    have hcount : TableInv { m.touch bye .frame with
      counters := (m.touch bye .frame).counters.countClean } := ⟨h.tagged, h.zero, h.linked⟩
    exact ⟨⟨hcount.setFrame hbye _, rfl⟩, rfl⟩
  split at hev
  · cases hev
  rename_i offset swap hout
  obtain rfl := Option.some.inj hev
  split
  · rename_i hoffset
    have hswap : TableInv { (m.touch bye .frame).touch bye .swapOff with
      counters := (m.touch bye .frame).counters.countDirty, swap := swap } :=
      ⟨h.tagged, h.zero, h.linked⟩
    have hlt := signExtend_lt (swapPageout_nonneg hout hoffset)
    exact ⟨⟨((hswap.orFrame hbye _).put hbye .swapOff fun _ => hlt).setFrame hbye _, rfl⟩, rfl⟩
  · have hswap : TableInv { (m.touch bye .frame).touch bye .swapOff with
      counters := (m.touch bye .frame).counters.countDirty, swap := swap } :=
      ⟨h.tagged, h.zero, h.linked⟩
    exact ⟨⟨hswap.setFrame hbye _, rfl⟩, rfl⟩

theorem TableInv.claim (h : TableInv m) (hp : m.pde p.1 ≠ 0) (frame : ℕ) :
    TableKept m (m.claim frame p) := by
  refine ⟨⟨h.tagged, h.zero, fun k q hq => ?_⟩, rfl⟩
  have hq : (Function.update m.coremap frame ⟨true, some p⟩ k).pte = some q := hq
  by_cases hk : k = frame
  · rw [hk, Function.update_self] at hq
    obtain rfl := Option.some.inj hq
    exact hp
  · rw [Function.update_of_ne hk] at hq
    exact h.linked k q hq

variable {pol : Policy σ} {memsize : ℕ}

theorem TableInv.allocateFrame (h : TableInv m) (hok : pol.Ok memsize) {io : Transfer} {frame : ℕ}
    (hp : m.pde p.1 ≠ 0) (halloc : m.allocateFrame pol memsize io p = some (frame, m')) :
    TableKept m m' := by
  unfold Machine.allocateFrame at halloc
  split at halloc
  · obtain ⟨rfl, rfl⟩ := Prod.mk.inj (Option.some.inj halloc)
    exact h.claim hp _
  split at halloc
  · cases halloc
  rename_i frame' s hev
  obtain ⟨hinv, hpde, -, -⟩ := h.absorb (hok.evict hev) memsize
  dsimp only at halloc
  split at halloc
  · cases halloc
  rename_i bye hbye
  obtain ⟨m₁, hm₁, heq⟩ := Option.map_eq_some_iff.1 halloc
  obtain ⟨rfl, rfl⟩ := Prod.mk.inj heq
  obtain ⟨hkept, -⟩ := hinv.evictFrame (hinv.linked _ _ hbye) hm₁
  have hpde₁ : m₁.pde = m.pde := hkept.pde.trans hpde
  have hclaim := hkept.inv.claim (p := p) (by rw [hpde₁]; exact hp) frame'
  exact ⟨hclaim.inv, hpde₁⟩

theorem TableInv.loadPage (h : TableInv m) (hok : pol.Ok memsize) {io : Io} {vaddr : BitVec 64}
    (hp : m.pde p.1 ≠ 0) (hload : m.loadPage pol memsize io vaddr p = some m') :
    TableKept m m' := by
  unfold Machine.loadPage at hload
  split at hload
  · cases hload
  rename_i frame m₁ halloc
  have hkept := h.allocateFrame hok hp halloc
  have hp₁ : m₁.pde p.1 ≠ 0 := by
    rw [hkept.pde]
    exact hp
  have hset := hkept.inv.setFrame hp₁ (frameWord (BitVec.ofNat 32 frame))
  dsimp only at hload
  split at hload
  · obtain ⟨⟨r, physmem⟩, -, rfl⟩ := Option.map_eq_some_iff.1 hload
    exact ⟨⟨hset.tagged, hset.zero, hset.linked⟩, hkept.pde⟩
  · obtain rfl := Option.some.inj hload
    exact ⟨⟨hset.tagged, hset.zero, hset.linked⟩, hkept.pde⟩

theorem initEntry_first (heap : Mem) {a A : ℕ} (ha : a % 16 = 0) (hA : A % 16 = 0) :
    Machine.initEntry heap A a = if a = A then 0 else heap a := by
  show store (store heap (A + 0) 4 0) (A + 8) 8 invalidSwapOff.toNat a = _
  have hoff : store (store heap (A + 0) 4 0) (A + 8) 8 invalidSwapOff.toNat a =
      store heap (A + 0) 4 0 a := by
    rw [store, if_neg (by omega)]
  rw [hoff, store]
  by_cases heq : a = A
  · rw [if_pos heq, if_pos (by omega), heq]
    simp
  · rw [if_neg heq, if_neg (by omega)]

/-- **A new table** begins all its entries with a zero byte, and no other table loses one. -/
theorem initTable_first (heap : Mem) {base : ℕ} (hbase : base % 16 = 0) (n : ℕ) {a : ℕ}
    (ha : a % 16 = 0) (hzero : heap a = 0 ∨ ∃ j < n, a = base + sizeofEntry * j) :
    (List.range n).foldl (fun heap i => Machine.initEntry heap (base + sizeofEntry * i)) heap a =
      0 := by
  induction n with
  | zero =>
    obtain hzero | ⟨j, hj, -⟩ := hzero
    · exact hzero
    · exact absurd hj (Nat.not_lt_zero j)
  | succ n ih =>
    have hA : (base + sizeofEntry * n) % 16 = 0 := by
      unfold sizeofEntry
      omega
    rw [List.range_succ, List.foldl_append, List.foldl_cons, List.foldl_nil,
      initEntry_first _ ha hA]
    split
    · rfl
    · rename_i hne
      refine ih (hzero.imp_right ?_)
      rintro ⟨j, hj, heq⟩
      obtain hj | rfl := Nat.lt_succ_iff_lt_or_eq.1 hj
      · exact ⟨j, hj, heq⟩
      · exact absurd heq hne

theorem initEntry_bytes (heap : Mem) (A : ℕ) {k : ℕ} (hk : k < 4 ∨ 8 ≤ k ∧ k < 16) :
    Machine.initEntry heap A (A + k) = if k < 4 then 0 else 255 := by
  show store (store heap (A + 0) 4 0) (A + 8) 8 invalidSwapOff.toNat (A + k) = _
  have hones : ∀ d < 8, UInt8.ofNat (invalidSwapOff.toNat / 256 ^ d) = 255 := by decide
  rw [store]
  obtain hlt | ⟨hge, hlt⟩ := hk
  · rw [if_neg (by omega), if_pos hlt, store, if_pos (by omega), Nat.zero_div]
    rfl
  · rw [if_pos (by omega), if_neg (by omega), Nat.add_sub_add_left, hones (k - 8) (by omega)]

/-- What is stored for an entry stays. -/
theorem initTable_bytes (heap : Mem) (base n : ℕ) {j k : ℕ} (hj : j < n)
    (hk : k < 4 ∨ 8 ≤ k ∧ k < 16) :
    (List.range n).foldl (fun heap i => Machine.initEntry heap (base + sizeofEntry * i)) heap
      (base + sizeofEntry * j + k) = if k < 4 then 0 else 255 := by
  induction n with
  | zero => exact absurd hj (Nat.not_lt_zero j)
  | succ n ih =>
    rw [List.range_succ, List.foldl_append, List.foldl_cons, List.foldl_nil]
    generalize (List.range n).foldl _ heap = heap₁ at ih ⊢
    obtain hj | rfl := Nat.lt_succ_iff_lt_or_eq.1 hj
    · rw [← ih hj]
      show store (store heap₁ (base + 16 * n + 0) 4 0) (base + 16 * n + 8) 8
        invalidSwapOff.toNat (base + 16 * j + k) = heap₁ (base + 16 * j + k)
      rw [store, if_neg (by omega), store, if_neg (by omega)]
    · exact initEntry_bytes heap₁ _ hk

/-- **A new entry**, as `find_physpage` sees it. The lowest bits of both fields, which are all that
it uses, are those of `PgtblEntry.fresh`. The highest byte of the frame word is padding, and the
one of `swap_off` belongs to the next entry. -/
theorem entry_fresh (m : Machine σ) {base : BitVec 64} (hbase : pageSize ∣ base.toNat) (p : Ptr) :
    ((m.initSecondLevel p.1 base).entry p).swapOff.setWidth 32 =
        PgtblEntry.fresh.swapOff.setWidth 32 ∧
      ((m.initSecondLevel p.1 base).entry p).frame.setWidth 24 =
        PgtblEntry.fresh.frame.setWidth 24 := by
  have haddr : (m.initSecondLevel p.1 base).addr p = base.toNat + sizeofEntry * p.2 + 1 := by
    show (Function.update m.pde p.1 (base ||| 1) p.1).toNat + sizeofEntry * p.2 = _
    rw [Function.update_self, tagged_toNat hbase]
    omega
  have hheap : (m.initSecondLevel p.1 base).heap = (List.range ptrsPerPgtbl).foldl
      (fun heap i => Machine.initEntry heap (base.toNat + sizeofEntry * i)) m.heap := by
    simp only [Machine.initSecondLevel]
  have hbytes : ∀ {k}, k < 4 ∨ 8 ≤ k ∧ k < 16 → (m.initSecondLevel p.1 base).heap
      (base.toNat + sizeofEntry * p.2 + k) = if k < 4 then 0 else 255 := by
    intro k hk
    rw [hheap]
    exact initTable_bytes m.heap base.toNat ptrsPerPgtbl p.2.isLt hk
  unfold Machine.entry loadEntry
  rw [haddr]
  generalize base.toNat + sizeofEntry * p.2 = A at hbytes ⊢
  generalize (m.initSecondLevel p.1 base).heap = heap at hbytes ⊢
  constructor
  · have hload : load heap (A + 1 + 8) 8 % 2 ^ 32 = 2 ^ 32 - 1 := by
      have h₉ : heap (A + 9) = 255 := hbytes (k := 9) (by omega)
      have h₁₀ : heap (A + 10) = 255 := hbytes (k := 10) (by omega)
      have h₁₁ : heap (A + 11) = 255 := hbytes (k := 11) (by omega)
      have h₁₂ : heap (A + 12) = 255 := hbytes (k := 12) (by omega)
      simp only [load, Nat.add_assoc, Nat.reduceAdd, h₉, h₁₀, h₁₁, h₁₂, UInt8.reduceToNat]
      omega
    have hfresh : (PgtblEntry.fresh.swapOff.setWidth 32).toNat = 2 ^ 32 - 1 := by decide
    apply BitVec.eq_of_toNat_eq
    rw [hfresh, ← hload, ← BitVec.toNat_ofNat]
    exact congrArg BitVec.toNat (BitVec.setWidth_ofNat_of_le (by decide) _)
  · have hload : load heap (A + 1 + 0) 4 % 2 ^ 24 = 0 := by
      have h₁ : heap (A + 1) = 0 := hbytes (k := 1) (by omega)
      have h₂ : heap (A + 2) = 0 := hbytes (k := 2) (by omega)
      have h₃ : heap (A + 3) = 0 := hbytes (k := 3) (by omega)
      simp only [load, Nat.add_assoc, Nat.reduceAdd, Nat.add_zero, h₁, h₂, h₃, UInt8.reduceToNat]
      omega
    have hfresh : (PgtblEntry.fresh.frame.setWidth 24).toNat = 0 := by decide
    apply BitVec.eq_of_toNat_eq
    rw [hfresh, ← hload, ← BitVec.toNat_ofNat]
    exact congrArg BitVec.toNat (BitVec.setWidth_ofNat_of_le (by decide) _)

theorem TableInv.initSecondLevel (h : TableInv m) (dir : Fin ptrsPerPgdir) {base : BitVec 64}
    (hbase : pageSize ∣ base.toNat) :
    TableInv (m.initSecondLevel dir base) ∧ (m.initSecondLevel dir base).pde dir ≠ 0 := by
  have htag := tagged_toNat hbase
  have hmask := pageMask_toNat (base ||| 1)
  have hpage : ((base ||| 1) &&& pageMask).toNat = base.toNat := by
    obtain ⟨k, hk⟩ := hbase
    have hk : base.toNat = 4096 * k := hk
    omega
  have hbase16 : base.toNat % 16 = 0 := by
    obtain ⟨k, hk⟩ := hbase
    have hk : base.toNat = 4096 * k := hk
    omega
  have hne : base ||| 1 ≠ 0 := by
    intro hzero
    rw [hzero] at htag
    exact absurd htag (by simp)
  have hpde : ∀ i, (m.initSecondLevel dir base).pde i = if i = dir then base ||| 1 else m.pde i :=
    fun i => Function.update_apply m.pde dir _ i
  have hheap : (m.initSecondLevel dir base).heap = (List.range ptrsPerPgtbl).foldl
      (fun heap i => Machine.initEntry heap (base.toNat + sizeofEntry * i)) m.heap := by
    simp only [Machine.initSecondLevel]
  refine ⟨⟨fun i hi => ?_, fun i hi j hj => ?_, fun k q hq => ?_⟩, ?_⟩
  · rw [hpde] at hi ⊢
    split
    · rw [hpage, htag]
    · rename_i hi'
      rw [if_neg hi'] at hi
      exact h.tagged i hi
  · rw [hpde] at hi ⊢
    rw [hheap]
    split
    · rw [hpage]
      refine initTable_first m.heap hbase16 ptrsPerPgtbl ?_ (Or.inr ⟨j, hj, rfl⟩)
      unfold sizeofEntry
      omega
    · rename_i hi'
      rw [if_neg hi'] at hi
      have hmaski := pageMask_toNat (m.pde i)
      refine initTable_first m.heap hbase16 ptrsPerPgtbl ?_ (Or.inl (h.zero i hi j hj))
      unfold sizeofEntry
      omega
  · rw [hpde]
    split
    · exact hne
    · exact h.linked k q hq
  · rw [hpde, if_pos rfl]
    exact hne

/-- The entry of a valid page, up to `PG_REF`. -/
theorem and_pgValid_congr {w w' : BitVec 32} (h : w' &&& ~~~pgRef = w &&& ~~~pgRef) :
    w' &&& pgValid = w &&& pgValid := by
  have hbit : ~~~pgRef &&& pgValid = pgValid := by decide
  rw [← hbit, ← BitVec.and_assoc, ← BitVec.and_assoc, h]

theorem or_pgValid_ne {w flags : BitVec 32} (h : w &&& pgValid ≠ 0) :
    (w ||| flags) &&& pgValid ≠ 0 := by
  intro hzero
  rw [BitVec.and_or_distrib_right] at hzero
  exact h (BitVec.or_eq_zero_iff.1 hzero).1

theorem or_pgValid_self (w : BitVec 32) : (w ||| pgValid) &&& pgValid ≠ 0 := by
  rw [BitVec.or_comm]
  exact or_pgValid_ne (by decide)

/-- **One reference** keeps the zero bytes, and leaves its page valid. -/
theorem TableInv.findPhyspage (h : TableInv m) (hok : pol.Ok memsize) {io : Io}
    {base vaddr : BitVec 64} {type : Char} {ptr : BitVec 32} (hbase : pageSize ∣ base.toNat)
    (hfind : m.findPhyspage pol memsize io base vaddr type = some (ptr, m')) :
    TableInv m' ∧ ∃ p, m'.pde p.1 ≠ 0 ∧ (m'.entry p).frame &&& pgValid ≠ 0 := by
  unfold Machine.findPhyspage at hfind
  split at hfind
  · cases hfind
  rename_i dir hdir
  obtain ⟨m₁, hm₁, hinv₁, hp₁⟩ : ∃ m₁, (if m.pde dir = 0 then m.initSecondLevel dir base else m) =
      m₁ ∧ TableInv m₁ ∧ m₁.pde dir ≠ 0 := by
    split
    · exact ⟨_, rfl, h.initSecondLevel dir hbase⟩
    · rename_i hne
      exact ⟨_, rfl, h, hne⟩
  rw [hm₁] at hfind
  dsimp only at hfind
  split at hfind
  · cases hfind
  rename_i m₂ hm₂
  obtain ⟨s, href, heq⟩ := Option.map_eq_some_iff.1 hfind
  obtain ⟨-, rfl⟩ := Prod.mk.inj heq
  have hkept : TableKept m₁ m₂ := by
    split at hm₂
    · have hcount : TableInv { ({ m₁ with counters := m₁.counters.countRef }.touch
          (dir, pgtblIndex vaddr) .frame) with
        counters := m₁.counters.countRef.countMiss } := ⟨hinv₁.tagged, hinv₁.zero, hinv₁.linked⟩
      obtain ⟨hinv₂, hpde₂⟩ := hcount.loadPage (p := (dir, pgtblIndex vaddr)) hok hp₁ hm₂
      exact ⟨hinv₂, hpde₂⟩
    · obtain rfl := Option.some.inj hm₂
      exact ⟨⟨hinv₁.tagged, hinv₁.zero, hinv₁.linked⟩, rfl⟩
  generalize hp : ((dir, pgtblIndex vaddr) : Ptr) = p at *
  have hp₂ : m₂.pde p.1 ≠ 0 := by
    rw [hkept.pde, ← hp]
    exact hp₁
  -- the word that is stored last has the bit
  obtain ⟨m₃, hm₃, hinv₃, hp₃, hvalid₃⟩ : ∃ m₃, (if Writes type then
      ((m₂.orFrame p pgValid).orFrame p pgRef).orFrame p pgDirty else
      (m₂.orFrame p pgValid).orFrame p pgRef) = m₃ ∧ TableInv m₃ ∧ m₃.pde p.1 ≠ 0 ∧
      (m₃.entry p).frame &&& pgValid ≠ 0 := by
    have hvalid : ((m₂.orFrame p pgValid).entry p).frame &&& pgValid ≠ 0 := by
      rw [Machine.orFrame, entry_setFrame]
      exact or_pgValid_self _
    have href : (((m₂.orFrame p pgValid).orFrame p pgRef).entry p).frame &&& pgValid ≠ 0 := by
      rw [Machine.orFrame, entry_setFrame]
      exact or_pgValid_ne hvalid
    have hinv := (hkept.inv.orFrame hp₂ pgValid).orFrame (p := p) hp₂ pgRef
    split
    · refine ⟨_, rfl, hinv.orFrame hp₂ pgDirty, hp₂, ?_⟩
      rw [Machine.orFrame, entry_setFrame]
      exact or_pgValid_ne href
    · exact ⟨_, rfl, hinv, hp₂, href⟩
  rw [hm₃] at href ⊢
  obtain ⟨hinv, hpde, -, hframes⟩ := hinv₃.absorb (hok.ref href) memsize
  refine ⟨hinv, p, by rw [hpde]; exact hp₃, ?_⟩
  rw [and_pgValid_congr (hframes p hp₃)]
  exact hvalid₃

/-- An access. -/
theorem TableInv.step {r : TableReference} (h : TableInv m) (hok : pol.Ok memsize)
    (hstep : m.step pol memsize r m') :
    TableInv m' ∧ ∃ p, m'.pde p.1 ≠ 0 ∧ (m'.entry p).frame &&& pgValid ≠ 0 := by
  obtain ⟨ok, hacc⟩ := hstep
  obtain ⟨⟨ptr, m₁⟩, hfind, heq⟩ := Option.map_eq_some_iff.1 hacc
  obtain ⟨hinv, p, hp, hvalid⟩ := h.findPhyspage hok r.aligned hfind
  dsimp only at heq
  split at heq
  · obtain ⟨-, rfl⟩ := Prod.mk.inj heq
    exact ⟨⟨hinv.tagged, hinv.zero, hinv.linked⟩, p, hp, hvalid⟩
  · obtain ⟨-, rfl⟩ := Prod.mk.inj heq
    exact ⟨hinv, p, hp, hvalid⟩

section start

variable {swapsize : BitVec 32} {physmem file heap : Mem} {policy : σ} {m₀ : Machine σ}

theorem start_pde (hs₀ : Machine.start swapsize physmem file heap policy = some m₀)
    (i : Fin ptrsPerPgdir) : m₀.pde i = 0 := by
  obtain ⟨swap, -, rfl⟩ := Option.map_eq_some_iff.1 hs₀
  rfl

theorem start_log (hs₀ : Machine.start swapsize physmem file heap policy = some m₀) :
    m₀.log = [] := by
  obtain ⟨swap, -, rfl⟩ := Option.map_eq_some_iff.1 hs₀
  rfl

theorem start_tables (hs₀ : Machine.start swapsize physmem file heap policy = some m₀) :
    TableInv m₀ := by
  have hpde := start_pde hs₀
  obtain ⟨swap, -, rfl⟩ := Option.map_eq_some_iff.1 hs₀
  refine ⟨fun i hi => absurd (hpde i) hi, fun i hi => absurd (hpde i) hi, fun k q hq => ?_⟩
  cases hq

/-! ## What the dump shows -/

/-- The dump has a line that says `VALID, in frame f` for the entry `[i][j]`. -/
def ReportsValid (m : Machine σ) (p : Ptr) (f : ℕ) : Prop :=
  ∃ pgtbl lines dirty frame, .table p.1 pgtbl lines ∈ printPagedirectory m ∧
    .valid p.2 dirty frame ∈ lines ∧ frame.toNat = f

/-- The dump has a line that says `ONSWAP, at offset o` for the entry `[i][j]`. -/
def ReportsOnswap (m : Machine σ) (p : Ptr) (o : BitVec 64) : Prop :=
  ∃ pgtbl lines, .table p.1 pgtbl lines ∈ printPagedirectory m ∧ .onswap p.2 o ∈ lines

/-- The bytes of a field lie in the table that `init_second_level` allocated. -/
def Inside (m : Machine σ) (p : Ptr) (field : Field) : Prop :=
  (m.pde p.1 &&& pageMask).toNat ≤ m.addr p + field.offset ∧
    m.addr p + field.offset + field.size ≤
      (m.pde p.1 &&& pageMask).toNat + ptrsPerPgtbl * sizeofEntry

/-- The dump shows what `find_physpage` left in the entries, and all accesses were inside of their
tables. -/
structure Dumped (m : Machine σ) : Prop where
  valid : ∀ p f, ReportsValid m p f ↔
    (m.view.entry p).page.valid = true ∧ (m.view.entry p).page.frame = f
  onswap : ∀ p o, ReportsOnswap m p o ↔
    (m.view.entry p).page.valid = false ∧ (m.view.entry p).page.onswap = true ∧
      (m.view.entry p).page.swapOff = o
  inside : ∀ p field, (p, field) ∈ m.log → Inside m p field

/-- The lines for a table whose entries are all invalid. -/
theorem printEntries_invalid {pgtbl : ℕ → PgtblEntry} {is : List ℕ}
    (h : ∀ i ∈ is, (pgtbl i).frame &&& pgValid = 0 ∧ (pgtbl i).frame &&& pgOnswap = 0)
    (range : Option (ℕ × ℕ)) :
    ∀ line ∈ printEntries pgtbl is range, ∃ first last, line = .invalid first last := by
  induction is generalizing range with
  | nil =>
    intro line hline
    obtain ⟨r, -, rfl⟩ := List.mem_map.1 hline
    exact ⟨r.1, r.2, rfl⟩
  | cons i is ih =>
    rw [printEntries, if_pos (h i List.mem_cons_self)]
    exact ih (fun i hi => h i (List.mem_cons_of_mem _ hi)) _

/-- The tables that are printed, and their lines. -/
theorem table_mem_printDirs {is : List (Fin ptrsPerPgdir)} {range : Option (ℕ × ℕ)} {i : ℕ}
    {pgtbl : BitVec 64} {lines : List TableLine}
    (h : DirLine.table i pgtbl lines ∈ printDirs m is range) :
    ∃ dir, m.pde dir ≠ 0 ∧ pgtbl = m.pde dir &&& pageMask ∧ lines = printPagetbl m.heap pgtbl := by
  induction is generalizing range with
  | nil => cases h
  | cons dir is ih =>
    unfold printDirs at h
    split at h
    · exact ih h
    · rename_i hvalid
      obtain h | h := List.mem_append.1 h
      · obtain ⟨r, -, heq⟩ := List.mem_map.1 h
        cases heq
      obtain h | h := List.mem_cons.1 h
      · obtain ⟨-, hpgtbl, hlines⟩ := DirLine.table.inj h
        refine ⟨dir, fun hzero => hvalid ?_, hpgtbl, ?_⟩
        · rw [hzero]
          rfl
        · rw [hlines, hpgtbl]
      · exact ih h

/-- All status bits are in the first byte. -/
theorem loadEntry_zero {heap : Mem} {a : ℕ} (h : heap a = 0) :
    (loadEntry heap a).frame &&& pgValid = 0 ∧ (loadEntry heap a).frame &&& pgOnswap = 0 := by
  have hbit : ∀ i < 8, (loadEntry heap a).frame.getLsbD i = false := by
    intro i hi
    show (BitVec.ofNat 32 ((heap a).toNat + 256 * load heap (a + 1) 3)).getLsbD i = false
    have hzero : (heap a).toNat + 256 * load heap (a + 1) 3 = 2 ^ 8 * load heap (a + 1) 3 := by
      rw [h]
      exact Nat.zero_add _
    rw [hzero, BitVec.getLsbD_ofNat, Nat.testBit_two_pow_mul]
    simp [hi]
  exact ⟨(and_twoPow_eq_zero _ (by decide)).2 (hbit 0 (by decide)),
    (and_twoPow_eq_zero _ (by decide)).2 (hbit 3 (by decide))⟩

/-- **The dump shows nothing.** -/
theorem TableInv.dump (h : TableInv m) {i : ℕ} {pgtbl : BitVec 64} {lines : List TableLine}
    (hprint : DirLine.table i pgtbl lines ∈ printPagedirectory m) :
    ∀ line ∈ lines, ∃ first last, line = .invalid first last := by
  obtain ⟨dir, hdir, hpgtbl, hlines⟩ := table_mem_printDirs hprint
  rw [hlines, hpgtbl]
  unfold printPagetbl
  refine printEntries_invalid (fun j hj => ?_) none
  exact loadEntry_zero (h.zero dir hdir j (List.mem_range.1 hj))

theorem TableInv.not_reportsValid (h : TableInv m) (p : Ptr) (f : ℕ) : ¬ ReportsValid m p f := by
  rintro ⟨pgtbl, lines, dirty, frame, hprint, hline, -⟩
  obtain ⟨first, last, heq⟩ := h.dump hprint _ hline
  cases heq

theorem TableInv.not_reportsOnswap (h : TableInv m) (p : Ptr) (o : BitVec 64) :
    ¬ ReportsOnswap m p o := by
  rintro ⟨pgtbl, lines, hprint, hline⟩
  obtain ⟨first, last, heq⟩ := h.dump hprint _ hline
  cases heq

/-- **Which accesses are outside:** the last entry's `swap_off`. -/
theorem TableInv.inside_iff (h : TableInv m) (hp : m.pde p.1 ≠ 0) (field : Field) :
    Inside m p field ↔ ¬ (field = .swapOff ∧ p.2.val = 4095) := by
  have htag := h.tagged p.1 hp
  have hlt : p.2.val < 4096 := p.2.isLt
  have hcount : ptrsPerPgtbl = 4096 := rfl
  unfold Inside Machine.addr
  cases field with
  | frame =>
    simp only [Field.offset, Field.size, sizeofEntry, hcount, reduceCtorEq, false_and,
      not_false_eq_true, iff_true]
    omega
  | swapOff =>
    simp only [Field.offset, Field.size, sizeofEntry, hcount, true_and]
    omega

/-- **In every run** the printed entries begin with a zero byte, so that none of them is `VALID` or
`ONSWAP` (`not_reportsValid`, `not_reportsOnswap`). -/
theorem dump_run (hok : pol.Ok memsize)
    (hs₀ : Machine.start swapsize physmem file heap policy = some m₀)
    {h : List (Lts.Transition (Machine σ) TableReference)}
    (hrun : Lts.Run (Machine.step pol memsize) m₀ h m) : TableInv m :=
  hrun.invariant (start_tables hs₀) fun _ _ _ hinv hst => (hinv.step hok hst).1

/-- An access leaves its page valid, and the dump does not show it. -/
theorem TableInv.not_dumped {r : TableReference} (h : TableInv m) (hok : pol.Ok memsize)
    (hstep : m.step pol memsize r m') : ¬ Dumped m' := by
  intro hdump
  obtain ⟨hinv, p, hp, hvalid⟩ := h.step hok hstep
  refine hinv.not_reportsValid p _ ((hdump.valid p _).2 ⟨?_, rfl⟩)
  rw [view_entry hp]
  exact Bool.eq_true_of_not_eq_false (mt and_pgValid.2 hvalid)

/-- **The dump shows what was simulated** if and only if no access was made. -/
theorem dump_iff (hok : pol.Ok memsize)
    (hs₀ : Machine.start swapsize physmem file heap policy = some m₀)
    {h : List (Lts.Transition (Machine σ) TableReference)}
    (hrun : Lts.Run (Machine.step pol memsize) m₀ h m) : Dumped m ↔ h = [] := by
  constructor
  · intro hdump
    cases hrun with
    | nil => rfl
    | @snoc h s m r hrun hstep =>
      exact absurd hdump ((dump_run hok hs₀ hrun).not_dumped hok hstep)
  · rintro rfl
    cases hrun
    have hinv := start_tables hs₀
    have hentry : ∀ p, m.view.entry p = .fresh := by
      intro p
      show (if m.pde p.1 = 0 then none else some fun j => m.entry (p.1, j)).getD
        initSecondLevel p.2 = _
      rw [if_pos (start_pde hs₀ p.1)]
      rfl
    refine ⟨fun p f => ?_, fun p o => ?_, fun p field hlog => ?_⟩
    · rw [hentry]
      exact iff_of_false (hinv.not_reportsValid p f) (by simp)
    · rw [hentry]
      exact iff_of_false (hinv.not_reportsOnswap p o) (by simp)
    · rw [start_log hs₀] at hlog
      cases hlog

end start

/-! ## One load -/

/-- While a frame is free, `find_physpage` returns. -/
theorem findPhyspage_isSome (hfree : (m.coremap 0).inUse = false) (hpos : 1 ≤ memsize)
    (href : ∀ p s, (pol.ref p s).isSome) {vaddr : BitVec 64} {dir : Fin ptrsPerPgdir}
    (hdir : dirOf vaddr = some dir) (io : Io) (base : BitVec 64) (type : Char) :
    (m.findPhyspage pol memsize io base vaddr type).isSome := by
  have hload : ∀ m₁ : Machine σ, m₁.coremap = m.coremap → ∀ p,
      m₁.loadPage pol memsize io vaddr p ≠ none := by
    intro m₁ hcoremap p
    have hfind : ((List.range memsize).find? fun i => !(m₁.coremap i).inUse) = some 0 := by
      obtain ⟨n, rfl⟩ := Nat.exists_eq_succ_of_ne_zero (Nat.ne_of_gt hpos)
      rw [hcoremap, List.range_succ_eq_map, List.find?_cons_of_pos (by rw [hfree]; rfl)]
    have halloc : m₁.allocateFrame pol memsize io.pageout p = some (0, m₁.claim 0 p) := by
      unfold Machine.allocateFrame
      rw [hfind]
    unfold Machine.loadPage
    rw [halloc]
    dsimp only
    rw [if_neg]
    · exact Option.some_ne_none _
    · rw [entry_setFrame]
      decide
  unfold Machine.findPhyspage
  rw [hdir]
  dsimp only
  generalize hm₁ : (if m.pde dir = 0 then m.initSecondLevel dir base else m) = m₁
  have hcoremap : m₁.coremap = m.coremap := by
    rw [← hm₁]
    split <;> rfl
  split
  · rename_i hnone
    split at hnone
    · refine absurd hnone (hload _ ?_ _)
      exact hcoremap
    · cases hnone
  · rw [Option.isSome_map]
    exact href _ _

/-- A load from page 1, whose table is at 4096. -/
def exTableLoad : TableReference := ⟨⟨'L', 0x1000, Io.whole⟩, 0x1000, by decide⟩

/-- A machine with four slots of swap and all memory zero. -/
def exMachine : Machine (Fin 1) where
  pde _ := 0
  heap _ := 0
  coremap _ := ⟨false, none⟩
  physmem _ := 0
  swap := (exStart (0 : Fin 1)).swap
  counters := ⟨0, 0, 0, 0, 0⟩
  policy := 0
  log := []

theorem exMachine_start :
    Machine.start 4 (fun _ => 0) (fun _ => 0) (fun _ => 0) 0 = some exMachine := rfl

theorem exTableLoad_step : ∃ m, exMachine.step (fifo 1) 1 exTableLoad m := by
  have hdir : dirOf exTableLoad.vaddr = some ⟨0, by decide⟩ := by decide
  have hfind : (exMachine.findPhyspage (fifo 1) 1 exTableLoad.io exTableLoad.base exTableLoad.vaddr
      exTableLoad.type).isSome :=
    findPhyspage_isSome rfl le_rfl (fun _ _ => rfl) hdir _ _ _
  obtain ⟨r, hr⟩ := Option.isSome_iff_exists.1 hfind
  exact ⟨_, _, congrArg (Option.map _) hr⟩

/-- After one load the dump shows no page. -/
theorem dump_iff_load : ∃ h m, Lts.Run (Machine.step (fifo 1) 1) exMachine h m ∧ h.length = 1 ∧
    ¬ Dumped m := by
  obtain ⟨m, hstep⟩ := exTableLoad_step
  have hrun : Lts.Run (Machine.step (fifo 1) 1) exMachine [⟨exMachine, exTableLoad, m⟩] m :=
    .snoc .nil hstep
  exact ⟨_, m, hrun, rfl,
    fun hdumped => List.cons_ne_nil _ _ ((dump_iff (fifo_ok 1) exMachine_start hrun).1 hdumped)⟩

theorem load_not_dumped : ∃ m, exMachine.step (fifo 1) 1 exTableLoad m ∧ ¬ Dumped m := by
  obtain ⟨m, hstep⟩ := exTableLoad_step
  exact ⟨m, hstep, (start_tables exMachine_start).not_dumped (fifo_ok 1) hstep⟩

end Cscc69.Paging
