import Cscc69.Lib.Runs
import Cscc69.Paging.Swap

/-!
# The simulator

`find_physpage` and the functions around it, over the whole of the simulator's memory. The
replacement policy is a parameter: it keeps data of its own, of any type, and may fail to return.
`Policy.Ok` is what the simulator relies on: a victim's number is below `memsize`, and what the
policies change besides their own data is the reference bit of page-table entries.

`access_mem` is the step of the system. A trace is a run of it, each reference taking the answers
that the system gives to the swap file's two transfers.
-/

namespace Cscc69.Paging

open Bytes

variable {σ : Type*}

/-! ## State -/

/-- One element of `coremap`; the policies' own data is kept apart. -/
structure Frame where
  inUse : Bool
  pte : Option Ptr

structure Counters where
  hit : BitVec 32
  miss : BitVec 32
  ref : BitVec 32
  evictClean : BitVec 32
  evictDirty : BitVec 32

structure Sim (σ : Type*) where
  pgdir : Fin ptrsPerPgdir → Option (Fin ptrsPerPgtbl → PgtblEntry)
  coremap : ℕ → Frame
  physmem : Mem
  swap : Swap
  counters : Counters
  /-- the policy's own data -/
  policy : σ

/-- A second-level table with all entries invalid. -/
def initSecondLevel : Fin ptrsPerPgtbl → PgtblEntry := fun _ => .fresh

/-- The entry that `p` points to. No pointer into a table that is not there is ever made; such an
entry reads as `init_second_level` would make it. -/
def Sim.entry (s : Sim σ) (p : Ptr) : PgtblEntry := (s.pgdir p.1).getD initSecondLevel p.2

def Sim.setEntry (s : Sim σ) (p : Ptr) (e : PgtblEntry) : Sim σ :=
  { s with
    pgdir := Function.update s.pgdir p.1
      (some (Function.update ((s.pgdir p.1).getD initSecondLevel) p.2 e)) }

/-- Put `w` in the frame word of an entry. -/
def Sim.setFrame (s : Sim σ) (p : Ptr) (w : BitVec 32) : Sim σ :=
  s.setEntry p { s.entry p with frame := w }

/-- `pte->frame |= flags` -/
def Sim.orFrame (s : Sim σ) (p : Ptr) (flags : BitVec 32) : Sim σ :=
  s.setFrame p ((s.entry p).frame ||| flags)

structure Policy (σ : Type*) where
  evict : Sim σ → Option (ℕ × Sim σ)
  ref : Ptr → Sim σ → Option (Sim σ)

/-! ## The functions of the program -/

def Counters.countRef (c : Counters) : Counters := { c with ref := c.ref + 1 }
def Counters.countHit (c : Counters) : Counters := { c with hit := c.hit + 1 }
def Counters.countMiss (c : Counters) : Counters := { c with miss := c.miss + 1 }
def Counters.countClean (c : Counters) : Counters := { c with evictClean := c.evictClean + 1 }
def Counters.countDirty (c : Counters) : Counters := { c with evictDirty := c.evictDirty + 1 }

/-- Take `frame` for the page of `p`. -/
def Sim.claim (s : Sim σ) (frame : ℕ) (p : Ptr) : Sim σ :=
  { s with coremap := Function.update s.coremap frame ⟨true, some p⟩ }

/-- The eviction of `allocate_frame`: write the victim to swap, if needed, and make its page
invalid. -/
def evictFrame (io : Transfer) (frame : ℕ) (bye : Ptr) (s : Sim σ) : Option (Sim σ) :=
  if (s.entry bye).frame &&& pgDirty = 0 then
    let s := { s with counters := s.counters.countClean }
    some (s.setFrame bye ((s.entry bye).frame &&& ~~~pgValid))
  else
    let s := { s with counters := s.counters.countDirty }
    match swapPageout io s.physmem frame ((s.entry bye).swapOff.setWidth 32) s.swap with
    | none => none
    | some (offset, swap) =>
      let s := { s with swap := swap }
      let s :=
        if offset ≠ invalidSwap then
          let s := s.orFrame bye pgOnswap
          s.setEntry bye { s.entry bye with swapOff := offset.signExtend 64 }
        else s
      some (s.setFrame bye ((s.entry bye).frame &&& ~~~pgValid))

def allocateFrame (pol : Policy σ) (memsize : ℕ) (io : Transfer) (p : Ptr) (s : Sim σ) :
    Option (ℕ × Sim σ) :=
  match (List.range memsize).find? fun i => !(s.coremap i).inUse with
  | some frame => some (frame, s.claim frame p)
  | none =>
    match pol.evict s with
    | none => none
    | some (frame, s) =>
      match (s.coremap frame).pte with
      | none => none
      | some bye => (evictFrame io frame bye s).map fun s => (frame, s.claim frame p)

/-- Zero-fill a frame and record the address in it. -/
def initFrame (frame : ℕ) (vaddr : BitVec 64) (physmem : Mem) : Mem :=
  store (fill physmem (frame * simpagesize) simpagesize 0) (frame * simpagesize + 4) 8 vaddr.toNat

/-- The system's answers while one reference is served. -/
structure Io where
  pageout : Transfer
  pagein : Transfer

/-- The miss of `find_physpage`. -/
def loadPage (pol : Policy σ) (memsize : ℕ) (io : Io) (vaddr : BitVec 64) (p : Ptr)
    (s : Sim σ) : Option (Sim σ) :=
  match allocateFrame pol memsize io.pageout p s with
  | none => none
  | some (frame, s) =>
    let s := s.setFrame p (frameWord (BitVec.ofNat 32 frame))
    -- the word just written has no `PG_ONSWAP`, whatever the entry said before
    if (s.entry p).frame &&& pgOnswap ≠ 0 then
      (swapPagein io.pagein s.swap frame ((s.entry p).swapOff.setWidth 32) s.physmem).map
        fun (_, physmem) => { s with physmem := physmem }
    else some { s with physmem := initFrame frame vaddr s.physmem }

/-- Whether an access writes to its page. -/
def Writes (type : Char) : Prop := type = 'M' ∨ type = 'S'

instance (type : Char) : Decidable (Writes type) := by unfold Writes; infer_instance

/-- The byte of `physmem` that the returned pointer points to, and the new state. -/
def findPhyspage (pol : Policy σ) (memsize : ℕ) (io : Io) (vaddr : BitVec 64) (type : Char)
    (s : Sim σ) : Option (BitVec 32 × Sim σ) :=
  match dirOf vaddr with
  | none => none
  | some dir =>
    let s := if (s.pgdir dir).isNone then
        { s with pgdir := Function.update s.pgdir dir (some initSecondLevel) }
      else s
    let p : Ptr := (dir, pgtblIndex vaddr)
    let s := { s with counters := s.counters.countRef }
    let found :=
      if (s.entry p).frame &&& pgValid = 0 then
        loadPage pol memsize io vaddr p { s with counters := s.counters.countMiss }
      else some { s with counters := s.counters.countHit }
    match found with
    | none => none
    | some s =>
      let s := s.orFrame p pgValid
      let s := s.orFrame p pgRef
      let s := if Writes type then s.orFrame p pgDirty else s
      (pol.ref p s).map fun s : Sim σ =>
        ((s.entry p).frame >>> pageShift * BitVec.ofNat 32 simpagesize, s)

/-- The version counter of the frame that begins at `ptr`. -/
def version (physmem : Mem) (ptr : BitVec 32) : ℕ := load physmem ptr.toNat 4

/-- One access: whether the address check passes, and the new state. -/
def accessMem (pol : Policy σ) (memsize : ℕ) (io : Io) (type : Char) (vaddr : BitVec 64)
    (s : Sim σ) : Option (Bool × Sim σ) :=
  (findPhyspage pol memsize io vaddr type s).map fun (memptr, s) =>
    let ok := decide (load s.physmem (memptr.toNat + 4) 8 = vaddr.toNat)
    if Writes type then
      (ok, { s with
        physmem := store s.physmem memptr.toNat 4 (version s.physmem memptr + 1) })
    else (ok, s)

/-! ## Policies -/

/-- `s'` is `s` but for the policy's own data and the reference bits of page-table entries. -/
structure OnlyRef (s s' : Sim σ) : Prop where
  tables : ∀ d, (s'.pgdir d).isSome = (s.pgdir d).isSome
  frame : ∀ p, (s'.entry p).frame &&& ~~~pgRef = (s.entry p).frame &&& ~~~pgRef
  swapOff : ∀ p, (s'.entry p).swapOff = (s.entry p).swapOff
  coremap : s'.coremap = s.coremap
  physmem : s'.physmem = s.physmem
  swap : s'.swap = s.swap
  counters : s'.counters = s.counters

structure Policy.Ok (pol : Policy σ) (memsize : ℕ) : Prop where
  evict_lt : ∀ {s s' frame}, pol.evict s = some (frame, s') → frame < memsize
  evict : ∀ {s s' frame}, pol.evict s = some (frame, s') → OnlyRef s s'
  ref : ∀ {s s' p}, pol.ref p s = some s' → OnlyRef s s'

/-! ## Runs -/

/-- One record of the trace, with the system's answers while it is served. -/
structure Reference where
  type : Char
  vaddr : BitVec 64
  io : Io

def step (pol : Policy σ) (memsize : ℕ) (s : Sim σ) (r : Reference) (s' : Sim σ) : Prop :=
  ∃ ok, accessMem pol memsize r.io r.type r.vaddr s = some (ok, s')

/-- The simulator before the trace: no table, no frame in use, and a swap file of `swapsize`
slots. What `malloc` returns for `physmem` may hold anything. -/
def start (swapsize : BitVec 32) (physmem file : Mem) (policy : σ) : Option (Sim σ) :=
  (swapInit swapsize file).map fun swap =>
    { pgdir := fun _ => none
      coremap := fun _ => ⟨false, none⟩
      physmem := physmem
      swap := swap
      counters := ⟨0, 0, 0, 0, 0⟩
      policy := policy }

/-- The transitions `h`, newest first, lead from the start of the program to `s`. -/
def Run (pol : Policy σ) (memsize : ℕ) (h : List (Lts.Transition (Sim σ) Reference))
    (s : Sim σ) : Prop :=
  ∃ swapsize physmem file policy s₀, start swapsize physmem file policy = some s₀ ∧
    Lts.Run (step pol memsize) s₀ h s

/-- The references of a trace, one after the other. -/
def replay (pol : Policy σ) (memsize : ℕ) : List Reference → Sim σ → Option (Sim σ)
  | [], s => some s
  | r :: rs, s =>
    match accessMem pol memsize r.io r.type r.vaddr s with
    | none => none
    | some (_, s) => replay pol memsize rs s

theorem replay_append (pol : Policy σ) (memsize : ℕ) (rs : List Reference)
    (r : Reference) (s₀ : Sim σ) : replay pol memsize (rs ++ [r]) s₀ =
      (replay pol memsize rs s₀).bind fun s =>
        (accessMem pol memsize r.io r.type r.vaddr s).map Prod.snd := by
  induction rs generalizing s₀ with
  | nil =>
    simp only [List.nil_append, replay, Option.bind_some]
    cases accessMem pol memsize r.io r.type r.vaddr s₀ with
    | none => rfl
    | some _ => rfl
  | cons r' rs ih =>
    simp only [List.cons_append, replay]
    cases accessMem pol memsize r'.io r'.type r'.vaddr s₀ with
    | none => rfl
    | some t => exact ih t.2

/-- Replaying a trace takes one transition for each reference. -/
theorem replay_reaches {pol : Policy σ} {memsize : ℕ} {rs : List Reference} {s₀ s : Sim σ}
    (h : replay pol memsize rs s₀ = some s) :
    ∃ ts, Lts.Run (step pol memsize) s₀ ts s ∧ (ts.map (·.event)).reverse = rs := by
  induction rs generalizing s₀ with
  | nil =>
    obtain rfl := Option.some.inj h
    exact ⟨[], .nil, rfl⟩
  | cons r rs ih =>
    unfold replay at h
    split at h
    · cases h
    · rename_i ok s₁ hacc
      obtain ⟨ts, hr, heq⟩ := ih h
      have hfirst : Lts.Run (step pol memsize) s₀ [⟨s₀, r, s₁⟩] s₁ := .snoc .nil ⟨ok, hacc⟩
      exact ⟨_, hfirst.append hr, by simp [heq]⟩

/-- A trace that is replayed to its end from the start is a run of the program. -/
theorem replay_run {pol : Policy σ} {memsize : ℕ} {swapsize : BitVec 32} {physmem file : Mem}
    {policy : σ} {s₀ s : Sim σ} (hs₀ : start swapsize physmem file policy = some s₀)
    {rs : List Reference} (h : replay pol memsize rs s₀ = some s) :
    ∃ ts, Run pol memsize ts s ∧ (ts.map (·.event)).reverse = rs := by
  obtain ⟨ts, hr, heq⟩ := replay_reaches h
  exact ⟨ts, ⟨swapsize, physmem, file, policy, s₀, hs₀, hr⟩, heq⟩

end Cscc69.Paging
