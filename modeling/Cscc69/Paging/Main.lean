import Cscc69.Paging.Misses
import Cscc69.Paging.Sizes
import Cscc69.Paging.TraceFile

/-!
# The whole simulator

`main` from its options to the counters that it prints. The options come as `getopt` returns them,
one after the other; what the rest of the system decides is in an `Environment`.

`main_report` says what a run on a trace file ends with, under every algorithm but lru: it exits
with 0, and the counters that it prints fit the file.
-/

namespace Cscc69.Paging

open CText

/-! ## Options -/

/-- The variables that `main` sets from its arguments. -/
structure Options where
  tracefile : Option (List UInt8)
  memsize : BitVec 32
  replacementAlg : Option (List UInt8)
  swapsize : BitVec 32
  deriving DecidableEq

def Options.initial : Options := ⟨none, 0, none, 4096⟩

/-- One pass of the loop over the options, unless it exits. -/
def setOption (o : Options) : UInt8 × List UInt8 → Option Options
  | (102, optarg) => some { o with tracefile := some optarg }
  | (109, optarg) => some { o with memsize := optionSize optarg }
  | (97, optarg) => some { o with replacementAlg := some optarg }
  | (115, optarg) => some { o with swapsize := optionSize optarg }
  | _ => none

/-! ## The rest of the system -/

structure Environment where
  fopen : List UInt8 → Option (List UInt8)
  stdin : List UInt8
  /-- what `malloc` returns for `physmem` -/
  physmem : Bytes.Mem
  /-- what reads beyond the end of the swap file find -/
  swapfile : Bytes.Mem
  /-- the transfers during each reference -/
  io : ℕ → Io
  /-- `type` of `replay_trace`, which is not initialised -/
  type : UInt8
  /-- the numbers that `random` returns -/
  random : ℕ → ℕ
  malloc : DList.Malloc ℕ
  heap : DList.Heap ℕ
  /-- what `malloc` returns for the items of opt, and for their table -/
  junk : ℕ → TraceItem
  table : ℕ → BitVec 64
  /-- a bound on the recursion of clock and on the loops of lru -/
  fuel : ℕ

/-- `algs[i].init`. Lru, fifo and clock store to the first frame of the coremap, which there is not
for `memsize` 0. Opt opens the trace again, by its name. -/
def Alg.init (env : Environment) (memsize : ℕ) (tracefile : Option (List UInt8)) :
    (alg : Alg) → Option (alg.Data memsize)
  | rand => some env.random
  | lru => if 0 < memsize then some (lruInit env.heap) else none
  | fifo => if h : 0 < memsize then some (fifoInit h) else none
  | clock => if 0 < memsize then some clockInit else none
  | opt => (tracefile.bind env.fopen).map (optInit env.junk env.table)

/-- The references of a trace, with the transfers of each. -/
def referencesOf (io : ℕ → Io) (records : List (UInt8 × BitVec 64)) : List Reference :=
  records.zipIdx.map fun r => ⟨Char.ofNat r.1.1.toNat, r.1.2, io r.2⟩

/-! ## main -/

inductive Exit
  | usage
  | noTracefile
  | invalidAlgorithm (replacementAlg : List UInt8)
  /-- status 0, and the counters that are printed -/
  | report (counters : Counters)

/-- `none` stands for an assertion that fails and for what the C standard leaves undefined. -/
def main (env : Environment) (args : List (UInt8 × List UInt8)) : Option Exit :=
  match args.foldlM setOption Options.initial with
  | none => some .usage
  | some o =>
    match o.tracefile.elim (some env.stdin) env.fopen with
    | none => some .noTracefile
    | some tfp =>
      match swapInit o.swapsize env.swapfile with
      | none => none
      | some _ =>
        match o.replacementAlg with
        | none => some .usage
        | some name =>
          match findAlg name with
          | none => some (.invalidAlgorithm name)
          | some alg => do
            let memsize := o.memsize.toNat
            let policy ← alg.init env memsize o.tracefile
            let s ← start o.swapsize env.physmem env.swapfile policy
            let s ← replay (alg.policy env.malloc env.fuel memsize) memsize
              (referencesOf env.io (replayTrace env.type tfp)) s
            some (.report s.counters)

/-! ## What it prints -/

/-- The pages of the addresses. -/
def pageNumbers (records : List (UInt8 × BitVec 64)) : Finset ℕ :=
  (records.map fun r => r.2.toNat / 4096).toFinset

/-- The counters fit a trace. -/
structure FitsTrace (memsize : ℕ) (records : List (UInt8 × BitVec 64)) (c : Counters) : Prop where
  ref : c.ref.toNat = records.length
  hit_add_miss : c.hit.toNat + c.miss.toNat = records.length
  loads : (pageNumbers records).card ≤ c.miss.toNat
  evictions : c.evictClean.toNat + c.evictDirty.toNat + min memsize (pageNumbers records).card =
    c.miss.toNat
  room : (pageNumbers records).card ≤ memsize → c.miss.toNat = (pageNumbers records).card

section Records
variable {io : ℕ → Io} {records : List (UInt8 × BitVec 64)}

theorem vaddrs_referencesOf (io : ℕ → Io) (records : List (UInt8 × BitVec 64)) :
    (referencesOf io records).map (·.vaddr) = records.map (·.2) := by
  rw [referencesOf, List.map_map]
  exact (List.map_map (f := Prod.fst) (g := Prod.snd)).symm.trans
    (congrArg (List.map Prod.snd) (List.zipIdx_map_fst 0 records))

theorem length_referencesOf (io : ℕ → Io) (records : List (UInt8 × BitVec 64)) :
    (referencesOf io records).length = records.length := by
  rw [referencesOf, List.length_map, List.length_zipIdx]

theorem entries_referencesOf (hlow : ∀ r ∈ records, r.2.toNat < 2 ^ 36) :
    ∀ r ∈ referencesOf io records, (entryOf r.vaddr).isSome = true := by
  rw [← List.forall_mem_map (P := fun a => (entryOf a).isSome = true), vaddrs_referencesOf,
    List.forall_mem_map]
  exact fun r hr => Option.isSome_iff_exists.2 (entryOf_isSome (hlow r hr))

theorem map_some_pages (hlow : ∀ r ∈ records, r.2.toNat < 2 ^ 36) :
    (pages (referencesOf io records)).map some = records.map fun r => entryOf r.2 := by
  have hpages : pages (referencesOf io records) = records.filterMap fun r => entryOf r.2 := by
    have hmap : pages (referencesOf io records) =
        ((referencesOf io records).map (·.vaddr)).filterMap entryOf := by
      rw [List.filterMap_map]
      rfl
    rw [hmap, vaddrs_referencesOf, List.filterMap_map]
    rfl
  rw [hpages]
  clear hpages
  induction records with
  | nil => rfl
  | cons r records ih =>
    obtain ⟨hr, hlow⟩ := List.forall_mem_cons.1 hlow
    obtain ⟨p, hp⟩ := entryOf_isSome hr
    have hcons : (r :: records).filterMap (fun r => entryOf r.2) =
        p :: records.filterMap fun r => entryOf r.2 := List.filterMap_cons_some hp
    rw [hcons, List.map_cons, List.map_cons, ih hlow, hp]

/-- As many entries as pages. -/
theorem card_pages (hlow : ∀ r ∈ records, r.2.toNat < 2 ^ 36) :
    (pages (referencesOf io records)).toFinset.card = (pageNumbers records).card := by
  have hsome : ((pages (referencesOf io records)).map some).toFinset =
      (pages (referencesOf io records)).toFinset.map Function.Embedding.some := by
    ext p
    simp
  have hsame : ∀ r ∈ records, ∀ r' ∈ records,
      entryOf r.2 = entryOf r'.2 ↔ r.2.toNat / 4096 = r'.2.toNat / 4096 :=
    fun r hr r' hr' => entryOf_eq_iff (hlow r hr) (hlow r' hr')
  calc (pages (referencesOf io records)).toFinset.card
      = ((pages (referencesOf io records)).map some).toFinset.card := by
        rw [hsome, Finset.card_map]
    _ = (records.map fun r => entryOf r.2).toFinset.card := by rw [map_some_pages hlow]
    _ = (pageNumbers records).card := by
        rw [← Epochs.length_firsts, Epochs.firsts_congr hsame, Epochs.length_firsts]
        rfl

end Records

/-- **A run of the whole simulator**: on a trace file of up to `2 ^ 31` records below 64 GiB, under
any algorithm but lru, it exits with 0 and prints counters that fit the file. For opt the file has
no `=` lines, and no type that looks like the end of the file. -/
theorem main_report (env : Environment) {args : List (UInt8 × List UInt8)} {o : Options}
    (hargs : args.foldlM setOption Options.initial = some o) {alg : Alg}
    (hname : o.replacementAlg = some alg.name) (halg : alg ≠ .lru) {f : TraceFile}
    (hfile : ∃ name, o.tracefile = some name ∧ env.fopen name = some f.bytes)
    (hopt : alg = .opt → Plain f.lines ∧ ∀ r ∈ f.records, r.1 ≠ eofChar)
    (hlow : ∀ r ∈ f.records, r.2.toNat < 2 ^ 36) (hlen : f.records.length < 2 ^ 31)
    (hpos : 1 ≤ o.memsize.toNat) (hmem : o.memsize.toNat ≤ 2 ^ 19)
    (hfuel : o.memsize.toNat < env.fuel) (hswap : (swapInit o.swapsize env.swapfile).isSome) :
    ∃ c, main env args = some (.report c) ∧ FitsTrace o.memsize.toNat f.records c := by
  obtain ⟨name, htrace, hopen⟩ := hfile
  obtain ⟨swap, hswap⟩ := Option.isSome_iff_exists.1 hswap
  have hfind : findAlg alg.name = some alg := findAlg_eq_some.2 rfl
  have hrs : ∀ r ∈ referencesOf env.io f.records, (entryOf r.vaddr).isSome = true :=
    entries_referencesOf hlow
  -- the policy's data, which opt reads from the file
  obtain ⟨policy, hinit, hready⟩ : ∃ policy,
      alg.init env o.memsize.toNat o.tracefile = some policy ∧
        alg.Ready (referencesOf env.io f.records) policy := by
    cases alg with
    | rand => exact ⟨_, rfl, trivial⟩
    | lru => exact absurd rfl halg
    | fifo => exact ⟨_, dif_pos hpos, trivial⟩
    | clock => exact ⟨_, if_pos hpos, rfl⟩
    | opt =>
      obtain ⟨hplain, heof⟩ := hopt rfl
      refine ⟨optInit env.junk env.table f.bytes, ?_, ?_⟩
      · show (o.tracefile.bind env.fopen).map _ = _
        rw [htrace, Option.bind_some, hopen]
        rfl
      · show (referencesOf env.io f.records).length ≤ _
        rw [length_referencesOf]
        refine le_of_forall_lt fun i hi => ?_
        exact (List.getElem?_eq_some_iff.1 (cur_record hplain heof hi)).1
  obtain ⟨s₀, hs₀⟩ : ∃ s₀, start o.swapsize env.physmem env.swapfile policy = some s₀ :=
    ⟨_, by unfold start; rw [hswap]; rfl⟩
  obtain ⟨s, hs⟩ : ∃ s, replay (alg.policy env.malloc env.fuel o.memsize.toNat) o.memsize.toNat
      (referencesOf env.io f.records) s₀ = some s :=
    Alg.completes hpos hmem hfuel hs₀ hready hrs
  refine ⟨s.counters, ?_, ?_⟩
  · unfold main
    rw [hargs]
    dsimp only
    rw [htrace]
    dsimp only [Option.elim]
    rw [hopen]
    dsimp only
    rw [hswap, hname]
    dsimp only
    rw [hfind]
    dsimp only
    rw [← htrace, hinit, Option.bind_eq_bind, Option.bind_some, hs₀, replayTrace_bytes]
    dsimp only [Option.bind_eq_bind, Option.bind_some]
    rw [hs]
    rfl
  · have hok : (alg.policy env.malloc env.fuel o.memsize.toNat).Ok o.memsize.toNat :=
      Alg.policy_ok halg hpos
    have hlen' : (referencesOf env.io f.records).length < 2 ^ 31 := by
      rwa [length_referencesOf]
    obtain ⟨href, hsum⟩ := refs_counted hok hmem hs₀ hlen' hs
    rw [length_referencesOf] at href hsum
    have hloads := distinct_le_misses hok hmem hs₀ hlen' hs
    have hevict := evictions_add_room hok hmem hs₀ hlen' hs
    have hroom := misses_of_room hok hmem hs₀ hlen' hs
    rw [card_pages hlow] at hloads hevict hroom
    exact ⟨href, hsum, hloads, hevict, hroom⟩

/-- A system on which every transfer succeeds, and that has one file: two loads. -/
def exEnvironment : Environment where
  fopen _ := some twoLoads.bytes
  stdin := []
  physmem _ := 0
  swapfile _ := 0
  io _ := Io.whole
  type := 0
  random n := n
  malloc := bumpMalloc
  heap := emptyHeap
  junk _ := ⟨0, 0, 0⟩
  table _ := 0
  fuel := 2

/-- `sim -f t -m 1 -a clock` -/
theorem main_report_clock : ∃ c,
    main exEnvironment [(102, [116]), (109, [49]), (97, Alg.clock.name)] = some (.report c) ∧
      FitsTrace 1 twoLoads.records c :=
  main_report exEnvironment (o := ⟨some [116], 1, some Alg.clock.name, 4096⟩) (by decide) rfl
    (by decide) ⟨[116], rfl, rfl⟩ (fun h => by cases h)
    (List.forall_mem_cons.2 ⟨by decide, List.forall_mem_singleton.2 (by decide)⟩) (by decide)
    (by decide) (by decide) (by decide) (by decide)

end Cscc69.Paging
