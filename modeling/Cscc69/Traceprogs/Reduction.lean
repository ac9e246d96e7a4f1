import Cscc69.Paging.Misses
import Cscc69.Traceprogs.Fastslim

/-!
# Simulating a reduced trace

The records that fastslim.py prints are lines that `replay_trace` reads (`replayTrace_printed`), and
the pages that they refer to say how often the original trace misses at best:

* with the same number of frames, opt on the reduced trace makes no more misses than any policy on
  the original one (`reduced_le`);
* with `buffersize` more frames, opt on the original trace makes at most `buffersize` misses more
  than any policy on the reduced one (`le_reduced`).

Both are about runs of opt that evict a page used last. An epoch of the original trace has at most
`buffersize` pages, and the reduced one has the first reference to each of them.
-/

namespace Cscc69.Traceprogs

open CText Epochs Caching Paging

/-! ## What the script prints -/

/-- `format(n, 'x')` -/
def formatHex (n : ℤ) : List UInt8 :=
  (if n < 0 then [45] else []) ++ if n = 0 then [48] else numeral 16 hexChar n.natAbs

/-- `__repr__` -/
def TraceItem.repr (ti : TraceItem) : List UInt8 :=
  ti.reftype ++ blank :: formatHex (ti.pg * 4096)

/-- The bytes that the script prints. -/
def printed (args : Args) (file : List UInt8) : List UInt8 :=
  (output args file).flatMap fun ti => ti.repr ++ [newline]

/-- The first address of the page. -/
def TraceItem.address (ti : TraceItem) : BitVec 64 := BitVec.ofInt 64 (ti.pg * 4096)

/-- The letter and the first address of the page. -/
def TraceItem.record (ti : TraceItem) : UInt8 × BitVec 64 := (ti.reftype.head?.getD 0, ti.address)

/-- One letter and a page of the 64-bit address space. -/
structure Printable (ti : TraceItem) : Prop where
  reftype : ∃ c, ti.reftype = [c] ∧ c ≠ 0 ∧ c ≠ newline ∧ c ≠ equals
  nonneg : 0 ≤ ti.pg
  lt : ti.pg < 2 ^ 52

theorem hexValue_format (n : ℕ) : hexValue (formatHex n) = n := by
  unfold formatHex
  rw [if_neg (by omega), List.nil_append]
  split
  · rename_i hzero
    rw [Int.natCast_eq_zero.1 hzero]
    rfl
  · exact foldl_numeral (by decide) fun d hd => by rw [hexDigit_hexChar d hd, Option.getD_some]

theorem mem_format {n : ℕ} {c : UInt8} (hc : c ∈ formatHex n) : isHex c = true := by
  unfold formatHex at hc
  rw [if_neg (by omega), List.nil_append] at hc
  split at hc
  · rw [List.mem_singleton.1 hc]
    rfl
  · obtain ⟨d, hd, rfl⟩ := mem_numeral (by decide) hc
    rw [isHex, hexDigit_hexChar d hd]
    rfl

theorem format_ne (n : ℤ) : formatHex n ≠ [] := by
  unfold formatHex numeral
  split
  · simp
  · split
    · simp
    · rename_i hn
      simp [hn]

theorem length_format_le {n : ℕ} (hn : n < 2 ^ 64) : (formatHex n).length ≤ 16 := by
  unfold formatHex
  rw [if_neg (by omega), List.nil_append]
  split
  · decide
  · exact length_numeral_le (by decide) (by simpa using hn)

/-- The number as a text that is read. -/
def hexText (n : ℕ) (hn : n < 2 ^ 64) : HexText where
  pre := []
  digits := formatHex n
  pre_ok := HexText.nil_ok
  digits_ne := format_ne n
  digits_hex _ hc := mem_format hc
  value_lt := (hexValue_format n).trans_lt hn

/-- The record as a line of a trace file. -/
theorem Printable.line {ti : TraceItem} (h : Printable ti) : ∃ l : Line, l.text = ti.repr ∧
    l.text.length + 1 < maxline ∧ l.record? = some ti.record := by
  obtain ⟨c, hc, hok⟩ := h.reftype
  obtain ⟨n, hn⟩ := Int.eq_ofNat_of_zero_le h.nonneg
  have hlt := h.lt
  rw [hn] at hlt
  have hn' : n * 4096 < 2 ^ 64 := by omega
  have hpg : ti.pg * 4096 = (n * 4096 : ℕ) := by
    rw [hn]
    rfl
  have htext : (Line.access c hok (hexText (n * 4096) hn')).text = ti.repr := by
    rw [TraceItem.repr, hc, hpg]
    rfl
  refine ⟨.access c hok (hexText (n * 4096) hn'), htext, ?_, ?_⟩
  · have hlen := length_format_le hn'
    rw [htext, TraceItem.repr, hc, hpg, List.length_append, List.length_singleton,
      List.length_cons]
    show 1 + (_ + 1) + 1 < 256
    omega
  · have hvalue : (hexText (n * 4096) hn').value = ti.address := by
      rw [HexText.value, TraceItem.address, hpg, BitVec.ofInt_natCast]
      exact congrArg (BitVec.ofNat 64) (hexValue_format (n * 4096))
    rw [TraceItem.record, hc, List.head?_cons, Option.getD_some, ← hvalue]
    rfl

/-- `replay_trace` makes one access for each record that is printed. -/
theorem replayTrace_records {tis : List TraceItem} (htis : ∀ ti ∈ tis, Printable ti)
    (type : UInt8) : replayTrace type (tis.flatMap fun ti => ti.repr ++ [newline]) =
      tis.map TraceItem.record := by
  obtain ⟨lines, hshort, hbytes, hrecords⟩ : ∃ lines : List Line,
      (∀ l ∈ lines, l.text.length + 1 < maxline) ∧
      bytesOf lines = (tis.flatMap fun ti => ti.repr ++ [newline]) ∧
      lines.filterMap Line.record? = tis.map TraceItem.record := by
    induction tis with
    | nil => exact ⟨[], fun l hl => absurd hl List.not_mem_nil, rfl, rfl⟩
    | cons ti tis ih =>
      obtain ⟨hti, htis⟩ := List.forall_mem_cons.1 htis
      obtain ⟨l, htext, hshort, hrecord⟩ := hti.line
      obtain ⟨lines, hshorts, hbytes, hrecords⟩ := ih htis
      refine ⟨l :: lines, List.forall_mem_cons.2 ⟨hshort, hshorts⟩, ?_, ?_⟩
      · rw [bytesOf_cons, hbytes, htext, List.flatMap_cons, List.append_assoc]
        rfl
      · rw [List.filterMap_cons_some hrecord, hrecords, List.map_cons]
  have hread := replayTrace_bytes ⟨lines, hshort⟩ type
  rw [TraceFile.bytes, hbytes, TraceFile.records, hrecords] at hread
  exact hread

/-- **What the script prints is read back.** On the printed trace `replay_trace` makes, for each
closed epoch, one access for the first reference to each page, with its letter, to the first address
of the page. -/
theorem replayTrace_printed (args : Args) (hsize : 1 ≤ args.buffersize) (file : List UInt8)
    (hout : ∀ ti ∈ output args file, Printable ti) (type : UInt8) :
    replayTrace type (printed args file) =
      (epochsOf args file).1.flatMap fun e => (firsts (·.pg) e).map TraceItem.record := by
  have hread := replayTrace_records hout type
  rw [output, (fastslim_eq hsize file).2, List.map_flatten, List.map_map] at hread
  rw [List.flatMap_def]
  refine Eq.trans ?_ hread
  rw [printed, output, (fastslim_eq hsize file).2]

theorem output_oneTwoOne :
    output ⟨false, 1⟩ oneTwoOne = [⟨[76], 1, 0, false⟩, ⟨[76], 2, 1, false⟩] := by
  rw [output, (fastslim_eq (by decide) oneTwoOne).2]
  decide

theorem printable_oneTwoOne : ∀ ti ∈ output ⟨false, 1⟩ oneTwoOne, Printable ti := by
  have hletter : ∃ c : UInt8, [76] = [c] ∧ c ≠ 0 ∧ c ≠ newline ∧ c ≠ equals :=
    ⟨76, rfl, by decide, by decide, by decide⟩
  rw [output_oneTwoOne, List.forall_mem_cons, List.forall_mem_singleton]
  exact ⟨⟨hletter, by decide, by decide⟩, ⟨hletter, by decide, by decide⟩⟩

/-- One page in the buffer, and the references to pages 1, 2 and 1. -/
theorem replayTrace_printed_one :
    replayTrace 0 (printed ⟨false, 1⟩ oneTwoOne) =
      (epochsOf ⟨false, 1⟩ oneTwoOne).1.flatMap fun e =>
        (firsts (·.pg) e).map TraceItem.record :=
  replayTrace_printed ⟨false, 1⟩ (by decide) oneTwoOne printable_oneTwoOne 0

/-! ## The pages of the two traces -/

theorem ptrsPerPgdir_pos : 0 < ptrsPerPgdir := by decide

/-- The entry of a page that has one. -/
def ptrOf (pg : ℤ) : Ptr :=
  (entryOf (BitVec.ofInt 64 (pg * 4096))).getD (⟨0, ptrsPerPgdir_pos⟩, pgtblIndex 0)

def TraceItem.ptr (ti : TraceItem) : Ptr := ptrOf ti.pg

/-- The record is of a page below 4 GiB. -/
def Low (ti : TraceItem) : Prop := 0 ≤ ti.pg ∧ ti.pg < 2 ^ 20

instance (ti : TraceItem) : Decidable (Low ti) := by unfold Low; infer_instance

theorem Low.toNat {ti : TraceItem} (h : Low ti) : ti.address.toNat = ti.pg.toNat * 4096 := by
  obtain ⟨n, hn⟩ := Int.eq_ofNat_of_zero_le h.1
  have hlt := h.2
  rw [hn] at hlt
  have hpg : ti.pg * 4096 = (n * 4096 : ℕ) := by
    rw [hn]
    rfl
  rw [TraceItem.address, hpg, BitVec.ofInt_natCast, BitVec.toNat_ofNat, hn]
  exact Nat.mod_eq_of_lt (by omega)

theorem Low.aligned {ti : TraceItem} (h : Low ti) : Aligned ti.address := by
  unfold Aligned
  rw [h.toNat]
  have hlow := h.2
  omega

theorem Low.entry {ti : TraceItem} (h : Low ti) : entryOf ti.address = some ti.ptr := by
  obtain ⟨p, hp⟩ := h.aligned.entry
  rw [TraceItem.ptr, ptrOf, ← TraceItem.address, hp]
  rfl

/-- Different pages have different entries. -/
theorem Low.ptr_inj {ti ti' : TraceItem} (h : Low ti) (h' : Low ti') (heq : ti.ptr = ti'.ptr) :
    ti.pg = ti'.pg := by
  have hentry : entryOf ti.address = entryOf ti'.address := by rw [h.entry, h'.entry, heq]
  have hlt := h.aligned.1
  have hlt' := h'.aligned.1
  rw [entryOf_eq_iff (by omega) (by omega), h.toNat, h'.toNat] at hentry
  have hlow := h.1
  have hlow' := h'.1
  omega

theorem pages_of_addresses {rs : List Reference} {tis : List TraceItem} (htis : ∀ ti ∈ tis, Low ti)
    (hrs : rs.map (·.vaddr) = tis.map TraceItem.address) : pages rs = tis.map TraceItem.ptr := by
  have hmap : pages rs = (rs.map (·.vaddr)).filterMap entryOf := by
    rw [List.filterMap_map]
    rfl
  rw [hmap, hrs, List.filterMap_map, ← List.filterMap_eq_map]
  exact List.filterMap_congr fun ti hti => (htis ti hti).entry

/-! ## Both bounds -/

section Bounds
variable {args : Args} {file : List UInt8}

/-- The two traces in epochs. -/
theorem ptrs_epochs (hsize : 1 ≤ args.buffersize) (hlow : ∀ ti ∈ references args file, Low ti) :
    ∃ (es : List (List Ptr)) (last : List Ptr),
      (references args file).map TraceItem.ptr = es.flatten ++ last ∧
      (output args file).map TraceItem.ptr = (es.map (newPages ∅)).flatten ∧
      (∀ e ∈ es, e.toFinset.card ≤ args.buffersize.toNat) ∧
      last.toFinset.card ≤ args.buffersize.toNat := by
  have hcut := epochsOf_cut hsize file
  have hcard : ∀ e ∈ (epochsOf args file).1 ++ [(epochsOf args file).2],
      (e.map TraceItem.ptr).toFinset.card ≤ args.buffersize.toNat := by
    intro e he
    have himage : (e.map TraceItem.ptr).toFinset = (e.map (·.pg)).toFinset.image ptrOf := by
      ext q
      simp [TraceItem.ptr]
    rw [himage]
    exact Finset.card_image_le.trans (hcut.card_le e he)
  refine ⟨(epochsOf args file).1.map (·.map TraceItem.ptr),
    (epochsOf args file).2.map TraceItem.ptr, ?_, ?_, ?_, ?_⟩
  · rw [← hcut.flatten, List.map_append, List.map_flatten]
  · unfold output
    rw [(fastslim_eq hsize file).2, List.map_flatten, List.map_map, List.map_map]
    refine congrArg List.flatten (List.map_congr_left fun e he => ?_)
    have hsame : ∀ ti ∈ e, ∀ ti' ∈ e, ti.pg = ti'.pg ↔ ti.ptr = ti'.ptr := by
      intro ti hti ti' hti'
      have hin : ∀ ti ∈ e, Low ti := fun ti hti => hlow ti (by
        rw [← hcut.flatten]
        exact List.mem_append_left _ (List.mem_flatten.2 ⟨e, he, hti⟩))
      exact ⟨congrArg ptrOf, (hin ti hti).ptr_inj (hin ti' hti')⟩
    rw [Function.comp_apply, Function.comp_apply, firsts_congr hsame, map_firsts]
  · intro e he
    obtain ⟨e', he', rfl⟩ := List.mem_map.1 he
    exact hcard e' (List.mem_append_left _ he')
  · exact hcard _ (List.mem_append_right _ List.mem_cons_self)

theorem output_low (hsize : 1 ≤ args.buffersize) (hlow : ∀ ti ∈ references args file, Low ti) :
    ∀ ti ∈ output args file, Low ti := by
  intro ti hti
  have hclosed := (output_sublist hsize file).subset hti
  exact hlow ti (by
    rw [← (epochsOf_cut hsize file).flatten]
    exact List.mem_append_left _ hclosed)

/-- A run of opt whose victims are used last. -/
theorem opt_serves {memsize : ℕ} (hpos : 1 ≤ memsize) (hmem : memsize ≤ 2 ^ 19)
    {swapsize : BitVec 32} {physmem swapfile : Bytes.Mem} {d : OptData} {s₀ : Sim OptData}
    (hs₀ : start swapsize physmem swapfile d = some s₀) {rs : List Reference} (hd : OptInit rs d)
    (hrs : ∀ r ∈ rs, Aligned r.vaddr) (hlen : rs.length < 2 ^ 31)
    (hfar : Along (opt memsize) memsize (FarthestVictim memsize) rs s₀) :
    ∃ s, replay (opt memsize) memsize rs s₀ = some s ∧
      Serves memsize Farthest ∅ (pages rs) s.counters.miss.toNat := by
  obtain ⟨s, m, hs, hm, hserves, hmiss⟩ := (start_timeline hd hs₀).serves hmem hpos hrs hfar
  obtain ⟨hempty, hzero⟩ := start_resident hs₀
  rw [hzero, zero_add] at hmiss
  rw [hempty] at hserves
  refine ⟨s, hs, ?_⟩
  rwa [hmiss, BitVec.toNat_ofNat, Nat.mod_eq_of_lt (by omega)]

theorem aligned_of_addresses {rs : List Reference} {tis : List TraceItem}
    (htis : ∀ ti ∈ tis, Low ti) (hrs : rs.map (·.vaddr) = tis.map TraceItem.address) :
    ∀ r ∈ rs, Aligned r.vaddr := by
  rw [← List.forall_mem_map (P := Aligned), hrs, List.forall_mem_map]
  exact fun ti hti => (htis ti hti).aligned

/-- **A lower bound.** Opt makes no more misses on the trace that the script prints than any policy
on the original one, with the same number of frames. -/
theorem reduced_le (hsize : 1 ≤ args.buffersize) (hlow : ∀ ti ∈ references args file, Low ti)
    (hout : ∀ ti ∈ output args file, Printable ti) {memsize : ℕ} (hpos : 1 ≤ memsize)
    (hmem : memsize ≤ 2 ^ 19) {type : UInt8} {rs' : List Reference}
    (hrs' : rs'.map (·.vaddr) = (replayTrace type (printed args file)).map (·.2))
    (hlen' : rs'.length < 2 ^ 31) {swapsize' : BitVec 32} {physmem' swapfile' : Bytes.Mem}
    {d : OptData} {s₀' : Sim OptData} (hs₀' : start swapsize' physmem' swapfile' d = some s₀')
    (hd : OptInit rs' d) (hfar : Along (opt memsize) memsize (FarthestVictim memsize) rs' s₀')
    {rs : List Reference} (hrs : rs.map (·.vaddr) = (references args file).map TraceItem.address)
    (hlen : rs.length < 2 ^ 31) {σ : Type*} {pol : Policy σ} (hok : pol.Ok memsize)
    {swapsize : BitVec 32} {physmem swapfile : Bytes.Mem} {policy : σ} {s₀ s : Sim σ}
    (hs₀ : start swapsize physmem swapfile policy = some s₀)
    (hr : replay pol memsize rs s₀ = some s) :
    ∃ s', replay (opt memsize) memsize rs' s₀' = some s' ∧
      s'.counters.miss.toNat ≤ s.counters.miss.toNat := by
  have hlow' := output_low hsize hlow
  rw [printed, replayTrace_records hout type, List.map_map] at hrs'
  obtain ⟨s', hs', hopt⟩ :=
    opt_serves hpos hmem hs₀' hd (aligned_of_addresses hlow' hrs') hlen' hfar
  have hpol := replay_misses hok hmem hs₀ hlen hr
  rw [pages_of_addresses hlow' hrs'] at hopt
  rw [pages_of_addresses hlow hrs] at hpol
  have hsub : ((output args file).map TraceItem.ptr).Sublist
      ((references args file).map TraceItem.ptr) := by
    refine List.Sublist.map _ ((output_sublist hsize file).trans ?_)
    rw [← (epochsOf_cut hsize file).flatten]
    exact List.sublist_append_left _ _
  obtain ⟨m, hm, hfewer⟩ := hpol.sublist (Nat.zero_le _) hsub
  exact ⟨s', hs', (farthest_least hopt hfewer).trans hm⟩

theorem addresses_oneTwoOne : [exRead 1, exRead 2].map (·.vaddr) =
    (replayTrace 0 (printed ⟨false, 1⟩ oneTwoOne)).map (·.2) := by
  rw [printed, replayTrace_records printable_oneTwoOne, output_oneTwoOne]
  decide

/-- One frame, and the pages 1, 2 and 1 of which the last is not printed. -/
theorem reduced_le_one : ∃ s s',
    replay (fifo 1) 1 [exRead 1, exRead 2, exRead 1] (exStart (fifoInit one_pos)) = some s ∧
    replay (opt 1) 1 [exRead 1, exRead 2] (exStart (describe [exRead 1, exRead 2])) = some s' ∧
    s'.counters.miss.toNat ≤ s.counters.miss.toNat := by
  have hs₀ := exStart_start (describe [exRead 1, exRead 2])
  have hd := describe_init [exRead 1, exRead 2]
  have hfar : Along (opt 1) 1 (FarthestVictim 1) [exRead 1, exRead 2]
      (exStart (describe [exRead 1, exRead 2])) :=
    ((start_timeline hd hs₀).along_iff (by decide) le_rfl (by decide)).2 (by decide +kernel)
  obtain ⟨s, hs⟩ := fifo_isSome (by decide) (start_tracked (exStart_start (fifoInit one_pos)))
    (by decide : ∀ r ∈ [exRead 1, exRead 2, exRead 1], (entryOf r.vaddr).isSome = true)
  obtain ⟨s', hs', hle⟩ := reduced_le (by decide) (by decide) printable_oneTwoOne le_rfl (by decide)
    addresses_oneTwoOne (by decide) hs₀ hd hfar (by decide) (by decide) (fifo_ok 1)
    (exStart_start (fifoInit one_pos)) hs
  exact ⟨s, s', hs, hs', hle⟩

/-- **An upper bound.** With `buffersize` frames more than any policy has on the trace that the
script prints, opt makes at most `buffersize` misses more on the original one. -/
theorem le_reduced (hsize : 1 ≤ args.buffersize) (hlow : ∀ ti ∈ references args file, Low ti)
    (hout : ∀ ti ∈ output args file, Printable ti) {memsize : ℕ}
    (hmem : memsize + args.buffersize.toNat ≤ 2 ^ 19) {type : UInt8} {rs' : List Reference}
    (hrs' : rs'.map (·.vaddr) = (replayTrace type (printed args file)).map (·.2))
    (hlen' : rs'.length < 2 ^ 31) {σ : Type*} {pol : Policy σ} (hok : pol.Ok memsize)
    {swapsize' : BitVec 32} {physmem' swapfile' : Bytes.Mem} {policy : σ} {s₀' s' : Sim σ}
    (hs₀' : start swapsize' physmem' swapfile' policy = some s₀')
    (hr' : replay pol memsize rs' s₀' = some s') {rs : List Reference}
    (hrs : rs.map (·.vaddr) = (references args file).map TraceItem.address)
    (hlen : rs.length < 2 ^ 31) {swapsize : BitVec 32} {physmem swapfile : Bytes.Mem} {d : OptData}
    {s₀ : Sim OptData} (hs₀ : start swapsize physmem swapfile d = some s₀) (hd : OptInit rs d)
    (hfar : Along (opt (memsize + args.buffersize.toNat)) (memsize + args.buffersize.toNat)
      (FarthestVictim (memsize + args.buffersize.toNat)) rs s₀) :
    ∃ s, replay (opt (memsize + args.buffersize.toNat)) (memsize + args.buffersize.toNat) rs s₀ =
        some s ∧
      s.counters.miss.toNat ≤ s'.counters.miss.toNat + args.buffersize.toNat := by
  have hlow' := output_low hsize hlow
  rw [printed, replayTrace_records hout type, List.map_map] at hrs'
  have hpol := replay_misses hok (by omega) hs₀' hlen' hr'
  obtain ⟨s, hs, hopt⟩ :=
    opt_serves (by omega) hmem hs₀ hd (aligned_of_addresses hlow hrs) hlen hfar
  obtain ⟨es, last, hfull, hreduced, hes, hlast⟩ := ptrs_epochs hsize hlow
  rw [pages_of_addresses hlow' hrs', hreduced] at hpol
  rw [pages_of_addresses hlow hrs, hfull] at hopt
  obtain ⟨m, hm, hmore⟩ := hpol.expand hes hlast
  have hle := (farthest_least hopt hmore).trans hm
  exact ⟨s, hs, hle.trans (Nat.add_le_add_left hlast _)⟩

/-- Two frames instead of one. -/
theorem le_reduced_one : ∃ s s',
    replay (fifo 1) 1 [exRead 1, exRead 2] (exStart (fifoInit one_pos)) = some s' ∧
    replay (opt (1 + 1)) (1 + 1) [exRead 1, exRead 2, exRead 1]
      (exStart (describe [exRead 1, exRead 2, exRead 1])) = some s ∧
    s.counters.miss.toNat ≤ s'.counters.miss.toNat + 1 := by
  have hs₀ := exStart_start (describe [exRead 1, exRead 2, exRead 1])
  have hd := describe_init [exRead 1, exRead 2, exRead 1]
  have hfar : Along (opt (1 + 1)) (1 + 1) (FarthestVictim (1 + 1)) [exRead 1, exRead 2, exRead 1]
      (exStart (describe [exRead 1, exRead 2, exRead 1])) :=
    ((start_timeline hd hs₀).along_iff (by decide) (by decide) (by decide)).2 (by decide +kernel)
  obtain ⟨s', hs'⟩ := fifo_isSome (by decide) (start_tracked (exStart_start (fifoInit one_pos)))
    (by decide : ∀ r ∈ [exRead 1, exRead 2], (entryOf r.vaddr).isSome = true)
  obtain ⟨s, hs, hle⟩ := le_reduced (by decide) (by decide) printable_oneTwoOne (by decide)
    addresses_oneTwoOne (by decide) (fifo_ok 1) (exStart_start (fifoInit one_pos)) hs' (by decide)
    (by decide) hs₀ hd hfar
  exact ⟨s, s', hs', hs, hle⟩

end Bounds

end Cscc69.Traceprogs
