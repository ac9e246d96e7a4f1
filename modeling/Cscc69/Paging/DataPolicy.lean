import Cscc69.Paging.Slots

/-!
# Policies over their own data

Most policies look at nothing but their own data and the coremap, and at the number of the frame
that was referenced. For such a `DataPolicy` a reference is a function of the pager and the data
(`DataPolicy.serve`), and `accessMem_serve` says that the simulator computes just this, failures
included. Whether a whole trace goes through, and what the policy answers on the way, can then be
asked of `serve`.
-/

namespace Cscc69.Paging

open Bytes Pager

variable {σ : Type*}

/-- A policy's two functions, on the coremap and the policy's own data. -/
structure DataPolicy (σ : Type*) where
  evict : (ℕ → Frame) → σ → Option (ℕ × σ)
  ref : (ℕ → Frame) → ℕ → σ → Option σ

/-- As functions on the simulator. -/
def DataPolicy.policy (d : DataPolicy σ) : Policy σ where
  evict s := (d.evict s.coremap s.policy).map fun r => (r.1, { s with policy := r.2 })
  ref p s := (d.ref s.coremap (s.entry p).frameNo s.policy).map fun x => { s with policy := x }

/-- The frame that a miss takes, and the pager and the data after an eviction, if there is one. -/
def DataPolicy.alloc (d : DataPolicy σ) (memsize : ℕ) (io : Transfer) (a : Pager) (x : σ) :
    Option (ℕ × Pager × σ) :=
  match (List.range memsize).find? fun i => !(a.coremap i).inUse with
  | some frame => some (frame, a, x)
  | none =>
    match d.evict a.coremap x with
    | none => none
    | some (frame, x) =>
      match (a.coremap frame).pte with
      | none => none
      | some bye => (a.evictFrame io frame bye).map fun a => (frame, a, x)

/-- One reference to the page of `p`. -/
def DataPolicy.serve (d : DataPolicy σ) (memsize : ℕ) (io : Transfer) (p : Ptr)
    (vaddr : BitVec 64) (write : Bool) (a : Pager) (x : σ) : Option (Pager × σ) :=
  let found :=
    if (a.page p).valid then some (a.countHit, x)
    else (d.alloc memsize io a.countMiss x).map fun r => (r.2.1.load r.1 p vaddr, r.2.2)
  found.bind fun r =>
    let a := r.1.touch p write
    (d.ref a.coremap (a.page p).frame r.2).map fun x => (a, x)

variable {d : DataPolicy σ} {memsize : ℕ} {s s' : Sim σ} {p : Ptr}

/-- The pager and the policy's data. -/
def Sim.both (s : Sim σ) : Pager × σ := (s.pager, s.policy)

@[simp] theorem setFrame_policy (s : Sim σ) (p : Ptr) (w : BitVec 32) :
    (s.setFrame p w).policy = s.policy := rfl

theorem DataPolicy.policy_evict (d : DataPolicy σ) (s : Sim σ) : d.policy.evict s =
    (d.evict s.coremap s.policy).map fun r => (r.1, { s with policy := r.2 }) := rfl

theorem DataPolicy.policy_ref (d : DataPolicy σ) (s : Sim σ) (p : Ptr) : d.policy.ref p s =
    (d.ref s.coremap (s.entry p).frameNo s.policy).map fun x => { s with policy := x } := rfl

theorem evictFrame_policy {io : Transfer} {frame : ℕ} {bye : Ptr}
    (h : evictFrame io frame bye s = some s') : s'.policy = s.policy := by
  unfold evictFrame at h
  split at h
  · cases h
    rfl
  · dsimp only at h
    split at h
    · cases h
    · rename_i offset sw _
      cases h
      split
      · rfl
      · rfl

/-- `evict_frame` and the policy's data. -/
theorem evictFrame_both (io : Transfer) (frame : ℕ) (bye : Ptr) (s : Sim σ) (x : σ) :
    (evictFrame io frame bye { s with policy := x }).map Sim.both =
      (s.pager.evictFrame io frame bye).map fun a => (a, x) := by
  have hevict : (evictFrame io frame bye { s with policy := x }).map Sim.pager =
    s.pager.evictFrame io frame bye := evictFrame_pager io frame bye { s with policy := x }
  rw [← hevict]
  cases hres : evictFrame io frame bye { s with policy := x } with
  | none => rfl
  | some s' =>
    have hpol : s'.policy = x := evictFrame_policy hres
    rw [Option.map_some, Option.map_some, Option.map_some, ← hpol]
    rfl

/-- `allocate_frame` for a data policy. -/
theorem allocateFrame_alloc (d : DataPolicy σ) (memsize : ℕ) (io : Transfer) (p : Ptr)
    (s : Sim σ) :
    (allocateFrame d.policy memsize io p s).map (fun r => (r.1, r.2.both)) =
      (d.alloc memsize io s.pager s.policy).map fun r => (r.1, r.2.1.claim r.1 p, r.2.2) := by
  unfold allocateFrame DataPolicy.alloc
  rw [show s.pager.coremap = s.coremap from rfl, d.policy_evict]
  cases (List.range memsize).find? fun i => !(s.coremap i).inUse with
  | some frame => rfl
  | none =>
    cases d.evict s.coremap s.policy with
    | none => rfl
    | some r =>
      obtain ⟨frame, x⟩ := r
      simp only [Option.map_some]
      cases (s.coremap frame).pte with
      | none => rfl
      | some bye =>
        have hboth := evictFrame_both io frame bye s x
        simp only
        cases hres : s.pager.evictFrame io frame bye with
        | none =>
          rw [hres, Option.map_none, Option.map_eq_none_iff] at hboth
          rw [hboth]
          rfl
        | some a =>
          rw [hres, Option.map_some] at hboth
          obtain ⟨s', hs', heq⟩ := Option.map_eq_some_iff.1 hboth
          obtain ⟨rfl, rfl⟩ := Prod.mk.inj heq
          rw [hs']
          rfl

theorem alloc_lt {io : Transfer} {a a' : Pager} {x x' : σ} {frame : ℕ}
    (hlt : ∀ frame x', d.evict a.coremap x = some (frame, x') → frame < memsize)
    (h : d.alloc memsize io a x = some (frame, a', x')) : frame < memsize := by
  unfold DataPolicy.alloc at h
  split at h
  · rename_i f hf
    cases h
    exact List.mem_range.1 (List.mem_of_find?_eq_some hf)
  · split at h
    · cases h
    · rename_i hev
      split at h
      · cases h
      · obtain ⟨_, _, heq⟩ := Option.map_eq_some_iff.1 h
        cases heq
        exact hlt _ _ hev

theorem loadPage_load (hmem : memsize ≤ 2 ^ 19) {io : Io} {vaddr : BitVec 64}
    (hlt : ∀ frame x, d.evict s.coremap s.policy = some (frame, x) → frame < memsize) :
    (loadPage d.policy memsize io vaddr p s).map Sim.both =
      (d.alloc memsize io.pageout s.pager s.policy).map fun r =>
        (r.2.1.load r.1 p vaddr, r.2.2) := by
  have halloc := allocateFrame_alloc d memsize io.pageout p s
  unfold loadPage
  cases hd : d.alloc memsize io.pageout s.pager s.policy with
  | none =>
    rw [hd, Option.map_none, Option.map_eq_none_iff] at halloc
    rw [halloc]
    rfl
  | some r =>
    obtain ⟨frame, a, x⟩ := r
    have hframe : frame < memsize := alloc_lt hlt hd
    rw [hd, Option.map_some] at halloc
    obtain ⟨⟨f, s₁⟩, hs₁, heq⟩ := Option.map_eq_some_iff.1 halloc
    simp only [Prod.mk.injEq] at heq
    obtain ⟨rfl, hboth⟩ := heq
    obtain ⟨hpager, hpol⟩ := Prod.mk.inj hboth
    have hset : (s₁.setFrame p (frameWord (BitVec.ofNat 32 f))).pager =
        s₁.pager.setPage p ⟨false, false, false, f, (s₁.pager.page p).swapOff⟩ := by
      rw [pager_setFrame, page_set_frame (s₁.entry p) (by omega)]
      rfl
    have honswap : ¬ ((s₁.setFrame p (frameWord (BitVec.ofNat 32 f))).entry p).frame &&&
        pgOnswap ≠ 0 := by
      rw [not_not, and_pgOnswap, ← pager_page, hset, setPage_page]
    rw [hs₁]
    dsimp only
    rw [if_neg honswap, Option.map_some, Option.map_some, ← hpol]
    have hload : Sim.pager { s₁.setFrame p (frameWord (BitVec.ofNat 32 f)) with
        physmem := initFrame f vaddr (s₁.setFrame p (frameWord (BitVec.ofNat 32 f))).physmem } =
        a.load f p vaddr := by
      have hphys : Sim.pager { s₁.setFrame p (frameWord (BitVec.ofNat 32 f)) with
          physmem := initFrame f vaddr (s₁.setFrame p (frameWord (BitVec.ofNat 32 f))).physmem } =
          { (s₁.setFrame p (frameWord (BitVec.ofNat 32 f))).pager with
            physmem := initFrame f vaddr s₁.pager.physmem } := rfl
      rw [hphys, hset, hpager]
      rfl
    exact congrArg some (Prod.ext hload rfl)

/-- `find_physpage` for a data policy: the pointer it returns, the pager and the data. -/
theorem findPhyspage_serve (hmem : memsize ≤ 2 ^ 19) {io : Io} {type : Char} {vaddr : BitVec 64}
    (hlt : ∀ frame x, d.evict s.coremap s.policy = some (frame, x) → frame < memsize) :
    (findPhyspage d.policy memsize io vaddr type s).map (fun r => (r.1, r.2.both)) =
      (entryOf vaddr).bind fun p =>
        (d.serve memsize io.pageout p vaddr (decide (Writes type)) s.pager s.policy).map fun r =>
          (BitVec.ofNat 32 ((r.1.page p).frame * simpagesize), r) := by
  cases hp : entryOf vaddr with
  | none =>
    unfold findPhyspage
    rw [Option.map_eq_none_iff.1 hp]
    rfl
  | some p =>
    -- the page found or loaded
    have hfound : (if (s.entry p).frame &&& pgValid = 0 then
          loadPage d.policy memsize io vaddr p (s.missed p) else some (s.found p)).map Sim.both =
        if (s.pager.page p).valid then some (s.pager.countHit, s.policy)
        else (d.alloc memsize io.pageout s.pager.countMiss s.policy).map fun r =>
          (r.2.1.load r.1 p vaddr, r.2.2) := by
      by_cases hv : (s.pager.page p).valid = true
      · rw [if_pos hv, if_neg (by rw [and_pgValid]; exact ne_false_of_eq_true hv)]
        obtain ⟨hpager, -, hpol⟩ := found_facts s p
        exact congrArg some (Prod.ext hpager hpol)
      · rw [if_neg hv, if_pos (and_pgValid.2 (Bool.eq_false_of_not_eq_true hv)),
          loadPage_load hmem (by rw [missed_coremap, missed_policy]; exact hlt), missed_pager,
          missed_policy]
    rw [findPhyspage_eq hp, Option.bind_some]
    unfold DataPolicy.serve
    simp only
    rw [← hfound]
    generalize (if (s.entry p).frame &&& pgValid = 0 then
      loadPage d.policy memsize io vaddr p (s.missed p) else some (s.found p)) = found
    cases found with
    | none => rfl
    | some s₁ =>
      have htouch := pager_access s₁ p type
      have hpol := policy_access s₁ p type
      simp only [Option.map_some, Option.bind_some, d.policy_ref, Option.map_map]
      show Option.map _ (d.ref (s₁.access p type).pager.coremap
          ((s₁.access p type).pager.page p).frame (s₁.access p type).policy) =
        Option.map _ (d.ref (touch p (decide (Writes type)) s₁.pager).coremap
          ((touch p (decide (Writes type)) s₁.pager).page p).frame s₁.policy)
      rw [← htouch, ← hpol]
      refine Option.map_congr fun x _ => ?_
      refine Prod.ext ?_ (Prod.ext htouch rfl)
      show ((s₁.access p type).entry p).frame >>> pageShift * BitVec.ofNat 32 simpagesize =
        BitVec.ofNat 32 (((touch p (decide (Writes type)) s₁.pager).page p).frame * simpagesize)
      rw [← htouch]
      exact pointer_eq (s₁.access p type) p

/-- **A reference under a data policy is `serve`.** -/
theorem accessMem_serve (hmem : memsize ≤ 2 ^ 19) {io : Io} {type : Char} {vaddr : BitVec 64}
    (hlt : ∀ frame x, d.evict s.coremap s.policy = some (frame, x) → frame < memsize) :
    (accessMem d.policy memsize io type vaddr s).map (fun r => r.2.both) =
      (entryOf vaddr).bind fun p =>
        (d.serve memsize io.pageout p vaddr (decide (Writes type)) s.pager s.policy).map fun r =>
          (r.1.bump p (decide (Writes type)), r.2) := by
  have hfind : (findPhyspage d.policy memsize io vaddr type s).map (fun r => (r.1, r.2.both)) = _ :=
    findPhyspage_serve hmem hlt
  unfold accessMem
  rw [Option.map_map]
  have hacc : Option.map ((fun r => r.2.both) ∘ fun x : BitVec 32 × Sim σ =>
        (if Writes type then (decide (load x.2.physmem (x.1.toNat + 4) 8 = vaddr.toNat),
          { x.2 with physmem := store x.2.physmem x.1.toNat 4 (version x.2.physmem x.1 + 1) })
        else (decide (load x.2.physmem (x.1.toNat + 4) 8 = vaddr.toNat), x.2)))
      (findPhyspage d.policy memsize io vaddr type s) =
      ((findPhyspage d.policy memsize io vaddr type s).map fun r => (r.1, r.2.both)).map
        fun r => (if Writes type then { r.2.1 with
          physmem := store r.2.1.physmem r.1.toNat 4 (version r.2.1.physmem r.1 + 1) }
          else r.2.1, r.2.2) := by
    rw [Option.map_map]
    refine Option.map_congr fun r _ => ?_
    simp only [Function.comp]
    by_cases hw : Writes type
    · rw [if_pos hw, if_pos hw]
      rfl
    · rw [if_neg hw, if_neg hw]
  refine hacc.trans ?_
  rw [hfind]
  cases entryOf vaddr with
  | none => rfl
  | some p =>
    simp only [Option.bind_some, Option.map_map]
    refine Option.map_congr fun r _ => ?_
    simp [Pager.bump]

/-! ## Placing a page -/

variable {io : Transfer} {vaddr : BitVec 64} {write : Bool} {a a₁ : Pager} {x x₁ : σ} {frame : ℕ}

/-- The page of `p` is found in `frame`, or loaded there, and the access is recorded. What is left
of the reference is to tell the policy. -/
inductive DataPolicy.Placed (d : DataPolicy σ) (memsize : ℕ) (io : Transfer) (p : Ptr)
    (vaddr : BitVec 64) (write : Bool) (a : Pager) (x : σ) : Pager → ℕ → σ → Prop
  | hit : (a.page p).valid = true →
      d.Placed memsize io p vaddr write a x (a.countHit.touch p write) (a.page p).frame x
  | free {frame : ℕ} : (a.page p).valid = false →
      ((List.range memsize).find? fun i => !(a.coremap i).inUse) = some frame →
      d.Placed memsize io p vaddr write a x ((a.countMiss.load frame p vaddr).touch p write)
        frame x
  | evict {frame : ℕ} {bye : Ptr} {a' : Pager} {x' : σ} : (a.page p).valid = false →
      (∀ i < memsize, (a.coremap i).inUse = true) → d.evict a.coremap x = some (frame, x') →
      (a.coremap frame).pte = some bye → a.countMiss.evictFrame io frame bye = some a' →
      d.Placed memsize io p vaddr write a x ((a'.load frame p vaddr).touch p write) frame x'

theorem find_none {coremap : ℕ → Frame} (hall : ∀ i < memsize, (coremap i).inUse = true) :
    ((List.range memsize).find? fun i => !(coremap i).inUse) = none := by
  refine List.find?_eq_none.2 fun i hi => ?_
  simp [hall i (List.mem_range.1 hi)]

/-- The policy is told the frame. -/
theorem DataPolicy.Placed.serve (h : d.Placed memsize io p vaddr write a x a₁ frame x₁) :
    d.serve memsize io p vaddr write a x = (d.ref a₁.coremap frame x₁).map fun x => (a₁, x) := by
  unfold DataPolicy.serve
  cases h with
  | hit hv =>
    rw [if_pos hv]
    show Option.map _ (d.ref _ ((a.countHit.touch p write).page p).frame x) = _
    rw [touch_page, Function.update_self]
    rfl
  | @free frame hv hfree =>
    have halloc : d.alloc memsize io a.countMiss x = some (frame, a.countMiss, x) := by
      unfold DataPolicy.alloc
      rw [show a.countMiss.coremap = a.coremap from rfl, hfree]
    rw [if_neg (Bool.eq_false_iff.1 hv), halloc]
    show Option.map _ (d.ref _ (((a.countMiss.load frame p vaddr).touch p write).page p).frame x) =
      _
    rw [load_touch_page, Function.update_self]
  | @evict frame bye a' _ hv hall hev hbye hout =>
    have halloc : d.alloc memsize io a.countMiss x = some (frame, a', x₁) := by
      unfold DataPolicy.alloc
      rw [show a.countMiss.coremap = a.coremap from rfl, find_none hall, hev]
      dsimp only
      rw [hbye]
      dsimp only
      rw [hout]
      rfl
    rw [if_neg (Bool.eq_false_iff.1 hv), halloc]
    show Option.map _ (d.ref _ (((a'.load frame p vaddr).touch p write).page p).frame x₁) = _
    rw [load_touch_page, Function.update_self]

theorem DataPolicy.Placed.refer (h : d.Placed memsize io p vaddr write a x a₁ frame x₁)
    (hlt : ∀ frame x', d.evict a.coremap x = some (frame, x') → frame < memsize) :
    Refer memsize io p vaddr write a a₁ := by
  cases h with
  | hit hv => exact .hit hv
  | free hv hfree =>
    have hfree' := List.find?_some hfree
    rw [Bool.not_eq_true'] at hfree'
    exact .free hv (List.mem_range.1 (List.mem_of_find?_eq_some hfree)) hfree'
  | evict hv hall hev hbye hout => exact .evict hv (hlt _ _ hev) hall hbye hout

theorem evictFrame_isSome (hpacked : a.swap.map.Packed) (io : Transfer) (frame : ℕ) (bye : Ptr) :
    ∃ a', a.evictFrame io frame bye = some a' := by
  unfold Pager.evictFrame
  split
  · exact ⟨_, rfl⟩
  · obtain ⟨r, hr⟩ := swapPageout_isSome hpacked io a.physmem frame
      ((a.page bye).swapOff.setWidth 32)
    rw [hr]
    exact ⟨_, rfl⟩

/-- **A page is placed, if the policy names a frame** whenever there is no free one. -/
theorem placed (hinv : a.Inv memsize) (hpacked : a.swap.map.Packed)
    (hev : (a.page p).valid = false → (∀ i < memsize, (a.coremap i).inUse = true) →
      ∃ frame x', d.evict a.coremap x = some (frame, x') ∧ frame < memsize) :
    ∃ a₁ frame x₁, d.Placed memsize io p vaddr write a x a₁ frame x₁ := by
  cases hv : (a.page p).valid with
  | true => exact ⟨_, _, _, .hit hv⟩
  | false =>
    rcases find_free (rfl : ((List.range memsize).find? fun i => !(a.coremap i).inUse) = _) with
      ⟨frame, hfree, -⟩ | ⟨-, hall⟩
    · exact ⟨_, _, _, .free hv hfree⟩
    · obtain ⟨frame, x', hev, hlt⟩ := hev hv hall
      obtain ⟨-, bye, hbye, -⟩ := hinv.owned frame (hall frame hlt)
      obtain ⟨a', hout⟩ := evictFrame_isSome (a := a.countMiss) hpacked io frame bye
      exact ⟨_, _, _, .evict hv hall hev hbye hout⟩

/-- Placing a page changes the coremap at its frame only, which it takes. -/
theorem DataPolicy.Placed.coremap (h : d.Placed memsize io p vaddr write a x a₁ frame x₁)
    (hinv : a.Inv memsize) : a₁.coremap = Function.update a.coremap frame ⟨true, some p⟩ := by
  cases h with
  | hit hv =>
    rw [touch_coremap, countHit_coremap, ← hinv.resident p hv, Function.update_eq_self]
  | free _ _ => rfl
  | evict _ _ _ _ hout => rw [touch_coremap, load_coremap, (evictFrame_some hout).1]; rfl

theorem DataPolicy.Placed.frame_eq (h : d.Placed memsize io p vaddr write a x a₁ frame x₁) :
    (a₁.page p).frame = frame := by
  cases h with
  | hit hv => rw [touch_frame, countHit_page]
  | free _ _ => rw [load_touch_page, Function.update_self]
  | evict _ _ _ _ _ => rw [load_touch_page, Function.update_self]

/-- The other pages that are in memory afterwards were there before, in their frames. -/
theorem DataPolicy.Placed.other (h : d.Placed memsize io p vaddr write a x a₁ frame x₁) {q : Ptr}
    (hq : q ≠ p) (hv : (a₁.page q).valid = true) :
    (a.page q).valid = true ∧ (a₁.page q).frame = (a.page q).frame := by
  cases h with
  | hit _ =>
    rw [touch_page, Function.update_of_ne hq] at hv ⊢
    exact ⟨hv, rfl⟩
  | free _ _ =>
    rw [load_touch_page, Function.update_of_ne hq] at hv ⊢
    exact ⟨hv, rfl⟩
  | @evict _ bye a' _ _ _ _ _ hout =>
    rw [load_touch_page, Function.update_of_ne hq] at hv ⊢
    obtain ⟨-, -, -, x, hpage, hxv, hxf, -⟩ := evictFrame_some hout
    rw [hpage] at hv ⊢
    by_cases hqb : q = bye
    · subst hqb
      rw [Function.update_self, hxv] at hv
      cases hv
    · rw [Function.update_of_ne hqb] at hv ⊢
      exact ⟨hv, rfl⟩

/-- **A reference to a placed page**: it fails just if the policy does. -/
theorem accessMem_placed (hmem : memsize ≤ 2 ^ 19) {io : Io} {type : Char}
    (hlt : ∀ frame x, d.evict s.coremap s.policy = some (frame, x) → frame < memsize)
    (hp : entryOf vaddr = some p)
    (h : d.Placed memsize io.pageout p vaddr (decide (Writes type)) s.pager s.policy a₁ frame x₁) :
    (accessMem d.policy memsize io type vaddr s).map (fun r => r.2.both) =
      (d.ref a₁.coremap frame x₁).map fun x => (a₁.bump p (decide (Writes type)), x) := by
  rw [accessMem_serve hmem hlt, hp, Option.bind_some, h.serve, Option.map_map]
  rfl

end Cscc69.Paging
