import Cscc69.Paging.ClockRuns
import Cscc69.Paging.FifoOrder
import Cscc69.Paging.Lru
import Cscc69.Paging.Opt

/-!
# The table of algorithms

`main` looks up the algorithm in the table `algs`. Here is the last of its five policies, rand, and
what the lookup gives: for each row a policy over data of its own, and its data before the trace.

A policy can fail to return, and then the simulator does not get to the end of the trace. Lru does
when it reads a freed node. The others always return (`Alg.completes`): rand and fifo look at
nothing but a number; opt does as long as it has an item for every reference; and the hand of clock
only leaves the first frame when all frames are in use, so that there is a page wherever it stands
(`HandOk`), and the recursion ends because the frames have different pages.
-/

namespace Cscc69.Paging

open Pager SecondChance

variable {σ : Type*} {memsize fuel : ℕ} {past : List Ptr} {r : Reference} {p : Ptr}

/-! ## The rand policy -/

/-- The data are the numbers that `random` is going to return. -/
def randEvict (memsize : ℕ) (s : Sim (ℕ → ℕ)) : Option (ℕ × Sim (ℕ → ℕ)) :=
  if memsize = 0 then none
  else some (s.policy 0 % memsize, { s with policy := fun n => s.policy (n + 1) })

def randRef (_ : Ptr) (s : Sim (ℕ → ℕ)) : Option (Sim (ℕ → ℕ)) := some s

def rand (memsize : ℕ) : Policy (ℕ → ℕ) := ⟨randEvict memsize, randRef⟩

theorem rand_ok (memsize : ℕ) : (rand memsize).Ok memsize where
  evict_lt h := by
    obtain ⟨hpos, h⟩ := Option.ite_none_left_eq_some.1 h
    obtain ⟨rfl, -⟩ := Prod.mk.inj (Option.some.inj h)
    exact Nat.mod_lt _ (Nat.pos_of_ne_zero hpos)
  evict h := by
    obtain ⟨-, h⟩ := Option.ite_none_left_eq_some.1 h
    obtain ⟨-, rfl⟩ := Prod.mk.inj (Option.some.inj h)
    exact .of_policy _ _
  ref h := by
    obtain rfl := Option.some.inj h
    exact .of_policy _ _

theorem opt_ok (hpos : 1 ≤ memsize) : (opt memsize).Ok memsize where
  evict_lt {s _ _} h := by
    obtain ⟨⟨e, d⟩, hev, heq⟩ := Option.map_eq_some_iff.1
      ((DataPolicy.policy_evict (optData memsize) s).symm.trans h)
    obtain ⟨rfl, -⟩ := Prod.mk.inj heq
    exact optEvict_lt hpos hev
  evict {s _ _} h := by
    obtain ⟨_, -, heq⟩ := Option.map_eq_some_iff.1
      ((DataPolicy.policy_evict (optData memsize) s).symm.trans h)
    obtain ⟨-, rfl⟩ := Prod.mk.inj heq
    exact .of_policy _ _
  ref {_ _ _} h := by
    obtain ⟨_, -, rfl⟩ := Option.map_eq_some_iff.1
      ((DataPolicy.policy_ref (optData memsize) _ _).symm.trans h)
    exact .of_policy _ _

/-! ## The table -/

inductive Alg
  | rand
  | lru
  | fifo
  | clock
  | opt
  deriving DecidableEq

/-- `algs[i].name` -/
def Alg.name : Alg → List UInt8
  | rand => [114, 97, 110, 100]
  | lru => [108, 114, 117]
  | fifo => [102, 105, 102, 111]
  | clock => [99, 108, 111, 99, 107]
  | opt => [111, 112, 116]

def algs : List Alg := [.rand, .lru, .fifo, .clock, .opt]

/-- The row whose name compares equal. -/
def findAlg (replacementAlg : List UInt8) : Option Alg :=
  algs.find? fun alg => alg.name = replacementAlg

/-- Every algorithm is found by its name, and by no other. -/
theorem findAlg_eq_some {name : List UInt8} {alg : Alg} :
    findAlg name = some alg ↔ name = alg.name := by
  constructor
  · intro h
    exact (of_decide_eq_true (List.find?_some h :)).symm
  · rintro rfl
    cases alg <;> rfl

/-- What the policies keep in the coremap or in variables of their own. -/
abbrev Alg.Data (memsize : ℕ) : Alg → Type
  | rand => ℕ → ℕ
  | lru => LruData
  | fifo => Fin memsize
  | clock => ℕ
  | opt => OptData

/-- `algs[i].ref` and `algs[i].evict` -/
def Alg.policy (malloc : DList.Malloc ℕ) (fuel memsize : ℕ) : (alg : Alg) →
    Policy (alg.Data memsize)
  | rand => Paging.rand memsize
  | lru => Paging.lru malloc fuel
  | fifo => Paging.fifo memsize
  | clock => Paging.clock fuel memsize
  | opt => Paging.opt memsize

variable {malloc : DList.Malloc ℕ}

/-- All but lru keep to frames below `memsize`, whatever their data. -/
theorem Alg.policy_ok {alg : Alg} (halg : alg ≠ .lru) (hpos : 1 ≤ memsize) :
    (alg.policy malloc fuel memsize).Ok memsize := by
  cases alg with
  | rand => exact rand_ok memsize
  | lru => exact absurd rfl halg
  | fifo => exact fifo_ok memsize
  | clock => exact clock_ok fuel memsize
  | opt => exact opt_ok hpos

/-! ## Traces that are replayed to their end -/

section Replay
variable {pol : Policy σ}

theorem Tracked.step {s s' : Sim σ} (ht : Tracked memsize past s.pager) (hok : pol.Ok memsize)
    (hmem : memsize ≤ 2 ^ 19) (hp : entryOf r.vaddr = some p) (hs : step pol memsize s r s') :
    Tracked memsize (p :: past) s'.pager := by
  obtain ⟨q, a', hq, hrefer, hs'⟩ := step_refer hok hmem hs
  obtain rfl : p = q := Option.some.inj (hp.symm.trans hq)
  rw [hs']
  exact (ht.refer hrefer).bump p _

/-- If what the policy needs, `I`, lets it return, and every reference keeps it, the trace is
replayed to its end. -/
theorem replay_isSome (hok : pol.Ok memsize) (hmem : memsize ≤ 2 ^ 19)
    {I : List Reference → Sim σ → Prop}
    (hevict : ∀ {r rs s p}, I (r :: rs) s → s.pager.Inv memsize → EvictCall memsize s r p →
      ∃ x, pol.evict (s.missed p) = some x)
    (href : ∀ {r rs s s₁ p}, I (r :: rs) s → s.pager.Inv memsize →
      pol.Placed memsize r.io.pageout p r.vaddr (decide (Writes r.type)) s s₁ →
      ∃ s₂, pol.ref p s₁ = some s₂ ∧
        ∀ s', s'.coremap = s₂.coremap → s'.policy = s₂.policy → I rs s')
    {rs : List Reference} {s : Sim σ} (ht : Tracked memsize past s.pager) (hI : I rs s)
    (hrs : ∀ r ∈ rs, (entryOf r.vaddr).isSome = true) :
    ∃ s', replay pol memsize rs s = some s' := by
  induction rs generalizing past s with
  | nil => exact ⟨s, rfl⟩
  | cons r rs ih =>
    obtain ⟨p, hp⟩ := Option.isSome_iff_exists.1 (hrs r List.mem_cons_self)
    obtain ⟨s', hs'⟩ := accessMem_isSome hok hmem ht hp (hevict hI ht.inv) fun s₁ hplaced => by
      obtain ⟨s₂, hs₂, -⟩ := href hI ht.inv hplaced
      exact ⟨s₂, hs₂⟩
    have hI' : I rs s' := by
      obtain ⟨q, s₁, s₂, hq, hplaced, hs₂, hpager, -, hpol⟩ := step_placed hok hmem hs'
      obtain ⟨s₃, hs₃, hnext⟩ := href hI ht.inv hplaced
      obtain rfl : s₂ = s₃ := Option.some.inj (hs₂.symm.trans hs₃)
      refine hnext s' ?_ hpol
      have hcore := congrArg Pager.coremap hpager
      rwa [bump_coremap] at hcore
    obtain ⟨s'', hs''⟩ := ih (ht.step hok hmem hp hs') hI' fun r hr =>
      hrs r (List.mem_cons_of_mem _ hr)
    obtain ⟨ok, hacc⟩ := hs'
    refine ⟨s'', ?_⟩
    unfold replay
    rw [hacc]
    exact hs''

/-- A policy that always returns needs nothing. -/
theorem simple_isSome (hok : pol.Ok memsize) (hmem : memsize ≤ 2 ^ 19)
    (hevict : ∀ s, ∃ x, pol.evict s = some x) (href : ∀ p s, ∃ s', pol.ref p s = some s')
    {rs : List Reference} {s : Sim σ} (ht : Tracked memsize past s.pager)
    (hrs : ∀ r ∈ rs, (entryOf r.vaddr).isSome = true) :
    ∃ s', replay pol memsize rs s = some s' := by
  refine replay_isSome hok hmem (I := fun _ _ => True) ?_ ?_ ht trivial hrs
  · intro r rs s p _ _ _
    exact hevict _
  · intro r rs s s₁ p _ _ _
    obtain ⟨s₂, hs₂⟩ := href p s₁
    exact ⟨s₂, hs₂, fun _ _ _ => trivial⟩

end Replay

theorem fifo_isSome (hmem : memsize ≤ 2 ^ 19) {rs : List Reference} {s : Sim (Fin memsize)}
    (ht : Tracked memsize past s.pager) (hrs : ∀ r ∈ rs, (entryOf r.vaddr).isSome = true) :
    ∃ s', replay (fifo memsize) memsize rs s = some s' :=
  simple_isSome (fifo_ok memsize) hmem (fun _ => ⟨_, rfl⟩) (fun _ s => ⟨s, rfl⟩) ht hrs

/-! ## The hand of clock -/

/-- Where the hand stands there is a page, if there is one at all. -/
structure HandOk (memsize : ℕ) (s : Sim ℕ) : Prop where
  hand : s.policy < memsize
  /-- the frames in use come before the free ones -/
  initial : ∀ f, (s.coremap f).inUse = true → ∀ g < f, (s.coremap g).inUse = true
  first : s.policy = 0 ∨ ∀ i < memsize, (s.coremap i).inUse = true

theorem clockEvict_hand {frame : ℕ} {s s' : Sim ℕ}
    (h : clockEvict memsize fuel s = some (frame, s')) : s'.policy < memsize := by
  have hpos : 0 < memsize := Nat.zero_lt_of_lt (clockEvict_onlyRef h).1
  -- the hand moves on last, whichever way `clock_evict` returns
  have hadvance : ∀ s : Sim ℕ, (s.advance memsize).policy < memsize := by
    intro s
    unfold Sim.advance
    dsimp only
    split
    · exact hpos
    · rename_i hlt
      exact Nat.lt_of_not_le hlt
  cases fuel with
  | zero => cases h
  | succ fuel =>
    unfold clockEvict at h
    dsimp only at h
    split at h
    · cases h
    · split at h
      · split at h
        · cases h
        · obtain ⟨-, rfl⟩ := Prod.mk.inj (Option.some.inj h)
          exact hadvance _
      · obtain ⟨-, rfl⟩ := Prod.mk.inj (Option.some.inj h)
        exact hadvance _

/-- Placing a page keeps it, and then the frame at the hand is in use. -/
theorem HandOk.placed {s s₁ : Sim ℕ} (h : HandOk memsize s) (hinv : s.pager.Inv memsize)
    (hplaced : (clock fuel memsize).Placed memsize r.io.pageout p r.vaddr (decide (Writes r.type))
      s s₁) : HandOk memsize s₁ ∧ (s₁.coremap s₁.policy).inUse = true := by
  have hrefer := hplaced.refer (clock_ok fuel memsize)
  have hinv₁ := hrefer.inv hinv
  have huse : (s₁.coremap (s₁.pager.page p).frame).inUse = true :=
    congrArg Frame.inUse (hinv₁.resident p hrefer.valid)
  -- the new page's frame is in use, and with it those before it
  suffices hok : HandOk memsize s₁ by
    refine ⟨hok, ?_⟩
    obtain hzero | hall := hok.first
    · rw [hzero]
      obtain heq | hpos := Nat.eq_zero_or_pos (s₁.pager.page p).frame
      · rwa [heq] at huse
      · exact hok.initial _ huse 0 hpos
    · exact hall _ hok.hand
  have hcore₁ : s₁.pager.coremap = s₁.coremap := rfl
  cases hplaced with
  | hit _ hpager _ hpol =>
    have hcore : s₁.coremap = s.coremap := by
      rw [← hcore₁, hpager]
      rfl
    exact ⟨hpol ▸ h.hand, hcore ▸ h.initial, hpol ▸ hcore ▸ h.first⟩
  | @free frame _ hfree hpager _ hpol =>
    have hcore : s₁.coremap = Function.update s.coremap frame ⟨true, some p⟩ := by
      rw [← hcore₁, hpager]
      rfl
    refine ⟨hpol ▸ h.hand, hcore ▸ initial_update h.initial hfree, .inl (hpol.trans ?_)⟩
    obtain hzero | hall := h.first
    · exact hzero
    · have hnot := List.find?_some hfree
      rw [hall frame (List.mem_range.1 (List.mem_of_find?_eq_some hfree))] at hnot
      cases hnot
  | @evict frame bye s₂ a' _ hall hev _ hout hpager _ hpol =>
    have huse' : ∀ f, (s₁.coremap f).inUse = true ↔ (s.coremap f).inUse = true := by
      intro f
      rw [← hcore₁, hpager, touch_coremap, load_coremap, (evictFrame_some hout).1]
      by_cases hf : f = frame
      · subst hf
        rw [Function.update_self]
        exact iff_of_true rfl (hall f (clockEvict_onlyRef hev).1)
      · rw [Function.update_of_ne hf]
        rfl
    refine ⟨hpol ▸ clockEvict_hand hev, fun f hf g hg => ?_, .inr fun i hi => ?_⟩
    · exact (huse' g).2 (h.initial f ((huse' f).1 hf) g hg)
    · exact (huse' i).2 (hall i hi)

/-- **The recursion of `clock_evict` ends in every run**, and `clock_ref` finds a page at the
hand. -/
theorem clock_isSome (hmem : memsize ≤ 2 ^ 19) (hfuel : memsize < fuel)
    {rs : List Reference} {s : Sim ℕ} (ht : Tracked memsize past s.pager) (hok : HandOk memsize s)
    (hrs : ∀ r ∈ rs, (entryOf r.vaddr).isSome = true) :
    ∃ s', replay (clock fuel memsize) memsize rs s = some s' := by
  refine replay_isSome (clock_ok fuel memsize) hmem (I := fun _ s => HandOk memsize s) ?_ ?_ ht hok
    hrs
  · intro r rs s p hok hinv hcall
    have hd : Distinct memsize (s.missed p) := by
      refine distinct_of_full (missed_inv hinv p) ?_ ?_
      · rw [missed_policy]
        exact hok.hand
      · rw [missed_coremap]
        simpa using hcall.full
    have hle := (passed_spec memsize (s.missed p).policy ((s.missed p).bitAt memsize)).1
    obtain ⟨frame, s', hev, -⟩ := clockEvict_sweeps hd (Nat.lt_of_le_of_lt hle hfuel)
    exact ⟨_, hev⟩
  · intro r rs s s₁ p hok hinv hplaced
    obtain ⟨hok₁, huse⟩ := hok.placed hinv hplaced
    have hinv₁ := (hplaced.refer (clock_ok fuel memsize)).inv hinv
    obtain ⟨q, hq, -⟩ := pteAt_of_inUse hinv₁ huse
    refine ⟨s₁.orFrame q pgRef, ?_, fun s' hcore hpol => ⟨?_, ?_, ?_⟩⟩
    · show (s₁.pteAt memsize s₁.policy).map _ = _
      rw [hq]
      rfl
    · rw [hpol]
      exact hok₁.hand
    · rw [hcore]
      exact hok₁.initial
    · rw [hcore, hpol]
      exact hok₁.first

theorem optRef_items {d : OptData} {item : TraceItem} {items : List TraceItem}
    (hcur : d.cur = item :: items) (coremap : ℕ → Frame) (frame : ℕ) :
    ∃ d', optRef coremap frame d = some d' ∧ d'.cur = items := by
  unfold optRef
  rw [hcur]
  exact ⟨_, rfl, rfl⟩

theorem start_handOk {swapsize : BitVec 32} {physmem file : Bytes.Mem} {s₀ : Sim ℕ}
    (hpos : 1 ≤ memsize) (hs₀ : start swapsize physmem file clockInit = some s₀) :
    HandOk memsize s₀ := by
  obtain ⟨_, -, rfl⟩ := Option.map_eq_some_iff.1 hs₀
  exact ⟨hpos, fun _ hf => absurd hf Bool.false_ne_true, .inl rfl⟩

/-- **`clock_evict` ends whenever it is called**, in every run: its recursion is no deeper than
there are frames, and one. -/
theorem clock_completes (hpos : 1 ≤ memsize) (hmem : memsize ≤ 2 ^ 19) {swapsize : BitVec 32}
    {physmem file : Bytes.Mem} {s₀ : Sim ℕ}
    (hs₀ : start swapsize physmem file clockInit = some s₀) {rs : List Reference}
    (hrs : ∀ r ∈ rs, (entryOf r.vaddr).isSome = true) :
    ∃ s, replay (clock (memsize + 1) memsize) memsize rs s₀ = some s :=
  clock_isSome hmem (Nat.lt_succ_self memsize) (start_tracked hs₀) (start_handOk hpos hs₀) hrs

/-- Three pages in two frames. -/
theorem clock_completes_three : ∃ s,
    replay (clock 3 2) 2 [exRead 0, exRead 1, exRead 2] (exStart clockInit) = some s :=
  clock_completes (by decide) (by decide) (exStart_start clockInit) (by decide)

/-- Opt has to have an item for every reference. -/
theorem opt_isSome (hpos : 1 ≤ memsize) (hmem : memsize ≤ 2 ^ 19) {rs : List Reference}
    {s : Sim OptData} (ht : Tracked memsize past s.pager) (hitems : rs.length ≤ s.policy.cur.length)
    (hrs : ∀ r ∈ rs, (entryOf r.vaddr).isSome = true) :
    ∃ s', replay (opt memsize) memsize rs s = some s' := by
  refine replay_isSome (opt_ok hpos) hmem (I := fun rs s => rs.length ≤ s.policy.cur.length)
    ?_ ?_ ht hitems hrs
  · intro r rs s p _ _ _
    exact ⟨_, rfl⟩
  · intro r rs s s₁ p hitems hinv hplaced
    have hpol : s₁.policy = s.policy := by
      cases hplaced with
      | hit _ _ _ hpol => exact hpol
      | free _ _ _ _ hpol => exact hpol
      | evict _ _ hev _ _ _ _ hpol =>
        obtain ⟨⟨e, d⟩, hd, heq⟩ := Option.map_eq_some_iff.1
          ((DataPolicy.policy_evict (optData memsize) (s.missed p)).symm.trans hev)
        obtain ⟨-, rfl⟩ := Prod.mk.inj (Option.some.inj hd)
        obtain ⟨-, rfl⟩ := Prod.mk.inj heq
        rw [hpol]
        exact missed_policy s p
    obtain ⟨cur, items, hcur⟩ := List.exists_cons_of_length_pos
      (Nat.lt_of_lt_of_le (Nat.succ_pos rs.length) hitems)
    rw [hcur] at hitems
    obtain ⟨d', hd', hcur'⟩ := optRef_items hcur s₁.coremap (s₁.entry p).frameNo
    refine ⟨{ s₁ with policy := d' }, ?_, fun s' _ hpol' => ?_⟩
    · rw [← hpol] at hd'
      exact Option.map_eq_some_iff.2 ⟨d', hd', rfl⟩
    · rw [hpol', hcur']
      exact Nat.le_of_succ_le_succ hitems

/-! ## The four that return -/

/-- What the data have to be before the trace `rs`. -/
def Alg.Ready (rs : List Reference) : (alg : Alg) → alg.Data memsize → Prop
  | rand, _ => True
  | lru, _ => False
  | fifo, _ => True
  | clock, hand => hand = clockInit
  | opt, d => rs.length ≤ d.cur.length

/-- **All algorithms but lru replay every trace to its end**, whose addresses are in range. -/
theorem Alg.completes {alg : Alg} (hpos : 1 ≤ memsize) (hmem : memsize ≤ 2 ^ 19)
    (hfuel : memsize < fuel) {swapsize : BitVec 32} {physmem file : Bytes.Mem}
    {policy : alg.Data memsize} {s₀ : Sim (alg.Data memsize)}
    (hs₀ : start swapsize physmem file policy = some s₀) {rs : List Reference}
    (hready : alg.Ready rs policy) (hrs : ∀ r ∈ rs, (entryOf r.vaddr).isSome = true) :
    ∃ s', replay (alg.policy malloc fuel memsize) memsize rs s₀ = some s' := by
  have ht : Tracked memsize [] s₀.pager := start_tracked hs₀
  cases alg with
  | rand =>
    exact simple_isSome (rand_ok memsize) hmem (fun s => ⟨_, if_neg (Nat.ne_of_gt hpos)⟩)
      (fun _ s => ⟨s, rfl⟩) ht hrs
  | lru => exact hready.elim
  | fifo => exact fifo_isSome hmem ht hrs
  | clock =>
    rw [show policy = clockInit from hready] at hs₀
    exact clock_isSome hmem hfuel ht (start_handOk hpos hs₀) hrs
  | opt =>
    refine opt_isSome hpos hmem ht ?_ hrs
    obtain ⟨_, -, rfl⟩ := Option.map_eq_some_iff.1 hs₀
    exact hready

end Cscc69.Paging
