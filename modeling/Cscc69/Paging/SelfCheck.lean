import Cscc69.Paging.Contents

/-!
# The self-check of a page

`init_frame` records the address of the reference that loads a page in the frame, behind the
version counter, and `access_mem` compares it with the address of every reference. If all addresses
are the first of their pages, the tag of a resident page is the address of the page (`Tagged`): a
load writes it, and later loads, hits and version counts leave it alone. So the check never fires
(`selfCheck`).
-/

namespace Cscc69.Paging

open Bytes Pager

variable {σ : Type*} {memsize frame : ℕ} {io : Transfer} {p q : Ptr} {vaddr : BitVec 64}
  {write : Bool} {a a' : Pager}

/-- The first address of a page. -/
def PageStart (vaddr : BitVec 64) : Prop := vaddr.toNat % 4096 = 0 ∧ vaddr.toNat < 2 ^ 36

instance (vaddr : BitVec 64) : Decidable (PageStart vaddr) := by unfold PageStart; infer_instance

/-- A page has one such address. -/
theorem PageStart.eq {vaddr vaddr' : BitVec 64} (h : PageStart vaddr) (h' : PageStart vaddr')
    (hp : entryOf vaddr = some p) (hp' : entryOf vaddr' = some p) : vaddr = vaddr' := by
  have hpage := (entryOf_eq_iff h.2 h'.2).1 (hp.trans hp'.symm)
  obtain ⟨hzero, -⟩ := h
  obtain ⟨hzero', -⟩ := h'
  apply BitVec.eq_of_toNat_eq
  omega

/-- The address recorded in the frame of a page. -/
abbrev Pager.tag (a : Pager) (q : Ptr) : ℕ := a.field q 4 8

/-- Every resident page is tagged with its address. -/
def Pager.Tagged (a : Pager) : Prop :=
  ∀ q, (a.page q).valid = true → ∃ vaddr, PageStart vaddr ∧ entryOf vaddr = some q ∧
    a.tag q = vaddr.toNat

theorem tag_initFrame (frame : ℕ) (vaddr : BitVec 64) (m : Mem) :
    Bytes.load (initFrame frame vaddr m) (frame * simpagesize + 4) 8 = vaddr.toNat := by
  unfold initFrame
  rw [load_store]
  exact Nat.mod_eq_of_lt vaddr.isLt

/-- A page that is loaded is tagged with the address of the reference. -/
theorem Refer.tag_load (href : Refer memsize io p vaddr write a a')
    (hv : (a.page p).valid = false) : a'.tag p = vaddr.toNat := by
  obtain ⟨f, m, hfield⟩ := href.field_load hv 4 8
  exact hfield.trans (tag_initFrame f vaddr m)

/-- **A reference to the first address of a page finds it there.** -/
theorem Pager.Tagged.found (h : a.Tagged) (href : Refer memsize io p vaddr write a a')
    (hvaddr : PageStart vaddr) (hp : entryOf vaddr = some p) : a'.tag p = vaddr.toNat := by
  cases hv : (a.page p).valid with
  | false => exact href.tag_load hv
  | true =>
    obtain ⟨vaddr', hvaddr', hp', htag⟩ := h p hv
    rw [Pager.tag, href.field_hit hv, ← Pager.tag, htag, hvaddr'.eq hvaddr hp' hp]

/-- **Every reference keeps the tags.** -/
theorem Pager.Tagged.refer (h : a.Tagged) (hinv : a.Inv memsize)
    (href : Refer memsize io p vaddr write a a') (hvaddr : PageStart vaddr)
    (hp : entryOf vaddr = some p) : a'.Tagged := by
  intro q hq
  by_cases hqp : q = p
  · subst hqp
    exact ⟨vaddr, hvaddr, hp, h.found href hvaddr hp⟩
  · obtain ⟨hqv, hfield⟩ := href.field_other hinv hqp hq (by decide : 4 + 8 ≤ simpagesize)
    obtain ⟨vaddr', hvaddr', hp', htag⟩ := h q hqv
    exact ⟨vaddr', hvaddr', hp', hfield.trans htag⟩

/-! ## The version counter -/

/-- The increment changes the first four bytes of the frame, and nothing else. -/
theorem bump_byte (hmem : memsize ≤ 2 ^ 19) (hinv : a.Inv memsize)
    (hp : (a.page p).valid = true) {i : ℕ}
    (hi : i < (a.page p).frame * simpagesize ∨ (a.page p).frame * simpagesize + 4 ≤ i) :
    (a.bump p write).physmem i = a.physmem i := by
  cases write with
  | false => rfl
  | true =>
    rw [bump_physmem hmem hinv hp]
    exact agree_store (b := i + 1) (s := i) (by omega) i le_rfl (Nat.lt_succ_self i)

theorem tag_bump (hmem : memsize ≤ 2 ^ 19) (hinv : a.Inv memsize) (hp : (a.page p).valid = true) :
    (a.bump p write).tag p = a.tag p := by
  unfold Pager.tag Pager.field
  rw [bump_page]
  exact load_congr fun i hi _ => bump_byte hmem hinv hp (.inr hi)

theorem Pager.Tagged.bump (h : a.Tagged) (hmem : memsize ≤ 2 ^ 19) (hinv : a.Inv memsize)
    (hp : (a.page p).valid = true) : (a.bump p write).Tagged := by
  intro q hq
  rw [bump_page] at hq
  obtain ⟨vaddr, hvaddr, hq', htag⟩ := h q hq
  refine ⟨vaddr, hvaddr, hq', ?_⟩
  by_cases hqp : q = p
  · subst hqp
    rw [tag_bump hmem hinv hp, htag]
  · rw [Pager.tag, field_bump_of_ne hmem hinv hp hq hqp (by decide), ← Pager.tag, htag]

/-! ## Traces -/

variable {pol : Policy σ} {s s' : Sim σ} {r : Reference}
  {h : List (Lts.Transition (Sim σ) Reference)}

theorem tagged_step (hok : pol.Ok memsize) (hmem : memsize ≤ 2 ^ 19) (hinv : s.pager.Inv memsize)
    (htag : s.pager.Tagged) (hr : PageStart r.vaddr) (hs : step pol memsize s r s') :
    s'.pager.Tagged := by
  obtain ⟨p, a', hp, href, heq⟩ := step_refer hok hmem hs
  rw [heq]
  exact (htag.refer hinv href hr hp).bump hmem (href.inv hinv) href.valid

/-- In a trace of such addresses every resident page is tagged with its own. -/
theorem Run.tagged (hok : pol.Ok memsize) (hmem : memsize ≤ 2 ^ 19) (hr : Run pol memsize h s)
    (hall : ∀ t ∈ h, PageStart t.event.vaddr) : s.pager.Tagged := by
  obtain ⟨swapsize, physmem, file, policy, s₀, hs₀, hr⟩ := hr
  have htag₀ : s₀.pager.Tagged := by
    intro q hq
    rw [(start_pager hs₀).1] at hq
    exact absurd hq (by decide)
  refine (Lts.Run.invariant_while
    (I := fun s => s.pager.Inv memsize ∧ s.pager.Tagged) (C := fun _ r => PageStart r.vaddr)
    ⟨inv_start hs₀, htag₀⟩ (fun s r s' hI hr hs => ?_) hr hall).2
  exact ⟨inv_step hok hmem hI.1 hs, tagged_step hok hmem hI.1 hI.2 hr hs⟩

/-- **The self-check never fires** in a trace of first addresses, whatever the swap file does; and
the increment after it changes neither the tag nor any byte of another frame. -/
theorem selfCheck (hok : pol.Ok memsize) (hmem : memsize ≤ 2 ^ 19) (hr : Run pol memsize h s)
    (hall : ∀ t ∈ h, PageStart t.event.vaddr) (hvaddr : PageStart r.vaddr) {ok : Bool}
    (hacc : accessMem pol memsize r.io r.type r.vaddr s = some (ok, s')) :
    ∃ ptr s₁, findPhyspage pol memsize r.io r.vaddr r.type s = some (ptr, s₁) ∧ ok = true ∧
      Bytes.load s₁.physmem (ptr.toNat + 4) 8 = r.vaddr.toNat ∧
      Bytes.load s'.physmem (ptr.toNat + 4) 8 = r.vaddr.toNat ∧
      ∀ f i, f * simpagesize ≠ ptr.toNat → i < simpagesize →
        s'.physmem (f * simpagesize + i) = s₁.physmem (f * simpagesize + i) := by
  have hinv := hr.inv hok hmem
  have htag := hr.tagged hok hmem hall
  have hacc' := hacc
  unfold accessMem at hacc'
  obtain ⟨⟨ptr, s₁⟩, hfind, heq⟩ := Option.map_eq_some_iff.1 hacc'
  obtain ⟨p, hp, href, hv, hptr⟩ := findPhyspage_refer hok hmem hfind
  have hinv₁ := href.inv hinv
  have hnat : ptr.toNat = (s₁.pager.page p).frame * simpagesize := by
    rw [hptr]
    exact ptr_toNat hmem hinv₁ hv
  have hfound : s₁.pager.tag p = r.vaddr.toNat := htag.found href hvaddr hp
  have hload : Bytes.load s₁.physmem (ptr.toNat + 4) 8 = r.vaddr.toNat := by
    rw [hnat]
    exact hfound
  have hs' : s'.physmem = (s₁.pager.bump p (decide (Writes r.type))).physmem := by
    unfold Pager.bump
    rw [← hptr]
    dsimp only at heq
    by_cases hw : Writes r.type
    · rw [if_pos hw] at heq
      rw [← (Prod.mk.inj heq).2, if_pos (by simpa using hw)]
      rfl
    · rw [if_neg hw] at heq
      rw [← (Prod.mk.inj heq).2, if_neg (by simpa using hw)]
      rfl
  refine ⟨ptr, s₁, hfind, ?_, hload, ?_, fun f i hf hi => ?_⟩
  · dsimp only at heq
    rw [hload, decide_eq_true rfl] at heq
    split at heq
    · exact (Prod.mk.inj heq).1.symm
    · exact (Prod.mk.inj heq).1.symm
  · rw [hs', hnat]
    have hkept : (s₁.pager.bump p (decide (Writes r.type))).tag p = _ := tag_bump hmem hinv₁ hv
    unfold Pager.tag Pager.field at hkept
    rw [bump_page] at hkept
    exact hkept.trans hfound
  · rw [hs']
    refine bump_byte hmem hinv₁ hv ?_
    have hsize : simpagesize = 16 := rfl
    rw [hnat, hsize] at hf
    rw [hsize] at hi ⊢
    omega

/-- One frame: page 0 is written, and page 1 takes its place and is written. -/
theorem selfCheck_two : ∃ (h : List (Lts.Transition (Sim (Fin 1)) Reference)) (s : Sim (Fin 1))
    (ok : Bool) (s' : Sim (Fin 1)), h.length = 1 ∧
    accessMem (fifo 1) 1 Io.whole 'M' 0x1000 s = some (ok, s') ∧
    ∃ ptr s₁, findPhyspage (fifo 1) 1 Io.whole 0x1000 'M' s = some (ptr, s₁) ∧ ok = true ∧
      Bytes.load s₁.physmem (ptr.toNat + 4) 8 = (0x1000 : BitVec 64).toNat ∧
      Bytes.load s'.physmem (ptr.toNat + 4) 8 = (0x1000 : BitVec 64).toNat ∧
      ∀ f i, f * simpagesize ≠ ptr.toNat → i < simpagesize →
        s'.physmem (f * simpagesize + i) = s₁.physmem (f * simpagesize + i) := by
  obtain ⟨⟨s, ok, s'⟩, hs⟩ : ∃ x, ((replay (fifo 1) 1 [⟨'S', 0, Io.whole⟩] (exStart 0)).bind
      fun s => (accessMem (fifo 1) 1 Io.whole 'M' 0x1000 s).map fun r => (s, r)) = some x :=
    Option.isSome_iff_exists.1 (by decide)
  obtain ⟨s₁, hreplay, hs⟩ := Option.bind_eq_some_iff.1 hs
  obtain ⟨r, hacc, heq⟩ := Option.map_eq_some_iff.1 hs
  obtain ⟨rfl, rfl⟩ := Prod.mk.inj heq
  obtain ⟨h, hr, hevents⟩ := replay_run (exStart_start 0) hreplay
  have hlen : h.length = 1 := by simpa using congrArg List.length hevents
  have hall : ∀ t ∈ h, PageStart t.event.vaddr := by
    intro t ht
    have hmem : t.event ∈ (h.map (·.event)).reverse :=
      List.mem_reverse.2 (List.mem_map_of_mem ht)
    rw [hevents, List.mem_singleton] at hmem
    rw [hmem]
    decide
  exact ⟨h, s₁, ok, s', hlen, hacc, selfCheck (r := ⟨'M', 0x1000, Io.whole⟩) (fifo_ok 1)
    (by decide) hr hall (by decide) hacc⟩

end Cscc69.Paging
