import Fluxfer.Memory.Kernels

/-!
# What the paged allocations return

`alloc_extend` and `alloc_decode` of `PagedTokenToKVPoolAllocator`. `alloc_decode` counts the new
pages by the remainder of the sequence length, which is right for pages of more than one slot only;
a pool with pages of one slot has another allocator.
-/

namespace Fluxfer.Memory

open Pages Allocator ExtendReq List Nat

/-- The pages an allocator can hand out, now or after a merge. -/
def Allocator.held (a : Allocator) : List Nat := a.freePages ++ a.releasePages

/-- Released pages are kept apart only to be sorted. -/
def Allocator.Tidy (a : Allocator) : Prop := a.needSort = true ∨ a.releasePages = []

def ExtendReq.Partial (ps : Nat) (r : ExtendReq) : Prop := ¬ r.prefixLen % ps = 0

/-- A batch for an allocator, when the slots `used` are in use: the allocator holds none of their
pages, and the last slot of a request that ends inside a page is followed by slots that nobody
uses. -/
structure BatchOk (ps : Nat) (a : Allocator) (reqs : List ExtendReq) (used : Nat → Prop) :
    Prop where
  le : ∀ r ∈ reqs, r.prefixLen ≤ r.seqLen
  aligned : ∀ r ∈ reqs, 0 < r.prefixLen → (r.lastLoc + 1) % ps = r.prefixLen % ps
  nodup : a.held.Nodup
  used_page : ∀ s, used s → s / ps ∉ a.held
  last_used : ∀ r ∈ reqs, r.Partial ps → used r.lastLoc
  rest_unused : ∀ r ∈ reqs, r.Partial ps → ∀ s, s / ps = r.lastLoc / ps → r.lastLoc < s → ¬ used s
  apart : reqs.Pairwise fun r r' => r.Partial ps → r'.Partial ps → r.lastLoc ≠ r'.lastLoc

/-- The slots `outs` of a batch, with the pages `fresh` taken from the allocator. -/
structure Allocated (ps : Nat) (a : Allocator) (reqs : List ExtendReq) (used : Nat → Prop)
    (fresh : List Nat) (outs : List (List Nat)) (a' : Allocator) : Prop where
  length_eq : outs.length = reqs.length
  lengths : ∀ i < reqs.length, (outs.getD i []).length = (reqAt reqs i).extendLen
  /-- the pages that leave the allocator -/
  taken : (fresh ++ a'.held).Perm a.held
  count : fresh.length = (reqs.map (numNewPages ps)).sum
  mod_eq : ∀ i < reqs.length, ∀ o < (reqAt reqs i).extendLen,
    ((outs.getD i []).getD o 0) % ps = ((reqAt reqs i).prefixLen + o) % ps
  /-- up to the end of the last page -/
  rest : ∀ i < reqs.length, ∀ o < (reqAt reqs i).extendLen,
    (reqAt reqs i).prefixLen + o < numPages ps (reqAt reqs i).prefixLen * ps →
    (outs.getD i []).getD o 0 = (reqAt reqs i).lastLoc + 1 + o
  /-- then the fresh pages of the request in order -/
  fresh_page : ∀ i < reqs.length, ∀ o < (reqAt reqs i).extendLen,
    numPages ps (reqAt reqs i).prefixLen * ps ≤ (reqAt reqs i).prefixLen + o →
    ((outs.getD i []).getD o 0) / ps = fresh.getD (pageStart ps reqs i +
      (((reqAt reqs i).prefixLen + o) / ps - numPages ps (reqAt reqs i).prefixLen)) 0
  distinct : outs.flatten.Nodup
  unused : ∀ s ∈ outs.flatten, ¬ used s

/-! ## The slots of a request -/

section Slots

variable {p : Nat}
variable {ps : Nat} {reqs : List ExtendReq} {free : List Nat} {i o : Nat}

theorem batchSlots_eq (kernel : ExtendReq → List Nat → List Nat) (reqs : List ExtendReq)
    (free : List Nat) : batchSlots ps kernel reqs free =
      (range reqs.length).map fun i => kernel (reqAt reqs i) (newPages ps reqs free i) := by
  induction reqs generalizing free with
  | nil => rfl
  | cons r rs ih =>
    rw [batchSlots, ih, length_cons, range_succ_eq_map, map_cons, map_map]
    refine congrArg₂ cons ?_ (map_congr_left fun i _ => ?_)
    · simp [newPages, pageStart, reqAt]
    · simp only [Function.comp_apply, newPages, pageStart, reqAt, take_succ_cons, map_cons,
        sum_cons, getD_cons_succ, drop_drop]

/-- The slot at position `p` of a request with the new pages `pages`. -/
def rowSlot (ps : Nat) (r : ExtendReq) (pages : List Nat) (p : Nat) : Nat :=
  slotAt ps (replicate (numPages ps r.prefixLen) (r.lastLoc / ps) ++ pages) p

variable {r : ExtendReq} {pages : List Nat}

theorem lastLoc_eq (hps : 0 < ps) (hpos : 0 < r.prefixLen)
    (hal : (r.lastLoc + 1) % ps = r.prefixLen % ps) :
    r.lastLoc = slotAt ps (replicate (numPages ps r.prefixLen) (r.lastLoc / ps))
      (r.prefixLen - 1) := by
  have hmod : r.lastLoc % ps = (r.prefixLen - 1) % ps := by
    refine Nat.ModEq.add_right_cancel' 1 ?_
    rwa [Nat.sub_add_cancel hpos]
  have hlt : (r.prefixLen - 1) / ps < numPages ps r.prefixLen := by
    rw [div_lt_iff_lt_mul hps]
    have := le_numPages_mul (n := r.prefixLen) hps
    omega
  rw [slotAt, ← hmod, getD_replicate _ hlt, div_add_mod']

theorem kernel_eq_map {kernel : ExtendReq → List Nat → List Nat} (hk : Continues ps kernel r)
    (hps : 0 < ps) (hp : pages.length = numNewPages ps r) (hle : r.prefixLen ≤ r.seqLen)
    (hal : 0 < r.prefixLen → (r.lastLoc + 1) % ps = r.prefixLen % ps) :
    kernel r pages =
      (range r.extendLen).map fun o => rowSlot ps r pages (r.prefixLen + o) := by
  have hcont := hk _ pages length_replicate hp hle fun hpos => lastLoc_eq hps hpos (hal hpos)
  have hseq : r.seqLen = r.prefixLen + r.extendLen := by
    rw [extendLen]
    omega
  rw [hseq, layout_add, layout_append] at hcont
  · exact append_cancel_left hcont
  · rw [length_replicate]
    exact le_numPages_mul hps

theorem rowSlot_mod (p : Nat) : rowSlot ps r pages p % ps = p % ps := slotAt_mod p

theorem rowSlot_rest (hps : 0 < ps) (hal : (r.lastLoc + 1) % ps = r.prefixLen % ps)
    (hpos : 0 < r.prefixLen) (ho : r.prefixLen + o < numPages ps r.prefixLen * ps) :
    rowSlot ps r pages (r.prefixLen + o) = r.lastLoc + 1 + o := by
  rw [rowSlot, slotAt_append _ (by rwa [length_replicate]), slotAt_next hps _ hpos ho,
    ← lastLoc_eq hps hpos hal]

theorem rowSlot_div_rest (hps : 0 < ps) (hp : p < numPages ps r.prefixLen * ps) :
    rowSlot ps r pages p / ps = r.lastLoc / ps := by
  have hlt : p / ps < numPages ps r.prefixLen := (div_lt_iff_lt_mul hps).mpr hp
  rw [rowSlot, slotAt_div hps, getD_append _ _ _ _ (by rwa [length_replicate]),
    getD_replicate _ hlt]

theorem rowSlot_div_fresh (hps : 0 < ps) (hp : numPages ps r.prefixLen * ps ≤ p) :
    rowSlot ps r pages p / ps = pages.getD (p / ps - numPages ps r.prefixLen) 0 := by
  have hle : numPages ps r.prefixLen ≤ p / ps := (le_div_iff_mul_le hps).mpr hp
  rw [rowSlot, slotAt_div hps, getD_append_right _ _ _ _ (by rwa [length_replicate]),
    length_replicate]

theorem fresh_lt (hps : 0 < ps) (hlo : numPages ps r.prefixLen * ps ≤ p) (hhi : p < r.seqLen) :
    p / ps - numPages ps r.prefixLen < numNewPages ps r := by
  have hle : numPages ps r.prefixLen ≤ p / ps := (le_div_iff_mul_le hps).mpr hlo
  have hlt : p / ps < numPages ps r.seqLen := by
    rw [div_lt_iff_lt_mul hps]
    exact hhi.trans_le (le_numPages_mul hps)
  rw [numNewPages]
  omega

theorem partial_of_lt (hps : 0 < ps) (hlo : r.prefixLen ≤ p)
    (hhi : p < numPages ps r.prefixLen * ps) : r.Partial ps ∧ 0 < r.prefixLen := by
  have hP : r.Partial ps := by
    intro h0
    obtain ⟨k, hk⟩ := dvd_of_mod_eq_zero h0
    rw [hk, mul_comm ps, numPages_mul hps] at hhi
    rw [hk, mul_comm ps] at hlo
    omega
  refine ⟨hP, pos_of_ne_zero fun h0 => hP ?_⟩
  rw [h0, zero_mod]

end Slots

/-! ## Batches -/

section Batches

variable {i o j : Nat} {l : List Nat}
variable {ps : Nat} {a b : Allocator} {reqs : List ExtendReq} {used : Nat → Prop}
  {kernel : ExtendReq → List Nat → List Nat}

/-- The slot at offset `o` of request `i`, with the free list `free`. -/
def batchSlot (ps : Nat) (reqs : List ExtendReq) (free : List Nat) (i o : Nat) : Nat :=
  rowSlot ps (reqAt reqs i) (newPages ps reqs free i) ((reqAt reqs i).prefixLen + o)

theorem length_newPages {free : List Nat} (hfree : totalNewPages ps reqs ≤ free.length)
    (hi : i < reqs.length) : (newPages ps reqs free i).length = numNewPages ps (reqAt reqs i) := by
  have : pageStart ps reqs i + numNewPages ps (reqAt reqs i) ≤ totalNewPages ps reqs :=
    pageStart_add_le hi
  rw [newPages, length_take, length_drop]
  omega

theorem batchSlot_page (hps : 0 < ps) (hok : BatchOk ps a reqs used) {free : List Nat}
    (hi : i < reqs.length) (ho : o < (reqAt reqs i).extendLen) :
    ((reqAt reqs i).Partial ps ∧
      batchSlot ps reqs free i o = (reqAt reqs i).lastLoc + 1 + o ∧
      batchSlot ps reqs free i o / ps = (reqAt reqs i).lastLoc / ps) ∨
    (numPages ps (reqAt reqs i).prefixLen * ps ≤ (reqAt reqs i).prefixLen + o ∧
      ((reqAt reqs i).prefixLen + o) / ps - numPages ps (reqAt reqs i).prefixLen <
        numNewPages ps (reqAt reqs i) ∧
      batchSlot ps reqs free i o / ps = free.getD (pageStart ps reqs i +
        (((reqAt reqs i).prefixLen + o) / ps - numPages ps (reqAt reqs i).prefixLen)) 0) := by
  set r := reqAt reqs i with hr
  have hmem : r ∈ reqs := reqAt_mem hi
  by_cases hlt : r.prefixLen + o < numPages ps r.prefixLen * ps
  · left
    obtain ⟨hP, hpos⟩ := partial_of_lt hps (le_add_right _ _) hlt
    exact ⟨hP, rowSlot_rest hps (hok.aligned r hmem hpos) hpos hlt, rowSlot_div_rest hps hlt⟩
  · right
    have hge := Nat.le_of_not_lt hlt
    have hseq : r.prefixLen + o < r.seqLen := by
      rw [extendLen] at ho
      omega
    have hfresh := fresh_lt hps hge hseq
    refine ⟨hge, hfresh, ?_⟩
    rw [batchSlot, rowSlot_div_fresh hps hge, newPages_getD hfresh]

theorem getD_mem (hi : i < l.length) : l.getD i 0 ∈ l := by
  rw [getD_eq_getElem _ _ hi]
  exact getElem_mem hi

theorem getD_inj (hl : l.Nodup) (hi : i < l.length) (hj : j < l.length)
    (h : l.getD i 0 = l.getD j 0) : i = j := by
  rw [getD_eq_getElem _ _ hi, getD_eq_getElem _ _ hj] at h
  exact (hl.getElem_inj_iff).mp h

theorem BatchOk.last_page_ne (hok : BatchOk ps a reqs used) (hi : i < reqs.length)
    (hj : j < reqs.length) (hij : i ≠ j) (hpi : (reqAt reqs i).Partial ps)
    (hpj : (reqAt reqs j).Partial ps) :
    (reqAt reqs i).lastLoc / ps ≠ (reqAt reqs j).lastLoc / ps := by
  intro hpage
  have hne : (reqAt reqs i).lastLoc ≠ (reqAt reqs j).lastLoc := by
    have hap := pairwise_iff_getElem.mp hok.apart
    simp only [reqAt, getD_eq_getElem _ _ hi, getD_eq_getElem _ _ hj] at hpi hpj ⊢
    obtain hlt | hlt := lt_or_gt_of_ne hij
    · exact hap i j hi hj hlt hpi hpj
    · exact (hap j i hj hi hlt hpj hpi).symm
  have hmi := reqAt_mem hi
  have hmj := reqAt_mem hj
  obtain hlt | hlt := lt_or_gt_of_ne hne
  · exact hok.rest_unused _ hmi hpi _ hpage.symm hlt (hok.last_used _ hmj hpj)
  · exact hok.rest_unused _ hmj hpj _ hpage hlt (hok.last_used _ hmi hpi)

variable {free : List Nat}

theorem fresh_mem (hfree : totalNewPages ps reqs ≤ free.length) {x : Nat} (hi : i < reqs.length)
    (hx : x < numNewPages ps (reqAt reqs i)) : pageStart ps reqs i + x < free.length := by
  have : pageStart ps reqs i + numNewPages ps (reqAt reqs i) ≤ totalNewPages ps reqs :=
    pageStart_add_le hi
  omega

variable (hps : 0 < ps) (hok : BatchOk ps a reqs used)
include hps hok

theorem batchSlot_inj (hsub : free ⊆ a.held)
    (hnd : free.Nodup) (hfree : totalNewPages ps reqs ≤ free.length) {o' : Nat}
    (hi : i < reqs.length) (hj : j < reqs.length) (ho : o < (reqAt reqs i).extendLen)
    (ho' : o' < (reqAt reqs j).extendLen)
    (h : batchSlot ps reqs free i o = batchSlot ps reqs free j o') : i = j ∧ o = o' := by
  obtain ⟨hpi, hsi, hdi⟩ | ⟨hgi, hxi, hdi⟩ := batchSlot_page hps hok hi ho <;>
    obtain ⟨hpj, hsj, hdj⟩ | ⟨hgj, hxj, hdj⟩ := batchSlot_page hps hok hj ho'
  · have hij : i = j := by
      by_contra hne
      exact hok.last_page_ne hi hj hne hpi hpj (by rw [← hdi, h, hdj])
    subst hij
    exact ⟨rfl, by omega⟩
  · -- the last page of a request is in use
    refine absurd ?_ (hok.used_page _ (hok.last_used _ (reqAt_mem hi) hpi))
    rw [← hdi, h, hdj]
    exact hsub (getD_mem (fresh_mem hfree hj hxj))
  · refine absurd ?_ (hok.used_page _ (hok.last_used _ (reqAt_mem hj) hpj))
    rw [← hdj, ← h, hdi]
    exact hsub (getD_mem (fresh_mem hfree hi hxi))
  · have hpage := getD_inj hnd (fresh_mem hfree hi hxi) (fresh_mem hfree hj hxj)
      (by rw [← hdi, h, hdj])
    obtain ⟨rfl, hx⟩ := sum_take_inj (numNewPages ps) hi hj hxi hxj hpage
    have hk := (le_div_iff_mul_le hps).mpr hgi
    have hk' := (le_div_iff_mul_le hps).mpr hgj
    have hmod : ((reqAt reqs i).prefixLen + o) % ps = ((reqAt reqs i).prefixLen + o') % ps := by
      have hm := congrArg (· % ps) h
      simpa only [batchSlot, rowSlot_mod] using hm
    have hdiv : ((reqAt reqs i).prefixLen + o) / ps = ((reqAt reqs i).prefixLen + o') / ps := by
      omega
    have hpos : (reqAt reqs i).prefixLen + o = (reqAt reqs i).prefixLen + o' := by
      rw [← div_add_mod' ((reqAt reqs i).prefixLen + o) ps, hdiv, hmod, div_add_mod']
    exact ⟨rfl, by omega⟩

theorem batchSlot_unused (hsub : free ⊆ a.held)
    (hfree : totalNewPages ps reqs ≤ free.length) (hi : i < reqs.length)
    (ho : o < (reqAt reqs i).extendLen) : ¬ used (batchSlot ps reqs free i o) := by
  obtain ⟨hp, hs, hd⟩ | ⟨-, hx, hd⟩ := batchSlot_page hps hok hi ho
  · exact hok.rest_unused _ (reqAt_mem hi) hp _ hd (by omega)
  · intro hu
    refine hok.used_page _ hu ?_
    rw [hd]
    exact hsub (getD_mem (fresh_mem hfree hi hx))

theorem allocated_of_continues (hk : ∀ r ∈ reqs, Continues ps kernel r) (hb : b.held.Perm a.held)
    (hfree : totalNewPages ps reqs ≤ b.freePages.length) :
    Allocated ps a reqs used (b.freePages.take (totalNewPages ps reqs))
      (batchSlots ps kernel reqs b.freePages)
        { b with freePages := b.freePages.drop (totalNewPages ps reqs) } := by
  have hsub : b.freePages ⊆ a.held := fun x hx => hb.subset (mem_append_left _ hx)
  have hnd : b.freePages.Nodup := (hb.nodup_iff.mpr hok.nodup).of_append_left
  have hslots : batchSlots ps kernel reqs b.freePages = (range reqs.length).map fun i =>
      (range (reqAt reqs i).extendLen).map (batchSlot ps reqs b.freePages i) := by
    rw [batchSlots_eq]
    refine map_congr_left fun i hi => ?_
    have hi := mem_range.mp hi
    have hr := reqAt_mem hi
    exact kernel_eq_map (hk _ hr) hps (length_newPages hfree hi) (hok.le _ hr) (hok.aligned _ hr)
  have hget : ∀ i < reqs.length, (batchSlots ps kernel reqs b.freePages).getD i [] =
      (range (reqAt reqs i).extendLen).map (batchSlot ps reqs b.freePages i) := by
    intro i hi
    rw [hslots, getD_eq_getElem _ _ (by simpa using hi), getElem_map, getElem_range]
  have hslot : ∀ i < reqs.length, ∀ o < (reqAt reqs i).extendLen,
      ((batchSlots ps kernel reqs b.freePages).getD i []).getD o 0 =
        batchSlot ps reqs b.freePages i o := by
    intro i hi o ho
    rw [hget i hi, getD_eq_getElem _ _ (by simpa using ho), getElem_map, getElem_range]
  refine ⟨?_, ?_, ?_, ?_, ?_, ?_, ?_, ?_, ?_⟩
  · rw [hslots, length_map, length_range]
  · intro i hi
    rw [hget i hi, length_map, length_range]
  · rw [held, ← append_assoc, take_append_drop]
    exact hb
  · rw [length_take, min_eq_left hfree]
    rfl
  · intro i hi o ho
    rw [hslot i hi o ho, batchSlot, rowSlot_mod]
  · intro i hi o ho hlt
    obtain ⟨-, hpos⟩ := partial_of_lt hps (le_add_right _ _) hlt
    rw [hslot i hi o ho]
    exact rowSlot_rest hps (hok.aligned _ (reqAt_mem hi) hpos) hpos hlt
  · intro i hi o ho hge
    have hseq : (reqAt reqs i).prefixLen + o < (reqAt reqs i).seqLen := by
      rw [extendLen] at ho
      omega
    have hx := fresh_lt hps hge hseq
    have hlt := (Nat.add_lt_add_left hx _).trans_le (pageStart_add_le hi)
    rw [hslot i hi o ho, batchSlot, rowSlot_div_fresh hps hge, newPages_getD hx,
      getD_eq_getElem?_getD, getD_eq_getElem?_getD, getElem?_take_of_lt hlt]
  · rw [hslots, ← flatMap_def, nodup_flatMap]
    refine ⟨fun i hi => ?_, nodup_range.pairwise_of_forall_ne fun i hi j hj hij => ?_⟩
    · have hi := mem_range.mp hi
      exact nodup_range.map_on fun o ho o' ho' h => (batchSlot_inj hps hok hsub hnd hfree hi hi
        (mem_range.mp ho) (mem_range.mp ho') h).2
    · intro s hs hs'
      obtain ⟨o, ho, rfl⟩ := mem_map.mp hs
      obtain ⟨o', ho', h⟩ := mem_map.mp hs'
      exact hij (batchSlot_inj hps hok hsub hnd hfree (mem_range.mp hi) (mem_range.mp hj)
        (mem_range.mp ho) (mem_range.mp ho') h.symm).1
  · intro s hs
    rw [hslots] at hs
    obtain ⟨l, hl, hs⟩ := mem_flatten.mp hs
    obtain ⟨i, hi, rfl⟩ := mem_map.mp hl
    obtain ⟨o, ho, rfl⟩ := mem_map.mp hs
    exact batchSlot_unused hps hok hsub hfree (mem_range.mp hi) (mem_range.mp ho)

end Batches

/-! ## When an allocation fails -/

section Failure

variable {ps : Nat} {a : Allocator} {reqs : List ExtendReq}

theorem mergeAndSortFree_held (a : Allocator) : a.mergeAndSortFree.held.Perm a.held := by
  unfold mergeAndSortFree held
  split_ifs with h
  · exact .refl _
  · simpa using perm_insertionSort _ _

theorem refill_held (a : Allocator) (n : Nat) : (a.refill n).held.Perm a.held := by
  obtain h | h := refill_cases a n
  · rw [h]
  · rw [h]
    exact mergeAndSortFree_held a

/-- After a refill for `n` pages, fewer free pages than `m ≤ n` means that all pages together are
fewer. -/
theorem held_lt_of_refill (ht : a.Tidy) {m n : Nat} (hmn : m ≤ n)
    (h : (a.refill n).freePages.length < m) : a.held.length < m := by
  have hrelease : (a.refill n).releasePages = [] := by
    unfold refill at h ⊢
    split_ifs at h ⊢ with hc
    · unfold mergeAndSortFree
      split_ifs with h0
      · exact h0
      · rfl
    · obtain hs | hr := ht
      · exact absurd ⟨hs, h.trans_le hmn⟩ hc
      · exact hr
  rw [← (refill_held a n).length_eq, held, hrelease, append_nil]
  exact h

theorem numNewPages_le (hps : 0 < ps) (r : ExtendReq) :
    numNewPages ps r ≤ r.extendLen / ps + 1 := by
  have hseq : numPages ps r.seqLen ≤ numPages ps r.prefixLen + numPages ps r.extendLen := by
    rw [numPages_le_iff hps, add_mul]
    have h1 : r.prefixLen ≤ numPages ps r.prefixLen * ps := le_numPages_mul hps
    have h2 : r.extendLen ≤ numPages ps r.extendLen * ps := le_numPages_mul hps
    rw [extendLen] at h2
    rw [extendLen]
    omega
  have hext : numPages ps r.extendLen ≤ r.extendLen / ps + 1 := by
    rw [numPages_le_iff hps, add_mul]
    have h := div_add_mod' r.extendLen ps
    have hlt := mod_lt r.extendLen hps
    omega
  rw [numNewPages]
  omega

theorem totalNewPages_le (hps : 0 < ps) (reqs : List ExtendReq) :
    totalNewPages ps reqs ≤ (reqs.map extendLen).sum / ps + reqs.length := by
  induction reqs with
  | nil => exact zero_le _
  | cons r rs ih =>
    have hr := numNewPages_le hps r
    have hdiv : r.extendLen / ps + (rs.map extendLen).sum / ps ≤
        (r.extendLen + (rs.map extendLen).sum) / ps := div_add_div_le_add_div
    rw [totalNewPages] at ih ⊢
    rw [map_cons, sum_cons, map_cons, sum_cons, length_cons]
    omega

end Failure

/-! ## Tidy allocators -/

/-- The operations of an allocator. -/
inductive AllocStep : Allocator → Allocator → Prop
  | alloc (a : Allocator) (n : Nat) : AllocStep a (a.alloc n).2
  | allocExtend (a : Allocator) (reqs : List ExtendReq) : AllocStep a (a.allocExtend reqs).2
  | allocDecode (a : Allocator) (reqs : List ExtendReq) : AllocStep a (a.allocDecode reqs).2
  | free (a : Allocator) (v : List Nat) : AllocStep a (a.free v)
  | freeGroupBegin (a : Allocator) : AllocStep a a.freeGroupBegin
  | freeGroupEnd (a : Allocator) : AllocStep a a.freeGroupEnd

section Tidy

variable {a a' : Allocator}

theorem tidy_refill (h : a.Tidy) (n : Nat) : (a.refill n).Tidy := by
  obtain hr | hr := refill_cases a n
  · rwa [hr]
  · rw [hr, mergeAndSortFree]
    split_ifs
    · exact h
    · exact .inr rfl

theorem tidy_free (h : a.Tidy) (v : List Nat) : (a.free v).Tidy := by
  unfold free
  split_ifs with _ _ _ hs hs
  · exact h
  · exact .inl hs
  · exact h
  · exact .inl hs
  · exact h
  · exact h

theorem AllocStep.tidy (hst : AllocStep a a') (h : a.Tidy) : a'.Tidy := by
  cases hst with
  | alloc n =>
    unfold Allocator.alloc
    dsimp only
    split_ifs <;> exact tidy_refill h _
  | allocExtend reqs =>
    unfold Allocator.allocExtend
    dsimp only
    split_ifs <;> exact tidy_refill h _
  | allocDecode reqs =>
    unfold Allocator.allocDecode
    dsimp only
    split_ifs <;> exact tidy_refill h _
  | free v => exact tidy_free h v
  | freeGroupBegin => exact h
  | freeGroupEnd =>
    have hopen : { a with isNotInFreeGroup := true }.Tidy := h
    exact tidy_free hopen _

end Tidy

/-! ## The allocations -/

section Allocations

variable {kernel : ExtendReq → List Nat → List Nat} {free : List Nat}
variable {ps : Nat} {a b a' : Allocator} {reqs : List ExtendReq} {used : Nat → Prop}
  {outs x : List (List Nat)} {n : Nat}

/-- The test against the free list and the cut of its front. -/
def takePages (b : Allocator) (n : Nat) (x : List (List Nat)) :
    Option (List (List Nat)) × Allocator :=
  if b.freePages.length < n then (none, b) else (some x, { b with freePages := b.freePages.drop n })

theorem takePages_eq_some (h : takePages b n x = (some outs, a')) :
    n ≤ b.freePages.length ∧ x = outs ∧ { b with freePages := b.freePages.drop n } = a' := by
  unfold takePages at h
  split_ifs at h with hlt
  · cases h
  · cases h
    exact ⟨Nat.le_of_not_lt hlt, rfl, rfl⟩

theorem takePages_eq_none (h : takePages b n x = (none, a')) : b.freePages.length < n := by
  unfold takePages at h
  split_ifs at h with hlt
  · exact hlt
  · cases h

theorem allocExtend_eq (hps : 0 < ps) (hsize : a.pageSize = ps) (reqs : List ExtendReq) :
    ∃ k, totalNewPages ps reqs ≤ k ∧ a.allocExtend reqs =
      takePages (a.refill k) (totalNewPages ps reqs)
        (batchSlots ps (extendSlots ps) reqs (a.refill k).freePages) := by
  refine ⟨(reqs.map extendLen).sum / ps + reqs.length + 1,
    (totalNewPages_le hps reqs).trans (le_succ _), ?_⟩
  subst hsize
  unfold allocExtend takePages
  simp only [refill_pageSize]
  rfl

theorem allocDecode_eq (hps : 1 < ps) (hsize : a.pageSize = ps)
    (hone : ∀ r ∈ reqs, r.seqLen = r.prefixLen + 1) :
    ∃ k, totalNewPages ps reqs ≤ k ∧ a.allocDecode reqs =
      takePages (a.refill k) (totalNewPages ps reqs)
        (batchSlots ps (decodeSlots ps) reqs (a.refill k).freePages) := by
  have hcount := totalNewPages_decode hps hone
  refine ⟨reqs.length, hcount.trans_le countP_le_length, ?_⟩
  rw [hcount]
  subst hsize
  unfold allocDecode takePages
  simp only [refill_pageSize]

theorem batchSlots_getD {i : Nat} (hi : i < reqs.length) :
    (batchSlots ps kernel reqs free).getD i [] =
      kernel (reqAt reqs i) (newPages ps reqs free i) := by
  rw [batchSlots_eq, getD_eq_getElem _ _ (by simpa using hi), getElem_map, getElem_range]

theorem computes_batchSlots {ws : List (Nat × Nat)}
    (h : Computes reqs ws fun i => kernel (reqAt reqs i) (newPages ps reqs free i)) :
    Computes reqs ws fun i => (batchSlots ps kernel reqs free).getD i [] := by
  intro out out' hw i hi o ho
  dsimp only
  rw [batchSlots_getD hi]
  exact h out out' hw i hi o ho

end Allocations

/-- **The paged allocations.** A batch gets, for each request, the rest of its last page and then
fresh pages in order; no slot twice, and none in use; the pages it needs leave the allocator. The
programs of the kernels compute these slots in any order, and so does the sequential reference.
An allocation fails only when the free and the released pages together are too few. -/
theorem alloc_paged_correct {ps : Nat} {a : Allocator} {reqs : List ExtendReq}
    {used : Nat → Prop} (hps : 0 < ps) (hsize : a.pageSize = ps) (ht : a.Tidy)
    (hok : BatchOk ps a reqs used) :
    (∀ outs a', a.allocExtend reqs = (some outs, a') → ∃ fresh,
      Allocated ps a reqs used fresh outs a' ∧
      (∀ fill, Computes reqs (launch (extendKernel ps fill reqs (fresh ++ a'.freePages)) reqs)
        fun i => outs.getD i []) ∧
      ∀ out, ∀ i < reqs.length, ∀ o < (reqAt reqs i).extendLen,
        allocExtendNaive ps reqs (fresh ++ a'.freePages) out (outStart reqs i + o) =
          (outs.getD i []).getD o 0) ∧
    (∀ a', a.allocExtend reqs = (none, a') →
      a.freePages.length + a.releasePages.length < (reqs.map (numNewPages ps)).sum) ∧
    (1 < ps → (∀ r ∈ reqs, r.seqLen = r.prefixLen + 1) →
      (∀ outs a', a.allocDecode reqs = (some outs, a') → ∃ fresh,
        Allocated ps a reqs used fresh outs a' ∧
        ∀ fill, Computes reqs (launch (decodeKernel ps fill reqs (fresh ++ a'.freePages)) reqs)
          fun i => outs.getD i []) ∧
      ∀ a', a.allocDecode reqs = (none, a') →
        a.freePages.length + a.releasePages.length < (reqs.map (numNewPages ps)).sum) := by
  have hheld : a.held.length = a.freePages.length + a.releasePages.length := length_append
  rw [← hheld]
  refine ⟨?_, ?_, ?_⟩
  · intro outs a' h
    obtain ⟨k, -, heq⟩ := allocExtend_eq hps hsize reqs
    obtain ⟨hfree, rfl, rfl⟩ := takePages_eq_some (heq.symm.trans h)
    refine ⟨(a.refill k).freePages.take (totalNewPages ps reqs), allocated_of_continues hps hok
      (fun r _ => extendSlots_continues hps r) (refill_held a k) hfree, ?_⟩
    rw [take_append_drop]
    refine ⟨fun fill => computes_batchSlots (extendKernel_computes hps hok.le), ?_⟩
    intro out i hi o ho
    rw [batchSlots_getD hi]
    exact naive_computes hps hok.le hfree out hi ho
  · intro a' h
    obtain ⟨k, hk, heq⟩ := allocExtend_eq hps hsize reqs
    exact held_lt_of_refill ht hk (takePages_eq_none (heq.symm.trans h))
  · intro hps1 hone
    obtain ⟨k, hk, heq⟩ := allocDecode_eq hps1 hsize hone
    refine ⟨?_, ?_⟩
    · intro outs a' h
      obtain ⟨hfree, rfl, rfl⟩ := takePages_eq_some (heq.symm.trans h)
      refine ⟨(a.refill k).freePages.take (totalNewPages ps reqs), allocated_of_continues hps hok
        (fun r hr => decodeSlots_continues hps (hone r hr)) (refill_held a k) hfree, ?_⟩
      rw [take_append_drop]
      exact fun fill => computes_batchSlots (decodeKernel_computes hone)
    · intro a' h
      exact held_lt_of_refill ht hk (takePages_eq_none (heq.symm.trans h))

def twoPages : Allocator := ⟨2, true, [3], [5], true, []⟩

def twoRequests : List ExtendReq := [⟨1, 4, 8⟩, ⟨0, 1, 0⟩]

theorem twoRequests_ok : BatchOk 2 twoPages twoRequests fun s => s = 8 where
  le := by decide
  aligned := by decide
  nodup := by decide
  used_page := by
    rintro s rfl
    decide
  last_used := by
    intro r hr hp
    simp only [twoRequests, mem_cons, not_mem_nil, or_false] at hr
    obtain rfl | rfl := hr
    · rfl
    · exact absurd rfl hp
  rest_unused := by
    rintro r hr hp s hs hlt rfl
    simp only [twoRequests, mem_cons, not_mem_nil, or_false] at hr
    obtain rfl | rfl := hr
    · exact absurd hlt (by decide)
    · exact absurd rfl hp
  apart := by
    refine pairwise_pair.mpr fun _ hp => ?_
    exact absurd rfl hp

/-- The released page is merged, the first request gets slot `9` and page `3`, and the second one
starts page `5`. -/
theorem alloc_paged_correct_twoRequests :
    twoPages.allocExtend twoRequests = (some [[9, 6, 7], [10]], ⟨2, true, [], [], true, []⟩) ∧
      ∃ fresh, Allocated 2 twoPages twoRequests (fun s => s = 8) fresh [[9, 6, 7], [10]]
        ⟨2, true, [], [], true, []⟩ := by
  have halloc : twoPages.allocExtend twoRequests =
      (some [[9, 6, 7], [10]], ⟨2, true, [], [], true, []⟩) := by decide
  obtain ⟨fresh, h, -⟩ :=
    (alloc_paged_correct two_pos rfl (.inl rfl) twoRequests_ok).1 _ _ halloc
  exact ⟨halloc, fresh, h⟩

/-- With pages of one slot, `alloc_decode` for a request with slot `1` returns slot `2` and leaves
page `2` in the free list. -/
theorem allocDecode_one_keeps_page :
    let a := ((init 1 4 false).alloc 1).2
    a.allocDecode [⟨1, 2, 1⟩] = (some [[2]], a) ∧ 2 ∈ a.freePages ∧
      numNewPages 1 ⟨1, 2, 1⟩ = 1 := by decide

end Fluxfer.Memory
