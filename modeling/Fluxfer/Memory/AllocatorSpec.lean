import Fluxfer.Memory.Allocator
import Mathlib.Data.Multiset.UnionInter

/-!
# What the allocators do with pages

`Allocator.pages` is the multiset of pages an allocator holds: the free and the released ones and
those of the slots that wait in a free group. The kernels continue a laid out row of slots, the last
page of which may be incomplete.
-/

namespace Fluxfer.Memory

open Pages List Nat
open Multiset (coe_add coe_eq_coe coe_nil)

namespace Allocator

variable {ps n : Nat} {a a' : Allocator} {v : List Nat}

/-- The slots that wait for the end of a free group. -/
def queued (a : Allocator) : List Nat := if a.isNotInFreeGroup then [] else a.freeGroup.flatten

def pages (a : Allocator) : Multiset Nat :=
  a.freePages + a.releasePages + (pagesOf a.pageSize a.queued : Multiset Nat)

/-- The pages that wait in a free group are whole. -/
structure Ok (ps : Nat) (a : Allocator) : Prop where
  pageSize_eq : a.pageSize = ps
  started : Started ps a.queued

theorem init_pages (ps size : Nat) (needSort : Bool) :
    (init ps size needSort).pages = (range' 1 (size / ps) : Multiset Nat) := by
  simp [pages, queued, init]

theorem init_ok (ps size : Nat) (needSort : Bool) : Ok ps (init ps size needSort) :=
  ⟨rfl, nofun⟩

/-! ## Refills -/

theorem mergeAndSortFree_pages (a : Allocator) : a.mergeAndSortFree.pages = a.pages := by
  unfold mergeAndSortFree
  split_ifs with h
  · rfl
  · simp only [pages, coe_nil, add_zero, coe_add]
    exact coe_eq_coe.mpr ((perm_insertionSort _ _).append_right _)

theorem refill_cases (a : Allocator) (n : Nat) :
    a.refill n = a ∨ a.refill n = a.mergeAndSortFree := by
  unfold refill
  split_ifs
  · exact .inr rfl
  · exact .inl rfl

theorem refill_pages (a : Allocator) (n : Nat) : (a.refill n).pages = a.pages := by
  rcases refill_cases a n with h | h
  · rw [h]
  · rw [h, mergeAndSortFree_pages]

theorem Ok.mergeAndSortFree (h : Ok ps a) : Ok ps a.mergeAndSortFree := by
  unfold Allocator.mergeAndSortFree
  split_ifs
  · exact h
  · exact ⟨h.pageSize_eq, h.started⟩

theorem Ok.refill (h : Ok ps a) (n : Nat) : Ok ps (a.refill n) := by
  rcases refill_cases a n with hr | hr
  · rwa [hr]
  · rw [hr]
    exact h.mergeAndSortFree

/-! ## The page size stays -/

@[simp]
theorem refill_pageSize (a : Allocator) (n : Nat) : (a.refill n).pageSize = a.pageSize := by
  unfold refill mergeAndSortFree
  split_ifs <;> rfl

@[simp]
theorem free_pageSize (a : Allocator) (v : List Nat) : (a.free v).pageSize = a.pageSize := by
  unfold free
  split_ifs <;> rfl

@[simp]
theorem alloc_pageSize (a : Allocator) (n : Nat) : (a.alloc n).2.pageSize = a.pageSize := by
  unfold alloc
  dsimp only
  split_ifs
  · exact refill_pageSize a _
  · exact refill_pageSize a _

theorem alloc_eq_none {a' : Allocator} {n : Nat} (h : a.alloc n = (none, a')) :
    a' = a.refill (n / a.pageSize) := by
  unfold alloc at h
  dsimp only at h
  split_ifs at h
  · exact (Prod.ext_iff.mp h).2.symm
  · cases (Prod.ext_iff.mp h).1

theorem length_alloc {a' : Allocator} {n : Nat} (h : a.alloc n = (some v, a'))
    (hd : a.pageSize ∣ n) : v.length = n := by
  unfold alloc at h
  dsimp only at h
  split_ifs at h with hlt
  · cases (Prod.ext_iff.mp h).1
  · obtain rfl := Option.some.inj (Prod.ext_iff.mp h).1
    rw [length_slotsOf, length_take, refill_pageSize, Nat.min_eq_left (Nat.le_of_not_lt hlt)]
    exact Nat.div_mul_cancel hd

/-! ## `free` -/

theorem uniquePages_perm (hps : 0 < ps) (hv : Started ps v) (hnd : (pagesOf ps v).Nodup) :
    (uniquePages ps v).Perm (pagesOf ps v) := by
  apply (perm_insertionSort _ _).trans
  rw [perm_ext_iff_of_nodup (nodup_dedup _) hnd]
  intro x
  rw [mem_dedup, mem_map, hv.mem_pagesOf hps]

theorem pages_free (hps : 0 < ps) (h : Ok ps a) (hv : Started ps v)
    (hnd : (pagesOf ps v).Nodup) :
    (a.free v).pages = a.pages + (pagesOf ps v : Multiset Nat) := by
  have hsize := h.pageSize_eq
  unfold free
  split_ifs with hnil hgroup hone hsort hsort
  · rw [hnil, pagesOf_nil, coe_nil, add_zero]
  · have h1 : ps = 1 := hsize.symm.trans hone
    subst h1
    rw [pagesOf_one]
    simp only [pages, queued, ← coe_add]
    abel
  · have h1 : ps = 1 := hsize.symm.trans hone
    subst h1
    rw [pagesOf_one]
    simp only [pages, queued, ← coe_add]
    abel
  · have hperm := coe_eq_coe.mpr (uniquePages_perm hps hv hnd)
    rw [hsize]
    simp only [pages, queued, hgroup, ← coe_add, hperm]
    abel
  · have hperm := coe_eq_coe.mpr (uniquePages_perm hps hv hnd)
    rw [hsize]
    simp only [pages, queued, hgroup, ← coe_add, hperm]
    abel
  · simp only [pages, queued, hgroup, Bool.false_eq_true, if_false, flatten_append,
      flatten_singleton, pagesOf_append, hsize, ← coe_add]
    abel

theorem Ok.free (h : Ok ps a) (hv : Started ps v) : Ok ps (a.free v) := by
  unfold Allocator.free
  split_ifs with hnil hgroup
  · exact h
  · exact ⟨h.pageSize_eq, h.started⟩
  · exact ⟨h.pageSize_eq, h.started⟩
  · exact ⟨h.pageSize_eq, h.started⟩
  · exact ⟨h.pageSize_eq, h.started⟩
  · refine ⟨h.pageSize_eq, ?_⟩
    have hstarted := h.started
    simp only [queued, hgroup] at hstarted ⊢
    rw [flatten_append, flatten_singleton]
    exact hstarted.append hv

/-! ## Free groups -/

theorem pages_freeGroupBegin (h : a.isNotInFreeGroup = true) :
    a.freeGroupBegin.pages = a.pages := by
  simp [pages, queued, freeGroupBegin, h]

theorem Ok.freeGroupBegin (h : Ok ps a) : Ok ps a.freeGroupBegin :=
  ⟨h.pageSize_eq, nofun⟩

theorem pages_freeGroupEnd (hps : 0 < ps) (h : Ok ps a) (hgroup : a.isNotInFreeGroup = false)
    (hnd : a.pages.Nodup) : a.freeGroupEnd.pages = a.pages := by
  have hstarted := h.started
  have hsize := h.pageSize_eq
  simp only [queued, hgroup, Bool.false_eq_true, if_false] at hstarted
  have hpages : a.pages = a.freePages + a.releasePages +
      (pagesOf ps a.freeGroup.flatten : Multiset Nat) := by
    simp [pages, queued, hgroup, hsize]
  have hnd' : (pagesOf ps a.freeGroup.flatten).Nodup := by
    rw [hpages] at hnd
    exact Multiset.coe_nodup.mp (Multiset.nodup_of_le (Multiset.le_add_left _ _) hnd)
  have hok : Ok ps { a with isNotInFreeGroup := true } :=
    ⟨hsize, nofun⟩
  rw [freeGroupEnd, pages_free hps hok hstarted hnd', hpages]
  simp [pages, queued]

theorem Ok.freeGroupEnd (h : Ok ps a) (hgroup : a.isNotInFreeGroup = false) :
    Ok ps a.freeGroupEnd := by
  have hstarted := h.started
  simp only [queued, hgroup] at hstarted
  exact Ok.free ⟨h.pageSize_eq, nofun⟩ hstarted

/-! ## `alloc` -/

theorem pages_drop (a : Allocator) (n : Nat) : a.pages =
    { a with freePages := a.freePages.drop n }.pages + (a.freePages.take n : Multiset Nat) := by
  have hsplit : (a.freePages : Multiset Nat) = a.freePages.take n + a.freePages.drop n := by
    rw [coe_add, take_append_drop]
  simp only [pages]
  rw [hsplit]
  abel

/-- The slots that `alloc` returns fill pages, which the allocator gives away. -/
theorem alloc_spec (hps : 0 < ps) (h : Ok ps a) (hrun : a.alloc n = (some v, a')) :
    Laid ps v ∧ Ok ps a' ∧ a.pages = a'.pages + (pagesOf ps v : Multiset Nat) := by
  have hok := h.refill (n / ps)
  unfold alloc at hrun
  rw [h.pageSize_eq] at hrun
  dsimp only at hrun
  set b := a.refill (n / ps)
  split_ifs at hrun <;> cases hrun
  have hpages := (refill_pages a (n / ps)).symm.trans (pages_drop b (n / ps))
  have hsize := hok.pageSize_eq
  refine ⟨hsize ▸ .slotsOf (hsize ▸ hps) _, ⟨hsize, hok.started⟩, ?_⟩
  rw [hpages, hsize, slotsOf_eq_layout hps, pagesOf_layout hps le_rfl, numPages_mul hps,
    take_length]

/-! ## The kernels -/

theorem slotAt_of_page {k i : Nat} (g : List Nat) (hlo : k * ps ≤ i) (hhi : i < (k + 1) * ps) :
    slotAt ps g i = g.getD k 0 * ps + (i - k * ps) := by
  obtain ⟨d, rfl⟩ := Nat.exists_eq_add_of_le hlo
  rw [add_mul] at hhi
  have hd : d < ps := by omega
  rw [slotAt, add_comm (k * ps), add_mul_div_right _ _ (by omega),
    add_mul_mod_self_right, div_eq_of_lt hd, mod_eq_of_lt hd, zero_add,
    Nat.add_sub_cancel]

/-- The slots after position `n` in the page of the slot before it. -/
theorem slotAt_next (hps : 0 < ps) {n i : Nat} (g : List Nat) (hn : 0 < n)
    (hi : n + i < numPages ps n * ps) : slotAt ps g (n + i) = slotAt ps g (n - 1) + 1 + i := by
  obtain ⟨k, hk⟩ : ∃ k, numPages ps n = k + 1 := by
    refine ⟨numPages ps n - 1, ?_⟩
    have : numPages ps 1 ≤ numPages ps n := numPages_mono hn
    have h1 : numPages ps 1 = 1 := by rw [numPages_succ hps,
      numPages_zero hps, zero_mod, if_pos rfl]
    omega
  have hlo : k * ps < n := by
    by_contra hle
    have := (numPages_le_iff hps).mpr (Nat.le_of_not_lt hle)
    omega
  rw [hk] at hi
  rw [slotAt_of_page g (by omega) hi, slotAt_of_page (k := k) g (by omega) (by omega)]
  omega

theorem extendSlots_layout (hps : 0 < ps) {g pages : List Nat} {r : ExtendReq}
    (hg : g.length = numPages ps r.prefixLen) (hp : pages.length = numNewPages ps r)
    (hle : r.prefixLen ≤ r.seqLen)
    (hlast : 0 < r.prefixLen → r.lastLoc = slotAt ps g (r.prefixLen - 1)) :
    layout ps g r.prefixLen ++ extendSlots ps r pages = layout ps (g ++ pages) r.seqLen := by
  obtain ⟨L, N, last⟩ := r
  dsimp only [numNewPages] at hg hp hle hlast ⊢
  have hup : L ≤ numPages ps L * ps := le_numPages_mul hps
  have hbase : layout ps (g ++ pages) L = layout ps g L := layout_append _ (by rw [hg]; exact hup)
  unfold extendSlots
  dsimp only
  set up := numPages ps L * ps with hupdef
  set n1 := min N up - L with hn1
  have hpart1 : (range n1).map (fun i => last + 1 + i) =
      (range n1).map fun i => slotAt ps (g ++ pages) (L + i) := by
    apply map_congr_left
    intro i hi
    rw [mem_range] at hi
    have hlt : L + i < up := by omega
    have hL : 0 < L := by
      by_contra h0
      have : L = 0 := by omega
      subst this
      rw [hupdef, numPages_zero hps] at hlt
      omega
    rw [slotAt_append _ (by rw [hg]; exact hlt), slotAt_next hps g hL hlt, hlast hL]
  by_cases h1 : L + n1 = N
  · rw [if_pos h1, hpart1, ← h1, layout_add, hbase]
  · rw [if_neg h1]
    have hN : up < N := by omega
    have hLn1 : L + n1 = up := by omega
    have hfloor : up ≤ N / ps * ps :=
      mul_le_mul_right ps ((le_div_iff_mul_le hps).mpr hN.le)
    set n2 := N / ps * ps - up
    have hpart2 : (range n2).map (fun i => pages.getD (i / ps) 0 * ps + i % ps) =
        (range n2).map fun i => slotAt ps (g ++ pages) (up + i) := by
      apply map_congr_left
      intro i _
      rw [hupdef, ← hg, slotAt_shift hps, drop_left]
      rfl
    have hpre : layout ps (g ++ pages) (up + n2) =
        layout ps g L ++ ((range n1).map (fun i => last + 1 + i) ++
          (range n2).map fun i => pages.getD (i / ps) 0 * ps + i % ps) := by
      rw [layout_add, ← hLn1, layout_add, hbase, hpart1, hpart2, append_assoc, hLn1]
    by_cases h2 : L + n1 + n2 = N
    · rw [if_pos h2, ← hpre, ← hLn1, h2]
    · rw [if_neg h2]
      have hmod := div_add_mod N ps
      have hlt := mod_lt N hps
      rw [mul_comm] at hmod
      set n3 := N - N / ps * ps
      have hsum : N = up + n2 + n3 := by omega
      have hNps : up + n2 = N / ps * ps := by omega
      -- the last page holds the positions from `N / ps * ps` on
      have hpages : numPages ps N = N / ps + 1 := by
        have hone : numPages ps n3 = 1 := Nat.div_eq_of_lt_le (by omega) (by omega)
        have : N = N / ps * ps + n3 := by omega
        rw [this, numPages_mul_add hps, hone, ← this]
      have hidx : numPages ps N - numPages ps L - 1 = N / ps - g.length := by
        omega
      have hpart3 : (range n3).map
          (fun i => pages.getD (numPages ps N - numPages ps L - 1) 0 * ps + i) =
          (range n3).map fun i => slotAt ps (g ++ pages) (up + n2 + i) := by
        apply map_congr_left
        intro i hi
        rw [mem_range] at hi
        have hgN : g.length ≤ N / ps := by
          rw [hg]
          exact (le_div_iff_mul_le hps).mpr hN.le
        rw [hNps, slotAt_of_page _ (le_add_right _ _) (by rw [add_mul]; omega),
          Nat.add_sub_cancel_left, getD_append_right _ _ _ _ hgN, hidx]
      rw [hpart3, ← append_assoc, ← hpre, ← layout_add, ← hsum]

theorem decodeSlots_layout (hps : 0 < ps) {g pages : List Nat} {r : ExtendReq}
    (hg : g.length = numPages ps r.prefixLen) (hp : pages.length = numNewPages ps r)
    (hone : r.seqLen = r.prefixLen + 1)
    (hlast : 0 < r.prefixLen → r.lastLoc = slotAt ps g (r.prefixLen - 1)) :
    layout ps g r.prefixLen ++ decodeSlots ps r pages = layout ps (g ++ pages) r.seqLen := by
  obtain ⟨L, N, last⟩ := r
  dsimp only [numNewPages] at hg hp hone hlast ⊢
  subst hone
  have hup : L ≤ numPages ps L * ps := le_numPages_mul hps
  have hbase : layout ps (g ++ pages) L = layout ps g L := layout_append _ (by rw [hg]; exact hup)
  have hsucc := numPages_succ (n := L) hps
  rw [layout_add, hbase]
  unfold decodeSlots
  rw [Nat.add_sub_cancel]
  simp only [range_one, map_cons, map_nil, add_zero]
  by_cases h0 : L % ps = 0
  · obtain ⟨k, rfl⟩ := dvd_of_mod_eq_zero h0
    rw [if_pos h0] at hsucc
    rw [mul_comm ps, numPages_mul hps] at hg
    have hslot := slotAt_shift (g := g ++ pages) hps k 0
    rw [add_zero, drop_left' hg] at hslot
    rw [if_neg (by omega), Nat.mul_comm ps, hslot, slotAt, Nat.zero_div, Nat.zero_mod, Nat.add_zero]
  · rw [if_neg h0] at hsucc
    have hL : 0 < L := by
      by_contra hzero
      have : L = 0 := by omega
      subst this
      exact h0 (zero_mod ps)
    have hlt : L + 0 < numPages ps L * ps := by
      rcases lt_or_ge L (numPages ps L * ps) with h | h
      · exact h
      · exact absurd (by rw [le_antisymm hup h]; exact mul_mod_left _ _) h0
    have hslot := slotAt_next hps g hL hlt
    rw [add_zero] at hslot hlt
    rw [if_pos (by omega), slotAt_append _ (by rw [hg]; exact hlt), hslot, hlast hL]

/-- A row of slots and the request to continue it. -/
structure Fits (row : List Nat) (r : ExtendReq) : Prop where
  prefixLen_eq : r.prefixLen = row.length
  le : row.length ≤ r.seqLen
  lastLoc_eq : ∀ h : row ≠ [], r.lastLoc = row.getLast h

/-- `out` continues `row` to `n` slots, with the new pages `g`. -/
structure Grown (ps : Nat) (row out : List Nat) (n : Nat) (g : List Nat) : Prop where
  laid : Laid ps (row ++ out)
  length_eq : (row ++ out).length = n
  pages_eq : pagesOf ps (row ++ out) = pagesOf ps row ++ g

/-- What both kernels do. -/
def Continues (ps : Nat) (kernel : ExtendReq → List Nat → List Nat) (r : ExtendReq) : Prop :=
  ∀ g pages : List Nat, g.length = numPages ps r.prefixLen → pages.length = numNewPages ps r →
    r.prefixLen ≤ r.seqLen → (0 < r.prefixLen → r.lastLoc = slotAt ps g (r.prefixLen - 1)) →
    layout ps g r.prefixLen ++ kernel r pages = layout ps (g ++ pages) r.seqLen

theorem extendSlots_continues (hps : 0 < ps) (r : ExtendReq) : Continues ps (extendSlots ps) r :=
  fun _ _ hg hp hle hlast => extendSlots_layout hps hg hp hle hlast

theorem decodeSlots_continues (hps : 0 < ps) {r : ExtendReq} (hone : r.seqLen = r.prefixLen + 1) :
    Continues ps (decodeSlots ps) r :=
  fun _ _ hg hp _ hlast => decodeSlots_layout hps hg hp hone hlast

theorem Continues.grown {kernel : ExtendReq → List Nat → List Nat} {r : ExtendReq}
    (hk : Continues ps kernel r) (hps : 0 < ps) {row pages : List Nat} (hrow : Laid ps row)
    (hf : Fits row r) (hp : pages.length = numNewPages ps r) :
    Grown ps row (kernel r pages) r.seqLen pages := by
  obtain ⟨g, hg, hlay⟩ := hrow
  rw [← hf.prefixLen_eq] at hg hlay
  have hle : r.prefixLen ≤ r.seqLen := hf.prefixLen_eq ▸ hf.le
  have hlast : 0 < r.prefixLen → r.lastLoc = slotAt ps g (r.prefixLen - 1) := by
    intro hpos
    have hne : row ≠ [] := by
      rintro rfl
      rw [hf.prefixLen_eq] at hpos
      exact lt_irrefl 0 hpos
    rw [hf.lastLoc_eq hne, getLast_eq_getElem]
    have hidx : row.length - 1 = r.prefixLen - 1 := by rw [hf.prefixLen_eq]
    simp only [hidx]
    have hget : row[r.prefixLen - 1]? = some (slotAt ps g (r.prefixLen - 1)) := by
      rw [hlay, layout, getElem?_map, getElem?_range (by omega)]
      rfl
    exact (List.getElem?_eq_some_iff.mp hget).2
  have hcont := hk g pages hg hp hle hlast
  have hnew : (g ++ pages).length = numPages ps r.seqLen := by
    rw [length_append, hp, numNewPages]
    have : numPages ps r.prefixLen ≤ numPages ps r.seqLen := numPages_mono hle
    omega
  have heq : row ++ kernel r pages = layout ps (g ++ pages) r.seqLen := by
    rw [← hcont, ← hlay]
  refine ⟨?_, ?_, ?_⟩
  · rw [heq]
    exact Laid.of_layout hnew
  · rw [heq, length_layout]
  · rw [heq, pagesOf_layout hps (by rw [hnew]; exact le_numPages_mul hps), hlay,
      pagesOf_layout hps (by rw [hg]; exact le_numPages_mul hps), ← hnew, ← hg,
      take_length, take_length]

/-! ## Batches -/

def totalNewPages (ps : Nat) (reqs : List ExtendReq) : Nat := (reqs.map (numNewPages ps)).sum

/-- The result of an allocation for a batch: none, or the slots of a kernel that continues
every row, with the pages it needs taken from the free list of `b`. -/
def BatchAlloc (ps : Nat) (a : Allocator) (reqs : List ExtendReq)
    (res : Option (List (List Nat)) × Allocator) : Prop :=
  (∃ a', res = (none, a') ∧ a'.pages = a.pages ∧ Ok ps a') ∨
  ∃ b kernel, res = (some (batchSlots ps kernel reqs b.freePages),
      { b with freePages := b.freePages.drop (totalNewPages ps reqs) }) ∧
    (∀ r ∈ reqs, Continues ps kernel r) ∧ totalNewPages ps reqs ≤ b.freePages.length ∧
    b.pages = a.pages ∧ Ok ps b

/-- After a refill to `b`, a test against the free list and the cut of its front. -/
theorem batchAlloc_of_refill {b : Allocator} {kernel : ExtendReq → List Nat → List Nat}
    (reqs : List ExtendReq) (hb : b.pages = a.pages) (hok : Ok b.pageSize b)
    (hk : ∀ r ∈ reqs, Continues b.pageSize kernel r) :
    BatchAlloc b.pageSize a reqs
      (if b.freePages.length < totalNewPages b.pageSize reqs then (none, b)
      else (some (batchSlots b.pageSize kernel reqs b.freePages),
        { b with freePages := b.freePages.drop (totalNewPages b.pageSize reqs) })) := by
  split_ifs with hlt
  · exact .inl ⟨b, rfl, hb, hok⟩
  · exact .inr ⟨b, kernel, rfl, hk, Nat.le_of_not_lt hlt, hb, hok⟩

theorem allocExtend_spec (hps : 0 < ps) (h : Ok ps a) (reqs : List ExtendReq) :
    BatchAlloc ps a reqs (a.allocExtend reqs) := by
  set k := (reqs.map fun r => r.seqLen - r.prefixLen).sum / a.pageSize + reqs.length + 1
  have hpages := refill_pages a k
  obtain ⟨hsize, hstarted⟩ := h.refill k
  subst hsize
  exact batchAlloc_of_refill reqs hpages ⟨rfl, hstarted⟩ fun r _ => extendSlots_continues hps r

theorem numNewPages_decode (hps : 1 < ps) {r : ExtendReq} (hone : r.seqLen = r.prefixLen + 1) :
    numNewPages ps r = if r.seqLen % ps = 1 then 1 else 0 := by
  have hsucc := numPages_succ (n := r.prefixLen) (lt_of_succ_lt hps)
  rw [numNewPages, hone, hsucc, Nat.add_sub_cancel_left]
  have hiff : (r.prefixLen + 1) % ps = 1 ↔ r.prefixLen % ps = 0 := by
    rw [add_mod, mod_eq_of_lt hps]
    have hlt := mod_lt r.prefixLen (lt_of_succ_lt hps)
    rcases lt_or_ge (r.prefixLen % ps + 1) ps with hl | hl
    · rw [mod_eq_of_lt hl]
      omega
    · have heq : r.prefixLen % ps + 1 = ps := by omega
      rw [heq, mod_self]
      omega
  exact if_congr hiff.symm rfl rfl

theorem totalNewPages_decode (hps : 1 < ps) {reqs : List ExtendReq}
    (hone : ∀ r ∈ reqs, r.seqLen = r.prefixLen + 1) :
    totalNewPages ps reqs = reqs.countP fun r => r.seqLen % ps = 1 := by
  induction reqs with
  | nil => rfl
  | cons r rs ih =>
    have hrest := ih fun x hx => hone x (mem_cons_of_mem _ hx)
    have hr := numNewPages_decode hps (hone r mem_cons_self)
    rw [countP_cons, ← hrest, totalNewPages, totalNewPages, map_cons, sum_cons, hr, add_comm]
    simp only [decide_eq_true_eq]

theorem allocDecode_spec (hps : 1 < ps) (h : Ok ps a) {reqs : List ExtendReq}
    (hone : ∀ r ∈ reqs, r.seqLen = r.prefixLen + 1) :
    BatchAlloc ps a reqs (a.allocDecode reqs) := by
  unfold allocDecode
  dsimp only
  have hpages := refill_pages a reqs.length
  obtain ⟨hsize, hstarted⟩ := h.refill reqs.length
  subst hsize
  rw [← totalNewPages_decode hps hone]
  exact batchAlloc_of_refill reqs hpages ⟨rfl, hstarted⟩ fun r hr =>
    decodeSlots_continues (lt_of_succ_lt hps) (hone r hr)

theorem pages_continue (r : ExtendReq) : Continues 1 (fun _ pages => pages) r := by
  have hnum : ∀ n, numPages 1 n = n := fun n => by rw [numPages, Nat.div_one, Nat.add_sub_cancel]
  have hlay : ∀ (g : List Nat) (n : Nat), n ≤ g.length → layout 1 g n = g.take n := by
    intro g n hn
    have h := pagesOf_layout (n := n) one_pos (by rwa [mul_one])
    rwa [pagesOf_one, hnum] at h
  intro g pages hg hp hle _
  rw [hnum] at hg
  rw [numNewPages, hnum, hnum] at hp
  have hlen : (g ++ pages).length = r.seqLen := by
    rw [length_append]
    omega
  rw [hlay g _ hg.ge, hlay _ _ hlen.ge, ← hg, ← hlen, take_length, take_length]

theorem numNewPages_one (r : ExtendReq) : numNewPages 1 r = r.seqLen - r.prefixLen := by
  simp [numNewPages, numPages]

theorem cutSlots_eq (reqs : List ExtendReq) (free : List Nat) :
    cutSlots reqs (free.take (totalNewPages 1 reqs)) =
      batchSlots 1 (fun _ pages => pages) reqs free := by
  induction reqs generalizing free with
  | nil => rfl
  | cons r rs ih =>
    have hsum : totalNewPages 1 (r :: rs) = (r.seqLen - r.prefixLen) + totalNewPages 1 rs := by
      rw [totalNewPages, map_cons, sum_cons, numNewPages_one, totalNewPages]
    rw [cutSlots, batchSlots, numNewPages_one, hsum, take_take,
      Nat.min_eq_left (Nat.le_add_right _ _), drop_take, Nat.add_sub_cancel_left, ih]

theorem totalNewPages_one (reqs : List ExtendReq) :
    totalNewPages 1 reqs = (reqs.map fun r => r.seqLen - r.prefixLen).sum := by
  rw [totalNewPages, funext numNewPages_one]

theorem allocToken_spec (h : Ok 1 a) {reqs : List ExtendReq} {n : Nat}
    (hn : n = totalNewPages 1 reqs) :
    BatchAlloc 1 a reqs ((a.alloc n).1.map (cutSlots reqs), (a.alloc n).2) := by
  unfold alloc
  dsimp only
  have hpages := refill_pages a (n / a.pageSize)
  obtain ⟨hsize, hstarted⟩ := h.refill (n / a.pageSize)
  have hdiv : n / a.pageSize = totalNewPages 1 reqs := by rw [h.pageSize_eq, Nat.div_one, hn]
  rw [hdiv] at hpages hsize hstarted ⊢
  have hbatch := batchAlloc_of_refill reqs hpages ⟨rfl, hsize.symm ▸ hstarted⟩
    (fun r _ => hsize.symm ▸ pages_continue r)
  rw [hsize] at hbatch
  split_ifs at hbatch ⊢ with hlt
  · exact hbatch
  · rw [hsize, slotsOf_one, Option.map_some, cutSlots_eq]
    exact hbatch

theorem allocForExtend_spec (hps : 0 < ps) (h : Ok ps a) (reqs : List ExtendReq) :
    BatchAlloc ps a reqs (a.allocForExtend reqs) := by
  unfold allocForExtend
  rw [h.pageSize_eq]
  split_ifs with hone
  · subst hone
    exact allocToken_spec h (totalNewPages_one reqs).symm
  · exact allocExtend_spec hps h reqs

theorem allocForDecode_spec (hps : 0 < ps) (h : Ok ps a) {reqs : List ExtendReq}
    (hreqs : ∀ r ∈ reqs, r.seqLen = r.prefixLen + 1) :
    BatchAlloc ps a reqs (a.allocForDecode reqs) := by
  unfold allocForDecode
  rw [h.pageSize_eq]
  split_ifs with hone
  · subst hone
    apply allocToken_spec h
    induction reqs with
    | nil => rfl
    | cons r rs ih =>
      have hr := hreqs r mem_cons_self
      have hrest := ih fun x hx => hreqs x (mem_cons_of_mem _ hx)
      rw [totalNewPages, map_cons, sum_cons, numNewPages_one, length_cons, hrest, totalNewPages]
      omega
  · exact allocDecode_spec (by omega) h hreqs

end Allocator

end Fluxfer.Memory
