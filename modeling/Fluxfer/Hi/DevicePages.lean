import Fluxfer.Hi.Steps
import Fluxfer.Requests.Owned

/-!
# Device pages along the steps of the two-tier cache

The device pages of a cache are those of its allocator and those in the values of its tree.
A step moves pages between the two, and takes in the pages of the slots that `insert` hands
over; no step loses or copies a page (`HiStep.pages`).
-/

namespace Fluxfer.Hi

open Radix ParentTree Memory Pages Requests RadixTree Multiset List

/-- Allocator and tree, as far as pages are concerned. -/
structure DeviceInv (hp : HiParams) (s : HiState) : Prop where
  laid : ValuesLaid hp.pageSize s.tree s.nodes
  ok : s.cache.allocator.Ok hp.pageSize

noncomputable def HiState.devicePages (hp : HiParams) (s : HiState) : Multiset Nat :=
  cachePages hp.toCacheParams s.cache.toRadixCache s.nodes

variable {hp : HiParams} {s s' : HiState}

theorem emptyNode_treePages {t : RadixTree} {A : Finset NodeId} {x : NodeId} (ps k : Nat)
    (hx : x ∈ A) : treePages ps t A = treePages ps (emptyNode t x k) A +
      (pagesOf ps (t.deviceValue x) : Multiset Nat) := by
  have ht := emptyNode_isTouch t x k
  have hempty : (emptyNode t x k).deviceValue x = [] := by
    rw [deviceValue, emptyNode_self]
    rfl
  unfold treePages
  rw [← Finset.add_sum_erase A _ hx, ← Finset.add_sum_erase A _ hx, hempty, pagesOf_nil,
    coe_nil, zero_add, add_comm]
  congr 1
  apply Finset.sum_congr rfl
  intro n hn
  rw [deviceValue, deviceValue, ht.value_eq n (Finset.ne_of_mem_erase hn)]

theorem free_pages {t t' : RadixTree} {A A' : Finset NodeId} {x : NodeId} {a : Allocator}
    (hlaid : ValuesLaid hp.pageSize t A) (hok : a.Ok hp.pageSize) (hx : x ∈ A)
    (hnd : (a.pages + treePages hp.pageSize t A).Nodup)
    (htree : treePages hp.pageSize t A = treePages hp.pageSize t' A' +
      (pagesOf hp.pageSize (t.deviceValue x) : Multiset Nat)) :
    (a.free (t.deviceValue x)).Ok hp.pageSize ∧
      (a.free (t.deviceValue x)).pages + treePages hp.pageSize t' A' =
        a.pages + treePages hp.pageSize t A := by
  have hstarted := (hlaid x hx).started hp.pageSize_pos
  have hndx : (pagesOf hp.pageSize (t.deviceValue x)).Nodup := by
    rw [htree] at hnd
    exact coe_nodup.mp (nodup_of_le
      ((le_add_left _ _).trans (le_add_left _ _)) hnd)
  refine ⟨hok.free hstarted, ?_⟩
  rw [Allocator.pages_free hp.pageSize_pos hok hstarted hndx, htree]
  abel

namespace HiStep

theorem pages_same {t : RadixTree} {a : Allocator} (hd : DeviceInv hp s)
    (hvalue : ∀ n, (t.nodes n).value = (s.tree.nodes n).value) (ha : a = s.cache.allocator) :
    ValuesLaid hp.pageSize t s.nodes ∧ a.Ok hp.pageSize ∧
      a.pages + treePages hp.pageSize t s.nodes = s.devicePages hp := by
  subst ha
  refine ⟨hd.laid.congr fun n _ => hvalue n, hd.ok, ?_⟩
  rw [treePages_congr hp.pageSize fun n _ => hvalue n]
  rfl

theorem pages (h : HiStep hp s s') (hi : HiInv hp s) (hd : DeviceInv hp s)
    {gs : List (List Nat)} (hgiven : s'.given = s.given ++ gs)
    (hlaid : ∀ g ∈ gs, Laid hp.pageSize g) (hnd : (s.devicePages hp).Nodup) :
    DeviceInv hp s' ∧
      s'.devicePages hp = s.devicePages hp + (pagesOf hp.pageSize gs.flatten : Multiset Nat) := by
  -- most steps hand over nothing
  have hnone : s'.given = s.given → ValuesLaid hp.pageSize s'.tree s'.nodes ∧
      s'.cache.allocator.Ok hp.pageSize ∧
      s'.cache.allocator.pages + treePages hp.pageSize s'.tree s'.nodes = s.devicePages hp →
      DeviceInv hp s' ∧ s'.devicePages hp =
        s.devicePages hp + (pagesOf hp.pageSize gs.flatten : Multiset Nat) := by
    rintro heq ⟨hl, hok, hpages⟩
    have hgs : gs = [] := by
      rw [heq] at hgiven
      exact append_right_eq_self.mp hgiven.symm
    refine ⟨⟨hl, hok⟩, ?_⟩
    rw [hgs, flatten_nil, pagesOf_nil, coe_nil, add_zero]
    exact hpages
  have hone : ∀ {v : List Nat}, s'.given = s.given ++ [v] → gs = [v] := by
    intro v heq
    rw [hgiven] at heq
    exact append_cancel_left heq
  cases h with
  | book htree ha => exact hnone rfl (pages_same hd htree.value_eq ha)
  | refill k =>
    refine hnone rfl ⟨hd.laid, hd.ok.refill k, ?_⟩
    rw [Allocator.refill_pages]
    rfl
  | @split t n k hs hn hr hk0 hk hdvd =>
    refine hnone rfl ⟨hs.valuesLaid hd.laid hn hdvd, hd.ok, ?_⟩
    rw [hs.treePages_eq hi.shape hn]
    rfl
  | @graft t node key value hg _ =>
    obtain rfl := hone rfl
    have hv := hlaid value mem_cons_self
    refine ⟨⟨hg.valuesLaid hd.laid hv, hd.ok⟩, ?_⟩
    show s.cache.allocator.pages + treePages hp.pageSize t (insert s.tree.counter s.nodes) = _
    rw [hg.treePages_eq hi.shape, ← add_assoc, flatten_singleton]
    rfl
  | @fill n a v hn ha had hoff hv =>
    obtain rfl := hone rfl
    have hvl := hlaid v mem_cons_self
    have ht := fillNode_isTouch s.tree n v
    have hself : (fillNode s.tree n v).deviceValue n = v := by
      rw [deviceValue, fillNode_self]
      rfl
    refine ⟨⟨fun m hm => ?_, hd.ok⟩, ?_⟩
    · show Laid hp.pageSize ((fillNode s.tree n v).deviceValue m)
      by_cases hmn : m = n
      · rw [hmn, hself]
        exact hvl
      · rw [deviceValue, ht.value_eq m hmn]
        exact hd.laid m hm
    · show s.cache.allocator.pages + treePages hp.pageSize (fillNode s.tree n v) s.nodes = _
      rw [touch_treePages ht hn hoff hself, ← add_assoc, flatten_singleton]
      rfl
  | @demote x q hx hb hq =>
    have htree := emptyNode_treePages (t := s.tree) hp.pageSize (s.tree.len x) hx.mem
    obtain ⟨hok, hpages⟩ := free_pages hd.laid hd.ok hx.mem hnd htree
    refine hnone rfl ⟨fun m hm => ?_, hok, hpages⟩
    have ht := emptyNode_isTouch s.tree x (s.tree.len x)
    show Laid hp.pageSize ((emptyNode s.tree x (s.tree.len x)).deviceValue m)
    by_cases hmx : m = x
    · rw [hmx, deviceValue, emptyNode_self]
      exact Laid.nil hp.pageSize_pos
    · rw [deviceValue, ht.value_eq m hmx]
      exact hd.laid m hm
  | @drop x t hx hb hr _ =>
    obtain ⟨hok, hpages⟩ := free_pages hd.laid hd.ok hx.mem hnd
      (hr.treePages_eq hx.mem)
    exact hnone rfl ⟨hr.valuesLaid hd.laid, hok, hpages⟩
  | @dropHost x t hx hr _ _ =>
    refine hnone rfl ⟨hr.valuesLaid hd.laid, hd.ok, ?_⟩
    have hempty : s.tree.deviceValue x = [] := by
      rw [deviceValue, not_not.mp hx.off]
      rfl
    have htree := hr.treePages_eq hx.mem
    rw [hempty, pagesOf_nil, coe_nil, add_zero] at htree
    show s.cache.allocator.pages + treePages hp.pageSize t (s.nodes.erase x) =
      s.cache.allocator.pages + treePages hp.pageSize s.tree s.nodes
    rw [htree]
  | lock _ hl _ => exact hnone rfl (pages_same hd hl.value_eq rfl)
  | unlock _ hl _ => exact hnone rfl (pages_same hd hl.value_eq rfl)
  | backup _ _ _ _ ht _ => exact hnone rfl (pages_same hd ht.value_eq rfl)
  | ackWrite _ hl _ => exact hnone rfl (pages_same hd hl.value_eq rfl)
  | leakWrite _ => exact hnone rfl ⟨hd.laid, hd.ok, rfl⟩
  | @load a x ns v t alloc nodesByReqid hne halloc ht _ =>
    obtain ⟨u, hf, hl⟩ := ht.filled
    obtain ⟨hlaidv, hok, hpages⟩ := Allocator.alloc_spec hp.pageSize_pos hd.ok halloc
    have hul := hf.laid hd.laid hlaidv
    refine hnone rfl ⟨hul.congr fun n _ => hl.value_eq n, hok, ?_⟩
    show alloc.pages + treePages hp.pageSize t s.nodes =
      s.cache.allocator.pages + treePages hp.pageSize s.tree s.nodes
    rw [treePages_congr hp.pageSize fun n _ => hl.value_eq n, hf.pages, hpages]
    abel
  | ackLoad _ hl _ => exact hnone rfl (pages_same hd hl.value_eq rfl)

end HiStep

end Fluxfer.Hi
