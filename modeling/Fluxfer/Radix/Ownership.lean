import Fluxfer.Memory.AllocatorSpec
import Fluxfer.Radix.CacheSpec

/-!
# The pages and paths of a tree

`treePages ps t A` is the multiset of device pages in the values of the nodes `A`. Every
change of the tree either keeps it or moves the pages of one value. `KeepsPaths t t' B` says
that the units and slots on the way from the root to a node of `B` stay the same, which is
what a request relies on that has locked its node.
-/

namespace Fluxfer.Radix

open ParentTree Pages RadixTree Multiset Finset List

noncomputable def treePages (ps : Nat) (t : RadixTree) (A : Finset NodeId) : Multiset Nat :=
  ∑ n ∈ A, (pagesOf ps (t.deviceValue n) : Multiset Nat)

/-- The value of every node fills pages. -/
def ValuesLaid (ps : Nat) (t : RadixTree) (A : Finset NodeId) : Prop :=
  ∀ n ∈ A, Laid ps (t.deviceValue n)

/-- The paths of the nodes in `B` are the same in `t'`. -/
structure KeepsPaths (t t' : RadixTree) (B : Set NodeId) : Prop where
  root_eq : t'.rootNode = t.rootNode
  ns : ∀ n ∈ B, t'.ns n = t.ns n
  seg : ∀ n ∈ B, ∀ l, PathLabel t.par t.seg n l → PathLabel t'.par t'.seg n l
  value : ∀ n ∈ B, ∀ v, PathLabel t.par t.deviceValue n v → PathLabel t'.par t'.deviceValue n v

namespace KeepsPaths

variable {t t' u : RadixTree} {B C : Set NodeId}

theorem refl (t : RadixTree) (B : Set NodeId) : KeepsPaths t t B :=
  ⟨rfl, fun _ _ => rfl, fun _ _ _ h => h, fun _ _ _ h => h⟩

theorem trans (h : KeepsPaths t t' B) (g : KeepsPaths t' u C) (hBC : B ⊆ C) : KeepsPaths t u B :=
  ⟨g.root_eq.trans h.root_eq, fun n hn => (g.ns n (hBC hn)).trans (h.ns n hn),
    fun n hn l hl => g.seg n (hBC hn) l (h.seg n hn l hl),
    fun n hn v hv => g.value n (hBC hn) v (h.value n hn v hv)⟩

theorem mono (h : KeepsPaths t t' B) (hC : C ⊆ B) : KeepsPaths t t' C :=
  ⟨h.root_eq, fun n hn => h.ns n (hC hn), fun n hn => h.seg n (hC hn),
    fun n hn => h.value n (hC hn)⟩

theorem of_values (hroot : t'.rootNode = t.rootNode) (hpar : ∀ n, t'.par n = t.par n)
    (hkey : ∀ n, (t'.nodes n).key = (t.nodes n).key)
    (hvalue : ∀ n ∈ B, ∀ m, Anc t.par m n → (t'.nodes m).value = (t.nodes m).value) :
    KeepsPaths t t' B := by
  have hpar' : t'.par = t.par := funext hpar
  have hseg : t'.seg = t.seg := funext fun n => seg_congr (hkey n)
  refine ⟨hroot, ?_, ?_, ?_⟩
  · intro n _
    exact ns_congr (hkey _)
  · intro n _ l hl
    rwa [hpar', hseg]
  · intro n hn v hv
    rw [hpar']
    refine hv.congr fun m hm => ?_
    exact deviceValue_congr (hvalue n hn m hm)

theorem of_eq (hroot : t'.rootNode = t.rootNode) (hpar : ∀ n, t'.par n = t.par n)
    (hkey : ∀ n, (t'.nodes n).key = (t.nodes n).key)
    (hvalue : ∀ n, (t'.nodes n).value = (t.nodes n).value) (B : Set NodeId) : KeepsPaths t t' B :=
  of_values hroot hpar hkey fun _ _ m _ => hvalue m

end KeepsPaths

/-! ## One change -/

section Changes

variable {x c node : NodeId} {k : Nat} {key : RadixKey} {value : List Nat}
variable {p : CacheParams} {t t' : RadixTree} {A : Finset NodeId}

theorem IsSame.keepsPaths (h : IsSame t t') (B : Set NodeId) : KeepsPaths t t' B :=
  .of_eq h.root_eq h.par_eq h.key_eq h.value_eq B

theorem IsRelock.keepsPaths {δ : NodeId → Int} (h : IsRelock t t' δ) (B : Set NodeId) :
    KeepsPaths t t' B :=
  .of_eq h.root_eq h.par_eq h.key_eq h.value_eq B

theorem IsRemove.keepsPaths (h : IsRemove p.pageSize t t' x) (B : Set NodeId) : KeepsPaths t t' B :=
  .of_eq h.root_eq h.par_eq h.key_eq h.value_eq B

theorem IsSplit.keepsPaths (hs : IsSplit p.pageSize t t' c k) (h : ShapeOn p t A) (hc : c ∈ A)
    (hcr : c ≠ t.rootNode) (hk : k ≤ t.len c) : KeepsPaths t t' A := by
  have hw := h.not_mem_counter
  have hold := h.ne_counter
  refine ⟨hs.root_eq, fun n hn => hs.ns_old (hold n hn), ?_, ?_⟩
  · intro n hn l hl
    rw [hs.par_eq]
    refine h.rooted.label_splice hc hcr hw ?_ ?_ n hn l hl
    · rw [hs.seg_eq hk, hs.seg_eq hk, if_pos rfl, if_neg (hold c hc), if_pos rfl,
        take_append_drop]
    · intro x hx hxc
      rw [hs.seg_eq hk, if_neg (hold x hx), if_neg hxc]
  · intro n hn v hv
    exact hs.label h hc hcr hn hv

theorem IsGraft.keepsPaths (hg : IsGraft p.pageSize t t' node key value) (h : ShapeOn p t A) :
    KeepsPaths t t' A := by
  have hw := h.not_mem_counter
  have hold := h.ne_counter
  refine ⟨hg.root_eq, fun n hn => hg.ns_old (hold n hn), ?_, ?_⟩
  · intro n hn l hl
    rw [hg.par_eq]
    refine (h.rooted.label_graft hw ?_ n hn l).mpr hl
    intro x hx
    rw [seg, hg.key_eq, if_neg (hold x hx), seg]
  · intro n hn v hv
    rw [hg.par_eq]
    refine (h.rooted.label_graft hw ?_ n hn v).mpr hv
    intro x hx
    rw [deviceValue, hg.value_eq, if_neg (hold x hx), deviceValue]

theorem treePages_congr (ps : Nat) (hvalue : ∀ n ∈ A, (t'.nodes n).value = (t.nodes n).value) :
    treePages ps t' A = treePages ps t A := by
  apply sum_congr rfl
  intro n hn
  rw [deviceValue_congr (hvalue n hn)]

theorem ValuesLaid.congr {ps : Nat} (h : ValuesLaid ps t A)
    (hvalue : ∀ n ∈ A, (t'.nodes n).value = (t.nodes n).value) : ValuesLaid ps t' A := by
  intro n hn
  rw [deviceValue, hvalue n hn]
  exact h n hn

theorem IsSplit.treePages_eq (hs : IsSplit p.pageSize t t' c k) (h : ShapeOn p t A) (hc : c ∈ A) :
    treePages p.pageSize t' (insert t.counter A) = treePages p.pageSize t A := by
  have hw := h.not_mem_counter
  have hold := h.ne_counter
  unfold treePages
  rw [sum_insert hw, ← add_sum_erase A _ hc, ← add_sum_erase A _ hc,
    ← add_assoc, hs.deviceValue_eq, hs.deviceValue_eq, if_pos rfl, if_neg (hold c hc), if_pos rfl,
    coe_add, ← pagesOf_append, take_append_drop]
  congr 1
  apply sum_congr rfl
  intro n hn
  have hnA := Finset.mem_of_mem_erase hn
  rw [hs.deviceValue_eq, if_neg (hold n hnA), if_neg (ne_of_mem_erase hn)]

theorem IsSplit.valuesLaid (hs : IsSplit p.pageSize t t' c k) (h : ValuesLaid p.pageSize t A)
    (hc : c ∈ A) (hd : p.pageSize ∣ k) : ValuesLaid p.pageSize t' (insert t.counter A) := by
  intro n hn
  rw [hs.deviceValue_eq]
  split_ifs with hnw hnc
  · exact (h c hc).take p.pageSize_pos k
  · exact (h c hc).drop p.pageSize_pos hd
  · exact h n ((mem_insert.mp hn).resolve_left hnw)

section

variable (hg : IsGraft p.pageSize t t' node key value)
include hg

theorem IsGraft.deviceValue_eq (n : NodeId) :
    t'.deviceValue n = if n = t.counter then value else t.deviceValue n := by
  rw [deviceValue, hg.value_eq]
  split_ifs <;> rfl

theorem IsGraft.treePages_eq (h : ShapeOn p t A) : treePages p.pageSize t' (insert t.counter A) =
      treePages p.pageSize t A + (pagesOf p.pageSize value : Multiset Nat) := by
  have hw := h.not_mem_counter
  unfold treePages
  rw [sum_insert hw, hg.deviceValue_eq, if_pos rfl, add_comm]
  congr 1
  apply sum_congr rfl
  intro n hn
  have hne := h.ne_counter _ hn
  rw [hg.deviceValue_eq, if_neg hne]

theorem IsGraft.valuesLaid (h : ValuesLaid p.pageSize t A) (hv : Laid p.pageSize value) :
    ValuesLaid p.pageSize t' (insert t.counter A) := by
  intro n hn
  rw [hg.deviceValue_eq]
  split_ifs with hnw
  · exact hv
  · exact h n ((mem_insert.mp hn).resolve_left hnw)

end

theorem IsRemove.treePages_eq (hr : IsRemove p.pageSize t t' x) (hx : x ∈ A) :
    treePages p.pageSize t A = treePages p.pageSize t' (A.erase x) +
      (pagesOf p.pageSize (t.deviceValue x) : Multiset Nat) := by
  rw [treePages_congr p.pageSize fun n _ => hr.value_eq n, treePages, treePages,
    ← add_sum_erase A _ hx, add_comm]

theorem IsRemove.valuesLaid (hr : IsRemove p.pageSize t t' x) (h : ValuesLaid p.pageSize t A) :
    ValuesLaid p.pageSize t' (A.erase x) :=
  ValuesLaid.congr (fun n hn => h n (Finset.mem_of_mem_erase hn)) fun n _ => hr.value_eq n

theorem ValuesLaid.path (h : ValuesLaid p.pageSize t A) (hshape : ShapeOn p t A)
    (hlen : ∀ n ∈ A, p.pageSize ∣ (t.deviceValue n).length) {n : NodeId} (hn : n ∈ A)
    {v : List Nat} (hv : PathLabel t.par t.deviceValue n v) :
    Laid p.pageSize v ∧ p.pageSize ∣ v.length := by
  induction hv with
  | root _ => exact ⟨h _ hn, hlen _ hn⟩
  | @step m q l hq _ ih =>
    obtain ⟨hl, hd⟩ := ih (hshape.rooted.mem_of_par hn hq)
    refine ⟨hl.append p.pageSize_pos hd (h m hn), ?_⟩
    rw [length_append]
    exact Nat.dvd_add hd (hlen m hn)

end Changes

/-! ## The operations of `RadixCache` -/

section Operations

variable {p : CacheParams} {t t' : RadixTree} {A A' : Finset NodeId}

theorem Refines.keepsPaths (h : Refines p t A t' A') (hi : TreeInv p t A) : KeepsPaths t t' A := by
  induction h with
  | refl => exact .refl t A
  | split hr hs hc hcr _ hk _ ih =>
    exact ih.trans (hs.keepsPaths (hr.treeInv hi).core.shape hc hcr hk.le)
      (coe_subset.mpr hr.subset)
  | same hr hs ih => exact ih.trans (hs.keepsPaths _) (Set.subset_univ _)

theorem Refines.treePages_eq (h : Refines p t A t' A') (hi : TreeInv p t A) :
    treePages p.pageSize t' A' = treePages p.pageSize t A := by
  induction h with
  | refl => rfl
  | split hr hs hc _ _ _ _ ih =>
    rw [hs.treePages_eq (hr.treeInv hi).core.shape hc, ih]
  | same hr hs ih => rw [treePages_congr p.pageSize fun n _ => hs.value_eq n, ih]

theorem Refines.valuesLaid (h : Refines p t A t' A') (hv : ValuesLaid p.pageSize t A) :
    ValuesLaid p.pageSize t' A' := by
  induction h with
  | refl => exact hv
  | split _ hs hc _ _ _ hd ih => exact hs.valuesLaid ih hc hd
  | same _ hs ih => exact ih.congr fun n _ => hs.value_eq n

namespace Inserted

variable {q : List KeyUnit} {slots : List Nat} {n : Nat}

theorem keepsPaths (h : Inserted p t A q slots n t' A') (hi : TreeInv p t A) :
    KeepsPaths t t' A := by
  cases h with
  | full hr _ => exact hr.keepsPaths hi
  | leaf hr hg _ _ hs =>
    have hgraft := hg.keepsPaths (hr.treeInv hi).core.shape
    exact ((hr.keepsPaths hi).trans hgraft (coe_subset.mpr hr.subset)).trans
      (hs.keepsPaths _) (Set.subset_univ _)

theorem treePages_eq (h : Inserted p t A q slots n t' A') (hi : TreeInv p t A)
    (hlen : slots.length = q.length) : treePages p.pageSize t' A' =
      treePages p.pageSize t A + (pagesOf p.pageSize (slots.drop n) : Multiset Nat) := by
  cases h with
  | full hr hn =>
    rw [hr.treePages_eq hi, hn, ← hlen, drop_length, pagesOf_nil, coe_nil, add_zero]
  | leaf hr hg _ _ hs =>
    rw [treePages_congr p.pageSize fun n _ => hs.value_eq n,
      hg.treePages_eq (hr.treeInv hi).core.shape, hr.treePages_eq hi]

theorem valuesLaid (h : Inserted p t A q slots n t' A') (hv : ValuesLaid p.pageSize t A)
    (hslots : Laid p.pageSize (slots.drop n)) : ValuesLaid p.pageSize t' A' := by
  cases h with
  | full hr _ => exact hr.valuesLaid hv
  | leaf hr hg _ _ hs =>
    exact (hg.valuesLaid (hr.valuesLaid hv) hslots).congr fun n _ => hs.value_eq n

end Inserted

namespace Evicts

variable {c c' : RadixCache} {k : Nat}

theorem keepsPaths (h : Evicts p c A k c' A') (B : Set NodeId) : KeepsPaths c.tree c'.tree B := by
  induction h with
  | refl => exact .refl _ _
  | step _ _ hr _ ih => exact ih.trans (hr.keepsPaths B) subset_rfl

theorem valuesLaid (h : Evicts p c A k c' A') (hv : ValuesLaid p.pageSize c.tree A) :
    ValuesLaid p.pageSize c'.tree A' := by
  induction h with
  | refl => exact hv
  | step _ _ hr _ ih => exact hr.valuesLaid ih

theorem pages_eq (h : Evicts p c A k c' A') (hv : ValuesLaid p.pageSize c.tree A)
    (hok : c.allocator.Ok p.pageSize)
    (hnd : (c.allocator.pages + treePages p.pageSize c.tree A).Nodup) :
    c'.allocator.Ok p.pageSize ∧
      c'.allocator.pages + treePages p.pageSize c'.tree A' =
        c.allocator.pages + treePages p.pageSize c.tree A := by
  induction h with
  | refl => exact ⟨hok, rfl⟩
  | @step d B k x t' h hl hr _ ih =>
    obtain ⟨hdok, hpages⟩ := ih
    have hlaid := h.valuesLaid hv x hl.mem
    have hstarted := hlaid.started p.pageSize_pos
    rw [hr.treePages_eq hl.mem] at hpages
    have hndx : (pagesOf p.pageSize (d.tree.deviceValue x)).Nodup := by
      rw [← hpages] at hnd
      exact coe_nodup.mp (nodup_of_le
        ((le_add_left _ _).trans (le_add_left _ _)) hnd)
    refine ⟨hdok.free hstarted, ?_⟩
    rw [Memory.Allocator.pages_free p.pageSize_pos hdok hstarted hndx, ← hpages]
    abel

end Evicts

theorem BaseInv.holds_path (h : BaseInv p t A) {n : NodeId} {e : Option String}
    {l : List KeyUnit} {v : List Nat} (hn : n ∈ A) (hns : n = t.rootNode ∨ t.ns n = e)
    (hl : PathLabel t.par t.seg n l) (hv : PathLabel t.par t.deviceValue n v) :
    h.store.holds e l v := h.shape.trie.holds_label h.value_length hn hns hl hv

end Operations

end Fluxfer.Radix
