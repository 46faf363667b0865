import Fluxfer.Requests.Owned

/-!
# Owners of pages

`Conserved`: every page of the pool has exactly one owner, the allocator, a node of the tree or
a request. It is what the account of `Owned` says about single pages.
-/

namespace Fluxfer.Requests

open Radix Memory Pages ParentTree Multiset List

inductive Owner
  | free
  | node (n : NodeId)
  | req (i : Nat)
deriving DecidableEq

/-- The page `g` belongs to the allocator (to its free list, or to what is queued for it), to
the value of a node of the tree, or to the private part of a request. -/
def Owns (p : CacheParams) (c : RadixCache) (reqs : List Req) : Owner → Nat → Prop
  | .free, g => g ∈ c.allocator.pages
  | .node n, g => c.tree.Attached n ∧ ∃ slot ∈ c.tree.deviceValue n, slot / p.pageSize = g
  | .req i, g => ∃ r, reqs[i]? = some r ∧ ∃ slot ∈ r.privateSlots, slot / p.pageSize = g

/-- Every page of the pool has exactly one owner, and no other page has one. -/
structure Conserved (p : CacheParams) (N : Nat) (c : RadixCache) (reqs : List Req) : Prop where
  owner : ∀ g, 1 ≤ g → g ≤ N → ∃! o, Owns p c reqs o g
  inside : ∀ o g, Owns p c reqs o g → 1 ≤ g ∧ g ≤ N
  free_nodup : c.allocator.pages.Nodup

theorem unique_of_nodup_sum {ι : Type*} [DecidableEq ι] {S : Finset ι} {f : ι → Multiset Nat}
    (hnd : (∑ i ∈ S, f i).Nodup) {i j : ι} (hi : i ∈ S) (hj : j ∈ S) {g : Nat} (hgi : g ∈ f i)
    (hgj : g ∈ f j) : i = j := by
  by_contra hij
  have hsub : ({i, j} : Finset ι) ⊆ S := by
    intro k hk
    rcases Finset.mem_insert.mp hk with rfl | hk
    · exact hi
    · exact Finset.mem_singleton.mp hk ▸ hj
  have hle := Finset.sum_le_sum_of_subset (f := f) hsub
  rw [Finset.sum_pair hij] at hle
  obtain ⟨_, _, hdisj⟩ := nodup_add.mp (nodup_of_le hle hnd)
  exact disjoint_left.mp hdisj hgi hgj

theorem sum_range_getD (l : List (Multiset Nat)) :
    ∑ i ∈ Finset.range l.length, l.getD i 0 = l.sum := by
  induction l with
  | nil => rfl
  | cons x l ih =>
    rw [List.length_cons, Finset.sum_range_succ', List.sum_cons, ← ih, add_comm]
    rfl

variable {p : CacheParams} {N : Nat} {c : RadixCache} {A : Finset NodeId} {reqs : List Req}
  {others : List NodeId}

/-- The pages of an owner, as they are counted in `Owned`. -/
def ownerPages (p : CacheParams) (c : RadixCache) (reqs : List Req) : Owner → Multiset Nat
  | .free => c.allocator.pages
  | .node n => pagesOf p.pageSize (c.tree.deviceValue n)
  | .req i => (reqs.map fun r => (pagesOf p.pageSize r.privateSlots : Multiset Nat)).getD i 0

def owners (A : Finset NodeId) (reqs : List Req) : Finset Owner :=
  insert .free (A.image .node ∪ (Finset.range reqs.length).image .req)

theorem sum_ownerPages : ∑ o ∈ owners A reqs, ownerPages p c reqs o =
    cachePages p c A + privatePages p.pageSize reqs := by
  have hfree : Owner.free ∉ A.image Owner.node ∪ (Finset.range reqs.length).image Owner.req := by
    simp
  have hdisj : Disjoint (A.image Owner.node) ((Finset.range reqs.length).image Owner.req) := by
    rw [Finset.disjoint_left]
    intro o ho ho'
    obtain ⟨n, _, rfl⟩ := Finset.mem_image.mp ho
    obtain ⟨i, _, hi⟩ := Finset.mem_image.mp ho'
    cases hi
  have hreqs : ∑ i ∈ Finset.range reqs.length, ownerPages p c reqs (.req i) =
      privatePages p.pageSize reqs := by
    rw [privatePages, ← sum_range_getD, length_map]
    rfl
  rw [owners, Finset.sum_insert hfree, Finset.sum_union hdisj,
    Finset.sum_image (fun _ _ _ _ h => Owner.node.inj h),
    Finset.sum_image (fun _ _ _ _ h => Owner.req.inj h), hreqs, cachePages, add_assoc]
  rfl

variable (h : Owned p N c A reqs others) (hshape : ShapeOn p c.tree A)
include h hshape

theorem Owned.mem_private_iff
    {i g : Nat} (hi : i < reqs.length) : g ∈ ownerPages p c reqs (.req i) ↔
      ∃ slot ∈ reqs[i].privateSlots, slot / p.pageSize = g := by
  obtain ⟨l, v, hr⟩ := h.req reqs[i] (getElem_mem hi)
  have hlaid : Laid p.pageSize reqs[i].privateSlots := by
    apply hr.laid.drop p.pageSize_pos
    rw [hr.protected_eq]
    exact hshape.trie.label_dvd hr.mem hr.seg
  rw [← (hlaid.started p.pageSize_pos).mem_pagesOf p.pageSize_pos, ownerPages,
    getD_eq_getElem _ _ (by rwa [length_map]), getElem_map, mem_coe]

theorem Owned.owns_iff (hlaid : ValuesLaid p.pageSize c.tree A) {o : Owner} {g : Nat} :
    Owns p c reqs o g ↔ o ∈ owners A reqs ∧ g ∈ ownerPages p c reqs o := by
  cases o with
  | free => simp [owners, ownerPages, Owns]
  | node n =>
    have hmem : Owner.node n ∈ owners A reqs ↔ n ∈ A := by simp [owners]
    rw [hmem, ← hshape.attached_iff]
    apply and_congr_right
    intro hn
    have hstarted := (hlaid n (hshape.attached_iff.mp hn)).started p.pageSize_pos
    exact (hstarted.mem_pagesOf p.pageSize_pos).symm
  | req i =>
    have hmem : Owner.req i ∈ owners A reqs ↔ i < reqs.length := by simp [owners]
    rw [hmem]
    constructor
    · rintro ⟨r, hr, hslot⟩
      obtain ⟨hi, rfl⟩ := List.getElem?_eq_some_iff.mp hr
      exact ⟨hi, (h.mem_private_iff hshape hi).mpr hslot⟩
    · rintro ⟨hi, hg⟩
      exact ⟨reqs[i], getElem?_eq_getElem hi, (h.mem_private_iff hshape hi).mp hg⟩

theorem Owned.conserved (hlaid : ValuesLaid p.pageSize c.tree A) : Conserved p N c reqs := by
  have hpages := sum_ownerPages.trans h.pages
  have hnd : (∑ o ∈ owners A reqs, ownerPages p c reqs o).Nodup := by
    rw [sum_ownerPages]
    exact h.nodup
  have hrange : ∀ g, g ∈ (range' 1 N : Multiset Nat) ↔ 1 ≤ g ∧ g ≤ N := by
    intro g
    rw [mem_coe, mem_range'_1]
    omega
  refine ⟨?_, ?_, ?_⟩
  · intro g hlo hhi
    have hg := (hrange g).mpr ⟨hlo, hhi⟩
    rw [← hpages, mem_sum] at hg
    obtain ⟨o, ho, hgo⟩ := hg
    refine ⟨o, (h.owns_iff hshape hlaid).mpr ⟨ho, hgo⟩, ?_⟩
    intro o' ho'
    obtain ⟨hmem, hgo'⟩ := (h.owns_iff hshape hlaid).mp ho'
    exact unique_of_nodup_sum hnd hmem ho hgo' hgo
  · intro o g ho
    rw [← hrange, ← hpages, mem_sum]
    exact ⟨o, (h.owns_iff hshape hlaid).mp ho⟩
  · exact nodup_of_le (le_add_right _ _) h.nodup_cache

end Fluxfer.Requests
