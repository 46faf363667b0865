import Fluxfer.Lib.PagedTrie
import Fluxfer.Radix.Tree

/-!
# The shape of the tree

`ShapeOn p t A`: the cells `A` are a tree below the root, the dictionaries of children are exactly
its edges, and the keys make it a path-compressed trie with pages. The three changes of shape are
described cell by cell (`IsSplit`, `IsGraft`, `IsRemove`).
-/

namespace Fluxfer.Radix

open ParentTree RadixKey TreeNode Finset Option Nat
open RadixTree (alloc)

variable {ps k : Nat} {t : RadixTree} {c q : NodeId}

namespace RadixTree

def par (t : RadixTree) (n : NodeId) : Option NodeId := (t.nodes n).parent

def seg (t : RadixTree) (n : NodeId) : List KeyUnit := (t.nodes n).key.units

def ns (t : RadixTree) (n : NodeId) : Option String := (t.nodes n).key.extraKey

def len (t : RadixTree) (n : NodeId) : Nat := (t.nodes n).key.len

def find (t : RadixTree) (n : NodeId) (ck : ChildKey) : Option NodeId :=
  (t.nodes n).children.lookup ck

theorem length_seg (t : RadixTree) (n : NodeId) : (t.seg n).length = t.len n :=
  length_units _

end RadixTree

section Congr

variable {t t' : RadixTree} {n : NodeId} (h : (t'.nodes n).key = (t.nodes n).key)
include h

theorem seg_congr : t'.seg n = t.seg n := congrArg units h

theorem ns_congr : t'.ns n = t.ns n := congrArg extraKey h

theorem len_congr : t'.len n = t.len n := congrArg len h

end Congr

structure ShapeOn (p : CacheParams) (t : RadixTree) (A : Finset NodeId) : Prop where
  rooted : Rooted t.par A t.rootNode t.counter
  below : ∀ n ∈ A, n < t.counter
  find_iff : ∀ n ∈ A, ∀ ck c, t.find n ck = some c ↔
    c ∈ A ∧ t.par c = some n ∧ (t.nodes c).key.childKey p.pageSize = ck
  root_len : t.len t.rootNode = 0
  len_pos : ∀ n ∈ A, n ≠ t.rootNode → 0 < t.len n
  len_dvd : ∀ n ∈ A, p.pageSize ∣ t.len n
  bigram : ∀ n ∈ A, n ≠ t.rootNode → (t.nodes n).key.isBigram = p.isEagle
  ns_par : ∀ n ∈ A, ∀ q, t.par n = some q → q ≠ t.rootNode → t.ns n = t.ns q

namespace ShapeOn

variable {n : NodeId}
variable {p : CacheParams} {A : Finset NodeId}

variable (h : ShapeOn p t A)
include h

theorem page_le (hn : n ∈ A) (hr : n ≠ t.rootNode) : p.pageSize ≤ t.len n :=
  le_of_dvd (h.len_pos n hn hr) (h.len_dvd n hn)

theorem not_mem_counter : t.counter ∉ A := fun hm =>
  lt_irrefl _ (h.below _ hm)

theorem card_le : A.card ≤ t.counter := by
  have hsub : A ⊆ range t.counter := fun n hn => mem_range.mpr (h.below n hn)
  simpa using card_le_card hsub

theorem ne_counter : ∀ n ∈ A, n ≠ t.counter := fun _ hn e =>
  h.not_mem_counter (e ▸ hn)

theorem child_unique {m q : NodeId} (hn : n ∈ A) (hm : m ∈ A)
    (hnq : t.par n = some q) (hmq : t.par m = some q)
    (hk : (t.nodes n).key.childKey p.pageSize = (t.nodes m).key.childKey p.pageSize) : n = m := by
  have hq := h.rooted.mem_of_par hn hnq
  have h1 := (h.find_iff q hq _ n).mpr ⟨hn, hnq, rfl⟩
  have h2 := (h.find_iff q hq _ m).mpr ⟨hm, hmq, rfl⟩
  rw [hk, h2] at h1
  exact (some.inj h1).symm

theorem trie : PagedTrie t.par A t.rootNode t.counter p.pageSize t.ns t.seg where
  rooted := h.rooted
  seg_root := List.eq_nil_of_length_eq_zero ((t.length_seg _).trans h.root_len)
  seg_pos n hn hr := by
    rw [t.length_seg]
    exact h.len_pos n hn hr
  seg_dvd n hn := by
    rw [t.length_seg]
    exact h.len_dvd n hn
  ns_par := h.ns_par
  sep n hn m hm q hnq hmq hns hpage := by
    have hnr := h.rooted.ne_root_of_par hnq
    have hmr := h.rooted.ne_root_of_par hmq
    apply h.child_unique hn hm hnq hmq
    rw [childKey_eq_iff p.pageSize_pos]
    · exact ⟨hns, hpage⟩
    · rw [h.bigram n hn hnr, h.bigram m hm hmr]
    · exact h.page_le hn hnr
    · exact h.page_le hm hmr

theorem mem_childList (hn : n ∈ A) {c : NodeId} :
    c ∈ (t.nodes n).childList ↔ c ∈ A ∧ t.par c = some n := by
  have hlookup : c ∈ (t.nodes n).childList ↔ ∃ ck, t.find n ck = some c := by
    unfold childList RadixTree.find
    rw [List.mem_map]
    constructor
    · rintro ⟨⟨ck, c'⟩, hmem, rfl⟩
      exact ⟨ck, AList.mem_lookup_iff.mpr hmem⟩
    · rintro ⟨ck, hck⟩
      exact ⟨⟨ck, c⟩, AList.mem_lookup_iff.mp hck, rfl⟩
  rw [hlookup]
  constructor
  · rintro ⟨ck, hck⟩
    obtain ⟨hc, hp, _⟩ := (h.find_iff n hn ck c).mp hck
    exact ⟨hc, hp⟩
  · rintro ⟨hc, hp⟩
    exact ⟨_, (h.find_iff n hn _ c).mpr ⟨hc, hp, rfl⟩⟩

theorem childList_eq_nil (hn : n ∈ A) : (t.nodes n).childList = [] ↔ ∀ c ∈ A, t.par c ≠ some n := by
  rw [List.eq_nil_iff_forall_not_mem]
  constructor
  · intro hnil c hc hp
    exact hnil c ((h.mem_childList hn).mpr ⟨hc, hp⟩)
  · intro hno c hc
    obtain ⟨hcA, hp⟩ := (h.mem_childList hn).mp hc
    exact hno c hcA hp

theorem congr {t' : RadixTree} (hroot : t'.rootNode = t.rootNode)
    (hcount : t'.counter = t.counter) (hpar : ∀ n, t'.par n = t.par n)
    (hkey : ∀ n, (t'.nodes n).key = (t.nodes n).key) (hfind : ∀ n ck, t'.find n ck = t.find n ck) :
    ShapeOn p t' A := by
  have hpar' : t'.par = t.par := funext hpar
  have hlen : ∀ n, t'.len n = t.len n := fun n => by rw [RadixTree.len, RadixTree.len, hkey]
  have hns : ∀ n, t'.ns n = t.ns n := fun n => by rw [RadixTree.ns, RadixTree.ns, hkey]
  constructor
  · rw [hpar', hroot, hcount]
    exact h.rooted
  · rw [hcount]
    exact h.below
  · intro n hn ck c
    rw [hfind, hpar, hkey]
    exact h.find_iff n hn ck c
  · rw [hroot, hlen]
    exact h.root_len
  · intro n hn hr
    rw [hlen]
    exact h.len_pos n hn (hroot ▸ hr)
  · intro n hn
    rw [hlen]
    exact h.len_dvd n hn
  · intro n hn hr
    rw [hkey]
    exact h.bigram n hn (hroot ▸ hr)
  · intro n hn q hq hr
    rw [hns, hns]
    exact h.ns_par n hn q (by rwa [hpar] at hq) (hroot ▸ hr)

end ShapeOn

/-! ## Splits -/

/-- `t'` is `t` after the node `c` was split at `k`; the new node has the old counter. -/
structure IsSplit (ps : Nat) (t t' : RadixTree) (c : NodeId) (k : Nat) : Prop where
  counter_eq : t'.counter = t.counter + 1
  root_eq : t'.rootNode = t.rootNode
  par_eq : t'.par = splice t.par c t.counter
  key_eq : ∀ n, (t'.nodes n).key =
    if n = t.counter then (t.nodes c).key.slice 0 k
    else if n = c then (t.nodes c).key.slice k (t.nodes c).key.len else (t.nodes n).key
  find_eq : ∀ n ck, t'.find n ck =
    if n = t.counter then
      if ck = ((t.nodes c).key.slice k (t.nodes c).key.len).childKey ps then some c else none
    else if t.par c = some n ∧ ck = (t.nodes c).key.childKey ps then some t.counter
    else t.find n ck
  lock_eq : ∀ n, (t'.nodes n).lockRef =
    if n = t.counter then (t.nodes c).lockRef else (t.nodes n).lockRef
  value_eq : ∀ n, (t'.nodes n).value =
    if n = t.counter then (t.nodes c).value.map (·.take k)
    else if n = c then (t.nodes c).value.map (·.drop k) else (t.nodes n).value
  host_eq : ∀ n, (t'.nodes n).hostValue =
    if n = t.counter then (t.nodes c).hostValue.map (·.take k)
    else if n = c then (t.nodes c).hostValue.map (·.drop k) else (t.nodes n).hostValue
  evictable_eq : t'.evictableSize = t.evictableSize
  protected_eq : t'.protectedSize = t.protectedSize
  leaves_eq : t'.evictableLeaves = t.evictableLeaves
  hostLeaves_eq : t'.evictableHostLeaves = t.evictableHostLeaves

theorem lookup_singleton {α : Type} [DecidableEq α] {a ck : α} {b : NodeId} :
    (AList.singleton a b : AList fun _ : α => NodeId).lookup ck =
      if ck = a then some b else none := by
  rw [← AList.insert_empty]
  by_cases h : ck = a
  · subst h
    rw [AList.lookup_insert, if_pos rfl]
  · rw [AList.lookup_insert_ne h, AList.lookup_empty, if_neg h]

theorem hiSplitNode_isSplit (hc : c ≠ t.counter) (hq : t.par c = some q) (hqw : q ≠ t.counter)
    (hqc : q ≠ c) : IsSplit ps t (t.hiSplitNode ps (t.nodes c).key c k).2 c k := by
  have hq' : (t.nodes c).parent = some q := hq
  have hwc : t.counter ≠ c := Ne.symm hc
  unfold RadixTree.hiSplitNode
  simp only [hq', RadixTree.setChild]
  constructor <;> try rfl
  · funext n
    simp only [RadixTree.par, RadixTree.modify, alloc, splice]
    split_ifs <;> simp_all
  · intro n
    simp only [RadixTree.modify, alloc]
    split_ifs <;> simp_all
  · intro n ck
    simp only [RadixTree.find, RadixTree.par, RadixTree.modify, alloc, hq']
    by_cases hnq : n = q
    · subst hnq
      simp only [if_true, hqw, hqc, true_and]
      by_cases hck : ck = (t.nodes c).key.childKey ps
      · subst hck
        simp
      · rw [AList.lookup_insert_ne hck]
        simp [hck]
    · have hqn : q ≠ n := Ne.symm hnq
      by_cases hnw : n = t.counter
      · subst hnw
        simp [hwc, hnq, lookup_singleton]
      · by_cases hnc : n = c
        · subst hnc
          simp [hnq, hqn, hnw]
        · simp [hnq, hqn, hnw, hnc]
  · intro n
    simp only [RadixTree.modify, alloc]
    split_ifs <;> simp_all
  · intro n
    simp only [RadixTree.modify, alloc, evicted]
    split_ifs <;> simp_all
  · intro n
    simp only [RadixTree.modify, alloc, backuped]
    split_ifs <;> simp_all

/-- On nodes without host slots the two `_split_node` functions agree. -/
theorem splitNode_eq_hiSplitNode {key : RadixKey} (hc : c ≠ t.counter)
    (hhost : (t.nodes c).hostValue = none) : t.splitNode ps key c k = t.hiSplitNode ps key c k := by
  unfold RadixTree.splitNode RadixTree.hiSplitNode
  have hvalue : ∀ f : List Nat → List Nat,
      (if (t.nodes c).evicted then none else (t.nodes c).value.map f) =
        (t.nodes c).value.map f := by
    intro f
    unfold evicted
    cases (t.nodes c).value <;> rfl
  have hchild : ∀ f : List Nat → List Nat,
      (if (t.nodes c).evicted then (t.nodes c).value else (t.nodes c).value.map f) =
        (t.nodes c).value.map f := by
    intro f
    unfold evicted
    cases (t.nodes c).value <;> rfl
  have hback : (t.nodes c).backuped = false := by simp [backuped, hhost]
  have hmodify : ∀ x, (alloc t x).nodes c = t.nodes c := fun x => if_neg hc
  simp only [RadixTree.modify, hmodify, hvalue, hchild, hback, hhost]
  rfl

/-! ### The shape after a split -/

namespace IsSplit

variable {n : NodeId}
variable {p : CacheParams} {t' : RadixTree} {A : Finset NodeId}

section

variable (hs : IsSplit p.pageSize t t' c k)
include hs

theorem par_new : t'.par t.counter = t.par c := by rw [hs.par_eq, splice_new]

theorem par_child (hc : c ≠ t.counter) : t'.par c = some t.counter := by
  rw [hs.par_eq, splice_child hc]

theorem par_other (hw : n ≠ t.counter) (hc : n ≠ c) : t'.par n = t.par n := by
  rw [hs.par_eq, splice_other hw hc]

theorem len_new (hk : k ≤ t.len c) : t'.len t.counter = k := by
  rw [RadixTree.len, hs.key_eq, if_pos rfl]
  exact len_take _ hk

theorem len_child (hc : c ≠ t.counter) (hk : k ≤ t.len c) : t'.len c = t.len c - k := by
  rw [RadixTree.len, hs.key_eq, if_neg hc, if_pos rfl]
  exact len_drop _ hk

theorem key_other (hw : n ≠ t.counter) (hc : n ≠ c) : (t'.nodes n).key = (t.nodes n).key := by
  rw [hs.key_eq, if_neg hw, if_neg hc]

theorem len_other (hw : n ≠ t.counter) (hc : n ≠ c) : t'.len n = t.len n :=
  len_congr (hs.key_other hw hc)

theorem ns_new : t'.ns t.counter = t.ns c := by
  rw [RadixTree.ns, hs.key_eq, if_pos rfl]
  exact slice_extraKey _ _ _

theorem ns_old (hw : n ≠ t.counter) : t'.ns n = t.ns n := by
  rw [RadixTree.ns, hs.key_eq, if_neg hw]
  split
  · rename_i h
    subst h
    exact slice_extraKey _ _ _
  · rfl

theorem bigram_eq (n : NodeId) : (t'.nodes n).key.isBigram =
      if n = t.counter then (t.nodes c).key.isBigram else (t.nodes n).key.isBigram := by
  rw [hs.key_eq]
  split_ifs with h1 h2
  · exact slice_isBigram _ _ _
  · subst h2
    exact slice_isBigram _ _ _
  · rfl

end

theorem childKey_take (h : ShapeOn p t A) (hc : c ∈ A) (hcr : c ≠ t.rootNode)
    (hk0 : 0 < k) (hk : k ≤ t.len c) (hd : p.pageSize ∣ k) :
    ((t.nodes c).key.slice 0 k).childKey p.pageSize = (t.nodes c).key.childKey p.pageSize := by
  have hpk : p.pageSize ≤ k := le_of_dvd hk0 hd
  have hlen : ((t.nodes c).key.slice 0 k).len = k := len_take _ hk
  rw [childKey_eq_iff p.pageSize_pos (slice_isBigram _ _ _)
    (by rw [hlen]; exact hpk) (h.page_le hc hcr)]
  refine ⟨slice_extraKey _ _ _, ?_⟩
  rw [units_take _ hk, List.take_take, min_eq_left hpk]

section

variable {ck : ChildKey} {x : NodeId} (hs : IsSplit p.pageSize t t' c k) (h : ShapeOn p t A)
  (hc : c ∈ A)
include hs h

theorem par_old (hn : n ≠ t.counter) (hx : x ∈ A) (hxn : t'.par x = some n) :
    x ≠ c ∧ t.par x = some n := by
  have hxc : x ≠ c := by
    rintro rfl
    rw [hs.par_child (h.ne_counter x hx)] at hxn
    exact hn (some.inj hxn).symm
  exact ⟨hxc, (hs.par_other (h.ne_counter x hx) hxc).symm.trans hxn⟩

include hc

/-- The new node has one child. -/
theorem eq_of_par_new (hx : x ∈ insert t.counter A) (hxp : t'.par x = some t.counter) : x = c := by
  by_contra hne
  rcases mem_insert.mp hx with rfl | hxA
  · rw [hs.par_new] at hxp
    exact h.not_mem_counter (h.rooted.mem_of_par hc hxp)
  · rw [hs.par_other (h.ne_counter x hxA) hne] at hxp
    exact h.not_mem_counter (h.rooted.mem_of_par hxA hxp)

theorem find_new : t'.find t.counter ck = some x ↔ x ∈ insert t.counter A ∧
    t'.par x = some t.counter ∧ (t'.nodes x).key.childKey p.pageSize = ck := by
  have hcw := h.ne_counter c hc
  have hchildKey : (t'.nodes c).key = (t.nodes c).key.slice k (t.nodes c).key.len := by
    rw [hs.key_eq, if_neg hcw, if_pos rfl]
  rw [hs.find_eq, if_pos rfl]
  constructor
  · intro hx
    split_ifs at hx with hck
    obtain rfl := some.inj hx
    exact ⟨mem_insert_of_mem hc, hs.par_child hcw, by rw [hchildKey, hck]⟩
  · rintro ⟨hx, hxp, hxk⟩
    obtain rfl := hs.eq_of_par_new h hc hx hxp
    rw [hchildKey] at hxk
    rw [if_pos hxk.symm]

theorem find_old (hck : ((t.nodes c).key.slice 0 k).childKey p.pageSize =
      (t.nodes c).key.childKey p.pageSize) (hn : n ∈ A) :
    t'.find n ck = some x ↔ x ∈ insert t.counter A ∧ t'.par x = some n ∧
      (t'.nodes x).key.childKey p.pageSize = ck := by
  have hnw := h.ne_counter n hn
  rw [hs.find_eq, if_neg hnw]
  by_cases hpc : t.par c = some n ∧ ck = (t.nodes c).key.childKey p.pageSize
  · -- the entry of `c` now leads to the new node
    rw [if_pos hpc]
    obtain ⟨hcn, rfl⟩ := hpc
    constructor
    · intro hx
      obtain rfl := some.inj hx
      refine ⟨mem_insert_self _ _, hs.par_new.trans hcn, ?_⟩
      rw [hs.key_eq, if_pos rfl, hck]
    · rintro ⟨hx, hxp, hxk⟩
      rcases mem_insert.mp hx with rfl | hxA
      · rfl
      · obtain ⟨hxc, hxn⟩ := hs.par_old h hnw hxA hxp
        rw [hs.key_other (h.ne_counter x hxA) hxc] at hxk
        exact absurd (h.child_unique hxA hc hxn hcn hxk) hxc
  · rw [if_neg hpc, h.find_iff n hn]
    constructor
    · rintro ⟨hxA, hxp, hxk⟩
      have hxc : x ≠ c := by
        rintro rfl
        exact hpc ⟨hxp, hxk.symm⟩
      have hxw := h.ne_counter x hxA
      refine ⟨mem_insert_of_mem hxA, (hs.par_other hxw hxc).trans hxp, ?_⟩
      rw [hs.key_other hxw hxc, hxk]
    · rintro ⟨hx, hxp, hxk⟩
      rcases mem_insert.mp hx with rfl | hxA
      · rw [hs.key_eq, if_pos rfl, hck] at hxk
        exact absurd ⟨hs.par_new.symm.trans hxp, hxk.symm⟩ hpc
      · obtain ⟨hxc, hxn⟩ := hs.par_old h hnw hxA hxp
        rw [hs.key_other (h.ne_counter x hxA) hxc] at hxk
        exact ⟨hxA, hxn, hxk⟩

theorem ns_par (hn : n ∈ insert t.counter A) {q : NodeId} (hq : t'.par n = some q)
    (hqr : q ≠ t.rootNode) : t'.ns n = t'.ns q := by
  rcases mem_insert.mp hn with rfl | hnA
  · rw [hs.par_new] at hq
    rw [hs.ns_new, hs.ns_old (h.ne_counter q (h.rooted.mem_of_par hc hq))]
    exact h.ns_par c hc q hq hqr
  · rw [hs.ns_old (h.ne_counter n hnA)]
    by_cases hnc : n = c
    · subst hnc
      rw [hs.par_child (h.ne_counter n hc)] at hq
      obtain rfl := some.inj hq
      rw [hs.ns_new]
    · rw [hs.par_other (h.ne_counter n hnA) hnc] at hq
      rw [hs.ns_old (h.ne_counter q (h.rooted.mem_of_par hnA hq))]
      exact h.ns_par n hnA q hq hqr

theorem shape (hcr : c ≠ t.rootNode) (hk0 : 0 < k) (hk : k < t.len c) (hd : p.pageSize ∣ k) :
    ShapeOn p t' (insert t.counter A) := by
  have hcw := h.ne_counter c hc
  refine ⟨?_, fun n hn => ?_, fun n hn ck x => ?_, ?_, fun n hn hr => ?_, fun n hn => ?_,
    fun n hn hr => ?_, fun n hn q hq hqr => hs.ns_par h hc hn hq (hs.root_eq ▸ hqr)⟩
  · rw [hs.par_eq, hs.root_eq, hs.counter_eq]
    exact h.rooted.splice_rooted hc hcr h.not_mem_counter
  · rw [hs.counter_eq]
    rcases mem_insert.mp hn with rfl | hn
    · exact lt_succ_self _
    · exact lt_succ_of_lt (h.below n hn)
  · rcases mem_insert.mp hn with rfl | hnA
    · exact hs.find_new h hc
    · exact hs.find_old h hc (childKey_take h hc hcr hk0 hk.le hd) hnA
  · rw [hs.root_eq, hs.len_other (h.ne_counter _ h.rooted.root_mem) (Ne.symm hcr), h.root_len]
  · rw [hs.root_eq] at hr
    rcases mem_insert.mp hn with rfl | hnA
    · rw [hs.len_new hk.le]
      exact hk0
    · by_cases hnc : n = c
      · subst hnc
        rw [hs.len_child hcw hk.le]
        omega
      · rw [hs.len_other (h.ne_counter n hnA) hnc]
        exact h.len_pos n hnA hr
  · rcases mem_insert.mp hn with rfl | hnA
    · rwa [hs.len_new hk.le]
    · by_cases hnc : n = c
      · subst hnc
        rw [hs.len_child hcw hk.le]
        exact dvd_sub (h.len_dvd n hc) hd
      · rw [hs.len_other (h.ne_counter n hnA) hnc]
        exact h.len_dvd n hnA
  · rw [hs.root_eq] at hr
    rw [hs.bigram_eq]
    rcases mem_insert.mp hn with rfl | hnA
    · rw [if_pos rfl]
      exact h.bigram c hc hcr
    · rw [if_neg (h.ne_counter n hnA)]
      exact h.bigram n hnA hr

end

end IsSplit

/-! ## New leaves -/

/-- `t'` is `t` with a new leaf `key ↦ value` below `node`, up to sizes and sets. -/
structure IsGraft (ps : Nat) (t t' : RadixTree) (node : NodeId) (key : RadixKey)
    (value : List Nat) : Prop where
  counter_eq : t'.counter = t.counter + 1
  root_eq : t'.rootNode = t.rootNode
  par_eq : t'.par = graft t.par node t.counter
  key_eq : ∀ n, (t'.nodes n).key = if n = t.counter then key else (t.nodes n).key
  find_eq : ∀ n ck, t'.find n ck =
    if n = t.counter then none
    else if n = node ∧ ck = key.childKey ps then some t.counter else t.find n ck
  lock_eq : ∀ n, (t'.nodes n).lockRef = if n = t.counter then 0 else (t.nodes n).lockRef
  value_eq : ∀ n, (t'.nodes n).value = if n = t.counter then some value else (t.nodes n).value
  host_eq : ∀ n, (t'.nodes n).hostValue = if n = t.counter then none else (t.nodes n).hostValue

theorem linkLeaf_isGraft {node : NodeId} (ps : Nat) (key : RadixKey) (value : List Nat)
    (hn : node ≠ t.counter) : IsGraft ps t (t.linkLeaf ps node key value) node key value := by
  have hwn : t.counter ≠ node := Ne.symm hn
  unfold RadixTree.linkLeaf
  simp only [RadixTree.setChild]
  constructor <;> try rfl
  · funext n
    simp only [RadixTree.par, RadixTree.modify, alloc, graft]
    split_ifs <;> simp_all
  · intro n
    simp only [RadixTree.modify, alloc]
    split_ifs <;> simp_all
  · intro n ck
    simp only [RadixTree.find, RadixTree.modify, alloc]
    by_cases hnn : n = node
    · subst hnn
      simp only [hn, if_false, true_and]
      by_cases hck : ck = key.childKey ps
      · subst hck
        simp
      · simp [hck]
    · by_cases hnw : n = t.counter
      · subst hnw
        simp [hwn, new]
      · simp [hnn, hnw]
  · intro n
    simp only [RadixTree.modify, alloc]
    split_ifs <;> simp_all [new]
  · intro n
    simp only [RadixTree.modify, alloc]
    split_ifs <;> simp_all
  · intro n
    simp only [RadixTree.modify, alloc]
    split_ifs <;> simp_all [new]

namespace IsGraft

variable {n : NodeId}
variable {p : CacheParams} {t' : RadixTree} {A : Finset NodeId} {node : NodeId} {key : RadixKey}
  {value : List Nat}

variable (hg : IsGraft p.pageSize t t' node key value)
include hg

theorem len_new : t'.len t.counter = key.len := by
  rw [RadixTree.len, hg.key_eq, if_pos rfl]

theorem len_old (hn : n ≠ t.counter) : t'.len n = t.len n :=
  len_congr (by rw [hg.key_eq, if_neg hn])

theorem ns_old (hn : n ≠ t.counter) : t'.ns n = t.ns n := by
  rw [RadixTree.ns, hg.key_eq, if_neg hn, RadixTree.ns]

theorem shape (h : ShapeOn p t A)
    (hn : node ∈ A) (hpos : 0 < key.len) (hd : p.pageSize ∣ key.len)
    (hb : key.isBigram = p.isEagle) (hns : node ≠ t.rootNode → key.extraKey = t.ns node)
    (hnew : t.find node (key.childKey p.pageSize) = none) : ShapeOn p t' (insert t.counter A) := by
  have hw := h.not_mem_counter
  have hold := h.ne_counter
  have hparOld : ∀ x ∈ A, t'.par x = t.par x := fun x hx => by
    rw [hg.par_eq, graft_other (hold x hx)]
  have hparNew : t'.par t.counter = some node := by rw [hg.par_eq, graft_new]
  have hkeyOld : ∀ x ∈ A, (t'.nodes x).key = (t.nodes x).key := fun x hx => by
    rw [hg.key_eq, if_neg (hold x hx)]
  have hkeyNew : (t'.nodes t.counter).key = key := by rw [hg.key_eq, if_pos rfl]
  constructor
  · rw [hg.par_eq, hg.root_eq, hg.counter_eq]
    exact h.rooted.graft_rooted hn hw
  · intro n hn
    rw [hg.counter_eq]
    rcases mem_insert.mp hn with rfl | hn
    · exact lt_succ_self _
    · exact lt_succ_of_lt (h.below n hn)
  · intro n hnA ck x
    rw [hg.find_eq]
    rcases mem_insert.mp hnA with rfl | hnA
    · -- nothing is below the new leaf
      rw [if_pos rfl]
      refine ⟨nofun, ?_⟩
      rintro ⟨hx, hxp, _⟩
      exfalso
      rcases mem_insert.mp hx with rfl | hxA
      · rw [hparNew] at hxp
        exact hold node hn (some.inj hxp)
      · rw [hparOld x hxA] at hxp
        exact hw (h.rooted.mem_of_par hxA hxp)
    · rw [if_neg (hold n hnA)]
      by_cases hnode : n = node ∧ ck = key.childKey p.pageSize
      · rw [if_pos hnode]
        obtain ⟨rfl, rfl⟩ := hnode
        constructor
        · intro hx
          obtain rfl := some.inj hx
          exact ⟨mem_insert_self _ _, hparNew, by rw [hkeyNew]⟩
        · rintro ⟨hx, hxp, hxk⟩
          rcases mem_insert.mp hx with rfl | hxA
          · rfl
          · rw [hparOld x hxA] at hxp
            rw [hkeyOld x hxA] at hxk
            have := (h.find_iff n hn _ x).mpr ⟨hxA, hxp, hxk⟩
            rw [hnew] at this
            cases this
      · rw [if_neg hnode, h.find_iff n hnA]
        constructor
        · rintro ⟨hxA, hxp, hxk⟩
          exact ⟨mem_insert_of_mem hxA, (hparOld x hxA).trans hxp,
            by rw [hkeyOld x hxA, hxk]⟩
        · rintro ⟨hx, hxp, hxk⟩
          rcases mem_insert.mp hx with rfl | hxA
          · rw [hparNew] at hxp
            rw [hkeyNew] at hxk
            exact absurd ⟨(some.inj hxp).symm, hxk.symm⟩ hnode
          · rw [hparOld x hxA] at hxp
            rw [hkeyOld x hxA] at hxk
            exact ⟨hxA, hxp, hxk⟩
  · rw [hg.root_eq, hg.len_old (hold _ h.rooted.root_mem), h.root_len]
  · intro n hnA hr
    rw [hg.root_eq] at hr
    rcases mem_insert.mp hnA with rfl | hnA
    · rwa [hg.len_new]
    · rw [hg.len_old (hold n hnA)]
      exact h.len_pos n hnA hr
  · intro n hnA
    rcases mem_insert.mp hnA with rfl | hnA
    · rwa [hg.len_new]
    · rw [hg.len_old (hold n hnA)]
      exact h.len_dvd n hnA
  · intro n hnA hr
    rw [hg.root_eq] at hr
    rcases mem_insert.mp hnA with rfl | hnA
    · rw [hkeyNew, hb]
    · rw [hkeyOld n hnA]
      exact h.bigram n hnA hr
  · intro n hnA q hq hqr
    rw [hg.root_eq] at hqr
    rcases mem_insert.mp hnA with rfl | hnA
    · rw [hparNew] at hq
      obtain rfl := some.inj hq
      rw [hg.ns_old (hold node hn), RadixTree.ns, hkeyNew]
      exact hns hqr
    · rw [hparOld n hnA] at hq
      rw [hg.ns_old (hold n hnA), hg.ns_old (hold q (h.rooted.mem_of_par hnA hq))]
      exact h.ns_par n hnA q hq hqr

end IsGraft

/-! ## Leaves taken away -/

/-- `t'` is `t` after `x` was popped from the dictionary of its parent, up to sizes and sets. -/
structure IsRemove (ps : Nat) (t t' : RadixTree) (x : NodeId) : Prop where
  counter_eq : t'.counter = t.counter
  root_eq : t'.rootNode = t.rootNode
  par_eq : ∀ n, t'.par n = t.par n
  key_eq : ∀ n, (t'.nodes n).key = (t.nodes n).key
  find_eq : ∀ n ck, t'.find n ck =
    if t.par x = some n ∧ ck = (t.nodes x).key.childKey ps then none else t.find n ck
  lock_eq : ∀ n, (t'.nodes n).lockRef = (t.nodes n).lockRef
  value_eq : ∀ n, (t'.nodes n).value = (t.nodes n).value
  host_eq : ∀ n, (t'.nodes n).hostValue = (t.nodes n).hostValue

/-- The dictionary of `q` without the entry of `x`. -/
def popped (ps : Nat) (t : RadixTree) (x q : NodeId) : RadixTree :=
  t.modify q fun y => { y with children := y.children.erase ((t.nodes x).key.childKey ps) }

theorem popChild_eq {ps : Nat} {x : NodeId} (hq : t.par x = some q)
    (hfind : t.find q ((t.nodes x).key.childKey ps) = some x) :
    t.popChild ps x = .ok (q, popped ps t x q) := by
  have hq' : (t.nodes x).parent = some q := hq
  have hfind' : (t.nodes q).children.lookup ((t.nodes x).key.childKey ps) = some x := hfind
  unfold RadixTree.popChild
  simp only [hq', hfind']
  rfl

theorem ShapeOn.find_par {p : CacheParams} {A : Finset NodeId} {x : NodeId} (h : ShapeOn p t A)
    (hx : x ∈ A) (hq : t.par x = some q) :
    t.find q ((t.nodes x).key.childKey p.pageSize) = some x :=
  (h.find_iff q (h.rooted.mem_of_par hx hq) _ x).mpr ⟨hx, hq, rfl⟩

theorem popped_isRemove {x : NodeId} (ps : Nat) (hq : t.par x = some q) :
    IsRemove ps t (popped ps t x q) x := by
  have hq' : (t.nodes x).parent = some q := hq
  have hkeep : ∀ n, ((popped ps t x q).nodes n).parent = (t.nodes n).parent ∧
      ((popped ps t x q).nodes n).key = (t.nodes n).key ∧
      ((popped ps t x q).nodes n).lockRef = (t.nodes n).lockRef ∧
      ((popped ps t x q).nodes n).value = (t.nodes n).value ∧
      ((popped ps t x q).nodes n).hostValue = (t.nodes n).hostValue := by
    intro n
    simp only [popped, RadixTree.modify]
    split_ifs <;> simp_all
  refine ⟨rfl, rfl, fun n => (hkeep n).1, fun n => (hkeep n).2.1, ?_, fun n => (hkeep n).2.2.1,
    fun n => (hkeep n).2.2.2.1, fun n => (hkeep n).2.2.2.2⟩
  · intro n ck
    simp only [popped, RadixTree.find, RadixTree.modify, RadixTree.par, hq']
    by_cases hnq : n = q
    · subst hnq
      simp only [true_and]
      by_cases hck : ck = (t.nodes x).key.childKey ps
      · subst hck
        simp
      · simp [hck]
    · simp [hnq, Ne.symm hnq]

namespace IsRemove

variable {p : CacheParams} {t' : RadixTree} {A : Finset NodeId} {x : NodeId}

theorem of_nodes {u : RadixTree} (hr : IsRemove p.pageSize t t' x) (hn : u.nodes = t'.nodes)
    (hc : u.counter = t'.counter) (ho : u.rootNode = t'.rootNode) : IsRemove p.pageSize t u x := by
  refine ⟨hc.trans hr.counter_eq, ho.trans hr.root_eq, ?_, ?_, ?_, ?_, ?_, ?_⟩ <;>
    simp only [RadixTree.par, RadixTree.find, hn]
  exacts [hr.par_eq, hr.key_eq, hr.find_eq, hr.lock_eq, hr.value_eq, hr.host_eq]

theorem len_eq (hr : IsRemove p.pageSize t t' x) (n : NodeId) : t'.len n = t.len n :=
  len_congr (hr.key_eq _)

theorem shape (hr : IsRemove p.pageSize t t' x) (h : ShapeOn p t A) (hx : x ∈ A)
    (hxr : x ≠ t.rootNode) (hleaf : ∀ c ∈ A, t.par c ≠ some x) : ShapeOn p t' (A.erase x) := by
  have hpar : t'.par = t.par := funext hr.par_eq
  constructor
  · rw [hpar, hr.root_eq, hr.counter_eq]
    exact h.rooted.erase_leaf hxr hleaf
  · intro n hn
    rw [hr.counter_eq]
    exact h.below n (mem_of_mem_erase hn)
  · intro n hn ck c
    have hnA := mem_of_mem_erase hn
    rw [hr.find_eq, hr.par_eq, hr.key_eq, mem_erase]
    by_cases hxn : t.par x = some n ∧ ck = (t.nodes x).key.childKey p.pageSize
    · rw [if_pos hxn]
      obtain ⟨hxn, rfl⟩ := hxn
      constructor
      · intro hc
        cases hc
      · rintro ⟨⟨hcx, hcA⟩, hcn, hck⟩
        exact absurd (h.child_unique hcA hx hcn hxn hck) hcx
    · rw [if_neg hxn, h.find_iff n hnA]
      constructor
      · rintro ⟨hcA, hcn, hck⟩
        refine ⟨⟨?_, hcA⟩, hcn, hck⟩
        rintro rfl
        exact hxn ⟨hcn, hck.symm⟩
      · rintro ⟨⟨_, hcA⟩, hcn, hck⟩
        exact ⟨hcA, hcn, hck⟩
  · rw [hr.root_eq, hr.len_eq, h.root_len]
  · intro n hn hnr
    rw [hr.len_eq]
    exact h.len_pos n (mem_of_mem_erase hn) (hr.root_eq ▸ hnr)
  · intro n hn
    rw [hr.len_eq]
    exact h.len_dvd n (mem_of_mem_erase hn)
  · intro n hn hnr
    rw [hr.key_eq]
    exact h.bigram n (mem_of_mem_erase hn) (hr.root_eq ▸ hnr)
  · intro n hn q hq hqr
    rw [RadixTree.ns, RadixTree.ns, hr.key_eq, hr.key_eq]
    exact h.ns_par n (mem_of_mem_erase hn) q (by rwa [hr.par_eq] at hq) (hr.root_eq ▸ hqr)

end IsRemove

/-! ## Attached nodes -/

/-- The nodes reached from the root through the dictionaries of children. -/
inductive RadixTree.Attached (t : RadixTree) : NodeId → Prop
  | root : Attached t t.rootNode
  | child {n c : NodeId} {ck : ChildKey} (hn : Attached t n) (hc : t.find n ck = some c) :
      Attached t c

open Classical in
noncomputable def RadixTree.attached (t : RadixTree) : Finset NodeId :=
  (range t.counter).filter t.Attached

namespace ShapeOn

variable {p : CacheParams} {A : Finset NodeId}

theorem attached_iff (h : ShapeOn p t A) {n : NodeId} : t.Attached n ↔ n ∈ A := by
  constructor
  · intro hn
    induction hn with
    | root => exact h.rooted.root_mem
    | child _ hc ih => exact ((h.find_iff _ ih _ _).mp hc).1
  · refine h.rooted.induction (P := fun n => t.Attached n) .root ?_ n
    intro m q hm hq hqm hqa
    exact .child hqa ((h.find_iff q hq _ m).mpr ⟨hm, hqm, rfl⟩)

theorem attached_eq (h : ShapeOn p t A) : t.attached = A := by
  ext n
  simp only [RadixTree.attached, mem_filter, h.attached_iff, mem_range]
  exact ⟨fun hn => hn.2, fun hn => ⟨h.below n hn, hn⟩⟩

end ShapeOn

end Fluxfer.Radix
