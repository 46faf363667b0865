import Fluxfer.Radix.Cache
import Fluxfer.Radix.Walk

/-!
# What the operations of `RadixCache` do

`BaseInv p t A` is `TreeInv` for a tree in which every node is on the device and none is backed up.
`BaseInv.store` reads such a tree as a prefix store, and the operations are specified by it.
-/

namespace Fluxfer.Radix

open ParentTree Memory RadixTree RadixKey RadixCache List Option Nat

variable {p : CacheParams} {t t' : RadixTree} {A A' : Finset NodeId} {ps k : Nat}
  {c n node x : NodeId} {e : Option String} {l : List KeyUnit} {v : List Nat} {key : RadixKey}
  {value : Option (List Nat)} {δ : NodeId → Int} {hs heap : List NodeId}

structure BaseInv (p : CacheParams) (t : RadixTree) (A : Finset NodeId) : Prop where
  tree : TreeInv p t A
  device : ∀ n ∈ A, t.onDevice n
  plain : ∀ n ∈ A, n ≠ t.rootNode → ¬ t.backedUp n

theorem init_baseInv (p : CacheParams) : BaseInv p init {0} := by
  refine ⟨init_treeInv p, ?_, ?_⟩
  · intro n hn
    rw [Finset.mem_singleton.mp hn]
    exact (init_core p).root_device
  · intro n hn hr
    exact absurd (Finset.mem_singleton.mp hn) hr

theorem value_of_onDevice (hd : t.onDevice n) : (t.nodes n).value = some (t.deviceValue n) := by
  obtain ⟨v, hv⟩ := ne_none_iff_exists'.mp hd
  rw [deviceValue, hv]
  rfl

namespace BaseInv

theorem shape (h : BaseInv p t A) : ShapeOn p t A := h.tree.core.shape

theorem value_eq (h : BaseInv p t A) {n : NodeId} (hn : n ∈ A) :
    (t.nodes n).value = some (t.deviceValue n) := value_of_onDevice (h.device n hn)

theorem value_length (h : BaseInv p t A) :
    ∀ n ∈ A, (t.deviceValue n).length = (t.seg n).length := by
  intro n hn
  rw [t.length_seg]
  exact h.tree.core.value_len n hn _ (h.value_eq hn)

def store (h : BaseInv p t A) : PrefixStore (Option String) KeyUnit Nat p.pageSize :=
  h.shape.trie.toStore h.value_length

theorem split (h : BaseInv p t A) (hs : IsSplit p.pageSize t t' c k) (hc : c ∈ A)
    (hcr : c ≠ t.rootNode) (hk0 : 0 < k) (hk : k < t.len c) (hd : p.pageSize ∣ k) :
    BaseInv p t' (insert t.counter A) := by
  have hold := h.shape.ne_counter
  refine ⟨hs.treeInv h.tree hc hcr hk0 hk hd, ?_, ?_⟩
  · intro n hn
    rw [hs.onDevice_iff]
    rcases Finset.mem_insert.mp hn with rfl | hnA
    · rw [if_pos rfl]
      exact h.device c hc
    · rw [if_neg (hold n hnA)]
      exact h.device n hnA
  · intro n hn hr
    rw [hs.root_eq] at hr
    rw [hs.backedUp_iff]
    rcases Finset.mem_insert.mp hn with rfl | hnA
    · rw [if_pos rfl]
      exact h.plain c hc hcr
    · rw [if_neg (hold n hnA)]
      exact h.plain n hnA hr

theorem same (h : BaseInv p t A) (hs : IsSame t t') : BaseInv p t' A := by
  refine ⟨hs.treeInv h.tree, ?_, ?_⟩
  · intro n hn
    rw [hs.onDevice_iff]
    exact h.device n hn
  · intro n hn hr
    rw [hs.backedUp_iff]
    exact h.plain n hn (hs.root_eq ▸ hr)

theorem refines {A' : Finset NodeId} (h : BaseInv p t A) (hr : Refines p t A t' A') :
    BaseInv p t' A' := by
  induction hr with
  | refl => exact h
  | split _ hs hc hcr hk0 hk hd ih => exact ih.split hs hc hcr hk0 hk hd
  | same _ hs ih => exact ih.same hs

theorem splitNode (h : BaseInv p t A) (hc : c ∈ A) (hcr : c ≠ t.rootNode) :
    IsSplit p.pageSize t (t.splitNode p.pageSize (t.nodes c).key c k).2 c k := by
  have hcw := h.shape.ne_counter _ hc
  obtain ⟨q, hqA, hq⟩ := h.shape.rooted.par_mem hc hcr
  have hqw := h.shape.ne_counter _ hqA
  have hqc : q ≠ c := h.shape.rooted.par_ne hc hq
  rw [splitNode_eq_hiSplitNode hcw (not_not.mp (h.plain c hc hcr))]
  exact hiSplitNode_isSplit hcw hq hqw hqc

theorem store_same (h : BaseInv p t A) (hs : IsSame t t') : (h.same hs).store = h.store := by
  have hval : t'.deviceValue = t.deviceValue := funext fun n => deviceValue_congr (hs.value_eq n)
  have hpar : t'.par = t.par := funext hs.par_eq
  apply PrefixStore.ext
  change PagedTrie.Holds t'.par A t'.rootNode p.pageSize t'.ns t'.seg t'.deviceValue =
    PagedTrie.Holds t.par A t.rootNode p.pageSize t.ns t.seg t.deviceValue
  rw [hpar, hs.root_eq, hs.ns_eq, hs.seg_eq, hval]

end BaseInv

theorem IsSplit.deviceValue_eq (hs : IsSplit ps t t' c k) (n : NodeId) : t'.deviceValue n =
      if n = t.counter then (t.deviceValue c).take k
      else if n = c then (t.deviceValue c).drop k else t.deviceValue n := by
  unfold deviceValue
  rw [hs.value_eq]
  split_ifs <;> cases (t.nodes c).value <;> simp

theorem IsSplit.seg_eq (hs : IsSplit ps t t' c k) (hk : k ≤ t.len c) (n : NodeId) : t'.seg n =
      if n = t.counter then (t.seg c).take k
      else if n = c then (t.seg c).drop k else t.seg n := by
  unfold seg
  rw [hs.key_eq]
  split_ifs
  · exact units_take _ hk
  · exact units_drop _ hk
  · rfl

theorem BaseInv.store_split (h : BaseInv p t A) (hs : IsSplit p.pageSize t t' c k) (hc : c ∈ A)
    (hcr : c ≠ t.rootNode) (hk0 : 0 < k) (hk : k < t.len c) (hd : p.pageSize ∣ k) :
    (h.split hs hc hcr hk0 hk hd).store = h.store := by
  have hw := h.shape.not_mem_counter
  have hold := h.shape.ne_counter
  have hcw := hold c hc
  apply PrefixStore.ext
  funext e u s
  apply propext
  change PagedTrie.Holds t'.par (Insert.insert t.counter A) t'.rootNode p.pageSize t'.ns t'.seg
      t'.deviceValue e u s ↔
    PagedTrie.Holds t.par A t.rootNode p.pageSize t.ns t.seg t.deviceValue e u s
  rw [hs.par_eq, hs.root_eq]
  apply h.shape.trie.holds_splice hc hcr hw
  · rw [hs.seg_eq hk.le, hs.seg_eq hk.le, if_pos rfl, if_neg hcw, if_pos rfl, take_append_drop]
  · rw [hs.deviceValue_eq, hs.deviceValue_eq, if_pos rfl, if_neg hcw, if_pos rfl, take_append_drop]
  · intro x hx hxc
    rw [hs.seg_eq hk.le, if_neg (hold x hx), if_neg hxc]
  · intro x hx hxc
    rw [hs.deviceValue_eq, if_neg (hold x hx), if_neg hxc]
  · exact hs.ns_new
  · intro x hx
    exact hs.ns_old (hold x hx)
  · exact h.value_length
  · rw [hs.seg_eq hk.le, hs.deviceValue_eq, if_pos rfl, if_pos rfl, length_take, length_take,
      h.value_length c hc]

theorem BaseInv.store_refines (h : BaseInv p t A) (hr : Refines p t A t' A') :
    (h.refines hr).store = h.store := by
  induction hr with
  | refl => rfl
  | split hr hs hc hcr hk0 hk hd ih =>
    rw [← ih]
    exact (h.refines hr).store_split hs hc hcr hk0 hk hd
  | same hr hs ih =>
    rw [← ih]
    exact (h.refines hr).store_same hs

theorem AtEnd.isLongest {u : List KeyUnit} (h : BaseInv p t A) (ha : AtEnd p t A e u n l)
    (hv : PathLabel t.par t.deviceValue n v) : h.store.IsLongest e u l.length v :=
  h.shape.trie.isLongest_of_stuck h.value_length ha.mem ha.ns ha.label hv ha.pre ha.stuck

/-! ## `match_prefix` -/

theorem IsSplit.label (hs : IsSplit p.pageSize t t' c k) (h : ShapeOn p t A) (hc : c ∈ A)
    (hcr : c ≠ t.rootNode) (hn : n ∈ A) (hv : PathLabel t.par t.deviceValue n v) :
    PathLabel t'.par t'.deviceValue n v := by
  have hw := h.not_mem_counter
  have hcw := h.ne_counter _ hc
  rw [hs.par_eq]
  refine h.rooted.label_splice hc hcr hw ?_ ?_ n hn v hv
  · rw [hs.deviceValue_eq, hs.deviceValue_eq, if_pos rfl, if_neg hcw, if_pos rfl, take_append_drop]
  · intro x hx hxc
    have hxw := h.ne_counter _ hx
    rw [hs.deviceValue_eq, if_neg hxw, if_neg hxc]

theorem matchPrefixHelper_spec :
    ∀ fuel t A node key value l, BaseInv p t A → Walkable p t A node key →
      PathLabel t.par t.seg node l → PathLabel t.par t.deviceValue node value → key.len < fuel →
      ∃ v n t' A' l', matchPrefixHelper p fuel t node key value = .ok (v, n, t') ∧
        Refines p t A t' A' ∧ AtEnd p t' A' key.extraKey (l ++ key.units) n l' ∧
        PathLabel t'.par t'.deviceValue n v := by
  intro fuel
  induction fuel with
  | zero => intro t A node key value l _ _ _ _ hlt; omega
  | succ fuel ih =>
    intro t A node key value l h hw hl hv hlt
    unfold matchPrefixHelper
    by_cases hpos : 0 < key.len
    · rw [if_pos hpos]
      cases hfind : t.find node (key.childKey p.pageSize) with
      | none =>
        exact ⟨value, node, t, A, l, rfl, .refl, atEnd_of_find_none h.shape hw hpos hl hfind, hv⟩
      | some child =>
        obtain ⟨m, hd⟩ := hw.descent h.shape hpos hfind
        simp only [hd.matched, bind, Except.bind]
        by_cases hlt' : m < (t.nodes child).key.len
        · rw [if_pos hlt']
          have hs := h.splitNode (k := m) hd.mem hd.ne_root
          set t' := (t.splitNode p.pageSize (t.nodes child).key child m).2
          have hm0 : 0 < m := lt_of_lt_of_le p.pageSize_pos hd.page_le
          refine ⟨value ++ t'.deviceValue t.counter, t.counter, t', insert t.counter A, _, rfl,
            .split .refl hs hd.mem hd.ne_root hm0 hlt' hd.dvd,
            hd.atEnd_split h.shape hlt' hs hl, ?_⟩
          have hnode := h.shape.rooted.mem_of_par hd.mem hd.par
          exact .step (by rw [hs.par_new, hd.par])
            (hs.label h.shape hd.mem hd.ne_root hnode hv)
        · rw [if_neg hlt']
          have hlen : (key.slice m key.len).len < fuel := by
            rw [len_drop _ hd.le_key]
            have := p.pageSize_pos
            have := hd.page_le
            omega
          obtain ⟨v, n, t', A', l', hrun, href, hend, hvn⟩ := ih t A child (key.slice m key.len)
            (value ++ t.deviceValue child) (l ++ t.seg child) h (hd.walkable hw)
            (.step hd.par hl) (.step hd.par hv) hlen
          rw [hd.label_append hlt', slice_extraKey] at hend
          exact ⟨v, n, t', A', l', hrun, href, hend, hvn⟩
    · rw [if_neg hpos]
      exact ⟨value, node, t, A, l, rfl, .refl, atEnd_of_empty h.shape hw (by omega) hl, hv⟩

/-- The key that `match_prefix` and `insert` work with. -/
def alignedKey (p : CacheParams) (key : RadixKey) : RadixKey :=
  (key.toBigramView p.isEagle).pageAligned p.pageSize

/-- The units a cache looks up or stores for a key: whole pages. -/
def queryUnits (p : CacheParams) (key : RadixKey) : List KeyUnit := (alignedKey p key).units

theorem alignedKey_extraKey (p : CacheParams) (key : RadixKey) :
    (alignedKey p key).extraKey = key.extraKey := by
  rw [alignedKey, pageAligned_extraKey, toBigramView_extraKey]

theorem alignedKey_dvd (p : CacheParams) (key : RadixKey) :
    p.pageSize ∣ (alignedKey p key).len := by
  rw [alignedKey, len_pageAligned]
  exact Dvd.intro_left _ rfl

theorem walkable_root (h : ShapeOn p t A) (hk : key.isBigram = true → p.isEagle = true) :
    Walkable p t A t.rootNode (alignedKey p key) := by
  refine ⟨h.rooted.root_mem, alignedKey_dvd p key, ?_, fun hr => absurd rfl hr⟩
  rw [alignedKey, pageAligned_isBigram, toBigramView_isBigram key hk]

theorem label_root (h : ShapeOn p t A) : PathLabel t.par t.seg t.rootNode [] := by
  have := PathLabel.root (d := t.seg) h.rooted.root_par
  rwa [h.trie.seg_root] at this

theorem value_label_root (h : BaseInv p t A) : PathLabel t.par t.deviceValue t.rootNode [] := by
  have hlabel := PathLabel.root (d := t.deviceValue) h.shape.rooted.root_par
  have hlen := h.value_length t.rootNode h.shape.rooted.root_mem
  rw [h.shape.trie.seg_root] at hlen
  rwa [eq_nil_of_length_eq_zero hlen] at hlabel

theorem matchPrefix_eq (p : CacheParams) (t : RadixTree) (key : RadixKey) :
    t.matchPrefix p key = (do
      let (value, lastNode, t) ← t.matchPrefixHelper p ((alignedKey p key).len + 1) t.rootNode
        (alignedKey p key) []
      .ok (⟨value, lastNode⟩, t)) := by
  change (if (key.toBigramView p.isEagle).len = 0 then _
    else if (alignedKey p key).len = 0 then _ else _) = _
  by_cases hempty : (alignedKey p key).len = 0
  · rw [if_pos hempty, ite_self]
    unfold matchPrefixHelper
    rw [if_neg (by omega)]
    rfl
  · rw [if_neg hempty, if_neg]
    · rfl
    · intro h0
      apply hempty
      rw [alignedKey, len_pageAligned, h0, Nat.zero_div, Nat.zero_mul]

theorem matchPrefix_spec (h : BaseInv p t A) (hk : key.isBigram = true → p.isEagle = true) :
    ∃ r t' A' l, t.matchPrefix p key = .ok (r, t') ∧ Refines p t A t' A' ∧
      AtEnd p t' A' key.extraKey (queryUnits p key) r.lastDeviceNode l ∧
      PathLabel t'.par t'.deviceValue r.lastDeviceNode r.deviceIndices := by
  obtain ⟨v, n, t', A', l, hrun, href, hend, hv⟩ := matchPrefixHelper_spec
    ((alignedKey p key).len + 1) t A t.rootNode (alignedKey p key) [] [] h
    (walkable_root h.shape hk) (label_root h.shape) (value_label_root h) (lt_succ_self _)
  rw [alignedKey_extraKey] at hend
  refine ⟨⟨v, n⟩, t', A', l, ?_, href, hend, hv⟩
  rw [matchPrefix_eq, hrun]
  rfl

/-! ## `insert` -/

theorem incHitCount_isSame (t : RadixTree) (n : NodeId) (chunked : Bool) :
    IsSame t (t.incHitCount n chunked) := by
  unfold incHitCount
  split
  · exact IsSame.refl t
  · exact modify_isSame (fun _ => rfl)

theorem Walkable.same (hw : Walkable p t A n key) (hs : IsSame t t') : Walkable p t' A n key := by
  refine ⟨hw.mem, hw.aligned, hw.bigram, ?_⟩
  rw [hs.root_eq, hs.ns_eq]
  exact hw.ns

theorem IsSame.label (hs : IsSame t t') (hl : PathLabel t.par t.seg n l) :
    PathLabel t'.par t'.seg n l := by
  have hpar : t'.par = t.par := funext hs.par_eq
  rwa [hpar, hs.seg_eq]

theorem IsSame.valueLabel (hs : IsSame t t') (hv : PathLabel t.par t.deviceValue n v) :
    PathLabel t'.par t'.deviceValue n v := by
  have hpar : t'.par = t.par := funext hs.par_eq
  have hval : t'.deviceValue = t.deviceValue := funext fun m => deviceValue_congr (hs.value_eq m)
  rwa [hpar, hval]

/-- Where the loop of `insert` ends: `m` units of the key lead to `n`, and `k` is left. -/
structure Walked (p : CacheParams) (t : RadixTree) (A : Finset NodeId) (key : RadixKey)
    (l : List KeyUnit) (n : NodeId) (k : RadixKey) (m : Nat) (t' : RadixTree)
    (A' : Finset NodeId) (l' : List KeyUnit) (sv : List Nat) : Prop where
  refines : Refines p t A t' A'
  walk : Walkable p t' A' n k
  ext : k.extraKey = key.extraKey
  len : k.len + m = key.len
  length : l'.length = l.length + m
  units : l' ++ k.units = l ++ key.units
  atEnd : AtEnd p t' A' key.extraKey (l ++ key.units) n l'
  label : PathLabel t'.par t'.deviceValue n sv
  stuck : 0 < k.len → t'.find n (k.childKey p.pageSize) = none

theorem insertLoop_spec (p : CacheParams) (chunked : Bool) :
    ∀ fuel t A node key value total l sv, BaseInv p t A → Walkable p t A node key →
      PathLabel t.par t.seg node l → PathLabel t.par t.deviceValue node sv → key.len < fuel →
      ∃ n k m t' A' l' sv', insertLoop p chunked fuel t node key value total =
          .ok (n, k, value.drop m, total + m, t') ∧ Walked p t A key l n k m t' A' l' sv' := by
  intro fuel
  induction fuel with
  | zero => intro t A node key value total l sv _ _ _ _ hlt; omega
  | succ fuel ih =>
    intro t A node key value total l sv h hw hl hv hlt
    unfold insertLoop
    by_cases hpos : 0 < key.len
    · rw [if_pos hpos]
      cases hfind : t.find node (key.childKey p.pageSize) with
      | none =>
        exact ⟨node, key, 0, t, A, l, sv, rfl, .refl, hw, rfl, rfl, rfl, rfl,
          atEnd_of_find_none h.shape hw hpos hl hfind, hv, fun _ => hfind⟩
      | some child =>
        obtain ⟨m, hd⟩ := hw.descent h.shape hpos hfind
        have hm0 : 0 < m := lt_of_lt_of_le p.pageSize_pos hd.page_le
        have hlenk : (key.slice m key.len).len = key.len - m := len_drop _ hd.le_key
        have hmk := hd.le_key
        -- the walk goes on at the node `x` that `m` units lead to
        have hnext : ∀ {x t1 A1 lx sx}, Refines p t A t1 A1 →
            Walkable p t1 A1 x (key.slice m key.len) → PathLabel t1.par t1.seg x lx →
            PathLabel t1.par t1.deviceValue x sx → lx.length = l.length + m →
            lx ++ (key.slice m key.len).units = l ++ key.units →
            ∃ n k j t' A' l' sv', insertLoop p chunked fuel (t1.incHitCount x chunked) x
                (key.slice m key.len) (value.drop m) (total + m) =
                  .ok (n, k, value.drop j, total + j, t') ∧ Walked p t A key l n k j t' A' l' sv' := by
          intro x t1 A1 lx sx href hwx hlx hsx hlen hunits
          have hsame := incHitCount_isSame t1 x chunked
          obtain ⟨n, k, j, t', A', l', sv', hrun, hwalked⟩ := ih (t1.incHitCount x chunked) A1 x
            (key.slice m key.len) (value.drop m) (total + m) lx sx (h.refines (.same href hsame))
            (hwx.same hsame) (hsame.label hlx) (hsame.valueLabel hsx) (by rw [hlenk]; omega)
          have hleft := hwalked.len
          have hl' := hwalked.length
          have hend := hwalked.atEnd
          rw [slice_extraKey, hunits] at hend
          refine ⟨n, k, m + j, t', A', l', sv', ?_, (Refines.same href hsame).trans hwalked.refines,
            hwalked.walk, hwalked.ext.trans (slice_extraKey _ _ _), by omega, by omega,
            hwalked.units.trans hunits, hend, hwalked.label, hwalked.stuck⟩
          rw [← add_assoc total, ← drop_drop]
          exact hrun
        simp only [hd.matched, bind, Except.bind]
        by_cases hlt' : m < (t.nodes child).key.len
        · -- `x` is the upper part of the split child
          rw [if_pos hlt']
          have hs := h.splitNode (k := m) hd.mem hd.ne_root
          have hnode := h.shape.rooted.mem_of_par hd.mem hd.par
          have hend := hd.atEnd_split h.shape hlt' hs hl
          refine hnext (x := t.counter) (.split .refl hs hd.mem hd.ne_root hm0 hlt' hd.dvd)
            ⟨hend.mem, (hd.walkable hw).aligned, (hd.walkable hw).bigram, fun _ => ?_⟩ hend.label
            (.step (by rw [hs.par_new, hd.par])
              (hs.label h.shape hd.mem hd.ne_root hnode hv)) ?_ ?_
          · rw [hs.ns_new, hd.ns, slice_extraKey]
          · rw [length_append, length_take, length_units, min_eq_left hmk]
          · rw [units_drop _ hmk, append_assoc, take_append_drop]
        · rw [if_neg hlt']
          have hchild : t.len child = m := Nat.le_antisymm (Nat.le_of_not_lt hlt') hd.le_child
          refine hnext .refl (hd.walkable hw) (.step hd.par hl) (.step hd.par hv) ?_
            (hd.label_append hlt')
          rw [length_append, t.length_seg, hchild]
    · rw [if_neg hpos]
      exact ⟨node, key, 0, t, A, l, sv, rfl, .refl, hw, rfl, rfl, rfl, rfl,
        atEnd_of_empty h.shape hw (by omega) hl, hv, fun hp => absurd hp hpos⟩

/-- What an insertion of the units `q` with the slots `slots` does to the tree, when `n` of
them were stored before: nothing but splits, or a new leaf with the rest. -/
inductive Inserted (p : CacheParams) (t : RadixTree) (A : Finset NodeId) (q : List KeyUnit)
    (slots : List Nat) (n : Nat) : RadixTree → Finset NodeId → Prop
  | full {t' : RadixTree} {A' : Finset NodeId} (hr : Refines p t A t' A') (hn : n = q.length) :
      Inserted p t A q slots n t' A'
  | leaf {u v t' : RadixTree} {B : Finset NodeId} {node : NodeId} {key : RadixKey}
      (hr : Refines p t A u B) (hg : IsGraft p.pageSize u v node key (slots.drop n))
      (hinv : TreeInv p v (insert u.counter B)) (hlt : n < q.length) (hs : IsSame v t') :
      Inserted p t A q slots n t' (insert u.counter B)

theorem BaseInv.graft {v : RadixTree} {value : List Nat} (h : BaseInv p t A)
    (hg : IsGraft p.pageSize t v node key value) (hinv : TreeInv p v (insert t.counter A)) :
    BaseInv p v (insert t.counter A) := by
  have hold := h.shape.ne_counter
  refine ⟨hinv, ?_, ?_⟩
  · intro n hn
    rcases Finset.mem_insert.mp hn with rfl | hnA
    · exact hg.onDevice_new
    · rw [hg.onDevice_iff (hold n hnA)]
      exact h.device n hnA
  · intro n hn hr
    rcases Finset.mem_insert.mp hn with rfl | hnA
    · exact hg.not_backedUp_new
    · rw [hg.backedUp_iff (hold n hnA)]
      exact h.plain n hnA (hg.root_eq ▸ hr)

theorem BaseInv.store_graft {v : RadixTree} {q : List KeyUnit} {slots sv : List Nat} {n : Nat}
    (h : BaseInv p t A) (hg : IsGraft p.pageSize t v node key (slots.drop n)) (hn : l.length = n)
    (hinv : TreeInv p v (insert t.counter A)) (hslots : slots.length = q.length)
    (hend : AtEnd p t A e q node l) (hsv : PathLabel t.par t.deviceValue node sv)
    (hke : key.extraKey = e) (hku : l ++ key.units = q) :
    (h.graft hg hinv).store = h.store.insert e q slots hslots := by
  subst hn
  have hw := h.shape.not_mem_counter
  have hold := h.shape.ne_counter
  have hlong := hend.isLongest h hsv
  apply PrefixStore.ext
  funext e' w s
  apply propext
  rw [PrefixStore.insert_holds_iff hlong]
  change PagedTrie.Holds v.par (insert t.counter A) v.rootNode p.pageSize v.ns v.seg
      v.deviceValue e' w s ↔
    PagedTrie.Holds t.par A t.rootNode p.pageSize t.ns t.seg t.deviceValue e' w s ∨ _
  have hsegW : v.seg t.counter = key.units := by
    rw [seg, hg.key_eq, if_pos rfl]
  have hnsW : v.ns t.counter = e := by
    rw [ns, hg.key_eq, if_pos rfl, hke]
  have hvalW : v.deviceValue t.counter = slots.drop l.length := by
    rw [deviceValue, hg.value_eq, if_pos rfl]
    rfl
  rw [hg.par_eq, hg.root_eq, h.shape.trie.holds_graft hend.mem hw ?_ ?_ ?_ hend.label hsv, hsegW,
    hnsW, hvalW, hku]
  · intro x hx
    rw [seg, hg.key_eq, if_neg (hold x hx), seg]
  · intro x hx
    rw [deviceValue, hg.value_eq, if_neg (hold x hx), deviceValue]
  · intro x hx
    exact hg.ns_old (hold x hx)

/-- The slots that `insert` stores for a key. -/
def insertSlots (p : CacheParams) (key : RadixKey) (value : Option (List Nat)) : List Nat :=
  match value.map (key.bigramValue p.isEagle) with
  | some v => v.take (alignedKey p key).len
  | none => (alignedKey p key).tokenIds.take (alignedKey p key).len

/-- A caller gives `insert` at least one slot for every unit it can store. -/
def EnoughSlots (p : CacheParams) (key : RadixKey) (value : Option (List Nat)) : Prop :=
  ∀ v, value = some v → (alignedKey p key).len ≤ v.length

theorem RadixKey.len_le_tokens (k : RadixKey) : k.len ≤ k.tokenIds.length := by
  unfold len
  split <;> omega

theorem insertSlots_length (hv : EnoughSlots p key value) :
    (insertSlots p key value).length = (queryUnits p key).length := by
  rw [queryUnits, length_units]
  unfold insertSlots
  cases value with
  | none =>
    rw [map_none, length_take]
    exact min_eq_left (len_le_tokens _)
  | some v =>
    rw [map_some, length_take]
    apply Nat.min_eq_left
    have hle := hv v rfl
    have hview : (alignedKey p key).len ≤ (key.toBigramView p.isEagle).len := by
      rw [alignedKey, len_pageAligned]
      exact div_mul_le_self _ _
    unfold bigramValue
    split
    · rw [length_take]
      omega
    · exact hle

theorem insertHelper_eq (p : CacheParams) (t : RadixTree) (key : RadixKey) (value : List Nat)
    (chunked : Bool) : t.insertHelper p key value chunked = (do
      let (node, key, value, total, t) ←
        insertLoop p chunked (key.len + 1) t t.rootNode key value 0
      if 0 < key.len then
        let (newNode, t) := t.addLeaf p.pageSize node key value key.len
        .ok (total, t.incHitCount newNode chunked)
      else .ok (total, t)) := by
  unfold insertHelper
  by_cases hempty : key.len = 0
  · have hpos : ¬ 0 < key.len := by omega
    unfold insertLoop
    simp only [if_pos hempty, if_neg hpos, bind, Except.bind]
  · rw [if_neg hempty]

theorem insert_spec (h : BaseInv p t A) (hk : key.isBigram = true → p.isEagle = true)
    (hv : EnoughSlots p key value) (chunked : Bool) :
    ∃ n t' A' s, t.insert p key value chunked = .ok (n, t') ∧
      Inserted p t A (queryUnits p key) (insertSlots p key value) n t' A' ∧
      h.store.IsLongest key.extraKey (queryUnits p key) n s ∧
      ∃ h' : BaseInv p t' A', h'.store = h.store.insert key.extraKey (queryUnits p key)
        (insertSlots p key value) (insertSlots_length hv) := by
  have hw := walkable_root h.shape hk
  have hslots := insertSlots_length hv
  have hins : t.insert p key value chunked =
      t.insertHelper p (alignedKey p key) (insertSlots p key value) chunked := rfl
  rw [hins, insertHelper_eq]
  obtain ⟨n, k, m, u, B, l, sv, hrun, ⟨href, hwk, hext, hlen, hll, happ, hend, hsv, hnone⟩⟩ :=
    insertLoop_spec p chunked ((alignedKey p key).len + 1) t A t.rootNode
      (alignedKey p key) (insertSlots p key value) 0 [] [] h hw (label_root h.shape)
      (value_label_root h) (lt_succ_self _)
  rw [length_nil, zero_add] at hll
  rw [alignedKey_extraKey] at hext hend
  have hqlen : (queryUnits p key).length = (alignedKey p key).len := length_units _
  have hu := h.refines href
  have hlong : h.store.IsLongest key.extraKey (queryUnits p key) m sv := by
    have := hend.isLongest hu hsv
    rwa [h.store_refines href, hll] at this
  simp only [hrun, bind, Except.bind, zero_add]
  by_cases hk0 : 0 < k.len
  · rw [if_pos hk0]
    have hnodeW : n ≠ u.counter := fun e => hu.shape.not_mem_counter (e ▸ hwk.mem)
    have hvlen : ((insertSlots p key value).drop m).length = k.len := by
      rw [length_drop, hslots]
      omega
    have hg := addLeaf_isGraft (p := p) k
      ((insertSlots p key value).drop m) k.len hnodeW
    have hinv := addLeaf_treeInv hu.tree hwk.mem (hu.device n hwk.mem) hk0 hwk.aligned hwk.bigram
      (fun hr => (hwk.ns hr).symm) (hnone hk0) hvlen
    set v := (u.addLeaf p.pageSize n k ((insertSlots p key value).drop m) k.len).2
    have hsame := incHitCount_isSame v u.counter chunked
    refine ⟨m, v.incHitCount u.counter chunked, insert u.counter B, sv, rfl,
      .leaf href hg hinv (by omega) hsame, hlong, (hu.graft hg hinv).same hsame, ?_⟩
    rw [(hu.graft hg hinv).store_same hsame, hu.store_graft hg hll hinv hslots hend hsv hext happ,
      h.store_refines href]
  · rw [if_neg hk0]
    have hm : m = (queryUnits p key).length := by omega
    have hlong' := hlong
    rw [hm] at hlong'
    refine ⟨m, u, B, sv, rfl, .full href hm, hlong, hu, ?_⟩
    rw [PrefixStore.insert_eq_self hlong', h.store_refines href]

namespace Inserted

variable {q : List KeyUnit} {slots : List Nat} {n : Nat}

theorem subset (h : Inserted p t A q slots n t' A') : A ⊆ A' := by
  cases h with
  | full hr _ => exact hr.subset
  | leaf hr _ _ _ _ => exact hr.subset.trans (Finset.subset_insert _ _)

theorem heldBy {hs : List NodeId} (h : Inserted p t A q slots n t' A') (hi : TreeInv p t A)
    (hh : HeldBy t A hs) : HeldBy t' A' hs := by
  cases h with
  | full hr _ => exact hr.heldBy hi hh
  | leaf hr hg _ _ hs =>
    exact hs.heldBy ((hr.heldBy hi hh).graft (hr.treeInv hi).core.shape hg)

end Inserted

/-! ## Locks -/

theorem IsRelock.baseInv (hl : IsRelock t t' δ) (h : BaseInv p t A) (hc : CoreOn p t' A)
    (hcount : CountsOff t' A ∅ ∅) : BaseInv p t' A := by
  refine ⟨⟨hc, hcount⟩, ?_, ?_⟩
  · intro n hn
    exact (onDevice_congr (hl.value_eq _)).mpr (h.device n hn)
  · intro n hn hr
    exact mt (backedUp_congr (hl.host_eq n)).mp (h.plain n hn (hl.root_eq ▸ hr))

theorem IsRelock.store_eq (hl : IsRelock t t' δ) (h : BaseInv p t A) (h' : BaseInv p t' A) :
    h'.store = h.store := by
  have hpar : t'.par = t.par := funext hl.par_eq
  have hval : t'.deviceValue = t.deviceValue := funext fun n => deviceValue_congr (hl.value_eq n)
  have hns : t'.ns = t.ns := funext fun n => ns_congr (hl.key_eq n)
  have hseg : t'.seg = t.seg := funext fun n => seg_congr (hl.key_eq n)
  apply PrefixStore.ext
  change PagedTrie.Holds t'.par A t'.rootNode p.pageSize t'.ns t'.seg t'.deviceValue =
    PagedTrie.Holds t.par A t.rootNode p.pageSize t.ns t.seg t.deviceValue
  rw [hpar, hl.root_eq, hns, hseg, hval]

theorem incLockRef_spec (h : BaseInv p t A) (hh : HeldBy t A hs) (hx : x ∈ A) :
    ∃ d t', t.incLockRef x = .ok (d, t') ∧ BaseInv p t' A ∧ HeldBy t' A (x :: hs) ∧
      IsRelock t t' (pathDelta t.par t.rootNode x 1) := by
  obtain ⟨d, t', hrun, hc, hcount, hl⟩ := (incLockNode_lockStep p).walkUp h.tree.core h.tree.counts
    (.inr rfl) hx (h.device x hx) (fun n _ hn => Int.add_nonneg
      (h.tree.core.lock_nonneg n (h.shape.rooted.anc_mem hx hn)) (by decide)) 0
  refine ⟨d, t', hrun, hl.baseInv h hc ?_, hh.lock hx hl, hl⟩
  simpa using hcount

theorem decLockRef_spec (h : BaseInv p t A) (hh : HeldBy t A hs) (hx : x ∈ hs) :
    ∃ d t', t.decLockRef x = .ok (d, t') ∧ BaseInv p t' A ∧ HeldBy t' A (hs.erase x) ∧
      IsRelock t t' (pathDelta t.par t.rootNode x (-1)) := by
  have hxA := hh.mem x hx
  obtain ⟨d, t', hrun, hc, hcount, hl⟩ := (decLockNode_lockStep p).walkUp h.tree.core h.tree.counts
    (.inr rfl) hxA (h.device x hxA) (fun n hr hn => by
      have := hh.lock_pos (h.shape.rooted.anc_mem hxA hn) hr hx hn
      omega) 0
  refine ⟨d, t', hrun, hl.baseInv h hc ?_, hh.unlock hx hl, hl⟩
  simpa using hcount

/-! ## `evict` -/

theorem BaseInv.remove (h : BaseInv p t A) (hr : IsRemove p.pageSize t t' x)
    (hinv : TreeInv p t' (A.erase x)) : BaseInv p t' (A.erase x) := by
  refine ⟨hinv, ?_, ?_⟩
  · intro n hn
    exact (hr.onDevice_iff n).mpr (h.device n (Finset.mem_of_mem_erase hn))
  · intro n hn hnr
    rw [hr.backedUp_iff]
    exact h.plain n (Finset.mem_of_mem_erase hn) (hr.root_eq ▸ hnr)

theorem BaseInv.sizes_remove (h : BaseInv p t A) (hl : DeviceLeaf t A x)
    (hr : IsRemove p.pageSize t t' x) (hinv : TreeInv p t' (A.erase x)) :
    t'.evictableSize = t.evictableSize - t.len x ∧ t'.protectedSize = t.protectedSize := by
  have hev : t.evictableWeight x = t.len x := if_pos ⟨hl.device, hl.unlocked⟩
  have hpr : t.protectedWeight x = 0 := if_neg (by rw [hl.unlocked]; exact lt_irrefl 0)
  constructor
  · rw [hinv.counts.evictable_eq, hr.sum_evictable hl.mem, ← h.tree.counts.evictable_eq, hev]
  · rw [hinv.counts.protected_eq, hr.sum_protected hl.mem, ← h.tree.counts.protected_eq, hpr,
      Int.sub_zero]

theorem BaseInv.deviceLeaf_iff (h : BaseInv p t A) : DeviceLeaf t A n ↔
      n ∈ A ∧ n ≠ t.rootNode ∧ (t.nodes n).lockRef = 0 ∧ (t.nodes n).childList = [] := by
  constructor
  · intro hl
    refine ⟨hl.mem, hl.ne_root, hl.unlocked, (h.shape.childList_eq_nil hl.mem).mpr ?_⟩
    intro c hc hcn
    exact hl.childless c hc hcn (h.device c hc)
  · rintro ⟨hn, hr, hlock, hnil⟩
    refine ⟨hn, hr, h.device n hn, hlock, ?_⟩
    intro c hc hcn
    exact absurd hcn ((h.shape.childList_eq_nil hn).mp hnil c hc)

/-- Evictions one after the other, with the number of slots freed: each takes away an
unlocked leaf and gives its slots back to the allocator. -/
inductive Evicts (p : CacheParams) (c : RadixCache) (A : Finset NodeId) :
    Nat → RadixCache → Finset NodeId → Prop
  | refl : Evicts p c A 0 c A
  | step {d : RadixCache} {B : Finset NodeId} {k : Nat} {x : NodeId} {t' : RadixTree}
      (h : Evicts p c A k d B) (hl : DeviceLeaf d.tree B x)
      (hr : IsRemove p.pageSize d.tree t' x) (hinv : TreeInv p t' (B.erase x)) :
      Evicts p c A (k + (d.tree.deviceValue x).length)
        ⟨t', d.allocator.free (d.tree.deviceValue x)⟩ (B.erase x)

namespace Evicts

variable {c c' : RadixCache}

variable (h : Evicts p c A k c' A')
include h

theorem par_eq (n : NodeId) : c'.tree.par n = c.tree.par n := by
  induction h with
  | refl => rfl
  | step _ _ hr _ ih => exact (hr.par_eq n).trans ih

theorem baseInv (hi : BaseInv p c.tree A) : BaseInv p c'.tree A' := by
  induction h with
  | refl => exact hi
  | step _ _ hr hinv ih => exact ih.remove hr hinv

theorem heldBy {hs : List NodeId} (hh : HeldBy c.tree A hs) : HeldBy c'.tree A' hs := by
  induction h with
  | refl => exact hh
  | step _ hl hr _ ih => exact ih.remove hr hl.mem hl.ne_root hl.unlocked

theorem sub (hi : BaseInv p c.tree A) (hi' : BaseInv p c'.tree A') : hi'.store.Sub hi.store := by
  induction h with
  | refl => exact PrefixStore.Sub.refl _
  | @step d B k x t' h _ hr _ ih =>
    have hd := h.baseInv hi
    refine PrefixStore.Sub.trans ?_ (ih hd)
    intro e u s hholds
    have hpar : t'.par = d.tree.par := funext hr.par_eq
    have hval : t'.deviceValue = d.tree.deviceValue := funext fun n => deviceValue_congr (hr.value_eq n)
    have hns : t'.ns = d.tree.ns := funext fun n => ns_congr (hr.key_eq n)
    have hseg : t'.seg = d.tree.seg := funext fun n => seg_congr (hr.key_eq n)
    change PagedTrie.Holds t'.par (B.erase x) t'.rootNode p.pageSize t'.ns t'.seg t'.deviceValue
      e u s at hholds
    rw [hpar, hr.root_eq, hns, hseg, hval] at hholds
    exact PagedTrie.holds_erase hholds

theorem evictable (hi : BaseInv p c.tree A) : c.tree.evictableSize = c'.tree.evictableSize + k := by
  induction h with
  | refl => exact (add_zero _).symm
  | @step d B k x t' h hl hr hinv ih =>
    have hd := h.baseInv hi
    have hlen := (hd.value_length x hl.mem).trans (d.tree.length_seg x)
    rw [ih, (hd.sizes_remove hl hr hinv).1, hlen]
    push_cast
    ring

end Evicts

theorem mem_pushParent {y : NodeId} :
    y ∈ pushParent t heap x ↔
      y ∈ heap ∨ (t.par x = some y ∧ (t.nodes y).childList = [] ∧ (t.nodes y).lockRef = 0) := by
  unfold pushParent par
  cases (t.nodes x).parent with
  | none => simp
  | some q =>
    by_cases hcond : (t.nodes q).childList = [] ∧ (t.nodes q).lockRef = 0
    · simp only [if_pos hcond, mem_append, mem_singleton, some.injEq]
      refine or_congr_right ⟨?_, fun hy => hy.1.symm⟩
      rintro rfl
      exact ⟨rfl, hcond⟩
    · simp only [if_neg hcond, some.injEq]
      refine ⟨.inl, fun hy => hy.resolve_right ?_⟩
      rintro ⟨rfl, hy⟩
      exact hcond hy

theorem nodup_pushParent (hn : heap.Nodup) (hq : ∀ q, t.par x = some q → q ∉ heap) :
    (pushParent t heap x).Nodup := by
  unfold pushParent
  split
  · exact hn
  · rename_i q hpar
    split_ifs
    · rw [nodup_append]
      refine ⟨hn, nodup_singleton q, ?_⟩
      intro a ha b hb hab
      rw [mem_singleton] at hb
      subst hb hab
      exact hq _ hpar ha
    · exact hn

/-- Leaves go one after the other, and `vs` are the slots they had. -/
inductive FreesLeaves {σ : Type} (leaf : σ → NodeId → Prop) (value : σ → NodeId → List Nat)
    (remove : σ → NodeId → Except CacheError σ) : σ → List (List Nat) → σ → Prop
  | nil (s : σ) : FreesLeaves leaf value remove s [] s
  | cons {s s' s'' : σ} {x : NodeId} {vs : List (List Nat)} (hl : leaf s x)
      (hr : remove s x = .ok s') (h : FreesLeaves leaf value remove s' vs s'') :
      FreesLeaves leaf value remove s (value s x :: vs) s''

/-- With `k` slots to begin with, all but the last of `vs` are too few. -/
def LastNeeded (numTokens k : Nat) (vs : List (List Nat)) : Prop :=
  ∀ ws w, vs = ws ++ [w] → k + ws.flatten.length < numTokens

theorem LastNeeded.cons {numTokens : Nat} {vs : List (List Nat)} (hk : k < numTokens)
    (h : LastNeeded numTokens (k + v.length) vs) : LastNeeded numTokens k (v :: vs) := by
  intro ws w hws
  cases ws with
  | nil => exact hk
  | cons u ws =>
    obtain ⟨rfl, htail⟩ := cons.inj hws
    rw [flatten_cons, length_append, ← add_assoc]
    exact h ws w htail

/-- What an eviction is for: it takes leaves away until `numTokens` of their slots are free, or all
that were evictable, and `k` is the number of those slots. -/
def FreesEnough {σ : Type} (leaf : σ → NodeId → Prop) (value : σ → NodeId → List Nat)
    (remove : σ → NodeId → Except CacheError σ) (evictable : σ → Int) (numTokens : Nat) (s : σ)
    (k : Nat) (s' : σ) : Prop :=
  ∃ vs, FreesLeaves leaf value remove s vs s' ∧ k = vs.flatten.length ∧
    min (numTokens : Int) (evictable s) ≤ k ∧ LastNeeded numTokens 0 vs

/-- An unlocked node of the tree without children. -/
def RadixCache.FreeLeaf (c : RadixCache) (x : NodeId) : Prop :=
  c.tree.Attached x ∧ x ≠ c.tree.rootNode ∧ (c.tree.nodes x).lockRef = 0 ∧
    (c.tree.nodes x).childList = []

/-- What one iteration of `evict` does with the node it has popped. -/
def RadixCache.evictNode (p : CacheParams) (c : RadixCache) (x : NodeId) :
    Except CacheError RadixCache := do
  let t ← c.tree.deleteLeaf p.pageSize x
  .ok ⟨t, c.allocator.free (c.tree.deviceValue x)⟩

/-- The heap of `evict` has the unlocked leaves. -/
structure HeapOk (t : RadixTree) (A : Finset NodeId) (heap : List NodeId) : Prop where
  nodup : heap.Nodup
  mem_iff : ∀ x, x ∈ heap ↔ DeviceLeaf t A x

theorem HeapOk.pop (hh : HeapOk t A heap) (h : BaseInv p t A) {i : Nat} (hx : x ∈ heap)
    (hxi : x ∉ heap.eraseIdx i) (hperm : (x :: heap.eraseIdx i).Perm heap) :
    ∃ t', t.deleteLeaf p.pageSize x = .ok t' ∧ DeviceLeaf t A x ∧ IsRemove p.pageSize t t' x ∧
      TreeInv p t' (A.erase x) ∧
      HeapOk t' (A.erase x) (pushParent t' (heap.eraseIdx i) x) := by
  have hleaf := (hh.mem_iff x).mp hx
  obtain ⟨t', hdel, hr, hinv⟩ := deleteLeaf_treeInv h.tree hleaf (h.plain x hleaf.mem hleaf.ne_root)
  have h' := h.remove hr hinv
  -- the parent had a child on the device, so it was not in the heap
  have hparent : ∀ q, t'.par x = some q → q ∉ heap.eraseIdx i := by
    intro q hq hmem
    rw [hr.par_eq] at hq
    exact ((hh.mem_iff q).mp (eraseIdx_sublist heap i |>.mem hmem)).childless x hleaf.mem hq
      hleaf.device
  refine ⟨t', hdel, hleaf, hr, hinv,
    nodup_pushParent (hh.nodup.sublist (eraseIdx_sublist heap i)) hparent, ?_⟩
  intro y
  rw [mem_pushParent]
  by_cases hpar : t'.par x = some y
  · have hyA := h.shape.rooted.mem_of_par hleaf.mem ((hr.par_eq x).symm.trans hpar)
    have hyx : y ≠ x := h.shape.rooted.par_ne hleaf.mem ((hr.par_eq x).symm.trans hpar)
    rw [h'.deviceLeaf_iff]
    constructor
    · rintro (hy | ⟨_, hnil, hlock⟩)
      · exact absurd hy (hparent y hpar)
      · refine ⟨Finset.mem_erase.mpr ⟨hyx, hyA⟩, ?_, hlock, hnil⟩
        rintro rfl
        rw [hinv.core.root_lock] at hlock
        cases hlock
    · rintro ⟨_, _, hlock, hnil⟩
      exact .inr ⟨hpar, hnil, hlock⟩
  · have hpar' : t.par x ≠ some y := fun hy => hpar ((hr.par_eq x).trans hy)
    by_cases hyx : y = x
    · subst hyx
      exact ⟨fun hy => absurd hy fun hy => hy.elim hxi fun hy => hpar hy.1,
        fun hy => absurd hy.mem (Finset.notMem_erase _ _)⟩
    · rw [hr.deviceLeaf_iff hyx (fun hy => absurd hy hpar'), ← hh.mem_iff, ← hperm.mem_iff,
        mem_cons]
      constructor
      · rintro (hy | hy)
        · exact .inr hy
        · exact absurd hy.1 hpar
      · rintro (hy | hy)
        · exact absurd hy hyx
        · exact .inl hy

theorem evictLoop_spec {c0 : RadixCache} {A0 : Finset NodeId} (h0 : BaseInv p c0.tree A0)
    (numTokens : Nat) (pick : Nat → Nat) :
    ∀ fuel c A heap k, Evicts p c0 A0 k c A → HeapOk c.tree A heap → A.card < fuel →
      ∃ vs c' A', evictLoop p numTokens pick fuel c heap k =
          .ok (k + vs.flatten.length, c') ∧
        Evicts p c0 A0 (k + vs.flatten.length) c' A' ∧
        FreesLeaves RadixCache.FreeLeaf (fun c => c.tree.deviceValue) (evictNode p)
          c vs c' ∧
        (numTokens ≤ k + vs.flatten.length ∨ ∀ x, ¬ DeviceLeaf c'.tree A' x) ∧
        LastNeeded numTokens k vs := by
  intro fuel
  induction fuel with
  | zero => intro c A heap k _ _ hlt; omega
  | succ fuel ih =>
    intro c A heap k hev hheap hlt
    unfold evictLoop
    by_cases hcond : k < numTokens ∧ heap ≠ []
    · rw [if_pos hcond]
      have hi := hev.baseInv h0
      obtain ⟨t', hdel, hleaf, hr, hinv, hheap'⟩ := hheap.pop hi
        (pop_mem hcond.2 (pick fuel) 0) (pop_not_mem hheap.nodup hcond.2 (pick fuel) 0)
        (pop_perm hcond.2 (pick fuel) 0)
      set x := heap.getD (pick fuel % heap.length) 0
      have hcard := Finset.card_erase_lt_of_mem hleaf.mem
      obtain ⟨vs, c', A', hrun, hend, hfree, hrest, hlast⟩ :=
        ih _ _ _ _ (.step hev hleaf hr hinv) hheap' (by omega)
      obtain ⟨hx, hroot, hlock, hnil⟩ := hi.deviceLeaf_iff.mp hleaf
      have hsum : k + (c.tree.deviceValue x).length + vs.flatten.length =
          k + (c.tree.deviceValue x :: vs).flatten.length := by
        rw [flatten_cons, length_append, add_assoc]
      rw [hsum] at hrun hend hrest
      refine ⟨c.tree.deviceValue x :: vs, c', A', ?_, hend, .cons
        ⟨hi.shape.attached_iff.mpr hx, hroot, hlock, hnil⟩ ?_ hfree, hrest, hlast.cons hcond.1⟩
      · have hdel' : c.tree.deleteLeaf p.pageSize (heap.getD (pick fuel % heap.length) 0) =
          .ok t' := hdel
        simp only [hdel']
        exact hrun
      · simp only [evictNode, hdel, bind, Except.bind]
    · rw [if_neg hcond]
      refine ⟨[], c, A, rfl, hev, .nil c, ?_, fun ws w hws => absurd hws (by simp)⟩
      by_cases hk : k < numTokens
      · have hnil : heap = [] := by
          by_contra hne
          exact hcond ⟨hk, hne⟩
        refine .inr fun x hx => ?_
        have hmem := (hheap.mem_iff x).mpr hx
        rw [hnil] at hmem
        exact absurd hmem not_mem_nil
      · exact .inl (Nat.le_of_not_lt hk)

theorem BaseInv.heapOk (h : BaseInv p t A) : HeapOk t A t.evictableLeaves.elems :=
  ⟨t.evictableLeaves.nodup, fun _ => h.tree.mem_leaves⟩

theorem BaseInv.card_lt (h : BaseInv p t A) : A.card < t.counter + 1 :=
  Nat.lt_succ_of_le h.shape.card_le

theorem evict_spec {c : RadixCache} (h : BaseInv p c.tree A) (numTokens : Nat) (pick : Nat → Nat) :
    ∃ k c' A', c.evict p numTokens pick = .ok (k, c') ∧ Evicts p c A k c' A' := by
  obtain ⟨vs, c', A', hrun, hev, _⟩ := evictLoop_spec h numTokens pick _ _ _ _ _ .refl h.heapOk
    h.card_lt
  exact ⟨_, c', A', hrun, hev⟩

theorem TreeInv.evictable_eq_zero (h : TreeInv p t A) (hh : HeldBy t A hs)
    (hno : ∀ x, ¬ DeviceLeaf t A x) : t.evictableSize = 0 := by
  rw [h.counts.evictable_eq]
  refine Finset.sum_eq_zero fun n hn => if_neg fun hfree => ?_
  obtain ⟨depth, _, hdepth⟩ := h.core.shape.rooted.exists_depth
  -- the deepest unlocked node on the device
  obtain ⟨m, hm, hmax⟩ := Finset.exists_max_image
    (A.filter fun x => t.onDevice x ∧ (t.nodes x).lockRef = 0) depth
    ⟨n, Finset.mem_filter.mpr ⟨hn, hfree⟩⟩
  obtain ⟨hmA, hd, hlock⟩ := Finset.mem_filter.mp hm
  have hmr : m ≠ t.rootNode := by
    rintro rfl
    rw [h.core.root_lock] at hlock
    cases hlock
  refine hno m ⟨hmA, hmr, hd, hlock, fun c hc hcm hcd => ?_⟩
  have hle := hh.lock_le_parent h.core.shape hc hcm hmr
  have hnonneg := h.core.lock_nonneg c hc
  have hlt := hdepth c hc m hcm
  have := hmax c (Finset.mem_filter.mpr ⟨hc, hcd, by omega⟩)
  omega

theorem TreeInv.min_le (h : TreeInv p t' A) (hh : HeldBy t' A hs) {numTokens : Nat}
    (hev : t.evictableSize = t'.evictableSize + k)
    (hrest : numTokens ≤ k ∨ ∀ x, ¬ DeviceLeaf t' A x) :
    min (numTokens : Int) t.evictableSize ≤ k := by
  rcases hrest with hk | hno
  · exact (min_le_left _ _).trans (Int.ofNat_le.mpr hk)
  · rw [hev, h.evictable_eq_zero hh hno, zero_add]
    exact min_le_right _ _

/-- `evict` takes away unlocked leaves, as many as it can and should. -/
theorem evict_frees {c : RadixCache} (h : BaseInv p c.tree A) (hh : HeldBy c.tree A hs)
    (numTokens : Nat) (pick : Nat → Nat) :
    ∃ k c', c.evict p numTokens pick = .ok (k, c') ∧
      FreesEnough RadixCache.FreeLeaf (fun c => c.tree.deviceValue) (evictNode p)
        (fun c => c.tree.evictableSize) numTokens c k c' := by
  obtain ⟨vs, c', A', hrun, hev, hfree, hrest, hlast⟩ :=
    evictLoop_spec h numTokens pick _ _ _ _ _ .refl h.heapOk h.card_lt
  rw [zero_add] at hrun hev hrest
  exact ⟨_, c', hrun, vs, hfree, rfl,
    (hev.baseInv h).tree.min_le (hev.heldBy hh) (hev.evictable h) hrest, hlast⟩

end Fluxfer.Radix
