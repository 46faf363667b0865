import Fluxfer.Radix.Holders

/-!
# Walking down the tree with a key

One iteration of the loops of `_match_prefix_helper` and `_insert_helper`. `AtEnd` is what holds of
the last node: its path is a prefix of the query, and none of its children continues the query by a
page. `Refines` collects the changes that a walk makes: splits, and hit counts.
-/

namespace Fluxfer.Radix

open ParentTree RadixKey List Finset Nat RadixTree

/-- A key that the loops may look up at `node`. -/
structure Walkable (p : CacheParams) (t : RadixTree) (A : Finset NodeId) (node : NodeId)
    (key : RadixKey) : Prop where
  mem : node ∈ A
  aligned : p.pageSize ∣ key.len
  bigram : key.isBigram = p.isEagle
  ns : node ≠ t.rootNode → t.ns node = key.extraKey

/-- The child found for a key, with the length `m` that `match` returns. -/
structure Descent (p : CacheParams) (t : RadixTree) (A : Finset NodeId) (node : NodeId)
    (key : RadixKey) (child : NodeId) (m : Nat) : Prop where
  mem : child ∈ A
  ne_root : child ≠ t.rootNode
  par : t.par child = some node
  ns : t.ns child = key.extraKey
  matched : (t.nodes child).key.matchKey key p.pageSize = .ok m
  dvd : p.pageSize ∣ m
  page_le : p.pageSize ≤ m
  le_child : m ≤ t.len child
  le_key : m ≤ key.len
  agree : (t.seg child).take m = key.units.take m
  differ : m < t.len child → m < key.len →
    ((t.seg child).drop m).take p.pageSize ≠ (key.units.drop m).take p.pageSize

/-- The end of a walk for the query `u` in the namespace `e`. -/
structure AtEnd (p : CacheParams) (t : RadixTree) (A : Finset NodeId) (e : Option String)
    (u : List KeyUnit) (n : NodeId) (l : List KeyUnit) : Prop where
  mem : n ∈ A
  ns : n = t.rootNode ∨ t.ns n = e
  label : PathLabel t.par t.seg n l
  pre : l <+: u
  stuck : ∀ c ∈ A, t.par c = some n → t.ns c = e → ¬ (l ++ (t.seg c).take p.pageSize) <+: u

section Step

variable {p : CacheParams} {t : RadixTree} {A : Finset NodeId} {node child : NodeId}
  {key : RadixKey}

theorem Walkable.page_le_key (hw : Walkable p t A node key) (hpos : 0 < key.len) :
    p.pageSize ≤ key.len :=
  le_of_dvd hpos hw.aligned

theorem Walkable.childKey_eq_iff (h : ShapeOn p t A) (hw : Walkable p t A node key)
    (hpos : 0 < key.len) (hc : child ∈ A) (hcr : child ≠ t.rootNode) :
    (t.nodes child).key.childKey p.pageSize = key.childKey p.pageSize ↔
      t.ns child = key.extraKey ∧ (t.seg child).take p.pageSize = key.units.take p.pageSize :=
  RadixKey.childKey_eq_iff p.pageSize_pos (by rw [h.bigram child hc hcr, hw.bigram])
    (h.page_le hc hcr) (hw.page_le_key hpos)

theorem Walkable.descent (h : ShapeOn p t A) (hw : Walkable p t A node key) (hpos : 0 < key.len)
    (hfind : t.find node (key.childKey p.pageSize) = some child) :
    ∃ m, Descent p t A node key child m := by
  obtain ⟨hc, hpar, hck⟩ := (h.find_iff node hw.mem _ child).mp hfind
  have hcr := h.rooted.ne_root_of_par hpar
  obtain ⟨hns, hpage⟩ := (hw.childKey_eq_iff h hpos hc hcr).mp hck
  obtain ⟨m, hm, hdvd, hspec⟩ := matchKey_spec p.pageSize_pos hns
    (by rw [h.bigram child hc hcr, hw.bigram]) (h.len_dvd child hc)
  have hpm : p.pageSize ≤ m :=
    (hspec p.pageSize (dvd_refl _)).mpr ⟨h.page_le hc hcr, hw.page_le_key hpos, hpage⟩
  obtain ⟨hmc, hmk, hagree⟩ := (hspec m hdvd).mp le_rfl
  refine ⟨m, hc, hcr, hpar, hns, hm, hdvd, hpm, hmc, hmk, hagree, ?_⟩
  -- otherwise one more page would have matched
  intro hlt hltk heq
  have h1 : m + p.pageSize ≤ (t.nodes child).key.len := by
    have := le_of_dvd (by omega) (dvd_sub (h.len_dvd child hc) hdvd)
    have hlen : t.len child = (t.nodes child).key.len := rfl
    omega
  have h2 : m + p.pageSize ≤ key.len := by
    have := le_of_dvd (by omega) (dvd_sub hw.aligned hdvd)
    omega
  have := (hspec (m + p.pageSize) (Dvd.dvd.add hdvd (dvd_refl _))).mpr
    ⟨h1, h2, take_page_succ hagree heq⟩
  have := p.pageSize_pos
  omega

variable {l : List KeyUnit}

section

variable (h : ShapeOn p t A) (hw : Walkable p t A node key)
include h hw

theorem Walkable.find_of_prefix {c : NodeId}
    (hpos : 0 < key.len) (hc : c ∈ A) (hcn : t.par c = some node) (hns : t.ns c = key.extraKey)
    (hpre : l ++ (t.seg c).take p.pageSize <+: l ++ key.units) :
    t.find node (key.childKey p.pageSize) = some c := by
  have hcr := h.rooted.ne_root_of_par hcn
  have hpage : (t.seg c).take p.pageSize = key.units.take p.pageSize := by
    have hpre' := (prefix_append_right_inj l).mp hpre
    rw [prefix_iff_eq_take] at hpre'
    rw [hpre', length_take, t.length_seg, min_eq_left (h.page_le hc hcr)]
  have hck := (hw.childKey_eq_iff h hpos hc hcr).mpr ⟨hns, hpage⟩
  exact (h.find_iff node hw.mem _ c).mpr ⟨hc, hcn, hck⟩

theorem atEnd_of_find_none (hpos : 0 < key.len) (hl : PathLabel t.par t.seg node l)
    (hnone : t.find node (key.childKey p.pageSize) = none) :
    AtEnd p t A key.extraKey (l ++ key.units) node l := by
  refine ⟨hw.mem, ?_, hl, prefix_append _ _, ?_⟩
  · by_cases hr : node = t.rootNode
    · exact .inl hr
    · exact .inr (hw.ns hr)
  · intro c hc hcn hns hpre
    have := hw.find_of_prefix h hpos hc hcn hns hpre
    rw [hnone] at this
    cases this

theorem atEnd_of_empty (hempty : key.len = 0) (hl : PathLabel t.par t.seg node l) :
    AtEnd p t A key.extraKey (l ++ key.units) node l := by
  have hunits : key.units = [] :=
    eq_nil_of_length_eq_zero ((length_units key).trans hempty)
  refine ⟨hw.mem, ?_, hl, prefix_append _ _, ?_⟩
  · by_cases hr : node = t.rootNode
    · exact .inl hr
    · exact .inr (hw.ns hr)
  · intro c hc hcn _ hpre
    have hcr := h.rooted.ne_root_of_par hcn
    have hlen := hpre.length_le
    rw [hunits, append_nil, length_append, length_take, t.length_seg,
      min_eq_left (h.page_le hc hcr)] at hlen
    have := p.pageSize_pos
    omega

end

theorem Descent.atEnd_split {t' : RadixTree} {m : Nat} (h : ShapeOn p t A)
    (hd : Descent p t A node key child m) (hm : m < t.len child)
    (hs : IsSplit p.pageSize t t' child m) (hl : PathLabel t.par t.seg node l) :
    AtEnd p t' (insert t.counter A) key.extraKey (l ++ key.units) t.counter
      (l ++ key.units.take m) := by
  have hw := h.not_mem_counter
  have hold : ∀ x ∈ A, x ≠ t.counter := fun x hx e => hw (e ▸ hx)
  have hcw := hold child hd.mem
  have hnode := h.rooted.mem_of_par hd.mem hd.par
  have hsegW : t'.seg t.counter = key.units.take m := by
    rw [seg, hs.key_eq, if_pos rfl, units_take _ hd.le_child]
    exact hd.agree
  have hsegC : t'.seg child = (t.seg child).drop m := by
    rw [seg, hs.key_eq, if_neg hcw, if_pos rfl, units_drop _ hd.le_child]
    rfl
  have hlabel : PathLabel t'.par t'.seg node l := by
    rw [hs.par_eq]
    refine h.rooted.label_splice hd.mem hd.ne_root hw ?_ ?_ node hnode l hl
    · rw [hsegW, hsegC, ← hd.agree]
      exact take_append_drop m _
    · intro x hx hxc
      exact seg_congr (hs.key_other (hold x hx) hxc)
  refine ⟨mem_insert_self _ _, .inr ?_, ?_, ?_, ?_⟩
  · rw [hs.ns_new, hd.ns]
  · rw [← hsegW]
    exact .step (hs.par_new.trans hd.par) hlabel
  · exact (prefix_append_right_inj l).mpr ( take_prefix _ _)
  · intro c hc hcn _ hpre
    obtain rfl := hs.eq_of_par_new h hd.mem hc hcn
    rw [hsegC, append_assoc] at hpre
    have hpre' := (prefix_append_right_inj l).mp hpre
    have hrest : ((t.seg c).drop m).take p.pageSize <+: key.units.drop m := by
      obtain ⟨r, hr⟩ := hpre'
      refine ⟨r, ?_⟩
      have := congrArg (drop m) hr
      rwa [append_assoc, drop_left' (by
        rw [length_take, length_units]
        exact min_eq_left hd.le_key)] at this
    have hlenC : p.pageSize ≤ t.len c - m :=
      le_of_dvd (by omega) (dvd_sub (h.len_dvd c hd.mem) hd.dvd)
    have hlen : (((t.seg c).drop m).take p.pageSize).length = p.pageSize := by
      rw [length_take, length_drop, t.length_seg]
      exact min_eq_left hlenC
    rcases lt_or_ge m key.len with hmk | hmk
    · apply hd.differ hm hmk
      rw [prefix_iff_eq_take, hlen] at hrest
      exact hrest
    · have := hrest.length_le
      rw [length_drop, length_units] at this
      have := p.pageSize_pos
      omega

theorem Descent.walkable {m : Nat} (hw : Walkable p t A node key)
    (hd : Descent p t A node key child m) : Walkable p t A child (key.slice m key.len) := by
  refine ⟨hd.mem, ?_, ?_, ?_⟩
  · rw [len_drop _ hd.le_key]
    exact dvd_sub hw.aligned hd.dvd
  · rw [slice_isBigram, hw.bigram]
  · intro _
    rw [hd.ns, slice_extraKey]

theorem Descent.label_append {m : Nat} (hd : Descent p t A node key child m)
    (hm : ¬ m < t.len child) :
    (l ++ t.seg child) ++ (key.slice m key.len).units = l ++ key.units := by
  have hlen : m = t.len child := Nat.le_antisymm hd.le_child (Nat.le_of_not_lt hm)
  have hseg : t.seg child = key.units.take m := by
    rw [← hd.agree, take_of_length_le]
    rw [t.length_seg, hlen]
  rw [hseg, units_drop _ hd.le_key, append_assoc, take_append_drop]

end Step

/-! ## What a walk changes -/

theorem TreeInv.congr {p : CacheParams} {t t' : RadixTree} {A : Finset NodeId} (hi : TreeInv p t A)
    (hshape : ShapeOn p t' A) (hroot : t'.rootNode = t.rootNode) (hpar : ∀ n, t'.par n = t.par n)
    (hkey : ∀ n, (t'.nodes n).key = (t.nodes n).key)
    (hlock : ∀ n ∈ A, (t'.nodes n).lockRef = (t.nodes n).lockRef)
    (hvalue : ∀ n ∈ A, (t'.nodes n).value = (t.nodes n).value)
    (hhost : ∀ n ∈ A, (t'.nodes n).hostValue = (t.nodes n).hostValue)
    (hevictable : t'.evictableSize = t.evictableSize)
    (hprotected : t'.protectedSize = t.protectedSize)
    (hleaves : t'.evictableLeaves = t.evictableLeaves)
    (hhostLeaves : t'.evictableHostLeaves = t.evictableHostLeaves) : TreeInv p t' A := by
  have hlen : ∀ n, t'.len n = t.len n := fun n => len_congr (hkey _)
  have hdev : ∀ n ∈ A, t'.onDevice n = t.onDevice n := fun n hn =>
    propext (onDevice_congr (hvalue n hn))
  have hback : ∀ n ∈ A, t'.backedUp n = t.backedUp n := fun n hn =>
    propext (backedUp_congr (hhost n hn))
  have hr := hi.core.shape.rooted.root_mem
  refine ⟨⟨hshape, ?_, ?_, ?_, ?_, ?_, ?_, ?_, ?_, ?_⟩, ?_, ?_, ?_, ?_⟩
  · intro n hn v hv
    rw [hvalue n hn] at hv
    rw [hlen]
    exact hi.core.value_len n hn v hv
  · intro n hn v hv
    rw [hhost n hn] at hv
    rw [hlen]
    exact hi.core.host_len n hn v hv
  · intro n hn
    rw [hlock n hn]
    exact hi.core.lock_nonneg n hn
  · rw [hroot, hlock _ hr, hi.core.root_lock]
  · rw [hroot, hdev _ hr]
    exact hi.core.root_device
  · rw [hroot, hback _ hr]
    exact hi.core.root_backed
  · intro n hn q hq
    rw [hpar] at hq
    rw [hdev n hn, hdev q (hi.core.shape.rooted.mem_of_par hn hq)]
    exact hi.core.device_par n hn q hq
  · intro n hn q hq
    rw [hpar] at hq
    rw [hback n hn, hback q (hi.core.shape.rooted.mem_of_par hn hq)]
    exact hi.core.backed_par n hn q hq
  · intro n hn
    rw [hdev n hn, hback n hn, hlock n hn]
    exact hi.core.off_device n hn
  · rw [hevictable, hi.counts.evictable_eq]
    apply sum_congr rfl
    intro n hn
    simp only [evictableWeight, hdev n hn, hlock n hn, hlen]
  · rw [hprotected, hi.counts.protected_eq]
    apply sum_congr rfl
    intro n hn
    simp only [protectedWeight, hlock n hn, hlen]
  · intro n hn
    rw [hleaves, hi.counts.leaves_iff n hn]
    constructor
    · intro hl
      refine ⟨hl.mem, hroot ▸ hl.ne_root, (hdev n hl.mem).mpr hl.device,
        (hlock n hl.mem).trans hl.unlocked, ?_⟩
      intro c hc hcn
      rw [hdev c hc]
      exact hl.childless c hc ((hpar c).symm.trans hcn)
    · intro hl
      refine ⟨hl.mem, hroot ▸ hl.ne_root, (hdev n hl.mem).mp hl.device,
        (hlock n hl.mem).symm.trans hl.unlocked, ?_⟩
      intro c hc hcn
      rw [← hdev c hc]
      exact hl.childless c hc ((hpar c).trans hcn)
  · intro n hn
    rw [hhostLeaves, hi.counts.hostLeaves_iff n hn]
    constructor
    · intro hl
      refine ⟨hl.mem, fun hd => hl.off ((hdev n hl.mem).mp hd), ?_⟩
      intro c hc hcn
      rw [hback c hc]
      exact hl.childless c hc ((hpar c).symm.trans hcn)
    · intro hl
      refine ⟨hl.mem, fun hd => hl.off ((hdev n hl.mem).mpr hd), ?_⟩
      intro c hc hcn
      rw [← hback c hc]
      exact hl.childless c hc ((hpar c).trans hcn)

/-- `t'` is `t` up to hit counts and flags. -/
structure IsSame (t t' : RadixTree) : Prop where
  counter_eq : t'.counter = t.counter
  root_eq : t'.rootNode = t.rootNode
  par_eq : ∀ n, t'.par n = t.par n
  key_eq : ∀ n, (t'.nodes n).key = (t.nodes n).key
  find_eq : ∀ n ck, t'.find n ck = t.find n ck
  lock_eq : ∀ n, (t'.nodes n).lockRef = (t.nodes n).lockRef
  value_eq : ∀ n, (t'.nodes n).value = (t.nodes n).value
  host_eq : ∀ n, (t'.nodes n).hostValue = (t.nodes n).hostValue
  evictable_eq : t'.evictableSize = t.evictableSize
  protected_eq : t'.protectedSize = t.protectedSize
  leaves_eq : t'.evictableLeaves = t.evictableLeaves
  hostLeaves_eq : t'.evictableHostLeaves = t.evictableHostLeaves

theorem IsSame.refl (t : RadixTree) : IsSame t t :=
  ⟨rfl, rfl, fun _ => rfl, fun _ => rfl, fun _ _ => rfl, fun _ => rfl, fun _ => rfl, fun _ => rfl,
    rfl, rfl, rfl, rfl⟩

theorem modify_isSame {t : RadixTree} {x : NodeId} {f : TreeNode → TreeNode}
    (hf : ∀ y, f y = { y with
      hitCount := (f y).hitCount
      hicacheDemoteAfterWrite := (f y).hicacheDemoteAfterWrite }) : IsSame t (t.modify x f) := by
  have ht := modify_isTouch (t := t) (x := x) (f := f) (by rw [hf]) (by rw [hf]) (by rw [hf])
  have hself : (t.modify x f).nodes x = f (t.nodes x) := if_pos rfl
  exact ⟨rfl, rfl, ht.par_eq, ht.key_eq, ht.find_eq,
    fun n => (eq_or_ne n x).elim (fun e => by rw [e, hself, hf]) (ht.lock_eq n),
    fun n => (eq_or_ne n x).elim (fun e => by rw [e, hself, hf]) (ht.value_eq n),
    fun n => (eq_or_ne n x).elim (fun e => by rw [e, hself, hf]) (ht.host_eq n), rfl, rfl, rfl, rfl⟩

namespace IsSame

variable {p : CacheParams} {t t' : RadixTree} {A : Finset NodeId}

variable (h : IsSame t t')
include h

theorem seg_eq : t'.seg = t.seg := funext fun n => seg_congr (h.key_eq n)

theorem ns_eq : t'.ns = t.ns := funext fun n => ns_congr (h.key_eq n)

theorem onDevice_iff (n : NodeId) : t'.onDevice n ↔ t.onDevice n := onDevice_congr (h.value_eq _)

theorem backedUp_iff (n : NodeId) : t'.backedUp n ↔ t.backedUp n := backedUp_congr (h.host_eq _)

theorem shape (hs : ShapeOn p t A) : ShapeOn p t' A :=
  hs.congr h.root_eq h.counter_eq h.par_eq h.key_eq h.find_eq

theorem treeInv (hi : TreeInv p t A) : TreeInv p t' A :=
  hi.congr (h.shape hi.core.shape) h.root_eq h.par_eq h.key_eq (fun n _ => h.lock_eq n)
    (fun n _ => h.value_eq n) (fun n _ => h.host_eq n) h.evictable_eq h.protected_eq h.leaves_eq
    h.hostLeaves_eq

theorem isSplit {ps : Nat} {u : RadixTree} {c : NodeId} {k : Nat}
    (hs : IsSplit ps u t c k) : IsSplit ps u t' c k :=
  ⟨h.counter_eq.trans hs.counter_eq, h.root_eq.trans hs.root_eq,
    (funext h.par_eq).trans hs.par_eq, fun n => (h.key_eq n).trans (hs.key_eq n),
    fun n ck => (h.find_eq n ck).trans (hs.find_eq n ck),
    fun n => (h.lock_eq n).trans (hs.lock_eq n), fun n => (h.value_eq n).trans (hs.value_eq n),
    fun n => (h.host_eq n).trans (hs.host_eq n), h.evictable_eq.trans hs.evictable_eq,
    h.protected_eq.trans hs.protected_eq, h.leaves_eq.trans hs.leaves_eq,
    h.hostLeaves_eq.trans hs.hostLeaves_eq⟩

theorem heldBy {hs : List NodeId} (hh : HeldBy t A hs) : HeldBy t' A hs :=
  hh.congr h.root_eq h.par_eq h.lock_eq

end IsSame

/-- Splits and changes of hit counts, one after the other. -/
inductive Refines (p : CacheParams) (t : RadixTree) (A : Finset NodeId) :
    RadixTree → Finset NodeId → Prop
  | refl : Refines p t A t A
  | split {u v : RadixTree} {B : Finset NodeId} {c : NodeId} {k : Nat} (h : Refines p t A u B)
      (hs : IsSplit p.pageSize u v c k) (hc : c ∈ B) (hcr : c ≠ u.rootNode) (hk0 : 0 < k)
      (hk : k < u.len c) (hd : p.pageSize ∣ k) : Refines p t A v (insert u.counter B)
  | same {u v : RadixTree} {B : Finset NodeId} (h : Refines p t A u B) (hs : IsSame u v) :
      Refines p t A v B

namespace Refines

variable {p : CacheParams} {t t' : RadixTree} {A A' : Finset NodeId}

variable (h : Refines p t A t' A')
include h

theorem treeInv (hi : TreeInv p t A) : TreeInv p t' A' := by
  induction h with
  | refl => exact hi
  | split _ hs hc hcr hk0 hk hd ih => exact hs.treeInv ih hc hcr hk0 hk hd
  | same _ hs ih => exact hs.treeInv ih

theorem heldBy {hs : List NodeId} (hi : TreeInv p t A) (hh : HeldBy t A hs) : HeldBy t' A' hs := by
  induction h with
  | refl => exact hh
  | split h hs hc hcr _ _ _ ih => exact ih.split (h.treeInv hi).core.shape hs hc hcr
  | same _ hs ih => exact hs.heldBy ih

theorem subset : A ⊆ A' := by
  induction h with
  | refl => exact subset_rfl
  | split _ _ _ _ _ _ _ ih => exact ih.trans (subset_insert _ _)
  | same _ _ ih => exact ih

theorem trans {u : RadixTree} {B : Finset NodeId}
    (g : Refines p t' A' u B) : Refines p t A u B := by
  induction g with
  | refl => exact h
  | split _ hs hc hcr hk0 hk hd ih => exact .split ih hs hc hcr hk0 hk hd
  | same _ hs ih => exact .same ih hs

end Refines

end Fluxfer.Radix
