import Fluxfer.Hi.DeviceStore
import Fluxfer.Hi.EvictSpec

/-!
# `match_prefix` and `insert` of `HiRadixCache`

Both walk down with a key, split the node where the key leaves it, and count hits. A hit can start a
backup, and a full host then evicts nodes; every node on the device and its path is left alone by
that (`KeepsDevice`). The slots that `insert` puts into the tree are the ones behind the length that
it returns (`Inserts`).
-/

namespace Fluxfer.Hi

open Radix ParentTree Memory RadixTree HiCache List Finset Nat PathLabel

section

variable {p : CacheParams} {t t' : RadixTree} {A A' : Finset NodeId} {node n child x q : NodeId}
  {key k : RadixKey} {l : List KeyUnit} {v value slots : List Nat} {e : Option String} {m : Nat}
  {c c' : HiCache}
variable {hp : HiParams} {s : HiState}

/-! ## One iteration -/

/-- The walk stands at `node`: the path to it and the rest of the key. -/
structure WalkAt (p : CacheParams) (t : RadixTree) (A : Finset NodeId) (node : NodeId)
    (key : RadixKey) (l : List KeyUnit) (v : List Nat) : Prop where
  walk : Walkable p t A node key
  seg : PathLabel t.par t.seg node l
  val : PathLabel t.par t.deviceValue node v

theorem WalkAt.sameDevice (hw : WalkAt p t A node key l v) (hs : SameDevice t A t' A')
    (hn : node ∈ A') : WalkAt p t' A' node key l v := by
  have hpaths := hs.keepsPaths Set.univ
  refine ⟨⟨hn, hw.walk.aligned, hw.walk.bigram, ?_⟩, hpaths.seg node trivial l hw.seg,
    hpaths.value node trivial v hw.val⟩
  rw [hs.root_eq, hpaths.ns node trivial]
  exact hw.walk.ns

theorem WalkAt.root (h : HiInv hp s) (hk : key.isBigram = true → hp.isEagle = true) :
    WalkAt hp.toCacheParams s.tree s.nodes s.tree.rootNode (alignedKey hp.toCacheParams key)
      [] [] := by
  refine ⟨walkable_root h.shape hk, label_root h.shape, ?_⟩
  have hlabel := PathLabel.root (d := s.tree.deviceValue) h.shape.rooted.root_par
  have hlen := value_length h h.shape.rooted.root_mem h.tree.core.root_device
  have hzero : s.tree.len s.tree.rootNode = 0 := by
    rw [← s.tree.length_seg, h.shape.trie.seg_root]
    rfl
  rwa [eq_nil_of_length_eq_zero (hlen.trans hzero)] at hlabel

theorem SameDevice.atEnd {u : List KeyUnit} (hs : SameDevice t A t' A') (h : AtEnd p t A e u n l)
    (hn : n ∈ A') : AtEnd p t' A' e u n l := by
  have hpaths := hs.keepsPaths Set.univ
  have hseg : ∀ c, t'.seg c = t.seg c := fun c => seg_congr (hs.key_eq _)
  refine ⟨hn, ?_, hpaths.seg n trivial l h.label, h.pre, ?_⟩
  · rw [hs.root_eq, hpaths.ns n trivial]
    exact h.ns
  · intro c hc hcn hns
    rw [hs.par_eq] at hcn
    rw [hpaths.ns c trivial] at hns
    rw [hseg]
    exact h.stuck c (hs.sub hc) hcn hns

theorem WalkAt.split (hw : WalkAt p t A node key l v) (h : ShapeOn p t A)
    (hd : Descent p t A node key child m) (hm : m < t.len child)
    (hs : IsSplit p.pageSize t t' child m) :
    WalkAt p t' (insert t.counter A) t.counter (key.slice m key.len) (l ++ key.units.take m)
      (v ++ t'.deviceValue t.counter) := by
  have hnode := h.rooted.mem_of_par hd.mem hd.par
  have hend := hd.atEnd_split h hm hs hw.seg
  refine ⟨⟨hend.mem, (hd.walkable hw.walk).aligned, (hd.walkable hw.walk).bigram, fun _ => ?_⟩,
    hend.label, .step ?_ (hs.label h hd.mem hd.ne_root hnode hw.val)⟩
  · rw [hs.ns_new, hd.ns, RadixKey.slice_extraKey]
  · rw [hs.par_new, hd.par]

theorem hitOnDevice_spec (h : HiInv hp s) (hn : n ∈ s.nodes) (hr : n ≠ s.tree.rootNode)
    (pick : Nat → Nat) :
    ∃ c A, s.cache.hitOnDevice hp n pick = .ok c ∧
      HiSteps hp s { s with cache := c, nodes := A } ∧ SameDevice s.tree s.nodes c.tree A ∧
      n ∈ A := by
  unfold hitOnDevice
  by_cases hd : s.tree.onDevice n
  · have hev : ¬ (s.cache.tree.nodes n).evicted = true := fun he => evicted_iff.mp he hd
    rw [if_neg hev]
    obtain ⟨c, A, hrun, hsteps, hsame⟩ := incHitCount_spec h hn hr hd false pick
    exact ⟨c, A, hrun, hsteps, hsame, hsame.device_mem n hn hd⟩
  · rw [if_pos (evicted_iff.mpr hd)]
    exact ⟨s.cache, s.nodes, rfl, .refl, .refl _ _, hn⟩

theorem split_spec (h : HiInv hp s) (hd : Descent hp.toCacheParams s.tree s.nodes node key child m)
    (hm : m < s.tree.len child) :
    ∃ t, s.cache.splitNode hp child m = (s.tree.counter, { s.cache with
          tree := t
          ledger := s.cache.ledger.splitNode hp.pageSize s.tree.counter child m }) ∧
      IsSplit hp.pageSize s.tree t child m ∧ HiStep hp s { s with
        cache := { s.cache with
          tree := t
          ledger := s.cache.ledger.splitNode hp.pageSize s.tree.counter child m }
        nodes := insert s.tree.counter s.nodes } ∧
      KeepsDevice s.tree s.nodes t (insert s.tree.counter s.nodes) := by
  have hold : ∀ n ∈ s.nodes, n ≠ s.tree.counter := fun n hn e =>
    h.shape.not_mem_counter (e ▸ hn)
  have hnode := h.shape.rooted.mem_of_par hd.mem hd.par
  have hne : node ≠ child := h.shape.rooted.par_ne hd.mem hd.par
  have hs : IsSplit hp.pageSize s.tree _ child m :=
    hiSplitNode_isSplit (hold child hd.mem) hd.par (hold node hnode) hne
  exact ⟨_, rfl, hs, .split hs hd.mem hd.ne_root
    (lt_of_lt_of_le hp.pageSize_pos hd.page_le) hm hd.dvd,
    .of_split hs h.shape hd.mem hd.ne_root hm.le⟩

/-! ## `match_prefix` -/

theorem OffChain.value_label {a : NodeId} {ns : List NodeId} (h : OffChain t A a ns x)
    (hv : PathLabel t.par t.deviceValue x v) : PathLabel t.par t.deviceValue a v := by
  have hdown := h.down
  have hoff := h.off
  clear h
  induction hdown with
  | nil => exact hv
  | @cons a m x ns hm _ ih =>
    have hlabel := ih hv fun n hn => hoff n (mem_cons_of_mem _ hn)
    obtain ⟨w, hw, hvw⟩ := hlabel.of_par hm
    have hempty : t.deviceValue m = [] := by
      rw [deviceValue, not_not.mp (hoff m mem_cons_self).2]
      rfl
    rwa [hvw, hempty, append_nil]

theorem matchPrefixHelper_spec (pick : Nat → Nat → Nat) :
    ∀ fuel (s : HiState) node key value l, HiInv hp s →
      WalkAt hp.toCacheParams s.tree s.nodes node key l value → key.len < fuel →
      ∃ v n c A l', matchPrefixHelper hp pick fuel s.cache node key value =
          .ok (v, n, c) ∧
        HiSteps hp s { s with cache := c, nodes := A } ∧
        KeepsDevice s.tree s.nodes c.tree A ∧
        AtEnd hp.toCacheParams c.tree A key.extraKey (l ++ key.units) n l' ∧
        PathLabel c.tree.par c.tree.deviceValue n v := by
  intro fuel
  induction fuel with
  | zero => intro s node key value l _ _ hlt; omega
  | succ fuel ih =>
    intro s node key value l h hw hlt
    unfold HiCache.matchPrefixHelper
    by_cases hpos : 0 < key.len
    · rw [if_pos hpos]
      cases hfind : s.cache.tree.find node (key.childKey hp.pageSize) with
      | none =>
        exact ⟨value, node, s.cache, s.nodes, l, rfl, .refl, .refl _ _,
          atEnd_of_find_none h.shape hw.walk hpos hw.seg hfind, hw.val⟩
      | some child =>
        obtain ⟨m, hd⟩ := hw.walk.descent h.shape hpos hfind
        have hmatched := hd.matched
        simp only [hmatched, bind, Except.bind]
        by_cases hlt' : m < (s.cache.tree.nodes child).key.len
        · rw [if_pos hlt']
          obtain ⟨t, hsplit, hs, hstep, hkeep⟩ := split_spec h hd hlt'
          have hend := hd.atEnd_split h.shape hlt' hs hw.seg
          have hne : s.tree.counter ≠ t.rootNode := fun e => h.shape.not_mem_counter
            (e ▸ hs.root_eq ▸ h.shape.rooted.root_mem)
          obtain ⟨c, A, hrun, hsteps, hsame, hmem⟩ :=
            hitOnDevice_spec (hstep.inv h) hend.mem hne (pick fuel)
          have hrun' : hitOnDevice hp { s.cache with
              tree := t
              ledger := s.cache.ledger.splitNode hp.pageSize s.tree.counter child m }
            s.tree.counter (pick fuel) = .ok c := hrun
          simp only [hsplit, hrun']
          exact ⟨_, _, c, A, _, rfl, .head hstep hsteps,
            hkeep.trans (.of_sameDevice hsame), hsame.atEnd hend hmem,
            ((hw.split h.shape hd hlt' hs).sameDevice hsame hmem).val⟩
        · rw [if_neg hlt']
          obtain ⟨c, A, hrun, hsteps, hsame, hmem⟩ :=
            hitOnDevice_spec h hd.mem hd.ne_root (pick fuel)
          simp only [hrun]
          have hlen : (key.slice m key.len).len < fuel := by
            rw [RadixKey.len_drop _ hd.le_key]
            have := hp.pageSize_pos
            have := hd.page_le
            omega
          have hw' : WalkAt hp.toCacheParams s.tree s.nodes child (key.slice m key.len)
              (l ++ s.tree.seg child) (value ++ s.tree.deviceValue child) :=
            ⟨hd.walkable hw.walk, .step hd.par hw.seg, .step hd.par hw.val⟩
          obtain ⟨v, n, c', A', l', hrun', hsteps', hkeep, hend, hvn⟩ :=
            ih _ child (key.slice m key.len) _ _ (hsteps.inv h) (hw'.sameDevice hsame hmem) hlen
          rw [hd.label_append hlt', RadixKey.slice_extraKey] at hend
          exact ⟨v, n, c', A', l', hrun', hsteps.trans hsteps',
            (KeepsDevice.of_sameDevice hsame).trans hkeep, hend, hvn⟩
    · rw [if_neg hpos]
      exact ⟨value, node, s.cache, s.nodes, l, rfl, .refl, .refl _ _,
        atEnd_of_empty h.shape hw.walk (by omega) hw.seg, hw.val⟩

/-- What `match_prefix` returns: the end `n` of the walk, the last node on the device on its path
with the slots of the path, and the last node with a backup. -/
structure Matches (hp : HiParams) (t : RadixTree) (A : Finset NodeId) (key : RadixKey)
    (r : HiCache.HiMatchResult) (n : NodeId) (l : List KeyUnit) (ns : List NodeId) : Prop where
  atEnd : AtEnd hp.toCacheParams t A key.extraKey (queryUnits hp.toCacheParams key) n l
  chain : OffChain t A r.lastDeviceNode ns n
  hit : r.hostHitLength = (hostSlots t ns).length
  label : PathLabel t.par t.deviceValue r.lastDeviceNode r.deviceIndices
  host_mem : r.lastHostNode ∈ A
  host : t.backedUp r.lastHostNode

theorem matchPrefix_spec (h : HiInv hp s) (hk : key.isBigram = true → hp.isEagle = true)
    (pick : Nat → Nat → Nat) :
    ∃ r c A n l ns, s.cache.matchPrefix hp key pick = .ok (r, c) ∧
      HiSteps hp s { s with cache := c, nodes := A } ∧
      KeepsDevice s.tree s.nodes c.tree A ∧ Matches hp c.tree A key r n l ns := by
  have hw := WalkAt.root h hk
  unfold HiCache.matchPrefix
  by_cases hempty : (alignedKey hp.toCacheParams key).len = 0
  · have hend := atEnd_of_empty h.shape hw.walk hempty hw.seg
    rw [alignedKey_extraKey] at hend
    have hempty' : ((key.toBigramView hp.isEagle).pageAligned hp.pageSize).len = 0 := hempty
    have hroot := h.shape.rooted.root_mem
    exact ⟨_, s.cache, s.nodes, s.tree.rootNode, [], [], if_pos hempty', .refl,
      .refl _ _, ⟨hend, ⟨hroot, h.tree.core.root_device, .nil _, fun n hn => absurd hn
        not_mem_nil⟩, rfl, hw.val, hroot, h.tree.core.root_backed⟩⟩
  · have hempty' : ((key.toBigramView hp.isEagle).pageAligned hp.pageSize).len ≠ 0 := hempty
    obtain ⟨v, n, c, A, l, hrun, hsteps, hkeep, hend, hv⟩ := matchPrefixHelper_spec pick
      ((alignedKey hp.toCacheParams key).len + 1) s s.tree.rootNode
      (alignedKey hp.toCacheParams key) [] [] h hw (lt_succ_self _)
    rw [alignedKey_extraKey] at hend
    have h' := hsteps.inv h
    obtain ⟨ns, a, hclimb, hch⟩ := climbToDevice_spec h' hend.mem
    obtain ⟨b, hback, hb, hbb, _⟩ := climbToBackup_spec h' hend.mem
    refine ⟨⟨v, a, b, (hostSlots c.tree ns).length⟩, c, A, n, l, ns, ?_, hsteps, hkeep,
      hend, hch, rfl, hch.value_label hv, hb, hbb⟩
    have hrun' : matchPrefixHelper hp pick
        (((key.toBigramView hp.isEagle).pageAligned hp.pageSize).len + 1) s.cache
        s.cache.tree.rootNode ((key.toBigramView hp.isEagle).pageAligned hp.pageSize) [] =
          .ok (v, n, c) := hrun
    have hclimb' : climbToDevice c.tree (c.tree.counter + 1) n 0 =
      .ok (a, (hostSlots c.tree ns).length) := hclimb
    have hback' : climbToBackup c.tree (c.tree.counter + 1) n = .ok b := hback
    simp only [hempty', if_false, hrun', hclimb', hback', bind, Except.bind]

theorem Matches.isLongest {r : HiMatchResult} {ns : List NodeId} (hm : Matches hp t A key r n l ns)
    (h : CoreOn hp.toCacheParams t A) : h.deviceStore.IsLongest key.extraKey
      (queryUnits hp.toCacheParams key) r.deviceIndices.length r.deviceIndices := by
  have htrie := h.shape.trie
  obtain ⟨hend, ⟨hmem, hdev, hdown, hoff⟩, -, hval, -, -⟩ := hm
  obtain ⟨l₀, hl₀⟩ := h.shape.rooted.exists_label t.seg _ hmem
  have hns : ∀ z, Anc t.par z n → z ≠ t.rootNode → t.ns z = key.extraKey := by
    intro z hz hr
    rw [htrie.ns_anc hend.mem hr hz]
    refine hend.ns.resolve_left fun hn => hr ?_
    exact (anc_iff_of_none h.shape.rooted.root_par).mp (hn ▸ hz)
  rw [h.deviceTrie.label_length_eq h.device_length (mem_filter.mpr ⟨hmem, hdev⟩) hl₀ hval]
  have hpre := prefix_of_anc hdown.anc.1 hl₀ hend.label
  refine h.isLongest hmem hdev (or_iff_not_imp_left.mpr (hns _ hdown.anc.1)) hl₀ hval
    (hpre.trans hend.pre) fun x hx hxd hxp hxe hx₀ => ?_
  cases hdown with
  | nil => exact hend.stuck x hx hxp hxe (hl₀.unique hend.label ▸ hx₀)
  | @cons _ y _ _ hy hrest =>
    -- the walk went on to `y`, off the device, which starts with the same page
    obtain ⟨hyA, hyoff⟩ := hoff y mem_cons_self
    have hne : ∀ z, t.par z = some r.lastDeviceNode → z ≠ t.rootNode := by
      rintro z hz rfl
      cases h.shape.rooted.root_par.symm.trans hz
    have hlen : ∀ z ∈ A, t.par z = some r.lastDeviceNode →
        (l₀ ++ (t.seg z).take hp.pageSize).length = l₀.length + hp.pageSize := by
      intro z hz hzp
      rw [length_append, length_take_of_le (htrie.page_le hz (hne z hzp))]
    have hy₀ := (prefix_of_anc hrest.anc.1 (.step hy hl₀) hend.label).trans hend.pre
    have hpage : l₀ ++ (t.seg y).take hp.pageSize <+: l₀ ++ t.seg y :=
      (prefix_append_right_inj l₀).mpr <| take_prefix _ _
    have heq := (hlen y hyA hy).trans (hlen x hx hxp).symm
    have hsame := (prefix_of_prefix_length_le (hpage.trans hy₀) hx₀ heq.le).eq_of_length heq
    have hxy : y = x := htrie.sep y hyA x hx _ hy hxp
      ((hns y hrest.anc.1 (hne y hy)).trans hxe.symm) (append_cancel_left hsame)
    exact hyoff (hxy ▸ hxd)

/-! ## `insert` -/

theorem markHybridGeneratedNodeForDemotion_same (hp : HiParams) (c : HiCache) (n : NodeId) :
    IsSame c.tree (c.markHybridGeneratedNodeForDemotion hp n).tree := by
  unfold markHybridGeneratedNodeForDemotion
  split_ifs
  · exact .refl _
  · have hsame := modify_isSame (t := c.tree) (x := n)
      (f := fun x => { x with hicacheDemoteAfterWrite := true }) (fun _ => rfl)
    exact hsame
  · exact .refl _

theorem markHybridGeneratedNodeForDemotion_step (hp : HiParams) (s : HiState) (n : NodeId) :
    HiStep hp s { s with
    cache := s.cache.markHybridGeneratedNodeForDemotion hp n } := by
  have hsame := markHybridGeneratedNodeForDemotion_same hp s.cache n
  unfold markHybridGeneratedNodeForDemotion at hsame ⊢
  split_ifs at hsame ⊢
  · exact .book hsame rfl rfl rfl rfl rfl rfl rfl
  · exact .book hsame rfl rfl rfl rfl rfl rfl rfl
  · exact .book hsame rfl rfl rfl rfl rfl rfl rfl

/-- A visit of `n` has left everything but `n` as it was, and `n` is on the device. -/
structure Visited (t : RadixTree) (A : Finset NodeId) (n : NodeId) (t' : RadixTree)
    (A' : Finset NodeId) : Prop where
  root_eq : t'.rootNode = t.rootNode
  par_eq : ∀ j, t'.par j = t.par j
  key_eq : ∀ j, (t'.nodes j).key = (t.nodes j).key
  value_eq : ∀ j, j ≠ n ∨ t.onDevice n → (t'.nodes j).value = (t.nodes j).value
  device : t'.onDevice n
  sub : A' ⊆ A
  mem : n ∈ A'
  device_mem : ∀ j ∈ A, t.onDevice j → j ∈ A'

namespace Visited

variable {u : RadixTree} {B : Finset NodeId}

theorem of_sameDevice (h : SameDevice t A t' A') (hn : n ∈ A) (hd : t.onDevice n) :
    Visited t A n t' A' :=
  ⟨h.root_eq, h.par_eq, h.key_eq, fun j _ => h.value_eq j, (h.onDevice_iff n).mpr hd, h.sub,
    h.device_mem n hn hd, h.device_mem⟩

theorem then_sameDevice (h : Visited t A n t' A') (g : SameDevice t' A' u B) :
    Visited t A n u B := by
  refine ⟨g.root_eq.trans h.root_eq, fun j => (g.par_eq j).trans (h.par_eq j),
    fun j => (g.key_eq j).trans (h.key_eq j), fun j hj => (g.value_eq j).trans (h.value_eq j hj),
    (g.onDevice_iff n).mpr h.device, g.sub.trans h.sub, g.device_mem n h.mem h.device, ?_⟩
  intro j hj hd
  have hdev : t'.onDevice j := by
    by_cases hjn : j = n
    · exact hjn ▸ h.device
    · exact (onDevice_congr (h.value_eq j (.inl hjn))).mpr hd
  exact g.device_mem j (h.device_mem j hj hd) hdev

theorem keepsDevice (h : Visited t A n t' A') (hc : CoreOn p t A) : KeepsDevice t A t' A' := by
  have hpar : t'.par = t.par := funext h.par_eq
  have hns : ∀ j, t'.ns j = t.ns j := fun j => ns_congr (h.key_eq _)
  have hseg : t'.seg = t.seg := funext fun j => seg_congr (h.key_eq j)
  -- a node on the device has no node off the device above it
  have habove : ∀ j ∈ A, t.onDevice j → ∀ m, Anc t.par m j → m ≠ n ∨ t.onDevice n := by
    intro j hj hd m hm
    by_cases hmn : m = n
    · right
      subst hmn
      exact (hc.anc_device hj hd hm).2
    · exact .inl hmn
  refine ⟨h.device_mem, ?_, h.root_eq, fun j _ => hns j, ?_, ?_⟩
  · intro j hj hd
    exact (onDevice_congr (h.value_eq j (habove j hj hd j (anc_refl _ _)))).mpr hd
  · intro j _ l hl
    rwa [hpar, hseg]
  · intro j hj v hv
    rw [hpar]
    refine hv.congr fun m hm => ?_
    exact deviceValue_congr (h.value_eq m (habove j hj.1 hj.2 m hm))

theorem grows {u : List KeyUnit} (h : Visited t A n t' A') (hns : t.ns n = e)
    (hl : PathLabel t.par t.seg n l) (hpre : l <+: u) : GrowsAlong t A t' A' e u := by
  have hseg : t'.seg = t.seg := funext fun j => seg_congr (h.key_eq j)
  intro j hj hd
  by_cases hjn : j = n
  · subst hjn
    refine .inr ⟨?_, l, ?_, hpre⟩
    · rw [ns, h.key_eq]
      exact hns
    · rw [funext h.par_eq, hseg]
      exact hl
  · rw [onDevice, h.value_eq j (.inl hjn)] at hd
    exact .inl ⟨h.sub hj, hd⟩

end Visited

theorem fillNode_visited (q : NodeId) (v : List Nat) (hn : n ∈ A) (hoff : ¬ t.onDevice n) :
    Visited t A n (repair (fillNode t n v) n q) A := by
  have ht := fillNode_isTouch t n v
  refine ⟨rfl, ht.par_eq, ht.key_eq, ?_, ?_, subset_rfl, hn, fun j hj _ => hj⟩
  · intro j hj
    exact ht.value_eq j (hj.resolve_right hoff)
  · show (fillNode t n v).onDevice n
    rw [onDevice, fillNode_self]
    exact Option.some_ne_none v

theorem fill_visited (hp : HiParams) (hn : n ∈ s.nodes) (hq : s.tree.par n = some q)
    (hqd : s.tree.onDevice q) (hoff : ¬ s.tree.onDevice n) (hv : v.length = s.tree.len n) :
    ∃ t, materialize s.cache.tree n v = .ok t ∧
      HiStep hp s { s with
        cache := { s.cache with
          tree := t
          ledger := s.cache.ledger.compute n (s.tree.ns n) (s.tree.len n) }
        given := s.given ++ [v] } ∧
      Visited s.tree s.nodes n t s.nodes ∧ (t.nodes n).value = some v := by
  have hq' : (s.cache.tree.nodes n).parent = some q := hq
  refine ⟨repair (fillNode s.tree n v) n q, ?_, .fill hn hq hqd hoff hv,
    fillNode_visited q v hn hoff, congrArg TreeNode.value (fillNode_self s.tree n v)⟩
  unfold materialize
  rw [hq']
  rfl

theorem incHitCount_writeBack (hpol : ¬ hp.writePolicy ≠ .writeBack) (c : HiCache) (n : NodeId)
    (chunked : Bool) (pick : Nat → Nat) : c.incHitCount hp n chunked pick = .ok c :=
  if_pos (.inl (not_not.mp hpol))

theorem markHybridGeneratedNodeForDemotion_writeBack (hpol : ¬ hp.writePolicy ≠ .writeBack)
    (c : HiCache) (n : NodeId) : c.markHybridGeneratedNodeForDemotion hp n = c := by
  refine if_pos ?_
  rw [HiParams.isHybridWriteThrough, not_not.mp hpol]
  simp

theorem visitNode_spec (h : HiInv hp s) (value : List Nat) (hn : n ∈ s.nodes)
    (hq : s.tree.par n = some q) (hqd : s.tree.onDevice q) (he : s.tree.ns n = e)
    (hm : s.tree.len n = m) (hv : (value.take m).length = m) (chunked : Bool) (pick : Nat → Nat) :
    ∃ k c A gs, s.cache.visitNode hp n e value m chunked pick = .ok (k, c) ∧
      HiSteps hp s { s with cache := c, nodes := A, given := s.given ++ gs } ∧
      Visited s.tree s.nodes n c.tree A ∧
      (s.tree.onDevice n ∧ k = m ∧ gs = [] ∧ SameDevice s.tree s.nodes c.tree A ∨
        ¬ s.tree.onDevice n ∧ k = 0 ∧ gs = [value.take m] ∧
          c.tree.deviceValue n = value.take m) := by
  have hr : n ≠ s.tree.rootNode := h.shape.rooted.ne_root_of_par hq
  unfold visitNode
  by_cases hd : s.tree.onDevice n
  · have hev : ¬ (s.cache.tree.nodes n).evicted = true := fun he => evicted_iff.mp he hd
    obtain ⟨c, A, hrun, hsteps, hsame⟩ := incHitCount_spec h hn hr hd chunked pick
    rw [if_neg hev]
    refine ⟨m, c, A, [], ?_, ?_, .of_sameDevice hsame hn hd, .inl ⟨hd, rfl, rfl, hsame⟩⟩
    · simp only [hrun, bind, Except.bind]
    · rw [append_nil]
      exact hsteps
  · rw [if_pos (evicted_iff.mpr hd)]
    obtain ⟨t, hfill, hstep, hvis, hval⟩ := fill_visited hp hn hq hqd hd (hv.trans hm.symm)
    rw [he, hm] at hstep
    set s1 : HiState := { s with
      cache := { s.cache with tree := t, ledger := s.cache.ledger.compute n e m }
      given := s.given ++ [value.take m] }
    have hmark := markHybridGeneratedNodeForDemotion_step hp s1 n
    have hsame := markHybridGeneratedNodeForDemotion_same hp s1.cache n
    have h2 := hmark.inv (hstep.inv h)
    obtain ⟨c, A, hrun, hsteps, hdev⟩ := incHitCount_spec h2 hn
      (fun e => hr (e.trans (hsame.root_eq.trans hvis.root_eq)))
      ((hsame.onDevice_iff n).mpr hvis.device) chunked pick
    have hrun' : (markHybridGeneratedNodeForDemotion hp { s.cache with
        tree := t, ledger := s.cache.ledger.compute n e m } n).incHitCount hp n chunked pick =
      .ok c := hrun
    refine ⟨0, c, A, [value.take m], ?_, .head hstep (.head hmark hsteps),
      hvis.then_sameDevice ((SameDevice.of_isSame hsame).trans hdev), .inr ⟨hd, rfl, rfl, ?_⟩⟩
    · simp only [hfill, bind, Except.bind]
      split_ifs with hpol
      · rw [hrun']
      · rw [incHitCount_writeBack hpol] at hrun'
        rw [Except.ok.inj hrun']
    · rw [deviceValue, hdev.value_eq, hsame.value_eq]
      exact congrArg (Option.getD · []) hval

/-- What the loop of `insert` has done with `m` slots of the key: the first `d` of them were on
the device already, with the slots at the end of `s₀`, and the others are in the tree now. -/
structure Walked (hp : HiParams) (s : HiState) (key : RadixKey) (l : List KeyUnit)
    (value : List Nat) (n : NodeId) (k : RadixKey) (m d : Nat) (s₀ : List Nat)
    (gs : List (List Nat)) (c : HiCache) (A : Finset NodeId) : Prop where
  steps : HiSteps hp s { s with cache := c, nodes := A, given := s.given ++ gs }
  keeps : KeepsDevice s.tree s.nodes c.tree A
  grows : GrowsAlong s.tree s.nodes c.tree A key.extraKey (l ++ key.units)
  longest : ∀ h : CoreOn hp.toCacheParams s.tree s.nodes,
    h.deviceStore.IsLongest key.extraKey (l ++ key.units) (l.length + d) s₀
  walk : ∃ l', WalkAt hp.toCacheParams c.tree A n k l' (s₀ ++ (value.take m).drop d) ∧
    l' ++ k.units = l ++ key.units
  device : c.tree.onDevice n
  ext : k.extraKey = key.extraKey
  len : k.len + m = key.len
  stuck : 0 < k.len → c.tree.find n (k.childKey hp.pageSize) = none
  le : d ≤ m
  given : gs.flatten = (value.take m).drop d

theorem Walked.stop (hw : WalkAt hp.toCacheParams s.tree s.nodes node key l v)
    (hd : s.tree.onDevice node)
    (hend : AtEnd hp.toCacheParams s.tree s.nodes key.extraKey (l ++ key.units) node l)
    (hstuck : 0 < key.len → s.cache.tree.find node (key.childKey hp.pageSize) = none) :
    Walked hp s key l value node key 0 0 v [] s.cache s.nodes := by
  refine ⟨?_, .refl _ _, .of_sameDevice (.refl _ _), fun h => ?_, ⟨l, ?_, rfl⟩, hd, rfl, rfl,
    hstuck, le_rfl, rfl⟩
  · rw [append_nil]
  · exact h.isLongest hend.mem hd hend.ns hend.label hw.val hend.pre fun c hc _ => hend.stuck c hc
  · rw [take_zero, drop_nil, append_nil]
    exact hw

theorem Visited.walkAt {v' : List Nat} (hvis : Visited t A x t' A')
    (hv' : PathLabel t'.par t'.deviceValue x v') (hw : WalkAt p t A x key l v) :
    WalkAt p t' A' x key l v' := by
  have hpar : t'.par = t.par := funext hvis.par_eq
  have hseg : t'.seg = t.seg := funext fun j => seg_congr (hvis.key_eq j)
  refine ⟨⟨hvis.mem, hw.walk.aligned, hw.walk.bigram, ?_⟩, ?_, hv'⟩
  · rw [hvis.root_eq, ns, hvis.key_eq]
    exact hw.walk.ns
  · rw [hpar, hseg]
    exact hw.seg

/-- An iteration has come to `x`, which is the child or the upper part of it. -/
structure Reached (hp : HiParams) (s : HiState) (node : NodeId) (key : RadixKey)
    (l : List KeyUnit) (v : List Nat) (child : NodeId) (m : Nat) (x : NodeId) (c : HiCache)
    (A : Finset NodeId) (lx : List KeyUnit) : Prop where
  steps : HiSteps hp s { s with cache := c, nodes := A }
  keeps : KeepsDevice s.tree s.nodes c.tree A
  store : ∀ (h : CoreOn hp.toCacheParams s.tree s.nodes) (h' : CoreOn hp.toCacheParams c.tree A),
    h'.deviceStore = h.deviceStore
  grows : GrowsAlong s.tree s.nodes c.tree A key.extraKey (l ++ key.units)
  par : c.tree.par x = some node
  len : c.tree.len x = m
  ns : c.tree.ns x = key.extraKey
  walk : WalkAt hp.toCacheParams c.tree A x (key.slice m key.len) lx (v ++ c.tree.deviceValue x)
  units : lx ++ (key.slice m key.len).units = l ++ key.units
  length : lx.length = l.length + m
  device : c.tree.onDevice x ↔ s.tree.onDevice child

theorem reach_spec (h : HiInv hp s) (hw : WalkAt hp.toCacheParams s.tree s.nodes node key l v)
    (hd : Descent hp.toCacheParams s.tree s.nodes node key child m) :
    ∃ x c A lx, (if m = (s.cache.tree.nodes child).key.len then (child, s.cache)
        else s.cache.splitNode hp child m) = (x, c) ∧
      Reached hp s node key l v child m x c A lx := by
  have hlen : (s.cache.tree.nodes child).key.len = s.tree.len child := rfl
  by_cases hfull : m = s.tree.len child
  · rw [if_pos (hfull.trans hlen.symm)]
    have hnot : ¬ m < s.tree.len child := by omega
    refine ⟨child, s.cache, s.nodes, _, rfl, .refl, .refl _ _, fun _ _ => rfl,
      .of_sameDevice (.refl _ _), hd.par, hfull.symm, hd.ns,
      ⟨hd.walkable hw.walk, .step hd.par hw.seg, .step hd.par hw.val⟩,
      hd.label_append hnot, ?_, Iff.rfl⟩
    rw [length_append, s.tree.length_seg]
    omega
  · have hlt : m < s.tree.len child := lt_of_le_of_ne hd.le_child hfull
    obtain ⟨t, hsplit, hs, hstep, hkeep⟩ := split_spec h hd hlt
    have hwx := hw.split h.shape hd hlt hs
    rw [if_neg (hlen ▸ hfull), hsplit]
    refine ⟨s.tree.counter, _, insert s.tree.counter s.nodes, _, rfl,
      .single hstep, hkeep, fun h h' => KeepsDevice.store_split hs h h' hd.mem hd.ne_root hlt.le,
      ?_, ?_, ?_, hs.ns_new.trans hd.ns, hwx, ?_, ?_, ?_⟩
    · intro n hn hnd
      rcases mem_insert.mp hn with rfl | hnA
      · exact .inr ⟨hs.ns_new.trans hd.ns, _, hwx.seg,
          (prefix_append_right_inj l).mpr ( take_prefix _ _)⟩
      · have hne : n ≠ s.tree.counter := fun e => h.shape.not_mem_counter (e ▸ hnA)
        rw [hs.onDevice_iff, if_neg hne] at hnd
        exact .inl ⟨hnA, hnd⟩
    · rw [hs.par_new, hd.par]
    · rw [len, hs.key_eq, if_pos rfl]
      exact RadixKey.len_take _ hlt.le
    · rw [RadixKey.units_drop _ hd.le_key, append_assoc, take_append_drop]
    · rw [length_append, length_take, RadixKey.length_units, min_eq_left hd.le_key]
    · rw [hs.onDevice_iff, if_pos rfl]

theorem WalkAt.isLongest (hw : WalkAt p t A node key l v) (h : CoreOn p t A)
    (hd : t.onDevice node) (hpos : 0 < key.len)
    (hfind : t.find node (key.childKey p.pageSize) = some child) (hoff : ¬ t.onDevice child) :
    h.deviceStore.IsLongest key.extraKey (l ++ key.units) l.length v := by
  refine h.isLongest hw.walk.mem hd ?_ hw.seg hw.val (prefix_append _ _) ?_
  · by_cases hr : node = t.rootNode
    · exact .inl hr
    · exact .inr (hw.walk.ns hr)
  · intro c hc hcd hcn hns hpre
    have hc' := hw.walk.find_of_prefix h.shape hpos hc hcn hns hpre
    rw [hfind] at hc'
    exact hoff (Option.some.inj hc' ▸ hcd)

theorem Visited.isLongest (hvis : Visited t A x t' A') (h : CoreOn p t A) (h' : CoreOn p t' A')
    (hoff : ¬ t.onDevice x) (hns : t.ns x = e) (hw : WalkAt p t' A' x key l v)
    {u : List KeyUnit} (hpre : l <+: u) : h'.deviceStore.IsLongest e u l.length v := by
  have hns' : t'.ns x = e := by
    rw [ns, hvis.key_eq]
    exact hns
  refine h'.isLongest hw.walk.mem hvis.device (.inr hns') hw.seg hw.val hpre ?_
  intro j hj hjd hjx
  have hjx' : t.par j = some x := (hvis.par_eq j).symm.trans hjx
  have hjne : j ≠ x := (h.shape.rooted.par_ne (hvis.sub hj) hjx').symm
  rw [onDevice, hvis.value_eq j (.inl hjne)] at hjd
  exact absurd (h.device_par j (hvis.sub hj) x hjx' hjd) hoff

theorem insertLoop_spec (chunked : Bool) (pick : Nat → Nat → Nat) :
    ∀ fuel (s : HiState) node key value total l v, HiInv hp s →
      WalkAt hp.toCacheParams s.tree s.nodes node key l v → s.tree.onDevice node →
      value.length = key.len → key.len < fuel →
      ∃ n k m d s0 gs c A,
        insertLoop hp chunked pick fuel s.cache node key value total =
          .ok (n, k, value.drop m, total + d, c) ∧
        Walked hp s key l value n k m d s0 gs c A := by
  intro fuel
  induction fuel with
  | zero => intro s node key value total l v _ _ _ _ hlt; omega
  | succ fuel ih =>
    intro s node key value total l v h hw hdev hval hlt
    unfold HiCache.insertLoop
    by_cases hpos : 0 < key.len
    · rw [if_pos hpos]
      cases hfind : s.cache.tree.find node (key.childKey hp.pageSize) with
      | none =>
        exact ⟨node, key, 0, 0, v, [], s.cache, s.nodes, rfl,
          .stop hw hdev (atEnd_of_find_none h.shape hw.walk hpos hw.seg hfind) fun _ => hfind⟩
      | some child =>
        obtain ⟨m, hd⟩ := hw.walk.descent h.shape hpos hfind
        have hmatched := hd.matched
        obtain ⟨x, c1, A1, lx, hreach, hr⟩ := reach_spec h hw hd
        have h1 := hr.steps.inv h
        have hnode := hr.keeps.device node hw.walk.mem hdev
        have hmk := hd.le_key
        have htake : (value.take m).length = m := by
          rw [length_take]
          omega
        obtain ⟨e, c2, A2, gs1, hvisit, hsteps2, hvis, hout⟩ := visitNode_spec h1 value
          hr.walk.walk.mem hr.par hnode hr.ns hr.len htake chunked (pick fuel)
        have hvisit' : c1.visitNode hp x key.extraKey value m chunked (pick fuel) = .ok (e, c2) :=
          hvisit
        have h2 := hsteps2.inv h1
        have hkeep2 := hvis.keepsDevice h1.tree.core
        have hw2 := hvis.walkAt (.step ((hvis.par_eq x).trans hr.par)
          ((hr.keeps.trans hkeep2).paths.value node ⟨hw.walk.mem, hdev⟩ v hw.val)) hr.walk
        have hlenk := RadixKey.len_drop _ hd.le_key
        have hps := hp.pageSize_pos
        have hpage := hd.page_le
        obtain ⟨n, k, m', d, s0, gs, c, A, hrun, hwalked⟩ := ih _ x (key.slice m key.len)
          (value.drop m) (total + e) lx _ h2 hw2 hvis.device
          (by rw [length_drop, hval, hlenk]) (by omega)
        have hcover : lx <+: l ++ key.units := hr.units ▸ prefix_append _ _
        have hlong := hwalked.longest h2.tree.core
        have hgrows := hwalked.grows
        rw [RadixKey.slice_extraKey, hr.units] at hlong hgrows
        -- the slots of this iteration, in both cases
        have hsum : e ≤ m ∧ gs1.flatten ++ gs.flatten = (value.take (m + m')).drop (e + d) ∧
            ∃ s1, s1 ++ (value.take (m + m')).drop (e + d) =
                s0 ++ ((value.drop m).take m').drop d ∧
              ∀ h : CoreOn hp.toCacheParams s.tree s.nodes,
                h.deviceStore.IsLongest key.extraKey (l ++ key.units) (l.length + (e + d)) s1 := by
          have hsplit : value.take (m + m') = value.take m ++ (value.drop m).take m' :=
            take_add
          rcases hout with ⟨hon, rfl, rfl, hsame⟩ | ⟨hoff, rfl, rfl, hvalx⟩
          · have hdrop : (value.take (e + m')).drop (e + d) = ((value.drop e).take m').drop d := by
              rw [hsplit, ← drop_drop, drop_left' htake]
            refine ⟨le_rfl, ?_, s0, by rw [hdrop], fun h' => ?_⟩
            · rw [flatten_nil, nil_append, hwalked.given, hdrop]
            · rw [← hr.store h' h1.tree.core,
                ← KeepsDevice.store_sameDevice hsame h1.tree.core h2.tree.core, ← add_assoc,
                ← hr.length]
              exact hlong
          · obtain ⟨hd0, rfl⟩ := hlong.unique
              (hvis.isLongest h1.tree.core h2.tree.core hoff hr.ns hw2 hcover)
            obtain rfl : d = 0 := by omega
            refine ⟨zero_le _, ?_, v, ?_, fun h' => ?_⟩
            · rw [hwalked.given, hsplit]
              simp
            · show v ++ value.take (m + m') = v ++ c2.tree.deviceValue x ++ (value.drop m).take m'
              rw [hvalx, hsplit, append_assoc]
            · exact hw.isLongest h' hdev hpos hfind (mt hr.device.mpr hoff)
        obtain ⟨hem, hgiven, s1, hs1, hlongest⟩ := hsum
        refine ⟨n, k, m + m', e + d, s1, gs1 ++ gs, c, A, ?_, ?_⟩
        · simp only [hmatched, hreach, hvisit', bind, Except.bind]
          rw [← add_assoc, ← drop_drop]
          exact hrun
        · have hlenw := hwalked.len
          have hle := hwalked.le
          refine ⟨?_, (hr.keeps.trans hkeep2).trans hwalked.keeps,
            (hr.grows.trans (hvis.grows hr.ns hr.walk.seg hcover) hkeep2).trans hgrows
              hwalked.keeps, hlongest, ?_, hwalked.device,
            hwalked.ext.trans (RadixKey.slice_extraKey _ _ _), by omega, hwalked.stuck, by omega,
            ?_⟩
          · have hall := (hr.steps.trans hsteps2).trans hwalked.steps
            rwa [append_assoc] at hall
          · obtain ⟨l', hwn, hln⟩ := hwalked.walk
            rw [hs1]
            exact ⟨l', hwn, hln.trans hr.units⟩
          · rw [flatten_append]
            exact hgiven
    · rw [if_neg hpos]
      exact ⟨node, key, 0, 0, v, [], s.cache, s.nodes, rfl,
        .stop hw hdev (atEnd_of_empty h.shape hw.walk (by omega) hw.seg) fun hp => absurd hp hpos⟩

/-- A node on the device with the path `u` and the slots `v`. -/
structure Stored (t : RadixTree) (A : Finset NodeId) (e : Option String) (u : List KeyUnit)
    (v : List Nat) (n : NodeId) : Prop where
  mem : n ∈ A
  device : t.onDevice n
  ns : n = t.rootNode ∨ t.ns n = e
  seg : PathLabel t.par t.seg n u
  value : PathLabel t.par t.deviceValue n v

theorem Stored.holds {u : List KeyUnit} (hs : Stored t A e u v n) (h : CoreOn p t A) :
    h.deviceStore.holds e u v :=
  h.deviceTrie.holds_label h.device_length (mem_filter.mpr ⟨hs.mem, hs.device⟩) hs.ns
    hs.seg hs.value

/-- What `insert` does with the slots of a key, when it returns `d`: the first `d` of its units
were on the device with the slots `s₀`, and now all of it is. -/
structure Inserts (hp : HiParams) (s : HiState) (e : Option String) (u : List KeyUnit)
    (slots : List Nat) (d : Nat) (s₀ : List Nat) (c : HiCache) (A : Finset NodeId)
    (gs : List (List Nat)) : Prop where
  steps : HiSteps hp s { s with cache := c, nodes := A, given := s.given ++ gs }
  longest : ∀ h : CoreOn hp.toCacheParams s.tree s.nodes, h.deviceStore.IsLongest e u d s₀
  store : ∀ (h : CoreOn hp.toCacheParams s.tree s.nodes) (h' : CoreOn hp.toCacheParams c.tree A)
    (hlen : slots.length = u.length), h'.deviceStore = h.deviceStore.insert e u slots hlen
  given : gs.flatten = slots.drop d

theorem Walked.stored {d : Nat} {s0 : List Nat} {gs : List (List Nat)}
    (h : Walked hp s key [] slots n k m d s0 gs c A) (hlen : slots.length = key.len)
    (hk : k.len = 0) : slots.take m = slots ∧
      Stored c.tree A key.extraKey key.units (s0 ++ slots.drop d) n := by
  have hm := h.len
  have htake : slots.take m = slots := take_of_length_le (by omega)
  obtain ⟨l, hwn, hln⟩ := h.walk
  have hunits : k.units = [] :=
    eq_nil_of_length_eq_zero ((RadixKey.length_units k).trans hk)
  rw [hunits, append_nil, nil_append] at hln
  rw [htake] at hwn
  refine ⟨htake, hwn.walk.mem, h.device, ?_, hln ▸ hwn.seg, hwn.val⟩
  by_cases hr : n = c.tree.rootNode
  · exact .inl hr
  · exact .inr ((hwn.walk.ns hr).trans h.ext)

theorem insertLeaf_spec (h : HiInv hp s) (hw : WalkAt hp.toCacheParams s.tree s.nodes n k l v)
    (hd : s.tree.onDevice n) (hpos : 0 < k.len)
    (hnew : s.tree.find n (k.childKey hp.pageSize) = none) (hlen : slots.length = k.len)
    (chunked : Bool) (pick : Nat → Nat) :
    ∃ c A, s.cache.insertLeaf hp n k slots chunked pick = .ok c ∧
      HiSteps hp s { s with cache := c, nodes := A, given := s.given ++ [slots] } ∧
      KeepsDevice s.tree s.nodes c.tree A ∧
      GrowsAlong s.tree s.nodes c.tree A k.extraKey (l ++ k.units) ∧
      Stored c.tree A k.extraKey (l ++ k.units) (v ++ slots) s.tree.counter := by
  have hold : n ≠ s.tree.counter := fun e => h.shape.not_mem_counter (e ▸ hw.walk.mem)
  have hg := addLeaf_isGraft (p := hp.toCacheParams) k slots k.len hold
  have hinv := addLeaf_treeInv h.tree hw.walk.mem hd hpos hw.walk.aligned hw.walk.bigram
    (fun hr => (hw.walk.ns hr).symm) hnew hlen
  set t := (s.tree.addLeaf hp.pageSize n k slots k.len).2
  have hstep := HiStep.graft hg hinv
  set s1 : HiState := { s with
    cache := { s.cache with
      tree := t
      ledger := s.cache.ledger.insertLeaf hp.pageSize t s.tree.counter }
    nodes := insert s.tree.counter s.nodes
    given := s.given ++ [slots] }
  have hmark := markHybridGeneratedNodeForDemotion_step hp s1 s.tree.counter
  have hsame := markHybridGeneratedNodeForDemotion_same hp s1.cache s.tree.counter
  have hmem : s.tree.counter ∈ s1.nodes := mem_insert_self _ _
  have hroot : s.tree.counter ≠ s.tree.rootNode := fun e =>
    h.shape.not_mem_counter (e ▸ h.shape.rooted.root_mem)
  have hdev : t.onDevice s.tree.counter := hg.onDevice_new
  obtain ⟨c, A, hrun, hsteps, hhit⟩ := incHitCount_spec (hmark.inv (hstep.inv h)) hmem
    (fun e => hroot (e.trans (hsame.root_eq.trans hg.root_eq)))
    ((hsame.onDevice_iff _).mpr hdev) chunked pick
  have hrest := (SameDevice.of_isSame (A := s1.nodes) hsame).trans hhit
  have hpaths := hrest.keepsPaths Set.univ
  have hpar : t.par s.tree.counter = some n := by
    rw [hg.par_eq]
    exact graft_new
  have hns : t.ns s.tree.counter = k.extraKey := by rw [ns, hg.key_eq, if_pos rfl]
  have hseg : PathLabel t.par t.seg s.tree.counter (l ++ k.units) := by
    have hlabel := step hpar ((hg.keepsPaths h.shape).seg n hw.walk.mem l hw.seg)
    rwa [seg, hg.key_eq, if_pos rfl] at hlabel
  have hval : PathLabel t.par t.deviceValue s.tree.counter (v ++ slots) := by
    have hlabel := step hpar ((hg.keepsPaths h.shape).value n hw.walk.mem v hw.val)
    rwa [deviceValue, hg.value_eq, if_pos rfl] at hlabel
  refine ⟨c, A, ?_, .head hstep (.head hmark hsteps),
    (KeepsDevice.of_graft hg h.shape).trans (.of_sameDevice hrest),
    GrowsAlong.trans ?_ (.of_sameDevice hrest) (.of_sameDevice hrest), hrest.device_mem _ hmem hdev,
    (hrest.onDevice_iff _).mpr hdev, .inr ((hpaths.ns _ trivial).trans hns),
    hpaths.seg _ trivial _ hseg, hpaths.value _ trivial _ hval⟩
  · unfold insertLeaf
    rw [hlen]
    split_ifs with hpol
    · exact hrun
    · rwa [markHybridGeneratedNodeForDemotion_writeBack hpol, incHitCount_writeBack hpol] at hrun
  · intro j hj hjd
    rcases mem_insert.mp hj with rfl | hjA
    · exact .inr ⟨hns, _, hseg, prefix_refl _⟩
    · have hne : j ≠ s.tree.counter := fun e => h.shape.not_mem_counter (e ▸ hjA)
      exact .inl ⟨hjA, (hg.onDevice_iff hne).mp hjd⟩

/-- `insert` in terms of its loop; an empty key needs no case of its own. -/
theorem insert_of_loop {chunked : Bool} {pick : Nat → Nat → Nat} {total : Nat}
    (hrun : insertLoop hp chunked pick ((alignedKey hp.toCacheParams key).len + 1) c
      c.tree.rootNode (alignedKey hp.toCacheParams key)
      (insertSlots hp.toCacheParams key (some value)) 0 = .ok (n, k, v, total, c')) :
    (¬ 0 < k.len → c.insert hp key value chunked pick = .ok (total, c')) ∧
      (0 < k.len → ∀ {c''}, c'.insertLeaf hp n k v chunked (pick 0) = .ok c'' →
        c.insert hp key value chunked pick = .ok (total, c'')) := by
  have hins : c.insert hp key value chunked pick =
      if (alignedKey hp.toCacheParams key).len = 0 then .ok (0, c)
      else insertLoop hp chunked pick ((alignedKey hp.toCacheParams key).len + 1) c
        c.tree.rootNode (alignedKey hp.toCacheParams key)
        (insertSlots hp.toCacheParams key (some value)) 0 >>= _ := rfl
  rw [hins]
  by_cases hempty : (alignedKey hp.toCacheParams key).len = 0
  · unfold HiCache.insertLoop at hrun
    rw [if_neg (by omega)] at hrun
    cases hrun
    exact ⟨fun _ => if_pos hempty, fun hpos => absurd hempty (ne_of_gt hpos)⟩
  · rw [if_neg hempty, hrun]
    refine ⟨fun hpos => if_neg hpos, fun hpos c'' hleaf => ?_⟩
    exact (if_pos hpos).trans (by rw [hleaf]; rfl)

theorem insert_spec (h : HiInv hp s) (hk : key.isBigram = true → hp.isEagle = true)
    (hv : EnoughSlots hp.toCacheParams key (some value)) (chunked : Bool) (pick : Nat → Nat → Nat) :
    ∃ d s0 c A gs, s.cache.insert hp key value chunked pick = .ok (d, c) ∧
      Inserts hp s key.extraKey (queryUnits hp.toCacheParams key)
        (insertSlots hp.toCacheParams key (some value)) d s0 c A gs := by
  have hw := WalkAt.root h hk
  have hslots := insertSlots_length hv
  have hqlen : (queryUnits hp.toCacheParams key).length =
    (alignedKey hp.toCacheParams key).len := RadixKey.length_units _
  have hext := alignedKey_extraKey hp.toCacheParams key
  have hunits : queryUnits hp.toCacheParams key = (alignedKey hp.toCacheParams key).units := rfl
  set key' := alignedKey hp.toCacheParams key
  set slots := insertSlots hp.toCacheParams key (some value)
  rw [← hext]
  obtain ⟨n, k, m, d, s0, gs, c, A, hrun, hwalked⟩ := insertLoop_spec chunked pick
    (key'.len + 1) s s.tree.rootNode key' slots 0 [] [] h hw h.tree.core.root_device
    (hslots.trans hqlen) (lt_succ_self _)
  have hrun' : insertLoop hp chunked pick (key'.len + 1) s.cache s.cache.tree.rootNode
    key' slots 0 = .ok (n, k, slots.drop m, 0 + d, c) := hrun
  have hlen := hwalked.len
  have hle := hwalked.le
  have hlongest : ∀ h : CoreOn hp.toCacheParams s.tree s.nodes,
      h.deviceStore.IsLongest key'.extraKey key'.units d s0 := fun h => by
    have := hwalked.longest h
    rwa [length_nil, zero_add] at this
  -- the store has grown along the key
  have hstore : ∀ {c' : HiCache} {A' n'}, KeepsDevice s.tree s.nodes c'.tree A' →
      GrowsAlong s.tree s.nodes c'.tree A' key'.extraKey key'.units →
      Stored c'.tree A' key'.extraKey key'.units (s0 ++ slots.drop d) n' →
      ∀ (h : CoreOn hp.toCacheParams s.tree s.nodes)
        (h' : CoreOn hp.toCacheParams c'.tree A') (hlen : slots.length = key'.units.length),
        h'.deviceStore = h.deviceStore.insert key'.extraKey key'.units slots hlen :=
    fun hkeep hgrow hstored h h' _ => PrefixStore.eq_insert (hkeep.store_sub h h')
      (hgrow.holds hkeep h h') (hlongest h) (hstored.holds h')
  obtain ⟨hfull, hnew⟩ := insert_of_loop hrun'
  by_cases hpos : 0 < k.len
  · have h' := hwalked.steps.inv h
    have hrest : (slots.drop m).length = k.len := by
      rw [length_drop]
      omega
    obtain ⟨l, hwn, hln⟩ := hwalked.walk
    obtain ⟨c', A', hleaf, hsteps, hkeep, hgrow, hstored⟩ := insertLeaf_spec h' hwn
      hwalked.device hpos (hwalked.stuck hpos) hrest chunked (pick 0)
    have hleaf' : c.insertLeaf hp n k (slots.drop m) chunked (pick 0) = .ok c' := hleaf
    have hdrop : (slots.take m).drop d ++ slots.drop m = slots.drop d := by
      conv_rhs => rw [← take_append_drop m slots]
      rw [drop_append_of_le_length]
      rw [length_take]
      omega
    rw [hln, hwalked.ext] at hgrow hstored
    rw [append_assoc, hdrop] at hstored
    refine ⟨d, s0, c', A', gs ++ [slots.drop m], ?_, ?_, hlongest,
      hstore (hwalked.keeps.trans hkeep) (hwalked.grows.trans hgrow hkeep) hstored, ?_⟩
    · rw [hnew hpos hleaf', zero_add]
    · have hall := hwalked.steps.trans hsteps
      rwa [append_assoc] at hall
    · rw [flatten_append, hwalked.given, flatten_singleton, hdrop]
  · obtain ⟨htake, hstored⟩ := hwalked.stored (hslots.trans hqlen) (by omega)
    refine ⟨d, s0, c, A, gs, ?_, hwalked.steps, hlongest,
      hstore hwalked.keeps hwalked.grows hstored, ?_⟩
    · rw [hfull hpos, zero_add]
    · rw [hwalked.given, htake]

end

end Fluxfer.Hi
