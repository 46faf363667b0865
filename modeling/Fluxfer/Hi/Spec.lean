import Fluxfer.Hi.Steps

/-!
# What the operations of `HiRadixCache` do

For each function of the cache: it returns, and what it does is a sequence of steps. The
policy is one of the two write-through policies. Where a caller relies on more, it is said
with the result: `SameDevice` for functions that only change the host side of the tree, and
`SameHost` for those that only evict from the device.
-/

namespace Fluxfer.Hi

open Radix ParentTree Memory RadixTree HiCache List HiState

variable {c c' : HiCache} {x n q : NodeId} {numTokens k : Nat} {pick : Nat → Nat} {v : List Nat}
  {t : RadixTree}

/-! ## Frames -/

/-- The nodes on the device are the same, with the same slots and paths. -/
structure SameDevice (t : RadixTree) (A : Finset NodeId) (t' : RadixTree) (A' : Finset NodeId) :
    Prop where
  counter_eq : t'.counter = t.counter
  root_eq : t'.rootNode = t.rootNode
  par_eq : ∀ n, t'.par n = t.par n
  key_eq : ∀ n, (t'.nodes n).key = (t.nodes n).key
  value_eq : ∀ n, (t'.nodes n).value = (t.nodes n).value
  sub : A' ⊆ A
  device_mem : ∀ n ∈ A, t.onDevice n → n ∈ A'

namespace SameDevice

variable {t' u : RadixTree} {A A' B : Finset NodeId}

theorem refl (t : RadixTree) (A : Finset NodeId) : SameDevice t A t A :=
  ⟨rfl, rfl, fun _ => rfl, fun _ => rfl, fun _ => rfl, subset_rfl, fun _ hn _ => hn⟩

theorem onDevice_iff (h : SameDevice t A t' A') (n : NodeId) : t'.onDevice n ↔ t.onDevice n :=
  onDevice_congr (h.value_eq _)

theorem len_eq (h : SameDevice t A t' A') (n : NodeId) : t'.len n = t.len n :=
  len_congr (h.key_eq n)

theorem trans (h : SameDevice t A t' A') (g : SameDevice t' A' u B) : SameDevice t A u B :=
  ⟨g.counter_eq.trans h.counter_eq, g.root_eq.trans h.root_eq,
    fun n => (g.par_eq n).trans (h.par_eq n), fun n => (g.key_eq n).trans (h.key_eq n),
    fun n => (g.value_eq n).trans (h.value_eq n), g.sub.trans h.sub,
    fun n hn hd => g.device_mem n (h.device_mem n hn hd) ((h.onDevice_iff n).mpr hd)⟩

theorem keepsPaths (h : SameDevice t A t' A') (B : Set NodeId) : KeepsPaths t t' B :=
  .of_eq h.root_eq h.par_eq h.key_eq h.value_eq B

theorem of_isSame (h : IsSame t t') : SameDevice t A t' A :=
  ⟨h.counter_eq, h.root_eq, h.par_eq, h.key_eq, h.value_eq, subset_rfl, fun _ hn _ => hn⟩

end SameDevice

/-- Nodes have left the device or the tree; those off the device and those that stay on it are
the same. -/
structure SameHost (t : RadixTree) (A : Finset NodeId) (t' : RadixTree) (A' : Finset NodeId) :
    Prop where
  counter_eq : t'.counter = t.counter
  root_eq : t'.rootNode = t.rootNode
  par_eq : ∀ n, t'.par n = t.par n
  key_eq : ∀ n, (t'.nodes n).key = (t.nodes n).key
  host_eq : ∀ n, (t'.nodes n).hostValue = (t.nodes n).hostValue
  sub : A' ⊆ A
  off_mem : ∀ n ∈ A, ¬ t.onDevice n → n ∈ A' ∧ ¬ t'.onDevice n
  value_stay : ∀ n, t'.onDevice n → (t'.nodes n).value = (t.nodes n).value

namespace SameHost

variable {t' u : RadixTree} {A A' B : Finset NodeId}

theorem refl (t : RadixTree) (A : Finset NodeId) : SameHost t A t A :=
  ⟨rfl, rfl, fun _ => rfl, fun _ => rfl, fun _ => rfl, subset_rfl, fun _ hn hd => ⟨hn, hd⟩,
    fun _ _ => rfl⟩

theorem trans (h : SameHost t A t' A') (g : SameHost t' A' u B) : SameHost t A u B :=
  ⟨g.counter_eq.trans h.counter_eq, g.root_eq.trans h.root_eq,
    fun n => (g.par_eq n).trans (h.par_eq n), fun n => (g.key_eq n).trans (h.key_eq n),
    fun n => (g.host_eq n).trans (h.host_eq n), g.sub.trans h.sub,
    fun n hn hd => g.off_mem n (h.off_mem n hn hd).1 (h.off_mem n hn hd).2, fun n hd => by
      have heq := g.value_stay n hd
      rw [heq, h.value_stay n]
      rwa [onDevice, ← heq]⟩

theorem label {p : CacheParams} (h : SameHost t A t' A') (hc : CoreOn p t' A') {n : NodeId}
    (hn : n ∈ A') (hd : t'.onDevice n) {v : List Nat} (hv : PathLabel t.par t.deviceValue n v) :
    PathLabel t'.par t'.deviceValue n v := by
  have hpar : t'.par = t.par := funext h.par_eq
  rw [hpar]
  refine hv.congr fun m hm => ?_
  rw [deviceValue, h.value_stay m (hc.anc_device hn hd (hpar ▸ hm)).2, deviceValue]

end SameHost

/-- Node `x` has left the device. -/
structure Evicted (t : RadixTree) (A : Finset NodeId) (x : NodeId) (t' : RadixTree)
    (A' : Finset NodeId) : Prop extends SameHost t A t' A' where
  device_iff : ∀ n, n ∈ A' ∧ t'.onDevice n ↔ (n ∈ A ∧ t.onDevice n) ∧ n ≠ x
  lock_eq : ∀ n, (t'.nodes n).lockRef = (t.nodes n).lockRef

/-- The transfers that wait for their start or their acknowledgement are the same. -/
structure SameQueues (c c' : HiCache) : Prop where
  ackWrite_eq : c'.ackWriteQueue = c.ackWriteQueue
  load_eq : c'.loadQueue = c.loadQueue
  ackLoad_eq : c'.ackLoadQueue = c.ackLoadQueue

theorem SameQueues.refl (c : HiCache) : SameQueues c c := ⟨rfl, rfl, rfl⟩

theorem SameQueues.trans {c'' : HiCache} (h : SameQueues c c') (g : SameQueues c' c'') :
    SameQueues c c'' :=
  ⟨g.ackWrite_eq.trans h.ackWrite_eq, g.load_eq.trans h.load_eq,
    g.ackLoad_eq.trans h.ackLoad_eq⟩

/-! ## Locks -/

section Locks

variable {p : CacheParams} {A : Finset NodeId}

theorem incLockRef_tree (h : TreeInv p t A) (hx : x ∈ A) (hd : t.onDevice x) :
    ∃ d t', walkUp hiIncLockNode (t.counter + 1) t x 0 = .ok (d, t') ∧
      IsRelock t t' (pathDelta t.par t.rootNode x 1) ∧ TreeInv p t' A := by
  obtain ⟨d, t', hrun, hc, hcount, hl⟩ := (hiIncLockNode_lockStep p).walkUp h.core h.counts
    (.inl trivial) hx hd (fun n _ hn => Int.add_nonneg
      (h.core.lock_nonneg n (h.core.shape.rooted.anc_mem hx hn)) (by decide)) 0
  refine ⟨d, t', hrun, hl, hc, ?_⟩
  simpa using hcount

theorem decLockRef_tree {hs : List NodeId} (h : TreeInv p t A) (hh : HeldBy t A hs)
    (hx : x ∈ hs) (hd : t.onDevice x) :
    ∃ d t', walkUp hiDecLockNode (t.counter + 1) t x 0 = .ok (d, t') ∧
      IsRelock t t' (pathDelta t.par t.rootNode x (-1)) ∧ TreeInv p t' A := by
  have hxA := hh.mem x hx
  obtain ⟨d, t', hrun, hc, hcount, hl⟩ := (hiDecLockNode_lockStep p).walkUp h.core h.counts
    (.inl trivial) hxA hd (fun n hr hn => by
      have := hh.lock_pos (h.core.shape.rooted.anc_mem hxA hn) hr hx hn
      omega) 0
  refine ⟨d, t', hrun, hl, hc, ?_⟩
  simpa using hcount

end Locks

variable {hp : HiParams} {s : HiState}

theorem incLockRef_spec (h : HiInv hp s) (hx : x ∈ s.nodes) (hd : s.tree.onDevice x) :
    ∃ d t, (∀ c : HiCache, c.tree = s.tree → c.incLockRef x = .ok (d, c.withTree t)) ∧
      IsRelock s.tree t (pathDelta s.tree.par s.tree.rootNode x 1) ∧
      TreeInv hp.toCacheParams t s.nodes := by
  obtain ⟨d, t, hrun, hl, hinv⟩ := incLockRef_tree h.tree hx hd
  refine ⟨d, t, ?_, hl, hinv⟩
  intro c hc
  rw [HiCache.incLockRef, hc, hrun]
  rfl

theorem decLockRef_spec (h : HiInv hp s) (hx : x ∈ s.locks) :
    ∃ d t, (∀ c : HiCache, c.tree = s.tree → c.decLockRef x = .ok (d, c.withTree t)) ∧
      IsRelock s.tree t (pathDelta s.tree.par s.tree.rootNode x (-1)) ∧
      TreeInv hp.toCacheParams t s.nodes := by
  obtain ⟨d, t, hrun, hl, hinv⟩ := decLockRef_tree h.tree h.held hx (h.lock_onDevice hx)
  refine ⟨d, t, ?_, hl, hinv⟩
  intro c hc
  rw [HiCache.decLockRef, hc, hrun]
  rfl

/-! ## Eviction from the host -/

theorem dropHost_spec (h : HiInv hp s) (hl : HostLeaf s.tree s.nodes x) :
    ∃ v q t, s.cache.dropHost hp x = .ok (v, q, { s.cache with
        tree := t
        hostPool := s.cache.hostPool.free (hostValue s.tree x)
        ledger := s.cache.ledger.recordRemoveEvent hp.pageSize s.tree x .cpu }) ∧
      s.tree.par x = some q ∧ IsRemove hp.pageSize s.tree t x ∧
      TreeInv hp.toCacheParams t (s.nodes.erase x) := by
  have hxr : x ≠ s.tree.rootNode := fun e => hl.off (e ▸ h.tree.core.root_device)
  obtain ⟨q, _, hq⟩ := h.shape.rooted.par_mem hl.mem hxr
  obtain ⟨hr, hinv⟩ := dropHostLeaf_treeInv h.tree hl hq
  obtain ⟨v, hv⟩ := Option.ne_none_iff_exists'.mp
    (h.tree.core.off_device x hl.mem hl.off).1
  refine ⟨v.length, q, _, ?_, hq, hr, hinv⟩
  have hpop := popChild_eq hq (h.shape.find_par hl.mem hq)
  have hv' : (s.cache.tree.nodes x).hostValue = some v := hv
  unfold dropHost recordRemoveEvent
  simp only [hv', hpop, bind, Except.bind, hostValue, Option.getD_some, dropHostLeaf, eraseHostLeaf]

theorem evictHostLoop_spec :
    ∀ fuel (s : HiState) heap k, HiInv hp s → heap.Nodup →
      (∀ x ∈ heap, HostLeaf s.tree s.nodes x) → s.nodes.card + heap.length < fuel →
      ∃ c A, evictHostLoop hp numTokens pick fuel s.cache heap k = .ok c ∧
        HiSteps hp s { s with cache := c, nodes := A } ∧
        SameDevice s.tree s.nodes c.tree A ∧
        ∀ n, (c.tree.nodes n).hostValue = (s.tree.nodes n).hostValue := by
  intro fuel
  induction fuel with
  | zero => intro s heap k _ _ _ hlt; omega
  | succ fuel ih =>
    intro s heap k h hnodup hheap hlt
    unfold evictHostLoop
    by_cases hcond : k < numTokens ∧ heap ≠ []
    · rw [if_pos hcond]
      have hx := pop_mem hcond.2 (pick fuel) 0
      have hxnot := pop_not_mem hnodup hcond.2 (pick fuel) 0
      set i := pick fuel % heap.length
      set x := heap.getD i 0
      have hleaf := hheap x hx
      have hxr : x ≠ s.tree.rootNode := fun e => hleaf.off (e ▸ h.tree.core.root_device)
      have hxr' : ¬ heap.getD i 0 = s.cache.tree.rootNode := hxr
      have hev : (s.cache.tree.nodes (heap.getD i 0)).evicted = true := evicted_iff.mpr hleaf.off
      have hi : i < heap.length := Nat.mod_lt _ (length_pos_of_ne_nil hcond.2)
      have hlen := length_eraseIdx_add_one hi
      have hsub := eraseIdx_sublist heap i
      by_cases href : 0 < s.cache.ledger.hostRefCounter x
      · -- a node that a storage operation refers to is passed over
        have href' : 0 < s.cache.ledger.hostRefCounter (heap.getD i 0) := href
        simp only [hxr', hev, if_false, if_pos href']
        exact ih s _ k h (hnodup.sublist hsub) (fun y hy => hheap y (hsub.mem hy)) (by omega)
      have href' : ¬ 0 < s.cache.ledger.hostRefCounter (heap.getD i 0) := href
      obtain ⟨v, q, t, hdrop, hq, hr, hinv⟩ := dropHost_spec h hleaf
      have hstep := HiStep.dropHost hleaf hr hinv (Nat.eq_zero_of_not_pos href)
      have hback := (h.tree.core.off_device x hleaf.mem hleaf.off).1
      -- the parent had a backed-up child, so it was not in the heap
      have hqheap : q ∉ heap := fun hmem => (hheap q hmem).childless x hleaf.mem hq hback
      set heap' := if (t.nodes q).childList = [] ∧ (t.nodes q).evicted
        then heap.eraseIdx i ++ [q] else heap.eraseIdx i with hheap'
      have hnodup' : heap'.Nodup := by
        rw [hheap']
        split_ifs
        · exact nodup_append.mpr ⟨hnodup.sublist hsub, nodup_singleton q,
            fun a ha b hb hab => hqheap (by
              rw [mem_singleton] at hb
              exact hb ▸ hab ▸ hsub.mem ha)⟩
        · exact hnodup.sublist hsub
      have hold : ∀ y ∈ heap.eraseIdx i, HostLeaf t (s.nodes.erase x) y := by
        intro y hy
        have hyheap := hsub.mem hy
        rw [hr.hostLeaf_iff (fun e => hxnot (e ▸ hy)) fun hxy => ?_]
        · exact hheap y hyheap
        · rw [hq] at hxy
          exact absurd ((Option.some.inj hxy) ▸ hyheap) hqheap
      have hleaves : ∀ y ∈ heap', HostLeaf t (s.nodes.erase x) y := by
        intro y hy
        rw [hheap'] at hy
        split_ifs at hy with hpush
        · rcases mem_append.mp hy with hy | hy
          · exact hold y hy
          · rw [mem_singleton] at hy
            subst hy
            have hqA := h.shape.rooted.mem_of_par hleaf.mem hq
            have hqx : y ≠ x := fun e => hqheap (e ▸ hx)
            have hqA' := Finset.mem_erase.mpr ⟨hqx, hqA⟩
            refine ⟨hqA', evicted_iff.mp hpush.2, ?_⟩
            intro c hc hcy
            exact absurd hcy ((hinv.core.shape.childList_eq_nil hqA').mp hpush.1 c hc)
        · exact hold y hy
      have hlen' : heap'.length ≤ heap.length := by
        rw [hheap']
        split_ifs
        · rw [length_append, length_singleton]
          omega
        · omega
      have hcard : (s.nodes.erase x).card + heap'.length < fuel := by
        rw [Finset.card_erase_of_mem hleaf.mem]
        have := Finset.card_pos.mpr ⟨x, hleaf.mem⟩
        omega
      obtain ⟨c, A, hrun, hsteps, hsame, hhost⟩ :=
        ih _ heap' (k + v) (hstep.inv h) hnodup' hleaves hcard
      refine ⟨c, A, ?_, .head hstep hsteps, ?_, ?_⟩
      · have hdrop' : s.cache.dropHost hp (heap.getD i 0) = _ := hdrop
        simp only [hxr', hev, if_false, href', hdrop', bind, Except.bind]
        exact hrun
      · refine SameDevice.trans ⟨hr.counter_eq, hr.root_eq, hr.par_eq, hr.key_eq, hr.value_eq,
          Finset.erase_subset _ _, ?_⟩ hsame
        intro n hn hd
        exact Finset.mem_erase.mpr ⟨fun e => hleaf.off (e ▸ hd), hn⟩
      · exact fun n => (hhost n).trans (hr.host_eq n)
    · rw [if_neg hcond]
      exact ⟨s.cache, s.nodes, rfl, .refl, SameDevice.refl _ _, fun _ => rfl⟩

theorem evictHost_spec (h : HiInv hp s) (numTokens : Nat) (pick : Nat → Nat) :
    ∃ c A, s.cache.evictHost hp numTokens pick = .ok c ∧
      HiSteps hp s { s with cache := c, nodes := A } ∧ SameDevice s.tree s.nodes c.tree A ∧
      ∀ n, (c.tree.nodes n).hostValue = (s.tree.nodes n).hostValue := by
  have hleaf : ∀ x ∈ s.tree.evictableHostLeaves.elems, HostLeaf s.tree s.nodes x := fun x hx =>
    h.tree.mem_hostLeaves.mp hx
  refine evictHostLoop_spec _ s _ _ h s.tree.evictableHostLeaves.nodup hleaf ?_
  have hcard := h.shape.card_le
  have hheap := ListSet.length_le_card fun x hx => (hleaf x hx).mem
  show s.nodes.card + s.tree.evictableHostLeaves.elems.length < 2 * s.tree.counter + 1
  omega

/-! ## Writing to the host -/

section

variable (h : HiInv hp s) (hn : n ∈ s.nodes) (hd : s.tree.onDevice n)
include h hn hd

theorem value_length : (s.tree.deviceValue n).length = s.tree.len n :=
  h.tree.core.value_len n hn _ (value_of_onDevice hd)

theorem writeOrEvict_spec (pick : Nat → Nat) :
    ∃ c A, HiSteps hp s { s with cache := c, nodes := A } ∧ SameDevice s.tree s.nodes c.tree A ∧
      (∀ m, (c.tree.nodes m).hostValue = (s.tree.nodes m).hostValue) ∧
      (s.cache.writeOrEvict hp (s.tree.deviceValue n) n pick = .ok (none, c) ∨
        ∃ v hpool, c.hostPool.alloc (s.tree.deviceValue n).length = .ok (some v, hpool) ∧
          v.length = s.tree.len n ∧
          s.cache.writeOrEvict hp (s.tree.deviceValue n) n pick =
            .ok (some v, { c with
              hostPool := hpool
              ackWriteQueue := c.ackWriteQueue ++ [[n]] })) := by
  have hlen := value_length h hn hd
  have hdvd : ∀ r : HiState, HiInv hp r → r.cache.hostPool.pageSize ∣
      (s.tree.deviceValue n).length := by
    intro r hr
    rw [hr.host_page, hlen]
    exact h.shape.len_dvd n hn
  rcases HostPool.alloc_cases (hdvd s h) with ⟨hnone, _⟩ | ⟨v, hpool, hsome, hv⟩
  · obtain ⟨c, A, hrun, hsteps, hsame, hhost⟩ :=
      evictHost_spec h (s.tree.deviceValue n).length pick
    refine ⟨c, A, hsteps, hsame, hhost, ?_⟩
    have hfirst : s.cache.writeOrEvict hp (s.tree.deviceValue n) n pick =
        c.write (s.tree.deviceValue n) n := by
      unfold writeOrEvict write
      simp only [hnone, bind, Except.bind]
      have hrun' : evictHost hp { s.cache with hostPool := s.cache.hostPool }
        (s.tree.deviceValue n).length pick = .ok c := hrun
      rw [hrun']
    rw [hfirst]
    unfold write
    rcases HostPool.alloc_cases (hdvd _ (hsteps.inv h)) with ⟨hnone', _⟩ | ⟨v, hpool, hsome, hv⟩
    · left
      have hnone'' : c.hostPool.alloc (s.tree.deviceValue n).length = .ok (none, c.hostPool) :=
        hnone'
      simp only [hnone'', bind, Except.bind]
    · right
      refine ⟨v, hpool, hsome, hv.trans hlen, ?_⟩
      have hsome' : c.hostPool.alloc (s.tree.deviceValue n).length = .ok (some v, hpool) := hsome
      simp only [hsome', bind, Except.bind]
  · refine ⟨s.cache, s.nodes, .refl, SameDevice.refl _ _, fun _ => rfl,
      .inr ⟨v, hpool, hsome, hv.trans hlen, ?_⟩⟩
    unfold writeOrEvict write
    simp only [hsome, bind, Except.bind]

theorem recordWrite_spec {hpool : HostPool} (hb : ¬ s.tree.backedUp n) (hq : s.tree.par n = some q)
    (hqb : s.tree.backedUp q)
    (halloc : s.cache.hostPool.alloc (s.tree.deviceValue n).length = .ok (some v, hpool))
    (hv : v.length = s.tree.len n) :
    ∃ c, recordWrite hp { s.cache with
          hostPool := hpool
          ackWriteQueue := s.cache.ackWriteQueue ++ [[n]] } n v false = .ok c ∧
      HiStep hp s { s with cache := c } ∧ SameDevice s.tree s.nodes c.tree s.nodes := by
  have hnr := h.shape.rooted.ne_root_of_par hq
  have hpos := h.shape.len_pos n hn hnr
  set flag := hp.isHybridWriteThrough && (s.tree.nodes n).hicacheDemoteAfterWrite
  set f : TreeNode → TreeNode := fun x =>
    { x with
      hostValue := some v
      hicacheDemoteAfterWrite := if flag then false else x.hicacheDemoteAfterWrite }
  set u := s.tree.modify n f
  obtain ⟨hinv, hud⟩ := backup_treeInv (f := f) (fun _ => rfl) h.tree hn hd hq hqb hv
  obtain ⟨d, t, hrun, hl, hinv'⟩ := incLockRef_tree hinv hn hud
  have hbackup : IsBackup s.tree t n v := .of_modify (fun _ => rfl) hl
  have hnew : n ∉ s.cache.ongoingWriteThrough := fun hmem => hb (h.writes_backed n hmem)
  have hlen : ¬ v.length = 0 := by omega
  have hlock : ∀ c : HiCache, c.tree = u → c.incLockRef n = .ok (d, c.withTree t) := by
    intro c hc
    rw [HiCache.incLockRef, hc, hrun]
    rfl
  refine ⟨{ s.cache with
      tree := t
      hostPool := hpool
      ongoingWriteThrough := n :: s.cache.ongoingWriteThrough
      ackWriteQueue := s.cache.ackWriteQueue ++ [[n]]
      hybridWriteDemoteNodeIds := if flag then s.cache.hybridWriteDemoteNodeIds.insert n
        else s.cache.hybridWriteDemoteNodeIds
      ledger := s.cache.ledger.copyToHost n }, ?_, HiStep.backup hn hd hb halloc hbackup hinv',
    ⟨hbackup.counter_eq, hbackup.root_eq, hbackup.par_eq, hbackup.key_eq, hbackup.value_eq,
      subset_rfl, fun _ hm _ => hm⟩⟩
  unfold recordWrite
  simp only [hlen, Bool.false_eq_true, bind, Except.bind, insert_of_not_mem hnew]
  rw [hlock]
  · rfl
  · rfl

end

theorem writeBackup_spec (h : HiInv hp s) (hn : n ∈ s.nodes) (hr : n ≠ s.tree.rootNode)
    (hd : s.tree.onDevice n) (hb : ¬ s.tree.backedUp n) (pick : Nat → Nat) :
    ∃ k c A, s.cache.writeBackup hp n false pick = .ok (k, c) ∧
      HiSteps hp s { s with cache := c, nodes := A } ∧ SameDevice s.tree s.nodes c.tree A := by
  obtain ⟨q, hqA, hq⟩ := h.shape.rooted.par_mem hn hr
  have hq' : (s.cache.tree.nodes n).parent = some q := hq
  have hvalue := value_of_onDevice hd
  unfold writeBackup
  simp only [hq', Bool.not_false, true_and]
  by_cases hparent : q ≠ s.cache.tree.rootNode ∧ ¬ (s.cache.tree.nodes q).backuped = true
  · rw [if_pos hparent]
    exact ⟨0, s.cache, s.nodes, rfl, .refl, SameDevice.refl _ _⟩
  · rw [if_neg hparent]
    have hqb : s.tree.backedUp q := by
      by_contra hno
      refine hparent ⟨?_, mt backuped_iff.mp hno⟩
      rintro rfl
      exact hno h.tree.core.root_backed
    obtain ⟨c, A, hsteps, hsame, hhost, hrun⟩ := writeOrEvict_spec h hn hd pick
    have hback : ∀ m, c.tree.backedUp m ↔ s.tree.backedUp m := fun m => backedUp_congr (hhost m)
    rcases hrun with hnone | ⟨v, hpool, halloc, hv, hsome⟩
    · refine ⟨0, c, A, ?_, hsteps, hsame⟩
      simp only [hvalue, hnone, bind, Except.bind]
    · have hval : c.tree.deviceValue n = s.tree.deviceValue n := deviceValue_congr (hsame.value_eq _)
      obtain ⟨c', hrec, hstep, hsame'⟩ := recordWrite_spec
        (hsteps.inv h) (hsame.device_mem n hn hd) ((hsame.onDevice_iff n).mpr hd)
        (mt (hback n).mp hb) ((hsame.par_eq n).trans hq) ((hback q).mpr hqb) (hval ▸ halloc)
        (by rw [hv, hsame.len_eq])
      refine ⟨v.length, c', A, ?_, hsteps.tail hstep, hsame.trans hsame'⟩
      simp only [hvalue, hsome, bind, Except.bind]
      rw [hrec]

theorem book_tree (hs : IsSame s.tree t) : HiStep hp s { s with cache := s.cache.withTree t } :=
  .book hs rfl rfl rfl rfl rfl rfl rfl

theorem incHitCount_spec (h : HiInv hp s) (hn : n ∈ s.nodes) (hr : n ≠ s.tree.rootNode)
    (hd : s.tree.onDevice n) (chunked : Bool) (pick : Nat → Nat) :
    ∃ c A, s.cache.incHitCount hp n chunked pick = .ok c ∧
      HiSteps hp s { s with cache := c, nodes := A } ∧ SameDevice s.tree s.nodes c.tree A := by
  unfold HiCache.incHitCount
  split_ifs with hskip
  · exact ⟨s.cache, s.nodes, rfl, .refl, SameDevice.refl _ _⟩
  · set t := s.tree.modify n fun x => { x with hitCount := x.hitCount + 1 }
    have hsame : IsSame s.tree t := modify_isSame (fun _ => rfl)
    have hstep : HiStep hp s { s with cache := s.cache.withTree t } := book_tree hsame
    show ∃ c A, (if ¬ (t.nodes n).backuped = true ∧ _ then _ else _) = _ ∧ _
    split_ifs with hwrite
    · obtain ⟨k, c, A, hrun, hsteps, hdev⟩ := writeBackup_spec (hstep.inv h) hn
        (fun e => hr (e.trans hsame.root_eq)) ((hsame.onDevice_iff n).mpr hd)
        (mt backuped_iff.mpr hwrite.1) pick
      have hrun' : (s.cache.withTree t).writeBackup hp n false pick = .ok (k, c) := hrun
      refine ⟨c, A, ?_, .head hstep hsteps,
        (SameDevice.of_isSame hsame).trans hdev⟩
      rw [hrun']
      rfl
    · exact ⟨_, s.nodes, rfl, .single hstep, SameDevice.of_isSame hsame⟩

/-! ## Demotion -/

theorem emptyNode_evicted (t : RadixTree) (A : Finset NodeId) (x q : NodeId) (k : Nat) :
    Evicted t A x (repair (emptyNode t x k) x q) A := by
  have ht := emptyNode_isTouch t x k
  have hself := emptyNode_self t x k
  have hoff : ∀ n, (emptyNode t x k).onDevice n ↔ t.onDevice n ∧ n ≠ x := by
    intro n
    by_cases hn : n = x
    · subst hn
      rw [onDevice, hself]
      simp
    · rw [ht.onDevice_iff hn]
      exact (and_iff_left hn).symm
  refine ⟨⟨rfl, rfl, ht.par_eq, ht.key_eq, ?_, subset_rfl, ?_, ?_⟩, ?_, ?_⟩
  · intro n
    show ((emptyNode t x k).nodes n).hostValue = _
    by_cases hn : n = x
    · rw [hn, hself]
    · exact ht.host_eq n hn
  · exact fun n hn hd => ⟨hn, fun hd' => hd ((hoff n).mp hd').1⟩
  · exact fun n hd => ht.value_eq n ((hoff n).mp hd).2
  · intro n
    show n ∈ A ∧ (emptyNode t x k).onDevice n ↔ _
    rw [hoff, and_assoc]
  · intro n
    show ((emptyNode t x k).nodes n).lockRef = _
    by_cases hn : n = x
    · rw [hn, hself]
    · exact ht.lock_eq n hn

theorem Evicted.of_remove {p : CacheParams} {t' : RadixTree} {A : Finset NodeId}
    (hr : IsRemove p.pageSize t t' x) (hd : t.onDevice x) : Evicted t A x t' (A.erase x) := by
  refine ⟨⟨hr.counter_eq, hr.root_eq, hr.par_eq, hr.key_eq, hr.host_eq, Finset.erase_subset _ _, ?_,
    fun n _ => hr.value_eq n⟩, ?_, hr.lock_eq⟩
  · intro n hn hoff
    exact ⟨Finset.mem_erase.mpr ⟨fun e => hoff (e ▸ hd), hn⟩,
      fun hd' => hoff ((hr.onDevice_iff n).mp hd')⟩
  · intro n
    rw [Finset.mem_erase, hr.onDevice_iff]
    tauto

theorem evictBackuped_spec (h : HiInv hp s) (hl : DeviceLeaf s.tree s.nodes x)
    (hb : s.tree.backedUp x) :
    ∃ c, s.cache.evictBackuped hp x = .ok (s.tree.len x, c) ∧ HiStep hp s { s with cache := c } ∧
      Evicted s.tree s.nodes x c.tree s.nodes ∧ SameQueues s.cache c ∧
      c.hybridPendingDeviceDemotions = s.cache.hybridPendingDeviceDemotions := by
  obtain ⟨q, _, hq⟩ := h.shape.rooted.par_mem hl.mem hl.ne_root
  have hlen := value_length h hl.mem hl.device
  have hpos := h.shape.len_pos x hl.mem hl.ne_root
  have hq' : (s.cache.tree.nodes x).parent = some q := hq
  have hvalue := value_of_onDevice hl.device
  refine ⟨_, ?_, HiStep.demote hl hb hq, emptyNode_evicted s.tree s.nodes x q (s.tree.len x),
    ⟨rfl, rfl, rfl⟩, rfl⟩
  unfold evictBackuped recordRemoveEvent
  have hne : ¬ (s.tree.deviceValue x).length = 0 := by omega
  simp only [hq', hvalue, hne, bind, Except.bind]
  rw [hlen]
  rfl

/-- A node below the root, on both tiers. -/
structure Movable (t : RadixTree) (n : NodeId) : Prop where
  ne_root : n ≠ t.rootNode
  device : t.onDevice n
  backed : t.backedUp n

/-- What a visit of `n` does in hybrid write-through mode: a locked node becomes pending, any other
is pending no more, and it leaves the device unless a child is there. -/
structure Tried (s : HiState) (n : NodeId) (c : HiCache) : Prop where
  pending_self : Movable s.tree n →
    (n ∈ c.hybridPendingDeviceDemotions ↔ 0 < (s.tree.nodes n).lockRef)
  pending_other : ∀ m, ¬ (m = n ∧ Movable s.tree n) →
    (m ∈ c.hybridPendingDeviceDemotions ↔ m ∈ s.cache.hybridPendingDeviceDemotions)
  demoted : DeviceLeaf s.tree s.nodes n → s.tree.backedUp n →
    Evicted s.tree s.nodes n c.tree s.nodes
  kept : ¬ (DeviceLeaf s.tree s.nodes n ∧ s.tree.backedUp n) → c.tree = s.tree

theorem tryHybridDemoteDeviceNode_spec (h : HiInv hp s) (n : NodeId) :
    ∃ b c, s.cache.tryHybridDemoteDeviceNode hp n = .ok (b, c) ∧
      HiSteps hp s { s with cache := c } ∧ SameQueues s.cache c ∧
      (hp.isHybridWriteThrough = true → Tried s n c) := by
  unfold tryHybridDemoteDeviceNode
  by_cases hmode : ¬ hp.isHybridWriteThrough = true
  · rw [if_pos hmode]
    exact ⟨false, s.cache, rfl, .refl, .refl _, fun hm => absurd hm hmode⟩
  rw [if_neg hmode]
  by_cases hskip : n = s.cache.tree.rootNode ∨ (s.cache.tree.nodes n).evicted = true ∨
      ¬ (s.cache.tree.nodes n).backuped = true
  · rw [if_pos hskip]
    have hno : ¬ Movable s.tree n := by
      rintro ⟨hr, hd, hb⟩
      exact hskip.elim hr (Or.rec (fun he => evicted_iff.mp he hd) fun hn => hn (backuped_iff.mpr hb))
    exact ⟨false, s.cache, rfl, .refl, .refl _, fun _ => ⟨fun hm => absurd hm hno, fun _ _ => Iff.rfl,
      fun hl hb => absurd ⟨hl.ne_root, hl.device, hb⟩ hno, fun _ => rfl⟩⟩
  rw [if_neg hskip]
  obtain ⟨hroot, hrest⟩ := not_or.mp hskip
  obtain ⟨hdev, hback⟩ := not_or.mp hrest
  have hd : s.tree.onDevice n := not_not.mp (mt evicted_iff.mpr hdev)
  have hb : s.tree.backedUp n := backuped_iff.mp (not_not.mp hback)
  have hmov : Movable s.tree n := ⟨hroot, hd, hb⟩
  by_cases hlock : 0 < (s.cache.tree.nodes n).lockRef
  · rw [if_pos hlock]
    refine ⟨false, _, rfl, .single (.book (.refl _) rfl rfl rfl rfl rfl rfl rfl), ⟨rfl, rfl, rfl⟩,
      fun _ => ⟨fun _ => ?_, fun m hm => ?_, fun hl => ?_, fun _ => rfl⟩⟩
    · exact iff_of_true (ListSet.mem_insert.mpr (.inl rfl)) hlock
    · exact ListSet.mem_insert.trans (or_iff_right fun e => hm ⟨e, hmov⟩)
    · exact absurd hl.unlocked (ne_of_gt hlock)
  rw [if_neg hlock]
  have hself : n ∈ s.cache.hybridPendingDeviceDemotions.erase n ↔ 0 < (s.tree.nodes n).lockRef :=
    iff_of_false (fun hm => (ListSet.mem_erase.mp hm).1 rfl) hlock
  have hother : ∀ m, ¬ (m = n ∧ Movable s.tree n) →
      (m ∈ s.cache.hybridPendingDeviceDemotions.erase n ↔
        m ∈ s.cache.hybridPendingDeviceDemotions) := fun m hm =>
    ListSet.mem_erase.trans (and_iff_right fun e => hm ⟨e, hmov⟩)
  -- a node on both tiers is in the tree
  have hn : n ∈ s.nodes := by
    by_contra hno
    exact h.stale n hno hd hb
  by_cases hchild : ∃ x ∈ (s.tree.nodes n).childList, ¬ (s.tree.nodes x).evicted = true
  · refine ⟨false, _, if_pos hchild, .single (.book (.refl _) rfl rfl rfl rfl rfl rfl rfl),
      ⟨rfl, rfl, rfl⟩, fun _ => ⟨fun _ => hself, hother, fun hl => ?_, fun _ => rfl⟩⟩
    exact absurd hchild ((deviceLeaf_iff_status h.tree.core hn).mp hl).2
  · have hl : DeviceLeaf s.tree s.nodes n :=
      (deviceLeaf_iff_status h.tree.core hn).mpr ⟨not_or.mpr ⟨hdev, hlock⟩, hchild⟩
    have hbook : HiStep hp s { s with cache := { s.cache with
        hybridPendingDeviceDemotions := s.cache.hybridPendingDeviceDemotions.erase n } } :=
      .book (.refl _) rfl rfl rfl rfl rfl rfl rfl
    obtain ⟨c, hrun, hstep, hev, hq, hpend⟩ := evictBackuped_spec (hbook.inv h) hl hb
    refine ⟨true, c, (if_neg hchild).trans ?_, .head hbook (.single hstep),
      ⟨hq.ackWrite_eq, hq.load_eq, hq.ackLoad_eq⟩, fun _ => ⟨fun _ => by rw [hpend]; exact hself,
      fun m hm => by rw [hpend]; exact hother m hm, fun _ _ => hev,
      fun hno => absurd ⟨hl, hb⟩ hno⟩⟩
    rw [hrun]
    rfl

theorem demoteAll_spec : ∀ (ns : List NodeId) (s : HiState), HiInv hp s →
    ∃ c, demoteAll hp s.cache ns = .ok c ∧ HiSteps hp s { s with cache := c } ∧
      SameQueues s.cache c := by
  intro ns
  induction ns with
  | nil => exact fun s _ => ⟨s.cache, rfl, .refl, .refl _⟩
  | cons n ns ih =>
    intro s h
    obtain ⟨b, c, hrun, hsteps, hq, _⟩ := tryHybridDemoteDeviceNode_spec h n
    obtain ⟨c', hrun', hsteps', hq'⟩ := ih _ (hsteps.inv h)
    refine ⟨c', ?_, hsteps.trans hsteps', hq.trans hq'⟩
    unfold demoteAll
    rw [hrun]
    exact hrun'

theorem drainHybridPendingDemotions_spec (h : HiInv hp s) (pick : Nat → Nat) :
    ∃ c, s.cache.drainHybridPendingDemotions hp pick = .ok c ∧
      HiSteps hp s { s with cache := c } ∧ SameQueues s.cache c := by
  unfold drainHybridPendingDemotions
  by_cases hmode : ¬ hp.isHybridWriteThrough = true
  · rw [if_pos hmode]
    exact ⟨_, rfl, .single (.book (.refl _) rfl rfl rfl rfl rfl rfl rfl), ⟨rfl, rfl, rfl⟩⟩
  · rw [if_neg hmode]
    exact demoteAll_spec _ s h

theorem demoteHybridLoadBackTailForReq_spec (h : HiInv hp s) (rid : Nat) :
    ∃ c, s.cache.demoteHybridLoadBackTailForReq hp rid = .ok c ∧
      HiSteps hp s { s with cache := c } := by
  have hbook : HiStep hp s { s with cache := s.cache.forgetHybridLoadBackNodes rid } :=
    .book (.refl _) rfl rfl rfl rfl rfl rfl rfl
  obtain ⟨c, hrun, hsteps, _⟩ := demoteAll_spec
    (s.cache.selectHybridLoadBackTailNodes hp (orderedNodes s.cache.tree
      ((s.cache.hybridLoadBackNodesByReqid.lookup rid).getD []))) _ (hbook.inv h)
  exact ⟨c, hrun, .head hbook hsteps⟩

/-! ## Acknowledgements -/

theorem ackDemote_spec (h : HiInv hp s) (x : NodeId) :
    ∃ c, (if x ∈ s.cache.hybridWriteDemoteNodeIds then do
        let (_, c) ← tryHybridDemoteDeviceNode hp { s.cache with
          hybridWriteDemoteNodeIds := s.cache.hybridWriteDemoteNodeIds.erase x } x
        Except.ok c
      else .ok s.cache) = .ok c ∧ HiSteps hp s { s with cache := c } ∧ SameQueues s.cache c ∧
      (x ∈ s.cache.hybridWriteDemoteNodeIds → hp.isHybridWriteThrough = true → Tried s x c) := by
  split_ifs with hmem
  · have hbook : HiStep hp s { s with cache := { s.cache with
        hybridWriteDemoteNodeIds := s.cache.hybridWriteDemoteNodeIds.erase x } } :=
      .book (.refl _) rfl rfl rfl rfl rfl rfl rfl
    obtain ⟨b, c, hrun, hsteps, hq, ht⟩ := tryHybridDemoteDeviceNode_spec (hbook.inv h) x
    refine ⟨c, ?_, .head hbook hsteps,
      ⟨hq.ackWrite_eq, hq.load_eq, hq.ackLoad_eq⟩, fun _ hmode => ?_⟩
    · rw [hrun]
      rfl
    · obtain ⟨hself, hother, hdem, hkept⟩ := ht hmode
      exact ⟨hself, hother, hdem, hkept⟩
  · exact ⟨s.cache, rfl, .refl, .refl _, fun hx => absurd hx hmem⟩

theorem ackWrite_spec (h : HiInv hp s) (hx : x ∈ s.ackedWrites) :
    ∃ c t, ackWrite hp false s.cache x = .ok c ∧
      HiSteps hp s { s with cache := c, ackedWrites := s.ackedWrites.erase x } ∧
      IsRelock s.tree t (pathDelta s.tree.par s.tree.rootNode x (-1)) ∧
      (x ∈ s.cache.hybridWriteDemoteNodeIds → hp.isHybridWriteThrough = true →
        Tried { s with cache := s.cache.withTree t } x c) := by
  have hmem := h.acked_mem hx
  obtain ⟨d, t, hdec, hl, hinv⟩ := decLockRef_spec h (HiInv.write_mem_locks hmem)
  have hstep := HiStep.ackWrite hx hl hinv
  obtain ⟨c, hrun, hsteps, _, ht⟩ := ackDemote_spec (hstep.inv h) x
  refine ⟨c, t, ?_, .head hstep hsteps, hl, fun hid hmode => ?_⟩
  · unfold ackWrite
    rw [if_neg (not_not.mpr hmem)]
    simp only [bind, Except.bind]
    rw [hdec]
    · exact hrun
    · rfl
  · obtain ⟨hself, hother, hdem, hkept⟩ := ht hid hmode
    exact ⟨hself, hother, hdem, hkept⟩

theorem ackWrites_spec : ∀ (ns : List NodeId) (s : HiState), HiInv hp s → s.ackedWrites = ns →
    ∃ c, ackWrites hp false s.cache ns = .ok c ∧
      HiSteps hp s { s with cache := c, ackedWrites := [] } := by
  intro ns
  induction ns with
  | nil =>
    intro s _ hacked
    refine ⟨s.cache, rfl, ?_⟩
    rw [← hacked]
  | cons n ns ih =>
    intro s h hacked
    obtain ⟨c, _, hrun, hsteps, _⟩ := ackWrite_spec h (hacked ▸ mem_cons_self)
    obtain ⟨c', hrun', hsteps'⟩ := ih _ (hsteps.inv h) (by rw [hacked, erase_cons_head])
    refine ⟨c', ?_, hsteps.trans hsteps'⟩
    unfold ackWrites
    rw [hrun]
    exact hrun'

theorem writingCheck_spec (h : HiInv hp s) (hacked : s.ackedWrites = []) (finished : Nat) :
    ∃ c, s.cache.writingCheck hp finished = .ok c ∧ HiSteps hp s { s with cache := c } := by
  unfold writingCheck
  split_ifs with hempty
  · exact ⟨s.cache, rfl, .refl⟩
  · have hbook : HiStep hp s { s with
        cache := { s.cache with ackWriteQueue := s.cache.ackWriteQueue.drop finished }
        ackedWrites := (s.cache.ackWriteQueue.take finished).flatten } := by
      refine .book (.refl _) rfl rfl rfl rfl ?_ rfl rfl
      rw [dueWrites, hacked, ← flatten_append, take_append_drop, nil_append]
    obtain ⟨c, hrun, hsteps⟩ := ackWrites_spec _ _ (hbook.inv h) rfl
    refine ⟨c, hrun, .head hbook ?_⟩
    rw [hacked]
    exact hsteps

theorem ackWrites_leak_spec : ∀ (ns : List NodeId) (s : HiState), HiInv hp s →
    s.ackedWrites = ns →
    ∃ c, ackWrites hp true s.cache ns = .ok c ∧
      HiSteps hp s { s with cache := c, holders := ns.reverse ++ s.holders, ackedWrites := [] } ∧
      SameQueues s.cache c := by
  intro ns
  induction ns with
  | nil =>
    intro s _ hacked
    refine ⟨s.cache, rfl, ?_, .refl _⟩
    show HiSteps hp s { s with ackedWrites := [] }
    rw [← hacked]
  | cons n ns ih =>
    intro s h hacked
    have hx : n ∈ s.ackedWrites := hacked ▸ mem_cons_self
    have hstep : HiStep hp s _ := HiStep.leakWrite hx
    obtain ⟨c, hrun, hsteps, hq, _⟩ := ackDemote_spec (hstep.inv h) n
    have hsteps1 : HiSteps hp s _ := .head hstep hsteps
    obtain ⟨c', hrun', hsteps', hq'⟩ := ih _ (hsteps1.inv h) (by rw [hacked, erase_cons_head])
    refine ⟨c', ?_, ?_, SameQueues.trans ⟨hq.ackWrite_eq, hq.load_eq, hq.ackLoad_eq⟩ hq'⟩
    · have hack : ackWrite hp true s.cache n = .ok c := by
        unfold ackWrite
        rw [if_neg (not_not.mpr (h.acked_mem hx))]
        exact hrun
      unfold ackWrites
      rw [hack]
      exact hrun'
    · have := hsteps1.trans hsteps'
      rwa [reverse_cons, append_assoc]

theorem writingCheckBlocking_spec (h : HiInv hp s) (hacked : s.ackedWrites = []) :
    ∃ c, s.cache.writingCheckBlocking hp = .ok c ∧ c.ongoingWriteThrough = [] ∧
      c.loadQueue = s.cache.loadQueue ∧ HiSteps hp s { s with
        cache := c
        holders := s.cache.ackWriteQueue.flatten.reverse ++ s.holders } := by
  unfold writingCheckBlocking
  have hdue : s.dueWrites = s.cache.ackWriteQueue.flatten := by
    rw [dueWrites, hacked, nil_append]
  split_ifs with hempty
  · have hnil : s.cache.ackWriteQueue.flatten = [] := by
      have := h.writes
      rw [hdue, hempty] at this
      exact this.eq_nil
    refine ⟨s.cache, rfl, hempty, rfl, ?_⟩
    rw [hnil]
    exact .refl
  · have hbook : HiStep hp s { s with
        cache := { s.cache with ackWriteQueue := [] }
        ackedWrites := s.cache.ackWriteQueue.flatten } := by
      refine .book (.refl _) rfl rfl rfl rfl ?_ rfl rfl
      rw [hdue, flatten_nil, append_nil]
    obtain ⟨c, hrun, hsteps, hq⟩ := ackWrites_leak_spec _ _ (hbook.inv h) rfl
    have hall : HiSteps hp s _ := .head hbook hsteps
    have hnone : c.ongoingWriteThrough = [] := by
      have hperm := (hall.inv h).writes
      rw [dueWrites, hq.ackWrite_eq] at hperm
      exact hperm.symm.eq_nil
    refine ⟨c, ?_, hnone, hq.load_eq, ?_⟩
    · rw [hrun]
      show (if c.ongoingWriteThrough ≠ [] then _ else _) = _
      rw [if_neg (not_not.mpr hnone)]
    · rw [hacked]
      exact hall

theorem ackLoad_spec (h : HiInv hp s) (hx : x ∈ s.ackedLoads) (pick : Nat → Nat) :
    ∃ c, s.cache.ackLoad hp x pick = .ok c ∧
      HiSteps hp s { s with cache := c, ackedLoads := s.ackedLoads.erase x } ∧
      SameQueues s.cache c := by
  have hmem := h.ackedLoad_mem hx
  obtain ⟨d, t, hdec, hl, hinv⟩ := decLockRef_spec h (HiInv.load_mem_locks hmem)
  have hstep := HiStep.ackLoad hx hl hinv
  obtain ⟨c, hrun, hsteps, hq⟩ := drainHybridPendingDemotions_spec (hstep.inv h) pick
  refine ⟨c, ?_, .head hstep hsteps, hq.ackWrite_eq, hq.load_eq,
    hq.ackLoad_eq⟩
  unfold ackLoad
  rw [if_neg (not_not.mpr hmem)]
  simp only
  rw [hdec]
  · exact hrun
  · rfl

theorem ackLoads_spec (pick : Nat → Nat → Nat) : ∀ (ns : List NodeId) (s : HiState),
    HiInv hp s → s.ackedLoads = ns →
    ∃ c, ackLoads hp pick s.cache ns = .ok c ∧
      HiSteps hp s { s with cache := c, ackedLoads := [] } ∧ SameQueues s.cache c := by
  intro ns
  induction ns with
  | nil =>
    intro s _ hacked
    refine ⟨s.cache, rfl, ?_, .refl _⟩
    rw [← hacked]
  | cons n ns ih =>
    intro s h hacked
    obtain ⟨c, hrun, hsteps, hq⟩ := ackLoad_spec h (hacked ▸ mem_cons_self)
      (pick ns.length)
    obtain ⟨c', hrun', hsteps', hq'⟩ := ih _ (hsteps.inv h) (by rw [hacked, erase_cons_head])
    refine ⟨c', ?_, hsteps.trans hsteps', hq.trans hq'⟩
    unfold ackLoads
    rw [hrun]
    exact hrun'

theorem drainLoadBackAcks_spec (h : HiInv hp s) (hacked : s.ackedLoads = []) (finished : Nat)
    (pick : Nat → Nat → Nat) :
    ∃ c, s.cache.drainLoadBackAcks hp finished pick = .ok c ∧
      HiSteps hp s { s with cache := c } ∧ c.ackWriteQueue = s.cache.ackWriteQueue ∧
      c.loadQueue = s.cache.loadQueue ∧
      c.ackLoadQueue = s.cache.ackLoadQueue.drop finished := by
  have hbook : HiStep hp s { s with
      cache := { s.cache with ackLoadQueue := s.cache.ackLoadQueue.drop finished }
      ackedLoads := (s.cache.ackLoadQueue.take finished).flatten } := by
    refine .book (.refl _) rfl rfl rfl rfl rfl ?_ rfl
    rw [dueLoads, hacked, nil_append, ← append_assoc, ← flatten_append, take_append_drop]
  obtain ⟨c, hrun, hsteps, hq⟩ := ackLoads_spec pick _ _ (hbook.inv h) rfl
  refine ⟨c, hrun, .head hbook ?_, hq.ackWrite_eq, hq.load_eq, hq.ackLoad_eq⟩
  rw [hacked]
  exact hsteps

theorem startLoading_step (s : HiState) : HiStep hp s { s with cache := s.cache.startLoading } := by
  unfold startLoading
  split_ifs with hempty
  · exact .book (.refl _) rfl rfl rfl rfl rfl rfl rfl
  · refine .book (.refl _) rfl rfl rfl rfl rfl ?_ rfl
    simp [dueLoads]

/-! ## The idle flush -/

theorem flushWrites_spec (h : HiInv hp s) (hacked : s.ackedWrites = []) (finished : Nat) :
    ∃ c leaked, s.cache.flushWrites hp finished = .ok c ∧ c.ongoingWriteThrough = [] ∧
      c.loadQueue = s.cache.loadQueue ∧ leaked.Perm s.cache.ongoingWriteThrough ∧
      HiSteps hp s { s with cache := c, holders := leaked ++ s.holders } := by
  have hdue : s.cache.ackWriteQueue.flatten.Perm s.cache.ongoingWriteThrough := by
    have := h.writes
    rwa [dueWrites, hacked] at this
  unfold flushWrites
  by_cases hnone : s.cache.ongoingWriteThrough = []
  · rw [if_neg fun hc => hc.1 hnone, writingCheck, if_pos hnone]
    exact ⟨s.cache, [], rfl, hnone, rfl, by rw [hnone], .refl⟩
  · have hqueue : s.cache.ackWriteQueue ≠ [] := by
      intro hq
      rw [hq] at hdue
      exact hnone hdue.symm.eq_nil
    rw [if_pos ⟨hnone, hqueue⟩]
    obtain ⟨c, hrun, hdone, hload, hsteps⟩ := writingCheckBlocking_spec h hacked
    exact ⟨c, _, hrun, hdone, hload, (reverse_perm _).trans hdue, hsteps⟩

theorem flushHicacheEventsOnIdle_spec (h : HiInv hp s) (hacked : s.ackedWrites = [])
    (hloads : s.ackedLoads = []) (finished : Nat) (pick : Nat → Nat → Nat) :
    ∃ c leaked, s.cache.flushHicacheEventsOnIdle hp finished pick = .ok c ∧
      c.ongoingWriteThrough = [] ∧
      c.ongoingLoadBack.Perm (s.cache.loadQueue.map LoadOp.nodeId) ∧
      leaked.Perm s.cache.ongoingWriteThrough ∧
      HiSteps hp s { s with cache := c, holders := leaked ++ s.holders } := by
  obtain ⟨c1, leaked, hrun1, hdone, hload1, hleaked, hsteps1⟩ := flushWrites_spec h hacked finished
  have h1 := hsteps1.inv h
  obtain ⟨c2, hrun2, hsteps2, hw2, hload2, hack2⟩ :=
    drainLoadBackAcks_spec h1 hloads c1.ackLoadQueue.length pick
  obtain ⟨c3, hrun3, hsteps3, hq⟩ := drainHybridPendingDemotions_spec (hsteps2.inv h1) (pick 0)
  have h3 := hsteps3.inv (hsteps2.inv h1)
  refine ⟨c3, leaked, ?_, ?_, ?_, hleaked, (hsteps1.trans hsteps2).trans hsteps3⟩
  · unfold flushHicacheEventsOnIdle
    have hrun2' : c1.drainLoadBackAcks hp c1.ackLoadQueue.length pick = .ok c2 := hrun2
    have hrun3' : c2.drainHybridPendingDemotions hp (pick 0) = .ok c3 := hrun3
    simp only [hrun1, hrun2', hrun3', bind, Except.bind]
  · have hflat : c1.ackWriteQueue.flatten = [] := by
      have hperm := h1.writes
      rw [dueWrites, hacked, hdone] at hperm
      exact hperm.eq_nil
    have hperm := h3.writes
    rw [dueWrites, hq.ackWrite_eq, hw2, hflat, hacked] at hperm
    exact hperm.symm.eq_nil
  · have hperm := h3.loads
    rw [dueLoads, hloads, hq.ackLoad_eq, hq.load_eq, hload2, hload1, hack2,
      drop_length] at hperm
    exact hperm.symm

end Fluxfer.Hi
