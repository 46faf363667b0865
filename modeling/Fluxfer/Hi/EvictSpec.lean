import Fluxfer.Hi.Spec

/-!
# `evict` and `load_back`

In hybrid write-through mode the heap of `evict` is filled again with the leaves that have become
evictable, otherwise a parent joins the heap when its last child on the device has gone. `load_back`
puts a chain of nodes on the device, and evicts others for it if there is not enough room.
-/

namespace Fluxfer.Hi

open Radix ParentTree Memory HiCache List Option Nat

variable {p : CacheParams} {t t' : RadixTree} {A A' : Finset NodeId} {n x a : NodeId}
  {heap ns : List NodeId} {v : List Nat} {alloc : Allocator}

/-! ## One eviction -/

/-- A node on the device without a child there: locked or not, the root or not. -/
structure Exposed (t : RadixTree) (A : Finset NodeId) (n : NodeId) : Prop where
  mem : n ∈ A
  device : t.onDevice n
  childless : ∀ c ∈ A, t.par c = some n → ¬ t.onDevice c

theorem Exposed.deviceLeaf (h : Exposed t A n) (hc : CoreOn p t A)
    (hlock : ¬ 0 < (t.nodes n).lockRef) : DeviceLeaf t A n := by
  refine ⟨h.mem, ?_, h.device, hc.lock_zero h.mem hlock, h.childless⟩
  rintro rfl
  rw [hc.root_lock] at hlock
  exact hlock Int.one_pos

theorem Evicted.exposed (h : Evicted t A x t' A') (hn : Exposed t A n) (hnx : n ≠ x) :
    Exposed t' A' n := by
  have hdev := (h.device_iff n).mpr ⟨⟨hn.mem, hn.device⟩, hnx⟩
  refine ⟨hdev.1, hdev.2, ?_⟩
  intro c hc hcn hd
  rw [h.par_eq] at hcn
  obtain ⟨⟨hcA, hcd⟩, _⟩ := (h.device_iff c).mp ⟨hc, hd⟩
  exact hn.childless c hcA hcn hcd

def onDeviceNodes (t : RadixTree) (A : Finset NodeId) : Finset NodeId :=
  A.filter fun n => t.onDevice n

theorem Evicted.onDeviceNodes_eq (h : Evicted t A x t' A') :
    onDeviceNodes t' A' = (onDeviceNodes t A).erase x := by
  ext n
  simp only [onDeviceNodes, Finset.mem_filter, Finset.mem_erase]
  rw [h.device_iff]
  exact and_comm

theorem Evicted.card (h : Evicted t A x t' A') (hx : x ∈ A) (hd : t.onDevice x) :
    (onDeviceNodes t' A').card + 1 = (onDeviceNodes t A).card := by
  rw [h.onDeviceNodes_eq]
  exact Finset.card_erase_add_one (Finset.mem_filter.mpr ⟨hx, hd⟩)

theorem evictableSize_eq (h : TreeInv p t A) :
    t.evictableSize = ∑ n ∈ onDeviceNodes t A, t.evictableWeight n := by
  rw [h.counts.evictable_eq, onDeviceNodes, Finset.sum_filter_of_ne]
  intro n _ hw
  by_contra hd
  exact hw (if_neg fun hfree => hd hfree.1)

theorem len_le_evictable (h : TreeInv p t A) (hl : DeviceLeaf t A x) :
    (t.len x : Int) ≤ t.evictableSize := by
  have hw : t.evictableWeight x = t.len x := if_pos ⟨hl.device, hl.unlocked⟩
  rw [h.counts.evictable_eq, ← hw]
  refine Finset.single_le_sum (fun n _ => ?_) hl.mem
  unfold RadixTree.evictableWeight
  split_ifs <;> positivity

theorem Evicted.evictable (h : Evicted t A x t' A') (hinv : TreeInv p t A)
    (hinv' : TreeInv p t' A') (hl : DeviceLeaf t A x) :
    t.evictableSize = t'.evictableSize + t.len x := by
  have hx : x ∈ onDeviceNodes t A := Finset.mem_filter.mpr ⟨hl.mem, hl.device⟩
  have hw : t.evictableWeight x = t.len x := if_pos ⟨hl.device, hl.unlocked⟩
  have hrest : ∀ n ∈ onDeviceNodes t' A', t'.evictableWeight n = t.evictableWeight n := by
    intro n hn
    have hd : t'.onDevice n := (Finset.mem_filter.mp hn).2
    have hd' : t.onDevice n := ((h.device_iff n).mp (Finset.mem_filter.mp hn)).1.2
    simp only [RadixTree.evictableWeight, hd, hd', h.lock_eq, RadixTree.len, h.key_eq]
  rw [evictableSize_eq hinv, evictableSize_eq hinv', Finset.sum_congr rfl hrest, h.onDeviceNodes_eq,
    ← hw]
  exact (Finset.sum_erase_add _ _ hx).symm

variable {hp : HiParams} {s : HiState}

theorem evictRegular_spec (h : HiInv hp s) (hl : DeviceLeaf s.tree s.nodes x)
    (hb : ¬ s.tree.backedUp x) :
    ∃ c, s.cache.evictRegular hp x = .ok (s.tree.len x, c) ∧
      HiStep hp s { s with cache := c, nodes := s.nodes.erase x } ∧
      Evicted s.tree s.nodes x c.tree (s.nodes.erase x) ∧ SameQueues s.cache c := by
  obtain ⟨t, hdel, hr, hinv⟩ := deleteLeaf_treeInv h.tree hl hb
  have hvalue := value_of_onDevice hl.device
  have hlen := value_length h hl.mem hl.device
  have hchildren : (s.cache.tree.nodes x).childList = [] := by
    refine (h.shape.childList_eq_nil hl.mem).mpr fun c hc hcx => ?_
    exact hb (h.tree.core.backed_par c hc x hcx
      (h.tree.core.off_device c hc (hl.childless c hc hcx)).1)
  refine ⟨_, ?_, HiStep.drop hl hb hr hinv, Evicted.of_remove hr hl.device, ⟨rfl, rfl, rfl⟩⟩
  unfold evictRegular recordRemoveEvent
  have hdel' : s.cache.tree.deleteLeaf hp.pageSize x = .ok t := hdel
  simp only [hchildren, hvalue, hdel', ne_eq, not_true_eq_false, if_false, bind, Except.bind]
  rw [hlen]

theorem evictNode_spec (hpol : hp.writePolicy ≠ .writeBack) (h : HiInv hp s)
    (hl : DeviceLeaf s.tree s.nodes x) (pick : Nat → Nat) :
    ∃ c A, s.cache.evictNode hp x pick = .ok (s.tree.len x, false, c) ∧
      HiStep hp s { s with cache := c, nodes := A } ∧ Evicted s.tree s.nodes x c.tree A ∧
      SameQueues s.cache c := by
  unfold evictNode
  by_cases hb : s.tree.backedUp x
  · obtain ⟨c, hrun, hstep, hev, hq, _⟩ := evictBackuped_spec h hl hb
    refine ⟨c, s.nodes, ?_, hstep, hev, hq⟩
    have hback : (s.cache.tree.nodes x).backuped = true := backuped_iff.mpr hb
    rw [if_neg (not_not.mpr hback), hrun]
    rfl
  · obtain ⟨c, hrun, hstep, hev, hq⟩ := evictRegular_spec h hl hb
    refine ⟨c, _, ?_, hstep, hev, hq⟩
    have hback : ¬ (s.cache.tree.nodes x).backuped = true := mt backuped_iff.mp hb
    rw [if_pos hback, if_neg hpol, hrun]
    rfl

/-- An unlocked node of the tree on the device, without a child there. -/
def HiCache.FreeLeaf (c : HiCache) (x : NodeId) : Prop :=
  c.tree.Attached x ∧ x ≠ c.tree.rootNode ∧ c.tree.onDevice x ∧ (c.tree.nodes x).lockRef = 0 ∧
    ∀ y, c.tree.Attached y → c.tree.par y = some x → ¬ c.tree.onDevice y

theorem freeLeaf_of_deviceLeaf (h : HiInv hp s) (hl : DeviceLeaf s.tree s.nodes x) :
    s.cache.FreeLeaf x :=
  ⟨h.shape.attached_iff.mpr hl.mem, hl.ne_root, hl.device, hl.unlocked,
    fun y hy => hl.childless y (h.shape.attached_iff.mp hy)⟩

/-- What one iteration of `evict` does with a node it does not skip. -/
def HiCache.evictOne (hp : HiParams) (c : HiCache) (x : NodeId) : Except CacheError HiCache := do
  let (_, _, c) ← c.evictNode hp x fun _ => 0
  .ok c

theorem evictOne_of_evictNode (hpol : hp.writePolicy ≠ .writeBack) {c c' : HiCache}
    {k : Nat} {b : Bool} {pick : Nat → Nat} (h : c.evictNode hp x pick = .ok (k, b, c')) :
    c.evictOne hp x = .ok c' := by
  have hpick : (c.evictNode hp x fun _ => 0) = c.evictNode hp x pick := by
    simp only [evictNode, if_neg hpol]
  rw [evictOne, hpick, h]
  rfl

/-! ## The heap of `evict` -/

structure HeapOk (t : RadixTree) (A : Finset NodeId) (heap : List NodeId) : Prop where
  nodup : heap.Nodup
  exposed : ∀ n ∈ heap, Exposed t A n

/-- What is left to do for the loop: each node on the device can be evicted once, and brings
its parent into the heap; a locked node is taken from the heap and skipped. -/
def todo (t : RadixTree) (A : Finset NodeId) (heap : List NodeId) : Nat :=
  2 * (onDeviceNodes t A).card + heap.countP fun n => 0 < (t.nodes n).lockRef

theorem leaves_heapOk (h : TreeInv p t A) :
    HeapOk t A t.evictableLeaves.elems ∧
      todo t A t.evictableLeaves.elems = 2 * (onDeviceNodes t A).card := by
  have hleaf : ∀ n ∈ t.evictableLeaves.elems, DeviceLeaf t A n := fun n hn =>
    h.mem_leaves.mp hn
  refine ⟨⟨t.evictableLeaves.nodup, fun n hn => ?_⟩, ?_⟩
  · have hl := hleaf n hn
    exact ⟨hl.mem, hl.device, hl.childless⟩
  · rw [todo, countP_eq_zero.mpr, add_zero]
    intro n hn
    simp [(hleaf n hn).unlocked]

theorem HeapOk.pop (h : HeapOk t A heap) (i : Nat) : HeapOk t A (heap.eraseIdx i) :=
  ⟨h.nodup.sublist (eraseIdx_sublist heap i),
    fun n hn => h.exposed n ((eraseIdx_sublist heap i).mem hn)⟩

theorem HeapOk.evicted (h : HeapOk t A heap) (hev : Evicted t A x t' A') (hx : x ∉ heap) :
    HeapOk t' A' heap :=
  ⟨h.nodup, fun n hn => hev.exposed (h.exposed n hn) fun e => hx (e ▸ hn)⟩

theorem todo_evicted (heap : List NodeId) (hev : Evicted t A x t' A') (hx : x ∈ A)
    (hd : t.onDevice x) : todo t' A' heap + 2 = todo t A heap := by
  have hcard := hev.card hx hd
  have hcount : (heap.countP fun n => 0 < (t'.nodes n).lockRef) =
      heap.countP fun n => 0 < (t.nodes n).lockRef := by
    apply countP_congr
    intro n _
    rw [hev.lock_eq]
  rw [todo, todo]
  omega

theorem pushParent_spec {q : NodeId} (h : HeapOk t' A' heap) (hinv : TreeInv hp.toCacheParams t' A')
    (hcore : CoreOn hp.toCacheParams t A) (hev : Evicted t A x t' A') (hx : x ∈ A)
    (hd : t.onDevice x) (hq : t.par x = some q) (hqheap : q ∉ heap) :
    ∃ heap', pushParent hp t' [] heap x = .ok heap' ∧ HeapOk t' A' heap' ∧
      todo t' A' heap' ≤ todo t' A' heap + 1 ∧ heap ⊆ heap' ∧
      (hp.isHybridWriteThrough = false → Exposed t' A' q → q ∈ heap') := by
  have hq' : (t'.nodes x).parent = some q := (hev.par_eq x).trans hq
  have hqA := hcore.shape.rooted.mem_of_par hx hq
  have hqx : q ≠ x := hcore.shape.rooted.par_ne hx hq
  have hqdev := (hev.device_iff q).mpr ⟨⟨hqA, hcore.device_par x hx q hq hd⟩, hqx⟩
  unfold pushParent
  rw [hq']
  dsimp only
  split_ifs with hmode hall
  · exact ⟨heap, rfl, h, le_succ _, List.Subset.refl _, fun hno => absurd hmode (by simp [hno])⟩
  · refine ⟨heap ++ [q], rfl, ⟨?_, ?_⟩, ?_, subset_append_left _ _, fun _ _ => by simp⟩
    · exact nodup_append.mpr ⟨h.nodup, nodup_singleton q, fun a ha b hb hab => hqheap (by
        rw [mem_singleton] at hb
        exact hb ▸ hab ▸ ha)⟩
    · intro n hn
      rcases mem_append.mp hn with hn | hn
      · exact h.exposed n hn
      · rw [mem_singleton] at hn
        subst hn
        refine ⟨hqdev.1, hqdev.2, fun c hc hcq => ?_⟩
        have hmem := (hinv.core.shape.mem_childList hqdev.1).mpr ⟨hc, hcq⟩
        exact evicted_iff.mp ((hall c hmem).resolve_left not_mem_nil)
    · rw [todo, todo, countP_append]
      have := countP_le_length (p := fun n => decide (0 < (t'.nodes n).lockRef)) (l := [q])
      rw [length_singleton] at this
      omega
  · refine ⟨heap, rfl, h, le_succ _, List.Subset.refl _, fun _ hq => absurd ?_ hall⟩
    intro y hy
    obtain ⟨hyA, hyq⟩ := (hinv.core.shape.mem_childList hqdev.1).mp hy
    exact .inr (evicted_iff.mpr (hq.childless y hyA hyq))

theorem updateLeafStatus_of_locked (h : TreeInv p t A) (hlock : 0 < (t.nodes x).lockRef) :
    t.updateLeafStatus x = t := by
  have hnot : ¬ x ∈ t.evictableLeaves := by
    rw [h.mem_leaves]
    intro hl
    rw [hl.unlocked] at hlock
    exact lt_irrefl _ hlock
  unfold RadixTree.updateLeafStatus
  rw [if_pos (.inr hlock), ListSet.erase_of_not_mem hnot]

theorem refill_heapOk (h : TreeInv p t A) (hheap : HeapOk t A heap) (refill : Prop)
    [Decidable refill] :
    HeapOk t A (if refill then t.evictableLeaves.elems else heap) ∧
      todo t A (if refill then t.evictableLeaves.elems else heap) ≤ todo t A heap := by
  split_ifs
  · obtain ⟨hok, htodo⟩ := leaves_heapOk h
    exact ⟨hok, by rw [htodo, todo]; omega⟩
  · exact ⟨hheap, le_rfl⟩

/-- The heap has all leaves, unless it is filled again before the loop can end. -/
structure Covers (hp : HiParams) (t : RadixTree) (A : Finset NodeId) (heap : List NodeId)
    (built k : Nat) : Prop where
  le : built ≤ k
  leaf : (hp.isHybridWriteThrough = true → k = built) → ∀ x, DeviceLeaf t A x → x ∈ heap

theorem Covers.refill {built k : Nat} (h : TreeInv p t A) (hc : Covers hp t A heap built k)
    (refill : Prop) [Decidable refill] :
    Covers hp t A (if refill then t.evictableLeaves.elems else heap) (if refill then k else built)
      k := by
  split_ifs
  · exact ⟨le_rfl, fun _ x hx => h.mem_leaves.mpr hx⟩
  · exact hc

theorem Covers.evicted {q : NodeId} {heap' : List NodeId} {built k : Nat}
    (hc : Covers hp t A (x :: heap) built k) (hev : Evicted t A x t' A')
    (hl : DeviceLeaf t A x) (hpos : 0 < t.len x) (hq : t.par x = some q) (hsub : heap ⊆ heap')
    (hpush : hp.isHybridWriteThrough = false → Exposed t' A' q → q ∈ heap') :
    Covers hp t' A' heap' built (k + t.len x) := by
  have hle := hc.le
  refine ⟨by omega, fun hk y hy => ?_⟩
  have hmode : hp.isHybridWriteThrough = false := by
    by_contra hmode
    have := hk (Bool.eq_true_of_not_eq_false hmode)
    omega
  obtain ⟨⟨hyA, hyd⟩, hyx⟩ := (hev.device_iff y).mp ⟨hy.mem, hy.device⟩
  by_cases hyq : q = y
  · exact hyq ▸ hpush hmode (hyq ▸ ⟨hy.mem, hy.device, hy.childless⟩)
  · have hold : DeviceLeaf t A y := by
      refine ⟨hyA, fun e => hy.ne_root (e.trans hev.root_eq.symm), hyd,
        (hev.lock_eq y).symm.trans hy.unlocked, fun z hz hzy hzd => ?_⟩
      have hzx : z ≠ x := by
        rintro rfl
        exact hyq (some.inj (hq.symm.trans hzy))
      obtain ⟨hz', hzd'⟩ := (hev.device_iff z).mpr ⟨⟨hz, hzd⟩, hzx⟩
      exact hy.childless z hz' ((hev.par_eq z).trans hzy) hzd'
    have hmem := hc.leaf (fun hyes => absurd hyes (by simp [hmode])) y hold
    exact hsub ((mem_cons.mp hmem).resolve_left hyx)

/-- What the loop of `evict` does from `k` slots on, with those of the nodes that leave the device.
-/
structure Drains (hp : HiParams) (s : HiState) (numTokens k : Nat) (vs : List (List Nat))
    (c : HiCache) (A : Finset NodeId) : Prop where
  steps : HiSteps hp s { s with cache := c, nodes := A }
  host : SameHost s.tree s.nodes c.tree A
  queues : SameQueues s.cache c
  frees : FreesLeaves HiCache.FreeLeaf (fun c => c.tree.deviceValue) (evictOne hp) s.cache vs c
  evictable : s.tree.evictableSize = c.tree.evictableSize + vs.flatten.length
  rest : numTokens ≤ k + vs.flatten.length ∨ ∀ x, ¬ DeviceLeaf c.tree A x
  last : LastNeeded numTokens k vs

theorem evictLoop_spec (hpol : hp.writePolicy ≠ .writeBack) {numTokens : Nat}
    {pick : Nat → Nat → Nat} :
    ∀ fuel (s : HiState) heap built k, HiInv hp s → HeapOk s.tree s.nodes heap →
      Covers hp s.tree s.nodes heap built k → todo s.tree s.nodes heap < fuel →
      ∃ vs c A, evictLoop hp numTokens pick fuel s.cache heap built k [] =
          .ok (k + vs.flatten.length, [], c) ∧ Drains hp s numTokens k vs c A := by
  intro fuel
  induction fuel with
  | zero => intro s heap built k _ _ _ hlt; omega
  | succ fuel ih =>
    intro s heap0 built0 k h hheap0 hcov0 hlt
    unfold evictLoop
    obtain ⟨hheap, hle⟩ := refill_heapOk h.tree hheap0
      (heap0 = [] ∧ hp.isHybridWriteThrough = true ∧ k ≠ built0)
    have hcov := hcov0.refill h.tree (heap0 = [] ∧ hp.isHybridWriteThrough = true ∧ k ≠ built0)
    -- an empty heap has just been filled, or nothing was evicted since it was
    have hend : (if heap0 = [] ∧ hp.isHybridWriteThrough = true ∧ k ≠ built0
        then s.tree.evictableLeaves.elems else heap0) = [] → hp.isHybridWriteThrough = true →
        k = if heap0 = [] ∧ hp.isHybridWriteThrough = true ∧ k ≠ built0 then k else built0 := by
      split_ifs with hrefill
      · exact fun _ _ => rfl
      · intro hnil hmode
        by_contra hne
        exact hrefill ⟨hnil, hmode, hne⟩
    set built := if heap0 = [] ∧ hp.isHybridWriteThrough = true ∧ k ≠ built0 then k else built0
    set heap := if heap0 = [] ∧ hp.isHybridWriteThrough = true ∧ k ≠ built0
      then s.tree.evictableLeaves.elems else heap0
    by_cases hcond : k < numTokens ∧ heap ≠ []
    · rw [if_pos hcond]
      have hx := pop_mem hcond.2 (pick fuel 0) 0
      have hxnot := pop_not_mem hheap.nodup hcond.2 (pick fuel 0) 0
      set i := pick fuel 0 % heap.length
      set x := heap.getD i 0
      have hexp := hheap.exposed x hx
      have hpop := hheap.pop i
      have hperm : (x :: heap.eraseIdx i).Perm heap := pop_perm hcond.2 (pick fuel 0) 0
      have hcov' : Covers hp s.tree s.nodes (x :: heap.eraseIdx i) built k :=
        ⟨hcov.le, fun hk y hy => hperm.mem_iff.mpr (hcov.leaf hk y hy)⟩
      have htodo : todo s.tree s.nodes heap = todo s.tree s.nodes (heap.eraseIdx i) +
          if 0 < (s.tree.nodes x).lockRef then 1 else 0 := by
        rw [todo, ← hperm.countP_eq, countP_cons, todo]
        simp only [decide_eq_true_eq]
        omega
      by_cases hlock : 0 < (s.tree.nodes x).lockRef
      · -- a locked node is skipped
        rw [if_pos hlock] at htodo
        obtain ⟨vs, c, A, hrun, hd⟩ := ih s (heap.eraseIdx i) built k h hpop
          ⟨hcov.le, fun hk y hy => (mem_cons.mp (hcov'.leaf hk y hy)).resolve_left
            fun e => absurd (e ▸ hy.unlocked) hlock.ne'⟩ (by omega)
        refine ⟨vs, c, A, ?_, hd⟩
        have htree : s.cache.withTree (s.cache.tree.updateLeafStatus x) = s.cache := by
          rw [updateLeafStatus_of_locked h.tree hlock]
          rfl
        have hskip : 0 < (s.cache.tree.nodes x).lockRef ∨ (s.cache.tree.nodes x).evicted = true :=
          .inl hlock
        rw [if_pos hskip, htree]
        exact hrun
      · have hleaf := hexp.deviceLeaf h.tree.core hlock
        obtain ⟨q, _, hpar⟩ := h.shape.rooted.par_mem hleaf.mem hleaf.ne_root
        obtain ⟨c, A, hev, hstep, hevicted, hq⟩ := evictNode_spec hpol h hleaf (pick fuel)
        have hinv := hstep.inv h
        have hheap' := hpop.evicted hevicted hxnot
        have htodo' := todo_evicted (heap.eraseIdx i) hevicted hexp.mem hexp.device
        have hqheap : q ∉ heap.eraseIdx i := fun hmem =>
          (hpop.exposed q hmem).childless x hexp.mem hpar hexp.device
        obtain ⟨heap', hpush, hok, hbound, hsub, hjoin⟩ := pushParent_spec hheap' hinv.tree
          h.tree.core hevicted hexp.mem hexp.device hpar hqheap
        have hlt' : todo c.tree A heap' < fuel := by omega
        obtain ⟨vs, c', A', hrun, hd⟩ := ih { s with cache := c, nodes := A } heap' built
          (k + s.tree.len x) hinv hok (hcov'.evicted hevicted hleaf
            (h.shape.len_pos x hleaf.mem hleaf.ne_root) hpar hsub hjoin) hlt'
        have hvalue := value_length h hleaf.mem hleaf.device
        have hsum : k + s.tree.len x + vs.flatten.length =
            k + (s.tree.deviceValue x :: vs).flatten.length := by
          rw [flatten_cons, length_append, hvalue, add_assoc]
        refine ⟨s.tree.deviceValue x :: vs, c', A', ?_, .head hstep hd.steps,
          hevicted.toSameHost.trans hd.host, hq.trans hd.queues,
          .cons (freeLeaf_of_deviceLeaf h hleaf) (evictOne_of_evictNode hpol hev) hd.frees, ?_,
          hsum ▸ hd.rest, .cons hcond.1 (hvalue ▸ hd.last)⟩
        · have hskip := not_or.mpr ⟨hlock, fun he => evicted_iff.mp he hexp.device⟩
          rw [if_neg hskip]
          rw [hev]
          show pushParent hp c.tree [] (heap.eraseIdx i) x >>= _ = _
          rw [hpush, ← hsum]
          exact hrun
        · have hfirst := hevicted.evictable h.tree hinv.tree hleaf
          have hrest := hd.evictable
          rw [hfirst, hrest, flatten_cons, length_append, hvalue]
          push_cast
          ring
    · rw [if_neg hcond]
      refine ⟨[], s.cache, s.nodes, rfl, .refl, .refl _ _, .refl _, .nil _, (add_zero _).symm, ?_,
        fun ws w hws => absurd hws (by simp)⟩
      by_cases hk : k < numTokens
      · have hnil : heap = [] := by
          by_contra hne
          exact hcond ⟨hk, hne⟩
        refine .inr fun x hx => ?_
        have hmem := hcov.leaf (hend hnil) x hx
        rw [hnil] at hmem
        exact absurd hmem not_mem_nil
      · exact .inl (Nat.le_of_not_lt hk)

section

variable (hpol : hp.writePolicy ≠ .writeBack) (h : HiInv hp s) (numTokens : Nat)
  (pick : Nat → Nat → Nat)
include hpol h numTokens pick

theorem evict_drains : ∃ vs c A, s.cache.evict hp numTokens pick = .ok (vs.flatten.length, c) ∧
      Drains hp s numTokens 0 vs c A := by
  obtain ⟨hok, htodo⟩ := leaves_heapOk h.tree
  have hcard : (onDeviceNodes s.tree s.nodes).card ≤ s.cache.tree.counter :=
    (Finset.card_filter_le _ _).trans h.shape.card_le
  obtain ⟨vs, c, A, hrun, hd⟩ := evictLoop_spec hpol (2 * s.cache.tree.counter + 1) s
    s.tree.evictableLeaves.elems 0 0 h hok
    ⟨le_rfl, fun _ x hx => h.tree.mem_leaves.mpr hx⟩ (by omega)
  rw [zero_add] at hrun
  refine ⟨vs, c, A, ?_, hd⟩
  unfold evict
  have hrun' : evictLoop hp numTokens pick (2 * s.cache.tree.counter + 1) s.cache
    s.cache.tree.evictableLeaves.elems 0 0 [] = .ok (vs.flatten.length, [], c) := hrun
  rw [hrun']
  exact if_neg hpol

theorem evict_spec : ∃ k c A, s.cache.evict hp numTokens pick = .ok (k, c) ∧
      HiSteps hp s { s with cache := c, nodes := A } ∧ SameHost s.tree s.nodes c.tree A ∧
      SameQueues s.cache c := by
  obtain ⟨vs, c, A, hrun, hd⟩ := evict_drains hpol h numTokens pick
  exact ⟨_, c, A, hrun, hd.steps, hd.host, hd.queues⟩

/-- `evict` takes unlocked leaves off the device, as many as it can and should. -/
theorem evict_frees : ∃ k c, s.cache.evict hp numTokens pick = .ok (k, c) ∧
      FreesEnough HiCache.FreeLeaf (fun c => c.tree.deviceValue) (evictOne hp)
        (fun c => c.tree.evictableSize) numTokens s.cache k c := by
  obtain ⟨vs, c, A, hrun, hd⟩ := evict_drains hpol h numTokens pick
  have hinv := hd.steps.inv h
  refine ⟨_, c, hrun, vs, hd.frees, rfl, hinv.tree.min_le hinv.held hd.evictable ?_, hd.last⟩
  exact zero_add vs.flatten.length ▸ hd.rest

end

/-! ## Climbing to the device -/

/-- A chain of nodes off the device below a node on it. -/
structure OffChain (t : RadixTree) (A : Finset NodeId) (a : NodeId) (ns : List NodeId)
    (x : NodeId) : Prop where
  mem : a ∈ A
  device : t.onDevice a
  down : Down t.par a ns x
  off : ∀ n ∈ ns, n ∈ A ∧ ¬ t.onDevice n

theorem OffChain.unique {b : NodeId} {ms : List NodeId} (h : OffChain t A a ns x)
    (g : OffChain t A b ms x) (hshape : ShapeOn p t A) : a = b := by
  have hab : Anc t.par a b :=
    (g.down.mem_or_anc h.down.anc.1).resolve_left fun hmem => (g.off a hmem).2 h.device
  have hba : Anc t.par b a :=
    (h.down.mem_or_anc g.down.anc.1).resolve_left fun hmem => (h.off b hmem).2 g.device
  exact hshape.rooted.anc_antisymm g.mem hab hba

theorem nodesToLoad_spec (h : HiInv hp s) (hx : x ∈ s.nodes) :
    ∃ ns a, nodesToLoad s.cache.tree (s.cache.tree.counter + 1) x [] = .ok (ns, a) ∧
      OffChain s.tree s.nodes a ns x := by
  -- the nodes below the one to come are off the device
  refine h.shape.rooted.climb (P := fun fuel n => ∀ acc, Down s.tree.par n acc x →
      (∀ m ∈ acc, m ∈ s.nodes ∧ ¬ s.tree.onDevice m) →
      ∃ ns a, nodesToLoad s.cache.tree fuel n acc = .ok (ns, a) ∧
        OffChain s.tree s.nodes a ns x) ?_ x hx [] (.nil x) nofun
  intro fuel n hn ih acc hdown hoff
  unfold nodesToLoad
  by_cases hd : s.tree.onDevice n
  · have hev : ¬ (s.cache.tree.nodes n).evicted = true := fun he => evicted_iff.mp he hd
    rw [if_neg hev]
    exact ⟨acc, n, rfl, hn, hd, hdown, hoff⟩
  · have hev : (s.cache.tree.nodes n).evicted = true := evicted_iff.mpr hd
    have hback : (s.cache.tree.nodes n).backuped = true :=
      backuped_iff.mpr (h.tree.core.off_device n hn hd).1
    have hnr : n ≠ s.tree.rootNode := fun e => hd (e ▸ h.tree.core.root_device)
    obtain ⟨q, _, hq⟩ := h.shape.rooted.par_mem hn hnr
    have hq' : (s.cache.tree.nodes n).parent = some q := hq
    rw [if_pos hev, if_neg (not_not.mpr hback), hq']
    refine ih q hq (n :: acc) (.cons hq hdown) fun m hm => ?_
    rcases mem_cons.mp hm with rfl | hm
    · exact ⟨hn, hd⟩
    · exact hoff m hm

/-- The climb of `match_prefix` counts the host slots of the nodes that `load_back` would load. -/
theorem climbToDevice_eq {t : RadixTree} {a : NodeId} {ns : List NodeId} :
    ∀ {fuel : Nat} {n : NodeId} {acc : List NodeId},
      nodesToLoad t fuel n acc = .ok (ns, a) →
      climbToDevice t fuel n (hostSlots t acc).length =
        .ok (a, (hostSlots t ns).length) := by
  intro fuel
  induction fuel with
  | zero =>
    intro n acc h
    cases h
  | succ fuel ih =>
    intro n acc h
    unfold nodesToLoad at h
    unfold climbToDevice
    split_ifs at h ⊢ with hev hback
    · obtain ⟨v, hv⟩ := ne_none_iff_exists'.mp (backuped_iff.mp hback)
      cases hq : (t.nodes n).parent with
      | none =>
        rw [hq] at h
        cases h
      | some q =>
        rw [hq] at h
        rw [← ih h]
        simp [hostSlots, hostValue, hv, add_comm]
    · cases h
      rfl

theorem climbToDevice_spec (h : HiInv hp s) (hx : x ∈ s.nodes) :
    ∃ ns a, climbToDevice s.cache.tree (s.cache.tree.counter + 1) x 0 =
        .ok (a, (hostSlots s.tree ns).length) ∧ OffChain s.tree s.nodes a ns x := by
  obtain ⟨ns, a, hrun, hch⟩ := nodesToLoad_spec h hx
  exact ⟨ns, a, climbToDevice_eq hrun, hch⟩

theorem climbToBackup_spec (h : HiInv hp s) (hx : x ∈ s.nodes) :
    ∃ b, climbToBackup s.cache.tree (s.cache.tree.counter + 1) x = .ok b ∧
      b ∈ s.nodes ∧ s.tree.backedUp b ∧ Anc s.tree.par b x ∧ (s.tree.backedUp x → b = x) := by
  refine h.shape.rooted.climb (P := fun fuel n => Anc s.tree.par n x →
      (s.tree.backedUp x → n = x) → ∃ b, climbToBackup s.cache.tree fuel n = .ok b ∧
        b ∈ s.nodes ∧ s.tree.backedUp b ∧ Anc s.tree.par b x ∧ (s.tree.backedUp x → b = x))
    ?_ x hx (anc_refl _ _) fun _ => rfl
  intro fuel n hn ih hanc htop
  unfold climbToBackup
  by_cases hback : s.tree.backedUp n
  · have hb' : (s.cache.tree.nodes n).backuped = true := backuped_iff.mpr hback
    rw [if_pos hb']
    exact ⟨n, rfl, hn, hback, hanc, htop⟩
  · have hb' : ¬ (s.cache.tree.nodes n).backuped = true := mt backuped_iff.mp hback
    have hnr : n ≠ s.tree.rootNode := fun e => hback (e ▸ h.tree.core.root_backed)
    obtain ⟨q, _, hq⟩ := h.shape.rooted.par_mem hn hnr
    have hq' : (s.cache.tree.nodes n).parent = some q := hq
    rw [if_neg hb', hq']
    refine ih q hq (anc_trans (anc_step hq (anc_refl _ _)) hanc) fun hx' => ?_
    exact absurd (htop hx' ▸ hx') hback

/-! ## `load_back` -/

theorem loadOrEvict_spec (hpol : hp.writePolicy ≠ .writeBack) (h : HiInv hp s)
    (hostIndices : List Nat) (x : NodeId) (pick : Nat → Nat → Nat) :
    ∃ c A, HiSteps hp s { s with cache := c, nodes := A } ∧ SameHost s.tree s.nodes c.tree A ∧
      SameQueues s.cache c ∧ (s.cache.loadOrEvict hp hostIndices x pick = .ok (none, c) ∨
        ∃ v alloc, c.allocator.alloc hostIndices.length = (some v, alloc) ∧
          s.cache.loadOrEvict hp hostIndices x pick = .ok (some v, { c with
            allocator := alloc
            loadQueue := c.loadQueue ++ [⟨hostIndices, v, x, 0⟩] })) := by
  have hload : ∀ c : HiCache, (∃ v alloc, c.allocator.alloc hostIndices.length = (some v, alloc) ∧
      c.load hostIndices x = (some v, { c with
        allocator := alloc
        loadQueue := c.loadQueue ++ [⟨hostIndices, v, x, 0⟩] })) ∨
      c.load hostIndices x = (none, { c with
        allocator := c.allocator.refill (hostIndices.length / c.allocator.pageSize) }) := by
    intro c
    unfold load
    rcases hal : c.allocator.alloc hostIndices.length with ⟨r, alloc⟩
    cases r with
    | none =>
      right
      rw [Allocator.alloc_eq_none hal]
    | some v => exact .inl ⟨v, alloc, rfl, rfl⟩
  unfold loadOrEvict
  rcases hload s.cache with ⟨v, alloc, halloc, hrun⟩ | hrun
  · refine ⟨s.cache, s.nodes, .refl, .refl _ _, .refl _, .inr ⟨v, alloc, halloc, ?_⟩⟩
    rw [hrun]
  · have hfill : HiStep hp s _ :=
      HiStep.refill (hostIndices.length / s.cache.allocator.pageSize)
    obtain ⟨k, c, A, hev, hsteps, hhost, hq⟩ :=
      evict_spec hpol (hfill.inv h) hostIndices.length pick
    have hqueues : SameQueues s.cache c := ⟨hq.ackWrite_eq, hq.load_eq, hq.ackLoad_eq⟩
    have hsteps' : HiSteps hp s { s with cache := c, nodes := A } :=
      .head hfill hsteps
    have hev' : evict hp { s.cache with
        allocator := s.cache.allocator.refill (hostIndices.length / s.cache.allocator.pageSize) }
        hostIndices.length pick = .ok (k, c) := hev
    rw [hrun]
    dsimp only
    rw [hev']
    rcases hload c with ⟨v, alloc, halloc, hrun'⟩ | hrun'
    · refine ⟨c, A, hsteps', hhost, hqueues, .inr ⟨v, alloc, halloc, ?_⟩⟩
      exact congrArg Except.ok hrun'
    · refine ⟨_, A, hsteps'.tail (HiStep.refill (hostIndices.length / c.allocator.pageSize)), hhost,
        ⟨hqueues.ackWrite_eq, hqueues.load_eq, hqueues.ackLoad_eq⟩, .inl ?_⟩
      exact congrArg Except.ok hrun'

/-- What a call of `load_back` for `x` leaves behind: without slots the chain is still off the
device, and with slots it is on the device with exactly these. -/
structure LoadedBack (s : HiState) (a : NodeId) (ns : List NodeId) (x : NodeId)
    (r : Option (List Nat)) (t : RadixTree) (A : Finset NodeId) : Prop where
  root_eq : t.rootNode = s.tree.rootNode
  par_eq : ∀ n, t.par n = s.tree.par n
  key_eq : ∀ n, (t.nodes n).key = (s.tree.nodes n).key
  mem : x ∈ A
  none : r = none → OffChain t A a ns x ∧
    ∀ w, PathLabel s.tree.par s.tree.deviceValue a w → PathLabel t.par t.deviceValue a w
  some : ∀ v, r = some v → t.onDevice x ∧ v.length = (hostSlots s.tree ns).length ∧
    ∀ w, PathLabel s.tree.par s.tree.deviceValue a w → PathLabel t.par t.deviceValue x (w ++ v)

/-- The load that a successful call of `load_back` has queued. -/
structure LoadQueued (s : HiState) (ns : List NodeId) (x : NodeId) (v : List Nat) (c : HiCache)
    (A : Finset NodeId) : Prop where
  queue : c.loadQueue = s.cache.loadQueue ++ [⟨hostSlots s.tree ns, v, x, 0⟩]
  ongoing : x ∈ c.ongoingLoadBack
  host_eq : ∀ n, (c.tree.nodes n).hostValue = (s.tree.nodes n).hostValue
  mem : ∀ n ∈ ns, n ∈ A

theorem OffChain.sameHost (h : OffChain t A a ns x) (hs : SameHost t A t' A') (ha : a ∈ A')
    (had : t'.onDevice a) : OffChain t' A' a ns x :=
  ⟨ha, had, h.down.congr fun n _ => hs.par_eq n,
    fun n hn => hs.off_mem n (h.off n hn).1 (h.off n hn).2⟩

theorem SameHost.of_relock {δ : NodeId → Int} (h : IsRelock t t' δ) : SameHost t A t' A :=
  ⟨h.counter_eq, h.root_eq, h.par_eq, h.key_eq, h.host_eq, subset_rfl, fun n hn hd =>
    ⟨hn, fun hd' => hd (by rwa [RadixTree.onDevice, h.value_eq] at hd')⟩,
    fun n _ => h.value_eq n⟩

theorem hostSlots_congr (ns : List NodeId) (h : ∀ n, (t'.nodes n).hostValue = (t.nodes n).hostValue) :
    hostSlots t' ns = hostSlots t ns := by
  unfold hostSlots
  congr 1
  apply map_congr_left
  intro n _
  rw [hostValue, h, hostValue]

theorem hostSlots_dvd (h : CoreOn p t A) (hoff : ∀ n ∈ ns, n ∈ A ∧ ¬ t.onDevice n) :
    p.pageSize ∣ (hostSlots t ns).length := by
  induction ns with
  | nil => exact dvd_zero _
  | cons n ns ih =>
    obtain ⟨hn, hd⟩ := hoff n mem_cons_self
    obtain ⟨v, hv⟩ := ne_none_iff_exists'.mp (h.off_device n hn hd).1
    have hlen : (hostSlots t (n :: ns)).length = t.len n + (hostSlots t ns).length := by
      simp only [hostSlots, map_cons, flatten_cons, length_append, hostValue, hv, getD_some,
        h.host_len n hn v hv]
    rw [hlen]
    exact dvd_add (h.shape.len_dvd n hn) (ih fun m hm => hoff m (mem_cons_of_mem _ hm))

theorem fillChain_spec (h : HiInv hp s) (hch : OffChain s.tree s.nodes a ns x) (hne : ns ≠ [])
    (halloc : s.cache.allocator.alloc (hostSlots s.tree ns).length = (some v, alloc)) :
    ∃ d t, (∀ c : HiCache, c.tree = (setValues s.tree ns v).addEvictable v.length →
        c.incLockRef x = .ok (d, c.withTree t)) ∧
      (∀ nodesByReqid, HiStep hp s { s with cache := { s.cache with
        tree := t
        allocator := alloc
        ongoingLoadBack := x :: s.cache.ongoingLoadBack
        loadQueue := s.cache.loadQueue ++ [⟨hostSlots s.tree ns, v, x, 0⟩]
        hybridLoadBackNodesByReqid := nodesByReqid
        ledger := s.cache.ledger.loadNodes hp.pageSize (setValues s.tree ns v) ns } }) ∧
      LoadedBack s a ns x (some v) t s.nodes ∧
      ∀ n, (t.nodes n).hostValue = (s.tree.nodes n).hostValue := by
  have hlen : v.length = (hostSlots s.tree ns).length := by
    refine Allocator.length_alloc halloc ?_
    rw [h.device_page]
    exact hostSlots_dvd h.tree.core hch.off
  have hf := setValues_filled ns s.tree a x v ∅ ∅ h.tree.core h.tree.counts hch.device hch.down
    hch.off hlen
  obtain ⟨d, t, hrun, hl, hinv⟩ := hf.lock h.tree hch.down hch.off hne
  have hxns := hch.down.last_mem hne
  refine ⟨d, t, ?_, ?_, ?_, fun n => (hl.host_eq n).trans (hf.fill.host_eq n)⟩
  · intro c hc
    rw [incLockRef, hc, hrun]
    rfl
  · intro nodesByReqid
    have hkey : ∀ n, ((setValues s.tree ns v).nodes n).key = (s.tree.nodes n).key :=
      hf.fill.key_eq
    have hpar := hf.fill.par_eq
    rw [Ledger.loadNodes_congr hkey hpar hf.fill.root_eq]
    exact HiStep.load hne halloc ⟨hch.down, hch.off, _, hf, hl⟩ hinv
  · refine ⟨hl.root_eq.trans hf.fill.root_eq, fun n => (hl.par_eq n).trans (hf.fill.par_eq n),
      fun n => (hl.key_eq n).trans (hf.fill.key_eq n), (hch.off x hxns).1,
      fun hno => absurd hno (some_ne_none v), ?_⟩
    intro w hw
    obtain rfl := some.inj hw
    refine ⟨?_, hlen, ?_⟩
    · exact (onDevice_congr (hl.value_eq _)).mpr (hf.device x hxns)
    · intro l hlabel
      exact (hl.keepsPaths Set.univ).value x (Set.mem_univ x) _ (hf.label l hlabel)

theorem finishLoadBack_spec (h : HiInv hp s) (hch : OffChain s.tree s.nodes a ns x) (hne : ns ≠ [])
    (halloc : s.cache.allocator.alloc (hostSlots s.tree ns).length = (some v, alloc))
    (rid : Option Nat) :
    ∃ c, finishLoadBack hp { s.cache with
          allocator := alloc
          loadQueue := s.cache.loadQueue ++ [⟨hostSlots s.tree ns, v, x, 0⟩] } x rid ns v = .ok c ∧
      HiStep hp s { s with cache := c } ∧ LoadedBack s a ns x (some v) c.tree s.nodes ∧
      LoadQueued s ns x v c s.nodes := by
  obtain ⟨d, t, hinc, hstep, hloaded, hhost⟩ := fillChain_spec h hch hne halloc
  have hnew : x ∉ s.cache.ongoingLoadBack := fun hmem =>
    (hch.off x (hch.down.last_mem hne)).2 (h.lock_onDevice (HiInv.load_mem_locks hmem))
  -- only the list of the request's nodes depends on the mode
  obtain ⟨nodesByReqid, hrec⟩ : ∃ nodesByReqid, recordHybridLoadBackNodes hp { s.cache with
      allocator := alloc
      loadQueue := s.cache.loadQueue ++ [⟨hostSlots s.tree ns, v, x, 0⟩]
      ongoingLoadBack := x :: s.cache.ongoingLoadBack } rid ns = { s.cache with
      allocator := alloc
      loadQueue := s.cache.loadQueue ++ [⟨hostSlots s.tree ns, v, x, 0⟩]
      ongoingLoadBack := x :: s.cache.ongoingLoadBack
      hybridLoadBackNodesByReqid := nodesByReqid } := by
    unfold recordHybridLoadBackNodes
    cases rid with
    | none => exact ⟨_, rfl⟩
    | some rid =>
      split_ifs
      · exact ⟨_, rfl⟩
      · exact ⟨_, rfl⟩
  refine ⟨_, ?_, hstep nodesByReqid, hloaded,
    ⟨rfl, mem_cons_self, hhost, fun n hn => (hch.off n hn).1⟩⟩
  unfold finishLoadBack
  simp only [insert_of_not_mem hnew]
  rw [hrec, hinc]
  · rfl
  · rfl

theorem lock_holder (h : HiInv hp s) (hx : x ∈ s.nodes) (hd : s.tree.onDevice x) :
    ∃ d t, (∀ c : HiCache, c.tree = s.tree → c.incLockRef x = .ok (d, c.withTree t)) ∧
      HiStep hp s { s with cache := s.cache.withTree t, holders := x :: s.holders } ∧
      SameHost s.tree s.nodes t s.nodes := by
  obtain ⟨d, t, hrun, hl, hinv⟩ := incLockRef_spec h hx hd
  exact ⟨d, t, hrun, .lock hx hl hinv, .of_relock hl⟩

theorem unlock_holder {s1 : HiState} (h : HiInv hp s1) {hs : List NodeId}
    (hx : s1.holders = x :: hs) :
    ∃ d t, (∀ c : HiCache, c.tree = s1.tree → c.decLockRef x = .ok (d, c.withTree t)) ∧
      HiStep hp s1 { s1 with cache := s1.cache.withTree t, holders := hs } ∧
      SameHost s1.tree s1.nodes t s1.nodes ∧ x ∈ s1.nodes ∧ t.onDevice x := by
  have hmem : x ∈ s1.holders := hx ▸ mem_cons_self
  obtain ⟨d, t, hrun, hl, hinv⟩ := decLockRef_spec h (HiInv.holder_mem_locks hmem)
  have hstep := HiStep.unlock hmem hl hinv
  rw [hx, erase_cons_head] at hstep
  have hlock := HiInv.holder_mem_locks hmem
  refine ⟨d, t, hrun, hstep, .of_relock hl, h.held.mem x hlock, ?_⟩
  rw [RadixTree.onDevice, hl.value_eq]
  exact h.lock_onDevice hlock

/-- `load_back` for a node off the device: the chain up to the device is found, and either it is
left as it is or all of it is loaded. -/
theorem loadBack_spec (hpol : hp.writePolicy ≠ .writeBack) (h : HiInv hp s) (hx : x ∈ s.nodes)
    (hoff : ¬ s.tree.onDevice x) (memQuota : Option Int) (rid : Option Nat) (pick : Nat → Nat → Nat) :
    ∃ r c A a ns, s.cache.loadBack hp x memQuota rid pick = .ok (r, c) ∧
      HiSteps hp s { s with cache := c, nodes := A } ∧
      OffChain s.tree s.nodes a ns x ∧ LoadedBack s a ns x r c.tree A ∧
      ∀ v, r = some v → LoadQueued s ns x v c A := by
  obtain ⟨ns, a, hnodes, hch⟩ := nodesToLoad_spec h hx
  have hne : ns ≠ [] := by
    rintro rfl
    obtain rfl : a = x := by
      have := hch.down
      cases this
      rfl
    exact hoff hch.device
  obtain ⟨d, t1, hinc, hstep1, hhost1⟩ := lock_holder h hch.mem hch.device
  have h1 := hstep1.inv h
  have hslots : ((ns.map (hostValue (s.cache.withTree t1).tree)).flatten) =
      hostSlots s.tree ns := hostSlots_congr ns hhost1.host_eq
  -- without slots nothing of the chain has changed
  have hnone : ∀ {t A}, SameHost s.tree s.nodes t A → CoreOn hp.toCacheParams t A → a ∈ A →
      t.onDevice a → LoadedBack s a ns x none t A := fun hhost hc ha had =>
    ⟨hhost.root_eq, hhost.par_eq, hhost.key_eq, (hhost.off_mem x hx hoff).1,
      fun _ => ⟨hch.sameHost hhost ha had, fun w hw => hhost.label hc ha had hw⟩,
      fun v hv => absurd hv.symm (some_ne_none v)⟩
  have hnoQueue : ∀ {c A} (v : List Nat), (none : Option (List Nat)) = some v →
      LoadQueued s ns x v c A := fun v hv => absurd hv.symm (some_ne_none v)
  unfold loadBack
  simp only [hnodes, hinc s.cache rfl, bind, Except.bind, if_neg hne, hslots]
  split_ifs with hskip
  · obtain ⟨d', t2, hdec, hstep2, hhost2, ha, had⟩ := unlock_holder h1 rfl
    rw [hdec _ rfl]
    exact ⟨none, _, s.nodes, a, ns, rfl, .tail (.single hstep1) hstep2, hch,
      hnone (hhost1.trans hhost2) (hstep2.inv h1).tree.core ha had, hnoQueue⟩
  · obtain ⟨c, A, hsteps2, hhost2, hq, hout⟩ :=
      loadOrEvict_spec hpol h1 (hostSlots s.tree ns) x pick
    have h2 := hsteps2.inv h1
    obtain ⟨d', t3, hdec, hstep3, hhost3, ha, had⟩ := unlock_holder h2 rfl
    have hsteps : HiSteps hp s _ := (hsteps2.tail hstep3).head hstep1
    have hhost := (hhost1.trans hhost2).trans hhost3
    have h3 := hsteps.inv h
    rcases hout with hrun | ⟨v, alloc, halloc, hrun⟩
    · rw [hrun]
      dsimp only
      rw [hdec _ rfl]
      exact ⟨none, _, A, a, ns, rfl, hsteps, hch, hnone hhost h3.tree.core ha had, hnoQueue⟩
    · have hch3 := hch.sameHost hhost ha had
      have hsame : hostSlots t3 ns = hostSlots s.tree ns := hostSlots_congr ns hhost.host_eq
      have halloc3 := hsame ▸ halloc
      obtain ⟨c', hfin, hstep4, hloaded, hqueued⟩ := finishLoadBack_spec h3 hch3 hne halloc3 rid
      refine ⟨some v, c', A, a, ns, ?_, hsteps.tail hstep4, hch, ?_, ?_⟩
      · rw [hrun]
        dsimp only
        rw [hdec { c with
          allocator := alloc
          loadQueue := c.loadQueue ++ [⟨hostSlots s.tree ns, v, x, 0⟩] } rfl]
        dsimp only
        have hfin' : finishLoadBack hp (withTree { c with
            allocator := alloc
            loadQueue := c.loadQueue ++ [⟨hostSlots s.tree ns, v, x, 0⟩] } t3) x rid ns v = .ok c' :=
          hsame ▸ hfin
        rw [hfin']
      · refine ⟨hloaded.root_eq.trans hhost.root_eq,
          fun n => (hloaded.par_eq n).trans (hhost.par_eq n),
          fun n => (hloaded.key_eq n).trans (hhost.key_eq n), hloaded.mem,
          fun hno => absurd hno (some_ne_none v), fun w hw => ?_⟩
        obtain ⟨hdev, hlen, hlabel⟩ := hloaded.some w hw
        exact ⟨hdev, hlen.trans (congrArg length hsame),
          fun l hl => hlabel l (hhost.label h3.tree.core ha had hl)⟩
      · intro w hw
        obtain rfl := some.inj hw
        refine ⟨?_, hqueued.ongoing, fun n => (hqueued.host_eq n).trans (hhost.host_eq n),
          hqueued.mem⟩
        have hload : c.loadQueue = s.cache.loadQueue := hq.load_eq
        rw [← hload, ← hsame]
        exact hqueued.queue

/-- `init_load_back`: afterwards `n` is on the device, and its slots are those of the last node on
the device before, followed by the loaded ones. -/
theorem initLoadBack_spec (hpol : hp.writePolicy ≠ .writeBack) (h : HiInv hp s) (hx : x ∈ s.nodes)
    (memQuota : Option Int) (rid : Option Nat) (pick : Nat → Nat → Nat) :
    ∃ v n c A a ns, s.cache.initLoadBack hp x memQuota rid pick = .ok (v, n, c) ∧
      HiSteps hp s { s with cache := c, nodes := A } ∧ OffChain s.tree s.nodes a ns x ∧
      n ∈ A ∧ c.tree.onDevice n ∧
      ∀ w, PathLabel s.tree.par s.tree.deviceValue a w →
        PathLabel c.tree.par c.tree.deviceValue n (w ++ v) := by
  unfold initLoadBack
  by_cases hd : s.tree.onDevice x
  · have hev : ¬ (s.cache.tree.nodes x).evicted = true := fun he => evicted_iff.mp he hd
    rw [if_neg hev]
    refine ⟨[], x, s.cache, s.nodes, x, [], rfl, .refl,
      ⟨hx, hd, .nil x, nofun⟩, hx, hd, fun w hw => ?_⟩
    rw [append_nil]
    exact hw
  · rw [if_pos (evicted_iff.mpr hd)]
    obtain ⟨r, c, A, a, ns, hrun, hsteps, hch, hloaded, _⟩ :=
      loadBack_spec hpol h hx hd memQuota rid pick
    cases r with
    | some v =>
      obtain ⟨hdev, _, hlabel⟩ := hloaded.some v rfl
      refine ⟨v, x, c, A, a, ns, ?_, hsteps, hch, hloaded.mem, hdev, hlabel⟩
      simp only [hrun, bind, Except.bind]
    | none =>
      obtain ⟨hch', hlabel⟩ := hloaded.none rfl
      have h' := hsteps.inv h
      obtain ⟨ms, b, hclimb, hbch⟩ := climbToDevice_spec h' hloaded.mem
      have hclimb' : climbToDevice c.tree (c.tree.counter + 1) x 0 =
        .ok (b, (hostSlots c.tree ms).length) := hclimb
      obtain rfl := hbch.unique hch' h'.shape
      refine ⟨[], b, c, A, b, ns, ?_, hsteps, hch, hbch.mem, hbch.device, fun w hw => ?_⟩
      · simp only [hrun, hclimb', bind, Except.bind]
      · rw [append_nil]
        exact hlabel w hw

end Fluxfer.Hi
