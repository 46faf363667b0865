import Fluxfer.Hi.Spec
import Fluxfer.Unified.Cache

/-!
# The tree operations of `UnifiedRadixCache`

Both leaf sets are updated at once here, but on the trees that occur the result is the one of the
two updates of `HiRadixCache`. So every operation on the tree is, up to hit counts, one of the
changes that keep `TreeInv`.
-/

namespace Fluxfer.Unified

open Radix ParentTree Hi RadixTree HiCache UnifiedCache Finset List

/-! ## Leaf sets -/

section Sets

variable {S H : Set NodeId}
variable {p : CacheParams} {t : RadixTree} {A : Finset NodeId} {n : NodeId}

theorem isDeviceLeaf_iff (h : CoreOn p t A) (hn : n ∈ A) :
    isDeviceLeaf t n = true ↔ DeviceLeaf t A n := by
  rw [deviceLeaf_iff_status h hn]
  simp only [isDeviceLeaf, decide_eq_true_eq, not_or, not_exists, not_and, not_not, and_assoc]
  refine and_iff_right_of_imp ?_
  rintro ⟨_, hlock, _⟩ rfl
  exact hlock (h.root_lock ▸ Int.one_pos)

theorem isHostLeaf_iff (h : CoreOn p t A) (hn : n ∈ A) :
    isHostLeaf t n = true ↔ HostLeaf t A n := by
  simp only [isHostLeaf, decide_eq_true_eq]
  constructor
  · rintro ⟨_, he, _, hchild⟩
    refine ⟨hn, evicted_iff.mp he, fun c hc hcn => ?_⟩
    exact absurd hcn ((h.shape.childList_eq_nil hn).mp hchild c hc)
  · intro hl
    refine ⟨?_, evicted_iff.mpr hl.off, backuped_iff.mpr (h.off_device n hn hl.off).1, ?_⟩
    · rintro rfl
      exact hl.off h.root_device
    · exact (h.shape.childList_eq_nil hn).mpr (hl.no_child h)

theorem updateEvictableLeafSets_eq (h : CoreOn p t A) (hn : n ∈ A) :
    updateEvictableLeafSets t n = (t.updateLeafStatus n).updateHostLeafStatus n := by
  classical
  have h1 : CoreOn p (t.updateLeafStatus n) A := h.of_nodes rfl rfl rfl
  rw [updateHostLeafStatus_eq h1 hn]
  simp only [hostLeaf_updateLeafStatus]
  simp only [updateLeafStatus_eq h hn, updateEvictableLeafSets, isDeviceLeaf_iff h hn,
    isHostLeaf_iff h hn, ListSet.put]

theorem updateEvictableLeafSets_core (h : CoreOn p t A) (n : NodeId) :
    CoreOn p (updateEvictableLeafSets t n) A := h.of_nodes rfl rfl rfl

theorem updateEvictableLeafSets_counts (h : CoreOn p t A) (hc : CountsOff t A S H) (hn : n ∈ A) :
    CountsOff (updateEvictableLeafSets t n) A (S \ {n}) (H \ {n}) := by
  rw [updateEvictableLeafSets_eq h hn]
  exact (hc.updateLeafStatus h hn).updateHostLeafStatus (h.of_nodes rfl rfl rfl) hn

theorem updateEvictableLeafSets_self (h : TreeInv p t A) (hn : n ∈ A) :
    updateEvictableLeafSets t n = t := by
  rw [updateEvictableLeafSets_eq h.core hn,
    h.counts.updateLeafStatus_self h.core hn (Set.notMem_empty n),
    h.counts.updateHostLeafStatus_self h.core hn (Set.notMem_empty n)]

theorem updateEvictableLeafSets_repair {x q : NodeId} (h : CoreOn p t A) (hc : CountsOff t A S H)
    (hx : x ∈ A) (hq : q ∈ A) (hH : H ⊆ {x}) :
    updateEvictableLeafSets (updateEvictableLeafSets t x) q = repair t x q := by
  have hcount := updateEvictableLeafSets_counts h hc hx
  have hcore := updateEvictableLeafSets_core h x
  have hqH : q ∉ H \ {x} := fun hmem => hmem.2 (hH hmem.1)
  rw [updateEvictableLeafSets_eq hcore hq, (hcount.updateLeafStatus hcore hq).updateHostLeafStatus_self
    (hcore.of_nodes rfl rfl rfl) hq hqH, updateEvictableLeafSets_eq h hx]
  rfl

end Sets

/-! ## Locks -/

section Locks

variable {n : NodeId} {v : List Nat} {skip hs : List NodeId}
variable {p : CacheParams} {t : RadixTree} {A : Finset NodeId} {x : NodeId}

theorem updateLeafStatus_locked (h : 0 < (t.nodes n).lockRef) :
    t.updateLeafStatus n = { t with evictableLeaves := t.evictableLeaves.erase n } := by
  unfold updateLeafStatus
  rw [if_pos (.inr h)]

theorem mem_of_mem_updateLeafStatus {m : NodeId} (h : m ∈ (t.updateLeafStatus n).evictableLeaves)
    (hmn : m ≠ n) : m ∈ t.evictableLeaves := by
  unfold updateLeafStatus at h
  split_ifs at h
  · exact (ListSet.mem_erase.mp h).2
  · exact (ListSet.mem_erase.mp h).2
  · exact (ListSet.mem_insert.mp h).resolve_left hmn

/-- The nodes from `x` up to the root have slots that can be locked. -/
def Lockable (t : RadixTree) (x : NodeId) : Prop :=
  ∀ m, m ≠ t.rootNode → Anc t.par m x →
    ∃ v, (t.nodes m).value = some v ∧ v.length = t.len m ∧ 0 ≤ (t.nodes m).lockRef

theorem CoreOn.lockable (h : CoreOn p t A) (hx : x ∈ A) (hd : t.onDevice x) : Lockable t x := by
  intro m _ hm
  obtain ⟨hmA, hmd⟩ := h.anc_device hx hd hm
  obtain ⟨v, hv⟩ := Option.ne_none_iff_exists'.mp hmd
  exact ⟨v, hv, h.value_len m hmA v hv, h.lock_nonneg m hmA⟩

theorem acquireNode_eq (hlen : v.length = t.len n) (hlock : 0 ≤ (t.nodes n).lockRef) :
    (acquireNode t n v).1 = (t.incLockNode n).1 := by
  have hlen' : v.length = (t.nodes n).key.len := hlen
  unfold acquireNode incLockNode
  dsimp only
  rw [hlen', updateLeafStatus_locked]
  show 0 < (if n = n then _ else _ : TreeNode).lockRef
  rw [if_pos rfl]
  exact Int.lt_add_one_of_le hlock

/-- On such a path the loop takes the steps of `inc_lock_ref` of `RadixCache`. -/
theorem acquireLoop_eq : ∀ fuel (t : RadixTree) (n : NodeId) (d e : Int) (r : Int × RadixTree),
    walkUp incLockNode fuel t n d = .ok r → Lockable t n →
      ∃ e', acquireLoop fuel t n e = .ok (e', r.2) := by
  intro fuel
  induction fuel with
  | zero =>
    intro t n d e r h
    cases h
  | succ fuel ih =>
    intro t n d e r h hpath
    unfold walkUp at h
    unfold acquireLoop
    by_cases hr : n = t.rootNode
    · rw [if_pos hr] at h ⊢
      cases h
      exact ⟨e, rfl⟩
    rw [if_neg hr] at h ⊢
    obtain ⟨v, hv, hlen, hlock⟩ := hpath n hr (anc_refl _ _)
    have hstep := incLockNode_isRelock t n
    have hpar : (t.incLockNode n).1.par = t.par := funext hstep.par_eq
    have hparent : ((t.incLockNode n).1.nodes n).parent = (t.nodes n).parent := hstep.par_eq n
    dsimp only at h
    rw [hparent] at h
    cases hq : (t.nodes n).parent with
    | none =>
      rw [hq] at h
      cases h
    | some q =>
      rw [hq] at h
      simp only [hv]
      rw [acquireNode_eq hlen hlock]
      refine ih _ q _ _ r h ?_
      intro m hm hanc
      rw [hpar] at hanc
      obtain ⟨w, hw, hwlen, hwlock⟩ := hpath m hm (anc_step hq hanc)
      refine ⟨w, (hstep.value_eq m).trans hw, ?_, ?_⟩
      · rw [hwlen, len, len, hstep.key_eq]
      · rw [hstep.lock_eq]
        split_ifs <;> omega

/-- The nodes from `x` up to the root are locked. -/
def Releasable (t : RadixTree) (x : NodeId) : Prop :=
  ∀ m, m ≠ t.rootNode → Anc t.par m x →
    (∃ v, (t.nodes m).value = some v ∧ v.length = t.len m) ∧ 0 < (t.nodes m).lockRef ∧
      m ∉ t.evictableLeaves ∧ m ∉ t.evictableHostLeaves

theorem releaseNode_eq (hr : n ≠ t.rootNode) (hv : (t.nodes n).value = some v)
    (hlen : v.length = t.len n) (hlock : 0 < (t.nodes n).lockRef) (hleaf : n ∉ t.evictableLeaves)
    (hhost : n ∉ t.evictableHostLeaves) : releaseNode t n v = (t.decLockNode n).1 := by
  have hlen' : v.length = (t.nodes n).key.len := hlen
  unfold releaseNode decLockNode
  dsimp only
  rw [hlen']
  set d : Int := if (t.nodes n).lockRef = 1 then ((t.nodes n).key.len : Int) else 0
  set u := ((t.addEvictable d).addProtected (-d)).modify n fun x =>
    { x with lockRef := x.lockRef - 1 }
  have hself : u.nodes n = { t.nodes n with lockRef := (t.nodes n).lockRef - 1 } := if_pos rfl
  by_cases hzero : (u.nodes n).lockRef = 0
  · rw [if_pos hzero]
    have hdev : ¬ (u.nodes n).evicted = true := by
      rw [hself, TreeNode.evicted, hv]
      exact Bool.false_ne_true
    have hhost' : ¬ isHostLeaf u n = true := by
      simp only [isHostLeaf, decide_eq_true_eq]
      exact fun h => hdev h.2.1
    have herase : u.evictableHostLeaves.erase n = u.evictableHostLeaves :=
      ListSet.erase_of_not_mem hhost
    unfold updateEvictableLeafSets updateLeafStatus
    rw [if_neg hhost', herase]
    have hlocked : ¬ 0 < (u.nodes n).lockRef := by omega
    rw [if_neg (not_or.mpr ⟨hdev, hlocked⟩)]
    by_cases hchild : ∃ c ∈ (u.nodes n).childList, ¬ (u.nodes c).evicted = true
    · rw [if_pos hchild, if_neg]
      simp only [isDeviceLeaf, decide_eq_true_eq]
      rintro ⟨_, _, _, hall⟩
      obtain ⟨c, hc, hcd⟩ := hchild
      exact hcd (hall c hc)
    · rw [if_neg hchild, if_pos]
      simp only [isDeviceLeaf, decide_eq_true_eq]
      push Not at hchild
      exact ⟨hr, hdev, hlocked, hchild⟩
  · rw [if_neg hzero, updateLeafStatus_locked]
    · have : u.evictableLeaves.erase n = u.evictableLeaves := ListSet.erase_of_not_mem hleaf
      rw [this]
    · rw [hself] at hzero ⊢
      dsimp only at hzero ⊢
      omega

theorem releaseLoop_eq {root : NodeId} {bound : Nat} :
    ∀ fuel (t : RadixTree) (n : NodeId) (d : Int) (r : Int × RadixTree),
    walkUp decLockNode fuel t n d = .ok r → Releasable t n →
      Rooted t.par A root bound → n ∈ A → (∀ m, Anc t.par m n → m ∉ skip) →
      releaseLoop skip fuel t n = .ok r.2 := by
  intro fuel
  induction fuel with
  | zero =>
    intro t n d r h
    cases h
  | succ fuel ih =>
    intro t n d r h hpath hroot hn hskip
    unfold walkUp at h
    unfold releaseLoop
    by_cases hr : n = t.rootNode
    · rw [if_pos hr] at h ⊢
      cases h
      rfl
    rw [if_neg hr] at h ⊢
    obtain ⟨⟨v, hv, hlen⟩, hlock, hleaf, hhost⟩ := hpath n hr (anc_refl _ _)
    have hstep := decLockNode_isRelock t n
    have hpar : (t.decLockNode n).1.par = t.par := funext hstep.par_eq
    have hparent : ((t.decLockNode n).1.nodes n).parent = (t.nodes n).parent := hstep.par_eq n
    dsimp only at h
    rw [hparent] at h
    cases hq : (t.nodes n).parent with
    | none =>
      rw [hq] at h
      cases h
    | some q =>
      rw [hq] at h
      simp only [hskip n (anc_refl _ _), hv, hlock, not_true_eq_false]
      rw [releaseNode_eq hr hv hlen hlock hleaf hhost]
      refine ih _ q _ r h ?_ (hpar ▸ hroot) (hroot.mem_of_par hn hq) ?_
      · intro m hm hanc
        rw [hpar] at hanc
        have hmn : m ≠ n := by
          rintro rfl
          exact hroot.not_anc_of_par hn hq hanc
        obtain ⟨⟨w, hw, hwlen⟩, hwlock, hwleaf, hwhost⟩ := hpath m hm (anc_step hq hanc)
        refine ⟨⟨w, (hstep.value_eq m).trans hw, ?_⟩, ?_, ?_, hwhost⟩
        · rw [hwlen, len, len, hstep.key_eq]
        · rw [hstep.lock_eq, if_neg hmn]
          omega
        · intro hmem
          have hold := mem_of_mem_updateLeafStatus hmem hmn
          exact hwleaf hold
      · intro m hanc
        rw [hpar] at hanc
        exact hskip m (anc_step hq hanc)

/-- `acquire_component_lock` on a path of the device. Sets that were not exact on the path are
so afterwards. -/
theorem acquire_counts {S : Set NodeId} (h : CoreOn p t A) (hc : CountsOff t A S ∅) (hx : x ∈ A)
    (hd : t.onDevice x) :
    ∃ d t', acquireLoop (t.counter + 1) t x 0 = .ok (d, t') ∧ CoreOn p t' A ∧
      CountsOff t' A (S \ {n | n ≠ t.rootNode ∧ Anc t.par n x}) ∅ ∧
      IsRelock t t' (pathDelta t.par t.rootNode x 1) := by
  obtain ⟨_, t', hrun, hcore, hcount, hl⟩ := (incLockNode_lockStep p).walkUp h hc (.inr rfl) hx hd
    (fun n _ hn => Int.add_nonneg (h.lock_nonneg n (h.shape.rooted.anc_mem hx hn)) (by decide)) 0
  obtain ⟨d, hrun'⟩ := acquireLoop_eq _ t x 0 0 _ hrun (CoreOn.lockable h hx hd)
  rw [Set.empty_sdiff] at hcount
  exact ⟨d, t', hrun', hcore, hcount, hl⟩

theorem acquire_tree (h : TreeInv p t A) (hx : x ∈ A) (hd : t.onDevice x) :
    ∃ d t', acquireLoop (t.counter + 1) t x 0 = .ok (d, t') ∧
      IsRelock t t' (pathDelta t.par t.rootNode x 1) ∧ TreeInv p t' A := by
  obtain ⟨d, t', hrun, hcore, hcount, hl⟩ := acquire_counts h.core h.counts hx hd
  rw [Set.empty_sdiff] at hcount
  exact ⟨d, t', hrun, hl, hcore, hcount⟩

theorem TreeInv.releasable (h : TreeInv p t A) (hh : HeldBy t A hs) (hx : x ∈ hs)
    (hd : t.onDevice x) : Releasable t x := by
  intro m hm hanc
  obtain ⟨hmA, hmd⟩ := h.core.anc_device (hh.mem x hx) hd hanc
  have hlock := hh.lock_pos hmA hm hx hanc
  obtain ⟨v, hv⟩ := Option.ne_none_iff_exists'.mp hmd
  refine ⟨⟨v, hv, h.core.value_len m hmA v hv⟩, hlock, ?_, ?_⟩
  · intro hmem
    have hl := h.mem_leaves.mp hmem
    rw [hl.unlocked] at hlock
    exact lt_irrefl _ hlock
  · exact fun hmem => (h.mem_hostLeaves.mp hmem).off hmd

/-- `release_component_lock` from `n`, when the lock is at `x` above and the nodes between have
been skipped. -/
theorem release_tree (h : TreeInv p t A) (hh : HeldBy t A hs) (hx : x ∈ hs) (hd : t.onDevice x)
    (hn : n ∈ A) (hanc : Anc t.par x n) (hskip : ∀ m, Anc t.par m n → (m ∈ skip ↔ ¬ Anc t.par m x)) :
    ∃ t', releaseLoop skip (t.counter + 1) t n = .ok t' ∧
      IsRelock t t' (pathDelta t.par t.rootNode x (-1)) ∧ TreeInv p t' A := by
  have hroot := h.core.shape.rooted
  have hxA := hh.mem x hx
  obtain ⟨depth, hb, hdepth⟩ := hroot.exists_depth
  have hloop : ∀ fuel n, depth n < fuel → n ∈ A → Anc t.par x n →
      (∀ m, Anc t.par m n → (m ∈ skip ↔ ¬ Anc t.par m x)) →
      ∃ t', releaseLoop skip fuel t n = .ok t' ∧
        IsRelock t t' (pathDelta t.par t.rootNode x (-1)) ∧ TreeInv p t' A := by
    intro fuel
    induction fuel with
    | zero => exact fun n hlt => absurd hlt (Nat.not_lt_zero _)
    | succ fuel ih =>
      intro n hlt hn hanc hskip
      by_cases hmem : n ∈ skip
      · have hnx := (hskip n (anc_refl _ _)).mp hmem
        have hnr : n ≠ t.rootNode := fun e => hnx (e ▸ hroot.root_anc x hxA)
        obtain ⟨q, hqA, hq⟩ := hroot.par_mem hn hnr
        have hxq : Anc t.par x q := by
          rcases (anc_iff_of_par hq).mp hanc with rfl | hxq
          · exact absurd (anc_refl _ _) hnx
          · exact hxq
        obtain ⟨t', hrun, hrest⟩ := ih q (lt_of_lt_of_le (hdepth n hn q hq) (Nat.lt_succ_iff.mp hlt))
          hqA hxq fun m hm => hskip m (anc_step hq hm)
        refine ⟨t', ?_, hrest⟩
        have hq' : (t.nodes n).parent = some q := hq
        unfold releaseLoop
        simp only [if_neg hnr, hq', if_pos hmem]
        exact hrun
      · -- the first node that was not skipped is the one with the lock
        have hnx : Anc t.par n x := not_not.mp (mt (hskip n (anc_refl _ _)).mpr hmem)
        obtain rfl := hroot.anc_antisymm hxA hnx hanc
        obtain ⟨_, t', hrun, hcore, hcount, hl⟩ := (decLockNode_lockStep p).walkUp_of_depth
          h.core h.counts hdepth hlt (.inr rfl) hxA hd (fun m hr hm => by
            have := hh.lock_pos (hroot.anc_mem hxA hm) hr hx hm
            omega) 0
        refine ⟨t', releaseLoop_eq _ t n 0 _ hrun (TreeInv.releasable h hh hx hd) hroot hn ?_, hl,
          hcore, ?_⟩
        · exact fun m hm hmem' => (hskip m hm).mp hmem' hm
        · simpa using hcount
  exact hloop _ n (Nat.lt_succ_of_lt (hb n hn)) hn hanc hskip

/-- The lock of `n` goes to the first node on the device from `n` up. -/
theorem skipEvicted_spec (h : CoreOn p t A) (hn : n ∈ A) :
    ∃ skip top, skipEvicted t (t.counter + 1) n [] = .ok (skip, top) ∧ top ∈ A ∧
      t.onDevice top ∧ Anc t.par top n ∧
      ∀ m, Anc t.par m n → (m ∈ skip ↔ ¬ Anc t.par m top) ∧ (m ∈ skip → ¬ t.onDevice m) := by
  have hroot := h.shape.rooted
  have hloop := hroot.climb (P := fun fuel n => ∀ acc, (∀ m ∈ acc, ¬ t.onDevice m) →
      ∃ skip top, skipEvicted t fuel n acc = .ok (skip, top) ∧ top ∈ A ∧ t.onDevice top ∧
        Anc t.par top n ∧ (∀ m, m ∈ skip ↔ m ∈ acc ∨ Anc t.par m n ∧ ¬ Anc t.par m top) ∧
        ∀ m ∈ skip, ¬ t.onDevice m) (fun fuel n hn ih acc hacc => by
    unfold skipEvicted
    by_cases hskip : n ≠ t.rootNode ∧ (t.nodes n).evicted = true
    · obtain ⟨q, _, hq⟩ := hroot.par_mem hn hskip.1
      have hacc' : ∀ m ∈ n :: acc, ¬ t.onDevice m := by
        intro m hm
        rcases mem_cons.mp hm with rfl | hm
        · exact evicted_iff.mp hskip.2
        · exact hacc m hm
      obtain ⟨skip, top, hrun, htop, hd, hanc, hmem, hoff⟩ := ih q hq (n :: acc) hacc'
      have hq' : (t.nodes n).parent = some q := hq
      refine ⟨skip, top, ?_, htop, hd, anc_step hq hanc, fun m => ?_, hoff⟩
      · rw [if_pos hskip]
        simp only [hq']
        exact hrun
      · have hntop : ¬ Anc t.par n top := fun hno =>
          hroot.not_anc_of_par hn hq (anc_trans hno hanc)
        rw [hmem m, List.mem_cons, anc_iff_of_par hq]
        constructor
        · rintro ((rfl | hacc) | ⟨hmq, hmtop⟩)
          · exact .inr ⟨.inl rfl, hntop⟩
          · exact .inl hacc
          · exact .inr ⟨.inr hmq, hmtop⟩
        · rintro (hacc | ⟨rfl | hmq, hmtop⟩)
          · exact .inl (.inr hacc)
          · exact .inl (.inl rfl)
          · exact .inr ⟨hmq, hmtop⟩
    · rw [if_neg hskip]
      refine ⟨acc, n, rfl, hn, ?_, anc_refl _ _, fun m => ?_, hacc⟩
      · by_cases hnr : n = t.rootNode
        · exact hnr ▸ h.root_device
        · exact not_not.mp (mt evicted_iff.mpr fun he => hskip ⟨hnr, he⟩)
      · constructor
        · exact .inl
        · rintro (hacc | ⟨hm, hno⟩)
          · exact hacc
          · exact absurd hm hno)
  obtain ⟨skip, top, hrun, htop, hd, hanc, hmem, hoff⟩ := hloop n hn []
    nofun
  refine ⟨skip, top, hrun, htop, hd, hanc, fun m hm => ⟨?_, hoff m⟩⟩
  rw [hmem m]
  constructor
  · rintro (hnil | ⟨_, hno⟩)
    · exact absurd hnil not_mem_nil
    · exact hno
  · exact fun hno => .inr ⟨hm, hno⟩

theorem skipEvicted_onDevice (hd : t.onDevice x) :
    skipEvicted t (t.counter + 1) x [] = .ok ([], x) := by
  unfold skipEvicted
  rw [if_neg fun h => evicted_iff.mp h.2 hd]

end Locks

/-! ## Nodes -/

section Nodes

variable {key : RadixKey} {c q node x n : NodeId} {k : Nat}
variable {p : CacheParams} {t : RadixTree} {A : Finset NodeId}

/-- The split is the one of `HiRadixCache`, but for the hit count of the new node. -/
theorem linkSplit_eq {ps : Nat} (hc : c ≠ t.counter) (hq : t.par c = some q) (hqw : q ≠ t.counter)
    (hqc : q ≠ c) :
    linkSplit ps t key c k = (t.hiSplitNode ps key c k).2.modify t.counter fun x =>
      { x with hitCount := 0 } := by
  have hq' : (t.nodes c).parent = some q := hq
  have htake : (if (t.nodes c).evicted then none else (t.nodes c).value.map (·.take k)) =
      (t.nodes c).value.map (·.take k) := by
    unfold TreeNode.evicted
    cases (t.nodes c).value <;> rfl
  have hdrop : (if (t.nodes c).evicted then (t.nodes c).value
      else (t.nodes c).value.map (·.drop k)) = (t.nodes c).value.map (·.drop k) := by
    unfold TreeNode.evicted
    cases (t.nodes c).value <;> rfl
  have htakeHost : (if (t.nodes c).backuped then (t.nodes c).hostValue.map (·.take k) else none) =
      (t.nodes c).hostValue.map (·.take k) := by
    unfold TreeNode.backuped
    cases (t.nodes c).hostValue <;> rfl
  have hdropHost : (if (t.nodes c).backuped then (t.nodes c).hostValue.map (·.drop k)
      else (t.nodes c).hostValue) = (t.nodes c).hostValue.map (·.drop k) := by
    unfold TreeNode.backuped
    cases (t.nodes c).hostValue <;> rfl
  unfold linkSplit RadixTree.hiSplitNode
  simp only [hq', RadixTree.setChild, RadixTree.modify, RadixTree.alloc]
  congr 1
  funext m
  by_cases hmw : m = t.counter
  · subst hmw
    simp [Ne.symm hqw, Ne.symm hc, htake, htakeHost]
    rfl
  · by_cases hmc : m = c
    · subst hmc
      simp [hmw, Ne.symm hqc, hdrop, hdropHost]
    · by_cases hmq : m = q
      · subst hmq
        simp [hmw, hmc]
      · simp [hmw, hmc, hmq]

theorem splitTree_isSplit (h : TreeInv p t A) (hc : c ∈ A) (hr : c ≠ t.rootNode) (hk0 : 0 < k)
    (hk : k < t.len c) (hd : p.pageSize ∣ k) :
    IsSplit p.pageSize t (splitTree p.pageSize t (t.nodes c).key c k).2 c k := by
  obtain ⟨q, hqA, hq⟩ := h.core.shape.rooted.par_mem hc hr
  have hcw := h.core.shape.ne_counter _ hc
  have hqw := h.core.shape.ne_counter _ hqA
  have hqc : q ≠ c := h.core.shape.rooted.par_ne hc hq
  have hlink : IsSplit p.pageSize t (linkSplit p.pageSize t (t.nodes c).key c k) c k := by
    rw [linkSplit_eq hcw hq hqw hqc]
    refine IsSame.isSplit ?_ (hiSplitNode_isSplit hcw hq hqw hqc)
    exact modify_isSame (fun _ => rfl)
  have hinv := hlink.treeInv h hc hr hk0 hk hd
  unfold splitTree
  dsimp only
  rw [updateEvictableLeafSets_self hinv (mem_insert_self _ _),
    updateEvictableLeafSets_self hinv (mem_insert_of_mem hc)]
  exact hlink

theorem addNewNode_isGraft (key : RadixKey) (value : List Nat) (hn : node ≠ t.counter) :
    IsGraft p.pageSize t (addNewNode p.pageSize t node key value).2 node key value := by
  have h := linkLeaf_isGraft p.pageSize key value hn
  exact ⟨h.counter_eq, h.root_eq, h.par_eq, h.key_eq, h.find_eq, h.lock_eq, h.value_eq, h.host_eq⟩

theorem addNewNode_treeInv {value : List Nat} (h : TreeInv p t A) (hn : node ∈ A)
    (hnode : t.onDevice node) (hpos : 0 < key.len) (hd : p.pageSize ∣ key.len)
    (hb : key.isBigram = p.isEagle) (hns : node ≠ t.rootNode → key.extraKey = t.ns node)
    (hnew : t.find node (key.childKey p.pageSize) = none) (hv : value.length = key.len) :
    TreeInv p (addNewNode p.pageSize t node key value).2 (insert t.counter A) := by
  obtain ⟨hcore, hcounts⟩ := linkLeaf_counts h hn hnode hpos hd hb hns hnew hv
  have hcounts1 := updateEvictableLeafSets_counts hcore hcounts (mem_insert_self t.counter A)
  have hcore1 := updateEvictableLeafSets_core hcore t.counter
  have hcounts2 := updateEvictableLeafSets_counts hcore1 hcounts1 (mem_insert_of_mem hn)
  unfold addNewNode
  rw [hv]
  refine ⟨updateEvictableLeafSets_core hcore1 node, hcounts2.mono ?_ ?_⟩
  · rintro m ⟨⟨hm | hm, h1⟩, h2⟩
    · exact absurd hm h2
    · exact absurd hm h1
  · simp

theorem evictToHost_tree (h : TreeInv p t A) (hl : DeviceLeaf t A x) (hb : t.backedUp x)
    (hq : t.par x = some q) :
    updateEvictableLeafSets (updateEvictableLeafSets (emptyNode t x (t.len x)) x) q =
      repair (emptyNode t x (t.len x)) x q := by
  obtain ⟨hcore, hcounts⟩ := emptyNode_counts h hl hb hq
  exact updateEvictableLeafSets_repair hcore hcounts hl.mem
    (h.core.shape.rooted.mem_of_par hl.mem hq) subset_rfl

theorem unevictNodeOnInsert_eq {a : NodeId} {v : List Nat} (h : TreeInv p t A) (hn : n ∈ A)
    (ha : t.par n = some a) (had : t.onDevice a) (hoff : ¬ t.onDevice n) (hv : v.length = t.len n) :
    unevictNodeOnInsert t n v = .ok (repair (fillNode t n v) n a) := by
  have hcore := fillNode_core h.core hn ha had hoff hv
  have hcounts := fillNode_counts h.core h.counts hn ha hoff hv
  have hparent : ((updateEvictableLeafSets ((t.modify n fun x =>
      { x with value := some v }).addEvictable v.length) n).nodes n).parent = some a := by
    show ((fillNode t n v).nodes n).parent = _
    rw [fillNode_self]
    exact ha
  have hrepair := updateEvictableLeafSets_repair hcore hcounts hn
    (h.core.shape.rooted.mem_of_par hn ha) (Set.empty_union _).subset
  unfold unevictNodeOnInsert
  rw [if_neg (not_not.mpr (not_not.mp hoff))]
  simp only [hparent]
  exact congrArg Except.ok hrepair

theorem deleteTombstones_self {fuel : Nat} (h : TreeInv p t A) (hn : n ∈ A) :
    deleteTombstones p.pageSize (fuel + 1) t n = .ok t := by
  unfold deleteTombstones
  split_ifs with hleaf hlock hkeep
  · rfl
  · rw [updateEvictableLeafSets_self h hn]
  · have hoff : ¬ t.onDevice n := evicted_iff.mp (not_not.mp (not_or.mp hkeep).1)
    exact absurd (backuped_iff.mpr (h.core.off_device n hn hoff).1) (not_or.mp hkeep).2
  · rfl

theorem deleteDeviceLeaf_tree (h : TreeInv p t A) (hl : DeviceLeaf t A x) (hb : ¬ t.backedUp x) :
    ∃ q u t', popChild p.pageSize { t.addEvictable (-(t.len x)) with
        evictableLeaves := t.evictableLeaves.erase x } x = .ok (q, u) ∧
      deleteTombstones p.pageSize (u.counter + 1) (updateEvictableLeafSets u q) q =
        .ok t' ∧ IsRemove p.pageSize t t' x ∧ TreeInv p t' (A.erase x) := by
  obtain ⟨t', hrun, hr, hinv⟩ := deleteLeaf_treeInv h hl hb
  obtain ⟨q, hqA, hq⟩ := h.core.shape.rooted.par_mem hl.mem hl.ne_root
  have hqx : q ≠ x := h.core.shape.rooted.par_ne hl.mem hq
  have hqA' : q ∈ A.erase x := mem_erase.mpr ⟨hqx, hqA⟩
  set u : RadixTree := { (popped p.pageSize t x q).addEvictable (-(t.len x)) with
    evictableLeaves := t.evictableLeaves.erase x } with hu
  have ht' : t' = u.updateLeafStatus q := by
    unfold deleteLeaf at hrun
    have hkey := (popped_isRemove p.pageSize hq).key_eq x
    rw [popChild_eq hq (h.core.shape.find_par hl.mem hq)] at hrun
    simp only [bind, Except.bind, hkey] at hrun
    exact (Except.ok.inj hrun).symm
  have hsets : updateEvictableLeafSets u q = t' := by
    have hcore : CoreOn p u (A.erase x) := hinv.core.of_nodes (ht' ▸ rfl) (ht' ▸ rfl) (ht' ▸ rfl)
    rw [updateEvictableLeafSets_eq hcore hqA', ← ht',
      hinv.counts.updateHostLeafStatus_self hinv.core hqA' (Set.notMem_empty q)]
  refine ⟨q, u, t', ?_, ?_, hr, hinv⟩
  · exact popChild_eq hq (h.core.shape.find_par hl.mem hq)
  · rw [hsets]
    exact deleteTombstones_self hinv hqA'

end Nodes

/-! ## Nodes that forget their host slots -/

def forgetHost (t : RadixTree) (x : NodeId) : RadixTree :=
  t.modify x fun y => { y with hostValue := none }

section Forget

variable {q : NodeId}
variable {p : CacheParams} {t : RadixTree} {A : Finset NodeId} {x : NodeId}

theorem forgetHost_isTouch (t : RadixTree) (x : NodeId) : IsTouch t (forgetHost t x) x :=
  modify_isTouch rfl rfl rfl

theorem forgetHost_self :
    (forgetHost t x).nodes x = { t.nodes x with hostValue := none } := if_pos rfl

theorem forgetHost_value (n : NodeId) : ((forgetHost t x).nodes n).value = (t.nodes n).value :=
  (eq_or_ne n x).elim (fun e => by rw [e, forgetHost_self]) ((forgetHost_isTouch t x).value_eq n)

theorem forgetHost_lock (n : NodeId) : ((forgetHost t x).nodes n).lockRef = (t.nodes n).lockRef :=
  (eq_or_ne n x).elim (fun e => by rw [e, forgetHost_self]) ((forgetHost_isTouch t x).lock_eq n)

theorem forgetHost_keepsPaths (t : RadixTree) (x : NodeId) (B : Set NodeId) :
    KeepsPaths t (forgetHost t x) B := by
  have ht := forgetHost_isTouch t x
  exact .of_eq ht.root_eq ht.par_eq ht.key_eq forgetHost_value B

theorem forgetHost_treeInv (h : TreeInv p t A) (hx : x ∉ A) : TreeInv p (forgetHost t x) A := by
  have ht := forgetHost_isTouch t x
  exact h.congr (ht.shape h.core.shape) ht.root_eq ht.par_eq ht.key_eq
    (fun n _ => forgetHost_lock n) (fun n _ => forgetHost_value n)
    (fun n hn => ht.host_eq n fun e => hx (e ▸ hn)) rfl rfl rfl rfl

theorem updateEvictableLeafSets_forgetHost (hqx : q ≠ x) :
    updateEvictableLeafSets (forgetHost t x) q = forgetHost (updateEvictableLeafSets t q) x := by
  have hnode : (forgetHost t x).nodes q = t.nodes q := if_neg hqx
  have hevicted : ∀ c, ((forgetHost t x).nodes c).evicted = (t.nodes c).evicted := fun c => by
    rw [TreeNode.evicted, forgetHost_value, TreeNode.evicted]
  have hdev : isDeviceLeaf (forgetHost t x) q = isDeviceLeaf t q := by
    simp only [isDeviceLeaf, hnode, hevicted]
    rfl
  have hhost : isHostLeaf (forgetHost t x) q = isHostLeaf t q := by
    simp only [isHostLeaf, hnode]
    rfl
  unfold updateEvictableLeafSets
  rw [hdev, hhost]
  rfl

/-- The end of `_evict_host_leaf`, after `x` was popped from `q`. -/
theorem deleteTombstones_forgetHost {fuel : Nat} {u : RadixTree} (hqA : q ∈ A) (hqx : q ≠ x)
    (hcore : CoreOn p (eraseHostLeaf u x) A) (hcounts : CountsOff (eraseHostLeaf u x) A ∅ {q})
    (hq : q ∉ u.evictableHostLeaves) :
    deleteTombstones p.pageSize (fuel + 1) (forgetHost (eraseHostLeaf u x) x) q =
      .ok (forgetHost (dropHostLeaf u x q) x) := by
  set w := eraseHostLeaf u x with hw
  have hnode : (forgetHost w x).nodes q = w.nodes q := if_neg hqx
  -- a parent that has not become a leaf of the host has nothing to update
  have hsame : ¬ HostLeaf w A q → dropHostLeaf u x q = w := by
    intro hno
    classical
    have hqw : ¬ q ∈ w.evictableHostLeaves := fun hmem => hq (ListSet.mem_erase.mp hmem).2
    rw [dropHostLeaf, updateHostLeafStatus_eq hcore hqA,
      ListSet.put_self (iff_of_false hqw hno)]
  unfold deleteTombstones
  rw [hnode]
  split_ifs with hleaf hlock hkeep
  · rw [hsame]
    intro hl
    rw [(hcore.off_device q hqA hl.off).2] at hlock
    exact lt_irrefl _ hlock
  · rw [updateEvictableLeafSets_forgetHost hqx, updateEvictableLeafSets_eq hcore hqA,
      hcounts.updateLeafStatus_self hcore hqA (Set.notMem_empty q)]
    rfl
  · have hoff : ¬ w.onDevice q := evicted_iff.mp (not_not.mp (not_or.mp hkeep).1)
    exact absurd (backuped_iff.mpr (hcore.off_device q hqA hoff).1) (not_or.mp hkeep).2
  · rw [hsame]
    intro hl
    refine hleaf ⟨?_, ?_⟩
    · rintro rfl
      exact hl.off hcore.root_device
    · exact (hcore.shape.childList_eq_nil hqA).mpr (hl.no_child hcore)

theorem evictHostLeaf_tree (h : TreeInv p t A) (hl : HostLeaf t A x) :
    ∃ q u t', popChild p.pageSize { forgetHost t x with
        evictableHostLeaves := t.evictableHostLeaves.erase x } x = .ok (q, u) ∧
      deleteTombstones p.pageSize (u.counter + 1) u q = .ok (forgetHost t' x) ∧
      IsRemove p.pageSize t t' x ∧ TreeInv p t' (A.erase x) := by
  have hxr : x ≠ t.rootNode := fun e => hl.off (e ▸ h.core.root_device)
  obtain ⟨q, hqA, hq⟩ := h.core.shape.rooted.par_mem hl.mem hxr
  have hqx : q ≠ x := h.core.shape.rooted.par_ne hl.mem hq
  have hqA' : q ∈ A.erase x := mem_erase.mpr ⟨hqx, hqA⟩
  obtain ⟨hcore, hcounts⟩ := eraseHostLeaf_counts h hl hq
  obtain ⟨hr, hinv⟩ := dropHostLeaf_treeInv h hl hq
  set u := popped p.pageSize t x q with hu
  have hqleaf : q ∉ u.evictableHostLeaves := fun hmem =>
    (h.mem_hostLeaves.mp hmem).childless x hl.mem hq
      (h.core.off_device x hl.mem hl.off).1
  refine ⟨q, forgetHost (eraseHostLeaf u x) x, dropHostLeaf u x q, ?_,
    deleteTombstones_forgetHost hqA' hqx hcore hcounts hqleaf, hr, hinv⟩
  set w : RadixTree := { forgetHost t x with
    evictableHostLeaves := t.evictableHostLeaves.erase x } with hw
  have ht := forgetHost_isTouch t x
  have hkey : (w.nodes x).key = (t.nodes x).key := ht.key_eq x
  have hqw : (forgetHost t x).par x = some q := (ht.par_eq x).trans hq
  rw [popChild_eq (t := w) hqw ((ht.shape h.core.shape).find_par hl.mem hqw)]
  -- the node that forgets its host slots is not the one that loses a child
  congr 2
  rw [popped, hu, hw]
  unfold popped forgetHost eraseHostLeaf RadixTree.modify
  congr 1
  funext m
  by_cases hmq : m = q
  · subst hmq
    simp [hqx]
  · simp [hmq, Ne.symm hqx]

end Forget

/-! ## A chain of nodes gets device slots -/

section Load

variable {p : CacheParams} {A : Finset NodeId}

theorem setValues_congr : ∀ (ns : List NodeId) (t u : RadixTree) (v : List Nat),
    u.nodes = t.nodes → u.counter = t.counter → u.rootNode = t.rootNode →
      (setValues u ns v).nodes = (setValues t ns v).nodes ∧
      (setValues u ns v).counter = (setValues t ns v).counter ∧
      (setValues u ns v).rootNode = (setValues t ns v).rootNode := by
  intro ns
  induction ns with
  | nil => exact fun t u v hn hc hr => ⟨hn, hc, hr⟩
  | cons n ns ih =>
    intro t u v hn hc hr
    unfold setValues
    have hk : hostValue u n = hostValue t n := by
      rw [hostValue, hn, hostValue]
    rw [hk]
    refine ih _ _ _ ?_ hc hr
    unfold RadixTree.modify
    rw [hn]

/-- `commit_hicache_transfer`: the nodes are those of `HiRadixCache`, and the set of device
leaves may be wrong on the chain and above it. -/
theorem commitLoad_spec : ∀ (ns : List NodeId) (t : RadixTree) (a x : NodeId) (v : List Nat)
    (S : Set NodeId), CoreOn p t A → CountsOff t A S ∅ → t.onDevice a → Down t.par a ns x →
    (∀ n ∈ ns, n ∈ A ∧ ¬ t.onDevice n) → v.length = (hostSlots t ns).length →
    (commitLoad t ns v).nodes = (setValues t ns v).nodes ∧
      (commitLoad t ns v).counter = (setValues t ns v).counter ∧
      (commitLoad t ns v).rootNode = (setValues t ns v).rootNode ∧
      CountsOff (commitLoad t ns v) A (S ∪ {m | m = a ∨ m ∈ ns}) ∅ ∧
      ∀ m, m ∉ ns → m ∈ (commitLoad t ns v).evictableLeaves →
        m ∈ t.evictableLeaves := by
  intro ns
  induction ns with
  | nil =>
    intro t a x v S _ hcount _ _ _ _
    exact ⟨rfl, rfl, rfl, hcount.mono Set.subset_union_left subset_rfl, fun _ _ hm => hm⟩
  | cons n ns ih =>
    intro t a x v S hc hcount had hdown hoff hv
    have hh := fillsHead hc hcount had hdown hoff hv
    set u := fillNode t n (v.take (t.len n)) with hu
    have hcounts := updateEvictableLeafSets_counts hh.core hh.counts hh.mem
    have hempty : ((∅ : Set NodeId) ∪ {n}) \ {n} = ∅ := by simp
    rw [hempty] at hcounts
    obtain ⟨hnodes, hcounter, hroot, hcountsEnd, hleaves⟩ := ih (updateEvictableLeafSets u n) n x
      (v.drop (t.len n)) _ (updateEvictableLeafSets_core hh.core n) hcounts hh.device hh.down
      hh.rest_off hh.rest_len
    have htree : commitLoad t (n :: ns) v =
        commitLoad (updateEvictableLeafSets u n) ns (v.drop (t.len n)) := by
      rw [commitLoad, hh.host_len, hu, fillNode, hh.take_len]
    obtain ⟨hnodes', hcounter', hroot'⟩ := setValues_congr ns
      (t.modify n fun x => { x with value := some (v.take (t.len n)) })
      (updateEvictableLeafSets u n) (v.drop (t.len n)) rfl rfl rfl
    have hset : setValues t (n :: ns) v = setValues
        (t.modify n fun x => { x with value := some (v.take (t.len n)) }) ns (v.drop (t.len n)) := by
      rw [setValues, hh.host_len]
    rw [htree, hset]
    refine ⟨hnodes.trans hnodes', hcounter.trans hcounter', hroot.trans hroot',
      hcountsEnd.mono ?_ subset_rfl, ?_⟩
    · rintro m (⟨hm | hm | hm, hmn⟩ | hm | hm)
      · exact .inl hm
      · exact .inr (.inl hm)
      · exact absurd hm hmn
      · exact .inr (.inr (hm ▸ mem_cons_self))
      · exact .inr (.inr (mem_cons_of_mem _ hm))
    · intro m hm hmem
      have hmn : m ≠ n := fun e => hm (e ▸ mem_cons_self)
      have hmem' := hleaves m (fun hmns => hm (mem_cons_of_mem _ hmns)) hmem
      rw [updateEvictableLeafSets_eq hh.core hh.mem] at hmem'
      have hold : m ∈ u.evictableLeaves := mem_of_mem_updateLeafStatus hmem' hmn
      exact hold

theorem load_tree {t : RadixTree} {a x : NodeId} {ns : List NodeId} {v : List Nat}
    (h : TreeInv p t A) (had : t.onDevice a) (hdown : Down t.par a ns x)
    (hoff : ∀ n ∈ ns, n ∈ A ∧ ¬ t.onDevice n) (hne : ns ≠ [])
    (hv : v.length = (hostSlots t ns).length) :
    (updateEvictableLeafSets (commitLoad t ns v) x).onDevice x ∧
    ∃ d t', acquireLoop ((updateEvictableLeafSets (commitLoad t ns v) x).counter + 1)
        (updateEvictableLeafSets (commitLoad t ns v) x) x 0 = .ok (d, t') ∧
      IsLoad p t t' A a ns x v ∧ TreeInv p t' A := by
  obtain ⟨hnodes, hcounter, hroot, hcounts, hleaves⟩ :=
    commitLoad_spec ns t a x v ∅ h.core h.counts had hdown hoff hv
  have hfilled := setValues_filled ns t a x v ∅ ∅ h.core h.counts had hdown hoff hv
  set u := (setValues t ns v).addEvictable v.length
  set w := commitLoad t ns v with hw
  have hxns := hdown.last_mem hne
  have hxA := (hoff x hxns).1
  obtain ⟨hanc, hancs⟩ := hdown.anc
  have hcore : CoreOn p w A := hfilled.core.of_nodes hnodes hcounter hroot
  have hpar : w.par = t.par := by
    funext n
    rw [par, hnodes]
    exact hfilled.fill.par_eq n
  have hrootEq : w.rootNode = t.rootNode := hroot.trans hfilled.fill.root_eq
  have hrootns : t.rootNode ∉ ns := fun hmem => (hoff _ hmem).2 h.core.root_device
  have hrootLeaf : w.rootNode ∉ w.evictableLeaves := by
    rw [hrootEq]
    exact fun hmem =>
      (h.mem_leaves.mp (hleaves _ hrootns hmem)).ne_root rfl
  have hcounts' := hcounts.root_exact hrootLeaf
  have hcore' := updateEvictableLeafSets_core hcore x
  have hcounts'' := updateEvictableLeafSets_counts hcore hcounts' hxA
  rw [Set.empty_sdiff] at hcounts''
  have hdev : (updateEvictableLeafSets w x).onDevice x := by
    show w.onDevice x
    rw [onDevice, hnodes]
    exact hfilled.device x hxns
  obtain ⟨d, t', hrun, hcoreEnd, hcountsEnd, hl⟩ := acquire_counts hcore' hcounts'' hxA hdev
  rw [show (updateEvictableLeafSets w x).par = t.par from hpar,
    show (updateEvictableLeafSets w x).rootNode = t.rootNode from hrootEq] at hl
  refine ⟨hdev, d, t', hrun, ⟨hdown, hoff, u, hfilled,
    hl.of_nodes hnodes.symm hcounter.symm hroot.symm rfl rfl rfl⟩, hcoreEnd,
    hcountsEnd.mono ?_ subset_rfl⟩
  · rintro m ⟨⟨⟨hm, hmr⟩, _⟩, hno⟩
    refine hno ⟨hmr, ?_⟩
    show Anc w.par m x
    rw [hpar]
    rcases hm with hm | rfl | hm
    · exact absurd hm (Set.notMem_empty m)
    · exact hanc
    · exact hancs m hm

end Load

end Fluxfer.Unified
