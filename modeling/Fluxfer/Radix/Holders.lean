import Fluxfer.Radix.Changes

/-!
# Lock counts and their holders

`HeldBy t A hs`: the lock count of every node but the root is the number of holders in `hs`
whose node lies in its subtree. A split between a holder's node and the root is where this
needs an argument: the new node takes the lock count of the node below it, which has the
same holders in its subtree.
-/

namespace Fluxfer.Radix

open ParentTree Finset

open Classical in
/-- The number of holders whose node is `n` or lies below it. -/
noncomputable def holdersBelow (t : RadixTree) (hs : List NodeId) (n : NodeId) : Nat :=
  hs.countP fun h => decide (Anc t.par n h)

structure HeldBy (t : RadixTree) (A : Finset NodeId) (hs : List NodeId) : Prop where
  mem : ∀ h ∈ hs, h ∈ A
  count : ∀ n ∈ A, n ≠ t.rootNode → (t.nodes n).lockRef = holdersBelow t hs n

theorem init_heldBy : HeldBy RadixTree.init {0} [] := by
  refine ⟨?_, ?_⟩
  · intro h hh
    cases hh
  · intro n hn hr
    exact absurd (mem_singleton.mp hn) hr

theorem holdersBelow_congr {t t' : RadixTree} {hs : List NodeId} {n n' : NodeId}
    (h : ∀ m ∈ hs, (Anc t'.par n' m ↔ Anc t.par n m)) :
    holdersBelow t' hs n' = holdersBelow t hs n := by
  apply List.countP_congr
  intro m hm
  simp [h m hm]

namespace HeldBy

variable {p : CacheParams} {t t' : RadixTree} {A : Finset NodeId} {hs : List NodeId}

variable (h : HeldBy t A hs)
include h

theorem lock_le_parent (hshape : ShapeOn p t A) {n q : NodeId} (hn : n ∈ A)
    (hq : t.par n = some q) (hqr : q ≠ t.rootNode) : (t.nodes n).lockRef ≤ (t.nodes q).lockRef := by
  rw [h.count n hn (hshape.rooted.ne_root_of_par hq),
    h.count q (hshape.rooted.mem_of_par hn hq) hqr]
  apply Int.ofNat_le.mpr
  apply List.countP_mono_left
  intro m _ hm
  simp only [decide_eq_true_eq] at hm ⊢
  exact anc_trans (anc_step hq (anc_refl _ _)) hm

theorem no_holder_below {n : NodeId} (hn : n ∈ A) (hr : n ≠ t.rootNode)
    (h0 : (t.nodes n).lockRef = 0) : ∀ m ∈ hs, ¬ Anc t.par n m := by
  have hcount := h.count n hn hr
  have hzero : holdersBelow t hs n = 0 := by omega
  intro m hm hanc
  have := List.countP_eq_zero.mp hzero m hm
  simp [hanc] at this

theorem lock_pos {n m : NodeId} (hn : n ∈ A) (hr : n ≠ t.rootNode)
    (hm : m ∈ hs) (hanc : Anc t.par n m) : 0 < (t.nodes n).lockRef := by
  rw [h.count n hn hr]
  have : 0 < holdersBelow t hs n := List.countP_pos_iff.mpr ⟨m, hm, by simp [hanc]⟩
  omega

theorem split {c : NodeId} {k : Nat} (hshape : ShapeOn p t A)
    (hsplit : IsSplit p.pageSize t t' c k) (hc : c ∈ A) (hcr : c ≠ t.rootNode) :
    HeldBy t' (insert t.counter A) hs := by
  have hw := hshape.not_mem_counter
  have hanc : ∀ n, ∀ m ∈ A, (Anc t'.par n m ↔ Anc t.par n m ∨ (n = t.counter ∧ Anc t.par c m)) := by
    intro n m hm
    rw [hsplit.par_eq]
    exact hshape.rooted.anc_splice hc hcr hw m hm
  refine ⟨fun m hm => mem_insert_of_mem (h.mem m hm), ?_⟩
  intro n hn hr
  rw [hsplit.root_eq] at hr
  rw [hsplit.lock_eq]
  rcases mem_insert.mp hn with rfl | hnA
  · -- the new node and `c` are above the same holders
    rw [if_pos rfl, h.count c hc hcr]
    congr 1
    apply holdersBelow_congr
    intro m hm
    rw [hanc _ m (h.mem m hm)]
    have : ¬ Anc t.par t.counter m := fun ha => hw (hshape.rooted.anc_mem (h.mem m hm) ha)
    tauto
  · have hnw := hshape.ne_counter _ hnA
    rw [if_neg hnw, h.count n hnA hr]
    congr 1
    apply holdersBelow_congr
    intro m hm
    rw [hanc n m (h.mem m hm)]
    tauto

theorem graft {node : NodeId} {key : RadixKey} {value : List Nat}
    (hshape : ShapeOn p t A) (hg : IsGraft p.pageSize t t' node key value) :
    HeldBy t' (insert t.counter A) hs := by
  have hw := hshape.not_mem_counter
  have hanc : ∀ n, ∀ m ∈ A, (Anc t'.par n m ↔ Anc t.par n m) := by
    intro n m hm
    rw [hg.par_eq]
    exact hshape.rooted.anc_graft hw m hm
  refine ⟨fun m hm => mem_insert_of_mem (h.mem m hm), ?_⟩
  intro n hn hr
  rw [hg.root_eq] at hr
  rw [hg.lock_eq]
  rcases mem_insert.mp hn with rfl | hnA
  · rw [if_pos rfl]
    have : holdersBelow t' hs t.counter = 0 := by
      apply List.countP_eq_zero.mpr
      intro m hm
      simp only [decide_eq_true_eq]
      rw [hanc _ m (h.mem m hm)]
      exact fun ha => hw (hshape.rooted.anc_mem (h.mem m hm) ha)
    omega
  · have hnw := hshape.ne_counter _ hnA
    rw [if_neg hnw, h.count n hnA hr]
    congr 1
    symm
    apply holdersBelow_congr
    intro m hm
    exact hanc n m (h.mem m hm)

theorem remove {x : NodeId} (hr : IsRemove p.pageSize t t' x) (hx : x ∈ A)
    (hxr : x ≠ t.rootNode) (h0 : (t.nodes x).lockRef = 0) : HeldBy t' (A.erase x) hs := by
  have hpar : t'.par = t.par := funext hr.par_eq
  refine ⟨?_, ?_⟩
  · intro m hm
    refine mem_erase.mpr ⟨?_, h.mem m hm⟩
    rintro rfl
    exact h.no_holder_below hx hxr h0 m hm (anc_refl _ _)
  · intro n hn hnr
    rw [hr.root_eq] at hnr
    rw [hr.lock_eq, h.count n (mem_of_mem_erase hn) hnr]
    congr 1
    apply holdersBelow_congr
    intro m _
    rw [hpar]

theorem congr (hroot : t'.rootNode = t.rootNode) (hpar : ∀ n, t'.par n = t.par n)
    (hlock : ∀ n, (t'.nodes n).lockRef = (t.nodes n).lockRef) : HeldBy t' A hs := by
  have hpar' : t'.par = t.par := funext hpar
  refine ⟨h.mem, fun n hn hr => ?_⟩
  rw [hlock, h.count n hn (hroot ▸ hr)]
  unfold holdersBelow
  rw [hpar']

theorem perm {hs' : List NodeId} (hp : hs.Perm hs') : HeldBy t A hs' := by
  refine ⟨fun m hm => h.mem m (hp.mem_iff.mpr hm), fun n hn hr => ?_⟩
  rw [h.count n hn hr]
  unfold holdersBelow
  rw [hp.countP_eq]

theorem lock {x : NodeId} (hx : x ∈ A)
    (hl : IsRelock t t' (pathDelta t.par t.rootNode x 1)) : HeldBy t' A (x :: hs) := by
  have hpar : t'.par = t.par := funext hl.par_eq
  refine ⟨?_, fun n hn hr => ?_⟩
  · intro m hm
    rcases List.mem_cons.mp hm with rfl | hm
    · exact hx
    · exact h.mem m hm
  · have hr' : n ≠ t.rootNode := hl.root_eq ▸ hr
    rw [hl.lock_eq, h.count n hn hr', pathDelta]
    unfold holdersBelow
    rw [hpar]
    by_cases hanc : Anc t.par n x <;> simp [hr', hanc]

theorem unlock {x : NodeId} (hx : x ∈ hs)
    (hl : IsRelock t t' (pathDelta t.par t.rootNode x (-1))) : HeldBy t' A (hs.erase x) := by
  have hpar : t'.par = t.par := funext hl.par_eq
  refine ⟨fun m hm => h.mem m (List.mem_of_mem_erase hm), fun n hn hr => ?_⟩
  have hr' : n ≠ t.rootNode := hl.root_eq ▸ hr
  have hcount : holdersBelow t hs n =
      holdersBelow t (hs.erase x) n +
        if (open Classical in decide (Anc t.par n x)) then 1 else 0 := by
    unfold holdersBelow
    rw [(List.perm_cons_erase hx).countP_eq, List.countP_cons]
  rw [hl.lock_eq, h.count n hn hr', hcount, pathDelta]
  have hsame : holdersBelow t' (hs.erase x) n = holdersBelow t (hs.erase x) n := by
    unfold holdersBelow
    rw [hpar]
  rw [hsame]
  by_cases hanc : Anc t.par n x <;> simp [hr', hanc]

end HeldBy

end Fluxfer.Radix
