import Fluxfer.Hi.Cache
import Fluxfer.Radix.Ownership

/-!
# Changes of a two-tier tree

The changes of the tree that only `HiRadixCache` makes, each of which keeps `TreeInv`: a node
gets or loses its device slots, a node gets a backup, a node leaves the host, and a chain of
nodes gets device slots and a lock.
-/

namespace Fluxfer.Radix

open Hi ParentTree Pages RadixTree HiCache List Option

variable {par : NodeId → Option NodeId} {a x : NodeId} {ns : List NodeId}

section Touch

variable {p : CacheParams} {t u : RadixTree} {A : Finset NodeId} {q : NodeId}

theorem IsTouch.keepsPaths (ht : IsTouch t u x) {B : Set NodeId}
    (hB : ∀ n ∈ B, ¬ Anc t.par x n) : KeepsPaths t u B := by
  refine .of_values ht.root_eq ht.par_eq ht.key_eq fun n hn m hm => ht.value_eq m ?_
  rintro rfl
  exact hB n hn hm

/-- The updates that follow a change of residency of `x`, whose parent is `q`. -/
def repair (u : RadixTree) (x q : NodeId) : RadixTree :=
  ((u.updateLeafStatus x).updateHostLeafStatus x).updateLeafStatus q

theorem repair_counts {S H : Set NodeId} (hc : CoreOn p u A) (h : CountsOff u A S H)
    (hx : x ∈ A) (hq : q ∈ A) (hS : S ⊆ {x, q}) (hH : H ⊆ {x}) : TreeInv p (repair u x q) A := by
  have hc1 : CoreOn p (u.updateLeafStatus x) A := hc.of_nodes rfl rfl rfl
  have hc2 : CoreOn p ((u.updateLeafStatus x).updateHostLeafStatus x) A := hc.of_nodes rfl rfl rfl
  have h1 := h.updateLeafStatus hc hx
  have h2 := h1.updateHostLeafStatus hc1 hx
  have h3 := h2.updateLeafStatus hc2 hq
  refine ⟨hc.of_nodes rfl rfl rfl, h3.mono ?_ ?_⟩
  · rintro n ⟨⟨hn, hnx⟩, hnq⟩
    rcases hS hn with rfl | rfl
    · exact hnx rfl
    · exact hnq rfl
  · rintro n ⟨hn, hnx⟩
    exact hnx (hH hn)

/-- A node loses its `k` device slots. -/
def emptyNode (t : RadixTree) (x : NodeId) (k : Nat) : RadixTree :=
  (t.addEvictable (-k)).modify x fun y => { y with value := none }

theorem emptyNode_isTouch (t : RadixTree) (x : NodeId) (k : Nat) : IsTouch t (emptyNode t x k) x := by
  have h := modify_isTouch (t := t) (x := x) (f := fun y => { y with value := none }) rfl rfl rfl
  exact h.of_nodes rfl rfl rfl

theorem emptyNode_self (t : RadixTree) (x : NodeId) (k : Nat) :
    (emptyNode t x k).nodes x = { t.nodes x with value := none } := if_pos rfl

/-- A leaf of the device with a backup leaves the device: the leaf sets are to be updated at the
node and at its parent. -/
theorem emptyNode_counts (h : TreeInv p t A) (hl : DeviceLeaf t A x) (hback : t.backedUp x)
    (hq : t.par x = some q) : CoreOn p (emptyNode t x (t.len x)) A ∧
      CountsOff (emptyNode t x (t.len x)) A {x, q} {x} := by
  have hx := hl.mem
  have ht := emptyNode_isTouch t x (t.len x)
  have hself := emptyNode_self t x (t.len x)
  have hoff : ¬ (emptyNode t x (t.len x)).onDevice x := by
    rw [onDevice, hself]
    exact not_not.mpr rfl
  have hback' : (emptyNode t x (t.len x)).backedUp x ↔ t.backedUp x := by
    rw [backedUp, hself, backedUp]
  have hcore : CoreOn p (emptyNode t x (t.len x)) A := by
    apply ht.core h.core hl.ne_root
    · intro v hv
      rw [hself] at hv
      cases hv
    · rw [hself]
      exact h.core.host_len x hx
    · rw [hself]
      exact hl.unlocked.ge
    · exact fun hd => absurd hd hoff
    · exact fun _ => hl.childless
    · exact fun _ q' hq' => h.core.backed_par x hx q' hq' hback
    · exact fun hno => absurd (hback'.mpr hback) hno
    · rw [hback', hself]
      exact fun _ => ⟨hback, hl.unlocked⟩
  have he : (emptyNode t x (t.len x)).evictableWeight x - t.evictableWeight x = -(t.len x) := by
    rw [evictableWeight, if_neg fun hd => hoff hd.1, evictableWeight,
      if_pos ⟨hl.device, hl.unlocked⟩, zero_sub]
  have hp : (emptyNode t x (t.len x)).protectedWeight x - t.protectedWeight x = 0 := by
    simp [protectedWeight, hself, hl.unlocked]
  refine ⟨hcore, (ht.counts hx h.counts (by rw [he]; rfl) (by rw [hp, add_zero]; rfl)
    rfl rfl).mono ?_ ?_⟩
  · rintro n (hn | hn | ⟨hn, _⟩)
    · exact absurd hn (Set.notMem_empty n)
    · exact .inl hn
    · rw [hq] at hn
      exact .inr (some.inj hn).symm
  · rintro n (hn | hn | ⟨_, hn⟩)
    · exact absurd hn (Set.notMem_empty n)
    · exact hn
    · exact absurd hback' hn

theorem emptyNode_treeInv (h : TreeInv p t A) (hl : DeviceLeaf t A x) (hback : t.backedUp x)
    (hq : t.par x = some q) : TreeInv p (repair (emptyNode t x (t.len x)) x q) A := by
  obtain ⟨hcore, hcounts⟩ := emptyNode_counts h hl hback hq
  exact repair_counts hcore hcounts hl.mem (h.core.shape.rooted.mem_of_par hl.mem hq) subset_rfl
    subset_rfl

theorem backup_treeInv {f : TreeNode → TreeNode} {v : List Nat} (hf : ∀ y, f y = { y with
      hostValue := some v, hicacheDemoteAfterWrite := (f y).hicacheDemoteAfterWrite })
    (h : TreeInv p t A) (hx : x ∈ A) (hd : t.onDevice x) (hq : t.par x = some q)
    (hqb : t.backedUp q) (hv : v.length = t.len x) :
    TreeInv p (t.modify x f) A ∧ (t.modify x f).onDevice x := by
  set u := t.modify x f
  have ht : IsTouch t u x := modify_isTouch (by rw [hf]) (by rw [hf]) (by rw [hf])
  have hself : u.nodes x = f (t.nodes x) := if_pos rfl
  have hlock : (u.nodes x).lockRef = (t.nodes x).lockRef := by rw [hself, hf]
  have hvalue : (u.nodes x).value = (t.nodes x).value := by rw [hself, hf]
  have hhost : (u.nodes x).hostValue = some v := by rw [hself, hf]
  have hd' : u.onDevice x := (onDevice_congr hvalue).mpr hd
  have hback' : u.backedUp x := by
    rw [backedUp, hhost]
    exact some_ne_none v
  have hqd := h.core.device_par x hx q hq hd
  have hcore : CoreOn p u A := by
    apply ht.core h.core (h.core.shape.rooted.ne_root_of_par hq)
    · rw [hvalue]
      exact h.core.value_len x hx
    · intro w hw
      rw [hhost] at hw
      obtain rfl := some.inj hw
      exact hv
    · rw [hlock]
      exact h.core.lock_nonneg x hx
    · exact fun _ q' hq' => h.core.device_par x hx q' hq' hd
    · exact fun hno => absurd hd' hno
    · intro _ q' hq'
      rw [hq] at hq'
      obtain rfl := some.inj hq'
      exact hqb
    · exact fun hno => absurd hback' hno
    · exact fun hno => absurd hd' hno
  have hqx : q ≠ x := h.core.shape.rooted.par_ne hx hq
  refine ⟨⟨hcore, h.counts.evictable_eq.trans ?_, h.counts.protected_eq.trans ?_,
    fun m hm => (h.counts.leaves_iff m hm).trans ?_,
    fun m hm => (h.counts.hostLeaves_iff m hm).trans ?_⟩, hd'⟩
  · rw [ht.sum_evictable hx]
    simp [evictableWeight, hlock, hd, hd', ht.len_eq]
  · rw [ht.sum_protected hx]
    simp [protectedWeight, hlock, ht.len_eq]
  · by_cases hmx : m = x
    · subst hmx
      refine (deviceLeaf_congr Iff.rfl ht.root_eq (iff_of_true hd' hd) hlock
        (ht.childless_iff (fun _ => ht.onDevice_iff) fun hmm => ?_)).symm
      exact absurd (some.inj (hq.symm.trans hmm)) hqx
    · exact (ht.deviceLeaf_iff hmx fun _ => iff_of_true hd' hd).symm
  · -- neither the node nor its parent are off the device
    by_cases hmx : m = x
    · subst hmx
      exact iff_of_false (fun hleaf => hleaf.off hd) (fun hleaf => hleaf.off hd')
    · by_cases hmq : m = q
      · subst hmq
        exact iff_of_false (fun hleaf => hleaf.off hqd)
          (fun hleaf => hleaf.off ((ht.onDevice_iff hqx).mpr hqd))
      · refine (ht.hostLeaf_iff hmx fun hxm => ?_).symm
        rw [hq] at hxm
        exact absurd (some.inj hxm).symm hmq

end Touch

/-! ## Leaves of the host -/

section Host

variable {q : NodeId}
variable {p : CacheParams} {t : RadixTree} {A : Finset NodeId}

theorem HostLeaf.no_child (hl : HostLeaf t A x) (h : CoreOn p t A) : ∀ c ∈ A, t.par c ≠ some x := by
  intro c hc hcx
  have hoff : ¬ t.onDevice c := fun hd => hl.off (h.device_par c hc x hcx hd)
  exact hl.childless c hc hcx (h.off_device c hc hoff).1

/-- A leaf of the host leaves the set. -/
def eraseHostLeaf (u : RadixTree) (x : NodeId) : RadixTree :=
  { u with evictableHostLeaves := u.evictableHostLeaves.erase x }

/-- The tree after `evict_host` has taken `x` from its parent `q`. -/
def dropHostLeaf (u : RadixTree) (x q : NodeId) : RadixTree :=
  (eraseHostLeaf u x).updateHostLeafStatus q

theorem eraseHostLeaf_counts (h : TreeInv p t A) (hl : HostLeaf t A x) (hq : t.par x = some q) :
    CoreOn p (eraseHostLeaf (popped p.pageSize t x q) x) (A.erase x) ∧
      CountsOff (eraseHostLeaf (popped p.pageSize t x q) x) (A.erase x) ∅ {q} := by
  have hx := hl.mem
  have hxr := h.core.shape.rooted.ne_root_of_par hq
  have hr : IsRemove p.pageSize t (eraseHostLeaf (popped p.pageSize t x q) x) x :=
    (popped_isRemove p.pageSize hq).of_nodes rfl rfl rfl
  refine ⟨hr.core h.core hx hxr (hl.no_child h.core),
    (hr.counts h hx ?_ ?_ (fun m => ?_) fun _ => ListSet.mem_erase).mono ?_ ?_⟩
  · rw [evictableWeight, if_neg fun hd => hl.off hd.1, sub_zero]
    rfl
  · rw [protectedWeight, (h.core.off_device x hx hl.off).2, if_neg (lt_irrefl 0), sub_zero]
    rfl
  · refine (and_iff_right_of_imp ?_).symm
    rintro hm rfl
    exact hl.off (h.mem_leaves.mp hm).device
  · exact fun m hm => absurd hm.2 hl.off
  · rintro m ⟨hm, -⟩
    exact some.inj (hm.symm.trans hq)

theorem dropHostLeaf_treeInv (h : TreeInv p t A) (hl : HostLeaf t A x) (hq : t.par x = some q) :
    IsRemove p.pageSize t (dropHostLeaf (popped p.pageSize t x q) x q) x ∧
      TreeInv p (dropHostLeaf (popped p.pageSize t x q) x q) (A.erase x) := by
  have hqx : q ≠ x := h.core.shape.rooted.par_ne hl.mem hq
  have hqA' : q ∈ A.erase x :=
    Finset.mem_erase.mpr ⟨hqx, h.core.shape.rooted.mem_of_par hl.mem hq⟩
  obtain ⟨hcore, hcounts⟩ := eraseHostLeaf_counts h hl hq
  refine ⟨(popped_isRemove p.pageSize hq).of_nodes rfl rfl rfl, hcore.of_nodes rfl rfl rfl, ?_⟩
  apply (hcounts.updateHostLeafStatus hcore hqA').mono subset_rfl
  simp

end Host

/-! ## A chain of nodes gets device slots -/

/-- The nodes from `a` down to `x`, without `a`, each the parent of the next. -/
inductive Down (par : NodeId → Option NodeId) : NodeId → List NodeId → NodeId → Prop
  | nil (a : NodeId) : Down par a [] a
  | cons {a n x : NodeId} {ns : List NodeId} (hn : par n = some a) (h : Down par n ns x) :
      Down par a (n :: ns) x

section

variable (h : Down par a ns x)
include h

theorem Down.anc : Anc par a x ∧ ∀ n ∈ ns, Anc par n x := by
  induction h with
  | nil a => exact ⟨anc_refl _ _, nofun⟩
  | cons hn _ ih =>
    refine ⟨anc_trans (anc_step hn (anc_refl _ _)) ih.1, ?_⟩
    intro m hm
    rcases mem_cons.mp hm with rfl | hm
    · exact ih.1
    · exact ih.2 m hm

theorem Down.mem_or_anc {m : NodeId} (hm : Anc par m x) : m ∈ ns ∨ Anc par m a := by
  induction h with
  | nil a => exact .inr hm
  | @cons a n x ns hn _ ih =>
    rcases ih hm with hmem | hanc
    · exact .inl (mem_cons_of_mem _ hmem)
    · rcases (anc_iff_of_par hn).mp hanc with rfl | hanc
      · exact .inl mem_cons_self
      · exact .inr hanc

theorem Down.congr {par' : NodeId → Option NodeId}
    (hp : ∀ n ∈ ns, par' n = par n) : Down par' a ns x := by
  induction h with
  | nil a => exact .nil a
  | cons hn _ ih =>
    exact .cons ((hp _ mem_cons_self).trans hn)
      (ih fun m hm => hp m (mem_cons_of_mem _ hm))

theorem Down.par_anc : ∀ n ∈ ns, ∃ q, par n = some q ∧ Anc par a q := by
  induction h with
  | nil a => exact nofun
  | @cons a n x ns hn _ ih =>
    intro m hm
    rcases mem_cons.mp hm with rfl | hm
    · exact ⟨a, hn, anc_refl _ _⟩
    · obtain ⟨q, hq, hanc⟩ := ih m hm
      exact ⟨q, hq, anc_trans (anc_step hn (anc_refl _ _)) hanc⟩

theorem Down.last_mem (hne : ns ≠ []) : x ∈ ns := by
  induction h with
  | nil a => exact absurd rfl hne
  | @cons a n x ns _ h ih =>
    by_cases hns : ns = []
    · subst hns
      cases h
      exact mem_cons_self
    · exact mem_cons_of_mem _ (ih hns)

end

/-- The host slots of a chain, from the top. -/
def hostSlots (t : RadixTree) (ns : List NodeId) : List Nat :=
  (ns.map (hostValue t)).flatten

/-- `u` differs from `t` in the device slots of the nodes `ns`, and in sizes and sets. -/
structure IsFill (t u : RadixTree) (ns : List NodeId) : Prop where
  counter_eq : u.counter = t.counter
  root_eq : u.rootNode = t.rootNode
  par_eq : ∀ n, u.par n = t.par n
  key_eq : ∀ n, (u.nodes n).key = (t.nodes n).key
  find_eq : ∀ n ck, u.find n ck = t.find n ck
  lock_eq : ∀ n, (u.nodes n).lockRef = (t.nodes n).lockRef
  host_eq : ∀ n, (u.nodes n).hostValue = (t.nodes n).hostValue
  value_eq : ∀ n, n ∉ ns → (u.nodes n).value = (t.nodes n).value

theorem IsFill.keepsPaths {t u : RadixTree} (h : IsFill t u ns) {B : Set NodeId}
    (hB : ∀ n ∈ B, ∀ m ∈ ns, ¬ Anc t.par m n) : KeepsPaths t u B :=
  .of_values h.root_eq h.par_eq h.key_eq fun n hn m hm =>
    h.value_eq m fun hmem => hB n hn m hmem hm

theorem setValues_addEvictable (d : Int) :
    ∀ (ns : List NodeId) (t : RadixTree) (v : List Nat),
      setValues (t.addEvictable d) ns v = (setValues t ns v).addEvictable d := by
  intro ns
  induction ns with
  | nil => exact fun _ _ => rfl
  | cons n ns ih =>
    intro t v
    exact ih (t.modify n fun x => { x with value := some (v.take (hostValue t n).length) })
      (v.drop (hostValue t n).length)

theorem addEvictable_add (t : RadixTree) (a b : Int) :
    (t.addEvictable a).addEvictable b = t.addEvictable (a + b) := by
  simp only [addEvictable, add_assoc]

section Fill

variable {t u : RadixTree} {n : NodeId} {v : List Nat}
variable {p : CacheParams} {A : Finset NodeId}

/-- A node off the device, below a node on the device, gets slots that are counted. -/
def fillNode (t : RadixTree) (n : NodeId) (v : List Nat) : RadixTree :=
  (t.modify n fun x => { x with value := some v }).addEvictable v.length

theorem fillNode_isTouch (t : RadixTree) (n : NodeId) (v : List Nat) :
    IsTouch t (fillNode t n v) n := by
  have h := modify_isTouch (t := t) (x := n) (f := fun x => { x with value := some v }) rfl rfl rfl
  exact h.of_nodes rfl rfl rfl

theorem fillNode_self (t : RadixTree) (n : NodeId) (v : List Nat) :
    (fillNode t n v).nodes n = { t.nodes n with value := some v } := if_pos rfl

theorem fillNode_core (h : CoreOn p t A) (hn : n ∈ A) (ha : t.par n = some a) (had : t.onDevice a)
    (hoff : ¬ t.onDevice n) (hv : v.length = t.len n) : CoreOn p (fillNode t n v) A := by
  have hself := fillNode_self t n v
  have hon : (fillNode t n v).onDevice n := by
    rw [onDevice, hself]
    exact some_ne_none v
  have hback : (fillNode t n v).backedUp n ↔ t.backedUp n := by
    rw [backedUp, hself, backedUp]
  apply (fillNode_isTouch t n v).core h (h.shape.rooted.ne_root_of_par ha)
  · intro w hw
    rw [hself] at hw
    obtain rfl := some.inj hw
    exact hv
  · rw [hself]
    exact h.host_len n hn
  · rw [hself]
    exact h.lock_nonneg n hn
  · intro _ q hq
    rw [ha] at hq
    obtain rfl := some.inj hq
    exact had
  · exact fun hno => absurd hon hno
  · exact fun hb q hq => h.backed_par n hn q hq (hback.mp hb)
  · exact fun hb => absurd (hback.mpr (h.off_device n hn hoff).1) hb
  · exact fun hno => absurd hon hno

theorem fillNode_weight (h : CoreOn p t A) (hn : n ∈ A) (hoff : ¬ t.onDevice n)
    (hv : v.length = t.len n) :
    (fillNode t n v).evictableWeight n - t.evictableWeight n = v.length ∧
      (fillNode t n v).protectedWeight n - t.protectedWeight n = 0 := by
  have hself := fillNode_self t n v
  have hlock := (h.off_device n hn hoff).2
  have hlen : (fillNode t n v).len n = t.len n := (fillNode_isTouch t n v).len_eq n
  constructor
  · simp [evictableWeight, onDevice, hself, hlock, hlen, hv]
    simp [onDevice] at hoff
    simp [hoff]
  · simp [protectedWeight, hself, hlock]

theorem fillNode_counts {S H : Set NodeId} (h : CoreOn p t A) (hc : CountsOff t A S H) (hn : n ∈ A)
    (ha : t.par n = some a) (hoff : ¬ t.onDevice n) (hv : v.length = t.len n) :
    CountsOff (fillNode t n v) A (S ∪ {m | m = a ∨ m = n}) (H ∪ {n}) := by
  have hself := fillNode_self t n v
  obtain ⟨he, hp⟩ := fillNode_weight h hn hoff hv
  refine ((fillNode_isTouch t n v).counts hn hc ?_ ?_ rfl rfl).mono ?_ ?_
  · rw [he]
    rfl
  · rw [hp, add_zero]
    rfl
  · rintro m (hm | hm | ⟨hm, _⟩)
    · exact .inl hm
    · exact .inr (.inr hm)
    · rw [ha] at hm
      exact .inr (.inl (some.inj hm).symm)
  · rintro m (hm | hm | ⟨_, hm⟩)
    · exact .inl hm
    · exact .inr hm
    · refine absurd ?_ hm
      rw [backedUp, hself, backedUp]

theorem fillNode_treeInv (h : TreeInv p t A) (hn : n ∈ A) (ha : t.par n = some a)
    (had : t.onDevice a) (hoff : ¬ t.onDevice n) (hv : v.length = t.len n) :
    TreeInv p (repair (fillNode t n v) n a) A := by
  refine repair_counts (fillNode_core h.core hn ha had hoff hv)
    (fillNode_counts h.core h.counts hn ha hoff hv) hn (h.core.shape.rooted.mem_of_par hn ha) ?_ ?_
  · rintro m (hm | rfl | rfl)
    · exact absurd hm (Set.notMem_empty m)
    · exact .inr rfl
    · exact .inl rfl
  · rintro m (hm | hm)
    · exact absurd hm (Set.notMem_empty m)
    · exact hm

theorem touch_treePages {ps : Nat} (ht : IsTouch t u n) (hn : n ∈ A) (hoff : ¬ t.onDevice n)
    (hv : u.deviceValue n = v) :
    treePages ps u A = treePages ps t A + (pagesOf ps v : Multiset Nat) := by
  have hempty : t.deviceValue n = [] := by
    rw [deviceValue, not_not.mp hoff]
    rfl
  unfold treePages
  rw [← Finset.add_sum_erase A _ hn, ← Finset.add_sum_erase A _ hn, hv, hempty, pagesOf_nil,
    Multiset.coe_nil, zero_add, add_comm]
  congr 1
  apply Finset.sum_congr rfl
  intro m hm
  rw [deviceValue_congr (ht.value_eq m (Finset.ne_of_mem_erase hm))]

/-- What `load_back` does to a chain of nodes below `a`. -/
structure Filled (p : CacheParams) (t u : RadixTree) (A : Finset NodeId) (a : NodeId)
    (ns : List NodeId) (x : NodeId) (v : List Nat) (S H : Set NodeId) : Prop where
  core : CoreOn p u A
  counts : CountsOff u A (S ∪ {m | m = a ∨ m ∈ ns}) (H ∪ {m | m ∈ ns})
  leaves_eq : u.evictableLeaves = t.evictableLeaves
  fill : IsFill t u ns
  device : ∀ n ∈ ns, u.onDevice n
  label : ∀ w, PathLabel t.par t.deviceValue a w → PathLabel u.par u.deviceValue x (w ++ v)
  pages : treePages p.pageSize u A = treePages p.pageSize t A +
    (pagesOf p.pageSize v : Multiset Nat)
  laid : ValuesLaid p.pageSize t A → Laid p.pageSize v → ValuesLaid p.pageSize u A

/-- The first node of a chain got its slots, which leaves `u` and the chain below it. -/
structure FillsHead (p : CacheParams) (t u : RadixTree) (A : Finset NodeId) (a n : NodeId)
    (ns : List NodeId) (x : NodeId) (v : List Nat) (S H : Set NodeId) : Prop where
  mem : n ∈ A
  off : ¬ t.onDevice n
  not_mem : n ∉ ns
  par : t.par n = some a
  host_len : (hostValue t n).length = t.len n
  len : v.length = t.len n + (hostSlots t ns).length
  take_len : (v.take (t.len n)).length = t.len n
  core : CoreOn p u A
  counts : CountsOff u A (S ∪ {m | m = a ∨ m = n}) (H ∪ {n})
  device : u.onDevice n
  down : Down u.par n ns x
  rest_off : ∀ m ∈ ns, m ∈ A ∧ ¬ u.onDevice m
  rest_len : (v.drop (t.len n)).length = (hostSlots u ns).length

theorem fillsHead {t : RadixTree} {a n x : NodeId} {ns : List NodeId} {v : List Nat}
    {S H : Set NodeId} (hc : CoreOn p t A) (hcount : CountsOff t A S H) (had : t.onDevice a)
    (hdown : Down t.par a (n :: ns) x) (hoff : ∀ m ∈ n :: ns, m ∈ A ∧ ¬ t.onDevice m)
    (hv : v.length = (hostSlots t (n :: ns)).length) :
    FillsHead p t (fillNode t n (v.take (t.len n))) A a n ns x v S H := by
  cases hdown with
  | cons hna hdown =>
  obtain ⟨hn, hnoff⟩ := hoff n mem_cons_self
  -- a chain does not come back to its top
  have hnns : n ∉ ns := by
    intro hmem
    obtain ⟨q, hq, hanc⟩ := hdown.par_anc n hmem
    exact hc.shape.rooted.not_anc_of_par hn hq hanc
  obtain ⟨w, hw⟩ := ne_none_iff_exists'.mp (hc.off_device n hn hnoff).1
  have hk : (hostValue t n).length = t.len n := by
    rw [hostValue, hw]
    exact hc.host_len n hn w hw
  have hlen : v.length = t.len n + (hostSlots t ns).length := by
    rw [hv, hostSlots, map_cons, flatten_cons, length_append, hk, hostSlots]
  have htake : (v.take (t.len n)).length = t.len n := by
    rw [length_take]
    omega
  have htouch := fillNode_isTouch t n (v.take (t.len n))
  have hhost : hostSlots (fillNode t n (v.take (t.len n))) ns = hostSlots t ns := by
    unfold hostSlots
    congr 1
    apply map_congr_left
    intro m hm
    have hmn : m ≠ n := fun e => hnns (e ▸ hm)
    rw [hostValue, htouch.host_eq m hmn, hostValue]
  refine ⟨hn, hnoff, hnns, hna, hk, hlen, htake, fillNode_core hc hn hna had hnoff htake,
    fillNode_counts hc hcount hn hna hnoff htake, ?_, hdown.congr fun m _ => htouch.par_eq m,
    fun m hm => ?_, ?_⟩
  · rw [onDevice, fillNode_self]
    exact some_ne_none _
  · rw [htouch.onDevice_iff fun e => hnns (e ▸ hm)]
    exact hoff m (mem_cons_of_mem _ hm)
  · rw [hhost, length_drop]
    omega

theorem setValues_filled : ∀ (ns : List NodeId) (t : RadixTree) (a x : NodeId) (v : List Nat)
    (S H : Set NodeId), CoreOn p t A → CountsOff t A S H → t.onDevice a → Down t.par a ns x →
    (∀ n ∈ ns, n ∈ A ∧ ¬ t.onDevice n) → v.length = (hostSlots t ns).length →
    Filled p t ((setValues t ns v).addEvictable v.length) A a ns x v S H := by
  intro ns
  induction ns with
  | nil =>
    intro t a x v S H hc hcount had hdown _ hv
    obtain rfl : v = [] := eq_nil_of_length_eq_zero hv
    cases hdown
    have he : (setValues t [] []).addEvictable ([] : List Nat).length = t := by
      simp [setValues, addEvictable]
    rw [he]
    refine ⟨hc, hcount.mono (Set.subset_union_left) Set.subset_union_left, rfl, ?_, ?_, ?_, ?_, ?_⟩
    · exact ⟨rfl, rfl, fun _ => rfl, fun _ => rfl, fun _ _ => rfl, fun _ => rfl, fun _ => rfl,
        fun _ _ => rfl⟩
    · exact nofun
    · intro w hw
      rwa [append_nil]
    · simp [pagesOf_nil]
    · exact fun h _ => h
  | cons n ns ih =>
    intro t a x v S H hc hcount had hdown hoff hv
    have hh := fillsHead hc hcount had hdown hoff hv
    set u := fillNode t n (v.take (t.len n)) with hu
    have htouch := fillNode_isTouch t n (v.take (t.len n))
    have hself := fillNode_self t n (v.take (t.len n))
    have hrest := ih u n x (v.drop (t.len n)) _ _ hh.core hh.counts hh.device hh.down hh.rest_off
      hh.rest_len
    have htree : (setValues t (n :: ns) v).addEvictable v.length =
        (setValues u ns (v.drop (t.len n))).addEvictable (v.drop (t.len n)).length := by
      rw [hu, fillNode, setValues_addEvictable, addEvictable_add, hh.take_len, length_drop,
        setValues, hh.host_len]
      congr 1
      have := hh.len
      omega
    rw [← htree] at hrest
    have hvalue : u.deviceValue n = v.take (t.len n) := by
      rw [deviceValue, hself]
      rfl
    refine ⟨hrest.core, ?_, hrest.leaves_eq, ?_, ?_, ?_, ?_, ?_⟩
    · refine hrest.counts.mono ?_ ?_
      · rintro m ((hm | hm | hm) | hm | hm)
        · exact .inl hm
        · exact .inr (.inl hm)
        · exact .inr (.inr (hm ▸ mem_cons_self))
        · exact .inr (.inr (hm ▸ mem_cons_self))
        · exact .inr (.inr (mem_cons_of_mem _ hm))
      · rintro m ((hm | hm) | hm)
        · exact .inl hm
        · exact .inr (mem_cons.mpr (.inl hm))
        · exact .inr (mem_cons_of_mem _ hm)
    · have hf := hrest.fill
      refine ⟨hf.counter_eq, hf.root_eq, fun m => (hf.par_eq m).trans (htouch.par_eq m),
        fun m => (hf.key_eq m).trans (htouch.key_eq m),
        fun m ck => (hf.find_eq m ck).trans (htouch.find_eq m ck), ?_, ?_, ?_⟩
      · intro m
        rw [hf.lock_eq]
        by_cases hmn : m = n
        · rw [hmn, hself]
        · exact htouch.lock_eq m hmn
      · intro m
        rw [hf.host_eq]
        by_cases hmn : m = n
        · rw [hmn, hself]
        · exact htouch.host_eq m hmn
      · intro m hm
        rw [hf.value_eq m fun hmem => hm (mem_cons_of_mem _ hmem)]
        exact htouch.value_eq m fun e => hm (e ▸ mem_cons_self)
    · intro m hm
      rcases mem_cons.mp hm with rfl | hm
      · rw [onDevice, hrest.fill.value_eq m hh.not_mem, hself]
        exact some_ne_none _
      · exact hrest.device m hm
    · intro l hl
      have hl' : PathLabel u.par u.deviceValue a l := by
        have hpaths : KeepsPaths t u {m | m = a} := htouch.keepsPaths (by
          rintro m rfl
          exact hc.shape.rooted.not_anc_of_par hh.mem hh.par)
        exact hpaths.value a rfl l hl
      have hstep : PathLabel u.par u.deviceValue n (l ++ v.take (t.len n)) := by
        rw [← hvalue]
        exact .step ((htouch.par_eq n).trans hh.par) hl'
      have := hrest.label _ hstep
      rwa [append_assoc, take_append_drop] at this
    · rw [hrest.pages, touch_treePages htouch hh.mem hh.off hvalue, add_assoc, Multiset.coe_add,
        ← pagesOf_append, take_append_drop]
    · intro hlaid hvlaid
      apply hrest.laid
      · intro m hm
        by_cases hmn : m = n
        · rw [hmn, hvalue]
          exact hvlaid.take p.pageSize_pos _
        · rw [deviceValue, htouch.value_eq m hmn]
          exact hlaid m hm
      · exact hvlaid.drop p.pageSize_pos (hc.shape.len_dvd n hh.mem)

/-- After the lock that follows, the leaf sets are exact again: every node that was filled, and
the node above them, is on the locked path. -/
theorem Filled.lock {x : NodeId} {ns : List NodeId} (h : TreeInv p t A)
    (hf : Filled p t u A a ns x v ∅ ∅) (hdown : Down t.par a ns x)
    (hoff : ∀ n ∈ ns, n ∈ A ∧ ¬ t.onDevice n) (hne : ns ≠ []) :
    ∃ d t', walkUp hiIncLockNode (u.counter + 1) u x 0 = .ok (d, t') ∧
      IsRelock u t' (pathDelta t.par t.rootNode x 1) ∧ TreeInv p t' A := by
  have hpar : u.par = t.par := funext hf.fill.par_eq
  obtain ⟨hanc, hancs⟩ := hdown.anc
  have hxns : x ∈ ns := hdown.last_mem hne
  have hroot : u.rootNode ∉ u.evictableLeaves := by
    rw [hf.leaves_eq, hf.fill.root_eq, h.mem_leaves]
    exact fun hl => hl.ne_root rfl
  have hcount := hf.counts.root_exact hroot
  obtain ⟨d, t', hrun, hc, hcount', hl⟩ := (hiIncLockNode_lockStep p).walkUp hf.core hcount
    (.inl trivial) (hoff x hxns).1 (hf.device x hxns) (fun n _ hn => Int.add_nonneg
      (hf.core.lock_nonneg n (hf.core.shape.rooted.anc_mem (hoff x hxns).1 hn)) (by decide)) 0
  rw [hpar, hf.fill.root_eq] at hl hcount'
  refine ⟨d, t', hrun, hl, hc, hcount'.mono ?_ ?_⟩
  · rintro m ⟨⟨hm | rfl | hm, hmr⟩, hno⟩
    · exact hm
    · exact hno ⟨hmr, hanc⟩
    · exact hno ⟨hmr, hancs m hm⟩
  · rintro m ⟨hm | hm, hno⟩
    · exact hm
    refine hno ⟨?_, hancs m hm⟩
    rintro rfl
    exact (hoff _ hm).2 h.core.root_device

end Fill

end Fluxfer.Radix
