import Fluxfer.Radix.Shape

/-!
# Residency and accounting of the tree

`TreeInv p t A` says what holds of the tree between any two operations of a cache: its shape, which
nodes may be on the device, backed up and locked, and that sizes and leaf sets are exact. Each
change of one node keeps all of it.
-/

namespace Fluxfer.Radix

open ParentTree RadixTree

variable {t t' : RadixTree} {x : NodeId} {A : Finset NodeId} {S H : Set NodeId}
  {step : RadixTree → NodeId → RadixTree × Int} {p : CacheParams} {ε : Int} {hi : Prop}

namespace RadixTree

def onDevice (t : RadixTree) (n : NodeId) : Prop := (t.nodes n).value ≠ none

def backedUp (t : RadixTree) (n : NodeId) : Prop := (t.nodes n).hostValue ≠ none

instance (t : RadixTree) (n : NodeId) : Decidable (t.onDevice n) := by
  unfold onDevice
  infer_instance

instance (t : RadixTree) (n : NodeId) : Decidable (t.backedUp n) := by
  unfold backedUp
  infer_instance

/-- What a node adds to `evictable_size_`. -/
def evictableWeight (t : RadixTree) (n : NodeId) : Int :=
  if t.onDevice n ∧ (t.nodes n).lockRef = 0 then t.len n else 0

/-- What a node adds to `protected_size_`. -/
def protectedWeight (t : RadixTree) (n : NodeId) : Int :=
  if 0 < (t.nodes n).lockRef then t.len n else 0

end RadixTree

theorem onDevice_congr {n : NodeId} (h : (t'.nodes n).value = (t.nodes n).value) :
    t'.onDevice n ↔ t.onDevice n := by
  rw [onDevice, h, onDevice]

theorem backedUp_congr {n : NodeId} (h : (t'.nodes n).hostValue = (t.nodes n).hostValue) :
    t'.backedUp n ↔ t.backedUp n := by
  rw [backedUp, h, backedUp]

/-- An unlocked node on the device, without child on the device. -/
structure DeviceLeaf (t : RadixTree) (A : Finset NodeId) (n : NodeId) : Prop where
  mem : n ∈ A
  ne_root : n ≠ t.rootNode
  device : t.onDevice n
  unlocked : (t.nodes n).lockRef = 0
  childless : ∀ c ∈ A, t.par c = some n → ¬ t.onDevice c

/-- A node off the device, without backed-up child. -/
structure HostLeaf (t : RadixTree) (A : Finset NodeId) (n : NodeId) : Prop where
  mem : n ∈ A
  off : ¬ t.onDevice n
  childless : ∀ c ∈ A, t.par c = some n → ¬ t.backedUp c

structure CoreOn (p : CacheParams) (t : RadixTree) (A : Finset NodeId) : Prop where
  shape : ShapeOn p t A
  value_len : ∀ n ∈ A, ∀ v, (t.nodes n).value = some v → v.length = t.len n
  host_len : ∀ n ∈ A, ∀ v, (t.nodes n).hostValue = some v → v.length = t.len n
  lock_nonneg : ∀ n ∈ A, 0 ≤ (t.nodes n).lockRef
  root_lock : (t.nodes t.rootNode).lockRef = 1
  root_device : t.onDevice t.rootNode
  root_backed : t.backedUp t.rootNode
  device_par : ∀ n ∈ A, ∀ q, t.par n = some q → t.onDevice n → t.onDevice q
  backed_par : ∀ n ∈ A, ∀ q, t.par n = some q → t.backedUp n → t.backedUp q
  off_device : ∀ n ∈ A, ¬ t.onDevice n → t.backedUp n ∧ (t.nodes n).lockRef = 0

/-- The sizes are exact, and the leaf sets are exact outside `S` and `H`. -/
structure CountsOff (t : RadixTree) (A : Finset NodeId) (S H : Set NodeId) : Prop where
  evictable_eq : t.evictableSize = ∑ n ∈ A, t.evictableWeight n
  protected_eq : t.protectedSize = ∑ n ∈ A, t.protectedWeight n
  leaves_iff : ∀ n, n ∉ S → (n ∈ t.evictableLeaves ↔ DeviceLeaf t A n)
  hostLeaves_iff : ∀ n, n ∉ H → (n ∈ t.evictableHostLeaves ↔ HostLeaf t A n)

structure TreeInv (p : CacheParams) (t : RadixTree) (A : Finset NodeId) : Prop where
  core : CoreOn p t A
  counts : CountsOff t A ∅ ∅

theorem TreeInv.mem_leaves {p : CacheParams} {n : NodeId} (h : TreeInv p t A) :
    n ∈ t.evictableLeaves ↔ DeviceLeaf t A n :=
  h.counts.leaves_iff n (Set.notMem_empty n)

theorem TreeInv.mem_hostLeaves {p : CacheParams} {n : NodeId} (h : TreeInv p t A) :
    n ∈ t.evictableHostLeaves ↔ HostLeaf t A n :=
  h.counts.hostLeaves_iff n (Set.notMem_empty n)

section Basics

variable {d : Int}
variable {n m : NodeId}

theorem evicted_iff : (t.nodes n).evicted = true ↔ ¬ t.onDevice n := by
  simp [TreeNode.evicted, onDevice]

theorem backuped_iff : (t.nodes n).backuped = true ↔ t.backedUp n := by
  simp [TreeNode.backuped, backedUp, Option.isSome_iff_ne_none]

theorem CoreOn.anc_device (h : CoreOn p t A) (hn : n ∈ A) (hd : t.onDevice n)
    (hm : ParentTree.Anc t.par m n) : m ∈ A ∧ t.onDevice m := by
  induction hm with
  | refl => exact ⟨hn, hd⟩
  | tail _ hp ih => exact ⟨h.shape.rooted.mem_of_par ih.1 hp, h.device_par _ ih.1 _ hp ih.2⟩

theorem CoreOn.anc_backedUp (h : CoreOn p t A) (hn : n ∈ A) (hb : t.backedUp n)
    (hm : ParentTree.Anc t.par m n) : m ∈ A ∧ t.backedUp m := by
  induction hm with
  | refl => exact ⟨hn, hb⟩
  | tail _ hp ih => exact ⟨h.shape.rooted.mem_of_par ih.1 hp, h.backed_par _ ih.1 _ hp ih.2⟩

theorem CoreOn.of_nodes (h : CoreOn p t A) (hn : t'.nodes = t.nodes)
    (hc : t'.counter = t.counter) (hr : t'.rootNode = t.rootNode) : CoreOn p t' A := by
  obtain ⟨nodes, counter, root, e, pr, l, hl⟩ := t
  subst hn hc hr
  exact ⟨⟨h.shape.rooted, h.shape.below, h.shape.find_iff, h.shape.root_len, h.shape.len_pos,
    h.shape.len_dvd, h.shape.bigram, h.shape.ns_par⟩, h.value_len, h.host_len, h.lock_nonneg,
    h.root_lock, h.root_device, h.root_backed, h.device_par, h.backed_par, h.off_device⟩

theorem deviceLeaf_congr {A' : Finset NodeId} (hmem : m ∈ A' ↔ m ∈ A)
    (hroot : t'.rootNode = t.rootNode) (hdev : t'.onDevice m ↔ t.onDevice m)
    (hlock : (t'.nodes m).lockRef = (t.nodes m).lockRef)
    (hchild : (∀ c ∈ A', t'.par c = some m → ¬ t'.onDevice c) ↔
      ∀ c ∈ A, t.par c = some m → ¬ t.onDevice c) : DeviceLeaf t' A' m ↔ DeviceLeaf t A m := by
  constructor
  · intro h
    exact ⟨hmem.mp h.mem, hroot ▸ h.ne_root, hdev.mp h.device, hlock ▸ h.unlocked,
      hchild.mp h.childless⟩
  · intro h
    exact ⟨hmem.mpr h.mem, hroot.symm ▸ h.ne_root, hdev.mpr h.device, hlock.trans h.unlocked,
      hchild.mpr h.childless⟩

theorem hostLeaf_congr {A' : Finset NodeId} (hmem : m ∈ A' ↔ m ∈ A)
    (hdev : t'.onDevice m ↔ t.onDevice m)
    (hchild : (∀ c ∈ A', t'.par c = some m → ¬ t'.backedUp c) ↔
      ∀ c ∈ A, t.par c = some m → ¬ t.backedUp c) : HostLeaf t' A' m ↔ HostLeaf t A m := by
  constructor
  · intro h
    exact ⟨hmem.mp h.mem, mt hdev.mpr h.off, hchild.mp h.childless⟩
  · intro h
    exact ⟨hmem.mpr h.mem, mt hdev.mp h.off, hchild.mpr h.childless⟩

theorem DeviceLeaf.of_nodes (hn : t'.nodes = t.nodes) (hr : t'.rootNode = t.rootNode) :
    DeviceLeaf t' A m ↔ DeviceLeaf t A m := by
  refine deviceLeaf_congr Iff.rfl hr ?_ ?_ ?_ <;> simp only [onDevice, par, hn]

theorem HostLeaf.of_nodes (hn : t'.nodes = t.nodes) : HostLeaf t' A m ↔ HostLeaf t A m := by
  refine hostLeaf_congr Iff.rfl ?_ ?_ <;>
    simp only [onDevice, backedUp, par, hn]

@[simp]
theorem deviceLeaf_updateLeafStatus :
    DeviceLeaf (t.updateLeafStatus n) A m ↔ DeviceLeaf t A m := DeviceLeaf.of_nodes rfl rfl

@[simp]
theorem deviceLeaf_updateHostLeafStatus :
    DeviceLeaf (t.updateHostLeafStatus n) A m ↔ DeviceLeaf t A m := DeviceLeaf.of_nodes rfl rfl

@[simp]
theorem hostLeaf_updateLeafStatus :
    HostLeaf (t.updateLeafStatus n) A m ↔ HostLeaf t A m := HostLeaf.of_nodes rfl

@[simp]
theorem hostLeaf_updateHostLeafStatus :
    HostLeaf (t.updateHostLeafStatus n) A m ↔ HostLeaf t A m := HostLeaf.of_nodes rfl

@[simp]
theorem deviceLeaf_addEvictable :
    DeviceLeaf (t.addEvictable d) A m ↔ DeviceLeaf t A m := DeviceLeaf.of_nodes rfl rfl

@[simp]
theorem hostLeaf_addEvictable :
    HostLeaf (t.addEvictable d) A m ↔ HostLeaf t A m := HostLeaf.of_nodes rfl

theorem CoreOn.lock_zero (h : CoreOn p t A) (hn : n ∈ A) (hl : ¬ 0 < (t.nodes n).lockRef) :
    (t.nodes n).lockRef = 0 :=
  le_antisymm (not_lt.mp hl) (h.lock_nonneg n hn)

theorem deviceLeaf_iff_status (h : CoreOn p t A) (hn : n ∈ A) :
    DeviceLeaf t A n ↔ ¬ ((t.nodes n).evicted = true ∨ 0 < (t.nodes n).lockRef) ∧
      ¬ ∃ c ∈ (t.nodes n).childList, ¬ (t.nodes c).evicted = true := by
  constructor
  · refine fun hl => ⟨?_, ?_⟩
    · rintro (he | hlock)
      · exact evicted_iff.mp he hl.device
      · rw [hl.unlocked] at hlock
        exact lt_irrefl _ hlock
    · rintro ⟨c, hc, hdev⟩
      obtain ⟨hcA, hcn⟩ := (h.shape.mem_childList hn).mp hc
      exact hl.childless c hcA hcn (not_not.mp (mt evicted_iff.mpr hdev))
  · rintro ⟨h1, h2⟩
    refine ⟨hn, ?_, ?_, ?_, ?_⟩
    · rintro rfl
      exact h1 (.inr (h.root_lock ▸ Int.one_pos))
    · exact not_not.mp (mt evicted_iff.mpr fun he => h1 (.inl he))
    · exact h.lock_zero hn fun hlock => h1 (.inr hlock)
    · intro c hc hcn hdev
      exact h2 ⟨c, (h.shape.mem_childList hn).mpr ⟨hc, hcn⟩, fun he => evicted_iff.mp he hdev⟩

theorem hostLeaf_iff_status (h : CoreOn p t A) (hn : n ∈ A) :
    HostLeaf t A n ↔ ¬ (¬ (t.nodes n).evicted = true ∨ 0 < (t.nodes n).lockRef) ∧
      ¬ ∃ c ∈ (t.nodes n).childList, (t.nodes c).backuped = true := by
  constructor
  · refine fun hl => ⟨?_, ?_⟩
    · rintro (he | hlock)
      · exact he (evicted_iff.mpr hl.off)
      · rw [(h.off_device n hn hl.off).2] at hlock
        exact lt_irrefl _ hlock
    · rintro ⟨c, hc, hback⟩
      obtain ⟨hcA, hcn⟩ := (h.shape.mem_childList hn).mp hc
      exact hl.childless c hcA hcn (backuped_iff.mp hback)
  · rintro ⟨h1, h2⟩
    refine ⟨hn, evicted_iff.mp (not_not.mp fun he => h1 (.inl he)), fun c hc hcn hback => ?_⟩
    exact h2 ⟨c, (h.shape.mem_childList hn).mpr ⟨hc, hcn⟩, backuped_iff.mpr hback⟩

open Classical in
/-- `_update_leaf_status` makes the set exact at the node and changes nothing else. -/
theorem updateLeafStatus_eq (h : CoreOn p t A) (hn : n ∈ A) : t.updateLeafStatus n =
    { t with evictableLeaves := t.evictableLeaves.put n (DeviceLeaf t A n) } := by
  simp only [updateLeafStatus, ListSet.put, deviceLeaf_iff_status h hn]
  split_ifs <;> first | rfl | grind

open Classical in
theorem updateHostLeafStatus_eq (h : CoreOn p t A) (hn : n ∈ A) : t.updateHostLeafStatus n =
    { t with evictableHostLeaves := t.evictableHostLeaves.put n (HostLeaf t A n) } := by
  simp only [updateHostLeafStatus, ListSet.put, hostLeaf_iff_status h hn]
  split_ifs <;> first | rfl | grind

theorem CountsOff.updateLeafStatus_self (h : CountsOff t A S H) (hc : CoreOn p t A) (hn : n ∈ A)
    (hS : n ∉ S) : t.updateLeafStatus n = t := by
  classical
  rw [updateLeafStatus_eq hc hn, ListSet.put_self (h.leaves_iff n hS)]

theorem CountsOff.updateHostLeafStatus_self (h : CountsOff t A S H) (hc : CoreOn p t A) (hn : n ∈ A)
    (hH : n ∉ H) : t.updateHostLeafStatus n = t := by
  classical
  rw [updateHostLeafStatus_eq hc hn, ListSet.put_self (h.hostLeaves_iff n hH)]

theorem exact_put {s : ListSet NodeId} {P : NodeId → Prop} [Decidable (P n)]
    (h : ∀ m, m ∉ S → (m ∈ s ↔ P m)) (hm : m ∉ S \ {n}) : m ∈ s.put n (P n) ↔ P m := by
  rw [ListSet.mem_put]
  split_ifs with hmn
  · rw [hmn]
  · exact h m fun hs => hm ⟨hs, hmn⟩

theorem CountsOff.updateLeafStatus (hc : CoreOn p t A) (h : CountsOff t A S H) (hn : n ∈ A) :
    CountsOff (t.updateLeafStatus n) A (S \ {n}) H := by
  classical
  refine ⟨h.evictable_eq, h.protected_eq, fun m hm => ?_, fun m hm => ?_⟩
  · rw [deviceLeaf_updateLeafStatus, updateLeafStatus_eq hc hn]
    exact exact_put h.leaves_iff hm
  · rw [hostLeaf_updateLeafStatus]
    exact h.hostLeaves_iff m hm

theorem CountsOff.updateHostLeafStatus (hc : CoreOn p t A) (h : CountsOff t A S H) (hn : n ∈ A) :
    CountsOff (t.updateHostLeafStatus n) A S (H \ {n}) := by
  classical
  refine ⟨h.evictable_eq, h.protected_eq, fun m hm => ?_, fun m hm => ?_⟩
  · rw [deviceLeaf_updateHostLeafStatus]
    exact h.leaves_iff m hm
  · rw [hostLeaf_updateHostLeafStatus, updateHostLeafStatus_eq hc hn]
    exact exact_put h.hostLeaves_iff hm

theorem CountsOff.mono {S' H' : Set NodeId} (h : CountsOff t A S H) (hS : S ⊆ S') (hH : H ⊆ H') :
    CountsOff t A S' H' :=
  ⟨h.evictable_eq, h.protected_eq, fun n hn => h.leaves_iff n (fun hs => hn (hS hs)),
    fun n hn => h.hostLeaves_iff n (fun hs => hn (hH hs))⟩

theorem CountsOff.root_exact (h : CountsOff t A S H) (hr : t.rootNode ∉ t.evictableLeaves) :
    CountsOff t A (S \ {t.rootNode}) H := by
  refine ⟨h.evictable_eq, h.protected_eq, fun m hm => ?_, h.hostLeaves_iff⟩
  by_cases hmr : m = t.rootNode
  · subst hmr
    exact iff_of_false hr fun hl => hl.ne_root rfl
  · exact h.leaves_iff m fun hmem => hm ⟨hmem, hmr⟩

end Basics

/-! ## Changes of one node -/

/-- `t'` differs from `t` in the slots and the lock count of `x`, and in sizes and sets. -/
structure IsTouch (t t' : RadixTree) (x : NodeId) : Prop where
  counter_eq : t'.counter = t.counter
  root_eq : t'.rootNode = t.rootNode
  par_eq : ∀ n, t'.par n = t.par n
  key_eq : ∀ n, (t'.nodes n).key = (t.nodes n).key
  find_eq : ∀ n ck, t'.find n ck = t.find n ck
  lock_eq : ∀ n, n ≠ x → (t'.nodes n).lockRef = (t.nodes n).lockRef
  value_eq : ∀ n, n ≠ x → (t'.nodes n).value = (t.nodes n).value
  host_eq : ∀ n, n ≠ x → (t'.nodes n).hostValue = (t.nodes n).hostValue

theorem modify_isTouch {f : TreeNode → TreeNode}
    (hc : (f (t.nodes x)).children = (t.nodes x).children)
    (hp : (f (t.nodes x)).parent = (t.nodes x).parent) (hk : (f (t.nodes x)).key = (t.nodes x).key) :
    IsTouch t (t.modify x f) x := by
  have hother : ∀ n, n ≠ x → (t.modify x f).nodes n = t.nodes n := fun n hn => if_neg hn
  have hself : (t.modify x f).nodes x = f (t.nodes x) := if_pos rfl
  refine ⟨rfl, rfl, ?_, ?_, ?_, ?_, ?_, ?_⟩
  · intro n
    by_cases hn : n = x
    · subst hn
      rw [par, hself, hp, par]
    · rw [par, hother n hn, par]
  · intro n
    by_cases hn : n = x
    · subst hn
      rw [hself, hk]
    · rw [hother n hn]
  · intro n ck
    by_cases hn : n = x
    · subst hn
      rw [find, hself, hc, find]
    · rw [find, hother n hn, find]
  · intro n hn
    rw [hother n hn]
  · intro n hn
    rw [hother n hn]
  · intro n hn
    rw [hother n hn]

theorem IsTouch.of_nodes {u : RadixTree} (h : IsTouch t u x) (hn : t'.nodes = u.nodes)
    (hc : t'.counter = u.counter) (hr : t'.rootNode = u.rootNode) : IsTouch t t' x := by
  refine ⟨?_, ?_, ?_, ?_, ?_, ?_, ?_, ?_⟩ <;>
    simp only [par, find, hn, hc, hr]
  exacts [h.counter_eq, h.root_eq, h.par_eq, h.key_eq, h.find_eq, h.lock_eq, h.value_eq, h.host_eq]

theorem sum_change_at {f g : NodeId → Int} (hx : x ∈ A) (h : ∀ n ∈ A, n ≠ x → g n = f n) :
    ∑ n ∈ A, g n = ∑ n ∈ A, f n + (g x - f x) := by
  rw [← Finset.add_sum_erase A g hx, ← Finset.add_sum_erase A f hx]
  have : ∑ n ∈ A.erase x, g n = ∑ n ∈ A.erase x, f n := by
    apply Finset.sum_congr rfl
    intro n hn
    exact h n (Finset.mem_of_mem_erase hn) (Finset.ne_of_mem_erase hn)
  rw [this]
  ring

namespace IsTouch

variable {n : NodeId}
variable {m : NodeId}

variable (ht : IsTouch t t' x)
include ht

theorem len_eq (n : NodeId) : t'.len n = t.len n := len_congr (ht.key_eq _)

theorem onDevice_iff (hn : n ≠ x) : t'.onDevice n ↔ t.onDevice n := onDevice_congr (ht.value_eq n hn)

theorem backedUp_iff (hn : n ≠ x) : t'.backedUp n ↔ t.backedUp n := backedUp_congr (ht.host_eq n hn)

theorem shape (h : ShapeOn p t A) : ShapeOn p t' A :=
  h.congr ht.root_eq ht.counter_eq ht.par_eq ht.key_eq ht.find_eq

theorem slots_len {f f' : NodeId → Option (List Nat)}
    (hf : ∀ n, n ≠ x → f' n = f n) (hx : ∀ v, f' x = some v → v.length = t.len x)
    (h : ∀ n ∈ A, ∀ v, f n = some v → v.length = t.len n) :
    ∀ n ∈ A, ∀ v, f' n = some v → v.length = t'.len n := by
  intro n hn v hv
  rw [ht.len_eq]
  by_cases hnx : n = x
  · subst hnx
    exact hx v hv
  · rw [hf n hnx] at hv
    exact h n hn v hv

theorem par_closed (h : ShapeOn p t A) {P P' : NodeId → Prop}
    (hP : ∀ n, n ≠ x → (P' n ↔ P n)) (hup : P' x → ∀ q, t.par x = some q → P q)
    (hdown : ¬ P' x → ∀ c ∈ A, t.par c = some x → ¬ P c)
    (hpar : ∀ n ∈ A, ∀ q, t.par n = some q → P n → P q) :
    ∀ n ∈ A, ∀ q, t'.par n = some q → P' n → P' q := by
  intro n hn q hq hPn
  rw [ht.par_eq] at hq
  by_cases hqx : q = x
  · subst hqx
    by_contra hno
    rw [hP n (h.rooted.par_ne hn hq).symm] at hPn
    exact hdown hno n hn hq hPn
  · rw [hP q hqx]
    by_cases hnx : n = x
    · subst hnx
      exact hup hPn q hq
    · rw [hP n hnx] at hPn
      exact hpar n hn q hq hPn

theorem core (h : CoreOn p t A) (hx : x ≠ t.rootNode)
    (hvalue : ∀ v, (t'.nodes x).value = some v → v.length = t.len x)
    (hhost : ∀ v, (t'.nodes x).hostValue = some v → v.length = t.len x)
    (hlock : 0 ≤ (t'.nodes x).lockRef) (hdev : t'.onDevice x → ∀ q, t.par x = some q → t.onDevice q)
    (hdevc : ¬ t'.onDevice x → ∀ c ∈ A, t.par c = some x → ¬ t.onDevice c)
    (hback : t'.backedUp x → ∀ q, t.par x = some q → t.backedUp q)
    (hbackc : ¬ t'.backedUp x → ∀ c ∈ A, t.par c = some x → ¬ t.backedUp c)
    (hoff : ¬ t'.onDevice x → t'.backedUp x ∧ (t'.nodes x).lockRef = 0) : CoreOn p t' A := by
  have hrx : t.rootNode ≠ x := Ne.symm hx
  constructor
  · exact ht.shape h.shape
  · exact ht.slots_len ht.value_eq hvalue h.value_len
  · exact ht.slots_len ht.host_eq hhost h.host_len
  · intro n hn
    by_cases hnx : n = x
    · subst hnx
      exact hlock
    · rw [ht.lock_eq n hnx]
      exact h.lock_nonneg n hn
  · rw [ht.root_eq, ht.lock_eq _ hrx, h.root_lock]
  · rw [ht.root_eq, ht.onDevice_iff hrx]
    exact h.root_device
  · rw [ht.root_eq, ht.backedUp_iff hrx]
    exact h.root_backed
  · exact ht.par_closed h.shape (fun n => ht.onDevice_iff) hdev hdevc h.device_par
  · exact ht.par_closed h.shape (fun n => ht.backedUp_iff) hback hbackc h.backed_par
  · intro n hn hd
    by_cases hnx : n = x
    · subst hnx
      exact hoff hd
    · rw [ht.onDevice_iff hnx] at hd
      rw [ht.backedUp_iff hnx, ht.lock_eq n hnx]
      exact h.off_device n hn hd

theorem sum_evictable (hx : x ∈ A) : ∑ n ∈ A, t'.evictableWeight n =
      ∑ n ∈ A, t.evictableWeight n + (t'.evictableWeight x - t.evictableWeight x) := by
  apply sum_change_at hx
  intro n _ hn
  simp only [evictableWeight, ht.onDevice_iff hn, ht.lock_eq n hn, ht.len_eq]

theorem sum_protected (hx : x ∈ A) : ∑ n ∈ A, t'.protectedWeight n =
      ∑ n ∈ A, t.protectedWeight n + (t'.protectedWeight x - t.protectedWeight x) := by
  apply sum_change_at hx
  intro n _ hn
  simp only [protectedWeight, ht.lock_eq n hn, ht.len_eq]

theorem childless_iff {P P' : NodeId → Prop}
    (hP : ∀ n, n ≠ x → (P' n ↔ P n)) (hx : t.par x = some m → (P' x ↔ P x)) :
    (∀ c ∈ A, t'.par c = some m → ¬ P' c) ↔ ∀ c ∈ A, t.par c = some m → ¬ P c := by
  refine forall₂_congr fun c _ => ?_
  rw [ht.par_eq]
  refine imp_congr_right fun hc => not_congr ?_
  by_cases hcx : c = x
  · subst hcx
    exact hx hc
  · exact hP c hcx

theorem deviceLeaf_iff (hm : m ≠ x) (hp : t.par x = some m → (t'.onDevice x ↔ t.onDevice x)) :
    DeviceLeaf t' A m ↔ DeviceLeaf t A m :=
  deviceLeaf_congr Iff.rfl ht.root_eq (ht.onDevice_iff hm) (ht.lock_eq m hm)
    (ht.childless_iff (fun _ => ht.onDevice_iff) hp)

theorem hostLeaf_iff (hm : m ≠ x) (hp : t.par x = some m → (t'.backedUp x ↔ t.backedUp x)) :
    HostLeaf t' A m ↔ HostLeaf t A m :=
  hostLeaf_congr Iff.rfl (ht.onDevice_iff hm) (ht.childless_iff (fun _ => ht.backedUp_iff) hp)

/-- The counts after a touch: the sizes follow the node, and the sets have to be repaired at
the node and, if it changed its residency, at its parent. -/
theorem counts (hx : x ∈ A) {S H : Set NodeId} (h : CountsOff t A S H)
    (he : t'.evictableSize = t.evictableSize + (t'.evictableWeight x - t.evictableWeight x))
    (hp : t'.protectedSize = t.protectedSize + (t'.protectedWeight x - t.protectedWeight x))
    (hl : t'.evictableLeaves = t.evictableLeaves)
    (hhl : t'.evictableHostLeaves = t.evictableHostLeaves) :
    CountsOff t' A (S ∪ ({x} ∪ {q | t.par x = some q ∧ ¬ (t'.onDevice x ↔ t.onDevice x)}))
      (H ∪ ({x} ∪ {q | t.par x = some q ∧ ¬ (t'.backedUp x ↔ t.backedUp x)})) := by
  refine ⟨?_, ?_, ?_, ?_⟩
  · rw [he, h.evictable_eq, ht.sum_evictable hx]
  · rw [hp, h.protected_eq, ht.sum_protected hx]
  · intro m hm
    simp only [Set.mem_union, Set.mem_ofPred_eq, not_or, not_and,
      not_not] at hm
    rw [hl, ht.deviceLeaf_iff hm.2.1 hm.2.2]
    exact h.leaves_iff m hm.1
  · intro m hm
    simp only [Set.mem_union, Set.mem_ofPred_eq, not_or, not_and,
      not_not] at hm
    rw [hhl, ht.hostLeaf_iff hm.2.1 hm.2.2]
    exact h.hostLeaves_iff m hm.1

end IsTouch

theorem CountsOff.host_exact {S' : Set NodeId} (h : CountsOff t A S' H)
    (h' : CountsOff t' A S (H ∪ {x})) (hhl : t'.evictableHostLeaves = t.evictableHostLeaves)
    (hd : t.onDevice x) (hd' : t'.onDevice x) : CountsOff t' A S H := by
  refine ⟨h'.evictable_eq, h'.protected_eq, h'.leaves_iff, ?_⟩
  intro m hm
  by_cases hmx : m = x
  · subst hmx
    rw [hhl, h.hostLeaves_iff m hm]
    exact ⟨fun hl => absurd hd hl.off, fun hl => absurd hd' hl.off⟩
  · exact h'.hostLeaves_iff m (by simp [hm, hmx])

/-! ### Locks -/

section Locks

/-- The lock count of `x` changes by `ε`, and `d` moves from one size to the other. -/
def relocked (t : RadixTree) (x : NodeId) (ε d : Int) : RadixTree :=
  ((t.addEvictable (-d)).addProtected d).modify x fun y => { y with lockRef := y.lockRef + ε }

theorem relocked_isTouch (t : RadixTree) (x : NodeId) (ε d : Int) :
    IsTouch t (relocked t x ε d) x := by
  have h := modify_isTouch (t := t) (x := x) (f := fun y => { y with lockRef := y.lockRef + ε })
    rfl rfl rfl
  exact h.of_nodes rfl rfl rfl

theorem relocked_self (t : RadixTree) (x : NodeId) (ε d : Int) :
    (relocked t x ε d).nodes x = { t.nodes x with lockRef := (t.nodes x).lockRef + ε } := if_pos rfl

/-- What moves from `evictable_size_` to `protected_size_`. -/
def lockedWeight (t : RadixTree) (x : NodeId) (ε : Int) : Int :=
  (if 0 < (t.nodes x).lockRef + ε then (t.len x : Int) else 0) -
    if 0 < (t.nodes x).lockRef then (t.len x : Int) else 0

/-- A change of the lock count alone, from `l` to `l'`, with the sizes moved accordingly. -/
theorem CountsOff.relock (hc' : CoreOn p t' A) (h : CountsOff t A S H) (hx : x ∈ A)
    (hd : t.onDevice x) (ht : IsTouch t t' x) (hvalue : (t'.nodes x).value = (t.nodes x).value)
    (hhost : (t'.nodes x).hostValue = (t.nodes x).hostValue)
    (he : t'.evictableSize = t.evictableSize + (t'.evictableWeight x - t.evictableWeight x))
    (hp : t'.protectedSize = t.protectedSize + (t'.protectedWeight x - t.protectedWeight x))
    (hl : t'.evictableLeaves = t.evictableLeaves)
    (hhl : t'.evictableHostLeaves = t.evictableHostLeaves) :
    CountsOff (t'.updateLeafStatus x) A (S \ {x}) H := by
  have hdev : t'.onDevice x ↔ t.onDevice x := onDevice_congr hvalue
  have hback : t'.backedUp x ↔ t.backedUp x := backedUp_congr hhost
  have h1 := ht.counts hx h he hp hl hhl
  have h2 : CountsOff t' A (S ∪ {x}) (H ∪ {x}) := by
    apply h1.mono
    · simp [hdev]
    · simp [hback]
  have h3 : CountsOff t' A (S ∪ {x}) H := h.host_exact h2 hhl hd (hdev.mpr hd)
  have h4 := h3.updateLeafStatus hc' hx
  apply h4.mono
  · simp
  · exact subset_rfl

theorem CoreOn.relock (h : CoreOn p t A) (ht : IsTouch t t' x) (hx : x ∈ A) (hxr : x ≠ t.rootNode)
    (hd : t.onDevice x) (hvalue : (t'.nodes x).value = (t.nodes x).value)
    (hhost : (t'.nodes x).hostValue = (t.nodes x).hostValue) (hlock : 0 ≤ (t'.nodes x).lockRef) :
    CoreOn p t' A := by
  have hdev : t'.onDevice x := (onDevice_congr hvalue).mpr hd
  apply ht.core h hxr
  · rw [hvalue]
    exact h.value_len x hx
  · rw [hhost]
    exact h.host_len x hx
  · exact hlock
  · exact fun _ q hq => h.device_par x hx q hq hd
  · exact fun hno => absurd hdev hno
  · intro hb q hq
    rw [backedUp, hhost] at hb
    exact h.backed_par x hx q hq hb
  · intro hb c hc hcx hcb
    apply hb
    exact (backedUp_congr hhost).mpr (h.backed_par c hc x hcx hcb)
  · exact fun hno => absurd hdev hno

theorem relocked_keeps (hc : CoreOn p t A) (h : CountsOff t A S H) (hx : x ∈ A)
    (hxr : x ≠ t.rootNode) (hd : t.onDevice x) (hnn : 0 ≤ (t.nodes x).lockRef + ε) :
    CoreOn p ((relocked t x ε (lockedWeight t x ε)).updateLeafStatus x) A ∧
      CountsOff ((relocked t x ε (lockedWeight t x ε)).updateLeafStatus x) A (S \ {x}) H := by
  have hpos := hc.lock_nonneg x hx
  have hself := relocked_self t x ε (lockedWeight t x ε)
  have htouch := relocked_isTouch t x ε (lockedWeight t x ε)
  have hlen := htouch.len_eq x
  have hud : (relocked t x ε (lockedWeight t x ε)).onDevice x := by
    rw [onDevice, hself]
    exact hd
  have hcore := hc.relock htouch hx hxr hd (by rw [hself]) (by rw [hself]) (by rw [hself]; exact hnn)
  refine ⟨hcore.of_nodes rfl rfl rfl, h.relock hcore hx hd htouch ?_ ?_ ?_ ?_ rfl rfl⟩
  · rw [hself]
  · rw [hself]
  · change t.evictableSize + -lockedWeight t x ε = _
    simp only [evictableWeight, hud, hd, hself, hlen, true_and]
    unfold lockedWeight
    split_ifs <;> omega
  · simp only [protectedWeight, hself, hlen]
    rfl

theorem incLockNode_eq (h : 0 ≤ (t.nodes x).lockRef) :
    (t.incLockNode x).1 = (relocked t x 1 (lockedWeight t x 1)).updateLeafStatus x := by
  have hd : lockedWeight t x 1 =
      if (t.nodes x).lockRef = 0 then ((t.nodes x).key.len : Int) else 0 := by
    unfold lockedWeight len
    split_ifs <;> omega
  rw [hd]
  rfl

theorem decLockNode_eq (h : 0 ≤ (t.nodes x).lockRef + -1) :
    (t.decLockNode x).1 = (relocked t x (-1) (lockedWeight t x (-1))).updateLeafStatus x := by
  have hd : -lockedWeight t x (-1) =
      if (t.nodes x).lockRef = 1 then ((t.nodes x).key.len : Int) else 0 := by
    unfold lockedWeight len
    split_ifs <;> omega
  unfold relocked
  rw [hd, ← neg_neg (lockedWeight t x (-1)), hd]
  rfl

end Locks

/-! ### The loop over a path -/

/-- A rule for `walkUp`: an invariant of the node to come and the tree. -/
theorem walkUp_rule (depth : NodeId → Nat) (I : NodeId → RadixTree → Prop)
    (hstep : ∀ n t, I n t → n ≠ t.rootNode →
      ∃ q, ((step t n).1.nodes n).parent = some q ∧ depth q < depth n ∧ I q (step t n).1) :
    ∀ fuel n t d, depth n < fuel → I n t →
      ∃ d' t', walkUp step fuel t n d = .ok (d', t') ∧ I t'.rootNode t' := by
  intro fuel
  induction fuel with
  | zero => intro n t d hlt; omega
  | succ fuel ih =>
    intro n t d hlt hI
    unfold walkUp
    by_cases hr : n = t.rootNode
    · rw [if_pos hr]
      exact ⟨d, t, rfl, hr ▸ hI⟩
    · rw [if_neg hr]
      obtain ⟨q, hq, hdepth, hIq⟩ := hstep n t hI hr
      obtain ⟨d', t', hrun, hend⟩ := ih q (step t n).1 (d + (step t n).2) (by omega) hIq
      refine ⟨d', t', ?_, hend⟩
      simp only [hq]
      exact hrun

/-- `t'` is `t` with other lock counts, and with other sizes and sets. -/
structure IsRelock (t t' : RadixTree) (δ : NodeId → Int) : Prop where
  counter_eq : t'.counter = t.counter
  root_eq : t'.rootNode = t.rootNode
  par_eq : ∀ n, t'.par n = t.par n
  key_eq : ∀ n, (t'.nodes n).key = (t.nodes n).key
  find_eq : ∀ n ck, t'.find n ck = t.find n ck
  lock_eq : ∀ n, (t'.nodes n).lockRef = (t.nodes n).lockRef + δ n
  value_eq : ∀ n, (t'.nodes n).value = (t.nodes n).value
  host_eq : ∀ n, (t'.nodes n).hostValue = (t.nodes n).hostValue

theorem IsRelock.of_nodes {t t' u u' : RadixTree} {δ : NodeId → Int} (h : IsRelock t t' δ)
    (hn : u.nodes = t.nodes) (hc : u.counter = t.counter) (ho : u.rootNode = t.rootNode)
    (hn' : u'.nodes = t'.nodes) (hc' : u'.counter = t'.counter) (ho' : u'.rootNode = t'.rootNode) :
    IsRelock u u' δ := by
  refine ⟨?_, ?_, ?_, ?_, ?_, ?_, ?_, ?_⟩ <;>
    simp only [par, find, hn, hn', hc, hc', ho, ho']
  exacts [h.counter_eq, h.root_eq, h.par_eq, h.key_eq, h.find_eq, h.lock_eq, h.value_eq, h.host_eq]

/-- What one iteration of a lock loop does, with `ε` added to the lock count. The leaf sets
are repaired at the node; the set of host leaves only if `hi`. -/
structure LockStep (p : CacheParams) (step : RadixTree → NodeId → RadixTree × Int) (ε : Int)
    (hi : Prop) : Prop where
  relock : ∀ t x, IsRelock t (step t x).1 (fun n => if n = x then ε else 0)
  keeps : ∀ t A S H x, CoreOn p t A → CountsOff t A S H → (hi ∨ H = ∅) → x ∈ A →
    x ≠ t.rootNode → t.onDevice x → 0 ≤ (t.nodes x).lockRef + ε →
    CoreOn p (step t x).1 A ∧ CountsOff (step t x).1 A (S \ {x}) (H \ {x})

/-- The amounts a lock loop from `x` adds. -/
noncomputable def pathDelta (par : NodeId → Option NodeId) (root x : NodeId) (ε : Int)
    (n : NodeId) : Int :=
  open Classical in if n ≠ root ∧ Anc par n x then ε else 0

/-- The lock loop from `x` up to the root adds `ε` to the lock count of every node on the
way, and repairs the leaf sets there. -/
theorem LockStep.walkUp_of_depth (hs : LockStep p step ε hi) {depth : NodeId → Nat} {fuel : Nat}
    (hc : CoreOn p t A) (hcount : CountsOff t A S H)
    (hdepth : ∀ n ∈ A, ∀ q, t.par n = some q → depth q < depth n) (hfuel : depth x < fuel)
    (hH : hi ∨ H = ∅) (hx : x ∈ A) (hd : t.onDevice x)
    (hlock : ∀ n, n ≠ t.rootNode → Anc t.par n x → 0 ≤ (t.nodes n).lockRef + ε) (d : Int) :
    ∃ d' t', walkUp step fuel t x d = .ok (d', t') ∧ CoreOn p t' A ∧
      CountsOff t' A (S \ {n | n ≠ t.rootNode ∧ Anc t.par n x})
        (H \ {n | n ≠ t.rootNode ∧ Anc t.par n x}) ∧
      IsRelock t t' (pathDelta t.par t.rootNode x ε) := by
  classical
  -- the nodes between `x` and the one to come have been treated
  let I : NodeId → RadixTree → Prop := fun n u =>
    n ∈ A ∧ Anc t.par n x ∧ t.onDevice n ∧ CoreOn p u A ∧
      CountsOff u A (S \ {m | Anc t.par m x ∧ ¬ Anc t.par m n})
        (H \ {m | Anc t.par m x ∧ ¬ Anc t.par m n}) ∧
      IsRelock t u (fun m => if Anc t.par m x ∧ ¬ Anc t.par m n then ε else 0)
  have hI0 : I x t := by
    refine ⟨hx, anc_refl _ _, hd, hc, ?_, ?_⟩
    · simpa using hcount
    · refine ⟨rfl, rfl, fun _ => rfl, fun _ => rfl, fun _ _ => rfl, ?_, fun _ => rfl, fun _ => rfl⟩
      intro n
      simp
  have hstep : ∀ n u, I n u → n ≠ u.rootNode →
      ∃ q, ((step u n).1.nodes n).parent = some q ∧ depth q < depth n ∧ I q (step u n).1 := by
    rintro n u ⟨hn, hnx, hnd, hcu, hcountu, hru⟩ hnr
    have hnr' : n ≠ t.rootNode := hru.root_eq ▸ hnr
    obtain ⟨q, hqA, hq⟩ := hc.shape.rooted.par_mem hn hnr'
    have hnq := hc.shape.rooted.not_anc_of_par hn hq
    have hstepn := hs.relock u n
    have hanc : ∀ m, (Anc t.par m x ∧ ¬ Anc t.par m q) ↔
        (Anc t.par m x ∧ ¬ Anc t.par m n) ∨ m = n := by
      intro m
      rw [anc_iff_of_par hq]
      by_cases hmn : m = n
      · subst hmn
        simp [hnx, hnq]
      · simp [hmn]
    have hset : {m | Anc t.par m x ∧ ¬ Anc t.par m q} =
        {m | Anc t.par m x ∧ ¬ Anc t.par m n} ∪ {n} := by
      ext m
      exact hanc m
    have hnd' : u.onDevice n := (onDevice_congr (hru.value_eq _)).mpr hnd
    have hlockn : 0 ≤ (u.nodes n).lockRef + ε := by
      rw [hru.lock_eq, if_neg (fun h => h.2 (anc_refl _ _)), Int.add_zero]
      exact hlock n hnr' hnx
    have hHu : hi ∨ H \ {m | Anc t.par m x ∧ ¬ Anc t.par m n} = ∅ := by
      rcases hH with hH | hH
      · exact .inl hH
      · right
        rw [hH, Set.empty_sdiff]
    obtain ⟨hcore, hcounts⟩ := hs.keeps u A _ _ n hcu hcountu hHu hn hnr hnd' hlockn
    refine ⟨q, ?_, hdepth n hn q hq, hqA, anc_trans (anc_step hq (anc_refl _ _)) hnx,
      hc.device_par n hn q hq hnd, hcore, ?_, ?_⟩
    · have h1 := hstepn.par_eq n
      have h2 := hru.par_eq n
      exact (h1.trans h2).trans hq
    · rw [hset, ← Set.sdiff_sdiff, ← Set.sdiff_sdiff]
      exact hcounts
    · refine ⟨hstepn.counter_eq.trans hru.counter_eq, hstepn.root_eq.trans hru.root_eq,
        fun m => (hstepn.par_eq m).trans (hru.par_eq m),
        fun m => (hstepn.key_eq m).trans (hru.key_eq m),
        fun m ck => (hstepn.find_eq m ck).trans (hru.find_eq m ck), ?_,
        fun m => (hstepn.value_eq m).trans (hru.value_eq m),
        fun m => (hstepn.host_eq m).trans (hru.host_eq m)⟩
      intro m
      rw [hstepn.lock_eq, hru.lock_eq, if_congr (hanc m) rfl rfl]
      by_cases hmn : m = n
      · subst hmn
        simp [anc_refl]
      · simp [hmn]
  obtain ⟨d', t', hrun, hend⟩ := walkUp_rule depth I hstep fuel x t d hfuel hI0
  obtain ⟨_, _, _, hct, hcountt, hrt⟩ := hend
  have hroot : ∀ m, (Anc t.par m x ∧ ¬ Anc t.par m t'.rootNode) ↔
      (m ≠ t.rootNode ∧ Anc t.par m x) := by
    intro m
    rw [hrt.root_eq, anc_iff_of_none hc.shape.rooted.root_par]
    exact and_comm
  refine ⟨d', t', hrun, hct, ?_, ?_⟩
  · have hset : {m | Anc t.par m x ∧ ¬ Anc t.par m t'.rootNode} =
        {n | n ≠ t.rootNode ∧ Anc t.par n x} := by
      ext m
      exact hroot m
    rw [hset] at hcountt
    exact hcountt
  · refine ⟨hrt.counter_eq, hrt.root_eq, hrt.par_eq, hrt.key_eq, hrt.find_eq, ?_, hrt.value_eq,
      hrt.host_eq⟩
    intro m
    rw [hrt.lock_eq, pathDelta, if_congr (hroot m) rfl rfl]

theorem LockStep.walkUp (hs : LockStep p step ε hi) (hc : CoreOn p t A) (hcount : CountsOff t A S H)
    (hH : hi ∨ H = ∅) (hx : x ∈ A) (hd : t.onDevice x)
    (hlock : ∀ n, n ≠ t.rootNode → Anc t.par n x → 0 ≤ (t.nodes n).lockRef + ε) (d : Int) :
    ∃ d' t', walkUp step (t.counter + 1) t x d = .ok (d', t') ∧ CoreOn p t' A ∧
      CountsOff t' A (S \ {n | n ≠ t.rootNode ∧ Anc t.par n x})
        (H \ {n | n ≠ t.rootNode ∧ Anc t.par n x}) ∧
      IsRelock t t' (pathDelta t.par t.rootNode x ε) := by
  obtain ⟨depth, hb, hdepth⟩ := hc.shape.rooted.exists_depth
  exact hs.walkUp_of_depth hc hcount hdepth (Nat.lt_succ_of_lt (hb x hx)) hH hx hd hlock d

/-! ### The iterations of the two caches -/

theorem IsTouch.isRelock (ht : IsTouch t t' x)
    (hlock : (t'.nodes x).lockRef = (t.nodes x).lockRef + ε)
    (hvalue : (t'.nodes x).value = (t.nodes x).value)
    (hhost : (t'.nodes x).hostValue = (t.nodes x).hostValue) :
    IsRelock t t' (fun n => if n = x then ε else 0) := by
  refine ⟨ht.counter_eq, ht.root_eq, ht.par_eq, ht.key_eq, ht.find_eq, ?_, ?_, ?_⟩
  · intro n
    by_cases hn : n = x
    · subst hn
      rw [hlock, if_pos rfl]
    · rw [ht.lock_eq n hn, if_neg hn, Int.add_zero]
  · intro n
    by_cases hn : n = x
    · rw [hn, hvalue]
    · exact ht.value_eq n hn
  · intro n
    by_cases hn : n = x
    · rw [hn, hhost]
    · exact ht.host_eq n hn

theorem incLockNode_isRelock (t : RadixTree) (x : NodeId) :
    IsRelock t (t.incLockNode x).1 (fun n => if n = x then 1 else 0) :=
  ((relocked_isTouch t x 1 0).isRelock (by rw [relocked_self]) (by rw [relocked_self])
    (by rw [relocked_self])).of_nodes rfl rfl rfl rfl rfl rfl

theorem decLockNode_isRelock (t : RadixTree) (x : NodeId) :
    IsRelock t (t.decLockNode x).1 (fun n => if n = x then -1 else 0) :=
  ((relocked_isTouch t x (-1) 0).isRelock (by rw [relocked_self]) (by rw [relocked_self])
    (by rw [relocked_self])).of_nodes rfl rfl rfl rfl rfl rfl

section Steps

variable (hrelock : ∀ t x, IsRelock t (step t x).1 fun n => if n = x then ε else 0)
  (hstep : ∀ t x, 0 ≤ (t.nodes x).lockRef → 0 ≤ (t.nodes x).lockRef + ε →
    (step t x).1 = (relocked t x ε (lockedWeight t x ε)).updateLeafStatus x)
include hrelock hstep

theorem LockStep.of_relocked : LockStep p step ε False where
  relock := hrelock
  keeps t A S H x hc h hH hx hxr hd hlock := by
    obtain rfl : H = ∅ := hH.resolve_left id
    rw [hstep t x (hc.lock_nonneg x hx) hlock, Set.empty_sdiff]
    exact relocked_keeps hc h hx hxr hd hlock

theorem LockStep.of_relocked_host {step' : RadixTree → NodeId → RadixTree × Int}
    (hstep' : ∀ t x, (step' t x).1 = (step t x).1.updateHostLeafStatus x) :
    LockStep p step' ε True where
  relock t x := by
    rw [hstep']
    exact (hrelock t x).of_nodes rfl rfl rfl rfl rfl rfl
  keeps t A S H x hc h _ hx hxr hd hlock := by
    obtain ⟨hcore, hcounts⟩ := relocked_keeps hc h hx hxr hd hlock
    rw [hstep', hstep t x (hc.lock_nonneg x hx) hlock]
    exact ⟨hcore.of_nodes rfl rfl rfl, hcounts.updateHostLeafStatus hcore hx⟩

end Steps

theorem incLockNode_lockStep (p : CacheParams) : LockStep p incLockNode 1 False :=
  .of_relocked incLockNode_isRelock fun _ _ h _ => incLockNode_eq h

theorem decLockNode_lockStep (p : CacheParams) : LockStep p decLockNode (-1) False :=
  .of_relocked decLockNode_isRelock fun _ _ _ h => decLockNode_eq h

theorem hiIncLockNode_lockStep (p : CacheParams) : LockStep p hiIncLockNode 1 True :=
  .of_relocked_host incLockNode_isRelock (fun _ _ h _ => incLockNode_eq h) fun _ _ => rfl

theorem hiDecLockNode_lockStep (p : CacheParams) : LockStep p hiDecLockNode (-1) True :=
  .of_relocked_host decLockNode_isRelock (fun _ _ _ h => decLockNode_eq h) fun _ _ => rfl

end Fluxfer.Radix
