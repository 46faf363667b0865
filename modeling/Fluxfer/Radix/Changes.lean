import Fluxfer.Radix.Account

/-!
# Changes of the tree that keep its invariant

The steps the caches are made of, each of which leads from `TreeInv` to `TreeInv`: a split,
a new leaf, a leaf taken away, and the moves of a node between device and host.
-/

namespace Fluxfer.Radix

open ParentTree RadixTree Finset Option

/-! ## Splits -/

namespace IsSplit

variable {p : CacheParams} {t t' : RadixTree} {A : Finset NodeId} {c : NodeId} {k : Nat}

theorem slots_ne_none {f f' : NodeId → Option (List Nat)}
    (hf : ∀ n, f' n = if n = t.counter then (f c).map (List.take k)
      else if n = c then (f c).map (List.drop k) else f n) (n : NodeId) :
    f' n ≠ none ↔ if n = t.counter then f c ≠ none else f n ≠ none := by
  rw [hf]
  split_ifs with h1 h2
  · simp
  · subst h2
    simp
  · rfl

section

variable (hs : IsSplit p.pageSize t t' c k)
include hs

theorem onDevice_iff (n : NodeId) :
    t'.onDevice n ↔ if n = t.counter then t.onDevice c else t.onDevice n :=
  slots_ne_none (f := fun n => (t.nodes n).value) hs.value_eq n

theorem backedUp_iff (n : NodeId) :
    t'.backedUp n ↔ if n = t.counter then t.backedUp c else t.backedUp n :=
  slots_ne_none (f := fun n => (t.nodes n).hostValue) hs.host_eq n

theorem slots_len (hw : t.counter ∉ A) (hc : c ∈ A)
    (hk : k < t.len c) {f f' : NodeId → Option (List Nat)}
    (hf : ∀ n, f' n = if n = t.counter then (f c).map (List.take k)
      else if n = c then (f c).map (List.drop k) else f n)
    (h : ∀ n ∈ A, ∀ v, f n = some v → v.length = t.len n) :
    ∀ n ∈ insert t.counter A, ∀ v, f' n = some v → v.length = t'.len n := by
  have hold : ∀ n ∈ A, n ≠ t.counter := fun n hn e => hw (e ▸ hn)
  intro n hn v hv
  rw [hf] at hv
  rcases mem_insert.mp hn with rfl | hnA
  · rw [if_pos rfl, map_eq_some_iff] at hv
    obtain ⟨v0, hv0, rfl⟩ := hv
    rw [hs.len_new hk.le, List.length_take, h c hc v0 hv0]
    exact Nat.min_eq_left hk.le
  · rw [if_neg (hold n hnA)] at hv
    by_cases hnc : n = c
    · subst hnc
      rw [if_pos rfl, map_eq_some_iff] at hv
      obtain ⟨v0, hv0, rfl⟩ := hv
      rw [hs.len_child (hold n hc) hk.le, List.length_drop, h n hc v0 hv0]
    · rw [if_neg hnc] at hv
      rw [hs.len_other (hold n hnA) hnc]
      exact h n hnA v hv

/-- A property of nodes that the new node takes from `c` and that passes to parents still
does. -/
theorem par_closed (h : ShapeOn p t A) (hc : c ∈ A)
    {P P' : NodeId → Prop} (hP : ∀ n, P' n ↔ if n = t.counter then P c else P n)
    (hpar : ∀ n ∈ A, ∀ q, t.par n = some q → P n → P q) :
    ∀ n ∈ insert t.counter A, ∀ q, t'.par n = some q → P' n → P' q := by
  have hold := h.ne_counter
  intro n hn q hq hPn
  rw [hP] at hPn ⊢
  rcases mem_insert.mp hn with rfl | hnA
  · rw [hs.par_new] at hq
    rw [if_pos rfl] at hPn
    rw [if_neg (hold q (h.rooted.mem_of_par hc hq))]
    exact hpar c hc q hq hPn
  · rw [if_neg (hold n hnA)] at hPn
    by_cases hnc : n = c
    · subst hnc
      rw [hs.par_child (hold n hnA)] at hq
      obtain rfl := some.inj hq
      rwa [if_pos rfl]
    · rw [hs.par_other (hold n hnA) hnc] at hq
      rw [if_neg (hold q (h.rooted.mem_of_par hnA hq))]
      exact hpar n hnA q hq hPn

theorem core (h : CoreOn p t A) (hc : c ∈ A)
    (hcr : c ≠ t.rootNode) (hk0 : 0 < k) (hk : k < t.len c) (hd : p.pageSize ∣ k) :
    CoreOn p t' (insert t.counter A) := by
  have hw := h.shape.not_mem_counter
  have hrw := h.shape.ne_counter _ h.shape.rooted.root_mem
  have hold := h.shape.ne_counter
  constructor
  · exact hs.shape h.shape hc hcr hk0 hk hd
  · exact hs.slots_len hw hc hk hs.value_eq h.value_len
  · exact hs.slots_len hw hc hk hs.host_eq h.host_len
  · intro n hn
    rw [hs.lock_eq]
    rcases mem_insert.mp hn with rfl | hnA
    · rw [if_pos rfl]
      exact h.lock_nonneg c hc
    · rw [if_neg (hold n hnA)]
      exact h.lock_nonneg n hnA
  · rw [hs.root_eq, hs.lock_eq, if_neg hrw, h.root_lock]
  · rw [hs.root_eq, hs.onDevice_iff, if_neg hrw]
    exact h.root_device
  · rw [hs.root_eq, hs.backedUp_iff, if_neg hrw]
    exact h.root_backed
  · exact hs.par_closed h.shape hc hs.onDevice_iff h.device_par
  · exact hs.par_closed h.shape hc hs.backedUp_iff h.backed_par
  · intro n hn hoff
    rw [hs.onDevice_iff] at hoff
    rw [hs.backedUp_iff, hs.lock_eq]
    rcases mem_insert.mp hn with rfl | hnA
    · simp only [if_true] at hoff ⊢
      exact h.off_device c hc hoff
    · rw [if_neg (hold n hnA)] at hoff ⊢
      rw [if_neg (hold n hnA)]
      exact h.off_device n hnA hoff

theorem childless_iff (h : ShapeOn p t A) (hc : c ∈ A)
    {P P' : NodeId → Prop} (hP : ∀ n, P' n ↔ if n = t.counter then P c else P n) {m : NodeId}
    (hm : m ≠ t.counter) : (∀ x ∈ insert t.counter A, t'.par x = some m → ¬ P' x) ↔
      ∀ x ∈ A, t.par x = some m → ¬ P x := by
  have hold := h.ne_counter
  constructor
  · intro hno x hx hxm
    by_cases hxc : x = c
    · subst hxc
      have := hno t.counter (mem_insert_self _ _) (by rw [hs.par_new, hxm])
      rwa [hP, if_pos rfl] at this
    · have := hno x (mem_insert_of_mem hx)
        (by rw [hs.par_other (hold x hx) hxc, hxm])
      rwa [hP, if_neg (hold x hx)] at this
  · intro hno x hx hxm
    rw [hP]
    rcases mem_insert.mp hx with rfl | hxA
    · rw [hs.par_new] at hxm
      rw [if_pos rfl]
      exact hno c hc hxm
    · rw [if_neg (hold x hxA)]
      exact hno x hxA (hs.par_old h hm hxA hxm).2

theorem deviceLeaf_iff (h : ShapeOn p t A) (hc : c ∈ A)
    {m : NodeId} : DeviceLeaf t' (insert t.counter A) m ↔ DeviceLeaf t A m := by
  have hcw := h.ne_counter _ hc
  by_cases hm : m = t.counter
  · subst hm
    constructor
    · intro hl
      have hdev := hl.device
      rw [hs.onDevice_iff, if_pos rfl] at hdev
      refine absurd ?_ (hl.childless c (mem_insert_of_mem hc) ?_)
      · rwa [hs.onDevice_iff, if_neg hcw]
      · rw [hs.par_child hcw]
    · intro hl
      exact absurd hl.mem h.not_mem_counter
  · refine deviceLeaf_congr (by simp [hm]) hs.root_eq ?_ ?_ (hs.childless_iff h hc hs.onDevice_iff hm)
    · rw [hs.onDevice_iff, if_neg hm]
    · rw [hs.lock_eq, if_neg hm]

theorem hostLeaf_iff (h : CoreOn p t A) (hc : c ∈ A)
    {m : NodeId} : HostLeaf t' (insert t.counter A) m ↔ HostLeaf t A m := by
  have hcw := h.shape.ne_counter _ hc
  by_cases hm : m = t.counter
  · subst hm
    constructor
    · intro hl
      have hoff := hl.off
      rw [hs.onDevice_iff, if_pos rfl] at hoff
      refine absurd ?_ (hl.childless c (mem_insert_of_mem hc) ?_)
      · rw [hs.backedUp_iff, if_neg hcw]
        exact (h.off_device c hc hoff).1
      · rw [hs.par_child hcw]
    · intro hl
      exact absurd hl.mem h.shape.not_mem_counter
  · refine hostLeaf_congr (by simp [hm]) ?_ (hs.childless_iff h.shape hc hs.backedUp_iff hm)
    rw [hs.onDevice_iff, if_neg hm]

end

/-- A weight that the two parts of `c` share out keeps its sum. -/
theorem sum_weight (h : ShapeOn p t A) (hc : c ∈ A) {f g : NodeId → Int}
    (hparts : g t.counter + g c = f c) (hother : ∀ n ∈ A, n ≠ c → g n = f n) :
    ∑ n ∈ insert t.counter A, g n = ∑ n ∈ A, f n := by
  rw [sum_insert h.not_mem_counter, sum_change_at hc hother]
  omega

theorem treeInv (hs : IsSplit p.pageSize t t' c k) (h : TreeInv p t A) (hc : c ∈ A)
    (hcr : c ≠ t.rootNode) (hk0 : 0 < k) (hk : k < t.len c) (hd : p.pageSize ∣ k) :
    TreeInv p t' (insert t.counter A) := by
  have hcw := h.core.shape.ne_counter _ hc
  have hold := h.core.shape.ne_counter
  refine ⟨hs.core h.core hc hcr hk0 hk hd, ?_, ?_, ?_, ?_⟩
  · rw [hs.evictable_eq, h.counts.evictable_eq]
    symm
    apply sum_weight h.core.shape hc
    · simp only [evictableWeight, hs.onDevice_iff, hs.lock_eq, hs.len_new hk.le,
        hs.len_child hcw hk.le, hcw, if_false]
      split_ifs <;> omega
    · intro n hn hnc
      simp only [evictableWeight, hs.onDevice_iff, hs.lock_eq, hs.len_other (hold n hn) hnc,
        hold n hn, if_false]
  · rw [hs.protected_eq, h.counts.protected_eq]
    symm
    apply sum_weight h.core.shape hc
    · simp only [protectedWeight, hs.lock_eq, hs.len_new hk.le, hs.len_child hcw hk.le,
        hcw, if_false]
      split_ifs <;> omega
    · intro n hn hnc
      simp only [protectedWeight, hs.lock_eq, hs.len_other (hold n hn) hnc, hold n hn, if_false]
  · intro n _
    rw [hs.leaves_eq, hs.deviceLeaf_iff h.core.shape hc]
    exact h.mem_leaves
  · intro n _
    rw [hs.hostLeaves_eq, hs.hostLeaf_iff h.core hc]
    exact h.mem_hostLeaves

end IsSplit

/-! ## New leaves -/

namespace IsGraft

variable {p : CacheParams} {t t' : RadixTree} {A : Finset NodeId} {node : NodeId}
  {key : RadixKey} {value : List Nat}

section

variable (hg : IsGraft p.pageSize t t' node key value)
include hg

theorem onDevice_iff {n : NodeId} (hn : n ≠ t.counter) : t'.onDevice n ↔ t.onDevice n := by
  rw [onDevice, hg.value_eq, if_neg hn, onDevice]

theorem onDevice_new : t'.onDevice t.counter := by
  rw [onDevice, hg.value_eq]
  simp

theorem backedUp_iff {n : NodeId} (hn : n ≠ t.counter) : t'.backedUp n ↔ t.backedUp n := by
  rw [backedUp, hg.host_eq, if_neg hn, backedUp]

theorem not_backedUp_new : ¬ t'.backedUp t.counter := by
  rw [backedUp, hg.host_eq]
  simp

theorem slots_len (hw : t.counter ∉ A)
    {f f' : NodeId → Option (List Nat)} (hf : ∀ n, n ≠ t.counter → f' n = f n)
    (hnew : ∀ v, f' t.counter = some v → v.length = key.len)
    (h : ∀ n ∈ A, ∀ v, f n = some v → v.length = t.len n) :
    ∀ n ∈ insert t.counter A, ∀ v, f' n = some v → v.length = t'.len n := by
  intro n hn v hv
  rcases mem_insert.mp hn with rfl | hnA
  · rw [hg.len_new]
    exact hnew v hv
  · have hnw : n ≠ t.counter := fun e => hw (e ▸ hnA)
    rw [hf n hnw] at hv
    rw [hg.len_old hnw]
    exact h n hnA v hv

theorem par_closed (h : ShapeOn p t A) (hn : node ∈ A)
    {P P' : NodeId → Prop} (hP : ∀ n, n ≠ t.counter → (P' n ↔ P n)) (hnew : P' t.counter → P node)
    (hpar : ∀ n ∈ A, ∀ q, t.par n = some q → P n → P q) :
    ∀ n ∈ insert t.counter A, ∀ q, t'.par n = some q → P' n → P' q := by
  have hold := h.ne_counter
  intro n hn' q hq hPn
  rcases mem_insert.mp hn' with rfl | hnA
  · rw [hg.par_eq, graft_new] at hq
    obtain rfl := some.inj hq
    exact (hP node (hold node hn)).mpr (hnew hPn)
  · rw [hg.par_eq, graft_other (hold n hnA)] at hq
    rw [hP n (hold n hnA)] at hPn
    exact (hP q (hold q (h.rooted.mem_of_par hnA hq))).mpr (hpar n hnA q hq hPn)

theorem core (h : CoreOn p t A)
    (hshape : ShapeOn p t' (insert t.counter A)) (hn : node ∈ A) (hnode : t.onDevice node)
    (hv : value.length = key.len) : CoreOn p t' (insert t.counter A) := by
  have hw := h.shape.not_mem_counter
  have hold := h.shape.ne_counter
  have hrw := hold _ h.shape.rooted.root_mem
  constructor
  · exact hshape
  · refine hg.slots_len hw (fun n hn => (hg.value_eq n).trans (if_neg hn)) ?_ h.value_len
    intro v hvn
    rw [hg.value_eq, if_pos rfl] at hvn
    rw [← some.inj hvn, hv]
  · refine hg.slots_len hw (fun n hn => (hg.host_eq n).trans (if_neg hn)) ?_ h.host_len
    intro v hvn
    exact absurd (ne_of_eq_of_ne hvn (some_ne_none v)) hg.not_backedUp_new
  · intro n hn
    rw [hg.lock_eq]
    split_ifs with hnw
    · exact le_rfl
    · exact h.lock_nonneg n ((mem_insert.mp hn).resolve_left hnw)
  · rw [hg.root_eq, hg.lock_eq, if_neg hrw, h.root_lock]
  · rw [hg.root_eq, hg.onDevice_iff hrw]
    exact h.root_device
  · rw [hg.root_eq, hg.backedUp_iff hrw]
    exact h.root_backed
  · exact hg.par_closed h.shape hn (fun _ => hg.onDevice_iff) (fun _ => hnode) h.device_par
  · exact hg.par_closed h.shape hn (fun _ => hg.backedUp_iff)
      (fun hb => absurd hb hg.not_backedUp_new) h.backed_par
  · intro n hn' hoff
    rcases mem_insert.mp hn' with rfl | hnA
    · exact absurd hg.onDevice_new hoff
    · rw [hg.onDevice_iff (hold n hnA)] at hoff
      rw [hg.backedUp_iff (hold n hnA), hg.lock_eq, if_neg (hold n hnA)]
      exact h.off_device n hnA hoff

theorem childless_iff (hw : t.counter ∉ A)
    {P P' : NodeId → Prop} (hP : ∀ n, n ≠ t.counter → (P' n ↔ P n)) {m : NodeId}
    (hm : m = node → ¬ P' t.counter) : (∀ c ∈ insert t.counter A, t'.par c = some m → ¬ P' c) ↔
      ∀ c ∈ A, t.par c = some m → ¬ P c := by
  rw [forall_mem_insert, hg.par_eq, graft_new, some.injEq]
  refine (and_iff_right fun e => hm e.symm).trans (forall₂_congr fun c hc => ?_)
  have hcw : c ≠ t.counter := fun e => hw (e ▸ hc)
  rw [graft_other hcw, hP c hcw]

theorem deviceLeaf_iff (h : ShapeOn p t A) {m : NodeId} (hm : m ≠ t.counter) (hmn : m ≠ node) :
    DeviceLeaf t' (insert t.counter A) m ↔ DeviceLeaf t A m := by
  refine deviceLeaf_congr (by simp [hm]) hg.root_eq (hg.onDevice_iff hm) ?_
    (hg.childless_iff h.not_mem_counter (fun _ => hg.onDevice_iff) fun e => absurd e hmn)
  rw [hg.lock_eq, if_neg hm]

theorem hostLeaf_iff (h : ShapeOn p t A)
    {m : NodeId} : HostLeaf t' (insert t.counter A) m ↔ HostLeaf t A m := by
  by_cases hm : m = t.counter
  · subst hm
    exact iff_of_false (fun hl => hl.off hg.onDevice_new) fun hl => h.not_mem_counter hl.mem
  · exact hostLeaf_congr (by simp [hm]) (hg.onDevice_iff hm)
      (hg.childless_iff h.not_mem_counter (fun _ => hg.backedUp_iff) fun _ => hg.not_backedUp_new)

end

theorem sum_weight (h : ShapeOn p t A) {f g : NodeId → Int} (hg : ∀ n, n ≠ t.counter → g n = f n) :
    ∑ n ∈ insert t.counter A, g n = ∑ n ∈ A, f n + g t.counter := by
  rw [sum_insert h.not_mem_counter, add_comm]
  congr 1
  exact sum_congr rfl fun n hn => hg n fun e => h.not_mem_counter (e ▸ hn)

end IsGraft

section AddLeaf

variable {p : CacheParams} {t : RadixTree} {A : Finset NodeId} {node : NodeId}
  {key : RadixKey} {value : List Nat}

theorem addLeaf_isGraft (key : RadixKey) (value : List Nat) (size : Nat) (hn : node ≠ t.counter) :
    IsGraft p.pageSize t (t.addLeaf p.pageSize node key value size).2 node key value := by
  have h := linkLeaf_isGraft p.pageSize key value hn
  exact ⟨h.counter_eq, h.root_eq, h.par_eq, h.key_eq, h.find_eq, h.lock_eq, h.value_eq, h.host_eq⟩

theorem linkLeaf_counts (h : TreeInv p t A) (hn : node ∈ A) (hnode : t.onDevice node)
    (hpos : 0 < key.len) (hd : p.pageSize ∣ key.len) (hb : key.isBigram = p.isEagle)
    (hns : node ≠ t.rootNode → key.extraKey = t.ns node)
    (hnew : t.find node (key.childKey p.pageSize) = none) (hv : value.length = key.len) :
    CoreOn p ((t.linkLeaf p.pageSize node key value).addEvictable key.len) (insert t.counter A) ∧
      CountsOff ((t.linkLeaf p.pageSize node key value).addEvictable key.len)
        (insert t.counter A) {m | m = node ∨ m = t.counter} ∅ := by
  have hold := h.core.shape.ne_counter
  have hg := linkLeaf_isGraft p.pageSize key value (hold node hn)
  set u := t.linkLeaf p.pageSize node key value
  have hshape := hg.shape h.core.shape hn hpos hd hb hns hnew
  have hcore := hg.core h.core hshape hn hnode hv
  have hlockw : (u.nodes t.counter).lockRef = 0 := by rw [hg.lock_eq, if_pos rfl]
  refine ⟨hcore.of_nodes rfl rfl rfl, ?_, ?_, ?_, ?_⟩
  · change t.evictableSize + key.len = ∑ n ∈ insert t.counter A, u.evictableWeight n
    rw [h.counts.evictable_eq, IsGraft.sum_weight h.core.shape]
    · rw [evictableWeight, if_pos ⟨hg.onDevice_new, hlockw⟩, hg.len_new]
    · intro n hn
      simp only [evictableWeight, hg.onDevice_iff hn, hg.lock_eq, hn, if_false, hg.len_old hn]
  · change t.protectedSize = ∑ n ∈ insert t.counter A, u.protectedWeight n
    rw [h.counts.protected_eq, IsGraft.sum_weight h.core.shape]
    · rw [protectedWeight, hlockw, if_neg (lt_irrefl 0), add_zero]
    · intro n hn
      simp only [protectedWeight, hg.lock_eq, hn, if_false, hg.len_old hn]
  · intro m hm
    simp only [Set.mem_ofPred_eq, not_or] at hm
    rw [deviceLeaf_addEvictable, hg.deviceLeaf_iff h.core.shape hm.2 hm.1]
    exact h.mem_leaves
  · intro m _
    rw [hostLeaf_addEvictable, hg.hostLeaf_iff h.core.shape]
    exact h.mem_hostLeaves

theorem addLeaf_treeInv (h : TreeInv p t A) (hn : node ∈ A) (hnode : t.onDevice node)
    (hpos : 0 < key.len) (hd : p.pageSize ∣ key.len) (hb : key.isBigram = p.isEagle)
    (hns : node ≠ t.rootNode → key.extraKey = t.ns node)
    (hnew : t.find node (key.childKey p.pageSize) = none) (hv : value.length = key.len) :
    TreeInv p (t.addLeaf p.pageSize node key value key.len).2 (insert t.counter A) := by
  obtain ⟨hcore, hcounts⟩ := linkLeaf_counts h hn hnode hpos hd hb hns hnew hv
  have hcounts1 := hcounts.updateLeafStatus hcore (mem_insert_of_mem hn)
  have hcore1 : CoreOn p (((t.linkLeaf p.pageSize node key value).addEvictable
      key.len).updateLeafStatus node) (insert t.counter A) := hcore.of_nodes rfl rfl rfl
  have hcounts2 := hcounts1.updateLeafStatus hcore1 (mem_insert_self t.counter A)
  refine ⟨hcore1.of_nodes rfl rfl rfl, hcounts2.mono ?_ subset_rfl⟩
  rintro m ⟨⟨hm | hm, h1⟩, h2⟩
  · exact absurd hm h1
  · exact absurd hm h2

end AddLeaf

/-! ## Removed leaves -/

namespace IsRemove

variable {p : CacheParams} {t t' : RadixTree} {A : Finset NodeId} {x : NodeId}

variable (hr : IsRemove p.pageSize t t' x)
include hr

theorem onDevice_iff (n : NodeId) : t'.onDevice n ↔ t.onDevice n := onDevice_congr (hr.value_eq _)

theorem backedUp_iff (n : NodeId) : t'.backedUp n ↔ t.backedUp n := backedUp_congr (hr.host_eq _)

theorem core (h : CoreOn p t A) (hx : x ∈ A)
    (hxr : x ≠ t.rootNode) (hleaf : ∀ c ∈ A, t.par c ≠ some x) : CoreOn p t' (A.erase x) := by
  have hmem : ∀ n, n ∈ A.erase x → n ∈ A := fun n hn => mem_of_mem_erase hn
  constructor
  · exact hr.shape h.shape hx hxr hleaf
  · intro n hn v hv
    rw [hr.value_eq] at hv
    rw [hr.len_eq]
    exact h.value_len n (hmem n hn) v hv
  · intro n hn v hv
    rw [hr.host_eq] at hv
    rw [hr.len_eq]
    exact h.host_len n (hmem n hn) v hv
  · intro n hn
    rw [hr.lock_eq]
    exact h.lock_nonneg n (hmem n hn)
  · rw [hr.root_eq, hr.lock_eq, h.root_lock]
  · rw [hr.root_eq, hr.onDevice_iff]
    exact h.root_device
  · rw [hr.root_eq, hr.backedUp_iff]
    exact h.root_backed
  · intro n hn q hq hd
    rw [hr.par_eq] at hq
    rw [hr.onDevice_iff] at hd ⊢
    exact h.device_par n (hmem n hn) q hq hd
  · intro n hn q hq hb
    rw [hr.par_eq] at hq
    rw [hr.backedUp_iff] at hb ⊢
    exact h.backed_par n (hmem n hn) q hq hb
  · intro n hn hoff
    rw [hr.onDevice_iff] at hoff
    rw [hr.backedUp_iff, hr.lock_eq]
    exact h.off_device n (hmem n hn) hoff

/-- A removed node without the property `P` does not change which nodes have no child with
the property. -/
theorem childless_iff {P P' : NodeId → Prop}
    (hP : ∀ n, P' n ↔ P n) {m : NodeId} (hm : t.par x = some m → ¬ P x) :
    (∀ c ∈ A.erase x, t'.par c = some m → ¬ P' c) ↔ ∀ c ∈ A, t.par c = some m → ¬ P c := by
  constructor
  · intro hno c hc hcm
    by_cases hcx : c = x
    · subst hcx
      exact hm hcm
    · have := hno c (mem_erase.mpr ⟨hcx, hc⟩) ((hr.par_eq c).trans hcm)
      rwa [hP] at this
  · intro hno c hc hcm
    rw [hr.par_eq] at hcm
    rw [hP]
    exact hno c (mem_of_mem_erase hc) hcm

theorem deviceLeaf_iff {m : NodeId} (hmx : m ≠ x)
    (hm : t.par x = some m → ¬ t.onDevice x) : DeviceLeaf t' (A.erase x) m ↔ DeviceLeaf t A m :=
  deviceLeaf_congr (by simp [hmx]) hr.root_eq (hr.onDevice_iff m) (hr.lock_eq m)
    (hr.childless_iff hr.onDevice_iff hm)

theorem hostLeaf_iff {m : NodeId} (hmx : m ≠ x)
    (hm : t.par x = some m → ¬ t.backedUp x) : HostLeaf t' (A.erase x) m ↔ HostLeaf t A m :=
  hostLeaf_congr (by simp [hmx]) (hr.onDevice_iff m) (hr.childless_iff hr.backedUp_iff hm)

theorem sum_evictable (hx : x ∈ A) : ∑ n ∈ A.erase x, t'.evictableWeight n =
      ∑ n ∈ A, t.evictableWeight n - t.evictableWeight x := by
  simp only [evictableWeight, hr.onDevice_iff, hr.lock_eq, hr.len_eq]
  exact sum_erase_eq_sub hx

theorem sum_protected (hx : x ∈ A) : ∑ n ∈ A.erase x, t'.protectedWeight n =
      ∑ n ∈ A, t.protectedWeight n - t.protectedWeight x := by
  simp only [protectedWeight, hr.lock_eq, hr.len_eq]
  exact sum_erase_eq_sub hx

/-- The counts after a removal that takes the weights of the node out of the sizes and the
node out of the leaf sets: only the parent may be wrong in them. -/
theorem counts (h : TreeInv p t A) (hx : x ∈ A)
    (he : t'.evictableSize = t.evictableSize - t.evictableWeight x)
    (hp : t'.protectedSize = t.protectedSize - t.protectedWeight x)
    (hl : ∀ m, m ∈ t'.evictableLeaves ↔ m ≠ x ∧ m ∈ t.evictableLeaves)
    (hhl : ∀ m, m ∈ t'.evictableHostLeaves ↔ m ≠ x ∧ m ∈ t.evictableHostLeaves) :
    CountsOff t' (A.erase x) {m | t.par x = some m ∧ t.onDevice x}
      {m | t.par x = some m ∧ t.backedUp x} := by
  have hgone : x ∉ A.erase x := notMem_erase x A
  refine ⟨?_, ?_, fun m hm => ?_, fun m hm => ?_⟩
  · rw [he, hr.sum_evictable hx, h.counts.evictable_eq]
  · rw [hp, hr.sum_protected hx, h.counts.protected_eq]
  · rw [hl, h.mem_leaves]
    by_cases hmx : m = x
    · subst hmx
      exact iff_of_false (fun hh => hh.1 rfl) fun hh => hgone hh.mem
    · rw [hr.deviceLeaf_iff hmx fun hpar hd => hm ⟨hpar, hd⟩]
      exact and_iff_right hmx
  · rw [hhl, h.mem_hostLeaves]
    by_cases hmx : m = x
    · subst hmx
      exact iff_of_false (fun hh => hh.1 rfl) fun hh => hgone hh.mem
    · rw [hr.hostLeaf_iff hmx fun hpar hb => hm ⟨hpar, hb⟩]
      exact and_iff_right hmx

end IsRemove

/-- `_delete_leaf` of an unlocked node on the device that has no child and no backup. -/
theorem deleteLeaf_treeInv {p : CacheParams} {t : RadixTree} {A : Finset NodeId} {x : NodeId}
    (h : TreeInv p t A) (hl : DeviceLeaf t A x) (hback : ¬ t.backedUp x) :
    ∃ t', t.deleteLeaf p.pageSize x = .ok t' ∧ IsRemove p.pageSize t t' x ∧
      TreeInv p t' (A.erase x) := by
  have hx := hl.mem
  have hxr := hl.ne_root
  obtain ⟨q, hqA, hq⟩ := h.core.shape.rooted.par_mem hx hxr
  have hqx : q ≠ x := h.core.shape.rooted.par_ne hx hq
  -- a child off the device would be backed up, and then `x` as well
  have hleaf : ∀ c ∈ A, t.par c ≠ some x := by
    intro c hc hcx
    have hoff := hl.childless c hc hcx
    exact hback (h.core.backed_par c hc x hcx (h.core.off_device c hc hoff).1)
  have hpop := popChild_eq hq (h.core.shape.find_par hx hq)
  have hr := popped_isRemove p.pageSize hq
  set u := popped p.pageSize t x q with hu
  have hcore := hr.core h.core hx hxr hleaf
  have hlen : (u.nodes x).key.len = t.len x := hr.len_eq x
  let v : RadixTree := { u.addEvictable (-(u.nodes x).key.len) with
    evictableLeaves := u.evictableLeaves.erase x }
  have hcoreV : CoreOn p v (A.erase x) := hcore.of_nodes rfl rfl rfl
  have hqA' : q ∈ A.erase x := mem_erase.mpr ⟨hqx, hqA⟩
  have hrV : IsRemove p.pageSize t v x := hr.of_nodes rfl rfl rfl
  have hcounts : CountsOff v (A.erase x) {q} ∅ := by
    refine (hrV.counts h hx ?_ ?_ (fun _ => ListSet.mem_erase) ?_).mono ?_ ?_
    · rw [evictableWeight, if_pos ⟨hl.device, hl.unlocked⟩, ← hlen]
      rfl
    · rw [protectedWeight, hl.unlocked, if_neg (lt_irrefl 0), sub_zero]
      rfl
    · refine fun m => (and_iff_right_of_imp ?_).symm
      rintro hm rfl
      exact (h.mem_hostLeaves.mp hm).off hl.device
    · rintro m ⟨hm, -⟩
      exact some.inj (hm.symm.trans hq)
    · exact fun m hm => absurd hm.2 hback
  refine ⟨v.updateLeafStatus q, ?_, hrV.of_nodes rfl rfl rfl, hcoreV.of_nodes rfl rfl rfl, ?_⟩
  · unfold deleteLeaf
    rw [hpop]
    rfl
  · apply (hcounts.updateLeafStatus hcoreV hqA').mono
    · simp
    · exact subset_rfl

/-! ## The empty tree -/

section Init

theorem init_par (n : NodeId) : init.par n = none := by
  simp only [par, init]
  split_ifs <;> rfl

theorem init_find (n : NodeId) (ck : ChildKey) : init.find n ck = none := by
  simp only [find, init]
  split_ifs <;> rfl

theorem init_shape (p : CacheParams) : ShapeOn p init {0} where
  rooted := by
    refine ⟨mem_singleton_self 0, init_par 0, fun _ => 0, fun _ _ => Nat.one_pos, ?_⟩
    intro n hn hr
    exact absurd (mem_singleton.mp hn) hr
  below n hn := by
    rw [mem_singleton.mp hn]
    exact Nat.one_pos
  find_iff n _ ck c := by simp [init_find, init_par]
  root_len := rfl
  len_pos n hn hr := absurd (mem_singleton.mp hn) hr
  len_dvd n hn := by
    rw [mem_singleton.mp hn]
    exact dvd_zero _
  bigram n hn hr := absurd (mem_singleton.mp hn) hr
  ns_par n _ q hq := by
    rw [init_par] at hq
    cases hq

theorem init_core (p : CacheParams) : CoreOn p init {0} where
  shape := init_shape p
  value_len n hn v hv := by
    rw [mem_singleton.mp hn] at hv ⊢
    cases hv
    rfl
  host_len n hn v hv := by
    rw [mem_singleton.mp hn] at hv ⊢
    cases hv
    rfl
  lock_nonneg n hn := by
    rw [mem_singleton.mp hn]
    exact Int.one_nonneg
  root_lock := rfl
  root_device := some_ne_none _
  root_backed := some_ne_none _
  device_par n _ q hq := by
    rw [init_par] at hq
    cases hq
  backed_par n _ q hq := by
    rw [init_par] at hq
    cases hq
  off_device n hn hoff := by
    rw [mem_singleton.mp hn] at hoff
    exact absurd (some_ne_none _) hoff

theorem init_treeInv (p : CacheParams) : TreeInv p init {0} := by
  refine ⟨init_core p, ?_, ?_, ?_, ?_⟩
  · rfl
  · rfl
  · intro n _
    refine iff_of_false (ListSet.not_mem_empty) fun h => ?_
    exact h.ne_root (mem_singleton.mp h.mem)
  · intro n _
    refine iff_of_false (ListSet.not_mem_empty) fun h => ?_
    have hoff := h.off
    rw [mem_singleton.mp h.mem] at hoff
    exact hoff (some_ne_none _)

end Init

end Fluxfer.Radix
