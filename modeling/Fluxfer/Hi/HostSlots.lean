import Fluxfer.Hi.Runs

/-!
# Host slots

Every host slot is free or in the host value of one node, and no step changes which slots there
are. The host slots on the path of a node with a backup stay as they are while the node is in the
tree (`HostPath`). With write-back the eviction inside of `load_back` may take the slots of the very
nodes that are to be loaded.
-/

namespace Fluxfer.Hi

open Radix ParentTree Memory HiCache Multiset Finset List

variable {t : RadixTree} {n : NodeId} {c : HiCache} {A : Finset NodeId} {hp : HiParams}

/-! ## All host slots -/

/-- The free host slots and those of the nodes `A`. -/
def allHostSlots (c : HiCache) (A : Finset NodeId) : Multiset Nat :=
  (c.hostPool.freeSlots : Multiset Nat) + ∑ n ∈ A, (hostValue c.tree n : Multiset Nat)

theorem hostValue_congr {t' : RadixTree} (h : (t'.nodes n).hostValue = (t.nodes n).hostValue) :
    hostValue t' n = hostValue t n := by
  rw [hostValue, h, hostValue]

theorem hostValue_of_not_backedUp (h : ¬ t.backedUp n) : hostValue t n = [] := by
  rw [hostValue, not_not.mp h]
  rfl

theorem allHostSlots_congr {c' : HiCache} (hpool : c'.hostPool = c.hostPool)
    (hhost : ∀ n, (c'.tree.nodes n).hostValue = (c.tree.nodes n).hostValue) :
    allHostSlots c' A = allHostSlots c A := by
  rw [allHostSlots, hpool]
  congr 1
  exact sum_congr rfl fun n _ => by rw [hostValue_congr (hhost n)]

section Step

variable {par : NodeId → Option NodeId} {a : NodeId} {ns : List NodeId} {u v : List Nat}
variable {s s' : HiState}

theorem split_hostValue {c : NodeId} {k : Nat} (hs : IsSplit hp.pageSize s.tree t c k) (n : NodeId) :
    hostValue t n =
      if n = s.tree.counter then (hostValue s.tree c).take k
      else if n = c then (hostValue s.tree c).drop k else hostValue s.tree n := by
  have hmap : ∀ (o : Option (List Nat)) (f : List Nat → List Nat), f [] = [] →
      (o.map f).getD [] = f (o.getD []) := by
    intro o f hf
    cases o with
    | none => exact hf.symm
    | some v => rfl
  rw [hostValue, hs.host_eq]
  split_ifs
  · exact hmap _ _ take_nil
  · exact hmap _ _ drop_nil
  · rfl

theorem HiStep.allHostSlots_eq (h : HiStep hp s s') (hi : HiInv hp s) :
    allHostSlots s'.cache s'.nodes = allHostSlots s.cache s.nodes := by
  have hw := hi.shape.not_mem_counter
  have hold : ∀ n ∈ s.nodes, n ≠ s.tree.counter := fun n hn e => hw (e ▸ hn)
  cases h with
  | book htree _ hh => exact allHostSlots_congr hh htree.host_eq
  | refill => rfl
  | @split t c k hs hc _ _ _ _ =>
    unfold allHostSlots
    congr 1
    rw [sum_insert hw, ← add_sum_erase s.nodes _ hc,
      ← add_sum_erase s.nodes _ hc, ← add_assoc, split_hostValue hs, split_hostValue hs,
      if_pos rfl, if_neg (hold c hc), if_pos rfl, coe_add, take_append_drop]
    congr 1
    apply sum_congr rfl
    intro n hn
    rw [split_hostValue hs, if_neg (hold n (Finset.mem_of_mem_erase hn)),
      if_neg (ne_of_mem_erase hn)]
  | @graft t node key value hg _ =>
    unfold allHostSlots
    congr 1
    have hnew : hostValue t s.tree.counter = [] := by
      rw [hostValue, hg.host_eq, if_pos rfl]
      rfl
    rw [sum_insert hw, hnew, coe_nil, zero_add]
    refine sum_congr rfl fun n hn => ?_
    rw [hostValue_congr]
    rw [hg.host_eq, if_neg (hold n hn)]
  | @fill n a v =>
    refine allHostSlots_congr rfl fun m => ?_
    show ((fillNode s.tree n v).nodes m).hostValue = _
    by_cases hm : m = n
    · rw [hm, fillNode_self]
    · exact (fillNode_isTouch s.tree n v).host_eq m hm
  | @demote x q =>
    refine allHostSlots_congr rfl fun m => ?_
    show ((emptyNode s.tree x (s.tree.len x)).nodes m).hostValue = _
    by_cases hm : m = x
    · rw [hm, emptyNode_self]
    · exact (emptyNode_isTouch s.tree x _).host_eq m hm
  | @drop x t hx hb hr _ =>
    have hnone := hostValue_of_not_backedUp hb
    unfold allHostSlots
    congr 1
    rw [← add_sum_erase s.nodes _ hx.mem, hnone, coe_nil, zero_add]
    exact sum_congr rfl fun n _ => by rw [hostValue_congr (hr.host_eq n)]
  | @dropHost x t hx hr _ _ =>
    unfold allHostSlots
    show ((s.cache.hostPool.freeSlots ++ hostValue s.tree x : List Nat) : Multiset Nat) +
      ∑ n ∈ s.nodes.erase x, (hostValue t n : Multiset Nat) = _
    rw [← Finset.add_sum_erase s.nodes _ hx.mem, ← coe_add, add_assoc]
    congr 2
    exact sum_congr rfl fun n _ => by rw [hostValue_congr (hr.host_eq n)]
  | lock _ hl => exact allHostSlots_congr rfl hl.host_eq
  | unlock _ hl => exact allHostSlots_congr rfl hl.host_eq
  | @backup x v t hpool ids hx _ hb halloc ht _ =>
    have hnone := hostValue_of_not_backedUp hb
    have hself : hostValue t x = v := by
      rw [hostValue, ht.host_eq, if_pos rfl]
      rfl
    have hrest : ∑ n ∈ s.nodes.erase x, (hostValue t n : Multiset Nat) =
        ∑ n ∈ s.nodes.erase x, (hostValue s.tree n : Multiset Nat) := by
      apply Finset.sum_congr rfl
      intro n hn
      rw [hostValue_congr]
      rw [ht.host_eq, if_neg (Finset.ne_of_mem_erase hn)]
    unfold allHostSlots
    rw [← HostPool.alloc_some halloc, ← Finset.add_sum_erase s.nodes _ hx,
      ← Finset.add_sum_erase s.nodes _ hx, hnone, hself, hrest, coe_nil, zero_add,
      ← coe_add, ← add_assoc, add_comm (hpool.freeSlots : Multiset Nat)]
  | ackWrite _ hl => exact allHostSlots_congr rfl hl.host_eq
  | leakWrite => rfl
  | load _ _ ht => exact allHostSlots_congr rfl ht.host_eq
  | ackLoad _ hl => exact allHostSlots_congr rfl hl.host_eq

theorem HiSteps.allHostSlots_eq (h : HiSteps hp s s') (hi : HiInv hp s) :
    allHostSlots s'.cache s'.nodes = allHostSlots s.cache s.nodes := by
  induction h with
  | refl => rfl
  | tail hsteps hstep ih => exact (hstep.allHostSlots_eq (HiSteps.inv hsteps hi)).trans ih

/-! ## Host slots on a path -/

/-- The node `n` has a backup, its path goes through `a`, and the host slots of the path are `u`
down to `a` and `v` below. -/
structure HostPath (t : RadixTree) (a n : NodeId) (u v : List Nat) : Prop where
  anc : Anc t.par a n
  backed : t.backedUp n
  above : PathLabel t.par (hostValue t) a u
  label : PathLabel t.par (hostValue t) n (u ++ v)

theorem anc_down (h : Anc par a n) : ∃ ns, Down par a ns n := by
  induction h with
  | refl => exact ⟨[], .nil _⟩
  | tail _ hstep ih =>
    obtain ⟨ns, hns⟩ := ih
    exact ⟨_ :: ns, .cons hstep hns⟩

theorem down_nodup {A : Finset NodeId} {root : NodeId} {bound : Nat} (hT : Rooted par A root bound)
    (h : Down par a ns n) (hmem : ∀ m ∈ ns, m ∈ A) : ns.Nodup := by
  induction h with
  | nil => exact nodup_nil
  | @cons a m n ns hm h ih =>
    refine nodup_cons.mpr ⟨fun hmns => ?_, ih fun k hk => hmem k (mem_cons_of_mem _ hk)⟩
    obtain ⟨q, hq, hanc⟩ := h.par_anc m hmns
    exact hT.not_anc_of_par (hmem m mem_cons_self) hq hanc

theorem hostLabel_of_down (h : Down t.par a ns n) (hu : PathLabel t.par (hostValue t) a u) :
    PathLabel t.par (hostValue t) n (u ++ hostSlots t ns) := by
  induction h generalizing u with
  | nil a =>
    rw [hostSlots, map_nil, flatten_nil, append_nil]
    exact hu
  | @cons a m x ns hm _ ih =>
    have := ih (.step hm hu)
    rwa [append_assoc] at this

theorem HostPath.slots (h : HostPath t a n u v) : ∃ ns, Down t.par a ns n ∧ hostSlots t ns = v := by
  obtain ⟨ns, hns⟩ := anc_down h.anc
  exact ⟨ns, hns, append_cancel_left ((hostLabel_of_down hns h.above).unique h.label)⟩

theorem HostPath.congr {t' : RadixTree} (h : HostPath t a n u v) (hpar : ∀ m, t'.par m = t.par m)
    (hhost : ∀ m, Anc t.par m n → (t'.nodes m).hostValue = (t.nodes m).hostValue) :
    HostPath t' a n u v := by
  have hpar' : t'.par = t.par := funext hpar
  refine ⟨?_, ?_, ?_, ?_⟩
  · rw [hpar']
    exact h.anc
  · exact (backedUp_congr (hhost n (anc_refl _ _))).mpr h.backed
  · rw [hpar']
    exact h.above.congr fun m hm => hostValue_congr (hhost m (anc_trans hm h.anc))
  · rw [hpar']
    exact h.label.congr fun m hm => hostValue_congr (hhost m hm)

theorem HiStep.hostPath (h : HiStep hp s s') (hi : HiInv hp s) (hn : n ∈ s.nodes)
    (hpath : HostPath s.tree a n u v) : HostPath s'.tree a n u v := by
  have hw := hi.shape.not_mem_counter
  have ha : a ∈ s.nodes := hi.shape.rooted.anc_mem hn hpath.anc
  have hold : ∀ m ∈ s.nodes, m ≠ s.tree.counter := fun m hm e => hw (e ▸ hm)
  cases h with
  | book htree => exact hpath.congr htree.par_eq fun m _ => htree.host_eq m
  | refill => exact hpath
  | @split t c k hs hc hcr _ _ _ =>
    have hlabel : ∀ m ∈ s.nodes, ∀ l, PathLabel s.tree.par (hostValue s.tree) m l →
        PathLabel t.par (hostValue t) m l := by
      rw [hs.par_eq]
      refine hi.shape.rooted.label_splice hc hcr hw ?_ ?_
      · rw [split_hostValue hs, split_hostValue hs, if_pos rfl, if_neg (hold c hc), if_pos rfl]
        exact take_append_drop _ _
      · intro m hm hmc
        rw [split_hostValue hs, if_neg (hold m hm), if_neg hmc]
    refine ⟨?_, ?_, hlabel a ha _ hpath.above, hlabel n hn _ hpath.label⟩
    · rw [hs.par_eq]
      exact (hi.shape.rooted.anc_splice hc hcr hw n hn).mpr (Or.inl hpath.anc)
    · rw [hs.backedUp_iff, if_neg (hold n hn)]
      exact hpath.backed
  | @graft t node key value hg _ =>
    have hother : ∀ m ∈ s.nodes, hostValue t m = hostValue s.tree m := by
      intro m hm
      refine hostValue_congr ?_
      rw [hg.host_eq, if_neg (hold m hm)]
    have hlabel : ∀ m ∈ s.nodes, ∀ l, PathLabel s.tree.par (hostValue s.tree) m l →
        PathLabel t.par (hostValue t) m l := by
      intro m hm l hl
      rw [hg.par_eq]
      exact (hi.shape.rooted.label_graft hw hother m hm l).mpr hl
    refine ⟨?_, ?_, hlabel a ha _ hpath.above, hlabel n hn _ hpath.label⟩
    · rw [hg.par_eq]
      exact (hi.shape.rooted.anc_graft hw n hn).mpr hpath.anc
    · exact (hg.backedUp_iff (hold n hn)).mpr hpath.backed
  | @fill x q w =>
    have ht := fillNode_isTouch s.tree x w
    refine hpath.congr ht.par_eq fun m _ => ?_
    show ((fillNode s.tree x w).nodes m).hostValue = _
    by_cases hm : m = x
    · rw [hm, fillNode_self]
    · exact ht.host_eq m hm
  | @demote x q =>
    have ht := emptyNode_isTouch s.tree x (s.tree.len x)
    refine hpath.congr ht.par_eq fun m _ => ?_
    show ((emptyNode s.tree x (s.tree.len x)).nodes m).hostValue = _
    by_cases hm : m = x
    · rw [hm, emptyNode_self]
    · exact ht.host_eq m hm
  | drop _ _ hr => exact hpath.congr hr.par_eq fun m _ => hr.host_eq m
  | dropHost _ hr => exact hpath.congr hr.par_eq fun m _ => hr.host_eq m
  | lock _ hl => exact hpath.congr hl.par_eq fun m _ => hl.host_eq m
  | unlock _ hl => exact hpath.congr hl.par_eq fun m _ => hl.host_eq m
  | @backup x w t hpool ids hx _ hb _ ht _ =>
    -- the nodes above a node with a backup have one already
    refine hpath.congr ht.par_eq fun m hm => ?_
    have hmx : m ≠ x := fun e =>
      hb (e ▸ (hi.tree.core.anc_backedUp hn hpath.backed hm).2)
    rw [ht.host_eq, if_neg hmx]
  | ackWrite _ hl => exact hpath.congr hl.par_eq fun m _ => hl.host_eq m
  | leakWrite => exact hpath
  | load _ _ ht => exact hpath.congr ht.par_eq fun m _ => ht.host_eq m
  | ackLoad _ hl => exact hpath.congr hl.par_eq fun m _ => hl.host_eq m

theorem HiStep.counter_le (h : HiStep hp s s') : s.tree.counter ≤ s'.tree.counter := by
  cases h with
  | book htree => exact htree.counter_eq.ge
  | split hs => exact hs.counter_eq ▸ Nat.le_succ _
  | graft hg => exact hg.counter_eq ▸ Nat.le_succ _
  | drop _ _ hr => exact hr.counter_eq.ge
  | dropHost _ hr => exact hr.counter_eq.ge
  | lock _ hl => exact hl.counter_eq.ge
  | unlock _ hl => exact hl.counter_eq.ge
  | backup _ _ _ _ ht => exact ht.counter_eq.ge
  | ackWrite _ hl => exact hl.counter_eq.ge
  | load _ _ ht =>
    obtain ⟨u, hf, hl⟩ := ht.filled
    exact (hl.counter_eq.trans hf.fill.counter_eq).ge
  | ackLoad _ hl => exact hl.counter_eq.ge
  | _ => exact le_rfl

theorem HiStep.mem_of_mem (h : HiStep hp s s') (hn : n ∈ s'.nodes) (hlt : n < s.tree.counter) :
    n ∈ s.nodes := by
  cases h with
  | split => exact (mem_insert.mp hn).resolve_left hlt.ne
  | graft => exact (mem_insert.mp hn).resolve_left hlt.ne
  | drop => exact Finset.mem_of_mem_erase hn
  | dropHost => exact Finset.mem_of_mem_erase hn
  | _ => exact hn

end Step

/-! ## Runs -/

/-- A property of the cache that every step keeps, and that does not read the allocator, holds in
every session of a run. -/
theorem HiRun.induct (hpol : hp.writePolicy ≠ .writeBack) {s0 s : HiSession} {A0 : Finset NodeId}
    {ops : List HiOp} {P : HiCache → Finset NodeId → Prop}
    (hstep : ∀ r r', HiInv hp r → HiStep hp r r' → P r.cache r.nodes → P r'.cache r'.nodes)
    (halloc : ∀ c A a, P c A → P { c with allocator := a } A) (h0 : s0.Inv hp A0)
    (hP : P s0.cache A0) (h : HiRun hp s0 ops s) : ∃ A, s.Inv hp A ∧ P s.cache A := by
  have hsteps : ∀ {r r'}, HiSteps hp r r' → HiInv hp r → P r.cache r.nodes →
      P r'.cache r'.nodes := by
    intro r r' hrs hi hr
    induction hrs with
    | refl => exact hr
    | tail hpre hlast ih => exact hstep _ _ (HiSteps.inv hpre hi) hlast ih
  induction h with
  | nil => exact ⟨A0, h0, hP⟩
  | snoc _ hv hs ih =>
    obtain ⟨A, hi, hPs⟩ := ih
    obtain ⟨s', r, hrun, hdoes⟩ := HiSession.step_spec hpol hi hv
    obtain rfl := Except.ok.inj (hs.symm.trans hrun)
    refine ⟨r.nodes, hdoes.inv, ?_⟩
    rw [hdoes.cache_eq]
    exact halloc _ _ _ (hsteps hdoes.steps hi.state hPs)

/-- The host slots `slots` are those of nodes of the tree on the path of `n`, in the order of the
path; they are not free and no other node has one of them. -/
def SourcesValid (c : HiCache) (n : NodeId) (slots : List Nat) : Prop :=
  ∃ a ns, Down c.tree.par a ns n ∧ (∀ m ∈ ns, c.tree.Attached m) ∧
    slots = (ns.map (hostValue c.tree)).flatten ∧ slots.Nodup ∧
    ∀ x ∈ slots, x ∉ c.hostPool.freeSlots ∧
      ∀ m, c.tree.Attached m → x ∈ hostValue c.tree m → m ∈ ns

theorem sourcesValid_of_nodup {a : NodeId} {u v : List Nat}
    (hshape : ShapeOn hp.toCacheParams c.tree A) (hnodup : (allHostSlots c A).Nodup) (hn : n ∈ A)
    (hpath : HostPath c.tree a n u v) : SourcesValid c n v := by
  obtain ⟨ns, hdown, hslots⟩ := hpath.slots
  have hmem : ∀ m ∈ ns, m ∈ A := fun m hm => hshape.rooted.anc_mem hn (hdown.anc.2 m hm)
  obtain ⟨_, hsum, hdisj⟩ := nodup_add.mp hnodup
  -- a slot of a node is not free and not in another node
  have hfree : ∀ m ∈ A, ∀ x ∈ hostValue c.tree m, x ∉ c.hostPool.freeSlots := by
    intro m hm x hx hf
    refine disjoint_left.mp hdisj (mem_coe.mpr hf) ?_
    exact mem_of_le (single_le_sum (fun _ _ => zero_le _) hm)
      (mem_coe.mpr hx)
  have hother : ∀ m ∈ A, ∀ k ∈ A, m ≠ k → ∀ x ∈ hostValue c.tree m,
      x ∉ hostValue c.tree k := by
    intro m hm k hk hmk x hx hxk
    rw [← add_sum_erase A _ hm] at hsum
    obtain ⟨_, _, hd⟩ := nodup_add.mp hsum
    refine disjoint_left.mp hd (mem_coe.mpr hx) ?_
    exact mem_of_le (single_le_sum
      (fun _ _ => zero_le _)
      (mem_erase.mpr ⟨Ne.symm hmk, hk⟩)) (mem_coe.mpr hxk)
  have hone : ∀ m ∈ A, (hostValue c.tree m).Nodup := by
    intro m hm
    rw [← add_sum_erase A _ hm] at hsum
    exact coe_nodup.mp (nodup_add.mp hsum).1
  refine ⟨a, ns, hdown, fun m hm => hshape.attached_iff.mpr (hmem m hm), hslots.symm, ?_, ?_⟩
  · rw [← hslots, hostSlots, nodup_flatten]
    refine ⟨?_, ?_⟩
    · intro l hl
      obtain ⟨m, hm, rfl⟩ := mem_map.mp hl
      exact hone m (hmem m hm)
    · rw [pairwise_map]
      refine (down_nodup hshape.rooted hdown hmem).imp_of_mem fun {m k} hm hk hmk => ?_
      exact fun x hx hxk => hother m (hmem m hm) k (hmem k hk) hmk x hx hxk
  · intro x hx
    rw [← hslots, hostSlots, mem_flatten] at hx
    obtain ⟨l, hl, hxl⟩ := hx
    obtain ⟨m, hm, rfl⟩ := mem_map.mp hl
    refine ⟨hfree m (hmem m hm) x hxl, fun k hk hxk => ?_⟩
    by_contra hkn
    exact hother m (hmem m hm) k (hshape.attached_iff.mp hk) (fun e => hkn (e ▸ hm)) x hxl hxk

section Run

variable {l : Ledger} {a : Allocator} {pool : HostPool} {ops : List HiOp} {s : HiSession}

theorem HiRun.allHostSlots_eq (hpol : hp.writePolicy ≠ .writeBack)
    (ha : a.pageSize = hp.pageSize) (hh : pool.pageSize = hp.pageSize)
    (h : HiRun hp (.initWith l a pool) ops s) :
    ∃ A, s.Inv hp A ∧ allHostSlots s.cache A = (pool.freeSlots : Multiset Nat) :=
  HiRun.induct hpol (P := fun c A => allHostSlots c A = (pool.freeSlots : Multiset Nat))
    (fun _ _ hir hrr hP => (hrr.allHostSlots_eq hir).trans hP) (fun _ _ _ hP => hP)
    (HiSession.initWith_inv l a pool ha hh) (add_zero _) h

theorem HiRun.allHostSlots_nodup (hpol : hp.writePolicy ≠ .writeBack)
    (ha : a.pageSize = hp.pageSize) (hh : pool.pageSize = hp.pageSize)
    (hpool : pool.freeSlots.Nodup) (h : HiRun hp (.initWith l a pool) ops s) :
    ∃ A, s.Inv hp A ∧ (allHostSlots s.cache A).Nodup := by
  obtain ⟨A, hi, hslots⟩ := h.allHostSlots_eq hpol ha hh
  refine ⟨A, hi, ?_⟩
  rw [hslots]
  exact coe_nodup.mpr hpool

/-- When `load_back` for `n` succeeds, it has queued one load. From then on, in every session in
which the load is not acknowledged, its host slots are those of nodes on the path of `n`. -/
theorem run_loadSources (hpol : hp.writePolicy ≠ .writeBack) (ha : a.pageSize = hp.pageSize)
    (hh : pool.pageSize = hp.pageSize) (hpool : pool.freeSlots.Nodup)
    (h : HiRun hp (.initWith l a pool) ops s) {n : NodeId} {memQuota : Option Int}
    {rid : Option Nat} {pick : Nat → Nat → Nat} (hv : s.Valid hp (.loadBack n memQuota rid pick))
    {v : List Nat} {c : HiCache} (hload : s.cache.loadBack hp n memQuota rid pick = .ok (some v, c)) :
    ∃ o, c.loadQueue = s.cache.loadQueue ++ [o] ∧ o.nodeId = n ∧ o.deviceIndices = v ∧
      n ∈ c.ongoingLoadBack ∧
      ∀ ops' s', HiRun hp { s with cache := c } ops' s' → n ∈ s'.cache.ongoingLoadBack →
        SourcesValid s'.cache n o.hostIndices := by
  obtain ⟨A, hi, hnodup⟩ := h.allHostSlots_nodup hpol ha hh hpool
  have hn : n ∈ A := hi.state.shape.attached_iff.mp hv.1
  obtain ⟨r, c', B, top, ns, hrun, hsteps, hch, hloaded, hqueued⟩ :=
    loadBack_spec hpol hi.state hn hv.2 memQuota rid pick
  cases hload.symm.trans hrun
  have hq := hqueued v rfl
  have hi' : HiSession.Inv hp { s with cache := c } B := hi.of_steps hsteps
  -- the path that was loaded
  obtain ⟨u, hu⟩ := hi.state.shape.rooted.exists_label (hostValue s.cache.tree) top hch.mem
  have hback : s.cache.tree.backedUp n := (hi.state.tree.core.off_device n hn hv.2).1
  have hpath : HostPath c.tree top n u (hostSlots s.cache.tree ns) := by
    refine HostPath.congr ⟨hch.down.anc.1, hback, hu, hostLabel_of_down hch.down hu⟩
      hloaded.par_eq fun m _ => hq.host_eq m
  have hcount : n < c.tree.counter := hi'.state.shape.below n hloaded.mem
  refine ⟨_, hq.queue, rfl, rfl, hq.ongoing, fun ops' s' hrun' hmem => ?_⟩
  have hslots : (allHostSlots c B).Nodup := by
    have hsame : allHostSlots c B = allHostSlots s.cache A := hsteps.allHostSlots_eq hi.state
    rw [hsame]
    exact hnodup
  obtain ⟨A', hi'', hnodup', hlt, hpath'⟩ := HiRun.induct hpol
    (P := fun c A => (allHostSlots c A).Nodup ∧ n < c.tree.counter ∧
      (n ∈ A → HostPath c.tree top n u (hostSlots s.cache.tree ns)))
    (fun r r' hir hrr hP => by
      obtain ⟨h1, h2, h3⟩ := hP
      refine ⟨hrr.allHostSlots_eq hir ▸ h1, ?_, fun hn' => ?_⟩
      · exact lt_of_lt_of_le h2 hrr.counter_le
      · have hn := hrr.mem_of_mem hn' h2
        exact hrr.hostPath hir hn (h3 hn))
    (fun _ _ _ hP => hP) hi' ⟨hslots, hcount, fun _ => hpath⟩ hrun'
  have hn' : n ∈ A' := hi''.state.held.mem n (HiInv.load_mem_locks hmem)
  exact sourcesValid_of_nodup hi''.state.shape hnodup' hn' (hpath' hn')

/-- With a write-through policy, in every state of every run, the host slots are the free ones and
those of the nodes of the tree, each as often as at the start. -/
theorem run_hostSlots (hpol : hp.writePolicy ≠ .writeBack) (ha : a.pageSize = hp.pageSize)
    (hh : pool.pageSize = hp.pageSize) (h : HiRun hp (.initWith l a pool) ops s) :
    (s.cache.hostPool.freeSlots : Multiset Nat) +
      ∑ n ∈ s.cache.tree.attached, (hostValue s.cache.tree n : Multiset Nat) = pool.freeSlots := by
  obtain ⟨A, hi, hslots⟩ := h.allHostSlots_eq hpol ha hh
  have hshape : ShapeOn hp.toCacheParams s.cache.tree A := hi.state.shape
  rw [hshape.attached_eq]
  exact hslots

/-- A backup stays: as long as a node with a backup is in the tree, in every later session, the
host slots of its path are the same, not free and in no other node. -/
theorem run_backupKept (hpol : hp.writePolicy ≠ .writeBack) (ha : a.pageSize = hp.pageSize)
    (hh : pool.pageSize = hp.pageSize) (hpool : pool.freeSlots.Nodup)
    (h : HiRun hp (.initWith l a pool) ops s) {n : NodeId} {ns : List NodeId}
    (hn : s.cache.tree.Attached n) (hb : s.cache.tree.backedUp n)
    (hdown : Down s.cache.tree.par s.cache.tree.rootNode ns n) {ops' : List HiOp} {s' : HiSession}
    (h' : HiRun hp s ops' s') (hn' : s'.cache.tree.Attached n) :
    s'.cache.tree.backedUp n ∧ SourcesValid s'.cache n (hostSlots s.cache.tree ns) := by
  obtain ⟨A, hi, hnodup⟩ := h.allHostSlots_nodup hpol ha hh hpool
  have hshape := hi.state.shape
  have hmem : n ∈ A := hshape.attached_iff.mp hn
  obtain ⟨u, hu⟩ := hshape.rooted.exists_label (hostValue s.cache.tree) _ hshape.rooted.root_mem
  have hpath : HostPath s.cache.tree s.cache.tree.rootNode n u (hostSlots s.cache.tree ns) :=
    ⟨hdown.anc.1, hb, hu, hostLabel_of_down hdown hu⟩
  -- a node that has left the tree does not come back, so the path is kept while `n` is there
  obtain ⟨A', hi', hnodup', _, hpath'⟩ := HiRun.induct hpol
    (P := fun c A => (allHostSlots c A).Nodup ∧ n < c.tree.counter ∧
      (n ∈ A → HostPath c.tree s.cache.tree.rootNode n u (hostSlots s.cache.tree ns)))
    (fun r r' hir hrr hP => by
      obtain ⟨h1, h2, h3⟩ := hP
      refine ⟨hrr.allHostSlots_eq hir ▸ h1, lt_of_lt_of_le h2 hrr.counter_le, fun hr' => ?_⟩
      have hr := hrr.mem_of_mem hr' h2
      exact hrr.hostPath hir hr (h3 hr))
    (fun _ _ _ hP => hP) hi ⟨hnodup, hshape.below n hmem, fun _ => hpath⟩ h'
  have hmem' : n ∈ A' := hi'.state.shape.attached_iff.mp hn'
  exact ⟨(hpath' hmem').backed, sourcesValid_of_nodup hi'.state.shape hnodup' hmem' (hpath' hmem')⟩

end Run

/-! ### A node is loaded after its eviction -/

def loadKey : List Nat := [20, 21, 22, 23, 24, 25, 26, 27, 28, 29]

def loadStart : HiSession :=
  .init (Allocator.init 1 12 false) ⟨1, [0, 1, 2, 3, 4, 5, 6, 7, 8, 9, 10, 11]⟩

def loadOps : List HiOp :=
  [.allocSlots 10, .insert loadKey none false [1, 2, 3, 4, 5, 6, 7, 8, 9, 10] false fun _ _ => 0,
    .writingCheck 1, .evict 10 fun _ _ => 0]

def loadSession : HiSession := loadOps.foldl (HiSession.next backupParams) loadStart

theorem loadSession_run : HiRun backupParams loadStart loadOps loadSession := by
  have h0 : HiRun backupParams loadStart [] loadStart := .nil
  have h1 := h0.next (.allocSlots 10) trivial (by decide)
  have h2 := h1.next (.insert loadKey none false [1, 2, 3, 4, 5, 6, 7, 8, 9, 10] false fun _ _ => 0)
    (by rintro v ⟨⟩; decide) (by decide)
  have h3 := h2.next (.writingCheck 1) trivial (by decide)
  exact h3.next (.evict 10 fun _ _ => 0) trivial (by decide)

theorem attached_child {c : NodeId} (ck : ChildKey) (h : t.find t.rootNode ck = some c) :
    t.Attached c := .child .root h

/-- The cache after a `load_back` that succeeds. -/
def HiSession.afterLoad (hp : HiParams) (s : HiSession) (n : NodeId) : HiCache :=
  match s.cache.loadBack hp n none none fun _ _ => 0 with
  | .ok (_, c) => c
  | .error _ => s.cache

theorem run_loadSources_evicted :
    SourcesValid (loadSession.afterLoad backupParams 1) 1 [0, 1, 2, 3, 4, 5, 6, 7, 8, 9] := by
  have hload : ∃ v, loadSession.cache.loadBack backupParams 1 none none (fun _ _ => 0) =
      .ok (some v, loadSession.afterLoad backupParams 1) := ⟨[11, 12, 1, 2, 3, 4, 5, 6, 7, 8], rfl⟩
  obtain ⟨v, hv⟩ := hload
  obtain ⟨o, hqueue, _, _, hmem, hvalid⟩ := run_loadSources (by decide)
    rfl rfl (by decide) loadSession_run
    ⟨attached_child (.plain (.token 20)) (by decide), by decide⟩ hv
  have ho : (loadSession.afterLoad backupParams 1).loadQueue.map LoadOp.hostIndices =
      [[0, 1, 2, 3, 4, 5, 6, 7, 8, 9]] := by decide
  have hnone : loadSession.cache.loadQueue = [] := rfl
  rw [hqueue] at ho
  have hslots := singleton_inj.mp ho
  rw [← hslots]
  exact hvalid [] _ .nil hmem

theorem run_hostSlots_load : (loadSession.cache.hostPool.freeSlots : Multiset Nat) +
    ∑ n ∈ loadSession.cache.tree.attached, (hostValue loadSession.cache.tree n : Multiset Nat) =
      ([0, 1, 2, 3, 4, 5, 6, 7, 8, 9, 10, 11] : List Nat) :=
  run_hostSlots (by decide) rfl rfl loadSession_run

def loadSplitOps : List HiOp :=
  [.loadBack 1 none none fun _ _ => 0, .matchPrefix [20, 21, 22, 23] none false fun _ _ => 0]

/-- The node is loaded and split. -/
theorem run_backupKept_load :
    let s := loadSplitOps.foldl (HiSession.next backupParams) loadSession
    s.cache.tree.par 1 = some 2 ∧ SourcesValid s.cache 1 [0, 1, 2, 3, 4, 5, 6, 7, 8, 9] := by
  intro s
  have hatt := attached_child (t := loadSession.cache.tree) (.plain (.token 20)) (c := 1) (by decide)
  have h0 : HiRun backupParams loadSession [] loadSession := .nil
  have h1 := h0.next (.loadBack 1 none none fun _ _ => 0) ⟨hatt, by decide⟩ (by decide)
  have h2 := h1.next (.matchPrefix [20, 21, 22, 23] none false fun _ _ => 0) trivial (by decide)
  have hdown : Down loadSession.cache.tree.par 0 [1] 1 := .cons rfl (.nil _)
  have htop : s.cache.tree.Attached 2 := attached_child (.plain (.token 20)) (by decide)
  have hrest : s.cache.tree.find 2 (.plain (.token 24)) = some 1 := by decide
  exact ⟨by decide, (run_backupKept (by decide) rfl rfl (by decide) loadSession_run hatt (by decide)
    hdown h2 (.child htop hrest)).2⟩

/-! ### Write-back -/

def writeBackParams : HiParams := ⟨⟨1, Nat.one_pos, false⟩, .writeBack, .kernel⟩

/-- The first node is written back and evicted, and a second one takes all device slots. -/
def writeBackOps : List HiOp :=
  [.allocSlots 10, .insert loadKey none false [1, 2, 3, 4, 5, 6, 7, 8, 9, 10] false fun _ _ => 0,
    .evict 10 fun _ _ => 0, .allocSlots 12,
    .insert [40, 41, 42, 43, 44, 45, 46, 47, 48, 49, 50, 51] none false
      [11, 12, 1, 2, 3, 4, 5, 6, 7, 8, 9, 10] false fun _ _ => 0]

def writeBackSession : HiSession := writeBackOps.foldl (HiSession.next writeBackParams) loadStart

theorem writeBackSession_run : HiRun writeBackParams loadStart writeBackOps writeBackSession := by
  have h0 : HiRun writeBackParams loadStart [] loadStart := .nil
  have h1 := h0.next (.allocSlots 10) trivial (by decide)
  have h2 := h1.next (.insert loadKey none false [1, 2, 3, 4, 5, 6, 7, 8, 9, 10] false fun _ _ => 0)
    (by rintro v ⟨⟩; decide) (by decide)
  have h3 := h2.next (.evict 10 fun _ _ => 0) trivial (by decide)
  have h4 := h3.next (.allocSlots 12) trivial (by decide)
  exact h4.next (.insert [40, 41, 42, 43, 44, 45, 46, 47, 48, 49, 50, 51] none false
    [11, 12, 1, 2, 3, 4, 5, 6, 7, 8, 9, 10] false fun _ _ => 0) (by rintro v ⟨⟩; decide) (by decide)

theorem attached_mem {B : List NodeId} (hroot : t.rootNode ∈ B)
    (hB : ∀ n ∈ B, ∀ c ∈ (t.nodes n).childList, c ∈ B) (h : t.Attached n) : n ∈ B := by
  induction h with
  | root => exact hroot
  | @child n c ck _ hc ih =>
    exact hB n ih c (mem_map.mpr ⟨⟨ck, c⟩, AList.mem_lookup_iff.mp hc, rfl⟩)

/-- With write-back `load_back` queues a load of slots that by then belong to another node; the
node to be loaded has left the tree. -/
theorem writeBack_loads_dropped_node :
    HiRun writeBackParams loadStart writeBackOps writeBackSession ∧
    writeBackSession.Valid writeBackParams (.loadBack 1 none none fun _ _ => 0) ∧
    ∃ v c o, writeBackSession.cache.loadBack writeBackParams 1 none none (fun _ _ => 0) =
        .ok (some v, c) ∧
      c.loadQueue = writeBackSession.cache.loadQueue ++ [o] ∧ o.nodeId = 1 ∧
      1 ∈ c.ongoingLoadBack ∧ ¬ c.tree.Attached 1 ∧ c.tree.Attached 2 ∧
      (∀ x ∈ o.hostIndices, x ∈ hostValue c.tree 2) ∧
      ¬ SourcesValid c 1 o.hostIndices := by
  have hgone : ¬ (writeBackSession.afterLoad writeBackParams 1).tree.Attached 1 := fun h =>
    absurd (attached_mem (B := [0, 2]) (by decide) (by decide) h) (by decide)
  refine ⟨writeBackSession_run, ⟨attached_child (.plain (.token 20)) (by decide), by decide⟩,
    [11, 12, 1, 2, 3, 4, 5, 6, 7, 8], writeBackSession.afterLoad writeBackParams 1,
    ⟨[0, 1, 2, 3, 4, 5, 6, 7, 8, 9], [11, 12, 1, 2, 3, 4, 5, 6, 7, 8], 1, 0⟩, rfl, rfl, rfl,
    by decide, hgone, attached_child (.plain (.token 40)) (by decide), by decide, ?_⟩
  rintro ⟨a, ns, hdown, hatt, hslots, _⟩
  have hne : ns ≠ [] := by
    rintro rfl
    cases hslots
  exact hgone (hatt 1 (hdown.last_mem hne))

end Fluxfer.Hi
