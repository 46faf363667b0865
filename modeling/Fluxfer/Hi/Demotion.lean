import Fluxfer.Hi.Runs

/-!
# Pending demotions

In hybrid write-through mode a node that is to leave the device while it is locked waits in a set,
and `_drain_hybrid_pending_demotions` visits the nodes of this set in no particular order. A node
whose children are on the device when it is visited is not tried again.
-/

namespace Fluxfer.Hi

open Radix ParentTree Memory HiCache HiSession List Nat

/-! ## What visits do -/

/-- The nodes that leave the device when the nodes in `P` are demoted from the leaves upwards:
unlocked nodes on both tiers, after their children. -/
inductive Falls (t : RadixTree) (A : Finset NodeId) (P : NodeId → Prop) : NodeId → Prop
  | demote {n : NodeId} (hn : P n) (hA : n ∈ A) (hm : Movable t n)
      (hlock : (t.nodes n).lockRef = 0)
      (hc : ∀ c ∈ A, t.par c = some n → t.onDevice c → Falls t A P c) : Falls t A P n

namespace Falls

variable {t t' : RadixTree} {A : Finset NodeId} {P Q : NodeId → Prop} {n : NodeId}

theorem pending (h : Falls t A P n) : P n := by
  cases h with
  | demote hn => exact hn

theorem leaf (h : Falls t A P n) (hc : ∀ c ∈ A, t.par c = some n → ¬ t.onDevice c) :
    DeviceLeaf t A n ∧ t.backedUp n := by
  cases h with
  | demote _ hA hm hlock => exact ⟨⟨hA, hm.ne_root, hm.device, hlock, hc⟩, hm.backed⟩

theorem of_sameHost (hs : SameHost t A t' A)
    (hlock : ∀ n, (t'.nodes n).lockRef = (t.nodes n).lockRef)
    (hgone : ∀ n ∈ A, t.onDevice n → ¬ t'.onDevice n → Falls t A P n) (hQ : ∀ n, Q n → P n)
    (h : Falls t' A Q n) : Falls t A P n := by
  induction h with
  | @demote n hn hA hm hl _ ih =>
    have hd : t.onDevice n := by
      by_contra hoff
      exact (hs.off_mem n hA hoff).2 hm.device
    have hb : t.backedUp n := (backedUp_congr (hs.host_eq n)).mp hm.backed
    refine .demote (hQ n hn) hA ⟨fun e => hm.ne_root (e.trans hs.root_eq.symm), hd, hb⟩
      ((hlock n).symm.trans hl) fun c hc hcn hcd => ?_
    by_cases hcd' : t'.onDevice c
    · exact ih c hc ((hs.par_eq c).trans hcn) hcd'
    · exact hgone c hc hcd hcd'

theorem mono (hQ : ∀ n, Q n → P n) (h : Falls t A Q n) : Falls t A P n :=
  h.of_sameHost (.refl t A) (fun _ => rfl) (fun _ _ hd hoff => absurd hd hoff) hQ

end Falls

/-- What the visits of the nodes `ns` do. -/
structure Demotes (s : HiState) (ns : List NodeId) (c : HiCache) : Prop where
  host : SameHost s.tree s.nodes c.tree s.nodes
  lock_eq : ∀ n, (c.tree.nodes n).lockRef = (s.tree.nodes n).lockRef
  pending : ∀ n, n ∈ c.hybridPendingDeviceDemotions ↔
    (n ∈ ns ∧ Movable s.tree n ∧ 0 < (s.tree.nodes n).lockRef) ∨
      (¬ (n ∈ ns ∧ Movable s.tree n) ∧ n ∈ s.cache.hybridPendingDeviceDemotions)
  stays : ∀ n ∈ s.nodes, s.tree.onDevice n → n ∉ ns → c.tree.onDevice n
  falls : ∀ n ∈ s.nodes, s.tree.onDevice n → ¬ c.tree.onDevice n →
    Falls s.tree s.nodes (· ∈ ns) n
  leaf : ∀ n ∈ ns, DeviceLeaf s.tree s.nodes n → s.tree.backedUp n → ¬ c.tree.onDevice n
  /-- a node that is visited before one of its children stays -/
  above : ∀ n ∈ s.nodes, s.tree.onDevice n → ∀ x ∈ s.nodes, s.tree.par x = some n →
    s.tree.onDevice x → ns.idxOf n < ns.idxOf x → c.tree.onDevice n

variable {hp : HiParams} {s : HiState} {c : HiCache} {n : NodeId}

theorem HiInv.mem_of_movable (h : HiInv hp s) (hm : Movable s.tree n) : n ∈ s.nodes := by
  by_contra hno
  exact h.stale n hno hm.device hm.backed

namespace Tried

variable {m : NodeId}

variable (h : Tried s n c)
include h

theorem host : SameHost s.tree s.nodes c.tree s.nodes := by
  by_cases hl : DeviceLeaf s.tree s.nodes n ∧ s.tree.backedUp n
  · exact (h.demoted hl.1 hl.2).toSameHost
  · rw [h.kept hl]
    exact .refl _ _

theorem lock_eq (m : NodeId) : (c.tree.nodes m).lockRef = (s.tree.nodes m).lockRef := by
  by_cases hl : DeviceLeaf s.tree s.nodes n ∧ s.tree.backedUp n
  · exact (h.demoted hl.1 hl.2).lock_eq m
  · rw [h.kept hl]

theorem onDevice_other (hm : m ∈ s.nodes) (hne : m ≠ n) (hd : s.tree.onDevice m) :
    c.tree.onDevice m := by
  by_cases hl : DeviceLeaf s.tree s.nodes n ∧ s.tree.backedUp n
  · exact (((h.demoted hl.1 hl.2).device_iff m).mpr ⟨⟨hm, hd⟩, hne⟩).2
  · rwa [h.kept hl]

theorem gone (hm : m ∈ s.nodes) (hd : s.tree.onDevice m)
    (hoff : ¬ c.tree.onDevice m) : m = n ∧ DeviceLeaf s.tree s.nodes n ∧ s.tree.backedUp n := by
  have hmn : m = n := by
    by_contra hne
    exact hoff (h.onDevice_other hm hne hd)
  refine ⟨hmn, ?_⟩
  by_contra hl
  rw [h.kept hl] at hoff
  exact hoff hd

theorem movable_iff (hi : HiInv hp s) (hi' : HiInv hp { s with cache := c })
    (hne : m ≠ n) : Movable c.tree m ↔ Movable s.tree m := by
  have hb : c.tree.backedUp m ↔ s.tree.backedUp m := backedUp_congr (h.host.host_eq _)
  constructor
  · intro hm
    have hmem : m ∈ s.nodes := hi'.mem_of_movable hm
    refine ⟨fun e => hm.ne_root (e.trans h.host.root_eq.symm), ?_, hb.mp hm.backed⟩
    by_contra hoff
    exact (h.host.off_mem m hmem hoff).2 hm.device
  · intro hm
    exact ⟨fun e => hm.ne_root (e.trans h.host.root_eq),
      h.onDevice_other (hi.mem_of_movable hm) hne hm.device, hb.mpr hm.backed⟩

theorem demotes_cons (hi : HiInv hp s) (hi' : HiInv hp { s with cache := c })
    {ns : List NodeId} {c' : HiCache} (hn : n ∉ ns) (g : Demotes { s with cache := c } ns c') :
    Demotes s (n :: ns) c' := by
  have hgone : ∀ m ∈ s.nodes, s.tree.onDevice m → ¬ c.tree.onDevice m →
      Falls s.tree s.nodes (· ∈ n :: ns) m := by
    intro m hm hd hoff
    obtain ⟨rfl, hl, hb⟩ := h.gone hm hd hoff
    exact .demote mem_cons_self hm ⟨hl.ne_root, hd, hb⟩ hl.unlocked
      fun x hx hxm hxd => absurd hxd (hl.childless x hx hxm)
  refine ⟨h.host.trans g.host, fun m => (g.lock_eq m).trans (h.lock_eq m), fun m => ?_,
    fun m hm hd hno => ?_, fun m hm hd hoff => ?_, fun m hm hl hb => ?_,
    fun m hm hd x hx hxm hxd hlt => ?_⟩
  · rw [g.pending, h.lock_eq]
    by_cases hmn : m = n
    · subst hmn
      by_cases hmov : Movable s.tree m
      · simp only [hn, false_and, false_or, not_false_eq_true, true_and, h.pending_self hmov,
          mem_cons_self, hmov, not_true_eq_false, or_false]
      · simp only [hn, false_and, not_false_eq_true, true_and,
          h.pending_other m fun hm => hmov hm.2, hmov, and_false]
    · have hmem : m ∈ n :: ns ↔ m ∈ ns := by simp [hmn]
      have hmov : Movable c.tree m ↔ Movable s.tree m := h.movable_iff hi hi' hmn
      rw [hmem, h.pending_other m fun hm => hmn hm.1, hmov]
  · have hno' := not_or.mp (mt mem_cons.mpr hno)
    exact g.stays m hm (h.onDevice_other hm hno'.1 hd) hno'.2
  · by_cases hd' : c.tree.onDevice m
    · exact (g.falls m hm hd' hoff).of_sameHost h.host h.lock_eq hgone
        fun x hx => mem_cons_of_mem n hx
    · exact hgone m hm hd hd'
  · rcases mem_cons.mp hm with rfl | hm
    · have hev := h.demoted hl hb
      have hoff : ¬ c.tree.onDevice m := fun hd => ((hev.device_iff m).mp ⟨hl.mem, hd⟩).2 rfl
      exact (g.host.off_mem m hl.mem hoff).2
    · have hne : m ≠ n := fun e => hn (e ▸ hm)
      refine g.leaf m hm ⟨hl.mem, fun e => hl.ne_root (e.trans h.host.root_eq),
        h.onDevice_other hl.mem hne hl.device, (h.lock_eq m).trans hl.unlocked, ?_⟩ ?_
      · intro x hx hxm
        exact (h.host.off_mem x hx (hl.childless x hx ((h.host.par_eq x).symm.trans hxm))).2
      · show (c.tree.nodes m).hostValue ≠ none
        rw [h.host.host_eq]
        exact hb
  · by_cases hmn : m = n
    · subst hmn
      have hkept : c.tree = s.tree := h.kept fun hl => hl.1.childless x hx hxm hxd
      have hd' : c.tree.onDevice m := hkept ▸ hd
      exact g.stays m hm hd' hn
    · have hxn : x ≠ n := by
        rintro rfl
        rw [idxOf_cons_self] at hlt
        exact not_lt_zero _ hlt
      rw [idxOf_cons_ne _ (Ne.symm hmn), idxOf_cons_ne _ (Ne.symm hxn)] at hlt
      exact g.above m hm (h.onDevice_other hm hmn hd) x hx ((h.host.par_eq x).trans hxm)
        (h.onDevice_other hx hxn hxd) (lt_of_succ_lt_succ hlt)

end Tried

theorem demoteAll_demotes (hmode : hp.isHybridWriteThrough = true) :
    ∀ (ns : List NodeId) (s : HiState), HiInv hp s → ns.Nodup →
      ∃ c, demoteAll hp s.cache ns = .ok c ∧ HiSteps hp s { s with cache := c } ∧
        Demotes s ns c := by
  intro ns
  induction ns with
  | nil =>
    intro s _ _
    refine ⟨s.cache, rfl, .refl, .refl _ _, fun _ => rfl, fun n => ?_, fun _ _ hd _ => hd,
      fun _ _ hd hoff => absurd hd hoff, nofun,
      fun _ _ hd _ _ _ _ _ => hd⟩
    simp
  | cons n ns ih =>
    intro s h hnodup
    obtain ⟨hn, hnodup'⟩ := nodup_cons.mp hnodup
    obtain ⟨b, c, hrun, hsteps, _, htried⟩ := tryHybridDemoteDeviceNode_spec h n
    obtain ⟨c', hrun', hsteps', hdem⟩ := ih { s with cache := c } (hsteps.inv h) hnodup'
    refine ⟨c', ?_, hsteps.trans hsteps', (htried hmode).demotes_cons h (hsteps.inv h) hn hdem⟩
    unfold demoteAll
    rw [hrun]
    exact hrun'

theorem shuffle_perm {α : Type} (pick : Nat → Nat) :
    ∀ (k : Nat) (l : List α), l.length = k → (shuffle pick k l).Perm l := by
  intro k
  induction k with
  | zero =>
    intro l hl
    rw [length_eq_zero_iff.mp hl]
    exact .nil
  | succ k ih =>
    intro l hl
    have hlt : pick k % l.length < l.length := mod_lt _ (by omega)
    unfold shuffle
    rw [getElem?_eq_getElem hlt]
    refine ((ih _ ?_).cons _).trans (getElem_cons_eraseIdx_perm hlt)
    rw [length_eraseIdx_of_lt hlt]
    omega

theorem exists_shuffle_cons {l : List NodeId} (hn : n ∈ l) :
    ∃ pick rest, shuffle pick l.length l = n :: rest := by
  have hlt := idxOf_lt_length_of_mem hn
  obtain ⟨k, hk⟩ := exists_eq_succ_of_ne_zero (ne_of_gt (zero_lt_of_lt hlt))
  refine ⟨fun _ => l.idxOf n, shuffle (fun _ => l.idxOf n) k (l.eraseIdx (l.idxOf n)), ?_⟩
  rw [hk, shuffle, mod_eq_of_lt hlt, getElem?_eq_getElem hlt, getElem_idxOf]

theorem drain_demotes (hmode : hp.isHybridWriteThrough = true) (h : HiInv hp s) (pick : Nat → Nat) :
    ∃ c, s.cache.drainHybridPendingDemotions hp pick = .ok c ∧ HiSteps hp s { s with cache := c } ∧
      Demotes s (shuffle pick s.cache.hybridPendingDeviceDemotions.elems.length
        s.cache.hybridPendingDeviceDemotions.elems) c := by
  have hperm := shuffle_perm pick _ s.cache.hybridPendingDeviceDemotions.elems rfl
  obtain ⟨c, hrun, hsteps, hdem⟩ := demoteAll_demotes hmode _ s h
    (hperm.nodup_iff.mpr s.cache.hybridPendingDeviceDemotions.nodup)
  refine ⟨c, ?_, hsteps, hdem⟩
  unfold drainHybridPendingDemotions
  rw [if_neg (not_not.mpr hmode)]
  exact hrun

/-! ## Drains in every order -/

/-- The outcome of demoting the unlocked nodes of `P` from the leaves upwards. -/
structure DrainsUpwards (t : RadixTree) (P : ListSet NodeId) (c : HiCache) : Prop where
  device : ∀ n, n ∈ c.tree.attached ∧ c.tree.onDevice n ↔
    (n ∈ t.attached ∧ t.onDevice n) ∧ ¬ Falls t t.attached (· ∈ P) n
  pending : ∀ n, n ∈ c.hybridPendingDeviceDemotions ↔
    n ∈ P ∧ ¬ (Movable t n ∧ (t.nodes n).lockRef = 0)

namespace Demotes

variable {ns : List NodeId}

theorem pending_iff (h : Demotes s ns c) (hi : HiInv hp s)
    (hmem : ∀ m, m ∈ ns ↔ m ∈ s.cache.hybridPendingDeviceDemotions) (n : NodeId) :
    n ∈ c.hybridPendingDeviceDemotions ↔ n ∈ s.cache.hybridPendingDeviceDemotions ∧
      ¬ (Movable s.tree n ∧ (s.tree.nodes n).lockRef = 0) := by
  rw [h.pending, hmem]
  by_cases hm : Movable s.tree n
  · have hnonneg := hi.tree.core.lock_nonneg n (hi.mem_of_movable hm)
    have hlock : ¬ (s.tree.nodes n).lockRef = 0 ↔ 0 < (s.tree.nodes n).lockRef := by omega
    tauto
  · tauto

theorem upwards (h : Demotes s ns c) (hi : HiInv hp s) (hi' : HiInv hp { s with cache := c })
    (hmem : ∀ m, m ∈ ns ↔ m ∈ s.cache.hybridPendingDeviceDemotions)
    (hflat : ∀ n, Falls s.tree s.nodes (· ∈ s.cache.hybridPendingDeviceDemotions) n →
      ∀ x ∈ s.nodes, s.tree.par x = some n → ¬ s.tree.onDevice x) :
    DrainsUpwards s.tree s.cache.hybridPendingDeviceDemotions c := by
  have heq : s.tree.attached = s.nodes := hi.shape.attached_eq
  have heq' : c.tree.attached = s.nodes := hi'.shape.attached_eq
  refine ⟨fun n => ?_, h.pending_iff hi hmem⟩
  rw [heq, heq']
  constructor
  · rintro ⟨hn, hd⟩
    have hd0 : s.tree.onDevice n := by
      by_contra hoff
      exact (h.host.off_mem n hn hoff).2 hd
    refine ⟨⟨hn, hd0⟩, fun hf => ?_⟩
    obtain ⟨hl, hb⟩ := hf.leaf (hflat n hf)
    exact h.leaf n ((hmem n).mpr hf.pending) hl hb hd
  · rintro ⟨⟨hn, hd⟩, hno⟩
    refine ⟨hn, ?_⟩
    by_contra hoff
    exact hno ((h.falls n hn hd hoff).mono fun m hm => (hmem m).mp hm)

end Demotes

theorem drain_keeps (hmode : hp.isHybridWriteThrough = true) (h : HiInv hp s)
    (hn : n ∈ s.cache.hybridPendingDeviceDemotions) (hA : n ∈ s.nodes) (hd : s.tree.onDevice n)
    {x : NodeId} (hx : x ∈ s.nodes) (hxn : s.tree.par x = some n) (hxd : s.tree.onDevice x) :
    ∃ pick c, s.cache.drainHybridPendingDemotions hp pick = .ok c ∧
      HiSteps hp s { s with cache := c } ∧ c.tree.onDevice n := by
  obtain ⟨pick, rest, hcons⟩ := exists_shuffle_cons hn
  obtain ⟨c, hrun, hsteps, hdem⟩ := drain_demotes hmode h pick
  have hne : n ≠ x := fun e => h.shape.rooted.not_anc_of_par hx hxn (e ▸ anc_refl _ _)
  refine ⟨pick, c, hrun, hsteps, hdem.above n hA hd x hx hxn hxd ?_⟩
  rw [hcons, idxOf_cons_self, idxOf_cons_ne _ hne]
  exact succ_pos _

section Run

variable {p : CacheParams} {t : RadixTree} {A : Finset NodeId} {T : List NodeId} {x q : NodeId}
variable {a : Allocator} {pool : HostPool} {ops : List HiOp} {s : HiSession}

theorem not_writeBack_of_hybrid (hmode : hp.isHybridWriteThrough = true) :
    hp.writePolicy ≠ .writeBack := by
  intro hpol
  rw [HiParams.isHybridWriteThrough, hpol] at hmode
  simp at hmode

/-- Whatever nodes are pending, a drain gives what demotions from the leaves upwards give, for
every order of its visits, exactly when no node that falls has a child on the device. -/
theorem run_drainUpwards (hmode : hp.isHybridWriteThrough = true) (ha : a.pageSize = hp.pageSize)
    (hh : pool.pageSize = hp.pageSize) (h : HiRun hp (.init a pool) ops s) (P : ListSet NodeId) :
    (∀ pick, ∃ c, drainHybridPendingDemotions hp
        { s.cache with hybridPendingDeviceDemotions := P } pick = .ok c ∧
        DrainsUpwards s.cache.tree P c) ↔
      ∀ n, Falls s.cache.tree s.cache.tree.attached (· ∈ P) n →
        ∀ x ∈ s.cache.tree.attached, s.cache.tree.par x = some n → ¬ s.cache.tree.onDevice x := by
  obtain ⟨A, hi, _⟩ := h.inv (not_writeBack_of_hybrid hmode) ha hh
  set r : HiState := { s.toState A with
    cache := { s.cache with hybridPendingDeviceDemotions := P } }
  have hstep : HiStep hp (s.toState A) r := .book (.refl _) rfl rfl rfl rfl rfl rfl rfl
  have hi' : HiInv hp r := hstep.inv hi.state
  have heq : s.cache.tree.attached = A := hi.state.shape.attached_eq
  constructor
  · intro hall n hf x hx hxn hxd
    have hf' := hf
    rw [heq] at hf' hx
    cases hf' with
    | demote hn hA hm =>
      obtain ⟨pick, c, hrun, hsteps, hd⟩ :=
        drain_keeps hmode hi' hn hA hm.device hx hxn hxd
      obtain ⟨c', hrun', hup⟩ := hall pick
      obtain rfl := Except.ok.inj (hrun.symm.trans hrun')
      have heq' : c.tree.attached = A := (hsteps.inv hi').shape.attached_eq
      exact ((hup.device n).mp ⟨heq' ▸ hA, hd⟩).2 hf
  · intro hflat pick
    obtain ⟨c, hrun, hsteps, hdem⟩ := drain_demotes hmode hi' pick
    have hmem : ∀ m, m ∈ shuffle pick P.elems.length P.elems ↔ m ∈ P :=
      fun m => (shuffle_perm pick _ P.elems rfl).mem_iff
    rw [heq] at hflat
    have hup : DrainsUpwards r.tree P c := hdem.upwards hi' (hsteps.inv hi') hmem hflat
    exact ⟨c, hrun, hup⟩

/-! Two nodes, one below the other, are written to the host and become pending under the lock of a
request. -/

def demoteParams : HiParams := ⟨⟨1, Nat.one_pos, false⟩, .writeThrough, .hybrid⟩

def demoteOps : List HiOp :=
  [.insert [5] none false [2] false fun _ _ => 0, .insert [5, 6] none false [2, 3] false fun _ _ => 0,
    .incLockRef 2, .writingCheck 2, .decLockRef 2]

def demoteSession : HiSession := demoteOps.foldl (next demoteParams) backupStart

theorem demoteSession_run : HiRun demoteParams backupStart demoteOps demoteSession := by
  have h0 : HiRun demoteParams backupStart [] backupStart := .nil
  have h₁ := h0.next (.insert [5] none false [2] false fun _ _ => 0)
    (by rintro v ⟨⟩; decide) (by decide)
  have h₂ := h₁.next (.insert [5, 6] none false [2, 3] false fun _ _ => 0)
    (by rintro v ⟨⟩; decide) (by decide)
  set s2 := next demoteParams (next demoteParams backupStart _) _ with hs2
  have h1 : s2.cache.tree.find 0 (.plain (.token 5)) = some 1 := by decide
  have h2 : s2.cache.tree.find 1 (.plain (.token 6)) = some 2 := by decide
  have h3 := h₂.next (.incLockRef 2) ⟨.child (.child .root h1) h2, by decide⟩ (by decide)
  have h4 := h3.next (.writingCheck 2) trivial (by decide)
  have h5 := h4.next (.decLockRef 2) (by show 2 ∈ locks _; decide) (by decide)
  rw [hs2] at h5
  exact h5

theorem run_drainUpwards_leaf : ∃ c, drainHybridPendingDemotions demoteParams
    { demoteSession.cache with hybridPendingDeviceDemotions := ListSet.empty.insert 2 }
      (fun _ => 0) = .ok c ∧ DrainsUpwards demoteSession.cache.tree (ListSet.empty.insert 2) c := by
  refine (run_drainUpwards (by decide) rfl rfl demoteSession_run _).mpr (fun n hf x _ hx hd => ?_)
    fun _ => 0
  obtain rfl : n = 2 := by simpa using hf.pending
  match x, hx, hd with
  | 0, hx, _ => exact absurd hx (by decide)
  | 1, hx, _ => exact absurd hx (by decide)
  | 2, hx, _ => exact absurd hx (by decide)
  | _ + 3, _, hd => exact hd rfl

/-- Node 1 leaves the device when its child is visited before it, and stays otherwise. -/
theorem drain_depends_on_order : HiRun demoteParams backupStart demoteOps demoteSession ∧
    (∀ n, n ∈ demoteSession.cache.hybridPendingDeviceDemotions ↔ n = 2 ∨ n = 1) ∧
    ((demoteSession.next demoteParams (.drainHybridPendingDemotions fun _ => 0)).cache.tree.nodes
      1).value = none ∧
    ((demoteSession.next demoteParams (.drainHybridPendingDemotions fun _ => 1)).cache.tree.nodes
      1).value = some [2] ∧
    ((demoteSession.next demoteParams (.drainHybridPendingDemotions fun _ => 1)).cache.tree.nodes
      2).value = none := by
  refine ⟨demoteSession_run, fun n => ?_, by decide, by decide, by decide⟩
  have helems : demoteSession.cache.hybridPendingDeviceDemotions.elems = [2, 1] := by decide
  show n ∈ demoteSession.cache.hybridPendingDeviceDemotions.elems ↔ _
  rw [helems]
  simp

/-! ## The tail of loaded nodes -/

theorem orderedNodes_nodup (t : RadixTree) (nodes : List NodeId) :
    (orderedNodes t nodes).Nodup := by
  refine foldlRecOn nodes _ nodup_nil fun seen hseen n _ => ?_
  split_ifs with hn
  · exact nodup_append.mpr ⟨hseen, nodup_singleton n, fun a ha b hb hab =>
      hn.1 (mem_singleton.mp hb ▸ hab ▸ ha)⟩
  · exact hseen

theorem tailNodes_sublist (ps keepPages : Nat) (t : RadixTree) : ∀ (nodes : List NodeId) (k : Nat),
    (tailNodes ps keepPages t k nodes).Sublist nodes := by
  intro nodes
  induction nodes with
  | nil => exact fun _ => .slnil
  | cons n ns ih =>
    intro k
    unfold tailNodes
    split_ifs
    · exact (ih _).cons_cons n
    · exact (ih _).cons n

/-- The nodes that `_demote_hybrid_load_back_tail_for_req` visits. -/
def HiCache.loadBackTail (hp : HiParams) (c : HiCache) (rid : Nat) : List NodeId :=
  c.selectHybridLoadBackTailNodes hp
    (orderedNodes c.tree ((c.hybridLoadBackNodesByReqid.lookup rid).getD []))

/-- Nodes on both tiers that nobody holds. -/
def Loose (t : RadixTree) (T : List NodeId) : Prop :=
  ∀ n ∈ T, Movable t n ∧ (t.nodes n).lockRef = 0

/-- No child of these nodes is on the device. -/
def Bare (t : RadixTree) (T : List NodeId) : Prop :=
  ∀ n ∈ T, ∀ x, t.Attached x → t.par x = some n → ¬ t.onDevice x

theorem Loose.deviceLeaf (hl : Loose t T) (hb : Bare t T) (h : ShapeOn p t A) (hn : n ∈ T)
    (hA : n ∈ A) : DeviceLeaf t A n :=
  ⟨hA, (hl n hn).1.ne_root, (hl n hn).1.device, (hl n hn).2,
    fun x hx => hb n hn x (h.attached_iff.mpr hx)⟩

theorem idxOf_lt_of_par (hdown : T.Pairwise fun a b => t.par a ≠ some b) (hn : n ∈ T) (hne : n ≠ x)
    (hxn : t.par x = some n) : T.idxOf n < T.idxOf x := by
  have hlt := idxOf_lt_length_of_mem hn
  by_cases hx : x ∈ T
  · have hxlt := idxOf_lt_length_of_mem hx
    rcases lt_trichotomy (T.idxOf n) (T.idxOf x) with h | h | h
    · exact h
    · exact absurd ((getElem_idxOf hlt).symm.trans
        ((getElem_congr_idx h).trans (getElem_idxOf hxlt))) hne
    · have := pairwise_iff_getElem.mp hdown _ _ hxlt hlt h
      rw [getElem_idxOf, getElem_idxOf] at this
      exact absurd hxn this
  · rw [idxOf_eq_length hx]
    exact hlt

theorem drain_step {pick : Nat → Nat} (hrun : s.cache.drainHybridPendingDemotions hp pick = .ok c) :
    s.step hp (.drainHybridPendingDemotions pick) = .ok { s with cache := c } := by
  simp only [step, hrun, bind, Except.bind]

theorem drain_off_iff (hmode : hp.isHybridWriteThrough = true) (hi : HiSession.Inv hp s A)
    (hl : Loose s.cache.tree T) (hpend : ∀ n ∈ T, n ∈ s.cache.hybridPendingDeviceDemotions) :
    (∀ pick, ∃ s1, s.step hp (.drainHybridPendingDemotions pick) = .ok s1 ∧
      ∀ n ∈ T, ¬ s1.cache.tree.onDevice n) ↔ Bare s.cache.tree T := by
  have hshape : ShapeOn hp.toCacheParams s.cache.tree A := hi.state.shape
  have hA : ∀ n ∈ T, n ∈ A := fun n hn => hi.state.mem_of_movable (hl n hn).1
  constructor
  · intro hall n hn x hx hxn hxd
    obtain ⟨pick, c, hrun, _, hd⟩ := drain_keeps hmode hi.state (hpend n hn) (hA n hn)
      (hl n hn).1.device (hshape.attached_iff.mp hx) hxn hxd
    obtain ⟨s1, hrun', hoff⟩ := hall pick
    obtain rfl := Except.ok.inj ((drain_step hrun).symm.trans hrun')
    exact hoff n hn hd
  · intro hb pick
    obtain ⟨c, hrun, _, hdem⟩ := drain_demotes hmode hi.state pick
    refine ⟨{ s with cache := c }, drain_step hrun, fun n hn => ?_⟩
    exact hdem.leaf n ((shuffle_perm pick _ _ rfl).mem_iff.mpr (hpend n hn))
      (hl.deviceLeaf hb hshape hn (hA n hn)) (hl n hn).1.backed

/-- The tail of the nodes loaded for a request is off the device at the end of
`cache_finished_req` exactly when none of its nodes has a child on the device. The same holds of
pending nodes at a drain in every order, after their locks have gone. -/
theorem run_tailDemotion (hmode : hp.isHybridWriteThrough = true) (ha : a.pageSize = hp.pageSize)
    (hh : pool.pageSize = hp.pageSize) (h : HiRun hp (.init a pool) ops s) :
    (∀ rid, Loose s.cache.tree (s.cache.loadBackTail hp rid) →
      ((s.cache.loadBackTail hp rid).Pairwise fun n m => s.cache.tree.par n ≠ some m) →
      ∀ pick, ∃ s₁ s₂, s.step hp (.demoteHybridLoadBackTail rid) = .ok s₁ ∧
        s₁.step hp (.drainHybridPendingDemotions pick) = .ok s₂ ∧
        ((∀ n ∈ s.cache.loadBackTail hp rid, ¬ s₂.cache.tree.onDevice n) ↔
          Bare s.cache.tree (s.cache.loadBackTail hp rid))) ∧
    ∀ T, Loose s.cache.tree T → (∀ n ∈ T, n ∈ s.cache.hybridPendingDeviceDemotions) →
      ((∀ pick, ∃ s₁, s.step hp (.drainHybridPendingDemotions pick) = .ok s₁ ∧
        ∀ n ∈ T, ¬ s₁.cache.tree.onDevice n) ↔ Bare s.cache.tree T) := by
  obtain ⟨A, hi, _⟩ := h.inv (not_writeBack_of_hybrid hmode) ha hh
  have hshape : ShapeOn hp.toCacheParams s.cache.tree A := hi.state.shape
  constructor
  · intro rid hl hdown pick
    set T := s.cache.loadBackTail hp rid
    have hbook : HiStep hp (s.toState A) { s.toState A with
        cache := s.cache.forgetHybridLoadBackNodes rid } :=
      .book (.refl _) rfl rfl rfl rfl rfl rfl rfl
    have hi0 := hbook.inv hi.state
    obtain ⟨c, hrun, hsteps, hdem⟩ := demoteAll_demotes hmode T _ hi0
      ((orderedNodes_nodup _ _).sublist (tailNodes_sublist _ _ _ _ _))
    have hi1 := hsteps.inv hi0
    obtain ⟨c', hrun', _, hdem'⟩ := drain_demotes hmode hi1 pick
    have hA : ∀ n ∈ T, n ∈ A := fun n hn => hi.state.mem_of_movable (hl n hn).1
    refine ⟨{ s with cache := c }, { s with cache := c' }, ?_, ?_, fun hoff n hn x hx hxn hxd => ?_,
      fun hb n hn => ?_⟩
    · exact congrArg (· >>= _) hrun
    · exact drain_step hrun'
    · have hxA := hshape.attached_iff.mp hx
      have hne : n ≠ x := fun e => hshape.rooted.not_anc_of_par hxA hxn (e ▸ anc_refl _ _)
      have hd := hdem.above n (hA n hn) (hl n hn).1.device x hxA hxn hxd
        (idxOf_lt_of_par hdown hn hne hxn)
      refine hoff n hn (hdem'.stays n (hA n hn) hd fun hmem => ?_)
      have hpend := (hdem.pending n).mp ((shuffle_perm pick _ _ rfl).mem_iff.mp hmem)
      rcases hpend with hpend | hpend
      · exact absurd (hl n hn).2 (ne_of_gt hpend.2.2)
      · exact hpend.1 ⟨hn, (hl n hn).1⟩
    · exact (hdem'.host.off_mem n (hA n hn) (hdem.leaf n hn
        (hl.deviceLeaf hb hshape hn (hA n hn)) (hl n hn).1.backed)).2
  · exact fun T hl hpend => drain_off_iff hmode hi hl hpend

/-! Three nodes on a path are written to the host, demoted, and loaded for the request 7. -/

def tailStart : HiSession :=
  .init (Allocator.init 1 12 false) ⟨1, range 12⟩

def tailOps : List HiOp :=
  [.insert (range 8) none false (range 8) false fun _ _ => 0,
    .insert (range 9) none false (range 9) false fun _ _ => 0,
    .insert (range 10) none false (range 10) false fun _ _ => 0, .writingCheck 3,
    .drainHybridPendingDemotions fun _ => 0, .loadBack 3 none (some 7) fun _ _ => 0, .startLoading,
    .drainLoadBackAcks 1 fun _ _ => 0]

def tailSession : HiSession := tailOps.foldl (next demoteParams) tailStart

theorem tailSession_run : HiRun demoteParams tailStart tailOps tailSession := by
  have h0 : HiRun demoteParams tailStart [] tailStart := .nil
  have h1 := h0.next (.insert (range 8) none false (range 8) false fun _ _ => 0)
    (by rintro v ⟨⟩; decide) (by decide)
  have h2 := h1.next (.insert (range 9) none false (range 9) false fun _ _ => 0)
    (by rintro v ⟨⟩; decide) (by decide)
  have h3 := h2.next (.insert (range 10) none false (range 10) false fun _ _ => 0)
    (by rintro v ⟨⟩; decide) (by decide)
  have h4 := h3.next (.writingCheck 3) trivial (by decide)
  have h5 := h4.next (.drainHybridPendingDemotions fun _ => 0) trivial (by decide)
  set s5 := next demoteParams _ (.drainHybridPendingDemotions fun _ => 0) with hs5
  have f1 : s5.cache.tree.find 0 (.plain (.token 0)) = some 1 := by decide
  have f2 : s5.cache.tree.find 1 (.plain (.token 8)) = some 2 := by decide
  have f3 : s5.cache.tree.find 2 (.plain (.token 9)) = some 3 := by decide
  have h6 := h5.next (.loadBack 3 none (some 7) fun _ _ => 0)
    ⟨.child (.child (.child .root f1) f2) f3, by decide⟩ (by decide)
  have h7 := (h6.next .startLoading trivial (by decide)).next (.drainLoadBackAcks 1 fun _ _ => 0)
    trivial (by decide)
  rw [hs5] at h7
  exact h7

theorem run_tailDemotion_path : ∃ s₁ s₂,
    tailSession.step demoteParams (.demoteHybridLoadBackTail 7) = .ok s₁ ∧
    s₁.step demoteParams (.drainHybridPendingDemotions fun _ => 0) = .ok s₂ ∧
    ((∀ n ∈ tailSession.cache.loadBackTail demoteParams 7, ¬ s₂.cache.tree.onDevice n) ↔
      Bare tailSession.cache.tree (tailSession.cache.loadBackTail demoteParams 7)) := by
  have htail : tailSession.cache.loadBackTail demoteParams 7 = [2, 3] := by decide
  refine (run_tailDemotion (by decide) rfl rfl tailSession_run).1 7 ?_ ?_ fun _ => 0
  · rw [htail]
    intro n hn
    rcases mem_pair.mp hn with rfl | rfl
    · exact ⟨⟨by decide, by decide, by decide⟩, by decide⟩
    · exact ⟨⟨by decide, by decide, by decide⟩, by decide⟩
  · decide

/-- The tail is the nodes 2 and 3. The parent is visited first and stays on the device. -/
theorem tail_keeps_parent : HiRun demoteParams tailStart tailOps tailSession ∧
    tailSession.cache.loadBackTail demoteParams 7 = [2, 3] ∧
    (tailSession.cache.tree.nodes 2).lockRef = 0 ∧
    (((tailSession.next demoteParams (.demoteHybridLoadBackTail 7)).next demoteParams
      (.drainHybridPendingDemotions fun _ => 0)).cache.tree.nodes 2).value ≠ none ∧
    (((tailSession.next demoteParams (.demoteHybridLoadBackTail 7)).next demoteParams
      (.drainHybridPendingDemotions fun _ => 0)).cache.tree.nodes 3).value = none :=
  ⟨tailSession_run, by decide, by decide, by decide, by decide⟩

/-! ## Written nodes that were split -/

/-- The nodes from below `q` down to `x`: the pieces of a node that was added to `q`. -/
def Piece (t : RadixTree) (q x n : NodeId) : Prop := Anc t.par n x ∧ Anc t.par q n ∧ n ≠ q

theorem piece_iff (h : ShapeOn p t A) (hx : x ∈ A) (hq : t.par x = some q) :
    Piece t q x n ↔ n = x := by
  constructor
  · rintro ⟨hnx, hqn, hne⟩
    rcases (anc_iff_of_par hq).mp hnx with rfl | hnq
    · rfl
    · exact absurd (h.rooted.anc_antisymm (h.rooted.mem_of_par hx hq) hnq hqn) hne
  · rintro rfl
    exact ⟨anc_refl _ _, anc_step hq (anc_refl _ _),
      fun e => h.rooted.not_anc_of_par hx hq (e ▸ anc_refl _ _)⟩

/-- If all pieces are off the device, and of them only `x` has left it, there is no other. -/
theorem par_of_pieces_off {t' : RadixTree} (h : CoreOn p t A) (hx : x ∈ A) (hd : t.onDevice x)
    (hqx : Anc t.par q x) (hne : q ≠ x)
    (hstay : ∀ n ∈ A, t.onDevice n → Piece t q x n → n ≠ x → t'.onDevice n)
    (hall : ∀ n, Piece t q x n → ¬ t'.onDevice n) : t.par x = some q := by
  obtain ⟨m, hxm, hqm⟩ := (anc_iff.mp hqx).resolve_left hne
  by_contra hno
  have hm : Piece t q x m := ⟨anc_step hxm (anc_refl _ _), hqm, fun e => hno (e ▸ hxm)⟩
  refine hall m hm (hstay m (h.shape.rooted.mem_of_par hx hxm) (h.device_par x hx m hxm hd) hm ?_)
  exact fun e => h.shape.rooted.not_anc_of_par hx hxm (e ▸ anc_refl _ _)

theorem writingCheck_tried (hmode : hp.isHybridWriteThrough = true) {s : HiState} (h : HiInv hp s)
    (hacked : s.ackedWrites = []) {queue : List (List NodeId)}
    (hid : x ∈ s.cache.hybridWriteDemoteNodeIds) (hqueue : s.cache.ackWriteQueue = [x] :: queue) :
    ∃ c t, s.cache.writingCheck hp 1 = .ok c ∧ HiSteps hp s { s with cache := c } ∧
      IsRelock s.tree t (pathDelta s.tree.par s.tree.rootNode x (-1)) ∧ x ∈ s.nodes ∧
      s.tree.backedUp x ∧ Tried { s with cache := s.cache.withTree t } x c := by
  have hbook : HiStep hp s { s with
      cache := { s.cache with ackWriteQueue := queue }
      ackedWrites := [x] } := by
    refine .book (.refl _) rfl rfl rfl rfl ?_ rfl rfl
    rw [HiState.dueWrites, hacked, hqueue]
    rfl
  have h' := hbook.inv h
  have hmem : x ∈ s.cache.ongoingWriteThrough := h'.acked_mem (mem_singleton_self x)
  obtain ⟨c, t, hrun, hsteps, hl, ht⟩ := ackWrite_spec h' (mem_singleton_self x)
  obtain ⟨hself, hother, hdem, hkept⟩ := ht hid hmode
  refine ⟨c, t, ?_, .head hbook ?_, hl,
    h.held.mem x (HiInv.write_mem_locks hmem), h.writes_backed x hmem,
    ⟨hself, hother, hdem, hkept⟩⟩
  · rw [writingCheck, if_neg (ne_nil_of_mem hmem), hqueue]
    show ackWrites hp false { s.cache with ackWriteQueue := queue } [x] = _
    rw [ackWrites, hrun]
    rfl
  · rw [erase_cons_head] at hsteps
    rw [hacked]
    exact hsteps

/-- Let `x` be marked for demotion, with `q` above it, and no mark at the nodes between them. At
the visit of `x` after its locks have gone, by the acknowledgement of its write or by a drain, all
nodes below `q` down to `x` leave the device exactly when `x` is the only one and no child of it is
on the device. -/
theorem run_splitDemotion (hmode : hp.isHybridWriteThrough = true) (ha : a.pageSize = hp.pageSize)
    (hh : pool.pageSize = hp.pageSize) (h : HiRun hp (.init a pool) ops s) {q x : NodeId}
    (hqx : Anc s.cache.tree.par q x) (hne : q ≠ x)
    (hmark : ∀ n, Piece s.cache.tree q x n → n ≠ x → ¬ n ∈ s.cache.hybridPendingDeviceDemotions) :
    (∀ queue, x ∈ s.cache.hybridWriteDemoteNodeIds → s.cache.ackWriteQueue = [x] :: queue →
      (s.cache.tree.nodes x).lockRef = 1 →
      ∀ pick, ∃ s₁ s₂, s.step hp (.writingCheck 1) = .ok s₁ ∧
        s₁.step hp (.drainHybridPendingDemotions pick) = .ok s₂ ∧
        ((∀ n, Piece s.cache.tree q x n → ¬ s₂.cache.tree.onDevice n) ↔
          s.cache.tree.par x = some q ∧ Bare s.cache.tree [x])) ∧
    (x ∈ s.cache.hybridPendingDeviceDemotions → Loose s.cache.tree [x] →
      ((∀ pick, ∃ s₁, s.step hp (.drainHybridPendingDemotions pick) = .ok s₁ ∧
        ∀ n, Piece s.cache.tree q x n → ¬ s₁.cache.tree.onDevice n) ↔
          s.cache.tree.par x = some q ∧ Bare s.cache.tree [x])) := by
  obtain ⟨A, hi, _⟩ := h.inv (not_writeBack_of_hybrid hmode) ha hh
  have hcore : CoreOn hp.toCacheParams s.cache.tree A := hi.state.tree.core
  have hself : Piece s.cache.tree q x x := ⟨anc_refl _ _, hqx, fun e => hne e.symm⟩
  have hr : x ≠ s.cache.tree.rootNode := by
    rintro rfl
    exact hne ((anc_iff_of_none hcore.shape.rooted.root_par).mp hqx)
  constructor
  · intro queue hid hqueue hlock pick
    obtain ⟨c, t, hrun, hsteps, hre, hx, hback, ht⟩ :=
      writingCheck_tried hmode hi.state rfl hid hqueue
    obtain ⟨c', hrun', _, hdem⟩ := drain_demotes hmode (hsteps.inv hi.state) pick
    have hd : s.cache.tree.onDevice x := by
      by_contra hoff
      have hzero := (hcore.off_device x hx hoff).2
      omega
    have hdt : t.onDevice x := (hre.value_eq x).trans_ne hd
    have hbt : t.backedUp x := (hre.host_eq x).trans_ne hback
    have hzero : (t.nodes x).lockRef = 0 := by
      rw [hre.lock_eq, pathDelta, if_pos ⟨hr, anc_refl _ _⟩]
      exact add_neg_eq_zero.mpr hlock
    have hrt : x ≠ t.rootNode := fun e => hr (e.trans hre.root_eq)
    refine ⟨{ s with cache := c }, { s with cache := c' }, ?_,
      drain_step hrun', fun hall => ⟨?_, ?_⟩, ?_⟩
    · simp only [step, bind, Except.bind]
      rw [show s.cache.writingCheck hp 1 = .ok c from hrun]
    · refine par_of_pieces_off hcore hx hd hqx hne (fun n hn hnd hpiece hnx => ?_) hall
      refine hdem.stays n hn (ht.onDevice_other hn hnx ((hre.value_eq n).trans_ne hnd)) fun hmem => ?_
      exact hmark n hpiece hnx ((ht.pending_other n fun e => hnx e.1).mp
        ((shuffle_perm pick _ _ rfl).mem_iff.mp hmem))
    · -- with a child on the device the node stays, and it is not pending either
      intro n hn y hy hyx hyd
      obtain rfl := mem_singleton.mp hn
      have hkept : c.tree = t := ht.kept fun hleaf => hleaf.1.childless y
        (hcore.shape.attached_iff.mp hy) ((hre.par_eq y).trans hyx) ((hre.value_eq y).trans_ne hyd)
      have hdc : c.tree.onDevice n := hkept ▸ hdt
      refine hall n hself (hdem.stays n hx hdc fun hmem => ?_)
      have hpos := (ht.pending_self ⟨hrt, hdt, hbt⟩).mp ((shuffle_perm pick _ _ rfl).mem_iff.mp hmem)
      exact absurd hzero hpos.ne'
    · rintro ⟨hq, hbare⟩ n hn
      obtain rfl := (piece_iff hcore.shape hx hq).mp hn
      have hleaf : DeviceLeaf t A n := ⟨hx, hrt, hdt, hzero, fun y hy hyx hyd =>
        hbare n (mem_singleton_self n) y (hcore.shape.attached_iff.mpr hy)
          ((hre.par_eq y).symm.trans hyx) ((hre.value_eq y).symm.trans_ne hyd)⟩
      have hev := ht.demoted hleaf hbt
      exact (hdem.host.off_mem n hx fun hon => ((hev.device_iff n).mp ⟨hx, hon⟩).2 rfl).2
  · intro hpend hl
    obtain ⟨hm, hzero⟩ := hl x (mem_singleton_self x)
    have hx : x ∈ A := hi.state.mem_of_movable hm
    have hone : ∀ n ∈ [x], n ∈ s.cache.hybridPendingDeviceDemotions := by simpa using hpend
    constructor
    · intro hall
      refine ⟨?_, (drain_off_iff hmode hi hl hone).mp fun pick => ?_⟩
      · obtain ⟨c, hrun, _, hdem⟩ := drain_demotes hmode hi.state fun _ => 0
        obtain ⟨s₁, hrun', hoff⟩ := hall fun _ => 0
        obtain rfl := Except.ok.inj ((drain_step hrun).symm.trans hrun')
        refine par_of_pieces_off hcore hx hm.device hqx hne (fun n hn hd hpiece hnx => ?_) hoff
        exact hdem.stays n hn hd fun hmem =>
          hmark n hpiece hnx ((shuffle_perm _ _ _ rfl).mem_iff.mp hmem)
      · obtain ⟨s₁, hrun, hoff⟩ := hall pick
        exact ⟨s₁, hrun, fun n hn => hoff n (mem_singleton.mp hn ▸ hself)⟩
    · rintro ⟨hq, hbare⟩ pick
      obtain ⟨s₁, hrun, hoff⟩ := (drain_off_iff hmode hi hl hone).mpr hbare pick
      exact ⟨s₁, hrun, fun n hn =>
        hoff n (mem_singleton.mpr ((piece_iff hcore.shape hx hq).mp hn))⟩

/-! A new node of two tokens is split while it is written to the host. -/

def splitOps : List HiOp :=
  [.insert [5, 6] none false [2, 3] false fun _ _ => 0, .matchPrefix [5, 7] none false fun _ _ => 0]

def splitSession : HiSession := splitOps.foldl (next demoteParams) backupStart

theorem splitSession_run : HiRun demoteParams backupStart splitOps splitSession := by
  have h0 : HiRun demoteParams backupStart [] backupStart := .nil
  have h1 := h0.next (.insert [5, 6] none false [2, 3] false fun _ _ => 0)
    (by rintro v ⟨⟩; decide) (by decide)
  exact h1.next (.matchPrefix [5, 7] none false fun _ _ => 0) trivial (by decide)

theorem run_splitDemotion_halves : ∃ s₁ s₂,
    splitSession.step demoteParams (.writingCheck 1) = .ok s₁ ∧
    s₁.step demoteParams (.drainHybridPendingDemotions fun _ => 0) = .ok s₂ ∧
    ((∀ n, Piece splitSession.cache.tree 0 1 n → ¬ s₂.cache.tree.onDevice n) ↔
      splitSession.cache.tree.par 1 = some 0 ∧ Bare splitSession.cache.tree [1]) := by
  have h12 : splitSession.cache.tree.par 1 = some 2 := by decide
  have h20 : splitSession.cache.tree.par 2 = some 0 := by decide
  have hnone : splitSession.cache.hybridPendingDeviceDemotions.elems = [] := by decide
  refine (run_splitDemotion (by decide) rfl rfl splitSession_run
    (anc_step h12 (anc_step h20 (anc_refl _ _))) (by decide) fun n _ _ hn => ?_).1 [] (by decide)
    (by decide) (by decide) fun _ => 0
  cases hn

/-- The half that is marked leaves the device. The other half stays, unlocked, not pending, and
with no child on the device. -/
theorem split_keeps_half : HiRun demoteParams backupStart splitOps splitSession ∧
    1 ∈ splitSession.cache.hybridWriteDemoteNodeIds ∧ splitSession.cache.tree.par 1 = some 2 ∧
    let s := (splitSession.next demoteParams (.writingCheck 1)).next demoteParams
      (.drainHybridPendingDemotions fun _ => 0)
    (s.cache.tree.nodes 1).value = none ∧ (s.cache.tree.nodes 2).value = some [2] ∧
      s.cache.tree.backedUp 2 ∧ (s.cache.tree.nodes 2).lockRef = 0 ∧
      s.cache.hybridPendingDeviceDemotions.elems = [] ∧ s.cache.ongoingWriteThrough = [] :=
  ⟨splitSession_run, by decide, by decide, by decide, by decide, by decide, by decide, by decide,
    by decide⟩

end Run

end Fluxfer.Hi
