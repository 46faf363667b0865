import Fluxfer.Hi.WalkSpec
import Fluxfer.Unified.Spec

/-!
# `match_prefix` and `insert` of `UnifiedRadixCache`

`insert` takes the slots of a request from `prevPrefixLen` on. The slots before it belong to nodes
which the request has locked; that these are met on the device is what `Protects` is for.
-/

namespace Fluxfer.Unified

open Radix ParentTree Memory Pages Hi UnifiedCache RadixKey List Nat

variable {node child x n q : NodeId} {key k : RadixKey} {m prev : Nat} {p : CacheParams}
  {t : RadixTree} {A : Finset NodeId} {b : UnifiedCache.BestMatch} {l : List KeyUnit}
  {v value : List Nat} {o : Multiset Nat}
variable {hp : HiParams} {s : UniState}

/-! ## One iteration -/

theorem splitNode_spec (h : UniInv hp s)
    (hd : Descent hp.toCacheParams s.tree s.nodes node key child m) (hm : m < s.tree.len child) :
    ∃ s', s.cache.splitNode hp child m = (s.tree.counter, s'.cache) ∧ UniStep hp s s' ∧
      Kept s s' ∧ IsSplit hp.pageSize s.tree s'.tree child m ∧
      s'.nodes = insert s.tree.counter s.nodes := by
  have hm0 : 0 < m := lt_of_lt_of_le hp.pageSize_pos hd.page_le
  have hs := splitTree_isSplit h.tree hd.mem hd.ne_root hm0 hm hd.dvd
  have hstep := HiStep.split (s := s.hi) hs hd.mem hd.ne_root hm0 hm hd.dvd
  refine ⟨{ s with
      cache := s.cache.withTree (splitTree hp.pageSize s.tree (s.tree.nodes child).key child m).2
      ledger := s.ledger.splitNode hp.pageSize s.tree.counter child m
      nodes := insert s.tree.counter s.nodes },
    rfl, .of_hi hstep rfl, .of_eq rfl rfl rfl rfl, hs, rfl⟩

/-! ## `match_prefix` -/

theorem reach_mem (hb : b.bestMatchNode ∈ A) (hx : x ∈ A) : (b.reach t x).bestMatchNode ∈ A := by
  unfold UnifiedCache.BestMatch.reach
  dsimp only
  split_ifs
  · exact hx
  · exact hb

theorem matchPrefixHelper_spec : ∀ fuel (s : UniState) node key b, UniInv hp s →
    Walkable hp.toCacheParams s.tree s.nodes node key → b.bestMatchNode ∈ s.nodes →
    key.len < fuel →
    ∃ b' s', matchPrefixHelper hp fuel s.cache node key b = .ok (b', s'.cache) ∧
      Works hp s s' ∧ b'.bestMatchNode ∈ s'.nodes := by
  intro fuel
  induction fuel with
  | zero => intro s node key b _ _ _ hlt; omega
  | succ fuel ih =>
    intro s node key b h hw hb hlt
    unfold matchPrefixHelper
    by_cases hpos : 0 < key.len
    · rw [if_pos hpos]
      cases hfind : s.cache.tree.find node (key.childKey hp.pageSize) with
      | none => exact ⟨b, s, rfl, .refl s, hb⟩
      | some child =>
        obtain ⟨m, hd⟩ := hw.descent h.shape hpos hfind
        have hmatched := hd.matched
        have htier : ¬ ((s.cache.tree.nodes child).evicted = true ∧
            ¬ (s.cache.tree.nodes child).backuped = true) := fun hoff =>
          hoff.2 (backuped_iff.mpr (h.tree.core.off_device child hd.mem (evicted_iff.mp hoff.1)).1)
        simp only [if_neg htier, hmatched, bind, Except.bind]
        by_cases hm : m < (s.cache.tree.nodes child).key.len
        · rw [if_pos hm]
          obtain ⟨s1, hsplit, hstep, hkept, _, hnodes⟩ := splitNode_spec h hd hm
          rw [hsplit]
          refine ⟨_, s1, rfl, .single hstep hkept, reach_mem ?_ ?_⟩
          · exact hnodes ▸ Finset.mem_insert_of_mem hb
          · exact hnodes ▸ Finset.mem_insert_self _ _
        · rw [if_neg hm]
          have hlen : (key.slice m key.len).len < fuel := by
            rw [len_drop _ hd.le_key]
            have := hp.pageSize_pos
            have := hd.page_le
            omega
          exact ih s child _ _ h (hd.walkable hw) (reach_mem hb hd.mem) hlen
    · rw [if_neg hpos]
      exact ⟨b, s, rfl, .refl s, hb⟩

theorem climbToBackup_eq (hroot : t.backedUp t.rootNode) (fuel : Nat) (n : NodeId) :
    climbToBackup t fuel n = HiCache.climbToBackup t fuel n := by
  induction fuel generalizing n with
  | zero => rfl
  | succ fuel ih =>
    unfold climbToBackup HiCache.climbToBackup
    by_cases hb : (t.nodes n).backuped = true
    · rw [if_neg fun hn => hn.2 hb, if_pos hb]
    · have hn : n ≠ t.rootNode := fun e => hb (backuped_iff.mpr (e ▸ hroot))
      rw [if_pos ⟨hn, hb⟩, if_neg hb]
      cases (t.nodes n).parent with
      | none => rfl
      | some q => exact ih q

theorem hostHit_ok (h : UniInv hp s) (a : NodeId) (hx : x ∈ s.nodes) :
    ∃ k, hostHit s.cache.tree a (s.cache.tree.counter + 1) x 0 = .ok k := by
  refine h.shape.rooted.climb (P := fun fuel n => ∀ hit,
    ∃ k, hostHit s.cache.tree a fuel n hit = .ok k) ?_ x hx 0
  intro fuel n hn ih hit
  unfold hostHit
  by_cases hgo : n ≠ a ∧ n ≠ s.cache.tree.rootNode
  · obtain ⟨q, _, hq⟩ := h.shape.rooted.par_mem hn hgo.2
    have hq' : (s.cache.tree.nodes n).parent = some q := hq
    rw [if_pos hgo, hq']
    exact ih q hq _
  · rw [if_neg hgo]
    exact ⟨hit, rfl⟩

theorem matchPrefix_spec (h : UniInv hp s) (hk : key.isBigram = true → hp.isEagle = true) :
    ∃ r s', s.cache.matchPrefix hp key = .ok (r, s'.cache) ∧ Works hp s s' := by
  unfold matchPrefix
  by_cases hempty : ((key.toBigramView hp.isEagle).pageAligned hp.pageSize).len = 0
  · exact ⟨_, s, if_pos hempty, .refl s⟩
  · obtain ⟨b, s', hrun, hdid, hmem⟩ := matchPrefixHelper_spec
      ((alignedKey hp.toCacheParams key).len + 1) s s.tree.rootNode
      (alignedKey hp.toCacheParams key) ⟨[], s.tree.rootNode, s.tree.rootNode, 0⟩ h
      (walkable_root h.shape hk) h.shape.rooted.root_mem (lt_succ_self _)
    have h' := hdid.inv h
    obtain ⟨a, hclimb, ha, _⟩ := climbToBackup_spec h'.state hmem
    obtain ⟨k, hhit⟩ := hostHit_ok h' b.bestMatchDeviceNode ha
    have hclimb' : climbToBackup s'.cache.tree (s'.cache.tree.counter + 1)
      b.bestMatchNode = .ok a := (climbToBackup_eq h'.tree.core.root_backed _ _).trans hclimb
    have hrun' : matchPrefixHelper hp
        (((key.toBigramView hp.isEagle).pageAligned hp.pageSize).len + 1) s.cache
        s.cache.tree.rootNode ((key.toBigramView hp.isEagle).pageAligned hp.pageSize)
        ⟨[], s.cache.tree.rootNode, s.cache.tree.rootNode, 0⟩ = .ok (b, s'.cache) := hrun
    refine ⟨⟨(b.value.take b.bestMatchDeviceValueLen).flatten, b.bestMatchDeviceNode, a,
      b.bestMatchNode, k⟩, s', ?_, hdid⟩
    simp only [if_neg hempty, hrun', hclimb', hhit, bind, Except.bind]

/-! ## The protected part of a key -/

/-- The part of the query `u` before `prev` is on the path of `m`, which is on the device. -/
structure Protects (t : RadixTree) (A : Finset NodeId) (e : Option String) (u : List KeyUnit)
    (prev : Nat) (m : NodeId) : Prop where
  mem : m ∈ A
  device : t.onDevice m
  ns : m = t.rootNode ∨ t.ns m = e
  path : ∃ l, PathLabel t.par t.seg m l ∧ u.take prev <+: l

namespace Protects

variable {t' : RadixTree} {A' : Finset NodeId} {e : Option String} {u : List KeyUnit} {m : NodeId}

theorem keepsDevice (h : Protects t A e u prev m) (hk : KeepsDevice t A t' A') :
    Protects t' A' e u prev m := by
  obtain ⟨l, hl, hpre⟩ := h.path
  have hin : m ∈ {n | n ∈ A ∧ t.onDevice n} := ⟨h.mem, h.device⟩
  refine ⟨hk.mem m h.mem h.device, hk.device m h.mem h.device, ?_, l, hk.paths.seg m hin l hl, hpre⟩
  rw [hk.paths.root_eq, hk.paths.ns m hin]
  exact h.ns

/-- Before the end of the protected part, the next page of the key is on the path of `m`. -/
theorem next_page (h : Protects t A key.extraKey (l ++ key.units) prev m) (hs : ShapeOn p t A)
    (hw : WalkAt p t A node key l v) (hpos : 0 < key.len) (hd : p.pageSize ∣ prev)
    (hlt : l.length < prev) :
    m ≠ t.rootNode ∧ ∃ w, PathLabel t.par t.seg m w ∧ l ++ key.units.take p.pageSize <+: w := by
  obtain ⟨w, hlabel, hpre⟩ := h.path
  have hl := hs.trie.label_dvd hw.walk.mem hw.seg
  have hps := p.pageSize_pos
  have hle : l.length + p.pageSize ≤ prev := by
    obtain ⟨a, ha⟩ := hl
    obtain ⟨b, hb⟩ := hd
    have hab : a < b := by
      by_contra hba
      have := Nat.mul_le_mul_left p.pageSize (Nat.le_of_not_lt hba)
      omega
    have := mul_le_mul_left p.pageSize (succ_le_of_lt hab)
    rw [mul_succ] at this
    omega
  have hnext : l ++ key.units.take p.pageSize <+: w := by
    have htake : (l ++ key.units).take (l.length + p.pageSize) = l ++ key.units.take p.pageSize :=
      take_length_add_append _
    rw [← htake]
    exact ( take_prefix_take_left hle).trans hpre
  refine ⟨?_, w, hlabel, hnext⟩
  rintro rfl
  have hnil := hs.trie.label_root hlabel
  have hlen := hnext.length_le
  rw [hnil, length_append, length_take, length_units] at hlen
  simp only [length_nil] at hlen
  omega

theorem ns_eq (h : Protects t A e u prev m) (hm : m ≠ t.rootNode) : t.ns m = e :=
  h.ns.resolve_left hm

theorem onDevice (h : Protects t A key.extraKey (l ++ key.units) prev m) (hc : CoreOn p t A)
    {k : Nat} (hw : WalkAt p t A node key l v) (hdesc : Descent p t A node key child k)
    (hpos : 0 < key.len) (hd : p.pageSize ∣ prev) (hlt : l.length < prev) : t.onDevice child := by
  obtain ⟨hm, w, hlabel, hnext⟩ := h.next_page hc.shape hw hpos hd hlt
  have hpage : (t.seg child).take p.pageSize = key.units.take p.pageSize := by
    have := congrArg (take p.pageSize) hdesc.agree
    rwa [take_take, take_take, min_eq_left hdesc.page_le] at this
  have hanc : Anc t.par child m := by
    refine hc.shape.trie.anc_of_prefix h.mem hm hlabel child hdesc.mem hdesc.ne_root
      (hdesc.ns.trans (h.ns_eq hm).symm) node l hdesc.par hw.seg ?_
    rw [hpage]
    exact hnext
  exact (hc.anc_device h.mem h.device hanc).2

theorem le_of_stuck (h : Protects t A key.extraKey (l ++ key.units) prev m) (hs : ShapeOn p t A)
    (hw : WalkAt p t A node key l v) (hpos : 0 < key.len) (hd : p.pageSize ∣ prev)
    (hfind : t.find node (key.childKey p.pageSize) = none) : prev ≤ l.length := by
  by_contra hlt
  obtain ⟨hm, w, hlabel, hnext⟩ := h.next_page hs hw hpos hd (by omega)
  have hend := atEnd_of_find_none hs hw.walk hpos hw.seg hfind
  have hpre : l <+: w := (prefix_append _ _).trans hnext
  have hanc : Anc t.par node m := by
    by_cases hr : node = t.rootNode
    · rw [hr]
      exact hs.rooted.root_anc m h.mem
    · obtain ⟨q, _, hq⟩ := hs.rooted.par_mem hw.walk.mem hr
      obtain ⟨l0, hl0, hl⟩ := hw.seg.of_par hq
      refine hs.trie.anc_of_prefix h.mem hm hlabel node hw.walk.mem hr
        ((hw.walk.ns hr).trans (h.ns_eq hm).symm) q l0 hq hl0 (List.IsPrefix.trans ?_ hpre)
      rw [hl]
      exact (prefix_append_right_inj l0).mpr ( take_prefix _ _)
  have hpage := hw.walk.page_le_key hpos
  have hps := p.pageSize_pos
  have hlen := hnext.length_le
  rw [length_append, length_take, length_units] at hlen
  have hne : node ≠ m := by
    rintro rfl
    rw [hw.seg.unique hlabel] at hlen
    omega
  obtain ⟨c, hcA, hcp, hcm, hcpre⟩ := hs.trie.exists_child_toward h.mem hanc hne hw.seg hlabel
  have hcr : c ≠ t.rootNode := hs.rooted.ne_root_of_par hcp
  refine hend.stuck c hcA hcp ((hs.trie.ns_anc h.mem hcr hcm).trans (h.ns_eq hm)) ?_
  have hcpage : p.pageSize ≤ (t.seg c).length := hs.trie.page_le hcA hcr
  have hfirst : l ++ (t.seg c).take p.pageSize <+: w :=
    ((prefix_append_right_inj l).mpr ( take_prefix _ _)).trans hcpre
  have heq : l ++ (t.seg c).take p.pageSize = l ++ key.units.take p.pageSize := by
    refine (prefix_of_prefix_length_le hfirst hnext ?_).eq_of_length ?_
    · simp only [length_append, length_take, length_units]
      omega
    · simp only [length_append, length_take, length_units]
      omega
  rw [heq]
  exact (prefix_append_right_inj l).mpr ( take_prefix _ _)

end Protects

/-! ## `insert` -/

theorem markHybridGeneratedNodeForDemotion_same (hp : HiParams) (c : UnifiedCache) (n : NodeId) :
    IsSame c.tree (c.markHybridGeneratedNodeForDemotion hp n).tree := by
  unfold markHybridGeneratedNodeForDemotion
  split_ifs
  · exact .refl _
  · exact modify_isSame
      (f := fun x => { x with hicacheDemoteAfterWrite := true }) (fun _ => rfl)
  · exact .refl _

theorem markHybridGeneratedNodeForDemotion_step (hp : HiParams) (s : UniState) (n : NodeId) :
    UniStep hp s { s with cache := s.cache.markHybridGeneratedNodeForDemotion hp n } := by
  have hsame := markHybridGeneratedNodeForDemotion_same hp s.cache n
  unfold markHybridGeneratedNodeForDemotion at hsame ⊢
  split_ifs at hsame ⊢
  · exact .book hsame rfl rfl rfl rfl rfl rfl rfl
  · exact .book hsame rfl rfl rfl rfl rfl rfl rfl
  · exact .book hsame rfl rfl rfl rfl rfl rfl rfl

theorem reach_spec (h : UniInv hp s) (hw : WalkAt hp.toCacheParams s.tree s.nodes node key l v)
    (hd : Descent hp.toCacheParams s.tree s.nodes node key child m) :
    ∃ x s' vx, (if m < (s.cache.tree.nodes child).key.len then s.cache.splitNode hp child m
        else (child, s.cache)) = (x, s'.cache) ∧
      Works hp s s' ∧ KeepsDevice s.tree s.nodes s'.tree s'.nodes ∧
      s'.tree.par x = some node ∧ s'.tree.len x = m ∧
      WalkAt hp.toCacheParams s'.tree s'.nodes x (key.slice m key.len) (l ++ key.units.take m) vx ∧
      (s'.tree.onDevice x ↔ s.tree.onDevice child) := by
  by_cases hm : m < (s.cache.tree.nodes child).key.len
  · rw [if_pos hm]
    obtain ⟨s', hsplit, hstep, hkept, hs, hnodes⟩ := splitNode_spec h hd hm
    have hkeep := KeepsDevice.of_split hs h.shape hd.mem hd.ne_root hm.le
    have hwalk := hw.split h.shape hd hm hs
    rw [← hnodes] at hkeep hwalk
    refine ⟨_, s', _, hsplit, .single hstep hkept, hkeep, ?_, ?_, hwalk, ?_⟩
    · rw [hs.par_new, hd.par]
    · rw [RadixTree.len, hs.key_eq, if_pos rfl]
      exact len_take _ hm.le
    · rw [hs.onDevice_iff, if_pos rfl]
  · rw [if_neg hm]
    have hle := hd.le_child
    have hfull : s.tree.len child = m := Nat.le_antisymm (Nat.le_of_not_lt hm) hle
    have hseg : s.tree.seg child = key.units.take m := by
      rw [← hd.agree, take_of_length_le]
      rw [s.tree.length_seg, hfull]
    refine ⟨child, s, _, rfl, .refl s, .refl _ _, hd.par, hfull,
      ⟨hd.walkable hw.walk, ?_, .step hd.par hw.val⟩, Iff.rfl⟩
    rw [← hseg]
    exact .step hd.par hw.seg

theorem fill_spec (h : UniInv hp s) (hn : n ∈ s.nodes) (hq : s.tree.par n = some q)
    (hqd : s.tree.onDevice q) (hoff : ¬ s.tree.onDevice n) (hv : v.length = s.tree.len n)
    (hlaid : Laid hp.pageSize v) (howned : s.owned = o + (pagesOf hp.pageSize v : Multiset Nat)) :
    ∃ s', unevictNodeOnInsert s.tree n v = .ok s'.tree ∧
      s'.cache = s.cache.withTree s'.tree ∧ UniStep hp s s' ∧ Kept { s with owned := o } s' ∧
      Visited s.tree s.nodes n s'.tree s'.nodes := by
  refine ⟨{ s with
    cache := s.cache.withTree (repair (fillNode s.tree n v) n q)
    ledger := s.ledger.compute n (s.tree.ns n) (s.tree.len n)
    given := s.given ++ [v]
    owned := o }, unevictNodeOnInsert_eq h.tree hn hq hqd hoff hv, rfl, ?_, .of_eq rfl rfl rfl rfl,
    fillNode_visited q v hn hoff⟩
  exact .give (.fill hn hq hqd hoff hv) rfl (fun _ hw => hw) (fun _ he => he) rfl hlaid howned

/-- `_insert_helper` at a node: the slots behind `prevPrefixLen` leave the request. -/
theorem placeValue_spec (h : UniInv hp s) {total : Nat} (hn : n ∈ s.nodes)
    (hq : s.tree.par n = some q) (hqd : s.tree.onDevice q) (hv : v.length = s.tree.len n)
    (hoff : ¬ s.tree.onDevice n → prev ≤ total) (hlaid : Laid hp.pageSize (v.drop (prev - total)))
    (howned : s.owned = o + (pagesOf hp.pageSize (v.drop (prev - total)) : Multiset Nat)) :
    ∃ s', s.cache.placeValue hp n v total prev = .ok s'.cache ∧ UniSteps hp s s' ∧
      Kept { s with owned := o } s' ∧ Visited s.tree s.nodes n s'.tree s'.nodes := by
  unfold placeValue
  by_cases hd : s.tree.onDevice n
  · have hev : ¬ (s.cache.tree.nodes n).evicted = true := fun he => evicted_iff.mp he hd
    have hvis : Visited s.tree s.nodes n s.tree s.nodes :=
      .of_sameDevice (SameDevice.refl _ _) hn hd
    rw [if_neg hev]
    by_cases hdup : prev - total < v.length
    · exact ⟨_, if_pos hdup, .single (.giveBack hlaid howned), .of_eq rfl rfl rfl rfl, hvis⟩
    · have hnil : v.drop (prev - total) = [] := drop_of_length_le (Nat.le_of_not_lt hdup)
      rw [hnil, pagesOf_nil, Multiset.coe_nil, add_zero] at howned
      exact ⟨s, if_neg hdup, .refl, .of_eq rfl rfl rfl howned, hvis⟩
  · rw [if_pos (evicted_iff.mpr hd)]
    have hzero : prev - total = 0 := Nat.sub_eq_zero_of_le (hoff hd)
    rw [hzero] at hlaid howned
    obtain ⟨s1, hfill, hcache, hstep, hkept, hvis⟩ := fill_spec h hn hq hqd hd hv hlaid howned
    have hmark := markHybridGeneratedNodeForDemotion_step hp s1 n
    have hsame := markHybridGeneratedNodeForDemotion_same hp s1.cache n
    have hfill' : unevictNodeOnInsert s.cache.tree n v = .ok s1.tree := hfill
    refine ⟨_, ?_, .tail (.single hstep) hmark, hkept,
      hvis.then_sameDevice (.of_isSame hsame)⟩
    rw [hfill', hcache]
    rfl

theorem drop_split (value : List Nat) (m d : Nat) (hm : m ≤ value.length) :
    value.drop d = (value.take m).drop d ++ (value.drop m).drop (d - m) := by
  conv_lhs => rw [← take_append_drop m value]
  rw [drop_append, length_take, min_eq_left hm]

theorem laid_split {ps d : Nat} (hps : 0 < ps) (hdm : ps ∣ m) (hdd : ps ∣ d)
    (h : Laid ps (value.drop d)) :
    Laid ps ((value.take m).drop d) ∧ Laid ps ((value.drop m).drop (d - m)) := by
  constructor
  · rw [drop_take]
    exact h.take hps _
  · have hmax : (value.drop m).drop (d - m) = (value.drop d).drop (m - d) := by
      rw [drop_drop, drop_drop]
      congr 1
      omega
    rw [hmax]
    exact h.drop hps (dvd_sub hdm hdd)

/-- What the loop of `_insert_helper` has done with `m` slots: of the others, those behind
`prevPrefixLen` are still the request's. -/
structure Walked (hp : HiParams) (s : UniState) (key : RadixKey) (l : List KeyUnit)
    (value : List Nat) (prev : Nat) (o : Multiset Nat) (n : NodeId) (k : RadixKey) (m : Nat)
    (s' : UniState) : Prop where
  steps : UniSteps hp s s'
  kept : Kept { s with owned := s'.owned } s'
  keeps : KeepsDevice s.tree s.nodes s'.tree s'.nodes
  walk : ∃ v, WalkAt hp.toCacheParams s'.tree s'.nodes n k (l ++ key.units.take m) v
  units : l ++ key.units.take m ++ k.units = l ++ key.units
  device : s'.tree.onDevice n
  ext : k.extraKey = key.extraKey
  len : k.len + m = key.len
  dvd : hp.pageSize ∣ m
  stuck : 0 < k.len → s'.tree.find n (k.childKey hp.pageSize) = none
  owned : s'.owned = o +
    (pagesOf hp.pageSize ((value.drop m).drop (prev - (l.length + m))) : Multiset Nat)

theorem Walked.stop (hw : WalkAt hp.toCacheParams s.tree s.nodes node key l v)
    (hd : s.tree.onDevice node)
    (hstuck : 0 < key.len → s.tree.find node (key.childKey hp.pageSize) = none)
    (howned : s.owned = o +
      (pagesOf hp.pageSize (value.drop (prev - l.length)) : Multiset Nat)) :
    Walked hp s key l value prev o node key 0 s := by
  refine ⟨.refl, .of_eq rfl rfl rfl rfl, .refl _ _, ⟨v, ?_⟩, ?_, hd, rfl, rfl, dvd_zero _, hstuck, ?_⟩
  · rwa [take_zero, append_nil]
  · rw [take_zero, append_nil]
  · rwa [add_zero]

theorem Walked.head {s1 s' : UniState} {m' : Nat} (hm : m ≤ key.len) (hd : hp.pageSize ∣ m)
    (hl : l.length + m = (l ++ key.units.take m).length) (hsteps : UniSteps hp s s1)
    (hkept : Kept { s with owned := s1.owned } s1)
    (hkeep : KeepsDevice s.tree s.nodes s1.tree s1.nodes)
    (h : Walked hp s1 (key.slice m key.len) (l ++ key.units.take m) (value.drop m) prev o n k m' s') :
    Walked hp s key l value prev o n k (m + m') s' := by
  have htake : l ++ key.units.take m ++ (key.slice m key.len).units.take m' =
      l ++ key.units.take (m + m') := by
    rw [units_drop _ hm, append_assoc, ← take_add]
  have hlen := h.len
  rw [len_drop _ hm] at hlen
  obtain ⟨v, hw⟩ := h.walk
  refine ⟨hsteps.trans h.steps, ?_, hkeep.trans h.keeps, ⟨v, htake ▸ hw⟩, ?_, h.device,
    h.ext.trans (slice_extraKey _ _ _), by omega, dvd_add hd h.dvd, h.stuck, ?_⟩
  · exact hkept.give h.kept
  · rw [← htake, h.units, units_drop _ hm, append_assoc, take_append_drop]
  · have hdrop : (value.drop m).drop m' = value.drop (m + m') := drop_drop
    rw [h.owned, hdrop, ← hl, add_assoc]

theorem insertLoop_spec (prev : Nat) (hprev : hp.pageSize ∣ prev) (m0 : NodeId) (chunked : Bool)
    (pick : Nat → Nat → Nat) :
    ∀ fuel (s : UniState) node key value l v o, UniInv hp s →
      WalkAt hp.toCacheParams s.tree s.nodes node key l v → s.tree.onDevice node →
      Protects s.tree s.nodes key.extraKey (l ++ key.units) prev m0 →
      value.length = key.len → Laid hp.pageSize (value.drop (prev - l.length)) →
      s.owned = o + (pagesOf hp.pageSize (value.drop (prev - l.length)) : Multiset Nat) →
      key.len < fuel →
      ∃ n k m s', insertLoop hp prev chunked pick fuel s.cache node key value
          l.length = .ok (n, k, value.drop m, l.length + m, s'.cache) ∧
        Walked hp s key l value prev o n k m s' := by
  intro fuel
  induction fuel with
  | zero => intro s node key value l v o _ _ _ _ _ _ _ hlt; omega
  | succ fuel ih =>
    intro s node key value l v o h hw hdev hprot hval hlaid howned hlt
    unfold insertLoop
    by_cases hpos : 0 < key.len
    · rw [if_pos hpos]
      cases hfind : s.cache.tree.find node (key.childKey hp.pageSize) with
      | none => exact ⟨node, key, 0, s, rfl, .stop hw hdev (fun _ => hfind) howned⟩
      | some child =>
        obtain ⟨m, hd⟩ := hw.walk.descent h.shape hpos hfind
        have hmatched : (s.cache.tree.nodes child).key.matchKey key hp.pageSize = .ok m :=
          hd.matched
        have hmk := hd.le_key
        have hps := hp.pageSize_pos
        have hpage := hd.page_le
        obtain ⟨x, s1, vx, hreach, hdid1, hkeep1, hpar, hlenx, hwx, hdevx⟩ :=
          reach_spec h hw hd
        have h1 := hdid1.inv h
        have hnode := hkeep1.device node hw.walk.mem hdev
        have htake : (value.take m).length = s1.tree.len x := by
          rw [length_take]
          omega
        have hoff : ¬ s1.tree.onDevice x → prev ≤ l.length := fun hx => by
          by_contra hlt'
          exact hx (hdevx.mpr (hprot.onDevice h.tree.core hw hd hpos hprev (by omega)))
        have hlast : (l ++ key.units.take m).length = l.length + m := by
          rw [length_append, length_take, length_units, min_eq_left hmk]
        have hsub : prev - (l.length + m) = prev - l.length - m := (Nat.sub_sub _ _ _).symm
        have hdd : hp.pageSize ∣ prev - l.length :=
          dvd_sub hprev (h.shape.trie.label_dvd hw.walk.mem hw.seg)
        obtain ⟨hlaid1, hlaid2⟩ := laid_split hps hd.dvd hdd hlaid
        -- the slots of this node leave the request, those of the rest of the key stay
        obtain ⟨s2, hplace, hsteps2, hkept2, hvis⟩ := placeValue_spec
          (o := o + (pagesOf hp.pageSize ((value.drop m).drop (prev - l.length - m)) : Multiset Nat))
          h1 hwx.walk.mem hpar hnode htake hoff hlaid1 (by
            rw [hdid1.kept.owned_eq, howned, drop_split value m _ (by omega), pagesOf_append,
              ← Multiset.coe_add]
            abel)
        have h2 := hsteps2.inv h1
        have hr : x ≠ s2.tree.rootNode := by
          rw [hvis.root_eq]
          exact h1.shape.rooted.ne_root_of_par hpar
        obtain ⟨s3, hhit, hdid3, hsame⟩ :=
          incHitCount_spec h2 hvis.mem hr hvis.device chunked (pick fuel)
        have h3 := hdid3.inv h2
        have hvis3 := hvis.then_sameDevice hsame
        obtain ⟨v3, hv3⟩ := h3.shape.rooted.exists_label s3.tree.deviceValue x hvis3.mem
        have hw3 := hvis3.walkAt hv3 hwx
        have hkeep3 := hkeep1.trans (hvis3.keepsDevice h1.tree.core)
        have hunits : l ++ key.units.take m ++ (key.slice m key.len).units = l ++ key.units := by
          rw [units_drop _ hmk, append_assoc, take_append_drop]
        have hlenk : (key.slice m key.len).len = key.len - m := len_drop _ hmk
        obtain ⟨n, k, m', s', hrun, hwalked⟩ := ih s3 x (key.slice m key.len) (value.drop m)
          (l ++ key.units.take m) v3 o h3 hw3 hvis3.device
          (by rw [hunits, slice_extraKey]; exact hprot.keepsDevice hkeep3)
          (by rw [length_drop, hval, hlenk]) (by rw [hlast, hsub]; exact hlaid2)
          (by rw [hlast, hsub, hdid3.kept.owned_eq, hkept2.owned_eq]) (by omega)
        refine ⟨n, k, m + m', s', ?_, .head hmk hd.dvd hlast.symm
          ((hdid1.steps.trans hsteps2).trans hdid3.steps) ?_ hkeep3 hwalked⟩
        · simp only [hmatched, hreach, hplace, hhit, bind, Except.bind]
          rw [hlast] at hrun
          rw [hrun, drop_drop, add_assoc]
        · rw [hdid3.kept.owned_eq, hkept2.owned_eq]
          exact hdid3.kept.trans (Kept.give hdid1.kept hkept2)
    · rw [if_neg hpos]
      exact ⟨node, key, 0, s, rfl, .stop hw hdev (fun hp => absurd hp hpos) howned⟩

theorem insertLeaf_spec (h : UniInv hp s) {slots : List Nat}
    (hw : WalkAt hp.toCacheParams s.tree s.nodes n k l v) (hd : s.tree.onDevice n)
    (hpos : 0 < k.len) (hnew : s.tree.find n (k.childKey hp.pageSize) = none)
    (hlen : slots.length = k.len) (hlaid : Laid hp.pageSize slots)
    (howned : s.owned = o + (pagesOf hp.pageSize slots : Multiset Nat)) (chunked : Bool)
    (pick : Nat → Nat) :
    ∃ s', s.cache.insertLeaf hp n k slots chunked pick = .ok s'.cache ∧ UniSteps hp s s' ∧
      Kept { s with owned := o } s' ∧ KeepsDevice s.tree s.nodes s'.tree s'.nodes := by
  have hold : n ≠ s.tree.counter := fun e => h.shape.not_mem_counter (e ▸ hw.walk.mem)
  have hg := addNewNode_isGraft (p := hp.toCacheParams) k slots hold
  have hinv := addNewNode_treeInv h.tree hw.walk.mem hd hpos hw.walk.aligned hw.walk.bigram
    (fun hr => (hw.walk.ns hr).symm) hnew hlen
  set t := (addNewNode hp.pageSize s.tree n k slots).2
  set s1 : UniState := { s with
    cache := s.cache.withTree t
    ledger := s.ledger.insertLeaf hp.pageSize t s.tree.counter
    nodes := insert s.tree.counter s.nodes
    given := s.given ++ [slots]
    owned := o }
  have hstep : UniStep hp s s1 :=
    .give (.graft hg hinv) rfl (fun _ hw => hw) (fun _ he => he) rfl hlaid howned
  have hmark := markHybridGeneratedNodeForDemotion_step hp s1 s.tree.counter
  have hsame := markHybridGeneratedNodeForDemotion_same hp s1.cache s.tree.counter
  have hmem : s.tree.counter ∈ s1.nodes := Finset.mem_insert_self _ _
  have hroot : s.tree.counter ≠ s.tree.rootNode := fun e =>
    h.shape.not_mem_counter (e ▸ h.shape.rooted.root_mem)
  have hdev : t.onDevice s.tree.counter := hg.onDevice_new
  obtain ⟨s', hrun, hdid, hhit⟩ := incHitCount_spec (hmark.inv (hstep.inv h)) hmem
    (fun e => hroot (e.trans (hsame.root_eq.trans hg.root_eq)))
    ((hsame.onDevice_iff _).mpr hdev) chunked pick
  have hrest := (SameDevice.of_isSame (A := s1.nodes) hsame).trans hhit
  exact ⟨s', hrun, .head hstep (.head hmark hdid.steps), hdid.kept,
    (KeepsDevice.of_graft hg h.shape).trans (.of_sameDevice hrest)⟩

/-- `insert`: the slots behind `prevPrefixLen` leave the request. -/
theorem insert_spec (h : UniInv hp s) {m0 : NodeId} (hk : key.isBigram = true → hp.isEagle = true)
    (hv : EnoughSlots hp.toCacheParams key (some value)) (hprev : hp.pageSize ∣ prev)
    (hprot : Protects s.tree s.nodes key.extraKey (queryUnits hp.toCacheParams key) prev m0)
    (hlaid : Laid hp.pageSize ((insertSlots hp.toCacheParams key (some value)).drop prev))
    (howned : s.owned = o + (pagesOf hp.pageSize
      ((insertSlots hp.toCacheParams key (some value)).drop prev) : Multiset Nat)) (chunked : Bool)
    (pick : Nat → Nat → Nat) :
    ∃ d s', s.cache.insert hp key value prev chunked pick = .ok (d, s'.cache) ∧
      UniSteps hp s s' ∧ Kept { s with owned := o } s' ∧
      KeepsDevice s.tree s.nodes s'.tree s'.nodes := by
  have hw := WalkAt.root h.state hk
  have hslots := insertSlots_length hv
  have hqlen : (queryUnits hp.toCacheParams key).length =
    (alignedKey hp.toCacheParams key).len := length_units _
  have hunits : queryUnits hp.toCacheParams key = (alignedKey hp.toCacheParams key).units := rfl
  rw [← alignedKey_extraKey hp.toCacheParams key, hunits] at hprot
  set key' := alignedKey hp.toCacheParams key
  set slots := insertSlots hp.toCacheParams key (some value) with hslotsdef
  have hlen' : slots.length = key'.len := hslots.trans hqlen
  have hins : s.cache.insert hp key value prev chunked pick = if key'.len = 0 then .ok (0, s.cache)
    else insertLoop hp prev chunked pick (key'.len + 1) s.cache s.tree.rootNode key'
      slots 0 >>= _ := rfl
  rw [hins]
  by_cases hempty : key'.len = 0
  · have hnil : slots.drop prev = [] := drop_of_length_le (by omega)
    rw [hnil, pagesOf_nil, Multiset.coe_nil, add_zero] at howned
    exact ⟨0, s, if_pos hempty, .refl, .of_eq rfl rfl rfl howned, .refl _ _⟩
  · rw [if_neg hempty]
    obtain ⟨n, k, m, s1, hrun, hwalked⟩ := insertLoop_spec prev hprev m0 chunked pick
      (key'.len + 1) s s.tree.rootNode key' slots [] [] o h hw h.tree.core.root_device hprot hlen'
      hlaid howned (lt_succ_self _)
    rw [length_nil, zero_add] at hrun
    rw [hrun]
    have hlen := hwalked.len
    have howned1 := hwalked.owned
    rw [length_nil, zero_add] at howned1
    obtain ⟨v, hwn⟩ := hwalked.walk
    have h1 := hwalked.steps.inv h
    by_cases hpos : 0 < k.len
    · have hprot1 := hprot.keepsDevice hwalked.keeps
      have hunits1 : key'.units.take m ++ k.units = key'.units := hwalked.units
      rw [← hunits1, ← hwalked.ext] at hprot1
      have hle := hprot1.le_of_stuck h1.shape hwn hpos hprev (hwalked.stuck hpos)
      rw [length_take, length_units, min_eq_left (by omega)] at hle
      have hzero : prev - m = 0 := Nat.sub_eq_zero_of_le hle
      rw [hzero] at howned1
      have hrest : Laid hp.pageSize (slots.drop m) := by
        have hdrop : slots.drop m = (slots.drop prev).drop (m - prev) := by
          rw [drop_drop, Nat.add_sub_cancel' hle]
        rw [hdrop]
        exact hlaid.drop hp.pageSize_pos (dvd_sub hwalked.dvd hprev)
      have hrlen : (slots.drop m).length = k.len := by
        rw [length_drop]
        omega
      obtain ⟨s', hleaf, hsteps, hkept, hkeep⟩ := insertLeaf_spec h1 hwn hwalked.device hpos
        (hwalked.stuck hpos) hrlen hrest howned1 chunked (pick 0)
      refine ⟨m, s', ?_, hwalked.steps.trans hsteps, ?_, hwalked.keeps.trans hkeep⟩
      · simp only [bind, Except.bind, if_pos hpos, hleaf]
      · exact hwalked.kept.give hkept
    · have hnil : (slots.drop m).drop (prev - m) = [] := by
        rw [drop_drop]
        exact drop_of_length_le (by omega)
      rw [hnil, pagesOf_nil, Multiset.coe_nil, add_zero] at howned1
      refine ⟨m, s1, ?_, hwalked.steps, ?_, hwalked.keeps⟩
      · simp only [bind, Except.bind, if_neg hpos]
      · exact howned1 ▸ hwalked.kept

end Fluxfer.Unified
