import Fluxfer.Requests.Base
import Fluxfer.Requests.Owned

/-!
# What requests do to a `RadixCache`

One lemma for each function: it succeeds, keeps the invariant of the cache, and moves pages
between the private part of the request and the cache.
-/

namespace Fluxfer.Requests

open Radix Memory Pages ParentTree List Nat Req
open Multiset (coe_add coe_nil le_add_right nodup_of_le)

variable {n a b : Nat} {v kv : List Nat} {key : RadixKey} {t' t : RadixTree} {l : List KeyUnit}
  {r : Req} {m : MatchResult} {hs : List NodeId} {args : ServerArgs}
variable {p : CacheParams} {c c' c'' : RadixCache} {A A' A'' : Finset NodeId}

structure CacheInv (p : CacheParams) (c : RadixCache) (A : Finset NodeId) : Prop where
  base : BaseInv p c.tree A
  laid : ValuesLaid p.pageSize c.tree A
  ok : c.allocator.Ok p.pageSize

/-- `Moves`, to a cache that keeps its invariant. -/
structure Evolves (p : CacheParams) (c : RadixCache) (A : Finset NodeId) (c' : RadixCache)
    (A' : Finset NodeId) (g : Multiset Nat) : Prop extends Moves p c A c' A' g where
  inv : CacheInv p c' A'

theorem Evolves.trans {g g' : Multiset Nat} (h : Evolves p c A c' A' g)
    (k : Evolves p c' A' c'' A'' g') (hsub : A ⊆ A') : Evolves p c A c'' A'' (g + g') :=
  ⟨h.toMoves.trans k.toMoves hsub, k.inv⟩

section

variable (h : CacheInv p c A)
include h

theorem CacheInv.value_dvd : ∀ n ∈ A, p.pageSize ∣ (c.tree.deviceValue n).length := by
  intro n hn
  rw [h.base.value_length n hn, c.tree.length_seg]
  exact h.base.shape.len_dvd n hn

theorem CacheInv.path_laid {n : NodeId} (hn : n ∈ A)
    (hv : PathLabel c.tree.par c.tree.deviceValue n v) :
    Laid p.pageSize v ∧ p.pageSize ∣ v.length :=
  h.laid.path h.base.shape h.value_dvd hn hv

theorem CacheInv.free (hv : Laid p.pageSize v)
    (hnd : (cachePages p c A + (pagesOf p.pageSize v : Multiset Nat)).Nodup) :
    Evolves p c A { c with allocator := c.allocator.free v } A (pagesOf p.pageSize v) := by
  have hstarted := hv.started p.pageSize_pos
  have hndv : (pagesOf p.pageSize v).Nodup :=
    Multiset.coe_nodup.mp (nodup_of_le (Multiset.le_add_left _ _) hnd)
  refine ⟨⟨.refl _ _, ?_⟩, h.base, h.laid, h.ok.free hstarted⟩
  show (c.allocator.free v).pages + treePages p.pageSize c.tree A = _
  rw [Allocator.pages_free p.pageSize_pos h.ok hstarted hndv, cachePages]
  abel

theorem CacheInv.evict (hnd : (cachePages p c A).Nodup) (numTokens : Nat) (pick : Nat → Nat) :
    ∃ k c' A', c.evict p numTokens pick = .ok (k, c') ∧ Evolves p c A c' A' 0 ∧
      ∀ hs, HeldBy c.tree A hs → HeldBy c'.tree A' hs := by
  obtain ⟨k, c', A', hrun, hev⟩ := evict_spec h.base numTokens pick
  obtain ⟨hok, hpages⟩ := hev.pages_eq h.laid h.ok hnd
  refine ⟨k, c', A', hrun, ⟨⟨hev.keepsPaths _, ?_⟩, hev.baseInv h.base, hev.valuesLaid h.laid,
    hok⟩, fun _ hh => hev.heldBy hh⟩
  rw [add_zero]
  exact hpages

theorem CacheInv.evictFromTreeCache (hnd : (cachePages p c A).Nodup)
    (numTokens : Nat) (pick : Nat → Nat) :
    ∃ c' A', c.evictFromTreeCache p numTokens pick = .ok c' ∧ Evolves p c A c' A' 0 ∧
      ∀ hs, HeldBy c.tree A hs → HeldBy c'.tree A' hs := by
  unfold RadixCache.evictFromTreeCache
  split_ifs
  · obtain ⟨k, c', A', hrun, hev⟩ := h.evict hnd numTokens pick
    exact ⟨c', A', by rw [hrun]; rfl, hev⟩
  · exact ⟨c, A, rfl, ⟨.refl _ _ _, h⟩, fun _ hh => hh⟩

theorem CacheInv.matchPrefix (hk : key.isBigram = true → p.isEagle = true) :
    ∃ m t' A' l, c.tree.matchPrefix p key = .ok (m, t') ∧ A ⊆ A' ∧
      Evolves p c A { c with tree := t' } A' 0 ∧
      (∀ hs, HeldBy c.tree A hs → HeldBy t' A' hs) ∧
      AtEnd p t' A' key.extraKey (queryUnits p key) m.lastDeviceNode l ∧
      PathLabel t'.par t'.deviceValue m.lastDeviceNode m.deviceIndices ∧
      ∃ h' : BaseInv p t' A', h'.store = h.base.store := by
  obtain ⟨m, t', A', l, hrun, href, hend, hlabel⟩ := matchPrefix_spec h.base hk
  refine ⟨m, t', A', l, hrun, href.subset,
    ⟨⟨?_, ?_⟩, h.base.refines href, href.valuesLaid h.laid, h.ok⟩,
    fun _ hh => href.heldBy h.base.tree hh, hend, hlabel, _, h.base.store_refines href⟩
  · exact (href.keepsPaths h.base.tree).mono Set.inter_subset_left
  · rw [add_zero]
    exact congrArg _ (href.treePages_eq h.base.tree)

theorem CacheInv.relock {δ : NodeId → Int} (hinv : BaseInv p t' A)
    (hl : IsRelock c.tree t' δ) : Evolves p c A { c with tree := t' } A 0 := by
  have hvalue : ∀ n ∈ A, (t'.nodes n).value = (c.tree.nodes n).value := fun n _ => hl.value_eq n
  refine ⟨⟨hl.keepsPaths _, ?_⟩, hinv, h.laid.congr hvalue, h.ok⟩
  rw [add_zero]
  exact congrArg _ (treePages_congr p.pageSize hvalue)

end

/-! ## `cache_unfinished_req` -/

theorem slice_drop {l : List Nat} (hab : a ≤ b) : slice l a b ++ l.drop b = l.drop a := by
  unfold slice
  rcases le_total b l.length with hb | hb
  · rw [← drop_append_of_le_length (by rw [length_take]; omega), take_append_drop]
  · rw [take_of_length_le hb, drop_of_length_le hb, append_nil]

theorem slice_slice {l : List Nat} {d : Nat} (hab : a ≤ b) (hbd : b ≤ d) :
    slice l a b ++ slice l b d = slice l a d := by
  have h := slice_drop (l := l.take d) hab
  rwa [slice, take_take, min_eq_left hbd] at h

theorem slice_laid {l : List Nat} (h : Laid p.pageSize l) (ha : p.pageSize ∣ a) :
    Laid p.pageSize (slice l a b) :=
  (h.take p.pageSize_pos b).drop p.pageSize_pos ha

theorem CacheInv.insertAndFree (h : CacheInv p c A) {tokens : List Nat} {e : Option String}
    {n : NodeId} (hn : n ∈ A) (hns : n = c.tree.rootNode ∨ c.tree.ns n = e)
    (hl : PathLabel c.tree.par c.tree.seg n l) (hv : PathLabel c.tree.par c.tree.deviceValue n v)
    (hpre : l <+: keyUnits p tokens) (hkv : (cacheKey p tokens e).len ≤ kv.length)
    (hlaid : Laid p.pageSize kv)
    (hnd : (cachePages p c A +
      (pagesOf p.pageSize (slice kv l.length (cacheKey p tokens e).len) : Multiset Nat)).Nodup)
    (chunked : Bool) :
    ∃ c' A', c.insertAndFree p (cacheKey p tokens e) kv l.length chunked = .ok c' ∧ A ⊆ A' ∧
      Evolves p c A c' A' (pagesOf p.pageSize (slice kv l.length (cacheKey p tokens e).len)) ∧
      (∀ hs, HeldBy c.tree A hs → HeldBy c'.tree A' hs) ∧
      ∃ (h' : BaseInv p c'.tree A') (s : List Nat),
        h'.store.holds e (queryUnits p (cacheKey p tokens e)) s := by
  have hld : p.pageSize ∣ l.length := h.base.shape.trie.label_dvd hn hl
  obtain ⟨hle, htake⟩ := prefix_cacheKey (e := e) hpre hld
  have hqlen := length_queryUnits_cacheKey (p := p) tokens e
  have hvlen : (cacheKey p tokens e).len ≤ (kv.take (cacheKey p tokens e).len).length := by
    rw [length_take]
    omega
  obtain ⟨m, t', A', s, hrun, hins, hlong, hinv, hstore⟩ := insert_spec h.base
    (fun hb => (cacheKey_isBigram tokens e).symm.trans hb) (enoughSlots_cacheKey hvlen) chunked
  have hfull : ∃ s, hinv.store.holds e (queryUnits p (cacheKey p tokens e)) s := by
    have hd : p.pageSize ∣ (queryUnits p (cacheKey p tokens e)).length := by
      rw [hqlen]
      exact cacheKey_dvd tokens e
    have hholds : ∃ s, hinv.store.holds (cacheKey p tokens e).extraKey
        (queryUnits p (cacheKey p tokens e)) s := by
      rw [hstore]
      exact PrefixStore.exists_holds_insert hd hlong
    rwa [cacheKey_extraKey] at hholds
  rw [cacheKey_extraKey] at hlong
  set key := cacheKey p tokens e with hkey
  have hslots : insertSlots p key (some (kv.take key.len)) = kv.take key.len := by
    rw [insertSlots_cacheKey, take_take, min_self]
  rw [hslots] at hins
  -- what the request has locked is stored
  have hlm : l.length ≤ m := by
    apply hlong.max l.length v (by rw [hqlen]; exact hle)
    rw [htake]
    exact h.base.holds_path hn hns hl hv
  have hmk : m ≤ key.len := hqlen ▸ hlong.le
  have hmd := hlong.dvd
  have hparts : slice kv l.length m ++ slice kv m key.len = slice kv l.length key.len :=
    slice_slice hlm hmk
  have hfreeLaid : Laid p.pageSize (slice kv l.length m) := slice_laid hlaid hld
  have hleafLaid : Laid p.pageSize ((kv.take key.len).drop m) := slice_laid hlaid hmd
  have htree := hins.treePages_eq h.base.tree (by
    rw [length_take]
    omega)
  have hnewInv : CacheInv p { c with tree := t' } A' :=
    ⟨hinv, hins.valuesLaid h.laid hleafLaid, h.ok⟩
  have hpages : cachePages p { c with tree := t' } A' +
      (pagesOf p.pageSize (slice kv l.length m) : Multiset Nat) =
      cachePages p c A + (pagesOf p.pageSize (slice kv l.length key.len) : Multiset Nat) := by
    rw [← hparts, pagesOf_append, ← coe_add]
    show c.allocator.pages + treePages p.pageSize t' A' + _ = _
    rw [htree, cachePages]
    show _ = _ + (_ + (pagesOf p.pageSize ((kv.take key.len).drop m) : Multiset Nat))
    abel
  have hfree := hnewInv.free hfreeLaid (by rwa [hpages])
  refine ⟨_, A', ?_, hins.subset, ⟨⟨?_, ?_⟩, hfree.inv⟩,
    fun hs hh => hins.heldBy h.base.tree hh, hinv, hfull⟩
  · unfold RadixCache.insertAndFree
    simp only [hrun, bind, Except.bind]
  · exact (hins.keepsPaths h.base.tree).mono (Set.inter_subset_left)
  · rw [hfree.pages, hpages]

theorem overwrite_eq {row new : List Nat} (hn : n ≤ new.length) (h : row.take n = new.take n) :
    overwrite row new n = new ++ row.drop new.length := by
  unfold overwrite
  rw [h, take_append_drop, max_eq_right hn]

theorem pagesOf_private (hn : r.cacheProtectedLen ≤ n) :
    (pagesOf p.pageSize r.privateSlots : Multiset Nat) =
      pagesOf p.pageSize (slice r.row r.cacheProtectedLen n) +
        pagesOf p.pageSize (r.row.drop n) := by
  rw [coe_add, ← pagesOf_append, slice_drop hn, privateSlots]

/-- The node at which all of the key of `cache_unfinished_req` is found. -/
structure FoundAt (p : CacheParams) (t : RadixTree) (A : Finset NodeId) (r : Req)
    (key : RadixKey) (m : MatchResult) : Prop where
  mem : m.lastDeviceNode ∈ A
  ns : m.lastDeviceNode = t.rootNode ∨ t.ns m.lastDeviceNode = r.extraKey
  seg : PathLabel t.par t.seg m.lastDeviceNode (queryUnits p key)
  value : PathLabel t.par t.deviceValue m.lastDeviceNode m.deviceIndices
  length_eq : m.deviceIndices.length = key.len
  /-- the slots of the protected part stay the same -/
  take_eq : m.deviceIndices.take r.cacheProtectedLen = r.row.take r.cacheProtectedLen

theorem CacheInv.insertThenMatch (h : CacheInv p c A) (hr : ReqInv p c.tree A r l v)
    (hrun : r.Running)
    (hnd : (cachePages p c A + (pagesOf p.pageSize r.privateSlots : Multiset Nat)).Nodup)
    (chunked : Bool) (hkey : key = cacheKey p r.fillIds r.extraKey) :
    ∃ c1 m t' A', c.insertAndFree p key (r.row.take r.fillIds.length) r.cacheProtectedLen chunked =
        .ok c1 ∧ c1.tree.matchPrefix p key = .ok (m, t') ∧ A ⊆ A' ∧
      Evolves p c A { c1 with tree := t' } A'
        (pagesOf p.pageSize (slice r.row r.cacheProtectedLen key.len)) ∧
      (∀ hs, HeldBy c.tree A hs → HeldBy t' A' hs) ∧ FoundAt p t' A' r key m := by
  subst hkey
  set key := cacheKey p r.fillIds r.extraKey with hkey
  have hkfill : key.len ≤ r.fillIds.length :=
    (cacheKey_len_le _ _).trans (length_keyUnits_le _)
  have hkrow : key.len ≤ r.row.length := hkfill.trans hrun.2
  have hld : p.pageSize ∣ l.length := h.base.shape.trie.label_dvd hr.mem hr.seg
  obtain ⟨hlk, htake⟩ := prefix_cacheKey hr.pre hld
  have hslice : slice (r.row.take r.fillIds.length) l.length key.len =
      slice r.row r.cacheProtectedLen key.len := by
    rw [slice, slice, take_take, min_eq_left hkfill, hr.protected_eq]
  have hpriv := pagesOf_private (p := p) (hr.protected_eq ▸ hlk)
  obtain ⟨c1, A1, hins, hsub1, hev1, hheld1, hinv1, s, hstored⟩ :=
    h.insertAndFree hr.mem hr.ns hr.seg hr.value hr.pre
      (by rw [length_take]; exact le_min hkfill hkrow)
      (hr.laid.take p.pageSize_pos r.fillIds.length)
      (by
        rw [hslice]
        refine nodup_of_le ?_ hnd
        rw [hpriv, ← add_assoc]
        exact le_add_right _ _) chunked
  rw [hslice] at hev1
  obtain ⟨m, t2, A2, l2, hmatch, hsub2, hev2, hheld2, hend, hlabel, hinv2, hstore2⟩ :=
    hev1.inv.matchPrefix fun hb => (cacheKey_isBigram r.fillIds r.extraKey).symm.trans hb
  have hqlen : (queryUnits p key).length = key.len := length_queryUnits_cacheKey _ _
  have hlong := hend.isLongest hinv2 hlabel
  rw [cacheKey_extraKey] at hlong hend
  -- what has been inserted is found
  have hfull : key.len ≤ l2.length := by
    rw [← hqlen]
    apply hlong.max _ s le_rfl
    rw [take_length, hstore2]
    exact hstored
  have hl2 : l2 = queryUnits p key := hend.pre.eq_of_length_le (hqlen.trans_le hfull)
  subst hl2
  have hmem1 : r.lastNode ∈ A1 := hsub1 hr.mem
  have hr2 : ReqInv p t2 A2 r l v :=
    (hr.keep hev1.keeps ⟨hr.mem, hmem1⟩ hmem1).keep hev2.keeps ⟨hmem1, hsub2 hmem1⟩ (hsub2 hmem1)
  have hvnew : v = m.deviceIndices.take l.length := by
    apply hlong.slots_eq (by rw [hqlen]; exact hlk)
    rw [htake]
    exact hinv2.holds_path hr2.mem hr2.ns hr2.seg hr2.value
  have hvrow := prefix_iff_eq_take.mp (hr.value_prefix hrun.1)
  rw [hr.length_eq] at hvrow
  have hev := hev1.trans hev2 hsub1
  rw [add_zero] at hev
  rw [← hr.protected_eq] at hins
  exact ⟨c1, m, t2, A2, hins, hmatch, hsub1.trans hsub2, hev,
    fun hs hh => hheld2 hs (hheld1 hs hh), hend.mem, hend.ns, hend.label, hlabel,
    hlong.length_eq.trans hqlen, by rw [hr.protected_eq, ← hvnew, ← hvrow]⟩

theorem FoundAt.row_eq (h : FoundAt p t A r key m) (hprot : r.cacheProtectedLen ≤ key.len) :
    (r.stashed m.deviceIndices m.lastDeviceNode).row = m.deviceIndices ++ r.row.drop key.len := by
  show overwrite _ _ _ = _
  rw [overwrite_eq (h.length_eq ▸ hprot) h.take_eq.symm, h.length_eq]

theorem FoundAt.reqInv (h : FoundAt p t' A' r (cacheKey p r.fillIds r.extraKey) m)
    (hi : CacheInv p c' A') (ht : c'.tree = t') (hr : ReqInv p t A r l v) (hrun : r.Running)
    (hprot : r.cacheProtectedLen ≤ (cacheKey p r.fillIds r.extraKey).len) :
    ReqInv p t' A' (r.stashed m.deviceIndices m.lastDeviceNode)
      (queryUnits p (cacheKey p r.fillIds r.extraKey)) m.deviceIndices := by
  subst ht
  set r' := r.stashed m.deviceIndices m.lastDeviceNode with hr'
  have hrow := h.row_eq hprot
  have hlaid := hi.path_laid h.mem h.value
  have hkfill := (cacheKey_len_le (p := p) r.fillIds r.extraKey).trans (length_keyUnits_le _)
  set key := cacheKey p r.fillIds r.extraKey
  have hlen : r'.row.length = r.row.length := by
    rw [hrow, length_append, length_drop, h.length_eq]
    have := hrun.2
    omega
  have hnewrow : m.deviceIndices <+: r'.row := by
    rw [hrow]
    exact prefix_append _ _
  have hplen : m.deviceIndices.length = (queryUnits p key).length := by
    rw [h.length_eq, length_queryUnits_cacheKey]
  refine ⟨h.mem, h.ns, h.seg, h.value, hplen, hplen, ?_, hr.fill, Or.inr ⟨hnewrow, ?_⟩, hlaid.1,
    ?_, ?_, ?_⟩
  · rw [queryUnits_cacheKey]
    exact take_prefix _ _
  · show (if _ then _ else _) <+: _
    split_ifs
    · -- the row up to the length of `fill_ids`
      have hpre := prefix_take_iff.mpr ⟨hnewrow, h.length_eq ▸ hkfill⟩
      show m.deviceIndices ++ (r'.row.take r.fillIds.length).drop _ <+: _
      rw [prefix_iff_eq_append.mp hpre]
      exact take_prefix _ _
    · exact hnewrow
  · rw [hrow]
    exact hlaid.1.append p.pageSize_pos hlaid.2 (hr.laid.drop p.pageSize_pos (cacheKey_dvd _ _))
  · rw [hlen]
    exact hr.committed_le
  · intro _ hle
    exact hr.committed_ge hrun.1 hrun.2

theorem CacheInv.cacheUnfinishedReq (h : CacheInv p c A) (hr : ReqInv p c.tree A r l v)
    (hrun : r.Running) (hh : HeldBy c.tree A (r.lastNode :: hs))
    (hnd : (cachePages p c A + (pagesOf p.pageSize r.privateSlots : Multiset Nat)).Nodup)
    (chunked : Bool) :
    ∃ r' c' A' l' v' g, c.cacheUnfinishedReq p r chunked = .ok (r', c') ∧ A ⊆ A' ∧
      Evolves p c A c' A' g ∧ HeldBy c'.tree A' (r'.lastNode :: hs) ∧
      ReqInv p c'.tree A' r' l' v' ∧
      (pagesOf p.pageSize r.privateSlots : Multiset Nat) =
        g + pagesOf p.pageSize r'.privateSlots := by
  obtain ⟨hprot, _⟩ := prefix_cacheKey hr.pre
    (h.base.shape.trie.label_dvd hr.mem hr.seg)
  rw [← hr.protected_eq] at hprot
  obtain ⟨c1, m, t2, A2, hins, hmatch, hsub, hev2, hheld, hfound⟩ :=
    h.insertThenMatch hr hrun hnd chunked rfl
  obtain ⟨d3, t3, hdec, hinv3, hheld3, hl3⟩ :=
    decLockRef_spec hev2.inv.base (hheld _ hh) mem_cons_self
  rw [erase_cons_head] at hheld3
  obtain ⟨d4, t4, hinc, hinv4, hheld4, hl4⟩ := incLockRef_spec hinv3 hheld3 hfound.mem
  have hev3 : Evolves p _ A2 { c1 with tree := t3 } A2 0 := hev2.inv.relock hinv3 hl3
  have hev4 : Evolves p _ A2 { c1 with tree := t4 } A2 0 := hev3.inv.relock hinv4 hl4
  have hev := (hev2.trans hev3 hsub).trans hev4 hsub
  rw [add_zero, add_zero] at hev
  have hreq := ((hfound.reqInv hev2.inv rfl hr hrun hprot).keep (hl3.keepsPaths Set.univ)
    trivial hfound.mem).keep (hl4.keepsPaths Set.univ) trivial hfound.mem
  refine ⟨r.stashed m.deviceIndices m.lastDeviceNode, _, A2, _, m.deviceIndices, _, ?_, hsub, hev,
    hheld4, hreq, ?_⟩
  · unfold RadixCache.cacheUnfinishedReq
    simp only [hins, hmatch, hfound.length_eq, hdec, hinc, bind, Except.bind, ne_eq,
      not_true_eq_false, if_false]
  · rw [pagesOf_private hprot, privateSlots, hfound.row_eq hprot]
    show _ = _ + (pagesOf p.pageSize (drop m.deviceIndices.length _) : Multiset Nat)
    rw [drop_left]

/-! ## `release_kv_cache` -/

/-- The tokens that `cache_finished_req` caches. -/
def Req.releaseKey (p : CacheParams) (args : ServerArgs) (r : Req) : RadixKey :=
  cacheKey p (r.tokenIds.take (r.cacheCommitLen args)) r.extraKey

/-- What a release expects: all of `fill_ids` has its slots, the committed tokens are known, and
without speculative decoding nothing more is allocated. -/
structure Req.Releasable (args : ServerArgs) (r : Req) : Prop where
  running : r.Running
  committed_le : r.kvCommittedLen ≤ r.tokenIds.length
  exact_len : args.speculative = false → args.stripThinkingCache = false →
    r.kvCommittedLen = r.row.length

instance (args : ServerArgs) (r : Req) : Decidable (r.Releasable args) :=
  decidable_of_iff (r.Running ∧ r.kvCommittedLen ≤ r.tokenIds.length ∧
      (args.speculative = false → args.stripThinkingCache = false →
        r.kvCommittedLen = r.row.length))
    ⟨fun h => ⟨h.1, h.2.1, h.2.2⟩, fun h => ⟨h.running, h.committed_le, h.exact_len⟩⟩

/-- Where stripping shortens the key of a release, it still covers the protected part. -/
def Req.StripCovers (p : CacheParams) (args : ServerArgs) (r : Req) : Prop :=
  args.stripThinkingCache = true → 0 < r.reasoningTokens →
    r.cacheProtectedLen ≤ (r.releaseKey p args).len

instance (p : CacheParams) (args : ServerArgs) (r : Req) : Decidable (r.StripCovers p args) :=
  inferInstanceAs (Decidable (_ → _ → _))

theorem ReqInv.protected_le_releaseKey (h : ReqInv p t A r l v) (hshape : ShapeOn p t A)
    (hrel : r.Releasable args) (hcov : r.StripCovers p args) :
    r.cacheProtectedLen ≤ (r.releaseKey p args).len := by
  by_cases hstrip : args.stripThinkingCache = true ∧ 0 < r.reasoningTokens
  · exact hcov hstrip.1 hstrip.2
  · -- without stripping everything committed is cached
    have hlen : r.cacheCommitLen args = r.kvCommittedLen := by
      rw [cacheCommitLen, if_neg (by simpa using hstrip)]
    have hge := h.committed_ge hrel.running.1 hrel.running.2
    have hfill := prefix_take_iff.mpr ⟨h.fill, hlen ▸ hge⟩
    rw [h.protected_eq]
    exact (prefix_cacheKey (h.pre.trans (keyUnits_isPrefix hfill))
      (hshape.trie.label_dvd h.mem h.seg)).1

theorem ReqInv.prefix_release (h : ReqInv p t A r l v)
    (hle : r.cacheProtectedLen ≤ (r.releaseKey p args).len) :
    l <+: keyUnits p (r.tokenIds.take (r.cacheCommitLen args)) := by
  have hl : l <+: keyUnits p r.tokenIds := h.pre.trans (keyUnits_isPrefix h.fill)
  have hk : keyUnits p (r.tokenIds.take (r.cacheCommitLen args)) <+: keyUnits p r.tokenIds :=
    keyUnits_isPrefix ( take_prefix _ _)
  apply prefix_of_prefix_length_le hl hk
  rw [← h.protected_eq]
  exact hle.trans (cacheKey_len_le _ _)

theorem Req.cacheCommitLen_le (args : ServerArgs) (r : Req) :
    r.cacheCommitLen args ≤ r.kvCommittedLen := by
  unfold cacheCommitLen
  split_ifs
  · exact min_le_left _ _
  · exact le_rfl

/-- The part of the row between the committed tokens and the next page has no page of its own:
what is freed as over-allocated and what is cached or freed before are all of the pages. -/
theorem pagesOf_release {k : Nat} (hlaid : Laid p.pageSize r.row) (hk : r.cacheProtectedLen ≤ k)
    (hn : k ≤ n) :
    (pagesOf p.pageSize r.privateSlots : Multiset Nat) =
      pagesOf p.pageSize (slice r.row r.cacheProtectedLen k) +
        pagesOf p.pageSize (slice r.row k n) +
        pagesOf p.pageSize (r.row.drop (numPages p.pageSize n * p.pageSize)) := by
  have hgap : pagesOf p.pageSize (slice r.row n (numPages p.pageSize n * p.pageSize)) = [] :=
    hlaid.pagesOf_gap p.pageSize_pos n
  have hrest : r.row.drop n = slice r.row n (numPages p.pageSize n * p.pageSize) ++
      r.row.drop (numPages p.pageSize n * p.pageSize) :=
    (slice_drop (le_numPages_mul p.pageSize_pos)).symm
  rw [pagesOf_private (hk.trans hn), ← slice_slice hk hn, hrest, pagesOf_append, pagesOf_append,
    hgap, nil_append, ← coe_add]

/-- Both branches of `cache_finished_req`: the tree or the allocator takes the slots that the
key covers. -/
theorem CacheInv.insertOrFree (h : CacheInv p c A) (hr : ReqInv p c.tree A r l v)
    (hle : r.cacheProtectedLen ≤ (r.releaseKey p args).len)
    (hkv : (r.releaseKey p args).len ≤ kv.length) (hlaid : Laid p.pageSize kv)
    (hnd : (cachePages p c A + (pagesOf p.pageSize
      (slice kv r.cacheProtectedLen (r.releaseKey p args).len) : Multiset Nat)).Nodup)
    (isInsert : Bool) :
    ∃ c' A', c.insertOrFree p (r.releaseKey p args) kv r.cacheProtectedLen isInsert = .ok c' ∧
      A ⊆ A' ∧ Evolves p c A c' A'
        (pagesOf p.pageSize (slice kv r.cacheProtectedLen (r.releaseKey p args).len)) ∧
      ∀ hs, HeldBy c.tree A hs → HeldBy c'.tree A' hs := by
  have hld : p.pageSize ∣ r.cacheProtectedLen := by
    rw [hr.protected_eq]
    exact h.base.shape.trie.label_dvd hr.mem hr.seg
  cases isInsert with
  | true =>
    have hpre := hr.prefix_release hle
    rw [hr.protected_eq] at hnd ⊢
    obtain ⟨c', A', hins, hsub, hev, hheld, _⟩ :=
      h.insertAndFree hr.mem hr.ns hr.seg hr.value hpre hkv hlaid hnd false
    exact ⟨c', A', hins, hsub, hev, hheld⟩
  | false => exact ⟨_, A, rfl, subset_rfl, h.free (slice_laid hlaid hld) hnd, fun _ hh => hh⟩

theorem CacheInv.cacheFinishedReq (h : CacheInv p c A) (hr : ReqInv p c.tree A r l v)
    (hcommit : r.kvCommittedLen ≤ r.tokenIds.length)
    (hle : r.cacheProtectedLen ≤ (r.releaseKey p args).len)
    (hh : HeldBy c.tree A (r.lastNode :: hs))
    (hnd : (cachePages p c A + (pagesOf p.pageSize r.privateSlots : Multiset Nat)).Nodup)
    (isInsert : Bool) :
    ∃ c' A', c.cacheFinishedReq p args r isInsert = .ok c' ∧ A ⊆ A' ∧
      Evolves p c A c' A'
        (pagesOf p.pageSize (slice r.row r.cacheProtectedLen (r.releaseKey p args).len) +
          pagesOf p.pageSize (slice r.row (r.releaseKey p args).len (r.cacheCommitLen args))) ∧
      HeldBy c'.tree A' hs := by
  have hn : r.cacheCommitLen args ≤ r.kvCommittedLen := r.cacheCommitLen_le args
  have htokens : (r.tokenIds.take (r.cacheCommitLen args)).length = r.cacheCommitLen args := by
    rw [length_take]
    omega
  have hkn : (r.releaseKey p args).len ≤ r.cacheCommitLen args :=
    (cacheKey_len_le _ _).trans ((length_keyUnits_le _).trans htokens.le)
  have hnrow := hr.committed_le
  have hslice : slice (r.row.take (r.cacheCommitLen args)) r.cacheProtectedLen
      (r.releaseKey p args).len = slice r.row r.cacheProtectedLen (r.releaseKey p args).len := by
    rw [slice, slice, take_take, min_eq_left hkn]
  have hpriv := pagesOf_release hr.laid hle hkn
  rw [hpriv] at hnd
  obtain ⟨c1, A1, hrun1, hsub1, hev1, hheld1⟩ :=
    h.insertOrFree hr hle (by rw [length_take]; exact le_min hkn (hkn.trans (hn.trans hnrow)))
      (hr.laid.take p.pageSize_pos (r.cacheCommitLen args))
      (by
        rw [hslice]
        refine nodup_of_le ?_ hnd
        rw [add_assoc, ← add_assoc]
        exact le_add_right _ _) (isInsert && !args.disableFinishedInsert)
  rw [hslice] at hev1
  -- the rest of the committed tokens
  have hev2 := hev1.inv.free (slice_laid hr.laid (cacheKey_dvd _ _))
    (by
      rw [hev1.pages]
      refine nodup_of_le ?_ hnd
      rw [← add_assoc, ← add_assoc]
      exact le_add_right _ _)
  obtain ⟨d, t3, hdec, hinv3, hheld3, hl3⟩ :=
    decLockRef_spec hev2.inv.base (hheld1 _ hh) mem_cons_self
  rw [erase_cons_head] at hheld3
  have hev := (hev1.trans hev2 hsub1).trans (hev2.inv.relock hinv3 hl3) hsub1
  rw [add_zero] at hev
  refine ⟨_, A1, ?_, hsub1, hev, hheld3⟩
  unfold RadixCache.cacheFinishedReq
  unfold releaseKey at hrun1
  have hdec' : c1.tree.decLockRef r.lastNode = .ok (d, t3) := hdec
  simp only [htokens, hrun1, hdec', bind, Except.bind]
  rfl

theorem roundUp_eq (p : CacheParams) (n : Nat) :
    (if 1 < p.pageSize then numPages p.pageSize n * p.pageSize else n) =
      numPages p.pageSize n * p.pageSize := by
  split_ifs with h1
  · rfl
  · have hone : p.pageSize = 1 := by
      have := p.pageSize_pos
      omega
    simp [hone, numPages]

theorem Req.Releasable.not_overallocated (h : r.Releasable args) :
    ¬ ((!args.speculative && !args.stripThinkingCache &&
      r.cacheCommitLen args != r.row.length) = true) := by
  simp only [Bool.and_eq_true, Bool.not_eq_true', bne_iff_ne, not_and, not_not]
  intro ⟨hspec, hstrip⟩
  rw [← h.exact_len hspec hstrip, cacheCommitLen, if_neg (by simp [hstrip])]

theorem CacheInv.releaseKvCache (h : CacheInv p c A) (hr : ReqInv p c.tree A r l v)
    (hrel : r.Releasable args) (hcov : r.StripCovers p args)
    (hh : HeldBy c.tree A (r.lastNode :: hs))
    (hnd : (cachePages p c A + (pagesOf p.pageSize r.privateSlots : Multiset Nat)).Nodup)
    (isInsert : Bool) :
    ∃ c' A', c.releaseKvCache p args r isInsert = .ok c' ∧ A ⊆ A' ∧
      Evolves p c A c' A' (pagesOf p.pageSize r.privateSlots) ∧ HeldBy c'.tree A' hs := by
  have hle := hr.protected_le_releaseKey h.base.shape hrel hcov
  obtain ⟨c1, A1, hrun, hsub, hev, hheld⟩ :=
    h.cacheFinishedReq hr hrel.committed_le hle hh hnd isInsert
  have hkn : (r.releaseKey p args).len ≤ r.cacheCommitLen args := by
    refine (cacheKey_len_le _ _).trans ((length_keyUnits_le _).trans ?_)
    rw [length_take]
    exact min_le_left _ _
  have hpriv := pagesOf_release hr.laid hle hkn
  have hround := roundUp_eq p (r.cacheCommitLen args)
  have hassert := hrel.not_overallocated
  unfold RadixCache.releaseKvCache
  simp only [hrun, hround, if_neg hassert]
  set startP := numPages p.pageSize (r.cacheCommitLen args) * p.pageSize with hstart
  split_ifs with hlt
  · have hslice : slice r.row startP r.row.length = r.row.drop startP := by
      rw [slice, take_length]
    have hlaid : Laid p.pageSize (slice r.row startP r.row.length) :=
      slice_laid hr.laid (Dvd.intro_left _ rfl)
    have hev2 := hev.inv.free hlaid (by
      rw [hev.pages, hslice, add_assoc, ← hpriv]
      exact hnd)
    have hev' := hev.trans hev2 hsub
    refine ⟨_, A1, rfl, hsub, ?_, hheld⟩
    rwa [hslice, ← hpriv, ← hslice] at hev'
  · rw [drop_of_length_le (Nat.le_of_not_lt hlt), pagesOf_nil, coe_nil, add_zero] at hpriv
    rw [← hpriv] at hev
    exact ⟨c1, A1, rfl, hsub, hev, hheld⟩

end Fluxfer.Requests
