import Fluxfer.Requests.Keys

/-!
# Pages owned by allocator, tree and requests

`ReqInv` is what a request knows about the tree: the path of the node it has locked spells out the
first `cache_protected_len` units of its tokens, and the slots on that path are the first slots of
its row. `Owned` is the account of all pages.
-/

namespace Fluxfer.Requests

open Radix Memory Pages ParentTree List Prod Allocator Req

variable {p : CacheParams} {c c' c'' : RadixCache} {A A' A'' : Finset NodeId}

/-- The pages of allocator and tree. -/
noncomputable def cachePages (p : CacheParams) (c : RadixCache) (A : Finset NodeId) :
    Multiset Nat :=
  c.allocator.pages + treePages p.pageSize c.tree A

structure Moves (p : CacheParams) (c : RadixCache) (A : Finset NodeId) (c' : RadixCache)
    (A' : Finset NodeId) (g : Multiset Nat) : Prop where
  keeps : KeepsPaths c.tree c'.tree (A ∩ A')
  pages : cachePages p c' A' = cachePages p c A + g

theorem Moves.refl (p : CacheParams) (c : RadixCache) (A : Finset NodeId) : Moves p c A c A 0 :=
  ⟨.refl _ _, (add_zero _).symm⟩

theorem Moves.trans {g g' : Multiset Nat} (h : Moves p c A c' A' g)
    (k : Moves p c' A' c'' A'' g') (hsub : A ⊆ A') : Moves p c A c'' A'' (g + g') := by
  refine ⟨?_, ?_⟩
  · have hA : (A ∩ A'' : Set NodeId) ⊆ (A ∩ A' : Set NodeId) :=
      fun n hn => ⟨hn.1, hsub hn.1⟩
    exact (h.keeps.mono hA).trans k.keeps fun n hn => ⟨hsub hn.1, hn.2⟩
  · rw [k.pages, h.pages, add_assoc]

/-! ## Requests -/

/-- What a request with the path `l`, with the slots `v`, knows. -/
structure ReqInv (p : CacheParams) (t : RadixTree) (A : Finset NodeId)
    (r : Req) (l : List KeyUnit) (v : List Nat) : Prop where
  mem : r.lastNode ∈ A
  ns : r.lastNode = t.rootNode ∨ t.ns r.lastNode = r.extraKey
  seg : PathLabel t.par t.seg r.lastNode l
  value : PathLabel t.par t.deviceValue r.lastNode v
  protected_eq : r.cacheProtectedLen = l.length
  length_eq : v.length = l.length
  pre : l <+: keyUnits p r.fillIds
  fill : r.fillIds <+: r.tokenIds
  /-- the row is empty until the first allocation -/
  place : (r.row = [] ∧ r.prefixIndices = v) ∨ (v <+: r.row ∧ r.prefixIndices <+: r.row)
  pathLaid : Laid p.pageSize v
  laid : Laid p.pageSize r.row
  committed_le : r.kvCommittedLen ≤ r.row.length
  committed_ge : r.row ≠ [] → r.fillIds.length ≤ r.row.length →
    r.fillIds.length ≤ r.kvCommittedLen

section ReqInv

variable {t t' : RadixTree} {r : Req} {l : List KeyUnit} {v : List Nat}

theorem ReqInv.keep {B : Set NodeId} (h : ReqInv p t A r l v) (hk : KeepsPaths t t' B)
    (hB : r.lastNode ∈ B) (hA' : r.lastNode ∈ A') : ReqInv p t' A' r l v :=
  { h with
    mem := hA'
    ns := by
      rw [hk.root_eq, hk.ns _ hB]
      exact h.ns
    seg := hk.seg _ hB l h.seg
    value := hk.value _ hB v h.value }

theorem ReqInv.value_prefix (h : ReqInv p t A r l v) (hrow : r.row ≠ []) : v <+: r.row := by
  rcases h.place with ⟨hnil, _⟩ | ⟨hv, _⟩
  · exact absurd hnil hrow
  · exact hv

theorem ReqInv.protected_le_row (h : ReqInv p t A r l v) (hrow : r.row ≠ []) :
    r.cacheProtectedLen ≤ r.row.length := by
  rw [h.protected_eq, ← h.length_eq]
  exact (h.value_prefix hrow).length_le

end ReqInv

/-- The pages of the private parts of the requests. -/
def privatePages (ps : Nat) (reqs : List Req) : Multiset Nat :=
  (reqs.map fun r => (pagesOf ps r.privateSlots : Multiset Nat)).sum

theorem privatePages_insert (ps : Nat) (pre post : List Req) (r : Req) :
    privatePages ps (pre ++ r :: post) =
      privatePages ps (pre ++ post) + (pagesOf ps r.privateSlots : Multiset Nat) := by
  simp only [privatePages, map_append, map_cons, sum_append, sum_cons]
  abel

theorem lastNodes_perm (pre post : List Req) (r : Req) (others : List NodeId) :
    ((pre ++ r :: post).map lastNode ++ others).Perm
      (r.lastNode :: ((pre ++ post).map lastNode ++ others)) := by
  rw [map_append, map_cons, map_append, append_assoc, append_assoc]
  exact perm_middle

/-- The `N` pages of the pool are those of the cache and of the private parts. The nodes
`others` are locked for other reasons than requests. -/
structure Owned (p : CacheParams) (N : Nat) (c : RadixCache) (A : Finset NodeId)
    (reqs : List Req) (others : List NodeId) : Prop where
  held : HeldBy c.tree A (reqs.map lastNode ++ others)
  req : ∀ r ∈ reqs, ∃ l v, ReqInv p c.tree A r l v
  pages : cachePages p c A + privatePages p.pageSize reqs = (range' 1 N : Multiset Nat)

namespace Owned

variable {N : Nat} {reqs pre post : List Req} {r r' : Req} {others others' : List NodeId}
  {g : Multiset Nat}

theorem nodup (h : Owned p N c A reqs others) :
    (cachePages p c A + privatePages p.pageSize reqs).Nodup := by
  rw [h.pages]
  exact Multiset.coe_nodup.mpr nodup_range'

theorem nodup_cache (h : Owned p N c A reqs others) : (cachePages p c A).Nodup :=
  Multiset.nodup_of_le (Multiset.le_add_right _ _) h.nodup

theorem nodup_private (h : Owned p N c A (pre ++ r :: post) others) :
    (cachePages p c A + (pagesOf p.pageSize r.privateSlots : Multiset Nat)).Nodup := by
  refine Multiset.nodup_of_le ?_ h.nodup
  rw [privatePages_insert]
  exact Multiset.add_le_add_left (Multiset.le_add_left _ _)

theorem held_cons (h : Owned p N c A (pre ++ r :: post) others) :
    HeldBy c.tree A (r.lastNode :: ((pre ++ post).map lastNode ++ others)) :=
  h.held.perm (lastNodes_perm _ _ _ _)

theorem req_moves (h : Owned p N c A reqs others) (hm : Moves p c A c' A' g)
    (hheld : ∀ r ∈ reqs, r.lastNode ∈ A') : ∀ r ∈ reqs, ∃ l v, ReqInv p c'.tree A' r l v := by
  intro r hr
  obtain ⟨l, v, hi⟩ := h.req r hr
  exact ⟨l, v, hi.keep hm.keeps ⟨hi.mem, hheld r hr⟩ (hheld r hr)⟩

theorem req_others (h : Owned p N c A (pre ++ r :: post) others) (hm : Moves p c A c' A' g)
    (hheld : HeldBy c'.tree A' ((pre ++ post).map lastNode ++ others')) :
    ∀ x ∈ pre ++ post, ∃ l v, ReqInv p c'.tree A' x l v := by
  intro x hx
  have hxA : x.lastNode ∈ A' := hheld.mem _ (mem_append_left _ (mem_map_of_mem hx))
  have hx' : x ∈ pre ++ r :: post := by
    rcases mem_append.mp hx with hx | hx
    · exact mem_append_left _ hx
    · exact mem_append_right _ (mem_cons_of_mem _ hx)
  obtain ⟨l, v, hi⟩ := h.req x hx'
  exact ⟨l, v, hi.keep hm.keeps ⟨hi.mem, hxA⟩ hxA⟩

theorem move (h : Owned p N c A reqs others) (hm : Moves p c A c' A' 0)
    (hheld : HeldBy c'.tree A' (reqs.map lastNode ++ others')) :
    Owned p N c' A' reqs others' := by
  refine ⟨hheld, ?_, ?_⟩
  · apply h.req_moves hm
    intro r hr
    exact hheld.mem _ (mem_append_left _ (mem_map_of_mem hr))
  · rw [hm.pages, add_zero]
    exact h.pages

theorem release (h : Owned p N c A (pre ++ r :: post) others)
    (hm : Moves p c A c' A' (pagesOf p.pageSize r.privateSlots))
    (hheld : HeldBy c'.tree A' ((pre ++ post).map lastNode ++ others)) :
    Owned p N c' A' (pre ++ post) others := by
  refine ⟨hheld, h.req_others hm hheld, ?_⟩
  rw [hm.pages, ← h.pages, privatePages_insert]
  abel

/-- A change of the cache and of one request, which gives the pages `g` to the cache. -/
theorem replace (h : Owned p N c A (pre ++ r :: post) others) (hm : Moves p c A c' A' g)
    (hheld : HeldBy c'.tree A' (r'.lastNode :: ((pre ++ post).map lastNode ++ others)))
    (hr' : ∃ l v, ReqInv p c'.tree A' r' l v)
    (hpages : (pagesOf p.pageSize r.privateSlots : Multiset Nat) =
      g + pagesOf p.pageSize r'.privateSlots) :
    Owned p N c' A' (pre ++ r' :: post) others := by
  have hall := hheld.perm (lastNodes_perm _ _ _ _).symm
  have hothers : ∀ x ∈ pre ++ post, ∃ l v, ReqInv p c'.tree A' x l v := by
    have hmid := hheld.perm perm_middle.symm
    exact h.req_others hm hmid
  refine ⟨hall, ?_, ?_⟩
  · intro x hx
    rcases mem_append.mp hx with hx | hx
    · exact hothers x (mem_append_left _ hx)
    · rcases mem_cons.mp hx with rfl | hx
      · exact hr'
      · exact hothers x (mem_append_right _ hx)
  · have hp := h.pages
    rw [privatePages_insert, hpages] at hp
    rw [privatePages_insert, hm.pages, ← hp]
    abel

theorem admitReq (h : Owned p N c A reqs others) (hm : Moves p c A c' A' 0)
    (hheld : HeldBy c'.tree A' (r.lastNode :: (reqs.map lastNode ++ others)))
    (hr : ∃ l v, ReqInv p c'.tree A' r l v) (hprivate : r.privateSlots = []) :
    Owned p N c' A' (reqs ++ [r]) others := by
  refine ⟨?_, ?_, ?_⟩
  · refine hheld.perm ?_
    rw [map_append, append_assoc]
    exact perm_middle.symm
  · have hold : ∀ x ∈ reqs, x.lastNode ∈ A' := fun x hx =>
      hheld.mem _ (mem_cons_of_mem _ (mem_append_left _ (mem_map_of_mem hx)))
    intro x hx
    rcases mem_append.mp hx with hx | hx
    · exact h.req_moves hm hold x hx
    · rw [mem_singleton.mp hx]
      exact hr
  · rw [privatePages_insert, append_nil, hprivate, hm.pages, add_zero, pagesOf_nil,
      Multiset.coe_nil, add_zero]
    exact h.pages

end Owned

/-! ## Slots for a batch -/

theorem exists_split {α : Type} {reqs : List α} {i : Nat} {r : α} (h : reqs[i]? = some r) :
    ∃ pre post, reqs = pre ++ r :: post ∧ (∀ f, reqs.modify i f = pre ++ f r :: post) ∧
      (∀ r', reqs.set i r' = pre ++ r' :: post) ∧ reqs.eraseIdx i = pre ++ post := by
  obtain ⟨hi, rfl⟩ := List.getElem?_eq_some_iff.mp h
  refine ⟨reqs.take i, reqs.drop (i + 1), ?_, ?_, ?_, ?_⟩
  · rw [cons_getElem_drop_succ, take_append_drop]
  · intro f
    exact modify_eq_take_cons_drop hi
  · intro r'
    exact set_eq_take_append_cons_drop.trans (if_pos hi)
  · exact eraseIdx_eq_take_drop_succ ..

/-- What a request `r` with the row `row` does with slots for `e`. -/
structure Takes (ps : Nat) (Good : Req → Prop) (f : Req → List Nat → Req) (row : List Nat)
    (r : Req) (e : ExtendReq) : Prop where
  laid : Laid ps row
  fits : Allocator.Fits row e
  good : ∀ out g, Allocator.Grown ps row out e.seqLen g → Good (f r out)
  pages : ∀ out g, Allocator.Grown ps row out e.seqLen g →
    pagesOf ps (f r out).privateSlots = pagesOf ps r.privateSlots ++ g
  node : ∀ out, (f r out).lastNode = r.lastNode

theorem applyBatch_spec {ps : Nat} (hps : 0 < ps) {Good : Req → Prop}
    {f : Req → List Nat → Req} {kernel : ExtendReq → List Nat → List Nat} :
    ∀ (batch : List (Nat × ExtendReq)) (free : List Nat) (reqs : List Req),
      (batch.map fst).Nodup → (∀ r ∈ reqs, Good r) →
      (∀ b ∈ batch, ∃ r row, reqs[b.1]? = some r ∧ Takes ps Good f row r b.2) →
      (∀ b ∈ batch, Allocator.Continues ps kernel b.2) →
      totalNewPages ps (batch.map snd) ≤ free.length →
      ∃ reqs', applyBatch f (batch.map fst)
          (batchSlots ps kernel (batch.map snd) free) reqs = reqs' ∧
        (∀ r ∈ reqs', Good r) ∧ reqs'.map lastNode = reqs.map lastNode ∧
        privatePages ps reqs' = privatePages ps reqs +
          (free.take (totalNewPages ps (batch.map snd)) : Multiset Nat) := by
  intro batch
  induction batch with
  | nil =>
    intro free reqs _ hgood _ _ _
    exact ⟨reqs, rfl, hgood, rfl, (add_zero _).symm⟩
  | cons b batch ih =>
    intro free reqs hnd hgood htakes hcont hlen
    obtain ⟨hb, hnd⟩ := nodup_cons.mp hnd
    obtain ⟨r, row, hr, ht⟩ := htakes b mem_cons_self
    obtain ⟨pre, post, hsplit, hmodify, _, _⟩ := exists_split hr
    set n := numNewPages ps b.2 with hn
    set m := totalNewPages ps (batch.map snd) with hm
    have htotal : totalNewPages ps ((b :: batch).map snd) = n + m := rfl
    rw [htotal] at hlen ⊢
    have hgrown := (hcont b mem_cons_self).grown hps ht.laid ht.fits
      (by rw [length_take]; exact Nat.min_eq_left (by omega) : (free.take n).length = n)
    set out := kernel b.2 (free.take n) with hout
    have hreqs : reqs.modify b.1 (fun r => f r out) = pre ++ f r out :: post := hmodify _
    -- the other requests of the batch are not touched
    obtain ⟨reqs', hrun, hgood', hnodes, hpages⟩ := ih (free.drop n) (pre ++ f r out :: post) hnd
      (by
        intro x hx
        rw [hsplit] at hgood
        rcases mem_append.mp hx with hx | hx
        · exact hgood x (mem_append_left _ hx)
        · rcases mem_cons.mp hx with rfl | hx
          · exact ht.good _ _ hgrown
          · exact hgood x (mem_append_right _ (mem_cons_of_mem _ hx)))
      (by
        intro b' hb'
        obtain ⟨r', row', hr', ht'⟩ := htakes b' (mem_cons_of_mem _ hb')
        refine ⟨r', row', ?_, ht'⟩
        rw [← hreqs, getElem?_modify_ne _ _ ?_]
        · exact hr'
        · intro he
          exact hb (he ▸ mem_map_of_mem hb'))
      (fun b' hb' => hcont b' (mem_cons_of_mem _ hb'))
      (by rw [length_drop]; omega)
    refine ⟨reqs', ?_, hgood', ?_, ?_⟩
    · rw [← hrun, ← hreqs]
      rfl
    · rw [hnodes, hsplit]
      simp only [map_append, map_cons, ht.node]
    · rw [hpages, privatePages_insert, hsplit, privatePages_insert, ht.pages _ _ hgrown, take_add,
        ← Multiset.coe_add, ← Multiset.coe_add]
      abel

/-! ## Requests that get slots -/

theorem pagesOf_grown {ps : Nat} {row out g : List Nat} {n : Nat}
    (h : Allocator.Grown ps row out n g) : pagesOf ps out = g := by
  have happ := h.pages_eq
  rw [pagesOf_append] at happ
  exact append_cancel_left happ

theorem pagesOf_drop_grown {row out g : List Nat} {n k : Nat}
    (h : Allocator.Grown p.pageSize row out n g) (hk : k ≤ row.length) :
    pagesOf p.pageSize ((row ++ out).drop k) = pagesOf p.pageSize (row.drop k) ++ g := by
  rw [drop_append_of_le_length hk, pagesOf_append, pagesOf_grown h]

theorem getLastD_eq_getLast {row : List Nat} (h : row ≠ []) : row.getLastD 0 = row.getLast h := by
  rw [getLastD_eq_getLast?, getLast?_eq_getLast_of_ne_nil h, Option.getD_some]

/-- A request that waits for the slots of its next chunk. -/
def Req.Ready (r : Req) : Prop :=
  r.row.length ≤ r.prefixIndices.length ∧ r.prefixIndices.length ≤ r.fillIds.length

instance (r : Req) : Decidable r.Ready := inferInstanceAs (Decidable (_ ∧ _))

section Takes

variable {t : RadixTree} {r : Req} {l : List KeyUnit} {v : List Nat}

variable (h : ReqInv p t A r l v)
include h

theorem ReqInv.ready (hready : r.Ready) :
    Laid p.pageSize r.prefixIndices ∧ v <+: r.prefixIndices ∧
      pagesOf p.pageSize (r.prefixIndices.drop r.cacheProtectedLen) =
        pagesOf p.pageSize r.privateSlots := by
  rcases h.place with ⟨hrow, hpre⟩ | ⟨hv, hpre⟩
  · refine ⟨hpre ▸ h.pathLaid, hpre ▸ prefix_rfl, ?_⟩
    rw [privateSlots, hrow, hpre, h.protected_eq, ← h.length_eq, drop_length, drop_nil]
  · have heq : r.prefixIndices = r.row := hpre.eq_of_length_le hready.1
    rw [heq]
    exact ⟨h.laid, hv, rfl⟩

theorem ReqInv.takes_extended (hready : r.Ready) :
    Takes p.pageSize (fun r => ∃ l v, ReqInv p t A r l v) extended r.prefixIndices r
      r.extendReq := by
  obtain ⟨hlaid, hv, hprivate⟩ := h.ready hready
  refine ⟨hlaid, ⟨rfl, hready.2, getLastD_eq_getLast⟩, ?_, ?_, fun _ => rfl⟩
  · intro out g hg
    have hlen := hg.length_eq
    exact ⟨l, v, { h with
      place := Or.inr ⟨hv.trans (prefix_append _ _), prefix_append _ _⟩
      laid := hg.laid
      committed_le := hlen.ge
      committed_ge := fun _ _ => le_rfl }⟩
  · intro out g hg
    rw [← hprivate]
    apply pagesOf_drop_grown hg
    show r.cacheProtectedLen ≤ _
    rw [h.protected_eq, ← h.length_eq]
    exact hv.length_le

theorem ReqInv.grow (hrun : r.Running) {out : List Nat} {k : Nat}
    (hlaid : Laid p.pageSize (r.row ++ out)) (hle : k ≤ (r.row ++ out).length)
    (hge : r.kvCommittedLen ≤ k) :
    ReqInv p t A { r with row := r.row ++ out, kvCommittedLen := k } l v := by
  have hpre : r.prefixIndices <+: r.row := by
    rcases h.place with ⟨hnil, _⟩ | ⟨_, hpre⟩
    · exact absurd hnil hrun.1
    · exact hpre
  exact { h with
    place := Or.inr ⟨(h.value_prefix hrun.1).trans (prefix_append _ _),
      hpre.trans (prefix_append _ _)⟩
    laid := hlaid
    committed_le := hle
    committed_ge := fun _ _ => (h.committed_ge hrun.1 hrun.2).trans hge }

theorem ReqInv.takes_decoded (hrun : r.Running) :
    Takes p.pageSize (fun r => ∃ l v, ReqInv p t A r l v) decoded r.row r
      (r.growReq (r.row.length + 1)) := by
  refine ⟨h.laid, ⟨rfl, Nat.le_succ _, getLastD_eq_getLast⟩, ?_, ?_, fun _ => rfl⟩
  · intro out g hg
    have hlen : (r.row ++ out).length = r.row.length + 1 := hg.length_eq
    have hle := h.committed_le
    exact ⟨l, v, h.grow hrun hg.laid (by omega) (Nat.le_succ _)⟩
  · intro out g hg
    exact pagesOf_drop_grown hg (h.protected_le_row hrun.1)

theorem ReqInv.takes_reserved (hrun : r.Running) {n : Nat} (hn : r.row.length ≤ n) :
    Takes p.pageSize (fun r => ∃ l v, ReqInv p t A r l v) reserved r.row r (r.growReq n) := by
  refine ⟨h.laid, ⟨rfl, hn, getLastD_eq_getLast⟩, ?_, ?_, fun _ => rfl⟩
  · intro out g hg
    refine ⟨l, v, h.grow hrun hg.laid ?_ le_rfl⟩
    rw [length_append]
    exact h.committed_le.trans (Nat.le_add_right _ _)
  · intro out g hg
    exact pagesOf_drop_grown hg (h.protected_le_row hrun.1)

end Takes

end Fluxfer.Requests
