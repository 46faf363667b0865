import Fluxfer.Requests.BaseSpec
import Fluxfer.Requests.Owners

/-!
# Pages in runs of a `RadixCache` with requests

Requests are admitted, get slots, are cached and released in any order (`System.step`), as far as
the callers ensure it (`System.Valid`).
-/

namespace Fluxfer.Requests

open Radix Memory Pages ParentTree Allocator List

variable {Cond : System → ReqOp → Prop}
variable {p : CacheParams} {args : ServerArgs} {N : Nat} {A : Finset NodeId}

/-! ## Operations -/

def System.At (s : System) (i : Nat) (P : Req → Prop) : Prop := ∃ r ∈ s.reqs[i]?, P r

instance (s : System) (i : Nat) (P : Req → Prop) [DecidablePred P] : Decidable (s.At i P) :=
  inferInstanceAs (Decidable (∃ r ∈ s.reqs[i]?, P r))

/-- What the callers of an operation ensure. A chunk is not empty, a batch has no request
twice, slots are only asked for in turn, and committed tokens have slots. -/
def System.Valid (args : ServerArgs) (s : System) : ReqOp → Prop
  | .admitReq a => ∀ k, a.chunk = some k → 0 < k
  | .extend batch _ => batch.Nodup ∧ ∀ i ∈ batch, s.At i Req.Ready
  | .decode batch _ => batch.Nodup ∧ ∀ i ∈ batch, s.At i Req.Running
  | .reserve batch _ => (batch.map Prod.fst).Nodup ∧
      ∀ b ∈ batch, s.At b.1 fun r => r.Running ∧ r.row.length ≤ b.2
  | .output i _ _ => s.At i fun _ => True
  | .commit i n => s.At i fun r => r.fillIds.length ≤ n ∧ n ≤ r.row.length
  | .nextChunk i chunk => (∀ k, chunk = some k → 0 < k) ∧ s.At i fun r =>
      r.prefixIndices.length = r.row.length ∧ r.kvCommittedLen = r.row.length
  | .cacheUnfinishedReq i _ => s.At i Req.Running
  | .release i _ => s.At i (Req.Releasable args)
  | .evict _ _ => True
  | .freeGroupBegin => s.cache.allocator.isNotInFreeGroup = true
  | .freeGroupEnd => s.cache.allocator.isNotInFreeGroup = false

instance (args : ServerArgs) (s : System) (op : ReqOp) : Decidable (s.Valid args op) :=
  match op with
  | .admitReq a => inferInstanceAs (Decidable (∀ k ∈ a.chunk, 0 < k))
  | .extend _ _ | .decode _ _ | .reserve _ _ => inferInstanceAs (Decidable (_ ∧ _))
  | .output i _ _ => inferInstanceAs (Decidable (s.At i _))
  | .commit i _ => inferInstanceAs (Decidable (s.At i _))
  | .nextChunk i chunk => inferInstanceAs (Decidable ((∀ k ∈ chunk, 0 < k) ∧ s.At i _))
  | .cacheUnfinishedReq i _ => inferInstanceAs (Decidable (s.At i _))
  | .release i _ => inferInstanceAs (Decidable (s.At i _))
  | .evict _ _ => inferInstanceAs (Decidable True)
  | .freeGroupBegin | .freeGroupEnd => inferInstanceAs (Decidable (_ = _))

/-- No release is cut below the protected part of its request. -/
def System.StripCovers (p : CacheParams) (args : ServerArgs) (s : System) : ReqOp → Prop
  | .release i _ => (s.req i).StripCovers p args
  | _ => True

instance (p : CacheParams) (args : ServerArgs) (s : System) :
    DecidablePred (s.StripCovers p args)
  | .release i _ => inferInstanceAs (Decidable ((s.req i).StripCovers p args))
  | .admitReq _ | .extend _ _ | .decode _ _ | .reserve _ _ | .output _ _ _ | .commit _ _
  | .nextChunk _ _ | .cacheUnfinishedReq _ _ | .evict _ _ | .freeGroupBegin | .freeGroupEnd =>
    inferInstanceAs (Decidable True)

/-- Runs of valid operations that meet `Cond`. -/
inductive Run (p : CacheParams) (args : ServerArgs) (Cond : System → ReqOp → Prop)
    (s₀ : System) : List ReqOp → System → Prop
  | nil : Run p args Cond s₀ [] s₀
  | snoc {ops : List ReqOp} {s s' : System} {op : ReqOp} (h : Run p args Cond s₀ ops s)
      (hv : s.Valid args op) (hc : Cond s op) (hs : s.step p args op = .ok s') :
      Run p args Cond s₀ (ops ++ [op]) s'

structure SysInv (p : CacheParams) (N : Nat) (s : System) (A : Finset NodeId) : Prop where
  cache : CacheInv p s.cache A
  owned : Owned p N s.cache A s.reqs []

/-- The outcome of an operation that keeps the invariant: only memory may run out. -/
def KeepsInv (p : CacheParams) (N : Nat) (res : Except CacheError System) : Prop :=
  (∃ s' A', res = .ok s' ∧ SysInv p N s' A') ∨ res = .error .outOfMemory

namespace SysInv

variable {i : Nat} {r : Req} {batch : List Nat}
variable {s : System}

theorem req_eq (h : s.reqs[i]? = some r) : s.req i = r := by
  rw [System.req, getD_eq_getElem?_getD, h, Option.getD_some]

variable (h : SysInv p N s A)
include h

theorem admit_step (a : Admission)
    (hchunk : ∀ k, a.chunk = some k → 0 < k) : KeepsInv p N (s.step p args (.admitReq a)) := by
  obtain ⟨m, t1, A1, l, hmatch, hsub, hev1, hheld1, hend, hlabel, hinv1, _⟩ :=
    h.cache.matchPrefix fun hb : a.matchKey.isBigram = true => absurd hb Bool.false_ne_true
  obtain ⟨d, t2, hinc, hinv2, hheld2, hl2⟩ := incLockRef_spec hinv1 (hheld1 _ h.owned.held) hend.mem
  have hev2 : Evolves p _ A1 { s.cache with tree := t2 } A1 0 := hev1.inv.relock hinv2 hl2
  have hm := (hev1.trans hev2 hsub).toMoves
  have hlong := hend.isLongest hinv1 hlabel
  have hpre : l <+: keyUnits p a.tokenIds :=
    (hend.pre.trans (queryUnits_isPrefix _ _)).trans (keyUnits_isPrefix ( take_prefix _ _))
  have hreq : ReqInv p t1 A1 (a.req m.deviceIndices m.lastDeviceNode) l m.deviceIndices := {
    mem := hend.mem
    ns := hend.ns
    seg := hend.label
    value := hlabel
    protected_eq := hlong.length_eq
    length_eq := hlong.length_eq
    pre := prefix_chunkOf hpre hlong.length_eq.ge hchunk
    fill := chunkOf_prefix _ _ _
    place := .inl ⟨rfl, rfl⟩
    pathLaid := (hev1.inv.path_laid hend.mem hlabel).1
    laid := .nil p.pageSize_pos
    committed_le := le_rfl
    committed_ge := fun hne => absurd rfl hne }
  refine .inl ⟨⟨_, _⟩, A1, ?_, hev2.inv, h.owned.admitReq hm hheld2
    ⟨l, _, hreq.keep (hl2.keepsPaths Set.univ) trivial hend.mem⟩ drop_nil⟩
  simp only [System.step, hmatch, hinc, bind, Except.bind]

theorem evict_step (numTokens : Nat) (pick : Nat → Nat) :
    KeepsInv p N (s.step p args (.evict numTokens pick)) := by
  obtain ⟨k, c', A', hrun, hev, hheld⟩ := h.cache.evict h.owned.nodup_cache numTokens pick
  refine .inl ⟨⟨c', s.reqs⟩, A', ?_, hev.inv,
    h.owned.move hev.toMoves (hheld _ h.owned.held)⟩
  simp only [System.step, hrun, bind, Except.bind]

theorem cacheUnfinishedReq_step (hat : s.At i Req.Running) (chunked : Bool) :
    KeepsInv p N (s.step p args (.cacheUnfinishedReq i chunked)) := by
  obtain ⟨r, hi, hrun⟩ := hat
  obtain ⟨pre, post, hsplit, _, hset, _⟩ := exists_split hi
  have howned := h.owned
  rw [hsplit] at howned
  obtain ⟨l, v, hr⟩ := howned.req r (mem_append_right _ mem_cons_self)
  obtain ⟨r', c', A', l', v', g, hok, hsub, hev, hheld, hr', hpages⟩ :=
    h.cache.cacheUnfinishedReq hr hrun howned.held_cons howned.nodup_private chunked
  refine .inl ⟨⟨_, _⟩, A', ?_, hev.inv, howned.replace hev.toMoves hheld ⟨l', v', hr'⟩ hpages⟩
  simp only [System.step, req_eq hi, hok, hset, bind, Except.bind]

theorem release_step (hat : s.At i (Req.Releasable args))
    (hcov : (s.req i).StripCovers p args) (isInsert : Bool) :
    KeepsInv p N (s.step p args (.release i isInsert)) := by
  obtain ⟨r, hi, hrel⟩ := hat
  obtain ⟨pre, post, hsplit, _, _, herase⟩ := exists_split hi
  have howned := h.owned
  rw [hsplit] at howned
  rw [req_eq hi] at hcov
  obtain ⟨l, v, hr⟩ := howned.req r (mem_append_right _ mem_cons_self)
  obtain ⟨c', A', hok, hsub, hev, hheld⟩ :=
    h.cache.releaseKvCache hr hrel hcov howned.held_cons howned.nodup_private isInsert
  refine .inl ⟨⟨_, _⟩, A', ?_, hev.inv, howned.release hev.toMoves hheld⟩
  simp only [System.step, req_eq hi, hok, herase, bind, Except.bind]

theorem modify_step {f : Req → Req} (hi : s.reqs[i]? = some r)
    (hinv : ∀ l v, ReqInv p s.cache.tree A r l v → ReqInv p s.cache.tree A (f r) l v)
    (hnode : (f r).lastNode = r.lastNode) (hslots : (f r).privateSlots = r.privateSlots) :
    KeepsInv p N (.ok { s with reqs := s.reqs.modify i f }) := by
  obtain ⟨pre, post, hsplit, hmodify, _, _⟩ := exists_split hi
  have howned := h.owned
  rw [hsplit] at howned
  obtain ⟨l, v, hr⟩ := howned.req r (mem_append_right _ mem_cons_self)
  refine .inl ⟨_, A, rfl, h.cache, ?_⟩
  rw [hmodify]
  refine howned.replace (.refl _ _ _) ?_ ⟨l, v, hinv l v hr⟩ ?_
  · rw [hnode]
    exact howned.held_cons
  · rw [hslots, zero_add]

theorem output_step (hat : s.At i fun _ => True) (tokens : List Nat)
    (reasoningTokens : Nat) : KeepsInv p N (s.step p args (.output i tokens reasoningTokens)) := by
  obtain ⟨r, hi, _⟩ := hat
  refine h.modify_step hi (fun l v hr => ?_) rfl rfl
  have hfill : r.fillIds <+: r.originInputIds ++ (r.outputIds ++ tokens) := by
    rw [← append_assoc]
    exact hr.fill.trans (prefix_append _ _)
  exact { hr with fill := hfill }

theorem commit_step {n : Nat} (hat : s.At i fun r => r.fillIds.length ≤ n ∧ n ≤ r.row.length) :
    KeepsInv p N (s.step p args (.commit i n)) := by
  obtain ⟨r, hi, hge, hle⟩ := hat
  refine h.modify_step hi (fun l v hr => ?_) rfl rfl
  exact { hr with committed_le := hle, committed_ge := fun _ _ => hge }

theorem nextChunk_step {chunk : Option Nat} (hchunk : ∀ k, chunk = some k → 0 < k)
    (hat : s.At i fun r =>
      r.prefixIndices.length = r.row.length ∧ r.kvCommittedLen = r.row.length) :
    KeepsInv p N (s.step p args (.nextChunk i chunk)) := by
  obtain ⟨r, hi, hpre, hcommit⟩ := hat
  refine h.modify_step hi (fun l v hr => ?_) rfl rfl
  have hl : l.length ≤ r.prefixIndices.length := by
    rcases hr.place with ⟨_, hv⟩ | ⟨hv, _⟩
    · rw [hv, hr.length_eq]
    · rw [hpre, ← hr.length_eq]
      exact hv.length_le
  exact { hr with
    pre := prefix_chunkOf (hr.pre.trans (keyUnits_isPrefix hr.fill)) hl hchunk
    fill := chunkOf_prefix _ _ _
    committed_ge := fun _ hle => hle.trans hcommit.ge }

theorem freeGroupBegin_step (hgroup : s.cache.allocator.isNotInFreeGroup = true) :
    KeepsInv p N (s.step p args .freeGroupBegin) := by
  have hm : Moves p s.cache A { s.cache with allocator := s.cache.allocator.freeGroupBegin } A 0 := by
    refine ⟨.refl _ _, ?_⟩
    rw [add_zero, cachePages, cachePages, pages_freeGroupBegin hgroup]
  exact .inl ⟨_, A, rfl, ⟨h.cache.base, h.cache.laid, h.cache.ok.freeGroupBegin⟩,
    h.owned.move hm h.owned.held⟩

theorem freeGroupEnd_step (hgroup : s.cache.allocator.isNotInFreeGroup = false) :
    KeepsInv p N (s.step p args .freeGroupEnd) := by
  have hnd := Multiset.nodup_of_le (Multiset.le_add_right _ _) h.owned.nodup_cache
  have hm : Moves p s.cache A { s.cache with allocator := s.cache.allocator.freeGroupEnd } A 0 := by
    refine ⟨.refl _ _, ?_⟩
    rw [add_zero, cachePages, cachePages,
      pages_freeGroupEnd p.pageSize_pos h.cache.ok hgroup hnd]
  exact .inl ⟨_, A, rfl, ⟨h.cache.base, h.cache.laid, h.cache.ok.freeGroupEnd hgroup⟩,
    h.owned.move hm h.owned.held⟩

theorem batch_step {β : Type} (batch : List β) (pos : β → Nat)
    (e : β → ExtendReq) (numTokens : Nat) (pick : Nat → Nat)
    {alloc : Allocator → Option (List (List Nat)) × Allocator} {f : Req → List Nat → Req}
    (hnd : (batch.map pos).Nodup)
    (halloc : ∀ a, a.Ok p.pageSize → Allocator.BatchAlloc p.pageSize a (batch.map e) (alloc a))
    (htakes : ∀ b ∈ batch, ∃ r row, s.reqs[pos b]? = some r ∧
      ∀ (t : RadixTree) (B : Finset NodeId) (l : List KeyUnit) (v : List Nat),
        ReqInv p t B r l v → Takes p.pageSize (fun r => ∃ l v, ReqInv p t B r l v) f row r (e b)) :
    KeepsInv p N (do
      let (outs, c) ← s.allocBatch p numTokens pick alloc
      .ok ⟨c, applyBatch f (batch.map pos) outs s.reqs⟩) := by
  obtain ⟨c1, A1, hrun, hev, hheld⟩ :=
    h.cache.evictFromTreeCache h.owned.nodup_cache numTokens pick
  have howned := h.owned.move hev.toMoves (hheld _ h.owned.held)
  unfold System.allocBatch
  rw [hrun]
  rcases halloc c1.allocator hev.inv.ok with ⟨a', hres, _⟩ | ⟨b, kernel, hres, hcont, hlen, hpg, hok⟩
  · right
    simp only [hres, bind, Except.bind]
  · left
    have hfst : (batch.map fun x => (pos x, e x)).map Prod.fst = batch.map pos := by
      rw [map_map]
      rfl
    have hsnd : (batch.map fun x => (pos x, e x)).map Prod.snd = batch.map e := by
      rw [map_map]
      rfl
    obtain ⟨reqs', hbatch, hgood, hnodes, hpages⟩ := applyBatch_spec p.pageSize_pos
      (batch.map fun x => (pos x, e x)) b.freePages s.reqs (hfst ▸ hnd) howned.req
      (by
        intro y hy
        obtain ⟨x, hx, rfl⟩ := mem_map.mp hy
        obtain ⟨r, row, hr, ht⟩ := htakes x hx
        obtain ⟨l, v, hinv⟩ := howned.req r (mem_of_getElem? hr)
        exact ⟨r, row, hr, ht _ _ l v hinv⟩)
      (by
        intro y hy
        obtain ⟨x, hx, rfl⟩ := mem_map.mp hy
        exact hcont _ (mem_map_of_mem hx)) (hsnd ▸ hlen)
    rw [hfst, hsnd] at hbatch
    rw [hsnd] at hpages
    set k := totalNewPages p.pageSize (batch.map e)
    refine ⟨⟨⟨c1.tree, { b with freePages := b.freePages.drop k }⟩, reqs'⟩, A1, ?_,
      ⟨hev.inv.base, hev.inv.laid, ⟨hok.1, hok.2⟩⟩, ?_, hgood, ?_⟩
    · simp only [hres, bind, Except.bind, hbatch]
    · rw [hnodes]
      exact howned.held
    · rw [hpages, ← howned.pages, cachePages, cachePages, ← hpg, b.pages_drop k]
      abel

theorem extend_step (hnd : batch.Nodup) (hat : ∀ i ∈ batch, s.At i Req.Ready)
    (pick : Nat → Nat) : KeepsInv p N (s.step p args (.extend batch pick)) := by
  have hstep := h.batch_step batch id (fun i => (s.req i).extendReq)
    (System.tokensFor p (batch.map fun i => (s.req i).extendReq)) pick
    (by rwa [map_id]) (fun a ha => allocForExtend_spec p.pageSize_pos ha _)
    (by
      intro i hi
      obtain ⟨r, hr, hready⟩ := hat i hi
      refine ⟨r, r.prefixIndices, hr, fun t B l v hinv => ?_⟩
      rw [req_eq hr]
      exact hinv.takes_extended hready)
  rwa [map_id] at hstep

theorem decode_step (hnd : batch.Nodup) (hat : ∀ i ∈ batch, s.At i Req.Running)
    (pick : Nat → Nat) : KeepsInv p N (s.step p args (.decode batch pick)) := by
  have hone : ∀ r ∈ batch.map fun i => (s.req i).growReq ((s.req i).row.length + 1),
      r.seqLen = r.prefixLen + 1 := by
    intro r hr
    obtain ⟨i, _, rfl⟩ := mem_map.mp hr
    rfl
  have hstep := h.batch_step batch id _ (batch.length * p.pageSize) pick
    (by rwa [map_id])
    (fun a ha => allocForDecode_spec p.pageSize_pos ha hone) (by
      intro i hi
      obtain ⟨r, hr, hrun⟩ := hat i hi
      refine ⟨r, r.row, hr, fun t B l v hinv => ?_⟩
      rw [req_eq hr]
      exact hinv.takes_decoded hrun)
  rwa [map_id] at hstep

theorem reserve_step {batch : List (Nat × Nat)} (hnd : (batch.map Prod.fst).Nodup)
    (hat : ∀ b ∈ batch, s.At b.1 fun r => r.Running ∧ r.row.length ≤ b.2) (pick : Nat → Nat) :
    KeepsInv p N (s.step p args (.reserve batch pick)) :=
  h.batch_step batch Prod.fst (fun b => (s.req b.1).growReq b.2) _ pick hnd
    (fun a ha => allocForExtend_spec p.pageSize_pos ha _) (f := Req.reserved) (by
      intro b hb
      obtain ⟨r, hr, hrun, hle⟩ := hat b hb
      refine ⟨r, r.row, hr, fun t B l v hinv => ?_⟩
      rw [req_eq hr]
      exact hinv.takes_reserved hrun hle)

theorem step_spec {op : ReqOp} (hv : s.Valid args op)
    (hc : s.StripCovers p args op) : KeepsInv p N (s.step p args op) := by
  cases op with
  | admitReq a => exact h.admit_step a hv
  | extend batch pick => exact h.extend_step hv.1 hv.2 pick
  | decode batch pick => exact h.decode_step hv.1 hv.2 pick
  | reserve batch pick => exact h.reserve_step hv.1 hv.2 pick
  | output i tokens reasoningTokens => exact h.output_step hv tokens reasoningTokens
  | commit i n => exact h.commit_step hv
  | nextChunk i chunk => exact h.nextChunk_step hv.1 hv.2
  | cacheUnfinishedReq i chunked => exact h.cacheUnfinishedReq_step hv chunked
  | release i isInsert => exact h.release_step hv hc isInsert
  | evict numTokens pick => exact h.evict_step numTokens pick
  | freeGroupBegin => exact h.freeGroupBegin_step hv
  | freeGroupEnd => exact h.freeGroupEnd_step hv

end SysInv

theorem init_sysInv (p : CacheParams) (size : Nat) (needSort : Bool) :
    SysInv p (size / p.pageSize) (System.init (init p.pageSize size needSort)) {0} := by
  refine ⟨⟨init_baseInv p, ?_, init_ok _ _ _⟩, init_heldBy, ?_, ?_⟩
  · intro n hn
    rw [Finset.mem_singleton.mp hn]
    exact .nil p.pageSize_pos
  · intro r hr
    cases hr
  · show (init _ _ _).pages + ((pagesOf p.pageSize [] : List Nat) : Multiset Nat) + 0 = _
    rw [init_pages, pagesOf_nil, Multiset.coe_nil, add_zero, add_zero]

theorem Run.inv {size : Nat} {needSort : Bool} {ops : List ReqOp} {s : System}
    (h : Run p args (System.StripCovers p args)
      (System.init (init p.pageSize size needSort)) ops s) :
    ∃ A, SysInv p (size / p.pageSize) s A := by
  induction h with
  | nil => exact ⟨{0}, init_sysInv p size needSort⟩
  | snoc _ hv hc hs ih =>
    obtain ⟨A, hi⟩ := ih
    rcases hi.step_spec hv hc with ⟨s', A', hok, hinv⟩ | herr
    · rw [hok] at hs
      cases hs
      exact ⟨A', hinv⟩
    · rw [herr] at hs
      cases hs

/-! A run in which a request with reasoning tokens is retracted, admitted again with its output
and then finished. -/

/-- The system after a list of operations, if all of them are valid, meet `Cond` and succeed. -/
def System.exec (p : CacheParams) (args : ServerArgs) (Cond : System → ReqOp → Prop)
    [∀ s, DecidablePred (Cond s)] : System → List ReqOp → Option System
  | s, [] => some s
  | s, op :: ops =>
    if s.Valid args op ∧ Cond s op then
      match s.step p args op with
      | .ok s' => s'.exec p args Cond ops
      | .error _ => none
    else none

theorem Run.exec [∀ s, DecidablePred (Cond s)] {s0 s' : System} :
    ∀ {ops pre : List ReqOp} {s : System}, Run p args Cond s0 pre s →
      s.exec p args Cond ops = some s' → Run p args Cond s0 (pre ++ ops) s' := by
  intro ops
  induction ops with
  | nil =>
    intro pre s h hs
    cases hs
    rwa [append_nil]
  | cons op ops ih =>
    intro pre s h hs
    unfold System.exec at hs
    split_ifs at hs with hv
    cases hstep : s.step p args op with
    | error e =>
      rw [hstep] at hs
      cases hs
    | ok s1 =>
      rw [hstep] at hs
      rw [append_cons]
      exact ih (h.snoc hv.1 hv.2 hstep) hs

def stripParams : CacheParams := ⟨1, Nat.one_pos, false⟩

def stripArgs : ServerArgs := ⟨true, false, false⟩

def stripStart : System := System.init (init 1 8 false)

/-- The prompt `[1, 2]`, with the output so far. -/
def stripAdmission (outputIds : List Nat) : Admission :=
  ⟨[1, 2], outputIds, none, outputIds.length, none, none⟩

/-- Prefill, a decode step and the retraction; then the same with the output in the prompt, and
the release of a finished request. -/
def stripOps : List ReqOp :=
  [.admitReq (stripAdmission []), .extend [0] id, .output 0 [3] 1, .cacheUnfinishedReq 0 false,
    .decode [0] id, .output 0 [4] 2, .release 0 false,
    .admitReq (stripAdmission [3, 4]), .extend [0] id, .output 0 [5] 3, .cacheUnfinishedReq 0 false,
    .decode [0] id, .output 0 [6] 4, .release 0 true]

def stripSystem : System :=
  (stripStart.exec stripParams stripArgs (fun _ _ => True) stripOps).getD stripStart

/-- With `strip_thinking_cache`, the release of the resumed request frees slots that it has
given to the tree before. -/
theorem strip_frees_tree_pages :
    Run stripParams stripArgs (fun _ _ => True) stripStart stripOps stripSystem ∧
      ¬ Conserved stripParams 8 stripSystem.cache stripSystem.reqs := by
  have hsome : (stripStart.exec stripParams stripArgs (fun _ _ => True) stripOps).isSome := by
    decide
  obtain ⟨s', hs⟩ := Option.isSome_iff_exists.mp hsome
  refine ⟨Run.exec .nil (hs.trans (by rw [stripSystem, hs, Option.getD_some])), fun h => ?_⟩
  set s := stripSystem
  have h1 : s.cache.tree.find 0 (.plain (.token 1)) = some 1 := by decide
  have h2 : s.cache.tree.find 1 (.plain (.token 3)) = some 2 := by decide
  have hfree : Owns stripParams s.cache s.reqs .free 4 := by
    show 4 ∈ s.cache.allocator.pages
    decide
  have hnode : Owns stripParams s.cache s.reqs (.node 2) 4 :=
    ⟨.child (.child .root h1) h2, 4, by decide, rfl⟩
  have heq := (h.owner 4 (by decide) (by decide)).unique hfree hnode
  cases heq

/-- In every run in which no release is cut below the protected part, every page has exactly one
owner in the state that is reached, and the next operation fails only for want of memory. -/
theorem run_conserves_pages {size : Nat} {needSort : Bool} {ops : List ReqOp} {s : System}
    (h : Run p args (System.StripCovers p args)
      (System.init (init p.pageSize size needSort)) ops s) :
    Conserved p (size / p.pageSize) s.cache s.reqs ∧
    ∀ op, s.Valid args op → s.StripCovers p args op →
      (∃ s', s.step p args op = .ok s') ∨ s.step p args op = .error .outOfMemory := by
  obtain ⟨A, hi⟩ := h.inv
  refine ⟨hi.owned.conserved hi.cache.base.shape hi.cache.laid, ?_⟩
  intro op hv hc
  rcases hi.step_spec hv hc with ⟨s', _, hok, _⟩ | herr
  · exact .inl ⟨s', hok⟩
  · exact .inr herr

/-- The release is cut to the prompt, which is what the request has given to the tree. -/
theorem run_conserves_pages_stripped :
    ∃ s, stripStart.exec stripParams stripArgs (System.StripCovers stripParams stripArgs)
        (stripOps.take 6 ++ [.release 0 true]) = some s ∧
      Conserved stripParams 8 s.cache s.reqs := by
  obtain ⟨s, hs⟩ := Option.isSome_iff_exists.mp (show (stripStart.exec stripParams stripArgs
    (System.StripCovers stripParams stripArgs)
    (stripOps.take 6 ++ [.release 0 true])).isSome by decide)
  exact ⟨s, hs, (run_conserves_pages (Run.exec .nil hs)).1⟩

/-- In such a run the node that a request has locked spells a prefix of its tokens, as long as its
protected part; the row, once there is one, starts with the slots of that path. A node's lock count
is the number of requests whose node is at or below it. -/
theorem run_rows {size : Nat} {needSort : Bool} {ops : List ReqOp} {s : System}
    (h : Run p args (System.StripCovers p args)
      (System.init (init p.pageSize size needSort)) ops s) :
    (∀ r ∈ s.reqs, s.cache.tree.Attached r.lastNode ∧
      ∃ l v, PathLabel s.cache.tree.par s.cache.tree.seg r.lastNode l ∧
        PathLabel s.cache.tree.par s.cache.tree.deviceValue r.lastNode v ∧
        l <+: keyUnits p r.tokenIds ∧ r.cacheProtectedLen = l.length ∧ v.length = l.length ∧
        (r.row = [] ∧ r.prefixIndices = v ∨ v <+: r.row ∧ r.prefixIndices <+: r.row)) ∧
    ∀ n, s.cache.tree.Attached n → n ≠ s.cache.tree.rootNode →
      (s.cache.tree.nodes n).lockRef = holdersBelow s.cache.tree (s.reqs.map Req.lastNode) n := by
  obtain ⟨A, hi⟩ := h.inv
  have hatt : ∀ {n}, s.cache.tree.Attached n ↔ n ∈ A := hi.cache.base.shape.attached_iff
  refine ⟨fun r hr => ?_, fun n hn hne => ?_⟩
  · obtain ⟨l, v, hreq⟩ := hi.owned.req r hr
    exact ⟨hatt.mpr hreq.mem, l, v, hreq.seg, hreq.value,
      hreq.pre.trans (keyUnits_isPrefix hreq.fill), hreq.protected_eq, hreq.length_eq, hreq.place⟩
  · rw [hi.owned.held.count n (hatt.mp hn) hne, append_nil]

theorem run_rows_prefill :
    ∃ s, stripStart.exec stripParams stripArgs (System.StripCovers stripParams stripArgs)
        (stripOps.take 4) = some s ∧
      ∃ r ∈ s.reqs, r.cacheProtectedLen = 2 ∧ s.cache.tree.Attached r.lastNode := by
  obtain ⟨s, hs⟩ := Option.isSome_iff_exists.mp (show (stripStart.exec stripParams stripArgs
    (System.StripCovers stripParams stripArgs) (stripOps.take 4)).isSome by decide)
  have hreqs : ∃ r ∈ s.reqs, r.cacheProtectedLen = 2 := by
    obtain rfl := Option.some.inj hs
    exact ⟨_, mem_singleton_self _, rfl⟩
  obtain ⟨r, hr, hlen⟩ := hreqs
  exact ⟨s, hs, r, hr, hlen, ((run_rows (Run.exec .nil hs)).1 r hr).1⟩

end Fluxfer.Requests
