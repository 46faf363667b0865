import Fluxfer.Disagg.DecodeOffload
import Fluxfer.Requests.BaseSpec

/-!
# Slots in runs of the decode-side offload

In runs whose offloads only happen when a request finishes, with room on the host
(`OffloadManager.AtFinish`), the slots are safe (`SlotsSafe`). An offload of an unfinished request
breaks it: the slots of the prompt are freed at once and those of the copy at its acknowledgement,
while the request goes on to attend to them.
-/

namespace Fluxfer.Disagg

open Radix Memory Pages Hi Requests OffloadManager Allocator OffloadReq List Option HostPool
open Multiset (coe_add coe_eq_coe coe_nil coe_nodup le_add_left le_add_right nodup_add nodup_of_le)

variable {r : OffloadReq} {s₀ : OffloadManager} {acts : List OffloadAction}
  {Cond : OffloadManager → OffloadAction → Prop}
variable {p : OffloadParams} {args : ServerArgs}

/-! ## Actions -/

namespace OffloadManager

def At (s : OffloadManager) (i : Nat) (P : OffloadReq → Prop) : Prop := ∃ r ∈ s.reqs[i]?, P r

instance (s : OffloadManager) (i : Nat) (P : OffloadReq → Prop) [DecidablePred P] :
    Decidable (s.At i P) :=
  inferInstanceAs (Decidable (∃ r ∈ s.reqs[i]?, P r))

/-- What the scheduler ensures: only unfinished requests get slots and results, and all tokens but
the last have committed slots. -/
def Valid (s : OffloadManager) : OffloadAction → Prop
  | .arrive _ _ _ => True
  | .grow i n => s.At i fun r => r.finished = false ∧ r.row.length ≤ n
  | .commit i n => s.At i fun r =>
      r.kvCommittedFreed = false ∧ r.allTokens ≤ n ∧ n ≤ r.row.length
  | .result i tokens _ _ => s.At i fun r => r.finished = false ∧
      r.originInputIds.length + (r.outputIds.length + tokens.length - 1) ≤ r.kvCommittedLen
  | .ackWrites n => n ≤ s.ongoingOffload.length
  | .ackBackups n => n ≤ s.ongoingBackup.length
  | .freeGroupBegin => s.allocator.isNotInFreeGroup = true
  | .freeGroupEnd => s.allocator.isNotInFreeGroup = false

instance (s : OffloadManager) (a : OffloadAction) : Decidable (s.Valid a) :=
  match a with
  | .arrive _ _ _ => inferInstanceAs (Decidable True)
  | .grow i _ | .commit i _ | .result i _ _ _ => inferInstanceAs (Decidable (s.At i _))
  | .ackWrites _ | .ackBackups _ => inferInstanceAs (Decidable (_ ≤ _))
  | .freeGroupBegin | .freeGroupEnd => inferInstanceAs (Decidable (_ = _))

/-- The request with the tokens of a result. -/
def withTokens (s : OffloadManager) (i : Nat) (tokens : List Nat) : OffloadReq :=
  { s.req i with outputIds := (s.req i).outputIds ++ tokens }

/-- A result that finds a stride of new tokens is the last one of its request, and when the prompt
fills a page the host has room for the copy. -/
def AtFinish (p : OffloadParams) (s : OffloadManager) : OffloadAction → Prop
  | .result i tokens finished refuse =>
    let r := s.withTokens i tokens
    let n := r.allTokens - r.prefillOffloadedLen p
    p.offloadStride ≤ n → finished = true ∧ (p.pageSize ≤ r.originInputIds.length →
      refuse = false ∧ n / p.offloadStride * p.offloadStride ≤ s.hostPool.freeSlots.length)
  | _ => True

instance (p : OffloadParams) (s : OffloadManager) (a : OffloadAction) :
    Decidable (s.AtFinish p a) :=
  match a with
  | .result _ _ _ _ => inferInstanceAs (Decidable (_ ≤ _ → _ = _ ∧ (_ ≤ _ → _ = _ ∧ _ ≤ _)))
  | .arrive _ _ _ | .grow _ _ | .commit _ _ | .ackWrites _ | .ackBackups _ | .freeGroupBegin
  | .freeGroupEnd => inferInstanceAs (Decidable True)

end OffloadManager

/-- Runs of valid actions that meet `Cond`. -/
inductive OffloadRun (p : OffloadParams) (args : ServerArgs)
    (Cond : OffloadManager → OffloadAction → Prop) (s₀ : OffloadManager) :
    List OffloadAction → OffloadManager → Prop
  | nil : OffloadRun p args Cond s₀ [] s₀
  | snoc {acts : List OffloadAction} {s s' : OffloadManager} {a : OffloadAction}
      (h : OffloadRun p args Cond s₀ acts s) (hv : s.Valid a) (hc : Cond s a)
      (hs : s.step p args a = .ok s') : OffloadRun p args Cond s₀ (acts ++ [a]) s'

/-! ## Where slots are -/

/-- The slots that a request has not given back: those of the prompt go back when it finishes, and
the rest when it is released. -/
def OffloadReq.held (p : OffloadParams) (r : OffloadReq) : List Nat :=
  if r.kvCommittedFreed then []
  else if r.finished then r.row.drop (r.prefillOffloadedLen p)
  else r.row

def heldPages (p : OffloadParams) (reqs : List OffloadReq) : Multiset Nat :=
  (reqs.map fun r => (pagesOf p.pageSize (r.held p) : Multiset Nat)).sum

namespace OffloadManager

/-- Free host slots, and those of copies and backups. -/
def hostSlots (s : OffloadManager) : List Nat :=
  s.hostPool.freeSlots ++ ((s.ongoingOffload.map OffloadOp.hostIndices).flatten ++
    (s.ongoingBackup.map Prod.snd).flatten)

end OffloadManager

/-- Device and host slots are where they belong. -/
structure SlotsSafe (p : OffloadParams) (N : Nat) (host : List Nat) (s : OffloadManager) :
    Prop where
  /-- each page is in one place -/
  conserved : s.allocator.pages + heldPages p s.reqs = (range' 1 N : Multiset Nat)
  /-- no page of an unfinished request has been given back -/
  unfinished : ∀ r ∈ s.reqs, r.finished = false → ∀ x ∈ r.row, x / p.pageSize ∉ s.allocator.pages
  /-- no page of a copy in flight has been given back -/
  copies : ∀ op ∈ s.ongoingOffload, ∀ x ∈ op.deviceIndices, x / p.pageSize ∉ s.allocator.pages
  /-- a finished request that has not been released waits for the acknowledgement of a copy -/
  pending : ∀ (i : Nat) (r : OffloadReq), s.reqs[i]? = some r → r.finished = true →
    r.kvCommittedFreed = false → ∃ op ∈ s.ongoingOffload, op.req = i
  host : s.hostSlots.Perm host

/-! ## The invariant -/

structure OffloadReq.Ok (p : OffloadParams) (r : OffloadReq) : Prop where
  laid : Laid p.pageSize r.row
  allTokens_le : r.allTokens ≤ r.kvCommittedLen
  committed_le : r.kvCommittedLen ≤ r.row.length
  output_ne : r.outputIds ≠ []
  freed_iff : r.kvOverallocatedFreed = r.kvCommittedFreed
  live : r.finished = false → r.kvCommittedFreed = false
  /-- nothing has been offloaded before the end -/
  state : r.finished = false → r.stateOf p = ⟨r.prefillOffloadedLen p, 0⟩

/-- The copy of a finished request that is not released. -/
structure OffloadOp.Ok (p : OffloadParams) (reqs : List OffloadReq) (op : OffloadOp) : Prop where
  req : ∃ r, reqs[op.req]? = some r ∧ r.finished = true ∧ r.kvCommittedFreed = false ∧
    op.start = r.prefillOffloadedLen p ∧ op.deviceIndices = slice r.row op.start op.stop

structure DeviceInv (p : OffloadParams) (N : Nat) (a : Allocator) (reqs : List OffloadReq) :
    Prop where
  ok : a.Ok p.pageSize
  req : ∀ r ∈ reqs, r.Ok p
  pages : a.pages + heldPages p reqs = (range' 1 N : Multiset Nat)

structure OffloadInv (p : OffloadParams) (N : Nat) (host : List Nat) (s : OffloadManager) :
    Prop where
  device : DeviceInv p N s.allocator s.reqs
  ops : ∀ op ∈ s.ongoingOffload, op.Ok p s.reqs
  ops_nodup : (s.ongoingOffload.map OffloadOp.req).Nodup
  pending : ∀ (i : Nat) (r : OffloadReq), s.reqs[i]? = some r → r.finished = true →
    r.kvCommittedFreed = false → ∃ op ∈ s.ongoingOffload, op.req = i
  hostPage : s.hostPool.pageSize = p.pageSize
  host : s.hostSlots.Perm host

theorem heldPages_insert (p : OffloadParams) (pre post : List OffloadReq) (r : OffloadReq) :
    heldPages p (pre ++ r :: post) =
      heldPages p (pre ++ post) + (pagesOf p.pageSize (r.held p) : Multiset Nat) := by
  simp only [heldPages, map_append, map_cons, sum_append, sum_cons]
  abel

namespace DeviceInv

variable {N : Nat} {a a' : Allocator} {reqs : List OffloadReq} {r' : OffloadReq}

theorem nodup (h : DeviceInv p N a reqs) : (a.pages + heldPages p reqs).Nodup := by
  rw [h.pages]
  exact coe_nodup.mpr nodup_range'

theorem nodup_held (h : DeviceInv p N a reqs) (hr : r ∈ reqs) :
    (a.pages + (pagesOf p.pageSize (r.held p) : Multiset Nat)).Nodup := by
  obtain ⟨pre, post, rfl⟩ := append_of_mem hr
  refine nodup_of_le ?_ h.nodup
  rw [heldPages_insert]
  exact Multiset.add_le_add_left (le_add_left _ _)

theorem replace {i : Nat} (h : DeviceInv p N a reqs) (hi : reqs[i]? = some r)
    (hok : a'.Ok p.pageSize) (hr : r'.Ok p)
    (hpages : a'.pages + (pagesOf p.pageSize (r'.held p) : Multiset Nat) =
      a.pages + (pagesOf p.pageSize (r.held p) : Multiset Nat)) :
    DeviceInv p N a' (reqs.set i r') := by
  obtain ⟨pre, post, hsplit, _, hset, _⟩ := exists_split hi
  refine ⟨hok, fun x hx => ?_, ?_⟩
  · rcases mem_or_eq_of_mem_set hx with hx | rfl
    · exact h.req x hx
    · exact hr
  · have htotal := h.pages
    rw [hsplit, heldPages_insert] at htotal
    rw [hset, heldPages_insert, ← htotal, add_left_comm, hpages]
    abel

theorem not_mem_pages (h : DeviceInv p N a reqs) (hr : r ∈ reqs) {x : Nat}
    (hx : x / p.pageSize ∈ pagesOf p.pageSize (r.held p)) : x / p.pageSize ∉ a.pages := by
  intro hmem
  exact Multiset.disjoint_left.mp (nodup_add.mp (h.nodup_held hr)).2.2 hmem hx

end DeviceInv

/-! ## Freeing a row -/

theorem prefillOffloadedLen_dvd (p : OffloadParams) (r : OffloadReq) :
    p.pageSize ∣ r.prefillOffloadedLen p := Dvd.intro_left _ rfl

theorem prefillOffloadedLen_le (p : OffloadParams) (r : OffloadReq) :
    r.prefillOffloadedLen p ≤ r.originInputIds.length := Nat.div_mul_le_self _ _

theorem offloadStride_dvd (p : OffloadParams) : p.pageSize ∣ p.offloadStride := by
  unfold OffloadParams.offloadStride
  split_ifs
  · exact dvd_rfl
  · rcases max_choice p.pageSize (p.envStride / p.pageSize * p.pageSize) with h | h
    · rw [h]
    · rw [h]
      exact Dvd.intro_left _ rfl

theorem OffloadReq.Ok.prefill_le_commit (h : r.Ok p) (args : ServerArgs) :
    r.prefillOffloadedLen p ≤ r.cacheCommitLen args := by
  have hpre := prefillOffloadedLen_le p r
  have hall := h.allTokens_le
  unfold allTokens at hall
  unfold Req.cacheCommitLen
  split_ifs <;> omega

section Release

variable {a' : Allocator}
variable {a : Allocator} {row : List Nat} {start commit : Nat}

theorem release_pages (hok : a.Ok p.pageSize) (hlaid : Laid p.pageSize row)
    (hd : p.pageSize ∣ start) (hle : start ≤ commit)
    (hnd : (a.pages + (pagesOf p.pageSize (row.drop start) : Multiset Nat)).Nodup)
    (ha' : a' = if numPages p.pageSize commit * p.pageSize < row.length then
        (a.free (slice row start commit)).free
          (slice row (numPages p.pageSize commit * p.pageSize) row.length)
      else a.free (slice row start commit)) :
    a'.Ok p.pageSize ∧
      a'.pages = a.pages + (pagesOf p.pageSize (row.drop start) : Multiset Nat) := by
  have hpos := p.pageSize_pos
  have hparts := pagesOf_release
    (r := { (default : Req) with row := row, cacheProtectedLen := start }) hlaid le_rfl hle
  have hnil : slice row start start = [] := by
    rw [slice, drop_of_length_le (length_take_le _ _)]
  dsimp only [Req.privateSlots] at hparts
  rw [hnil, pagesOf_nil, coe_nil, zero_add] at hparts
  set v1 := slice row start commit
  set startP := numPages p.pageSize commit * p.pageSize with hstartP
  have hlaid1 : Laid p.pageSize v1 := slice_laid hlaid hd
  have hlaid2 : Laid p.pageSize (row.drop startP) := hlaid.drop hpos (Dvd.intro_left _ rfl)
  rw [hparts, ← add_assoc] at hnd
  have hnd1 : (pagesOf p.pageSize v1).Nodup := coe_nodup.mp
    (nodup_of_le ((le_add_left _ _).trans (le_add_right _ _)) hnd)
  have hnd2 := coe_nodup.mp (nodup_of_le (le_add_left _ _) hnd)
  have hok1 := hok.free (hlaid1.started hpos)
  have hpages1 := pages_free hpos hok (hlaid1.started hpos) hnd1
  rw [ha', hparts]
  split_ifs with hlt
  · have hslice : slice row startP row.length = row.drop startP := by
      rw [slice, take_length]
    rw [hslice]
    refine ⟨hok1.free (hlaid2.started hpos), ?_⟩
    rw [pages_free hpos hok1 (hlaid2.started hpos) hnd2, hpages1, add_assoc]
  · refine ⟨hok1, ?_⟩
    rw [hpages1, drop_of_length_le (Nat.le_of_not_lt hlt), pagesOf_nil, coe_nil, add_zero]

theorem free_prompt_pages (start : Nat) (hok : a.Ok p.pageSize) (hlaid : Laid p.pageSize row)
    (hnd : (a.pages + (pagesOf p.pageSize row : Multiset Nat)).Nodup)
    (ha' : a' = if 0 < start then a.free (row.take start) else a) :
    a'.Ok p.pageSize ∧ a'.pages + (pagesOf p.pageSize (row.drop start) : Multiset Nat) =
      a.pages + (pagesOf p.pageSize row : Multiset Nat) := by
  have hpos := p.pageSize_pos
  have hsplit : pagesOf p.pageSize row =
      pagesOf p.pageSize (row.take start) ++ pagesOf p.pageSize (row.drop start) := by
    rw [← pagesOf_append, take_append_drop]
  have hlaid1 := (hlaid.take hpos start).started hpos
  rw [ha']
  split_ifs with h0
  · have hnd1 : (pagesOf p.pageSize (row.take start)).Nodup := by
      rw [hsplit, ← coe_add] at hnd
      exact coe_nodup.mp (nodup_of_le
        ((le_add_right _ _).trans (le_add_left _ _)) hnd)
    refine ⟨hok.free hlaid1, ?_⟩
    rw [pages_free hpos hok hlaid1 hnd1, hsplit, ← coe_add, add_assoc]
  · obtain rfl : start = 0 := Nat.eq_zero_of_not_pos h0
    exact ⟨hok, rfl⟩

end Release

/-! ## One request of the manager -/

namespace OffloadManager

variable {s : OffloadManager} {i : Nat} {r' : OffloadReq} {a : Allocator}

theorem req_eq (hi : s.reqs[i]? = some r) : s.req i = r := by
  rw [req, getD_eq_getElem?_getD, hi, getD_some]

theorem getElem?_setReq (hi : s.reqs[i]? = some r) : (s.setReq i r').reqs[i]? = some r' := by
  obtain ⟨hlt, _⟩ := List.getElem?_eq_some_iff.mp hi
  exact getElem?_set_self hlt

theorem setReq_setReq : (s.setReq i r).setReq i r' = s.setReq i r' := by
  unfold setReq
  simp only [set_set]

/-- The request after its release. -/
def released (r : OffloadReq) : OffloadReq :=
  { r with kvCommittedFreed := true, kvOverallocatedFreed := true, state := none }

theorem releaseFinishedReq_spec (args : ServerArgs) {start : Nat} (hi : s.reqs[i]? = some r)
    (hok : s.allocator.Ok p.pageSize) (hr : r.Ok p) (hlive : r.kvCommittedFreed = false)
    (hd : p.pageSize ∣ start) (hle : start ≤ r.cacheCommitLen args)
    (hnd : (s.allocator.pages + (pagesOf p.pageSize (r.row.drop start) : Multiset Nat)).Nodup) :
    ∃ a, s.releaseFinishedReq p args i start =
        .ok ({ s with allocator := a }.setReq i (released r)) ∧ a.Ok p.pageSize ∧
      a.pages = s.allocator.pages + (pagesOf p.pageSize (r.row.drop start) : Multiset Nat) := by
  obtain ⟨hok', hpages⟩ := release_pages hok hr.laid hd hle hnd rfl
  refine ⟨_, ?_, hok', hpages⟩
  have hover : r.kvOverallocatedFreed = false := hr.freed_iff.trans hlive
  unfold releaseFinishedReq
  simp only [req_eq hi, hlive, hover, Bool.false_eq_true, if_false, roundUp_eq p.toCacheParams]
  split_ifs <;> rfl

theorem finalizeReleaseOnFinish_spec (args : ServerArgs) (hi : s.reqs[i]? = some r)
    (hok : s.allocator.Ok p.pageSize) (hr : r.Ok p) (hlive : r.kvCommittedFreed = false)
    (hstate : r.stateOf p = ⟨r.prefillOffloadedLen p, 0⟩)
    (hnd : (s.allocator.pages + (pagesOf p.pageSize r.row : Multiset Nat)).Nodup) :
    ∃ a, s.finalizeReleaseOnFinish p args i =
        .ok ({ s with allocator := a }.setReq i (released r)) ∧ a.Ok p.pageSize ∧
      a.pages = s.allocator.pages + (pagesOf p.pageSize r.row : Multiset Nat) := by
  obtain ⟨hok1, hpages1⟩ := free_prompt_pages (r.prefillOffloadedLen p) hok hr.laid hnd rfl
  set a1 := if 0 < r.prefillOffloadedLen p then
    s.allocator.free (r.row.take (r.prefillOffloadedLen p)) else s.allocator with ha1
  have hs1 : (if 0 < r.prefillOffloadedLen p then s.free (r.row.take (r.prefillOffloadedLen p))
      else s) = { s with allocator := a1 } := by
    rw [ha1]
    split_ifs <;> rfl
  obtain ⟨a, hrun, hok2, hpages2⟩ := releaseFinishedReq_spec args
    (s := { s with allocator := a1 }) hi hok1 hr hlive (prefillOffloadedLen_dvd p r)
    (hr.prefill_le_commit args)
    (by rw [hpages1]; exact hnd)
  refine ⟨a, ?_, hok2, hpages2.trans hpages1⟩
  unfold finalizeReleaseOnFinish
  simp only [req_eq hi, hstate, and_true, hs1]
  exact hrun

end OffloadManager

/-! ## Changes that keep the invariant -/

theorem OffloadOp.Ok.set {op : OffloadOp} {reqs : List OffloadReq} {i : Nat} {r' : OffloadReq}
    (h : op.Ok p reqs) (hi : reqs[i]? = some r)
    (hsame : op.req = i → r'.finished = r.finished ∧ r'.kvCommittedFreed = r.kvCommittedFreed ∧
      r'.originInputIds = r.originInputIds ∧ r'.row = r.row) : op.Ok p (reqs.set i r') := by
  obtain ⟨x, hx, hfin, hlive, hstart, hdev⟩ := h.req
  by_cases heq : op.req = i
  · obtain ⟨hfin', hlive', horigin, hrow⟩ := hsame heq
    subst heq
    obtain rfl : r = x := some.inj (hi.symm.trans hx)
    obtain ⟨hlt, _⟩ := List.getElem?_eq_some_iff.mp hi
    refine ⟨r', getElem?_set_self hlt, hfin'.trans hfin, hlive'.trans hlive, ?_, ?_⟩
    · rw [hstart, prefillOffloadedLen, prefillOffloadedLen, horigin]
    · rw [hdev, hrow]
  · exact ⟨x, (getElem?_set_ne (Ne.symm heq)).trans hx, hfin, hlive, hstart, hdev⟩

namespace OffloadInv

variable {N : Nat} {host : List Nat} {s : OffloadManager} {i : Nat} {r' : OffloadReq}
  {a : Allocator}

variable (h : OffloadInv p N host s) (hi : s.reqs[i]? = some r)
include h hi

theorem req_ne (hf : r.finished = false) : ∀ op ∈ s.ongoingOffload, op.req ≠ i := by
  rintro op hop rfl
  obtain ⟨x, hx, hfin, _⟩ := (h.ops op hop).req
  rw [some.inj (hi.symm.trans hx), hfin] at hf
  cases hf

theorem replace (hdev : DeviceInv p N a (s.reqs.set i r'))
    (hsame : ∀ op ∈ s.ongoingOffload, op.req = i → r'.finished = r.finished ∧
      r'.kvCommittedFreed = r.kvCommittedFreed ∧ r'.originInputIds = r.originInputIds ∧
      r'.row = r.row) (hpending : r'.finished = true → r'.kvCommittedFreed = false →
      ∃ op ∈ s.ongoingOffload, op.req = i) :
    OffloadInv p N host ({ s with allocator := a }.setReq i r') where
  device := hdev
  ops op hop := (h.ops op hop).set hi (hsame op hop)
  ops_nodup := h.ops_nodup
  pending j x hj hfin hlive := by
    rcases eq_or_ne j i with rfl | hne
    · obtain rfl : r' = x := some.inj ((getElem?_setReq hi).symm.trans hj)
      exact hpending hfin hlive
    · exact h.pending j x ((getElem?_set_ne hne.symm).symm.trans hj) hfin hlive
  hostPage := h.hostPage
  host := h.host

theorem replace_unfinished (hf : r.finished = false) (hok : a.Ok p.pageSize) (hr : r'.Ok p)
    (hpages : a.pages + (pagesOf p.pageSize (r'.held p) : Multiset Nat) =
      s.allocator.pages + (pagesOf p.pageSize (r.held p) : Multiset Nat))
    (hdone : r'.finished = true → r'.kvCommittedFreed = true) :
    OffloadInv p N host ({ s with allocator := a }.setReq i r') := by
  refine h.replace hi (h.device.replace hi hok hr hpages) ?_ ?_
  · intro op hop heq
    exact absurd heq (h.req_ne hi hf op hop)
  · intro hfin hlive
    rw [hdone hfin] at hlive
    cases hlive

end OffloadInv

/-! ## Slots for a request -/

theorem OffloadReq.Ok.held_unfinished (h : r.Ok p) (hf : r.finished = false) :
    r.held p = r.row := by
  rw [OffloadReq.held, h.live hf, hf]
  rfl

namespace OffloadManager

variable {s s' : OffloadManager} {i n : Nat}

theorem growRow_spec (hok : s.allocator.Ok p.pageSize) (hi : s.reqs[i]? = some r)
    (hlaid : Laid p.pageSize r.row) (hn : r.row.length ≤ n) :
    s.growRow i n = .error .outOfMemory ∨ ∃ a out g,
      s.growRow i n = .ok ({ s with allocator := a }.setReq i { r with row := r.row ++ out }) ∧
      Allocator.Grown p.pageSize r.row out n g ∧ a.Ok p.pageSize ∧
      a.pages + (g : Multiset Nat) = s.allocator.pages := by
  have hps := p.pageSize_pos
  unfold growRow
  rw [req_eq hi]
  dsimp only
  rcases allocForExtend_spec hps hok [r.growReq n] with
    ⟨a, hres, _⟩ | ⟨b, kernel, hres, hcont, hlen, hpages, hb⟩
  · rw [hres]
    exact .inl rfl
  · rw [hres]
    set k := totalNewPages p.pageSize [r.growReq n] with hk
    have hone : k = numNewPages p.pageSize (r.growReq n) := by
      simp [hk, totalNewPages]
    have htake : (b.freePages.take k).length = numNewPages p.pageSize (r.growReq n) := by
      rw [length_take]
      exact Nat.min_eq_left hlen
    have hgrown := (hcont _ mem_cons_self).grown hps hlaid
      ⟨rfl, hn, getLastD_eq_getLast⟩ htake
    refine .inr ⟨{ b with freePages := b.freePages.drop k }, _, b.freePages.take k, ?_, hgrown,
      ⟨hb.pageSize_eq, hb.started⟩, ?_⟩
    · rfl
    · rw [← hpages]
      exact (pages_drop b k).symm

end OffloadManager

namespace OffloadInv

variable {N : Nat} {host : List Nat} {s : OffloadManager} {i n : Nat}

theorem grow (h : OffloadInv p N host s) (hi : s.reqs[i]? = some r) (hf : r.finished = false)
    (hn : r.row.length ≤ n) : s.growRow i n = .error .outOfMemory ∨
      ∃ s', s.growRow i n = .ok s' ∧ OffloadInv p N host s' := by
  have hr := h.device.req r (mem_of_getElem? hi)
  rcases growRow_spec h.device.ok hi hr.laid hn with
    hoom | ⟨a, out, g, hrun, hgrown, hok, hpages⟩
  · exact .inl hoom
  have hr' : OffloadReq.Ok p { r with row := r.row ++ out } := { hr with
    laid := hgrown.laid
    committed_le := by
      rw [length_append]
      exact Nat.le_add_right_of_le hr.committed_le }
  refine .inr ⟨_, hrun, h.replace_unfinished hi hf hok hr' ?_ ?_⟩
  · rw [hr'.held_unfinished hf, hr.held_unfinished hf, hgrown.pages_eq, ← hpages,
      ← coe_add]
    abel
  · intro hfin
    exact absurd (hf.symm.trans hfin) Bool.false_ne_true

theorem append {a : Allocator} (h : OffloadInv p N host s) (hok : a.Ok p.pageSize) (hr : r.Ok p)
    (hf : r.finished = false)
    (hpages : a.pages + (pagesOf p.pageSize r.row : Multiset Nat) = s.allocator.pages) :
    OffloadInv p N host { s with allocator := a, reqs := s.reqs ++ [r] } where
  device := by
    refine ⟨hok, fun x hx => ?_, ?_⟩
    · rcases mem_append.mp hx with hx | hx
      · exact h.device.req x hx
      · rw [mem_singleton.mp hx]
        exact hr
    · rw [heldPages_insert, append_nil, hr.held_unfinished hf, ← h.device.pages, ← hpages]
      abel
  ops op hop := by
    obtain ⟨x, hx, hrest⟩ := (h.ops op hop).req
    exact ⟨x, (List.getElem?_append_left (List.getElem?_eq_some_iff.mp hx).1).trans hx, hrest⟩
  ops_nodup := h.ops_nodup
  pending j x hj hfin hlive := by
    rcases Nat.lt_trichotomy j s.reqs.length with hlt | rfl | hgt
    · exact h.pending j x ((getElem?_append_left hlt).symm.trans hj) hfin hlive
    · rw [← some.inj (getElem?_concat_length.symm.trans hj), hf] at hfin
      cases hfin
    · rw [getElem?_eq_none (by rw [length_append]; exact hgt)] at hj
      cases hj
  hostPage := h.hostPage
  host := h.host

theorem arrive (h : OffloadInv p N host s) (ids : List Nat) (token reasoningTokens : Nat) :
    s.step p args (.arrive ids token reasoningTokens) = .error .outOfMemory ∨
      ∃ s', s.step p args (.arrive ids token reasoningTokens) = .ok s' ∧
        OffloadInv p N host s' := by
  set r := arrived ids token reasoningTokens with hrdef
  have hidx : (s.reqs ++ [r]).length - 1 = s.reqs.length := by
    rw [length_append, length_singleton, Nat.add_sub_cancel]
  have hi : (s.reqs ++ [r])[s.reqs.length]? = some r := getElem?_concat_length
  have hnil : Laid p.pageSize r.row := Laid.nil p.pageSize_pos
  simp only [step, ← hrdef, hidx]
  rcases growRow_spec (s := { s with reqs := s.reqs ++ [r] }) h.device.ok hi hnil
      (Nat.zero_le ids.length) with hoom | ⟨a, out, g, hrun, hgrown, hok, hpages⟩
  · exact .inl hoom
  have hr' : OffloadReq.Ok p { r with row := r.row ++ out } := by
    refine ⟨hgrown.laid, le_rfl, hgrown.length_eq.ge, cons_ne_nil _ _, rfl, fun _ => rfl,
      fun _ => rfl⟩
  have hinv := h.append hok hr' rfl (by rw [hgrown.pages_eq]; exact hpages)
  have hset : (s.reqs ++ [r]).set s.reqs.length { r with row := r.row ++ out } =
      s.reqs ++ [{ r with row := r.row ++ out }] := by
    rw [set_append_right _ _ le_rfl, Nat.sub_self, set_cons_zero]
  refine .inr ⟨_, hrun, ?_⟩
  unfold setReq
  rw [hset]
  exact hinv

end OffloadInv

/-! ## Results -/

namespace OffloadReq

theorem dvd_incrementalAlignedLen (p : OffloadParams) (r : OffloadReq) :
    p.pageSize ∣ r.incrementalAlignedLen p :=
  (offloadStride_dvd p).trans (Dvd.intro_left _ rfl)

theorem Ok.aligned_le (h : r.Ok p) (hstate : r.stateOf p = ⟨r.prefillOffloadedLen p, 0⟩) :
    r.prefillOffloadedLen p + r.incrementalAlignedLen p ≤ r.row.length := by
  have hle : r.incrementalAlignedLen p ≤ r.allTokens - r.prefillOffloadedLen p := by
    rw [incrementalAlignedLen, hstate]
    exact Nat.div_mul_le_self _ _
  have hpre := prefillOffloadedLen_le p r
  have hall := h.allTokens_le
  have hrow := h.committed_le
  have : r.originInputIds.length ≤ r.allTokens := Nat.le_add_right _ _
  omega

end OffloadReq

namespace OffloadManager

variable {s : OffloadManager} {i : Nat} {refuse : Bool}

/-- The request `r` after an offload has looked at it for the first time. -/
def seen (p : OffloadParams) (r : OffloadReq) : OffloadReq :=
  { r with state := some ⟨r.prefillOffloadedLen p, 0⟩ }

/-- The copy of the first offload of `r` to the host slots `v`. -/
def copyOf (p : OffloadParams) (i : Nat) (r : OffloadReq) (v : List Nat) : OffloadOp where
  req := i
  hostIndices := v
  deviceIndices := slice r.row (r.prefillOffloadedLen p)
    (r.prefillOffloadedLen p + r.incrementalAlignedLen p)
  start := r.prefillOffloadedLen p
  stop := r.prefillOffloadedLen p + r.incrementalAlignedLen p

/-- The allocator after the early release of the prompt. -/
def withoutPrompt (p : OffloadParams) (a : Allocator) (r : OffloadReq) : Allocator :=
  if 0 < r.prefillOffloadedLen p then a.free (r.row.take (r.prefillOffloadedLen p)) else a

/-- The manager after an offload that is written. -/
def offloaded (p : OffloadParams) (s : OffloadManager) (i : Nat) (r : OffloadReq) (v : List Nat)
    (h : HostPool) : OffloadManager :=
  { s with
    allocator := withoutPrompt p s.allocator r
    hostPool := h
    ongoingOffload := s.ongoingOffload ++ [copyOf p i r v] }.setReq i
      { r with state := some ⟨r.prefillOffloadedLen p, r.incrementalAlignedLen p⟩ }

theorem write_cases (refuse : Bool) (start : Nat) {k : Nat} (hi : s.reqs[i]? = some r)
    (hle : start + k ≤ r.row.length) (hd : s.hostPool.pageSize ∣ k) :
    s.write i start (start + k) refuse = .ok (false, s) ∧
        (refuse = true ∨ s.hostPool.freeSlots.length < k) ∨
      ∃ v h, s.hostPool.alloc k = .ok (some v, h) ∧
        s.write i start (start + k) refuse = .ok (true, { s with
          hostPool := h
          ongoingOffload := s.ongoingOffload ++
            [⟨i, v, slice r.row start (start + k), start, start + k⟩] }) := by
  have hlen : (slice r.row start (start + k)).length = k := by
    rw [slice, length_drop, length_take, Nat.min_eq_left hle, Nat.add_sub_cancel_left]
  unfold write
  simp only [req_eq hi, hlen]
  cases refuse with
  | true => exact .inl ⟨rfl, .inl rfl⟩
  | false =>
    rcases alloc_cases hd with ⟨hnone, hlt⟩ | ⟨v, h, hsome, _⟩
    · refine .inl ⟨?_, .inr hlt⟩
      rw [hnone]
      rfl
    · refine .inr ⟨v, h, hsome, ?_⟩
      rw [hsome]
      rfl

theorem offloadKvCache_cases (refuse : Bool) (hi : s.reqs[i]? = some r) (hr : r.Ok p)
    (hstate : r.stateOf p = ⟨r.prefillOffloadedLen p, 0⟩)
    (hpage : s.hostPool.pageSize = p.pageSize) :
    (∃ a, s.offloadKvCache p i refuse =
          .ok (false, { s with allocator := a }.setReq i (seen p r)) ∧
        (a = s.allocator ∧ r.incrementalAlignedLen p = 0 ∨
          a = withoutPrompt p s.allocator r ∧ 0 < r.incrementalAlignedLen p ∧
            (refuse = true ∨ s.hostPool.freeSlots.length < r.incrementalAlignedLen p))) ∨
      ∃ v h, 0 < r.incrementalAlignedLen p ∧
        s.hostPool.alloc (r.incrementalAlignedLen p) = .ok (some v, h) ∧
        s.offloadKvCache p i refuse = .ok (true, s.offloaded p i r v h) := by
  unfold offloadKvCache
  simp only [req_eq hi, if_neg hr.output_ne, hstate, and_true, Nat.add_zero]
  rw [← seen]
  by_cases h0 : r.incrementalAlignedLen p = 0
  · rw [if_pos h0]
    exact .inl ⟨_, rfl, .inl ⟨rfl, h0⟩⟩
  rw [if_neg h0]
  have hfreed : (if 0 < r.prefillOffloadedLen p then
      (s.setReq i (seen p r)).free (r.row.take (r.prefillOffloadedLen p))
      else s.setReq i (seen p r)) =
      { s with allocator := withoutPrompt p s.allocator r }.setReq i (seen p r) := by
    unfold withoutPrompt
    split_ifs <;> rfl
  rw [hfreed]
  have hi' : ({ s with allocator := withoutPrompt p s.allocator r }.setReq i (seen p r)).reqs[i]? =
      some (seen p r) := getElem?_setReq hi
  have hd := hpage ▸ r.dvd_incrementalAlignedLen p
  rcases write_cases refuse (r.prefillOffloadedLen p) hi' (hr.aligned_le hstate) hd with
    ⟨hwrite, hwhy⟩ | ⟨v, h, halloc, hwrite⟩
  · rw [hwrite]
    exact .inl ⟨_, rfl, .inr ⟨rfl, Nat.pos_of_ne_zero h0, hwhy⟩⟩
  · rw [hwrite]
    refine .inr ⟨v, h, Nat.pos_of_ne_zero h0, halloc, ?_⟩
    dsimp only [bind, Except.bind]
    rw [Nat.zero_add, req_eq (r := seen p r)]
    · unfold offloaded setReq
      rw [set_set]
      rfl
    · exact hi'

end OffloadManager

namespace OffloadInv

variable {tokens : List Nat}
variable {N : Nat} {host : List Nat} {s : OffloadManager} {i : Nat} {r' : OffloadReq}
  {refuse : Bool}

section

variable (h : OffloadInv p N host s) (hi : s.reqs[i]? = some r) (hf : r.finished = false)
include h hi hf

theorem req_result (finished : Bool)
    (hlen : r.originInputIds.length + (r.outputIds.length + tokens.length - 1) ≤ r.kvCommittedLen) :
    OffloadReq.Ok p { r with outputIds := r.outputIds ++ tokens, finished := finished } := by
  have hr := h.device.req r (mem_of_getElem? hi)
  exact { hr with
    allTokens_le := by
      rw [allTokens, length_append]
      exact hlen
    output_ne := append_ne_nil_of_left_ne_nil hr.output_ne _
    live := fun _ => hr.live hf
    state := fun _ => hr.state hf }

theorem result_on (hr' : r'.Ok p) (hrow : r'.row = r.row) (hf' : r'.finished = false) :
    OffloadInv p N host (s.setReq i (seen p r')) := by
  have hseen : (seen p r').Ok p := { hr' with state := fun _ => rfl }
  have hr := h.device.req r (mem_of_getElem? hi)
  refine h.replace_unfinished hi hf h.device.ok hseen ?_ ?_
  · rw [hseen.held_unfinished hf', hr.held_unfinished hf]
    exact congrArg _ (congrArg _ (congrArg _ hrow))
  · intro hfin
    exact absurd (hf'.symm.trans hfin) Bool.false_ne_true

theorem result_release (hr' : r'.Ok p) (hrow : r'.row = r.row)
    (hlive : r'.kvCommittedFreed = false) (hf' : r'.finished = true) :
    ∃ s', (s.setReq i (seen p r')).finalizeReleaseOnFinish p args i = .ok s' ∧
      OffloadInv p N host s' := by
  have hseen : (seen p r').Ok p := { hr' with state := fun _ => rfl }
  have hr := h.device.req r (mem_of_getElem? hi)
  have hnd := h.device.nodup_held (mem_of_getElem? hi)
  rw [hr.held_unfinished hf, ← hrow] at hnd
  obtain ⟨a, hrun, hok, hpages⟩ := finalizeReleaseOnFinish_spec args
    (getElem?_setReq hi) h.device.ok hseen hlive rfl hnd
  refine ⟨_, hrun, ?_⟩
  have hrel : (released (seen p r')).Ok p := { hseen with
    freed_iff := rfl
    live := fun hfin => by cases hf'.symm.trans hfin
    state := fun _ => rfl }
  have hinv := h.replace_unfinished hi hf hok hrel (by
    rw [hr.held_unfinished hf, ← hrow]
    exact (add_zero _).trans hpages) fun _ => rfl
  exact (congrArg (OffloadInv p N host) setReq_setReq).mpr hinv

theorem result_offload (hr' : r'.Ok p) (hrow : r'.row = r.row)
    (hlive : r'.kvCommittedFreed = false) (hf' : r'.finished = true) {v : List Nat} {hp : HostPool}
    (halloc : s.hostPool.alloc (r'.incrementalAlignedLen p) = .ok (some v, hp)) :
    OffloadInv p N host (s.offloaded p i r' v hp) := by
  have hr := h.device.req r (mem_of_getElem? hi)
  have hnd := h.device.nodup_held (mem_of_getElem? hi)
  rw [hr.held_unfinished hf, ← hrow] at hnd
  obtain ⟨hok, hpages⟩ := free_prompt_pages (r'.prefillOffloadedLen p) h.device.ok hr'.laid hnd rfl
  set r3 : OffloadReq :=
    { r' with state := some ⟨r'.prefillOffloadedLen p, r'.incrementalAlignedLen p⟩ }
  have hheld : r3.held p = r'.row.drop (r'.prefillOffloadedLen p) := by
    unfold OffloadReq.held
    rw [show r3.kvCommittedFreed = false from hlive, show r3.finished = true from hf']
    rfl
  have hi3 : (s.reqs.set i r3)[i]? = some r3 := getElem?_setReq hi
  have hfresh := h.req_ne hi hf
  have hdevice : DeviceInv p N (withoutPrompt p s.allocator r')
      (s.reqs.set i r3) := by
    refine h.device.replace hi hok ?_ ?_
    · exact { hr' with state := fun hfin => by cases hf'.symm.trans hfin }
    · rw [hheld, hr.held_unfinished hf, ← hrow]
      exact hpages
  refine ⟨hdevice, ?_, ?_, ?_, ?_, ?_⟩
  · intro op hop
    rcases mem_append.mp hop with hop | hop
    · exact (h.ops op hop).set hi fun heq => absurd heq (hfresh op hop)
    · rw [mem_singleton.mp hop]
      exact ⟨r3, hi3, hf', hlive, rfl, rfl⟩
  · have hnew : i ∉ s.ongoingOffload.map OffloadOp.req := by
      intro hmem
      obtain ⟨op, hop, heq⟩ := mem_map.mp hmem
      exact hfresh op hop heq
    have happ : (s.offloaded p i r' v hp).ongoingOffload.map OffloadOp.req =
        s.ongoingOffload.map OffloadOp.req ++ [i] := map_append
    rw [happ]
    exact h.ops_nodup.append (nodup_singleton i) (disjoint_singleton.mpr hnew)
  · intro j x hj hfin hlive'
    rcases eq_or_ne j i with rfl | hne
    · exact ⟨_, mem_append_right _ (mem_singleton_self _), rfl⟩
    · obtain ⟨op, hop, heq⟩ :=
        h.pending j x ((getElem?_set_ne hne.symm).symm.trans hj) hfin hlive'
      exact ⟨op, mem_append_left _ hop, heq⟩
  · exact (alloc_pageSize halloc).trans h.hostPage
  · refine List.Perm.trans ?_ h.host
    have hops : ((s.offloaded p i r' v hp).ongoingOffload.map OffloadOp.hostIndices).flatten =
        (s.ongoingOffload.map OffloadOp.hostIndices).flatten ++ v := by
      refine (congrArg flatten map_append).trans ?_
      rw [flatten_append]
      exact congrArg _ (append_nil v)
    apply coe_eq_coe.mp
    unfold OffloadManager.hostSlots
    rw [hops, ← alloc_some halloc, show (s.offloaded p i r' v hp).hostPool = hp from rfl]
    simp only [← coe_add]
    abel

end

theorem result {finished : Bool} (h : OffloadInv p N host s)
    (hv : s.Valid (.result i tokens finished refuse))
    (hc : s.AtFinish p (.result i tokens finished refuse)) :
    ∃ s', s.step p args (.result i tokens finished refuse) = .ok s' ∧ OffloadInv p N host s' := by
  obtain ⟨r, hi, hf, hlen⟩ := hv
  have hr := h.device.req r (mem_of_getElem? hi)
  have hr' := h.req_result hi hf finished hlen
  set r' : OffloadReq := { r with
    outputIds := r.outputIds ++ tokens
    finished := finished } with hr'def
  have hstate : r'.stateOf p = ⟨r'.prefillOffloadedLen p, 0⟩ := hr.state hf
  have hlive : r'.kvCommittedFreed = false := hr.live hf
  have hi' : (s.setReq i r').reqs[i]? = some r' := getElem?_setReq hi
  have hc' : 0 < r'.incrementalAlignedLen p → finished = true ∧ (0 < r'.prefillOffloadedLen p →
      refuse = false ∧ r'.incrementalAlignedLen p ≤ s.hostPool.freeSlots.length) := by
    simp only [OffloadManager.AtFinish, withTokens, req_eq hi] at hc
    have hlen : r'.incrementalAlignedLen p =
        (r'.allTokens - r'.prefillOffloadedLen p) / p.offloadStride * p.offloadStride := by
      rw [incrementalAlignedLen, hstate, Nat.sub_zero]
    rw [hlen]
    intro hpos
    have hstride := (Nat.div_pos_iff.mp (Nat.pos_of_mul_pos_right hpos)).2
    refine ⟨(hc hstride).1, fun hpre => (hc hstride).2 ?_⟩
    exact (Nat.div_pos_iff.mp (Nat.pos_of_mul_pos_right hpre)).2
  have hstep : s.step p args (.result i tokens finished refuse) =
      (s.setReq i r').handleFinishedReq p args i refuse := by
    simp only [step, req_eq hi, hr'def]
  rw [hstep]
  unfold handleFinishedReq
  rcases offloadKvCache_cases refuse hi' hr' hstate h.hostPage with
    ⟨a, hoff, hwhy⟩ | ⟨v, hp, hpos, halloc, hoff⟩
  · -- without a write nothing has been freed
    have ha : a = s.allocator := by
      rcases hwhy with ⟨ha, _⟩ | ⟨ha, hpos, hwhy⟩
      · exact ha
      · have hzero : ¬ 0 < r'.prefillOffloadedLen p := by
          intro hpre
          obtain ⟨hno, hroom⟩ := (hc' hpos).2 hpre
          rcases hwhy with hyes | hlt
          · exact Bool.false_ne_true (hno.symm.trans hyes)
          · exact absurd hroom (Nat.not_le_of_lt hlt)
        rw [ha]
        exact if_neg hzero
    have hs : { s.setReq i r' with allocator := a }.setReq i (seen p r') =
        s.setReq i (seen p r') := by
      rw [ha]
      exact setReq_setReq
    rw [hoff, hs]
    dsimp only [bind, Except.bind]
    rw [req_eq (getElem?_setReq hi)]
    cases finished with
    | false =>
      exact ⟨_, rfl, h.result_on hi hf hr' rfl rfl⟩
    | true =>
      rw [if_pos ⟨rfl, Bool.false_ne_true⟩]
      exact h.result_release hi hf hr' rfl hlive rfl
  · have hinv := h.result_offload hi hf hr' rfl hlive (hc' hpos).1 halloc
    have hs : (s.setReq i r').offloaded p i r' v hp = s.offloaded p i r' v hp :=
      setReq_setReq (s := { s with
        allocator := withoutPrompt p s.allocator r'
        hostPool := hp
        ongoingOffload := s.ongoingOffload ++ [copyOf p i r' v] })
    rw [hoff, hs]
    dsimp only [bind, Except.bind]
    rw [if_neg fun hand => hand.2 rfl]
    exact ⟨_, rfl, hinv⟩

/-! ## Acknowledgements -/

theorem ack (args : ServerArgs) {op : OffloadOp} {ops : List OffloadOp} (h : OffloadInv p N host s)
    (hops : s.ongoingOffload = op :: ops) :
    ∃ s', ackOffload p args { s with ongoingOffload := ops } op = .ok s' ∧
      s'.ongoingOffload = ops ∧ OffloadInv p N host s' := by
  obtain ⟨r, hi, hf, hlive, hstart, _⟩ := (h.ops op (hops ▸ mem_cons_self)).req
  have hr := h.device.req r (mem_of_getElem? hi)
  have hheld : r.held p = r.row.drop op.start := by
    rw [OffloadReq.held, hlive, hf, hstart]
    rfl
  have hnd := h.device.nodup_held (mem_of_getElem? hi)
  rw [hheld] at hnd
  obtain ⟨a, hrun, hok, hpages⟩ := releaseFinishedReq_spec args
    (s := { s with ongoingOffload := ops }) hi h.device.ok hr hlive
    (hstart ▸ prefillOffloadedLen_dvd p r) (hstart ▸ hr.prefill_le_commit args) hnd
  have hfresh : op.req ∉ ops.map OffloadOp.req ∧ (ops.map OffloadOp.req).Nodup := by
    have := h.ops_nodup
    rw [hops] at this
    exact nodup_cons.mp this
  unfold ackOffload
  rw [req_eq (s := { s with ongoingOffload := ops }) hi]
  rw [if_pos hf, hrun]
  refine ⟨_, rfl, rfl, ?_, ?_, hfresh.2, ?_, h.hostPage, ?_⟩
  · refine h.device.replace hi hok ?_ ?_
    · exact { hr with
        freed_iff := rfl
        live := fun hfin => by cases hf.symm.trans hfin
        state := fun _ => rfl }
    · rw [hheld]
      exact (add_zero _).trans hpages
  · intro op' hop'
    refine (h.ops op' (hops ▸ mem_cons_of_mem _ hop')).set hi fun heq => ?_
    exact absurd (mem_map.mpr ⟨op', hop', heq⟩) hfresh.1
  · intro j x hj hfin hlive'
    rcases eq_or_ne j op.req with rfl | hne
    · rw [← some.inj ((getElem?_setReq
        hi).symm.trans hj)] at hlive'
      cases hlive'
    · obtain ⟨op', hop', heq⟩ :=
        h.pending j x ((getElem?_set_ne hne.symm).symm.trans hj) hfin hlive'
      rw [hops] at hop'
      rcases mem_cons.mp hop' with rfl | hop'
      · exact absurd heq.symm hne
      · exact ⟨op', hop', heq⟩
  · refine List.Perm.trans ?_ h.host
    apply coe_eq_coe.mp
    simp only [OffloadManager.hostSlots, setReq, hops, map_append, map_cons,
      flatten_append, flatten_cons, ← coe_add]
    abel

theorem checkOffloadProgress (n : Nat) : ∀ {s : OffloadManager}, OffloadInv p N host s →
    n ≤ s.ongoingOffload.length →
    ∃ s', s.checkOffloadProgress p args n = .ok s' ∧ OffloadInv p N host s' := by
  induction n with
  | zero => exact fun h _ => ⟨_, rfl, h⟩
  | succ n ih =>
    intro s h hn
    unfold OffloadManager.checkOffloadProgress
    cases hops : s.ongoingOffload with
    | nil =>
      rw [hops] at hn
      cases hn
    | cons op ops =>
      obtain ⟨s1, hack, hrest, hinv⟩ := h.ack args hops
      rw [hops] at hn
      dsimp only
      rw [hack]
      exact ih hinv (hrest ▸ Nat.le_of_succ_le_succ hn)

theorem checkBackupProgress (n : Nat) : ∀ {s : OffloadManager}, OffloadInv p N host s →
    n ≤ s.ongoingBackup.length →
    ∃ s', s.checkBackupProgress n = .ok s' ∧ OffloadInv p N host s' := by
  induction n with
  | zero => exact fun h _ => ⟨_, rfl, h⟩
  | succ n ih =>
    intro s h hn
    unfold OffloadManager.checkBackupProgress
    cases hback : s.ongoingBackup with
    | nil =>
      rw [hback] at hn
      cases hn
    | cons b rest =>
      rw [hback] at hn
      refine ih ⟨h.device, h.ops, h.ops_nodup, h.pending, h.hostPage, ?_⟩
        (Nat.le_of_succ_le_succ hn)
      refine List.Perm.trans ?_ h.host
      apply coe_eq_coe.mp
      simp only [OffloadManager.hostSlots, HostPool.free, hback, map_cons, flatten_cons,
        ← coe_add]
      abel

end OffloadInv

/-! ## Runs -/

namespace OffloadInv

variable {N : Nat} {host : List Nat} {s : OffloadManager}

theorem init (p : OffloadParams) (size : Nat) (needSort : Bool) (host : List Nat) :
    OffloadInv p (size / p.pageSize) host
      (.init (init p.pageSize size needSort) ⟨p.pageSize, host⟩) where
  device := by
    refine ⟨init_ok .., nofun, ?_⟩
    exact (add_zero _).trans (init_pages ..)
  ops op hop := absurd hop not_mem_nil
  ops_nodup := nodup_nil
  pending i r hi := by cases hi
  hostPage := rfl
  host := .of_eq (append_nil host)

variable (h : OffloadInv p N host s)
include h

theorem commit {i n : Nat} (hv : s.Valid (.commit i n)) :
    OffloadInv p N host (s.setReq i { s.req i with kvCommittedLen := n }) := by
  obtain ⟨r, hi, _, hall, hrow⟩ := hv
  have hr := h.device.req r (mem_of_getElem? hi)
  rw [req_eq hi]
  refine h.replace hi (h.device.replace hi h.device.ok ?_ rfl) ?_ ?_
  · exact { hr with allTokens_le := hall, committed_le := hrow }
  · exact fun _ _ _ => ⟨rfl, rfl, rfl, rfl⟩
  · exact h.pending i r hi

theorem withAllocator {a : Allocator} (hok : a.Ok p.pageSize)
    (hpages : a.pages = s.allocator.pages) : OffloadInv p N host { s with allocator := a } :=
  ⟨⟨hok, h.device.req, hpages ▸ h.device.pages⟩, h.ops, h.ops_nodup, h.pending, h.hostPage, h.host⟩

theorem step {act : OffloadAction} (hv : s.Valid act)
    (hc : s.AtFinish p act) : s.step p args act = .error .outOfMemory ∨
      ∃ s', s.step p args act = .ok s' ∧ OffloadInv p N host s' := by
  have hok := h.device.ok
  cases act with
  | arrive ids token reasoningTokens => exact h.arrive ids token reasoningTokens
  | grow i n =>
    obtain ⟨r, hi, hf, hn⟩ := hv
    exact h.grow hi hf hn
  | commit i n => exact .inr ⟨_, rfl, h.commit hv⟩
  | result i tokens finished refuse => exact .inr (h.result hv hc)
  | ackWrites n => exact .inr (checkOffloadProgress n h hv)
  | ackBackups n => exact .inr (checkBackupProgress n h hv)
  | freeGroupBegin =>
    exact .inr ⟨_, rfl, h.withAllocator hok.freeGroupBegin (pages_freeGroupBegin hv)⟩
  | freeGroupEnd =>
    have hnd := (nodup_add.mp h.device.nodup).1
    exact .inr ⟨_, rfl, h.withAllocator (hok.freeGroupEnd hv)
      (pages_freeGroupEnd p.pageSize_pos hok hv hnd)⟩

theorem safe : SlotsSafe p N host s where
  conserved := h.device.pages
  unfinished r hr hf x hx := by
    have hok := h.device.req r hr
    refine h.device.not_mem_pages hr ?_
    rw [hok.held_unfinished hf]
    exact ((hok.laid.started p.pageSize_pos).mem_pagesOf p.pageSize_pos).mpr ⟨x, hx, rfl⟩
  copies op hop x hx := by
    obtain ⟨r, hi, hf, hlive, hstart, hdev⟩ := (h.ops op hop).req
    have hr := mem_of_getElem? hi
    have hlaid := (h.device.req r hr).laid.drop p.pageSize_pos (prefillOffloadedLen_dvd p r)
    refine h.device.not_mem_pages hr ?_
    have hheld : r.held p = r.row.drop (r.prefillOffloadedLen p) := by
      rw [OffloadReq.held, hlive, hf]
      rfl
    rw [hheld]
    refine ((hlaid.started p.pageSize_pos).mem_pagesOf p.pageSize_pos).mpr ⟨x, ?_, rfl⟩
    rw [hdev, slice, hstart] at hx
    rw [drop_take] at hx
    exact mem_of_mem_take hx
  pending := h.pending
  host := h.host

end OffloadInv

theorem OffloadRun.inv {N : Nat} {host : List Nat} {s : OffloadManager}
    (hr : OffloadRun p args (OffloadManager.AtFinish p) s₀ acts s) (h0 : OffloadInv p N host s₀) :
    OffloadInv p N host s := by
  induction hr with
  | nil => exact h0
  | snoc _ hv hc hs ih =>
    rcases ih.step hv hc with hoom | ⟨s', hok, hinv⟩
    · cases hs.symm.trans hoom
    · cases hs.symm.trans hok
      exact hinv

/-- In runs where a request is only offloaded with its last result, and a prompt of at least a page
only when the host takes the copy, slots are given back once and not too early, and no action fails
but for lack of device memory. -/
theorem offload_run_safe (size : Nat) (needSort : Bool) (host : List Nat)
    {acts : List OffloadAction} {s : OffloadManager}
    (h : OffloadRun p args (OffloadManager.AtFinish p)
      (.init (init p.pageSize size needSort) ⟨p.pageSize, host⟩) acts s) :
    SlotsSafe p (size / p.pageSize) host s ∧
      ∀ act, s.Valid act → s.AtFinish p act →
        s.step p args act = .error .outOfMemory ∨ ∃ s', s.step p args act = .ok s' := by
  have hinv := h.inv (OffloadInv.init p size needSort host)
  refine ⟨hinv.safe, fun act hv hc => ?_⟩
  rcases hinv.step hv hc with hoom | ⟨s', hok, _⟩
  · exact .inl hoom
  · exact .inr ⟨s', hok⟩

/-! ## Runs that compute -/

/-- The manager after valid actions that meet `Cond`. -/
def OffloadManager.exec (p : OffloadParams) (args : ServerArgs)
    (Cond : OffloadManager → OffloadAction → Prop) [∀ s a, Decidable (Cond s a)] :
    OffloadManager → List OffloadAction → Option OffloadManager
  | s, [] => some s
  | s, a :: acts =>
    if s.Valid a ∧ Cond s a then
      match s.step p args a with
      | .ok s' => s'.exec p args Cond acts
      | .error _ => none
    else none

theorem OffloadRun.exec [∀ s a, Decidable (Cond s a)] {s' : OffloadManager} :
    ∀ {acts pre : List OffloadAction} {s : OffloadManager}, OffloadRun p args Cond s₀ pre s →
      s.exec p args Cond acts = some s' → OffloadRun p args Cond s₀ (pre ++ acts) s' := by
  intro acts
  induction acts with
  | nil =>
    intro pre s h hs
    cases hs
    rwa [append_nil]
  | cons a acts ih =>
    intro pre s h hs
    unfold OffloadManager.exec at hs
    split_ifs at hs with hv
    cases hstep : s.step p args a with
    | error e =>
      rw [hstep] at hs
      cases hs
    | ok s1 =>
      rw [hstep] at hs
      rw [append_cons]
      exact ih (h.snoc hv.1 hv.2 hstep) hs

theorem OffloadRun.of_exec [∀ s a, Decidable (Cond s a)]
    (h : (s₀.exec p args Cond acts).isSome = true) :
    OffloadRun p args Cond s₀ acts ((s₀.exec p args Cond acts).getD s₀) := by
  obtain ⟨s, hs⟩ := isSome_iff_exists.mp h
  rw [hs]
  exact OffloadRun.exec .nil hs

def offloadParams : OffloadParams := ⟨⟨1, Nat.one_pos, false⟩, 0⟩

def offloadArgs : ServerArgs := ⟨false, false, false⟩

def offloadStart : OffloadManager := .init (init 1 8 false) ⟨1, [0, 1, 2, 3]⟩

/-- A request with a prompt of two tokens gets slots for its third, and a result. -/
def offloadActs (finished refuse : Bool) : List OffloadAction :=
  [.arrive [1, 2] 3 0, .grow 0 3, .commit 0 3, .result 0 [4] finished refuse]

def offloadEnd (Cond : OffloadManager → OffloadAction → Prop) [∀ s a, Decidable (Cond s a)]
    (acts : List OffloadAction) : OffloadManager :=
  (offloadStart.exec offloadParams offloadArgs Cond acts).getD offloadStart

/-- The request finishes with an offload, which is then acknowledged and backed up. -/
def offloadAtFinish : List OffloadAction :=
  offloadActs true false ++ [.ackWrites 1, .ackBackups 1]

theorem offload_run_safe_at_finish :
    OffloadRun offloadParams offloadArgs (OffloadManager.AtFinish offloadParams) offloadStart
        offloadAtFinish (offloadEnd (OffloadManager.AtFinish offloadParams) offloadAtFinish) ∧
      SlotsSafe offloadParams 8 [0, 1, 2, 3]
        (offloadEnd (OffloadManager.AtFinish offloadParams) offloadAtFinish) := by
  have hrun : OffloadRun offloadParams offloadArgs (OffloadManager.AtFinish offloadParams)
      offloadStart offloadAtFinish
      (offloadEnd (OffloadManager.AtFinish offloadParams) offloadAtFinish) :=
    OffloadRun.of_exec (by decide)
  exact ⟨hrun, (offload_run_safe 8 false [0, 1, 2, 3] hrun).1⟩

/-- An offload in the middle of decoding gives the slots of the prompt back while the request is
unfinished; and a copy that is refused at the end gives them back twice. -/
theorem offload_frees_prompt_early_or_twice :
    (OffloadRun offloadParams offloadArgs (fun _ _ => True) offloadStart (offloadActs false false)
        (offloadEnd (fun _ _ => True) (offloadActs false false)) ∧
      ∃ r ∈ (offloadEnd (fun _ _ => True) (offloadActs false false)).reqs, r.finished = false ∧
        ∃ x ∈ r.row, x / offloadParams.pageSize ∈
          (offloadEnd (fun _ _ => True) (offloadActs false false)).allocator.pages) ∧
    (OffloadRun offloadParams offloadArgs (fun _ _ => True) offloadStart (offloadActs true true)
        (offloadEnd (fun _ _ => True) (offloadActs true true)) ∧
      ¬ (offloadEnd (fun _ _ => True) (offloadActs true true)).allocator.pages.Nodup) := by
  refine ⟨⟨OffloadRun.of_exec (by decide), ?_⟩, OffloadRun.of_exec (by decide), by decide⟩
  decide

end Fluxfer.Disagg
