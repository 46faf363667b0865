import Fluxfer.Disagg.StagingRing

/-!
# Runs of the staging protocol

The decode side tells the prefill workers how far the oldest region in use is
(`disaggregation/common/staging_handler.py`), and a worker writes a region only when the last
watermark that reached it shows that the region is ready. Both sides and the messages take their
steps in any order (`StagingStep`).
-/

namespace Fluxfer.Disagg

variable {W : Type}

/-- `W` are the prefill workers. -/
structure StagingState (W : Type) where
  allocator : StagingAllocator
  /-- the regions a worker knows of, by `alloc_id` -/
  offers : W → Nat → Option Offer
  /-- the `WATERMARK` messages to a worker that it has not handled -/
  inFlight : W → List Watermark
  remoteWatermarks : W → Watermark
  /-- the regions that were written -/
  written : List Nat
  /-- the region that wrote a byte last -/
  memory : Nat → Option Nat

namespace StagingState

def init (totalSize : Nat) : StagingState W where
  allocator := .init totalSize
  offers := fun _ _ => none
  inFlight := fun _ => []
  remoteWatermarks := fun _ => toLex (0, 0)
  written := []
  memory := fun _ => none

def withAllocator (s : StagingState W) (a : StagingAllocator) : StagingState W :=
  { s with allocator := a }

def handleStagingRsp [DecidableEq W] (s : StagingState W) (w : W) (i : Nat) (x : Region) :
    StagingState W :=
  { s with
    offers := fun v j =>
      if v = w ∧ j = i then some x.offer else s.offers v j }

/-- `_free_and_send_watermark`, when the message to a worker is sent if it is one of
`receivers`: the others are no subscribers, or the connection to them fails. -/
def freeAndSendWatermark (s : StagingState W) (i : Nat) (receivers : W → Bool) : StagingState W :=
  let a := s.allocator.free i
  { s with
    allocator := a
    inFlight := fun w =>
      if receivers w then s.inFlight w ++ [a.getWatermark] else s.inFlight w }

/-- `handle_watermark_msg` for the first message to `w` -/
def handleWatermarkMsg [DecidableEq W] (s : StagingState W) (w : W) (m : Watermark)
    (ms : List Watermark) :
    StagingState W :=
  { s with
    inFlight := fun v => if v = w then ms else s.inFlight v
    remoteWatermarks := fun v =>
      if v = w ∧ s.remoteWatermarks w < m then m else s.remoteWatermarks v }

/-- `w` may write region `i`: it is not freed, it is offered to `w`, and `check_ready` says it is
ready. -/
def CanWrite (s : StagingState W) (w : W) (i : Nat) (o : Offer) : Prop :=
  i ∈ s.allocator.ids ∧ s.offers w i = some o ∧
    isWatermarkReady (s.remoteWatermarks w) o.round o.stop = true

/-- The transfer into the bytes of an offer. -/
def write (s : StagingState W) (i : Nat) (o : Offer) : StagingState W :=
  { s with
    written := i :: s.written
    memory := fun b => if b ∈ o.bytes then some i else s.memory b }

end StagingState

open StagingState List

/-- A region is written by one worker or by several, and is freed only when it was written. -/
inductive StagingStep {W : Type} [DecidableEq W] : StagingState W → StagingState W → Prop
  | assign {s : StagingState W} {n : Nat} {x : Nat × Region} {a : StagingAllocator} :
      s.allocator.assign n = some (x, a) → StagingStep s (s.withAllocator a)
  | offer {s : StagingState W} (w : W) {i : Nat} {x : Region} :
      (i, x) ∈ s.allocator.allocations → StagingStep s (s.handleStagingRsp w i x)
  | free {s : StagingState W} {i : Nat} (receivers : W → Bool) :
      i ∈ s.written → StagingStep s (s.freeAndSendWatermark i receivers)
  | deliver {s : StagingState W} (w : W) {m : Watermark} {ms : List Watermark} :
      s.inFlight w = m :: ms → StagingStep s (s.handleWatermarkMsg w m ms)
  | write {s : StagingState W} {w : W} {i : Nat} {o : Offer} :
      s.CanWrite w i o → StagingStep s (s.write i o)

/-- The states reached from an empty ring. -/
inductive StagingRun {W : Type} [DecidableEq W] (totalSize : Nat) : StagingState W → Prop
  | init : StagingRun totalSize (.init totalSize)
  | step {s t : StagingState W} : StagingRun totalSize s → StagingStep s t →
      StagingRun totalSize t

/-! ## The protocol -/

namespace StagingState

variable {w : W} {i j : Nat} {o : Offer} {x y : Region}

/-- What holds in every state of a run. -/
structure Inv (s : StagingState W) : Prop where
  allocator : s.allocator.Inv
  offer_eq : ∀ {w i o x}, s.offers w i = some o → (i, x) ∈ s.allocator.allocations → o = x.offer
  offer_lt : ∀ {w i o}, s.offers w i = some o → i < s.allocator.nextAllocId
  inFlight_le : ∀ w, ∀ m ∈ s.inFlight w, m ≤ s.allocator.getWatermark
  remote_le : ∀ w, s.remoteWatermarks w ≤ s.allocator.getWatermark
  written_lt : ∀ i ∈ s.written, i < s.allocator.nextAllocId
  /-- a region that was written is clear of the older ones in use -/
  clear : ∀ {i x j y}, (i, x) ∈ s.allocator.allocations → (j, y) ∈ s.allocator.allocations →
    i < j → j ∈ s.written → Disjoint x.bytes y.bytes
  /-- a region that was written and is in use holds its data -/
  intact : ∀ {i x}, (i, x) ∈ s.allocator.allocations → i ∈ s.written →
    ∀ b ∈ x.bytes, s.memory b = some i

theorem init_inv (n : Nat) : (init n : StagingState W).Inv where
  allocator := StagingAllocator.init_inv n
  offer_eq := by simp [init]
  offer_lt := by simp [init]
  inFlight_le := by simp [init]
  remote_le := by simp [init, StagingAllocator.init, StagingAllocator.getWatermark]
  written_lt := by simp [init]
  clear := by simp [init]
  intact := by simp [init]

variable {s : StagingState W}

theorem CanWrite.exists_mem (hc : s.CanWrite w i o) (h : s.Inv) :
    ∃ x, (i, x) ∈ s.allocator.allocations ∧ o = x.offer := by
  obtain ⟨hi, ho, -⟩ := hc
  obtain ⟨⟨_, x⟩, hx, rfl⟩ := mem_map.mp hi
  exact ⟨x, hx, h.offer_eq ho hx⟩

theorem CanWrite.disjoint_older (hc : s.CanWrite w j y.offer) (h : s.Inv)
    (hx : (i, x) ∈ s.allocator.allocations) (hy : (j, y) ∈ s.allocator.allocations) (hij : i < j) :
    Disjoint x.bytes y.bytes := by
  obtain ⟨-, hxy⟩ | ⟨hji, -⟩ := h.allocator.before_or hx hy hij.ne
  · exact Region.disjoint_of_ready hxy ((h.remote_le w).trans (h.allocator.mark_le _ hx)) hc.2.2
  · omega

/-- A region that can be written is clear of the written ones in use: those before it, as it is
ready, and those after it, as they were when they were written. -/
theorem CanWrite.disjoint_written (hc : s.CanWrite w i o) (h : s.Inv)
    (hy : (j, y) ∈ s.allocator.allocations) (hw : j ∈ s.written) (hij : j ≠ i) :
    Disjoint o.bytes y.bytes := by
  obtain ⟨x, hx, rfl⟩ := hc.exists_mem h
  obtain hlt | hlt := Nat.lt_or_gt_of_ne hij
  · exact (hc.disjoint_older h hy hx hlt).symm
  · exact h.clear hx hy hlt hw

theorem CanWrite.disjoint {v : W} {p : Offer} (hv : s.CanWrite v i o) (hw : s.CanWrite w j p)
    (h : s.Inv) (hij : i ≠ j) : Disjoint o.bytes p.bytes := by
  obtain ⟨x, hx, rfl⟩ := hv.exists_mem h
  obtain ⟨y, hy, rfl⟩ := hw.exists_mem h
  obtain hlt | hlt := Nat.lt_or_gt_of_ne hij
  · exact hw.disjoint_older h hx hy hlt
  · exact (hv.disjoint_older h hy hx hlt).symm

/-! ### Steps -/

theorem Inv.assign (h : s.Inv) {n : Nat} {x : Nat × Region} {a : StagingAllocator}
    (ha : s.allocator.assign n = some (x, a)) : (s.withAllocator a).Inv := by
  unfold StagingAllocator.assign at ha
  split_ifs at ha with hn
  obtain ⟨-, rfl⟩ := Prod.mk.inj (Option.some.inj ha)
  set y := s.allocator.place n
  have hmem : ∀ {i z}, (i, z) ∈ (s.allocator.push y).allocations →
      i < s.allocator.nextAllocId → (i, z) ∈ s.allocator.allocations := by
    intro i z hz hi
    obtain hz | hz := mem_append.mp hz
    · exact hz
    · rw [(Prod.mk.inj (mem_singleton.mp hz)).1] at hi
      exact absurd hi (lt_irrefl _)
  have hnext : s.allocator.nextAllocId < (s.allocator.push y).nextAllocId := Nat.lt_succ_self _
  exact {
    allocator := h.allocator.push (by omega)
    offer_eq := fun ho hz => h.offer_eq ho (hmem hz (h.offer_lt ho))
    offer_lt := fun ho => (h.offer_lt ho).trans hnext
    inFlight_le := h.inFlight_le
    remote_le := h.remote_le
    written_lt := fun i hi => (h.written_lt i hi).trans hnext
    clear := fun hx hy hij hw =>
      h.clear (hmem hx (hij.trans (h.written_lt _ hw))) (hmem hy (h.written_lt _ hw)) hij hw
    intact := fun hx hw => h.intact (hmem hx (h.written_lt _ hw)) hw }

theorem Inv.offer [DecidableEq W] (h : s.Inv) (w : W) (hx : (i, x) ∈ s.allocator.allocations) :
    (s.handleStagingRsp w i x).Inv where
  allocator := h.allocator
  offer_eq := by
    intro v j o y ho hy
    simp only [handleStagingRsp] at ho hy
    split_ifs at ho with hv
    · obtain ⟨-, rfl⟩ := hv
      rw [← Option.some.inj ho, h.allocator.eq_of_mem hx hy]
    · exact h.offer_eq ho hy
  offer_lt := by
    intro v j o ho
    simp only [handleStagingRsp] at ho ⊢
    split_ifs at ho with hv
    · rw [hv.2]
      exact h.allocator.id_lt _ hx
    · exact h.offer_lt ho
  inFlight_le := h.inFlight_le
  remote_le := h.remote_le
  written_lt := h.written_lt
  clear := h.clear
  intact := h.intact

theorem Inv.free (h : s.Inv) (i : Nat) (receivers : W → Bool) :
    (s.freeAndSendWatermark i receivers).Inv := by
  have hf := h.allocator.free i
  have hmem : ∀ {e}, e ∈ (s.allocator.free i).allocations → e ∈ s.allocator.allocations :=
    fun he => ((hf.mem_iff _).mp he).1
  exact {
    allocator := hf.inv
    offer_eq := fun ho hx => h.offer_eq ho (hmem hx)
    offer_lt := fun ho => (h.offer_lt ho).trans_eq hf.next_eq.symm
    inFlight_le := by
      intro w m hm
      have hold : ∀ m ∈ s.inFlight w, m ≤ (s.allocator.free i).getWatermark :=
        fun m hm => (h.inFlight_le w m hm).trans hf.mark_le
      simp only [freeAndSendWatermark] at hm
      split_ifs at hm
      · obtain hm | hm := mem_append.mp hm
        · exact hold m hm
        · exact (mem_singleton.mp hm).le
      · exact hold m hm
    remote_le := fun w => (h.remote_le w).trans hf.mark_le
    written_lt := fun j hj => (h.written_lt j hj).trans_eq hf.next_eq.symm
    clear := fun hx hy => h.clear (hmem hx) (hmem hy)
    intact := fun hx => h.intact (hmem hx) }

theorem Inv.deliver [DecidableEq W] (h : s.Inv) {m : Watermark} {ms : List Watermark}
    (hq : s.inFlight w = m :: ms) : (s.handleWatermarkMsg w m ms).Inv where
  allocator := h.allocator
  offer_eq := h.offer_eq
  offer_lt := h.offer_lt
  inFlight_le := by
    intro v k hk
    simp only [handleWatermarkMsg] at hk
    split_ifs at hk with hv
    · subst hv
      exact h.inFlight_le v k (by simp [hq, hk])
    · exact h.inFlight_le v k hk
  remote_le := by
    intro v
    simp only [handleWatermarkMsg]
    split_ifs with hv
    · exact h.inFlight_le w m (by simp [hq])
    · exact h.remote_le v
  written_lt := h.written_lt
  clear := h.clear
  intact := h.intact

theorem Inv.write (h : s.Inv) (hc : s.CanWrite w i o) : (s.write i o).Inv := by
  obtain ⟨x, hx, rfl⟩ := hc.exists_mem h
  exact {
    allocator := h.allocator
    offer_eq := h.offer_eq
    offer_lt := h.offer_lt
    inFlight_le := h.inFlight_le
    remote_le := h.remote_le
    written_lt := by
      intro j hj
      obtain rfl | hj := mem_cons.mp hj
      · exact h.allocator.id_lt _ hx
      · exact h.written_lt j hj
    clear := by
      intro j y k z hy hz hjk hk
      obtain rfl | hk := mem_cons.mp hk
      · rw [h.allocator.eq_of_mem hx hz] at hc
        exact hc.disjoint_older h hy hz hjk
      · exact h.clear hy hz hjk hk
    intact := by
      intro j y hy hj b hb
      simp only [StagingState.write]
      by_cases hji : j = i
      · subst hji
        rw [h.allocator.eq_of_mem hx hy]
        exact if_pos hb
      · have hw : j ∈ s.written := (mem_cons.mp hj).resolve_left hji
        have hd := hc.disjoint_written h hy hw hji
        rw [if_neg (Finset.disjoint_right.mp hd hb)]
        exact h.intact hy hw b hb }

end StagingState

theorem StagingStep.inv [DecidableEq W] {s t : StagingState W} (hst : StagingStep s t) (h : s.Inv) :
    t.Inv := by
  cases hst with
  | assign ha => exact h.assign ha
  | offer w hx => exact h.offer w hx
  | free receivers _ => exact h.free _ receivers
  | deliver w hq => exact h.deliver hq
  | write hc => exact h.write hc

theorem StagingRun.inv [DecidableEq W] {s : StagingState W} {n : Nat} (h : StagingRun n s) :
    s.Inv := by
  induction h with
  | init => exact init_inv n
  | step _ hst ih => exact hst.inv ih

/-- **The staging ring never overwrites data in use.** In every state of a run, what a worker may
write is clear of every other region that was written and is not freed, two regions that may be
written are clear of each other, and every region that was written and is not freed holds its
data. -/
theorem staging_run_safe {W : Type} [DecidableEq W] {n : Nat} {s : StagingState W}
    (h : StagingRun n s) :
    (∀ w i o j y, s.CanWrite w i o → (j, y) ∈ s.allocator.allocations → j ∈ s.written → j ≠ i →
      Disjoint o.bytes y.bytes) ∧
    (∀ v w i j o p, s.CanWrite v i o → s.CanWrite w j p → i ≠ j → Disjoint o.bytes p.bytes) ∧
    (∀ i x, (i, x) ∈ s.allocator.allocations → i ∈ s.written →
      ∀ b ∈ x.bytes, s.memory b = some i) := by
  have hi := h.inv
  refine ⟨?_, ?_, ?_⟩
  · intro w i o j y hc hy hw hij
    exact hc.disjoint_written hi hy hw hij
  · intro v w i j o p hv hw hij
    exact hv.disjoint hw hi hij
  · intro i x hx hw
    exact hi.intact hx hw

/-- Two regions fill a ring of four bytes and are written, a third one is placed over the first. -/
def wrappedRing : StagingState Unit :=
  let s := ((StagingState.init 4).withAllocator
    ((((StagingAllocator.init 4).push ⟨0, 2, 0⟩).push ⟨2, 2, 0⟩).push ⟨0, 2, 1⟩))
  ((((s.handleStagingRsp () 0 ⟨0, 2, 0⟩).handleStagingRsp () 1 ⟨2, 2, 0⟩).handleStagingRsp () 2
    ⟨0, 2, 1⟩).write 0 ⟨0, 0, 2⟩).write 1 ⟨2, 0, 4⟩

/-- The first region is freed, and the watermark reaches the worker. -/
def wrappedRingFreed : StagingState Unit :=
  (wrappedRing.freeAndSendWatermark 0 fun _ => true).handleWatermarkMsg () (toLex (0, 2)) []

theorem wrappedRing_run : StagingRun 4 wrappedRing := by
  have h0 : StagingRun 4 (StagingState.init 4 : StagingState Unit) := .init
  have h1 := h0.step (.assign (n := 2) rfl)
  have h2 := h1.step (.assign (n := 2) rfl)
  have h3 := h2.step (.assign (n := 2) rfl)
  have h4 := h3.step (.offer () (i := 0) (x := ⟨0, 2, 0⟩) (by decide))
  have h5 := h4.step (.offer () (i := 1) (x := ⟨2, 2, 0⟩) (by decide))
  have h6 := h5.step (.offer () (i := 2) (x := ⟨0, 2, 1⟩) (by decide))
  have h7 := h6.step (.write (w := ()) (i := 0) ⟨by decide, rfl, rfl⟩)
  exact h7.step (.write (w := ()) ⟨by decide, rfl, rfl⟩)

theorem wrappedRingFreed_run : StagingRun 4 wrappedRingFreed :=
  (wrappedRing_run.step (.free (i := 0) (fun _ => true) (by decide))).step
    (.deliver () rfl)

/-- The third region is not ready in a full ring, and is ready when the first one is freed. Its
bytes are not those of the second one, which is still in use. -/
theorem staging_run_safe_wrapped :
    ¬ wrappedRing.CanWrite () 2 ⟨0, 1, 2⟩ ∧ wrappedRingFreed.CanWrite () 2 ⟨0, 1, 2⟩ ∧
      1 ∈ wrappedRingFreed.written ∧ Disjoint (Offer.bytes ⟨0, 1, 2⟩) (Region.bytes ⟨2, 2, 0⟩) := by
  have hc : wrappedRingFreed.CanWrite () 2 ⟨0, 1, 2⟩ := ⟨by decide, rfl, rfl⟩
  refine ⟨fun h => ?_, hc, by decide, ?_⟩
  · exact absurd h.2.2 (by decide)
  · exact (staging_run_safe wrappedRingFreed_run).1 () 2 _ 1 _ hc (by decide) (by decide)
      (by decide)

end Fluxfer.Disagg
