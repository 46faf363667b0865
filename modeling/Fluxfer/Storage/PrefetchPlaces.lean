import Fluxfer.Storage.Prefetch

/-!
# Where the host slots of prefetches are

`places` lists where the host slots are: in the free list, in the tree, on the way to the free
list, with an operation that a thread has or that waits for one, or among the completed tokens of
a registered prefetch. A step `Moves` slots between these places.

An operation goes through the stages of `Stage`; `stages` lists the operations that are at one.
-/

namespace Fluxfer.Storage

open Radix Hi List

/-! ## Dictionaries as lists -/

section Dict

variable {α M : Type} [AddCommMonoid M] {l : List (Nat × α)} {rid : Nat} {e : α}

theorem mem_of_lookup (h : l.lookup rid = some e) : (rid, e) ∈ l := by
  obtain ⟨l1, l2, rfl, -⟩ := lookup_eq_some_iff.mp h
  exact mem_append_right _ mem_cons_self

theorem ne_of_nodup {β : Type} {g : β → Nat} {l1 l2 : List β} {a : β}
    (hn : ((l1 ++ a :: l2).map g).Nodup) : (∀ x ∈ l1, g x ≠ g a) ∧ ∀ x ∈ l2, g x ≠ g a := by
  rw [map_append, map_cons, nodup_append, nodup_cons] at hn
  obtain ⟨-, ⟨hnot, -⟩, hne⟩ := hn
  exact ⟨fun x hx => hne _ (mem_map_of_mem hx) _ mem_cons_self,
    fun x hx heq => hnot (mem_map.mpr ⟨x, hx, heq⟩)⟩

theorem lookup_of_mem (hn : (l.map Prod.fst).Nodup) (h : (rid, e) ∈ l) : l.lookup rid = some e := by
  obtain ⟨l1, l2, rfl⟩ := append_of_mem h
  exact lookup_eq_some_iff.mpr
    ⟨l1, l2, rfl, fun x hx => bne_iff_ne.mpr ((ne_of_nodup hn).1 x hx).symm⟩

theorem ne_of_lookup_none (h : l.lookup rid = none) {x : Nat × α} (hx : x ∈ l) : x.1 ≠ rid := by
  rintro rfl
  exact bne_iff_ne.mp (lookup_eq_none_iff.mp h x hx) rfl

theorem filter_of_lookup_none (h : l.lookup rid = none) : (l.filter fun e => e.1 ≠ rid) = l := by
  rw [filter_eq_self]
  intro x hx
  simpa using ne_of_lookup_none h hx

theorem sum_filter_add {β : Type} (q : β → Prop) [DecidablePred q] (l : List β) (f : β → M) :
    (l.map f).sum =
      ((l.filter fun x => q x).map f).sum + ((l.filter fun x => ¬ q x).map f).sum := by
  have h := ((filter_append_perm (fun x => decide (q x)) l).map f).sum_eq
  rw [map_append, sum_append] at h
  simp only [decide_not]
  exact h.symm

theorem sum_of_lookup (hn : (l.map Prod.fst).Nodup) (h : l.lookup rid = some e)
    (f : Nat × α → M) :
    (l.map f).sum = f (rid, e) + ((l.filter fun e => e.1 ≠ rid).map f).sum := by
  obtain ⟨l1, l2, rfl, -⟩ := lookup_eq_some_iff.mp h
  obtain ⟨h1, h2⟩ := ne_of_nodup hn
  have hf1 : (l1.filter fun e => e.1 ≠ rid) = l1 := filter_eq_self.mpr (by simpa using h1)
  have hf2 : (l2.filter fun e => e.1 ≠ rid) = l2 := filter_eq_self.mpr (by simpa using h2)
  rw [filter_append, filter_cons_of_neg (by simp), hf1, hf2]
  simp only [map_append, sum_append]
  exact add_left_comm _ _ _

theorem sum_map_set {β : Type} (f : β → M) {l : List β} {i : Nat} {a : β} (h : l[i]? = some a) :
    ∃ r, (l.map f).sum = f a + r ∧ ∀ b, ((l.set i b).map f).sum = f b + r := by
  induction l generalizing i with
  | nil => cases h
  | cons x l ih =>
    cases i with
    | zero =>
      cases h
      exact ⟨(l.map f).sum, rfl, fun b => rfl⟩
    | succ i =>
      obtain ⟨r, hr, hset⟩ := ih h
      refine ⟨f x + r, ?_, fun b => ?_⟩
      · rw [map_cons, sum_cons, hr, add_left_comm]
      · rw [set_cons_succ, map_cons, sum_cons, hset, add_left_comm]

theorem mem_sum_map {β γ : Type} {f : β → Multiset γ} {l : List β} {x : γ} :
    x ∈ (l.map f).sum ↔ ∃ a ∈ l, x ∈ f a := by
  induction l with
  | nil => simp
  | cons a l ih => simp [ih]

end Dict

theorem flatten_chunks {ps : Nat} (hps : 0 < ps) :
    ∀ (fuel : Nat) (l : List Nat), l.length ≤ fuel → (chunks ps fuel l).flatten = l := by
  intro fuel
  induction fuel with
  | zero =>
    intro l hl
    rw [eq_nil_of_length_eq_zero (Nat.le_zero.mp hl)]
    rfl
  | succ fuel ih =>
    intro l hl
    rw [chunks]
    split_ifs with hnil
    · rw [hnil]
      rfl
    · rw [flatten_cons, ih _ (by
        rw [length_drop]
        omega), take_append_drop]

/-- Where an operation is on its way through the threads. -/
inductive Stage
  | queued
  | querying
  | revoking
  | trimming (hits : Nat)
  | buffered
  | transferring (first prevCompleted : Nat)
  | releasing

namespace Stage

/-- The slots of an operation that no one else has. -/
def slots (op : PrefetchOperation) : Stage → List Nat
  | trimming hits => op.hostIndices.take hits
  | transferring _ _ | releasing => op.hostIndices.drop op.completedTokens
  | queued | querying | revoking | buffered => op.hostIndices

/-- No I/O thread has the operation yet. -/
def Waiting : Stage → Prop
  | transferring _ _ | releasing => False
  | queued | querying | revoking | trimming _ | buffered => True

end Stage

namespace PrefetchState

variable {s : PrefetchState}

/-! ## The places -/

/-- The slots of an operation that no thread has started to transfer. -/
def opSlots (ops : OpId → PrefetchOperation) (o : OpId) : Multiset Nat := (ops o).hostIndices

/-- The slots of an operation that are not completed. -/
def restSlots (ops : OpId → PrefetchOperation) (o : OpId) : Multiset Nat :=
  (ops o).hostIndices.drop (ops o).completedTokens

/-- The completed slots of a registered prefetch. -/
def doneSlots (ops : OpId → PrefetchOperation) (e : OngoingPrefetch) : Multiset Nat :=
  e.hostIndices.take (ops e.operation).completedTokens

def threadSlots (ops : OpId → PrefetchOperation) : PrefetchThread → Multiset Nat
  | .idle => 0
  | .querying o => opSlots ops o
  | .revoking o => opSlots ops o
  | .trimming o hits => ((ops o).hostIndices.take hits : List Nat)

def ioSlots (ops : OpId → PrefetchOperation) : IoThread → Multiset Nat
  | .transferring o _ _ => restSlots ops o
  | .releasing o => restSlots ops o
  | _ => 0

/-- The slots that operations and registered prefetches have. -/
def held (s : PrefetchState) : Multiset Nat :=
  (s.prefetchQueue.map (opSlots s.operations)).sum + threadSlots s.operations s.prefetchThread +
    (s.prefetchBuffer.map (opSlots s.operations)).sum +
    (s.ioThreads.map (ioSlots s.operations)).sum +
    (s.ongoingPrefetch.map fun e => doneSlots s.operations e.2).sum

/-- Where the host slots are. -/
def places (s : PrefetchState) : Multiset Nat :=
  s.hostPool.freeSlots + s.treeSlots + s.hostMemReleaseQueue.flatten + s.held

/-- The slots that no operation and no registered prefetch has. -/
def loose (s : PrefetchState) : Multiset Nat :=
  s.hostPool.freeSlots + s.treeSlots + s.hostMemReleaseQueue.flatten

/-- The completed slots of the registered prefetches. -/
def doneSum (s : PrefetchState) : Multiset Nat :=
  (s.ongoingPrefetch.map fun e => doneSlots s.operations e.2).sum

/-! ## The stages of operations -/

def threadStages : PrefetchThread → Multiset (OpId × Stage)
  | .idle => 0
  | .querying o => {(o, .querying)}
  | .revoking o => {(o, .revoking)}
  | .trimming o hits => {(o, .trimming hits)}

def ioStages : IoThread → Multiset (OpId × Stage)
  | .transferring o first prevCompleted => {(o, .transferring first prevCompleted)}
  | .releasing o => {(o, .releasing)}
  | .idle | .dead => 0

/-- The operations that wait for a thread or that a thread has. -/
def stages (s : PrefetchState) : Multiset (OpId × Stage) :=
  (s.prefetchQueue.map fun o => (o, Stage.queued) : List (OpId × Stage)) +
    threadStages s.prefetchThread +
    (s.prefetchBuffer.map fun o => (o, Stage.buffered) : List (OpId × Stage)) +
    (s.ioThreads.map ioStages).sum

def slotsOf (ops : OpId → PrefetchOperation) (m : Multiset (OpId × Stage)) : Multiset Nat :=
  (m.map fun x => (x.2.slots (ops x.1) : Multiset Nat)).sum

section Slots

variable {ops ops' : OpId → PrefetchOperation} {m m' : Multiset (OpId × Stage)}

theorem slotsOf_add : slotsOf ops (m + m') = slotsOf ops m + slotsOf ops m' := by
  rw [slotsOf, Multiset.map_add, Multiset.sum_add, slotsOf, slotsOf]

theorem slotsOf_singleton {x : OpId × Stage} : slotsOf ops {x} = x.2.slots (ops x.1) := by
  rw [slotsOf, Multiset.map_singleton, Multiset.sum_singleton]

theorem slotsOf_congr (h : ∀ x ∈ m, (ops' x.1).hostIndices = (ops x.1).hostIndices ∧
    (ops' x.1).completedTokens = (ops x.1).completedTokens) : slotsOf ops' m = slotsOf ops m := by
  refine congrArg Multiset.sum (Multiset.map_congr rfl fun x hx => ?_)
  obtain ⟨hhost, hdone⟩ := h x hx
  cases x.2 <;> simp only [Stage.slots, hhost, hdone]

theorem held_eq (s : PrefetchState) : s.held = slotsOf s.operations s.stages + s.doneSum := by
  have hlist : ∀ (l : List OpId) (x : Stage), (∀ op, x.slots op = op.hostIndices) →
      slotsOf s.operations (l.map fun o => (o, x) : List (OpId × Stage)) =
        (l.map (opSlots s.operations)).sum := by
    intro l x hx
    rw [slotsOf, Multiset.map_coe, map_map]
    refine congrArg sum (map_congr_left fun o _ => ?_)
    rw [Function.comp_apply, hx, opSlots]
  have hio : slotsOf s.operations (s.ioThreads.map ioStages).sum =
      (s.ioThreads.map (ioSlots s.operations)).sum := by
    induction s.ioThreads with
    | nil => rfl
    | cons x l ih =>
      rw [map_cons, sum_cons, slotsOf_add, map_cons, sum_cons]
      congr 1
      cases x <;> first | exact slotsOf_singleton | rfl
  have hthread : slotsOf s.operations (threadStages s.prefetchThread) =
      threadSlots s.operations s.prefetchThread := by
    cases s.prefetchThread <;> first | exact slotsOf_singleton | rfl
  rw [held, stages, slotsOf_add, slotsOf_add, slotsOf_add, hlist _ _ fun _ => rfl, hthread,
    hlist _ _ fun _ => rfl, hio, doneSum]

theorem places_eq (s : PrefetchState) :
    s.places = s.loose + slotsOf s.operations s.stages + s.doneSum := by
  rw [places, held_eq, ← add_assoc, loose]

end Slots

theorem stages_setIo {i : Nat} {a : IoThread} (h : s.ioThreads[i]? = some a) :
    ∃ r, s.stages = ioStages a + r ∧ ∀ b, (s.setIo i b).stages = ioStages b + r := by
  obtain ⟨r, hr, hset⟩ := sum_map_set ioStages h
  refine ⟨(s.prefetchQueue.map fun o => (o, Stage.queued) : List (OpId × Stage)) +
    threadStages s.prefetchThread +
    (s.prefetchBuffer.map fun o => (o, Stage.buffered) : List (OpId × Stage)) + r, ?_, fun b => ?_⟩
  · rw [stages, hr, add_left_comm]
  · show _ + ((s.ioThreads.set i b).map ioStages).sum = _
    rw [hset, add_left_comm]
    rfl

theorem mem_stages_io {i : Nat} {a : IoThread} {x : OpId × Stage} (h : s.ioThreads[i]? = some a)
    (hx : x ∈ ioStages a) : x ∈ s.stages := by
  obtain ⟨r, hr, -⟩ := stages_setIo h
  exact hr ▸ Multiset.mem_add.mpr (Or.inl hx)

theorem stages_setThread (s : PrefetchState) :
    ∃ r, s.stages = threadStages s.prefetchThread + r ∧
      ∀ x, (s.setThread x).stages = threadStages x + r := by
  refine ⟨(s.prefetchQueue.map fun o => (o, Stage.queued) : List (OpId × Stage)) +
    (s.prefetchBuffer.map fun o => (o, Stage.buffered) : List (OpId × Stage)) +
    (s.ioThreads.map ioStages).sum, ?_, fun x => ?_⟩
  · rw [stages]
    abel
  · simp only [stages, setThread]
    abel

/-! ## The bookkeeping of operations and registered prefetches -/

/-- A prefetch with this operation is registered. -/
def Registered (s : PrefetchState) (o : OpId) : Prop :=
  ∃ x ∈ s.ongoingPrefetch, x.2.operation = o

structure Wf (s : PrefetchState) : Prop where
  keys : (s.ongoingPrefetch.map Prod.fst).Nodup
  entries : (s.ongoingPrefetch.map fun e => e.2.operation).Nodup
  entry_lt : ∀ e ∈ s.ongoingPrefetch, e.2.operation < s.counter
  entry_prefix : ∀ e ∈ s.ongoingPrefetch,
    (s.operations e.2.operation).hostIndices <+: e.2.hostIndices
  live : (s.stages.map Prod.fst).Nodup
  live_lt : ∀ x ∈ s.stages, x.1 < s.counter
  waiting : ∀ x ∈ s.stages, x.2.Waiting → (s.operations x.1).completedTokens = 0
  completed_le : ∀ o, (s.operations o).completedTokens ≤ (s.operations o).hostIndices.length

/-- `t` has the slots of `s` apart from `d`. -/
structure Moves (s t : PrefetchState) (d : Multiset Nat) : Prop where
  wf : t.Wf
  places : s.places = t.places + d

section Frames

variable {t u : PrefetchState} {o : OpId} {f : PrefetchOperation → PrefetchOperation}
variable {rid : Nat} {e : OngoingPrefetch}

theorem Moves.refl (h : s.Wf) : Moves s s 0 := ⟨h, (add_zero _).symm⟩

theorem find_mem (h : s.find rid = some e) : (rid, e) ∈ s.ongoingPrefetch := mem_of_lookup h

theorem Wf.notMem_rest (hs : s.Wf) {x : Stage} {r : Multiset (OpId × Stage)}
    (h : s.stages = {(o, x)} + r) : ∀ z ∈ r, z.1 ≠ o := by
  intro z hz heq
  have hnodup := hs.live
  rw [h, Multiset.map_add, Multiset.map_singleton, Multiset.singleton_add,
    Multiset.nodup_cons] at hnodup
  exact hnodup.1 (Multiset.mem_map.mpr ⟨z, hz, heq⟩)

theorem modifyOp_of_ne (f : PrefetchOperation → PrefetchOperation) {o' : OpId} (h : o' ≠ o) :
    (s.modifyOp o f).operations o' = s.operations o' :=
  Function.update_of_ne h _ _

theorem modifyOp_self (s : PrefetchState) (o : OpId) (f : PrefetchOperation → PrefetchOperation) :
    (s.modifyOp o f).operations o = f (s.operations o) :=
  Function.update_self _ _ _

theorem modifyOp_keeps {α : Type} (g : PrefetchOperation → α) (h : ∀ x, g (f x) = g x)
    (s : PrefetchState) (o o' : OpId) :
    g ((s.modifyOp o f).operations o') = g (s.operations o') := by
  by_cases ho : o' = o
  · rw [ho, modifyOp_self, h]
  · rw [modifyOp_of_ne f ho]

theorem doneSum_congr (hongoing : t.ongoingPrefetch = s.ongoingPrefetch)
    (h : ∀ e ∈ s.ongoingPrefetch, (t.operations e.2.operation).completedTokens =
      (s.operations e.2.operation).completedTokens) : t.doneSum = s.doneSum := by
  rw [doneSum, hongoing]
  refine congrArg sum (map_congr_left fun e he => ?_)
  rw [doneSlots, h e he, doneSlots]

theorem Wf.pass (hs : s.Wf) (hsub : t.ongoingPrefetch.Sublist s.ongoingPrefetch)
    (hcounter : t.counter = s.counter) (hstages : t.stages ≤ s.stages)
    (hhost : ∀ o, (t.operations o).hostIndices = (s.operations o).hostIndices)
    (hdone : ∀ o, (t.operations o).completedTokens = (s.operations o).completedTokens) : t.Wf where
  keys := hs.keys.sublist (hsub.map _)
  entries := hs.entries.sublist (hsub.map _)
  entry_lt := fun e he => hcounter ▸ hs.entry_lt e (hsub.subset he)
  entry_prefix := fun e he => hhost _ ▸ hs.entry_prefix e (hsub.subset he)
  live := Multiset.nodup_of_le (Multiset.map_le_map hstages) hs.live
  live_lt := fun x hx => hcounter ▸ hs.live_lt x (Multiset.mem_of_le hstages hx)
  waiting := fun x hx hw => (hdone _).trans (hs.waiting x (Multiset.mem_of_le hstages hx) hw)
  completed_le := fun o => by
    rw [hdone, hhost]
    exact hs.completed_le o

theorem Wf.same (hs : s.Wf) (hongoing : t.ongoingPrefetch = s.ongoingPrefetch)
    (hcounter : t.counter = s.counter) (hstages : t.stages = s.stages)
    (hops : t.operations = s.operations) : t.Wf :=
  hs.pass (hongoing ▸ .refl _) hcounter hstages.le (fun _ => by rw [hops]) fun _ => by rw [hops]

end Frames

end PrefetchState

end Fluxfer.Storage
