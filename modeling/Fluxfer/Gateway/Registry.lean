import Mathlib.Data.List.Induction
import Mathlib.Data.List.Nodup

/-!
# The worker registry of the gateway

`core/worker_registry.rs` keeps six maps: workers by id, ids by URL, workers by model, a hash ring
for each model, and ids by worker type and by connection mode. `register` takes the id that the URL
has already, and adds the worker to the indexes; it takes nothing out of them. `pos` is the place of
a virtual node on the ring.
-/

namespace Fluxfer.Gateway

open List Function Option

variable {url : String} {κ α : Type} {l : List WorkerId} {P : Worker → Prop}

inductive WorkerType
  | regular
  | prefill (bootstrapPort : Option Nat)
  | decode
deriving DecidableEq, Repr

inductive ConnectionMode
  | http
  | grpc (port : Option Nat)
deriving DecidableEq, Repr

/-- A worker, as far as the registry reads it; `handle` tells objects with equal fields apart. -/
structure Worker where
  handle : Nat
  url : String
  modelId : String
  workerType : WorkerType
  connectionMode : ConnectionMode
deriving DecidableEq, Repr

abbrev WorkerId := Nat

def virtualNodesPerWorker : Nat := 150

/-- The virtual nodes of one worker. -/
def virtualNodes (pos : String → Nat → Nat) (w : Worker) : List (Nat × String) :=
  (range virtualNodesPerWorker).map fun vnode => (pos w.url vnode, w.url)

def hashRing (pos : String → Nat → Nat) (workers : List Worker) : List (Nat × String) :=
  (workers.flatMap (virtualNodes pos)).mergeSort fun a b => decide (a.1 ≤ b.1)

structure Registry where
  workers : WorkerId → Option Worker
  modelIndex : String → Option (List Worker)
  hashRings : String → Option (List (Nat × String))
  typeWorkers : WorkerType → Option (List WorkerId)
  connectionWorkers : ConnectionMode → Option (List WorkerId)
  urlToId : String → Option WorkerId
  /-- ids from here on have not been given out -/
  nextId : WorkerId

/-- `entry(k).or_default().push(x)` -/
def pushAt {κ α : Type} [DecidableEq κ] (m : κ → Option (List α)) (k : κ) (x : α) :
    κ → Option (List α) :=
  update m k (some ((m k).getD [] ++ [x]))

/-- `if let Some(mut entry) = get_mut(k)`, which keeps the elements that `keep` accepts. -/
def retainAt {κ α : Type} [DecidableEq κ] (m : κ → Option (List α)) (k : κ) (keep : α → Bool) :
    κ → Option (List α) :=
  update m k ((m k).map (filter keep))

namespace Registry

def new : Registry where
  workers := fun _ => none
  modelIndex := fun _ => none
  hashRings := fun _ => none
  typeWorkers := fun _ => none
  connectionWorkers := fun _ => none
  urlToId := fun _ => none
  nextId := 0

def rebuildHashRing (pos : String → Nat → Nat) (r : Registry) (modelId : String) : Registry :=
  { r with hashRings :=
    Function.update r.hashRings modelId ((r.modelIndex modelId).map (hashRing pos)) }

/-- `register` with the id it has found. -/
def put (pos : String → Nat → Nat) (r : Registry) (id nextId : WorkerId) (w : Worker) : Registry :=
  let r := { r with
    workers := update r.workers id (some w)
    urlToId := update r.urlToId w.url (some id)
    modelIndex := pushAt r.modelIndex w.modelId w
    nextId := nextId }
  let r := r.rebuildHashRing pos w.modelId
  { r with
    typeWorkers := pushAt r.typeWorkers w.workerType id
    connectionWorkers := pushAt r.connectionWorkers w.connectionMode id }

def register (pos : String → Nat → Nat) (r : Registry) (w : Worker) : Registry :=
  match r.urlToId w.url with
  | some existing => r.put pos existing r.nextId w
  | none => r.put pos r.nextId (r.nextId + 1) w

def take (pos : String → Nat → Nat) (r : Registry) (id : WorkerId) (w : Worker) : Registry :=
  let r := { r with
    workers := update r.workers id none
    urlToId := update r.urlToId w.url none
    modelIndex := retainAt r.modelIndex w.modelId fun x => x.url ≠ w.url }
  let r := r.rebuildHashRing pos w.modelId
  { r with
    typeWorkers := retainAt r.typeWorkers w.workerType fun x => x ≠ id
    connectionWorkers := retainAt r.connectionWorkers w.connectionMode fun x => x ≠ id }

def remove (pos : String → Nat → Nat) (r : Registry) (id : WorkerId) : Registry :=
  match r.workers id with
  | none => r
  | some w => r.take pos id w

def removeByUrl (pos : String → Nat → Nat) (r : Registry) (url : String) : Registry :=
  match r.urlToId url with
  | none => r
  | some id => remove pos { r with urlToId := update r.urlToId url none } id

def getByUrl (r : Registry) (url : String) : Option Worker := (r.urlToId url).bind r.workers

def getByModel (r : Registry) (modelId : String) : List Worker := (r.modelIndex modelId).getD []

def getHashRing (r : Registry) (modelId : String) : List (Nat × String) :=
  (r.hashRings modelId).getD []

def idsByType (r : Registry) (ty : WorkerType) : List WorkerId := (r.typeWorkers ty).getD []

/-- The ids that `get_by_connection` looks up. -/
def idsByConnection (r : Registry) (mode : ConnectionMode) : List WorkerId :=
  (r.connectionWorkers mode).getD []

end Registry

open Registry

inductive RegistryOp
  | register (w : Worker)
  | remove (id : WorkerId)
  | removeByUrl (url : String)

def Registry.step (pos : String → Nat → Nat) (r : Registry) : RegistryOp → Registry
  | .register w => r.register pos w
  | .remove id => r.remove pos id
  | .removeByUrl url => r.removeByUrl pos url

def Registry.run (pos : String → Nat → Nat) (ops : List RegistryOp) : Registry :=
  ops.foldl (step pos) new

/-! ## Consistency -/

/-- `l` lists the ids of the registered workers with the property `P`, each once. -/
def Lists (r : Registry) (l : List WorkerId) (P : Worker → Prop) : Prop :=
  l.Nodup ∧ ∀ id, id ∈ l ↔ ∃ w, r.workers id = some w ∧ P w

/-- The indexes hold exactly the registered workers, each once and in its place. -/
structure Consistent (pos : String → Nat → Nat) (r : Registry) : Prop where
  url : ∀ url id, r.urlToId url = some id ↔ ∃ w, r.workers id = some w ∧ w.url = url
  model_nodup : ∀ m, (r.getByModel m).Nodup
  model : ∀ m w, w ∈ r.getByModel m ↔ (∃ id, r.workers id = some w) ∧ w.modelId = m
  ring : ∀ m, (r.getHashRing m).Perm ((r.getByModel m).flatMap (virtualNodes pos))
  byType : ∀ ty, Lists r (r.idsByType ty) fun w => w.workerType = ty
  byConnection : ∀ mode, Lists r (r.idsByConnection mode) fun w => w.connectionMode = mode

def Issued (r : Registry) : Prop := ∀ id w, r.workers id = some w → id < r.nextId

variable {pos : String → Nat → Nat} {r : Registry} {w : Worker} {id : WorkerId}

theorem new_consistent : Consistent pos .new := by
  have hnone : ∀ {P : Worker → Prop} {id : WorkerId},
      ¬ ∃ w, new.workers id = some w ∧ P w := by
    rintro P id ⟨w, hw, _⟩
    cases hw
  have hlists : ∀ P, Lists .new [] P := fun P =>
    ⟨nodup_nil, fun id => iff_of_false not_mem_nil hnone⟩
  refine ⟨fun url id => iff_of_false (some_ne_none id).symm hnone, fun _ => nodup_nil,
    fun m w => iff_of_false not_mem_nil ?_, fun _ => .refl _, fun _ => hlists _,
    fun _ => hlists _⟩
  rintro ⟨⟨id, hw⟩, _⟩
  cases hw

theorem Consistent.id_unique (h : Consistent pos r) {id' : WorkerId} {w' : Worker}
    (hw : r.workers id = some w) (hw' : r.workers id' = some w') (hurl : w.url = w'.url) :
    id = id' := by
  have h1 := (h.url w.url id).mpr ⟨w, hw, rfl⟩
  have h2 := (h.url w.url id').mpr ⟨w', hw', hurl.symm⟩
  exact some.inj (h1.symm.trans h2)

theorem Consistent.getByUrl_eq_none (h : Consistent pos r) :
    r.getByUrl url = none ↔ r.urlToId url = none := by
  unfold getByUrl
  cases hurl : r.urlToId url with
  | none => exact iff_of_true rfl rfl
  | some id =>
    obtain ⟨w, hw, _⟩ := (h.url url id).mp hurl
    rw [bind_some, hw]
    exact iff_of_false (some_ne_none w) (some_ne_none id)

/-! ### The maps after one call -/

theorem pushAt_getD [DecidableEq κ] (m : κ → Option (List α)) (k j : κ) (x : α) :
    (pushAt m k x j).getD [] = if j = k then (m j).getD [] ++ [x] else (m j).getD [] := by
  unfold pushAt
  rw [update_apply]
  split_ifs with h
  · rw [h, getD_some]
  · rfl

theorem retainAt_getD [DecidableEq κ] (m : κ → Option (List α)) (k j : κ) (keep : α → Bool) :
    (retainAt m k keep j).getD [] =
      if j = k then ((m j).getD []).filter keep else (m j).getD [] := by
  unfold retainAt
  rw [update_apply]
  split_ifs with h
  · rw [h]
    cases m k with
    | none => rfl
    | some l => rfl
  · rfl

theorem rebuildHashRing_perm (m j : String)
    (h : j ≠ m → (r.getHashRing j).Perm ((r.getByModel j).flatMap (virtualNodes pos))) :
    ((r.rebuildHashRing pos m).getHashRing j).Perm
      ((r.getByModel j).flatMap (virtualNodes pos)) := by
  unfold getHashRing rebuildHashRing
  dsimp only
  rw [update_apply]
  split_ifs with hj
  · subst hj
    unfold getByModel
    cases r.modelIndex j with
    | none => exact .refl _
    | some l => exact mergeSort_perm _ _
  · exact h hj

/-! ### `register` of a URL that is not registered -/

theorem Lists.push (h : Lists r l P) (hnew : r.workers id = none) (next : WorkerId) (hP : P w) :
    Lists (r.put pos id next w) (l ++ [id]) P := by
  have hnot : id ∉ l := fun hmem => by
    obtain ⟨w', hw', _⟩ := (h.2 id).mp hmem
    rw [hnew] at hw'
    cases hw'
  refine ⟨h.1.append (nodup_singleton id) (disjoint_singleton.mpr hnot), fun j => ?_⟩
  show j ∈ l ++ [id] ↔ ∃ w', Function.update r.workers id (some w) j = some w' ∧ P w'
  rw [mem_append, mem_singleton, update_apply]
  split_ifs with hj
  · constructor
    · exact fun _ => ⟨w, rfl, hP⟩
    · exact fun _ => .inr hj
  · rw [h.2 j]
    exact ⟨fun hor => hor.resolve_right hj, .inl⟩

theorem Lists.put_other (h : Lists r l P) (hnew : r.workers id = none) (next : WorkerId)
    (hP : ¬ P w) : Lists (r.put pos id next w) l P := by
  refine ⟨h.1, fun j => ?_⟩
  show j ∈ l ↔ ∃ w', Function.update r.workers id (some w) j = some w' ∧ P w'
  rw [h.2 j, update_apply]
  split_ifs with hj
  · constructor
    · rintro ⟨w', hw', _⟩
      rw [hj, hnew] at hw'
      cases hw'
    · rintro ⟨w', hw', hPw⟩
      exact absurd (some.inj hw' ▸ hPw) hP
  · exact Iff.rfl

theorem Lists.push_index [DecidableEq κ] {m : κ → Option (List WorkerId)} {key : Worker → κ}
    (h : ∀ k, Lists r ((m k).getD []) fun w => key w = k) (hnew : r.workers id = none)
    (next : WorkerId) (k : κ) :
    Lists (r.put pos id next w) ((pushAt m (key w) id k).getD []) fun w => key w = k := by
  rw [pushAt_getD]
  split_ifs with hk
  · exact (h k).push hnew next hk.symm
  · exact (h k).put_other hnew next fun e => hk e.symm

theorem Consistent.put (h : Consistent pos r) (hnew : r.workers id = none)
    (hfree : r.urlToId w.url = none) (next : WorkerId) :
    Consistent pos (r.put pos id next w) := by
  have hmodel : ∀ m, (r.put pos id next w).getByModel m =
      if m = w.modelId then r.getByModel m ++ [w] else r.getByModel m := fun m => pushAt_getD _ _ _ _
  have hworkers : ∀ j, (r.put pos id next w).workers j =
      if j = id then some w else r.workers j := fun j => Function.update_apply _ _ _ _
  -- no registered worker has this URL
  have hurl : ∀ j w', r.workers j = some w' → w'.url ≠ w.url := fun j w' hw' e => by
    have := (h.url w.url j).mpr ⟨w', hw', e⟩
    rw [hfree] at this
    cases this
  have hexists : ∀ x, (∃ j, (r.put pos id next w).workers j = some x) ↔
      (∃ j, r.workers j = some x) ∨ x = w := by
    intro x
    constructor
    · rintro ⟨j, hj⟩
      rw [hworkers] at hj
      split_ifs at hj
      · exact .inr (some.inj hj).symm
      · exact .inl ⟨j, hj⟩
    · rintro (⟨j, hj⟩ | rfl)
      · refine ⟨j, ?_⟩
        rw [hworkers, if_neg, hj]
        rintro rfl
        rw [hnew] at hj
        cases hj
      · exact ⟨id, by rw [hworkers, if_pos rfl]⟩
  refine ⟨fun url j => ?_, fun m => ?_, fun m x => ?_, fun m => ?_,
    Lists.push_index h.byType hnew next, Lists.push_index h.byConnection hnew next⟩
  · show Function.update r.urlToId w.url (some id) url = some j ↔ _
    rw [Function.update_apply]
    simp only [hworkers]
    split_ifs with hu hj hj
    · subst hj
      exact ⟨fun _ => ⟨w, rfl, hu.symm⟩, fun _ => rfl⟩
    · constructor
      · intro e
        exact absurd (some.inj e).symm hj
      · rintro ⟨w', hw', he⟩
        exact absurd (he.trans hu) (hurl j w' hw')
    · constructor
      · intro e
        obtain ⟨w', hw', _⟩ := (h.url url j).mp e
        rw [hj, hnew] at hw'
        cases hw'
      · rintro ⟨w', hw', he⟩
        exact absurd (some.inj hw' ▸ he.symm) hu
    · exact h.url url j
  · rw [hmodel]
    split_ifs
    · refine (h.model_nodup m).append (nodup_singleton w) (disjoint_singleton.mpr ?_)
      intro hmem
      obtain ⟨⟨j, hj⟩, _⟩ := (h.model m w).mp hmem
      exact hurl j w hj rfl
    · exact h.model_nodup m
  · rw [hmodel, hexists]
    split_ifs with hm
    · rw [mem_append, mem_singleton, h.model]
      constructor
      · rintro (⟨hx, hxm⟩ | rfl)
        · exact ⟨.inl hx, hxm⟩
        · exact ⟨.inr rfl, hm.symm⟩
      · rintro ⟨hx | rfl, hxm⟩
        · exact .inl ⟨hx, hxm⟩
        · exact .inr rfl
    · rw [h.model]
      constructor
      · exact fun hx => ⟨.inl hx.1, hx.2⟩
      · rintro ⟨hx | rfl, hxm⟩
        · exact ⟨hx, hxm⟩
        · exact absurd hxm.symm hm
  · refine rebuildHashRing_perm w.modelId m fun hm => ?_
    have hsame : (r.put pos id next w).getByModel m = r.getByModel m := by rw [hmodel, if_neg hm]
    exact hsame.symm ▸ h.ring m

/-! ### `remove` -/

theorem Lists.retain_index [DecidableEq κ] {m : κ → Option (List WorkerId)} {key : Worker → κ}
    (h : ∀ k, Lists r ((m k).getD []) fun w => key w = k) (hw : r.workers id = some w) (k : κ) :
    Lists (r.take pos id w) ((retainAt m (key w) (fun x => x ≠ id) k).getD [])
      fun w => key w = k := by
  have hlist : ∀ l : List WorkerId, (∀ j, j ∈ l ↔ j ∈ (m k).getD [] ∧ j ≠ id) →
      ∀ j, j ∈ l ↔ ∃ w', (r.take pos id w).workers j = some w' ∧ key w' = k := by
    intro l hl j
    show _ ↔ ∃ w', Function.update r.workers id none j = some w' ∧ key w' = k
    rw [hl, (h k).2 j, update_apply]
    split_ifs with hj
    · constructor
      · exact fun hand => absurd hj hand.2
      · rintro ⟨_, hno, _⟩
        cases hno
    · exact ⟨fun hand => hand.1, fun hex => ⟨hex, hj⟩⟩
  rw [retainAt_getD]
  split_ifs with hk
  · refine ⟨(h k).1.filter _, hlist _ fun j => ?_⟩
    rw [mem_filter, decide_eq_true_iff]
  · refine ⟨(h k).1, hlist _ fun j => ⟨fun hj => ⟨hj, ?_⟩, fun hj => hj.1⟩⟩
    rintro rfl
    obtain ⟨w', hw', hkey⟩ := ((h k).2 j).mp hj
    rw [hw] at hw'
    exact hk (some.inj hw' ▸ hkey.symm)

theorem Consistent.take (h : Consistent pos r) (hw : r.workers id = some w) :
    Consistent pos (r.take pos id w) := by
  have hmodel : ∀ m, (r.take pos id w).getByModel m =
      if m = w.modelId then (r.getByModel m).filter (fun x => x.url ≠ w.url)
      else r.getByModel m := fun m => retainAt_getD _ _ _ _
  have hworkers : ∀ j, (r.take pos id w).workers j = if j = id then none else r.workers j :=
    fun j => Function.update_apply _ _ _ _
  have hexists : ∀ x, (∃ j, (r.take pos id w).workers j = some x) ↔
      (∃ j, r.workers j = some x) ∧ x.url ≠ w.url := by
    intro x
    constructor
    · rintro ⟨j, hj⟩
      rw [hworkers] at hj
      split_ifs at hj with hne
      exact ⟨⟨j, hj⟩, fun e => hne (h.id_unique hj hw e)⟩
    · rintro ⟨⟨j, hj⟩, hne⟩
      refine ⟨j, ?_⟩
      rw [hworkers, if_neg, hj]
      rintro rfl
      rw [hw] at hj
      exact hne (some.inj hj ▸ rfl)
  have hmem : ∀ m x, x ∈ (r.take pos id w).getByModel m ↔ x ∈ r.getByModel m ∧ x.url ≠ w.url := by
    intro m x
    rw [hmodel]
    split_ifs with hm
    · rw [mem_filter, decide_eq_true_iff]
    · refine ⟨fun hx => ⟨hx, fun e => hm ?_⟩, fun hx => hx.1⟩
      obtain ⟨⟨j, hj⟩, hxm⟩ := (h.model m x).mp hx
      have hjd := h.id_unique hj hw e
      rw [hjd, hw] at hj
      rw [← hxm, some.inj hj]
  refine ⟨fun url j => ?_, fun m => ?_, fun m x => ?_, fun m => ?_,
    Lists.retain_index h.byType hw, Lists.retain_index h.byConnection hw⟩
  · show Function.update r.urlToId w.url none url = some j ↔ _
    rw [Function.update_apply]
    simp only [hworkers]
    split_ifs with hu hj hj
    · constructor
      · intro e
        cases e
      · rintro ⟨_, e, _⟩
        cases e
    · constructor
      · intro e
        cases e
      · rintro ⟨w', hw', he⟩
        exact absurd (h.id_unique hw' hw (he.trans hu)) hj
    · constructor
      · intro e
        obtain ⟨w', hw', he⟩ := (h.url url j).mp e
        rw [hj, hw] at hw'
        exact absurd (some.inj hw' ▸ he.symm) hu
      · rintro ⟨_, e, _⟩
        cases e
    · exact h.url url j
  · rw [hmodel]
    split_ifs
    · exact (h.model_nodup m).filter _
    · exact h.model_nodup m
  · rw [hmem, hexists, h.model, and_right_comm]
  · refine rebuildHashRing_perm w.modelId m fun hm => ?_
    have hsame : (r.take pos id w).getByModel m = r.getByModel m := by rw [hmodel, if_neg hm]
    exact hsame.symm ▸ h.ring m

theorem Consistent.removeByUrl_eq (h : Consistent pos r) (hurl : r.urlToId url = some id)
    (hw : r.workers id = some w) : r.removeByUrl pos url = r.take pos id w := by
  obtain ⟨w', hw', rfl⟩ := (h.url url id).mp hurl
  obtain rfl : w = w' := some.inj (hw.symm.trans hw')
  unfold removeByUrl
  rw [hurl]
  dsimp only
  unfold Registry.remove Registry.take
  rw [hw]
  dsimp only
  rw [update_idem]

/-! ### `register` of a registered URL -/

theorem Consistent.not_reput (h : Consistent pos r) (hurl : r.urlToId w.url = some id)
    (next : WorkerId) : ¬ Consistent pos (r.put pos id next w) := by
  intro h'
  obtain ⟨w0, hw0, hu⟩ := (h.url w.url id).mp hurl
  have hold : w0 ∈ r.getByModel w0.modelId := (h.model _ _).mpr ⟨⟨id, hw0⟩, rfl⟩
  have hmodel : (r.put pos id next w).getByModel w0.modelId = if w0.modelId = w.modelId then
      r.getByModel w0.modelId ++ [w] else r.getByModel w0.modelId := pushAt_getD _ _ _ _
  by_cases hsame : w0 = w
  · -- the worker itself is there twice now
    have hnd := h'.model_nodup w0.modelId
    rw [hmodel, if_pos (congrArg Worker.modelId hsame)] at hnd
    exact (nodup_append.mp hnd).2.2 w0 hold w (mem_singleton_self w) hsame
  · have hstill : w0 ∈ (r.put pos id next w).getByModel w0.modelId := by
      rw [hmodel]
      split_ifs
      · exact mem_append_left _ hold
      · exact hold
    obtain ⟨⟨j, hj⟩, _⟩ := (h'.model _ _).mp hstill
    have hj' : Function.update r.workers id (some w) j = some w0 := hj
    rw [Function.update_apply] at hj'
    split_ifs at hj' with hjd
    · exact hsame (some.inj hj').symm
    · exact hjd (h.id_unique hj' hw0 rfl)

/-! ## Sequences of calls -/

/-- A registration is of a URL that is not registered. -/
def Registry.Fresh (r : Registry) : RegistryOp → Prop
  | .register w => r.getByUrl w.url = none
  | _ => True

theorem step_consistent (h : Consistent pos r) (hi : Issued r) {op : RegistryOp}
    (hf : r.Fresh op) : Consistent pos (r.step pos op) ∧ Issued (r.step pos op) := by
  have htake : ∀ {id w}, r.workers id = some w →
      Consistent pos (r.take pos id w) ∧ Issued (r.take pos id w) := by
    intro id w hw
    refine ⟨h.take hw, fun j x hj => ?_⟩
    have hj' : Function.update r.workers id none j = some x := hj
    rw [Function.update_apply] at hj'
    split_ifs at hj'
    exact hi j x hj'
  cases op with
  | register w =>
    have hfree : r.urlToId w.url = none := h.getByUrl_eq_none.mp hf
    have hnew : r.workers r.nextId = none := by
      cases hw : r.workers r.nextId with
      | none => rfl
      | some x => exact absurd (hi _ x hw) (Nat.lt_irrefl _)
    have heq : r.step pos (.register w) = r.put pos r.nextId (r.nextId + 1) w := by
      show r.register pos w = _
      rw [register, hfree]
    rw [heq]
    refine ⟨h.put hnew hfree _, fun j x hj => ?_⟩
    have hj' : Function.update r.workers r.nextId (some w) j = some x := hj
    rw [Function.update_apply] at hj'
    split_ifs at hj' with hjd
    · exact hjd ▸ Nat.lt_succ_self _
    · exact Nat.lt_succ_of_lt (hi j x hj')
  | remove id =>
    show Consistent pos (r.remove pos id) ∧ Issued (r.remove pos id)
    unfold remove
    cases hw : r.workers id with
    | none => exact ⟨h, hi⟩
    | some w => exact htake hw
  | removeByUrl url =>
    show Consistent pos (r.removeByUrl pos url) ∧ Issued (r.removeByUrl pos url)
    cases hurl : r.urlToId url with
    | none =>
      have heq : r.removeByUrl pos url = r := by rw [removeByUrl, hurl]
      rw [heq]
      exact ⟨h, hi⟩
    | some id =>
      obtain ⟨w, hw, _⟩ := (h.url url id).mp hurl
      rw [h.removeByUrl_eq hurl hw]
      exact htake hw

theorem run_snoc (ops : List RegistryOp) (op : RegistryOp) :
    run pos (ops ++ [op]) = (run pos ops).step pos op :=
  foldl_concat _ _ _ _

theorem run_consistent (ops : List RegistryOp)
    (h : ∀ pre op, pre ++ [op] <+: ops → (run pos pre).Fresh op) :
    Consistent pos (run pos ops) ∧ Issued (run pos ops) := by
  induction ops using reverseRecOn with
  | nil =>
    refine ⟨new_consistent, fun id w hw => ?_⟩
    cases hw
  | append_singleton ops op ih =>
    have hprev := ih fun pre o hpre => h pre o (hpre.trans (prefix_append _ _))
    rw [run_snoc]
    exact step_consistent hprev.1 hprev.2 (h ops op (prefix_refl _))

/-- After every call of a sequence the indexes hold exactly the registered workers, if and only
if each registration is of a URL that is not registered at that point. -/
theorem registry_consistent_iff (pos : String → Nat → Nat) (ops : List RegistryOp) :
    (∀ pre, pre <+: ops → Consistent pos (run pos pre)) ↔
      ∀ pre w, pre ++ [.register w] <+: ops → (run pos pre).getByUrl w.url = none := by
  constructor
  · intro h pre w hpre
    have hbefore := h pre ((prefix_append _ _).trans hpre)
    have hafter := h _ hpre
    rw [hbefore.getByUrl_eq_none]
    cases hurl : (run pos pre).urlToId w.url with
    | none => rfl
    | some id =>
      have heq : (run pos pre).step pos (.register w) =
          (run pos pre).put pos id (run pos pre).nextId w := by
        show (run pos pre).register pos w = _
        rw [register, hurl]
      rw [run_snoc, heq] at hafter
      exact absurd hafter (hbefore.not_reput hurl _)
  · intro h pre hpre
    refine (run_consistent pre fun pre' op hop => ?_).1
    cases op with
    | register w => exact h pre' w (hop.trans hpre)
    | remove id => trivial
    | removeByUrl url => trivial

/-! The same URL with another model, and then the removal of the worker: the first worker is still
in the index of its model. -/

def firstWorker : Worker := ⟨0, "http://w", "a", .regular, .http⟩

def secondWorker : Worker := ⟨1, "http://w", "b", .regular, .http⟩

theorem replaced_worker_stays : ¬ Consistent (fun _ _ => 0) (run (fun _ _ => 0)
    [.register firstWorker, .register secondWorker, .remove 0]) := by
  intro h
  have hmem : firstWorker ∈ (run (fun _ _ => 0)
    [.register firstWorker, .register secondWorker, .remove 0]).getByModel "a" := by decide
  obtain ⟨⟨id, hid⟩, _⟩ := (h.model "a" firstWorker).mp hmem
  have hgone : ∀ j, (run (fun _ _ => 0)
      [.register firstWorker, .register secondWorker, .remove 0]).workers j = none := by
    intro j
    show Function.update (Function.update (Function.update (fun _ => none) 0 (some firstWorker)) 0
      (some secondWorker)) 0 none j = none
    simp only [Function.update_apply]
    split_ifs
    · rfl
    · rfl
  rw [hgone] at hid
  cases hid

end Fluxfer.Gateway
