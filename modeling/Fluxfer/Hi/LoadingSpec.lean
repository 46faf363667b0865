import Fluxfer.Hi.Loading

/-!
# The hybrid back end against the others

The staging buffer holds the preloaded pages in the order of the queue, so that splitting it makes
the copies of a direct load (`split_eq_load`). The two back ends differ when the target pool stages
pages and the draft pool cannot: the preloaded pages then never reach the draft pool.
-/

namespace Fluxfer.Hi

open Radix Pages LoadOp List Option Nat

variable {ps : Nat} {m : Staging} {draft : Bool}

/-! ## Copies of a stream -/

section Copies

theorem copiesFrom_append (m : Staging) (a b : List StreamOp) :
    copiesFrom ps m (a ++ b) = copiesFrom ps m a ++ copiesFrom ps (a.foldl stageInto m) b := by
  induction a generalizing m with
  | nil => rfl
  | cons op a ih =>
    simp only [cons_append, copiesFrom, ih, foldl_cons, append_assoc]

def StageFree (ops : List StreamOp) : Prop := ∀ op ∈ ops, ∀ m, stageInto m op = m

theorem StageFree.copiesFrom {ops : List StreamOp} (h : StageFree ops) :
    copiesFrom ps m ops = ops.filterMap (copyOf ps m) := by
  induction ops with
  | nil => rfl
  | cons op ops ih =>
    have hop : stageInto m op = m := h op mem_cons_self m
    rw [Hi.copiesFrom, hop, ih fun o ho => h o (mem_cons_of_mem _ ho), filterMap_cons]
    cases copyOf ps m op <;> rfl

theorem StageFree.append {a b : List StreamOp} (ha : StageFree a) (hb : StageFree b) :
    StageFree (a ++ b) := by
  intro op hop
  rcases mem_append.mp hop with h | h
  · exact ha op h
  · exact hb op h

theorem mem_zipWith {α β γ : Type} {f : α → β → γ} {as : List α} {bs : List β} {c : γ} :
    c ∈ zipWith f as bs ↔ ∃ a b, (a, b) ∈ as.zip bs ∧ f a b = c := by
  rw [← map_uncurry_zip_eq_zipWith]
  simp [Function.uncurry]

end Copies

/-! ## The staging buffer -/

section Staged

/-- After the loop the staging buffer holds the pages of the current run and then the other
pages. The other pool's buffer is as before. -/
theorem foldl_stageRuns (pages : List Nat) : ∀ (m : Staging) (d s l : Nat),
    (stageRuns draft (d + l) pages d s l).foldl stageInto m = fun x i =>
      if x = draft ∧ d ≤ i ∧ i < d + (l + pages.length) then
        ((range l).map (s + ·) ++ pages)[i - d]?
      else m x i := by
  induction pages with
  | nil =>
    intro m d s l
    funext x i
    simp only [stageRuns, foldl_cons, foldl_nil, stageInto, append_nil, length_nil, add_zero]
    split_ifs with h
    · rw [getElem?_map, getElem?_range (by omega), map_some]
    · rfl
  | cons p pages ih =>
    intro m d s l
    by_cases hrun : p = s + l
    · -- the page joins the run
      have hpages : (range (l + 1)).map (s + ·) ++ pages =
          (range l).map (s + ·) ++ p :: pages := by
        rw [range_succ, map_append, append_assoc, hrun]
        rfl
      rw [stageRuns, if_pos hrun, add_assoc, ih, hpages, length_cons, add_assoc,
        add_comm 1]
    · -- a new run starts with the page
      rw [stageRuns, if_neg hrun, foldl_cons, ih]
      funext x i
      simp only [stageInto, length_cons]
      have hlen : ((range l).map (s + ·)).length = l := by simp
      by_cases h1 : x = draft ∧ d + l ≤ i ∧ i < d + l + (1 + pages.length)
      · have hnew : ((range l).map (s + ·) ++ p :: pages)[i - d]? =
            (p :: pages)[i - (d + l)]? := by
          rw [getElem?_append_right (by omega), hlen, Nat.sub_sub]
        rw [if_pos h1, if_pos ⟨h1.1, by omega, by omega⟩, hnew]
        rfl
      · rw [if_neg h1]
        by_cases h2 : x = draft ∧ d ≤ i ∧ i < d + l
        · have hold : ((range l).map (s + ·) ++ p :: pages)[i - d]? = some (s + (i - d)) := by
            rw [getElem?_append_left (by omega), getElem?_map, getElem?_range (by omega),
              map_some]
          rw [if_pos h2, if_pos ⟨h2.1, by omega, by omega⟩, hold]
        · have hno : ¬ (x = draft ∧ d ≤ i ∧ i < d + (l + (pages.length + 1))) := by
            rintro ⟨hx, hi⟩
            exact if hd : i < d + l then h2 ⟨hx, hi.1, hd⟩ else h1 ⟨hx, by omega, by omega⟩
          rw [if_neg h2, if_neg hno]

theorem mem_stageRuns (pages : List Nat) : ∀ {a d s l : Nat} {op : StreamOp},
    op ∈ stageRuns draft a pages d s l → ∃ d s l, op = .stage draft d s l := by
  induction pages with
  | nil =>
    intro a d s l op hop
    exact ⟨_, _, _, mem_singleton.mp hop⟩
  | cons p pages ih =>
    intro a d s l op hop
    rw [stageRuns] at hop
    split_ifs at hop with hrun
    · exact ih hop
    · rcases mem_cons.mp hop with rfl | hop
      · exact ⟨_, _, _, rfl⟩
      · exact ih hop

theorem pageIds_slotsOf (hps : 0 < ps) (g : List Nat) : pageIds ps (slotsOf ps g) = g := by
  have hlen : (slotsOf ps g).length / ps = g.length := by
    rw [length_slotsOf, Nat.mul_div_cancel _ hps]
  apply ext_getElem
  · rw [pageIds, length_map, length_range, hlen]
  · intro k hk hk'
    have hb : k * ps < g.length * ps := (Nat.mul_lt_mul_right hps).mpr hk'
    simp only [pageIds, getElem_map, getElem_range]
    rw [slotsOf_eq_layout hps, getD_eq_getElem _ _ (by rwa [length_layout])]
    simp only [layout, getElem_map, getElem_range]
    rw [slotAt_div hps, Nat.mul_div_cancel _ hps, getD_eq_getElem]

/-- What `stage_pages_to_device` does with whole pages: staged page `i` is the `i`-th page. -/
theorem stagePagesToDevice_spec {g : List Nat} (hps : 0 < ps) (hg : g ≠ []) (draft : Bool) :
    ∃ ops, stagePagesToDevice ps draft (slotsOf ps g) = .ok (some ops) ∧
      (∀ op ∈ ops, ∃ d s l, op = .stage draft d s l) ∧
      ∀ m : Staging, ops.foldl stageInto m = fun x i =>
        if x = draft ∧ i < g.length then g[i]? else m x i := by
  obtain ⟨p, pages, rfl⟩ := exists_cons_of_ne_nil hg
  have hlen := length_slotsOf ps (p :: pages)
  have hne : slotsOf ps (p :: pages) ≠ [] := by
    intro h
    rw [h, length_nil, length_cons, add_mul] at hlen
    omega
  refine ⟨stageRuns draft (0 + 1) pages 0 p 1, ?_, ?_, ?_⟩
  · simp only [stagePagesToDevice, if_neg hne, hlen, mul_mod_left, ne_eq, not_true, if_false,
      pageIds_slotsOf hps]
  · intro op hop
    exact mem_stageRuns pages hop
  · intro m
    rw [foldl_stageRuns]
    funext x i
    have hrun : (range 1).map (p + ·) ++ pages = p :: pages := rfl
    rw [hrun, Nat.zero_add, Nat.add_comm 1, Nat.sub_zero, length_cons]
    simp only [zero_le, true_and]

end Staged

/-! ## The layers -/

/-- The operations for layer `i` copy data of that layer and no other, and record no event. -/
def Layered (layer : Nat → List StreamOp) : Prop :=
  ∀ i, ∀ op ∈ layer i, ∀ j, op.CopiesLayer j ↔ j = i

namespace Layered

variable {layer : Nat → List StreamOp} {i : Nat} {op : StreamOp}

theorem ne_complete (h : Layered layer) (hop : op ∈ layer i) (j : Nat) : op ≠ .complete j := by
  rintro rfl
  exact (h i _ hop i).mpr rfl

theorem stageFree (h : Layered layer) (i : Nat) : StageFree (layer i) := by
  intro op hop m
  cases op with
  | stage d a b l =>
    have hj := (h i _ hop (i + 1)).mp trivial
    omega
  | _ => rfl

theorem load (draft : Bool) (hs ds : List Nat) : Layered (loadToDevicePerLayer draft hs ds) := by
  intro i op hop j
  obtain ⟨h, d, -, rfl⟩ := mem_zipWith.mp hop
  exact eq_comm

theorem split (draft : Bool) (n : Nat) (ds : List Nat) :
    Layered (splitStagedPagesToDevicePerLayer draft n ds) := by
  intro i op hop j
  obtain ⟨h, d, -, rfl⟩ := mem_zipWith.mp hop
  exact eq_comm

theorem append {a b : Nat → List StreamOp} (ha : Layered a) (hb : Layered b) :
    Layered fun i => a i ++ b i := by
  intro i op hop
  rcases mem_append.mp hop with h | h
  · exact ha i op h
  · exact hb i op h

theorem nil : Layered fun _ => [] := fun _ _ h => absurd h not_mem_nil

end Layered

theorem mem_load {hs ds : List Nat} {i : Nat} {c : Copy} :
    c ∈ (loadToDevicePerLayer draft hs ds i).filterMap (copyOf ps m) ↔
      c.draft = draft ∧ c.layer = i ∧ (c.host, c.device) ∈ hs.zip ds := by
  constructor
  · intro hc
    obtain ⟨op, hop, hcopy⟩ := mem_filterMap.mp hc
    obtain ⟨h, d, hmem, rfl⟩ := mem_zipWith.mp hop
    cases hcopy
    exact ⟨rfl, rfl, hmem⟩
  · rintro ⟨rfl, rfl, hmem⟩
    exact mem_filterMap.mpr ⟨_, mem_zipWith.mpr ⟨_, _, hmem, rfl⟩, rfl⟩

theorem split_eq_load (hps : 0 < ps) {g : List Nat} (hm : ∀ i < g.length, m draft i = g[i]?)
    (ds : List Nat) (i : Nat) :
    (splitStagedPagesToDevicePerLayer draft (slotsOf ps g).length ds i).filterMap
        (copyOf ps m) =
      (loadToDevicePerLayer draft (slotsOf ps g) ds i).filterMap (copyOf ps m) := by
  have hslots : slotsOf ps g =
      (range (slotsOf ps g).length).map (slotAt ps g) := by
    rw [length_slotsOf]
    exact slotsOf_eq_layout hps g
  have hload : loadToDevicePerLayer draft (slotsOf ps g) ds i =
      zipWith (fun j d => .load draft (slotAt ps g j) d i)
        (range (slotsOf ps g).length) ds := by
    rw [loadToDevicePerLayer]
    nth_rewrite 1 [hslots]
    rw [zipWith_map_left]
  rw [hload, splitStagedPagesToDevicePerLayer, ← map_uncurry_zip_eq_zipWith,
    ← map_uncurry_zip_eq_zipWith, filterMap_map, filterMap_map]
  apply filterMap_congr
  rintro ⟨j, d⟩ hmem
  have hj : j < g.length * ps := by
    rw [← length_slotsOf]
    exact mem_range.mp (of_mem_zip hmem).1
  have hpage : j / ps < g.length := Nat.div_lt_of_lt_mul (by rwa [Nat.mul_comm] at hj)
  simp only [Function.comp_apply, Function.uncurry_apply_pair, copyOf, hm _ hpage,
    getElem?_eq_getElem hpage, map_some, slotAt, getD_eq_getElem _ _ hpage]

namespace LoadPools

variable {layer : Nat → List StreamOp}
variable (p : LoadPools)

/-- The copies that load `pairs` into the target pool and `draftPairs` into the draft pool. -/
def Loads (pairs draftPairs : List (Nat × Nat)) (c : Copy) : Prop :=
  c.layer < p.target.layerNum ∧
    (c.draft = false ∧ (c.host, c.device) ∈ pairs ∨
      c.draft = true ∧ (∃ m ∈ p.draft, c.layer < m.layerNum) ∧
        (c.host, c.device) ∈ draftPairs)

variable {p} {hs ds : List Nat} {c : Copy} {i : Nat}

theorem layered_draftLayer (h : Layered layer) : Layered fun i => p.draftLayer i (layer i) := by
  intro i op hop
  simp only [draftLayer] at hop
  cases hd : p.draft with
  | none =>
    rw [hd] at hop
    cases hop
  | some d =>
    simp only [hd] at hop
    split_ifs at hop
    · exact h i op hop
    · cases hop

theorem layered_loadLayer (p : LoadPools) (hs ds : List Nat) : Layered (p.loadLayer hs ds) :=
  (Layered.load false hs ds).append (layered_draftLayer (Layered.load true hs ds))

theorem layered_splitLayer (p : LoadPools) (b : Bool) (n : Nat) (ds : List Nat) :
    Layered (p.splitLayer b n ds) := by
  cases b with
  | false => exact (Layered.split false n ds).append Layered.nil
  | true => exact (Layered.split false n ds).append (layered_draftLayer (Layered.split true n ds))

theorem mem_draftLayer_filterMap {ops : List StreamOp} :
    c ∈ (p.draftLayer i ops).filterMap (copyOf ps m) ↔
      (∃ d ∈ p.draft, i < d.layerNum) ∧ c ∈ ops.filterMap (copyOf ps m) := by
  rw [draftLayer]
  cases p.draft with
  | none => simp
  | some d =>
    by_cases h : i < d.layerNum <;> simp [h]

theorem targetOrDraft_iff {i l : Nat} {q r e : Prop} {d : Nat → Prop} :
    q ∧ l = i ∧ e ∨ d i ∧ r ∧ l = i ∧ e ↔ l = i ∧ (q ∧ e ∨ r ∧ d l ∧ e) := by
  constructor
  · rintro (⟨h1, h2, h3⟩ | ⟨h0, h1, rfl, h3⟩)
    · exact ⟨h2, .inl ⟨h1, h3⟩⟩
    · exact ⟨rfl, .inr ⟨h1, h0, h3⟩⟩
  · rintro ⟨rfl, ⟨h1, h3⟩ | ⟨h1, h0, h3⟩⟩
    · exact .inl ⟨h1, rfl, h3⟩
    · exact .inr ⟨h0, h1, rfl, h3⟩

theorem mem_loadLayer :
    c ∈ (p.loadLayer hs ds i).filterMap (copyOf ps m) ↔
      c.layer = i ∧ (c.draft = false ∧ (c.host, c.device) ∈ hs.zip ds ∨
        c.draft = true ∧ (∃ d ∈ p.draft, c.layer < d.layerNum) ∧
          (c.host, c.device) ∈ hs.zip ds) := by
  rw [loadLayer, filterMap_append, mem_append, mem_load, mem_draftLayer_filterMap, mem_load]
  exact targetOrDraft_iff (d := fun i => ∃ d ∈ p.draft, i < d.layerNum)

theorem stageFree_forLayers (h : Layered layer) (last : Bool) :
    StageFree (p.forLayers last layer) := by
  intro op hop
  obtain ⟨i, -, hop⟩ := mem_flatMap.mp hop
  refine (h.stageFree i).append ?_ op hop
  cases last with
  | false => exact fun _ h => absurd h not_mem_nil
  | true =>
    intro op hop m
    rw [mem_singleton.mp hop]
    rfl

theorem mem_forLayers {pairs draftPairs : List (Nat × Nat)} (h : Layered layer) (last : Bool)
    (hmem : ∀ i c, c ∈ (layer i).filterMap (copyOf ps m) ↔
      c.layer = i ∧ (c.draft = false ∧ (c.host, c.device) ∈ pairs ∨
        c.draft = true ∧ (∃ d ∈ p.draft, c.layer < d.layerNum) ∧
          (c.host, c.device) ∈ draftPairs)) :
    c ∈ copiesFrom ps m (p.forLayers last layer) ↔ p.Loads pairs draftPairs c := by
  have hlayer : ∀ i, c ∈ (layer i ++ if last then [StreamOp.complete i] else []).filterMap
      (copyOf ps m) ↔ c ∈ (layer i).filterMap (copyOf ps m) := by
    intro i
    rw [filterMap_append, mem_append, or_iff_left]
    cases last <;> exact not_mem_nil
  rw [(stageFree_forLayers h last).copiesFrom, forLayers, filterMap_flatMap, mem_flatMap]
  constructor
  · rintro ⟨i, hi, hc⟩
    obtain ⟨rfl, hload⟩ := (hmem i c).mp ((hlayer i).mp hc)
    exact ⟨mem_range.mp hi, hload⟩
  · rintro ⟨hi, hc⟩
    exact ⟨c.layer, mem_range.mpr hi, (hlayer _).mpr ((hmem _ c).mpr ⟨rfl, hc⟩)⟩

/-- A loop that records the events, between operations that record none, records the event of
each layer once and after the copies of that layer. -/
theorem recorded_forLayers (h : Layered layer) {before after : List StreamOp}
    (hbefore : ∀ op ∈ before, ∀ j, op ≠ .complete j) (hafter : ∀ op ∈ after, op = .completePreload)
    (hi : i < p.target.layerNum) :
    RecordedAfterCopies (before ++ (p.forLayers true layer ++ after)) i := by
  obtain ⟨l, r, hrange⟩ := append_of_mem (mem_range.mpr hi)
  have hnodup : (l ++ i :: r).Nodup := hrange ▸ nodup_range
  have hl : i ∉ l := fun hil =>
    disjoint_of_nodup_append hnodup hil mem_cons_self
  have hr : i ∉ r := (nodup_cons.mp (nodup_append.mp hnodup).2.1).1
  -- in the part of the loop for other layers
  have hother : ∀ js : List Nat, i ∉ js → ∀ op ∈ js.flatMap (fun j => layer j ++ [.complete j]),
      op ≠ .complete i ∧ ¬ op.CopiesLayer i := by
    intro js hjs op hop
    obtain ⟨j, hj, hop⟩ := mem_flatMap.mp hop
    have hji : i ≠ j := fun h => hjs (h ▸ hj)
    rcases mem_append.mp hop with hop | hop
    · exact ⟨h.ne_complete hop i, fun hc => hji ((h j op hop i).mp hc)⟩
    · rw [mem_singleton.mp hop]
      exact ⟨fun he => hji (StreamOp.complete.inj he).symm, id⟩
  refine ⟨before ++ l.flatMap (fun j => layer j ++ [.complete j]) ++ layer i,
    r.flatMap (fun j => layer j ++ [.complete j]) ++ after, ?_, ?_, ?_, ?_⟩
  · have hsplit : p.forLayers true layer =
        (l ++ i :: r).flatMap fun j => layer j ++ [.complete j] := by
      rw [← hrange]
      rfl
    rw [hsplit, flatMap_append, flatMap_cons]
    simp only [append_assoc, cons_append, nil_append]
  · intro hop
    rcases mem_append.mp hop with hop | hop
    · rcases mem_append.mp hop with hop | hop
      · exact hbefore _ hop i rfl
      · exact (hother l hl _ hop).1 rfl
    · exact h.ne_complete hop i rfl
  · intro hop
    rcases mem_append.mp hop with hop | hop
    · exact (hother r hr _ hop).1 rfl
    · cases hafter _ hop
  · intro op hop
    rcases mem_append.mp hop with hop | hop
    · exact (hother r hr _ hop).2
    · rw [hafter _ hop]
      exact id

end LoadPools

/-! ## Both back ends -/

/-- The host slots of an operation are whole pages, and it has a device slot for each. -/
def LoadOp.WholePages (ps : Nat) (op : LoadOp) : Prop :=
  (∃ g, op.hostIndices = slotsOf ps g) ∧ op.deviceIndices.length = op.hostIndices.length

/-- A queue of operations on whole pages, with distinct device slots. -/
structure LoadQueue (ps : Nat) where
  ops : List LoadOp
  wholePages : ∀ op ∈ ops, op.WholePages ps
  nodup_device : (ops.flatMap deviceIndices).Nodup

section Pairs

variable {ops : List LoadOp}

theorem zip_flatMap {f g : LoadOp → List Nat} (h : ∀ op ∈ ops, (f op).length = (g op).length) :
    (ops.flatMap f).zip (ops.flatMap g) = ops.flatMap fun op => (f op).zip (g op) := by
  induction ops with
  | nil => rfl
  | cons op ops ih =>
    rw [flatMap_cons, flatMap_cons, flatMap_cons, zip_append (h op mem_cons_self),
      ih fun o ho => h o (mem_cons_of_mem _ ho)]

theorem mem_zip_split (h : ∀ op ∈ ops, op.WholePages ps) (x : Nat × Nat) :
    x ∈ (ops.flatMap hostIndices).zip (ops.flatMap deviceIndices) ↔
      x ∈ (preloadIndices ps ops).1.zip (preloadIndices ps ops).2 ∨
        x ∈ (tailIndices ps ops).1.zip (tailIndices ps ops).2 := by
  have hlen : ∀ op ∈ ops, op.hostIndices.length = op.deviceIndices.length :=
    fun op hop => (h op hop).2.symm
  have hop : ∀ op ∈ ops, op.hostIndices.zip op.deviceIndices =
      (op.hostIndices.take (op.preloadTokens ps)).zip
          (op.deviceIndices.take (op.preloadTokens ps)) ++
        (op.hostIndices.drop (op.preloadTokens ps)).zip
          (op.deviceIndices.drop (op.preloadTokens ps)) := by
    intro op hop
    rw [← zip_append (by rw [length_take, length_take, hlen op hop]), take_append_drop,
      take_append_drop]
  rw [preloadIndices, tailIndices, zip_flatMap hlen,
    zip_flatMap fun op hop => by rw [length_take, length_take, hlen op hop],
    zip_flatMap fun op hop => by rw [length_drop, length_drop, hlen op hop]]
  simp only [mem_flatMap]
  constructor
  · rintro ⟨op, hmem, hx⟩
    rw [hop op hmem, mem_append] at hx
    exact hx.imp (fun h => ⟨op, hmem, h⟩) fun h => ⟨op, hmem, h⟩
  · rintro (⟨op, hmem, hx⟩ | ⟨op, hmem, hx⟩)
    · exact ⟨op, hmem, hop op hmem ▸ mem_append_left _ hx⟩
    · exact ⟨op, hmem, hop op hmem ▸ mem_append_right _ hx⟩

theorem preload_device_disjoint (h : (ops.flatMap deviceIndices).Nodup) :
    (preloadIndices ps ops).2.Disjoint (tailIndices ps ops).2 := by
  have hperm := flatMap_append_perm ops
    (fun op => op.deviceIndices.take (op.preloadTokens ps))
    (fun op => op.deviceIndices.drop (op.preloadTokens ps))
  simp only [take_append_drop] at hperm
  exact disjoint_of_nodup_append (hperm.nodup_iff.mpr h)

theorem take_slotsOf (k : Nat) (g : List Nat) :
    (slotsOf ps g).take (k * ps) = slotsOf ps (g.take k) := by
  induction g generalizing k with
  | nil => simp [slotsOf]
  | cons x g ih =>
    cases k with
    | zero => simp [slotsOf]
    | succ k =>
      have hcons : ∀ g, slotsOf ps (x :: g) =
          (range ps).map (fun i => x * ps + i) ++ slotsOf ps g := fun _ => rfl
      rw [take_succ_cons, hcons, hcons, ← ih k, take_append]
      simp [succ_mul]

theorem preload_wholePages (h : ∀ op ∈ ops, op.WholePages ps) :
    ∃ g, (preloadIndices ps ops).1 = slotsOf ps g := by
  induction ops with
  | nil => exact ⟨[], rfl⟩
  | cons op ops ih =>
    obtain ⟨g, hg⟩ := ih fun o ho => h o (mem_cons_of_mem _ ho)
    obtain ⟨⟨f, hf⟩, -⟩ := h op mem_cons_self
    refine ⟨f.take op.h2dPreloadPages ++ g, ?_⟩
    have hop : op.hostIndices.take (op.preloadTokens ps) =
        slotsOf ps (f.take op.h2dPreloadPages) := by
      rw [preloadTokens, ← take_eq_take_min, hf, take_slotsOf]
    show op.hostIndices.take _ ++ (preloadIndices ps ops).1 = _
    rw [hop, hg, slotsOf, slotsOf, slotsOf, flatMap_append]

end Pairs

namespace LoadPools

variable {ops : List StreamOp} {g : List Nat} {io : IoBackend} {layout : MemLayout}
variable {p : LoadPools}

def OnlyStages (ops : List StreamOp) : Prop := ∀ op ∈ ops, ∃ x d s l, op = .stage x d s l

theorem OnlyStages.append {a b : List StreamOp} (ha : OnlyStages a) (hb : OnlyStages b) :
    OnlyStages (a ++ b) := by
  intro op hop
  rcases mem_append.mp hop with h | h
  · exact ha op h
  · exact hb op h

theorem OnlyStages.copiesFrom {ps : Nat} (h : OnlyStages ops) : ∀ m, copiesFrom ps m ops = [] := by
  induction ops with
  | nil => exact fun _ => rfl
  | cons op ops ih =>
    intro m
    obtain ⟨x, d, s, l, rfl⟩ := h op mem_cons_self
    rw [Hi.copiesFrom, ih fun o ho => h o (mem_cons_of_mem _ ho)]
    rfl

/-- A host pool that stages pages has them in its staging buffer afterwards. -/
structure Stages (stages draft : Bool) (g : List Nat) (r : Option (List StreamOp)) : Prop where
  isSome : r.isSome = stages
  onlyStages : OnlyStages (r.getD [])
  buffer : ∀ m : Staging, (r.getD []).foldl stageInto m = fun x i =>
    if stages = true ∧ x = draft ∧ i < g.length then g[i]? else m x i

theorem Stages.none (draft : Bool) (g : List Nat) : Stages false draft g none where
  isSome := rfl
  onlyStages := fun _ h => absurd h not_mem_nil
  buffer := fun m => by simp

theorem stageIfAble_spec (hps : 0 < p.pageSize) (hg : g ≠ []) (m : HostLayers) (draft : Bool) :
    ∃ r, p.stageIfAble m draft (slotsOf p.pageSize g) = .ok r ∧
      Stages m.stages draft g r := by
  rw [stageIfAble]
  cases m.stages with
  | false => exact ⟨none, rfl, Stages.none draft g⟩
  | true =>
    obtain ⟨ops, hrun, hstages, hbuffer⟩ := stagePagesToDevice_spec hps hg draft
    refine ⟨some ops, hrun, rfl, fun op hop => ⟨draft, hstages op hop⟩, fun m => ?_⟩
    rw [getD_some, hbuffer m]
    simp only [true_and]

/-- There is a draft pool, and it stages pages. -/
def draftStages (p : LoadPools) : Bool :=
  match p.draft with
  | some m => m.stages
  | none => false

theorem stageDraft_spec (hps : 0 < p.pageSize) (hg : g ≠ []) :
    ∃ r, p.stageDraft (slotsOf p.pageSize g) = .ok r ∧ Stages p.draftStages true g r := by
  rw [stageDraft, draftStages]
  cases p.draft with
  | none => exact ⟨none, rfl, Stages.none true g⟩
  | some m => exact stageIfAble_spec hps hg m true

/-- The pairs that the preload copies to the draft pool. -/
def draftPairs (p : LoadPools) (pairs : List (Nat × Nat)) : List (Nat × Nat) :=
  if p.target.stages = true ∧ p.draftStages = false then [] else pairs

theorem preload_spec (hps : 0 < p.pageSize) (hg : g ≠ []) (hne : slotsOf p.pageSize g ≠ [])
    (ds : List Nat) (last : Bool) :
    ∃ before layer, p.preload (slotsOf p.pageSize g) ds last =
        .ok (before ++ p.forLayers last layer) ∧ OnlyStages before ∧ Layered layer ∧
      ∀ m c, c ∈ copiesFrom p.pageSize m (before ++ p.forLayers last layer) ↔
        p.Loads ((slotsOf p.pageSize g).zip ds)
          (p.draftPairs ((slotsOf p.pageSize g).zip ds)) c := by
  obtain ⟨r, hr, hstages⟩ := stageIfAble_spec hps hg p.target false
  obtain ⟨rd, hrd, hdraft⟩ := stageDraft_spec hps hg
  have honly := hstages.onlyStages.append hdraft.onlyStages
  refine ⟨r.getD [] ++ rd.getD [], if r.isSome then
      p.splitLayer rd.isSome (slotsOf p.pageSize g).length ds
    else p.loadLayer (slotsOf p.pageSize g) ds, ?_, honly, ?_, ?_⟩
  · simp only [preload, if_neg hne, hr, hrd]
    rfl
  · split_ifs
    · exact layered_splitLayer p _ _ _
    · exact layered_loadLayer p _ _
  · intro m c
    rw [copiesFrom_append, honly.copiesFrom, foldl_append, hstages.buffer,
      hdraft.buffer]
    cases ht : p.target.stages with
    | false =>
      have hsome : r.isSome = false := by rw [hstages.isSome, ht]
      simp only [hsome, draftPairs, ht]
      exact mem_forLayers (layered_loadLayer p _ _) last fun i c => mem_loadLayer
    | true =>
      have hsome : r.isSome = true := by rw [hstages.isSome, ht]
      simp only [hsome]
      refine mem_forLayers (layered_splitLayer p _ _ _) last fun i c => ?_
      -- the target pool's buffer, then the draft pool's
      rw [splitLayer, filterMap_append, mem_append, split_eq_load hps ?_, mem_load]
      · rw [hdraft.isSome]
        cases hd : p.draftStages with
        | false =>
          simp only [draftPairs, ht, hd, and_self, if_true, not_mem_nil, and_false, or_false,
            Bool.false_eq_true, if_false, filterMap_nil]
          exact and_left_comm
        | true =>
          have hbuffer : ∀ i < g.length, (fun x i => if True ∧ x = true ∧ i < g.length then g[i]?
              else if True ∧ x = false ∧ i < g.length then g[i]? else m x i) true i = g[i]? := by
            intro i hi
            simp [hi]
          rw [if_pos rfl, mem_draftLayer_filterMap, split_eq_load hps (by simpa using hbuffer),
            mem_load]
          simp only [draftPairs, hd, Bool.true_eq_false, and_false]
          exact targetOrDraft_iff (d := fun i => ∃ d ∈ p.draft, i < d.layerNum)
      · intro i hi
        simp [hi]

theorem mem_moveIndices {hs ds hs' ds' : List Nat}
    (h : moveIndices io layout hs ds = .ok (hs', ds')) (x : Nat × Nat) :
    x ∈ hs'.zip ds' ↔ x ∈ hs.zip ds := by
  have hsorted : ∀ l : List (Nat × Nat), l.unzip.1.zip l.unzip.2 = l := zip_unzip
  unfold moveIndices at h
  split_ifs at h with hio
  · cases h
    rfl
  · cases layout with
    | layerFirst =>
      injection h with h
      have hzip : hs'.zip ds' = (hs.zip ds).insertionSort fun x y => x.1 ≤ y.1 := by
        rw [← hsorted ((hs.zip ds).insertionSort fun x y => x.1 ≤ y.1), h]
      rw [hzip]
      exact (perm_insertionSort _ _).mem_iff
    | pageFirstDirect =>
      cases h
      rfl
    | pageFirst => cases h
    | pageHead => cases h

theorem startLoading_plain (hio : io ≠ .hybrid) {queue : List LoadOp}
    (h : p.startLoading io layout queue = .ok (some ops)) (c : Copy) :
    c ∈ copies p.pageSize ops ↔
      p.Loads ((queue.flatMap hostIndices).zip (queue.flatMap deviceIndices))
        ((queue.flatMap hostIndices).zip (queue.flatMap deviceIndices)) c := by
  have hq : queue ≠ [] := by
    rintro rfl
    cases h
  rw [startLoading, if_neg hq, if_neg hio] at h
  cases hmove : moveIndices io layout (queue.flatMap hostIndices)
      (queue.flatMap deviceIndices) with
  | error e =>
    rw [hmove] at h
    cases h
  | ok r =>
    obtain ⟨hs, ds⟩ := r
    rw [hmove] at h
    cases h
    have hmem : c ∈ copiesFrom p.pageSize (fun _ _ => none) (p.forLayers true (p.loadLayer hs ds)) ↔
        p.Loads (hs.zip ds) (hs.zip ds) c :=
      mem_forLayers (layered_loadLayer p hs ds) true fun i c => mem_loadLayer
    simp only [Loads, mem_moveIndices hmove] at hmem
    exact hmem

end LoadPools

namespace LoadPools

variable {c : Copy}
variable {p : LoadPools}

theorem Loads.pairs_nil : ¬ p.Loads [] [] c := by
  rintro ⟨-, ⟨-, h⟩ | ⟨-, -, h⟩⟩ <;> cases h

theorem loadTail_nil (ds : List Nat) : p.loadTail [] ds = [] := rfl

theorem recorded_loadTail {hs : List Nat} (hhs : hs ≠ []) (ds : List Nat)
    {before : List StreamOp} (hbefore : ∀ op ∈ before, ∀ j, op ≠ .complete j) {i : Nat}
    (hi : i < p.target.layerNum) :
    RecordedAfterCopies (before ++ .completePreload :: p.loadTail hs ds) i := by
  have hfirst : ∀ op ∈ before ++ [.completePreload], ∀ j, op ≠ .complete j := by
    intro op hop j
    rcases mem_append.mp hop with h | h
    · exact hbefore op h j
    · rw [mem_singleton.mp h]
      exact StreamOp.noConfusion
  have h :=
    recorded_forLayers (layered_loadLayer p hs ds) hfirst (fun _ h => absurd h not_mem_nil) hi
  rw [append_nil, append_assoc] at h
  rw [loadTail, if_neg hhs]
  exact h

theorem noEvents_forLayers {layer : Nat → List StreamOp} (h : Layered layer) :
    ∀ op ∈ p.forLayers false layer, ∀ j, op ≠ .complete j := by
  intro op hop j
  obtain ⟨i, -, hop⟩ := mem_flatMap.mp hop
  exact h.ne_complete (by simpa using hop) j

theorem startLoading_hybrid (q : LoadQueue p.pageSize) (hq : q.ops ≠ []) (layout : MemLayout) :
    ∃ ops, p.startLoading .hybrid layout q.ops = .ok (some ops) ∧
      (∀ c, c ∈ copies p.pageSize ops ↔
        p.Loads ((preloadIndices p.pageSize q.ops).1.zip (preloadIndices p.pageSize q.ops).2)
            (p.draftPairs
              ((preloadIndices p.pageSize q.ops).1.zip (preloadIndices p.pageSize q.ops).2)) c ∨
          p.Loads ((tailIndices p.pageSize q.ops).1.zip (tailIndices p.pageSize q.ops).2)
            ((tailIndices p.pageSize q.ops).1.zip (tailIndices p.pageSize q.ops).2) c) ∧
      ((∀ i < p.target.layerNum, RecordedAfterCopies ops i) ↔
        (preloadIndices p.pageSize q.ops).1 ≠ [] ∨ (tailIndices p.pageSize q.ops).1 ≠ []) := by
  rw [startLoading, if_neg hq]
  obtain ⟨g, hg⟩ := preload_wholePages q.wholePages
  generalize preloadIndices p.pageSize q.ops = pre at hg ⊢
  generalize tailIndices p.pageSize q.ops = tail
  obtain ⟨ph, pd⟩ := pre
  obtain ⟨th, td⟩ := tail
  dsimp only at hg ⊢
  have htail : ∀ m c, c ∈ copiesFrom p.pageSize m (p.loadTail th td) ↔
      p.Loads (th.zip td) (th.zip td) c := by
    intro m c
    rw [loadTail]
    split_ifs with hth
    · rw [hth]
      exact ⟨fun h => absurd h not_mem_nil, fun h => absurd h Loads.pairs_nil⟩
    · exact mem_forLayers (layered_loadLayer p th td) true fun i c => mem_loadLayer
  -- the stream is the preload, its event, and the tail
  have hcopies : ∀ (ops : List StreamOp) (c : Copy),
      c ∈ copies p.pageSize (ops ++ .completePreload :: p.loadTail th td) ↔
        c ∈ copies p.pageSize ops ∨ p.Loads (th.zip td) (th.zip td) c := by
    intro ops c
    rw [copies, copiesFrom_append, mem_append]
    exact or_congr Iff.rfl (htail _ c)
  by_cases hph : ph = []
  · have hrun : p.preload ph pd (th = []) = .ok [] := by rw [preload, if_pos hph]
    refine ⟨[] ++ .completePreload :: p.loadTail th td, by rw [hrun]; rfl, fun c => ?_, ?_⟩
    · have hnone : p.draftPairs ([] : List (Nat × Nat)) = [] := by
        exact ite_self []
      rw [hcopies, hph, zip_nil_left, hnone]
      exact or_congr ⟨fun h => absurd h not_mem_nil, fun h => absurd h Loads.pairs_nil⟩
        Iff.rfl
    · constructor
      · intro h
        right
        rintro rfl
        obtain ⟨before, after, hsplit, -⟩ := h 0 p.target.layerNum_pos
        rw [loadTail, if_pos rfl, nil_append] at hsplit
        have hmem : StreamOp.complete 0 ∈ [StreamOp.completePreload] := by
          rw [hsplit]
          exact mem_append_right _ mem_cons_self
        cases mem_singleton.mp hmem
      · rintro (h | hth) i hi
        · exact absurd hph h
        · exact recorded_loadTail hth td (fun _ h => absurd h not_mem_nil) hi
  · have hgne : g ≠ [] := by
      rintro rfl
      exact hph hg
    have hps : 0 < p.pageSize := by
      rcases Nat.eq_zero_or_pos p.pageSize with h0 | h0
      · rw [h0] at hg
        exact absurd (eq_nil_of_length_eq_zero (by rw [hg, length_slotsOf]; rfl)) hph
      · exact h0
    obtain ⟨before, layer, hrun, hbefore, hlayer, hmem⟩ :=
      preload_spec hps hgne (hg ▸ hph) pd (th = [])
    rw [← hg] at hrun hmem
    refine ⟨_, by rw [hrun]; rfl, fun c => ?_, ?_⟩
    · rw [hcopies]
      exact or_congr (hmem _ c) Iff.rfl
    · refine iff_of_true (fun i hi => ?_) (.inl hph)
      have hnone : ∀ op ∈ before, ∀ j, op ≠ .complete j := by
        intro op hop j
        obtain ⟨x, d, s, l, rfl⟩ := hbefore op hop
        exact StreamOp.noConfusion
      by_cases hth : th = []
      · rw [hth, loadTail_nil, append_assoc]
        exact recorded_forLayers hlayer hnone (fun op hop => mem_singleton.mp hop) hi
      · rw [decide_eq_false hth]
        refine recorded_loadTail hth td (fun op hop => ?_) hi
        rcases mem_append.mp hop with h | h
        · exact hnone op h
        · exact noEvents_forLayers hlayer op h

/-- The hybrid back end loads what another back end loads: it makes the same copies, and it
records the event of each layer once, after the copies of that layer. -/
def Refines (p : LoadPools) (queue : List LoadOp) (plain : List StreamOp) : Prop :=
  ∃ ops, p.startLoading .hybrid .pageFirstDirect queue = .ok (some ops) ∧
    (∀ c, c ∈ copies p.pageSize ops ↔ c ∈ copies p.pageSize plain) ∧
    ∀ i < p.target.layerNum, RecordedAfterCopies ops i

/-- Something is loaded, and nothing is preloaded when the target pool stages pages and there is
a draft pool that does not. -/
def Loadable (p : LoadPools) (queue : List LoadOp) : Prop :=
  (∃ op ∈ queue, op.hostIndices ≠ []) ∧
    (p.target.stages = true → (∃ m ∈ p.draft, m.stages = false) →
      ∀ op ∈ queue, op.h2dPreloadPages = 0 ∨ op.hostIndices = [])

theorem loads_draftPairs {pairs : List (Nat × Nat)}
    (h : p.target.stages = true → (∃ m ∈ p.draft, m.stages = false) → pairs = []) :
    p.Loads pairs (p.draftPairs pairs) c ↔ p.Loads pairs pairs c := by
  by_cases hcut : p.target.stages = true ∧ p.draftStages = false
  · cases hd : p.draft with
    | none =>
      simp [Loads, hd]
    | some m =>
      have hm : m.stages = false := by simpa [draftStages, hd] using hcut.2
      rw [draftPairs, if_pos hcut, h hcut.1 ⟨m, by rw [hd]; rfl, hm⟩]
  · rw [draftPairs, if_neg hcut]

theorem loads_or {a b all : List (Nat × Nat)} (h : ∀ x, x ∈ all ↔ x ∈ a ∨ x ∈ b) :
    p.Loads all all c ↔ p.Loads a a c ∨ p.Loads b b c := by
  constructor
  · rintro ⟨hl, ⟨hd, hx⟩ | ⟨hd, hm, hx⟩⟩
    · exact ((h _).mp hx).imp (fun hx => ⟨hl, .inl ⟨hd, hx⟩⟩) fun hx => ⟨hl, .inl ⟨hd, hx⟩⟩
    · exact ((h _).mp hx).imp (fun hx => ⟨hl, .inr ⟨hd, hm, hx⟩⟩)
        fun hx => ⟨hl, .inr ⟨hd, hm, hx⟩⟩
  · rintro (⟨hl, hx⟩ | ⟨hl, hx⟩)
    · exact ⟨hl, hx.imp (fun hx => ⟨hx.1, (h _).mpr (.inl hx.2)⟩)
        fun hx => ⟨hx.1, hx.2.1, (h _).mpr (.inl hx.2.2)⟩⟩
    · exact ⟨hl, hx.imp (fun hx => ⟨hx.1, (h _).mpr (.inr hx.2)⟩)
        fun hx => ⟨hx.1, hx.2.1, (h _).mpr (.inr hx.2.2)⟩⟩

theorem ne_nil_iff (ps : Nat) (queue : List LoadOp) :
    (preloadIndices ps queue).1 ≠ [] ∨ (tailIndices ps queue).1 ≠ [] ↔
      ∃ op ∈ queue, op.hostIndices ≠ [] := by
  constructor
  · intro h
    by_contra hall
    push Not at hall
    rcases h with h | h <;>
      exact h (flatMap_eq_nil_iff.mpr fun op hop => by simp [hall op hop])
  · rintro ⟨op, hop, hne⟩
    by_contra hnone
    push Not at hnone
    have htake := flatMap_eq_nil_iff.mp hnone.1 op hop
    have hdrop := flatMap_eq_nil_iff.mp hnone.2 op hop
    apply hne
    rw [← take_append_drop (op.preloadTokens ps) op.hostIndices, htake, hdrop]
    rfl

theorem exists_preloaded (q : LoadQueue p.pageSize) {op : LoadOp} (hop : op ∈ q.ops)
    (hpages : op.h2dPreloadPages ≠ 0) (hne : op.hostIndices ≠ []) :
    ∃ x, x ∈ (preloadIndices p.pageSize q.ops).1.zip (preloadIndices p.pageSize q.ops).2 := by
  obtain ⟨⟨g, hg⟩, hlen⟩ := q.wholePages op hop
  have hpos : 0 < op.hostIndices.length := length_pos_iff.mpr hne
  have hps : 0 < p.pageSize := by
    rw [hg, length_slotsOf] at hpos
    exact Nat.pos_of_mul_pos_left hpos
  have htokens : 0 < op.preloadTokens p.pageSize :=
    lt_min (mul_pos (pos_of_ne_zero hpages) hps) hpos
  have hzip : 0 < ((op.hostIndices.take (op.preloadTokens p.pageSize)).zip
      (op.deviceIndices.take (op.preloadTokens p.pageSize))).length := by
    rw [length_zip, length_take, length_take]
    omega
  obtain ⟨x, hx⟩ := exists_mem_of_length_pos hzip
  refine ⟨x, ?_⟩
  rw [preloadIndices, zip_flatMap fun o ho => by
    rw [length_take, length_take, (q.wholePages o ho).2]]
  exact mem_flatMap.mpr ⟨op, hop, hx⟩

/-- When the hybrid back end loads what another back end loads for the same queue. -/
theorem hybrid_refines_iff (p : LoadPools) (q : LoadQueue p.pageSize) (io : IoBackend)
    (hio : io ≠ .hybrid) (layout : MemLayout) {plain : List StreamOp}
    (hplain : p.startLoading io layout q.ops = .ok (some plain)) :
    p.Refines q.ops plain ↔ p.Loadable q.ops := by
  have hq : q.ops ≠ [] := by
    intro h
    rw [h] at hplain
    cases hplain
  obtain ⟨ops, hrun, hcopies, hevents⟩ := startLoading_hybrid q hq .pageFirstDirect
  have hsplit : ∀ c, c ∈ copies p.pageSize plain ↔ _ := startLoading_plain hio hplain
  have hpairs := mem_zip_split q.wholePages
  rw [ne_nil_iff] at hevents
  constructor
  · rintro ⟨ops', hrun', hsame, hrec⟩
    rw [hrun] at hrun'
    cases hrun'
    refine ⟨hevents.mp hrec, ?_⟩
    rintro ht ⟨m, hm, hnot⟩ op hop
    by_contra hpre
    push Not at hpre
    obtain ⟨⟨h, d⟩, hx⟩ := exists_preloaded q hop hpre.1 hpre.2
    -- the draft copy of a preloaded pair is missing
    have hdraft : p.draftStages = false := by
      rw [draftStages, mem_def.mp hm]
      exact hnot
    have hc : (⟨true, h, d, 0⟩ : Copy) ∈ copies p.pageSize plain :=
      (hsplit _).mpr ⟨p.target.layerNum_pos,
        .inr ⟨rfl, ⟨m, hm, m.layerNum_pos⟩, (hpairs _).mpr (.inl hx)⟩⟩
    rw [← hsame, hcopies, draftPairs, if_pos ⟨ht, hdraft⟩] at hc
    rcases hc with ⟨-, ⟨hfalse, -⟩ | ⟨-, -, hnil⟩⟩ | ⟨-, ⟨hfalse, -⟩ | ⟨-, -, htail⟩⟩
    · cases hfalse
    · cases hnil
    · cases hfalse
    · exact preload_device_disjoint q.nodup_device (of_mem_zip hx).2
        (of_mem_zip htail).2
  · rintro ⟨hsome, hpre⟩
    refine ⟨ops, hrun, fun c => ?_, hevents.mpr hsome⟩
    have hnone : p.target.stages = true → (∃ m ∈ p.draft, m.stages = false) →
        (preloadIndices p.pageSize q.ops).1.zip (preloadIndices p.pageSize q.ops).2 = [] := by
      intro ht hm
      have hnil : (preloadIndices p.pageSize q.ops).1 = [] := by
        refine flatMap_eq_nil_iff.mpr fun op hop => ?_
        rcases hpre ht hm op hop with h | h
        · simp [preloadTokens, h]
        · simp [h]
      rw [hnil, zip_nil_left]
    rw [hcopies, loads_draftPairs hnone, hsplit, loads_or hpairs]

/-- A target pool that stages pages, with a draft pool. -/
def targetStages (draftStages : Bool) : LoadPools :=
  ⟨2, ⟨1, true, Nat.one_pos⟩, some ⟨1, draftStages, Nat.one_pos⟩⟩

/-- One operation on two pages, of which one is preloaded. -/
def twoPages : LoadQueue 2 where
  ops := [⟨[4, 5, 8, 9], [2, 3, 6, 7], 1, 1⟩]
  wholePages := by
    intro op hop
    rw [mem_singleton.mp hop]
    exact ⟨⟨[2, 4], rfl⟩, rfl⟩
  nodup_device := by
    show [2, 3, 6, 7].Nodup
    decide

/-- A draft pool that cannot stage pages does not get the page that is preloaded. -/
theorem hybrid_misses_draft :
    ∃ hybrid plain,
      (targetStages false).startLoading .hybrid .pageFirstDirect twoPages.ops = .ok (some hybrid) ∧
      (targetStages false).startLoading .direct .pageFirstDirect twoPages.ops = .ok (some plain) ∧
      (⟨true, 4, 2, 0⟩ : Copy) ∈ copies 2 plain ∧ (⟨true, 4, 2, 0⟩ : Copy) ∉ copies 2 hybrid :=
  ⟨_, _, rfl, rfl, by decide, by decide⟩

/-- One that can gets the preloaded page and the tail, as from the direct back end. -/
theorem hybrid_refines_twoPages :
    ∃ plain, (targetStages true).startLoading .direct .layerFirst twoPages.ops = .ok (some plain) ∧
      (targetStages true).Refines twoPages.ops plain := by
  refine ⟨_, rfl, (hybrid_refines_iff (targetStages true) twoPages .direct (by decide) .layerFirst
    rfl).mpr ⟨⟨_, mem_singleton_self _, by decide⟩, ?_⟩⟩
  rintro - ⟨m, ⟨⟩, ⟨⟩⟩

end LoadPools

end Fluxfer.Hi
