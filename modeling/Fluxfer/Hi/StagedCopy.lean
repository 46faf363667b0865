import Fluxfer.Hi.LoadingSpec
import Fluxfer.Lib.Writes

/-!
# Staged pages in memory

The buffers around `stage_pages_to_device` and `split_staged_pages_to_device_per_layer`. Host pool
and staging buffer have the layout `[page, layer, page_offset]` (`page_first_direct`) and are flat
here. An entry is what a token has in a layer, its K and its V.
-/

namespace Fluxfer.Hi

open Radix Pages List Nat

/-- The shape of a host pool with the layout `page_first_direct`. -/
structure PageFirst where
  pageSize : Nat
  layerNum : Nat
  pageSize_pos : 0 < pageSize

namespace PageFirst

variable {α : Type} (q : PageFirst)

/-- The entries of a page (`layout_dim * page_size`, in units of `token_stride_size`). -/
def pageDim : Nat := q.layerNum * q.pageSize

/-- `get_global_offset_pfd` -/
def offset (i layer : Nat) : Nat :=
  i / q.pageSize * q.pageDim + layer * q.pageSize + i % q.pageSize

/-- `staged[run_dst : run_dst + run_length].copy_(host[run_src : run_src + run_length])` -/
def copyRun (host staged : Nat → α) : StreamOp → Nat → α
  | .stage _ dst src len => fun x =>
    if dst ≤ x / q.pageDim ∧ x / q.pageDim < dst + len then
      host ((src + (x / q.pageDim - dst)) * q.pageDim + x % q.pageDim)
    else staged x
  | _ => staged

/-- The writes of `transfer_kv_per_layer_pfd_lf`, called for one layer after the other: the cell of
a device slot in a layer gets the entry of its source slot. -/
def writes (src : Nat → α) (srcIndices dstIndices : List Nat) : List ((Nat × Nat) × α) :=
  (range q.layerNum).flatMap fun layer =>
    (srcIndices.zip dstIndices).map fun x => ((layer, x.2), src (q.offset x.1 layer))

/-- `load_to_device_per_layer` for every layer -/
def loadLayers (host : Nat → α) (hostIndices deviceIndices : List Nat) :
    (Nat × Nat → α) → Nat × Nat → α :=
  writeAll (q.writes host hostIndices deviceIndices)

/-- `stage_pages_to_device` into the new buffer `empty`, and then
`split_staged_pages_to_device_per_layer` for every layer -/
def stageAndSplit (host empty : Nat → α) (hostIndices deviceIndices : List Nat)
    (device : Nat × Nat → α) : Except CacheError (Nat × Nat → α) := do
  match ← stagePagesToDevice q.pageSize false hostIndices with
  | none => .ok device
  | some ops =>
    let staged := ops.foldl (q.copyRun host) empty
    .ok (writeAll (q.writes staged (range hostIndices.length) deviceIndices) device)

variable {q} {host staged : Nat → α} {l : Nat}

theorem offset_div (hl : l < q.layerNum) (i : Nat) : q.offset i l / q.pageDim = i / q.pageSize ∧
    q.offset i l % q.pageDim = l * q.pageSize + i % q.pageSize := by
  have hlt : l * q.pageSize + i % q.pageSize < q.pageDim :=
    calc l * q.pageSize + i % q.pageSize < l * q.pageSize + q.pageSize :=
          Nat.add_lt_add_left (Nat.mod_lt _ q.pageSize_pos) _
      _ = (l + 1) * q.pageSize := (succ_mul _ _).symm
      _ ≤ q.pageDim := mul_le_mul_right _ hl
  rw [offset, add_assoc, add_comm]
  constructor
  · rw [add_mul_div_right _ _ (by omega), div_eq_of_lt hlt, zero_add]
  · rw [add_mul_mod_self_right, mod_eq_of_lt hlt]

/-- The buffer has the host pages that the staging says. -/
def Holds (q : PageFirst) (host : Nat → α) (m : Staging) (staged : Nat → α) : Prop :=
  ∀ x p, m false (x / q.pageDim) = some p → staged x = host (p * q.pageDim + x % q.pageDim)

theorem Holds.copyRun {m : Staging} (h : q.Holds host m staged) (dst src len : Nat) :
    q.Holds host (stageInto m (.stage false dst src len))
      (q.copyRun host staged (.stage false dst src len)) := by
  intro x p hp
  simp only [stageInto, true_and] at hp
  simp only [PageFirst.copyRun]
  split_ifs at hp ⊢ with hx
  · rw [Option.some.inj hp]
  · exact h x p hp

theorem Holds.foldl {ops : List StreamOp} (hops : ∀ op ∈ ops, ∃ d s n, op = .stage false d s n) :
    ∀ {m : Staging} {staged : Nat → α}, q.Holds host m staged →
      q.Holds host (ops.foldl stageInto m) (ops.foldl (q.copyRun host) staged) := by
  induction ops with
  | nil => exact fun h => h
  | cons op ops ih =>
    intro m staged h
    obtain ⟨d, s, n, rfl⟩ := hops op mem_cons_self
    exact ih (fun o ho => hops o (mem_cons_of_mem _ ho)) (h.copyRun d s n)

/-- Token `j` of the staging buffer is the `j`-th of the host slots. -/
theorem Holds.entry {m : Staging} {g : List Nat} {j : Nat} (h : q.Holds host m staged)
    (hm : m false (j / q.pageSize) = g[j / q.pageSize]?) (hj : j / q.pageSize < g.length)
    (hl : l < q.layerNum) :
    staged (q.offset j l) = host (q.offset (slotAt q.pageSize g j) l) := by
  obtain ⟨hdiv, hmod⟩ := offset_div hl j
  rw [h (q.offset j l) (g.getD (j / q.pageSize) 0), hmod, ← add_assoc,
    ← slotAt_div q.pageSize_pos, ← slotAt_mod j]
  · rfl
  · rw [hdiv, hm, getElem?_eq_getElem hj, getD_eq_getElem _ _ hj]

theorem writes_staged {g ds : List Nat} (h : ∀ l < q.layerNum, ∀ j < g.length * q.pageSize,
      staged (q.offset j l) = host (q.offset (slotAt q.pageSize g j) l)) :
    q.writes staged (range (slotsOf q.pageSize g).length) ds =
      q.writes host (slotsOf q.pageSize g) ds := by
  have hslots : slotsOf q.pageSize g =
      (range (g.length * q.pageSize)).map (slotAt q.pageSize g) :=
    slotsOf_eq_layout q.pageSize_pos g
  unfold writes
  rw [length_slotsOf, hslots, zip_map_left]
  refine flatMap_congr fun l hl => ?_
  rw [map_map]
  refine map_congr_left fun x hx => ?_
  exact congrArg (Prod.mk (l, x.2))
    (h l (mem_range.mp hl) x.1 (mem_range.mp (of_mem_zip hx).1))

/-- The staged copy of whole pages is the per-page copy: it writes the entry of each host slot to
its device slot, in every layer, and nothing else. -/
theorem stageAndSplit_spec (q : PageFirst) (host empty : Nat → α) (g ds : List Nat)
    (hlen : ds.length = (slotsOf q.pageSize g).length) (hnd : ds.Nodup)
    (device : Nat × Nat → α) :
    ∃ device', q.stageAndSplit host empty (slotsOf q.pageSize g) ds device = .ok device' ∧
      device' = q.loadLayers host (slotsOf q.pageSize g) ds device ∧
      (∀ l < q.layerNum, ∀ s d, (s, d) ∈ (slotsOf q.pageSize g).zip ds →
        device' (l, d) = host (q.offset s l)) ∧
      ∀ l d, ¬ l < q.layerNum ∨ d ∉ ds → device' (l, d) = device (l, d) := by
  have hsnd := map_snd_zip hlen.le
  have hcell : ∀ w ∈ q.writes host (slotsOf q.pageSize g) ds, ∃ l < q.layerNum,
      ∃ x ∈ (slotsOf q.pageSize g).zip ds, ((l, x.2), host (q.offset x.1 l)) = w :=
    fun w hw => by simpa only [writes, mem_flatMap, mem_range, mem_map] using hw
  refine ⟨_, ?_, rfl, fun l hl s d hmem => ?_, fun l d h => ?_⟩
  · unfold stageAndSplit
    by_cases hg : g = []
    · subst hg
      have hnil : q.writes host (slotsOf q.pageSize []) ds = [] :=
        flatMap_eq_nil_iff.mpr fun _ _ => rfl
      rw [loadLayers, hnil]
      rfl
    · obtain ⟨ops, hrun, hops, hstaged⟩ := stagePagesToDevice_spec q.pageSize_pos hg false
      rw [hrun]
      refine congrArg (fun ws => Except.ok (writeAll ws device)) (writes_staged fun l hl j hj => ?_)
      have hj' : j / q.pageSize < g.length := (div_lt_iff_lt_mul q.pageSize_pos).mpr hj
      have hnone : q.Holds host (fun _ _ => none) empty := fun _ _ h => absurd h (by simp)
      refine (Holds.foldl hops hnone).entry ?_ hj' hl
      rw [hstaged]
      exact if_pos ⟨rfl, hj'⟩
  · refine writeAll_eq (.inl ⟨((l, d), host (q.offset s l)), ?_, rfl⟩) fun w hw hwd => ?_
    · exact mem_flatMap.mpr ⟨l, mem_range.mpr hl, mem_map.mpr ⟨_, hmem, rfl⟩⟩
    · obtain ⟨l', _, x, hx, rfl⟩ := hcell w hw
      obtain ⟨rfl, hxd⟩ := Prod.mk.inj hwd
      rw [inj_on_of_nodup_map (hsnd.symm ▸ hnd) hx hmem hxd]
  · refine writeAll_eq (.inr rfl) fun w hw hwd => ?_
    obtain ⟨l', hl', x, hx, rfl⟩ := hcell w hw
    obtain ⟨rfl, rfl⟩ := Prod.mk.inj hwd
    exact absurd (of_mem_zip hx).2 (h.resolve_left (not_not.mpr hl'))

/-- Host pages 2, 3 and 0, of which the first two make one run, to device slots in any order. -/
theorem stageAndSplit_twoRuns : ∃ device', (PageFirst.mk 2 2 two_pos).stageAndSplit id id
      [4, 5, 6, 7, 0, 1] [9, 8, 3, 2, 5, 4] (fun _ => 99) = .ok device' ∧
    device' (1, 2) = 15 ∧ device' (1, 7) = 99 := by
  obtain ⟨device', hrun, _, hload, hkeep⟩ := stageAndSplit_spec ⟨2, 2, two_pos⟩ id id
    [2, 3, 0] [9, 8, 3, 2, 5, 4] rfl (by decide) fun _ => 99
  exact ⟨device', hrun, hload 1 (by decide) 7 2 (by decide), hkeep 1 7 (Or.inr (by decide))⟩

end PageFirst

end Fluxfer.Hi
