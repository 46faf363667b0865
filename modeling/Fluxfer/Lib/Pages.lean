import Mathlib.Data.List.GetD
import Mathlib.Tactic

/-!
# Slots in pages

Page `g` of size `ps` consists of the slots `g * ps, …, g * ps + ps - 1`. A list of slots is *laid
out* (`Laid`) when it fills pages one after the other, each from its first slot; only the last page
may be incomplete. `pagesOf` lists the pages whose first slot occurs, so that it is additive.
-/

namespace Fluxfer.Pages

open List Nat

def numPages (ps n : Nat) : Nat := (n + ps - 1) / ps

def slotsOf (ps : Nat) (pages : List Nat) : List Nat :=
  pages.flatMap fun g => (range ps).map fun i => g * ps + i

/-- The slot at position `i` of a list of pages. -/
def slotAt (ps : Nat) (g : List Nat) (i : Nat) : Nat := g.getD (i / ps) 0 * ps + i % ps

/-- The first `n` slots of a list of pages. -/
def layout (ps : Nat) (g : List Nat) (n : Nat) : List Nat := (range n).map (slotAt ps g)

/-- The pages whose first slot occurs in a list. -/
def pagesOf (ps : Nat) (v : List Nat) : List Nat :=
  (v.filter fun s => s % ps = 0).map fun s => s / ps

/-- The list fills pages one after the other. -/
def Laid (ps : Nat) (v : List Nat) : Prop :=
  ∃ g, g.length = numPages ps v.length ∧ v = layout ps g v.length

/-- With a slot, the first slot of its page occurs. -/
def Started (ps : Nat) (v : List Nat) : Prop := ∀ s ∈ v, s / ps * ps ∈ v

section NumPages

variable {ps n m : Nat}

theorem numPages_zero (hps : 0 < ps) : numPages ps 0 = 0 :=
  div_eq_of_lt (by omega)

theorem numPages_mul (hps : 0 < ps) (k : Nat) : numPages ps (k * ps) = k := by
  unfold numPages
  rw [show k * ps + ps - 1 = ps - 1 + k * ps by omega, add_mul_div_right _ _ hps,
    div_eq_of_lt (by omega), zero_add]

theorem numPages_mul_add (hps : 0 < ps) (k n : Nat) :
    numPages ps (k * ps + n) = k + numPages ps n := by
  unfold numPages
  rw [show k * ps + n + ps - 1 = n + ps - 1 + k * ps by omega, add_mul_div_right _ _ hps,
    add_comm]

theorem numPages_mono (h : n ≤ m) : numPages ps n ≤ numPages ps m :=
  Nat.div_le_div_right (by omega)

theorem le_numPages_mul (hps : 0 < ps) : n ≤ numPages ps n * ps := by
  unfold numPages
  have h := div_add_mod (n + ps - 1) ps
  have hlt := mod_lt (n + ps - 1) hps
  rw [mul_comm] at h
  omega

theorem numPages_le_iff (hps : 0 < ps) {k : Nat} : numPages ps n ≤ k ↔ n ≤ k * ps := by
  constructor
  · intro h
    exact (le_numPages_mul hps).trans (mul_le_mul_right ps h)
  · intro h
    exact (numPages_mono h).trans (numPages_mul hps k).le

theorem numPages_succ (hps : 0 < ps) :
    numPages ps (n + 1) = numPages ps n + if n % ps = 0 then 1 else 0 := by
  obtain ⟨k, r, hr, rfl⟩ : ∃ k r, r < ps ∧ n = k * ps + r :=
    ⟨n / ps, n % ps, mod_lt n hps, by rw [mul_comm]; exact (div_add_mod n ps).symm⟩
  rw [add_assoc, numPages_mul_add hps, numPages_mul_add hps, add_comm (k * ps),
    add_mul_mod_self_right, mod_eq_of_lt hr]
  have hone : numPages ps (r + 1) = 1 :=
    Nat.div_eq_of_lt_le (by omega) (by omega)
  by_cases h0 : r = 0
  · subst h0
    rw [hone, numPages_zero hps, if_pos rfl]
  · have hone' : numPages ps r = 1 := Nat.div_eq_of_lt_le (by omega) (by omega)
    rw [hone, hone', if_neg h0]

end NumPages

/-! ## Layouts -/

section Layout

variable {ps n m k : Nat} {g h v w : List Nat}

@[simp]
theorem length_layout : (layout ps g n).length = n := by
  rw [layout, length_map, length_range]

theorem slotAt_shift (hps : 0 < ps) (k i : Nat) :
    slotAt ps g (k * ps + i) = slotAt ps (g.drop k) i := by
  unfold slotAt
  rw [add_comm (k * ps), add_mul_div_right _ _ hps, add_mul_mod_self_right,
    add_comm (i / ps)]
  simp only [getD_eq_getElem?_getD, getElem?_drop]

theorem slotAt_append (h : List Nat) {i : Nat} (hi : i < g.length * ps) :
    slotAt ps (g ++ h) i = slotAt ps g i := by
  unfold slotAt
  rw [getD_append]
  exact Nat.div_lt_of_lt_mul (by rwa [Nat.mul_comm] at hi)

theorem layout_append (h : List Nat) (hn : n ≤ g.length * ps) :
    layout ps (g ++ h) n = layout ps g n := by
  apply map_congr_left
  intro i hi
  exact slotAt_append h (by rw [mem_range] at hi; omega)

theorem layout_add : layout ps g (m + n) =
    layout ps g m ++ (range n).map fun i => slotAt ps g (m + i) := by
  simp only [layout, range_add, map_append, map_map]
  rfl

theorem layout_mul_add (hps : 0 < ps) :
    layout ps g (k * ps + n) = layout ps g (k * ps) ++ layout ps (g.drop k) n := by
  rw [layout_add]
  congr 1
  apply map_congr_left
  intro i _
  exact slotAt_shift hps k i

theorem take_layout (h : m ≤ n) : (layout ps g n).take m = layout ps g m := by
  obtain ⟨d, rfl⟩ := Nat.exists_eq_add_of_le h
  rw [layout_add, take_left' length_layout]

theorem drop_layout (hps : 0 < ps) (h : k * ps ≤ n) :
    (layout ps g n).drop (k * ps) = layout ps (g.drop k) (n - k * ps) := by
  obtain ⟨d, rfl⟩ := Nat.exists_eq_add_of_le h
  rw [layout_mul_add hps, drop_left' length_layout, Nat.add_sub_cancel_left]

theorem slotsOf_eq_layout (hps : 0 < ps) (g : List Nat) :
    slotsOf ps g = layout ps g (g.length * ps) := by
  induction g with
  | nil => simp [slotsOf, layout]
  | cons x g ih =>
    have hlen : (x :: g).length * ps = 1 * ps + g.length * ps := by
      rw [length_cons, add_mul]
      omega
    rw [hlen, layout_mul_add hps, one_mul]
    show (range ps).map (fun i => x * ps + i) ++ slotsOf ps g = _
    congr 1
    apply map_congr_left
    intro i hi
    rw [mem_range] at hi
    simp [slotAt, div_eq_of_lt hi, mod_eq_of_lt hi]

theorem length_slotsOf (ps : Nat) (g : List Nat) : (slotsOf ps g).length = g.length * ps := by
  induction g with
  | nil => simp [slotsOf]
  | cons x g ih =>
    have hcons : slotsOf ps (x :: g) = (range ps).map (fun i => x * ps + i) ++ slotsOf ps g :=
      rfl
    rw [hcons, length_append, length_map, length_range, ih, length_cons, succ_mul, add_comm]

theorem slotsOf_one (g : List Nat) : slotsOf 1 g = g := by
  simp [slotsOf]

end Layout

/-! ## The pages of a list -/

section PagesOf

variable {ps n m k : Nat} {g v w : List Nat}

@[simp]
theorem pagesOf_nil : pagesOf ps [] = [] := rfl

theorem pagesOf_append : pagesOf ps (v ++ w) = pagesOf ps v ++ pagesOf ps w := by
  rw [pagesOf, filter_append, map_append, pagesOf, pagesOf]

theorem pagesOf_one : pagesOf 1 v = v := by
  simp [pagesOf, mod_one]

theorem slotAt_mod (i : Nat) : slotAt ps g i % ps = i % ps := by
  rw [slotAt, add_comm, add_mul_mod_self_right, mod_mod]

theorem slotAt_div (hps : 0 < ps) (i : Nat) : slotAt ps g i / ps = g.getD (i / ps) 0 := by
  rw [slotAt, add_comm, add_mul_div_right _ _ hps, div_eq_of_lt (mod_lt i hps),
    zero_add]

theorem pagesOf_layout (hps : 0 < ps) :
    n ≤ g.length * ps → pagesOf ps (layout ps g n) = g.take (numPages ps n) := by
  induction n with
  | zero =>
    intro _
    rw [numPages_zero hps]
    rfl
  | succ n ih =>
    intro hn
    rw [layout_add, pagesOf_append, ih (by omega), numPages_succ hps]
    simp only [range_one, map_cons, map_nil, add_zero]
    by_cases h0 : n % ps = 0
    · -- position `n` starts a new page
      obtain ⟨k, rfl⟩ := Nat.dvd_of_mod_eq_zero h0
      have hk : k < g.length := by
        by_contra hge
        have := Nat.mul_le_mul_right ps (Nat.le_of_not_lt hge)
        rw [Nat.mul_comm k] at this
        omega
      have hslot : pagesOf ps [slotAt ps g (ps * k)] = [g.getD k 0] := by
        simp [pagesOf, slotAt_mod, slotAt_div hps, Nat.mul_div_cancel_left _ hps]
      rw [if_pos h0, hslot, Nat.mul_comm ps, numPages_mul hps, take_add_one, getElem?_eq_getElem hk,
        getD_eq_getElem _ _ hk]
      rfl
    · have hslot : pagesOf ps [slotAt ps g n] = [] := by
        simp [pagesOf, slotAt_mod, h0]
      rw [if_neg h0, hslot, append_nil, Nat.add_zero]

theorem Started.append (hv : Started ps v) (hw : Started ps w) : Started ps (v ++ w) := by
  intro s hs
  rcases mem_append.mp hs with hs | hs
  · exact mem_append_left _ (hv s hs)
  · exact mem_append_right _ (hw s hs)

/-- The pages of the slots of a started list are those that `pagesOf` lists. -/
theorem Started.mem_pagesOf (hps : 0 < ps) (hv : Started ps v) {x : Nat} :
    x ∈ pagesOf ps v ↔ ∃ s ∈ v, s / ps = x := by
  simp only [pagesOf, mem_map, mem_filter, decide_eq_true_eq]
  constructor
  · rintro ⟨s, ⟨hs, _⟩, rfl⟩
    exact ⟨s, hs, rfl⟩
  · rintro ⟨s, hs, rfl⟩
    exact ⟨s / ps * ps, ⟨hv s hs, Nat.mul_mod_left _ _⟩, Nat.mul_div_cancel _ hps⟩

end PagesOf

/-! ## Laid out lists -/

namespace Laid

variable {ps n m k : Nat} {g v w : List Nat}

theorem nil (hps : 0 < ps) : Laid ps [] := ⟨[], (numPages_zero hps).symm, rfl⟩

theorem of_layout (hg : g.length = numPages ps n) : Laid ps (layout ps g n) :=
  ⟨g, by rw [length_layout, hg], by rw [length_layout]⟩

variable (hps : 0 < ps)
include hps

theorem slotsOf (g : List Nat) : Laid ps (slotsOf ps g) := by
  rw [slotsOf_eq_layout hps]
  exact of_layout (numPages_mul hps _).symm

theorem take (h : Laid ps v) (m : Nat) : Laid ps (v.take m) := by
  obtain ⟨g, hg, hv⟩ := h
  rcases le_total v.length m with hm | hm
  · rw [take_of_length_le hm]
    exact ⟨g, hg, hv⟩
  · rw [hv, take_layout hm]
    have hlen : (g.take (numPages ps m)).length = numPages ps m := by
      rw [length_take, hg]
      exact min_eq_left (numPages_mono hm)
    rw [← take_append_drop (numPages ps m) g,
      layout_append _ (by rw [hlen]; exact le_numPages_mul hps)]
    exact of_layout hlen

theorem drop (h : Laid ps v) (hm : ps ∣ m) : Laid ps (v.drop m) := by
  obtain ⟨k, rfl⟩ := hm
  rw [mul_comm ps]
  obtain ⟨g, hg, hv⟩ := h
  rcases le_total v.length (k * ps) with hle | hle
  · rw [drop_of_length_le hle]
    exact nil hps
  · rw [hv, drop_layout hps hle]
    apply of_layout
    obtain ⟨d, hd⟩ := Nat.exists_eq_add_of_le hle
    rw [length_drop, hg, hd, numPages_mul_add hps, Nat.add_sub_cancel_left, Nat.add_sub_cancel_left]

theorem append (hv : Laid ps v) (hd : ps ∣ v.length) (hw : Laid ps w) : Laid ps (v ++ w) := by
  obtain ⟨g, hg, hvg⟩ := hv
  obtain ⟨h, hh, hwh⟩ := hw
  obtain ⟨k, hk⟩ := hd
  rw [mul_comm ps] at hk
  rw [hk, numPages_mul hps] at hg
  have happ : v ++ w = layout ps (g ++ h) (k * ps + w.length) := by
    rw [layout_mul_add hps, layout_append _ (by rw [hg]), drop_left' hg, ← hwh, ← hk, ← hvg]
  rw [happ]
  apply of_layout
  rw [length_append, numPages_mul_add hps, hg, hh]

theorem started (h : Laid ps v) : Started ps v := by
  obtain ⟨g, _, hv⟩ := h
  intro s hs
  rw [hv, layout, mem_map] at hs ⊢
  obtain ⟨i, hi, rfl⟩ := hs
  refine ⟨i / ps * ps, ?_, ?_⟩
  · rw [mem_range] at hi ⊢
    exact (div_mul_le_self i ps).trans_lt hi
  · rw [slotAt_div hps, slotAt, Nat.mul_div_cancel _ hps, Nat.mul_mod_left, Nat.add_zero]

theorem length_pagesOf (h : Laid ps v) : (pagesOf ps v).length = numPages ps v.length := by
  obtain ⟨g, hg, hv⟩ := h
  have hle : v.length ≤ g.length * ps := hg ▸ le_numPages_mul hps
  rw [hv, pagesOf_layout hps hle, length_layout, length_take, hg, min_self]

theorem pagesOf_gap (h : Laid ps v) (n : Nat) :
    pagesOf ps ((v.take (numPages ps n * ps)).drop n) = [] := by
  have hle : n ≤ numPages ps n * ps := le_numPages_mul hps
  have happ := congrArg length (congrArg (pagesOf ps)
    (take_append_drop n (v.take (numPages ps n * ps))))
  rw [take_take, min_eq_left hle, pagesOf_append, length_append,
    (h.take hps n).length_pagesOf hps, (h.take hps _).length_pagesOf hps, length_take,
    length_take] at happ
  have hnum : numPages ps (min (numPages ps n * ps) v.length) ≤ numPages ps (min n v.length) := by
    rcases le_total n v.length with hn | hn
    · rw [min_eq_left hn, numPages_le_iff hps]
      exact min_le_left _ _
    · rw [min_eq_right hn]
      exact numPages_mono (min_le_right _ _)
  exact eq_nil_of_length_eq_zero (by omega)

end Laid

end Fluxfer.Pages
