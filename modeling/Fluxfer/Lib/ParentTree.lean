import Mathlib.Logic.Relation
import Mathlib.Data.Finset.Basic
import Mathlib.Data.List.Infix

/-!
# Rooted trees given by a parent map

A mutable tree whose nodes only know their parent is a partial map `par : α → Option α` together
with the finite set `A` of its nodes. Three changes of shape are treated: a new node put between a
node and its parent (`splice`), a new leaf (`graft`), and a leaf taken away.
-/

namespace Fluxfer.ParentTree

open Finset List

variable {α β : Type*}

/-- `n` is `m` or one of its ancestors. -/
def Anc (par : α → Option α) (n m : α) : Prop :=
  Relation.ReflTransGen (fun a b => par a = some b) m n

/-- Every node of `A` reaches `root` by parent steps inside `A`, in fewer than
`bound` steps. -/
structure Rooted (par : α → Option α) (A : Finset α) (root : α) (bound : Nat) : Prop where
  root_mem : root ∈ A
  root_par : par root = none
  ranked : ∃ depth : α → Nat, (∀ n ∈ A, depth n < bound) ∧
    ∀ n ∈ A, n ≠ root → ∃ p ∈ A, par n = some p ∧ depth p < depth n

/-- The labels from the root down to a node, concatenated. -/
inductive PathLabel (par : α → Option α) (d : α → List β) : α → List β → Prop
  | root {r : α} (hr : par r = none) : PathLabel par d r (d r)
  | step {m p : α} {l : List β} (hp : par m = some p) (hl : PathLabel par d p l) :
      PathLabel par d m (l ++ d m)

/-! ## Ancestors -/

theorem anc_refl (par : α → Option α) (n : α) : Anc par n n := .refl

theorem anc_step {par : α → Option α} {n m p : α} (hp : par m = some p) (h : Anc par n p) :
    Anc par n m := .head hp h

theorem anc_trans {par : α → Option α} {a b c : α} (h : Anc par a b) (g : Anc par b c) :
    Anc par a c := .trans g h

theorem anc_iff {par : α → Option α} {n m : α} :
    Anc par n m ↔ n = m ∨ ∃ p, par m = some p ∧ Anc par n p := by
  constructor
  · intro h
    rcases Relation.ReflTransGen.cases_head h with rfl | ⟨p, hp, hrest⟩
    · exact .inl rfl
    · exact .inr ⟨p, hp, hrest⟩
  · rintro (rfl | ⟨p, hp, hrest⟩)
    · exact anc_refl par n
    · exact anc_step hp hrest

theorem anc_iff_of_par {par : α → Option α} {n m p : α} (hp : par m = some p) :
    Anc par n m ↔ n = m ∨ Anc par n p := by
  rw [anc_iff, hp]
  simp

theorem anc_iff_of_none {par : α → Option α} {n m : α} (hp : par m = none) :
    Anc par n m ↔ n = m := by
  rw [anc_iff, hp]
  simp

theorem anc_child_of_ne {par : α → Option α} {n m : α} (h : Anc par n m) (hne : n ≠ m) :
    ∃ c, par c = some n ∧ Anc par c m := by
  rcases Relation.ReflTransGen.cases_tail h with he | ⟨c, hcm, hc⟩
  · exact absurd he hne
  · exact ⟨c, hc, hcm⟩

/-! ## Rooted trees -/

section Rooted

variable {par : α → Option α} {A : Finset α} {root : α} {bound : Nat}

variable (hT : Rooted par A root bound)
include hT

theorem Rooted.par_mem {n : α} (hn : n ∈ A) (hr : n ≠ root) : ∃ p ∈ A, par n = some p := by
  obtain ⟨depth, _, hstep⟩ := hT.ranked
  obtain ⟨p, hp, hpar, _⟩ := hstep n hn hr
  exact ⟨p, hp, hpar⟩

theorem Rooted.mem_of_par {n p : α} (hn : n ∈ A) (hp : par n = some p) : p ∈ A := by
  have hr : n ≠ root := by
    rintro rfl
    rw [hT.root_par] at hp
    cases hp
  obtain ⟨q, hq, hpar⟩ := hT.par_mem hn hr
  rw [hp] at hpar
  cases hpar
  exact hq

theorem Rooted.ne_root_of_par {n p : α} (hp : par n = some p) : n ≠ root := by
  rintro rfl
  rw [hT.root_par] at hp
  cases hp

theorem Rooted.induction {P : α → Prop} (hroot : P root)
    (hstep : ∀ m p, m ∈ A → p ∈ A → par m = some p → P p → P m) : ∀ m ∈ A, P m := by
  obtain ⟨depth, _, hd⟩ := hT.ranked
  intro m
  generalize hk : depth m = k
  induction k using Nat.strongRecOn generalizing m with
  | ind k ih =>
    intro hm
    by_cases hr : m = root
    · exact hr ▸ hroot
    · obtain ⟨p, hp, hpar, hlt⟩ := hd m hm hr
      exact hstep m p hm hp hpar (ih (depth p) (by omega) p rfl hp)

theorem Rooted.anc_mem {n m : α} (hm : m ∈ A) (h : Anc par n m) : n ∈ A := by
  induction h with
  | refl => exact hm
  | tail _ hp ih => exact hT.mem_of_par ih hp

theorem Rooted.root_anc : ∀ m ∈ A, Anc par root m :=
  hT.induction (anc_refl par root) (fun _ _ _ _ hp ih => anc_step hp ih)

theorem Rooted.anc_depth {depth : α → Nat}
    (hd : ∀ n ∈ A, n ≠ root → ∃ p ∈ A, par n = some p ∧ depth p < depth n)
    {n m : α} (hm : m ∈ A) (h : Anc par n m) : n = m ∨ depth n < depth m := by
  induction h with
  | refl => exact .inl rfl
  | @tail b c hb hp ih =>
    have hbA : b ∈ A := hT.anc_mem hm hb
    obtain ⟨p, _, hpar, hlt⟩ := hd b hbA (hT.ne_root_of_par hp)
    rw [hp] at hpar
    cases hpar
    rcases ih with rfl | ih
    · exact .inr hlt
    · exact .inr (hlt.trans ih)

theorem Rooted.not_anc_of_par {n p : α} (hn : n ∈ A) (hp : par n = some p) : ¬ Anc par n p := by
  obtain ⟨depth, _, hd⟩ := hT.ranked
  obtain ⟨q, _, hpar, hlt⟩ := hd n hn (hT.ne_root_of_par hp)
  rw [hp] at hpar
  cases hpar
  intro h
  rcases hT.anc_depth hd (hT.mem_of_par hn hp) h with rfl | h'
  · exact lt_irrefl _ hlt
  · omega

theorem Rooted.par_ne {n p : α} (hn : n ∈ A) (hp : par n = some p) : p ≠ n := by
  rintro rfl
  exact hT.not_anc_of_par hn hp (anc_refl _ _)

theorem Rooted.anc_antisymm {n m : α} (hm : m ∈ A) (h : Anc par n m) (g : Anc par m n) : n = m := by
  obtain ⟨depth, _, hd⟩ := hT.ranked
  rcases hT.anc_depth hd hm h with he | hlt
  · exact he
  · rcases hT.anc_depth hd (hT.anc_mem hm h) g with he | hlt'
    · exact he.symm
    · omega

theorem Rooted.anc_congr {par' : α → Option α}
    (hpar : ∀ x ∈ A, par' x = par x) {n : α} : ∀ m ∈ A, (Anc par' n m ↔ Anc par n m) := by
  refine hT.induction ?_ ?_
  · rw [anc_iff_of_none hT.root_par, anc_iff_of_none ((hpar root hT.root_mem).trans hT.root_par)]
  · intro m p hm _ hp ih
    rw [anc_iff_of_par hp, anc_iff_of_par ((hpar m hm).trans hp), ih]

/-- A chain of parent steps that starts in the tree has fewer than `bound` steps: the
number of steps from `m` decreases along the chain. -/
theorem Rooted.exists_depth : ∃ depth : α → Nat, (∀ n ∈ A, depth n < bound) ∧
      ∀ n ∈ A, ∀ p, par n = some p → depth p < depth n := by
  obtain ⟨depth, hb, hd⟩ := hT.ranked
  refine ⟨depth, hb, ?_⟩
  intro n hn p hp
  obtain ⟨q, _, hq, hlt⟩ := hd n hn (hT.ne_root_of_par hp)
  rw [hp] at hq
  cases hq
  exact hlt

theorem Rooted.climb {P : Nat → α → Prop} (hstep : ∀ fuel, ∀ n ∈ A,
      (∀ p, par n = some p → P fuel p) → P (fuel + 1) n) : ∀ n ∈ A, P (bound + 1) n := by
  obtain ⟨depth, hb, hdepth⟩ := hT.exists_depth
  have hall : ∀ fuel, ∀ n ∈ A, depth n < fuel → P fuel n := by
    intro fuel
    induction fuel with
    | zero => exact fun n _ hlt => absurd hlt (Nat.not_lt_zero _)
    | succ fuel ih =>
      refine fun n hn hlt => hstep fuel n hn fun p hp => ih p (hT.mem_of_par hn hp) ?_
      exact lt_of_lt_of_le (hdepth n hn p hp) (Nat.lt_succ_iff.mp hlt)
  exact fun n hn => hall _ n hn (Nat.lt_succ_of_lt (hb n hn))

end Rooted

/-! ## Path labels -/

section Labels

variable {par : α → Option α} {d : α → List β} {A : Finset α} {root : α} {bound : Nat}

theorem PathLabel.unique {m : α} {l k : List β} (hl : PathLabel par d m l)
    (hk : PathLabel par d m k) : l = k := by
  induction hl generalizing k with
  | root hr =>
    cases hk with
    | root _ => rfl
    | step hp _ => rw [hr] at hp; cases hp
  | step hp _ ih =>
    cases hk with
    | root hr => rw [hr] at hp; cases hp
    | step hp' hk' =>
      rw [hp] at hp'
      cases hp'
      rw [ih hk']

theorem Rooted.exists_label (hT : Rooted par A root bound) (d : α → List β) :
    ∀ m ∈ A, ∃ l, PathLabel par d m l :=
  hT.induction ⟨_, .root hT.root_par⟩
    (fun _ _ _ _ hp ⟨l, hl⟩ => ⟨l ++ _, .step hp hl⟩)

theorem PathLabel.of_par {m p : α} {l : List β} (hp : par m = some p)
    (h : PathLabel par d m l) : ∃ k, PathLabel par d p k ∧ l = k ++ d m := by
  cases h with
  | root hr => rw [hp] at hr; cases hr
  | step hp' hk =>
    rw [hp] at hp'
    cases hp'
    exact ⟨_, hk, rfl⟩

theorem PathLabel.of_none {m : α} {l : List β} (hp : par m = none)
    (h : PathLabel par d m l) : l = d m := by
  cases h with
  | root _ => rfl
  | step hp' _ => rw [hp] at hp'; cases hp'

theorem PathLabel.prefix_of_anc {n m : α} {k l : List β} (h : Anc par n m)
    (hk : PathLabel par d n k) (hl : PathLabel par d m l) : k <+: l := by
  induction h using Relation.ReflTransGen.head_induction_on generalizing l with
  | refl => exact (hk.unique hl) ▸ prefix_refl k
  | head hp _ ih =>
    obtain ⟨l', hl', rfl⟩ := hl.of_par hp
    exact (ih hl').trans (prefix_append _ _)

theorem PathLabel.exists_anc_of_mem {m : α} {l : List β} (h : PathLabel par d m l) {b : β}
    (hb : b ∈ l) : ∃ n, Anc par n m ∧ b ∈ d n := by
  induction h with
  | root _ => exact ⟨_, anc_refl _ _, hb⟩
  | @step m p l hp _ ih =>
    rcases mem_append.mp hb with hb | hb
    · obtain ⟨n, hn, hmem⟩ := ih hb
      exact ⟨n, anc_step hp hn, hmem⟩
    · exact ⟨m, anc_refl _ _, hb⟩

theorem PathLabel.suffix {m : α} {l : List β} (h : PathLabel par d m l) : d m <:+ l := by
  cases h with
  | root _ => exact suffix_rfl
  | step _ _ => exact suffix_append _ _

theorem PathLabel.congr {d' : α → List β} {m : α} {l : List β} (h : PathLabel par d m l)
    (hd : ∀ n, Anc par n m → d' n = d n) : PathLabel par d' m l := by
  induction h with
  | @root r hr =>
    rw [← hd r (anc_refl _ _)]
    exact .root hr
  | @step m p l hp _ ih =>
    rw [← hd m (anc_refl _ _)]
    exact .step hp (ih fun n hn => hd n (anc_step hp hn))

theorem Rooted.label_congr (hT : Rooted par A root bound) {par' : α → Option α}
    {d' : α → List β} (hpar : ∀ x ∈ A, par' x = par x) (hd : ∀ x ∈ A, d' x = d x) :
    ∀ m ∈ A, ∀ l, (PathLabel par' d' m l ↔ PathLabel par d m l) := by
  refine hT.induction ?_ ?_
  · intro l
    have hr := hT.root_par
    have hr' := (hpar root hT.root_mem).trans hr
    constructor
    · intro h
      rw [h.of_none hr', hd root hT.root_mem]
      exact .root hr
    · intro h
      rw [h.of_none hr, ← hd root hT.root_mem]
      exact .root hr'
  · intro m p hm _ hp ih l
    have hp' := (hpar m hm).trans hp
    constructor
    · intro h
      obtain ⟨k, hk, rfl⟩ := h.of_par hp'
      rw [hd m hm]
      exact .step hp ((ih k).mp hk)
    · intro h
      obtain ⟨k, hk, rfl⟩ := h.of_par hp
      rw [← hd m hm]
      exact .step hp' ((ih k).mpr hk)

end Labels

/-! ## A new node between a node and its parent -/

section Splice

variable [DecidableEq α]

/-- The parent map after `w` was put between `c` and its parent. -/
def splice (par : α → Option α) (c w : α) (x : α) : Option α :=
  if x = w then par c else if x = c then some w else par x

variable {par : α → Option α} {A : Finset α} {root c w : α} {bound : Nat}

theorem splice_new : splice par c w w = par c := by simp [splice]

theorem splice_child (hne : c ≠ w) : splice par c w c = some w := by simp [splice, hne]

theorem splice_other {x : α} (hw : x ≠ w) (hc : x ≠ c) : splice par c w x = par x := by
  simp [splice, hw, hc]

variable (hT : Rooted par A root bound) (hc : c ∈ A) (hcr : c ≠ root) (hw : w ∉ A)
include hT hc hcr hw

/-- The ancestors of an old node: the old ones, and the new node below `c`. -/
theorem Rooted.anc_splice {n : α} :
    ∀ m ∈ A, (Anc (splice par c w) n m ↔ Anc par n m ∨ (n = w ∧ Anc par c m)) := by
  have hcw : c ≠ w := fun h => hw (h ▸ hc)
  have hstepw : ∀ q, q ∈ A → par c = some q →
      (∀ n, Anc (splice par c w) n q ↔ Anc par n q ∨ (n = w ∧ Anc par c q)) →
      ∀ n, (Anc (splice par c w) n w ↔ n = w ∨ Anc par n q) := by
    intro q _ hq ih n
    rw [anc_iff_of_par (splice_new.trans hq), ih]
    tauto
  suffices h : ∀ m ∈ A, ∀ n, (Anc (splice par c w) n m ↔ Anc par n m ∨ (n = w ∧ Anc par c m)) by
    intro m hm
    exact h m hm n
  refine hT.induction ?_ ?_
  · intro n
    have hrw : root ≠ w := fun h => hw (h ▸ hT.root_mem)
    have hroot : splice par c w root = none := by
      rw [splice_other hrw (Ne.symm hcr), hT.root_par]
    rw [anc_iff_of_none hroot, anc_iff_of_none hT.root_par, anc_iff_of_none hT.root_par]
    tauto
  · intro m p hm hp hpar ih n
    have hmw : m ≠ w := fun h => hw (h ▸ hm)
    by_cases hmc : m = c
    · subst hmc
      rw [anc_iff_of_par (splice_child hcw), hstepw p hp hpar ih, anc_iff_of_par hpar,
        anc_iff_of_par hpar]
      tauto
    · rw [anc_iff_of_par ((splice_other hmw hmc).trans hpar), ih, anc_iff_of_par hpar,
        anc_iff_of_par hpar]
      tauto

theorem Rooted.splice_rooted : Rooted (splice par c w) (insert w A) root (bound + 1) := by
  classical
  obtain ⟨depth, hb, hd⟩ := hT.ranked
  have hcw : c ≠ w := fun h => hw (h ▸ hc)
  have hrw : root ≠ w := fun h => hw (h ▸ hT.root_mem)
  obtain ⟨q, hqA, hq, hqlt⟩ := hd c hc hcr
  -- everything at or below `c` moves down by one, and `w` takes the old depth of `c`
  let depth' : α → Nat := fun x => if x = w then depth c else depth x + if Anc par c x then 1 else 0
  refine ⟨mem_insert_of_mem hT.root_mem, ?_, depth', ?_, ?_⟩
  · rw [splice_other hrw (Ne.symm hcr), hT.root_par]
  · intro n hn
    by_cases hnw : n = w
    · have := hb c hc
      simp only [depth', hnw, if_true]
      omega
    · have hnA : n ∈ A := (mem_insert.mp hn).resolve_left hnw
      have := hb n hnA
      simp only [depth', hnw, if_false]
      split <;> omega
  · intro n hn hr
    by_cases hnw : n = w
    · subst hnw
      refine ⟨q, mem_insert_of_mem hqA, splice_new.trans hq, ?_⟩
      have hqw : q ≠ n := fun h => hw (h ▸ hqA)
      simp only [depth', if_true, hqw, hT.not_anc_of_par hc hq]
      exact hqlt
    · have hnA : n ∈ A := (mem_insert.mp hn).resolve_left hnw
      by_cases hnc : n = c
      · subst hnc
        refine ⟨w, mem_insert_self _ _, splice_child hcw, ?_⟩
        simp only [depth', if_true, hnw, if_false, anc_refl]
        omega
      · obtain ⟨p, hpA, hp, hlt⟩ := hd n hnA hr
        have hpw : p ≠ w := fun h => hw (h ▸ hpA)
        refine ⟨p, mem_insert_of_mem hpA, (splice_other hnw hnc).trans hp, ?_⟩
        have hiff : Anc par c n ↔ Anc par c p := by
          rw [anc_iff_of_par hp]
          have : c ≠ n := Ne.symm hnc
          tauto
        simp only [depth', hnw, hpw, if_false, hiff]
        omega

theorem Rooted.label_splice {d d' : α → List β} (hsplit : d' w ++ d' c = d c)
    (hother : ∀ x ∈ A, x ≠ c → d' x = d x) :
    ∀ m ∈ A, ∀ l, PathLabel par d m l → PathLabel (splice par c w) d' m l := by
  have hcw : c ≠ w := fun h => hw (h ▸ hc)
  refine hT.induction ?_ ?_
  · intro l h
    have hrw : root ≠ w := fun h => hw (h ▸ hT.root_mem)
    rw [h.of_none hT.root_par, ← hother root hT.root_mem (Ne.symm hcr)]
    exact .root (by rw [splice_other hrw (Ne.symm hcr), hT.root_par])
  · intro m p hm hp hpar ih l h
    obtain ⟨k, hk, rfl⟩ := h.of_par hpar
    have hmw : m ≠ w := fun h => hw (h ▸ hm)
    by_cases hmc : m = c
    · subst hmc
      rw [← hsplit, ← append_assoc]
      exact .step (splice_child hcw) (.step (splice_new.trans hpar) (ih k hk))
    · rw [← hother m hm hmc]
      exact .step ((splice_other hmw hmc).trans hpar) (ih k hk)

end Splice

/-! ## A new leaf -/

section Graft

variable [DecidableEq α]

def graft (par : α → Option α) (p w : α) (x : α) : Option α := if x = w then some p else par x

variable {par : α → Option α} {A : Finset α} {root p w : α} {bound : Nat}

theorem graft_new : graft par p w w = some p := by simp [graft]

theorem graft_other {x : α} (hw : x ≠ w) : graft par p w x = par x := by simp [graft, hw]

theorem graft_of_mem (hw : w ∉ A) {x : α} (hx : x ∈ A) : graft par p w x = par x :=
  graft_other (fun h => hw (h ▸ hx))

theorem Rooted.anc_graft (hT : Rooted par A root bound) (hw : w ∉ A) {n : α} :
    ∀ m ∈ A, (Anc (graft par p w) n m ↔ Anc par n m) :=
  hT.anc_congr (fun _ hx => graft_of_mem hw hx)

theorem Rooted.graft_rooted (hT : Rooted par A root bound) (hp : p ∈ A) (hw : w ∉ A) :
    Rooted (graft par p w) (insert w A) root (bound + 1) := by
  obtain ⟨depth, hb, hd⟩ := hT.ranked
  have hrw : root ≠ w := fun h => hw (h ▸ hT.root_mem)
  have hpw : p ≠ w := fun h => hw (h ▸ hp)
  refine ⟨mem_insert_of_mem hT.root_mem, (graft_other hrw).trans hT.root_par,
    fun x => if x = w then depth p + 1 else depth x, ?_, ?_⟩
  · intro n hn
    by_cases hnw : n = w
    · have := hb p hp
      simp only [hnw, if_true]
      omega
    · have := hb n ((mem_insert.mp hn).resolve_left hnw)
      simp only [hnw, if_false]
      omega
  · intro n hn hr
    by_cases hnw : n = w
    · subst hnw
      refine ⟨p, mem_insert_of_mem hp, graft_new, ?_⟩
      simp only [if_true, hpw, if_false]
      omega
    · obtain ⟨q, hqA, hq, hlt⟩ := hd n ((mem_insert.mp hn).resolve_left hnw) hr
      have hqw : q ≠ w := fun h => hw (h ▸ hqA)
      refine ⟨q, mem_insert_of_mem hqA, (graft_other hnw).trans hq, ?_⟩
      simpa only [hnw, hqw, if_false] using hlt

theorem Rooted.label_graft {d d' : α → List β} (hT : Rooted par A root bound) (hw : w ∉ A)
    (hother : ∀ x ∈ A, d' x = d x) :
    ∀ m ∈ A, ∀ l, (PathLabel (graft par p w) d' m l ↔ PathLabel par d m l) :=
  hT.label_congr (fun _ hx => graft_of_mem hw hx) hother

end Graft

/-! ## A leaf taken away -/

theorem Rooted.erase_leaf [DecidableEq α] {par : α → Option α} {A : Finset α} {root x : α}
    {bound : Nat} (hT : Rooted par A root bound) (hr : x ≠ root)
    (hleaf : ∀ m ∈ A, par m ≠ some x) : Rooted par (A.erase x) root bound := by
  obtain ⟨depth, hb, hd⟩ := hT.ranked
  refine ⟨mem_erase.mpr ⟨Ne.symm hr, hT.root_mem⟩, hT.root_par, depth,
    fun n hn => hb n (mem_of_mem_erase hn), ?_⟩
  intro n hn hnr
  have hnA := mem_of_mem_erase hn
  obtain ⟨p, hp, hpar, hlt⟩ := hd n hnA hnr
  refine ⟨p, mem_erase.mpr ⟨?_, hp⟩, hpar, hlt⟩
  rintro rfl
  exact hleaf n hnA hpar

end Fluxfer.ParentTree
