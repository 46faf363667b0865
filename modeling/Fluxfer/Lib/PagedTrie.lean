import Fluxfer.Lib.ParentTree
import Fluxfer.Lib.PrefixStore

/-!
# Path-compressed tries with pages

A rooted tree whose nodes carry segments of units. Segments are whole pages, a node has the
namespace of its parent unless that is the root, and two children of one node with one namespace
differ in their first page. The paths of the nodes form a prefix store (`PagedTrie.toStore`).
-/

namespace Fluxfer.ParentTree

open List Finset Nat

variable {α β γ κ : Type*}

structure PagedTrie (par : α → Option α) (A : Finset α) (root : α) (bound ps : Nat)
    (ns : α → κ) (seg : α → List β) : Prop where
  rooted : Rooted par A root bound
  seg_root : seg root = []
  seg_pos : ∀ n ∈ A, n ≠ root → 0 < (seg n).length
  seg_dvd : ∀ n ∈ A, ps ∣ (seg n).length
  ns_par : ∀ n ∈ A, ∀ p, par n = some p → p ≠ root → ns n = ns p
  sep : ∀ n ∈ A, ∀ m ∈ A, ∀ p, par n = some p → par m = some p → ns n = ns m →
    (seg n).take ps = (seg m).take ps → n = m

namespace PagedTrie

variable {n : α} {l u : List β}
variable {par : α → Option α} {A : Finset α} {root : α} {bound ps : Nat} {ns : α → κ}
  {seg : α → List β}

section

variable (hT : PagedTrie par A root bound ps ns seg)
include hT

theorem page_le (hn : n ∈ A) (hr : n ≠ root) : ps ≤ (seg n).length :=
  le_of_dvd (hT.seg_pos n hn hr) (hT.seg_dvd n hn)

theorem ns_anc {m : α} (hm : m ∈ A) (hr : n ≠ root) (h : Anc par n m) : ns n = ns m := by
  induction h with
  | refl => rfl
  | @tail b c hb hp ih =>
    have hbA : b ∈ A := hT.rooted.anc_mem hm hb
    have hbr : b ≠ root := hT.rooted.ne_root_of_par hp
    rw [← ih hbr, hT.ns_par b hbA c hp hr]

theorem label_dvd (hn : n ∈ A) (hl : PathLabel par seg n l) : ps ∣ l.length := by
  induction hl with
  | @root r _ => exact hT.seg_dvd r hn
  | @step m p l hp _ ih =>
    rw [length_append]
    exact Dvd.dvd.add (ih (hT.rooted.mem_of_par hn hp)) (hT.seg_dvd m hn)

theorem label_root (hl : PathLabel par seg root l) : l = [] := by
  rw [hl.of_none hT.rooted.root_par, hT.seg_root]

theorem exists_child_toward {q : α} (hq : q ∈ A)
    (h : Anc par n q) (hne : n ≠ q) {ln lq : List β} (hln : PathLabel par seg n ln)
    (hlq : PathLabel par seg q lq) : ∃ c ∈ A, par c = some n ∧ Anc par c q ∧ (ln ++ seg c) <+: lq := by
  obtain ⟨c, hc, hcq⟩ := anc_child_of_ne h hne
  exact ⟨c, hT.rooted.anc_mem hq hcq, hc, hcq,
    PathLabel.prefix_of_anc hcq (PathLabel.step hc hln) hlq⟩

/-- If the path to the parent of `q` and the first page of `q` start the path of a node of
the same namespace, that node is `q` or lies below it. -/
theorem anc_of_prefix {q' : α}
    (hq' : q' ∈ A) (hr' : q' ≠ root) {l' : List β} (hl' : PathLabel par seg q' l') :
    ∀ q ∈ A, q ≠ root → ns q = ns q' → ∀ p l, par q = some p → PathLabel par seg p l →
      (l ++ (seg q).take ps) <+: l' → Anc par q q' := by
  -- from the root down: the parent of `q` lies above `q'`, and separation picks the child
  refine hT.rooted.induction ?_ ?_
  · intro h
    exact absurd rfl h
  · intro q p hq hp hqp ih hqr hns p' l hp' hl hpre
    obtain rfl : p = p' := Option.some.inj (hqp.symm.trans hp')
    have hpq' : Anc par p q' := by
      by_cases hpr : p = root
      · rw [hpr]
        exact hT.rooted.root_anc q' hq'
      · obtain ⟨pp, hpp, hppar⟩ := hT.rooted.par_mem hp hpr
        obtain ⟨l0, hl0, hlp⟩ := hl.of_par hppar
        refine ih hpr (by rw [← hT.ns_par q hq p hqp hpr, hns]) pp l0 hppar hl0 ?_
        refine List.IsPrefix.trans ?_ ((prefix_append l _).trans hpre)
        rw [hlp]
        exact (prefix_append_right_inj l0).mpr ( take_prefix _ _)
    have hlen : l.length < l'.length := by
      have := hpre.length_le
      rw [length_append, length_take, min_eq_left (hT.page_le hq hqr)] at this
      have := pos_of_dvd_of_pos (hT.seg_dvd q hq) (hT.seg_pos q hq hqr)
      omega
    have hne : p ≠ q' := by
      rintro rfl
      rw [hl.unique hl'] at hlen
      omega
    obtain ⟨c, hcA, hcp, hcq', hcpre⟩ := hT.exists_child_toward hq' hpq' hne hl hl'
    have hcr : c ≠ root := hT.rooted.ne_root_of_par hcp
    have hpage : (seg q).take ps = (seg c).take ps := by
      have h1 := prefix_of_prefix_length_le hpre
        ((prefix_append_right_inj l).mpr ( take_prefix ps (seg c)) |>.trans hcpre)
        (by simp only [length_append, length_take,
              min_eq_left (hT.page_le hcA hcr)]; omega)
      have h2 := List.IsPrefix.eq_of_length h1
        (by simp only [length_append, length_take, min_eq_left (hT.page_le hq hqr),
              min_eq_left (hT.page_le hcA hcr)])
      exact append_cancel_left h2
    have : q = c := hT.sep q hq c hcA p hqp hcp
      (by rw [hns, hT.ns_anc hq' hcr hcq']) hpage
    rwa [this]

theorem anc_of_label {q : α} (hq : q ∈ A)
    (hqr : q ≠ root) {lq : List β} (hlq : PathLabel par seg q lq) (hn : n ∈ A)
    (hns : n = root ∨ ns n = ns q) (hl : PathLabel par seg n l) (hpre : l <+: lq) : Anc par n q := by
  by_cases hr : n = root
  · rw [hr]
    exact hT.rooted.root_anc q hq
  · obtain ⟨p, hp, hpar⟩ := hT.rooted.par_mem hn hr
    obtain ⟨l0, hl0, rfl⟩ := hl.of_par hpar
    refine hT.anc_of_prefix hq hqr hlq n hn hr (hns.resolve_left hr) p l0 hpar hl0 ?_
    exact ((prefix_append_right_inj l0).mpr ( take_prefix _ _)).trans hpre

theorem restrict {B : Finset α} (hB : B ⊆ A)
    (hroot : root ∈ B) (hpar : ∀ n ∈ B, ∀ p, par n = some p → p ∈ B) :
    PagedTrie par B root bound ps ns seg := by
  refine ⟨⟨hroot, hT.rooted.root_par, ?_⟩, hT.seg_root, fun n hn => hT.seg_pos n (hB hn),
    fun n hn => hT.seg_dvd n (hB hn), fun n hn => hT.ns_par n (hB hn),
    fun n hn m hm => hT.sep n (hB hn) m (hB hm)⟩
  obtain ⟨depth, hdepth, hstep⟩ := hT.rooted.ranked
  refine ⟨depth, fun n hn => hdepth n (hB hn), fun n hn hr => ?_⟩
  obtain ⟨p, _, hp, hlt⟩ := hstep n (hB hn) hr
  exact ⟨p, hpar n hn p hp, hp, hlt⟩

end

/-! ## The store of a trie -/

/-- `u` is a page-aligned prefix of the path of a node, with the slots `val` gives it. -/
def Holds (par : α → Option α) (A : Finset α) (root : α) (ps : Nat) (ns : α → κ)
    (seg : α → List β) (val : α → List γ) (e : κ) (u : List β) (s : List γ) : Prop :=
  ps ∣ u.length ∧ ((u = [] ∧ s = []) ∨ ∃ q ∈ A, q ≠ root ∧ ns q = e ∧
    ∃ lu ls, PathLabel par seg q lu ∧ PathLabel par val q ls ∧ u <+: lu ∧ s = ls.take u.length)

variable {val : α → List γ}

theorem label_length_eq (hT : PagedTrie par A root bound ps ns seg)
    (hv : ∀ n ∈ A, (val n).length = (seg n).length) (hn : n ∈ A) {lu : List β} {ls : List γ}
    (hu : PathLabel par seg n lu) (hs : PathLabel par val n ls) : ls.length = lu.length := by
  induction hu generalizing ls with
  | @root r hr => rw [hs.of_none hr, hv r hn]
  | @step m p l hp _ ih =>
    have hpA := hT.rooted.mem_of_par hn hp
    obtain ⟨l0, hl0, rfl⟩ := hs.of_par hp
    rw [length_append, length_append, ih hpA hl0, hv m hn]

theorem exists_covering (hT : PagedTrie par A root bound ps ns seg)
    (hv : ∀ n ∈ A, (val n).length = (seg n).length) (hu0 : u ≠ []) :
    ∀ q ∈ A, ∀ lu ls, q ≠ root → PathLabel par seg q lu → PathLabel par val q ls → u <+: lu →
      ∃ c ∈ A, c ≠ root ∧ ns c = ns q ∧ ∃ p l k, par c = some p ∧ PathLabel par seg p l ∧
        PathLabel par val c k ∧ l.length < u.length ∧ u <+: l ++ seg c ∧
        ls.take u.length = k.take u.length := by
  refine hT.rooted.induction ?_ ?_
  · intro _ _ h
    exact absurd rfl h
  · intro q p hq hp hqp ih lu ls hqr hlu hls hpre
    obtain ⟨l, hl, rfl⟩ := hlu.of_par hqp
    obtain ⟨k, hk, hls'⟩ := hls.of_par hqp
    by_cases hlt : l.length < u.length
    · exact ⟨q, hq, hqr, rfl, p, l, ls, hqp, hl, hls, hlt, hpre, rfl⟩
    · -- the prefix ends at or above the parent
      have hul : u <+: l := prefix_of_prefix_length_le hpre (prefix_append l _) (by omega)
      have hpr : p ≠ root := by
        rintro rfl
        rw [hT.label_root hl] at hul
        exact hu0 (prefix_nil.mp hul)
      obtain ⟨c, hc, hcr, hns, p', l', k', h1, h2, h3, h4, h5, h6⟩ := ih l k hpr hl hk hul
      refine ⟨c, hc, hcr, by rw [hns, ← hT.ns_par q hq p hqp hpr], p', l', k', h1, h2,
        h3, h4, h5, ?_⟩
      rw [← h6, hls', take_append_of_le_length]
      rw [hT.label_length_eq hv hp hl hk]
      exact hul.length_le

/-- The paths of the nodes and their slots, as a store. -/
def toStore (hT : PagedTrie par A root bound ps ns seg)
    (hv : ∀ n ∈ A, (val n).length = (seg n).length) : PrefixStore κ β γ ps where
  holds := Holds par A root ps ns seg val
  nil _ := ⟨dvd_zero ps, .inl ⟨rfl, rfl⟩⟩
  aligned h := h.1
  length_eq {e u s} h := by
    rcases h with ⟨_, ⟨rfl, rfl⟩ | ⟨q, hq, _, _, lu, ls, hlu, hls, hpre, rfl⟩⟩
    · rfl
    · rw [length_take, hT.label_length_eq hv hq hlu hls]
      exact min_eq_left hpre.length_le
  functional {e u s s'} h h' := by
    rcases h with ⟨hd, ⟨rfl, rfl⟩ | ⟨q, hq, hqr, hqe, lu, ls, hlu, hls, hpre, rfl⟩⟩
    · rcases h' with ⟨_, ⟨_, rfl⟩ | ⟨_, _, _, _, _, _, _, _, _, rfl⟩⟩
      · rfl
      · simp
    · rcases h' with ⟨_, ⟨rfl, rfl⟩ | ⟨q', hq', hqr', hqe', lu', ls', hlu', hls', hpre', rfl⟩⟩
      · simp
      · by_cases hu0 : u = []
        · simp [hu0]
        · -- the node that covers `u` on the way to `q` also lies above `q'`
          obtain ⟨c, hc, hcr, hns, p, l, k, hp, hl, hk, hlt, hcov, heq⟩ :=
            hT.exists_covering hv hu0 q hq lu ls hqr hlu hls hpre
          have hle : l.length + ps ≤ u.length := by
            have hdl := hT.label_dvd (hT.rooted.mem_of_par hc hp) hl
            have := le_of_dvd (by omega) (dvd_sub hd hdl)
            omega
          have hpage : (l ++ (seg c).take ps) <+: u := by
            refine prefix_of_prefix_length_le
              ((prefix_append_right_inj l).mpr ( take_prefix ps (seg c))) hcov ?_
            rw [length_append, length_take]
            omega
          have hanc : Anc par c q' := hT.anc_of_prefix hq' hqr' hlu' c hc hcr
            (by rw [hns, hqe, hqe']) p l hp hl (hpage.trans hpre')
          have hpk := PathLabel.prefix_of_anc hanc hk hls'
          have hlen : u.length ≤ k.length := by
            rw [hT.label_length_eq hv hc (PathLabel.step hp hl) hk]
            exact hcov.length_le
          obtain ⟨r, rfl⟩ := hpk
          rw [heq, take_append_of_le_length hlen]
  prefix_closed {e u s n} h hn := by
    rcases h with ⟨hd, ⟨rfl, rfl⟩ | ⟨q, hq, hqr, hqe, lu, ls, hlu, hls, hpre, rfl⟩⟩
    · simp only [take_nil]
      exact ⟨dvd_zero ps, .inl ⟨rfl, rfl⟩⟩
    · refine ⟨?_, .inr ⟨q, hq, hqr, hqe, lu, ls, hlu, hls, ( take_prefix n u).trans hpre, ?_⟩⟩
      · rw [length_take]
        rcases min_choice n u.length with h | h <;> rw [h] <;> assumption
      · rw [take_take, length_take]

theorem holds_label (hT : PagedTrie par A root bound ps ns seg)
    (hv : ∀ n ∈ A, (val n).length = (seg n).length) {e : κ} {s : List γ} (hn : n ∈ A)
    (hns : n = root ∨ ns n = e) (hl : PathLabel par seg n l) (hs : PathLabel par val n s) :
    (hT.toStore hv).holds e l s := by
  have hslen : s.length = l.length := hT.label_length_eq hv hn hl hs
  refine ⟨hT.label_dvd hn hl, ?_⟩
  by_cases hr : n = root
  · left
    subst hr
    obtain rfl := hT.label_root hl
    exact ⟨rfl, eq_nil_of_length_eq_zero hslen⟩
  · right
    refine ⟨n, hn, hr, hns.resolve_left hr, l, s, hl, hs, prefix_refl l, ?_⟩
    rw [take_of_length_le (by omega)]

/-- A node on the way of a query none of whose children continues it by a page is where
the longest stored prefix ends. -/
theorem isLongest_of_stuck (hT : PagedTrie par A root bound ps ns seg)
    (hv : ∀ n ∈ A, (val n).length = (seg n).length) {e : κ} {s : List γ} (hn : n ∈ A)
    (hns : n = root ∨ ns n = e) (hl : PathLabel par seg n l) (hs : PathLabel par val n s)
    (hlu : l <+: u) (hstuck : ∀ c ∈ A, par c = some n → ns c = e → ¬ (l ++ (seg c).take ps) <+: u) :
    (hT.toStore hv).IsLongest e u l.length s := by
  refine ⟨hlu.length_le, ?_, ?_⟩
  · rw [← prefix_iff_eq_take.mp hlu]
    exact hT.holds_label hv hn hns hl hs
  · rintro m s' hm ⟨hd, ⟨hnil, _⟩ | ⟨q, hq, hqr, hqe, lu, ls, hlq, _, hpre, _⟩⟩
    · have := congrArg length hnil
      rw [length_take] at this
      simp only [length_nil] at this
      omega
    · by_contra hgt
      rw [length_take] at hd
      have hle : l.length + ps ≤ m := by
        have := le_of_dvd (by omega) (dvd_sub hd (hT.label_dvd hn hl))
        omega
      have hlm : l <+: u.take m := by
        refine prefix_of_prefix_length_le hlu ( take_prefix m u) ?_
        rw [length_take]
        omega
      -- `n` lies above the node that stores the longer prefix
      have hanc : Anc par n q :=
        hT.anc_of_label hq hqr hlq hn (hns.imp_right fun h => h.trans hqe.symm) hl (hlm.trans hpre)
      have hne : n ≠ q := by
        rintro rfl
        rw [hl.unique hlq] at hle
        have := hpre.length_le
        rw [length_take] at this
        have := hT.page_le hn hqr
        have := hT.seg_pos n hn hqr
        have := pos_of_dvd_of_pos (hT.seg_dvd n hn) this
        omega
      obtain ⟨c, hc, hcn, hcq, hcpre⟩ := hT.exists_child_toward hq hanc hne hl hlq
      have hcr : c ≠ root := hT.rooted.ne_root_of_par hcn
      apply hstuck c hc hcn (by rw [hT.ns_anc hq hcr hcq, hqe])
      have h1 : (l ++ (seg c).take ps) <+: lu :=
        ((prefix_append_right_inj l).mpr ( take_prefix ps (seg c))).trans hcpre
      refine (prefix_of_prefix_length_le h1 hpre ?_).trans ( take_prefix m u)
      rw [length_append, length_take, length_take]
      omega

/-! ## Changes of the trie, seen in its store -/

section Changes

variable {w : α} {e : κ} {s : List γ}
variable [DecidableEq α] {ns' : α → κ} {seg' : α → List β} {val' : α → List γ}

theorem holds_splice (hT : PagedTrie par A root bound ps ns seg) {c : α} (hc : c ∈ A)
    (hcr : c ≠ root) (hw : w ∉ A) (hseg : seg' w ++ seg' c = seg c)
    (hval : val' w ++ val' c = val c) (hsegO : ∀ x ∈ A, x ≠ c → seg' x = seg x)
    (hvalO : ∀ x ∈ A, x ≠ c → val' x = val x) (hnsW : ns' w = ns c) (hnsO : ∀ x ∈ A, ns' x = ns x)
    (hv : ∀ n ∈ A, (val n).length = (seg n).length) (hvw : (val' w).length = (seg' w).length) :
    Holds (splice par c w) (insert w A) root ps ns' seg' val' e u s ↔
      Holds par A root ps ns seg val e u s := by
  have hlabel := hT.rooted.label_splice hc hcr hw hseg hsegO
  have hlabelV := hT.rooted.label_splice hc hcr hw hval hvalO
  constructor
  · rintro ⟨hd, hnil | ⟨q, hq, hqr, hqe, lu, ls, hlu, hls, hpre, rfl⟩⟩
    · exact ⟨hd, .inl hnil⟩
    · refine ⟨hd, .inr ?_⟩
      rcases mem_insert.mp hq with rfl | hqA
      · -- a prefix that ends in the new node is a prefix of the path of `c`
        obtain ⟨p, hpA, hp⟩ := hT.rooted.par_mem hc hcr
        obtain ⟨l, hl⟩ := hT.rooted.exists_label seg p hpA
        obtain ⟨k, hk⟩ := hT.rooted.exists_label val p hpA
        have hpar : splice par c q q = some p := splice_new.trans hp
        obtain rfl := hlu.unique (PathLabel.step hpar (hlabel p hpA l hl))
        obtain rfl := hls.unique (PathLabel.step hpar (hlabelV p hpA k hk))
        refine ⟨c, hc, hcr, by rw [← hqe, hnsW], l ++ seg c, k ++ val c, .step hp hl,
          .step hp hk, ?_, ?_⟩
        · rw [← hseg, ← append_assoc]
          exact hpre.trans (prefix_append _ _)
        · rw [← hval, ← append_assoc]
          refine (take_append_of_le_length ?_).symm
          rw [length_append, hT.label_length_eq hv hpA hl hk, hvw, ← length_append]
          exact hpre.length_le
      · obtain ⟨l, hl⟩ := hT.rooted.exists_label seg q hqA
        obtain ⟨k, hk⟩ := hT.rooted.exists_label val q hqA
        obtain rfl := hlu.unique (hlabel q hqA l hl)
        obtain rfl := hls.unique (hlabelV q hqA k hk)
        exact ⟨q, hqA, hqr, by rw [← hqe, hnsO q hqA], lu, ls, hl, hk, hpre, rfl⟩
  · rintro ⟨hd, hnil | ⟨q, hq, hqr, hqe, lu, ls, hlu, hls, hpre, rfl⟩⟩
    · exact ⟨hd, .inl hnil⟩
    · exact ⟨hd, .inr ⟨q, mem_insert_of_mem hq, hqr, by rw [hnsO q hq, hqe], lu, ls,
        hlabel q hq lu hlu, hlabelV q hq ls hls, hpre, rfl⟩⟩

theorem holds_graft (hT : PagedTrie par A root bound ps ns seg) {p : α} (hp : p ∈ A) (hw : w ∉ A)
    (hsegO : ∀ x ∈ A, seg' x = seg x) (hvalO : ∀ x ∈ A, val' x = val x)
    (hnsO : ∀ x ∈ A, ns' x = ns x) {l : List β} {k : List γ} (hl : PathLabel par seg p l)
    (hk : PathLabel par val p k) :
    Holds (graft par p w) (insert w A) root ps ns' seg' val' e u s ↔
      Holds par A root ps ns seg val e u s ∨
        (ps ∣ u.length ∧ e = ns' w ∧ u <+: l ++ seg' w ∧ s = (k ++ val' w).take u.length) := by
  have hold : ∀ x ∈ A, x ≠ w := fun x hx h => hw (h ▸ hx)
  have hrw : root ≠ w := hold root hT.rooted.root_mem
  have hlabel := hT.rooted.label_graft (p := p) hw hsegO
  have hlabelV := hT.rooted.label_graft (p := p) hw hvalO
  have hlw : PathLabel (graft par p w) seg' w (l ++ seg' w) :=
    .step graft_new ((hlabel p hp l).mpr hl)
  have hkw : PathLabel (graft par p w) val' w (k ++ val' w) :=
    .step graft_new ((hlabelV p hp k).mpr hk)
  constructor
  · rintro ⟨hd, hnil | ⟨q, hq, hqr, hqe, lu, ls, hlu, hls, hpre, rfl⟩⟩
    · exact .inl ⟨hd, .inl hnil⟩
    · rcases mem_insert.mp hq with rfl | hqA
      · obtain rfl := hlu.unique hlw
        obtain rfl := hls.unique hkw
        exact .inr ⟨hd, hqe.symm, hpre, rfl⟩
      · refine .inl ⟨hd, .inr ⟨q, hqA, hqr, by rw [← hqe, hnsO q hqA], lu, ls,
          (hlabel q hqA lu).mp hlu, (hlabelV q hqA ls).mp hls, hpre, rfl⟩⟩
  · rintro (⟨hd, hnil | ⟨q, hq, hqr, hqe, lu, ls, hlu, hls, hpre, rfl⟩⟩ | ⟨hd, rfl, hpre, rfl⟩)
    · exact ⟨hd, .inl hnil⟩
    · exact ⟨hd, .inr ⟨q, mem_insert_of_mem hq, hqr, by rw [hnsO q hq, hqe], lu, ls,
        (hlabel q hq lu).mpr hlu, (hlabelV q hq ls).mpr hls, hpre, rfl⟩⟩
    · exact ⟨hd, .inr ⟨w, mem_insert_self w A, Ne.symm hrw, rfl, _, _, hlw, hkw, hpre,
        rfl⟩⟩

theorem holds_erase {x : α} (h : Holds par (A.erase x) root ps ns seg val e u s) :
    Holds par A root ps ns seg val e u s := by
  rcases h with ⟨hd, hnil | ⟨q, hq, hrest⟩⟩
  · exact ⟨hd, .inl hnil⟩
  · exact ⟨hd, .inr ⟨q, mem_of_mem_erase hq, hrest⟩⟩

end Changes

end PagedTrie

end Fluxfer.ParentTree
