import Fluxfer.Hi.Spec

/-!
# What is on the device

The nodes on the device are closed under parents, so their paths are a prefix store of their own
(`CoreOn.deviceStore`). `KeepsDevice` says that a change leaves every node on the device and its
path alone, and `GrowsAlong` that nothing but prefixes of one query is new there.
-/

namespace Fluxfer.Radix.CoreOn

open ParentTree Finset

variable {p : CacheParams} {t : RadixTree} {A : Finset NodeId} {n : NodeId} {e : Option String}
  {u l : List KeyUnit} {v : List Nat}

theorem deviceTrie (h : CoreOn p t A) : PagedTrie t.par (A.filter t.onDevice) t.rootNode t.counter
    p.pageSize t.ns t.seg := by
  refine h.shape.trie.restrict (filter_subset _ _)
    (mem_filter.mpr ⟨h.shape.rooted.root_mem, h.root_device⟩) fun n hn q hq => ?_
  have hnd := mem_filter.mp hn
  exact mem_filter.mpr
    ⟨h.shape.rooted.mem_of_par hnd.1 hq, h.device_par n hnd.1 q hq hnd.2⟩

theorem device_length (h : CoreOn p t A) :
    ∀ n ∈ A.filter t.onDevice, (t.deviceValue n).length = (t.seg n).length := by
  intro n hn
  have hnd := mem_filter.mp hn
  rw [t.length_seg]
  exact h.value_len n hnd.1 _ (value_of_onDevice hnd.2)

def deviceStore (h : CoreOn p t A) : PrefixStore (Option String) KeyUnit Nat p.pageSize :=
  h.deviceTrie.toStore h.device_length

theorem isLongest (h : CoreOn p t A) (hn : n ∈ A) (hd : t.onDevice n)
    (hns : n = t.rootNode ∨ t.ns n = e) (hl : PathLabel t.par t.seg n l)
    (hv : PathLabel t.par t.deviceValue n v) (hpre : l <+: u)
    (hstuck : ∀ c ∈ A, t.onDevice c → t.par c = some n → t.ns c = e →
      ¬ l ++ (t.seg c).take p.pageSize <+: u) :
    h.deviceStore.IsLongest e u l.length v :=
  h.deviceTrie.isLongest_of_stuck h.device_length (mem_filter.mpr ⟨hn, hd⟩) hns hl hv hpre
    fun c hc => hstuck c (mem_filter.mp hc).1 (mem_filter.mp hc).2

end Fluxfer.Radix.CoreOn

namespace Fluxfer.Hi

open Radix ParentTree

/-- The nodes on the device stay there, with their paths. -/
structure KeepsDevice (t : RadixTree) (A : Finset NodeId) (t' : RadixTree) (A' : Finset NodeId) :
    Prop where
  mem : ∀ n ∈ A, t.onDevice n → n ∈ A'
  device : ∀ n ∈ A, t.onDevice n → t'.onDevice n
  paths : KeepsPaths t t' {n | n ∈ A ∧ t.onDevice n}

namespace KeepsDevice

variable {p : CacheParams}
variable {t t' u : RadixTree} {A A' B : Finset NodeId}

theorem refl (t : RadixTree) (A : Finset NodeId) : KeepsDevice t A t A :=
  ⟨fun _ hn _ => hn, fun _ _ hd => hd, .refl t _⟩

theorem trans (h : KeepsDevice t A t' A') (g : KeepsDevice t' A' u B) : KeepsDevice t A u B :=
  ⟨fun n hn hd => g.mem n (h.mem n hn hd) (h.device n hn hd),
    fun n hn hd => g.device n (h.mem n hn hd) (h.device n hn hd),
    h.paths.trans g.paths fun n hn => ⟨h.mem n hn.1 hn.2, h.device n hn.1 hn.2⟩⟩

theorem of_sameDevice (h : SameDevice t A t' A') : KeepsDevice t A t' A' :=
  ⟨h.device_mem, fun n _ => (h.onDevice_iff n).mpr, h.keepsPaths _⟩

theorem of_split {c : NodeId} {k : Nat} (hs : IsSplit p.pageSize t t' c k) (h : ShapeOn p t A)
    (hc : c ∈ A) (hcr : c ≠ t.rootNode) (hk : k ≤ t.len c) :
    KeepsDevice t A t' (insert t.counter A) := by
  refine ⟨fun n hn _ => Finset.mem_insert_of_mem hn, ?_,
    (hs.keepsPaths h hc hcr hk).mono fun n hn => hn.1⟩
  intro n hn hd
  have hne := h.ne_counter _ hn
  rw [hs.onDevice_iff, if_neg hne]
  exact hd

theorem of_graft {node : NodeId} {key : RadixKey} {value : List Nat}
    (hg : IsGraft p.pageSize t t' node key value) (h : ShapeOn p t A) :
    KeepsDevice t A t' (insert t.counter A) := by
  refine ⟨fun n hn _ => Finset.mem_insert_of_mem hn, ?_,
    (hg.keepsPaths h).mono fun n hn => hn.1⟩
  intro n hn hd
  exact (hg.onDevice_iff (fun e => h.not_mem_counter (e ▸ hn))).mpr hd

section

variable (hk : KeepsDevice t A t' A') (h : CoreOn p t A)
include hk h

theorem store_sub (h' : CoreOn p t' A') : h.deviceStore.Sub h'.deviceStore := by
  rintro e w s ⟨hd, hnil | ⟨q, hq, hqr, hqe, lu, ls, hlu, hls, hpre, rfl⟩⟩
  · exact ⟨hd, .inl hnil⟩
  · have hqd := Finset.mem_filter.mp hq
    refine ⟨hd, .inr ⟨q, ?_, hk.paths.root_eq ▸ hqr, (hk.paths.ns q hqd).trans hqe, lu, ls,
      hk.paths.seg q hqd lu hlu, hk.paths.value q hqd ls hls, hpre, rfl⟩⟩
    exact Finset.mem_filter.mpr ⟨hk.mem q hqd.1 hqd.2, hk.device q hqd.1 hqd.2⟩

theorem exists_labels {q : NodeId} (hq : q ∈ A) (hqd : t.onDevice q) :
    ∃ l v, PathLabel t.par t.seg q l ∧ PathLabel t.par t.deviceValue q v ∧
      PathLabel t'.par t'.seg q l ∧ PathLabel t'.par t'.deviceValue q v := by
  obtain ⟨l, hl⟩ := h.shape.rooted.exists_label t.seg q hq
  obtain ⟨v, hv⟩ := h.shape.rooted.exists_label t.deviceValue q hq
  exact ⟨l, v, hl, hv, hk.paths.seg q ⟨hq, hqd⟩ l hl, hk.paths.value q ⟨hq, hqd⟩ v hv⟩

theorem store_eq (h' : CoreOn p t' A')
    (habove : ∀ n ∈ A', t'.onDevice n → ∃ q ∈ A, t.onDevice q ∧ Anc t'.par n q) :
    h'.deviceStore = h.deviceStore := by
  apply PrefixStore.ext
  funext e w s
  apply propext
  refine ⟨?_, hk.store_sub h h' e w s⟩
  rintro ⟨hd, hnil | ⟨n, hn, hnr, hne, lu, ls, hlu, hls, hpre, rfl⟩⟩
  · exact ⟨hd, .inl hnil⟩
  · have hnd := Finset.mem_filter.mp hn
    obtain ⟨q, hq, hqd, hanc⟩ := habove n hnd.1 hnd.2
    obtain ⟨l, v, hl, hv, hl', hv'⟩ := hk.exists_labels h hq hqd
    have hqA := hk.mem q hq hqd
    have hqr : q ≠ t.rootNode := by
      rintro rfl
      rw [← hk.paths.root_eq] at hanc
      exact hnr ((anc_iff_of_none h'.shape.rooted.root_par).mp hanc)
    have hlv := PathLabel.prefix_of_anc hanc hls hv'
    refine ⟨hd, .inr ⟨q, Finset.mem_filter.mpr ⟨hq, hqd⟩, hqr, ?_, l, v, hl, hv,
      hpre.trans (PathLabel.prefix_of_anc hanc hlu hl'), ?_⟩⟩
    · rw [← hk.paths.ns q ⟨hq, hqd⟩, ← h'.shape.trie.ns_anc hqA hnr hanc, hne]
    · have hlen : w.length ≤ ls.length := by
        rw [h'.deviceTrie.label_length_eq h'.device_length hn hlu hls]
        exact hpre.length_le
      obtain ⟨r, rfl⟩ := hlv
      rw [List.take_append_of_le_length hlen]

end

theorem store_sameDevice (hs : SameDevice t A t' A') (h : CoreOn p t A) (h' : CoreOn p t' A') :
    h'.deviceStore = h.deviceStore :=
  (of_sameDevice hs).store_eq h h' fun n hn hd =>
    ⟨n, hs.sub hn, (hs.onDevice_iff n).mp hd, anc_refl _ _⟩

theorem store_split {c : NodeId} {k : Nat} (hs : IsSplit p.pageSize t t' c k) (h : CoreOn p t A)
    (h' : CoreOn p t' (insert t.counter A)) (hc : c ∈ A) (hcr : c ≠ t.rootNode)
    (hk : k ≤ t.len c) : h'.deviceStore = h.deviceStore := by
  have hold := h.shape.ne_counter
  refine (of_split hs h.shape hc hcr hk).store_eq h h' fun n hn hd => ?_
  rw [hs.onDevice_iff] at hd
  rcases Finset.mem_insert.mp hn with rfl | hnA
  · rw [if_pos rfl] at hd
    exact ⟨c, hc, hd, anc_step (hs.par_child (hold c hc)) (anc_refl _ _)⟩
  · rw [if_neg (hold n hnA)] at hd
    exact ⟨n, hnA, hd, anc_refl _ _⟩

end KeepsDevice

/-- Every node on the device was there, or its path is a prefix of `u`. -/
def GrowsAlong (t : RadixTree) (A : Finset NodeId) (t' : RadixTree) (A' : Finset NodeId)
    (e : Option String) (u : List KeyUnit) : Prop :=
  ∀ n ∈ A', t'.onDevice n → n ∈ A ∧ t.onDevice n ∨
    t'.ns n = e ∧ ∃ l, PathLabel t'.par t'.seg n l ∧ l <+: u

namespace GrowsAlong

variable {p : CacheParams} {t t' t'' : RadixTree} {A A' A'' : Finset NodeId} {e : Option String}
  {u : List KeyUnit}

theorem of_sameDevice (hs : SameDevice t A t' A') : GrowsAlong t A t' A' e u := fun n hn hd =>
  .inl ⟨hs.sub hn, (hs.onDevice_iff n).mp hd⟩

theorem trans (h : GrowsAlong t A t' A' e u) (g : GrowsAlong t' A' t'' A'' e u)
    (hk : KeepsDevice t' A' t'' A'') : GrowsAlong t A t'' A'' e u := by
  intro n hn hd
  rcases g n hn hd with hmid | hnew
  · rcases h n hmid.1 hmid.2 with hold | ⟨hns, l, hl, hpre⟩
    · exact .inl hold
    · exact .inr ⟨(hk.paths.ns n hmid).trans hns, l, hk.paths.seg n hmid l hl, hpre⟩
  · exact .inr hnew

theorem holds (hg : GrowsAlong t A t' A' e u) (hk : KeepsDevice t A t' A') (h : CoreOn p t A)
    (h' : CoreOn p t' A') (e' : Option String) (w : List KeyUnit) (s : List Nat)
    (hw : h'.deviceStore.holds e' w s) : h.deviceStore.holds e' w s ∨ e' = e ∧ w <+: u := by
  rcases hw with ⟨hd, hnil | ⟨n, hn, hnr, hne, lu, ls, hlu, hls, hpre, rfl⟩⟩
  · exact .inl ⟨hd, .inl hnil⟩
  · have hnd := Finset.mem_filter.mp hn
    rcases hg n hnd.1 hnd.2 with hold | ⟨hns, l, hl, hlu'⟩
    · left
      obtain ⟨l, v, hl, hv, hl', hv'⟩ := hk.exists_labels h hold.1 hold.2
      obtain rfl := hlu.unique hl'
      obtain rfl := hls.unique hv'
      exact ⟨hd, .inr ⟨n, Finset.mem_filter.mpr hold, hk.paths.root_eq ▸ hnr,
        (hk.paths.ns n hold).symm.trans hne, lu, ls, hl, hv, hpre, rfl⟩⟩
    · obtain rfl := hlu.unique hl
      exact .inr ⟨hne.symm.trans hns, hpre.trans hlu'⟩

end GrowsAlong

end Fluxfer.Hi
