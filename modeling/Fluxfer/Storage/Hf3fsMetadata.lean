import Mathlib.Algebra.Order.Group.Multiset
import Mathlib.Data.List.AList
import Mathlib.Data.List.GetD
import Mathlib.Data.List.Induction
import Mathlib.Tactic.Abel

/-!
# Pages of the HF3FS metadata server

`RankMetadata` of `storage/hf3fs/mini_3fs_metadata_server.py`. A write is in two phases:
`reserve_and_allocate_page_indices` takes pages out of the free list, or from the oldest keys, and
`confirm_write` gives them to their keys or back. `Writers` keeps the reservations in between.
-/

namespace Fluxfer.Hf3fs

open List Prod Nat
open Option (isNone some some_ne_none)
open Multiset (add_cons coe_add coe_eq_coe coe_singleton cons_add cons_coe mem_coe nodup_add
  singleton_add)

/-- `OrderedDict`, with the last key first. -/
abbrev KeyIndex := AList fun _ : String => Nat

structure RankMetadata where
  numPages : Nat
  freePages : List Nat
  keyToIndex : KeyIndex

namespace RankMetadata

def init (numPages : Nat) : RankMetadata := ⟨numPages, range numPages, ∅⟩

/-- `move_to_end`, which also is what an assignment followed by it amounts to. -/
def setItem (d : KeyIndex) (key : String) (page : Nat) : KeyIndex := d.insert key page

/-- The first loop of `reserve_and_allocate_page_indices`: the pages of the keys that are there. -/
def findKeys : KeyIndex → List String → List (Option Nat) × KeyIndex
  | d, [] => ([], d)
  | d, key :: keys =>
    match d.lookup key with
    | some page =>
      let (found, d) := findKeys (setItem d key page) keys
      (some page :: found, d)
    | none =>
      let (found, d) := findKeys d keys
      (none :: found, d)

/-- A page for a new key: `free_pages.pop()`, or `popitem(last=False)`, which fails on an empty
index. -/
def takePage (m : RankMetadata) : Option (Nat × RankMetadata) :=
  match m.freePages.getLast? with
  | some page => some (page, { m with freePages := m.freePages.dropLast })
  | none =>
    match m.keyToIndex.entries.getLast? with
    | some e => some (e.2, { m with keyToIndex := m.keyToIndex.erase e.1 })
    | none => none

/-- The second loop, with `none` for a failure. -/
def allocate : RankMetadata → List (Option Nat) → Option (List (Bool × Nat)) × RankMetadata
  | m, [] => (some [], m)
  | m, some page :: found =>
    let (results, m) := allocate m found
    (results.map ((true, page) :: ·), m)
  | m, none :: found =>
    match takePage m with
    | none => (none, m)
    | some (page, m) =>
      let (results, m) := allocate m found
      (results.map ((false, page) :: ·), m)

/-- `reserve_and_allocate_page_indices` -/
def reserve (m : RankMetadata) (keys : List String) : Option (List (Bool × Nat)) × RankMetadata :=
  let (found, d) := findKeys m.keyToIndex keys
  allocate { m with keyToIndex := d } found

/-- A page goes back to the free list, where it is at most once. -/
def releasePage (m : RankMetadata) (page : Nat) : RankMetadata :=
  if page ∈ m.freePages then m else { m with freePages := m.freePages ++ [page] }

def confirmWrite (m : RankMetadata) (written : List (String × Nat)) (release : List Nat) :
    RankMetadata :=
  let m := written.foldl (fun m e => { m with keyToIndex := setItem m.keyToIndex e.1 e.2 }) m
  release.foldl releasePage m

def deleteKey (m : RankMetadata) (key : String) : RankMetadata :=
  match m.keyToIndex.lookup key with
  | some page => releasePage { m with keyToIndex := m.keyToIndex.erase key } page
  | none => m

def deleteKeys (m : RankMetadata) (keys : List String) : RankMetadata := keys.foldl deleteKey m

def clearAll (m : RankMetadata) : RankMetadata :=
  { m with freePages := range m.numPages, keyToIndex := ∅ }

/-- `get_page_indices`, which moves the keys that are there to the end. -/
def getPageIndices (m : RankMetadata) (keys : List String) : List (Option Nat) × RankMetadata :=
  let (found, d) := findKeys m.keyToIndex keys
  (found, { m with keyToIndex := d })

end RankMetadata

open RankMetadata

/-! ## Writers -/

/-- The metadata with the writes that have not been confirmed: for each the new keys with the
pages that were reserved for them. -/
structure Writers where
  metadata : RankMetadata
  pending : List (List (String × Nat))

inductive MetadataOp
  | reserve (keys : List String)
  /-- the write at a place of `pending` is over, and these of its pages were written -/
  | confirm (i : Nat) (written : List Bool)
  | delete (keys : List String)
  | clear
  | getPageIndices (keys : List String)

variable (numPages : Nat) (n : Nat) (keys : List String) (ops : List MetadataOp)

/-- The new keys of a batch with their pages. -/
def newPages (results : List (Bool × Nat)) : List (String × Nat) :=
  ((keys.zip results).filter fun e => !e.2.1).map fun e => (e.1, e.2.2)

/-- The lists `written_keys_to_confirm` and `pages_to_release`. -/
def writtenKeys (items : List (String × Nat)) (written : List Bool) : List (String × Nat) :=
  ((items.zip written).filter fun e => e.2).map fst

def failedPages (items : List (String × Nat)) (written : List Bool) : List Nat :=
  ((items.zip written).filter fun e => !e.2).map fun e => e.1.2

namespace Writers

def init (numPages : Nat) : Writers := ⟨.init numPages, []⟩

def step (s : Writers) : MetadataOp → Writers
  | .reserve keys =>
    match s.metadata.reserve keys with
    | (some results, m) => ⟨m, s.pending ++ [newPages keys results]⟩
    | (none, m) => ⟨m, s.pending⟩
  | .confirm i written =>
    let items := s.pending.getD i []
    ⟨s.metadata.confirmWrite (writtenKeys items written) (failedPages items written),
      s.pending.eraseIdx i⟩
  | .delete keys => ⟨s.metadata.deleteKeys keys, s.pending⟩
  | .clear => ⟨s.metadata.clearAll, s.pending⟩
  | .getPageIndices keys => ⟨(s.metadata.getPageIndices keys).2, s.pending⟩

def run : Writers := ops.foldl step (init numPages)

/-- A write that is confirmed is pending, and each of its pages has a result; keys are deleted
and the index is cleared while no write is pending. -/
def Valid (s : Writers) : MetadataOp → Prop
  | .confirm i written => i < s.pending.length ∧ written.length = (s.pending.getD i []).length
  | .delete _ => s.pending = []
  | .clear => s.pending = []
  | _ => True

instance (s : Writers) : (op : MetadataOp) → Decidable (s.Valid op)
  | .confirm i written => inferInstanceAs (Decidable
      (i < s.pending.length ∧ written.length = (s.pending.getD i []).length))
  | .delete _ => inferInstanceAs (Decidable (s.pending = []))
  | .clear => inferInstanceAs (Decidable (s.pending = []))
  | .reserve _ => isTrue trivial
  | .getPageIndices _ => isTrue trivial

/-- Every page is in the free list, or at one key, or reserved by one write. -/
def Owned (s : Writers) : Prop :=
  (s.metadata.freePages : Multiset Nat) + (s.metadata.keyToIndex.entries.map Sigma.snd : List Nat) +
    (s.pending.flatten.map snd : List Nat) = (range s.metadata.numPages : Multiset Nat)

/-- A failed reservation leaves the state as it was. -/
def FailsUnchanged (s : Writers) : MetadataOp → Prop
  | .reserve keys => (s.metadata.reserve keys).1 = none → (s.metadata.reserve keys).2 = s.metadata
  | _ => True

/-- The number of entries of a batch that need a page. -/
def needed (m : RankMetadata) (keys : List String) : Nat :=
  (keys.filter fun key => key ∉ m.keyToIndex).length

/-- A reservation asks for no more pages than there are, unless there are none at all, and no key
that is confirmed is in the index, or confirmed twice at once. -/
def Careful (s : Writers) : MetadataOp → Prop
  | .reserve keys =>
    needed s.metadata keys ≤ s.metadata.freePages.length + s.metadata.keyToIndex.entries.length ∨
      s.metadata.freePages.length + s.metadata.keyToIndex.entries.length = 0
  | .confirm i written =>
    let keys := (writtenKeys (s.pending.getD i []) written).map fst
    keys.Nodup ∧ ∀ key ∈ keys, key ∉ s.metadata.keyToIndex
  | _ => True

instance (s : Writers) : (op : MetadataOp) → Decidable (s.Careful op)
  | .reserve keys => inferInstanceAs (Decidable
      (needed s.metadata keys ≤ s.metadata.freePages.length + s.metadata.keyToIndex.entries.length ∨
        s.metadata.freePages.length + s.metadata.keyToIndex.entries.length = 0))
  | .confirm i written => inferInstanceAs (Decidable
      (((writtenKeys (s.pending.getD i []) written).map fst).Nodup ∧
        ∀ key ∈ (writtenKeys (s.pending.getD i []) written).map fst,
          key ∉ s.metadata.keyToIndex))
  | .delete _ => isTrue trivial
  | .clear => isTrue trivial
  | .getPageIndices _ => isTrue trivial

end Writers

open Writers

/-! ## The index -/

section Index

variable {d : KeyIndex} {key : String} {page : Nat}

theorem entries_perm_of_lookup (h : d.lookup key = some page) :
    d.entries.Perm (⟨key, page⟩ :: (d.erase key).entries) := by
  have hmem : key ∈ d.entries.keys := AList.lookup_isSome.mp (by rw [h]; rfl)
  obtain ⟨b, l1, l2, hnot, hl, herase⟩ := exists_of_kerase hmem
  have hb : b = page := by
    have hlook : d.entries.dlookup key = some page := h
    rw [hl, dlookup_append, dlookup_eq_none.mpr hnot, dlookup_cons_eq] at hlook
    exact some.inj hlook
  show d.entries.Perm (⟨key, page⟩ :: kerase key d.entries)
  rw [herase, hl, hb]
  exact perm_middle

theorem setItem_perm (h : d.lookup key = some page) : (setItem d key page).entries.Perm d.entries :=
  (entries_perm_of_lookup h).symm

theorem findKeys_spec : ∀ d : KeyIndex,
    (findKeys d keys).1 = keys.map (d.lookup ·) ∧
      (findKeys d keys).2.entries.Perm d.entries := by
  induction keys with
  | nil => exact fun d => ⟨rfl, .refl _⟩
  | cons key keys ih =>
    intro d
    unfold findKeys
    cases hl : d.lookup key with
    | none =>
      obtain ⟨hfound, hperm⟩ := ih d
      exact ⟨by rw [map_cons, hl, ← hfound], hperm⟩
    | some page =>
      obtain ⟨hfound, hperm⟩ := ih (setItem d key page)
      have hmove := setItem_perm hl
      have hsame : ∀ k, (setItem d key page).lookup k = d.lookup k := fun k =>
        AList.perm_lookup hmove
      refine ⟨?_, hperm.trans hmove⟩
      simp only [hsame] at hfound
      rw [map_cons, hl, ← hfound]

theorem foldl_setItem_length (l : List (String × Nat)) : ∀ d : KeyIndex,
    (l.foldl (fun d e => setItem d e.1 e.2) d).entries.length ≤
        d.entries.length + l.length ∧
      ((l.foldl (fun d e => setItem d e.1 e.2) d).entries.length =
          d.entries.length + l.length →
        (l.map fst).Nodup ∧ ∀ k ∈ l.map fst, k ∉ d) := by
  induction l with
  | nil => exact fun d => ⟨le_rfl, fun _ => ⟨nodup_nil, nofun⟩⟩
  | cons e l ih =>
    intro d
    obtain ⟨hle, heq⟩ := ih (setItem d e.1 e.2)
    have hlen : (setItem d e.1 e.2).entries.length =
        (d.erase e.1).entries.length + 1 := rfl
    by_cases hmem : e.1 ∈ d
    · obtain ⟨v, hv⟩ := Option.isSome_iff_exists.mp (AList.lookup_isSome.mpr hmem)
      have hd := (entries_perm_of_lookup hv).length_eq
      rw [length_cons] at hd
      rw [foldl_cons, length_cons]
      exact ⟨by omega, fun h => by omega⟩
    · have hd : (setItem d e.1 e.2).entries.length = d.entries.length + 1 := by
        rw [setItem, AList.entries_insert_of_notMem hmem, length_cons]
      rw [foldl_cons, length_cons]
      refine ⟨by omega, fun h => ?_⟩
      obtain ⟨hnd, hnot⟩ := heq (by omega)
      have hnot' : ∀ k ∈ l.map fst, k ≠ e.1 ∧ k ∉ d := fun k hk =>
        not_or.mp (mt (AList.mem_insert d).mpr (hnot k hk))
      rw [map_cons, nodup_cons]
      refine ⟨⟨fun hin => (hnot' e.1 hin).1 rfl, hnd⟩, fun k hk => ?_⟩
      rcases mem_cons.mp hk with rfl | hk
      · exact hmem
      · exact (hnot' k hk).2

theorem foldl_setItem_pages (l : List (String × Nat)) : ∀ d : KeyIndex,
    (l.map fst).Nodup → (∀ k ∈ l.map fst, k ∉ d) →
    (((l.foldl (fun d e => setItem d e.1 e.2) d).entries.map Sigma.snd : List Nat) :
        Multiset Nat) =
      (d.entries.map Sigma.snd : List Nat) + (l.map snd : List Nat) := by
  induction l with
  | nil => exact fun d _ _ => (add_zero _).symm
  | cons e l ih =>
    intro d hnd hnot
    rw [map_cons, nodup_cons] at hnd
    have hmem : e.1 ∉ d := hnot e.1 mem_cons_self
    rw [foldl_cons, ih _ hnd.2, setItem, AList.entries_insert_of_notMem hmem, map_cons,
      map_cons, ← cons_coe, ← cons_coe, cons_add,
      add_cons]
    intro k hk hin
    rcases (AList.mem_insert d).mp hin with rfl | hin
    · exact hnd.1 hk
    · exact hnot k (mem_cons_of_mem _ hk) hin

end Index

/-! ## Pages -/

namespace RankMetadata

def pages (m : RankMetadata) : Multiset Nat :=
  (m.freePages : Multiset Nat) + (m.keyToIndex.entries.map Sigma.snd : List Nat)

theorem card_pages (m : RankMetadata) :
    m.pages.card = m.freePages.length + m.keyToIndex.entries.length := by
  rw [pages, Multiset.card_add, Multiset.coe_card, Multiset.coe_card, length_map]

variable {m m' : RankMetadata} {page : Nat}

theorem takePage_some (h : m.takePage = some (page, m')) :
    m.pages = m'.pages + {page} ∧ m'.numPages = m.numPages := by
  unfold takePage at h
  cases hfree : m.freePages.getLast? with
  | some p =>
    rw [hfree] at h
    obtain ⟨rfl, rfl⟩ := Prod.mk.inj (some.inj h)
    refine ⟨?_, rfl⟩
    have hlast : m.freePages = m.freePages.dropLast ++ [p] :=
      (dropLast_append_getLast? p hfree).symm
    rw [pages, pages]
    conv_lhs => rw [hlast]
    rw [← coe_add, coe_singleton]
    abel
  | none =>
    rw [hfree] at h
    cases hlast : m.keyToIndex.entries.getLast? with
    | none =>
      rw [hlast] at h
      cases h
    | some e =>
      rw [hlast] at h
      obtain ⟨rfl, rfl⟩ := Prod.mk.inj (some.inj h)
      refine ⟨?_, rfl⟩
      have hmem : e ∈ m.keyToIndex.entries := mem_of_getLast? hlast
      have hlook : m.keyToIndex.lookup e.1 = some e.2 :=
        AList.mem_lookup_iff.mpr hmem
      have hperm := (entries_perm_of_lookup hlook).map Sigma.snd
      rw [map_cons] at hperm
      have hsum : ((m.keyToIndex.entries.map Sigma.snd : List Nat) : Multiset Nat) =
          (((m.keyToIndex.erase e.1).entries.map Sigma.snd : List Nat) : Multiset Nat) + {e.2} := by
        rw [coe_eq_coe.mpr hperm, ← cons_coe, ← singleton_add, add_comm]
      rw [pages, pages, hsum, add_assoc]

theorem takePage_none (h : m.takePage = none) : m.freePages = [] ∧ m.keyToIndex.entries = [] := by
  unfold takePage at h
  cases hfree : m.freePages.getLast? with
  | some p =>
    rw [hfree] at h
    cases h
  | none =>
    rw [hfree] at h
    cases hlast : m.keyToIndex.entries.getLast? with
    | none => exact ⟨getLast?_eq_none_iff.mp hfree, getLast?_eq_none_iff.mp hlast⟩
    | some e =>
      rw [hlast] at h
      cases h

/-- What the second loop does: it takes `taken`, and it fails when there is no page left. -/
structure Allocated (m : RankMetadata) (found : List (Option Nat))
    (results : Option (List (Bool × Nat))) (m' : RankMetadata) : Prop where
  numPages_eq : m'.numPages = m.numPages
  ok : ∀ r, results = some r → r.length = found.length ∧
    m.pages = m'.pages + (((r.filter fun e => !e.1).map snd : List Nat) : Multiset Nat) ∧
    (found.filter isNone).length ≤ m.pages.card
  failed : results = none → m'.pages = 0 ∧ m.pages.card < (found.filter isNone).length

theorem allocate_spec (found : List (Option Nat)) : ∀ m : RankMetadata,
    Allocated m found (allocate m found).1 (allocate m found).2 := by
  induction found with
  | nil =>
    intro m
    refine ⟨rfl, fun r hr => ?_, fun h => absurd h (some_ne_none _)⟩
    cases hr
    exact ⟨rfl, (add_zero _).symm, zero_le _⟩
  | cons f found ih =>
    intro m
    cases f with
    | some page =>
      have hrest := ih m
      refine ⟨hrest.numPages_eq, fun r hr => ?_, fun h => ?_⟩
      · obtain ⟨r', hr', rfl⟩ := Option.map_eq_some_iff.mp hr
        obtain ⟨hlen, hsum, hle⟩ := hrest.ok r' hr'
        exact ⟨congrArg (· + 1) hlen, hsum, hle⟩
      · exact hrest.failed (Option.map_eq_none_iff.mp h)
    | none =>
      have hcount : ((none :: found).filter isNone).length =
          (found.filter isNone).length + 1 := rfl
      unfold allocate
      cases htake : m.takePage with
      | none =>
        obtain ⟨hfree, hidx⟩ := takePage_none htake
        have hzero : m.pages = 0 := by
          rw [pages, hfree, hidx]
          rfl
        refine ⟨rfl, fun r hr => absurd hr.symm (some_ne_none r), fun _ => ⟨hzero, ?_⟩⟩
        rw [hzero]
        exact succ_pos _
      | some e =>
        obtain ⟨page, m1⟩ := e
        obtain ⟨hpages, hnum⟩ := takePage_some htake
        have hrest := ih m1
        have hcard : m.pages.card = m1.pages.card + 1 := by
          rw [hpages, Multiset.card_add, Multiset.card_singleton]
        refine ⟨hrest.numPages_eq.trans hnum, fun r hr => ?_, fun h => ?_⟩
        · obtain ⟨r', hr', rfl⟩ := Option.map_eq_some_iff.mp hr
          obtain ⟨hlen, hsum, hle⟩ := hrest.ok r' hr'
          refine ⟨congrArg (· + 1) hlen, ?_, by rw [hcount]; omega⟩
          have hfilter : (((false, page) :: r').filter fun e => !e.1).map snd =
              page :: (r'.filter fun e => !e.1).map snd := rfl
          rw [hpages, hsum, hfilter, ← cons_coe, ← singleton_add]
          abel
        · obtain ⟨hzero, hlt⟩ := hrest.failed (Option.map_eq_none_iff.mp h)
          exact ⟨hzero, by rw [hcount]; omega⟩

theorem reserve_spec (m : RankMetadata) (keys : List String) :
    Allocated m (keys.map (m.keyToIndex.lookup ·)) (m.reserve keys).1 (m.reserve keys).2 := by
  obtain ⟨hfound, hperm⟩ := findKeys_spec keys m.keyToIndex
  have hpages : pages { m with keyToIndex := (findKeys m.keyToIndex keys).2 } =
      m.pages := by
    rw [pages, pages, coe_eq_coe.mpr (hperm.map Sigma.snd)]
  have h := allocate_spec (keys.map (m.keyToIndex.lookup ·))
    { m with keyToIndex := (findKeys m.keyToIndex keys).2 }
  have heq : m.reserve keys = allocate { m with keyToIndex := (findKeys m.keyToIndex keys).2 }
      (keys.map (m.keyToIndex.lookup ·)) := by
    rw [← hfound]
    rfl
  rw [heq]
  refine ⟨h.numPages_eq, fun r hr => ?_, fun hr => ?_⟩
  · rw [← hpages]
    exact h.ok r hr
  · rw [← hpages]
    exact h.failed hr

theorem needed_eq (m : RankMetadata) (keys : List String) :
    ((keys.map (m.keyToIndex.lookup ·)).filter isNone).length = needed m keys := by
  rw [filter_map, length_map]
  congr 2
  funext key
  by_cases hk : key ∈ m.keyToIndex
  · obtain ⟨page, hpage⟩ := Option.isSome_iff_exists.mp (AList.lookup_isSome.mpr hk)
    simp [hk, hpage]
  · simp [hk, AList.lookup_eq_none.mpr hk]

theorem reserve_of_empty (m : RankMetadata) (keys : List String)
    (h : m.freePages.length + m.keyToIndex.entries.length = 0)
    (hfail : (m.reserve keys).1 = none) : (m.reserve keys).2 = m := by
  obtain ⟨n, free, d⟩ := m
  have hfree : free = [] := eq_nil_of_length_eq_zero (by dsimp only at h; omega)
  have hd : d = ∅ := AList.ext (eq_nil_of_length_eq_zero (by dsimp only at h; omega))
  subst hfree hd
  cases keys with
  | nil => cases hfail
  | cons key keys =>
    obtain ⟨hfound, hperm⟩ := findKeys_spec (key :: keys) ∅
    have hempty : (findKeys ∅ (key :: keys)).2 = ∅ := AList.ext hperm.eq_nil
    show (allocate { numPages := n, freePages := [], keyToIndex := (findKeys ∅ (key :: keys)).2 }
      (findKeys ∅ (key :: keys)).1).2 = _
    rw [hempty]
    rfl

theorem releasePages_of_nodup (l : List Nat) : ∀ m : RankMetadata, (m.freePages ++ l).Nodup →
    l.foldl releasePage m = { m with freePages := m.freePages ++ l } := by
  induction l with
  | nil =>
    intro m _
    rw [append_nil]
    rfl
  | cons page l ih =>
    intro m hnd
    have hnot : page ∉ m.freePages := fun hmem =>
      (nodup_append.mp hnd).2.2 page hmem page mem_cons_self rfl
    have hstep : releasePage m page = { m with freePages := m.freePages ++ [page] } := if_neg hnot
    have hnd' : (m.freePages ++ [page] ++ l).Nodup := by
      rwa [append_assoc]
    rw [foldl_cons, hstep, ih _ hnd']
    simp only [append_assoc, cons_append, nil_append]

theorem releasePages_length (l : List Nat) : ∀ m : RankMetadata,
    (l.foldl releasePage m).freePages.length ≤ m.freePages.length + l.length ∧
      (l.foldl releasePage m).keyToIndex = m.keyToIndex ∧
      (l.foldl releasePage m).numPages = m.numPages := by
  induction l with
  | nil => exact fun m => ⟨le_rfl, rfl, rfl⟩
  | cons page l ih =>
    intro m
    obtain ⟨hle, hidx, hnum⟩ := ih (releasePage m page)
    have hone : (releasePage m page).freePages.length ≤ m.freePages.length + 1 ∧
        (releasePage m page).keyToIndex = m.keyToIndex ∧
        (releasePage m page).numPages = m.numPages := by
      unfold releasePage
      split_ifs
      · exact ⟨le_succ _, rfl, rfl⟩
      · exact ⟨length_append.le, rfl, rfl⟩
    rw [foldl_cons, length_cons]
    exact ⟨by omega, hidx.trans hone.2.1, hnum.trans hone.2.2⟩

theorem confirmWrite_eq (m : RankMetadata) (written : List (String × Nat)) (release : List Nat) :
    m.confirmWrite written release = release.foldl releasePage { m with
      keyToIndex := written.foldl (fun d e => setItem d e.1 e.2) m.keyToIndex } := by
  unfold confirmWrite
  induction written generalizing m with
  | nil => rfl
  | cons e l ih => rw [foldl_cons, foldl_cons, ih]

end RankMetadata

/-! ## One call -/

theorem newPages_snd : ∀ (keys : List String) (results : List (Bool × Nat)),
    results.length = keys.length →
    (newPages keys results).map snd = (results.filter fun e => !e.1).map snd := by
  intro keys
  induction keys with
  | nil =>
    intro results hlen
    rw [eq_nil_of_length_eq_zero hlen]
    rfl
  | cons key keys ih =>
    intro results hlen
    cases results with
    | nil => cases hlen
    | cons e results =>
      have hrest := ih results (succ.inj hlen)
      unfold newPages at hrest ⊢
      cases he : e.1 with
      | true => simpa [he] using hrest
      | false => simpa [he] using hrest

theorem written_add_failed : ∀ (items : List (String × Nat)) (written : List Bool),
    written.length = items.length →
    (((writtenKeys items written).map snd : List Nat) : Multiset Nat) +
      (failedPages items written : Multiset Nat) = (items.map snd : List Nat) := by
  intro items
  induction items with
  | nil => exact fun _ _ => rfl
  | cons item items ih =>
    intro written hlen
    cases written with
    | nil => cases hlen
    | cons ok written =>
      have hrest := ih written (succ.inj hlen)
      cases ok with
      | true =>
        have hw : writtenKeys (item :: items) (true :: written) =
          item :: writtenKeys items written := rfl
        have hf : failedPages (item :: items) (true :: written) = failedPages items written := rfl
        rw [hw, hf, map_cons, map_cons, ← cons_coe, ← cons_coe, cons_add,
          hrest]
      | false =>
        have hw : writtenKeys (item :: items) (false :: written) = writtenKeys items written := rfl
        have hf : failedPages (item :: items) (false :: written) =
          item.2 :: failedPages items written := rfl
        rw [hw, hf, map_cons, ← cons_coe, ← cons_coe, add_cons, hrest]

namespace Writers

variable {s : Writers}

theorem owned_iff : s.Owned ↔ s.metadata.pages + ((s.pending.flatten.map snd : List Nat) :
    Multiset Nat) = (range s.metadata.numPages : Multiset Nat) := Iff.rfl

theorem Owned.nodup (h : s.Owned) : (s.metadata.pages +
    ((s.pending.flatten.map snd : List Nat) : Multiset Nat)).Nodup := by
  rw [owned_iff.mp h]
  exact Multiset.coe_nodup.mpr nodup_range

theorem Owned.card (h : s.Owned) : s.metadata.freePages.length +
    s.metadata.keyToIndex.entries.length + s.pending.flatten.length = s.metadata.numPages := by
  have := congrArg Multiset.card (owned_iff.mp h)
  rwa [Multiset.card_add, card_pages, Multiset.coe_card, Multiset.coe_card, length_map,
    length_range] at this

theorem pending_perm {i : Nat} (hi : i < s.pending.length) :
    s.pending.flatten.Perm (s.pending.getD i [] ++ (s.pending.eraseIdx i).flatten) := by
  have hget : s.pending.getD i [] = s.pending[i] := getD_eq_getElem _ _ hi
  rw [hget]
  exact (getElem_cons_eraseIdx_perm hi).symm.flatten

theorem step_reserve_owned (h : s.Owned) (keys : List String)
    (hc : s.Careful (.reserve keys)) :
    (s.step (.reserve keys)).Owned ∧ s.FailsUnchanged (.reserve keys) := by
  have hspec := s.metadata.reserve_spec keys
  have hfails : s.FailsUnchanged (.reserve keys) := by
    intro hnone
    obtain ⟨_, hlt⟩ := hspec.failed hnone
    rw [card_pages, needed_eq] at hlt
    exact s.metadata.reserve_of_empty keys (hc.resolve_left (Nat.not_le_of_lt hlt)) hnone
  refine ⟨?_, hfails⟩
  cases hres : s.metadata.reserve keys with
  | mk results m =>
    rw [hres] at hspec
    cases results with
    | none =>
      have hstep : s.step (.reserve keys) = ⟨m, s.pending⟩ := by simp only [step, hres]
      have hm : m = s.metadata := by
        have := hfails (by rw [hres])
        rwa [hres] at this
      rw [hstep, hm]
      exact h
    | some r =>
      have hstep : s.step (.reserve keys) = ⟨m, s.pending ++ [newPages keys r]⟩ := by
        simp only [step, hres]
      obtain ⟨hlen, hpages, _⟩ := hspec.ok r rfl
      rw [length_map] at hlen
      have hnum : m.numPages = s.metadata.numPages := hspec.numPages_eq
      rw [hstep, owned_iff, hnum, ← owned_iff.mp h, hpages, flatten_append, flatten_singleton,
        map_append, ← coe_add, newPages_snd keys r hlen]
      abel

theorem step_confirm_owned (h : s.Owned) {i : Nat} {written : List Bool}
    (hv : s.Valid (.confirm i written)) (hc : s.Careful (.confirm i written)) :
    (s.step (.confirm i written)).Owned := by
  have hpend := coe_eq_coe.mpr ((pending_perm hv.1).map snd)
  rw [map_append, ← coe_add, ← written_add_failed _ _ hv.2] at hpend
  set items := s.pending.getD i []
  have hidx := foldl_setItem_pages (writtenKeys items written) s.metadata.keyToIndex hc.1 hc.2
  -- the pages that failed are in nobody's hands but the writer's
  have hfree : (s.metadata.freePages ++ failedPages items written).Nodup := by
    rw [← Multiset.coe_nodup, ← coe_add]
    refine Multiset.nodup_of_le ?_ h.nodup
    rw [hpend, pages]
    refine Multiset.le_iff_exists_add.mpr
      ⟨(s.metadata.keyToIndex.entries.map Sigma.snd : List Nat) +
        (((writtenKeys items written).map snd : List Nat) : Multiset Nat) +
        ((s.pending.eraseIdx i).flatten.map snd : List Nat), ?_⟩
    abel
  have hstep : s.step (.confirm i written) = ⟨{ s.metadata with
      keyToIndex := (writtenKeys items written).foldl
        (fun d e => setItem d e.1 e.2) s.metadata.keyToIndex
      freePages := s.metadata.freePages ++ failedPages items written },
      s.pending.eraseIdx i⟩ := by
    show mk (s.metadata.confirmWrite _ _) _ = _
    rw [confirmWrite_eq]
    exact congrArg (mk · _) (releasePages_of_nodup _ _ hfree)
  rw [hstep, owned_iff, ← owned_iff.mp h, hpend, pages, pages]
  rw [hidx, ← coe_add]
  abel

theorem deleteKey_pages (m : RankMetadata) (key : String) (hnd : m.pages.Nodup) :
    (m.deleteKey key).pages = m.pages ∧ (m.deleteKey key).numPages = m.numPages := by
  unfold deleteKey
  cases hl : m.keyToIndex.lookup key with
  | none => exact ⟨rfl, rfl⟩
  | some page =>
    have hperm := coe_eq_coe.mpr ((entries_perm_of_lookup hl).map Sigma.snd)
    rw [map_cons, ← cons_coe] at hperm
    have hnot : page ∉ m.freePages := by
      rw [pages, hperm] at hnd
      exact fun hmem => Multiset.disjoint_left.mp (nodup_add.mp hnd).2.2
        (mem_coe.mpr hmem) (Multiset.mem_cons_self _ _)
    have hrel : releasePage { m with keyToIndex := m.keyToIndex.erase key } page =
        { m with
          keyToIndex := m.keyToIndex.erase key
          freePages := m.freePages ++ [page] } := if_neg hnot
    show (releasePage _ page).pages = _ ∧ (releasePage _ page).numPages = _
    rw [hrel]
    refine ⟨?_, rfl⟩
    rw [pages, pages, hperm, ← coe_add, coe_singleton]
    abel

theorem deleteKeys_pages : ∀ m : RankMetadata, m.pages.Nodup →
    (m.deleteKeys keys).pages = m.pages ∧ (m.deleteKeys keys).numPages = m.numPages := by
  induction keys with
  | nil => exact fun m _ => ⟨rfl, rfl⟩
  | cons key keys ih =>
    intro m hnd
    obtain ⟨hpages, hnum⟩ := deleteKey_pages m key hnd
    obtain ⟨hpages', hnum'⟩ := ih (m.deleteKey key) (hpages.symm ▸ hnd)
    exact ⟨hpages'.trans hpages, hnum'.trans hnum⟩

theorem step_owned (h : s.Owned) {op : MetadataOp} (hv : s.Valid op) (hc : s.Careful op) :
    (s.step op).Owned ∧ s.FailsUnchanged op := by
  cases op with
  | reserve keys => exact step_reserve_owned h keys hc
  | confirm i written => exact ⟨step_confirm_owned h hv hc, trivial⟩
  | delete keys =>
    obtain ⟨hpages, hnum⟩ := deleteKeys_pages keys s.metadata (nodup_add.mp h.nodup).1
    refine ⟨?_, trivial⟩
    show (s.metadata.deleteKeys keys).pages + _ = (range (s.metadata.deleteKeys keys).numPages :
      Multiset Nat)
    rw [hpages, hnum]
    exact owned_iff.mp h
  | clear =>
    have hpend : s.pending = [] := hv
    refine ⟨?_, trivial⟩
    show ((range s.metadata.numPages : List Nat) : Multiset Nat) + _ +
      (s.pending.flatten.map snd : List Nat) = _
    rw [hpend]
    exact (add_zero _).trans (add_zero _)
  | getPageIndices keys =>
    obtain ⟨_, hperm⟩ := findKeys_spec keys s.metadata.keyToIndex
    refine ⟨?_, trivial⟩
    show (s.metadata.freePages : Multiset Nat) +
      ((findKeys s.metadata.keyToIndex keys).2.entries.map Sigma.snd : List Nat) + _ = _
    rw [coe_eq_coe.mpr (hperm.map Sigma.snd)]
    exact h

theorem careful_of_owned (h : s.Owned) {op : MetadataOp} (hv : s.Valid op)
    (h' : (s.step op).Owned) (hfails : s.FailsUnchanged op) : s.Careful op := by
  cases op with
  | reserve keys =>
    have hspec := s.metadata.reserve_spec keys
    cases hres : (s.metadata.reserve keys).1 with
    | some r =>
      left
      have hle := (hspec.ok r hres).2.2
      rwa [needed_eq, card_pages] at hle
    | none =>
      right
      have hzero := (hspec.failed hres).1
      rw [hfails hres] at hzero
      rw [← card_pages, hzero, Multiset.card_zero]
  | confirm i written =>
    set items := s.pending.getD i [] with hitems
    obtain ⟨hle, heq⟩ := foldl_setItem_length (writtenKeys items written) s.metadata.keyToIndex
    set d := (writtenKeys items written).foldl (fun d e => setItem d e.1 e.2)
      s.metadata.keyToIndex with hd
    refine heq (le_antisymm hle ?_)
    have hcard := h.card
    have hcard' := h'.card
    have hstep : s.step (.confirm i written) = ⟨s.metadata.confirmWrite (writtenKeys items written)
      (failedPages items written), s.pending.eraseIdx i⟩ := rfl
    rw [hstep, confirmWrite_eq, ← hd] at hcard'
    obtain ⟨hfree, hidx, hnum⟩ := releasePages_length (failedPages items written)
      { s.metadata with keyToIndex := d }
    dsimp only at hcard' hfree hidx hnum
    rw [hidx] at hcard'
    have hpend := (pending_perm hv.1).length_eq
    rw [length_append] at hpend
    have hsum := congrArg Multiset.card (written_add_failed items written hv.2)
    rw [Multiset.card_add, Multiset.coe_card, Multiset.coe_card, Multiset.coe_card, length_map,
      length_map] at hsum
    rw [← hitems] at hpend
    omega
  | delete keys => trivial
  | clear => trivial
  | getPageIndices keys => trivial

/-! ## Sequences of calls -/

theorem init_owned : (init n).Owned := (add_zero _).trans (add_zero _)

theorem run_snoc (op : MetadataOp) :
    run n (ops ++ [op]) = (run n ops).step op := foldl_concat _ _ _ _

theorem run_owned
    (hv : ∀ pre op, pre ++ [op] <+: ops → (run n pre).Valid op)
    (hc : ∀ pre op, pre ++ [op] <+: ops → (run n pre).Careful op) : (run n ops).Owned := by
  induction ops using reverseRecOn with
  | nil => exact init_owned n
  | append_singleton ops op ih =>
    have hpre : ∀ {l : List MetadataOp}, l <+: ops → l <+: ops ++ [op] := fun h =>
      h.trans (prefix_append _ _)
    have hprev := ih (fun pre o h => hv pre o (hpre h)) fun pre o h => hc pre o (hpre h)
    rw [run_snoc]
    exact (step_owned hprev (hv ops op (prefix_refl _)) (hc ops op (prefix_refl _))).1

end Writers

/-- After every call every page has exactly one owner, and failed reservations change nothing, if
and only if every call is careful. -/
theorem pages_owned_iff
    (hv : ∀ pre op, pre ++ [op] <+: ops → (run n pre).Valid op) :
    ((∀ pre, pre <+: ops → (run n pre).Owned) ∧
      ∀ pre op, pre ++ [op] <+: ops → (run n pre).FailsUnchanged op) ↔
      ∀ pre op, pre ++ [op] <+: ops → (run n pre).Careful op := by
  constructor
  · rintro ⟨howned, hfails⟩ pre op hpre
    have hafter := howned _ hpre
    rw [run_snoc] at hafter
    exact careful_of_owned (howned pre ((prefix_append _ _).trans hpre))
      (hv pre op hpre) hafter (hfails pre op hpre)
  · intro hc
    have howned : ∀ pre, pre <+: ops → (run n pre).Owned := fun pre hpre =>
      run_owned n pre (fun pre' op hop => hv pre' op (hop.trans hpre))
        fun pre' op hop => hc pre' op (hop.trans hpre)
    refine ⟨howned, fun pre op hpre => ?_⟩
    have hbefore := howned pre ((prefix_append _ _).trans hpre)
    exact (step_owned hbefore (hv pre op hpre) (hc pre op hpre)).2

theorem forall_snoc_prefix_cons {α : Type*} {P : List α → α → Prop} {a : α} {l : List α} :
    (∀ pre x, pre ++ [x] <+: a :: l → P pre x) ↔
      P [] a ∧ ∀ pre x, pre ++ [x] <+: l → P (a :: pre) x := by
  constructor
  · exact fun h => ⟨h [] a (prefix_cons_inj a |>.mpr nil_prefix),
      fun pre x hpre => h (a :: pre) x ((prefix_cons_inj a).mpr hpre)⟩
  · rintro ⟨hnil, hcons⟩ pre x hpre
    cases pre with
    | nil =>
      obtain rfl := (cons_prefix_cons.mp hpre).1
      exact hnil
    | cons b pre =>
      obtain ⟨rfl, hrest⟩ := cons_prefix_cons.mp hpre
      exact hcons pre x hrest

theorem forall_snoc_prefix_nil {α : Type*} {P : List α → α → Prop} :
    ∀ pre x, pre ++ [x] <+: ([] : List α) → P pre x := by
  intro pre x hpre
  exact absurd (append_eq_nil_iff.mp (prefix_nil.mp hpre)).2 (cons_ne_nil _ _)

/-- Two keys, of which one is written, and the same keys again. -/
def carefulOps : List MetadataOp :=
  [.reserve ["a", "b"], .confirm 0 [true, false], .reserve ["b", "a"], .confirm 0 [true],
    .delete ["a"]]

theorem pages_owned_careful : (∀ pre, pre <+: carefulOps → (run 2 pre).Owned) ∧
    ∀ pre op, pre ++ [op] <+: carefulOps → (run 2 pre).FailsUnchanged op := by
  refine (pages_owned_iff 2 carefulOps ?_).mpr ?_
  · simp only [carefulOps, forall_snoc_prefix_cons]
    exact ⟨by decide, by decide, by decide, by decide, by decide, forall_snoc_prefix_nil⟩
  · simp only [carefulOps, forall_snoc_prefix_cons]
    exact ⟨by decide, by decide, by decide, by decide, by decide, forall_snoc_prefix_nil⟩

/-! Two writers with the same new key, of which the page of the first is lost; and a batch that
needs two pages where there is one. -/

def sameKeyOps : List MetadataOp :=
  [.reserve ["k"], .reserve ["k"], .confirm 0 [true], .confirm 0 [true]]

theorem confirm_loses_page :
    (∀ pre op, pre ++ [op] <+: sameKeyOps → (run 2 pre).Valid op) ∧
      ¬ (run 2 sameKeyOps).Owned ∧
      ¬ (run 1 []).FailsUnchanged (.reserve ["a", "b"]) := by
  refine ⟨?_, ?_, fun h => ?_⟩
  · simp only [sameKeyOps, forall_snoc_prefix_cons]
    exact ⟨by decide, by decide, by decide, by decide, forall_snoc_prefix_nil⟩
  · unfold Writers.Owned
    decide
  · have hfree := congrArg freePages (h rfl)
    exact absurd hfree (by decide)

end Fluxfer.Hf3fs
