import Fluxfer.Storage.Hf3fsMetadata

/-!
# Pages read and written through HF3FS

`_batch_get` and `_batch_set` of `storage/hf3fs/storage_hf3fs.py`, over the metadata of a rank and
a file that is an array of pages. A read is issued for each key that is there, but the buffers are
taken from the whole batch: the page of the `j`-th key that is there goes into buffer `j`, and
success is reported at the key's own place.
-/

namespace Fluxfer.Hf3fs

open List Nat Function
open Multiset (add_cons coe_add coe_le cons_coe mem_add mem_coe nodup_of_le)
open Option (getD_none isSome_map map_eq_some_iff some)
open Prod (fst mk snd)

variable {α : Type*}

/-- The slices of a call, and whether `check` of the client compares the lengths of a slice: that
of `Hf3fsUsrBioClient` does, that of `Hf3fsMockClient` does not. -/
structure ClientConfig where
  entries : Nat
  entries_pos : 0 < entries
  comparesLengths : Bool

/-- `batch_read` from the `i`-th read of a call on. A read that fails leaves anything in its
buffer. -/
def batchRead (file : Nat → α) (failed : Nat → Option α) :
    Nat → List Nat → List α → List Bool × List α
  | i, page :: pages, _ :: buffers =>
    let (results, buffers) := batchRead file failed (i + 1) pages buffers
    ((failed i).isNone :: results, (failed i).getD (file page) :: buffers)
  | _, _, buffers => ([], buffers)

/-- The slices of a call, at most `n`; `none` when the client refuses one. -/
def readSlices (cfg : ClientConfig) (file : Nat → α) (failed : Nat → Option α) :
    Nat → Nat → List Nat → List α → Option (List Bool × List α)
  | 0, _, _, buffers => some ([], buffers)
  | n + 1, i, pages, buffers =>
    if pages = [] then some ([], buffers)
    else if cfg.comparesLengths = true ∧
        (pages.take cfg.entries).length ≠ (buffers.take cfg.entries).length then none
    else
      let (results, read) :=
        batchRead file failed i (pages.take cfg.entries) (buffers.take cfg.entries)
      (readSlices cfg file failed n (i + cfg.entries) (pages.drop cfg.entries)
        (buffers.drop cfg.entries)).map fun rest => (results ++ rest.1, read ++ rest.2)

/-- `batch_indices` with the pages of `file_offsets`. -/
def presentPages : Nat → List (Option Nat) → List (Nat × Nat)
  | _, [] => []
  | i, none :: found => presentPages (i + 1) found
  | i, some page :: found => (i, page) :: presentPages (i + 1) found

/-- The results of a batch, from the results of some of its places. -/
def markResults (results : List Bool) (marks : List (Nat × Bool)) : List Bool :=
  marks.foldl (fun results mark => results.set mark.1 mark.2) results

/-- A page that `_batch_set` writes, for the key at a place of the batch. -/
structure PageWrite (α : Type*) where
  index : Nat
  key : String
  page : Nat
  value : α

/-- The pages of a batch that are written: those whose key is not there yet. -/
def newWrites : Nat → List String → List (Bool × Nat) → List α → List (PageWrite α)
  | i, key :: keys, (isWritten, page) :: indices, value :: values =>
    let writes := newWrites (i + 1) keys indices values
    if isWritten then writes else ⟨i, key, page, value⟩ :: writes
  | _, _, _, _ => []

/-- `batch_write` from the `i`-th write of a call on. Its slices have as many values as pages. A
write that fails leaves anything in its page. -/
def batchWrite (failed : Nat → Option α) :
    Nat → List (PageWrite α) → (Nat → α) → List Bool × (Nat → α)
  | _, [], file => ([], file)
  | i, w :: writes, file =>
    let (results, file) := batchWrite failed (i + 1) writes
      (update file w.page ((failed i).getD w.value))
    ((failed i).isNone :: results, file)

structure Store (α : Type*) where
  metadata : RankMetadata
  file : Nat → α

namespace Store

def batchGet (s : Store α) (cfg : ClientConfig) (failed : Nat → Option α) (keys : List String)
    (buffers : List α) : Option (List Bool × List α) × Store α :=
  let (found, m) := s.metadata.getPageIndices keys
  let present := presentPages 0 found
  let read := readSlices cfg s.file failed present.length 0 (present.map snd) buffers
  (read.map fun r => (markResults (replicate keys.length false)
    ((present.map fst).zip r.1), r.2), { s with metadata := m })

/-- `_batch_set`; there is no result when the reservation fails. Confirming nothing changes
nothing. -/
def batchSet (s : Store α) (failed : Nat → Option α) (keys : List String) (values : List α) :
    Option (List Bool) × List (PageWrite α × Bool) × Store α :=
  match s.metadata.reserve keys with
  | (none, m) => (none, [], { s with metadata := m })
  | (some indices, m) =>
    let writes := newWrites 0 keys indices values
    let (written, file) := batchWrite failed 0 writes s.file
    let items := writes.map fun w => (w.key, w.page)
    (some (markResults (indices.map fst) ((writes.map PageWrite.index).zip written)),
      writes.zip written,
      ⟨m.confirmWrite (writtenKeys items written) (failedPages items written), file⟩)

def delete (s : Store α) (key : String) : Store α :=
  { s with metadata := s.metadata.deleteKeys [key] }

end Store

inductive StoreOp (α : Type*)
  | set (keys : List String) (values : List α) (failed : Nat → Option α)
  | get (keys : List String)
  | delete (key : String)

/-- The store with the page that was last written for each key. -/
structure StoreSession (α : Type*) where
  store : Store α
  written : String → Option α

namespace StoreSession

def init (numPages : Nat) (file : Nat → α) : StoreSession α :=
  ⟨⟨.init numPages, file⟩, fun _ => none⟩

/-- The pages of a call that were written, in their order. -/
def record (written : String → Option α) (writes : List (PageWrite α × Bool)) : String → Option α :=
  writes.foldl (fun written e =>
    if e.2 then update written e.1.key (some e.1.value) else written) written

/-- A call. A client that refused a slice is closed, and its reads and writes fail from then on. -/
def step (s : StoreSession α) : StoreOp α → StoreSession α
  | .set keys values failed =>
    let (_, writes, store) := s.store.batchSet failed keys values
    ⟨store, record s.written writes⟩
  | .get keys => { s with store.metadata := (s.store.metadata.getPageIndices keys).2 }
  | .delete key => { s with store := s.store.delete key }

def run (numPages : Nat) (file : Nat → α) (ops : List (StoreOp α)) : StoreSession α :=
  ops.foldl step (init numPages file)

/-- What a batch get reports as read is what was written last, for all buffers and failures. -/
def ReadsRight (s : StoreSession α) (cfg : ClientConfig) (keys : List String) : Prop :=
  ∀ (buffers : List α) (failed : Nat → Option α) (results : List Bool) (read : List α),
    buffers.length = keys.length →
    (s.store.batchGet cfg failed keys buffers).1 = some (results, read) →
    ∀ (i : Nat) (key : String), keys[i]? = some key → results[i]? = some true →
      ∃ page, s.written key = some page ∧ read[i]? = some page

end StoreSession

open StoreSession

/-- The keys of a batch that are there come first. -/
def PresentFirst (m : RankMetadata) (keys : List String) : Prop :=
  keys.Pairwise fun a b => b ∈ m.keyToIndex → a ∈ m.keyToIndex

instance (m : RankMetadata) (keys : List String) : Decidable (PresentFirst m keys) :=
  inferInstanceAs (Decidable (keys.Pairwise _))

/-- The number of keys of a batch that are there. -/
def presentCount (m : RankMetadata) (keys : List String) : Nat :=
  (keys.filter fun key => key ∈ m.keyToIndex).length

/-! ## Slices -/

/-- The results of a call, and what is in the buffers that it reads into. -/
def readOks (failed : Nat → Option α) (i : Nat) (pages : List Nat) : List Bool :=
  pages.mapIdx fun j _ => (failed (i + j)).isNone

def readPages (file : Nat → α) (failed : Nat → Option α) (i : Nat) (pages : List Nat) : List α :=
  pages.mapIdx fun j page => (failed (i + j)).getD (file page)

theorem readOks_append (failed : Nat → Option α) (i : Nat) (p q : List Nat) :
    readOks failed i (p ++ q) = readOks failed i p ++ readOks failed (i + p.length) q := by
  simp only [readOks, mapIdx_append, add_assoc, add_comm p.length]

theorem readPages_append (file : Nat → α) (failed : Nat → Option α) (i : Nat) (p q : List Nat) :
    readPages file failed i (p ++ q) =
      readPages file failed i p ++ readPages file failed (i + p.length) q := by
  simp only [readPages, mapIdx_append, add_assoc, add_comm p.length]

section Slices

variable (cfg : ClientConfig) (file : Nat → α) (failed : Nat → Option α)

theorem batchRead_eq : ∀ (pages : List Nat) (i : Nat) (buffers : List α),
    pages.length ≤ buffers.length →
    batchRead file failed i pages buffers = (readOks failed i pages,
      readPages file failed i pages ++ buffers.drop pages.length) := by
  intro pages
  induction pages with
  | nil =>
    intro i buffers _
    cases buffers <;> rfl
  | cons page pages ih =>
    intro i buffers hle
    cases buffers with
    | nil => cases hle
    | cons buffer buffers =>
      have hrest := ih (i + 1) buffers (le_of_succ_le_succ hle)
      unfold batchRead
      rw [hrest]
      simp only [readOks, readPages, mapIdx_cons, add_zero, length_cons, drop_succ_cons,
        cons_append, add_assoc, add_comm 1]

theorem readSlices_eq : ∀ (n i : Nat) (pages : List Nat) (buffers : List α) (r : List Bool × List α),
    pages.length ≤ n → pages.length ≤ buffers.length →
    readSlices cfg file failed n i pages buffers = some r →
    r = (readOks failed i pages, readPages file failed i pages ++ buffers.drop pages.length) := by
  intro n
  induction n with
  | zero =>
    intro i pages buffers r hn _ h
    rw [eq_nil_of_length_eq_zero (le_zero.mp hn)]
    exact (some.inj h).symm
  | succ n ih =>
    intro i pages buffers r hn hle h
    have hpos := cfg.entries_pos
    unfold readSlices at h
    by_cases hnil : pages = []
    · rw [if_pos hnil] at h
      rw [hnil]
      exact (some.inj h).symm
    · have htake : (pages.take cfg.entries).length ≤ (buffers.take cfg.entries).length := by
        rw [length_take, length_take]
        omega
      split_ifs at h
      rw [batchRead_eq file failed _ _ _ htake] at h
      obtain ⟨rest, hrest, rfl⟩ := map_eq_some_iff.mp h
      have := ih _ _ _ _ (by rw [length_drop]; omega)
        (by rw [length_drop, length_drop]; omega) hrest
      rw [this]
      conv_rhs => rw [← take_append_drop cfg.entries pages]
      by_cases hlast : pages.length ≤ cfg.entries
      · -- the last slice: what is left of the buffers stays
        rw [drop_of_length_le hlast, take_of_length_le hlast]
        simp only [readOks, readPages, mapIdx_nil, append_nil, nil_append, length_nil, drop_zero,
          append_assoc]
        rw [← drop_append_of_le_length]
        · rw [take_append_drop]
        · rw [length_take]
          omega
      · have htl : (pages.take cfg.entries).length = cfg.entries := by
          rw [length_take]
          omega
        have hnone : (buffers.take cfg.entries).drop cfg.entries = [] :=
          drop_of_length_le (length_take_le _ _)
        rw [readOks_append, readPages_append, htl, hnone, append_nil, drop_drop, length_append, htl,
          append_assoc]

theorem readSlices_isSome : ∀ (n i : Nat) (pages : List Nat) (buffers : List α),
    pages.length ≤ n → pages.length ≤ buffers.length →
    ((readSlices cfg file failed n i pages buffers).isSome ↔
      cfg.comparesLengths = false ∨ pages.length = buffers.length ∨ cfg.entries ∣ pages.length) := by
  intro n
  induction n with
  | zero =>
    intro i pages buffers hn _
    rw [le_zero.mp hn]
    exact iff_of_true rfl (.inr (.inr (Nat.dvd_zero _)))
  | succ n ih =>
    intro i pages buffers hn hle
    have hpos := cfg.entries_pos
    unfold readSlices
    by_cases hnil : pages = []
    · rw [hnil]
      exact iff_of_true rfl (.inr (.inr (Nat.dvd_zero _)))
    · have hlen : 0 < pages.length := length_pos_iff.mpr hnil
      have hrest := ih (i + cfg.entries) (pages.drop cfg.entries) (buffers.drop cfg.entries)
        (by rw [length_drop]; omega) (by rw [length_drop, length_drop]; omega)
      rw [length_drop, length_drop] at hrest
      rw [if_neg hnil, length_take, length_take]
      by_cases hfull : cfg.entries ≤ pages.length
      · have hsame : min cfg.entries pages.length = min cfg.entries buffers.length := by omega
        have hdvd : cfg.entries ∣ pages.length - cfg.entries ↔ cfg.entries ∣ pages.length :=
          Nat.dvd_sub_self_right.trans
            (or_iff_left_of_imp fun h => (le_antisymm hfull h) ▸ dvd_refl _)
        have heq : pages.length - cfg.entries = buffers.length - cfg.entries ↔
            pages.length = buffers.length := by omega
        rw [if_neg (fun h => h.2 hsame), isSome_map, hrest, hdvd, heq]
      · have hnot : ¬ cfg.entries ∣ pages.length := not_dvd_of_pos_of_lt hlen (by omega)
        by_cases href : cfg.comparesLengths = true ∧
            min cfg.entries pages.length ≠ min cfg.entries buffers.length
        · rw [if_pos href]
          refine iff_of_false Bool.false_ne_true ?_
          rintro (h | h | h)
          · exact absurd (href.1.symm.trans h) Bool.true_eq_false.mp
          · exact href.2 (by rw [h])
          · exact hnot h
        · rw [if_neg href, isSome_map, hrest]
          refine iff_of_true (.inr (.inr ?_)) ?_
          · rw [Nat.sub_eq_zero_of_le (by omega)]
            exact Nat.dvd_zero _
          · by_cases hc : cfg.comparesLengths = true
            · right; left
              have := not_not.mp (not_and.mp href hc)
              omega
            · exact .inl (Bool.not_eq_true _ ▸ hc)

end Slices

/-! ## The keys that are there -/

section Present

variable {found : List (Option Nat)}

theorem presentPages_spec : ∀ (found : List (Option Nat)) (i j b page : Nat),
    (presentPages i found)[j]? = some (b, page) → i + j ≤ b ∧ found[b - i]? = some (some page) := by
  intro found
  induction found with
  | nil =>
    intro i j b page h
    cases h
  | cons f found ih =>
    intro i j b page h
    cases f with
    | none =>
      obtain ⟨hle, hget⟩ := ih (i + 1) j b page h
      have hb : b - i = b - (i + 1) + 1 := by omega
      rw [hb]
      exact ⟨by omega, hget⟩
    | some p =>
      cases j with
      | zero =>
        cases h
        rw [Nat.sub_self]
        exact ⟨le_rfl, rfl⟩
      | succ j =>
        obtain ⟨hle, hget⟩ := ih (i + 1) j b page h
        have hb : b - i = b - (i + 1) + 1 := by omega
        rw [hb]
        exact ⟨by omega, hget⟩

theorem presentPages_length : ∀ (found : List (Option Nat)) (i : Nat),
    (presentPages i found).length = (found.filter Option.isSome).length := by
  intro found
  induction found with
  | nil => exact fun _ => rfl
  | cons f found ih =>
    intro i
    cases f with
    | none => exact ih (i + 1)
    | some p => exact congrArg (· + 1) (ih (i + 1))

theorem presentPages_of_first : ∀ (found : List (Option Nat)) (i j b page : Nat),
    (found.Pairwise fun a b => b.isSome → a.isSome) →
    (presentPages i found)[j]? = some (b, page) → b = i + j := by
  intro found
  induction found with
  | nil =>
    intro i j b page _ h
    cases h
  | cons f found ih =>
    intro i j b page hfirst h
    obtain ⟨hhead, htail⟩ := pairwise_cons.mp hfirst
    cases f with
    | none =>
      obtain ⟨_, hget⟩ := presentPages_spec found (i + 1) j b page h
      exact absurd (hhead _ (mem_of_getElem? hget) rfl) Bool.false_ne_true
    | some p =>
      cases j with
      | zero =>
        cases h
        rfl
      | succ j =>
        have := ih (i + 1) j b page htail h
        omega

theorem presentPages_last_of_gap : ∀ (found : List (Option Nat)) (i : Nat),
    (¬ found.Pairwise fun a b => b.isSome → a.isSome) →
    ∃ b page, (presentPages i found).getLast? = some (b, page) ∧
      i + (presentPages i found).length ≤ b := by
  intro found
  induction found with
  | nil => exact fun i h => absurd List.Pairwise.nil h
  | cons f found ih =>
    intro i hgap
    rw [pairwise_cons, not_and_or] at hgap
    cases f with
    | some p =>
      obtain ⟨b, page, hlast, hle⟩ := ih (i + 1) (hgap.resolve_left fun h => h fun _ _ _ => rfl)
      refine ⟨b, page, ?_, ?_⟩
      · show ((i, p) :: presentPages (i + 1) found).getLast? = _
        rw [getLast?_cons, hlast]
        rfl
      · show i + ((presentPages (i + 1) found).length + 1) ≤ b
        omega
    | none =>
      show ∃ b page, (presentPages (i + 1) found).getLast? = _ ∧
        i + (presentPages (i + 1) found).length ≤ b
      by_cases hrest : found.Pairwise fun a b => b.isSome → a.isSome
      · -- some key after the missing one is there
        cases hlast : (presentPages (i + 1) found).getLast? with
        | none =>
          have hzero := presentPages_length found (i + 1)
          rw [getLast?_eq_none_iff.mp hlast, length_nil, eq_comm, length_eq_zero_iff,
            filter_eq_nil_iff] at hzero
          exact absurd (fun f hf hsome => absurd hsome (hzero f hf))
            (hgap.resolve_right (not_not.mpr hrest))
        | some e =>
          refine ⟨e.1, e.2, rfl, ?_⟩
          have hget := hlast
          rw [getLast?_eq_getElem?] at hget
          have hle := (presentPages_spec found (i + 1) _ e.1 e.2 hget).1
          omega
      · obtain ⟨b, page, hlast, hle⟩ := ih (i + 1) hrest
        exact ⟨b, page, hlast, by omega⟩

end Present

theorem markResults_length (marks : List (Nat × Bool)) : ∀ results : List Bool,
    (markResults results marks).length = results.length := by
  induction marks with
  | nil => exact fun _ => rfl
  | cons mark marks ih => exact fun results => (ih _).trans length_set

theorem markResults_true (marks : List (Nat × Bool)) (i : Nat) : ∀ results : List Bool,
    (markResults results marks)[i]? = some true → results[i]? = some true ∨ (i, true) ∈ marks := by
  induction marks with
  | nil => exact fun results h => .inl h
  | cons mark marks ih =>
    intro results h
    rcases ih (results.set mark.1 mark.2) h with hset | hmem
    · by_cases hi : mark.1 = i
      · rw [getElem?_set] at hset
        split_ifs at hset
        right
        rw [← some.inj hset, ← hi]
        exact mem_cons_self
      · rw [getElem?_set_ne hi] at hset
        exact .inl hset
    · exact .inr (mem_cons_of_mem _ hmem)

/-! ## What is in the file -/

namespace RankMetadata

/-- Pages and keys only get fewer. -/
structure Shrinks (m m' : RankMetadata) : Prop where
  pages_le : m'.pages ≤ m.pages
  lookup : ∀ key page, m'.keyToIndex.lookup key = some page → m.keyToIndex.lookup key = some page

theorem Shrinks.refl (m : RankMetadata) : Shrinks m m := ⟨le_rfl, fun _ _ => id⟩

theorem Shrinks.trans {m1 m2 m3 : RankMetadata} (h : Shrinks m1 m2) (h' : Shrinks m2 m3) :
    Shrinks m1 m3 :=
  ⟨h'.pages_le.trans h.pages_le, fun key page hl => h.lookup key page (h'.lookup key page hl)⟩

variable {m m' : RankMetadata} {page : Nat}

theorem lookup_of_erase {d : KeyIndex} {key k : String} (h : (d.erase key).lookup k = some page) :
    d.lookup k = some page := by
  by_cases hk : k = key
  · rw [hk, AList.lookup_erase] at h
    cases h
  · rwa [AList.lookup_erase_ne hk] at h

theorem findKeys_shrinks (m : RankMetadata) (keys : List String) :
    Shrinks m { m with keyToIndex := (findKeys m.keyToIndex keys).2 } := by
  obtain ⟨_, hperm⟩ := findKeys_spec keys m.keyToIndex
  refine ⟨?_, fun key page h => ?_⟩
  · rw [pages, pages, Multiset.coe_eq_coe.mpr (hperm.map Sigma.snd)]
  · rwa [AList.perm_lookup hperm] at h

theorem takePage_shrinks (h : m.takePage = some (page, m')) : Shrinks m m' := by
  refine ⟨?_, ?_⟩
  · rw [(takePage_some h).1]
    exact Multiset.le_add_right _ _
  · unfold takePage at h
    cases hfree : m.freePages.getLast? with
    | some p =>
      rw [hfree] at h
      cases h
      exact fun _ _ => id
    | none =>
      rw [hfree] at h
      cases hlast : m.keyToIndex.entries.getLast? with
      | none =>
        rw [hlast] at h
        cases h
      | some e =>
        rw [hlast] at h
        cases h
        exact fun _ _ => lookup_of_erase

theorem allocate_shrinks (found : List (Option Nat)) : ∀ m : RankMetadata,
    Shrinks m (allocate m found).2 := by
  induction found with
  | nil => exact Shrinks.refl
  | cons f found ih =>
    intro m
    cases f with
    | some page => exact ih m
    | none =>
      unfold allocate
      cases htake : m.takePage with
      | none => exact Shrinks.refl m
      | some e => exact (takePage_shrinks htake).trans (ih e.2)

theorem reserve_shrinks (m : RankMetadata) (keys : List String) : Shrinks m (m.reserve keys).2 :=
  (findKeys_shrinks m keys).trans (allocate_shrinks _ _)

theorem deleteKey_shrinks (hnd : m.pages.Nodup) (key : String) : Shrinks m (m.deleteKey key) := by
  refine ⟨(Writers.deleteKey_pages m key hnd).1.le, ?_⟩
  unfold deleteKey
  cases hl : m.keyToIndex.lookup key with
  | none => exact fun _ _ => id
  | some p =>
    have hidx : (releasePage { m with keyToIndex := m.keyToIndex.erase key } p).keyToIndex =
        m.keyToIndex.erase key :=
      (releasePages_length [p] { m with keyToIndex := m.keyToIndex.erase key }).2.1
    intro k page h
    rw [hidx] at h
    exact lookup_of_erase h

theorem foldl_setItem_pages_le (l : List (String × Nat)) : ∀ d : KeyIndex,
    (((l.foldl (fun d e => setItem d e.1 e.2) d).entries.map Sigma.snd : List Nat) :
        Multiset Nat) ≤
      (d.entries.map Sigma.snd : List Nat) + (l.map snd : List Nat) := by
  induction l with
  | nil => exact fun d => (add_zero _).ge
  | cons e l ih =>
    intro d
    have hone : (((setItem d e.1 e.2).entries.map Sigma.snd : List Nat) : Multiset Nat) ≤
        e.2 ::ₘ (d.entries.map Sigma.snd : List Nat) :=
      Multiset.cons_le_cons _ (coe_le.mpr ((kerase_sublist _ _).map _).subperm)
    refine (ih _).trans ?_
    rw [map_cons, ← cons_coe, add_cons]
    exact add_le_add_left hone _

theorem releasePages_le (l : List Nat) : ∀ m : RankMetadata,
    ((l.foldl releasePage m).freePages : Multiset Nat) ≤ (m.freePages : Multiset Nat) + l := by
  induction l with
  | nil => exact fun m => (add_zero _).ge
  | cons page l ih =>
    intro m
    have hone : ((releasePage m page).freePages : Multiset Nat) ≤
        page ::ₘ (m.freePages : Multiset Nat) := by
      unfold releasePage
      split_ifs
      · exact Multiset.le_cons_self _ _
      · rw [← coe_add, Multiset.coe_singleton, add_comm, Multiset.singleton_add]
    refine (ih _).trans ?_
    rw [← cons_coe, add_cons]
    exact add_le_add_left hone _

theorem confirmWrite_pages_le (m : RankMetadata) (written : List (String × Nat))
    (release : List Nat) : (m.confirmWrite written release).pages ≤
      m.pages + ((written.map snd : List Nat) + (release : Multiset Nat)) := by
  rw [confirmWrite_eq, pages, (releasePages_length release _).2.1]
  refine (add_le_add (releasePages_le release _) (foldl_setItem_pages_le written _)).trans ?_
  rw [pages]
  refine le_of_eq ?_
  abel

theorem confirmWrite_keyToIndex (m : RankMetadata) (written : List (String × Nat))
    (release : List Nat) : (m.confirmWrite written release).keyToIndex =
      written.foldl (fun d e => setItem d e.1 e.2) m.keyToIndex := by
  rw [confirmWrite_eq, (releasePages_length release _).2.1]

end RankMetadata

open RankMetadata

theorem newWrites_pages : ∀ (keys : List String) (i : Nat) (indices : List (Bool × Nat))
    (values : List α), ((newWrites i keys indices values).map PageWrite.page).Sublist
      ((indices.filter fun e => !e.1).map snd) := by
  intro keys i indices values
  fun_induction newWrites i keys indices values with
  | case1 i key keys page indices value values writes ih =>
    simpa using ih
  | case2 i key keys isWritten page indices value values writes hw ih =>
    have hfalse : isWritten = false := Bool.eq_false_of_not_eq_true hw
    rw [hfalse]
    exact ih.cons_cons page
  | case3 => exact nil_sublist _

section Write

variable (failed : Nat → Option α)

theorem batchWrite_length : ∀ (writes : List (PageWrite α)) (i : Nat) (file : Nat → α),
    (batchWrite failed i writes file).1.length = writes.length := by
  intro writes
  induction writes with
  | nil => exact fun _ _ => rfl
  | cons w writes ih => exact fun i file => congrArg (· + 1) (ih _ _)

theorem batchWrite_other (p : Nat) : ∀ (writes : List (PageWrite α)) (i : Nat) (file : Nat → α),
    p ∉ writes.map PageWrite.page → (batchWrite failed i writes file).2 p = file p := by
  intro writes
  induction writes with
  | nil => exact fun _ _ _ => rfl
  | cons w writes ih =>
    intro i file hp
    rw [map_cons, mem_cons, not_or] at hp
    refine (ih (i + 1) (update file w.page ((failed i).getD w.value)) hp.2).trans ?_
    exact update_of_ne hp.1 _ _

theorem batchWrite_written : ∀ (writes : List (PageWrite α)) (i : Nat) (file : Nat → α),
    (writes.map PageWrite.page).Nodup →
    ∀ e ∈ writes.zip (batchWrite failed i writes file).1, e.2 = true →
      (batchWrite failed i writes file).2 e.1.page = e.1.value := by
  intro writes
  induction writes with
  | nil => exact nofun
  | cons w writes ih =>
    intro i file hnd e he hok
    rw [map_cons, nodup_cons] at hnd
    rcases mem_cons.mp he with rfl | he
    · have hnone : failed i = none := Option.isNone_iff_eq_none.mp hok
      show (batchWrite failed (i + 1) writes
        (update file w.page ((failed i).getD w.value))).2 w.page = _
      rw [batchWrite_other failed _ _ _ _ hnd.1, hnone, getD_none, update_self]
    · exact ih (i + 1) (update file w.page ((failed i).getD w.value)) hnd.2 e he hok

end Write

namespace StoreSession

/-- The pages of the index hold what was written last. -/
structure Inv (s : StoreSession α) : Prop where
  nodup : s.store.metadata.pages.Nodup
  stored : ∀ key page, s.store.metadata.keyToIndex.lookup key = some page →
    s.written key = some (s.store.file page)

variable {s : StoreSession α}

theorem Inv.shrink (h : s.Inv) {m : RankMetadata} (hm : s.store.metadata.Shrinks m) :
    Inv { s with store.metadata := m } :=
  ⟨nodup_of_le hm.pages_le h.nodup,
    fun key page hl => h.stored key page (hm.lookup key page hl)⟩

theorem record_stored {file : Nat → α} : ∀ (l : List (PageWrite α × Bool)) (d : KeyIndex)
    (written : String → Option α),
    (∀ key page, d.lookup key = some page → written key = some (file page)) →
    (∀ e ∈ l, e.2 = true → file e.1.page = e.1.value) →
    ∀ key page, (((l.filter snd).map fun e => (e.1.key, e.1.page)).foldl
        (fun d e => setItem d e.1 e.2) d).lookup key = some page →
      record written l key = some (file page) := by
  intro l
  induction l with
  | nil => exact fun d written h _ => h
  | cons e l ih =>
    intro d written h hl key page hlook
    have hrest : ∀ e ∈ l, e.2 = true → file e.1.page = e.1.value := fun e he =>
      hl e (mem_cons_of_mem _ he)
    cases hok : e.2 with
    | false =>
      rw [filter_cons_of_neg (by rw [hok]; exact Bool.false_ne_true)] at hlook
      show record (if e.2 = true then _ else written) l key = _
      rw [if_neg (by rw [hok]; exact Bool.false_ne_true)]
      exact ih d written h hrest key page hlook
    | true =>
      rw [filter_cons_of_pos hok, map_cons, foldl_cons] at hlook
      show record (if e.2 = true then _ else written) l key = _
      rw [if_pos hok]
      refine ih _ _ (fun k p hk => ?_) hrest key page hlook
      by_cases hkey : k = e.1.key
      · rw [hkey, setItem, AList.lookup_insert] at hk
        rw [hkey, update_self, ← some.inj hk, hl e mem_cons_self hok]
      · rw [setItem, AList.lookup_insert_ne hkey] at hk
        rw [update_of_ne hkey]
        exact h k p hk

theorem writtenKeys_eq (writes : List (PageWrite α)) (written : List Bool) :
    writtenKeys (writes.map fun w => (w.key, w.page)) written =
      ((writes.zip written).filter snd).map fun e => (e.1.key, e.1.page) := by
  rw [writtenKeys, zip_map_left, filter_map, map_map]
  rfl

theorem set_inv (h : s.Inv) (keys : List String) (values : List α) (failed : Nat → Option α) :
    (s.step (.set keys values failed)).Inv := by
  have hspec := s.store.metadata.reserve_spec keys
  have hshrink := s.store.metadata.reserve_shrinks keys
  cases hres : s.store.metadata.reserve keys with
  | mk results m =>
    rw [hres] at hspec hshrink
    cases results with
    | none =>
      have hstep : s.step (.set keys values failed) = { s with store.metadata := m } := by
        simp only [step, Store.batchSet, hres]
        rfl
      rw [hstep]
      exact h.shrink hshrink
    | some indices =>
      set writes := newWrites 0 keys indices values
      set out := batchWrite failed 0 writes s.store.file
      set items := writes.map fun w => (w.key, w.page) with hitems
      have hstep : s.step (.set keys values failed) = ⟨⟨m.confirmWrite (writtenKeys items out.1)
          (failedPages items out.1), out.2⟩, record s.written (writes.zip out.1)⟩ := by
        simp only [step, Store.batchSet, hres]
        rfl
      have hpages := (hspec.ok indices rfl).2.1
      have hnd := h.nodup
      rw [hpages] at hnd
      obtain ⟨_, hndTaken, hdisj⟩ := Multiset.nodup_add.mp hnd
      have hsub := newWrites_pages keys 0 indices values
      have hndWrites : (writes.map PageWrite.page).Nodup := hsub.nodup hndTaken
      rw [hstep]
      refine ⟨?_, fun key page hl => ?_⟩
      · refine nodup_of_le ((m.confirmWrite_pages_le _ _).trans ?_) hnd
        rw [written_add_failed items out.1 (by
          rw [length_map]
          exact batchWrite_length failed writes 0 _)]
        refine add_le_add_right (coe_le.mpr ?_) _
        rw [map_map]
        exact hsub.subperm
      · rw [confirmWrite_keyToIndex, writtenKeys_eq] at hl
        refine record_stored _ _ _ (fun k p hk => ?_)
          (batchWrite_written failed writes 0 s.store.file hndWrites) key page hl
        -- the pages of the other keys are not written to
        have hmem : p ∈ m.pages := by
          refine mem_add.mpr (.inr (mem_coe.mpr ?_))
          exact mem_map_of_mem (AList.mem_lookup_iff.mp hk)
        have hother : p ∉ writes.map PageWrite.page := fun hp =>
          Multiset.disjoint_left.mp hdisj hmem (mem_coe.mpr (hsub.subset hp))
        rw [batchWrite_other failed p writes 0 s.store.file hother]
        exact h.stored k p (hshrink.lookup k p hk)

theorem step_inv (h : s.Inv) (op : StoreOp α) : (s.step op).Inv := by
  cases op with
  | set keys values failed => exact set_inv h keys values failed
  | get keys => exact h.shrink (s.store.metadata.findKeys_shrinks keys)
  | delete key => exact h.shrink (deleteKey_shrinks h.nodup key)

theorem init_inv (numPages : Nat) (file : Nat → α) : (init numPages file).Inv := by
  refine ⟨?_, fun key page hl => absurd hl (Option.some_ne_none page).symm⟩
  rw [show (init numPages file).store.metadata.pages = (range numPages : Multiset Nat) from
    add_zero _]
  exact Multiset.coe_nodup.mpr nodup_range

theorem run_inv (numPages : Nat) (file : Nat → α) (ops : List (StoreOp α)) :
    (run numPages file ops).Inv := by
  induction ops using reverseRecOn with
  | nil => exact init_inv numPages file
  | append_singleton ops op ih =>
    rw [run, foldl_concat]
    exact step_inv ih op

end StoreSession

/-! ## Batches of keys -/

section Batch

variable (m : RankMetadata) (keys : List String)

theorem presentFirst_iff : PresentFirst m keys ↔
    (keys.map (m.keyToIndex.lookup ·)).Pairwise fun a b => b.isSome → a.isSome := by
  simp only [PresentFirst, pairwise_map, AList.lookup_isSome]

theorem presentPages_card (i : Nat) :
    (presentPages i (keys.map (m.keyToIndex.lookup ·))).length = presentCount m keys := by
  rw [presentPages_length, filter_map, length_map]
  congr 2
  funext key
  exact Bool.eq_iff_iff.mpr (AList.lookup_isSome.trans (decide_eq_true_iff).symm)

theorem presentCount_le : presentCount m keys ≤ keys.length := length_filter_le _ _

theorem presentFirst_of_count (h : presentCount m keys = keys.length) : PresentFirst m keys := by
  have hall := length_filter_eq_length_iff.mp h
  refine pairwise_of_forall_mem_list fun a ha b _ _ => ?_
  exact of_decide_eq_true (hall a ha)

end Batch

section Get

variable {s : Store α} {cfg : ClientConfig} {failed : Nat → Option α} {keys : List String}
  {buffers : List α}

theorem batchGet_fst : (s.batchGet cfg failed keys buffers).1 =
    (readSlices cfg s.file failed
      (presentPages 0 (keys.map (s.metadata.keyToIndex.lookup ·))).length 0
      ((presentPages 0 (keys.map (s.metadata.keyToIndex.lookup ·))).map snd) buffers).map
      fun r => (markResults (replicate keys.length false)
        (((presentPages 0 (keys.map (s.metadata.keyToIndex.lookup ·))).map fst).zip r.1),
        r.2) := by
  rw [← (findKeys_spec keys s.metadata.keyToIndex).1]
  rfl

/-- A batch get that returns has read page `j` of those that are there into buffer `j`. -/
theorem batchGet_eq {results : List Bool} {read : List α} (hlen : buffers.length = keys.length)
    (h : (s.batchGet cfg failed keys buffers).1 = some (results, read)) :
    let present := presentPages 0 (keys.map (s.metadata.keyToIndex.lookup ·))
    results = markResults (replicate keys.length false)
        ((present.map fst).zip (readOks failed 0 (present.map snd))) ∧
      read = readPages s.file failed 0 (present.map snd) ++ buffers.drop present.length := by
  intro present
  have hcard : present.length = presentCount s.metadata keys := presentPages_card _ _ _
  have hle := presentCount_le s.metadata keys
  rw [batchGet_fst] at h
  obtain ⟨r, hr, heq⟩ := map_eq_some_iff.mp h
  have hread := readSlices_eq cfg s.file failed _ _ _ _ _ (length_map _).le
    (by rw [length_map]; show present.length ≤ _; omega) hr
  rw [hread, length_map] at heq
  obtain ⟨rfl, rfl⟩ := mk.inj heq
  exact ⟨rfl, rfl⟩

theorem batchGet_isSome (hlen : buffers.length = keys.length) :
    (s.batchGet cfg failed keys buffers).1.isSome ↔ cfg.comparesLengths = false ∨
      presentCount s.metadata keys = keys.length ∨ cfg.entries ∣ presentCount s.metadata keys := by
  have hcard := presentPages_card s.metadata keys 0
  have hle := presentCount_le s.metadata keys
  rw [batchGet_fst, isSome_map, readSlices_isSome, length_map, hcard, hlen]
  · exact (length_map _).le
  · rw [length_map]
    omega

end Get

namespace StoreSession

variable {s : StoreSession α}

theorem batchGet_right (h : s.Inv) (cfg : ClientConfig) {keys : List String}
    (hfirst : PresentFirst s.store.metadata keys) : s.ReadsRight cfg keys := by
  intro buffers failed results read hlen hget i key hkey hok
  obtain ⟨rfl, rfl⟩ := batchGet_eq hlen hget
  set present := presentPages 0 (keys.map (s.store.metadata.keyToIndex.lookup ·))
  have hmark := (markResults_true _ i _ hok).resolve_left (by
    rw [getElem?_replicate]
    split_ifs <;> simp)
  obtain ⟨j, hj⟩ := getElem?_of_mem hmark
  obtain ⟨hidx, hres⟩ := getElem?_zip_eq_some.mp hj
  rw [getElem?_map, map_eq_some_iff] at hidx
  obtain ⟨⟨b, page⟩, hentry, rfl⟩ := hidx
  obtain rfl : b = 0 + j := presentPages_of_first _ _ _ _ _ ((presentFirst_iff _ _).mp hfirst) hentry
  have hfound := (presentPages_spec _ _ _ _ _ hentry).2
  rw [zero_add] at hkey hfound ⊢
  rw [Nat.sub_zero, getElem?_map, hkey] at hfound
  have hpage : (present.map snd)[j]? = some page := by
    rw [getElem?_map, hentry]
    rfl
  refine ⟨s.store.file page, h.stored key page (some.inj hfound), ?_⟩
  have hread : (readPages s.store.file failed 0 (present.map snd))[j]? =
      some ((failed (0 + j)).getD (s.store.file page)) := by
    rw [readPages, getElem?_mapIdx, hpage]
    rfl
  have hnone : failed (0 + j) = none := by
    rw [readOks, getElem?_mapIdx, hpage] at hres
    exact Option.isNone_iff_eq_none.mp (some.inj hres)
  rw [hnone, getD_none] at hread
  rw [List.getElem?_append_left (List.getElem?_eq_some_iff.mp hread).1, hread]

theorem batchGet_gap (s : StoreSession α) (cfg : ClientConfig) {keys : List String}
    (hgap : ¬ PresentFirst s.store.metadata keys)
    (hreturns : cfg.comparesLengths = false ∨
      cfg.entries ∣ presentCount s.store.metadata keys) :
    ∃ (i : Nat) (key : String), keys[i]? = some key ∧ ∀ x : α, ∃ results read,
      (s.store.batchGet cfg (fun _ => none) keys (replicate keys.length x)).1 =
        some (results, read) ∧ results[i]? = some true ∧ read[i]? = some x := by
  set present := presentPages 0 (keys.map (s.store.metadata.keyToIndex.lookup ·)) with hpresent
  obtain ⟨i, page, hlast, hle⟩ := presentPages_last_of_gap _ 0
    (mt (presentFirst_iff _ _).mpr hgap)
  rw [zero_add] at hle
  have hentry := hlast
  rw [getLast?_eq_getElem?] at hentry
  have hfound := (presentPages_spec _ _ _ _ _ hentry).2
  rw [getElem?_map, map_eq_some_iff] at hfound
  obtain ⟨key, hkey, _⟩ := hfound
  have hi : i < keys.length := (List.getElem?_eq_some_iff.mp hkey).1
  refine ⟨i, key, hkey, fun x => ?_⟩
  have hlen : (replicate keys.length x).length = keys.length := length_replicate
  have hsome : (s.store.batchGet cfg (fun _ => none) keys
      (replicate keys.length x)).1.isSome :=
    (batchGet_isSome hlen).mpr (hreturns.imp_right .inr)
  obtain ⟨⟨results, read⟩, hget⟩ := Option.isSome_iff_exists.mp hsome
  refine ⟨results, read, hget, ?_, ?_⟩
  · obtain ⟨rfl, _⟩ := batchGet_eq hlen hget
    have hsplit : present = present.dropLast ++ [(i, page)] :=
      (dropLast_append_getLast? _ hlast).symm
    have hoks : (present.map fst).zip
          (readOks (fun _ => (none : Option α)) 0 (present.map snd)) =
        (present.dropLast.map fst).zip
          (readOks (fun _ => (none : Option α)) 0 (present.dropLast.map snd)) ++
          [(i, true)] := by
      conv_lhs => rw [hsplit]
      rw [map_append, map_append, readOks_append, zip_append (by
        rw [readOks, length_mapIdx, length_map, length_map])]
      rfl
    rw [hoks, markResults, foldl_append, foldl_cons, foldl_nil, getElem?_set_self]
    rw [← markResults, markResults_length, length_replicate]
    exact hi
  · obtain ⟨_, rfl⟩ := batchGet_eq hlen hget
    have hl : (readPages s.store.file (fun _ => none) 0 (present.map snd)).length =
        present.length := by
      rw [readPages, length_mapIdx, length_map]
    rw [getElem?_append_right (hl.le.trans hle), hl, getElem?_drop, Nat.add_sub_cancel' hle,
      getElem?_replicate, if_pos hi]

end StoreSession

def oneKeyOps : List (StoreOp Nat) := [.set ["a"] [7] fun _ => none]

def unitSlices : ClientConfig := ⟨1, Nat.one_pos, true⟩

end Fluxfer.Hf3fs
