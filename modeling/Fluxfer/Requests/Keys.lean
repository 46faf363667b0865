import Fluxfer.Radix.Ownership
import Fluxfer.Requests.Req

/-!
# Keys of requests

The units of a request's tokens, and the key that `cache_unfinished_req` and
`cache_finished_req` build from them.
-/

namespace Fluxfer.Requests

open Radix Memory Pages ParentTree RadixKey List Nat

variable {p : CacheParams}

/-- The units of a token sequence. -/
def keyUnits (p : CacheParams) (tokens : List Nat) : List KeyUnit :=
  units ⟨tokens, none, p.isEagle⟩

theorem keyUnits_eq (tokens : List Nat) (e : Option String) :
    units ⟨tokens, e, p.isEagle⟩ = keyUnits p tokens := rfl

theorem length_keyUnits (tokens : List Nat) : (keyUnits p tokens).length =
    if p.isEagle then tokens.length - 1 else tokens.length :=
  length_units _

theorem length_keyUnits_le (tokens : List Nat) : (keyUnits p tokens).length ≤ tokens.length := by
  rw [length_keyUnits]
  split_ifs <;> omega

theorem keyUnits_isPrefix {u w : List Nat} (h : u <+: w) : keyUnits p u <+: keyUnits p w := by
  unfold keyUnits units
  cases p.isEagle with
  | false => exact h.map _
  | true =>
    apply List.IsPrefix.map
    cases u with
    | nil => exact nil_prefix
    | cons x u =>
      have hwin := zip_tail_window w 0 u.length
      rw [drop_zero] at hwin
      have htake : w.take (u.length + 1) = x :: u := (prefix_iff_eq_take.mp h).symm
      rw [htake] at hwin
      rw [hwin]
      exact take_prefix _ _

theorem queryUnits_isPrefix (tokens : List Nat) (e : Option String) :
    queryUnits p ⟨tokens, e, false⟩ <+: keyUnits p tokens := by
  have hview : (toBigramView ⟨tokens, e, false⟩ p.isEagle).units = keyUnits p tokens := by
    unfold toBigramView keyUnits
    cases p.isEagle <;> rfl
  rw [queryUnits, alignedKey, units_pageAligned, hview]
  exact take_prefix _ _

theorem prefix_chunkOf {l : List KeyUnit} {tokens : List Nat} {n : Nat} {chunk : Option Nat}
    (hl : l <+: keyUnits p tokens) (hn : l.length ≤ n) (hchunk : ∀ k, chunk = some k → 0 < k) :
    l <+: keyUnits p (chunkOf tokens n chunk) := by
  cases chunk with
  | none => exact hl
  | some k =>
    have hk := hchunk k rfl
    apply prefix_of_prefix_length_le hl (keyUnits_isPrefix ( take_prefix _ _))
    have hlen := hl.length_le
    rw [length_keyUnits] at hlen ⊢
    rw [length_take]
    split_ifs at hlen ⊢ <;> omega

theorem chunkOf_prefix (tokens : List Nat) (n : Nat) (chunk : Option Nat) :
    chunkOf tokens n chunk <+: tokens := by
  cases chunk with
  | none => exact prefix_rfl
  | some k => exact take_prefix _ _

/-! ## The key of the cache functions -/

variable (tokens : List Nat) (e : Option String)

theorem cacheKey_extraKey : (cacheKey p tokens e).extraKey = e :=
  pageAligned_extraKey _ _

theorem cacheKey_isBigram : (cacheKey p tokens e).isBigram = p.isEagle :=
  pageAligned_isBigram _ _

theorem cacheKey_len :
    (cacheKey p tokens e).len = (keyUnits p tokens).length / p.pageSize * p.pageSize := by
  rw [cacheKey, len_pageAligned, ← length_units, keyUnits_eq]

theorem cacheKey_len_le : (cacheKey p tokens e).len ≤ (keyUnits p tokens).length := by
  rw [cacheKey_len]
  exact div_mul_le_self _ _

theorem cacheKey_dvd : p.pageSize ∣ (cacheKey p tokens e).len := by
  rw [cacheKey_len]
  exact Dvd.intro_left _ rfl

theorem alignedKey_cacheKey_len :
    (alignedKey p (cacheKey p tokens e)).len = (cacheKey p tokens e).len := by
  rw [alignedKey, toBigramView_of_eq _ (cacheKey_isBigram tokens e), len_pageAligned]
  exact Nat.div_mul_cancel (cacheKey_dvd tokens e)

theorem queryUnits_cacheKey : queryUnits p (cacheKey p tokens e) =
    (keyUnits p tokens).take (cacheKey p tokens e).len := by
  have hunits : (cacheKey p tokens e).units =
      (keyUnits p tokens).take (cacheKey p tokens e).len := by
    rw [cacheKey_len, cacheKey, units_pageAligned, ← length_units, keyUnits_eq]
  rw [queryUnits, alignedKey, toBigramView_of_eq _ (cacheKey_isBigram tokens e), units_pageAligned,
    Nat.div_mul_cancel (cacheKey_dvd tokens e), hunits,
    take_take, min_self]

theorem length_queryUnits_cacheKey :
    (queryUnits p (cacheKey p tokens e)).length = (cacheKey p tokens e).len := by
  rw [queryUnits, length_units, alignedKey_cacheKey_len]

theorem insertSlots_cacheKey (v : List Nat) :
    insertSlots p (cacheKey p tokens e) (some v) = v.take (cacheKey p tokens e).len := by
  unfold insertSlots
  rw [Option.map_some, bigramValue_of_eq _ (cacheKey_isBigram tokens e), alignedKey_cacheKey_len]

variable {tokens e}

theorem enoughSlots_cacheKey {v : List Nat} (hv : (cacheKey p tokens e).len ≤ v.length) :
    EnoughSlots p (cacheKey p tokens e) (some v) := by
  rintro w ⟨⟩
  rwa [alignedKey_cacheKey_len]

theorem prefix_cacheKey {l : List KeyUnit} (hl : l <+: keyUnits p tokens)
    (hd : p.pageSize ∣ l.length) :
    l.length ≤ (cacheKey p tokens e).len ∧
      (queryUnits p (cacheKey p tokens e)).take l.length = l := by
  have hle : l.length ≤ (cacheKey p tokens e).len := by
    rw [cacheKey_len]
    exact (dvd_le_div_mul_iff p.pageSize_pos hd).mpr hl.length_le
  refine ⟨hle, ?_⟩
  rw [queryUnits_cacheKey, take_take, min_eq_left hle]
  exact (prefix_iff_eq_take.mp hl).symm

end Fluxfer.Requests
