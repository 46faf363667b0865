import Fluxfer.Gateway.PrefixTree
import Fluxfer.Gateway.Registry
import Mathlib.Data.List.MinMax

/-!
# Routing by cached prefixes and by request length

`select_worker` of `policies/cache_aware.rs` and `policies/bucket.rs`. Both policies start from the
available workers, but then look up a worker by a URL that they have learned from earlier requests:
`cache_aware` only asks whether that worker is healthy, and `bucket` asks nothing. Comparisons of
floating-point numbers are parameters, and random choices are arguments.
-/

namespace Fluxfer.Gateway

open Function List Option Prod

/-- A worker as the policies see it at one request. -/
structure Candidate extends Worker where
  isHealthy : Bool
  /-- the circuit breaker admits requests -/
  canExecute : Bool
  load : Nat
deriving DecidableEq, Repr

instance : Inhabited Candidate := ⟨⟨⟨0, "", "", .regular, .http⟩, false, false, 0⟩⟩

namespace Candidate

def isAvailable (w : Candidate) : Bool := w.isHealthy && w.canExecute

def poolTag (w : Candidate) : String :=
  match w.workerType with
  | .regular => "regular"
  | .prefill _ => "prefill"
  | .decode => "decode"

def modelKey (w : Candidate) : String := if w.modelId = "" then "unknown" else w.modelId

def treeKey (w : Candidate) : String := w.poolTag ++ "::" ++ w.modelKey

end Candidate

variable {ws : List Candidate} {i : Nat}

def getHealthyWorkerIndices (ws : List Candidate) : List Nat :=
  (ws.zipIdx.filter fun e => e.1.isAvailable).map snd

def position (ws : List Candidate) (url : String) : Option Nat := ws.findIdx? fun w => w.url = url

/-- The first of the workers with the least load. -/
def leastLoaded (ws : List Candidate) (indices : List Nat) : Option Nat :=
  indices.argmin fun i => (ws.getD i default).load

/-! ## The cache-aware policy -/

structure CacheAwareConfig where
  balanceAbsThreshold : Nat
  /-- `max_load > min_load * balance_rel_threshold` -/
  exceeds : Nat → Nat → Bool
  /-- `matched / input > cache_threshold` -/
  isHit : Nat → Nat → Bool

abbrev CacheAwarePolicy := String → Option Tree

namespace CacheAwarePolicy

variable (cfg : CacheAwareConfig) (s : CacheAwarePolicy) (ws : List Candidate)
  (requestText : Option Text) (random pick : Nat) (sampled : Bool)

/-- A worker is added, or one of the initial ones. -/
def addWorker (w : Candidate) : CacheAwarePolicy :=
  update s w.treeKey (some (((s w.treeKey).getD Tree.new).insert [] w.url))

def removeWorker (w : Candidate) : CacheAwarePolicy :=
  update s w.treeKey ((s w.treeKey).map (·.removeTenant w.url))

def isImbalanced : Bool :=
  let minLoad := ((ws.map Candidate.load).min?).getD 0
  let maxLoad := ((ws.map Candidate.load).max?).getD 0
  decide (cfg.balanceAbsThreshold < maxLoad - minLoad) && cfg.exceeds maxLoad minLoad

def selectWorkerMinLoad (healthy : List Nat) (key : String) : Option Nat × CacheAwarePolicy :=
  match leastLoaded ws healthy with
  | none => (none, s)
  | some i =>
    match requestText with
    | none => (some i, s)
    | some text =>
      (some i, update s key ((s key).map (·.insert text (ws.getD i default).url)))

def selectWorker : Option Nat × CacheAwarePolicy :=
  let healthy := getHealthyWorkerIndices ws
  match healthy.head? with
  | none => (none, s)
  | some pivot =>
    let key := (ws.getD pivot default).treeKey
    if isImbalanced cfg ws then s.selectWorkerMinLoad ws requestText healthy key
    else
      let text := requestText.getD []
      match s key with
      | none => (healthy[random % healthy.length]?, s)
      | some tree =>
        let (result, tree) := tree.prefixMatchWithCounts text pick sampled
        let hit := cfg.isHit result.matchedCharCount result.inputCharCount
        let selected :=
          if hit then (position ws result.tenant).filter fun i => (ws.getD i default).isHealthy
          else leastLoaded ws healthy
        match selected with
        | some i =>
          (some i, update s key (some (tree.insert text (ws.getD i default).url)))
        | none =>
          let tree := if hit then tree.removeTenant result.tenant else tree
          (some pivot, update s key (some tree))

end CacheAwarePolicy

/-! ## The bucket policy -/

structure BucketConfig where
  balanceAbsThreshold : Nat
  /-- `max_load > balance_rel_threshold * min_load` -/
  exceeds : Nat → Nat → Bool

structure Boundary where
  url : String
  range : Nat × Nat

structure Bucket where
  lMax : Nat
  prefillWorkerUrls : List String
  boundary : List Boundary
  charsPerUrl : List (String × Nat)
  /-- lengths and URLs of the requests in the time window -/
  requestList : List (Nat × String)

def usizeMax : Nat := 18446744073709551615

namespace Bucket

def new : Bucket := ⟨4096, [], [], [], []⟩

def initPrefillWorkerUrls (b : Bucket) (urls : List String) : Bucket :=
  let gap := b.lMax / urls.length
  { b with
    lMax := if urls = [] then b.lMax else usizeMax
    prefillWorkerUrls := urls
    charsPerUrl := urls.map fun url => (url, 0)
    boundary := urls.zipIdx.map fun (url, i) =>
      ⟨url, i * gap, if i = urls.length - 1 then usizeMax else (i + 1) * gap - 1⟩ }

def searchBoundary (b : Bucket) (charCount : Nat) : Nat → Nat → Nat → Option String
  | 0, _, _ => none
  | fuel + 1, left, right =>
    if left < right then
      let mid := left + (right - left) / 2
      match b.boundary[mid]? with
      | none => none
      | some e =>
        if charCount < e.range.1 then b.searchBoundary charCount fuel left mid
        else if e.range.2 < charCount then b.searchBoundary charCount fuel (mid + 1) right
        else some e.url
    else none

def findBoundary (b : Bucket) (charCount : Nat) : Option String :=
  b.searchBoundary charCount b.boundary.length 0 b.boundary.length

/-- The URL that the bucket knows for the request: the one with the fewest characters when the load
is imbalanced, else the one of the interval. -/
def knownUrl (cfg : BucketConfig) (b : Bucket) (charCount : Nat) : Option String :=
  let maxLoad := ((b.charsPerUrl.map snd).max?).getD 0
  let minLoad := ((b.charsPerUrl.map snd).min?).getD 0
  if cfg.balanceAbsThreshold < maxLoad - minLoad ∧ cfg.exceeds maxLoad minLoad then
    (b.charsPerUrl.argmin snd).map fst
  else (b.findBoundary charCount).filter (· ≠ "")

def addChars (chars : List (String × Nat)) (url : String) (n : Nat) : List (String × Nat) :=
  if url ∈ chars.map fst then
    chars.map fun e => if e.1 = url then (e.1, e.2 + n) else e
  else chars ++ [(url, n)]

/-- The URLs that the bucket has learned. -/
def KnowsOnly (b : Bucket) (U : List String) : Prop :=
  (∀ e ∈ b.boundary, e.url ∈ U) ∧ ∀ e ∈ b.charsPerUrl, e.1 ∈ U

/-- `post_process_request`, when the first `expired` requests have left the time window. -/
def postProcessRequest (b : Bucket) (charCount : Nat) (url : String) (expired : Nat) : Bucket :=
  { b with
    charsPerUrl := (b.requestList.take expired).foldl (fun chars old =>
      chars.map fun e => if e.1 = old.2 then (e.1, e.2 - old.1) else e)
        (addChars b.charsPerUrl url charCount)
    requestList := b.requestList.drop expired ++ [(charCount, url)] }

end Bucket

abbrev BucketPolicy := String → Option Bucket

namespace BucketPolicy

variable (cfg : BucketConfig) (s : BucketPolicy) (ws : List Candidate)
  (requestText : Option Text) (random expired : Nat)

def addPrefillUrl (w : Candidate) : BucketPolicy :=
  let b := (s w.modelKey).getD Bucket.new
  let urls := b.prefillWorkerUrls
  update s w.modelKey
    (some (b.initPrefillWorkerUrls (if w.url ∈ urls then urls else urls ++ [w.url])))

def removePrefillUrl (w : Candidate) : BucketPolicy :=
  update s w.modelKey ((s w.modelKey).map fun b =>
    let urls := b.prefillWorkerUrls.filter (· ≠ w.url)
    if urls = [] then
      { b with
        prefillWorkerUrls := urls
        charsPerUrl := b.charsPerUrl.filter fun e => e.1 ≠ w.url }
    else b.initPrefillWorkerUrls urls)

/-- The URL that the request goes to: the one the bucket knows, or that of a random available
worker. -/
def prefillUrl (pivot : Nat) (healthy : List Nat) : String :=
  let randomUrl := (ws.getD (healthy.getD (random % healthy.length) 0) default).url
  match s (ws.getD pivot default).modelKey with
  | none => randomUrl
  | some b => (b.knownUrl cfg (requestText.getD []).length).getD randomUrl

def selectWorker : Option Nat × BucketPolicy :=
  let healthy := getHealthyWorkerIndices ws
  match healthy.head? with
  | none => (none, s)
  | some pivot =>
    let key := (ws.getD pivot default).modelKey
    let url := s.prefillUrl cfg ws requestText random pivot healthy
    (position ws url, update s key ((s key).map fun b =>
      b.postProcessRequest (requestText.getD []).length url expired))

end BucketPolicy

/-! ## When an available worker is selected -/

/-- The index of an available worker was returned. -/
def Selects (ws : List Candidate) (r : Option Nat) : Prop :=
  ∃ i ∈ r, ∃ w, ws[i]? = some w ∧ w.isAvailable = true

theorem mem_getHealthyWorkerIndices :
    i ∈ getHealthyWorkerIndices ws ↔ ∃ w, ws[i]? = some w ∧ w.isAvailable = true := by
  simp [getHealthyWorkerIndices, mem_zipIdx_iff_getElem?]

theorem selects_of_mem {r : Option Nat} (hi : i ∈ getHealthyWorkerIndices ws) (hr : r = some i) :
    Selects ws r :=
  ⟨i, hr, mem_getHealthyWorkerIndices.mp hi⟩

theorem position_some {url : String} (h : position ws url = some i) :
    ∃ w ∈ ws, ws[i]? = some w ∧ w.url = url := by
  obtain ⟨hlt, hurl, -⟩ := findIdx?_eq_some_iff_getElem.mp h
  exact ⟨ws[i], getElem_mem hlt, getElem?_eq_getElem hlt, of_decide_eq_true hurl⟩

/-- Where URLs are distinct, a worker is found by its own. -/
theorem position_url (hurls : (ws.map (·.url)).Nodup) {w : Candidate} (hw : w ∈ ws) :
    ∃ i, position ws w.url = some i ∧ ws[i]? = some w := by
  cases h : position ws w.url with
  | none => exact absurd (findIdx?_eq_none_iff.mp h w hw) (by simp)
  | some i =>
    obtain ⟨v, hv, hi, hurl⟩ := position_some h
    exact ⟨i, rfl, inj_on_of_nodup_map hurls hv hw hurl ▸ hi⟩

theorem selects_position (hurls : (ws.map (·.url)).Nodup) {w : Candidate} (hw : w ∈ ws)
    (hav : w.isAvailable = true) : Selects ws (position ws w.url) := by
  obtain ⟨i, hpos, hi⟩ := position_url hurls hw
  exact ⟨i, hpos, w, hi, hav⟩

theorem leastLoaded_mem (ws : List Candidate) {l : List Nat} (hl : l ≠ []) :
    ∃ i ∈ l, leastLoaded ws l = some i := by
  cases h : leastLoaded ws l with
  | none => exact absurd (argmin_eq_none.mp h) hl
  | some i => exact ⟨i, argmin_mem h, rfl⟩

theorem exists_pivot (hav : ∃ w ∈ ws, w.isAvailable = true) :
    ∃ pivot ∈ getHealthyWorkerIndices ws, (getHealthyWorkerIndices ws).head? = some pivot := by
  obtain ⟨w, hw, h⟩ := hav
  obtain ⟨i, hi⟩ := getElem?_of_mem hw
  have hmem := mem_getHealthyWorkerIndices.mpr ⟨w, hi, h⟩
  exact ⟨_, head_mem (ne_nil_of_mem hmem), head?_eq_some_head _⟩

theorem CacheAwarePolicy.selects (cfg : CacheAwareConfig) (s : CacheAwarePolicy)
    (requestText : Option Text) (random pick : Nat) (sampled : Bool)
    (hav : ∃ w ∈ ws, w.isAvailable = true)
    (hopen : ∀ w ∈ ws, w.isHealthy = true → w.canExecute = true) :
    Selects ws (s.selectWorker cfg ws requestText random pick sampled).1 := by
  obtain ⟨pivot, hpivot, hhead⟩ := exists_pivot hav
  obtain ⟨least, hleast, hfirst⟩ := leastLoaded_mem ws (ne_nil_of_mem hpivot)
  simp only [selectWorker, hhead]
  cases isImbalanced cfg ws with
  | true =>
    simp only [if_true, selectWorkerMinLoad, hfirst]
    cases requestText <;> exact selects_of_mem hleast rfl
  | false =>
    simp only [Bool.false_eq_true, if_false]
    cases s (ws.getD pivot default).treeKey with
    | none =>
      have hlt : random % (getHealthyWorkerIndices ws).length <
          (getHealthyWorkerIndices ws).length := Nat.mod_lt _ (length_pos_of_mem hpivot)
      exact selects_of_mem (getElem_mem hlt) (getElem?_eq_getElem hlt)
    | some tree =>
      dsimp only
      set result := (tree.prefixMatchWithCounts (requestText.getD []) pick sampled).1
      cases cfg.isHit result.matchedCharCount result.inputCharCount with
      | false =>
        simp only [Bool.false_eq_true, if_false, hfirst]
        exact selects_of_mem hleast rfl
      | true =>
        rw [if_pos rfl]
        split
        · rename_i i hsel
          obtain ⟨hpos, hhealthy⟩ := filter_eq_some_iff.mp hsel
          obtain ⟨w, hw, hi, -⟩ := position_some hpos
          rw [getD_eq_getElem?_getD, hi] at hhealthy
          refine ⟨i, rfl, w, hi, ?_⟩
          rw [Candidate.isAvailable, hopen w hw hhealthy, Bool.and_true]
          exact hhealthy
        · exact selects_of_mem hpivot rfl

/-- A tree can name any worker, and whether its breaker is open is not asked. -/
theorem CacheAwarePolicy.hit_selects (hurls : (ws.map (·.url)).Nodup)
    (hav : ∃ w ∈ ws, w.isAvailable = true) {w : Candidate} (hw : w ∈ ws)
    (hhealthy : w.isHealthy = true) :
    ∃ i, ws[i]? = some w ∧ (CacheAwarePolicy.selectWorker ⟨0, fun _ _ => false, fun _ _ => true⟩
      (fun _ => some (Tree.new.insert [] w.url)) ws none 0 0 false).1 = some i := by
  obtain ⟨pivot, -, hhead⟩ := exists_pivot hav
  obtain ⟨i, hpos, hi⟩ := position_url hurls hw
  refine ⟨i, hi, ?_⟩
  simp [selectWorker, hhead, isImbalanced, Tree.prefixMatchWithCounts, Tree.insert, Tree.new,
    Node.add, Node.choose, hpos, hi, hhealthy, Option.filter]

theorem Bucket.searchBoundary_mem {b : Bucket} {charCount : Nat} {url : String} :
    ∀ {fuel left right}, b.searchBoundary charCount fuel left right = some url →
      ∃ e ∈ b.boundary, e.url = url
  | 0, _, _, h => by cases h
  | fuel + 1, left, right, h => by
    rw [searchBoundary] at h
    dsimp only at h
    split_ifs at h
    split at h
    · cases h
    · rename_i e he
      split_ifs at h
      · exact searchBoundary_mem h
      · exact searchBoundary_mem h
      · exact ⟨e, mem_of_getElem? he, some.inj h⟩

theorem Bucket.knownUrl_mem {cfg : BucketConfig} {b : Bucket} {charCount : Nat} {url : String}
    {U : List String} (hb : b.KnowsOnly U) (h : b.knownUrl cfg charCount = some url) : url ∈ U := by
  simp only [knownUrl] at h
  split_ifs at h
  · obtain ⟨e, he, rfl⟩ := map_eq_some_iff.mp h
    exact hb.2 e (argmin_mem he)
  · obtain ⟨e, he, rfl⟩ := searchBoundary_mem (filter_eq_some_iff.mp h).1
    exact hb.1 e he

theorem BucketPolicy.selects (cfg : BucketConfig) (s : BucketPolicy) (requestText : Option Text)
    (random expired : Nat) (hurls : (ws.map (·.url)).Nodup) {U : List String}
    (hs : ∀ key, ∀ b ∈ s key, b.KnowsOnly U) (hav : ∃ w ∈ ws, w.isAvailable = true)
    (hU : ∀ url ∈ U, ∃ w ∈ ws, w.url = url ∧ w.isAvailable = true) :
    Selects ws (s.selectWorker cfg ws requestText random expired).1 := by
  obtain ⟨pivot, hpivot, hhead⟩ := exists_pivot hav
  have hurl : ∃ w ∈ ws, w.url = s.prefillUrl cfg ws requestText random pivot
      (getHealthyWorkerIndices ws) ∧ w.isAvailable = true := by
    have hlt : random % (getHealthyWorkerIndices ws).length <
        (getHealthyWorkerIndices ws).length := Nat.mod_lt _ (length_pos_of_mem hpivot)
    obtain ⟨w, hw, hwav⟩ := mem_getHealthyWorkerIndices.mp (getElem_mem hlt)
    have hrandom : ∃ v ∈ ws, v.url = (ws.getD ((getHealthyWorkerIndices ws).getD
        (random % (getHealthyWorkerIndices ws).length) 0) default).url ∧ v.isAvailable = true := by
      refine ⟨w, mem_of_getElem? hw, ?_, hwav⟩
      simp [getElem?_eq_getElem hlt, hw]
    simp only [prefillUrl]
    cases hb : s (ws.getD pivot default).modelKey with
    | none => exact hrandom
    | some b =>
      cases hk : b.knownUrl cfg (requestText.getD []).length with
      | none => simpa only [hk, getD_none] using hrandom
      | some url => simpa only [hk, getD_some] using hU url (Bucket.knownUrl_mem (hs _ b hb) hk)
  obtain ⟨w, hw, hurl, hwav⟩ := hurl
  simp only [selectWorker, hhead, ← hurl]
  exact selects_position hurls hw hwav

/-- A bucket can send a request to any URL that it knows. -/
theorem BucketPolicy.known_selects {url : String} (hav : ∃ w ∈ ws, w.isAvailable = true)
    (hne : url ≠ "") : (BucketPolicy.selectWorker ⟨0, fun _ _ => false⟩
      (fun _ => some { Bucket.new with boundary := [⟨url, 0, usizeMax⟩] }) ws none 0 0).1 =
        position ws url := by
  obtain ⟨pivot, -, hhead⟩ := exists_pivot hav
  simp [selectWorker, hhead, prefillUrl, Bucket.knownUrl, Bucket.findBoundary,
    Bucket.searchBoundary, Option.filter, hne]

/-- The default thresholds, for small numbers. -/
def defaultCacheAware : CacheAwareConfig :=
  ⟨32, fun maxLoad minLoad => 11 * minLoad < 10 * maxLoad, fun matched input => input < 2 * matched⟩

def defaultBucket : BucketConfig :=
  ⟨32, fun maxLoad minLoad => 10001 * minLoad < 10000 * maxLoad⟩

def exampleWorker (id : Nat) (url : String) (admits : Bool) : Candidate :=
  ⟨⟨id, url, "m", .regular, .http⟩, true, admits, 0⟩

/-- Two healthy workers; the breaker of the first is open when `admits` is `false`. -/
def twoWorkers (admits : Bool) : List Candidate :=
  [exampleWorker 0 "a" admits, exampleWorker 1 "b" true]

/-- A third worker came and went, and a request was sent to the first. -/
def affinePolicy : CacheAwarePolicy :=
  (CacheAwarePolicy.selectWorker defaultCacheAware
    (((twoWorkers true ++ [exampleWorker 2 "c" true]).foldl CacheAwarePolicy.addWorker
      fun _ => none).removeWorker (exampleWorker 2 "c" true)) (twoWorkers true)
    (some ['x', 'y']) 0 0 false).2

def bucketPolicy : BucketPolicy :=
  ((twoWorkers true ++ [exampleWorker 2 "c" true]).foldl BucketPolicy.addPrefillUrl
    fun _ => none).removePrefillUrl (exampleWorker 2 "c" true)

end Fluxfer.Gateway
