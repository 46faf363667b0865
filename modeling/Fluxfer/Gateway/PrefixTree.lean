import Mathlib.Logic.Function.Basic

/-!
# The prefix tree of the gateway

`policies/tree.rs`: a tree of texts in which every node knows the tenants (worker URLs) that own
its text. The children of a node are a list here instead of a map by first character. Time stamps
are left out: `sampled` says whether a match writes the stamp of its tenant.
-/

namespace Fluxfer.Gateway

abbrev Text := List Char

abbrev TenantId := String

structure Node where
  text : Text
  /-- the keys of `tenant_last_access_time` -/
  tenants : List TenantId
  lastTenant : Option TenantId
deriving DecidableEq, Repr

/-- The children of a node. -/
inductive Forest
  | nil
  | cons (node : Node) (children siblings : Forest)
deriving DecidableEq, Repr

structure Tree where
  root : Node
  children : Forest
  tenantCharCount : TenantId → Option Nat

structure PrefixMatchResult where
  tenant : TenantId
  matchedCharCount : Nat
  inputCharCount : Nat
deriving DecidableEq, Repr

def sharedPrefixCount (a b : Text) : Nat := ((a.zip b).takeWhile fun c => c.1 = c.2).length

namespace Node

def add (tenant : TenantId) (n : Node) : Node :=
  if tenant ∈ n.tenants then n else { n with tenants := n.tenants ++ [tenant] }

/-- The tenant that a match at the node answers with, which it remembers. -/
def choose (pick : Nat) (sampled : Bool) (n : Node) : TenantId × Node :=
  let tenant := match n.lastTenant.filter (· ∈ n.tenants) with
    | some t => t
    | none => n.tenants.getD (pick % n.tenants.length) "empty"
  let n := { n with lastTenant := some tenant }
  (tenant, if sampled then n.add tenant else n)

end Node

namespace Forest

def leaf (tenant : TenantId) (text : Text) : Forest :=
  .cons ⟨text, [tenant], some tenant⟩ .nil .nil

/-- The loop of `insert` below a node, for a text that is not empty; it returns the characters that
the tenant has got. -/
def insert (tenant : TenantId) : Forest → Text → Forest × Nat
  | .nil, rest => (leaf tenant rest, rest.length)
  | .cons n children siblings, rest =>
    if n.text.head? = rest.head? then
      let shared := sharedPrefixCount rest n.text
      let gained := if tenant ∈ n.tenants then 0 else shared
      let rest := rest.drop shared
      if shared < n.text.length then
        let old := { n with text := n.text.drop shared }
        -- what is left of the two texts differs in the first character
        let beside := if rest = [] then .nil else leaf tenant rest
        (.cons ({ n with text := n.text.take shared }.add tenant) (.cons old children beside)
          siblings, gained + rest.length)
      else if rest = [] then (.cons (n.add tenant) children siblings, gained)
      else
        let (children, more) := children.insert tenant rest
        (.cons (n.add tenant) children siblings, gained + more)
    else
      let (siblings, gained) := siblings.insert tenant rest
      (.cons n children siblings, gained)

/-- The loop of `prefix_match_with_counts` below a node; `none` if no child matches. -/
def prefixMatch (pick : Nat) (sampled : Bool) : Forest → Text → Option (TenantId × Nat × Forest)
  | .nil, _ => none
  | .cons n children siblings, rest =>
    if n.text.head? = rest.head? then
      let shared := sharedPrefixCount rest n.text
      let rest := rest.drop shared
      match if shared = n.text.length ∧ rest ≠ [] then children.prefixMatch pick sampled rest
        else none with
      | some (tenant, more, children) => some (tenant, shared + more, .cons n children siblings)
      | none =>
        let (tenant, n) := n.choose pick sampled
        some (tenant, shared, .cons n children siblings)
    else (siblings.prefixMatch pick sampled rest).map fun (tenant, shared, siblings) =>
      (tenant, shared, .cons n children siblings)

/-- The nodes that lose the tenant in `remove_tenant` lose it from the leaves up, and those that are
then empty are removed. -/
def removeTenant (tenant : TenantId) : Forest → Forest
  | .nil => .nil
  | .cons n children siblings =>
    let children := children.removeTenant tenant
    let tenants := n.tenants.filter (· ≠ tenant)
    if tenant ∈ n.tenants ∧ children = .nil ∧ tenants = [] then siblings.removeTenant tenant
    else .cons { n with tenants := tenants } children (siblings.removeTenant tenant)

end Forest

namespace Tree

def new : Tree := ⟨⟨[], [], none⟩, .nil, fun _ => none⟩

def insert (t : Tree) (text : Text) (tenant : TenantId) : Tree :=
  let (children, gained) := if text = [] then (t.children, 0) else t.children.insert tenant text
  { root := t.root.add tenant
    children := children
    tenantCharCount := Function.update t.tenantCharCount tenant
      (some ((t.tenantCharCount tenant).getD 0 + gained)) }

def prefixMatchWithCounts (t : Tree) (text : Text) (pick : Nat) (sampled : Bool) :
    PrefixMatchResult × Tree :=
  match if text = [] then none else t.children.prefixMatch pick sampled text with
  | some (tenant, matched, children) =>
    (⟨tenant, matched, text.length⟩, { t with children := children })
  | none =>
    let (tenant, root) := t.root.choose pick sampled
    (⟨tenant, 0, text.length⟩, { t with root := root })

def removeTenant (t : Tree) (tenant : TenantId) : Tree where
  root := { t.root with tenants := t.root.tenants.filter (· ≠ tenant) }
  children := t.children.removeTenant tenant
  tenantCharCount := Function.update t.tenantCharCount tenant none

end Tree

end Fluxfer.Gateway
