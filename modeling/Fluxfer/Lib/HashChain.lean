/-!
# Chains of page hashes

A list is cut into pages of `ps` elements, and each page is hashed together with the hash of the
page before.
-/

namespace Fluxfer.HashChain

variable {α η : Type} (H : Option η → List α → η) (ps : Nat)

/-- The hashes of at most `fuel` pages. -/
def chain : Nat → Option η → List α → List η
  | 0, _, _ => []
  | fuel + 1, prior, l =>
    match l with
    | [] => []
    | x :: l =>
      let h := H prior ((x :: l).take ps)
      h :: chain fuel (some h) ((x :: l).drop ps)

/-- The hashes of all pages of `l`. -/
def hashes (prior : Option η) (l : List α) : List η := chain H ps l.length prior l

end Fluxfer.HashChain
