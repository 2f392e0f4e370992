import Downline.Store.Tree

/-!
Discovery of the chains that may be re-keyed: below a full person, holders of the placeholder down
to someone who bounds the chain or to a holder with no child. The child slots need not form a tree,
and the search ends all the same.
-/

namespace Downline.Tree

/-- What discovery makes of one person below a full one. -/
inductive Visit where
  /-- The person neither ends a chain nor continues one. -/
  | pass
  /-- The person ends a chain. -/
  | ends
  /-- The chain goes on with these children. -/
  | goesOn (children : List PersonId)

/-- A placeholder holder continues the chain, or absorbs it if it has no child. Anyone else bounds
the chain, unless it stands right below the start. -/
def visit (t : Tree) (placeholder : String) (maxDepth : UInt32) (id : PersonId) (depth : UInt32) :
    Visit :=
  if maxDepth < depth then .pass
  else if t.passwordOf id = some placeholder then
    match t.childrenOf id with
    | [] => .ends
    | children => .goesOn children
  else if 1 < depth then .ends
  else .pass

theorem length_le_of_visit {t : Tree} {placeholder : String} {maxDepth depth : UInt32}
    {id : PersonId} {children : List PersonId}
    (h : t.visit placeholder maxDepth id depth = .goesOn children) : children.length ≤ 2 := by
  have hc := t.length_childrenOf_le id
  unfold visit at h
  split at h
  · cases h
  · split at h
    · split at h
      · cases h
      · cases h
        exact hc
    · split at h <;> cases h

/-- How much of the search may still hang from a visit at this depth. -/
private def reach (depth : UInt32) : Nat :=
  Nat.pow 3 (4294967296 - depth.toNat)

private theorem reach_pos (depth : UInt32) : 0 < reach depth :=
  Nat.pow_pos (by decide)

/-- A depth below the last one that a word can hold is counted up without overflow. -/
theorem toNat_succ {depth : UInt32} (h : depth ≠ 4294967295) :
    (depth + 1).toNat = depth.toNat + 1 := by
  have hlt := depth.toNat_lt
  have hne : depth.toNat ≠ 4294967295 := fun he => h (UInt32.toNat_inj.mp he)
  rw [UInt32.toNat_add]
  exact Nat.mod_eq_of_lt (show depth.toNat + 1 < 4294967296 by omega)

private theorem reach_succ {depth : UInt32} (h : depth ≠ 4294967295) :
    3 * reach (depth + 1) = reach depth := by
  have hlt := depth.toNat_lt
  have hne : depth.toNat ≠ 4294967295 := fun he => h (UInt32.toNat_inj.mp he)
  have hs := toNat_succ h
  have he : 4294967296 - depth.toNat = (4294967296 - (depth + 1).toNat) + 1 := by omega
  unfold reach
  rw [he]
  exact Nat.mul_comm ..

private def stackReach (stack : List (PersonId × UInt32)) : Nat :=
  stack.foldr (fun v n => reach v.2 + n) 0

private theorem stackReach_goesOn {children : List PersonId} {depth : UInt32}
    {rest : List (PersonId × UInt32)} (hl : children.length ≤ 2) (hd : depth ≠ 4294967295) :
    stackReach (children.map (·, depth + 1) ++ rest) < reach depth + stackReach rest := by
  have hs := reach_succ hd
  have hp := reach_pos (depth + 1)
  match children, hl with
  | [], _ => simp [stackReach]; omega
  | [_], _ => simp [stackReach]; omega
  | [_, _], _ => simp [stackReach]; omega

/-- Searches below a full person for the ends of its chains. The stack holds the people still to
visit, each with its depth; the depth counter is a 32-bit word, and a chain that would run it over
breaks the search off. -/
def chainEnds (t : Tree) (placeholder : String) (maxDepth : UInt32) :
    (stack : List (PersonId × UInt32)) → (found : List PersonId) → Except Panic (List PersonId)
  | [], found => .ok found
  | (id, depth) :: rest, found =>
    match _h : t.visit placeholder maxDepth id depth with
    | .pass => chainEnds t placeholder maxDepth rest found
    | .ends => chainEnds t placeholder maxDepth rest (id :: found)
    | .goesOn children =>
      if _hd : depth = 4294967295 then .error .depthOverflow
      else chainEnds t placeholder maxDepth (children.map (·, depth + 1) ++ rest) found
termination_by stack => stackReach stack
decreasing_by
  · have := reach_pos depth
    simp only [stackReach, List.foldr_cons]
    omega
  · have := reach_pos depth
    simp only [stackReach, List.foldr_cons]
    omega
  · exact stackReach_goesOn (length_le_of_visit _h) _hd

/-- The chains below one full person. -/
def candidatesBelow (t : Tree) (placeholder : String) (maxDepth : UInt32) (start : PersonId) :
    Except Panic (List ChainCandidate) :=
  (t.chainEnds placeholder maxDepth ((t.childrenOf start).map (·, 1)) []).map fun found =>
    found.map fun last => { start, last }

/-- All chains of placeholder holders below full people, in ascending order. -/
def rekeyCandidates (t : Tree) (placeholder : String) (maxDepth : UInt32) :
    Except Panic (List ChainCandidate) := do
  let starts := (t.people.keys.filter fun id => t.stateOf placeholder id == .full)
  let found ← starts.mapM (t.candidatesBelow placeholder maxDepth)
  return found.flatten.mergeSort fun a b => (compare a b).isLE

end Downline.Tree
