import Mathlib.Algebra.BigOperators.Finprod
import Mathlib.Algebra.Ring.Rat
import Shading.Proofs.Flattening
import Shading.Proofs.Meaning

/-!
# Paths in a tree of closures

From a mix or a sum, a path goes on to one of its two closures. Each step has a factor: at a mix it
depends on what the factor of the mix receives, at a sum it is one. The share of a closure in the
result is the sum over all paths that lead to it, of the products of their factors
(`Graph.pathSum`). There are finitely many if no way down leads around, and then the sum satisfies
the recursion along which weights are spread (`Graph.pathSum_combine`). -/

namespace Shading

open Relation

namespace Graph

/-- The node to which a path leads. A step goes to the first or to the second closure. -/
def follow (g : Graph) : NodeId → List Bool → Option NodeId
  | x, [] => some x
  | x, second :: path => (g.branch? x second).bind fun y => g.follow y path

/-- The paths from one node to another. -/
def paths (g : Graph) (root leaf : NodeId) : Set (List Bool) :=
  {path | g.follow root path = some leaf}

/-- The factor of a step. -/
def branchFactor (I : Interpretation ℚ) (v : OutputRef → ℚ) (g : Graph) (x : NodeId)
    (second : Bool) : ℚ :=
  match (g.kind? x).bind (·.layout.inputSlot? "Fac") with
  | some slot => if second then g.receivedAt I v ⟨x, slot⟩ else 1 - g.receivedAt I v ⟨x, slot⟩
  | none => 1

/-- The product of the factors along a path. -/
def pathFactor (I : Interpretation ℚ) (v : OutputRef → ℚ) (g : Graph) : NodeId → List Bool → ℚ
  | _, [] => 1
  | x, second :: path => g.branchFactor I v x second *
      ((g.branch? x second).map fun y => g.pathFactor I v y path).getD 1

/-- The sum over all paths from one node to another, of the products of their factors. -/
noncomputable def pathSum (I : Interpretation ℚ) (v : OutputRef → ℚ) (g : Graph)
    (root leaf : NodeId) : ℚ :=
  ∑ᶠ path ∈ g.paths root leaf, g.pathFactor I v root path

/-- The share of a node in one of the closures of a mix or a sum. -/
noncomputable def branchSum (I : Interpretation ℚ) (v : OutputRef → ℚ) (g : Graph) (x : NodeId)
    (second : Bool) (leaf : NodeId) : ℚ :=
  ((g.branch? x second).map fun y => g.pathSum I v y leaf).getD 0

variable {I : Interpretation ℚ} {v : OutputRef → ℚ} {g : Graph} {x y leaf : NodeId} {k : NodeKind}

theorem branch?_eq_none (hk : g.kind? x = some k) (hrole : k.role ≠ .combineClosure)
    (second : Bool) : g.branch? x second = none := by
  rw [branch?, hk, Option.bind_some, NodeKind.branchSlot?, if_neg hrole, Option.bind_none]

/-- A path ends where there is no mix and no sum. -/
theorem paths_of_leaf (hk : g.kind? x = some k) (hrole : k.role ≠ .combineClosure) :
    g.paths x leaf = if x = leaf then {[]} else ∅ := by
  ext path
  cases path with
  | nil =>
    simp only [paths, follow, Set.mem_ofPred_eq, Option.some.injEq]
    split_ifs with h <;> simp [h]
  | cons second path =>
    simp only [paths, follow, branch?_eq_none hk hrole, Set.mem_ofPred_eq, Option.bind_none]
    split_ifs <;> simp

theorem pathSum_leaf (hk : g.kind? x = some k) (hrole : k.role ≠ .combineClosure) :
    g.pathSum I v x leaf = if x = leaf then 1 else 0 := by
  rw [pathSum, paths_of_leaf hk hrole]
  split_ifs
  · exact finsum_mem_singleton
  · exact finsum_mem_empty

/-- The paths that begin with a given step. -/
def pathsBelow (g : Graph) (x : NodeId) (second : Bool) (leaf : NodeId) : Set (List Bool) :=
  {path | ((g.branch? x second).bind fun y => g.follow y path) = some leaf}

theorem pathsBelow_of_branch {second : Bool} (hy : g.branch? x second = some y) :
    g.pathsBelow x second leaf = g.paths y leaf := by
  rw [pathsBelow, hy]
  rfl

theorem pathsBelow_of_free {second : Bool} (hy : g.branch? x second = none) :
    g.pathsBelow x second leaf = ∅ := by
  rw [pathsBelow, hy]
  simp

theorem paths_combine (hx : x ≠ leaf) :
    g.paths x leaf = List.cons false '' g.pathsBelow x false leaf ∪
      List.cons true '' g.pathsBelow x true leaf := by
  ext path
  cases path with
  | nil => simp [paths, follow, hx]
  | cons second path => cases second <;> simp [paths, pathsBelow, follow]

/-- Every way down ends. -/
theorem Untangled.acc (h : g.Untangled x) (hg : g.WellFormed) (hx : x ∈ g.ids) :
    Acc (fun b a => g.Branches a b) x := by
  have hacc : ∀ l x, x ∈ g.ids → g.Untangled x → g.CoversBelow x l →
      Acc (fun b a => g.Branches a b) x := by
    intro l
    induction hl : l.length using Nat.strongRecOn generalizing l with
    | ind i ih =>
      intro x hx hun hc
      refine ⟨x, fun y hxy => ?_⟩
      have hlt := length_erase_lt (hc x hx .refl)
      exact ih _ (hl ▸ hlt) (l.erase x) rfl y (hg.mem_ids_of_feeds hxy.feeds).1 (hun.branch hxy)
        (hc.erase hun hxy)
  exact hacc g.ids x hx h fun y hy _ => hy

theorem finite_paths (h : Acc (fun b a => g.Branches a b) x) : (g.paths x leaf).Finite := by
  induction h with
  | intro x _ ih =>
    have hbelow : ∀ second, (g.pathsBelow x second leaf).Finite := by
      intro second
      cases hy : g.branch? x second with
      | none =>
        rw [pathsBelow_of_free hy]
        exact Set.finite_empty
      | some y =>
        rw [pathsBelow_of_branch hy]
        exact ih y ⟨second, hy⟩
    have hfin := (((hbelow false).image (List.cons false)).union
      ((hbelow true).image (List.cons true))).insert []
    refine hfin.subset fun path hpath => ?_
    cases path with
    | nil => exact Or.inl rfl
    | cons second path =>
      refine Or.inr ?_
      cases second
      · exact Or.inl ⟨path, hpath, rfl⟩
      · exact Or.inr ⟨path, hpath, rfl⟩

theorem finsum_pathsBelow (second : Bool) :
    ∑ᶠ path ∈ List.cons second '' g.pathsBelow x second leaf, g.pathFactor I v x path =
      g.branchFactor I v x second * g.branchSum I v x second leaf := by
  rw [finsum_mem_image List.cons_injective.injOn]
  cases hy : g.branch? x second with
  | none => simp [pathsBelow_of_free hy, branchSum, hy]
  | some y =>
    rw [pathsBelow_of_branch hy, branchSum, hy, Option.map_some, Option.getD_some, pathSum,
      mul_finsum_mem]
    simp only [pathFactor, hy, Option.map_some, Option.getD_some]

/-- **The recursion of path sums.** The paths from a mix or a sum go through its two closures. -/
theorem pathSum_combine (h : Acc (fun b a => g.Branches a b) x) (hx : x ≠ leaf) :
    g.pathSum I v x leaf = g.branchFactor I v x false * g.branchSum I v x false leaf +
      g.branchFactor I v x true * g.branchSum I v x true leaf := by
  have hfin : (g.paths x leaf).Finite := finite_paths h
  rw [paths_combine hx] at hfin
  obtain ⟨hfalse, htrue⟩ := Set.finite_union.mp hfin
  have hdisj : Disjoint (List.cons false '' g.pathsBelow x false leaf)
      (List.cons true '' g.pathsBelow x true leaf) := by
    rw [Set.disjoint_left]
    rintro _ ⟨path, -, rfl⟩ ⟨path', -, hpath⟩
    cases hpath
  rw [pathSum, paths_combine hx, finsum_mem_union hdisj hfalse htrue, finsum_pathsBelow,
    finsum_pathsBelow]

end Graph

end Shading
