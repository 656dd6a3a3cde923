/-!
# Exploration

Everything that can be reached from some starting points, in the order of a depth-first search. The
search only enters what is in a given finite list, and each of its members at most once, which
bounds it: all that is still to be looked at is on the stack, or follows a member of the list. -/

namespace Shading

variable {α : Type} [DecidableEq α]

/-- Taking a member out makes a list shorter, which is why searches that do so come to an end. -/
theorem length_erase_lt {a : α} {l : List α} (h : a ∈ l) : (l.erase a).length < l.length := by
  rw [List.length_erase_of_mem h]
  exact Nat.sub_one_lt (Nat.ne_of_gt (List.length_pos_of_mem h))

/-- Visiting a member takes it off the list, and puts on the stack what it leads to. -/
theorem length_visit (next : α → List α) {a : α} {l : List α} (h : a ∈ l) :
    ((l.erase a).flatMap next).length + (next a).length + (l.erase a).length + 1 =
      (l.flatMap next).length + l.length := by
  have hperm := List.perm_cons_erase h
  have hnext := (hperm.flatMap_right next).length_eq
  have hlength := hperm.length_eq
  simp only [List.flatMap_cons, List.length_append, List.length_cons] at hnext hlength
  omega

/-- The members of `unseen` that are on the stack or can be reached from there. -/
def explore (next : α → List α) (unseen stack : List α) : List α :=
  match stack with
  | [] => []
  | a :: rest =>
    if a ∈ unseen then a :: explore next (unseen.erase a) (next a ++ rest)
    else explore next unseen rest
termination_by (unseen.flatMap next).length + unseen.length + stack.length
decreasing_by
  · rename_i h
    have := length_visit next h
    simp only [List.length_append, List.length_cons]
    omega
  · simp

end Shading
