import Shading.Proofs.LinkOrder

/-!
# Addresses of described nodes

A reference is cut at its first dot. So a node is addressed by its name exactly if the name has no
dot. If it has one, a reference that starts with it goes to the node whose name comes before the
first dot, and is refused if there is none. -/

namespace Shading

namespace Description

variable {nodes : List DescribedNode} {g : Graph} {names : Names} {name before after : String}

theorem splitAtFirst_dotted (hdot : '.' ∉ before.toList) (after : String) :
    splitAtFirst '.' (before ++ "." ++ after) = some (before, after) :=
  splitAtFirst_eq_some.mpr ⟨eq_dotted_iff.mp rfl, hdot⟩

/-- A name with a dot has a first one. -/
theorem exists_dotted (hdot : '.' ∈ name.toList) :
    ∃ before after, name = before ++ "." ++ after ∧ '.' ∉ before.toList := by
  obtain ⟨before, after, hname, hbefore⟩ := List.eq_append_cons_of_mem hdot
  refine ⟨String.ofList before, String.ofList after, eq_dotted_iff.mpr ?_, ?_⟩
  · rw [hname, String.toList_ofList, String.toList_ofList]
  · rwa [String.toList_ofList]

theorem Drafted.lookup_eq_none (h : Drafted nodes g names) :
    names.lookup name = none ↔ ¬ ∃ id k, Named nodes name id k := by
  rw [← not_iff_not, not_not, ← ne_eq, Option.ne_none_iff_exists']
  exact exists_congr fun id => h.lookup name id

/-- What comes before the first dot names the node, and all the rest the socket. -/
theorem Drafted.resolve_dotted (h : Drafted nodes g names) (hdot : '.' ∉ before.toList)
    {id : NodeId} {k : NodeKind} (hn : Named nodes before id k) (after : String) :
    resolve names (before ++ "." ++ after) = .ok (id, after) := by
  rw [resolve, splitAtFirst_dotted hdot]
  simp only [(h.lookup before id).mpr ⟨k, hn⟩]

theorem Drafted.resolve_unknown (h : Drafted nodes g names) (hdot : '.' ∉ before.toList)
    (hn : ¬ ∃ id k, Named nodes before id k) (after : String) :
    resolve names (before ++ "." ++ after) = .error (.unknownNode before) := by
  rw [resolve, splitAtFirst_dotted hdot]
  simp only [h.lookup_eq_none.mpr hn]

/-- A reference never goes to a socket by a name that has a dot. -/
theorem Drafted.resolve_ne_of_dot (h : Drafted nodes g names) (hdot : '.' ∈ name.toList)
    (id : NodeId) (socket : String) : resolve names (name ++ "." ++ socket) ≠ .ok (id, socket) := by
  intro hok
  obtain ⟨k, name', htext, hdot', -⟩ := h.resolve_eq_ok.mp hok
  rw [eq_dotted_iff, eq_dotted_iff.mp rfl, List.append_left_inj] at htext
  rw [htext] at hdot
  exact hdot' hdot

/-- **A described node is addressed by its name exactly if the name has no dot.** A name that has one
is cut there: a reference that starts with it goes to the node that has the part before the first dot
as its name, and the part after the dot is taken for a part of the name of the socket. -/
theorem resolve_name_iff {d : Description} {g : Graph} (hd : d.build = .ok g) :
    ∃ g₀ names, addNodes d.nodes = .ok (g₀, names) ∧
      ∀ name id k, Named d.nodes name id k → g.kind? id = some k ∧
        (∀ socket, resolve names (name ++ "." ++ socket) = .ok (id, socket) ↔ '.' ∉ name.toList) ∧
        ('.' ∈ name.toList → ∃ before after, name = before ++ "." ++ after ∧ '.' ∉ before.toList ∧
          ∀ socket, (∀ id' k', Named d.nodes before id' k' →
              resolve names (name ++ "." ++ socket) = .ok (id', after ++ "." ++ socket)) ∧
            ((¬ ∃ id' k', Named d.nodes before id' k') →
              resolve names (name ++ "." ++ socket) = .error (.unknownNode before))) := by
  obtain ⟨⟨g₀, names⟩, hadd, -⟩ := exists_of_bind_eq_ok hd
  obtain ⟨-, h⟩ := (admits_addNodes d.nodes).of_ok hadd
  refine ⟨g₀, names, hadd, fun name id k hn => ⟨?_, fun socket => ⟨?_, ?_⟩, fun hdot => ?_⟩⟩
  · obtain ⟨-, g₁, names₁, es, h₁, hes, rfl⟩ := d.admits_build.of_ok hd
    exact (h₁.grows_joined hes).kind?_some (h₁.kind name id k hn)
  · exact fun hok hdot => h.resolve_ne_of_dot hdot id socket hok
  · exact fun hdot => h.resolve_dotted hdot hn socket
  · obtain ⟨before, after, rfl, hbefore⟩ := exists_dotted hdot
    refine ⟨before, after, rfl, hbefore, fun socket => ?_⟩
    have htext : before ++ "." ++ after ++ "." ++ socket = before ++ "." ++ (after ++ "." ++ socket) := by
      simp only [String.append_assoc]
    rw [htext]
    exact ⟨fun id' k' hn' => h.resolve_dotted hbefore hn' _, fun hn' => h.resolve_unknown hbefore hn' _⟩

/-- A light is lit by one of two nodes, of which the first is a script with a dot in the name of its
output. -/
def litThrough (script value : String) : Description where
  nodes := [⟨script, .osl ⟨"noise", "", [], [⟨"b.Value", .float⟩]⟩, []⟩, ⟨value, .value, []⟩,
    ⟨"light", .emission false, []⟩]
  links := [⟨value ++ "." ++ "Value", "light.Strength"⟩]
  output := []
  scene := .empty

/-- The name of a socket may have dots. -/
theorem resolve_name_iff_litThrough : ∃ g g₀ names, (litThrough "a" "b").build = .ok g ∧
    addNodes (litThrough "a" "b").nodes = .ok (g₀, names) ∧
      Named (litThrough "a" "b").nodes "a" 1 (.osl ⟨"noise", "", [], [⟨"b.Value", .float⟩]⟩) ∧
      resolve names ("a" ++ "." ++ "b.Value") = .ok (1, "b.Value") ∧
      resolve names ("b" ++ "." ++ "Value") = .ok (2, "Value") := by
  have hbuild : ((litThrough "a" "b").build >>= fun g => .ok g.finalized) = .ok false := by
    decide +kernel
  obtain ⟨g, hg, -⟩ := exists_of_bind_eq_ok hbuild
  obtain ⟨g₀, names, hadd, hnames⟩ := resolve_name_iff hg
  have ha : Named (litThrough "a" "b").nodes "a" 1 (.osl ⟨"noise", "", [], [⟨"b.Value", .float⟩]⟩) :=
    .node (i := 0) (n := ⟨"a", _, []⟩) rfl
  have hb : Named (litThrough "a" "b").nodes "b" 2 .value := .node (i := 1) (n := ⟨"b", _, []⟩) rfl
  exact ⟨g, g₀, names, hg, hadd, ha, ((hnames _ _ _ ha).2.1 _).mpr (by decide),
    ((hnames _ _ _ hb).2.1 _).mpr (by decide)⟩

/-- The light is to be lit by the node `a.b`, and is lit by the script `a`. -/
theorem litThrough_shadowed : ∃ g g₀ names, (litThrough "a" "a.b").build = .ok g ∧
    addNodes (litThrough "a" "a.b").nodes = .ok (g₀, names) ∧
      Named (litThrough "a" "a.b").nodes "a.b" 2 .value ∧
      resolve names ("a.b" ++ "." ++ "Value") = .ok (1, "b.Value") ∧
      g.linkAt ⟨3, 1⟩ = some ⟨1, 0⟩ := by
  have hbuild : ((litThrough "a" "a.b").build >>= fun g => .ok (g.linkAt ⟨3, 1⟩)) =
      .ok (some ⟨1, 0⟩) := by decide +kernel
  have hresolve : (addNodes (litThrough "a" "a.b").nodes >>= fun s =>
      resolve s.2 ("a.b" ++ "." ++ "Value")) = .ok (1, "b.Value") := by decide +kernel
  obtain ⟨g, hg, hlink⟩ := exists_of_bind_eq_ok hbuild
  obtain ⟨⟨g₀, names⟩, hadd, hr⟩ := exists_of_bind_eq_ok hresolve
  exact ⟨g, g₀, names, hg, hadd, .node (i := 1) (n := ⟨"a.b", _, []⟩) rfl, hr, Except.ok.inj hlink⟩

end Description

end Shading
