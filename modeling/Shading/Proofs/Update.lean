import Mathlib.Logic.Relation
import Shading.Compile
import Shading.Proofs.Primitive

/-!
# What edits are made of

An edit is a sequence of a few elementary updates (`Graph.Update`), and so is what an edit has done
when it ends with a fault (`Edit.Updates`). A property that every update keeps is kept by every edit
(`Edit.Updates.meets`). The updates are told apart by the kinds of nodes that they add and by what
they note on nodes: the passes that lower a graph add no proxies, and the primitives note nothing. -/

namespace Shading

open Relation

/-- The kinds that a pass may add. -/
def NodeKind.NoProxy (k : NodeKind) : Prop := k.role ≠ .proxy

namespace Graph

/-- One elementary update. Nodes of the kinds in `K` may be added, and notes may be taken by the
changes in `F`. -/
inductive Update (K : NodeKind → Prop) (F : (Node → Node) → Prop) (g : Graph) : Graph → Prop
  | add {k : NodeKind} (hk : K k) : Update K F g (g.push (.ofKind k))
  /-- A node of the graph is added once more. -/
  | copy {id : NodeId} {n m : Node} (hn : g.node? id = some n) (hm : m = n ∨ m = n.copy) :
    Update K F g (g.push m)
  | link (s : OutputRef) (t : InputRef) : Update K F g (g.link s t)
  | unlink (s : OutputRef) (t : InputRef) : Update K F g (g.unlink s t)
  | unlinkOutput (s : OutputRef) (ts : List InputRef) : Update K F g (g.unlinkOutput s ts)
  | store (t : InputRef) (l : Literal) : Update K F g (g.modifyInput t (Input.store l))
  | note (id : NodeId) {f : Node → Node} (hf : F f) : Update K F g (g.modifyNode id f)
  | drop (ids : List NodeId) : Update K F g (g.drop ids)
  | touch : Update K F g g.touch
  | report (d : Diagnostic) : Update K F g (g.report d)

/-- Some updates, one after the other. -/
abbrev Updated (K : NodeKind → Prop) (F : (Node → Node) → Prop) : Graph → Graph → Prop :=
  ReflTransGen (Update K F)

/-- No notes are taken. -/
def NoNote (_ : Node → Node) : Prop := False

variable {g g' : Graph} {K K' : NodeKind → Prop} {F F' : (Node → Node) → Prop}

theorem Update.mono (h : Update K F g g') (hK : ∀ k, K k → K' k) (hF : ∀ f, F f → F' f) :
    Update K' F' g g' := by
  cases h with
  | add hk => exact .add (hK _ hk)
  | copy hn hm => exact .copy hn hm
  | link s t => exact .link s t
  | unlink s t => exact .unlink s t
  | unlinkOutput s ts => exact .unlinkOutput s ts
  | store t l => exact .store t l
  | note id hf => exact .note id (hF _ hf)
  | drop ids => exact .drop ids
  | touch => exact .touch
  | report d => exact .report d

theorem Update.idBound_le (h : Update K F g g') : g.idBound ≤ g'.idBound := by
  cases h with
  | add hk => simp
  | copy hn hm => simp
  | link s t => exact Nat.le_of_eq (g.idBound_link _ _).symm
  | unlink s t => exact Nat.le_of_eq (g.idBound_unlink _ _).symm
  | unlinkOutput s ts => exact Nat.le_of_eq (g.idBound_unlinkOutput _ _).symm
  | store t l => exact Nat.le_of_eq (g.idBound_store _ _).symm
  | note id hf => exact Nat.le_of_eq (g.idBound_modifyNode _ _).symm
  | drop ids => exact Nat.le_of_eq (g.idBound_drop _).symm
  | touch => exact Nat.le_refl _
  | report d => exact Nat.le_refl _

/-! ### Properties of all nodes -/

/-- All nodes of a graph have a property, which may depend on their ids. -/
def Every (P : NodeId → Node → Prop) (g : Graph) : Prop := ∀ id n, g.node? id = some n → P id n

namespace Every

variable {P : NodeId → Node → Prop}

theorem modifyNode (h : g.Every P) (id : NodeId) {f : Node → Node} (hf : ∀ n, P id n → P id (f n)) :
    (g.modifyNode id f).Every P := by
  intro j m hm
  rw [node?_modifyNode] at hm
  split_ifs at hm with hj
  · obtain ⟨n, hn, rfl⟩ := Option.map_eq_some_iff.mp hm
    rw [hj]
    exact hf n (h id n hn)
  · exact h j m hm

theorem push (h : g.Every P) {n : Node} (hn : P g.idBound n.unlinked) : (g.push n).Every P := by
  intro j m hm
  rw [node?_push] at hm
  split_ifs at hm with hj
  · cases hm
    rw [hj]
    exact hn
  · exact h j m hm

/-- Updates keep what is said of all nodes, if it is not about their sockets and holds of new nodes
and under notes. -/
theorem update (hP : ∀ id n is os, P id n → P id { n with inputs := is, outputs := os })
    (hadd : ∀ k, K k → P g.idBound (.ofKind k))
    (hcopy : ∀ id n, P id n → P g.idBound n ∧ P g.idBound n.copy)
    (hnote : ∀ f, F f → ∀ id n, P id n → P id (f n)) (h : Update K F g g') (hg : g.Every P) :
    g'.Every P := by
  have hin : ∀ (g : Graph) t f, g.Every P → (g.modifyInput t f).Every P :=
    fun g t f hg => hg.modifyNode t.node fun n hn => hP _ n _ _ hn
  have hout : ∀ (g : Graph) s f, g.Every P → (g.modifyOutput s f).Every P :=
    fun g s f hg => hg.modifyNode s.node fun n hn => hP _ n _ _ hn
  cases h with
  | add hk => exact hg.push (hP _ _ _ _ (hadd _ hk))
  | copy hn hm =>
    rcases hm with rfl | rfl
    · exact hg.push (hP _ _ _ _ (hcopy _ _ (hg _ _ hn)).1)
    · exact hg.push (hP _ _ _ _ (hcopy _ _ (hg _ _ hn)).2)
  | link s t => exact hout _ _ _ (hin _ _ _ hg)
  | unlink s t => exact hout _ _ _ (hin _ _ _ hg)
  | unlinkOutput s ts =>
    have hall : ∀ (ts : List InputRef) (g : Graph), g.Every P →
        (ts.foldl (fun g t => g.modifyInput t Input.unlink) g).Every P := by
      intro ts
      induction ts with
      | nil => exact fun _ hg => hg
      | cons t ts ih => exact fun g hg => ih _ (hin g t _ hg)
    exact hall ts _ (hout g s _ hg)
  | store t l => exact hin g t _ hg
  | note id hf => exact hg.modifyNode id (hnote _ hf id)
  | drop ids =>
    intro id n hn
    rw [node?_drop] at hn
    split_ifs at hn
    exact hg id n hn
  | touch => exact hg
  | report d => exact hg

end Every

end Graph

namespace Edit

open Shading.Graph

variable {α β : Type}

/-- What a run leaves behind is related to the graph at its start, with a fault or without. -/
def Relates (R : Graph → Graph → Prop) (e : Edit α) : Prop :=
  ∀ g : Graph, e.Meets g (fun _ => R g) (R g)

section Relates

variable {R : Graph → Graph → Prop}

section Refl

variable [Std.Refl R]

theorem relates_pure (a : α) : (pure a : Edit α).Relates R := fun g => meets_pure (refl g)

theorem relates_throw (x : Fault) : (throw x : Edit α).Relates R := fun g => meets_throw (refl g)

theorem relates_ask (q : Graph → Except Fault α) : (ask q).Relates R := by
  intro g
  unfold Meets
  cases hq : q g with
  | ok a =>
    rw [run_ask_ok hq]
    exact refl g
  | error x =>
    rw [run_ask_error hq]
    exact refl g

theorem relates_requireMutable : requireMutable.Relates R := by
  intro g
  refine meets_get_bind ?_
  split_ifs
  · exact relates_throw _ g
  · exact relates_pure _ g

end Refl

theorem relates_get_bind {f : Graph → Edit α} (h : ∀ g, (f g).Relates R) :
    (get >>= f).Relates R := fun g => h g g

namespace Relates

theorem bind [IsTrans Graph R] {e : Edit β} {f : β → Edit α} (he : e.Relates R)
    (hf : ∀ b, (f b).Relates R) : (e >>= f).Relates R := fun g =>
  (he g).bind fun b g' h =>
    (hf b g').mono (fun _ _ h' => trans_of R h h') fun _ h' => trans_of R h h'

theorem discard {e : Edit α} (h : e.Relates R) : (discard e).Relates R := fun g =>
  meets_discard (h g)

variable [Std.Refl R] [IsTrans Graph R]

theorem forM {f : β → Edit Unit} {l : List β} (h : ∀ b, (f b).Relates R) :
    (l.forM f).Relates R := by
  induction l with
  | nil => exact relates_pure _
  | cons b l ih => exact (h b).bind fun _ => ih

theorem foldlM {f : α → β → Edit α} {l : List β} {a : α} (h : ∀ a b, (f a b).Relates R) :
    (l.foldlM f a).Relates R := by
  induction l generalizing a with
  | nil => exact relates_pure a
  | cons b l ih =>
    rw [List.foldlM_cons]
    exact (h a b).bind fun _ => ih

theorem mapM {f : α → Edit β} {l : List α} (h : ∀ a, (f a).Relates R) : (l.mapM f).Relates R := by
  induction l with
  | nil => exact relates_pure _
  | cons a l ih =>
    rw [List.mapM_cons]
    exact (h a).bind fun b => ih.bind fun bs => relates_pure _

end Relates

/-! The passes over a graph relate what their steps relate. -/

section Passes

variable [Std.Refl R] [IsTrans Graph R]

theorem relates_adaptToScene (h : ∀ t, (disconnectIfLinked t).Relates R) (scene : Scene)
    (id : NodeId) : (adaptToScene scene id).Relates R := by
  refine (relates_ask _).bind fun n => ?_
  split
  · have hcolor : ∀ (c : Prop) [Decidable c], (do
        if c then disconnectIfLinked (← ask (·.inputRef id "Color")) : Edit Unit).Relates R := by
      intro c _
      split_ifs
      · exact (relates_ask _).bind h
      · exact relates_pure _
    dsimp only
    split
    · exact (relates_ask _).bind fun r => (h r).bind fun _ => hcolor _
    · exact hcolor _
  · exact relates_pure _

theorem relates_mergeAll (h : ∀ x t, (mergeInto x t).Relates R) (w : Worklist)
    (candidates : List NodeId) (merged : Nat) : (mergeAll w candidates merged).Relates R := by
  rw [mergeAll.eq_def]
  split
  · exact relates_pure _
  · rename_i id w' hx
    have hsize := Worklist.size_next? hx
    refine relates_get_bind fun g => (relates_ask _).bind fun n => ?_
    split_ifs
    · split
      · exact (h _ _).bind fun _ => relates_mergeAll h _ _ _
      · exact relates_mergeAll h _ _ _
    · exact relates_mergeAll h _ _ _
termination_by w.size
decreasing_by
  all_goals
    try rw [Worklist.size_scheduleConsumers]
    omega

theorem relates_searchCycles (h : ∀ t, (cutLink t).Relates R) (inputs : NodeId → List Nat)
    (unvisited : List NodeId) (path : Path) :
    (searchCycles inputs unvisited path).Relates R := by
  fun_induction searchCycles inputs unvisited path with
  | case1 unvisited => exact relates_pure _
  | case2 unvisited id rest ih => exact ih
  | case3 unvisited id slot pending rest ihrest ihvisit =>
    refine (relates_ask _).bind fun link => ?_
    split
    · exact ihrest
    · rename_i source
      split_ifs with hon hmem
      · exact (h _).bind fun _ => ihrest
      · exact ihvisit source hmem
      · exact ihrest

theorem relates_breakCycles (h : ∀ t, (cutLink t).Relates R) : breakCycles.Relates R := by
  refine relates_get_bind fun g => Relates.bind (.foldlM fun unvisited root => ?_) fun _ =>
    relates_pure _
  unfold searchRoot
  split_ifs
  · exact relates_searchCycles h _ _ _
  · exact relates_pure _

end Passes

end Relates

/-- All that a run does are updates, whether it ends with a fault or not. -/
def Updates {α : Type} (K : NodeKind → Prop) (F : (Node → Node) → Prop) (e : Edit α) : Prop :=
  ∀ g : Graph, e.Meets g (fun _ => g.Updated K F) (g.Updated K F)

variable {K K' : NodeKind → Prop} {F F' : (Node → Node) → Prop}

namespace Updates

theorem mono {e : Edit α} (h : e.Updates K F) (hK : ∀ k, K k → K' k) (hF : ∀ f, F f → F' f) :
    e.Updates K' F' := by
  intro g
  have hall : ∀ g', g.Updated K F g' → g.Updated K' F' g' := fun g' hu =>
    ReflTransGen.mono (fun _ _ hstep => Update.mono hstep hK hF) _ _ hu
  exact (h g).mono (fun _ => hall) hall

/-- A run keeps what every update keeps. -/
theorem meets {e : Edit α} (h : e.Updates K F) {I : Graph → Prop}
    (hI : ∀ g g', Update K F g g' → I g → I g') {g : Graph} (hg : I g) :
    e.Meets g (fun _ => I) I := by
  have hall : ∀ g', g.Updated K F g' → I g' := by
    intro g' hu
    induction hu with
    | refl => exact hg
    | tail _ hstep ih => exact hI _ _ hstep ih
  exact (h g).mono (fun _ => hall) hall

theorem bind {e : Edit β} {f : β → Edit α} (he : e.Updates K F) (hf : ∀ b, (f b).Updates K F) :
    (e >>= f).Updates K F := Relates.bind he hf

theorem discard {e : Edit α} (h : e.Updates K F) : (discard e).Updates K F := Relates.discard h

theorem forM {f : β → Edit Unit} {l : List β} (h : ∀ b, (f b).Updates K F) :
    (l.forM f).Updates K F := Relates.forM h

theorem foldlM {f : α → β → Edit α} {l : List β} {a : α} (h : ∀ a b, (f a b).Updates K F) :
    (l.foldlM f a).Updates K F := Relates.foldlM h

theorem mapM {f : α → Edit β} {l : List α} (h : ∀ a, (f a).Updates K F) :
    (l.mapM f).Updates K F := Relates.mapM h

end Updates

theorem updates_pure (a : α) : (pure a : Edit α).Updates K F := relates_pure a

theorem updates_throw (x : Fault) : (throw x : Edit α).Updates K F := relates_throw x

theorem updates_get_bind {f : Graph → Edit α} (h : ∀ g, (f g).Updates K F) :
    (get >>= f).Updates K F := fun g => h g g

theorem updates_modify {f : Graph → Graph} (h : ∀ g, Update K F g (f g)) :
    (modify f : Edit Unit).Updates K F := fun g => meets_modify (.single (h g))

theorem updates_ask (q : Graph → Except Fault α) : (ask q).Updates K F := relates_ask q

theorem updates_requireMutable : requireMutable.Updates K F := relates_requireMutable

/-! ### Nodes -/

theorem updates_addKind {k : NodeKind} (hk : K k) : (addKind k).Updates K F := fun _ =>
  meets_add (fun _ => .single (.add hk)) fun _ => .refl

theorem updates_ask_node_add (id : NodeId) {f : Node → Node} (hf : ∀ n, f n = n ∨ f n = n.copy) :
    (ask (·.node id) >>= fun n => add (f n)).Updates K F := fun _ =>
  meets_ask_node_bind (fun n hn => meets_add (fun _ => .single (.copy hn (hf n))) fun _ => .refl)
    fun _ => .refl

theorem updates_store (t : InputRef) (l : Literal) : (store t l).Updates K F :=
  updates_requireMutable.bind fun _ => (updates_ask _).discard.bind fun _ =>
    updates_modify fun _ => .store t l

theorem updates_storeNamed (id : NodeId) (name : String) (l : Literal) :
    (storeNamed id name l).Updates K F := by
  refine (updates_ask _).bind fun n => Updates.bind (fun g => meets_modify ?_) fun _ => updates_pure _
  rcases g.modifyNode_store id name l with h | ⟨slot, h⟩
  · rw [h]
  · rw [h]
    exact .single (.store _ l)

theorem updates_report (d : Diagnostic) : (report d).Updates K F := updates_modify fun _ => .report d

/-! ### Links -/

theorem updates_link (s : OutputRef) (t : InputRef) :
    (modify (·.link s t) : Edit Unit).Updates K F := updates_modify fun _ => .link s t

section

variable {attempt : OutputRef → InputRef → Edit Connection}
  (h : ∀ source target, (attempt source target).Updates NodeKind.NoProxy F)
include h

/-- Once the conversion is there, nested attempts follow. -/
theorem connectConverted_eq_bind (source : OutputRef) (sourceType : SocketType) (target : InputRef)
    (targetType : SocketType) : ∃ rest : NodeId → Edit NodeId,
      connectConverted attempt source sourceType target targetType =
        addKind (.convert sourceType targetType true) >>= rest ∧
          ∀ id, (rest id).Updates NodeKind.NoProxy F :=
  ⟨_, rfl, fun _ => (h _ _).discard.bind fun _ => (h _ _).discard.bind fun _ => updates_pure _⟩

/-- Once the emission is there, literals and nested attempts follow. -/
theorem connectEmitted_eq_bind (source : OutputRef) (sourceType : SocketType) (target : InputRef) :
    ∃ rest : NodeId → Edit NodeId,
      connectEmitted attempt source sourceType target = addKind (.emission true) >>= rest ∧
        ∀ id, (rest id).Updates NodeKind.NoProxy F := by
  refine ⟨_, rfl, fun id => ?_⟩
  refine (updates_storeNamed _ _ _).discard.bind fun _ => ?_
  refine (updates_storeNamed _ _ _).discard.bind fun _ => ?_
  exact (updates_ask _).bind fun feed => (h _ _).discard.bind fun _ =>
    (updates_ask _).bind fun emission => (h _ _).discard.bind fun _ => updates_pure _

end

theorem updates_reject (d : Diagnostic) : (reject d).Updates K F :=
  (updates_report d).bind fun _ => updates_pure _

theorem updates_connect (source : OutputRef) (target : InputRef) :
    (connect source target).Updates NodeKind.NoProxy F := by
  refine connect_induction (fun x => relates_throw x) (fun attempt h source target => ?_) source target
  refine updates_requireMutable.bind fun _ => (updates_ask _).bind fun output => ?_
  refine (updates_ask _).bind fun input => ?_
  split_ifs with hlinked hlinkable hfit hclosure hemit
  · exact updates_reject _
  · exact updates_reject _
  · exact (updates_link _ _).bind fun _ => updates_pure _
  · exact updates_reject _
  · obtain ⟨rest, heq, hrest⟩ := connectEmitted_eq_bind h source output.type target
    rw [heq]
    have hk : NodeKind.NoProxy (.emission true) := by simp [NodeKind.NoProxy, NodeKind.role]
    exact ((updates_addKind hk).bind hrest).bind fun _ => updates_pure _
  · obtain ⟨rest, heq, hrest⟩ := connectConverted_eq_bind h source output.type target input.type
    rw [heq]
    have hne : output.type ≠ input.type := fun hty => hfit (hty ▸ SocketType.linksTo_self _)
    have hk : NodeKind.NoProxy (.convert output.type input.type true) := by
      simp [NodeKind.NoProxy, NodeKind.role, hne]
    exact ((updates_addKind hk).bind hrest).bind fun _ => updates_pure _

theorem updates_connectNamed (source : NodeId) (output : String) (target : NodeId) (input : String) :
    (connectNamed source output target input).Updates NodeKind.NoProxy F :=
  (updates_ask _).bind fun _ => (updates_ask _).bind fun _ => updates_connect _ _

theorem updates_disconnectInput (target : InputRef) : (disconnectInput target).Updates K F := by
  refine updates_requireMutable.bind fun _ => (updates_ask _).bind fun input => ?_
  split
  · exact updates_throw _
  · exact updates_modify fun _ => .unlink _ target

theorem updates_disconnectIfLinked (target : InputRef) : (disconnectIfLinked target).Updates K F := by
  refine (updates_ask _).bind fun input => ?_
  split_ifs
  · exact updates_disconnectInput target
  · exact updates_pure _

theorem updates_disconnectOutput (source : OutputRef) : (disconnectOutput source).Updates K F :=
  updates_requireMutable.bind fun _ => (updates_ask _).bind fun _ =>
    updates_modify fun _ => .unlinkOutput source _

theorem updates_disconnectNodeInputs (id : NodeId) : (disconnectNodeInputs id).Updates K F :=
  updates_requireMutable.bind fun _ => (updates_ask _).bind fun _ =>
    .forM fun _ => updates_disconnectIfLinked _

theorem updates_disconnectNodeOutputs (id : NodeId) : (disconnectNodeOutputs id).Updates K F :=
  (updates_ask _).bind fun _ => .forM fun _ => updates_disconnectOutput _

theorem updates_relinkInput (source target : InputRef) :
    (relinkInput source target).Updates NodeKind.NoProxy F := by
  refine updates_requireMutable.bind fun _ => (updates_ask _).bind fun input => ?_
  split
  · exact (updates_disconnectInput _).bind fun _ => (updates_connect _ _).discard.bind fun _ =>
      updates_store _ _
  · exact updates_store _ _

theorem updates_connectTo (source? : Option OutputRef) (target : InputRef) :
    (connectTo source? target).Updates NodeKind.NoProxy F := by
  cases source? with
  | some source => exact (updates_connect source target).discard
  | none => exact updates_pure _

theorem updates_relinkOutput (source : OutputRef) (replacement : Option OutputRef) :
    (relinkOutput source replacement).Updates NodeKind.NoProxy F :=
  updates_requireMutable.bind fun _ => (updates_ask _).bind fun _ =>
    .forM fun _ => (updates_disconnectInput _).bind fun _ => updates_connectTo _ _

theorem updates_bypass (id : NodeId) (source : OutputRef) (replacement : Option OutputRef) :
    (bypass id source replacement).Updates NodeKind.NoProxy F :=
  updates_requireMutable.bind fun _ => (updates_ask _).bind fun _ =>
    (updates_disconnectNodeInputs id).bind fun _ =>
      (Updates.forM fun _ => (updates_disconnectIfLinked _).bind fun _ =>
        updates_connectTo _ _).bind fun _ => updates_modify fun _ => .touch

/-! ### Subgraphs -/

theorem updates_copyNodes (ids : NodeSet) : (copyNodes ids).Updates NodeKind.NoProxy F := by
  refine .mapM fun id => ?_
  have h := (updates_ask_node_add (K := NodeKind.NoProxy) (F := F) id (f := Node.copy)
    fun n => Or.inr rfl).bind fun copy => updates_pure (id, copy)
  rwa [bind_assoc] at h

theorem updates_copyLinks (copies : CopyMap) (id copy : NodeId) :
    (copyLinks copies id copy).Updates NodeKind.NoProxy F := by
  refine (updates_ask _).bind fun n => .forM ?_
  rintro ⟨input, slot⟩
  dsimp only
  split
  · exact updates_pure _
  · split
    · exact updates_pure _
    · exact (updates_connect _ _).discard

theorem updates_copySubgraph (ids : NodeSet) :
    (copySubgraph ids).Updates NodeKind.NoProxy F := by
  refine (updates_copyNodes ids).bind fun copies => Updates.bind (.forM ?_) fun _ =>
    updates_pure copies
  rintro ⟨id, copy⟩
  exact updates_copyLinks copies id copy

theorem updates_removeNodes (ids : NodeSet) : (removeNodes ids).Updates K F := by
  refine updates_requireMutable.bind fun _ => Updates.bind (.forM fun id => ?_) fun _ =>
    updates_modify fun _ => .drop ids
  refine updates_get_bind fun g => ?_
  split_ifs
  · exact (updates_disconnectNodeInputs id).bind fun _ => updates_disconnectNodeOutputs id
  · exact updates_pure _

end Edit

/-- Primitives note nothing on nodes. -/
theorem Primitive.updates (p : Primitive) : p.run.Updates (fun _ => True) Graph.NoNote := by
  have hmono : ∀ {α : Type} {e : Edit α}, e.Updates NodeKind.NoProxy Graph.NoNote →
      e.Updates (fun _ => True) Graph.NoNote := fun h => h.mono (fun _ _ => trivial) fun _ hf => hf
  cases p with
  | addKind kind => exact (Edit.updates_addKind trivial).discard
  | addCopy id =>
    have h := (Edit.updates_ask_node_add (K := fun _ => True) (F := Graph.NoNote) id
      (f := fun n => n) fun n => Or.inl rfl).discard
    rw [Edit.discard_eq, bind_assoc] at h
    simpa only [run, Edit.discard_eq] using h
  | storeNamed id name literal => exact (Edit.updates_storeNamed id name literal).discard
  | store target literal => exact Edit.updates_store target literal
  | connect source target => exact (hmono (Edit.updates_connect source target)).discard
  | connectNamed source output target input =>
    exact (hmono (Edit.updates_connectNamed source output target input)).discard
  | disconnectInput target => exact Edit.updates_disconnectInput target
  | disconnectOutput source => exact Edit.updates_disconnectOutput source
  | disconnectNodeInputs id => exact Edit.updates_disconnectNodeInputs id
  | relinkInput source target => exact hmono (Edit.updates_relinkInput source target)
  | relinkOutput source replacement => exact hmono (Edit.updates_relinkOutput source replacement)
  | bypass id source replacement => exact hmono (Edit.updates_bypass id source replacement)
  | copySubgraph ids => exact (hmono (Edit.updates_copySubgraph ids)).discard
  | removeNodes ids => exact Edit.updates_removeNodes ids

end Shading
