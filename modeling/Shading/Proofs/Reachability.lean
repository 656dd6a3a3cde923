import Mathlib.Data.List.Sort
import Shading.Lowering.Volume
import Shading.Graph.Subgraph
import Shading.Proofs.Acyclic

/-!
# What a search finds

The search through a finite list finds exactly what can be reached without leaving the list
(`mem_explore`). So the nodes behind a node are those from which links lead to it (`mem_cone`), and
the walk through a volume comes across the same nodes (`mem_volumeWalk`). -/

namespace Shading

open Relation

section

variable {α : Type} [DecidableEq α] {next : α → List α} {unseen : List α}

/-- A step of a search within a list. -/
def StepsIn (next : α → List α) (unseen : List α) (a b : α) : Prop := b ∈ next a ∧ b ∈ unseen

/-- A path to another member than `a` starts at a member other than `a`, or leads on from `a` for
the last time. -/
theorem reflTransGen_erase (hnd : unseen.Nodup) {a s c : α} (hs : s ∈ unseen)
    (h : ReflTransGen (StepsIn next unseen) s c) :
    c = a ∨ ∃ b, (b = s ∨ b ∈ next a) ∧ b ∈ unseen.erase a ∧
      ReflTransGen (StepsIn next (unseen.erase a)) b c := by
  induction h with
  | refl =>
    by_cases hsa : s = a
    · exact Or.inl hsa
    · exact Or.inr ⟨s, Or.inl rfl, hnd.mem_erase_iff.mpr ⟨hsa, hs⟩, .refl⟩
  | @tail d c _ hdc ih =>
    by_cases hca : c = a
    · exact Or.inl hca
    · have hc := hnd.mem_erase_iff.mpr ⟨hca, hdc.2⟩
      rcases ih with rfl | ⟨b, hb, hmem, hbd⟩
      · exact Or.inr ⟨c, Or.inr hdc.1, hc, .refl⟩
      · exact Or.inr ⟨b, hb, hmem, hbd.tail ⟨hdc.1, hc⟩⟩

theorem mem_explore (hnd : unseen.Nodup) {stack : List α} {c : α} :
    c ∈ explore next unseen stack ↔
      ∃ s ∈ stack, s ∈ unseen ∧ ReflTransGen (StepsIn next unseen) s c := by
  fun_induction explore next unseen stack with
  | case1 => simp
  | case2 unseen a rest ha ih =>
    have hsub : ∀ x y, StepsIn next (unseen.erase a) x y → StepsIn next unseen x y :=
      fun x y h => ⟨h.1, List.mem_of_mem_erase h.2⟩
    rw [List.mem_cons, ih (hnd.erase a)]
    constructor
    · rintro (rfl | ⟨s, hs, hmem, hp⟩)
      · exact ⟨c, List.mem_cons_self, ha, .refl⟩
      · have hp' := ReflTransGen.mono hsub _ _ hp
        rcases List.mem_append.mp hs with hs | hs
        · exact ⟨a, List.mem_cons_self, ha, .head ⟨hs, List.mem_of_mem_erase hmem⟩ hp'⟩
        · exact ⟨s, List.mem_cons_of_mem a hs, List.mem_of_mem_erase hmem, hp'⟩
    · rintro ⟨s, hs, hmem, hp⟩
      refine (reflTransGen_erase hnd hmem hp).imp_right ?_
      rintro ⟨b, hb, hbmem, hbc⟩
      refine ⟨b, ?_, hbmem, hbc⟩
      rcases hb with rfl | hb
      · have hne := (hnd.mem_erase_iff.mp hbmem).1
        exact List.mem_append_right _ ((List.mem_cons.mp hs).resolve_left hne)
      · exact List.mem_append_left _ hb
  | case3 unseen a rest ha ih =>
    rw [ih hnd]
    refine ⟨fun ⟨s, hs, h⟩ => ⟨s, List.mem_cons_of_mem a hs, h⟩, fun ⟨s, hs, hmem, h⟩ => ?_⟩
    exact ⟨s, (List.mem_cons.mp hs).resolve_left fun heq => ha (heq ▸ hmem), hmem, h⟩

/-- In a list that no step leads out of, all that can be reached is found. -/
theorem mem_explore_of_closed (hnd : unseen.Nodup) (hclosed : ∀ a, ∀ b ∈ next a, b ∈ unseen) {s c : α}
    (hs : s ∈ unseen) : c ∈ explore next unseen [s] ↔ ReflTransGen (fun a b => b ∈ next a) s c := by
  have hsteps : StepsIn next unseen = fun a b => b ∈ next a := by
    funext a b
    exact propext ⟨fun h => h.1, fun h => ⟨h, hclosed a b h⟩⟩
  simp [mem_explore hnd, hsteps, hs]

end

namespace Graph

/-- A path leads from a node to another one that is not linear, and from there on to the root. -/
def BehindNonlinear (g : Graph) (root id : NodeId) : Prop :=
  ∃ a n, g.node? a = some n ∧ n.isLinear = false ∧ ReflTransGen g.Feeds a root ∧
    TransGen g.Feeds id a

variable {g : Graph}

theorem reflTransGen_feeders {a b : NodeId} :
    ReflTransGen (fun a b => b ∈ g.feeders a) a b ↔ ReflTransGen g.Feeds b a := by
  rw [← reflTransGen_swap]
  simp only [mem_feeders]

/-- Whoever feeds a reached node is reached from it. The tag is lost at a node that is not linear. -/
theorem mem_reachedFeeders {p q : Reached} :
    q ∈ g.reachedFeeders p ↔
      g.Feeds q.1 p.1 ∧ q.2 = (p.2 && (g.node? p.1).any (·.isLinear)) := by
  rw [← mem_feeders, reachedFeeders, feeders]
  cases g.node? p.1 with
  | none => simp
  | some n =>
    obtain ⟨a, linear⟩ := q
    simp [Prod.ext_iff, eq_comm (a := linear), ← and_assoc, exists_and_right]

theorem mem_cone_self {id : NodeId} (h : id ∈ g.ids) : id ∈ g.cone id := by
  rw [cone, explore, if_pos h]
  exact List.mem_filter.mpr ⟨h, by simp⟩

theorem mem_ids_of_mem_cone {a id : NodeId} (h : a ∈ g.cone id) : a ∈ g.ids :=
  (List.mem_filter.mp h).1

theorem lt_idBound_of_mem_cone {a id : NodeId} (h : a ∈ g.cone id) : a < g.idBound :=
  g.lt_idBound_of_mem (mem_ids_of_mem_cone h)

theorem dependencies_eq {r : InputRef} {s : OutputRef} (h : g.linkAt r = some s) :
    g.dependencies r = .ok (g.cone s.node) := by
  obtain ⟨d, hd⟩ := g.inputDecl?_of_linkAt h
  have hl : g.linkOf r = .ok (some s) := (g.linkOf_eq_ok).mpr ⟨by simp [hd], h⟩
  rw [dependencies, hl]
  rfl

theorem pairwise_cone (x : NodeId) : (g.cone x).Pairwise (· < ·) := g.pairwise_ids.filter _

theorem nodup_cone (x : NodeId) : (g.cone x).Nodup := (g.pairwise_cone x).imp Nat.ne_of_lt

theorem cone_eq_of_mem_iff {g' : Graph} {x y : NodeId} (h : ∀ a, a ∈ g.cone x ↔ a ∈ g'.cone y) :
    g.cone x = g'.cone y :=
  (pairwise_cone x).eq_of_mem_iff (pairwise_cone y) h

namespace WellFormed

variable (hg : g.WellFormed)
include hg

theorem mem_cone {a id : NodeId} (hid : id ∈ g.ids) : a ∈ g.cone id ↔ ReflTransGen g.Feeds a id := by
  have hnd : g.ids.Nodup := g.pairwise_ids.imp Nat.ne_of_lt
  have hclosed : ∀ a, ∀ b ∈ g.feeders a, b ∈ g.ids :=
    fun a b hb => (hg.mem_ids_of_feeds (mem_feeders.mp hb)).1
  rw [cone, List.mem_filter, decide_eq_true_eq, mem_explore_of_closed hnd hclosed hid,
    reflTransGen_feeders]
  refine and_iff_right_of_imp fun hp => ?_
  rcases reflTransGen_iff_eq_or_transGen.mp hp with rfl | hp
  · exact hid
  · obtain ⟨_, ha, -⟩ := TransGen.head'_iff.mp hp
    exact (hg.mem_ids_of_feeds ha).1

theorem mem_cone_of_feeds {a b x : NodeId} (hx : x ∈ g.ids) (hb : b ∈ g.cone x) (hab : g.Feeds a b) :
    a ∈ g.cone x :=
  (hg.mem_cone hx).mpr (((hg.mem_cone hx).mp hb).head hab)

theorem mem_cone_source {r : InputRef} {s : OutputRef} (h : g.linkAt r = some s) :
    s.node ∈ g.cone s.node := mem_cone_self (hg.mem_ids_of_feeds (feeds_of_linkAt h)).1

theorem cone_closed {r : InputRef} {s : OutputRef} (h : g.linkAt r = some s) :
    ∀ a ∈ g.cone s.node, ∀ c, g.Feeds c a → c ∈ g.cone s.node := fun _ ha _ hc =>
  hg.mem_cone_of_feeds (hg.mem_ids_of_feeds (feeds_of_linkAt h)).1 ha hc

/-- The nodes behind a node are in every set that it is in and that is closed under feeding. -/
theorem cone_subset {x : NodeId} (hx : x ∈ g.ids) {S : Set NodeId} (hS : x ∈ S)
    (hclosed : ∀ a, ∀ c ∈ g.cone x, c ∈ S → g.Feeds a c → a ∈ S) : ∀ a ∈ g.cone x, a ∈ S := by
  intro a ha
  rw [hg.mem_cone hx] at ha
  induction ha using ReflTransGen.head_induction_on with
  | refl => exact hS
  | head hac hcx ih => exact hclosed _ _ ((hg.mem_cone hx).mpr hcx) ih hac

/-- The walk comes across all that can be reached from its root, each node with any of its tags. -/
theorem mem_volumeWalk_iff {root : NodeId} (hroot : root ∈ g.ids) {p : Reached} :
    p ∈ g.volumeWalk root ↔ ReflTransGen (fun p q => q ∈ g.reachedFeeders p) (root, true) p := by
  have hnd : (g.ids.flatMap fun id => [(id, true), (id, false)]).Nodup := by
    refine List.nodup_flatMap.mpr ⟨by simp, g.pairwise_ids.imp fun {a b} hab => ?_⟩
    have hne : a ≠ b := Nat.ne_of_lt hab
    simp [List.disjoint_left, hne]
  have hmem : ∀ p : Reached, p.1 ∈ g.ids → p ∈ g.ids.flatMap fun id => [(id, true), (id, false)] := by
    rintro ⟨id, linear⟩ hid
    exact List.mem_flatMap.mpr ⟨id, hid, by cases linear <;> simp⟩
  have hclosed : ∀ p, ∀ q ∈ g.reachedFeeders p,
      q ∈ g.ids.flatMap fun id => [(id, true), (id, false)] :=
    fun p q hq => hmem q (hg.mem_ids_of_feeds (mem_reachedFeeders.mp hq).1).1
  rw [volumeWalk, mem_explore_of_closed hnd hclosed (hmem (root, true) hroot)]

theorem mem_volumeWalk {a root : NodeId} (hroot : root ∈ g.ids) :
    (∃ linear, (a, linear) ∈ g.volumeWalk root) ↔ ReflTransGen g.Feeds a root := by
  simp only [hg.mem_volumeWalk_iff hroot]
  constructor
  · rintro ⟨linear, hp⟩
    rw [← reflTransGen_feeders]
    exact hp.lift Prod.fst fun p q hq => mem_feeders.mpr (mem_reachedFeeders.mp hq).1
  · intro hp
    induction hp using ReflTransGen.head_induction_on with
    | refl => exact ⟨true, .refl⟩
    | @head a b hab _ ih =>
      obtain ⟨linear, hb⟩ := ih
      exact ⟨_, hb.tail (mem_reachedFeeders.mpr ⟨hab, rfl⟩)⟩

/-- The walk loses the tag on the way to a node if and only if the way leads through a node that is
not linear. -/
theorem mem_volumeWalk_false {a root : NodeId} (hroot : root ∈ g.ids) :
    (a, false) ∈ g.volumeWalk root ↔ g.BehindNonlinear root a := by
  constructor
  · suffices h : ∀ p, ReflTransGen (fun p q => q ∈ g.reachedFeeders p) (root, true) p →
        ReflTransGen g.Feeds p.1 root ∧ (p.2 = false → g.BehindNonlinear root p.1) from
      fun hw => (h _ ((hg.mem_volumeWalk_iff hroot).mp hw)).2 rfl
    intro p hp
    induction hp with
    | refl => exact ⟨.refl, nofun⟩
    | @tail p q _ hpq ih =>
      obtain ⟨hfeeds, htag⟩ := mem_reachedFeeders.mp hpq
      refine ⟨ih.1.head hfeeds, fun hq => ?_⟩
      rcases Bool.and_eq_false_iff.mp (htag.symm.trans hq) with hp | hlinear
      · obtain ⟨b, n, hn, hnl, hb, hpb⟩ := ih.2 hp
        exact ⟨b, n, hn, hnl, hb, .head hfeeds hpb⟩
      · obtain ⟨n, hn⟩ := exists_node_of_mem (hg.mem_ids_of_feeds hfeeds).2
        exact ⟨p.1, n, hn, by simpa [hn] using hlinear, ih.1, .single hfeeds⟩
  · rintro ⟨b, n, hn, hnl, hb, hab⟩
    obtain ⟨linear, hw⟩ := (hg.mem_volumeWalk hroot).mpr hb
    rw [mem_volumeWalk_iff hg hroot] at hw ⊢
    induction hab using TransGen.head_induction_on with
    | single h => exact hw.tail (mem_reachedFeeders.mpr ⟨h, by simp [hn, hnl]⟩)
    | head h _ ih => exact ih.tail (mem_reachedFeeders.mpr ⟨h, rfl⟩)

end WellFormed

end Graph

end Shading
