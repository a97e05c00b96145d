import Mathlib.Data.Set.Insert
import PlatformSpec.Engine.StateManager

/-!
# Consistency of node and edge states

Edge states are determined by their tails: an edge is taken or skipped once its tail has
been completed, skipped once its tail is skipped, and unknown before. Node states are
determined by the incoming edges. While a completion is being processed some edges are
still pending and some heads are open, that is, not yet looked at again. Each operation
of the traversal moves between consistent states; none of the lemmas below unfolds a loop.
-/

namespace PlatformSpec.Scheduling

open Workflow Engine

/-- What the states of a run are measured against: the sources skipped from the start, the
edges a completed node selects, and the nodes that traversal can reach. -/
structure Plan where
  graph : Graph
  initial : NodeId → Prop
  selected : Edge → Bool
  below : NodeId → Prop
  root_not_below : ¬ below graph.root
  closed : ∀ e ∈ graph.edges, e.tail = graph.root ∨ below e.tail → below e.head
  initial_source : ∀ v, initial v → below v ∧ graph.incoming v = []

namespace Plan

/-- The state a completed tail gives an edge. -/
def pick (p : Plan) (e : Edge) : NodeState := if p.selected e then .taken else .skipped

theorem pick_ne_unknown (p : Plan) (e : Edge) : p.pick e ≠ .unknown := by
  unfold pick
  split <;> simp

end Plan

/-- States of a traversal in progress. `S` are the scheduled nodes, `D` the completed
ones, `E` the pending edges and `X` the open nodes. -/
structure Consistent (p : Plan) (S D : Set NodeId) (E : Set Edge) (X : Set NodeId)
    (t : Tracking) : Prop where
  pending : ∀ e ∈ p.graph.edges, e ∈ E → t.edgeState e.id = .unknown
  done : ∀ e ∈ p.graph.edges, e ∉ E → e.tail ∈ D → t.edgeState e.id = p.pick e
  skipped : ∀ e ∈ p.graph.edges, e ∉ E → t.nodeState e.tail = .skipped →
    t.edgeState e.id = .skipped
  idle : ∀ e ∈ p.graph.edges, e.tail ∉ D → t.nodeState e.tail ≠ .skipped →
    t.edgeState e.id = .unknown
  pending_live : ∀ e ∈ E, e ∈ p.graph.edges ∧ (e.tail ∈ D ∨ t.nodeState e.tail = .skipped)
  scheduled : ∀ v, v ≠ p.graph.root → v ∉ X → (v ∈ S ↔ ReadyIn p.graph t.edgeState v)
  node_skipped : ∀ v, v ∉ X →
    (t.nodeState v = .skipped ↔ p.initial v ∨ AllSkipped p.graph t.edgeState v)
  fresh : ∀ v ∈ X, v ∉ S ∧ t.nodeState v ≠ .skipped ∧ p.below v
  done_scheduled : D ⊆ S
  live : ∀ v ∈ S, v = p.graph.root ∨ p.below v
  skipped_live : ∀ v, t.nodeState v = .skipped → p.below v
  taken_scheduled : ∀ v, t.nodeState v = .taken → v ∈ S

namespace Consistent

variable {p : Plan} {S D X : Set NodeId} {E : Set Edge} {t : Tracking} {v : NodeId}

theorem not_skipped (h : Consistent p S D E X t) (hv : v ∈ S) :
    t.nodeState v ≠ .skipped := by
  intro hs
  by_cases hX : v ∈ X
  · exact (h.fresh v hX).1 hv
  · by_cases hr : v = p.graph.root
    · exact p.root_not_below (hr ▸ h.skipped_live v hs)
    · have hready := (h.scheduled v hr hX).mp hv
      rcases (h.node_skipped v hX).mp hs with hi | ha
      · obtain ⟨-, e, he, -⟩ := hready
        rw [(p.initial_source v hi).2] at he
        cases he
      · exact hready.not_allSkipped ha

variable {e : Edge}

theorem head_below (h : Consistent p S D E X t) (he : e ∈ E) : p.below e.head := by
  obtain ⟨hm, hd | hs⟩ := h.pending_live e he
  · exact p.closed e hm (h.live _ (h.done_scheduled hd))
  · exact p.closed e hm (.inr (h.skipped_live _ hs))

theorem untouched (h : Consistent p S D E X t) (hr : v ≠ p.graph.root)
    (he : e ∈ p.graph.incoming v) (hu : t.edgeState e.id = .unknown) :
    v ∉ S ∧ t.nodeState v ≠ .skipped := by
  by_cases hX : v ∈ X
  · exact ⟨(h.fresh v hX).1, (h.fresh v hX).2.1⟩
  · refine ⟨fun hS => ((h.scheduled v hr hX).mp hS).1 e he hu, fun hs => ?_⟩
    rcases (h.node_skipped v hX).mp hs with hi | ha
    · rw [(p.initial_source v hi).2] at he
      cases he
    · rw [ha.2 e he] at hu
      cases hu

theorem mark (h : Consistent p S D E X t) (he : e ∈ E) {s : NodeState}
    (hd : e.tail ∈ D → s = p.pick e) (hs : t.nodeState e.tail = .skipped → s = .skipped) :
    Consistent p S D (E \ {e}) (insert e.head X) (t.setEdge e.id s) := by
  obtain ⟨hm, hlive⟩ := h.pending_live e he
  have hroot : e.head ≠ p.graph.root := fun hr => p.root_not_below (hr ▸ h.head_below he)
  have hother : ∀ f ∈ p.graph.edges, f ≠ e → (t.setEdge e.id s).edgeState f.id =
      t.edgeState f.id := by
    intro f hf hne
    exact Function.update_of_ne (fun hid => hne (p.graph.edge_ext hf hm hid)) _ _
  have hsame : (t.setEdge e.id s).edgeState e.id = s := Function.update_self ..
  have hin : ∀ v, v ≠ e.head → ∀ f ∈ p.graph.incoming v,
      t.edgeState f.id = (t.setEdge e.id s).edgeState f.id := by
    intro v hv f hf
    obtain ⟨hfm, hfh⟩ := Graph.mem_incoming.mp hf
    exact (hother f hfm fun hfe => hv (by rw [← hfh, hfe])).symm
  refine ⟨?_, ?_, ?_, ?_, ?_, ?_, ?_, ?_, h.done_scheduled, h.live, h.skipped_live,
    h.taken_scheduled⟩
  · intro f hf hfE
    rw [hother f hf hfE.2]
    exact h.pending f hf hfE.1
  · intro f hf hfE hfD
    by_cases hfe : f = e
    · subst hfe
      rw [hsame, hd hfD]
    · rw [hother f hf hfe]
      exact h.done f hf (fun hfE' => hfE ⟨hfE', hfe⟩) hfD
  · intro f hf hfE hfs
    by_cases hfe : f = e
    · subst hfe
      rw [hsame, hs hfs]
    · rw [hother f hf hfe]
      exact h.skipped f hf (fun hfE' => hfE ⟨hfE', hfe⟩) hfs
  · intro f hf hfD hfs
    have hfe : f ≠ e := by
      rintro rfl
      rcases hlive with hl | hl
      · exact hfD hl
      · exact hfs hl
    rw [hother f hf hfe]
    exact h.idle f hf hfD hfs
  · exact fun f hf => h.pending_live f hf.1
  · intro v hr hv
    obtain ⟨hve, hvX⟩ := not_or.mp hv
    rw [h.scheduled v hr hvX, readyIn_congr (hin v hve)]
  · intro v hv
    obtain ⟨hve, hvX⟩ := not_or.mp hv
    rw [Tracking.setEdge_nodeState, h.node_skipped v hvX, allSkipped_congr (hin v hve)]
  · rintro v (rfl | hv)
    · have hu := h.untouched hroot (Graph.mem_incoming.mpr ⟨hm, rfl⟩) (h.pending e hm he)
      exact ⟨hu.1, hu.2, h.head_below he⟩
    · exact h.fresh v hv

theorem settle (h : Consistent p S D E X t) (hv : v ∈ X)
    (he : e ∈ p.graph.incoming v) (hu : t.edgeState e.id = .unknown) :
    Consistent p S D E (X \ {v}) t := by
  obtain ⟨hS, hs, -⟩ := h.fresh v hv
  refine { h with
    scheduled := fun w hr hw => ?_
    node_skipped := fun w hw => ?_
    fresh := fun w hw => h.fresh w hw.1 }
  · by_cases hwv : w = v
    · subst hwv
      exact iff_of_false hS fun hready => hready.1 e he hu
    · exact h.scheduled w hr fun hX => hw ⟨hX, hwv⟩
  · by_cases hwv : w = v
    · subst hwv
      refine iff_of_false hs ?_
      rintro (hi | ha)
      · rw [(p.initial_source w hi).2] at he
        cases he
      · rw [ha.2 e he] at hu
        cases hu
    · exact h.node_skipped w fun hX => hw ⟨hX, hwv⟩

theorem enterScheduled (h : Consistent p S D E X t) (hv : v ∈ X)
    (hready : ReadyIn p.graph t.edgeState v) : Consistent p (insert v S) D E (X \ {v}) t := by
  obtain ⟨hS, hs, hb⟩ := h.fresh v hv
  refine { h with
    scheduled := fun w hr hw => ?_
    node_skipped := fun w hw => ?_
    fresh := fun w hw => ?_
    done_scheduled := fun w hw => .inr (h.done_scheduled hw)
    live := ?_
    taken_scheduled := fun w hw => .inr (h.taken_scheduled w hw) }
  · by_cases hwv : w = v
    · subst hwv
      exact iff_of_true (.inl rfl) hready
    · rw [Set.mem_insert_iff, or_iff_right hwv]
      exact h.scheduled w hr fun hX => hw ⟨hX, hwv⟩
  · by_cases hwv : w = v
    · subst hwv
      refine iff_of_false hs ?_
      rintro (hi | ha)
      · obtain ⟨-, e, he, -⟩ := hready
        rw [(p.initial_source w hi).2] at he
        cases he
      · exact hready.not_allSkipped ha
    · exact h.node_skipped w fun hX => hw ⟨hX, hwv⟩
  · obtain ⟨hwS, hwr⟩ := h.fresh w hw.1
    exact ⟨fun hm => hm.elim hw.2 hwS, hwr⟩
  · rintro w (rfl | hw)
    · exact .inr hb
    · exact h.live w hw

/-- The state of a scheduled node may change freely as long as it is not skipped. -/
theorem setNode (h : Consistent p S D E X t) (hv : v ∈ S) {s : NodeState}
    (hs : s ≠ .skipped) : Consistent p S D E X (t.setNode v s) := by
  have hns := h.not_skipped hv
  have hiff : ∀ w, (t.setNode v s).nodeState w = .skipped ↔ t.nodeState w = .skipped := by
    intro w
    by_cases hw : w = v
    · subst hw
      rw [Tracking.setNode_nodeState, Function.update_self]
      exact iff_of_false hs hns
    · rw [Tracking.setNode_nodeState, Function.update_of_ne hw]
  refine { h with
    skipped := fun e he hE hk => h.skipped e he hE ((hiff _).mp hk)
    idle := fun e he hD hk => h.idle e he hD fun hk' => hk ((hiff _).mpr hk')
    pending_live := fun e he => ?_
    node_skipped := fun w hw => (hiff w).trans (h.node_skipped w hw)
    fresh := fun w hw => ?_
    skipped_live := fun w hw => h.skipped_live w ((hiff w).mp hw)
    taken_scheduled := fun w hw => ?_ }
  · obtain ⟨hm, hl⟩ := h.pending_live e he
    exact ⟨hm, hl.imp_right (hiff _).mpr⟩
  · obtain ⟨hS, hk, hb⟩ := h.fresh w hw
    exact ⟨hS, fun hk' => hk ((hiff w).mp hk'), hb⟩
  · by_cases hwv : w = v
    · exact hwv ▸ hv
    · rw [Tracking.setNode_nodeState, Function.update_of_ne hwv] at hw
      exact h.taken_scheduled w hw

/-- An open node whose incoming edges are all skipped becomes skipped; its outgoing edges
become pending. -/
theorem skip (h : Consistent p S D E X t) (hv : v ∈ X) (ha : AllSkipped p.graph t.edgeState v) :
    Consistent p S D (E ∪ {e | e ∈ p.graph.outgoing v}) (X \ {v}) (t.markNodeSkipped v) := by
  obtain ⟨hS, hs, hb⟩ := h.fresh v hv
  have hself : (t.markNodeSkipped v).nodeState v = .skipped := Function.update_self ..
  have hne : ∀ w, w ≠ v → (t.markNodeSkipped v).nodeState w = t.nodeState w := fun w hw =>
    Function.update_of_ne hw _ _
  have hvD : v ∉ D := fun hD => hS (h.done_scheduled hD)
  have htail : ∀ e ∈ p.graph.edges, e ∉ E ∪ {e | e ∈ p.graph.outgoing v} → e.tail ≠ v :=
    fun e he hE ht => hE (.inr (Graph.mem_outgoing.mpr ⟨he, ht⟩))
  refine ⟨?_, ?_, ?_, ?_, ?_, ?_, ?_, ?_, h.done_scheduled, h.live, ?_, ?_⟩
  · rintro e he (hE | hout)
    · exact h.pending e he hE
    · obtain ⟨-, rfl⟩ := Graph.mem_outgoing.mp hout
      exact h.idle e he hvD hs
  · exact fun e he hE hD => h.done e he (fun hE' => hE (.inl hE')) hD
  · intro e he hE hk
    rw [hne _ (htail e he hE)] at hk
    exact h.skipped e he (fun hE' => hE (.inl hE')) hk
  · intro e he hD hk
    by_cases ht : e.tail = v
    · exact absurd (by rw [ht, hself]) hk
    · rw [hne _ ht] at hk
      exact h.idle e he hD hk
  · rintro e (hE | hout)
    · obtain ⟨hm, hD | hk⟩ := h.pending_live e hE
      · exact ⟨hm, .inl hD⟩
      · by_cases ht : e.tail = v
        · exact ⟨hm, .inr (by rw [ht, hself])⟩
        · exact ⟨hm, .inr (by rw [hne _ ht, hk])⟩
    · obtain ⟨hm, ht⟩ := Graph.mem_outgoing.mp hout
      exact ⟨hm, .inr (by rw [ht, hself])⟩
  · intro w hr hw
    by_cases hwv : w = v
    · subst hwv
      exact iff_of_false hS fun hready => hready.not_allSkipped ha
    · exact h.scheduled w hr fun hX => hw ⟨hX, hwv⟩
  · intro w hw
    by_cases hwv : w = v
    · subst hwv
      exact iff_of_true hself (.inr ha)
    · rw [hne w hwv]
      exact h.node_skipped w fun hX => hw ⟨hX, hwv⟩
  · rintro w ⟨hw, hwv⟩
    rw [hne w hwv]
    exact h.fresh w hw
  · intro w hw
    by_cases hwv : w = v
    · exact hwv ▸ hb
    · rw [hne w hwv] at hw
      exact h.skipped_live w hw
  · intro w hw
    by_cases hwv : w = v
    · rw [hwv, hself] at hw
      cases hw
    · rw [hne w hwv] at hw
      exact h.taken_scheduled w hw

theorem complete (h : Consistent p S D E X t) {u : NodeId} (hS : u ∈ S) (hD : u ∉ D) :
    Consistent p S (insert u D) (E ∪ {e | e ∈ p.graph.outgoing u}) X t := by
  have hns := h.not_skipped hS
  refine { h with
    pending := ?_
    done := fun e he hE hd => ?_
    skipped := fun e he hE hk => h.skipped e he (fun hE' => hE (.inl hE')) hk
    idle := fun e he hd hk => h.idle e he (fun hd' => hd (.inr hd')) hk
    pending_live := ?_
    done_scheduled := ?_ }
  · rintro e he (hE | hout)
    · exact h.pending e he hE
    · obtain ⟨-, rfl⟩ := Graph.mem_outgoing.mp hout
      exact h.idle e he hD hns
  · rcases hd with ht | hd
    · exact absurd (.inr (Graph.mem_outgoing.mpr ⟨he, ht⟩)) hE
    · exact h.done e he (fun hE' => hE (.inl hE')) hd
  · rintro e (hE | hout)
    · obtain ⟨hm, hl⟩ := h.pending_live e hE
      exact ⟨hm, hl.imp_left .inr⟩
    · obtain ⟨hm, ht⟩ := Graph.mem_outgoing.mp hout
      exact ⟨hm, .inl (.inl ht)⟩
  · rintro w (rfl | hw)
    · exact hS
    · exact h.done_scheduled hw

theorem congr (h : Consistent p S D E X t) {t' : Tracking}
    (hn : ∀ v, t'.nodeState v = t.nodeState v)
    (he : ∀ e ∈ p.graph.edges, t'.edgeState e.id = t.edgeState e.id) :
    Consistent p S D E X t' := by
  have hin : ∀ v, ∀ e ∈ p.graph.incoming v, t'.edgeState e.id = t.edgeState e.id :=
    fun v e hv => he e (Graph.mem_incoming.mp hv).1
  refine { h with
    pending := fun e hm hE => (he e hm).trans (h.pending e hm hE)
    done := fun e hm hE hD => (he e hm).trans (h.done e hm hE hD)
    skipped := fun e hm hE hs => (he e hm).trans (h.skipped e hm hE ((hn _).symm.trans hs))
    idle := fun e hm hD hs => (he e hm).trans (h.idle e hm hD fun hs' => hs ((hn _).trans hs'))
    pending_live := fun e hE => ?_
    scheduled := fun v hr hX => ?_
    node_skipped := fun v hX => ?_
    fresh := fun v hX => ?_
    skipped_live := fun v hs => h.skipped_live v ((hn v).symm.trans hs)
    taken_scheduled := fun v hs => h.taken_scheduled v ((hn v).symm.trans hs) }
  · obtain ⟨hm, hl⟩ := h.pending_live e hE
    exact ⟨hm, hl.imp_right (hn _).trans⟩
  · rw [h.scheduled v hr hX, readyIn_congr (hin v)]
  · rw [hn, h.node_skipped v hX, allSkipped_congr (hin v)]
  · rw [hn]
    exact h.fresh v hX

theorem of_states (h : Consistent p S D E X t) {t' : Tracking}
    (hn : t'.nodeState = t.nodeState) (he : t'.edgeState = t.edgeState) :
    Consistent p S D E X t' :=
  h.congr (fun v => congrFun hn v) fun e _ => congrFun he e.id

theorem addRoot (h : Consistent p S D E X t) : Consistent p (insert p.graph.root S) D E X t := by
  refine { h with
    scheduled := fun v hr hv => ?_
    fresh := fun v hv => ?_
    done_scheduled := fun v hv => .inr (h.done_scheduled hv)
    live := ?_
    taken_scheduled := fun v hv => .inr (h.taken_scheduled v hv) }
  · rw [Set.mem_insert_iff, or_iff_right hr]
    exact h.scheduled v hr hv
  · obtain ⟨hS, hs, hb⟩ := h.fresh v hv
    refine ⟨?_, hs, hb⟩
    rintro (rfl | hv')
    · exact p.root_not_below hb
    · exact hS hv'
  · rintro v (rfl | hv)
    · exact .inl rfl
    · exact h.live v hv

theorem schedule (h : Consistent p S D E X t) (hv : v ∈ X)
    (hready : ReadyIn p.graph t.edgeState v) :
    Consistent p (insert v S) D E (X \ {v}) (t.schedule v) :=
  ((h.enterScheduled hv hready).setNode (.inl rfl) (s := .taken) (by simp)).of_states rfl rfl

end Consistent
end PlatformSpec.Scheduling
