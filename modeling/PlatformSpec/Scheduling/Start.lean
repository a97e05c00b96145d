import PlatformSpec.Engine.System
import PlatformSpec.Scheduling.Propagation

/-!
# The plan of a graph and its initial states

The branches of a graph and the handles they select give a plan. The marking of inactive
roots in `Graph.init` is skip propagation on an untouched graph, so it ends consistent
with that plan and schedules nothing.
-/

namespace PlatformSpec.Scheduling

open Relation Workflow Engine PlatformSpec.Runtime

/-- The edges a completed node selects: all of them, or those carrying the handle of a
branch. -/
def selects (g : Graph) (handles : NodeId → String) (e : Edge) : Bool :=
  g.executionType e.tail ≠ .branch || e.sourceHandle = handles e.tail

/-- Strictly below the root, or below an inactive root. -/
def Below (g : Graph) (v : NodeId) : Prop :=
  TransGen g.Step g.root v ∨ ∃ r ∈ inactiveRoots g, ReflTransGen g.Step r v

/-- Inactive roots are top-level roots other than the active one, and there are none unless
the active root is a top-level root. -/
theorem mem_inactiveRoots {g : Graph} {r : NodeId} (h : r ∈ inactiveRoots g) :
    r ≠ g.root ∧ g.incoming r = [] ∧ g.incoming g.root = [] ∧ r ∈ g.nodes.map Node.id := by
  unfold inactiveRoots at h
  simp only at h
  split at h
  next => cases h
  next hc =>
    have hroot : g.root ∈ (g.nodes.filter fun n => n.executionType = .root).map Node.id := by
      by_contra hno
      exact hc (by simp only [hno, not_false_eq_true, decide_true, Bool.or_true])
    obtain ⟨hm, hne⟩ := List.mem_filter.mp h
    have hsource : ∀ v ∈ (g.nodes.filter fun n => n.executionType = .root).map Node.id,
        g.incoming v = [] := by
      intro v hv
      obtain ⟨n, hn, rfl⟩ := List.mem_map.mp hv
      obtain ⟨hn, ht⟩ := List.mem_filter.mp hn
      refine List.eq_nil_iff_forall_not_mem.mpr fun e he => ?_
      obtain ⟨hem, heh⟩ := Graph.mem_incoming.mp he
      exact g.root_source n hn (of_decide_eq_true ht) e hem heh
    refine ⟨of_decide_eq_true hne, hsource r hm, hsource _ hroot, ?_⟩
    · obtain ⟨n, hn, rfl⟩ := List.mem_map.mp hm
      exact List.mem_map_of_mem (List.mem_filter.mp hn).1

theorem root_not_below {g : Graph} (hg : g.Acyclic) : ¬ Below g g.root := by
  rintro (h | ⟨r, hr, h⟩)
  · exact hg _ h
  · obtain ⟨hne, -, hroot, -⟩ := mem_inactiveRoots hr
    rcases h.cases_tail with he | ⟨u, -, e, he, -, hh⟩
    · exact hne he.symm
    · have : e ∈ g.incoming g.root := Graph.mem_incoming.mpr ⟨he, hh⟩
      rw [hroot] at this
      cases this

/-- The plan of an acyclic graph for given branch handles. -/
def planOf (g : Graph) (hg : g.Acyclic) (handles : NodeId → String) : Plan where
  graph := g
  initial v := v ∈ inactiveRoots g
  selected := selects g handles
  below := Below g
  root_not_below := root_not_below hg
  closed := by
    rintro e he (ht | hb | ⟨r, hr, hb⟩)
    · exact .inl (.single ⟨e, he, ht, rfl⟩)
    · exact .inl (hb.tail ⟨e, he, rfl, rfl⟩)
    · exact .inr ⟨r, hr, hb.tail ⟨e, he, rfl, rfl⟩⟩
  initial_source := fun v hv => ⟨.inr ⟨v, hv, .refl⟩, (mem_inactiveRoots hv).2.1⟩

section Marking

variable {p : Plan}

theorem not_taken {S X : Set NodeId} {E : Set Edge} {t : Tracking}
    (h : Consistent p S ∅ E X t) {e : Edge} (he : e ∈ p.graph.edges) :
    t.edgeState e.id = .unknown ∨ t.edgeState e.id = .skipped := by
  by_cases hE : e ∈ E
  · exact .inl (h.pending e he hE)
  · by_cases hs : t.nodeState e.tail = .skipped
    · exact .inr (h.skipped e he hE hs)
    · exact .inl (h.idle e he (Set.notMem_empty _) hs)

private theorem markEach_spec {visit : NodeId → Tracking → Tracking} (es : List Edge)
    (hvisit : ∀ e ∈ es, ∀ (E : Set Edge) (t : Tracking),
      Consistent p ∅ ∅ (E ∪ {f | f ∈ p.graph.outgoing e.head}) ∅ t →
      (∀ f ∈ p.graph.outgoing e.head, f ∉ E) → t.nodeState e.head = .skipped →
      Advance p.graph ∅ t (visit e.head t) [] ∧ Consistent p ∅ ∅ E ∅ (visit e.head t)) :
    ∀ (E : Set Edge) (t : Tracking), Consistent p ∅ ∅ E ∅ t → es.Nodup → (∀ e ∈ es, e ∈ E) →
      Advance p.graph ∅ t (markEach p.graph visit es t) [] ∧
        Consistent p ∅ ∅ (E \ {e | e ∈ es}) ∅ (markEach p.graph visit es t) := by
  induction es with
  | nil =>
    intro E t h _ _
    exact ⟨.refl, by simpa [markEach] using h⟩
  | cons e es ih =>
    intro E t h hnd hE
    obtain ⟨hnotin, hnd'⟩ := List.nodup_cons.mp hnd
    have he := hE e (by simp)
    have hem := (h.pending_live e he).1
    have hin : e ∈ p.graph.incoming e.head := Graph.mem_incoming.mpr ⟨hem, rfl⟩
    have hmark := h.mark he (s := .skipped) (fun hd => absurd hd (Set.notMem_empty _))
      (fun _ => rfl)
    have hdiff : (insert e.head (∅ : Set NodeId)) \ {e.head} = ∅ := by simp
    have hE' : ∀ f ∈ es, f ∈ E \ {e} := fun f hf =>
      ⟨hE f (by simp [hf]), fun hfe => hnotin (hfe ▸ hf)⟩
    have hEq : E \ {f | f ∈ e :: es} = (E \ {e}) \ {f | f ∈ es} := by
      ext f
      simp [and_assoc]
    have hadv : Advance p.graph ∅ t (t.markEdgeSkipped e.id) [] := .setEdge _ _
    have ih' := ih fun f hf => hvisit f (by simp [hf])
    rw [hEq]
    unfold markEach
    simp only []
    by_cases hall : ∀ f ∈ p.graph.incoming e.head,
        (t.markEdgeSkipped e.id).edgeState f.id = .skipped
    · have hcond : ((p.graph.incoming e.head).all fun f =>
          (t.markEdgeSkipped e.id).edgeState f.id = .skipped) = true := by simpa using hall
      rw [if_pos hcond]
      have hskip := hmark.skip (.inl rfl) ⟨List.ne_nil_of_mem hin, hall⟩
      rw [hdiff] at hskip
      have hfresh := (hmark.fresh e.head (.inl rfl)).2.1
      have hout : ∀ f ∈ p.graph.outgoing e.head, f ∉ E \ {e} := by
        intro f hf hfE
        rcases (hmark.pending_live f hfE).2 with hd | hs
        · exact absurd hd (Set.notMem_empty _)
        · exact hfresh ((Graph.mem_outgoing.mp hf).2 ▸ hs)
      obtain ⟨hadv', hcons⟩ := hvisit e (by simp) _ _ hskip hout (Function.update_self ..)
      obtain ⟨hadv'', hcons'⟩ := ih' _ _ hcons hnd' hE'
      have hmid : Advance p.graph ∅ (t.markEdgeSkipped e.id)
          ((t.markEdgeSkipped e.id).markNodeSkipped e.head) [] :=
        .of_unscheduled rfl rfl rfl fun v hv => absurd hv (Set.notMem_empty _)
      exact ⟨((hadv.trans_nil hmid).trans_nil hadv').trans_nil hadv'', hcons'⟩
    · have hcond : ((p.graph.incoming e.head).all fun f =>
          (t.markEdgeSkipped e.id).edgeState f.id = .skipped) = false := by
        refine Bool.eq_false_iff.mpr fun hc => hall ?_
        simpa using hc
      rw [if_neg (by rw [hcond]; simp)]
      obtain ⟨f, hf, hfs⟩ : ∃ f ∈ p.graph.incoming e.head,
          (t.markEdgeSkipped e.id).edgeState f.id ≠ .skipped := by
        by_contra hno
        exact hall fun f hf => not_not.mp fun hfs => hno ⟨f, hf, hfs⟩
      have hunk := (not_taken hmark (Graph.mem_incoming.mp hf).1).resolve_right hfs
      have hset := hmark.settle (.inl rfl) hf hunk
      rw [hdiff] at hset
      obtain ⟨hadv', hcons⟩ := ih' _ _ hset hnd' hE'
      exact ⟨hadv.trans_nil hadv', hcons⟩

private theorem markDownstream_spec {ht : NodeId → Nat}
    (hht : ∀ e ∈ p.graph.edges, ht e.head < ht e.tail) (fuel : Nat) :
    ∀ v, ht v < fuel → ∀ (E : Set Edge) (t : Tracking),
      Consistent p ∅ ∅ (E ∪ {f | f ∈ p.graph.outgoing v}) ∅ t →
      (∀ f ∈ p.graph.outgoing v, f ∉ E) → t.nodeState v = .skipped →
      Advance p.graph ∅ t (markDownstream p.graph fuel v t) [] ∧
        Consistent p ∅ ∅ E ∅ (markDownstream p.graph fuel v t) := by
  induction fuel with
  | zero =>
    intro v hlt
    omega
  | succ fuel ih =>
    intro v hlt E t h hout hs
    unfold markDownstream
    rw [if_neg (not_not.mpr hs)]
    have hE : (E ∪ {f | f ∈ p.graph.outgoing v}) \ {f | f ∈ p.graph.outgoing v} = E := by
      ext f
      simp only [Set.mem_sdiff, Set.mem_union, Set.mem_ofPred_eq]
      exact ⟨fun hf => hf.1.resolve_right hf.2, fun hf => ⟨.inl hf, fun hfo => hout f hfo hf⟩⟩
    have hspec := markEach_spec (p.graph.outgoing v) (fun e he => ih e.head (by
      obtain ⟨hem, het⟩ := Graph.mem_outgoing.mp he
      have := hht e hem
      rw [het] at this
      omega)) _ t h (p.graph.outgoing_nodup v) fun e he => .inr he
    rwa [hE] at hspec

end Marking

section Initial

variable {g : Graph} (hg : g.Acyclic) (handles : NodeId → String)

private theorem foldl_markNodeSkipped (l : List NodeId) (t : Tracking) :
    (l.foldl Tracking.markNodeSkipped t).edgeState = t.edgeState ∧
    (∀ v, (l.foldl Tracking.markNodeSkipped t).nodeState v =
      if v ∈ l then .skipped else t.nodeState v) ∧
    Advance g ∅ t (l.foldl Tracking.markNodeSkipped t) [] := by
  induction l generalizing t with
  | nil => exact ⟨rfl, fun v => by simp, .refl⟩
  | cons a l ih =>
    obtain ⟨he, hn, hadv⟩ := ih (t.markNodeSkipped a)
    refine ⟨he, fun v => ?_, Advance.trans_nil ?_ hadv⟩
    · rw [List.foldl_cons, hn]
      by_cases hv : v ∈ l
      · simp [hv]
      · by_cases hva : v = a
        · subst hva
          simp [Tracking.markNodeSkipped]
        · simp [hv, hva, Tracking.markNodeSkipped]
    · exact .of_unscheduled rfl rfl rfl fun v hv => absurd hv (Set.notMem_empty _)

private theorem consistent_roots :
    Consistent (planOf g hg handles) ∅ ∅
      {e | e ∈ g.edges ∧ e.tail ∈ inactiveRoots g} ∅
      ((inactiveRoots g).foldl Tracking.markNodeSkipped .fresh) := by
  obtain ⟨he, hn, -⟩ := foldl_markNodeSkipped (g := g) (inactiveRoots g) .fresh
  have hedge : ∀ id, ((inactiveRoots g).foldl Tracking.markNodeSkipped .fresh).edgeState id =
      .unknown := fun id => by rw [he]; rfl
  have hnode : ∀ v, ((inactiveRoots g).foldl Tracking.markNodeSkipped .fresh).nodeState v =
      .skipped ↔ v ∈ inactiveRoots g := by
    intro v
    rw [hn]
    by_cases hv : v ∈ inactiveRoots g
    · simp [hv]
    · simp [hv, Tracking.fresh]
  refine ⟨fun e _ _ => hedge _, ?_, ?_, fun e _ _ _ => hedge _, ?_, ?_, ?_, ?_, ?_, ?_, ?_, ?_⟩
  · exact fun e _ _ hd => absurd hd (Set.notMem_empty _)
  · exact fun e hm hE hs => absurd ⟨hm, (hnode _).mp hs⟩ hE
  · exact fun e hE => ⟨hE.1, .inr ((hnode _).mpr hE.2)⟩
  · intro v _ _
    refine iff_of_false (Set.notMem_empty v) ?_
    rintro ⟨-, e, -, ht⟩
    rw [hedge] at ht
    cases ht
  · intro v _
    rw [hnode]
    refine ⟨.inl, ?_⟩
    rintro (hi | ⟨hne, hs⟩)
    · exact hi
    · obtain ⟨e, hem⟩ := List.exists_mem_of_ne_nil _ hne
      have := hs e hem
      rw [hedge] at this
      cases this
  · exact fun v hv => absurd hv (Set.notMem_empty _)
  · exact fun v hv => hv
  · exact fun v hv => absurd hv (Set.notMem_empty _)
  · exact fun v hv => .inr ⟨v, (hnode v).mp hv, .refl⟩
  · intro v hv
    rw [hn] at hv
    split at hv
    next => cases hv
    next => cases hv

/-- The initial states of a graph are consistent and nothing is scheduled in them. -/
theorem initialTracking_spec :
    Consistent (planOf g hg handles) ∅ ∅ ∅ ∅ (initialTracking g) ∧
      Advance g ∅ .fresh (initialTracking g) [] := by
  obtain ⟨ht, hht, hle⟩ := Graph.exists_height hg
  have hstart := consistent_roots hg handles
  obtain ⟨-, -, hadv⟩ := foldl_markNodeSkipped (g := g) (inactiveRoots g) .fresh
  unfold initialTracking
  simp only []
  -- Going through the roots in turn, the edges of the remaining ones stay pending.
  suffices h : ∀ (l : List NodeId) (t : Tracking), (∀ r ∈ l, r ∈ inactiveRoots g) → l.Nodup →
      Consistent (planOf g hg handles) ∅ ∅ {e | e ∈ g.edges ∧ e.tail ∈ l} ∅ t →
      Consistent (planOf g hg handles) ∅ ∅ ∅ ∅
        (l.foldl (fun t id => markDownstream g (g.nodes.length + 1) id t) t) ∧
      Advance g ∅ t (l.foldl (fun t id => markDownstream g (g.nodes.length + 1) id t) t) [] by
    have hnd : (inactiveRoots g).Nodup := by
      have hsub : ((g.nodes.filter fun n => n.executionType = .root).map Node.id).Nodup :=
        g.nodes_nodup.sublist (List.filter_sublist.map _)
      unfold inactiveRoots
      simp only []
      split
      next => exact .nil
      next => exact hsub.filter _
    obtain ⟨hc, hadv'⟩ := h _ _ (fun r hr => hr) hnd hstart
    exact ⟨hc, hadv.trans_nil hadv'⟩
  intro l
  induction l with
  | nil =>
    intro t _ _ h
    have hE : ({e | e ∈ g.edges ∧ e.tail ∈ ([] : List NodeId)} : Set Edge) = ∅ := by
      ext e
      simp
    rw [hE] at h
    exact ⟨h, .refl⟩
  | cons r l ih =>
    intro t hl hnd h
    obtain ⟨hrl, hnd'⟩ := List.nodup_cons.mp hnd
    have hE : ({e | e ∈ g.edges ∧ e.tail ∈ r :: l} : Set Edge) =
        {e | e ∈ g.edges ∧ e.tail ∈ l} ∪ {f | f ∈ g.outgoing r} := by
      ext e
      simp only [Set.mem_ofPred_eq, Set.mem_union, List.mem_cons, Graph.mem_outgoing]
      tauto
    rw [hE] at h
    have hskip : t.nodeState r = .skipped :=
      (h.node_skipped r (Set.notMem_empty _)).mpr (.inl (hl r (by simp)))
    have hout : ∀ f ∈ g.outgoing r, f ∉ ({e | e ∈ g.edges ∧ e.tail ∈ l} : Set Edge) :=
      fun f hf hfl => hrl ((Graph.mem_outgoing.mp hf).2 ▸ hfl.2)
    have hlt : ht r < g.nodes.length + 1 := Nat.lt_succ_of_le (hle r)
    obtain ⟨hadv', hc⟩ := markDownstream_spec (p := planOf g hg handles) hht
      (g.nodes.length + 1) r hlt _ t h hout hskip
    obtain ⟨hc', hadv''⟩ := ih _ (fun v hv => hl v (by simp [hv])) hnd' hc
    exact ⟨hc', hadv'.trans_nil hadv''⟩

end Initial
end PlatformSpec.Scheduling
