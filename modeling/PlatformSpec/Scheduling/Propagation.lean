import PlatformSpec.Engine.Traversal
import PlatformSpec.Scheduling.Consistency

/-!
# What a completion does to the schedule

Skip propagation and edge processing, as steps between consistent states. Each lemma says
which nodes were scheduled, that none of them was scheduled before, that each was ready at
its own moment, and that everything else about scheduled nodes is unchanged.
-/

namespace PlatformSpec.Scheduling

open Workflow Engine PlatformSpec.Runtime Response

/-- From `t` to `t'` exactly the nodes `L` were scheduled, in this order. -/
structure Advance (g : Graph) (S : Set NodeId) (t t' : Tracking) (L : List NodeId) : Prop where
  nodup : L.Nodup
  disjoint : ∀ v ∈ L, v ∉ S
  readyQueue : t'.readyQueue = t.readyQueue ++ L
  executing : t'.executingNodes = t.executingNodes ∪ L.toFinset
  history : ∃ H, t'.history = t.history ++ H ∧ H.map EnqueueRecord.node = L ∧
    ∀ r ∈ H, ReadyIn g r.edgeState r.node
  taken : ∀ v ∈ L, t'.nodeState v = .taken
  frame : ∀ v ∈ S, t'.nodeState v = t.nodeState v

namespace Advance

variable {g : Graph} {S : Set NodeId} {t t' t'' : Tracking} {L L' : List NodeId}

theorem of_unscheduled (hq : t'.readyQueue = t.readyQueue)
    (hx : t'.executingNodes = t.executingNodes) (hh : t'.history = t.history)
    (hf : ∀ v ∈ S, t'.nodeState v = t.nodeState v) : Advance g S t t' [] where
  nodup := .nil
  disjoint := by simp
  readyQueue := by simp [hq]
  executing := by simp [hx]
  history := ⟨[], by simp [hh]⟩
  taken := by simp
  frame := hf

theorem refl : Advance g S t t [] := of_unscheduled rfl rfl rfl fun _ _ => rfl

theorem setEdge (id : EdgeId) (s : NodeState) : Advance g S t (t.setEdge id s) [] :=
  of_unscheduled rfl rfl rfl fun _ _ => rfl

theorem schedule {v : NodeId} (hv : v ∉ S) (hready : ReadyIn g t.edgeState v) :
    Advance g S t (t.schedule v) [v] where
  nodup := List.nodup_singleton v
  disjoint := by simpa using hv
  readyQueue := rfl
  executing := by
    ext w
    simp
  history := ⟨[⟨v, t.edgeState⟩], rfl, rfl, by simpa using hready⟩
  taken := by simp
  frame := by
    intro w hw
    have hne : w ≠ v := fun he => hv (he ▸ hw)
    rw [Tracking.schedule_nodeState, Function.update_of_ne hne]

theorem trans (h : Advance g S t t' L) (h' : Advance g (S ∪ {v | v ∈ L}) t' t'' L') :
    Advance g S t t'' (L ++ L') where
  nodup := by
    refine h.nodup.append h'.nodup fun v hv hv' => ?_
    exact h'.disjoint v hv' (.inr hv)
  disjoint := by
    intro v hv
    rcases List.mem_append.mp hv with hv | hv
    · exact h.disjoint v hv
    · exact fun hS => h'.disjoint v hv (.inl hS)
  readyQueue := by rw [h'.readyQueue, h.readyQueue, List.append_assoc]
  executing := by rw [h'.executing, h.executing, List.toFinset_append, Finset.union_assoc]
  history := by
    obtain ⟨H, hH, hm, hr⟩ := h.history
    obtain ⟨H', hH', hm', hr'⟩ := h'.history
    refine ⟨H ++ H', by rw [hH', hH, List.append_assoc], by simp [hm, hm'], ?_⟩
    intro r hr''
    rcases List.mem_append.mp hr'' with hr'' | hr''
    · exact hr r hr''
    · exact hr' r hr''
  taken := by
    intro v hv
    rcases List.mem_append.mp hv with hv | hv
    · rw [h'.frame v (.inr hv)]
      exact h.taken v hv
    · exact h'.taken v hv
  frame := fun v hv => (h'.frame v (.inl hv)).trans (h.frame v hv)

theorem trans_nil (h : Advance g S t t' []) (h' : Advance g S t' t'' L) :
    Advance g S t t'' L := by
  have hS : S ∪ {v | v ∈ ([] : List NodeId)} = S := by simp
  have hrest : Advance g (S ∪ {v | v ∈ ([] : List NodeId)}) t' t'' L := by
    rw [hS]
    exact h'
  exact h.trans hrest

end Advance

section Propagation

variable {p : Plan} {D : Set NodeId}

private theorem analyze_hasUnknown (t : Tracking) (es : List Edge) :
    (t.analyzeEdgeStates es).hasUnknown = true ↔ ∃ e ∈ es, t.edgeState e.id = .unknown := by
  simp [Tracking.analyzeEdgeStates]

private theorem analyze_hasTaken (t : Tracking) (es : List Edge) :
    (t.analyzeEdgeStates es).hasTaken = true ↔ ∃ e ∈ es, t.edgeState e.id = .taken := by
  simp [Tracking.analyzeEdgeStates]

private theorem analyze_allSkipped (t : Tracking) (es : List Edge) :
    (t.analyzeEdgeStates es).allSkipped = true ↔ ∀ e ∈ es, t.edgeState e.id = .skipped := by
  simp [Tracking.analyzeEdgeStates]

private theorem skipEach_spec {visit : Edge → Tracking → Outcome Tracking} (es : List Edge)
    (hvisit : ∀ e ∈ es, ∀ (S : Set NodeId) (E : Set Edge) (t : Tracking),
      Consistent p S D E {e.head} t → t.edgeState e.id = .skipped →
      ∃ L t', visit e t = (t', none) ∧ Advance p.graph S t t' L ∧
        Consistent p (S ∪ {v | v ∈ L}) D E ∅ t') :
    ∀ (S : Set NodeId) (E : Set Edge) (t : Tracking), Consistent p S D E ∅ t → es.Nodup →
      (∀ e ∈ es, e ∈ E) →
      (∀ e ∈ es, (e.tail ∈ D → p.pick e = .skipped)) →
      ∃ L t', skipEach visit es t = (t', none) ∧ Advance p.graph S t t' L ∧
        Consistent p (S ∪ {v | v ∈ L}) D (E \ {e | e ∈ es}) ∅ t' := by
  induction es with
  | nil =>
    intro S E t h _ _ _
    exact ⟨[], t, rfl, .refl, by simpa using h⟩
  | cons e es ih =>
    intro S E t h hnd hE hpick
    obtain ⟨hnotin, hnd'⟩ := List.nodup_cons.mp hnd
    have hmark := h.mark (hE e (by simp)) (s := .skipped)
      (fun hd => (hpick e (by simp) hd).symm) (fun _ => rfl)
    rw [insert_empty_eq] at hmark
    obtain ⟨L, t₁, hrun, hadv, hcons⟩ := hvisit e (by simp) S _ _ hmark (Function.update_self ..)
    have hE' : ∀ f ∈ es, f ∈ E \ {e} := fun f hf =>
      ⟨hE f (by simp [hf]), fun hfe => hnotin (hfe ▸ hf)⟩
    obtain ⟨L', t₂, hrun', hadv', hcons'⟩ := ih (fun f hf => hvisit f (by simp [hf])) _ _ _ hcons
      hnd' hE' fun f hf => hpick f (by simp [hf])
    refine ⟨L ++ L', t₂, ?_, ((Advance.setEdge _ _).trans_nil hadv).trans hadv', ?_⟩
    · rw [skipEach, Tracking.markEdgeSkipped, hrun, Outcome.andThen_none]
      exact hrun'
    · have hS : S ∪ {v | v ∈ L ++ L'} = S ∪ {v | v ∈ L} ∪ {v | v ∈ L'} := by
        ext v
        simp [or_assoc]
      have hEq : E \ {f | f ∈ e :: es} = (E \ {e}) \ {f | f ∈ es} := by
        ext f
        simp [and_assoc]
      rw [hS, hEq]
      exact hcons'

private theorem propagate_spec {ht : NodeId → Nat}
    (hht : ∀ e ∈ p.graph.edges, ht e.head < ht e.tail) (fuel : Nat) :
    ∀ e ∈ p.graph.edges, ht e.head < fuel →
    ∀ (S : Set NodeId) (E : Set Edge) (t : Tracking), Consistent p S D E {e.head} t →
      t.edgeState e.id = .skipped →
      ∃ L t', propagateSkipFromEdge p.graph fuel e t = (t', none) ∧
        Advance p.graph S t t' L ∧ Consistent p (S ∪ {v | v ∈ L}) D E ∅ t' := by
  induction fuel with
  | zero =>
    intro e _ hlt
    omega
  | succ fuel ih =>
    intro e he hlt S E t h hes
    have hin : e ∈ p.graph.incoming e.head := Graph.mem_incoming.mpr ⟨he, rfl⟩
    have hdiff : ({e.head} : Set NodeId) \ {e.head} = ∅ := by simp
    unfold propagateSkipFromEdge
    simp only []
    by_cases hu : ∃ f ∈ p.graph.incoming e.head, t.edgeState f.id = .unknown
    · rw [if_pos ((analyze_hasUnknown t _).mpr hu)]
      obtain ⟨f, hf, hfu⟩ := hu
      have hset := h.settle rfl hf hfu
      rw [hdiff] at hset
      exact ⟨[], t, rfl, .refl, by simpa using hset⟩
    · rw [if_neg (mt (analyze_hasUnknown t _).mp hu)]
      have hknown : ∀ f ∈ p.graph.incoming e.head, t.edgeState f.id ≠ .unknown :=
        fun f hf hfu => hu ⟨f, hf, hfu⟩
      by_cases htk : ∃ f ∈ p.graph.incoming e.head, t.edgeState f.id = .taken
      · rw [if_pos ((analyze_hasTaken t _).mpr htk)]
        have hready : ReadyIn p.graph t.edgeState e.head := ⟨hknown, htk⟩
        have hsch := h.schedule rfl hready
        rw [hdiff] at hsch
        refine ⟨[e.head], _, rfl, .schedule (h.fresh _ rfl).1 hready, ?_⟩
        have hS : S ∪ {v | v ∈ [e.head]} = insert e.head S := by
          ext v
          simp [or_comm]
        rw [hS]
        exact hsch
      · rw [if_neg (mt (analyze_hasTaken t _).mp htk)]
        have hne : p.graph.incoming e.head ≠ [] := List.ne_nil_of_mem hin
        have hall : AllSkipped p.graph t.edgeState e.head :=
          (readyIn_or_allSkipped hne hknown).resolve_left fun hr => htk hr.2
        rw [if_pos ((analyze_allSkipped t _).mpr hall.2)]
        have hskip := h.skip rfl hall
        rw [hdiff] at hskip
        have hheadD : e.head ∉ D := fun hD => (h.fresh _ rfl).1 (h.done_scheduled hD)
        have hout : ∀ f ∈ p.graph.outgoing e.head, f ∉ E := by
          intro f hf hfE
          obtain ⟨hfm, hft⟩ := Graph.mem_outgoing.mp hf
          rcases (h.pending_live f hfE).2 with hd | hs
          · exact hheadD (hft ▸ hd)
          · exact (h.fresh _ rfl).2.1 (hft ▸ hs)
        obtain ⟨L, t', hrun, hadv, hcons⟩ := skipEach_spec (p.graph.outgoing e.head)
          (fun f hf S E t hc hfs => ih f (Graph.mem_outgoing.mp hf).1 (by
            obtain ⟨hfm, hft⟩ := Graph.mem_outgoing.mp hf
            have := hht f hfm
            rw [hft] at this
            omega) S E t hc hfs) S _ _ hskip (p.graph.outgoing_nodup _) (fun f hf => .inr hf)
          (fun f hf hd => absurd ((Graph.mem_outgoing.mp hf).2 ▸ hd) hheadD)
        have hE : (E ∪ {f | f ∈ p.graph.outgoing e.head}) \ {f | f ∈ p.graph.outgoing e.head} =
            E := by
          ext f
          simp only [Set.mem_sdiff, Set.mem_union, Set.mem_ofPred_eq]
          exact ⟨fun hf => hf.1.resolve_right hf.2, fun hf => ⟨.inl hf, fun hfo => hout f hfo hf⟩⟩
        rw [hE] at hcons
        have hmid : Advance p.graph S t (t.markNodeSkipped e.head) [] := by
          refine .of_unscheduled rfl rfl rfl fun v hv => ?_
          have hve : v ≠ e.head := fun hve => (h.fresh _ rfl).1 (hve ▸ hv)
          exact Function.update_of_ne hve _ _
        exact ⟨L, t', hrun, hmid.trans_nil hadv, hcons⟩

theorem skipBranchPaths_spec (hg : p.graph.Acyclic) {S : Set NodeId} {E : Set Edge}
    {t : Tracking} (h : Consistent p S D E ∅ t) (es : List Edge) (hnd : es.Nodup)
    (hE : ∀ e ∈ es, e ∈ E) (hpick : ∀ e ∈ es, e.tail ∈ D → p.pick e = .skipped) :
    ∃ L t', skipBranchPaths p.graph es t = (t', none) ∧ Advance p.graph S t t' L ∧
      Consistent p (S ∪ {v | v ∈ L}) D (E \ {e | e ∈ es}) ∅ t' := by
  obtain ⟨ht, hht, hle⟩ := Graph.exists_height hg
  refine skipEach_spec es (fun e he S E t hc hes => ?_) S E t h hnd hE hpick
  refine propagate_spec hht _ e (h.pending_live e (hE e he)).1 ?_ S E t hc hes
  have := hle e.head
  omega

end Propagation

section Taken

variable {p : Plan} {S D : Set NodeId} (pool : VariablePool)

private theorem takeEdges_spec (es : List Edge) :
    ∀ (E : Set Edge) (x : EdgeResult), Consistent p S D E {v | v ∈ x.readyNodes} x.tracking →
      es.Nodup → (∀ e ∈ es, e ∈ E ∧ e.tail ∈ D ∧ p.pick e = .taken) → x.readyNodes.Nodup →
      (∀ v ∈ x.readyNodes, ReadyIn p.graph x.tracking.edgeState v) →
      Advance p.graph S x.tracking (es.foldl (processTakenEdge p.graph pool) x).tracking [] ∧
      Consistent p S D (E \ {e | e ∈ es})
        {v | v ∈ (es.foldl (processTakenEdge p.graph pool) x).readyNodes}
        (es.foldl (processTakenEdge p.graph pool) x).tracking ∧
      (es.foldl (processTakenEdge p.graph pool) x).readyNodes.Nodup ∧
      ∀ v ∈ (es.foldl (processTakenEdge p.graph pool) x).readyNodes,
        ReadyIn p.graph (es.foldl (processTakenEdge p.graph pool) x).tracking.edgeState v := by
  induction es with
  | nil =>
    intro E x h _ _ hnd hr
    exact ⟨.refl, by simpa using h, hnd, hr⟩
  | cons e es ih =>
    intro E x h hnd hes hrn hready
    obtain ⟨hnotin, hnd'⟩ := List.nodup_cons.mp hnd
    obtain ⟨heE, heD, hpick⟩ := hes e (by simp)
    have hem := (h.pending_live e heE).1
    have hin : e ∈ p.graph.incoming e.head := Graph.mem_incoming.mpr ⟨hem, rfl⟩
    have heu := h.pending e hem heE
    -- A collected node is ready, so it is not the head of an unknown edge.
    have hfresh : e.head ∉ x.readyNodes := fun hm => (hready _ hm).1 e hin heu
    have hmark := h.mark heE (s := .taken) (fun _ => hpick.symm) (fun hs => by
      exact absurd hs (h.not_skipped (h.done_scheduled heD)))
    have hkeep : ∀ v ∈ x.readyNodes,
        ReadyIn p.graph (x.tracking.setEdge e.id .taken).edgeState v := by
      intro v hv
      refine (readyIn_congr fun f hf => ?_).mp (hready v hv)
      obtain ⟨hfm, hfh⟩ := Graph.mem_incoming.mp hf
      refine (Function.update_of_ne (fun hid => hfresh ?_) _ _).symm
      rw [← p.graph.edge_ext hfm hem hid, hfh]
      exact hv
    have hrest : ∀ f ∈ es, f ∈ E \ {e} ∧ f.tail ∈ D ∧ p.pick f = .taken := by
      intro f hf
      obtain ⟨hfE, hfD⟩ := hes f (by simp [hf])
      exact ⟨⟨hfE, fun hfe => hnotin (hfe ▸ hf)⟩, hfD⟩
    have hEq : E \ {f | f ∈ e :: es} = (E \ {e}) \ {f | f ∈ es} := by
      ext f
      simp [and_assoc]
    have hadv : Advance p.graph S x.tracking (processTakenEdge p.graph pool x e).tracking [] :=
      Advance.setEdge e.id .taken
    rw [hEq, List.foldl_cons]
    by_cases hrdy : ReadyIn p.graph (x.tracking.setEdge e.id .taken).edgeState e.head
    · have hnodes : (processTakenEdge p.graph pool x e).readyNodes = x.readyNodes ++ [e.head] := by
        have := (Tracking.isNodeReady_iff (x.tracking.setEdge e.id .taken) p.graph
          (List.ne_nil_of_mem hin)).mpr hrdy
        simp only [processTakenEdge, Tracking.markEdgeTaken, this, ↓reduceIte]
      obtain ⟨h₁, h₂⟩ := ih (E \ {e}) (processTakenEdge p.graph pool x e) (by
          have hX : {v | v ∈ (processTakenEdge p.graph pool x e).readyNodes} =
              insert e.head {v | v ∈ x.readyNodes} := by
            ext v
            simp [hnodes, or_comm]
          rw [hX]
          exact hmark) hnd' hrest
        (by
          rw [hnodes]
          exact hrn.append (List.nodup_singleton _) (by simpa using hfresh))
        (by
          intro v hv
          rw [hnodes, List.mem_append, List.mem_singleton] at hv
          rcases hv with hv | rfl
          · exact hkeep v hv
          · exact hrdy)
      exact ⟨hadv.trans_nil h₁, h₂⟩
    · have hne : p.graph.incoming e.head ≠ [] := List.ne_nil_of_mem hin
      have hnodes : (processTakenEdge p.graph pool x e).readyNodes = x.readyNodes := by
        have := mt (Tracking.isNodeReady_iff (x.tracking.setEdge e.id .taken) p.graph hne).mp hrdy
        simp only [processTakenEdge, Tracking.markEdgeTaken, this, Bool.false_eq_true,
          ↓reduceIte, List.append_nil]
      -- The edge just taken rules out that all incoming edges are skipped.
      have hunk : ∃ f ∈ p.graph.incoming e.head,
          (x.tracking.setEdge e.id .taken).edgeState f.id = .unknown := by
        by_contra hno
        refine hrdy ⟨fun f hf hfu => hno ⟨f, hf, hfu⟩, e, hin, Function.update_self ..⟩
      obtain ⟨f, hf, hfu⟩ := hunk
      obtain ⟨h₁, h₂⟩ := ih (E \ {e}) (processTakenEdge p.graph pool x e) (by
          have hX : {v | v ∈ (processTakenEdge p.graph pool x e).readyNodes} =
              insert e.head {v | v ∈ x.readyNodes} \ {e.head} := by
            ext v
            simp only [hnodes, Set.mem_ofPred_eq, Set.mem_sdiff, Set.mem_insert_iff,
              Set.mem_singleton_iff]
            exact ⟨fun hv => ⟨.inr hv, fun hve => hfresh (hve ▸ hv)⟩,
              fun hv => hv.1.resolve_left hv.2⟩
          rw [hX]
          exact hmark.settle (.inl rfl) hf hfu) hnd' hrest (by rw [hnodes]; exact hrn)
        (by
          intro v hv
          rw [hnodes] at hv
          exact hkeep v hv)
      exact ⟨hadv.trans_nil h₁, h₂⟩

private theorem foldl_processSkippedEdge (es : List Edge) (x : EdgeResult)
    (h : ∀ e ∈ es, x.tracking.edgeState e.id = .skipped) :
    es.foldl processSkippedEdge x = x := by
  induction es with
  | nil => rfl
  | cons e es ih =>
    have he : processSkippedEdge x e = x := by
      obtain ⟨⟨ns, ed, q, ex, hist⟩, c, r, ev⟩ := x
      have hs : ed e.id = .skipped := h e (by simp)
      simp only [processSkippedEdge, Tracking.markEdgeSkipped, Tracking.setEdge, ← hs,
        Function.update_eq_self]
    rw [List.foldl_cons, he]
    exact ih fun f hf => h f (by simp [hf])

/-- What the edge processing of one completed node achieves: nothing was raised, `L` was
scheduled by skip propagation, and the nodes returned as ready are open, once each. -/
structure Completed (p : Plan) (S D : Set NodeId) (u : NodeId) (t : Tracking)
    (r : Outcome EdgeResult) (L : List NodeId) : Prop where
  returns : r.2 = none
  advance : Advance p.graph S t r.1.tracking L
  consistent : Consistent p (S ∪ {v | v ∈ L}) (insert u D) ∅ {v | v ∈ r.1.readyNodes}
    r.1.tracking
  nodup : r.1.readyNodes.Nodup
  ready : ∀ v ∈ r.1.readyNodes, ReadyIn p.graph r.1.tracking.edgeState v

theorem completed_nonBranch {x : EdgeResult} (hx : x.readyNodes = [])
    (h : Consistent p S D ∅ ∅ x.tracking) {u : NodeId} (hS : u ∈ S) (hD : u ∉ D)
    (hpick : ∀ e ∈ p.graph.outgoing u, p.pick e = .taken) :
    Completed p S D u x.tracking (processNonBranchNodeEdges p.graph pool u x, none) [] := by
  have hc := h.complete hS hD
  rw [Set.empty_union] at hc
  have hX : {v | v ∈ x.readyNodes} = (∅ : Set NodeId) := by simp [hx]
  have htail : ∀ e ∈ p.graph.outgoing u, e.tail ∈ insert u D := fun e he =>
    .inl (Graph.mem_outgoing.mp he).2
  obtain ⟨hadv, hcons, hnd, hready⟩ := takeEdges_spec pool (p.graph.outgoing u)
    {e | e ∈ p.graph.outgoing u} x (by rw [hX]; exact hc) (p.graph.outgoing_nodup u)
    (fun e he => ⟨he, htail e he, hpick e he⟩) (by simp [hx]) (by simp [hx])
  refine ⟨rfl, hadv, ?_, hnd, hready⟩
  have hS' : S ∪ {v | v ∈ ([] : List NodeId)} = S := by simp
  rw [hS']
  rwa [Set.sdiff_self] at hcons

/-- Processing the edges of a branch: the unselected edges are skipped with everything that
depends on them alone, then the selected ones are taken. -/
theorem completed_branch (hg : p.graph.Acyclic) {x : EdgeResult} (hx : x.readyNodes = [])
    (h : Consistent p S D ∅ ∅ x.tracking) {u : NodeId} (hS : u ∈ S) (hD : u ∉ D)
    (hb : p.graph.executionType u = .branch) {handle : String} (hne : handle ≠ "")
    (hsel : ∀ e ∈ p.graph.outgoing u, p.selected e = decide (e.sourceHandle = handle)) :
    ∃ L, Completed p S D u x.tracking (handleBranchCompletion p.graph pool u handle x) L := by
  have hc := h.complete hS hD
  rw [Set.empty_union] at hc
  have hcat : categorizeBranchEdges p.graph u handle =
      ((p.graph.outgoing u).filter fun e => e.sourceHandle = handle,
        (p.graph.outgoing u).filter fun e => !decide (e.sourceHandle = handle)) := by
    unfold categorizeBranchEdges
    rw [List.partition_eq_filter_filter]
    rfl
  generalize hsl : (p.graph.outgoing u).filter (fun e => e.sourceHandle = handle) = sel at hcat
  generalize hun : (p.graph.outgoing u).filter (fun e => !decide (e.sourceHandle = handle)) =
    unsel at hcat
  have hsel' : ∀ e ∈ sel, e ∈ p.graph.outgoing u ∧ p.pick e = .taken := by
    intro e he
    rw [← hsl, List.mem_filter] at he
    exact ⟨he.1, by simp [Plan.pick, hsel e he.1, of_decide_eq_true he.2]⟩
  have hunsel' : ∀ e ∈ unsel, e ∈ p.graph.outgoing u ∧ p.pick e = .skipped := by
    intro e he
    rw [← hun, List.mem_filter] at he
    refine ⟨he.1, ?_⟩
    have : ¬ e.sourceHandle = handle := by simpa using he.2
    simp [Plan.pick, hsel e he.1, this]
  have hsplit : ∀ e ∈ p.graph.outgoing u, e ∉ unsel → e ∈ sel := by
    intro e he hnu
    rw [← hun, List.mem_filter] at hnu
    rw [← hsl, List.mem_filter]
    by_cases hh : e.sourceHandle = handle
    · exact ⟨he, by simpa using hh⟩
    · exact absurd ⟨he, by simpa using hh⟩ hnu
  obtain ⟨L, t', hrun, hadv, hcons⟩ := skipBranchPaths_spec hg hc unsel
    (by rw [← hun]; exact (p.graph.outgoing_nodup u).filter _)
    (fun e he => (hunsel' e he).1) (fun e he _ => (hunsel' e he).2)
  have hskipped : ∀ e ∈ unsel, t'.edgeState e.id = .skipped := by
    intro e he
    obtain ⟨heo, hp⟩ := hunsel' e he
    obtain ⟨hem, het⟩ := Graph.mem_outgoing.mp heo
    rw [hcons.done e hem (fun hE => hE.2 he) (.inl het), hp]
  have hdisj : ∀ e ∈ sel, e ∉ unsel := by
    intro e he heu
    have hp := (hunsel' e heu).2
    rw [(hsel' e he).2] at hp
    cases hp
  have htail : ∀ e ∈ sel, e.tail ∈ insert u D := fun e he =>
    .inl (Graph.mem_outgoing.mp (hsel' e he).1).2
  have hfold := foldl_processSkippedEdge unsel { x with tracking := t' } hskipped
  have hX : {v | v ∈ x.readyNodes} = (∅ : Set NodeId) := by simp [hx]
  obtain ⟨hadv', hcons', hnd, hready⟩ := takeEdges_spec (p := p) (S := S ∪ {v | v ∈ L})
    (D := insert u D) pool sel ({e | e ∈ p.graph.outgoing u} \ {e | e ∈ unsel})
    { x with tracking := t' } (by rw [hX]; exact hcons)
    (by rw [← hsl]; exact (p.graph.outgoing_nodup u).filter _)
    (fun e he => ⟨⟨(hsel' e he).1, hdisj e he⟩, htail e he, (hsel' e he).2⟩)
    (by simp [hx]) (by simp [hx])
  have hr : handleBranchCompletion p.graph pool u handle x =
      (sel.foldl (processTakenEdge p.graph pool) { x with tracking := t' }, none) := by
    unfold handleBranchCompletion
    rw [if_neg hne, hcat]
    simp only [hrun, Outcome.andThen_none]
    unfold processNodeSuccess processBranchNodeEdges
    rw [if_pos hb, if_neg hne, hcat]
    simp only [hfold]
  refine ⟨L, ?_⟩
  rw [hr]
  have hE : (({e | e ∈ p.graph.outgoing u} : Set Edge) \ {e | e ∈ unsel}) \ {e | e ∈ sel} = ∅ := by
    ext e
    simp only [Set.mem_sdiff, Set.mem_ofPred_eq, Set.mem_empty_iff_false, iff_false]
    rintro ⟨⟨heo, heu⟩, hes⟩
    exact hes (hsplit e heo heu)
  rw [hE] at hcons'
  refine ⟨rfl, ?_, hcons', hnd, hready⟩
  have := hadv.trans hadv'
  rwa [List.append_nil] at this

end Taken

section ReadyNodes

variable {p : Plan} {S D : Set NodeId} {E : Set Edge} {t : Tracking}

private theorem openNodes_diff {v : NodeId} {R : List NodeId} (hv : v ∉ R) :
    ({w | w ∈ v :: R} : Set NodeId) \ {v} = {w | w ∈ R} := by
  ext w
  simp only [Set.mem_sdiff, Set.mem_ofPred_eq, List.mem_cons, Set.mem_singleton_iff]
  exact ⟨fun h => h.1.resolve_left h.2, fun h => ⟨.inr h, fun he => hv (he ▸ h)⟩⟩

private theorem insert_union (v : NodeId) (R : List NodeId) :
    insert v S ∪ {w | w ∈ R} = S ∪ {w | w ∈ v :: R} := by
  ext w
  simp only [Set.mem_union, Set.mem_insert_iff, Set.mem_ofPred_eq, List.mem_cons]
  tauto

/-- All open nodes are ready: they join the scheduled nodes without being enqueued. -/
theorem Consistent.admitAll (R : List NodeId) (h : Consistent p S D E {v | v ∈ R} t)
    (hnd : R.Nodup) (hready : ∀ v ∈ R, ReadyIn p.graph t.edgeState v) :
    Consistent p (S ∪ {v | v ∈ R}) D E ∅ t := by
  induction R generalizing S with
  | nil => simpa using h
  | cons v R ih =>
    obtain ⟨hv, hnd'⟩ := List.nodup_cons.mp hnd
    have ha := h.enterScheduled (List.mem_cons_self) (hready v (by simp))
    rw [openNodes_diff hv] at ha
    rw [← insert_union]
    exact ih ha hnd' fun w hw => hready w (by simp [hw])

theorem Consistent.scheduleAll (R : List NodeId) (h : Consistent p S D E {v | v ∈ R} t)
    (hnd : R.Nodup) (hready : ∀ v ∈ R, ReadyIn p.graph t.edgeState v) :
    Advance p.graph S t (t.scheduleAll R) R ∧
      Consistent p (S ∪ {v | v ∈ R}) D E ∅ (t.scheduleAll R) := by
  induction R generalizing S t with
  | nil => exact ⟨.refl, by simpa [Tracking.scheduleAll] using h⟩
  | cons v R ih =>
    obtain ⟨hv, hnd'⟩ := List.nodup_cons.mp hnd
    have ha := h.schedule (List.mem_cons_self) (hready v (by simp))
    rw [openNodes_diff hv] at ha
    obtain ⟨hadv, hc⟩ := ih ha hnd' fun w hw => hready w (by simp [hw])
    have hone : Advance p.graph S t (t.schedule v) [v] :=
      .schedule (h.fresh v List.mem_cons_self).1 (hready v (by simp))
    have hS : insert v S = S ∪ {w | w ∈ [v]} := by
      ext w
      simp [or_comm]
    refine ⟨?_, ?_⟩
    · rw [hS] at hadv
      exact hone.trans hadv
    · rw [← insert_union]
      exact hc

end ReadyNodes
end PlatformSpec.Scheduling
