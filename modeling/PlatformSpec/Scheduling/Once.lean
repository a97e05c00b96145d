import PlatformSpec.Scheduling.Propagation

/-!
# Every node is activated at most once

A weaker account than consistency, which needs neither an acyclic graph nor fixed branch
decisions, so that it also covers runs in which nodes fail: an edge becomes known after its
tail has ended, a node is activated or skipped when its last incoming edge becomes known,
and so neither happens twice.
-/

namespace PlatformSpec.Scheduling

open Workflow Engine PlatformSpec.Runtime Response

/-- States of a traversal in progress. `S` are the activated nodes, `D` the ended ones and
`E` the edges still to be processed. -/
structure Orderly (g : Graph) (S D : Set NodeId) (E : Set Edge) (t : Tracking) : Prop where
  pending : ∀ e ∈ E, e ∈ g.edges ∧ t.edgeState e.id = .unknown ∧
    (e.tail ∈ D ∨ t.nodeState e.tail = .skipped)
  known : ∀ e ∈ g.edges, t.edgeState e.id ≠ .unknown →
    e.tail ∈ D ∨ t.nodeState e.tail = .skipped
  activated : ∀ v ∈ S, ∀ e ∈ g.incoming v, t.edgeState e.id ≠ .unknown
  skipped : ∀ v, t.nodeState v = .skipped →
    v ∉ S ∧ ∀ e ∈ g.incoming v, t.edgeState e.id ≠ .unknown
  ended : D ⊆ S

namespace Orderly

variable {g : Graph} {S D : Set NodeId} {E : Set Edge} {t : Tracking} {v : NodeId}

theorem not_skipped (h : Orderly g S D E t) (hv : v ∈ S) : t.nodeState v ≠ .skipped :=
  fun hs => (h.skipped v hs).1 hv

variable {e : Edge}

theorem untouched (h : Orderly g S D E t) (he : e ∈ g.edges)
    (hu : t.edgeState e.id = .unknown) : e.head ∉ S ∧ t.nodeState e.head ≠ .skipped := by
  have hin : e ∈ g.incoming e.head := Graph.mem_incoming.mpr ⟨he, rfl⟩
  exact ⟨fun hS => h.activated _ hS e hin hu, fun hs => (h.skipped _ hs).2 e hin hu⟩

theorem outgoing_unknown (h : Orderly g S D E t) (hD : v ∉ D)
    (hs : t.nodeState v ≠ .skipped) (he : e ∈ g.outgoing v) :
    t.edgeState e.id = .unknown := by
  obtain ⟨hm, rfl⟩ := Graph.mem_outgoing.mp he
  by_contra hu
  exact (h.known e hm hu).elim hD hs

/-- An edge whose tail has ended or is skipped may become known, also a second time. -/
theorem setEdge (h : Orderly g S D E t)
    (hlive : e.tail ∈ D ∨ t.nodeState e.tail = .skipped) (he : e ∈ g.edges) {s : NodeState}
    (hs : s ≠ .unknown) : Orderly g S D (E \ {e}) (t.setEdge e.id s) := by
  have hkeep : ∀ id, t.edgeState id ≠ .unknown → (t.setEdge e.id s).edgeState id ≠ .unknown := by
    intro id hid
    rw [Tracking.setEdge_edgeState]
    by_cases hide : id = e.id
    · rw [hide, Function.update_self]
      exact hs
    · rwa [Function.update_of_ne hide]
  refine ⟨?_, ?_, fun v hv f hf => hkeep _ (h.activated v hv f hf), ?_, h.ended⟩
  · rintro f ⟨hfE, hfe⟩
    obtain ⟨hfm, hfu, hfl⟩ := h.pending f hfE
    refine ⟨hfm, ?_, hfl⟩
    rw [Tracking.setEdge_edgeState, Function.update_of_ne fun hid => hfe (g.edge_ext hfm he hid)]
    exact hfu
  · intro f hf hfu
    by_cases hfe : f = e
    · exact hfe ▸ hlive
    · rw [Tracking.setEdge_edgeState, Function.update_of_ne fun hid => hfe (g.edge_ext hf he hid)]
        at hfu
      exact h.known f hf hfu
  · exact fun v hv => ⟨(h.skipped v hv).1, fun f hf => hkeep _ ((h.skipped v hv).2 f hf)⟩

theorem activate (h : Orderly g S D E t) (hs : t.nodeState v ≠ .skipped)
    (hin : ∀ e ∈ g.incoming v, t.edgeState e.id ≠ .unknown) : Orderly g (insert v S) D E t := by
  refine ⟨h.pending, h.known, ?_, ?_, fun w hw => .inr (h.ended hw)⟩
  · rintro w (rfl | hw)
    · exact hin
    · exact h.activated w hw
  · intro w hw
    obtain ⟨hwS, hwin⟩ := h.skipped w hw
    refine ⟨?_, hwin⟩
    rintro (rfl | hwS')
    · exact hs hw
    · exact hwS hwS'

/-- The state of an activated node may change freely as long as it is not skipped. -/
theorem setNode (h : Orderly g S D E t) (hv : v ∈ S) {s : NodeState}
    (hs : s ≠ .skipped) : Orderly g S D E (t.setNode v s) := by
  have hiff : ∀ w, (t.setNode v s).nodeState w = .skipped ↔ t.nodeState w = .skipped := by
    intro w
    by_cases hw : w = v
    · subst hw
      rw [Tracking.setNode_nodeState, Function.update_self]
      exact iff_of_false hs (h.not_skipped hv)
    · rw [Tracking.setNode_nodeState, Function.update_of_ne hw]
  refine ⟨?_, ?_, h.activated, ?_, h.ended⟩
  · intro e he
    obtain ⟨hm, hu, hl⟩ := h.pending e he
    exact ⟨hm, hu, hl.imp_right (hiff _).mpr⟩
  · exact fun e he hu => (h.known e he hu).imp_right (hiff _).mpr
  · exact fun w hw => h.skipped w ((hiff w).mp hw)

theorem of_states (h : Orderly g S D E t) {t' : Tracking} (hn : t'.nodeState = t.nodeState)
    (he : t'.edgeState = t.edgeState) : Orderly g S D E t' := by
  refine ⟨?_, ?_, ?_, ?_, h.ended⟩
  · rw [he, hn]
    exact h.pending
  · rw [he, hn]
    exact h.known
  · rw [he]
    exact h.activated
  · rw [he, hn]
    exact h.skipped

theorem schedule (h : Orderly g S D E t) (hv : v ∈ S) : Orderly g S D E (t.schedule v) :=
  (h.setNode hv (s := .taken) (by simp)).of_states rfl rfl

/-- An untouched node whose incoming edges are all known is skipped; its outgoing edges
become pending. -/
theorem skip (h : Orderly g S D E t) (hS : v ∉ S) (hs : t.nodeState v ≠ .skipped)
    (hin : ∀ e ∈ g.incoming v, t.edgeState e.id ≠ .unknown) :
    Orderly g S D (E ∪ {e | e ∈ g.outgoing v}) (t.markNodeSkipped v) := by
  have hself : (t.markNodeSkipped v).nodeState v = .skipped := Function.update_self ..
  have hne : ∀ w, w ≠ v → (t.markNodeSkipped v).nodeState w = t.nodeState w := fun w hw =>
    Function.update_of_ne hw _ _
  have hup : ∀ w, t.nodeState w = .skipped → (t.markNodeSkipped v).nodeState w = .skipped := by
    intro w hw
    by_cases hwv : w = v
    · rw [hwv, hself]
    · rw [hne w hwv, hw]
  refine ⟨?_, ?_, h.activated, ?_, h.ended⟩
  · rintro e (hE | hout)
    · obtain ⟨hm, hu, hl⟩ := h.pending e hE
      exact ⟨hm, hu, hl.imp_right (hup _)⟩
    · obtain ⟨hm, ht⟩ := Graph.mem_outgoing.mp hout
      exact ⟨hm, h.outgoing_unknown (fun hD => hS (h.ended hD)) hs hout, .inr (by rw [ht, hself])⟩
  · exact fun e he hu => (h.known e he hu).imp_right (hup _)
  · intro w hw
    by_cases hwv : w = v
    · subst hwv
      exact ⟨hS, hin⟩
    · rw [hne w hwv] at hw
      exact h.skipped w hw

theorem complete (h : Orderly g S D E t) {u : NodeId} (hS : u ∈ S) (hD : u ∉ D) :
    Orderly g S (insert u D) (E ∪ {e | e ∈ g.outgoing u}) t := by
  refine ⟨?_, ?_, h.activated, h.skipped, ?_⟩
  · rintro e (hE | hout)
    · obtain ⟨hm, hu, hl⟩ := h.pending e hE
      exact ⟨hm, hu, hl.imp_left .inr⟩
    · obtain ⟨hm, ht⟩ := Graph.mem_outgoing.mp hout
      exact ⟨hm, h.outgoing_unknown hD (h.not_skipped hS) hout, .inl (.inl ht)⟩
  · exact fun e he hu => (h.known e he hu).imp_left .inr
  · rintro w (rfl | hw)
    · exact hS
    · exact h.ended hw

/-- With nothing pending a node that is not activated may be skipped, also once more, when its
incoming edges are all known. -/
theorem markSkipped (h : Orderly g S D ∅ t) (hS : v ∉ S)
    (hin : ∀ e ∈ g.incoming v, t.edgeState e.id ≠ .unknown) :
    Orderly g S D ∅ (t.markNodeSkipped v) := by
  have hself : (t.markNodeSkipped v).nodeState v = .skipped := Function.update_self ..
  have hne : ∀ w, w ≠ v → (t.markNodeSkipped v).nodeState w = t.nodeState w := fun w hw =>
    Function.update_of_ne hw _ _
  refine ⟨fun _ he => he.elim, fun e he hu => (h.known e he hu).imp_right fun hs => ?_, h.activated,
    fun w hw => ?_, h.ended⟩
  · by_cases hwv : e.tail = v
    · rw [hwv, hself]
    · rw [hne _ hwv, hs]
  · by_cases hwv : w = v
    · subst hwv
      exact ⟨hS, hin⟩
    · rw [hne w hwv] at hw
      exact h.skipped w hw

theorem drop (h : Orderly g S D E t) : Orderly g S D ∅ t :=
  ⟨fun _ he => he.elim, h.known, h.activated, h.skipped, h.ended⟩

end Orderly

/-! ### Skip propagation -/

section Propagation

variable {g : Graph} {D : Set NodeId}

private theorem orderly_skipEach {visit : Edge → Tracking → Outcome Tracking} (es : List Edge)
    (hvisit : ∀ e ∈ es, ∀ (S : Set NodeId) (E : Set Edge) (t : Tracking), Orderly g S D E t →
      e.head ∉ S → t.nodeState e.head ≠ .skipped →
      ∃ L, Advance g S t (visit e t).1 L ∧
        ((visit e t).2 = none → Orderly g (S ∪ {v | v ∈ L}) D E (visit e t).1)) :
    ∀ (S : Set NodeId) (E : Set Edge) (t : Tracking), Orderly g S D E t → es.Nodup →
      (∀ e ∈ es, e ∈ E) →
      ∃ L, Advance g S t (skipEach visit es t).1 L ∧ ((skipEach visit es t).2 = none →
        Orderly g (S ∪ {v | v ∈ L}) D (E \ {e | e ∈ es}) (skipEach visit es t).1) := by
  induction es with
  | nil =>
    intro S E t h _ _
    exact ⟨[], .refl, fun _ => by simpa [skipEach] using h⟩
  | cons e es ih =>
    intro S E t h hnd hE
    obtain ⟨hnotin, hnd'⟩ := List.nodup_cons.mp hnd
    obtain ⟨hem, heu, hel⟩ := h.pending e (hE e (by simp))
    obtain ⟨hheadS, hheads⟩ := h.untouched hem heu
    obtain ⟨L, hadv, hord⟩ := hvisit e (by simp) S _ _
      (h.setEdge hel hem (s := .skipped) (by simp)) hheadS hheads
    have hmark : Advance g S t (visit e (t.markEdgeSkipped e.id)).1 L :=
      (Advance.setEdge _ _).trans_nil hadv
    unfold skipEach
    cases hv : visit e (t.markEdgeSkipped e.id) with
    | mk t₁ raised =>
      rw [hv] at hmark
      have hcons : raised = none → Orderly g (S ∪ {v | v ∈ L}) D (E \ {e}) t₁ := by
        intro hr
        have hv' : visit e (t.setEdge e.id .skipped) = (t₁, raised) := hv
        rw [hv'] at hord
        exact hord hr
      cases raised with
      | some err => exact ⟨L, hmark, fun hn => by cases hn⟩
      | none =>
        rw [Outcome.andThen_none]
        have hE' : ∀ f ∈ es, f ∈ E \ {e} := fun f hf =>
          ⟨hE f (by simp [hf]), fun hfe => hnotin (hfe ▸ hf)⟩
        obtain ⟨L', hadv', hord'⟩ := ih (fun f hf => hvisit f (by simp [hf])) _ _ _ (hcons rfl)
          hnd' hE'
        refine ⟨L ++ L', hmark.trans hadv', fun hr => ?_⟩
        have hS : S ∪ {v | v ∈ L ++ L'} = S ∪ {v | v ∈ L} ∪ {v | v ∈ L'} := by
          ext v
          simp [or_assoc]
        have hEq : E \ {f | f ∈ e :: es} = (E \ {e}) \ {f | f ∈ es} := by
          ext f
          simp [and_assoc]
        rw [hS, hEq]
        exact hord' hr

private theorem orderly_propagate (fuel : Nat) :
    ∀ e ∈ g.edges, ∀ (S : Set NodeId) (E : Set Edge) (t : Tracking), Orderly g S D E t →
      e.head ∉ S → t.nodeState e.head ≠ .skipped →
      ∃ L, Advance g S t (propagateSkipFromEdge g fuel e t).1 L ∧
        ((propagateSkipFromEdge g fuel e t).2 = none →
          Orderly g (S ∪ {v | v ∈ L}) D E (propagateSkipFromEdge g fuel e t).1) := by
  have hnil : ∀ S : Set NodeId, S ∪ {v | v ∈ ([] : List NodeId)} = S := fun S => by simp
  induction fuel with
  | zero => exact fun e _ S E t _ _ _ => ⟨[], .refl, fun hn => by cases hn⟩
  | succ fuel ih =>
    intro e he S E t h hS hs
    unfold propagateSkipFromEdge
    simp only []
    split
    next => exact ⟨[], .refl, fun _ => by rw [hnil]; exact h⟩
    next hu =>
      have hknown : ∀ f ∈ g.incoming e.head, t.edgeState f.id ≠ .unknown := by
        intro f hf hfu
        exact hu (by simpa [Tracking.analyzeEdgeStates] using ⟨f, Graph.mem_incoming.mp hf, hfu⟩)
      split
      next htk =>
        have htaken : ∃ f ∈ g.incoming e.head, t.edgeState f.id = .taken := by
          simpa [Tracking.analyzeEdgeStates] using htk
        refine ⟨[e.head], .schedule hS ⟨hknown, htaken⟩, fun _ => ?_⟩
        have hS' : S ∪ {v | v ∈ [e.head]} = insert e.head S := by
          ext v
          simp [or_comm]
        rw [hS']
        exact (h.activate hs hknown).schedule (.inl rfl)
      next =>
        split
        next =>
          have hskip := h.skip hS hs hknown
          have hout : ∀ f ∈ g.outgoing e.head, f ∉ E := by
            intro f hf hfE
            obtain ⟨-, hft⟩ := Graph.mem_outgoing.mp hf
            rcases (h.pending f hfE).2.2 with hd | hs'
            · exact hS (h.ended (hft ▸ hd))
            · exact hs (hft ▸ hs')
          obtain ⟨L, hadv, hord⟩ := orderly_skipEach (g.outgoing e.head)
            (fun f hf S E t hc => ih f (Graph.mem_outgoing.mp hf).1 S E t hc) S _ _ hskip
            (g.outgoing_nodup _) fun f hf => .inr hf
          have hmid : Advance g S t (t.markNodeSkipped e.head) [] :=
            .of_unscheduled rfl rfl rfl fun v hv =>
              Function.update_of_ne (fun hve : v = e.head => hS (hve ▸ hv)) _ _
          refine ⟨L, hmid.trans_nil hadv, fun hr => ?_⟩
          have hE : (E ∪ {f | f ∈ g.outgoing e.head}) \ {f | f ∈ g.outgoing e.head} = E := by
            ext f
            simp only [Set.mem_sdiff, Set.mem_union, Set.mem_ofPred_eq]
            exact ⟨fun hf => hf.1.resolve_right hf.2, fun hf => ⟨.inl hf, fun hfo => hout f hfo hf⟩⟩
          rw [← hE]
          exact hord hr
        next => exact ⟨[], .refl, fun _ => by rw [hnil]; exact h⟩

theorem orderly_skipBranchPaths {S : Set NodeId} {E : Set Edge} {t : Tracking}
    (h : Orderly g S D E t) {es : List Edge} (hnd : es.Nodup) (hE : ∀ e ∈ es, e ∈ E) :
    ∃ L, Advance g S t (skipBranchPaths g es t).1 L ∧ ((skipBranchPaths g es t).2 = none →
      Orderly g (S ∪ {v | v ∈ L}) D (E \ {e | e ∈ es}) (skipBranchPaths g es t).1) :=
  orderly_skipEach es (fun e he => orderly_propagate _ e (h.pending e (hE e he)).1) S E t h hnd hE

end Propagation

/-! ### Edge processing -/

/-- Edge processing under way: the ready nodes found so far count as activated. -/
structure Gathering (g : Graph) (S D : Set NodeId) (E : Set Edge) (x : EdgeResult) : Prop where
  orderly : Orderly g (S ∪ {v | v ∈ x.readyNodes}) D E x.tracking
  nodup : x.readyNodes.Nodup
  fresh : ∀ v ∈ x.readyNodes, v ∉ S
  ready : ∀ v ∈ x.readyNodes, ReadyIn g x.tracking.edgeState v

namespace Gathering

variable {g : Graph} {S D : Set NodeId} {E : Set Edge} {x : EdgeResult} (pool : VariablePool)

theorem start (h : Orderly g S D E x.tracking) (hx : x.readyNodes = []) :
    Gathering g S D E x where
  orderly := by simpa [hx] using h
  nodup := by simp [hx]
  fresh := by simp [hx]
  ready := by simp [hx]

theorem take (h : Gathering g S D E x) {e : Edge} (he : e ∈ E) :
    Gathering g S D (E \ {e}) (processTakenEdge g pool x e) := by
  obtain ⟨hem, heu, hel⟩ := h.orderly.pending e he
  obtain ⟨hhead, hskip⟩ := h.orderly.untouched hem heu
  obtain ⟨hS, hnew⟩ := not_or.mp hhead
  have hin : e ∈ g.incoming e.head := Graph.mem_incoming.mpr ⟨hem, rfl⟩
  have hmark := h.orderly.setEdge hel hem (s := .taken) (by simp)
  have hkeep : ∀ v ∈ x.readyNodes,
      ReadyIn g (x.tracking.setEdge e.id .taken).edgeState v := by
    intro v hv
    refine (readyIn_congr fun f hf => ?_).mp (h.ready v hv)
    obtain ⟨hfm, hfh⟩ := Graph.mem_incoming.mp hf
    refine (Function.update_of_ne (fun hid => hnew ?_) _ _).symm
    rw [← g.edge_ext hfm hem hid, hfh]
    exact hv
  by_cases hrdy : (x.tracking.setEdge e.id .taken).isNodeReady g e.head = true
  · have hnodes : (processTakenEdge g pool x e).readyNodes = x.readyNodes ++ [e.head] := by
      simp only [processTakenEdge, Tracking.markEdgeTaken, hrdy, ↓reduceIte]
    have hready := (Tracking.isNodeReady_iff _ g (List.ne_nil_of_mem hin)).mp hrdy
    refine ⟨?_, ?_, ?_, ?_⟩
    · have hset : S ∪ {v | v ∈ (processTakenEdge g pool x e).readyNodes} =
          insert e.head (S ∪ {v | v ∈ x.readyNodes}) := by
        ext v
        simp only [hnodes, List.mem_append, List.mem_singleton, Set.mem_union, Set.mem_ofPred_eq,
          Set.mem_insert_iff]
        tauto
      rw [hset]
      exact hmark.activate hskip hready.1
    · rw [hnodes]
      exact h.nodup.append (List.nodup_singleton _) (by simpa using hnew)
    · intro v hv
      rw [hnodes, List.mem_append, List.mem_singleton] at hv
      rcases hv with hv | rfl
      · exact h.fresh v hv
      · exact hS
    · intro v hv
      rw [hnodes, List.mem_append, List.mem_singleton] at hv
      rcases hv with hv | rfl
      · exact hkeep v hv
      · exact hready
  · have hnodes : (processTakenEdge g pool x e).readyNodes = x.readyNodes := by
      simp only [processTakenEdge, Tracking.markEdgeTaken, hrdy, Bool.false_eq_true, ↓reduceIte,
        List.append_nil]
    refine ⟨?_, ?_, ?_, ?_⟩
    · rw [hnodes]
      exact hmark
    · rw [hnodes]
      exact h.nodup
    · rw [hnodes]
      exact h.fresh
    · rw [hnodes]
      exact hkeep

theorem takeAll (h : Gathering g S D E x) {es : List Edge} (hnd : es.Nodup)
    (hE : ∀ e ∈ es, e ∈ E) :
    Advance g S x.tracking (es.foldl (processTakenEdge g pool) x).tracking [] ∧
      Gathering g S D (E \ {e | e ∈ es}) (es.foldl (processTakenEdge g pool) x) := by
  induction es generalizing E x with
  | nil => exact ⟨.refl, by simpa using h⟩
  | cons e es ih =>
    obtain ⟨hnotin, hnd'⟩ := List.nodup_cons.mp hnd
    have hE' : ∀ f ∈ es, f ∈ E \ {e} := fun f hf =>
      ⟨hE f (by simp [hf]), fun hfe => hnotin (hfe ▸ hf)⟩
    obtain ⟨hadv, hgath⟩ := ih (h.take pool (hE e (by simp))) hnd' hE'
    have hEq : E \ {f | f ∈ e :: es} = (E \ {e}) \ {f | f ∈ es} := by
      ext f
      simp [and_assoc]
    rw [hEq, List.foldl_cons]
    exact ⟨(Advance.setEdge e.id .taken).trans_nil hadv, hgath⟩

theorem remark (h : Gathering g S D E x) (hx : x.readyNodes = []) (es : List Edge)
    (hes : ∀ e ∈ es, e ∈ g.edges ∧ e ∉ E ∧ e.tail ∈ D) :
    Advance g S x.tracking (es.foldl processSkippedEdge x).tracking [] ∧
      Gathering g S D E (es.foldl processSkippedEdge x) ∧
      (es.foldl processSkippedEdge x).readyNodes = [] := by
  induction es generalizing x with
  | nil => exact ⟨.refl, h, hx⟩
  | cons e es ih =>
    obtain ⟨hem, heE, heD⟩ := hes e (by simp)
    have hset := h.orderly.setEdge (.inl heD) hem (s := .skipped) (by simp)
    rw [Set.sdiff_singleton_eq_self heE] at hset
    have hone : Gathering g S D E (processSkippedEdge x e) :=
      ⟨hset, h.nodup, h.fresh, fun v hv => by
        have : v ∈ x.readyNodes := hv
        rw [hx] at this
        cases this⟩
    obtain ⟨hadv, hrest⟩ := ih hone hx fun f hf => hes f (by simp [hf])
    exact ⟨(Advance.setEdge e.id .skipped).trans_nil hadv, hrest⟩

theorem scheduleAll (h : Gathering g S D E x) :
    Advance g S x.tracking (x.tracking.scheduleAll x.readyNodes) x.readyNodes ∧
      Orderly g (S ∪ {v | v ∈ x.readyNodes}) D E (x.tracking.scheduleAll x.readyNodes) := by
  obtain ⟨hord, hnd, hfresh, hready⟩ := h
  generalize x.tracking = t at hord hready
  generalize x.readyNodes = R at hord hnd hfresh hready
  have hadv : Advance g S t (t.scheduleAll R) R := by
    clear hord
    induction R generalizing S t with
    | nil => exact .refl
    | cons v R ih =>
      obtain ⟨hv, hnd'⟩ := List.nodup_cons.mp hnd
      have hone : Advance g S t (t.schedule v) [v] :=
        .schedule (hfresh v (by simp)) (hready v (by simp))
      refine hone.trans (ih (t.schedule v) hnd' ?_ fun w hw => hready w (by simp [hw]))
      rintro w hw (hS | hw')
      · exact hfresh w (by simp [hw]) hS
      · have : w = v := by simpa using hw'
        exact hv (this ▸ hw)
  refine ⟨hadv, ?_⟩
  have hmem : ∀ v ∈ R, v ∈ S ∪ {v | v ∈ R} := fun v hv => .inr hv
  generalize S ∪ {v | v ∈ R} = S' at hord hmem
  clear hadv hready hfresh hnd
  unfold Tracking.scheduleAll
  induction R generalizing t with
  | nil => exact hord
  | cons v R ih =>
    exact ih (t.schedule v) (hord.schedule (hmem v (by simp))) fun w hw => hmem w (by simp [hw])

end Gathering

/-- What the edge processing of one ended node achieves: `L` was scheduled by skip propagation,
and unless something was raised all edges are processed. -/
structure EdgesDone (g : Graph) (S D : Set NodeId) (u : NodeId) (t : Tracking)
    (r : Outcome EdgeResult) (L : List NodeId) : Prop where
  advance : Advance g S t r.1.tracking L
  gathering : r.2 = none → Gathering g (S ∪ {v | v ∈ L}) (insert u D) ∅ r.1

section Edges

variable {g : Graph} {S D : Set NodeId} {x : EdgeResult} {u : NodeId} (pool : VariablePool)

theorem union_nil : S ∪ {v | v ∈ ([] : List NodeId)} = S := by simp

theorem edgesDone_success (hx : x.readyNodes = []) (h : Orderly g S D ∅ x.tracking) (hS : u ∈ S)
    (hD : u ∉ D) : EdgesDone g S D u x.tracking (processNodeSuccess g pool u "" x) [] := by
  unfold processNodeSuccess
  split
  next =>
    unfold processBranchNodeEdges
    rw [if_pos rfl]
    exact ⟨.refl, fun hn => by cases hn⟩
  next =>
    have hc := h.complete hS hD
    rw [Set.empty_union] at hc
    obtain ⟨hadv, hgath⟩ := (Gathering.start hc hx).takeAll pool (g.outgoing_nodup u)
      fun _ he => he
    refine ⟨hadv, fun _ => ?_⟩
    rw [union_nil]
    rwa [Set.sdiff_self] at hgath

theorem edgesDone_branch (hx : x.readyNodes = []) (h : Orderly g S D ∅ x.tracking) (hS : u ∈ S)
    (hD : u ∉ D) (hb : g.executionType u = .branch) (handle : String) :
    ∃ L, EdgesDone g S D u x.tracking (handleBranchCompletion g pool u handle x) L := by
  unfold handleBranchCompletion
  by_cases hh : handle = ""
  · rw [if_pos hh]
    exact ⟨[], .refl, fun hn => by cases hn⟩
  · rw [if_neg hh]
    have hc := h.complete hS hD
    rw [Set.empty_union] at hc
    have hcat : categorizeBranchEdges g u handle =
        ((g.outgoing u).filter fun e => e.sourceHandle = handle,
          (g.outgoing u).filter fun e => !decide (e.sourceHandle = handle)) := by
      unfold categorizeBranchEdges
      rw [List.partition_eq_filter_filter]
      rfl
    unfold processNodeSuccess processBranchNodeEdges
    simp only [if_pos hb, if_neg hh, hcat]
    generalize hsl : (g.outgoing u).filter (fun e => e.sourceHandle = handle) = sel
    generalize hun : (g.outgoing u).filter (fun e => !decide (e.sourceHandle = handle)) = unsel
    have hnd : sel.Nodup ∧ unsel.Nodup := by
      rw [← hsl, ← hun]
      exact ⟨(g.outgoing_nodup u).filter _, (g.outgoing_nodup u).filter _⟩
    have hunsel : ∀ e ∈ unsel, e ∈ g.outgoing u := by
      intro e he
      rw [← hun] at he
      exact (List.mem_filter.mp he).1
    have hsel : ∀ e ∈ sel, e ∈ g.outgoing u ∧ e ∉ unsel := by
      intro e he
      rw [← hsl, List.mem_filter] at he
      refine ⟨he.1, fun hu => ?_⟩
      rw [← hun, List.mem_filter] at hu
      simp [of_decide_eq_true he.2] at hu
    obtain ⟨L, hadv, hord⟩ := orderly_skipBranchPaths hc hnd.2 hunsel
    refine ⟨L, ?_⟩
    cases hskip : skipBranchPaths g unsel x.tracking with
    | mk t raised =>
      rw [hskip] at hadv hord
      cases raised with
      | some err => exact ⟨hadv, fun hn => by cases hn⟩
      | none =>
        rw [Outcome.andThen_none]
        obtain ⟨hadv₁, hgath₁, hx₁⟩ := (Gathering.start (x := { x with tracking := t }) (hord rfl)
          hx).remark hx unsel fun e he => by
            obtain ⟨hem, het⟩ := Graph.mem_outgoing.mp (hunsel e he)
            exact ⟨hem, fun hE => hE.2 he, .inl het⟩
        obtain ⟨hadv₂, hgath₂⟩ := hgath₁.takeAll pool hnd.1 hsel
        refine ⟨?_, fun _ => ?_⟩
        · have := hadv.trans (hadv₁.trans_nil hadv₂)
          rwa [List.append_nil] at this
        · exact ⟨hgath₂.orderly.drop, hgath₂.nodup, hgath₂.fresh, hgath₂.ready⟩

end Edges
end PlatformSpec.Scheduling
