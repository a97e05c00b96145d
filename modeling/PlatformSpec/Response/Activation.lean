import Mathlib.Data.Set.Insert
import PlatformSpec.Response.Paths
import PlatformSpec.Response.Restore

/-!
# When a session is activated

Every call of `on_edge_taken` strikes one edge out of the recorded paths. What is left of a
path is therefore the path without the edges taken so far, and a session has been activated
when some path has nothing left. Flushing does not interfere.
-/

namespace PlatformSpec.Response

open Base PlatformSpec.Runtime Workflow

/-- `left` is what remains of a recorded path once the edges `K` are taken. -/
structure Remaining (K : Set EdgeId) (path left : Path) : Prop where
  nodup : left.Nodup
  mem : ∀ id, id ∈ left ↔ id ∈ path ∧ id ∉ K

namespace Remaining

variable {K : Set EdgeId} {path left : Path}

theorem start (h : path.Nodup) : Remaining ∅ path path := ⟨h, fun id => by simp⟩

theorem erase (h : Remaining K path left) (id : EdgeId) :
    Remaining (insert id K) path (left.erase id) := by
  refine ⟨h.nodup.erase id, fun i => ?_⟩
  rw [h.nodup.mem_erase_iff, h.mem, Set.mem_insert_iff]
  tauto

theorem isEmpty_iff (h : Remaining K path left) : left.isEmpty = true ↔ ∀ id ∈ path, id ∈ K := by
  rw [List.isEmpty_iff, List.eq_nil_iff_forall_not_mem]
  constructor
  · intro hn id hid
    by_contra hK
    exact hn id ((h.mem id).mpr ⟨hid, hK⟩)
  · intro hall id hid
    obtain ⟨hp, hK⟩ := (h.mem id).mp hid
    exact hK (hall id hp)

end Remaining

variable {paths : List Path}

theorem any_isEmpty_iff {K : Set EdgeId} {left : List Path}
    (h : List.Forall₂ (Remaining K) paths left) :
    left.any List.isEmpty = true ↔ ∃ path ∈ paths, ∀ id ∈ path, id ∈ K := by
  induction h with
  | nil => simp
  | cons hp _ ih =>
    rw [List.any_cons, Bool.or_eq_true, ih, hp.isEmpty_iff, List.exists_mem_cons_iff]

/-- Some recorded path has been taken completely. -/
def Opened (paths : List Path) (K : Set EdgeId) : Prop :=
  K.Nonempty ∧ ∃ path ∈ paths, ∀ id ∈ path, id ∈ K

theorem Opened.mono {K K' : Set EdgeId} (h : Opened paths K) (hK : K ⊆ K') :
    Opened paths K' := by
  obtain ⟨hne, path, hp, hall⟩ := h
  exact ⟨hne.mono hK, path, hp, fun id hid => hK (hall id hid)⟩

/-- The coordinator follows the paths `P` of its response nodes, where `K r` are the edges
already struck out for node `r`. -/
structure Follows (P : NodeId → List Path) (K : NodeId → Set EdgeId) (c : Coordinator) :
    Prop where
  paths : ∀ r ∈ c.responseNodes, ∃ left, c.pathsMaps[r]? = some left ∧
    List.Forall₂ (Remaining (K r)) (P r) left
  pending : ∀ r, c.responseSessions[r]?.isSome = true ↔
    r ∈ c.responseNodes ∧ r ∉ c.activations
  activated : ∀ r, r ∈ c.activations ↔ r ∈ c.responseNodes ∧ Opened (P r) (K r)
  nodup : c.activations.Nodup

/-- The response nodes, their paths and their pending sessions are the same. -/
structure SameSessions (c c' : Coordinator) : Prop where
  responseNodes : c'.responseNodes = c.responseNodes
  pathsMaps : c'.pathsMaps = c.pathsMaps
  responseSessions : c'.responseSessions = c.responseSessions
  activations : c'.activations = c.activations

theorem SameSessions.refl (c : Coordinator) : SameSessions c c := ⟨rfl, rfl, rfl, rfl⟩

namespace Follows

variable {P : NodeId → List Path} {K : NodeId → Set EdgeId} {c c' : Coordinator}

theorem congr (h : Follows P K c) (hs : SameSessions c c') : Follows P K c' := by
  refine ⟨?_, ?_, ?_, by rw [hs.activations]; exact h.nodup⟩
  · rw [hs.responseNodes, hs.pathsMaps]
    exact h.paths
  · rw [hs.responseNodes, hs.responseSessions, hs.activations]
    exact h.pending
  · rw [hs.responseNodes, hs.activations]
    exact h.activated

theorem congr_taken (h : Follows P K c) {K' : NodeId → Set EdgeId}
    (hK : ∀ r ∈ c.responseNodes, K' r = K r) : Follows P K' c := by
  refine ⟨fun r hr => ?_, h.pending, fun r => ?_, h.nodup⟩
  · rw [hK r hr]
    exact h.paths r hr
  · rw [h.activated r]
    refine and_congr_right fun hr => ?_
    rw [hK r hr]

theorem fresh (o : SetOrder NodeId) : Follows P K { setOrder := o } := by
  refine ⟨?_, ?_, ?_, .nil⟩ <;> simp

end Follows

namespace Coordinator

variable (v : View) {P : NodeId → List Path} {K : NodeId → Set EdgeId} {c : Coordinator}

private theorem sameSessions_flushed {c c' : Coordinator} (h : Flushed c c') :
    SameSessions c c' := by
  obtain ⟨⟨p, i, rfl⟩, -⟩ := h
  exact ⟨rfl, rfl, rfl, rfl⟩

private theorem sameSessions_flushSession (waiting : List ResponseSession) (c : Coordinator)
    (s : ResponseSession) : SameSessions c (flushSession v waiting c s).1 := by
  induction waiting generalizing c s with
  | nil =>
    unfold flushSession
    have hf := sameSessions_flushed
      (flushed_flushSegments v (s.template.segments.drop s.index) c s).1
    generalize flushSegments v (s.template.segments.drop s.index) c s = r at hf
    obtain ⟨c', s', events⟩ := r
    simp only []
    split
    next => exact ⟨hf.responseNodes, hf.pathsMaps, hf.responseSessions, hf.activations⟩
    next => exact ⟨hf.responseNodes, hf.pathsMaps, hf.responseSessions, hf.activations⟩
  | cons next rest ih =>
    unfold flushSession
    have hf := sameSessions_flushed
      (flushed_flushSegments v (s.template.segments.drop s.index) c s).1
    generalize flushSegments v (s.template.segments.drop s.index) c s = r at hf
    obtain ⟨c', s', events⟩ := r
    simp only []
    split
    next =>
      have hr := ih c' next
      exact ⟨hr.responseNodes.trans hf.responseNodes, hr.pathsMaps.trans hf.pathsMaps,
        hr.responseSessions.trans hf.responseSessions, hr.activations.trans hf.activations⟩
    next => exact ⟨hf.responseNodes, hf.pathsMaps, hf.responseSessions, hf.activations⟩

theorem sameSessions_tryFlush (c : Coordinator) : SameSessions c (c.tryFlush v).1 := by
  unfold tryFlush
  split
  next => exact .refl c
  next s _ => exact sameSessions_flushSession v c.waitingSessions c s

theorem sameSessions_interceptChunk {event : StreamChunk} {c' : Coordinator}
    {emitted : List Emission} (h : c.interceptChunk v event = .ok (c', emitted)) :
    SameSessions c c' := by
  obtain ⟨d, happend, rfl, -⟩ := interceptChunk_eq_ok h
  obtain ⟨-, rfl⟩ := appendStreamChunk_eq_ok happend
  have ht := fun d => sameSessions_tryFlush v d
  split
  next => exact ⟨(ht _).responseNodes, (ht _).pathsMaps, (ht _).responseSessions,
      (ht _).activations⟩
  next => exact ⟨(ht _).responseNodes, (ht _).pathsMaps, (ht _).responseSessions,
      (ht _).activations⟩

variable {r : NodeId}

/-- Activating a pending session records it and removes it from the pending ones. -/
theorem activeOrQueueSession_pending {session : ResponseSession}
    (h : c.responseSessions[r]? = some session) : SameSessions { c with
      responseSessions := c.responseSessions.erase r
      activations := c.activations ++ [r] } (c.activeOrQueueSession v r).1 := by
  unfold activeOrQueueSession
  simp only [h]
  split
  next =>
    have ht := fun d => sameSessions_tryFlush v d
    exact ⟨(ht _).responseNodes, (ht _).pathsMaps, (ht _).responseSessions, (ht _).activations⟩
  next => exact ⟨rfl, rfl, rfl, rfl⟩

theorem activeOrQueueSession_absent (h : c.responseSessions[r]? = none) :
    c.activeOrQueueSession v r = (c, []) := by
  unfold activeOrQueueSession
  simp only [h]

private theorem activeOrQueueSession_responseNodes (c : Coordinator) (r : NodeId) :
    (c.activeOrQueueSession v r).1.responseNodes = c.responseNodes := by
  cases hs : c.responseSessions[r]? with
  | none => rw [activeOrQueueSession_absent v hs]
  | some session => exact (activeOrQueueSession_pending v hs).responseNodes

private theorem updateResponseNode_responseNodes (c : Coordinator) (edgeId : EdgeId)
    (r : NodeId) : (c.updateResponseNode v edgeId r).1.responseNodes = c.responseNodes := by
  unfold updateResponseNode
  split
  next => rfl
  next paths _ =>
    simp only []
    split
    next => exact activeOrQueueSession_responseNodes v _ r
    next => rfl

theorem onEdgeTaken_responseNodes (c : Coordinator) (edgeId : EdgeId) :
    (c.onEdgeTaken v edgeId).1.responseNodes = c.responseNodes := by
  unfold onEdgeTaken
  generalize c.setOrder.iterate c.responseNodes = ids
  induction ids generalizing c with
  | nil => rfl
  | cons r ids ih => exact (ih _).trans (updateResponseNode_responseNodes v c edgeId r)

private theorem follows_updateResponseNode (h : Follows P K c) (edgeId : EdgeId)
    (hr : r ∈ c.responseNodes) : Follows P (Function.update K r (insert edgeId (K r)))
      (c.updateResponseNode v edgeId r).1 := by
  obtain ⟨left, hleft, hrem⟩ := h.paths r hr
  have hrem' : List.Forall₂ (Remaining (insert edgeId (K r))) (P r)
      (left.map (·.erase edgeId)) :=
    List.forall₂_map_right_iff.mpr (hrem.imp fun _ _ hp => hp.erase edgeId)
  have hopen : (left.map (·.erase edgeId)).any List.isEmpty = true ↔
      Opened (P r) (insert edgeId (K r)) := by
    rw [any_isEmpty_iff hrem']
    exact ⟨fun hp => ⟨⟨edgeId, .inl rfl⟩, hp⟩, fun hp => hp.2⟩
  have hself : Function.update K r (insert edgeId (K r)) r = insert edgeId (K r) :=
    Function.update_self ..
  have hother : ∀ r', r' ≠ r → Function.update K r (insert edgeId (K r)) r' = K r' :=
    fun r' hne => Function.update_of_ne hne _ _
  have hpaths : ∀ r' ∈ c.responseNodes, ∃ left',
      (c.pathsMaps.insert r (left.map (·.erase edgeId)))[r']? = some left' ∧
      List.Forall₂ (Remaining (Function.update K r (insert edgeId (K r)) r')) (P r') left' := by
    intro r' hr'
    rw [Std.ExtTreeMap.getElem?_insert]
    by_cases hrr : r' = r
    · subst hrr
      rw [hself, if_pos (by simp)]
      exact ⟨_, rfl, hrem'⟩
    · rw [hother r' hrr, if_neg (by simpa using fun he => hrr he.symm)]
      exact h.paths r' hr'
  unfold updateResponseNode
  simp only [hleft]
  split
  next hany =>
    have hopened := hopen.mp hany
    cases hs : c.responseSessions[r]? with
    | none =>
      -- The session was activated by an earlier edge; nothing happens again.
      have hact : r ∈ c.activations := by
        by_contra hna
        have := (h.pending r).mpr ⟨hr, hna⟩
        rw [hs] at this
        cases this
      rw [activeOrQueueSession_absent v
        (c := { c with pathsMaps := c.pathsMaps.insert r (left.map (·.erase edgeId)) }) hs]
      refine ⟨hpaths, h.pending, fun r' => ?_, h.nodup⟩
      by_cases hrr : r' = r
      · subst hrr
        rw [hself]
        exact iff_of_true hact ⟨hr, hopened⟩
      · rw [hother r' hrr]
        exact h.activated r'
    | some session =>
      have hna : r ∉ c.activations := ((h.pending r).mp (by rw [hs]; rfl)).2
      have hsame := activeOrQueueSession_pending v
        (c := { c with pathsMaps := c.pathsMaps.insert r (left.map (·.erase edgeId)) }) hs
      refine Follows.congr ⟨hpaths, fun r' => ?_, fun r' => ?_, ?_⟩ hsame
      · simp only [Std.ExtTreeMap.getElem?_erase, List.mem_append, List.mem_singleton]
        by_cases hrr : r' = r
        · subst hrr
          simp
        · rw [if_neg (by simpa using fun he => hrr he.symm), h.pending r']
          simp [hrr]
      · simp only [List.mem_append, List.mem_singleton]
        by_cases hrr : r' = r
        · subst hrr
          rw [hself]
          exact iff_of_true (.inr rfl) ⟨hr, hopened⟩
        · rw [hother r' hrr, ← h.activated r', or_iff_left hrr]
      · exact h.nodup.append (List.nodup_singleton r) (by simpa using hna)
  next hany =>
    refine ⟨hpaths, h.pending, fun r' => ?_, h.nodup⟩
    by_cases hrr : r' = r
    · subst hrr
      rw [hself]
      refine iff_of_false (fun hact => ?_) fun hop => hany (hopen.mpr hop.2)
      have hop := ((h.activated r').mp hact).2
      exact hany (hopen.mpr (hop.mono (Set.subset_insert _ _)))
    · rw [hother r' hrr]
      exact h.activated r'

theorem follows_onEdgeTaken {K : Set EdgeId} (h : Follows P (fun _ => K) c) (edgeId : EdgeId) :
    Follows P (fun _ => insert edgeId K) (c.onEdgeTaken v edgeId).1 := by
  unfold onEdgeTaken
  -- The nodes still to be visited have `K` struck out, the others `insert edgeId K`.
  suffices hall : ∀ (ids : List NodeId) (c : Coordinator), ids.Nodup →
      (∀ r ∈ ids, r ∈ c.responseNodes) →
      Follows P (fun r => if r ∈ ids then K else insert edgeId K) c →
      Follows P (fun _ => insert edgeId K) (updateResponseNodes v edgeId ids c).1 by
    refine hall _ c (c.setOrder.nodup_iterate _) (fun r hr => (c.setOrder.mem_iterate _ r).mp hr)
      (h.congr_taken fun r hr => ?_)
    rw [if_pos ((c.setOrder.mem_iterate _ r).mpr hr)]
  intro ids
  induction ids with
  | nil =>
    intro c _ _ hf
    exact hf.congr_taken fun r _ => by simp
  | cons r ids ih =>
    intro c hnd hmem hf
    obtain ⟨hrn, hnd'⟩ := List.nodup_cons.mp hnd
    have hstep := follows_updateResponseNode v hf edgeId (hmem r (by simp))
    have hnodes := updateResponseNode_responseNodes v c edgeId r
    refine ih _ hnd' (fun r' hr' => by rw [hnodes]; exact hmem r' (by simp [hr']))
      (hstep.congr_taken fun r' _ => ?_)
    by_cases hrr : r' = r
    · subst hrr
      rw [if_neg hrn, Function.update_self, if_pos List.mem_cons_self]
    · rw [Function.update_of_ne hrr]
      simp [hrr]

end Coordinator

/-! ### Registration -/

/-- The paths `_build_paths_map` records for a node of the graph. -/
def recordedPaths (g : Graph) (r : NodeId) : List Path :=
  match g.node? r with
  | some n => (Coordinator.buildPathsMap g n).toOption.getD []
  | none => []

variable {g : Graph} {n : Node}

private theorem buildPathsMap_nodup (hg : g.Acyclic)
    (h : Coordinator.buildPathsMap g n = .ok paths) : ∀ path ∈ paths, path.Nodup := by
  by_cases hroot : g.root = n.id
  · unfold Coordinator.buildPathsMap at h
    rw [if_pos hroot] at h
    cases h
    simp
  · obtain ⟨-, -, -, hnd⟩ := mem_buildPathsMap hg hroot h
    exact hnd

/-- A new registration: its paths are recorded in full and its session is pending. -/
theorem Follows.register (hg : g.Acyclic) {c c' : Coordinator}
    (h : Follows (recordedPaths g) (fun _ => ∅) c) (hn : n ∈ g.nodes)
    (hc : c.register g n = .ok c') : Follows (recordedPaths g) (fun _ => ∅) c' := by
  rcases Coordinator.register_cases hc with ⟨rfl, -⟩ | ⟨paths, session, -, hp, -, rfl⟩
  · exact h
  · have hrec : recordedPaths g n.id = paths := by
      simp only [recordedPaths, g.node?_of_mem hn, hp]
      rfl
    have hnodes : ∀ r, r ∈ c.responseNodes.insert n.id ↔ r = n.id ∨ r ∈ c.responseNodes := by
      intro r
      rw [Std.ExtTreeSet.mem_insert, Std.LawfulEqOrd.compare_eq_iff_eq, eq_comm]
    have hnone : ∀ r, r ∉ c.activations := by
      intro r hr
      obtain ⟨-, ⟨id, hid⟩, -⟩ := (h.activated r).mp hr
      exact hid
    refine ⟨fun r hr => ?_, fun r => ?_, fun r => ?_, h.nodup⟩
    · rw [Std.ExtTreeMap.getElem?_insert]
      by_cases hrn : r = n.id
      · subst hrn
        rw [if_pos (by simp), hrec]
        exact ⟨paths, rfl, List.forall₂_same.mpr fun path hpath =>
          .start (buildPathsMap_nodup hg hp path hpath)⟩
      · rw [if_neg (by simpa using fun he => hrn he.symm)]
        exact h.paths r (((hnodes r).mp hr).resolve_left hrn)
    · rw [Std.ExtTreeMap.getElem?_insert, hnodes]
      by_cases hrn : r = n.id
      · subst hrn
        simp [hnone]
      · rw [if_neg (by simpa using fun he => hrn he.symm), h.pending r, or_iff_right hrn]
    · refine iff_of_false (hnone r) ?_
      rintro ⟨-, ⟨id, hid⟩, -⟩
      exact hid

theorem Coordinator.register_responseNodes {c c' : Coordinator}
    (h : c.register g n = .ok c') : ∀ r ∈ c'.responseNodes, r ∈ c.responseNodes ∨
      r = n.id ∧ ∃ session, ResponseSession.fromNode n = .ok session := by
  rcases Coordinator.register_cases h with ⟨rfl, -⟩ | ⟨_, session, -, -, hs, rfl⟩
  · exact fun r hr => .inl hr
  · intro r hr
    rw [Std.ExtTreeSet.mem_insert, Std.LawfulEqOrd.compare_eq_iff_eq] at hr
    rcases hr with rfl | hr
    · exact .inr ⟨rfl, session, hs⟩
    · exact .inl hr

end PlatformSpec.Response
