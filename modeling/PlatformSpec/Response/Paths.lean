import PlatformSpec.Response.Coordinator

/-!
# The paths to a response node

`_build_paths_map` enumerates paths that visit no node twice. On an acyclic graph these are
all the walks from the root, so a path of blocking edges is a walk with the other edges
left out.
-/

namespace PlatformSpec.Response

open Workflow PlatformSpec.Runtime

/-- The edges lead from the first node to the last, one after the other. -/
inductive Walk (g : Graph) : NodeId → List Edge → NodeId → Prop where
  | nil (u : NodeId) : Walk g u [] u
  | cons {e : Edge} {es : List Edge} {v : NodeId} (he : e ∈ g.edges) (h : Walk g e.head es v) :
    Walk g e.tail (e :: es) v

namespace Walk

variable {g : Graph} {u v : NodeId} {es : List Edge}

theorem mem_edges (h : Walk g u es v) : ∀ e ∈ es, e ∈ g.edges := by
  induction h with
  | nil => simp
  | cons he _ ih =>
    intro f hf
    rcases List.mem_cons.mp hf with rfl | hf
    · exact he
    · exact ih f hf

theorem concat {e : Edge} (h : Walk g u es v) (he : e ∈ g.edges) (ht : e.tail = v) :
    Walk g u (es ++ [e]) e.head := by
  induction h with
  | nil =>
    rw [← ht]
    exact .cons he (.nil _)
  | cons hf _ ih => exact .cons hf (ih ht)

theorem nil_inv (h : Walk g u [] v) : u = v := by
  cases h
  rfl

theorem cons_inv {e : Edge} (h : Walk g u (e :: es) v) :
    e.tail = u ∧ e ∈ g.edges ∧ Walk g e.head es v := by
  cases h with
  | cons he h => exact ⟨rfl, he, h⟩

section Height

variable {ht : NodeId → Nat} (hht : ∀ e ∈ g.edges, ht e.head < ht e.tail)
include hht

theorem tail_le (h : Walk g u es v) : ∀ e ∈ es, ht e.tail ≤ ht u := by
  induction h with
  | nil => simp
  | @cons e es v he _ ih =>
    intro f hf
    rcases List.mem_cons.mp hf with rfl | hf
    · exact le_rfl
    · exact (ih f hf).trans (hht e he).le

theorem nodup (h : Walk g u es v) : es.Nodup := by
  induction h with
  | nil => exact .nil
  | @cons e es v he h ih =>
    refine List.nodup_cons.mpr ⟨fun hm => ?_, ih⟩
    have hle := h.tail_le hht e hm
    have hlt := hht e he
    omega

theorem eq_nil (h : Walk g u es u) : es = [] := by
  cases es with
  | nil => rfl
  | cons e es =>
    have hle : ∀ {w : NodeId} {fs : List Edge} {v : NodeId}, Walk g w fs v → ht v ≤ ht w := by
      intro w fs v hw
      induction hw with
      | nil => exact le_rfl
      | @cons f fs v hf _ ih => exact ih.trans (hht f hf).le
    obtain ⟨rfl, he, hrest⟩ := h.cons_inv
    have hlt := hht e he
    have := hle hrest
    omega

end Height
end Walk

/-- With enough fuel, and only higher nodes visited, the search finds the walks to its
target and nothing else. -/
theorem mem_findPaths {g : Graph} {ht : NodeId → Nat}
    (hht : ∀ e ∈ g.edges, ht e.head < ht e.tail) {target : NodeId} (fuel : Nat) :
    ∀ (current : NodeId) (currentPath : List Edge) (visited : List NodeId), ht current < fuel →
      (∀ w ∈ visited, ht current < ht w) → ∀ path,
      path ∈ findPaths g target fuel current currentPath visited ↔
        ∃ es, Walk g current es target ∧ path = currentPath ++ es := by
  induction fuel with
  | zero =>
    intro current _ _ hlt
    omega
  | succ fuel ih =>
    intro current currentPath visited hlt hvisited path
    unfold findPaths
    by_cases hc : current = target
    · subst hc
      rw [if_pos rfl, List.mem_singleton]
      constructor
      · rintro rfl
        exact ⟨[], .nil _, by simp⟩
      · rintro ⟨es, hw, rfl⟩
        rw [hw.eq_nil hht, List.append_nil]
    · rw [if_neg hc, List.mem_flatMap]
      -- The head of an outgoing edge lies below everything visited so far.
      have hstep : ∀ e ∈ g.outgoing current, e.head ∉ current :: visited ∧
          ht e.head < fuel ∧ ∀ w ∈ current :: visited, ht e.head < ht w := by
        intro e he
        obtain ⟨hem, rfl⟩ := Graph.mem_outgoing.mp he
        have hlow := hht e hem
        have hall : ∀ w ∈ e.tail :: visited, ht e.head < ht w := by
          intro w hw
          rcases List.mem_cons.mp hw with rfl | hw
          · exact hlow
          · exact hlow.trans (hvisited w hw)
        exact ⟨fun hm => (hall _ hm).ne rfl, by omega, hall⟩
      constructor
      · rintro ⟨e, he, hp⟩
        obtain ⟨hnew, hfuel, hall⟩ := hstep e he
        rw [if_neg hnew, ih e.head _ _ hfuel hall] at hp
        obtain ⟨es, hw, rfl⟩ := hp
        obtain ⟨hem, rfl⟩ := Graph.mem_outgoing.mp he
        exact ⟨e :: es, .cons hem hw, by simp⟩
      · rintro ⟨es, hw, rfl⟩
        cases es with
        | nil =>
          cases hw
          exact absurd rfl hc
        | cons e es =>
          obtain ⟨hte, hem, hrest⟩ := hw.cons_inv
          have he := Graph.mem_outgoing.mpr ⟨hem, hte⟩
          obtain ⟨hnew, hfuel, hall⟩ := hstep e he
          refine ⟨e, he, ?_⟩
          rw [if_neg hnew, ih e.head _ _ hfuel hall]
          exact ⟨es, hrest, by simp⟩

/-- The paths `_build_paths_map` records for a node that is not the root: the blocking
edges of the walks from the root, none of them twice. -/
theorem mem_buildPathsMap {g : Graph} (hg : g.Acyclic) {n : Node} {paths : List Path}
    (hroot : g.root ≠ n.id) (h : Coordinator.buildPathsMap g n = .ok paths) :
    ∃ session, ResponseSession.fromNode n = .ok session ∧
      (∀ path, path ∈ paths ↔ ∃ es, Walk g g.root es n.id ∧
        path = (es.filter (isBlocking g (variableSelectors session.template))).map Edge.id) ∧
      ∀ path ∈ paths, path.Nodup := by
  obtain ⟨ht, hht, hle⟩ := Graph.exists_height hg
  unfold Coordinator.buildPathsMap at h
  simp only [if_neg hroot, bind, Except.bind] at h
  split at h
  next => cases h
  next session hs =>
    cases h
    have hiff : ∀ path, path ∈ findPaths g n.id (g.nodes.length + 1) g.root [] [] ↔
        Walk g g.root path n.id := by
      intro path
      have hlt : ht g.root < g.nodes.length + 1 := Nat.lt_succ_of_le (hle _)
      rw [mem_findPaths hht _ g.root [] [] hlt (by simp)]
      simp
    refine ⟨session, hs, fun path => ?_, fun path hp => ?_⟩
    · rw [List.mem_map]
      constructor
      · rintro ⟨es, hes, rfl⟩
        exact ⟨es, (hiff es).mp hes, rfl⟩
      · rintro ⟨es, hw, rfl⟩
        exact ⟨es, (hiff es).mpr hw, rfl⟩
    · obtain ⟨es, hes, rfl⟩ := List.mem_map.mp hp
      have hw := (hiff es).mp hes
      refine ((hw.nodup hht).filter _).map_on ?_
      intro e he f hf heq
      exact g.edge_ext (hw.mem_edges e (List.mem_filter.mp he).1)
        (hw.mem_edges f (List.mem_filter.mp hf).1) heq

end PlatformSpec.Response
