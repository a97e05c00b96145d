import Mathlib.Data.List.Nodup
import PlatformSpec.Base.Assoc

/-!
# One element for each key

The elements of a list are gathered in a dictionary by their keys; of two elements with one key a
choice keeps one. Nothing here mentions a particular system.
-/

namespace PlatformSpec.Base.Keyed

open Assoc

universe u v w

variable {α : Type u} {κ : Type v} {κ' : Type w} [DecidableEq κ] [DecidableEq κ']

/-- The element comes first for its key or competes with the one that is there. -/
def add (key : α → κ) (pick : α → α → α) (chosen : List (κ × α)) (a : α) : List (κ × α) :=
  match chosen.lookup (key a) with
  | none => assign chosen (key a) a
  | some old => assign chosen (key a) (pick old a)

/-- The elements kept for the keys, in the order in which the keys first came. -/
def gather (key : α → κ) (pick : α → α → α) (l : List α) : List (κ × α) :=
  l.foldl (add key pick) []

/-- The element that is kept of some with one key. -/
def best (pick : α → α → α) : List α → Option α
  | [] => none
  | a :: l => some (l.foldl pick a)

variable {key : α → κ} {pick : α → α → α} {l : List α}

theorem gather_concat (l : List α) (a : α) :
    gather key pick (l ++ [a]) = add key pick (gather key pick l) a := by
  rw [gather, List.foldl_append]
  rfl

theorem best_concat (l : List α) (a : α) :
    best pick (l ++ [a]) = some ((best pick l).elim a fun b => pick b a) := by
  cases l with
  | nil => rfl
  | cons b l => rw [List.cons_append, best, List.foldl_append]; rfl

theorem best_eq_none_iff : best pick l = none ↔ l = [] := by
  cases l with
  | nil => exact iff_of_true rfl rfl
  | cons a l => exact iff_of_false (Option.some_ne_none _) (List.cons_ne_nil a l)

/-- A choice between two keeps elements of the list. -/
theorem mem_of_best (hpick : ∀ a b, pick a b = a ∨ pick a b = b) {b : α}
    (h : best pick l = some b) : b ∈ l := by
  induction l using List.reverseRecOn generalizing b with
  | nil => cases h
  | append_singleton l a ih =>
    rw [best_concat] at h
    cases h
    apply List.mem_append.mpr
    cases hold : best pick l with
    | none => exact .inr (List.mem_singleton_self a)
    | some old =>
      rcases hpick old a with hkeep | hkeep
      · left
        rw [Option.elim_some, hkeep]
        exact ih hold
      · right
        rw [Option.elim_some, hkeep]
        exact List.mem_singleton_self a

/-- A key has the element kept of those with the key. -/
theorem lookup_gather (l : List α) (k : κ) :
    (gather key pick l).lookup k = best pick (l.filter fun a => key a = k) := by
  induction l using List.reverseRecOn with
  | nil => rfl
  | append_singleton l a ih =>
    rw [gather_concat, List.filter_append]
    by_cases hk : key a = k
    · subst hk
      have hsingle : [a].filter (fun b => key b = key a) = [a] := by simp
      rw [hsingle, best_concat, ← ih, add]
      cases (gather key pick l).lookup (key a) with
      | none => simp [lookup_assign]
      | some old => simp [lookup_assign]
    · have hnone : [a].filter (fun b => key b = k) = [] := by simp [hk]
      rw [hnone, List.append_nil, ← ih, add]
      cases (gather key pick l).lookup (key a) with
      | none => simp [lookup_assign, Ne.symm hk]
      | some old => simp [lookup_assign, Ne.symm hk]

/-- Without repetitions an element at the end stands if it did not occur. -/
theorem eraseDups_concat (ks : List κ) (k : κ) :
    (ks ++ [k]).eraseDups = if k ∈ ks then ks.eraseDups else ks.eraseDups ++ [k] := by
  rw [List.eraseDups_append]
  by_cases hk : k ∈ ks
  · simp [List.removeAll, hk]
  · simp [List.removeAll, hk, List.eraseDups_cons]

/-- The keys are those of the list, each where it first came. -/
theorem keys_gather (l : List α) :
    (gather key pick l).map Prod.fst = (l.map key).eraseDups := by
  induction l using List.reverseRecOn with
  | nil => rfl
  | append_singleton l a ih =>
    have hkeys : (gather key pick (l ++ [a])).map Prod.fst =
        if key a ∈ (gather key pick l).map Prod.fst then (gather key pick l).map Prod.fst
        else (gather key pick l).map Prod.fst ++ [key a] := by
      rw [gather_concat, add]
      split
      · rw [keys_assign]
      · rw [keys_assign]
    rw [hkeys, ih, List.map_append, List.map_singleton, eraseDups_concat]
    apply if_congr _ rfl rfl
    rw [List.mem_eraseDups]

theorem nodup_eraseDups (ks : List κ) : ks.eraseDups.Nodup := by
  induction ks using List.reverseRecOn with
  | nil => exact List.nodup_nil
  | append_singleton ks k ih =>
    rw [eraseDups_concat]
    split
    next => exact ih
    next hk =>
      apply List.nodup_append.mpr
      refine ⟨ih, List.nodup_singleton k, ?_⟩
      rintro a ha b hb rfl
      rw [List.mem_singleton.mp hb, List.mem_eraseDups] at ha
      exact hk ha

/-- Elements with different keys are all kept. -/
theorem gather_of_nodup (h : (l.map key).Nodup) :
    gather key pick l = l.map fun a => (key a, a) := by
  induction l using List.reverseRecOn with
  | nil => rfl
  | append_singleton l a ih =>
    rw [List.map_append, List.nodup_append] at h
    obtain ⟨hl, -, hne⟩ := h
    have hnew : key a ∉ (l.map fun a => (key a, a)).map Prod.fst := by
      intro hmem
      rw [List.map_map] at hmem
      exact hne _ hmem _ List.mem_cons_self rfl
    have hnone : (l.map fun a => (key a, a)).lookup (key a) = none := by
      rw [List.lookup_eq_none_iff]
      rintro ⟨k, b⟩ hp
      apply bne_iff_ne.mpr
      intro he
      exact hnew (he ▸ List.mem_map_of_mem hp)
    rw [gather_concat, ih hl, add, hnone, List.map_append]
    exact assign_of_not_mem hnew a

variable {d : List (κ × α)}

/-- An entry of a dictionary is read back. -/
theorem lookup_of_mem (hnodup : (d.map Prod.fst).Nodup) {p : κ × α}
    (h : p ∈ d) : d.lookup p.1 = some p.2 := by
  obtain ⟨front, back, hsplit⟩ := List.append_of_mem h
  rw [hsplit, List.map_append, List.map_cons, List.nodup_append] at hnodup
  rw [List.lookup_eq_some_iff]
  refine ⟨front, back, hsplit, fun q hq => bne_iff_ne.mpr fun he => ?_⟩
  exact hnodup.2.2 _ (List.mem_map_of_mem hq) _ List.mem_cons_self he.symm

theorem mem_of_lookup {k : κ} {a : α} (h : d.lookup k = some a) :
    (k, a) ∈ d := by
  obtain ⟨front, back, hsplit, -⟩ := List.lookup_eq_some_iff.mp h
  rw [hsplit]
  exact List.mem_append_right _ List.mem_cons_self

/-- Reading every key in turn gives the values. -/
theorem filterMap_lookup_keys (h : (d.map Prod.fst).Nodup) :
    ((d.map Prod.fst).filterMap fun k => d.lookup k) = d.map Prod.snd := by
  have hall : ∀ p ∈ d, d.lookup p.1 = some p.2 := fun p hp => lookup_of_mem h hp
  rw [List.filterMap_map, ← List.filterMap_eq_map]
  exact List.filterMap_congr hall

/-- What is kept for a key has the key, if a choice is one of the two. -/
theorem key_of_mem_gather (hpick : ∀ a b, pick a b = a ∨ pick a b = b) {p : κ × α}
    (h : p ∈ gather key pick l) : key p.2 = p.1 ∧ p.2 ∈ l := by
  obtain ⟨k, a⟩ := p
  have hnodup : ((gather key pick l).map Prod.fst).Nodup := by
    rw [keys_gather]
    exact nodup_eraseDups _
  have hlookup : (gather key pick l).lookup k = some a := lookup_of_mem hnodup h
  rw [lookup_gather] at hlookup
  have hmem := List.mem_filter.mp (mem_of_best hpick hlookup)
  exact ⟨of_decide_eq_true hmem.2, hmem.1⟩

/-- A map that tells the elements apart commutes with erasing repetitions. -/
theorem eraseDups_map {h : κ → κ'} {ks : List κ}
    (hinj : ∀ a ∈ ks, ∀ b ∈ ks, h a = h b → a = b) :
    (ks.map h).eraseDups = ks.eraseDups.map h := by
  induction ks using List.reverseRecOn with
  | nil => rfl
  | append_singleton ks k ih =>
    have hfront : ∀ a ∈ ks, ∀ b ∈ ks, h a = h b → a = b := fun a ha b hb =>
      hinj a (List.mem_append_left _ ha) b (List.mem_append_left _ hb)
    have hmem : h k ∈ ks.map h ↔ k ∈ ks := by
      constructor
      · intro hk
        obtain ⟨a, ha, he⟩ := List.mem_map.mp hk
        rwa [← hinj a (List.mem_append_left _ ha) k (by simp) he]
      · exact List.mem_map_of_mem
    rw [List.map_append, List.map_singleton, eraseDups_concat, eraseDups_concat, ih hfront]
    by_cases hk : k ∈ ks
    · rw [if_pos hk, if_pos (hmem.mpr hk)]
    · rw [if_neg hk, if_neg (mt hmem.mp hk), List.map_append, List.map_singleton]

omit [DecidableEq κ] [DecidableEq κ'] in
/-- Lists with one image under a map that tells their elements apart are equal. -/
theorem eq_of_map_eq {h : κ → κ'} {ks ks' : List κ}
    (hinj : ∀ a ∈ ks, ∀ b ∈ ks', h a = h b → a = b) (he : ks.map h = ks'.map h) : ks = ks' := by
  induction ks generalizing ks' with
  | nil => rw [List.map_nil, eq_comm, List.map_eq_nil_iff] at he; exact he.symm
  | cons k ks ih =>
    cases ks' with
    | nil => cases he
    | cons k' ks' =>
      rw [List.map_cons, List.map_cons, List.cons.injEq] at he
      rw [hinj k List.mem_cons_self k' List.mem_cons_self he.1,
        ih (fun a ha b hb => hinj a (List.mem_cons_of_mem _ ha) b (List.mem_cons_of_mem _ hb)) he.2]

end PlatformSpec.Base.Keyed
