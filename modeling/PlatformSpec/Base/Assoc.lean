import Mathlib.Data.List.Induction

/-!
# Dictionaries as lists of pairs

Dictionaries that remember the order in which their keys first came, with at most one value for
each key: an assignment to a key replaces its value in place. Nothing here mentions a
particular system.
-/

namespace PlatformSpec.Base.Assoc

universe u v

variable {κ : Type u} {α : Type v} [DecidableEq κ]

/-- `d[k] = v`. -/
def assign : List (κ × α) → κ → α → List (κ × α)
  | [], k, v => [(k, v)]
  | (k', v') :: d, k, v => if k' = k then (k, v) :: d else (k', v') :: assign d k v

/-- A dictionary comprehension over pairs: later pairs win. -/
def ofPairs (l : List (κ × α)) : List (κ × α) := l.foldl (fun d p => assign d p.1 p.2) []

/-- An assignment is read back; other keys keep their value. -/
theorem lookup_assign (d : List (κ × α)) (k k' : κ) (v : α) :
    (assign d k v).lookup k' = if k' = k then some v else d.lookup k' := by
  induction d with
  | nil =>
    by_cases h : k' = k
    · simp [assign, h]
    · simp [assign, h]
  | cons p d ih =>
    obtain ⟨a, b⟩ := p
    unfold assign
    by_cases ha : a = k
    · subst ha
      by_cases h : k' = a
      · simp [h]
      · simp [List.lookup_cons, h, beq_false_of_ne h]
    · by_cases h : k' = a
      · subst h
        simp [ha]
      · simp [ha, List.lookup_cons, beq_false_of_ne h, ih]

variable {d l : List (κ × α)} {k : κ}

/-- Assigning the value that is there changes nothing. -/
theorem assign_of_lookup {v : α} (h : d.lookup k = some v) :
    assign d k v = d := by
  induction d with
  | nil => cases h
  | cons p d ih =>
    obtain ⟨a, b⟩ := p
    unfold assign
    by_cases ha : a = k
    · subst ha
      rw [List.lookup_cons_self] at h
      cases h
      rw [if_pos rfl]
    · rw [List.lookup_cons, beq_false_of_ne (Ne.symm ha)] at h
      rw [if_neg ha, ih h]

/-- A value that is not the one assigned was at its place before. -/
theorem getElem?_of_assign {v w : α} {i : Nat}
    (h : ((assign d k v).map Prod.snd)[i]? = some w) : w = v ∨ (d.map Prod.snd)[i]? = some w := by
  induction d generalizing i with
  | nil => exact .inl (List.mem_singleton.mp (List.mem_of_getElem? h))
  | cons p d ih =>
    obtain ⟨a, b⟩ := p
    unfold assign at h
    split at h
    next =>
      cases i with
      | zero => exact .inl (Option.some.inj h).symm
      | succ i => exact .inr h
    next =>
      cases i with
      | zero => exact .inr h
      | succ i => exact ih h

theorem keys_assign (d : List (κ × α)) (k : κ) (a : α) :
    (assign d k a).map Prod.fst =
      if k ∈ d.map Prod.fst then d.map Prod.fst else d.map Prod.fst ++ [k] := by
  induction d with
  | nil => simp [assign]
  | cons p d ih =>
    obtain ⟨k', b⟩ := p
    rw [assign]
    by_cases hk : k' = k
    · simp [hk]
    · rw [if_neg hk, List.map_cons, ih]
      by_cases hmem : k ∈ d.map Prod.fst
      · simp [hmem, Ne.symm hk]
      · simp [hmem, Ne.symm hk]

theorem ofPairs_concat (l : List (κ × α)) (p : κ × α) :
    ofPairs (l ++ [p]) = assign (ofPairs l) p.1 p.2 := by
  simp [ofPairs]

theorem assign_of_not_mem (h : k ∉ d.map Prod.fst) (v : α) :
    assign d k v = d ++ [(k, v)] := by
  induction d with
  | nil => rfl
  | cons p d ih =>
    rw [List.map_cons, List.mem_cons, not_or] at h
    rw [assign, if_neg (Ne.symm h.1), ih h.2]
    rfl

/-- Pairs with different keys are a dictionary. -/
theorem ofPairs_of_nodup (h : (l.map Prod.fst).Nodup) : ofPairs l = l := by
  induction l using List.reverseRecOn with
  | nil => rfl
  | append_singleton l p ih =>
    rw [List.map_append, List.nodup_append] at h
    have hp : p.1 ∉ l.map Prod.fst := fun hmem => h.2.2 _ hmem _ List.mem_cons_self rfl
    rw [ofPairs_concat, ih h.1, assign_of_not_mem hp]

/-- What is read from a comprehension is the value of the last pair with the key. -/
theorem lookup_ofPairs (l : List (κ × α)) (k : κ) :
    (ofPairs l).lookup k = l.reverse.lookup k := by
  induction l using List.reverseRecOn with
  | nil => rfl
  | append_singleton l p ih =>
    rw [ofPairs_concat, lookup_assign, ih, List.reverse_append, List.reverse_singleton,
      List.singleton_append, List.lookup_cons]
    by_cases h : k = p.1
    · simp [h]
    · simp [h, beq_false_of_ne h]

variable {p : κ × α}

/-- A key that was given is in the comprehension, with a value given for it. -/
theorem exists_of_mem (hp : p ∈ l) : ∃ v, (ofPairs l).lookup p.1 = some v ∧ (p.1, v) ∈ l := by
  rw [lookup_ofPairs]
  have hmem : p ∈ l.reverse := List.mem_reverse.mpr hp
  cases h : l.reverse.lookup p.1 with
  | none => simpa using List.lookup_eq_none_iff.mp h p hmem
  | some v =>
    obtain ⟨front, back, hsplit, -⟩ := List.lookup_eq_some_iff.mp h
    refine ⟨v, rfl, List.mem_reverse.mp ?_⟩
    rw [hsplit]
    simp

/-- A comprehension gives every pair back if and only if no key was given two values. -/
theorem lookup_ofPairs_all_iff : (∀ p ∈ l, (ofPairs l).lookup p.1 = some p.2) ↔
      ∀ p ∈ l, ∀ q ∈ l, p.1 = q.1 → p.2 = q.2 := by
  constructor
  · intro h p hp q hq he
    have hpq := (h p hp).symm.trans ((congrArg (fun k => (ofPairs l).lookup k) he).trans (h q hq))
    exact Option.some.inj hpq
  · intro h p hp
    obtain ⟨v, hv, hmem⟩ := exists_of_mem hp
    rw [hv, h p hp (p.1, v) hmem rfl]

/-- Pairs there are make an entry. -/
theorem ofPairs_ne_nil (h : l ≠ []) : ofPairs l ≠ [] := by
  obtain ⟨p, hp⟩ := List.exists_mem_of_ne_nil l h
  obtain ⟨v, hv, -⟩ := exists_of_mem hp
  intro hnil
  rw [hnil] at hv
  cases hv

theorem mem_assign {v : α} (h : p ∈ assign d k v) : p = (k, v) ∨ p ∈ d := by
  induction d with
  | nil => exact .inl (List.mem_singleton.mp h)
  | cons q d ih =>
    obtain ⟨a, b⟩ := q
    unfold assign at h
    split at h
    next ha =>
      rcases List.mem_cons.mp h with h | h
      · exact .inl h
      · exact .inr (List.mem_cons_of_mem _ h)
    next =>
      rcases List.mem_cons.mp h with h | h
      · exact .inr (h ▸ List.mem_cons_self)
      · exact (ih h).imp id (List.mem_cons_of_mem _)

/-- Every entry of a comprehension was given. -/
theorem mem_ofPairs (h : p ∈ ofPairs l) : p ∈ l := by
  induction l using List.reverseRecOn with
  | nil => exact h
  | append_singleton l q ih =>
    rw [ofPairs_concat] at h
    rcases mem_assign h with rfl | h
    · simp
    · exact List.mem_append_left _ (ih h)

end PlatformSpec.Base.Assoc
