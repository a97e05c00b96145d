import Mathlib.Data.List.Flatten
import Mathlib.Data.List.Nodup
import Mathlib.Data.List.Perm.Subperm

/-!
# Replacing what a search finds

A search goes over a text from left to right and passes or finds what stands there; what is found
does not overlap. Where the elements of the text differ, what the search has passed together it
leaves together. Nothing here mentions a particular system.
-/

namespace PlatformSpec.Base.Scan

universe u v w

variable {α : Type u} {ι : Type v} {find : List α → Option (ι × Nat)}

/-- The elements that a search passes, and what it finds, from left to right. -/
def scan (find : List α → Option (ι × Nat)) : (skip : Nat) → List α → List (α ⊕ ι × List α)
  | _, [] => []
  | skip + 1, _ :: text => scan find skip text
  | 0, x :: text =>
    match find (x :: text) with
    | none => .inl x :: scan find 0 text
    | some (i, n) => .inr (i, x :: text.take (n - 1)) :: scan find (n - 1) text

/-- What a search finds is replaced, once. -/
def substitute (find : List α → Option (ι × Nat)) (new : ι × List α → List α)
    (text : List α) : List α :=
  (scan find 0 text).flatMap (Sum.elim ([·]) new)

/-- What is passed and what is found make up the text. -/
theorem flatMap_scan (find : List α → Option (ι × Nat)) (skip : Nat) (text : List α) :
    (scan find skip text).flatMap (Sum.elim ([·]) Prod.snd) = text.drop skip := by
  induction text generalizing skip with
  | nil =>
    rw [scan, List.drop_nil]
    rfl
  | cons x text ih =>
    cases skip with
    | succ skip => rw [scan, ih, List.drop_succ_cons]
    | zero =>
      rw [scan]
      split
      next =>
        rw [List.flatMap_cons, ih]
        rfl
      next i n _ =>
        rw [List.flatMap_cons, ih]
        exact congrArg (x :: ·) (List.take_append_drop (n - 1) text)

theorem scan_skip (skip : Nat) (text : List α) :
    scan find skip text = scan find 0 (text.drop skip) := by
  induction text generalizing skip with
  | nil => rw [List.drop_nil, scan, scan]
  | cons x text ih =>
    cases skip with
    | zero => rfl
    | succ skip => rw [scan, ih, List.drop_succ_cons]

variable {block rest text front part : List α} {i : ι}

/-- What is found at the beginning comes first. -/
theorem scan_found (hblock : block ≠ []) (h : find (block ++ rest) = some (i, block.length)) :
    scan find 0 (block ++ rest) = .inr (i, block) :: scan find 0 rest := by
  cases block with
  | nil => exact absurd rfl hblock
  | cons x block =>
    rw [List.cons_append] at h ⊢
    rw [scan, h]
    show _ :: scan find block.length _ = _
    rw [scan_skip, List.drop_left]
    simp

variable {x y : α}

theorem scan_of_passed (h : find (x :: text) = none) :
    scan find 0 (x :: text) = .inl x :: scan find 0 text := by
  rw [scan, h]

variable {n skip : Nat}

theorem scan_of_found (h : find (x :: text) = some (i, n)) :
    scan find 0 (x :: text) =
      .inr (i, x :: text.take (n - 1)) :: scan find 0 (text.drop (n - 1)) := by
  rw [scan, h]
  simp only
  rw [scan_skip]

/-- A search goes on behind what it passes, and behind what it finds. -/
theorem scan_induction (find : List α → Option (ι × Nat)) {P : List α → Prop} (nil : P [])
    (passed : ∀ x text, find (x :: text) = none → P text → P (x :: text))
    (found : ∀ x text i n, find (x :: text) = some (i, n) → P (text.drop (n - 1)) → P (x :: text))
    (text : List α) : P text := by
  induction h : text.length using Nat.strongRecOn generalizing text with
  | ind length ih =>
    cases text with
    | nil => exact nil
    | cons x text =>
      rw [List.length_cons] at h
      cases hfind : find (x :: text) with
      | none => exact passed x text hfind (ih text.length (by omega) text rfl)
      | some p =>
        refine found x text p.1 p.2 hfind (ih _ ?_ _ rfl)
        rw [List.length_drop]
        omega

variable {new : ι × List α → List α}

theorem substitute_of_passed (h : find (x :: text) = none) :
    substitute find new (x :: text) = x :: substitute find new text := by
  rw [substitute, scan_of_passed h, List.flatMap_cons]
  rfl

theorem substitute_of_found (h : find (x :: text) = some (i, n)) : substitute find new (x :: text) =
      new (i, x :: text.take (n - 1)) ++ substitute find new (text.drop (n - 1)) := by
  rw [substitute, scan_of_found h, List.flatMap_cons]
  rfl

/-- What is left where all that is found is taken out was passed. -/
theorem exists_of_substitute_nil {back : List α}
    (h : substitute find (fun _ => []) text = front ++ x :: back) :
    ∃ front' back', text = front' ++ x :: back' ∧ find (x :: back') = none ∧
      back = substitute find (fun _ => []) back' := by
  induction text using scan_induction find generalizing front with
  | nil =>
    rw [substitute, scan, List.flatMap_nil] at h
    cases front with
    | nil => cases h
    | cons y front => cases h
  | passed y text hnone ih =>
    rw [substitute_of_passed hnone] at h
    cases front with
    | nil =>
      obtain ⟨rfl, hback⟩ := List.cons.inj h
      exact ⟨[], text, rfl, hnone, hback.symm⟩
    | cons z front =>
      obtain ⟨front', back', rfl, hfind, hback⟩ := ih (List.cons.inj h).2
      exact ⟨y :: front', back', rfl, hfind, hback⟩
  | found y text i n hsome ih =>
    rw [substitute_of_found hsome, List.nil_append] at h
    obtain ⟨front', back', htext, hfind, hback⟩ := ih h
    refine ⟨y :: (text.take (n - 1) ++ front'), back', ?_, hfind, hback⟩
    rw [List.cons_append, List.append_assoc, ← htext, List.take_append_drop]

/-- What is found stands where the search found it. -/
theorem found_of_mem_scan (h : .inr (i, block) ∈ scan find skip text) :
    ∃ front x rest n, text = front ++ x :: rest ∧ find (x :: rest) = some (i, n) ∧
      block = x :: rest.take (n - 1) := by
  induction text generalizing skip with
  | nil => cases h
  | cons x text ih =>
    cases skip with
    | succ skip =>
      obtain ⟨front, y, rest, n, rfl, hfind⟩ := ih h
      exact ⟨x :: front, y, rest, n, rfl, hfind⟩
    | zero =>
      rw [scan] at h
      split at h
      next =>
        obtain ⟨front, y, rest, n, rfl, hfind⟩ := ih (List.mem_of_ne_of_mem Sum.inr_ne_inl h)
        exact ⟨x :: front, y, rest, n, rfl, hfind⟩
      next j n hfound =>
        cases h with
        | head => exact ⟨[], x, text, n, rfl, hfound, rfl⟩
        | tail _ h =>
          obtain ⟨front, y, rest, n, rfl, hfind⟩ := ih h
          exact ⟨x :: front, y, rest, n, rfl, hfind⟩

/-- At an element that is passed nothing is found. -/
theorem passed_of_mem_scan (h : .inl y ∈ scan find skip text) :
    ∃ front rest, text = front ++ y :: rest ∧ find (y :: rest) = none := by
  induction text generalizing skip with
  | nil => cases h
  | cons x text ih =>
    cases skip with
    | succ skip =>
      obtain ⟨front, rest, rfl, hfind⟩ := ih h
      exact ⟨x :: front, rest, rfl, hfind⟩
    | zero =>
      rw [scan] at h
      split at h
      next hfind =>
        cases h with
        | head => exact ⟨[], text, rfl, hfind⟩
        | tail _ h =>
          obtain ⟨front, rest, rfl, hnext⟩ := ih h
          exact ⟨x :: front, rest, rfl, hnext⟩
      next =>
        obtain ⟨front, rest, rfl, hnext⟩ := ih (List.mem_of_ne_of_mem Sum.inl_ne_inr h)
        exact ⟨x :: front, rest, rfl, hnext⟩

/-- A search that looks at the elements through a function. -/
theorem map_scan {β : Type w} (f : α → β) {find : List β → Option (ι × Nat)} (skip : Nat)
    (text : List α) :
    scan find skip (text.map f) =
      (scan (fun l => find (l.map f)) skip text).map (Sum.map f (Prod.map id (List.map f))) := by
  induction text generalizing skip with
  | nil => rfl
  | cons x text ih =>
    rw [List.map_cons]
    cases skip with
    | succ skip => exact ih skip
    | zero =>
      rw [scan, scan, List.map_cons]
      cases find (f x :: text.map f) with
      | none =>
        simp only [ih, List.map_cons]
        rfl
      | some found =>
        obtain ⟨i, n⟩ := found
        simp only [ih, List.map_cons]
        rw [← List.map_take]
        rfl

/-- Replacing what is found that way. -/
theorem map_substitute {β : Type w} (f : α → β) {find : List β → Option (ι × Nat)}
    {new' : ι × List β → List β}
    (h : ∀ i block, .inr (i, block) ∈ scan (fun l => find (l.map f)) 0 text →
      (new (i, block)).map f = new' (i, block.map f)) :
    (substitute (fun l => find (l.map f)) new text).map f = substitute find new' (text.map f) := by
  rw [substitute, substitute, map_scan, List.map_flatMap, List.flatMap_map]
  apply List.flatMap_congr
  intro token htoken
  cases token with
  | inl x => rfl
  | inr found => exact h found.1 found.2 htoken

/-- What is found loses some of its elements. -/
theorem substitute_sublist (h : ∀ found, (new found).Sublist found.2) (text : List α) :
    (substitute find new text).Sublist text := by
  have hwhole := flatMap_scan find 0 text
  rw [List.drop_zero] at hwhole
  conv_rhs => rw [← hwhole]
  apply List.Sublist.flatMap_right
  intro token _
  cases token with
  | inl x => exact List.Sublist.refl _
  | inr found => exact h found

/-- An element is left where it was passed, or in what was found. -/
theorem mem_substitute : y ∈ substitute find new text ↔ .inl y ∈ scan find 0 text ∨
      ∃ found, .inr found ∈ scan find 0 text ∧ y ∈ new found := by
  rw [substitute, List.mem_flatMap]
  constructor
  · rintro ⟨token, htoken, hy⟩
    cases token with
    | inl x =>
      rw [Sum.elim_inl, List.mem_singleton] at hy
      rw [hy]
      exact .inl htoken
    | inr found => exact .inr ⟨found, htoken, hy⟩
  · rintro (hy | ⟨found, hfound, hy⟩)
    · exact ⟨_, hy, List.mem_singleton_self y⟩
    · exact ⟨_, hfound, hy⟩

/-! ## Texts whose elements differ -/

/-- Where the elements of a text differ, one of them stands in one place. -/
theorem place_unique {a b c d : List α} (hnodup : text.Nodup)
    (h : text = a ++ x :: b) (h' : text = c ++ x :: d) : a = c ∧ b = d := by
  have hsplit : a ++ x :: b = c ++ x :: d := h.symm.trans h'
  rw [h, List.nodup_append, List.nodup_cons] at hnodup
  have ha : x ∉ a := fun hx => hnodup.2.2 x hx x List.mem_cons_self rfl
  have hinj := (List.append_cons_inj_of_notMem ha hnodup.2.1.1).mp hsplit
  exact ⟨hinj.1, hinj.2.2⟩

/-- An element at which something is found is not passed. -/
theorem not_mem_scan_of_find
    (hnodup : text.Nodup) (htext : text = front ++ y :: rest) (h : find (y :: rest) ≠ none) :
    .inl y ∉ scan find skip text := by
  intro hmem
  obtain ⟨front', rest', hplace, hnone⟩ := passed_of_mem_scan hmem
  obtain ⟨-, rfl⟩ := place_unique hnodup htext hplace
  exact h hnone

theorem mem_of_mem_scan (h : .inl y ∈ scan find skip text) :
    y ∈ text := by
  obtain ⟨front, rest, rfl, -⟩ := passed_of_mem_scan h
  exact List.mem_append_right _ List.mem_cons_self

theorem scan_cons_of_passed (hx : x ∉ text) (h : .inl x ∈ scan find skip (x :: text)) :
    scan find skip (x :: text) = .inl x :: scan find 0 text := by
  cases skip with
  | succ skip =>
    rw [scan] at h
    exact absurd (mem_of_mem_scan h) hx
  | zero =>
    rw [scan] at h ⊢
    split
    next => rfl
    next hfound =>
      rw [hfound] at h
      exact absurd (mem_of_mem_scan (List.mem_of_ne_of_mem Sum.inl_ne_inr h)) hx

theorem scan_append_of_passed (hne : front ≠ [])
    (hnodup : (front ++ text).Nodup) (h : ∀ x ∈ front, .inl x ∈ scan find skip (front ++ text)) :
    scan find skip (front ++ text) = front.map .inl ++ scan find 0 text := by
  induction front generalizing skip with
  | nil => exact absurd rfl hne
  | cons x front ih =>
    rw [List.cons_append, List.nodup_cons] at hnodup
    have hcons := scan_cons_of_passed hnodup.1 (h x List.mem_cons_self)
    rw [List.cons_append, hcons]
    cases front with
    | nil => rfl
    | cons y front =>
      rw [ih (List.cons_ne_nil _ _) hnodup.2]
      · rfl
      · intro z hz
        have hmem := h z (List.mem_cons_of_mem _ hz)
        rw [List.cons_append, hcons] at hmem
        apply List.mem_of_ne_of_mem _ hmem
        rw [ne_eq, Sum.inl.injEq]
        rintro rfl
        exact hnodup.1 (List.mem_append_left _ hz)

theorem exists_scan_append (find : List α → Option (ι × Nat)) (skip : Nat)
    (front text : List α) :
    ∃ (earlier : List (α ⊕ ι × List α)) (later : Nat),
      scan find skip (front ++ text) = earlier ++ scan find later text ∧
        ∀ x, .inl x ∈ earlier → x ∈ front := by
  induction front generalizing skip with
  | nil => exact ⟨[], skip, rfl, fun x hx => absurd hx List.not_mem_nil⟩
  | cons x front ih =>
    cases skip with
    | succ skip =>
      obtain ⟨earlier, later, hscan, hfront⟩ := ih skip
      exact ⟨earlier, later, hscan, fun y hy => List.mem_cons_of_mem _ (hfront y hy)⟩
    | zero =>
      rw [List.cons_append, scan]
      split
      next =>
        obtain ⟨earlier, later, hscan, hfront⟩ := ih 0
        refine ⟨.inl x :: earlier, later, by rw [hscan]; rfl, ?_⟩
        intro y hy
        cases hy with
        | head => exact List.mem_cons_self
        | tail _ hy => exact List.mem_cons_of_mem _ (hfront y hy)
      next i n _ =>
        obtain ⟨earlier, later, hscan, hfront⟩ := ih (n - 1)
        refine ⟨.inr (i, x :: (front ++ text).take (n - 1)) :: earlier, later,
          by rw [hscan]; rfl, ?_⟩
        intro y hy
        exact List.mem_cons_of_mem _ (hfront y (List.mem_of_ne_of_mem Sum.inl_ne_inr hy))

/-- What stands together and is all passed stays together. -/
theorem infix_scan_of_passed (hnodup : text.Nodup) (hpart : part <:+: text)
    (h : ∀ x ∈ part, .inl x ∈ scan find 0 text) : part.map .inl <:+: scan find 0 text := by
  cases part with
  | nil => exact List.nil_infix
  | cons x part =>
    obtain ⟨front, back, rfl⟩ := hpart
    rw [List.append_assoc] at h hnodup ⊢
    obtain ⟨earlier, later, hscan, hfront⟩ := exists_scan_append find 0 front (x :: part ++ back)
    have hlater : ∀ y ∈ x :: part, .inl y ∈ scan find later (x :: part ++ back) := by
      intro y hy
      have hmem := h y hy
      rw [hscan, List.mem_append] at hmem
      refine hmem.resolve_left fun hearlier => ?_
      exact (List.disjoint_of_nodup_append hnodup) (hfront y hearlier)
        (List.mem_append_left _ hy)
    rw [hscan, scan_append_of_passed (List.cons_ne_nil _ _) (List.Nodup.of_append_right hnodup)
      hlater]
    exact ⟨earlier, scan find 0 back, List.append_assoc _ _ _⟩

/-- What stands together and all remains in a part of the text stays together. -/
theorem infix_of_sublist {l : List α} (hnodup : text.Nodup) (hpart : part <:+: text)
    (hl : l.Sublist text) (h : ∀ x ∈ part, x ∈ l) : part <:+: l := by
  obtain ⟨front, back, rfl⟩ := hpart
  obtain ⟨l₁, l₂, rfl, hl₁, hback⟩ := List.sublist_append_iff.mp hl
  obtain ⟨front', part', rfl, hfront, hpart⟩ := List.sublist_append_iff.mp hl₁
  have hall : part ⊆ part' := by
    intro x hx
    have hmem := h x hx
    rw [List.mem_append, List.mem_append] at hmem
    rcases hmem with (hx' | hx') | hx'
    · have hdisjoint := List.disjoint_of_nodup_append (List.Nodup.of_append_left hnodup)
      exact absurd hx (hdisjoint (hfront.subset hx'))
    · exact hx'
    · have hdisjoint := List.disjoint_of_nodup_append hnodup
      exact absurd (hback.subset hx') (hdisjoint (List.mem_append_right _ hx))
  have hsame : part' = part := by
    apply hpart.eq_of_length_le
    have hdistinct := List.Nodup.of_append_right (List.Nodup.of_append_left hnodup)
    exact (List.Nodup.subperm hdistinct hall).length_le
  rw [hsame]
  exact ⟨front', l₂, rfl⟩

end PlatformSpec.Base.Scan
