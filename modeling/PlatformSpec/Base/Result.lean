import Mathlib.Data.List.Forall2

/-!
# Computations that may raise

When a sequence of two computations returns a value, and when it raises.
-/

namespace PlatformSpec.Base.Result

universe u v

variable {ε : Type u} {α β : Type v} {x : Except ε α} {f : α → Except ε β}

/-- A sequence returns when both of its parts return. -/
theorem bind_eq_ok {b : β} : x >>= f = .ok b ↔ ∃ a, x = .ok a ∧ f a = .ok b := by
  cases x with
  | error e => simp [bind, Except.bind]
  | ok a => simp [bind, Except.bind]

/-- A sequence raises when a part raises and those before it return. -/
theorem bind_eq_error {e : ε} :
    x >>= f = .error e ↔ x = .error e ∨ ∃ a, x = .ok a ∧ f a = .error e := by
  cases x with
  | error e => simp [bind, Except.bind]
  | ok a => simp [bind, Except.bind]

theorem map_eq_ok {f : α → β} {b : β} : x.map f = .ok b ↔ ∃ a, x = .ok a ∧ f a = b := by
  cases x with
  | error e => simp [Except.map]
  | ok a => simp [Except.map]

theorem eq_ok_of_toOption {a : α} (h : x.toOption = some a) : x = .ok a := by
  cases x with
  | error e => cases h
  | ok b => exact congrArg _ (Option.some.inj h)

variable {l' : List β} {l : List α}

/-- Every element has the result at its place. -/
theorem mapM_eq_ok : l.mapM f = .ok l' ↔ List.Forall₂ (fun a b => f a = .ok b) l l' := by
  induction l generalizing l' with
  | nil =>
    rw [List.mapM_nil]
    constructor
    · intro h
      cases h
      exact .nil
    · intro h
      cases h
      rfl
  | cons a l ih =>
    rw [List.mapM_cons]
    constructor
    · intro h
      obtain ⟨b, hb, hrest⟩ := bind_eq_ok.mp h
      obtain ⟨bs, hbs, hl'⟩ := bind_eq_ok.mp hrest
      cases hl'
      exact .cons hb (ih.mp hbs)
    · intro h
      cases h with
      | cons hb hrest =>
        exact bind_eq_ok.mpr ⟨_, hb, bind_eq_ok.mpr ⟨_, ih.mpr hrest, rfl⟩⟩

/-- The results of a loop over elements with their indices. -/
theorem mapM_zipIdx_eq_ok {f : α × Nat → Except ε β}
    (h : l.zipIdx.mapM f = .ok l') : List.Forall₂ (fun a b => ∃ i, f (a, i) = .ok b) l l' := by
  have hall := mapM_eq_ok.mp h
  rw [← List.zipIdx_map_fst 0 l, List.forall₂_map_left_iff]
  exact hall.imp fun p b hp => ⟨p.2, hp⟩

/-- Elements side by side are related another way exactly if the ones on the left are of a kind. -/
theorem forall₂_iff {R S : α → β → Prop} {p : α → Prop}
    (h : List.Forall₂ R l l') (hp : ∀ a ∈ l, ∀ b, R a b → (S a b ↔ p a)) :
    List.Forall₂ S l l' ↔ ∀ a ∈ l, p a := by
  induction h with
  | nil => simp
  | cons hab _ ih =>
    obtain ⟨ha, hrest⟩ := List.forall_mem_cons.mp hp
    rw [List.forall₂_cons, List.forall_mem_cons, ih hrest, ha _ hab]

/-- What holds of the elements on the right. -/
theorem forall_mem_right_iff {R : α → β → Prop} {p : α → Prop} {q : β → Prop}
    (h : List.Forall₂ R l l') (hp : ∀ a ∈ l, ∀ b, R a b → (q b ↔ p a)) :
    (∀ b ∈ l', q b) ↔ ∀ a ∈ l, p a := by
  rw [← forall₂_iff h hp]
  clear hp
  induction h with
  | nil => simp
  | cons _ _ ih => rw [List.forall₂_cons, List.forall_mem_cons, ih]

/-- What a computation returns has one property, what it raises another. -/
def Ends (returned : α → Prop) (raised : ε → Prop) : Except ε α → Prop
  | .ok a => returned a
  | .error e => raised e

section Ends

variable {p : α → Prop} {q : β → Prop} {r : ε → Prop}

theorem Ends.bind {x : Except ε α} {f : α → Except ε β} (hx : Ends p r x)
    (hf : ∀ a, p a → Ends q r (f a)) : Ends q r (x >>= f) := by
  cases x with
  | error e => exact hx
  | ok a => exact hf a hx

theorem Ends.mapM {f : α → Except ε β} {l : List α} (hf : ∀ a ∈ l, Ends q r (f a)) :
    Ends (fun bs => ∀ b ∈ bs, q b) r (l.mapM f) := by
  induction l with
  | nil =>
    rw [List.mapM_nil]
    exact List.forall_mem_nil q
  | cons a l ih =>
    obtain ⟨ha, hl⟩ := List.forall_mem_cons.mp hf
    rw [List.mapM_cons]
    exact ha.bind fun b hb => (ih hl).bind fun bs hbs => List.forall_mem_cons.mpr ⟨hb, hbs⟩

end Ends

end PlatformSpec.Base.Result

/-!
## The first failure of a computation

A computation that runs checks one after another fails with the first check that does. The kinds of
failures that the checks would have, listed in order, tell how the computation ends.
-/

namespace PlatformSpec.Base.Failures

universe u v w

variable {ε : Type u} {ν : Type w} {α β : Type v} (kind : ε → ν)

/-- The computation fails with the first kind listed, and returns when there is none. -/
def Fails (kinds : List ν) (x : Except ε α) : Prop :=
  match kinds with
  | [] => ∃ a, x = .ok a
  | k :: _ => ∃ e, x = .error e ∧ kind e = k

variable {kind}

theorem fails_ok (a : α) : Fails kind [] (.ok a : Except ε α) := ⟨a, rfl⟩

variable {x : Except ε α} {kinds : List ν}

/-- Without a failure there is a result. -/
theorem Fails.eq_nil (h : Fails kind kinds x) {a : α} (hx : x = .ok a) : kinds = [] := by
  cases kinds with
  | nil => rfl
  | cons k ks =>
    obtain ⟨e, he, -⟩ := h
    rw [hx] at he
    cases he

theorem Fails.map (h : Fails kind kinds x) (f : α → β) : Fails kind kinds (x.map f) := by
  cases kinds with
  | nil =>
    obtain ⟨a, rfl⟩ := h
    exact ⟨f a, rfl⟩
  | cons k ks =>
    obtain ⟨e, rfl, hk⟩ := h
    exact ⟨e, rfl, hk⟩

variable {f : α → Except ε β}

/-- The failures of a sequence are those of its parts in order. -/
theorem Fails.bind {kinds' : List ν}
    (hx : Fails kind kinds x) (hf : ∀ a, x = .ok a → Fails kind kinds' (f a)) :
    Fails kind (kinds ++ kinds') (x >>= f) := by
  cases kinds with
  | nil =>
    obtain ⟨a, rfl⟩ := hx
    exact hf a rfl
  | cons k ks =>
    obtain ⟨e, rfl, hk⟩ := hx
    exact ⟨e, rfl, hk⟩

/-- What comes after the last check does not fail. -/
theorem Fails.bind_ok (hx : Fails kind kinds x) (hf : ∀ a, x = .ok a → ∃ b, f a = .ok b) :
    Fails kind kinds (x >>= f) := by
  have h : Fails kind (kinds ++ []) (x >>= f) := hx.bind hf
  rwa [List.append_nil] at h

/-- The failures of a loop are those of its rounds in order. -/
theorem fails_mapM {kinds : α → List ν} (l : List α)
    (h : ∀ a ∈ l, Fails kind (kinds a) (f a)) : Fails kind (l.flatMap kinds) (l.mapM f) := by
  induction l with
  | nil => exact ⟨[], rfl⟩
  | cons a l ih =>
    obtain ⟨ha, hl⟩ := List.forall_mem_cons.mp h
    rw [List.mapM_cons, List.flatMap_cons]
    exact ha.bind fun b _ => (ih hl).bind_ok fun bs _ => ⟨b :: bs, rfl⟩

end PlatformSpec.Base.Failures
