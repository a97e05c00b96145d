import Mathlib.Data.List.Forall2
import Mathlib.Logic.Function.Basic
import PlatformSpec.Base.Assoc

/-!
# Trees on a heap

Lists and dictionaries that refer to one another by address, and the trees they stand for. What a
place on the heap stands for is kept while the heap changes elsewhere; a tree that is built anew
shares nothing. Nothing here mentions a particular system.
-/

namespace PlatformSpec.Base.Heap

universe u v w

variable {α : Type u} {β : Type v} {γ : Type w} {L : Type u}

/-- A list, or a dictionary with its entries in order. -/
inductive Container (α : Type u) where
  | list (items : List α)
  | dict (entries : List (String × α))

namespace Container

/-- The values in a container. -/
def children : Container α → List α
  | list items => items
  | dict entries => entries.map Prod.snd

/-- The kind of a container with its length, or its keys. -/
def shape : Container α → Nat ⊕ List String
  | list items => .inl items.length
  | dict entries => .inr (entries.map Prod.fst)

/-- An assignment to the value at a place. -/
def set : Container α → Nat → α → Container α
  | list items, i, a => list (items.set i a)
  | dict entries, i, a => dict (entries.modify i fun e => (e.1, a))

/-- The same kind with the same keys, and values related one by one. -/
def Related (R : α → β → Prop) (c : Container α) (d : Container β) : Prop :=
  c.shape = d.shape ∧
    ∀ (i : Nat) (a : α) (b : β), c.children[i]? = some a → d.children[i]? = some b → R a b

@[simp] theorem children_set (c : Container α) (i : Nat) (a : α) :
    (c.set i a).children = c.children.set i a := by
  cases c with
  | list items => rfl
  | dict entries =>
    refine List.ext_getElem? fun j => ?_
    simp only [set, children, List.getElem?_map, List.getElem?_modify, List.getElem?_set,
      List.length_map]
    by_cases h : i = j
    · subst h
      by_cases hi : i < entries.length
      · simp [hi]
      · simp [hi]
    · simp [h]

@[simp] theorem shape_set (c : Container α) (i : Nat) (a : α) : (c.set i a).shape = c.shape := by
  cases c with
  | list items => simp [set, shape]
  | dict entries =>
    simp only [set, shape, Sum.inr.injEq]
    refine List.ext_getElem? fun j => ?_
    simp only [List.getElem?_map, List.getElem?_modify]
    by_cases h : i = j
    · cases entries[j]? <;> simp [h]
    · simp [h]

/-- Containers of one shape have as many values. -/
theorem length_eq {c : Container α} {d : Container β} (h : c.shape = d.shape) :
    c.children.length = d.children.length := by
  cases c with
  | list items =>
    cases d with
    | list items' => exact Sum.inl.inj h
    | dict entries => cases h
  | dict entries =>
    cases d with
    | list items => cases h
    | dict entries' => simpa [children] using congrArg List.length (Sum.inr.inj h)

variable {R : α → β → Prop} {R' : α → β → Prop} {c : Container α} {d : Container β}

theorem Related.imp (h : c.Related R d) (himp : ∀ a ∈ c.children, ∀ b, R a b → R' a b) :
    c.Related R' d :=
  ⟨h.1, fun i a b ha hb => himp a (List.mem_of_getElem? ha) b (h.2 i a b ha hb)⟩

/-- Values at a place of one container have a partner in the other. -/
theorem Related.left (h : c.Related R d) {i : Nat} {a : α} (ha : c.children[i]? = some a) :
    ∃ b, d.children[i]? = some b ∧ R a b := by
  obtain ⟨hi, -⟩ := List.getElem?_eq_some_iff.mp ha
  rw [length_eq h.1] at hi
  exact ⟨_, List.getElem?_eq_getElem hi, h.2 i a _ ha (List.getElem?_eq_getElem hi)⟩

theorem Related.right (h : c.Related R d) {i : Nat} {b : β} (hb : d.children[i]? = some b) :
    ∃ a, c.children[i]? = some a ∧ R a b := by
  obtain ⟨hi, -⟩ := List.getElem?_eq_some_iff.mp hb
  rw [← length_eq h.1] at hi
  exact ⟨_, List.getElem?_eq_getElem hi, h.2 i _ b (List.getElem?_eq_getElem hi) hb⟩

/-- Containers with equal values are equal. -/
theorem Related.eq {c d : Container α} (h : c.Related Eq d) : c = d := by
  have hchildren : c.children = d.children := by
    refine List.ext_getElem? fun i => ?_
    cases hc : c.children[i]? with
    | some a =>
      obtain ⟨b, hb, rfl⟩ := h.left hc
      exact hb.symm
    | none =>
      rw [List.getElem?_eq_none_iff, length_eq h.1] at hc
      exact (List.getElem?_eq_none hc).symm
  cases c with
  | list items =>
    cases d with
    | list items' => exact congrArg list hchildren
    | dict entries => cases h.1
  | dict entries =>
    cases d with
    | list items => cases h.1
    | dict entries' =>
      have hkeys : entries.map Prod.fst = entries'.map Prod.fst := Sum.inr.inj h.1
      have hzip := congrArg₂ List.zip hkeys hchildren
      simp only [children, List.zip_map'] at hzip
      simpa using hzip

/-- Lists are related if their elements are. -/
theorem related_list {items : List α} {items' : List β} :
    (list items).Related R (list items') ↔ List.Forall₂ R items items' := by
  rw [List.forall₂_iff_get]
  constructor
  · rintro ⟨hshape, hall⟩
    refine ⟨Sum.inl.inj hshape, fun i hi hi' => ?_⟩
    exact hall i _ _ (List.getElem?_eq_getElem hi) (List.getElem?_eq_getElem hi')
  · rintro ⟨hlength, hall⟩
    refine ⟨congrArg Sum.inl hlength, fun i a b ha hb => ?_⟩
    obtain ⟨hi, rfl⟩ := List.getElem?_eq_some_iff.mp ha
    obtain ⟨hi', rfl⟩ := List.getElem?_eq_some_iff.mp hb
    exact hall i hi hi'

variable {entries' : List (String × β)} {entries : List (String × α)}

/-- Dictionaries are related if their entries are. -/
theorem related_dict : (dict entries).Related R (dict entries') ↔
      List.Forall₂ (fun e f => e.1 = f.1 ∧ R e.2 f.2) entries entries' := by
  rw [List.forall₂_iff_get]
  constructor
  · rintro ⟨hshape, hall⟩
    have hkeys : entries.map Prod.fst = entries'.map Prod.fst := Sum.inr.inj hshape
    refine ⟨by simpa using congrArg List.length hkeys, fun i hi hi' => ⟨?_, ?_⟩⟩
    · have hkey := congrArg (fun l => l[i]?) hkeys
      simpa [hi, hi'] using hkey
    · exact hall i _ _ (by simp [children, hi]) (by simp [children, hi'])
  · rintro ⟨hlength, hall⟩
    refine ⟨congrArg Sum.inr (List.ext_getElem (by simpa using hlength) fun i hi hi' => ?_),
      fun i a b ha hb => ?_⟩
    · simpa using (hall i (by simpa using hi) (by simpa using hi')).1
    · simp only [children, List.getElem?_map, Option.map_eq_some_iff] at ha hb
      obtain ⟨e, he, rfl⟩ := ha
      obtain ⟨f, hf, rfl⟩ := hb
      obtain ⟨hi, rfl⟩ := List.getElem?_eq_some_iff.mp he
      obtain ⟨hi', rfl⟩ := List.getElem?_eq_some_iff.mp hf
      exact (hall i hi hi').2

/-- A related container is found value by value. -/
theorem exists_related (h : ∀ a ∈ c.children, ∃ b, R a b) : ∃ d : Container β, c.Related R d := by
  have hlist : ∀ l : List α, (∀ a ∈ l, ∃ b, R a b) → ∃ l', List.Forall₂ R l l' := by
    intro l hl
    induction l with
    | nil => exact ⟨[], .nil⟩
    | cons a l ih =>
      obtain ⟨b, hb⟩ := hl a List.mem_cons_self
      obtain ⟨l', hl'⟩ := ih fun x hx => hl x (List.mem_cons_of_mem _ hx)
      exact ⟨b :: l', .cons hb hl'⟩
  cases c with
  | list items =>
    obtain ⟨items', hitems⟩ := hlist items h
    exact ⟨.list items', related_list.mpr hitems⟩
  | dict entries =>
    obtain ⟨values, hvalues⟩ := hlist _ h
    refine ⟨.dict ((entries.map Prod.fst).zip values), related_dict.mpr ?_⟩
    clear h
    induction entries generalizing values with
    | nil => exact .nil
    | cons e entries ih =>
      cases hvalues with
      | cons hb hrest => exact .cons ⟨rfl, hb⟩ (ih _ hrest)

/-- A key is found in both of two related dictionaries, with related values, or in neither. -/
theorem Related.lookup (h : (dict entries).Related R (dict entries')) (key : String) :
    Option.Rel R (entries.lookup key) (entries'.lookup key) := by
  have hall := related_dict.mp h
  clear h
  induction hall with
  | nil => exact .none
  | @cons e f _ _ hef _ ih =>
    obtain ⟨k, a⟩ := e
    obtain ⟨k', b⟩ := f
    obtain ⟨rfl, hab⟩ : k = k' ∧ R a b := hef
    rw [List.lookup_cons, List.lookup_cons]
    split
    next => exact .some hab
    next => exact ih

/-- Related dictionaries stay so when a key is assigned. -/
theorem Related.assign
    (h : (dict entries).Related R (dict entries')) (key : String) {a : α} {b : β} (hab : R a b) :
    (dict (Assoc.assign entries key a)).Related R (dict (Assoc.assign entries' key b)) := by
  rw [related_dict] at h ⊢
  induction h with
  | nil => exact .cons ⟨rfl, hab⟩ .nil
  | @cons e f _ _ hef hrest ih =>
    obtain ⟨k, a'⟩ := e
    obtain ⟨k', b'⟩ := f
    obtain ⟨rfl, hab'⟩ : k = k' ∧ R a' b' := hef
    simp only [Assoc.assign]
    split
    next => exact .cons ⟨rfl, hab⟩ hrest
    next => exact .cons ⟨rfl, hab'⟩ ih

/-- Related dictionaries stay so when keys are left out. -/
theorem Related.filter (h : (dict entries).Related R (dict entries')) (keep : String → Bool) :
    (dict (entries.filter fun e => keep e.1)).Related R
      (dict (entries'.filter fun e => keep e.1)) := by
  rw [related_dict] at h ⊢
  induction h with
  | nil => exact .nil
  | @cons e f _ _ hef hrest ih =>
    cases hkeep : keep e.1 with
    | true =>
      simp only [List.filter_cons, ← hef.1, hkeep, if_true]
      exact .cons hef ih
    | false =>
      simp only [List.filter_cons, ← hef.1, hkeep, Bool.false_eq_true, if_false]
      exact ih

end Container

/-- A tree of lists and dictionaries. -/
inductive Tree (L : Type u) where
  | leaf (leaf : L)
  | node (container : Container (Tree L))

/-- A leaf, or the address of a list or a dictionary. -/
inductive Ref (L : Type u) where
  | leaf (leaf : L)
  | addr (address : Nat)

/-- The leaf that a tree is. -/
def Tree.leaf? : Tree L → Option L
  | .leaf l => some l
  | .node _ => none

/-- The leaf that a reference is. -/
def Ref.leaf? : Ref L → Option L
  | .leaf l => some l
  | .addr _ => none

theorem Container.sizeOf_lt_of_mem {c : Container (Tree L)} {t : Tree L} (h : t ∈ c.children) :
    sizeOf t < sizeOf c := by
  cases c with
  | list items =>
    have hlt : sizeOf t < sizeOf items := List.sizeOf_lt_of_mem h
    simp only [Container.list.sizeOf_spec]
    omega
  | dict entries =>
    obtain ⟨e, he, rfl⟩ := List.mem_map.mp h
    have hlt := List.sizeOf_lt_of_mem he
    have hsnd : sizeOf e.2 < sizeOf e := by
      cases e
      simp only [Prod.mk.sizeOf_spec]
      omega
    simp only [Container.dict.sizeOf_spec]
    omega

/-- What holds of leaves and of containers of whose values it holds is true of all trees. -/
theorem Tree.induction {P : Tree L → Prop} (hleaf : ∀ l, P (.leaf l))
    (hnode : ∀ c : Container (Tree L), (∀ t ∈ c.children, P t) → P (.node c)) (t : Tree L) :
    P t := by
  match t with
  | .leaf l => exact hleaf l
  | .node c =>
    refine hnode c fun t' ht' => ?_
    have hlt := Container.sizeOf_lt_of_mem ht'
    exact Tree.induction hleaf hnode t'
termination_by t
decreasing_by
  simp only [Tree.node.sizeOf_spec]
  omega

/-- The containers on a heap, by address. -/
abbrev Nodes (L : Type u) := Nat → Option (Container (Ref L))

/-- The value at a place in the container at an address. -/
def child (h : Nodes L) (a i : Nat) : Option (Ref L) := (h a).bind fun c => c.children[i]?

theorem child_eq_some {h : Nodes L} {a i : Nat} {r : Ref L} :
    child h a i = some r ↔ ∃ c, h a = some c ∧ c.children[i]? = some r := Option.bind_eq_some_iff

/-- A reference stands for a tree, all of whose addresses are allowed. -/
inductive Holds (h : Nodes L) (ok : Nat → Prop) : Ref L → Tree L → Prop
  | leaf (l : L) : Holds h ok (.leaf l) (.leaf l)
  | node {a : Nat} {c : Container (Ref L)} {d : Container (Tree L)} (hok : ok a) (hc : h a = some c)
      (hshape : c.shape = d.shape)
      (hchildren : ∀ (i : Nat) (r : Ref L) (t : Tree L), c.children[i]? = some r →
        d.children[i]? = some t → Holds h ok r t) :
      Holds h ok (.addr a) (.node d)

variable {h h' : Nodes L} {ok ok' : Nat → Prop} {r : Ref L} {t : Tree L} {d : Container (Tree L)}
  {c : Container (Ref L)}

theorem Holds.of_related {a : Nat} (hok : ok a)
    (hc : h a = some c) (hd : c.Related (Holds h ok) d) : Holds h ok (.addr a) (.node d) :=
  .node hok hc hd.1 hd.2

/-- An address stands for a container related to the one that is there. -/
theorem Holds.related {a : Nat} {t : Tree L} (ht : Holds h ok (.addr a) t) :
    ok a ∧ ∃ c d, h a = some c ∧ t = .node d ∧ c.Related (Holds h ok) d := by
  cases ht with
  | node hok hc hshape hchildren => exact ⟨hok, _, _, hc, rfl, hshape, hchildren⟩

theorem Holds.leaf? (ht : Holds h ok r t) : r.leaf? = t.leaf? := by
  cases ht with
  | leaf l => rfl
  | node => rfl

/-- A reference stands for one tree. -/
theorem Holds.unique (ht : Holds h ok r t) {t' : Tree L} (ht' : Holds h ok' r t') : t = t' := by
  induction ht generalizing t' with
  | leaf l =>
    cases ht'
    rfl
  | @node a c d _ hc hshape _ ih =>
    obtain ⟨-, c', d', hc', rfl, hrelated⟩ := ht'.related
    cases hc.symm.trans hc'
    refine congrArg Tree.node (Container.Related.eq ⟨hshape.symm.trans hrelated.1,
      fun i t t' hi hi' => ?_⟩)
    obtain ⟨r, hr, ht⟩ := hrelated.right hi'
    exact ih i r t hr hi ht

/-- What stands for a tree does so wherever its addresses are allowed and hold the same. -/
theorem Holds.imp (ht : Holds h ok r t)
    (himp : ∀ a c, ok a → h a = some c → ok' a ∧ h' a = some c) : Holds h' ok' r t := by
  induction ht with
  | leaf l => exact .leaf l
  | node hok hc hshape _ ih =>
    obtain ⟨hok', hc'⟩ := himp _ _ hok hc
    exact .node hok' hc' hshape ih

/-- What stands for a tree does so without addresses to which only forbidden ones refer. -/
theorem Holds.avoid (ht : Holds h ok r t) (new : Nat → Prop)
    (hnew : ∀ y, new y → r ≠ .addr y ∧ ∀ a i, child h a i = some (.addr y) → ¬ ok a) :
    Holds h (fun a => ok a ∧ ¬ new a) r t := by
  induction ht with
  | leaf l => exact .leaf l
  | @node a c d hok hc hshape _ ih =>
    refine .node ⟨hok, fun ha => (hnew a ha).1 rfl⟩ hc hshape fun i r' t' hr' ht' => ?_
    refine ih i r' t' hr' ht' fun y hy => ⟨?_, (hnew y hy).2⟩
    rintro rfl
    exact (hnew y hy).2 a i (child_eq_some.mpr ⟨c, hc, hr'⟩) hok

/-- A heap with the address that comes next. -/
structure Store (L : Type u) where
  nodes : Nodes L
  next : Nat

/-- A new container. -/
def Store.alloc (s : Store L) (c : Container (Ref L)) : Ref L × Store L :=
  (.addr s.next, ⟨Function.update s.nodes s.next (some c), s.next + 1⟩)

mutual

/-- A tree of new containers. -/
def build : Tree L → Store L → Ref L × Store L
  | .leaf l, s => (.leaf l, s)
  | .node (.list items), s =>
    let (refs, s) := buildItems items s
    s.alloc (.list refs)
  | .node (.dict entries), s =>
    let (refs, s) := buildEntries entries s
    s.alloc (.dict refs)

def buildItems : List (Tree L) → Store L → List (Ref L) × Store L
  | [], s => ([], s)
  | t :: items, s =>
    let (ref, s) := build t s
    let (refs, s) := buildItems items s
    (ref :: refs, s)

def buildEntries : List (String × Tree L) → Store L → List (String × Ref L) × Store L
  | [], s => ([], s)
  | (key, t) :: entries, s =>
    let (ref, s) := build t s
    let (refs, s) := buildEntries entries s
    ((key, ref) :: refs, s)

end

/-- The addresses between two states of a store. -/
def Between (s s' : Store L) (a : Nat) : Prop := s.next ≤ a ∧ a < s'.next

/-- References stand for trees that were built anew: they share nothing, with one another or
within, and refer to nothing that was there before. -/
structure Built (s : Store L) (refs : List (Ref L)) (trees : List (Tree L)) (s' : Store L) :
    Prop where
  next_le : s.next ≤ s'.next
  kept : ∀ a, ¬ Between s s' a → s'.nodes a = s.nodes a
  holds : List.Forall₂ (Holds s'.nodes (Between s s')) refs trees
  inside : ∀ a i y, Between s s' a → child s'.nodes a i = some (.addr y) → Between s s' y
  unique : ∀ a i a' i' y, Between s s' a → Between s s' a' → child s'.nodes a i = some (.addr y) →
    child s'.nodes a' i' = some (.addr y) → a = a' ∧ i = i'
  new : ∀ y, Ref.addr y ∈ refs → Between s s' y
  top : ∀ y, Ref.addr y ∈ refs → ∀ a i, Between s s' a → child s'.nodes a i ≠ some (.addr y)
  distinct : ∀ i j y : Nat, refs[i]? = some (.addr y) → refs[j]? = some (.addr y) → i = j

theorem Built.nil (s : Store L) : Built s [] [] s where
  next_le := Nat.le_refl _
  kept _ _ := rfl
  holds := .nil
  inside a i y ha := absurd ha.2 (Nat.not_lt.mpr ha.1)
  unique a i a' i' y ha := absurd ha.2 (Nat.not_lt.mpr ha.1)
  new y hy := by cases hy
  top y hy := by cases hy
  distinct i j y hi := by cases hi

theorem Built.leaf (l : L) (s : Store L) : Built s [.leaf l] [.leaf l] s :=
  { Built.nil s with
    holds := .cons (.leaf l) .nil
    new := fun y hy => by cases List.mem_singleton.mp hy
    top := fun y hy => by cases List.mem_singleton.mp hy
    distinct := fun i j y hi => by
      cases i with
      | zero => cases hi
      | succ i => cases hi }

/-- Trees that are built one after the other share nothing. -/
theorem Built.cons {s s₁ s₂ : Store L} {ref : Ref L} {refs : List (Ref L)} {t : Tree L}
    {trees : List (Tree L)} (h₁ : Built s [ref] [t] s₁) (h₂ : Built s₁ refs trees s₂) :
    Built s (ref :: refs) (t :: trees) s₂ := by
  have hsplit : ∀ a, Between s s₂ a → Between s s₁ a ∨ Between s₁ s₂ a := by
    intro a ha
    rcases Nat.lt_or_ge a s₁.next with hlt | hge
    · exact .inl ⟨ha.1, hlt⟩
    · exact .inr ⟨hge, ha.2⟩
  have hleft : ∀ a, Between s s₁ a → Between s s₂ a := fun a ha =>
    ⟨ha.1, Nat.lt_of_lt_of_le ha.2 h₂.next_le⟩
  have hright : ∀ a, Between s₁ s₂ a → Between s s₂ a :=
    fun a ha => ⟨Nat.le_trans h₁.next_le ha.1, ha.2⟩
  have hapart : ∀ a, Between s s₁ a → ¬ Between s₁ s₂ a := fun a ha hb =>
    absurd ha.2 (Nat.not_lt.mpr hb.1)
  have hnodes : ∀ a, Between s s₁ a → s₂.nodes a = s₁.nodes a := fun a ha =>
    h₂.kept a (hapart a ha)
  have hchild : ∀ a i, Between s s₁ a → child s₂.nodes a i = child s₁.nodes a i := by
    intro a i ha
    simp only [child, hnodes a ha]
  have hinside : ∀ a i y, Between s s₁ a → child s₂.nodes a i = some (.addr y) →
      Between s s₁ y := by
    intro a i y ha hy
    rw [hchild a i ha] at hy
    exact h₁.inside a i y ha hy
  refine ⟨Nat.le_trans h₁.next_le h₂.next_le, ?_, ?_, ?_, ?_, ?_, ?_, ?_⟩
  · intro a ha
    rw [h₂.kept a fun hb => ha (hright a hb), h₁.kept a fun hb => ha (hleft a hb)]
  · refine .cons ?_ (h₂.holds.imp fun r t ht => ht.imp fun a c hok hc => ⟨hright a hok, hc⟩)
    obtain ⟨hholds, -⟩ := List.forall₂_cons.mp h₁.holds
    exact hholds.imp fun a c hok hc => ⟨hleft a hok, (hnodes a hok).trans hc⟩
  · intro a i y ha hy
    rcases hsplit a ha with ha | ha
    · exact hleft y (hinside a i y ha hy)
    · exact hright y (h₂.inside a i y ha hy)
  · intro a i a' i' y ha ha' hy hy'
    rcases hsplit a ha with ha | ha
    · rcases hsplit a' ha' with ha' | ha'
      · rw [hchild a i ha] at hy
        rw [hchild a' i' ha'] at hy'
        exact h₁.unique a i a' i' y ha ha' hy hy'
      · exact absurd (h₂.inside a' i' y ha' hy') (hapart y (hinside a i y ha hy))
    · rcases hsplit a' ha' with ha' | ha'
      · exact absurd (h₂.inside a i y ha hy) (hapart y (hinside a' i' y ha' hy'))
      · exact h₂.unique a i a' i' y ha ha' hy hy'
  · intro y hy
    rcases List.mem_cons.mp hy with rfl | hy
    · exact hleft y (h₁.new y List.mem_cons_self)
    · exact hright y (h₂.new y hy)
  · intro y hy a i ha he
    rcases List.mem_cons.mp hy with rfl | hy
    · rcases hsplit a ha with ha | ha
      · rw [hchild a i ha] at he
        exact h₁.top y List.mem_cons_self a i ha he
      · exact hapart y (h₁.new y List.mem_cons_self) (h₂.inside a i y ha he)
    · rcases hsplit a ha with ha | ha
      · exact hapart y (hinside a i y ha he) (h₂.new y hy)
      · exact h₂.top y hy a i ha he
  · intro i j y hi hj
    cases i with
    | zero =>
      cases j with
      | zero => rfl
      | succ j =>
        cases hi
        exact absurd (h₂.new y (List.mem_of_getElem? hj)) (hapart y (h₁.new y List.mem_cons_self))
    | succ i =>
      cases j with
      | zero =>
        cases hj
        exact absurd (h₂.new y (List.mem_of_getElem? hi)) (hapart y (h₁.new y List.mem_cons_self))
      | succ j => exact congrArg Nat.succ (h₂.distinct i j y hi hj)

/-- A new container for trees that were built shares nothing either. -/
theorem Built.alloc {s s₁ : Store L}
    (h : Built s c.children d.children s₁) (hshape : c.shape = d.shape) :
    Built s [(s₁.alloc c).1] [.node d] (s₁.alloc c).2 := by
  have hself : child (s₁.alloc c).2.nodes s₁.next = fun i => c.children[i]? := by
    funext i
    simp [child, Store.alloc]
  have hnodes : ∀ a, a ≠ s₁.next → (s₁.alloc c).2.nodes a = s₁.nodes a := fun a ha =>
    Function.update_of_ne ha _ _
  have hchild : ∀ a i, a ≠ s₁.next → child (s₁.alloc c).2.nodes a i = child s₁.nodes a i := by
    intro a i ha
    simp only [child, hnodes a ha]
  have hsplit : ∀ a, Between s (s₁.alloc c).2 a → Between s s₁ a ∧ a ≠ s₁.next ∨ a = s₁.next := by
    intro a ha
    rcases Nat.lt_or_ge a s₁.next with hlt | hge
    · exact .inl ⟨⟨ha.1, hlt⟩, Nat.ne_of_lt hlt⟩
    · exact .inr (Nat.le_antisymm (Nat.le_of_lt_succ ha.2) hge)
  have hold : ∀ a, Between s s₁ a → Between s (s₁.alloc c).2 a ∧ a ≠ s₁.next := fun a ha =>
    ⟨⟨ha.1, Nat.lt_succ_of_lt ha.2⟩, Nat.ne_of_lt ha.2⟩
  have hlast : Between s (s₁.alloc c).2 s₁.next := ⟨h.next_le, Nat.lt_succ_self _⟩
  have hin : ∀ a i y, Between s (s₁.alloc c).2 a →
      child (s₁.alloc c).2.nodes a i = some (.addr y) → Between s s₁ y := by
    intro a i y ha hy
    rcases hsplit a ha with ⟨ha, hne⟩ | rfl
    · rw [hchild a i hne] at hy
      exact h.inside a i y ha hy
    · rw [hself] at hy
      exact h.new y (List.mem_of_getElem? hy)
  refine ⟨Nat.le_trans h.next_le (Nat.le_succ _), ?_, ?_, ?_, ?_, ?_, ?_, ?_⟩
  · intro a ha
    have hne : a ≠ s₁.next := fun he => ha (he ▸ hlast)
    rw [hnodes a hne, h.kept a fun hb => ha (hold a hb).1]
  · refine .cons (.of_related hlast (Function.update_self _ _ _) ⟨hshape, ?_⟩) .nil
    intro i r t hr ht
    have hrt := (List.forall₂_iff_get.mp h.holds).2 i
    obtain ⟨hi, rfl⟩ := List.getElem?_eq_some_iff.mp hr
    obtain ⟨hi', rfl⟩ := List.getElem?_eq_some_iff.mp ht
    exact (hrt hi hi').imp fun a _ hok hc =>
      ⟨(hold a hok).1, (hnodes a (hold a hok).2).trans hc⟩
  · intro a i y ha hy
    exact (hold y (hin a i y ha hy)).1
  · intro a i a' i' y ha ha' hy hy'
    rcases hsplit a ha with ⟨ha, hne⟩ | rfl
    · rw [hchild a i hne] at hy
      rcases hsplit a' ha' with ⟨ha', hne'⟩ | rfl
      · rw [hchild a' i' hne'] at hy'
        exact h.unique a i a' i' y ha ha' hy hy'
      · rw [hself] at hy'
        exact absurd hy (h.top y (List.mem_of_getElem? hy') a i ha)
    · rw [hself] at hy
      rcases hsplit a' ha' with ⟨ha', hne'⟩ | rfl
      · rw [hchild a' i' hne'] at hy'
        exact absurd hy' (h.top y (List.mem_of_getElem? hy) a' i' ha')
      · rw [hself] at hy'
        exact ⟨rfl, h.distinct i i' y hy hy'⟩
  · intro y hy
    cases List.mem_singleton.mp hy
    exact hlast
  · intro y hy a i ha he
    cases List.mem_singleton.mp hy
    exact Nat.lt_irrefl _ (hin a i _ ha he).2
  · intro i j y hi hj
    have hi0 : i = 0 := by
      have := (List.getElem?_eq_some_iff.mp hi).1
      simpa using this
    have hj0 : j = 0 := by
      have := (List.getElem?_eq_some_iff.mp hj).1
      simpa using this
    rw [hi0, hj0]

mutual

/-- What is built stands for the tree and shares nothing. -/
theorem built_build : ∀ (t : Tree L) (s : Store L), Built s [(build t s).1] [t] (build t s).2
  | .leaf l, s => by
    rw [build]
    exact .leaf l s
  | .node (.list items), s => by
    rw [build]
    exact Built.alloc (built_buildItems items s) (congrArg Sum.inl
      (built_buildItems items s).holds.length_eq)
  | .node (.dict entries), s => by
    rw [build]
    obtain ⟨hbuilt, hkeys⟩ := built_buildEntries entries s
    exact Built.alloc hbuilt (congrArg Sum.inr hkeys)

theorem built_buildItems : ∀ (items : List (Tree L)) (s : Store L),
    Built s (buildItems items s).1 items (buildItems items s).2
  | [], s => .nil s
  | t :: items, s => by
    rw [buildItems]
    exact (built_build t s).cons (built_buildItems items _)

theorem built_buildEntries : ∀ (entries : List (String × Tree L)) (s : Store L),
    Built s ((buildEntries entries s).1.map Prod.snd) (entries.map Prod.snd)
        (buildEntries entries s).2 ∧
      (buildEntries entries s).1.map Prod.fst = entries.map Prod.fst
  | [], s => ⟨.nil s, rfl⟩
  | (key, t) :: entries, s => by
    rw [buildEntries]
    obtain ⟨hbuilt, hkeys⟩ := built_buildEntries entries (build t s).2
    exact ⟨(built_build t s).cons hbuilt, congrArg (key :: ·) hkeys⟩

end

end PlatformSpec.Base.Heap
