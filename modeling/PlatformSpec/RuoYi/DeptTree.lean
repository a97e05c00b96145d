import PlatformSpec.Base.Acyclic
import PlatformSpec.RuoYi.Dept

/-!
# The department tree

What a table of departments has to satisfy. The ancestors of a live department spell its path from
the top, so they grow along the tree and name exactly the departments above.
-/

namespace PlatformSpec.RuoYi

open Base Split Relation

namespace DeptTable

section Get

variable {t : DeptTable} {id : Int} {d : SysDept}

theorem mem_of_get (h : t.get id = some d) : d ∈ t.rows ∧ d.deptId = id := by
  refine ⟨List.mem_of_find?_eq_some h, ?_⟩
  have hid := List.find?_some h
  exact of_decide_eq_true hid

theorem id_of_get (h : t.get id = some d) : id ≠ 0 ∧ IsLong id := by
  obtain ⟨hd, rfl⟩ := mem_of_get h
  exact t.ids d hd

theorem get_modify (t : DeptTable) (f : SysDept → SysDept) (hf : ∀ d, (f d).deptId = d.deptId)
    (id : Int) : (t.modify f hf).get id = (t.get id).map f := by
  rw [get, modify, List.find?_map, get]
  congr 2
  funext d
  rw [Function.comp_apply, hf]

theorem get_insert (t : DeptTable) (d : SysDept)
    (h : d.deptId ≠ 0 ∧ IsLong d.deptId ∧ t.get d.deptId = none) (id : Int) :
    (t.insert d h).get id = if id = d.deptId then some d else t.get id := by
  rw [get, insert, List.find?_append]
  split
  next heq =>
    have hnone : t.rows.find? (fun e => decide (e.deptId = id)) = none := heq ▸ h.2.2
    rw [hnone, heq]
    simp
  next hne =>
    have hother : [d].find? (fun e => decide (e.deptId = id)) = none := by
      simpa using fun heq => hne heq.symm
    rw [hother, Option.or_none, get]

end Get

/-- A department that is not deleted. -/
def Live (t : DeptTable) (id : Int) (d : SysDept) : Prop := t.get id = some d ∧ d.live = true

/-- A live department is the parent of another. -/
def Parent (t : DeptTable) (a b : Int) : Prop := ∃ d p, t.Live a d ∧ d.parentId = b ∧ t.Live b p

variable {t : DeptTable} {a b : Int}

theorem Parent.left : t.Parent a b → ∃ d, t.Live a d
  | ⟨d, _, hd, _, _⟩ => ⟨d, hd⟩

theorem Parent.right : t.Parent a b → ∃ p, t.Live b p
  | ⟨_, p, _, _, hp⟩ => ⟨p, hp⟩

theorem Parent.eq {d : SysDept} (h : t.Parent a b) (hd : t.Live a d) :
    b = d.parentId := by
  obtain ⟨e, _, he, rfl, _⟩ := h
  cases Option.some.inj (hd.1.symm.trans he.1)
  rfl

theorem Parent.of_transGen {c : Int} (hab : t.Parent a b)
    (h : TransGen t.Parent a c) : b = c ∨ TransGen t.Parent b c := by
  obtain ⟨b', hab', hrest⟩ := TransGen.head'_iff.mp h
  obtain ⟨d, hd⟩ := hab.left
  cases (hab.eq hd).trans (hab'.eq hd).symm
  rcases ReflTransGen.cases_head hrest with rfl | ⟨e, he, hrest⟩
  · exact Or.inl rfl
  · exact Or.inr (TransGen.head' he hrest)

/-- A live department is enabled. -/
def Enabled (t : DeptTable) (id : Int) : Prop := ∃ d, t.Live id d ∧ d.status = deptNormal

/-- The ancestors of a department are its parent's, followed by the parent. -/
def Listed (t : DeptTable) (d : SysDept) : Prop :=
  d.parentId = 0 ∧ d.ancestors = "0".toList ∨
    ∃ p, t.Live d.parentId p ∧ d.ancestors = p.ancestors ++ ',' :: decimal d.parentId

end DeptTable

/-- The departments are a tree with correct ancestors. -/
structure CorrectTree (t : DeptTable) : Prop where
  acyclic : Acyclic t.Parent
  ancestors : ∀ id d, t.Live id d → t.Listed d
  enabled : ∀ a b, TransGen t.Parent a b → t.Enabled a → t.Enabled b

section Local

variable {t : DeptTable}

/-- The tree, told of one level. -/
structure LocalTree (t : DeptTable) : Prop where
  ancestors : ∀ id d, t.Live id d → t.Listed d
  enabled : ∀ a b, t.Parent a b → t.Enabled a → t.Enabled b

variable {a b id : Int}

theorem LocalTree.listed_of_parent (h : LocalTree t) (hab : t.Parent a b) :
    ∃ d p, t.Live a d ∧ t.Live b p ∧ d.parentId = b ∧
      d.ancestors = p.ancestors ++ ',' :: decimal b := by
  obtain ⟨d, p, hd, rfl, hp⟩ := hab
  rcases h.ancestors a d hd with ⟨hzero, -⟩ | ⟨q, hq, hlist⟩
  · exact absurd hzero (DeptTable.id_of_get hp.1).1
  · cases Option.some.inj (hp.1.symm.trans hq.1)
    exact ⟨d, p, hd, hp, rfl, hlist⟩

theorem LocalTree.acyclic (h : LocalTree t) : Acyclic t.Parent := by
  refine Acyclic.swap (Acyclic.of_rank
    (fun id => ((t.get id).map fun d => d.ancestors.length).getD 0) fun b a hab => ?_)
  obtain ⟨d, p, hd, hp, -, hlist⟩ := h.listed_of_parent hab
  rw [hd.1, hp.1, Option.map_some, Option.map_some, Option.getD_some, Option.getD_some, hlist,
    List.length_append, List.length_cons]
  omega

theorem correctTree_iff : CorrectTree t ↔ LocalTree t := by
  constructor
  · exact fun h => ⟨h.ancestors, fun a b hab => h.enabled a b (TransGen.single hab)⟩
  · refine fun h => ⟨h.acyclic, h.ancestors, fun a b hab ha => ?_⟩
    induction hab with
    | single hab => exact h.enabled _ _ hab ha
    | tail _ hab ih => exact h.enabled _ _ hab ih

theorem isPlain_decimal (n : Int) : IsPlain (decimal n) := by
  intro c hc
  rcases mem_decimal hc with rfl | hdigit
  · exact Or.inr (Or.inr rfl)
  · exact Or.inl hdigit

theorem IsPlain.append_comma {s : Str} (h : IsPlain s) (n : Int) :
    IsPlain (s ++ ',' :: decimal n) := by
  intro c hc
  rcases List.mem_append.mp hc with hc | hc
  · exact h c hc
  · rcases List.mem_cons.mp hc with rfl | hc
    · exact Or.inr (Or.inl rfl)
    · exact isPlain_decimal n c hc

theorem comma_not_mem_decimal (n : Int) : ',' ∉ decimal n := by
  intro hmem
  rcases mem_decimal hmem with h | h <;> cases h

theorem splitOn_append_comma (s : Str) (n : Int) :
    (s ++ ',' :: decimal n).splitOn ',' = s.splitOn ',' ++ [decimal n] := by
  rw [List.splitOn_append_cons_self, List.splitOn_eq_singleton (comma_not_mem_decimal n)]

theorem LocalTree.path (h : LocalTree t) {d : SysDept} (hd : t.Live id d) :
    ∃ path : List Int, d.ancestors.splitOn ',' = (0 :: path).map decimal ∧ IsPlain d.ancestors ∧
      ∀ x, x ∈ path ↔ TransGen t.Parent id x := by
  obtain ⟨n, hn⟩ : ∃ n, d.ancestors.length ≤ n := ⟨_, Nat.le_refl _⟩
  induction n generalizing id d with
  | zero =>
    exfalso
    have hempty := List.length_eq_zero_iff.mp (Nat.le_zero.mp hn)
    rcases h.ancestors id d hd with ⟨-, hzero⟩ | ⟨p, -, hlist⟩
    · rw [hempty] at hzero
      cases hzero
    · rw [hempty] at hlist
      simp at hlist
  | succ n ih =>
    rcases h.ancestors id d hd with ⟨hroot, hzero⟩ | ⟨p, hp, hlist⟩
    · refine ⟨[], by rw [hzero]; decide, by rw [hzero]; exact isPlain_decimal 0, fun x => ?_⟩
      refine iff_of_false List.not_mem_nil fun hx => ?_
      obtain ⟨b, ⟨e, q, he, rfl, hq⟩, -⟩ := TransGen.head'_iff.mp hx
      cases Option.some.inj (hd.1.symm.trans he.1)
      exact (DeptTable.id_of_get hq.1).1 hroot
    · have hlength : p.ancestors.length ≤ n := by
        rw [hlist, List.length_append, List.length_cons] at hn
        omega
      obtain ⟨path, hsplit, hplain, hmem⟩ := ih hp hlength
      have hparent : t.Parent id d.parentId := ⟨d, p, hd, rfl, hp⟩
      refine ⟨path ++ [d.parentId], ?_, hlist ▸ hplain.append_comma _, fun x => ?_⟩
      · rw [hlist, splitOn_append_comma, hsplit, List.map_cons, List.map_cons, List.map_append]
        rfl
      · rw [List.mem_append, List.mem_singleton, hmem]
        constructor
        · rintro (hx | rfl)
          · exact TransGen.head hparent hx
          · exact TransGen.single hparent
        · exact fun hx => (hparent.of_transGen hx).symm.imp_right Eq.symm

/-- The ancestors of a department begin with those of every department above it. -/
theorem LocalTree.ancestors_append (h : LocalTree t) (hab : TransGen t.Parent a b)
    {d p : SysDept} (hd : t.Live a d) (hp : t.Live b p) : ∃ s, d.ancestors = p.ancestors ++ s := by
  induction hab using TransGen.head_induction_on generalizing d with
  | single hab =>
    obtain ⟨e, q, he, hq, -, hlist⟩ := h.listed_of_parent hab
    cases Option.some.inj (hd.1.symm.trans he.1)
    cases Option.some.inj (hp.1.symm.trans hq.1)
    exact ⟨_, hlist⟩
  | head hac _ ih =>
    obtain ⟨e, q, he, hq, -, hlist⟩ := h.listed_of_parent hac
    cases Option.some.inj (hd.1.symm.trans he.1)
    obtain ⟨s, hs⟩ := ih hq
    exact ⟨_, hlist.trans (by rw [hs, List.append_assoc])⟩

theorem LocalTree.findInSet_iff (h : LocalTree t) {d : SysDept} (hd : t.Live id d)
    {x : Int} (hx : x ≠ 0) : DeptTable.findInSet x d.ancestors = true ↔ TransGen t.Parent id x := by
  obtain ⟨path, hsplit, -, hmem⟩ := h.path hd
  rw [DeptTable.findInSet, hsplit, List.contains_iff_mem,
    List.mem_map_of_injective fun m n => decimal_injective, List.mem_cons, or_iff_right hx, hmem]

end Local

end PlatformSpec.RuoYi
