import Mathlib.Data.List.Forall2
import Mathlib.Data.List.Nodup
import PlatformSpec.RuoYi.DataScopeText

/-!
# What a data scope filter admits

Every scope is written for the first role that has it. The departments of the custom roles are
merged; the roles that count for that are chosen by a test of their own.
-/

namespace PlatformSpec.RuoYi

open Base Sql

section Clause

variable {tables : Tables} {user : SysUser} {aliases : Aliases} {ids : List Int} {role : SysRole}
  {row : QueryRow tables aliases}

theorem same_ofNumber {m n : Option Int} :
    (ofNumber m).same (ofNumber n) = true ↔ ∃ id, m = some id ∧ n = some id := by
  cases m <;> cases n <;> simp [ofNumber, Value.same, eq_comm]

theorem value_operandOf (n : Option Int) (outer : Str → Record) (r : Record) :
    (operandOf n).value outer r = ofNumber n := by
  cases n <;> rfl

theorem value_own (name : Str) (outer : Str → Record) (r : Record) :
    (Operand.column none name).value outer r = r name := rfl

theorem value_deptColumn (r : Record) :
    (deptColumn aliases).value row.columns r = ofNumber row.deptId := if_pos ⟨rfl, rfl⟩

theorem inSet_ofNumber {n : Option Int} {s : Str} :
    (ofNumber n).inSet (.text s) = true ↔ ∃ id, n = some id ∧ decimal id ∈ s.splitOn ',' := by
  cases n <;> simp [ofNumber, Value.inSet]

/-- The roles whose departments the text of a custom role names. -/
def namedRoles (ids : List Int) (role : SysRole) : List Int :=
  if 1 < ids.length then ids else [role.roleId]

/-- The condition for a role that is not written for all rows grants what the role grants, with
the departments of the roles that are named. -/
def ClauseGrants (ids : List Int) (user : SysUser) (role : SysRole)
    (row : QueryRow tables aliases) : Prop :=
  if role.dataScope = .custom then
    ∃ id, row.deptId = some id ∧ ∃ r ∈ namedRoles ids role, (r, id) ∈ tables.sysRoleDept
  else Grants user role row

private theorem holds_rolesClause {r : Record} {n : Int} (h : r "role_id".toList = .int n)
    (db : Database) (outer : Str → Record) :
    (rolesClause ids role).holds db outer r = true ↔ n ∈ namedRoles ids role := by
  have hone : Condition.holds db outer r
      (.eq (.column none "role_id".toList) (.int role.roleId)) = true ↔ n = role.roleId := by
    simp only [Condition.holds, Operand.value, h, Value.same, decide_eq_true_iff]
  rcases ids with _ | ⟨a, _ | ⟨b, ids⟩⟩
  · exact hone.trans List.mem_singleton.symm
  · exact hone.trans List.mem_singleton.symm
  · have hnamed : namedRoles (a :: b :: ids) role = a :: b :: ids := if_pos (by simp)
    have hitems : (.int a :: (b :: ids).map Operand.int : List Operand) =
        (a :: b :: ids).map Operand.int := rfl
    rw [hnamed, rolesClause, Condition.holds, hitems, List.any_map, List.any_eq_true]
    simp only [Operand.value, h, Value.same, Function.comp_apply, decide_eq_true_iff,
      exists_eq_right']

private theorem database_sysRoleDept (tables : Tables) :
    tables.database "sys_role_dept".toList = tables.sysRoleDept.map fun p column =>
      if column = "role_id".toList then .int p.1
      else if column = "dept_id".toList then .int p.2
      else .null := if_pos rfl

private theorem database_sysDept (tables : Tables) :
    tables.database "sys_dept".toList = tables.sysDept.map fun p column =>
      if column = "dept_id".toList then .int p.1
      else if column = "ancestors".toList then .text p.2
      else .null := (if_neg (by decide)).trans (if_pos rfl)

private theorem same_int {n : Option Int} {m : Int} :
    (ofNumber n).same (.int m) = true ↔ n = some m := by
  cases n <;> simp [ofNumber, Value.same]

private theorem holds_custom (r : Record) :
    (Condition.inSelect (deptColumn aliases) "dept_id".toList "sys_role_dept".toList
      (rolesClause ids role)).holds tables.database row.columns r = true ↔
        ∃ id, row.deptId = some id ∧ ∃ r ∈ namedRoles ids role, (r, id) ∈ tables.sysRoleDept := by
  rw [Condition.holds, value_deptColumn, database_sysRoleDept, List.any_map, List.any_eq_true]
  constructor
  · rintro ⟨p, hp, hholds⟩
    rw [Function.comp_apply, Bool.and_eq_true, holds_rolesClause (n := p.1) (if_pos rfl)] at hholds
    exact ⟨p.2, same_int.mp hholds.1, p.1, hholds.2, hp⟩
  · rintro ⟨id, hid, role, hrole, hp⟩
    refine ⟨(role, id), hp, ?_⟩
    rw [Function.comp_apply, Bool.and_eq_true, holds_rolesClause (n := role) (if_pos rfl)]
    exact ⟨same_int.mpr hid, hrole⟩

private theorem holds_deptAndChild (r : Record) :
    (Condition.inSelect (deptColumn aliases) "dept_id".toList "sys_dept".toList
      (.or (.eq (.column none "dept_id".toList) (operandOf user.deptId))
        (.findInSet (operandOf user.deptId) (.column none "ancestors".toList)))).holds
          tables.database row.columns r = true ↔
      ∃ id own, row.deptId = some id ∧ user.deptId = some own ∧
        (id = own ∨ tables.Descends own id) := by
  rw [Condition.holds, value_deptColumn, database_sysDept, List.any_map, List.any_eq_true]
  have hrow (p : Int × Str) : (Condition.or
      (.eq (.column none "dept_id".toList) (operandOf user.deptId))
      (.findInSet (operandOf user.deptId) (.column none "ancestors".toList))).holds
        tables.database row.columns (fun column =>
          if column = "dept_id".toList then .int p.1
          else if column = "ancestors".toList then .text p.2
          else .null) = true ↔
      ∃ own, user.deptId = some own ∧ (p.1 = own ∨ decimal own ∈ p.2.splitOn ',') := by
    have hancestors : ("ancestors".toList = "dept_id".toList) = False := by decide
    simp only [Condition.holds, value_operandOf, value_own, if_pos, hancestors, if_false,
      Bool.or_eq_true, inSet_ofNumber]
    rw [show Value.int p.1 = ofNumber (some p.1) from rfl, same_ofNumber]
    simp only [Option.some.injEq]
    constructor
    · rintro (⟨own, rfl, hown⟩ | ⟨own, hown, h⟩)
      · exact ⟨_, hown, Or.inl rfl⟩
      · exact ⟨own, hown, Or.inr h⟩
    · rintro ⟨own, hown, h | h⟩
      · exact Or.inl ⟨own, h, hown⟩
      · exact Or.inr ⟨own, hown, h⟩
  constructor
  · rintro ⟨p, hp, hholds⟩
    rw [Function.comp_apply, Bool.and_eq_true, hrow p] at hholds
    obtain ⟨hid, own, hown, h⟩ := hholds
    exact ⟨p.1, own, same_int.mp hid, hown, h.imp_right fun h => ⟨p.2, hp, h⟩⟩
  · rintro ⟨id, own, hid, hown, h⟩
    rcases h with rfl | ⟨ancestors, hp, h⟩
    · obtain ⟨p, hp, rfl⟩ := List.mem_map.mp (row.listed id hid)
      refine ⟨p, hp, ?_⟩
      rw [Function.comp_apply, Bool.and_eq_true, hrow p]
      exact ⟨same_int.mpr hid, _, hown, Or.inl rfl⟩
    · refine ⟨(id, ancestors), hp, ?_⟩
      rw [Function.comp_apply, Bool.and_eq_true, hrow]
      exact ⟨same_int.mpr hid, own, hown, Or.inr h⟩

theorem not_holds_zero (r : Record) : (Condition.eq (deptColumn aliases) (.int 0)).holds
    tables.database row.columns r = false := by
  rw [Bool.eq_false_iff, Condition.holds, value_deptColumn]
  intro hzero
  obtain ⟨p, hp, hid⟩ := List.mem_map.mp (row.listed 0 (same_int.mp hzero))
  exact tables.id_ne_zero p hp hid

private theorem holds_self (r : Record) (h : role.dataScope = .self) :
    (clause user aliases ids role).holds tables.database row.columns r = true ↔
      row.userId = some user.userId := by
  simp only [clause, h]
  split
  next hblank =>
    have hcolumn : row.columns aliases.userAlias "user_id".toList = ofNumber row.userId :=
      (if_neg fun h => absurd h.2 (by decide)).trans (if_pos ⟨rfl, rfl⟩)
    rw [Condition.holds, Operand.value, hcolumn]
    exact same_int
  next hblank =>
    rw [row.owned (Bool.eq_false_iff.mpr hblank), not_holds_zero]
    exact iff_of_false (by decide) (by simp)

theorem holds_clause (h : role.dataScope ≠ .all) (r : Record) :
    (clause user aliases ids role).holds tables.database row.columns r = true ↔
      ClauseGrants ids user role row := by
  unfold ClauseGrants Grants
  cases hscope : role.dataScope with
  | all => exact absurd hscope h
  | custom =>
    simp only [clause, hscope, if_pos]
    exact holds_custom r
  | dept =>
    simp only [clause, hscope, Condition.holds, value_deptColumn, value_operandOf, same_ofNumber]
    simp
  | deptAndChild =>
    simp only [clause, hscope]
    exact holds_deptAndChild r
  | self => exact holds_self r hscope

end Clause

section Loop

variable {user : SysUser} {aliases : Aliases} {permission : Option Str} {customIds : List Str}
  {role : SysRole}

theorem qualifies_iff : Qualifies permission role ↔
    role.status ≠ roleDisable ∧ (isEmpty permission ||
      containsAny role.permissions (toStrArray permission)) = true := by
  have hany : containsAny role.permissions (toStrArray permission) = true ↔
      ∃ p ∈ toStrArray permission, p ∈ role.permissions := by
    unfold containsAny
    split
    next h =>
      refine iff_of_false (by simp) ?_
      rintro ⟨p, hp, hrole⟩
      rw [Bool.or_eq_true, List.isEmpty_iff, List.isEmpty_iff] at h
      rcases h with h | h
      · rw [h] at hrole
        cases hrole
      · rw [h] at hp
        cases hp
    next => simp
  rw [Qualifies, Bool.or_eq_true, hany]

instance (permission : Option Str) : DecidablePred (Qualifies permission) :=
  fun _ => decidable_of_iff _ qualifies_iff.symm

/-- The roles for which the loop appends a text, after some scopes. -/
def written (permission : Option Str) (seen : List DataScope) : List SysRole → List SysRole
  | [] => []
  | role :: roles =>
    if role.dataScope ∈ seen ∨ ¬ Qualifies permission role then written permission seen roles
    else role :: written permission (seen ++ [role.dataScope]) roles

theorem filterLoop_cons (role : SysRole) (roles : List SysRole) (sqlString : Str)
    (conditions : List DataScope) :
    filterLoop user aliases permission customIds (role :: roles) sqlString conditions =
      if role.dataScope ∈ conditions ∨ ¬ Qualifies permission role then
        filterLoop user aliases permission customIds roles sqlString conditions
      else if role.dataScope = .all then ([], conditions ++ [.all])
      else
        filterLoop user aliases permission customIds roles
          (sqlString ++ condition user aliases customIds role)
          (conditions ++ [role.dataScope]) := by
  have hq : Qualifies permission role ↔ _ := qualifies_iff
  rw [filterLoop]
  by_cases hseen : role.dataScope ∈ conditions
  · rw [if_pos (by simp [hseen]), if_pos (Or.inl hseen)]
  · by_cases hstatus : role.status = roleDisable
    · rw [if_pos (by simp [hstatus]), if_pos (Or.inr fun h => h.1 hstatus)]
    · rw [if_neg (by simp [hseen, hstatus]), ← Bool.not_or]
      cases hpermitted : isEmpty permission || containsAny role.permissions (toStrArray permission)
      · rw [if_pos (by rfl), if_pos (Or.inr fun h => ?_)]
        exact absurd ((hq.mp h).2.symm.trans hpermitted) (by decide)
      · have hqualifies : Qualifies permission role := hq.mpr ⟨hstatus, hpermitted⟩
        rw [if_neg (by decide), if_neg (not_or.mpr ⟨hseen, not_not.mpr hqualifies⟩)]

theorem filterLoop_written {roles : List SysRole}
    (h : ∀ role ∈ roles, Qualifies permission role → role.dataScope ≠ .all) (sqlString : Str)
    (conditions : List DataScope) :
    filterLoop user aliases permission customIds roles sqlString conditions =
      (sqlString ++
          ((written permission conditions roles).map (condition user aliases customIds)).flatten,
        conditions ++ (written permission conditions roles).map SysRole.dataScope) := by
  induction roles generalizing sqlString conditions with
  | nil => simp [filterLoop, written]
  | cons role roles ih =>
    have htail := ih fun r hr => h r (List.mem_cons_of_mem _ hr)
    rw [filterLoop_cons, written]
    split
    next => exact htail sqlString conditions
    next hnext =>
      rw [not_or, not_not] at hnext
      rw [if_neg (h role List.mem_cons_self hnext.2), htail]
      simp

theorem filterLoop_all {roles : List SysRole} {conditions : List DataScope}
    (hseen : .all ∉ conditions)
    (h : ∃ role ∈ roles, Qualifies permission role ∧ role.dataScope = .all) (sqlString : Str) :
    ∃ scopes, filterLoop user aliases permission customIds roles sqlString conditions =
      ([], scopes ++ [.all]) := by
  induction roles generalizing sqlString conditions with
  | nil =>
    obtain ⟨role, hrole, -⟩ := h
    cases hrole
  | cons role roles ih =>
    rw [filterLoop_cons]
    by_cases hall : Qualifies permission role ∧ role.dataScope = .all
    · rw [if_neg (not_or.mpr ⟨hall.2 ▸ hseen, not_not.mpr hall.1⟩), if_pos hall.2]
      exact ⟨conditions, rfl⟩
    · have htail : ∃ role ∈ roles, Qualifies permission role ∧ role.dataScope = .all := by
        obtain ⟨other, hother, hboth⟩ := h
        rcases List.mem_cons.mp hother with rfl | hother
        · exact absurd hboth hall
        · exact ⟨other, hother, hboth⟩
      split
      next => exact ih hseen htail _
      next hnext =>
        rw [not_or, not_not] at hnext
        have hscope : role.dataScope ≠ .all := fun he => hall ⟨hnext.2, he⟩
        rw [if_neg hscope]
        refine ih ?_ htail _
        rw [List.mem_append, List.mem_singleton, not_or]
        exact ⟨hseen, hscope.symm⟩

variable {seen : List DataScope} {roles : List SysRole}

theorem mem_of_mem_written (h : role ∈ written permission seen roles) :
    role ∈ roles ∧ Qualifies permission role ∧ role.dataScope ∉ seen := by
  induction roles generalizing seen with
  | nil => cases h
  | cons other roles ih =>
    rw [written] at h
    split at h
    next =>
      have htail := ih h
      exact ⟨List.mem_cons_of_mem _ htail.1, htail.2⟩
    next hnext =>
      rw [not_or, not_not] at hnext
      rcases List.mem_cons.mp h with rfl | h
      · exact ⟨List.mem_cons_self, hnext.2, hnext.1⟩
      · have htail := ih h
        exact ⟨List.mem_cons_of_mem _ htail.1, htail.2.1, fun hmem =>
          htail.2.2 (List.mem_append_left _ hmem)⟩

theorem exists_written (hrole : role ∈ roles) (h : Qualifies permission role)
    (hseen : role.dataScope ∉ seen) :
    ∃ other ∈ written permission seen roles, other.dataScope = role.dataScope := by
  induction roles generalizing seen with
  | nil => cases hrole
  | cons other roles ih =>
    rw [written]
    rcases List.mem_cons.mp hrole with rfl | hrole
    · rw [if_neg (not_or.mpr ⟨hseen, not_not.mpr h⟩)]
      exact ⟨role, List.mem_cons_self, rfl⟩
    · split
      next => exact ih hrole hseen
      next =>
        by_cases hscope : role.dataScope = other.dataScope
        · exact ⟨other, List.mem_cons_self, hscope.symm⟩
        · have hnext : role.dataScope ∉ seen ++ [other.dataScope] := by
            rw [List.mem_append, List.mem_singleton, not_or]
            exact ⟨hseen, hscope⟩
          obtain ⟨first, hfirst, hsame⟩ := ih hrole hnext
          exact ⟨first, List.mem_cons_of_mem _ hfirst, hsame⟩

theorem nodup_written : ((written permission seen roles).map SysRole.dataScope).Nodup := by
  induction roles generalizing seen with
  | nil => exact List.nodup_nil
  | cons role roles ih =>
    rw [written]
    split
    next => exact ih
    next =>
      refine List.nodup_cons.mpr ⟨fun hmem => ?_, ih⟩
      obtain ⟨other, hother, hsame⟩ := List.mem_map.mp hmem
      refine (mem_of_mem_written hother).2.2 ?_
      rw [hsame]
      exact List.mem_append_right _ List.mem_cons_self

end Loop

section Admitted

variable {user : SysUser} {aliases : Aliases} {permission : Option Str} {tables : Tables}
  {row : QueryRow tables aliases}

/-- The ids of the custom roles that are merged. -/
def mergedIds (roles : List SysRole) (permission : Option Str) : List Int :=
  (roles.filter fun role =>
      decide (role.dataScope = .custom) && decide (role.status = roleNormal) &&
        (isEmpty permission || containsAny role.permissions (toStrArray permission))).map
    SysRole.roleId

theorem scopeCustomIds_eq (roles : List SysRole) :
    scopeCustomIds roles permission = (mergedIds roles permission).map decimal := by
  rw [mergedIds, List.map_map]
  rfl

theorem mem_mergedIds {roles : List SysRole} {id : Int} : id ∈ mergedIds roles permission ↔
    ∃ role ∈ roles, Qualifies permission role ∧ role.dataScope = .custom ∧
      role.status = roleNormal ∧ role.roleId = id := by
  have hstatus : roleNormal ≠ roleDisable := by decide
  simp only [mergedIds, List.mem_map, List.mem_filter, Bool.and_eq_true, decide_eq_true_iff,
    qualifies_iff]
  constructor
  · rintro ⟨role, ⟨hrole, ⟨hscope, hnormal⟩, hpermitted⟩, hid⟩
    exact ⟨role, hrole, ⟨hnormal ▸ hstatus, hpermitted⟩, hscope, hnormal, hid⟩
  · rintro ⟨role, hrole, ⟨-, hpermitted⟩, hscope, hnormal, hid⟩
    exact ⟨role, ⟨hrole, ⟨hscope, hnormal⟩, hpermitted⟩, hid⟩

theorem isNotBlank_of_readAs {s : Str} {c : Condition} (h : ReadAs s c) (more : Str) :
    isNotBlank (s ++ more) = true := by
  obtain ⟨body, rfl, -⟩ := h
  rfl

private theorem admits_text {s : Str} {c : Condition} {texts : List Str} {cs : List Condition}
    (hfirst : ReadAs s c) (hrest : List.Forall₂ ReadAs texts cs) (hc : c.isOr = false)
    (hcs : ∀ c ∈ cs, c.isOr = false) :
    admits tables.database row.columns
        (" AND (".toList ++ ((s ++ texts.flatten).drop 4 ++ ")".toList)) =
      (c :: cs).any fun c => c.holds tables.database row.columns fun _ => .null :=
  admits_disjunction (List.forall_mem_cons.mpr ⟨hc, hcs⟩) (lex_filter hfirst hrest)

/-- Without a role that counts and has all rows, the filter admits what one of the conditions
written grants. -/
theorem admits_iff_written
    (h : ∀ role ∈ user.roles, Qualifies permission role → role.dataScope ≠ .all) :
    admits tables.database row.columns (paramsDataScope user aliases permission) = true ↔
      ∃ role ∈ written permission [] user.roles,
        ClauseGrants (mergedIds user.roles permission) user role row := by
  have hread : ∀ role ∈ written permission [] user.roles,
      ReadAs (condition user aliases ((mergedIds user.roles permission).map decimal) role)
        (clause user aliases (mergedIds user.roles permission) role) := fun role hrole =>
    readAs_condition (h role (mem_of_mem_written hrole).1 (mem_of_mem_written hrole).2.1)
  have hholds : ∀ role ∈ written permission [] user.roles,
      (clause user aliases (mergedIds user.roles permission) role).holds tables.database row.columns
        (fun _ => .null) = true ↔ ClauseGrants (mergedIds user.roles permission) user role row :=
    fun role hrole => holds_clause
      (h role (mem_of_mem_written hrole).1 (mem_of_mem_written hrole).2.1) fun _ => .null
  unfold paramsDataScope dataScopeFilter
  rw [scopeCustomIds_eq, filterLoop_written h]
  cases hwritten : written permission [] user.roles with
  | nil =>
    have hnone := readAs_none aliases
    have htext : isNotBlank (format " OR \x7b\x7d.dept_id = 0 ".toList [some aliases.deptAlias]) =
        true := by
      rw [← List.append_nil (format _ _)]
      exact isNotBlank_of_readAs hnone []
    have hadmits := @admits_text _ tables row _ _ _ _ hnone .nil rfl (by simp)
    rw [List.flatten_nil, List.append_nil] at hadmits
    simp only [List.map_nil, List.flatten_nil, List.append_nil, List.isEmpty_nil, if_true,
      List.nil_append, htext, Option.getD_some, hadmits]
    refine iff_of_false ?_ (by simp)
    rw [List.any_cons, List.any_nil, Bool.or_false, not_holds_zero]
    decide
  | cons role roles =>
    rw [hwritten] at hread hholds
    have hfirst := hread role List.mem_cons_self
    have hrest : List.Forall₂ ReadAs (roles.map (condition user aliases
        ((mergedIds user.roles permission).map decimal)))
        (roles.map (clause user aliases (mergedIds user.roles permission))) := by
      rw [List.forall₂_map_left_iff, List.forall₂_map_right_iff, List.forall₂_same]
      exact fun other hother => hread other (List.mem_cons_of_mem _ hother)
    have hadmits := @admits_text _ tables row _ _ _ _ hfirst hrest isOr_clause
      (by simp [isOr_clause])
    have htext := isNotBlank_of_readAs hfirst (roles.map (condition user aliases
      ((mergedIds user.roles permission).map decimal))).flatten
    simp only [List.map_cons, List.flatten_cons, List.nil_append, List.isEmpty_cons,
      Bool.false_eq_true, if_false, htext, if_true, Option.getD_some, hadmits]
    rw [← List.map_cons, List.any_map, List.any_eq_true]
    exact exists_congr fun other => and_congr_right fun hother => hholds other hother

/-- With a role that counts and has all rows, nothing is put into the parameters. -/
theorem paramsDataScope_all
    (h : ∃ role ∈ user.roles, Qualifies permission role ∧ role.dataScope = .all) :
    paramsDataScope user aliases permission = [] := by
  obtain ⟨scopes, hloop⟩ := @filterLoop_all user aliases _
    (scopeCustomIds user.roles permission) _ [] List.not_mem_nil h []
  rw [paramsDataScope, dataScopeFilter, hloop]
  have hscopes : (scopes ++ [DataScope.all]).isEmpty = false := by cases scopes <;> rfl
  simp only [hscopes, Bool.false_eq_true, if_false]
  rfl

/-- The departments of every custom role that counts are looked up, or all rows are admitted. -/
def CustomMerged (roles : List SysRole) (permission : Option Str) : Prop :=
  (∃ role ∈ roles, Qualifies permission role ∧ role.dataScope = .all) ∨
    (∀ role ∈ roles, Qualifies permission role → role.dataScope = .custom →
      ∃ other ∈ roles, Qualifies permission other ∧ other.dataScope = .custom ∧
        other.status = roleNormal ∧ other.roleId = role.roleId) ∨
    ∀ role ∈ roles, ∀ other ∈ roles, Qualifies permission role → Qualifies permission other →
      role.dataScope = .custom → other.dataScope = .custom → role.roleId = other.roleId

variable {roles : List SysRole}

theorem of_mem_namedRoles {first : SysRole} {id : Int} (hfirst : first ∈ roles)
    (hq : Qualifies permission first) (hscope : first.dataScope = .custom)
    (h : id ∈ namedRoles (mergedIds roles permission) first) :
    ∃ role ∈ roles, Qualifies permission role ∧ role.dataScope = .custom ∧ role.roleId = id := by
  rw [namedRoles] at h
  split at h
  next =>
    obtain ⟨role, hrole, hrq, hrs, -, hid⟩ := mem_mergedIds.mp h
    exact ⟨role, hrole, hrq, hrs, hid⟩
  next => exact ⟨first, hfirst, hq, hscope, (List.mem_singleton.mp h).symm⟩

/-- A written custom role names all custom roles that count if and only if they are merged. -/
theorem customMerged_iff {first : SysRole} (hfirst : first ∈ roles)
    (hq : Qualifies permission first) (hscope : first.dataScope = .custom)
    (hall : ∀ role ∈ roles, Qualifies permission role → role.dataScope ≠ .all) :
    CustomMerged roles permission ↔ ∀ role ∈ roles, Qualifies permission role →
      role.dataScope = .custom → role.roleId ∈ namedRoles (mergedIds roles permission) first := by
  have hnone : ¬ ∃ role ∈ roles, Qualifies permission role ∧ role.dataScope = .all :=
    fun ⟨role, hrole, hrq, hrs⟩ => hall role hrole hrq hrs
  rw [CustomMerged, or_iff_right hnone]
  unfold namedRoles
  split
  next hlength =>
    constructor
    · rintro (hnormal | hone) role hrole hrq hrs
      · exact mem_mergedIds.mpr (hnormal role hrole hrq hrs)
      · obtain ⟨id, hid⟩ := List.exists_mem_of_length_pos (Nat.zero_lt_of_lt hlength)
        obtain ⟨other, hother, hoq, hos, -, rfl⟩ := mem_mergedIds.mp hid
        exact hone role hrole other hother hrq hoq hrs hos ▸ hid
    · exact fun h => Or.inl fun role hrole hrq hrs => mem_mergedIds.mp (h role hrole hrq hrs)
  next hlength =>
    constructor
    · rintro (hnormal | hone) role hrole hrq hrs
      · have hmem := mem_mergedIds.mpr (hnormal role hrole hrq hrs)
        have hmemFirst := mem_mergedIds.mpr (hnormal first hfirst hq hscope)
        match hids : mergedIds roles permission with
        | [] =>
          rw [hids] at hmem
          cases hmem
        | [id] =>
          rw [hids] at hmem hmemFirst
          rw [List.mem_singleton.mp hmem, List.mem_singleton.mp hmemFirst]
          exact List.mem_singleton_self id
        | _ :: _ :: _ =>
          rw [hids] at hlength
          exact absurd (by simp) hlength
      · exact List.mem_singleton.mpr (hone role hrole first hfirst hrq hq hrs hscope)
    · intro h
      refine Or.inr fun role hrole other hother hrq hoq hrs hos => ?_
      rw [List.mem_singleton.mp (h role hrole hrq hrs),
        List.mem_singleton.mp (h other hother hoq hos)]

theorem grants_of_scope {role other : SysRole} (h : role.dataScope = other.dataScope)
    (hcustom : role.dataScope ≠ .custom) (hgrants : Grants user role row) :
    Grants user other row := by
  unfold Grants at hgrants ⊢
  rw [← h]
  cases hscope : role.dataScope with
  | custom => exact absurd hscope hcustom
  | _ =>
    rw [hscope] at hgrants
    exact hgrants

theorem admits_iff_granted (h : CustomMerged user.roles permission) :
    admits tables.database row.columns (paramsDataScope user aliases permission) = true ↔
      Granted user permission row := by
  by_cases hall : ∃ role ∈ user.roles, Qualifies permission role ∧ role.dataScope = .all
  · obtain ⟨role, hrole, hq, hscope⟩ := hall
    rw [paramsDataScope_all ⟨role, hrole, hq, hscope⟩]
    refine iff_of_true rfl ⟨role, hrole, hq, ?_⟩
    rw [Grants, hscope]
    trivial
  · have hnone : ∀ role ∈ user.roles, Qualifies permission role → role.dataScope ≠ .all :=
      fun role hrole hq hscope => hall ⟨role, hrole, hq, hscope⟩
    rw [admits_iff_written hnone]
    constructor
    · rintro ⟨role, hrole, hgrants⟩
      obtain ⟨hmem, hq, -⟩ := mem_of_mem_written hrole
      unfold ClauseGrants at hgrants
      split at hgrants
      next hscope =>
        obtain ⟨dept, hdept, id, hid, hpair⟩ := hgrants
        obtain ⟨other, hother, hoq, hos, rfl⟩ := of_mem_namedRoles hmem hq hscope hid
        refine ⟨other, hother, hoq, ?_⟩
        rw [Grants, hos]
        exact ⟨dept, hdept, hpair⟩
      next => exact ⟨role, hmem, hq, hgrants⟩
    · rintro ⟨role, hrole, hq, hgrants⟩
      obtain ⟨other, hother, hscope⟩ := exists_written hrole hq List.not_mem_nil
      obtain ⟨hmem, hoq, -⟩ := mem_of_mem_written hother
      refine ⟨other, hother, ?_⟩
      unfold ClauseGrants
      split
      next hcustom =>
        rw [Grants, hscope.symm.trans hcustom] at hgrants
        obtain ⟨dept, hdept, hpair⟩ := hgrants
        exact ⟨dept, hdept, role.roleId, (customMerged_iff hmem hoq hcustom hnone).mp h role hrole
          hq (hscope.symm.trans hcustom), hpair⟩
      next hcustom => exact grants_of_scope hscope.symm (hscope ▸ hcustom) hgrants

end Admitted

section Exact

variable {user : SysUser} {aliases : Aliases} {permission : Option Str}

/-- One department, which a custom role may see. -/
def loneTables (roleId id : Int) (hid : id ≠ 0) : Tables where
  sysRoleDept := [(roleId, id)]
  sysDept := [(id, [])]
  id_ne_zero _ hp := List.mem_singleton.mp hp ▸ hid

/-- A row of that department that belongs to nobody. -/
def loneRow (aliases : Aliases) (roleId id : Int) (hid : id ≠ 0) :
    QueryRow (loneTables roleId id hid) aliases where
  deptId := some id
  userId := none
  listed _ h := Option.some.inj h ▸ List.mem_singleton_self id
  owned _ := rfl

theorem not_descends_lone {roleId id : Int} (hid : id ≠ 0) (own other : Int) :
    ¬ (loneTables roleId id hid).Descends own other := by
  rintro ⟨ancestors, hmem, hown⟩
  obtain ⟨rfl, rfl⟩ := Prod.mk.inj (List.mem_singleton.mp hmem)
  exact decimal_ne_nil own (List.mem_singleton.mp hown)

/-- Of the roles without all rows, only a custom role grants the lone row of a department that is
not the user's. -/
theorem grants_lone {role : SysRole} {roleId id : Int} (hid : id ≠ 0)
    (huser : user.deptId ≠ some id) (hall : role.dataScope ≠ .all)
    (h : Grants user role (loneRow aliases roleId id hid)) :
    role.dataScope = .custom := by
  unfold Grants at h
  cases hscope : role.dataScope with
  | all => exact absurd hscope hall
  | custom => rfl
  | dept =>
    rw [hscope] at h
    obtain ⟨own, hrow, hown⟩ := h
    exact absurd (hown.trans hrow.symm) huser
  | deptAndChild =>
    rw [hscope] at h
    obtain ⟨dept, own, hrow, hown, h⟩ := h
    rcases h with rfl | h
    · exact absurd (hown.trans hrow.symm) huser
    · exact absurd h (not_descends_lone hid own dept)
  | self =>
    rw [hscope] at h
    cases h

/-- The condition that the filter puts into the parameters admits exactly the granted rows, for
every database and row, if and only if the custom roles that count are merged. -/
theorem dataScope_exact_iff (user : SysUser) (aliases : Aliases) (permission : Option Str) :
    (∀ (tables : Tables) (row : QueryRow tables aliases),
      admits tables.database row.columns (paramsDataScope user aliases permission) = true ↔
        Granted user permission row) ↔ CustomMerged user.roles permission := by
  refine ⟨fun h => ?_, fun h tables row => admits_iff_granted h⟩
  by_contra hmerged
  have hnone : ∀ role ∈ user.roles, Qualifies permission role → role.dataScope ≠ .all :=
    fun role hrole hq hscope => hmerged (Or.inl ⟨role, hrole, hq, hscope⟩)
  -- some custom role counts, so one is written
  obtain ⟨custom, hcustom, hcq, hcs⟩ : ∃ role ∈ user.roles, Qualifies permission role ∧
      role.dataScope = .custom := by
    by_contra hno
    exact hmerged (Or.inr (Or.inl fun role hrole hq hscope => absurd ⟨role, hrole, hq, hscope⟩ hno))
  obtain ⟨first, hfirst, hsame⟩ := exists_written hcustom hcq List.not_mem_nil
  have hfs : first.dataScope = .custom := hsame.trans hcs
  obtain ⟨hfmem, hfq, -⟩ := mem_of_mem_written hfirst
  -- one is not named
  obtain ⟨role, hrole, hq, hscope, hleft⟩ : ∃ role ∈ user.roles, Qualifies permission role ∧
      role.dataScope = .custom ∧
        role.roleId ∉ namedRoles (mergedIds user.roles permission) first := by
    by_contra hno
    refine hmerged ((customMerged_iff hfmem hfq hfs hnone).mpr fun role hrole hq hscope => ?_)
    by_contra hleft
    exact hno ⟨role, hrole, hq, hscope, hleft⟩
  obtain ⟨id, hid, huser⟩ : ∃ id : Int, id ≠ 0 ∧ user.deptId ≠ some id := by
    by_cases hone : user.deptId = some 1
    · exact ⟨2, by decide, by rw [hone]; decide⟩
    · exact ⟨1, by decide, hone⟩
  have hgranted : Granted user permission (loneRow aliases role.roleId id hid) := by
    refine ⟨role, hrole, hq, ?_⟩
    rw [Grants, hscope]
    exact ⟨id, rfl, List.mem_singleton_self _⟩
  obtain ⟨other, hother, hgrants⟩ := (admits_iff_written hnone).mp ((h _ _).mpr hgranted)
  obtain ⟨homem, hoq, -⟩ := mem_of_mem_written hother
  unfold ClauseGrants at hgrants
  split at hgrants
  next hos =>
    obtain ⟨dept, -, r, hr, hpair⟩ := hgrants
    have heq : other = first :=
      List.inj_on_of_nodup_map nodup_written hother hfirst (hos.trans hfs.symm)
    rw [heq] at hr
    exact hleft ((Prod.mk.inj (List.mem_singleton.mp hpair)).1 ▸ hr)
  next hos => exact hos (grants_lone hid huser (hnone other homem hoq) hgrants)

end Exact

section Failing

/-- The names in the queries for users. -/
def userAliases : Aliases where
  deptAlias := "d".toList
  userAlias := "u".toList
  dept := ⟨by decide, forall_of_all (by decide), by decide⟩
  user _ := ⟨by decide, forall_of_all (by decide), by decide⟩

/-- A custom role with a status that is neither normal nor disabled, and a normal one. -/
def twoCustomRoles : SysUser where
  userId := 7
  deptId := some 100
  roles := [⟨2, .custom, "2".toList, []⟩, ⟨3, .custom, "0".toList, []⟩]

/-- The departments of the normal role are left out. -/
theorem dataScope_leaves_out :
    Granted twoCustomRoles none (loneRow userAliases 3 101 (by decide)) ∧
      ¬ admits (loneTables 3 101 (by decide)).database
        (loneRow userAliases 3 101 (by decide)).columns
          (paramsDataScope twoCustomRoles userAliases none) = true := by
  have hwritten : written none [] twoCustomRoles.roles = [⟨2, .custom, "2".toList, []⟩] := rfl
  constructor
  · exact ⟨⟨3, .custom, "0".toList, []⟩, by simp [twoCustomRoles], by decide, 101, rfl, by decide⟩
  · rw [admits_iff_written (by decide), hwritten]
    rintro ⟨role, hrole, hgrants⟩
    rw [List.mem_singleton.mp hrole] at hgrants
    obtain ⟨id, -, r, hr, hpair⟩ := hgrants
    have hids : mergedIds twoCustomRoles.roles none = [3] := by decide
    rw [hids] at hr
    rw [List.mem_singleton.mp hr] at hpair
    exact absurd (List.mem_singleton.mp hpair) (by simp)

end Failing

end PlatformSpec.RuoYi
