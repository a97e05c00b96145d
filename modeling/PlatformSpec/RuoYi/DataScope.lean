import PlatformSpec.Base.Sql
import PlatformSpec.RuoYi.StringUtils

/-!
# The data scope filter

Models `DataScopeAspect`: the condition on rows that is put into `params.dataScope`, as the text it
is. What the condition says of a row is what the SQL of that text says.
-/

namespace PlatformSpec.RuoYi

open Base Sql

/-- `data_scope` of a role, `1` to `5`. -/
inductive DataScope where
  | all
  | custom
  | dept
  | deptAndChild
  | self
  deriving DecidableEq

/-- A role of a user; its permissions are empty where they are `null`. -/
structure SysRole where
  roleId : Int
  dataScope : DataScope
  status : Str
  permissions : List Str

/-- A user. -/
structure SysUser where
  userId : Int
  deptId : Option Int
  roles : List SysRole

/-- `UserConstants.ROLE_NORMAL`. -/
def roleNormal : Str := "0".toList

/-- `UserConstants.ROLE_DISABLE`. -/
def roleDisable : Str := "1".toList

/-- A name in SQL that needs no quotes. -/
def IsName (w : Str) : Prop :=
  w ≠ [] ∧ (∀ c ∈ w, isWordChar c = true) ∧ classify w = .name w

/-- The names of the tables in the query: `@DataScope`. -/
structure Aliases where
  deptAlias : Str
  userAlias : Str
  dept : IsName deptAlias
  user : isNotBlank userAlias = true → IsName userAlias

/-- An argument that is a number. -/
def number (n : Option Int) : Option Str := n.map decimal

/-- The ids of the custom roles that are merged into one condition. -/
def scopeCustomIds (roles : List SysRole) (permission : Option Str) : List Str :=
  (roles.filter fun role =>
      decide (role.dataScope = .custom) && decide (role.status = roleNormal) &&
        (isEmpty permission || containsAny role.permissions (toStrArray permission))).map
    fun role => decimal role.roleId

/-- What the loop appends for a role. -/
def condition (user : SysUser) (aliases : Aliases) (customIds : List Str) (role : SysRole) : Str :=
  match role.dataScope with
  | .all => []
  | .custom =>
    if 1 < customIds.length then
      format (" OR \x7b\x7d.dept_id IN ( SELECT dept_id FROM sys_role_dept " ++
        "WHERE role_id in (\x7b\x7d) ) ").toList
        [some aliases.deptAlias, some (joinComma customIds)]
    else
      format (" OR \x7b\x7d.dept_id IN ( SELECT dept_id FROM sys_role_dept " ++
        "WHERE role_id = \x7b\x7d ) ").toList [some aliases.deptAlias, some (decimal role.roleId)]
  | .dept =>
    format " OR \x7b\x7d.dept_id = \x7b\x7d ".toList [some aliases.deptAlias, number user.deptId]
  | .deptAndChild =>
    format (" OR \x7b\x7d.dept_id IN ( SELECT dept_id FROM sys_dept WHERE dept_id = \x7b\x7d or " ++
        "find_in_set( \x7b\x7d , ancestors ) )").toList
      [some aliases.deptAlias, number user.deptId, number user.deptId]
  | .self =>
    if isNotBlank aliases.userAlias then
      format " OR \x7b\x7d.user_id = \x7b\x7d ".toList
        [some aliases.userAlias, some (decimal user.userId)]
    else format " OR \x7b\x7d.dept_id = 0 ".toList [some aliases.deptAlias]

/-- The loop over the roles, with the text and the scopes so far. -/
def filterLoop (user : SysUser) (aliases : Aliases) (permission : Option Str)
    (customIds : List Str) : List SysRole → Str → List DataScope → Str × List DataScope
  | [], sqlString, conditions => (sqlString, conditions)
  | role :: roles, sqlString, conditions =>
    if conditions.contains role.dataScope || decide (role.status = roleDisable) then
      filterLoop user aliases permission customIds roles sqlString conditions
    else if !isEmpty permission && !containsAny role.permissions (toStrArray permission) then
      filterLoop user aliases permission customIds roles sqlString conditions
    else if role.dataScope = .all then ([], conditions ++ [.all])
    else
      filterLoop user aliases permission customIds roles
        (sqlString ++ condition user aliases customIds role) (conditions ++ [role.dataScope])

/-- `dataScopeFilter`: what it puts into `params.dataScope`, if anything. -/
def dataScopeFilter (user : SysUser) (aliases : Aliases) (permission : Option Str) : Option Str :=
  let (sqlString, conditions) := filterLoop user aliases permission
    (scopeCustomIds user.roles permission) user.roles [] []
  let sqlString :=
    if conditions.isEmpty then
      sqlString ++ format " OR \x7b\x7d.dept_id = 0 ".toList [some aliases.deptAlias]
    else sqlString
  if isNotBlank sqlString then some (" AND (".toList ++ (sqlString.drop 4 ++ ")".toList)) else none

/-- `params.dataScope` after `clearDataScope` and `dataScopeFilter`. -/
def paramsDataScope (user : SysUser) (aliases : Aliases) (permission : Option Str) : Str :=
  (dataScopeFilter user aliases permission).getD []

section Rows

/-- The tables that a filter reads: `sys_role_dept` as `role_id` and `dept_id`, and `sys_dept` as
`dept_id` and `ancestors`; a `dept_id` is never `0`. -/
structure Tables where
  sysRoleDept : List (Int × Int)
  sysDept : List (Int × Str)
  id_ne_zero : ∀ p ∈ sysDept, p.1 ≠ 0

/-- The rows of the tables. -/
def Tables.database (tables : Tables) : Database := fun table =>
  if table = "sys_role_dept".toList then
    tables.sysRoleDept.map fun p column =>
      if column = "role_id".toList then .int p.1
      else if column = "dept_id".toList then .int p.2
      else .null
  else if table = "sys_dept".toList then
    tables.sysDept.map fun p column =>
      if column = "dept_id".toList then .int p.1
      else if column = "ancestors".toList then .text p.2
      else .null
  else []

/-- A row of a query with a filter: its department, one of `sys_dept`, and the user it belongs to,
where the query has a table of users. -/
structure QueryRow (tables : Tables) (aliases : Aliases) where
  deptId : Option Int
  userId : Option Int
  listed : ∀ id, deptId = some id → id ∈ tables.sysDept.map Prod.fst
  owned : isNotBlank aliases.userAlias = false → userId = none

/-- A number that may be `NULL`. -/
def ofNumber (n : Option Int) : Value := (n.map Value.int).getD .null

/-- The columns of a row. -/
def QueryRow.columns {tables : Tables} {aliases : Aliases} (row : QueryRow tables aliases) :
    Str → Record := fun table column =>
  if table = aliases.deptAlias ∧ column = "dept_id".toList then ofNumber row.deptId
  else if table = aliases.userAlias ∧ column = "user_id".toList then ofNumber row.userId
  else .null

end Rows

section Granted

/-- A role that counts: it is not disabled and holds one of the permissions that are asked for. -/
def Qualifies (permission : Option Str) (role : SysRole) : Prop :=
  role.status ≠ roleDisable ∧
    (isEmpty permission = true ∨ ∃ p ∈ toStrArray permission, p ∈ role.permissions)

/-- A department is among the ancestors of another. -/
def Tables.Descends (tables : Tables) (ancestor id : Int) : Prop :=
  ∃ ancestors, (id, ancestors) ∈ tables.sysDept ∧ decimal ancestor ∈ ancestors.splitOn ','

variable {tables : Tables} {aliases : Aliases}

/-- A role with an id grants a row to a user. -/
def Grants (user : SysUser) (role : SysRole) (row : QueryRow tables aliases) : Prop :=
  match role.dataScope with
  | .all => True
  | .custom => ∃ id, row.deptId = some id ∧ (role.roleId, id) ∈ tables.sysRoleDept
  | .dept => ∃ id, row.deptId = some id ∧ user.deptId = some id
  | .deptAndChild => ∃ id own, row.deptId = some id ∧ user.deptId = some own ∧
      (id = own ∨ tables.Descends own id)
  | .self => row.userId = some user.userId

/-- A row is granted to a user by one of the roles that count. -/
def Granted (user : SysUser) (permission : Option Str) (row : QueryRow tables aliases) : Prop :=
  ∃ role ∈ user.roles, Qualifies permission role ∧ Grants user role row

end Granted

end PlatformSpec.RuoYi
