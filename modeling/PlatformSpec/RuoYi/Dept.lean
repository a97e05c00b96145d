import Mathlib.Algebra.Group.Int.Defs
import Mathlib.Data.List.Nodup
import PlatformSpec.RuoYi.StringUtils

/-!
# Departments

Models the department requests: `SysDeptController.addSave`, `editSave` and `remove` with
`SysDeptServiceImpl` and the statements of `SysDeptMapper.xml`. A request that is answered with an
error, or fails with an exception, is not accepted and has no result here.
-/

namespace PlatformSpec.RuoYi

open Base Split

/-- A value of a `bigint` column. -/
def IsLong (n : Int) : Prop := -2 ^ 63 ≤ n ∧ n < 2 ^ 63

instance (n : Int) : Decidable (IsLong n) := inferInstanceAs (Decidable (_ ∧ _))

/-- A text of digits, commas and signs. -/
def IsPlain (s : Str) : Prop := ∀ c ∈ s, c.isDigit = true ∨ c = ',' ∨ c = '-'

/-- What is taken from the Java library: `s.replaceFirst(regex, replacement)`, which may throw, and
`new BigDecimal(s).longValue()`. -/
structure Jdk where
  replaceFirst : Str → Str → Str → Option Str
  toLong : Str → Option Int
  replaceFirst_plain : ∀ regex replacement s, IsPlain regex → IsPlain replacement →
    replaceFirst regex replacement s = some (match cut regex s with
      | none => s
      | some (before, after) => before ++ (replacement ++ after))
  toLong_decimal : ∀ n, IsLong n → toLong (decimal n) = some n

/-- A row of `sys_dept`; it is live while its `del_flag` is `0`. -/
structure SysDept where
  deptId : Int
  parentId : Int
  ancestors : Str
  deptName : Str
  status : Str
  live : Bool
  deriving DecidableEq

/-- `UserConstants.DEPT_NORMAL`. -/
def deptNormal : Str := "0".toList

/-- `UserConstants.DEPT_DISABLE`. -/
def deptDisable : Str := "1".toList

/-- The table `sys_dept`. -/
structure DeptTable where
  rows : List SysDept
  nodup : (rows.map SysDept.deptId).Nodup
  ids : ∀ d ∈ rows, d.deptId ≠ 0 ∧ IsLong d.deptId

namespace DeptTable

variable (t : DeptTable)

/-- `selectDeptById`: the row with an id, deleted or not. -/
def get (deptId : Int) : Option SysDept := t.rows.find? fun d => decide (d.deptId = deptId)

/-- `update sys_dept set ...`, with the id kept. -/
def modify (f : SysDept → SysDept) (hf : ∀ d, (f d).deptId = d.deptId) : DeptTable where
  rows := t.rows.map f
  nodup := by
    rw [List.map_map]
    exact (List.map_congr_left fun d _ => hf d).symm ▸ t.nodup
  ids := by
    intro d hd
    obtain ⟨e, he, rfl⟩ := List.mem_map.mp hd
    rw [hf]
    exact t.ids e he

/-- `insert into sys_dept`, with an id that is not there. -/
def insert (d : SysDept) (h : d.deptId ≠ 0 ∧ IsLong d.deptId ∧ t.get d.deptId = none) :
    DeptTable where
  rows := t.rows ++ [d]
  nodup := by
    rw [List.map_append, List.map_singleton, ← List.concat_eq_append]
    refine t.nodup.concat fun hmem => ?_
    obtain ⟨e, he, hid⟩ := List.mem_map.mp hmem
    exact absurd (decide_eq_true hid) (List.find?_eq_none.mp h.2.2 e he)
  ids := by
    intro e he
    rcases List.mem_append.mp he with he | he
    · exact t.ids e he
    · rw [List.mem_singleton.mp he]
      exact ⟨h.1, h.2.1⟩

/-- `checkDeptNameUnique` of the mapper. -/
def checkDeptNameUnique (deptName : Str) (parentId : Int) : Option SysDept :=
  t.rows.find? fun d =>
    decide (d.deptName = deptName) && decide (d.parentId = parentId) && d.live

/-- `find_in_set(deptId, ancestors)`. -/
def findInSet (deptId : Int) (ancestors : Str) : Bool :=
  (ancestors.splitOn ',').contains (decimal deptId)

/-- `status = 0`: a `char(1)` that does not begin with another digit is the number zero. -/
def isZero : Str → Bool
  | c :: _ => !(decide ('1' ≤ c) && decide (c ≤ '9'))
  | [] => true

/-- `selectNormalChildrenDeptById`. -/
def selectNormalChildrenDeptById (deptId : Int) : Nat :=
  t.rows.countP fun d => isZero d.status && d.live && findInSet deptId d.ancestors

/-- `selectDeptCount` of the service. -/
def selectDeptCount (parentId : Int) : Nat :=
  t.rows.countP fun d => d.live && (decide (parentId = 0) || decide (d.parentId = parentId))

end DeptTable

/-- A request to add a department, with the id that the column generates. -/
structure AddRequest where
  deptId : Option Int
  generated : Int
  parentId : Option Int
  deptName : Str
  status : Option Str

/-- A request to edit a department, with the outcome of `checkDeptDataScope`. -/
structure EditRequest where
  deptId : Int
  parentId : Option Int
  ancestors : Option Str
  deptName : Str
  status : Option Str
  permitted : Bool

/-- A request to remove a department, with the outcomes of `checkDeptExistUser` and
`checkDeptDataScope`. -/
structure RemoveRequest where
  deptId : Int
  existUser : Bool
  permitted : Bool

/-- `checkDeptNameUnique` of the service. -/
def checkDeptNameUnique (t : DeptTable) (deptId : Option Int) (deptName : Str) (parentId : Int) :
    Bool :=
  match t.checkDeptNameUnique deptName parentId with
  | none => true
  | some info => decide (info.deptId = deptId.getD (-1))

/-- The id of a department that is inserted: the one of the request, unless it is `0`. -/
def addedId (dept : AddRequest) : Int :=
  if dept.deptId.getD 0 ≠ 0 then dept.deptId.getD 0 else dept.generated

/-- `addSave` and `insertDept`. -/
def addSave (t : DeptTable) (dept : AddRequest) : Option DeptTable :=
  match dept.parentId with
  | none => none
  | some parentId =>
    if !checkDeptNameUnique t dept.deptId dept.deptName parentId then none
    else
      match t.get parentId with
      | none => none
      | some info =>
        if info.status ≠ deptNormal then none
        else
          if h : addedId dept ≠ 0 ∧ IsLong (addedId dept) ∧ t.get (addedId dept) = none then
            some (t.insert
              { deptId := addedId dept
                parentId := parentId
                ancestors := info.ancestors ++ ',' :: decimal parentId
                deptName := dept.deptName
                status := dept.status.getD deptNormal
                live := true } h)
          else none

/-- `updateDeptChildren`: the ancestors of every row below a department are rewritten. -/
def updateDeptChildren (jdk : Jdk) (t : DeptTable) (deptId : Int)
    (newAncestors oldAncestors : Str) : Option DeptTable :=
  if t.rows.all fun d => !DeptTable.findInSet deptId d.ancestors ||
      (jdk.replaceFirst oldAncestors newAncestors d.ancestors).isSome then
    some (t.modify
      (fun d =>
        if DeptTable.findInSet deptId d.ancestors then
          { d with
            ancestors :=
              (jdk.replaceFirst oldAncestors newAncestors d.ancestors).getD d.ancestors }
        else d)
      fun d => by split <;> rfl)
  else none

/-- A field of a request that is stored when it is not empty. -/
def stored (value : Option Str) (old : Str) : Str :=
  match value with
  | none => old
  | some value => if value = [] then old else value

/-- `updateDept` of the mapper. -/
def storeDept (t : DeptTable) (dept : EditRequest) : DeptTable :=
  t.modify
    (fun d =>
      if d.deptId = dept.deptId then
        { d with
          parentId := if dept.parentId.getD 0 ≠ 0 then dept.parentId.getD 0 else d.parentId
          ancestors := stored dept.ancestors d.ancestors
          deptName := stored (some dept.deptName) d.deptName
          status := stored dept.status d.status }
      else d)
    fun d => by split <;> rfl

/-- `Convert.toLongArray`. -/
def toLongArray (jdk : Jdk) (str : Str) : List (Option Int) :=
  if isEmpty (some str) then []
  else (splitComma str).map fun s => if isEmpty (some s) then none else jdk.toLong (trim s)

/-- The ids that `updateParentDeptStatusNormal` is given, if it is called. -/
def parentDeptIds (jdk : Jdk) (dept : EditRequest) : Option (List (Option Int)) :=
  if dept.status = some deptNormal ∧ isEmpty dept.ancestors = false ∧
      dept.ancestors ≠ some "0".toList then
    some (toLongArray jdk (dept.ancestors.getD []))
  else none

/-- `updateDeptStatusNormal`. -/
def updateDeptStatusNormal (t : DeptTable) (deptIds : List (Option Int)) : DeptTable :=
  t.modify (fun d => if some d.deptId ∈ deptIds then { d with status := deptNormal } else d)
    fun d => by split <;> rfl

/-- `updateDept` after the ancestors of the request are set: the statement `in ()` fails. -/
def finishUpdate (jdk : Jdk) (t : DeptTable) (dept : EditRequest) : Option DeptTable :=
  match parentDeptIds jdk dept with
  | none => some (storeDept t dept)
  | some [] => none
  | some deptIds => some (updateDeptStatusNormal (storeDept t dept) deptIds)

/-- The request with the ancestors that `updateDept` sets. -/
def placed (t : DeptTable) (dept : EditRequest) : EditRequest :=
  match t.get (dept.parentId.getD 0) with
  | none => dept
  | some newParentDept =>
    { dept with
      ancestors := some (newParentDept.ancestors ++ ',' :: decimal newParentDept.deptId) }

/-- `updateDept` of the service, for a department that is there. -/
def updateDept (jdk : Jdk) (t : DeptTable) (dept : EditRequest) (oldDept : SysDept) :
    Option DeptTable :=
  match t.get (dept.parentId.getD 0) with
  | none => finishUpdate jdk t dept
  | some _ =>
    let dept := placed t dept
    (updateDeptChildren jdk t dept.deptId (dept.ancestors.getD []) oldDept.ancestors).bind
      fun t => finishUpdate jdk t dept

/-- `editSave`. -/
def editSave (jdk : Jdk) (t : DeptTable) (dept : EditRequest) : Option DeptTable :=
  match dept.parentId with
  | none => none
  | some parentId =>
    if !dept.permitted then none
    else if !checkDeptNameUnique t (some dept.deptId) dept.deptName parentId then none
    else if parentId = dept.deptId then none
    else if dept.status = some deptDisable ∧
        0 < t.selectNormalChildrenDeptById dept.deptId then none
    else (t.get dept.deptId).bind (updateDept jdk t dept)

/-- `remove`. -/
def remove (t : DeptTable) (dept : RemoveRequest) : Option DeptTable :=
  if 0 < t.selectDeptCount dept.deptId then none
  else if dept.existUser then none
  else if !dept.permitted then none
  else
    (t.get dept.deptId).map fun _ =>
      t.modify (fun d => if d.deptId = dept.deptId then { d with live := false } else d)
        fun d => by split <;> rfl

/-- A request about departments. -/
inductive DeptRequest where
  | add (dept : AddRequest)
  | edit (dept : EditRequest)
  | remove (dept : RemoveRequest)

/-- An accepted request. -/
def deptStep (jdk : Jdk) (t : DeptTable) : DeptRequest → Option DeptTable
  | .add dept => addSave t dept
  | .edit dept => editSave jdk t dept
  | .remove dept => remove t dept

/-! ### What an edit makes of every row -/

open DeptTable

/-- The ids that an edit enables. -/
def enabledIds (jdk : Jdk) (t : DeptTable) (dept : EditRequest) : List (Option Int) :=
  (parentDeptIds jdk (placed t dept)).getD []

/-- The parent that a row is stored with. -/
def newParentId (dept : EditRequest) (d : SysDept) : Int :=
  if dept.parentId.getD 0 ≠ 0 then dept.parentId.getD 0 else d.parentId

/-- The ancestors of a row after those of the rows below are rewritten. -/
def rewritten (jdk : Jdk) (t : DeptTable) (dept : EditRequest) (old d : SysDept) : Str :=
  if (t.get (dept.parentId.getD 0)).isSome && findInSet dept.deptId d.ancestors then
    (jdk.replaceFirst old.ancestors ((placed t dept).ancestors.getD []) d.ancestors).getD
      d.ancestors
  else d.ancestors

/-- What an edit makes of a row. -/
def edited (jdk : Jdk) (t : DeptTable) (dept : EditRequest) (old d : SysDept) : SysDept where
  deptId := d.deptId
  parentId := if d.deptId = dept.deptId then newParentId dept d else d.parentId
  ancestors :=
    if d.deptId = dept.deptId then stored (placed t dept).ancestors (rewritten jdk t dept old d)
    else rewritten jdk t dept old d
  deptName := if d.deptId = dept.deptId then stored (some dept.deptName) d.deptName else d.deptName
  status :=
    if some d.deptId ∈ enabledIds jdk t dept then deptNormal
    else if d.deptId = dept.deptId then stored dept.status d.status
    else d.status
  live := d.live

end PlatformSpec.RuoYi
