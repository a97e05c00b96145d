import PlatformSpec.RuoYi.DataScope

/-!
# The text of a data scope filter

The text for a role is read as one condition, and the texts of several roles as their disjunction.
-/

namespace PlatformSpec.RuoYi

open Base Sql

section Pieces

variable {a b : Str}

theorem lex_space : lex (a ++ ' ' :: b) = lex a ++ lex b := lex_append (by decide)

theorem lex_comma : lex (a ++ ',' :: b) = lex a ++ .sym ',' :: lex b := lex_append (by decide)

theorem lex_open : lex (a ++ '(' :: b) = lex a ++ .sym '(' :: lex b := lex_append (by decide)

theorem lex_close : lex (a ++ ')' :: b) = lex a ++ .sym ')' :: lex b := lex_append (by decide)

theorem lex_column {table : Str} (h : IsName table) :
    lex (table ++ '.' :: b) = .name table :: .sym '.' :: lex b := by
  rw [lex_append (by decide), lex_word h.2.1 h.1, h.2.2]
  rfl

/-- A number or `NULL`. -/
def operandOf (n : Option Int) : Operand := (n.map Operand.int).getD .null

theorem lex_number (n : Option Int) : lex (appended (number n)) = (operandOf n).print := by
  cases n with
  | none => decide
  | some n => exact lex_decimal n

theorem lex_joinComma (id : Int) (ids : List Int) :
    lex (joinComma ((id :: ids).map decimal)) =
      (Operand.int id).print ++ (ids.map Operand.int).flatMap fun b => .sym ',' :: b.print := by
  induction ids generalizing id with
  | nil => exact lex_decimal id
  | cons next ids ih =>
    show lex (decimal id ++ ',' :: joinComma ((next :: ids).map decimal)) = _
    rw [lex_comma, ih, lex_decimal]
    rfl

end Pieces

section Clause

variable {user : SysUser} {aliases : Aliases} {ids : List Int} {role : SysRole}

/-- The department of the row. -/
def deptColumn (aliases : Aliases) : Operand :=
  .column (some aliases.deptAlias) "dept_id".toList

/-- The roles whose departments are looked up. -/
def rolesClause (ids : List Int) (role : SysRole) : Condition :=
  match ids with
  | id :: next :: ids =>
    .inList (.column none "role_id".toList) (.int id) ((next :: ids).map Operand.int)
  | _ => .eq (.column none "role_id".toList) (.int role.roleId)

/-- The condition that the text for a role is read as. -/
def clause (user : SysUser) (aliases : Aliases) (ids : List Int) (role : SysRole) : Condition :=
  match role.dataScope with
  | .all => .eq .null .null
  | .custom =>
    .inSelect (deptColumn aliases) "dept_id".toList "sys_role_dept".toList
      (rolesClause ids role)
  | .dept => .eq (deptColumn aliases) (operandOf user.deptId)
  | .deptAndChild =>
    .inSelect (deptColumn aliases) "dept_id".toList "sys_dept".toList
      (.or (.eq (.column none "dept_id".toList) (operandOf user.deptId))
        (.findInSet (operandOf user.deptId) (.column none "ancestors".toList)))
  | .self =>
    if isNotBlank aliases.userAlias then
      .eq (.column (some aliases.userAlias) "user_id".toList) (.int user.userId)
    else .eq (deptColumn aliases) (.int 0)

theorem isOr_clause : (clause user aliases ids role).isOr = false := by
  unfold clause
  split
  all_goals try rfl
  split
  all_goals rfl

variable {pattern p q r : Str}

theorem format_two {x y : Option Str}
    (h : pattern = p ++ (placeholder ++ (q ++ (placeholder ++ r))))
    (hp : '\x7b' ∉ p ∧ '\\' ∉ p) (hq : '\x7b' ∉ q ∧ '\\' ∉ q)
    (hempty : isEmpty (some pattern) = false) :
    format pattern [x, y] = p ++ (appended x ++ (q ++ (appended y ++ r))) := by
  rw [format, hempty, h]
  show formatFrom _ _ = _
  rw [formatFrom_placeholder hp.1 hp.2, formatFrom_placeholder hq.1 hq.2, formatFrom]

theorem format_three {t : Str} {x y z : Option Str}
    (h : pattern = p ++ (placeholder ++ (q ++ (placeholder ++ (r ++ (placeholder ++ t))))))
    (hp : '\x7b' ∉ p ∧ '\\' ∉ p) (hq : '\x7b' ∉ q ∧ '\\' ∉ q) (hr : '\x7b' ∉ r ∧ '\\' ∉ r)
    (hempty : isEmpty (some pattern) = false) : format pattern [x, y, z] =
      p ++ (appended x ++ (q ++ (appended y ++ (r ++ (appended z ++ t))))) := by
  rw [format, hempty, h]
  show formatFrom _ _ = _
  rw [formatFrom_placeholder hp.1 hp.2, formatFrom_placeholder hq.1 hq.2,
    formatFrom_placeholder hr.1 hr.2, formatFrom]

theorem format_one {x : Option Str} (h : pattern = p ++ (placeholder ++ q))
    (hp : '\x7b' ∉ p ∧ '\\' ∉ p) (hempty : isEmpty (some pattern) = false) :
    format pattern [x] = p ++ (appended x ++ q) := by
  rw [format, hempty, h]
  show formatFrom _ _ = _
  rw [formatFrom_placeholder hp.1 hp.2, formatFrom]

/-- A text is read as an alternative. -/
def ReadAs (s : Str) (c : Condition) : Prop :=
  ∃ body, s = " OR ".toList ++ body ∧ lex body = c.print

theorem readAs_none (aliases : Aliases) :
    ReadAs (format " OR \x7b\x7d.dept_id = 0 ".toList [some aliases.deptAlias])
      (.eq (deptColumn aliases) (.int 0)) := by
  refine ⟨aliases.deptAlias ++ '.' :: "dept_id = 0 ".toList, format_one rfl (by decide) (by decide),
    ?_⟩
  have hlex : lex "dept_id = 0 ".toList = [.name "dept_id".toList, .sym '=', .int 0] := by decide
  rw [lex_column aliases.dept, hlex]
  rfl

private theorem lex_inSelect {table b : Str} {c : Condition}
    (hselect : lex ("dept_id IN ( SELECT dept_id FROM ".toList ++ table) =
      [.name "dept_id".toList, .in, .sym '(', .select, .name "dept_id".toList, .from, .name table])
    (hbody : lex b = .where :: c.print) (rest : Str) (hrest : lex rest = [.sym ')']) :
    lex (aliases.deptAlias ++ '.' :: ("dept_id IN ( SELECT dept_id FROM ".toList ++ table ++
      ' ' :: (b ++ ' ' :: rest))) =
        (Condition.inSelect (deptColumn aliases) "dept_id".toList table c).print := by
  rw [lex_column aliases.dept, lex_space, lex_space, hselect, hbody, hrest]
  simp [Condition.print, deptColumn, Operand.print, parens]

private theorem readAs_custom (h : role.dataScope = .custom) :
    ReadAs (condition user aliases (ids.map decimal) role) (clause user aliases ids role) := by
  have hselect : lex ("dept_id IN ( SELECT dept_id FROM ".toList ++ "sys_role_dept".toList) =
      [.name "dept_id".toList, .in, .sym '(', .select, .name "dept_id".toList, .from,
        .name "sys_role_dept".toList] := by decide
  simp only [condition, clause, h, List.length_map]
  split
  next hlength =>
    obtain ⟨id, next, ids, rfl⟩ : ∃ id next rest, ids = id :: next :: rest := by
      rcases ids with _ | ⟨id, _ | ⟨next, rest⟩⟩
      · cases hlength
      · cases hlength with | step h => cases h
      · exact ⟨id, next, rest, rfl⟩
    refine ⟨_, ?_, lex_inSelect hselect (b := "WHERE role_id in (".toList ++
      (joinComma ((id :: next :: ids).map decimal) ++ ')' :: [])) ?_ ") ".toList (by decide)⟩
    · refine (format_two (p := " OR ".toList)
        (q := ".dept_id IN ( SELECT dept_id FROM sys_role_dept WHERE role_id in (".toList)
        (r := ") ) ".toList) (by decide +kernel) (by decide) (by decide) (by decide)).trans ?_
      simp [appended]
    · have hlex : lex "WHERE role_id in ".toList =
          [.where, .name "role_id".toList, .in] := by decide
      have htext : "WHERE role_id in (".toList = "WHERE role_id in ".toList ++ ['('] := by decide
      rw [htext, List.append_assoc, List.singleton_append, lex_open, hlex, lex_close,
        lex_joinComma]
      simp [rolesClause, Condition.print, Operand.print, parens, lex, lexFrom, flush]
  next hlength =>
    have hclause : rolesClause ids role =
        .eq (.column none "role_id".toList) (.int role.roleId) := by
      rcases ids with _ | ⟨_, _ | ⟨_, _⟩⟩
      · rfl
      · rfl
      · exact absurd (by simp) hlength
    refine ⟨_, ?_, lex_inSelect hselect (b := "WHERE role_id =".toList ++
      ' ' :: decimal role.roleId) ?_ ") ".toList (by decide)⟩
    · refine (format_two (p := " OR ".toList)
        (q := ".dept_id IN ( SELECT dept_id FROM sys_role_dept WHERE role_id = ".toList)
        (r := " ) ".toList) (by decide +kernel) (by decide) (by decide) (by decide)).trans ?_
      simp [appended]
    · have hlex : lex "WHERE role_id =".toList =
          [.where, .name "role_id".toList, .sym '='] := by decide
      rw [lex_space, hlex, lex_decimal, hclause]
      rfl

private theorem readAs_dept (h : role.dataScope = .dept) :
    ReadAs (condition user aliases (ids.map decimal) role) (clause user aliases ids role) := by
  have hlex : lex "dept_id =".toList = [.name "dept_id".toList, .sym '='] := by decide
  simp only [condition, clause, h]
  refine ⟨aliases.deptAlias ++ '.' :: ("dept_id =".toList ++ ' ' ::
    (appended (number user.deptId) ++ ' ' :: [])), ?_, ?_⟩
  · refine (format_two (p := " OR ".toList) (q := ".dept_id = ".toList) (r := " ".toList)
      (by decide +kernel) (by decide) (by decide) (by decide)).trans ?_
    simp [appended]
  · rw [lex_column aliases.dept, lex_space, lex_space, hlex, lex_number]
    simp [Condition.print, deptColumn, Operand.print, lex, lexFrom, flush]

private theorem readAs_deptAndChild (h : role.dataScope = .deptAndChild) :
    ReadAs (condition user aliases (ids.map decimal) role) (clause user aliases ids role) := by
  have hselect : lex ("dept_id IN ( SELECT dept_id FROM ".toList ++ "sys_dept".toList) =
      [.name "dept_id".toList, .in, .sym '(', .select, .name "dept_id".toList, .from,
        .name "sys_dept".toList] := by decide
  simp only [condition, clause, h]
  refine ⟨_, ?_, lex_inSelect hselect (b := "WHERE dept_id =".toList ++
    ' ' :: (appended (number user.deptId) ++ ' ' :: ("or find_in_set(".toList ++
      ' ' :: (appended (number user.deptId) ++ ' ' :: ", ancestors )".toList)))) ?_ ")".toList
    (by decide)⟩
  · refine (format_three (p := " OR ".toList)
      (q := ".dept_id IN ( SELECT dept_id FROM sys_dept WHERE dept_id = ".toList)
      (r := " or find_in_set( ".toList) (t := " , ancestors ) )".toList)
      (by decide +kernel) (by decide) (by decide) (by decide) (by decide)).trans ?_
    simp [appended]
  · have hwhere : lex "WHERE dept_id =".toList = [.where, .name "dept_id".toList, .sym '='] := by
      decide
    have hset : lex "or find_in_set(".toList = [.or, .findInSet, .sym '('] := by decide
    have hend : lex ", ancestors )".toList = [.sym ',', .name "ancestors".toList, .sym ')'] := by
      decide
    rw [lex_space, lex_space, lex_space, lex_space, hwhere, hset, hend, lex_number]
    simp [Condition.print, Condition.isOr, Operand.print, parens]

private theorem readAs_self (h : role.dataScope = .self) :
    ReadAs (condition user aliases (ids.map decimal) role) (clause user aliases ids role) := by
  simp only [condition, clause, h]
  split
  next hblank =>
    have hlex : lex "user_id =".toList = [.name "user_id".toList, .sym '='] := by decide
    refine ⟨aliases.userAlias ++ '.' :: ("user_id =".toList ++ ' ' ::
      (decimal user.userId ++ ' ' :: [])), ?_, ?_⟩
    · refine (format_two (p := " OR ".toList) (q := ".user_id = ".toList) (r := " ".toList)
      (by decide +kernel)
        (by decide) (by decide) (by decide)).trans ?_
      simp [appended]
    · rw [lex_column (aliases.user hblank), lex_space, lex_space, hlex, lex_decimal]
      rfl
  next => exact readAs_none aliases

theorem readAs_condition (h : role.dataScope ≠ .all) :
    ReadAs (condition user aliases (ids.map decimal) role) (clause user aliases ids role) := by
  cases hscope : role.dataScope with
  | all => exact absurd hscope h
  | custom => exact readAs_custom hscope
  | dept => exact readAs_dept hscope
  | deptAndChild => exact readAs_deptAndChild hscope
  | self => exact readAs_self hscope

end Clause

section Filter

variable {cs : List Condition}

theorem lex_texts {texts : List Str} (h : List.Forall₂ ReadAs texts cs)
    (body : Str) : lex (body ++ (texts.flatten ++ ")".toList)) =
      lex body ++ (cs.flatMap (fun c => .or :: c.print) ++ [.sym ')']) := by
  induction h generalizing body with
  | nil => exact lex_close
  | cons h _ ih =>
    obtain ⟨next, rfl, hnext⟩ := h
    have hor (s : Str) : lex (body ++ (" OR ".toList ++ s)) = lex body ++ .or :: lex s := by
      show lex (body ++ ' ' :: ("OR".toList ++ ' ' :: s)) = _
      rw [lex_space, lex_space]
      rfl
    rw [List.flatten_cons, List.flatMap_cons, List.append_assoc, List.append_assoc, hor, ih, hnext]
    simp

/-- The texts of several conditions, without the first `OR`, in parentheses after `AND`. -/
theorem lex_filter {s : Str} {c : Condition} {texts : List Str}
    (hfirst : ReadAs s c) (hrest : List.Forall₂ ReadAs texts cs) :
    lex (" AND (".toList ++ ((s ++ texts.flatten).drop 4 ++ ")".toList)) =
      .and :: parens (c.print ++ cs.flatMap fun c => .or :: c.print) := by
  obtain ⟨body, rfl, hbody⟩ := hfirst
  have hdrop : ((" OR ".toList ++ body) ++ texts.flatten).drop 4 = body ++ texts.flatten := rfl
  have hopen (s : Str) : lex (" AND (".toList ++ s) = .and :: .sym '(' :: lex s := by
    show lex (" AND ".toList ++ '(' :: s) = _
    rw [lex_open]
    rfl
  rw [hopen, hdrop, List.append_assoc, lex_texts hrest, hbody, parens, List.append_assoc]

end Filter

end PlatformSpec.RuoYi
