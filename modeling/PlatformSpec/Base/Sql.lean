import PlatformSpec.Base.Decimal
import PlatformSpec.Base.Text

/-!
# Conditions of SQL

A condition as text: its tokens, the expression they spell, and what it says of a row. The fragment
has comparisons, lists, subqueries on one table, `FIND_IN_SET` and `OR`. It has no negation, so
a comparison with `NULL` is taken as false.
-/

namespace PlatformSpec.Base.Sql

/-- A token. -/
inductive Token where
  | and
  | or
  | in
  | select
  | from
  | where
  | null
  | findInSet
  | int (n : Int)
  | name (w : List Char)
  | sym (c : Char)
  deriving DecidableEq

/-- A character of a word. -/
def isWordChar (c : Char) : Bool := c.isAlphanum || c == '_' || c == '-'

/-- The token of a word; key words are written in either case. -/
def classify (w : List Char) : Token :=
  match readInt w with
  | some n => .int n
  | none =>
    let key := w.map Char.toLower
    if key = "and".toList then .and
    else if key = "or".toList then .or
    else if key = "in".toList then .in
    else if key = "select".toList then .select
    else if key = "from".toList then .from
    else if key = "where".toList then .where
    else if key = "null".toList then .null
    else if key = "find_in_set".toList then .findInSet
    else .name w

/-- The token of the characters read so far. -/
def flush (w : List Char) : List Token := if w = [] then [] else [classify w]

/-- The token of a character between words. -/
def separator (c : Char) : List Token := if isSpace c then [] else [.sym c]

/-- The tokens of a text after some characters of a word. -/
def lexFrom : List Char → List Char → List Token
  | w, [] => flush w
  | w, c :: s =>
    if isWordChar c then lexFrom (w ++ [c]) s else flush w ++ (separator c ++ lexFrom [] s)

/-- The tokens of a text. -/
def lex (s : List Char) : List Token := lexFrom [] s

section Lex

variable {c : Char} {w a b : List Char}

theorem lexFrom_append (hc : isWordChar c = false) :
    lexFrom w (a ++ c :: b) = lexFrom w a ++ (separator c ++ lex b) := by
  induction a generalizing w with
  | nil => simp [lexFrom, hc, lex]
  | cons d a ih =>
    rw [List.cons_append, lexFrom, lexFrom, ih, ih]
    split
    next => rfl
    next => simp

/-- A text is read up to a separator and after it. -/
theorem lex_append (hc : isWordChar c = false) :
    lex (a ++ c :: b) = lex a ++ (separator c ++ lex b) := lexFrom_append hc

private theorem lexFrom_word (hw : ∀ d ∈ a, isWordChar d = true) :
    lexFrom w a = flush (w ++ a) := by
  induction a generalizing w with
  | nil => rw [lexFrom, List.append_nil]
  | cons d a ih =>
    rw [lexFrom, if_pos (hw d List.mem_cons_self), ih fun e he => hw e (List.mem_cons_of_mem _ he),
      List.append_assoc, List.singleton_append]

/-- A word is one token. -/
theorem lex_word (hw : ∀ d ∈ w, isWordChar d = true) (hne : w ≠ []) : lex w = [classify w] := by
  rw [lex, lexFrom_word hw, List.nil_append, flush, if_neg hne]

theorem lex_decimal (n : Int) : lex (decimal n) = [.int n] := by
  have hword : ∀ d ∈ decimal n, isWordChar d = true := by
    intro d hd
    rcases mem_decimal hd with rfl | hdigit
    · decide
    · simp [isWordChar, Char.isAlphanum, hdigit]
  rw [lex_word hword (decimal_ne_nil n), classify, readInt_decimal]

end Lex

/-- What is compared. -/
inductive Operand where
  | column (table : Option (List Char)) (name : List Char)
  | int (n : Int)
  | null
  deriving DecidableEq

/-- A condition. -/
inductive Condition where
  | eq (a b : Operand)
  | inList (a item : Operand) (items : List Operand)
  | inSelect (a : Operand) (column table : List Char) (condition : Condition)
  | findInSet (a b : Operand)
  | or (a b : Condition)

/-- The operand at the front of some tokens. -/
def readOperand : List Token → Option (Operand × List Token)
  | .name table :: .sym '.' :: .name column :: ts => some (.column (some table) column, ts)
  | .name column :: ts => some (.column none column, ts)
  | .int n :: ts => some (.int n, ts)
  | .null :: ts => some (.null, ts)
  | _ => none

/-- A symbol at the front of some tokens is passed. -/
def pass (c : Char) : List Token → Option (List Token)
  | .sym d :: ts => if d = c then some ts else none
  | _ => none

/-- The operands up to a closing parenthesis. -/
def readOperands : Nat → List Token → Option (Operand × List Operand × List Token)
  | 0, _ => none
  | fuel + 1, ts => do
    let (a, ts) ← readOperand ts
    match ts with
    | .sym ',' :: ts =>
      let (b, bs, ts) ← readOperands fuel ts
      return (a, b :: bs, ts)
    | _ => return (a, [], ← pass ')' ts)

/-- A condition without `OR` outside parentheses, with a reader for the conditions inside. -/
def readAtom (inner : List Token → Option (Condition × List Token)) (ts : List Token) :
    Option (Condition × List Token) :=
  match ts with
  | .findInSet :: ts => do
    let (a, ts) ← readOperand (← pass '(' ts)
    let (b, ts) ← readOperand (← pass ',' ts)
    return (.findInSet a b, ← pass ')' ts)
  | .sym '(' :: ts => do
    let (condition, ts) ← inner ts
    return (condition, ← pass ')' ts)
  | ts => do
    let (a, ts) ← readOperand ts
    match ts with
    | .in :: .sym '(' :: .select :: .name column :: .from :: .name table :: .where :: ts =>
      let (condition, ts) ← inner ts
      return (.inSelect a column table condition, ← pass ')' ts)
    | .in :: .sym '(' :: ts =>
      let (b, bs, ts) ← readOperands ts.length ts
      return (.inList a b bs, ts)
    | _ =>
      let (b, ts) ← readOperand (← pass '=' ts)
      return (.eq a b, ts)

/-- The condition at the front of some tokens. -/
def readCondition : Nat → List Token → Option (Condition × List Token)
  | 0, _ => none
  | fuel + 1, ts => do
    let (a, ts) ← readAtom (readCondition fuel) ts
    match ts with
    | .or :: ts =>
      let (b, ts) ← readCondition fuel ts
      return (.or a b, ts)
    | _ => return (a, ts)

/-- What a text adds to the conditions before it: nothing, or one condition after `AND`. -/
def readFilter (s : List Char) : Option (Option Condition) :=
  match lex s with
  | [] => some none
  | .and :: ts =>
    match readAtom (readCondition ts.length) ts with
    | some (condition, []) => some (some condition)
    | _ => none
  | _ => none

section Print

/-- The tokens of an operand. -/
def Operand.print : Operand → List Token
  | .column (some table) name => [.name table, .sym '.', .name name]
  | .column none name => [.name name]
  | .int n => [.int n]
  | .null => [.null]

/-- Tokens in parentheses. -/
def parens (ts : List Token) : List Token := .sym '(' :: (ts ++ [.sym ')'])

/-- The condition is a disjunction. -/
def Condition.isOr : Condition → Bool
  | .or _ _ => true
  | _ => false

/-- The tokens of a condition. -/
def Condition.print : Condition → List Token
  | .eq a b => a.print ++ .sym '=' :: b.print
  | .inList a b bs =>
    a.print ++ .in :: parens (b.print ++ bs.flatMap fun b => .sym ',' :: b.print)
  | .inSelect a column table condition =>
    a.print ++ .in :: parens
      (.select :: .name column :: .from :: .name table :: .where :: condition.print)
  | .findInSet a b => .findInSet :: parens (a.print ++ .sym ',' :: b.print)
  | .or a b => (if a.isOr then parens a.print else a.print) ++ .or :: b.print

/-- How deep a condition nests. -/
def Condition.depth : Condition → Nat
  | .inSelect _ _ _ condition => condition.depth + 1
  | .or a b => max a.depth b.depth + 1
  | _ => 1

/-- Tokens that do not go on with an operand. -/
def Ends (ts : List Token) : Prop := ∀ more, ts ≠ .sym '.' :: more

theorem readOperand_print (a : Operand) (rest : List Token) (h : Ends rest) :
    readOperand (a.print ++ rest) = some (a, rest) := by
  cases a with
  | int n => rfl
  | null => rfl
  | column table name =>
    cases table with
    | some table => rfl
    | none =>
      show readOperand (.name name :: rest) = _
      unfold readOperand
      split
      next heq =>
        obtain ⟨-, htail⟩ := List.cons.inj heq
        exact absurd htail (h _)
      next heq =>
        cases heq
        rfl
      all_goals simp_all

variable {fuel : Nat}

theorem readOperands_print (b : Operand) (bs : List Operand) (rest : List Token)
    (h : bs.length < fuel) :
    readOperands fuel (b.print ++ bs.flatMap (fun b => .sym ',' :: b.print) ++ .sym ')' :: rest) =
      some (b, bs, rest) := by
  induction bs generalizing b fuel with
  | nil =>
    obtain ⟨fuel, rfl⟩ := Nat.exists_eq_succ_of_ne_zero (Nat.ne_of_gt h)
    have hread := readOperand_print b (.sym ')' :: rest) (by simp [Ends])
    simp [readOperands, hread, pass]
  | cons c bs ih =>
    obtain ⟨fuel, rfl⟩ := Nat.exists_eq_succ_of_ne_zero (Nat.ne_of_gt (Nat.zero_lt_of_lt h))
    have htail := ih c (Nat.lt_of_succ_lt_succ h)
    have hread := readOperand_print b (.sym ',' :: (c.print ++
      bs.flatMap (fun b => .sym ',' :: b.print) ++ .sym ')' :: rest)) (by simp [Ends])
    rw [readOperands]
    simp only [List.flatMap_cons, List.append_assoc, List.cons_append] at hread htail ⊢
    rw [hread]
    simp only [Option.bind_eq_bind, Option.bind_some, htail]
    rfl

variable {inner : List Token → Option (Condition × List Token)} {rest : List Token}

/-- The tokens end a condition. -/
structure Closes (ts : List Token) : Prop where
  ends : Ends ts
  or : ∀ more, ts ≠ .or :: more

theorem Closes.close (rest : List Token) : Closes (.sym ')' :: rest) := ⟨by simp [Ends], by simp⟩

/-- A reader reads a condition back. -/
def ReadsBack (inner : List Token → Option (Condition × List Token)) (c : Condition) : Prop :=
  ∀ rest, Closes rest → inner (c.print ++ rest) = some (c, rest)

theorem parens_append (ts rest : List Token) :
    parens ts ++ rest = .sym '(' :: (ts ++ .sym ')' :: rest) := by
  simp [parens]

variable {c : Condition}

theorem readAtom_parens (h : ReadsBack inner c) :
    readAtom inner (parens c.print ++ rest) = some (c, rest) := by
  rw [parens_append, readAtom, h _ (Closes.close rest)]
  rfl

theorem readAtom_eq (a b : Operand) (h : Ends rest) :
    readAtom inner ((Condition.eq a b).print ++ rest) = some (.eq a b, rest) := by
  have hfirst := readOperand_print a (.sym '=' :: (b.print ++ rest)) (by simp [Ends])
  have hsecond := readOperand_print b rest h
  rw [Condition.print, List.append_assoc, List.cons_append]
  rcases a with ⟨_ | _, _⟩ | _ | _ <;>
    simp_all [readAtom, Operand.print, pass]

private theorem readAtom_inSelect (a : Operand) (column table : List Char)
    (h : ReadsBack inner c) : readAtom inner ((Condition.inSelect a column table c).print ++ rest) =
      some (.inSelect a column table c, rest) := by
  have hinner := h _ (Closes.close rest)
  rw [Condition.print, List.append_assoc, List.cons_append, parens_append]
  have hfirst := readOperand_print a (.in :: .sym '(' ::
    (.select :: .name column :: .from :: .name table :: .where :: (c.print ++ .sym ')' :: rest)))
    (by simp [Ends])
  rcases a with ⟨_ | _, _⟩ | _ | _ <;>
    simp_all [readAtom, Operand.print, pass]

theorem length_le_flatMap (bs : List Operand) :
    bs.length ≤ (bs.flatMap fun b => .sym ',' :: b.print).length := by
  induction bs with
  | nil => exact Nat.le_refl _
  | cons b bs ih =>
    rw [List.flatMap_cons, List.length_append, List.length_cons, List.length_cons]
    omega

private theorem readAtom_inList (a b : Operand) (bs : List Operand) :
    readAtom inner ((Condition.inList a b bs).print ++ rest) = some (.inList a b bs, rest) := by
  have hlength : bs.length < (b.print ++ bs.flatMap (fun b => .sym ',' :: b.print) ++
      .sym ')' :: rest).length := by
    have hitems := length_le_flatMap bs
    rw [List.length_append, List.length_append, List.length_cons]
    omega
  have hitems := readOperands_print b bs rest hlength
  rw [Condition.print, List.append_assoc, List.cons_append, parens_append]
  have hfirst := readOperand_print a (.in :: .sym '(' ::
    (b.print ++ bs.flatMap (fun b => .sym ',' :: b.print) ++ .sym ')' :: rest))
    (by simp [Ends])
  rcases a with ⟨_ | _, _⟩ | _ | _ <;> rcases b with ⟨_ | _, _⟩ | _ | _ <;>
    simp_all [readAtom, Operand.print]

private theorem readAtom_findInSet (a b : Operand) :
    readAtom inner ((Condition.findInSet a b).print ++ rest) = some (.findInSet a b, rest) := by
  have hfirst := readOperand_print a (.sym ',' :: (b.print ++ .sym ')' :: rest))
    (by simp [Ends])
  have hsecond := readOperand_print b _ (Closes.close rest).ends
  rw [Condition.print, List.cons_append, parens_append, List.append_assoc, List.cons_append]
  simp [readAtom, pass, hfirst, hsecond]

/-- A condition that is not a disjunction is read back from its tokens. -/
private def AtomReadsBack (inner : List Token → Option (Condition × List Token))
    (c : Condition) : Prop :=
  c.isOr = false → ∀ rest, Ends rest → readAtom inner (c.print ++ rest) = some (c, rest)

private theorem readsBack_of_atom (hc : c.isOr = false)
    (h : AtomReadsBack (readCondition fuel) c) : ReadsBack (readCondition (fuel + 1)) c := by
  intro rest hrest
  rw [readCondition, h hc rest hrest.ends]
  cases rest with
  | nil => rfl
  | cons t rest =>
    cases t with
    | or => exact absurd rfl (hrest.or rest)
    | _ => rfl

private theorem readsBack_or {a b : Condition} (ha : ReadsBack (readCondition fuel) a)
    (hatom : AtomReadsBack (readCondition fuel) a) (hb : ReadsBack (readCondition fuel) b) :
    ReadsBack (readCondition (fuel + 1)) (.or a b) := by
  intro rest hrest
  have hfirst : readAtom (readCondition fuel)
      ((if a.isOr then parens a.print else a.print) ++ .or :: (b.print ++ rest)) =
        some (a, .or :: (b.print ++ rest)) := by
    split
    next => exact readAtom_parens ha
    next hor => exact hatom (Bool.eq_false_iff.mpr hor) _ (by simp [Ends])
  rw [Condition.print, List.append_assoc, List.cons_append, readCondition, hfirst]
  simp only [Option.bind_eq_bind, Option.bind_some, hb rest hrest]
  rfl

private theorem readsBack_both (c : Condition) :
    (∀ fuel, c.depth ≤ fuel → ReadsBack (readCondition fuel) c) ∧
      ∀ fuel, c.depth ≤ fuel + 1 → AtomReadsBack (readCondition fuel) c := by
  -- an atom needs one step more than what it encloses
  have hatom {c : Condition} (hc : c.isOr = false) (hpos : 0 < c.depth)
      (h : ∀ fuel, c.depth ≤ fuel + 1 → AtomReadsBack (readCondition fuel) c) :
      (∀ fuel, c.depth ≤ fuel → ReadsBack (readCondition fuel) c) ∧
        ∀ fuel, c.depth ≤ fuel + 1 → AtomReadsBack (readCondition fuel) c := by
    refine ⟨fun fuel hfuel => ?_, h⟩
    obtain ⟨fuel, rfl⟩ := Nat.exists_eq_succ_of_ne_zero
      (Nat.ne_of_gt (Nat.lt_of_lt_of_le hpos hfuel))
    exact readsBack_of_atom hc (h fuel hfuel)
  induction c with
  | eq a b =>
    exact hatom rfl Nat.zero_lt_one fun fuel _ _ rest hrest => readAtom_eq a b hrest
  | inList a b bs =>
    exact hatom rfl Nat.zero_lt_one fun fuel _ _ rest _ => readAtom_inList a b bs
  | findInSet a b =>
    exact hatom rfl Nat.zero_lt_one fun fuel _ _ rest _ => readAtom_findInSet a b
  | inSelect a column table c ih =>
    exact hatom rfl (Nat.succ_pos _) fun fuel hfuel _ rest _ =>
      readAtom_inSelect a column table (ih.1 fuel (Nat.le_of_succ_le_succ hfuel))
  | or a b iha ihb =>
    refine ⟨?_, fun _ _ hor => by cases hor⟩
    rintro (_ | fuel) hfuel
    · cases hfuel
    · have hdepth := Nat.max_le.mp (Nat.le_of_succ_le_succ hfuel)
      exact readsBack_or (iha.1 fuel hdepth.1) (iha.2 fuel (Nat.le_succ_of_le hdepth.1))
        (ihb.1 fuel hdepth.2)

/-- A condition is read back from its tokens. -/
theorem readCondition_print (h : c.depth ≤ fuel) :
    ReadsBack (readCondition fuel) c := (readsBack_both c).1 fuel h

private theorem depth_pos (c : Condition) : 0 < c.depth := by
  cases c <;> simp [Condition.depth]

/-- A condition has no more levels than tokens. -/
theorem depth_le_length (c : Condition) : c.depth ≤ c.print.length := by
  induction c with
  | eq a b =>
    rw [Condition.print, List.length_append, List.length_cons]
    exact Nat.le_add_left 1 _
  | inList a b bs =>
    rw [Condition.print, List.length_append, List.length_cons]
    exact Nat.le_add_left 1 _
  | findInSet a b =>
    rw [Condition.print, List.length_cons]
    exact Nat.le_add_left 1 _
  | inSelect a column table c ih =>
    simp only [Condition.print, Condition.depth, parens, List.length_append, List.length_cons]
    omega
  | or a b iha ihb =>
    have hb := depth_pos b
    have ha : a.depth ≤ (if a.isOr then parens a.print else a.print).length := by
      split
      next =>
        rw [parens, List.length_cons, List.length_append]
        omega
      next => exact iha
    rw [Condition.print, Condition.depth, List.length_append, List.length_cons]
    omega

/-- A filter with a condition in parentheses is read back. -/
theorem readFilter_parens {s : List Char}
    (h : lex s = .and :: parens c.print) : readFilter s = some (some c) := by
  have hdepth : c.depth ≤ (parens c.print).length := by
    have hlength := depth_le_length c
    rw [parens, List.length_cons, List.length_append]
    omega
  have hread : readAtom (readCondition (parens c.print).length) (parens c.print) =
      some (c, []) := by
    have hread := @readAtom_parens _ [] c (readCondition_print hdepth)
    rwa [List.append_nil] at hread
  rw [readFilter, h]
  dsimp only
  rw [hread]

end Print

/-- What a column holds. -/
inductive Value where
  | null
  | int (n : Int)
  | text (s : List Char)
  deriving DecidableEq

/-- A row of a table: what its columns hold. -/
abbrev Record := List Char → Value

/-- The rows of each table. -/
abbrev Database := List Char → List Record

/-- Two values are compared as equal; `NULL` equals nothing. -/
def Value.same : Value → Value → Bool
  | .int m, .int n => decide (m = n)
  | .text s, .text t => decide (s = t)
  | _, _ => false

/-- `FIND_IN_SET(a, b)`. -/
def Value.inSet : Value → Value → Bool
  | .int n, .text s => (s.splitOn ',').contains (decimal n)
  | .text w, .text s => (s.splitOn ',').contains w
  | _, _ => false

/-- The value of an operand: columns of the tables around the condition have a name before them. -/
def Operand.value (outer : List Char → Record) (row : Record) : Operand → Value
  | .column (some table) name => outer table name
  | .column none name => row name
  | .int n => .int n
  | .null => .null

/-- A condition is true of a row. -/
def Condition.holds (db : Database) (outer : List Char → Record) : Record → Condition → Bool
  | row, .eq a b => (a.value outer row).same (b.value outer row)
  | row, .inList a b bs => (b :: bs).any fun b => (a.value outer row).same (b.value outer row)
  | row, .inSelect a column table c =>
    (db table).any fun r => (a.value outer row).same (r column) && c.holds db outer r
  | row, .findInSet a b => (a.value outer row).inSet (b.value outer row)
  | row, .or a b => a.holds db outer row || b.holds db outer row

/-- A row passes a filter; one that is no condition makes the query fail. -/
def admits (db : Database) (outer : List Char → Record) (s : List Char) : Bool :=
  match readFilter s with
  | none => false
  | some none => true
  | some (some c) => c.holds db outer fun _ => .null

/-- One of some conditions. -/
def disjunction (c : Condition) : List Condition → Condition
  | [] => c
  | d :: cs => .or c (disjunction d cs)

section Disjunction

variable {db : Database} {outer : List Char → Record} {row : Record} {c : Condition}
  {cs : List Condition}

theorem holds_disjunction :
    (disjunction c cs).holds db outer row = (c :: cs).any fun c => c.holds db outer row := by
  induction cs generalizing c with
  | nil => simp [disjunction]
  | cons d cs ih => rw [disjunction, Condition.holds, ih, List.any_cons (a := c)]

theorem print_disjunction (h : ∀ d ∈ c :: cs, d.isOr = false) :
    (disjunction c cs).print = c.print ++ cs.flatMap fun d => .or :: d.print := by
  induction cs generalizing c with
  | nil => rw [disjunction, List.flatMap_nil, List.append_nil]
  | cons d cs ih =>
    rw [disjunction, Condition.print, if_neg (Bool.eq_false_iff.mp (h c List.mem_cons_self)),
      ih fun e he => h e (List.mem_cons_of_mem _ he), List.flatMap_cons, List.cons_append]

/-- What passes a filter of alternatives in parentheses. -/
theorem admits_disjunction {s : List Char} (h : ∀ d ∈ c :: cs, d.isOr = false)
    (hs : lex s = .and :: parens (c.print ++ cs.flatMap fun d => .or :: d.print)) :
    admits db outer s = (c :: cs).any fun c => c.holds db outer fun _ => .null := by
  rw [admits, readFilter_parens (hs.trans (by rw [print_disjunction h])), ← holds_disjunction]

end Disjunction

end PlatformSpec.Base.Sql
