import PlatformSpec.Base.Decimal
import PlatformSpec.Base.Split
import PlatformSpec.Base.Text

/-!
# Texts in RuoYi

Models what is used of `StringUtils`, `Convert` and `StrFormatter`. A text is the list of its
characters; one that may be `null` is an `Option`.
-/

namespace PlatformSpec.RuoYi

open Base Split

/-- A text. -/
abbrev Str := List Char

/-- `str.trim()`. -/
def trim (str : Str) : Str := stripBoth (fun c => decide (c.toNat ≤ 0x20)) str

/-- `StringUtils.isEmpty`. -/
def isEmpty : Option Str → Bool
  | none => true
  | some str => decide (trim str = [])

/-- `StringUtils.isNotBlank`. -/
def isNotBlank (str : Str) : Bool := !str.all isSpace

/-- `str.split(",")`: empty texts at the end are left out. -/
def splitComma (str : Str) : List Str :=
  if ',' ∈ str then stripRight List.isEmpty (str.splitOn ',') else [str]

/-- `Convert.toStrArray`. -/
def toStrArray (str : Option Str) : List Str :=
  if isEmpty str then [] else splitComma (str.getD [])

/-- `StringUtils.containsAny`. -/
def containsAny (collection array : List Str) : Bool :=
  if collection.isEmpty || array.isEmpty then false
  else array.any fun str => collection.contains str

/-- `String.join(",", ids)`. -/
def joinComma : List Str → Str
  | [] => []
  | [id] => id
  | id :: ids => id ++ ',' :: joinComma ids

/-- The text that is appended for an argument. -/
def appended (arg : Option Str) : Str := arg.getD "null".toList

/-- What stands for an argument. -/
def placeholder : Str := ['\x7b', '\x7d']

/-- The loop of `StrFormatter.format` over what is left of the pattern. A placeholder after one
backslash is escaped; after two it is not. -/
def formatFrom (pattern : Str) : List (Option Str) → Str
  | [] => pattern
  | arg :: args =>
    match _hcut : cut placeholder pattern with
    | none => pattern
    | some (before, after) =>
      if before.getLast? = some '\\' then
        if before.dropLast.getLast? = some '\\' then
          before.dropLast ++ (appended arg ++ formatFrom after args)
        else before.dropLast ++ '\x7b' :: formatFrom ('\x7d' :: after) (arg :: args)
      else before ++ (appended arg ++ formatFrom after args)
termination_by pattern.length
decreasing_by
  all_goals
    have hlength := congrArg List.length (eq_of_cut _hcut)
    simp [placeholder] at hlength
    simp
    omega

/-- `StringUtils.format`. -/
def format (pattern : Str) (args : List (Option Str)) : Str :=
  if isEmpty (some pattern) || args.isEmpty then pattern else formatFrom pattern args

section Format

variable {pattern rest : Str} {arg : Option Str} {args : List (Option Str)}

theorem formatFrom_placeholder (h : '\x7b' ∉ pattern) (hescape : '\\' ∉ pattern) :
    formatFrom (pattern ++ (placeholder ++ rest)) (arg :: args) =
      pattern ++ (appended arg ++ formatFrom rest args) := by
  have hcut : cut placeholder (pattern ++ (placeholder ++ rest)) = some (pattern, rest) :=
    cut_pair (by decide) fun hi => h (hi.subset List.mem_cons_self)
  have hlast : pattern.getLast? ≠ some '\\' := fun he => hescape (List.mem_of_getLast? he)
  rw [formatFrom]
  split
  next heq =>
    rw [hcut] at heq
    cases heq
  next heq =>
    rw [hcut] at heq
    cases heq
    rw [if_neg hlast]

end Format

end PlatformSpec.RuoYi
