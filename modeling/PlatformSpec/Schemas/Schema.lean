import Mathlib.Data.List.Infix
import PlatformSpec.Base.Heap
import PlatformSpec.Base.Text

/-!
# Schemas and their references

Models the pattern of Dify schema URIs, the test for references and the removal of metadata of
`core/schemas/resolver.py`, and the lookup of `SchemaRegistry.get_schema`.
-/

namespace PlatformSpec.Schemas

open Base Base.Heap

/-- A JSON value without parts; a float is its text. -/
inductive Leaf where
  | null
  | bool (b : Bool)
  | int (n : Int)
  | float (repr : String)
  | str (s : String)
  deriving DecidableEq

/-- A schema: any JSON value. -/
abbrev Schema := Heap.Tree Leaf

/-- The entries of a dictionary. -/
abbrev Entries := List (String × Schema)

/-- The zeros of the decimal digits that `\d` matches; each is followed by one to nine. -/
def decimalZeros : List Nat :=
  [0x30, 0x660, 0x6f0, 0x7c0, 0x966, 0x9e6, 0xa66, 0xae6, 0xb66, 0xbe6, 0xc66, 0xce6, 0xd66, 0xde6,
    0xe50, 0xed0, 0xf20, 0x1040, 0x1090, 0x17e0, 0x1810, 0x1946, 0x19d0, 0x1a80, 0x1a90, 0x1b50,
    0x1bb0, 0x1c40, 0x1c50, 0xa620, 0xa8d0, 0xa900, 0xa9d0, 0xa9f0, 0xaa50, 0xabf0, 0xff10,
    0x104a0, 0x10d30, 0x11066, 0x110f0, 0x11136, 0x111d0, 0x112f0, 0x11450, 0x114d0, 0x11650,
    0x116c0, 0x11730, 0x118e0, 0x11950, 0x11c50, 0x11d50, 0x11da0, 0x16a60, 0x16ac0, 0x16b50,
    0x1d7ce, 0x1d7d8, 0x1d7e2, 0x1d7ec, 0x1d7f6, 0x1e140, 0x1e2f0, 0x1e950, 0x1fbf0]

/-- `\d`. -/
def isDecimal (c : Char) : Bool :=
  decimalZeros.any fun first => first ≤ c.toNat ∧ c.toNat < first + 10

/-- `parse_dify_schema_uri`: the groups of `_DIFY_SCHEMA_PATTERN`, whose `$` matches before a
final newline as well. -/
def parseDifySchemaUri (uri : String) : Option (String × String) := do
  let rest ← "https://dify.ai/schemas/v".toList.isPrefixOf? uri.toList
  let digits := rest.takeWhile isDecimal
  match rest.dropWhile isDecimal with
  | '/' :: rest =>
    let name ← ".json".toList.isSuffixOf?
      (if rest.getLast? = some '\n' then rest.dropLast else rest)
    if digits = [] ∨ name = [] ∨ '\n' ∈ name then none
    else some (String.ofList ('v' :: digits), String.ofList name)
  | _ => none

/-- `_is_dify_schema_ref`. -/
def isDifySchemaRef (uri : String) : Bool := (parseDifySchemaUri uri).isSome

/-- The `$ref` of a dictionary, if it refers to a Dify schema. -/
def difyRef {α : Type} (leaf? : α → Option Leaf) : Container α → Option String
  | .dict entries =>
    match (entries.lookup "$ref").bind leaf? with
    | some (.str uri) => if isDifySchemaRef uri then some uri else none
    | _ => none
  | .list _ => none

/-- The `$ref` of a schema. -/
abbrev schemaRef (c : Container Schema) : Option String := difyRef Heap.Tree.leaf? c

mutual

/-- `_has_dify_refs_recursive`. -/
def hasDifyRefsRecursive : Schema → Bool
  | .leaf _ => false
  | .node (.list items) => anyHasDifyRefs items
  | .node (.dict entries) => (schemaRef (.dict entries)).isSome || anyValueHasDifyRefs entries

def anyHasDifyRefs : List Schema → Bool
  | [] => false
  | item :: items => hasDifyRefsRecursive item || anyHasDifyRefs items

def anyValueHasDifyRefs : Entries → Bool
  | [] => false
  | (_, value) :: entries => hasDifyRefsRecursive value || anyValueHasDifyRefs entries

end

theorem anyHasDifyRefs_eq_false {items : List Schema} :
    anyHasDifyRefs items = false ↔ ∀ t ∈ items, hasDifyRefsRecursive t = false := by
  induction items with
  | nil => simp [anyHasDifyRefs]
  | cons t items ih => simp [anyHasDifyRefs, ih]

theorem anyValueHasDifyRefs_eq_false {entries : Entries} :
    anyValueHasDifyRefs entries = false ↔ ∀ e ∈ entries, hasDifyRefsRecursive e.2 = false := by
  induction entries with
  | nil => simp [anyValueHasDifyRefs]
  | cons e entries ih => simp [anyValueHasDifyRefs, ih]

/-- `\uXXXX`. -/
def unicodeEscape (n : Nat) : List Char :=
  let digits := Nat.toDigits 16 n
  '\\' :: 'u' :: (List.replicate (4 - digits.length) '0' ++ digits)

/-- A character in a JSON text. -/
def escape (c : Char) : List Char :=
  if c = '"' then ['\\', '"']
  else if c = '\\' then ['\\', '\\']
  else if ' ' ≤ c ∧ c ≤ '~' then [c]
  else if c = '\n' then ['\\', 'n']
  else if c = '\r' then ['\\', 'r']
  else if c = '\t' then ['\\', 't']
  else if c = '\x08' then ['\\', 'b']
  else if c = '\x0c' then ['\\', 'f']
  else if c.toNat < 0x10000 then unicodeEscape c.toNat
  else
    let n := c.toNat - 0x10000
    unicodeEscape (0xd800 + n / 1024) ++ unicodeEscape (0xdc00 + n % 1024)

/-- A string in a JSON text. -/
def quote (s : String) : List Char := '"' :: (s.toList.flatMap escape ++ ['"'])

/-- The JSON text of a value without parts. -/
def Leaf.text : Leaf → List Char
  | .null => "null".toList
  | .bool true => "true".toList
  | .bool false => "false".toList
  | .int n => (toString n).toList
  | .float repr => repr.toList
  | .str s => quote s

mutual

/-- `json.dumps(schema, separators=(",", ":"))`. -/
def text : Schema → List Char
  | .leaf leaf => leaf.text
  | .node (.list items) => '[' :: ([','].intercalate (itemTexts items) ++ [']'])
  | .node (.dict entries) => '\x7b' :: ([','].intercalate (entryTexts entries) ++ ['\x7d'])

def itemTexts : List Schema → List (List Char)
  | [] => []
  | item :: items => text item :: itemTexts items

def entryTexts : Entries → List (List Char)
  | [] => []
  | (key, value) :: entries => (quote key ++ ':' :: text value) :: entryTexts entries

end

/-- `_has_dify_refs`: the text is searched before the schema. -/
def hasDifyRefs (schema : Schema) : Bool :=
  if ¬ "\"$ref\"".toList <:+: text schema then false
  else if ¬ "https://dify.ai/schemas/".toList <:+: text schema then false
  else hasDifyRefsRecursive schema

variable {uri : String}

theorem difyRef_eq_some {α : Type} {leaf? : α → Option Leaf} {c : Container α}
    (h : difyRef leaf? c = some uri) : ∃ entries a, c = .dict entries ∧
      entries.lookup "$ref" = some a ∧ leaf? a = some (.str uri) ∧ isDifySchemaRef uri = true := by
  cases c with
  | list items => cases h
  | dict entries =>
    simp only [difyRef] at h
    split at h
    next uri' hlookup =>
      obtain ⟨a, ha, hleaf⟩ := Option.bind_eq_some_iff.mp hlookup
      obtain ⟨hdify, he⟩ := Option.ite_none_right_eq_some.mp h
      cases he
      exact ⟨entries, a, rfl, ha, hleaf, hdify⟩
    next => cases h

theorem difyRef_eq {α β : Type} {leaf? : α → Option Leaf} {leaf?' : β → Option Leaf}
    {c : Container α} {d : Container β} (h : c.Related (fun a b => leaf? a = leaf?' b) d) :
    difyRef leaf? c = difyRef leaf?' d := by
  cases c with
  | list items =>
    cases d with
    | list items' => rfl
    | dict entries => cases h.1
  | dict entries =>
    cases d with
    | list items => cases h.1
    | dict entries' =>
      have hlookup : (entries.lookup "$ref").bind leaf? = (entries'.lookup "$ref").bind leaf?' := by
        have hrel := h.lookup "$ref"
        generalize entries.lookup "$ref" = found, entries'.lookup "$ref" = found' at hrel ⊢
        cases hrel with
        | none => rfl
        | some hleaf => exact hleaf
      simp only [difyRef, hlookup]

private theorem infix_quote (h : isDifySchemaRef uri = true) :
    "https://dify.ai/schemas/".toList <:+: quote uri := by
  obtain ⟨key, hkey⟩ := Option.isSome_iff_exists.mp h
  obtain ⟨rest, hrest, -⟩ := Option.bind_eq_some_iff.mp hkey
  have huri : uri.toList = "https://dify.ai/schemas/".toList ++ ('v' :: rest) :=
    (List.isPrefixOf?_eq_some_iff_append_eq.mp hrest).symm.trans (by simp)
  have hescape : "https://dify.ai/schemas/".toList.flatMap escape =
      "https://dify.ai/schemas/".toList := by decide +kernel
  refine ⟨['"'], ('v' :: rest).flatMap escape ++ ['"'], ?_⟩
  rw [quote, huri, List.flatMap_append, hescape]
  simp

private theorem infix_ref {entries : Entries} (h : schemaRef (.dict entries) = some uri) :
    ∃ l ∈ entryTexts entries, "\"$ref\"".toList <:+: l ∧
      "https://dify.ai/schemas/".toList <:+: l := by
  obtain ⟨entries', value, he, hlookup, hleaf, hdify⟩ := difyRef_eq_some h
  cases he
  obtain ⟨front, back, rfl, -⟩ := List.lookup_eq_some_iff.mp hlookup
  have hmem : quote "$ref" ++ ':' :: text value ∈
      entryTexts (front ++ ("$ref", value) :: back) := by
    clear h hlookup
    induction front with
    | nil => exact List.mem_cons_self
    | cons e front ih => exact List.mem_cons_of_mem _ ih
  refine ⟨_, hmem, ?_, ?_⟩
  · have hquote : quote "$ref" = "\"$ref\"".toList := by decide +kernel
    rw [hquote]
    exact (List.prefix_append _ _).isInfix
  · cases value with
    | leaf leaf =>
      cases hleaf
      exact (infix_quote hdify).trans
        ((List.suffix_cons ':' _).trans (List.suffix_append _ _)).isInfix
    | node c => cases hleaf

mutual

theorem infix_text : ∀ schema : Schema, hasDifyRefsRecursive schema = true →
    "\"$ref\"".toList <:+: text schema ∧ "https://dify.ai/schemas/".toList <:+: text schema
  | .leaf _, h => by cases h
  | .node (.list items), h => by
    obtain ⟨l, hl, href, huri⟩ := infix_itemTexts items h
    have hin : l <:+: text (.node (.list items)) := by
      rw [text]
      exact (infix_intercalate [','] hl).trans ⟨['['], [']'], by simp⟩
    exact ⟨href.trans hin, huri.trans hin⟩
  | .node (.dict entries), h => by
    have hentry : ∃ l ∈ entryTexts entries, "\"$ref\"".toList <:+: l ∧
        "https://dify.ai/schemas/".toList <:+: l := by
      rcases Bool.or_eq_true_iff.mp h with h | h
      · obtain ⟨uri, huri⟩ := Option.isSome_iff_exists.mp h
        exact infix_ref huri
      · exact infix_entryTexts entries h
    obtain ⟨l, hl, href, huri⟩ := hentry
    have hin : l <:+: text (.node (.dict entries)) := by
      rw [text]
      exact (infix_intercalate [','] hl).trans ⟨['\x7b'], ['\x7d'], by simp⟩
    exact ⟨href.trans hin, huri.trans hin⟩

theorem infix_itemTexts : ∀ items : List Schema, anyHasDifyRefs items = true →
    ∃ l ∈ itemTexts items, "\"$ref\"".toList <:+: l ∧ "https://dify.ai/schemas/".toList <:+: l
  | [], h => by cases h
  | item :: items, h => by
    rcases Bool.or_eq_true_iff.mp h with h | h
    · exact ⟨text item, List.mem_cons_self, infix_text item h⟩
    · obtain ⟨l, hl, hin⟩ := infix_itemTexts items h
      exact ⟨l, List.mem_cons_of_mem _ hl, hin⟩

theorem infix_entryTexts : ∀ entries : Entries, anyValueHasDifyRefs entries = true →
    ∃ l ∈ entryTexts entries, "\"$ref\"".toList <:+: l ∧ "https://dify.ai/schemas/".toList <:+: l
  | [], h => by cases h
  | (key, value) :: entries, h => by
    rcases Bool.or_eq_true_iff.mp h with h | h
    · have hin : text value <:+: quote key ++ ':' :: text value :=
        ((List.suffix_cons ':' (text value)).trans (List.suffix_append _ _)).isInfix
      obtain ⟨href, huri⟩ := infix_text value h
      exact ⟨_, List.mem_cons_self, href.trans hin, huri.trans hin⟩
    · obtain ⟨l, hl, hin⟩ := infix_entryTexts entries h
      exact ⟨l, List.mem_cons_of_mem _ hl, hin⟩

end

theorem hasDifyRefs_eq (schema : Schema) : hasDifyRefs schema = hasDifyRefsRecursive schema := by
  unfold hasDifyRefs
  cases h : hasDifyRefsRecursive schema with
  | false =>
    split
    next => rfl
    next => exact ite_self _
  | true =>
    obtain ⟨href, huri⟩ := infix_text schema h
    rw [if_neg (not_not_intro href), if_neg (not_not_intro huri)]

theorem exists_container {schema : Schema} (h : hasDifyRefs schema = true) :
    ∃ c, schema = .node c := by
  rw [hasDifyRefs_eq] at h
  cases schema with
  | leaf l => cases h
  | node c => exact ⟨c, rfl⟩

/-- `_remove_metadata_fields`. -/
def removeMetadataFields {α : Type} (entries : List (String × α)) : List (String × α) :=
  entries.filter fun e => !(["$id", "$schema", "version"].contains e.1)

/-- The schemas of a registry by version and name. -/
abbrev Registry (α : Type) := List ((String × String) × List (String × α))

/-- `get_schema`. -/
def Registry.getSchema {α : Type} (registry : Registry α) (uri : String) :
    Option (List (String × α)) :=
  (parseDifySchemaUri uri).bind fun key => registry.lookup key

example : parseDifySchemaUri "https://dify.ai/schemas/v1/qa.json" = some ("v1", "qa") := by
  decide +kernel

end PlatformSpec.Schemas
