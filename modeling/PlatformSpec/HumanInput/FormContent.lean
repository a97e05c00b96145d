import PlatformSpec.Base.Replace
import PlatformSpec.HumanInput.Node
import PlatformSpec.Response.Template

/-!
# Placeholders of a form content

The placeholders of `dify_graph/nodes/human_input/entities.py` are those of its pattern
`\{\{#\$output\.([a-zA-Z_][a-zA-Z0-9_]{0,29})#\}\}`. The values of the fields are put into a form
content one field after another. This is the same as putting them all in at once if and only if no
placeholder stands in the outcome.
-/

namespace PlatformSpec.HumanInput

open Base Base.Replace Base.Scan
open Response (isIdentifier isWord isWord_of_mem_identifier)

/-- A name that the pattern matches. -/
structure FieldName where
  text : String
  matched : isIdentifier text.toList = true
  deriving DecidableEq

/-- What stands in a placeholder after its opening braces. -/
def FieldName.body (field : FieldName) : List Char :=
  ['#', '$', 'o', 'u', 't', 'p', 'u', 't', '.'] ++ (field.text.toList ++ ['#', '}', '}'])

/-- The placeholder of a field. -/
def FieldName.placeholder (field : FieldName) : String :=
  "\x7b\x7b#$output." ++ field.text ++ "#\x7d\x7d"

namespace FieldName

variable (field : FieldName)

theorem toList_placeholder :
    field.placeholder.toList = '{' :: '{' :: field.body := by
  simp [placeholder, body]

theorem body_ne_nil : field.body ≠ [] := by
  rw [body]
  exact List.append_ne_nil_of_left_ne_nil (List.cons_ne_nil _ _) _

theorem not_mem_text {c : Char} (h : isWord c = false) : c ∉ field.text.toList := by
  intro hc
  rw [isWord_of_mem_identifier field.matched c hc] at h
  cases h

theorem brace_not_mem_body : '{' ∉ field.body := by
  rw [body, List.mem_append, List.mem_append]
  rintro (h | h | h)
  · simp at h
  · exact field.not_mem_text (by decide) h
  · simp at h

theorem eq_of_body_append {field other : FieldName} {rest rest' : List Char}
    (h : field.body ++ rest = other.body ++ rest') : field = other := by
  have hhash : ∀ field : FieldName, '#' ∉ field.text.toList :=
    fun field => field.not_mem_text (by decide)
  simp only [body, List.append_assoc] at h
  have hcut := congrArg (Split.cut ['#']) (List.append_cancel_left h)
  have hfirst : ∀ (field : FieldName) rest, Split.cut ['#']
      (field.text.toList ++ (['#', '}', '}'] ++ rest)) =
        some (field.text.toList, ['}', '}'] ++ rest) :=
    fun field rest => Split.cut_singleton (hhash field)
  rw [hfirst, hfirst] at hcut
  have htext := (Prod.mk.inj (Option.some.inj hcut)).1
  cases field
  cases other
  cases String.toList_injective htext
  rfl

end FieldName

/-- The placeholders as marks. -/
def placeholders : Marks FieldName Char :=
  .ofTwice '{' FieldName.body FieldName.body_ne_nil FieldName.brace_not_mem_body
    FieldName.eq_of_body_append

theorem placeholders_mark (field : FieldName) :
    placeholders.mark field = field.placeholder.toList :=
  field.toList_placeholder.symm

/-! ## The rendered content -/

/-- The form content with the values of the fields put in, all at once. -/
def substituteOutputs (formContent : String) (outputs : FormData) (fields : List FieldName) :
    String :=
  .ofList (placeholders.substituteAll fields
    (fun field => (replacement (outputs.get field.text)).toList) formContent.toList)

private theorem toList_renderFormContentWithOutputs (formContent : String) (outputs : FormData)
    (fields : List FieldName) :
    (renderFormContentWithOutputs formContent outputs (fields.map FieldName.text)).toList =
      fields.foldl (fun text field => replaceAll (placeholders.mark field)
        (replacement (outputs.get field.text)).toList text) formContent.toList := by
  rw [renderFormContentWithOutputs]
  induction fields generalizing formContent with
  | nil => rfl
  | cons field fields ih =>
    have hne : field.placeholder ≠ "" := by
      rw [ne_eq, ← String.toList_eq_nil_iff, ← placeholders_mark]
      exact placeholders.mark_ne_nil field
    rw [List.map_cons, List.foldl_cons, ih, List.foldl_cons, placeholders_mark,
      ← toList_replace hne]
    rfl

/-- The values of the fields, put in one field after another in whatever order, stand as if they
were put in at once if and only if no placeholder stands in the outcome, but for that of a field
whose value is this placeholder. -/
theorem renderFormContentWithOutputs_simultaneous_iff (formContent : String) (outputs : FormData)
    (fields : List FieldName) :
    (∀ fieldNames : List FieldName, (∀ field, field ∈ fieldNames ↔ field ∈ fields) →
      renderFormContentWithOutputs formContent outputs (fieldNames.map FieldName.text) =
        substituteOutputs formContent outputs fields) ↔
      ∀ field ∈ fields,
        ¬ field.placeholder.toList <:+: (substituteOutputs formContent outputs fields).toList ∨
          replacement (outputs.get field.text) = field.placeholder := by
  have hiff := placeholders.foldl_replaceAll_iff fields
    (fun field => (replacement (outputs.get field.text)).toList) formContent.toList
  simp only [placeholders_mark, String.toList_inj] at hiff
  rw [substituteOutputs, String.toList_ofList, ← hiff]
  apply forall_congr'
  intro fieldNames
  apply imp_congr_right
  intro _
  rw [← String.toList_inj, toList_renderFormContentWithOutputs, String.toList_ofList]
  simp only [placeholders_mark]

private theorem render_placeholder (field : FieldName) (outputs : FormData) :
    renderFormContentWithOutputs field.placeholder outputs [field.text] =
      replacement (outputs.get field.text) := by
  rw [← String.toList_inj, ← List.map_singleton, toList_renderFormContentWithOutputs,
    List.foldl_cons, List.foldl_nil, ← placeholders_mark,
    replaceAll_whole (placeholders.mark_ne_nil field)]

/-- A value that is the placeholder of a later field is replaced: it does not stay, as it would if
all values were put in at once. -/
theorem inserted_value_rescanned :
    renderFormContentWithOutputs "\x7b\x7b#$output.a#\x7d\x7d"
        [("a", .text "\x7b\x7b#$output.b#\x7d\x7d"), ("b", .text "x")] ["a", "b"] = "x" ∧
      substituteOutputs "\x7b\x7b#$output.a#\x7d\x7d"
        [("a", .text "\x7b\x7b#$output.b#\x7d\x7d"), ("b", .text "x")]
        [⟨"a", by decide⟩, ⟨"b", by decide⟩] ≠ "x" := by
  constructor
  · exact (congrArg (renderFormContentWithOutputs · _ ["b"])
      (render_placeholder ⟨"a", by decide⟩ _)).trans (render_placeholder ⟨"b", by decide⟩ _)
  · decide

end PlatformSpec.HumanInput
