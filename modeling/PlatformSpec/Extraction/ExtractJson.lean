import PlatformSpec.Base.Brackets
import PlatformSpec.Base.Json
import PlatformSpec.Base.Text

/-!
# Extracting JSON by brackets

Models `extract_json` of `dify_graph/nodes/parameter_extractor/parameter_extractor_node.py` on the
text of a value and what follows it.
-/

namespace PlatformSpec.Extraction

open Base

/-- `c in {"\x7b", "["}`. -/
def isOpening (c : Char) : Bool := c == '\x7b' || c == '['

/-- `c in {"\x7d", "]"}`. -/
def isClosing (c : Char) : Bool := c == '\x7d' || c == ']'

/-- The closing bracket `c` belongs to the opening bracket `top`. -/
def isMatch (top c : Char) : Bool := (c == '\x7d' && top == '\x7b') || (c == ']' && top == '[')

/-- The loop of `extract_json` from index `i` on: how much of the text is returned. -/
def extractLoop : Nat → List Char → List Char → Option Nat
  | _, _, [] => none
  | i, stack, c :: text =>
    if isOpening c then extractLoop (i + 1) (c :: stack) text
    else if isClosing c then
      match stack with
      | [] => some i
      | top :: stack =>
        if isMatch top c then
          if stack = [] then some (i + 1) else extractLoop (i + 1) stack text
        else some i
    else extractLoop (i + 1) stack text

/-- `extract_json`. -/
def extractJson (text : List Char) : Option (List Char) := (extractLoop 0 [] text).map text.take

/-- What closes a bracket. -/
def mate (c : Char) : Option Char :=
  if c = '\x7b' then some '\x7d' else if c = '[' then some ']' else none

theorem mate_isClosing {o c : Char} (h : mate o = some c) :
    mate c = none ∧ isClosing c = true := by
  unfold mate at h
  split at h
  · cases h; decide
  · split at h
    · cases h; decide
    · cases h

/-- The brackets of JSON. -/
def brackets : Brackets Char := ⟨mate, isClosing, mate_isClosing⟩

theorem isOpening_eq (c : Char) : isOpening c = (brackets.mate c).isSome := by
  show _ = (mate c).isSome
  unfold isOpening mate
  by_cases h : c = '\x7b'
  · simp [h]
  · by_cases h' : c = '[' <;> simp [h, h']

theorem isMatch_iff {top c : Char} : isMatch top c = true ↔ brackets.mate top = some c := by
  show _ ↔ mate top = some c
  unfold isMatch mate
  grind

variable {i k : Nat} {o c : Char} {stack st w text s : List Char}

theorem extractLoop_cons : extractLoop i stack (c :: text) =
    if isOpening c then extractLoop (i + 1) (c :: stack) text
    else if isClosing c then
      match stack with
      | [] => some i
      | top :: stack =>
        if isMatch top c then
          if stack = [] then some (i + 1) else extractLoop (i + 1) stack text
        else some i
    else extractLoop (i + 1) stack text := rfl

private theorem extractLoop_step (h : brackets.step st c = some stack) :
    extractLoop i (st ++ [o]) (c :: text) = extractLoop (i + 1) (stack ++ [o]) text := by
  unfold Brackets.step at h
  rw [extractLoop_cons, isOpening_eq]
  split at h
  · next ho => cases h; rw [if_pos ho]; rfl
  · next ho =>
    rw [if_neg ho]
    split at h
    · next hc =>
      rw [if_pos (show isClosing c = true from hc)]
      cases st with
      | nil => cases h
      | cons top st =>
        simp only at h
        split at h
        · next hm =>
          cases h
          simp only [List.cons_append, isMatch_iff.mpr hm, if_true]
          rw [if_neg (by simp)]
        · cases h
    · next hc => cases h; rw [if_neg (show ¬ isClosing c = true from hc)]

private theorem extractLoop_stop (h : brackets.step st c = none) :
    extractLoop i (st ++ [o]) (c :: text) = some i ∨
      extractLoop i (st ++ [o]) (c :: text) = some (i + 1) := by
  unfold Brackets.step at h
  rw [extractLoop_cons, isOpening_eq]
  split at h
  · cases h
  · next ho =>
    rw [if_neg ho]
    split at h
    · next hc =>
      rw [if_pos (show isClosing c = true from hc)]
      cases st with
      | nil => cases isMatch o c <;> simp
      | cons top st =>
        simp only at h
        split at h
        · cases h
        · next hm =>
          left
          simp only [List.cons_append]
          rw [if_neg (isMatch_iff.not.mpr hm)]
    · cases h

private theorem extractLoop_run (h : brackets.run st w = some stack) :
    extractLoop i (st ++ [o]) (w ++ text) = extractLoop (i + w.length) (stack ++ [o]) text := by
  induction w generalizing i st with
  | nil => cases h; rfl
  | cons c w ih =>
    rw [Brackets.run_cons, Option.bind_eq_some_iff] at h
    obtain ⟨next, hstep, hrun⟩ := h
    rw [List.cons_append, extractLoop_step hstep, ih hrun, List.length_cons]
    congr 1
    omega

private theorem extractLoop_fail (h : brackets.run st w = none) :
    ∃ k ≤ i + w.length, extractLoop i (st ++ [o]) (w ++ text) = some k := by
  induction w generalizing i st with
  | nil => cases h
  | cons c w ih =>
    rw [Brackets.run_cons] at h
    rw [List.cons_append, List.length_cons]
    cases hstep : brackets.step st c with
    | none =>
      rcases extractLoop_stop hstep with hi | hi
      · exact ⟨i, by omega, hi⟩
      · exact ⟨i + 1, by omega, hi⟩
    | some next =>
      rw [hstep, Option.bind_some] at h
      obtain ⟨k, hk, hloop⟩ := ih h (i := i + 1)
      exact ⟨k, by omega, by rw [extractLoop_step hstep, hloop]⟩

private theorem extractLoop_bounds (h : extractLoop i stack text = some k) :
    i ≤ k ∧ k ≤ i + text.length := by
  induction text generalizing i stack with
  | nil => cases h
  | cons c text ih =>
    rw [extractLoop_cons] at h
    rw [List.length_cons]
    split at h
    · have := ih h
      omega
    · split at h
      · cases stack with
        | nil => cases h; omega
        | cons top stack =>
          simp only at h
          split at h
          · split at h
            · cases h; omega
            · have := ih h
              omega
          · cases h; omega
      · have := ih h
        omega

theorem extractLoop_eq_self_iff :
    extractLoop i (o :: stack) text = some i ↔
      ∃ c rest, text = c :: rest ∧ isClosing c = true ∧ isMatch o c = false := by
  constructor
  · intro h
    cases text with
    | nil => cases h
    | cons c text =>
      rw [extractLoop_cons] at h
      split at h
      · have := extractLoop_bounds h
        omega
      · split at h
        · next hc =>
          simp only at h
          split at h
          · split at h
            · cases h
            · have := extractLoop_bounds h
              omega
          · next hm => exact ⟨c, text, rfl, hc, Bool.eq_false_iff.mpr hm⟩
        · have := extractLoop_bounds h
          omega
  · rintro ⟨c, rest, rfl, hc, hm⟩
    have hopening : ¬ isOpening c = true := by
      unfold isClosing at hc
      unfold isOpening
      grind
    rw [extractLoop_cons, if_neg hopening, if_pos hc]
    simp [hm]

/-- More brackets are open after a value than its own ones, and what follows begins with a bracket
that closes none of them. -/
def Overrun (j : JsonContainer) (ensureAscii : Bool) (s : List Char) : Prop :=
  ∃ stack, brackets.Pending (j.inner ensureAscii) (j.opening :: stack) ∧
    ∃ c rest, s = c :: rest ∧ isClosing c = true ∧ isMatch (stack.headD j.opening) c = false

theorem take_eq_iff {front back : List Char} (hk : k ≤ (front ++ back).length) :
    (front ++ back).take k = front ↔ k = front.length := by
  constructor
  · intro h
    have := congrArg List.length h
    rw [List.length_take] at this
    omega
  · rintro rfl
    exact List.take_left

theorem extractLoop_value_iff (j : JsonContainer) (ensureAscii : Bool) (s : List Char) :
    extractLoop 0 [] (j.value.chars ensureAscii ++ s) =
        some (j.value.chars ensureAscii).length ↔
      brackets.Nested (j.inner ensureAscii) ∨ Overrun j ensureAscii s := by
  have hopening : isOpening j.opening = true := by cases j <;> rfl
  have hclosing : isOpening j.closing = false ∧ isClosing j.closing = true := by
    cases j <;> exact ⟨rfl, rfl⟩
  have hmate : ∀ top, isMatch top j.closing = true ↔ top = j.opening := by
    intro top
    cases j <;> simp [isMatch, JsonContainer.closing, JsonContainer.opening]
  have hstart : ∀ text, extractLoop 0 [] (j.opening :: text) = extractLoop 1 [j.opening] text :=
    fun text => by rw [extractLoop_cons, if_pos hopening]
  have hlength : (j.value.chars ensureAscii).length = 1 + (j.inner ensureAscii).length + 1 := by
    rw [j.chars_value, List.length_cons, List.length_append, List.length_singleton]
    omega
  rw [hlength, j.chars_value, List.cons_append, hstart, List.append_assoc, ← List.nil_append [_],
    List.singleton_append, ← Brackets.run_eq_nil_iff]
  unfold Overrun
  simp only [← Brackets.run_eq_some_iff]
  generalize j.inner ensureAscii = inner
  cases hrun : brackets.run [] inner with
  | none =>
    obtain ⟨k, hk, hloop⟩ : ∃ k ≤ 1 + inner.length,
        extractLoop 1 ([] ++ [j.opening]) (inner ++ j.closing :: s) = some k :=
      extractLoop_fail hrun
    rw [hloop]
    constructor
    · intro h
      cases h
      omega
    · rintro (h | ⟨stack, h, -⟩) <;> cases h
  | some stack =>
    rw [extractLoop_run hrun, extractLoop_cons, hclosing.1, hclosing.2]
    cases stack with
    | nil => simp [(hmate j.opening).mpr rfl]
    | cons top stack =>
      by_cases htop : top = j.opening
      · subst htop
        have hself : extractLoop (1 + inner.length + 1) (stack ++ [j.opening]) s =
              some (1 + inner.length + 1) ↔
            ∃ c rest, s = c :: rest ∧ isClosing c = true ∧
              isMatch (stack.headD j.opening) c = false := by
          cases stack <;> exact extractLoop_eq_self_iff
        simp [(hmate j.opening).mpr rfl, hself]
      · have hno : isMatch top j.closing = false :=
          Bool.eq_false_iff.mpr ((hmate top).not.mpr htop)
        simp [hno, htop]

/-- The value is returned from a text that begins with it, exactly when the brackets between its
outermost ones are well nested, or one is left open that what follows does not close. -/
theorem extractJson_dumps_iff (j : JsonContainer) (ensureAscii : Bool) (s : List Char) :
    extractJson (j.value.chars ensureAscii ++ s) = some (j.value.chars ensureAscii) ↔
      brackets.Nested (j.inner ensureAscii) ∨ Overrun j ensureAscii s := by
  rw [← extractLoop_value_iff, extractJson]
  cases hloop : extractLoop 0 [] (j.value.chars ensureAscii ++ s) with
  | none => simp
  | some k =>
    have hk := (extractLoop_bounds hloop).2
    rw [Nat.zero_add] at hk
    rw [Option.map_some, Option.some_inj, Option.some_inj, take_eq_iff hk]

/-- A bracket inside a string ends the value. -/
theorem extractJson_cuts_string : ¬ ∀ (j : JsonContainer) (s : List Char),
    extractJson (j.value.chars true ++ s) = some (j.value.chars true) :=
  fun h => absurd (h (.obj [("a", .str "\x7d")]) []) (by decide)

end PlatformSpec.Extraction
