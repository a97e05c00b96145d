import PlatformSpec.Rag.KeptPieces

/-!
# Keeping the text

When the chunks of the recursive splitter, without overlap and with its separators kept, have the
letters of the text and join no two of its words.
-/

namespace PlatformSpec.Rag

open Base Base.Split

namespace TextSplitter

variable {t : TextSplitter}

/-- Two pieces between which a space stands do not become one word. -/
def SpacesApart (a b : List Char) : Prop :=
  a.getLast?.all isSpace = true ∨ b.head?.all isSpace = true

/-- At spaces: no bin of short pieces joins two words. -/
def PiecesApart (t : TextSplitter) (splits : List (List Char)) : Prop :=
  ∀ run ∈ splits.splitOnP (fun s => decide (t.chunkSize ≤ s.length)),
    ∀ bin ∈ nextFit (fun s => (s.length : Int)) t.chunkSize run, bin.IsChain SpacesApart

/-- The pieces of a text that `_split_text` goes on with are kept; at characters no bin joins two
words. No separator is an invalid pattern. -/
def KeepsFrom (t : TextSplitter) (re : Re) : List (List Char) → List Char → Prop
  | [], _ => True
  | separator :: newSeparators, text =>
    if separator = [] then t.Collected (fun _ => True) (characterItems text)
    else
      match re.search separator text with
      | .error _ => False
      | .ok false => KeepsFrom t re newSeparators text
      | .ok true => ∀ s ∈ (keepAtEnd separator (pieces separator text)).filter notBlank,
          t.chunkSize ≤ s.length → KeepsFrom t re newSeparators s

private theorem settles_splitTextAt_characters (ht : t.Plain) (re : Re) (text : List Char) :
    Settles text (t.Collected (fun _ => True) (characterItems text))
      (t.splitTextAt re text [] none) := by
  obtain ⟨hlaid, hpieces, w, hw, htext⟩ := characterItems_side_by_side text
  have hsplit : splitTextWithRegex re text [] t.keepSeparator =
      .ok ((characterItems text).map Prod.snd) := by
    rw [splitTextWithRegex, if_pos rfl, ← hpieces]
  rw [splitTextAt, hsplit]
  change Settles _ _ (t.collect [] none (t.measured ((characterItems text).map Prod.snd)) [])
  rw [measured_items ht.length]
  have hnone : Laid isSpace ([] : Items) := List.forall_mem_nil _
  have hcollect : Settles (lay ([] ++ characterItems text))
      (t.Collected (fun _ => True) ([] ++ characterItems text))
      (t.collect [] none (measuredItems (characterItems text)) (measuredItems [])) :=
    settles_collect ht [] hlaid hnone (List.forall_mem_nil _) fun i _ _ => settles_self i.2
  conv => arg 1; rw [htext]
  exact (settles_append_blank_iff hw).mpr hcollect

private theorem settles_collect_kept (ht : t.Plain) {separator : List Char} (hsep : separator ≠ [])
    {keep : List Char → Bool} (hkeep : ∀ s, keep s = false → ∀ c ∈ s, isSpace c = true)
    (hnil : keep [] = false) (text : List Char)
    (further : Option (List Char → Except String (List (List Char)))) (kept : List Char → Prop)
    (hfurther : ∀ s, Settles s (kept s)
      (further.elim (.ok [s]) fun splitFurther => splitFurther s)) :
    Settles text
      (∀ s ∈ (keepAtEnd separator (pieces separator text)).filter keep,
        t.chunkSize ≤ s.length → kept s)
      (t.collect separator further
        (t.measured ((keepAtEnd separator (pieces separator text)).filter keep)) []) := by
  obtain ⟨hlaid, hpieces, w, hw, hflat⟩ :=
    keptItems_side_by_side (keepAtEnd separator (pieces separator text)) hkeep hnil
  have hchain := isChain_keepAtEnd hsep hkeep (show pieces separator text ≠ [] from pieces_ne_nil)
  generalize keptItems keep [] _ = items at hlaid hpieces hflat hchain
  have htext : text = lay items ++ w := by
    obtain ⟨first, rest, hsplit, he, -⟩ := exists_pieces hsep text
    rw [← hflat, hsplit, flatten_keepAtEnd, ← he]
  rw [← hpieces, measured_items ht.length]
  have hnone : Laid isSpace ([] : Items) := List.forall_mem_nil _
  have hcollect := settles_collect ht separator hlaid hnone (List.forall_mem_nil _)
    fun i _ _ => hfurther i.2
  conv => arg 1; rw [htext]
  refine ((settles_append_blank_iff hw).mpr hcollect).congr ?_
  rw [List.nil_append, collected_of_isChain hchain, List.forall_mem_map]
  exact forall₂_congr fun i _ => imp_congr_left (decide_eq_true_iff)

variable {separators : List (List Char)}

private theorem settles_splitTextFrom (ht : t.Plain) (re : Re) {last : List Char}
    (hlast : last = [] → [] ∈ separators) (text : List Char) :
    Settles text (t.KeepsFrom re separators text) (t.splitTextFrom re last separators text) := by
  induction separators generalizing text with
  | nil =>
    have hsep : last ≠ [] := fun h => nomatch hlast h
    rw [splitTextFrom, splitTextAt, splitTextWithRegex, if_neg hsep, if_pos ht.keep]
    refine (settles_collect_kept ht hsep (fun _ => isSpace_of_not_notBlank) (by decide) text none
      (fun _ => True) fun s => settles_self s).congr ?_
    simp [KeepsFrom]
  | cons separator newSeparators ih =>
    rw [splitTextFrom, KeepsFrom]
    split
    next hsep => exact settles_splitTextAt_characters ht re text
    next hsep =>
      have ih := ih fun h => (List.mem_cons.mp (hlast h)).resolve_left (Ne.symm hsep)
      cases re.search separator text with
      | error e => exact not_false
      | ok found =>
        cases found with
        | false => exact ih text
        | true =>
          change Settles _ _ (t.splitTextAt re text separator _)
          rw [splitTextAt, splitTextWithRegex, if_neg hsep, if_pos ht.keep]
          refine settles_collect_kept ht hsep (fun _ => isSpace_of_not_notBlank) (by decide) text
            _ _ fun s => ?_
          split
          next hnew =>
            refine (settles_self s).congr ?_
            rw [hnew, KeepsFrom]
          next => exact ih s

private theorem settles_splitTextBy (ht : t.Plain) (re : Re) (text : List Char)
    (hne : separators ≠ []) :
    Settles text (t.KeepsFrom re separators text) (t.splitTextBy re text separators) := by
  rw [splitTextBy, List.getLast?_eq_some_getLast hne]
  exact settles_splitTextFrom ht re (fun h => h ▸ List.getLast_mem hne) text

private theorem splitOnP_map {β γ : Type} (g : β → γ) (q : γ → Bool) (l : List β) :
    (l.map g).splitOnP q = (l.splitOnP fun b => q (g b)).map (List.map g) := by
  induction l with
  | nil => simp
  | cons b l ih =>
    rw [List.map_cons, List.splitOnP_cons_eq_if_modifyHead, List.splitOnP_cons_eq_if_modifyHead, ih]
    split
    · rfl
    · cases l.splitOnP fun b => q (g b) <;> rfl

theorem isChain_apart_iff {items : Items} (h : ∀ i ∈ items, i.1 ≠ []) :
    items.IsChain (Apart isSpace) ↔ (items.map Prod.snd).IsChain SpacesApart := by
  induction items with
  | nil => simp
  | cons i items ih =>
    have hrest := (List.forall_mem_cons.mp h).2
    rw [List.map_cons, List.isChain_cons, List.isChain_cons, ih hrest, List.head?_map]
    refine and_congr_left fun _ => ?_
    cases items with
    | nil => simp
    | cons j items => simp [Apart, SpacesApart, hrest j List.mem_cons_self]

theorem packedApart_iff {items : Items} (h : ∀ i ∈ items, i.1 ≠ []) :
    t.PackedApart items ↔ ∀ bin ∈ nextFit (fun s => (s.length : Int)) t.chunkSize
      (items.map Prod.snd), bin.IsChain SpacesApart := by
  rw [nextFit_map, List.forall_mem_map]
  refine forall₂_congr fun bin hbin => ?_
  have hflat : (t.bins items).flatten = items := flatten_nextFit items
  have hgaps : ∀ i ∈ bin, i.1 ≠ [] := by
    intro i hi
    refine h i ?_
    rw [← hflat]
    exact List.mem_flatten_of_mem hbin hi
  exact isChain_apart_iff hgaps

private theorem settles_collect_spaces (ht : t.Plain) (text : List Char)
    {further : Option (List Char → Except String (List (List Char)))} {kept : List Char → Prop}
    (hfurther : ∀ s, Settles s (kept s)
      (further.elim (.ok [s]) fun splitFurther => splitFurther s)) :
    Settles text
      (t.PiecesApart ((splitSpaces text).filter notBlank) ∧
        ∀ s ∈ (splitSpaces text).filter notBlank, t.chunkSize ≤ s.length → kept s)
      (t.collect [' '] further (t.measured ((splitSpaces text).filter notBlank)) []) := by
  obtain ⟨items, w, hlaid, hpieces, hw, hlay, hgaps⟩ := exists_spaceItems text
  have hspace : ∀ c ∈ [' '], isSpace c = true := List.forall_mem_singleton.mpr (by decide)
  rw [← hpieces, measured_items ht.length, ← settles_blank_append_iff hspace]
  have hnone : Laid isSpace ([] : Items) := List.forall_mem_nil _
  have hcollect := settles_collect ht [' '] hlaid hnone (List.forall_mem_nil _)
    fun i _ _ => hfurther i.2
  conv => arg 1; rw [show [' '] ++ text = lay items ++ w from hlay]
  refine ((settles_append_blank_iff hw).mpr hcollect).congr ?_
  rw [List.nil_append, Collected, PiecesApart, splitOnP_map, List.forall_mem_map,
    List.forall_mem_map]
  refine and_congr (forall₂_congr fun run hrun => packedApart_iff fun i hi => hgaps i ?_)
    (forall₂_congr fun i _ => imp_congr_left decide_eq_true_iff)
  obtain ⟨first, rest, hsplit, hfirst, hrest⟩ := infix_of_mem_splitOnP t.long items
  have hrun' : run ∈ items.splitOnP t.long := hrun
  rw [hsplit] at hrun'
  rcases List.mem_cons.mp hrun' with rfl | hrun'
  · exact hfirst.subset hi
  · exact (hrest run hrun').subset hi

end TextSplitter

namespace FixedRecursiveCharacterTextSplitter

open TextSplitter

variable {f : FixedRecursiveCharacterTextSplitter}

/-- A stretch that is too long is split without joining two words: where it is split at spaces or
into characters no bin does, and the long pieces are kept. -/
def KeepsStretch (f : FixedRecursiveCharacterTextSplitter) (re : Re) (text : List Char) : Prop :=
  let (separator, newSeparators) := f.choose text
  if separator = [] then f.PackedApart (characterItems text)
  else
    (separator = [' '] → f.PiecesApart (f.splitsAt text separator)) ∧
      ∀ s ∈ f.splitsAt text separator, f.chunkSize ≤ s.length → f.KeepsFrom re newSeparators s

/-- The stretches between the fixed separators. -/
def stretches (f : FixedRecursiveCharacterTextSplitter) (text : List Char) : List (List Char) :=
  if f.fixedSeparator = [] then [text] else pieces f.fixedSeparator text

/-- The fixed separator has no letters or is not in the text, and the stretches that are too long
are split without joining two words. -/
def KeepsWords (f : FixedRecursiveCharacterTextSplitter) (re : Re) (text : List Char) : Prop :=
  (f.fixedSeparator = [] ∨ ¬ f.fixedSeparator <:+: text ∨
    ∀ c ∈ f.fixedSeparator, isSpace c = true) ∧
  ∀ stretch ∈ f.stretches text, f.chunkSize < stretch.length → f.KeepsStretch re stretch

private theorem settles_characterLoop (hf : f.Plain) (text : List Char) :
    Settles text (f.PackedApart (characterItems text))
      (.ok (f.characterLoop (f.measured ((text.map fun c => [c]).filter notBlank)) [] 0 [] 0)) := by
  obtain ⟨hlaid, hpieces, w, hw, htext⟩ := characterItems_side_by_side text
  rw [← hpieces]
  rw [measured_items hf.length]
  have hbins := settles_nextFit f.toTextSplitter hlaid
  conv => arg 1; rw [htext]
  exact (settles_append_blank_iff hw).mpr
    ((settles_ok_congr (characterLoop_bins hf _ [] hlaid)).mpr hbins)

private theorem settles_recursiveSplitText (hf : f.Plain) (re : Re) (text : List Char) :
    Settles text (f.KeepsStretch re text) (f.recursiveSplitText re text) := by
  rw [recursiveSplitText, KeepsStretch]
  generalize f.choose text = chosen
  obtain ⟨separator, newSeparators⟩ := chosen
  dsimp only
  have hfurther (s : List Char) : Settles s (f.KeepsFrom re newSeparators s)
      ((if newSeparators = [] then none else some fun s => f.splitTextBy re s newSeparators).elim
        (.ok [s]) fun splitFurther => splitFurther s) := by
    split
    next hnew =>
      refine (settles_self s).congr ?_
      rw [hnew, KeepsFrom]
    next hnew => exact settles_splitTextBy hf re s hnew
  split
  next hsep =>
    have hsplits : f.splitsAt text separator = (text.map fun c => [c]).filter notBlank := by
      rw [splitsAt, hsep]
      rfl
    rw [hsplits]
    exact settles_characterLoop hf text
  next hsep =>
    by_cases hspace : separator = [' ']
    · have hsplits : f.splitsAt text separator = (splitSpaces text).filter notBlank := by
        rw [splitsAt, hspace]
        rfl
      rw [hsplits]
      refine Settles.congr ?_ (and_congr_left fun _ => (forall_prop_of_true hspace).symm)
      rw [hspace]
      exact settles_collect_spaces hf text hfurther
    · obtain ⟨keep, hkeep, hnil, hsplits⟩ : ∃ keep : List Char → Bool,
          (∀ s, keep s = false → ∀ c ∈ s, isSpace c = true) ∧ keep [] = false ∧
            f.splitsAt text separator =
              (keepAtEnd separator (pieces separator text)).filter keep := by
        rw [splitsAt, if_neg hsep, if_neg hspace, if_pos hf.keep]
        split
        · refine ⟨fun s => decide (s ≠ []), fun s hs => ?_, by decide, rfl⟩
          rw [of_not_not (of_decide_eq_false hs)]
          exact List.forall_mem_nil _
        · exact ⟨notBlank, fun _ => isSpace_of_not_notBlank, by decide, rfl⟩
      rw [hsplits]
      exact (settles_collect_kept hf hsep hkeep hnil text _ _ hfurther).congr
        (and_iff_right fun h => absurd h hspace).symm

private theorem settles_splitChunk (hf : f.Plain) (re : Re) (stretch : List Char) :
    Settles stretch (f.chunkSize < stretch.length → f.KeepsStretch re stretch)
      (f.splitChunk re (stretch, stretch.length)) := by
  rw [splitChunk]
  split
  next hlong => exact (settles_recursiveSplitText hf re stretch).congr (imp_iff_right hlong).symm
  next hshort =>
    exact (settles_self stretch).congr (iff_of_true trivial fun hlong => absurd hlong hshort)

/-- Stretches split one after the other. -/
def splitAll (f : FixedRecursiveCharacterTextSplitter) (re : Re) (stretches : List (List Char)) :
    Except String (List (List Char)) := do
  let finalChunks ← (stretches.map fun s => (s, (s.length : Int))).mapM (f.splitChunk re)
  return finalChunks.flatten

theorem splitAll_cons (re : Re) (stretch : List Char) (stretches : List (List Char)) :
    f.splitAll re (stretch :: stretches) =
      f.splitChunk re (stretch, stretch.length) >>= fun chunks =>
        f.splitAll re stretches >>= fun chunks' => pure (chunks ++ chunks') := by
  rw [splitAll, splitAll, List.map_cons, List.mapM_cons]
  cases f.splitChunk re (stretch, stretch.length) with
  | error e => rfl
  | ok chunks =>
    cases (stretches.map fun s : List Char => (s, (s.length : Int))).mapM (f.splitChunk re) with
    | error e => rfl
    | ok finalChunks => rfl

private theorem settles_splitAll (hf : f.Plain) (re : Re) {gap : List Char}
    (first : List Char) (rest : List (List Char))
    (hgap : rest = [] ∨ ∀ c ∈ gap, isSpace c = true) :
    Settles (first ++ rest.flatMap (gap ++ ·))
      (∀ stretch ∈ first :: rest, f.chunkSize < stretch.length → f.KeepsStretch re stretch)
      (f.splitAll re (first :: rest)) := by
  induction rest generalizing first with
  | nil =>
    have hsplit := settles_splitChunk hf re first
    rw [splitAll, List.map_singleton, List.mapM_cons, List.mapM_nil, List.flatMap_nil,
      List.append_nil]
    refine Settles.congr ?_ List.forall_mem_singleton.symm
    cases hchunks : f.splitChunk re (first, first.length) with
    | error e => rwa [hchunks] at hsplit
    | ok chunks =>
      rw [hchunks] at hsplit
      change Settles _ _ (.ok (List.flatten [chunks]))
      rwa [List.flatten_singleton]
  | cons next rest ih =>
    have hblank := hgap.resolve_left (List.cons_ne_nil _ _)
    have hrest := (settles_blank_append_iff hblank).mpr (ih next (.inr hblank))
    rw [splitAll_cons, List.flatMap_cons, List.append_assoc, List.forall_mem_cons]
    exact (settles_splitChunk hf re first).append hrest

private theorem letters_splitAll (hf : f.Plain) (re : Re) (stretches : List (List Char))
    {chunks : List (List Char)} (h : f.splitAll re stretches = .ok chunks) :
    letters isSpace stretches.flatten = letters isSpace chunks.flatten := by
  induction stretches generalizing chunks with
  | nil => cases h; rfl
  | cons stretch stretches ih =>
    rw [splitAll_cons] at h
    obtain ⟨first, hfirst, hbind⟩ := Result.bind_eq_ok.mp h
    obtain ⟨rest, hrest, he⟩ := Result.bind_eq_ok.mp hbind
    cases he
    have hsettles := settles_splitChunk hf re stretch
    rw [hfirst] at hsettles
    rw [List.flatten_cons, letters_append, hsettles.1, ih hrest, List.flatten_append,
      letters_append]

private theorem letters_lost {gap : List Char} (first : List Char) {rest : List (List Char)}
    (hrest : rest ≠ []) (hgap : ¬ ∀ c ∈ gap, isSpace c = true) :
    letters isSpace (first ++ rest.flatMap (gap ++ ·)) ≠
      letters isSpace (first :: rest).flatten := by
  have hpos : 0 < (letters isSpace gap).length := by
    rw [List.length_pos_iff]
    intro hnil
    refine hgap fun c hc => ?_
    by_contra hletter
    have hmem : c ∈ letters isSpace gap := List.mem_filter.mpr ⟨hc, by simp [hletter]⟩
    rw [hnil] at hmem
    cases hmem
  have hcount (stretches : List (List Char)) :
      (letters isSpace (stretches.flatMap (gap ++ ·))).length =
        (letters isSpace stretches.flatten).length +
          stretches.length * (letters isSpace gap).length := by
    induction stretches with
    | nil => simp [letters]
    | cons s stretches ih =>
      rw [List.flatMap_cons, List.flatten_cons]
      simp only [letters_append, List.length_append, List.length_cons, ih, Nat.add_mul]
      omega
  intro he
  have hlength := congrArg List.length he
  have hmany : 0 < rest.length * (letters isSpace gap).length :=
    Nat.mul_pos (List.length_pos_iff.mpr hrest) hpos
  rw [List.flatten_cons] at hlength
  simp only [letters_append, List.length_append, hcount] at hlength
  omega

/-- The chunks keep the text exactly if the fixed separator takes no letters out of it and no bin
joins two words. -/
theorem keeps_iff_keepsWords (hf : f.Plain) (re : Re) (text : List Char) :
    (∃ chunks, f.splitText re text = .ok chunks ∧ Keeps isSpace text chunks) ↔
      f.KeepsWords re text := by
  obtain ⟨first, rest, hstretches, htext, hrest⟩ : ∃ first rest,
      f.stretches text = first :: rest ∧ text = first ++ rest.flatMap (f.fixedSeparator ++ ·) ∧
        (rest = [] ↔ f.fixedSeparator = [] ∨ ¬ f.fixedSeparator <:+: text) := by
    rw [stretches]
    split
    next h => exact ⟨text, [], rfl, by simp, by simp [h]⟩
    next h =>
      obtain ⟨first, rest, hpieces, htext, hrest⟩ := exists_pieces h text
      exact ⟨first, rest, hpieces, htext, by rw [hrest, or_iff_right h]⟩
  have hsplit : f.splitText re text = f.splitAll re (first :: rest) := by
    rw [splitText, splitAll, ← hstretches, ← measured_eq hf.length]
    rfl
  rw [KeepsWords, hsplit, hstretches, ← or_assoc, ← hrest]
  by_cases hgap : rest = [] ∨ ∀ c ∈ f.fixedSeparator, isSpace c = true
  · rw [and_iff_right hgap]
    have hsettles := settles_splitAll hf re first rest hgap
    rw [← htext] at hsettles
    constructor
    · rintro ⟨chunks, hchunks, hkeeps⟩
      rw [hchunks] at hsettles
      exact hsettles.2.mp hkeeps
    · intro h
      revert hsettles
      cases f.splitAll re (first :: rest) with
      | error e => exact fun hsettles => absurd h hsettles
      | ok chunks => exact fun hsettles => ⟨chunks, rfl, hsettles.2.mpr h⟩
  · refine iff_of_false ?_ fun h => hgap h.1
    rintro ⟨chunks, hchunks, hkeeps⟩
    obtain ⟨hne, hletter⟩ := not_or.mp hgap
    refine letters_lost first hne hletter ?_
    rw [← htext, hkeeps.letters_eq, letters_splitAll hf re _ hchunks]

/-- Chunks of three characters without overlap, with the separators kept. -/
def threes : FixedRecursiveCharacterTextSplitter :=
  init ⟨3, 0, characterLengths, true, by decide⟩

theorem keeps_iff_keepsWords_threes :
    (∃ chunks, threes.splitText literalRe "a b c".toList = .ok chunks ∧
        Keeps isSpace "a b c".toList chunks) ↔
      threes.KeepsWords literalRe "a b c".toList :=
  keeps_iff_keepsWords ⟨rfl, rfl, rfl⟩ literalRe "a b c".toList

private theorem splitText_threes :
    threes.splitText literalRe "a b c".toList = .ok ["abc".toList] := by
  have hpieces : pieces ['\n', '\n'] "a b c".toList = ["a b c".toList] :=
    pieces_of_not_mem (by decide)
  rw [splitText]
  change (do
    let finalChunks ← (threes.measured (pieces ['\n', '\n'] "a b c".toList)).mapM _
    return finalChunks.flatten) = _
  rw [hpieces]
  decide

/-- Three words become one. -/
theorem spaces_dropped :
    ¬ ∃ chunks, threes.splitText literalRe "a b c".toList = .ok chunks ∧
      Keeps isSpace "a b c".toList chunks := by
  rintro ⟨chunks, hchunks, hkeeps⟩
  rw [splitText_threes] at hchunks
  cases hchunks
  cases hkeeps with
  | cons _ hrest =>
    cases hrest with
    | cons hb _ => exact absurd (hb.2 rfl) (by decide)

end FixedRecursiveCharacterTextSplitter
end PlatformSpec.Rag
