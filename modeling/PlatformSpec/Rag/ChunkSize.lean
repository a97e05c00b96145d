import PlatformSpec.Base.Result
import PlatformSpec.Rag.RecursiveSplitter

/-!
# The size of the chunks

When the separators end with characters, no chunk is longer than the splitter's chunk size.
-/

namespace PlatformSpec.Rag

open Base Base.Split Base.Result

/-- The exceptions of `re` for some of the separators. -/
def Re.Raises (re : Re) (separators : List (List Char)) (e : String) : Prop :=
  ∃ separator ∈ separators, ∃ text, re.search separator text = .error e ∨
    (re.split separator text >>= allTexts) = .error e

namespace TextSplitter

/-- Lengths are numbers of characters, and what is repeated is shorter than a chunk. -/
structure CountsCharacters (t : TextSplitter) : Prop where
  length : t.lengthFunction = characterLengths
  overlap_nonneg : 0 ≤ t.chunkOverlap
  overlap_lt : t.chunkOverlap < t.chunkSize

variable {t : TextSplitter} {separator : List Char} {d : List Char}
  {docs currentDoc : List (List Char)}

/-- The length of the pieces joined. -/
def joined (separator : List Char) (docs : List (List Char)) : Int :=
  (separator.intercalate docs).length

@[simp] theorem joined_nil : joined separator [] = 0 := rfl

theorem joined_cons (d : List Char) (docs : List (List Char)) :
    joined separator (d :: docs) =
      d.length + (if docs = [] then 0 else (separator.length : Int)) + joined separator docs := by
  cases docs with
  | nil => simp [joined]
  | cons d' docs =>
    simp only [joined, List.intercalate_cons_cons, List.length_append,
      if_neg (List.cons_ne_nil _ _)]
    omega

theorem joined_concat (docs : List (List Char)) (d : List Char) :
    joined separator (docs ++ [d]) =
      grown separator.length (joined separator docs) d.length docs := by
  induction docs with
  | nil => simp [joined, grown]
  | cons d' docs ih =>
    rw [List.cons_append, joined_cons, ih, joined_cons, if_neg (by simp)]
    simp only [grown, if_neg (List.cons_ne_nil d' docs)]
    split <;> omega

theorem joined_nonneg : 0 ≤ joined separator docs := Int.natCast_nonneg _

theorem length_joinDocs {doc : List Char} (h : doc ∈ (joinDocs docs separator).toList) :
    (doc.length : Int) ≤ joined separator docs := by
  rw [Option.mem_toList, joinDocs] at h
  simp only [Option.ite_none_left_eq_some, Option.some.injEq] at h
  rw [← h.2, joined, Int.ofNat_le]
  exact ((prefix_stripRight _).length_le).trans (List.dropWhile_suffix _).length_le

theorem lengthOf_eq (h : t.lengthFunction = characterLengths) (text : List Char) :
    t.lengthOf text = .ok text.length := by
  simp [lengthOf, h, characterLengths]

theorem measured_eq (h : t.lengthFunction = characterLengths) (splits : List (List Char)) :
    t.measured splits = splits.map fun s => (s, (s.length : Int)) := by
  rw [measured, h, characterLengths]
  induction splits with
  | nil => rfl
  | cons s splits ih => rw [List.map_cons, List.map_cons, List.zip_cons_cons, ih]

/-- The document that is left has room for the next piece, and on the way to it the total is the
length of what is left. -/
theorem popDocs_spec (hlength : t.lengthFunction = characterLengths) (hoverlap : 0 ≤ t.chunkOverlap)
    {len : Int} (hlen : len ≤ t.chunkSize) (hne : separator = [] ∨ [] ∉ currentDoc) :
    ∃ kept, kept <:+ currentDoc ∧
      grown separator.length (joined separator kept) len kept ≤ t.chunkSize ∧
      ∀ rest, kept <:+ rest → rest <:+ currentDoc →
        t.popDocs separator.length len rest (joined separator rest) =
          .ok (kept, joined separator kept) := by
  induction currentDoc with
  | nil =>
    refine ⟨[], List.suffix_refl _, by simpa [grown] using hlen, fun rest _ hrest => ?_⟩
    rw [List.suffix_nil.mp hrest, popDocs, if_neg (by rw [joined_nil]; omega)]
  | cons d currentDoc ih =>
    by_cases hpop : t.chunkOverlap < joined separator (d :: currentDoc) ∨
        t.chunkSize < grown separator.length (joined separator (d :: currentDoc)) len
          (d :: currentDoc) ∧ 0 < joined separator (d :: currentDoc)
    · obtain ⟨kept, hsuffix, hroom, hkept⟩ :=
        ih (hne.imp_right fun h hmem => h (List.mem_cons_of_mem _ hmem))
      refine ⟨kept, hsuffix.trans (List.suffix_cons _ _), hroom, fun rest hmore hrest => ?_⟩
      rcases List.suffix_cons_iff.mp hrest with rfl | hrest
      · have hleft : joined separator (d :: currentDoc) -
            ((d.length : Int) + if currentDoc = [] then 0 else (separator.length : Int)) =
              joined separator currentDoc := by
          have hcons : joined separator (d :: currentDoc) = _ := joined_cons d currentDoc
          omega
        rw [popDocs, if_pos hpop, lengthOf_eq hlength]
        change t.popDocs _ _ _ _ = _
        rw [hleft]
        exact hkept _ hsuffix (List.suffix_refl _)
      · exact hkept rest hmore hrest
    · refine ⟨_, List.suffix_refl _, ?_, fun rest hmore hrest => ?_⟩
      · by_contra hlong
        have hzero : joined separator (d :: currentDoc) = 0 := by
          have hnonneg : 0 ≤ joined separator (d :: currentDoc) := joined_nonneg
          omega
        rcases hne with rfl | hne
        · rw [grown, hzero] at hlong
          have hnil : (([] : List Char).length : Int) = 0 := rfl
          split at hlong <;> omega
        · have hd : 0 < d.length :=
            List.length_pos_iff.mpr fun h => hne (h ▸ List.mem_cons_self)
          have hcons : joined separator (d :: currentDoc) = _ := joined_cons d currentDoc
          have hnonneg : 0 ≤ joined separator currentDoc := joined_nonneg
          split at hcons <;> omega
      · rw [hrest.eq_of_length_le hmore.length_le, popDocs, if_neg hpop]

/-- Documents within the chunk size. -/
def Within (t : TextSplitter) (docs : List (List Char)) : Prop :=
  ∀ doc ∈ docs, (doc.length : Int) ≤ t.chunkSize

theorem Within.append {docs' : List (List Char)} (h : t.Within docs) (h' : t.Within docs') :
    t.Within (docs ++ docs') :=
  List.forall_mem_append.mpr ⟨h, h'⟩

/-- The pieces with their lengths. -/
def sized (splits : List (List Char)) : List (List Char × Int) :=
  splits.map fun s => (s, (s.length : Int))

/-- Windows over the pieces at hand and those to come: each window but the first begins with the
last pieces of the one before. -/
inductive Windows : List (List Char) → List (List Char) → List (List (List Char)) → Prop where
  | last (currentDoc rest : List (List Char)) : Windows currentDoc rest [currentDoc ++ rest]
  | next {currentDoc new kept rest : List (List Char)} {windows : List (List (List Char))}
    (hkept : kept <:+ currentDoc ++ new) (h : Windows kept rest windows) :
    Windows currentDoc (new ++ rest) ((currentDoc ++ new) :: windows)

variable {splits : List (List Char)} {windows : List (List (List Char))} {s : List Char}

theorem Windows.shift (h : Windows (currentDoc ++ [s]) splits windows) :
    Windows currentDoc (s :: splits) windows := by
  generalize hdoc : currentDoc ++ [s] = doc at h
  cases h with
  | last =>
    subst hdoc
    rw [List.append_assoc]
    exact .last currentDoc (s :: splits)
  | next hkept h =>
    subst hdoc
    rw [List.append_assoc] at hkept ⊢
    exact .next hkept h

theorem Windows.mem (h : Windows currentDoc splits windows) (hs : s ∈ splits) :
    ∃ window ∈ windows, s ∈ window := by
  induction h with
  | last currentDoc rest => exact ⟨_, List.mem_cons_self, List.mem_append_right _ hs⟩
  | next hkept h ih =>
    rcases List.mem_append.mp hs with hnew | hrest
    · exact ⟨_, List.mem_cons_self, List.mem_append_right _ hnew⟩
    · obtain ⟨window, hmem, hs⟩ := ih hrest
      exact ⟨window, List.mem_cons_of_mem _ hmem, hs⟩

/-- The documents of windows: their pieces are joined and stripped, and blank ones left out. -/
def docsOf (separator : List Char) (windows : List (List (List Char))) : List (List Char) :=
  windows.flatMap fun window => (joinDocs window separator).toList

/-- One piece: the document grows, or it is returned and its last pieces are kept. -/
theorem mergeLoop_cons (hlength : t.lengthFunction = characterLengths)
    (hoverlap : 0 ≤ t.chunkOverlap) (hs : (s.length : Int) ≤ t.chunkSize)
    (hne : separator = [] ∨ [] ∉ currentDoc) : ∃ docs kept,
      (docs = [] ∧ kept = currentDoc ∨ docs = [currentDoc] ∧ kept <:+ currentDoc) ∧
      joined separator (kept ++ [s]) ≤ t.chunkSize ∧
      ∀ rest, t.mergeLoop separator separator.length (sized (s :: rest)) currentDoc
          (joined separator currentDoc) =
        (docsOf separator docs ++ ·) <$> t.mergeLoop separator separator.length (sized rest)
          (kept ++ [s]) (joined separator (kept ++ [s])) := by
  by_cases hcut : t.chunkSize < grown separator.length (joined separator currentDoc) s.length
      currentDoc ∧ currentDoc ≠ []
  · obtain ⟨kept, hsuffix, hroom, hpop⟩ := popDocs_spec hlength hoverlap hs hne
    rw [← joined_concat] at hroom
    refine ⟨_, kept, .inr ⟨rfl, hsuffix⟩, hroom, fun rest => ?_⟩
    rw [sized, List.map_cons, mergeLoop, if_pos hcut, hpop _ hsuffix (List.suffix_refl _)]
    change (do
      let docs ← t.mergeLoop separator separator.length _ (kept ++ [s]) _
      return _ ++ docs) = _
    rw [← joined_concat, docsOf, List.flatMap_singleton]
    rfl
  · refine ⟨[], currentDoc, .inl ⟨rfl, rfl⟩, ?_, fun rest => ?_⟩
    · rw [joined_concat]
      by_cases hempty : currentDoc = []
      · rw [hempty, joined_nil, grown, if_pos rfl]
        omega
      · exact Int.not_lt.mp fun hlong => hcut ⟨hlong, hempty⟩
    · rw [sized, List.map_cons, mergeLoop, if_neg hcut, ← joined_concat, docsOf]
      exact (id_map _).symm

private theorem nil_notMem_concat {kept : List (List Char)}
    (hsuffix : kept <:+ currentDoc) (hne : separator = [] ∨ [] ∉ currentDoc ++ s :: splits) :
    separator = [] ∨ [] ∉ (kept ++ [s]) ++ splits := by
  refine hne.imp_right fun h hmem => h ?_
  rw [List.append_assoc] at hmem
  exact (List.mem_append.mp hmem).elim (fun h => List.mem_append_left _ (hsuffix.subset h))
    (List.mem_append_right _)

theorem mergeLoop_windows (hlength : t.lengthFunction = characterLengths)
    (hoverlap : 0 ≤ t.chunkOverlap) (hsplits : ∀ s ∈ splits, (s.length : Int) ≤ t.chunkSize)
    (hne : separator = [] ∨ [] ∉ currentDoc ++ splits)
    (hsize : joined separator currentDoc ≤ t.chunkSize) : ∃ windows,
      Windows currentDoc splits windows ∧
      (∀ window ∈ windows, joined separator window ≤ t.chunkSize) ∧
      t.mergeLoop separator separator.length (sized splits) currentDoc
        (joined separator currentDoc) = .ok (docsOf separator windows) := by
  induction splits generalizing currentDoc with
  | nil =>
    refine ⟨_, .last currentDoc [], ?_, ?_⟩
    · simpa using hsize
    · simp [sized, mergeLoop, docsOf]
  | cons s splits ih =>
    obtain ⟨hs, hrest⟩ := List.forall_mem_cons.mp hsplits
    have hdoc : separator = [] ∨ [] ∉ currentDoc :=
      hne.imp_right fun h hmem => h (List.mem_append_left _ hmem)
    obtain ⟨docs, kept, hcases, hroom, hloop⟩ := mergeLoop_cons hlength hoverlap hs hdoc
    rw [hloop]
    rcases hcases with ⟨rfl, rfl⟩ | ⟨rfl, hsuffix⟩
    · obtain ⟨windows, hwindows, hwithin, hmerge⟩ :=
        ih hrest (nil_notMem_concat (List.suffix_refl _) hne) hroom
      exact ⟨windows, hwindows.shift, hwithin, by rw [hmerge]; rfl⟩
    · obtain ⟨windows, hwindows, hwithin, hmerge⟩ :=
        ih hrest (nil_notMem_concat hsuffix hne) hroom
      refine ⟨currentDoc :: windows, ?_, List.forall_mem_cons.mpr ⟨hsize, hwithin⟩, ?_⟩
      · have hnext := @Windows.next currentDoc [] _ _ _ (by simpa using hsuffix) hwindows.shift
        simpa using hnext
      · rw [hmerge]
        exact congrArg Except.ok (by simp [docsOf])

theorem within_docsOf (h : ∀ window ∈ windows, joined separator window ≤ t.chunkSize) :
    t.Within (docsOf separator windows) := by
  intro doc hdoc
  obtain ⟨window, hwindow, hdoc⟩ := List.mem_flatMap.mp hdoc
  exact Int.le_trans (length_joinDocs hdoc) (h window hwindow)

theorem mergeSplits_spec (ht : t.CountsCharacters) {splits : List (List Char)}
    (hsplits : ∀ s ∈ splits, s ≠ [] ∧ (s.length : Int) ≤ t.chunkSize) :
    ∃ docs, t.mergeSplits (splits.map fun s => (s, (s.length : Int))) separator = .ok docs ∧
      t.Within docs := by
  have hnil : [] ∉ ([] ++ splits : List (List Char)) := fun hmem => (hsplits [] hmem).1 rfl
  have hsize : joined separator [] ≤ t.chunkSize :=
    Int.le_trans ht.overlap_nonneg (Int.le_of_lt ht.overlap_lt)
  obtain ⟨windows, -, hwithin, hmerge⟩ := mergeLoop_windows ht.length ht.overlap_nonneg
    (fun s hs => (hsplits s hs).2) (.inr hnil) hsize
  rw [mergeSplits, lengthOf_eq ht.length]
  exact ⟨_, hmerge, within_docsOf hwithin⟩

private theorem infix_joinDocs (separator : List Char) (h : s ∈ docs) (hs : s ≠ [])
    (hstrip : stripBoth isSpace s = s) : ∃ doc ∈ (joinDocs docs separator).toList, s <:+: doc := by
  obtain ⟨front, back, htext⟩ := infix_intercalate separator h
  obtain ⟨hfirst, hlast⟩ := stripBoth_eq_self_iff.mp hstrip
  have hdoc := stripBoth_append hs hfirst hlast front back
  refine ⟨_, ?_, _, _, hdoc.symm⟩
  rw [joinDocs, ← htext, if_neg, Option.mem_toList]
  rw [hdoc]
  simp [hs]

/-- Merging pieces shorter than a chunk: the running total is the length of the document at hand
wherever the loops pass, the documents are those of windows over all pieces, and they are within
the chunk size. -/
theorem mergeSplits_covers (hlength : t.lengthFunction = characterLengths)
    (hoverlap : 0 ≤ t.chunkOverlap) (hsplits : ∀ s ∈ splits, (s.length : Int) < t.chunkSize)
    (hne : separator = [] ∨ [] ∉ splits) :
    (∃ windows, Windows [] splits windows ∧
      t.mergeSplits (sized splits) separator = .ok (docsOf separator windows) ∧
      t.Within (docsOf separator windows) ∧
      ∀ s ∈ splits, s ≠ [] → stripBoth isSpace s = s →
        ∃ doc ∈ docsOf separator windows, s <:+: doc) ∧
    (∀ front back, splits = front ++ back → ∃ docs currentDoc, currentDoc <:+ front ∧
      t.mergeSplits (sized splits) separator = (docs ++ ·) <$> t.mergeLoop separator
        separator.length (sized back) currentDoc (joined separator currentDoc)) ∧
    ∀ s ∈ splits, ∀ currentDoc, currentDoc <:+: splits → ∃ kept, kept <:+ currentDoc ∧
      ∀ rest, kept <:+ rest → rest <:+ currentDoc →
        t.popDocs separator.length s.length rest (joined separator rest) =
          .ok (kept, joined separator kept) := by
  have hle : ∀ s ∈ splits, (s.length : Int) ≤ t.chunkSize := fun s hs => Int.le_of_lt (hsplits s hs)
  have hmerge : t.mergeSplits (sized splits) separator =
      t.mergeLoop separator separator.length (sized splits) [] (joined separator []) := by
    rw [mergeSplits, lengthOf_eq hlength]
    rfl
  refine ⟨?_, fun front back hsplit => ?_, fun s hs currentDoc hdoc => ?_⟩
  · have hsize : joined separator [] ≤ t.chunkSize := Int.le_trans hoverlap t.overlap_le
    obtain ⟨windows, hwindows, hwithin, hdocs⟩ := mergeLoop_windows hlength hoverlap hle hne hsize
    refine ⟨windows, hwindows, hmerge.trans hdocs, within_docsOf hwithin, ?_⟩
    intro s hs hnil hstrip
    obtain ⟨window, hmem, hs⟩ := hwindows.mem hs
    obtain ⟨doc, hdoc, hinfix⟩ := infix_joinDocs separator hs hnil hstrip
    exact ⟨doc, List.mem_flatMap.mpr ⟨window, hmem, hdoc⟩, hinfix⟩
  · rw [hmerge, hsplit]
    rw [hsplit] at hle hne
    clear hsplit hmerge hsplits
    induction front using List.reverseRecOn generalizing back with
    | nil => exact ⟨[], [], List.suffix_refl _, (id_map _).symm⟩
    | append_singleton front s ih =>
      rw [List.append_assoc] at hle hne
      obtain ⟨docs, currentDoc, hsuffix, heq⟩ := ih (s :: back) hne hle
      have hdoc : separator = [] ∨ [] ∉ currentDoc :=
        hne.imp_right fun h hmem => h (List.mem_append_left _ (hsuffix.subset hmem))
      have hs : (s.length : Int) ≤ t.chunkSize :=
        hle s (List.mem_append_right _ List.mem_cons_self)
      obtain ⟨more, kept, hcases, -, hloop⟩ := mergeLoop_cons hlength hoverlap hs hdoc
      have hkept : kept <:+ front := by
        rcases hcases with ⟨-, rfl⟩ | ⟨-, hkept⟩
        · exact hsuffix
        · exact hkept.trans hsuffix
      refine ⟨docs ++ docsOf separator more, kept ++ [s], List.suffix_append_self_iff.mpr hkept, ?_⟩
      rw [List.append_assoc]
      refine heq.trans ?_
      rw [hloop, ← comp_map]
      congr 1
      funext rest
      simp
  · obtain ⟨kept, hsuffix, -, hpop⟩ := popDocs_spec hlength hoverlap (hle s hs)
      (hne.imp_right fun h hmem => h (hdoc.subset hmem))
    exact ⟨kept, hsuffix, hpop⟩

/-- Four characters a chunk, nothing repeated. -/
def four : TextSplitter := ⟨4, 0, characterLengths, false, by decide⟩

theorem mergeSplits_covers_four : ∃ windows, Windows [] ["ab".toList, "c".toList] windows ∧
    four.mergeSplits (sized ["ab".toList, "c".toList]) [' '] = .ok (docsOf [' '] windows) ∧
    four.Within (docsOf [' '] windows) := by
  obtain ⟨windows, hwindows, hmerge, hwithin, -⟩ := (@mergeSplits_covers four [' ']
    ["ab".toList, "c".toList] rfl (by decide) (by decide) (.inr (by decide))).1
  exact ⟨windows, hwindows, hmerge, hwithin⟩

/-- White space at the ends of a document is stripped. -/
theorem mergeSplits_strips : four.mergeSplits (sized [" a".toList]) [] = .ok ["a".toList] ∧
    ¬ ∀ s ∈ [" a".toList], ∃ doc ∈ ["a".toList], s <:+: doc :=
  ⟨rfl, by decide⟩

variable {good separators all : List (List Char)}

private theorem mergeGood_spec (separator : List Char) (ht : t.CountsCharacters)
    (hgood : ∀ s ∈ good, s ≠ [] ∧ (s.length : Int) < t.chunkSize) :
    ∃ docs, t.mergeGood separator (good.map fun s => (s, (s.length : Int))) = .ok docs ∧
      t.Within docs := by
  rw [mergeGood]
  split
  next => exact ⟨[], rfl, List.forall_mem_nil _⟩
  next => exact mergeSplits_spec ht fun s hs => ⟨(hgood s hs).1, Int.le_of_lt (hgood s hs).2⟩

variable {further : Option (List Char → Except String (List (List Char)))}

/-- The pieces that are too long are split further or are no longer than a chunk. -/
theorem collect_spec (ht : t.CountsCharacters) {raised : String → Prop}
    {splits : List (List Char)} (hsplits : ∀ s ∈ splits, s ≠ [])
    (hfurther : ∀ s ∈ splits, Ends t.Within raised
      (further.elim (.ok [s]) fun splitFurther => splitFurther s))
    (hgood : ∀ s ∈ good, s ≠ [] ∧ (s.length : Int) < t.chunkSize) :
    Ends t.Within raised (t.collect separator further (splits.map fun s => (s, (s.length : Int)))
      (good.map fun s => (s, (s.length : Int)))) := by
  induction splits generalizing good with
  | nil =>
    obtain ⟨docs, hdocs, hwithin⟩ := mergeGood_spec separator ht hgood
    rw [List.map_nil, collect, hdocs]
    exact hwithin
  | cons s splits ih =>
    obtain ⟨hs, hsplits⟩ := List.forall_mem_cons.mp hsplits
    obtain ⟨hlong, hfurther⟩ := List.forall_mem_cons.mp hfurther
    rw [List.map_cons, collect]
    split
    next hshort =>
      have hgood' : ∀ s' ∈ good ++ [s], s' ≠ [] ∧ (s'.length : Int) < t.chunkSize := by
        rw [List.forall_mem_append, List.forall_mem_singleton]
        exact ⟨hgood, hs, hshort⟩
      simpa using ih hsplits hfurther hgood'
    next =>
      obtain ⟨docs, hdocs, hwithin⟩ := mergeGood_spec separator ht hgood
      rw [hdocs]
      have hnone : ∀ s ∈ ([] : List (List Char)), s ≠ [] ∧ (s.length : Int) < t.chunkSize :=
        List.forall_mem_nil _
      have hrest := ih hsplits hfurther hnone
      refine Ends.bind (p := t.Within) hwithin fun merged hmerged => ?_
      refine hlong.bind fun otherInfo hother => ?_
      exact hrest.bind fun chunks hchunks => (hmerged.append hother).append hchunks

theorem ne_nil_of_notBlank (h : notBlank s = true) : s ≠ [] := by
  rintro rfl
  simp [notBlank] at h

private theorem splitTextWithRegex_spec (re : Re)
    (hmem : separator ∈ separators) (text : List Char) (keepSeparator : Bool) :
    Ends (fun splits => ∀ s ∈ splits, s ≠ [] ∧ (separator = [] → s.length = 1))
      (re.Raises separators) (splitTextWithRegex re text separator keepSeparator) := by
  rw [splitTextWithRegex]
  split
  next =>
    intro s hs
    obtain ⟨hchar, hblank⟩ := List.mem_filter.mp hs
    obtain ⟨c, -, rfl⟩ := List.mem_map.mp hchar
    exact ⟨ne_nil_of_notBlank hblank, fun _ => rfl⟩
  next hsep =>
    split
    next =>
      exact fun s hs => ⟨ne_nil_of_notBlank (List.mem_filter.mp hs).2, fun he => absurd he hsep⟩
    next =>
      cases hsplit : re.split separator text with
      | error e => exact ⟨separator, hmem, text, .inr (by rw [hsplit]; rfl)⟩
      | ok splits =>
        cases htexts : allTexts splits with
        | error e =>
          change Ends _ _ (allTexts splits >>= _)
          rw [htexts]
          exact ⟨separator, hmem, text, .inr (by rw [hsplit]; exact htexts)⟩
        | ok texts =>
          change Ends _ _ (allTexts splits >>= _)
          rw [htexts]
          exact fun s hs => ⟨ne_nil_of_notBlank (List.mem_filter.mp hs).2, fun he => absurd he hsep⟩

theorem CountsCharacters.one_le (ht : t.CountsCharacters) : 1 ≤ t.chunkSize := by
  have := ht.overlap_nonneg
  have := ht.overlap_lt
  omega

private theorem splitTextAt_spec (ht : t.CountsCharacters) (re : Re)
    (hmem : separator ∈ separators) (text : List Char)
    (hnone : further = none → separator = []) (hsome : ∀ splitFurther, further = some splitFurther →
      ∀ s, Ends t.Within (re.Raises separators) (splitFurther s)) :
    Ends t.Within (re.Raises separators) (t.splitTextAt re text separator further) := by
  refine (splitTextWithRegex_spec re hmem text t.keepSeparator).bind fun splits hsplits => ?_
  rw [measured_eq ht.length]
  have hnone : ∀ s ∈ ([] : List (List Char)), s ≠ [] ∧ (s.length : Int) < t.chunkSize :=
    List.forall_mem_nil _
  refine collect_spec ht (fun s hs => (hsplits s hs).1) (fun s hs => ?_) hnone
  cases further with
  | none =>
    have hone := (hsplits s hs).2 (hnone rfl)
    refine List.forall_mem_singleton.mpr ?_
    rw [hone]
    exact ht.one_le
  | some splitFurther => exact hsome splitFurther rfl s

private theorem splitTextFrom_spec (ht : t.CountsCharacters) (re : Re) (last : List Char)
    (hsub : separators ⊆ all) (hnil : [] ∈ separators) (text : List Char) :
    Ends t.Within (re.Raises all) (t.splitTextFrom re last separators text) := by
  induction separators generalizing text with
  | nil => cases hnil
  | cons separator newSeparators ih =>
    have hmem := hsub List.mem_cons_self
    rw [splitTextFrom]
    split
    next hsep =>
      rw [hsep] at hmem
      exact splitTextAt_spec ht re hmem text (fun _ => rfl) (fun _ h => nomatch h)
    next hsep =>
      have hrest : [] ∈ newSeparators := (List.mem_cons.mp hnil).resolve_left (Ne.symm hsep)
      have ih := ih (fun s hs => hsub (List.mem_cons_of_mem _ hs)) hrest
      cases hsearch : re.search separator text with
      | error e => exact ⟨separator, hmem, text, .inl hsearch⟩
      | ok found =>
        cases found with
        | false => exact ih text
        | true =>
          change Ends _ _ (t.splitTextAt re text separator _)
          rw [if_neg (List.ne_nil_of_mem hrest)]
          refine splitTextAt_spec ht re hmem text (fun h => nomatch h) fun splitFurther h => ?_
          cases h
          exact ih

theorem splitTextBy_spec (ht : t.CountsCharacters) (re : Re)
    (hsub : separators ⊆ all) (hnil : [] ∈ separators) (text : List Char) :
    Ends t.Within (re.Raises all) (t.splitTextBy re text separators) := by
  rw [splitTextBy]
  split
  next h => rw [List.getLast?_eq_none_iff.mp h] at hnil; cases hnil
  next => exact splitTextFrom_spec ht re _ hsub hnil text

/-- The part at hand is within the chunk size, and what of it is repeated within the overlap. -/
theorem characterLoop_spec (ht : t.CountsCharacters) {splits : List (List Char)}
    (hsplits : ∀ s ∈ splits, s.length = 1) (currentPart overlapPart : List Char)
    (hcurrent : (currentPart.length : Int) ≤ t.chunkSize)
    (hoverlap : overlapPart = [] ∨
      overlapPart.length + (t.chunkSize - t.chunkOverlap) ≤ (currentPart.length : Int)) :
    t.Within (t.characterLoop (splits.map fun s => (s, (s.length : Int))) currentPart
      currentPart.length overlapPart overlapPart.length) := by
  have hlt := ht.overlap_lt
  have hnonneg := ht.overlap_nonneg
  induction splits generalizing currentPart overlapPart with
  | nil =>
    rw [List.map_nil, characterLoop]
    split
    · exact List.forall_mem_nil _
    · exact List.forall_mem_singleton.mpr hcurrent
  | cons s splits ih =>
    obtain ⟨hs, hsplits⟩ := List.forall_mem_cons.mp hsplits
    have hlength (part : List Char) : ((part ++ s).length : Int) = part.length + s.length := by
      rw [List.length_append, Int.natCast_add]
    have hpart := hlength currentPart
    rw [List.map_cons, characterLoop]
    split
    next hfirst =>
      rw [← hlength]
      exact ih hsplits _ _ (by omega) (hoverlap.imp_right fun h => by omega)
    next hfirst =>
      split
      next hsecond =>
        rw [← hlength, ← hlength]
        refine ih hsplits _ _ (by omega) (.inr ?_)
        have hrepeated := hlength overlapPart
        rcases hoverlap with rfl | hoverlap
        · rw [List.length_nil] at hrepeated
          omega
        · omega
      next hthird =>
        have hrepeated : (overlapPart.length : Int) ≤ t.chunkOverlap := by
          rcases hoverlap with rfl | hoverlap
          · rw [List.length_nil]
            omega
          · omega
        refine List.forall_mem_cons.mpr ⟨hcurrent, ?_⟩
        rw [Int.add_comm, ← hlength]
        exact ih hsplits _ _ (by rw [hlength]; omega) (.inl rfl)

end TextSplitter

namespace FixedRecursiveCharacterTextSplitter

open TextSplitter

variable {f : FixedRecursiveCharacterTextSplitter}

private theorem firstSeparator_spec (last text : List Char) {separators : List (List Char)}
    (hnil : [] ∈ separators) :
    let chosen := firstSeparator last text separators
    chosen.1 = [] ∨ [] ∈ chosen.2 ∧ chosen.2 ⊆ separators := by
  induction separators with
  | nil => cases hnil
  | cons s rest ih =>
    rw [firstSeparator]
    split
    next => exact .inl rfl
    next hs =>
      have hrest : [] ∈ rest := (List.mem_cons.mp hnil).resolve_left (Ne.symm hs)
      split
      next => exact .inr ⟨hrest, List.subset_cons_self _ _⟩
      next =>
        exact (ih hrest).imp_right fun h =>
          ⟨h.1, List.Subset.trans h.2 (List.subset_cons_self _ _)⟩

private theorem splitsAt_spec (text separator : List Char) {s : List Char}
    (hs : s ∈ f.splitsAt text separator) : s ≠ [] ∧ (separator = [] → s.length = 1) := by
  rw [splitsAt] at hs
  split at hs
  next hsep =>
    rw [hsep]
    exact ⟨by simpa using (List.mem_filter.mp hs).2, fun h => nomatch h⟩
  next =>
    obtain ⟨hpiece, hblank⟩ := List.mem_filter.mp hs
    refine ⟨ne_nil_of_notBlank hblank, fun hsep => ?_⟩
    rw [if_pos hsep] at hpiece
    obtain ⟨c, -, rfl⟩ := List.mem_map.mp hpiece
    rfl

private theorem recursiveSplitText_spec (hf : f.CountsCharacters) (hnil : [] ∈ f.separators)
    (re : Re) (text : List Char) :
    Ends f.Within (re.Raises f.separators) (f.recursiveSplitText re text) := by
  have hchosen : (f.choose text).1 = [] ∨
      [] ∈ (f.choose text).2 ∧ (f.choose text).2 ⊆ f.separators :=
    firstSeparator_spec _ text hnil
  rw [recursiveSplitText]
  generalize f.choose text = chosen at hchosen ⊢
  obtain ⟨separator, newSeparators⟩ := chosen
  dsimp only at hchosen ⊢
  have hsplits (s : List Char) (hs : s ∈ f.splitsAt text separator) := splitsAt_spec text _ hs
  rw [measured_eq hf.length]
  split
  next hsep =>
    refine characterLoop_spec hf (fun s hs => (hsplits s hs).2 hsep) [] [] ?_ (.inl rfl)
    have := hf.one_le
    simp only [List.length_nil]
    omega
  next hsep =>
    obtain ⟨hmem, hsub⟩ := hchosen.resolve_left hsep
    have hnone : ∀ s ∈ ([] : List (List Char)), s ≠ [] ∧ (s.length : Int) < f.chunkSize :=
      List.forall_mem_nil _
    refine collect_spec hf (fun s hs => (hsplits s hs).1) (fun s _ => ?_) hnone
    rw [if_neg (List.ne_nil_of_mem hmem)]
    exact splitTextBy_spec hf re hsub hmem s

/-- No chunk is longer than the chunk size, and only `re` raises. -/
theorem splitText_within (hf : f.CountsCharacters) (hnil : [] ∈ f.separators) (re : Re)
    (text : List Char) :
    Ends (fun chunks => ∀ chunk ∈ chunks, (chunk.length : Int) ≤ f.chunkSize)
      (re.Raises f.separators) (f.splitText re text) := by
  rw [splitText, measured_eq hf.length]
  refine Ends.bind (p := fun parts => ∀ part ∈ parts, f.Within part) (Ends.mapM ?_) ?_
  · intro chunk hchunk
    obtain ⟨s, -, rfl⟩ := List.mem_map.mp hchunk
    rw [splitChunk]
    split
    next => exact recursiveSplitText_spec hf hnil re s
    next hshort => exact List.forall_mem_singleton.mpr (Int.not_lt.mp hshort)
  · intro parts hparts chunk hchunk
    obtain ⟨part, hpart, hmem⟩ := List.mem_flatten.mp hchunk
    exact hparts part hpart chunk hmem

/-- Patterns that stand for themselves. -/
def literalRe : Re where
  search pattern text := .ok (decide (pattern <:+: text))
  split pattern text := .ok ((pieces pattern text).map some)

/-- Chunks of two characters, split at spaces only. -/
def atSpaces (separators : List (List Char)) : FixedRecursiveCharacterTextSplitter :=
  init ⟨2, 0, characterLengths, false, by decide⟩ [] (some separators)

theorem splitText_within_spaces :
    (atSpaces [[' '], []]).splitText literalRe "aa bbb".toList =
      .ok ["aa".toList, "bb".toList, "b".toList] ∧
    Ends (fun chunks => ∀ chunk ∈ chunks, (chunk.length : Int) ≤ 2)
      (literalRe.Raises [[' '], []])
      ((atSpaces [[' '], []]).splitText literalRe "aa bbb".toList) :=
  ⟨by decide, splitText_within (f := atSpaces [[' '], []]) ⟨rfl, by decide, by decide⟩ (by decide)
    literalRe "aa bbb".toList⟩

/-- A piece that no separator is left for is a chunk, however long. -/
theorem no_separator_left :
    ∃ chunks, (atSpaces [[' ']]).splitText literalRe "aa bbb".toList = .ok chunks ∧
      ¬ ∀ chunk ∈ chunks, (chunk.length : Int) ≤ (atSpaces [[' ']]).chunkSize :=
  ⟨["aa".toList, "bbb".toList], by decide, by decide⟩

end FixedRecursiveCharacterTextSplitter
end PlatformSpec.Rag
