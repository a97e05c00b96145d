import Mathlib.Data.List.Chain
import PlatformSpec.Base.Blocks
import PlatformSpec.Base.Words
import PlatformSpec.Rag.ChunkSize

/-!
# Keeping the pieces

What the loops of the recursive splitter keep of the pieces of a text, without overlap and with
the separators kept: the pieces are laid out with the blanks before them, and bins are filled in
order.
-/

namespace PlatformSpec.Rag

open Base Base.Split

/-- What is returned has the letters of the text, and keeps its words exactly under a condition;
under it nothing is raised. -/
def Settles (text : List Char) (p : Prop) : Except String (List (List Char)) → Prop
  | .error _ => ¬ p
  | .ok chunks => letters isSpace text = letters isSpace chunks.flatten ∧
      (Keeps isSpace text chunks ↔ p)

section Settles

variable {text text' w : List Char} {p q : Prop} {x y : Except String (List (List Char))}

theorem Settles.congr (h : Settles text p x) (hpq : p ↔ q) : Settles text q x := by
  rwa [propext hpq] at h

theorem settles_blank_append_iff (hw : ∀ c ∈ w, isSpace c = true) :
    Settles (w ++ text) p x ↔ Settles text p x := by
  cases x with
  | error e => rfl
  | ok chunks =>
    rw [Settles, keeps_blank_append_iff hw, ← map_fst_marks, marks_blank_append hw, map_fst_marks]
    rfl

theorem settles_append_blank_iff (hw : ∀ c ∈ w, isSpace c = true) :
    Settles (text ++ w) p x ↔ Settles text p x := by
  cases x with
  | error e => rfl
  | ok chunks =>
    rw [Settles, keeps_append_blank_iff hw, ← map_fst_marks, marks_append_blank hw, map_fst_marks]
    rfl

theorem Settles.append (hx : Settles text p x) (hy : Settles text' q y) :
    Settles (text ++ text') (p ∧ q)
      (x >>= fun chunks => y >>= fun chunks' => pure (chunks ++ chunks')) := by
  cases x with
  | error e => exact fun h => hx h.1
  | ok chunks =>
    cases y with
    | error e => exact fun h => hy h.2
    | ok chunks' =>
      refine ⟨?_, ?_⟩
      · rw [letters_append, hx.1, hy.1, List.flatten_append, letters_append]
      · rw [keeps_append_iff hx.1, hx.2, hy.2]

theorem settles_ok_congr {chunks chunks' : List (List Char)}
    (h : chunks.flatMap (marks isSpace) = chunks'.flatMap (marks isSpace)) :
    Settles text p (.ok chunks) ↔ Settles text p (.ok chunks') := by
  rw [Settles, Settles, ← map_fst_flatMap_marks, h, map_fst_flatMap_marks, Keeps, h]
  rfl

theorem settles_self (text : List Char) : Settles text True (.ok [text]) :=
  ⟨by simp, iff_of_true (keeps_self text) trivial⟩

end Settles

/-- Pieces with the blanks before them. -/
abbrev Items := List (List Char × List Char)

/-- The pieces that are kept, each with what is dropped before it. -/
def keptItems (keep : List Char → Bool) : List Char → Items → Items
  | _, [] => []
  | dropped, (gap, s) :: splits =>
    if keep s then (dropped ++ gap, s) :: keptItems keep [] splits
    else keptItems keep (dropped ++ gap ++ s) splits

section Kept

variable {keep : List Char → Bool}

theorem map_snd_keptItems (dropped : List Char) (items : Items) :
    (keptItems keep dropped items).map Prod.snd = (items.map Prod.snd).filter keep := by
  induction items generalizing dropped with
  | nil => rfl
  | cons i items ih =>
    rw [keptItems, List.map_cons]
    split
    next h => rw [List.filter_cons_of_pos h, List.map_cons, ih]
    next h => rw [List.filter_cons_of_neg h, ih]

theorem lay_keptItems (dropped : List Char) (items : Items)
    (hdropped : ∀ c ∈ dropped, isSpace c = true)
    (hgaps : ∀ i ∈ items, ∀ c ∈ i.1, isSpace c = true)
    (hkeep : ∀ i ∈ items, keep i.2 = false → ∀ c ∈ i.2, isSpace c = true) :
    ∃ w, (∀ c ∈ w, isSpace c = true) ∧
      dropped ++ lay items = lay (keptItems keep dropped items) ++ w := by
  induction items generalizing dropped with
  | nil => exact ⟨dropped, hdropped, by simp [lay, keptItems]⟩
  | cons i items ih =>
    obtain ⟨hgap, hgaps⟩ := List.forall_mem_cons.mp hgaps
    obtain ⟨hi, hkeep⟩ := List.forall_mem_cons.mp hkeep
    have hlay : dropped ++ lay (i :: items) = dropped ++ i.1 ++ i.2 ++ lay items := by
      simp [lay]
    rw [hlay, keptItems]
    split
    next h =>
      obtain ⟨w, hw, he⟩ := ih [] (List.forall_mem_nil _) hgaps hkeep
      refine ⟨w, hw, ?_⟩
      rw [List.nil_append] at he
      rw [he]
      simp [lay]
    next h =>
      refine ih (dropped ++ i.1 ++ i.2) ?_ hgaps hkeep
      rw [List.forall_mem_append, List.forall_mem_append]
      exact ⟨⟨hdropped, hgap⟩, hi (Bool.not_eq_true _ ▸ h)⟩

theorem laid_keptItems (dropped : List Char) (items : Items)
    (hdropped : ∀ c ∈ dropped, isSpace c = true)
    (hgaps : ∀ i ∈ items, ∀ c ∈ i.1, isSpace c = true)
    (hkeep : ∀ i ∈ items, keep i.2 = false → ∀ c ∈ i.2, isSpace c = true)
    (hnil : keep [] = false) : Laid isSpace (keptItems keep dropped items) := by
  induction items generalizing dropped with
  | nil => exact List.forall_mem_nil _
  | cons i items ih =>
    obtain ⟨hgap, hgaps⟩ := List.forall_mem_cons.mp hgaps
    obtain ⟨hi, hkeep⟩ := List.forall_mem_cons.mp hkeep
    rw [keptItems]
    split
    next h =>
      refine List.forall_mem_cons.mpr
        ⟨⟨?_, fun he => ?_⟩, ih [] (List.forall_mem_nil _) hgaps hkeep⟩
      · exact List.forall_mem_append.mpr ⟨hdropped, hgap⟩
      · rw [he, hnil] at h
        exact Bool.false_ne_true h
    next h =>
      refine ih (dropped ++ i.1 ++ i.2) ?_ hgaps hkeep
      rw [List.forall_mem_append, List.forall_mem_append]
      exact ⟨⟨hdropped, hgap⟩, hi (Bool.not_eq_true _ ▸ h)⟩

theorem gaps_keptItems (dropped : List Char) (items : Items) (h : ∀ i ∈ items, i.1 ≠ []) :
    ∀ i ∈ keptItems keep dropped items, i.1 ≠ [] := by
  induction items generalizing dropped with
  | nil => exact List.forall_mem_nil _
  | cons i items ih =>
    obtain ⟨hi, hitems⟩ := List.forall_mem_cons.mp h
    rw [keptItems]
    split
    · exact List.forall_mem_cons.mpr ⟨List.append_ne_nil_of_right_ne_nil _ hi, ih [] hitems⟩
    · exact ih _ hitems

end Kept

namespace TextSplitter

/-- Lengths are numbers of characters, nothing is repeated and separators are kept. -/
structure Plain (t : TextSplitter) : Prop where
  length : t.lengthFunction = characterLengths
  overlap : t.chunkOverlap = 0
  keep : t.keepSeparator = true

variable {t : TextSplitter}

/-- The bins that the splitter packs pieces in. -/
def bins (t : TextSplitter) (items : Items) : List Items :=
  nextFit (fun i => (i.2.length : Int)) t.chunkSize items

/-- No bin joins two words. -/
def PackedApart (t : TextSplitter) (items : Items) : Prop :=
  ∀ bin ∈ t.bins items, bin.IsChain (Apart isSpace)

/-- The texts of the pieces in the bins. -/
def binTexts (items : List Items) : List (List Char) :=
  items.map fun bin => (bin.map Prod.snd).flatten

private theorem settles_bins (all : List Items) (h : Laid isSpace all.flatten) :
    Settles (lay all.flatten) (∀ bin ∈ all, bin.IsChain (Apart isSpace))
      (.ok (binTexts all)) := by
  induction all with
  | nil => exact ⟨rfl, iff_of_true .nil (List.forall_mem_nil _)⟩
  | cons bin all ih =>
    rw [List.flatten_cons] at h ⊢
    obtain ⟨hbin, hall⟩ := List.forall_mem_append.mp h
    have hfirst : Settles (lay bin) (bin.IsChain (Apart isSpace))
        (.ok [(bin.map Prod.snd).flatten]) :=
      ⟨by rw [letters_lay hbin]; simp, keeps_lay_iff hbin⟩
    rw [lay_append]
    exact (hfirst.append (ih hall)).congr List.forall_mem_cons.symm

variable {items good : Items}

theorem settles_nextFit (t : TextSplitter) (h : Laid isSpace items) :
    Settles (lay items) (t.PackedApart items) (.ok (binTexts (t.bins items))) := by
  have hflat : (t.bins items).flatten = items := flatten_nextFit items
  have hbins := settles_bins (t.bins items) (by rwa [hflat])
  rwa [hflat] at hbins

/-- The items as the loops of the splitter take them. -/
def measuredItems (items : Items) : List (List Char × Int) :=
  items.map fun i => (i.2, (i.2.length : Int))

theorem measuredItems_cons (i : List Char × List Char) (items : Items) :
    measuredItems (i :: items) = (i.2, (i.2.length : Int)) :: measuredItems items := rfl

theorem measured_items (h : t.lengthFunction = characterLengths) (items : Items) :
    t.measured (items.map Prod.snd) = measuredItems items := by
  rw [measured_eq h, List.map_map]
  rfl

theorem intercalate_nil_left (docs : List (List Char)) :
    List.intercalate [] docs = docs.flatten := by
  induction docs with
  | nil => rfl
  | cons d docs ih =>
    cases docs with
    | nil => simp
    | cons d' docs =>
      rw [List.intercalate_cons_cons, ih, List.append_nil]
      rfl

private theorem marks_joinDocs (docs : List (List Char)) :
    (joinDocs docs []).toList.flatMap (marks isSpace) = marks isSpace docs.flatten := by
  rw [joinDocs, intercalate_nil_left]
  split
  next h => rw [← marks_stripBoth, h]; rfl
  next => rw [Option.toList_some, List.flatMap_singleton, marks_stripBoth]

private theorem popDocs_all (ht : t.Plain) (len : Int) {currentDoc : List (List Char)}
    (hne : ∀ d ∈ currentDoc, d ≠ []) :
    t.popDocs 0 len currentDoc (joined [] currentDoc) = .ok ([], 0) := by
  have hoverlap := ht.overlap
  induction currentDoc with
  | nil =>
    rw [popDocs, if_neg]
    · rfl
    · rw [joined_nil]
      omega
  | cons d currentDoc ih =>
    have hd : 0 < d.length := List.length_pos_iff.mpr (hne d List.mem_cons_self)
    have hcons : joined [] (d :: currentDoc) = _ := joined_cons d currentDoc
    have hnonneg : 0 ≤ joined [] currentDoc := joined_nonneg
    have hzero : (if currentDoc = [] then (0 : Int) else (([] : List Char).length : Int)) = 0 := by
      split <;> rfl
    rw [hzero] at hcons
    have hleft : joined [] (d :: currentDoc) -
        ((d.length : Int) + if currentDoc = [] then 0 else 0) = joined [] currentDoc := by
      split <;> omega
    rw [popDocs, if_pos (by omega), lengthOf_eq ht.length]
    change t.popDocs _ _ _ _ = _
    rw [hleft]
    exact ih fun d' hd' => hne d' (List.mem_cons_of_mem _ hd')

private theorem grown_zero (total len : Int) (currentDoc : List (List Char)) :
    grown 0 total len currentDoc = total + len := by
  rw [grown]
  split <;> omega

private theorem mergeLoop_bins (ht : t.Plain) (items current : Items)
    (hitems : Laid isSpace items) (hcurrent : Laid isSpace current) :
    ∃ docs, t.mergeLoop [] 0 (measuredItems items) (current.map Prod.snd)
        (joined [] (current.map Prod.snd)) = .ok docs ∧
      docs.flatMap (marks isSpace) =
        (binTexts (fillFrom (fun i => (i.2.length : Int)) t.chunkSize items current
          (joined [] (current.map Prod.snd)))).flatMap (marks isSpace) := by
  induction items generalizing current with
  | nil =>
    refine ⟨_, rfl, ?_⟩
    rw [marks_joinDocs, fillFrom]
    simp [binTexts]
  | cons i items ih =>
    obtain ⟨hi, hrest⟩ := List.forall_mem_cons.mp hitems
    have hone : joined [] ([i].map Prod.snd) = i.2.length := by simp [joined]
    have hsingle : Laid isSpace [i] := List.forall_mem_singleton.mpr hi
    have hgrown : joined [] ((current ++ [i]).map Prod.snd) =
        joined [] (current.map Prod.snd) + i.2.length := by
      rw [List.map_append, List.map_singleton, joined_concat]
      exact grown_zero _ _ _
    have hne : ∀ d ∈ current.map Prod.snd, d ≠ [] := by
      intro d hd
      obtain ⟨j, hj, rfl⟩ := List.mem_map.mp hd
      exact (hcurrent j hj).2
    rw [measuredItems_cons, mergeLoop, grown_zero, fillFrom]
    by_cases hfull : t.chunkSize < joined [] (current.map Prod.snd) + i.2.length
    · rw [if_pos hfull]
      obtain ⟨docs, hdocs, hmarks⟩ := ih [i] hrest hsingle
      rw [hone] at hdocs hmarks
      by_cases hempty : current = []
      · subst hempty
        refine ⟨docs, ?_, ?_⟩
        · rw [if_neg (by simp)]
          simpa [joined] using hdocs
        · rw [hmarks]
          simp [binTexts, marks, marksFrom]
      · refine ⟨(joinDocs (current.map Prod.snd) []).toList ++ docs, ?_, ?_⟩
        · rw [if_pos ⟨hfull, by simpa using hempty⟩, popDocs_all ht _ hne]
          change (do
            let docs ← t.mergeLoop [] 0 (measuredItems items) [i.2] (grown 0 0 i.2.length [])
            return _ ++ docs) = _
          rw [grown_zero, Int.zero_add]
          rw [List.map_singleton] at hdocs
          rw [hdocs]
          rfl
        · rw [List.flatMap_append, hmarks, marks_joinDocs]
          rfl
    · rw [if_neg hfull, if_neg fun h => hfull h.1]
      have h := ih (current ++ [i]) hrest (List.forall_mem_append.mpr ⟨hcurrent, hsingle⟩)
      rwa [hgrown, List.map_append, List.map_singleton] at h

private theorem settles_mergeGood (ht : t.Plain) (separator : List Char)
    (hgood : Laid isSpace good) :
    Settles (lay good) (t.PackedApart good) (t.mergeGood separator (measuredItems good)) := by
  obtain ⟨docs, hdocs, hmarks⟩ := mergeLoop_bins ht good [] hgood (List.forall_mem_nil _)
  have hbins : Settles (lay good) (t.PackedApart good) (.ok docs) :=
    (settles_ok_congr hmarks).mpr (settles_nextFit t hgood)
  rw [mergeGood]
  split
  next h =>
    rw [measuredItems, List.map_eq_nil_iff] at h
    subst h
    cases hdocs
    exact hbins
  next =>
    rw [mergeSplits, joint, if_pos ht.keep, lengthOf_eq ht.length]
    change Settles _ _ (t.mergeLoop [] 0 _ [] 0)
    rw [show t.mergeLoop [] 0 (measuredItems good) [] 0 = .ok docs from hdocs]
    exact hbins

/-- A piece that is not merged. -/
def long (t : TextSplitter) (i : List Char × List Char) : Bool :=
  decide (t.chunkSize ≤ i.2.length)

/-- The runs of short pieces are packed apart, and the long pieces are kept. -/
def Collected (t : TextSplitter) (kept : List Char → Prop) (items : Items) : Prop :=
  (∀ run ∈ items.splitOnP t.long, t.PackedApart run) ∧ ∀ i ∈ items, t.long i = true → kept i.2

variable {kept : List Char → Prop}

private theorem collected_short
    (hgood : ∀ i ∈ good, t.long i = false) : t.Collected kept good ↔ t.PackedApart good := by
  rw [Collected, List.splitOnP_eq_singleton hgood, List.forall_mem_singleton]
  refine and_iff_left fun i hi hlong => ?_
  rw [hgood i hi] at hlong
  cases hlong

theorem collected_append_cons
    (hgood : ∀ i ∈ good, t.long i = false) {i : List Char × List Char} (hi : t.long i = true) :
    t.Collected kept (good ++ i :: items) ↔
      t.PackedApart good ∧ kept i.2 ∧ t.Collected kept items := by
  rw [Collected, List.splitOnP_append_cons_of_forall_mem hgood i hi, List.forall_mem_cons,
    List.forall_mem_append, List.forall_mem_cons, Collected]
  have hshort : ∀ j ∈ good, t.long j = true → kept j.2 := by
    intro j hj hlong
    rw [hgood j hj] at hlong
    cases hlong
  constructor
  · rintro ⟨⟨hfirst, hruns⟩, -, hlong, hrest⟩
    exact ⟨hfirst, hlong hi, hruns, hrest⟩
  · rintro ⟨hfirst, hlong, hruns, hrest⟩
    exact ⟨⟨hfirst, hruns⟩, hshort, fun _ => hlong, hrest⟩

private theorem append_three (x y z : Except String (List (List Char))) :
    (do
      let merged ← x
      let otherInfo ← y
      let chunks ← z
      return merged ++ otherInfo ++ chunks) =
    x >>= fun merged =>
      (y >>= fun otherInfo => z >>= fun chunks => pure (otherInfo ++ chunks)) >>= fun rest =>
        pure (merged ++ rest) := by
  cases x with
  | error e => rfl
  | ok merged =>
    cases y with
    | error e => rfl
    | ok otherInfo =>
      cases z with
      | error e => rfl
      | ok chunks => exact congrArg Except.ok (List.append_assoc _ _ _)

/-- The loop over the pieces keeps them exactly if short ones are packed apart and long ones are
kept. -/
theorem settles_collect (ht : t.Plain) (separator : List Char)
    {further : Option (List Char → Except String (List (List Char)))}
    (hitems : Laid isSpace items) (hgood : Laid isSpace good)
    (hshort : ∀ i ∈ good, t.long i = false) (hfurther : ∀ i ∈ items, t.long i = true →
      Settles i.2 (kept i.2) (further.elim (.ok [i.2]) fun splitFurther => splitFurther i.2)) :
    Settles (lay (good ++ items)) (t.Collected kept (good ++ items))
      (t.collect separator further (measuredItems items) (measuredItems good)) := by
  induction items generalizing good with
  | nil =>
    rw [List.append_nil]
    exact (settles_mergeGood ht separator hgood).congr (collected_short hshort).symm
  | cons i items ih =>
    obtain ⟨hi, hitems⟩ := List.forall_mem_cons.mp hitems
    obtain ⟨hlong, hfurther⟩ := List.forall_mem_cons.mp hfurther
    rw [measuredItems_cons, collect]
    cases h : t.long i with
    | false =>
      have hlt : (i.2.length : Int) < t.chunkSize := Int.not_le.mp (of_decide_eq_false h)
      have hgood' : Laid isSpace (good ++ [i]) :=
        List.forall_mem_append.mpr ⟨hgood, List.forall_mem_singleton.mpr hi⟩
      have hshort' : ∀ j ∈ good ++ [i], t.long j = false :=
        List.forall_mem_append.mpr ⟨hshort, List.forall_mem_singleton.mpr h⟩
      have hmeasured : measuredItems good ++ [(i.2, (i.2.length : Int))] =
          measuredItems (good ++ [i]) := by
        rw [measuredItems, measuredItems, List.map_append, List.map_singleton]
      rw [if_pos hlt, hmeasured, List.append_cons]
      exact ih hitems hgood' hshort' hfurther
    | true =>
      have hle : t.chunkSize ≤ (i.2.length : Int) := of_decide_eq_true h
      rw [if_neg (Int.not_lt.mpr hle), append_three]
      have hnone : Laid isSpace ([] : Items) := List.forall_mem_nil _
      have hrest := ih hitems hnone (List.forall_mem_nil _) hfurther
      have hpiece : Settles (i.1 ++ i.2) (kept i.2)
          (further.elim (.ok [i.2]) fun splitFurther => splitFurther i.2) :=
        (settles_blank_append_iff hi.1).mpr (hlong h)
      have hlay : lay (good ++ i :: items) = lay good ++ (i.1 ++ i.2 ++ lay items) := by
        rw [lay_append]
        rfl
      rw [hlay]
      exact ((settles_mergeGood ht separator hgood).append (hpiece.append hrest)).congr
        (collected_append_cons hshort h).symm

theorem infix_of_mem_splitOnP {β : Type} (q : β → Bool) (l : List β) :
    ∃ first rest, l.splitOnP q = first :: rest ∧ first <+: l ∧ ∀ run ∈ rest, run <:+: l := by
  induction l with
  | nil => exact ⟨[], [], List.splitOnP_nil, List.prefix_refl _, List.forall_mem_nil _⟩
  | cons b l ih =>
    obtain ⟨first, rest, hsplit, hfirst, hrest⟩ := ih
    rw [List.splitOnP_cons_eq_if_modifyHead]
    split
    next =>
      refine ⟨[], _, rfl, List.nil_prefix, ?_⟩
      rw [hsplit, List.forall_mem_cons]
      exact ⟨hfirst.isInfix.trans (List.suffix_cons b l).isInfix,
        fun run hrun => List.infix_cons (hrest run hrun)⟩
    next =>
      refine ⟨b :: first, rest, by rw [hsplit]; rfl, ?_, fun run hrun =>
        List.infix_cons (hrest run hrun)⟩
      exact List.cons_prefix_cons.mpr ⟨rfl, hfirst⟩

theorem packedApart_of_isChain (h : items.IsChain (Apart isSpace)) :
    t.PackedApart items := by
  intro bin hbin
  have hflat : (t.bins items).flatten = items := flatten_nextFit items
  have hwithin := List.infix_of_mem_flatten hbin
  rw [hflat] at hwithin
  exact h.infix hwithin

theorem collected_of_isChain (h : items.IsChain (Apart isSpace)) :
    t.Collected kept items ↔ ∀ i ∈ items, t.long i = true → kept i.2 := by
  refine and_iff_right fun run hrun => packedApart_of_isChain <| h.infix ?_
  obtain ⟨first, rest, hsplit, hfirst, hrest⟩ := infix_of_mem_splitOnP t.long items
  rw [hsplit] at hrun
  rcases List.mem_cons.mp hrun with rfl | hrun
  · exact hfirst.isInfix
  · exact hrest run hrun

theorem characterLoop_bins (ht : t.Plain) (items current : Items)
    (hitems : Laid isSpace items) :
    (t.characterLoop (measuredItems items) (current.map Prod.snd).flatten
        (current.map Prod.snd).flatten.length [] 0).flatMap (marks isSpace) =
      (binTexts (fillFrom (fun i => (i.2.length : Int)) t.chunkSize items current
        (current.map Prod.snd).flatten.length)).flatMap (marks isSpace) := by
  have hoverlap := ht.overlap
  induction items generalizing current with
  | nil =>
    have hnil : measuredItems [] = [] := rfl
    rw [hnil, characterLoop, fillFrom]
    split
    next h => simp [binTexts, h, marks, marksFrom]
    next => simp [binTexts]
  | cons i items ih =>
    have hlength : ((current.map Prod.snd).flatten.length : Int) + i.2.length =
        ((current ++ [i]).map Prod.snd).flatten.length := by simp
    have hrest := (List.forall_mem_cons.mp hitems).2
    rw [measuredItems_cons, characterLoop, fillFrom, hoverlap, Int.sub_zero]
    by_cases hfull : t.chunkSize <
        ((current.map Prod.snd).flatten.length : Int) + i.2.length
    · rw [if_pos hfull, if_neg (Int.not_le.mpr hfull), if_neg (Int.not_le.mpr hfull),
        List.flatMap_cons]
      have h := ih [i] hrest
      simp only [List.map_cons, List.map_nil, List.flatten_cons, List.flatten_nil,
        List.append_nil] at h
      rw [List.nil_append, Int.add_zero, h]
      rfl
    · rw [if_neg hfull, if_pos (Int.not_lt.mp hfull), hlength]
      have h := ih (current ++ [i]) hrest
      have hflat : ((current ++ [i]).map Prod.snd).flatten =
          (current.map Prod.snd).flatten ++ i.2 := by simp
      rwa [hflat] at h ⊢

end TextSplitter

/-- The characters other than line breaks, each with the line breaks before it. -/
def characterItems (text : List Char) : Items :=
  keptItems notBlank [] (text.map fun c => ([], [c]))

theorem isSpace_of_not_notBlank {s : List Char} (h : notBlank s = false) :
    ∀ c ∈ s, isSpace c = true := by
  have hs : s ∈ [[], ['\n']] := of_not_not (of_decide_eq_false h)
  rcases List.mem_cons.mp hs with rfl | hs
  · exact List.forall_mem_nil _
  · rw [List.mem_singleton.mp hs, List.forall_mem_singleton]
    decide

section Items

variable {keep : List Char → Bool} (splits : List (List Char))

theorem keptItems_side_by_side
    (hkeep : ∀ s, keep s = false → ∀ c ∈ s, isSpace c = true) (hnil : keep [] = false) :
    Laid isSpace (keptItems keep [] (splits.map fun s => ([], s))) ∧
      (keptItems keep [] (splits.map fun s => ([], s))).map Prod.snd = splits.filter keep ∧
      ∃ w, (∀ c ∈ w, isSpace c = true) ∧
        splits.flatten = lay (keptItems keep [] (splits.map fun s => ([], s))) ++ w := by
  have hgaps : ∀ i ∈ splits.map fun s => (([] : List Char), s), ∀ c ∈ i.1, isSpace c = true := by
    intro i hi
    obtain ⟨s, -, rfl⟩ := List.mem_map.mp hi
    exact List.forall_mem_nil _
  have hlay : lay (splits.map fun s => (([] : List Char), s)) = splits.flatten := by
    simp [lay, List.flatMap_map, List.flatMap_id']
  refine ⟨?_, ?_, ?_⟩
  · exact laid_keptItems [] _ (List.forall_mem_nil _) hgaps (fun i _ => hkeep i.2) hnil
  · rw [map_snd_keptItems, List.map_map]
    exact congrArg _ (List.map_id' splits)
  · obtain ⟨w, hw, he⟩ := lay_keptItems [] _ (List.forall_mem_nil _) hgaps (fun i _ => hkeep i.2)
    rw [List.nil_append, hlay] at he
    exact ⟨w, hw, he⟩

/-- The characters and the line breaks between them are the text, up to blanks at its end. -/
theorem characterItems_side_by_side (text : List Char) :
    Laid isSpace (characterItems text) ∧
      (characterItems text).map Prod.snd = (text.map fun c => [c]).filter notBlank ∧
      ∃ w, (∀ c ∈ w, isSpace c = true) ∧ text = lay (characterItems text) ++ w := by
  obtain ⟨hlaid, hpieces, w, hw, hflat⟩ :=
    keptItems_side_by_side (text.map fun c => [c]) (fun _ => isSpace_of_not_notBlank) (by decide)
  have hcharacters : (text.map fun c => [c]).flatten = text := by
    rw [← List.flatMap_def]
    exact List.flatMap_singleton' text
  rw [hcharacters, List.map_map] at hflat
  rw [List.map_map] at hlaid hpieces
  exact ⟨hlaid, hpieces, w, hw, hflat⟩

variable {front : List (List Char)}

theorem isChain_of_ends_blank
    (hfront : ∀ s ∈ front, s.getLast?.all isSpace = true) (last dropped : List Char) :
    (keptItems keep dropped ((front ++ [last]).map fun s => ([], s))).IsChain (Apart isSpace) := by
  induction front generalizing dropped with
  | nil =>
    rw [List.nil_append, List.map_singleton, keptItems]
    split
    · exact List.isChain_singleton _
    · exact List.isChain_nil
  | cons s front ih =>
    obtain ⟨hs, hfront⟩ := List.forall_mem_cons.mp hfront
    rw [List.cons_append, List.map_cons, keptItems]
    split
    · exact List.isChain_cons.mpr ⟨fun _ _ => .inr (.inl hs), ih hfront []⟩
    · exact ih hfront _

theorem isChain_of_kept (hfront : ∀ s ∈ front, keep s = true) (last : List Char) :
    (keptItems keep [] ((front ++ [last]).map fun s => ([], s))).IsChain (Apart isSpace) := by
  have hgaps : ∀ i ∈ keptItems keep [] ((front ++ [last]).map fun s => ([], s)), i.1 = [] := by
    induction front with
    | nil =>
      rw [List.nil_append, List.map_singleton, keptItems]
      split
      · exact List.forall_mem_singleton.mpr rfl
      · exact List.forall_mem_nil _
    | cons s front ih =>
      obtain ⟨hs, hfront⟩ := List.forall_mem_cons.mp hfront
      rw [List.cons_append, List.map_cons, keptItems, if_pos hs]
      exact List.forall_mem_cons.mpr ⟨rfl, ih hfront⟩
  generalize keptItems keep [] ((front ++ [last]).map fun s => ([], s)) = items at hgaps
  induction items with
  | nil => exact List.isChain_nil
  | cons i items ih =>
    have hrest := (List.forall_mem_cons.mp hgaps).2
    refine List.isChain_cons.mpr ⟨fun j hj => .inl (hrest j (List.mem_of_mem_head? hj)), ih hrest⟩

theorem flatten_keepAtEnd (separator first : List Char) (rest : List (List Char)) :
    (keepAtEnd separator (first :: rest)).flatten =
      first ++ rest.flatMap (separator ++ ·) := by
  induction rest generalizing first with
  | nil => simp [keepAtEnd]
  | cons next rest ih =>
    have hcons : keepAtEnd separator (first :: next :: rest) =
        (first ++ separator) :: keepAtEnd separator (next :: rest) := rfl
    rw [hcons, List.flatten_cons, ih, List.flatMap_cons]
    simp

theorem isChain_keepAtEnd {separator : List Char} (hsep : separator ≠ [])
    (hkeep : ∀ s, keep s = false → ∀ c ∈ s, isSpace c = true) {pieces : List (List Char)}
    (hpieces : pieces ≠ []) :
    (keptItems keep [] ((keepAtEnd separator pieces).map fun s => ([], s))).IsChain
      (Apart isSpace) := by
  obtain ⟨front, last, rfl⟩ := List.eq_nil_or_concat pieces |>.resolve_left hpieces
  obtain ⟨start, c, rfl⟩ := List.eq_nil_or_concat separator |>.resolve_left hsep
  have hshape : keepAtEnd (start.concat c) (front.concat last) =
      front.map (· ++ (start ++ [c])) ++ [last] := by
    simp [keepAtEnd]
  rw [hshape]
  cases hc : isSpace c with
  | true =>
    refine isChain_of_ends_blank (fun s hs => ?_) last []
    obtain ⟨x, -, rfl⟩ := List.mem_map.mp hs
    rw [← List.append_assoc, List.getLast?_concat, Option.all_some, hc]
  | false =>
    refine isChain_of_kept (fun s hs => ?_) last
    obtain ⟨x, -, rfl⟩ := List.mem_map.mp hs
    refine Bool.not_eq_false _ ▸ fun hdropped => ?_
    rw [hkeep _ hdropped c (by simp)] at hc
    cases hc

private theorem splitSpaces_spec (text : List Char) :
    ∃ first rest, splitSpaces text = first :: rest.map Prod.snd ∧ text = first ++ lay rest ∧
      (∀ i ∈ rest, i.1 ≠ [] ∧ ∀ c ∈ i.1, isSpace c = true) ∧
      (text.head? = some ' ' → first = [] ∧ rest ≠ []) := by
  induction text with
  | nil => exact ⟨[], [], rfl, rfl, List.forall_mem_nil _, fun h => nomatch h⟩
  | cons c text ih =>
    obtain ⟨first, rest, hsplit, htext, hgaps, hhead⟩ := ih
    rw [splitSpaces]
    split
    next hc =>
      subst hc
      have hblank : ∀ c ∈ [' '], isSpace c = true := List.forall_mem_singleton.mpr (by decide)
      split
      next hspace =>
        obtain ⟨rfl, hne⟩ := hhead hspace
        obtain ⟨⟨gap, s⟩, rest, rfl⟩ := List.exists_cons_of_ne_nil hne
        obtain ⟨⟨-, hgap⟩, hgaps⟩ := List.forall_mem_cons.mp hgaps
        refine ⟨[], (' ' :: gap, s) :: rest, hsplit, ?_, ?_, fun _ => ⟨rfl, List.cons_ne_nil _ _⟩⟩
        · rw [htext]
          rfl
        · refine List.forall_mem_cons.mpr ⟨⟨List.cons_ne_nil _ _, ?_⟩, hgaps⟩
          exact List.forall_mem_append.mpr ⟨hblank, hgap⟩
      next =>
        refine ⟨[], ([' '], first) :: rest, by rw [hsplit]; rfl, ?_, ?_, fun _ =>
          ⟨rfl, List.cons_ne_nil _ _⟩⟩
        · rw [htext]
          simp [lay]
        · exact List.forall_mem_cons.mpr ⟨⟨List.cons_ne_nil _ _, hblank⟩, hgaps⟩
    next hc =>
      refine ⟨c :: first, rest, by rw [hsplit], by rw [htext]; rfl, hgaps, fun h => ?_⟩
      cases h
      exact absurd rfl hc

theorem exists_spaceItems (text : List Char) :
    ∃ items w, Laid isSpace items ∧ items.map Prod.snd = (splitSpaces text).filter notBlank ∧
      (∀ c ∈ w, isSpace c = true) ∧ ' ' :: text = lay items ++ w ∧ ∀ i ∈ items, i.1 ≠ [] := by
  obtain ⟨first, rest, hsplit, htext, hgaps, -⟩ := splitSpaces_spec text
  have hblank : ∀ c ∈ [' '], isSpace c = true := List.forall_mem_singleton.mpr (by decide)
  have hall : ∀ i ∈ ([' '], first) :: rest, i.1 ≠ [] ∧ ∀ c ∈ i.1, isSpace c = true :=
    List.forall_mem_cons.mpr ⟨⟨List.cons_ne_nil _ _, hblank⟩, hgaps⟩
  have hkeep : ∀ i ∈ ([' '], first) :: rest, notBlank i.2 = false → ∀ c ∈ i.2, isSpace c = true :=
    fun i _ => isSpace_of_not_notBlank
  obtain ⟨w, hw, hlay⟩ :=
    lay_keptItems [] _ (List.forall_mem_nil _) (fun i hi => (hall i hi).2) hkeep
  refine ⟨keptItems notBlank [] (([' '], first) :: rest), w, ?_, ?_, hw, ?_, ?_⟩
  · exact laid_keptItems [] _ (List.forall_mem_nil _) (fun i hi => (hall i hi).2) hkeep (by decide)
  · rw [map_snd_keptItems, hsplit, List.map_cons]
  · rw [← hlay, htext]
    rfl
  · exact gaps_keptItems _ _ fun i hi => (hall i hi).1

end Items

end PlatformSpec.Rag
