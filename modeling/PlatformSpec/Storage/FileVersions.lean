import PlatformSpec.Storage.FileLifecycle

/-!
# Copies of versions

What the metadata and the copies of versions agree on, whatever is saved, archived, deleted or
cleaned up.
-/

namespace PlatformSpec.Storage

open Base

/-! ## What every event keeps -/

section Invariant

variable (env : Backend)

/-- A file whose copies are taken for its own versions, and which is taken for no other's. -/
structure Plain (filename : String) : Prop where
  not_metadata : filename ≠ metadataFile
  not_version : ∀ (other : String) (n : Nat), filename ≠ versionFilename other n
  not_parsed : parseVersionFile env filename = none
  own : ∀ (n : Nat) p, parseVersionFile env (versionFilename filename n) = some p →
    p = (filename, (n : Int))

/-- The document and the copies agree with the versions of each file, of which the newest `m` are
kept; the current one is the file itself, unless that was deleted. -/
structure Consistent (m : Nat) (s : Lifecycle) : Prop where
  plain : ∀ f, s.versions f ≠ [] → Plain env f
  entry : ∀ f, s.versions f = [] ∧ (loadMetadata s.volume).get f = none ∨
    ∃ e, (loadMetadata s.volume).get f = some e ∧ s.versions f ≠ [] ∧
      EntryOf (s.versions f).length e
  numbered : ∀ f, (s.versions f).map Prod.fst = List.range' 1 (s.versions f).length
  main : ∀ f data, s.versions f ≠ [] → s.volume.get f = some data →
    ((s.versions f).length, data) ∈ s.versions f
  backup : ∀ f n data, (n, data) ∈ s.versions f → n < (s.versions f).length →
    (s.versions f).length < n + m → s.volume.get (versionFilename f n) = some data
  copies : ∀ f (n : Nat) data, s.volume.get (versionFilename f n) = some data →
    (n, data) ∈ s.versions f
  parsed : ∀ path f n, (s.volume.get path).isSome → parseVersionFile env path = some (f, n) →
    ∃ k : Nat, n = k ∧ path = versionFilename f k ∧ k ≤ (s.versions f).length

variable {env} {m : Nat} {s : Lifecycle} {f : String}

namespace Consistent

theorem entry_of_mem (h : Consistent env m s) (hne : s.versions f ≠ []) :
    ∃ e, (loadMetadata s.volume).get f = some e ∧ EntryOf (s.versions f).length e := by
  rcases h.entry f with ⟨hnil, -⟩ | ⟨e, he, -, hentry⟩
  · exact absurd hnil hne
  · exact ⟨e, he, hentry⟩

theorem entry_of_get (h : Consistent env m s) {e : Json}
    (he : (loadMetadata s.volume).get f = some e) :
    s.versions f ≠ [] ∧ EntryOf (s.versions f).length e := by
  rcases h.entry f with ⟨-, hnone⟩ | ⟨e', he', hne, hentry⟩
  · rw [hnone] at he
    cases he
  · rw [he'] at he
    cases he
    exact ⟨hne, hentry⟩

theorem currentMetadata_eq (h : Consistent env m s) :
    currentMetadata s.volume f = (loadMetadata s.volume).get f := by
  unfold currentMetadata
  split
  next hempty =>
    have hversion := (h.entry_of_get hempty).2.version_eq
    cases hversion
  next => rfl

theorem currentVersion_eq (h : Consistent env m s) (hne : s.versions f ≠ []) :
    currentVersion s.volume f = some (s.versions f).length := by
  obtain ⟨e, he, hentry⟩ := h.entry_of_mem hne
  rw [currentVersion, h.currentMetadata_eq, he]
  exact hentry.version_eq

theorem number_le (h : Consistent env m s) {n : Nat} {data : Bytes}
    (hmem : (n, data) ∈ s.versions f) : 1 ≤ n ∧ n ≤ (s.versions f).length := by
  have hnumber : n ∈ (s.versions f).map Prod.fst := List.mem_map_of_mem (f := Prod.fst) hmem
  rw [h.numbered, List.mem_range'_1] at hnumber
  omega

theorem data_unique (h : Consistent env m s) {n : Nat} {data data' : Bytes}
    (hmem : (n, data) ∈ s.versions f) (hmem' : (n, data') ∈ s.versions f) : data = data' := by
  have hnodup : ((s.versions f).map Prod.fst).Nodup := by
    rw [h.numbered]
    exact List.nodup_range'
  exact (Prod.mk.inj (List.inj_on_of_nodup_map hnodup hmem hmem' rfl)).2

end Consistent

/-- The volume with a copy of the file under its current version. -/
def backedUp (f : String) (v : Volume) : Volume :=
  match currentMetadata v f with
  | some current => createVersionBackup f current v
  | none => v

/-- The file has no version yet, or is there to be copied, or was copied already. -/
def Present (f : String) (v : Volume) : Prop :=
  currentMetadata v f = none ∨ (v.get f).isSome ∨
    ∃ n, currentVersion v f = some n ∧ (v.get (versionFilename f n)).isSome

theorem backedUp_eq (h : Consistent env m s) :
    backedUp f s.volume = s.volume ∨ ∃ data, s.versions f ≠ [] ∧ s.volume.get f = some data ∧
      backedUp f s.volume = s.volume.set (versionFilename f (s.versions f).length) data := by
  unfold backedUp
  rw [h.currentMetadata_eq]
  cases he : (loadMetadata s.volume).get f with
  | none => exact .inl rfl
  | some e =>
    obtain ⟨hne, hentry⟩ := h.entry_of_get he
    simp only [createVersionBackup, hentry.version_eq]
    cases hdata : s.volume.get f with
    | none => exact .inl rfl
    | some data => exact .inr ⟨data, hne, rfl, rfl⟩

theorem consistent_backedUp (h : Consistent env m s) :
    Consistent env m ⟨backedUp f s.volume, s.versions⟩ := by
  rcases backedUp_eq (f := f) h with heq | ⟨data, hne, hdata, heq⟩
  · rw [heq]
    exact h
  have hmetadata : loadMetadata (backedUp f s.volume) = loadMetadata s.volume := by
    apply loadMetadata_congr
    rw [heq, OrderedDict.get_set, if_neg (versionFilename_ne_metadata _ _).symm]
  constructor
  · exact h.plain
  · intro g
    show _ ∧ (loadMetadata (backedUp f s.volume)).get g = none ∨ _
    rw [hmetadata]
    exact h.entry g
  · exact h.numbered
  · intro g data' hg hget
    simp only [heq, OrderedDict.get_set] at hget
    rw [if_neg ((h.plain g hg).not_version f _)] at hget
    exact h.main g data' hg hget
  · intro g n data' hmem hlt hnew
    simp only [heq, OrderedDict.get_set]
    rw [if_neg]
    · exact h.backup g n data' hmem hlt hnew
    · intro hpath
      obtain ⟨rfl, rfl⟩ := versionFilename_injective hpath
      exact Nat.lt_irrefl _ hlt
  · intro g n data' hget
    simp only [heq, OrderedDict.get_set] at hget
    split at hget
    next hpath =>
      obtain ⟨rfl, rfl⟩ := versionFilename_injective hpath
      cases hget
      exact h.main g data hne hdata
    next => exact h.copies g n data' hget
  · intro path g n hget hparse
    simp only [heq, OrderedDict.get_set] at hget
    split at hget
    next hpath =>
      rw [hpath] at hparse ⊢
      obtain ⟨rfl, rfl⟩ := Prod.mk.inj ((h.plain f hne).own _ _ hparse)
      exact ⟨_, rfl, rfl, Nat.le_refl _⟩
    next => exact h.parsed path g n hget hparse

theorem get_backedUp (h : Consistent env m s) (hpresent : Present f s.volume)
    (hne : s.versions f ≠ []) : ∃ data, ((s.versions f).length, data) ∈ s.versions f ∧
      (backedUp f s.volume).get (versionFilename f (s.versions f).length) = some data := by
  obtain ⟨e, he, hentry⟩ := h.entry_of_mem hne
  have hcurrent : currentMetadata s.volume f = some e := by rw [h.currentMetadata_eq, he]
  have hbacked : backedUp f s.volume = createVersionBackup f e s.volume := by
    rw [backedUp, hcurrent]
  rw [hbacked, createVersionBackup, hentry.version_eq]
  cases hdata : s.volume.get f with
  | some data =>
    refine ⟨data, h.main f data hne hdata, ?_⟩
    simp only
    rw [OrderedDict.get_set, if_pos rfl]
  | none =>
    rcases hpresent with hnone | hsome | ⟨n, hn, hcopy⟩
    · rw [hcurrent] at hnone
      cases hnone
    · rw [hdata] at hsome
      cases hsome
    · rw [h.currentVersion_eq hne] at hn
      cases hn
      obtain ⟨data, hdata⟩ := Option.isSome_iff_exists.mp hcopy
      exact ⟨data, h.copies f _ data hdata, hdata⟩

/-- The versions with one more for a file. -/
def withVersion (versions : String → List (Nat × Bytes)) (f : String) (data : Bytes) :
    String → List (Nat × Bytes) :=
  fun g => if g = f then versions f ++ [((versions f).length + 1, data)] else versions g

theorem consistent_write (h : Consistent env m s) (hplain : Plain env f)
    (hcopy : s.versions f ≠ [] → ∃ data, ((s.versions f).length, data) ∈ s.versions f ∧
      s.volume.get (versionFilename f (s.versions f).length) = some data)
    {e : Json} (he : EntryOf ((s.versions f).length + 1) e) (data : Bytes) :
    Consistent env m ⟨saveMetadata ((loadMetadata s.volume).set f e) (s.volume.set f data),
      withVersion s.versions f data⟩ := by
  have hload : loadMetadata
      (saveMetadata ((loadMetadata s.volume).set f e) (s.volume.set f data)) =
        (loadMetadata s.volume).set f e := by
    apply loadMetadata_saveMetadata
    intro g e' hg
    rw [OrderedDict.get_set] at hg
    split at hg
    next =>
      cases hg
      exact he.valid
    next => exact (h.entry_of_get hg).2.valid
  have hget : ∀ path, path ≠ metadataFile →
      (saveMetadata ((loadMetadata s.volume).set f e) (s.volume.set f data)).get path =
        if path = f then some data else s.volume.get path := by
    intro path hpath
    rw [saveMetadata, OrderedDict.get_set, if_neg hpath, OrderedDict.get_set]
  have hsame : withVersion s.versions f data f =
      s.versions f ++ [((s.versions f).length + 1, data)] := if_pos rfl
  have hother : ∀ g, g ≠ f → withVersion s.versions f data g = s.versions g :=
    fun g hg => if_neg hg
  constructor
  · intro g hg
    by_cases hgf : g = f
    · rw [hgf]
      exact hplain
    · exact h.plain g (hother g hgf ▸ hg)
  · intro g
    show _ ∧ (loadMetadata _).get g = none ∨ _
    rw [hload, OrderedDict.get_set]
    by_cases hgf : g = f
    · right
      rw [hgf, if_pos rfl]
      simp only [hsame, List.length_append, List.length_singleton]
      exact ⟨e, rfl, by simp, he⟩
    · rw [if_neg hgf]
      simp only [hother g hgf]
      exact h.entry g
  · intro g
    by_cases hgf : g = f
    · rw [hgf]
      simp only [hsame, List.map_append, List.length_append, List.length_singleton]
      rw [h.numbered f, List.range'_1_concat, Nat.add_comm 1]
      rfl
    · simp only [hother g hgf]
      exact h.numbered g
  · intro g data' hg hdata
    by_cases hgf : g = f
    · rw [hgf] at hdata ⊢
      rw [hget f hplain.not_metadata, if_pos rfl] at hdata
      cases hdata
      simp only [hsame, List.length_append, List.length_singleton]
      simp
    · have hg' : s.versions g ≠ [] := hother g hgf ▸ hg
      rw [hget g (h.plain g hg').not_metadata, if_neg hgf] at hdata
      simp only [hother g hgf]
      exact h.main g data' hg' hdata
  · intro g n data' hmem hlt hnew
    have hpath : versionFilename g n ≠ f := (hplain.not_version g n).symm
    rw [hget _ (versionFilename_ne_metadata g n), if_neg hpath]
    by_cases hgf : g = f
    · rw [hgf] at hmem hlt hnew ⊢
      simp only [hsame, List.length_append, List.length_singleton, List.mem_append,
        List.mem_singleton] at hmem hlt hnew
      rcases hmem with hmem | hlast
      · rcases Nat.lt_or_ge n (s.versions f).length with hold | hcurrent
        · exact h.backup f n data' hmem hold (by omega)
        · obtain ⟨data'', hmem'', hcopied⟩ := hcopy (List.ne_nil_of_mem hmem)
          have hn : n = (s.versions f).length := by omega
          rw [hn] at hmem ⊢
          rw [hcopied, h.data_unique hmem hmem'']
      · have hn := (Prod.mk.inj hlast).1
        omega
    · simp only [hother g hgf] at hmem hlt hnew
      exact h.backup g n data' hmem hlt hnew
  · intro g n data' hcopied
    rw [hget _ (versionFilename_ne_metadata g n), if_neg (hplain.not_version g n).symm] at hcopied
    have hmem := h.copies g n data' hcopied
    by_cases hgf : g = f
    · rw [hgf] at hmem ⊢
      simp only [hsame]
      exact List.mem_append_left _ hmem
    · simp only [hother g hgf]
      exact hmem
  · intro path g n hsome hparse
    have hpath : path ≠ metadataFile := by
      rintro rfl
      have hnot : ¬ versionPrefix.toList <+: metadataFile.toList := by decide
      rw [parseVersionFile, if_neg hnot] at hparse
      cases hparse
    have hpathf : path ≠ f := by
      rintro rfl
      rw [hplain.not_parsed] at hparse
      cases hparse
    simp only [hget path hpath, if_neg hpathf] at hsome
    obtain ⟨k, hn, hk, hle⟩ := h.parsed path g n hsome hparse
    refine ⟨k, hn, hk, ?_⟩
    by_cases hgf : g = f
    · rw [hgf] at hle ⊢
      simp only [hsame, List.length_append]
      omega
    · simp only [hother g hgf]
      exact hle

theorem consistent_status (h : Consistent env m s) {e : Json}
    (he : (loadMetadata s.volume).get f = some e) (status : FileStatus) (now : String) :
    Consistent env m ⟨saveMetadata ((loadMetadata s.volume).set f (withStatus status now e))
      s.volume, s.versions⟩ := by
  obtain ⟨hne, hentry⟩ := h.entry_of_get he
  have hentry' := hentry.withStatus status now
  have hload : loadMetadata (saveMetadata
      ((loadMetadata s.volume).set f (withStatus status now e)) s.volume) =
        (loadMetadata s.volume).set f (withStatus status now e) := by
    apply loadMetadata_saveMetadata
    intro g e' hg
    rw [OrderedDict.get_set] at hg
    split at hg
    next =>
      cases hg
      exact hentry'.valid
    next => exact (h.entry_of_get hg).2.valid
  have hget : ∀ path, path ≠ metadataFile → (saveMetadata
      ((loadMetadata s.volume).set f (withStatus status now e)) s.volume).get path =
        s.volume.get path := by
    intro path hpath
    rw [saveMetadata, OrderedDict.get_set, if_neg hpath]
  constructor
  · exact h.plain
  · intro g
    show _ ∧ (loadMetadata _).get g = none ∨ _
    rw [hload, OrderedDict.get_set]
    by_cases hgf : g = f
    · rw [hgf, if_pos rfl]
      exact .inr ⟨_, rfl, hne, hentry'⟩
    · rw [if_neg hgf]
      exact h.entry g
  · exact h.numbered
  · intro g data hg hdata
    rw [hget g (h.plain g hg).not_metadata] at hdata
    exact h.main g data hg hdata
  · intro g n data hmem hlt hnew
    rw [hget _ (versionFilename_ne_metadata g n)]
    exact h.backup g n data hmem hlt hnew
  · intro g n data hcopied
    rw [hget _ (versionFilename_ne_metadata g n)] at hcopied
    exact h.copies g n data hcopied
  · intro path g n hsome hparse
    have hpath : path ≠ metadataFile := by
      rintro rfl
      have hnot : ¬ versionPrefix.toList <+: metadataFile.toList := by decide
      rw [parseVersionFile, if_neg hnot] at hparse
      cases hparse
    rw [hget path hpath] at hsome
    exact h.parsed path g n hsome hparse

/-- A file moved away: the copy is no version of anything and no file with versions. -/
theorem consistent_moved (h : Consistent env m s) {stamp : String} (hplain : Plain env f)
    (hdeleted : s.versions (deletedFilename f stamp) = []) (data : Bytes) :
    Consistent env m
      ⟨(s.volume.set (deletedFilename f stamp) data).pop f, s.versions⟩ := by
  have hget : ∀ path, path ≠ f → path ≠ deletedFilename f stamp →
      ((s.volume.set (deletedFilename f stamp) data).pop f).get path = s.volume.get path := by
    intro path hpath hdel
    rw [OrderedDict.get_pop, if_neg hpath, OrderedDict.get_set, if_neg hdel]
  have hload : loadMetadata ((s.volume.set (deletedFilename f stamp) data).pop f) =
      loadMetadata s.volume :=
    loadMetadata_congr (hget _ hplain.not_metadata.symm (deletedFilename_ne_metadata _ _).symm)
  constructor
  · exact h.plain
  · intro g
    show _ ∧ (loadMetadata _).get g = none ∨ _
    rw [hload]
    exact h.entry g
  · exact h.numbered
  · intro g data' hg hdata
    have hdel : g ≠ deletedFilename f stamp := by
      rintro rfl
      exact hg hdeleted
    by_cases hgf : g = f
    · simp only [OrderedDict.get_pop, if_pos hgf] at hdata
      cases hdata
    · rw [hget g hgf hdel] at hdata
      exact h.main g data' hg hdata
  · intro g n data' hmem hlt hnew
    rw [hget _ (hplain.not_version g n).symm (deletedFilename_ne_version _ _ _ _).symm]
    exact h.backup g n data' hmem hlt hnew
  · intro g n data' hcopied
    rw [hget _ (hplain.not_version g n).symm (deletedFilename_ne_version _ _ _ _).symm] at hcopied
    exact h.copies g n data' hcopied
  · intro path g n hsome hparse
    have hdel : path ≠ deletedFilename f stamp := by
      rintro rfl
      have hnot : ¬ versionPrefix.toList <+: (deletedFilename f stamp).toList := by
        intro hprefix
        have hsecond := (deletedFilename_second f stamp).2
        obtain ⟨rest, hrest⟩ := hprefix
        rw [← hrest] at hsecond
        have hfirst : (versionPrefix.toList ++ rest)[1]? = some 'v' := rfl
        rw [hfirst] at hsecond
        cases hsecond
      rw [parseVersionFile, if_neg hnot] at hparse
      cases hparse
    by_cases hpath : path = f
    · simp only [OrderedDict.get_pop, if_pos hpath] at hsome
      cases hsome
    · rw [hget path hpath hdel] at hsome
      exact h.parsed path g n hsome hparse

end Invariant

/-! ## The cleanup -/

section Cleanup

variable {env : Backend}

private theorem get_foldl_pop (versions : List (Int × String)) (v : Volume) (path : String) :
    (versions.foldl (fun v version => v.pop version.2) v).get path =
      if path ∈ versions.map Prod.snd then none else v.get path := by
  induction versions generalizing v with
  | nil => rfl
  | cons version versions ih =>
    rw [List.foldl_cons, ih, OrderedDict.get_pop, List.map_cons]
    by_cases hpath : path = version.2
    · simp [hpath]
    · rw [if_neg hpath]
      refine if_congr ?_ rfl rfl
      rw [List.mem_cons, or_iff_right hpath]

/-- The versions of a file among the paths. -/
def versionsOf (env : Backend) (base : String) (paths : List String) : List (Int × String) :=
  paths.filterMap fun path => (parseVersionFile env path).bind fun p =>
    if p.1 = base then some (p.2, path) else none

private theorem get_fileVersions (paths : List String) (base : String) :
    ((fileVersions env paths).get base).getD [] = versionsOf env base paths := by
  induction paths using List.reverseRecOn with
  | nil => rfl
  | append_singleton paths path ih =>
    rw [versionsOf, List.filterMap_append, ← versionsOf, ← ih, fileVersions, List.foldl_append,
      ← fileVersions, List.foldl_cons, List.foldl_nil]
    cases hparse : parseVersionFile env path with
    | none => simp [hparse]
    | some p =>
      obtain ⟨b, n⟩ := p
      by_cases hb : b = base
      · subst hb
        simp [hparse]
      · simp [hparse, hb, Ne.symm hb]

variable {n maxVersions maxAgeDays : Int} {base path : String}

theorem mem_versionsOf {paths : List String} : (n, path) ∈ versionsOf env base paths ↔
      path ∈ paths ∧ parseVersionFile env path = some (base, n) := by
  rw [versionsOf, List.mem_filterMap]
  constructor
  · rintro ⟨path', hmem, h⟩
    obtain ⟨p, hparse, h⟩ := Option.bind_eq_some_iff.mp h
    split at h
    next hbase =>
      obtain ⟨rfl, rfl⟩ := Prod.mk.inj (Option.some.inj h)
      rw [hparse, ← hbase]
      exact ⟨hmem, rfl⟩
    next => cases h
  · rintro ⟨hmem, hparse⟩
    refine ⟨path, hmem, ?_⟩
    simp [hparse]

theorem add_le_of_mem_drop {l : List Int} (hl : l.Pairwise (· > ·)) (bound : Int)
    (hbound : ∀ x ∈ l, x ≤ bound) {m : Nat} {x : Int} (hx : x ∈ l.drop m) :
    x + m ≤ bound := by
  induction l generalizing bound m with
  | nil => simp at hx
  | cons y l ih =>
    obtain ⟨hy, hl⟩ := List.pairwise_cons.mp hl
    cases m with
    | zero =>
      have hle := hbound x hx
      omega
    | succ m =>
      have hsmaller : ∀ z ∈ l, z ≤ y - 1 := by
        intro z hz
        have hyz := hy z hz
        omega
      have hle := ih hl (y - 1) hsmaller hx
      have hybound := hbound y List.mem_cons_self
      omega

variable {m : Nat} {s : Lifecycle}

private theorem nodup_scan (v : Volume) : (scan env v).Nodup :=
  (env.list_nodup v.nodup).filter _

theorem isSome_of_mem_scan {v : Volume} (h : path ∈ scan env v) :
    (v.get path).isSome := by
  have hmem := env.list_mem (List.mem_of_mem_filter h)
  obtain ⟨p, hp, rfl⟩ := List.mem_map.mp hmem
  rw [OrderedDict.mem_iff.mp hp]
  rfl

private theorem parsed_versionsOf (h : Consistent env m s)
    (hmem : (n, path) ∈ versionsOf env base (scan env s.volume)) :
    ∃ k : Nat, n = k ∧ path = versionFilename base k ∧ k ≤ (s.versions base).length := by
  obtain ⟨hscan, hparse⟩ := mem_versionsOf.mp hmem
  exact h.parsed path base n (isSome_of_mem_scan hscan) hparse

private theorem pairwise_newestFirst (h : Consistent env m s) (base : String) :
    ((newestFirst (versionsOf env base (scan env s.volume))).map Prod.fst).Pairwise (· > ·) := by
  have hle : (newestFirst (versionsOf env base (scan env s.volume))).Pairwise
      fun a b => b.1 ≤ a.1 := by
    have hsorted : (newestFirst (versionsOf env base (scan env s.volume))).Pairwise
        fun a b => decide (b.1 ≤ a.1) = true := by
      refine List.pairwise_mergeSort (fun a b c hab hbc => ?_) (fun a b => ?_) _
      · rw [decide_eq_true_eq] at hab hbc ⊢
        omega
      · rw [Bool.or_eq_true, decide_eq_true_eq, decide_eq_true_eq]
        omega
    exact hsorted.imp of_decide_eq_true
  have hpaths : ((versionsOf env base (scan env s.volume)).map Prod.snd).Nodup := by
    have hscan : (scan env s.volume).Nodup := nodup_scan s.volume
    refine hscan.sublist ?_
    have hall : ∀ paths : List String,
        ((versionsOf env base paths).map Prod.snd).Sublist paths := by
      intro paths
      induction paths with
      | nil => exact List.Sublist.slnil
      | cons path paths ih =>
        rw [versionsOf, List.filterMap_cons]
        split
        next => exact ih.cons path
        next p hp =>
          obtain ⟨q, -, hq⟩ := Option.bind_eq_some_iff.mp hp
          split at hq
          next =>
            cases hq
            exact ih.cons_cons path
          next => cases hq
    exact hall _
  have hnodup : ((versionsOf env base (scan env s.volume)).map Prod.fst).Nodup := by
    refine List.Nodup.map_on ?_ (List.Nodup.of_map _ hpaths)
    rintro ⟨n, path⟩ hmem ⟨n', path'⟩ hmem' heq
    obtain ⟨k, hn, hpath, -⟩ := parsed_versionsOf h hmem
    obtain ⟨k', hn', hpath', -⟩ := parsed_versionsOf h hmem'
    have hk : k = k' := by
      have heq : n = n' := heq
      omega
    rw [hn, hn', hpath, hpath', hk]
  have hperm := List.mergeSort_perm (versionsOf env base (scan env s.volume))
    fun a b => decide (b.1 ≤ a.1)
  have hsortedNodup := (hperm.map Prod.fst).nodup_iff.mpr hnodup
  have hle' : ((newestFirst (versionsOf env base (scan env s.volume))).map Prod.fst).Pairwise
      fun a b => b ≤ a := List.pairwise_map.mpr hle
  refine (hle'.and hsortedNodup).imp fun hab => ?_
  have hne := hab.2
  have hge := hab.1
  omega

theorem deleted_of_cleanup (h : Consistent env m s) (hmax : 0 ≤ maxVersions)
    (hdeleted : (cleanupOldVersions env maxVersions maxAgeDays s.volume).1.get path ≠
      s.volume.get path) : ∃ base, ∃ k : Nat, path = versionFilename base k ∧
      k + maxVersions ≤ (s.versions base).length ∧ (parseVersionFile env path).isSome := by
  rw [cleanupOldVersions, get_foldl_pop] at hdeleted
  split at hdeleted
  next hmem =>
    obtain ⟨⟨n, path'⟩, hversion, rfl⟩ := List.mem_map.mp hmem
    obtain ⟨⟨base, versions⟩, hgroup, hversion⟩ := List.mem_flatMap.mp hversion
    have hversions : versions = versionsOf env base (scan env s.volume) := by
      rw [← get_fileVersions, OrderedDict.mem_iff.mp hgroup, Option.getD_some]
    rw [hversions] at hversion
    unfold versionsToDelete at hversion
    split at hversion
    next =>
      rw [sliceFrom, if_neg (by omega)] at hversion
      have hlist : (n, path') ∈ versionsOf env base (scan env s.volume) :=
        List.mem_mergeSort.mp (List.mem_of_mem_drop hversion)
      obtain ⟨k, hn, hpath, -⟩ := parsed_versionsOf h hlist
      refine ⟨base, k, hpath, ?_, ?_⟩
      · have hnumber : n ∈ ((newestFirst (versionsOf env base (scan env s.volume))).map
            Prod.fst).drop maxVersions.toNat := by
          rw [← List.map_drop]
          exact List.mem_map_of_mem (f := Prod.fst) hversion
        have hbound := add_le_of_mem_drop (pairwise_newestFirst h base)
          (s.versions base).length ?_ hnumber
        · omega
        · intro x hx
          obtain ⟨⟨n', path''⟩, hmem', rfl⟩ := List.mem_map.mp hx
          obtain ⟨k', hn', -, hle⟩ := parsed_versionsOf h (List.mem_mergeSort.mp hmem')
          show n' ≤ _
          omega
      · rw [(mem_versionsOf.mp hlist).2]
        rfl
    next => cases hversion
  next => exact absurd rfl hdeleted

theorem get_cleanup_of_not_parsed (h : Consistent env m s)
    (hmax : 0 ≤ maxVersions) (hpath : parseVersionFile env path = none) :
    (cleanupOldVersions env maxVersions maxAgeDays s.volume).1.get path = s.volume.get path := by
  by_contra hne
  obtain ⟨-, -, -, -, hparsed⟩ := deleted_of_cleanup h hmax hne
  rw [hpath] at hparsed
  cases hparsed

theorem get_cleanup_of_newest (h : Consistent env m s)
    (hmax : 0 ≤ maxVersions) {f : String} {n : Nat}
    (hnew : (s.versions f).length < n + maxVersions) :
    (cleanupOldVersions env maxVersions maxAgeDays s.volume).1.get (versionFilename f n) =
      s.volume.get (versionFilename f n) := by
  by_contra hne
  obtain ⟨base, k, hpath, hle, -⟩ := deleted_of_cleanup h hmax hne
  obtain ⟨rfl, rfl⟩ := versionFilename_injective hpath
  omega

private theorem parse_metadataFile : parseVersionFile env metadataFile = none := by
  have hnot : ¬ versionPrefix.toList <+: metadataFile.toList := by decide
  rw [parseVersionFile, if_neg hnot]

theorem consistent_cleanup (h : Consistent env m s) (hmax : m ≤ maxVersions)
    (maxAgeDays : Int) : Consistent env m
      ⟨(cleanupOldVersions env maxVersions maxAgeDays s.volume).1, s.versions⟩ := by
  have hpos : 0 ≤ maxVersions := by omega
  have hload : loadMetadata (cleanupOldVersions env maxVersions maxAgeDays s.volume).1 =
      loadMetadata s.volume :=
    loadMetadata_congr (get_cleanup_of_not_parsed h hpos parse_metadataFile)
  constructor
  · exact h.plain
  · intro g
    show _ ∧ (loadMetadata _).get g = none ∨ _
    rw [hload]
    exact h.entry g
  · exact h.numbered
  · intro g data hg hdata
    rw [get_cleanup_of_not_parsed h hpos (h.plain g hg).not_parsed] at hdata
    exact h.main g data hg hdata
  · intro g n data hmem hlt hnew
    have hkept : ((s.versions g).length : Int) < n + maxVersions := by
      have hnew' : (s.versions g).length < n + m := hnew
      omega
    rw [get_cleanup_of_newest h hpos hkept]
    exact h.backup g n data hmem hlt hnew
  · intro g n data hcopied
    simp only [cleanupOldVersions, get_foldl_pop] at hcopied
    split at hcopied
    next => cases hcopied
    next => exact h.copies g n data hcopied
  · intro path g n hsome hparse
    have hsome' : (s.volume.get path).isSome := by
      simp only [cleanupOldVersions, get_foldl_pop] at hsome
      split at hsome
      next => cases hsome
      next => exact hsome
    exact h.parsed path g n hsome' hparse

end Cleanup

end PlatformSpec.Storage
