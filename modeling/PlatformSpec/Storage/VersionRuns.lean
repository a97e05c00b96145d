import PlatformSpec.Storage.FileVersions

/-!
# Versions over runs

Every event keeps the agreement of metadata and copies when files are named apart and nothing is
saved whose current version is gone. So versions are faithful in such runs, and are not when a
deleted file is saved again.
-/

namespace PlatformSpec.Storage

open Base

/-! ## Events -/

section Events

variable {env : Backend} {m : Nat} {s : Lifecycle} {f : String}

theorem saveWithLifecycle_eq (h : Consistent env m s) (now f : String) (data : Bytes)
    (tags : OrderedDict String String) : ∃ file : FileMetadata,
      file.version = (s.versions f).length + 1 ∧
      saveWithLifecycle env now true f data tags s.volume =
        (saveMetadata ((loadMetadata (backedUp f s.volume)).set f file.toDict)
          ((backedUp f s.volume).set f data), some file) := by
  have hload : loadMetadata (backedUp f s.volume) = loadMetadata s.volume := by
    apply loadMetadata_congr
    rcases backedUp_eq (f := f) h with heq | ⟨data', -, -, heq⟩
    · rw [heq]
    · rw [heq, OrderedDict.get_set, if_neg (versionFilename_ne_metadata _ _).symm]
  rw [hload, saveWithLifecycle, if_neg Bool.noConfusion]
  rcases h.entry f with ⟨hnil, hnone⟩ | ⟨e, he, hne, hentry⟩
  · have hcurrent : currentMetadata s.volume f = none := by rw [h.currentMetadata_eq, hnone]
    have hcopy : backedUp f s.volume = s.volume := by rw [backedUp, hcurrent]
    rw [hcopy, hnil]
    simp only [hcurrent]
    exact ⟨_, rfl, rfl⟩
  · have hcurrent : currentMetadata s.volume f = some e := by rw [h.currentMetadata_eq, he]
    have hcopy : backedUp f s.volume = createVersionBackup f e s.volume := by
      rw [backedUp, hcurrent]
    obtain ⟨time, htime⟩ := hentry.created
    rw [hcopy]
    simp only [hcurrent, hentry.version_eq, htime]
    exact ⟨_, rfl, rfl⟩

/-- A save that is permitted makes a version, if the current one can be copied. -/
theorem consistent_save (h : Consistent env m s) (hplain : Plain env f)
    (hpresent : Present f s.volume) (now : String) (data : Bytes)
    (tags : OrderedDict String String) :
    Consistent env m ⟨(saveWithLifecycle env now true f data tags s.volume).1,
      withVersion s.versions f data⟩ := by
  obtain ⟨file, hversion, hsave⟩ := saveWithLifecycle_eq h now f data tags
  rw [hsave]
  refine consistent_write (consistent_backedUp h) hplain (get_backedUp h hpresent) ?_ data
  show EntryOf ((s.versions f).length + 1) _
  rw [← hversion]
  exact entryOf_toDict file

theorem currentVersion_saveWithLifecycle (h : Consistent env m s) (now f : String) (data : Bytes)
    (tags : OrderedDict String String) :
    currentVersion (saveWithLifecycle env now true f data tags s.volume).1 f =
      some ((s.versions f).length + 1) := by
  obtain ⟨file, hversion, hsave⟩ := saveWithLifecycle_eq h now f data tags
  have hentry := entryOf_toDict file
  have hload : loadMetadata (saveWithLifecycle env now true f data tags s.volume).1 =
      (loadMetadata (backedUp f s.volume)).set f file.toDict := by
    rw [hsave]
    apply loadMetadata_saveMetadata
    intro g e hg
    rw [OrderedDict.get_set] at hg
    split at hg
    next =>
      cases hg
      exact hentry.valid
    next => exact ((consistent_backedUp (f := f) h).entry_of_get hg).2.valid
  rw [currentVersion, currentMetadata, hload, OrderedDict.get_set, if_pos rfl, ← hversion]
  exact hentry.version_eq

theorem step_of_saved {e : Event} {data : Bytes} (hsaved : e.saved env s.volume = some (f, data))
    (hcurrent : currentVersion (e.apply env s.volume) f = some ((s.versions f).length + 1)) :
    s.step env e = ⟨e.apply env s.volume, withVersion s.versions f data⟩ := by
  rw [Lifecycle.step, hsaved]
  congr 1
  funext g
  by_cases hg : g = f
  · rw [hg, withVersion, if_pos rfl]
    simp only [if_true, hcurrent, Option.getD_some]
  · rw [withVersion, if_neg hg]
    simp only [if_neg hg]

theorem step_of_not_saved {e : Event} (hsaved : e.saved env s.volume = none) :
    s.step env e = ⟨e.apply env s.volume, s.versions⟩ := by
  rw [Lifecycle.step, hsaved]

/-- An event that leaves versions what they are: files are named apart, a file whose current version
is nowhere is not saved again, a deleted file takes no other file's place, and a cleanup keeps as
many versions. -/
def Allowed (env : Backend) (m : Nat) (v : Volume) (e : Event) : Prop :=
  match e.op with
  | .save filename _ _ => e.granted = true → Plain env filename ∧ Present filename v
  | .restore filename version =>
    e.granted = true → (v.get (versionFilename filename version)).isSome →
      Plain env filename ∧ Present filename v
  | .archive _ => True
  | .softDelete filename stamp =>
    e.granted = true → (v.get filename).isSome →
      Plain env filename ∧ currentMetadata v (deletedFilename filename stamp) = none
  | .cleanup maxVersions _ => m ≤ maxVersions

/-- A save that is permitted makes the next version, whether the current one is copied or not. -/
theorem step_save (h : Consistent env m s) (now f : String) (data : Bytes)
    (tags : OrderedDict String String) :
    s.step env ⟨.save f data tags, now, true⟩ =
      ⟨(saveWithLifecycle env now true f data tags s.volume).1,
        withVersion s.versions f data⟩ := by
  refine step_of_saved ?_ (currentVersion_saveWithLifecycle h now f data tags)
  obtain ⟨file, -, heq⟩ := saveWithLifecycle_eq h now f data tags
  simp only [Event.saved, heq, Option.map_some]

private theorem consistent_step_save (h : Consistent env m s) (now : String) (granted : Bool)
    (f : String) (data : Bytes) (tags : OrderedDict String String)
    (hallowed : granted = true → Plain env f ∧ Present f s.volume) :
    Consistent env m (s.step env ⟨.save f data tags, now, granted⟩) := by
  cases granted with
  | false =>
    rw [step_of_not_saved rfl]
    exact h
  | true =>
    obtain ⟨hplain, hpresent⟩ := hallowed rfl
    rw [step_save h]
    exact consistent_save h hplain hpresent now data tags

theorem restoreVersion_eq {version : Int} {data : Bytes}
    (hdata : s.volume.get (versionFilename f version) = some data) (now : String)
    (granted : Bool) : restoreVersion env now granted f version s.volume =
      ((saveWithLifecycle env now granted f data
          (.ofPairs [("restored_from", toString version)]) (backedUp f s.volume)).1,
        (saveWithLifecycle env now granted f data
          (.ofPairs [("restored_from", toString version)]) (backedUp f s.volume)).2.isSome) := by
  rw [restoreVersion, hdata]
  rfl

private theorem present_backedUp (h : Consistent env m s) (hplain : Plain env f)
    (hpresent : Present f s.volume) : Present f (backedUp f s.volume) := by
  rcases backedUp_eq (f := f) h with heq | ⟨data, hne, hdata, heq⟩
  · rw [heq]
    exact hpresent
  · right
    left
    rw [heq, OrderedDict.get_set, if_neg (hplain.not_version f _), hdata]
    rfl

private theorem consistent_step_restore (h : Consistent env m s) (now : String) (granted : Bool)
    (f : String) (version : Int)
    (hallowed : granted = true → (s.volume.get (versionFilename f version)).isSome →
      Plain env f ∧ Present f s.volume) :
    Consistent env m (s.step env ⟨.restore f version, now, granted⟩) := by
  have hcopy := consistent_backedUp (f := f) h
  cases hdata : s.volume.get (versionFilename f version) with
  | none =>
    have heq : restoreVersion env now granted f version s.volume = (s.volume, false) := by
      rw [restoreVersion, hdata]
    have hsaved : Event.saved env ⟨.restore f version, now, granted⟩ s.volume = none := by
      simp only [Event.saved, heq]
      rfl
    rw [step_of_not_saved hsaved]
    simp only [Event.apply, heq]
    exact h
  | some data =>
    have heq := @restoreVersion_eq env s f version data hdata now granted
    cases granted with
    | false =>
      have hdenied : restoreVersion env now false f version s.volume =
          (backedUp f s.volume, false) := heq
      have hsaved : Event.saved env ⟨.restore f version, now, false⟩ s.volume = none := by
        simp only [Event.saved, hdenied]
        rfl
      rw [step_of_not_saved hsaved]
      simp only [Event.apply, hdenied]
      exact hcopy
    | true =>
      obtain ⟨hplain, hpresent⟩ := hallowed rfl (by rw [hdata]; rfl)
      have hsave := consistent_save hcopy hplain (present_backedUp h hplain hpresent) now data
        (.ofPairs [("restored_from", toString version)])
      obtain ⟨file, -, hresult⟩ := saveWithLifecycle_eq hcopy now f data
        (.ofPairs [("restored_from", toString version)])
      have hsome : (restoreVersion env now true f version s.volume).2 = true := by
        rw [heq]
        simp only at hresult
        rw [hresult]
        rfl
      have hsaved : Event.saved env ⟨.restore f version, now, true⟩ s.volume = some (f, data) := by
        simp only [Event.saved, hsome, if_true, hdata, Option.map_some]
      have happly : Event.apply env ⟨.restore f version, now, true⟩ s.volume =
          (saveWithLifecycle env now true f data
            (.ofPairs [("restored_from", toString version)]) (backedUp f s.volume)).1 := by
        simp only [Event.apply, heq]
      have hcurrent := currentVersion_saveWithLifecycle hcopy now f data
        (.ofPairs [("restored_from", toString version)])
      rw [step_of_saved hsaved (happly ▸ hcurrent), happly]
      exact hsave

private theorem consistent_step_archive (h : Consistent env m s) (now : String) (granted : Bool)
    (f : String) : Consistent env m (s.step env ⟨.archive f, now, granted⟩) := by
  rw [step_of_not_saved rfl]
  simp only [Event.apply, archiveFile]
  split
  next => exact h
  next =>
    split
    next => exact h
    next e he => exact consistent_status h he .archived now

theorem step_softDelete (now : String) (granted : Bool) (f stamp : String) :
    s.step env ⟨.softDelete f stamp, now, granted⟩ =
      ⟨(softDeleteFile now stamp granted f s.volume).1, s.versions⟩ :=
  step_of_not_saved rfl

theorem get_softDeleteFile {v : Volume} {data : Bytes} (hdata : v.get f = some data)
    (now stamp : String) {path : String} (hmetadata : path ≠ metadataFile)
    (hdeleted : path ≠ deletedFilename f stamp) :
    (softDeleteFile now stamp true f v).1.get path = if path = f then none else v.get path := by
  have hmoved : ((v.set (deletedFilename f stamp) data).pop f).get path =
      if path = f then none else v.get path := by
    rw [OrderedDict.get_pop, OrderedDict.get_set, if_neg hdeleted]
  rw [softDeleteFile, if_neg Bool.noConfusion, hdata]
  simp only
  split
  next => exact hmoved
  next => rw [saveMetadata, OrderedDict.get_set, if_neg hmetadata, hmoved]

theorem get_step_softDelete {data : Bytes} (hdata : s.volume.get f = some data)
    (now stamp : String) {path : String} (hmetadata : path ≠ metadataFile)
    (hdeleted : path ≠ deletedFilename f stamp) :
    (s.step env ⟨.softDelete f stamp, now, true⟩).volume.get path =
      if path = f then none else s.volume.get path := by
  rw [step_softDelete]
  exact get_softDeleteFile hdata now stamp hmetadata hdeleted

private theorem consistent_step_softDelete (h : Consistent env m s) (now : String)
    (granted : Bool) (f stamp : String)
    (hallowed : granted = true → (s.volume.get f).isSome →
      Plain env f ∧ currentMetadata s.volume (deletedFilename f stamp) = none) :
    Consistent env m (s.step env ⟨.softDelete f stamp, now, granted⟩) := by
  rw [step_softDelete]
  simp only [softDeleteFile]
  split
  next => exact h
  next hgranted =>
    split
    next => exact h
    next data hdata =>
      obtain ⟨hplain, hfree⟩ := hallowed (Bool.not_eq_false _ ▸ hgranted) (by rw [hdata]; rfl)
      have hdeleted : s.versions (deletedFilename f stamp) = [] := by
        by_contra hne
        obtain ⟨e, he, -⟩ := h.entry_of_mem hne
        rw [h.currentMetadata_eq, he] at hfree
        cases hfree
      have hmoved := consistent_moved h hplain hdeleted data
      split
      next => exact hmoved
      next e he => exact consistent_status hmoved he .deleted now

/-- An allowed event keeps the document and the copies in agreement with the versions. -/
theorem consistent_step (h : Consistent env m s) (e : Event) (hallowed : Allowed env m s.volume e) :
    Consistent env m (s.step env e) := by
  obtain ⟨op, now, granted⟩ := e
  cases op with
  | save filename data tags => exact consistent_step_save h now granted filename data tags hallowed
  | restore filename version =>
    exact consistent_step_restore h now granted filename version hallowed
  | archive filename => exact consistent_step_archive h now granted filename
  | softDelete filename stamp =>
    exact consistent_step_softDelete h now granted filename stamp hallowed
  | cleanup maxVersions maxAgeDays =>
    rw [step_of_not_saved rfl]
    exact consistent_cleanup h hallowed maxAgeDays

/-- A volume without a metadata document and without copies of versions. -/
structure Fresh (env : Backend) (v : Volume) : Prop where
  no_metadata : v.get metadataFile = none
  no_copies : ∀ f (n : Nat), v.get (versionFilename f n) = none
  no_versions : ∀ path, (v.get path).isSome → parseVersionFile env path = none

theorem consistent_fresh {v : Volume} (h : Fresh env v) : Consistent env m ⟨v, fun _ => []⟩ where
  plain f hf := absurd rfl hf
  entry f := by
    left
    refine ⟨rfl, ?_⟩
    show (loadMetadata v).get f = none
    rw [loadMetadata, h.no_metadata]
    rfl
  numbered f := rfl
  main f data hf := absurd rfl hf
  backup f n data hmem := absurd hmem List.not_mem_nil
  copies f n data hdata := by
    rw [h.no_copies] at hdata
    cases hdata
  parsed path f n hsome hparse := by
    rw [h.no_versions path hsome] at hparse
    cases hparse

theorem restorable (h : Consistent env m s) {n : Nat} {data : Bytes}
    (hmem : (n, data) ∈ s.versions f) (hlt : n < (s.versions f).length)
    (hnew : (s.versions f).length < n + m) (now : String) :
    ∃ v, restoreVersion env now true f n s.volume = (v, true) ∧ v.get f = some data := by
  have hplain := h.plain f (List.ne_nil_of_mem hmem)
  have heq := @restoreVersion_eq env s f n data (h.backup f n data hmem hlt hnew) now true
  obtain ⟨file, -, hresult⟩ := saveWithLifecycle_eq (consistent_backedUp (f := f) h) now f data
    (.ofPairs [("restored_from", toString (n : Int))])
  simp only at hresult
  rw [hresult] at heq
  refine ⟨_, heq, ?_⟩
  rw [saveMetadata, OrderedDict.get_set, if_neg hplain.not_metadata, OrderedDict.get_set,
    if_pos rfl]

/-- The state after events, from a volume of which no versions are known. -/
def lifecycle (env : Backend) (v : Volume) (events : List Event) : Option Lifecycle :=
  run (fun (s : Lifecycle) e => some (s.step env e)) ⟨v, fun _ => []⟩ events

theorem lifecycle_eq (v : Volume) (events : List Event) :
    lifecycle env v events = some (events.foldl (Lifecycle.step env) ⟨v, fun _ => []⟩) := by
  rw [lifecycle]
  generalize (⟨v, fun _ => []⟩ : Lifecycle) = s
  induction events generalizing s with
  | nil => rfl
  | cons e events ih => exact ih (s.step env e)

/-- Each version of a file that is not the current one and among its newest `m` is restored with
the bytes that were saved under it, and a cleanup deletes none of the newest versions of a file
that it is to keep. -/
def Faithful (env : Backend) (m : Nat) (s : Lifecycle) : Prop :=
  (∀ f n data current, (n, data) ∈ s.versions f → currentVersion s.volume f = some current →
    n ≠ current → current < n + m → ∀ now, ∃ v,
      restoreVersion env now true f n s.volume = (v, true) ∧ v.get f = some data) ∧
  ∀ f n data current maxVersions maxAgeDays, (n, data) ∈ s.versions f →
    currentVersion s.volume f = some current → (current : Int) < n + maxVersions →
      (cleanupOldVersions env maxVersions maxAgeDays s.volume).1.get (versionFilename f n) =
          s.volume.get (versionFilename f n) ∧
        (cleanupOldVersions env maxVersions maxAgeDays s.volume).1.get f = s.volume.get f

/-- Versions are faithful in every run from a fresh volume whose events are all allowed. -/
theorem versions_faithful {v : Volume} (hfresh : Fresh env v) {events : List Event}
    (hrun : lifecycle env v events = some s)
    (hallowed : ∀ pre e post s', events = pre ++ e :: post → lifecycle env v pre = some s' →
      Allowed env m s'.volume e) : Faithful env m s := by
  have hconsistent : Consistent env m s := by
    refine run_induction (fun s e => Allowed env m s.volume e) ?_ (consistent_fresh hfresh)
      hallowed hrun
    rintro s e s' hs he hstep
    cases hstep
    exact consistent_step hs e he
  have hcurrent : ∀ {f n data current}, (n, data) ∈ s.versions f →
      currentVersion s.volume f = some current → current = (s.versions f).length := by
    intro f n data current hmem hversion
    rw [hconsistent.currentVersion_eq (List.ne_nil_of_mem hmem)] at hversion
    exact (Option.some.inj hversion).symm
  constructor
  · intro f n data current hmem hversion hne hnew now
    have hlength := hcurrent hmem hversion
    have hle := (hconsistent.number_le hmem).2
    exact restorable hconsistent hmem (by omega) (by omega) now
  · intro f n data current maxVersions maxAgeDays hmem hversion hnew
    have hlength := hcurrent hmem hversion
    have hle := (hconsistent.number_le hmem).2
    have hpos : 0 ≤ maxVersions := by omega
    constructor
    · exact get_cleanup_of_newest hconsistent hpos (by omega)
    · have hplain := hconsistent.plain f (List.ne_nil_of_mem hmem)
      exact get_cleanup_of_not_parsed hconsistent hpos hplain.not_parsed

/-- A file that is saved while its current version is nowhere loses that version. -/
theorem not_faithful_of_absent (h : Consistent env m s) (hm : 2 ≤ m) (hplain : Plain env f)
    (hne : s.versions f ≠ []) (habsent : s.volume.get f = none)
    (hcopy : s.volume.get (versionFilename f (s.versions f).length) = none) (now : String)
    (data : Bytes) (tags : OrderedDict String String) :
    ¬ Faithful env m (s.step env ⟨.save f data tags, now, true⟩) := by
  intro hfaithful
  have hlength := List.length_pos_iff.mpr hne
  obtain ⟨⟨n, last⟩, hlast, hn⟩ : ∃ p ∈ s.versions f, p.1 = (s.versions f).length := by
    rw [← List.mem_map, h.numbered, List.mem_range'_1]
    omega
  obtain rfl : n = (s.versions f).length := hn
  have hbacked : backedUp f s.volume = s.volume := by
    rcases backedUp_eq (f := f) h with heq | ⟨data', -, hdata', -⟩
    · exact heq
    · rw [habsent] at hdata'
      cases hdata'
  obtain ⟨file, -, hsave⟩ := saveWithLifecycle_eq h now f data tags
  have hcurrent := currentVersion_saveWithLifecycle h now f data tags
  rw [step_save h] at hfaithful
  have hkept : ((s.versions f).length, last) ∈ withVersion s.versions f data f := by
    rw [withVersion, if_pos rfl]
    exact List.mem_append_left _ hlast
  have hnone : (saveWithLifecycle env now true f data tags s.volume).1.get
      (versionFilename f (s.versions f).length) = none := by
    rw [hsave, saveMetadata, OrderedDict.get_set, if_neg (versionFilename_ne_metadata _ _),
      OrderedDict.get_set, if_neg (hplain.not_version _ _).symm, hbacked, hcopy]
  obtain ⟨v, hrestored, -⟩ := hfaithful.1 f (s.versions f).length last _ hkept hcurrent (by omega)
    (by omega) now
  rw [restoreVersion, hnone] at hrestored
  exact Bool.false_ne_true (congrArg Prod.snd hrestored)

end Events

/-! ## Names without `.v` -/

section Names

variable {env : Backend} {f : String}

/-- A name without `.v`, which is not among the copies and not the document's, is apart. -/
theorem plain_of_not_infix (hmetadata : f ≠ metadataFile)
    (hstart : ¬ versionPrefix.toList <+: f.toList) (hv : ¬ ['.', 'v'] <:+: f.toList) :
    Plain env f where
  not_metadata := hmetadata
  not_version other n := by
    rintro rfl
    apply hstart
    rw [toList_versionFilename]
    exact List.prefix_append _ _
  not_parsed := if_neg hstart
  own n p hparse := by
    have hdigits : ¬ ['.', 'v'] <:+: Nat.toDigits 10 n := by
      intro hinfix
      have hdot : '.' ∈ Nat.toDigits 10 n := hinfix.subset List.mem_cons_self
      cases isDigit_of_mem_digits hdot
    have hpieces : Split.pieces ".v".toList (f.toList ++ (['.', 'v'] ++ Nat.toDigits 10 n)) =
        [f.toList, Nat.toDigits 10 n] := by
      have hcut := Split.cut_pair (b := Nat.toDigits 10 n) (by decide) hv
      have hrest := Split.pieces_of_not_mem hdigits
      rw [show ".v".toList = ['.', 'v'] from rfl,
        Split.pieces_of_cut (List.cons_ne_nil _ _) hcut, hrest]
    have hnumber : (Nat.toDigits 10 n).takeWhile (· ≠ '.') = Nat.toDigits 10 n := by
      refine List.takeWhile_eq_self_iff.mpr fun c hc => decide_eq_true ?_
      rintro rfl
      cases isDigit_of_mem_digits hc
    have hversions : versionPrefix.toList <+: (versionFilename f n).toList := by
      rw [toList_versionFilename]
      exact List.prefix_append _ _
    rw [parseVersionFile, if_pos hversions, toList_versionFilename, List.drop_left,
      hpieces] at hparse
    simp only [hnumber, Numeral.readInt_toDigits env.digit env.digit_ascii] at hparse
    split at hparse
    next =>
      cases hparse
      rw [String.ofList_toList]
    next => cases hparse

end Names

/-! ## Runs that keep versions, and one that does not -/

/-- A storage that lists its paths in the order in which they came. -/
def plainBackend : Backend where
  md5 _ := ""
  digit := Numeral.asciiDigit
  digit_ascii h := h
  list := id
  list_nodup h := h
  list_mem h := h

-- The copy of the seventh version of `report.v2.txt` is taken for the second one of `report`.
example : parseVersionFile plainBackend ".versions/report.v2.txt.v7" = some ("report", 2) := by
  decide +kernel

private theorem fresh_empty (env : Backend) : Fresh env default where
  no_metadata := rfl
  no_copies _ _ := rfl
  no_versions path h := by cases h

private theorem plain_report (env : Backend) : Plain env "report.pdf" :=
  plain_of_not_infix (by decide) (by decide) (by decide)

def saveReport (data : Bytes) (now : String) : Event :=
  ⟨.save "report.pdf" data default, now, true⟩

def deleteReport (stamp now : String) : Event :=
  ⟨.softDelete "report.pdf" stamp, now, true⟩

section Report

variable {m : Nat} {s : Lifecycle}

private theorem step_saveReport (h : Consistent plainBackend m s) (data : Bytes) (now : String) :
    ∃ file : FileMetadata, s.step plainBackend (saveReport data now) =
      ⟨saveMetadata ((loadMetadata (backedUp "report.pdf" s.volume)).set "report.pdf" file.toDict)
        ((backedUp "report.pdf" s.volume).set "report.pdf" data),
          withVersion s.versions "report.pdf" data⟩ := by
  obtain ⟨file, -, heq⟩ := saveWithLifecycle_eq h now "report.pdf" data default
  refine ⟨file, ?_⟩
  rw [saveReport, step_save h, heq]

private theorem get_saveReport (h : Consistent plainBackend m s) (data : Bytes) (now : String)
    {path : String} (hpath : path ≠ metadataFile) :
    (s.step plainBackend (saveReport data now)).volume.get path =
      if path = "report.pdf" then some data else (backedUp "report.pdf" s.volume).get path := by
  obtain ⟨file, heq⟩ := step_saveReport h data now
  rw [heq, saveMetadata, OrderedDict.get_set, if_neg hpath, OrderedDict.get_set]

private theorem versions_saveReport (h : Consistent plainBackend m s) (data : Bytes)
    (now : String) : (s.step plainBackend (saveReport data now)).versions =
      withVersion s.versions "report.pdf" data := by
  obtain ⟨file, heq⟩ := step_saveReport h data now
  rw [heq]

private theorem currentVersion_saveReport (h : Consistent plainBackend m s) (data : Bytes)
    (now : String) :
    currentVersion (s.step plainBackend (saveReport data now)).volume "report.pdf" =
      some ((s.versions "report.pdf").length + 1) := by
  rw [saveReport, step_save h]
  exact currentVersion_saveWithLifecycle h now "report.pdf" data default

end Report

/-- The report is saved once. -/
private def savedOnce : Lifecycle :=
  Lifecycle.step plainBackend ⟨default, fun _ => []⟩ (saveReport [1] "2026-01-01T00:00:00")

private theorem consistent_empty (m : Nat) : Consistent plainBackend m ⟨default, fun _ => []⟩ :=
  consistent_fresh (fresh_empty plainBackend)

private theorem consistent_savedOnce (m : Nat) : Consistent plainBackend m savedOnce :=
  consistent_step (consistent_empty m) _ fun _ => ⟨plain_report _, .inl rfl⟩

private theorem versions_savedOnce : savedOnce.versions =
    withVersion (fun _ => []) "report.pdf" [1] :=
  versions_saveReport (consistent_empty 0) [1] _

private theorem get_savedOnce {path : String} (hpath : path ≠ metadataFile) :
    savedOnce.volume.get path = if path = "report.pdf" then some [1] else none :=
  get_saveReport (consistent_empty 0) [1] _ hpath

private theorem present_savedOnce : Present "report.pdf" savedOnce.volume := by
  right
  left
  rw [get_savedOnce (plain_report plainBackend).not_metadata, if_pos rfl]
  rfl

private theorem reportDeleted_eq (stamp now : String) :
    savedOnce.step plainBackend (deleteReport stamp now) =
      ⟨(softDeleteFile now stamp true "report.pdf" savedOnce.volume).1, savedOnce.versions⟩ :=
  step_softDelete now true "report.pdf" stamp

private theorem versions_reportDeleted (stamp now : String) :
    (savedOnce.step plainBackend (deleteReport stamp now)).versions =
      withVersion (fun _ => []) "report.pdf" [1] := by
  rw [reportDeleted_eq, versions_savedOnce]

private theorem consistent_reportDeleted (stamp now : String) :
    Consistent plainBackend 5 (savedOnce.step plainBackend (deleteReport stamp now)) := by
  have hsaved := consistent_savedOnce 5
  refine consistent_step hsaved _ fun _ _ => ⟨plain_report _, ?_⟩
  rw [hsaved.currentMetadata_eq]
  rcases hsaved.entry (deletedFilename "report.pdf" stamp) with ⟨-, hnone⟩ | ⟨-, -, hne, -⟩
  · exact hnone
  · rw [versions_savedOnce] at hne
    exact absurd (if_neg (deletedFilename_ne_self _ _)) hne

private theorem get_reportDeleted (stamp now : String) {path : String}
    (hmetadata : path ≠ metadataFile) (hdeleted : path ≠ deletedFilename "report.pdf" stamp) :
    (savedOnce.step plainBackend (deleteReport stamp now)).volume.get path = none := by
  have hreport : savedOnce.volume.get "report.pdf" = some [1] := by
    rw [get_savedOnce (plain_report plainBackend).not_metadata, if_pos rfl]
  rw [deleteReport, get_step_softDelete hreport now stamp hmetadata hdeleted]
  by_cases hpath : path = "report.pdf"
  · rw [if_pos hpath]
  · rw [if_neg hpath, get_savedOnce hmetadata, if_neg hpath]

theorem report_restored : ∃ s, lifecycle plainBackend default
      [saveReport [1] "2026-01-01T00:00:00", saveReport [2] "2026-01-02T00:00:00"] = some s ∧
    ∀ now, ∃ v, restoreVersion plainBackend now true "report.pdf" 1 s.volume = (v, true) ∧
      v.get "report.pdf" = some [1] := by
  have hsaved := consistent_savedOnce 2
  have hrun : lifecycle plainBackend default
      [saveReport [1] "2026-01-01T00:00:00", saveReport [2] "2026-01-02T00:00:00"] =
        some (savedOnce.step plainBackend (saveReport [2] "2026-01-02T00:00:00")) := by
    rw [lifecycle_eq, List.foldl_cons, List.foldl_cons, List.foldl_nil, savedOnce]
  refine ⟨_, hrun, fun now => ?_⟩
  refine (versions_faithful (m := 2) (fresh_empty plainBackend) hrun ?_).1 "report.pdf" 1 [1] 2 ?_
    (currentVersion_saveReport hsaved [2] _) (by decide) (by decide) now
  · intro pre e post s' hevents hpre
    match pre with
    | [] =>
      cases hevents
      cases hpre
      exact fun _ => ⟨plain_report _, .inl rfl⟩
    | [_] =>
      cases hevents
      cases hpre
      exact fun _ => ⟨plain_report _, present_savedOnce⟩
    | [_, _] => simp at hevents
    | _ :: _ :: _ :: _ => simp at hevents
  · rw [versions_saveReport hsaved, versions_savedOnce]
    simp [withVersion]

/-- A file saved again after it was deleted loses the version that was deleted. -/
theorem not_faithful_saved_after_delete : ∃ s, lifecycle plainBackend default
      [saveReport [1] "2026-01-01T00:00:00", deleteReport "20260102_000000" "2026-01-02T00:00:00",
        saveReport [2] "2026-01-03T00:00:00"] = some s ∧
    ¬ Faithful plainBackend 5 s := by
  have hplain := plain_report plainBackend
  have hdeleted := consistent_reportDeleted "20260102_000000" "2026-01-02T00:00:00"
  refine ⟨(savedOnce.step plainBackend
    (deleteReport "20260102_000000" "2026-01-02T00:00:00")).step plainBackend
      (saveReport [2] "2026-01-03T00:00:00"), ?_, ?_⟩
  · rw [lifecycle_eq, List.foldl_cons, List.foldl_cons, List.foldl_cons, List.foldl_nil, savedOnce]
  refine not_faithful_of_absent hdeleted (by decide) hplain ?_ ?_ ?_ _ [2] default
  · rw [versions_reportDeleted]
    simp [withVersion]
  · exact get_reportDeleted _ _ hplain.not_metadata (deletedFilename_ne_self _ _).symm
  · exact get_reportDeleted _ _ (versionFilename_ne_metadata _ _)
      (deletedFilename_ne_version _ _ _ _).symm

end PlatformSpec.Storage
