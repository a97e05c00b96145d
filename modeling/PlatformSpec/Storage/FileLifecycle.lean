import Mathlib.Data.List.Sort
import PlatformSpec.Base.Decimal
import PlatformSpec.Base.JsonRoundTrip
import PlatformSpec.Base.Numeral
import PlatformSpec.Base.OrderedDict
import PlatformSpec.Base.Run
import PlatformSpec.Base.Utf8

/-!
# Versions of files in a volume

Models `extensions/storage/clickzetta_volume/file_lifecycle.py`: the metadata of all files in one
JSON document, the copies of earlier versions and their cleanup. The storage is a dictionary from
paths to bytes whose operations succeed; a time is its `isoformat`. What raises after the storage
was changed leaves the change.
-/

namespace PlatformSpec.Storage

open Base

abbrev Bytes := List UInt8

/-- What the storage holds under each path. -/
abbrev Volume := OrderedDict String Bytes

/-- What is taken from libraries and the storage: `hashlib.md5`, the digits of `int` and the order
in which the paths are listed, where some may be left out. -/
structure Backend where
  md5 : Bytes → String
  digit : Char → Option Nat
  digit_ascii : ∀ {c d}, Numeral.asciiDigit c = some d → digit c = some d
  list : List String → List String
  list_nodup : ∀ {l}, l.Nodup → (list l).Nodup
  list_mem : ∀ {l p}, p ∈ list l → p ∈ l

inductive FileStatus where
  | active
  | archived
  | deleted
  | backup
  deriving DecidableEq

def FileStatus.value : FileStatus → String
  | .active => "active"
  | .archived => "archived"
  | .deleted => "deleted"
  | .backup => "backup"

/-- `FileMetadata`. -/
structure FileMetadata where
  filename : String
  size : Nat
  createdAt : String
  modifiedAt : String
  version : Nat
  status : FileStatus
  checksum : String
  tags : OrderedDict String String
  parentVersion : Option Nat

/-- `to_dict`. -/
def FileMetadata.toDict (m : FileMetadata) : Json :=
  .obj [("filename", .str m.filename), ("size", .num (toString m.size)),
    ("created_at", .str m.createdAt), ("modified_at", .str m.modifiedAt),
    ("version", .num (toString m.version)), ("status", .str m.status.value),
    ("checksum", .str m.checksum), ("tags", .obj (m.tags.entries.map fun p => (p.1, .str p.2))),
    ("parent_version", match m.parentVersion with
      | none => .null
      | some n => .num (toString n))]

/-! ## The documents -/

/-- `_metadata_file`. -/
def metadataFile : String := ".dify_file_metadata.json"

/-- `_version_prefix`. -/
def versionPrefix : String := ".versions/"

/-- `_deleted_prefix`. -/
def deletedPrefix : String := ".deleted/"

def versionFilename (filename : String) (version : Int) : String :=
  versionPrefix ++ filename ++ ".v" ++ toString version

def deletedFilename (filename stamp : String) : String :=
  deletedPrefix ++ filename ++ "." ++ stamp

/-- `_load_metadata`: a document that is not read counts as empty. -/
def loadMetadata (v : Volume) : OrderedDict String Json :=
  match v.get metadataFile with
  | none => default
  | some content =>
    match (Utf8.decode content).bind Json.loads with
    | some (.obj entries) => .ofPairs entries
    | _ => default

/-- `_save_metadata`. -/
def saveMetadata (metadataDict : OrderedDict String Json) (v : Volume) : Volume :=
  v.set metadataFile
    (Utf8.encode (Json.write (.indented 2) false 0 (.obj metadataDict.entries)))

/-- `metadata["version"]`. -/
def entryVersion : Json → Option Nat
  | .obj fields =>
    match fields.lookup "version" with
    | some (.num literal) => readNat literal.toList
    | _ => none
  | _ => none

/-- `metadata["created_at"]`. -/
def entryCreatedAt : Json → Option String
  | .obj fields =>
    match fields.lookup "created_at" with
    | some (.str time) => some time
    | _ => none
  | _ => none

/-- The metadata with another status. -/
def withStatus (status : FileStatus) (now : String) : Json → Json
  | .obj fields =>
    .obj (Assoc.assign (Assoc.assign fields "status" (.str status.value)) "modified_at" (.str now))
  | entry => entry

/-- `metadata_dict.get(filename)`, where an empty dictionary counts as missing. -/
def currentMetadata (v : Volume) (filename : String) : Option Json :=
  match (loadMetadata v).get filename with
  | some (.obj []) => none
  | entry => entry

/-! ## The operations -/

/-- `_create_version_backup`: what fails is only logged. -/
def createVersionBackup (filename : String) (metadata : Json) (v : Volume) : Volume :=
  match v.get filename, entryVersion metadata with
  | some currentData, some version => v.set (versionFilename filename version) currentData
  | _, _ => v

variable (env : Backend)

/-- `save_with_lifecycle`, at a time and with the answer of the permission check. -/
def saveWithLifecycle (now : String) (granted : Bool) (filename : String) (data : Bytes)
    (tags : OrderedDict String String) (v : Volume) : Volume × Option FileMetadata :=
  if granted = false then (v, none)
  else
    let metadataDict := loadMetadata v
    match currentMetadata v filename with
    | none =>
      let m : FileMetadata := {
        filename, size := data.length, createdAt := now, modifiedAt := now, version := 1,
        status := .active, checksum := env.md5 data, tags, parentVersion := none }
      (saveMetadata (metadataDict.set filename m.toDict) (v.set filename data), some m)
    | some current =>
      let v := createVersionBackup filename current v
      match entryVersion current with
      | none => (v, none)
      | some version =>
        let v := v.set filename data
        match entryCreatedAt current with
        | none => (v, none)
        | some createdAt =>
          let m : FileMetadata := {
            filename, size := data.length, createdAt, modifiedAt := now, version := version + 1,
            status := .active, checksum := env.md5 data, tags, parentVersion := some version }
          (saveMetadata (metadataDict.set filename m.toDict) v, some m)

/-- `restore_version`. -/
def restoreVersion (now : String) (granted : Bool) (filename : String) (version : Int)
    (v : Volume) : Volume × Bool :=
  match v.get (versionFilename filename version) with
  | none => (v, false)
  | some versionData =>
    let v := match currentMetadata v filename with
      | some current => createVersionBackup filename current v
      | none => v
    let restored := saveWithLifecycle env now granted filename versionData
      (.ofPairs [("restored_from", toString version)]) v
    (restored.1, restored.2.isSome)

/-- `archive_file`. -/
def archiveFile (now : String) (granted : Bool) (filename : String) (v : Volume) :
    Volume × Bool :=
  if granted = false then (v, false)
  else
    match (loadMetadata v).get filename with
    | none => (v, false)
    | some entry =>
      (saveMetadata ((loadMetadata v).set filename (withStatus .archived now entry)) v, true)

/-- `soft_delete_file`; the copy carries the stamp of its time. -/
def softDeleteFile (now stamp : String) (granted : Bool) (filename : String) (v : Volume) :
    Volume × Bool :=
  if granted = false then (v, false)
  else
    match v.get filename with
    | none => (v, false)
    | some fileData =>
      let v := (v.set (deletedFilename filename stamp) fileData).pop filename
      match (loadMetadata v).get filename with
      | none => (v, true)
      | some entry =>
        (saveMetadata ((loadMetadata v).set filename (withStatus .deleted now entry)) v, true)

/-- `scan`: the paths of files. -/
def scan (v : Volume) : List String :=
  (env.list (v.entries.map Prod.fst)).filter fun path => path.toList.getLast? ≠ some '/'

/-- The file and the version that a path is taken for: what stands before the first `.v` and the
number up to the next dot. -/
def parseVersionFile (path : String) : Option (String × Int) :=
  if versionPrefix.toList <+: path.toList then
    match Split.pieces ".v".toList (path.toList.drop versionPrefix.toList.length) with
    | baseFilename :: part :: _ =>
      (Numeral.readInt env.digit (String.ofList (part.takeWhile (· ≠ '.')))).map fun versionNum =>
        (String.ofList baseFilename, versionNum)
    | _ => none
  else none

/-- `file_versions`. -/
def fileVersions (paths : List String) : OrderedDict String (List (Int × String)) :=
  paths.foldl (fun groups path =>
    match parseVersionFile env path with
    | some (base, versionNum) =>
      groups.set base ((groups.get base).getD [] ++ [(versionNum, path)])
    | none => groups) default

/-- `l[start:]`. -/
def sliceFrom {α : Type} (l : List α) (start : Int) : List α :=
  if start < 0 then l.drop (l.length + start).toNat else l.drop start.toNat

/-- The newest versions first. -/
def newestFirst (versions : List (Int × String)) : List (Int × String) :=
  versions.mergeSort fun a b => decide (b.1 ≤ a.1)

/-- The versions of a file beyond the newest. -/
def versionsToDelete (maxVersions : Int) (versions : List (Int × String)) : List (Int × String) :=
  if maxVersions < versions.length then sliceFrom (newestFirst versions) maxVersions else []

/-- `cleanup_old_versions`; the age of a version is not looked at. -/
def cleanupOldVersions (maxVersions _maxAgeDays : Int) (v : Volume) : Volume × Nat :=
  let toDelete := (fileVersions env (scan env v)).entries.flatMap fun group =>
    versionsToDelete maxVersions group.2
  (toDelete.foldl (fun v version => v.pop version.2) v, toDelete.length)

/-! ## Runs -/

inductive Operation where
  | save (filename : String) (data : Bytes) (tags : OrderedDict String String)
  | restore (filename : String) (version : Int)
  | archive (filename : String)
  | softDelete (filename stamp : String)
  | cleanup (maxVersions maxAgeDays : Int)

/-- An operation at a time, with the answer of the permission check. -/
structure Event where
  op : Operation
  now : String
  granted : Bool

/-- The volume after an event. -/
def Event.apply (e : Event) (v : Volume) : Volume :=
  match e.op with
  | .save filename data tags => (saveWithLifecycle env e.now e.granted filename data tags v).1
  | .restore filename version => (restoreVersion env e.now e.granted filename version v).1
  | .archive filename => (archiveFile e.now e.granted filename v).1
  | .softDelete filename stamp => (softDeleteFile e.now stamp e.granted filename v).1
  | .cleanup maxVersions maxAgeDays => (cleanupOldVersions env maxVersions maxAgeDays v).1

/-- The file of which an event makes a new version, and the bytes it saves under it. -/
def Event.saved (e : Event) (v : Volume) : Option (String × Bytes) :=
  match e.op with
  | .save filename data tags =>
    (saveWithLifecycle env e.now e.granted filename data tags v).2.map fun _ => (filename, data)
  | .restore filename version =>
    if (restoreVersion env e.now e.granted filename version v).2 then
      (v.get (versionFilename filename version)).map fun data => (filename, data)
    else none
  | _ => none

/-- The version that the metadata of a file tell. -/
def currentVersion (v : Volume) (filename : String) : Option Nat :=
  (currentMetadata v filename).bind entryVersion

/-- A volume, with the numbers of all versions of each file and the bytes saved under them. -/
structure Lifecycle where
  volume : Volume
  versions : String → List (Nat × Bytes)

/-- An event, and the version it makes. -/
def Lifecycle.step (s : Lifecycle) (e : Event) : Lifecycle where
  volume := e.apply env s.volume
  versions filename :=
    match e.saved env s.volume with
    | some (saved, data) =>
      if filename = saved then
        s.versions filename ++
          [((currentVersion (e.apply env s.volume) filename).getD 0, data)]
      else s.versions filename
    | none => s.versions filename

/-! ## Paths and documents -/

theorem toList_versionFilename (filename : String) (n : Nat) :
    (versionFilename filename n).toList =
      versionPrefix.toList ++ (filename.toList ++ (['.', 'v'] ++ Nat.toDigits 10 n)) := by
  have hdecimal : (toString (n : Int)).toList = Nat.toDigits 10 n := decimal_ofNat n
  simp only [versionFilename, String.toList_append, List.append_assoc, hdecimal]
  rfl

private theorem takeWhile_reverse_digits (front : List Char) (n : Nat) :
    ((front ++ (['.', 'v'] ++ Nat.toDigits 10 n)).reverse.takeWhile Char.isDigit).reverse =
      Nat.toDigits 10 n := by
  have hdigits : ∀ c ∈ (Nat.toDigits 10 n).reverse, Char.isDigit c = true := by
    intro c hc
    exact isDigit_of_mem_digits (List.mem_reverse.mp hc)
  have hreverse : (front ++ (['.', 'v'] ++ Nat.toDigits 10 n)).reverse =
      (Nat.toDigits 10 n).reverse ++ ('v' :: '.' :: front.reverse) := by simp
  rw [hreverse, List.takeWhile_append_of_pos hdigits]
  simp

theorem versionFilename_injective {f g : String} {n k : Nat}
    (h : versionFilename f n = versionFilename g k) : f = g ∧ n = k := by
  have hlist := congrArg String.toList h
  rw [toList_versionFilename, toList_versionFilename] at hlist
  have hrest := List.append_cancel_left hlist
  have hdigits : Nat.toDigits 10 n = Nat.toDigits 10 k := by
    rw [← takeWhile_reverse_digits f.toList, hrest, takeWhile_reverse_digits]
  rw [hdigits] at hrest
  refine ⟨String.toList_injective (List.append_cancel_right hrest), ?_⟩
  have hnat := congrArg readNat hdigits
  rw [readNat_digits, readNat_digits] at hnat
  exact Option.some.inj hnat

theorem versionFilename_ne_metadata (f : String) (n : Nat) :
    versionFilename f n ≠ metadataFile := by
  intro h
  have hlist := congrArg (fun s : String => s.toList[1]?) h
  simp only [toList_versionFilename] at hlist
  have hfirst : (versionPrefix.toList ++ (f.toList ++ (['.', 'v'] ++ Nat.toDigits 10 n)))[1]? =
      some 'v' := rfl
  rw [hfirst] at hlist
  revert hlist
  decide

theorem deletedFilename_second (f stamp : String) :
    (deletedFilename f stamp).toList[2]? = some 'e' ∧
      (deletedFilename f stamp).toList[1]? = some 'd' := by
  simp only [deletedFilename, String.toList_append]
  exact ⟨rfl, rfl⟩

theorem deletedFilename_ne_version (f stamp g : String) (n : Nat) :
    deletedFilename f stamp ≠ versionFilename g n := by
  intro h
  have hlist := (deletedFilename_second f stamp).2
  rw [h, toList_versionFilename] at hlist
  have hfirst : (versionPrefix.toList ++ (g.toList ++ (['.', 'v'] ++ Nat.toDigits 10 n)))[1]? =
      some 'v' := rfl
  rw [hfirst] at hlist
  cases hlist

theorem deletedFilename_ne_metadata (f stamp : String) :
    deletedFilename f stamp ≠ metadataFile := by
  intro h
  have hlist := (deletedFilename_second f stamp).1
  rw [h] at hlist
  revert hlist
  decide

theorem deletedFilename_ne_self (f stamp : String) : deletedFilename f stamp ≠ f := by
  intro h
  have hlength := congrArg (fun s : String => s.toList.length) h
  have hprefix : deletedPrefix.toList.length = 9 := rfl
  simp only [deletedFilename, String.toList_append, List.length_append] at hlength
  omega

theorem loadMetadata_congr {v v' : Volume} (h : v.get metadataFile = v'.get metadataFile) :
    loadMetadata v = loadMetadata v' := by
  rw [loadMetadata, loadMetadata, h]

theorem loadMetadata_saveMetadata {metadataDict : OrderedDict String Json} (v : Volume)
    (h : ∀ f e, metadataDict.get f = some e → e.Valid) :
    loadMetadata (saveMetadata metadataDict v) = metadataDict := by
  have hvalid : (Json.obj metadataDict.entries).Valid := by
    refine ⟨metadataDict.nodup, Json.fieldsValid_iff.mpr fun p hp => ?_⟩
    exact h p.1 p.2 (OrderedDict.mem_iff.mp hp)
  rw [loadMetadata, saveMetadata, OrderedDict.get_set, if_pos rfl]
  simp only [Utf8.decode_encode, Option.bind_some, Json.loads_write _ _ _ hvalid,
    OrderedDict.ofPairs_entries]

/-- The metadata of a file with a current version. -/
structure EntryOf (version : Nat) (e : Json) : Prop where
  valid : e.Valid
  version_eq : entryVersion e = some version
  created : ∃ time, entryCreatedAt e = some time

theorem entryOf_toDict (m : FileMetadata) : EntryOf m.version m.toDict where
  valid := by
    have htags : (m.tags.entries.map fun p => (p.1, Json.str p.2)).map Prod.fst =
        m.tags.entries.map Prod.fst := by
      rw [List.map_map]
      rfl
    have hkeys : ["filename", "size", "created_at", "modified_at", "version", "status",
        "checksum", "tags", "parent_version"].Nodup := by decide
    refine ⟨hkeys, trivial, Json.valid_natural _, trivial, trivial, Json.valid_natural _, trivial,
      trivial, ⟨htags ▸ m.tags.nodup, Json.fieldsValid_iff.mpr ?_⟩, ?_, trivial⟩
    · intro p hp
      obtain ⟨q, -, rfl⟩ := List.mem_map.mp hp
      trivial
    · cases m.parentVersion with
      | none => trivial
      | some n => exact Json.valid_natural n
  version_eq := by
    show readNat (toString m.version).toList = some m.version
    rw [Nat.toString_eq_ofList_toDigits, String.toList_ofList, readNat_digits]
  created := ⟨m.createdAt, rfl⟩

theorem EntryOf.withStatus {version : Nat} {e : Json} (h : EntryOf version e)
    (status : FileStatus) (now : String) : EntryOf version (withStatus status now e) := by
  obtain ⟨hvalid, hversion, time, htime⟩ := h
  cases e with
  | obj fields =>
    refine ⟨⟨?_, ?_⟩, ?_, time, ?_⟩
    · exact OrderedDict.nodup_assign (OrderedDict.nodup_assign hvalid.1 _ _) _ _
    · refine Json.fieldsValid_iff.mpr fun p hp => ?_
      rcases Assoc.mem_assign hp with rfl | hp
      · trivial
      · rcases Assoc.mem_assign hp with rfl | hp
        · trivial
        · exact Json.fieldsValid_iff.mp hvalid.2 p hp
    · rw [← hversion]
      simp only [Storage.withStatus, entryVersion, Assoc.lookup_assign]
      rfl
    · rw [← htime]
      simp only [Storage.withStatus, entryCreatedAt, Assoc.lookup_assign]
      rfl
  | _ => cases hversion

end PlatformSpec.Storage
