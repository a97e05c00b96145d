import PlatformSpec.Base.Queue
import PlatformSpec.Schemas.Schema

/-!
# Resolving schemas on a heap

Models `SchemaResolver` of `core/schemas/resolver.py`. Schemas are dictionaries and lists on the
heap of a process: a copy of a dictionary refers to the same values, so that an assignment to a
value within it is an assignment to the value of what it was copied from.
-/

namespace PlatformSpec.Schemas

open Base Base.Heap

/-- A leaf, or the address of a dictionary or a list. -/
abbrev Value := Ref Leaf

/-- The heap, the registries and `SchemaResolver._cache`. The dictionary of a registered or a
cached schema is only ever copied, so that its entries are kept. -/
structure Process extends Store Leaf where
  registries : List (Registry Value)
  cache : String → Option (List (String × Value))

namespace Process

variable (p : Process)

/-- A new dictionary or list. -/
def alloc (c : Container Value) : Nat × Process :=
  (p.next, { p with nodes := Function.update p.nodes p.next (some c), next := p.next + 1 })

/-- The dictionary or list at an address becomes another. -/
def write (a : Nat) (c : Container Value) : Process :=
  { p with nodes := Function.update p.nodes a (some c) }

/-- `parent[key] = value`; the value has a place in its parent. -/
def assign (parent key : Nat) (value : Value) : Process :=
  match p.nodes parent with
  | some c => p.write parent (c.set key value)
  | none => p

/-- `copy.deepcopy`, or the reading of a file. -/
def build (schema : Schema) : Value × Process :=
  let (ref, store) := Heap.build schema p.toStore
  (ref, { p with toStore := store })

/-- `registry.get_schema`. -/
def getSchema (registry : Nat) (uri : String) : Option (List (String × Value)) :=
  (p.registries[registry]?).bind fun registry => registry.getSchema uri

/-- `_get_resolved_schema`: an empty dictionary counts as no schema. -/
def getResolvedSchema (registry : Nat) (uri : String) :
    Option (List (String × Value)) × Process :=
  match p.cache uri with
  | some cached => (some cached, p)
  | none =>
    match p.getSchema registry uri with
    | none | some [] => (none, p)
    | some schema =>
      let cleaned := removeMetadataFields schema
      (some cleaned, { p with cache := Function.update p.cache uri (some cleaned) })

end Process

/-- `QueueItem`: the current dictionary or list with the place of it in its parent. -/
structure QueueItem where
  current : Nat
  parent : Option (Nat × Nat)
  depth : Nat
  refPath : List String

/-- `SchemaResolver` with one of the registries. -/
structure SchemaResolver where
  registry : Nat
  maxDepth : Int

namespace SchemaResolver

variable (r : SchemaResolver)

/-- The loops of `_process_dict` and `_process_list` over the values from a place on; `none` is
`MaxDepthExceededError`. -/
def childItems (item : QueueItem) : Nat → List Value → Option (List QueueItem)
  | _, [] => some []
  | i, .leaf _ :: values => childItems item (i + 1) values
  | i, .addr a :: values =>
    if r.maxDepth ≤ item.depth + 1 then none
    else (childItems item (i + 1) values).map
      (⟨a, some (item.current, i), item.depth + 1, item.refPath⟩ :: ·)

/-- The end of `_resolve_ref`: the reference is replaced by the schema. -/
def replaceRef (item : QueueItem) (resolvedSchema : List (String × Value)) (refUri : String)
    (p : Process) : Option (List QueueItem) × Process :=
  let newRefPath := refUri :: item.refPath
  if r.maxDepth ≤ item.depth + 1 then (none, p)
  else
    match item.parent with
    | none =>
      (some [⟨item.current, none, item.depth + 1, newRefPath⟩],
        p.write item.current (.dict resolvedSchema))
    | some (parent, key) =>
      let (copied, p) := p.alloc (.dict resolvedSchema)
      (some [⟨copied, some (parent, key), item.depth + 1, newRefPath⟩],
        p.assign parent key (.addr copied))

/-- `_resolve_ref`. -/
def resolveRef (item : QueueItem) (entries : List (String × Value)) (refUri : String)
    (p : Process) : Option (List QueueItem) × Process :=
  if refUri ∈ item.refPath then
    (some [], p.write item.current
      (.dict (Assoc.assign entries "$circular_ref" (.leaf (.bool true)))))
  else
    match p.getResolvedSchema r.registry refUri with
    | (none, p) => (some [], p)
    | (some [], p) => (some [], p)
    | (some resolvedSchema, p) => r.replaceRef item resolvedSchema refUri p

/-- `_process_queue_item`. -/
def processQueueItem (item : QueueItem) (p : Process) : Option (List QueueItem) × Process :=
  match p.nodes item.current with
  | none => (some [], p)
  | some (.dict entries) =>
    match difyRef Ref.leaf? (.dict entries) with
    | some refUri => r.resolveRef item entries refUri p
    | none => (r.childItems item 0 (entries.map Prod.snd), p)
  | some (.list items) => (r.childItems item 0 items, p)

/-- `resolve`: a schema without references is returned as it is, another one as a copy in which
they are resolved; `none` is `MaxDepthExceededError`. -/
def resolve (schema : Schema) (p : Process) : Option Value × Process :=
  let (result, p) := p.build schema
  if !hasDifyRefs schema then (some result, p)
  else
    match result with
    | .leaf _ => (some result, p)
    | .addr root =>
      match Queue.drain r.processQueueItem (r.maxDepth.toNat + 1) [⟨root, none, 0, []⟩] p with
      | (true, p) => (some result, p)
      | (false, p) => (none, p)

end SchemaResolver

/-- `SchemaRegistry.load_all_versions`. -/
def loadRegistry : Registry Schema → Store Leaf → Registry Value × Store Leaf
  | [], s => ([], s)
  | (key, entries) :: registry, s =>
    let (entries, s) := buildEntries entries s
    let (registry, s) := loadRegistry registry s
    ((key, entries) :: registry, s)

def loadRegistries : List (Registry Schema) → Store Leaf → List (Registry Value) × Store Leaf
  | [], s => ([], s)
  | registry :: registries, s =>
    let (registry, s) := loadRegistry registry s
    let (registries, s) := loadRegistries registries s
    (registry :: registries, s)

/-- A fresh process that has loaded its registries. -/
def Process.fresh (registries : List (Registry Schema)) : Process :=
  let (registries, s) := loadRegistries registries ⟨fun _ => none, 0⟩
  { s with registries := registries, cache := fun _ => none }

/-- A call of `resolve` on a resolver. -/
structure Call extends SchemaResolver where
  schema : Schema

/-- A call in a process. -/
def Process.call (p : Process) (call : Call) : Option Value × Process := call.resolve call.schema p

/-- Calls one after the other. -/
def Process.run (p : Process) (calls : List Call) : Process :=
  calls.foldl (fun p call => (p.call call).2) p

end PlatformSpec.Schemas
