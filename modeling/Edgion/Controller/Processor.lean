import Edgion.Common.Text
import Edgion.ConfSync.Model
import Edgion.Workqueue.Model

/-!
# Controller — the resource processor

For each kind of resource a processor turns the objects of the watch store
into the objects of the server's cache. A work item names a key; the
processor looks at what the store holds under it. An object goes through
filters, is cleaned, validated and parsed by the handler of its kind, gets
its status and is saved. A key the store has lost is deleted from the
cache. An object that a filter or the parse turns away is skipped.

A handler may read and write what all handlers share (references to
secrets, listener ports, routes), which is the world here. No handler
changes the namespace or the name of an object.
-/

namespace Edgion.Controller

open ConfSync (Resource ResourceChange WatcherEvent EventStore resourceKey)
open Workqueue (TriggerChain)

universe u v

/-! ## Objects -/

inductive StatusExtractResult
  | present (status : String)
  | empty
  | serializationError
deriving DecidableEq, Repr

structure MetadataFilterConfig where
  blockedAnnotations : List String
  removeManagedFields : Bool
deriving DecidableEq, Repr

/-- What the processor asks of an object besides the two parts of its key:
`metadata.name`, which the watch store requires; `extract_status_json`; and
`clean_metadata`, which touches annotations and managed fields only. -/
class KubeObject (K : Type u) extends Resource K where
  name : K → Option String
  extractStatusJson : K → StatusExtractResult
  cleanMetadata : MetadataFilterConfig → K → K
  cleanMetadata_ns : ∀ config obj, ns (cleanMetadata config obj) = ns obj
  cleanMetadata_name : ∀ config obj, name (cleanMetadata config obj) = name obj
  cleanMetadata_nameAny : ∀ config obj, nameAny (cleanMetadata config obj) = nameAny obj

/-- Two versions of one object. -/
structure SameName {K : Type u} [KubeObject K] (a b : K) : Prop where
  ns : Resource.ns a = Resource.ns b
  name : KubeObject.name a = KubeObject.name b
  nameAny : Resource.nameAny a = Resource.nameAny b

variable {K : Type u} [KubeObject K] {a b obj : K}

theorem SameName.trans {c : K} (hab : SameName a b) (hbc : SameName b c) : SameName a c :=
  ⟨hab.ns.trans hbc.ns, hab.name.trans hbc.name, hab.nameAny.trans hbc.nameAny⟩

def makeResourceKey (obj : K) : String :=
  let name := (KubeObject.name obj).getD ""
  match Resource.ns obj with
  | some ns => ns ++ "/" ++ name
  | none => name

/-- An object of the watch store has a name. -/
def HasName (obj : K) : Prop := KubeObject.name obj = some (Resource.nameAny obj)

instance (obj : K) : Decidable (HasName obj) :=
  inferInstanceAs (Decidable (KubeObject.name obj = some (Resource.nameAny obj)))

theorem makeResourceKey_eq (h : HasName obj) : makeResourceKey obj = resourceKey obj := by
  rw [HasName] at h
  cases hns : Resource.ns obj <;> simp [makeResourceKey, resourceKey, h, hns]

theorem HasName.of_same (hb : HasName b) (h : SameName a b) : HasName a := by
  rw [HasName, h.name, h.nameAny, hb]

theorem SameName.resourceKey_eq (h : SameName a b) : resourceKey a = resourceKey b := by
  simp only [resourceKey, h.ns, h.nameAny]

/-- `ObjectRef`: the place of an object in the watch store. -/
structure ObjectRef where
  ns : Option String
  name : String
deriving DecidableEq, Repr

/-- The place of an object. -/
def objectRef (obj : K) : ObjectRef := ⟨Resource.ns obj, Resource.nameAny obj⟩

def parseResourceKey (key : String) : ObjectRef :=
  match Text.splitOnce key '/' with
  | some (ns, name) => ⟨some ns, name⟩
  | none => ⟨none, key⟩

/-- An object found under a key is an object of that key. -/
theorem resourceKey_of_objectRef {key : String}
    (h : objectRef obj = parseResourceKey key) : resourceKey obj = key := by
  simp only [parseResourceKey] at h
  split at h
  · next ns name hsplit =>
    obtain ⟨hns, hname⟩ := ObjectRef.mk.inj h
    simp only [resourceKey, hns, hname]
    exact (Text.eq_of_splitOnce hsplit).symm
  · obtain ⟨hns, hname⟩ := ObjectRef.mk.inj h
    simp only [resourceKey, hns, hname]

/-! ## Handlers -/

/-- `HandlerContext`, without what is shared. -/
structure HandlerContext where
  metadataFilter : Option MetadataFilterConfig
  namespaceFilter : Option (List String)
  triggerChain : TriggerChain
  maxTriggerCycles : ℕ

def HandlerContext.cleanMetadata (ctx : HandlerContext) (obj : K) : K :=
  match ctx.metadataFilter with
  | some filter => KubeObject.cleanMetadata filter obj
  | none => obj

variable (ctx : HandlerContext)

open KubeObject

theorem HandlerContext.cleanMetadata_same (obj : K) : SameName (ctx.cleanMetadata obj) obj := by
  unfold cleanMetadata
  split
  · next filter _ =>
    exact ⟨cleanMetadata_ns filter obj, cleanMetadata_name filter obj,
      cleanMetadata_nameAny filter obj⟩
  · exact ⟨rfl, rfl, rfl⟩

/-- The arguments of `PROCESSOR_REGISTRY.requeue_with_chain`. -/
structure Requeue where
  kind : String
  key : String
  chain : TriggerChain
deriving DecidableEq, Repr

/-- `HandlerContext::requeue`: what is handed to the registry, which is
nothing where the target is in the chain too often. -/
def HandlerContext.requeue (kind key : String) : List Requeue :=
  if ctx.triggerChain.wouldExceedCycleLimit kind key ctx.maxTriggerCycles then []
  else [⟨kind, key, ctx.triggerChain⟩]

/-- `ProcessResult`; `ok` is `Continue`. -/
inductive ProcessResult (K : Type u)
  | ok (obj : K)
  | skip (reason : String)

/-- `ProcessorHandler`, over a world that all handlers share. Its methods
keep to the object they are given. -/
structure ProcessorHandler (K : Type u) [KubeObject K] (W : Type v) where
  filter : K → Bool
  cleanMetadata : HandlerContext → K → K
  validate : HandlerContext → W → K → List String × W
  preparse : HandlerContext → W → K → (K × List String) × W
  parse : HandlerContext → W → K → ProcessResult K × W
  onDelete : HandlerContext → W → K → W
  onChange : HandlerContext → W → K → W
  updateStatus : HandlerContext → W → K → List String → K × W
  cleanMetadata_same : ∀ ctx obj, SameName (cleanMetadata ctx obj) obj
  preparse_same : ∀ ctx w obj, SameName (preparse ctx w obj).1.1 obj
  parse_same : ∀ ctx w obj parsed, (parse ctx w obj).1 = .ok parsed → SameName parsed obj
  updateStatus_same : ∀ ctx w obj errors, SameName (updateStatus ctx w obj errors).1 obj

variable {W : Type v}

def statusHasChanged (old new : StatusExtractResult) : Bool :=
  match old, new with
  | .present oldVal, .present newVal => oldVal ≠ newVal
  | .empty, .empty => false
  | .serializationError, _ | _, .serializationError => true
  | _, _ => true

/-- The namespace filter of `process_resource`. -/
def passesNamespaceFilter (obj : K) : Bool :=
  match ctx.namespaceFilter with
  | some allowedNs =>
    let ns := (Resource.ns obj).getD ""
    !(!ns.isEmpty && !allowedNs.any fun n => n = ns)
  | none => true

/-- **What the handler makes of an object**: steps 1 to 9 of
`process_resource`, up to the object that is saved and whether its status
changed. Nothing where the object is skipped. -/
def ProcessorHandler.render (handler : ProcessorHandler K W) (ctx : HandlerContext) (w : W)
    (obj : K) (existingStatusJson : Option String) : Option (K × Bool) × W :=
  if !passesNamespaceFilter ctx obj then (none, w)
  else if !handler.filter obj then (none, w)
  else
    let obj := handler.cleanMetadata ctx (ctx.cleanMetadata obj)
    let (errors, w) := handler.validate ctx w obj
    let ((obj, preparseErrors), w) := handler.preparse ctx w obj
    let allErrors := errors ++ preparseErrors
    match handler.parse ctx w obj with
    | (.skip _, w) => (none, w)
    | (.ok parsedObj, w) =>
      let oldStatus :=
        match existingStatusJson with
        | some json => .present json
        | none => extractStatusJson parsedObj
      let (parsedObj, w) := handler.updateStatus ctx w parsedObj allErrors
      let newStatus := extractStatusJson parsedObj
      (some (parsedObj, statusHasChanged oldStatus newStatus), w)

/-- What is saved is a version of the object that came in. -/
theorem ProcessorHandler.render_same {handler : ProcessorHandler K W} {ctx : HandlerContext}
    {w : W} {existing : Option String} {saved : K × Bool}
    (h : (handler.render ctx w obj existing).1 = some saved) : SameName saved.1 obj := by
  have hclean : SameName (handler.cleanMetadata ctx (ctx.cleanMetadata obj)) obj :=
    (handler.cleanMetadata_same ctx _).trans (ctx.cleanMetadata_same obj)
  simp only [render] at h
  split at h
  · cases h
  split at h
  · cases h
  split at h
  · cases h
  · next parsed w' hparse =>
    cases h
    exact (handler.updateStatus_same ctx _ _ _).trans
      ((handler.parse_same ctx _ _ parsed (congrArg Prod.fst hparse)).trans
        ((handler.preparse_same ctx _ _).trans hclean))

/-! ## The processor -/

variable (last timestamp : ℕ)

/-- `next_resource_version`: the clock, or one more than the last version. -/
def nextResourceVersion : ℕ :=
  if timestamp > last then timestamp else last + 1

theorem lt_nextResourceVersion : last < nextResourceVersion last timestamp := by
  unfold nextResourceVersion
  split <;> omega

/-- `ResourceProcessor` and its cache. The last version handed out is shared
with the processors of the other kinds. -/
structure Processor (K : Type u) where
  kind : String
  cache : EventStore K
  lastVersion : ℕ
  metadataFilter : Option MetadataFilterConfig
  namespaceFilter : Option (List String)
  maxTriggerCycles : ℕ

inductive WorkItemResult (K : Type u)
  | processed (obj : K) (statusChanged : Bool)
  | deleted (key : String)
  | skipped

namespace Processor

variable (p : Processor K)

def createContext (chain : TriggerChain) : HandlerContext :=
  ⟨p.metadataFilter, p.namespaceFilter, chain, p.maxTriggerCycles⟩

variable (timestamp : ℕ)

/-- `ServerCache::apply_change`. The readiness of the cache, which
`InitDone` sets, is left out. -/
def applyChange (change : ResourceChange) (resource : K) : Processor K :=
  let syncVersion := nextResourceVersion p.lastVersion timestamp
  let cache :=
    match change with
    | .initStart | .initDone => p.cache
    | .initAdd => p.cache.initAdd syncVersion resource
    | .eventAdd => p.cache.applyEvent ⟨.add, syncVersion, resource⟩
    | .eventUpdate => p.cache.applyEvent ⟨.update, syncVersion, resource⟩
    | .eventDelete => p.cache.applyEvent ⟨.delete, syncVersion, resource⟩
  { p with cache, lastVersion := syncVersion }

def save (obj : K) : Processor K :=
  p.applyChange timestamp .eventUpdate obj

def remove (key : String) : Processor K :=
  match p.cache.data key with
  | some cached => p.applyChange timestamp .eventDelete cached
  | none => p

def processResource (handler : ProcessorHandler K W) (w : W) (timestamp : ℕ)
    (obj : K) (ctx : HandlerContext) (isInit : Bool) (existingStatusJson : Option String) :
    WorkItemResult K × Processor K × W :=
  match handler.render ctx w obj existingStatusJson with
  | (none, w) => (.skipped, p, w)
  | (some (parsedObj, statusChanged), w) =>
    let w := if isInit then w else handler.onChange ctx w parsedObj
    let p := if isInit then p.applyChange timestamp .initAdd parsedObj
      else p.save timestamp parsedObj
    (.processed parsedObj statusChanged, p, w)

def processDelete (handler : ProcessorHandler K W) (w : W) (timestamp : ℕ)
    (cachedObj : K) (ctx : HandlerContext) : Processor K × W :=
  let key := makeResourceKey cachedObj
  let w := handler.onDelete ctx w cachedObj
  (p.remove timestamp key, w)

def processWorkItem (handler : ProcessorHandler K W) (w : W) (timestamp : ℕ)
    (key : String) (storeObj : Option K) (existingStatusJson : Option String)
    (triggerChain : TriggerChain) : WorkItemResult K × Processor K × W :=
  let extendedChain := triggerChain ++ [⟨p.kind, key⟩]
  let ctx := p.createContext extendedChain
  let cacheObj := p.cache.data key
  match storeObj, cacheObj with
  | some obj, _ => p.processResource handler w timestamp obj ctx false existingStatusJson
  | none, some cached =>
    let (p, w) := p.processDelete handler w timestamp cached ctx
    (.deleted key, p, w)
  | none, none => (.skipped, p, w)

def onInitApply (handler : ProcessorHandler K W) (w : W) (timestamp : ℕ)
    (obj : K) (existingStatusJson : Option String) : WorkItemResult K × Processor K × W :=
  p.processResource handler w timestamp obj (p.createContext []) true existingStatusJson

end Processor

end Edgion.Controller
