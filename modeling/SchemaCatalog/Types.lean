import Mathlib.Data.Finmap
import SchemaCatalog.Text

namespace SchemaCatalog

/-- Modelled from the spec: `StreamType` of `config::meta::stream`, declared outside src/, by the
names its `Display` prints; `From<&str>` reads those names back and falls back to logs. -/
inductive StreamType
  | logs | metrics | traces | enrichmentTables | fileList | metadata | index
  deriving DecidableEq, Repr

def StreamType.asStr : StreamType → String
  | .logs => "logs"
  | .metrics => "metrics"
  | .traces => "traces"
  | .enrichmentTables => "enrichment_tables"
  | .fileList => "file_list"
  | .metadata => "metadata"
  | .index => "index"

def StreamType.ofStr (s : String) : StreamType :=
  match s with
  | "metrics" => .metrics
  | "traces" => .traces
  | "enrichment_tables" => .enrichmentTables
  | "file_list" => .fileList
  | "metadata" => .metadata
  | "index" => .index
  | _ => .logs

@[simp] theorem StreamType.ofStr_asStr (t : StreamType) : StreamType.ofStr t.asStr = t := by
  cases t <;> rfl

theorem StreamType.asStr_noSlash (t : StreamType) : NoSlash t.asStr := by
  cases t <;> decide

theorem StreamType.asStr_injective : Function.Injective StreamType.asStr := fun a b h => by
  rw [← StreamType.ofStr_asStr a, h, StreamType.ofStr_asStr]

/-- The arrow data types a field can have; only `Utf8` is told apart by the code. -/
inductive DataType
  | utf8 | int64 | uint64 | float64 | boolean
  deriving DecidableEq, Repr

structure Field where
  name : String
  dataType : DataType
  deriving DecidableEq, Repr

/-- `StreamPartitionType`: how a partition key splits its values. -/
inductive PartitionType
  | value | hash (buckets : Nat) | prefixed
  deriving DecidableEq, Repr

/-- `StreamPartition`: a partition key of a stream. -/
structure StreamPartition where
  field : String
  types : PartitionType
  disabled : Bool
  deriving DecidableEq, Repr

inductive PartitionTimeLevel
  | unset | hourly | daily
  deriving DecidableEq, Repr

structure DistinctField where
  name : String
  addedTs : Int
  deriving DecidableEq, Repr

structure TimeRange where
  start : Int
  «end» : Int
  deriving DecidableEq, Repr

/-- The fields of `StreamSettings` (declared outside src/) that the modelled code reads or
writes; `Default` gives false, zero and empty. -/
structure StreamSettings where
  partitionTimeLevel : Option PartitionTimeLevel := none
  partitionKeys : List StreamPartition := []
  fullTextSearchKeys : List String := []
  indexFields : List String := []
  bloomFilterFields : List String := []
  dataRetention : Int := 0
  flattenLevel : Option Int := none
  definedSchemaFields : List String := []
  maxQueryRange : Int := 0
  storeOriginalData : Bool := false
  approxPartition : Bool := false
  distinctValueFields : List DistinctField := []
  indexUpdatedAt : Int := 0
  extendedRetentionDays : List TimeRange := []
  indexOriginalData : Bool := false
  indexAllValues : Bool := false
  deriving DecidableEq, Repr

instance : Inhabited StreamSettings := ⟨{}⟩

/-- Whether the settings ask for an id generator: `store_original_data || index_original_data`. -/
def StreamSettings.wantsRecordIds (s : StreamSettings) : Bool :=
  s.storeOriginalData || s.indexOriginalData

/-- A metadata value of a schema. Text that `json::to_string` made of stream settings is kept
as the settings it encodes, so that parsing it back is the identity. -/
inductive MetaText
  | text (s : String)
  | settingsJson (settings : StreamSettings)
  deriving DecidableEq, Repr

/-- An arrow schema: its fields and its string-to-string metadata. -/
structure Schema where
  fields : List Field
  metadata : List (String × MetaText)
  deriving DecidableEq, Repr

/-- `Schema::empty()`. -/
def Schema.empty : Schema := ⟨[], []⟩

/-- Modelled from the spec: `unwrap_stream_settings` of `infra::schema` (outside src/) parses
the `settings` entry of a schema's metadata. -/
def unwrapStreamSettings (s : Schema) : Option StreamSettings :=
  match s.metadata.lookup "settings" with
  | some (.settingsJson st) => some st
  | _ => none

/-- The settings the catalog derives from a schema: `unwrap_stream_settings(s).unwrap_or_default()`. -/
def settingsOf (s : Schema) : StreamSettings := (unwrapStreamSettings s).getD default

/-- The bytes of one stored bucket, by what `json::from_slice::<Vec<Schema>>` makes of them. -/
inductive Bytes
  | schemas (versions : List Schema)
  | invalid
  deriving DecidableEq, Repr

def Bytes.fromSlice : Bytes → Option (List Schema)
  | .schemas vs => some vs
  | .invalid => none

/-- The schema a bucket stands for when the code unwraps it: the last of its evolution steps. -/
def Bytes.current (b : Bytes) : Option Schema := b.fromSlice.bind List.getLast?

@[simp] theorem Bytes.current_schemas (vs : List Schema) : (Bytes.schemas vs).current = vs.getLast? := rfl

/-- `SnowflakeIdGenerator`, by the node id it is seeded with and the instant it starts from. -/
structure SnowflakeIdGenerator where
  machineId : Int
  lastTimeMillis : Int
  deriving DecidableEq, Repr

abbrev KeyMap (α : Type) := Finmap fun _ : String => α

/-- The process-wide maps of `infra::schema`, keyed by `org/stream_type/stream_name`. -/
@[ext] structure Catalog where
  schemas : KeyMap (List (Int × Schema))
  latest : KeyMap Schema
  settings : KeyMap StreamSettings
  settingsAtomic : KeyMap StreamSettings
  recordIdGenerators : KeyMap SnowflakeIdGenerator
  deriving DecidableEq

def Catalog.empty : Catalog := ⟨∅, ∅, ∅, ∅, ∅⟩

namespace Catalog

variable (c : Catalog) (k : String)

/-- `if wants && let Vacant(entry) = STREAM_RECORD_ID_GENERATOR.entry(k) { entry.insert(fresh) }`. -/
def ensureGenerator (wants : Bool) (fresh : SnowflakeIdGenerator) : Catalog :=
  if wants ∧ k ∉ c.recordIdGenerators then
    { c with recordIdGenerators := c.recordIdGenerators.insert k fresh }
  else c

/-- `STREAM_SETTINGS.insert(k, s)` and `set_stream_settings_atomic(w.clone())`. -/
def setSettings (s : StreamSettings) : Catalog :=
  { c with settings := c.settings.insert k s, settingsAtomic := c.settings.insert k s }

/-- `STREAM_SCHEMAS_LATEST.insert(k, SchemaCache::new(schema))`. -/
def setLatest (schema : Schema) : Catalog := { c with latest := c.latest.insert k schema }

/-- `STREAM_SCHEMAS.insert(k, versions)`, as `cache` installs a stream. -/
def setVersions (vs : List (Int × Schema)) : Catalog := { c with schemas := c.schemas.insert k vs }

def eraseVersions : Catalog := { c with schemas := c.schemas.erase k }

def eraseLatest : Catalog := { c with latest := c.latest.erase k }

/-- `STREAM_SETTINGS.remove(k)` and `set_stream_settings_atomic(w.clone())`. -/
def eraseSettings : Catalog :=
  { c with settings := c.settings.erase k, settingsAtomic := c.settings.erase k }

def eraseGenerator : Catalog := { c with recordIdGenerators := c.recordIdGenerators.erase k }

@[simp] theorem ensureGenerator_schemas (w : Bool) (f : SnowflakeIdGenerator) :
    (c.ensureGenerator k w f).schemas = c.schemas := by
  unfold ensureGenerator; split <;> rfl

@[simp] theorem ensureGenerator_latest (w : Bool) (f : SnowflakeIdGenerator) :
    (c.ensureGenerator k w f).latest = c.latest := by
  unfold ensureGenerator; split <;> rfl

@[simp] theorem ensureGenerator_settings (w : Bool) (f : SnowflakeIdGenerator) :
    (c.ensureGenerator k w f).settings = c.settings := by
  unfold ensureGenerator; split <;> rfl

@[simp] theorem ensureGenerator_settingsAtomic (w : Bool) (f : SnowflakeIdGenerator) :
    (c.ensureGenerator k w f).settingsAtomic = c.settingsAtomic := by
  unfold ensureGenerator; split <;> rfl

/-- The three sections that publish a stream's settings and latest schema, in the order of
`watch` and `cache`: generator, settings, latest. -/
def publish (latest : Schema) (fresh : SnowflakeIdGenerator) : Catalog :=
  ((c.ensureGenerator k (settingsOf latest).wantsRecordIds fresh).setSettings k
    (settingsOf latest)).setLatest k latest

section Fields

variable (s : Schema) (f : SnowflakeIdGenerator) (vs : List (Int × Schema))

@[simp] theorem publish_schemas : (c.publish k s f).schemas = c.schemas := by
  simp [publish, setLatest, setSettings]

@[simp] theorem publish_latest : (c.publish k s f).latest = c.latest.insert k s := by
  simp [publish, setLatest, setSettings]

@[simp] theorem publish_settings :
    (c.publish k s f).settings = c.settings.insert k (settingsOf s) := by
  simp [publish, setLatest, setSettings]

@[simp] theorem publish_settingsAtomic :
    (c.publish k s f).settingsAtomic = c.settings.insert k (settingsOf s) := by
  simp [publish, setLatest, setSettings]

@[simp] theorem publish_recordIdGenerators :
    (c.publish k s f).recordIdGenerators =
      (c.ensureGenerator k (settingsOf s).wantsRecordIds f).recordIdGenerators := rfl

@[simp] theorem setVersions_schemas : (c.setVersions k vs).schemas = c.schemas.insert k vs := rfl
@[simp] theorem setVersions_latest : (c.setVersions k vs).latest = c.latest := rfl
@[simp] theorem setVersions_settings : (c.setVersions k vs).settings = c.settings := rfl
@[simp] theorem setVersions_settingsAtomic : (c.setVersions k vs).settingsAtomic = c.settingsAtomic := rfl
@[simp] theorem setVersions_recordIdGenerators :
    (c.setVersions k vs).recordIdGenerators = c.recordIdGenerators := rfl

end Fields

end Catalog

/-- How a handler ends: normally, by an early `Err`, or by a panic; with the maps as they stand. -/
inductive Outcome (σ : Type) where
  | done (s : σ)
  | err (s : σ)
  | panic (s : σ)
  deriving DecidableEq, Repr

def Outcome.state {σ : Type} : Outcome σ → σ
  | .done s | .err s | .panic s => s

@[simp] theorem Outcome.state_done {σ : Type} (s : σ) : (Outcome.done s).state = s := rfl
@[simp] theorem Outcome.state_err {σ : Type} (s : σ) : (Outcome.err s).state = s := rfl
@[simp] theorem Outcome.state_panic {σ : Type} (s : σ) : (Outcome.panic s).state = s := rfl

end SchemaCatalog
