import SchemaCatalog.Refinement
import Mathlib.Logic.Relation

namespace SchemaCatalog

/-- What a partition key keeps through every accepted request: its field and its types. -/
def StreamPartition.fieldTypes (k : StreamPartition) : String × PartitionType := (k.field, k.types)

/-- `old_field.disabled = v.disabled` on the key `iter_mut().find(|k| k.field == v.field)` found. -/
def setDisabled (field : String) (disabled : Bool) : List StreamPartition → List StreamPartition
  | [] => []
  | k :: ks =>
    if k.field = field then { k with disabled := disabled } :: ks else k :: setDisabled field disabled ks

/-- One turn of the loop over the partition keys sent. -/
def mergePartitionKey (acc : List StreamPartition) (v : StreamPartition) :
    Except String (List StreamPartition) :=
  match acc.find? (·.field = v.field) with
  | some old =>
    if old.types ≠ v.types then .error ("field [" ++ v.field ++ "] partition types can't be changed")
    else .ok (setDisabled v.field v.disabled acc)
  | none => .ok (acc ++ [v])

/-- The partition keys `save_stream_settings` writes: every old key disabled, then the keys sent
merged in, in order. -/
def mergePartitionKeys (old new : List StreamPartition) : Except String (List StreamPartition) :=
  new.foldlM mergePartitionKey (old.map fun k => { k with disabled := true })

@[simp] theorem fieldTypes_setDisabled (field : String) (disabled : Bool) (l : List StreamPartition) :
    (setDisabled field disabled l).map StreamPartition.fieldTypes = l.map StreamPartition.fieldTypes := by
  induction l with
  | nil => rfl
  | cons k ks ih =>
    unfold setDisabled
    split_ifs <;> simp [ih, StreamPartition.fieldTypes]

theorem mergePartitionKey_fieldTypes {acc acc' : List StreamPartition} {v : StreamPartition}
    (h : mergePartitionKey acc v = .ok acc') :
    ∃ extra, acc'.map StreamPartition.fieldTypes = acc.map StreamPartition.fieldTypes ++ extra ∧
      extra ⊆ [v.fieldTypes] := by
  unfold mergePartitionKey at h
  split at h
  · split_ifs at h
    cases h
    exact ⟨[], by simp, List.nil_subset _⟩
  · cases h
    exact ⟨[v.fieldTypes], by simp, List.Subset.refl _⟩

theorem foldlM_mergePartitionKey_fieldTypes :
    ∀ {new acc res : List StreamPartition}, new.foldlM mergePartitionKey acc = .ok res →
      ∃ extra, res.map StreamPartition.fieldTypes = acc.map StreamPartition.fieldTypes ++ extra ∧
        extra ⊆ new.map StreamPartition.fieldTypes
  | [], acc, res, h => by
    cases h
    exact ⟨[], by simp, List.nil_subset _⟩
  | v :: new, acc, res, h => by
    rw [List.foldlM_cons] at h
    rcases hv : mergePartitionKey acc v with _ | acc'
    · rw [hv] at h
      cases h
    · rw [hv] at h
      obtain ⟨e₁, h₁, hs₁⟩ := mergePartitionKey_fieldTypes hv
      obtain ⟨e₂, h₂, hs₂⟩ := foldlM_mergePartitionKey_fieldTypes h
      refine ⟨e₁ ++ e₂, by rw [h₂, h₁, List.append_assoc], List.append_subset.mpr ⟨?_, ?_⟩⟩
      · exact hs₁.trans (by simp)
      · exact hs₂.trans (List.subset_cons_self _ _)

/-- The merge keeps every old key's field and types, in place, and appends keys sent. -/
theorem mergePartitionKeys_fieldTypes {old new res : List StreamPartition}
    (h : mergePartitionKeys old new = .ok res) :
    ∃ extra, res.map StreamPartition.fieldTypes = old.map StreamPartition.fieldTypes ++ extra ∧
      extra ⊆ new.map StreamPartition.fieldTypes := by
  obtain ⟨extra, he, hs⟩ := foldlM_mergePartitionKey_fieldTypes h
  exact ⟨extra, by simpa [Function.comp_def, StreamPartition.fieldTypes] using he, hs⟩

/-- `HashMap::insert` on a metadata map. -/
def metaInsert (m : List (String × MetaText)) (k : String) (v : MetaText) : List (String × MetaText) :=
  (k, v) :: m.filter (·.1 ≠ k)

/-- The metadata `save_stream_settings` hands to `update_setting`: the read schema's metadata with
the settings serialized under `settings`, and `created_at` added when missing. -/
def settingsMetadata (now : Int) (metadata : List (String × MetaText)) (settings : StreamSettings) :
    List (String × MetaText) :=
  let m := metaInsert metadata "settings" (.settingsJson settings)
  if (m.lookup "created_at").isSome then m else metaInsert m "created_at" (.text (toString now))

/-- Modelled from the spec: `update_setting` (its store write is outside src/) sets the given
metadata entries on the stream's latest stored schema and keeps its other entries. -/
def updateSetting (stored : Schema) (metadata : List (String × MetaText)) : Schema :=
  { stored with metadata := metadata ++ stored.metadata.filter fun e => (metadata.lookup e.1).isNone }

/-- The configuration and the collaborators' answers `save_stream_settings` reads:
`cfg.common.column_all`, `SQL_FULL_TEXT_SEARCH_FIELDS`, `is_deleting_stream` and `now_micros()`. -/
structure SaveEnv where
  columnAll : String
  fullTextSearchFields : List String
  isDeletingStream : Bool
  nowMicros : Int

/-- The answer of a settings request that is not accepted: the HTTP status, the code in the body
and its message. -/
structure Response where
  status : Nat
  code : Nat
  message : String
  deriving DecidableEq, Repr

def Response.badRequest (message : String) : Response := ⟨400, 400, message⟩

/-- The field `schema_fields` maps a name to: the last field of that name. -/
def schemaField (schema : Schema) (name : String) : Option Field :=
  (schema.fields.filter (·.name = name)).getLast?

/-- The loop over the full text search keys: the first key that is not a text field of the
schema. -/
def textKeyError (schema : Schema) (keys : List String) : Option Response :=
  (keys.find? fun key => (schemaField schema key).all (·.dataType != .utf8)).map fun key =>
    match schemaField schema key with
    | none => .badRequest ("field [" ++ key ++ "] not found in schema")
    | some _ => .badRequest ("full text search field [" ++ key ++ "] must be text field")

/-- `save_stream_settings` once `infra::schema::get` answered `schema`: the checks in the order
of the code, then the merge of the partition keys; on acceptance, the metadata it hands to
`update_setting`. -/
def saveStreamSettings (env : SaveEnv) (streamName : String) (type : StreamType)
    (schema : Except String Schema) (settings : StreamSettings) :
    Except Response (List (String × MetaText)) :=
  if env.isDeletingStream then .error (.badRequest ("stream [" ++ streamName ++ "] is being deleted"))
  else if type ≠ .logs ∧ settings.definedSchemaFields ≠ [] then
    .error (.badRequest "only logs stream can have user defined schema")
  else match settings.fullTextSearchKeys.find? (· = env.columnAll) with
  | some key => .error (.badRequest ("field [" ++ key ++ "] can't be used for full text search"))
  | none => match settings.indexFields.find? (· = env.columnAll) with
  | some key => .error (.badRequest ("field [" ++ key ++ "] can't be used for secondary index"))
  | none =>
    match settings.partitionKeys.find? (fun k => k.field ∈ env.fullTextSearchFields ∨ k.field = env.columnAll) with
  | some key => .error (.badRequest ("field [" ++ key.field ++ "] can't be used for partition key"))
  | none => match schema with
  | .error e => .error ⟨500, 500, "error in getting schema : " ++ e⟩
  | .ok schema => match textKeyError schema settings.fullTextSearchKeys with
  | some r => .error r
  | none => match mergePartitionKeys (settingsOf schema).partitionKeys settings.partitionKeys with
  | .error message => .error (.badRequest message)
  | .ok keys =>
    if settings.extendedRetentionDays.any fun r => r.end < r.start then
      .error (.badRequest "start day should be less than end day")
    else .ok (settingsMetadata env.nowMicros schema.metadata { settings with partitionKeys := keys })

theorem lookup_settingsMetadata (now : Int) (metadata : List (String × MetaText))
    (settings : StreamSettings) :
    (settingsMetadata now metadata settings).lookup "settings" = some (.settingsJson settings) := by
  unfold settingsMetadata metaInsert
  dsimp only
  split_ifs <;> simp [List.lookup_cons]

theorem settingsOf_updateSetting {stored : Schema} {m : List (String × MetaText)} {st : StreamSettings}
    (h : m.lookup "settings" = some (.settingsJson st)) : settingsOf (updateSetting stored m) = st := by
  simp [settingsOf, unwrapStreamSettings, updateSetting, List.lookup_append, h]

/-- An accepted request writes settings whose partition keys are those of the schema it read,
in place with their field and types, followed by keys it sent. -/
theorem saveStreamSettings_partitionKeys {env : SaveEnv} {name : String} {type : StreamType}
    {basis : Schema} {settings : StreamSettings} {m : List (String × MetaText)}
    (h : saveStreamSettings env name type (.ok basis) settings = .ok m) :
    ∃ st, m.lookup "settings" = some (.settingsJson st) ∧
      ∃ extra, st.partitionKeys.map StreamPartition.fieldTypes =
          (settingsOf basis).partitionKeys.map StreamPartition.fieldTypes ++ extra ∧
        extra ⊆ settings.partitionKeys.map StreamPartition.fieldTypes := by
  unfold saveStreamSettings at h
  dsimp only at h
  repeat' split at h
  all_goals try cases h
  rename_i keys hkeys _
  exact ⟨_, lookup_settingsMetadata _ _ _, mergePartitionKeys_fieldTypes hkeys⟩

/-- `UpdateSettingsWrapper` (declared outside src/): the values a request adds and removes. -/
structure UpdateList (α : Type) where
  add : List α := []
  remove : List α := []
  deriving DecidableEq, Repr

/-- `UpdateStreamSettings` (declared outside src/), by the fields `update_stream_settings` reads. -/
structure UpdateStreamSettings where
  maxQueryRange : Option Int := none
  storeOriginalData : Option Bool := none
  approxPartition : Option Bool := none
  flattenLevel : Option Int := none
  dataRetention : Option Int := none
  indexOriginalData : Option Bool := none
  indexAllValues : Option Bool := none
  definedSchemaFields : UpdateList String := {}
  bloomFilterFields : UpdateList String := {}
  indexFields : UpdateList String := {}
  extendedRetentionDays : UpdateList TimeRange := {}
  distinctValueFields : UpdateList String := {}
  fullTextSearchKeys : UpdateList String := {}
  partitionKeys : UpdateList StreamPartition := {}
  partitionTimeLevel : Option PartitionTimeLevel := none
  deriving DecidableEq, Repr

/-- The configuration and the collaborators' answers `update_stream_settings` reads:
`allow_user_defined_schemas`, `user_defined_schema_max_fields`, `TIMESTAMP_COL_NAME`,
`now_micros()`, the error of `distinct_values::add` for a field, and `check_field_use` for a
field, as whether each use has the stream as its origin. -/
structure UpdateEnv where
  allowUserDefinedSchemas : Bool
  userDefinedSchemaMaxFields : Nat
  timestampColName : String
  nowMicros : Int
  distinctAdd : String → Option String
  fieldUse : String → Except String (List Bool)

/-- `extend(add)` then `retain(|x| !remove.contains(x))`; each is skipped for an empty list,
where it changes nothing. -/
def UpdateList.apply {α : Type} [DecidableEq α] (u : UpdateList α) (l : List α) : List α :=
  (l ++ u.add).filter (· ∉ u.remove)

/-- The scalar options of the request; `index_original_data` forces `store_original_data`. -/
def applyOptions (u : UpdateStreamSettings) (st : StreamSettings) : StreamSettings :=
  let st := { st with
    maxQueryRange := u.maxQueryRange.getD st.maxQueryRange
    storeOriginalData := u.storeOriginalData.getD st.storeOriginalData
    approxPartition := u.approxPartition.getD st.approxPartition
    flattenLevel := u.flattenLevel.or st.flattenLevel
    dataRetention := u.dataRetention.getD st.dataRetention
    indexOriginalData := u.indexOriginalData.getD st.indexOriginalData
    indexAllValues := u.indexAllValues.getD st.indexAllValues }
  if st.indexOriginalData then { st with storeOriginalData := true } else st

/-- The loop over the distinct value fields to add: reserved names fail, full text search keys
are skipped, every other field is registered with `distinct_values::add` and recorded once. -/
def addDistinctFields (env : UpdateEnv) (st : StreamSettings) (u : UpdateStreamSettings) :
    Except Response (List DistinctField) :=
  u.distinctValueFields.add.foldlM (fun acc f =>
    if f = "count" ∨ f = env.timestampColName then
      .error ⟨500, 400, "count and " ++ env.timestampColName ++ " are reserved fields and cannot be added"⟩
    else if f ∈ st.fullTextSearchKeys ∨ f ∈ u.fullTextSearchKeys.add then .ok acc
    else match env.distinctAdd f with
      | some e => .error ⟨500, 500, "error in updating settings : " ++ e⟩
      | none =>
        let temp : DistinctField := ⟨f, env.nowMicros⟩
        .ok (if temp ∈ acc then acc else acc ++ [temp])) st.distinctValueFields

/-- One turn of the loop over the distinct value fields to remove: a field used more than once,
or once from outside the stream, cannot be removed. -/
def checkDistinctRemoval (env : UpdateEnv) (f : String) : Except Response Unit :=
  match env.fieldUse f with
  | .error e => .error ⟨500, 500, "error in updating settings : " ++ e⟩
  | .ok usage =>
    if 1 < usage.length ∨ usage.head? = some false then
      .error (.badRequest ("error in removing distinct field : field " ++ f ++ " if used in dashboards/reports"))
    else .ok ()

/-- `update_stream_settings` up to its call of `save_stream_settings`: the settings it passes on,
built from the cached settings `get_settings` returned. -/
def updateStreamSettings (env : UpdateEnv) (cached : Option StreamSettings)
    (u : UpdateStreamSettings) : Except Response StreamSettings := do
  let some st := cached | throw (.badRequest "stream settings could not be found")
  let st := applyOptions u st
  if st.indexOriginalData ∧ st.indexAllValues then
    throw (.badRequest "index_original_data & index_all_values cannot be true at the same time")
  if u.definedSchemaFields.add ≠ [] ∧ !env.allowUserDefinedSchemas then
    throw (.badRequest
      "user defined schema is not allowed, you need to set ZO_ALLOW_USER_DEFINED_SCHEMAS=true")
  let st := { st with definedSchemaFields := u.definedSchemaFields.apply st.definedSchemaFields }
  if env.userDefinedSchemaMaxFields < st.definedSchemaFields.length then
    throw (.badRequest ("user defined schema fields count exceeds the limit: " ++
      toString env.userDefinedSchemaMaxFields))
  let st := { st with
    bloomFilterFields := u.bloomFilterFields.apply st.bloomFilterFields
    indexFields := u.indexFields.apply st.indexFields
    indexUpdatedAt := if u.indexFields.add = [] then st.indexUpdatedAt else env.nowMicros
    extendedRetentionDays := u.extendedRetentionDays.apply st.extendedRetentionDays }
  let distinct ← addDistinctFields env st u
  u.distinctValueFields.remove.forM (checkDistinctRemoval env)
  let st := { st with distinctValueFields := distinct.filter (·.name ∉ u.distinctValueFields.remove) }
  pure { st with
    fullTextSearchKeys := u.fullTextSearchKeys.apply st.fullTextSearchKeys
    indexUpdatedAt := if u.fullTextSearchKeys.add = [] then st.indexUpdatedAt else env.nowMicros
    partitionKeys := u.partitionKeys.apply st.partitionKeys
    partitionTimeLevel := u.partitionTimeLevel.or st.partitionTimeLevel }

/-- A settings request on a stream: `save_stream_settings` called directly with settings, or
`update_stream_settings` with a change. -/
inductive SettingsRequest
  | save (env : SaveEnv) (settings : StreamSettings)
  | update (env : UpdateEnv) (saveEnv : SaveEnv) (change : UpdateStreamSettings)

/-- The answer to a request whose `get_settings` returned `cached` and whose
`infra::schema::get` returned `basis`, two reads of the cache that need not agree. -/
def SettingsRequest.answer (name : String) (type : StreamType) (cached : Option StreamSettings)
    (basis : Schema) : SettingsRequest → Except Response (List (String × MetaText))
  | .save env settings => saveStreamSettings env name type (.ok basis) settings
  | .update env saveEnv change =>
    (updateStreamSettings env cached change).bind (saveStreamSettings saveEnv name type (.ok basis))

/-- The store after a request: an accepted one writes its metadata, a rejected one nothing. -/
def commitSettings (stored : Schema) : Except Response (List (String × MetaText)) → Schema
  | .ok m => updateSetting stored m
  | .error _ => stored

/-- The partition keys of a schema's settings, by field and types. -/
def partitionFields (s : Schema) : List (String × PartitionType) :=
  (settingsOf s).partitionKeys.map StreamPartition.fieldTypes

theorem exceptBind_eq_ok {ε α β : Type} {x : Except ε α} {f : α → Except ε β} {b : β}
    (h : x >>= f = .ok b) : ∃ a, x = .ok a ∧ f a = .ok b := by
  cases x with
  | error => cases h
  | ok a => exact ⟨a, rfl, h⟩

/-- A request is accepted only through an accepted `save_stream_settings` call, with the settings
sent or those `update_stream_settings` built. -/
theorem SettingsRequest.answer_ok {name : String} {type : StreamType} {cached : Option StreamSettings}
    {basis : Schema} {r : SettingsRequest} {m : List (String × MetaText)}
    (h : r.answer name type cached basis = .ok m) :
    ∃ env settings, saveStreamSettings env name type (.ok basis) settings = .ok m := by
  cases r with
  | save env settings => exact ⟨env, settings, h⟩
  | update env saveEnv change =>
    obtain ⟨settings, -, hs⟩ := exceptBind_eq_ok h
    exact ⟨saveEnv, settings, hs⟩

/-- A request keeps the partition keys of the schema it read, in place, and appends others; a
rejected one leaves the store alone. -/
theorem partitionFields_commit (stored basis : Schema) (name : String) (type : StreamType)
    (cached : Option StreamSettings) (r : SettingsRequest) :
    commitSettings stored (r.answer name type cached basis) = stored ∨
      partitionFields basis <+:
        partitionFields (commitSettings stored (r.answer name type cached basis)) := by
  rcases ha : r.answer name type cached basis with e | m
  · exact .inl rfl
  obtain ⟨env, settings, hs⟩ := SettingsRequest.answer_ok ha
  obtain ⟨st, hst, extra, hkeys, -⟩ := saveStreamSettings_partitionKeys hs
  right
  unfold commitSettings partitionFields
  rw [settingsOf_updateSetting hst, hkeys]
  exact List.prefix_append _ _

/-- The stream's stored schema, the cache's copy of it that `infra::schema::get` returns, and the
schemas that requests in flight have read. -/
structure SettingsSys where
  stored : Schema
  cached : Schema
  reads : List Schema

/-- One step of requests and `watch` on one stream: `watch` copies the store into the cache, a
request reads the cache, and a request that has read writes the store, whatever settings its
`get_settings` returned. -/
inductive SettingsStep : SettingsSys → SettingsSys → Prop
  | watch (s : SettingsSys) : SettingsStep s { s with cached := s.stored }
  | read (s : SettingsSys) : SettingsStep s { s with reads := s.cached :: s.reads }
  | write (s : SettingsSys) {basis : Schema} (hb : basis ∈ s.reads) (name : String)
      (type : StreamType) (cached : Option StreamSettings) (r : SettingsRequest) :
      SettingsStep s ⟨commitSettings s.stored (r.answer name type cached basis), s.cached,
        s.reads.erase basis⟩

/-- A partition key held by the stored schema, by the cache and by every schema a request in
flight has read. -/
def KeyHeld (x : String × PartitionType) (s : SettingsSys) : Prop :=
  x ∈ partitionFields s.stored ∧ x ∈ partitionFields s.cached ∧ ∀ b ∈ s.reads, x ∈ partitionFields b

theorem KeyHeld.step {x : String × PartitionType} {s s' : SettingsSys} (h : KeyHeld x s)
    (hs : SettingsStep s s') : KeyHeld x s' := by
  obtain ⟨hst, hc, hr⟩ := h
  cases hs with
  | watch => exact ⟨hst, hst, hr⟩
  | read => exact ⟨hst, hc, List.forall_mem_cons.mpr ⟨hc, hr⟩⟩
  | write hb name type cached r =>
    refine ⟨?_, hc, fun b hb' => hr b (List.mem_of_mem_erase hb')⟩
    rcases partitionFields_commit _ _ name type cached r with he | hp
    · exact he ▸ hst
    · exact hp.subset (hr _ hb)

/-- Along every interleaving of requests and `watch`, a partition key that the store, the cache
and every read in flight hold stays held: a key is lost only through a read that lacks it. -/
theorem partition_key_stays {x : String × PartitionType} {s s' : SettingsSys} (h : KeyHeld x s)
    (hrun : Relation.ReflTransGen SettingsStep s s') : KeyHeld x s' := by
  induction hrun with
  | refl => exact h
  | tail _ hs ih => exact ih.step hs

/-- Two partition keys, and a configuration that reserves no field the requests use. -/
def hostKey : StreamPartition := ⟨"host", .value, false⟩

def podKey : StreamPartition := ⟨"pod", .value, false⟩

def plainSaveEnv : SaveEnv := ⟨"_all", [], false, 0⟩

/-- The stored schema after a request that adds the key `host` to `appV1`, and after one that
then adds `pod` having read `appV1`. -/
def hostStored : Schema :=
  commitSettings appV1 ((SettingsRequest.save plainSaveEnv { partitionKeys := [hostKey] }).answer
    "app" .logs none appV1)

def podStored : Schema :=
  commitSettings hostStored ((SettingsRequest.save plainSaveEnv { partitionKeys := [podKey] }).answer
    "app" .logs none appV1)

/-- Once `watch` has copied the key `host` into the cache, a request adding `pod` keeps it. -/
theorem partition_key_stays_after_watch :
    KeyHeld ("host", .value) ⟨hostStored, hostStored, []⟩ ∧
      KeyHeld ("host", .value) ⟨commitSettings hostStored
        ((SettingsRequest.save plainSaveEnv { partitionKeys := [podKey] }).answer "app" .logs none
          hostStored), hostStored, []⟩ :=
  have h : KeyHeld ("host", .value) ⟨hostStored, hostStored, []⟩ :=
    ⟨by decide, by decide, fun _ h => (List.not_mem_nil _ h).elim⟩
  ⟨h, partition_key_stays h
    (.tail (.single (.read ⟨hostStored, hostStored, []⟩)) (.write _ (List.mem_singleton_self _) _ _ _ _))⟩

/-- Two requests on a stream whose cache lags: the first adds the key `host`; the second reads
the cache before `watch` copies the first write, sends the key `pod`, and its write drops
`host`. -/
theorem partition_keys_kept_counterexample :
    SettingsStep ⟨appV1, appV1, []⟩ ⟨appV1, appV1, [appV1]⟩ ∧
      SettingsStep ⟨appV1, appV1, [appV1]⟩ ⟨hostStored, appV1, []⟩ ∧
      SettingsStep ⟨hostStored, appV1, []⟩ ⟨hostStored, appV1, [appV1]⟩ ∧
      SettingsStep ⟨hostStored, appV1, [appV1]⟩ ⟨podStored, appV1, []⟩ ∧
      ("host", .value) ∈ partitionFields hostStored ∧ ("host", .value) ∉ partitionFields podStored :=
  ⟨.read _, .write _ (List.mem_singleton_self _) _ _ _ _, .read _,
    .write _ (List.mem_singleton_self _) _ _ _ _, by decide, by decide⟩

end SchemaCatalog
