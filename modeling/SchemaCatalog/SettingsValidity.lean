import SchemaCatalog.Settings

namespace SchemaCatalog

/-- The checks `update_stream_settings` makes on the settings it passes on, with the one on user
defined schema fields that `save_stream_settings` makes. -/
structure SettingsValid (maxFields : Nat) (type : StreamType) (st : StreamSettings) : Prop where
  store_of_index : st.indexOriginalData = true → st.storeOriginalData = true
  not_both : ¬(st.indexOriginalData = true ∧ st.indexAllValues = true)
  fields_le : st.definedSchemaFields.length ≤ maxFields
  logs_of_fields : st.definedSchemaFields ≠ [] → type = .logs

/-- A check passed: the branch taken is the one that goes on. -/
theorem eq_ok_of_ite {ε β : Type} {c : Prop} [Decidable c] {x y : Except ε β} {b : β}
    (h : (if c then x else y) = .ok b) (hx : x ≠ .ok b) : ¬c ∧ y = .ok b := by
  by_cases hc : c
  · exact absurd ((if_pos hc).symm.trans h) hx
  · exact ⟨hc, (if_neg hc).symm.trans h⟩

theorem applyOptions_storeOriginalData {u : UpdateStreamSettings} {st : StreamSettings} :
    (applyOptions u st).indexOriginalData = true → (applyOptions u st).storeOriginalData = true := by
  unfold applyOptions
  dsimp only
  split <;> simp_all

/-- The settings an accepted `update_stream_settings` passes on store the original data when
they index it, do not index it with all values, and keep within the user defined schema limit. -/
theorem updateStreamSettings_ok {env : UpdateEnv} {cached : Option StreamSettings}
    {u : UpdateStreamSettings} {st : StreamSettings} (h : updateStreamSettings env cached u = .ok st) :
    (st.indexOriginalData = true → st.storeOriginalData = true) ∧
      ¬(st.indexOriginalData = true ∧ st.indexAllValues = true) ∧
      st.definedSchemaFields.length ≤ env.userDefinedSchemaMaxFields := by
  cases cached with
  | none => exact absurd h nofun
  | some st₀ =>
    simp only [updateStreamSettings] at h
    obtain ⟨hboth, h⟩ := eq_ok_of_ite h nofun
    obtain ⟨-, h⟩ := eq_ok_of_ite h nofun
    obtain ⟨hlimit, h⟩ := eq_ok_of_ite h nofun
    obtain ⟨_, -, h⟩ := exceptBind_eq_ok h
    obtain ⟨_, -, h⟩ := exceptBind_eq_ok h
    obtain ⟨_, -, h⟩ := exceptBind_eq_ok h
    obtain rfl := Except.ok.inj h
    exact ⟨applyOptions_storeOriginalData, hboth, Nat.le_of_not_lt hlimit⟩

/-- An accepted `save_stream_settings` had user defined schema fields only for a logs stream,
and writes the settings it was sent with the merged partition keys. -/
theorem saveStreamSettings_ok {env : SaveEnv} {name : String} {type : StreamType} {basis : Schema}
    {settings : StreamSettings} {m : List (String × MetaText)}
    (h : saveStreamSettings env name type (.ok basis) settings = .ok m) :
    ¬(type ≠ .logs ∧ settings.definedSchemaFields ≠ []) ∧
      ∃ keys, m = settingsMetadata env.nowMicros basis.metadata { settings with partitionKeys := keys } := by
  unfold saveStreamSettings at h
  dsimp only at h
  obtain ⟨-, h⟩ := eq_ok_of_ite h nofun
  obtain ⟨hlogs, h⟩ := eq_ok_of_ite h nofun
  repeat' split at h
  all_goals try cases h
  exact ⟨hlogs, _, rfl⟩

/-- The settings a request persists are those `save_stream_settings` was sent, with the merged
partition keys. -/
theorem settingsOf_updateSetting_save {env : SaveEnv} {name : String} {type : StreamType}
    {basis : Schema} (stored : Schema) {settings : StreamSettings} {m : List (String × MetaText)}
    (h : saveStreamSettings env name type (.ok basis) settings = .ok m) :
    ¬(type ≠ .logs ∧ settings.definedSchemaFields ≠ []) ∧
      ∃ keys, settingsOf (updateSetting stored m) = { settings with partitionKeys := keys } := by
  obtain ⟨hlogs, keys, rfl⟩ := saveStreamSettings_ok h
  exact ⟨hlogs, keys, settingsOf_updateSetting (lookup_settingsMetadata _ _ _)⟩

/-- Every request through `update_stream_settings` persists settings that pass its checks. -/
theorem update_request_persists_valid_settings (env : UpdateEnv) (saveEnv : SaveEnv)
    (change : UpdateStreamSettings) (name : String) (type : StreamType)
    (cached : Option StreamSettings) (basis stored : Schema) {m : List (String × MetaText)}
    (h : (SettingsRequest.update env saveEnv change).answer name type cached basis = .ok m) :
    SettingsValid env.userDefinedSchemaMaxFields type (settingsOf (updateSetting stored m)) := by
  obtain ⟨st, hu, hs⟩ := exceptBind_eq_ok h
  obtain ⟨hstore, hboth, hlimit⟩ := updateStreamSettings_ok hu
  obtain ⟨hlogs, keys, hst⟩ := settingsOf_updateSetting_save stored hs
  rw [hst]
  exact ⟨hstore, hboth, hlimit, fun hne => not_not.mp fun ht => hlogs ⟨ht, hne⟩⟩

/-- An update request that turns on original-data indexing, against a configuration allowing
five user defined schema fields. -/
def indexingUpdateEnv : UpdateEnv :=
  ⟨true, 5, "_timestamp", 0, fun _ => none, fun _ => .ok []⟩

theorem update_request_persists_valid_settings_indexing :
    ∃ m, (SettingsRequest.update indexingUpdateEnv plainSaveEnv
        { indexOriginalData := some true }).answer "app" .logs (some {}) appV1 = .ok m ∧
      SettingsValid 5 .logs (settingsOf (updateSetting appV1 m)) :=
  ⟨_, rfl, update_request_persists_valid_settings indexingUpdateEnv plainSaveEnv
    { indexOriginalData := some true } "app" .logs (some {}) appV1 appV1 rfl⟩

/-- Settings that index the original data with all values, without storing it, and define one
more schema field than `maxFields` allows. -/
def overLimitSettings (maxFields : Nat) (field : String) : StreamSettings :=
  { indexOriginalData := true, indexAllValues := true,
    definedSchemaFields := List.replicate (maxFields + 1) field }

/-- `save_stream_settings` called directly on a logs stream that is not being deleted accepts
`overLimitSettings` and persists settings that fail the checks of `update_stream_settings`:
the original data is indexed but not stored, it is indexed with all values, and the user defined
schema fields exceed the limit, whatever the limit. -/
theorem save_request_persists_unchecked_settings (columnAll : String)
    (fullTextSearchFields : List String) (nowMicros : Int) (maxFields : Nat) (field name : String)
    (cached : Option StreamSettings) (basis stored : Schema) :
    ∃ m, (SettingsRequest.save ⟨columnAll, fullTextSearchFields, false, nowMicros⟩
        (overLimitSettings maxFields field)).answer name .logs cached basis = .ok m ∧
      (settingsOf (updateSetting stored m)).indexOriginalData = true ∧
      (settingsOf (updateSetting stored m)).storeOriginalData = false ∧
      (settingsOf (updateSetting stored m)).indexAllValues = true ∧
      maxFields < (settingsOf (updateSetting stored m)).definedSchemaFields.length ∧
      ¬SettingsValid maxFields .logs (settingsOf (updateSetting stored m)) := by
  obtain ⟨m, hm⟩ : ∃ m, saveStreamSettings ⟨columnAll, fullTextSearchFields, false, nowMicros⟩ name
      .logs (.ok basis) (overLimitSettings maxFields field) = .ok m := ⟨_, rfl⟩
  obtain ⟨-, keys, hst⟩ := settingsOf_updateSetting_save stored hm
  refine ⟨m, hm, ?_⟩
  rw [hst]
  exact ⟨rfl, rfl, rfl, by simp [overLimitSettings],
    fun hv => absurd (hv.store_of_index rfl) Bool.false_ne_true⟩

end SchemaCatalog
