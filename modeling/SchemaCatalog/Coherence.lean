import SchemaCatalog.Robustness

namespace SchemaCatalog

/-- The maps agree with each other. -/
structure Catalog.Coherent (c : Catalog) : Prop where
  versions_iff_latest : ∀ k, k ∈ c.schemas ↔ k ∈ c.latest
  settings_of_latest : ∀ k, c.settings.lookup k = (c.latest.lookup k).map settingsOf
  atomic : c.settingsAtomic = c.settings
  generator : ∀ k st, c.settings.lookup k = some st → st.wantsRecordIds → k ∈ c.recordIdGenerators

namespace Catalog

theorem Coherent.empty : Catalog.empty.Coherent where
  versions_iff_latest _ := Iff.rfl
  settings_of_latest _ := rfl
  atomic := rfl
  generator _ _ h := by simp [Catalog.empty] at h

/-- A publish followed by a write of the stream's versions keeps the maps agreeing. -/
theorem Coherent.setVersions {c : Catalog} (h : c.Coherent) (k : String) (s : Schema)
    (fresh : SnowflakeIdGenerator) (vs : List (Int × Schema)) :
    ((c.publish k s fresh).setVersions k vs).Coherent where
  versions_iff_latest k' := by
    simpa [Finmap.mem_insert] using or_congr_right (h.1 k')
  settings_of_latest k' := by
    by_cases hk : k' = k
    · subst hk
      simp
    · simp [Finmap.lookup_insert_of_ne _ hk, h.2 k']
  atomic := by simp
  generator k' st hst hw := by
    simp only [setVersions_settings, publish_settings, setVersions_recordIdGenerators,
      publish_recordIdGenerators] at hst ⊢
    unfold ensureGenerator
    by_cases hk : k' = k
    · subst hk
      simp only [Finmap.lookup_insert, Option.some.injEq] at hst
      subst hst
      split_ifs with hg
      · simp
      · simpa [hw] using hg
    · rw [Finmap.lookup_insert_of_ne _ hk] at hst
      split_ifs <;> simp [h.generator k' st hst hw]

theorem Coherent.addVersions {c : Catalog} (h : c.Coherent) (k : String) (s : Schema)
    (fresh : SnowflakeIdGenerator) (new : List (Int × Schema)) :
    ((c.publish k s fresh).addVersions k new).Coherent := by
  rw [addVersions_eq]
  exact h.setVersions k s fresh _

theorem Coherent.removeStream {c : Catalog} (h : c.Coherent) (k : String) :
    (c.removeStream k).Coherent where
  versions_iff_latest k' := by
    simpa using and_congr_right' (h.1 k')
  settings_of_latest k' := by
    by_cases hk : k' = k
    · subst hk
      simp
    · simp [Finmap.lookup_erase_ne hk, h.2 k']
  atomic := by simp
  generator k' st hst hw := by
    by_cases hk : k' = k
    · subst hk
      simp at hst
    · rw [removeStream_settings, Finmap.lookup_erase_ne hk] at hst
      simpa [hk] using h.generator k' st hst hw

end Catalog

/-- With a listing whose buckets all decode, a Put leaves the catalog or completes the publish
and the merge. -/
theorem watchPut_decodes_cases {list : Lister} (hlist : ∀ pfx r F, list pfx r = some F → Decodes F)
    (now : Int) (fresh : SnowflakeIdGenerator) (c : Catalog) (key : String) (startDt : Option Int) :
    (watchPut list now fresh c key startDt).state = c ∨
      ∃ k s new, (watchPut list now fresh c key startDt).state = (c.publish k s fresh).addVersions k new := by
  unfold watchPut
  split
  · exact .inl rfl
  split
  · exact .inl rfl
  split
  · exact .inl rfl
  rename_i hF
  rw [applyVersions_of_decodes (hlist _ _ _ hF)]
  split
  · exact .inl rfl
  · exact .inr ⟨_, _, _, rfl⟩

theorem installAll_coherent {S : Store} (hS : ∀ k, Decodes (S.buckets k)) (fresh : SnowflakeIdGenerator) :
    ∀ (order : List String) (c : Catalog), c.Coherent → (installAll fresh S order c).state.Coherent
  | [], _, h => h
  | k :: ks, c, h => by
    obtain ⟨c', hc'⟩ := cacheKey_done_of_decodes fresh c k (hS k)
    have h' : c'.Coherent := by
      have : cacheKey fresh c k (S.buckets k) = _ := cacheKey_of_decodes (hS k)
      rw [hc'] at this
      split at this <;> injection this with this <;> rw [this]
      exacts [h, h.setVersions _ _ _ _]
    simp only [installAll, hc']
    exact installAll_coherent hS fresh ks c' h'

theorem Catalog.Coherent.watchPut {list : Lister} (hlist : ∀ pfx r F, list pfx r = some F → Decodes F)
    {c : Catalog} (h : c.Coherent) (now : Int) (fresh : SnowflakeIdGenerator) (key : String)
    (startDt : Option Int) : (watchPut list now fresh c key startDt).state.Coherent := by
  rcases watchPut_decodes_cases hlist now fresh c key startDt with he | ⟨k, s, new, he⟩ <;> rw [he]
  exacts [h, h.addVersions k s fresh new]

theorem Catalog.Coherent.watchDelete {c : Catalog} (h : c.Coherent) (localDisk : Bool)
    (dataWalDir key : String) : (watchDelete localDisk dataWalDir c key).state.1.Coherent := by
  rcases watchDelete_state localDisk dataWalDir c key with he | ⟨k, he⟩ <;> rw [he]
  exacts [h, h.removeStream k]

theorem Catalog.Coherent.streamDeleteInner {c : Catalog} (h : c.Coherent) (retentionOk offsetOk : Bool)
    (org : String) (type : StreamType) (name : String) :
    (streamDeleteInner retentionOk offsetOk c org type name).state.Coherent := by
  rw [streamDeleteInner_state]
  split_ifs
  exacts [h.removeStream _, h]

/-- Every catalog a run reaches has its maps agreeing with each other, when the store's buckets
decode to non-empty lists at the load and at every Put. -/
theorem reachable_coherent {keys : String → Prop} {c : Catalog} (h : Loaded Decodes keys c) :
    c.Coherent := by
  induction h with
  | init fresh order S hS =>
    unfold cache
    split_ifs
    · exact installAll_coherent hS fresh order _ Catalog.Coherent.empty
    · exact Catalog.Coherent.empty
  | step _ hev ih =>
    cases hev with
    | put list hlist now fresh key _ startDt => exact ih.watchPut hlist now fresh key startDt
    | delete localDisk dataWalDir key => exact ih.watchDelete localDisk dataWalDir key
    | streamDelete retentionOk offsetOk org type name =>
      exact ih.streamDeleteInner retentionOk offsetOk org type name

theorem reachable_coherent_after_load : appCatalog.Coherent :=
  @reachable_coherent (fun _ => True) _ (.init nodeGenerator ["acme/logs/app"] appStore appStore_sound.decodes)

/-- A generator once created is kept by every write but a full removal of its key. -/
theorem generator_stable_publish (c : Catalog) (k k' : String) (s : Schema)
    (fresh : SnowflakeIdGenerator) {g : SnowflakeIdGenerator}
    (hg : c.recordIdGenerators.lookup k' = some g) :
    (c.publish k s fresh).recordIdGenerators.lookup k' = some g := by
  rw [Catalog.publish_recordIdGenerators]
  unfold Catalog.ensureGenerator
  split_ifs with h
  · have hk : k' ≠ k := fun hk => h.2 (hk ▸ Finmap.mem_of_lookup_eq_some hg)
    simpa [Finmap.lookup_insert_of_ne _ hk] using hg
  · exact hg

/-- Every event keeps a stream's record id generator or removes it, never replacing it, whatever
the store answers. -/
theorem step_keeps_generator {answers : List (Int × Bytes) → Prop} {keys : String → Prop}
    {c c' : Catalog} (h : Event answers keys c c') {k : String} {g : SnowflakeIdGenerator}
    (hg : c.recordIdGenerators.lookup k = some g) :
    c'.recordIdGenerators.lookup k = some g ∨ c'.recordIdGenerators.lookup k = none := by
  rcases h.state_cases with rfl | ⟨k', rfl⟩ | ⟨-, -, k', s, fresh, -, -, rfl | ⟨new, rfl⟩⟩
  · exact .inl hg
  · by_cases hk : k = k'
    · subst hk
      exact .inr (by simp)
    · exact .inl (by simpa [Finmap.lookup_erase_ne hk] using hg)
  · exact .inl (generator_stable_publish c k' k s fresh hg)
  · exact .inl (generator_stable_publish c k' k s fresh hg)

/-- `appV2` asks for record ids, so the bulk load creates a generator; the Delete of the stream
removes it. -/
theorem step_keeps_generator_delete :
    appCatalog.recordIdGenerators.lookup "acme/logs/app" = some nodeGenerator ∧
      ((watchDelete false "/data/" appCatalog "/schema/acme/logs/app").state.1.recordIdGenerators.lookup
          "acme/logs/app" = some nodeGenerator ∨
        (watchDelete false "/data/" appCatalog "/schema/acme/logs/app").state.1.recordIdGenerators.lookup
          "acme/logs/app" = none) :=
  ⟨by decide, @step_keeps_generator (fun _ => True) (fun _ => True) appCatalog _
    (.delete false "/data/" "/schema/acme/logs/app") _ _ (by decide)⟩

/-- The merge of a Put replaces versions by start time and drops none: every start time cached
before is cached after. -/
theorem mergeVersions_starts (existing new : List (Int × Schema)) :
    ∀ dt ∈ existing.map Prod.fst, dt ∈ (mergeVersions existing new).map Prod.fst := by
  intro dt hdt
  obtain ⟨e, he, rfl⟩ := List.mem_map.mp hdt
  by_cases hn : new.all fun n => n.1 != e.1
  · exact List.mem_map_of_mem _ (List.mem_append_left _ (List.mem_filter.mpr ⟨he, hn⟩))
  · obtain ⟨n, hn, hne⟩ : ∃ n ∈ new, n.1 = e.1 := by
      simpa only [List.all_eq_true, bne_iff_ne, ne_eq, not_forall, not_not, exists_prop] using hn
    exact List.mem_map.mpr ⟨n, List.mem_append_right _ hn, hne⟩

/-- The last write section of a Put keeps every start time cached for every stream. -/
theorem addVersions_starts (c : Catalog) (k k' : String) (new : List (Int × Schema))
    {vs : List (Int × Schema)} (hk : c.schemas.lookup k' = some vs) :
    ∃ vs', (c.addVersions k new).schemas.lookup k' = some vs' ∧
      ∀ dt ∈ vs.map Prod.fst, dt ∈ vs'.map Prod.fst := by
  by_cases h : k' = k
  · subst h
    exact ⟨_, by simp [Catalog.addVersions, hk], mergeVersions_starts vs new⟩
  · exact ⟨vs, by simp [Catalog.addVersions, Finmap.lookup_insert_of_ne _ h, hk], fun _ h => h⟩

/-- Every event keeps each start time cached for a stream or clears the stream, whatever the
store answers: a Put replaces versions by start time and drops none, and a one-version Delete
changes nothing, so a version the store loses stays cached until the stream is cleared. -/
theorem step_keeps_version_starts {answers : List (Int × Bytes) → Prop} {keys : String → Prop}
    {c c' : Catalog} (h : Event answers keys c c') {k : String} {vs : List (Int × Schema)}
    (hk : c.schemas.lookup k = some vs) :
    (∃ vs', c'.schemas.lookup k = some vs' ∧ ∀ dt ∈ vs.map Prod.fst, dt ∈ vs'.map Prod.fst) ∨
      c'.schemas.lookup k = none := by
  rcases h.state_cases with rfl | ⟨k', rfl⟩ | ⟨-, -, k', s, fresh, -, -, rfl | ⟨new, rfl⟩⟩
  · exact .inl ⟨vs, hk, fun _ h => h⟩
  · by_cases hk' : k = k'
    · subst hk'
      exact .inr (by rw [Catalog.removeStream_schemas, Finmap.lookup_erase])
    · exact .inl ⟨vs, by rw [Catalog.removeStream_schemas, Finmap.lookup_erase_ne hk', hk],
        fun _ h => h⟩
  · exact .inl ⟨vs, by rw [Catalog.publish_schemas]; exact hk, fun _ h => h⟩
  · exact .inl (addVersions_starts _ k' k new (by rw [Catalog.publish_schemas]; exact hk))

/-- The one-version Delete of bucket `100` leaves both cached versions of the stream. -/
theorem step_keeps_version_starts_one_version :
    appCatalog.schemas.lookup "acme/logs/app" = some appVersions ∧
      ((∃ vs', (watchDelete false "/data/" appCatalog "/schema/acme/logs/app/100").state.1.schemas.lookup
          "acme/logs/app" = some vs' ∧ ∀ dt ∈ appVersions.map Prod.fst, dt ∈ vs'.map Prod.fst) ∨
        (watchDelete false "/data/" appCatalog "/schema/acme/logs/app/100").state.1.schemas.lookup
          "acme/logs/app" = none) :=
  ⟨by decide, @step_keeps_version_starts (fun _ => True) (fun _ => True) appCatalog _
    (.delete false "/data/" "/schema/acme/logs/app/100") _ _ (by decide)⟩

/-- A store whose older bucket parses to an empty list of schemas. -/
def emptyBucketStore : Store :=
  [("/schema/acme/logs/app/100", .schemas []), ("/schema/acme/logs/app/200", .schemas [appV1])]

/-- The Put for bucket 100 of `emptyBucketStore`, whose payloads all parse, panics at
`pop().unwrap()` after publishing `appV1`, and leaves the stream with a latest schema and
settings but no versions. -/
theorem watch_put_empty_bucket_tears_maps :
    watchPut (Store.lister emptyBucketStore) 1000 nodeGenerator Catalog.empty
        "/schema/acme/logs/app/100" none =
        .panic (Catalog.empty.publish "acme/logs/app" appV1 nodeGenerator) ∧
      emptyBucketStore.all (fun e => (e.2.fromSlice).isSome) ∧
      ¬ (Catalog.empty.publish "acme/logs/app" appV1 nodeGenerator).Coherent :=
  ⟨by decide, by decide, fun h => absurd ((h.versions_iff_latest "acme/logs/app").mpr (by decide))
    (by decide)⟩

end SchemaCatalog
