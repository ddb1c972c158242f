import SchemaCatalog.Readers

namespace SchemaCatalog

/-- The type text `get_streams` writes permissions under: `enrichment_table` for enrichment
tables, the type's own name otherwise. -/
def permissionType : StreamType → String
  | .enrichmentTables => "enrichment_table"
  | t => t.asStr

/-- The filter of `get_streams`: with a stream type and a permission list, every listed stream
unless the list holds `{type}:_all_{org}`, else those whose `{type}:{name}` it holds; no filter
otherwise. -/
def filterIndices (orgId : String) (streamType : Option StreamType)
    (permittedStreams : Option (List String)) (indices : Multiset StreamSchema) :
    Multiset StreamSchema :=
  match streamType with
  | some sType =>
    match permittedStreams with
    | some permitted =>
      if permissionType sType ++ ":_all_" ++ orgId ∈ permitted then indices
      else indices.filter fun loc => permissionType sType ++ ":" ++ loc.streamName ∈ permitted
    | none => indices
  | none => indices

/-- `get_streams` up to the record `stream_res` builds of each stream it keeps: the listing of
`db::schema::list`, then the permission filter. `none` is a panic of the listing. -/
def getStreams (c : Catalog) (S : Store) (orgId : String) (streamType : Option StreamType)
    (fetchSchema : Bool) (permittedStreams : Option (List String)) : Option (Multiset StreamSchema) :=
  (c.list S orgId streamType fetchSchema).map (filterIndices orgId streamType permittedStreams)

/-- A key of three names starts with the prefix of a typed listing exactly when its org and type
name are the ones asked for; the rest is its name. -/
theorem stripPrefix_typed {o t' n orgId : String} (ho : NoSlash o) (ht' : NoSlash t')
    (horg : NoSlash orgId) (t : StreamType) :
    stripPrefix (o ++ "/" ++ t' ++ "/" ++ n) (latestPrefix orgId (some t)) =
      if o = orgId ∧ t' = t.asStr then some n else none := by
  have hkey : o ++ "/" ++ t' ++ "/" ++ n = o ++ "/" ++ (t' ++ "/" ++ n) := by
    simp [String.append_assoc]
  have hpre : latestPrefix orgId (some t) = orgId ++ "/" ++ (t.asStr ++ "/") := by
    simp [latestPrefix, String.append_assoc]
  rw [hkey, hpre, stripPrefix_slash ho horg, stripPrefix_name ht' t.asStr_noSlash]
  by_cases h1 : o = orgId <;> by_cases h2 : t' = t.asStr <;> simp [h1, h2]

/-- The untyped map path reads a key of three names `o/t/n` under `org/` as the row of `n` with
the type `StreamType::from(t)`, and skips it under another org. -/
theorem latestEntry_untyped {o t n org : String} (ho : NoSlash o) (ht : NoSlash t)
    (hn : NoSlash n) (horg : NoSlash org) (fetch : Bool) (v : Schema) :
    latestEntry (latestPrefix org none) none fetch (o ++ "/" ++ t ++ "/" ++ n) v =
      if o = org then some (some ⟨n, .ofStr t, if fetch then v else Schema.empty⟩) else some none := by
  have hkey : o ++ "/" ++ t ++ "/" ++ n = o ++ "/" ++ (t ++ "/" ++ n) := by
    simp [String.append_assoc]
  rw [hkey]
  by_cases h : o = org
  · subst h
    simp [latestEntry, latestPrefix, stripPrefix_name ho ho, splitSlash_append ht,
      splitSlash_of_noSlash hn]
  · simp [latestEntry, latestPrefix, stripPrefix_name ho horg, h]

section Typed

variable {c : Catalog}

/-- The rows of a listing of the cache that returns: one for each cached entry the loop keeps. -/
theorem mem_listStreamSchemas {orgId : String} {type : Option StreamType} {fetch : Bool}
    {rows : Multiset StreamSchema} (h : listStreamSchemas c orgId type fetch = some rows)
    (r : StreamSchema) :
    r ∈ rows ↔ ∃ k v, c.latest.lookup k = some v ∧
      latestEntry (latestPrefix orgId type) type fetch k v = some (some r) := by
  rw [listStreamSchemas_eq] at h
  split_ifs at h
  cases h
  simp only [Multiset.mem_filterMap, Option.join_eq_some]
  constructor
  · rintro ⟨⟨k, v⟩, he, hr⟩
    exact ⟨k, v, Finmap.mem_lookup_iff.mpr he, hr⟩
  · rintro ⟨k, v, hv, hr⟩
    exact ⟨⟨k, v⟩, Finmap.mem_lookup_iff.mp hv, hr⟩

/-- A typed listing of the cache lists the names of the keys `org/type/name`. -/
theorem listStreamSchemas_typed (hc : c.KeysFormed) {orgId : String} (horg : NoSlash orgId)
    (t : StreamType) (fetch : Bool) :
    ∃ rows, listStreamSchemas c orgId (some t) fetch = some rows ∧
      ∀ n, (∃ r ∈ rows, r.streamName = n) ↔ orgId ++ "/" ++ t.asStr ++ "/" ++ n ∈ c.latest := by
  obtain ⟨rows, hrows⟩ := Option.isSome_iff_exists.mp
    (listStreamSchemas_isSome_of_keysFormed hc horg (some t) fetch)
  refine ⟨rows, hrows, fun n => ?_⟩
  simp only [mem_listStreamSchemas hrows]
  constructor
  · rintro ⟨r, ⟨k, v, hv, hr⟩, rfl⟩
    have hk := Finmap.mem_of_lookup_eq_some hv
    obtain ⟨o, t', n', ho, ht', hn', rfl⟩ := hc k hk
    by_cases hot : o = orgId ∧ t' = t.asStr
    · obtain ⟨rfl, rfl⟩ := hot
      simp only [latestEntry, stripPrefix_typed ho ht' horg, and_self, if_true] at hr
      cases hr
      exact hk
    · simp [latestEntry, stripPrefix_typed ho ht' horg, hot] at hr
  · intro hk
    obtain ⟨v, hv⟩ := Option.isSome_iff_exists.mp (Finmap.lookup_isSome.mpr hk)
    refine ⟨⟨n, t, if fetch then v else Schema.empty⟩, ⟨_, v, hv, ?_⟩, rfl⟩
    simp only [latestEntry, stripPrefix_typed horg t.asStr_noSlash horg, and_self, if_true]

/-- An untyped listing of the cache lists, for each key `org/t/name`, the name with the type
`StreamType::from(t)`. -/
theorem listStreamSchemas_untyped (hc : c.KeysFormed) {orgId : String} (horg : NoSlash orgId)
    (fetch : Bool) :
    ∃ rows, listStreamSchemas c orgId none fetch = some rows ∧
      ∀ n ty, (∃ r ∈ rows, r.streamName = n ∧ r.streamType = ty) ↔
        ∃ t, StreamType.ofStr t = ty ∧ orgId ++ "/" ++ t ++ "/" ++ n ∈ c.latest := by
  obtain ⟨rows, hrows⟩ := Option.isSome_iff_exists.mp
    (listStreamSchemas_isSome_of_keysFormed hc horg none fetch)
  refine ⟨rows, hrows, fun n ty => ?_⟩
  simp only [mem_listStreamSchemas hrows]
  constructor
  · rintro ⟨r, ⟨k, v, hv, hr⟩, rfl, rfl⟩
    have hk := Finmap.mem_of_lookup_eq_some hv
    obtain ⟨o, t, n', ho, ht, hn', rfl⟩ := hc k hk
    rw [latestEntry_untyped ho ht hn' horg] at hr
    by_cases hot : o = orgId
    · subst hot
      rw [if_pos rfl] at hr
      cases hr
      exact ⟨t, rfl, hk⟩
    · simp [hot] at hr
  · rintro ⟨t, rfl, hk⟩
    have hns : ∀ x ∈ [orgId, t, n], NoSlash x := fun x hx =>
      noSlash_of_mem_splitSlash ((((hc _ hk).eq_iff).mp rfl) ▸ hx)
    obtain ⟨v, hv⟩ := Option.isSome_iff_exists.mp (Finmap.lookup_isSome.mpr hk)
    refine ⟨⟨n, .ofStr t, if fetch then v else Schema.empty⟩, ⟨_, v, hv, ?_⟩, rfl, rfl⟩
    rw [latestEntry_untyped horg (hns t (by simp)) (hns n (by simp)) horg, if_pos rfl]

end Typed

/-- In every catalog a run of feed events reaches, while the cache holds a stream, `get_streams`
for an org without `/`, a stream type and a permission list returns exactly the cached streams
`org/type/name` the list grants, by `{type}:{name}` or by `{type}:_all_{org}`. -/
theorem reachable_get_streams_granted {answers : List (Int × Bytes) → Prop} {c : Catalog}
    (h : Loaded answers FeedKey c) (hne : c.latest ≠ ∅) (S : Store) {orgId : String}
    (horg : NoSlash orgId) (t : StreamType) (fetchSchema : Bool) (permitted : List String) :
    ∃ res, getStreams c S orgId (some t) fetchSchema (some permitted) = some res ∧
      ∀ n, (∃ r ∈ res, r.streamName = n) ↔
        orgId ++ "/" ++ t.asStr ++ "/" ++ n ∈ c.latest ∧
          (permissionType t ++ ":_all_" ++ orgId ∈ permitted ∨
            permissionType t ++ ":" ++ n ∈ permitted) := by
  obtain ⟨rows, hrows, hmem⟩ := listStreamSchemas_typed h.keysFormed horg t fetchSchema
  refine ⟨_, by rw [getStreams, Catalog.list, if_neg hne, hrows]; rfl, fun n => ?_⟩
  dsimp only [filterIndices]
  split_ifs with hall
  · simp [hmem, hall]
  · simp only [Multiset.mem_filter, hall, false_or]
    constructor
    · rintro ⟨r, ⟨hr, hp⟩, rfl⟩
      exact ⟨(hmem _).mp ⟨r, hr, rfl⟩, hp⟩
    · rintro ⟨hk, hp⟩
      obtain ⟨r, hr, rfl⟩ := (hmem n).mpr hk
      exact ⟨r, ⟨hr, hp⟩, rfl⟩

theorem reachable_get_streams_granted_app :
    appPutCatalog.latest ≠ ∅ ∧ NoSlash "acme" ∧
    ∃ res, getStreams appPutCatalog appStore "acme" (some .logs) true (some ["logs:app"]) = some res ∧
      ∀ n, (∃ r ∈ res, r.streamName = n) ↔
        "acme" ++ "/" ++ StreamType.logs.asStr ++ "/" ++ n ∈ appPutCatalog.latest ∧
          (permissionType .logs ++ ":_all_" ++ "acme" ∈ ["logs:app"] ∨
            permissionType .logs ++ ":" ++ n ∈ ["logs:app"]) :=
  ⟨by decide, by decide, reachable_get_streams_granted appPutCatalog_loaded (by decide) appStore
    (by decide) .logs true ["logs:app"]⟩

/-- In every catalog a run of feed events reaches, while the cache holds a stream, `get_streams`
for an org without `/` and no stream type returns, whatever permission list it is given, every
cached stream `org/t/name` of the org with the type `StreamType::from(t)`. -/
theorem reachable_get_streams_untyped {answers : List (Int × Bytes) → Prop} {c : Catalog}
    (h : Loaded answers FeedKey c) (hne : c.latest ≠ ∅) (S : Store) {orgId : String}
    (horg : NoSlash orgId) (fetchSchema : Bool) (permitted : Option (List String)) :
    ∃ res, getStreams c S orgId none fetchSchema permitted = some res ∧
      ∀ n ty, (∃ r ∈ res, r.streamName = n ∧ r.streamType = ty) ↔
        ∃ t, StreamType.ofStr t = ty ∧ orgId ++ "/" ++ t ++ "/" ++ n ∈ c.latest := by
  obtain ⟨rows, hrows, hmem⟩ := listStreamSchemas_untyped h.keysFormed horg fetchSchema
  exact ⟨rows, by rw [getStreams, Catalog.list, if_neg hne, hrows]; rfl, hmem⟩

theorem reachable_get_streams_untyped_no_grants :
    appPutCatalog.latest ≠ ∅ ∧ NoSlash "acme" ∧
    ∃ res, getStreams appPutCatalog appStore "acme" none true (some []) = some res ∧
      ∀ n ty, (∃ r ∈ res, r.streamName = n ∧ r.streamType = ty) ↔
        ∃ t, StreamType.ofStr t = ty ∧ "acme" ++ "/" ++ t ++ "/" ++ n ∈ appPutCatalog.latest :=
  ⟨by decide, by decide, reachable_get_streams_untyped appPutCatalog_loaded (by decide) appStore
    (by decide) true (some [])⟩

end SchemaCatalog
