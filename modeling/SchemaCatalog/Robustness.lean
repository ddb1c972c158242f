import SchemaCatalog.Runs

namespace SchemaCatalog

/-- Every Put ends in one of four ways: skipped or panicked with the maps untouched, applied
to the stream its key names, or panicked after publishing that stream's latest schema. -/
theorem watchPut_cases (list : Lister) (now : Int) (fresh : SnowflakeIdGenerator) (c : Catalog)
    (key : String) (startDt : Option Int) :
    watchPut list now fresh c key startDt = .done c ∨ watchPut list now fresh c key startDt = .panic c ∨
    ∃ k s, stripPrefix (putKey key startDt).1 "/schema/" = some k ∧
      ((∃ new, watchPut list now fresh c key startDt = .done ((c.publish k s fresh).addVersions k new)) ∨
        watchPut list now fresh c key startDt = .panic (c.publish k s fresh)) := by
  unfold watchPut
  rcases hk : stripPrefix (putKey key startDt).1 "/schema/" with _ | k
  · exact .inr (.inl rfl)
  simp only
  rcases prevStartDt c k with _ | prev
  · exact .inr (.inl rfl)
  simp only
  rcases list ((putKey key startDt).1 ++ "/") (tsRange (putKey key startDt).2 prev now) with _ | F
  · exact .inl rfl
  simp only [applyVersions]
  repeat' split
  all_goals first
    | exact .inl rfl
    | exact .inr (.inr ⟨k, _, rfl, .inl ⟨_, rfl⟩⟩)
    | exact .inr (.inr ⟨k, _, rfl, .inr rfl⟩)

/-- A Delete key whose remainder has fewer than three segments panics before any write. -/
theorem watchDelete_short_key (localDisk : Bool) (dataWalDir : String) (c : Catalog) (r : String)
    (h : (splitSlash r).length < 3) :
    watchDelete localDisk dataWalDir c ("/schema/" ++ r) = .panic (c, []) := by
  simp only [watchDelete, stripPrefix_append]
  split
  · rename_i heq
    simp only [heq, List.length_cons] at h
    omega
  · rfl

/-- A bucket store whose older bucket is not a list of schemas. -/
def brokenStore : Store :=
  [("/schema/acme/logs/app/100", .invalid), ("/schema/acme/logs/app/200", .schemas [appV1])]

/-- The Put for bucket 100 of `brokenStore` panics after publishing `appV1`, leaving the
stream with a latest schema and settings but no versions; the Delete for the bare key
`/schema/acme` panics on `columns[1]`. -/
theorem watch_event_panics_after_publish :
    watchPut (Store.lister brokenStore) 1000 nodeGenerator Catalog.empty "/schema/acme/logs/app/100" none =
        .panic (Catalog.empty.publish "acme/logs/app" appV1 nodeGenerator) ∧
      (Catalog.empty.publish "acme/logs/app" appV1 nodeGenerator).latest.lookup "acme/logs/app" = some appV1 ∧
      (Catalog.empty.publish "acme/logs/app" appV1 nodeGenerator).schemas.lookup "acme/logs/app" = none ∧
      watchDelete false "/data/" Catalog.empty "/schema/acme" = .panic (Catalog.empty, []) :=
  ⟨by decide, by decide, by decide, watchDelete_short_key false "/data/" Catalog.empty "acme" (by decide)⟩

theorem splitSlash_streamKey_segment {o n s : String} (type : StreamType) (ho : NoSlash o)
    (hn : NoSlash n) (hs : NoSlash s) :
    splitSlash (streamKey o type n ++ "/" ++ s) = [o, type.asStr, n, s] := by
  have h : streamKey o type n ++ "/" ++ s = o ++ "/" ++ (type.asStr ++ "/" ++ (n ++ "/" ++ s)) := by
    simp [streamKey, String.ext_iff]
  rw [h, splitSlash_append ho, splitSlash_append type.asStr_noSlash, splitSlash_append hn,
    splitSlash_of_noSlash hs]

theorem streamKey_ne_segment (o : String) (type : StreamType) (n s : String) :
    streamKey o type n ≠ streamKey o type n ++ "/" ++ s := fun h => by
  have := congrArg String.length h
  simp only [String.length_append] at this
  have : 0 < "/".length := by decide
  omega

/-- A Delete for `/schema/o/t/n/s` whose `s`
is not a positive integer takes the full-stream branch, removes the key `o/t/n/s` and runs the
side effects of the stream `o/t/n`, whose versions, latest schema and settings stay cached. -/
theorem watch_delete_keeps_stream_key {o n s : String} {type : StreamType} (ho : NoSlash o)
    (hn : NoSlash n) (hs : NoSlash s) (hdt : (parseI64 s).getD 0 ≤ 0) (localDisk : Bool)
    (dataWalDir : String) (c : Catalog) :
    (watchDelete localDisk dataWalDir c ("/schema/" ++ (streamKey o type n ++ "/" ++ s))).state.1.view
        (streamKey o type n) = c.view (streamKey o type n) ∧
      (watchDelete localDisk dataWalDir c ("/schema/" ++ (streamKey o type n ++ "/" ++ s))).state.2 =
        deleteEffects localDisk dataWalDir o type n := by
  simp only [watchDelete, stripPrefix_append, splitSlash_streamKey_segment type ho hn hs,
    StreamType.ofStr_asStr, if_neg (not_lt.mpr hdt), Outcome.state_done]
  exact ⟨view_removeStream_ne (streamKey_ne_segment o type n s), trivial⟩

/-- The catalog the bulk load builds from `appStore`. -/
def appCatalog : Catalog := (cache nodeGenerator ["acme/logs/app"] appStore Catalog.empty).state

theorem watch_delete_keeps_stream_key_zero :
    (appCatalog.schemas.lookup "acme/logs/app").isSome ∧
      NoSlash "acme" ∧ NoSlash "app" ∧ NoSlash "0" ∧ (parseI64 "0").getD 0 ≤ 0 ∧
      (watchDelete false "/data/" appCatalog
          ("/schema/" ++ (streamKey "acme" .logs "app" ++ "/" ++ "0"))).state.1.view
          (streamKey "acme" .logs "app") = appCatalog.view (streamKey "acme" .logs "app") ∧
      (watchDelete false "/data/" appCatalog
          ("/schema/" ++ (streamKey "acme" .logs "app" ++ "/" ++ "0"))).state.2 =
        deleteEffects false "/data/" "acme" .logs "app" :=
  ⟨by decide, by decide, by decide, by decide, by decide,
    watch_delete_keeps_stream_key (by decide) (by decide) (by decide) (by decide) false "/data/"
      appCatalog⟩

/-- One event the catalog handles, whatever the store answers: a Put for a key satisfying
`keys` whose listing satisfies `answers`, a Delete event, or a `stream_delete_inner` call. -/
inductive Event (answers : List (Int × Bytes) → Prop) (keys : String → Prop) :
    Catalog → Catalog → Prop
  | put {c : Catalog} (list : Lister) (hlist : ∀ pfx r F, list pfx r = some F → answers F)
      (now : Int) (fresh : SnowflakeIdGenerator) (key : String) (hkey : keys key)
      (startDt : Option Int) : Event answers keys c (watchPut list now fresh c key startDt).state
  | delete {c : Catalog} (localDisk : Bool) (dataWalDir key : String) :
      Event answers keys c (watchDelete localDisk dataWalDir c key).state.1
  | streamDelete {c : Catalog} (retentionOk offsetOk : Bool) (org : String) (type : StreamType)
      (name : String) : Event answers keys c (streamDeleteInner retentionOk offsetOk c org type name).state

/-- The catalogs a run reaches: `cache` over a store whose streams' buckets satisfy `answers`,
in any key order, then events one at a time; the store may change arbitrarily in between. -/
inductive Loaded (answers : List (Int × Bytes) → Prop) (keys : String → Prop) : Catalog → Prop
  | init (fresh : SnowflakeIdGenerator) (order : List String) (S : Store)
      (hS : ∀ k, answers (S.buckets k)) : Loaded answers keys (cache fresh order S Catalog.empty).state
  | step {c c' : Catalog} : Loaded answers keys c → Event answers keys c c' → Loaded answers keys c'

/-- Every event leaves the catalog, removes one stream, or publishes the latest schema of the
stream its Put key names and, unless it panics, merges that stream's versions. -/
theorem Event.state_cases {answers : List (Int × Bytes) → Prop} {keys : String → Prop}
    {c c' : Catalog} (h : Event answers keys c c') :
    c' = c ∨ (∃ k, c' = c.removeStream k) ∨
      ∃ key startDt k s fresh, keys key ∧ stripPrefix (putKey key startDt).1 "/schema/" = some k ∧
        (c' = c.publish k s fresh ∨ ∃ new, c' = (c.publish k s fresh).addVersions k new) := by
  cases h with
  | put list _ now fresh key hkey startDt =>
    rcases watchPut_cases list now fresh c key startDt with he | he | ⟨k, s, hk, ⟨new, he⟩ | he⟩ <;>
      rw [he]
    · exact .inl rfl
    · exact .inl rfl
    · exact .inr (.inr ⟨key, startDt, k, s, fresh, hkey, hk, .inr ⟨new, rfl⟩⟩)
    · exact .inr (.inr ⟨key, startDt, k, s, fresh, hkey, hk, .inl rfl⟩)
  | delete localDisk dataWalDir key =>
    rcases watchDelete_state localDisk dataWalDir c key with he | ⟨k, he⟩ <;> rw [he]
    exacts [.inl rfl, .inr (.inl ⟨k, rfl⟩)]
  | streamDelete retentionOk offsetOk org type name =>
    rw [streamDeleteInner_state]
    split_ifs
    exacts [.inr (.inl ⟨_, rfl⟩), .inl rfl]

end SchemaCatalog
