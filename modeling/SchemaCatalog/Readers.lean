import SchemaCatalog.Listing

namespace SchemaCatalog

/-- `split('/')` yields one piece more than there are slashes. -/
theorem length_splitChars (w : List Char) : (splitChars w).length = w.count '/' + 1 := by
  induction w with
  | nil => rfl
  | cons c cs ih =>
    by_cases hc : c = '/'
    · subst hc
      simp [splitChars, ih]
    · rcases h : splitChars cs with _ | ⟨p, ps⟩
      · exact absurd h (splitChars_ne_nil cs)
      · simp [splitChars, hc, h, List.count_cons, ← ih]

theorem not_mem_of_mem_splitChars {w p : List Char} (hp : p ∈ splitChars w) : '/' ∉ p := by
  induction w generalizing p with
  | nil => simp_all [splitChars]
  | cons c cs ih =>
    by_cases hc : c = '/'
    · simp only [splitChars, hc, if_true, List.mem_cons] at hp
      rcases hp with rfl | hp
      exacts [List.not_mem_nil _, ih hp]
    · rcases h : splitChars cs with _ | ⟨q, qs⟩
      · exact absurd h (splitChars_ne_nil cs)
      · simp only [splitChars, hc, if_false, h, List.mem_cons] at hp
        rcases hp with rfl | hp
        · simpa [Ne.symm hc] using ih (h ▸ List.mem_cons_self q qs)
        · exact ih (h ▸ List.mem_cons_of_mem q hp)

theorem length_splitSlash (s : String) : (splitSlash s).length = s.data.count '/' + 1 := by
  simp [splitSlash, length_splitChars]

theorem noSlash_of_mem_splitSlash {s p : String} (hp : p ∈ splitSlash s) : NoSlash p := by
  obtain ⟨w, hw, rfl⟩ := List.mem_map.mp hp
  exact not_mem_of_mem_splitChars hw

theorem noSlash_iff_count {s : String} : NoSlash s ↔ s.data.count '/' = 0 :=
  List.count_eq_zero.symm

theorem count_slash_three (o t n : String) :
    (o ++ "/" ++ t ++ "/" ++ n).data.count '/' =
      o.data.count '/' + t.data.count '/' + n.data.count '/' + 2 := by
  simp only [String.data_append, List.count_append]
  have : ['/'].count '/' = 1 := List.count_singleton_self '/'
  omega

/-- A key of the form `org/stream_type/stream_name`: three names without `/`. -/
def StreamKeyForm (k : String) : Prop :=
  ∃ o t n, NoSlash o ∧ NoSlash t ∧ NoSlash n ∧ k = o ++ "/" ++ t ++ "/" ++ n

/-- A key of three names has two slashes, so it is `a/b/d` exactly for its own three columns. -/
theorem StreamKeyForm.eq_iff {k : String} (hk : StreamKeyForm k) {a b d : String} :
    k = a ++ "/" ++ b ++ "/" ++ d ↔ splitSlash k = [a, b, d] := by
  obtain ⟨o, t, n, ho, ht, hn, rfl⟩ := hk
  rw [splitSlash_three ho ht hn]
  constructor
  · intro h
    have hc := congrArg (fun s : String => s.data.count '/') h
    simp only [count_slash_three, noSlash_iff_count.mp ho, noSlash_iff_count.mp ht,
      noSlash_iff_count.mp hn] at hc
    have ha : NoSlash a := noSlash_iff_count.mpr (by omega)
    have hb : NoSlash b := noSlash_iff_count.mpr (by omega)
    have hd : NoSlash d := noSlash_iff_count.mpr (by omega)
    have := congrArg splitSlash h
    rwa [splitSlash_three ho ht hn, splitSlash_three ha hb hd] at this
  · simp only [List.cons.injEq, and_true]
    rintro ⟨rfl, rfl, rfl⟩
    rfl

theorem StreamKeyForm.slash_mem {k : String} (hk : StreamKeyForm k) : '/' ∈ k.data := by
  obtain ⟨o, t, n, -, -, -, rfl⟩ := hk
  simp [String.data_append]

/-- The stream key `cache` files a store key under is of three names. -/
theorem streamKeyForm_of_cacheItem {key k : String} {dt : Int} (h : cacheItem key = some (k, dt)) :
    StreamKeyForm k := by
  unfold cacheItem at h
  split at h
  · cases h
  · split at h
    · rename_i hcols
      obtain ⟨_, -, he⟩ := Option.map_eq_some'.mp h
      cases he
      have hmem : ∀ p ∈ [_, _, _, _], NoSlash p := fun p hp =>
        noSlash_of_mem_splitSlash (List.mem_of_mem_take (hcols ▸ hp))
      exact ⟨_, _, _, hmem _ (by simp), hmem _ (by simp), hmem _ (by simp), rfl⟩
    · cases h

theorem streamKeyForm_of_buckets {S : Store} {k : String} (h : S.buckets k ≠ []) : StreamKeyForm k := by
  have hk := mem_streamKeys.mpr h
  simp only [Store.streamKeys, List.mem_dedup, List.mem_filterMap, Option.map_eq_some'] at hk
  obtain ⟨e, -, ⟨k', dt⟩, he, rfl⟩ := hk
  exact streamKeyForm_of_cacheItem he

/-- Every key of the latest-schema map is of three names. -/
def Catalog.KeysFormed (c : Catalog) : Prop := ∀ k ∈ c.latest, StreamKeyForm k

namespace Catalog.KeysFormed

/-- A write that leaves every other stream's view as it was, and caches `k` only where it was
cached or is of three names, keeps the keys formed. -/
theorem frame {c d : Catalog} (hc : c.KeysFormed) {k : String}
    (hne : ∀ k', k' ≠ k → d.view k' = c.view k') (hk : k ∈ d.latest → k ∈ c.latest ∨ StreamKeyForm k) :
    d.KeysFormed := fun k' hk' => by
  by_cases h : k' = k
  · subst h
    exact (hk hk').elim (hc k') id
  · have hl : d.latest.lookup k' = c.latest.lookup k' := congrArg (fun v => v.2.1) (hne k' h)
    rw [← Finmap.lookup_isSome, hl, Finmap.lookup_isSome] at hk'
    exact hc k' hk'

theorem cacheKey {c : Catalog} (hc : c.KeysFormed) (fresh : SnowflakeIdGenerator) (S : Store)
    (k : String) : (SchemaCatalog.cacheKey fresh c k (S.buckets k)).state.KeysFormed := by
  by_cases hb : S.buckets k = []
  · rw [hb, cacheKey_nil]
    exact hc
  · exact hc.frame (fun _ h => view_cacheKey_ne h fresh _) fun _ => .inr (streamKeyForm_of_buckets hb)

theorem installAll (fresh : SnowflakeIdGenerator) (S : Store) :
    ∀ (order : List String) {c : Catalog}, c.KeysFormed →
      (SchemaCatalog.installAll fresh S order c).state.KeysFormed
  | [], _, hc => hc
  | k :: ks, c, hc => by
    have hk := hc.cacheKey fresh S k
    unfold SchemaCatalog.installAll
    split
    · rename_i c' hc'
      rw [hc'] at hk
      exact installAll fresh S ks hk
    · exact hk

theorem empty : Catalog.empty.KeysFormed := fun _ h => absurd h Finmap.not_mem_empty

theorem cache (fresh : SnowflakeIdGenerator) (order : List String) (S : Store) :
    (SchemaCatalog.cache fresh order S Catalog.empty).state.KeysFormed := by
  unfold SchemaCatalog.cache
  split_ifs
  exacts [installAll fresh S order empty, empty]

theorem publish {c : Catalog} (hc : c.KeysFormed) {k : String} (hk : StreamKeyForm k) (s : Schema)
    (fresh : SnowflakeIdGenerator) : (c.publish k s fresh).KeysFormed := fun k' hk' => by
  rw [Catalog.publish_latest, Finmap.mem_insert] at hk'
  exact hk'.elim (fun h => h ▸ hk) (hc k')

theorem addVersions {c : Catalog} (hc : c.KeysFormed) (k : String) (new : List (Int × Schema)) :
    (c.addVersions k new).KeysFormed := hc

theorem removeStream {c : Catalog} (hc : c.KeysFormed) (k : String) : (c.removeStream k).KeysFormed :=
  fun k' hk' => hc k' (Finmap.mem_erase.mp (by simpa using hk')).2

end Catalog.KeysFormed

/-- The stream a feed key names is of three names. -/
theorem FeedKey.streamKeyForm {key : String} (h : FeedKey key) {startDt : Option Int} {k : String}
    (hk : stripPrefix (putKey key startDt).1 "/schema/" = some k) : StreamKeyForm k := by
  obtain ⟨o, t, n, ho, ht, hn, h'⟩ := h.stripPrefix_putKey startDt
  exact ⟨o, t, n, ho, ht, hn, Option.some.inj (hk.symm.trans h')⟩

/-- The bulk load caches only streams the store files buckets under, a Put for a feed key only
the stream it names, and the deletes only remove keys. -/
theorem Loaded.keysFormed {answers : List (Int × Bytes) → Prop} {c : Catalog}
    (h : Loaded answers FeedKey c) : c.KeysFormed := by
  induction h with
  | init fresh order S _ => exact Catalog.KeysFormed.cache fresh order S
  | step _ hev ih =>
    rcases hev.state_cases with rfl | ⟨k, rfl⟩ | ⟨_, _, k, s, fresh, hkey, hk, rfl | ⟨new, rfl⟩⟩
    · exact ih
    · exact ih.removeStream k
    · exact ih.publish (hkey.streamKeyForm hk) s fresh
    · exact (ih.publish (hkey.streamKeyForm hk) s fresh).addVersions k new

/-- In every catalog a run of feed events reaches, whatever the store answers, each key of
`STREAM_SCHEMAS_LATEST` is `org/stream_type/stream_name`, three names without `/`. -/
theorem reachable_latest_keys_formed {answers : List (Int × Bytes) → Prop} {c : Catalog}
    (h : Loaded answers FeedKey c) :
    ∀ k ∈ c.latest, ∃ o t n, NoSlash o ∧ NoSlash t ∧ NoSlash n ∧ k = o ++ "/" ++ t ++ "/" ++ n :=
  h.keysFormed

/-- The Put event for bucket 200 of `appStore`, after the bulk load, addresses a feed key. -/
theorem feedKey_app200 : FeedKey "/schema/acme/logs/app/200" :=
  ⟨"acme", "logs", "app", by decide, by decide, by decide, .inr ⟨"200", by decide, by decide⟩⟩

/-- The catalog after the bulk load of `appStore` and the Put event for its bucket 200. -/
def appPutCatalog : Catalog :=
  (watchPut appStore.lister 1000 nodeGenerator appCatalog "/schema/acme/logs/app/200" none).state

theorem appPutCatalog_loaded : Loaded (fun _ => True) FeedKey appPutCatalog :=
  .step (.init nodeGenerator ["acme/logs/app"] appStore fun _ => trivial)
    (.put _ (fun _ _ _ _ => trivial) 1000 nodeGenerator _ feedKey_app200 none)

theorem reachable_latest_keys_formed_after_put :
    appPutCatalog.latest.keys = {"acme/logs/app"} ∧
      ∀ k ∈ appPutCatalog.latest, ∃ o t n, NoSlash o ∧ NoSlash t ∧ NoSlash n ∧
        k = o ++ "/" ++ t ++ "/" ++ n :=
  ⟨by decide, reachable_latest_keys_formed appPutCatalog_loaded⟩

/-- `list_organizations_from_cache`: the first column of every key holding a `/`, as the set its
`HashSet` collects (the `Vec` it returns comes in no fixed order). `split` yields one piece at
least, so `[0]` never panics. -/
def listOrganizationsFromCache (c : Catalog) : Finset String :=
  (c.latest.keys.filter fun k => '/' ∈ k.data).image fun k => (splitSlash k).headD ""

/-- The keys the loop of `list_streams_from_cache` does not skip: they hold a `/` (so
`columns[1]` exists), their first column is the org and their second parses to the type. -/
def StreamsMatch (orgId : String) (streamType : StreamType) (schemaKey : String) : Prop :=
  '/' ∈ schemaKey.data ∧ (splitSlash schemaKey).headD "" = orgId ∧
    StreamType.ofStr ((splitSlash schemaKey).getD 1 "") = streamType

instance (orgId : String) (streamType : StreamType) : DecidablePred (StreamsMatch orgId streamType) :=
  fun _ => inferInstanceAs (Decidable (_ ∧ _ ∧ _))

/-- `list_streams_from_cache`: the third column of every key the loop does not skip, as the set
its `HashSet` collects; `none` where `columns[2]` panics on a key of two columns. -/
def listStreamsFromCache (c : Catalog) (orgId : String) (streamType : StreamType) :
    Option (Finset String) :=
  if ∀ k ∈ c.latest.keys.filter (StreamsMatch orgId streamType), 3 ≤ (splitSlash k).length then
    some ((c.latest.keys.filter (StreamsMatch orgId streamType)).image fun k => (splitSlash k).getD 2 "")
  else none

/-- `format!("/{}/", StreamType::EnrichmentTables)`, the text the first loop of
`cache_enrichment_tables` looks for in a key. -/
def enrichmentTablesInfix : String := "/" ++ StreamType.enrichmentTables.asStr ++ "/"

/-- The `tables` the first loop of `cache_enrichment_tables` collects: every key containing
`/enrichment_tables/` whose second column parses to enrichment tables, with its first and third
columns as org and stream name. The loop reads `columns[1]` and `columns[2]` before the type
check; `none` where one of them panics. -/
def enrichmentTables (c : Catalog) : Option (Finset (String × String × String)) :=
  let keys := c.latest.keys.filter fun k => List.IsInfix enrichmentTablesInfix.data k.data
  if ∀ k ∈ keys, 3 ≤ (splitSlash k).length then
    some ((keys.filter fun k => StreamType.ofStr ((splitSlash k).getD 1 "") = .enrichmentTables).image
      fun k => (k, (splitSlash k).headD "", (splitSlash k).getD 2 ""))
  else none

section Readers

variable {c : Catalog}

/-- The three columns of a key of three names. -/
theorem StreamKeyForm.columns {k : String} (hk : StreamKeyForm k) :
    ∃ o t n, splitSlash k = [o, t, n] ∧ k = o ++ "/" ++ t ++ "/" ++ n := by
  obtain ⟨o, t, n, ho, ht, hn, rfl⟩ := hk
  exact ⟨o, t, n, splitSlash_three ho ht hn, rfl⟩

theorem listOrganizationsFromCache_of_keysFormed (hc : c.KeysFormed) (o : String) :
    o ∈ listOrganizationsFromCache c ↔ ∃ t n, o ++ "/" ++ t ++ "/" ++ n ∈ c.latest := by
  simp only [listOrganizationsFromCache, Finset.mem_image, Finset.mem_filter, Finmap.mem_keys]
  constructor
  · rintro ⟨k, ⟨hk, -⟩, rfl⟩
    obtain ⟨o, t, n, hs, rfl⟩ := (hc k hk).columns
    exact ⟨t, n, by rwa [hs]⟩
  · rintro ⟨t, n, hk⟩
    have hs := ((hc _ hk).eq_iff).mp rfl
    exact ⟨_, ⟨hk, (hc _ hk).slash_mem⟩, by rw [hs]; rfl⟩

theorem listStreamsFromCache_of_keysFormed (hc : c.KeysFormed) (orgId : String)
    (streamType : StreamType) :
    ∃ names, listStreamsFromCache c orgId streamType = some names ∧
      ∀ n, n ∈ names ↔ ∃ t, StreamType.ofStr t = streamType ∧ orgId ++ "/" ++ t ++ "/" ++ n ∈ c.latest := by
  have hlen : ∀ k ∈ c.latest.keys.filter (StreamsMatch orgId streamType), 3 ≤ (splitSlash k).length :=
    fun k hk => by
      obtain ⟨o, t, n, hs, -⟩ := (hc k (Finmap.mem_keys.mp (Finset.mem_filter.mp hk).1)).columns
      simp [hs]
  refine ⟨_, if_pos hlen, fun n => ?_⟩
  simp only [Finset.mem_image, Finset.mem_filter, Finmap.mem_keys, StreamsMatch]
  constructor
  · rintro ⟨k, ⟨hk, -, ho, ht⟩, rfl⟩
    obtain ⟨o, t, n, hs, rfl⟩ := (hc k hk).columns
    simp only [hs, List.headD_cons, List.getD_cons_succ, List.getD_cons_zero] at ho ht ⊢
    subst ho
    exact ⟨t, ht, hk⟩
  · rintro ⟨t, ht, hk⟩
    have hs := ((hc _ hk).eq_iff).mp rfl
    exact ⟨_, ⟨hk, (hc _ hk).slash_mem, by simp [hs], by simpa [hs] using ht⟩, by simp [hs]⟩

/-- A key of three names contains `/x/` for a name `x` only as its middle column. -/
theorem StreamKeyForm.infix_slash {k x : String} (hk : StreamKeyForm k) (hx : NoSlash x) :
    List.IsInfix ("/" ++ x ++ "/").data k.data ↔ (splitSlash k).getD 1 "" = x := by
  obtain ⟨o, t, n, ho, ht, hn, rfl⟩ := hk
  rw [splitSlash_three ho ht hn, List.getD_cons_succ, List.getD_cons_zero]
  constructor
  · rintro ⟨a, b, hab⟩
    have hc := congrArg (List.count '/') hab
    rw [count_slash_three, noSlash_iff_count.mp ho, noSlash_iff_count.mp ht,
      noSlash_iff_count.mp hn] at hc
    simp only [String.data_append, List.count_append, List.count_singleton_self,
      noSlash_iff_count.mp hx] at hc
    have ha : '/' ∉ a := List.count_eq_zero.mp (by omega)
    have hb : '/' ∉ b := List.count_eq_zero.mp (by omega)
    simp only [String.data_append, List.append_assoc, List.singleton_append] at hab
    obtain rfl := append_slash_inj ha ho hab
    exact (String.ext (append_slash_inj hx ht (List.cons.inj (List.append_cancel_left hab)).2)).symm
  · rintro rfl
    exact ⟨o.data, n.data, by simp [String.data_append]⟩

/-- The keys whose columns the first loop of `cache_enrichment_tables` reads contain
`/enrichment_tables/`, so they have two slashes and three columns at least. -/
theorem enrichmentKeys_three_columns (c : Catalog) :
    ∀ k ∈ c.latest.keys.filter (fun k => List.IsInfix enrichmentTablesInfix.data k.data),
      3 ≤ (splitSlash k).length := by
  intro k hk
  have h2 : enrichmentTablesInfix.data.count '/' = 2 := by decide
  have := (Finset.mem_filter.mp hk).2.sublist.count_le '/'
  rw [length_splitSlash]
  omega

/-- Whatever the latest-schema map holds, the first loop of `cache_enrichment_tables` never
panics: it indexes `columns[1]` and `columns[2]` only of keys containing `/enrichment_tables/`. -/
theorem cache_enrichment_tables_never_panics (c : Catalog) : (enrichmentTables c).isSome := by
  unfold enrichmentTables
  dsimp only
  rw [if_pos (enrichmentKeys_three_columns c)]
  rfl

theorem enrichmentTables_of_keysFormed (hc : c.KeysFormed) :
    ∃ tables, enrichmentTables c = some tables ∧
      ∀ k o n, (k, o, n) ∈ tables ↔ k ∈ c.latest ∧ k = o ++ "/" ++ "enrichment_tables" ++ "/" ++ n := by
  unfold enrichmentTables
  dsimp only
  rw [if_pos (enrichmentKeys_three_columns c)]
  refine ⟨_, rfl, fun k o n => ?_⟩
  simp only [Finset.mem_image, Finset.mem_filter, Finmap.mem_keys, Prod.mk.injEq]
  constructor
  · rintro ⟨k, ⟨⟨hk, hinf⟩, -⟩, rfl, rfl, rfl⟩
    have hmid := ((hc k hk).infix_slash (StreamType.asStr_noSlash .enrichmentTables)).mp hinf
    obtain ⟨o, t, n, hs, rfl⟩ := (hc k hk).columns
    simp only [hs, List.getD_cons_succ, List.getD_cons_zero] at hmid
    subst hmid
    exact ⟨hk, by rw [hs]; rfl⟩
  · rintro ⟨hk, rfl⟩
    have hs := ((hc _ hk).eq_iff).mp rfl
    refine ⟨_, ⟨⟨hk, ((hc _ hk).infix_slash (StreamType.asStr_noSlash .enrichmentTables)).mpr
      (by simp [hs, StreamType.asStr])⟩, by simp [hs]; rfl⟩, by simp [hs]⟩

/-- The map path of `list` splits the rest of a key after `org/` in two under `assert_eq!`:
a key of three names whose org is `org` leaves `type/name`. -/
theorem listStreamSchemas_isSome_of_keysFormed (hc : c.KeysFormed) {org : String} (horg : NoSlash org)
    (type : Option StreamType) (fetch : Bool) : (listStreamSchemas c org type fetch).isSome := by
  unfold listStreamSchemas
  dsimp only
  split_ifs with he hall
  · rfl
  · rfl
  · refine absurd (fun x hx => ?_) hall
    obtain ⟨⟨k, v⟩, he, rfl⟩ := Multiset.mem_map.mp hx
    have hk : k ∈ c.latest := Finmap.mem_def.mpr (Multiset.mem_map_of_mem Sigma.fst he)
    obtain ⟨o, t, n, ho, ht, hn, rfl⟩ := hc k hk
    cases type with
    | some t' => unfold latestEntry; split <;> rfl
    | none =>
      have hkey : o ++ "/" ++ t ++ "/" ++ n = o ++ "/" ++ (t ++ "/" ++ n) := by
        simp [String.append_assoc]
      by_cases h : o = org
      · subst h
        simp [latestEntry, latestPrefix, hkey, stripPrefix_name ho ho, splitSlash_append ht,
          splitSlash_of_noSlash hn]
      · simp [latestEntry, latestPrefix, hkey, stripPrefix_name ho horg, h]

end Readers

/-- In every catalog a run of feed events reaches, `list_organizations_from_cache` lists exactly
the orgs of the streams with a latest schema. -/
theorem reachable_list_organizations_from_cache {answers : List (Int × Bytes) → Prop} {c : Catalog}
    (h : Loaded answers FeedKey c) (o : String) :
    o ∈ listOrganizationsFromCache c ↔ ∃ t n, o ++ "/" ++ t ++ "/" ++ n ∈ c.latest :=
  listOrganizationsFromCache_of_keysFormed h.keysFormed o

theorem reachable_list_organizations_from_cache_after_put :
    listOrganizationsFromCache appPutCatalog = {"acme"} ∧
    ("acme" ∈ listOrganizationsFromCache appPutCatalog ↔
      ∃ t n, "acme" ++ "/" ++ t ++ "/" ++ n ∈ appPutCatalog.latest) :=
  ⟨by decide, reachable_list_organizations_from_cache appPutCatalog_loaded "acme"⟩

/-- In every catalog a run of feed events reaches, `list_streams_from_cache` returns without
panicking, and lists exactly the names `n` of the streams `org/t/n` with a latest schema whose
type name `t` parses to the type asked for. -/
theorem reachable_list_streams_from_cache {answers : List (Int × Bytes) → Prop} {c : Catalog}
    (h : Loaded answers FeedKey c) (orgId : String) (streamType : StreamType) :
    ∃ names, listStreamsFromCache c orgId streamType = some names ∧
      ∀ n, n ∈ names ↔ ∃ t, StreamType.ofStr t = streamType ∧ orgId ++ "/" ++ t ++ "/" ++ n ∈ c.latest :=
  listStreamsFromCache_of_keysFormed h.keysFormed orgId streamType

theorem reachable_list_streams_from_cache_after_put :
    listStreamsFromCache appPutCatalog "acme" .logs = some {"app"} ∧
    ∃ names, listStreamsFromCache appPutCatalog "acme" .logs = some names ∧
      ∀ n, n ∈ names ↔ ∃ t, StreamType.ofStr t = .logs ∧
        "acme" ++ "/" ++ t ++ "/" ++ n ∈ appPutCatalog.latest :=
  ⟨by decide, reachable_list_streams_from_cache appPutCatalog_loaded "acme" .logs⟩

/-- In every catalog a run of feed events reaches, the first loop of `cache_enrichment_tables`
collects exactly the streams `org/enrichment_tables/name` with a latest schema, each with its
org and name: the text search alone decides, and the type check after it skips none. -/
theorem reachable_enrichment_tables {answers : List (Int × Bytes) → Prop} {c : Catalog}
    (h : Loaded answers FeedKey c) :
    ∃ tables, enrichmentTables c = some tables ∧
      ∀ k o n, (k, o, n) ∈ tables ↔ k ∈ c.latest ∧ k = o ++ "/" ++ "enrichment_tables" ++ "/" ++ n :=
  enrichmentTables_of_keysFormed h.keysFormed

theorem reachable_enrichment_tables_after_put :
    enrichmentTables appPutCatalog = some ∅ ∧
    ∃ tables, enrichmentTables appPutCatalog = some tables ∧
      ∀ k o n, (k, o, n) ∈ tables ↔
        k ∈ appPutCatalog.latest ∧ k = o ++ "/" ++ "enrichment_tables" ++ "/" ++ n :=
  ⟨by decide, reachable_enrichment_tables appPutCatalog_loaded⟩

/-- In every catalog a run of feed events reaches, `list_stream_schemas` returns for every org
without `/`, with or without a stream type. -/
theorem reachable_list_stream_schemas_returns {answers : List (Int × Bytes) → Prop} {c : Catalog}
    (h : Loaded answers FeedKey c) {org : String} (horg : NoSlash org) (type : Option StreamType)
    (fetch : Bool) : (listStreamSchemas c org type fetch).isSome :=
  listStreamSchemas_isSome_of_keysFormed h.keysFormed horg type fetch

theorem reachable_list_stream_schemas_returns_after_put :
    NoSlash "acme" ∧ (listStreamSchemas appPutCatalog "acme" none true).isSome :=
  ⟨by decide, reachable_list_stream_schemas_returns appPutCatalog_loaded (by decide) none true⟩

end SchemaCatalog
