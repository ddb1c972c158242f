import SchemaCatalog.Coherence

namespace SchemaCatalog

/-- A stream the bulk load installs without a panic or an `Err`: its newest payload parses,
and unless that payload is an empty list, every payload decodes to a non-empty list. -/
def LoadsCleanly (B : List (Int × Bytes)) : Prop :=
  ∀ dt b, (sortByStartDt B).getLast? = some (dt, b) → ∃ ss, b.fromSlice = some ss ∧ (ss ≠ [] → Decodes B)

theorem decodeVersions_isSome_iff (l : List (Int × Bytes)) : (decodeVersions l).isSome ↔ Decodes l := by
  induction l with
  | nil => simp [decodeVersions, Decodes]
  | cons b l ih =>
    obtain ⟨dt, x⟩ := b
    rcases hx : x.current with _ | s
    · simp only [decodeVersions, hx, Option.none_bind, Option.isSome_none, Bool.false_eq_true, Decodes,
        List.mem_cons, forall_eq_or_imp, false_and]
    · simp only [decodeVersions, hx, Option.some_bind, Option.isSome_map', ih, Decodes, List.mem_cons,
        forall_eq_or_imp, Option.isSome_some, true_and]

theorem cacheKey_done_iff (fresh : SnowflakeIdGenerator) (c : Catalog) (k : String)
    (B : List (Int × Bytes)) : (∃ d, cacheKey fresh c k B = .done d) ↔ LoadsCleanly B := by
  have hsort : Decodes (sortByStartDt B) ↔ Decodes B :=
    ⟨fun h => h.perm (sortByStartDt_perm B).symm, fun h => h.perm (sortByStartDt_perm B)⟩
  unfold cacheKey LoadsCleanly
  rcases hl : (sortByStartDt B).getLast? with _ | ⟨dt, b⟩
  · simp only [Outcome.done.injEq, exists_eq', reduceCtorEq, false_implies, implies_true]
  rcases hb : b.fromSlice with _ | ss
  · simp only [hb, reduceCtorEq, exists_false, Option.some.injEq, Prod.mk.injEq, and_imp,
      forall_apply_eq_imp_iff, false_and, imp_false, forall_eq']
  rcases hs : ss.getLast? with _ | s
  · simp only [hb, List.getLast?_eq_none_iff.mp hs, List.getLast?_nil, Outcome.done.injEq, exists_eq',
      Option.some.injEq, Prod.mk.injEq, ne_eq, and_imp, forall_apply_eq_imp_iff, List.nil_eq,
      exists_eq_left, not_true_eq_false, false_implies, implies_true]
  have hss : ss ≠ [] := fun h => by simp only [h, List.getLast?_nil, reduceCtorEq] at hs
  rcases hd : decodeVersions (sortByStartDt B) with _ | vs
  · have : ¬ Decodes B := fun h => by
      simpa only [hd, Option.isSome_none, Bool.false_eq_true] using
        (decodeVersions_isSome_iff _).mpr (hsort.mpr h)
    simp only [hb, hs, reduceCtorEq, exists_false, Option.some.injEq, Prod.mk.injEq, ne_eq, this,
      imp_false, Decidable.not_not, exists_eq_right, and_imp, forall_apply_eq_imp_iff, hss, forall_eq']
  · have : Decodes B := hsort.mp ((decodeVersions_isSome_iff _).mp (by simp only [hd, Option.isSome_some]))
    simp only [hb, hs, Outcome.done.injEq, exists_eq', Option.some.injEq, Prod.mk.injEq, ne_eq, this,
      implies_true, and_true, and_imp, forall_apply_eq_imp_iff]

/-- The load of the streams in `order` completes exactly when each of them loads cleanly. -/
theorem installAll_done_iff (fresh : SnowflakeIdGenerator) (S : Store) :
    ∀ (order : List String) (c : Catalog),
      (∃ d, installAll fresh S order c = .done d) ↔ ∀ k ∈ order, LoadsCleanly (S.buckets k)
  | [], c => by simp [installAll]
  | k :: ks, c => by
    simp only [installAll, List.mem_cons, forall_eq_or_imp]
    rw [← cacheKey_done_iff fresh c k]
    constructor
    · intro ⟨d, hd⟩
      split at hd
      · rename_i c' hc'
        exact ⟨⟨c', hc'⟩, (installAll_done_iff fresh S ks c').mp ⟨d, hd⟩⟩
      · rename_i hno
        exact (hno d hd).elim
    · rintro ⟨⟨c', hc'⟩, hks⟩
      rw [hc']
      exact (installAll_done_iff fresh S ks c').mpr hks

/-- What the bulk load shows for a stream depends on the stream's buckets and its prior view. -/
theorem view_cacheKey_congr {c c' : Catalog} {k : String} (fresh fresh' : SnowflakeIdGenerator)
    (B : List (Int × Bytes)) (h : c.view k = c'.view k) :
    (cacheKey fresh c k B).state.view k = (cacheKey fresh' c' k B).state.view k := by
  unfold cacheKey
  repeat' split
  all_goals simp_all [Catalog.view]

/-- Loading a stream a second time shows what the first load showed. -/
theorem view_cacheKey_again {c d : Catalog} {k : String} {fresh : SnowflakeIdGenerator}
    {B : List (Int × Bytes)} (fresh' : SnowflakeIdGenerator) (hd : cacheKey fresh c k B = .done d) :
    (cacheKey fresh' d k B).state.view k = d.view k := by
  unfold cacheKey at hd ⊢
  repeat' split at hd
  all_goals first
    | (injection hd with hd; subst hd; simp_all [Catalog.view])
    | simp at hd

/-- After a completed load, a stream shows what loading it alone onto the prior catalog shows,
when it is among the streams loaded. -/
theorem view_installAll {fresh : SnowflakeIdGenerator} {S : Store} (k : String) :
    ∀ {order : List String} {c d : Catalog}, installAll fresh S order c = .done d →
      d.view k = if k ∈ order then (cacheKey fresh c k (S.buckets k)).state.view k else c.view k
  | [], c, d, hd => by
    simp only [installAll, Outcome.done.injEq] at hd
    simp [hd]
  | k' :: ks, c, d, hd => by
    simp only [installAll] at hd
    split at hd
    case h_2 => rename_i h; exact (h d hd).elim
    rename_i c' hc'
    rw [view_installAll k hd]
    by_cases hk : k = k'
    · subst hk
      have h1 : (cacheKey fresh c k (S.buckets k)).state.view k = c'.view k := by rw [hc']; rfl
      rw [if_pos (List.mem_cons_self k ks), h1]
      split_ifs
      · exact view_cacheKey_again fresh hc'
      · rfl
    · have hc : c'.view k = c.view k := by
        rw [← @view_cacheKey_ne c k' k hk fresh (S.buckets k'), hc']; rfl
      simp only [List.mem_cons, hk, false_or]
      split_ifs
      · exact view_cacheKey_congr fresh fresh _ hc
      · exact hc

theorem cacheKey_nil (fresh : SnowflakeIdGenerator) (c : Catalog) (k : String) :
    cacheKey fresh c k [] = .done c := rfl

theorem mem_streamKeys {S : Store} {k : String} : k ∈ S.streamKeys ↔ S.buckets k ≠ [] := by
  simp only [Store.streamKeys, List.mem_dedup, List.mem_filterMap, Option.map_eq_some',
    Store.buckets, ne_eq, List.filterMap_eq_nil_iff, not_forall]
  constructor
  · rintro ⟨e, he, ⟨k', dt⟩, hc, rfl⟩
    exact ⟨e, he, by simp [hc]⟩
  · rintro ⟨e, he, hne⟩
    rcases hc : cacheItem e.1 with _ | ⟨k', dt⟩
    · simp [hc] at hne
    · by_cases hk : k' = k
      · exact ⟨e, he, ⟨k', dt⟩, hc, hk⟩
      · simp [hc, hk] at hne

/-- After a completed load over the streams of the store, each stream shows what loading it
alone shows. -/
theorem view_installAll_streamKeys {fresh : SnowflakeIdGenerator} {S : Store} {order : List String}
    {c d : Catalog} (horder : order.Perm S.streamKeys) (hd : installAll fresh S order c = .done d)
    (k : String) : d.view k = (cacheKey fresh c k (S.buckets k)).state.view k := by
  rw [view_installAll k hd]
  split_ifs with hk
  · rfl
  · have : S.buckets k = [] := by
      by_contra hne
      exact hk (horder.mem_iff.mpr (mem_streamKeys.mpr hne))
    rw [this, cacheKey_nil]
    rfl

/-- The store without the streams `p` rejects: a key stays when it names a stream `p` keeps. -/
def Store.onlyStreams (p : String → Bool) (S : Store) : Store :=
  S.filter fun e => ((cacheItem e.1).map fun i => p i.1).getD false

/-- The streams all of whose payloads parse. -/
def Store.parses (S : Store) (k : String) : Bool := (S.buckets k).all fun b => (b.2.fromSlice).isSome

theorem buckets_onlyStreams (p : String → Bool) (S : Store) (k : String) :
    (S.onlyStreams p).buckets k = if p k then S.buckets k else [] := by
  induction S with
  | nil => simp [Store.onlyStreams, Store.buckets]
  | cons e S ih =>
    simp only [Store.onlyStreams, Store.buckets] at ih ⊢
    rcases hc : cacheItem e.1 with _ | ⟨k', dt⟩
    · simpa [List.filter_cons, hc] using ih
    · by_cases hk : k' = k
      · subst hk
        by_cases hp : p k' <;> simp [List.filter_cons, hc, hp, ih]
      · by_cases hp : p k' <;> simp [List.filter_cons, hc, hp, hk, ih]

theorem cache_done_iff (fresh : SnowflakeIdGenerator) {S : Store} {order : List String} (c : Catalog)
    (horder : order.Perm S.streamKeys) :
    (∃ d, cache fresh order S c = .done d) ↔
      (∀ e ∈ S, (cacheItem e.1).isSome) ∧ ∀ k ∈ S.streamKeys, LoadsCleanly (S.buckets k) := by
  unfold cache
  split_ifs with hall
  · rw [installAll_done_iff]
    simp only [List.all_eq_true] at hall
    exact ⟨fun h => ⟨hall, fun k hk => h k (horder.mem_iff.mpr hk)⟩,
      fun h k hk => h.2 k (horder.mem_iff.mp hk)⟩
  · simp only [List.all_eq_true] at hall
    exact ⟨fun ⟨_, h⟩ => h.elim, fun h => absurd h.1 hall⟩

theorem cache_malformed_key {fresh : SnowflakeIdGenerator} {S : Store} {order : List String}
    (c : Catalog) (h : ∃ e ∈ S, cacheItem e.1 = none) : cache fresh order S c = .panic c := by
  obtain ⟨e, he, hc⟩ := h
  have : ¬ S.all (fun e => (cacheItem e.1).isSome) := by
    simp only [List.all_eq_true, not_forall]
    exact ⟨e, he, by simp [hc]⟩
  simp [cache, this]

/-- `appStore` beside a stream whose older payload does not parse and whose newest is an empty
list, which the bulk load skips without reading the older one. -/
def skippedStreamStore : Store :=
  ("/schema/acme/logs/bad/100", .invalid) :: ("/schema/acme/logs/bad/200", .schemas []) :: appStore

/-- `appStore` with a key whose start time does not parse, and with a stream whose newest
payload does not parse. -/
def badKeyStore : Store := appStore ++ [("/schema/acme/logs/bad/x", .schemas [appV1])]

def badPayloadStore : Store := ("/schema/acme/logs/bad/100", .invalid) :: appStore

/-- What a completed load of one stream does depends on its buckets alone: onto any catalog it
installs nothing, or publishes the same schema and installs the same versions. -/
theorem cacheKey_done_cases {fresh : SnowflakeIdGenerator} {c d : Catalog} {k : String}
    {B : List (Int × Bytes)} (h : cacheKey fresh c k B = .done d) :
    ∃ F : Catalog → Catalog, (∀ c', cacheKey fresh c' k B = .done (F c')) ∧
      (F = id ∨ ∃ s vs, F = fun c' => (c'.publish k s fresh).setVersions k vs) := by
  unfold cacheKey at h
  split at h
  · exact ⟨id, fun c' => by simp only [cacheKey, *]; rfl, .inl rfl⟩
  split at h
  · cases h
  split at h
  · exact ⟨id, fun c' => by simp only [cacheKey, *]; rfl, .inl rfl⟩
  split at h
  · cases h
  · exact ⟨_, fun c' => by simp only [cacheKey, *]; rfl, .inr ⟨_, _, rfl⟩⟩

theorem ensureGenerator_recordIdGenerators (c : Catalog) (k : String) (w : Bool)
    (f : SnowflakeIdGenerator) :
    (c.ensureGenerator k w f).recordIdGenerators =
      if w ∧ k ∉ c.recordIdGenerators then c.recordIdGenerators.insert k f else c.recordIdGenerators := by
  unfold Catalog.ensureGenerator
  split_ifs <;> rfl

/-- Installing two distinct streams commutes. -/
theorem install_comm (c : Catalog) {k k' : String} (hk : k ≠ k') (s s' : Schema)
    (vs vs' : List (Int × Schema)) (f : SnowflakeIdGenerator) :
    (((c.publish k s f).setVersions k vs).publish k' s' f).setVersions k' vs' =
      (((c.publish k' s' f).setVersions k' vs').publish k s f).setVersions k vs := by
  apply Catalog.ext <;> simp only [Catalog.setVersions_schemas, Catalog.publish_schemas,
    Catalog.setVersions_latest, Catalog.publish_latest, Catalog.setVersions_settings,
    Catalog.publish_settings, Catalog.setVersions_settingsAtomic, Catalog.publish_settingsAtomic,
    Catalog.setVersions_recordIdGenerators, Catalog.publish_recordIdGenerators,
    ensureGenerator_recordIdGenerators, Finmap.insert_insert_of_ne _ hk]
  generalize c.recordIdGenerators = g
  have hins : ∀ {x y : String} (b : SnowflakeIdGenerator), x ≠ y → (x ∈ g.insert y b ↔ x ∈ g) :=
    fun b hxy => by rw [Finmap.mem_insert, or_iff_right hxy]
  by_cases h1 : (settingsOf s).wantsRecordIds = true ∧ k ∉ g <;>
    by_cases h2 : (settingsOf s').wantsRecordIds = true ∧ k' ∉ g
  · simp only [if_pos h1, if_pos h2, hins f hk.symm, hins f hk, Finmap.insert_insert_of_ne _ hk]
  · simp only [if_pos h1, if_neg h2, hins f hk.symm]
  · simp only [if_neg h1, if_pos h2, hins f hk]
  · simp only [if_neg h1, if_neg h2]

/-- Loading two distinct streams one after the other gives the same catalog in either order. -/
theorem cacheKey_comm {fresh : SnowflakeIdGenerator} {c c₁ c₂ d₁ d₂ : Catalog} {k k' : String}
    (hk : k ≠ k') {B B' : List (Int × Bytes)}
    (h₁ : cacheKey fresh c k B = .done c₁) (h₂ : cacheKey fresh c₁ k' B' = .done d₁)
    (h₃ : cacheKey fresh c k' B' = .done c₂) (h₄ : cacheKey fresh c₂ k B = .done d₂) : d₁ = d₂ := by
  obtain ⟨F, hF, hF'⟩ := cacheKey_done_cases h₁
  obtain ⟨G, hG, hG'⟩ := cacheKey_done_cases h₃
  rw [hF] at h₁ h₄
  rw [hG] at h₂ h₃
  cases h₁
  cases h₃
  cases h₂
  cases h₄
  rcases hF' with rfl | ⟨s, vs, rfl⟩ <;> rcases hG' with rfl | ⟨s', vs', rfl⟩
  · rfl
  · rfl
  · rfl
  · exact (install_comm c hk s s' vs vs' fresh)

theorem installAll_cons_done {fresh : SnowflakeIdGenerator} {S : Store} {k : String}
    {ks : List String} {c d : Catalog} (h : installAll fresh S (k :: ks) c = .done d) :
    ∃ c', cacheKey fresh c k (S.buckets k) = .done c' ∧ installAll fresh S ks c' = .done d := by
  simp only [installAll] at h
  split at h
  · exact ⟨_, ‹_›, h⟩
  · rename_i hne
    exact (hne d h).elim

/-- Whenever the loads over two orders of the same streams complete, they install the same
catalog. -/
theorem installAll_perm (fresh : SnowflakeIdGenerator) (S : Store) {l₁ l₂ : List String}
    (hp : l₁.Perm l₂) : ∀ {c d d' : Catalog}, installAll fresh S l₁ c = .done d →
      installAll fresh S l₂ c = .done d' → d = d' := by
  induction hp with
  | nil => exact fun h h' => Outcome.done.inj (h.symm.trans h')
  | cons k _ ih =>
    intro c d d' h h'
    obtain ⟨c₁, hc₁, h⟩ := installAll_cons_done h
    obtain ⟨c₁', hc₁', h'⟩ := installAll_cons_done h'
    obtain rfl := Outcome.done.inj (hc₁.symm.trans hc₁')
    exact ih h h'
  | swap k k' l =>
    intro c d d' h h'
    by_cases hk : k' = k
    · subst hk
      exact Outcome.done.inj (h.symm.trans h')
    obtain ⟨c₁, hc₁, h⟩ := installAll_cons_done h
    obtain ⟨d₁, hd₁, h⟩ := installAll_cons_done h
    obtain ⟨c₂, hc₂, h'⟩ := installAll_cons_done h'
    obtain ⟨d₂, hd₂, h'⟩ := installAll_cons_done h'
    obtain rfl := cacheKey_comm hk hc₁ hd₁ hc₂ hd₂
    exact Outcome.done.inj (h.symm.trans h')
  | trans hp₁ _ ih₁ ih₂ =>
    intro c d d' h h'
    obtain ⟨d'', h''⟩ := (installAll_done_iff fresh S _ c).mpr fun k hk =>
      (installAll_done_iff fresh S _ c).mp ⟨d, h⟩ k (hp₁.mem_iff.mpr hk)
    exact (ih₁ h h'').trans (ih₂ h'' h')

/-- For any two orders in which the grouping
map may yield the streams of the store, `cache` completes under one exactly when it completes
under the other, and then installs the same catalog: the same versions, latest schemas,
settings, settings snapshot and record id generators. -/
theorem cache_order_independent (fresh : SnowflakeIdGenerator) {S : Store}
    {order order' : List String} (horder : order.Perm S.streamKeys)
    (horder' : order'.Perm S.streamKeys) (c : Catalog) :
    ((∃ d, cache fresh order S c = .done d) ↔ ∃ d, cache fresh order' S c = .done d) ∧
      ∀ d d', cache fresh order S c = .done d → cache fresh order' S c = .done d' → d = d' := by
  refine ⟨by rw [cache_done_iff fresh c horder, cache_done_iff fresh c horder'], fun d d' h h' => ?_⟩
  unfold cache at h h'
  split_ifs at h h'
  exact installAll_perm fresh S (horder.trans horder'.symm) h h'

/-- `appStore` with a second stream. -/
def twoStreamStore : Store := appStore ++ [("/schema/acme/traces/web/100", .schemas [appV1])]

theorem cache_order_independent_two_streams :
    ["acme/logs/app", "acme/traces/web"].Perm twoStreamStore.streamKeys ∧
    ["acme/traces/web", "acme/logs/app"].Perm twoStreamStore.streamKeys ∧
    (((∃ d, cache nodeGenerator ["acme/logs/app", "acme/traces/web"] twoStreamStore Catalog.empty = .done d) ↔
        ∃ d, cache nodeGenerator ["acme/traces/web", "acme/logs/app"] twoStreamStore Catalog.empty = .done d) ∧
      ∀ d d', cache nodeGenerator ["acme/logs/app", "acme/traces/web"] twoStreamStore Catalog.empty = .done d →
        cache nodeGenerator ["acme/traces/web", "acme/logs/app"] twoStreamStore Catalog.empty = .done d' →
          d = d') :=
  ⟨by decide, by decide, cache_order_independent nodeGenerator (by decide) (by decide) Catalog.empty⟩

end SchemaCatalog
