import SchemaCatalog.Refinement

namespace SchemaCatalog

/-- The catalog, the store it mirrors, and the streams the store dropped buckets of while the
catalog still held them, which must be cleared before their next Put. -/
structure Sys where
  catalog : Catalog
  store : Store
  dropped : List String

/-- The store the runs assume: distinct start times within a stream, every bucket a non-empty
list of schemas. -/
structure Store.Sound (S : Store) : Prop where
  distinct : ∀ k, ((S.buckets k).map Prod.fst).Nodup
  decodes : ∀ k, Decodes (S.buckets k)

/-- One step of a run over a store with distinct start times and decoding buckets, with Put
events for feed keys at a clock no earlier than the store. -/
inductive Step : Sys → Sys → Prop
  /-- The store adds, rewrites or removes buckets; a cached stream that loses one is dropped. -/
  | store {s : Sys} (S' : Store) (lost : List String) (hsound : S'.Sound)
      (hkeep : ∀ k, k ∉ lost → ∀ t ∈ (s.store.buckets k).map Prod.fst,
        t ∈ (S'.buckets k).map Prod.fst) :
      Step s ⟨s.catalog, S', lost.filter (· ∈ s.catalog.schemas) ++ s.dropped⟩
  /-- A Put event for a feed key, at a clock no earlier than any bucket, for a stream not
  awaiting clearing. -/
  | put {s : Sys} (key : String) (startDt : Option Int) (now : Int) (fresh : SnowflakeIdGenerator)
      (hkey : FeedKey key) (hclock : ∀ k, ∀ b ∈ s.store.buckets k, b.1 ≤ now)
      (hfresh : ∀ k, stripPrefix (putKey key startDt).1 "/schema/" = some k → k ∉ s.dropped) :
      Step s ⟨(watchPut s.store.lister now fresh s.catalog key startDt).state, s.store, s.dropped⟩
  | delete {s : Sys} (localDisk : Bool) (dataWalDir key : String) :
      Step s ⟨(watchDelete localDisk dataWalDir s.catalog key).state.1, s.store,
        s.dropped.filter (· ∈ (watchDelete localDisk dataWalDir s.catalog key).state.1.schemas)⟩
  | streamDelete {s : Sys} (retentionOk offsetOk : Bool) (org : String) (type : StreamType)
      (name : String) :
      Step s ⟨(streamDeleteInner retentionOk offsetOk s.catalog org type name).state, s.store,
        s.dropped.filter
          (· ∈ (streamDeleteInner retentionOk offsetOk s.catalog org type name).state.schemas)⟩

/-- The states a run reaches from `cache` over a sound store, in any key order. -/
inductive Reachable : Sys → Prop
  | init (fresh : SnowflakeIdGenerator) (order : List String) (S : Store) (h : S.Sound) :
      Reachable ⟨(cache fresh order S Catalog.empty).state, S, []⟩
  | step {s s' : Sys} : Reachable s → Step s s' → Reachable s'

/-- Stream `k` shows the version list `L` as installed, strictly ascending in start time. -/
def Shows (c : Catalog) (k : String) (L : List (Int × Schema)) : Prop :=
  c.view k = installedView L ∧ L.Pairwise fun a b => a.1 < b.1

/-- The run invariant: a sound store, and every stream showing a strictly ascending list drawn
from the store's buckets unless the stream awaits clearing. -/
structure Sys.Inv (s : Sys) : Prop where
  sound : s.store.Sound
  shows : ∀ k, ∃ L, Shows s.catalog k L ∧
    (k ∉ s.dropped → ∀ e ∈ L, e.1 ∈ (s.store.buckets k).map Prod.fst)

theorem Shows.lookup_none {c : Catalog} {k : String} {L : List (Int × Schema)} (h : Shows c k L)
    (hk : k ∉ c.schemas) : L = [] := by
  have h1 : c.schemas.lookup k = (installedView L).1 := congrArg Prod.fst h.1
  rw [Finmap.lookup_eq_none.mpr hk, installedView_schemas] at h1
  by_contra hL
  simp [hL] at h1

theorem Shows.lookup {c : Catalog} {k : String} {L : List (Int × Schema)} (h : Shows c k L) :
    c.schemas.lookup k = if L = [] then none else some L := by
  rw [← installedView_schemas, ← h.1]
  rfl

/-- Buckets with distinct start times, once sorted, are strictly ascending. -/
theorem strict_sortByStartDt {B : List (Int × Bytes)} (h : (B.map Prod.fst).Nodup) :
    (sortByStartDt B).Pairwise fun a b => a.1 < b.1 := by
  have hne : (sortByStartDt B).Pairwise fun a b => a.1 ≠ b.1 :=
    List.pairwise_map.mp (((sortByStartDt_perm B).map Prod.fst).nodup_iff.mpr h)
  exact ((sorted_sortByStartDt B).and hne).imp fun h => lt_of_le_of_ne h.1 h.2

/-- The merge of a window into a strictly ascending list below it stays strictly ascending. -/
theorem strict_window {L : List (Int × Schema)} {B : List (Int × Bytes)} {r : Option (Int × Int)}
    (hL : L.Pairwise fun a b => a.1 < b.1) (hB : (B.map Prod.fst).Nodup) :
    (L.filter (fun e => belowWindow r e.1) ++
      currentVersions (sortByStartDt (B.filter fun b => inRange r b.1))).Pairwise
      fun a b => a.1 < b.1 := by
  refine List.pairwise_append.mpr ⟨List.Pairwise.sublist (List.filter_sublist L) hL,
    Pairwise.currentVersions (strict_sortByStartDt ((List.filter_sublist B).map Prod.fst |>.nodup hB)),
    fun a ha b hb => ?_⟩
  obtain ⟨x, hx, hxb⟩ := List.mem_map.mp (fst_mem_of_mem_currentVersions_sortByStartDt hb)
  have hin := (List.mem_filter.mp hx).2
  have hbelow := (List.mem_filter.mp ha).2
  cases r with
  | none => simp [belowWindow] at hbelow
  | some p =>
    simp only [belowWindow, inRange, decide_eq_true_eq, Bool.and_eq_true] at hbelow hin
    omega

theorem tsRange_hi {ev prev now lo hi : Int} (h : tsRange ev prev now = some (lo, hi)) :
    hi = now := by
  unfold tsRange at h
  split_ifs at h <;> simp_all

/-- A Put against the store either leaves the catalog or applies the window of its stream. -/
theorem watchPut_store_cases (S : Store) (now : Int) (fresh : SnowflakeIdGenerator) (c : Catalog)
    (key : String) (startDt : Option Int) :
    (watchPut S.lister now fresh c key startDt).state = c ∨
    ∃ k prev, stripPrefix (putKey key startDt).1 "/schema/" = some k ∧
      (watchPut S.lister now fresh c key startDt).state =
        (applyVersions c k fresh (sortByStartDt ((S.buckets k).filter fun b =>
          inRange (tsRange (putKey key startDt).2 prev now) b.1))).state := by
  rcases hk : stripPrefix (putKey key startDt).1 "/schema/" with _ | k
  · simp [watchPut, hk]
  · rcases hp : prevStartDt c k with _ | prev
    · simp [watchPut, hk, hp]
    · exact .inr ⟨k, prev, rfl, by
        rw [watchPut_lister (stripPrefix_eq_some.mp hk) hp]⟩

/-- A Put keeps the invariant. -/
theorem Sys.Inv.put {s : Sys} (hs : s.Inv) (key : String) (startDt : Option Int) (now : Int)
    (fresh : SnowflakeIdGenerator) (hclock : ∀ k, ∀ b ∈ s.store.buckets k, b.1 ≤ now)
    (hfresh : ∀ k, stripPrefix (putKey key startDt).1 "/schema/" = some k → k ∉ s.dropped) :
    Sys.Inv ⟨(watchPut s.store.lister now fresh s.catalog key startDt).state, s.store, s.dropped⟩ := by
  refine ⟨hs.sound, fun k' => ?_⟩
  rcases watchPut_store_cases s.store now fresh s.catalog key startDt with he | ⟨k, prev, hk, he⟩
  · rw [he]
    exact hs.shows k'
  rw [he]
  by_cases hkk : k' = k
  · subst hkk
    obtain ⟨L, ⟨hv, hL⟩, hmirror⟩ := hs.shows k'
    have hB := hs.sound.decodes k'
    have hm := hmirror (hfresh k' hk)
    set r := tsRange (putKey key startDt).2 prev now
    have hdecF : Decodes (sortByStartDt ((s.store.buckets k').filter fun b => inRange r b.1)) :=
      (hB.filter _).perm (sortByStartDt_perm _)
    have hLclock : ∀ e ∈ L, ∀ lo hi, r = some (lo, hi) → e.1 ≤ hi := fun e he lo hi hr => by
      obtain ⟨b, hb, hbe⟩ := List.mem_map.mp (hm e he)
      exact tsRange_hi hr ▸ hbe ▸ hclock k' b hb
    refine ⟨_, ⟨view_applyVersions hdecF hv, ?_⟩, fun _ e he => ?_⟩
    · rw [mergeVersions_window (hB.filter _) hm hLclock]
      exact strict_window hL (hs.sound.distinct k')
    · rw [mergeVersions_window (hB.filter _) hm hLclock] at he
      rcases List.mem_append.mp he with he | he
      · exact hm e (List.mem_of_mem_filter he)
      · exact (List.filter_sublist _).map Prod.fst |>.subset (fst_mem_of_mem_currentVersions_sortByStartDt he)
  · obtain ⟨L, hshow, hmirror⟩ := hs.shows k'
    exact ⟨L, ⟨(view_applyVersions_ne hkk _ _).trans hshow.1, hshow.2⟩, hmirror⟩

/-- A step that clears some streams and leaves the others keeps the invariant. -/
theorem Sys.Inv.clear {s : Sys} (hs : s.Inv) {c' : Catalog}
    (hc : ∀ k, c'.view k = s.catalog.view k ∨ c'.view k = installedView []) :
    Sys.Inv ⟨c', s.store, s.dropped.filter (· ∈ c'.schemas)⟩ := by
  refine ⟨hs.sound, fun k => ?_⟩
  rcases hc k with hv | hv
  · obtain ⟨L, hshow, hmirror⟩ := hs.shows k
    have hshow' : Shows c' k L := ⟨hv.trans hshow.1, hshow.2⟩
    refine ⟨L, hshow', fun hk => ?_⟩
    by_cases hd : k ∈ s.dropped
    · have hnot : k ∉ c'.schemas := fun hm => hk (List.mem_filter.mpr ⟨hd, by simpa using hm⟩)
      rw [hshow'.lookup_none hnot]
      exact fun _ h => (List.not_mem_nil _ h).elim
    · exact hmirror hd
  · exact ⟨[], ⟨hv, List.Pairwise.nil⟩, fun _ _ h => (List.not_mem_nil _ h).elim⟩

/-- A Delete event leaves the catalog or removes one stream from it. -/
theorem watchDelete_state (localDisk : Bool) (dataWalDir : String) (c : Catalog) (key : String) :
    (watchDelete localDisk dataWalDir c key).state.1 = c ∨
      ∃ k, (watchDelete localDisk dataWalDir c key).state.1 = c.removeStream k := by
  unfold watchDelete
  repeat' split
  all_goals
    try dsimp only
    try split_ifs
    all_goals first | exact .inl rfl | exact .inr ⟨_, rfl⟩

/-- `stream_delete_inner` clears the same maps as a Delete event, in another order. -/
theorem streamDeleteInner_state (retentionOk offsetOk : Bool) (c : Catalog) (org : String)
    (type : StreamType) (name : String) :
    (streamDeleteInner retentionOk offsetOk c org type name).state =
      if retentionOk then c.removeStream (streamKey org type name) else c := by
  unfold streamDeleteInner
  split_ifs <;> rfl

/-- Removing a stream clears it and leaves the others. -/
theorem view_removeStream_cases (c : Catalog) (k k' : String) :
    (c.removeStream k).view k' = c.view k' ∨ (c.removeStream k).view k' = installedView [] := by
  rcases eq_or_ne k' k with rfl | hk
  · exact .inr (view_removeStream c k')
  · exact .inl (view_removeStream_ne hk)

theorem Sys.Inv.delete {s : Sys} (hs : s.Inv) (localDisk : Bool) (dataWalDir key : String) :
    Sys.Inv ⟨(watchDelete localDisk dataWalDir s.catalog key).state.1, s.store,
      s.dropped.filter (· ∈ (watchDelete localDisk dataWalDir s.catalog key).state.1.schemas)⟩ := by
  apply hs.clear
  intro k'
  rcases watchDelete_state localDisk dataWalDir s.catalog key with he | ⟨k, he⟩ <;> rw [he]
  · exact .inl rfl
  · exact view_removeStream_cases _ k k'

theorem Sys.Inv.streamDelete {s : Sys} (hs : s.Inv) (retentionOk offsetOk : Bool) (org : String)
    (type : StreamType) (name : String) :
    Sys.Inv ⟨(streamDeleteInner retentionOk offsetOk s.catalog org type name).state, s.store,
      s.dropped.filter
        (· ∈ (streamDeleteInner retentionOk offsetOk s.catalog org type name).state.schemas)⟩ :=
  hs.clear fun k' => by
    rw [streamDeleteInner_state]
    split_ifs
    · exact view_removeStream_cases _ _ k'
    · exact .inl rfl

theorem Sys.Inv.store {s : Sys} (hs : s.Inv) (S' : Store) (lost : List String) (hsound : S'.Sound)
    (hkeep : ∀ k, k ∉ lost → ∀ t ∈ (s.store.buckets k).map Prod.fst,
      t ∈ (S'.buckets k).map Prod.fst) :
    Sys.Inv ⟨s.catalog, S', lost.filter (· ∈ s.catalog.schemas) ++ s.dropped⟩ := by
  refine ⟨hsound, fun k => ?_⟩
  obtain ⟨L, hshow, hmirror⟩ := hs.shows k
  refine ⟨L, hshow, fun hk e he => ?_⟩
  simp only [List.mem_append, List.mem_filter, not_or, not_and, decide_eq_true_eq] at hk
  by_cases hc : k ∈ s.catalog.schemas
  · exact hkeep k (fun hl => hk.1 hl hc) _ (hmirror hk.2 e he)
  · exact absurd he (hshow.lookup_none hc ▸ List.not_mem_nil e)

theorem cacheKey_done_of_decodes (fresh : SnowflakeIdGenerator) (c : Catalog) (k : String)
    {versions : List (Int × Bytes)} (h : Decodes versions) : ∃ c', cacheKey fresh c k versions = .done c' := by
  rw [cacheKey_of_decodes h]
  split <;> exact ⟨_, rfl⟩

/-- The bulk load over a sound store installs every stream as its sorted buckets. -/
theorem installAll_shows {S : Store} (hS : S.Sound) (fresh : SnowflakeIdGenerator) :
    ∀ (order : List String) (c : Catalog),
      (∀ k, ∃ L, Shows c k L ∧ ∀ e ∈ L, e.1 ∈ (S.buckets k).map Prod.fst) →
      ∀ k, ∃ L, Shows (installAll fresh S order c).state k L ∧
        ∀ e ∈ L, e.1 ∈ (S.buckets k).map Prod.fst
  | [], c, h => h
  | k :: ks, c, h => by
    obtain ⟨c', hc'⟩ := cacheKey_done_of_decodes fresh c k (hS.decodes k)
    have hstep : ∀ k', ∃ L, Shows c' k' L ∧ ∀ e ∈ L, e.1 ∈ (S.buckets k').map Prod.fst := by
      intro k'
      have hview := congrArg Outcome.state hc'
      rw [Outcome.state_done] at hview
      by_cases hk : k' = k
      · subst hk
        have hv : (cacheKey fresh c k' (S.buckets k')).state.view k' = _ := view_cacheKey (hS.decodes k')
        rw [hview] at hv
        by_cases hB : S.buckets k' = []
        · obtain ⟨L, hshow, hm⟩ := h k'
          rw [if_pos hB] at hv
          exact ⟨L, ⟨hv.trans hshow.1, hshow.2⟩, hm⟩
        · rw [if_neg hB] at hv
          refine ⟨_, ⟨hv, Pairwise.currentVersions (strict_sortByStartDt (hS.distinct k'))⟩,
            fun e he => ?_⟩
          exact fst_mem_of_mem_currentVersions_sortByStartDt he
      · obtain ⟨L, hshow, hm⟩ := h k'
        have hv := @view_cacheKey_ne c k k' hk fresh (S.buckets k)
        rw [hview] at hv
        exact ⟨L, ⟨hv.trans hshow.1, hshow.2⟩, hm⟩
    simp only [installAll, hc']
    exact installAll_shows hS fresh ks c' hstep

theorem Sys.Inv.init (fresh : SnowflakeIdGenerator) (order : List String) {S : Store}
    (h : S.Sound) : Sys.Inv ⟨(cache fresh order S Catalog.empty).state, S, []⟩ := by
  have hempty : ∀ k, ∃ L, Shows Catalog.empty k L ∧ ∀ e ∈ L, e.1 ∈ (S.buckets k).map Prod.fst :=
    fun k => ⟨[], ⟨rfl, List.Pairwise.nil⟩, fun _ h => (List.not_mem_nil _ h).elim⟩
  refine ⟨h, fun k => ?_⟩
  unfold cache
  split_ifs
  · obtain ⟨L, hshow, hm⟩ := installAll_shows h fresh order _ hempty k
    exact ⟨L, hshow, fun _ => hm⟩
  · exact ⟨[], ⟨rfl, List.Pairwise.nil⟩, fun _ _ h => (List.not_mem_nil _ h).elim⟩

theorem Reachable.inv {s : Sys} (h : Reachable s) : s.Inv := by
  induction h with
  | init fresh order S hS => exact Sys.Inv.init fresh order hS
  | step _ hstep ih =>
    cases hstep with
    | store S' lost hsound hkeep => exact ih.store S' lost hsound hkeep
    | put key startDt now fresh _ hclock hfresh => exact ih.put key startDt now fresh hclock hfresh
    | delete localDisk dataWalDir key => exact ih.delete localDisk dataWalDir key
    | streamDelete retentionOk offsetOk org type name => exact ih.streamDelete retentionOk offsetOk org type name

/-- In every reachable state, every cached version list is
non-empty and strictly ascending in start time, and the published latest schema is the schema
of its last entry. -/
theorem reachable_versions_sorted {s : Sys} (h : Reachable s) :
    ∀ k vs, s.catalog.schemas.lookup k = some vs →
      vs ≠ [] ∧ vs.Pairwise (fun a b => a.1 < b.1) ∧
        s.catalog.latest.lookup k = vs.getLast?.map Prod.snd := by
  intro k vs hk
  obtain ⟨L, hshow, -⟩ := h.inv.shows k
  rw [hshow.lookup] at hk
  split_ifs at hk with hL
  obtain rfl := Option.some.inj hk
  refine ⟨hL, hshow.2, ?_⟩
  have hlat : s.catalog.latest.lookup k = (installedView L).2.1 := congrArg (·.2.1) hshow.1
  rw [hlat]
  unfold installedView
  split <;> simp_all

/-- A stream with buckets 100 and 200, the second adding a field. -/
def appStore : Store :=
  [("/schema/acme/logs/app/100", .schemas [appV1]), ("/schema/acme/logs/app/200", .schemas [appV1, appV2])]

theorem appStore_buckets (k : String) :
    appStore.buckets k =
      if "acme/logs/app" = k then [(100, .schemas [appV1]), (200, .schemas [appV1, appV2])] else [] := by
  have h1 : cacheItem "/schema/acme/logs/app/100" = some ("acme/logs/app", 100) := by decide
  have h2 : cacheItem "/schema/acme/logs/app/200" = some ("acme/logs/app", 200) := by decide
  by_cases hk : "acme/logs/app" = k <;> simp [appStore, Store.buckets, h1, h2, hk]

theorem appStore_sound : appStore.Sound where
  distinct k := by rw [appStore_buckets]; split_ifs <;> decide
  decodes k := by rw [appStore_buckets]; split_ifs <;> decide

/-- The versions the bulk load installs for `appStore`. -/
def appVersions : List (Int × Schema) := [(100, appV1), (200, appV2)]

theorem reachable_versions_sorted_after_load :
    (cache nodeGenerator ["acme/logs/app"] appStore Catalog.empty).state.schemas.lookup "acme/logs/app" =
        some appVersions ∧
      (appVersions ≠ [] ∧
        appVersions.Pairwise (fun a b => a.1 < b.1) ∧
        (cache nodeGenerator ["acme/logs/app"] appStore Catalog.empty).state.latest.lookup "acme/logs/app" =
          appVersions.getLast?.map Prod.snd) :=
  ⟨by decide, reachable_versions_sorted (.init nodeGenerator ["acme/logs/app"] appStore appStore_sound)
    "acme/logs/app" appVersions (by decide)⟩

end SchemaCatalog
