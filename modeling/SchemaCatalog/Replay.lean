import SchemaCatalog.Load

namespace SchemaCatalog

theorem Finmap.insert_of_lookup {α : Type} {s : KeyMap α} {k : String} {a : α}
    (h : s.lookup k = some a) : s.insert k a = s :=
  Finmap.ext_lookup fun x => by
    by_cases hx : x = k
    · subst hx
      rw [Finmap.lookup_insert, h]
    · rw [Finmap.lookup_insert_of_ne _ hx]

namespace Catalog

/-- Publishing what a catalog already publishes for a stream leaves it as it is. -/
theorem publish_of_published {c : Catalog} {k : String} {s : Schema} (fresh : SnowflakeIdGenerator)
    (hl : c.latest.lookup k = some s) (hs : c.settings.lookup k = some (settingsOf s))
    (ha : c.settingsAtomic = c.settings)
    (hg : (settingsOf s).wantsRecordIds → k ∈ c.recordIdGenerators) : c.publish k s fresh = c := by
  have hgen : (c.ensureGenerator k (settingsOf s).wantsRecordIds fresh).recordIdGenerators =
      c.recordIdGenerators := by
    unfold ensureGenerator
    split_ifs with h
    · exact absurd (hg h.1) h.2
    · rfl
  ext1
  · exact publish_schemas c k s fresh
  · rw [publish_latest, Finmap.insert_of_lookup hl]
  · rw [publish_settings, Finmap.insert_of_lookup hs]
  · rw [publish_settingsAtomic, Finmap.insert_of_lookup hs, ha]
  · rw [publish_recordIdGenerators, hgen]

theorem mem_publish_recordIdGenerators (c : Catalog) (k : String) (s : Schema)
    (fresh : SnowflakeIdGenerator) (h : (settingsOf s).wantsRecordIds) :
    k ∈ (c.publish k s fresh).recordIdGenerators := by
  rw [publish_recordIdGenerators]
  unfold ensureGenerator
  split_ifs with hg
  · simp
  · simpa [h] using hg

theorem publish_publish (c : Catalog) (k : String) (s : Schema) (fresh fresh' : SnowflakeIdGenerator) :
    (c.publish k s fresh).publish k s fresh' = c.publish k s fresh :=
  publish_of_published fresh' (by simp) (by simp) (by simp)
    (mem_publish_recordIdGenerators c k s fresh)

theorem publish_setVersions_publish (c : Catalog) (k : String) (s : Schema)
    (fresh fresh' : SnowflakeIdGenerator) (vs : List (Int × Schema)) :
    ((c.publish k s fresh).setVersions k vs).publish k s fresh' = (c.publish k s fresh).setVersions k vs :=
  publish_of_published fresh' (by simp) (by simp) (by simp)
    (mem_publish_recordIdGenerators c k s fresh)

end Catalog

/-- A fetched window that does not decode whole is skipped, or panics after publishing its
newest schema, whatever the catalog. -/
theorem applyVersions_of_not_decodes {k : String} {F : List (Int × Bytes)} (hF : ¬ Decodes F) :
    (∀ c fresh, applyVersions c k fresh F = .done c) ∨
      ∃ s, ∀ c fresh, applyVersions c k fresh F = .panic (c.publish k s fresh) := by
  rcases hl : F.getLast? with _ | ⟨dt, b⟩
  · exact .inl fun _ _ => by simp [applyVersions, hl]
  rcases hb : b.fromSlice with _ | ss
  · exact .inl fun _ _ => by simp [applyVersions, hl, hb]
  rcases hs : ss.getLast? with _ | s
  · exact .inl fun _ _ => by simp [applyVersions, hl, hb, hs]
  rcases hd : decodeVersions F.dropLast with _ | older
  · exact .inr ⟨s, fun _ _ => by simp [applyVersions, hl, hb, hs, hd]⟩
  refine absurd ?_ hF
  rw [← List.dropLast_append_getLast? _ hl]
  refine Decodes.append.mpr ⟨(decodeVersions_isSome_iff _).mp (by simp [hd]), fun x hx => ?_⟩
  obtain rfl := List.mem_singleton.mp hx
  simp [Bytes.current, hb, hs]

/-- With a positive previous start time, the window `ts_range` picks holds every start time from
it up to the clock. -/
theorem inRange_tsRange_of_prev_le {ev p now x : Int} (hp : 0 < p) (hpx : p ≤ x) (hx : x ≤ now) :
    inRange (tsRange ev p now) x := by
  unfold tsRange
  split_ifs <;> simp only [inRange, Bool.and_eq_true, decide_eq_true_eq] <;> omega

/-- The second window lies inside the first, below both clocks, when the second run's previous
start time lies in the first window and the first one's is not negative. -/
theorem inRange_tsRange_mono {ev p p' now now' x : Int} (hp : 0 ≤ p)
    (hp' : inRange (tsRange ev p now) p') (hx : x ≤ now)
    (h : inRange (tsRange ev p' now') x) : inRange (tsRange ev p now) x := by
  unfold tsRange at hp' h ⊢
  split_ifs at hp' h ⊢ <;> simp only [inRange, Bool.and_eq_true, decide_eq_true_eq] at hp' h ⊢ <;> omega

/-- Below both clocks, the window `ts_range` picks does not depend on the clock. -/
theorem inRange_tsRange_clock {ev p now now' x : Int} (hx : x ≤ now) (hx' : x ≤ now') :
    inRange (tsRange ev p now) x = inRange (tsRange ev p now') x := by
  unfold tsRange
  split_ifs <;> simp [inRange, hx, hx']

theorem belowWindow_tsRange {ev p now x : Int} (hx : x ≤ now) :
    belowWindow (tsRange ev p now) x = !inRange (tsRange ev p now) x := by
  unfold tsRange
  split_ifs <;> simp [belowWindow, inRange, hx, ← not_lt]

/-- A list ascending in start time, below the clock, is its part below the window followed by
its part in the window. -/
theorem filter_window_split {l : List (Int × Schema)} {ev p now : Int}
    (hs : l.Pairwise fun a b => a.1 ≤ b.1) (hclock : ∀ e ∈ l, e.1 ≤ now) :
    l.filter (fun e => belowWindow (tsRange ev p now) e.1) ++
      l.filter (fun e => inRange (tsRange ev p now) e.1) = l := by
  rcases hr : tsRange ev p now with _ | ⟨lo, hi⟩
  · simp [belowWindow, inRange]
  obtain rfl := tsRange_hi hr
  have h2 : l.filter (fun e => inRange (some (lo, hi)) e.1) = l.filter fun e => !decide (e.1 < lo) :=
    List.filter_congr fun e he => by simp [inRange, hclock e he, ← not_lt]
  rw [h2]
  exact (sorted_split lo l hs).symm

theorem getLast?_filter_window {l : List (Int × Schema)} {ev p now : Int}
    (hs : l.Pairwise fun a b => a.1 ≤ b.1) (hclock : ∀ e ∈ l, e.1 ≤ now)
    (h : l.filter (fun e => inRange (tsRange ev p now) e.1) ≠ []) :
    (l.filter fun e => inRange (tsRange ev p now) e.1).getLast? = l.getLast? := by
  conv_rhs => rw [← @filter_window_split l ev p now hs hclock]
  rw [List.getLast?_append_of_ne_nil _ h]

theorem get?_prevIndex_append {α : Type} (A N : List α) (h : 2 ≤ N.length ∨ A = []) :
    (A ++ N).get? (prevIndex (A ++ N).length) = N.get? (prevIndex N.length) := by
  rcases h with h | rfl
  · have : prevIndex (A ++ N).length = A.length + (N.length - 2) := by
      simp only [prevIndex, List.length_append]
      split_ifs <;> omega
    rw [this, List.get?_eq_getElem?, List.getElem?_append_right (by omega), prevIndex, if_pos h,
      List.get?_eq_getElem?, Nat.add_sub_cancel_left]
  · rfl

theorem two_le_length_of_mem {a b : Int} {l : List Int} (ha : a ∈ l) (hb : b ∈ l) (hab : a ≠ b) :
    2 ≤ l.length := by
  rcases l with _ | ⟨x, _ | ⟨y, t⟩⟩
  · simp at ha
  · simp only [List.mem_singleton] at ha hb
    exact absurd (ha.trans hb.symm) hab
  · simp

/-- When the versions at and above the previous start time all lie in the fetched window, the
previous start time after the merge is one of the fetched versions. -/
theorem prev_mem_after_merge {L N : List (Int × Schema)} {q : Int → Bool} (hN : N ≠ [])
    (hL : L.Pairwise fun a b => a.1 < b.1)
    (hwin : ∀ x ∈ L.get? (prevIndex L.length), ∀ e ∈ L, x.1 ≤ e.1 →
      q e.1 = false ∧ e.1 ∈ N.map Prod.fst) :
    ∃ e ∈ N, (L.filter (fun e => q e.1) ++ N).get? (prevIndex (L.filter (fun e => q e.1) ++ N).length) =
      some e := by
  have hsplit : 2 ≤ N.length ∨ L.filter (fun e => q e.1) = [] := by
    rcases L.eq_nil_or_concat with rfl | ⟨L₀, y, rfl⟩
    · exact .inr rfl
    rw [List.concat_eq_append] at hL hwin ⊢
    rcases L₀.eq_nil_or_concat with rfl | ⟨L₁, x, rfl⟩
    · exact .inr (by simp [(hwin y rfl y (by simp) le_rfl).1])
    rw [List.concat_eq_append, List.append_assoc, List.singleton_append] at hL hwin ⊢
    have hget : (L₁ ++ [x, y]).get? (prevIndex (L₁ ++ [x, y]).length) = some x := by
      have : prevIndex (L₁ ++ [x, y]).length = L₁.length := by simp [prevIndex]
      rw [this, List.get?_eq_getElem?, List.getElem?_append_right (le_refl _)]
      simp
    have hxy : x.1 < y.1 := by simpa using (List.pairwise_append.mp hL).2.1
    have hx := (hwin x hget x (by simp) le_rfl).2
    have hy := (hwin x hget y (by simp) hxy.le).2
    exact .inl (by simpa using two_le_length_of_mem hx hy hxy.ne)
  rw [get?_prevIndex_append _ _ hsplit]
  have hlt : prevIndex N.length < N.length := by
    have := List.length_pos.mpr hN
    unfold prevIndex
    split_ifs <;> omega
  exact ⟨N.get ⟨_, hlt⟩, List.get_mem _ _ _, List.get?_eq_get hlt⟩

theorem lookup_publish_addVersions (c : Catalog) (k : String) (s : Schema)
    (fresh : SnowflakeIdGenerator) (N : List (Int × Schema)) :
    ((c.publish k s fresh).addVersions k N).schemas.lookup k =
      some (mergeVersions ((c.schemas.lookup k).getD []) N) := by
  rw [Catalog.addVersions_eq]
  cases h : c.schemas.lookup k <;> simp [h, mergeVersions_nil]

theorem Catalog.setVersions_of_lookup {c : Catalog} {k : String} {vs : List (Int × Schema)}
    (h : c.schemas.lookup k = some vs) : c.setVersions k vs = c := by
  ext1
  · exact Finmap.insert_of_lookup h
  all_goals rfl

/-- The cached versions of stream `k` are strictly ascending with start times that are buckets
of `B`, and the start time `prev_start_dt` reads is positive. -/
def CachedAscending (c : Catalog) (k : String) (B : List (Int × Bytes)) : Prop :=
  ∀ L, c.schemas.lookup k = some L → L.Pairwise (fun a b => a.1 < b.1) ∧
    (∀ x ∈ L.get? (prevIndex L.length), 0 < x.1) ∧ ∀ e ∈ L, e.1 ∈ B.map Prod.fst

theorem CachedAscending.getD {c : Catalog} {k : String} {B : List (Int × Bytes)}
    (h : CachedAscending c k B) :
    ((c.schemas.lookup k).getD []).Pairwise (fun a b => a.1 < b.1) ∧
      (∀ x ∈ ((c.schemas.lookup k).getD []).get? (prevIndex ((c.schemas.lookup k).getD []).length),
        0 < x.1) ∧
      ∀ e ∈ (c.schemas.lookup k).getD [], e.1 ∈ B.map Prod.fst := by
  cases hl : c.schemas.lookup k with
  | none => exact ⟨List.Pairwise.nil, fun _ h => (Option.not_mem_none _ h).elim,
      fun _ h => (List.not_mem_nil _ h).elim⟩
  | some L => exact h L hl

theorem CachedAscending.prevStartDt_nonneg {c : Catalog} {k : String} {B : List (Int × Bytes)}
    {p : Int} (h : CachedAscending c k B) (hp : prevStartDt c k = some p) : 0 ≤ p := by
  cases hl : c.schemas.lookup k with
  | none =>
    simp only [prevStartDt, hl, Option.some.injEq] at hp
    omega
  | some L =>
    simp only [prevStartDt, hl, Option.map_eq_some'] at hp
    obtain ⟨x, hx, rfl⟩ := hp
    exact ((h L hl).2.1 x hx).le

/-- `prev_start_dt` reads the start time of the cached version at `prevIndex`. -/
theorem prevStartDt_get? {c : Catalog} {k : String} {p : Int} (hp : prevStartDt c k = some p) :
    ∀ x ∈ ((c.schemas.lookup k).getD []).get? (prevIndex ((c.schemas.lookup k).getD []).length),
      x.1 = p := by
  cases h : c.schemas.lookup k with
  | none => exact fun x hx => (Option.not_mem_none x hx).elim
  | some L =>
    intro x hx
    rw [Option.getD_some, Option.mem_def] at hx
    simpa only [prevStartDt, h, hx, Option.map_some', Option.some.injEq] using hp

/-- A version made from a window of the buckets starts at a bucket in the window. -/
theorem exists_bucket_of_mem_window {B : List (Int × Bytes)} {q : Int → Bool} {e : Int × Schema}
    (he : e ∈ currentVersions (sortByStartDt (B.filter fun b => q b.1))) :
    ∃ b ∈ B, b.1 = e.1 ∧ q e.1 := by
  obtain ⟨b, hb, hbe⟩ := List.mem_map.mp (fst_mem_of_mem_currentVersions_sortByStartDt he)
  obtain ⟨hb, hq⟩ := List.mem_filter.mp hb
  exact ⟨b, hb, hbe, hbe ▸ hq⟩

/-- Sorting the buckets of a window inside a larger one is filtering the sorted larger window. -/
theorem sortByStartDt_filter_of_sub {B : List (Int × Bytes)} {q q' : Int → Bool}
    (hsub : ∀ b ∈ B, q' b.1 → q b.1) :
    sortByStartDt (B.filter fun b => q' b.1) =
      (sortByStartDt (B.filter fun b => q b.1)).filter fun b => q' b.1 := by
  rw [filter_sortByStartDt, List.filter_filter]
  congr 1
  refine List.filter_congr fun b hb => ?_
  cases h : q' b.1 <;> simp [h, hsub b hb]

section Replay

variable {B : List (Int × Bytes)} {now now' : Int} (hclock : ∀ b ∈ B, b.1 ≤ now ∧ b.1 ≤ now')
include hclock

/-- The merged versions absorb a second window inside the first: the versions below the first
window stay, and the fetched ones split at the second window into what stays and what is
fetched again. -/
theorem merge_window_again {L N : List (Int × Schema)} {ev p p' : Int}
    (hdec : Decodes (B.filter fun b => inRange (tsRange ev p now) b.1))
    (hL : ∀ e ∈ L, e.1 ∈ B.map Prod.fst)
    (hN : N = currentVersions (sortByStartDt (B.filter fun b => inRange (tsRange ev p now) b.1)))
    (hcont : ∀ b ∈ B, inRange (tsRange ev p' now') b.1 → inRange (tsRange ev p now) b.1) :
    mergeVersions (L.filter (fun e => belowWindow (tsRange ev p now) e.1) ++ N)
        (N.filter fun e => inRange (tsRange ev p' now') e.1) =
      L.filter (fun e => belowWindow (tsRange ev p now) e.1) ++ N := by
  have hNB : ∀ e ∈ N, e.1 ∈ B.map Prod.fst := fun e he =>
    ((List.filter_sublist B).map Prod.fst).subset (fst_mem_of_mem_currentVersions_sortByStartDt (hN ▸ he))
  have hclock' : ∀ x ∈ B.map Prod.fst, x ≤ now ∧ x ≤ now' := fun x hx => by
    obtain ⟨b, hb, rfl⟩ := List.mem_map.mp hx
    exact hclock b hb
  have hsub : ∀ b ∈ B.filter (fun b => inRange (tsRange ev p' now') b.1),
      b ∈ B.filter fun b => inRange (tsRange ev p now) b.1 := fun b hb => by
    obtain ⟨hb, hin⟩ := List.mem_filter.mp hb
    exact List.mem_filter.mpr ⟨hb, hcont b hb hin⟩
  have hN' : currentVersions (sortByStartDt (B.filter fun b => inRange (tsRange ev p' now') b.1)) =
      N.filter fun e => inRange (tsRange ev p' now') e.1 := by
    rw [hN, currentVersions_filter, ← sortByStartDt_filter_of_sub hcont]
  have hbelow : ∀ e ∈ L, belowWindow (tsRange ev p now) e.1 →
      belowWindow (tsRange ev p' now') e.1 := fun e he h => by
    obtain ⟨h1, h2⟩ := hclock' e.1 (hL e he)
    obtain ⟨b, hb, hbe⟩ := List.mem_map.mp (hL e he)
    rw [belowWindow_tsRange h1] at h
    rw [belowWindow_tsRange h2]
    cases h' : inRange (tsRange ev p' now') e.1
    · rfl
    · simp [← hbe, hcont b hb (hbe ▸ h')] at h
  have hNs : N.Pairwise fun a b => a.1 ≤ b.1 := hN ▸ Pairwise.currentVersions (sorted_sortByStartDt _)
  rw [← hN', mergeVersions_window (fun b hb => hdec b (hsub b hb))
      (fun e he => (List.mem_append.mp he).elim (fun h => hL e (List.mem_of_mem_filter h)) (hNB e))
      (fun e he lo hi hr => tsRange_hi hr ▸ (hclock' e.1 ((List.mem_append.mp he).elim
        (fun h => hL e (List.mem_of_mem_filter h)) (hNB e))).2), hN', List.filter_append,
    List.filter_filter, List.append_assoc,
    filter_window_split hNs (fun e he => (hclock' e.1 (hNB e he)).2)]
  congr 1
  refine List.filter_congr fun e he => ?_
  cases h : belowWindow (tsRange ev p now) e.1
  · simp
  · simp [hbelow e he h]

/-- After the first run `prev_start_dt` reads a fetched version: the cached versions at and above
the previous start time lie in the window and are fetched again. -/
theorem prev_mem_fetched {L N : List (Int × Schema)} {ev p : Int}
    (hLs : L.Pairwise fun a b => a.1 < b.1) (hLpos : ∀ x ∈ L.get? (prevIndex L.length), 0 < x.1)
    (hLB : ∀ e ∈ L, e.1 ∈ B.map Prod.fst) (hprev : ∀ x ∈ L.get? (prevIndex L.length), x.1 = p)
    (hdec : Decodes (sortByStartDt (B.filter fun b => inRange (tsRange ev p now) b.1)))
    (hN : N = currentVersions (sortByStartDt (B.filter fun b => inRange (tsRange ev p now) b.1)))
    (hNne : N ≠ []) :
    ∃ e ∈ N, (L.filter (fun e => belowWindow (tsRange ev p now) e.1) ++ N).get?
      (prevIndex (L.filter (fun e => belowWindow (tsRange ev p now) e.1) ++ N).length) = some e := by
  refine prev_mem_after_merge hNne hLs fun x hx e he hxe => ?_
  obtain ⟨b, hb, hbe⟩ := List.mem_map.mp (hLB e he)
  have hnow : e.1 ≤ now := hbe ▸ (hclock b hb).1
  have hin : inRange (tsRange ev p now) e.1 :=
    inRange_tsRange_of_prev_le (hprev x hx ▸ hLpos x hx) (hprev x hx ▸ hxe) hnow
  refine ⟨by rw [belowWindow_tsRange hnow, hin]; rfl, ?_⟩
  rw [hN, starts_currentVersions hdec, ((sortByStartDt_perm _).map Prod.fst).mem_iff, ← hbe]
  exact List.mem_map_of_mem _ (List.mem_filter.mpr ⟨hb, hbe ▸ hin⟩)

end Replay

/-- Idempotence of a replayed Put at one input, under the hypotheses on the key, the cached
start times, distinct buckets and the clock alone. -/
def ReplayAt (S : Store) (c : Catalog) (k key : String) (startDt : Option Int) (now now' : Int) : Prop :=
  stripPrefix (putKey key startDt).1 "/schema/" = some k →
  (∀ e ∈ (c.schemas.lookup k).getD [], e.1 ∈ (S.buckets k).map Prod.fst) →
  ((S.buckets k).map Prod.fst).Nodup →
  (∀ b ∈ S.buckets k, b.1 ≤ now ∧ b.1 ≤ now') →
  (watchPut S.lister now' nodeGenerator (watchPut S.lister now nodeGenerator c key startDt).state
      key startDt).state = (watchPut S.lister now nodeGenerator c key startDt).state

section Reload

variable {o n : String} (ho : NoSlash o) (hn : NoSlash n) (ty : StreamType)
include ho hn

/-- A Delete event for a stream's key clears the stream. -/
theorem watchDelete_streamKey (localDisk : Bool) (dataWalDir : String) (c : Catalog) :
    (watchDelete localDisk dataWalDir c ("/schema/" ++ streamKey o ty n)).state.1 =
      c.removeStream (streamKey o ty n) := by
  simp [watchDelete, streamKey, splitSlash_three ho ty.asStr_noSlash hn]

/-- A Put event for a stream's key without a start time names the stream and starts at `0`. -/
theorem putKey_streamKey : putKey ("/schema/" ++ streamKey o ty n) none = ("/schema/" ++ streamKey o ty n, 0) := by
  simp [putKey, streamKey, splitSlash_schema, splitSlash_three ho ty.asStr_noSlash hn]

/-- Whatever the catalog holds for a stream `o/type/n`,
torn or stale, a Delete event for its key followed by a Put event for it without a start time
leaves its versions, latest schema and settings as `cache` installs them from the store, when
its buckets decode, and every other stream as it was. -/
theorem delete_put_reloads_stream (S : Store) (hdec : Decodes (S.buckets (streamKey o ty n)))
    (localDisk : Bool) (dataWalDir : String) (now : Int) (fresh fresh' : SnowflakeIdGenerator)
    (c : Catalog) :
    (watchPut S.lister now fresh (watchDelete localDisk dataWalDir c ("/schema/" ++ streamKey o ty n)).state.1
        ("/schema/" ++ streamKey o ty n) none).state.view (streamKey o ty n) =
      (cacheKey fresh' Catalog.empty (streamKey o ty n) (S.buckets (streamKey o ty n))).state.view
        (streamKey o ty n) ∧
    ∀ k', k' ≠ streamKey o ty n →
      (watchPut S.lister now fresh (watchDelete localDisk dataWalDir c ("/schema/" ++ streamKey o ty n)).state.1
        ("/schema/" ++ streamKey o ty n) none).state.view k' = c.view k' := by
  have hkey := congrArg Prod.fst (putKey_streamKey ho hn ty)
  have hprev : prevStartDt (c.removeStream (streamKey o ty n)) (streamKey o ty n) = some 0 :=
    prevStartDt_of_lookup_none (by simp)
  have hall : ∀ B : List (Int × Bytes), B.filter (fun b => inRange none b.1) = B := fun B =>
    List.filter_eq_self.mpr fun _ _ => rfl
  rw [watchDelete_streamKey ho hn ty, watchPut_lister hkey hprev, putKey_streamKey ho hn ty]
  simp only [tsRange, and_self, if_true, hall]
  refine ⟨?_, fun k' hk' => by rw [view_applyVersions_ne hk', view_removeStream_ne hk']⟩
  rw [view_applyVersions (hdec.perm (sortByStartDt_perm _)) (view_removeStream _ _),
    mergeVersions_nil, view_cacheKey_empty hdec]

end Reload

/-- A Put that panicked after publishing left `acme/logs/app` with a latest schema and no
versions; its Delete and a Put reload both versions of `appStore`. -/
theorem delete_put_reloads_stream_torn :
    NoSlash "acme" ∧ NoSlash "app" ∧ Decodes (appStore.buckets (streamKey "acme" .logs "app")) ∧
    ((watchPut appStore.lister 1000 nodeGenerator
        (watchDelete false "/data/" (Catalog.empty.publish "acme/logs/app" appV1 nodeGenerator)
          ("/schema/" ++ streamKey "acme" .logs "app")).state.1
        ("/schema/" ++ streamKey "acme" .logs "app") none).state.view (streamKey "acme" .logs "app") =
      (cacheKey nodeGenerator Catalog.empty (streamKey "acme" .logs "app")
        (appStore.buckets (streamKey "acme" .logs "app"))).state.view (streamKey "acme" .logs "app") ∧
    ∀ k', k' ≠ streamKey "acme" .logs "app" →
      (watchPut appStore.lister 1000 nodeGenerator
        (watchDelete false "/data/" (Catalog.empty.publish "acme/logs/app" appV1 nodeGenerator)
          ("/schema/" ++ streamKey "acme" .logs "app")).state.1
        ("/schema/" ++ streamKey "acme" .logs "app") none).state.view k' =
        (Catalog.empty.publish "acme/logs/app" appV1 nodeGenerator).view k') :=
  ⟨by decide, by decide, by decide, delete_put_reloads_stream (by decide) (by decide) .logs appStore
    (by decide) false "/data/" 1000 nodeGenerator nodeGenerator _⟩

end SchemaCatalog
