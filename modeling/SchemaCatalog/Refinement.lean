import SchemaCatalog.Versions

namespace SchemaCatalog

/-- The lowest start time a Put may have rewritten: the least of the event's start time (left
out when `0`) and the newest cached one (left out when the stream is not cached). -/
def touchFloor (ev : Int) (newest : Option Int) : Option Int :=
  if ev = 0 then newest else some ((newest.map (min ev)).getD ev)

theorem prevStartDt_of_lookup {c : Catalog} {k : String} {vs : List (Int × Schema)}
    (h : c.schemas.lookup k = some vs) (hne : vs ≠ []) :
    ∃ i : Fin vs.length, prevStartDt c k = some (vs.get i).1 := by
  have hpos := List.length_pos.mpr hne
  have hlt : prevIndex vs.length < vs.length := by unfold prevIndex; split <;> omega
  refine ⟨⟨prevIndex vs.length, hlt⟩, ?_⟩
  simp only [prevStartDt, h, List.get?_eq_get hlt, Option.map_some']

theorem prevStartDt_of_lookup_none {c : Catalog} {k : String} (h : c.schemas.lookup k = none) :
    prevStartDt c k = some 0 := by
  simp [prevStartDt, h]

/-- The window a Put fetches ends at the clock and starts no higher than the lowest bucket it
may have touched, provided the previous start time is positive for a cached stream. -/
theorem tsRange_le_floor {ev prev now w hi : Int} {newest : Option Int}
    (hnone : newest = none → prev = 0) (hsome : ∀ l, newest = some l → 0 < prev ∧ prev ≤ l)
    (h : tsRange ev prev now = some (w, hi)) :
    hi = now ∧ ∃ θ, touchFloor ev newest = some θ ∧ w ≤ θ := by
  unfold tsRange at h
  cases newest with
  | none =>
    have hp := hnone rfl
    subst hp
    by_cases hev : ev = 0
    · simp [hev] at h
    · simp only [hev, and_true, if_false, false_or, lt_irrefl, false_and] at h
      obtain ⟨rfl, rfl⟩ := Prod.mk.inj (Option.some.inj h)
      exact ⟨rfl, ev, by simp [touchFloor, hev]⟩
  | some l =>
    obtain ⟨hp, hpl⟩ := hsome l rfl
    split_ifs at h with h1 h2
    · obtain ⟨rfl, rfl⟩ := Prod.mk.inj (Option.some.inj h)
      refine ⟨rfl, ?_⟩
      by_cases hev : ev = 0
      · exact ⟨l, by simp [touchFloor, hev], hpl⟩
      · exact ⟨min ev l, by simp [touchFloor, hev], le_min (by omega) hpl⟩
    · obtain ⟨rfl, rfl⟩ := Prod.mk.inj (Option.some.inj h)
      have hev : ev ≠ 0 := fun he => h2 (Or.inl he)
      exact ⟨rfl, min ev l, by simp [touchFloor, hev], le_min le_rfl (by omega)⟩

/-- With every bucket in the store no later than the clock, the window `[w, now]` is the part
at or above `w`. -/
theorem filter_inRange_window {B : List (Int × Bytes)} {w now : Int}
    (hclock : ∀ b ∈ B, b.1 ≤ now) :
    B.filter (fun b => inRange (some (w, now)) b.1) = B.filter fun b => !decide (b.1 < w) := by
  apply List.filter_congr
  intro b hb
  have := hclock b hb
  by_cases hw : b.1 < w <;> simp [inRange, hw, this, not_lt.mp]

/-- Merging a window refetch into versions that agree with the new store below the window
gives the versions of the whole new store. -/
theorem merge_window_eq {L : List (Int × Schema)} {B' : List (Int × Bytes)} {w now : Int}
    (hB' : Decodes B') (hL : ∀ e ∈ L, e.1 ∈ B'.map Prod.fst) (hclock : ∀ b ∈ B', b.1 ≤ now)
    (hbelow : L.filter (fun e => decide (e.1 < w)) =
      currentVersions (sortByStartDt (B'.filter fun b => decide (b.1 < w)))) :
    mergeVersions L (currentVersions (sortByStartDt (B'.filter fun b => inRange (some (w, now)) b.1))) =
      currentVersions (sortByStartDt B') := by
  have hLclock : ∀ e ∈ L, ∀ lo hi, some (w, now) = some (lo, hi) → e.1 ≤ hi := by
    intro e he lo hi h
    obtain ⟨-, rfl⟩ := Prod.mk.inj (Option.some.inj h)
    obtain ⟨b, hb, hbe⟩ := List.mem_map.mp (hL e he)
    exact hbe ▸ hclock b hb
  rw [mergeVersions_window (hB'.filter _) hL hLclock, filter_inRange_window hclock,
    sortByStartDt_split w B', currentVersions_append]
  congr 1

/-- Merging the whole listing into versions drawn from the store's buckets gives the listing. -/
theorem merge_whole_eq {L : List (Int × Schema)} {B' : List (Int × Bytes)}
    (hB' : Decodes B') (hL : ∀ e ∈ L, e.1 ∈ B'.map Prod.fst) :
    mergeVersions L (currentVersions (sortByStartDt (B'.filter fun b => inRange none b.1))) =
      currentVersions (sortByStartDt B') := by
  rw [mergeVersions_window (hB'.filter _) hL (by simp)]
  simp [belowWindow, inRange]

theorem mergeVersions_nil (new : List (Int × Schema)) : mergeVersions [] new = new := rfl

theorem mergeVersions_nil_right (L : List (Int × Schema)) : mergeVersions L [] = L := by
  simp [mergeVersions]

/-- The Put branch for a key naming `k` lists `k`'s buckets in the window `ts_range` picks. -/
theorem watchPut_lister {S : Store} {now : Int} {fresh : SnowflakeIdGenerator} {c : Catalog}
    {key k : String} {startDt : Option Int} {prev : Int}
    (hkey : (putKey key startDt).1 = "/schema/" ++ k) (hprev : prevStartDt c k = some prev) :
    watchPut S.lister now fresh c key startDt = applyVersions c k fresh
      (sortByStartDt ((S.buckets k).filter fun b =>
        inRange (tsRange (putKey key startDt).2 prev now) b.1)) := by
  simp only [watchPut, hkey, stripPrefix_append, hprev, Store.lister, listValuesByStartDt_stream]

/-- The versions a Put reconstructs from a window of the new store equal the bulk load's, when
the cached versions are the bulk load's of the old store and the two stores agree below the
window. -/
theorem merge_refetch_eq {B B' : List (Int × Bytes)} {r : Option (Int × Int)} {now : Int}
    (hB' : Decodes B') (hkeep : ∀ s ∈ B.map Prod.fst, s ∈ B'.map Prod.fst)
    (hclock : ∀ b ∈ B', b.1 ≤ now)
    (hwin : ∀ w hi, r = some (w, hi) → hi = now ∧
      B.filter (fun b => decide (b.1 < w)) = B'.filter fun b => decide (b.1 < w)) :
    mergeVersions (currentVersions (sortByStartDt B))
        (currentVersions (sortByStartDt (B'.filter fun b => inRange r b.1))) =
      currentVersions (sortByStartDt B') := by
  have hL : ∀ e ∈ currentVersions (sortByStartDt B), e.1 ∈ B'.map Prod.fst := fun e he =>
    hkeep _ (fst_mem_of_mem_currentVersions_sortByStartDt he)
  cases r with
  | none => exact merge_whole_eq hB' hL
  | some p =>
    obtain ⟨w, hi⟩ := p
    obtain ⟨rfl, hf⟩ := hwin w hi rfl
    refine merge_window_eq hB' hL hclock ?_
    rw [currentVersions_filter (fun x => decide (x < w)), filter_sortByStartDt, hf]

/-- A stream's first schema, and a later one that adds a field and turns on
`store_original_data`. -/
def appV1 : Schema := ⟨[⟨"msg", .utf8⟩], []⟩

def appV2 : Schema :=
  ⟨[⟨"msg", .utf8⟩, ⟨"code", .int64⟩], [("settings", .settingsJson { storeOriginalData := true })]⟩

def nodeGenerator : SnowflakeIdGenerator := ⟨1, 0⟩

/-- Refinement of the bulk load by a Put at one input, under the hypotheses on the key, the
cache, the kept buckets and the decoding of the new store alone. -/
def RefinesAt (S S' : Store) (k key : String) (startDt : Option Int) (now : Int)
    (fresh : SnowflakeIdGenerator) (c : Catalog) : Prop :=
  (putKey key startDt).1 = "/schema/" ++ k →
  c.view k = (cacheKey fresh Catalog.empty k (S.buckets k)).state.view k →
  (∀ s ∈ (S.buckets k).map Prod.fst, s ∈ (S'.buckets k).map Prod.fst) →
  (∀ θ ∈ touchFloor (putKey key startDt).2 (((c.schemas.lookup k).bind List.getLast?).map Prod.fst),
    (S.buckets k).filter (fun b => decide (b.1 < θ)) = (S'.buckets k).filter fun b => decide (b.1 < θ)) →
  Decodes (S'.buckets k) →
  (watchPut S'.lister now fresh c key startDt).state.view k =
    (cacheKey fresh Catalog.empty k (S'.buckets k)).state.view k

end SchemaCatalog
