import SchemaCatalog.Cache

namespace SchemaCatalog

/-- Every bucket decodes to a non-empty list of schemas. -/
def Decodes (l : List (Int × Bytes)) : Prop := ∀ b ∈ l, (b.2.current).isSome

instance : DecidablePred Decodes := fun l =>
  inferInstanceAs (Decidable (∀ b ∈ l, (b.2.current).isSome))

/-- The versions buckets stand for, one per bucket that decodes. -/
def currentVersions (l : List (Int × Bytes)) : List (Int × Schema) :=
  l.filterMap fun b => b.2.current.map (b.1, ·)

/-- A stream's versions, latest schema and settings. -/
def Catalog.view (c : Catalog) (k : String) :
    Option (List (Int × Schema)) × Option Schema × Option StreamSettings :=
  (c.schemas.lookup k, c.latest.lookup k, c.settings.lookup k)

/-- The view of a stream installed with versions `vs`: none when there are none, else the
versions, the schema of the last one and its settings. -/
def installedView (vs : List (Int × Schema)) :
    Option (List (Int × Schema)) × Option Schema × Option StreamSettings :=
  match vs.getLast? with
  | none => (none, none, none)
  | some (_, s) => (some vs, some s, some (settingsOf s))

theorem Decodes.append {l l' : List (Int × Bytes)} : Decodes (l ++ l') ↔ Decodes l ∧ Decodes l' :=
  List.forall_mem_append

theorem Decodes.sublist {l l' : List (Int × Bytes)} (h : Decodes l') (hs : l.Sublist l') :
    Decodes l := fun b hb => h b (hs.subset hb)

theorem Decodes.filter {l : List (Int × Bytes)} (h : Decodes l) (p : Int × Bytes → Bool) :
    Decodes (l.filter p) := h.sublist (List.filter_sublist l)

theorem Decodes.perm {l l' : List (Int × Bytes)} (h : Decodes l') (hp : l.Perm l') : Decodes l :=
  fun b hb => h b (hp.subset hb)

theorem decodeVersions_of_decodes {l : List (Int × Bytes)} (h : Decodes l) :
    decodeVersions l = some (currentVersions l) := by
  induction l with
  | nil => rfl
  | cons b l ih =>
    obtain ⟨s, hs⟩ := Option.isSome_iff_exists.mp (h b (List.mem_cons_self b l))
    simp [decodeVersions, currentVersions, hs, ih (fun x hx => h x (List.mem_cons_of_mem b hx))]

theorem currentVersions_append (l l' : List (Int × Bytes)) :
    currentVersions (l ++ l') = currentVersions l ++ currentVersions l' :=
  List.filterMap_append _ _ _

/-- Decoding keeps start times, so a filter on them commutes with it. -/
theorem currentVersions_filter (p : Int → Bool) (l : List (Int × Bytes)) :
    (currentVersions l).filter (fun e => p e.1) = currentVersions (l.filter fun b => p b.1) := by
  induction l with
  | nil => rfl
  | cons b l ih =>
    rcases hb : b.2.current with _ | s <;> by_cases hp : p b.1 <;>
      simp_all [currentVersions, List.filter_cons]

theorem starts_currentVersions {l : List (Int × Bytes)} (h : Decodes l) :
    (currentVersions l).map Prod.fst = l.map Prod.fst := by
  induction l with
  | nil => rfl
  | cons b l ih =>
    obtain ⟨s, hs⟩ := Option.isSome_iff_exists.mp (h b (List.mem_cons_self b l))
    simp [currentVersions, hs, ← ih (fun x hx => h x (List.mem_cons_of_mem b hx))]

theorem length_currentVersions {l : List (Int × Bytes)} (h : Decodes l) :
    (currentVersions l).length = l.length := by
  simpa using congrArg List.length (starts_currentVersions h)

/-- Decoding keeps every order between start times. -/
theorem Pairwise.currentVersions {R : Int → Int → Prop} {l : List (Int × Bytes)}
    (h : l.Pairwise fun a b => R a.1 b.1) :
    (currentVersions l).Pairwise fun a b => R a.1 b.1 :=
  h.filterMap _ fun a a' hr b hb b' hb' => by
    simp only [Option.mem_def, Option.map_eq_some'] at hb hb'
    obtain ⟨_, _, rfl⟩ := hb
    obtain ⟨_, _, rfl⟩ := hb'
    exact hr

theorem currentVersions_getLast? {l : List (Int × Bytes)} {dt : Int} {b : Bytes}
    (h : Decodes l) (hl : l.getLast? = some (dt, b)) :
    ∃ s, b.current = some s ∧ (currentVersions l).getLast? = some (dt, s) := by
  obtain ⟨init, rfl⟩ : ∃ init, l = init ++ [(dt, b)] :=
    ⟨l.dropLast, (List.dropLast_append_getLast? _ hl).symm⟩
  obtain ⟨s, hs⟩ := Option.isSome_iff_exists.mp (h (dt, b) (by simp))
  exact ⟨s, hs, by simp [currentVersions_append, currentVersions, hs]⟩

theorem view_addVersions_publish (c : Catalog) (k : String) (s : Schema)
    (fresh : SnowflakeIdGenerator) (vs : List (Int × Schema)) :
    ((c.publish k s fresh).addVersions k vs).view k =
      (some (match c.schemas.lookup k with
        | some existing => mergeVersions existing vs
        | none => vs), some s, some (settingsOf s)) := by
  cases h : c.schemas.lookup k <;>
    simp [Catalog.view, Catalog.addVersions, Catalog.publish, Catalog.setLatest, Catalog.setSettings, h]

theorem view_setVersions_publish (c : Catalog) (k : String) (s : Schema)
    (fresh : SnowflakeIdGenerator) (vs : List (Int × Schema)) :
    ((c.publish k s fresh).setVersions k vs).view k = (some vs, some s, some (settingsOf s)) := by
  simp [Catalog.view, Catalog.setVersions, Catalog.publish, Catalog.setLatest, Catalog.setSettings]

/-- A Put whose fetched buckets all decode publishes the newest and merges all of them. -/
theorem applyVersions_of_decodes {c : Catalog} {k : String} {fresh : SnowflakeIdGenerator}
    {versions : List (Int × Bytes)} (h : Decodes versions) :
    applyVersions c k fresh versions =
      match (currentVersions versions).getLast? with
      | none => .done c
      | some (_, s) => .done ((c.publish k s fresh).addVersions k (currentVersions versions)) := by
  rcases hl : versions.getLast? with _ | ⟨dt, b⟩
  · have : versions = [] := List.getLast?_eq_none_iff.mp hl
    subst this
    rfl
  · obtain ⟨s, hs, hc⟩ := currentVersions_getLast? h hl
    obtain ⟨init, rfl⟩ : ∃ init, versions = init ++ [(dt, b)] :=
      ⟨versions.dropLast, (List.dropLast_append_getLast? _ hl).symm⟩
    have hi : Decodes init := (Decodes.append.mp h).1
    obtain ⟨ss, hss, hls⟩ : ∃ ss, b.fromSlice = some ss ∧ ss.getLast? = some s := by
      simpa [Bytes.current, Option.bind_eq_some] using hs
    simp only [applyVersions, hl, hss, hls, List.dropLast_concat, decodeVersions_of_decodes hi, hc]
    simp [currentVersions_append, currentVersions, hs]

/-- A bulk-load step on buckets that all decode installs them all, sorted. -/
theorem cacheKey_of_decodes {c : Catalog} {k : String} {fresh : SnowflakeIdGenerator}
    {versions : List (Int × Bytes)} (h : Decodes versions) :
    cacheKey fresh c k versions =
      match (currentVersions (sortByStartDt versions)).getLast? with
      | none => .done c
      | some (_, s) =>
        .done ((c.publish k s fresh).setVersions k (currentVersions (sortByStartDt versions))) := by
  have hsort : Decodes (sortByStartDt versions) := h.perm (sortByStartDt_perm versions)
  rcases hl : (sortByStartDt versions).getLast? with _ | ⟨dt, b⟩
  · have : sortByStartDt versions = [] := List.getLast?_eq_none_iff.mp hl
    simp [cacheKey, this, currentVersions]
  · obtain ⟨s, hs, hc⟩ := currentVersions_getLast? hsort hl
    obtain ⟨ss, hss, hls⟩ : ∃ ss, b.fromSlice = some ss ∧ ss.getLast? = some s := by
      simpa [Bytes.current, Option.bind_eq_some] using hs
    simp only [cacheKey, hl, hss, hls, decodeVersions_of_decodes hsort, hc]

theorem view_cacheKey {c : Catalog} {k : String} {fresh : SnowflakeIdGenerator}
    {versions : List (Int × Bytes)} (h : Decodes versions) :
    (cacheKey fresh c k versions).state.view k =
      if versions = [] then c.view k else installedView (currentVersions (sortByStartDt versions)) := by
  rw [cacheKey_of_decodes h]
  rcases hl : (currentVersions (sortByStartDt versions)).getLast? with _ | ⟨dt, s⟩
  · have hnil : currentVersions (sortByStartDt versions) = [] := List.getLast?_eq_none_iff.mp hl
    have : versions = [] := by
      have := length_currentVersions (h.perm (sortByStartDt_perm versions))
      rw [hnil, (sortByStartDt_perm versions).length_eq] at this
      exact List.length_eq_zero.mp this.symm
    simp [this]
  · have : versions ≠ [] := by
      rintro rfl
      simp [sortByStartDt, currentVersions] at hl
    simp [this, view_setVersions_publish, installedView, hl]

theorem view_cacheKey_empty {k : String} {fresh : SnowflakeIdGenerator}
    {versions : List (Int × Bytes)} (h : Decodes versions) :
    (cacheKey fresh Catalog.empty k versions).state.view k =
      installedView (currentVersions (sortByStartDt versions)) := by
  rw [view_cacheKey h]
  split_ifs with hv
  · subst hv
    rfl
  · rfl

theorem fst_mem_of_mem_currentVersions {l : List (Int × Bytes)} {e : Int × Schema}
    (h : e ∈ currentVersions l) : e.1 ∈ l.map Prod.fst := by
  obtain ⟨b, hb, he⟩ := List.mem_filterMap.mp h
  obtain ⟨s, -, rfl⟩ := Option.map_eq_some'.mp he
  exact List.mem_map_of_mem Prod.fst hb

theorem fst_mem_of_mem_currentVersions_sortByStartDt {l : List (Int × Bytes)} {e : Int × Schema}
    (h : e ∈ currentVersions (sortByStartDt l)) : e.1 ∈ l.map Prod.fst :=
  ((sortByStartDt_perm l).map Prod.fst).subset (fst_mem_of_mem_currentVersions h)

theorem installedView_schemas (L : List (Int × Schema)) :
    (installedView L).1 = if L = [] then none else some L := by
  unfold installedView
  split <;> rename_i h
  · simp [List.getLast?_eq_none_iff.mp h]
  · rename_i dt s
    have : L ≠ [] := fun hL => by simp [hL] at h
    simp [this]

/-- A Put whose window decodes shows the merge of the cached versions with the window. -/
theorem view_applyVersions {c : Catalog} {k : String} {fresh : SnowflakeIdGenerator}
    {F : List (Int × Bytes)} {L : List (Int × Schema)} (hF : Decodes F)
    (hc : c.view k = installedView L) :
    (applyVersions c k fresh F).state.view k = installedView (mergeVersions L (currentVersions F)) := by
  rw [applyVersions_of_decodes hF]
  rcases hl : (currentVersions F).getLast? with _ | ⟨dt, s⟩
  · simp [List.getLast?_eq_none_iff.mp hl, mergeVersions, hc]
  · have hlook : c.schemas.lookup k = if L = [] then none else some L := by
      rw [← installedView_schemas, ← hc]
      rfl
    simp only [Outcome.state_done, view_addVersions_publish, hlook]
    have hlast : (mergeVersions L (currentVersions F)).getLast? = some (dt, s) := by
      simp [mergeVersions, hl]
    split_ifs with hL
    · subst hL
      simp [installedView, mergeVersions, hl]
    · simp [installedView, hlast]

section Frame

variable {c : Catalog} {k k' : String} (h : k' ≠ k)
include h

theorem view_publish_ne (s : Schema) (fresh : SnowflakeIdGenerator) :
    (c.publish k s fresh).view k' = c.view k' := by
  simp [Catalog.view, Catalog.publish, Catalog.setLatest, Catalog.setSettings,
    Finmap.lookup_insert_of_ne _ h]

theorem view_addVersions_ne (vs : List (Int × Schema)) : (c.addVersions k vs).view k' = c.view k' := by
  simp [Catalog.view, Catalog.addVersions, Finmap.lookup_insert_of_ne _ h]

theorem view_setVersions_ne (vs : List (Int × Schema)) : (c.setVersions k vs).view k' = c.view k' := by
  simp [Catalog.view, Catalog.setVersions, Finmap.lookup_insert_of_ne _ h]

theorem view_removeStream_ne : (c.removeStream k).view k' = c.view k' := by
  simp [Catalog.view, Catalog.removeStream, Catalog.eraseVersions, Catalog.eraseLatest,
    Catalog.eraseGenerator, Catalog.eraseSettings, Finmap.lookup_erase_ne h]

theorem view_applyVersions_ne (fresh : SnowflakeIdGenerator) (F : List (Int × Bytes)) :
    (applyVersions c k fresh F).state.view k' = c.view k' := by
  unfold applyVersions
  repeat' split
  all_goals simp [view_publish_ne h, view_addVersions_ne h]

theorem view_cacheKey_ne (fresh : SnowflakeIdGenerator) (B : List (Int × Bytes)) :
    (cacheKey fresh c k B).state.view k' = c.view k' := by
  unfold cacheKey
  repeat' split
  all_goals simp [view_publish_ne h, view_setVersions_ne h]

end Frame

@[simp] theorem view_removeStream (c : Catalog) (k : String) :
    (c.removeStream k).view k = installedView [] := by
  simp [Catalog.view, Catalog.removeStream, Catalog.eraseVersions, Catalog.eraseLatest,
    Catalog.eraseGenerator, Catalog.eraseSettings, installedView]

/-- Whether a cached version stays out of the fetched window: never for the whole listing,
below the window's start otherwise. -/
def belowWindow (r : Option (Int × Int)) (dt : Int) : Bool :=
  match r with
  | none => false
  | some (lo, _) => dt < lo

/-- When every cached start time is a bucket of the store and the store holds nothing past the
clock, the merge keeps exactly the cached versions below the window and appends the fetched. -/
theorem mergeVersions_window {L : List (Int × Schema)} {B : List (Int × Bytes)}
    {r : Option (Int × Int)} (hB : Decodes (B.filter fun b => inRange r b.1))
    (hL : ∀ e ∈ L, e.1 ∈ B.map Prod.fst)
    (hclock : ∀ e ∈ L, ∀ lo hi, r = some (lo, hi) → e.1 ≤ hi) :
    mergeVersions L (currentVersions (sortByStartDt (B.filter fun b => inRange r b.1))) =
      L.filter (fun e => belowWindow r e.1) ++
        currentVersions (sortByStartDt (B.filter fun b => inRange r b.1)) := by
  unfold mergeVersions
  congr 1
  refine List.filter_congr fun e he => ?_
  have hmem : e.1 ∈ (currentVersions (sortByStartDt (B.filter fun b => inRange r b.1))).map Prod.fst
      ↔ inRange r e.1 = true := by
    rw [starts_currentVersions (hB.perm (sortByStartDt_perm _)),
      ((sortByStartDt_perm _).map Prod.fst).mem_iff]
    obtain ⟨b, hb, hbe⟩ := List.mem_map.mp (hL e he)
    refine ⟨fun h => ?_, fun h => List.mem_map.mpr ⟨b, List.mem_filter.mpr ⟨hb, hbe ▸ h⟩, hbe⟩⟩
    obtain ⟨x, hx, hxe⟩ := List.mem_map.mp h
    exact hxe ▸ (List.mem_filter.mp hx).2
  have hbelow : belowWindow r e.1 = !inRange r e.1 := by
    rcases r with _ | ⟨lo, hi⟩
    · rfl
    · simp [belowWindow, inRange, hclock e he lo hi rfl, ← not_le]
  rw [hbelow, Bool.eq_iff_iff, List.all_eq_true, Bool.not_eq_true', ← Bool.not_eq_true, ← hmem]
  simp only [bne_iff_ne, ne_eq, List.mem_map, not_exists, not_and]

end SchemaCatalog
