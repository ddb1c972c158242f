import SchemaCatalog.Replay

namespace SchemaCatalog

/-- `StreamSchema`, declared outside src/, by the fields `list` fills. -/
structure StreamSchema where
  streamName : String
  streamType : StreamType
  schema : Schema
  deriving DecidableEq, Repr

/-- Modelled from the spec: `db::list(prefix)` (outside src/) returns the entries of the store
whose key starts with the prefix, in the store's order. -/
def Store.list (S : Store) (pfx : String) : Store := S.filter fun e => (stripPrefix e.1 pfx).isSome

/-- `Iterator::max_by_key`: the last element with the greatest key. -/
def maxByKey {α : Type} (f : α → Int) (l : List α) : Option α :=
  l.foldl (fun acc x => match acc with
    | none => some x
    | some a => if f a ≤ f x then some x else some a) none

/-- The prefix `list` reads the store under: `/schema/{org_id}/` or `/schema/{org_id}/{stream_type}/`. -/
def listKey (org : String) : Option StreamType → String
  | none => "/schema/" ++ org ++ "/"
  | some t => "/schema/" ++ org ++ "/" ++ t.asStr ++ "/"

/-- The loop body of the store path for one key: its stream name, stream type, payload and
start time; `none` where `strip_prefix(..).unwrap()`, the `assert_eq!` or `parse().unwrap()`
panics. -/
def listItem (dbKey : String) (type : Option StreamType) (e : String × Bytes) :
    Option ((String × StreamType) × (Bytes × Int)) :=
  match stripPrefix e.1 dbKey with
  | none => none
  | some key =>
    match type with
    | some t =>
      match (splitSlash key).take 2 with
      | [c0, c1] => (parseI64 c1).map fun dt => ((c0, t), (e.2, dt))
      | _ => none
    | none =>
      match (splitSlash key).take 3 with
      | [c0, c1, c2] => (parseI64 c2).map fun dt => ((c1, .ofStr c0), (e.2, dt))
      | _ => none

/-- The schema the store path lists for a stream: the last schema of its newest payload
(`Schema::empty()` for an empty list), or the empty schema without `fetch_schema`; `none` where
`from_slice(..).unwrap()` panics. -/
def groupSchema (fetch : Bool) (versions : List (Bytes × Int)) : Option Schema :=
  if fetch then
    (maxByKey (·.2) versions).bind fun v => v.1.fromSlice.map fun ss => ss.getLast?.getD Schema.empty
  else some Schema.empty

/-- The store path of `list`: the keys under the prefix are grouped by stream name and type in
a map, which yields one row per group. A key or a payload that panics makes the whole call
panic (`none`). -/
def listFromStore (S : Store) (org : String) (type : Option StreamType) (fetch : Bool) :
    Option (List StreamSchema) :=
  let items := S.list (listKey org type)
  if items.all fun e => (listItem (listKey org type) type e).isSome then
    let parsed := items.filterMap (listItem (listKey org type) type)
    let groups := (parsed.map Prod.fst).dedup
    let versions := fun g => (parsed.filter fun p => p.1 = g).map Prod.snd
    if groups.all fun g => (groupSchema fetch (versions g)).isSome then
      some (groups.filterMap fun g => (groupSchema fetch (versions g)).map fun s => ⟨g.1, g.2, s⟩)
    else none
  else none

/-- The map path for one entry of `STREAM_SCHEMAS_LATEST`: skipped unless the key starts with
the prefix; without a stream type, the rest is split into type and name under `assert_eq!`. -/
def latestEntry (pfx : String) (type : Option StreamType) (fetch : Bool) (key : String)
    (val : Schema) : Option (Option StreamSchema) :=
  match stripPrefix key pfx with
  | none => some none
  | some rest =>
    match type with
    | some t => some (some ⟨rest, t, if fetch then val else Schema.empty⟩)
    | none =>
      match (splitSlash rest).take 2 with
      | [c0, c1] => some (some ⟨c1, .ofStr c0, if fetch then val else Schema.empty⟩)
      | _ => none

/-- The prefix `list_stream_schemas` matches map keys against. -/
def latestPrefix (org : String) : Option StreamType → String
  | none => org ++ "/"
  | some t => org ++ "/" ++ t.asStr ++ "/"

/-- `list_stream_schemas`: the rows of the map's entries, in the map's order; a multiset, as
that order is the hash map's. -/
def listStreamSchemas (c : Catalog) (org : String) (type : Option StreamType) (fetch : Bool) :
    Option (Multiset StreamSchema) :=
  if c.latest = ∅ then some 0
  else
    let rows := c.latest.entries.map fun e => latestEntry (latestPrefix org type) type fetch e.1 e.2
    if ∀ x ∈ rows, x.isSome then some (rows.filterMap fun x => x.join) else none

/-- `list`: the map path when the latest-schema map holds anything, the store path otherwise. -/
def Catalog.list (c : Catalog) (S : Store) (org : String) (type : Option StreamType) (fetch : Bool) :
    Option (Multiset StreamSchema) :=
  if c.latest = ∅ then (listFromStore S org type fetch).map (↑) else listStreamSchemas c org type fetch

section MaxByKey

variable {α : Type} (f : α → Int)

/-- The elements of `l` whose key is the greatest. -/
def IsMaxIn (l : List α) (y : α) : Prop := ∀ z ∈ l, f z ≤ f y

instance (l : List α) : DecidablePred (IsMaxIn f l) := fun y =>
  inferInstanceAs (Decidable (∀ z ∈ l, f z ≤ f y))

/-- The last of the elements of `l` with the greatest key. -/
def lastMax (l : List α) : Option α := (l.filter fun y => decide (IsMaxIn f l y)).getLast?

/-- An element followed by one with a key at least as great does not decide the last maximum. -/
theorem lastMax_cons_le {a x : α} (l : List α) (h : f a ≤ f x) :
    lastMax f (a :: x :: l) = lastMax f (x :: l) := by
  have hP : (fun y => decide (IsMaxIn f (a :: x :: l) y)) = fun y => decide (IsMaxIn f (x :: l) y) :=
    funext fun y => decide_eq_decide.mpr (by
      simp only [IsMaxIn, List.forall_mem_cons]
      exact ⟨fun h' => ⟨h'.2.1, h'.2.2⟩, fun h' => ⟨h.trans h'.1, h'.1, h'.2⟩⟩)
  unfold lastMax
  rw [hP, List.filter_cons]
  split_ifs with ha
  · have hx : IsMaxIn f (x :: l) x := by
      simp only [decide_eq_true_eq] at ha
      exact fun z hz => (ha z hz).trans h
    simp [List.filter_cons, hx]
  · rfl

/-- An element with a key below an earlier one is never the last maximum. -/
theorem lastMax_cons_lt {a x : α} (l : List α) (h : f x < f a) :
    lastMax f (a :: x :: l) = lastMax f (a :: l) := by
  have hP : (fun y => decide (IsMaxIn f (a :: x :: l) y)) = fun y => decide (IsMaxIn f (a :: l) y) :=
    funext fun y => decide_eq_decide.mpr (by
      simp only [IsMaxIn, List.forall_mem_cons]
      exact ⟨fun h' => ⟨h'.1, h'.2.2⟩, fun h' => ⟨h'.1, by omega, h'.2⟩⟩)
  have hx : decide (IsMaxIn f (a :: l) x) = false := decide_eq_false fun hx => by
    have := hx a (List.mem_cons_self a l)
    omega
  unfold lastMax
  rw [hP]
  simp [List.filter_cons, hx]

theorem foldl_maxByKey (a : α) (l : List α) :
    l.foldl (fun acc x => match acc with
      | none => some x
      | some a => if f a ≤ f x then some x else some a) (some a) = lastMax f (a :: l) := by
  induction l generalizing a with
  | nil => simp [lastMax, IsMaxIn]
  | cons x l ih =>
    simp only [List.foldl_cons]
    split_ifs with h
    · rw [ih, lastMax_cons_le f l h]
    · rw [ih, lastMax_cons_lt f l (not_le.mp h)]

/-- `max_by_key` returns the last of the elements with the greatest key. -/
theorem maxByKey_eq_lastMax (l : List α) : maxByKey f l = lastMax f l := by
  cases l with
  | nil => rfl
  | cons a l => exact foldl_maxByKey f a l

end MaxByKey

theorem getLast?_filter_of_getLast? {α : Type} {l : List α} {y : α} {p : α → Bool}
    (hl : l.getLast? = some y) (hp : p y) : (l.filter p).getLast? = some y := by
  rw [← List.dropLast_append_getLast? _ hl, List.filter_append, List.filter_singleton, hp]
  simp

/-- The stable sort by start time ends in the last bucket with the greatest start time. -/
theorem getLast?_sortByStartDt {α : Type} (l : List (Int × α)) :
    (sortByStartDt l).getLast? = lastMax Prod.fst l := by
  have hperm := sortByStartDt_perm l
  have hfilter : (sortByStartDt l).filter (fun y => decide (IsMaxIn Prod.fst l y)) =
      l.filter fun y => decide (IsMaxIn Prod.fst l y) := by
    rw [filter_sortByStartDt]
    apply List.Sorted.insertionSort_eq
    refine List.pairwise_iff_forall_sublist.mpr fun {a b} hab => ?_
    have ha : a ∈ l.filter fun y => decide (IsMaxIn Prod.fst l y) := hab.subset (by simp)
    have hb := (List.mem_filter.mp (hab.subset (by simp) : b ∈ l.filter fun y =>
      decide (IsMaxIn Prod.fst l y))).2
    simp only [decide_eq_true_eq] at hb
    exact hb a (List.mem_of_mem_filter ha)
  unfold lastMax
  rw [← hfilter]
  rcases hs : (sortByStartDt l).getLast? with _ | y
  · rw [List.getLast?_eq_none_iff.mp hs]
    rfl
  · refine (getLast?_filter_of_getLast? hs ?_).symm
    simp only [decide_eq_true_eq, IsMaxIn]
    intro z hz
    rcases Pairwise.rel_getLast? (sorted_sortByStartDt l) hs z (hperm.mem_iff.mpr hz) with rfl | h
    · exact le_rfl
    · exact h

theorem isPrefixOf?_append_left (a x y : List Char) :
    (a ++ y).isPrefixOf? (a ++ x) = y.isPrefixOf? x := by
  induction a with
  | nil => rfl
  | cons c a ih => simp [List.isPrefixOf?, ih]

theorem stripPrefix_append_left (a x y : String) : stripPrefix (a ++ x) (a ++ y) = stripPrefix x y := by
  simp [stripPrefix, String.data_append, isPrefixOf?_append_left]

theorem append_slash_inj {a b r r' : List Char} (ha : '/' ∉ a) (hb : '/' ∉ b)
    (h : a ++ '/' :: r = b ++ '/' :: r') : a = b := by
  induction a generalizing b with
  | nil =>
    cases b with
    | nil => rfl
    | cons d b => simp only [List.nil_append, List.cons_append, List.cons.injEq] at h
                  exact absurd (h.1 ▸ List.mem_cons_self d b) hb
  | cons c a ih =>
    cases b with
    | nil => simp only [List.nil_append, List.cons_append, List.cons.injEq] at h
             exact absurd (h.1 ▸ List.mem_cons_self c a) ha
    | cons d b =>
      simp only [List.cons_append, List.cons.injEq] at h
      simp only [List.mem_cons, not_or] at ha hb
      rw [h.1, ih ha.2 hb.2 h.2]

/-- A name without `/` followed by `/` starts a key exactly when it is the prefix's name. -/
theorem stripPrefix_slash {o p : String} (ho : NoSlash o) (hp : NoSlash p) (z w : String) :
    stripPrefix (o ++ "/" ++ z) (p ++ "/" ++ w) = if o = p then stripPrefix z w else none := by
  split_ifs with h
  · subst h
    simpa only [String.append_assoc] using stripPrefix_append_left (o ++ "/") z w
  · rcases hs : stripPrefix (o ++ "/" ++ z) (p ++ "/" ++ w) with _ | rest
    · rfl
    · have := congrArg String.data (stripPrefix_eq_some.mp hs)
      simp only [String.data_append, List.append_assoc] at this
      exact absurd (congrArg String.mk (append_slash_inj ho hp (by simpa using this))) h

@[simp] theorem stripPrefix_empty (x : String) : stripPrefix x "" = some x :=
  stripPrefix_eq_some.mpr (String.ext (by simp))

theorem stripPrefix_name {o p : String} (ho : NoSlash o) (hp : NoSlash p) (z : String) :
    stripPrefix (o ++ "/" ++ z) (p ++ "/") = if o = p then some z else none := by
  simpa using stripPrefix_slash ho hp z ""

/-- The stream a store key names is under `list`'s prefix exactly when its org, and its type
when one is asked for, are the ones asked for. -/
theorem stripPrefix_listKey {o n s org : String} {t : StreamType} (ho : NoSlash o)
    (horg : NoSlash org) (type : Option StreamType) :
    stripPrefix ("/schema/" ++ (streamKey o t n ++ "/" ++ s)) (listKey org type) =
      match type with
      | none => if o = org then some (t.asStr ++ "/" ++ (n ++ "/" ++ s)) else none
      | some t' => if o = org ∧ t = t' then some (n ++ "/" ++ s) else none := by
  have hkey : "/schema/" ++ (streamKey o t n ++ "/" ++ s) =
      "/schema/" ++ (o ++ "/" ++ (t.asStr ++ "/" ++ (n ++ "/" ++ s))) := by
    simp [streamKey, String.append_assoc]
  cases type with
  | none =>
    have hpre : listKey org none = "/schema/" ++ (org ++ "/") := by simp [listKey, String.append_assoc]
    rw [hkey, hpre, stripPrefix_append_left, stripPrefix_name ho horg]
  | some t' =>
    have hpre : listKey org (some t') = "/schema/" ++ (org ++ "/" ++ (t'.asStr ++ "/")) := by
      simp [listKey, String.append_assoc]
    rw [hkey, hpre, stripPrefix_append_left, stripPrefix_slash ho horg,
      stripPrefix_name t.asStr_noSlash t'.asStr_noSlash]
    by_cases h : o = org <;> by_cases h' : t = t' <;>
      simp [h, h', StreamType.asStr_injective.eq_iff]

/-- The map key of a stream starts with `list_stream_schemas`' prefix on the same terms. -/
theorem stripPrefix_streamKey {o n org : String} {t : StreamType} (ho : NoSlash o)
    (horg : NoSlash org) (type : Option StreamType) :
    stripPrefix (streamKey o t n) (latestPrefix org type) =
      match type with
      | none => if o = org then some (t.asStr ++ "/" ++ n) else none
      | some t' => if o = org ∧ t = t' then some n else none := by
  have hkey : streamKey o t n = o ++ "/" ++ (t.asStr ++ "/" ++ n) := by
    simp [streamKey, String.append_assoc]
  cases type with
  | none => rw [latestPrefix, hkey, stripPrefix_name ho horg]
  | some t' =>
    have hpre : latestPrefix org (some t') = org ++ "/" ++ (t'.asStr ++ "/") := by
      simp [latestPrefix, String.append_assoc]
    rw [hkey, hpre, stripPrefix_slash ho horg, stripPrefix_name t.asStr_noSlash t'.asStr_noSlash]
    by_cases h : o = org <;> by_cases h' : t = t' <;>
      simp [h, h', StreamType.asStr_injective.eq_iff]

/-- A key of the form `/schema/o/t/n/s`: names without `/`, `t` the name of a stream type, `s`
an integer. -/
def WellFormedKey (key : String) : Prop :=
  ∃ o t n s, NoSlash o ∧ NoSlash n ∧ NoSlash s ∧ (parseI64 s).isSome ∧
    key = "/schema/" ++ (streamKey o t n ++ "/" ++ s)

/-- A stream of org `o` and type `t` is one `list` asks for. -/
def InScope (org : String) (type : Option StreamType) (o : String) (t : StreamType) : Prop :=
  o = org ∧ ∀ t', type = some t' → t = t'

instance (org : String) (type : Option StreamType) (o : String) (t : StreamType) :
    Decidable (InScope org type o t) := by
  unfold InScope
  cases type <;> simp only [reduceCtorEq, false_implies, implies_true, and_true,
    Option.some.injEq, forall_eq'] <;> infer_instance

theorem cacheItem_key {o n s : String} (t : StreamType) (ho : NoSlash o) (hn : NoSlash n)
    (hs : NoSlash s) :
    cacheItem ("/schema/" ++ (streamKey o t n ++ "/" ++ s)) =
      (parseI64 s).map fun dt => (streamKey o t n, dt) := by
  simp only [cacheItem, stripPrefix_append, splitSlash_streamKey_segment t ho hn hs]
  rfl

theorem listItem_key {o n s org : String} {t : StreamType} (ho : NoSlash o) (hn : NoSlash n)
    (hs : NoSlash s) (horg : NoSlash org) (type : Option StreamType) (v : Bytes) :
    listItem (listKey org type) type ("/schema/" ++ (streamKey o t n ++ "/" ++ s), v) =
      if InScope org type o t then (parseI64 s).map fun dt => ((n, t), (v, dt)) else none := by
  unfold listItem
  rw [stripPrefix_listKey ho horg type]
  cases type with
  | none =>
    by_cases h : o = org
    · simp [h, InScope, splitSlash_append t.asStr_noSlash, splitSlash_append hn,
        splitSlash_of_noSlash hs]
    · simp [h, InScope]
  | some t' =>
    by_cases h : o = org ∧ t = t'
    · obtain ⟨rfl, rfl⟩ := h
      simp [InScope, splitSlash_append hn, splitSlash_of_noSlash hs]
    · simp only [if_neg h]
      rw [if_neg]
      simpa [InScope] using h

theorem stripPrefix_listKey_isSome {o n s org : String} {t : StreamType} (ho : NoSlash o)
    (horg : NoSlash org) (type : Option StreamType) :
    (stripPrefix ("/schema/" ++ (streamKey o t n ++ "/" ++ s)) (listKey org type)).isSome =
      decide (InScope org type o t) := by
  rw [stripPrefix_listKey ho horg type]
  cases type with
  | none => by_cases h : o = org <;> simp [h, InScope]
  | some t' => by_cases h1 : o = org <;> by_cases h2 : t = t' <;> simp [h1, h2, InScope]

theorem streamKey_inj {o o' n n' : String} {t t' : StreamType} (ho : NoSlash o) (ho' : NoSlash o')
    (hn : NoSlash n) (hn' : NoSlash n') (h : streamKey o t n = streamKey o' t' n') :
    o = o' ∧ t = t' ∧ n = n' := by
  have := congrArg splitSlash h
  rw [streamKey, streamKey, splitSlash_three ho t.asStr_noSlash hn,
    splitSlash_three ho' t'.asStr_noSlash hn'] at this
  simp only [List.cons.injEq, and_true] at this
  exact ⟨this.1, StreamType.asStr_injective this.2.1, this.2.2⟩

/-- Removing duplicates commutes with a partial map that is injective on the list. -/
theorem dedup_filterMap {α β : Type} [DecidableEq α] [DecidableEq β] {f : α → Option β} :
    ∀ {l : List α}, (∀ a ∈ l, ∀ a' ∈ l, ∀ b ∈ f a, b ∈ f a' → a = a') →
      l.dedup.filterMap f = (l.filterMap f).dedup
  | [], _ => rfl
  | a :: l, hinj => by
    have ih : l.dedup.filterMap f = (l.filterMap f).dedup :=
      dedup_filterMap fun x hx y hy => hinj x (List.mem_cons_of_mem a hx) y (List.mem_cons_of_mem a hy)
    by_cases ha : a ∈ l
    · rw [List.dedup_cons_of_mem ha, ih, List.filterMap_cons]
      rcases hfa : f a with _ | b
      · rfl
      · rw [List.dedup_cons_of_mem (List.mem_filterMap.mpr ⟨a, ha, hfa⟩)]
    · rw [List.dedup_cons_of_not_mem ha, List.filterMap_cons, List.filterMap_cons, ih]
      rcases hfa : f a with _ | b
      · rfl
      · have : b ∉ l.filterMap f := fun hb => by
          obtain ⟨a', ha', hfa'⟩ := List.mem_filterMap.mp hb
          exact ha (hinj a (List.mem_cons_self a l) a' (List.mem_cons_of_mem a ha') b hfa hfa' ▸ ha')
        rw [List.dedup_cons_of_not_mem this]

theorem lastMax_map {α β : Type} (f : β → Int) (g : α → β) (l : List α) :
    lastMax f (l.map g) = (lastMax (f ∘ g) l).map g := by
  have hP : (fun y => decide (IsMaxIn f (l.map g) y)) ∘ g = fun y => decide (IsMaxIn (f ∘ g) l y) :=
    funext fun y => by simp [IsMaxIn]
  unfold lastMax
  rw [List.filter_map, hP, List.getLast?_map]

/-- The schema of a stream's newest bucket: the latest schema the bulk load installs. -/
def newestSchema (B : List (Int × Bytes)) : Option Schema :=
  (currentVersions (sortByStartDt B)).getLast?.map Prod.snd

theorem exists_getLast?_sortByStartDt {α : Type} {B : List (Int × α)} (hne : B ≠ []) :
    ∃ x, (sortByStartDt B).getLast? = some x := by
  refine Option.isSome_iff_exists.mp ?_
  rw [List.getLast?_isSome]
  exact fun h => hne (List.eq_nil_of_length_eq_zero (by rw [← (sortByStartDt_perm B).length_eq, h]; rfl))

/-- A stream whose payloads all decode to non-empty lists has a newest schema. -/
theorem newestSchema_isSome {B : List (Int × Bytes)} (hB : Decodes B) (hne : B ≠ []) :
    (newestSchema B).isSome := by
  obtain ⟨⟨dt, b⟩, hl⟩ := exists_getLast?_sortByStartDt hne
  obtain ⟨sc, -, hc⟩ := currentVersions_getLast? (hB.perm (sortByStartDt_perm B)) hl
  simp [newestSchema, hc]

/-- The store path lists a stream with the schema of its newest bucket. -/
theorem groupSchema_buckets {B : List (Int × Bytes)} (hB : Decodes B) (hne : B ≠ []) (fetch : Bool) :
    groupSchema fetch (B.map fun b => (b.2, b.1)) =
      (newestSchema B).map fun s => if fetch then s else Schema.empty := by
  obtain ⟨⟨dt, b⟩, hl⟩ := exists_getLast?_sortByStartDt hne
  obtain ⟨sc, hs, hc⟩ := currentVersions_getLast? (hB.perm (sortByStartDt_perm B)) hl
  obtain ⟨ss, hss, hlast⟩ : ∃ ss, b.fromSlice = some ss ∧ ss.getLast? = some sc := by
    simpa [Bytes.current, Option.bind_eq_some] using hs
  have hmax : maxByKey (·.2) (B.map fun b => (b.2, b.1)) = some (b, dt) := by
    rw [maxByKey_eq_lastMax, lastMax_map]
    change (lastMax Prod.fst B).map _ = _
    rw [← getLast?_sortByStartDt, hl]
    rfl
  cases fetch <;> simp [groupSchema, newestSchema, hmax, hss, hlast, hc]

theorem LoadsCleanly.of_decodes {B : List (Int × Bytes)} (h : Decodes B) : LoadsCleanly B :=
  fun dt b hl => by
    have hb : (b.current).isSome :=
      h (dt, b) ((sortByStartDt_perm B).subset (List.mem_of_getLast?_eq_some hl))
    obtain ⟨s, hs⟩ := Option.isSome_iff_exists.mp hb
    obtain ⟨ss, hss, -⟩ : ∃ ss, b.fromSlice = some ss ∧ ss.getLast? = some s := by
      simpa [Bytes.current, Option.bind_eq_some] using hs
    exact ⟨ss, hss, fun _ => h⟩

/-- The bulk load of a store whose keys parse and whose payloads decode publishes, for every
stream, the schema of its newest bucket. -/
theorem latest_cache {S : Store} {order : List String} {fresh : SnowflakeIdGenerator}
    (hkeys : ∀ e ∈ S, (cacheItem e.1).isSome) (hdec : ∀ k, Decodes (S.buckets k))
    (horder : order.Perm S.streamKeys) (k : String) :
    (cache fresh order S Catalog.empty).state.latest.lookup k = newestSchema (S.buckets k) := by
  obtain ⟨d, hd⟩ := (cache_done_iff fresh Catalog.empty horder).mpr
    ⟨hkeys, fun k _ => LoadsCleanly.of_decodes (hdec k)⟩
  rw [hd, Outcome.state_done]
  unfold cache at hd
  split_ifs at hd
  have hv : (cacheKey fresh Catalog.empty k (S.buckets k)).state.view k = _ := view_cacheKey (hdec k)
  have := congrArg (·.2.1) ((view_installAll_streamKeys horder hd k).trans hv)
  simp only [Catalog.view] at this
  rw [this]
  split_ifs with hB
  · simp [hB, newestSchema, Catalog.empty, sortByStartDt, currentVersions]
  · unfold installedView newestSchema
    rcases (currentVersions (sortByStartDt (S.buckets k))).getLast? with _ | ⟨_, s⟩ <;> rfl

theorem streamKeys_wellFormed {S : Store} (hS : ∀ e ∈ S, WellFormedKey e.1) {k : String}
    (hk : k ∈ S.streamKeys) : ∃ o t n, NoSlash o ∧ NoSlash n ∧ k = streamKey o t n := by
  obtain ⟨e, he, hc⟩ := List.mem_filterMap.mp (List.mem_dedup.mp hk)
  obtain ⟨o, t, n, s, ho, hn, hs, -, hkey⟩ := hS e he
  rw [hkey, cacheItem_key t ho hn hs, Option.map_map, Option.map_eq_some'] at hc
  obtain ⟨_, -, rfl⟩ := hc
  exact ⟨o, t, n, ho, hn, rfl⟩

theorem latestEntry_streamKey {o n org : String} {t : StreamType} (ho : NoSlash o) (hn : NoSlash n)
    (horg : NoSlash org) (type : Option StreamType) (fetch : Bool) (v : Schema) :
    latestEntry (latestPrefix org type) type fetch (streamKey o t n) v =
      if InScope org type o t then some (some ⟨n, t, if fetch then v else Schema.empty⟩)
      else some none := by
  unfold latestEntry
  rw [@stripPrefix_streamKey o n org t ho horg type]
  cases type with
  | none =>
    by_cases h1 : o = org <;>
      simp [h1, InScope, splitSlash_append t.asStr_noSlash, splitSlash_of_noSlash hn]
  | some t' =>
    by_cases h1 : o = org <;> by_cases h2 : t = t' <;> simp [h1, h2, InScope]

/-- What the two loops read from a well-formed key: the bulk load's stream key and start time,
and the store listing's stream name, type and start time when the stream is in scope. -/
theorem WellFormedKey.items {key : String} (h : WellFormedKey key) {org : String} (horg : NoSlash org)
    (type : Option StreamType) (v : Bytes) :
    ∃ o t n dt, NoSlash o ∧ NoSlash n ∧ cacheItem key = some (streamKey o t n, dt) ∧
      (stripPrefix key (listKey org type)).isSome = decide (InScope org type o t) ∧
      listItem (listKey org type) type (key, v) =
        if InScope org type o t then some ((n, t), (v, dt)) else none := by
  obtain ⟨o, t, n, s, ho, hn, hs, hdt, rfl⟩ := h
  obtain ⟨dt, hdt⟩ := Option.isSome_iff_exists.mp hdt
  refine ⟨o, t, n, dt, ho, hn, ?_, stripPrefix_listKey_isSome ho horg type, ?_⟩
  · rw [cacheItem_key t ho hn hs, hdt]
    rfl
  · rw [listItem_key ho hn hs horg, hdt]
    rfl

theorem mem_buckets {S : Store} {e : String × Bytes} (he : e ∈ S) {k : String} {dt : Int}
    (hc : cacheItem e.1 = some (k, dt)) : (dt, e.2) ∈ S.buckets k :=
  List.mem_filterMap.mpr ⟨e, he, by simp [hc]⟩

/-- The store listing's versions of an in-scope stream are its buckets. -/
theorem versions_listItems {S : Store} (hS : ∀ e ∈ S, WellFormedKey e.1) {org n : String}
    {t : StreamType} (horg : NoSlash org) (hn : NoSlash n) {type : Option StreamType}
    (hin : InScope org type org t) :
    ((S.filterMap (listItem (listKey org type) type)).filter fun p => p.1 = (n, t)).map Prod.snd =
      (S.buckets (streamKey org t n)).map fun b => (b.2, b.1) := by
  rw [List.filter_filterMap, List.map_filterMap, Store.buckets, List.map_filterMap]
  refine List.filterMap_congr fun ⟨key, v⟩ he => ?_
  obtain ⟨o, t', n', dt, ho, hn', hc, -, hl⟩ := (hS _ he).items horg type v
  rw [hl, hc]
  by_cases hk : streamKey o t' n' = streamKey org t n
  · obtain ⟨rfl, rfl, rfl⟩ := streamKey_inj ho horg hn' hn hk
    simp only [if_pos hin, if_pos hk, Option.filter_some, decide_True, if_true, Option.map_some']
  · by_cases hI : InScope org type o t'
    · have hne : (n', t') ≠ (n, t) := fun h => hk (by rw [hI.1, (Prod.mk.inj h).1, (Prod.mk.inj h).2])
      simp only [if_pos hI, if_neg hk, Option.filter_some, hne, decide_False, Bool.false_eq_true,
        if_false, Option.map_none']
    · simp only [if_neg hI, if_neg hk, Option.filter_none, Option.map_none']

/-- The row both paths list for stream `k`: the map path's row for the schema the bulk load
installs as its latest. -/
def streamRow (S : Store) (org : String) (type : Option StreamType) (fetch : Bool) (k : String) :
    Option StreamSchema :=
  (newestSchema (S.buckets k)).bind fun v => (latestEntry (latestPrefix org type) type fetch k v).join

theorem streamRow_streamKey {S : Store} {o n org : String} {t : StreamType} (ho : NoSlash o)
    (hn : NoSlash n) (horg : NoSlash org) (type : Option StreamType) (fetch : Bool) :
    streamRow S org type fetch (streamKey o t n) =
      if InScope org type o t then
        (newestSchema (S.buckets (streamKey o t n))).map fun v => ⟨n, t, if fetch then v else Schema.empty⟩
      else none := by
  unfold streamRow
  simp only [latestEntry_streamKey ho hn horg]
  split_ifs <;> cases newestSchema (S.buckets (streamKey o t n)) <;> rfl

/-- Rows of different streams differ. -/
theorem streamRow_inj {S : Store} (hS : ∀ e ∈ S, WellFormedKey e.1) {org : String}
    (horg : NoSlash org) (type : Option StreamType) (fetch : Bool) :
    ∀ k ∈ S.streamKeys, ∀ k' ∈ S.streamKeys, ∀ r ∈ streamRow S org type fetch k,
      r ∈ streamRow S org type fetch k' → k = k' := by
  have key : ∀ k ∈ S.streamKeys, ∀ r ∈ streamRow S org type fetch k, k = streamKey org r.2 r.1 := by
    intro k hk r hr
    obtain ⟨o, t, n, ho, hn, rfl⟩ := streamKeys_wellFormed hS hk
    rw [Option.mem_def, streamRow_streamKey ho hn horg] at hr
    by_cases hin : InScope org type o t
    · rw [if_pos hin] at hr
      obtain ⟨v, -, rfl⟩ := Option.map_eq_some'.mp hr
      rw [hin.1]
    · rw [if_neg hin] at hr
      cases hr
  exact fun k hk k' hk' r hr hr' => (key k hk r hr).trans (key k' hk' r hr').symm

/-- The listing's filter drops only keys the loop body would skip. -/
theorem filterMap_list (S : Store) (org : String) (type : Option StreamType) :
    (S.list (listKey org type)).filterMap (listItem (listKey org type) type) =
      S.filterMap (listItem (listKey org type) type) := by
  rw [Store.list, List.filterMap_filter]
  refine List.filterMap_congr fun e _ => ?_
  split_ifs with h
  · rfl
  · have : stripPrefix e.1 (listKey org type) = none := by simpa using h
    simp [listItem, this]

/-- Over a well-formed store whose payloads decode to non-empty lists, the store path lists
every in-scope stream once, with the row the map path gives it. -/
theorem listFromStore_eq {S : Store} (hS : ∀ e ∈ S, WellFormedKey e.1)
    (hdec : ∀ k, Decodes (S.buckets k)) {org : String} (horg : NoSlash org)
    (type : Option StreamType) (fetch : Bool) :
    listFromStore S org type fetch = some (S.streamKeys.filterMap (streamRow S org type fetch)) := by
  set item := listItem (listKey org type) type
  set row := fun g : String × StreamType =>
    (groupSchema fetch (((S.filterMap item).filter fun p => p.1 = g).map Prod.snd)).map
      fun s => (⟨g.1, g.2, s⟩ : StreamSchema) with hrow
  have hentry : ∀ e ∈ S, (item e).bind (row ∘ Prod.fst) =
      ((cacheItem e.1).map Prod.fst).bind (streamRow S org type fetch) ∧
      ∀ p ∈ item e, (row p.1).isSome := by
    rintro ⟨key, v⟩ he
    obtain ⟨o, t, n, dt, ho, hn, hc, -, hl⟩ := (hS _ he).items horg type v
    have hne : S.buckets (streamKey o t n) ≠ [] := List.ne_nil_of_mem (mem_buckets he hc)
    simp only [item, hl, hc, Option.map_some', Option.some_bind, streamRow_streamKey ho hn horg]
    by_cases hin : InScope org type o t
    · obtain rfl := hin.1
      have hr : row (n, t) = (newestSchema (S.buckets (streamKey o t n))).map
          fun v => ⟨n, t, if fetch then v else Schema.empty⟩ := by
        simp only [hrow, versions_listItems hS horg hn hin, groupSchema_buckets (hdec _) hne,
          Option.map_map]
        rfl
      simp [hin, hr, newestSchema_isSome (hdec _) hne]
    · simp [hin]
  have hitems : (S.list (listKey org type)).all fun e => (item e).isSome := by
    simp only [List.all_eq_true, Store.list, List.mem_filter]
    rintro ⟨key, v⟩ ⟨he, hp⟩
    obtain ⟨o, t, n, dt, -, -, -, hpre, hl⟩ := (hS _ he).items horg type v
    rw [hpre, decide_eq_true_eq] at hp
    simp [item, hl, hp]
  have hgroups : ((S.filterMap item).map Prod.fst).dedup.all fun g => (row g).isSome := by
    simp only [List.all_eq_true, List.mem_dedup, List.mem_map, List.mem_filterMap]
    rintro _ ⟨p, ⟨e, he, hp⟩, rfl⟩
    exact (hentry e he).2 p hp
  have hinj : ∀ g ∈ (S.filterMap item).map Prod.fst, ∀ g' ∈ (S.filterMap item).map Prod.fst,
      ∀ r ∈ row g, r ∈ row g' → g = g' := by
    intro g _ g' _ r hr hr'
    obtain ⟨_, -, rfl⟩ := Option.map_eq_some'.mp hr
    obtain ⟨_, -, h⟩ := Option.map_eq_some'.mp hr'
    simp only [StreamSchema.mk.injEq] at h
    exact Prod.ext h.1.symm h.2.1.symm
  calc listFromStore S org type fetch
      = some (((S.filterMap item).map Prod.fst).dedup.filterMap row) := by
        simp only [listFromStore, filterMap_list, if_pos hitems]
        split_ifs with h
        · rfl
        · exact absurd (by simpa only [hrow, Option.isSome_map'] using hgroups) h
    _ = some (S.streamKeys.filterMap (streamRow S org type fetch)) := by
        rw [dedup_filterMap hinj, List.filterMap_map, List.filterMap_filterMap,
          List.filterMap_congr fun e he => (hentry e he).1, ← List.filterMap_filterMap, Store.streamKeys,
          dedup_filterMap fun k hk k' hk' => streamRow_inj hS horg type fetch k
            (List.mem_dedup.mpr hk) k' (List.mem_dedup.mpr hk')]

theorem WellFormedKey.cacheItem_isSome {key : String} (h : WellFormedKey key) :
    (cacheItem key).isSome := by
  obtain ⟨o, t, n, s, ho, hn, hs, hdt, rfl⟩ := h
  rw [cacheItem_key t ho hn hs]
  simpa using hdt

/-- `list_stream_schemas` with the empty-map shortcut folded into its loop, which lists nothing
for an empty map anyway. -/
theorem listStreamSchemas_eq (c : Catalog) (org : String) (type : Option StreamType) (fetch : Bool) :
    listStreamSchemas c org type fetch =
      if ∀ x ∈ c.latest.entries, (latestEntry (latestPrefix org type) type fetch x.1 x.2).isSome then
        some (c.latest.entries.filterMap fun x =>
          (latestEntry (latestPrefix org type) type fetch x.1 x.2).join)
      else none := by
  unfold listStreamSchemas
  by_cases h0 : c.latest = ∅
  · have he : c.latest.entries = 0 := by rw [h0]; rfl
    rw [if_pos h0, he]
    simp
  · simp only [if_neg h0, Multiset.forall_mem_map_iff, Multiset.filterMap_map, Function.comp_def]

/-- The latest-schema map the bulk load builds holds the newest schema of every stream. -/
theorem entries_latest_cache {S : Store} {order : List String} {fresh : SnowflakeIdGenerator}
    (hkeys : ∀ e ∈ S, (cacheItem e.1).isSome) (hdec : ∀ k, Decodes (S.buckets k))
    (horder : order.Perm S.streamKeys) :
    (cache fresh order S Catalog.empty).state.latest.entries =
      ↑(S.streamKeys.filterMap fun k => (newestSchema (S.buckets k)).map (Sigma.mk k)) := by
  refine (Multiset.Nodup.ext (Finmap.nodup_entries _) (Multiset.coe_nodup.mpr ?_)).mpr ?_
  · refine (List.nodup_dedup _).filterMap fun k k' x hx hx' => ?_
    obtain ⟨_, -, rfl⟩ := Option.map_eq_some'.mp hx
    obtain ⟨_, -, h⟩ := Option.map_eq_some'.mp hx'
    exact (congrArg Sigma.fst h).symm
  · rintro ⟨k, v⟩
    rw [← Finmap.lookup_eq_some_iff, latest_cache hkeys hdec horder, Multiset.mem_coe,
      List.mem_filterMap]
    constructor
    · intro h
      refine ⟨k, mem_streamKeys.mpr fun hb => ?_, by simp [h]⟩
      rw [hb] at h
      cases h
    · rintro ⟨k', -, h⟩
      obtain ⟨v', hv', hkv⟩ := Option.map_eq_some'.mp h
      cases hkv
      exact hv'

/-- Over a well-formed store whose payloads decode to non-empty lists, `list_stream_schemas`
over the map the bulk load builds lists every stream's row. -/
theorem listStreamSchemas_cache {S : Store} {order : List String} {fresh : SnowflakeIdGenerator}
    (hS : ∀ e ∈ S, WellFormedKey e.1) (hdec : ∀ k, Decodes (S.buckets k))
    (horder : order.Perm S.streamKeys) {org : String} (horg : NoSlash org)
    (type : Option StreamType) (fetch : Bool) :
    listStreamSchemas (cache fresh order S Catalog.empty).state org type fetch =
      some ↑(S.streamKeys.filterMap (streamRow S org type fetch)) := by
  rw [listStreamSchemas_eq,
    entries_latest_cache (fun e he => (hS e he).cacheItem_isSome) hdec horder, if_pos]
  · rw [Multiset.filterMap_coe, List.filterMap_filterMap]
    refine congrArg (some ∘ Multiset.ofList) (List.filterMap_congr fun k _ => ?_)
    unfold streamRow
    cases newestSchema (S.buckets k) <;> rfl
  · simp only [Multiset.mem_coe, List.mem_filterMap]
    rintro _ ⟨k, hk, h⟩
    obtain ⟨v, -, rfl⟩ := Option.map_eq_some'.mp h
    obtain ⟨o, t, n, ho, hn, rfl⟩ := streamKeys_wellFormed hS hk
    rw [latestEntry_streamKey ho hn horg]
    split_ifs <;> rfl

/-- Over a store whose keys are well formed and whose payloads
all decode to non-empty lists, for every org without `/`, stream type and `fetch_schema` flag,
the store path lists the same rows as `list_stream_schemas` over the map the bulk load builds. -/
theorem list_paths_agree {S : Store} {order : List String} {fresh : SnowflakeIdGenerator}
    (hS : ∀ e ∈ S, WellFormedKey e.1) (hdec : ∀ k, Decodes (S.buckets k))
    (horder : order.Perm S.streamKeys) {org : String} (horg : NoSlash org)
    (type : Option StreamType) (fetch : Bool) :
    (listFromStore S org type fetch).map (↑) =
      listStreamSchemas (cache fresh order S Catalog.empty).state org type fetch := by
  rw [listFromStore_eq hS hdec horg, listStreamSchemas_cache hS hdec horder horg]
  rfl

theorem list_paths_agree_app :
    (∀ e ∈ appStore, WellFormedKey e.1) ∧ (∀ k, Decodes (appStore.buckets k)) ∧
      ["acme/logs/app"].Perm appStore.streamKeys ∧ NoSlash "acme" ∧
      (listFromStore appStore "acme" none true).map (↑) = listStreamSchemas appCatalog "acme" none true :=
  have hS : ∀ e ∈ appStore, WellFormedKey e.1 := fun e he => by
    simp only [appStore, List.mem_cons, List.mem_singleton, List.not_mem_nil, or_false] at he
    rcases he with rfl | rfl
    · exact ⟨"acme", .logs, "app", "100", by decide, by decide, by decide, by decide, by decide⟩
    · exact ⟨"acme", .logs, "app", "200", by decide, by decide, by decide, by decide, by decide⟩
  ⟨hS, appStore_sound.decodes, by decide, by decide,
    list_paths_agree hS appStore_sound.decodes (by decide) (by decide) none true⟩

/-- A store whose stream `acme/logs/app` has a newest payload that parses to an empty list, beside
a stream `acme/logs/web`. -/
def emptyNewestStore : Store :=
  [("/schema/acme/logs/app/100", .schemas [appV1]), ("/schema/acme/logs/app/200", .schemas []),
    ("/schema/acme/logs/web/100", .schemas [appV1])]

/-- Over `emptyNewestStore`, whose keys are well formed and whose payloads all parse, the store
path lists `app` with `Schema::empty()`, but the bulk load skips `app` and `list_stream_schemas`
lists only `web`. -/
theorem list_paths_agree_counterexample :
    (∀ e ∈ emptyNewestStore, WellFormedKey e.1) ∧
      emptyNewestStore.all (fun e => (e.2.fromSlice).isSome) ∧
      ["acme/logs/app", "acme/logs/web"].Perm emptyNewestStore.streamKeys ∧
      (listFromStore emptyNewestStore "acme" none true).map (↑) =
        some ↑[(⟨"app", .logs, Schema.empty⟩ : StreamSchema), ⟨"web", .logs, appV1⟩] ∧
      listStreamSchemas (cache nodeGenerator ["acme/logs/app", "acme/logs/web"] emptyNewestStore
        Catalog.empty).state "acme" none true = some ↑[(⟨"web", .logs, appV1⟩ : StreamSchema)] := by
  refine ⟨fun e he => ?_, by decide, by decide, by decide, by decide⟩
  simp only [emptyNewestStore, List.mem_cons, List.mem_singleton, List.not_mem_nil, or_false] at he
  rcases he with rfl | rfl | rfl
  · exact ⟨"acme", .logs, "app", "100", by decide, by decide, by decide, by decide, by decide⟩
  · exact ⟨"acme", .logs, "app", "200", by decide, by decide, by decide, by decide, by decide⟩
  · exact ⟨"acme", .logs, "web", "100", by decide, by decide, by decide, by decide, by decide⟩

end SchemaCatalog
