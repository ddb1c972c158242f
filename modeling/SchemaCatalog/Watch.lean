import SchemaCatalog.Store

namespace SchemaCatalog

/-- The stream key `mk_key` builds without its `/schema/` prefix: `org/stream_type/stream_name`. -/
def streamKey (org : String) (type : StreamType) (name : String) : String :=
  org ++ "/" ++ type.asStr ++ "/" ++ name

/-- The Put branch's reading of an event key: with more than five segments the key is cut to
its first five and the sixth gives the start time (`parse().unwrap_or(0)`); otherwise the key
stays whole and the event's own start time is taken (`unwrap_or_default()`). -/
def putKey (key : String) (startDt : Option Int) : String × Int :=
  match splitSlash key with
  | c0 :: c1 :: c2 :: c3 :: c4 :: c5 :: _ => (joinSlash [c0, c1, c2, c3, c4], (parseI64 c5).getD 0)
  | _ => (key, startDt.getD 0)

/-- A key of the `/schema/` mutation feed as the spec gives them: the stream prefix
`/schema/o/t/n` or the versioned key `/schema/o/t/n/s`, with names free of `/`. -/
def FeedKey (key : String) : Prop :=
  ∃ o t n, NoSlash o ∧ NoSlash t ∧ NoSlash n ∧
    (key = "/schema/" ++ (o ++ "/" ++ t ++ "/" ++ n) ∨
      ∃ s, NoSlash s ∧ key = "/schema/" ++ (o ++ "/" ++ t ++ "/" ++ n) ++ "/" ++ s)

/-- The Put branch reads a feed key as the stream `o/t/n` it names. -/
theorem FeedKey.stripPrefix_putKey {key : String} (h : FeedKey key) (startDt : Option Int) :
    ∃ o t n, NoSlash o ∧ NoSlash t ∧ NoSlash n ∧
      stripPrefix (putKey key startDt).1 "/schema/" = some (o ++ "/" ++ t ++ "/" ++ n) := by
  obtain ⟨o, t, n, ho, ht, hn, rfl | ⟨s, hs, rfl⟩⟩ := h <;> refine ⟨o, t, n, ho, ht, hn, ?_⟩
  · simp [putKey, splitSlash_schema, splitSlash_three ho ht hn]
  · have hkey : "/schema/" ++ (o ++ "/" ++ t ++ "/" ++ n) ++ "/" ++ s =
        "/schema/" ++ (o ++ "/" ++ (t ++ "/" ++ (n ++ "/" ++ s))) := by
      simp [String.append_assoc]
    have hjoin : joinSlash ["", "schema", o, t, n] = "/schema/" ++ (o ++ "/" ++ t ++ "/" ++ n) := by
      simp [joinSlash_five, String.ext_iff]
    simp [putKey, hkey, splitSlash_schema, splitSlash_append ho, splitSlash_append ht,
      splitSlash_append hn, splitSlash_of_noSlash hs, hjoin]

/-- The index `prev_start_dt` reads: `if schemas.len() >= 2 { len - 2 } else { 0 }`. -/
def prevIndex (len : Nat) : Nat := if 2 ≤ len then len - 2 else 0

/-- `prev_start_dt`: the start time of the second-to-last cached version (of the first when
there are fewer than two), `0` for an uncached stream; `none` where `schemas[idx]` panics. -/
def prevStartDt (c : Catalog) (k : String) : Option Int :=
  match c.schemas.lookup k with
  | none => some 0
  | some vs => (vs.get? (prevIndex vs.length)).map Prod.fst

/-- `ts_range`: the whole listing when both start times are `0`, else from the previous start
time when the event has none or lies past it, else from the event's start time; up to `now`. -/
def tsRange (ev prev now : Int) : Option (Int × Int) :=
  if ev = 0 ∧ prev = 0 then none
  else if ev = 0 ∨ (0 < prev ∧ prev < ev) then some (prev, now)
  else some (ev, now)

/-- `json::from_slice::<Vec<Schema>>(&data).unwrap().pop().unwrap()` over buckets; `none` where
an `unwrap` panics. -/
def decodeVersions : List (Int × Bytes) → Option (List (Int × Schema))
  | [] => some []
  | (dt, b) :: rest => b.current.bind fun s => (decodeVersions rest).map ((dt, s) :: ·)

/-- `existing.retain(|(v, _)| new.iter().all(|(v1, _)| v1 != v)); existing.extend(new)`:
versions are replaced by start time, not by content. -/
def mergeVersions (existing new : List (Int × Schema)) : List (Int × Schema) :=
  existing.filter (fun e => new.all fun n => n.1 != e.1) ++ new

/-- The last write section of a Put: `entry(k).and_modify(merge).or_insert(new)`. -/
def Catalog.addVersions (c : Catalog) (k : String) (new : List (Int × Schema)) : Catalog :=
  let merged := match c.schemas.lookup k with
    | some existing => mergeVersions existing new
    | none => new
  { c with schemas := c.schemas.insert k merged }

/-- The Put branch from the fetched buckets on: skip an empty listing, an unparsable or empty
newest bucket; otherwise publish generator, settings and latest schema, then decode the other
buckets (`unwrap`) and merge all of them into the cached versions. -/
def applyVersions (c : Catalog) (k : String) (fresh : SnowflakeIdGenerator)
    (versions : List (Int × Bytes)) : Outcome Catalog :=
  match versions.getLast? with
  | none => .done c
  | some (latestDt, bytes) =>
    match bytes.fromSlice with
    | none => .done c
    | some ss =>
      match ss.getLast? with
      | none => .done c
      | some latest =>
        match decodeVersions versions.dropLast with
        | none => .panic (c.publish k latest fresh)
        | some older => .done ((c.publish k latest fresh).addVersions k (older ++ [(latestDt, latest)]))

/-- The Put branch of `watch` for one event, with the clock reading `now` and the generator
`SnowflakeIdGenerator::new(LOCAL_NODE_ID)` would build. -/
def watchPut (list : Lister) (now : Int) (fresh : SnowflakeIdGenerator) (c : Catalog)
    (key : String) (startDt : Option Int) : Outcome Catalog :=
  match stripPrefix (putKey key startDt).1 "/schema/" with
  | none => .panic c
  | some k =>
    match prevStartDt c k with
    | none => .panic c
    | some prev =>
      match list ((putKey key startDt).1 ++ "/") (tsRange (putKey key startDt).2 prev now) with
      | none => .done c
      | some versions => applyVersions c k fresh versions

/-- The side effects of a full-stream Delete outside the catalog maps. -/
inductive Effect
  | removeStreamStats (org name : String) (type : StreamType)
  | delOffset (org : String) (type : StreamType) (name : String)
  | removeDataDir (path : String)
  | deleteEnrichmentCache (org name : String)
  deriving DecidableEq, Repr

/-- `remove_stream_stats`, `del_offset`, and for enrichment tables the on-disk files (local
disk only) and the local enrichment cache. -/
def deleteEffects (localDisk : Bool) (dataWalDir org : String) (type : StreamType)
    (name : String) : List Effect :=
  [.removeStreamStats org name type, .delOffset org type name] ++
    (if type = .enrichmentTables ∧ localDisk then
      [.removeDataDir (dataWalDir ++ "files/" ++ org ++ "/" ++ type.asStr ++ "/" ++ name)]
    else []) ++
    (if type = .enrichmentTables then [.deleteEnrichmentCache org name] else [])

/-- The removals of the Delete branch, in its order: versions, latest, generator, settings. -/
def Catalog.removeStream (c : Catalog) (k : String) : Catalog :=
  (((c.eraseVersions k).eraseLatest k).eraseGenerator k).eraseSettings k

section Fields

variable (c : Catalog) (k : String) (new : List (Int × Schema))

/-- The merge of a Put writes the versions map only. -/
theorem Catalog.addVersions_eq : c.addVersions k new = c.setVersions k (match c.schemas.lookup k with
    | some existing => mergeVersions existing new
    | none => new) := rfl

@[simp] theorem Catalog.removeStream_schemas : (c.removeStream k).schemas = c.schemas.erase k := rfl
@[simp] theorem Catalog.removeStream_latest : (c.removeStream k).latest = c.latest.erase k := rfl
@[simp] theorem Catalog.removeStream_settings : (c.removeStream k).settings = c.settings.erase k := rfl
@[simp] theorem Catalog.removeStream_settingsAtomic :
    (c.removeStream k).settingsAtomic = c.settings.erase k := rfl
@[simp] theorem Catalog.removeStream_recordIdGenerators :
    (c.removeStream k).recordIdGenerators = c.recordIdGenerators.erase k := rfl

end Fields

/-- The Delete branch of `watch`: `columns[1]` and `columns[2]` panic on a short key; a
positive fourth segment is a one-version delete and a no-op; otherwise the maps lose the key
as it stands after `/schema/`, and the stream's side effects run. -/
def watchDelete (localDisk : Bool) (dataWalDir : String) (c : Catalog) (key : String) :
    Outcome (Catalog × List Effect) :=
  match stripPrefix key "/schema/" with
  | none => .panic (c, [])
  | some k =>
    match splitSlash k with
    | org :: ty :: name :: rest =>
      let startDt : Int := match rest with
        | s :: _ => (parseI64 s).getD 0
        | [] => 0
      if 0 < startDt then .done (c, [])
      else .done (c.removeStream k, deleteEffects localDisk dataWalDir org (.ofStr ty) name)
    | _ => .panic (c, [])

/-- `stream_delete_inner` (without the enterprise feature): the retention job is created first
and its failure returns early; the maps then lose `org/type/name`, and a failed `del_offset`
returns `Err` after that. -/
def streamDeleteInner (retentionOk offsetOk : Bool) (c : Catalog) (org : String)
    (type : StreamType) (name : String) : Outcome Catalog :=
  if retentionOk then
    let c' := (((c.eraseVersions (streamKey org type name)).eraseLatest (streamKey org type name)).eraseSettings
      (streamKey org type name)).eraseGenerator (streamKey org type name)
    if offsetOk then .done c' else .err c'
  else .err c

end SchemaCatalog
