import SchemaCatalog.Watch

namespace SchemaCatalog

/-- The loop body of `cache` for one stream: sort the buckets, decode the newest (`?` returns
`Err` on a parse error), skip it when empty or when there are no buckets, publish the
generator, settings and latest schema, then decode every bucket (`unwrap`) and install them. -/
def cacheKey (fresh : SnowflakeIdGenerator) (c : Catalog) (k : String)
    (versions : List (Int × Bytes)) : Outcome Catalog :=
  match (sortByStartDt versions).getLast? with
  | none => .done c
  | some (_, bytes) =>
    match bytes.fromSlice with
    | none => .err c
    | some ss =>
      match ss.getLast? with
      | none => .done c
      | some latest =>
        match decodeVersions (sortByStartDt versions) with
        | none => .panic (c.publish k latest fresh)
        | some vs => .done ((c.publish k latest fresh).setVersions k vs)

/-- The streams of a store in order of first appearance: one order `HashMap::keys` may take. -/
def Store.streamKeys (S : Store) : List String :=
  (S.filterMap fun e => (cacheItem e.1).map Prod.fst).dedup

/-- The install loop of `cache` over the stream keys in the order the map yields them. -/
def installAll (fresh : SnowflakeIdGenerator) (S : Store) : List String → Catalog → Outcome Catalog
  | [], c => .done c
  | k :: ks, c =>
    match cacheKey fresh c k (S.buckets k) with
    | .done c' => installAll fresh S ks c'
    | o => o

/-- `cache`: the grouping loop panics before installing anything when a key is malformed;
then every stream is installed in `order`, the iteration order of the grouping map. -/
def cache (fresh : SnowflakeIdGenerator) (order : List String) (S : Store) (c : Catalog) :
    Outcome Catalog :=
  if S.all fun e => (cacheItem e.1).isSome then installAll fresh S order c else .panic c

end SchemaCatalog
