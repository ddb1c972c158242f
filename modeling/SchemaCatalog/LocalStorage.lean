import SchemaCatalog.Types

namespace SchemaCatalog

/-- A family of prometheus counters: the value under each list of label values. -/
abbrev Counters := Finmap fun _ : List String => Nat

/-- `with_label_values(labels).inc_by(n)`. -/
def Counters.incBy (m : Counters) (labels : List String) (n : Nat) : Counters :=
  m.insert labels ((m.lookup labels).getD 0 + n)

theorem Counters.get_incBy (m : Counters) (labels labels' : List String) (n : Nat) :
    ((m.incBy labels n).lookup labels').getD 0 =
      (m.lookup labels').getD 0 + if labels = labels' then n else 0 := by
  unfold incBy
  by_cases h : labels = labels'
  · subst h
    simp [Finmap.lookup_insert]
  · simp [Finmap.lookup_insert_of_ne _ (Ne.symm h), h]

/-- The counters of `config::metrics` that `Local` bumps. -/
structure StorageMetrics where
  storageWriteBytes : Counters
  storageWriteRequests : Counters
  storageReadBytes : Counters
  storageReadRequests : Counters

namespace Local

/-- `columns[1]` and `columns[2]` of `location.split('/')`; `none` where the indexing panics. -/
def columnLabels (location : String) : Option (String × String) :=
  match splitSlash location with
  | _ :: c1 :: c2 :: _ => some (c1, c2)
  | _ => none

/-- The test `columns[0] == "files"` of the reads and writes. -/
def underFiles (location : String) : Bool := (splitSlash location).headD "" == "files"

/-- `put_opts`, after the client's answer `client` (`true` for `Ok`): a completed write under
`files/` adds its size to `STORAGE_WRITE_BYTES` and one to `STORAGE_WRITE_REQUESTS`. -/
def putOpts (m : StorageMetrics) (location : String) (dataSize : Nat) (client : Bool) :
    Outcome StorageMetrics :=
  if client then
    if underFiles location then
      match columnLabels location with
      | some (c1, c2) => .done { m with
          storageWriteBytes := m.storageWriteBytes.incBy [c1, c2, "local"] dataSize,
          storageWriteRequests := m.storageWriteRequests.incBy [c1, c2, "local"] 1 }
      | none => .panic m
    else .done m
  else .err m

/-- The body `get`, `get_opts` and `get_range` share, with the method label each passes and the
client's answer (`none` for `Err`, otherwise the length read): a completed read under `files/`
adds its length to `STORAGE_READ_BYTES` and one to `STORAGE_READ_REQUESTS`. -/
def readMetrics (method : String) (m : StorageMetrics) (location : String) (client : Option Nat) :
    Outcome StorageMetrics :=
  match client with
  | none => .err m
  | some dataLen =>
    if underFiles location then
      match columnLabels location with
      | some (c1, c2) => .done { m with
          storageReadBytes := m.storageReadBytes.incBy [c1, c2, method, "local"] dataLen,
          storageReadRequests := m.storageReadRequests.incBy [c1, c2, method, "local"] 1 }
      | none => .panic m
    else .done m

/-- A read leaves the write counters. -/
theorem readMetrics_writes (method : String) (m : StorageMetrics) (location : String)
    (client : Option Nat) :
    (readMetrics method m location client).state.storageWriteBytes = m.storageWriteBytes ∧
      (readMetrics method m location client).state.storageWriteRequests = m.storageWriteRequests := by
  unfold readMetrics
  repeat' split
  all_goals exact ⟨rfl, rfl⟩

def get := readMetrics "get"

def getOpts := readMetrics "get_opts"

def getRange := readMetrics "get_range"

/-- What follows a successful removal in `delete`: one more `STORAGE_WRITE_REQUESTS` under the
location's columns, with no test of `columns[0]`. -/
def deleted (m : StorageMetrics) (location : String) : Outcome StorageMetrics :=
  match columnLabels location with
  | some (c1, c2) => .done { m with
      storageWriteRequests := m.storageWriteRequests.incBy [c1, c2, "local"] 1 }
  | none => .panic m

/-- The loop `for _ in 0..3` of `delete` from attempt `i` on, with `n` attempts left; `client i`
is the client's answer to the attempt `i`. The last failed answer is returned. -/
def deleteFrom (m : StorageMetrics) (location : String) (client : Nat → Bool) : Nat → Nat → Outcome StorageMetrics
  | 0, _ => .err m
  | n + 1, i => if client i then deleted m location else deleteFrom m location client n (i + 1)

def delete (m : StorageMetrics) (location : String) (client : Nat → Bool) : Outcome StorageMetrics :=
  deleteFrom m location client 3 0

/-- The loop ends in the first success among its attempts, or fails. -/
theorem deleteFrom_eq (m : StorageMetrics) (location : String) (client : Nat → Bool) :
    ∀ n i, deleteFrom m location client n i =
      if ∃ j < n, client (i + j) then deleted m location else .err m
  | 0, i => by simp [deleteFrom]
  | n + 1, i => by
    have hshift : (∃ j < n, client (i + 1 + j)) ↔ ∃ j < n, client (i + (j + 1)) := by
      simp only [Nat.add_assoc, Nat.add_comm 1]
    rw [deleteFrom, deleteFrom_eq m location client n (i + 1)]
    by_cases h : client i <;> simp [h, Nat.exists_lt_succ_left, hshift]

/-- A call on `Local`, with the client's answers. -/
inductive StorageOp
  | putOpts (location : String) (dataSize : Nat) (client : Bool)
  | get (location : String) (client : Option Nat)
  | getOpts (location : String) (client : Option Nat)
  | getRange (location : String) (client : Option Nat)
  | delete (location : String) (client : Nat → Bool)

/-- A call's metrics; a panic leaves them as they were when it struck. -/
def StorageOp.apply (m : StorageMetrics) : StorageOp → Outcome StorageMetrics
  | .putOpts location dataSize client => Local.putOpts m location dataSize client
  | .get location client => Local.get m location client
  | .getOpts location client => Local.getOpts m location client
  | .getRange location client => Local.getRange m location client
  | .delete location client => Local.delete m location client

def run (m : StorageMetrics) (ops : List StorageOp) : StorageMetrics :=
  ops.foldl (fun m op => (op.apply m).state) m

/-- The size a call adds to `STORAGE_WRITE_BYTES` under `[a, b, "local"]`: a completed write
under `files/a/b/`. -/
def StorageOp.writeBytesUnder (a b : String) : StorageOp → Nat
  | .putOpts location dataSize client =>
    if client && underFiles location && columnLabels location == some (a, b) then dataSize else 0
  | _ => 0

/-- The sizes a run of calls adds to `STORAGE_WRITE_BYTES` under `[a, b, "local"]`. -/
def StorageOp.writeBytesTotal (a b : String) : List StorageOp → Nat
  | [] => 0
  | op :: ops => op.writeBytesUnder a b + writeBytesTotal a b ops

/-- Whether a call adds one to `STORAGE_WRITE_REQUESTS` under `[a, b, "local"]`: a completed
write under `files/a/b/`, or a removal of any location of columns `a` and `b` that succeeds
within three attempts. -/
def StorageOp.writeRequestUnder (a b : String) : StorageOp → Bool
  | .putOpts location _ client => client && underFiles location && columnLabels location == some (a, b)
  | .delete location client =>
    decide (∃ j < (3 : Nat), client j) && columnLabels location == some (a, b)
  | _ => false

section Step

variable (m : StorageMetrics) (a b : String)

theorem StorageOp.apply_writeBytes (op : StorageOp) :
    (((op.apply m).state.storageWriteBytes.lookup [a, b, "local"]).getD 0) =
      (m.storageWriteBytes.lookup [a, b, "local"]).getD 0 + op.writeBytesUnder a b := by
  cases op with
  | putOpts location dataSize client =>
    simp only [apply, Local.putOpts, writeBytesUnder]
    by_cases hu : underFiles location = true <;> cases client <;>
      rcases h : columnLabels location with _ | ⟨c1, c2⟩ <;> simp [Counters.get_incBy, hu, h]
  | get location client | getOpts location client | getRange location client =>
    simp [apply, Local.get, Local.getOpts, Local.getRange, readMetrics_writes, writeBytesUnder]
  | delete location client =>
    simp only [apply, Local.delete, deleteFrom_eq, deleted, writeBytesUnder]
    split <;> try split
    all_goals rfl

theorem StorageOp.apply_writeRequests (op : StorageOp) :
    (((op.apply m).state.storageWriteRequests.lookup [a, b, "local"]).getD 0) =
      (m.storageWriteRequests.lookup [a, b, "local"]).getD 0 + if op.writeRequestUnder a b then 1 else 0 := by
  cases op with
  | putOpts location dataSize client =>
    simp only [apply, Local.putOpts, writeRequestUnder, Bool.and_eq_true, beq_iff_eq]
    by_cases hu : underFiles location = true <;> cases client <;>
      rcases h : columnLabels location with _ | ⟨c1, c2⟩ <;> simp [Counters.get_incBy, hu, h]
  | get location client | getOpts location client | getRange location client =>
    simp [apply, Local.get, Local.getOpts, Local.getRange, readMetrics_writes, writeRequestUnder]
  | delete location client =>
    simp only [apply, Local.delete, deleteFrom_eq, deleted, writeRequestUnder, Nat.zero_add,
      Bool.and_eq_true, beq_iff_eq, decide_eq_true_eq]
    by_cases hd : ∃ j < (3 : Nat), client j
    · rcases h : columnLabels location with _ | ⟨c1, c2⟩ <;> simp [hd, h, Counters.get_incBy]
    · simp [hd]

end Step

/-- Over every run of calls on `Local`, `STORAGE_WRITE_BYTES` under
`[a, b, "local"]` grows by the sizes of the completed writes under `files/a/b/`, and
`STORAGE_WRITE_REQUESTS` by their number plus the number of removals, of any location whose
second and third columns are `a` and `b`, that succeed within three attempts. -/
theorem run_write_metrics (a b : String) :
    ∀ (m : StorageMetrics) (ops : List StorageOp),
      ((run m ops).storageWriteBytes.lookup [a, b, "local"]).getD 0 =
          (m.storageWriteBytes.lookup [a, b, "local"]).getD 0 + StorageOp.writeBytesTotal a b ops ∧
        ((run m ops).storageWriteRequests.lookup [a, b, "local"]).getD 0 =
          (m.storageWriteRequests.lookup [a, b, "local"]).getD 0 + ops.countP (·.writeRequestUnder a b)
  | m, [] => by simp [run, StorageOp.writeBytesTotal]
  | m, op :: ops => by
    obtain ⟨hb, hr⟩ := run_write_metrics a b (op.apply m).state ops
    refine ⟨?_, ?_⟩
    · rw [run, List.foldl_cons, ← run, hb, StorageOp.apply_writeBytes, StorageOp.writeBytesTotal,
        Nat.add_assoc]
    · rw [run, List.foldl_cons, ← run, hr, StorageOp.apply_writeRequests, List.countP_cons,
        Nat.add_assoc, Nat.add_comm (ite _ _ _)]

end Local

end SchemaCatalog
