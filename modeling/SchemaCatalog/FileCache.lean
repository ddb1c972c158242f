import Mathlib.Data.Finset.Card

namespace SchemaCatalog

/-- `CacheStrategy`: hashlink's `LruCache` (outside src/: its entries from the least to the most
recently used), or a `VecDeque` of entries beside the `HashSet` of their keys. -/
inductive CacheStrategy
  | lru (cache : List (String × Nat))
  | fifo (queue : List (String × Nat)) (keys : Finset String)
  deriving DecidableEq

namespace CacheStrategy

/-- `str::to_lowercase` on the ASCII letters; no other character lowercases to a letter of `lru`
or `fifo`. -/
def toLowercase (s : String) : String := ⟨s.data.map Char.toLower⟩

/-- `CacheStrategy::new(name)`: `"lru"` and `"fifo"` in any case, and an LRU cache otherwise. -/
def new (name : String) : CacheStrategy :=
  match toLowercase name with
  | "lru" => .lru []
  | "fifo" => .fifo [] ∅
  | _ => .lru []

/-- `insert(key, value)`: hashlink's `insert` replaces an entry of the key and makes it the most
recent; the FIFO arm adds the key to the set and queues the entry. -/
def insert (key : String) (value : Nat) : CacheStrategy → CacheStrategy
  | .lru cache => .lru (cache.filter (·.1 ≠ key) ++ [(key, value)])
  | .fifo queue keys => .fifo (queue ++ [(key, value)]) (Insert.insert key keys)

/-- `remove()`: the least recently used entry, or the front of the queue, whose key leaves the
set. -/
def remove : CacheStrategy → Option (String × Nat) × CacheStrategy
  | .lru [] => (none, .lru [])
  | .lru (e :: rest) => (some e, .lru rest)
  | .fifo [] keys => (none, .fifo [] keys)
  | .fifo ((key, size) :: rest) keys => (some (key, size), .fifo rest (keys.erase key))

def containsKey (key : String) : CacheStrategy → Bool
  | .lru cache => cache.any (·.1 = key)
  | .fifo _ keys => decide (key ∈ keys)

def len : CacheStrategy → Nat
  | .lru cache => cache.length
  | .fifo queue _ => queue.length

def isEmpty : CacheStrategy → Bool
  | .lru cache => cache.isEmpty
  | .fifo queue _ => queue.isEmpty

/-- The `while` loop of `remove_key` over the queue: the first entry of the key, taken out. -/
def takeKey (key : String) : List (String × Nat) → Option ((String × Nat) × List (String × Nat))
  | [] => none
  | e :: rest =>
    if e.1 = key then some (e, rest) else (takeKey key rest).map fun (f, r) => (f, e :: r)

/-- `remove_key(key)`: hashlink's `remove_entry`, or the first queued entry of the key, whose
key leaves the set. -/
def removeKey (key : String) : CacheStrategy → Option (String × Nat) × CacheStrategy
  | .lru cache =>
    match takeKey key cache with
    | none => (none, .lru cache)
    | some (e, rest) => (some e, .lru rest)
  | .fifo queue keys =>
    if queue.isEmpty then (none, .fifo queue keys)
    else match takeKey key queue with
      | none => (none, .fifo queue keys)
      | some ((k, v), rest) => (some (k, v), .fifo rest (keys.erase k))

end CacheStrategy

/-- A call on the cache that changes it. -/
inductive CacheOp
  | insert (key : String) (value : Nat)
  | remove
  | removeKey (key : String)
  deriving DecidableEq, Repr

/-- The entry a call inserts. -/
def CacheOp.inserted : CacheOp → Option (String × Nat)
  | .insert key value => some (key, value)
  | _ => none

namespace CacheStrategy

/-- One call: what it returns and the cache after it. -/
def apply (c : CacheStrategy) : CacheOp → Option (String × Nat) × CacheStrategy
  | .insert key value => (none, c.insert key value)
  | .remove => c.remove
  | .removeKey key => c.removeKey key

/-- A sequence of calls: what each returned, and the cache at the end. -/
def run (c : CacheStrategy) : List CacheOp → List (Option (String × Nat)) × CacheStrategy
  | [] => ([], c)
  | op :: ops => ((c.apply op).1 :: (run (c.apply op).2 ops).1, (run (c.apply op).2 ops).2)

/-- The entries the `remove()` calls of a run returned, in order: what the cache evicted. -/
def evictions : List CacheOp → List (Option (String × Nat)) → List (String × Nat)
  | .remove :: ops, some e :: results => e :: evictions ops results
  | _ :: ops, _ :: results => evictions ops results
  | _, _ => []

end CacheStrategy

namespace CacheStrategy

theorem takeKey_eq_none {key : String} :
    ∀ {l : List (String × Nat)}, takeKey key l = none ↔ key ∉ l.map Prod.fst
  | [] => by simp [takeKey]
  | e :: rest => by
    by_cases he : e.1 = key
    · simp [takeKey, he]
    · simp [takeKey, he, Ne.symm he, takeKey_eq_none]

/-- The entry `remove_key` takes out has the key, and the rest is the queue with the first entry
of the key gone. -/
theorem takeKey_eq_some {key : String} :
    ∀ {l rest : List (String × Nat)} {e : String × Nat}, takeKey key l = some (e, rest) →
      e.1 = key ∧ rest.map Prod.fst = (l.map Prod.fst).erase key
  | [], _, _, h => by simp [takeKey] at h
  | x :: xs, rest, e, h => by
    by_cases hx : x.1 = key
    · simp only [takeKey, hx, if_true, Option.some.injEq, Prod.mk.injEq] at h
      obtain ⟨rfl, rfl⟩ := h
      simp [hx]
    · simp only [takeKey, hx, if_false, Option.map_eq_some'] at h
      obtain ⟨⟨f, r⟩, hr, heq⟩ := h
      obtain ⟨rfl, rfl⟩ := Prod.mk.inj heq
      obtain ⟨hf, hrest⟩ := takeKey_eq_some hr
      exact ⟨hf, by simp [hrest, List.erase_cons, hx]⟩

/-- `remove_key` takes one entry out of the queue and keeps the others in order. -/
theorem takeKey_perm {key : String} :
    ∀ {l rest : List (String × Nat)} {e : String × Nat}, takeKey key l = some (e, rest) →
      l.Perm (e :: rest) ∧ rest.Sublist l
  | [], _, _, h => by simp [takeKey] at h
  | x :: xs, rest, e, h => by
    by_cases hx : x.1 = key
    · simp only [takeKey, hx, if_true, Option.some.injEq, Prod.mk.injEq] at h
      obtain ⟨rfl, rfl⟩ := h
      exact ⟨List.Perm.refl _, List.sublist_cons_self _ _⟩
    · simp only [takeKey, hx, if_false, Option.map_eq_some'] at h
      obtain ⟨⟨f, r⟩, hr, heq⟩ := h
      obtain ⟨rfl, rfl⟩ := Prod.mk.inj heq
      obtain ⟨hp, hs⟩ := takeKey_perm hr
      exact ⟨(hp.cons x).trans (List.Perm.swap _ _ _), hs.cons₂ x⟩

theorem isSome_takeKey (key : String) (l : List (String × Nat)) :
    (takeKey key l).isSome = decide (key ∈ l.map Prod.fst) := by
  rw [Bool.eq_iff_iff, Option.isSome_iff_ne_none, Ne, takeKey_eq_none, not_not, decide_eq_true_iff]

/-- `remove_key` on the FIFO arm returns the first queued entry of the key. -/
theorem removeKey_fifo_fst (key : String) (keys : Finset String) :
    ∀ queue : List (String × Nat),
      ((CacheStrategy.fifo queue keys).removeKey key).1 = (takeKey key queue).map Prod.fst
  | [] => rfl
  | e :: rest => by
    simp only [removeKey, List.isEmpty_cons, Bool.false_eq_true, if_false]
    split <;> simp_all

/-- After `remove_key` the FIFO arm is unchanged, or has the first queued entry of the key taken
out and its key out of the set. -/
theorem removeKey_fifo_snd (key : String) (queue : List (String × Nat)) (keys : Finset String) :
    ((CacheStrategy.fifo queue keys).removeKey key).2 = .fifo queue keys ∨
      ∃ e rest, takeKey key queue = some (e, rest) ∧
        ((CacheStrategy.fifo queue keys).removeKey key).2 = .fifo rest (keys.erase e.1) := by
  dsimp only [removeKey]
  split_ifs
  · exact .inl rfl
  split
  · exact .inl rfl
  · exact .inr ⟨_, _, ‹_›, rfl⟩

end CacheStrategy

/-- The FIFO arm's representation: the set holds exactly the queued keys, each queued once. -/
structure FifoMirror (queue : List (String × Nat)) (keys : Finset String) : Prop where
  nodup : (queue.map Prod.fst).Nodup
  mirror : ∀ k, k ∈ keys ↔ k ∈ queue.map Prod.fst

namespace FifoMirror

variable {queue : List (String × Nat)} {keys : Finset String}

/-- `len()` counts the keys the cache holds. -/
theorem len_eq_card (h : FifoMirror queue keys) : (CacheStrategy.fifo queue keys).len = keys.card := by
  have hk : keys = (queue.map Prod.fst).toFinset := Finset.ext fun k => by
    rw [h.mirror, List.mem_toFinset]
  rw [hk, List.toFinset_card_of_nodup h.nodup, List.length_map]
  rfl

/-- `remove_key(k)` returns an entry exactly when `contains_key(k)` holds. -/
theorem removeKey_isSome_iff (h : FifoMirror queue keys) (k : String) :
    ((CacheStrategy.fifo queue keys).removeKey k).1.isSome = (CacheStrategy.fifo queue keys).containsKey k := by
  rw [CacheStrategy.removeKey_fifo_fst, Option.isSome_map', CacheStrategy.isSome_takeKey,
    CacheStrategy.containsKey]
  exact decide_eq_decide.mpr (h.mirror k).symm

end FifoMirror

namespace CacheStrategy

/-- The entries the cache holds: the LRU cache's, or the queue. -/
def entries : CacheStrategy → List (String × Nat)
  | .lru cache => cache
  | .fifo queue _ => queue

/-- A FIFO cache in its representation invariant. -/
def Mirrored : CacheStrategy → Prop
  | .lru _ => False
  | .fifo queue keys => FifoMirror queue keys

/-- Whether a call is no insert, or inserts a key the cache does not hold. -/
def fresh (c : CacheStrategy) : CacheOp → Bool
  | .insert key _ => !c.containsKey key
  | .remove | .removeKey _ => true

/-- Whether every `insert` of a run is of a key the cache does not hold at that point. -/
def insertsFresh (c : CacheStrategy) : List CacheOp → Bool
  | [] => true
  | op :: ops => c.fresh op && (c.apply op).2.insertsFresh ops

end CacheStrategy

namespace FifoMirror

theorem insert (h : FifoMirror queue keys) {key : String} (hk : key ∉ keys) (value : Nat) :
    FifoMirror (queue ++ [(key, value)]) (Insert.insert key keys) where
  nodup := by
    rw [List.map_append, List.nodup_append]
    exact ⟨h.nodup, List.nodup_singleton _, by simpa [← h.mirror] using hk⟩
  mirror k := by simp [h.mirror, or_comm]

theorem tail {key : String} {size : Nat} {rest : List (String × Nat)}
    (h : FifoMirror ((key, size) :: rest) keys) : FifoMirror rest (keys.erase key) where
  nodup := (List.nodup_cons.mp h.nodup).2
  mirror k := by
    have hnot := (List.nodup_cons.mp h.nodup).1
    rw [Finset.mem_erase, h.mirror, List.map_cons, List.mem_cons]
    constructor
    · rintro ⟨hne, rfl | hk⟩
      · exact absurd rfl hne
      · exact hk
    · exact fun hk => ⟨fun he => hnot (he ▸ hk), .inr hk⟩

theorem take (h : FifoMirror queue keys) {key : String} {e : String × Nat}
    {rest : List (String × Nat)} (ht : CacheStrategy.takeKey key queue = some (e, rest)) :
    FifoMirror rest (keys.erase e.1) := by
  obtain ⟨rfl, hrest⟩ := CacheStrategy.takeKey_eq_some ht
  refine ⟨hrest ▸ h.nodup.erase _, fun k => ?_⟩
  rw [hrest, h.nodup.mem_erase_iff, Finset.mem_erase, h.mirror]

end FifoMirror

namespace CacheStrategy

/-- Every call but the insert of a held key keeps a FIFO cache in its invariant. -/
theorem Mirrored.apply {c : CacheStrategy} (h : c.Mirrored) {op : CacheOp}
    (hfresh : c.fresh op = true) : (c.apply op).2.Mirrored := by
  obtain _ | ⟨queue, keys⟩ := c
  · exact h.elim
  cases op with
  | insert key value =>
    have hk : key ∉ keys := by simpa [fresh, containsKey] using hfresh
    exact FifoMirror.insert h hk value
  | remove =>
    rcases queue with _ | ⟨⟨key, size⟩, rest⟩
    · exact h
    · exact FifoMirror.tail h
  | removeKey key =>
    show ((CacheStrategy.fifo queue keys).removeKey key).2.Mirrored
    rcases removeKey_fifo_snd key queue keys with he | ⟨e, rest, ht, he⟩ <;> rw [he]
    · exact h
    · exact FifoMirror.take h ht

theorem Mirrored.run {c : CacheStrategy} (h : c.Mirrored) :
    ∀ ops, c.insertsFresh ops = true → (c.run ops).2.Mirrored
  | [], _ => h
  | op :: ops, hops => by
    obtain ⟨hop, hops⟩ := Bool.and_eq_true_iff.mp hops
    exact (h.apply hop).run ops hops

theorem mirrored_new_fifo : (new "fifo").Mirrored := by
  have hnew : new "fifo" = .fifo [] ∅ := rfl
  rw [hnew]
  exact ⟨List.nodup_nil, fun k => by simp⟩

/-- At a FIFO cache in its invariant, `contains_key` reports the queued keys, `len` counts the
distinct keys held, `remove_key` finds exactly the keys `contains_key` reports, and what
`remove` returns is no longer reported. -/
theorem Mirrored.observations {c : CacheStrategy} (h : c.Mirrored) :
    (∀ k, c.containsKey k = true ↔ k ∈ c.entries.map Prod.fst) ∧
    c.len = (c.entries.map Prod.fst).toFinset.card ∧
    (∀ k, (c.removeKey k).1.isSome = c.containsKey k) ∧
    (∀ k v, c.remove.1 = some (k, v) → c.remove.2.containsKey k = false) := by
  obtain _ | ⟨queue, keys⟩ := c
  · exact h.elim
  have hkeys : keys = (queue.map Prod.fst).toFinset :=
    Finset.ext fun k => by rw [h.mirror, List.mem_toFinset]
  refine ⟨fun k => by simp [containsKey, h.mirror, entries], ?_, h.removeKey_isSome_iff, ?_⟩
  · rw [h.len_eq_card, hkeys]
    rfl
  · intro k v hr
    rcases queue with _ | ⟨⟨key, size⟩, rest⟩
    · cases hr
    · simp only [remove, Option.some.injEq, Prod.mk.injEq] at hr
      obtain ⟨rfl, rfl⟩ := hr
      simp [containsKey, remove]

/-- Along every run of the FIFO arm, the entries `remove()` returned followed by the queue are a
sublist of the queued and inserted entries, and every entry returned or still queued is one of
those, once. -/
theorem fifo_run_queue :
    ∀ (ops : List CacheOp) (queue : List (String × Nat)) (keys : Finset String),
      (evictions ops ((CacheStrategy.fifo queue keys).run ops).1 ++
          ((CacheStrategy.fifo queue keys).run ops).2.entries).Sublist
        (queue ++ ops.filterMap CacheOp.inserted) ∧
      (((CacheStrategy.fifo queue keys).run ops).1.filterMap id ++
          ((CacheStrategy.fifo queue keys).run ops).2.entries).Perm
        (queue ++ ops.filterMap CacheOp.inserted)
  | [], queue, keys => by simp [run, evictions, entries]
  | .insert key value :: ops, queue, keys => by
    obtain ⟨hs, hp⟩ := fifo_run_queue ops (queue ++ [(key, value)]) (Insert.insert key keys)
    simp only [List.append_assoc, List.singleton_append] at hs hp
    exact ⟨hs, hp⟩
  | .remove :: ops, [], keys => fifo_run_queue ops [] keys
  | .remove :: ops, (key, size) :: rest, keys => by
    obtain ⟨hs, hp⟩ := fifo_run_queue ops rest (keys.erase key)
    exact ⟨hs.cons₂ _, hp.cons _⟩
  | .removeKey key :: ops, queue, keys => by
    have hrun : ∀ {r : Option (String × Nat)} {c : CacheStrategy},
        (CacheStrategy.fifo queue keys).removeKey key = (r, c) →
          (CacheStrategy.fifo queue keys).run (.removeKey key :: ops) = (r :: (c.run ops).1, (c.run ops).2) :=
      fun h => by simp only [run, apply, h]
    rcases ht : takeKey key queue with _ | ⟨⟨k, v⟩, rest⟩
    · have hq : (CacheStrategy.fifo queue keys).removeKey key = (none, .fifo queue keys) := by
        cases queue <;> simp [removeKey, ht]
      rw [hrun hq]
      exact fifo_run_queue ops queue keys
    · have hq : (CacheStrategy.fifo queue keys).removeKey key = (some (k, v), .fifo rest (keys.erase k)) := by
        cases queue with
        | nil => simp [takeKey] at ht
        | cons => simp [removeKey, ht]
      rw [hrun hq]
      obtain ⟨hs, hp⟩ := fifo_run_queue ops rest (keys.erase k)
      obtain ⟨hperm, hsub⟩ := takeKey_perm ht
      exact ⟨hs.trans (hsub.append_right _), (hp.cons _).trans (hperm.append_right _).symm⟩

end CacheStrategy

/-- From `CacheStrategy::new("fifo")`,
inserting a key twice and removing once returns the first entry and drops the key from the set
while its second entry stays queued: `contains_key` denies a key the queue holds, `len` counts an
entry no `contains_key` reports, and `remove_key` and the next `remove` still return the key. -/
theorem fifo_reinsert_desyncs (k : String) (v₁ v₂ : Nat) :
    ((CacheStrategy.new "fifo").run [.insert k v₁, .insert k v₂, .remove]).1 =
      [none, none, some (k, v₁)] ∧
    let c := ((CacheStrategy.new "fifo").run [.insert k v₁, .insert k v₂, .remove]).2
    c.containsKey k = false ∧ c.entries = [(k, v₂)] ∧ c.len = 1 ∧
      (c.removeKey k).1 = some (k, v₂) ∧ c.remove.1 = some (k, v₂) := by
  have hnew : CacheStrategy.new "fifo" = .fifo [] ∅ := rfl
  simp [hnew, CacheStrategy.run, CacheStrategy.apply, CacheStrategy.insert, CacheStrategy.remove,
    CacheStrategy.containsKey, CacheStrategy.entries, CacheStrategy.len, CacheStrategy.removeKey,
    CacheStrategy.takeKey]

/-- Along every run from `CacheStrategy::new("fifo")` that
inserts only keys the cache does not hold, with any keys and values and any removals,
`contains_key` reports exactly the queued keys, `len` counts the distinct keys held, `remove_key`
returns an entry exactly for a key `contains_key` reports, and `remove` returns a key that
`contains_key` no longer reports. -/
theorem fifo_fresh_run_mirrors (ops : List CacheOp)
    (h : (CacheStrategy.new "fifo").insertsFresh ops = true) :
    let c := ((CacheStrategy.new "fifo").run ops).2
    (∀ k, c.containsKey k = true ↔ k ∈ c.entries.map Prod.fst) ∧
      c.len = (c.entries.map Prod.fst).toFinset.card ∧
      (∀ k, (c.removeKey k).1.isSome = c.containsKey k) ∧
      (∀ k v, c.remove.1 = some (k, v) → c.remove.2.containsKey k = false) :=
  (CacheStrategy.mirrored_new_fifo.run ops h).observations

theorem fifo_fresh_run_mirrors_two_keys :
    (CacheStrategy.new "fifo").insertsFresh [.insert "a" 1, .insert "b" 2, .remove, .insert "a" 3] = true ∧
    let c := ((CacheStrategy.new "fifo").run [.insert "a" 1, .insert "b" 2, .remove, .insert "a" 3]).2
    (∀ k, c.containsKey k = true ↔ k ∈ c.entries.map Prod.fst) ∧
      c.len = (c.entries.map Prod.fst).toFinset.card ∧
      (∀ k, (c.removeKey k).1.isSome = c.containsKey k) ∧
      (∀ k v, c.remove.1 = some (k, v) → c.remove.2.containsKey k = false) :=
  ⟨by decide, fifo_fresh_run_mirrors _ (by decide)⟩

/-- Along every run of calls from
`CacheStrategy::new("fifo")`, re-inserts of held keys included, every inserted entry is returned
by `remove()` or `remove_key()` or is still queued, exactly once, and the entries `remove()`
returns, followed by the queue, come in the order they were inserted. -/
theorem fifo_evicts_in_insertion_order (ops : List CacheOp) :
    (CacheStrategy.evictions ops ((CacheStrategy.new "fifo").run ops).1 ++
        ((CacheStrategy.new "fifo").run ops).2.entries).Sublist (ops.filterMap CacheOp.inserted) ∧
      (((CacheStrategy.new "fifo").run ops).1.filterMap id ++
        ((CacheStrategy.new "fifo").run ops).2.entries).Perm (ops.filterMap CacheOp.inserted) :=
  CacheStrategy.fifo_run_queue ops [] ∅

example : CacheStrategy.evictions [.insert "a" 1, .insert "b" 2, .insert "a" 3, .remove, .remove]
    ((CacheStrategy.new "fifo").run [.insert "a" 1, .insert "b" 2, .insert "a" 3, .remove, .remove]).1 =
      [("a", 1), ("b", 2)] := by decide

end SchemaCatalog
