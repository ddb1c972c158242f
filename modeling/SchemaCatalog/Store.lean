import Mathlib.Data.List.Sort
import SchemaCatalog.Types

namespace SchemaCatalog

/-- The entries below `/schema/`, as `db::list` returns them: full keys and bytes, in order. -/
abbrev Store := List (String × Bytes)

/-- The order `sort_by(|a, b| a.0.cmp(&b.0))` puts buckets in. -/
def StartLe {α : Type} (a b : Int × α) : Prop := a.1 ≤ b.1

instance {α : Type} : DecidableRel (StartLe (α := α)) := fun a b =>
  inferInstanceAs (Decidable (a.1 ≤ b.1))

instance {α : Type} : IsTotal (Int × α) StartLe := ⟨fun a b => Int.le_total a.1 b.1⟩

instance {α : Type} : IsTrans (Int × α) StartLe := ⟨fun _ _ _ => Int.le_trans⟩

instance {α : Type} : IsRefl (Int × α) StartLe := ⟨fun a => Int.le_refl a.1⟩

/-- `sort_by` on start times, which is stable. -/
def sortByStartDt {α : Type} (l : List (Int × α)) : List (Int × α) := l.insertionSort StartLe

/-- The stream key and start time `cache` reads from a key of `db::list("/schema/")`:
`strip_prefix(..).unwrap()`, `split('/').take(4)` under `assert_eq!(len, 4)`, then
`parse().unwrap()`; `none` where one of them panics. -/
def cacheItem (key : String) : Option (String × Int) :=
  match stripPrefix key "/schema/" with
  | none => none
  | some rest =>
    match (splitSlash rest).take 4 with
    | [o, t, n, s] => (parseI64 s).map fun dt => (o ++ "/" ++ t ++ "/" ++ n, dt)
    | _ => none

/-- The buckets of stream `k`: the entries `cache` files under `k`, in listing order. -/
def Store.buckets (S : Store) (k : String) : List (Int × Bytes) :=
  S.filterMap fun e => match cacheItem e.1 with
    | some (k', dt) => if k' = k then some (dt, e.2) else none
    | none => none

/-- Whether a start time lies in a `(from, to)` range, both ends included; no range is all. -/
def inRange (r : Option (Int × Int)) (dt : Int) : Bool :=
  match r with
  | none => true
  | some (lo, hi) => lo ≤ dt && dt ≤ hi

/-- Modelled from the spec: `db::list_values_by_start_dt(prefix, range)` (outside src/), for the
prefix `/schema/o/t/n/` of a feed key, lists the stream's buckets in the range in ascending order
of start time; other prefixes list nothing here, and the event runs take any listing instead. -/
def Store.listValuesByStartDt (S : Store) (pfx : String) (range : Option (Int × Int)) :
    List (Int × Bytes) :=
  sortByStartDt (S.filterMap fun e => match cacheItem e.1 with
    | some (k, dt) => if "/schema/" ++ k ++ "/" = pfx ∧ inRange range dt = true then some (dt, e.2)
      else none
    | none => none)

/-- `db::list_values_by_start_dt` as a handler calls it; `none` is an `Err` from the store. -/
abbrev Lister := String → Option (Int × Int) → Option (List (Int × Bytes))

def Store.lister (S : Store) : Lister := fun pfx range => some (S.listValuesByStartDt pfx range)

theorem listValuesByStartDt_stream (S : Store) (k : String) (r : Option (Int × Int)) :
    S.listValuesByStartDt ("/schema/" ++ k ++ "/") r =
      sortByStartDt ((S.buckets k).filter fun b => inRange r b.1) := by
  unfold Store.listValuesByStartDt Store.buckets
  congr 1
  induction S with
  | nil => rfl
  | cons e S ih =>
    simp only [List.filterMap_cons]
    rcases hc : cacheItem e.1 with _ | ⟨k', dt⟩
    · exact ih
    · by_cases hk : k' = k
      · subst hk
        by_cases hr : inRange r dt = true <;> simp [hr, ih]
      · have hne : ¬ ("/schema/" ++ k' ++ "/" = "/schema/" ++ k ++ "/") := fun h =>
          hk (append_left_cancel (append_right_cancel h))
        simp [hk, hne, ih]

/-- In a list ordered pairwise, every element is the last or stands in the order before it. -/
theorem Pairwise.rel_getLast? {α : Type} {R : α → α → Prop} {l : List α} {e : α}
    (h : l.Pairwise R) (he : l.getLast? = some e) : ∀ x ∈ l, x = e ∨ R x e := by
  obtain ⟨init, rfl⟩ : ∃ init, l = init ++ [e] :=
    ⟨l.dropLast, (List.dropLast_append_getLast? _ he).symm⟩
  intro x hx
  rcases List.mem_append.mp hx with hx | hx
  · exact .inr ((List.pairwise_append.mp h).2.2 x hx e (List.mem_singleton_self e))
  · exact .inl (List.mem_singleton.mp hx)

theorem sorted_sortByStartDt {α : Type} (l : List (Int × α)) : (sortByStartDt l).Sorted StartLe :=
  List.sorted_insertionSort _ l

theorem sortByStartDt_perm {α : Type} (l : List (Int × α)) : List.Perm (sortByStartDt l) l :=
  List.perm_insertionSort _ l

theorem orderedInsert_of_forall {α : Type} {x : Int × α} {L : List (Int × α)}
    (h : ∀ z ∈ L, StartLe x z) : L.orderedInsert StartLe x = x :: L := by
  cases L with
  | nil => rfl
  | cons y L => exact List.orderedInsert_of_le _ _ (h y (List.mem_cons_self y L))

/-- Filtering commutes with the stable sort: the filtered elements keep their places. -/
theorem filter_orderedInsert {α : Type} (p : Int × α → Bool) (x : Int × α) :
    ∀ L : List (Int × α), L.Sorted StartLe →
      (L.orderedInsert StartLe x).filter p =
        if p x then ((L.filter p).orderedInsert StartLe x) else L.filter p
  | [], _ => by by_cases h : p x <;> simp [h]
  | y :: L, hs => by
    by_cases hxy : StartLe x y
    · have hall : ∀ z ∈ (y :: L).filter p, StartLe x z := fun z hz =>
        (List.mem_cons.mp (List.mem_of_mem_filter hz)).elim (· ▸ hxy)
          (fun hz => le_trans hxy (List.rel_of_sorted_cons hs z hz))
      rw [List.orderedInsert_of_le _ _ hxy, orderedInsert_of_forall hall]
      by_cases hx : p x <;> simp [hx]
    · have hL := filter_orderedInsert p x L hs.of_cons
      simp only [List.orderedInsert, hxy, if_false, List.filter_cons]
      by_cases hy : p y <;> by_cases hx : p x <;>
        simp only [hy, hx, hL, List.orderedInsert, hxy, ↓reduceIte, Bool.false_eq_true]

theorem filter_sortByStartDt {α : Type} (p : Int × α → Bool) (l : List (Int × α)) :
    (sortByStartDt l).filter p = sortByStartDt (l.filter p) := by
  induction l with
  | nil => rfl
  | cons x l ih =>
    simp only [sortByStartDt, List.insertionSort] at ih ⊢
    rw [filter_orderedInsert p x _ (List.sorted_insertionSort _ l), ih]
    by_cases hx : p x <;> simp [hx]

/-- A list sorted by start time is its part below a bound followed by the rest. -/
theorem sorted_split {α : Type} (w : Int) :
    ∀ l : List (Int × α), l.Sorted StartLe →
      l = l.filter (fun b => decide (b.1 < w)) ++ l.filter (fun b => !decide (b.1 < w))
  | [], _ => rfl
  | x :: l, hs => by
    by_cases hx : x.1 < w
    · simp only [List.filter_cons, hx, decide_True, Bool.not_true, ↓reduceIte, Bool.false_eq_true,
        List.cons_append, ← sorted_split w l hs.of_cons]
    · have hge : ∀ y ∈ l, ¬ y.1 < w := fun y hy =>
        not_lt.mpr (le_trans (not_lt.mp hx) (List.rel_of_sorted_cons hs y hy))
      have h1 : l.filter (fun b => decide (b.1 < w)) = [] :=
        List.filter_eq_nil_iff.mpr (by simpa only [decide_eq_true_eq] using hge)
      have h2 : l.filter (fun b => !decide (b.1 < w)) = l :=
        List.filter_eq_self.mpr (by simpa only [Bool.not_eq_true', decide_eq_false_iff_not] using hge)
      simp only [List.filter_cons, hx, decide_False, Bool.not_false, ↓reduceIte, Bool.false_eq_true,
        h1, h2, List.nil_append]

theorem sortByStartDt_split {α : Type} (w : Int) (l : List (Int × α)) :
    sortByStartDt l = sortByStartDt (l.filter fun b => decide (b.1 < w)) ++
      sortByStartDt (l.filter fun b => !decide (b.1 < w)) := by
  rw [← filter_sortByStartDt, ← filter_sortByStartDt]
  exact sorted_split w _ (sorted_sortByStartDt l)

end SchemaCatalog
