import Mathlib.Data.Finmap
import Mathlib.Algebra.BigOperators.Group.Finset

namespace SchemaCatalog

namespace Promql

/-- A label of a series. -/
structure Label where
  name : String
  value : String
  deriving DecidableEq, Repr

/-- The labels of a series, in order. -/
abbrev Labels := List Label

/-- `Sample { timestamp, value }`. -/
structure Sample (V : Type) where
  timestamp : Int
  value : V
  deriving DecidableEq, Repr

/-- `InstantValue { labels, sample }`. -/
structure InstantValue (V : Type) where
  labels : Labels
  sample : Sample V
  deriving DecidableEq, Repr

/-- The `Value`s an aggregation receives: a vector, a float, nothing, or another kind (instant,
range, matrix, sample, string), which the aggregations here reject. -/
inductive Value (V : Type)
  | vector (values : List (InstantValue V))
  | float (value : V)
  | none
  | other
  deriving DecidableEq, Repr

/-- `LabelModifier::Include` (`by (...)`) and `LabelModifier::Exclude` (`without (...)`). -/
inductive LabelModifier
  | include (labels : List String)
  | exclude (labels : List String)
  deriving DecidableEq, Repr

/-- `NAME_LABEL`. -/
def nameLabel : String := "__name__"

def labelsToInclude (includeLabels : List String) (actualLabels : Labels) : Labels :=
  actualLabels.filter fun label => label.name ∈ includeLabels

def labelsToExclude (excludeLabels : List String) (actualLabels : Labels) : Labels :=
  actualLabels.filter fun label => label.name ∉ excludeLabels ∧ label.name ≠ nameLabel

/-- The labels the `by`, `without` and modifier-free loops of `eval_arithmetic`,
`eval_std_dev_var` and `eval_top` group a sample by. -/
def projectLabels : Option LabelModifier → Labels → Labels
  | some (.include labels), actual => labelsToInclude labels actual
  | some (.exclude labels), actual => labelsToExclude labels actual
  | none, _ => []

/-- A `HashMap<u64, _>` keyed by label signatures. -/
abbrev ScoreMap (β : Type) := Finmap fun _ : UInt64 => β

/-- `score_values.entry(hash).or_insert_with(|| init)`, then `update` of the entry. -/
def upsert {β : Type} (scoreValues : ScoreMap β) (hash : UInt64) (init : β) (update : β → β) :
    ScoreMap β :=
  scoreValues.insert hash (update ((scoreValues.lookup hash).getD init))

section Fold

variable {α β : Type} (key : α → UInt64) (init : α → β) (update : α → β → β)

/-- After a fold of `upsert` over samples, the entry of `k` is the one `k` had, or the one the
first sample of `k` starts, updated by every sample of `k` in order. -/
theorem lookup_foldl_upsert :
    ∀ (l : List α) (m : ScoreMap β) (k : UInt64),
      (l.foldl (fun m x => upsert m (key x) (init x) (update x)) m).lookup k =
        ((m.lookup k).or ((l.find? fun x => key x = k).map init)).map
          fun e => (l.filter fun x => key x = k).foldl (fun e y => update y e) e
  | [], m, k => by rw [List.foldl_nil]; cases m.lookup k <;> rfl
  | x :: l, m, k => by
    rw [List.foldl_cons, lookup_foldl_upsert l _ k]
    by_cases hx : key x = k
    · subst hx
      cases h : m.lookup (key x) <;>
        simp [upsert, h, Finmap.lookup_insert, List.find?_cons, List.filter_cons]
    · simp [upsert, Finmap.lookup_insert_of_ne _ (Ne.symm hx), List.find?_cons, List.filter_cons, hx]

theorem mem_foldl_upsert (l : List α) (k : UInt64) :
    k ∈ l.foldl (fun m x => upsert m (key x) (init x) (update x)) ∅ ↔ ∃ x ∈ l, key x = k := by
  rw [← Finmap.lookup_isSome, lookup_foldl_upsert, Finmap.lookup_empty, Option.none_or,
    Option.isSome_map', Option.isSome_map', List.find?_isSome]
  simp

/-- From no entry, the entry of `k` is started by the first sample of `k` and updated by every
sample of `k`. -/
theorem lookup_foldl_upsert_empty (l : List α) (k : UInt64) :
    (l.foldl (fun m x => upsert m (key x) (init x) (update x)) ∅).lookup k =
      (l.find? fun x => key x = k).map fun x =>
        (l.filter fun y => key y = k).foldl (fun e y => update y e) (init x) := by
  rw [lookup_foldl_upsert, Finmap.lookup_empty, Option.none_or, Option.map_map]
  rfl

/-- The entries of a fold of `upsert` from no entry are keyed by the samples' keys. -/
theorem keys_foldl_upsert (l : List α) :
    (l.foldl (fun m x => upsert m (key x) (init x) (update x)) ∅).keys = (l.map key).toFinset :=
  Finset.ext fun k => by
    rw [Finmap.mem_keys, mem_foldl_upsert, List.mem_toFinset, List.mem_map]

end Fold

/-- The samples of the keys of a list, counted key by key, are the whole list. -/
theorem sum_length_filter_key {α β : Type} [DecidableEq β] (f : α → β) (l : List α) :
    ∑ k ∈ (l.map f).toFinset, (l.filter fun x => f x = k).length = l.length := by
  conv_rhs => rw [← l.length_map f, ← List.sum_toFinset_count_eq_length]
  refine Finset.sum_congr rfl fun k _ => ?_
  rw [List.count_eq_countP, List.countP_map, List.countP_eq_length_filter]
  rfl

variable {V : Type}

/-- The signature `eval_arithmetic`, `eval_std_dev_var` and `eval_top` file a sample under. -/
def sampleSignature (signature : Labels → UInt64) (param : Option LabelModifier)
    (item : InstantValue V) : UInt64 :=
  signature (projectLabels param item.labels)

/-- The samples filed under signature `k`, in input order. -/
def sampleGroup (signature : Labels → UInt64) (param : Option LabelModifier)
    (data : List (InstantValue V)) (k : UInt64) : List (InstantValue V) :=
  data.filter fun x => sampleSignature signature param x = k

structure ArithmeticItem (V : Type) where
  labels : Labels
  value : V
  num : Nat

def evalArithmeticProcessor [Zero V] (signature : Labels → UInt64)
    (scoreValues : ScoreMap (ArithmeticItem V)) (fHandler : V → V → V) (sumLabels : Labels)
    (value : V) : ScoreMap (ArithmeticItem V) :=
  upsert scoreValues (signature sumLabels) ⟨sumLabels, 0, 0⟩ fun entry =>
    { entry with value := fHandler entry.value value, num := entry.num + 1 }

/-- `eval_arithmetic(param, data, f_name, f_handler)`; the error is the text of the
`DataFusionError::Plan`. -/
def evalArithmetic [Zero V] (signature : Labels → UInt64) (param : Option LabelModifier)
    (data : Value V) (fName : String) (fHandler : V → V → V) :
    Except String (Option (ScoreMap (ArithmeticItem V))) :=
  match data with
  | .vector data => .ok (some (data.foldl (fun scoreValues item =>
      evalArithmeticProcessor signature scoreValues fHandler (projectLabels param item.labels)
        item.sample.value) ∅))
  | .none => .ok none
  | _ => .error ("[" ++ fName ++ "] function only accept vector values")

/-- The entry update folds the handler over the values and counts them. -/
theorem foldl_arithmetic_update (fHandler : V → V → V) :
    ∀ (g : List (InstantValue V)) (e : ArithmeticItem V),
      g.foldl (fun e y => { e with value := fHandler e.value y.sample.value, num := e.num + 1 }) e =
        ⟨e.labels, (g.map (·.sample.value)).foldl fHandler e.value, e.num + g.length⟩
  | [], _ => rfl
  | y :: g, e => by
    rw [List.foldl_cons, foldl_arithmetic_update fHandler g]
    simp only [List.map_cons, List.foldl_cons, List.length_cons, Nat.add_right_comm _ 1, Nat.add_assoc]

section Arithmetic

variable [Zero V] (signature : Labels → UInt64) (param : Option LabelModifier)
  (data : List (InstantValue V)) (fHandler : V → V → V)

theorem evalArithmetic_vector (fName : String) :
    evalArithmetic signature param (.vector data) fName fHandler =
      .ok (some (data.foldl (fun m x => upsert m (sampleSignature signature param x)
        ⟨projectLabels param x.labels, 0, 0⟩
        fun e => { e with value := fHandler e.value x.sample.value, num := e.num + 1 }) ∅)) :=
  rfl

/-- `eval_arithmetic` keeps one entry per signature of the samples; the entry counts the samples
of that signature and folds the handler over their values from `0`, in input order. -/
theorem evalArithmetic_entries (fName : String) :
    ∃ m, evalArithmetic signature param (.vector data) fName fHandler = .ok (some m) ∧
      m.keys = (data.map (sampleSignature signature param)).toFinset ∧
      ∀ k ∈ m.keys, ∃ e, m.lookup k = some e ∧
        e.num = (sampleGroup signature param data k).length ∧
        e.value = ((sampleGroup signature param data k).map (·.sample.value)).foldl fHandler 0 := by
  refine ⟨_, evalArithmetic_vector .., keys_foldl_upsert .., fun k hk => ?_⟩
  rw [Finmap.mem_keys, ← Finmap.lookup_isSome, lookup_foldl_upsert_empty] at hk
  rw [lookup_foldl_upsert_empty]
  obtain ⟨x, hx⟩ := Option.isSome_iff_exists.mp (Option.isSome_map' .. ▸ hk)
  simp only [hx, Option.map_some', foldl_arithmetic_update, Nat.zero_add]
  exact ⟨_, rfl, rfl, rfl⟩

end Arithmetic

structure StatisticItems (V : Type) where
  labels : Labels
  values : List V
  currentCount : Int
  currentMean : V
  currentSum : V

def evalStdDevVarProcessor [Zero V] [Add V] [Div V] [IntCast V] (signature : Labels → UInt64)
    (scoreValues : ScoreMap (StatisticItems V)) (sumLabels : Labels) (value : V) :
    ScoreMap (StatisticItems V) :=
  upsert scoreValues (signature sumLabels) ⟨sumLabels, [], 0, 0, 0⟩ fun entry =>
    let currentCount := entry.currentCount + 1
    let currentSum := entry.currentSum + value
    { entry with values := entry.values ++ [value], currentCount, currentSum,
                 currentMean := currentSum / (currentCount : V) }

def evalStdDevVar [Zero V] [Add V] [Div V] [IntCast V] (signature : Labels → UInt64)
    (param : Option LabelModifier) (data : Value V) (fName : String) :
    Except String (Option (ScoreMap (StatisticItems V))) :=
  match data with
  | .vector data => .ok (some (data.foldl (fun scoreValues item =>
      evalStdDevVarProcessor signature scoreValues (projectLabels param item.labels)
        item.sample.value) ∅))
  | .none => .ok none
  | _ => .error ("[" ++ fName ++ "] function only accepts vector values")

/-- The entry update appends each value and counts it. -/
theorem foldl_stdDevVar_update [Zero V] [Add V] [Div V] [IntCast V] :
    ∀ (g : List (InstantValue V)) (e : StatisticItems V),
      let e' := g.foldl (fun entry y =>
        let currentCount := entry.currentCount + 1
        let currentSum := entry.currentSum + y.sample.value
        { entry with values := entry.values ++ [y.sample.value], currentCount, currentSum,
                     currentMean := currentSum / (currentCount : V) }) e
      e'.values = e.values ++ g.map (·.sample.value) ∧ e'.currentCount = e.currentCount + g.length
  | [], _ => ⟨(List.append_nil _).symm, (Int.add_zero _).symm⟩
  | y :: g, e => by
    refine (foldl_stdDevVar_update g _).imp (fun h => h.trans ?_) (fun h => h.trans ?_)
    · simp
    · simp only [List.length_cons]
      omega

section StdDevVar

variable [Zero V] [Add V] [Div V] [IntCast V] (signature : Labels → UInt64)
  (param : Option LabelModifier) (data : List (InstantValue V))

theorem evalStdDevVar_vector (fName : String) :
    evalStdDevVar signature param (.vector data) fName =
      .ok (some (data.foldl (fun m x => upsert m (sampleSignature signature param x)
        ⟨projectLabels param x.labels, [], 0, 0, 0⟩ fun entry =>
          let currentCount := entry.currentCount + 1
          let currentSum := entry.currentSum + x.sample.value
          { entry with values := entry.values ++ [x.sample.value], currentCount, currentSum,
                       currentMean := currentSum / (currentCount : V) }) ∅)) :=
  rfl

/-- `eval_std_dev_var` keeps one entry per signature of the samples; the entry holds the values
of that signature's samples in input order, and counts them. -/
theorem evalStdDevVar_entries (fName : String) :
    ∃ m, evalStdDevVar signature param (.vector data) fName = .ok (some m) ∧
      m.keys = (data.map (sampleSignature signature param)).toFinset ∧
      ∀ k ∈ m.keys, ∃ e, m.lookup k = some e ∧
        e.values = (sampleGroup signature param data k).map (·.sample.value) ∧
        e.currentCount = e.values.length := by
  refine ⟨_, evalStdDevVar_vector .., keys_foldl_upsert .., fun k hk => ?_⟩
  rw [Finmap.mem_keys, ← Finmap.lookup_isSome, lookup_foldl_upsert_empty] at hk
  rw [lookup_foldl_upsert_empty]
  obtain ⟨x, hx⟩ := Option.isSome_iff_exists.mp (Option.isSome_map' .. ▸ hk)
  obtain ⟨hv, hc⟩ := foldl_stdDevVar_update (sampleGroup signature param data k)
    ⟨projectLabels param x.labels, [], 0, 0, 0⟩
  refine ⟨_, by rw [hx]; rfl, hv, ?_⟩
  rw [hc, hv]
  simp

end StdDevVar

/-- Grouped aggregation files every sample once: `eval_arithmetic` keeps one entry per signature
of the samples, whose count is the number of samples of that signature and whose value folds the
handler from `0` over their values in input order, so the counts add up to the input's length;
`eval_std_dev_var` keeps one entry per signature, holding those values in input order and their
count. -/
theorem grouped_aggregation_files_each_sample_once [Zero V] [Add V] [Div V] [IntCast V]
    (signature : Labels → UInt64) (param : Option LabelModifier) (data : List (InstantValue V))
    (fName : String) (fHandler : V → V → V) :
    (∃ m, evalArithmetic signature param (.vector data) fName fHandler = .ok (some m) ∧
      m.keys = (data.map (sampleSignature signature param)).toFinset ∧
      (∀ k ∈ m.keys, ∃ e, m.lookup k = some e ∧
        e.num = (sampleGroup signature param data k).length ∧
        e.value = ((sampleGroup signature param data k).map (·.sample.value)).foldl fHandler 0) ∧
      ∑ k ∈ m.keys, ((m.lookup k).map (·.num)).getD 0 = data.length) ∧
    (∃ m, evalStdDevVar signature param (.vector data) fName = .ok (some m) ∧
      m.keys = (data.map (sampleSignature signature param)).toFinset ∧
      ∀ k ∈ m.keys, ∃ e, m.lookup k = some e ∧
        e.values = (sampleGroup signature param data k).map (·.sample.value) ∧
        e.currentCount = e.values.length) := by
  refine ⟨?_, evalStdDevVar_entries signature param data fName⟩
  obtain ⟨m, hm, hkeys, hentry⟩ := evalArithmetic_entries signature param data fHandler fName
  refine ⟨m, hm, hkeys, hentry, ?_⟩
  calc ∑ k ∈ m.keys, ((m.lookup k).map (·.num)).getD 0
      = ∑ k ∈ m.keys, (sampleGroup signature param data k).length :=
        Finset.sum_congr rfl fun k hk => by
          obtain ⟨e, he, hnum, -⟩ := hentry k hk
          rw [he, Option.map_some', Option.getD_some, hnum]
    _ = data.length := by rw [hkeys]; exact sum_length_filter_key _ data

structure CountValuesItem where
  labels : Labels
  count : Nat

def evalCountValuesProcessor (signature : Labels → UInt64) (scoreValues : ScoreMap CountValuesItem)
    (sumLabels : Labels) : ScoreMap CountValuesItem :=
  upsert scoreValues (signature sumLabels) ⟨sumLabels, 0⟩ fun entry =>
    { entry with count := entry.count + 1 }

/-- The labels `eval_count_values` groups a sample by: under `by` and `without` the sample's
labels filtered with the label name added to the list, and without a modifier the one label
`label_name` set to the value's text (`Labels::set` on empty labels, `f64::to_string` given as
`toStr`). -/
def countValuesLabels (toStr : V → String) (labelName : String) :
    Option LabelModifier → InstantValue V → Labels
  | some (.include labels), item => labelsToInclude (labels ++ [labelName]) item.labels
  | some (.exclude labels), item => labelsToExclude (labels ++ [labelName]) item.labels
  | none, item => [⟨labelName, toStr item.sample.value⟩]

def evalCountValues (toStr : V → String) (signature : Labels → UInt64) (param : Option LabelModifier)
    (data : Value V) (fName labelName : String) : Except String (Option (ScoreMap CountValuesItem)) :=
  match data with
  | .vector data => .ok (some (data.foldl (fun scoreValues item =>
      evalCountValuesProcessor signature scoreValues (countValuesLabels toStr labelName param item)) ∅))
  | .none => .ok none
  | _ => .error ("[" ++ fName ++ "] function only accept vector values")

/-- The entry update counts the samples. -/
theorem foldl_count_update :
    ∀ (g : List (InstantValue V)) (e : CountValuesItem),
      g.foldl (fun e _ => { e with count := e.count + 1 }) e = ⟨e.labels, e.count + g.length⟩
  | [], _ => rfl
  | _ :: g, e => by
    rw [List.foldl_cons, foldl_count_update g]
    simp only [List.length_cons, Nat.add_right_comm _ 1, Nat.add_assoc]

section CountValues

variable (toStr : V → String) (signature : Labels → UInt64) (param : Option LabelModifier)
  (fName labelName : String)

theorem evalCountValues_vector (data : List (InstantValue V)) :
    evalCountValues toStr signature param (.vector data) fName labelName =
      .ok (some (data.foldl (fun m x => upsert m (signature (countValuesLabels toStr labelName param x))
        ⟨countValuesLabels toStr labelName param x, 0⟩ fun e => { e with count := e.count + 1 }) ∅)) :=
  rfl

/-- `eval_count_values` keeps one entry per signature of the samples' group labels, and the entry
counts the samples filed under it. -/
theorem evalCountValues_entries (data : List (InstantValue V)) :
    ∃ m, evalCountValues toStr signature param (.vector data) fName labelName = .ok (some m) ∧
      m.keys = (data.map fun x => signature (countValuesLabels toStr labelName param x)).toFinset ∧
      ∀ k, (m.lookup k).map (·.count) =
        (data.find? fun x => signature (countValuesLabels toStr labelName param x) = k).map fun _ =>
          (data.filter fun x => signature (countValuesLabels toStr labelName param x) = k).length := by
  refine ⟨_, evalCountValues_vector .., keys_foldl_upsert .., fun k => ?_⟩
  simp only [lookup_foldl_upsert_empty, Option.map_map, Function.comp_def, foldl_count_update,
    Nat.zero_add]

/-- Without a modifier the group label is the value's text, so samples of values with different
texts are filed apart whenever the signature tells their labels apart. -/
theorem countValuesLabels_none_separates (x y : InstantValue V)
    (h : toStr x.sample.value ≠ toStr y.sample.value) :
    countValuesLabels toStr labelName none x ≠ countValuesLabels toStr labelName none y := by
  simp [countValuesLabels, h]

/-- Under `by (...)` and `without (...)` the group labels are the sample's own labels, filtered:
the value is never part of them. -/
theorem countValuesLabels_some (m : LabelModifier) (x : InstantValue V) (s : Sample V) :
    countValuesLabels toStr labelName (some m) ⟨x.labels, s⟩ =
      countValuesLabels toStr labelName (some m) x := by
  cases m <;> rfl

/-- Under `by (...)` and `without (...)`, `eval_count_values` files two samples with the same
labels in one group whatever their values, and counts two there. -/
theorem count_values_by_merges_distinct_values (m : LabelModifier) (labels : Labels)
    (s₁ s₂ : Sample V) :
    ∃ r, evalCountValues toStr signature (some m) (.vector [⟨labels, s₁⟩, ⟨labels, s₂⟩]) fName
        labelName = .ok (some r) ∧
      ∃ k, r.keys = {k} ∧ (r.lookup k).map (·.count) = some 2 := by
  obtain ⟨r, hr, hkeys, hcount⟩ :=
    evalCountValues_entries toStr signature (some m) fName labelName [⟨labels, s₁⟩, ⟨labels, s₂⟩]
  have hsame := countValuesLabels_some toStr labelName m ⟨labels, s₁⟩ s₂
  refine ⟨r, hr, signature (countValuesLabels toStr labelName (some m) ⟨labels, s₁⟩), ?_,
    (hcount _).trans ?_⟩
  · rw [hkeys, List.map_cons, List.map_cons, List.map_nil, hsame]
    simp
  · simp [hsame]

end CountValues

end Promql

end SchemaCatalog
