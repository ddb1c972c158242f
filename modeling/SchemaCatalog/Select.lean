import SchemaCatalog.Types

namespace SchemaCatalog

/-- `metadata.get("end_dt").unwrap_or(&"0".to_string()).parse().unwrap()`; `none` where the
`unwrap` of the parse panics. A settings value is JSON text, which never parses as an integer. -/
def schemaEndDt (schema : Schema) : Option Int :=
  match schema.metadata.lookup "end_dt" with
  | none => parseI64 "0"
  | some (.text t) => parseI64 t
  | some (.settingsJson _) => none

/-- The loop of `filter_schema_version_id` over `schemas.iter().enumerate()`: the position of
the first version whose end lies past `endDt`; `none` where a parse panics first. -/
def firstVersionAfter (endDt : Int) : List (Nat × Schema) → Option (Option Nat)
  | [] => some none
  | (i, schema) :: rest => (schemaEndDt schema).bind fun e =>
    if endDt < e then some (some i) else firstVersionAfter endDt rest

/-- `filter_schema_version_id(schemas, _start_dt, end_dt)`; `none` where it panics. -/
def filterSchemaVersionId (schemas : List Schema) (_startDt endDt : Int) : Option (Option Nat) :=
  (firstVersionAfter endDt schemas.enum).map fun found =>
    found.or (if 0 < schemas.length then some (schemas.length - 1) else none)

theorem firstVersionAfter_enumFrom (endDt : Int) :
    ∀ (l : List Schema) (k : Nat), firstVersionAfter endDt (l.enumFrom (k + 1)) =
      (firstVersionAfter endDt (l.enumFrom k)).map (Option.map (· + 1))
  | [], _ => rfl
  | s :: l, k => by
    simp only [List.enumFrom_cons, firstVersionAfter]
    cases schemaEndDt s with
    | none => rfl
    | some e =>
      simp only [Option.some_bind]
      split_ifs
      · rfl
      · exact firstVersionAfter_enumFrom endDt l (k + 1)

/-- The end times a list of versions carries: `e i` at every position but the last, ascending,
and the last version current. -/
structure EndChain (l : List Schema) (e : Nat → Int) : Prop where
  ends : ∀ i s, l.get? i = some s → i + 1 < l.length → schemaEndDt s = some (e i)
  current : ∀ s ∈ l.getLast?, schemaEndDt s = some 0
  ascending : ∀ i, i + 2 < l.length → e i < e (i + 1)

theorem EndChain.le {l : List Schema} {e : Nat → Int} (h : EndChain l e) {i : Nat} :
    ∀ {j}, i ≤ j → j + 1 < l.length → e i ≤ e j
  | 0, hij, _ => by rw [Nat.le_zero.mp hij]
  | j + 1, hij, hj => by
    rcases Nat.lt_or_eq_of_le hij with hij | rfl
    · exact le_trans (h.le (Nat.le_of_lt_succ hij) (by omega)) (h.ascending j hj).le
    · exact le_rfl

/-- Past its first version, a chain is a chain of the rest, one position on. -/
theorem EndChain.tail {s s' : Schema} {rest : List Schema} {e : Nat → Int}
    (h : EndChain (s :: s' :: rest) e) : EndChain (s' :: rest) fun i => e (i + 1) where
  ends i x hx hi := h.ends (i + 1) x hx (by simp only [List.length_cons] at hi ⊢; omega)
  current x hx := h.current x (by rwa [List.getLast?_cons_cons])
  ascending i hi := h.ascending (i + 1) (by simp only [List.length_cons] at hi ⊢; omega)

/-- The version whose validity interval holds `q`: from the previous end, before its own. -/
def Selects (q : Int) (e : Nat → Int) (n i : Nat) : Prop :=
  i < n ∧ (i = 0 ∨ e (i - 1) ≤ q) ∧ (i = n - 1 ∨ q < e i)

/-- Past a first end at or below `q`, the interval holding `q` is one further along. -/
theorem selects_succ_iff {q : Int} {e : Nat → Int} {n i : Nat} (h0 : e 0 ≤ q) :
    Selects q e (n + 1) (i + 1) ↔ Selects q (fun j => e (j + 1)) n i := by
  unfold Selects
  rcases i with _ | i <;>
    simp only [Nat.add_sub_cancel, zero_add, Nat.zero_sub, Nat.sub_self, true_or, true_and] <;> omega

/-- Below the first end of a chain of two or more versions, only the first interval holds `q`. -/
theorem EndChain.selects_iff_zero {l : List Schema} {e : Nat → Int} {q : Int} (h : EndChain l e)
    (hl : 2 ≤ l.length) (hq : q < e 0) (i : Nat) : Selects q e l.length i ↔ i = 0 := by
  refine ⟨fun ⟨hi, hprev, _⟩ => hprev.resolve_right fun hle => ?_, fun hi => ?_⟩
  · have := h.le (Nat.zero_le (i - 1)) (by omega)
    omega
  · subst hi
    exact ⟨by omega, .inl rfl, .inr hq⟩

/-- Over a chain, the loop with the last version as its fallback picks the version whose
interval holds `q`, and only that one. -/
theorem firstVersionAfter_chain (q : Int) {l : List Schema} :
    ∀ {e : Nat → Int}, l ≠ [] → EndChain l e →
      ∃ r, firstVersionAfter q l.enum = some r ∧
        ∀ i, r.or (some (l.length - 1)) = some i ↔ Selects q e l.length i := by
  induction l with
  | nil => exact fun hl => absurd rfl hl
  | cons s rest ih =>
    intro e _ h
    cases rest with
    | nil =>
      have hs : schemaEndDt s = some 0 := h.current s rfl
      refine ⟨if q < 0 then some 0 else none, ?_, fun i => ?_⟩
      · simp only [List.enum_cons, List.enumFrom_nil, firstVersionAfter, hs, Option.some_bind]
        split_ifs <;> rfl
      · simp only [Selects, List.length_singleton]
        split_ifs <;> simp only [Option.or_some, Option.none_or, Option.some.injEq] <;> omega
    | cons s' rest =>
      have hs : schemaEndDt s = some (e 0) := h.ends 0 s rfl (by simp only [List.length_cons]; omega)
      by_cases hq : q < e 0
      · refine ⟨some 0, by simp only [List.enum_cons, firstVersionAfter, hs, Option.some_bind, if_pos hq],
          fun i => ?_⟩
        rw [h.selects_iff_zero (by simp only [List.length_cons]; omega) hq, Option.or_some,
          Option.some.injEq, eq_comm]
      obtain ⟨r, hr, hsel⟩ := ih (List.cons_ne_nil s' rest) h.tail
      refine ⟨r.map (· + 1), ?_, fun i => ?_⟩
      · have h1 : firstVersionAfter q ((s' :: rest).enumFrom 1) = some (r.map (· + 1)) := by
          rw [firstVersionAfter_enumFrom q (s' :: rest) 0]
          exact congrArg (Option.map (Option.map (· + 1))) hr
        show ((schemaEndDt s).bind fun e =>
          if q < e then some (some 0) else firstVersionAfter q ((s' :: rest).enumFrom 1)) = _
        rw [hs, Option.some_bind, if_neg hq, h1]
      have hor : (r.map (· + 1)).or (some ((s :: s' :: rest).length - 1)) =
          (r.or (some ((s' :: rest).length - 1))).map (· + 1) := by
        cases r <;> rfl
      rw [hor]
      cases i with
      | zero =>
        simp only [Option.map_eq_some', Nat.add_eq_zero, one_ne_zero, and_false, exists_const,
          false_iff, Selects, List.length_cons]
        omega
      | succ i =>
        simp only [Option.map_eq_some', Nat.add_right_cancel_iff, exists_eq_right]
        rw [hsel, List.length_cons _ (s' :: rest), selects_succ_iff (not_lt.mp hq)]

/-- Let versions `0 .. n-2` carry `end_dt` texts that parse to
ascending times `e 0 < e 1 < ...`, and let the last version carry no `end_dt` or `"0"`. For every
query end time `q`, `filter_schema_version_id` returns without panicking: `None` exactly when
there is no version, and otherwise the one version `i` whose interval, from `e (i-1)` to `e i`,
holds `q`. -/
theorem filter_schema_version_id_selects {schemas : List Schema} {e : Nat → Int} (startDt q : Int)
    (hend : ∀ i s, schemas.get? i = some s → i + 1 < schemas.length →
      ∃ t, s.metadata.lookup "end_dt" = some (.text t) ∧ parseI64 t = some (e i))
    (hlast : ∀ s ∈ schemas.getLast?,
      s.metadata.lookup "end_dt" = none ∨ s.metadata.lookup "end_dt" = some (.text "0"))
    (hasc : ∀ i, i + 2 < schemas.length → e i < e (i + 1)) :
    ∃ r, filterSchemaVersionId schemas startDt q = some r ∧ (r = none ↔ schemas.length = 0) ∧
      ∀ i, r = some i ↔ i < schemas.length ∧ (i = 0 ∨ e (i - 1) ≤ q) ∧
        (i = schemas.length - 1 ∨ q < e i) := by
  cases schemas with
  | nil => exact ⟨none, rfl, iff_of_true rfl rfl, fun i => iff_of_false (fun h => nomatch h) (by simp)⟩
  | cons first rest =>
    have hchain : EndChain (first :: rest) e := by
      refine ⟨fun i s hs hi => ?_, fun s hs => ?_, hasc⟩
      · obtain ⟨t, hl, hp⟩ := hend i s hs hi
        simp only [schemaEndDt, hl, hp]
      · rcases hlast s hs with hl | hl <;> simp only [schemaEndDt, hl] <;> rfl
    obtain ⟨r, hr, hsel⟩ := firstVersionAfter_chain q (List.cons_ne_nil first rest) hchain
    refine ⟨r.or (some ((first :: rest).length - 1)), ?_, ?_, hsel⟩
    · simp only [filterSchemaVersionId, hr, List.length_cons, Nat.zero_lt_succ, if_true,
        Option.map_some']
    · simp only [Option.or_eq_none, reduceCtorEq, and_false, List.length_cons, Nat.add_one_ne_zero]

/-- Two versions of a stream, the first valid until time 150. -/
def versionHistory : List Schema :=
  [⟨[⟨"msg", .utf8⟩], [("end_dt", .text "150")]⟩, ⟨[⟨"msg", .utf8⟩, ⟨"code", .int64⟩], []⟩]

theorem filter_schema_version_id_selects_history :
    (∀ i s, versionHistory.get? i = some s → i + 1 < versionHistory.length →
      ∃ t, s.metadata.lookup "end_dt" = some (.text t) ∧ parseI64 t = some 150) ∧
    (∀ s ∈ versionHistory.getLast?,
      s.metadata.lookup "end_dt" = none ∨ s.metadata.lookup "end_dt" = some (.text "0")) ∧
    (∀ i, i + 2 < versionHistory.length → (150 : Int) < 150) ∧
    ∃ r, filterSchemaVersionId versionHistory 0 100 = some r ∧ (r = none ↔ versionHistory.length = 0) ∧
      ∀ i, r = some i ↔ i < versionHistory.length ∧ (i = 0 ∨ (150 : Int) ≤ 100) ∧
        (i = versionHistory.length - 1 ∨ (100 : Int) < 150) := by
  have hend : ∀ i s, versionHistory.get? i = some s → i + 1 < versionHistory.length →
      ∃ t, s.metadata.lookup "end_dt" = some (.text t) ∧ parseI64 t = some 150 := by
    intro i s hs hi
    obtain rfl : i = 0 := by simp only [versionHistory, List.length_cons, List.length_nil] at hi; omega
    obtain rfl := Option.some.inj hs.symm
    exact ⟨"150", rfl, by decide⟩
  have hlast : ∀ s ∈ versionHistory.getLast?,
      s.metadata.lookup "end_dt" = none ∨ s.metadata.lookup "end_dt" = some (.text "0") := by
    intro s hs
    obtain rfl := Option.some.inj hs.symm
    exact .inl rfl
  have hasc : ∀ i, i + 2 < versionHistory.length → (150 : Int) < 150 := fun i hi => by
    simp only [versionHistory, List.length_cons, List.length_nil] at hi; omega
  exact ⟨hend, hlast, hasc, filter_schema_version_id_selects 0 100 hend hlast hasc⟩

end SchemaCatalog
