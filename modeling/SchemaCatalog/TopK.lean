import Mathlib.Data.List.Sort
import Mathlib.Data.List.FinRange
import SchemaCatalog.Aggregations

namespace SchemaCatalog

namespace Promql

/-- `TopItem { index, value }`: a sample's position in the input and its value. The position is
a `Fin` of the input's length, so `data[item.index]` is in range by construction. -/
structure TopItem (V : Type) (n : Nat) where
  index : Fin n
  value : V

/-- `score_values.entry(key).or_default().push(x)` on an `FxIndexMap`, an association list in
insertion order. -/
def pushGroup {β : Type} : List (UInt64 × List β) → UInt64 → β → List (UInt64 × List β)
  | [], key, x => [(key, [x])]
  | (k, xs) :: rest, key, x =>
    if k = key then (k, xs ++ [x]) :: rest else (k, xs) :: pushGroup rest key x

variable {V : Type}

/-- The filing loop of `eval_top`: every sample by position, NaN values skipped, pushed into the
group of the signature of its projected labels (the three arms of the source's
`match modifier` differ only in the projection). -/
def topGroups (isNan : V → Bool) (signature : Labels → UInt64) (modifier : Option LabelModifier)
    (data : List (InstantValue V)) : List (UInt64 × List (TopItem V data.length)) :=
  (List.finRange data.length).foldl (fun scoreValues i =>
    let item := data.get i
    if isNan item.sample.value then scoreValues
    else pushGroup scoreValues (signature (projectLabels modifier item.labels))
      ⟨i, item.sample.value⟩) []

/-- Modelled from the spec: `config::utils::sort::sort_float` lies outside src/. NaN samples
never reach it, and on the other values it is the order of the values. -/
def sortFloat [LinearOrder V] (a b : V) : Ordering := compare a b

/-- The comparator of `eval_top`: descending values for `topk`, ascending for `bottomk`. -/
def topComparator [LinearOrder V] {n : Nat} (isBottom : Bool) (a b : TopItem V n) : Ordering :=
  if isBottom then sortFloat a.value b.value else sortFloat b.value a.value

/-- `slice::sort_by`, a stable sort by `cmp`. All stable sorts by a total preorder return the
same list; the model sorts by insertion. -/
def sortBy {β : Type} (cmp : β → β → Ordering) (l : List β) : List β :=
  l.insertionSort fun a b => cmp a b ≠ .gt

/-- `eval_top(ctx, param, data, modifier, is_bottom)`, with the parameter as `ctx.exec_expr`
(outside src/) returns it and the cast `v as usize` given as `asUsize`. -/
def evalTop [LinearOrder V] (isNan : V → Bool) (asUsize : V → Nat) (signature : Labels → UInt64)
    (param data : Value V) (modifier : Option LabelModifier) (isBottom : Bool) :
    Except String (Value V) :=
  let fnName := if isBottom then "bottomk" else "topk"
  match param with
  | .float v =>
    let n := asUsize v
    match data with
    | .vector data =>
      let values := ((topGroups isNan signature modifier data).map Prod.snd).flatMap fun items =>
        (sortBy (topComparator isBottom) items).take n
      .ok (.vector (values.map fun item => data.get item.index))
    | .none => .ok .none
    | _ => .error ("[" ++ fnName ++ "] function only accept vector values")
  | _ => .error ("[" ++ fnName ++ "] param must be NumberLiteral")

section Grouping

variable {β : Type} (key : β → UInt64)

/-- `groups` files `items` by `key` as the `FxIndexMap` of `eval_top` does: one group per key of
the items, holding that key's items in input order. -/
structure Grouping (items : List β) (groups : List (UInt64 × List β)) : Prop where
  nodup : (groups.map Prod.fst).Nodup
  group : ∀ g ∈ groups, g.2 = items.filter fun x => key x = g.1
  complete : ∀ x ∈ items, key x ∈ groups.map Prod.fst

theorem map_fst_pushGroup (x : β) (k : UInt64) : ∀ G : List (UInt64 × List β),
    (pushGroup G k x).map Prod.fst =
      if k ∈ G.map Prod.fst then G.map Prod.fst else G.map Prod.fst ++ [k]
  | [] => rfl
  | (k', xs) :: rest => by
    by_cases h : k' = k
    · subst h
      simp [pushGroup]
    · simp only [pushGroup, h, if_false, List.map_cons, map_fst_pushGroup x k rest,
        List.mem_cons, Ne.symm h, false_or]
      split <;> rfl

/-- A group after a push is an old group of another key, or the group of the pushed key with
the item appended (to the old group, or to nothing when the key is new). -/
theorem mem_pushGroup {x : β} {k : UInt64} {g : UInt64 × List β} :
    ∀ {G : List (UInt64 × List β)}, (G.map Prod.fst).Nodup → g ∈ pushGroup G k x →
      (g ∈ G ∧ g.1 ≠ k) ∨
        (g.1 = k ∧ ∃ xs, ((k, xs) ∈ G ∨ (xs = [] ∧ k ∉ G.map Prod.fst)) ∧ g.2 = xs ++ [x])
  | [], _, h => by
    rw [pushGroup, List.mem_singleton] at h
    exact .inr ⟨by rw [h], [], .inr ⟨rfl, List.not_mem_nil _⟩, by rw [h]; rfl⟩
  | (k', xs) :: rest, hnd, h => by
    rw [List.map_cons, List.nodup_cons] at hnd
    unfold pushGroup at h
    split_ifs at h with hk
    · subst hk
      rcases List.mem_cons.mp h with rfl | h
      · exact .inr ⟨rfl, xs, .inl (List.mem_cons_self _ _), rfl⟩
      · exact .inl ⟨List.mem_cons_of_mem _ h,
          fun he => hnd.1 (List.mem_map.mpr ⟨g, h, he⟩)⟩
    · rcases List.mem_cons.mp h with rfl | h
      · exact .inl ⟨List.mem_cons_self _ _, hk⟩
      · rcases mem_pushGroup hnd.2 h with ⟨hg, hne⟩ | ⟨hgk, ys, hys, hg⟩
        · exact .inl ⟨List.mem_cons_of_mem _ hg, hne⟩
        · refine .inr ⟨hgk, ys, ?_, hg⟩
          rcases hys with hys | ⟨rfl, hnot⟩
          · exact .inl (List.mem_cons_of_mem _ hys)
          · refine .inr ⟨rfl, ?_⟩
            simp only [List.map_cons, List.mem_cons, not_or]
            exact ⟨Ne.symm hk, hnot⟩

variable {key}

theorem Grouping.nil : Grouping key [] [] :=
  ⟨List.nodup_nil, fun _ h => absurd h (List.not_mem_nil _), fun _ h => absurd h (List.not_mem_nil _)⟩

/-- One push files one more item. -/
theorem Grouping.push {items : List β} {G : List (UInt64 × List β)} (h : Grouping key items G)
    (x : β) : Grouping key (items ++ [x]) (pushGroup G (key x) x) where
  nodup := by
    rw [map_fst_pushGroup]
    split_ifs with hk
    · exact h.nodup
    · exact List.concat_eq_append .. ▸ h.nodup.concat hk
  group g hg := by
    rw [List.filter_append]
    rcases mem_pushGroup h.nodup hg with ⟨hgG, hne⟩ | ⟨hk, xs, hxs, hg2⟩
    · simp [← h.group g hgG, Ne.symm hne]
    · rw [hg2, hk]
      rcases hxs with hmem | ⟨rfl, hnot⟩
      · have hxs : xs = items.filter fun y => key y = key x := h.group _ hmem
        simp [hxs]
      · have hnone : items.filter (fun y => key y = key x) = [] :=
          List.filter_eq_nil_iff.mpr fun y hy hyx =>
            hnot (of_decide_eq_true hyx ▸ h.complete y hy)
        simp [hnone]
  complete y hy := by
    rw [map_fst_pushGroup]
    rcases List.mem_append.mp hy with hy | hy
    · split_ifs <;> simp [h.complete y hy]
    · rw [List.mem_singleton.mp hy]
      split_ifs with hk <;> simp [hk]

/-- The filing loop, skipping the items `skip` selects, files the items it does not skip. -/
theorem Grouping.foldl {α : Type} (skip : α → Bool) (f : α → β) :
    ∀ (l : List α) {items : List β} {G : List (UInt64 × List β)}, Grouping key items G →
      Grouping key (items ++ (l.filter fun a => !skip a).map f)
        (l.foldl (fun G a => if skip a then G else pushGroup G (key (f a)) (f a)) G)
  | [], _, _, h => by simpa using h
  | a :: l, items, G, h => by
    rw [List.foldl_cons]
    cases ha : skip a
    · simpa [ha] using Grouping.foldl skip f l (h.push (f a))
    · simpa [ha] using Grouping.foldl skip f l h

/-- Over groups with distinct keys, the groups of key `k` contribute once. -/
theorem flatMap_key_eq {γ : Type} (c : List γ) (k : UInt64) :
    ∀ {G : List (UInt64 × List β)}, (G.map Prod.fst).Nodup →
      (G.flatMap fun g => if g.1 = k then c else []) = if k ∈ G.map Prod.fst then c else []
  | [], _ => rfl
  | g :: rest, hnd => by
    rw [List.map_cons, List.nodup_cons] at hnd
    rw [List.flatMap_cons, flatMap_key_eq c k hnd.2]
    by_cases hg : g.1 = k
    · subst hg
      simp [hnd.1]
    · have hmem : k ∈ g.1 :: rest.map Prod.fst ↔ k ∈ rest.map Prod.fst := by simp [Ne.symm hg]
      simp only [hg, if_false, List.nil_append, List.map_cons, hmem]

/-- A per-group selection `F` that keeps only items of its group, read back by key: the items of
key `k` are the selection of `k`'s items. -/
theorem Grouping.filter_flatMap {items : List β} {G : List (UInt64 × List β)}
    (h : Grouping key items G) (F : List β → List β) (hF : ∀ xs, ∀ y ∈ F xs, y ∈ xs)
    (hnil : F [] = []) (k : UInt64) :
    ((G.map Prod.snd).flatMap F).filter (fun y => key y = k) =
      F (items.filter fun x => key x = k) := by
  have hgroup : ∀ g ∈ G, (F g.2).filter (fun y => key y = k) =
      if g.1 = k then F (items.filter fun x => key x = k) else [] := by
    intro g hg
    have hkey : ∀ y ∈ F g.2, key y = g.1 := fun y hy => by
      have := hF _ y hy
      rw [h.group g hg, List.mem_filter] at this
      exact of_decide_eq_true this.2
    split_ifs with hk
    · rw [List.filter_eq_self.mpr fun y hy => decide_eq_true (hk ▸ hkey y hy), h.group g hg, hk]
    · exact List.filter_eq_nil_iff.mpr fun y hy hyk => hk (hkey y hy ▸ of_decide_eq_true hyk)
  rw [List.flatMap_map, List.filter_flatMap, List.flatMap_congr hgroup, flatMap_key_eq _ _ h.nodup]
  split_ifs with hk
  · rfl
  · have hnone : items.filter (fun x => key x = k) = [] :=
      List.filter_eq_nil_iff.mpr fun x hx hxk => hk (of_decide_eq_true hxk ▸ h.complete x hx)
    rw [hnone, hnil]

end Grouping

/-- Two members of a list ordered by `f` stand in the list in that order. -/
theorem pair_sublist_of_lt {α : Type} {f : α → Nat} :
    ∀ {l : List α}, l.Pairwise (fun a b => f a < f b) →
      ∀ {a b : α}, a ∈ l → b ∈ l → f a < f b → List.Sublist [a, b] l
  | x :: l, hl, a, b, ha, hb, hab => by
    rw [List.pairwise_cons] at hl
    rcases List.mem_cons.mp ha with rfl | ha' <;> rcases List.mem_cons.mp hb with rfl | hb'
    · exact absurd hab (Nat.lt_irrefl _)
    · exact (List.singleton_sublist.mpr hb').cons₂ _
    · exact absurd (hl.1 a ha') (Nat.lt_asymm hab)
    · exact (pair_sublist_of_lt hl.2 ha' hb' hab).cons _

/-- In a list without duplicates, a member standing before a kept member is kept. -/
theorem mem_take_of_pair_sublist {α : Type} {l : List α} (hl : l.Nodup) {a b : α}
    (hab : List.Sublist [a, b] l) {k : Nat} (hb : b ∈ l.take k) : a ∈ l.take k := by
  rw [← List.take_append_drop k l, List.sublist_append_iff] at hab
  obtain ⟨l₁, l₂, heq, h₁, h₂⟩ := hab
  match l₁, heq with
  | [], heq =>
    rw [List.nil_append] at heq
    exact absurd (h₂.subset (by rw [← heq]; simp)) (List.disjoint_take_drop hl le_rfl hb)
  | [_], heq
  | [_, _], heq =>
    simp only [List.cons_append, List.nil_append, List.cons.injEq] at heq
    exact h₁.subset (by rw [heq.1]; simp)
  | _ :: _ :: _ :: _, heq => simp at heq

/-- Items in strictly increasing position are distinct. -/
theorem nodup_of_pairwise_index {n : Nat} {S : List (TopItem V n)}
    (hord : S.Pairwise fun a b => (a.index : Nat) < b.index) : S.Nodup :=
  hord.imp fun h => ne_of_apply_ne (fun a : TopItem V n => (a.index : Nat)) (Nat.ne_of_lt h)

section Select

variable [LinearOrder V] {n : Nat} (isBottom : Bool)

/-- The comparator places `a` no later than `b` when `a`'s value is at least `b`'s for `topk`,
at most for `bottomk`. -/
theorem topComparator_ne_gt {a b : TopItem V n} :
    topComparator isBottom a b ≠ .gt ↔
      if isBottom then a.value ≤ b.value else b.value ≤ a.value := by
  cases isBottom <;> simp [topComparator, sortFloat, compare_gt_iff_gt]

theorem topComparator_total (a b : TopItem V n) :
    topComparator isBottom a b ≠ .gt ∨ topComparator isBottom b a ≠ .gt := by
  simp only [topComparator_ne_gt]
  cases isBottom
  · exact le_total ..
  · exact le_total ..

theorem topComparator_trans {a b c : TopItem V n} (hab : topComparator isBottom a b ≠ .gt)
    (hbc : topComparator isBottom b c ≠ .gt) : topComparator isBottom a c ≠ .gt := by
  rw [topComparator_ne_gt] at *
  cases isBottom
  · exact le_trans hbc hab
  · exact le_trans hab hbc

instance : IsTotal (TopItem V n) fun a b => topComparator isBottom a b ≠ .gt :=
  ⟨topComparator_total isBottom⟩

instance : IsTrans (TopItem V n) fun a b => topComparator isBottom a b ≠ .gt :=
  ⟨fun _ _ _ => topComparator_trans isBottom⟩

theorem perm_sortBy (S : List (TopItem V n)) : (sortBy (topComparator isBottom) S).Perm S :=
  List.perm_insertionSort _ S

theorem sorted_sortBy (S : List (TopItem V n)) :
    (sortBy (topComparator isBottom) S).Sorted fun a b => topComparator isBottom a b ≠ .gt :=
  List.sorted_insertionSort _ S

variable {isBottom} {S : List (TopItem V n)} {k : Nat}

theorem mem_of_mem_take_sortBy {y : TopItem V n}
    (hy : y ∈ (sortBy (topComparator isBottom) S).take k) : y ∈ S :=
  (perm_sortBy isBottom S).subset (List.mem_of_mem_take hy)

theorem nodup_take_sortBy (hS : S.Nodup) : ((sortBy (topComparator isBottom) S).take k).Nodup :=
  ((perm_sortBy isBottom S).nodup_iff.mpr hS).sublist (List.take_sublist _ _)

/-- A kept item ranks no later than an item of the group that is not kept. -/
theorem rel_of_mem_take_sortBy {y z : TopItem V n}
    (hy : y ∈ (sortBy (topComparator isBottom) S).take k) (hz : z ∈ S)
    (hz' : z ∉ (sortBy (topComparator isBottom) S).take k) :
    topComparator isBottom y z ≠ .gt := by
  have hz := (perm_sortBy isBottom S).mem_iff.mpr hz
  rw [← List.take_append_drop k (sortBy _ S)] at hz
  exact (sorted_sortBy isBottom S).rel_of_mem_take_of_mem_drop hy
    ((List.mem_append.mp hz).resolve_left hz')

/-- Among items of equal value in a group kept in input order, a kept item comes before every
item that is not kept. -/
theorem index_lt_of_mem_take_sortBy
    (hord : S.Pairwise fun a b => (a.index : Nat) < b.index) {y z : TopItem V n}
    (hy : y ∈ (sortBy (topComparator isBottom) S).take k) (hz : z ∈ S)
    (hz' : z ∉ (sortBy (topComparator isBottom) S).take k) (hv : y.value = z.value) :
    (y.index : Nat) < z.index := by
  have hnd : (S.map fun a => (a.index : Nat)).Nodup := List.pairwise_map.mpr (hord.imp Nat.ne_of_lt)
  refine Nat.lt_of_le_of_ne (Nat.le_of_not_lt fun hzy => hz' ?_) fun he => hz' ?_
  · have hrel : topComparator isBottom z y ≠ .gt := by
      rw [topComparator_ne_gt, hv]
      split <;> exact le_rfl
    exact mem_take_of_pair_sublist ((perm_sortBy isBottom S).nodup_iff.mpr (nodup_of_pairwise_index hord))
      (List.pair_sublist_insertionSort hrel
        (pair_sublist_of_lt hord hz (mem_of_mem_take_sortBy hy) hzy)) hy
  · rwa [← List.inj_on_of_nodup_map hnd (mem_of_mem_take_sortBy hy) hz he]

end Select

/-- A list whose items of each key are without duplicates is without duplicates. -/
theorem nodup_of_forall_filter_nodup {α : Type} (key : α → UInt64) {l : List α}
    (h : ∀ k, (l.filter fun x => key x = k).Nodup) : l.Nodup :=
  List.nodup_iff_sublist.mpr fun a ha =>
    List.nodup_iff_sublist.mp (h (key a)) a (by simpa using ha.filter fun x => key x = key a)

section EvalTop

variable (isNan : V → Bool) (signature : Labels → UInt64) (modifier : Option LabelModifier)
  (data : List (InstantValue V))

/-- The group of signature `k`: the positions of the non-NaN samples filed under `k`, in input
order. -/
def topGroup (k : UInt64) : List (Fin data.length) :=
  (List.finRange data.length).filter fun i =>
    !isNan (data.get i).sample.value && sampleSignature signature modifier (data.get i) = k

/-- The items the filing loop pushes: every non-NaN sample, by position, in input order. -/
def topItems : List (TopItem V data.length) :=
  ((List.finRange data.length).filter fun i => !isNan (data.get i).sample.value).map
    fun i => ⟨i, (data.get i).sample.value⟩

/-- The signature an item is filed under. -/
def topKey (t : TopItem V data.length) : UInt64 :=
  sampleSignature signature modifier (data.get t.index)

theorem mem_topItems {t : TopItem V data.length} :
    t ∈ topItems isNan data ↔
      isNan (data.get t.index).sample.value = false ∧ t.value = (data.get t.index).sample.value := by
  constructor
  · intro h
    obtain ⟨i, hi, rfl⟩ := List.mem_map.mp h
    simpa using hi
  · rintro ⟨hnan, hv⟩
    refine List.mem_map.mpr
      ⟨t.index, List.mem_filter.mpr ⟨List.mem_finRange _, by rw [hnan]; rfl⟩, ?_⟩
    rw [← hv]

theorem pairwise_topItems :
    (topItems isNan data).Pairwise fun a b => (a.index : Nat) < b.index :=
  List.pairwise_map.mpr (((List.pairwise_lt_finRange _).filter _).imp Fin.lt_def.mp)

/-- The items filed under `k` are the group of `k`. -/
theorem map_index_filter_topItems (k : UInt64) :
    ((topItems isNan data).filter fun t => topKey signature modifier data t = k).map (·.index) =
      topGroup isNan signature modifier data k := by
  rw [topItems, List.filter_map, List.map_map, List.filter_filter, topGroup]
  exact (List.map_id' _).trans (List.filter_congr fun i _ => Bool.and_comm ..)

/-- An item pushed is determined by its position. -/
theorem eq_of_mem_topItems {t t' : TopItem V data.length} (ht : t ∈ topItems isNan data)
    (ht' : t' ∈ topItems isNan data) (he : t.index = t'.index) : t = t' := by
  have hv := ((mem_topItems isNan data).mp ht).2
  have hv' := ((mem_topItems isNan data).mp ht').2
  obtain ⟨i, w⟩ := t
  obtain ⟨i', w'⟩ := t'
  dsimp only at he hv hv'
  subst he
  rw [hv, hv']

/-- The filing loop of `eval_top` files the items of every non-NaN sample. -/
theorem grouping_topGroups :
    Grouping (topKey signature modifier data) (topItems isNan data)
      (topGroups isNan signature modifier data) :=
  Grouping.foldl (fun i => isNan (data.get i).sample.value)
    (fun i => (⟨i, (data.get i).sample.value⟩ : TopItem V data.length)) (List.finRange data.length)
    .nil

/-- `topk` and `bottomk` select, from every group, its first `n` items by value, earlier
positions first among equal values: `eval_top` returns distinct non-NaN input samples, exactly
`min n |g|` of each group `g`, each ranking at or above (for `bottomk`, at or below) every sample
of its group left out, and before every left-out sample of equal value. -/
theorem eval_top_selects [LinearOrder V] (asUsize : V → Nat) (v : V) (isBottom : Bool) :
    ∃ idx : List (Fin data.length),
      evalTop isNan asUsize signature (.float v) (.vector data) modifier isBottom =
        .ok (.vector (idx.map data.get)) ∧
      idx.Nodup ∧ (∀ i ∈ idx, isNan (data.get i).sample.value = false) ∧
      (∀ k, (idx.filter fun i => sampleSignature signature modifier (data.get i) = k).length =
        min (asUsize v) (topGroup isNan signature modifier data k).length) ∧
      ∀ i ∈ idx, ∀ j ∈ topGroup isNan signature modifier data
          (sampleSignature signature modifier (data.get i)), j ∉ idx →
        (if isBottom then (data.get i).sample.value ≤ (data.get j).sample.value
          else (data.get j).sample.value ≤ (data.get i).sample.value) ∧
        ((data.get i).sample.value = (data.get j).sample.value → i < j) := by
  set n := asUsize v
  set key := topKey signature modifier data
  set S := fun k => (topItems isNan data).filter fun t => key t = k
  set out := ((topGroups isNan signature modifier data).map Prod.snd).flatMap fun items =>
    (sortBy (topComparator isBottom) items).take n
  have hsel : ∀ k, out.filter (fun t => key t = k) = (sortBy (topComparator isBottom) (S k)).take n :=
    (grouping_topGroups isNan signature modifier data).filter_flatMap _
      (fun _ _ hy => mem_of_mem_take_sortBy hy) List.take_nil
  have hout : ∀ t ∈ out, t ∈ (sortBy (topComparator isBottom) (S (key t))).take n := fun t ht =>
    hsel (key t) ▸ List.mem_filter.mpr ⟨ht, decide_eq_true rfl⟩
  have hitem : ∀ t ∈ out, t ∈ topItems isNan data := fun t ht =>
    List.mem_of_mem_filter (mem_of_mem_take_sortBy (hout t ht))
  have hord : ∀ k, (S k).Pairwise fun a b => (a.index : Nat) < b.index := fun k =>
    (pairwise_topItems isNan data).filter _
  refine ⟨out.map (·.index), by rw [List.map_map]; rfl, ?_, ?_, ?_, ?_⟩
  · refine (nodup_of_forall_filter_nodup key fun k => ?_).map_on fun a ha b hb he => ?_
    · rw [hsel]
      exact nodup_take_sortBy (nodup_of_pairwise_index (hord k))
    · exact eq_of_mem_topItems isNan data (hitem a ha) (hitem b hb) he
  · intro i hi
    obtain ⟨t, ht, rfl⟩ := List.mem_map.mp hi
    exact ((mem_topItems isNan data).mp (hitem t ht)).1
  · intro k
    rw [List.filter_map, ← map_index_filter_topItems, List.length_map, List.length_map]
    show (out.filter fun t => key t = k).length = _
    rw [hsel, List.length_take, (perm_sortBy isBottom _).length_eq]
  · intro i hi j hj hj'
    obtain ⟨t, ht, rfl⟩ := List.mem_map.mp hi
    rw [← map_index_filter_topItems] at hj
    obtain ⟨u, hu, rfl⟩ := List.mem_map.mp hj
    have hu' : u ∉ (sortBy (topComparator isBottom) (S (key t))).take n := fun h => by
      rw [← hsel] at h
      exact hj' (List.mem_map_of_mem _ (List.mem_of_mem_filter h))
    rw [← ((mem_topItems isNan data).mp (hitem t ht)).2,
      ← ((mem_topItems isNan data).mp (List.mem_of_mem_filter hu)).2]
    exact ⟨(topComparator_ne_gt isBottom).mp (rel_of_mem_take_sortBy (hout t ht) hu hu'),
      fun hv => Fin.lt_def.mpr (index_lt_of_mem_take_sortBy (hord _) (hout t ht) hu hu' hv)⟩

end EvalTop

end Promql

end SchemaCatalog
