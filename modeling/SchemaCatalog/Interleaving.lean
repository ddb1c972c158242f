import SchemaCatalog.Coherence
import Mathlib.Data.Bool.Count

namespace SchemaCatalog

/-- One exclusive write section of the Put or of the deletion, with the values the Put computed
before its first section. -/
inductive Section
  | generator (wants : Bool) (fresh : SnowflakeIdGenerator)
  | settings (s : StreamSettings)
  | latest (schema : Schema)
  | versions (new : List (Int × Schema))
  | eraseVersions
  | eraseLatest
  | eraseSettings
  | eraseGenerator

/-- A section without its values. -/
inductive Tag
  | generator | settings | latest | versions
  | eraseVersions | eraseLatest | eraseSettings | eraseGenerator
  deriving DecidableEq, Repr

namespace Section

/-- The section's write for stream `k`. -/
def apply (k : String) : Section → Catalog → Catalog
  | .generator wants fresh, c => c.ensureGenerator k wants fresh
  | .settings s, c => c.setSettings k s
  | .latest schema, c => c.setLatest k schema
  | .versions new, c => c.addVersions k new
  | .eraseVersions, c => c.eraseVersions k
  | .eraseLatest, c => c.eraseLatest k
  | .eraseSettings, c => c.eraseSettings k
  | .eraseGenerator, c => c.eraseGenerator k

def tag : Section → Tag
  | .generator _ _ => .generator
  | .settings _ => .settings
  | .latest _ => .latest
  | .versions _ => .versions
  | .eraseVersions => .eraseVersions
  | .eraseLatest => .eraseLatest
  | .eraseSettings => .eraseSettings
  | .eraseGenerator => .eraseGenerator

/-- Whether the section asks for record ids: the generator section's flag, the settings'. -/
def wants : Section → Bool
  | .generator w _ => w
  | .settings s => s.wantsRecordIds
  | _ => false

end Section

/-- The four sections of a Put that completes: generator, settings, latest schema, versions. -/
def putSections (latest : Schema) (fresh : SnowflakeIdGenerator) (new : List (Int × Schema)) :
    List Section :=
  [.generator (settingsOf latest).wantsRecordIds fresh, .settings (settingsOf latest), .latest latest,
    .versions new]

/-- The four sections of `stream_delete_inner` once the retention job is created. -/
def deleteSections : List Section := [.eraseVersions, .eraseLatest, .eraseSettings, .eraseGenerator]

def runSections (k : String) (zs : List Section) (c : Catalog) : Catalog :=
  zs.foldl (fun c s => s.apply k c) c

/-- The sections in the order a scheduler picks the writers: `true` runs the Put's next section,
`false` the deletion's. -/
def weave {α : Type} : List Bool → List α → List α → List α
  | [], _, _ => []
  | true :: bs, x :: xs, ys => x :: weave bs xs ys
  | true :: bs, [], ys => weave bs [] ys
  | false :: bs, xs, y :: ys => y :: weave bs xs ys
  | false :: bs, xs, [] => weave bs xs []

/-- Run alone, the Put's sections are the publish and merge of a completed Put. -/
theorem runSections_put (k : String) (latest : Schema) (fresh : SnowflakeIdGenerator)
    (new : List (Int × Schema)) (c : Catalog) :
    runSections k (putSections latest fresh new) c = (c.publish k latest fresh).addVersions k new := rfl

/-- Run alone, the deletion's sections are the writes of `stream_delete_inner`. -/
theorem runSections_delete (offsetOk : Bool) (c : Catalog) (org : String) (type : StreamType)
    (name : String) :
    (streamDeleteInner true offsetOk c org type name).state =
      runSections (streamKey org type name) deleteSections c := by
  unfold streamDeleteInner
  cases offsetOk <;> rfl

theorem weave_map {α β : Type} (f : α → β) :
    ∀ (bs : List Bool) (xs ys : List α), (weave bs xs ys).map f = weave bs (xs.map f) (ys.map f)
  | [], _, _ => rfl
  | true :: bs, x :: xs, ys => by simp [weave, weave_map f bs xs ys]
  | true :: bs, [], ys => by simp [weave, weave_map f bs [] ys]
  | false :: bs, xs, y :: ys => by simp [weave, weave_map f bs xs ys]
  | false :: bs, xs, [] => by simp [weave, weave_map f bs xs []]

theorem mem_weave {α : Type} {z : α} :
    ∀ {bs : List Bool} {xs ys : List α}, z ∈ weave bs xs ys → z ∈ xs ∨ z ∈ ys
  | [], _, _, h => by simp [weave] at h
  | true :: bs, x :: xs, ys, h => by
    rcases List.mem_cons.mp h with rfl | h
    · exact .inl (List.mem_cons_self _ _)
    · exact (mem_weave h).imp (List.mem_cons_of_mem x) id
  | true :: bs, [], ys, h => @mem_weave _ _ bs [] ys h
  | false :: bs, xs, y :: ys, h => by
    rcases List.mem_cons.mp h with rfl | h
    · exact .inr (List.mem_cons_self _ _)
    · exact (mem_weave h).imp id (List.mem_cons_of_mem y)
  | false :: bs, xs, [], h => @mem_weave _ _ bs xs [] h

/-- What is observed of a stream: whether each map holds it, and whether its settings ask for
record ids. -/
inductive Probe
  | schemas | latest | settings | atomic | wantsIds | generators
  deriving DecidableEq, Repr

def Catalog.probe (c : Catalog) (k : String) : Probe → Bool
  | .schemas => decide (k ∈ c.schemas)
  | .latest => decide (k ∈ c.latest)
  | .settings => decide (k ∈ c.settings)
  | .atomic => decide (c.settingsAtomic = c.settings)
  | .wantsIds => (c.settings.lookup k).any StreamSettings.wantsRecordIds
  | .generators => decide (k ∈ c.recordIdGenerators)

/-- The value a section of this tag leaves in a probe, `none` for a probe it does not touch; a
generator section that asks for record ids leaves a generator, the one there or a new one. -/
def Tag.writes (wants : Bool) : Tag → Probe → Option Bool
  | .generator, .generators => if wants then some true else none
  | .settings, .settings => some true
  | .settings, .atomic => some true
  | .settings, .wantsIds => some wants
  | .latest, .latest => some true
  | .versions, .schemas => some true
  | .eraseVersions, .schemas => some false
  | .eraseLatest, .latest => some false
  | .eraseSettings, .settings => some false
  | .eraseSettings, .atomic => some true
  | .eraseSettings, .wantsIds => some false
  | .eraseGenerator, .generators => some false
  | _, _ => none

theorem probe_apply (k : String) (s : Section) (c : Catalog) (p : Probe) :
    (s.apply k c).probe k p = (s.tag.writes s.wants p).getD (c.probe k p) := by
  cases s with
  | generator w f =>
    cases p
    case generators =>
      simp only [Section.apply, Section.tag, Section.wants, Catalog.probe]
      unfold Catalog.ensureGenerator
      cases w
      · simp only [Bool.false_eq_true, false_and, if_false]
        rfl
      · by_cases h : k ∈ c.recordIdGenerators
        · simp only [h, not_true_eq_false, and_false, if_false, decide_True]
          rfl
        · simp only [h, not_false_eq_true, and_self, if_true, Finmap.mem_insert, true_or, decide_True]
          rfl
    all_goals simp only [Section.apply, Catalog.probe, Catalog.ensureGenerator_schemas,
      Catalog.ensureGenerator_latest, Catalog.ensureGenerator_settings,
      Catalog.ensureGenerator_settingsAtomic]; rfl
  | _ => cases p <;> simp only [Section.apply, Section.tag, Section.wants, Catalog.probe,
      Catalog.setSettings, Catalog.setLatest, Catalog.addVersions, Catalog.eraseVersions,
      Catalog.eraseLatest, Catalog.eraseSettings, Catalog.eraseGenerator, Finmap.mem_insert,
      Finmap.mem_erase, Finmap.lookup_insert, Finmap.lookup_erase, true_or, ne_eq,
      not_true_eq_false, false_and, decide_True, decide_False, Option.any_some, Option.any_none] <;> rfl

/-- The last section that writes a probe decides it. -/
theorem probe_runSections (k : String) (zs : List Section) (c : Catalog) (p : Probe) :
    (runSections k zs c).probe k p =
      ((zs.filterMap fun s => s.tag.writes s.wants p).getLast?).getD (c.probe k p) := by
  induction zs generalizing c with
  | nil => rfl
  | cons s zs ih =>
    change (runSections k zs (s.apply k c)).probe k p = _
    rw [ih, probe_apply, List.filterMap_cons]
    cases s.tag.writes s.wants p <;> simp [List.getLast?_cons]

def putTags : List Tag := [.generator, .settings, .latest, .versions]

def deleteTags : List Tag := [.eraseVersions, .eraseLatest, .eraseSettings, .eraseGenerator]

/-- What a probe shows after sections of these tags, `none` when none of them writes it. -/
def Tag.final (wants : Bool) (t : List Tag) (p : Probe) : Option Bool :=
  (t.filterMap fun x => x.writes wants p).getLast?

/-- Section `a` runs before section `b`. -/
abbrev Before (t : List Tag) (a b : Tag) : Prop := t.indexOf a < t.indexOf b

/-- What the end of an interleaving shows, by the tags of its sections: every probe written, the
settings only with the latest schema and that only with the versions, the atomic snapshot equal
to the settings, when the three maps agree, and when a generator is left for settings that ask
for one. -/
def Settled (w : Bool) (t : List Tag) : Prop :=
  (∀ p ∈ [Probe.schemas, .latest, .settings, .atomic, .wantsIds, .generators],
    (Tag.final w t p).isSome) ∧
  (Tag.final w t .settings = some true → Tag.final w t .latest = some true) ∧
  (Tag.final w t .latest = some true → Tag.final w t .schemas = some true) ∧
  Tag.final w t .atomic = some true ∧
  ((Tag.final w t .schemas = Tag.final w t .latest ∧ Tag.final w t .latest = Tag.final w t .settings) ↔
    Before t .versions .eraseVersions ∨ Before t .eraseSettings .settings) ∧
  (Before t .eraseGenerator .generator ∨ Before t .settings .eraseSettings →
    Tag.final w t .wantsIds = some true → Tag.final w t .generators = some true)

instance (w : Bool) (t : List Tag) : Decidable (Settled w t) := by
  unfold Settled
  infer_instance

/-- Every sequence of `n` scheduler picks. -/
def picks : Nat → List (List Bool)
  | 0 => [[]]
  | n + 1 => (picks n).map (true :: ·) ++ (picks n).map (false :: ·)

theorem mem_picks : ∀ bs : List Bool, bs ∈ picks bs.length
  | [] => List.mem_singleton_self _
  | b :: bs => by cases b <;> simp [picks, mem_picks bs]

set_option maxRecDepth 4000 in
/-- Every interleaving of the two writers settles, checked over all seventy of them. -/
theorem settled_weave : ∀ w : Bool, ∀ bs ∈ picks 8, bs.count true = 4 → bs.count false = 4 →
    Settled w (weave bs putTags deleteTags) := by
  decide

/-- At the end of an interleaving a probe shows what the tags of its sections decide. -/
theorem probe_interleaved (c : Catalog) (k : String) (latest : Schema) (fresh : SnowflakeIdGenerator)
    (new : List (Int × Schema)) (bs : List Bool) (p : Probe) :
    (runSections k (weave bs (putSections latest fresh new) deleteSections) c).probe k p =
      (Tag.final (settingsOf latest).wantsRecordIds (weave bs putTags deleteTags) p).getD
        (c.probe k p) := by
  have hw : ∀ s ∈ weave bs (putSections latest fresh new) deleteSections,
      s.tag.writes s.wants p = s.tag.writes (settingsOf latest).wantsRecordIds p := by
    intro s hs
    rcases mem_weave hs with h | h <;>
      simp only [putSections, deleteSections, List.mem_cons, List.not_mem_nil, or_false] at h <;>
      rcases h with rfl | rfl | rfl | rfl <;> cases p <;> rfl
  have hmap := List.filterMap_map Section.tag (fun x => Tag.writes (settingsOf latest).wantsRecordIds x p)
    (weave bs (putSections latest fresh new) deleteSections)
  rw [weave_map] at hmap
  simp only [Function.comp_def] at hmap
  rw [probe_runSections, List.filterMap_congr hw, Tag.final, ← hmap]
  rfl

/-- Whatever the maps held before, once a Put of stream `k` and
the deletion of `k` have run all their sections, in any interleaving: the settings hold `k` only
if the latest-schema map does, and that one only if the versions map does; the atomic snapshot
equals the settings; the three maps agree on `k` exactly when the Put's versions section runs
before the deletion's first section or the Put's settings section after the deletion's settings
removal; and a generator is left for settings asking for record ids when the deletion's generator
removal runs before the Put's generator section or the Put's settings section runs before the
deletion's settings removal. -/
theorem put_delete_interleaved (c : Catalog) (k : String) (latest : Schema)
    (fresh : SnowflakeIdGenerator) (new : List (Int × Schema)) {bs : List Bool}
    (hput : bs.count true = 4) (hdel : bs.count false = 4) :
    let t := weave bs putTags deleteTags
    let c' := runSections k (weave bs (putSections latest fresh new) deleteSections) c
    ((k ∈ c'.settings → k ∈ c'.latest) ∧ (k ∈ c'.latest → k ∈ c'.schemas)) ∧
      c'.settingsAtomic = c'.settings ∧
      (((k ∈ c'.schemas ↔ k ∈ c'.latest) ∧ (k ∈ c'.latest ↔ k ∈ c'.settings)) ↔
        Before t .versions .eraseVersions ∨ Before t .eraseSettings .settings) ∧
      (Before t .eraseGenerator .generator ∨ Before t .settings .eraseSettings →
        ∀ st, c'.settings.lookup k = some st → st.wantsRecordIds → k ∈ c'.recordIdGenerators) := by
  intro t c'
  have hlen : bs.length = 8 := by rw [← List.count_true_add_count_false, hput, hdel]
  obtain ⟨hsome, h1, h2, h3, h4, h5⟩ := settled_weave (settingsOf latest).wantsRecordIds bs
    (hlen ▸ mem_picks bs) hput hdel
  have hB : ∀ p, Tag.final (settingsOf latest).wantsRecordIds t p = some (c'.probe k p) := fun p => by
    obtain ⟨b, hb⟩ := Option.isSome_iff_exists.mp (hsome p (by cases p <;> simp))
    rw [probe_interleaved, hb]
    rfl
  simp only [hB, Option.some.injEq, Catalog.probe, decide_eq_true_eq,
    decide_eq_decide] at h1 h2 h3 h4 h5
  refine ⟨⟨h1, h2⟩, h3, h4, fun hcond st hst hw => h5 hcond ?_⟩
  simp [hst, hw]

theorem put_delete_interleaved_alternating :
    [true, false, true, false, true, false, true, false].count true = 4 ∧
      [true, false, true, false, true, false, true, false].count false = 4 ∧
      let t := weave [true, false, true, false, true, false, true, false] putTags deleteTags
      let c' := runSections "acme/logs/app" (weave [true, false, true, false, true, false, true, false]
        (putSections appV2 nodeGenerator [(200, appV2)]) deleteSections) appCatalog
      (("acme/logs/app" ∈ c'.settings → "acme/logs/app" ∈ c'.latest) ∧
          ("acme/logs/app" ∈ c'.latest → "acme/logs/app" ∈ c'.schemas)) ∧
        c'.settingsAtomic = c'.settings ∧
        ((("acme/logs/app" ∈ c'.schemas ↔ "acme/logs/app" ∈ c'.latest) ∧
            ("acme/logs/app" ∈ c'.latest ↔ "acme/logs/app" ∈ c'.settings)) ↔
          Before t .versions .eraseVersions ∨ Before t .eraseSettings .settings) ∧
        (Before t .eraseGenerator .generator ∨ Before t .settings .eraseSettings →
          ∀ st, c'.settings.lookup "acme/logs/app" = some st → st.wantsRecordIds →
            "acme/logs/app" ∈ c'.recordIdGenerators) :=
  ⟨by decide, by decide,
    put_delete_interleaved appCatalog "acme/logs/app" appV2 nodeGenerator [(200, appV2)] (by decide)
      (by decide)⟩

set_option maxRecDepth 4000 in
/-- Two interleavings from `appCatalog`, for a Put of `appV2`, whose settings ask for record ids.
The deletion run between the Put's latest-schema and versions sections leaves the versions alone
in the maps; run between the Put's generator and settings sections, it leaves all three maps
holding the stream, with settings asking for record ids and no generator. -/
theorem put_delete_interleaved_counterexample :
    let c₁ := runSections "acme/logs/app" (weave [true, true, true, false, false, false, false, true]
      (putSections appV2 nodeGenerator [(200, appV2)]) deleteSections) appCatalog
    let c₂ := runSections "acme/logs/app" (weave [true, false, false, false, false, true, true, true]
      (putSections appV2 nodeGenerator [(200, appV2)]) deleteSections) appCatalog
    ("acme/logs/app" ∈ c₁.schemas ∧ "acme/logs/app" ∉ c₁.latest ∧ "acme/logs/app" ∉ c₁.settings) ∧
      "acme/logs/app" ∈ c₂.schemas ∧ "acme/logs/app" ∈ c₂.latest ∧
      c₂.settings.lookup "acme/logs/app" = some (settingsOf appV2) ∧
      (settingsOf appV2).wantsRecordIds = true ∧ "acme/logs/app" ∉ c₂.recordIdGenerators :=
  ⟨⟨by decide, by decide, by decide⟩, by decide, by decide, by decide, by decide, by decide⟩

end SchemaCatalog
