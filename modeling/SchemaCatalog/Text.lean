import Mathlib.Data.List.Basic
import Mathlib.Data.Int.Defs

namespace SchemaCatalog

/-- `str::split('/')` on characters: the pieces between slashes, always at least one. -/
def splitChars : List Char → List (List Char)
  | [] => [[]]
  | c :: cs =>
    if c = '/' then [] :: splitChars cs
    else match splitChars cs with
      | [] => [[c]]
      | p :: ps => (c :: p) :: ps

/-- `key.split('/').collect::<Vec<&str>>()`. -/
def splitSlash (s : String) : List String := (splitChars s.data).map String.mk

/-- `parts.join("/")`. -/
def joinSlash (parts : List String) : String := ⟨List.intercalate ['/'] (parts.map String.data)⟩

/-- `s.strip_prefix(pre)`. -/
def stripPrefix (s pre : String) : Option String := (pre.data.isPrefixOf? s.data).map String.mk

/-- The value of a non-empty run of ASCII digits. -/
def digitsValue (ds : List Char) : Option Nat :=
  if ds ≠ [] ∧ ds.all Char.isDigit then
    some (ds.foldl (fun n d => 10 * n + (d.toNat - '0'.toNat)) 0)
  else none

/-- `s.parse::<i64>()`: an optional sign, then decimal digits, within the range of `i64`. -/
def parseI64 (s : String) : Option Int :=
  let (neg, ds) : Bool × List Char := match s.data with
    | '-' :: ds => (true, ds)
    | '+' :: ds => (false, ds)
    | ds => (false, ds)
  (digitsValue ds).bind fun n =>
    let v : Int := if neg then -n else n
    if -9223372036854775808 ≤ v ∧ v < 9223372036854775808 then some v else none

/-- A name that `split('/')` keeps whole. -/
def NoSlash (s : String) : Prop := '/' ∉ s.data

instance (s : String) : Decidable (NoSlash s) := inferInstanceAs (Decidable ('/' ∉ s.data))

theorem splitChars_of_not_mem {w : List Char} (h : '/' ∉ w) : splitChars w = [w] := by
  induction w with
  | nil => rfl
  | cons c cs ih =>
    simp only [List.mem_cons, not_or] at h
    simp [splitChars, Ne.symm h.1, ih h.2]

theorem splitChars_append_slash {w : List Char} (h : '/' ∉ w) (r : List Char) :
    splitChars (w ++ '/' :: r) = w :: splitChars r := by
  induction w with
  | nil => simp [splitChars]
  | cons c cs ih =>
    simp only [List.mem_cons, not_or] at h
    simp [splitChars, Ne.symm h.1, ih h.2]

theorem splitChars_ne_nil (w : List Char) : splitChars w ≠ [] := by
  cases w with
  | nil => simp [splitChars]
  | cons c cs =>
    unfold splitChars
    split
    · simp
    · split <;> simp

@[simp] theorem splitSlash_of_noSlash {s : String} (h : NoSlash s) : splitSlash s = [s] := by
  simp [splitSlash, splitChars_of_not_mem h]

theorem splitSlash_append {a : String} (h : NoSlash a) (r : String) :
    splitSlash (a ++ "/" ++ r) = a :: splitSlash r := by
  simp [splitSlash, String.data_append, List.append_assoc, splitChars_append_slash h]

theorem splitSlash_ne_nil (s : String) : splitSlash s ≠ [] := by
  simpa [splitSlash] using splitChars_ne_nil s.data

/-- A key below `/schema/` splits into two empty-and-`schema` segments and then its own. -/
theorem splitSlash_schema (r : String) : splitSlash ("/schema/" ++ r) = "" :: "schema" :: splitSlash r := by
  have h : "/schema/" ++ r = "" ++ "/" ++ ("schema" ++ "/" ++ r) := by
    simp [String.ext_iff]
  rw [h, splitSlash_append (by decide), splitSlash_append (by decide)]

theorem splitSlash_three {o t n : String} (ho : NoSlash o) (ht : NoSlash t) (hn : NoSlash n) :
    splitSlash (o ++ "/" ++ t ++ "/" ++ n) = [o, t, n] := by
  have h : o ++ "/" ++ t ++ "/" ++ n = o ++ "/" ++ (t ++ "/" ++ n) := by
    simp [String.ext_iff]
  rw [h, splitSlash_append ho, splitSlash_append ht, splitSlash_of_noSlash hn]

theorem isPrefixOf?_append (p t : List Char) : p.isPrefixOf? (p ++ t) = some t := by
  induction p with
  | nil => cases t <;> rfl
  | cons c cs ih => simp [List.isPrefixOf?, ih]

theorem eq_append_of_isPrefixOf? {p s t : List Char} (h : p.isPrefixOf? s = some t) : s = p ++ t := by
  induction p generalizing s with
  | nil => cases s <;> simp_all [List.isPrefixOf?]
  | cons c cs ih =>
    cases s with
    | nil => simp [List.isPrefixOf?] at h
    | cons d ds =>
      simp only [List.isPrefixOf?] at h
      split at h
      · rename_i hcd
        simp only [beq_iff_eq] at hcd
        simp [hcd, ih h]
      · simp at h

@[simp] theorem stripPrefix_append (p t : String) : stripPrefix (p ++ t) p = some t := by
  simp [stripPrefix, isPrefixOf?_append]

theorem stripPrefix_eq_some {s p t : String} : stripPrefix s p = some t ↔ s = p ++ t := by
  constructor
  · intro h
    simp only [stripPrefix, Option.map_eq_some'] at h
    obtain ⟨u, hu, rfl⟩ := h
    simpa [String.ext_iff] using eq_append_of_isPrefixOf? hu
  · rintro rfl
    exact stripPrefix_append p t

theorem joinSlash_five (a b c d e : String) :
    joinSlash [a, b, c, d, e] = a ++ "/" ++ b ++ "/" ++ c ++ "/" ++ d ++ "/" ++ e := by
  simp [joinSlash, String.ext_iff, List.intercalate]

theorem append_left_cancel {p a b : String} (h : p ++ a = p ++ b) : a = b := by
  simpa [String.ext_iff] using h

theorem append_right_cancel {p a b : String} (h : a ++ p = b ++ p) : a = b := by
  simpa [String.ext_iff] using h

end SchemaCatalog
