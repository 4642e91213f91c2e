import Umd.Lib.Json
/-!
# JSON schemas

The keywords payload schemas are written with, and which values they accept.
-/

namespace Umd.Lib

inductive Schema where
  | any
  | null
  | string
  | number
  | integer
  | object
  | pattern (p : String → Bool)
  | enum (values : List String)
  | const (s : String)
  | anyOf (ss : List Schema)
  | array (items : Schema)
  | record (required : List String) (closed : Bool) (properties : List (String × Schema))

/-- A number without a fraction, also when it is written as a `float`. -/
def Number.isInteger : Number → Bool
  | .dec m e => m % 10 ^ e == 0
  | _ => false

mutual
/-- The value conforms to the schema. -/
def Schema.valid : Schema → Json → Bool
  | .any, _ => true
  | .null, .null => true
  | .string, .str _ => true
  | .number, .num _ => true
  | .integer, .num n => n.isInteger
  | .object, .obj _ => true
  | .pattern p, .str s => p s
  | .enum vs, .str s => vs.contains s
  | .const c, .str s => c == s
  | .anyOf ss, j => Schema.validAny ss j
  | .array items, .arr xs => xs.all fun x => items.valid x
  | .record required closed props, .obj d =>
    required.all (fun k => (Dict.get? d k).isSome) && Schema.validProps props d &&
      (!closed || (Dict.keys d).all fun k => (props.map (·.1)).contains k)
  | _, _ => false
def Schema.validAny : List Schema → Json → Bool
  | [], _ => false
  | s :: ss, j => s.valid j || Schema.validAny ss j
/-- Each property that is there conforms. -/
def Schema.validProps : List (String × Schema) → Dict → Bool
  | [], _ => true
  | (k, s) :: ps, d => (match d.get? k with | some v => s.valid v | none => true) && Schema.validProps ps d
end

/-- `"anyOf"` of a schema and `"type": "null"`. -/
def Schema.nullable (s : Schema) : Schema := .anyOf [s, .null]

def Schema.strings : Schema := .array .string

theorem Schema.validProps_mem {ps : List (String × Schema)} {d : Dict} (h : validProps ps d = true)
    {k : String} {s : Schema} (hm : (k, s) ∈ ps) {v : Json} (hv : d.get? k = some v) : s.valid v = true := by
  induction ps with
  | nil => cases hm
  | cons p ps ih =>
    obtain ⟨k', s'⟩ := p
    simp only [validProps, Bool.and_eq_true] at h
    rcases List.mem_cons.1 hm with he | hm
    · cases he; simpa [hv] using h.1
    · exact ih h.2 hm

theorem Dict.get?_isSome {d : Dict} {k : String} (h : (d.get? k).isSome) : k ∈ d.keys := by
  induction d with
  | nil => cases h
  | cons f d ih =>
    obtain ⟨k', v⟩ := f
    by_cases hk : k' = k
    · simp [keys, hk]
    · simp only [get?, if_neg hk] at h
      exact List.mem_cons_of_mem _ (ih h)

/-- A closed record has no key but its properties'. -/
theorem Schema.closed_get {req : List String} {ps : List (String × Schema)} {d : Dict}
    (h : (record req true ps).valid (.obj d) = true) {k : String} (hk : k ∉ ps.map (·.1)) : d.get? k = none := by
  simp only [valid, Bool.and_eq_true, Bool.not_true, Bool.false_or, List.all_eq_true] at h
  cases hv : d.get? k with
  | none => rfl
  | some v =>
    have := h.2 k (Dict.get?_isSome (by rw [hv]; rfl))
    exact absurd (List.contains_iff_mem.1 this) hk

/-- A property of a record that is there conforms to its schema. -/
theorem Schema.prop_valid {req : List String} {c : Bool} {ps : List (String × Schema)} {d : Dict}
    (h : (record req c ps).valid (.obj d) = true) {k : String} {s : Schema} (hm : (k, s) ∈ ps) {v : Json}
    (hv : d.get? k = some v) : s.valid v = true := by
  simp only [valid, Bool.and_eq_true] at h
  exact validProps_mem h.1.2 hm hv

/-- A required property is there. -/
theorem Schema.required_get {req : List String} {c : Bool} {ps : List (String × Schema)} {d : Dict}
    (h : (record req c ps).valid (.obj d) = true) {k : String} (hk : k ∈ req) : ∃ v, d.get? k = some v := by
  simp only [valid, Bool.and_eq_true, List.all_eq_true] at h
  exact Option.isSome_iff_exists.1 (h.1.1 k hk)

/-! ## Schemas of texts -/

mutual
/-- Only strings and `null` conform. -/
def Schema.isText : Schema → Bool
  | .null | .string | .pattern _ | .enum _ | .const _ => true
  | .anyOf ss => Schema.allText ss
  | _ => false
def Schema.allText : List Schema → Bool
  | [] => true
  | s :: ss => s.isText && Schema.allText ss
end

mutual
theorem Schema.text_valid : ∀ {s : Schema} {j : Json}, s.isText = true → s.valid j = true → ∃ o, j = Json.ofStr? o
  | .null, .null, _, _ => ⟨none, rfl⟩
  | .string, .str s, _, _ => ⟨some s, rfl⟩
  | .pattern _, .str s, _, _ => ⟨some s, rfl⟩
  | .enum _, .str s, _, _ => ⟨some s, rfl⟩
  | .const _, .str s, _, _ => ⟨some s, rfl⟩
  | .anyOf _, _, hs, hv => Schema.anyText_valid hs hv
theorem Schema.anyText_valid : ∀ {ss : List Schema} {j : Json}, Schema.allText ss = true → Schema.validAny ss j = true →
    ∃ o, j = Json.ofStr? o
  | s :: ss, j, hs, hv => by
    simp only [Schema.allText, Schema.validAny, Bool.and_eq_true, Bool.or_eq_true] at hs hv
    rcases hv with hv | hv
    · exact Schema.text_valid hs.1 hv
    · exact Schema.anyText_valid hs.2 hv
end

/-- Only lists of strings conform. -/
def Schema.isTexts : Schema → Bool
  | .array .string => true
  | _ => false

theorem Schema.texts_valid {s : Schema} {j : Json} (hs : s.isTexts = true) (hv : s.valid j = true) :
    ∃ xs : List String, j = .arr (xs.map .str) := by
  unfold isTexts at hs
  split at hs
  · cases j <;> simp only [valid, Bool.false_eq_true] at hv
    rename_i xs
    refine ⟨xs.filterMap Json.str?, congrArg Json.arr ?_⟩
    induction xs with
    | nil => rfl
    | cons x xs ih =>
      simp only [List.all_cons, Bool.and_eq_true] at hv
      cases x <;> simp only [valid, Bool.false_eq_true, false_and] at hv
      exact congrArg _ (ih hv.2)
  · cases hs

end Umd.Lib
