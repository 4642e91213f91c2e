import Umd.Lib.Json
/-!
# Fields across the sandbox boundary

How a worker's result is written into a dictionary, field by field, and how the
fields are read back: `d.get(k) or default` takes the default for every value that
is false, so each reader has a lemma on what the writer wrote. A field that Python
reads back as it stands is read at the field's type.
-/

namespace Umd.Sandbox

open Umd.Lib

/-- `float(n)`, with one zero. -/
def floatNumber : Number → Number
  | .dec m e => if m = 0 then .dec 0 1 else (Number.dec m e).toFloat
  | n => n

theorem floatNumber_idem (n : Number) : floatNumber (floatNumber n) = floatNumber n := by
  cases n with
  | dec m e =>
    by_cases h : m = 0
    · rw [h]
      rfl
    · cases e <;> simp [floatNumber, Number.toFloat, h]
  | nan => rfl
  | inf => rfl
  | negInf => rfl

/-- A `float`: a number that is written as one. -/
@[ext]
structure PyReal where
  number : Number
  isFloat : floatNumber number = number
deriving DecidableEq

namespace PyReal

def ofNumber (n : Number) : PyReal := ⟨floatNumber n, floatNumber_idem n⟩

/-- `0.0` -/
def zero : PyReal := ⟨.dec 0 1, rfl⟩

@[simp] theorem ofNumber_number (x : PyReal) : ofNumber x.number = x := by
  obtain ⟨number, h⟩ := x
  unfold ofNumber
  congr

end PyReal

/-! ## Writing -/

/-- An `int`. -/
def ofInt (n : Int) : Json := .num (.dec n 0)

def ofReal (x : PyReal) : Json := .num x.number

def ofStrs (xs : List String) : Json := .arr (xs.map .str)

def ofDicts (xs : List Dict) : Json := .arr (xs.map .obj)

/-- A value, or `None`. -/
def ofOption {α : Type} (write : α → Json) : Option α → Json
  | some a => write a
  | none => .null

/-! ## Reading -/

/-- `d` of a `from_dict`, whose fields are read with `d.get`. -/
def fields : Json → Except PyError Dict
  | .obj d => .ok d
  | _ => .error .attributeError

/-- `str(x or default)` -/
def strOr (v : Json) (default : String) : String := pyStr (pyOr v (.str default))

/-- `float(x)` -/
def toReal : Json → Except PyError PyReal
  | .num n => .ok (PyReal.ofNumber n)
  | .bool b => .ok (PyReal.ofNumber (boolNum b))
  | .str _ => .error .valueError
  | _ => .error .typeError

/-- `float(x or default)` -/
def realOr (v : Json) (default : PyReal) : Except PyError PyReal := toReal (pyOr v (ofReal default))

/-- `int(x)`; the text of a number is not read. -/
def toInt : Json → Except PyError Int
  | .num (.dec m e) => .ok (m.tdiv (10 ^ e))
  | .num _ | .str _ => .error .valueError
  | .bool b => .ok (if b then 1 else 0)
  | _ => .error .typeError

/-- `int(x or 0)` -/
def intOr (v : Json) : Except PyError Int := toInt (pyOr v (ofInt 0))

/-- `int(d[k])` -/
def intAt (d : Dict) (k : String) : Except PyError Int :=
  match d.get? k with
  | some v => toInt v
  | none => .error .keyError

/-- A field that may be `None`, at its type. -/
def optional {α : Type} (read : Json → Except PyError α) : Json → Except PyError (Option α)
  | .null => .ok none
  | v => (read v).map some

def asStr : Json → Except PyError String
  | .str s => .ok s
  | _ => .error .typeError

def asInt : Json → Except PyError Int
  | .num (.dec m 0) => .ok m
  | _ => .error .typeError

def asReal : Json → Except PyError PyReal
  | .num n => if n = (PyReal.ofNumber n).number then .ok (PyReal.ofNumber n) else .error .typeError
  | _ => .error .typeError

def asDict : Json → Except PyError Dict
  | .obj d => .ok d
  | _ => .error .typeError

/-- `[read(x) for x in v or []]` -/
def listOf {α : Type} (read : Json → Except PyError α) (v : Json) : Except PyError (List α) := do
  (← pyList v).mapM read

/-! ## What is read of what was written -/

/-- A value that is its own default is read back. -/
@[simp] theorem fill_self {α : Type} [DecidableEq α] (a blank : α) : (if a = blank then blank else a) = a := by
  split
  · rename_i h
    exact h.symm
  · rfl

/-- With another default, it is read back unless it is blank. -/
theorem fill_eq_iff {α : Type} [DecidableEq α] {default blank : α} (hne : default ≠ blank) (a : α) :
    (if a = blank then default else a) = a ↔ a ≠ blank := by
  rw [ite_eq_right_iff]
  constructor
  · rintro h rfl
    exact hne (h rfl)
  · exact fun h he => absurd he h

/-- Only zero is false. -/
theorem truthy_ofReal (x : PyReal) : (ofReal x).truthy = true ↔ x ≠ .zero := by
  rw [ne_eq, PyReal.ext_iff]
  have hzero : PyReal.zero.number = .dec 0 1 := rfl
  obtain ⟨number, h⟩ := x
  rw [hzero]
  unfold ofReal
  dsimp only
  cases number with
  | dec m e =>
    by_cases hm : m = 0
    · subst hm
      rw [← h]
      simp [floatNumber, Json.truthy]
    · simp [Json.truthy, hm]
  | nan => simp [Json.truthy]
  | inf => simp [Json.truthy]
  | negInf => simp [Json.truthy]

@[simp] theorem strOr_str (s default : String) : strOr (.str s) default = if s = "" then default else s := by
  unfold strOr pyOr
  by_cases h : s = "" <;> simp [Json.truthy, h, pyStr]

@[simp] theorem realOr_ofReal (x default : PyReal) :
    realOr (ofReal x) default = .ok (if x = .zero then default else x) := by
  unfold realOr pyOr
  by_cases h : x = .zero
  · rw [if_neg fun ht => (truthy_ofReal x).1 ht h, if_pos h]
    simp [ofReal, toReal]
  · rw [if_pos ((truthy_ofReal x).2 h), if_neg h]
    simp [ofReal, toReal]

theorem toInt_ofInt (n : Int) : toInt (ofInt n) = .ok n := by
  simp [toInt, ofInt]

@[simp] theorem intOr_ofInt (n : Int) : intOr (ofInt n) = .ok n := by
  unfold intOr pyOr
  by_cases h : n = 0
  · subst h
    rfl
  · rw [if_pos (by simp [ofInt, Json.truthy, h]), toInt_ofInt]

@[simp] theorem truthy_bool (b : Bool) : (Json.bool b).truthy = b := rfl

@[simp] theorem pyDict_obj (d : Dict) : pyDict (.obj d) = .ok d := by
  unfold pyDict
  cases d <;> rfl

@[simp] theorem pyList_arr (xs : List Json) : pyList (.arr xs) = .ok xs := by
  unfold pyList
  cases xs <;> rfl

theorem map_eq_self {α : Type} {f : α → α} {xs : List α} : xs.map f = xs ↔ ∀ x ∈ xs, f x = x := by
  conv_lhs => rhs; rw [← List.map_id xs]
  exact List.map_inj_left

/-- A list is read back when each of its elements is. -/
theorem listOf_map {α β : Type} {read : Json → Except PyError β} {write : α → Json} {f : α → β}
    (h : ∀ a, read (write a) = .ok (f a)) (xs : List α) : listOf read (.arr (xs.map write)) = .ok (xs.map f) := by
  unfold listOf
  rw [pyList_arr]
  change (xs.map write).mapM read = _
  induction xs with
  | nil => rfl
  | cons x xs ih =>
    rw [List.map_cons, List.mapM_cons, h, ih]
    rfl

@[simp] theorem listOf_ofStrs (xs : List String) : listOf asStr (ofStrs xs) = .ok xs := by
  unfold ofStrs
  rw [@listOf_map _ _ asStr .str id fun _ => rfl, List.map_id]

@[simp] theorem listOf_ofDicts (xs : List Dict) : listOf asDict (ofDicts xs) = .ok xs := by
  unfold ofDicts
  rw [@listOf_map _ _ asDict .obj id fun _ => rfl, List.map_id]

theorem optional_ofOption {α β : Type} {read : Json → Except PyError β} {write : α → Json} {f : α → β}
    (h : ∀ a, read (write a) = .ok (f a)) (hne : ∀ a, write a ≠ .null) (x : Option α) :
    optional read (ofOption write x) = .ok (x.map f) := by
  cases x with
  | none => rfl
  | some a =>
    unfold ofOption optional
    split
    · rename_i hnull
      exact absurd hnull (hne a)
    · rw [h]
      rfl

@[simp] theorem optional_str (x : Option String) : optional asStr (ofOption .str x) = .ok x := by
  rw [@optional_ofOption _ _ asStr .str id (fun _ => rfl) nofun, Option.map_id, id]

@[simp] theorem optional_int (x : Option Int) : optional asInt (ofOption ofInt x) = .ok x := by
  rw [@optional_ofOption _ _ asInt ofInt id (fun _ => rfl) nofun, Option.map_id, id]

@[simp] theorem optional_real (x : Option PyReal) : optional asReal (ofOption ofReal x) = .ok x := by
  have hread : ∀ a, asReal (ofReal a) = .ok (id a) := by
    intro a
    simp [asReal, ofReal]
  rw [@optional_ofOption _ _ asReal ofReal id hread nofun, Option.map_id, id]

@[simp] theorem optional_dict (x : Option Dict) : optional asDict (ofOption .obj x) = .ok x := by
  rw [@optional_ofOption _ _ asDict .obj id (fun _ => rfl) nofun, Option.map_id, id]

end Umd.Sandbox
