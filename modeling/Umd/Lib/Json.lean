import Mathlib
/-!
# JSON values as Python holds them

What `json.loads` returns and `json.dumps` takes, with the `dict` and `list`
operations used on such values. An object is a list of fields in insertion
order with distinct keys. A number is the decimal its text shows: an `int` has
no fraction digits, a `float` has at least one. Strings are sequences of
Unicode scalar values, so a lone surrogate escape is not read.
-/

namespace Umd.Lib

-- named, so that what looks a text up in a list rests on one proof
instance textsLawful : LawfulBEq (List Char) := inferInstance

/-- An exception of the interpreter. -/
inductive PyError where
  | typeError
  | attributeError
  | valueError
  | keyError
  | runtimeError
deriving DecidableEq, Repr

/-- A number: `mantissa / 10 ^ exponent`, or what `json` reads beyond the standard. -/
inductive Number where
  | dec (mantissa : Int) (exponent : Nat)
  | nan
  | inf
  | negInf
deriving DecidableEq, Repr

inductive Json where
  | null
  | bool (b : Bool)
  | num (n : Number)
  | str (s : String)
  | arr (xs : List Json)
  | obj (fields : List (String × Json))
deriving Repr, BEq, Inhabited

/-- A `dict[str, Any]`. -/
abbrev Dict := List (String × Json)

namespace Dict

/-- `d[k]` where `k in d`. -/
def get? : Dict → String → Option Json
  | [], _ => none
  | (k', v) :: d, k => if k' = k then some v else get? d k

/-- `d.get(k)`, `None` where the key is absent. -/
def get (d : Dict) (k : String) : Json := (d.get? k).getD .null

/-- `d[k] = v`: a key that is there keeps its place. -/
def set : Dict → String → Json → Dict
  | [], k, v => [(k, v)]
  | (k', v') :: d, k, v => if k' = k then (k, v) :: d else (k', v') :: set d k v

/-- `d.setdefault(k, v)`. -/
def setdefault (d : Dict) (k : String) (v : Json) : Dict := if (d.get? k).isSome then d else d.set k v

/-- `d.update(e)`. -/
def update (d e : Dict) : Dict := e.foldl (fun d f => d.set f.1 f.2) d

def keys (d : Dict) : List String := d.map (·.1)

@[simp] theorem get?_nil (k : String) : get? [] k = none := rfl

theorem get?_set (d : Dict) (k k' : String) (v : Json) :
    (d.set k v).get? k' = if k = k' then some v else d.get? k' := by
  induction d with
  | nil => rfl
  | cons f d ih =>
    obtain ⟨k₀, v₀⟩ := f
    by_cases h : k₀ = k
    · by_cases h' : k = k' <;> simp [set, get?, h, h']
    · simp only [set, if_neg h, get?, ih]
      by_cases h' : k₀ = k'
      · simp only [if_pos h', if_neg fun e : k = k' => h (h'.trans e.symm)]
      · simp only [if_neg h']

theorem get?_setdefault_ne (d : Dict) {k k' : String} (v : Json) (h : k ≠ k') :
    (d.setdefault k v).get? k' = d.get? k' := by
  unfold setdefault
  split
  · rfl
  · rw [get?_set, if_neg h]

theorem get_setdefault_ne (d : Dict) {k k' : String} (v : Json) (h : k ≠ k') :
    (d.setdefault k v).get k' = d.get k' := by
  rw [get, get?_setdefault_ne d v h, get]

/-- A default of `None` is what `get` reads from an absent key. -/
theorem get_setdefault_null (d : Dict) (k k' : String) : (d.setdefault k .null).get k' = d.get k' := by
  by_cases h : k = k'
  · subst h
    unfold setdefault
    cases hk : d.get? k with
    | some v => simp
    | none => simp [get, get?_set, hk]
  · exact get_setdefault_ne d _ h

end Dict

namespace Json

/-- `bool(x)`. -/
def truthy : Json → Bool
  | null => false
  | bool b => b
  | num (.dec m _) => m ≠ 0
  | num _ => true
  | str s => s ≠ ""
  | arr xs => !xs.isEmpty
  | obj d => !d.isEmpty

/-- The string a value is, if it is one. -/
def str? : Json → Option String
  | str s => some s
  | _ => none

/-- The number a value is, if it is one. -/
def num? : Json → Option Number
  | num n => some n
  | _ => none

/-- The object a value is, if it is one. -/
def obj? : Json → Option Dict
  | obj d => some d
  | _ => none

/-- `x == s` for a string `s`. -/
def isStr (j : Json) (s : String) : Bool := j.str? == some s

theorem isStr_iff {j : Json} {s : String} : j.isStr s = true ↔ j = .str s := by
  cases j <;> simp [isStr, str?]

/-- A string, or `None`. -/
def ofStr? : Option String → Json
  | some s => str s
  | none => null

/-- A number, or `None`. -/
def ofNum? : Option Number → Json
  | some n => num n
  | none => null

/-- `x is None`. -/
def isNone : Json → Bool
  | null => true
  | _ => false

end Json

/-- `a or b`. -/
def pyOr (a b : Json) : Json := if a.truthy then a else b

/-! ## `str(x)` -/

def Number.text : Number → String
  | .dec m 0 => toString m
  | .dec m e =>
    let digits := m.natAbs.repr.toList
    let padded := List.replicate (e + 1 - digits.length) '0' ++ digits
    let n := padded.length - e
    (if m < 0 then "-" else "") ++ String.ofList (padded.take n) ++ "." ++ String.ofList (padded.drop n)
  | .nan => "nan"
  | .inf => "inf"
  | .negInf => "-inf"

def hexDigit (n : Nat) : Char := if n < 10 then Char.ofNat (48 + n) else Char.ofNat (87 + n)

/-- `width` hexadecimal digits. -/
def hexText (width n : Nat) : String :=
  String.ofList ((List.range width).map fun i => hexDigit (n / 16 ^ (width - 1 - i) % 16))

/-- One character inside a `repr` quoted by `quote`. -/
def reprChar (quote c : Char) : String :=
  if c = '\\' then "\\\\"
  else if c = quote then String.ofList ['\\', c]
  else if c = '\n' then "\\n"
  else if c = '\r' then "\\r"
  else if c = '\t' then "\\t"
  else if c.toNat < 32 ∨ c.toNat = 127 then "\\x" ++ hexText 2 c.toNat
  else String.singleton c

/-- `repr(s)`: single quotes unless the text has one and no double quote. -/
def reprStr (s : String) : String :=
  let quote := if '\x27' ∈ s.toList ∧ '\x22' ∉ s.toList then '\x22' else '\x27'
  String.singleton quote ++ String.join (s.toList.map (reprChar quote)) ++ String.singleton quote

mutual
/-- `repr(x)`. -/
def pyRepr : Json → String
  | .null => "None"
  | .bool b => if b then "True" else "False"
  | .num n => n.text
  | .str s => reprStr s
  | .arr xs => "[" ++ ", ".intercalate (pyReprList xs) ++ "]"
  | .obj d => "\x7b" ++ ", ".intercalate (pyReprFields d) ++ "\x7d"
def pyReprList : List Json → List String
  | [] => []
  | x :: xs => pyRepr x :: pyReprList xs
def pyReprFields : List (String × Json) → List String
  | [] => []
  | (k, v) :: d => (reprStr k ++ ": " ++ pyRepr v) :: pyReprFields d
end

/-- `str(x)`. -/
def pyStr : Json → String
  | .str s => s
  | j => pyRepr j

/-! ## `==`, `in` and conversions -/

/-- Numbers compare by value, whatever their type. -/
def Number.eq : Number → Number → Bool
  | .dec m e, .dec m' e' => m * 10 ^ e' == m' * 10 ^ e
  | .inf, .inf => true
  | .negInf, .negInf => true
  | _, _ => false

/-- A `bool` is an `int`. -/
def boolNum (b : Bool) : Number := .dec (if b then 1 else 0) 0

mutual
/-- `x == y`. -/
def pyEq : Json → Json → Bool
  | .null, .null => true
  | .bool a, .bool b => a == b
  | .bool a, .num n => (boolNum a).eq n
  | .num n, .bool b => n.eq (boolNum b)
  | .num a, .num b => a.eq b
  | .str a, .str b => a == b
  | .arr xs, .arr ys => pyEqList xs ys
  | .obj d, .obj e => d.length == e.length && pyEqFields d e
  | _, _ => false
def pyEqList : List Json → List Json → Bool
  | [], [] => true
  | x :: xs, y :: ys => pyEq x y && pyEqList xs ys
  | _, _ => false
def pyEqFields : List (String × Json) → Dict → Bool
  | [], _ => true
  | (k, v) :: d, e => (match e.get? k with | some w => pyEq v w | none => false) && pyEqFields d e
end

/-- `x in xs`. -/
def pyIn (x : Json) (xs : List Json) : Bool := xs.any (pyEq x)

/-- `list(x or [])`. -/
def pyList (j : Json) : Except PyError (List Json) :=
  if j.truthy then
    match j with
    | .arr xs => .ok xs
    | .str s => .ok (s.toList.map fun c => .str (String.singleton c))
    | .obj d => .ok ((Dict.keys d).map .str)
    | _ => .error .typeError
  else .ok []

/-- The items of `dict(x)` for a sequence of pairs; a key that is no string is not read. -/
def pairs : List Json → Except PyError Dict
  | [] => .ok []
  | .arr [.str k, v] :: xs => (pairs xs).map fun d => (k, v) :: d
  | .arr _ :: _ => .error .valueError
  | _ :: _ => .error .typeError

/-- `dict(x or {})`. -/
def pyDict (j : Json) : Except PyError Dict :=
  if j.truthy then
    match j with
    | .obj d => .ok d
    | .arr xs => (pairs xs).map (Dict.update [])
    | .str _ => .error .valueError
    | _ => .error .typeError
  else .ok []

/-- `float(n)`. -/
def Number.toFloat : Number → Number
  | .dec m 0 => .dec (m * 10) 1
  | n => n

/-- `float(x)`; the text of a number is not read. -/
def pyFloat : Json → Except PyError Json
  | .num n => .ok (.num n.toFloat)
  | .bool b => .ok (.num (boolNum b).toFloat)
  | .str _ => .error .valueError
  | _ => .error .typeError

/-! ## `json.dumps(x, sort_keys=True)` -/

/-- A `\uXXXX` escape, as a surrogate pair above the basic plane. -/
def unicodeEscape (n : Nat) : String :=
  if n < 0x10000 then "\\u" ++ hexText 4 n
  else "\\u" ++ hexText 4 (0xd800 + (n - 0x10000) / 0x400) ++ "\\u" ++ hexText 4 (0xdc00 + (n - 0x10000) % 0x400)

def escapeChar (c : Char) : String :=
  if c = '\x22' then "\\\""
  else if c = '\\' then "\\\\"
  else if c = '\n' then "\\n"
  else if c = '\r' then "\\r"
  else if c = '\t' then "\\t"
  else if c.toNat = 8 then "\\b"
  else if c.toNat = 12 then "\\f"
  else if c.toNat < 32 ∨ 126 < c.toNat then unicodeEscape c.toNat
  else String.singleton c

def quoted (s : String) : String := "\"" ++ String.join (s.toList.map escapeChar) ++ "\""

def Number.json : Number → String
  | .nan => "NaN"
  | .inf => "Infinity"
  | .negInf => "-Infinity"
  | n => n.text

/-- Fields by key, the first of equal keys in front. -/
def insertField (k t : String) : List (String × String) → List (String × String)
  | [] => [(k, t)]
  | (k', t') :: fs => if k ≤ k' then (k, t) :: (k', t') :: fs else (k', t') :: insertField k t fs

mutual
/-- `json.dumps(x, sort_keys=True, separators=(item, key))`. -/
def dumpsWith (item key : String) : Json → String
  | .null => "null"
  | .bool b => if b then "true" else "false"
  | .num n => n.json
  | .str s => quoted s
  | .arr xs => "[" ++ item.intercalate (dumpsList item key xs) ++ "]"
  | .obj d => "\x7b" ++ item.intercalate ((dumpsFields item key d).map fun f => quoted f.1 ++ key ++ f.2) ++ "\x7d"
def dumpsList (item key : String) : List Json → List String
  | [] => []
  | x :: xs => dumpsWith item key x :: dumpsList item key xs
def dumpsFields (item key : String) : List (String × Json) → List (String × String)
  | [] => []
  | (k, v) :: d => insertField k (dumpsWith item key v) (dumpsFields item key d)
end

/-- `json.dumps(x, sort_keys=True)`. -/
def dumps (j : Json) : String := dumpsWith ", " ": " j

/-! ## `json.loads(s)` -/

def skipWs : List Char → List Char
  | [] => []
  | c :: cs => if c = ' ' ∨ c = '\t' ∨ c = '\n' ∨ c = '\r' then skipWs cs else c :: cs

def hexVal (c : Char) : Option Nat :=
  if '0' ≤ c ∧ c ≤ '9' then some (c.toNat - 48)
  else if 'a' ≤ c ∧ c ≤ 'f' then some (c.toNat - 87)
  else if 'A' ≤ c ∧ c ≤ 'F' then some (c.toNat - 55)
  else none

def unescape (c : Char) : Option Nat :=
  if c = '\x22' ∨ c = '\\' ∨ c = '/' then some c.toNat
  else if c = 'b' then some 8
  else if c = 'f' then some 12
  else if c = 'n' then some 10
  else if c = 'r' then some 13
  else if c = 't' then some 9
  else none

/-- The code units up to the closing quote, and the text after it. -/
def scanUnits : List Char → Option (List Nat × List Char)
  | [] => none
  | '\\' :: 'u' :: a :: b :: c :: d :: cs => do
    let n := 4096 * (← hexVal a) + 256 * (← hexVal b) + 16 * (← hexVal c) + (← hexVal d)
    let (us, rest) ← scanUnits cs
    some (n :: us, rest)
  | '\\' :: e :: cs => do
    let n ← unescape e
    let (us, rest) ← scanUnits cs
    some (n :: us, rest)
  | c :: cs =>
    if c = '\x22' then some ([], cs)
    else if c.toNat < 32 ∨ c = '\\' then none
    else do
      let (us, rest) ← scanUnits cs
      some (c.toNat :: us, rest)

/-- The characters of the code units, surrogate pairs joined. -/
def decodeUnits : List Nat → Option (List Char)
  | [] => some []
  | hi :: us =>
    if 0xd800 ≤ hi ∧ hi < 0xdc00 then
      match us with
      | lo :: us' =>
        if 0xdc00 ≤ lo ∧ lo < 0xe000 then
          (decodeUnits us').map (Char.ofNat (0x10000 + (hi - 0xd800) * 0x400 + (lo - 0xdc00)) :: ·)
        else none
      | [] => none
    else if 0xdc00 ≤ hi ∧ hi < 0xe000 then none
    else (decodeUnits us).map (Char.ofNat hi :: ·)

def scanString (cs : List Char) : Option (String × List Char) := do
  let (us, rest) ← scanUnits cs
  some (String.ofList (← decodeUnits us), rest)

def digitsVal (ds : List Char) : Nat := ds.foldl (fun n c => 10 * n + (c.toNat - 48)) 0

/-- A `float` has a fraction digit, and no zero after it that is not needed. -/
def trimZeros : Int → Nat → Number
  | m, 0 => .dec (m * 10) 1
  | m, 1 => .dec m 1
  | m, e + 2 => if m % 10 = 0 then trimZeros (m / 10) (e + 1) else .dec m (e + 2)

def isDigit (c : Char) : Bool := decide ('0' ≤ c ∧ c ≤ '9')

/-- The fraction digits, if a point with digits follows. -/
def scanFrac : List Char → List Char × List Char
  | '.' :: cs => if (cs.takeWhile isDigit).isEmpty then ([], '.' :: cs) else (cs.takeWhile isDigit, cs.dropWhile isDigit)
  | cs => ([], cs)

/-- The exponent, if one follows. -/
def scanExp : List Char → Option Int × List Char
  | e :: cs =>
    let (neg, ds) := match cs with
      | '-' :: ds => (true, ds)
      | '+' :: ds => (false, ds)
      | ds => (false, ds)
    if (e = 'e' ∨ e = 'E') ∧ ¬ (ds.takeWhile isDigit).isEmpty then
      let x : Int := digitsVal (ds.takeWhile isDigit)
      (some (if neg then -x else x), ds.dropWhile isDigit)
    else (none, e :: cs)
  | [] => (none, [])

/-- A number without its sign; a leading zero stands alone. -/
def scanNumber (neg : Bool) (cs : List Char) : Option (Number × List Char) :=
  let ints := if cs.head? = some '0' then ['0'] else cs.takeWhile isDigit
  if ints.isEmpty then none else
  let (frac, cs₁) := scanFrac (cs.drop ints.length)
  let (exp, cs₂) := scanExp cs₁
  let m : Int := digitsVal (ints ++ frac)
  let m := if neg then -m else m
  if frac.isEmpty ∧ exp = none then some (.dec m 0, cs₂)
  else
    let e : Int := frac.length - exp.getD 0
    some (if 0 ≤ e then trimZeros m e.toNat else .dec (m * 10 ^ (-e).toNat * 10) 1, cs₂)

/-- A literal or a number. -/
def scanAtom (cs : List Char) : Option (Json × List Char) :=
  if "null".toList.isPrefixOf cs then some (.null, cs.drop 4)
  else if "true".toList.isPrefixOf cs then some (.bool true, cs.drop 4)
  else if "false".toList.isPrefixOf cs then some (.bool false, cs.drop 5)
  else if "NaN".toList.isPrefixOf cs then some (.num .nan, cs.drop 3)
  else if "Infinity".toList.isPrefixOf cs then some (.num .inf, cs.drop 8)
  else if "-Infinity".toList.isPrefixOf cs then some (.num .negInf, cs.drop 9)
  else match cs with
    | '-' :: ds => (scanNumber true ds).map fun p => (.num p.1, p.2)
    | ds => (scanNumber false ds).map fun p => (.num p.1, p.2)

mutual
/-- One value at the head of the text. -/
def scanValue : Nat → List Char → Option (Json × List Char)
  | 0, _ => none
  | n + 1, cs =>
    match cs with
    | '\x22' :: r => (scanString r).map fun p => (.str p.1, p.2)
    | '[' :: r =>
      match skipWs r with
      | ']' :: r' => some (.arr [], r')
      | r' => (scanItems n r').map fun p => (.arr p.1, p.2)
    | '\x7b' :: r =>
      match skipWs r with
      | '\x7d' :: r' => some (.obj [], r')
      | r' => (scanMembers n [] r').map fun p => (.obj p.1, p.2)
    | cs => scanAtom cs
/-- The items of an array up to its closing bracket. -/
def scanItems : Nat → List Char → Option (List Json × List Char)
  | 0, _ => none
  | n + 1, cs => do
    let (v, r) ← scanValue n cs
    match skipWs r with
    | ']' :: r' => some ([v], r')
    | ',' :: r' =>
      let (vs, r'') ← scanItems n (skipWs r')
      some (v :: vs, r'')
    | _ => none
/-- The members of an object up to its closing brace; the last of equal keys counts. -/
def scanMembers : Nat → Dict → List Char → Option (Dict × List Char)
  | 0, _, _ => none
  | n + 1, d, cs => do
    let r ← if cs.head? = some '\x22' then some cs.tail else none
    let (k, r) ← scanString r
    let r ← if (skipWs r).head? = some ':' then some (skipWs (skipWs r).tail) else none
    let (v, r) ← scanValue n r
    match skipWs r with
    | '\x7d' :: r' => some (d.set k v, r')
    | ',' :: r' => scanMembers n (d.set k v) (skipWs r')
    | _ => none
end

/-- `json.loads(s)`, `none` where it raises. -/
def loads (s : String) : Option Json := do
  let (v, rest) ← scanValue (2 * s.length + 2) (skipWs s.toList)
  if (skipWs rest).isEmpty then some v else none

example : (loads (dumps (.obj [("b", .arr [.null, .num (.dec (-25) 1)]), ("a", .str "x\n")]))).map dumps =
    some "\x7b\"a\": \"x\\n\", \"b\": [null, -2.5]\x7d" := by decide +kernel

end Umd.Lib
