import Umd.Lib.JsonText
/-!
# Reading back what was written

`json.loads` of what `json.dumps` wrote is the value itself, up to the order of the
keys of its objects and the zeros at the end of a fraction (`loads_dumps`).
-/

namespace Umd.Lib

/-! ## Numbers -/

theorem isDigit_eq (c : Char) : isDigit c = c.isDigit := by
  unfold isDigit Char.isDigit
  rw [Bool.decide_and]
  rfl

theorem digitsVal_eq (ds : List Char) : digitsVal ds = Nat.ofDigitChars 10 ds 0 := rfl

theorem toDigits_digits (n : Nat) : ∀ c ∈ Nat.toDigits 10 n, isDigit c = true := by
  intro c hc
  rw [isDigit_eq]
  exact Nat.isDigit_of_mem_toDigits (by decide) (by decide) hc

/-- The digits of a number that is not zero begin with no zero. -/
theorem toDigits_head {n : Nat} (h : 0 < n) : (Nat.toDigits 10 n).head? ≠ some '0' := by
  induction n using Nat.strong_induction_on with
  | _ n ih =>
    rw [Nat.toDigits_eq_if (by decide)]
    split
    · rename_i hlt
      interval_cases n <;> decide
    · rename_i hge
      have hne : Nat.toDigits 10 (n / 10) ≠ [] := Nat.toDigits_ne_nil
      rw [List.head?_append_of_ne_nil _ hne]
      exact ih (n / 10) (by omega) (by omega)

/-- Nothing follows, or what ends an item or a member. -/
def Ends (rest : List Char) : Prop := ∀ c ∈ rest.head?, c = ',' ∨ c = ']' ∨ c = '\x7d'

theorem Ends.not_digit {rest : List Char} (h : Ends rest) : rest.takeWhile isDigit = [] ∧ rest.dropWhile isDigit = rest := by
  cases rest with
  | nil => exact ⟨rfl, rfl⟩
  | cons c cs =>
    have hc : isDigit c = false := by rcases h c rfl with rfl | rfl | rfl <;> rfl
    rw [List.takeWhile_cons, List.dropWhile_cons, hc]
    exact ⟨rfl, rfl⟩

theorem Ends.scanFrac {rest : List Char} (h : Ends rest) : scanFrac rest = ([], rest) := by
  cases rest with
  | nil => rfl
  | cons c cs =>
    rcases h c rfl with rfl | rfl | rfl <;> rfl

theorem Ends.scanExp {rest : List Char} (h : Ends rest) : scanExp rest = (none, rest) := by
  cases rest with
  | nil => rfl
  | cons c cs =>
    have he : ¬ (c = 'e' ∨ c = 'E') := by rcases h c rfl with rfl | rfl | rfl <;> decide
    unfold Umd.Lib.scanExp
    dsimp only
    rw [if_neg fun hc => he hc.1]

theorem takeWhile_digits {ds rest : List Char} (hd : ∀ c ∈ ds, isDigit c = true) (hr : rest.takeWhile isDigit = []) :
    (ds ++ rest).takeWhile isDigit = ds := by
  rw [List.takeWhile_append_of_pos hd, hr, List.append_nil]

theorem dropWhile_digits {ds rest : List Char} (hd : ∀ c ∈ ds, isDigit c = true) (hr : rest.dropWhile isDigit = rest) :
    (ds ++ rest).dropWhile isDigit = rest := by
  rw [List.dropWhile_append_of_pos hd, hr]

/-- The sign that was read apart. -/
def signed (neg : Bool) (n : Nat) : Int := if neg then -n else n

/-- The value of the digits before and after the point. -/
def decimal (m : Int) : Nat → Number
  | 0 => .dec m 0
  | e + 1 => trimZeros m (e + 1)

theorem scanNumber_eq (neg : Bool) {cs ints frac rest cs₁ : List Char}
    (hints : (if cs.head? = some '0' then ['0'] else cs.takeWhile isDigit) = ints) (hne : ints ≠ [])
    (hfrac : scanFrac (cs.drop ints.length) = (frac, cs₁)) (hexp : scanExp cs₁ = (none, rest)) :
    scanNumber neg cs = some (decimal (signed neg (digitsVal (ints ++ frac))) frac.length, rest) := by
  unfold scanNumber
  rw [hints]
  dsimp only
  rw [if_neg (by simpa using hne), hfrac]
  dsimp only
  rw [hexp]
  dsimp only
  cases frac with
  | nil => rw [if_pos ⟨rfl, rfl⟩]; rfl
  | cons c frac =>
    rw [if_neg fun h => by simp at h]
    have he : ((c :: frac).length : Int) - Option.getD none 0 = ((frac.length + 1 : ℕ) : Int) := by simp
    rw [he, if_pos (by omega), Int.toNat_natCast]
    rfl

/-- An integer reads back. -/
theorem scanNumber_int (neg : Bool) (n : Nat) {rest : List Char} (hr : Ends rest) :
    scanNumber neg (Nat.toDigits 10 n ++ rest) = some (.dec (signed neg n) 0, rest) := by
  have hints : (if (Nat.toDigits 10 n ++ rest).head? = some '0' then ['0'] else (Nat.toDigits 10 n ++ rest).takeWhile isDigit) =
      Nat.toDigits 10 n := by
    rw [List.head?_append_of_ne_nil _ Nat.toDigits_ne_nil]
    rcases Nat.eq_zero_or_pos n with rfl | hn
    · rfl
    · rw [if_neg (toDigits_head hn), takeWhile_digits (toDigits_digits n) hr.not_digit.1]
  rw [scanNumber_eq neg hints Nat.toDigits_ne_nil (by rw [List.drop_left]; exact hr.scanFrac) hr.scanExp, List.append_nil,
    digitsVal_eq, Nat.ofDigitChars_ten_toDigits]
  rfl

/-- The digits of a decimal, with zeros in front so that one stands before the point. -/
def padded (n e : Nat) : List Char := List.replicate (e + 1 - (Nat.toDigits 10 n).length) '0' ++ Nat.toDigits 10 n

theorem padded_digits (n e : Nat) : ∀ c ∈ padded n e, isDigit c = true := by
  intro c hc
  rcases List.mem_append.1 hc with hc | hc
  · rw [List.eq_of_mem_replicate hc]
    rfl
  · exact toDigits_digits n c hc

theorem padded_val (n e : Nat) : digitsVal (padded n e) = n := by
  rw [digitsVal_eq, padded, Nat.ofDigitChars_append, Nat.ofDigitChars_replicate_zero, Nat.mul_zero, Nat.ofDigitChars_ten_toDigits]

theorem padded_length (n e : Nat) : e < (padded n e).length := by
  rw [padded, List.length_append, List.length_replicate]
  omega

/-- A decimal reads back, up to the zeros at the end of its fraction. -/
theorem scanNumber_dec (neg : Bool) (n e : Nat) {rest : List Char} (hr : Ends rest) :
    scanNumber neg ((padded n (e + 1)).take ((padded n (e + 1)).length - (e + 1)) ++
      '.' :: ((padded n (e + 1)).drop ((padded n (e + 1)).length - (e + 1)) ++ rest)) =
      some (trimZeros (signed neg n) (e + 1), rest) := by
  set ds := padded n (e + 1) with hds
  set k := ds.length - (e + 1) with hk
  have hlen : e + 1 < ds.length := padded_length n (e + 1)
  have hd : ∀ c ∈ ds, isDigit c = true := padded_digits n (e + 1)
  have hne : ds.take k ≠ [] := by
    rw [Ne, List.take_eq_nil_iff]
    rintro (h | h)
    · omega
    · rw [h] at hlen
      exact absurd hlen (Nat.not_lt_zero _)
  have hfraclen : (ds.drop k).length = e + 1 := by
    rw [List.length_drop]
    omega
  have hints : (if (ds.take k ++ '.' :: (ds.drop k ++ rest)).head? = some '0' then ['0'] else
      (ds.take k ++ '.' :: (ds.drop k ++ rest)).takeWhile isDigit) = ds.take k := by
    rw [List.head?_append_of_ne_nil _ hne]
    by_cases hpad : (Nat.toDigits 10 n).length < e + 2
    · -- zeros were put in front, and one digit stands before the point
      have hone : k = 1 := by
        rw [hk, hds, padded, List.length_append, List.length_replicate]
        omega
      have hzero : ds.take k = ['0'] := by
        rw [hone, hds, padded]
        obtain ⟨z, hz⟩ : ∃ z, e + 1 + 1 - (Nat.toDigits 10 n).length = z + 1 := ⟨_, (Nat.succ_pred_eq_of_pos (by omega)).symm⟩
        rw [hz, List.replicate_succ]
        rfl
      rw [hzero]
      rfl
    · have hplain : ds = Nat.toDigits 10 n := by
        rw [hds, padded, Nat.sub_eq_zero_of_le (by omega)]
        rfl
      have hpos : 0 < n := by
        rcases Nat.eq_zero_or_pos n with rfl | hn
        · exact absurd (by simp [Nat.toDigits_zero] : (Nat.toDigits 10 0).length < e + 2) hpad
        · exact hn
      have hhead : (ds.take k).head? ≠ some '0' := by
        rw [List.head?_take, if_neg (by omega), hplain]
        exact toDigits_head hpos
      rw [if_neg hhead]
      exact takeWhile_digits (fun c hc => hd c (List.mem_of_mem_take hc)) rfl
  have hfrac : scanFrac ((ds.take k ++ '.' :: (ds.drop k ++ rest)).drop (ds.take k).length) = (ds.drop k, rest) := by
    rw [List.drop_left]
    have hfd : ∀ c ∈ ds.drop k, isDigit c = true := fun c hc => hd c (List.mem_of_mem_drop hc)
    change (if ((ds.drop k ++ rest).takeWhile isDigit).isEmpty then _ else _) = _
    rw [takeWhile_digits hfd hr.not_digit.1, dropWhile_digits hfd hr.not_digit.2, if_neg]
    rw [List.isEmpty_iff]
    intro h
    rw [h] at hfraclen
    cases hfraclen
  rw [scanNumber_eq neg hints hne hfrac hr.scanExp, List.take_append_drop, hfraclen, hds, padded_val]
  rfl

/-! ## Atoms -/

/-- A number as it reads back. -/
def Number.norm : Number → Number
  | .dec m e => decimal m e
  | n => n

theorem signed_natAbs (m : Int) : signed (decide (m < 0)) m.natAbs = m := by
  unfold signed
  by_cases h : m < 0
  · rw [decide_eq_true h, if_pos rfl]
    omega
  · rw [decide_eq_false h, if_neg Bool.false_ne_true]
    omega

theorem text_int (m : Int) : (Number.dec m 0).text.toList = (if m < 0 then ['-'] else []) ++ Nat.toDigits 10 m.natAbs := by
  change (toString m).toList = _
  rw [Int.toString_eq_repr, Int.repr_eq_if]
  split
  · rename_i h
    rw [if_neg (by omega), List.nil_append, Nat.toList_repr]
    congr 1
    omega
  · rename_i h
    have habs : (-m).toNat = m.natAbs := by omega
    rw [if_pos (by omega), String.toList_append, Nat.toList_repr, habs]
    rfl

theorem text_dec (m : Int) (e : Nat) : (Number.dec m (e + 1)).text.toList = (if m < 0 then ['-'] else []) ++
    ((padded m.natAbs (e + 1)).take ((padded m.natAbs (e + 1)).length - (e + 1)) ++
      '.' :: (padded m.natAbs (e + 1)).drop ((padded m.natAbs (e + 1)).length - (e + 1))) := by
  have htext : (Number.dec m (e + 1)).text = (if m < 0 then "-" else "") ++
      String.ofList ((padded m.natAbs (e + 1)).take ((padded m.natAbs (e + 1)).length - (e + 1))) ++ "." ++
      String.ofList ((padded m.natAbs (e + 1)).drop ((padded m.natAbs (e + 1)).length - (e + 1))) := by
    simp only [Number.text, padded, Nat.toList_repr]
  rw [htext]
  simp only [String.toList_append, String.toList_ofList]
  change _ ++ _ ++ ['.'] ++ _ = _
  rw [List.append_assoc, List.append_assoc, List.singleton_append]
  congr 1
  split <;> rfl

/-- Its digits follow the sign of a number. -/
theorem text_toList (m : Int) (e : Nat) : ∃ ds : List Char, (∃ c cs, ds = c :: cs ∧ isDigit c = true) ∧
    (Number.dec m e).text.toList = (if m < 0 then ['-'] else []) ++ ds ∧
    ∀ (neg : Bool) {rest : List Char}, Ends rest → scanNumber neg (ds ++ rest) = some (decimal (signed neg m.natAbs) e, rest) := by
  have hhead : ∀ {ds : List Char}, ds ≠ [] → (∀ c ∈ ds, isDigit c = true) → ∀ ds', ∃ c cs, ds ++ ds' = c :: cs ∧ isDigit c = true := by
    intro ds hne hd ds'
    obtain ⟨c, cs, rfl⟩ := List.exists_cons_of_ne_nil hne
    exact ⟨c, _, rfl, hd c (.head _)⟩
  cases e with
  | zero =>
    refine ⟨Nat.toDigits 10 m.natAbs, ?_, ?_, fun neg rest hr => scanNumber_int neg _ hr⟩
    · have h := hhead (@Nat.toDigits_ne_nil m.natAbs 10) (toDigits_digits _) []
      rwa [List.append_nil] at h
    · exact text_int m
  | succ e =>
    have hlen := padded_length m.natAbs (e + 1)
    refine ⟨(padded m.natAbs (e + 1)).take ((padded m.natAbs (e + 1)).length - (e + 1)) ++
      '.' :: (padded m.natAbs (e + 1)).drop ((padded m.natAbs (e + 1)).length - (e + 1)), ?_, ?_, fun neg rest hr => ?_⟩
    · refine hhead ?_ (fun c hc => padded_digits _ _ c (List.mem_of_mem_take hc)) _
      rw [Ne, List.take_eq_nil_iff]
      rintro (h | h)
      · omega
      · rw [h] at hlen
        exact absurd hlen (Nat.not_lt_zero _)
    · exact text_dec m e
    · rw [List.append_assoc, List.cons_append]
      exact scanNumber_dec neg m.natAbs e hr

theorem scanAtom_digit {c : Char} (hc : isDigit c = true) (cs : List Char) :
    scanAtom (c :: cs) = (scanNumber false (c :: cs)).map fun p => (.num p.1, p.2) := by
  have hne : ∀ x : Char, isDigit x = false → (x == c) = false := by
    intro x hx
    rw [beq_eq_false_iff_ne]
    rintro rfl
    rw [hx] at hc
    cases hc
  have hminus : c ≠ '-' := by
    rintro rfl
    cases hc
  have hnull : "null".toList = ['n', 'u', 'l', 'l'] := rfl
  have htrue : "true".toList = ['t', 'r', 'u', 'e'] := rfl
  have hfalse : "false".toList = ['f', 'a', 'l', 's', 'e'] := rfl
  have hnan : "NaN".toList = ['N', 'a', 'N'] := rfl
  have hinf : "Infinity".toList = ['I', 'n', 'f', 'i', 'n', 'i', 't', 'y'] := rfl
  have hneg : "-Infinity".toList = ['-', 'I', 'n', 'f', 'i', 'n', 'i', 't', 'y'] := rfl
  unfold scanAtom
  simp only [hnull, htrue, hfalse, hnan, hinf, hneg, List.isPrefixOf, hne 'n' rfl, hne 't' rfl, hne 'f' rfl, hne 'N' rfl,
    hne 'I' rfl, hne '-' rfl, Bool.false_and, Bool.false_eq_true, if_false]
  split
  · rename_i h
    exact absurd (List.cons.inj h).1 hminus
  · rfl

theorem scanAtom_minus {c : Char} (hc : isDigit c = true) (cs : List Char) :
    scanAtom ('-' :: c :: cs) = (scanNumber true (c :: cs)).map fun p => (.num p.1, p.2) := by
  have hne : ('I' == c) = false := by
    rw [beq_eq_false_iff_ne]
    rintro rfl
    cases hc
  have hneg : "-Infinity".toList = ['-', 'I', 'n', 'f', 'i', 'n', 'i', 't', 'y'] := rfl
  unfold scanAtom
  rw [if_neg nofun, if_neg nofun, if_neg nofun, if_neg nofun, if_neg nofun]
  simp only [hneg, List.isPrefixOf, hne, Bool.false_and, Bool.and_false, Bool.false_eq_true, if_false]

/-- A number before the end of its item reads back. -/
theorem scanAtom_num (n : Number) {rest : List Char} (hr : Ends rest) :
    scanAtom (n.json.toList ++ rest) = some (.num n.norm, rest) := by
  cases n with
  | nan => rfl
  | inf => rfl
  | negInf => rfl
  | dec m e =>
    obtain ⟨ds, ⟨c, cs, hds, hc⟩, htext, hscan⟩ := text_toList m e
    change scanAtom ((Number.dec m e).text.toList ++ rest) = _
    have hval : signed (decide (m < 0)) m.natAbs = m := signed_natAbs m
    rw [htext]
    by_cases hm : m < 0
    · rw [if_pos hm, List.append_assoc, List.singleton_append, hds, List.cons_append, scanAtom_minus hc, ← List.cons_append, ← hds,
        hscan true hr]
      rw [decide_eq_true hm] at hval
      rw [hval]
      rfl
    · rw [if_neg hm, List.nil_append, hds, List.cons_append, scanAtom_digit hc, ← List.cons_append, ← hds, hscan false hr]
      rw [decide_eq_false hm] at hval
      rw [hval]
      rfl

/-! ## Values -/

/-- A field at its key, in front of those that are not less. -/
def insertEntry {α : Type} (k : String) (v : α) : List (String × α) → List (String × α)
  | [] => [(k, v)]
  | (k', v') :: fs => if k ≤ k' then (k, v) :: (k', v') :: fs else (k', v') :: insertEntry k v fs

/-- The fields by their keys. -/
def sortFields {α : Type} (d : List (String × α)) : List (String × α) := d.foldr (fun f => insertEntry f.1 f.2) []

mutual
/-- A value as it reads back. -/
def Json.norm : Json → Json
  | .num n => .num n.norm
  | .arr xs => .arr (Json.normList xs)
  | .obj d => .obj (Dict.update [] (sortFields (Json.normFields d)))
  | j => j
def Json.normList : List Json → List Json
  | [] => []
  | x :: xs => x.norm :: Json.normList xs
def Json.normFields : List (String × Json) → List (String × Json)
  | [] => []
  | (k, v) :: d => (k, v.norm) :: Json.normFields d
end

theorem normList_eq (xs : List Json) : Json.normList xs = xs.map Json.norm := by
  induction xs with
  | nil => rfl
  | cons x xs ih => rw [Json.normList, ih, List.map_cons]

theorem normFields_eq (d : Dict) : Json.normFields d = d.map fun f => (f.1, f.2.norm) := by
  induction d with
  | nil => rfl
  | cons f d ih => rw [Json.normFields, ih, List.map_cons]

theorem insertEntry_perm {α : Type} (k : String) (v : α) (fs : List (String × α)) : (insertEntry k v fs).Perm ((k, v) :: fs) := by
  induction fs with
  | nil => exact List.Perm.refl _
  | cons f fs ih =>
    unfold insertEntry
    split
    · exact List.Perm.refl _
    · exact (ih.cons _).trans (List.Perm.swap ..)

theorem sortFields_perm {α : Type} (d : List (String × α)) : (sortFields d).Perm d := by
  induction d with
  | nil => exact List.Perm.refl _
  | cons f d ih => exact (insertEntry_perm f.1 f.2 _).trans (ih.cons f)

theorem insertEntry_map {α β : Type} (g : α → β) (k : String) (v : α) (fs : List (String × α)) :
    insertEntry k (g v) (fs.map fun f => (f.1, g f.2)) = (insertEntry k v fs).map fun f => (f.1, g f.2) := by
  induction fs with
  | nil => rfl
  | cons f fs ih =>
    rw [List.map_cons, insertEntry, insertEntry, ih]
    split <;> rfl

theorem sortFields_map {α β : Type} (g : α → β) (d : List (String × α)) :
    sortFields (d.map fun f => (f.1, g f.2)) = (sortFields d).map fun f => (f.1, g f.2) := by
  induction d with
  | nil => rfl
  | cons f d ih =>
    change insertEntry f.1 (g f.2) (sortFields _) = _
    rw [ih, insertEntry_map]
    rfl

theorem insertField_eq (k t : String) (fs : List (String × String)) : insertField k t fs = insertEntry k t fs := by
  induction fs with
  | nil => rfl
  | cons f fs ih => rw [insertField, insertEntry, ih]

/-- The fields of an object are written by their keys. -/
theorem dumpsFields_eq (item key : String) (d : Dict) :
    dumpsFields item key d = (sortFields d).map fun f => (f.1, dumpsWith item key f.2) := by
  induction d with
  | nil => rfl
  | cons f d ih =>
    rw [dumpsFields, ih, insertField_eq, insertEntry_map]
    rfl

theorem dumpsList_eq (item key : String) (xs : List Json) : dumpsList item key xs = xs.map (dumpsWith item key) := by
  induction xs with
  | nil => rfl
  | cons x xs ih => rw [dumpsList, ih, List.map_cons]

theorem intercalate_toList (sep t : String) (ts : List String) :
    (sep.intercalate (t :: ts)).toList = t.toList ++ ts.flatMap fun t => sep.toList ++ t.toList := by
  induction ts generalizing t with
  | nil => simp
  | cons u us ih =>
    rw [String.intercalate_cons_cons, String.toList_append, String.toList_append, ih, List.flatMap_cons]
    simp

/-- A fact about every value, from the items of an array and the values of an object. -/
theorem Json.ind {P : Json → Prop} (null : P .null) (bool : ∀ b, P (.bool b)) (num : ∀ n, P (.num n)) (str : ∀ s, P (.str s))
    (arr : ∀ xs, (∀ x ∈ xs, P x) → P (.arr xs)) (obj : ∀ d : Dict, (∀ f ∈ d, P f.2) → P (.obj d)) : ∀ j, P j
  | .null => null
  | .bool b => bool b
  | .num n => num n
  | .str s => str s
  | .arr xs => arr xs fun x _ => Json.ind null bool num str arr obj x
  | .obj d => obj d fun f _ => Json.ind null bool num str arr obj f.2
termination_by j => sizeOf j
decreasing_by
  · rename_i h
    have := List.sizeOf_lt_of_mem h
    simp only [Json.arr.sizeOf_spec]
    omega
  · rename_i h
    have h1 := List.sizeOf_lt_of_mem h
    obtain ⟨k, v⟩ := f
    simp only [Json.obj.sizeOf_spec, Prod.mk.sizeOf_spec] at h1 ⊢
    omega

/-! ## Reading a value -/

/-- A character that begins a value. -/
def Starts (c : Char) : Prop := c ≠ ' ' ∧ c ≠ '\t' ∧ c ≠ '\n' ∧ c ≠ '\r' ∧ c ≠ ']' ∧ c ≠ '\x7d'

instance (c : Char) : Decidable (Starts c) := inferInstanceAs (Decidable (_ ∧ _))

/-- It begins none of a string, an array and an object. -/
def Plain (c : Char) : Prop := c ≠ '\x22' ∧ c ≠ '[' ∧ c ≠ '\x7b'

instance (c : Char) : Decidable (Plain c) := inferInstanceAs (Decidable (_ ∧ _))

theorem Starts.skipWs {c : Char} (h : Starts c) (cs : List Char) : skipWs (c :: cs) = c :: cs := by
  rw [Umd.Lib.skipWs, if_neg]
  rintro (hc | hc | hc | hc)
  · exact h.1 hc
  · exact h.2.1 hc
  · exact h.2.2.1 hc
  · exact h.2.2.2.1 hc

theorem starts_digit {c : Char} (h : isDigit c = true) : Starts c ∧ Plain c := by
  refine ⟨⟨?_, ?_, ?_, ?_, ?_, ?_⟩, ?_, ?_, ?_⟩ <;> (rintro rfl; cases h)

theorem num_starts (n : Number) : ∃ c cs, n.json.toList = c :: cs ∧ Starts c ∧ Plain c := by
  cases n with
  | nan => exact ⟨'N', _, rfl, by decide⟩
  | inf => exact ⟨'I', _, rfl, by decide⟩
  | negInf => exact ⟨'-', _, rfl, by decide⟩
  | dec m e =>
    obtain ⟨ds, ⟨c, cs, rfl, hc⟩, htext, -⟩ := text_toList m e
    change ∃ c' cs', (Number.dec m e).text.toList = c' :: cs' ∧ _
    rw [htext]
    split
    · exact ⟨'-', _, rfl, by decide⟩
    · exact ⟨c, cs, rfl, starts_digit hc⟩

/-- What is written begins with the first character of a value. -/
theorem dumps_starts (j : Json) : ∃ c cs, (dumps j).toList = c :: cs ∧ Starts c := by
  cases j with
  | null => exact ⟨'n', _, rfl, by decide⟩
  | bool b => cases b
              · exact ⟨'f', _, rfl, by decide⟩
              · exact ⟨'t', _, rfl, by decide⟩
  | str s => exact ⟨'\x22', _, quoted_toList s, by decide⟩
  | arr xs =>
    refine ⟨'[', (", ".intercalate (dumpsList ", " ": " xs)).toList ++ [']'], ?_, by decide⟩
    rw [dumps, dumpsWith, String.toList_append, String.toList_append]
    rfl
  | obj d =>
    refine ⟨'\x7b', (", ".intercalate ((dumpsFields ", " ": " d).map fun f => quoted f.1 ++ ": " ++ f.2)).toList ++ ['\x7d'], ?_,
      by decide⟩
    rw [dumps, dumpsWith, String.toList_append, String.toList_append]
    rfl
  | num n =>
    obtain ⟨c, cs, hc, hs, -⟩ := num_starts n
    exact ⟨c, cs, hc, hs⟩

/-- The value reads back before the end of an item, with fuel for every two of its characters. -/
def Reads (j : Json) : Prop :=
  ∀ (n : ℕ) (rest : List Char), Ends rest → 2 * (dumps j).toList.length ≤ n →
    scanValue n ((dumps j).toList ++ rest) = some (j.norm, rest)

theorem fuel_pos {j : Json} {n : ℕ} (h : 2 * (dumps j).toList.length ≤ n) : ∃ m, n = m + 1 := by
  obtain ⟨c, cs, hc, -⟩ := dumps_starts j
  rw [hc, List.length_cons] at h
  exact ⟨n - 1, by omega⟩

theorem reads_str (s : String) : Reads (.str s) := by
  intro n rest _ hn
  obtain ⟨m, rfl⟩ := fuel_pos hn
  have htext : (dumps (.str s)).toList ++ rest = '\x22' :: ((quoted s).toList.tail ++ rest) := by
    change (quoted s).toList ++ rest = _
    rw [quoted_toList]
    rfl
  rw [htext, scanValue, scanString_quoted]
  rfl

theorem scanValue_atom {c : Char} (h : Plain c) (n : ℕ) (cs : List Char) : scanValue (n + 1) (c :: cs) = scanAtom (c :: cs) := by
  unfold scanValue
  split
  · exact absurd (List.cons.inj ‹_›).1 h.1
  · exact absurd (List.cons.inj ‹_›).1 h.2.1
  · exact absurd (List.cons.inj ‹_›).1 h.2.2
  · rfl

theorem reads_num (k : Number) : Reads (.num k) := by
  intro n rest hr hn
  obtain ⟨m, rfl⟩ := fuel_pos hn
  obtain ⟨c, cs, hc, -, hp⟩ := num_starts k
  change scanValue (m + 1) (k.json.toList ++ rest) = some (.num k.norm, rest)
  rw [← scanAtom_num k hr, hc]
  exact scanValue_atom hp m _

theorem reads_null : Reads .null := by
  intro n rest _ hn
  obtain ⟨m, rfl⟩ := fuel_pos hn
  exact scanValue_atom (by decide : Plain 'n') m _

theorem reads_bool (b : Bool) : Reads (.bool b) := by
  intro n rest _ hn
  obtain ⟨m, rfl⟩ := fuel_pos hn
  cases b with
  | false => exact scanValue_atom (by decide : Plain 'f') m _
  | true => exact scanValue_atom (by decide : Plain 't') m _

/-! ## Arrays -/

/-- The items after the first one, and the closing bracket. -/
def itemsTail (xs : List Json) (rest : List Char) : List Char :=
  (xs.flatMap fun x => ',' :: ' ' :: (dumps x).toList) ++ ']' :: rest

theorem itemsTail_ends (xs : List Json) (rest : List Char) : Ends (itemsTail xs rest) := by
  intro c hc
  cases xs with
  | nil =>
    cases hc
    exact .inr (.inl rfl)
  | cons x xs =>
    cases hc
    exact .inl rfl

theorem items_read {xs : List Json} : ∀ {x : Json} {n : ℕ} {rest : List Char}, (∀ y ∈ x :: xs, Reads y) →
    2 * ((dumps x).toList ++ itemsTail xs []).length ≤ n →
    scanItems n ((dumps x).toList ++ itemsTail xs rest) = some ((x :: xs).map Json.norm, rest) := by
  induction xs with
  | nil =>
    intro x n rest hx hn
    rw [List.length_append] at hn
    obtain ⟨m, rfl⟩ : ∃ m, n = m + 1 := by
      obtain ⟨c, cs, hc, -⟩ := dumps_starts x
      rw [hc, List.length_cons] at hn
      exact ⟨n - 1, by omega⟩
    have hone : (itemsTail [] []).length = 1 := rfl
    rw [scanItems, hx x (.head _) m _ (itemsTail_ends [] rest) (by omega)]
    rfl
  | cons y xs ih =>
    intro x n rest hx hn
    rw [List.length_append] at hn
    have htail : ∀ rest, itemsTail (y :: xs) rest = ',' :: ' ' :: ((dumps y).toList ++ itemsTail xs rest) := by
      intro rest
      unfold itemsTail
      rw [List.flatMap_cons, List.append_assoc]
      rfl
    have hlen : (itemsTail (y :: xs) []).length = ((dumps y).toList ++ itemsTail xs []).length + 2 := by
      rw [htail]
      rfl
    obtain ⟨m, rfl⟩ : ∃ m, n = m + 1 := ⟨n - 1, by omega⟩
    obtain ⟨c, cs, hc, hs⟩ := dumps_starts y
    have hskip : skipWs (' ' :: ((dumps y).toList ++ itemsTail xs rest)) = (dumps y).toList ++ itemsTail xs rest := by
      rw [skipWs, if_pos (.inl rfl), hc]
      exact hs.skipWs _
    rw [scanItems, hx x (.head _) m _ (itemsTail_ends _ rest) (by omega), htail]
    have hcomma : ∀ cs, skipWs (',' :: cs) = ',' :: cs := fun cs => if_neg (by decide)
    simp only [Option.bind_eq_bind, Option.bind_some, hcomma, hskip,
      @ih y m rest (fun z hz => hx z (.tail _ hz)) (by omega)]
    rfl

theorem reads_arr {xs : List Json} (h : ∀ x ∈ xs, Reads x) : Reads (.arr xs) := by
  intro n rest _ hn
  obtain ⟨m, rfl⟩ := fuel_pos hn
  cases xs with
  | nil => rfl
  | cons x xs =>
    have htext : ∀ rest, (dumps (.arr (x :: xs))).toList ++ rest = '[' :: ((dumps x).toList ++ itemsTail xs rest) := by
      intro rest
      rw [dumps, dumpsWith, dumpsList_eq, List.map_cons, String.toList_append, String.toList_append, intercalate_toList,
        List.flatMap_map, itemsTail]
      simp only [List.append_assoc]
      rfl
    have hlen : (dumps (.arr (x :: xs))).toList.length = ((dumps x).toList ++ itemsTail xs []).length + 1 := by
      rw [← List.append_nil (dumps (.arr (x :: xs))).toList, htext]
      rfl
    obtain ⟨c, cs, hc, hs⟩ := dumps_starts x
    have hskip : skipWs ((dumps x).toList ++ itemsTail xs rest) = (dumps x).toList ++ itemsTail xs rest := by
      rw [hc]
      exact hs.skipWs _
    have hread := @items_read xs x m rest h (by omega)
    rw [htext, scanValue, hskip]
    split
    · rename_i r' hbracket
      rw [hc] at hbracket
      exact absurd (List.cons.inj hbracket).1 hs.2.2.2.2.1
    · rw [hread]
      simp only [Option.map_some, Json.norm, normList_eq]

/-! ## Objects -/

/-- A field as it is written. -/
def fieldText (f : String × Json) : List Char := (quoted f.1).toList ++ ':' :: ' ' :: (dumps f.2).toList

/-- The fields after the first one, and the closing brace. -/
def fieldsTail (fs : Dict) (rest : List Char) : List Char := (fs.flatMap fun f => ',' :: ' ' :: fieldText f) ++ '\x7d' :: rest

theorem fieldsTail_ends (fs : Dict) (rest : List Char) : Ends (fieldsTail fs rest) := by
  intro c hc
  cases fs with
  | nil =>
    cases hc
    exact .inr (.inr rfl)
  | cons f fs =>
    cases hc
    exact .inl rfl

theorem fieldText_starts (f : String × Json) : ∃ cs, fieldText f = '\x22' :: cs := by
  unfold fieldText
  rw [quoted_toList]
  exact ⟨_, rfl⟩

/-- A field reads back, the last one before its brace and another before its comma. -/
theorem field_read {f : String × Json} (hf : Reads f.2) {n : ℕ} (d : Dict) (hn : 2 * (fieldText f).length ≤ n) (r : List Char) :
    scanMembers (n + 1) d (fieldText f ++ '\x7d' :: r) = some (d.set f.1 f.2.norm, r) ∧
      scanMembers (n + 1) d (fieldText f ++ ',' :: r) = scanMembers n (d.set f.1 f.2.norm) (skipWs r) := by
  have hlen : (dumps f.2).toList.length ≤ (fieldText f).length := by
    unfold fieldText
    rw [List.length_append, List.length_cons, List.length_cons]
    omega
  have htext : ∀ rest, fieldText f ++ rest = '\x22' :: ((quoted f.1).toList.tail ++ ':' :: ' ' :: ((dumps f.2).toList ++ rest)) := by
    intro rest
    unfold fieldText
    rw [quoted_toList]
    simp only [List.cons_append, List.append_assoc, List.tail_cons]
  obtain ⟨c, cs, hc, hs⟩ := dumps_starts f.2
  have hskip : ∀ rest, skipWs (' ' :: ((dumps f.2).toList ++ rest)) = (dumps f.2).toList ++ rest := by
    intro rest
    rw [skipWs, if_pos (.inl rfl), hc]
    exact hs.skipWs _
  have hread : ∀ c r, Ends (c :: r) → scanValue n ((dumps f.2).toList ++ c :: r) = some (f.2.norm, c :: r) := fun c r hr =>
    hf n (c :: r) hr (by omega)
  have hbrace : Ends ('\x7d' :: r) := fun c hc => .inr (.inr (Option.some.inj hc).symm)
  have hcomma : Ends (',' :: r) := fun c hc => .inl (Option.some.inj hc).symm
  have hcolon : ∀ cs, skipWs (':' :: cs) = ':' :: cs := fun cs => if_neg (by decide)
  have hlast : skipWs ('\x7d' :: r) = '\x7d' :: r := if_neg (by decide)
  have hnext : skipWs (',' :: r) = ',' :: r := if_neg (by decide)
  constructor
  · rw [htext, scanMembers]
    simp only [List.head?_cons, if_true, List.tail_cons, Option.bind_eq_bind, Option.bind_some, scanString_quoted, hcolon, hskip,
      hread _ _ hbrace, hlast]
  · rw [htext, scanMembers]
    simp only [List.head?_cons, if_true, List.tail_cons, Option.bind_eq_bind, Option.bind_some, scanString_quoted, hcolon, hskip,
      hread _ _ hcomma, hnext]

theorem fields_read {fs : Dict} : ∀ {f : String × Json} {n : ℕ} {d : Dict} {rest : List Char}, (∀ g ∈ f :: fs, Reads g.2) →
    2 * (fieldText f ++ fieldsTail fs []).length ≤ n →
    scanMembers n d (fieldText f ++ fieldsTail fs rest) = some (d.update ((f :: fs).map fun g => (g.1, g.2.norm)), rest) := by
  induction fs with
  | nil =>
    intro f n d rest hf hn
    rw [List.length_append] at hn
    have hone : (fieldsTail [] []).length = 1 := rfl
    obtain ⟨m, rfl⟩ : ∃ m, n = m + 1 := ⟨n - 1, by omega⟩
    exact (field_read (hf f (.head _)) d (by omega) rest).1
  | cons g fs ih =>
    intro f n d rest hf hn
    rw [List.length_append] at hn
    have htail : ∀ rest, fieldsTail (g :: fs) rest = ',' :: ' ' :: (fieldText g ++ fieldsTail fs rest) := by
      intro rest
      unfold fieldsTail
      rw [List.flatMap_cons, List.append_assoc]
      rfl
    have hlen : (fieldsTail (g :: fs) []).length = (fieldText g ++ fieldsTail fs []).length + 2 := by
      rw [htail]
      rfl
    obtain ⟨m, rfl⟩ : ∃ m, n = m + 1 := ⟨n - 1, by omega⟩
    obtain ⟨cs, hc⟩ := fieldText_starts g
    have hskip : skipWs (' ' :: (fieldText g ++ fieldsTail fs rest)) = fieldText g ++ fieldsTail fs rest := by
      rw [skipWs, if_pos (.inl rfl), hc]
      exact if_neg (by decide)
    rw [htail, (field_read (hf f (.head _)) d (by omega) _).2, hskip, ih (fun g' hg => hf g' (.tail _ hg)) (by omega)]
    rfl

theorem reads_obj {d : Dict} (h : ∀ f ∈ d, Reads f.2) : Reads (.obj d) := by
  intro n rest _ hn
  obtain ⟨m, rfl⟩ := fuel_pos hn
  have hnorm : (Json.obj d).norm = .obj (Dict.update [] ((sortFields d).map fun f => (f.1, f.2.norm))) := by
    rw [Json.norm, normFields_eq, sortFields_map]
  have hsorted : ∀ f ∈ sortFields d, Reads f.2 := fun f hf => h f ((sortFields_perm d).mem_iff.1 hf)
  have htexts : (dumpsFields ", " ": " d).map (fun f => quoted f.1 ++ ": " ++ f.2) =
      (sortFields d).map fun f => quoted f.1 ++ ": " ++ dumps f.2 := by
    rw [dumpsFields_eq, List.map_map]
    rfl
  have hfield : ∀ f : String × Json, (quoted f.1 ++ ": " ++ dumps f.2).toList = fieldText f := by
    intro f
    rw [String.toList_append, String.toList_append, List.append_assoc]
    rfl
  have hdumps : (dumps (.obj d)).toList =
      '\x7b' :: ((", ".intercalate ((sortFields d).map fun f => quoted f.1 ++ ": " ++ dumps f.2)).toList ++ ['\x7d']) := by
    rw [dumps, dumpsWith, htexts, String.toList_append, String.toList_append]
    rfl
  rw [hnorm]
  cases hfs : sortFields d with
  | nil =>
    rw [hdumps, hfs]
    rfl
  | cons f fs =>
    rw [hfs] at hsorted
    have htext : ∀ rest, (dumps (.obj d)).toList ++ rest = '\x7b' :: (fieldText f ++ fieldsTail fs rest) := by
      intro rest
      rw [hdumps, hfs, List.map_cons, intercalate_toList, List.flatMap_map, hfield]
      simp only [hfield, fieldsTail, List.append_assoc, List.cons_append]
      rfl
    have hlen : (dumps (.obj d)).toList.length = (fieldText f ++ fieldsTail fs []).length + 1 := by
      rw [← List.append_nil (dumps (.obj d)).toList, htext]
      rfl
    obtain ⟨cs, hc⟩ := fieldText_starts f
    have hskip : skipWs (fieldText f ++ fieldsTail fs rest) = fieldText f ++ fieldsTail fs rest := by
      rw [hc]
      exact if_neg (by decide)
    rw [htext, scanValue, hskip]
    split
    · rename_i r' hbrace
      rw [hc] at hbrace
      exact absurd (List.cons.inj hbrace).1 (by decide)
    · rw [fields_read hsorted (by omega)]
      rfl

/-- Every value reads back. -/
theorem reads_json (j : Json) : Reads j :=
  Json.ind reads_null reads_bool reads_num reads_str (fun _ => reads_arr) (fun _ => reads_obj) j

/-- **`json.loads` reads what `json.dumps` wrote, up to the order of keys and the zeros at the end of a fraction.** -/
theorem loads_dumps (j : Json) : loads (dumps j) = some j.norm := by
  obtain ⟨c, cs, hc, hs⟩ := dumps_starts j
  have hskip : skipWs (dumps j).toList = (dumps j).toList := by
    rw [hc]
    exact hs.skipWs cs
  have hread := reads_json j (2 * (dumps j).length + 2) [] nofun (by rw [String.length_toList]; omega)
  rw [List.append_nil] at hread
  unfold loads
  rw [hskip, hread]
  rfl

end Umd.Lib
