import Umd.Lib.Json
/-!
# UUIDs

A UUID as 32 hexadecimal digits, its two texts, and the two readers: PostgreSQL's
`uuid` input and Python's `uuid.UUID`. Both read back both texts, and whatever
PostgreSQL reads Python reads as the same value.
-/

namespace Umd.Lib

-- named, so that the digits of all modules rest on one proof
instance digitsNeZero : NeZero 16 := ⟨by decide⟩

structure UuidValue where
  digits : List (Fin 16)
  length_digits : digits.length = 32
deriving DecidableEq

/-- The lower-case digit. -/
def digitChar (d : Fin 16) : Char := hexDigit d

namespace UuidValue

def ofDigits (ds : List (Fin 16)) : Option UuidValue := if h : ds.length = 32 then some ⟨ds, h⟩ else none

def chars (u : UuidValue) : List Char := u.digits.map digitChar

/-- `UUID.hex` -/
def hex (u : UuidValue) : String := String.ofList u.chars

/-- `str(UUID)` -/
def dashed (u : UuidValue) : String :=
  String.ofList (u.chars.take 8 ++ '-' :: (u.chars.drop 8).take 4 ++ '-' :: (u.chars.drop 12).take 4 ++
    '-' :: (u.chars.drop 16).take 4 ++ '-' :: u.chars.drop 20)

end UuidValue

/-! ## PostgreSQL's reader -/

def hexFin (c : Char) : Option (Fin 16) := (hexVal c).map (Fin.ofNat 16)

def dropHyphen : List Char → List Char
  | '-' :: cs => cs
  | cs => cs

/-- `n` bytes of two digits, a hyphen after each second one but the last, and the text after them. -/
def scanBytes : Nat → List Char → Option (List (Fin 16) × List Char)
  | 0, cs => some ([], cs)
  | n + 1, a :: b :: cs =>
    match hexFin a, hexFin b, scanBytes n (if n % 2 = 0 ∧ 0 < n then dropHyphen cs else cs) with
    | some x, some y, some (ds, rest) => some (x :: y :: ds, rest)
    | _, _, _ => none
  | _ + 1, _ => none

/-- `uuid_in`: braces around the text are allowed. -/
def pgUuid (s : String) : Option UuidValue :=
  match s.toList with
  | '\x7b' :: cs =>
    match scanBytes 16 cs with
    | some (ds, ['\x7d']) => UuidValue.ofDigits ds
    | _ => none
  | cs =>
    match scanBytes 16 cs with
    | some (ds, []) => UuidValue.ofDigits ds
    | _ => none

/-! ## Python's reader -/

/-- `s.replace("urn:", "")` -/
def removeUrn : List Char → List Char
  | [] => []
  | 'u' :: 'r' :: 'n' :: ':' :: cs => removeUrn cs
  | c :: cs => c :: removeUrn cs

/-- `s.replace("uuid:", "")` -/
def removeUuid : List Char → List Char
  | [] => []
  | 'u' :: 'u' :: 'i' :: 'd' :: ':' :: cs => removeUuid cs
  | c :: cs => c :: removeUuid cs

def isBrace (c : Char) : Bool := c = '\x7b' ∨ c = '\x7d'

/-- `s.strip("{}")` -/
def stripBraces (cs : List Char) : List Char := ((cs.dropWhile isBrace).reverse.dropWhile isBrace).reverse

/-- `int(s, 16)`, digit by digit. -/
def readDigits : List Char → Option (List (Fin 16))
  | [] => some []
  | c :: cs =>
    match hexFin c, readDigits cs with
    | some d, some ds => some (d :: ds)
    | _, _ => none

/-- `uuid.UUID(s)`, on texts of plain hexadecimal digits. -/
def pyUuid (s : String) : Option UuidValue :=
  (readDigits ((stripBraces (removeUuid (removeUrn s.toList))).filter (· ≠ '-'))).bind UuidValue.ofDigits

/-! ## What PostgreSQL reads Python reads -/

/-- A hyphen may come off in front. -/
theorem dropHyphen_eq (cs : List Char) : cs = dropHyphen cs ∨ cs = '-' :: dropHyphen cs := by
  match cs with
  | [] => exact .inl rfl
  | c :: cs =>
    by_cases hc : c = '-'
    · subst hc; exact .inr rfl
    · left
      unfold dropHyphen
      split
      · rename_i h; cases h; exact absurd rfl hc
      · rfl

/-- What is scanned is digits and hyphens, and without the hyphens they read the same. -/
theorem scanBytes_text {n : Nat} {cs rest : List Char} {ds : List (Fin 16)} (h : scanBytes n cs = some (ds, rest)) :
    ∃ pre, cs = pre ++ rest ∧ (∀ c ∈ pre, c = '-' ∨ (hexFin c).isSome) ∧ readDigits (pre.filter (· ≠ '-')) = some ds := by
  induction n generalizing cs ds with
  | zero => cases h; exact ⟨[], rfl, by simp, rfl⟩
  | succ n ih =>
    match cs with
    | [] | [_] => cases h
    | a :: b :: cs =>
      simp only [scanBytes] at h
      split at h
      · rename_i x y ds' rest' ha hb hs
        cases h
        obtain ⟨pre, hcs, hpre, hds⟩ := ih hs
        have hyphen : ∀ {c z}, hexFin c = some z → c ≠ '-' := by rintro c z hc rfl; cases hc
        have hsplit : ∃ hy, cs = hy ++ pre ++ rest ∧ (hy = [] ∨ hy = ['-']) := by
          split at hcs
          · rcases dropHyphen_eq cs with hd | hd
            · exact ⟨[], by rw [hd, hcs]; rfl, .inl rfl⟩
            · exact ⟨['-'], by rw [hd, hcs]; rfl, .inr rfl⟩
          · exact ⟨[], hcs, .inl rfl⟩
        obtain ⟨hy, hcs, hhy⟩ := hsplit
        refine ⟨a :: b :: (hy ++ pre), by simp [hcs], fun c hc => ?_, ?_⟩
        · simp only [List.mem_cons, List.mem_append] at hc
          rcases hc with rfl | rfl | hc | hc
          · right; simp [ha]
          · right; simp [hb]
          · rcases hhy with rfl | rfl
            · cases hc
            · left; exact List.mem_singleton.1 hc
          · exact hpre c hc
        · have hnil : hy.filter (· ≠ '-') = [] := by rcases hhy with rfl | rfl <;> rfl
          simp only [List.filter_cons, hyphen ha, hyphen hb, ne_eq, not_false_eq_true, decide_true, if_true,
            List.filter_append, hnil, List.nil_append, readDigits, ha, hb]
          simp only [ne_eq] at hds
          rw [hds]
      · cases h

theorem removeUrn_eq {cs : List Char} (h : ':' ∉ cs) : removeUrn cs = cs := by
  induction cs using removeUrn.induct with
  | case1 => rfl
  | case2 cs ih => simp at h
  | case3 c cs hne ih => rw [removeUrn, ih (fun hc => h (List.mem_cons_of_mem _ hc))]; exact hne

theorem removeUuid_eq {cs : List Char} (h : ':' ∉ cs) : removeUuid cs = cs := by
  induction cs using removeUuid.induct with
  | case1 => rfl
  | case2 cs ih => simp at h
  | case3 c cs hne ih => rw [removeUuid, ih (fun hc => h (List.mem_cons_of_mem _ hc))]; exact hne

theorem dropWhile_none {p : Char → Bool} {cs : List Char} (h : ∀ c ∈ cs, p c = false) : cs.dropWhile p = cs := by
  cases cs with
  | nil => rfl
  | cons c cs => rw [List.dropWhile_cons, h c (by simp), if_neg (by simp)]

/-- Braces around a text without braces are stripped. -/
theorem stripBraces_eq {cs : List Char} (h : ∀ c ∈ cs, isBrace c = false) :
    stripBraces cs = cs ∧ stripBraces ('\x7b' :: (cs ++ ['\x7d'])) = cs := by
  have hrev : ∀ c ∈ cs.reverse, isBrace c = false := fun c hc => h c (List.mem_reverse.1 hc)
  constructor
  · rw [stripBraces, dropWhile_none h, dropWhile_none hrev, List.reverse_reverse]
  · cases cs with
    | nil => rfl
    | cons c cs =>
      have hc : isBrace c = false := h c (by simp)
      rw [stripBraces, List.dropWhile_cons, if_pos (by rfl), List.cons_append, List.dropWhile_cons, if_neg (by simp [hc]),
        ← List.cons_append, List.reverse_append, List.reverse_singleton, List.singleton_append, List.dropWhile_cons,
        if_pos (by rfl), dropWhile_none hrev, List.reverse_reverse]

/-- **A spelling PostgreSQL accepts has the same value for Python.** -/
theorem pyUuid_of_pgUuid {s : String} {u : UuidValue} (h : pgUuid s = some u) : pyUuid s = some u := by
  have plain : ∀ {pre : List Char}, (∀ c ∈ pre, c = '-' ∨ (hexFin c).isSome) → ':' ∉ pre ∧ ∀ c ∈ pre, isBrace c = false := by
    intro pre hpre
    refine ⟨fun hc => ?_, fun c hc => ?_⟩
    · rcases hpre _ hc with hc | hc <;> cases hc
    · rw [Bool.eq_false_iff]
      intro hb
      rcases of_decide_eq_true hb with rfl | rfl <;> rcases hpre _ hc with hc | hc <;> cases hc
  unfold pgUuid at h
  split at h
  · rename_i cs hs
    split at h
    · rename_i ds hscan
      obtain ⟨pre, rfl, hpre, hds⟩ := scanBytes_text hscan
      obtain ⟨hcolon, hbrace⟩ := plain hpre
      have hall : ':' ∉ '\x7b' :: (pre ++ ['\x7d']) := by simpa using hcolon
      rw [pyUuid, hs, removeUrn_eq hall, removeUuid_eq hall, (stripBraces_eq hbrace).2, hds]
      exact h
    · cases h
  · split at h
    · rename_i ds hscan
      obtain ⟨pre, hs, hpre, hds⟩ := scanBytes_text hscan
      obtain ⟨hcolon, hbrace⟩ := plain hpre
      rw [List.append_nil] at hs
      rw [pyUuid, hs, removeUrn_eq hcolon, removeUuid_eq hcolon, (stripBraces_eq hbrace).1, hds]
      exact h
    · cases h

/-! ## PostgreSQL reads both texts -/

theorem hexFin_digitChar : ∀ d : Fin 16, hexFin (digitChar d) = some d := by decide

theorem digitChar_plain : ∀ d : Fin 16, digitChar d ≠ '-' ∧ digitChar d ≠ '\x7b' := by decide

theorem dropHyphen_digit (d : Fin 16) (cs : List Char) : dropHyphen (digitChar d :: cs) = digitChar d :: cs := by
  unfold dropHyphen
  split
  · rename_i h
    exact absurd (List.cons.inj h).1 (digitChar_plain d).1
  · rfl

theorem scanBytes_pair (n : Nat) (x y : Fin 16) (cs : List Char) : scanBytes (n + 1) (digitChar x :: digitChar y :: cs) =
    (scanBytes n (if n % 2 = 0 ∧ 0 < n then dropHyphen cs else cs)).map fun p => (x :: y :: p.1, p.2) := by
  rw [scanBytes, hexFin_digitChar, hexFin_digitChar]
  cases scanBytes n (if n % 2 = 0 ∧ 0 < n then dropHyphen cs else cs) <;> rfl

/-- Some bytes of digits without hyphens, and the text after them. -/
theorem scanBytes_digits (m : Nat) (rest : List Char) {n : Nat} {ds : List (Fin 16)} (h : ds.length = 2 * (n + 1)) :
    scanBytes (n + 1 + m) (ds.map digitChar ++ rest) =
      (scanBytes m (if m % 2 = 0 ∧ 0 < m then dropHyphen rest else rest)).map fun p => (ds ++ p.1, p.2) := by
  induction n generalizing ds with
  | zero =>
    match ds, h with
    | [x, y], _ =>
      rw [Nat.zero_add, Nat.add_comm 1 m]
      exact scanBytes_pair m x y rest
  | succ n ih =>
    match ds, h with
    | x :: y :: d :: ds, h =>
      have hlength : (d :: ds).length = 2 * (n + 1) := by simp only [List.length_cons] at h ⊢; omega
      have hnext : ∀ k, (if k % 2 = 0 ∧ 0 < k then dropHyphen ((d :: ds).map digitChar ++ rest) else (d :: ds).map digitChar ++ rest) =
          (d :: ds).map digitChar ++ rest := by
        intro k
        split
        · exact dropHyphen_digit d _
        · rfl
      rw [show n + 1 + 1 + m = n + 1 + m + 1 by omega, List.map_cons, List.map_cons, List.cons_append, List.cons_append, scanBytes_pair,
        hnext, ih hlength, Option.map_map]
      rfl

theorem pgUuid_plain {s : String} {ds : List (Fin 16)} (hs : ∃ d cs, s.toList = digitChar d :: cs) (h : scanBytes 16 s.toList = some (ds, [])) :
    pgUuid s = UuidValue.ofDigits ds := by
  obtain ⟨d, cs, hs⟩ := hs
  unfold pgUuid
  split
  · rename_i he
    rw [hs] at he
    exact absurd (List.cons.inj he).1 (digitChar_plain d).2
  · rw [h]

theorem ofDigits_digits (u : UuidValue) : UuidValue.ofDigits u.digits = some u := dif_pos u.length_digits

theorem digits_cons (u : UuidValue) : ∃ d ds, u.digits = d :: ds :=
  List.exists_cons_of_ne_nil fun h => by have hlength := u.length_digits; rw [h] at hlength; cases hlength

theorem pgUuid_hex (u : UuidValue) : pgUuid u.hex = some u := by
  obtain ⟨d, ds, hd⟩ := digits_cons u
  have hscan : scanBytes 16 u.hex.toList = some (u.digits, []) := by
    have h := @scanBytes_digits 0 [] 15 u.digits u.length_digits
    rw [List.append_nil] at h
    rw [UuidValue.hex, String.toList_ofList, UuidValue.chars, h]
    simp [scanBytes]
  rw [pgUuid_plain ⟨d, ds.map digitChar, by rw [UuidValue.hex, String.toList_ofList, UuidValue.chars, hd]; rfl⟩ hscan, ofDigits_digits]

theorem pgUuid_dashed (u : UuidValue) : pgUuid u.dashed = some u := by
  obtain ⟨d, ds, hd⟩ := digits_cons u
  have hlength := u.length_digits
  have htext : u.dashed.toList = (u.digits.take 8).map digitChar ++ '-' :: (((u.digits.drop 8).take 4).map digitChar ++
      '-' :: (((u.digits.drop 12).take 4).map digitChar ++ '-' :: (((u.digits.drop 16).take 4).map digitChar ++
      '-' :: ((u.digits.drop 20).map digitChar ++ [])))) := by
    simp [UuidValue.dashed, UuidValue.chars, List.map_take, List.map_drop]
  have hsplit : u.digits.take 8 ++ ((u.digits.drop 8).take 4 ++ ((u.digits.drop 12).take 4 ++ ((u.digits.drop 16).take 4 ++ u.digits.drop 20))) =
      u.digits := by
    have hjoin : ∀ i, (u.digits.drop i).take 4 ++ u.digits.drop (i + 4) = u.digits.drop i := fun i => by
      rw [← List.drop_drop, List.take_append_drop]
    rw [hjoin 16, hjoin 12, hjoin 8, List.take_append_drop]
  have hhyphen : ∀ cs, dropHyphen ('-' :: cs) = cs := fun _ => rfl
  have hscan : scanBytes 16 u.dashed.toList = some (u.digits, []) := by
    rw [htext, @scanBytes_digits 12 _ 3 _ (by rw [List.length_take]; omega), if_pos (by decide), hhyphen,
      @scanBytes_digits 10 _ 1 _ (by rw [List.length_take, List.length_drop]; omega), if_pos (by decide), hhyphen,
      @scanBytes_digits 8 _ 1 _ (by rw [List.length_take, List.length_drop]; omega), if_pos (by decide), hhyphen,
      @scanBytes_digits 6 _ 1 _ (by rw [List.length_take, List.length_drop]; omega), if_pos (by decide), hhyphen,
      @scanBytes_digits 0 _ 5 _ (by rw [List.length_drop]; omega), if_neg (by decide)]
    simp [scanBytes, hsplit]
  refine (pgUuid_plain ⟨d, (u.dashed.toList).tail, ?_⟩ hscan).trans (ofDigits_digits u)
  rw [htext, hd]
  rfl

end Umd.Lib
