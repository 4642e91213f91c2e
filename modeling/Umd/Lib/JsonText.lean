import Umd.Lib.Json
/-!
# Reading back quoted strings

`scanString` reads a string that `json.dumps` wrote, and stops after its closing
quote. So quoted strings can be told apart inside a longer text.
-/

namespace Umd.Lib

/-- The code units of a character. -/
def units (c : Char) : List Nat :=
  if c.toNat < 0x10000 then [c.toNat] else [0xd800 + (c.toNat - 0x10000) / 0x400, 0xdc00 + (c.toNat - 0x10000) % 0x400]

theorem hexVal_hexDigit {n : Nat} (h : n < 16) : hexVal (hexDigit n) = some n := by
  revert n
  decide

theorem hexText_four (n : Nat) :
    (hexText 4 n).toList =
      [hexDigit (n / 4096 % 16), hexDigit (n / 256 % 16), hexDigit (n / 16 % 16), hexDigit (n % 16)] := by
  simp [hexText, List.range_succ]

/-- An escape of one unit reads back. -/
theorem scanUnits_hex {n : Nat} (h : n < 0x10000) (cs : List Char) :
    scanUnits ('\\' :: 'u' :: ((hexText 4 n).toList ++ cs)) = (scanUnits cs).map fun r => (n :: r.1, r.2) := by
  rw [hexText_four]
  simp only [List.cons_append, List.nil_append, scanUnits, hexVal_hexDigit (Nat.mod_lt _ (by omega : 0 < 16))]
  have hn : 4096 * (n / 4096 % 16) + 256 * (n / 256 % 16) + 16 * (n / 16 % 16) + n % 16 = n := by omega
  cases scanUnits cs with
  | none => rfl
  | some r => simp [hn]

/-- A character that is escaped by one other reads back. -/
theorem scanUnits_short {e : Char} {n : Nat} (he : e ≠ 'u') (hn : unescape e = some n) (cs : List Char) :
    scanUnits ('\\' :: e :: cs) = (scanUnits cs).map fun r => (n :: r.1, r.2) := by
  rw [scanUnits]
  · rw [hn]
    cases scanUnits cs <;> rfl
  · rintro a b c d cs' h -
    exact he h

theorem scanUnits_plain {c : Char} (h : 32 ≤ c.toNat) (hq : c ≠ '\x22') (hs : c ≠ '\\') (cs : List Char) :
    scanUnits (c :: cs) = (scanUnits cs).map fun r => (c.toNat :: r.1, r.2) := by
  rw [scanUnits]
  · rw [if_neg hq, if_neg (by rintro (h' | h'); · omega
                              · exact hs h')]
    cases scanUnits cs <;> rfl
  · rintro a b c d cs' h - 
    exact hs h
  · rintro e cs' h -
    exact hs h

theorem units_small {c : Char} (h : c.toNat < 0x10000) : units c = [c.toNat] := if_pos h

/-- A character is no surrogate and below `0x110000`. -/
theorem toNat_valid (c : Char) : c.toNat < 0xd800 ∨ 0xdfff < c.toNat ∧ c.toNat < 0x110000 := by
  have h : c.toNat.isValidChar := c.valid
  unfold Nat.isValidChar at h
  omega

/-- A surrogate pair reads back. -/
theorem scanUnits_pair {m n : Nat} (hm : m < 0x10000) (hn : n < 0x10000) (cs : List Char) :
    scanUnits (("\\u" ++ hexText 4 m ++ "\\u" ++ hexText 4 n).toList ++ cs) =
      (scanUnits cs).map fun r => ([m, n] ++ r.1, r.2) := by
  have htext : ("\\u" ++ hexText 4 m ++ "\\u" ++ hexText 4 n).toList ++ cs =
      '\\' :: 'u' :: ((hexText 4 m).toList ++ '\\' :: 'u' :: ((hexText 4 n).toList ++ cs)) := by
    simp [String.toList_append]
  rw [htext, scanUnits_hex hm, scanUnits_hex hn, Option.map_map]
  rfl

theorem scanUnits_unicode (c : Char) (cs : List Char) :
    scanUnits ((unicodeEscape c.toNat).toList ++ cs) = (scanUnits cs).map fun r => (units c ++ r.1, r.2) := by
  have hc := toNat_valid c
  unfold unicodeEscape units
  split
  · rename_i h
    rw [String.toList_append, List.append_assoc]
    exact scanUnits_hex h cs
  · exact scanUnits_pair (by omega) (by omega) cs

theorem scanUnits_escapeChar (c : Char) (cs : List Char) :
    scanUnits ((escapeChar c).toList ++ cs) = (scanUnits cs).map fun r => (units c ++ r.1, r.2) := by
  have short : ∀ {e : Char} {n : Nat}, e ≠ 'u' → unescape e = some n → c.toNat = n → n < 0x10000 →
      scanUnits ('\\' :: e :: cs) = (scanUnits cs).map fun r => (units c ++ r.1, r.2) := by
    rintro e n he hn rfl hlt
    rw [scanUnits_short he hn, units_small hlt]
    rfl
  unfold escapeChar
  split
  · rename_i h; subst h; exact short (n := 34) (by decide) rfl rfl (by decide)
  split
  · rename_i h; subst h; exact short (n := 92) (by decide) rfl rfl (by decide)
  split
  · rename_i h; subst h; exact short (n := 10) (by decide) rfl rfl (by decide)
  split
  · rename_i h; subst h; exact short (n := 13) (by decide) rfl rfl (by decide)
  split
  · rename_i h; subst h; exact short (n := 9) (by decide) rfl rfl (by decide)
  split
  · rename_i h; exact short (e := 'b') (by decide) rfl h (by decide)
  split
  · rename_i h; exact short (e := 'f') (by decide) rfl h (by decide)
  split
  · exact scanUnits_unicode c cs
  · rename_i hq hs _ _ _ _ _ h
    rw [units_small (by omega)]
    simpa using scanUnits_plain (by omega) hq hs cs

theorem decodeUnits_units (c : Char) (us : List Nat) : decodeUnits (units c ++ us) = (decodeUnits us).map (c :: ·) := by
  have hc := toNat_valid c
  unfold units
  split
  · rw [List.singleton_append, decodeUnits.eq_def]
    dsimp only
    rw [if_neg (by omega), if_neg (by omega), Char.ofNat_toNat]
  · rename_i h
    rw [List.cons_append, List.singleton_append, decodeUnits.eq_def]
    dsimp only
    rw [if_pos (by omega), if_pos (by omega)]
    have hn : 0x10000 + (0xd800 + (c.toNat - 0x10000) / 0x400 - 0xd800) * 0x400 +
        (0xdc00 + (c.toNat - 0x10000) % 0x400 - 0xdc00) = c.toNat := by omega
    rw [hn, Char.ofNat_toNat]

theorem decodeUnits_flatMap (cs : List Char) : decodeUnits (cs.flatMap units) = some cs := by
  induction cs with
  | nil => rfl
  | cons c cs ih => rw [List.flatMap_cons, decodeUnits_units, ih]; rfl

theorem scanUnits_text (cs rest : List Char) :
    scanUnits (cs.flatMap (fun c => (escapeChar c).toList) ++ '\x22' :: rest) = some (cs.flatMap units, rest) := by
  induction cs with
  | nil => rfl
  | cons c cs ih => rw [List.flatMap_cons, List.append_assoc, scanUnits_escapeChar, ih, List.flatMap_cons]; rfl

theorem quoted_toList (s : String) :
    (quoted s).toList = '\x22' :: (s.toList.flatMap (fun c => (escapeChar c).toList) ++ ['\x22']) := by
  simp [quoted, String.toList_append, String.toList_join, List.flatMap_def, Function.comp_def]

/-- **What `json.dumps` writes for a string, `json.loads` reads back, up to the closing quote.** -/
theorem scanString_quoted (s : String) (rest : List Char) :
    scanString ((quoted s).toList.tail ++ rest) = some (s, rest) := by
  rw [quoted_toList, List.tail_cons, List.append_assoc, List.singleton_append, scanString, scanUnits_text]
  simp [decodeUnits_flatMap]

/-- Two texts that begin with a quoted string begin with the same one, and go on alike. -/
theorem quoted_append_inj {s s' : String} {rest rest' : List Char}
    (h : (quoted s).toList ++ rest = (quoted s').toList ++ rest') : s = s' ∧ rest = rest' := by
  have htail : (quoted s).toList.tail ++ rest = (quoted s').toList.tail ++ rest' := by
    rw [quoted_toList, quoted_toList] at h ⊢
    exact (List.cons.inj h).2
  have := scanString_quoted s rest
  rw [htail, scanString_quoted] at this
  cases this
  exact ⟨rfl, rfl⟩

/-- The items of a JSON array of strings, each but the first after a comma. -/
def items (xs : List String) : List Char := xs.flatMap fun x => ',' :: (quoted x).toList

theorem items_inj {xs ys : List String} {rest rest' : List Char} (h : items xs ++ ']' :: rest = items ys ++ ']' :: rest') :
    xs = ys ∧ rest = rest' := by
  induction xs generalizing ys with
  | nil =>
    cases ys with
    | nil => simpa [items] using h
    | cons y ys => simp [items] at h
  | cons x xs ih =>
    cases ys with
    | nil => simp [items] at h
    | cons y ys =>
      simp only [items, List.flatMap_cons, List.cons_append, List.cons.injEq, true_and, List.append_assoc] at h
      obtain ⟨rfl, hrest⟩ := quoted_append_inj h
      obtain ⟨rfl, rfl⟩ := ih hrest
      exact ⟨rfl, rfl⟩

theorem intercalate_quoted (x : String) (xs : List String) :
    (",".intercalate ((x :: xs).map quoted)).toList = (quoted x).toList ++ items xs := by
  induction xs generalizing x with
  | nil => simp [items]
  | cons y ys ih =>
    rw [List.map_cons, List.map_cons, String.intercalate_cons_cons, String.toList_append, String.toList_append,
      ← List.map_cons, ih, items, items, List.flatMap_cons]
    simp

theorem dumpsList_texts (xs : List String) : dumpsList "," ":" (xs.map .str) = xs.map quoted := by
  induction xs with
  | nil => rfl
  | cons x xs ih => simp only [List.map_cons, dumpsList, dumpsWith, ih]

theorem dumps_texts (xs : List String) :
    (dumpsWith "," ":" (.arr (xs.map .str))).toList = '[' :: ((items xs).tail ++ [']']) := by
  rw [dumpsWith, dumpsList_texts, String.toList_append, String.toList_append]
  cases xs with
  | nil => simp [items]
  | cons x xs =>
    rw [intercalate_quoted]
    simp [items]

/-- **A compact JSON array of strings, at the head of a text, determines the strings.** -/
theorem dumps_texts_inj {xs ys : List String} {rest rest' : List Char}
    (h : (dumpsWith "," ":" (.arr (xs.map .str))).toList ++ rest = (dumpsWith "," ":" (.arr (ys.map .str))).toList ++ rest') :
    xs = ys := by
  rw [dumps_texts, dumps_texts] at h
  simp only [List.cons_append, List.append_assoc, List.cons.injEq, true_and] at h
  cases xs with
  | nil =>
    cases ys with
    | nil => rfl
    | cons y ys => simp [items, quoted_toList] at h
  | cons x xs =>
    cases ys with
    | nil => simp [items, quoted_toList] at h
    | cons y ys =>
      have hitems : items (x :: xs) ++ ']' :: rest = items (y :: ys) ++ ']' :: rest' := congrArg (',' :: ·) h
      exact (items_inj hitems).1

/-! ## Objects of texts -/

/-- A string or `null` as it is dumped. -/
def textJson (o : Option String) : String := dumpsWith "," ":" (Json.ofStr? o)

/-- Two texts that begin with a string or `null` begin with the same one, and go on alike. -/
theorem textJson_append_inj {o o' : Option String} {rest rest' : List Char}
    (h : (textJson o).toList ++ rest = (textJson o').toList ++ rest') : o = o' ∧ rest = rest' := by
  have hnull : (textJson none).toList = ['n', 'u', 'l', 'l'] := rfl
  have hstr : ∀ s, (textJson (some s)).toList = (quoted s).toList := fun _ => rfl
  cases o with
  | none =>
    cases o' with
    | none => rw [hnull] at h; simpa using h
    | some s => rw [hnull, hstr, quoted_toList] at h; simp at h
  | some s =>
    cases o' with
    | none => rw [hnull, hstr, quoted_toList] at h; simp at h
    | some s' =>
      rw [hstr, hstr] at h
      obtain ⟨rfl, hrest⟩ := quoted_append_inj h
      exact ⟨rfl, hrest⟩

/-- One member of an object. -/
def memberText (f : String × Option String) : String := quoted f.1 ++ ":" ++ textJson f.2

/-- A compact JSON object with these members in order. -/
def objectText (fs : List (String × Option String)) : String := "\x7b" ++ ",".intercalate (fs.map memberText) ++ "\x7d"

/-- The members, each after a comma. -/
def members (fs : List (String × Option String)) : List Char := fs.flatMap fun f => ',' :: (memberText f).toList

theorem memberText_append_inj {f f' : String × Option String} {rest rest' : List Char}
    (h : (memberText f).toList ++ rest = (memberText f').toList ++ rest') : f = f' ∧ rest = rest' := by
  simp only [memberText, String.toList_append, List.append_assoc] at h
  obtain ⟨hk, h⟩ := quoted_append_inj h
  obtain ⟨hv, h⟩ := textJson_append_inj (List.append_cancel_left h)
  exact ⟨Prod.ext hk hv, h⟩

theorem members_inj {fs gs : List (String × Option String)} {rest rest' : List Char}
    (h : members fs ++ '\x7d' :: rest = members gs ++ '\x7d' :: rest') : fs = gs := by
  induction fs generalizing gs with
  | nil =>
    cases gs with
    | nil => rfl
    | cons g gs => simp [members] at h
  | cons f fs ih =>
    cases gs with
    | nil => simp [members] at h
    | cons g gs =>
      simp only [members, List.flatMap_cons, List.cons_append, List.cons.injEq, true_and, List.append_assoc] at h
      obtain ⟨rfl, hrest⟩ := memberText_append_inj h
      rw [ih hrest]

theorem intercalate_members (f : String × Option String) (fs : List (String × Option String)) :
    (",".intercalate ((f :: fs).map memberText)).toList = (memberText f).toList ++ members fs := by
  induction fs generalizing f with
  | nil => simp [members]
  | cons g gs ih =>
    rw [List.map_cons, List.map_cons, String.intercalate_cons_cons, String.toList_append, String.toList_append,
      ← List.map_cons, ih, members, members, List.flatMap_cons]
    simp

/-- **An object of texts determines its members.** -/
theorem objectText_inj {fs gs : List (String × Option String)} (h : objectText fs = objectText gs) : fs = gs := by
  have htext : ∀ fs, (objectText fs).toList = '\x7b' :: ((members fs).tail ++ ['\x7d']) := by
    intro fs
    unfold objectText
    rw [String.toList_append, String.toList_append]
    cases fs with
    | nil => simp [members]
    | cons f fs =>
      rw [intercalate_members]
      simp [members]
  have hl := congrArg String.toList h
  rw [htext, htext, List.cons.injEq] at hl
  cases fs with
  | nil =>
    cases gs with
    | nil => rfl
    | cons g gs => simp [members, memberText, quoted_toList] at hl
  | cons f fs =>
    cases gs with
    | nil => simp [members, memberText, quoted_toList] at hl
    | cons g gs =>
      have hmark : ∀ (f : String × Option String) (fs : List (String × Option String)),
          members (f :: fs) ++ ['\x7d'] = ',' :: ((members (f :: fs)).tail ++ ['\x7d']) := by
        intro f fs
        simp only [members, List.flatMap_cons, List.cons_append, List.tail_cons]
      apply @members_inj _ _ [] []
      rw [hmark, hmark, hl.2]

end Umd.Lib
