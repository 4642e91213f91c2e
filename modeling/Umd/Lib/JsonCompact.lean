import Umd.Lib.JsonDict
import Umd.Lib.Patterns
/-!
# Compact JSON texts

`json.dumps` with sorted keys and without blanks writes the same text for two values
exactly when they differ in nothing but the order of the keys of their objects
(`compact_iff`), also at the head of a longer text.
-/

namespace Umd.Lib

/-- A character of a literal or a number. -/
def atomChar (c : Char) : Bool := c.isAlphanum || c == '-' || c == '.'

/-- Nothing follows that could belong to a literal or a number. -/
def Stops (rest : List Char) : Prop := ∀ c ∈ rest.head?, atomChar c = false

theorem stops_cons {c : Char} (h : atomChar c = false) (rest : List Char) : Stops (c :: rest) := by
  intro x hx
  rw [List.head?_cons, Option.mem_some_iff] at hx
  rw [← hx, h]

theorem stops_nil : Stops [] := fun _ h => nomatch h

/-- Two texts up to the first character that is not of the kind. -/
theorem span_append_inj {p : Char → Bool} {xs ys rest rest' : List Char} (hx : ∀ c ∈ xs, p c = true) (hy : ∀ c ∈ ys, p c = true)
    (hr : ∀ c ∈ rest.head?, p c = false) (hr' : ∀ c ∈ rest'.head?, p c = false) (h : xs ++ rest = ys ++ rest') :
    xs = ys ∧ rest = rest' := by
  have hnone : ∀ {rest : List Char}, (∀ c ∈ rest.head?, p c = false) → rest.takeWhile p = [] := by
    intro rest hr
    cases rest with
    | nil => rfl
    | cons c rest => rw [List.takeWhile_cons, hr c rfl, if_neg Bool.false_ne_true]
  have htake := congrArg (List.takeWhile p) h
  rw [List.takeWhile_append_of_pos hx, List.takeWhile_append_of_pos hy, hnone hr, hnone hr', List.append_nil, List.append_nil] at htake
  subst htake
  exact ⟨rfl, List.append_cancel_left h⟩

/-! ## Numbers -/

theorem atomChar_digit {c : Char} (h : isDigit c = true) : atomChar c = true := by
  rw [isDigit_eq] at h
  simp [atomChar, Char.isAlphanum, h]

theorem number_atom (n : Number) : ∀ c ∈ n.json.toList, atomChar c = true := by
  have hsign : ∀ (m : Int), ∀ c ∈ (if m < 0 then ['-'] else []), atomChar c = true := by
    intro m c hc
    split at hc
    · rw [List.mem_singleton.1 hc]
      rfl
    · cases hc
  cases n with
  | nan => exact List.all_eq_true.1 (rfl : ['N', 'a', 'N'].all atomChar = true)
  | inf => exact List.all_eq_true.1 (rfl : ['I', 'n', 'f', 'i', 'n', 'i', 't', 'y'].all atomChar = true)
  | negInf => exact List.all_eq_true.1 (rfl : ['-', 'I', 'n', 'f', 'i', 'n', 'i', 't', 'y'].all atomChar = true)
  | dec m e =>
    intro c hc
    change c ∈ (Number.dec m e).text.toList at hc
    cases e with
    | zero =>
      rw [text_int, List.mem_append] at hc
      rcases hc with hc | hc
      · exact hsign m c hc
      · exact atomChar_digit (toDigits_digits _ c hc)
    | succ e =>
      rw [text_dec, List.mem_append, List.mem_append, List.mem_cons] at hc
      rcases hc with hc | hc | rfl | hc
      · exact hsign m c hc
      · exact atomChar_digit (padded_digits _ _ c (List.mem_of_mem_take hc))
      · rfl
      · exact atomChar_digit (padded_digits _ _ c (List.mem_of_mem_drop hc))

/-- Signs and digits. -/
theorem signed_inj {m m' : Int} {ds ds' : List Char} (hd : ∀ c ∈ ds, isDigit c = true) (hd₂ : ∀ c ∈ ds', isDigit c = true)
    (hne : ds ≠ []) (hne' : ds' ≠ []) (h : (if m < 0 then ['-'] else []) ++ ds = (if m' < 0 then ['-'] else []) ++ ds') :
    (m < 0 ↔ m' < 0) ∧ ds = ds' := by
  obtain ⟨c, cs, rfl⟩ := List.exists_cons_of_ne_nil hne
  obtain ⟨c', cs', rfl⟩ := List.exists_cons_of_ne_nil hne'
  by_cases hm : m < 0 <;> by_cases hm' : m' < 0 <;> simp only [hm, hm', if_true, if_false] at h
  · exact ⟨by simp [hm, hm'], List.append_cancel_left h⟩
  · cases h
    exact absurd (hd₂ '-' (.head _)) (by decide)
  · cases h
    exact absurd (hd '-' (.head _)) (by decide)
  · exact ⟨by simp [hm, hm'], h⟩

theorem text_dec_inj {m m' : Int} {e e' : Nat} (h : (Number.dec m (e + 1)).text.toList = (Number.dec m' (e' + 1)).text.toList) :
    m = m' ∧ e = e' := by
  have hpoint : ∀ n k i, '.' ∉ (padded n k).take i := fun n k i hm => absurd (padded_digits n k _ (List.mem_of_mem_take hm)) (by decide)
  have hhead : ∀ (m : Int) (n k i), '.' ∉ (if m < 0 then ['-'] else []) ++ (padded n k).take i := by
    intro m n k i hm
    rcases List.mem_append.1 hm with hm | hm
    · split at hm
      · simp at hm
      · cases hm
    · exact hpoint _ _ _ hm
  have htake : ∀ n e, (padded n (e + 1)).take ((padded n (e + 1)).length - (e + 1)) ≠ [] := by
    intro n e hnil
    have hlen := congrArg List.length hnil
    have hlt := padded_length n (e + 1)
    rw [List.length_take, List.length_nil] at hlen
    omega
  rw [text_dec, text_dec, ← List.append_assoc, ← List.append_assoc] at h
  obtain ⟨hleft, hright⟩ := append_mark_inj (hhead _ _ _ _) (hhead _ _ _ _) h
  obtain ⟨hsign, hints⟩ := signed_inj (fun c hc => padded_digits _ _ c (List.mem_of_mem_take hc))
    (fun c hc => padded_digits _ _ c (List.mem_of_mem_take hc)) (htake _ _) (htake _ _) hleft
  have hexp : e = e' := by
    have hlen := congrArg List.length hright
    have hlt := padded_length m.natAbs (e + 1)
    have hlt' := padded_length m'.natAbs (e' + 1)
    rw [List.length_drop, List.length_drop] at hlen
    omega
  have habs : m.natAbs = m'.natAbs := by
    have hdigits : padded m.natAbs (e + 1) = padded m'.natAbs (e' + 1) := by
      rw [← List.take_append_drop ((padded m.natAbs (e + 1)).length - (e + 1)) (padded m.natAbs (e + 1)), hints, hright,
        List.take_append_drop]
    rw [← padded_val m.natAbs (e + 1), hdigits, padded_val]
  exact ⟨by omega, hexp⟩

theorem trimZeros_exponent (m : Int) (e : Nat) : ∃ k d, trimZeros m e = .dec k (d + 1) := by
  induction e using Nat.strong_induction_on generalizing m with
  | _ e ih =>
    match e with
    | 0 => exact ⟨_, 0, rfl⟩
    | 1 => exact ⟨_, 0, rfl⟩
    | e + 2 =>
      rw [trimZeros]
      split
      · exact ih (e + 1) (by omega) (m / 10)
      · exact ⟨m, e + 1, rfl⟩

/-- A number is known by its text. -/
theorem number_inj {n n' : Number} (h : n.json.toList = n'.json.toList) : n = n' := by
  have hnorm : n.norm = n'.norm := by
    have hread := @scanAtom_num n [] (by simp [Ends])
    rw [h, scanAtom_num n' (by simp [Ends]), Option.some.injEq, Prod.mk.injEq, Json.num.injEq] at hread
    exact hread.1.symm
  have hkind : ∀ (m : Int) (e : Nat), ∃ k d, Number.norm (.dec m e) = .dec k d ∧ (d = 0 ↔ e = 0) := by
    intro m e
    cases e with
    | zero => exact ⟨m, 0, rfl, Iff.rfl⟩
    | succ e =>
      obtain ⟨k, d, hk⟩ := trimZeros_exponent m (e + 1)
      exact ⟨k, d + 1, hk, by simp⟩
  cases n with
  | dec m e =>
    obtain ⟨k, d, hk, hd⟩ := hkind m e
    rw [hk] at hnorm
    cases n' with
    | dec m' e' =>
      obtain ⟨k', d', hk', hd'⟩ := hkind m' e'
      rw [hk', Number.dec.injEq] at hnorm
      cases e with
      | zero =>
        obtain rfl : e' = 0 := hd'.1 (hnorm.2 ▸ hd.2 rfl)
        cases hk
        cases hk'
        rw [hnorm.1]
      | succ e =>
        cases e' with
        | zero => exact absurd (hd.1 (hnorm.2 ▸ hd'.2 rfl)) (Nat.succ_ne_zero e)
        | succ e' =>
          obtain ⟨rfl, rfl⟩ := text_dec_inj h
          rfl
    | nan => cases hnorm
    | inf => cases hnorm
    | negInf => cases hnorm
  | nan => cases n' with
    | dec m' e' =>
      obtain ⟨k', d', hk', -⟩ := hkind m' e'
      rw [hk'] at hnorm
      cases hnorm
    | nan => rfl
    | inf => cases hnorm
    | negInf => cases hnorm
  | inf => cases n' with
    | dec m' e' =>
      obtain ⟨k', d', hk', -⟩ := hkind m' e'
      rw [hk'] at hnorm
      cases hnorm
    | nan => cases hnorm
    | inf => rfl
    | negInf => cases hnorm
  | negInf => cases n' with
    | dec m' e' =>
      obtain ⟨k', d', hk', -⟩ := hkind m' e'
      rw [hk'] at hnorm
      cases hnorm
    | nan => cases hnorm
    | inf => cases hnorm
    | negInf => rfl

/-! ## Items between brackets -/

/-- Each item after a comma. -/
def itemList {α : Type} (write : α → List Char) (xs : List α) : List Char := xs.flatMap fun x => ',' :: write x

/-- The items, a comma between two of them, up to the closing bracket. -/
def closed {α : Type} (write : α → List Char) (close : Char) (xs : List α) : List Char := (itemList write xs).tail ++ [close]

/-- An item is known by its text before a comma or a bracket. -/
def SelfDelimiting {α : Type} (write : α → List Char) (x : α) : Prop :=
  ∀ (y : α) (rest rest' : List Char), Stops rest → Stops rest' → write x ++ rest = write y ++ rest' → x = y ∧ rest = rest'

theorem itemList_append_inj {α : Type} {write : α → List Char} {close : Char} (hclose : close ≠ ',' ∧ atomChar close = false)
    {xs ys : List α} (hknown : ∀ x ∈ xs, SelfDelimiting write x) {rest rest' : List Char}
    (h : itemList write xs ++ close :: rest = itemList write ys ++ close :: rest') : xs = ys ∧ rest = rest' := by
  have hstops : ∀ (xs : List α) (rest : List Char), Stops (itemList write xs ++ close :: rest) := by
    intro xs rest
    cases xs with
    | nil => exact stops_cons hclose.2 rest
    | cons x xs => exact stops_cons rfl _
  induction xs generalizing ys with
  | nil =>
    cases ys with
    | nil => exact ⟨rfl, (List.cons.inj h).2⟩
    | cons y ys => exact absurd (List.cons.inj h).1 hclose.1
  | cons x xs ih =>
    cases ys with
    | nil => exact absurd (List.cons.inj h).1.symm hclose.1
    | cons y ys =>
      simp only [itemList, List.flatMap_cons, List.cons_append, List.cons.injEq, true_and, List.append_assoc] at h
      obtain ⟨rfl, hrest⟩ := hknown x (.head _) y _ _ (hstops xs rest) (hstops ys rest') h
      obtain ⟨rfl, rfl⟩ := ih (fun x hx => hknown x (.tail _ hx)) hrest
      exact ⟨rfl, rfl⟩

theorem closed_append_inj {α : Type} {write : α → List Char} {close : Char} (hclose : close ≠ ',' ∧ atomChar close = false)
    (hhead : ∀ x, ∃ c cs, write x = c :: cs ∧ c ≠ close) {xs ys : List α} (hknown : ∀ x ∈ xs, SelfDelimiting write x) {rest rest' : List Char}
    (h : closed write close xs ++ rest = closed write close ys ++ rest') : xs = ys ∧ rest = rest' := by
  have hempty : ∀ (y : α) (ys : List α) (rest rest' : List Char), close :: rest ≠ closed write close (y :: ys) ++ rest' := by
    intro y ys rest rest' h
    obtain ⟨c, cs, hc, hne⟩ := hhead y
    simp only [closed, itemList, List.flatMap_cons, List.cons_append, List.tail_cons, hc] at h
    exact hne (List.cons.inj h).1.symm
  cases xs with
  | nil =>
    cases ys with
    | nil => exact ⟨rfl, (List.cons.inj h).2⟩
    | cons y ys => exact absurd h (hempty y ys _ _)
  | cons x xs =>
    cases ys with
    | nil => exact absurd h.symm (hempty x xs _ _)
    | cons y ys =>
      have hcons : itemList write (x :: xs) ++ close :: rest = itemList write (y :: ys) ++ close :: rest' := by
        have h' := congrArg (',' :: ·) h
        simpa [closed, itemList] using h'
      exact itemList_append_inj hclose hknown hcons

/-- The commas between the items are those of `str.join`. -/
theorem closed_join {α : Type} (write : α → String) (close : Char) (xs : List α) :
    (",".intercalate (xs.map write)).toList ++ [close] = closed (fun x => (write x).toList) close xs := by
  unfold closed itemList
  cases xs with
  | nil => rfl
  | cons x xs =>
    rw [List.map_cons, intercalate_toList, List.flatMap_cons, List.cons_append, List.tail_cons, List.flatMap_map]
    rfl

/-! ## Values -/

mutual
/-- A value as it is written, the fields of an object in the order they have. -/
def render : Json → List Char
  | .null => ['n', 'u', 'l', 'l']
  | .bool true => ['t', 'r', 'u', 'e']
  | .bool false => ['f', 'a', 'l', 's', 'e']
  | .num n => n.json.toList
  | .str s => (quoted s).toList
  | .arr xs => '[' :: ((renderItems xs).tail ++ [']'])
  | .obj d => '\x7b' :: ((renderFields d).tail ++ ['\x7d'])
def renderItems : List Json → List Char
  | [] => []
  | x :: xs => ',' :: (render x ++ renderItems xs)
def renderFields : List (String × Json) → List Char
  | [] => []
  | (k, v) :: d => ',' :: ((quoted k).toList ++ ':' :: render v ++ renderFields d)
end

/-- A field of an object. -/
def renderField (f : String × Json) : List Char := (quoted f.1).toList ++ ':' :: render f.2

theorem render_arr (xs : List Json) : render (.arr xs) = '[' :: closed render ']' xs := by
  have hitems : renderItems xs = itemList render xs := by
    induction xs with
    | nil => rfl
    | cons x xs ih => rw [renderItems, ih, itemList, itemList, List.flatMap_cons, List.cons_append]
  rw [render, hitems, closed]

theorem render_obj (d : Dict) : render (.obj d) = '\x7b' :: closed renderField '\x7d' d := by
  have hfields : renderFields d = itemList renderField d := by
    induction d with
    | nil => rfl
    | cons f d ih => rw [renderFields, ih, itemList, itemList, List.flatMap_cons, renderField, List.cons_append]
  rw [render, hfields, closed]

/-- The character that tells a string, an array and an object from each other and from the literals and numbers. -/
def Json.lead : Json → Option Char
  | .str _ => some '\x22'
  | .arr _ => some '['
  | .obj _ => some '\x7b'
  | _ => none

theorem atom_chars {j : Json} (h : j.lead = none) : ∀ c ∈ render j, atomChar c = true := by
  cases j with
  | null => exact List.all_eq_true.1 (rfl : ['n', 'u', 'l', 'l'].all atomChar = true)
  | bool b =>
    cases b with
    | true => exact List.all_eq_true.1 (rfl : ['t', 'r', 'u', 'e'].all atomChar = true)
    | false => exact List.all_eq_true.1 (rfl : ['f', 'a', 'l', 's', 'e'].all atomChar = true)
  | num n => exact number_atom n
  | str s => cases h
  | arr xs => cases h
  | obj d => cases h

/-- A literal or a number reads back. -/
theorem atom_read {j : Json} (h : j.lead = none) : scanAtom (render j) = some (j.norm, []) := by
  cases j with
  | null => rfl
  | bool b => cases b <;> rfl
  | num n =>
    have hread := @scanAtom_num n [] (by simp [Ends])
    rwa [List.append_nil] at hread
  | str s => cases h
  | arr xs => cases h
  | obj d => cases h

theorem atom_inj {j j' : Json} (hj : j.lead = none) (hj' : j'.lead = none) (h : render j = render j') : j = j' := by
  have hnorm : j.norm = j'.norm := by
    have hread := atom_read hj
    rw [h, atom_read hj', Option.some.injEq, Prod.mk.injEq] at hread
    exact hread.1.symm
  cases j <;> cases hj <;> cases j' <;> cases hj' <;> simp only [Json.norm, Json.bool.injEq, reduceCtorEq] at hnorm
  · rfl
  · rw [hnorm]
  · rw [number_inj h]

theorem render_lead (j : Json) : ∃ c cs, render j = c :: cs ∧ c ≠ ']' ∧ c ≠ '\x7d' ∧ (if atomChar c then none else some c) = j.lead := by
  cases j with
  | null => exact ⟨'n', _, rfl, by decide, by decide, rfl⟩
  | bool b => cases b
              · exact ⟨'f', _, rfl, by decide, by decide, rfl⟩
              · exact ⟨'t', _, rfl, by decide, by decide, rfl⟩
  | num n =>
    obtain ⟨c, cs, hc, hs, -⟩ := num_starts n
    have hatom : atomChar c = true := number_atom n c (by rw [hc]; exact .head _)
    exact ⟨c, cs, hc, hs.2.2.2.2.1, hs.2.2.2.2.2, by rw [hatom]; rfl⟩
  | str s => exact ⟨'\x22', _, quoted_toList s, by decide, by decide, rfl⟩
  | arr xs => exact ⟨'[', _, render_arr xs, by decide, by decide, rfl⟩
  | obj d => exact ⟨'\x7b', _, render_obj d, by decide, by decide, rfl⟩

theorem lead_eq {j j' : Json} {rest rest' : List Char} (h : render j ++ rest = render j' ++ rest') : j.lead = j'.lead := by
  obtain ⟨c, cs, hc, -, -, hlead⟩ := render_lead j
  obtain ⟨c', cs', hc', -, -, hlead'⟩ := render_lead j'
  rw [hc, hc', List.cons_append, List.cons_append, List.cons.injEq] at h
  rw [← hlead, ← hlead', h.1]

theorem atom_delimited {j : Json} (hj : j.lead = none) : SelfDelimiting render j := by
  intro y rest rest' hr hr' h
  have hy : y.lead = none := (lead_eq h).symm.trans hj
  obtain ⟨htext, hrest⟩ := span_append_inj (atom_chars hj) (atom_chars hy) hr hr' h
  exact ⟨atom_inj hj hy htext, hrest⟩

theorem renderField_delimited {f : String × Json} (h : SelfDelimiting render f.2) : SelfDelimiting renderField f := by
  intro g rest rest' hr hr' hfg
  simp only [renderField, List.append_assoc] at hfg
  obtain ⟨hk, hv⟩ := quoted_append_inj hfg
  obtain ⟨hv, hrest⟩ := h g.2 _ _ hr hr' (List.cons.inj hv).2
  exact ⟨Prod.ext hk hv, hrest⟩

/-- **A value is known by its text before anything that could not belong to it.** -/
theorem render_delimited (j : Json) : SelfDelimiting render j := by
  induction j using Json.ind with
  | null => exact atom_delimited rfl
  | bool b => exact atom_delimited rfl
  | num n => exact atom_delimited rfl
  | str s =>
    intro y rest rest' _ _ h
    cases y <;> cases lead_eq h
    obtain ⟨rfl, hrest⟩ := quoted_append_inj h
    exact ⟨rfl, hrest⟩
  | arr xs ih =>
    intro y rest rest' _ _ h
    cases y <;> cases lead_eq h
    rw [render_arr, render_arr, List.cons_append, List.cons_append, List.cons.injEq] at h
    have hhead : ∀ x, ∃ c cs, render x = c :: cs ∧ c ≠ ']' := fun x =>
      have ⟨c, cs, hc, hne, _⟩ := render_lead x
      ⟨c, cs, hc, hne⟩
    obtain ⟨rfl, hrest⟩ := closed_append_inj (by decide) hhead ih h.2
    exact ⟨rfl, hrest⟩
  | obj d ih =>
    intro y rest rest' _ _ h
    cases y <;> cases lead_eq h
    rw [render_obj, render_obj, List.cons_append, List.cons_append, List.cons.injEq] at h
    have hhead : ∀ f, ∃ c cs, renderField f = c :: cs ∧ c ≠ '\x7d' := fun f => ⟨'\x22', _, by rw [renderField, quoted_toList]; rfl, by decide⟩
    obtain ⟨rfl, hrest⟩ := closed_append_inj (by decide) hhead (fun f hf => renderField_delimited (ih f hf)) h.2
    exact ⟨rfl, hrest⟩

/-! ## Sorted keys -/

mutual
/-- The value with the fields of its objects by their keys: what tells two JSON values apart. -/
def Json.keySorted : Json → Json
  | .arr xs => .arr (Json.keySortedList xs)
  | .obj d => .obj (sortFields (Json.keySortedFields d))
  | j => j
def Json.keySortedList : List Json → List Json
  | [] => []
  | x :: xs => x.keySorted :: Json.keySortedList xs
def Json.keySortedFields : List (String × Json) → List (String × Json)
  | [] => []
  | (k, v) :: d => (k, v.keySorted) :: Json.keySortedFields d
end

theorem keySortedList_eq (xs : List Json) : Json.keySortedList xs = xs.map Json.keySorted := by
  induction xs with
  | nil => rfl
  | cons x xs ih => rw [Json.keySortedList, ih, List.map_cons]

theorem keySortedFields_eq (d : Dict) : Json.keySortedFields d = d.map fun f => (f.1, f.2.keySorted) := by
  induction d with
  | nil => rfl
  | cons f d ih => rw [Json.keySortedFields, ih, List.map_cons]

/-- `json.dumps(x, sort_keys=True, separators=(",", ":"))` -/
def compact (j : Json) : String := dumpsWith "," ":" j

/-- What is written is the value with sorted keys. -/
theorem compact_render (j : Json) : (compact j).toList = render j.keySorted := by
  unfold compact
  induction j using Json.ind with
  | null => rfl
  | bool b => cases b <;> rfl
  | num n => rfl
  | str s => rfl
  | arr xs ih =>
    rw [dumpsWith, dumpsList_eq, Json.keySorted, keySortedList_eq, render_arr, String.toList_append, String.toList_append, List.append_assoc]
    have hclose : "]".toList = [']'] := rfl
    have hitems : itemList (fun x => (dumpsWith "," ":" x).toList) xs = itemList render (xs.map Json.keySorted) := by
      rw [itemList, itemList, List.flatMap_map]
      exact List.flatMap_congr fun x hx => by rw [ih x hx]
    rw [hclose, closed_join, closed, closed, hitems]
    rfl
  | obj d ih =>
    have hsort : sortFields (d.map fun f => (f.1, f.2.keySorted)) = (sortFields d).map fun f => (f.1, f.2.keySorted) :=
      sortFields_map Json.keySorted d
    have hclose : "\x7d".toList = ['\x7d'] := rfl
    have hfields : itemList (fun f => (quoted f.1 ++ ":" ++ dumpsWith "," ":" f.2).toList) (sortFields d) =
        itemList renderField ((sortFields d).map fun f => (f.1, f.2.keySorted)) := by
      rw [itemList, itemList, List.flatMap_map]
      refine List.flatMap_congr fun f hf => ?_
      rw [renderField, ← ih f ((sortFields_perm d).mem_iff.1 hf)]
      simp [String.toList_append]
    rw [dumpsWith, dumpsFields_eq, Json.keySorted, keySortedFields_eq, render_obj, hsort, String.toList_append, String.toList_append,
      List.append_assoc, hclose, List.map_map]
    change _ ++ ((",".intercalate ((sortFields d).map fun f => quoted f.1 ++ ":" ++ dumpsWith "," ":" f.2)).toList ++ ['\x7d']) = _
    rw [closed_join, closed, closed, hfields]
    rfl

/-- **Compact texts are told apart by what their values are, at the head of any text.** -/
theorem compact_append_inj {j j' : Json} {rest rest' : List Char} (hr : Stops rest) (hr' : Stops rest')
    (h : (compact j).toList ++ rest = (compact j').toList ++ rest') : j.keySorted = j'.keySorted ∧ rest = rest' := by
  rw [compact_render, compact_render] at h
  exact render_delimited j.keySorted j'.keySorted rest rest' hr hr' h

theorem compact_iff {j j' : Json} : compact j = compact j' ↔ j.keySorted = j'.keySorted := by
  constructor
  · intro h
    have happend : (compact j).toList ++ [] = (compact j').toList ++ [] := by rw [h]
    exact (compact_append_inj stops_nil stops_nil happend).1
  · intro h
    apply String.toList_injective
    rw [compact_render, compact_render, h]

/-! ## Dictionaries -/

theorem insertEntry_sorted {α : Type} {k : String} {v : α} {fs : List (String × α)} (h : fs.Pairwise fun f g => f.1 ≤ g.1) :
    (insertEntry k v fs).Pairwise fun f g => f.1 ≤ g.1 := by
  induction fs with
  | nil => exact List.pairwise_singleton _ _
  | cons f fs ih =>
    rw [insertEntry]
    rw [List.pairwise_cons] at h
    split
    · rename_i hle
      refine List.pairwise_cons.2 ⟨fun g hg => ?_, List.pairwise_cons.2 h⟩
      rcases List.mem_cons.1 hg with rfl | hg
      · exact hle
      · exact hle.trans (h.1 g hg)
    · rename_i hlt
      refine List.pairwise_cons.2 ⟨fun g hg => ?_, ih h.2⟩
      rcases List.mem_cons.1 ((insertEntry_perm k v fs).mem_iff.1 hg) with rfl | hg
      · exact (not_le.1 hlt).le
      · exact h.1 g hg

theorem sortFields_sorted {α : Type} (d : List (String × α)) : (sortFields d).Pairwise fun f g => f.1 ≤ g.1 := by
  induction d with
  | nil => exact List.Pairwise.nil
  | cons f d ih => exact insertEntry_sorted ih

/-- Sorted fields stay as they are. -/
theorem sortFields_eq_self {α : Type} {d : List (String × α)} (h : d.Pairwise fun f g => f.1 ≤ g.1) : sortFields d = d := by
  induction d with
  | nil => rfl
  | cons f d ih =>
    rw [List.pairwise_cons] at h
    change insertEntry f.1 f.2 (sortFields d) = _
    rw [ih h.2]
    cases d with
    | nil => rfl
    | cons g d => rw [insertEntry, if_pos (h.1 g (.head _))]

theorem sortFields_idem {α : Type} (d : List (String × α)) : sortFields (sortFields d) = sortFields d :=
  sortFields_eq_self (sortFields_sorted d)

/-- Dictionaries of distinct keys are told apart by what they hold at a key. -/
theorem keySorted_obj_iff {d d' : Dict} (hd : d.keys.Nodup) (hd' : d'.keys.Nodup) :
    (Json.obj d).keySorted = (Json.obj d').keySorted ↔ ∀ k, (d.get? k).map Json.keySorted = (d'.get? k).map Json.keySorted := by
  have hkeys : ∀ d : Dict, Dict.keys (d.map fun f => (f.1, f.2.keySorted)) = d.keys := fun d => List.map_map ..
  have hget : ∀ {d : Dict}, d.keys.Nodup → ∀ k v, (d.get? k).map Json.keySorted = some v ↔ (k, v) ∈ d.map fun f => (f.1, f.2.keySorted) := by
    intro d hd k v
    rw [Option.map_eq_some_iff, List.mem_map]
    constructor
    · rintro ⟨w, hw, rfl⟩
      exact ⟨(k, w), (Dict.get?_iff hd).1 hw, rfl⟩
    · rintro ⟨⟨k', w⟩, hw, he⟩
      cases he
      exact ⟨w, (Dict.get?_iff hd).2 hw, rfl⟩
  have hnodup : ∀ {d : Dict}, d.keys.Nodup → (d.map fun f => (f.1, f.2.keySorted)).Nodup := by
    intro d hd
    have hkeysNodup : (Dict.keys (d.map fun f => (f.1, f.2.keySorted))).Nodup := by rwa [hkeys]
    exact List.Nodup.of_map Prod.fst hkeysNodup
  have hperm : (∀ k, (d.get? k).map Json.keySorted = (d'.get? k).map Json.keySorted) ↔
      (d.map fun f => (f.1, f.2.keySorted)).Perm (d'.map fun f => (f.1, f.2.keySorted)) := by
    rw [List.perm_ext_iff_of_nodup (hnodup hd) (hnodup hd')]
    constructor
    · rintro h ⟨k, v⟩
      rw [← hget hd, ← hget hd', h k]
    · intro h k
      refine Option.ext fun v => ?_
      rw [hget hd, hget hd', h (k, v)]
  rw [hperm, Json.keySorted, Json.keySorted, Json.obj.injEq, keySortedFields_eq, keySortedFields_eq]
  constructor
  · intro h
    exact (sortFields_perm _).symm.trans (h ▸ sortFields_perm _)
  · intro h
    refine List.Perm.eq_of_pairwise ?_ (sortFields_sorted _) (sortFields_sorted _) ((sortFields_perm _).trans (h.trans (sortFields_perm _).symm))
    rintro ⟨k, v⟩ ⟨k', v'⟩ hv hv' hle hge
    obtain rfl : k = k' := le_antisymm hle hge
    have hkv : (k, v) ∈ d'.map fun f => (f.1, f.2.keySorted) := h.mem_iff.1 ((sortFields_perm _).mem_iff.1 hv)
    rw [← hget hd'] at hkv
    rw [(sortFields_perm _).mem_iff, ← hget hd', hkv] at hv'
    cases hv'
    rfl

end Umd.Lib
