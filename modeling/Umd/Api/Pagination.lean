import Umd.Lib.Base64
import Umd.Lib.JsonDepth
import Umd.Lib.Utf8
/-!
# Cursors

`umd.api.pagination`: an offset as the base64 of a JSON object. A cursor of a client is
answered with an offset or an `ApiError`, unless its offset is infinite or it nests too deep
(`cursors_iff`).
-/

namespace Umd.Api

open Umd.Lib

/-- What the operations on cursors raise. -/
inductive CursorError where
  | apiError
  | valueError
  | overflowError
  | recursionError
deriving DecidableEq

/-! ## Writing -/

/-- The alphabet of `urlsafe_b64encode`. -/
def urlsafe (c : Char) : Char := if c = '+' then '-' else if c = '/' then '_' else c

/-- `encode_cursor`. -/
def encodeCursor (position : Dict) : String :=
  String.ofList ((Base64.encode (Utf8.encode (dumpsWith "," ":" (.obj position)).toList)).map urlsafe)

/-- `cursor_for`; an integer of too many digits is not written. -/
def cursorFor (offset : ℕ) : Except CursorError String :=
  if tooLong offset then .error .valueError else .ok (encodeCursor [("o", .num (.dec offset 0))])

/-! ## Reading -/

/-- `_urlsafe_decode_translation`. -/
def standard (c : Char) : Char := if c = '-' then '+' else if c = '_' then '/' else c

/-- The text of a cursor, if it is ASCII, base64 and UTF-8. -/
def cursorText (cursor : String) : Option (List Char) :=
  if cursor.toList.all (·.toNat < 128) then (Base64.decode (cursor.toList.map standard)).bind Utf8.decodeStrict else none

section

-- the containers that may be opened in the outermost one
variable (room : ℕ)

/-- `decode_cursor`. -/
def decodeCursor (cursor : String) : Except CursorError (List (List Nat × Doc)) :=
  match cursorText cursor with
  | none => .error .apiError
  | some cs =>
    match loadsBounded (room + 1) cs with
    | .ok (.obj members) => .ok members
    | .ok _ => .error .apiError
    | .error .value => .error .apiError
    | .error _ => .error .recursionError

/-- What `int` raises. -/
inductive IntError where
  | typeError
  | valueError
  | overflowError

-- `int` of a text
variable (intText : List Nat → Option ℤ)

/-- `int`. -/
def pyInt : Doc → Except IntError ℤ
  | .num (.dec m 0) => .ok m
  | .num (.dec m (e + 1)) => if overflows m (e + 1) then .error .overflowError else .ok (m.tdiv (10 ^ (e + 1)))
  | .num .nan => .error .valueError
  | .num _ => .error .overflowError
  | .bool b => .ok (if b then 1 else 0)
  | .str units => match intText units with
    | some n => .ok n
    | none => .error .valueError
  | _ => .error .typeError

/-- `pos.get("o", 0)`. -/
def offsetMember (members : List (List Nat × Doc)) : Doc := (Doc.member members [111]).getD (.num (.dec 0 0))

/-- `offset_from`. -/
def offsetFrom (cursor : Option String) : Except CursorError ℕ :=
  match cursor.filter (· ≠ "") with
  | none => .ok 0
  | some cursor =>
    match decodeCursor room cursor with
    | .error e => .error e
    | .ok members =>
      match pyInt intText (offsetMember members) with
      | .ok off => .ok off.toNat
      | .error .overflowError => .error .overflowError
      | .error _ => .error .apiError

end

/-- The cursor of an offset, where there is such a page. -/
def cursorWhen (given : Bool) (offset : ℕ) : Except CursorError (Option String) := if given then (cursorFor offset).map some else .ok none

/-- `page_cursors`. -/
def pageCursors (offset limit total : ℕ) : Except CursorError (Option String × Option String) := do
  let nextCursor ← cursorWhen (offset + limit < total) (offset + limit)
  let prevCursor ← cursorWhen (offset > 0) (offset - limit)
  return (nextCursor, prevCursor)

/-! ## What is promised -/

/-- An offset, or an `ApiError`. -/
def Safe (room : ℕ) (intText : List Nat → Option ℤ) (cursor : String) : Prop :=
  ∀ e, offsetFrom room intText (some cursor) = .error e → e = .apiError

/-- An offset is read back. -/
def ReadBack (room : ℕ) (intText : List Nat → Option ℤ) (n : ℕ) : Prop :=
  ∃ cursor, cursorFor n = .ok cursor ∧ offsetFrom room intText (some cursor) = .ok n

/-- The offsets of a client that follows `next_cursor` to its end. -/
inductive Followed (room : ℕ) (intText : List Nat → Option ℤ) (limit total : ℕ) : ℕ → List ℕ → Prop
  | last {o : ℕ} {prev : Option String} : pageCursors o limit total = .ok (none, prev) → Followed room intText limit total o [o]
  | next {o o' : ℕ} {cursor : String} {prev : Option String} {os : List ℕ} : pageCursors o limit total = .ok (some cursor, prev) →
      offsetFrom room intText (some cursor) = .ok o' → Followed room intText limit total o' os →
      Followed room intText limit total o (o :: os)

/-- The items of a page. -/
def pageItems (limit total o : ℕ) : List ℕ := ((List.range total).drop o).take limit

/-- Following the cursors ends, and visits every item once. -/
def VisitsAll (room : ℕ) (intText : List Nat → Option ℤ) (limit total : ℕ) : Prop :=
  ∃ os, Followed room intText limit total 0 os ∧ os.flatMap (pageItems limit total) = List.range total

/-- The cursor nests deeper than the interpreter goes. -/
def TooDeep (room : ℕ) (cursor : String) : Prop := ∃ cs, cursorText cursor = some cs ∧ loadsBounded (room + 1) cs = .error .recursion

/-- The offset of the cursor is infinite. -/
def InfiniteOffset (room : ℕ) (cursor : String) : Prop := ∃ cs members, cursorText cursor = some cs ∧
  loadsBounded (room + 1) cs = .ok (.obj members) ∧ (offsetMember members).Infinite

variable {room : ℕ} {intText : List Nat → Option ℤ}

theorem pyInt_overflow (v : Doc) : (∃ n, pyInt intText v = .ok n) ∧ ¬ v.Infinite ∨ pyInt intText v = .error .overflowError ∧ v.Infinite ∨
    (∃ e, pyInt intText v = .error e ∧ e ≠ .overflowError) ∧ ¬ v.Infinite := by
  match v with
  | .num (.dec m 0) => exact .inl ⟨⟨m, rfl⟩, id⟩
  | .num (.dec m (e + 1)) =>
    by_cases h : overflows m (e + 1) = true
    · exact .inr (.inl ⟨by rw [pyInt, if_pos h], h⟩)
    · exact .inl ⟨⟨m.tdiv (10 ^ (e + 1)), by rw [pyInt, if_neg h]⟩, h⟩
  | .num .nan => exact .inr (.inr ⟨⟨_, rfl, nofun⟩, id⟩)
  | .num .inf | .num .negInf => exact .inr (.inl ⟨rfl, trivial⟩)
  | .bool b => exact .inl ⟨⟨_, rfl⟩, id⟩
  | .str units =>
    cases h : intText units with
    | none => exact .inr (.inr ⟨⟨.valueError, by rw [pyInt, h], nofun⟩, id⟩)
    | some n => exact .inl ⟨⟨n, by rw [pyInt, h]⟩, id⟩
  | .null | .arr _ | .obj _ => exact .inr (.inr ⟨⟨_, rfl, nofun⟩, id⟩)

theorem decodeCursor_error {cursor : String} {e : CursorError} (h : decodeCursor room cursor = .error e) :
    e = .apiError ∨ e = .recursionError ∧ TooDeep room cursor := by
  unfold decodeCursor at h
  split at h
  · cases h
    exact .inl rfl
  · rename_i cs hcs
    split at h
    · cases h
    · cases h
      exact .inl rfl
    · cases h
      exact .inl rfl
    · rename_i e' hvalue hloads
      cases h
      refine .inr ⟨rfl, cs, hcs, ?_⟩
      cases e' with
      | value => exact absurd rfl hvalue
      | recursion => exact hloads
      | fuel => exact absurd hloads (loadsBounded_fuel _ _)

theorem decodeCursor_deep {cursor : String} (h : TooDeep room cursor) : decodeCursor room cursor = .error .recursionError := by
  obtain ⟨cs, hcs, hloads⟩ := h
  unfold decodeCursor
  rw [hcs]
  dsimp only
  rw [hloads]

theorem decodeCursor_ok {cursor : String} {members : List (List Nat × Doc)} : decodeCursor room cursor = .ok members ↔
    ∃ cs, cursorText cursor = some cs ∧ loadsBounded (room + 1) cs = .ok (.obj members) := by
  constructor
  · intro h
    unfold decodeCursor at h
    split at h
    · cases h
    · rename_i cs hcs
      split at h
      · rename_i hloads
        cases h
        exact ⟨cs, hcs, hloads⟩
      · cases h
      · cases h
      · cases h
  · rintro ⟨cs, hcs, hloads⟩
    unfold decodeCursor
    rw [hcs]
    dsimp only
    rw [hloads]

theorem filter_given {cursor : String} (h : cursor ≠ "") : (some cursor).filter (· ≠ "") = some cursor := if_pos (by simpa using h)

theorem cursorText_empty : cursorText "" = some [] := by decide +kernel

/-- A cursor is answered or refused, unless it nests too deep or its offset is infinite. -/
theorem safe_iff (cursor : String) : Safe room intText cursor ↔ ¬ TooDeep room cursor ∧ ¬ InfiniteOffset room cursor := by
  by_cases hempty : cursor = ""
  · subst hempty
    have hnothing : loadsBounded (room + 1) [] = .error .value := rfl
    refine iff_of_true (fun e he => nomatch he) ⟨?_, ?_⟩
    · rintro ⟨cs, hcs, hloads⟩
      rw [cursorText_empty] at hcs
      obtain rfl := Option.some.inj hcs
      rw [hnothing] at hloads
      cases hloads
    · rintro ⟨cs, members, hcs, hloads, -⟩
      rw [cursorText_empty] at hcs
      obtain rfl := Option.some.inj hcs
      rw [hnothing] at hloads
      cases hloads
  · have hgiven := filter_given hempty
    unfold Safe offsetFrom
    rw [hgiven]
    dsimp only
    cases hdecode : decodeCursor room cursor with
    | error e =>
      have hnone : ¬ InfiniteOffset room cursor := by
        rintro ⟨cs, members, hcs, hloads, -⟩
        rw [decodeCursor_ok.2 ⟨cs, hcs, hloads⟩] at hdecode
        cases hdecode
      refine ⟨fun h => ⟨fun hdeep => ?_, hnone⟩, fun h e' he' => ?_⟩
      · rw [decodeCursor_deep hdeep] at hdecode
        cases hdecode
        cases h _ rfl
      · cases he'
        rcases decodeCursor_error hdecode with rfl | ⟨-, hdeep⟩
        · rfl
        · exact absurd hdeep h.1
    | ok members =>
      obtain ⟨cs, hcs, hloads⟩ := decodeCursor_ok.1 hdecode
      have hshallow : ¬ TooDeep room cursor := by
        intro hdeep
        rw [decodeCursor_deep hdeep] at hdecode
        cases hdecode
      have hinfinite : InfiniteOffset room cursor ↔ (offsetMember members).Infinite := by
        refine ⟨?_, fun h => ⟨cs, members, hcs, hloads, h⟩⟩
        rintro ⟨cs', members', hcs', hloads', h⟩
        obtain rfl := Option.some.inj (hcs.symm.trans hcs')
        rw [hloads] at hloads'
        cases hloads'
        exact h
      rw [hinfinite]
      rcases @pyInt_overflow intText (offsetMember members) with ⟨⟨n, hn⟩, hfinite⟩ | ⟨hover, hinf⟩ | ⟨⟨e, he, hne⟩, hfinite⟩
      · dsimp only
        rw [hn]
        exact iff_of_true (fun e he => nomatch he) ⟨hshallow, hfinite⟩
      · dsimp only
        rw [hover]
        exact iff_of_false (fun h => by cases h _ rfl) fun h => h.2 hinf
      · dsimp only
        rw [he]
        refine iff_of_true (fun e' he' => ?_) ⟨hshallow, hfinite⟩
        cases e with
        | overflowError => exact absurd rfl hne
        | typeError | valueError =>
          cases he'
          rfl

/-! ## What was written is read -/

theorem base64_chars (bytes : List UInt8) : ∀ c ∈ Base64.encode bytes, c = '=' ∨ ∃ n < 64, c = Base64.charOf n := by
  induction bytes using Base64.encode.induct with
  | case1 a b c rest ih =>
    have ha := a.toNat_lt
    have hb := b.toNat_lt
    have hc := c.toNat_lt
    rw [Base64.encode]
    simp only [List.forall_mem_cons]
    exact ⟨.inr ⟨_, by omega, rfl⟩, .inr ⟨_, by omega, rfl⟩, .inr ⟨_, by omega, rfl⟩, .inr ⟨_, by omega, rfl⟩, ih⟩
  | case2 a b =>
    have ha := a.toNat_lt
    have hb := b.toNat_lt
    rw [Base64.encode]
    simp only [List.forall_mem_cons]
    exact ⟨.inr ⟨_, by omega, rfl⟩, .inr ⟨_, by omega, rfl⟩, .inr ⟨_, by omega, rfl⟩, .inl trivial, fun _ hmem => absurd hmem List.not_mem_nil⟩
  | case3 a =>
    have ha := a.toNat_lt
    rw [Base64.encode]
    simp only [List.forall_mem_cons]
    exact ⟨.inr ⟨_, by omega, rfl⟩, .inr ⟨_, by omega, rfl⟩, .inl trivial, .inl trivial, fun _ hmem => absurd hmem List.not_mem_nil⟩
  | case4 => exact fun _ hmem => absurd hmem List.not_mem_nil

theorem urlsafe_spec {bytes : List UInt8} {c : Char} (h : c ∈ Base64.encode bytes) : (urlsafe c).toNat < 128 ∧ standard (urlsafe c) = c := by
  have hall : ∀ n < 64, (urlsafe (Base64.charOf n)).toNat < 128 ∧ standard (urlsafe (Base64.charOf n)) = Base64.charOf n := by
    decide +kernel
  rcases base64_chars bytes c h with rfl | ⟨n, hn, rfl⟩
  · decide
  · exact hall n hn

theorem cursorText_encode (position : Dict) : cursorText (encodeCursor position) = some (dumpsWith "," ":" (.obj position)).toList := by
  have hascii : (encodeCursor position).toList.all (·.toNat < 128) = true := by
    unfold encodeCursor
    rw [String.toList_ofList, List.all_eq_true]
    intro c hc
    obtain ⟨x, hx, rfl⟩ := List.mem_map.1 hc
    exact decide_eq_true (urlsafe_spec hx).1
  have hstandard : (encodeCursor position).toList.map standard = Base64.encode (Utf8.encode (dumpsWith "," ":" (.obj position)).toList) := by
    unfold encodeCursor
    rw [String.toList_ofList, List.map_map]
    exact (List.map_congr_left fun c hc => (urlsafe_spec hc).2).trans (List.map_id _)
  unfold cursorText
  rw [if_pos hascii, hstandard, Base64.decode_encode, Option.bind_some, Utf8.decodeStrict_encode]

/-- The document of a cursor. -/
theorem cursor_document (n : ℕ) : (dumpsWith "," ":" (.obj [("o", .num (.dec n 0))])).toList =
    '\x7b' :: '\x22' :: 'o' :: '\x22' :: ':' :: ((Number.dec n 0).json.toList ++ ['\x7d']) := by
  have hquoted : (quoted "o").toList = ['\x22', 'o', '\x22'] := by decide +kernel
  have htext : dumpsWith "," ":" (.obj [("o", .num (.dec n 0))]) = "\x7b" ++ (quoted "o" ++ ":" ++ (Number.dec n 0).json) ++ "\x7d" := rfl
  rw [htext]
  simp only [String.toList_append, hquoted]
  rfl

/-- A number that is not too long is read up to the end of its item. -/
theorem scanDoc_num {n : ℕ} (h : ¬ tooLong n) (fuel room : ℕ) {rest : List Char} (hrest : Ends rest) :
    scanDoc (fuel + 1) room ((Number.dec n 0).json.toList ++ rest) = .ok (.num (.dec n 0), rest) := by
  obtain ⟨c, cs, hcs, -, hplain⟩ := num_starts (Number.dec n 0)
  have hleaf : scanLeaf ((Number.dec n 0).json.toList ++ rest) = .ok (.num (.dec n 0), rest) := by
    unfold scanLeaf
    rw [scanAtom_num _ hrest]
    exact if_neg h
  rw [hcs, List.cons_append] at hleaf ⊢
  unfold scanDoc
  split
  · rename_i he
    exact absurd (List.cons.inj he).1 hplain.1
  · rename_i he
    exact absurd (List.cons.inj he).1 hplain.2.1
  · rename_i he
    exact absurd (List.cons.inj he).1 hplain.2.2
  · exact hleaf

theorem loads_cursor {n : ℕ} (h : ¬ tooLong n) (room : ℕ) :
    loadsBounded (room + 1) (dumpsWith "," ":" (.obj [("o", .num (.dec n 0))])).toList = .ok (.obj [([111], .num (.dec n 0))]) := by
  rw [cursor_document]
  obtain ⟨c, cs, hcs, hstarts, -⟩ := num_starts (Number.dec n 0)
  have hnumber : skipWs ((Number.dec n 0).json.toList ++ ['\x7d']) = (Number.dec n 0).json.toList ++ ['\x7d'] := by
    rw [hcs, List.cons_append]
    exact hstarts.skipWs _
  have hends : Ends ['\x7d'] := fun c hc => .inr (.inr (Option.mem_some_iff.1 hc).symm)
  have hunits : ∀ rest, scanUnits ('o' :: '\x22' :: rest) = some ([111], rest) := fun _ => rfl
  have hfields : ∀ fuel, scanFields (fuel + 2) room ('\x22' :: 'o' :: '\x22' :: ':' :: ((Number.dec n 0).json.toList ++ ['\x7d'])) =
      .ok ([([111], .num (.dec n 0))], []) := by
    intro fuel
    have hcolon : ∀ rest, skipWs (':' :: rest) = ':' :: rest := fun _ => rfl
    simp only [scanFields, hunits, hcolon, hnumber, scanDoc_num h fuel room hends]
    rfl
  unfold loadsBounded
  have hopen : ∀ rest, skipWs ('\x7b' :: rest) = '\x7b' :: rest := fun _ => rfl
  have hquote : ∀ rest, skipWs ('\x22' :: rest) = '\x22' :: rest := fun _ => rfl
  rw [hopen]
  generalize hlength : ('\x7b' :: '\x22' :: 'o' :: '\x22' :: ':' :: ((Number.dec n 0).json.toList ++ ['\x7d'])).length = length
  obtain ⟨fuel, hfuel⟩ : ∃ fuel, 2 * length + 1 = fuel + 3 := ⟨2 * length - 2, by rw [← hlength]; simp only [List.length_cons]; omega⟩
  have hobject : ∀ rest, scanDoc (fuel + 3) (room + 1) ('\x7b' :: '\x22' :: rest) =
      (scanFields (fuel + 2) room ('\x22' :: rest)).map fun p => (.obj p.1, p.2) := by
    intro rest
    simp only [scanDoc, hquote]
    split
    · rename_i he
      exact absurd (List.cons.inj he).1 (by decide)
    · rfl
  rw [hfuel, hobject, hfields]
  rfl

theorem cursorFor_error {n : ℕ} (h : tooLong n) : cursorFor n = .error .valueError := if_pos h

theorem cursorFor_ok {n : ℕ} (h : ¬ tooLong n) : cursorFor n = .ok (encodeCursor [("o", .num (.dec n 0))]) := if_neg h

theorem offsetMember_cursor (n : ℕ) : offsetMember [([111], .num (.dec n 0))] = .num (.dec n 0) := rfl

theorem encodeCursor_nonempty (n : ℕ) : encodeCursor [("o", .num (.dec n 0))] ≠ "" := by
  intro hempty
  have htext := cursorText_encode [("o", .num (.dec n 0))]
  rw [hempty, cursorText_empty, cursor_document] at htext
  cases htext

theorem decodeCursor_cursor {n : ℕ} (h : ¬ tooLong n) :
    decodeCursor room (encodeCursor [("o", .num (.dec n 0))]) = .ok [([111], .num (.dec n 0))] := by
  have hloads := loads_cursor h room
  rw [decodeCursor_ok]
  exact ⟨_, cursorText_encode _, hloads⟩

theorem offsetFrom_cursor {n : ℕ} (h : ¬ tooLong n) :
    offsetFrom room intText (some (encodeCursor [("o", .num (.dec n 0))])) = .ok n := by
  have hgiven := filter_given (encodeCursor_nonempty n)
  have hint : pyInt intText (offsetMember [([111], .num (.dec n 0))]) = .ok (n : ℤ) := by
    rw [offsetMember_cursor]
    rfl
  unfold offsetFrom
  rw [hgiven]
  dsimp only
  rw [decodeCursor_cursor h]
  dsimp only
  rw [hint]
  rfl

/-- An offset is read back unless it is too long to be written. -/
theorem readBack_iff (n : ℕ) : ReadBack room intText n ↔ ¬ tooLong n := by
  constructor
  · rintro ⟨cursor, hcursor, -⟩ hlong
    rw [cursorFor_error hlong] at hcursor
    cases hcursor
  · exact fun h => ⟨_, cursorFor_ok h, offsetFrom_cursor h⟩

/-! ## Following the cursors -/

theorem cursorWhen_false (o : ℕ) : cursorWhen false o = .ok none := rfl

theorem cursorWhen_true {o : ℕ} (h : ¬ tooLong o) : cursorWhen true o = .ok (some (encodeCursor [("o", .num (.dec o 0))])) := by
  unfold cursorWhen
  rw [if_pos rfl, cursorFor_ok h]
  rfl

theorem cursorWhen_long {o : ℕ} (h : tooLong o) : cursorWhen true o = .error .valueError := by
  unfold cursorWhen
  rw [if_pos rfl, cursorFor_error h]
  rfl

theorem pageCursors_next {o limit total : ℕ} {next prev : Option String} (h : pageCursors o limit total = .ok (next, prev)) :
    o + limit < total ∧ ¬ tooLong (o + limit : ℕ) ∧ next = some (encodeCursor [("o", .num (.dec (o + limit : ℕ) 0))]) ∨
      ¬ o + limit < total ∧ next = none := by
  unfold pageCursors at h
  by_cases hmore : o + limit < total
  · rw [decide_eq_true hmore] at h
    by_cases hlong : tooLong (o + limit : ℕ)
    · rw [cursorWhen_long hlong] at h
      cases h
    · rw [cursorWhen_true hlong] at h
      cases hsecond : cursorWhen (o > 0) (o - limit) with
      | error e =>
        rw [hsecond] at h
        cases h
      | ok second =>
        rw [hsecond] at h
        cases h
        exact .inl ⟨hmore, hlong, rfl⟩
  · rw [decide_eq_false hmore, cursorWhen_false] at h
    cases hsecond : cursorWhen (o > 0) (o - limit) with
    | error e =>
      rw [hsecond] at h
      cases h
    | ok second =>
      rw [hsecond] at h
      cases h
      exact .inr ⟨hmore, rfl⟩

theorem cursorWhen_ok {given : Bool} {o : ℕ} (h : given = true → ¬ tooLong o) : ∃ cursor, cursorWhen given o = .ok cursor := by
  cases given with
  | false => exact ⟨none, cursorWhen_false o⟩
  | true => exact ⟨_, cursorWhen_true (h rfl)⟩

/-- The cursors of a page, if the offsets of its neighbours can be written. -/
theorem pageCursors_ok {o limit total : ℕ} (hnext : o + limit < total → ¬ tooLong (o + limit : ℕ)) (hprev : 0 < o → ¬ tooLong (o - limit : ℕ)) :
    ∃ next prev, pageCursors o limit total = .ok (next, prev) := by
  obtain ⟨next, hfirst⟩ := cursorWhen_ok fun h => hnext (of_decide_eq_true h)
  obtain ⟨prev, hsecond⟩ := cursorWhen_ok fun h => hprev (of_decide_eq_true h)
  refine ⟨next, prev, ?_⟩
  unfold pageCursors
  rw [hfirst]
  show (cursorWhen _ _).bind _ = _
  rw [hsecond]
  rfl

/-- The offsets that were followed could be written. -/
theorem Followed.written {limit total o : ℕ} {os : List ℕ} (h : Followed room intText limit total o os) (k : ℕ)
    (hk : o + (k + 1) * limit < total) : ¬ tooLong (o + (k + 1) * limit : ℕ) := by
  induction h generalizing k with
  | @last o prev hlast =>
    rcases pageCursors_next hlast with ⟨-, -, hnone⟩ | ⟨hend, -⟩
    · cases hnone
    · have hstep : limit ≤ (k + 1) * limit := Nat.le_mul_of_pos_left limit k.succ_pos
      exact absurd (lt_of_le_of_lt (Nat.add_le_add_left hstep o) hk) hend
  | @next o o' cursor prev os hpage hread _ ih =>
    rcases pageCursors_next hpage with ⟨-, hshort, hcursor⟩ | ⟨-, hnone⟩
    · rw [Option.some.inj hcursor, offsetFrom_cursor hshort] at hread
      obtain rfl := Except.ok.inj hread
      cases k with
      | zero =>
        rw [Nat.zero_add, Nat.one_mul]
        exact hshort
      | succ k =>
        have hsum : o + (k + 1 + 1) * limit = o + limit + (k + 1) * limit := by rw [Nat.succ_mul (k + 1)]; omega
        rw [hsum] at hk ⊢
        exact ih k hk
    · cases hnone

/-- A page, and all items after it. -/
theorem pageItems_drop (limit total o : ℕ) :
    pageItems limit total o ++ (List.range total).drop (o + limit) = (List.range total).drop o := by
  unfold pageItems
  rw [← List.drop_drop, List.take_append_drop]

/-- The cursors can be followed from an offset whose successors can be written. -/
theorem followed_from {limit total : ℕ} (hlimit : 1 ≤ limit) (o : ℕ) (hprev : 0 < o → ¬ tooLong (o - limit : ℕ))
    (hshort : ∀ k, o + k * limit < total → ¬ tooLong (o + k * limit : ℕ)) :
    ∃ os, Followed room intText limit total o os ∧ os.flatMap (pageItems limit total) = (List.range total).drop o := by
  -- on the items that are left
  induction hleft : total - o using Nat.strong_induction_on generalizing o with
  | _ left ih =>
    have hone : o + limit < total → ¬ tooLong (o + limit : ℕ) := fun hmore => by simpa using hshort 1 (by simpa using hmore)
    obtain ⟨next, prev, hpage⟩ := pageCursors_ok hone hprev
    rcases pageCursors_next hpage with ⟨hmore, hwritten, rfl⟩ | ⟨hend, rfl⟩
    · have hback : ¬ tooLong (o + limit - limit : ℕ) := by
        rw [Nat.add_sub_cancel]
        simpa using hshort 0 (by omega)
      have hrest : ∀ k, o + limit + k * limit < total → ¬ tooLong (o + limit + k * limit : ℕ) := by
        intro k hk
        have hsum : o + limit + k * limit = o + (k + 1) * limit := by rw [Nat.succ_mul]; omega
        rw [hsum] at hk ⊢
        exact hshort (k + 1) hk
      obtain ⟨os, hfollowed, hitems⟩ := ih (total - (o + limit)) (by omega) (o + limit) (fun _ => hback) hrest rfl
      refine ⟨o :: os, .next hpage (offsetFrom_cursor hwritten) hfollowed, ?_⟩
      rw [List.flatMap_cons, hitems, pageItems_drop]
    · refine ⟨[o], .last hpage, ?_⟩
      have hnothing : (List.range total).drop (o + limit) = [] := List.drop_eq_nil_of_le (by rw [List.length_range]; omega)
      rw [List.flatMap_cons, List.flatMap_nil, ← pageItems_drop limit total o, hnothing]

theorem visitsAll_iff {limit total : ℕ} (hlimit : 1 ≤ limit) :
    VisitsAll room intText limit total ↔ ∀ k, k * limit < total → ¬ tooLong (k * limit : ℕ) := by
  constructor
  · rintro ⟨os, hfollowed, -⟩ k hk
    cases k with
    | zero =>
      rw [Nat.zero_mul]
      decide +kernel
    | succ k => simpa using hfollowed.written k (by simpa using hk)
  · intro h
    obtain ⟨os, hfollowed, hitems⟩ := followed_from hlimit 0 (fun hstart => absurd hstart (lt_irrefl 0)) fun k hk => by
      rw [Nat.zero_add] at hk ⊢
      exact h k hk
    exact ⟨os, hfollowed, hitems⟩

/-- A cursor is answered unless it nests too deep or its offset is infinite; an offset is read
back, and the pages are visited, unless an offset has too many digits. -/
theorem cursors_iff (room : ℕ) (intText : List Nat → Option ℤ) (cursor : String) (n : ℕ) {limit total : ℕ} (hlimit : 1 ≤ limit) :
    (Safe room intText cursor ↔ ¬ TooDeep room cursor ∧ ¬ InfiniteOffset room cursor) ∧ (ReadBack room intText n ↔ ¬ tooLong n) ∧
      (VisitsAll room intText limit total ↔ ∀ k, k * limit < total → ¬ tooLong (k * limit : ℕ)) :=
  ⟨safe_iff cursor, readBack_iff n, visitsAll_iff hlimit⟩

/-- The cursor of the offset 3, and five items on pages of two. -/
theorem cursors_visited : 1 ≤ 2 ∧ Safe 900 (fun _ => none) (encodeCursor [("o", .num (.dec (3 : ℕ) 0))]) ∧
    ReadBack 900 (fun _ => none) 3 ∧ VisitsAll 900 (fun _ => none) 2 5 := by
  obtain ⟨hsafe, hback, hvisits⟩ := @cursors_iff 900 (fun _ => none) (encodeCursor [("o", .num (.dec (3 : ℕ) 0))]) 3 2 5 (by decide)
  have hthree : ¬ tooLong (3 : ℕ) := by decide +kernel
  have htext := cursorText_encode [("o", .num (.dec (3 : ℕ) 0))]
  have hloads := loads_cursor hthree 900
  refine ⟨by decide, hsafe.2 ⟨?_, ?_⟩, hback.2 hthree, hvisits.2 fun k hk => ?_⟩
  · rintro ⟨cs, hcs, hdeep⟩
    obtain rfl := Option.some.inj (htext.symm.trans hcs)
    exact nomatch hloads.symm.trans hdeep
  · rintro ⟨cs, members, hcs, hmembers, hinf⟩
    obtain rfl := Option.some.inj (htext.symm.trans hcs)
    obtain ⟨⟩ := hloads.symm.trans hmembers
    exact hinf
  · have hfew : k < 3 := by omega
    have hall : ∀ k < 3, ¬ tooLong (k * 2 : ℕ) := by decide +kernel
    exact hall k hfew

/-- The cursor of `{"o":Infinity}`. -/
theorem not_safe_infinity : ¬ Safe 900 (fun _ => none) "eyJvIjpJbmZpbml0eX0=" := by
  intro h
  have herror : offsetFrom 900 (fun _ => none) (some "eyJvIjpJbmZpbml0eX0=") = .error .overflowError := by decide +kernel
  cases h _ herror

end Umd.Api
