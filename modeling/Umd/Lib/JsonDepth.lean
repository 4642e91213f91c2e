import Umd.Lib.JsonRead
/-!
# Reading JSON with a bound on nesting

`json.loads` as the interpreter runs it: a container inside too many others raises a
`RecursionError`, an integer of too many digits and any other text that is not JSON a
`ValueError`. Strings are kept as code units, so that lone surrogates are read too. The
fuel of the scanner is never used up (`loadsBounded_fuel`).
-/

namespace Umd.Lib

/-- A document; the strings as their code units. -/
inductive Doc where
  | null
  | bool (b : Bool)
  | num (n : Number)
  | str (units : List Nat)
  | arr (items : List Doc)
  | obj (members : List (List Nat × Doc))

/-- Why a text is not read. -/
inductive ScanError where
  | value
  | recursion
  | fuel
deriving DecidableEq

/-- An integer of more than 4300 digits, which `int` refuses to read and `str` to write. -/
def tooLong (n : ℤ) : Prop := 10 ^ 4300 ≤ n.natAbs

instance (n : ℤ) : Decidable (tooLong n) := inferInstanceAs (Decidable (10 ^ 4300 ≤ n.natAbs))

/-- A literal or a number. -/
def scanLeaf (cs : List Char) : Except ScanError (Doc × List Char) :=
  match scanAtom cs with
  | some (.null, rest) => .ok (.null, rest)
  | some (.bool b, rest) => .ok (.bool b, rest)
  | some (.num (.dec m 0), rest) => if tooLong m then .error .value else .ok (.num (.dec m 0), rest)
  | some (.num n, rest) => .ok (.num n, rest)
  | _ => .error .value

mutual
/-- One value at the head of the text; `room` is how many containers may be opened. -/
def scanDoc : ℕ → ℕ → List Char → Except ScanError (Doc × List Char)
  | 0, _, _ => .error .fuel
  | n + 1, room, cs =>
    match cs with
    | '\x22' :: r =>
      match scanUnits r with
      | some (units, rest) => .ok (.str units, rest)
      | none => .error .value
    | '[' :: r =>
      match room with
      | 0 => .error .recursion
      | room + 1 =>
        match skipWs r with
        | ']' :: rest => .ok (.arr [], rest)
        | r => (scanDocs n room r).map fun p => (.arr p.1, p.2)
    | '\x7b' :: r =>
      match room with
      | 0 => .error .recursion
      | room + 1 =>
        match skipWs r with
        | '\x7d' :: rest => .ok (.obj [], rest)
        | r => (scanFields n room r).map fun p => (.obj p.1, p.2)
    | cs => scanLeaf cs
/-- The items of an array up to its closing bracket. -/
def scanDocs : ℕ → ℕ → List Char → Except ScanError (List Doc × List Char)
  | 0, _, _ => .error .fuel
  | n + 1, room, cs => do
    let (v, r) ← scanDoc n room cs
    match skipWs r with
    | ']' :: rest => .ok ([v], rest)
    | ',' :: r =>
      let (vs, rest) ← scanDocs n room (skipWs r)
      .ok (v :: vs, rest)
    | _ => .error .value
/-- The members of an object up to its closing brace. -/
def scanFields : ℕ → ℕ → List Char → Except ScanError (List (List Nat × Doc) × List Char)
  | 0, _, _ => .error .fuel
  | n + 1, room, cs =>
    match cs with
    | '\x22' :: r =>
      match scanUnits r with
      | none => .error .value
      | some (k, r) =>
        match skipWs r with
        | ':' :: r => do
          let (v, r) ← scanDoc n room (skipWs r)
          match skipWs r with
          | '\x7d' :: rest => .ok ([(k, v)], rest)
          | ',' :: r =>
            let (fs, rest) ← scanFields n room (skipWs r)
            .ok ((k, v) :: fs, rest)
          | _ => .error .value
        | _ => .error .value
    | _ => .error .value
end

/-- `json.loads`, where `room` containers may be open at once. -/
def loadsBounded (room : ℕ) (cs : List Char) : Except ScanError Doc := do
  let (v, rest) ← scanDoc (2 * cs.length + 1) room (skipWs cs)
  if (skipWs rest).isEmpty then .ok v else .error .value

/-- `d.get(k)`; of equal keys the last one counts. -/
def Doc.member (members : List (List Nat × Doc)) (k : List Nat) : Option Doc := members.reverse.lookup k

/-- A decimal that is rounded to an infinite double. -/
def overflows (m : ℤ) (e : ℕ) : Bool := 10 ^ e * (2 ^ 1024 - 2 ^ 970) ≤ m.natAbs

/-- An infinite float. -/
def Doc.Infinite : Doc → Prop
  | .num .inf | .num .negInf => True
  | .num (.dec m (e + 1)) => overflows m (e + 1) = true
  | _ => False

/-! ## Scanning goes on -/

theorem skipWs_length (cs : List Char) : (skipWs cs).length ≤ cs.length := by
  induction cs with
  | nil => exact le_rfl
  | cons c cs ih =>
    rw [skipWs]
    split
    · exact ih.trans (Nat.le_succ _)
    · exact le_rfl

theorem scanUnits_length {cs : List Char} {units : List Nat} {rest : List Char} (h : scanUnits cs = some (units, rest)) :
    rest.length < cs.length := by
  induction cs using scanUnits.induct generalizing units with
  | case1 => cases h
  | case2 a b c d cs ih =>
    rw [scanUnits] at h
    simp only [Option.bind_eq_bind, Option.bind_eq_some_iff] at h
    obtain ⟨_, _, _, _, _, _, _, _, ⟨us, r⟩, hmore, hsame⟩ := h
    cases hsame
    have hless : r.length < cs.length := ih hmore
    simp only [List.length_cons]
    omega
  | case3 e cs hu ih =>
    rw [scanUnits] at h
    · simp only [Option.bind_eq_bind, Option.bind_eq_some_iff] at h
      obtain ⟨_, _, ⟨us, r⟩, hmore, hsame⟩ := h
      cases hsame
      have hless : r.length < cs.length := ih hmore
      simp only [List.length_cons]
      omega
    · exact hu
  | case4 cs hshort =>
    rw [scanUnits, if_pos rfl] at h
    · cases h
      simp
    · simp
    · simp
  | case5 c cs hshort hlong hquote hbad =>
    rw [scanUnits, if_neg hquote, if_pos hbad] at h
    · cases h
    · exact hshort
    · exact hlong
  | case6 c cs hshort hlong hquote hbad ih =>
    rw [scanUnits, if_neg hquote, if_neg hbad] at h
    · simp only [Option.bind_eq_bind, Option.bind_eq_some_iff] at h
      obtain ⟨⟨us, r⟩, hmore, hsame⟩ := h
      cases hsame
      have hless : r.length < cs.length := ih hmore
      simp only [List.length_cons]
      omega
    · exact hshort
    · exact hlong

theorem scanFrac_length (cs : List Char) : (scanFrac cs).2.length ≤ cs.length := by
  unfold scanFrac
  split
  · split
    · exact le_rfl
    · exact (List.dropWhile_sublist _).length_le.trans (Nat.le_succ _)
  · exact le_rfl

theorem scanExp_length (cs : List Char) : (scanExp cs).2.length ≤ cs.length := by
  cases cs with
  | nil => exact le_rfl
  | cons e cs =>
    have hif : ∀ (p : Prop) [Decidable p] (x : Option ℤ) (ds : List Char), ds.length ≤ cs.length →
        (if p then (x, ds.dropWhile isDigit) else (none, e :: cs)).2.length ≤ (e :: cs).length := by
      intro p _ x ds hds
      split
      · exact ((List.dropWhile_sublist _).length_le.trans hds).trans (Nat.le_succ _)
      · exact le_rfl
    unfold scanExp
    dsimp only
    split
    · exact hif _ _ _ (Nat.le_succ _)
    · exact hif _ _ _ (Nat.le_succ _)
    · exact hif _ _ _ le_rfl

theorem scanNumber_length {neg : Bool} {cs rest : List Char} {n : Number} (h : scanNumber neg cs = some (n, rest)) :
    rest.length < cs.length := by
  unfold scanNumber at h
  dsimp only at h
  generalize hints : (if cs.head? = some '0' then ['0'] else cs.takeWhile isDigit) = ints at h
  have hprefix : ints.length ≤ cs.length := by
    rw [← hints]
    split
    · rename_i hhead
      cases cs with
      | nil => cases hhead
      | cons c cs => simp
    · exact (List.takeWhile_sublist _).length_le
  split at h
  · cases h
  · rename_i hne
    have hpos : 0 < ints.length := by
      cases ints with
      | nil => exact absurd rfl hne
      | cons c ints => exact Nat.succ_pos _
    have hrest : (scanExp (scanFrac (cs.drop ints.length)).2).2.length < cs.length := by
      have hexp := scanExp_length (scanFrac (cs.drop ints.length)).2
      have hfrac := scanFrac_length (cs.drop ints.length)
      rw [List.length_drop] at hfrac
      omega
    split at h <;> cases h <;> exact hrest

theorem scanAtom_length {cs rest : List Char} {j : Json} (h : scanAtom cs = some (j, rest)) : rest.length < cs.length := by
  have hlit : ∀ {text : String} {k : ℕ}, text.toList.isPrefixOf cs = true → text.toList.length = k + 1 → (cs.drop (k + 1)).length < cs.length := by
    intro text k hprefix hlength
    have hle := (List.isPrefixOf_iff_prefix.1 hprefix).length_le
    rw [List.length_drop]
    omega
  unfold scanAtom at h
  split at h
  · rename_i hp
    cases h
    exact hlit hp rfl
  split at h
  · rename_i hp
    cases h
    exact hlit hp rfl
  split at h
  · rename_i hp
    cases h
    exact hlit hp rfl
  split at h
  · rename_i hp
    cases h
    exact hlit hp rfl
  split at h
  · rename_i hp
    cases h
    exact hlit hp rfl
  split at h
  · rename_i hp
    cases h
    exact hlit hp rfl
  split at h
  · obtain ⟨⟨n, r⟩, hnumber, hsame⟩ := Option.map_eq_some_iff.1 h
    cases hsame
    exact (scanNumber_length hnumber).trans (Nat.lt_succ_self _)
  · obtain ⟨⟨n, r⟩, hnumber, hsame⟩ := Option.map_eq_some_iff.1 h
    cases hsame
    exact scanNumber_length hnumber

theorem scanLeaf_length {cs rest : List Char} {v : Doc} (h : scanLeaf cs = .ok (v, rest)) : rest.length < cs.length := by
  unfold scanLeaf at h
  split at h
  · rename_i hatom
    cases h
    exact scanAtom_length hatom
  · rename_i hatom
    cases h
    exact scanAtom_length hatom
  · rename_i hatom
    split at h
    · cases h
    · cases h
      exact scanAtom_length hatom
  · rename_i hatom
    cases h
    exact scanAtom_length hatom
  · cases h

theorem scanLeaf_fuel (cs : List Char) : scanLeaf cs ≠ .error .fuel := by
  unfold scanLeaf
  split
  · exact nofun
  · exact nofun
  · split <;> exact nofun
  · exact nofun
  · exact nofun

/-- A scanner's result on a text: something is taken off it, and with enough fuel the fuel is not used up. -/
def GoesOn {β : Type} (cs : List Char) (enough : Prop) (res : Except ScanError (β × List Char)) : Prop :=
  (∀ v rest, res = .ok (v, rest) → rest.length < cs.length) ∧ (enough → res ≠ .error .fuel)

theorem goesOn_ok {β : Type} {cs rest : List Char} {enough : Prop} (v : β) (h : rest.length < cs.length) : GoesOn cs enough (.ok (v, rest)) :=
  ⟨fun _ _ he => by cases he; exact h, fun _ => nofun⟩

theorem goesOn_error {β : Type} {cs : List Char} {enough : Prop} {e : ScanError} (h : enough → e ≠ .fuel) :
    GoesOn cs enough (.error e : Except ScanError (β × List Char)) :=
  ⟨nofun, fun he hfuel => h he (Except.error.inj hfuel)⟩

/-- What another scanner makes of a later part of the text. -/
theorem GoesOn.map {β γ : Type} {cs cs' : List Char} {enough enough' : Prop} {res : Except ScanError (β × List Char)} (h : GoesOn cs enough res)
    (f : β → γ) (hlength : cs.length ≤ cs'.length) (henough : enough' → enough) :
    GoesOn cs' enough' (res.map fun p => (f p.1, p.2)) := by
  cases hres : res with
  | error e => exact goesOn_error fun he hfuel => h.2 (henough he) (by rw [hres, hfuel])
  | ok p => exact goesOn_ok _ ((h.1 p.1 p.2 hres).trans_le hlength)

/-- The three scanners go on. -/
theorem scanDoc_spec (n : ℕ) : (∀ room cs, GoesOn cs (2 * cs.length + 1 ≤ n) (scanDoc n room cs)) ∧
    (∀ room cs, GoesOn cs (2 * cs.length + 2 ≤ n) (scanDocs n room cs)) ∧
    ∀ room cs, GoesOn cs (2 * cs.length + 2 ≤ n) (scanFields n room cs) := by
  induction n with
  | zero =>
    exact ⟨fun _ _ => goesOn_error fun h => by omega, fun _ _ => goesOn_error fun h => by omega, fun _ _ => goesOn_error fun h => by omega⟩
  | succ n ih =>
    obtain ⟨ihDoc, ihDocs, ihFields⟩ := ih
    refine ⟨fun room cs => ?_, fun room cs => ?_, fun room cs => ?_⟩
    · unfold scanDoc
      split
      · split
        · rename_i hunits
          exact goesOn_ok _ ((scanUnits_length hunits).trans (Nat.lt_succ_self _))
        · exact goesOn_error fun _ => nofun
      · rename_i r
        have hskip := skipWs_length r
        cases room with
        | zero => exact goesOn_error fun _ => nofun
        | succ room =>
          dsimp only
          split
          · rename_i hclose
            rw [hclose, List.length_cons] at hskip
            exact goesOn_ok _ (by rw [List.length_cons]; omega)
          · exact (ihDocs room (skipWs r)).map _ (by rw [List.length_cons]; omega) (by rw [List.length_cons]; omega)
      · rename_i r
        have hskip := skipWs_length r
        cases room with
        | zero => exact goesOn_error fun _ => nofun
        | succ room =>
          dsimp only
          split
          · rename_i hclose
            rw [hclose, List.length_cons] at hskip
            exact goesOn_ok _ (by rw [List.length_cons]; omega)
          · exact (ihFields room (skipWs r)).map _ (by rw [List.length_cons]; omega) (by rw [List.length_cons]; omega)
      · exact ⟨fun _ _ h => scanLeaf_length h, fun _ => scanLeaf_fuel _⟩
    · rw [scanDocs]
      have hdoc := ihDoc room cs
      cases hres : scanDoc n room cs with
      | error e => exact goesOn_error fun he hfuel => hdoc.2 (by omega) (by rw [hres, hfuel])
      | ok p =>
        obtain ⟨v, r⟩ := p
        have hr := hdoc.1 v r hres
        have hskip := skipWs_length r
        dsimp only [bind, Except.bind]
        split
        · rename_i hclose
          rw [hclose, List.length_cons] at hskip
          exact goesOn_ok _ (by omega)
        · rename_i r' hcomma
          rw [hcomma, List.length_cons] at hskip
          have hskip' := skipWs_length r'
          exact (ihDocs room (skipWs r')).map (v :: ·) (by omega) (by omega)
        · exact goesOn_error fun _ => nofun
    · unfold scanFields
      split
      · rename_i r
        split
        · exact goesOn_error fun _ => nofun
        · rename_i k r' hunits
          have hkey := scanUnits_length hunits
          have hskip := skipWs_length r'
          split
          · rename_i r₁ hcolon
            rw [hcolon, List.length_cons] at hskip
            have hskip₁ := skipWs_length r₁
            have hdoc := ihDoc room (skipWs r₁)
            cases hres : scanDoc n room (skipWs r₁) with
            | error e => exact goesOn_error fun he hfuel => hdoc.2 (by rw [List.length_cons] at he; omega) (by rw [hres, hfuel])
            | ok p =>
              obtain ⟨v, r₂⟩ := p
              have hr := hdoc.1 v r₂ hres
              have hskip₂ := skipWs_length r₂
              dsimp only [bind, Except.bind]
              split
              · rename_i hclose
                rw [hclose, List.length_cons] at hskip₂
                exact goesOn_ok _ (by rw [List.length_cons]; omega)
              · rename_i r₃ hcomma
                rw [hcomma, List.length_cons] at hskip₂
                have hskip₃ := skipWs_length r₃
                exact (ihFields room (skipWs r₃)).map ((k, v) :: ·) (by rw [List.length_cons]; omega) (by rw [List.length_cons]; omega)
              · exact goesOn_error fun _ => nofun
          · exact goesOn_error fun _ => nofun
      · exact goesOn_error fun _ => nofun

/-- The fuel of `loadsBounded` is not used up. -/
theorem loadsBounded_fuel (room : ℕ) (cs : List Char) : loadsBounded room cs ≠ .error .fuel := by
  unfold loadsBounded
  have hdoc := (scanDoc_spec (2 * cs.length + 1)).1 room (skipWs cs)
  have hskip := skipWs_length cs
  cases hres : scanDoc (2 * cs.length + 1) room (skipWs cs) with
  | error e => exact fun hfuel => hdoc.2 (by omega) (by rw [hres, Except.error.inj hfuel])
  | ok p =>
    dsimp only [bind, Except.bind]
    split <;> exact nofun

end Umd.Lib
