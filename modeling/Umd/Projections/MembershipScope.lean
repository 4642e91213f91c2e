import Umd.Projections.EntityQuery
import Umd.Storage.Memberships
/-!
# The two tests of a membership scope

The reducer stores memberships whose values are lists (`reduced_lists`). On such memberships
the predicate of the statement and `_in_membership_scope` agree, unless the list of tuples
is empty, a tuple is short, or an id is written as another value than a text
(`scope_alike_iff`).
-/

namespace Umd.Query

open Umd.Lib Umd.Events Umd.Reducer Umd.Projections

/-! ## What the reducer stores -/

/-- Every value of the memberships is a list. -/
def ListsOnly (memberships : Json) : Prop := ∀ k x, (fieldsOf memberships).get? k = some x → isArr x = true

/-- The memberships a row records. -/
def recorded (objectRef : Option String) : Json := (parseMetadata objectRef).get "memberships"

theorem isArr_norm {j : Json} (h : isArr j = true) : isArr j.norm = true := by
  cases j with
  | arr xs => rw [Json.norm, isArr]
  | null | bool b | num n | str s | obj d => cases h

theorem listsOnly_norm {j : Json} (hkeys : (fieldsOf j).keys.Nodup) (h : ListsOnly j) : ListsOnly j.norm := by
  cases j with
  | obj d =>
    intro k x hx
    have hd : (Dict.keys d).Nodup := hkeys
    rw [norm_obj hd, fieldsOf, get?_readBack hd, Option.map_eq_some_iff] at hx
    obtain ⟨y, hy, rfl⟩ := hx
    exact isArr_norm (h k y hy)
  | null | bool b | num n | str s | arr xs => exact fun k x hx => by cases hx

/-- The memberships of a document that is written and read. -/
theorem recorded_dumps {d : Dict} (hkeys : d.keys.Nodup) : recorded (some (dumps (.obj d))) = (d.get "memberships").norm := by
  have hread : parseObject (dumps (.obj d)) = some (readBack d) := by
    unfold parseObject
    rw [loads_dumps, norm_obj hkeys]
    rfl
  rw [recorded, parseMetadata, Option.bind_some, hread, Option.getD_some, Dict.get, Dict.get, get?_readBack hkeys]
  cases d.get? "memberships" <;> rfl

theorem parseObject_keys {text : String} {d : Dict} (h : parseObject text = some d) : d.keys.Nodup := by
  unfold parseObject at h
  obtain ⟨j, hloads, hobj⟩ := Option.bind_eq_some_iff.1 h
  cases j with
  | obj d' =>
    cases hobj
    exact loads_keys hloads
  | null | bool b | num n | str s | arr xs => cases hobj

theorem parseMetadata_keys (objectRef : Option String) : (parseMetadata objectRef).keys.Nodup := by
  unfold parseMetadata
  cases hread : objectRef.bind parseObject with
  | none => exact List.nodup_nil
  | some d =>
    obtain ⟨text, -, hparse⟩ := Option.bind_eq_some_iff.1 hread
    exact parseObject_keys hparse

theorem payloadMetadata_keys {ev : SemanticEvent} {d : Dict} (h : payloadMetadata ev = .ok d) : d.keys.Nodup := by
  unfold payloadMetadata at h
  dsimp only at h
  obtain ⟨memberships, -, h⟩ := bind_ok h
  obtain ⟨tuples, -, h⟩ := bind_ok h
  obtain ⟨aliases, -, h⟩ := bind_ok h
  obtain ⟨supportRefs, -, h⟩ := bind_ok h
  obtain ⟨generatedBy, -, h⟩ := bind_ok h
  obtain ⟨derivedFrom, -, h⟩ := bind_ok h
  obtain ⟨correspondence, -, h⟩ := bind_ok h
  have hfields : ∀ a b c d e f g x y z u v : Json, (Dict.keys [("canonical_type", a), ("display_label", b), ("aliases", c), ("support_refs", d),
      ("memberships", e), ("state", f), ("confidence", g), ("classification", x), ("generated_by", y), ("created_by", z), ("derived_from", u),
      ("correspondence", v)]).Nodup := by
    intro a b c d e f g x y z u v
    simp [Dict.keys]
  cases h
  split
  · exact hfields ..
  · exact Dict.set_keys (hfields ..) _ _

theorem identityMetadata_keys {ev : SemanticEvent} {d : Dict} (h : identityMetadata ev = .ok d) : d.keys.Nodup := by
  unfold identityMetadata at h
  dsimp only at h
  split at h
  · rename_i parsed hparsed
    cases h
    split at hparsed
    · exact parseObject_keys hparsed
    · cases hparsed
  · exact payloadMetadata_keys h

theorem mergedMetadata_keys (row : CurrentStateRow) (ev : SemanticEvent) (d : Dict) : (mergedMetadata row ev d).keys.Nodup := by
  unfold mergedMetadata
  refine Dict.set_keys ?_ _ _
  have hupdate := Dict.update_keys (parseMetadata_keys row.objectRef) d
  split
  · exact Dict.set_keys hupdate _ _
  · exact hupdate

/-- The metadata of a winner: a union of lists, or nothing. -/
theorem winnerMetadata_lists {row : CurrentStateRow} {ev : SemanticEvent} {d : Dict} (h : winnerMetadata row ev = .ok d) :
    d.keys.Nodup ∧ (fieldsOf (d.get "memberships")).keys.Nodup ∧ ListsOnly (d.get "memberships") := by
  unfold winnerMetadata at h
  cases hmetadata : identityMetadata ev with
  | error e =>
    rw [hmetadata] at h
    cases h
  | ok given =>
    rw [hmetadata] at h
    have hkeys : (if isOverride ev.eventType then mergedMetadata row ev given else given).keys.Nodup := by
      split
      · exact mergedMetadata_keys row ev given
      · exact identityMetadata_keys hmetadata
    dsimp only [bind, Except.bind] at h
    generalize (if isOverride ev.eventType then mergedMetadata row ev given else given) = metadata at h hkeys
    split at h
    · cases hgiven : metadata.get "memberships" with
      | obj incoming =>
        rw [hgiven] at h
        cases hunion : unionMemberships (membershipsOf row) (.obj incoming) with
        | error e =>
          rw [hunion] at h
          cases h
        | ok u =>
          rw [hunion] at h
          cases h
          have hget : (metadata.set "memberships" (.obj u)).get "memberships" = .obj u := by
            rw [Dict.get, Dict.get?_set, if_pos rfl]
            rfl
          rw [hget]
          refine ⟨Dict.set_keys hkeys _ _, ?_, fun k x hx => ?_⟩
          · rw [fieldsOf, union_keys hunion]
            exact nodup_unionKeys _ _
          · have hdistinct : u.keys.Nodup := by rw [union_keys hunion]; exact nodup_unionKeys _ _
            obtain ⟨key, -, hat⟩ := mapM_mem hunion _ ((Dict.get?_iff hdistinct).1 hx)
            obtain ⟨old, new, -, -, he⟩ := unionAt_ok hat
            cases he
            rfl
      | null | bool b | num n | str s | arr xs =>
        rw [hgiven] at h
        cases h
    · rename_i hfalse
      cases h
      have hempty : fieldsOf (d.get "memberships") = [] := by
        cases hgiven : d.get "memberships" with
        | obj given =>
          cases given with
          | nil => rfl
          | cons f fs =>
            rw [hgiven] at hfalse
            exact absurd rfl hfalse
        | null | bool b | num n | str s | arr xs => rfl
      refine ⟨hkeys, hempty ▸ List.nodup_nil, fun k x hx => ?_⟩
      rw [hempty] at hx
      cases hx

/-- One event keeps a row whose memberships are lists. -/
theorem reduce_lists {row row' : CurrentStateRow} {ev : SemanticEvent} (h : reduceCanonicalIdentity row ev = .ok row')
    (hrow : ListsOnly (recorded row.objectRef)) : ListsOnly (recorded row'.objectRef) := by
  unfold reduceCanonicalIdentity at h
  split at h
  · cases h
    exact hrow
  · split at h
    · cases h
      exact hrow
    · cases hwinner : winnerMetadata row ev with
      | error e =>
        rw [hwinner] at h
        cases h
      | ok d =>
        rw [hwinner] at h
        cases hconf : payloadConf ev row with
        | error e =>
          rw [hconf] at h
          cases h
        | ok conf =>
          rw [hconf] at h
          cases h
          obtain ⟨hkeys, hinner, hlists⟩ := winnerMetadata_lists hwinner
          show ListsOnly (recorded (some (dumps (.obj d))))
          rw [recorded_dumps hkeys]
          exact listsOnly_norm hinner hlists

/-- So do any events. -/
theorem reduced_lists {row row' : CurrentStateRow} {evs : List SemanticEvent} (h : evs.foldlM reduceCanonicalIdentity row = .ok row')
    (hrow : ListsOnly (recorded row.objectRef)) : ListsOnly (recorded row'.objectRef) := by
  induction evs generalizing row with
  | nil =>
    cases h
    exact hrow
  | cons ev evs ih =>
    rw [List.foldlM_cons] at h
    cases hfirst : reduceCanonicalIdentity row ev with
    | error e =>
      rw [hfirst] at h
      cases h
    | ok next =>
      rw [hfirst] at h
      exact ih h (reduce_lists hfirst hrow)

/-! ## When the tests agree -/

/-- The spelling of an item by `str`. -/
def spelled : Json → Option String
  | .null => none
  | j => some (pyStr j)

/-- The items of a tuple spell the requested ids at their places. -/
def Names (spelling : Json → Option String) (sc : Scope) (t : Json) : Prop :=
  ∀ f ∈ sc, (arrowAt t (dimension f.1)).bind spelling = some f.2

/-- A tuple of a source, a work and a continuity. -/
def Whole : Json → Prop
  | .arr xs => 3 ≤ xs.length
  | _ => False

/-- The list of each key has an item that is spelled as the id. -/
def Listed (sc : Scope) (memberships : Dict) : Prop := ∀ f ∈ sc, ∃ x ∈ itemsOf (memberships.get f.1), pyStr x = f.2

/-- The list of each key has the id as a text. -/
def ListedAsText (sc : Scope) (memberships : Dict) : Prop := ∀ f ∈ sc, Json.str f.2 ∈ itemsOf (memberships.get f.1)

/-- A whole tuple names the scope by either spelling; or, if there are tuples that only the statement
takes, there are others that only Python takes. -/
def TuplesAlike (sc : Scope) (ts : List Json) : Prop :=
  (∃ t ∈ ts, Whole t ∧ Names spelled sc t ∧ Names astext sc t) ∨
    ((∃ t ∈ ts, Names astext sc t ∧ ¬ (Whole t ∧ Names spelled sc t)) ↔ ∃ t ∈ ts, Whole t ∧ Names spelled sc t ∧ ¬ Names astext sc t)

/-- When both tests say the same of the memberships. -/
def ScopedAlike (sc : Scope) (memberships : Dict) : Prop :=
  sc = [] ∨
    match memberships.get? "tuples" with
    | some (.arr (t :: ts)) => TuplesAlike sc (t :: ts)
    | some _ => ¬ Listed sc memberships
    | none => Listed sc memberships → ListedAsText sc memberships

theorem tupleInScope_iff (sc : Scope) (t : Json) : tupleInScope sc t = true ↔ Whole t ∧ Names spelled sc t := by
  cases t with
  | arr xs =>
    rw [tupleInScope, Bool.and_eq_true, decide_eq_true_iff, List.all_eq_true]
    refine and_congr Iff.rfl (forall₂_congr fun f _ => ?_)
    rw [arrowAt]
    cases hx : xs[dimension f.1]? with
    | none => simp
    | some x => cases x <;> simp [spelled]
  | null | bool b | num n | str s | obj d => exact iff_of_false nofun fun h => h.1

theorem tupleScopePred_iff {sc : Scope} {d : Dict} {ts : List Json} (h : d.get? "tuples" = some (.arr ts)) :
    tupleScopePred sc (.obj d) = .ok true ↔ ∃ t ∈ ts, Names astext sc t := by
  unfold tupleScopePred
  rw [arrow, h]
  simp only [Except.ok.injEq, List.any_eq_true, List.all_eq_true, decide_eq_true_eq, Names]

theorem not_listed_nil {sc : Scope} (hsc : sc ≠ []) : ¬ Listed sc [] ∧ ¬ ListedAsText sc [] := by
  obtain ⟨f, fs, rfl⟩ := List.exists_cons_of_ne_nil hsc
  refine ⟨fun h => ?_, fun h => ?_⟩
  · obtain ⟨x, hx, -⟩ := h f (List.mem_cons_self ..)
    cases hx
  · cases h f (List.mem_cons_self ..)

theorem listed_of_text {sc : Scope} {d : Dict} (h : ListedAsText sc d) : Listed sc d := fun f hf => ⟨.str f.2, h f hf, rfl⟩

theorem allM_iff {α ε : Type} {f : α → Except ε Bool} {xs : List α} : xs.allM f = .ok true ↔ ∀ x ∈ xs, f x = .ok true := by
  induction xs with
  | nil => exact iff_of_true rfl nofun
  | cons x xs ih =>
    rw [List.forall_mem_cons, ← ih, List.allM]
    cases hx : f x with
    | error e => exact iff_of_false nofun fun h => nomatch h.1
    | ok b =>
      cases b with
      | false => exact iff_of_false nofun fun h => nomatch h.1
      | true => exact (and_iff_right rfl).symm

section

variable {sc : Scope} (hsc : sc ≠ [])

/-- The legacy test of the statement. -/
theorem texts_iff {d : Dict} (hlists : ∀ k x, d.get? k = some x → isArr x = true) :
    (sc.all fun f => (arrow (.obj d) f.1).any (existsKey · f.2)) = true ↔ ListedAsText sc d := by
  rw [List.all_eq_true]
  refine forall₂_congr fun f _ => ?_
  rw [arrow, Dict.get]
  cases hx : d.get? f.1 with
  | none => exact iff_of_false (fun h => by cases h) fun h => by cases h
  | some x =>
    have harr := hlists _ _ hx
    cases x with
    | arr xs =>
      rw [Option.any_some, existsKey, List.any_eq_true, Option.getD_some, itemsOf]
      simp only [Json.isStr_iff, exists_eq_right]
    | null | bool b | num n | str s | obj d => cases harr

/-- The legacy test of Python. -/
theorem listed_iff {d : Dict} (hlists : ∀ k x, d.get? k = some x → isArr x = true) :
    (sc.allM fun f => (pyList (d.get f.1)).map fun owned => (owned.map pyStr).contains f.2) = .ok true ↔ Listed sc d := by
  rw [allM_iff]
  refine forall₂_congr fun f _ => ?_
  rw [Dict.get]
  cases hx : d.get? f.1 with
  | none => exact iff_of_false (fun h => by cases h) fun h => by obtain ⟨_, hmem, -⟩ := h; cases hmem
  | some x =>
    have harr := hlists _ _ hx
    cases x with
    | arr xs =>
      rw [Option.getD_some, pyList_arr, Except.map, Except.ok.injEq, List.contains_iff_mem, List.mem_map, itemsOf]
    | null | bool b | num n | str s | obj d => cases harr

/-- The test of Python on the lists of a row. -/
theorem tuples_or_lists_iff {d : Dict} (hd : ∀ k x, d.get? k = some x → isArr x = true) :
    (match d.get "tuples" with
      | .arr (t :: ts) => (.ok ((t :: ts).any (tupleInScope sc)) : Except PyError Bool)
      | _ => sc.allM fun f : String × String => (pyList (d.get f.1)).map fun owned : List Json => (owned.map pyStr).contains f.2) = .ok true ↔
    match d.get? "tuples" with
    | some (.arr (t :: ts)) => ∃ t' ∈ t :: ts, Whole t' ∧ Names spelled sc t'
    | _ => Listed sc d := by
  rw [Dict.get]
  cases htuples : d.get? "tuples" with
  | none => exact listed_iff hd
  | some tuples =>
    rw [Option.getD_some]
    split
    · rw [Except.ok.injEq, List.any_eq_true]
      simp only [tupleInScope_iff]
    · rename_i hother
      split
      · rename_i he
        exact absurd (Option.some.inj he) (hother _ _)
      · exact listed_iff hd

include hsc

/-- Nothing is in scope where the memberships are no object. -/
theorem no_object {memberships : Json} (h : ∀ k, arrow memberships k = none) :
    (if existsKey memberships "tuples" then tupleScopePred sc memberships
      else .ok (sc.all fun f => (arrow memberships f.1).any (existsKey · f.2))) ≠ .ok true := by
  have hfalse : (sc.all fun f => (arrow memberships f.1).any (existsKey · f.2)) = false := by
    obtain ⟨f, fs, rfl⟩ := List.exists_cons_of_ne_nil hsc
    rw [List.all_cons, h, Option.any_none, Bool.false_and]
  split
  · unfold tupleScopePred
    rw [h]
    nofun
  · rw [hfalse]
    nofun

/-- What the statement takes. -/
theorem membershipScopePred_iff {r : ScalarRow} (hlists : ListsOnly (recorded r.objectRef)) : membershipScopePred sc r = .ok true ↔
    match (fieldsOf (recorded r.objectRef)).get? "tuples" with
    | some (.arr ts) => ∃ t ∈ ts, Names astext sc t
    | _ => ListedAsText sc (fieldsOf (recorded r.objectRef)) := by
  have hnothing : ¬ ListedAsText sc [] := (not_listed_nil hsc).2
  unfold membershipScopePred recorded parseMetadata at *
  rw [if_neg hsc]
  cases hobject : r.objectRef with
  | none => exact iff_of_false (fun h => by cases h) hnothing
  | some text =>
    rw [hobject] at hlists
    rw [Option.bind_some, parseObject] at hlists ⊢
    dsimp only
    cases hloads : loads text with
    | none => exact iff_of_false (fun h => by cases h) hnothing
    | some body =>
      rw [hloads] at hlists
      cases body with
      | obj d =>
        rw [Option.bind_some, Json.obj?, Option.getD_some, Dict.get] at hlists ⊢
        dsimp only
        rw [show arrow (.obj d) "memberships" = Dict.get? d "memberships" from rfl]
        cases hmemberships : Dict.get? d "memberships" with
        | none => exact iff_of_false (fun h => by cases h) hnothing
        | some memberships =>
          rw [hmemberships, Option.getD_some] at hlists
          rw [Option.getD_some]
          cases memberships with
          | obj e =>
            dsimp only
            rw [fieldsOf, show existsKey (.obj e) "tuples" = (Dict.get? e "tuples").isSome from rfl]
            cases htuples : Dict.get? e "tuples" with
            | none =>
              rw [Option.isSome_none, if_neg Bool.false_ne_true, Except.ok.injEq]
              exact texts_iff hlists
            | some tuples =>
              have harr := hlists _ _ htuples
              cases tuples with
              | arr ts =>
                rw [Option.isSome_some, if_pos rfl]
                exact tupleScopePred_iff htuples
              | null | bool b | num n | str s | obj d => cases harr
          | null | bool b | num n | str s | arr xs => exact iff_of_false (no_object hsc fun _ => rfl) hnothing
      | null | bool b | num n | str s | arr xs => exact iff_of_false (fun h => by cases h) hnothing

/-- What Python takes. -/
theorem inMembershipScope_iff {r : ScalarRow} (hlists : ListsOnly (recorded r.objectRef)) : inMembershipScope sc r = .ok true ↔
    match (fieldsOf (recorded r.objectRef)).get? "tuples" with
    | some (.arr (t :: ts)) => ∃ t' ∈ t :: ts, Whole t' ∧ Names spelled sc t'
    | _ => Listed sc (fieldsOf (recorded r.objectRef)) := by
  unfold inMembershipScope
  rw [if_neg hsc]
  unfold recorded at *
  cases hmemberships : (parseMetadata r.objectRef).get "memberships" with
  | obj d =>
    rw [hmemberships] at hlists
    exact tuples_or_lists_iff hlists
  | null | bool b | num n | str s | arr xs => exact @tuples_or_lists_iff sc [] fun _ _ hx => by cases hx

end

theorem tuplesAlike_iff (sc : Scope) (ts : List Json) :
    ((∃ t ∈ ts, Names astext sc t) ↔ ∃ t ∈ ts, Whole t ∧ Names spelled sc t) ↔ TuplesAlike sc ts := by
  unfold TuplesAlike
  by_cases hboth : ∃ t ∈ ts, Whole t ∧ Names spelled sc t ∧ Names astext sc t
  · obtain ⟨t, ht, hwhole, hspelled, htext⟩ := hboth
    exact iff_of_true (iff_of_true ⟨t, ht, htext⟩ ⟨t, ht, hwhole, hspelled⟩) (.inl ⟨t, ht, hwhole, hspelled, htext⟩)
  · -- no tuple passes both tests, so each passes at most one
    rw [or_iff_right hboth]
    have hsql : (∃ t ∈ ts, Names astext sc t) ↔ ∃ t ∈ ts, Names astext sc t ∧ ¬ (Whole t ∧ Names spelled sc t) := by
      refine exists_congr fun t => and_congr_right fun ht => (and_iff_left_of_imp fun htext hpython => ?_).symm
      exact hboth ⟨t, ht, hpython.1, hpython.2, htext⟩
    have hpython : (∃ t ∈ ts, Whole t ∧ Names spelled sc t) ↔ ∃ t ∈ ts, Whole t ∧ Names spelled sc t ∧ ¬ Names astext sc t := by
      refine exists_congr fun t => and_congr_right fun ht => and_congr_right fun hwhole => (and_iff_left_of_imp fun hspelled htext => ?_).symm
      exact hboth ⟨t, ht, hwhole, hspelled, htext⟩
    rw [hsql, hpython]

/-- The two tests say the same of a row that the reducer stores if and only if its tuples or lists do. -/
theorem scope_alike_iff (sc : Scope) {r : ScalarRow} (h : ListsOnly (recorded r.objectRef)) :
    (membershipScopePred sc r = .ok true ↔ inMembershipScope sc r = .ok true) ↔ ScopedAlike sc (fieldsOf (recorded r.objectRef)) := by
  by_cases hsc : sc = []
  · refine iff_of_true ?_ (.inl hsc)
    rw [membershipScopePred, inMembershipScope, if_pos hsc, if_pos hsc]
  · rw [membershipScopePred_iff hsc h, inMembershipScope_iff hsc h, ScopedAlike, or_iff_right hsc]
    unfold ListsOnly at h
    generalize fieldsOf (recorded r.objectRef) = d at h
    cases htuples : d.get? "tuples" with
    | none => exact ⟨fun heq hlisted => heq.2 hlisted, fun hplain => ⟨listed_of_text, hplain⟩⟩
    | some tuples =>
      have harr := h _ _ htuples
      cases tuples with
      | arr ts =>
        cases ts with
        | nil =>
          refine ⟨fun heq hlisted => ?_, fun hnone => iff_of_false nofun hnone⟩
          obtain ⟨t, ht, -⟩ := heq.2 hlisted
          cases ht
        | cons t ts => exact tuplesAlike_iff sc (t :: ts)
      | null | bool b | num n | str s | obj d => cases harr

/-- An identity row with the source `s` and some tuples. -/
def rowOf (tuples : List Json) : ScalarRow where
  entityRef := "e"
  predicate := canonicalIdentity
  objectRef := some (dumps (.obj [("memberships", .obj [("source_ids", .arr [.str "s"]), ("tuples", .arr tuples)])]))
  confidence := .null
  authority := .str "operator"
  state := .str "CONFIRMED"
  seq := 1

theorem rowOf_lists (tuples : List Json) : ListsOnly (recorded (rowOf tuples).objectRef) := by
  have hinner : (Dict.keys [("source_ids", Json.arr [.str "s"]), ("tuples", .arr tuples)]).Nodup := by simp [Dict.keys]
  rw [rowOf, recorded_dumps (by simp [Dict.keys])]
  refine listsOnly_norm hinner fun k x hx => ?_
  rcases List.mem_cons.1 ((Dict.get?_iff hinner).1 hx) with he | hx
  · cases he
    rfl
  · cases List.mem_singleton.1 hx
    rfl

/-- A whole tuple of the source. -/
theorem alike_whole : ListsOnly (recorded (rowOf [.arr [.str "s", .str "w", .null]]).objectRef) ∧
    (membershipScopePred [("source_ids", "s")] (rowOf [.arr [.str "s", .str "w", .null]]) = .ok true ↔
      inMembershipScope [("source_ids", "s")] (rowOf [.arr [.str "s", .str "w", .null]]) = .ok true) := by
  refine ⟨rowOf_lists _, (scope_alike_iff _ (rowOf_lists _)).2 (.inr ?_)⟩
  have hrecorded : fieldsOf (recorded (rowOf [.arr [.str "s", .str "w", .null]]).objectRef) =
      [("source_ids", .arr [.str "s"]), ("tuples", .arr [.arr [.str "s", .str "w", .null]])] := by
    rw [rowOf, recorded_dumps (by simp [Dict.keys])]
    rfl
  rw [hrecorded]
  refine .inl ⟨.arr [.str "s", .str "w", .null], List.mem_singleton_self _, le_rfl, fun f hf => ?_, fun f hf => ?_⟩
  · cases List.mem_singleton.1 hf
    rfl
  · cases List.mem_singleton.1 hf
    rfl

/-- An empty list of tuples: the statement finds none in it, Python looks at the sources. -/
theorem empty_tuples_differ : ListsOnly (recorded (rowOf []).objectRef) ∧
    ¬ (membershipScopePred [("source_ids", "s")] (rowOf []) = .ok true ↔ inMembershipScope [("source_ids", "s")] (rowOf []) = .ok true) := by
  have hsql : membershipScopePred [("source_ids", "s")] (rowOf []) = .ok false := by decide +kernel
  have hpython : inMembershipScope [("source_ids", "s")] (rowOf []) = .ok true := by decide +kernel
  rw [hsql, hpython]
  exact ⟨rowOf_lists [], fun h => nomatch h.2 rfl⟩

end Umd.Query
