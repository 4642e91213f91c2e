import Umd.Lib.JsonDict
import Umd.Lib.Orders
import Umd.Lib.Python
import Umd.Storage.Reducer
/-!
# Unions of memberships

`_union_memberships` keeps every item of either side up to what Python takes for equal
(`union_keeps`), and `_memberships_of` reads back texts and lists as they were recorded.
-/

namespace Umd.Reducer

open Umd.Lib

/-- Values that Python takes for equal, also after they were read back from JSON. -/
def Same : Json → Json → Prop := Relation.EqvGen fun x y => pyEq x y = true ∨ y = x.norm

theorem Same.refl (x : Json) : Same x x := Relation.EqvGen.refl x

theorem Same.trans {x y z : Json} (h : Same x y) (h' : Same y z) : Same x z := Relation.EqvGen.trans _ _ _ h h'

theorem Same.symm {x y : Json} (h : Same x y) : Same y x := Relation.EqvGen.symm _ _ h

theorem same_norm (x : Json) : Same x x.norm := .rel _ _ (.inr rfl)

theorem same_of_pyEq {x y : Json} (h : pyEq x y = true) : Same x y := .rel _ _ (.inl h)

theorem norm_text {x : Json} {s : String} : x.norm = .str s ↔ x = .str s := by
  cases x <;> simp [Json.norm]

theorem pyEq_text {x y : Json} {s : String} (h : pyEq x y = true) : x = .str s ↔ y = .str s := by
  cases x <;> cases y <;> simp_all [pyEq]

/-- A text is the same as itself only. -/
theorem same_text {x y : Json} (h : Same x y) (s : String) : x = .str s ↔ y = .str s := by
  induction h with
  | rel x y h =>
    rcases h with h | rfl
    · exact pyEq_text h
    · exact norm_text.symm
  | refl x => exact Iff.rfl
  | symm x y _ ih => exact ih.symm
  | trans x y z _ _ ih ih' => exact ih.trans ih'

def fieldsOf : Json → Dict
  | .obj d => d
  | _ => []

def itemsOf : Json → List Json
  | .arr xs => xs
  | _ => []

theorem pyList_arr (xs : List Json) : pyList (.arr xs) = .ok xs := by
  cases xs <;> rfl

/-! ## Keys and duplicates -/

theorem mem_insertKey {k k' : String} {ks : List String} : k' ∈ insertKey k ks ↔ k' = k ∨ k' ∈ ks := by
  induction ks with
  | nil => simp [insertKey]
  | cons k₀ ks ih =>
    unfold insertKey
    split
    · rename_i he
      rw [he]
      simp
    · split
      · exact List.mem_cons
      · rw [List.mem_cons, ih, List.mem_cons]
        exact or_left_comm

theorem insertKey_sorted {k : String} {ks : List String} (h : ks.Pairwise (· < ·)) : (insertKey k ks).Pairwise (· < ·) := by
  induction ks with
  | nil => simp [insertKey]
  | cons k₀ ks ih =>
    rw [List.pairwise_cons] at h
    unfold insertKey
    split
    · exact List.pairwise_cons.2 h
    · rename_i hne
      split
      · rename_i hlt
        refine List.pairwise_cons.2 ⟨fun k' hk' => ?_, List.pairwise_cons.2 h⟩
        rcases List.mem_cons.1 hk' with rfl | hk'
        · exact hlt
        · exact lt_trans hlt (h.1 k' hk')
      · rename_i hge
        refine List.pairwise_cons.2 ⟨fun k' hk' => ?_, ih h.2⟩
        rcases mem_insertKey.1 hk' with rfl | hk'
        · exact lt_of_le_of_ne (not_lt.1 hge) (Ne.symm hne)
        · exact h.1 k' hk'

/-- The keys of a union. -/
def unionKeys (prev incoming : Dict) : List String := (prev.keys ++ incoming.keys).foldr insertKey []

theorem mem_foldr_insertKey {k : String} {ks : List String} : k ∈ ks.foldr insertKey [] ↔ k ∈ ks := by
  induction ks with
  | nil => simp
  | cons k₀ ks ih => rw [List.foldr_cons, mem_insertKey, ih, List.mem_cons]

theorem mem_unionKeys {prev incoming : Dict} {k : String} : k ∈ unionKeys prev incoming ↔ k ∈ prev.keys ∨ k ∈ incoming.keys := by
  rw [unionKeys, mem_foldr_insertKey, List.mem_append]

theorem nodup_unionKeys (prev incoming : Dict) : (unionKeys prev incoming).Nodup := by
  have hsorted : (unionKeys prev incoming).Pairwise (· < ·) := by
    unfold unionKeys
    induction prev.keys ++ incoming.keys with
    | nil => exact .nil
    | cons k ks ih => exact insertKey_sorted ih
  exact hsorted.imp ne_of_lt

/-- One item after another, each but for those that are there. -/
def addItem (seen : List Json) (x : Json) : List Json := if pyIn x seen then seen else seen ++ [x]

theorem foldl_addItem (xs : List Json) : ∀ seen : List Json,
    (∀ y ∈ seen, y ∈ xs.foldl addItem seen) ∧ (∀ x ∈ xs, ∃ y ∈ xs.foldl addItem seen, Same x y) ∧
      ∀ y ∈ xs.foldl addItem seen, y ∈ seen ∨ y ∈ xs := by
  induction xs with
  | nil => exact fun seen => ⟨fun _ h => h, fun _ h => absurd h List.not_mem_nil, fun _ h => .inl h⟩
  | cons x xs ih =>
    intro seen
    obtain ⟨hkept, hadded, honly⟩ := ih (addItem seen x)
    have hsub : ∀ y ∈ seen, y ∈ addItem seen x := by
      intro y hy
      unfold addItem
      split
      · exact hy
      · exact List.mem_append_left _ hy
    refine ⟨fun y hy => hkept y (hsub y hy), fun x' hx' => ?_, fun y hy => ?_⟩
    · rcases List.mem_cons.1 hx' with rfl | hx'
      · by_cases hin : pyIn x' seen = true
        · obtain ⟨y, hy, he⟩ := List.any_eq_true.1 hin
          exact ⟨y, hkept y (hsub y hy), same_of_pyEq he⟩
        · refine ⟨x', hkept x' ?_, .refl x'⟩
          rw [addItem, if_neg hin]
          exact List.mem_append_right _ (List.mem_singleton_self _)
      · exact hadded x' hx'
    · rcases honly y hy with hy | hy
      · unfold addItem at hy
        split at hy
        · exact .inl hy
        · rcases List.mem_append.1 hy with hy | hy
          · exact .inl hy
          · exact .inr (List.mem_cons.2 (.inl (List.mem_singleton.1 hy)))
      · exact .inr (List.mem_cons_of_mem _ hy)

theorem mem_dedup {xs : List Json} {x : Json} (h : x ∈ xs) : ∃ y ∈ dedup xs, Same x y := (foldl_addItem xs []).2.1 x h

theorem of_mem_dedup {xs : List Json} {y : Json} (h : y ∈ dedup xs) : y ∈ xs :=
  ((foldl_addItem xs []).2.2 y h).resolve_left List.not_mem_nil

/-! ## A union -/

theorem unionAt_ok {prev incoming : Dict} {key : String} {f : String × Json} (h : unionAt prev incoming key = .ok f) :
    ∃ old new, pyList (prev.get key) = .ok old ∧ pyList (incoming.get key) = .ok new ∧ f = (key, .arr (dedup (old ++ new))) := by
  unfold unionAt at h
  cases hold : pyList (prev.get key) with
  | error e => rw [hold] at h; cases h
  | ok old =>
    cases hnew : pyList (incoming.get key) with
    | error e => rw [hold, hnew] at h; cases h
    | ok new =>
      rw [hold, hnew] at h
      cases h
      exact ⟨old, new, rfl, rfl, rfl⟩

variable {prev incoming u : Dict}

theorem union_keys (h : unionMemberships prev (.obj incoming) = .ok u) : u.keys = unionKeys prev incoming := by
  have hmap := mapM_map (g := id) (k := Prod.fst) (fun hf => by obtain ⟨_, _, -, -, rfl⟩ := unionAt_ok hf; rfl) h
  rw [List.map_id] at hmap
  exact hmap

/-- A sub-list of a union is of the sub-lists of both, where either has the key. -/
theorem union_get (h : unionMemberships prev (.obj incoming) = .ok u) (key : String) :
    (∃ old new, pyList (prev.get key) = .ok old ∧ pyList (incoming.get key) = .ok new ∧ u.get key = .arr (dedup (old ++ new))) ∨
      prev.get? key = none ∧ incoming.get? key = none ∧ u.get key = .null := by
  have hkeys := union_keys h
  by_cases hkey : key ∈ unionKeys prev incoming
  · obtain ⟨f, hf, hat⟩ := mapM_each h key hkey
    obtain ⟨old, new, hold, hnew, rfl⟩ := unionAt_ok hat
    have hget : u.get? key = some (.arr (dedup (old ++ new))) :=
      (Dict.get?_iff (hkeys ▸ nodup_unionKeys prev incoming)).2 hf
    exact .inl ⟨old, new, hold, hnew, by rw [Dict.get, hget]; rfl⟩
  · have habsent : ∀ d : Dict, key ∉ d.keys → d.get? key = none := fun d hd =>
      Option.not_isSome_iff_eq_none.1 fun hs => hd (Dict.get?_isSome hs)
    rw [mem_unionKeys, not_or] at hkey
    refine .inr ⟨habsent _ hkey.1, habsent _ hkey.2, ?_⟩
    rw [Dict.get, habsent u (by rw [hkeys, mem_unionKeys, not_or]; exact hkey)]
    rfl

/-- Every item of either side is in the union. -/
theorem union_keeps (h : unionMemberships prev (.obj incoming) = .ok u) {key : String} {x : Json}
    (hx : (∃ old, pyList (prev.get key) = .ok old ∧ x ∈ old) ∨ ∃ new, pyList (incoming.get key) = .ok new ∧ x ∈ new) :
    ∃ y ∈ itemsOf (u.get key), Same x y := by
  rcases union_get h key with ⟨old, new, hold, hnew, hget⟩ | ⟨hprev, hincoming, -⟩
  · rw [hget]
    refine mem_dedup (List.mem_append.2 ?_)
    rcases hx with ⟨xs, hxs, hm⟩ | ⟨xs, hxs, hm⟩
    · rw [hold] at hxs
      cases hxs
      exact .inl hm
    · rw [hnew] at hxs
      cases hxs
      exact .inr hm
  · have hempty : ∀ d : Dict, d.get? key = none → pyList (d.get key) = .ok [] := fun d hd => by rw [Dict.get, hd]; rfl
    rcases hx with ⟨xs, hxs, hm⟩ | ⟨xs, hxs, hm⟩
    · rw [hempty _ hprev] at hxs
      cases hxs
      cases hm
    · rw [hempty _ hincoming] at hxs
      cases hxs
      cases hm

/-- A union has items of either side only. -/
theorem of_mem_union (h : unionMemberships prev (.obj incoming) = .ok u) {key : String} {y : Json} (hy : y ∈ itemsOf (u.get key)) :
    (∃ old, pyList (prev.get key) = .ok old ∧ y ∈ old) ∨ ∃ new, pyList (incoming.get key) = .ok new ∧ y ∈ new := by
  rcases union_get h key with ⟨old, new, hold, hnew, hget⟩ | ⟨-, -, hget⟩
  · rw [hget] at hy
    exact (List.mem_append.1 (of_mem_dedup hy)).imp (fun hm => ⟨old, hold, hm⟩) fun hm => ⟨new, hnew, hm⟩
  · rw [hget] at hy
    cases hy

/-! ## Recorded memberships -/

theorem get?_map (d : Dict) (g : Json → Json) (k : String) : Dict.get? (d.map fun f => (f.1, g f.2)) k = (d.get? k).map g := by
  induction d with
  | nil => rfl
  | cons f d ih =>
    rw [List.map_cons, Dict.get?, Dict.get?, ih]
    split <;> rfl

/-- What a row records. -/
def recordedItems (objectRef : Option String) (key : String) : List Json :=
  itemsOf ((fieldsOf ((parseMetadata objectRef).get "memberships")).get key)

/-- The memberships of a row by what it records. -/
theorem membershipsOf_get {row : CurrentStateRow} {key : String} {xs : List Json} (h : recordedItems row.objectRef key = xs) (hne : xs ≠ []) :
    (membershipsOf row).get key = membershipList (.arr xs) := by
  unfold recordedItems parseMetadata at h
  unfold membershipsOf
  cases hparse : row.objectRef.bind parseObject with
  | none =>
    rw [hparse] at h
    exact absurd h.symm hne
  | some parsed =>
    rw [hparse, Option.getD_some] at h
    dsimp only
    cases hm : parsed.get "memberships" with
    | obj d =>
      rw [hm, fieldsOf] at h
      dsimp only
      rw [Dict.get, get?_map]
      rw [Dict.get] at h
      cases hget : Dict.get? d key with
      | none =>
        rw [hget] at h
        exact absurd h.symm hne
      | some v =>
        rw [hget] at h
        cases v with
        | arr ys =>
          obtain rfl : ys = xs := h
          rfl
        | _ => exact absurd h.symm hne
    | _ =>
      rw [hm] at h
      exact absurd h.symm hne

/-- A recorded text, and a recorded list among lists, is read back as it is. -/
theorem membershipsOf_keeps {row : CurrentStateRow} {key : String} {y : Json} (hy : y ∈ recordedItems row.objectRef key)
    (h : (∃ s, y = .str s) ∨ ∀ x ∈ recordedItems row.objectRef key, isArr x = true) :
    ∃ old, pyList ((membershipsOf row).get key) = .ok old ∧ y ∈ old := by
  rw [membershipsOf_get rfl (List.ne_nil_of_mem hy), membershipList]
  split
  · exact ⟨_, pyList_arr _, hy⟩
  · rename_i hnot
    rcases h with ⟨s, rfl⟩ | hall
    · exact ⟨_, pyList_arr _, List.mem_map.2 ⟨Json.str s, hy, rfl⟩⟩
    · refine absurd ?_ hnot
      rw [Bool.and_eq_true, List.all_eq_true]
      exact ⟨by simpa using List.ne_nil_of_mem hy, hall⟩

theorem membershipsOf_empty {row : CurrentStateRow} {key : String} (h : recordedItems row.objectRef key = []) :
    pyList ((membershipsOf row).get key) = .ok [] := by
  have hempty : pyList (emptyMemberships.get key) = .ok [] := by
    simp only [emptyMemberships, Dict.get, Dict.get?]
    split
    · rfl
    · split
      · rfl
      · split <;> rfl
  unfold recordedItems parseMetadata at h
  unfold membershipsOf
  cases hparse : row.objectRef.bind parseObject with
  | none => exact hempty
  | some parsed =>
    rw [hparse, Option.getD_some] at h
    dsimp only
    cases hm : parsed.get "memberships" with
    | obj d =>
      rw [hm, fieldsOf, Dict.get] at h
      dsimp only
      rw [Dict.get, get?_map]
      cases hget : Dict.get? d key with
      | none => rfl
      | some v =>
        rw [hget] at h
        cases v with
        | arr ys =>
          obtain rfl : ys = [] := h
          rfl
        | _ => rfl
    | _ => exact hempty

/-- Recorded lists are read back as lists. -/
theorem membershipsOf_lists {row : CurrentStateRow} {key : String} (h : ∀ x ∈ recordedItems row.objectRef key, isArr x = true)
    {old : List Json} (hold : pyList ((membershipsOf row).get key) = .ok old) : ∀ x ∈ old, isArr x = true := by
  cases hxs : recordedItems row.objectRef key with
  | cons x xs =>
    rw [hxs] at h
    rw [membershipsOf_get hxs (List.cons_ne_nil _ _), membershipList, if_pos, pyList_arr] at hold
    · cases hold
      exact h
    · rw [Bool.and_eq_true, List.all_eq_true]
      exact ⟨rfl, h⟩
  | nil =>
    rw [membershipsOf_empty hxs] at hold
    cases hold
    exact fun x hx => absurd hx List.not_mem_nil

end Umd.Reducer
