import Umd.Lib.JsonRead
/-!
# Dictionaries as they read back

A dictionary of distinct keys reads back with the same keys and the values as they
read back (`norm_obj`, `get?_sorted`).
-/

namespace Umd.Lib

namespace Dict

theorem set_new {d : Dict} {k : String} (v : Json) (h : k ∉ d.keys) : d.set k v = d ++ [(k, v)] := by
  induction d with
  | nil => rfl
  | cons f d ih =>
    obtain ⟨k', v'⟩ := f
    rw [keys, List.map_cons, List.mem_cons, not_or] at h
    rw [set, if_neg fun he => h.1 he.symm, ih h.2]
    rfl

theorem update_new {e : Dict} : ∀ {d : Dict}, (d.keys ++ e.keys).Nodup → d.update e = d ++ e := by
  induction e with
  | nil => exact fun _ => (List.append_nil _).symm
  | cons f e ih =>
    intro d h
    have hkeys : d.keys ++ keys (f :: e) = keys (d ++ [f]) ++ keys e := by simp [keys]
    rw [hkeys] at h
    have hf : f.1 ∉ d.keys := by
      have hleft := (List.nodup_append.1 h).1
      rw [keys, List.map_append, List.nodup_append] at hleft
      exact fun hm => hleft.2.2 _ hm _ (List.mem_singleton_self _) rfl
    rw [update, List.foldl_cons, set_new _ hf]
    exact (ih h).trans (by simp)

theorem get?_iff {d : Dict} (h : d.keys.Nodup) {k : String} {v : Json} : d.get? k = some v ↔ (k, v) ∈ d := by
  induction d with
  | nil => simp
  | cons f d ih =>
    obtain ⟨k', v'⟩ := f
    rw [keys, List.map_cons, List.nodup_cons] at h
    rw [get?, List.mem_cons, Prod.mk.injEq]
    split
    · rename_i he
      rw [Option.some.injEq]
      refine ⟨fun hv => .inl ⟨he.symm, hv.symm⟩, fun hm => ?_⟩
      rcases hm with hm | hm
      · exact hm.2.symm
      · exact absurd (List.mem_map.2 ⟨(k, v), hm, he.symm⟩) h.1
    · rename_i hne
      rw [ih h.2]
      exact ⟨.inr, fun hm => hm.resolve_left fun he => hne he.1.symm⟩

theorem get?_append (d e : Dict) (k : String) : get? (d ++ e) k = (d.get? k).or (e.get? k) := by
  induction d with
  | nil => rfl
  | cons f d ih =>
    rw [List.cons_append, get?, get?]
    split
    · rfl
    · exact ih

theorem get?_filter (p : String → Bool) (d : Dict) (k : String) : get? (d.filter fun f => p f.1) k = if p k then d.get? k else none := by
  induction d with
  | nil => exact (ite_self none).symm
  | cons f d ih =>
    obtain ⟨k', v⟩ := f
    rw [List.filter_cons]
    by_cases hk : k' = k
    · subst hk
      by_cases hp : p k' = true
      · simp only [hp, if_true, get?]
      · simpa only [hp, Bool.false_eq_true, if_false] using ih
    · by_cases hp : p k' = true
      · simp only [hp, if_true, get?, if_neg hk, ih]
      · simp only [hp, Bool.false_eq_true, if_false, get?, if_neg hk, ih]

theorem get?_eq_none_iff {d : Dict} {k : String} : d.get? k = none ↔ k ∉ d.keys := by
  induction d with
  | nil => exact iff_of_true rfl List.not_mem_nil
  | cons f d ih =>
    rw [get?, keys, List.map_cons, List.mem_cons, not_or]
    split
    · rename_i he
      exact iff_of_false (Option.some_ne_none _) fun h => h.1 he.symm
    · rename_i hne
      exact ih.trans (and_iff_right (Ne.symm hne)).symm

theorem set_keys {d : Dict} (h : d.keys.Nodup) (k : String) (v : Json) : (d.set k v).keys.Nodup := by
  induction d with
  | nil => exact List.nodup_singleton k
  | cons f d ih =>
    obtain ⟨k', v'⟩ := f
    rw [keys, List.map_cons, List.nodup_cons] at h
    rw [set]
    split
    · rename_i he
      exact List.nodup_cons.2 ⟨he ▸ h.1, h.2⟩
    · rename_i hne
      refine List.nodup_cons.2 ⟨fun hm => ?_, ih h.2⟩
      obtain ⟨f, hf, he⟩ := List.mem_map.1 hm
      have hmem : (k', f.2) ∈ set d k v := by rwa [← show f.1 = k' from he]
      have hold : (set d k v).get? k' = some f.2 := (get?_iff (ih h.2)).2 hmem
      rw [get?_set, if_neg fun e => hne e.symm] at hold
      exact h.1 (List.mem_map.2 ⟨(k', f.2), (get?_iff h.2).1 hold, rfl⟩)

theorem update_keys {d : Dict} (h : d.keys.Nodup) (e : Dict) : (d.update e).keys.Nodup := by
  induction e generalizing d with
  | nil => exact h
  | cons f e ih => exact ih (set_keys h f.1 f.2)

end Dict

theorem scanMembers_keys {n : ℕ} {d d' : Dict} {cs rest : List Char} (h : scanMembers n d cs = some (d', rest)) (hd : d.keys.Nodup) :
    d'.keys.Nodup := by
  induction n generalizing d cs with
  | zero => cases h
  | succ n ih =>
    rw [scanMembers] at h
    split at h
    · obtain ⟨_, -, h⟩ := Option.bind_eq_some_iff.1 h
      obtain ⟨⟨k, r⟩, -, h⟩ := Option.bind_eq_some_iff.1 h
      dsimp only at h
      split at h
      · obtain ⟨_, -, h⟩ := Option.bind_eq_some_iff.1 h
        obtain ⟨⟨v, r⟩, -, h⟩ := Option.bind_eq_some_iff.1 h
        dsimp only at h
        split at h
        · cases h
          exact Dict.set_keys hd k v
        · exact ih h (Dict.set_keys hd k v)
        · cases h
      · obtain ⟨_, he, -⟩ := Option.bind_eq_some_iff.1 h
        cases he
    · obtain ⟨_, he, -⟩ := Option.bind_eq_some_iff.1 h
      cases he

theorem scanAtom_obj {cs rest : List Char} {d : Dict} : scanAtom cs ≠ some (.obj d, rest) := by
  unfold scanAtom
  intro h
  have hnumber : ∀ (neg : Bool) (ds : List Char), (scanNumber neg ds).map (fun p => (Json.num p.1, p.2)) ≠ some (.obj d, rest) := by
    intro neg ds hn
    obtain ⟨p, -, he⟩ := Option.map_eq_some_iff.1 hn
    cases he
  split_ifs at h <;> first | cases h | skip
  split at h
  · exact hnumber _ _ h
  · exact hnumber _ _ h

/-- The keys of an object that was read are distinct. -/
theorem loads_keys {s : String} {d : Dict} (h : loads s = some (.obj d)) : d.keys.Nodup := by
  unfold loads at h
  simp only [Option.bind_eq_bind, Option.bind_eq_some_iff] at h
  obtain ⟨⟨v, rest⟩, hscan, h⟩ := h
  split at h
  · cases h
    generalize skipWs s.toList = cs at hscan
    unfold scanValue at hscan
    split at hscan
    · obtain ⟨p, -, he⟩ := Option.map_eq_some_iff.1 hscan
      cases he
    · split at hscan
      · cases hscan
      · obtain ⟨p, -, he⟩ := Option.map_eq_some_iff.1 hscan
        cases he
    · split at hscan
      · cases hscan
        exact List.nodup_nil
      · obtain ⟨p, hmembers, he⟩ := Option.map_eq_some_iff.1 hscan
        cases he
        exact scanMembers_keys hmembers List.nodup_nil
    · exact absurd hscan scanAtom_obj
  · cases h

/-- The fields as they read back. -/
def readBack (d : Dict) : Dict := sortFields (d.map fun f => (f.1, f.2.norm))

theorem readBack_perm (d : Dict) : (readBack d).Perm (d.map fun f => (f.1, f.2.norm)) := sortFields_perm _

theorem readBack_keys (d : Dict) : (readBack d).keys.Perm d.keys := by
  have h := (readBack_perm d).map Prod.fst
  rwa [List.map_map] at h

theorem norm_obj {d : Dict} (h : d.keys.Nodup) : (Json.obj d).norm = .obj (readBack d) := by
  have hkeys : ((Dict.keys []) ++ (readBack d).keys).Nodup := (readBack_keys d).nodup_iff.2 h
  rw [Json.norm, normFields_eq]
  exact congrArg Json.obj (Dict.update_new hkeys)

theorem get?_readBack {d : Dict} (h : d.keys.Nodup) (k : String) : (readBack d).get? k = (d.get? k).map Json.norm := by
  have hback : (readBack d).keys.Nodup := (readBack_keys d).nodup_iff.2 h
  refine Option.ext fun v => ?_
  rw [Dict.get?_iff hback, (readBack_perm d).mem_iff, List.mem_map, Option.map_eq_some_iff]
  constructor
  · rintro ⟨⟨k', v'⟩, hm, he⟩
    cases he
    exact ⟨v', (Dict.get?_iff h).2 hm, rfl⟩
  · rintro ⟨v', hv, rfl⟩
    exact ⟨(k, v'), (Dict.get?_iff h).1 hv, rfl⟩

end Umd.Lib
