import Umd.Lib.LeastRoots
import Umd.Resolution.Assignments
/-!
# The accepted correspondence

`_accepted_correspondence` with its union-find: the parents of the canonical refs, paths
that are compressed, and the lesser root over the greater one. It gives what
`acceptedCorrespondence` says (`correspondence_refines`). The target of a component is its
least ref, whatever the state of that ref: it is an active canonical where the least ref is
one (`correspondence_active_iff`).
-/

namespace Umd.Resolution

open Umd.Lib Umd.Events Umd.Reducer Umd.Ledger Umd.Projections

/-! ## What is read -/

/-- A dictionary with a key set: in its place, or at the end. -/
def setItem (items : List (String × String)) (k v : String) : List (String × String) :=
  if items.any (·.1 = k) then items.map fun p => if p.1 = k then (k, v) else p else items ++ [(k, v)]

/-- `assigned`, with the mentions of a row. -/
def assignItems (ids : List String) (items : List (String × String)) (r : ScalarRow) : Except PyError (List (String × String)) :=
  (supportRefs r).map fun refs => (refs.filter (· ∈ ids)).foldl (fun d id => setItem d id r.entityRef) items

/-- `_existing_canonical_assignments`, in the order of its dictionary. -/
def existingItems (rows : List ScalarRow) (ids : List String) : Except PyError (List (String × String)) :=
  if ids.isEmpty then .ok [] else rows.foldlM (assignItems ids) []

/-! ## The union-find -/

/-- `parent` and `connected`. -/
structure Links where
  parent : String → String := id
  connected : List String := []

/-- `find`. -/
def Links.find (n : Nat) (l : Links) (a : String) : Links × String :=
  let (parent, root) := LeastRoots.find n l.parent a
  ({ l with parent }, root)

/-- One turn of the loop over the alignments. -/
def Links.align (refs : List String) (l : Links) (a : AlignedPair) : Links :=
  if a.alignmentType ∈ ["EQUIVALENT", "CONTINUITY"] then
    if a.leftRef ∈ refs ∧ a.rightRef ∈ refs ∧ a.leftRef ≠ a.rightRef then
      let (l, ra) := l.find refs.length a.leftRef
      let (l, rb) := l.find refs.length a.rightRef
      { parent := LeastRoots.link l.parent ra rb, connected := a.leftRef :: a.rightRef :: l.connected }
    else l
  else l

/-- The loop over the committed mentions. -/
def Links.targets (n : Nat) : Links → List (String × String) → List (String × String)
  | _, [] => []
  | l, (mid, ref) :: items =>
    if ref ∈ l.connected then
      let (l, root) := l.find n ref
      (mid, root) :: l.targets n items
    else l.targets n items

/-- `_accepted_correspondence`, as a dictionary. -/
def correspondenceItems (rows : List ScalarRow) (alignments : List AlignedPair) (ids : List String) :
    Except PyError (List (String × String)) := do
  let committed ← existingItems rows ids
  if committed.isEmpty then return []
  let refs := rows.map (·.entityRef)
  let links := alignments.foldl (Links.align refs) {}
  return links.targets refs.length committed

/-! ## Dictionaries -/

theorem lookup_map_set {items : List (String × String)} {k v : String} (hk : items.any (·.1 = k) = true) (x : String) :
    (items.map fun p => if p.1 = k then (k, v) else p).lookup x = if x = k then some v else items.lookup x := by
  induction items with
  | nil => cases hk
  | cons p items ih =>
    obtain ⟨a, b⟩ := p
    rw [List.map_cons, List.lookup_cons]
    by_cases hak : a = k
    · subst hak
      rw [if_pos rfl]
      by_cases hx : x = a
      · subst hx
        simp
      · have hne : (x == a) = false := beq_eq_false_iff_ne.2 hx
        rw [List.lookup_cons, hne, if_neg hx]
        dsimp only
        by_cases hmore : items.any (·.1 = a) = true
        · rw [ih hmore, if_neg hx]
        · have hsame : (items.map fun p => if p.1 = a then (a, v) else p) = items := by
            refine (List.map_congr_left fun p hp => if_neg fun he => hmore ?_).trans (List.map_id _)
            exact List.any_eq_true.2 ⟨p, hp, decide_eq_true he⟩
          rw [hsame]
    · have hmore : items.any (·.1 = k) = true := by
        rw [List.any_cons, Bool.or_eq_true] at hk
        exact hk.resolve_left fun he => hak (of_decide_eq_true he)
      rw [if_neg hak, List.lookup_cons]
      by_cases hx : x = a
      · subst hx
        rw [beq_self_eq_true, if_neg hak]
      · rw [beq_eq_false_iff_ne.2 hx]
        exact ih hmore

theorem lookup_setItem (items : List (String × String)) (k v x : String) :
    (setItem items k v).lookup x = if x = k then some v else items.lookup x := by
  unfold setItem
  by_cases hk : items.any (·.1 = k) = true
  · rw [if_pos hk]
    exact lookup_map_set hk x
  · rw [if_neg hk, List.lookup_append]
    by_cases hx : x = k
    · subst hx
      have hnone : items.lookup x = none := by
        rw [List.lookup_eq_none_iff]
        intro p hp
        rw [bne_iff_ne]
        exact fun he => hk (List.any_eq_true.2 ⟨p, hp, decide_eq_true he.symm⟩)
      rw [hnone, if_pos rfl]
      simp
    · rw [if_neg hx, List.lookup_cons, beq_eq_false_iff_ne.2 hx]
      simp

theorem setItem_keys {items : List (String × String)} (h : (items.map (·.1)).Nodup) (k v : String) :
    ((setItem items k v).map (·.1)).Nodup := by
  unfold setItem
  split
  · have hkeys : (items.map fun p => if p.1 = k then (k, v) else p).map (·.1) = items.map (·.1) := by
      rw [List.map_map]
      refine List.map_congr_left fun p _ => ?_
      dsimp only [Function.comp_apply]
      split
      · rename_i he
        exact he.symm
      · rfl
    rw [hkeys]
    exact h
  · rename_i hk
    rw [List.map_append, List.nodup_append]
    refine ⟨h, List.nodup_singleton k, fun a ha b hb he => ?_⟩
    obtain ⟨p, hp, hpa⟩ := List.mem_map.1 ha
    refine hk (List.any_eq_true.2 ⟨p, hp, decide_eq_true ?_⟩)
    rw [hpa, he]
    exact List.mem_singleton.1 hb

theorem setAll_keys {items : List (String × String)} (h : (items.map (·.1)).Nodup) (ref : String) (ids : List String) :
    ((ids.foldl (fun d id => setItem d id ref) items).map (·.1)).Nodup := by
  induction ids generalizing items with
  | nil => exact h
  | cons id ids ih => exact ih (setItem_keys h id ref)

/-- The assignments of a dictionary. -/
def assignments (items : List (String × String)) (id : String) : Option String := items.lookup id

theorem assignments_setAll (items : List (String × String)) (ref : String) (ids : List String) :
    assignments (ids.foldl (fun d id => setItem d id ref) items) = ids.foldl (fun d id => upd d id (some ref)) (assignments items) := by
  induction ids generalizing items with
  | nil => rfl
  | cons id ids ih =>
    have hset : assignments (setItem items id ref) = upd (assignments items) id (some ref) := by
      funext x
      exact lookup_setItem items id ref x
    rw [List.foldl_cons, List.foldl_cons, ih, hset]

/-- The dictionary holds the assignments. -/
theorem existingItems_eq (rows : List ScalarRow) (ids : List String) :
    (existingItems rows ids).map assignments = existingCanonicalAssignments rows ids := by
  unfold existingItems existingCanonicalAssignments
  split
  · rfl
  · have hempty : assignments [] = fun _ => none := rfl
    rw [← hempty]
    generalize ([] : List (String × String)) = items
    induction rows generalizing items with
    | nil => rfl
    | cons r rows ih =>
      rw [List.foldlM_cons, List.foldlM_cons, assignItems, assignRow]
      cases supportRefs r with
      | error e => rfl
      | ok refs =>
        rw [Except.map, Except.map, ← assignments_setAll]
        exact ih _

theorem existingItems_keys {rows : List ScalarRow} {ids : List String} {items : List (String × String)}
    (h : existingItems rows ids = .ok items) : (items.map (·.1)).Nodup := by
  unfold existingItems at h
  split at h
  · cases h
    exact List.nodup_nil
  · have hstart : ((([] : List (String × String))).map (·.1)).Nodup := List.nodup_nil
    generalize ([] : List (String × String)) = start at h hstart
    induction rows generalizing start with
    | nil =>
      cases h
      exact hstart
    | cons r rows ih =>
      rw [List.foldlM_cons, assignItems] at h
      cases hrefs : supportRefs r with
      | error e =>
        rw [hrefs] at h
        cases h
      | ok refs =>
        rw [hrefs] at h
        exact ih _ h (setAll_keys hstart r.entityRef _)

/-! ## What the union-find gives -/

/-- The pairs that are joined. -/
def acceptedPairs (refs : List String) (alignments : List AlignedPair) : List (String × String) :=
  (alignments.filter fun a =>
    a.alignmentType ∈ ["EQUIVALENT", "CONTINUITY"] && a.leftRef ∈ refs && a.rightRef ∈ refs && a.leftRef ≠ a.rightRef).map
      fun a => (a.leftRef, a.rightRef)

/-- The forest has these roots, and the refs that were joined are at hand. -/
structure Stands (refs : List String) (l : Links) (j : Joined) : Prop where
  forest : LeastRoots.Forest refs.toFinset l.parent j.root
  connected : l.connected = j.connected
  mem : ∀ x ∈ l.connected, x ∈ refs

theorem Stands.find {refs : List String} {l : Links} {j : Joined} (h : Stands refs l j) {a : String} (ha : a ∈ refs) :
    (l.find refs.length a).2 = j.root a ∧ Stands refs (l.find refs.length a).1 j := by
  obtain ⟨hroot, hforest⟩ := LeastRoots.find_spec h.forest (List.mem_toFinset.2 ha) (List.toFinset_card_le refs)
  exact ⟨hroot, hforest, h.connected, h.mem⟩

theorem Stands.align {refs : List String} {l : Links} {j : Joined} (h : Stands refs l j) (a : AlignedPair) :
    Stands refs (l.align refs a) ((acceptedPairs refs [a]).foldl (fun j p => j.union p.1 p.2) j) := by
  unfold Links.align acceptedPairs
  by_cases htype : a.alignmentType ∈ ["EQUIVALENT", "CONTINUITY"]
  · by_cases hrefs : a.leftRef ∈ refs ∧ a.rightRef ∈ refs ∧ a.leftRef ≠ a.rightRef
    · obtain ⟨hleft, hright, hne⟩ := hrefs
      obtain ⟨hra, h₁⟩ := h.find hleft
      obtain ⟨hrb, h₂⟩ := h₁.find hright
      rw [if_pos htype, if_pos ⟨hleft, hright, hne⟩, List.filter_cons_of_pos (by simp [htype, hleft, hright, hne])]
      dsimp only
      rw [hra, hrb]
      refine ⟨h₂.forest.link (List.mem_toFinset.2 hleft) (List.mem_toFinset.2 hright), ?_, fun x hx => ?_⟩
      · exact congrArg (fun c => a.leftRef :: a.rightRef :: c) h₂.connected
      · rcases List.mem_cons.1 hx with rfl | hx
        · exact hleft
        rcases List.mem_cons.1 hx with rfl | hx
        · exact hright
        · exact h₂.mem x hx
    · rw [if_pos htype, if_neg hrefs, List.filter_cons_of_neg (by simpa [htype] using hrefs)]
      exact h
  · rw [if_neg htype, List.filter_cons_of_neg (by simp [htype])]
    exact h

theorem Stands.run {refs : List String} {l : Links} {j : Joined} (h : Stands refs l j) (alignments : List AlignedPair) :
    Stands refs (alignments.foldl (Links.align refs) l) ((acceptedPairs refs alignments).foldl (fun j p => j.union p.1 p.2) j) := by
  induction alignments generalizing l j with
  | nil => exact h
  | cons a alignments ih =>
    have hsplit : acceptedPairs refs (a :: alignments) = acceptedPairs refs [a] ++ acceptedPairs refs alignments := by
      unfold acceptedPairs
      rw [← List.map_append, ← List.filter_append]
      rfl
    rw [List.foldl_cons, hsplit, List.foldl_append]
    exact ih (h.align a)

theorem Stands.start (refs : List String) : Stands refs {} {} := ⟨.start _, rfl, nofun⟩

theorem targets_lookup {refs : List String} {l : Links} {j : Joined} (h : Stands refs l j) {items : List (String × String)}
    (hkeys : (items.map (·.1)).Nodup) (mid : String) :
    (l.targets refs.length items).lookup mid = ((items.lookup mid).filter (· ∈ j.connected)).map j.root := by
  induction items generalizing l with
  | nil => rfl
  | cons item items ih =>
    obtain ⟨k, ref⟩ := item
    obtain ⟨hfirst, hrest⟩ := List.nodup_cons.1 hkeys
    rw [Links.targets, List.lookup_cons]
    by_cases hconnected : ref ∈ l.connected
    · obtain ⟨hroot, hfound⟩ := h.find (h.mem ref hconnected)
      rw [if_pos hconnected]
      dsimp only
      rw [List.lookup_cons, hroot]
      by_cases hmid : mid = k
      · subst hmid
        rw [beq_self_eq_true, Option.filter_some, if_pos (decide_eq_true (h.connected ▸ hconnected))]
        rfl
      · rw [beq_eq_false_iff_ne.2 hmid]
        exact ih hfound hrest
    · rw [if_neg hconnected, ih h hrest]
      by_cases hmid : mid = k
      · subst hmid
        have hnone : items.lookup mid = none := by
          rw [List.lookup_eq_none_iff]
          intro p hp
          rw [bne_iff_ne]
          exact fun he => hfirst (List.mem_map.2 ⟨p, hp, he.symm⟩)
        rw [hnone, beq_self_eq_true, Option.filter_some, if_neg (by simpa using h.connected ▸ hconnected)]
        rfl
      · rw [beq_eq_false_iff_ne.2 hmid]

/-- The roots and the joined refs after all alignments. -/
def joinedOf (refs : List String) (alignments : List AlignedPair) : Joined :=
  (acceptedPairs refs alignments).foldl (fun j p => j.union p.1 p.2) {}

theorem correspondence_lookup {rows : List ScalarRow} {ids : List String} {items : List (String × String)}
    (hitems : existingItems rows ids = .ok items) (alignments : List AlignedPair) : ∃ out,
      correspondenceItems rows alignments ids = .ok out ∧ ∀ mid, out.lookup mid =
        ((items.lookup mid).filter (· ∈ (joinedOf (rows.map (·.entityRef)) alignments).connected)).map
          (joinedOf (rows.map (·.entityRef)) alignments).root := by
  unfold correspondenceItems
  rw [hitems]
  by_cases hempty : items.isEmpty = true
  · rw [List.isEmpty_iff] at hempty
    subst hempty
    exact ⟨[], rfl, fun _ => rfl⟩
  · refine ⟨_, if_neg hempty, fun mid => ?_⟩
    exact targets_lookup ((Stands.start _).run alignments) (existingItems_keys hitems) mid

/-- The union-find gives what the correspondence says. -/
theorem correspondence_refines (rows : List ScalarRow) (alignments : List AlignedPair) (ids : List String) :
    (correspondenceItems rows alignments ids).map assignments = acceptedCorrespondence rows alignments ids := by
  unfold acceptedCorrespondence
  rw [← existingItems_eq]
  cases hitems : existingItems rows ids with
  | error e =>
    unfold correspondenceItems
    rw [hitems]
    rfl
  | ok items =>
    obtain ⟨out, hout, hlookup⟩ := correspondence_lookup hitems alignments
    rw [hout]
    refine congrArg Except.ok (funext fun mid => ?_)
    dsimp only [assignments]
    rw [hlookup, joinedOf, acceptedPairs, List.foldl_map]

/-! ## The targets -/

/-- What accepted alignments connect. -/
def Aligned (rows : List ScalarRow) (alignments : List AlignedPair) : String → String → Prop :=
  LeastRoots.Connected (acceptedPairs (rows.map (·.entityRef)) alignments)

/-- A canonical that is not invalidated. -/
def Active (rows : List ScalarRow) (ref : String) : Prop := ∃ r ∈ rows, r.entityRef = ref ∧ r.state.isStr "INVALIDATED" = false

/-- A mention is mapped just where its canonical is joined with another one, to the least active canonical of the component. -/
def TargetsActive (rows : List ScalarRow) (alignments : List AlignedPair) (ids : List String) : Prop :=
  ∀ committed, existingItems rows ids = .ok committed → ∃ out, correspondenceItems rows alignments ids = .ok out ∧
    ∀ mid, (out.lookup mid ≠ none ↔ ∃ ref, committed.lookup mid = some ref ∧ ∃ other, other ≠ ref ∧ Aligned rows alignments ref other) ∧
      ∀ ref target, committed.lookup mid = some ref → out.lookup mid = some target →
        IsLeast {y | Aligned rows alignments ref y ∧ Active rows y} target

theorem union_root (j : Joined) (left right : String) : (j.union left right).root = LeastRoots.unite j.root left right := rfl

theorem union_connected (j : Joined) (left right : String) : (j.union left right).connected = left :: right :: j.connected := rfl

theorem joinedOf_eq (refs : List String) (alignments : List AlignedPair) :
    (joinedOf refs alignments).root = LeastRoots.united (acceptedPairs refs alignments) ∧
      ∀ x, x ∈ (joinedOf refs alignments).connected ↔ ∃ p ∈ acceptedPairs refs alignments, x = p.1 ∨ x = p.2 := by
  unfold joinedOf
  induction acceptedPairs refs alignments using List.reverseRecOn with
  | nil => exact ⟨rfl, fun x => by simp⟩
  | append_singleton pairs p ih =>
    rw [List.foldl_concat]
    constructor
    · have hunited : LeastRoots.united (pairs ++ [p]) = LeastRoots.unite (LeastRoots.united pairs) p.1 p.2 := List.foldl_concat ..
      rw [union_root, ih.1, hunited]
    · intro x
      rw [union_connected]
      simp only [List.mem_cons, ih.2 x, List.mem_append, List.not_mem_nil, or_false]
      constructor
      · rintro (rfl | rfl | ⟨q, hq, hx⟩)
        · exact ⟨p, .inr rfl, .inl rfl⟩
        · exact ⟨p, .inr rfl, .inr rfl⟩
        · exact ⟨q, .inl hq, hx⟩
      · rintro ⟨q, hq | rfl, hx⟩
        · exact .inr (.inr ⟨q, hq, hx⟩)
        · exact hx.elim .inl fun hx => .inr (.inl hx)

theorem acceptedPairs_ne {refs : List String} {alignments : List AlignedPair} : ∀ p ∈ acceptedPairs refs alignments, p.1 ≠ p.2 := by
  intro p hp
  obtain ⟨a, ha, rfl⟩ := List.mem_map.1 hp
  have haccepted := List.of_mem_filter ha
  simp only [Bool.and_eq_true, decide_eq_true_eq] at haccepted
  exact haccepted.2

/-- **Mentions go to the least active canonicals of their components if and only if the least canonicals of the components they are
joined in are active.** -/
theorem correspondence_active_iff (rows : List ScalarRow) (alignments : List AlignedPair) (ids : List String) :
    TargetsActive rows alignments ids ↔ ∀ committed, existingItems rows ids = .ok committed →
      ∀ mid ref, committed.lookup mid = some ref → (∃ other, other ≠ ref ∧ Aligned rows alignments ref other) →
        ∀ least, IsLeast {y | Aligned rows alignments ref y} least → Active rows least := by
  refine forall_congr' fun committed => forall_congr' fun hcommitted => ?_
  obtain ⟨out, hout, hlookup⟩ := correspondence_lookup hcommitted alignments
  obtain ⟨hroot, hconnected⟩ := joinedOf_eq (rows.map (·.entityRef)) alignments
  have hjoined : ∀ ref, ref ∈ (joinedOf (rows.map (·.entityRef)) alignments).connected ↔
      ∃ other, other ≠ ref ∧ Aligned rows alignments ref other :=
    fun ref => (hconnected ref).trans (LeastRoots.connected_other acceptedPairs_ne ref).symm
  have hleast : ∀ ref, IsLeast {y | Aligned rows alignments ref y} ((joinedOf (rows.map (·.entityRef)) alignments).root ref) := by
    intro ref
    rw [hroot]
    exact LeastRoots.united_isLeast _ ref
  have hmapped : ∀ mid ref, committed.lookup mid = some ref → (∃ other, other ≠ ref ∧ Aligned rows alignments ref other) →
      out.lookup mid = some ((joinedOf (rows.map (·.entityRef)) alignments).root ref) := by
    intro mid ref href hother
    rw [hlookup, href, Option.filter_some, if_pos (decide_eq_true ((hjoined ref).2 hother))]
    rfl
  constructor
  · rintro ⟨out', hout', hall⟩ mid ref href hother least hmin
    obtain rfl := Except.ok.inj (hout.symm.trans hout')
    have htarget := (hall mid).2 ref _ href (hmapped mid ref href hother)
    rw [(hleast ref).unique hmin] at htarget
    exact htarget.1.2
  · intro hactive
    refine ⟨out, hout, fun mid => ⟨?_, ?_⟩⟩
    · constructor
      · intro hne
        rw [hlookup] at hne
        cases href : committed.lookup mid with
        | none => exact absurd (by rw [href]; rfl) hne
        | some ref =>
          refine ⟨ref, rfl, (hjoined ref).1 ?_⟩
          by_contra hout
          rw [href, Option.filter_some, if_neg (by simpa using hout)] at hne
          exact hne rfl
      · rintro ⟨ref, href, hother⟩
        rw [hmapped mid ref href hother]
        exact nofun
    · intro ref target href htarget
      by_cases hother : ∃ other, other ≠ ref ∧ Aligned rows alignments ref other
      · rw [hmapped mid ref href hother] at htarget
        obtain rfl := Option.some.inj htarget
        exact ⟨⟨(hleast ref).1, hactive mid ref href hother _ (hleast ref)⟩, fun y hy => (hleast ref).2 hy.1⟩
      · rw [hlookup, href, Option.filter_some, if_neg (by simpa using fun h => hother ((hjoined ref).1 h))] at htarget
        cases htarget

/-- An identity row of one mention. -/
def canonicalOf (ref state : String) (metadata : Option String) : ScalarRow where
  entityRef := ref
  predicate := "CANONICAL_IDENTITY"
  objectRef := metadata
  confidence := .null
  authority := .null
  state := .str state
  seq := 1

/-- An invalidated canonical, and one of a mention that is aligned with it. -/
def retiredAndActive : List ScalarRow :=
  [canonicalOf "a" "INVALIDATED" none, canonicalOf "b" "CONFIRMED" (some "\x7b\"support_refs\": [\"m\"]\x7d")]

/-- The mention goes to the invalidated canonical. -/
theorem mapped_to_invalidated : ¬ ∀ (rows : List ScalarRow) (alignments : List AlignedPair) (ids : List String),
    TargetsActive rows alignments ids := by
  intro hall
  have hcommitted : existingItems retiredAndActive ["m"] = .ok [("m", "b")] := by decide +kernel
  obtain ⟨out, hout, htargets⟩ := hall retiredAndActive [⟨"b", "a", "EQUIVALENT"⟩] ["m"] _ hcommitted
  have hmapped : correspondenceItems retiredAndActive [⟨"b", "a", "EQUIVALENT"⟩] ["m"] = .ok [("m", "a")] := by decide +kernel
  obtain rfl := Except.ok.inj (hmapped.symm.trans hout)
  obtain ⟨r, hr, href, hstate⟩ := ((htargets "m").2 "b" "a" rfl rfl).1.2
  rcases List.mem_cons.1 hr with rfl | hr
  · exact absurd hstate (by decide)
  · rw [List.mem_singleton.1 hr] at href
    exact absurd href (by decide)

end Umd.Resolution
