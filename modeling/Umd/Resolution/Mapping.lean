import Umd.Resolution.Canonical
/-!
# The mapping of refs to targets

Over every sequence of merges and aliases: when each ref that was merged or
aliased has a `CANONICAL_ENTITY` row that names its target, no other entity got
one, and the rows lead on to the surviving entity. Aliases do that. A merge of
any ref into a named target does not (`canonical_mapped_iff`).
-/

namespace Umd.Resolution

open Umd.Lib Umd.Events Umd.Reducer Umd.Ledger Relation

/-! ## A call -/

/-- The entities a call is about. -/
def Resolve.entities : Resolve → List String
  | .merge target refs _ _ => target :: refs
  | .aliasTo aliasEntity canonical _ => [aliasEntity, canonical]

/-- The row a call writes, as the entity and the object; none without an entity
to address, or where the key of an alias is taken. -/
def Resolve.written (t : Tables) : Resolve → Option (String × String)
  | .merge target refs _ _ => if refs.isEmpty || target == "" then none else some (target, objectOf target refs.head?)
  | .aliasTo aliasEntity canonical _ =>
    if aliasEntity == "" || (seqOfKey t.ledger.events (aliasKey aliasEntity canonical)).isSome then none
    else some (aliasEntity, objectOf aliasEntity (some canonical))

theorem alias_unwritten {t : Tables} {aliasEntity canonical : String} {reason : Option String}
    (h : aliasEntity = "" ∨ (seqOfKey t.ledger.events (aliasKey aliasEntity canonical)).isSome) :
    (Resolve.aliasTo aliasEntity canonical reason).written t = none := by
  rcases h with rfl | h
  · rfl
  · simp [Resolve.written, h]

theorem alias_written {t : Tables} {aliasEntity canonical : String} {reason : Option String}
    (h : ¬ (aliasEntity = "" ∨ (seqOfKey t.ledger.events (aliasKey aliasEntity canonical)).isSome)) :
    (Resolve.aliasTo aliasEntity canonical reason).written t = some (aliasEntity, objectOf aliasEntity (some canonical)) := by
  rw [not_or] at h
  simp [Resolve.written, h.1, h.2]

theorem alias_ledger (t : Tables) (aliasEntity canonical : String) (reason : Option String) :
    (resolverAlias t aliasEntity canonical reason).1.ledger =
      (append t.ledger { events := [⟨0, aliasEvent aliasEntity canonical reason⟩],
                         idempotencyKey := some (aliasKey aliasEntity canonical) }).1 := by
  rw [Store.append_ledger]
  unfold resolverAlias
  dsimp only
  split
  · simp only [lift, Store.completeAndAppend]
    split
    · rename_i he
      rw [he]
    · rename_i aliasId canonicalId _ _ t' result he
      rw [he]
      unfold recordAlias
      split
      · rename_i hr
        split at hr <;> cases hr
      · rfl
  · rfl

theorem run_ledger (t : Tables) (c : Resolve) :
    (c.run t).ledger = t.ledger ∨ ∃ call, (c.run t).ledger = (append t.ledger call).1 := by
  cases c with
  | merge target refs assignments reason =>
    simp only [Resolve.run, resolverMerge]
    split
    · exact .inl rfl
    · exact .inr ⟨_, by rw [Store.append_ledger]; rfl⟩
  | aliasTo aliasEntity canonical reason => exact .inr ⟨_, alias_ledger t aliasEntity canonical reason⟩

theorem run_tidy {t : Tables} (h : Tidy t.ledger) (c : Resolve) : Tidy (c.run t).ledger := by
  rcases run_ledger t c with he | ⟨call, he⟩ <;> rw [he]
  · exact h
  · exact h.append call

/-- A call on free entities writes the row of `written`, and no other. -/
theorem run_written {t : Tables} (h : Tidy t.ledger) {c : Resolve} (hfree : ∀ e ∈ c.entities, Free t.ledger.state e) :
    match c.written t with
    | none => (c.run t).ledger.state = t.ledger.state
    | some (entity, object) => ∃ r, Written object t.ledger.nextSeq r ∧
        (c.run t).ledger.state = upd t.ledger.state (canonicalKey entity) (some r) := by
  cases c with
  | merge target refs assignments reason =>
    have htarget := hfree target (by simp [Resolve.entities])
    simp only [Resolve.written, Resolve.run, resolverMerge]
    cases hrefs : refs.isEmpty with
    | true => rfl
    | false =>
      have hled : (lift (t.append { events := [⟨0, mergeEvent target refs assignments reason⟩] })).1.ledger =
          (append t.ledger { events := [⟨0, mergeEvent target refs assignments reason⟩] }).1 := by
        rw [Store.append_ledger]
        rfl
      simp only [Bool.false_or, Bool.false_eq_true, if_false, hled]
      by_cases hne : target = ""
      · rw [if_pos (by rw [hne]; rfl)]
        exact append_unnamed (.inl rfl) hne h htarget none
      · rw [if_neg (by simpa using hne)]
        exact @append_resolved _ _ _ _ _ _ (.inl rfl) hne _ h htarget none rfl
  | aliasTo aliasEntity canonical reason =>
    have halias := hfree aliasEntity (by simp [Resolve.entities])
    simp only [Resolve.written, Resolve.run, alias_ledger]
    by_cases hne : aliasEntity = ""
    · rw [if_pos (by rw [hne]; rfl)]
      exact append_unnamed (.inr rfl) hne h halias _
    · cases hkey : seqOfKey t.ledger.events (aliasKey aliasEntity canonical) with
      | some n =>
        rw [if_pos (by simp)]
        simp [append, hkey]
      | none =>
        rw [if_neg (by simpa using hne)]
        exact append_resolved (.inr rfl) hne h halias hkey

/-- A resolution locks nothing and pins nothing. -/
theorem Free.written {t : Table} {e entity object : String} {n : Nat} {r : ScalarRow} (h : Free t e) (hr : Written object n r) :
    Free (upd t (canonicalKey entity) (some r)) e := by
  constructor
  · have hmark : (e, lockPredicate) ≠ canonicalKey entity := by simp [canonicalKey, lockPredicate]
    rw [Table.isLocked, upd_ne _ _ hmark]
    exact h.unlocked
  · intro r' hr'
    by_cases he : canonicalKey e = canonicalKey entity
    · rw [he, upd_self] at hr'
      cases hr'
      exact ⟨hr.pinned, hr.user⟩
    · rw [upd_ne _ _ he] at hr'
      exact h.row r' hr'

theorem run_free {t : Tables} (h : Tidy t.ledger) {c : Resolve} (hfree : ∀ e ∈ c.entities, Free t.ledger.state e) {e : String}
    (he : Free t.ledger.state e) : Free (c.run t).ledger.state e := by
  have hw := run_written h hfree
  cases hc : c.written t with
  | none =>
    rw [hc] at hw
    rw [hw]
    exact he
  | some p =>
    rw [hc] at hw
    obtain ⟨r, hr, hs⟩ := hw
    rw [hs]
    exact he.written hr

/-! ## The calls -/

/-- What is so before each call: a ledger that appends have left, and the entities of all calls free. -/
structure Ready (cs : List Resolve) (t : Tables) : Prop where
  tidy : Tidy t.ledger
  free : ∀ c ∈ cs, ∀ e ∈ c.entities, Free t.ledger.state e

theorem Ready.run {cs : List Resolve} {t : Tables} (h : Ready cs t) {c : Resolve} (hc : c ∈ cs) : Ready cs (c.run t) :=
  ⟨run_tidy h.tidy c, fun c' hc' e he => run_free h.tidy (h.free c hc) (h.free c' hc' e he)⟩

theorem runAll_append (t : Tables) (cs cs' : List Resolve) : runAll t (cs ++ cs') = runAll (runAll t cs) cs' :=
  List.foldl_append

theorem Ready.runAll {cs : List Resolve} : ∀ {pre : List Resolve} {t : Tables}, Ready cs t → (∀ c ∈ pre, c ∈ cs) →
    Ready cs (Resolution.runAll t pre) := by
  intro pre
  induction pre with
  | nil => exact fun h _ => h
  | cons c pre ih => exact fun h hsub => ih (h.run (hsub c (by simp))) fun c' hc' => hsub c' (by simp [hc'])

/-! ## The mapping -/

/-- The rows map the pairs: each ref's row names its target, the other entities
have the rows they had at the start, and from each ref the rows lead to the
entity that survives it. -/
structure Mapped (start now : Table) (pairs : List (String × String)) : Prop where
  named : ∀ p ∈ pairs, Names now p.1 p.2
  targets : ∀ e, e ∉ pairs.map Prod.fst → now (canonicalKey e) = start (canonicalKey e)
  survivor : ∀ p ∈ pairs, ∃ z, z ∉ pairs.map Prod.fst ∧ ReflTransGen (fun x y => (x, y) ∈ pairs) p.1 z ∧
    ReflTransGen (Names now) p.1 z

/-- The rows map what was merged or aliased so far, after each of the calls. -/
def CanonicalMapped (t : Tables) (cs : List Resolve) : Prop :=
  ∀ pre post, cs = pre ++ post → Mapped t.ledger.state (runAll t pre).ledger.state (assignedAll pre)

/-- What a call needs to leave the rows mapped. A merge must be of nothing, or
into an empty target that the rows of its refs name already; an alias that
writes no row must be in the row already, and another one needs a canonical. -/
def Lands (t : Tables) : Resolve → Prop
  | .merge target refs _ _ => refs = [] ∨ (target = "" ∧ ∀ ref ∈ refs, Names t.ledger.state ref "")
  | .aliasTo aliasEntity canonical _ =>
    if aliasEntity = "" ∨ (seqOfKey t.ledger.events (aliasKey aliasEntity canonical)).isSome then
      Names t.ledger.state aliasEntity canonical
    else canonical ≠ ""

/-- With every ref named, the rows lead where the pairs do. -/
theorem survivor_of_named {now : Table} {pairs : List (String × String)} (hacyc : Acyclic pairs)
    (hnamed : ∀ p ∈ pairs, Names now p.1 p.2) (ref : String) :
    ∃ z, z ∉ pairs.map Prod.fst ∧ ReflTransGen (fun x y => (x, y) ∈ pairs) ref z ∧ ReflTransGen (Names now) ref z := by
  obtain ⟨z, hz, hchain⟩ := hacyc.ends ref
  exact ⟨z, hz, hchain, ReflTransGen.mono (fun x y hp => hnamed (x, y) hp) _ _ hchain⟩

theorem names_upd {t : Table} {entity object : String} {n : Nat} {r : ScalarRow} (hr : Written object n r) :
    Names (upd t (canonicalKey entity) (some r)) entity object := ⟨r, upd_self .., hr.object⟩

theorem canonicalKey_ne {e entity : String} (h : e ≠ entity) : canonicalKey e ≠ canonicalKey entity :=
  fun hk => h (congrArg Prod.fst hk)

theorem names_upd_ne {t : Table} {e entity object : String} {r : ScalarRow} (hne : e ≠ entity) (h : Names t e object) :
    Names (upd t (canonicalKey entity) (some r)) e object := by
  obtain ⟨r', hr', ho⟩ := h
  exact ⟨r', by rw [upd_ne _ _ (canonicalKey_ne hne)]; exact hr', ho⟩

/-! ## One call on mapped rows -/

/-- What is so between the calls. -/
structure Upholds (cs : List Resolve) (start : Table) (t : Tables) (pairs : List (String × String)) : Prop where
  ready : Ready cs t
  named : ∀ p ∈ pairs, Names t.ledger.state p.1 p.2
  targets : ∀ e, e ∉ pairs.map Prod.fst → t.ledger.state (canonicalKey e) = start (canonicalKey e)

/-- A call that writes no row upholds the mapping if the rows name its pairs. -/
theorem Upholds.kept {cs : List Resolve} {start : Table} {t : Tables} {pairs : List (String × String)} {c : Resolve}
    (h : Upholds cs start t pairs) (hc : c ∈ cs) (hw : c.written t = none)
    (hnamed : ∀ p ∈ c.assigned, Names t.ledger.state p.1 p.2) : Upholds cs start (c.run t) (pairs ++ c.assigned) := by
  have hs := run_written h.ready.tidy (h.ready.free c hc)
  rw [hw] at hs
  refine ⟨h.ready.run hc, fun p hp => ?_, fun e he => ?_⟩ <;> rw [hs]
  · rcases List.mem_append.1 hp with hp | hp
    · exact h.named p hp
    · exact hnamed p hp
  · exact h.targets e fun hm => he (by rw [List.map_append]; exact List.mem_append_left _ hm)

theorem Upholds.run {cs : List Resolve} {start : Table} {t : Tables} {pairs : List (String × String)} {c : Resolve}
    (h : Upholds cs start t pairs) (hc : c ∈ cs) (hfresh : ∀ p ∈ c.assigned, p.1 ∉ pairs.map Prod.fst) (hl : Lands t c) :
    Upholds cs start (c.run t) (pairs ++ c.assigned) := by
  cases c with
  | merge target refs assignments reason =>
    rcases hl with rfl | ⟨rfl, hnamed⟩
    · exact h.kept hc rfl (by simp [Resolve.assigned])
    · refine h.kept hc (by simp [Resolve.written]) fun p hp => ?_
      obtain ⟨ref, href, rfl⟩ := List.mem_map.1 hp
      exact hnamed ref href
  | aliasTo aliasEntity canonical reason =>
    simp only [Lands] at hl
    split at hl
    · rename_i hnone
      refine h.kept hc (alias_unwritten hnone) fun p hp => ?_
      rw [Resolve.assigned, List.mem_singleton] at hp
      rw [hp]
      exact hl
    · rename_i hsome
      have hs := run_written h.ready.tidy (h.ready.free _ hc)
      rw [alias_written hsome, objectOf_some hl] at hs
      obtain ⟨r, hr, hst⟩ := hs
      -- no earlier pair is of the alias
      have hother : ∀ p ∈ pairs, p.1 ≠ aliasEntity := by
        rintro p hp he
        have hm : p.1 ∈ pairs.map Prod.fst := List.mem_map_of_mem hp
        rw [he] at hm
        exact hfresh (aliasEntity, canonical) (by simp [Resolve.assigned]) hm
      refine ⟨h.ready.run hc, fun p hp => ?_, fun e he => ?_⟩ <;> rw [hst]
      · rcases List.mem_append.1 hp with hp | hp
        · exact names_upd_ne (hother p hp) (h.named p hp)
        · rw [Resolve.assigned, List.mem_singleton] at hp
          rw [hp]
          exact names_upd hr
      · rw [List.map_append, List.mem_append, not_or] at he
        have hne : e ≠ aliasEntity := fun hh => he.2 (by simp [Resolve.assigned, hh])
        rw [upd_ne _ _ (canonicalKey_ne hne)]
        exact h.targets e he.1

/-- A call that leaves the rows mapped landed. -/
theorem lands_of_mapped {cs : List Resolve} {start : Table} {t : Tables} {pairs : List (String × String)} {c : Resolve}
    (hready : Ready cs t) (hc : c ∈ cs) (hacyc : Acyclic (pairs ++ c.assigned)) (hbefore : Mapped start t.ledger.state pairs)
    (hafter : Mapped start (c.run t).ledger.state (pairs ++ c.assigned)) : Lands t c := by
  have hs := run_written hready.tidy (hready.free c hc)
  cases c with
  | merge target refs assignments reason =>
    by_cases hrefs : refs = []
    · exact .inl hrefs
    · by_cases hne : target = ""
      · have hnone : (Resolve.merge target refs assignments reason).written t = none := by simp [Resolve.written, hne]
        rw [hnone] at hs
        refine .inr ⟨hne, fun ref href => ?_⟩
        have hn := hafter.named (ref, target) (List.mem_append_right _ (List.mem_map_of_mem href))
        rw [hs, hne] at hn
        exact hn
      · -- the row of the target is written, at a seq no row has had
        exfalso
        have hsome : (Resolve.merge target refs assignments reason).written t = some (target, objectOf target refs.head?) := by
          simp [Resolve.written, hne, hrefs]
        rw [hsome] at hs
        obtain ⟨r, hr, hst⟩ := hs
        obtain ⟨b, rest, rfl⟩ := List.exists_cons_of_ne_nil hrefs
        have hbt : (b, target) ∈ pairs ++ (Resolve.merge target (b :: rest) assignments reason).assigned :=
          List.mem_append_right _ (by simp [Resolve.assigned])
        by_cases hm : target ∈ (pairs ++ (Resolve.merge target (b :: rest) assignments reason).assigned).map Prod.fst
        · obtain ⟨⟨target', x⟩, hp, rfl⟩ := List.mem_map.1 hm
          obtain ⟨r', hr', ho⟩ := hafter.named _ hp
          rw [hst, upd_self] at hr'
          cases hr'
          rw [hr.object] at ho
          have hx : x = objectOf target' (some b) := (Option.some.inj ho).symm
          by_cases hb : b = ""
          · rw [hx, hb, objectOf_empty] at hp
            exact hacyc target' (.single (hb ▸ hp))
          · rw [hx, objectOf_some hb] at hp
            exact hacyc target' (.tail (.single hp) hbt)
        · have hold := hafter.targets target hm
          have hnow := hbefore.targets target fun hin => hm (by rw [List.map_append]; exact List.mem_append_left _ hin)
          rw [hst, upd_self, ← hnow] at hold
          have hlt := hready.tidy.below _ r hold.symm
          rw [hr.seq] at hlt
          exact Nat.lt_irrefl _ hlt
  | aliasTo aliasEntity canonical reason =>
    have hn := hafter.named (aliasEntity, canonical) (List.mem_append_right _ (by simp [Resolve.assigned]))
    simp only [Lands]
    split
    · rename_i hnone
      rw [alias_unwritten hnone] at hs
      rw [hs] at hn
      exact hn
    · rename_i hsome
      rw [alias_written hsome] at hs
      obtain ⟨r, hr, hst⟩ := hs
      obtain ⟨r', hr', ho⟩ := hn
      rw [hst, upd_self] at hr'
      cases hr'
      rw [hr.object] at ho
      rintro rfl
      rw [objectOf_empty] at ho
      exact hsome (.inl (Option.some.inj ho))

/-! ## Every run of the resolver -/

theorem assignedAll_append (cs cs' : List Resolve) : assignedAll (cs ++ cs') = assignedAll cs ++ assignedAll cs' := List.flatMap_append

theorem assignedAll_snoc (cs : List Resolve) (c : Resolve) : assignedAll (cs ++ [c]) = assignedAll cs ++ c.assigned := by
  rw [assignedAll_append]
  simp [assignedAll]

theorem runAll_snoc (t : Tables) (cs : List Resolve) (c : Resolve) : runAll t (cs ++ [c]) = c.run (runAll t cs) :=
  runAll_append t cs [c]

theorem upholds_runAll {t : Tables} {cs : List Resolve} (hready : Ready cs t) (hnodup : ((assignedAll cs).map Prod.fst).Nodup)
    (hlands : ∀ pre c post, cs = pre ++ c :: post → Lands (runAll t pre) c) :
    ∀ pre post, cs = pre ++ post → Upholds cs t.ledger.state (runAll t pre) (assignedAll pre) := by
  intro pre
  induction pre using List.reverseRecOn with
  | nil => exact fun _ _ => ⟨hready, by simp [assignedAll], fun _ _ => rfl⟩
  | append_singleton pre c ih =>
    intro post hcs
    have hcs' : cs = pre ++ c :: post := by rw [hcs, List.append_assoc]; rfl
    rw [runAll_snoc, assignedAll_snoc]
    refine (ih _ hcs').run (by rw [hcs']; simp) (fun p hp hm => ?_) (hlands pre c post hcs')
    rw [hcs, assignedAll_append, assignedAll_snoc, List.map_append, List.map_append] at hnodup
    exact (List.nodup_append.1 (List.nodup_append.1 hnodup).1).2.2 _ hm _ (List.mem_map_of_mem hp) rfl

/-- Merges and aliases of free entities, no ref twice and no cycle: the rows map them after each call if and only if
each call lands. -/
theorem canonical_mapped_iff {t : Tables} {cs : List Resolve} (hrun : Run appendStep Any {} t.ledger)
    (hfree : ∀ c ∈ cs, ∀ e ∈ c.entities, Free t.ledger.state e) (hnodup : ((assignedAll cs).map Prod.fst).Nodup)
    (hacyc : Acyclic (assignedAll cs)) :
    CanonicalMapped t cs ↔ ∀ pre c post, cs = pre ++ c :: post → Lands (runAll t pre) c := by
  have hready : Ready cs t := ⟨tidy_run hrun, hfree⟩
  have hsub : ∀ pre post, cs = pre ++ post → Acyclic (assignedAll pre) := fun pre post hcs => by
    refine hacyc.sublist fun p hp => ?_
    rw [hcs, assignedAll_append]
    exact List.mem_append_left _ hp
  constructor
  · intro h pre c post hcs
    have hcs' : cs = (pre ++ [c]) ++ post := by rw [hcs, List.append_assoc]; rfl
    have hafter := h _ _ hcs'
    have hac := hsub _ _ hcs'
    rw [runAll_snoc, assignedAll_snoc] at hafter
    rw [assignedAll_snoc] at hac
    exact lands_of_mapped (hready.runAll fun c' hc' => by rw [hcs]; exact List.mem_append_left _ hc') (by rw [hcs]; simp) hac
      (h _ _ hcs) hafter
  · intro h pre post hcs
    have hup := upholds_runAll hready hnodup h pre post hcs
    exact ⟨hup.named, hup.targets, fun p _ => survivor_of_named (hsub pre post hcs) hup.named p.1⟩

/-- One alias on an empty ledger. -/
theorem canonical_mapped_alias : CanonicalMapped { other := [] } [.aliasTo "a" "b" none] := by
  refine (canonical_mapped_iff .refl (fun _ _ e _ => ⟨rfl, fun _ h => by cases h⟩) (by decide)
    (Acyclic.of_rank (fun s => if s = "a" then 0 else 1) (by decide))).2 fun pre c post hcs => ?_
  cases pre with
  | nil =>
    cases hcs
    have hfree : ¬ ("a" = "" ∨ (seqOfKey [] (aliasKey "a" "b")).isSome = true) := by decide
    rw [Lands]
    exact (if_neg hfree).mpr (by decide)
  | cons c' pre =>
    simp at hcs

/-- A merge of `b` into `a`: the row of `a` is written and names `b`, and `b` has no row. -/
theorem merge_writes_target : ¬ ∀ (t : Tables) (cs : List Resolve), Run appendStep Any {} t.ledger →
    (∀ c ∈ cs, ∀ e ∈ c.entities, Free t.ledger.state e) → ((assignedAll cs).map Prod.fst).Nodup → Acyclic (assignedAll cs) →
    CanonicalMapped t cs := by
  intro h
  have hmapped := h { other := [] } [.merge "a" ["b"] [] none] .refl
    (fun _ _ e _ => ⟨rfl, fun _ h => by cases h⟩) (by decide) (Acyclic.of_rank (fun s => if s = "b" then 0 else 1) (by decide))
    [.merge "a" ["b"] [] none] [] rfl
  obtain ⟨r, hr, -⟩ := hmapped.named ("b", "a") (by decide)
  have hnone : (runAll { other := [] } [.merge "a" ["b"] [] none]).ledger.state (canonicalKey "b") = none := rfl
  rw [hnone] at hr
  cases hr

end Umd.Resolution
