import Umd.Segmentation.Register
/-!
# Batches

What one call of `register` makes of its store. An input that is refused stops the loop
where it stands, so the call leaves the store as it was if and only if all inputs before it
were there already (`register_iff`).
-/

namespace Umd.Segmentation

open Umd.Lib Umd.Locators Umd.Projections Umd.Events

/-- What a segment is stored once under. -/
def comboOf (s : RegisteredSegment) : String × String × String := (s.sourceId, s.deterministicKey, s.version.tag)

variable (t : Tables)

/-- An input that `_build` does not refuse. -/
structure Accepted (inp : SegmentInput) : Prop where
  digest : inp.sourceSha512.length = 128 ∧ inp.sourceSha512.toList.all isHex = true
  source : inp.sourceId.length ≤ 256
  modality : inp.modality.length ≤ 32 ∧ modalityPattern (normModality t inp.modality) = true
  segment : ∀ identity segmentId, canonicalIdentity inp.sourceSha512 inp.workId = .ok identity →
    deterministicSegmentId t identity inp.modality inp.structuralPath = .ok segmentId → isUrlSafe segmentId = true
  frag : inp.frag.any Selector.isByteOffset = false

/-- An input whose source, key and version tag are in the store. -/
def Present (table : SegmentTable) (inp : SegmentInput) : Prop :=
  ∃ identity, canonicalIdentity inp.sourceSha512 inp.workId = .ok identity ∧
    (inp.sourceId, deterministicKey t identity inp.modality inp.structuralPath, inp.version.tag) ∈ table.map comboOf

/-- The inputs before the first one that is refused are in the store already. -/
def StoredBefore (table : SegmentTable) (batch : List SegmentInput) : Prop :=
  ∀ pre bad post, batch = pre ++ bad :: post → (∀ inp ∈ pre, Accepted t inp) → ¬ Accepted t bad → ∀ inp ∈ pre, Present t table inp

/-- What is reported of an input. -/
def ReportOf (inp : SegmentInput) (r : RegisteredSegment) : Prop := ∃ s, build t inp = .ok s ∧ r = { s with isNew := r.isNew }

/-- What a call that returns has done. -/
structure Registered (table : SegmentTable) (inputs : List SegmentInput) (table' : SegmentTable) (batch : SegmentBatch) : Prop where
  each : ∃ reported, List.Forall₂ (ReportOf t) inputs reported ∧ batch.created = reported.filter (·.isNew) ∧
    batch.existing = reported.filter (!·.isNew)
  total : batch.total = inputs.length
  once : (batch.created.map comboOf).Nodup
  created : ∀ combo, combo ∈ batch.created.map comboOf ↔
    combo ∈ (batch.created ++ batch.existing).map comboOf ∧ combo ∉ table.map comboOf
  again : ∃ batch', register t table' inputs = (table', .ok batch') ∧ batch'.created = []

/-- A call raises and leaves the store as it was, or registers each of its inputs. -/
def Atomic (table : SegmentTable) (inputs : List SegmentInput) : Prop :=
  match register t table inputs with
  | (table', .error _) => table' = table
  | (table', .ok batch) => Registered t table inputs table' batch

variable {t}

/-! ## The inputs that are built -/

theorem canonicalIdentity_some {inp : SegmentInput} (h : inp.sourceSha512.length = 128 ∧ inp.sourceSha512.toList.all isHex = true) :
    ∃ identity, canonicalIdentity inp.sourceSha512 inp.workId = .ok identity := by
  unfold canonicalIdentity
  rw [if_neg (by simp [h.1, h.2])]
  cases inp.workId.filter (· ≠ "") <;> exact ⟨_, rfl⟩

theorem canonicalIdentity_digest {sha512 identity : String} {workId : Option String} (h : canonicalIdentity sha512 workId = .ok identity) :
    sha512.length = 128 ∧ sha512.toList.all isHex = true := by
  unfold canonicalIdentity at h
  split at h
  · cases h
  · rename_i hok
    simpa using hok

/-- A segment id has at most 43 characters, and is there where the modality is. -/
theorem deterministicSegmentId_some (identity : String) {modality : String} (path : String) (h : modalityPattern (normModality t modality) = true) :
    ∃ segmentId, deterministicSegmentId t identity modality path = .ok segmentId ∧ segmentId.length ≤ 512 := by
  have hne : normModality t modality ≠ "" := by
    intro hempty
    rw [hempty] at h
    cases h
  unfold deterministicSegmentId
  dsimp only
  rw [if_neg hne]
  refine ⟨_, rfl, ?_⟩
  rw [String.length_ofList, List.length_take]
  omega

theorem build_iff (inp : SegmentInput) : (∃ s, build t inp = .ok s) ↔ Accepted t inp := by
  constructor
  · rintro ⟨s, hs⟩
    obtain ⟨identity, segmentId, locator, hid, hseg, hmake, -⟩ := build_ok hs
    unfold Locator.make at hmake
    split at hmake
    · rename_i hok
      simp only [Bool.and_eq_true, decide_eq_true_eq, Bool.not_eq_true'] at hok
      refine ⟨canonicalIdentity_digest hid, hok.1.1.1.1.1, ⟨hok.1.1.1.1.2, hok.1.1.1.2⟩, fun identity' segmentId' hid' hseg' => ?_, hok.2⟩
      rw [hid] at hid'
      cases hid'
      rw [hseg] at hseg'
      cases hseg'
      exact hok.1.2
    · cases hmake
  · intro h
    obtain ⟨identity, hid⟩ := canonicalIdentity_some h.digest
    obtain ⟨segmentId, hseg, hlen⟩ := deterministicSegmentId_some identity inp.structuralPath h.modality.2
    have hmake : Locator.make t inp.sourceId inp.modality segmentId (some inp.version) inp.frag =
        .ok { sourceId := inp.sourceId, modality := normModality t inp.modality, segment := segmentId, version := some inp.version, frag := inp.frag } := by
      unfold Locator.make
      rw [if_pos (by simp [h.source, h.modality.1, h.modality.2, hlen, h.segment _ _ hid hseg, h.frag])]
    unfold build buildLocator
    rw [if_neg (by simp [h.frag]), hid]
    dsimp only [bind, Except.bind]
    rw [hseg]
    dsimp only
    rw [hmake]
    exact ⟨_, rfl⟩

/-- Whether what is built of an input is present, as the input says it. -/
theorem present_iff {table : SegmentTable} {inp : SegmentInput} {s : RegisteredSegment} (hs : build t inp = .ok s) :
    Present t table inp ↔ comboOf s ∈ table.map comboOf := by
  obtain ⟨identity, segmentId, locator, hid, -, -, rfl⟩ := build_ok hs
  unfold Present
  constructor
  · rintro ⟨identity', hid', hmem⟩
    rw [hid] at hid'
    cases hid'
    exact hmem
  · intro hmem
    exact ⟨identity, hid, hmem⟩

theorem build_isNew {inp : SegmentInput} {s : RegisteredSegment} (h : build t inp = .ok s) : s.isNew = true := by
  obtain ⟨_, _, _, -, -, -, rfl⟩ := build_ok h
  rfl

/-- Inputs that are all built, or that are up to the first one that is not. -/
theorem built_or_refused (inputs : List SegmentInput) : (∃ segs, List.Forall₂ (fun inp s => build t inp = .ok s) inputs segs) ∨
    ∃ pre bad post segs e, inputs = pre ++ bad :: post ∧ List.Forall₂ (fun inp s => build t inp = .ok s) pre segs ∧
      build t bad = .error e := by
  induction inputs with
  | nil => exact .inl ⟨[], .nil⟩
  | cons inp inputs ih =>
    cases hs : build t inp with
    | error e => exact .inr ⟨[], inp, inputs, [], e, rfl, .nil, hs⟩
    | ok s =>
      rcases ih with ⟨segs, hsegs⟩ | ⟨pre, bad, post, segs, e, rfl, hsegs, hbad⟩
      · exact .inl ⟨s :: segs, .cons hs hsegs⟩
      · exact .inr ⟨inp :: pre, bad, post, s :: segs, e, rfl, .cons hs hsegs, hbad⟩

/-! ## The segments that are put -/

theorem put_eq (table : SegmentTable) (s : RegisteredSegment) :
    table.put s = if comboOf s ∈ table.map comboOf then (table, false) else (table ++ [s], true) := by
  unfold SegmentTable.put
  dsimp only
  refine if_congr ?_ rfl rfl
  simp only [List.any_eq_true, Bool.and_eq_true, decide_eq_true_eq, List.mem_map, comboOf, Prod.mk.injEq, and_assoc]

/-- Segments put one after the other: the store, and what is reported of them. -/
def putAll (table : SegmentTable) : List RegisteredSegment → SegmentTable × List RegisteredSegment
  | [] => (table, [])
  | s :: segs => ((putAll (table.put s).1 segs).1, { s with isNew := (table.put s).2 } :: (putAll (table.put s).1 segs).2)

/-- The loop of `register` puts what is built, and reports it in two lists. -/
theorem registerEach_append {inputs rest : List SegmentInput} {segs : List RegisteredSegment}
    (h : List.Forall₂ (fun inp s => build t inp = .ok s) inputs segs) (table : SegmentTable) (batch : SegmentBatch) :
    registerEach t table batch (inputs ++ rest) = registerEach t (putAll table segs).1
      { created := batch.created ++ (putAll table segs).2.filter (·.isNew)
        existing := batch.existing ++ (putAll table segs).2.filter (!·.isNew), total := batch.total } rest := by
  induction h generalizing table batch with
  | nil => simp [putAll]
  | @cons inp s inputs segs hs hrest ih =>
    rw [List.cons_append, registerEach_cons hs, ih]
    by_cases hnew : (table.put s).2 = true
    · simp [putAll, hnew]
    · simp [putAll, hnew]

/-- Each input is reported once, in order. -/
theorem putAll_reports {inputs : List SegmentInput} {segs : List RegisteredSegment}
    (h : List.Forall₂ (fun inp s => build t inp = .ok s) inputs segs) (table : SegmentTable) :
    List.Forall₂ (ReportOf t) inputs (putAll table segs).2 := by
  induction h generalizing table with
  | nil => exact .nil
  | cons hs _ ih => exact .cons ⟨_, hs, rfl⟩ (ih _)

theorem putAll_combos (table : SegmentTable) (segs : List RegisteredSegment) :
    (putAll table segs).2.map comboOf = segs.map comboOf := by
  induction segs generalizing table with
  | nil => rfl
  | cons s segs ih => exact congrArg (comboOf s :: ·) (ih _)

/-- What the store has got is what is reported as new. -/
theorem putAll_table {segs : List RegisteredSegment} (hnew : ∀ s ∈ segs, s.isNew = true) (table : SegmentTable) :
    (putAll table segs).1 = table ++ (putAll table segs).2.filter (·.isNew) := by
  induction segs generalizing table with
  | nil => simp [putAll]
  | cons s segs ih =>
    have hs : { s with isNew := true } = s := by
      have := hnew s (List.mem_cons_self ..)
      cases s
      cases this
      rfl
    unfold putAll
    dsimp only
    rw [ih fun s' hs' => hnew s' (List.mem_cons_of_mem _ hs'), put_eq]
    by_cases hthere : comboOf s ∈ table.map comboOf
    · rw [if_pos hthere, List.filter_cons_of_neg (by simp)]
    · rw [if_neg hthere, List.filter_cons_of_pos (by rfl), hs, List.append_assoc, List.singleton_append]

/-- What is reported as new was not there, and is reported once. -/
theorem putAll_created (segs : List RegisteredSegment) (table : SegmentTable) :
    (((putAll table segs).2.filter (·.isNew)).map comboOf).Nodup ∧
    ∀ combo, combo ∈ ((putAll table segs).2.filter (·.isNew)).map comboOf ↔ combo ∈ segs.map comboOf ∧ combo ∉ table.map comboOf := by
  induction segs generalizing table with
  | nil => simp [putAll]
  | cons s segs ih =>
    obtain ⟨hnodup, hmem⟩ := ih (table.put s).1
    rw [put_eq] at hnodup hmem
    unfold putAll
    dsimp only
    rw [put_eq]
    by_cases hthere : comboOf s ∈ table.map comboOf
    · rw [if_pos hthere] at hnodup hmem ⊢
      refine ⟨by simpa using hnodup, fun combo => ?_⟩
      rw [List.filter_cons_of_neg (by simp), hmem, List.map_cons, List.mem_cons]
      refine ⟨fun ⟨hin, hout⟩ => ⟨.inr hin, hout⟩, fun ⟨hin, hout⟩ => ⟨hin.resolve_left ?_, hout⟩⟩
      rintro rfl
      exact hout hthere
    · rw [if_neg hthere] at hnodup hmem ⊢
      have hcombo : comboOf { s with isNew := true } = comboOf s := rfl
      rw [List.filter_cons_of_pos (by rfl), List.map_cons, List.nodup_cons, hcombo]
      refine ⟨⟨fun hin => ?_, hnodup⟩, fun combo => ?_⟩
      · exact ((hmem _).1 hin).2 (by simp)
      · rw [List.mem_cons, hmem, List.map_cons, List.mem_cons, List.map_append, List.mem_append]
        by_cases heq : combo = comboOf s
        · simp [heq, hthere]
        · simp [heq]

/-- Segments that are all there are put without a change. -/
theorem putAll_present {segs : List RegisteredSegment} {table : SegmentTable} (h : ∀ s ∈ segs, comboOf s ∈ table.map comboOf) :
    putAll table segs = (table, segs.map fun s => { s with isNew := false }) := by
  induction segs with
  | nil => rfl
  | cons s segs ih =>
    unfold putAll
    rw [put_eq, if_pos (h s (List.mem_cons_self ..)), ih fun s' hs' => h s' (List.mem_cons_of_mem _ hs')]
    rfl

/-- The store is left as it is just by segments that are all there. -/
theorem putAll_table_iff {segs : List RegisteredSegment} (hnew : ∀ s ∈ segs, s.isNew = true) (table : SegmentTable) :
    (putAll table segs).1 = table ↔ ∀ s ∈ segs, comboOf s ∈ table.map comboOf := by
  constructor
  · intro h s hs
    by_contra hout
    have hin := ((putAll_created segs table).2 (comboOf s)).2 ⟨List.mem_map_of_mem hs, hout⟩
    rw [putAll_table hnew, List.append_right_eq_self] at h
    rw [h] at hin
    cases hin
  · intro h
    rw [putAll_present h]

/-! ## One call -/

theorem not_accepted {inp : SegmentInput} {e : PyError} (h : build t inp = .error e) : ¬ Accepted t inp := by
  intro ha
  obtain ⟨s, hs⟩ := (build_iff inp).2 ha
  rw [h] at hs
  cases hs

/-- What is built, and what it is built of. -/
theorem forall₂_built {inputs : List SegmentInput} {segs : List RegisteredSegment}
    (h : List.Forall₂ (fun inp s => build t inp = .ok s) inputs segs) :
    (∀ inp ∈ inputs, ∃ s ∈ segs, build t inp = .ok s) ∧ ∀ s ∈ segs, ∃ inp ∈ inputs, build t inp = .ok s := by
  induction h with
  | nil => exact ⟨nofun, nofun⟩
  | @cons inp s inputs segs hs _ ih =>
    refine ⟨fun inp' hinp => ?_, fun s' hmem => ?_⟩
    · rcases List.mem_cons.1 hinp with rfl | hinp
      · exact ⟨s, List.mem_cons_self .., hs⟩
      · obtain ⟨s', hmem, hb⟩ := ih.1 inp' hinp
        exact ⟨s', List.mem_cons_of_mem _ hmem, hb⟩
    · rcases List.mem_cons.1 hmem with rfl | hmem
      · exact ⟨inp, List.mem_cons_self .., hs⟩
      · obtain ⟨inp', hinp, hb⟩ := ih.2 s' hmem
        exact ⟨inp', List.mem_cons_of_mem _ hinp, hb⟩

theorem forall₂_isNew {inputs : List SegmentInput} {segs : List RegisteredSegment}
    (h : List.Forall₂ (fun inp s => build t inp = .ok s) inputs segs) : ∀ s ∈ segs, s.isNew = true := by
  intro s hs
  obtain ⟨inp, -, hb⟩ := (forall₂_built h).2 s hs
  exact build_isNew hb

/-- A call whose inputs are all built registers each of them. -/
theorem register_ok {inputs : List SegmentInput} {segs : List RegisteredSegment}
    (h : List.Forall₂ (fun inp s => build t inp = .ok s) inputs segs) (table : SegmentTable) :
    register t table inputs = ((putAll table segs).1,
      .ok { created := (putAll table segs).2.filter (·.isNew), existing := (putAll table segs).2.filter (!·.isNew), total := inputs.length }) := by
  have := @registerEach_append t inputs [] segs h table { total := inputs.length }
  rw [List.append_nil] at this
  unfold register
  rw [this]
  rfl

/-- A call with an input that is not built leaves what was put before it. -/
theorem register_error {pre post : List SegmentInput} {bad : SegmentInput} {segs : List RegisteredSegment} {e : PyError}
    (h : List.Forall₂ (fun inp s => build t inp = .ok s) pre segs) (hbad : build t bad = .error e) (table : SegmentTable) :
    register t table (pre ++ bad :: post) = ((putAll table segs).1, .error e) := by
  unfold register
  rw [registerEach_append h]
  conv_lhs => unfold registerEach
  rw [hbad]

theorem registered_of_built {inputs : List SegmentInput} {segs : List RegisteredSegment}
    (h : List.Forall₂ (fun inp s => build t inp = .ok s) inputs segs) (table : SegmentTable) :
    Registered t table inputs (putAll table segs).1
      { created := (putAll table segs).2.filter (·.isNew), existing := (putAll table segs).2.filter (!·.isNew), total := inputs.length } := by
  have hnew := forall₂_isNew h
  obtain ⟨hnodup, hcreated⟩ := putAll_created segs table
  have hthere : ∀ s ∈ segs, comboOf s ∈ (putAll table segs).1.map comboOf := by
    intro s hs
    rw [putAll_table hnew, List.map_append, List.mem_append]
    by_cases hin : comboOf s ∈ table.map comboOf
    · exact .inl hin
    · exact .inr ((hcreated _).2 ⟨List.mem_map_of_mem hs, hin⟩)
  refine ⟨⟨(putAll table segs).2, putAll_reports h table, rfl, rfl⟩, rfl, hnodup, fun combo => ?_, ?_⟩
  · have hall : combo ∈ ((putAll table segs).2.filter (·.isNew) ++ (putAll table segs).2.filter (!·.isNew)).map comboOf ↔
        combo ∈ segs.map comboOf := by
      rw [← putAll_combos table segs, List.mem_map, List.mem_map]
      refine exists_congr fun r => and_congr_left' ?_
      rw [List.mem_append, List.mem_filter, List.mem_filter]
      cases r.isNew <;> simp
    rw [hall]
    exact hcreated combo
  · refine ⟨_, (register_ok h _).trans (by rw [putAll_present hthere]), ?_⟩
    simp [List.filter_map]

/-- The first element without a property is found in one place. -/
theorem first_refused {α : Type} {p : α → Prop} {pre pre' post post' : List α} {x x' : α} (h : pre ++ x :: post = pre' ++ x' :: post')
    (hpre : ∀ y ∈ pre, p y) (hx : ¬ p x) (hpre' : ∀ y ∈ pre', p y) (hx' : ¬ p x') : pre = pre' ∧ x = x' ∧ post = post' := by
  induction pre generalizing pre' with
  | nil =>
    cases pre' with
    | nil => simpa using h
    | cons y pre' =>
      cases h
      exact absurd (hpre' _ (List.mem_cons_self ..)) hx
  | cons y pre ih =>
    cases pre' with
    | nil =>
      cases h
      exact absurd (hpre _ (List.mem_cons_self ..)) hx'
    | cons y' pre' =>
      obtain ⟨rfl, htail⟩ := List.cons.inj h
      obtain ⟨rfl, hrest⟩ := ih htail (fun z hz => hpre z (List.mem_cons_of_mem _ hz)) (fun z hz => hpre' z (List.mem_cons_of_mem _ hz))
      exact ⟨rfl, hrest⟩

/-- **A call is atomic if and only if the inputs before the first one that is refused are in the store already.** -/
theorem register_iff (t : Tables) (table : SegmentTable) (batch : List SegmentInput) :
    Atomic t table batch ↔ StoredBefore t table batch := by
  unfold Atomic
  rcases built_or_refused (t := t) batch with ⟨segs, hsegs⟩ | ⟨pre, bad, post, segs, e, rfl, hsegs, hbad⟩
  · rw [register_ok hsegs]
    refine iff_of_true (registered_of_built hsegs table) ?_
    rintro pre bad post rfl - hbad
    obtain ⟨s, -, hs⟩ := (forall₂_built hsegs).1 bad (by simp)
    exact absurd ((build_iff bad).1 ⟨s, hs⟩) hbad
  · rw [register_error hsegs hbad]
    dsimp only
    rw [putAll_table_iff (forall₂_isNew hsegs)]
    obtain ⟨hbuilt, hof⟩ := forall₂_built hsegs
    have hpre : ∀ inp ∈ pre, Accepted t inp := by
      intro inp hinp
      obtain ⟨s, -, hb⟩ := hbuilt inp hinp
      exact (build_iff inp).1 ⟨s, hb⟩
    constructor
    · intro h pre' bad' post' heq hpre' hbad' inp hinp
      obtain ⟨rfl, -, -⟩ := first_refused heq hpre (not_accepted hbad) hpre' hbad'
      obtain ⟨s, hs, hb⟩ := hbuilt inp hinp
      exact (present_iff hb).2 (h s hs)
    · intro h s hs
      obtain ⟨inp, hinp, hb⟩ := hof s hs
      exact (present_iff hb).1 (h pre bad post rfl hpre (not_accepted hbad) inp hinp)

/-- A page that is named by its bytes only. -/
def offsetInput : SegmentInput := { pageInput "text" with structuralPath := "page/2", frag := some (.byteOffset 0 1) }

theorem pageInput_accepted : Accepted asciiTables (pageInput "text") := by
  refine ⟨⟨String.length_ofList.trans List.length_replicate, ?_⟩, by decide, by decide +kernel, fun identity segmentId _ hseg => ?_, rfl⟩
  · rw [show (pageInput "text").sourceSha512.toList = List.replicate 128 'a' from String.toList_ofList]
    simp [isHex]
  · have hid : segmentId = String.ofList ("6YGO3KAL7AKON3HGKDKFWZQ3WLTAE4WZ35SRK5ONT3S".toList.take 43) := by
      unfold deterministicSegmentId at hseg
      dsimp only at hseg
      split at hseg
      · cases hseg
      · cases hseg
        rfl
    rw [hid]
    decide +kernel

/-- A call that raises and has changed the store is not atomic. -/
theorem not_atomic {table table' : SegmentTable} {inputs : List SegmentInput} {e : PyError}
    (hcall : register t table inputs = (table', .error e)) (hne : table' ≠ table) : ¬ Atomic t table inputs := by
  unfold Atomic
  rw [hcall]
  exact hne

/-- The page before the refused one is stored by the call that raises. -/
theorem offset_after_page : ¬ Atomic asciiTables [] [pageInput "text", offsetInput] := by
  obtain ⟨s, hs⟩ := (build_iff (pageInput "text")).2 pageInput_accepted
  have hrefused : ∃ e, build asciiTables offsetInput = .error e := by
    cases hb : build asciiTables offsetInput with
    | error e => exact ⟨e, rfl⟩
    | ok s' =>
      have hfrag := ((build_iff offsetInput).1 ⟨s', hb⟩).frag
      cases hfrag
  obtain ⟨e, he⟩ := hrefused
  exact not_atomic (@register_error _ [pageInput "text"] [] _ _ _ (.cons hs .nil) he []) (List.cons_ne_nil s [])

end Umd.Segmentation
