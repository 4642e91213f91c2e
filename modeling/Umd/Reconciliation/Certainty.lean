import Umd.Reconciliation.Committed
import Umd.Resolution.NoGuess
/-!
# The certainty of identities

An uncertain identity caps what is asserted of it, through its ref. What is asserted of
an unresolved text is capped if the text is bound to no other ref
(`unresolved_capped_iff`), and what resolution left unresolved or found contradicting is
capped after the hand-over through `current_state` only if an uncertain identity was
committed under the ref (`handed_over_iff`).
-/

namespace Umd.Reconciliation

open Umd.Lib Umd.Reducer Umd.Semantic

/-! ## What is certain -/

/-- A state that a confirmed identity reads as. -/
def Certain (s : ConfidenceState) : Prop := s = .confirmed ∨ s = .userConfirmed

/-- A pending assertion that is promoted. -/
def Emit.Strong (e : Emit) : Prop := promote e.confidence e.obsState = .confirmed

/-- The surface that the subject was resolved from. -/
def Origin.surface : Origin → Option String
  | .about s => some s
  | .aliasOf s => s
  | .mapping | .other => none

/-- A canonical entity that is neither accepted nor confirmed by a user. -/
def Canonical.Uncertain (c : Canonical) : Prop := c.classification ≠ "accepted" ∧ c.state ≠ "USER_CONFIRMED"

/-- The first of the pending assertions that say the same. -/
def Leads (es : List Emit) (e : Emit) : Prop := ∃ before after, es = before ++ e :: after ∧ ∀ e' ∈ before, e'.key ≠ e.key

variable {f : TextFunctions} {input : ReconciliationInput}

theorem promote_ne (confidence : Number) (s : ConfidenceState) : promote confidence s ≠ .userConfirmed := by
  unfold promote
  split_ifs <;> simp

/-- Only a promoted assertion whose subject is neither conflicted nor capped is certain. -/
theorem stateFor_certain (e : Emit) :
    Certain (input.stateFor f e) ↔ e.Strong ∧ e.subjectRef ∉ input.conflicted ∧ e.subjectRef ∉ input.ceilingRefs f := by
  have hne := promote_ne e.confidence e.obsState
  unfold ReconciliationInput.stateFor Emit.Strong Certain
  by_cases hconf : e.subjectRef ∈ input.conflicted
  · by_cases hceil : e.subjectRef ∈ input.ceilingRefs f
    · cases hp : promote e.confidence e.obsState <;> simp_all
    · cases hp : promote e.confidence e.obsState <;> simp_all
  · by_cases hceil : e.subjectRef ∈ input.ceilingRefs f
    · cases hp : promote e.confidence e.obsState <;> simp_all
    · cases hp : promote e.confidence e.obsState <;> simp_all

theorem leads_cons {x : Emit} {es : List Emit} {e : Emit} : Leads (x :: es) e ↔ e = x ∨ x.key ≠ e.key ∧ Leads es e := by
  constructor
  · rintro ⟨before, after, h, hnew⟩
    cases before with
    | nil => exact .inl (List.cons.inj h).1.symm
    | cons y before =>
      obtain ⟨rfl, rfl⟩ := List.cons.inj h
      exact .inr ⟨hnew x (.head _), before, after, rfl, fun e' he' => hnew e' (.tail _ he')⟩
  · rintro (rfl | ⟨hx, before, after, rfl, hnew⟩)
    · exact ⟨[], es, rfl, by simp⟩
    · refine ⟨x :: before, after, rfl, fun e' he' => ?_⟩
      rcases List.mem_cons.1 he' with rfl | he'
      · exact hx
      · exact hnew e' he'

/-- What is kept leads those that say the same. -/
theorem mem_keepNew_iff {seen : List (String × String × String × Option String)} {es : List Emit} {e : Emit} :
    e ∈ keepNew seen es ↔ e.key ∉ seen ∧ Leads es e := by
  induction es generalizing seen with
  | nil => exact ⟨nofun, fun ⟨_, before, _, h, _⟩ => by cases before <;> cases h⟩
  | cons x es ih =>
    rw [keepNew_cons, leads_cons]
    by_cases hx : x.key ∈ seen
    · rw [if_pos hx, ih]
      constructor
      · exact fun ⟨hseen, h⟩ => ⟨hseen, .inr ⟨fun heq => hseen (heq ▸ hx), h⟩⟩
      · rintro ⟨hseen, rfl | ⟨-, h⟩⟩
        · exact absurd hx hseen
        · exact ⟨hseen, h⟩
    · rw [if_neg hx, List.mem_cons, ih, List.mem_cons, not_or]
      constructor
      · rintro (rfl | ⟨⟨hne, hseen⟩, h⟩)
        · exact ⟨hx, .inl rfl⟩
        · exact ⟨hseen, .inr ⟨fun heq => hne heq.symm, h⟩⟩
      · rintro ⟨hseen, rfl | ⟨hne, h⟩⟩
        · exact .inl rfl
        · exact .inr ⟨⟨fun heq => hne heq.symm, hseen⟩, h⟩

theorem mem_kept {e : Emit} : e ∈ input.kept f ↔ Leads (input.pending f) e := by
  unfold ReconciliationInput.kept
  rw [mem_keepNew_iff]
  exact and_iff_right List.not_mem_nil

theorem Leads.mem {es : List Emit} {e : Emit} (h : Leads es e) : e ∈ es := by
  obtain ⟨before, after, rfl, -⟩ := h
  simp

/-! ## The subject of an assertion -/

theorem aboutEntity_surface {c : SemanticCandidate} {predicate object : String} {surface : Option String} {e : Emit}
    (h : e ∈ input.aboutEntity f c predicate surface object) {s : String} (hs : e.origin.surface = some s) :
    input.resolve f (some s) = some e.subjectRef := by
  unfold ReconciliationInput.aboutEntity at h
  split at h
  · rename_i s' subject hres
    obtain rfl := List.mem_singleton.1 h
    obtain rfl : s' = s := Option.some.inj hs
    exact hres
  · cases h

theorem emitAlias_surface {al : NormalizedAlias} {e : Emit} (h : e ∈ input.emitAlias f al) {s : String}
    (hs : e.origin.surface = some s) : input.resolve f (some s) = some e.subjectRef := by
  unfold ReconciliationInput.emitAlias at h
  dsimp only at h
  generalize al.entityRef.filter (fun x => decide (x ≠ "")) = given at h
  split at h
  · cases h
  · rename_i canonical hcanonical
    rcases List.mem_cons.1 h with rfl | h
    · obtain rfl : al.aliasText.value = s := Option.some.inj hs
      have hsome : (some al.aliasText.value).filter (fun s => decide (s ≠ "")) = some al.aliasText.value :=
        Option.filter_eq_some_iff.2 ⟨rfl, decide_eq_true al.aliasText.nonempty⟩
      show input.resolve f _ = some ((input.resolve f (some al.aliasText.value)).getD _)
      unfold ReconciliationInput.resolve
      rw [hsome]
      rfl
    · obtain rfl := List.mem_singleton.1 h
      cases given with
      | some ref => cases hs
      | none =>
        obtain rfl : al.canonicalName.value = s := Option.some.inj hs
        exact hcanonical

/-- The subject of an assertion about a surface is the ref of the surface. -/
theorem pending_surface {e : Emit} (h : e ∈ input.pending f) {s : String} (hs : e.origin.surface = some s) :
    input.resolve f (some s) = some e.subjectRef := by
  rcases List.mem_append.1 h with h | h
  · obtain ⟨am, -, h⟩ := List.mem_flatMap.1 h
    rcases List.mem_cons.1 h with rfl | h
    · cases hs
    · split at h
      · rw [List.mem_singleton.1 h] at hs
        cases hs
      · cases h
  · simp only [ReconciliationInput.emitObservations, List.mem_append, List.mem_flatMap, or_assoc] at h
    rcases h with ⟨o, -, h⟩ | ⟨o, -, h⟩ | ⟨o, -, h⟩ | ⟨o, -, h⟩ | ⟨o, -, h⟩ | ⟨o, -, h⟩ | ⟨o, -, h⟩ | ⟨o, -, h⟩ | ⟨o, -, h⟩ | ⟨o, -, h⟩
    · -- a scene
      unfold ReconciliationInput.emitScene at h
      split at h
      · rw [List.mem_singleton.1 h] at hs
        cases hs
      · cases h
    · exact emitAlias_surface h hs
    · exact aboutEntity_surface h hs
    · exact aboutEntity_surface h hs
    · rcases List.mem_append.1 h with h | h
      · exact aboutEntity_surface h hs
      · rw [List.mem_singleton.1 h] at hs
        cases hs
    · exact aboutEntity_surface h hs
    · -- a relationship
      unfold ReconciliationInput.emitRelationship at h
      split at h
      · rename_i hsubject _
        obtain rfl := List.mem_singleton.1 h
        obtain rfl : o.subjectRef.value = s := Option.some.inj hs
        exact hsubject
      · cases h
    · exact aboutEntity_surface h hs
    · exact aboutEntity_surface h hs
    · rw [List.mem_singleton.1 h] at hs
      cases hs

/-! ## Unresolved texts -/

namespace ReconciliationInput

variable (input : ReconciliationInput)

/-- The texts that are unresolved. -/
def unresolved : List String := (input.resolution.map Resolution.unresolved).getD []

def canonicals : List Canonical := (input.resolution.map Resolution.canonicalEntities).getD []

/-- A text that is bound to a ref which is neither conflicted nor capped. -/
def Free (f : TextFunctions) (text : String) : Prop :=
  ∃ ref, input.surfaces.lookup text = some ref ∧ ref ≠ "" ∧ ref ∉ input.conflicted ∧ ref ∉ input.ceilingRefs f

/-- What is asserted of an uncertain identity, or of an observation of an unresolved text. -/
def Doubtful (e : Emit) : Prop :=
  (∃ text ∈ input.unresolved, e.origin = .about text) ∨ ∃ c ∈ input.canonicals, c.ref = e.subjectRef ∧ c.Uncertain

end ReconciliationInput

theorem mem_ceilingRefs {ref : String} :
    ref ∈ input.ceilingRefs f ↔ (∃ c ∈ input.canonicals, c.ref = ref ∧ c.Uncertain) ∨ ∃ text ∈ input.unresolved, input.fallback f text = ref := by
  unfold ReconciliationInput.ceilingRefs ReconciliationInput.canonicals ReconciliationInput.unresolved
  cases input.resolution with
  | none => simp
  | some r =>
    simp only [Option.map_some, Option.getD_some, List.mem_append, List.mem_map, List.mem_filter, Canonical.Uncertain, Bool.and_eq_true,
      decide_eq_true_eq]
    refine or_congr (exists_congr fun c => ?_) Iff.rfl
    tauto

theorem resolve_some {s subject : String} (h : input.resolve f (some s) = some subject) :
    subject = ((input.surfaces.lookup s).filter (· ≠ "")).getD (input.fallback f s) := by
  unfold ReconciliationInput.resolve at h
  obtain ⟨s', hs', heq⟩ := Option.map_eq_some_iff.1 h
  obtain rfl := Option.some.inj (Option.filter_eq_some_iff.1 hs').1
  exact heq.symm

/-- An unresolved text whose ref is neither conflicted nor capped is bound to it. -/
theorem free_iff {text subject : String} (h : input.resolve f (some text) = some subject) (hu : text ∈ input.unresolved) :
    subject ∉ input.conflicted ∧ subject ∉ input.ceilingRefs f ↔ input.Free f text := by
  have hsubject := resolve_some h
  cases hl : (input.surfaces.lookup text).filter (fun s => decide (s ≠ "")) with
  | none =>
    rw [hl] at hsubject
    obtain rfl : subject = input.fallback f text := hsubject
    refine iff_of_false (fun hout => hout.2 (mem_ceilingRefs.2 (.inr ⟨text, hu, rfl⟩))) ?_
    rintro ⟨ref, href, hne, -⟩
    rw [href] at hl
    simp [Option.filter, hne] at hl
  | some ref =>
    rw [hl] at hsubject
    obtain rfl : subject = ref := hsubject
    obtain ⟨hbound, hne⟩ := Option.filter_eq_some_iff.1 hl
    constructor
    · exact fun hout => ⟨subject, hbound, of_decide_eq_true hne, hout⟩
    · rintro ⟨ref', href', -, hout⟩
      obtain rfl : subject = ref' := Option.some.inj (hbound.symm.trans href')
      exact hout

/-- No assertion of an observation of an unresolved text, or of an uncertain identity, is certain, if and only if the first of those that
say the same is never a strong one about an unresolved text that is bound to a ref which is neither conflicted nor capped. -/
theorem unresolved_capped_iff (f : TextFunctions) (input : ReconciliationInput) :
    (∀ e ∈ input.kept f, input.Doubtful e → ¬ Certain (input.assertionOf f e).state) ↔
      ∀ text ∈ input.unresolved, input.Free f text → ∀ e, Leads (input.pending f) e → e.origin = .about text → ¬ e.Strong := by
  constructor
  · intro hall text hu hfree e hleads horigin hstrong
    have hres := pending_surface hleads.mem (congrArg Origin.surface horigin)
    refine hall e (mem_kept.2 hleads) (.inl ⟨text, hu, horigin⟩) ((stateFor_certain e).2 ⟨hstrong, (free_iff hres hu).2 hfree⟩)
  · rintro hfirst e he (⟨text, hu, horigin⟩ | hcanonical) hcertain
    · have hleads := mem_kept.1 he
      have hres := pending_surface hleads.mem (congrArg Origin.surface horigin)
      obtain ⟨hstrong, hout⟩ := (stateFor_certain e).1 hcertain
      exact hfirst text hu ((free_iff hres hu).1 hout) e hleads horigin hstrong
    · exact ((stateFor_certain e).1 hcertain).2.2 (mem_ceilingRefs.2 (.inl hcanonical))

/-- `Alex` is unresolved in one mention and an accepted identity elsewhere. -/
def boundAlex : ReconciliationInput where
  sourceId := "s"
  analysis := mentionOf ⟨"Alex", by decide⟩
  resolution := some { canonicalEntities := [⟨"canonical:a", "Alex", "CONFIRMED", "accepted"⟩], unresolved := ["Alex"] }

/-- The unresolved mention is asserted of the accepted identity, and confirmed. -/
theorem bound_alex_confirmed : ¬ ∀ (f : TextFunctions) (input : ReconciliationInput), ∀ e ∈ input.kept f, input.Doubtful e →
    ¬ Certain (input.assertionOf f e).state := by
  intro hall
  have hany : (boundAlex.kept ⟨id, id⟩).any (fun e =>
      decide (e.origin = .about "Alex") && decide ((boundAlex.assertionOf ⟨id, id⟩ e).state = .confirmed)) = true := by decide +kernel
  obtain ⟨e, he, hboth⟩ := List.any_eq_true.1 hany
  obtain ⟨horigin, hstate⟩ := Bool.and_eq_true_iff.1 hboth
  exact hall ⟨id, id⟩ boundAlex e he (.inl ⟨"Alex", List.mem_singleton.2 rfl, of_decide_eq_true horigin⟩) (.inl (of_decide_eq_true hstate))

/-! ## The hand-over -/

/-- What is asserted of a surface that a batch left unresolved, or of a canonical that it found contradicting. -/
def LeftOpenBy (batch : Resolution.ResolutionBatch) (e : Emit) : Prop :=
  (∃ m ∈ batch.unresolved, e.origin.surface = some m.text) ∨
    ∃ c ∈ batch.contradictions, e.subjectRef = c.subjectRef ∨ e.subjectRef = c.contradictingRef

/-- An uncertain identity is committed under a ref. -/
def Resolution.Doubts (r : Resolution) (ref : String) : Prop := ∃ c ∈ r.canonicalEntities, c.ref = ref ∧ c.Uncertain

/-- The ref that a surface has in a committed resolution. -/
def Resolution.refOf (f : TextFunctions) (src : Source) (r : Resolution) (surface : String) : String :=
  entityRef f src surface ((r.surfaces.lookup surface).getD "")

/-- The first of the assertions that say the same is a strong one, about a surface or of a ref. -/
def StrongLead (f : TextFunctions) (input : ReconciliationInput) (p : Emit → Prop) : Prop :=
  ∃ e, Leads (input.pending f) e ∧ p e ∧ e.Strong

section
variable {src : Source} {analysis : Buckets}

/-- A committed resolution has neither unresolved texts nor contradictions. -/
theorem committed_bare {rows : List ScalarRow} {res : Resolution} (h : committedResolution src rows = .ok res) :
    res.unresolved = [] ∧ res.contradictions = [] := by
  obtain ⟨parts, -, rfl⟩ := committedResolution_ok.1 h
  exact ⟨rfl, rfl⟩

/-- Nothing but an uncertain committed identity caps an assertion. -/
theorem committed_certain {rows : List ScalarRow} {res : Resolution} (h : committedResolution src rows = .ok res) (e : Emit) :
    Certain ((reconciliationInput src analysis res).assertionOf f e).state ↔ e.Strong ∧ ¬ res.Doubts e.subjectRef := by
  obtain ⟨hu, hc⟩ := committed_bare h
  refine (stateFor_certain e).trans (and_congr_right fun _ => ?_)
  have hconf : (reconciliationInput src analysis res).conflicted = [] := by
    show res.contradictions.flatMap _ = []
    rw [hc]
    rfl
  have hun : (reconciliationInput src analysis res).unresolved = [] := hu
  rw [hconf, mem_ceilingRefs, hun]
  simp [Resolution.Doubts, ReconciliationInput.canonicals, reconciliationInput]

theorem committed_surface {res : Resolution} {e : Emit} (h : e ∈ (reconciliationInput src analysis res).pending f) {s : String}
    (hs : e.origin.surface = some s) : e.subjectRef = res.refOf f src s := by
  rw [resolve_some (pending_surface h hs)]
  show ((res.surfaces.lookup s).filter _).getD (deterministicRef f src.id "entity" s) = _
  unfold Resolution.refOf entityRef
  cases res.surfaces.lookup s with
  | none => rfl
  | some ref =>
    by_cases href : ref = ""
    · simp [Option.filter, href]
    · simp [Option.filter, href]

/-- Nothing that is asserted of the committed state about a surface that a batch left unresolved, or of a canonical that it found
contradicting, is certain, if and only if an uncertain identity is committed under each of their refs that a strong assertion is first
about. -/
theorem handed_over_iff (f : TextFunctions) (src : Source) (analysis : Buckets) (rows : List ScalarRow) (batch : Resolution.ResolutionBatch) :
    (∀ res, committedResolution src rows = .ok res → ∀ e ∈ (reconciliationInput src analysis res).kept f, LeftOpenBy batch e →
        ¬ Certain ((reconciliationInput src analysis res).assertionOf f e).state) ↔
      ∀ res, committedResolution src rows = .ok res →
        (∀ m ∈ batch.unresolved, StrongLead f (reconciliationInput src analysis res) (·.origin.surface = some m.text) →
          res.Doubts (res.refOf f src m.text)) ∧
        ∀ c ∈ batch.contradictions, ∀ ref ∈ [c.subjectRef, c.contradictingRef],
          StrongLead f (reconciliationInput src analysis res) (·.subjectRef = ref) → res.Doubts ref := by
  refine forall₂_congr fun res hres => ?_
  constructor
  · intro hall
    refine ⟨fun m hm => ?_, fun c hc ref href => ?_⟩
    · rintro ⟨e, hleads, hsurface, hstrong⟩
      by_contra hdoubt
      rw [← committed_surface hleads.mem hsurface] at hdoubt
      exact hall e (mem_kept.2 hleads) (.inl ⟨m, hm, hsurface⟩) ((committed_certain hres e).2 ⟨hstrong, hdoubt⟩)
    · rintro ⟨e, hleads, rfl, hstrong⟩
      by_contra hdoubt
      have hopen : LeftOpenBy batch e := .inr ⟨c, hc, by simpa using href⟩
      exact hall e (mem_kept.2 hleads) hopen ((committed_certain hres e).2 ⟨hstrong, hdoubt⟩)
  · rintro ⟨hsurfaces, hrefs⟩ e he hopen hcertain
    have hleads := mem_kept.1 he
    obtain ⟨hstrong, hdoubt⟩ := (committed_certain hres e).1 hcertain
    rcases hopen with ⟨m, hm, hsurface⟩ | ⟨c, hc, href⟩
    · refine hdoubt ?_
      rw [committed_surface hleads.mem hsurface]
      exact hsurfaces m hm ⟨e, hleads, hsurface, hstrong⟩
    · exact hdoubt (hrefs c hc e.subjectRef (by simpa using href) ⟨e, hleads, rfl, hstrong⟩)

end

/-- One mention of `Alex`, which is ambiguous. -/
def ambiguousAlex : Resolution.Task :=
  Resolution.listTask [⟨"m1", "s", none, none, "Alex", [], none, none, "AMBIGUOUS", none, [], [], [], none, none, none⟩] []

def presentAlex : Presence where
  confidence := ⟨.ofNumber (.dec 9 1), Repositories.inUnit_nine_tenths⟩
  segment := { locator := ⟨"p", paragraph_ne⟩ }
  generatedBy := {}
  entity := ⟨"Alex", by decide⟩
  presentIn := ⟨"room", by decide⟩

/-- The mention, and that `Alex` is present in a room. -/
def alexInRoom : Buckets
  | .entityMentions => [.entityMention { oneMention ⟨"Alex", by decide⟩ with state := .ambiguous }]
  | .presence => [.presence presentAlex]
  | _ => []

/-- The mention is left unresolved, so that nothing is committed and the presence is confirmed. -/
theorem alex_presence_confirmed : ∃ batch, Resolution.resolveMentions Resolution.plain id {} (1 / 2) ambiguousAlex = .ok batch ∧
    batch.unresolved.map (·.text) = ["Alex"] ∧ batch.commands = [] ∧ committedResolution { id := "s" } [] = .ok {} ∧
    ∃ e ∈ (reconciliationInput { id := "s" } alexInRoom {}).kept ⟨id, id⟩, LeftOpenBy batch e ∧
      Certain ((reconciliationInput { id := "s" } alexInRoom {}).assertionOf ⟨id, id⟩ e).state := by
  have hbatch : (Resolution.resolveMentions Resolution.plain id {} (1 / 2) ambiguousAlex).toOption.map
      (fun b => (b.unresolved.map (·.text), b.commands.isEmpty)) = some (["Alex"], true) := by decide +kernel
  have hany : ((reconciliationInput { id := "s" } alexInRoom {}).kept ⟨id, id⟩).any (fun e => decide (e.origin = .about "Alex") &&
      decide (((reconciliationInput { id := "s" } alexInRoom {}).assertionOf ⟨id, id⟩ e).state = .confirmed)) = true := by decide +kernel
  obtain ⟨e, he, hboth⟩ := List.any_eq_true.1 hany
  obtain ⟨horigin, hstate⟩ := Bool.and_eq_true_iff.1 hboth
  cases h : Resolution.resolveMentions Resolution.plain id {} (1 / 2) ambiguousAlex with
  | error err => rw [h] at hbatch; cases hbatch
  | ok batch =>
    rw [h] at hbatch
    obtain ⟨htexts, hcommands⟩ := Prod.mk.inj (Option.some.inj hbatch)
    obtain ⟨m, hm, htext⟩ := List.mem_map.1 (htexts ▸ List.mem_singleton.2 rfl : "Alex" ∈ batch.unresolved.map (·.text))
    have hsurface : e.origin.surface = some m.text := by
      rw [of_decide_eq_true horigin, htext]
      rfl
    exact ⟨batch, rfl, htexts, List.isEmpty_iff.1 hcommands, rfl, e, he, .inl ⟨m, hm, hsurface⟩, .inl (of_decide_eq_true hstate)⟩

end Umd.Reconciliation
