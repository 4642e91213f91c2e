import Umd.Lib.Orders
/-!
# Reference linkage

Fellegi and Sunter's m and u probabilities as `train_reference_model` counts them from
labeled pairs, and the weights `predict_reference` makes of them. Half an observation is
added to each count and half an observation for each field to each total, so with two
fields or more no probability is certain; the probabilities of a lone field are certain as
soon as all its pairs agree (`linkage_sound_iff`). The arithmetic is exact, and the logarithm and
the exponential are parameters.
-/

namespace Umd.Linkage

open Umd.Lib

inductive LinkageError where
  | keyError
  | valueError
  | zeroDivisionError
deriving DecidableEq

inductive LinkageDecision where
  | matched
  | possible
  | nonMatch
deriving DecidableEq

structure LinkRecord where
  ref : String
  features : List (String × String) := []

/-- `self.features.get(field)` -/
def LinkRecord.feature (record : LinkRecord) (field : String) : Option String := lastValue record.features field

def LinkRecord.agrees (record other : LinkRecord) (field : String) : Bool :=
  (record.feature field).isSome && record.feature field == other.feature field

/-- `{record.ref: record for record in records}[ref]` -/
def recordOf (records : List LinkRecord) (ref : String) : Except LinkageError LinkRecord :=
  match lastValue (records.map fun record => (record.ref, record)) ref with
  | some record => .ok record
  | none => .error .keyError

structure LabeledPair where
  left : String
  right : String
  isMatch : Bool

section
variable {F : Type} [Field F]

structure LinkageModelSettings (F : Type) [Field F] where
  fields : List String := ["soundex", "translit", "cluster"]
  priorMatch : F := 1 / 100
  matchThreshold : F := 5
  possibleThreshold : F := 0

structure LinkFieldProb (F : Type) [Field F] where
  name : String
  probM : F := 4 / 5
  probU : F := 1 / 10

structure TrainedLinkageModel (F : Type) [Field F] where
  priorMatch : F
  matchThreshold : F
  possibleThreshold : F
  fields : List (LinkFieldProb F)
  trainPairs : Nat := 0

structure LinkScore (F : Type) where
  leftRef : String
  rightRef : String
  decision : LinkageDecision
  score : F
  probability : F

/-! ## Training -/

/-- The counts of the training loop. -/
structure Tally where
  agreeM : String → Nat := fun _ => 0
  matchTotal : Nat := 0
  agreeU : String → Nat := fun _ => 0
  nonMatchTotal : Nat := 0

/-- The fields that agree are counted. -/
def countAgreements (fields : List String) (l r : LinkRecord) (agree : String → Nat) : String → Nat :=
  fields.foldl (fun agree f => if l.agrees r f then Function.update agree f (agree f + 1) else agree) agree

/-- The training loop. -/
def tally (records : List LinkRecord) (fields : List String) : Tally → List LabeledPair → Except LinkageError Tally
  | t, [] => .ok t
  | t, p :: labeled => do
    let l ← recordOf records p.left
    let r ← recordOf records p.right
    if p.isMatch then
      tally records fields { t with matchTotal := t.matchTotal + 1, agreeM := countAgreements fields l r t.agreeM } labeled
    else
      tally records fields { t with nonMatchTotal := t.nonMatchTotal + 1, agreeU := countAgreements fields l r t.agreeU } labeled

/-- `from_settings` -/
def TrainedLinkageModel.fromSettings (settings : LinkageModelSettings F) : TrainedLinkageModel F where
  priorMatch := settings.priorMatch
  matchThreshold := settings.matchThreshold
  possibleThreshold := settings.possibleThreshold
  fields := settings.fields.map fun f => { name := f }

/-- `train_reference_model`; where there is a field to divide for, no total is zero. -/
def trainReferenceModel (records : List LinkRecord) (labeled : List LabeledPair) (settings : LinkageModelSettings F) :
    Except LinkageError (TrainedLinkageModel F) := do
  let t ← tally records settings.fields {} labeled
  let prior : F := 1 / 2
  let denomM := prior * settings.fields.length + t.matchTotal
  let denomU := prior * settings.fields.length + t.nonMatchTotal
  let model := TrainedLinkageModel.fromSettings settings
  let fields := settings.fields.foldl (fun fields f => fields.map fun pf =>
    if pf.name = f then { name := pf.name, probM := (t.agreeM f + prior) / denomM, probU := (t.agreeU f + prior) / denomU }
    else pf) model.fields
  return { model with fields := fields, trainPairs := labeled.length }

/-! ## Prediction -/

/-- `a / b` -/
def divide [DecidableEq F] (a b : F) : Except LinkageError F := if b = 0 then .error .zeroDivisionError else .ok (a / b)

section
variable [LinearOrder F] (log exp : F → F)

/-- `math.log(x)` -/
def mathLog (x : F) : Except LinkageError F := if x ≤ 0 then .error .valueError else .ok (log x)

/-- What a field adds to the weight. -/
def fieldWeight (l r : LinkRecord) (pf : LinkFieldProb F) : Except LinkageError F := do
  if l.agrees r pf.name then mathLog log (← divide pf.probM pf.probU)
  else mathLog log (← divide (1 - pf.probM) (1 - pf.probU))

/-- `_probability`. -/
def probability (weight prior : F) : Except LinkageError F :=
  let ew := exp (min weight 50)
  divide (prior * ew) (prior * ew + (1 - prior))

def predictReference (model : TrainedLinkageModel F) (records : List LinkRecord) (pairs : List (String × String)) :
    Except LinkageError (List (LinkScore F)) :=
  pairs.mapM fun (left, right) => do
    let l ← recordOf records left
    let r ← recordOf records right
    let w ← model.fields.foldlM (fun w pf => do return w + (← fieldWeight log l r pf)) 0
    let prob ← probability exp w model.priorMatch
    let decision := if model.matchThreshold ≤ w then .matched else if model.possibleThreshold ≤ w then .possible else .nonMatch
    return { leftRef := left, rightRef := right, decision, score := w, probability := prob }

end

/-! ## What is counted -/

/-- The two records of a labeled pair agree on a field. -/
def LabeledPair.agreeOn (records : List LinkRecord) (f : String) (p : LabeledPair) : Bool :=
  match recordOf records p.left, recordOf records p.right with
  | .ok l, .ok r => l.agrees r f
  | _, _ => false

/-- There is a record of that ref. -/
def Known (records : List LinkRecord) (ref : String) : Prop := ∃ record, recordOf records ref = .ok record

/-- The labeled pairs of one kind. -/
def labeledAs (isMatch : Bool) (labeled : List LabeledPair) : List LabeledPair := labeled.filter (·.isMatch == isMatch)

theorem countAgreements_other {fields : List String} {l r : LinkRecord} {agree : String → Nat} {f : String} (h : f ∉ fields) :
    countAgreements fields l r agree f = agree f := by
  induction fields generalizing agree with
  | nil => rfl
  | cons g fields ih =>
    rw [List.mem_cons, not_or] at h
    rw [countAgreements, List.foldl_cons]
    refine (ih h.2).trans ?_
    split
    · exact Function.update_of_ne h.1 _ _
    · rfl

/-- A field is counted once for a pair. -/
theorem countAgreements_eq {fields : List String} (hnodup : fields.Nodup) {l r : LinkRecord} {agree : String → Nat} {f : String}
    (h : f ∈ fields) : countAgreements fields l r agree f = agree f + if l.agrees r f then 1 else 0 := by
  induction fields generalizing agree with
  | nil => cases h
  | cons g fields ih =>
    rw [List.nodup_cons] at hnodup
    rw [countAgreements, List.foldl_cons]
    change countAgreements fields l r _ f = _
    rcases List.mem_cons.1 h with rfl | h
    · rw [countAgreements_other hnodup.1]
      split
      · rw [Function.update_self]
      · rfl
    · have hne : f ≠ g := fun he => hnodup.1 (he ▸ h)
      rw [ih hnodup.2 h]
      congr 1
      split
      · exact Function.update_of_ne hne _ _
      · rfl

/-- The tally of the pairs over known records. -/
theorem tally_ok {records : List LinkRecord} {fields : List String} (hnodup : fields.Nodup) {labeled : List LabeledPair}
    (hknown : ∀ p ∈ labeled, Known records p.left ∧ Known records p.right) (t : Tally) :
    ∃ t', tally records fields t labeled = .ok t' ∧
      t'.matchTotal = t.matchTotal + (labeledAs true labeled).length ∧
      t'.nonMatchTotal = t.nonMatchTotal + (labeledAs false labeled).length ∧
      ∀ f ∈ fields, t'.agreeM f = t.agreeM f + (labeledAs true labeled).countP (LabeledPair.agreeOn records f) ∧
        t'.agreeU f = t.agreeU f + (labeledAs false labeled).countP (LabeledPair.agreeOn records f) := by
  induction labeled generalizing t with
  | nil => exact ⟨t, rfl, rfl, rfl, fun f _ => ⟨rfl, rfl⟩⟩
  | cons p labeled ih =>
    obtain ⟨⟨l, hl⟩, r, hr⟩ := hknown p (.head _)
    have hagree : ∀ f, p.agreeOn records f = l.agrees r f := by
      intro f
      rw [LabeledPair.agreeOn, hl, hr]
    rw [tally, hl, hr]
    cases hmatch : p.isMatch with
    | true =>
      obtain ⟨t', ht, hm, hu, hcounts⟩ := ih (fun q hq => hknown q (.tail _ hq))
        { t with matchTotal := t.matchTotal + 1, agreeM := countAgreements fields l r t.agreeM }
      refine ⟨t', ht, ?_, ?_, fun f hf => ?_⟩
      · rw [hm]
        simp [labeledAs, hmatch]
        omega
      · rw [hu]
        simp [labeledAs, hmatch]
      · obtain ⟨hagreeM, hagreeU⟩ := hcounts f hf
        rw [hagreeM, hagreeU]
        dsimp only
        rw [countAgreements_eq hnodup hf]
        simp [labeledAs, hmatch, List.countP_cons, hagree]
        omega
    | false =>
      obtain ⟨t', ht, hm, hu, hcounts⟩ := ih (fun q hq => hknown q (.tail _ hq))
        { t with nonMatchTotal := t.nonMatchTotal + 1, agreeU := countAgreements fields l r t.agreeU }
      refine ⟨t', ht, ?_, ?_, fun f hf => ?_⟩
      · rw [hm]
        simp [labeledAs, hmatch]
      · rw [hu]
        simp [labeledAs, hmatch]
        omega
      · obtain ⟨hagreeM, hagreeU⟩ := hcounts f hf
        rw [hagreeM, hagreeU]
        dsimp only
        rw [countAgreements_eq hnodup hf]
        simp [labeledAs, hmatch, List.countP_cons, hagree]
        omega

theorem labeledAs_agree {records : List LinkRecord} {isMatch : Bool} {labeled : List LabeledPair} {f : String} :
    (labeledAs isMatch labeled).countP (LabeledPair.agreeOn records f) < (labeledAs isMatch labeled).length ↔
      ∃ p ∈ labeled, p.isMatch = isMatch ∧ p.agreeOn records f = false := by
  rw [lt_iff_le_and_ne, ne_eq, List.countP_eq_length]
  simp [labeledAs, List.countP_le_length]

/-- The loop gives every field its own probabilities. -/
theorem replaced_fields (m u : String → F) (names : List String) (fields : List (LinkFieldProb F)) :
    names.foldl (fun fields f => fields.map fun pf =>
      if pf.name = f then { name := pf.name, probM := m f, probU := u f } else pf) fields =
      fields.map fun pf => if pf.name ∈ names then { name := pf.name, probM := m pf.name, probU := u pf.name } else pf := by
  induction names generalizing fields with
  | nil => simp
  | cons f names ih =>
    rw [List.foldl_cons, ih, List.map_map]
    refine List.map_congr_left fun pf _ => ?_
    rw [Function.comp_apply]
    by_cases hf : pf.name = f
    · simp [hf]
    · simp [hf]

/-- What is trained. -/
theorem trained_fields {records : List LinkRecord} {labeled : List LabeledPair} {settings : LinkageModelSettings F}
    (hnodup : settings.fields.Nodup) (hknown : ∀ p ∈ labeled, Known records p.left ∧ Known records p.right) :
    ∃ model, trainReferenceModel records labeled settings = .ok model ∧ model.priorMatch = settings.priorMatch ∧
      model.fields = settings.fields.map fun f =>
        { name := f
          probM := ((labeledAs true labeled).countP (LabeledPair.agreeOn records f) + 1 / 2 : F) /
            (1 / 2 * settings.fields.length + (labeledAs true labeled).length)
          probU := ((labeledAs false labeled).countP (LabeledPair.agreeOn records f) + 1 / 2 : F) /
            (1 / 2 * settings.fields.length + (labeledAs false labeled).length) } := by
  obtain ⟨t, ht, hm, hu, hcounts⟩ := tally_ok hnodup hknown {}
  unfold trainReferenceModel
  rw [ht]
  refine ⟨_, rfl, rfl, ?_⟩
  dsimp only
  rw [replaced_fields (fun f => (t.agreeM f + 1 / 2 : F) / (1 / 2 * settings.fields.length + t.matchTotal))
    (fun f => (t.agreeU f + 1 / 2 : F) / (1 / 2 * settings.fields.length + t.nonMatchTotal)), TrainedLinkageModel.fromSettings,
    List.map_map]
  refine List.map_congr_left fun f hf => ?_
  obtain ⟨hagreeM, hagreeU⟩ := hcounts f hf
  simp [hf, hm, hu, hagreeM, hagreeU]

/-! ## The probabilities -/

/-- Strictly between zero and one. -/
def Uncertain [LinearOrder F] (x : F) : Prop := 0 < x ∧ x < 1

section
variable [LinearOrder F] [IsStrictOrderedRing F]

/-- Half an observation on `a` of `n`, and half of one for each of `k` fields. -/
theorem smoothed_uncertain {a n k : Nat} (ha : a ≤ n) (hk : 0 < k) :
    Uncertain ((a + 1 / 2 : F) / (1 / 2 * k + n)) ↔ 2 ≤ k ∨ a < n := by
  have hpos : (0 : F) < 1 / 2 * k + n := by
    have hk' : (0 : F) < k := Nat.cast_pos.2 hk
    positivity
  have hcast : (a + 1 / 2 : F) < 1 / 2 * k + n ↔ 2 * a + 1 < k + 2 * n := by
    have hnat : (2 * a + 1 < k + 2 * n) ↔ (2 * (a : F) + 1 < k + 2 * n) := by exact_mod_cast Iff.rfl
    rw [hnat]
    constructor <;> intro h <;> linarith
  unfold Uncertain
  rw [div_lt_one hpos, hcast]
  constructor
  · rintro ⟨-, h⟩
    omega
  · intro h
    exact ⟨by positivity, by omega⟩

/-! ## The weights -/

variable {log exp : F → F}

theorem fieldWeight_ok {l r : LinkRecord} {pf : LinkFieldProb F} (hm : Uncertain pf.probM) (hu : Uncertain pf.probU) :
    ∃ w, fieldWeight log l r pf = .ok w := by
  have hlog : ∀ {a b : F}, 0 < a → 0 < b → ∃ w, (do mathLog log (← divide a b)) = Except.ok w := by
    intro a b ha hb
    refine ⟨log (a / b), ?_⟩
    rw [divide, if_neg hb.ne']
    exact if_neg (not_le.2 (div_pos ha hb))
  unfold fieldWeight
  split
  · exact hlog hm.1 hu.1
  · exact hlog (sub_pos.2 hm.2) (sub_pos.2 hu.2)

/-- The posterior of a prior that is a probability. -/
theorem probability_ok (hexp : ∀ x, 0 < exp x) {prior : F} (hprior : 0 ≤ prior ∧ prior ≤ 1) (weight : F) :
    ∃ p, probability exp weight prior = .ok p := by
  have hpos : 0 < prior * exp (min weight 50) + (1 - prior) := by
    rcases eq_or_lt_of_le hprior.1 with rfl | hlt
    · simp
    · have := mul_pos hlt (hexp (min weight 50))
      linarith [hprior.2]
  exact ⟨_, if_neg hpos.ne'⟩

theorem predict_ok (hexp : ∀ x, 0 < exp x) {model : TrainedLinkageModel F} (hprior : 0 ≤ model.priorMatch ∧ model.priorMatch ≤ 1)
    (hfields : ∀ pf ∈ model.fields, Uncertain pf.probM ∧ Uncertain pf.probU) {records : List LinkRecord} {pairs : List (String × String)}
    (hknown : ∀ p ∈ pairs, Known records p.1 ∧ Known records p.2) : ∃ scores, predictReference log exp model records pairs = .ok scores := by
  refine mapM_succeeds fun p hp => ?_
  obtain ⟨⟨l, hl⟩, r, hr⟩ := hknown p hp
  have hweight : ∀ w, ∃ w', model.fields.foldlM (fun w pf => do return w + (← fieldWeight log l r pf)) w = Except.ok w' := by
    generalize model.fields = fields at hfields
    induction fields with
    | nil => exact fun w => ⟨w, rfl⟩
    | cons pf fields ih =>
      intro w
      obtain ⟨hm, hu⟩ := hfields pf (.head _)
      obtain ⟨x, hx⟩ := @fieldWeight_ok F _ _ _ log l r pf hm hu
      rw [List.foldlM_cons, hx]
      exact ih (fun pf hpf => hfields pf (.tail _ hpf)) (w + x)
  obtain ⟨w, hw⟩ := hweight 0
  obtain ⟨prob, hprob⟩ := probability_ok hexp hprior w
  exact ⟨_, of_bind hl (of_bind hr (of_bind hw (of_bind hprob rfl)))⟩

/-- **Trained probabilities are strictly between zero and one, and no prediction takes the logarithm of zero or divides by it, if
and only if there are two fields, or the lone one tells both kinds of labeled pairs apart.** -/
theorem linkage_sound_iff (hexp : ∀ x, 0 < exp x) {settings : LinkageModelSettings F} (hne : settings.fields ≠ [])
    (hnodup : settings.fields.Nodup) (hprior : 0 ≤ settings.priorMatch ∧ settings.priorMatch ≤ 1) {records : List LinkRecord}
    {labeled : List LabeledPair} (hknown : ∀ p ∈ labeled, Known records p.left ∧ Known records p.right) :
    (∃ model, trainReferenceModel records labeled settings = .ok model ∧ model.fields.map (·.name) = settings.fields ∧
      (∀ pf ∈ model.fields, Uncertain pf.probM ∧ Uncertain pf.probU) ∧
      ∀ (records' : List LinkRecord) (pairs : List (String × String)), (∀ p ∈ pairs, Known records' p.1 ∧ Known records' p.2) →
        ∃ scores, predictReference log exp model records' pairs = .ok scores) ↔
      (2 ≤ settings.fields.length ∨ ∀ f ∈ settings.fields, ∀ isMatch, ∃ p ∈ labeled, p.isMatch = isMatch ∧ p.agreeOn records f = false) := by
  obtain ⟨model, hmodel, hpriorEq, hfields⟩ := @trained_fields F _ records labeled settings hnodup hknown
  have hlength : 0 < settings.fields.length := List.length_pos_iff.2 hne
  have hnames : model.fields.map (·.name) = settings.fields := by
    rw [hfields, List.map_map]
    exact List.map_id _
  have huncertain : (∀ pf ∈ model.fields, Uncertain pf.probM ∧ Uncertain pf.probU) ↔
      (2 ≤ settings.fields.length ∨ ∀ f ∈ settings.fields, ∀ isMatch, ∃ p ∈ labeled, p.isMatch = isMatch ∧ p.agreeOn records f = false) := by
    have hone : ∀ f ∈ settings.fields, ∀ isMatch, Uncertain (((labeledAs isMatch labeled).countP (LabeledPair.agreeOn records f) + 1 / 2 : F) /
        (1 / 2 * settings.fields.length + (labeledAs isMatch labeled).length)) ↔
        2 ≤ settings.fields.length ∨ ∃ p ∈ labeled, p.isMatch = isMatch ∧ p.agreeOn records f = false := by
      intro f _ isMatch
      rw [smoothed_uncertain List.countP_le_length hlength, labeledAs_agree]
    rw [hfields]
    constructor
    · intro hall
      by_cases htwo : 2 ≤ settings.fields.length
      · exact .inl htwo
      · refine .inr fun f hf isMatch => ?_
        obtain ⟨hm, hu⟩ := hall _ (List.mem_map.2 ⟨f, hf, rfl⟩)
        cases isMatch with
        | true => exact ((hone f hf true).1 hm).resolve_left htwo
        | false => exact ((hone f hf false).1 hu).resolve_left htwo
    · intro h pf hpf
      obtain ⟨f, hf, rfl⟩ := List.mem_map.1 hpf
      exact ⟨(hone f hf true).2 (h.imp_right fun h => h f hf true), (hone f hf false).2 (h.imp_right fun h => h f hf false)⟩
  rw [← huncertain]
  constructor
  · rintro ⟨model', hmodel', -, hall, -⟩
    cases hmodel.symm.trans hmodel'
    exact hall
  · intro hall
    exact ⟨model, hmodel, hnames, hall, fun records' pairs hpairs => predict_ok hexp (hpriorEq ▸ hprior) hall hpairs⟩

end

end

/-- Two records that the lone field tells apart, labeled both ways. -/
theorem linkage_sound_iff_lone :
    let records : List LinkRecord := [⟨"a", [("soundex", "H452")]⟩, ⟨"b", [("soundex", "W325")]⟩]
    let labeled : List LabeledPair := [⟨"a", "b", true⟩, ⟨"a", "b", false⟩]
    ∃ model : TrainedLinkageModel ℝ, trainReferenceModel records labeled { fields := ["soundex"] } = .ok model ∧
      ∃ scores, predictReference Real.log Real.exp model records [("a", "b")] = .ok scores := by
  intro records labeled
  have ha : Known records "a" := ⟨⟨"a", [("soundex", "H452")]⟩, rfl⟩
  have hb : Known records "b" := ⟨⟨"b", [("soundex", "W325")]⟩, rfl⟩
  have hlabeled : ∀ p ∈ labeled, Known records p.left ∧ Known records p.right := by
    intro p hp
    simp only [labeled, List.mem_cons, List.not_mem_nil, or_false] at hp
    rcases hp with rfl | rfl <;> exact ⟨ha, hb⟩
  have hapart : ∀ f ∈ ["soundex"], ∀ isMatch, ∃ p ∈ labeled, p.isMatch = isMatch ∧ p.agreeOn records f = false := by
    intro f hf isMatch
    obtain rfl := List.mem_singleton.1 hf
    cases isMatch with
    | true => exact ⟨⟨"a", "b", true⟩, by simp [labeled], rfl, rfl⟩
    | false => exact ⟨⟨"a", "b", false⟩, by simp [labeled], rfl, rfl⟩
  obtain ⟨model, hmodel, -, -, hpredict⟩ := (@linkage_sound_iff ℝ _ _ _ Real.log Real.exp Real.exp_pos { fields := ["soundex"] }
    (by simp) (by simp) (by norm_num) records labeled hlabeled).2 (.inr hapart)
  exact ⟨model, hmodel, hpredict records _ (by simpa using ⟨ha, hb⟩)⟩

/-- A lone field and no labeled pair. -/
theorem lone_field_certain : ¬ ∀ (fields : List String) (records : List LinkRecord) (labeled : List LabeledPair), fields ≠ [] →
    fields.Nodup → (∀ p ∈ labeled, Known records p.left ∧ Known records p.right) →
    ∃ model : TrainedLinkageModel ℚ, trainReferenceModel records labeled { fields := fields } = .ok model ∧
      ∀ pf ∈ model.fields, Uncertain pf.probM ∧ Uncertain pf.probU := by
  intro hall
  obtain ⟨model, hmodel, hfields⟩ := hall ["soundex"] [] [] (by simp) (by simp) nofun
  have hone : (trainReferenceModel [] [] ({ fields := ["soundex"] } : LinkageModelSettings ℚ)).toOption.map
      (fun model => model.fields.map (·.probM)) = some [1] := by decide +kernel
  rw [hmodel] at hone
  have hprobs : model.fields.map (·.probM) = [1] := Option.some.inj hone
  obtain ⟨pf, hpf, hprob⟩ : ∃ pf ∈ model.fields, pf.probM = 1 := by
    apply List.mem_map.1
    rw [hprobs]
    exact List.mem_singleton_self _
  have hlt := (hfields pf hpf).1.2
  rw [hprob] at hlt
  exact lt_irrefl _ hlt

end Umd.Linkage
