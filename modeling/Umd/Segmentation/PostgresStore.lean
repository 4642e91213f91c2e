import Umd.Lib.Orders
import Umd.Lib.Python
import Umd.Lib.Uuid
import Umd.Segmentation.Newest
/-!
# The segment store on PostgreSQL

A row for each source and deterministic key: the first segment put stays, whatever
its version. What a row is read back as comes from its key, taken apart at the marks,
and from its locator; its source id is 32 digits without hyphens. A registered segment
is found by its locator, with the newest version, if it is spelled as rows are read and
no later one is newer (`registered_kept`).
-/

namespace Umd.Segmentation.Postgres

open Umd.Lib Umd.Locators

/-! ## Matching with `LIKE` -/

/-- `LIKE`: `%` stands for any text and `_` for any character; a backslash takes the next one as it is. -/
def like : List Char → List Char → Bool
  | [] => fun text => text = []
  | '%' :: p => fun text => text.tails.any (like p)
  | '_' :: p => fun text => match text with
    | [] => false
    | _ :: cs => like p cs
  | '\\' :: c :: p => fun text => match text with
    | [] => false
    | d :: cs => c = d && like p cs
  | c :: p => fun text => match text with
    | [] => false
    | d :: cs => c = d && like p cs

theorem like_percent {p text : List Char} (h : ∃ a b, text = a ++ b ∧ like p b = true) : like ('%' :: p) text = true := by
  obtain ⟨a, b, rfl, hb⟩ := h
  exact List.any_eq_true.2 ⟨b, (List.mem_tails ..).2 (List.suffix_append a b), hb⟩

/-- A character of a pattern that is not the escape stands for itself, at least. -/
theorem like_cons {c : Char} {p cs : List Char} (hc : c ≠ '\\') (h : like p cs = true) : like (c :: p) (c :: cs) = true := by
  by_cases hpercent : c = '%'
  · subst hpercent
    exact like_percent ⟨['%'], cs, rfl, h⟩
  · by_cases hunder : c = '_'
    · subst hunder
      exact h
    · have hstep : like (c :: p) (c :: cs) = (decide (c = c) && like p cs) := by
        rw [like.eq_5] <;> simp_all
      rw [hstep, h, decide_eq_true rfl]
      rfl

theorem like_append {a p cs : List Char} (ha : '\\' ∉ a) (h : like p cs = true) : like (a ++ p) (a ++ cs) = true := by
  induction a with
  | nil => exact h
  | cons c a ih =>
    rw [List.mem_cons, not_or] at ha
    exact like_cons (Ne.symm ha.1) (ih ha.2)

/-- What stands anywhere between. -/
theorem like_within {a b c : List Char} (hb : '\\' ∉ b) : like ('%' :: (b ++ ['%'])) (a ++ (b ++ c)) = true :=
  like_percent ⟨a, b ++ c, rfl, like_append hb (like_percent ⟨c, [], (List.append_nil c).symm, rfl⟩)⟩

/-! ## The store -/

/-- A row of `segment`. -/
structure SegmentRow where
  sourceId : UuidValue
  segmentType : String
  deterministicKey : String
  locator : String
  ordinal : Option ℤ
deriving DecidableEq

/-- The column pair of the unique constraint. -/
def SegmentRow.unique (r : SegmentRow) : UuidValue × String := (r.sourceId, r.deterministicKey)

/-- The sources, and the table with its constraint. -/
structure SegmentDb where
  sources : List UuidValue
  rows : List SegmentRow := []
  keys : (rows.map SegmentRow.unique).Nodup := by exact .nil

/-- The row of a segment. -/
def rowOf (u : UuidValue) (s : RegisteredSegment) : SegmentRow where
  sourceId := u
  segmentType := s.segmentType
  deterministicKey := s.deterministicKey
  locator := s.locator
  ordinal := s.ordinal

/-- `put`: `ON CONFLICT DO NOTHING`. -/
def SegmentDb.put (db : SegmentDb) (s : RegisteredSegment) : Except PyError (SegmentDb × Bool) :=
  match pgUuid s.sourceId with
  | none => .error .valueError
  | some u =>
    if h : (u, s.deterministicKey) ∈ db.rows.map SegmentRow.unique then .ok (db, false)
    else if u ∈ db.sources then
      .ok ({ db with
        rows := db.rows ++ [rowOf u s]
        keys := by
          rw [List.map_append, List.nodup_append]
          refine ⟨db.keys, List.nodup_singleton _, fun a ha b hb hab => h ?_⟩
          rw [hab, List.mem_singleton.1 hb] at ha
          exact ha }, true)
    else .error .runtimeError

variable (t : Tables)

/-- `key.split("#", 2)`: the identity, the modality if there is one, and the path. -/
def splitKey (key : String) : String × Option String × String :=
  match splitFirst ['#'] key.toList with
  | none => (key, none, "")
  | some (identity, rest) =>
    match splitFirst ['#'] rest with
    | none => (String.ofList identity, some (String.ofList rest), "")
    | some (modality, path) => (String.ofList identity, some (String.ofList modality), String.ofList path)

/-- `PipelineVersion("unknown", "unknown", "unknown")`. -/
def unknownVersion : PipelineVersion := { segmenter := "unknown", decoder := "unknown", renderer := "unknown", version := 0 }

/-- `_rows_to_segments`, of one row. -/
def segmentOf (r : SegmentRow) : Except PyError RegisteredSegment := do
  let parsed ← parseLocator t r.locator
  let (identity, named, path) := splitKey r.deterministicKey
  let modality := named.getD parsed.modality
  let segmentId ← deterministicSegmentId t identity modality path
  return {
    sourceId := r.sourceId.hex
    deterministicKey := r.deterministicKey
    segmentId := segmentId
    segmentType := r.segmentType
    structuralPath := path
    modality := modality
    version := parsed.version.getD unknownVersion
    locator := r.locator
    ordinal := r.ordinal
    isNew := false }

/-- The rows that a lookup selects. -/
def SegmentDb.selected (db : SegmentDb) (u : UuidValue) (modality : String) : List SegmentRow :=
  db.rows.filter fun r => r.sourceId = u && like ("%#".toList ++ modality.toList ++ "#%".toList) r.deterministicKey.toList

/-- `find_by_locator`. -/
def SegmentDb.findByLocator (db : SegmentDb) (sourceId modality segmentId : String) : Except PyError (List RegisteredSegment) :=
  match pgUuid sourceId with
  | none => .error .valueError
  | some u => do
    let segments ← (db.selected u modality).mapM (segmentOf t)
    return segments.filter fun s => s.sourceId = sourceId && s.modality = modality && s.segmentId = segmentId

/-! ## Registering -/

/-- The body of the loop of `register`. -/
def registerOne (db : SegmentDb) (inp : SegmentInput) : Except PyError (SegmentDb × RegisteredSegment) := do
  let s ← build t inp
  let (db, isNew) ← db.put s
  return (db, { s with isNew := isNew })

/-- The loop of `register`: what is reported until an input is refused. -/
def registerEach (db : SegmentDb) : List SegmentInput → SegmentDb × List RegisteredSegment × Option PyError
  | [] => (db, [], none)
  | inp :: inputs =>
    match registerOne t db inp with
    | .error e => (db, [], some e)
    | .ok (db, s) =>
      let (db, reported, error) := registerEach db inputs
      (db, s :: reported, error)

/-- `register`. -/
def register (db : SegmentDb) (batch : List SegmentInput) : SegmentDb × Except PyError SegmentBatch :=
  let (db, reported, error) := registerEach t db batch
  match error with
  | some e => (db, .error e)
  | none => (db, .ok { created := reported.filter (·.isNew), existing := reported.filter (!·.isNew), total := batch.length })

/-- A store in use, and every segment that its calls have registered, those that were refused later included. -/
structure Session where
  db : SegmentDb
  registered : List RegisteredSegment := []

/-- One call of `register`. -/
def Session.step (s : Session) (batch : List SegmentInput) : Session where
  db := (register t s.db batch).1
  registered := s.registered ++ (registerEach t s.db batch).2.1

/-- Calls, one after the other, on an empty table. -/
def Session.run (sources : List UuidValue) (calls : List (List SegmentInput)) : Session :=
  calls.foldl (Session.step t) { db := { sources := sources } }

/-! ## What a store in use is to hold -/

/-- Two segments of one row. -/
def SameRow (s s' : RegisteredSegment) : Prop := pgUuid s.sourceId = pgUuid s'.sourceId ∧ s.deterministicKey = s'.deterministicKey

/-- A segment is among what is found under the source id, modality and segment id of a locator. -/
def Located (db : SegmentDb) (locator : String) (m : RegisteredSegment) : Prop :=
  ∃ l found, parseLocator t locator = .ok l ∧ db.findByLocator t l.sourceId l.modality l.segment = .ok found ∧ m ∈ found

/-- A segment is what the only row of a source and key is read as. -/
def OnlyRow (db : SegmentDb) (s m : RegisteredSegment) : Prop :=
  ∃ u row, pgUuid s.sourceId = some u ∧ db.rows.filter (fun r => r.unique = (u, s.deterministicKey)) = [row] ∧ segmentOf t row = .ok m

/-- A version has the tag of one that was registered for a row, and none that is newer has another. -/
def NewestOf (newer : PipelineVersion → PipelineVersion → Bool) (registered : List RegisteredSegment) (s : RegisteredSegment)
    (version : PipelineVersion) : Prop :=
  ∃ best ∈ registered, SameRow best s ∧ version.tag = best.version.tag ∧
    ∀ s' ∈ registered, SameRow s' s → newer s'.version best.version = true → s'.version.tag = best.version.tag

/-- A registered segment is found by its locator in its only row, and that has the newest version. -/
def Kept (newer : PipelineVersion → PipelineVersion → Bool) (s : Session) (seg : RegisteredSegment) : Prop :=
  ∃ m, Located t s.db seg.locator m ∧ OnlyRow t s.db seg m ∧ NewestOf newer s.registered seg m.version

/-- An input that is spelled as its row and its locator are read. -/
structure AsRead (inp : SegmentInput) : Prop where
  addressable : Addressable t inp
  source : ∀ u, pgUuid inp.sourceId = some u → u.hex = inp.sourceId
  work : ∀ work ∈ inp.workId, '#' ∉ work.toList
  path : normStructuralPath t (normStructuralPath t inp.structuralPath) = normStructuralPath t inp.structuralPath

/-- A segment that is not newer than the one whose row is there. -/
def NotNewer (newer : PipelineVersion → PipelineVersion → Bool) (registered : List RegisteredSegment) (s : RegisteredSegment) : Prop :=
  ∀ first ∈ registered, first.isNew = true → SameRow first s → newer s.version first.version = true → s.version.tag = first.version.tag

/-- A call whose inputs, up to one that is refused, are as they are read, and no newer than what is there. -/
def EachInStep (newer : PipelineVersion → PipelineVersion → Bool) : Session → List SegmentInput → Prop
  | _, [] => True
  | s, inp :: inputs =>
    match registerOne t s.db inp with
    | .error _ => True
    | .ok (db, m) => AsRead t inp ∧ NotNewer newer s.registered m ∧ EachInStep newer { db := db, registered := s.registered ++ [m] } inputs

def RunInStep (newer : PipelineVersion → PipelineVersion → Bool) : Session → List (List SegmentInput) → Prop
  | _, [] => True
  | s, batch :: calls => EachInStep t newer s batch ∧ RunInStep newer (s.step t batch) calls

variable {t}

/-! ## What a row is read as -/

theorem identity_plain {sha512 identity : String} {workId : Option String} (h : canonicalIdentity sha512 workId = .ok identity)
    (hwork : ∀ work ∈ workId, '#' ∉ work.toList) : '#' ∉ identity.toList := by
  unfold canonicalIdentity at h
  split at h
  · cases h
  · rename_i hsha
    rw [Bool.or_eq_true, not_or] at hsha
    have hdigits : ∀ c ∈ sha512.toList, Events.isHex c = true := by simpa using hsha.2
    have hhex : '#' ∉ sha512.toList := fun hc => absurd (hdigits _ hc) (by decide)
    split at h
    · rename_i work hw
      obtain rfl := Except.ok.inj h
      have hplain := hwork work (Option.mem_filter_iff.1 hw).1
      simp [String.toList_append, hplain, hhex]
    · obtain rfl := Except.ok.inj h
      simp [String.toList_append, hhex]

/-- A key is taken apart as it was put together. -/
theorem splitKey_key {identity modality path : String} (hidentity : '#' ∉ identity.toList) (hmodality : '#' ∉ modality.toList) :
    splitKey (deterministicKey t identity modality path) = (identity, some modality, normStructuralPath t path) := by
  have hone : ∀ {a : List Char}, '#' ∉ a → ¬ ['#'] <:+: a := fun ha hin => ha (hin.subset (List.mem_singleton_self _))
  have htext : (deterministicKey t identity modality path).toList =
      identity.toList ++ ['#'] ++ (modality.toList ++ ['#'] ++ (normStructuralPath t path).toList) := by
    simp [deterministicKey, String.toList_append]
  unfold splitKey
  rw [htext, splitFirst_append List.not_mem_nil (hone hidentity)]
  dsimp only
  rw [splitFirst_append List.not_mem_nil (hone hmodality)]
  simp only [String.ofList_toList]

/-- What the locator of a segment names, and the version it has. -/
theorem AsRead.parsed {inp : SegmentInput} (h : AsRead t inp) {s : RegisteredSegment} (hs : build t inp = .ok s) :
    ∃ l, parseLocator t s.locator = .ok l ∧ l.sourceId = inp.sourceId ∧ l.modality = inp.modality ∧ l.segment = s.segmentId ∧
      l.version = some { inp.version with version := 0 } := by
  obtain ⟨identity, segmentId, locator, -, -, hmake, rfl⟩ := build_ok hs
  have ha := h.addressable
  obtain ⟨hlocator, -, -⟩ := Locator.make_ok hmake
  obtain ⟨frag, hfrag, hbytes⟩ := ha.frag
  have hself : Locator.make t locator.sourceId inp.modality locator.segment (some inp.version) locator.frag = .ok locator := by
    rw [hlocator] at hmake ⊢
    exact hmake
  have hparse := parse_canonical hself ha.modality (by rw [hlocator]; exact ha.source) inp.made ha.version
    (by rw [hlocator]; exact hfrag) hbytes
  refine ⟨_, hparse, ?_, ?_, ?_, rfl⟩
  · rw [hlocator]
  · rw [hlocator]
    exact ha.modality
  · rw [hlocator]

/-- The parts of the key of a segment. -/
theorem AsRead.split {inp : SegmentInput} (h : AsRead t inp) {s : RegisteredSegment} (hs : build t inp = .ok s) :
    ∃ identity, splitKey s.deterministicKey = (identity, some inp.modality, normStructuralPath t inp.structuralPath) ∧
      deterministicSegmentId t identity inp.modality (normStructuralPath t inp.structuralPath) = .ok s.segmentId := by
  have hplain := h.addressable.plain hs
  obtain ⟨identity, segmentId, locator, hid, hseg, -, rfl⟩ := build_ok hs
  refine ⟨identity, splitKey_key (identity_plain hid h.work) hplain, ?_⟩
  unfold deterministicSegmentId at hseg ⊢
  rw [h.path]
  exact hseg

/-- The row of a segment is read as that segment, up to the spelling of its path and the ordinal of its version. -/
theorem AsRead.read {inp : SegmentInput} (h : AsRead t inp) {s : RegisteredSegment} (hs : build t inp = .ok s) (u : UuidValue) :
    segmentOf t (rowOf u s) = .ok { s with
      sourceId := u.hex, structuralPath := normStructuralPath t inp.structuralPath, modality := inp.modality
      version := { inp.version with version := 0 }, isNew := false } := by
  obtain ⟨l, hparse, -, -, -, hversion⟩ := h.parsed hs
  obtain ⟨identity, hsplit, hsegment⟩ := h.split hs
  unfold segmentOf rowOf
  dsimp only
  rw [hparse]
  dsimp only [bind, Except.bind]
  rw [hsplit]
  dsimp only [Option.getD]
  rw [hsegment, hversion]
  rfl

/-- A row of a segment is selected for its source and modality. -/
theorem AsRead.selected {inp : SegmentInput} (h : AsRead t inp) {s : RegisteredSegment} (hs : build t inp = .ok s) :
    like ("%#".toList ++ inp.modality.toList ++ "#%".toList) s.deterministicKey.toList = true := by
  have hpattern : modalityPattern inp.modality = true := by
    obtain ⟨_, _, _, -, -, hmake, -⟩ := build_ok hs
    rw [← h.addressable.modality]
    exact (Locator.make_ok hmake).2.1
  obtain ⟨identity, segmentId, locator, -, -, -, rfl⟩ := build_ok hs
  have hplain : '\\' ∉ '#' :: (inp.modality.toList ++ ['#']) := by
    have hchar : '\\' ∉ inp.modality.toList := by
      intro hc
      unfold modalityPattern at hpattern
      rw [Bool.and_eq_true, List.all_eq_true] at hpattern
      exact absurd (hpattern.2 _ hc) (by decide)
    simp [hchar]
  have hkey : (deterministicKey t identity inp.modality inp.structuralPath).toList =
      identity.toList ++ ('#' :: (inp.modality.toList ++ ['#']) ++ (normStructuralPath t inp.structuralPath).toList) := by
    simp [deterministicKey, String.toList_append]
  rw [hkey]
  have hwithin := like_within (a := identity.toList) (c := (normStructuralPath t inp.structuralPath).toList) hplain
  simpa using hwithin

/-! ## What a run keeps -/

theorem filter_key {α κ : Type} [DecidableEq κ] {key : α → κ} {xs : List α} {x : α} {k : κ} (hnodup : (xs.map key).Nodup) (hx : x ∈ xs)
    (hk : key x = k) : xs.filter (fun y => key y = k) = [x] := by
  subst hk
  induction xs with
  | nil => cases hx
  | cons y ys ih =>
    rw [List.map_cons, List.nodup_cons] at hnodup
    rcases List.mem_cons.1 hx with rfl | hx
    · rw [List.filter_cons_of_pos (by simp), List.filter_eq_nil_iff.2 fun z hz heq => ?_]
      exact hnodup.1 (List.mem_map.2 ⟨z, hz, of_decide_eq_true heq⟩)
    · rw [List.filter_cons_of_neg, ih hnodup.2 hx]
      intro heq
      exact hnodup.1 (List.mem_map.2 ⟨x, hx, (of_decide_eq_true heq).symm⟩)

/-- The rows are those of the segments that were new, and every segment has one, with no newer version registered. -/
structure Invariant (newer : PipelineVersion → PipelineVersion → Bool) (s : Session) : Prop where
  rows : ∀ r ∈ s.db.rows, ∃ inp m u, AsRead t inp ∧ build t inp = .ok m ∧ pgUuid inp.sourceId = some u ∧ r = rowOf u m ∧
    { m with isNew := true } ∈ s.registered
  registered : ∀ m ∈ s.registered, ∃ inp built u, AsRead t inp ∧ build t inp = .ok built ∧ m = { built with isNew := m.isNew } ∧
    pgUuid inp.sourceId = some u ∧ (u, m.deterministicKey) ∈ s.db.rows.map SegmentRow.unique
  newest : ∀ m ∈ s.registered, ∀ first ∈ s.registered, first.isNew = true → SameRow first m →
    newer m.version first.version = true → m.version.tag = first.version.tag

theorem sourceId_of_build {inp : SegmentInput} {s : RegisteredSegment} (h : build t inp = .ok s) : s.sourceId = inp.sourceId := by
  obtain ⟨_, _, _, -, -, -, rfl⟩ := build_ok h
  rfl

/-- What one input does: a segment is reported, and its row is there, or is put. -/
theorem registerOne_ok {db db' : SegmentDb} {inp : SegmentInput} {m : RegisteredSegment} (h : registerOne t db inp = .ok (db', m)) :
    ∃ built u, build t inp = .ok built ∧ pgUuid inp.sourceId = some u ∧ m = { built with isNew := m.isNew } ∧
      ((m.isNew = false ∧ db' = db ∧ (u, m.deterministicKey) ∈ db.rows.map SegmentRow.unique) ∨
        (m.isNew = true ∧ (u, m.deterministicKey) ∉ db.rows.map SegmentRow.unique ∧ db'.rows = db.rows ++ [rowOf u built])) := by
  obtain ⟨built, hbuilt, h⟩ := bind_ok h
  obtain ⟨⟨db₁, isNew⟩, hput, h⟩ := bind_ok h
  obtain ⟨rfl, rfl⟩ := Prod.mk.inj (Except.ok.inj h)
  unfold SegmentDb.put at hput
  rw [sourceId_of_build hbuilt] at hput
  split at hput
  · cases hput
  · rename_i u hu
    refine ⟨built, u, hbuilt, hu, rfl, ?_⟩
    split at hput
    · rename_i hin
      obtain ⟨rfl, rfl⟩ := Prod.mk.inj (Except.ok.inj hput)
      exact .inl ⟨rfl, rfl, hin⟩
    · rename_i hout
      split at hput
      · obtain ⟨rfl, rfl⟩ := Prod.mk.inj (Except.ok.inj hput)
        exact .inr ⟨rfl, hout, rfl⟩
      · cases hput

section Runs

variable {newer : PipelineVersion → PipelineVersion → Bool}

/-- An input in step keeps the invariant. -/
theorem Invariant.one {s : Session} (h : Invariant (t := t) newer s) {db' : SegmentDb} {inp : SegmentInput} {m : RegisteredSegment}
    (hone : registerOne t s.db inp = .ok (db', m)) (hread : AsRead t inp) (hnewer : NotNewer newer s.registered m) :
    Invariant (t := t) newer { db := db', registered := s.registered ++ [m] } := by
  obtain ⟨built, u, hbuilt, hu, hm, hput⟩ := registerOne_ok hone
  have hmsource : m.sourceId = inp.sourceId := by rw [hm, ← sourceId_of_build hbuilt]
  rcases hput with ⟨hold, rfl, hin⟩ | ⟨hnew, hout, hrows⟩
  · refine ⟨fun r hr => ?_, fun m' hm' => ?_, fun m' hm' first hfirst hfresh hsame hlater => ?_⟩
    · obtain ⟨inp', m', u', hread', hbuilt', hu', hr', hin'⟩ := h.rows r hr
      exact ⟨inp', m', u', hread', hbuilt', hu', hr', List.mem_append_left _ hin'⟩
    · rcases List.mem_append.1 hm' with hm' | hm'
      · exact h.registered m' hm'
      · rw [List.mem_singleton.1 hm']
        exact ⟨inp, built, u, hread, hbuilt, hm, hu, hin⟩
    · have hfirst' : first ∈ s.registered := by
        rcases List.mem_append.1 hfirst with hfirst | hfirst
        · exact hfirst
        · rw [List.mem_singleton.1 hfirst, hold] at hfresh
          cases hfresh
      rcases List.mem_append.1 hm' with hm' | hm'
      · exact h.newest m' hm' first hfirst' hfresh hsame hlater
      · rw [List.mem_singleton.1 hm'] at hsame hlater ⊢
        exact hnewer first hfirst' hfresh hsame hlater
  · -- no segment was registered for the row before
    have hnone : ∀ m' ∈ s.registered, ¬ SameRow m' m := by
      rintro m' hm' ⟨hsource, hkey⟩
      obtain ⟨inp', built', u', -, hbuilt', heq, hu', hin'⟩ := h.registered m' hm'
      have hsource' : m'.sourceId = inp'.sourceId := by rw [heq, ← sourceId_of_build hbuilt']
      rw [hsource', hmsource, hu', hu] at hsource
      rw [Option.some.inj hsource, hkey] at hin'
      exact hout hin'
    refine ⟨fun r hr => ?_, fun m' hm' => ?_, fun m' hm' first hfirst hfresh hsame hlater => ?_⟩
    · rw [hrows] at hr
      rcases List.mem_append.1 hr with hr | hr
      · obtain ⟨inp', m', u', hread', hbuilt', hu', hr', hin'⟩ := h.rows r hr
        exact ⟨inp', m', u', hread', hbuilt', hu', hr', List.mem_append_left _ hin'⟩
      · refine ⟨inp, built, u, hread, hbuilt, hu, List.mem_singleton.1 hr, List.mem_append_right _ ?_⟩
        rw [hnew] at hm
        exact hm ▸ List.mem_singleton_self _
    · dsimp only
      rw [hrows, List.map_append]
      rcases List.mem_append.1 hm' with hm' | hm'
      · obtain ⟨inp', built', u', hread', hbuilt', heq, hu', hin'⟩ := h.registered m' hm'
        exact ⟨inp', built', u', hread', hbuilt', heq, hu', List.mem_append_left _ hin'⟩
      · rw [List.mem_singleton.1 hm']
        refine ⟨inp, built, u, hread, hbuilt, hm, hu, List.mem_append_right _ ?_⟩
        rw [hm]
        exact List.mem_singleton_self _
    · rcases List.mem_append.1 hm' with hm' | hm' <;> rcases List.mem_append.1 hfirst with hfirst | hfirst
      · exact h.newest m' hm' first hfirst hfresh hsame hlater
      · rw [List.mem_singleton.1 hfirst] at hsame
        exact absurd ⟨hsame.1.symm, hsame.2.symm⟩ (hnone m' hm')
      · rw [List.mem_singleton.1 hm'] at hsame
        exact absurd hsame (hnone first hfirst)
      · rw [List.mem_singleton.1 hm', List.mem_singleton.1 hfirst]

theorem Invariant.each {inputs : List SegmentInput} {s : Session} (h : Invariant (t := t) newer s) (hstep : EachInStep t newer s inputs) :
    Invariant (t := t) newer { db := (registerEach t s.db inputs).1, registered := s.registered ++ (registerEach t s.db inputs).2.1 } := by
  induction inputs generalizing s with
  | nil =>
    unfold registerEach
    rwa [List.append_nil]
  | cons inp inputs ih =>
    unfold EachInStep at hstep
    unfold registerEach
    cases hone : registerOne t s.db inp with
    | error e =>
      dsimp only
      rwa [List.append_nil]
    | ok p =>
      obtain ⟨db', m⟩ := p
      rw [hone] at hstep
      have hrest := ih (h.one hone hstep.1 hstep.2.1) hstep.2.2
      dsimp only at hrest ⊢
      rwa [List.append_assoc] at hrest

theorem register_db (db : SegmentDb) (batch : List SegmentInput) : (register t db batch).1 = (registerEach t db batch).1 := by
  unfold register
  dsimp only
  split <;> rfl

theorem run_invariant {calls : List (List SegmentInput)} {s : Session} (h : Invariant (t := t) newer s) (hrun : RunInStep t newer s calls) :
    Invariant (t := t) newer (calls.foldl (Session.step t) s) := by
  induction calls generalizing s with
  | nil => exact h
  | cons batch calls ih =>
    refine ih ?_ hrun.2
    unfold Session.step
    rw [register_db]
    exact h.each hrun.1

/-- What the invariant says of a registered segment. -/
theorem Invariant.kept {s : Session} (h : Invariant (t := t) newer s) {seg : RegisteredSegment} (hseg : seg ∈ s.registered) :
    Kept t newer s seg := by
  obtain ⟨inp, built, u, hread, hbuilt, heq, hu, hin⟩ := h.registered seg hseg
  obtain ⟨row, hrow, hunique⟩ := List.mem_map.1 hin
  obtain ⟨inp₀, m₀, u₀, hread₀, hbuilt₀, hu₀, hrow₀, hfirst⟩ := h.rows row hrow
  rw [hrow₀] at hunique
  obtain ⟨hu', hkey₀⟩ := Prod.mk.inj hunique
  obtain rfl : u₀ = u := hu'
  have hkey : m₀.deterministicKey = built.deterministicKey := hkey₀.trans (by rw [heq])
  have hsource : pgUuid seg.sourceId = some u₀ := by
    rw [heq]
    exact (sourceId_of_build hbuilt).symm ▸ hu
  have hreading := hread₀.read hbuilt₀ u₀
  rw [← hrow₀] at hreading
  -- both keys are taken apart the same
  obtain ⟨identity, hsplit, hsegment⟩ := hread.split hbuilt
  obtain ⟨identity₀, hsplit₀, hsegment₀⟩ := hread₀.split hbuilt₀
  rw [hkey, hsplit] at hsplit₀
  obtain ⟨rfl, hparts⟩ := Prod.mk.inj hsplit₀
  obtain ⟨hmodality, hpath⟩ := Prod.mk.inj hparts
  have hmodality := Option.some.inj hmodality
  rw [← hmodality, ← hpath, hsegment] at hsegment₀
  have hsegmentId := Except.ok.inj hsegment₀
  refine ⟨_, ?_, ⟨u₀, row, hsource, ?_, hreading⟩, { m₀ with isNew := true }, hfirst, ⟨?_, hkey₀⟩, ?_, fun s' hs' hsame hlater => ?_⟩
  · obtain ⟨l, hparse, hlsource, hlmodality, hlsegment, -⟩ := hread.parsed hbuilt
    have hall : ∀ r ∈ s.db.selected u₀ l.modality, ∃ m, segmentOf t r = .ok m := by
      intro r hr
      obtain ⟨inp', m', u', hread', hbuilt', -, rfl, -⟩ := h.rows r (List.mem_filter.1 hr).1
      exact ⟨_, hread'.read hbuilt' u'⟩
    obtain ⟨segments, hsegments⟩ := mapM_succeeds hall
    have hselected : row ∈ s.db.selected u₀ l.modality := by
      refine List.mem_filter.2 ⟨hrow, ?_⟩
      rw [hrow₀, hlmodality, Bool.and_eq_true, decide_eq_true_iff]
      have hlike := hread.selected hbuilt
      rw [← hkey] at hlike
      exact ⟨rfl, hlike⟩
    obtain ⟨m, hm, hmrow⟩ := mapM_each hsegments row hselected
    rw [hreading] at hmrow
    refine ⟨l, _, by rw [heq]; exact hparse, by rw [SegmentDb.findByLocator, hlsource, hu]; exact of_bind hsegments rfl, ?_⟩
    rw [List.mem_filter, Except.ok.inj hmrow]
    refine ⟨hm, ?_⟩
    simp only [← Except.ok.inj hmrow, hlmodality, hlsegment, hread.source u₀ hu, hmodality, hsegmentId, decide_true, Bool.and_self]
  · refine filter_key s.db.keys hrow ?_
    rw [hrow₀]
    exact Prod.ext rfl hkey₀
  · rw [hsource, ← hu₀, ← sourceId_of_build hbuilt₀]
  · obtain ⟨_, _, _, -, -, -, rfl⟩ := build_ok hbuilt₀
    rfl
  · refine h.newest s' hs' _ hfirst rfl ⟨?_, hkey₀.trans hsame.2.symm⟩ hlater
    rw [hsame.1, hsource, ← hu₀, ← sourceId_of_build hbuilt₀]

/-- In every run of calls that is in step, each registered segment is found by its locator, in the only row of its source and key,
and that has the newest version. -/
theorem registered_kept (sources : List UuidValue) (calls : List (List SegmentInput))
    (hrun : RunInStep t newer { db := { sources := sources } } calls) :
    ∀ seg ∈ (Session.run t sources calls).registered, Kept t newer (Session.run t sources calls) seg := by
  intro seg hseg
  have hstart : Invariant (t := t) newer { db := { sources := sources } } := ⟨nofun, nofun, nofun⟩
  exact (run_invariant hstart hrun).kept hseg

/-- Inputs of one version are in step if they are as they are read. -/
theorem eachInStep_of_tag {tag : String} {inputs : List SegmentInput} {s : Session}
    (hinputs : ∀ inp ∈ inputs, AsRead t inp ∧ inp.version.tag = tag) (hs : ∀ m ∈ s.registered, m.version.tag = tag) :
    EachInStep t newer s inputs ∧ ∀ m ∈ (registerEach t s.db inputs).2.1, m.version.tag = tag := by
  induction inputs generalizing s with
  | nil => exact ⟨trivial, nofun⟩
  | cons inp inputs ih =>
    unfold EachInStep registerEach
    cases hone : registerOne t s.db inp with
    | error e => exact ⟨trivial, nofun⟩
    | ok p =>
      obtain ⟨db', m⟩ := p
      obtain ⟨hread, htag⟩ := hinputs inp (List.mem_cons_self ..)
      have hm : m.version.tag = tag := by
        obtain ⟨built, u, hbuilt, -, heq, -⟩ := registerOne_ok hone
        obtain ⟨_, _, _, -, -, -, rfl⟩ := build_ok hbuilt
        rw [heq]
        exact htag
      have hmore : ∀ m' ∈ s.registered ++ [m], m'.version.tag = tag := by
        intro m' hm'
        rcases List.mem_append.1 hm' with hm' | hm'
        · exact hs m' hm'
        · rw [List.mem_singleton.1 hm', hm]
      obtain ⟨hrest, hreported⟩ := ih (s := ⟨db', s.registered ++ [m]⟩) (fun inp' hinp' => hinputs inp' (List.mem_cons_of_mem _ hinp')) hmore
      refine ⟨⟨hread, fun first hfirst _ _ _ => hm.trans (hs first hfirst).symm, hrest⟩, fun m' hm' => ?_⟩
      rcases List.mem_cons.1 hm' with rfl | hm'
      · exact hm
      · exact hreported m' hm'

theorem runInStep_of_tag {tag : String} {calls : List (List SegmentInput)} {s : Session}
    (hinputs : ∀ batch ∈ calls, ∀ inp ∈ batch, AsRead t inp ∧ inp.version.tag = tag) (hs : ∀ m ∈ s.registered, m.version.tag = tag) :
    RunInStep t newer s calls := by
  induction calls generalizing s with
  | nil => trivial
  | cons batch calls ih =>
    obtain ⟨hstep, hreported⟩ := @eachInStep_of_tag _ newer _ _ _ (hinputs batch (List.mem_cons_self ..)) hs
    refine ⟨hstep, ih (fun batch' hb => hinputs batch' (List.mem_cons_of_mem _ hb)) fun m hm => ?_⟩
    rcases List.mem_append.1 hm with hm | hm
    · exact hs m hm
    · exact hreported m hm

end Runs

/-- The id of a source, in 32 digits. -/
def zeroId : UuidValue := ⟨List.replicate 32 0, rfl⟩

/-- A page of the source, by one of two decoders. -/
def decodedPage (sourceId : String) (second : Bool) : SegmentInput :=
  { pageInput "text" with
    sourceId := sourceId
    version := { segmenter := "text", decoder := if second then "pandoc3" else "pandoc2", renderer := "epub3", version := 0 }
    made := by cases second <;> simp [PipelineVersion.Made, componentMarks] }

/-- The order of `newest_version`. -/
def laterVersion (v w : PipelineVersion) : Bool := versionLt w v

theorem registered_kept_twice :
    (Session.run asciiTables [zeroId] [[decodedPage zeroId.hex false], [decodedPage zeroId.hex false]]).registered.Forall
      (Kept asciiTables laterVersion (Session.run asciiTables [zeroId] [[decodedPage zeroId.hex false], [decodedPage zeroId.hex false]])) := by
  have hread : AsRead asciiTables (decodedPage zeroId.hex false) := by
    refine ⟨⟨by decide +kernel, ⟨by decide +kernel, by decide +kernel, by decide +kernel, by decide +kernel⟩, ?_, none, rfl, rfl⟩, ?_, (fun _ hmem => by cases hmem),
      by decide +kernel⟩
    · simp [PlainVersion, Projections.isSpace, decodedPage]
    · intro u hu
      have hzero : pgUuid (decodedPage zeroId.hex false).sourceId = some zeroId := by decide +kernel
      rw [hzero] at hu
      rw [← Option.some.inj hu]
      rfl
  have hinputs : ∀ batch ∈ [[decodedPage zeroId.hex false], [decodedPage zeroId.hex false]], ∀ inp ∈ batch,
      AsRead asciiTables inp ∧ inp.version.tag = (decodedPage zeroId.hex false).version.tag := by
    intro batch hb inp hinp
    obtain rfl : batch = [decodedPage zeroId.hex false] := by simpa using hb
    obtain rfl := List.mem_singleton.1 hinp
    exact ⟨hread, rfl⟩
  rw [List.forall_iff_forall_mem]
  exact registered_kept _ _ (runInStep_of_tag hinputs fun _ hmem => by cases hmem)

/-- The store after the call with a page whose source id has hyphens. -/
def hyphened : Session := Session.run asciiTables [zeroId] [[decodedPage zeroId.dashed false]]

/-- The store after the same page of an older decoder, and of a newer one. -/
def upgraded : Session := Session.run asciiTables [zeroId] [[decodedPage zeroId.hex false], [decodedPage zeroId.hex true]]

/-- What is found has its source id in plain digits, and that is the one which was asked for. -/
theorem found_hex {db : SegmentDb} {sourceId modality segmentId : String} {found : List RegisteredSegment}
    (h : db.findByLocator t sourceId modality segmentId = .ok found) : ∀ m ∈ found, m.sourceId = sourceId ∧ ∃ u : UuidValue, m.sourceId = u.hex := by
  unfold SegmentDb.findByLocator at h
  split at h
  · cases h
  · obtain ⟨segments, hsegments, hfilter⟩ := bind_ok h
    obtain rfl := Except.ok.inj hfilter
    intro m hm
    obtain ⟨hin, hasked⟩ := List.mem_filter.1 hm
    obtain ⟨r, -, hr⟩ := mapM_mem hsegments m hin
    obtain ⟨parsed, -, hr⟩ := bind_ok hr
    obtain ⟨segment, -, hr⟩ := bind_ok hr
    obtain rfl := Except.ok.inj hr
    simp only [Bool.and_eq_true, decide_eq_true_eq] at hasked
    exact ⟨hasked.1.1, r.sourceId, rfl⟩

/-- The row of an input that is put, and the one that is there. -/
theorem registerOne_put {db : SegmentDb} {inp : SegmentInput} {s : RegisteredSegment} {u : UuidValue} (hb : build t inp = .ok s)
    (hu : pgUuid s.sourceId = some u) :
    (u ∈ db.sources → (u, s.deterministicKey) ∉ db.rows.map SegmentRow.unique →
      ∃ db', registerOne t db inp = .ok (db', { s with isNew := true }) ∧ db'.rows = db.rows ++ [rowOf u s]) ∧
    ((u, s.deterministicKey) ∈ db.rows.map SegmentRow.unique → registerOne t db inp = .ok (db, { s with isNew := false })) := by
  constructor
  · intro hin hnew
    have hput : ∃ db', db.put s = .ok (db', true) ∧ db'.rows = db.rows ++ [rowOf u s] := by
      unfold SegmentDb.put
      rw [hu]
      dsimp only
      rw [dif_neg hnew, if_pos hin]
      exact ⟨_, rfl, rfl⟩
    obtain ⟨db', hput, hrows⟩ := hput
    exact ⟨db', of_bind hb (of_bind hput rfl), hrows⟩
  · intro hthere
    have hput : db.put s = .ok (db, false) := by
      unfold SegmentDb.put
      rw [hu]
      dsimp only
      rw [dif_pos hthere]
    exact of_bind hb (of_bind hput rfl)

/-- A call for one input. -/
theorem step_one {s : Session} {db : SegmentDb} {inp : SegmentInput} {m : RegisteredSegment} (h : registerOne t s.db inp = .ok (db, m)) :
    s.step t [inp] = { db := db, registered := s.registered ++ [m] } := by
  have heach : registerEach t s.db [inp] = (db, [m], none) := by
    unfold registerEach
    rw [h]
    rfl
  unfold Session.step
  rw [register_db, heach]

/-- The row of a page under either of the two decoders. -/
theorem build_decoded {sourceId : String} {l : Locator} (hl : Locator.make asciiTables sourceId "text" pageSegment none none = .ok l)
    (second : Bool) : ∃ s, build asciiTables (decodedPage sourceId second) = .ok s ∧ s.sourceId = sourceId ∧
      s.deterministicKey = deterministicKey asciiTables ("source:" ++ (pageInput "text").sourceSha512) "text" "page/1" ∧
      s.version = (decodedPage sourceId second).version ∧
      s.locator = { l with version := some (decodedPage sourceId second).version, frag := none }.canonical :=
  ⟨_, @build_text (decodedPage sourceId second) _ rfl rfl rfl rfl rfl hl, rfl, rfl, rfl, rfl⟩

/-- A page whose source id has hyphens is not found; and the row of the older decoder stays. -/
theorem registered_lost : ¬ (∀ seg ∈ hyphened.registered, Kept asciiTables laterVersion hyphened seg) ∧
    ¬ ∀ seg ∈ upgraded.registered, Kept asciiTables laterVersion upgraded seg := by
  have hmake : ∀ sourceId ∈ [zeroId.hex, zeroId.dashed], Locator.make asciiTables sourceId "text" pageSegment none none =
      .ok { sourceId := sourceId, modality := "text", segment := pageSegment } := by decide +kernel
  constructor
  · intro hall
    obtain ⟨s, hb, hsource, -, -, hlocator⟩ := build_decoded (hmake zeroId.dashed (by simp)) false
    have hu : pgUuid s.sourceId = some zeroId := by
      rw [hsource]
      decide +kernel
    obtain ⟨db, hone, -⟩ := (@registerOne_put _ { sources := [zeroId] } _ _ _ hb hu).1 (List.mem_singleton_self _) List.not_mem_nil
    have hrun : hyphened = { db := db, registered := [{ s with isNew := true }] } := step_one hone
    obtain ⟨m, ⟨l, found, hparse, hfind, hm⟩, -⟩ := hall { s with isNew := true } (hrun ▸ List.mem_singleton_self _)
    have hread : (parseLocator asciiTables s.locator).toOption.map (·.sourceId) = some zeroId.dashed := by
      rw [hlocator]
      decide +kernel
    rw [hparse] at hread
    obtain ⟨hasked, u, hhex⟩ := found_hex hfind m hm
    have hlength : u.hex.length = 32 := by simp [UuidValue.hex, UuidValue.chars, UuidValue.length_digits]
    rw [← hhex, hasked, show l.sourceId = zeroId.dashed from Option.some.inj hread] at hlength
    revert hlength
    decide +kernel
  · intro hall
    obtain ⟨s, hb, hsource, hkey, hversion, hlocator⟩ := build_decoded (hmake zeroId.hex (by simp)) false
    obtain ⟨s', hb', hsource', hkey', hversion', -⟩ := build_decoded (hmake zeroId.hex (by simp)) true
    have hzero : pgUuid zeroId.hex = some zeroId := by decide +kernel
    obtain ⟨db, hone, hrows⟩ := (@registerOne_put _ { sources := [zeroId] } _ _ _ hb (hsource ▸ hzero)).1
      (List.mem_singleton_self _) List.not_mem_nil
    have hthere : (zeroId, s'.deterministicKey) ∈ db.rows.map SegmentRow.unique := by
      rw [hrows, hkey', ← hkey]
      exact List.mem_singleton_self _
    have hsecond := (@registerOne_put _ db _ _ _ hb' (hsource' ▸ hzero)).2 hthere
    have hrun : upgraded = { db := db, registered := [{ s with isNew := true }, { s' with isNew := false }] } := by
      have hfirst := @step_one asciiTables { db := { sources := [zeroId] } } _ _ _ hone
      have hlast := @step_one asciiTables { db := db, registered := [{ s with isNew := true }] } _ _ _ hsecond
      unfold upgraded Session.run
      rw [List.foldl_cons, hfirst, List.foldl_cons, List.foldl_nil]
      exact hlast
    have htag : s.version.tag = "vtext.pandoc2.epub3" := by rw [hversion]; rfl
    have htag' : s'.version.tag = "vtext.pandoc3.epub3" := by rw [hversion']; rfl
    have hread : (parseLocator asciiTables s.locator).toOption.map (·.version.map (·.tag)) = some (some "vtext.pandoc2.epub3") := by
      rw [hlocator]
      decide +kernel
    rw [hrun] at hall
    obtain ⟨m, -, ⟨u, row, -, hrow, hm⟩, best, hbest, hsame, hnewest, hnone⟩ := hall { s' with isNew := false } (by simp)
    have hin : row ∈ db.rows := (List.mem_filter.1 (hrow ▸ List.mem_singleton_self row)).1
    obtain rfl : row = rowOf zeroId s := by
      rw [hrows] at hin
      exact List.mem_singleton.1 hin
    have hmtag : m.version.tag = "vtext.pandoc2.epub3" := by
      obtain ⟨parsed, hparse, hm⟩ := bind_ok hm
      rw [show (rowOf zeroId s).locator = s.locator from rfl] at hparse
      rw [hparse] at hread
      obtain ⟨segment, -, hm⟩ := bind_ok hm
      obtain rfl := Except.ok.inj hm
      cases hv : parsed.version with
      | none => simp [hv, Except.toOption] at hread
      | some v => simpa [hv, Except.toOption] using hread
    have hbtag : best.version.tag = "vtext.pandoc2.epub3" := hnewest.symm.trans hmtag
    rcases List.mem_pair.1 hbest with rfl | rfl
    · have hlater : laterVersion s'.version s.version = true := by
        rw [hversion, hversion']
        decide +kernel
      have hsametag : s'.version.tag = s.version.tag := hnone { s' with isNew := false } (by simp) ⟨rfl, rfl⟩ hlater
      rw [htag', htag] at hsametag
      exact absurd hsametag (by decide)
    · have hthird : s'.version.tag = "vtext.pandoc2.epub3" := hbtag
      rw [htag'] at hthird
      exact absurd hthird (by decide)

end Umd.Segmentation.Postgres
