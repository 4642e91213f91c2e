import Umd.Domain.Events
import Umd.Domain.LocatorText
import Umd.Segmentation.Registry
/-!
# Registering segments

`SegmentRegistry.register` over an in-memory store. The segment id, the deterministic
key and the locator are made from one identity, modality and path, but the store has
the modality as it was spelled and the locator has it in lower case: what is reported
is found by its locator when the inputs are spelled as the locator has them
(`reported_found`).
-/

namespace Umd.Segmentation

open Umd.Lib Umd.Locators Umd.Projections Umd.Events

variable (t : Tables)

/-- `canonical_identity`. -/
def canonicalIdentity (sha512 : String) (workId : Option String) : Except PyError String :=
  if sha512.length ≠ 128 || !sha512.toList.all isHex then .error .valueError
  else
    match workId.filter (· ≠ "") with
    | some work => .ok ("source:" ++ work ++ ":" ++ sha512)
    | none => .ok ("source:" ++ sha512)

/-- `re.sub(r"/{2,}", "/", p)`; the flag says that the character before was a slash. -/
def collapseSlashes : Bool → List Char → List Char
  | _, [] => []
  | inRun, c :: cs =>
    if c = '/' then (if inRun then collapseSlashes true cs else '/' :: collapseSlashes true cs)
    else c :: collapseSlashes false cs

/-- `_norm_structural_path`. -/
def normStructuralPath (path : String) : String :=
  t.lower (String.ofList (collapseSlashes false (stripSlashes (path.toList.filter fun c => !isSpace c))))

/-- `deterministic_segment_id`. -/
def deterministicSegmentId (identity modality path : String) : Except PyError String :=
  let modality := normModality t modality
  if modality = "" then .error .valueError
  else .ok (String.ofList ((t.sha512B32url (identity ++ "\x1f" ++ modality ++ "\x1f" ++ normStructuralPath t path)).toList.take 43))

def deterministicKey (identity modality path : String) : String :=
  identity ++ "#" ++ modality ++ "#" ++ normStructuralPath t path

/-- `build_locator`. -/
def buildLocator (sourceId modality path identity : String) (version : Option PipelineVersion) (frag : Option Selector) :
    Except PyError Locator := do
  let segmentId ← deterministicSegmentId t identity modality path
  Locator.make t sourceId modality segmentId version frag

/-- `SegmentInput`, as far as `_build` reads it. -/
structure SegmentInput where
  sourceId : String
  sourceSha512 : String
  workId : Option String := none
  modality : String
  structuralPath : String
  segmentType : String
  version : PipelineVersion
  frag : Option Selector := none
  ordinal : Option ℤ := none
  made : version.Made

/-- `_build`. -/
def build (inp : SegmentInput) : Except PyError RegisteredSegment := do
  if inp.frag.any Selector.isByteOffset && inp.structuralPath = "" then .error .valueError
  else
    let identity ← canonicalIdentity inp.sourceSha512 inp.workId
    let segmentId ← deterministicSegmentId t identity inp.modality inp.structuralPath
    let locator ← buildLocator t inp.sourceId inp.modality inp.structuralPath identity (some inp.version) inp.frag
    .ok {
      sourceId := inp.sourceId
      deterministicKey := deterministicKey t identity inp.modality inp.structuralPath
      segmentId := segmentId
      segmentType := inp.segmentType
      structuralPath := inp.structuralPath
      modality := inp.modality
      version := inp.version
      locator := locator.canonical
      ordinal := inp.ordinal }

structure SegmentBatch where
  created : List RegisteredSegment := []
  existing : List RegisteredSegment := []
  total : Nat := 0

/-- The loop of `register`: what is put before an input that cannot be built stays in the store. -/
def registerEach (table : SegmentTable) (batch : SegmentBatch) : List SegmentInput → SegmentTable × Except PyError SegmentBatch
  | [] => (table, .ok batch)
  | inp :: inputs =>
    match build t inp with
    | .error e => (table, .error e)
    | .ok segment =>
      let (table, isNew) := table.put segment
      let reported := { segment with isNew := isNew }
      registerEach table (if isNew then { batch with created := batch.created ++ [reported] }
        else { batch with existing := batch.existing ++ [reported] }) inputs

/-- `register`. -/
def register (table : SegmentTable) (batch : List SegmentInput) : SegmentTable × Except PyError SegmentBatch :=
  registerEach t table { total := batch.length } batch

/-- A registry in use: its store, and all that its calls have reported. -/
structure Session where
  table : SegmentTable := []
  reported : List RegisteredSegment := []

/-- One call of `register`. -/
def Session.step (s : Session) (batch : List SegmentInput) : Session :=
  match register t s.table batch with
  | (table, .ok batch) => { table := table, reported := s.reported ++ batch.created ++ batch.existing }
  | (table, .error _) => { s with table := table }

/-- Calls, one after the other. -/
def Session.run (calls : List (List SegmentInput)) : Session := calls.foldl (Session.step t) {}

/-- A segment is found by its own locator. -/
def Found (table : SegmentTable) (s : RegisteredSegment) : Prop :=
  ∃ l, parseLocator t s.locator = .ok l ∧ ∃ m ∈ table.findByLocator l.sourceId l.modality l.segment,
    m.deterministicKey = s.deterministicKey ∧ m.version = s.version

instance (table : SegmentTable) (s : RegisteredSegment) : Decidable (Found t table s) :=
  match h : parseLocator t s.locator with
  | .ok l => decidable_of_iff (∃ m ∈ table.findByLocator l.sourceId l.modality l.segment,
      m.deterministicKey = s.deterministicKey ∧ m.version = s.version) <| by simp [Found, h]
  | .error _ => .isFalse <| by simp [Found, h]

/-- An input that is spelled as its locator has it, and whose locator is read back. -/
structure Addressable (inp : SegmentInput) : Prop where
  modality : normModality t inp.modality = inp.modality
  source : PlainSource inp.sourceId
  version : PlainVersion inp.version
  frag : ∃ frag, parseFrag t (inp.frag.map fun f => f.toFrag.toList) = .ok frag ∧ frag.any Selector.isByteOffset = false

/-- Two inputs under one source, key and tag are of one content, and of one registration ordinal. -/
def OneContent (inp inp' : SegmentInput) : Prop :=
  ∀ identity identity', canonicalIdentity inp.sourceSha512 inp.workId = .ok identity →
    canonicalIdentity inp'.sourceSha512 inp'.workId = .ok identity' → inp.sourceId = inp'.sourceId →
    deterministicKey t identity inp.modality inp.structuralPath = deterministicKey t identity' inp'.modality inp'.structuralPath →
    inp.version.tag = inp'.version.tag → identity = identity' ∧ inp.version = inp'.version

variable {t}

/-! ## What a call keeps -/

/-- What is built of an input. -/
theorem build_ok {inp : SegmentInput} {s : RegisteredSegment} (h : build t inp = .ok s) : ∃ identity segmentId locator,
    canonicalIdentity inp.sourceSha512 inp.workId = .ok identity ∧
    deterministicSegmentId t identity inp.modality inp.structuralPath = .ok segmentId ∧
    Locator.make t inp.sourceId inp.modality segmentId (some inp.version) inp.frag = .ok locator ∧
    s = { sourceId := inp.sourceId, deterministicKey := deterministicKey t identity inp.modality inp.structuralPath
          segmentId := segmentId, segmentType := inp.segmentType, structuralPath := inp.structuralPath, modality := inp.modality
          version := inp.version, locator := locator.canonical, ordinal := inp.ordinal } := by
  unfold build at h
  split at h
  · cases h
  · cases hid : canonicalIdentity inp.sourceSha512 inp.workId with
    | error e => rw [hid] at h; cases h
    | ok identity =>
      cases hseg : deterministicSegmentId t identity inp.modality inp.structuralPath with
      | error e => rw [hid] at h; dsimp only [bind, Except.bind] at h; rw [hseg] at h; cases h
      | ok segmentId =>
        have hlocator : buildLocator t inp.sourceId inp.modality inp.structuralPath identity (some inp.version) inp.frag =
            Locator.make t inp.sourceId inp.modality segmentId (some inp.version) inp.frag := by
          unfold buildLocator
          rw [hseg]
          rfl
        rw [hid] at h
        dsimp only [bind, Except.bind] at h
        rw [hseg, hlocator] at h
        cases hmake : Locator.make t inp.sourceId inp.modality segmentId (some inp.version) inp.frag with
        | error e => rw [hmake] at h; cases h
        | ok locator =>
          rw [hmake] at h
          cases h
          exact ⟨identity, segmentId, locator, rfl, hseg, hmake, rfl⟩

/-- Two segments that `put` takes for one. -/
def SameKey (m s : RegisteredSegment) : Prop :=
  m.sourceId = s.sourceId ∧ m.deterministicKey = s.deterministicKey ∧ m.version.tag = s.version.tag

theorem build_eq {inp : SegmentInput} {identity segmentId : String} {l : Locator} (hfrag : inp.frag.any Selector.isByteOffset = false)
    (hid : canonicalIdentity inp.sourceSha512 inp.workId = .ok identity)
    (hseg : deterministicSegmentId t identity inp.modality inp.structuralPath = .ok segmentId)
    (hl : Locator.make t inp.sourceId inp.modality segmentId (some inp.version) inp.frag = .ok l) :
    build t inp = .ok {
      sourceId := inp.sourceId
      deterministicKey := deterministicKey t identity inp.modality inp.structuralPath
      segmentId := segmentId
      segmentType := inp.segmentType
      structuralPath := inp.structuralPath
      modality := inp.modality
      version := inp.version
      locator := l.canonical
      ordinal := inp.ordinal } := by
  unfold build buildLocator
  rw [hfrag, Bool.false_and, if_neg Bool.false_ne_true, hid]
  change (deterministicSegmentId t identity inp.modality inp.structuralPath >>= _) = _
  rw [hseg]
  change (Locator.make t inp.sourceId inp.modality segmentId (some inp.version) inp.frag >>= _) = _
  rw [hl]
  rfl

/-- A put adds at most the segment, and leaves one of its key in the store. -/
theorem put_spec (table : SegmentTable) (s : RegisteredSegment) : (∀ m ∈ table, m ∈ (table.put s).1) ∧
    (∀ m ∈ (table.put s).1, m ∈ table ∨ m = s) ∧ ∃ m ∈ (table.put s).1, SameKey m s := by
  unfold SegmentTable.put
  dsimp only
  split
  · rename_i hthere
    obtain ⟨m, hm, hsame⟩ := List.any_eq_true.1 hthere
    simp only [Bool.and_eq_true, decide_eq_true_eq] at hsame
    exact ⟨fun _ => id, fun _ => .inl, m, hm, hsame.1.1, hsame.1.2, hsame.2⟩
  · refine ⟨fun _ => List.mem_append_left _, fun m hm => ?_, s, by simp, rfl, rfl, rfl⟩
    simpa using hm

/-- A segment that was reported for one of the inputs, and one of its key is in the store. -/
def ReportedOf (inputs : List SegmentInput) (table : SegmentTable) (s : RegisteredSegment) : Prop :=
  ∃ inp ∈ inputs, ∃ built, build t inp = .ok built ∧ s = { built with isNew := s.isNew } ∧ ∃ m ∈ table, SameKey m built

/-- Store and reports come from the inputs. -/
structure Kept (inputs : List SegmentInput) (table : SegmentTable) (reported : List RegisteredSegment) : Prop where
  stored : ∀ m ∈ table, ∃ inp ∈ inputs, build t inp = .ok m
  reported : ∀ s ∈ reported, ReportedOf (t := t) inputs table s

theorem Kept.put {inputs : List SegmentInput} {table : SegmentTable} {reported : List RegisteredSegment}
    (h : Kept (t := t) inputs table reported) {inp : SegmentInput} {s : RegisteredSegment} (hinp : inp ∈ inputs)
    (hs : build t inp = .ok s) (isNew : Bool) : Kept (t := t) inputs (table.put s).1 (reported ++ [{ s with isNew := isNew }]) := by
  obtain ⟨hkept, honly, hsame⟩ := put_spec table s
  refine ⟨fun m hm => ?_, fun r hr => ?_⟩
  · rcases honly m hm with hm | rfl
    · exact h.stored m hm
    · exact ⟨inp, hinp, hs⟩
  · rcases List.mem_append.1 hr with hr | hr
    · obtain ⟨inp', hinp', built, hbuilt, heq, m, hm, hm'⟩ := h.reported r hr
      exact ⟨inp', hinp', built, hbuilt, heq, m, hkept m hm, hm'⟩
    · rw [List.mem_singleton] at hr
      rw [hr]
      exact ⟨inp, hinp, s, hs, rfl, hsame⟩

theorem Kept.subset {inputs : List SegmentInput} {table : SegmentTable} {reported reported' : List RegisteredSegment}
    (h : Kept (t := t) inputs table reported) (hsub : ∀ s ∈ reported', s ∈ reported) : Kept (t := t) inputs table reported' :=
  ⟨h.stored, fun s hs => h.reported s (hsub s hs)⟩

theorem registerEach_cons {table : SegmentTable} {batch : SegmentBatch} {inp : SegmentInput} {inputs : List SegmentInput}
    {s : RegisteredSegment} (h : build t inp = .ok s) : registerEach t table batch (inp :: inputs) =
      registerEach t (table.put s).1 (if (table.put s).2 then { batch with created := batch.created ++ [{ s with isNew := (table.put s).2 }] }
        else { batch with existing := batch.existing ++ [{ s with isNew := (table.put s).2 }] }) inputs := by
  conv_lhs => unfold registerEach
  rw [h]

/-- The store after a call for one input. -/
theorem run_one {inp : SegmentInput} {s : RegisteredSegment} (h : build t inp = .ok s) :
    Session.run t [[inp]] = { table := [s], reported := [{ s with isNew := true }] } := by
  unfold Session.run Session.step register
  rw [List.foldl_cons, registerEach_cons h]
  rfl

/-- The store after a call for two inputs of different versions. -/
theorem run_pair {inp inp' : SegmentInput} {s s' : RegisteredSegment} (h : build t inp = .ok s) (h' : build t inp' = .ok s')
    (htag : s.version.tag ≠ s'.version.tag) : (Session.run t [[inp, inp']]).table = [s, s'] := by
  have hput : SegmentTable.put [s] s' = ([s, s'], true) := by
    simp [SegmentTable.put, htag]
  have hfirst : SegmentTable.put [] s = ([s], true) := rfl
  have hcall : (registerEach t [] { total := 2 } [inp, inp']).1 = [s, s'] := by
    rw [registerEach_cons h, hfirst, registerEach_cons h', hput]
    rfl
  have hstep : ∀ batch, (Session.step t {} batch).table = (register t [] batch).1 := by
    intro batch
    unfold Session.step
    split <;> rename_i heq <;> rw [heq]
  exact (hstep _).trans hcall

/-- What the loop of a call keeps, whether it comes to its end or raises. -/
theorem registerEach_kept {all : List SegmentInput} {before : List RegisteredSegment} {inputs : List SegmentInput} {table : SegmentTable}
    {batch : SegmentBatch} (hin : ∀ inp ∈ inputs, inp ∈ all) (h : Kept (t := t) all table (before ++ batch.created ++ batch.existing)) :
    match registerEach t table batch inputs with
    | (table', .ok batch') => Kept (t := t) all table' (before ++ batch'.created ++ batch'.existing)
    | (table', .error _) => Kept (t := t) all table' before := by
  induction inputs generalizing table batch with
  | nil => exact h
  | cons inp inputs ih =>
    have hrest : ∀ inp ∈ inputs, inp ∈ all := fun inp' hinp' => hin inp' (List.mem_cons_of_mem _ hinp')
    cases hs : build t inp with
    | error e =>
      unfold registerEach
      rw [hs]
      exact h.subset fun s hs => by simp [hs]
    | ok s =>
      have hput := h.put (hin inp (List.mem_cons_self ..)) hs (table.put s).2
      rw [registerEach_cons hs]
      by_cases hnew : (table.put s).2 = true
      · rw [if_pos hnew]
        exact ih hrest (hput.subset fun r hr => by simp at hr ⊢; tauto)
      · rw [if_neg hnew]
        exact ih hrest (hput.subset fun r hr => by simp at hr ⊢; tauto)

/-- What every run of calls keeps. -/
theorem run_kept (calls : List (List SegmentInput)) :
    Kept (t := t) calls.flatten (Session.run t calls).table (Session.run t calls).reported := by
  have hsteps : ∀ (calls : List (List SegmentInput)) (s : Session) (all : List SegmentInput), (∀ batch ∈ calls, ∀ inp ∈ batch, inp ∈ all) →
      Kept (t := t) all s.table s.reported →
      Kept (t := t) all (calls.foldl (Session.step t) s).table (calls.foldl (Session.step t) s).reported := by
    intro calls
    induction calls with
    | nil => exact fun s all _ h => h
    | cons batch calls ih =>
      intro s all hin h
      refine ih _ all (fun batch hb => hin batch (List.mem_cons_of_mem _ hb)) ?_
      have hstep := @registerEach_kept t all s.reported batch s.table { total := batch.length }
        (hin batch (List.mem_cons_self ..)) (by simpa using h)
      unfold Session.step register
      cases hcall : registerEach t s.table { total := batch.length } batch with
      | mk table result =>
        rw [hcall] at hstep
        cases result with
        | error e => exact hstep
        | ok batch' => exact hstep
  exact hsteps calls {} _ (fun batch hb inp hinp => List.mem_flatten.2 ⟨batch, hb, hinp⟩) ⟨nofun, nofun⟩

/-! ## What is found -/

/-- The parts of a key between the marks, if the modalities have none. -/
theorem key_inj {identity modality modality' path path' : String} (hm : '#' ∉ modality.toList) (hm' : '#' ∉ modality'.toList)
    (h : deterministicKey t identity modality path = deterministicKey t identity modality' path') :
    modality = modality' ∧ normStructuralPath t path = normStructuralPath t path' := by
  have hlist := congrArg String.toList h
  unfold deterministicKey at hlist
  simp only [String.toList_append, List.append_assoc] at hlist
  have hcons := List.append_cancel_left (List.append_cancel_left hlist)
  obtain ⟨hmod, hpath⟩ := append_mark_inj hm hm' hcons
  exact ⟨String.toList_inj.1 hmod, String.toList_inj.1 hpath⟩

/-- An addressable input's modality has no mark. -/
theorem Addressable.plain {inp : SegmentInput} (h : Addressable t inp) {s : RegisteredSegment} (hs : build t inp = .ok s) :
    '#' ∉ inp.modality.toList := by
  obtain ⟨_, _, _, -, -, hmake, -⟩ := build_ok hs
  have hpattern := (Locator.make_ok hmake).2.1
  rw [h.modality] at hpattern
  exact (pattern_plain (.inl hpattern)).2 _ (by decide)

/-- In every run of calls whose inputs are addressable, and of one content under one key, all that is reported is found by its locator. -/
theorem reported_found (calls : List (List SegmentInput))
    (haddr : ∀ inp ∈ calls.flatten, ∀ s, build t inp = .ok s → Addressable t inp)
    (hone : ∀ inp ∈ calls.flatten, ∀ inp' ∈ calls.flatten, OneContent t inp inp') :
    ∀ s ∈ (Session.run t calls).reported, Found t (Session.run t calls).table s := by
  intro s hs
  have hkept := run_kept (t := t) calls
  obtain ⟨inp, hinp, built, hbuilt, heq, m, hm, hsource, hkey, htag⟩ := hkept.reported s hs
  obtain ⟨inp', hinp', hm'⟩ := hkept.stored m hm
  obtain ⟨identity, segmentId, locator, hid, hseg, hmake, rfl⟩ := build_ok hbuilt
  obtain ⟨identity', segmentId', locator', hid', hseg', -, rfl⟩ := build_ok hm'
  dsimp only at hsource hkey htag
  obtain ⟨rfl, hversion⟩ := hone inp' hinp' inp hinp identity' identity hid' hid hsource hkey htag
  have ha := haddr inp hinp _ hbuilt
  obtain ⟨hmod, hpath⟩ := key_inj ((haddr inp' hinp' _ hm').plain hm') (ha.plain hbuilt) hkey
  have hsegment : segmentId' = segmentId := by
    unfold deterministicSegmentId at hseg hseg'
    rw [hmod, hpath, hseg] at hseg'
    cases hseg'
    rfl
  obtain ⟨hlocator, -, -⟩ := Locator.make_ok hmake
  obtain ⟨frag, hfrag, hbytes⟩ := ha.frag
  have hself : Locator.make t locator.sourceId inp.modality locator.segment (some inp.version) locator.frag = .ok locator := by
    rw [hlocator] at hmake ⊢
    exact hmake
  have hparse := parse_canonical hself ha.modality (by rw [hlocator]; exact ha.source) inp.made ha.version
    (by rw [hlocator]; exact hfrag) hbytes
  refine ⟨_, by rw [heq]; exact hparse, _, List.mem_filter.2 ⟨hm, ?_⟩, ?_, ?_⟩
  · rw [hlocator]
    dsimp only
    rw [ha.modality, hsource, hmod, hsegment]
    simp
  · rw [heq]
    exact hkey
  · rw [heq]
    exact hversion

/-- Tables for the texts of the two inputs below: ASCII letters and digits, and the digest of their material. -/
def asciiTables : Tables where
  lower := fun s => String.ofList (s.toList.map Char.toLower)
  decimal := fun c => if c.isDigit then some (c.toNat - '0'.toNat) else none
  sha512B32url := fun _ => "6YGO3KAL7AKON3HGKDKFWZQ3WLTAE4WZ35SRK5ONT3S"

/-- A page of a source, with its modality spelled so. -/
def pageInput (modality : String) : SegmentInput where
  sourceId := "src1"
  sourceSha512 := String.ofList (List.replicate 128 'a')
  modality := modality
  structuralPath := "page/1"
  segmentType := "page"
  version := { segmenter := "text", decoder := "pandoc22", renderer := "epub3", version := 1 }
  made := by simp [PipelineVersion.Made, componentMarks]

/-- The id of its segment. -/
def pageSegment : String := "6YGO3KAL7AKON3HGKDKFWZQ3WLTAE4WZ35SRK5ONT3S"

theorem canonicalIdentity_page (modality : String) : canonicalIdentity (pageInput modality).sourceSha512 none =
    .ok ("source:" ++ (pageInput modality).sourceSha512) := by
  have hlength : (pageInput modality).sourceSha512.length = 128 := String.length_ofList.trans List.length_replicate
  have hlist : (pageInput modality).sourceSha512.toList = List.replicate 128 'a' := String.toList_ofList
  have hhex : (List.replicate 128 'a').all isHex = true := by decide
  unfold canonicalIdentity
  rw [hlength, hlist, hhex]
  rfl

/-- The row of an input with the digest of the page; what its identity is does not matter to the segment id. -/
theorem build_page {inp : SegmentInput} {segmentId : String} {l : Locator} (hsha : inp.sourceSha512 = (pageInput "text").sourceSha512)
    (hwork : inp.workId = none) (hfrag : inp.frag = none)
    (hseg : deterministicSegmentId asciiTables "" inp.modality inp.structuralPath = .ok segmentId)
    (hl : Locator.make asciiTables inp.sourceId inp.modality segmentId (some inp.version) none = .ok l) :
    build asciiTables inp = .ok {
      sourceId := inp.sourceId
      deterministicKey := deterministicKey asciiTables ("source:" ++ inp.sourceSha512) inp.modality inp.structuralPath
      segmentId := segmentId
      segmentType := inp.segmentType
      structuralPath := inp.structuralPath
      modality := inp.modality
      version := inp.version
      locator := l.canonical
      ordinal := inp.ordinal } := by
  have hid : canonicalIdentity inp.sourceSha512 inp.workId = .ok ("source:" ++ inp.sourceSha512) := by
    rw [hsha, hwork]
    exact canonicalIdentity_page "text"
  have hseg' : deterministicSegmentId asciiTables ("source:" ++ inp.sourceSha512) inp.modality inp.structuralPath = .ok segmentId := hseg
  exact build_eq (by rw [hfrag]; rfl) hid hseg' (by rw [hfrag]; exact hl)

/-- The row of the page under any version. -/
theorem build_text {inp : SegmentInput} {l : Locator} (hsha : inp.sourceSha512 = (pageInput "text").sourceSha512)
    (hwork : inp.workId = none) (hfrag : inp.frag = none) (hmodality : inp.modality = "text") (hpath : inp.structuralPath = "page/1")
    (hl : Locator.make asciiTables inp.sourceId "text" pageSegment none none = .ok l) :
    build asciiTables inp = .ok {
      sourceId := inp.sourceId
      deterministicKey := deterministicKey asciiTables ("source:" ++ inp.sourceSha512) "text" "page/1"
      segmentId := pageSegment
      segmentType := inp.segmentType
      structuralPath := "page/1"
      modality := "text"
      version := inp.version
      locator := { l with version := some inp.version, frag := none }.canonical
      ordinal := inp.ordinal } := by
  have hseg : deterministicSegmentId asciiTables "" "text" "page/1" = .ok pageSegment := by decide +kernel
  have hmake := @Locator.make_congr asciiTables _ _ _ none (some inp.version) none none l hl rfl
  rw [← hpath, ← hmodality] at hseg ⊢
  rw [← hmodality] at hmake
  exact build_page hsha hwork hfrag hseg hmake

theorem reported_found_page : (Session.run asciiTables [[pageInput "text"], [pageInput "text"]]).reported.Forall
    (Found asciiTables (Session.run asciiTables [[pageInput "text"], [pageInput "text"]]).table) := by
  have hinput : ∀ inp ∈ [[pageInput "text"], [pageInput "text"]].flatten, inp = pageInput "text" := by
    intro inp hinp
    simpa using hinp
  rw [List.forall_iff_forall_mem]
  refine reported_found _ (fun inp hinp _ _ => ?_) fun inp hinp inp' hinp' identity identity' hid hid' _ _ _ => ?_
  · rw [hinput inp hinp]
    exact ⟨by decide +kernel, ⟨by decide +kernel, by decide +kernel, by decide +kernel, by decide +kernel⟩,
      by simp [PlainVersion, isSpace, pageInput], none, rfl, rfl⟩
  · rw [hinput inp hinp] at hid ⊢
    rw [hinput inp' hinp', hid] at hid'
    cases hid'
    exact ⟨rfl, by rw [hinput inp' hinp']⟩

/-- The locator of the page whose modality is in capitals. -/
def loweredLocator : Locator where
  sourceId := "src1"
  modality := "text"
  segment := pageSegment
  version := some (pageInput "Text").version

/-- A modality in capitals is stored as it is spelled, and its locator asks for it in lower case. -/
theorem capital_not_found : ¬ ∀ s ∈ (Session.run asciiTables [[pageInput "Text"]]).reported,
    Found asciiTables (Session.run asciiTables [[pageInput "Text"]]).table s := by
  have hseg : deterministicSegmentId asciiTables "" "Text" "page/1" = .ok pageSegment := by decide +kernel
  have hl : Locator.make asciiTables "src1" "Text" pageSegment (some (pageInput "Text").version) none =
      .ok loweredLocator := by
    decide +kernel
  have hbuild := @build_page (pageInput "Text") _ _ rfl rfl rfl hseg hl
  rw [run_one hbuild]
  intro hall
  obtain ⟨parsed, hparse, m, hm, -⟩ := hall _ (List.mem_singleton_self _)
  have hmodality : (parseLocator asciiTables loweredLocator.canonical).toOption.map (·.modality) = some "text" := by
    decide +kernel
  rw [hparse] at hmodality
  obtain ⟨hin, hasked⟩ := List.mem_filter.1 hm
  have htext : parsed.modality = "text" := Option.some.inj hmodality
  rw [List.mem_singleton.1 hin, htext] at hasked
  simp [pageInput] at hasked

end Umd.Segmentation
