import Umd.Lib.JsonRead
import Umd.Lib.Utf8
import Umd.Domain.LocatorText
import Umd.Resolution.LocatorResolver
/-!
# Text ranges

`_retrieve` over the bytes of a source. A structural path is answered with a paragraph
of the bytes that are read, whose bounds are those of its text written again. They are bounds
in the source as long as reading replaced nothing (`text_range_iff`), and a path whose
paragraph is not there is answered with another one.
-/

namespace Umd.Resolution

open Umd.Lib Umd.Lib.Utf8 Umd.Locators Umd.Segmentation

/-- `text.split("\n\n")` -/
def paragraphs : List Char → List (List Char)
  | [] => [[]]
  | '\n' :: '\n' :: cs => [] :: paragraphs cs
  | c :: cs =>
    match paragraphs cs with
    | p :: ps => (c :: p) :: ps
    | [] => [[c]]

/-- `t.isdigit()` of a token of a path, which has only ASCII digits. -/
def isNumber (token : List Char) : Bool := token ≠ [] && token.all isDigit

/-- The paragraph that a path asks for. -/
def requested (path : String) : Nat :=
  match (path.toList.splitOn '/').filter isNumber with
  | token :: _ => digitsVal token
  | [] => 1

/-- `_text_range`; a number of zero is taken for the first paragraph. -/
def textRange (text : List Char) (path : String) : Retrieved :=
  let ps := paragraphs text
  let idx := min (requested path - 1) (ps.length - 1)
  let context := fun p : List Char => Json.str (String.ofList (p.take 80))
  let body := encode (ps.getD idx [])
  let start := ((ps.take idx).map fun p => (encode p).length + 2).sum
  { data := body
    rangeStart := start
    rangeEnd := start + body.length
    neighborContext :=
      [("kind", .str "text"),
       ("prev", if 0 < idx then context (ps.getD (idx - 1) []) else .null),
       ("next", if idx + 1 < ps.length then context (ps.getD (idx + 1) []) else .null)] }

/-- `frag.kind.value` -/
def kindOf : Option Selector → Json
  | some (.iiif _) => .str "iiif"
  | some (.cfi _) => .str "epubcfi"
  | some (.mediaFragment ..) => .str "media_fragments"
  | some (.structural _) => .str "structural"
  | some (.byteOffset ..) => .str "byte_offset"
  | none => .null

/-- `_retrieve`. -/
def retrieve (bytes : String → List UInt8) (maxRangeBytes : Nat) (source : SourceRecord) (l : Locator) : Except PyError Retrieved :=
  let raw := (bytes source.ocflRef).take (min maxRangeBytes source.sizeBytes)
  match l.frag with
  | some (.structural path) => .ok (textRange (decodeReplace raw) path)
  | frag => .ok {
      data := raw
      rangeStart := 0
      rangeEnd := raw.length
      neighborContext := [("selector", kindOf frag), ("bounded", .bool true)] }

/-- A resolver over the bytes of its sources. -/
def byteResolver (findByLocator : String → String → String → List RegisteredSegment) (source : String → Option SourceRecord)
    (bytes : String → List UInt8) (maxRangeBytes : Nat) : LocatorResolver where
  findByLocator := findByLocator
  source := source
  retrieve := retrieve bytes maxRangeBytes

/-- The source has the paragraph that a path asks for. -/
def HasParagraph (source : List UInt8) (path : String) : Prop :=
  1 ≤ requested path ∧ requested path ≤ (paragraphs (decodeReplace source)).length

/-- A range that is returned is that part of the source, and a paragraph that the source does not have is unresolved. -/
def RangeKept (r : LocatorResolver) (source : List UInt8) (l : Locator) (path : String) : Prop :=
  ∀ (quarantine quarantine' : List QuarantineEntry) (policy : VersionPolicy) (range : SourceRange),
    r.resolve quarantine { l with frag := some (.structural path) } policy = (quarantine', .ok range) →
    (∀ text, range.retrieved = some text → text.data = (source.drop text.rangeStart).take (text.rangeEnd - text.rangeStart)) ∧
      (¬ HasParagraph source path → range.drift.kind = .unresolved)

/-- The first bytes are UTF-8, or they end within a U+FFFD of the source. -/
def ReadsAsText (source : List UInt8) (n : Nat) : Prop :=
  (∃ cs, source.take n = encode cs) ∨
    ∃ cs cut, source.take n = encode cs ++ cut ∧ cut <+: encode [replacement] ∧ encode (cs ++ [replacement]) <+: source

/-! ## Paragraphs -/

theorem paragraphs_cons (c : Char) (cs : List Char) : ∃ p ps, paragraphs (c :: cs) = p :: ps := by
  unfold paragraphs
  split
  · rename_i h
    cases h
  · exact ⟨_, _, rfl⟩
  · split <;> exact ⟨_, _, rfl⟩

theorem paragraphs_split (cs : List Char) : ∃ p ps, paragraphs cs = p :: ps := by
  cases cs with
  | nil => exact ⟨_, _, rfl⟩
  | cons c cs => exact paragraphs_cons c cs

theorem paragraphs_single {c : Char} {cs : List Char} (hc : ∀ cs', c = '\n' → cs = '\n' :: cs' → False) {p : List Char}
    {ps : List (List Char)} (hps : paragraphs cs = p :: ps) : paragraphs (c :: cs) = (c :: p) :: ps := by
  rw [paragraphs, hps]
  exact hc

/-- The paragraphs written again, a blank line between two of them. -/
def written : List (List Char) → List UInt8
  | [] => []
  | [p] => encode p
  | p :: q :: ps => encode p ++ 10 :: 10 :: written (q :: ps)

/-- What is written before a paragraph. -/
def offset (ps : List (List Char)) : Nat := (ps.map fun p => (encode p).length + 2).sum

theorem written_char (c : Char) (p : List Char) (ps : List (List Char)) :
    written ((c :: p) :: ps) = encode [c] ++ written (p :: ps) := by
  cases ps with
  | nil => exact encode_append [c] p
  | cons q ps =>
    rw [written, written, ← List.append_assoc, ← encode_append]
    rfl

theorem written_paragraphs (cs : List Char) : written (paragraphs cs) = encode cs := by
  induction cs using paragraphs.induct with
  | case1 => rfl
  | case2 cs ih =>
    obtain ⟨p, ps, hps⟩ := paragraphs_split cs
    rw [hps] at ih
    rw [paragraphs, hps, written, ih]
    rfl
  | case3 c cs hc p ps hps ih =>
    rw [hps] at ih
    rw [paragraphs_single hc hps, written_char, ih, ← encode_append]
    rfl
  | case4 c cs hc hps ih =>
    obtain ⟨p, ps, h⟩ := paragraphs_split cs
    rw [h] at hps
    cases hps

/-- A paragraph stands at its offset, and the last one at the end. -/
theorem written_split (ps : List (List Char)) (p : List Char) (qs : List (List Char)) :
    ∃ before after, written (ps ++ p :: qs) = before ++ (encode p ++ after) ∧ before.length = offset ps ∧ (qs = [] → after = []) := by
  induction ps with
  | nil =>
    cases qs with
    | nil => exact ⟨[], [], by simp [written], rfl, fun _ => rfl⟩
    | cons q qs => exact ⟨[], 10 :: 10 :: written (q :: qs), by simp [written], rfl, nofun⟩
  | cons q ps ih =>
    obtain ⟨before, after, hwritten, hlength, hlast⟩ := ih
    refine ⟨encode q ++ 10 :: 10 :: before, after, ?_, ?_, hlast⟩
    · obtain ⟨r, rs, hr⟩ : ∃ r rs, ps ++ p :: qs = r :: rs := by cases ps <;> exact ⟨_, _, rfl⟩
      rw [List.cons_append, hr, written, ← hr, hwritten]
      simp
    · rw [offset, List.map_cons, List.sum_cons, ← offset, ← hlength, List.length_append, List.length_cons, List.length_cons]
      omega

/-- A character that is no newline goes on with the last paragraph before it. -/
theorem paragraphs_append {x : Char} (hx : x ≠ '\n') (cs rest : List Char) : ∃ ps p q qs, paragraphs cs = ps ++ [p] ∧
    paragraphs (cs ++ x :: rest) = ps ++ (p ++ x :: q) :: qs := by
  induction cs using paragraphs.induct with
  | case1 =>
    obtain ⟨q, qs, hqs⟩ := paragraphs_split rest
    exact ⟨[], [], q, qs, rfl, paragraphs_single (fun _ h _ => hx h) hqs⟩
  | case2 cs ih =>
    obtain ⟨ps, p, q, qs, hcs, hall⟩ := ih
    exact ⟨[] :: ps, p, q, qs, by rw [paragraphs, hcs]; rfl, by rw [List.cons_append, List.cons_append, paragraphs, hall]; rfl⟩
  | case3 c cs hc p₀ ps₀ hps₀ ih =>
    obtain ⟨ps, p, q, qs, hcs, hall⟩ := ih
    have hc' : ∀ cs', c = '\n' → cs ++ x :: rest = '\n' :: cs' → False := by
      intro cs' hn h
      cases cs with
      | nil => exact hx (List.cons.inj h).1
      | cons d cs =>
        rw [List.cons_append, List.cons.injEq] at h
        exact hc cs hn (by rw [h.1])
    cases ps with
    | nil =>
      exact ⟨[], c :: p, q, qs, paragraphs_single hc hcs, paragraphs_single hc' hall⟩
    | cons r ps =>
      exact ⟨(c :: r) :: ps, p, q, qs, paragraphs_single hc hcs, paragraphs_single hc' hall⟩
  | case4 c cs hc hps ih =>
    obtain ⟨p, ps, h⟩ := paragraphs_split cs
    rw [h] at hps
    cases hps

/-- More text has no fewer paragraphs. -/
theorem paragraphs_mono (cs rest : List Char) : (paragraphs cs).length ≤ (paragraphs (cs ++ rest)).length := by
  have hpos : ∀ cs, 1 ≤ (paragraphs cs).length := by
    intro cs
    obtain ⟨p, ps, hps⟩ := paragraphs_split cs
    rw [hps]
    exact Nat.succ_pos _
  induction cs using paragraphs.induct with
  | case1 => exact hpos rest
  | case2 cs ih => exact Nat.succ_le_succ ih
  | case3 c cs hc p ps hps ih =>
    rw [hps] at ih
    cases cs with
    | nil =>
      cases hps
      rw [paragraphs_single hc rfl]
      exact hpos _
    | cons d cs =>
      obtain ⟨q, qs, hqs⟩ := paragraphs_split (d :: cs ++ rest)
      have hc' : ∀ cs', c = '\n' → d :: cs ++ rest = '\n' :: cs' → False := by
        intro cs' hn h
        rw [List.cons_append, List.cons.injEq] at h
        exact hc cs hn (by rw [h.1])
      rw [hqs] at ih
      rw [paragraphs_single hc hps, List.cons_append, paragraphs_single hc' hqs]
      exact ih
  | case4 c cs hc hps ih =>
    obtain ⟨p, ps, h⟩ := paragraphs_split cs
    rw [h] at hps
    cases hps

/-! ## A path that asks for a paragraph -/

/-- The path of a paragraph's number. -/
def numbered (n : Nat) : String := String.ofList (Nat.toDigits 10 n)

theorem numbered_pattern (n : Nat) : structuralPattern (numbered n).toList = true := by
  have hstar : ∀ {p : Char → Bool} {cs : List Char}, (∀ c ∈ cs, p c = true) → [] ∈ Pattern.star p cs := by
    intro p cs h
    induction cs with
    | nil => exact List.mem_singleton_self _
    | cons c cs ih =>
      rw [Pattern.star, h c (.head _)]
      exact .tail _ (ih fun d hd => h d (.tail _ hd))
  have hdigit : ∀ c ∈ Nat.toDigits 10 n, (c.isLower || c.isDigit || c = '/' || c = '_' || c = '.' || c = '-') = true := by
    intro c hc
    have hd := toDigits_digits n c hc
    rw [isDigit_eq] at hd
    simp [hd]
  obtain ⟨c, cs, hcs⟩ := List.exists_cons_of_ne_nil (@Nat.toDigits_ne_nil n 10)
  rw [numbered, String.toList_ofList]
  rw [hcs] at hdigit ⊢
  refine List.any_eq_true.2 ⟨[], ?_, rfl⟩
  refine List.mem_flatMap.2 ⟨cs, ?_, hstar fun d hd => hdigit d (.tail _ hd)⟩
  rw [Pattern.one, hdigit c (.head _)]
  exact List.mem_singleton_self _

theorem requested_numbered (n : Nat) : requested (numbered n) = n := by
  have hdigits := toDigits_digits n
  have hslash : '/' ∉ Nat.toDigits 10 n := fun h => absurd (hdigits _ h) (by decide)
  have hsplit : (Nat.toDigits 10 n).splitOn '/' = [Nat.toDigits 10 n] := by
    have hnone : ∀ part ∈ [Nat.toDigits 10 n], '/' ∉ part := by simpa using hslash
    have h := List.splitOn_intercalate '/' hnone (List.cons_ne_nil _ _)
    rwa [List.intercalate_singleton] at h
  have hnumber : isNumber (Nat.toDigits 10 n) = true := by
    rw [isNumber, Bool.and_eq_true, List.all_eq_true]
    exact ⟨by simp, hdigits⟩
  rw [requested, numbered, String.toList_ofList, hsplit, List.filter_cons_of_pos hnumber]
  change digitsVal (Nat.toDigits 10 n) = n
  rw [digitsVal_eq, Nat.ofDigitChars_ten_toDigits]

/-! ## The bounds of a range -/

/-- The part of a source between the bounds of a range. -/
def Sliced (source : List UInt8) (text : Retrieved) : Prop :=
  text.data = (source.drop text.rangeStart).take (text.rangeEnd - text.rangeStart)

theorem prefix_sliced {source : List UInt8} {text : List Char} (h : encode text <+: source) (path : String) :
    Sliced source (textRange text path) := by
  obtain ⟨tail, rfl⟩ := h
  obtain ⟨p, ps, hps⟩ := paragraphs_split text
  have hidx : min (requested path - 1) ((paragraphs text).length - 1) < (paragraphs text).length := by
    rw [hps, List.length_cons]
    omega
  unfold Sliced textRange
  dsimp only
  generalize min (requested path - 1) ((paragraphs text).length - 1) = idx at hidx
  obtain ⟨before, after, hwritten, hlength, -⟩ :=
    written_split ((paragraphs text).take idx) (paragraphs text)[idx] ((paragraphs text).drop (idx + 1))
  rw [List.getElem_cons_drop, List.take_append_drop, written_paragraphs] at hwritten
  rw [List.getD_eq_getElem _ _ hidx, ← offset, ← hlength, hwritten, List.append_assoc, List.append_assoc, List.drop_left,
    Nat.add_sub_cancel_left, List.take_left]

/-- Where the paragraph of the first bytes that are no character is that part of the source, the source goes on with a U+FFFD. -/
theorem sliced_reads {bad tail : List UInt8} {cs : List Char} (hne : bad ≠ []) (hbad : firstChar bad = none)
    (h : Sliced (encode cs ++ (bad ++ tail)) (textRange (decodeReplace (encode cs ++ bad)) (numbered (paragraphs cs).length))) :
    encode [replacement] <+: bad ++ tail := by
  rw [decode_encode, decode_bad hne hbad] at h
  obtain ⟨ps, p, q, qs, hcs, hall⟩ := paragraphs_append (x := replacement) (by decide) cs (decodeReplace (skipBad bad))
  obtain ⟨before, after, hwritten, hlength, hlast⟩ := written_split ps p []
  rw [← hcs, written_paragraphs, hlast rfl, List.append_nil] at hwritten
  have hidx : min (ps.length + 1 - 1) ((ps ++ (p ++ replacement :: q) :: qs).length - 1) = ps.length := by
    rw [List.length_append, List.length_cons]
    omega
  unfold Sliced textRange at h
  rw [hall, requested_numbered, hcs, List.length_append, List.length_singleton] at h
  dsimp only at h
  rw [hidx, List.getD_append_right _ _ _ _ le_rfl, Nat.sub_self, List.getD_cons_zero, List.take_left, ← offset, ← hlength, hwritten,
    List.append_assoc, List.drop_left, Nat.add_sub_cancel_left, encode_append] at h
  have hpre : encode p ++ encode (replacement :: q) <+: encode p ++ (bad ++ tail) := ⟨_, by rw [h]; exact List.take_append_drop ..⟩
  have hchar : encode [replacement] <+: encode (replacement :: q) := ⟨encode q, (encode_append [replacement] q).symm⟩
  exact hchar.trans ((List.prefix_append_right_inj _).1 hpre)

/-- Reading the beginning of a U+FFFD changes nothing. -/
theorem cut_reads {cut : List UInt8} (h : cut <+: encode [replacement]) :
    encode (decodeReplace cut) <+: encode [replacement] := by
  have hbytes : encode [replacement] = [0xef, 0xbf, 0xbd] := by decide +kernel
  have hlength := h.length_le
  rw [hbytes] at h hlength ⊢
  rw [List.prefix_iff_eq_take.1 h]
  simp only [List.length_cons, List.length_nil] at hlength
  generalize cut.length = n at hlength
  interval_cases n <;> decide +kernel

/-- Where reading stops at what is no character, and the source goes on with a U+FFFD. -/
theorem reads_cut {source bad : List UInt8} {n : Nat} {cs : List Char} (hcs : source.take n = encode cs ++ bad)
    (hbad : firstChar bad = none) (h : encode [replacement] <+: bad ++ source.drop n) : ReadsAsText source n := by
  refine .inr ⟨cs, bad, hcs, (bad_of_replacement hbad h).1, ?_⟩
  have hsource : source = encode cs ++ (bad ++ source.drop n) := by
    rw [← List.append_assoc, ← hcs, List.take_append_drop]
  rw [hsource, encode_append]
  exact (List.prefix_append_right_inj _).2 h

/-- Where reading replaced nothing, the text is written as the source begins. -/
theorem prefix_read {source : List UInt8} {n : Nat} (h : ReadsAsText source n) : encode (decodeReplace (source.take n)) <+: source := by
  rcases h with ⟨cs, hcs⟩ | ⟨cs, cut, hcs, hcut, hsource⟩
  · have hread := decode_encode cs []
    rw [List.append_nil, ← hcs, show decodeReplace [] = [] from rfl, List.append_nil] at hread
    rw [hread, ← hcs]
    exact List.take_prefix n source
  · rw [hcs, decode_encode, encode_append]
    rw [encode_append] at hsource
    exact ((List.prefix_append_right_inj _).2 (cut_reads hcut)).trans hsource

/-! ## What is returned -/

theorem select_some {found : List RegisteredSegment} (hne : found ≠ []) (l : Locator) (policy : VersionPolicy) :
    ∃ m, select found l policy = some m := by
  unfold select
  split
  · split
    · exact firstMax_isSome hne
    · rename_i hexact
      exact firstMax_isSome hexact
  · exact firstMax_isSome hne

theorem drift_resolved (selected : RegisteredSegment) (found : List RegisteredSegment) :
    (computeDrift selected found).kind ≠ .unresolved := by
  unfold computeDrift
  split
  · split <;> simp
  · simp

theorem resolve_found {r : LocatorResolver} {l : Locator} {source : SourceRecord} {text : Retrieved} (hs : r.source l.sourceId = some source)
    (hne : r.findMatches l source ≠ []) (hr : r.retrieve source l = .ok text) (quarantine : List QuarantineEntry) (policy : VersionPolicy) :
    ∃ range, r.resolve quarantine l policy = (quarantine, .ok range) ∧ range.retrieved = some text ∧ range.drift.kind ≠ .unresolved := by
  obtain ⟨m, hm⟩ := select_some hne l policy
  unfold LocatorResolver.resolve
  rw [hs]
  dsimp only
  rw [if_neg (by simpa using hne), hm]
  dsimp only
  rw [hr]
  refine ⟨_, rfl, rfl, ?_⟩
  exact drift_resolved m (r.findMatches l source)

theorem resolve_unregistered {r : LocatorResolver} {l : Locator} {source : SourceRecord} (hs : r.source l.sourceId = some source)
    (hfound : r.findMatches l source = []) (quarantine : List QuarantineEntry) (policy : VersionPolicy) :
    ∃ quarantine' range, r.resolve quarantine l policy = (quarantine', .ok range) ∧ range.retrieved = none ∧
      range.drift.kind = .unresolved := by
  unfold LocatorResolver.resolve
  rw [hs]
  dsimp only
  rw [if_pos (by rw [hfound]; rfl)]
  exact ⟨_, _, rfl, rfl, rfl⟩

section
variable {findByLocator : String → String → String → List RegisteredSegment} {sources : String → Option SourceRecord}
  {bytes : String → List UInt8} {maxRangeBytes : Nat} {l : Locator} {source : SourceRecord}

/-- What the resolver keeps is what `_text_range` keeps, and that the paragraph is there. -/
theorem rangeKept_iff (hs : sources l.sourceId = some source) (hsize : source.sizeBytes = (bytes source.ocflRef).length) (path : String) :
    RangeKept (byteResolver findByLocator sources bytes maxRangeBytes) (bytes source.ocflRef) l path ↔
      findByLocator source.sourceId l.modality l.segment = [] ∨
        Sliced (bytes source.ocflRef) (textRange (decodeReplace ((bytes source.ocflRef).take maxRangeBytes)) path) ∧
          HasParagraph (bytes source.ocflRef) path := by
  have hraw : retrieve bytes maxRangeBytes source { l with frag := some (.structural path) } =
      .ok (textRange (decodeReplace ((bytes source.ocflRef).take maxRangeBytes)) path) := by
    have htake : (bytes source.ocflRef).take (min maxRangeBytes source.sizeBytes) = (bytes source.ocflRef).take maxRangeBytes := by
      rw [hsize, ← List.take_take, List.take_length]
    unfold retrieve
    rw [htake]
  set r := byteResolver findByLocator sources bytes maxRangeBytes with hr
  by_cases hfound : findByLocator source.sourceId l.modality l.segment = []
  · refine iff_of_true (fun quarantine quarantine' policy range h => ?_) (.inl hfound)
    obtain ⟨q, unresolvedRange, hresolve, hnone, hkind⟩ :=
      @resolve_unregistered r { l with frag := some (.structural path) } source hs hfound quarantine policy
    rw [hresolve] at h
    cases h
    exact ⟨fun text htext => (nomatch hnone.symm.trans htext), fun _ => hkind⟩
  · have hanswer := @resolve_found r { l with frag := some (.structural path) } source _ hs hfound hraw
    rw [or_iff_right hfound]
    constructor
    · intro h
      obtain ⟨range, hresolve, htext, hkind⟩ := hanswer [] .bare
      obtain ⟨hsliced, hmissing⟩ := h [] [] .bare range hresolve
      exact ⟨hsliced _ htext, by_contra fun hpath => hkind (hmissing hpath)⟩
    · rintro ⟨hsliced, hpath⟩ quarantine quarantine' policy range h
      obtain ⟨range', hresolve, htext, -⟩ := hanswer quarantine policy
      rw [hresolve] at h
      cases h
      refine ⟨fun text h => ?_, fun hmissing => absurd hpath hmissing⟩
      cases htext.symm.trans h
      exact hsliced

/-- **Every paragraph of a source is answered with its part of the source if and only if the bytes that are read are UTF-8 or end
within a U+FFFD of it, and a paragraph that the source does not have is answered with another one.** -/
theorem text_range_iff (hs : sources l.sourceId = some source) (hsize : source.sizeBytes = (bytes source.ocflRef).length) :
    ((∀ path, structuralPattern path.toList = true → HasParagraph (bytes source.ocflRef) path →
        RangeKept (byteResolver findByLocator sources bytes maxRangeBytes) (bytes source.ocflRef) l path) ↔
      findByLocator source.sourceId l.modality l.segment = [] ∨ ReadsAsText (bytes source.ocflRef) maxRangeBytes) ∧
    ∀ path, ¬ HasParagraph (bytes source.ocflRef) path →
      (RangeKept (byteResolver findByLocator sources bytes maxRangeBytes) (bytes source.ocflRef) l path ↔
        findByLocator source.sourceId l.modality l.segment = []) := by
  simp only [rangeKept_iff hs hsize]
  refine ⟨?_, fun path hpath => or_iff_left fun h => hpath h.2⟩
  by_cases hfound : findByLocator source.sourceId l.modality l.segment = []
  · exact iff_of_true (fun _ _ _ => .inl hfound) (.inl hfound)
  · simp only [or_iff_right hfound]
    constructor
    · intro hall
      rcases decoded ((bytes source.ocflRef).take maxRangeBytes) with hcs | ⟨cs, bad, hcs, hne, hbad⟩
      · exact .inl hcs
      · have hsource : bytes source.ocflRef = encode cs ++ (bad ++ (bytes source.ocflRef).drop maxRangeBytes) := by
          rw [← List.append_assoc, ← hcs, List.take_append_drop]
        have hpath : HasParagraph (bytes source.ocflRef) (numbered (paragraphs cs).length) := by
          obtain ⟨p, ps, hps⟩ := paragraphs_split cs
          rw [HasParagraph, requested_numbered, hsource, decode_encode]
          exact ⟨by rw [hps]; exact Nat.succ_pos _, paragraphs_mono ..⟩
        obtain ⟨hsliced, -⟩ := hall _ (numbered_pattern _) hpath
        rw [hcs] at hsliced
        rw [hsource] at hsliced
        exact reads_cut hcs hbad (sliced_reads hne hbad hsliced)
    · exact fun h path _ hpath => ⟨prefix_sliced (prefix_read h) path, hpath⟩

end

/-- A source of two paragraphs. -/
def holmesText : List Char := "Holmes came.\n\nHe left.".toList

def holmesBytes : String → List UInt8 := fun _ => encode holmesText

def holmesSource (sourceId : String) : Option SourceRecord :=
  some ⟨sourceId, "ocfl:1", "sha", (encode holmesText).length, "text", none, none, none⟩

theorem holmes_paragraphs : (paragraphs (decodeReplace (encode holmesText))).length = 2 := by
  have hread := decode_encode holmesText []
  rw [List.append_nil, show decodeReplace [] = [] from rfl, List.append_nil] at hread
  rw [hread]
  decide +kernel

/-- The second paragraph of a text that is read whole. -/
theorem text_range_iff_second :
    RangeKept (byteResolver twoVersions.findByLocator holmesSource holmesBytes 1024) (encode holmesText) (pinned "pandoc1") "paragraph/2" := by
  have hreads : ReadsAsText (encode holmesText) 1024 := .inl ⟨holmesText, List.take_of_length_le (by decide +kernel)⟩
  have hnumber : requested "paragraph/2" = 2 := by decide +kernel
  refine (@text_range_iff twoVersions.findByLocator holmesSource holmesBytes 1024 (pinned "pandoc1") _ rfl rfl).1.2 (.inr hreads) _
    (by decide +kernel) ?_
  rw [HasParagraph, hnumber]
  exact ⟨by decide, holmes_paragraphs.ge⟩

/-- A ninth paragraph is answered with the second. -/
theorem missing_paragraph_answered : ¬ ∀ (findByLocator : String → String → String → List RegisteredSegment)
    (sources : String → Option SourceRecord) (bytes : String → List UInt8) (maxRangeBytes : Nat) (l : Locator) (source : SourceRecord)
    (path : String), sources l.sourceId = some source → source.sizeBytes = (bytes source.ocflRef).length →
    structuralPattern path.toList = true → RangeKept (byteResolver findByLocator sources bytes maxRangeBytes) (bytes source.ocflRef) l path := by
  intro hall
  have hkept := hall twoVersions.findByLocator holmesSource holmesBytes 1024 (pinned "pandoc1") _ "paragraph/9" rfl rfl (by decide +kernel)
  have hfound : twoVersions.findByLocator "s" "text" "seg" ≠ [] := by decide +kernel
  have hnumber : requested "paragraph/9" = 9 := by decide +kernel
  rcases (@rangeKept_iff twoVersions.findByLocator holmesSource holmesBytes 1024 (pinned "pandoc1") _ rfl rfl "paragraph/9").1 hkept with
    h | ⟨-, -, hle⟩
  · exact hfound h
  · rw [hnumber] at hle
    have hnine := hle.trans holmes_paragraphs.le
    omega

end Umd.Resolution
