import Umd.Lib.FileTree
import Umd.Security.Archive
/-!
# Extracting an archive

`extract_zip` writes the members of a plan one after the other, and looks each up in the
archive by its planned path. `extractMembers_run` says when every member is written, which
places are opened on the way, and what the files then hold; `extraction_iff` has the
archives for which extraction does all or nothing.
-/
open Umd.Lib.PosixPath
open Umd.Lib.FileTree

namespace Umd.Security

/-- What `zf.open` and reading give of an entry: it may refuse, or fail while it is read. -/
inductive ZipData where
  | refused
  | broken
  | bytes (content : List UInt8)
deriving DecidableEq

/-- What can be read of an entry that was opened. -/
def ZipData.read : ZipData → Option (List UInt8)
  | .bytes content => some content
  | .refused | .broken => none

/-- An entry of a zip archive with its data. -/
structure ZipRecord extends ZipInfo where
  data : ZipData

/-- The tree of a file system, and the places that were opened for writing. -/
structure Disk where
  tree : Tree Name (List UInt8)
  opened : List (List Name) := []

inductive ExtractError where
  | denied (denial : ArchiveDenial)
  | noMember (path : Name)
  | zipError
  | osError
deriving DecidableEq

/-- `NameToInfo` has the last entry of a name. -/
def zipOpen (infolist : List ZipRecord) (name : Name) : Option ZipData :=
  (infolist.reverse.find? (·.filename = name)).map (·.data)

section Extract

variable (takes : List Name → Bool) (infolist : List ZipRecord) (dest : List Name)

def extractMember (disk : Disk) (m : ArchiveMember) : Disk × Option ExtractError :=
  let target := locate slash dot dest m.path
  match mkdirs takes disk.tree (parents target) with
  | (tree, false) => ({ disk with tree }, some .osError)
  | (tree, true) =>
    if m.isDir then
      match mkdirs takes tree (parents target ++ [target]) with
      | (tree, true) => ({ disk with tree }, none)
      | (tree, false) => ({ disk with tree }, some .osError)
    else
      match zipOpen infolist m.path with
      | none => ({ disk with tree }, some (.noMember m.path))
      | some .refused => ({ disk with tree }, some .zipError)
      | some data =>
        if CanOpen takes tree target then
          let opened := disk.opened ++ [target]
          match data.read with
          | some content => ({ tree := Function.update tree target (some (.file content)), opened }, none)
          | none => ({ tree := Function.update tree target (some (.file [])), opened }, some .zipError)
        else ({ disk with tree }, some .osError)

def extractMembers (disk : Disk) : List ArchiveMember → Disk × Option ExtractError
  | [] => (disk, none)
  | m :: members =>
    match extractMember takes infolist dest disk m with
    | (disk, none) => extractMembers disk members
    | (disk, some error) => (disk, some error)

def extractZip (lower : Name → Name) (policy : SandboxPolicy) (limits : Option SandboxLimits)
    (tree : Tree Name (List UInt8)) : Disk × Except ExtractError ArchivePlan :=
  match sanitizeZip lower policy (infolist.map (·.toZipInfo)) limits with
  | .error denial => ({ tree }, .error (.denied denial))
  | .ok plan =>
    match extractMembers takes infolist dest { tree } plan.members with
    | (disk, none) => (disk, .ok plan)
    | (disk, some error) => (disk, .error error)

end Extract

/-! ## All or nothing -/

/-- The entries that are files. -/
def fileEntries (infolist : List ZipRecord) : List ZipRecord := infolist.filter (·.filename.getLast? ≠ some slash)

/-- The path an entry is planned at. -/
def ZipRecord.target (e : ZipRecord) : Name := normpath slash dot (posixName e.filename)

/-- Where an entry is to be written. -/
def ZipRecord.place (dest : List Name) (e : ZipRecord) : List Name := locate slash dot dest e.target

/-- Every file entry is written, with its own bytes, at its own planned path. -/
structure Extracted (infolist : List ZipRecord) (dest : List Name) (disk : Disk) (plan : ArchivePlan) : Prop where
  planned : plan.members.map (·.path) = (fileEntries infolist).map (·.target)
  written : ∀ e ∈ fileEntries infolist, ∃ content, e.data = .bytes content ∧ disk.tree (e.place dest) = some (.file content)
  apart : ((fileEntries infolist).map (·.place dest)).Nodup

/-- It raises before a file is opened for writing at or below the destination, or returns with every entry written. -/
def AllOrNothing (infolist : List ZipRecord) (dest : List Name) : Disk × Except ExtractError ArchivePlan → Prop
  | (disk, .error _) => ∀ p ∈ disk.opened, ¬ dest <+: p
  | (disk, .ok plan) => Extracted infolist dest disk plan

section Conditions

variable (takes : List Name → Bool) (infolist : List ZipRecord) (dest : List Name) (tree : Tree Name (List UInt8))

/-- What an entry's planned path finds in the archive. -/
def ZipRecord.found (e : ZipRecord) : Option ZipData := zipOpen infolist e.target

/-- Entries that can be written in turn: each finds bytes, and their places fit in the tree. -/
structure Writable (es : List ZipRecord) : Prop where
  found : ∀ e ∈ es, ∃ content, e.found infolist = some (.bytes content)
  fits : Fits takes tree (es.map (·.place dest))

/-- After these entries, one whose target is opened. -/
structure Opens (es : List ZipRecord) (e : ZipRecord) : Prop where
  before : Writable takes infolist dest tree es
  found : ∃ data, e.found infolist = some data ∧ data ≠ .refused
  fits : Fits takes tree ((es ++ [e]).map (·.place dest))

/-- The extraction after these entries, each of which was written. -/
structure Progress (es : List ZipRecord) (disk : Disk) : Prop where
  writable : Writable takes infolist dest tree es
  written : Written tree (es.map (·.place dest)) disk.tree
  contents : (es.map (·.place dest)).Nodup → ∀ e ∈ es, ∀ content, e.found infolist = some (.bytes content) →
    disk.tree (e.place dest) = some (.file content)
  opened : disk.opened = es.map (·.place dest)

end Conditions

/-! ## One member, and all of them -/

section Runs

variable {takes : List Name → Bool} {infolist : List ZipRecord} {dest : List Name} {tree : Tree Name (List UInt8)}

theorem Writable.of_append {es fs : List ZipRecord} (h : Writable takes infolist dest tree (es ++ fs)) :
    Writable takes infolist dest tree es := by
  refine ⟨fun e he => h.found e (List.mem_append_left _ he), h.fits.mono ?_⟩
  rw [List.map_append]
  exact List.subset_append_left _ _

theorem Writable.opens {es : List ZipRecord} {e : ZipRecord} (h : Writable takes infolist dest tree (es ++ [e])) :
    Opens takes infolist dest tree es e := by
  obtain ⟨content, hfound⟩ := h.found e (List.mem_append_right _ (List.mem_singleton_self e))
  exact ⟨h.of_append, ⟨.bytes content, hfound, nofun⟩, h.fits⟩

theorem Progress.start : Progress takes infolist dest tree [] { tree } :=
  ⟨⟨nofun, Fits.nil tree⟩, Written.nil tree, fun _ => nofun, rfl⟩

/-- One more entry's file, over the directories made for it. -/
theorem Progress.write {es : List ZipRecord} {disk : Disk} (h : Progress takes infolist dest tree es disk) {e : ZipRecord}
    {made : Tree Name (List UInt8)} (hmade : Made disk.tree (parents (e.place dest)) made)
    (hfits : Fits takes tree (es.map (·.place dest) ++ [e.place dest])) {content : List UInt8}
    (hfound : e.found infolist = some (.bytes content)) :
    Progress takes infolist dest tree (es ++ [e])
      { tree := Function.update made (e.place dest) (some (.file content)), opened := disk.opened ++ [e.place dest] } := by
  obtain ⟨hwritten, hkeep⟩ := h.written.write hfits hmade content
  have hmap : (es ++ [e]).map (·.place dest) = es.map (·.place dest) ++ [e.place dest] := List.map_append
  refine ⟨⟨fun a ha => ?_, hmap ▸ hfits⟩, hmap ▸ hwritten, fun hnodup a ha c hc => ?_, ?_⟩
  · rcases List.mem_append.1 ha with ha | ha
    · exact h.writable.found a ha
    · exact List.mem_singleton.1 ha ▸ ⟨content, hfound⟩
  · rw [hmap, List.nodup_append] at hnodup
    rcases List.mem_append.1 ha with ha | ha
    · have hplace := List.mem_map_of_mem (f := (·.place dest)) ha
      dsimp only
      rw [hkeep _ hplace (hnodup.2.2 _ hplace _ (List.mem_singleton_self _))]
      exact h.contents hnodup.1 a ha c hc
    · obtain rfl := List.mem_singleton.1 ha
      rw [hfound] at hc
      cases hc
      exact Function.update_self ..
  · dsimp only
    rw [hmap, h.opened]

/-- What one member does: it is written, or it fails and its target was opened or not. -/
theorem extractMember_step {es : List ZipRecord} {disk : Disk} (h : Progress takes infolist dest tree es disk) (e : ZipRecord)
    (size : Int) :
    (Writable takes infolist dest tree (es ++ [e]) ∧
      ∃ next, extractMember takes infolist dest disk { path := e.target, size } = (next, none) ∧
        Progress takes infolist dest tree (es ++ [e]) next) ∨
    (¬ Writable takes infolist dest tree (es ++ [e]) ∧
      ∃ next error, extractMember takes infolist dest disk { path := e.target, size } = (next, some error) ∧
        ∀ p, p ∈ next.opened ↔ p ∈ disk.opened ∨ Opens takes infolist dest tree es e ∧ p = e.place dest) := by
  obtain ⟨hdirs, hmade⟩ := @mkdirs_spec Name (List UInt8) takes _ (parents (e.place dest)) disk.tree
  have hfits := @fits_concat_iff _ _ takes tree disk.tree _ (e.place dest) h.written h.writable.fits
  have hmap : (es ++ [e]).map (·.place dest) = es.map (·.place dest) ++ [e.place dest] := List.map_append
  have hlast : e ∈ es ++ [e] := List.mem_append_right _ (List.mem_singleton_self e)
  have hplace : locate slash dot dest e.target = e.place dest := rfl
  have hopen : zipOpen infolist e.target = e.found infolist := rfl
  -- a failure before the target is opened
  have hclosed : ¬ Opens takes infolist dest tree es e → ¬ Writable takes infolist dest tree (es ++ [e]) ∧
      ∀ p, p ∈ disk.opened ↔ p ∈ disk.opened ∨ Opens takes infolist dest tree es e ∧ p = e.place dest :=
    fun hnot => ⟨fun hw => hnot hw.opens, fun p => by simp only [hnot, false_and, or_false]⟩
  unfold extractMember
  dsimp only
  rw [hplace, hopen]
  cases hmk : mkdirs takes disk.tree (parents (e.place dest)) with
  | mk made ok =>
    rw [hmk] at hdirs hmade
    cases ok with
    | false =>
      have hnot : ¬ Opens takes infolist dest tree es e := by
        intro hopens
        have hroom := (hfits.1 (hmap ▸ hopens.fits)).1
        exact Bool.false_ne_true (hdirs.2 hroom)
      exact .inr ⟨(hclosed hnot).1, _, _, rfl, (hclosed hnot).2⟩
    | true =>
      have hroom := hdirs.1 rfl
      have hnodes : Made disk.tree (parents (e.place dest)) made := hmade rfl
      dsimp only
      rw [if_neg Bool.false_ne_true]
      cases hfound : e.found infolist with
      | none =>
        have hnot : ¬ Opens takes infolist dest tree es e := by
          rintro ⟨-, ⟨data, hdata, -⟩, -⟩
          rw [hfound] at hdata
          cases hdata
        exact .inr ⟨(hclosed hnot).1, _, _, rfl, (hclosed hnot).2⟩
      | some data =>
        have hself : e.place dest ∉ parents (e.place dest) := fun hmem => (mem_parents.1 hmem).2.2 rfl
        have hcan : CanOpen takes made (e.place dest) ↔ CanOpen takes disk.tree (e.place dest) := by
          unfold CanOpen
          rw [hnodes.rest _ hself]
        by_cases hopened : CanOpen takes made (e.place dest)
        · have hfit := hfits.2 ⟨hroom, hcan.1 hopened⟩
          cases data with
          | refused =>
            have hnot : ¬ Opens takes infolist dest tree es e := by
              rintro ⟨-, ⟨data, hdata, hne⟩, -⟩
              rw [hfound] at hdata
              exact hne (Option.some.inj hdata).symm
            exact .inr ⟨(hclosed hnot).1, _, _, rfl, (hclosed hnot).2⟩
          | broken =>
            have hopens : Opens takes infolist dest tree es e := ⟨h.writable, ⟨_, hfound, nofun⟩, hmap ▸ hfit⟩
            dsimp only
            rw [if_pos hopened]
            refine .inr ⟨fun hw => ?_, _, _, rfl, fun p => ?_⟩
            · obtain ⟨content, hbytes⟩ := hw.found e hlast
              rw [hfound] at hbytes
              cases hbytes
            · rw [List.mem_append, List.mem_singleton, and_iff_right hopens]
          | bytes content =>
            have hnext := h.write hnodes hfit hfound
            dsimp only
            rw [if_pos hopened]
            exact .inl ⟨hnext.writable, _, rfl, hnext⟩
        · have hnot : ¬ Opens takes infolist dest tree es e := by
            intro hopens
            exact hopened (hcan.2 (hfits.1 (hmap ▸ hopens.fits)).2)
          cases data with
          | refused => exact .inr ⟨(hclosed hnot).1, _, _, rfl, (hclosed hnot).2⟩
          | broken =>
            dsimp only
            rw [if_neg hopened]
            exact .inr ⟨(hclosed hnot).1, _, _, rfl, (hclosed hnot).2⟩
          | bytes content =>
            dsimp only
            rw [if_neg hopened]
            exact .inr ⟨(hclosed hnot).1, _, _, rfl, (hclosed hnot).2⟩

/-- All members in turn: either every entry is written, or the run fails with the targets of some opened. -/
theorem extractMembers_run (rest es : List ZipRecord) {disk : Disk} (h : Progress takes infolist dest tree es disk) :
    (Writable takes infolist dest tree (es ++ rest) ∧
      ∃ last, extractMembers takes infolist dest disk (rest.map fun e => { path := e.target, size := e.fileSize }) = (last, none) ∧
        Progress takes infolist dest tree (es ++ rest) last) ∨
    (¬ Writable takes infolist dest tree (es ++ rest) ∧
      ∃ last error, extractMembers takes infolist dest disk (rest.map fun e => { path := e.target, size := e.fileSize }) =
          (last, some error) ∧
        ∀ p, p ∈ last.opened ↔ p ∈ es.map (·.place dest) ∨
          ∃ pre e post, rest = pre ++ e :: post ∧ Opens takes infolist dest tree (es ++ pre) e ∧ p = e.place dest) := by
  induction rest generalizing es disk with
  | nil =>
    rw [List.append_nil]
    exact .inl ⟨h.writable, disk, rfl, h⟩
  | cons e rest ih =>
    rw [List.map_cons]
    unfold extractMembers
    rcases extractMember_step h e e.fileSize with ⟨hw, next, hrun, hnext⟩ | ⟨hw, next, error, hrun, hopened⟩
    · rw [hrun]
      dsimp only
      have hrest := ih (es ++ [e]) hnext
      rw [List.append_assoc, List.singleton_append] at hrest
      rcases hrest with hdone | ⟨hnot, last, error, hlast, hopened⟩
      · exact .inl hdone
      · refine .inr ⟨hnot, last, error, hlast, fun p => ?_⟩
        rw [hopened]
        constructor
        · rintro (hp | ⟨pre, e', post, hsplit, hopens, hp⟩)
          · rw [List.map_append, List.mem_append, List.map_singleton, List.mem_singleton] at hp
            rcases hp with hp | hp
            · exact .inl hp
            · exact .inr ⟨[], e, rest, rfl, by rw [List.append_nil]; exact hw.opens, hp⟩
          · rw [List.append_assoc, List.singleton_append] at hopens
            exact .inr ⟨e :: pre, e', post, by rw [hsplit]; rfl, hopens, hp⟩
        · rintro (hp | ⟨pre, e', post, hsplit, hopens, hp⟩)
          · rw [List.map_append]
            exact .inl (List.mem_append_left _ hp)
          · cases pre with
            | nil =>
              obtain ⟨rfl, rfl⟩ := List.cons.inj hsplit
              rw [hp, List.map_append]
              exact .inl (List.mem_append_right _ (List.mem_singleton_self _))
            | cons e'' pre =>
              obtain ⟨rfl, htail⟩ := List.cons.inj hsplit
              rw [List.append_cons] at hopens
              exact .inr ⟨pre, e', post, htail, hopens, hp⟩
    · rw [hrun]
      have hnot : ¬ Writable takes infolist dest tree (es ++ e :: rest) := by
        intro hall
        rw [List.append_cons] at hall
        exact hw hall.of_append
      refine .inr ⟨hnot, next, error, rfl, fun p => ?_⟩
      rw [hopened, h.opened]
      apply or_congr_right
      constructor
      · rintro ⟨hopens, hp⟩
        exact ⟨[], e, rest, rfl, by rw [List.append_nil]; exact hopens, hp⟩
      · rintro ⟨pre, e', post, hsplit, hopens, hp⟩
        cases pre with
        | nil =>
          obtain ⟨rfl, rfl⟩ := List.cons.inj hsplit
          rw [List.append_nil] at hopens
          exact ⟨hopens, hp⟩
        | cons e'' pre =>
          -- an entry after this one is opened only once this one is written
          obtain ⟨rfl, -⟩ := List.cons.inj hsplit
          rw [List.append_cons] at hopens
          exact absurd hopens.before.of_append hw

/-- The plan of a zip archive that is not refused: one member for each file entry. -/
theorem sanitizeZip_members {lower : Name → Name} {policy : SandboxPolicy} {limits : Option SandboxLimits} {plan : ArchivePlan}
    (h : sanitizeZip lower policy (infolist.map (·.toZipInfo)) limits = .ok plan) :
    plan.members = (fileEntries infolist).map fun e => { path := e.target, size := e.fileSize } := by
  have hplan := (@sanitize_ok lower policy limits (.zip (infolist.map ZipRecord.toZipInfo)) plan h).members
  rw [hplan]
  unfold Archive.entries fileEntries
  dsimp only
  clear h hplan
  induction infolist with
  | nil => rfl
  | cons e infolist ih =>
    rw [List.map_cons, List.filterMap_cons]
    unfold ZipInfo.entry at *
    by_cases hdir : e.filename.getLast? = some slash
    · rw [if_pos hdir, List.filter_cons_of_neg (by simp [hdir])]
      exact ih
    · rw [if_neg hdir, List.filter_cons_of_pos (by simp [hdir])]
      dsimp only
      rw [List.map_cons, List.map_cons, ih]
      rfl

end Runs

section Settled

variable {takes : List Name → Bool} {infolist : List ZipRecord} {dest : List Name} {tree : Tree Name (List UInt8)}
  {lower : Name → Name} {policy : SandboxPolicy} {limits : Option SandboxLimits}

/-- When an archive is extracted all or not at all: it is refused; or every entry can be written, is what its own path
finds, and has a place of its own; or one cannot be written, and none that is opened is at or below the destination. -/
def Atomically (takes : List Name → Bool) (infolist : List ZipRecord) (dest : List Name) (tree : Tree Name (List UInt8))
    (lower : Name → Name) (policy : SandboxPolicy) (limits : Option SandboxLimits) : Prop :=
  (∃ denial, sanitizeZip lower policy (infolist.map (·.toZipInfo)) limits = .error denial) ∨
  (Writable takes infolist dest tree (fileEntries infolist) ∧
    (∀ e ∈ fileEntries infolist, e.found infolist = some e.data) ∧ ((fileEntries infolist).map (·.place dest)).Nodup) ∨
  (¬ Writable takes infolist dest tree (fileEntries infolist) ∧ ∀ pre e post, fileEntries infolist = pre ++ e :: post →
    Opens takes infolist dest tree pre e → ¬ dest <+: e.place dest)

/-- Entries that were all written are as the archive has them if each is what its own path finds and has its own place. -/
theorem extracted_iff {disk : Disk} {plan : ArchivePlan} (h : Progress takes infolist dest tree (fileEntries infolist) disk)
    (hplan : plan.members.map (·.path) = (fileEntries infolist).map (·.target)) :
    Extracted infolist dest disk plan ↔ (∀ e ∈ fileEntries infolist, e.found infolist = some e.data) ∧
      ((fileEntries infolist).map (·.place dest)).Nodup := by
  constructor
  · intro hex
    refine ⟨fun e he => ?_, hex.apart⟩
    obtain ⟨content, hfound⟩ := h.writable.found e he
    obtain ⟨own, hdata, hown⟩ := hex.written e he
    have hfile := h.contents hex.apart e he content hfound
    rw [hown] at hfile
    cases hfile
    rw [hfound, hdata]
  · rintro ⟨hfound, hnodup⟩
    refine ⟨hplan, fun e he => ?_, hnodup⟩
    obtain ⟨content, hbytes⟩ := h.writable.found e he
    have hdata := hfound e he
    rw [hbytes] at hdata
    exact ⟨content, (Option.some.inj hdata).symm, h.contents hnodup e he content hbytes⟩

/-- Extraction is all or nothing for just these archives. -/
theorem extraction_iff (takes : List Name → Bool) (infolist : List ZipRecord) (dest : List Name)
    (tree : Tree Name (List UInt8)) (lower : Name → Name) (policy : SandboxPolicy) (limits : Option SandboxLimits) :
    AllOrNothing infolist dest (extractZip takes infolist dest lower policy limits tree) ↔
      Atomically takes infolist dest tree lower policy limits := by
  unfold extractZip Atomically
  cases hplan : sanitizeZip lower policy (infolist.map (·.toZipInfo)) limits with
  | error denial => exact iff_of_true nofun (.inl ⟨denial, rfl⟩)
  | ok plan =>
    have hmembers := sanitizeZip_members hplan
    have hpaths : plan.members.map (·.path) = (fileEntries infolist).map (·.target) := by
      rw [hmembers, List.map_map]
      rfl
    have hrefused : ¬ ∃ denial, Except.ok plan = (.error denial : Except ArchiveDenial ArchivePlan) := nofun
    dsimp only
    rw [hmembers, or_iff_right hrefused]
    rcases extractMembers_run (fileEntries infolist) [] (@Progress.start takes infolist dest tree) with
      ⟨hw, last, hrun, hlast⟩ | ⟨hw, last, error, hrun, hopened⟩
    · rw [List.nil_append] at hw hlast
      rw [hrun]
      simp only [hw, true_and, not_true_eq_false, false_and, or_false]
      exact extracted_iff hlast hpaths
    · rw [List.nil_append] at hw
      rw [hrun]
      simp only [hw, false_and, not_false_eq_true, true_and, false_or]
      show (∀ p ∈ last.opened, ¬ dest <+: p) ↔ _
      constructor
      · intro hnone pre e post hsplit hopens
        exact hnone _ ((hopened _).2 (.inr ⟨pre, e, post, hsplit, hopens, rfl⟩))
      · intro hnone p hp
        rcases (hopened p).1 hp with hnil | ⟨pre, e, post, hsplit, hopens, rfl⟩
        · exact absurd hnil List.not_mem_nil
        · exact hnone pre e post hsplit hopens

end Settled

/-- The second of two entries is planned at `b`, a name the archive does not have: it is not found once the first is written. -/
theorem partly_written : ¬ AllOrNothing [⟨⟨[97], 0, 1⟩, .bytes [1]⟩, ⟨⟨[dot, slash, 98], 0, 1⟩, .bytes [2]⟩] [[100]]
    (extractZip (fun _ => true) [⟨⟨[97], 0, 1⟩, .bytes [1]⟩, ⟨⟨[dot, slash, 98], 0, 1⟩, .bytes [2]⟩] [[100]] id {} none
      fun _ => none) := by
  have hrun : extractZip (fun _ => true) [⟨⟨[97], 0, 1⟩, .bytes [1]⟩, ⟨⟨[dot, slash, 98], 0, 1⟩, .bytes [2]⟩] [[100]] id {} none
      (fun _ => none) = (_, .error (.noMember [98])) := rfl
  rw [hrun]
  intro hnone
  exact hnone [[100], [97]] (by decide +kernel) (by decide +kernel)

end Umd.Security
