import Umd.Lib.PosixPath
/-!
# Archive plans

The members of a zip or tar archive are checked one by one, before any is written:
`admit_ok` and the two member lemmas say what a member that passes adds to the plan,
and `sanitize_ok` says it of the whole archive. `plan_safe_iff` has the archives whose
plan keeps what the checks are there for. A name is the list of its characters' codes,
so that the surrogates which stand for odd bytes are names too.
-/
open Umd.Lib.PosixPath

namespace Umd.Security

abbrev Name := List Nat

def slash : Nat := 47
def dot : Nat := 46
def backslash : Nat := 92
def colon : Nat := 58

structure ArchiveDenial where
  reason : String
  member : Option Name := none
deriving DecidableEq

structure ArchiveMember where
  path : Name
  size : Int
  isDir : Bool := false
deriving DecidableEq

structure ArchivePlan where
  members : List ArchiveMember := []
  totalDecompressed : Int := 0
deriving DecidableEq

structure SandboxPolicy where
  archiveAllowExtensions : List Name := []
  rejectAbsolute : Bool := true
  rejectTraversal : Bool := true
  rejectSymlinks : Bool := true

structure SandboxLimits where
  maxFiles : Int := 1000
  maxDecompressedBytes : Int := 512 * 1024 * 1024

/-- `name.replace("\\", "/")`. -/
def posixName (name : Name) : Name := name.map fun c => if c = backslash then slash else c

def isWindowsAbs (name : Name) : Bool := name.length ≥ 3 && (name.drop 1).take 2 = [colon, slash]

def safeRelpath (name : Name) (rejectAbsolute rejectTraversal : Bool) : Option Name :=
  if name = [] then none
  else
    let name := posixName name
    if rejectAbsolute && (name.head? = some slash || isWindowsAbs name) then none
    else
      let norm := normpath slash dot name
      if norm = [dot, dot] || [dot, dot, slash].isPrefixOf norm then none
      else if rejectTraversal && (components slash name).contains [dot, dot] then none
      else some norm

/-- One member of a zip archive. -/
structure ZipInfo where
  filename : Name
  externalAttr : Nat := 0
  fileSize : Int := 0

/-- What a tar header says a member is. -/
inductive TarType where
  | reg | dir | sym | lnk | chr | blk | fifo
deriving DecidableEq

structure TarInfo where
  name : Name
  type : TarType := .reg
  size : Int := 0

def TarInfo.isdev (member : TarInfo) : Bool := member.type = .chr || member.type = .blk || member.type = .fifo

/-- The file type in a unix mode. -/
def fileType (mode : Nat) : Nat := mode &&& 0o170000

section Sanitize

variable (lower : Name → Name) (policy : SandboxPolicy) (limits : SandboxLimits)

def allowed (relpath : Name) : Bool :=
  if policy.archiveAllowExtensions = [] then true
  else (policy.archiveAllowExtensions.map fun e => dot :: lower e).contains (lower (suffix slash dot relpath))

/-- What both formats check of a path that is safe, and what they then plan. -/
def planMember (plan : ArchivePlan) (relpath : Name) (size : Int) : Except ArchiveDenial ArchivePlan :=
  if !allowed lower policy relpath then .error ⟨"member extension not allowlisted", some relpath⟩
  else if (plan.members.length : Int) ≥ limits.maxFiles then
    .error ⟨"archive exceeds max_files=" ++ toString limits.maxFiles, none⟩
  else
    let total := plan.totalDecompressed + size
    if total > limits.maxDecompressedBytes then
      .error ⟨"archive exceeds max_decompressed_bytes=" ++ toString limits.maxDecompressedBytes, none⟩
    else .ok { members := plan.members ++ [{ path := relpath, size }], totalDecompressed := total }

def zipMember (plan : ArchivePlan) (info : ZipInfo) : Except ArchiveDenial ArchivePlan :=
  if info.filename.getLast? = some slash then .ok plan
  else if policy.rejectSymlinks && fileType (info.externalAttr >>> 16) = 0o120000 then
    .error ⟨"symlink member", some info.filename⟩
  else
    match safeRelpath info.filename policy.rejectAbsolute policy.rejectTraversal with
    | none => .error ⟨"unsafe path (absolute/traversal)", some info.filename⟩
    | some relpath => planMember lower policy limits plan relpath info.fileSize

def tarMember (plan : ArchivePlan) (member : TarInfo) : Except ArchiveDenial ArchivePlan :=
  if policy.rejectSymlinks && (member.type = .sym || member.type = .lnk || member.isdev) then
    .error ⟨"link/device member", some member.name⟩
  else
    match safeRelpath member.name policy.rejectAbsolute policy.rejectTraversal with
    | none => .error ⟨"unsafe path (absolute/traversal)", some member.name⟩
    | some relpath => if member.type = .dir then .ok plan else planMember lower policy limits plan relpath member.size

end Sanitize

section Plans

variable (lower : Name → Name) (policy : SandboxPolicy)

def sanitizeZip (infolist : List ZipInfo) (limits : Option SandboxLimits) : Except ArchiveDenial ArchivePlan :=
  infolist.foldlM (zipMember lower policy (limits.getD {})) {}

def sanitizeTar (members : List TarInfo) (limits : Option SandboxLimits) : Except ArchiveDenial ArchivePlan :=
  members.foldlM (tarMember lower policy (limits.getD {})) {}

/-! ## What is to be written -/

/-- What a member is in the file system. -/
inductive Kind where
  | regular | symlink | hardlink | device
deriving DecidableEq

/-- A member that is to be written. -/
structure Entry where
  name : Name
  size : Int
  kind : Kind

/-- Where an entry is to be written, from the destination. -/
def Entry.target (e : Entry) : Name := normpath slash dot (posixName e.name)

def ZipInfo.kind (info : ZipInfo) : Kind :=
  let type := fileType (info.externalAttr >>> 16)
  if type = 0o120000 then .symlink
  else if type = 0o020000 ∨ type = 0o060000 ∨ type = 0o010000 then .device
  else .regular

def TarInfo.kind (member : TarInfo) : Kind :=
  match member.type with
  | .sym => .symlink
  | .lnk => .hardlink
  | .chr | .blk | .fifo => .device
  | .reg | .dir => .regular

inductive Archive where
  | zip (infolist : List ZipInfo)
  | tar (members : List TarInfo)

def sanitize (limits : Option SandboxLimits) : Archive → Except ArchiveDenial ArchivePlan
  | .zip infolist => sanitizeZip lower policy infolist limits
  | .tar members => sanitizeTar lower policy members limits

/-- The entry of a zip member, unless its name says it is a directory. -/
def ZipInfo.entry (info : ZipInfo) : Option Entry :=
  if info.filename.getLast? = some slash then none else some ⟨info.filename, info.fileSize, info.kind⟩

/-- The entry of a tar member, unless its header says it is a directory. -/
def TarInfo.entry (member : TarInfo) : Option Entry :=
  if member.type = .dir then none else some ⟨member.name, member.size, member.kind⟩

def Archive.entries : Archive → List Entry
  | .zip infolist => infolist.filterMap ZipInfo.entry
  | .tar members => members.filterMap TarInfo.entry

/-- What the checks are there for: the plan is the archive's entries, each below every
destination, within the limits and the allowlist, and with no link or device. -/
structure Safe (limits : SandboxLimits) (archive : Archive) (plan : ArchivePlan) : Prop where
  entries : plan.members = archive.entries.map fun e => { path := e.target, size := e.size }
  inside : ∀ m ∈ plan.members, m.path.head? ≠ some slash ∧ [dot, dot] ∉ components slash m.path ∧
    ∀ dir, ∃ rest, rest ≠ [] ∧ locate slash dot dir m.path = dir ++ rest
  files : (plan.members.length : Int) ≤ limits.maxFiles
  bytes : (plan.members.map (·.size)).sum = plan.totalDecompressed ∧ plan.totalDecompressed ≤ limits.maxDecompressedBytes
  extensions : policy.archiveAllowExtensions ≠ [] → ∀ m ∈ plan.members,
    lower (suffix slash dot m.path) ∈ policy.archiveAllowExtensions.map fun e => dot :: lower e
  plain : policy.rejectSymlinks = true → ∀ e ∈ archive.entries, e.kind = .regular

/-- The archives whose plan is safe: no entry is the destination itself, a zip has no device
among its entries, and the limits are at least zero if there is nothing to write. -/
structure Plannable (limits : SandboxLimits) (archive : Archive) : Prop where
  named : ∀ e ∈ archive.entries, e.target ≠ [dot]
  devices : policy.rejectSymlinks = true → ∀ infolist, archive = .zip infolist →
    ∀ info ∈ infolist, info.filename.getLast? ≠ some slash → info.kind ≠ .device
  room : archive.entries = [] → 0 ≤ limits.maxFiles ∧ 0 ≤ limits.maxDecompressedBytes

/-! ## What a plan records -/

variable {lower policy}

/-- What both formats have checked of an entry's path. -/
def PathChecked (lower : Name → Name) (policy : SandboxPolicy) (e : Entry) : Prop :=
  safeRelpath e.name policy.rejectAbsolute policy.rejectTraversal = some e.target ∧ allowed lower policy e.target = true

/-- The plan for the entries so far, each of which has passed its format's checks. -/
structure Planned (limits : SandboxLimits) (checked : Entry → Prop) (entries : List Entry) (plan : ArchivePlan) : Prop where
  members : plan.members = entries.map fun e => { path := e.target, size := e.size }
  total : plan.totalDecompressed = (entries.map (·.size)).sum
  checked : ∀ e ∈ entries, checked e
  room : entries ≠ [] → (plan.members.length : Int) ≤ limits.maxFiles ∧ plan.totalDecompressed ≤ limits.maxDecompressedBytes

theorem safeRelpath_some {name path : Name} {absolute traversal : Bool} (h : safeRelpath name absolute traversal = some path) :
    (absolute = true → (posixName name).head? ≠ some slash) ∧ path = normpath slash dot (posixName name) ∧
      path ≠ [dot, dot] ∧ ¬ [dot, dot, slash] <+: path := by
  unfold safeRelpath at h
  split at h
  · cases h
  · dsimp only at h
    split at h
    · cases h
    · rename_i habs
      split at h
      · cases h
      · rename_i hup
        split at h
        · cases h
        · cases h
          simp only [Bool.and_eq_true, Bool.or_eq_true, decide_eq_true_eq, not_and, not_or] at habs
          simp only [Bool.or_eq_true, decide_eq_true_eq, List.isPrefixOf_iff_prefix, not_or] at hup
          exact ⟨fun ha => (habs ha).1, rfl, hup⟩

/-- A member that is planned has its suffix allowed and leaves the plan within the limits. -/
theorem admit_ok {limits : SandboxLimits} {plan plan' : ArchivePlan} {relpath : Name} {size : Int}
    (h : planMember lower policy limits plan relpath size = .ok plan') :
    allowed lower policy relpath = true ∧
      plan' = { members := plan.members ++ [{ path := relpath, size }], totalDecompressed := plan.totalDecompressed + size } ∧
      (plan'.members.length : Int) ≤ limits.maxFiles ∧ plan'.totalDecompressed ≤ limits.maxDecompressedBytes := by
  unfold planMember at h
  split at h
  · cases h
  · rename_i hallowed
    split at h
    · cases h
    · rename_i hfiles
      dsimp only at h
      split at h
      · cases h
      · rename_i hbytes
        cases h
        refine ⟨by simpa using hallowed, rfl, ?_, not_lt.1 hbytes⟩
        rw [List.length_append, List.length_singleton]
        push_cast
        omega

theorem Planned.empty (limits : SandboxLimits) (checked : Entry → Prop) : Planned limits checked [] {} :=
  ⟨rfl, rfl, fun _ he => absurd he List.not_mem_nil, fun hne => absurd rfl hne⟩

theorem Planned.member {limits : SandboxLimits} {checked : Entry → Prop} {entries : List Entry} {plan plan' : ArchivePlan}
    (hplan : Planned limits checked entries plan) {e : Entry} (he : checked e)
    (h : planMember lower policy limits plan e.target e.size = .ok plan') : Planned limits checked (entries ++ [e]) plan' := by
  obtain ⟨-, rfl, hroom⟩ := admit_ok h
  exact {
    members := by rw [hplan.members, List.map_append, List.map_singleton]
    total := by rw [hplan.total, List.map_append, List.map_singleton, List.sum_append, List.sum_singleton]
    checked := fun e' he' => by
      rcases List.mem_append.1 he' with he' | he'
      · exact hplan.checked e' he'
      · exact List.mem_singleton.1 he' ▸ he
    room := fun _ => hroom }

/-- What a zip member adds that passes. -/
theorem zipMember_ok {limits : SandboxLimits} {plan plan' : ArchivePlan} {info : ZipInfo}
    (h : zipMember lower policy limits plan info = .ok plan') :
    (info.entry = none ∧ plan' = plan) ∨ ∃ e, info.entry = some e ∧
      (PathChecked lower policy e ∧ (policy.rejectSymlinks = true → e.kind ≠ .symlink ∧ e.kind ≠ .hardlink)) ∧
      planMember lower policy limits plan e.target e.size = .ok plan' := by
  unfold zipMember at h
  split at h
  · rename_i hdir
    cases h
    exact .inl ⟨if_pos hdir, rfl⟩
  · rename_i hdir
    split at h
    · cases h
    · rename_i hlink
      cases hpath : safeRelpath info.filename policy.rejectAbsolute policy.rejectTraversal with
      | none => rw [hpath] at h; cases h
      | some relpath =>
        rw [hpath] at h
        obtain ⟨-, rfl, -, -⟩ := safeRelpath_some hpath
        refine .inr ⟨_, if_neg hdir, ⟨⟨hpath, (admit_ok h).1⟩, fun hreject => ?_⟩, h⟩
        have hmode : fileType (info.externalAttr >>> 16) ≠ 0o120000 := by
          intro hmode
          exact hlink (by rw [hreject, hmode]; rfl)
        unfold ZipInfo.kind
        dsimp only
        rw [if_neg hmode]
        split <;> exact ⟨nofun, nofun⟩

/-- What a tar member adds that passes. -/
theorem tarMember_ok {limits : SandboxLimits} {plan plan' : ArchivePlan} {member : TarInfo}
    (h : tarMember lower policy limits plan member = .ok plan') :
    (member.entry = none ∧ plan' = plan) ∨ ∃ e, member.entry = some e ∧
      (PathChecked lower policy e ∧ (policy.rejectSymlinks = true → e.kind = .regular)) ∧
      planMember lower policy limits plan e.target e.size = .ok plan' := by
  unfold tarMember at h
  split at h
  · cases h
  · rename_i hlink
    cases hpath : safeRelpath member.name policy.rejectAbsolute policy.rejectTraversal with
    | none => rw [hpath] at h; cases h
    | some relpath =>
      rw [hpath] at h
      obtain ⟨-, rfl, -, -⟩ := safeRelpath_some hpath
      dsimp only at h
      split at h
      · rename_i hdir
        cases h
        exact .inl ⟨if_pos hdir, rfl⟩
      · rename_i hdir
        refine .inr ⟨_, if_neg hdir, ⟨⟨hpath, (admit_ok h).1⟩, fun hreject => ?_⟩, h⟩
        rw [hreject] at hlink
        unfold TarInfo.kind TarInfo.isdev at *
        cases htype : member.type <;> rw [htype] at hlink <;> first | rfl | exact absurd rfl hlink

/-- The plan of a whole archive, from what one member adds. -/
theorem planned_members {α : Type} {limits : SandboxLimits} {checked : Entry → Prop} {entry : α → Option Entry}
    {step : ArchivePlan → α → Except ArchiveDenial ArchivePlan}
    (hstep : ∀ plan plan' x, step plan x = .ok plan' → (entry x = none ∧ plan' = plan) ∨
      ∃ e, entry x = some e ∧ checked e ∧ planMember lower policy limits plan e.target e.size = .ok plan')
    {members : List α} {before : List Entry} {plan plan' : ArchivePlan} (hplan : Planned limits checked before plan)
    (h : members.foldlM step plan = .ok plan') : Planned limits checked (before ++ members.filterMap entry) plan' := by
  induction members generalizing before plan with
  | nil =>
    cases h
    rwa [List.filterMap_nil, List.append_nil]
  | cons x members ih =>
    rw [List.foldlM_cons] at h
    cases hx : step plan x with
    | error denial => rw [hx] at h; cases h
    | ok next =>
      rw [hx] at h
      rcases hstep _ _ _ hx with ⟨hnone, rfl⟩ | ⟨e, hsome, he, hadmit⟩
      · rw [List.filterMap_cons_none hnone]
        exact ih hplan h
      · rw [List.filterMap_cons_some hsome, List.append_cons]
        exact ih (hplan.member he hadmit) h

/-- The kinds of entries that an archive's format lets pass under `reject_symlinks`. -/
def Archive.Lets : Archive → Kind → Prop
  | .zip _, kind => kind ≠ .symlink ∧ kind ≠ .hardlink
  | .tar _, kind => kind = .regular

/-- What a plan records of an archive: the checks that both formats make, and the kinds that each leaves out. -/
theorem sanitize_ok {limits : Option SandboxLimits} {archive : Archive} {plan : ArchivePlan}
    (h : sanitize lower policy limits archive = .ok plan) :
    Planned (limits.getD {}) (fun e => PathChecked lower policy e ∧ (policy.rejectSymlinks = true → archive.Lets e.kind))
      archive.entries plan := by
  cases archive with
  | zip infolist =>
    have hstep := fun plan plan' info => @zipMember_ok lower policy (limits.getD {}) plan plan' info
    exact planned_members hstep (Planned.empty _ _) h
  | tar members =>
    have hstep := fun plan plan' member => @tarMember_ok lower policy (limits.getD {}) plan plan' member
    exact planned_members hstep (Planned.empty _ _) h

/-! ## Safe plans -/

/-- A path that is checked is either the destination itself or strictly below it, from every destination. -/
theorem target_inside {e : Entry} (habs : policy.rejectAbsolute = true) (h : PathChecked lower policy e)
    (hdot : e.target ≠ [dot]) : e.target.head? ≠ some slash ∧ [dot, dot] ∉ components slash e.target ∧
      ∀ dir, ∃ rest, rest ≠ [] ∧ locate slash dot dir e.target = dir ++ rest := by
  obtain ⟨hrel, -, hup⟩ := safeRelpath_some h.1
  rcases normpath_relative (hrel habs) hup with hnorm | ⟨names, hne, hnames, hnorm⟩
  · exact absurd hnorm hdot
  · have htarget : e.target = [slash].intercalate names := hnorm
    rw [htarget]
    obtain ⟨hcomps, hhead, -⟩ := locate_names hne hnames []
    refine ⟨hhead, ?_, fun dir => ⟨names, hne, (locate_names hne hnames dir).2.2⟩⟩
    rw [hcomps]
    exact fun hmem => (hnames _ hmem).2.2.1 rfl

theorem allowed_suffix {path : Name} (h : allowed lower policy path = true) (hext : policy.archiveAllowExtensions ≠ []) :
    lower (suffix slash dot path) ∈ policy.archiveAllowExtensions.map fun e => dot :: lower e := by
  unfold allowed at h
  rw [if_neg hext] at h
  exact List.contains_iff_mem.1 h

/-- An archive's entries have no link or device if the kinds that its format leaves out are the only ones. -/
theorem entries_plain {archive : Archive} (hdev : ∀ infolist, archive = .zip infolist →
      ∀ info ∈ infolist, info.filename.getLast? ≠ some slash → info.kind ≠ .device)
    (h : ∀ e ∈ archive.entries, archive.Lets e.kind) : ∀ e ∈ archive.entries, e.kind = .regular := by
  intro e he
  cases archive with
  | tar members => exact h e he
  | zip infolist =>
    obtain ⟨hsym, hhard⟩ := h e he
    obtain ⟨info, hinfo, hentry⟩ := List.mem_filterMap.1 he
    unfold ZipInfo.entry at hentry
    split at hentry
    · cases hentry
    · rename_i hdir
      have hdevice := hdev infolist rfl info hinfo hdir
      cases hentry
      cases hkind : info.kind with
      | regular => rfl
      | symlink => exact absurd hkind hsym
      | hardlink => exact absurd hkind hhard
      | device => exact absurd hkind hdevice

/-- The plan that the checks return is safe for exactly the plannable archives. -/
theorem plan_safe_iff {limits : Option SandboxLimits} {archive : Archive} {plan : ArchivePlan}
    (habs : policy.rejectAbsolute = true) (h : sanitize lower policy limits archive = .ok plan) :
    Safe lower policy (limits.getD {}) archive plan ↔ Plannable policy (limits.getD {}) archive := by
  have hplan := sanitize_ok h
  constructor
  · intro hsafe
    refine ⟨fun e he hdot => ?_, fun hreject infolist harch info hinfo hdir hdev => ?_, fun hnil => ?_⟩
    · -- the dot leads nowhere from the root
      have hmem : ({ path := e.target, size := e.size } : ArchiveMember) ∈ plan.members := by
        rw [hplan.members]
        exact List.mem_map_of_mem he
      obtain ⟨rest, hne, hrest⟩ := (hsafe.inside _ hmem).2.2 []
      dsimp only at hrest
      rw [hdot] at hrest
      exact hne hrest.symm
    · have he : (⟨info.filename, info.fileSize, info.kind⟩ : Entry) ∈ archive.entries := by
        rw [harch]
        exact List.mem_filterMap.2 ⟨info, hinfo, if_neg hdir⟩
      have hplain := hsafe.plain hreject _ he
      rw [hdev] at hplain
      cases hplain
    · have hmembers := hplan.members
      have hfiles := hsafe.files
      have hbytes := hsafe.bytes.2
      rw [hnil, List.map_nil] at hmembers
      rw [hmembers] at hfiles
      rw [hplan.total, hnil] at hbytes
      exact ⟨hfiles, hbytes⟩
  · intro hcond
    have hroom : (plan.members.length : Int) ≤ (limits.getD {}).maxFiles ∧
        plan.totalDecompressed ≤ (limits.getD {}).maxDecompressedBytes := by
      by_cases hnil : archive.entries = []
      · rw [hplan.members, hplan.total, hnil]
        exact hcond.room hnil
      · exact hplan.room hnil
    refine ⟨hplan.members, fun m hm => ?_, hroom.1, ⟨?_, hroom.2⟩, fun hext m hm => ?_, fun hreject => ?_⟩
    · rw [hplan.members] at hm
      obtain ⟨e, he, rfl⟩ := List.mem_map.1 hm
      exact target_inside habs (hplan.checked e he).1 (hcond.named e he)
    · rw [hplan.total, hplan.members, List.map_map]
      rfl
    · rw [hplan.members] at hm
      obtain ⟨e, he, rfl⟩ := List.mem_map.1 hm
      exact allowed_suffix (hplan.checked e he).1.2 hext
    · exact entries_plain (hcond.devices hreject) fun e he => (hplan.checked e he).2 hreject

/-- A page in a directory, under an allowlist that has its suffix. -/
theorem plan_safe_iff_page : Safe id ⟨[[120]], true, true, true⟩ {} (.zip [⟨[97, slash, 98, dot, 120], 0, 3⟩])
    ⟨[⟨[97, slash, 98, dot, 120], 3, false⟩], 3⟩ :=
  (@plan_safe_iff id ⟨[[120]], true, true, true⟩ none _ _ rfl (by decide +kernel)).2
    ⟨by decide +kernel, fun _ _ harch info hinfo _ => by cases harch; cases List.mem_singleton.1 hinfo; decide +kernel, by decide +kernel⟩

/-- A member named by a dot is planned, and its path is the destination itself. -/
theorem dot_is_planned : sanitize id {} none (.zip [⟨[dot], 0, 0⟩]) = .ok ⟨[⟨[dot], 0, false⟩], 0⟩ ∧
    ¬ Safe id {} {} (.zip [⟨[dot], 0, 0⟩]) ⟨[⟨[dot], 0, false⟩], 0⟩ := by
  refine ⟨by decide +kernel, fun hsafe => ?_⟩
  obtain ⟨rest, hne, hrest⟩ := (hsafe.inside _ (List.mem_singleton_self _)).2.2 []
  exact hne hrest.symm

/-- A character device in a zip is planned, though links and devices are to be rejected. -/
example : sanitize id {} none (.zip [⟨[97], 0o020666 <<< 16, 0⟩]) = .ok ⟨[⟨[97], 0, false⟩], 0⟩ := by decide +kernel

end Plans

end Umd.Security
