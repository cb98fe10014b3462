import Hamn.Guest.ImageUtil

/-!
# SizeGate — the size evidence and its check (`guest/image/size_gate.c`)

* `sizeGateRun`: the report of a build, written and then held against the limits and the reviewed budget.
* `sizeReleaseVerify`: the publication check of an image, its report and the budget.
* `sizeReleaseVerify_of_run`: what a run accepts can be published, as long as its report can be read.
* `sizes_fit`: no signed result overflows, whatever a report claims.
-/

open Bytes Result

namespace Hamn.SizeGate

open StrictJson

/-! ## Model -/

structure SizeGateOptions where
  baseline : String
  candidate : String
  packagesBefore : String
  packagesAfter : String
  report : String
  budget : String
  baseSha256 : Bytes
  sourceRevision : Bytes
  reviewOnly : Bool

def sizeBudgetValidate (budget : JsonValue) : Except Failure Unit :=
  let valid : Bool := match budget with
    | .object members =>
      members.length == 4 && jsonIntegerValue (objectGet (ascii "schemaVersion") budget) == some 1 &&
        (match jsonIntegerValue (objectGet (ascii "maximumCompressedBytes") budget) with
        | some maximum => 0 < maximum && maximum < IMAGE_RELEASE_ASSET_LIMIT
        | none => false) &&
        imageJsonLowerHex 64 (objectGet (ascii "referenceImageSha256") budget) &&
        imageJsonLowerHex 64 (objectGet (ascii "footprintReportSha256") budget)
    | _ => false
  if valid then .ok () else imageFail "invalid reviewed size budget"

def PROPOSAL_SUFFIX : String := ".budget-proposal.json"

/-- A leading or trailing dot of the name is not a suffix. -/
def proposalPath (report : String) : String :=
  let chars := report.toList
  let name := chars.rtakeWhile (· ≠ '/')
  let stem := name.rdropWhile (· ≠ '.')
  let keep := if 1 < stem.length ∧ stem.length < name.length then chars.length - name.length + (stem.length - 1)
    else chars.length
  String.ofList (chars.take keep) ++ PROPOSAL_SUFFIX

/-- The members that `add_member` adds one after the other. -/
def addMembers (members : List (String × JsonValue)) : JsonValue :=
  .object (members.foldl (fun object m => jsonObjectSet (ascii m.1) m.2 object) [])

def stringArray (items : List String) : JsonValue := .array (items.map fun item => .string (ascii item))

def cleanup : List String :=
  ["build dependencies", "snapd and lxd-installer", "kernel device trees", "apt archives and lists",
    "temporary sources", "logs and journals", "cloud-init state", "machine-id", "SSH host keys",
    "systemd random seed", "duplicate files as hard links", "filesystem journal", "free filesystem blocks"]

def readInventory (files : Files) (path : String) : Except Failure (List Bytes) := do
  let content ← readContent files path
  (sizePackageInventory path content.val).mapError fun text => .message (Utf8.text text.toList)

/-- What is measured of the two images. -/
structure Measured where
  baseline : ℤ
  candidate : ℤ
  required : ℤ
  saved : ℤ
  baselineSha : Bytes
  imageSha : Bytes
  before : List Bytes
  after : List Bytes

def measure (files : Files) (options : SizeGateOptions) : Except Failure Measured :=
  if ¬ (imageLowerHex 64 options.baseSha256 ∧ imageLowerHex 40 options.sourceRevision) then
    imageFail "invalid source identity"
  else do
    let baseline ← fileSize files options.baseline
    let candidate ← fileSize files options.candidate
    if baseline ≤ 0 ∨ candidate ≤ 0 then imageFail "empty baseline or candidate"
    else
      let required ← imageRequiredSavings baseline
      let baselineSha ← sha256File files options.baseline
      let imageSha ← sha256File files options.candidate
      let before ← readInventory files options.packagesBefore
      let after ← readInventory files options.packagesAfter
      let saved ← checked (baseline - candidate)
      return ⟨baseline, candidate, required, saved, baselineSha, imageSha, before, after⟩

def reportMembers (options : SizeGateOptions) (m : Measured) : List (String × JsonValue) :=
  [("schemaVersion", jsonNewInteger 1), ("baseImageSha256", .string options.baseSha256),
    ("sourceRevision", .string options.sourceRevision), ("virtualBytes", jsonNewInteger IMAGE_VIRTUAL_BYTES),
    ("baselineCompressedBytes", jsonNewInteger m.baseline), ("compressedBytes", jsonNewInteger m.candidate),
    ("baselineSha256", .string m.baselineSha), ("imageSha256", .string m.imageSha),
    ("savedBytes", jsonNewInteger m.saved), ("requiredSavingsBytes", jsonNewInteger m.required),
    ("packagesBefore", .array (m.before.map .string)), ("packagesAfter", .array (m.after.map .string)),
    ("cleanup", stringArray cleanup),
    ("runtimeValidation", .string (ascii "required: physical boot, Docker, Compose, Buildx, reboot")),
    ("reviewOnly", if options.reviewOnly then .true else .false)]

def sizeReport (options : SizeGateOptions) (m : Measured) : JsonValue := addMembers (reportMembers options m)

section Run

variable {D : Type} (libc : Libc D)

/-- What follows once the report is written. -/
def gate (files : Files) (options : SizeGateOptions) (m : Measured) : Except Failure Files :=
  if m.candidate ≥ IMAGE_RELEASE_ASSET_LIMIT then
    imageFail "compressed guest image exceeds the GitHub release asset limit"
  else do
    if (← checked (m.baseline - m.candidate)) < m.required then
      imageFail "image savings are below max(64 MiB, 5%)"
    else if options.reviewOnly then
      let reportSha ← sha256File files options.report
      imageWriteJson libc files (proposalPath options.report) (addMembers
        [("schemaVersion", jsonNewInteger 1), ("maximumCompressedBytes", jsonNewInteger m.candidate),
          ("referenceImageSha256", .string m.imageSha), ("footprintReportSha256", .string reportSha)])
    else if regularNotSymlink files options.budget = false then
      imageFail "reviewed release-size-budget.json is required; use review-only to produce evidence"
    else
      let budget ← imageReadJson libc.finite files options.budget
      sizeBudgetValidate budget
      if m.candidate > (jsonIntegerValue (objectGet (ascii "maximumCompressedBytes") budget)).getD 0 then
        imageFail "guest image exceeds reviewed size budget; review the footprint report before changing it"
      else .ok files

/-- The result, and the files that are left. -/
def sizeGateRun (files : Files) (options : SizeGateOptions) : Except Failure Unit × Files :=
  let written : Except Failure (Measured × Files) := do
    let m ← measure files options
    let files' ← imageWriteJson libc files options.report (sizeReport options m)
    return (m, files')
  match written with
  | .error failure => (.error failure, files)
  | .ok (m, files') =>
    match gate libc files' options m with
    | .error failure => (.error failure, files')
    | .ok files'' => (.ok (), files'')

end Run

def positiveInteger (report : JsonValue) (key : String) : Option ℤ :=
  (jsonIntegerValue (objectGet (ascii key) report)).filter (0 < ·)

def nonemptyStringList : Option JsonValue → Bool
  | some (.array items) => !items.isEmpty && items.all fun
    | .string text => !text.isEmpty
    | _ => false
  | _ => false

/-- The sizes of a report. -/
structure Sizes where
  compressed : ℤ
  baseline : ℤ
  saved : ℤ
  requiredReported : ℤ
  virtualBytes : ℤ

def reportSizes (report : JsonValue) : Option Sizes := do
  let compressed ← positiveInteger report "compressedBytes"
  let baseline ← positiveInteger report "baselineCompressedBytes"
  let saved ← positiveInteger report "savedBytes"
  let requiredReported ← positiveInteger report "requiredSavingsBytes"
  let virtualBytes ← positiveInteger report "virtualBytes"
  return ⟨compressed, baseline, saved, requiredReported, virtualBytes⟩

def isFalse : Option JsonValue → Bool
  | some .false => true
  | _ => false

def isObject : JsonValue → Bool
  | .object _ => true
  | _ => false

def sizeReleaseVerify (finite : Bytes → Bool) (files : Files) (image reportPath budgetPath : String)
    (expectedRevision : Option Bytes) : Except Failure Unit :=
  if ¬ (regularNotSymlink files image ∧ regularNotSymlink files reportPath ∧ regularNotSymlink files budgetPath) then
    imageFail "regular image, size report and reviewed release-size-budget.json are required"
  else do
    let report ← imageReadJson finite files reportPath
    let budget ← imageReadJson finite files budgetPath
    sizeBudgetValidate budget
    if ¬ (isObject report ∧ jsonIntegerValue (objectGet (ascii "schemaVersion") report) = some 1 ∧
        isFalse (objectGet (ascii "reviewOnly") report)) then
      imageFail "review-only or invalid image report cannot be published"
    else
      match reportSizes report with
      | none => imageFail "invalid image report sizes"
      | some sizes =>
        if ¬ (imageJsonLowerHex 64 (objectGet (ascii "imageSha256") report) ∧
            imageJsonLowerHex 64 (objectGet (ascii "baselineSha256") report) ∧
            imageJsonLowerHex 64 (objectGet (ascii "baseImageSha256") report)) then
          imageFail "invalid image report digest"
        else if imageJsonLowerHex 40 (objectGet (ascii "sourceRevision") report) = false then
          imageFail "invalid image source revision"
        else if ∃ revision ∈ expectedRevision,
            jsonStringEquals revision (objectGet (ascii "sourceRevision") report) = false then
          imageFail "guest image size report belongs to a different source revision"
        else
          let actual ← fileSize files image
          let maximum := (jsonIntegerValue (objectGet (ascii "maximumCompressedBytes") budget)).getD 0
          let required ← imageRequiredSavings sizes.baseline
          let saved ← checked (sizes.baseline - actual)
          if ¬ (sizes.virtualBytes = IMAGE_VIRTUAL_BYTES ∧ sizes.compressed = actual ∧
              actual < IMAGE_RELEASE_ASSET_LIMIT ∧ actual ≤ maximum ∧ sizes.saved = saved ∧ saved ≥ required ∧
              sizes.requiredReported = required) then
            imageFail "image bytes, savings or reviewed budget do not match size evidence"
          else
            let actualSha ← sha256File files image
            if jsonStringEquals actualSha (objectGet (ascii "imageSha256") report) = false then
              imageFail "image bytes, savings or reviewed budget do not match size evidence"
            else if ¬ (nonemptyStringList (objectGet (ascii "packagesBefore") report) ∧
                nonemptyStringList (objectGet (ascii "packagesAfter") report) ∧
                nonemptyStringList (objectGet (ascii "cleanup") report)) then
              imageFail "image footprint evidence is missing"
            else .ok ()

/-! ## Members that are added -/

theorem jsonObjectSet_new {key : Bytes} {value : JsonValue} {members : List (Bytes × JsonValue)}
    (h : key ∉ members.map Prod.fst) : jsonObjectSet key value members = members ++ [(key, value)] := by
  induction members with
  | nil => rfl
  | cons m members ih =>
    rw [List.map_cons, List.mem_cons, not_or] at h
    rw [jsonObjectSet, if_neg (Ne.symm h.1), ih h.2]
    rfl

theorem addMembers_eq {members : List (String × JsonValue)} (h : (members.map fun m => ascii m.1).Nodup) :
    addMembers members = .object (members.map fun m => (ascii m.1, m.2)) := by
  have hfold : ∀ (members : List (String × JsonValue)) (object : List (Bytes × JsonValue)),
      (object.map Prod.fst ++ members.map fun m => ascii m.1).Nodup →
      members.foldl (fun object m => jsonObjectSet (ascii m.1) m.2 object) object =
        object ++ members.map fun m => (ascii m.1, m.2) := by
    intro members
    induction members with
    | nil => simp
    | cons m members ih =>
      intro object hnodup
      have hnew : ascii m.1 ∉ object.map Prod.fst := by
        intro hmem
        exact (List.nodup_append.mp hnodup).2.2 _ hmem _ List.mem_cons_self rfl
      rw [List.foldl_cons, jsonObjectSet_new hnew, ih]
      · simp
      · simpa using hnodup
  unfold addMembers
  rw [hfold members [] h]
  rfl

theorem mem_ascii {s : String} (h : (s.toList.all fun c => decide (c.toNat < 0x80)) = true) :
    ∃ cs, ascii s = Utf8.text cs := ⟨s.toList, (text_word (all_ascii h)).symm⟩

/-! ## What the check asks -/

section Verify

variable {finite : Bytes → Bool} {files : Files} {image reportPath budgetPath : String}
  {expectedRevision : Option Bytes}

/-- A report that is evidence of this size and digest. -/
structure Evidence (report : JsonValue) (sizes : Sizes) (expectedRevision : Option Bytes) : Prop where
  object : isObject report = true
  schema : jsonIntegerValue (objectGet (ascii "schemaVersion") report) = some 1
  notReview : isFalse (objectGet (ascii "reviewOnly") report) = true
  sizes : reportSizes report = some sizes
  imageSha : imageJsonLowerHex 64 (objectGet (ascii "imageSha256") report) = true
  baselineSha : imageJsonLowerHex 64 (objectGet (ascii "baselineSha256") report) = true
  baseSha : imageJsonLowerHex 64 (objectGet (ascii "baseImageSha256") report) = true
  revision : imageJsonLowerHex 40 (objectGet (ascii "sourceRevision") report) = true
  expected : ∀ revision ∈ expectedRevision, jsonStringEquals revision (objectGet (ascii "sourceRevision") report) = true
  before : nonemptyStringList (objectGet (ascii "packagesBefore") report) = true
  after : nonemptyStringList (objectGet (ascii "packagesAfter") report) = true
  cleanup : nonemptyStringList (objectGet (ascii "cleanup") report) = true

/-- The sizes of a report are those of an image within the budget. -/
structure Matches (sizes : Sizes) (actual maximum : ℤ) : Prop where
  virtual : sizes.virtualBytes = IMAGE_VIRTUAL_BYTES
  compressed : sizes.compressed = actual
  limit : actual < IMAGE_RELEASE_ASSET_LIMIT
  budget : actual ≤ maximum
  saved : sizes.saved = sizes.baseline - actual
  enough : requiredSavings sizes.baseline ≤ sizes.baseline - actual
  required : sizes.requiredReported = requiredSavings sizes.baseline

def budgetMaximum (budget : JsonValue) : ℤ := (jsonIntegerValue (objectGet (ascii "maximumCompressedBytes") budget)).getD 0

theorem imageFail_ne_ok {α : Type} {text : String} {x : α} : (imageFail text : Except Failure α) ≠ .ok x := by
  unfold imageFail
  exact fun h => by cases h

theorem regularNotSymlink_iff {path : String} :
    regularNotSymlink files path = true ↔ ∃ content, files path = some (.regular content) := by
  unfold regularNotSymlink
  cases files path with
  | none => simp
  | some entry => cases entry <;> simp

theorem fileEntry_regular {path : String} {content : Content} (h : files path = some (.regular content)) :
    fileEntry files path = .ok (.regular content) := by
  unfold fileEntry follow
  rw [h]

theorem fileSize_regular {path : String} {content : Content} (h : files path = some (.regular content)) :
    fileSize files path = .ok content.val.length := by
  unfold fileSize
  rw [fileEntry_regular h]

theorem readContent_regular {path : String} {content : Content} (h : files path = some (.regular content)) :
    readContent files path = .ok content := by
  unfold readContent
  rw [fileEntry_regular h]

theorem sha256File_regular {path : String} {content : Content} (h : files path = some (.regular content)) :
    sha256File files path = .ok (fileDigest content) := by
  unfold sha256File
  rw [readContent_regular h]
  rfl

theorem positiveInteger_range {report : JsonValue} {key : String} {z : ℤ} (h : positiveInteger report key = some z) :
    0 < z ∧ z < 2 ^ 63 := by
  unfold positiveInteger at h
  obtain ⟨hvalue, hpos⟩ := Option.filter_eq_some_iff.mp h
  exact ⟨of_decide_eq_true hpos, (jsonIntegerValue_range hvalue).2⟩

theorem reportSizes_eq_some {report : JsonValue} {sizes : Sizes} : reportSizes report = some sizes ↔
    positiveInteger report "compressedBytes" = some sizes.compressed ∧
      positiveInteger report "baselineCompressedBytes" = some sizes.baseline ∧
      positiveInteger report "savedBytes" = some sizes.saved ∧
      positiveInteger report "requiredSavingsBytes" = some sizes.requiredReported ∧
      positiveInteger report "virtualBytes" = some sizes.virtualBytes := by
  unfold reportSizes
  simp only [Option.bind_eq_bind, Option.bind_eq_some_iff, Option.pure_def, Option.some.injEq]
  constructor
  · rintro ⟨compressed, h1, baseline, h2, saved, h3, required, h4, virtual, h5, rfl⟩
    exact ⟨h1, h2, h3, h4, h5⟩
  · rintro ⟨h1, h2, h3, h4, h5⟩
    exact ⟨_, h1, _, h2, _, h3, _, h4, _, h5, rfl⟩

/-- The baseline's size fits, so neither the savings nor the difference overflow. -/
theorem saved_fits {report : JsonValue} {sizes : Sizes} (h : reportSizes report = some sizes) (content : Content) :
    imageRequiredSavings sizes.baseline = .ok (requiredSavings sizes.baseline) ∧
      checked (sizes.baseline - content.val.length) = .ok (sizes.baseline - content.val.length) := by
  obtain ⟨hpos, hlt⟩ := positiveInteger_range (reportSizes_eq_some.mp h).2.1
  have hlength := content.property
  exact ⟨imageRequiredSavings_eq hpos.le hlt, checked_eq (by omega)⟩

theorem jsonStringEquals_iff {text : Bytes} {value : Option JsonValue} :
    jsonStringEquals text value = true ↔ value = some (.string text) := by
  unfold jsonStringEquals
  cases value with
  | none => simp
  | some v => cases v <;> simp

/-- The files that are checked. -/
structure Checked (finite : Bytes → Bool) (files : Files) (image reportPath budgetPath : String)
    (expectedRevision : Option Bytes) (content : Content) (report budget : JsonValue) (sizes : Sizes) : Prop where
  image : files image = some (.regular content)
  reportFile : regularNotSymlink files reportPath = true
  budgetFile : regularNotSymlink files budgetPath = true
  readReport : imageReadJson finite files reportPath = .ok report
  readBudget : imageReadJson finite files budgetPath = .ok budget
  valid : sizeBudgetValidate budget = .ok ()
  evidence : Evidence report sizes expectedRevision
  fits : Matches sizes content.val.length (budgetMaximum budget)
  digest : objectGet (ascii "imageSha256") report = some (.string (fileDigest content))

theorem Checked.of_verify (h : sizeReleaseVerify finite files image reportPath budgetPath expectedRevision = .ok ()) :
    ∃ content report budget sizes,
      Checked finite files image reportPath budgetPath expectedRevision content report budget sizes := by
  obtain ⟨hregular, h⟩ := else_of_eq h imageFail_ne_ok
  rw [not_not] at hregular
  obtain ⟨⟨content, himage⟩, hreport, hbudget⟩ := regularNotSymlink_iff.mp hregular.1, hregular.2
  obtain ⟨report, hreadReport, h⟩ := bind_eq_ok.mp h
  obtain ⟨budget, hreadBudget, h⟩ := bind_eq_ok.mp h
  obtain ⟨⟨⟩, hvalid, h⟩ := bind_eq_ok.mp h
  obtain ⟨hkind, h⟩ := else_of_eq h imageFail_ne_ok
  rw [not_not] at hkind
  cases hsizes : reportSizes report with
  | none =>
    rw [hsizes] at h
    exact absurd h imageFail_ne_ok
  | some sizes =>
    rw [hsizes] at h
    dsimp only at h
    obtain ⟨hdigests, h⟩ := else_of_eq h imageFail_ne_ok
    rw [not_not] at hdigests
    obtain ⟨hrevision, h⟩ := else_of_eq h imageFail_ne_ok
    rw [Bool.not_eq_false] at hrevision
    obtain ⟨hexpected, h⟩ := else_of_eq h imageFail_ne_ok
    obtain ⟨hrequired, hdifference⟩ := saved_fits hsizes content
    rw [fileSize_regular himage, ok_bind, hrequired, ok_bind, hdifference, ok_bind] at h
    obtain ⟨hmatches, h⟩ := else_of_eq h imageFail_ne_ok
    rw [not_not] at hmatches
    rw [sha256File_regular himage, ok_bind] at h
    obtain ⟨hsha, h⟩ := else_of_eq h imageFail_ne_ok
    rw [Bool.not_eq_false] at hsha
    obtain ⟨hlists, -⟩ := else_of_eq h imageFail_ne_ok
    rw [not_not] at hlists
    obtain ⟨hvirtual, hcompressed, hlimit, hmaximum, hsaved, henough, hreported⟩ := hmatches
    refine ⟨content, report, budget, sizes, ⟨himage, hreport, hbudget, hreadReport, hreadBudget, hvalid, ?_, ?_,
      jsonStringEquals_iff.mp hsha⟩⟩
    · exact ⟨hkind.1, hkind.2.1, hkind.2.2, hsizes, hdigests.1, hdigests.2.1, hdigests.2.2, hrevision,
        fun revision hmem => by
          by_contra hne
          exact hexpected ⟨revision, hmem, Bool.eq_false_of_not_eq_true hne⟩,
        hlists.1, hlists.2.1, hlists.2.2⟩
    · exact ⟨hvirtual, hcompressed, hlimit, hmaximum, hsaved, henough, hreported⟩

theorem Checked.verify {content : Content} {report budget : JsonValue} {sizes : Sizes}
    (h : Checked finite files image reportPath budgetPath expectedRevision content report budget sizes) :
    sizeReleaseVerify finite files image reportPath budgetPath expectedRevision = .ok () := by
  obtain ⟨hrequired, hdifference⟩ := saved_fits h.evidence.sizes content
  have hexpected : ¬ ∃ revision ∈ expectedRevision,
      jsonStringEquals revision (objectGet (ascii "sourceRevision") report) = false := by
    rintro ⟨revision, hmem, hne⟩
    rw [h.evidence.expected revision hmem] at hne
    cases hne
  unfold sizeReleaseVerify
  rw [if_neg (not_not_intro ⟨regularNotSymlink_iff.mpr ⟨content, h.image⟩, h.reportFile, h.budgetFile⟩), h.readReport,
    ok_bind, h.readBudget, ok_bind, h.valid, ok_bind,
    if_neg (not_not_intro ⟨h.evidence.object, h.evidence.schema, h.evidence.notReview⟩), h.evidence.sizes]
  dsimp only
  rw [if_neg (not_not_intro ⟨h.evidence.imageSha, h.evidence.baselineSha, h.evidence.baseSha⟩),
    if_neg (by simp [h.evidence.revision]), if_neg hexpected, fileSize_regular h.image, ok_bind, hrequired, ok_bind,
    hdifference, ok_bind, if_neg (not_not_intro ⟨h.fits.virtual, h.fits.compressed, h.fits.limit, h.fits.budget,
      h.fits.saved, h.fits.enough, h.fits.required⟩), sha256File_regular h.image, ok_bind,
    if_neg (by simp [jsonStringEquals_iff.mpr h.digest]),
    if_neg (not_not_intro ⟨h.evidence.before, h.evidence.after, h.evidence.cleanup⟩)]

end Verify

/-! ## The report -/

theorem objectGet_addMembers {members : List (String × JsonValue)} (h : (members.map fun m => ascii m.1).Nodup)
    {key : String} {value : JsonValue} (hmem : (key, value) ∈ members) :
    objectGet (ascii key) (addMembers members) = some value := by
  rw [addMembers_eq h]
  show jsonObjectGet (ascii key) _ = _
  induction members with
  | nil => exact absurd hmem List.not_mem_nil
  | cons m members ih =>
    rw [List.map_cons, List.nodup_cons] at h
    rw [List.map_cons, jsonObjectGet]
    rcases List.mem_cons.mp hmem with rfl | hmem
    · exact if_pos rfl
    · have hne : ascii m.1 ≠ ascii key := by
        intro heq
        exact h.1 (heq ▸ List.mem_map_of_mem hmem)
      rw [if_neg hne]
      exact ih h.2 hmem

/-- The keys of a report, in its order. -/
def reportKeys : List String :=
  ["schemaVersion", "baseImageSha256", "sourceRevision", "virtualBytes", "baselineCompressedBytes", "compressedBytes",
    "baselineSha256", "imageSha256", "savedBytes", "requiredSavingsBytes", "packagesBefore", "packagesAfter", "cleanup",
    "runtimeValidation", "reviewOnly"]

theorem reportKeys_nodup : (reportKeys.map ascii).Nodup := by decide

/-- What the measures of a run are. -/
structure MeasuredOf (files : Files) (options : SizeGateOptions) (m : Measured) : Prop where
  baseSha : imageLowerHex 64 options.baseSha256 = true
  revision : imageLowerHex 40 options.sourceRevision = true
  baselineSize : fileSize files options.baseline = .ok m.baseline
  candidateSize : fileSize files options.candidate = .ok m.candidate
  baseline_pos : 0 < m.baseline
  candidate_pos : 0 < m.candidate
  required : imageRequiredSavings m.baseline = .ok m.required
  baselineSha : sha256File files options.baseline = .ok m.baselineSha
  imageSha : sha256File files options.candidate = .ok m.imageSha
  before : readInventory files options.packagesBefore = .ok m.before
  after : readInventory files options.packagesAfter = .ok m.after
  saved : checked (m.baseline - m.candidate) = .ok m.saved

section Report

variable {D : Type} {libc : Libc D} {files files' : Files} {options : SizeGateOptions} {m : Measured}

theorem measure_eq_ok (h : measure files options = .ok m) : MeasuredOf files options m := by
  obtain ⟨hhex, h⟩ := else_of_eq h imageFail_ne_ok
  rw [not_not] at hhex
  obtain ⟨baseline, hbaseline, h⟩ := bind_eq_ok.mp h
  obtain ⟨candidate, hcandidate, h⟩ := bind_eq_ok.mp h
  obtain ⟨hpos, h⟩ := else_of_eq h imageFail_ne_ok
  rw [not_or, not_le, not_le] at hpos
  obtain ⟨required, hrequired, h⟩ := bind_eq_ok.mp h
  obtain ⟨baselineSha, hbaselineSha, h⟩ := bind_eq_ok.mp h
  obtain ⟨imageSha, himageSha, h⟩ := bind_eq_ok.mp h
  obtain ⟨before, hbefore, h⟩ := bind_eq_ok.mp h
  obtain ⟨after, hafter, h⟩ := bind_eq_ok.mp h
  obtain ⟨saved, hsaved, h⟩ := bind_eq_ok.mp h
  obtain rfl := Except.ok.inj h
  exact ⟨hhex.1, hhex.2, hbaseline, hcandidate, hpos.1, hpos.2, hrequired, hbaselineSha, himageSha, hbefore, hafter,
    hsaved⟩

theorem fileSize_range {path : String} {size : ℤ} (h : fileSize files path = .ok size) : 0 ≤ size ∧ size < 2 ^ 63 := by
  unfold fileSize at h
  cases hentry : fileEntry files path with
  | error reason =>
    rw [hentry] at h
    exact absurd h imageFail_ne_ok
  | ok entry =>
    rw [hentry] at h
    cases entry with
    | regular content =>
      have hlt := content.property
      rw [← Except.ok.inj h]
      omega
    | symlink target =>
      rw [← Except.ok.inj h]
      omega
    | directory =>
      rw [← Except.ok.inj h]
      omega

theorem sha256File_hex {path : String} {digest : Bytes} (h : sha256File files path = .ok digest) :
    imageLowerHex 64 digest = true := by
  obtain ⟨content, -, h⟩ := bind_eq_ok.mp h
  rw [← Except.ok.inj h]
  exact fileDigest_hex content

/-- The rows of an inventory are texts; there is one, and none is empty. -/
structure Rows (rows : List Bytes) : Prop where
  ne_nil : rows ≠ []
  row : ∀ row ∈ rows, row ≠ [] ∧ ∃ cs, row = Utf8.text cs

theorem mapError_eq_ok {ε ε' α : Type} {f : ε → ε'} {x : Except ε α} {a : α} (h : x.mapError f = .ok a) : x = .ok a := by
  cases x with
  | error e => cases h
  | ok b => exact congrArg _ (Except.ok.inj h)

theorem readInventory_rows {path : String} {rows : List Bytes} (h : readInventory files path = .ok rows) : Rows rows := by
  obtain ⟨content, -, h⟩ := bind_eq_ok.mp h
  obtain ⟨-, cs, -, hinventory, rfl⟩ := (sizePackageInventory_eq_ok path content.val rows).mp (mapError_eq_ok h)
  refine ⟨?_, fun row hrow => ?_⟩
  · rw [ne_eq, List.map_eq_nil_iff]
    exact hinventory.ne_nil
  · obtain ⟨line, hline, rfl⟩ := List.mem_map.mp hrow
    refine ⟨?_, line, rfl⟩
    obtain ⟨name, version, size, rfl, -⟩ := hinventory.rows line hline
    intro hnil
    have hnil := @Utf8.text_injective _ [] hnil
    exact absurd (congrArg List.length hnil) (by simp)

theorem text_of_lowerHex {digits : ℕ} {text : Bytes} (h : imageLowerHex digits text = true) :
    ∃ cs, text = Utf8.text cs := by
  unfold imageLowerHex at h
  rw [Bool.and_eq_true, List.all_eq_true] at h
  refine exists_text fun c hc => ?_
  have hlower := h.2 c hc
  unfold isLowerHex isDecimal at hlower
  simp [UInt8.le_iff_toNat_le] at hlower
  omega

/-- The sizes of a report whose savings are positive. -/
structure Sound (m : Measured) : Prop where
  baseline : 0 < m.baseline ∧ m.baseline < 2 ^ 63
  candidate : 0 < m.candidate ∧ m.candidate < 2 ^ 63
  saved : m.saved = m.baseline - m.candidate
  required : m.required = requiredSavings m.baseline
  before : Rows m.before
  after : Rows m.after
  baselineSha : imageLowerHex 64 m.baselineSha = true
  imageSha : imageLowerHex 64 m.imageSha = true

theorem MeasuredOf.sound (h : MeasuredOf files options m) : Sound m := by
  obtain ⟨hle, hlt⟩ := fileSize_range h.baselineSize
  obtain ⟨hle', hlt'⟩ := fileSize_range h.candidateSize
  have hsaved := h.saved
  rw [checked_eq (by omega)] at hsaved
  have hrequired := h.required
  rw [imageRequiredSavings_eq hle hlt] at hrequired
  exact ⟨⟨h.baseline_pos, hlt⟩, ⟨h.candidate_pos, hlt'⟩, (Except.ok.inj hsaved).symm, (Except.ok.inj hrequired).symm,
    readInventory_rows h.before, readInventory_rows h.after, sha256File_hex h.baselineSha, sha256File_hex h.imageSha⟩

/-! ## A run and the check -/

/-- The report of an accepted build. -/
structure Accepted (libc : Libc D) (files : Files) (options : SizeGateOptions) (m : Measured) (budget : JsonValue) :
    Prop where
  limit : m.candidate < IMAGE_RELEASE_ASSET_LIMIT
  enough : m.required ≤ m.baseline - m.candidate
  budgetFile : regularNotSymlink files options.budget = true
  readBudget : imageReadJson libc.finite files options.budget = .ok budget
  valid : sizeBudgetValidate budget = .ok ()
  within : m.candidate ≤ budgetMaximum budget

theorem gate_eq_ok (hm : Sound m) (hreview : options.reviewOnly = false) (h : gate libc files options m = .ok files') :
    files' = files ∧ ∃ budget, Accepted libc files options m budget := by
  obtain ⟨hlimit, h⟩ := else_of_eq h imageFail_ne_ok
  obtain ⟨hbaseline, hcandidate⟩ := And.intro hm.baseline hm.candidate
  rw [checked_eq (by omega), ok_bind] at h
  obtain ⟨henough, h⟩ := else_of_eq h imageFail_ne_ok
  rw [if_neg (by simp [hreview])] at h
  obtain ⟨hregular, h⟩ := else_of_eq h imageFail_ne_ok
  obtain ⟨budget, hread, h⟩ := bind_eq_ok.mp h
  obtain ⟨⟨⟩, hvalid, h⟩ := bind_eq_ok.mp h
  obtain ⟨hwithin, h⟩ := else_of_eq h imageFail_ne_ok
  refine ⟨(Except.ok.inj h).symm, budget, ⟨?_, ?_, ?_, hread, hvalid, ?_⟩⟩
  · omega
  · omega
  · exact Bool.eq_true_of_not_eq_false hregular
  · exact not_lt.mp hwithin

theorem sizeGateRun_eq_ok (hreview : options.reviewOnly = false) (h : sizeGateRun libc files options = (.ok (), files')) :
    ∃ m budget, MeasuredOf files options m ∧
      imageWriteJson libc files options.report (sizeReport options m) = .ok files' ∧
      Accepted libc files' options m budget := by
  unfold sizeGateRun at h
  cases hmeasure : measure files options with
  | error failure =>
    rw [hmeasure] at h
    cases h
  | ok m =>
    have hm := measure_eq_ok hmeasure
    rw [hmeasure, ok_bind] at h
    cases hwrite : imageWriteJson libc files options.report (sizeReport options m) with
    | error failure =>
      rw [hwrite] at h
      cases h
    | ok written =>
      rw [hwrite, ok_bind] at h
      dsimp only [pure, Except.pure] at h
      cases hgate : gate libc written options m with
      | error failure =>
        rw [hgate] at h
        cases h
      | ok left =>
        rw [hgate] at h
        obtain rfl : left = files' := congrArg Prod.snd h
        obtain ⟨rfl, budget, haccepted⟩ := gate_eq_ok hm.sound hreview hgate
        exact ⟨m, budget, hm, hwrite, haccepted⟩

theorem Rows.built {rows : List Bytes} (h : Rows rows) {finite : Bytes → Bool} {left : ℕ} :
    Built finite (left + 1) (.array (rows.map .string)) := by
  refine built_array fun v hv => ?_
  obtain ⟨row, hrow, rfl⟩ := List.mem_map.mp hv
  obtain ⟨-, cs, rfl⟩ := h.row row hrow
  exact built_text cs

theorem built_ascii {finite : Bytes → Bool} {left : ℕ} {s : String}
    (h : (s.toList.all fun c => decide (c.toNat < 0x80)) = true) : Built finite left (.string (ascii s)) := by
  obtain ⟨cs, hcs⟩ := mem_ascii h
  rw [hcs]
  exact built_text cs

theorem built_lowerHex {finite : Bytes → Bool} {left digits : ℕ} {text : Bytes} (h : imageLowerHex digits text = true) :
    Built finite left (.string text) := by
  obtain ⟨cs, rfl⟩ := text_of_lowerHex h
  exact built_text cs

theorem built_size {finite : Bytes → Bool} {left : ℕ} {z : ℤ} (h : 0 < z ∧ z < 2 ^ 63) :
    Built finite left (jsonNewInteger z) := by
  obtain ⟨n, rfl⟩ := Int.eq_ofNat_of_zero_le h.1.le
  exact built_integer (by omega)

theorem built_members {finite : Bytes → Bool} {left : ℕ} {members : List (String × JsonValue)}
    (hkeys : (members.map fun m => ascii m.1).Nodup)
    (hascii : ∀ m ∈ members, (m.1.toList.all fun c => decide (c.toNat < 0x80)) = true)
    (h : ∀ m ∈ members, Built finite left m.2) : Built finite (left + 1) (addMembers members) := by
  rw [addMembers_eq hkeys]
  refine built_object ?_ fun m hm => ?_
  · rwa [List.map_map]
  · obtain ⟨m, hmem, rfl⟩ := List.mem_map.mp hm
    exact ⟨mem_ascii (hascii m hmem), h m hmem⟩

theorem reportMembers_keys : (reportMembers options m).map Prod.fst = reportKeys := rfl

theorem reportMembers_nodup : ((reportMembers options m).map fun x => ascii x.1).Nodup := by
  have h := reportKeys_nodup
  rw [← @reportMembers_keys options m, List.map_map] at h
  exact h

theorem reportMembers_ascii : ∀ x ∈ reportMembers options m,
    (x.1.toList.all fun c => decide (c.toNat < 0x80)) = true := by
  have h : ∀ key ∈ reportKeys, (key.toList.all fun c => decide (c.toNat < 0x80)) = true := by decide
  intro x hx
  refine h x.1 ?_
  rw [← @reportMembers_keys options m]
  exact List.mem_map_of_mem hx

theorem requiredSavings_range {baseline : ℤ} (h : 0 < baseline ∧ baseline < 2 ^ 63) :
    IMAGE_MINIMUM_SAVINGS ≤ requiredSavings baseline ∧ requiredSavings baseline < 2 ^ 63 := by
  unfold requiredSavings IMAGE_MINIMUM_SAVINGS
  omega

/-- A report with positive savings is written as it is read back. -/
theorem built_report {finite : Bytes → Bool} (hm : MeasuredOf files options m) (hsaved : 0 < m.saved) :
    Built finite JSON_MAX_DEPTH (sizeReport options m) := by
  obtain ⟨hbaseline, hcandidate⟩ := And.intro hm.sound.baseline hm.sound.candidate
  have hdifference := hm.sound.saved
  have hrequired := requiredSavings_range hbaseline
  rw [← hm.sound.required] at hrequired
  have hminimum : 0 < IMAGE_MINIMUM_SAVINGS := by decide
  refine built_members reportMembers_nodup reportMembers_ascii ?_
  simp only [reportMembers, List.forall_mem_cons, List.not_mem_nil, false_imp_iff, implies_true, and_true]
  refine ⟨built_size (by decide), built_lowerHex hm.baseSha, built_lowerHex hm.revision, built_size (by decide),
    built_size hbaseline, built_size hcandidate, built_lowerHex hm.sound.baselineSha, built_lowerHex hm.sound.imageSha,
    built_size (by omega), built_size (by omega), hm.sound.before.built, hm.sound.after.built, ?_,
    built_ascii (by decide), ?_⟩
  · refine built_array fun v hv => ?_
    obtain ⟨item, hitem, rfl⟩ := List.mem_map.mp hv
    have hall : ∀ item ∈ cleanup, (item.toList.all fun c => decide (c.toNat < 0x80)) = true := by decide
    exact built_ascii (hall item hitem)
  · cases options.reviewOnly
    · exact built_false
    · exact built_true

theorem imageWriteJson_eq_ok {path : String} {value : JsonValue} (h : imageWriteJson libc files path value = .ok files') :
    ∃ (out : Bytes) (written : Content), jsonDump libc value false = .ok out ∧ written.val = out ++ [10] ∧
      files' = Function.update files path (some (.regular written)) := by
  unfold imageWriteJson at h
  cases hdump : jsonDump libc value false with
  | error e =>
    rw [hdump] at h
    exact absurd h imageFail_ne_ok
  | ok out =>
    rw [hdump] at h
    dsimp only at h
    unfold imageWriteFile at h
    by_cases hlength : (out ++ [10]).length < 2 ^ 63
    · rw [dif_pos hlength] at h
      refine ⟨out, ⟨out ++ [10], hlength⟩, rfl, rfl, ?_⟩
      split at h
      · exact absurd h imageFail_ne_ok
      · exact (Except.ok.inj h).symm
    · rw [dif_neg hlength] at h
      exact absurd h imageFail_ne_ok

/-- A value that is written is read back where its text fits. -/
theorem imageReadJson_written (hdoc : libc.Documented) {path : String} {value : JsonValue} {written : Content}
    {out : Bytes} (hbuilt : Built libc.finite JSON_MAX_DEPTH value) (hdump : jsonDump libc value false = .ok out)
    (hwritten : written.val = out ++ [10]) (hfile : files path = some (.regular written)) :
    imageReadJson libc.finite files path =
      if IMAGE_JSON_MAX_BYTES < written.val.length then
        imageFail ("file is larger than " ++ toString IMAGE_JSON_MAX_BYTES ++ " bytes: " ++ path)
      else .ok value := by
  obtain ⟨out', hdump', hparse⟩ := hbuilt.round_trip hdoc
  rw [hdump] at hdump'
  obtain rfl := Except.ok.inj hdump'
  unfold imageReadJson imageReadFile
  rw [readContent_regular hfile, ok_bind]
  split_ifs
  · rfl
  · rw [ok_bind, hwritten, hparse]
    rfl

/-- The members that the check reads in a report, as a run writes them. -/
theorem objectGet_report {key : String} {value : JsonValue} (h : (key, value) ∈ reportMembers options m) :
    objectGet (ascii key) (sizeReport options m) = some value :=
  objectGet_addMembers reportMembers_nodup h

theorem positiveInteger_report {key : String} {z : ℤ} (hz : 0 < z ∧ z < 2 ^ 63)
    (h : (key, jsonNewInteger z) ∈ reportMembers options m) : positiveInteger (sizeReport options m) key = some z := by
  unfold positiveInteger
  obtain ⟨n, rfl⟩ := Int.eq_ofNat_of_zero_le hz.1.le
  rw [objectGet_report h, jsonIntegerValue_new (by omega), Option.filter_eq_some_iff]
  exact ⟨rfl, decide_eq_true hz.1⟩

theorem Rows.listed {rows : List Bytes} (h : Rows rows) : nonemptyStringList (some (.array (rows.map .string))) = true := by
  have hne : rows.map Json.string ≠ ([] : List JsonValue) := by
    rw [ne_eq, List.map_eq_nil_iff]
    exact h.ne_nil
  unfold nonemptyStringList
  rw [Bool.and_eq_true, Bool.not_eq_true', List.isEmpty_eq_false_iff, List.all_eq_true]
  refine ⟨hne, fun v hv => ?_⟩
  obtain ⟨row, hrow, rfl⟩ := List.mem_map.mp hv
  rw [Bool.not_eq_true', List.isEmpty_eq_false_iff]
  exact (h.row row hrow).1

/-- The sizes of a run's report. -/
def Measured.sizes (m : Measured) : Sizes := ⟨m.candidate, m.baseline, m.saved, m.required, IMAGE_VIRTUAL_BYTES⟩

theorem evidence_report (hm : MeasuredOf files options m) (hsaved : 0 < m.saved) (hreview : options.reviewOnly = false) :
    Evidence (sizeReport options m) m.sizes (some options.sourceRevision) := by
  obtain ⟨hbaseline, hcandidate⟩ := And.intro hm.sound.baseline hm.sound.candidate
  have hdifference := hm.sound.saved
  have hrequired := requiredSavings_range hbaseline
  rw [← hm.sound.required] at hrequired
  have hminimum : 0 < IMAGE_MINIMUM_SAVINGS := by decide
  refine ⟨by rw [sizeReport, addMembers_eq reportMembers_nodup]; rfl, ?_, ?_, ?_, ?_, ?_, ?_, ?_, ?_, ?_, ?_, ?_⟩
  · rw [@objectGet_report options m "schemaVersion" (jsonNewInteger 1) (by simp [reportMembers])]
    exact @jsonIntegerValue_new 1 (by decide)
  · rw [@objectGet_report options m "reviewOnly" .false (by simp [reportMembers, hreview])]
    rfl
  · rw [reportSizes_eq_some]
    exact ⟨positiveInteger_report hcandidate (by simp [reportMembers, Measured.sizes]),
      positiveInteger_report hbaseline (by simp [reportMembers, Measured.sizes]),
      positiveInteger_report (show 0 < m.saved ∧ m.saved < 2 ^ 63 by omega) (by simp [reportMembers, Measured.sizes]),
      positiveInteger_report (show 0 < m.required ∧ m.required < 2 ^ 63 by omega)
        (by simp [reportMembers, Measured.sizes]),
      positiveInteger_report (show 0 < IMAGE_VIRTUAL_BYTES ∧ IMAGE_VIRTUAL_BYTES < 2 ^ 63 by decide)
        (by simp [reportMembers, Measured.sizes])⟩
  · rw [@objectGet_report options m "imageSha256" (.string m.imageSha) (by simp [reportMembers])]
    exact hm.sound.imageSha
  · rw [@objectGet_report options m "baselineSha256" (.string m.baselineSha) (by simp [reportMembers])]
    exact hm.sound.baselineSha
  · rw [@objectGet_report options m "baseImageSha256" (.string options.baseSha256) (by simp [reportMembers])]
    exact hm.baseSha
  · rw [@objectGet_report options m "sourceRevision" (.string options.sourceRevision) (by simp [reportMembers])]
    exact hm.revision
  · rintro revision ⟨⟩
    rw [jsonStringEquals_iff]
    exact objectGet_report (by simp [reportMembers])
  · rw [@objectGet_report options m "packagesBefore" (.array (m.before.map .string)) (by simp [reportMembers])]
    exact hm.sound.before.listed
  · rw [@objectGet_report options m "packagesAfter" (.array (m.after.map .string)) (by simp [reportMembers])]
    exact hm.sound.after.listed
  · rw [@objectGet_report options m "cleanup" (stringArray cleanup) (by simp [reportMembers])]
    decide

/-- The image of a run is the one that its report measures. -/
theorem measured_candidate (hm : MeasuredOf files options m) {content : Content}
    (h : files options.candidate = some (.regular content)) :
    m.candidate = content.val.length ∧ m.imageSha = fileDigest content := by
  have hsize := hm.candidateSize
  rw [fileSize_regular h] at hsize
  have hsha := hm.imageSha
  rw [sha256File_regular h] at hsha
  exact ⟨(Except.ok.inj hsize).symm, (Except.ok.inj hsha).symm⟩

/-- **An accepted build can be published.**  What a run accepts against the reviewed budget, the publication check
accepts for the same files, wherever the report does not outgrow the limit of its reader, and only there. -/
theorem sizeReleaseVerify_of_run (hdoc : libc.Documented) (hreview : options.reviewOnly = false)
    (hregular : regularNotSymlink files options.candidate = true) (hne : options.report ≠ options.candidate)
    (hrun : sizeGateRun libc files options = (.ok (), files')) :
    ∃ text, files' options.report = some (.regular text) ∧
      (sizeReleaseVerify libc.finite files' options.candidate options.report options.budget
        (some options.sourceRevision) = .ok () ↔ text.val.length ≤ IMAGE_JSON_MAX_BYTES) := by
  obtain ⟨content, hcontent⟩ := regularNotSymlink_iff.mp hregular
  obtain ⟨m, budget, hm, hwrite, haccepted⟩ := sizeGateRun_eq_ok hreview hrun
  obtain ⟨hsize, hsha⟩ := measured_candidate hm hcontent
  obtain ⟨out, text, hdump, htext, rfl⟩ := imageWriteJson_eq_ok hwrite
  have hreport : Function.update files options.report (some (.regular text)) options.report = some (.regular text) :=
    Function.update_self ..
  have himage : Function.update files options.report (some (.regular text)) options.candidate =
      some (.regular content) := (Function.update_of_ne hne.symm ..).trans hcontent
  have hpositive : 0 < m.saved := by
    have hrequired := requiredSavings_range hm.sound.baseline
    have henough := haccepted.enough
    rw [hm.sound.required] at henough
    have hminimum : 0 < IMAGE_MINIMUM_SAVINGS := by decide
    have hsaved := hm.sound.saved
    omega
  have hread := imageReadJson_written hdoc (built_report hm hpositive) hdump htext hreport
  refine ⟨text, hreport, fun h => ?_, fun h => ?_⟩
  · obtain ⟨content', report, budget', sizes, hchecked⟩ := Checked.of_verify h
    by_contra hlong
    rw [if_pos (not_le.mp hlong), hchecked.readReport] at hread
    exact imageFail_ne_ok hread.symm
  · rw [if_neg (not_lt.mpr h)] at hread
    have hevidence := evidence_report hm hpositive hreview
    refine Checked.verify ⟨himage, regularNotSymlink_iff.mpr ⟨text, hreport⟩, haccepted.budgetFile, hread,
      haccepted.readBudget, haccepted.valid, hevidence, ?_, ?_⟩
    · rw [← hsize]
      have henough := haccepted.enough
      rw [hm.sound.required] at henough
      exact ⟨rfl, rfl, haccepted.limit, haccepted.within, hm.sound.saved, henough, hm.sound.required⟩
    · rw [← hsha]
      exact objectGet_report (by simp [reportMembers])


end Report

/-! ## No overflow -/

/-- A computation whose signed results all fit. -/
def Fits {α : Type} (x : Except Failure α) : Prop := x ≠ .error .overflow

section Fits

variable {α β : Type}

theorem fits_ok {a : α} : Fits (.ok a : Except Failure α) := by
  intro h
  cases h

theorem fits_imageFail {text : String} : Fits (imageFail text : Except Failure α) := by
  intro h
  cases h

theorem Fits.bind {x : Except Failure α} {f : α → Except Failure β} (hx : Fits x) (hf : ∀ a, x = .ok a → Fits (f a)) :
    Fits (x >>= f) := by
  cases x with
  | error failure =>
    intro h
    exact hx (congrArg _ (Except.error.inj h))
  | ok a => exact hf a rfl

theorem Fits.ite {p : Prop} [Decidable p] {x y : Except Failure α} (hx : p → Fits x) (hy : ¬ p → Fits y) :
    Fits (if p then x else y) := by
  split
  · exact hx ‹_›
  · exact hy ‹_›

theorem fits_of_range {z : ℤ} (h : -2 ^ 63 ≤ z ∧ z < 2 ^ 63) : Fits (checked z) := by
  rw [checked_eq h]
  exact fits_ok

theorem fits_mapError {ε : Type} {x : Except ε α} {message : ε → Bytes} :
    Fits (x.mapError fun e => Failure.message (message e)) := by
  cases x with
  | error e =>
    intro h
    cases h
  | ok a => exact fits_ok

end Fits

section Files

variable {files : Files} {path : String}

theorem fits_fileSize : Fits (fileSize files path) := by
  unfold fileSize
  cases fileEntry files path with
  | error reason => exact fits_imageFail
  | ok entry => cases entry <;> exact fits_ok

theorem fits_readContent : Fits (readContent files path) := by
  unfold readContent
  cases fileEntry files path with
  | error reason => exact fits_imageFail
  | ok entry =>
    cases entry with
    | regular content => exact fits_ok
    | symlink target => exact fits_imageFail
    | directory => exact fits_imageFail

theorem fits_sha256File : Fits (sha256File files path) := fits_readContent.bind fun _ _ => fits_ok

theorem fits_readInventory : Fits (readInventory files path) := fits_readContent.bind fun _ _ => fits_mapError

theorem fits_imageReadJson {finite : Bytes → Bool} : Fits (imageReadJson finite files path) :=
  Fits.bind (fits_readContent.bind fun _ _ => Fits.ite (fun _ => fits_imageFail) fun _ => fits_ok)
    fun _ _ => fits_mapError

theorem fits_imageWriteJson {D : Type} {libc : Libc D} {value : JsonValue} :
    Fits (imageWriteJson libc files path value) := by
  unfold imageWriteJson
  cases jsonDump libc value false with
  | error e => exact fits_imageFail
  | ok text =>
    dsimp only
    unfold imageWriteFile
    split
    · split
      · exact fits_imageFail
      · exact fits_ok
    · exact fits_imageFail

theorem fits_sizeBudgetValidate {budget : JsonValue} : Fits (sizeBudgetValidate budget) :=
  Fits.ite (fun _ => fits_ok) fun _ => fits_imageFail

theorem fits_savings {baseline : ℤ} (h : 0 ≤ baseline ∧ baseline < 2 ^ 63) : Fits (imageRequiredSavings baseline) := by
  rw [imageRequiredSavings_eq h.1 h.2]
  exact fits_ok

theorem fits_measure {options : SizeGateOptions} : Fits (measure files options) := by
  unfold measure
  refine Fits.ite (fun _ => fits_imageFail) fun _ => fits_fileSize.bind fun baseline hbaseline =>
    fits_fileSize.bind fun candidate hcandidate => Fits.ite (fun _ => fits_imageFail) fun _ => ?_
  obtain ⟨hle, hlt⟩ := fileSize_range hbaseline
  obtain ⟨hle', hlt'⟩ := fileSize_range hcandidate
  exact (fits_savings ⟨hle, hlt⟩).bind fun _ _ => fits_sha256File.bind fun _ _ => fits_sha256File.bind fun _ _ =>
    fits_readInventory.bind fun _ _ => fits_readInventory.bind fun _ _ =>
      (fits_of_range (by omega)).bind fun _ _ => fits_ok

theorem fits_gate {D : Type} {libc : Libc D} {options : SizeGateOptions} {m : Measured} (hm : Sound m) :
    Fits (gate libc files options m) := by
  obtain ⟨hbaseline, hcandidate⟩ := And.intro hm.baseline hm.candidate
  unfold gate
  refine Fits.ite (fun _ => fits_imageFail) fun _ => (fits_of_range (by omega)).bind fun _ _ =>
    Fits.ite (fun _ => fits_imageFail) fun _ => Fits.ite ?_ fun _ => Fits.ite (fun _ => fits_imageFail) fun _ => ?_
  · exact fun _ => fits_sha256File.bind fun _ _ => fits_imageWriteJson
  · exact fits_imageReadJson.bind fun _ _ => fits_sizeBudgetValidate.bind fun _ _ =>
      Fits.ite (fun _ => fits_imageFail) fun _ => fits_ok

end Files

/-- **No size overflows.**  Whatever the files are and whatever numbers a report claims, no signed result of a run or of
the publication check leaves its range. -/
theorem sizes_fit {D : Type} (libc : Libc D) (files : Files) (options : SizeGateOptions)
    (image reportPath budgetPath : String) (expectedRevision : Option Bytes) :
    Fits (sizeGateRun libc files options).1 ∧
      Fits (sizeReleaseVerify libc.finite files image reportPath budgetPath expectedRevision) := by
  constructor
  · unfold sizeGateRun
    cases hmeasure : measure files options with
    | error failure =>
      intro h
      exact fits_measure (hmeasure.trans (congrArg _ (Except.error.inj h)))
    | ok m =>
      rw [ok_bind]
      cases hwrite : imageWriteJson libc files options.report (sizeReport options m) with
      | error failure =>
        intro h
        exact fits_imageWriteJson (hwrite.trans (congrArg _ (Except.error.inj h)))
      | ok written =>
        rw [ok_bind]
        dsimp only [pure, Except.pure]
        cases hgate : gate libc written options m with
        | error failure =>
          intro h
          exact fits_gate (measure_eq_ok hmeasure).sound (hgate.trans (congrArg _ (Except.error.inj h)))
        | ok left => exact fits_ok
  · unfold sizeReleaseVerify
    refine Fits.ite (fun _ => fits_imageFail) fun hregular => fits_imageReadJson.bind fun report _ =>
      fits_imageReadJson.bind fun budget _ => fits_sizeBudgetValidate.bind fun _ _ =>
        Fits.ite (fun _ => fits_imageFail) fun _ => ?_
    rw [not_not] at hregular
    obtain ⟨content, himage⟩ := regularNotSymlink_iff.mp hregular.1
    cases hsizes : reportSizes report with
    | none => exact fits_imageFail
    | some sizes =>
      obtain ⟨hrequired, hdifference⟩ := saved_fits hsizes content
      dsimp only
      refine Fits.ite (fun _ => fits_imageFail) fun _ => Fits.ite (fun _ => fits_imageFail) fun _ =>
        Fits.ite (fun _ => fits_imageFail) fun _ => ?_
      rw [fileSize_regular himage, ok_bind, hrequired, ok_bind, hdifference, ok_bind]
      exact Fits.ite (fun _ => fits_imageFail) fun _ => fits_sha256File.bind fun _ _ =>
        Fits.ite (fun _ => fits_imageFail) fun _ => Fits.ite (fun _ => fits_imageFail) fun _ => fits_ok

/-! ## A run that is accepted -/

section Length

variable {dump : JsonValue → Except Errno Bytes} {type : Container} {level : ℕ}

theorem length_escapeCodePoint (u : ℕ) : (escapeCodePoint u).length ≤ 12 := by
  unfold escapeCodePoint
  split_ifs <;> simp [printHex4, ascii]

/-- A quoted text has at most twelve bytes for a code point. -/
theorem appendQuoted_length {cs : List Char} {out : Bytes} (h : appendQuoted (Utf8.text cs) = .ok out) :
    out.length ≤ 12 * cs.length + 2 := by
  have hescaped : jsonEscapeAscii (Utf8.text cs) = some ((cs.map Char.toNat).flatMap escapeCodePoint) := by
    unfold jsonEscapeAscii
    rw [Utf8.text_eq_encodeAll]
    refine escapeLoop_encodeAll _ _ (fun u hu => ?_) le_rfl
    obtain ⟨c, -, rfl⟩ := List.mem_map.mp hu
    exact Utf8.toNat_lt c
  have hlength : ∀ us : List ℕ, (us.flatMap escapeCodePoint).length ≤ 12 * us.length := by
    intro us
    induction us with
    | nil => exact le_rfl
    | cons u us ih =>
      have hone := length_escapeCodePoint u
      rw [List.flatMap_cons, List.length_append, List.length_cons]
      omega
  unfold appendQuoted at h
  rw [hescaped] at h
  obtain rfl := Except.ok.inj h
  have hall := hlength (cs.map Char.toNat)
  rw [List.length_map] at hall
  rw [List.length_cons, List.length_append, List.length_singleton]
  omega

theorem length_appendIndent : (appendIndent level).length = 2 * level + 1 := by
  unfold appendIndent
  rw [List.length_cons, List.length_flatten, List.map_replicate, List.sum_replicate]
  simp [ascii, Nat.mul_comm]

/-- Members whose keys and values are short are short. -/
theorem dumpMembers_length {limit : ℕ} : ∀ {members : List (Bytes × JsonValue)} {first : Bool} {out : Bytes},
    (∀ m ∈ members, (∀ label, dumpKey type m.1 = .ok label → label.length ≤ limit) ∧
      ∀ body, dump m.2 = .ok body → body.length ≤ limit) → dumpMembers dump type level first members = .ok out →
    out.length ≤ members.length * (2 * limit + 2 * level + 4)
  | [], _, out, _, h => by
    rw [← Except.ok.inj h]
    exact Nat.zero_le _
  | (key, value) :: members, first, out, hshort, h => by
    rw [List.forall_mem_cons] at hshort
    obtain ⟨label, hlabel, h⟩ := bind_eq_ok.mp h
    obtain ⟨body, hbody, h⟩ := bind_eq_ok.mp h
    obtain ⟨rest, hrest, h⟩ := bind_eq_ok.mp h
    have hkey := hshort.1.1 label hlabel
    have hvalue := hshort.1.2 body hbody
    have hall := dumpMembers_length hshort.2 hrest
    rw [← Except.ok.inj h]
    have hcomma : (if first = true then ([] : Bytes) else [byte ',']).length ≤ 1 := by split <;> simp
    rw [List.length_cons, Nat.succ_mul]
    simp only [List.length_append, length_appendIndent]
    omega

end Length

def sampleOptions : SizeGateOptions where
  baseline := "baseline.img"
  candidate := "image.img"
  packagesBefore := "before.tsv"
  packagesAfter := "after.tsv"
  report := "report.json"
  budget := "budget.json"
  baseSha256 := List.replicate 64 (byte '0')
  sourceRevision := List.replicate 40 (byte '0')
  reviewOnly := false

def sampleMembers : List (String × JsonValue) :=
  [("schemaVersion", jsonNewInteger 1), ("maximumCompressedBytes", jsonNewInteger 1),
    ("referenceImageSha256", .string (List.replicate 64 (byte '0'))),
    ("footprintReportSha256", .string (List.replicate 64 (byte '0')))]

def sampleBaseline : Content := ⟨List.replicate (2 ^ 26 + 1) 0, by rw [List.length_replicate]; decide⟩

/-- One byte is left of 64 MiB and one byte. -/
def sampleFiles (budget : Content) : Files := fun path =>
  if path = "baseline.img" then some (.regular sampleBaseline)
  else if path = "image.img" then some (.regular ⟨[0], by decide⟩)
  else if path = "before.tsv" ∨ path = "after.tsv" then
    some (.regular ⟨Utf8.text (digitsInventory 1), by rw [length_digitsInventory]; decide⟩)
  else if path = "budget.json" then some (.regular budget)
  else none

def sampleMeasured : Measured where
  baseline := 2 ^ 26 + 1
  candidate := 1
  required := 2 ^ 26
  saved := 2 ^ 26
  baselineSha := fileDigest sampleBaseline
  imageSha := fileDigest ⟨[0], by decide⟩
  before := [Utf8.text (digitsInventory 1)]
  after := [Utf8.text (digitsInventory 1)]

theorem sample_lowerHex {digits : ℕ} : imageLowerHex digits (List.replicate digits (byte '0')) = true := by
  unfold imageLowerHex
  rw [List.length_replicate, Bool.and_eq_true, List.all_eq_true]
  refine ⟨beq_self_eq_true digits, fun c hc => ?_⟩
  rw [List.eq_of_mem_replicate hc]
  decide

theorem textLines_sample : textLines (digitsInventory 1) = [digitsInventory 1] := by
  unfold textLines
  rw [show (universalNewlines '\r' '\n' false (digitsInventory 1)).rdropWhile (· = '\n') = digitsInventory 1 by decide,
    splitlines, dif_neg (by decide), show firstLine (digitsInventory 1) = (digitsInventory 1, []) by decide, splitlines,
    dif_pos rfl]

section Sample

variable {budget : Content}

theorem sample_inventory {path : String} (h : sampleFiles budget path =
    some (.regular ⟨Utf8.text (digitsInventory 1), by rw [length_digitsInventory]; decide⟩)) :
    readInventory (sampleFiles budget) path = .ok [Utf8.text (digitsInventory 1)] := by
  unfold readInventory
  rw [readContent_regular h, ok_bind, (sizePackageInventory_eq_ok path _ [Utf8.text (digitsInventory 1)]).mpr]
  · rfl
  · refine ⟨by rw [length_digitsInventory]; decide, _, rfl, inventory_digits 0, by rw [textLines_sample]; rfl⟩

theorem sample_measure : measure (sampleFiles budget) sampleOptions = .ok sampleMeasured := by
  have hbaseline : sampleFiles budget sampleOptions.baseline = some (.regular sampleBaseline) := rfl
  have hcandidate : sampleFiles budget sampleOptions.candidate = some (.regular ⟨[0], by decide⟩) := rfl
  have hlength : (sampleBaseline.val.length : ℤ) = 2 ^ 26 + 1 := by
    rw [sampleBaseline, List.length_replicate]
    norm_num
  unfold measure
  rw [if_neg (not_not_intro ⟨sample_lowerHex, sample_lowerHex⟩), fileSize_regular hbaseline, ok_bind,
    fileSize_regular hcandidate, ok_bind, hlength, if_neg (by decide), imageRequiredSavings_eq (by decide) (by decide),
    ok_bind, sha256File_regular hbaseline, ok_bind, sha256File_regular hcandidate, ok_bind, sample_inventory rfl,
    ok_bind, sample_inventory rfl, ok_bind, checked_eq (by decide), ok_bind]
  rfl

end Sample

/-- A value whose text is no longer than `limit`. -/
def Short (left limit : ℕ) (value : JsonValue) : Prop :=
  ∀ out, dumpValue zeroLibc false left value = .ok out → out.length ≤ limit

theorem short_of_eval {left limit : ℕ} {value : JsonValue}
    (h : ((dumpValue zeroLibc false left value).toOption.all fun out => decide (out.length ≤ limit)) = true) :
    Short left limit value := by
  intro out hout
  rw [hout] at h
  exact of_decide_eq_true h

theorem short_lowerHex {left limit digits : ℕ} {text : Bytes} (h : imageLowerHex digits text = true)
    (hlimit : 12 * digits + 2 ≤ limit) : Short (left + 1) limit (.string text) := by
  intro out hout
  have hlength : text.length = digits := by
    unfold imageLowerHex at h
    rw [Bool.and_eq_true, beq_iff_eq] at h
    exact h.1
  obtain ⟨cs, rfl⟩ := text_of_lowerHex h
  have hout' := appendQuoted_length hout
  have hchars : cs.length ≤ (Utf8.text cs).length := by
    clear h hout hout' hlength
    induction cs with
    | nil => exact le_rfl
    | cons c cs ih =>
      have hpos : 0 < (String.utf8EncodeChar c).length := by
        rw [String.length_utf8EncodeChar]
        exact c.utf8Size_pos
      rw [Utf8.text_cons, List.length_append, List.length_cons]
      omega
  omega

theorem sample_short {members : List (String × JsonValue)} {out : Bytes}
    (hkeys : (members.map fun m => ascii m.1).Nodup) (hcount : members.length ≤ 15)
    (hlabels : ∀ m ∈ members, ∀ label, dumpKey .object (ascii m.1) = .ok label → label.length ≤ 1000)
    (hvalues : ∀ m ∈ members, Short JSON_MAX_DEPTH 1000 m.2)
    (h : jsonDump zeroLibc (addMembers members) false = .ok out) : (out ++ [10]).length ≤ IMAGE_JSON_MAX_BYTES := by
  rw [addMembers_eq hkeys] at h
  unfold jsonDump dumpValue dumpContainer at h
  by_cases hnil : (members.map fun m => (ascii m.1, m.2)) = []
  · dsimp only at h
    rw [if_pos hnil] at h
    rw [← Except.ok.inj h]
    decide
  · dsimp only at h
    rw [if_neg hnil] at h
    obtain ⟨body, hbody, h⟩ := bind_eq_ok.mp h
    rw [if_neg (by simp)] at hbody
    have hlength := @dumpMembers_length _ _ _ 1000 _ _ _ (fun m hm => by
      obtain ⟨m, hmem, rfl⟩ := List.mem_map.mp hm
      exact ⟨hlabels m hmem, hvalues m hmem⟩) hbody
    rw [List.length_map] at hlength
    rw [← Except.ok.inj h]
    simp only [List.length_append, List.length_cons, List.length_nil, length_appendIndent] at hlength ⊢
    have hmul : members.length * (2 * 1000 + 2 * (JSON_MAX_DEPTH - JSON_MAX_DEPTH) + 4) ≤ 15 * 2004 := by
      rw [Nat.sub_self]
      exact Nat.mul_le_mul_right _ hcount
    unfold IMAGE_JSON_MAX_BYTES
    omega

/-- Members that are built and short are written to a file that can be read. -/
theorem sample_written {members : List (String × JsonValue)} (hbuilt : Built zeroLibc.finite JSON_MAX_DEPTH (addMembers members))
    (hkeys : (members.map fun m => ascii m.1).Nodup) (hcount : members.length ≤ 15)
    (hlabels : ∀ m ∈ members, ∀ label, dumpKey .object (ascii m.1) = .ok label → label.length ≤ 1000)
    (hvalues : ∀ m ∈ members, Short JSON_MAX_DEPTH 1000 m.2) :
    ∃ (out : Bytes) (written : Content), jsonDump zeroLibc (addMembers members) false = .ok out ∧
      written.val = out ++ [10] ∧ written.val.length ≤ IMAGE_JSON_MAX_BYTES := by
  obtain ⟨out, hdump, -⟩ := hbuilt.round_trip zeroLibc_documented
  have hlength := sample_short hkeys hcount hlabels hvalues hdump
  have hfits : (out ++ [10]).length < 2 ^ 63 := lt_of_le_of_lt hlength (by decide)
  exact ⟨out, ⟨out ++ [10], hfits⟩, hdump, rfl, hlength⟩

theorem label_length {key : String} {label : Bytes} (hascii : (key.toList.all fun c => decide (c.toNat < 0x80)) = true)
    (hkey : key.toList.length ≤ 80) (h : dumpKey .object (ascii key) = .ok label) : label.length ≤ 1000 := by
  obtain ⟨quoted, hquoted, h⟩ := bind_eq_ok.mp h
  rw [show ascii key = Utf8.text key.toList from (text_word (all_ascii hascii)).symm] at hquoted
  have hlength := appendQuoted_length hquoted
  rw [← Except.ok.inj h, List.length_append, show (ascii ": ").length = 2 by decide]
  omega

theorem sampleBudget_built : Built zeroLibc.finite JSON_MAX_DEPTH (addMembers sampleMembers) := by
  refine built_members (by decide) (by decide) ?_
  simp only [sampleMembers, List.forall_mem_cons, List.not_mem_nil, false_imp_iff, implies_true, and_true]
  exact ⟨built_size (by decide), built_size (by decide), built_lowerHex (@sample_lowerHex 64),
    built_lowerHex (@sample_lowerHex 64)⟩

theorem sampleBudget_written : ∃ (out : Bytes) (written : Content),
    jsonDump zeroLibc (addMembers sampleMembers) false = .ok out ∧ written.val = out ++ [10] ∧
      written.val.length ≤ IMAGE_JSON_MAX_BYTES := by
  have hascii : ∀ m ∈ sampleMembers, (m.1.toList.all fun c => decide (c.toNat < 0x80)) = true ∧ m.1.toList.length ≤ 80 := by
    decide
  refine sample_written sampleBudget_built (by decide) (by decide)
    (fun m hm label => label_length (hascii m hm).1 (hascii m hm).2) ?_
  · simp only [sampleMembers, List.forall_mem_cons, List.not_mem_nil, false_imp_iff, implies_true, and_true]
    exact ⟨short_of_eval (by decide), short_of_eval (by decide), short_lowerHex (@sample_lowerHex 64) (by decide),
      short_lowerHex (@sample_lowerHex 64) (by decide)⟩

theorem sampleReport_written {budget : Content} : ∃ (out : Bytes) (written : Content),
    jsonDump zeroLibc (sizeReport sampleOptions sampleMeasured) false = .ok out ∧ written.val = out ++ [10] ∧
      written.val.length ≤ IMAGE_JSON_MAX_BYTES := by
  have hkeys : ∀ key ∈ reportKeys, key.toList.length ≤ 80 := by decide
  have hm := measure_eq_ok (@sample_measure budget)
  refine sample_written (built_report hm (by decide)) reportMembers_nodup
    (by decide) (fun m hm label => label_length (reportMembers_ascii m hm) (hkeys m.1 ?_)) ?_
  · rw [← @reportMembers_keys sampleOptions sampleMeasured]
    exact List.mem_map_of_mem hm
  · simp only [reportMembers, List.forall_mem_cons, List.not_mem_nil, false_imp_iff, implies_true, and_true]
    exact ⟨short_of_eval (by decide), short_lowerHex (@sample_lowerHex 64) (by decide),
      short_lowerHex (@sample_lowerHex 40) (by decide), short_of_eval (by decide), short_of_eval (by decide),
      short_of_eval (by decide), short_lowerHex hm.sound.baselineSha (by decide),
      short_lowerHex hm.sound.imageSha (by decide), short_of_eval (by decide), short_of_eval (by decide),
      short_of_eval (by decide), short_of_eval (by decide), short_of_eval (by decide +kernel),
      short_of_eval (by decide), short_of_eval (by decide)⟩

theorem imageWriteJson_of {D : Type} {libc : Libc D} {files : Files} {path : String} {value : JsonValue} {out : Bytes}
    {written : Content} (hdump : jsonDump libc value false = .ok out) (hwritten : written.val = out ++ [10])
    (hentry : files path ≠ some .directory) :
    imageWriteJson libc files path value = .ok (Function.update files path (some (.regular written))) := by
  obtain ⟨bytes, hbytes⟩ := written
  obtain rfl : bytes = out ++ [10] := hwritten
  unfold imageWriteJson
  rw [hdump]
  dsimp only
  unfold imageWriteFile
  rw [dif_pos hbytes]
  split
  · exact absurd ‹_› hentry
  · rfl

theorem sizeGateRun_of {D : Type} {libc : Libc D} {files written left : Files} {options : SizeGateOptions} {m : Measured}
    (hmeasure : measure files options = .ok m)
    (hwrite : imageWriteJson libc files options.report (sizeReport options m) = .ok written)
    (hgate : gate libc written options m = .ok left) : sizeGateRun libc files options = (.ok (), left) := by
  unfold sizeGateRun
  rw [hmeasure, ok_bind, hwrite, ok_bind]
  dsimp only [pure, Except.pure]
  rw [hgate]

theorem sample_gate {files : Files} (hregular : regularNotSymlink files "budget.json" = true)
    (hread : imageReadJson zeroLibc.finite files "budget.json" = .ok (addMembers sampleMembers)) :
    gate zeroLibc files sampleOptions sampleMeasured = .ok files := by
  have hvalid : sizeBudgetValidate (addMembers sampleMembers) = .ok () := by decide
  unfold gate
  rw [if_neg (by decide), checked_eq (by decide), ok_bind, if_neg (by decide), if_neg (by decide),
    show sampleOptions.budget = "budget.json" from rfl, if_neg (by simp [hregular]), hread, ok_bind, hvalid, ok_bind,
    if_neg (by decide)]

/-- One byte is published: the run and the check accept it. -/
theorem sizeReleaseVerify_of_run_sample : ∃ (budget : Content) (files' : Files),
    sizeGateRun zeroLibc (sampleFiles budget) sampleOptions = (.ok (), files') ∧
      sizeReleaseVerify zeroLibc.finite files' "image.img" "report.json" "budget.json"
        (some (List.replicate 40 (byte '0'))) = .ok () := by
  obtain ⟨out, budget, hdump, hbudget, hfits⟩ := sampleBudget_written
  obtain ⟨out', text, hdump', htext, hfits'⟩ := @sampleReport_written budget
  set files' : Files := Function.update (sampleFiles budget) "report.json" (some (.regular text)) with hfiles
  have hreport : files' "report.json" = some (.regular text) := Function.update_self ..
  have hfile : files' "budget.json" = some (.regular budget) := by
    rw [hfiles, Function.update_of_ne (by decide)]
    rfl
  have hread : imageReadJson zeroLibc.finite files' "budget.json" = .ok (addMembers sampleMembers) := by
    rw [imageReadJson_written zeroLibc_documented sampleBudget_built hdump hbudget hfile, if_neg (not_lt.mpr hfits)]
  have hwrite : imageWriteJson zeroLibc (sampleFiles budget) "report.json" (sizeReport sampleOptions sampleMeasured) =
      .ok files' := imageWriteJson_of hdump' htext (by rw [show sampleFiles budget "report.json" = none from rfl]; simp)
  have hrun := sizeGateRun_of sample_measure hwrite (sample_gate (regularNotSymlink_iff.mpr ⟨budget, hfile⟩) hread)
  have hne : sampleOptions.report ≠ sampleOptions.candidate := by decide
  obtain ⟨text', htext', hiff⟩ := @sizeReleaseVerify_of_run _ zeroLibc (sampleFiles budget) files' sampleOptions
    zeroLibc_documented rfl (regularNotSymlink_iff.mpr ⟨_, rfl⟩) hne hrun
  have hsame : text' = text := by
    rw [show sampleOptions.report = "report.json" from rfl, hreport] at htext'
    exact (Entry.regular.inj (Option.some.inj htext')).symm
  exact ⟨budget, files', hrun, hiff.mpr (hsame ▸ hfits')⟩

end Hamn.SizeGate
