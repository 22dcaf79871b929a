import Protofire.Kernel.Block
import Protofire.Lib.StackWords

/-!
# Paths

How a path becomes canonical (`fs/path.rs`): white space at its ends is cut off, some characters and
prefixes are refused, a relative path is put behind the working directory, and the components are
collected on a stack, where `..` takes the last one away.

A result has the form that it should have (`IsCanonical`), but it is not always left alone when it
is normalised again. The ends are trimmed *before* the components are collected, so a component that
ends in white space can come to stand at the end, as in `/a /.`; the next call trims it. This is the
only way: `Lingers` says it of the components that were given, and `normalizePath_canonical` is the
exact statement. A working directory of that kind then stands for a different directory, which the
second half of it says, together with what a relative path may not be.
-/

namespace Protofire.Fs

open StackWords Bool List

/-- Paths as the kernel's lookup receives them. -/
abbrev Path := List Char

/-! ### The functions of the code -/

/-- `char::is_whitespace`. -/
def isWhitespace (c : Char) : Bool :=
  (0x09 ≤ c.val && c.val ≤ 0x0d) || c.val == 0x20 || c.val == 0x85 || c.val == 0xa0 ||
    c.val == 0x1680 || (0x2000 ≤ c.val && c.val ≤ 0x200a) || c.val == 0x2028 || c.val == 0x2029 ||
    c.val == 0x202f || c.val == 0x205f || c.val == 0x3000

section

variable (path : Path)

/-- `str::trim`. -/
def trim : Path := (path.dropWhile isWhitespace).rdropWhile isWhitespace

/-- A letter and a colon: a Windows drive. -/
def hasDrivePrefix : Path → Bool
  | a :: b :: _ => a.isAlpha && b == ':'
  | _ => false

/-- `reject_drive_prefixed_path`. -/
def rejectDrivePrefixedPath : Except Error Unit :=
  if hasDrivePrefix path then .error .invalidArgument else .ok ()

/-- A byte below 0x20 is a character of its own, and so is 0x7f. -/
def isControl (c : Char) : Bool := c.val < 0x20 || c.val == 0x7f

/-- The device form `//?/`. -/
def devicePrefix : Path := ['/', '/', '?', '/']

/-- `sanitize_path_input`: no control character, no device form and no backslash. -/
def sanitizePathInput : Except Error Path :=
  let trimmed := trim path
  if trimmed = [] then .error .invalidArgument
  else if trimmed.any isControl then .error .invalidArgument
  else if devicePrefix.isPrefixOf trimmed then .error .invalidArgument
  else if trimmed.contains '\\' then .error .invalidArgument
  else .ok trimmed

/-- `sanitize_normalizable_path`: no drive either. -/
def sanitizeNormalizablePath : Except Error Path := do
  let trimmed ← sanitizePathInput path
  rejectDrivePrefixedPath trimmed
  return trimmed

/-- What a component does to the ones that were collected. -/
def partMove (part : Path) : Move :=
  if part = [] ∨ part = ['.'] then .skip else if part = ['.', '.'] then .pop else .push

/-- `collect_parts`: the components left once `.` and `..` are resolved. -/
def collectParts : List Path := run partMove [] (path.splitOn '/')

/-- `build_normalized_path`: the root for no components. -/
def buildNormalizedPath (parts : List Path) : Path :=
  if parts = [] then ['/'] else '/' :: ['/'].intercalate parts

def isAbsolute : Bool := path.head? == some '/'

/-- `normalize_absolute_path`. -/
def normalizeAbsolutePath : Except Error Path := do
  rejectDrivePrefixedPath path
  if ¬isAbsolute path then .error .invalidArgument
  else return buildNormalizedPath (collectParts (path.dropWhile (· == '/')))

/-- `sanitize_absolute_cwd`. -/
def sanitizeAbsoluteCwd (cwd : Path) : Except Error Path := do
  normalizeAbsolutePath (← sanitizeNormalizablePath cwd)

/-- `join_paths`. -/
def joinPaths (base relative : Path) : Path :=
  let trimmedRelative := relative.dropWhile (· == '/')
  if base.getLast? = some '/' then base ++ trimmedRelative else base ++ '/' :: trimmedRelative

/-- `normalize_path`: a relative path is taken from the working directory. -/
def normalizePath (path cwd : Path) : Except Error Path := do
  let raw ← sanitizeNormalizablePath path
  let cwd ← sanitizeAbsoluteCwd cwd
  if isAbsolute raw then normalizeAbsolutePath raw
  else normalizeAbsolutePath (joinPaths cwd raw)

/-! ### White space at the end -/

/-- The text ends in white space. -/
def EndsInSpace : Prop := ∃ c, path.getLast? = some c ∧ isWhitespace c = true

end

variable {path : Path}

theorem rdropWhile_eq_self (h : ¬EndsInSpace path) : path.rdropWhile isWhitespace = path := by
  rw [rdropWhile_eq_self_iff]
  intro hne hc
  exact h ⟨_, getLast?_eq_some_getLast hne, hc⟩

/-- What starts with a slash is only trimmed at its end. -/
theorem trim_of_isAbsolute (h : isAbsolute path = true) :
    trim path = path.rdropWhile isWhitespace := by
  rcases path with _ | ⟨c, path⟩
  · rfl
  obtain rfl : c = '/' := by simpa [isAbsolute] using h
  rw [trim, dropWhile_cons_of_neg (by decide)]

theorem trim_eq_self (h : isAbsolute path = true) (hend : ¬EndsInSpace path) :
    trim path = path := by
  rw [trim_of_isAbsolute h, rdropWhile_eq_self hend]

variable {c : Char}

theorem mem_of_mem_rdropWhile (h : c ∈ path.rdropWhile isWhitespace) : c ∈ path :=
  ( rdropWhile_prefix _ path).subset h

/-- White space is cut off in the last component only. -/
theorem rdropWhile_append_slash (p q : Path) :
    (p ++ '/' :: q).rdropWhile isWhitespace = p ++ '/' :: q.rdropWhile isWhitespace := by
  induction q using List.reverseRecOn with
  | nil => rw [rdropWhile_concat_neg _ _ _ (by decide), rdropWhile_nil]
  | append_singleton q c ih =>
    rw [← cons_append, ← append_assoc, rdropWhile_concat, rdropWhile_concat]
    split
    · exact ih
    · simp

/-! ### What is accepted -/

/-- The characters that a path may have. -/
def Clean (path : Path) : Prop := ∀ c ∈ path, isControl c = false ∧ c ≠ '\\'

/-- **What is accepted**, after trimming. -/
structure Acceptable (raw : Path) : Prop where
  ne_nil : raw ≠ []
  clean : Clean raw
  not_device : ¬devicePrefix <+: raw
  not_drive : hasDrivePrefix raw = false

theorem acceptable_iff {raw : Path} :
    Acceptable raw ↔ raw ≠ [] ∧ raw.any isControl = false ∧ devicePrefix.isPrefixOf raw = false ∧
      raw.contains '\\' = false ∧ hasDrivePrefix raw = false := by
  have hcontrol : raw.any isControl = false ↔ ∀ c ∈ raw, isControl c = false := by
    simp only [any_eq_false, not_eq_true]
  have hdv : devicePrefix.isPrefixOf raw = false ↔ ¬devicePrefix <+: raw := by
    rw [eq_false_iff, ne_eq, isPrefixOf_iff_prefix]
  have hbs : raw.contains '\\' = false ↔ ∀ c ∈ raw, c ≠ '\\' := by
    rw [contains_eq_mem, decide_eq_false_iff_not]
    exact ⟨fun h c hc heq => h (heq ▸ hc), fun h hmem => h _ hmem rfl⟩
  rw [hcontrol, hdv, hbs]
  constructor
  · rintro ⟨hne, hclean, hdev, hdrv⟩
    exact ⟨hne, fun c hc => (hclean c hc).1, hdev, fun c hc => (hclean c hc).2, hdrv⟩
  · rintro ⟨hne, hctl, hdev, hbk, hdrv⟩
    exact ⟨hne, fun c hc => ⟨hctl c hc, hbk c hc⟩, hdev, hdrv⟩

theorem sanitizeNormalizablePath_ok (h : Acceptable (trim path)) :
    sanitizeNormalizablePath path = .ok (trim path) := by
  obtain ⟨hne, hcontrol, hdv, hbs, hdrv⟩ := acceptable_iff.mp h
  have hinp : sanitizePathInput path = .ok (trim path) := by
    rw [sanitizePathInput]
    simp only [if_neg hne, hcontrol, hdv, hbs, false_eq_true, if_false]
  have hrej : rejectDrivePrefixedPath (trim path) = .ok () := by
    rw [rejectDrivePrefixedPath, hdrv]
    rfl
  simp only [sanitizeNormalizablePath, hinp, hrej, bind, Except.bind, pure, Except.pure]

theorem sanitizeNormalizablePath_error (h : ¬Acceptable (trim path)) :
    sanitizeNormalizablePath path = .error .invalidArgument := by
  rw [acceptable_iff] at h
  rw [sanitizeNormalizablePath, sanitizePathInput]
  by_cases hne : trim path = []
  · simp only [hne, if_true, bind, Except.bind]
  rw [if_neg hne]
  split
  · rfl
  rename_i hcontrol
  split
  · rfl
  rename_i hdv
  split
  · rfl
  rename_i hbs
  rcases hdrv : hasDrivePrefix (trim path) with _ | _
  · rw [not_eq_true] at hcontrol hdv hbs
    exact absurd ⟨hne, hcontrol, hdv, hbs, hdrv⟩ h
  · simp only [hdrv, rejectDrivePrefixedPath, if_true, bind, Except.bind]

/-! ### Components -/

/-- A path is a component, or a component in front of a path. -/
theorem path_induction {motive : Path → Prop} (single : ∀ p, '/' ∉ p → motive p)
    (cut : ∀ p q, '/' ∉ p → motive q → motive (p ++ '/' :: q)) (path : Path) : motive path := by
  induction hn : path.length using Nat.strongRecOn generalizing path with
  | _ n ih =>
    subst hn
    by_cases hmem : '/' ∈ path
    · obtain ⟨p, q, rfl, hp⟩ := eq_append_cons_of_mem hmem
      exact cut p q hp (ih q.length (by simp; omega) q rfl)
    · exact single path hmem

theorem splitOn_append_slash (p q : Path) :
    (p ++ '/' :: q).splitOn '/' = p.splitOn '/' ++ q.splitOn '/' := by
  exact splitOnP_append_cons _ _ (by simp)

theorem splitOn_of_not_mem {p : Path} (h : '/' ∉ p) : p.splitOn '/' = [p] := by
  refine splitOnP_eq_singleton fun c hc => ?_
  rw [beq_eq_false_iff_ne]
  rintro rfl
  exact h hc

theorem splitOn_cons_slash (q : Path) : ('/' :: q).splitOn '/' = [] :: q.splitOn '/' := by
  have h := splitOn_append_slash [] q
  rwa [splitOn_of_not_mem not_mem_nil] at h

variable {part : Path}

theorem not_mem_of_mem_splitOn (h : part ∈ path.splitOn '/') : '/' ∉ part := by
  induction path using path_induction with
  | single p hp =>
    rw [splitOn_of_not_mem hp, mem_singleton] at h
    exact h ▸ hp
  | cut p q hp ih =>
    rw [splitOn_append_slash, splitOn_of_not_mem hp] at h
    rcases mem_cons.mp h with rfl | h
    · exact hp
    · exact ih h

theorem mem_of_mem_splitOn (h : part ∈ path.splitOn '/') (hc : c ∈ part) : c ∈ path := by
  induction path using path_induction with
  | single p hp =>
    rw [splitOn_of_not_mem hp, mem_singleton] at h
    exact h ▸ hc
  | cut p q hp ih =>
    rw [splitOn_append_slash, splitOn_of_not_mem hp] at h
    rcases mem_cons.mp h with rfl | h
    · exact mem_append_left _ hc
    · exact mem_append_right _ (mem_cons_of_mem _ (ih h))

/-- Slashes in front add empty components, which are passed over. -/
theorem collectParts_dropWhile (path : Path) :
    collectParts (path.dropWhile (· == '/')) = collectParts path := by
  induction path with
  | nil => rfl
  | cons c path ih =>
    by_cases hc : c = '/'
    · subst hc
      rw [dropWhile_cons_of_pos (by simp), ih, collectParts, collectParts, splitOn_cons_slash,
        run_cons, act_skip (by simp [partMove])]
    · rw [dropWhile_cons_of_neg (by simpa using hc)]

/-- **A part that a path may have**: a component that is pushed. -/
def IsPart (part : Path) : Prop := '/' ∉ part ∧ partMove part = .push

theorem IsPart.ne_nil (h : IsPart part) : part ≠ [] := by
  rintro rfl
  exact absurd h.2 (by simp [partMove])

theorem isPart_of_mem_collectParts (h : part ∈ collectParts path) : IsPart part := by
  rcases mem_run h with h | ⟨hmem, hpush⟩
  · exact absurd h (not_mem_nil)
  · exact ⟨not_mem_of_mem_splitOn hmem, hpush⟩

/-! ### Canonical paths -/

section Build

variable {parts : List Path}

theorem buildNormalizedPath_cons (hne : parts ≠ []) :
    buildNormalizedPath parts = '/' :: ['/'].intercalate parts := if_neg hne

theorem isAbsolute_build (parts : List Path) : isAbsolute (buildNormalizedPath parts) = true := by
  rw [buildNormalizedPath]
  split <;> rfl

/-- The parts are the components of the path that is built from them. -/
theorem splitOn_build (h : ∀ part ∈ parts, IsPart part) (hne : parts ≠ []) :
    (buildNormalizedPath parts).splitOn '/' = [] :: parts := by
  rw [buildNormalizedPath_cons hne, splitOn_cons_slash,
    splitOn_intercalate _ (fun part hpa => (h part hpa).1) hne]

/-- **The parts come back.** -/
theorem collectParts_build (h : ∀ part ∈ parts, IsPart part) :
    collectParts (buildNormalizedPath parts) = parts := by
  by_cases hne : parts = []
  · subst hne
    rfl
  · rw [collectParts, splitOn_build h hne, run_cons, act_skip (by simp [partMove]),
      run_of_push fun part hpa => (h part hpa).2, nil_append]

theorem intercalate_concat (part : Path) (hne : parts ≠ []) :
    ['/'].intercalate (parts ++ [part]) = ['/'].intercalate parts ++ '/' :: part := by
  induction parts with
  | nil => exact absurd rfl hne
  | cons p parts ih =>
    by_cases hnil : parts = []
    · subst hnil
      simp
    rw [cons_append, intercalate_cons_of_ne_nil (by simp), ih hnil, intercalate_cons_of_ne_nil hnil]
    simp only [append_assoc]

section

variable (h : ∀ part ∈ parts, IsPart part)
include h

/-- **The last part is at the end**, behind a slash. -/
theorem build_concat (part : Path) :
    ∃ front, buildNormalizedPath (parts ++ [part]) = front ++ '/' :: part ∧
      collectParts front = parts := by
  rw [buildNormalizedPath_cons (by simp)]
  by_cases hne : parts = []
  · subst hne
    exact ⟨[], by simp, rfl⟩
  · refine ⟨buildNormalizedPath parts, ?_, collectParts_build h⟩
    rw [buildNormalizedPath_cons hne, intercalate_concat part hne, cons_append]

/-- A path that is built ends in white space when its last part does. -/
theorem endsInSpace_build_iff : EndsInSpace (buildNormalizedPath parts) ↔
      ∃ front part, parts = front ++ [part] ∧ EndsInSpace part := by
  rcases eq_nil_or_concat parts with rfl | ⟨front, part, rfl⟩
  · refine iff_of_false ?_ ?_
    · rintro ⟨c, hc, hspace⟩
      obtain rfl : '/' = c := Option.some.inj hc
      exact absurd hspace (by decide)
    · rintro ⟨front, part, heq, -⟩
      exact absurd heq (by simp)
  rw [concat_eq_append] at h ⊢
  have hpa : IsPart part := h part (by simp)
  obtain ⟨p, hp, -⟩ := build_concat (fun q hq => h q (mem_append_left _ hq)) part
  have hla : (buildNormalizedPath (front ++ [part])).getLast? = part.getLast? := by
    rw [hp, getLast?_append_cons, getLast?_cons, getLast?_eq_some_getLast hpa.ne_nil]
    rfl
  rw [EndsInSpace, hla]
  constructor
  · exact fun hspace => ⟨front, part, rfl, hspace⟩
  rintro ⟨front', part', heq, hspace⟩
  obtain ⟨-, heq⟩ := append_inj' heq rfl
  obtain rfl : part = part' := by simpa using heq
  exact hspace

/-- **A path that ends in white space is not left alone**: trimmed, it has other parts. -/
theorem collectParts_trim_build_ne (hspace : EndsInSpace (buildNormalizedPath parts)) :
    collectParts (trim (buildNormalizedPath parts)) ≠ parts := by
  obtain ⟨front, part, rfl, c, hc, hbla⟩ := (endsInSpace_build_iff h).mp hspace
  have hpa : IsPart part := h part (by simp)
  obtain ⟨p, hp, hfront⟩ := build_concat (fun q hq => h q (mem_append_left _ hq)) part
  have hslash : '/' ∉ part.rdropWhile isWhitespace := fun hmem =>
    hpa.1 (mem_of_mem_rdropWhile hmem)
  rw [trim_of_isAbsolute (isAbsolute_build _), hp, rdropWhile_append_slash, collectParts,
    splitOn_append_slash, splitOn_of_not_mem hslash, run_append]
  rw [collectParts] at hfront
  rw [hfront, run_cons]
  -- the trimmed part is passed over, takes the part before it away, or is another part
  rcases hmove : partMove (part.rdropWhile isWhitespace) with _ | _ | _
  · rw [act_skip hmove]
    exact fun heq => absurd (congrArg List.length heq) (by simp)
  · rw [act_pop hmove]
    exact fun heq => absurd (congrArg List.length heq) (by simp)
  rw [act_push hmove]
  intro heq
  have hse : part.rdropWhile isWhitespace = part := by simpa using heq
  rw [rdropWhile_eq_self_iff] at hse
  refine hse hpa.ne_nil ?_
  rw [getLast?_eq_some_getLast hpa.ne_nil] at hc
  rwa [Option.some.inj hc]

end

end Build

/-! ### What is computed -/

theorem normalizeAbsolutePath_ok (h : isAbsolute path = true) :
    normalizeAbsolutePath path = .ok (buildNormalizedPath (collectParts path)) := by
  have hdrv : hasDrivePrefix path = false := by
    rcases path with _ | ⟨c, _ | ⟨d, path⟩⟩
    · rfl
    · rfl
    · obtain rfl : c = '/' := by simpa [isAbsolute] using h
      rfl
  simp only [normalizeAbsolutePath, rejectDrivePrefixedPath, hdrv, h, collectParts_dropWhile,
    false_eq_true, if_false, not_true_eq_false, bind, Except.bind, pure, Except.pure]

theorem normalizeAbsolutePath_error (h : isAbsolute path = false) :
    normalizeAbsolutePath path = .error .invalidArgument := by
  rcases hdrv : hasDrivePrefix path with _ | _ <;>
    simp [normalizeAbsolutePath, rejectDrivePrefixedPath, hdrv, h, bind, Except.bind]

/-- **The components that a call goes through**: those of the path, behind those of the working
directory when the path is relative. -/
def components (path cwd : Path) : List Path :=
  if isAbsolute (trim path) then (trim path).splitOn '/'
  else (trim cwd).splitOn '/' ++ (trim path).splitOn '/'

variable {parts : List Path}

/-- A path that is built ends in a slash only when it has no part. -/
theorem eq_nil_of_getLast?_build (h : ∀ part ∈ parts, IsPart part)
    (hla : (buildNormalizedPath parts).getLast? = some '/') : parts = [] := by
  rcases eq_nil_or_concat parts with rfl | ⟨front, part, rfl⟩
  · rfl
  rw [concat_eq_append] at h hla
  have hpa : IsPart part := h part (by simp)
  obtain ⟨p, hp, -⟩ := build_concat (fun q hq => h q (mem_append_left _ hq)) part
  rw [hp, getLast?_append_cons, getLast?_cons, getLast?_eq_some_getLast hpa.ne_nil] at hla
  have hmem : part.getLast hpa.ne_nil ∈ part := getLast_mem _
  rw [show part.getLast hpa.ne_nil = '/' from Option.some.inj hla] at hmem
  exact absurd hmem hpa.1

/-- The relative path is put behind the parts of the working directory. -/
theorem collectParts_joinPaths {raw : Path} (h : ∀ part ∈ parts, IsPart part)
    (hraw : isAbsolute raw = false) :
    isAbsolute (joinPaths (buildNormalizedPath parts) raw) = true ∧
      collectParts (joinPaths (buildNormalizedPath parts) raw) =
        run partMove parts (raw.splitOn '/') := by
  have hdr : raw.dropWhile (· == '/') = raw := by
    rcases raw with _ | ⟨c, raw⟩
    · rfl
    · exact dropWhile_cons_of_neg (by simpa [isAbsolute] using hraw)
  have hhd : ∀ {base : Path} (tail : Path), isAbsolute base = true →
      isAbsolute (base ++ tail) = true := by
    intro base tail hbase
    rcases base with _ | ⟨c, base⟩
    · exact absurd hbase (by decide)
    · exact hbase
  rw [joinPaths, hdr]
  split
  · rename_i hla
    refine ⟨hhd raw (isAbsolute_build _), ?_⟩
    obtain rfl := eq_nil_of_getLast?_build h hla
    show collectParts ('/' :: raw) = _
    rw [collectParts, splitOn_cons_slash, run_cons, act_skip (by simp [partMove])]
  · refine ⟨hhd _ (isAbsolute_build _), ?_⟩
    have hprt := collectParts_build h
    rw [collectParts] at hprt ⊢
    rw [splitOn_append_slash, run_append, hprt]

theorem run_components (path cwd : Path) (part : Path)
    (h : part ∈ run partMove [] (components path cwd)) : IsPart part := by
  rcases mem_run h with h | ⟨hmem, hpush⟩
  · exact absurd h not_mem_nil
  refine ⟨?_, hpush⟩
  rw [components] at hmem
  split at hmem
  · exact not_mem_of_mem_splitOn hmem
  · rcases mem_append.mp hmem with hmem | hmem <;> exact not_mem_of_mem_splitOn hmem

variable {cwd : Path}

/-- **A call that succeeds.** -/
theorem normalizePath_ok (hpath : Acceptable (trim path)) (hcwd : Acceptable (trim cwd))
    (habs : isAbsolute (trim cwd) = true) : normalizePath path cwd =
      .ok (buildNormalizedPath (run partMove [] (components path cwd))) := by
  simp only [normalizePath, sanitizeAbsoluteCwd, sanitizeNormalizablePath_ok hpath,
    sanitizeNormalizablePath_ok hcwd, normalizeAbsolutePath_ok habs, bind, Except.bind, components]
  split
  · rename_i hraw
    exact normalizeAbsolutePath_ok hraw
  rename_i hraw
  obtain ⟨hjoin, hprt⟩ := collectParts_joinPaths
    (fun part hpa => @isPart_of_mem_collectParts (trim cwd) part hpa)
    (eq_false_iff.mpr hraw)
  rw [normalizeAbsolutePath_ok hjoin, hprt, run_append]
  rfl

/-- **A call that fails.** -/
theorem normalizePath_error
    (h : ¬(Acceptable (trim path) ∧ Acceptable (trim cwd) ∧ isAbsolute (trim cwd) = true)) :
    normalizePath path cwd = .error .invalidArgument := by
  by_cases hpath : Acceptable (trim path)
  · by_cases hcwd : Acceptable (trim cwd)
    · have habs : isAbsolute (trim cwd) = false :=
        eq_false_iff.mpr fun habs => h ⟨hpath, hcwd, habs⟩
      simp only [normalizePath, sanitizeAbsoluteCwd, sanitizeNormalizablePath_ok hpath,
        sanitizeNormalizablePath_ok hcwd, normalizeAbsolutePath_error habs, bind, Except.bind]
    · simp only [normalizePath, sanitizeAbsoluteCwd, sanitizeNormalizablePath_ok hpath,
        sanitizeNormalizablePath_error hcwd, bind, Except.bind]
  · simp only [normalizePath, sanitizeNormalizablePath_error hpath, bind, Except.bind]

/-! ### Results -/

/-- **A canonical path.** -/
structure IsCanonical (q : Path) : Prop where
  absolute : isAbsolute q = true
  parts : q = ['/'] ∨ ∀ part ∈ q.tail.splitOn '/', part ≠ [] ∧ part ≠ ['.'] ∧ part ≠ ['.', '.']
  no_slash_at_end : q = ['/'] ∨ q.getLast? ≠ some '/'

theorem partMove_eq_push :
    partMove part = .push ↔ part ≠ [] ∧ part ≠ ['.'] ∧ part ≠ ['.', '.'] := by
  rw [partMove]
  split
  · rename_i h
    exact iff_of_false (by simp) fun hn => h.elim hn.1 hn.2.1
  rename_i h
  obtain ⟨hnil, hdot⟩ := not_or.mp h
  split
  · rename_i hdots
    exact iff_of_false (by simp) fun hn => hn.2.2 hdots
  · rename_i hdots
    exact iff_of_true rfl ⟨hnil, hdot, hdots⟩

theorem isCanonical_build (h : ∀ part ∈ parts, IsPart part) :
    IsCanonical (buildNormalizedPath parts) := by
  refine ⟨isAbsolute_build parts, ?_, ?_⟩
  · by_cases hne : parts = []
    · exact Or.inl (by rw [hne]; rfl)
    refine Or.inr fun part hpa => partMove_eq_push.mp ?_
    rw [buildNormalizedPath_cons hne, tail_cons,
      splitOn_intercalate _ (fun part hpa => (h part hpa).1) hne] at hpa
    exact (h part hpa).2
  · refine or_iff_not_imp_right.mpr fun hla => ?_
    rw [eq_nil_of_getLast?_build h (not_not.mp hla)]
    rfl

/-- **A part that ends in white space is left at the end**: everything behind it cancels out. -/
def Lingers (word : List Path) : Prop :=
  ∃ front part rest, word = front ++ part :: rest ∧ partMove part = .push ∧ EndsInSpace part ∧
    Idle partMove rest

theorem endsInSpace_build_run (path cwd : Path) :
    EndsInSpace (buildNormalizedPath (run partMove [] (components path cwd))) ↔
      Lingers (components path cwd) := by
  rw [endsInSpace_build_iff (run_components path cwd)]
  constructor
  · rintro ⟨parts, part, hrun, hspace⟩
    obtain ⟨front, rest, hwd, hpush, hidle, -⟩ := run_eq_concat_iff.mp hrun
    exact ⟨front, part, rest, hwd, hpush, hspace, hidle⟩
  · rintro ⟨front, part, rest, hwd, hpush, hspace, hidle⟩
    exact ⟨_, part, run_eq_concat_iff.mpr ⟨front, rest, hwd, hpush, hidle, rfl⟩, hspace⟩

/-- The working directory is accepted. -/
def Accepts (cwd : Path) : Prop := ∃ c, sanitizeAbsoluteCwd cwd = .ok c

theorem accepts_iff : Accepts cwd ↔ Acceptable (trim cwd) ∧ isAbsolute (trim cwd) = true := by
  by_cases hcwd : Acceptable (trim cwd)
  · simp only [Accepts, sanitizeAbsoluteCwd, sanitizeNormalizablePath_ok hcwd, bind, Except.bind]
    rcases habs : isAbsolute (trim cwd) with _ | _
    · simp [normalizeAbsolutePath_error habs]
    · simp [normalizeAbsolutePath_ok habs, hcwd]
  · simp [Accepts, sanitizeAbsoluteCwd, sanitizeNormalizablePath_error hcwd, hcwd, bind,
      Except.bind]

theorem head?_intercalate (h : ∀ part ∈ parts, IsPart part) :
    (['/'].intercalate parts).head? ≠ some '/' := by
  rcases parts with _ | ⟨part, parts⟩
  · simp
  have hpa : IsPart part := h part mem_cons_self
  rcases part with _ | ⟨c, part⟩
  · exact absurd rfl hpa.ne_nil
  intro hc
  refine hpa.1 (mem_cons.mpr (Or.inl ?_))
  rcases parts with _ | ⟨p, parts⟩ <;> exact (Option.some.inj hc).symm

theorem mem_intercalate (hc : c ∈ ['/'].intercalate parts) :
    c = '/' ∨ ∃ part ∈ parts, c ∈ part := by
  induction parts with
  | nil => exact absurd hc (by simp)
  | cons part parts ih =>
    by_cases hnil : parts = []
    · subst hnil
      exact Or.inr ⟨part, mem_cons_self, by simpa using hc⟩
    rw [intercalate_cons_of_ne_nil hnil] at hc
    simp only [mem_append, mem_singleton] at hc
    rcases hc with (hc | hc) | hc
    · exact Or.inr ⟨part, mem_cons_self, hc⟩
    · exact Or.inl hc
    rcases ih hc with hc | ⟨p, hp, hc⟩
    · exact Or.inl hc
    · exact Or.inr ⟨p, mem_cons_of_mem _ hp, hc⟩

/-- What is built begins with one slash. -/
theorem build_eq_cons (parts : List Path) :
    buildNormalizedPath parts = '/' :: ['/'].intercalate parts := by
  by_cases hne : parts = []
  · rw [hne]
    rfl
  · exact buildNormalizedPath_cons hne

theorem clean_build (hclean : ∀ part ∈ parts, Clean part) : Clean (buildNormalizedPath parts) := by
  intro c hc
  rw [build_eq_cons] at hc
  rcases mem_cons.mp hc with rfl | hc
  · exact ⟨by decide, by decide⟩
  rcases mem_intercalate hc with rfl | ⟨part, hpa, hc⟩
  · exact ⟨by decide, by decide⟩
  · exact hclean part hpa c hc

/-- **What is built from clean parts is accepted.** -/
theorem acceptable_build (h : ∀ part ∈ parts, IsPart part) (hclean : ∀ part ∈ parts, Clean part) :
    Acceptable (trim (buildNormalizedPath parts)) ∧
      isAbsolute (trim (buildNormalizedPath parts)) = true := by
  have hcl := clean_build hclean
  have hhd := head?_intercalate h
  have htl := build_eq_cons parts
  generalize ['/'].intercalate parts = tail at hhd htl
  have htrim : trim (buildNormalizedPath parts) = '/' :: tail.rdropWhile isWhitespace := by
    rw [htl]
    exact rdropWhile_append_slash [] tail
  rw [htrim]
  refine ⟨⟨cons_ne_nil _ _, ?_, ?_, ?_⟩, rfl⟩
  · intro c hc
    rw [htl] at hcl
    rcases mem_cons.mp hc with rfl | hc
    · exact hcl _ mem_cons_self
    · exact hcl c (mem_cons_of_mem _ (mem_of_mem_rdropWhile hc))
  · intro hdv
    obtain ⟨t, ht⟩ := hdv
    obtain ⟨u, hu⟩ := rdropWhile_prefix isWhitespace tail
    obtain ht : ['/', '?', '/'] ++ t = tail.rdropWhile isWhitespace := (List.cons.inj ht).2
    rw [← ht] at hu
    exact hhd (by rw [← hu]; rfl)
  · rcases tail.rdropWhile isWhitespace with _ | ⟨c, tail⟩
    · rfl
    · rfl

theorem clean_run_components (hpath : Clean (trim path)) (hcwd : Clean (trim cwd)) (part : Path)
    (h : part ∈ run partMove [] (components path cwd)) : Clean part := by
  intro c hc
  rcases mem_run h with h | ⟨hmem, -⟩
  · exact absurd h not_mem_nil
  rw [components] at hmem
  split at hmem
  · exact hpath c (mem_of_mem_splitOn hmem hc)
  rcases mem_append.mp hmem with hmem | hmem
  · exact hcwd c (mem_of_mem_splitOn hmem hc)
  · exact hpath c (mem_of_mem_splitOn hmem hc)

/-- **A result**: its parts, which are clean. -/
theorem normalizePath_eq_ok {q : Path} (h : normalizePath path cwd = .ok q) :
    q = buildNormalizedPath (run partMove [] (components path cwd)) ∧
      ∀ part ∈ run partMove [] (components path cwd), Clean part := by
  by_cases hok : Acceptable (trim path) ∧ Acceptable (trim cwd) ∧ isAbsolute (trim cwd) = true
  · obtain ⟨hpath, hcwd, habs⟩ := hok
    rw [normalizePath_ok hpath hcwd habs] at h
    exact ⟨(Except.ok.inj h).symm, clean_run_components hpath.clean hcwd.clean⟩
  · rw [normalizePath_error hok] at h
    cases h

theorem buildNormalizedPath_injective {parts' : List Path} (h : ∀ part ∈ parts, IsPart part)
    (h' : ∀ part ∈ parts', IsPart part)
    (heq : buildNormalizedPath parts = buildNormalizedPath parts') : parts = parts' := by
  rw [← collectParts_build h, heq, collectParts_build h']

section Again

variable {parts : List Path} (h : ∀ part ∈ parts, IsPart part) (hclean : ∀ part ∈ parts, Clean part)

include h hclean

/-- **A canonical path is normalised again**: it is trimmed, and its components collected. -/
theorem normalizePath_build {c : Path} (hc : Accepts c) :
    normalizePath (buildNormalizedPath parts) c =
      .ok (buildNormalizedPath (collectParts (trim (buildNormalizedPath parts)))) := by
  obtain ⟨hcwd, habs⟩ := accepts_iff.mp hc
  obtain ⟨hpath, hpat⟩ := acceptable_build h hclean
  rw [normalizePath_ok hpath hcwd habs, components, if_pos hpat]
  rfl

/-- It is left alone exactly when it does not end in white space. -/
theorem normalizePath_build_iff : (∀ c, Accepts c → normalizePath (buildNormalizedPath parts) c =
      .ok (buildNormalizedPath parts)) ↔ ¬EndsInSpace (buildNormalizedPath parts) := by
  constructor
  · intro hall hspace
    have hroot : Accepts ['/'] := ⟨['/'], rfl⟩
    have heq := hall ['/'] hroot
    rw [normalizePath_build h hclean hroot] at heq
    exact collectParts_trim_build_ne h hspace (buildNormalizedPath_injective
      (fun part hpa => isPart_of_mem_collectParts hpa) h (Except.ok.inj heq))
  · intro hspace c hc
    rw [normalizePath_build h hclean hc, trim_eq_self (isAbsolute_build _) hspace,
      collectParts_build h]

end Again

/-! ### Relative paths -/

theorem not_endsInSpace_of_trim (h : trim path = path) : ¬EndsInSpace path := by
  have hdr : path.dropWhile isWhitespace = path := by
    refine (dropWhile_suffix _).eq_of_length_le ?_
    calc path.length = (trim path).length := by rw [h]
      _ ≤ (path.dropWhile isWhitespace).length := ( rdropWhile_prefix _ _).length_le
  rintro ⟨c, hc, hspace⟩
  rw [trim, hdr, rdropWhile_eq_self_iff] at h
  have hne : path ≠ [] := by
    rintro rfl
    cases hc
  rw [getLast?_eq_some_getLast hne] at hc
  exact h hne (Option.some.inj hc ▸ hspace)

/-- **A relative path that both ways of writing accept**: it is not empty, it does not look like a
drive, and behind the root it does not look like a device. -/
def Plain (cwd relative : Path) : Prop :=
  relative ≠ [] ∧ hasDrivePrefix relative = false ∧ ¬(cwd = ['/'] ∧ ['?', '/'] <+: relative)

theorem acceptable_relative {relative : Path} (hrel : isAbsolute relative = false) :
    Acceptable relative ↔ relative ≠ [] ∧ Clean relative ∧ hasDrivePrefix relative = false := by
  constructor
  · rintro ⟨hne, hclean, -, hdrv⟩
    exact ⟨hne, hclean, hdrv⟩
  rintro ⟨hne, hclean, hdrv⟩
  refine ⟨hne, hclean, ?_, hdrv⟩
  rintro ⟨t, rfl⟩
  cases hrel

/-- What is accepted behind a canonical path. -/
theorem acceptable_append {relative : Path} (hcwd : Clean cwd) (hcan : IsCanonical cwd) :
    Acceptable (cwd ++ '/' :: relative) ↔
      Clean relative ∧ ¬(cwd = ['/'] ∧ ['?', '/'] <+: relative) := by
  obtain ⟨tail, rfl⟩ : ∃ tail, cwd = '/' :: tail := by
    rcases cwd with _ | ⟨c, tail⟩
    · exact absurd hcan.absolute (by decide)
    · exact ⟨tail, by simpa [isAbsolute] using hcan.absolute⟩
  constructor
  · rintro ⟨-, hclean, hdv, -⟩
    refine ⟨fun c hc => hclean c (by simp [hc]), ?_⟩
    rintro ⟨htl, t, rfl⟩
    obtain rfl : tail = [] := by simpa using htl
    exact hdv ⟨t, rfl⟩
  rintro ⟨hclean, hpln⟩
  refine ⟨by simp, fun c hc => ?_, ?_, ?_⟩
  · rcases mem_append.mp hc with hc | hc
    · exact hcwd c hc
    rcases mem_cons.mp hc with rfl | hc
    · exact ⟨by decide, by decide⟩
    · exact hclean c hc
  · rintro ⟨t, ht⟩
    obtain ht : ['/', '?', '/'] ++ t = tail ++ '/' :: relative := (List.cons.inj ht).2
    rcases tail with _ | ⟨c, tail⟩
    · exact hpln ⟨rfl, t, (List.cons.inj ht).2⟩
    -- behind the first slash of a canonical path comes a part, not a slash
    obtain rfl : '/' = c := (List.cons.inj ht).1
    rcases hcan.parts with hroot | hprt
    · cases hroot
    · exact (hprt [] mem_cons_self).1 rfl
  · rcases tail with _ | ⟨c, tail⟩
    · rfl
    · rfl

section Relative

variable {parts : List Path} {relative : Path}

/-- What is written behind a path is at its end. -/
theorem trim_append {q : Path} (habs : isAbsolute q = true) (hend : ¬EndsInSpace relative) :
    isAbsolute (q ++ '/' :: relative) = true ∧
      trim (q ++ '/' :: relative) = q ++ '/' :: relative := by
  have habsj : isAbsolute (q ++ '/' :: relative) = true := by
    rcases q with _ | ⟨c, q⟩
    · exact absurd habs (by decide)
    · exact habs
  refine ⟨habsj, trim_eq_self habsj ?_⟩
  rintro ⟨c, hc, hbla⟩
  rw [getLast?_append_cons] at hc
  rcases relative with _ | ⟨d, relative⟩
  · obtain rfl : '/' = c := Option.some.inj hc
    exact absurd hbla (by decide)
  · exact hend ⟨c, hc, hbla⟩

theorem accepts_root : Acceptable (trim ['/']) ∧ isAbsolute (trim ['/']) = true :=
  accepts_iff.mp ⟨['/'], rfl⟩

/-- **A relative path behind a canonical one** that does not end in white space. -/
theorem normalizePath_relative_iff (h : ∀ part ∈ parts, IsPart part)
    (hclean : ∀ part ∈ parts, Clean part) (hspace : ¬EndsInSpace (buildNormalizedPath parts))
    (hrel : isAbsolute relative = false) (htrim : trim relative = relative) :
    normalizePath relative (buildNormalizedPath parts) =
        normalizePath (buildNormalizedPath parts ++ '/' :: relative) ['/'] ↔
      (Clean relative → Plain (buildNormalizedPath parts) relative) := by
  obtain ⟨hcwd, habs⟩ := acceptable_build h hclean
  have hcan := isCanonical_build h
  have hcl := clean_build hclean
  generalize buildNormalizedPath parts = q at *
  have htrimq := trim_eq_self hcan.absolute hspace
  obtain ⟨habsj, htrimjoin⟩ :=
    trim_append hcan.absolute (not_endsInSpace_of_trim htrim)
  -- the two calls go through the same components, so they differ only in what they accept
  have hwd : components relative q = components (q ++ '/' :: relative) ['/'] := by
    rw [components, components, htrim, htrimq, htrimjoin, hrel, habsj, splitOn_append_slash]
    rfl
  have hlee : ¬Acceptable relative → normalizePath relative q = .error .invalidArgument :=
    fun hn => normalizePath_error fun hok => hn (htrim ▸ hok.1)
  have hrie : ¬Acceptable (q ++ '/' :: relative) →
      normalizePath (q ++ '/' :: relative) ['/'] = .error .invalidArgument :=
    fun hn => normalizePath_error fun hok => hn (htrimjoin ▸ hok.1)
  have hacc : normalizePath relative q = normalizePath (q ++ '/' :: relative) ['/'] ↔
      (Acceptable relative ↔ Acceptable (q ++ '/' :: relative)) := by
    by_cases hle : Acceptable relative
    · rw [normalizePath_ok (by rwa [htrim]) hcwd habs]
      by_cases hrgt : Acceptable (q ++ '/' :: relative)
      · rw [normalizePath_ok (by rwa [htrimjoin]) accepts_root.1 accepts_root.2, hwd]
        exact iff_of_true rfl (iff_of_true hle hrgt)
      · rw [hrie hrgt]
        exact iff_of_false (by simp) fun hiff => hrgt (hiff.mp hle)
    · rw [hlee hle]
      by_cases hrgt : Acceptable (q ++ '/' :: relative)
      · rw [normalizePath_ok (by rwa [htrimjoin]) accepts_root.1 accepts_root.2]
        exact iff_of_false (by simp) fun hiff => hle (hiff.mpr hrgt)
      · rw [hrie hrgt]
        exact iff_of_true rfl (iff_of_false hle hrgt)
  rw [hacc, acceptable_relative hrel, acceptable_append hcl hcan]
  constructor
  · intro hiff hrelative
    by_cases hdv : q = ['/'] ∧ ['?', '/'] <+: relative
    · obtain ⟨t, rfl⟩ := hdv.2
      exact absurd hdv (hiff.mp ⟨by simp, hrelative, rfl⟩).2
    · obtain ⟨hne, -, hdrv⟩ := hiff.mpr ⟨hrelative, hdv⟩
      exact ⟨hne, hdrv, hdv⟩
  · intro hpln
    constructor
    · rintro ⟨-, hrelative, -⟩
      exact ⟨hrelative, (hpln hrelative).2.2⟩
    · rintro ⟨hrelative, -⟩
      exact ⟨(hpln hrelative).1, hrelative, (hpln hrelative).2.1⟩

/-- A working directory that ends in white space does not stand for itself. -/
theorem normalizePath_dot_ne (h : ∀ part ∈ parts, IsPart part)
    (hclean : ∀ part ∈ parts, Clean part) (hspace : EndsInSpace (buildNormalizedPath parts)) :
    normalizePath ['.'] (buildNormalizedPath parts) ≠
      normalizePath (buildNormalizedPath parts ++ ['/', '.']) ['/'] := by
  have hdoc : Clean ['.'] := by simp [Clean, isControl]
  have hdot : Acceptable (trim ['.']) := (acceptable_relative rfl).mpr ⟨by decide, hdoc, rfl⟩
  obtain ⟨hcwd, habs⟩ := acceptable_build h hclean
  obtain ⟨habsj, htrimjoin⟩ := trim_append (isAbsolute_build parts)
    (not_endsInSpace_of_trim (show trim ['.'] = ['.'] from rfl))
  have hjoin : Acceptable (buildNormalizedPath parts ++ ['/', '.']) :=
    (acceptable_append (clean_build hclean) (isCanonical_build h)).mpr
      ⟨hdoc, fun hdv => absurd hdv.2 (by decide)⟩
  rw [normalizePath_ok hdot hcwd habs,
    normalizePath_ok (by rwa [htrimjoin]) accepts_root.1 accepts_root.2]
  intro heq
  refine collectParts_trim_build_ne h hspace ?_
  have hprt := buildNormalizedPath_injective (run_components _ _) (run_components _ _)
    (Except.ok.inj heq)
  rw [components, components, htrimjoin, if_pos habsj, if_neg (by decide),
    splitOn_append_slash, run_append, run_append] at hprt
  have hcol := collectParts_build h
  rw [collectParts] at hcol
  rw [hcol] at hprt
  exact hprt

end Relative

/-! ### The main result -/

/-- **Paths are canonical.** A result of `normalizePath` is absolute, has no component that is
empty, `.` or `..`, and no slash at its end. It is left alone by a second call, with any working
directory, exactly when no part that ends in white space is left at its end. And as a working
directory it then stands for itself: a relative path, without white space at its ends, is resolved
against it as the path that is written out, exactly when it is plain or has a character that is
refused anyway; otherwise `.` is resolved against it as something else. -/
theorem normalizePath_canonical {path cwd q : Path} (h : normalizePath path cwd = .ok q) :
    IsCanonical q ∧
    ((∀ c, Accepts c → normalizePath q c = .ok q) ↔ ¬Lingers (components path cwd)) ∧
    (¬Lingers (components path cwd) → ∀ relative, isAbsolute relative = false →
      trim relative = relative →
      (normalizePath relative q = normalizePath (q ++ '/' :: relative) ['/'] ↔
        (Clean relative → Plain q relative))) ∧ (Lingers (components path cwd) →
      normalizePath ['.'] q ≠ normalizePath (q ++ ['/', '.']) ['/']) := by
  obtain ⟨rfl, hclean⟩ := normalizePath_eq_ok h
  have hprt := run_components path cwd
  rw [← endsInSpace_build_run]
  refine ⟨isCanonical_build hprt, normalizePath_build_iff hprt hclean, ?_,
    normalizePath_dot_ne hprt hclean⟩
  intro hspace relative hrel htrim
  exact normalizePath_relative_iff hprt hclean hspace hrel htrim

/-- `/a/./b ` with the space trimmed, and `..` behind it. -/
theorem normalizePath_canonical_ab : IsCanonical ['/', 'a', '/', 'b'] ∧
      normalizePath ['.', '.'] ['/', 'a', '/', 'b'] =
        normalizePath ['/', 'a', '/', 'b', '/', '.', '.'] ['/'] := by
  have h := @normalizePath_canonical ['/', 'a', '/', '.', '/', 'b', ' '] ['/']
    ['/', 'a', '/', 'b'] rfl
  have hend : ¬EndsInSpace ['/', 'a', '/', 'b'] := not_endsInSpace_of_trim rfl
  have hstays : ¬Lingers (components ['/', 'a', '/', '.', '/', 'b', ' '] ['/']) :=
    fun hlin => hend ((endsInSpace_build_run _ _).mpr hlin)
  exact ⟨h.1, (h.2.2.1 hstays ['.', '.'] rfl rfl).mpr fun _ => ⟨by simp, rfl, by simp⟩⟩

/-- **A path that is not left alone**: `/a /.` is normalised to `/a `, which has a space at its end,
and that is normalised to `/a`. As a working directory it resolves `b` to `/a/b`, not to `/a /b`.
And at the root, the relative path `?/x` is accepted, but refused when it is written out. -/
theorem normalizePath_not_canonical :
    normalizePath ['/', 'a', ' ', '/', '.'] ['/'] = .ok ['/', 'a', ' '] ∧
    normalizePath ['/', 'a', ' '] ['/'] = .ok ['/', 'a'] ∧
    normalizePath ['b'] ['/', 'a', ' '] = .ok ['/', 'a', '/', 'b'] ∧
    normalizePath ['/', 'a', ' ', '/', 'b'] ['/'] = .ok ['/', 'a', ' ', '/', 'b'] ∧
    normalizePath ['?', '/', 'x'] ['/'] = .ok ['/', '?', '/', 'x'] ∧
    normalizePath ['/', '/', '?', '/', 'x'] ['/'] = .error .invalidArgument := by
  refine ⟨rfl, rfl, rfl, rfl, rfl, rfl⟩

end Protofire.Fs
