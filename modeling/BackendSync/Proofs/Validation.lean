import BackendSync.Config.Document

/-!
# What a valid configuration is

A configuration is checked in one order: the limits, the width of each pattern, and last the
form of the patterns, which only compiling the list can tell. So a fault of the first two
kinds is reported whatever form the patterns have, and a list that does not compile is
reported only for a configuration without such a fault.
-/

namespace BackendSync

/-! ## Lists of results -/

section Results

variable {α β ε : Type} {f : α → Except ε β} {xs : List α}

/-- What comes out of a list of successes came out of one of them. -/
theorem exists_of_mapM_eq_ok {ys : List β} (h : xs.mapM f = .ok ys) {y : β} (hy : y ∈ ys) :
    ∃ x ∈ xs, f x = .ok y := by
  induction xs generalizing ys with
  | nil =>
    cases h
    exact absurd hy List.not_mem_nil
  | cons x rest ih =>
    rw [List.mapM_cons] at h
    cases hfirst : f x with
    | error e =>
      rw [hfirst] at h
      cases h
    | ok first =>
      cases hrest : rest.mapM f with
      | error e =>
        rw [hfirst, hrest] at h
        cases h
      | ok others =>
        rw [hfirst, hrest] at h
        cases h
        rcases List.mem_cons.mp hy with rfl | hmem
        · exact ⟨x, List.mem_cons_self, hfirst⟩
        · obtain ⟨other, hother, heq⟩ := ih hrest hmem
          exact ⟨other, List.mem_cons_of_mem x hother, heq⟩

/-- A list of results fails as one of them does. -/
theorem exists_of_mapM_eq_error {e : ε} (h : xs.mapM f = .error e) : ∃ x ∈ xs, f x = .error e := by
  induction xs with
  | nil => cases h
  | cons x rest ih =>
    rw [List.mapM_cons] at h
    cases hfirst : f x with
    | error fault =>
      rw [hfirst] at h
      cases h
      exact ⟨x, List.mem_cons_self, hfirst⟩
    | ok first =>
      cases hrest : rest.mapM f with
      | error fault =>
        rw [hfirst, hrest] at h
        cases h
        obtain ⟨other, hother, heq⟩ := ih hrest
        exact ⟨other, List.mem_cons_of_mem x hother, heq⟩
      | ok others =>
        rw [hfirst, hrest] at h
        cases h

end Results

/-! ## Compiling an allow-list -/

namespace Allowlist

variable {patterns : List String} {list : Allowlist} {e : SyncError}

theorem readGlob_eq_ok_iff {pattern : String} {g : Glob} :
    readGlob pattern = .ok g ↔ Glob.ofPattern pattern = .ok g := by
  unfold readGlob
  cases Glob.ofPattern pattern with
  | error cause => exact iff_of_false nofun nofun
  | ok glob => exact ⟨fun h => by cases h; rfl, fun h => by cases h; rfl⟩

theorem invalidGlob_of_readGlob {pattern : String} (h : readGlob pattern = .error e) :
    ∃ cause, e = .invalidGlob pattern cause := by
  unfold readGlob at h
  cases hread : Glob.ofPattern pattern with
  | error cause =>
    rw [hread] at h
    cases h
    exact ⟨cause, rfl⟩
  | ok glob =>
    rw [hread] at h
    cases h

/-- The patterns are read first; whether all globs can be matched is asked afterwards. -/
theorem compile_eq_bind (patterns : List String) :
    compile patterns = (patterns.mapM readGlob).bind fun globs =>
      if globs.all Glob.isMatchable then .ok ⟨patterns, globs⟩
      else .error (.invalidGlob (String.intercalate ", " patterns) .nestedTooDeeply) := rfl

/-- A list compiles if each pattern can be read and each glob can be matched. -/
theorem compile_eq_ok_iff : compile patterns = .ok list ↔
    ∃ globs, patterns.mapM readGlob = .ok globs ∧ globs.all Glob.isMatchable = true ∧
      list = ⟨patterns, globs⟩ := by
  rw [compile_eq_bind]
  cases patterns.mapM readGlob with
  | error e => exact iff_of_false nofun fun ⟨_, h, _⟩ => nomatch h
  | ok globs =>
    rw [Except.bind]
    by_cases hall : globs.all Glob.isMatchable = true
    · rw [if_pos hall]
      exact ⟨fun h => ⟨globs, rfl, hall, (Except.ok.inj h).symm⟩,
        fun ⟨_, hglobs, _, hlist⟩ => by cases hglobs; rw [hlist]⟩
    · rw [if_neg hall]
      exact iff_of_false nofun fun ⟨_, hglobs, hmatchable, _⟩ => by
        cases hglobs
        exact hall hmatchable

/-- Each glob of a compiled list was read from one of the patterns. -/
theorem exists_pattern_of_compile (h : compile patterns = .ok list) {g : Glob}
    (hg : g ∈ list.globs) : ∃ pattern ∈ patterns, Glob.ofPattern pattern = .ok g := by
  obtain ⟨globs, hglobs, -, rfl⟩ := compile_eq_ok_iff.mp h
  obtain ⟨pattern, hpattern, hread⟩ := exists_of_mapM_eq_ok hglobs hg
  exact ⟨pattern, hpattern, readGlob_eq_ok_iff.mp hread⟩

/-- A list that does not compile has a pattern to blame, or is to blame as a whole. -/
theorem invalidGlob_of_compile (h : compile patterns = .error e) :
    ∃ pattern cause, e = .invalidGlob pattern cause := by
  rw [compile_eq_bind] at h
  cases hglobs : patterns.mapM readGlob with
  | error fault =>
    rw [hglobs] at h
    cases h
    obtain ⟨pattern, -, hread⟩ := exists_of_mapM_eq_error hglobs
    exact ⟨pattern, invalidGlob_of_readGlob hread⟩
  | ok globs =>
    rw [hglobs, Except.bind] at h
    split at h
    · cases h
    · cases h
      exact ⟨_, _, rfl⟩

end Allowlist

/-! ## Faults and validity -/

namespace Glob

/-- Are no two stars side by side? -/
def NoDoubleStar (cs : List Char) : Prop := ¬['*', '*'] <:+: cs

theorem NoDoubleStar.of_suffix {cs rest : List Char} (h : NoDoubleStar cs) (hrest : rest <:+ cs) :
    NoDoubleStar rest := fun hin => h (hin.trans hrest.isInfix)

end Glob

namespace Config

variable {c : Config} {pattern : String}

/-- A pattern that is refused for its width: `*` alone, or one with two stars side by side. -/
def IsWide (pattern : String) : Prop := pattern = "*" ∨ ['*', '*'] <:+: pattern.toList

theorem hasDoubleStar_iff {cs : List Char} : hasDoubleStar cs = true ↔ ['*', '*'] <:+: cs := by
  fun_induction hasDoubleStar cs with
  | case1 rest => exact iff_of_true rfl ⟨[], rest, rfl⟩
  | case2 c rest hne ih =>
    rw [ih, List.infix_cons_iff]
    refine (or_iff_right ?_).symm
    rintro ⟨tail, heq⟩
    obtain ⟨rfl, rfl⟩ := List.cons.inj heq
    exact hne tail rfl rfl
  | case3 => exact iff_of_false Bool.false_ne_true fun h => by cases List.infix_nil.mp h

theorem patternFault?_eq_none_iff : patternFault? pattern = none ↔ ¬IsWide pattern := by
  unfold patternFault? IsWide
  rw [← hasDoubleStar_iff]
  by_cases hstar : pattern = "*"
  · rw [if_pos hstar]
    exact iff_of_false nofun fun h => h (Or.inl hstar)
  · rw [if_neg hstar]
    by_cases hdouble : hasDoubleStar pattern.toList = true
    · rw [if_pos hdouble]
      exact iff_of_false nofun fun h => h (Or.inr hdouble)
    · rw [if_neg hdouble]
      exact iff_of_true rfl (not_or.mpr ⟨hstar, hdouble⟩)

/-- A configuration has no fault if its limits leave room and none of its patterns is wide. -/
theorem fault?_eq_none_iff : c.fault? = none ↔
    1 ≤ c.maximumOpenFiles ∧ 1 ≤ c.maximumMatches ∧
      ∀ pattern ∈ c.allowDefaultProject, ¬IsWide pattern := by
  unfold fault?
  by_cases hopen : c.maximumOpenFiles = 0
  · rw [if_pos hopen]
    exact iff_of_false nofun fun h => Nat.not_lt.mpr (Nat.le_of_eq hopen) h.1
  · rw [if_neg hopen]
    by_cases hmatches : c.maximumMatches = 0
    · rw [if_pos hmatches]
      exact iff_of_false nofun fun h => Nat.not_lt.mpr (Nat.le_of_eq hmatches) h.2.1
    · rw [if_neg hmatches, List.findSome?_eq_none_iff]
      simp only [patternFault?_eq_none_iff]
      exact ⟨fun h => ⟨Nat.pos_of_ne_zero hopen, Nat.pos_of_ne_zero hmatches, h⟩, fun h => h.2.2⟩

theorem validate_of_fault {fault : ConfigFault} (h : c.fault? = some fault) :
    c.validate = .error (.invalidConfig fault.reason) := by
  rw [validate, h]

theorem validate_of_no_fault (h : c.fault? = none) :
    c.validate = (Allowlist.compile c.allowDefaultProject).map fun _ => () := by
  rw [validate, h]

/-- A configuration is valid if it has no fault and its allow-list compiles. -/
theorem validate_eq_ok_iff : c.validate = .ok () ↔
    c.fault? = none ∧ ∃ list, Allowlist.compile c.allowDefaultProject = .ok list := by
  cases hfault : c.fault? with
  | some fault =>
    rw [validate_of_fault hfault]
    exact iff_of_false nofun fun h => nomatch h.1
  | none =>
    rw [validate_of_no_fault hfault]
    cases Allowlist.compile c.allowDefaultProject with
    | error e => exact iff_of_false nofun fun ⟨_, _, h⟩ => nomatch h
    | ok list => exact iff_of_true rfl ⟨rfl, list, rfl⟩

/-- A configuration that was read from a document is valid. -/
theorem validate_of_ofDocument {source : String} (h : ofDocument source = .ok c) :
    c.validate = .ok () := by
  unfold ofDocument at h
  split at h
  · cases h
  · rename_i config _
    cases hvalid : config.validate with
    | error e =>
      rw [hvalid] at h
      cases h
    | ok _ =>
      rw [hvalid] at h
      cases h
      exact hvalid

/-- Whatever is wrong with a configuration, it is not that a backend refuses something. -/
theorem validate_ne_defaultProject (path : Path) (message : String) :
    c.validate ≠ .error (.defaultProject path message) := by
  intro h
  cases hfault : c.fault? with
  | some fault =>
    rw [validate_of_fault hfault] at h
    cases h
  | none =>
    rw [validate_of_no_fault hfault] at h
    cases hcompile : Allowlist.compile c.allowDefaultProject with
    | error e =>
      rw [hcompile] at h
      cases h
      obtain ⟨_, _, hglob⟩ := Allowlist.invalidGlob_of_compile hcompile
      cases hglob
    | ok list =>
      rw [hcompile] at h
      cases h

/-- The order in which a configuration is checked. -/
structure ValidatedInOrder (c : Config) : Prop where
  /-- It is valid if its limits leave room, no pattern is wide and the list compiles. -/
  ok_iff : c.validate = .ok () ↔ 1 ≤ c.maximumOpenFiles ∧ 1 ≤ c.maximumMatches ∧
    (∀ pattern ∈ c.allowDefaultProject, pattern ≠ "*" ∧ ¬['*', '*'] <:+: pattern.toList) ∧
    ∃ list, Allowlist.compile c.allowDefaultProject = .ok list
  /-- A limit or a wide pattern is reported whatever form the patterns have. -/
  fault_first : (c.maximumOpenFiles = 0 ∨ c.maximumMatches = 0 ∨
      ∃ pattern ∈ c.allowDefaultProject, pattern = "*" ∨ ['*', '*'] <:+: pattern.toList) →
    ∃ fault, c.fault? = some fault ∧ c.validate = .error (.invalidConfig fault.reason)
  /-- The form of the patterns is reported only if there is nothing else. -/
  form_last : ∀ pattern cause, c.validate = .error (.invalidGlob pattern cause) ↔
    c.fault? = none ∧ Allowlist.compile c.allowDefaultProject = .error (.invalidGlob pattern cause)

theorem validatedInOrder (c : Config) : c.ValidatedInOrder := by
  refine ⟨?_, fun hfaulty => ?_, fun pattern cause => ?_⟩
  · rw [validate_eq_ok_iff, fault?_eq_none_iff, and_assoc, and_assoc]
    simp only [IsWide, not_or, ne_eq]
  · cases hfault : c.fault? with
    | some fault => exact ⟨fault, rfl, validate_of_fault hfault⟩
    | none =>
      obtain ⟨hopen, hmatches, hnarrow⟩ := fault?_eq_none_iff.mp hfault
      rcases hfaulty with hzero | hzero | ⟨pattern, hpattern, hwide⟩
      · omega
      · omega
      · exact absurd hwide (hnarrow pattern hpattern)
  · cases hfault : c.fault? with
    | some fault =>
      rw [validate_of_fault hfault]
      exact iff_of_false nofun fun h => nomatch h.1
    | none =>
      rw [validate_of_no_fault hfault]
      cases Allowlist.compile c.allowDefaultProject with
      | error e =>
        exact ⟨fun h => ⟨rfl, by cases h; rfl⟩, fun h => by cases h.2; rfl⟩
      | ok list => exact iff_of_false nofun fun h => nomatch h.2

end Config

end BackendSync
