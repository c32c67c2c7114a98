import CfScript.Files.Snapshot
import CfScript.Fixture.Run
import CfScript.Proofs.FixtureText

/-!
# Running a fixture again

The first run of a source writes its fixture beside it, and the next run reads both. A file is
written where nothing else is, so the next run finds the source as it was and the fixture as it was
written. Whether it passes is then a matter of the text alone.

## Main results

* `Snapshot.read_write_self`, `Snapshot.read_write_other`: what is read after a file is written;
* `Fixture.run_first`, `Fixture.run_next`: a run that writes the fixture, and one that reads it;
* `Fixture.run_settles`: a source whose fixture has no marker in a section passes the next run;
* `Fixture.not_run_settles`: another source may fail it.
-/

namespace CfScript

/-! ## Files -/

namespace Snapshot

variable {s s' : Snapshot}

/-- Whether each folder around a place is one. -/
def Rooted (s : Snapshot) : Place → Prop
  | .outside => True
  | .inside names => ∀ front, front <+: names → front ≠ names → s.entry (.inside front) = .folder

theorem Rooted.parent {place : Place} (h : s.Rooted place) : s.Rooted place.parent := by
  match place with
  | .outside => trivial
  | .inside [] => trivial
  | .inside (name :: names) =>
    intro front hFront _
    refine h front (hFront.trans (List.dropLast_prefix _)) fun hSame => ?_
    have hLength := hFront.length_le
    rw [hSame, List.length_dropLast, List.length_cons] at hLength
    omega

theorem Rooted.child {place child : Place} {name : String} (h : s.Rooted place)
    (hFolder : s.entry place = .folder) (hChild : child? name place = some child) : s.Rooted child := by
  match place, hChild with
  | .inside names, rfl =>
    intro front hFront hOther
    rcases List.prefix_concat_iff.1 hFront with hSame | hFront
    · exact absurd hSame hOther
    · by_cases hHere : front = names
      · rwa [hHere]
      · exact h front hFront hHere

/-- A path leads through folders. -/
theorem Rooted.follow {place last : Place} {segments : List String} (h : s.Rooted place)
    (hFollow : s.follow place segments = .ok last) : s.Rooted last := by
  induction segments generalizing place with
  | nil => exact Except.ok.inj hFollow ▸ h
  | cons segment rest ih =>
    cases hEntry : s.entry place with
    | nothing => simp [Snapshot.follow, hEntry] at hFollow
    | file => simp [Snapshot.follow, hEntry] at hFollow
    | folder =>
      simp only [Snapshot.follow, hEntry] at hFollow
      split at hFollow
      · exact ih h hFollow
      split at hFollow
      · exact ih h.parent hFollow
      split at hFollow
      · cases hFollow
      split at hFollow
      · cases hFollow
      next hChild => exact ih (h.child hEntry hChild) hFollow

theorem Rooted.find {path : Path} {place : Place} (hFind : s.find path = .ok place) :
    s.Rooted place := by
  unfold Snapshot.find at hFind
  split at hFind
  · cases hFind
  split at hFind
  · cases hFind
  split at hFind
  · cases hFind
  refine Rooted.follow ?_ hFind
  split
  · trivial
  · exact fun front hFront hOther => absurd (List.prefix_nil.1 hFront) hOther

theorem any_keys_put (s : Snapshot) (names : List String) (text : String) (p : List String → Bool) :
    (s.put names text).keys.any p = (s.keys.any p || p names) := by
  obtain ⟨texts, folders⟩ := s
  simp only [keys, put, List.any_append]
  induction texts with
  | nil => simp [putIn, Bool.or_comm]
  | cons entry rest ih =>
    obtain ⟨key, old⟩ := entry
    by_cases h : key = names
    · subst h
      cases hKey : p key <;> simp [putIn, hKey]
    · simp only [putIn, h, if_false, List.map_cons, List.any_cons, Bool.or_assoc] at ih ⊢
      rw [ih]

/-- Putting a file into a folder changes what is at its place only. -/
theorem entry_put_of_ne {names : List String} {place : Place} (text : String)
    (hRooted : s.Rooted (.inside names)) (hOther : place ≠ .inside names) :
    (s.put names text).entry place = s.entry place := by
  match place with
  | .outside => rfl
  | .inside other =>
    have hNames : other ≠ names := fun hSame => hOther (congrArg _ hSame)
    have hText : (s.put names text).textAt other = s.textAt other := textAt_put_of_ne s text hNames
    simp only [entry, hText, any_keys_put]
    cases hPrefix : other.isPrefixOf names with
    | false => rw [Bool.or_false]
    | true =>
      have hFolder := hRooted other (List.isPrefixOf_iff_prefix.1 hPrefix) hNames
      simp only [entry] at hFolder
      rw [hFolder]
      split at hFolder <;> simp_all

theorem entry_put_self (s : Snapshot) (names : List String) (text : String) :
    (s.put names text).entry (.inside names) = .file text := by
  simp [entry, textAt_put_self]

/-- A path that leads somewhere leads there after a file has been put where no folder is. -/
theorem follow_put {names segments : List String} {place last : Place} (text : String)
    (hRooted : s.Rooted (.inside names)) (hNot : s.entry (.inside names) ≠ .folder)
    (h : s.follow place segments = .ok last) : (s.put names text).follow place segments = .ok last := by
  induction segments generalizing place with
  | nil => exact h
  | cons segment rest ih =>
    have hFolder : s.entry place = .folder := by
      cases hEntry : s.entry place <;> simp [follow, hEntry] at h ⊢
    have hSame : (s.put names text).entry place = s.entry place :=
      entry_put_of_ne text hRooted fun hPlace => hNot (hPlace ▸ hFolder)
    simp only [follow, hSame, hFolder] at h ⊢
    split at h
    next hIdle => rw [if_pos hIdle]; exact ih h
    next hIdle =>
      rw [if_neg hIdle]
      split at h
      next hUp => rw [if_pos hUp]; exact ih h
      next hUp =>
        rw [if_neg hUp]
        split at h
        · cases h
        next hShort =>
          rw [if_neg hShort]
          split at h
          · cases h
          · exact ih h

theorem find_put {names : List String} {path : Path} {place : Place} (text : String)
    (hRooted : s.Rooted (.inside names)) (hNot : s.entry (.inside names) ≠ .folder)
    (h : s.find path = .ok place) : (s.put names text).find path = .ok place := by
  unfold find at h ⊢
  split at h
  · cases h
  next hZero =>
    rw [if_neg hZero]
    split at h
    · cases h
    next hEmpty =>
      rw [if_neg hEmpty]
      split at h
      · cases h
      next hShort =>
        rw [if_neg hShort]
        exact follow_put text hRooted hNot h

/-- A file is written to a place where no folder is, and nothing else changes. -/
theorem write_eq_ok {path : Path} {text : String} (h : s.write path text = .ok s') :
    ∃ names, s.find path = .ok (.inside names) ∧ s.entry (.inside names) ≠ .folder ∧
      s' = s.put names text := by
  simp only [write] at h
  split at h
  · cases h
  · cases h
  next names hFind =>
    split at h
    · cases h
    next hNot => exact ⟨names, hFind, hNot, (Except.ok.inj h).symm⟩

/-- A file that has been written is read. -/
theorem read_write_self {path : Path} {text : String} (h : s.write path text = .ok s') :
    s'.read path = .ok text ∧ s'.isThere path = true := by
  obtain ⟨names, hFind, hNot, rfl⟩ := write_eq_ok h
  have hEntry : (s.put names text).entryAt path = .ok (.file text) := by
    rw [entryAt, find_put text (.find hFind) hNot hFind]
    exact congrArg Except.ok (entry_put_self s names text)
  simp [read, isThere, hEntry]

/-- A file is read as before when another one has been written where nothing was. -/
theorem read_write_other {path other : Path} {text kept : String} (h : s.write path text = .ok s')
    (hNew : s.isThere path = false) (hRead : s.read other = .ok kept) : s'.read other = .ok kept := by
  obtain ⟨names, hFind, hNot, rfl⟩ := write_eq_ok h
  simp only [read, entryAt] at hRead ⊢
  cases hPlace : s.find other with
  | error => simp [hPlace, Except.map] at hRead
  | ok place =>
    have hOther : place ≠ .inside names := by
      rintro rfl
      simp only [isThere, entryAt, hFind, Except.map] at hNew
      cases hEntry : s.entry (.inside names) <;> simp [hPlace, Except.map, hEntry] at hRead hNew
    rw [find_put text (.find hFind) hNot hPlace]
    simp only [hPlace, Except.map] at hRead ⊢
    rw [entry_put_of_ne text (.find hFind) hOther]
    exact hRead

end Snapshot

/-! ## Runs -/

namespace Fixture

variable {s s' : Snapshot} {path expected : Path} {source : String}

/-- What an action on files in memory gives, and the files afterwards. -/
def onFiles {α : Type} (x : ExceptT FixtureError (StateM Snapshot) α) (s : Snapshot) :
    Except FixtureError α × Snapshot := StateT.run x.run s

theorem onFiles_bind {α β : Type} {x : ExceptT FixtureError (StateM Snapshot) α}
    {f : α → ExceptT FixtureError (StateM Snapshot) β} {a : α} (h : onFiles x s = (.ok a, s')) :
    onFiles (x >>= f) s = onFiles (f a) s' := by
  simp only [onFiles] at h ⊢
  simp only [ExceptT.run_bind, StateT.run_bind]
  rw [h]
  rfl

theorem onFiles_readText (h : s.read path = .ok source) :
    onFiles (readText path) s = (.ok source, s) := by
  change (Except.mapError (FixtureError.read path) (s.read path), s) = _
  rw [h]
  rfl

theorem onFiles_load_nothing (h : s.isThere path = false) : onFiles (load path) s = (.ok {}, s) := by
  have hThere : onFiles (FileAccess.isThere path) s = (.ok (s.isThere path), s) := rfl
  rw [load, onFiles_bind hThere, h]
  rfl

theorem onFiles_load {fixture : Fixture} {text : String} (hThere : s.isThere path = true)
    (hRead : s.read path = .ok text) (hText : ofText text = .ok fixture) :
    onFiles (load path) s = (.ok fixture, s) := by
  have hIs : onFiles (FileAccess.isThere path) s = (.ok (s.isThere path), s) := rfl
  rw [load, onFiles_bind hIs, hThere, if_pos rfl, onFiles_bind (onFiles_readText hRead), hText]
  rfl

theorem onFiles_write {text : String} (h : s.write path text = .ok s') :
    onFiles (FileAccess.write path text) s = (.ok (.ok ()), s') := by
  have hWrite : (FileAccess.write path text : StateM Snapshot (Except FileError Unit)) s =
      (.ok (), s') := by
    simp only [FileAccess.write, bind, StateT.bind, get, getThe, MonadStateOf.get, StateT.get, pure, h]
    rfl
  have hLift : onFiles (FileAccess.write path text) s =
      (.ok ((FileAccess.write path text : StateM Snapshot (Except FileError Unit)) s).1,
        ((FileAccess.write path text : StateM Snapshot (Except FileError Unit)) s).2) := rfl
  rw [hLift, hWrite]

/-- The first run of a source without errors writes what the source gives. -/
theorem run_first (update : Bool) (hPath : expectedPath path = .ok expected)
    (hRead : s.read path = .ok source) (hThere : s.isThere expected = false)
    (hErrors : (Actual.ofSource source).errors = [])
    (hWrite : s.write expected (Actual.ofSource source).toFixture.toText = .ok s') :
    onFiles (run path update) s = (.ok ⟨path, expected, .written, true⟩, s') := by
  have hExpected : onFiles (MonadExcept.ofExcept (expectedPath path)) s = (.ok expected, s) := by
    rw [hPath]
    rfl
  rw [run, onFiles_bind hExpected, onFiles_bind (onFiles_readText hRead),
    onFiles_bind (onFiles_load_nothing hThere)]
  have hWritten : ((compared ({} : Fixture).tree?).isNone ||
      update && !(({} : Fixture).check source (Actual.ofSource source)).isEmpty) = true := rfl
  simp only [hWritten, if_true, FixtureOutcome.outcome_written_of_no_errors _ hErrors]
  exact onFiles_bind (onFiles_write hWrite)

/-- A run of a source whose fixture has a tree and is met reports that and writes nothing. -/
theorem run_next {fixture : Fixture} {text : String} (update : Bool)
    (hPath : expectedPath path = .ok expected) (hRead : s.read path = .ok source)
    (hThere : s.isThere expected = true) (hExpected : s.read expected = .ok text)
    (hText : ofText text = .ok fixture) (hTree : (compared fixture.tree?).isSome = true)
    (hCheck : fixture.check source (Actual.ofSource source) = []) :
    onFiles (run path update) s = (.ok ⟨path, expected, .passed, false⟩, s) := by
  have hBeside : onFiles (MonadExcept.ofExcept (expectedPath path)) s = (.ok expected, s) := by
    rw [hPath]
    rfl
  rw [run, onFiles_bind hBeside, onFiles_bind (onFiles_readText hRead),
    onFiles_bind (onFiles_load hThere hExpected hText)]
  have hWritten : ((compared fixture.tree?).isNone || update && !([] : List Failure).isEmpty) =
      false := by
    rw [← Option.not_isSome, hTree]
    cases update <;> rfl
  simp only [hCheck, hWritten]
  rfl

/-- The tree that is recorded of a source is not blank. -/
theorem tree_ofSource_not_blank (source : String) :
    Text.isBlankText (Actual.ofSource source).tree = false := by
  have hRoot := rule?_of_parse source {}
  change Text.isBlankText (parse source {}).tree.written = false
  cases hTree : (parse source {}).tree with
  | leaf => simp [hTree, Tree.rule?] at hRoot
  | node rule children =>
    have hOpen : Text.isBlank '(' = false := by decide
    simp [Tree.written, Text.isBlankText, hOpen]

/-- Whether the run of a source writes a fixture that the source passes, so that the next run
reports that and writes nothing. -/
def Settles (s : Snapshot) (path : Path) (source : String) : Prop :=
  ∃ expected text fixture s', ∀ update,
    onFiles (run path update) s = (.ok ⟨path, expected, .written, true⟩, s') ∧
      s'.read expected = .ok text ∧ ofText text = .ok fixture ∧
        fixture.check source (Actual.ofSource source) = [] ∧
          onFiles (run path false) s' = (.ok ⟨path, expected, .passed, false⟩, s')

/-- The fixture of a source without errors is passed if no section of it has the start of a marker
in it. -/
theorem run_settles (hPath : expectedPath path = .ok expected) (hRead : s.read path = .ok source)
    (hThere : s.isThere expected = false) (hErrors : (Actual.ofSource source).errors = [])
    (hWrite : s.write expected (Actual.ofSource source).toFixture.toText = .ok s')
    (hFree : Free (Actual.ofSource source).tokens (Actual.ofSource source).tree
      (Actual.ofSource source).toFixture.decompile?) :
    Settles s path source := by
  obtain ⟨fixture, hText, hTree, hCheck⟩ := check_ofText_toText source hErrors hFree
  obtain ⟨hReadBack, hIsThere⟩ := Snapshot.read_write_self hWrite
  have hKept := Snapshot.read_write_other hWrite hThere hRead
  have hCompared : (compared fixture.tree?).isSome = true := by
    have hBlank : Text.isBlankText (Text.trimBreaks (Actual.ofSource source).tree) = false :=
      (isBlankText_trimBreaks _).trans (tree_ofSource_not_blank source)
    have hFilled : (Text.trimBreaks (Actual.ofSource source).tree).isEmpty = false := by
      rw [← Bool.not_eq_true, String.isEmpty_iff]
      intro hEmpty
      rw [hEmpty] at hBlank
      cases hBlank
    simp [hTree, compared, filled, Option.filter, hFilled, hBlank]
  exact ⟨expected, _, fixture, s', fun update => ⟨run_first update hPath hRead hThere hErrors hWrite,
    hReadBack, hText, hCheck, run_next false hPath hKept hIsThere hReadBack hText hCompared hCheck⟩⟩

/-- A folder that holds a source and no fixture. -/
def alone (source : String) : Snapshot := { texts := [(["a.cfm"], source)] }

/-- The folder with a fixture beside the source. -/
def beside (source text : String) : Snapshot :=
  { texts := [(["a.cfm"], source), (["a.expected.txt"], text)] }

theorem write_alone (source text : String) :
    (alone source).write ⟨"a.expected.txt"⟩ text = .ok (beside source text) := by
  rfl

theorem run_settles_assignment :
    (alone "x = 1;").isThere ⟨"a.expected.txt"⟩ = false ∧
      (Actual.ofSource "x = 1;").errors = [] ∧ Settles (alone "x = 1;") ⟨"a.cfm"⟩ "x = 1;" := by
  have hActual : Actual.ofSource "x = 1;" =
      ⟨"IDENTIFIER:x\nEQUALSOP:=\nINTEGER_LITERAL:1\nSEMICOLON:;",
        "(scriptBlock (expressionStatement (assignmentExpression x = 1) ;) <EOF>)", "x = 1", []⟩ := by
    decide +kernel
  have hErrors : (Actual.ofSource "x = 1;").errors = [] := by rw [hActual]
  have hPath : expectedPath ⟨"a.cfm"⟩ = .ok ⟨"a.expected.txt"⟩ := rfl
  refine ⟨rfl, hErrors, run_settles hPath rfl rfl hErrors (write_alone _ _) ?_⟩
  rw [hActual]
  exact ⟨by decide, by decide, by decide⟩

/-- A comment that looks like a marker cuts off the tokens. -/
theorem not_run_settles :
    ¬ ∀ (s s' : Snapshot) (path expected : Path) (source : String),
      expectedPath path = .ok expected → s.read path = .ok source → s.isThere expected = false →
        (Actual.ofSource source).errors = [] →
          s.write expected (Actual.ofSource source).toFixture.toText = .ok s' →
            Settles s path source := by
  intro h
  have hActual : Actual.ofSource "/*===*/" =
      ⟨"ML_COMMENT:/*===*/", "(scriptBlock <EOF>)", "", []⟩ := by
    decide +kernel
  have hErrors : (Actual.ofSource "/*===*/").errors = [] := by rw [hActual]
  have hWrite := write_alone "/*===*/" (Actual.ofSource "/*===*/").toFixture.toText
  obtain ⟨expected, text, fixture, s', hRuns⟩ :=
    h (alone "/*===*/") _ ⟨"a.cfm"⟩ ⟨"a.expected.txt"⟩ "/*===*/" rfl rfl rfl hErrors hWrite
  obtain ⟨hFirst, hRead, hText, hCheck, -⟩ := hRuns false
  rw [run_first false rfl rfl rfl hErrors hWrite] at hFirst
  obtain ⟨hReport, rfl⟩ := Prod.mk.inj hFirst
  obtain rfl : (⟨"a.expected.txt"⟩ : Path) = expected := by
    injection Except.ok.inj hReport
  obtain rfl := Except.ok.inj ((Snapshot.read_write_self hWrite).1.symm.trans hRead)
  rw [hActual] at hText hCheck
  have hOther : ofText (Actual.toFixture ⟨"ML_COMMENT:/*===*/", "(scriptBlock <EOF>)", "", []⟩).toText =
      .ok ⟨some "ML_COMMENT:", some "(scriptBlock <EOF>)", none⟩ := by
    rfl
  obtain rfl := Except.ok.inj (hOther.symm.trans hText)
  exact absurd hCheck (by decide)

end Fixture

end CfScript
