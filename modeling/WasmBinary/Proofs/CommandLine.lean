import WasmBinary.CommandLine
import WasmBinary.Proofs.Encoding

/-!
What the command line understands, and what it leaves behind. Main statements: an option is given
once and is never overruled by later arguments; a file that is written is found again under its
path, and no path leads elsewhere because of it; and a run either succeeds, with the bytes of the
demonstration module in the named file, or prints nothing and leaves the files as they were.
-/

namespace WasmBinary

namespace FileTree

variable {tree after : FileTree} {place other : Place} {path : String} {bytes : Array UInt8}

/-! ## Entries -/

theorem lookup_filter_of_ne (different : other ≠ place) (entries : List (Place × Entry)) :
    (entries.filter (·.1 != place)).lookup other = entries.lookup other := by
  induction entries with
  | nil => rfl
  | cons entry entries inductionHypothesis =>
      by_cases isPlace : entry.1 = place
      · have notOther : (other == entry.1) = false := by simp [isPlace, different]
        rw [List.filter_cons_of_neg (by simp [isPlace]), inductionHypothesis, List.lookup_cons,
          notOther]
      · rw [List.filter_cons_of_pos (by simp [isPlace]), List.lookup_cons, List.lookup_cons,
          inductionHypothesis]

theorem lookup_filter_self (entries : List (Place × Entry)) :
    (entries.filter (·.1 != place)).lookup place = none := by
  rw [List.lookup_eq_none_iff]
  intro entry member
  have different := bne_iff_ne.mp (List.mem_filter.mp member).2
  exact bne_iff_ne.mpr (Ne.symm different)

theorem entry?_set_self (tree : FileTree) (place : Place) (entry : Entry) :
    entry? (tree.set place entry) place = some entry := by
  rw [set, entry?, List.lookup_append, lookup_filter_self]
  simp

theorem entry?_set_of_ne (tree : FileTree) (different : other ≠ place) (entry : Entry) :
    entry? (tree.set place entry) other = tree.entry? other := by
  have notOther : (other == place) = false := beq_eq_false_iff_ne.mpr different
  rw [set, entry?, List.lookup_append, lookup_filter_of_ne different, List.lookup_cons, notOther]
  exact Option.or_none

/-- A later entry for a place leaves nothing of an earlier one. -/
theorem set_set (tree : FileTree) (place : Place) (first second : Entry) :
    (tree.set place first).set place second = tree.set place second := by
  simp [set, List.filter_filter]

/-! ## Writing -/

/-- What becomes of bytes that are written to a place: they are a file's content, in the place of
what it held, or a device takes them. -/
inductive Written (tree : FileTree) (place : Place) (bytes : Array UInt8) : FileTree → Prop
  | stored (isFree : (∃ old, tree.entry? place = some (.file old)) ∨
      tree.entry? place = none ∧ tree.isGrowing place.dropLast = true) :
      Written tree place bytes (tree.set place (.file bytes))
  | dropped (isDevice : tree.entry? place = some (.device .discard)) :
      Written tree place bytes tree
  | shown (isDevice : tree.entry? place = some (.device .standardOutput)) :
      Written tree place bytes { tree with printed := tree.printed ++ bytes }

/-- A write succeeds in the three ways that `Written` lists and in no other. -/
theorem write?_eq_some_iff :
    tree.write? path bytes = some after ↔
      ∃ place, tree.place? path = some place ∧ tree.Written place bytes after := by
  constructor
  · intro written
    simp only [write?, Option.bind_eq_bind, Option.bind_eq_some_iff] at written
    obtain ⟨place, reached, written⟩ := written
    refine ⟨place, reached, ?_⟩
    split at written
    · next old found =>
        cases written
        exact Written.stored (Or.inl ⟨old, found⟩)
    · next found =>
        cases written
        exact Written.dropped found
    · next found =>
        cases written
        exact Written.shown found
    · cases written
    · cases written
    · cases written
    · cases written
    · next found =>
        split at written
        · next growing =>
            cases written
            exact Written.stored (Or.inr ⟨found, growing⟩)
        · cases written
  · intro written
    rcases written with ⟨place, reached, isFree | found | found⟩
    · rcases isFree with ⟨old, found⟩ | ⟨found, growing⟩
      · simp [write?, reached, found]
      · simp [write?, reached, found, growing]
    · simp [write?, reached, found]
    · simp [write?, reached, found]

/-- Whether a file can be written does not depend on its content. -/
theorem isSome_write?_eq (tree : FileTree) (path : String) (bytes others : Array UInt8) :
    (tree.write? path bytes).isSome = (tree.write? path others).isSome := by
  simp only [write?, Option.bind_eq_bind]
  cases tree.place? path with
  | none => rfl
  | some place =>
      simp only [Option.bind_some]
      split <;> first | rfl | (split <;> rfl)

/-! ## What a write leaves alone -/

namespace Written

/-- At most one entry changes, and then it is a file's that was a file's before or did not exist. -/
theorem entry?_eq (written : tree.Written place bytes after) (other : Place) :
    after.entry? other = tree.entry? other ∨
      after.entry? other = some (.file bytes) ∧ other = place ∧
        ((∃ old, tree.entry? other = some (.file old)) ∨ tree.entry? other = none) := by
  cases written with
  | stored isFree =>
      by_cases same : other = place
      · rw [same]
        exact Or.inr ⟨entry?_set_self tree place _, rfl, isFree.imp_right And.left⟩
      · exact Or.inl (entry?_set_of_ne tree same _)
  | dropped isDevice => exact Or.inl rfl
  | shown isDevice => exact Or.inl rfl

theorem entry?_of_ne (written : tree.Written place bytes after) (different : other ≠ place) :
    after.entry? other = tree.entry? other := by
  rcases written.entry?_eq other with same | ⟨_, isPlace, _⟩
  · exact same
  · exact absurd isPlace different

theorem isDirectory_eq (written : tree.Written place bytes after) (other : Place) :
    after.isDirectory other = tree.isDirectory other := by
  rcases written.entry?_eq other with same | ⟨isFile, _, ⟨old, wasFile⟩ | wasNothing⟩
  · rw [isDirectory, isDirectory, same]
  · rw [isDirectory, isDirectory, isFile, wasFile]
  · rw [isDirectory, isDirectory, isFile, wasNothing]

theorem linked?_eq (written : tree.Written place bytes after) (directory : Place)
    (name : String) : after.linked? directory name = tree.linked? directory name := by
  rcases written.entry?_eq (directory ++ [name]) with
    same | ⟨isFile, _, ⟨old, wasFile⟩ | wasNothing⟩
  · rw [linked?, linked?, same]
  · rw [linked?, linked?, isFile, wasFile]
  · rw [linked?, linked?, isFile, wasNothing]

/-- Every way leads where it led before, since only links and directories decide about it. -/
theorem follow_eq (written : tree.Written place bytes after) (links : Nat) (start : Place)
    (names : List String) : after.follow links start names = tree.follow links start names := by
  fun_induction tree.follow links start names with
  | case1 links start => rw [follow]
  | case2 links start name rest noDirectory =>
      rw [follow, written.isDirectory_eq, if_pos noDirectory]
  | case3 links start name rest isDirectory stays inductionHypothesis =>
      rw [follow, written.isDirectory_eq, if_neg isDirectory, if_pos stays, inductionHypothesis]
  | case4 links start rest isDirectory moves inductionHypothesis =>
      rw [follow, written.isDirectory_eq, if_neg isDirectory, if_neg moves, if_pos rfl,
        inductionHypothesis]
  | case5 links start name rest isDirectory moves descends tooLong =>
      rw [follow, written.isDirectory_eq, if_neg isDirectory, if_neg moves, if_neg descends,
        if_pos tooLong]
  | case6 start name rest isDirectory moves descends short target names isLink =>
      rw [follow, written.isDirectory_eq, if_neg isDirectory, if_neg moves, if_neg descends,
        if_neg short, written.linked?_eq, isLink]
  | case7 start name rest isDirectory moves descends short target names isLink fewer
      inductionHypothesis =>
      rw [follow, written.isDirectory_eq, if_neg isDirectory, if_neg moves, if_neg descends,
        if_neg short, written.linked?_eq, isLink]
      exact inductionHypothesis
  | case8 links start name rest isDirectory moves descends short noLink inductionHypothesis =>
      rw [follow, written.isDirectory_eq, if_neg isDirectory, if_neg moves, if_neg descends,
        if_neg short, written.linked?_eq, noLink]
      exact inductionHypothesis

/-- All paths lead to where they led before. -/
theorem place?_eq (written : tree.Written place bytes after) (path : String) :
    after.place? path = tree.place? path := by
  have current : after.current = tree.current := by
    cases written <;> rfl
  rw [place?, place?, current, written.follow_eq]

end Written

theorem place?_of_write? (written : tree.write? path bytes = some after) (other : String) :
    after.place? other = tree.place? other := by
  obtain ⟨place, _, atPlace⟩ := write?_eq_some_iff.mp written
  exact atPlace.place?_eq other

/-! ## What is read after a write -/

/-- The content of the file that a path leads to. -/
def contents? (tree : FileTree) (path : String) : Option (Array UInt8) := do
  let place ← tree.place? path
  match tree.entry? place with
  | some (.file bytes) => some bytes
  | _ => none

/-- Whether a path leads to a device, which keeps nothing. -/
def LeadsToDevice (tree : FileTree) (path : String) : Prop :=
  ∃ place kind, tree.place? path = some place ∧ tree.entry? place = some (.device kind)

/-- What a write does when a file takes the bytes. -/
theorem eq_set_of_write? (keeps : ¬ tree.LeadsToDevice path)
    (written : tree.write? path bytes = some after) :
    ∃ place, tree.place? path = some place ∧ after = tree.set place (.file bytes) ∧
      ∀ others, tree.Written place others (tree.set place (.file others)) := by
  rcases write?_eq_some_iff.mp written with ⟨place, reached, isFree | isDevice | isDevice⟩
  · exact ⟨place, reached, rfl, fun _ => Written.stored isFree⟩
  · exact absurd ⟨place, _, reached, isDevice⟩ keeps
  · exact absurd ⟨place, _, reached, isDevice⟩ keeps

/-- A file is found again under the path under which it was written. -/
theorem contents?_of_write? (keeps : ¬ tree.LeadsToDevice path)
    (written : tree.write? path bytes = some after) : after.contents? path = some bytes := by
  obtain ⟨place, reached, rfl, _⟩ := eq_set_of_write? keeps written
  rw [contents?, place?_of_write? written, reached]
  change (match entry? (tree.set place (.file bytes)) place with
    | some (.file bytes) => some bytes
    | _ => none) = some bytes
  rw [entry?_set_self]

/-- All other files are as they were. -/
theorem contents?_of_write?_of_ne (written : tree.write? path bytes = some after) {other : String}
    (elsewhere : tree.place? other ≠ tree.place? path) :
    after.contents? other = tree.contents? other := by
  obtain ⟨place, reached, atPlace⟩ := write?_eq_some_iff.mp written
  rw [contents?, contents?, atPlace.place?_eq]
  cases otherReached : tree.place? other with
  | none => rfl
  | some otherPlace =>
      have different : otherPlace ≠ place := by
        intro same
        rw [same] at otherReached
        exact elsewhere (otherReached.trans reached.symm)
      simp only [Option.bind_eq_bind, Option.bind_some, atPlace.entry?_of_ne different]

/-- A second write to a path does what it had done without the first. -/
theorem write?_of_write? (keeps : ¬ tree.LeadsToDevice path)
    (written : tree.write? path bytes = some after) (later : Array UInt8) :
    after.write? path later = tree.write? path later := by
  obtain ⟨place, reached, rfl, anyBytes⟩ := eq_set_of_write? keeps written
  have direct : tree.write? path later = some (tree.set place (.file later)) :=
    write?_eq_some_iff.mpr ⟨place, reached, anyBytes later⟩
  rw [direct, write?_eq_some_iff]
  refine ⟨place, (place?_of_write? written path).trans reached, ?_⟩
  rw [← set_set tree place (.file bytes) (.file later)]
  exact Written.stored (Or.inl ⟨bytes, entry?_set_self tree place _⟩)

end FileTree

namespace CommandLine

/-! ## What the arguments say -/

/-- What one has been given so far still holds later on, and no output is named by an empty text. -/
structure Given.KeptIn (given later : Given) : Prop where
  output : ∀ value, given.output = some value → later.output = some value
  layout : given.layout = true → later.layout = true
  named : given.output ≠ some "" → later.output ≠ some ""

namespace Given

variable {given middle later : Given}

theorem KeptIn.refl (given : Given) : given.KeptIn given where
  output := fun _ same => same
  layout := id
  named := id

theorem KeptIn.trans (first : given.KeptIn middle) (second : middle.KeptIn later) :
    given.KeptIn later where
  output := fun value isGiven => second.output value (first.output value isGiven)
  layout := fun isGiven => second.layout (first.layout isGiven)
  named := fun isNamed => second.named (first.named isNamed)

/-- The output is named once at most. -/
theorem keptIn_of_setOutput {value : String} (accepted : given.setOutput value = .ok later) :
    given.KeptIn later := by
  rw [setOutput] at accepted
  split at accepted
  · cases accepted
  · next notEmpty =>
      split at accepted
      · cases accepted
      · next notGiven =>
          cases accepted
          have none : given.output = none := by simpa using notGiven
          refine ⟨?_, id, ?_⟩
          · intro earlier isGiven
            rw [none] at isGiven
            cases isGiven
          · intro _ isEmpty
            rw [Option.some.injEq] at isEmpty
            exact notEmpty (String.isEmpty_iff.mpr isEmpty)

theorem keptIn_of_setLayout (accepted : given.setLayout = .ok later) : given.KeptIn later := by
  rw [setLayout] at accepted
  split at accepted
  · cases accepted
  · cases accepted
    exact ⟨fun _ same => same, fun _ => rfl, id⟩

end Given

/-- Whether a step leaves standing what has been given. -/
def Step.Keeps (given : Given) : Step → Prop
  | proceed later | awaitOutput later | endOptions later => given.KeptIn later
  | finish request => ∀ options, request ≠ .encode options

variable {given : Given} {step : Step}

theorem Step.Keeps.trans {middle : Given} (first : given.KeptIn middle)
    (second : step.Keeps middle) : step.Keeps given := by
  cases step with
  | proceed later => exact first.trans second
  | awaitOutput later => exact first.trans second
  | endOptions later => exact first.trans second
  | finish request => exact second

/-- A value that is accepted for the output does not overrule an earlier one. -/
theorem keeps_of_setOutput {value : String}
    (isOk : (do return Step.proceed (← given.setOutput value)) = Except.ok step) :
    step.Keeps given := by
  obtain ⟨later, accepted, same⟩ := exists_of_bind_eq_ok isOk
  cases same
  exact Given.keptIn_of_setOutput accepted

theorem keeps_readShort {letters : List Char} (isOk : readShort given letters = .ok step) :
    step.Keeps given := by
  fun_induction readShort given letters with
  | case1 given =>
      cases isOk
      exact Given.KeptIn.refl given
  | case2 given rest inductionHypothesis =>
      obtain ⟨middle, accepted, isOk⟩ := exists_of_bind_eq_ok isOk
      exact (inductionHypothesis middle isOk).trans (Given.keptIn_of_setLayout accepted)
  | case3 given rest =>
      cases isOk
      exact fun _ => nofun
  | case4 given rest =>
      cases isOk
      exact fun _ => nofun
  | case5 given =>
      cases isOk
      exact Given.KeptIn.refl given
  | case6 given value => exact keeps_of_setOutput isOk
  | case7 given value => exact keeps_of_setOutput isOk
  | case8 given letter => cases isOk

theorem keeps_readLong {name : String} {value : Option String}
    (isOk : readLong given name value = .ok step) : step.Keeps given := by
  unfold readLong at isOk
  split at isOk
  · cases isOk
    exact Given.KeptIn.refl given
  · exact keeps_of_setOutput isOk
  · obtain ⟨later, accepted, same⟩ := exists_of_bind_eq_ok isOk
    cases same
    exact Given.keptIn_of_setLayout accepted
  · cases isOk
    exact fun _ => nofun
  · cases isOk
    exact fun _ => nofun
  all_goals cases isOk

theorem keeps_readArgument {argument : String} (isOk : readArgument given argument = .ok step) :
    step.Keeps given := by
  unfold readArgument at isOk
  split at isOk
  · cases isOk
    exact Given.KeptIn.refl given
  · exact keeps_readLong isOk
  · exact keeps_readShort isOk
  · cases isOk

/-- What is given at some point of the arguments is asked for at their end, and no output is named
by an empty text. -/
theorem keptIn_of_read {arguments : List String} {options : Options}
    (isOk : read given arguments = .ok (.encode options)) :
    ∃ later, given.KeptIn later ∧ later.options = options := by
  fun_induction read given arguments with
  | case1 given =>
      cases isOk
      exact ⟨given, Given.KeptIn.refl given, rfl⟩
  | case3 given argument rest middle proceeds inductionHypothesis =>
      obtain ⟨later, kept, same⟩ := inductionHypothesis isOk
      have first : given.KeptIn middle := keeps_readArgument proceeds
      exact ⟨later, first.trans kept, same⟩
  | case4 given argument rest request finishes =>
      cases isOk
      have noOptions : (Step.finish (.encode options)).Keeps given := keeps_readArgument finishes
      exact absurd rfl (noOptions options)
  | case5 given argument later ends =>
      cases isOk
      exact ⟨later, keeps_readArgument ends, rfl⟩
  | case10 given argument middle awaits value rest isValue named isSet inductionHypothesis =>
      obtain ⟨later, kept, same⟩ := inductionHypothesis isOk
      have first : given.KeptIn middle := keeps_readArgument awaits
      exact ⟨later, (first.trans (Given.keptIn_of_setOutput isSet)).trans kept, same⟩
  | _ => cases isOk

/-- What is written has a name: an empty one is refused wherever it is given. -/
theorem output_ne_empty_of_parse {arguments : List String} {options : Options}
    (isOk : parse arguments = .ok (.encode options)) : options.output ≠ "" := by
  obtain ⟨later, kept, rfl⟩ := keptIn_of_read isOk
  have named := kept.named nofun
  rw [Given.options]
  cases output : later.output with
  | none =>
      have isDefault : defaultOutput ≠ "" := by decide
      exact isDefault
  | some value =>
      intro isEmpty
      exact named (output.trans (congrArg some isEmpty))

/-- Whether an outcome stands whatever arguments follow. Further arguments can only add to options,
or supply a value that is still missing. -/
def Decided : Except UsageError Request → Prop
  | .ok (.encode _) | .error (.missingValue _) => False
  | _ => True

/-- The first argument that decides the outcome ends the reading. -/
theorem read_append_of_decided {arguments : List String} (decided : Decided (read given arguments))
    (rest : List String) : read given (arguments ++ rest) = read given arguments := by
  fun_induction read given arguments with
  | case2 given argument arguments error refused => simp only [List.cons_append, read, refused]
  | case3 given argument arguments middle proceeds inductionHypothesis =>
      simp only [List.cons_append, read, proceeds]
      exact inductionHypothesis decided
  | case4 given argument arguments request finishes =>
      simp only [List.cons_append, read, finishes]
  | case6 given argument middle ends extra arguments =>
      simp only [List.cons_append, read, ends]
  | case9 given argument middle awaits value arguments isValue error refused =>
      simp only [List.cons_append, read, awaits, if_neg isValue, refused]
  | case10 given argument middle awaits value arguments isValue named isSet inductionHypothesis =>
      simp only [List.cons_append, read, awaits, if_neg isValue, isSet]
      exact inductionHypothesis decided
  | _ => cases decided

/-- The arguments that ask for some options in their long forms. -/
def Options.arguments (options : Options) : List String :=
  ("--output=" ++ options.output) :: if options.layout then ["--layout"] else []

theorem readArgument_of_long {argument : String} {letter : Char} {letters : List Char}
    (isLong : argument.toList = '-' :: '-' :: letter :: letters) (given : Given) :
    readArgument given argument =
      readLong given (splitLong (letter :: letters)).1 (splitLong (letter :: letters)).2 := by
  rw [readArgument, isLong]
  rfl

theorem readArgument_output (given : Given) (value : String) :
    readArgument given ("--output=" ++ value) = (do return .proceed (← given.setOutput value)) := by
  have isLong :
      ("--output=" ++ value).toList =
        '-' :: '-' :: 'o' :: ("utput".toList ++ '=' :: value.toList) := by
    rw [String.toList_append]
    rfl
  have split :
      splitLong ('o' :: ("utput".toList ++ '=' :: value.toList)) = ("output", some value) := by
    simp [splitLong]
  rw [readArgument_of_long isLong, split]
  rfl

/-- Whoever names the output and maybe wants the layout can say so. -/
theorem parse_arguments (options : Options) (named : options.output ≠ "") :
    parse options.arguments = .ok (.encode options) := by
  have notEmpty : options.output.isEmpty = false := by simpa using named
  have isSet : Given.setOutput {} options.output = .ok { output := some options.output } := by
    simp [Given.setOutput, notEmpty]
  rcases options with ⟨output, _ | _⟩
  all_goals
    simp only [Options.arguments, parse, read, readArgument_output, isSet]
    rfl

/-! ## Runs -/

/-- The demonstration module can be encoded, so no run gives up for its sake. -/
theorem exists_encoding_sampleModule :
    ∃ encoding, sampleModule.encoding = .ok encoding ∧
      encoding.bytes.toList = sampleModule.bytes :=
  (Module.outcome_encoding sampleModule).exists_ok Module.frames_sampleModule_fit

/-- What a run can come to, by the arguments and the tree in which it is started. -/
inductive Ends (tree : FileTree) (arguments : List String) : Outcome → Prop
  | refused {error : UsageError} (isError : parse arguments = .error error) :
      Ends tree arguments ⟨exitUsage, #[], tree⟩
  | helped (isHelp : parse arguments = .ok .help) :
      Ends tree arguments ⟨exitSuccess, (utf8 helpText).toArray, tree⟩
  | identified (isVersion : parse arguments = .ok .version) :
      Ends tree arguments ⟨exitSuccess, (utf8 versionLine).toArray, tree⟩
  | failed {options : Options} (isEncode : parse arguments = .ok (.encode options))
      (notWritten : ∀ bytes, tree.write? options.output bytes = none) :
      Ends tree arguments ⟨exitFailure, #[], tree⟩
  | finished {options : Options} {encoding : Encoding} {after : FileTree}
      (isEncode : parse arguments = .ok (.encode options))
      (encoded : encoding.bytes.toList = sampleModule.bytes)
      (written : tree.write? options.output encoding.bytes = some after) :
      Ends tree arguments ⟨exitSuccess, after.printed ++ utf8 (report options encoding), after⟩

/-- These are all the ways in which a run ends. -/
theorem ends_run (tree : FileTree) (arguments : List String) :
    Ends tree arguments (run tree arguments) := by
  obtain ⟨encoding, isOk, encoded⟩ := exists_encoding_sampleModule
  rw [run, action]
  cases parsed : parse arguments with
  | error error => exact Ends.refused parsed
  | ok request =>
      cases request with
      | help => exact Ends.helped parsed
      | version => exact Ends.identified parsed
      | encode options =>
          simp only [isOk, Action.perform]
          cases written : tree.write? options.output encoding.bytes with
          | some after => exact Ends.finished parsed encoded written
          | none =>
              apply Ends.failed parsed
              intro bytes
              have same := tree.isSome_write?_eq options.output bytes encoding.bytes
              rw [written] at same
              exact Option.not_isSome_iff_eq_none.mp (Bool.eq_false_iff.mp same)

variable {tree : FileTree} {arguments : List String} {outcome : Outcome} {options : Options}

namespace Ends

/-- A run that does not succeed prints nothing and leaves all files as they were. -/
theorem unchanged_of_exitCode_ne (ends : Ends tree arguments outcome)
    (notDone : outcome.exitCode ≠ exitSuccess) : outcome.output = #[] ∧ outcome.tree = tree := by
  cases ends with
  | refused isError => exact ⟨rfl, rfl⟩
  | failed isEncode notWritten => exact ⟨rfl, rfl⟩
  | _ => exact absurd rfl notDone

/-- The exit code tells arguments that make no sense from everything else. -/
theorem exitCode_eq_exitUsage_iff (ends : Ends tree arguments outcome) :
    outcome.exitCode = exitUsage ↔ ∃ error, parse arguments = .error error := by
  cases ends with
  | refused isError => exact iff_of_true rfl ⟨_, isError⟩
  | helped parsed | identified parsed | failed parsed _ | finished parsed _ _ =>
      simp [parsed, exitSuccess, exitFailure, exitUsage]

/-- The exit code says whether the file that the arguments name can be written. -/
theorem exitCode_eq_exitFailure_iff (ends : Ends tree arguments outcome) :
    outcome.exitCode = exitFailure ↔
      ∃ options, parse arguments = .ok (.encode options) ∧
        ∀ bytes, tree.write? options.output bytes = none := by
  cases ends with
  | failed parsed notWritten => exact iff_of_true rfl ⟨_, parsed, notWritten⟩
  | @finished options encoding after parsed _ written =>
      have differ : exitSuccess ≠ exitFailure := by decide
      apply iff_of_false differ
      intro failed
      rcases failed with ⟨others, same, notWritten⟩
      rw [parsed, Except.ok.injEq, Request.encode.injEq] at same
      rw [same, notWritten] at written
      cases written
  | refused parsed | helped parsed | identified parsed =>
      simp [parsed, exitSuccess, exitFailure, exitUsage]

/-- When a run succeeds, the file that the arguments name holds the demonstration module, and no
other file has changed. -/
theorem contents?_eq (ends : Ends tree arguments outcome)
    (isEncode : parse arguments = .ok (.encode options))
    (keeps : ¬ tree.LeadsToDevice options.output) (done : outcome.exitCode = exitSuccess) :
    (outcome.tree.contents? options.output).map Array.toList = some sampleModule.bytes ∧
      ∀ other, tree.place? other ≠ tree.place? options.output →
        outcome.tree.contents? other = tree.contents? other := by
  cases ends with
  | refused parsed =>
      have differ : exitUsage ≠ exitSuccess := by decide
      exact absurd done differ
  | failed parsed notWritten =>
      have differ : exitFailure ≠ exitSuccess := by decide
      exact absurd done differ
  | helped parsed | identified parsed =>
      rw [isEncode] at parsed
      cases parsed
  | finished parsed encoded written =>
      rw [isEncode] at parsed
      cases parsed
      refine ⟨?_, fun other => FileTree.contents?_of_write?_of_ne written⟩
      rw [FileTree.contents?_of_write? keeps written]
      exact congrArg some encoded

end Ends

/-- A second run with the same arguments prints the same and changes nothing any more. -/
theorem run_run (isEncode : parse arguments = .ok (.encode options))
    (keeps : ¬ tree.LeadsToDevice options.output) :
    run (run tree arguments).tree arguments = run tree arguments := by
  obtain ⟨encoding, isOk, _⟩ := exists_encoding_sampleModule
  have isWrite :
      action arguments = .write options.output encoding.bytes (report options encoding) := by
    simp only [action, isEncode, isOk]
  rw [run, run, isWrite]
  cases written : tree.write? options.output encoding.bytes with
  | none => simp only [Action.perform, written]
  | some after =>
      have again := FileTree.write?_of_write? keeps written encoding.bytes
      simp only [Action.perform, written, again]

end CommandLine

end WasmBinary
