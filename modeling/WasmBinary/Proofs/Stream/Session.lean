import WasmBinary.Proofs.Stream.Patched

/-!
What a stream in use has staged. Every overwrite belongs to a field that was filled, and the fields
stand apart from one another. Hence the order of the overwrites does not matter as long as no field
is filled twice.
-/

namespace WasmBinary

/-! ## Sessions

A stream is used in three ways: bytes are appended, size fields are reserved, and a field that was
reserved at any time is filled, also more than once and in any order.
-/

/-- One use of a stream. Its size fields are numbered in the order in which they are reserved. -/
inductive Step
  | append (bytes : List UInt8)
  | reserve
  | fill (number size : Nat) (frame : Frame)
  deriving DecidableEq, Repr

namespace Step

def bytes : Step → List UInt8
  | append bytes => bytes
  | reserve => Gap.blank
  | fill _ _ _ => []

/-- The number of the field that a step fills, if it fills one. -/
def filled : Step → List Nat
  | fill number _ _ => [number]
  | _ => []

/-- Whether each step fills a field that has been given out, when there are some already. -/
def Allowed : Nat → List Step → Prop
  | _, [] => True
  | count, append _ :: steps => Allowed count steps
  | count, reserve :: steps => Allowed (count + 1) steps
  | count, fill number _ _ :: steps => number < count ∧ Allowed count steps

end Step

/-- A stream and the size fields that it has given out. -/
structure Session where
  stream : Stream := {}
  gaps : List Gap := []
  deriving DecidableEq, Repr

namespace Session

/-- Takes a step: what the stream answers, and the session after it. A field that was not given out
is nothing that can be filled. -/
def attempt (session : Session) : Step → Except EncodingError Unit × Session
  | .append bytes => (.ok (), { session with stream := session.stream.putBytes bytes })
  | .reserve =>
      let (gap, stream) := session.stream.reserve
      (.ok (), { stream, gaps := session.gaps ++ [gap] })
  | .fill number size frame =>
      match session.gaps[number]? with
      | none => (.ok (), session)
      | some gap =>
          let (answer, stream) := session.stream.fill gap size frame
          (answer, { session with stream })

/-- The session after a step, also when the step is refused. -/
def next (session : Session) (step : Step) : Session :=
  (session.attempt step).2

/-- Takes some steps, whether they are refused or not. -/
def advance (session : Session) (steps : List Step) : Session :=
  steps.foldl next session

/-- Takes some steps up to the first one that is refused. -/
def run (session : Session) (steps : List Step) : Except EncodingError Session :=
  steps.foldlM (fun session step => accepted (session.attempt step)) session

/-! ### The points of a run -/

/-- What a session passes through within a step: a part of the bytes is appended, or a part of the
overwrites is staged. -/
inductive Passes (session : Session) : Step → Session → Prop
  | appending {step : Step} {front : List UInt8} (part : front <+: step.bytes) :
      Passes session step { session with stream := session.stream.putBytes front }
  | filling {number size : Nat} {frame : Frame} {gap : Gap} {front : List UInt8} {stream : Stream}
      (given : session.gaps[number]? = some gap) (fits : size ≤ Gap.capacity)
      (part : front <+: Gap.sizeBytes size)
      (staged : session.stream.patchBytes gap.position front = (.ok (), stream)) :
      Passes session (.fill number size frame) { session with stream }

/-- What a session passes through when it takes some steps up to the first one that is refused. -/
inductive Visits : Session → List Step → Session → Prop
  | here (session : Session) (steps : List Step) : Visits session steps session
  | within {session point : Session} {step : Step} {steps : List Step}
      (passes : session.Passes step point) : Visits session (step :: steps) point
  | onward {session next point : Session} {step : Step} {steps : List Step}
      (taken : session.attempt step = (.ok (), next)) (visits : Visits next steps point) :
      Visits session (step :: steps) point

end Session

/-! ## What has been staged -/

structure Fill where
  number : Nat
  gap : Gap
  size : Nat
  deriving DecidableEq, Repr

namespace Fill

def patches (fill : Fill) : List Patch :=
  Patch.consecutive fill.gap.position (Gap.sizeBytes fill.size)

theorem covers_of_mem_patches {fill : Fill} (fits : fill.size ≤ Gap.capacity) {patch : Patch}
    (member : patch ∈ fill.patches) : fill.gap.Covers patch.position := by
  have bounds := Patch.bounds_of_mem_consecutive member
  have short := Gap.length_sizeBytes_le fits
  exact ⟨bounds.1, by omega⟩

end Fill

namespace Step

theorem allowed_cons {count : Nat} {step : Step} {steps : List Step} :
    Allowed count (step :: steps) ↔
      (∀ number ∈ step.filled, number < count) ∧
        Allowed (count + [step].count .reserve) steps := by
  cases step with
  | append bytes => simp [Allowed, filled]
  | reserve => simp [Allowed, filled]
  | fill number size frame => simp [Allowed, filled]

theorem allowed_append {count : Nat} {earlier later : List Step} :
    Allowed count (earlier ++ later) ↔
      Allowed count earlier ∧ Allowed (count + earlier.count .reserve) later := by
  induction earlier generalizing count with
  | nil => simp [Allowed]
  | cons step earlier inductionHypothesis =>
      have total :
          (step :: earlier).count .reserve = [step].count .reserve + earlier.count .reserve :=
        @List.count_append _ _ .reserve [step] earlier
      rw [List.cons_append, allowed_cons, allowed_cons, inductionHypothesis, total,
        and_assoc, Nat.add_assoc]

end Step

namespace Session

variable {session after point : Session} {fills : List Fill} {step : Step} {steps : List Step}

/-! ### What a step does -/

theorem attempt_fill {number : Nat} {gap : Gap} (given : session.gaps[number]? = some gap)
    (size : Nat) (frame : Frame) :
    session.attempt (.fill number size frame) =
      ((session.stream.fill gap size frame).1,
        { session with stream := (session.stream.fill gap size frame).2 }) := by
  simp only [attempt, given]

theorem attempt_fill_of_length_le {number : Nat} (notGiven : session.gaps.length ≤ number)
    (size : Nat) (frame : Frame) :
    session.attempt (.fill number size frame) = (.ok (), session) := by
  simp only [attempt, List.getElem?_eq_none notGiven]

/-- A field is filled by staging the bytes of the size, and otherwise nothing changes. -/
theorem cases_of_attempt_fill_eq_ok {number size : Nat} {frame : Frame}
    (taken : session.attempt (.fill number size frame) = (.ok (), after)) :
    session.gaps.length ≤ number ∧ after = session ∨
      ∃ gap, session.gaps[number]? = some gap ∧ size ≤ Gap.capacity ∧
        after =
          { session with
            stream := session.stream.withPatches (Fill.patches ⟨number, gap, size⟩) } := by
  cases given : session.gaps[number]? with
  | none =>
      have notGiven := List.getElem?_eq_none_iff.mp given
      rw [attempt_fill_of_length_le notGiven] at taken
      cases taken
      exact Or.inl ⟨notGiven, rfl⟩
  | some gap =>
      rw [attempt_fill given, Prod.mk.injEq] at taken
      obtain ⟨answer, rfl⟩ := taken
      have filled :
          session.stream.fill gap size frame =
            (.ok (), (session.stream.fill gap size frame).2) :=
        Prod.ext answer rfl
      obtain ⟨fits, staged⟩ := Stream.eq_withPatches_of_fill_eq_ok filled
      refine Or.inr ⟨gap, rfl, fits, ?_⟩
      rw [staged]
      rfl

/-- A session only ever appends to its bytes and to its fields, also when a step is refused. -/
theorem grows_next (session : Session) (step : Step) :
    (session.next step).stream.bytes = session.stream.bytes ++ step.bytes ∧
      ∃ more, (session.next step).gaps = session.gaps ++ more ∧
        more.length = [step].count .reserve := by
  cases step with
  | append bytes => exact ⟨Stream.bytes_putBytes _ _, [], (List.append_nil _).symm, rfl⟩
  | reserve => exact ⟨Stream.bytes_putBytes _ _, _, rfl, rfl⟩
  | fill number size frame =>
      cases given : session.gaps[number]? with
      | none =>
          rw [next, attempt_fill_of_length_le (List.getElem?_eq_none_iff.mp given)]
          exact ⟨(List.append_nil _).symm, [], (List.append_nil _).symm, rfl⟩
      | some gap =>
          rw [next, attempt_fill given]
          refine ⟨?_, [], (List.append_nil _).symm, rfl⟩
          rw [Step.bytes, List.append_nil, Stream.bytes, Stream.buffer_fill]
          rfl

theorem advance_cons (session : Session) (step : Step) (steps : List Step) :
    session.advance (step :: steps) = (session.next step).advance steps := rfl

theorem advance_append (session : Session) (earlier later : List Step) :
    session.advance (earlier ++ later) = (session.advance earlier).advance later :=
  List.foldl_append

/-- Bytes are appended as the steps say, and a field is given out for each reservation. -/
theorem grows_advance (session : Session) (steps : List Step) :
    (session.advance steps).stream.bytes = session.stream.bytes ++ steps.flatMap Step.bytes ∧
      ∃ more, (session.advance steps).gaps = session.gaps ++ more ∧
        more.length = steps.count .reserve := by
  induction steps generalizing session with
  | nil => exact ⟨(List.append_nil _).symm, [], (List.append_nil _).symm, rfl⟩
  | cons step steps inductionHypothesis =>
      obtain ⟨bytes, more, gaps, count⟩ := grows_next session step
      obtain ⟨restBytes, rest, restGaps, restCount⟩ := inductionHypothesis (session.next step)
      refine ⟨?_, more ++ rest, ?_, ?_⟩
      · rw [advance_cons, restBytes, bytes, List.flatMap_cons, List.append_assoc]
      · rw [advance_cons, restGaps, gaps, List.append_assoc]
      · rw [List.length_append, count, restCount, ← List.count_append, List.singleton_append]

theorem run_cons (session : Session) (step : Step) (steps : List Step) :
    session.run (step :: steps) =
      accepted (session.attempt step) >>= fun after => after.run steps := by
  rw [run, List.foldlM_cons]
  rfl

theorem run_append (session : Session) (earlier later : List Step) :
    session.run (earlier ++ later) = session.run earlier >>= fun after => after.run later := by
  rw [run, List.foldlM_append]
  rfl

theorem exists_of_run_cons_eq_ok (finished : session.run (step :: steps) = .ok after) :
    ∃ middle, session.attempt step = (.ok (), middle) ∧ middle.run steps = .ok after := by
  rw [run_cons] at finished
  obtain ⟨middle, taken, rest⟩ := exists_of_bind_eq_ok finished
  exact ⟨middle, accepted_eq_ok_iff.mp taken, rest⟩

/-- A run in which no step is refused ends where its steps lead. -/
theorem advance_of_run_eq_ok (finished : session.run steps = .ok after) :
    session.advance steps = after := by
  induction steps generalizing session with
  | nil =>
      cases finished
      rfl
  | cons step steps inductionHypothesis =>
      obtain ⟨middle, taken, rest⟩ := exists_of_run_cons_eq_ok finished
      rw [advance_cons, next, taken]
      exact inductionHypothesis rest

/-! ### The log of a session -/

/-- The fields of a session stand one behind the other, and what is staged are the sizes that were
put into them. -/
structure Logged (session : Session) (fills : List Fill) : Prop where
  separate :
    session.gaps.Pairwise fun first second => first.position + Gap.width ≤ second.position
  written : ∀ gap ∈ session.gaps, gap.position + Gap.width ≤ session.stream.position
  given :
    ∀ fill ∈ fills, session.gaps[fill.number]? = some fill.gap ∧ fill.size ≤ Gap.capacity
  patches : session.stream.patches.toList = fills.flatMap Fill.patches

theorem logged_empty : Logged {} [] where
  separate := List.Pairwise.nil
  written := by
    intro gap member
    cases member
  given := by
    intro fill member
    cases member
  patches := rfl

namespace Logged

theorem putBytes (logged : session.Logged fills) (bytes : List UInt8) :
    Logged { session with stream := session.stream.putBytes bytes } fills where
  separate := logged.separate
  written := by
    intro gap member
    have earlier := logged.written gap member
    rw [Stream.position_eq_length_bytes] at earlier ⊢
    rw [Stream.bytes_putBytes, List.length_append]
    omega
  given := logged.given
  patches := logged.patches

theorem reserve (logged : session.Logged fills) :
    Logged
      { stream := session.stream.reserve.2, gaps := session.gaps ++ [session.stream.reserve.1] }
      fills where
  separate := by
    rw [List.pairwise_append]
    refine ⟨logged.separate, List.pairwise_singleton _ _, ?_⟩
    intro first firstMember second secondMember
    rw [List.mem_singleton.mp secondMember]
    exact logged.written first firstMember
  written := by
    intro gap member
    rcases List.mem_append.mp member with earlier | isNew
    · exact (logged.putBytes Gap.blank).written gap earlier
    · have position : session.stream.reserve.2.position = session.stream.position + Gap.width := by
        simp [Stream.reserve, Gap.blank, Gap.width]
      rw [List.mem_singleton.mp isNew, position]
      exact Nat.le_refl _
  given := by
    intro fill member
    obtain ⟨given, fits⟩ := logged.given fill member
    obtain ⟨inside, _⟩ := List.getElem?_eq_some_iff.mp given
    exact ⟨by rw [List.getElem?_append_left inside, given], fits⟩
  patches := logged.patches

theorem fill (logged : session.Logged fills) {number size : Nat} {gap : Gap}
    (given : session.gaps[number]? = some gap) (fits : size ≤ Gap.capacity) :
    Logged
      { session with stream := session.stream.withPatches (Fill.patches ⟨number, gap, size⟩) }
      (fills ++ [⟨number, gap, size⟩]) where
  separate := logged.separate
  written := logged.written
  given := by
    intro fill member
    rcases List.mem_append.mp member with earlier | isNew
    · exact logged.given fill earlier
    · rw [List.mem_singleton.mp isNew]
      exact ⟨given, fits⟩
  patches := by
    rw [List.flatMap_append, List.flatMap_singleton, ← logged.patches]
    simp [Stream.withPatches]

/-- A step that is accepted adds to the log the field that it fills, if that has been given out. -/
theorem attempt (logged : session.Logged fills) (taken : session.attempt step = (.ok (), after)) :
    ∃ more, after.Logged (fills ++ more) ∧
      more.map Fill.number = step.filled.filter (· < session.gaps.length) := by
  cases step with
  | append bytes =>
      cases taken
      refine ⟨[], ?_, rfl⟩
      rw [List.append_nil]
      exact logged.putBytes bytes
  | reserve =>
      cases taken
      refine ⟨[], ?_, rfl⟩
      rw [List.append_nil]
      exact logged.reserve
  | fill number size frame =>
      rcases cases_of_attempt_fill_eq_ok taken with ⟨notGiven, rfl⟩ | ⟨gap, given, fits, rfl⟩
      · refine ⟨[], ?_, ?_⟩
        · rw [List.append_nil]
          exact logged
        · simp [Step.filled, notGiven]
      · obtain ⟨inside, _⟩ := List.getElem?_eq_some_iff.mp given
        exact ⟨_, logged.fill given fits, by simp [Step.filled, inside]⟩

theorem attempt_fill_of_le (logged : session.Logged fills) {number size : Nat} {gap : Gap}
    (given : session.gaps[number]? = some gap) (fits : size ≤ Gap.capacity) (frame : Frame) :
    session.attempt (.fill number size frame) =
      (.ok (),
        { session with
          stream := session.stream.withPatches (Fill.patches ⟨number, gap, size⟩) }) := by
  have written := logged.written gap (List.mem_of_getElem? given)
  rw [Session.attempt_fill given, Stream.fill_eq_ok frame fits written]
  rfl

/-- Only a size that is too long is refused, and then nothing has changed: the fields that a session
has given out are written, so that none of the overwrites of a size is refused. -/
theorem eq_of_attempt_eq_error (logged : session.Logged fills) {error : EncodingError}
    (refused : session.attempt step = (.error error, after)) : after = session := by
  cases step with
  | append bytes => cases refused
  | reserve => cases refused
  | fill number size frame =>
      cases given : session.gaps[number]? with
      | none =>
          rw [attempt_fill_of_length_le (List.getElem?_eq_none_iff.mp given)] at refused
          cases refused
      | some gap =>
          by_cases fits : size ≤ Gap.capacity
          · rw [logged.attempt_fill_of_le given fits] at refused
            cases refused
          · rw [Session.attempt_fill given,
              Stream.fill_of_lt session.stream gap frame (Nat.not_le.mp fits)] at refused
            cases refused
            rfl

theorem next (logged : session.Logged fills) (step : Step) :
    ∃ more, (session.next step).Logged (fills ++ more) := by
  rw [Session.next]
  rcases outcome : session.attempt step with ⟨error | ⟨⟩, after⟩
  · rw [logged.eq_of_attempt_eq_error outcome]
    exact ⟨[], by rwa [List.append_nil]⟩
  · obtain ⟨more, loggedAfter, _⟩ := logged.attempt outcome
    exact ⟨more, loggedAfter⟩

theorem advance (logged : session.Logged fills) (steps : List Step) :
    ∃ more, (session.advance steps).Logged (fills ++ more) := by
  induction steps generalizing session fills with
  | nil => exact ⟨[], by rwa [List.append_nil]⟩
  | cons step steps inductionHypothesis =>
      obtain ⟨more, loggedAfter⟩ := logged.next step
      obtain ⟨rest, loggedRest⟩ := inductionHypothesis loggedAfter
      exact ⟨more ++ rest, by rwa [← List.append_assoc]⟩

/-! ### Consequences of a log -/

theorem exists_fill (logged : session.Logged fills) {patch : Patch}
    (member : patch ∈ session.stream.patches) :
    ∃ fill ∈ fills, session.gaps[fill.number]? = some fill.gap ∧
      fill.gap.Covers patch.position := by
  rw [← Array.mem_toList_iff, logged.patches, List.mem_flatMap] at member
  obtain ⟨fill, fillMember, patchMember⟩ := member
  obtain ⟨given, fits⟩ := logged.given fill fillMember
  exact ⟨fill, fillMember, given, Fill.covers_of_mem_patches fits patchMember⟩

theorem inBounds (logged : session.Logged fills) : session.stream.InBounds := by
  intro patch member
  obtain ⟨fill, _, given, _, upper⟩ := logged.exists_fill member
  exact Nat.lt_of_lt_of_le upper (logged.written fill.gap (List.mem_of_getElem? given))

/-- No two fields have a position in common. -/
theorem eq_of_covers (logged : session.Logged fills) {first second : Nat} {one other : Gap}
    (firstGiven : session.gaps[first]? = some one)
    (secondGiven : session.gaps[second]? = some other) {position : Nat}
    (oneCovers : one.Covers position) (otherCovers : other.Covers position) : first = second := by
  obtain ⟨firstInside, rfl⟩ := List.getElem?_eq_some_iff.mp firstGiven
  obtain ⟨secondInside, rfl⟩ := List.getElem?_eq_some_iff.mp secondGiven
  have apart := List.pairwise_iff_getElem.mp logged.separate
  obtain ⟨oneLower, oneUpper⟩ := oneCovers
  obtain ⟨otherLower, otherUpper⟩ := otherCovers
  rcases Nat.lt_trichotomy first second with before | same | behind
  · have order := apart first second firstInside secondInside before
    omega
  · exact same
  · have order := apart second first secondInside firstInside behind
    omega

/-- Bytes outside all fields are finished when they are appended. -/
theorem getElem?_patched (logged : session.Logged fills) {position : Nat}
    (outside : ∀ gap ∈ session.gaps, ¬ gap.Covers position) :
    session.stream.patched[position]? = session.stream.buffer[position]? := by
  have elsewhere :
      ∀ patch ∈ session.stream.patches.toList, patch.position ≠ position := by
    intro patch member same
    obtain ⟨fill, _, given, covers⟩ := logged.exists_fill (Array.mem_toList_iff.mp member)
    rw [same] at covers
    exact outside fill.gap (List.mem_of_getElem? given) covers
  have unchanged := Patch.getElem?_applyAll_of_ne elsewhere session.stream.bytes
  rw [← Stream.toList_patched] at unchanged
  simpa [Stream.bytes] using unchanged

end Logged

end Session

/-! ## Soundness at the points of a run

Main statement: when no field is filled twice, all points of the run are sound, so that at each of
them the order of the overwrites does not matter.
-/

namespace Session

/-- The staged overwrites are for different bytes, all of them written, each in exactly one of the
fields, and no two fields overlap. -/
structure Sound (session : Session) : Prop where
  distinct : (session.stream.patches.toList.map Patch.position).Nodup
  written : ∀ patch ∈ session.stream.patches, patch.position < session.stream.position
  covered :
    ∀ patch ∈ session.stream.patches, ∃! gap, gap ∈ session.gaps ∧ gap.Covers patch.position
  disjoint :
    session.gaps.Pairwise fun first second =>
      ∀ position, ¬ (first.Covers position ∧ second.Covers position)

variable {session after point : Session} {fills : List Fill} {step : Step} {steps : List Step}

/-- Where the staged overwrites are sound, they can be applied in any order. -/
theorem Sound.patched_eq_of_perm (sound : session.Sound) {patches : Array Patch}
    (reordered : patches.toList.Perm session.stream.patches.toList) :
    ({ session.stream with patches } : Stream).patched = session.stream.patched := by
  rw [← Array.toList_inj, Stream.toList_patched, Stream.toList_patched]
  exact Patch.applyAll_eq_of_perm reordered sound.distinct session.stream.bytes

/-- What is sound stays sound when the latest overwrites are left out. -/
theorem Sound.of_prefix (sound : after.Sound) (gaps : point.gaps = after.gaps)
    (buffer : point.stream.buffer = after.stream.buffer)
    (earlier : point.stream.patches.toList <+: after.stream.patches.toList) : point.Sound := by
  have staged : ∀ patch ∈ point.stream.patches, patch ∈ after.stream.patches := by
    intro patch member
    rw [← Array.mem_toList_iff] at member ⊢
    exact earlier.subset member
  refine ⟨?_, ?_, ?_, ?_⟩
  · exact sound.distinct.sublist (earlier.sublist.map Patch.position)
  · intro patch member
    rw [Stream.position, buffer]
    exact sound.written patch (staged patch member)
  · intro patch member
    rw [gaps]
    exact sound.covered patch (staged patch member)
  · rw [gaps]
    exact sound.disjoint

namespace Logged

/-- When no field is filled twice, no byte is overwritten twice. -/
theorem nodup_positions (logged : session.Logged fills)
    (once : (fills.map Fill.number).Nodup) :
    (session.stream.patches.toList.map Patch.position).Nodup := by
  rw [logged.patches, List.map_flatMap, List.nodup_flatMap]
  -- Within a field the positions count up, and two fields have none in common.
  constructor
  · intro fill member
    rw [Fill.patches, Patch.map_position_consecutive]
    exact List.nodup_range'
  · have different : fills.Pairwise fun first second => first.number ≠ second.number :=
      List.pairwise_map.mp once
    apply different.imp_of_mem
    intro first second firstMember secondMember different
    obtain ⟨firstGiven, firstFits⟩ := logged.given first firstMember
    obtain ⟨secondGiven, secondFits⟩ := logged.given second secondMember
    intro position inFirst inSecond
    obtain ⟨patch, patchMember, rfl⟩ := List.mem_map.mp inFirst
    obtain ⟨other, otherMember, same⟩ := List.mem_map.mp inSecond
    have firstCovers := Fill.covers_of_mem_patches firstFits patchMember
    have secondCovers := Fill.covers_of_mem_patches secondFits otherMember
    rw [same] at secondCovers
    exact different (logged.eq_of_covers firstGiven secondGiven firstCovers secondCovers)

theorem sound (logged : session.Logged fills) (once : (fills.map Fill.number).Nodup) :
    session.Sound where
  distinct := logged.nodup_positions once
  written := logged.inBounds
  covered := by
    intro patch member
    obtain ⟨fill, _, given, covers⟩ := logged.exists_fill member
    refine ⟨fill.gap, ⟨List.mem_of_getElem? given, covers⟩, ?_⟩
    rintro other ⟨otherMember, otherCovers⟩
    obtain ⟨number, otherGiven⟩ := List.mem_iff_getElem?.mp otherMember
    have same := logged.eq_of_covers otherGiven given otherCovers covers
    rw [same, given] at otherGiven
    exact (Option.some.inj otherGiven).symm
  disjoint := by
    apply logged.separate.imp
    rintro first second apart position ⟨⟨_, firstUpper⟩, ⟨secondLower, _⟩⟩
    omega

/-- A run that is not refused fills the fields that its steps name, in their order. -/
theorem run (logged : session.Logged fills) (allowed : Step.Allowed session.gaps.length steps)
    (finished : session.run steps = .ok after) :
    ∃ more, after.Logged (fills ++ more) ∧
      more.map Fill.number = steps.flatMap Step.filled := by
  induction steps generalizing session fills with
  | nil =>
      cases finished
      exact ⟨[], by rwa [List.append_nil], rfl⟩
  | cons step steps inductionHypothesis =>
      rw [Step.allowed_cons] at allowed
      obtain ⟨isGiven, allowedRest⟩ := allowed
      obtain ⟨middle, taken, finishedRest⟩ := exists_of_run_cons_eq_ok finished
      obtain ⟨more, loggedMiddle, numbers⟩ := logged.attempt taken
      have moved : session.next step = middle := congrArg Prod.snd taken
      obtain ⟨_, new, gaps, count⟩ := grows_next session step
      rw [moved] at gaps
      have allFilled : step.filled.filter (· < session.gaps.length) = step.filled := by
        rw [List.filter_eq_self]
        intro number member
        exact decide_eq_true (isGiven number member)
      rw [← count, ← List.length_append, ← gaps] at allowedRest
      obtain ⟨rest, loggedAfter, restNumbers⟩ :=
        inductionHypothesis loggedMiddle allowedRest finishedRest
      refine ⟨more ++ rest, ?_, ?_⟩
      · rwa [← List.append_assoc]
      · rw [List.map_append, numbers, allFilled, restNumbers, List.flatMap_cons]

/-- When every number is filled once, every field is. -/
theorem perm_gaps (logged : session.Logged fills)
    (each : (fills.map Fill.number).Perm (List.range' 0 session.gaps.length)) :
    (fills.map Fill.gap).Perm session.gaps := by
  let gapAt (number : Nat) : Gap := session.gaps[number]?.getD ⟨0⟩
  have filled : (fills.map Fill.number).map gapAt = fills.map Fill.gap := by
    rw [List.map_map]
    apply List.map_congr_left
    intro fill member
    change session.gaps[fill.number]?.getD ⟨0⟩ = fill.gap
    rw [(logged.given fill member).1, Option.getD_some]
  have all : (List.range' 0 session.gaps.length).map gapAt = session.gaps := by
    apply List.ext_getElem
    · rw [List.length_map, List.length_range']
    · intro number _ inside
      simp [gapAt, inside]
  have reordered := each.map gapAt
  rwa [filled, all] at reordered

end Logged

/-! ### From step to step -/

theorem visits_of_run_eq_ok (finished : session.run steps = .ok after) :
    Visits session steps after := by
  induction steps generalizing session with
  | nil =>
      cases finished
      exact Visits.here _ _
  | cons step steps inductionHypothesis =>
      obtain ⟨middle, taken, rest⟩ := exists_of_run_cons_eq_ok finished
      exact Visits.onward taken (inductionHypothesis rest)

theorem Passes.sound (passes : session.Passes step point) (logged : session.Logged fills)
    (once : (fills.map Fill.number ++ step.filled).Nodup) : point.Sound := by
  cases passes with
  | appending part => exact (logged.putBytes _).sound (List.nodup_append.mp once).1
  | @filling number size frame gap front stream given fits part staged =>
      let fill : Fill := ⟨number, gap, size⟩
      have complete := logged.fill given fits
      have numbers :
          (fills ++ [fill]).map Fill.number =
            fills.map Fill.number ++ (Step.fill number size frame).filled :=
        List.map_append
      rw [← numbers] at once
      -- What is staged so far is the front of what is staged for the complete size.
      obtain rfl := Stream.eq_withPatches_of_patchBytes_eq_ok staged
      obtain ⟨back, whole⟩ := part
      refine Sound.of_prefix (complete.sound once) rfl rfl ?_
      simp only [Stream.withPatches, Fill.patches, ← whole, Patch.consecutive_append,
        Array.toList_append]
      exact (List.prefix_append_right_inj _).mpr (List.prefix_append _ _)

/-- When no field is filled twice, the staged overwrites are sound at every point of a run. -/
theorem Visits.sound (visits : Visits session steps point) (logged : session.Logged fills)
    (once : (fills.map Fill.number ++ steps.flatMap Step.filled).Nodup) : point.Sound := by
  induction visits generalizing fills with
  | here session steps => exact logged.sound (List.nodup_append.mp once).1
  | within passes =>
      rw [List.flatMap_cons, ← List.append_assoc] at once
      exact passes.sound logged (List.nodup_append.mp once).1
  | @onward _ _ _ step _ taken _ inductionHypothesis =>
      obtain ⟨more, loggedAfter, numbers⟩ := logged.attempt taken
      apply inductionHypothesis loggedAfter
      rw [List.flatMap_cons, ← List.append_assoc] at once
      have fewer : (more.map Fill.number).Sublist step.filled := by
        rw [numbers]
        exact List.filter_sublist
      rw [List.map_append]
      exact once.sublist ((fewer.append_left _).append_right _)

end Session

end WasmBinary
