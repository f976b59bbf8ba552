import Mathlib.Data.Finset.Card
import PathGlob.Pattern.Cache
import PathGlob.Proofs.Pattern.Refusal

/-!
# What a cache answers

A cache is used together with the supply of marks, which patterns compiled without the cache draw
on too. Whatever was asked before, a fetch answers what compiling answers; which earlier answers it
shares a handle with, and how many handles are kept, can be told from the requests alone. Two facts
about a session carry this: every entry is what its key spells, and a mark that is in no entry but
was given out stays out.
-/
namespace PathGlob

set_option autoImplicit false

namespace Cache

inductive Request where
  | fetch (text : Text) (mode : CaseMode)
  | clear
  | compile (text : Text) (mode : CaseMode)
  deriving DecidableEq, Repr

/-- What a fetch that succeeds asks for: a canonical text in a case mode. -/
def Request.key? (engine : Engine) : Request → Option (Text × CaseMode)
  | .fetch text mode =>
    match Pattern.compile engine text mode with
    | .ok pattern => some (pattern.text, mode)
    | .error _ => none
  | _ => none

def requested (engine : Engine) (history : List Request) : List (Text × CaseMode) :=
  (history.reverse.takeWhile (· ≠ .clear)).filterMap (Request.key? engine)

structure Session where
  cache : Cache := {}
  supply : Supply := {}
  deriving DecidableEq, Repr

namespace Session

def fetch (engine : Engine) (session : Session) (text : Text) (mode : CaseMode) :
    Except PatternError (Handle × Session) :=
  (session.cache.fetch engine text mode session.supply).map fun ((handle, cache), supply) =>
    (handle, { cache, supply })

def compile (engine : Engine) (session : Session) (text : Text) (mode : CaseMode) :
    Except PatternError (Handle × Session) :=
  (Handle.compile engine text mode session.supply).map fun (handle, supply) =>
    (handle, { session with supply })

def after (engine : Engine) (session : Session) : Request → Session
  | .fetch text mode =>
    match session.fetch engine text mode with
    | .ok (_, next) => next
    | .error _ => session
  | .clear => { session with cache := session.cache.clear }
  | .compile text mode =>
    match session.compile engine text mode with
    | .ok (_, next) => next
    | .error _ => session

def run (engine : Engine) (session : Session) (history : List Request) : Session :=
  history.foldl (after engine) session

def keep (session : Session) (key : Text × CaseMode) (pattern : Pattern) : Session :=
  ⟨session.cache.insert key ⟨session.supply.next, pattern⟩, ⟨session.supply.next + 1⟩⟩

variable {engine : Engine}

theorem compile_eq (session : Session) (text : Text) (mode : CaseMode) :
    session.compile engine text mode = (Pattern.compile engine text mode).map fun pattern =>
      (⟨session.supply.next, pattern⟩, { session with supply := ⟨session.supply.next + 1⟩ }) := by
  rw [compile, Handle.compile]
  cases Pattern.compile engine text mode <;> rfl

section

variable {session : Session} {text : Text} {mode : CaseMode} {pattern : Pattern}
    {error : PatternError}

theorem fetch_of_read (cache : Cache) (read : Pattern.compile .lenient text mode = .ok pattern) :
    cache.fetch engine text mode =
      match cache.find? (pattern.text, mode) with
      | some handle => pure (handle, cache)
      | none => (do
          let handle ← Handle.compile engine pattern.text mode
          pure (handle, cache.insert (pattern.text, mode) handle)) := by
  rw [Cache.fetch, Pattern.canonical_text_eq text mode, read]
  rfl

theorem fetch_of_flawed (flawed : Pattern.compile .lenient text mode = .error error) :
    session.fetch engine text mode = .error error := by
  rw [fetch, Cache.fetch, Pattern.canonical_text_eq text mode, flawed]
  rfl

theorem fetch_of_found {handle : Handle} (read : Pattern.compile .lenient text mode = .ok pattern)
    (found : session.cache.find? (pattern.text, mode) = some handle) :
    session.fetch engine text mode = .ok (handle, session) := by
  rw [fetch, fetch_of_read session.cache read, found]
  rfl

theorem fetch_of_refused (read : Pattern.compile .lenient text mode = .ok pattern)
    (missing : session.cache.find? (pattern.text, mode) = none)
    (refused : Pattern.compile engine pattern.text mode = .error error) :
    session.fetch engine text mode = .error error := by
  rw [fetch, fetch_of_read session.cache read, missing]
  dsimp only
  rw [Handle.compile, refused]
  rfl

theorem fetch_of_missing (compiled : Pattern.compile engine text mode = .ok pattern)
    (missing : session.cache.find? (pattern.text, mode) = none) :
    session.fetch engine text mode =
      .ok (⟨session.supply.next, pattern⟩, session.keep (pattern.text, mode) pattern) := by
  have read := (Pattern.compile_eq_ok_iff_lenient.mp compiled).1
  have again := (Pattern.compile_text_eq_ok_iff read pattern).mpr compiled
  rw [fetch, fetch_of_read session.cache read, missing]
  dsimp only
  rw [Handle.compile, again]
  rfl

/-- An answer is either the handle that is kept for the text or one made from it and kept. -/
theorem fetch_eq_ok {handle : Handle} {next : Session}
    (fetched : session.fetch engine text mode = .ok (handle, next)) :
    ∃ pattern, Pattern.compile .lenient text mode = .ok pattern ∧
      (session.cache.find? (pattern.text, mode) = some handle ∧ next = session ∨
        session.cache.find? (pattern.text, mode) = none ∧
          Pattern.compile engine text mode = .ok pattern ∧
          handle = ⟨session.supply.next, pattern⟩ ∧
          next = session.keep (pattern.text, mode) pattern) := by
  cases read : Pattern.compile .lenient text mode with
  | error flaw =>
      rw [fetch_of_flawed read] at fetched
      cases fetched
  | ok pattern =>
      refine ⟨pattern, rfl, ?_⟩
      cases found : session.cache.find? (pattern.text, mode) with
      | some held =>
          rw [fetch_of_found read found] at fetched
          cases fetched
          exact .inl ⟨rfl, rfl⟩
      | none =>
          cases again : Pattern.compile engine pattern.text mode with
          | error refusal =>
              rw [fetch_of_refused read found again] at fetched
              cases fetched
          | ok result =>
              have compiled := (Pattern.compile_text_eq_ok_iff read result).mp again
              obtain ⟨rfl, -⟩ := (Pattern.compile_eq_ok_iff_of_lenient read result).mp compiled
              rw [fetch_of_missing compiled found] at fetched
              cases fetched
              exact .inr ⟨rfl, compiled, rfl, rfl⟩

theorem after_fetch_of_error (failed : Pattern.compile engine text mode = .error error) :
    session.after engine (.fetch text mode) = session := by
  rw [after]
  cases fetched : session.fetch engine text mode with
  | error error => rfl
  | ok answer =>
      obtain ⟨pattern, -, ⟨-, stays⟩ | ⟨-, compiled, -⟩⟩ := fetch_eq_ok fetched
      · exact stays
      · rw [failed] at compiled
        cases compiled

inductive Outcome (engine : Engine) (session : Session) (request : Request) : Session → Prop where
  | unmoved (stays : request ≠ .clear) (unasked : request.key? engine = none) :
      Outcome engine session request session
  | found {key : Text × CaseMode} {handle : Handle} (stays : request ≠ .clear)
      (asked : request.key? engine = some key) (found : session.cache.find? key = some handle) :
      Outcome engine session request session
  | kept {key : Text × CaseMode} {pattern : Pattern} (stays : request ≠ .clear)
      (asked : request.key? engine = some key) (missing : session.cache.find? key = none)
      (spelled : Pattern.compile engine key.1 key.2 = .ok pattern) :
      Outcome engine session request (session.keep key pattern)
  | cleared (asked : request = .clear) : Outcome engine session request { session with cache := {} }
  | compiled (stays : request ≠ .clear) (unasked : request.key? engine = none) :
      Outcome engine session request { session with supply := ⟨session.supply.next + 1⟩ }

theorem after_outcome (session : Session) (request : Request) :
    Outcome engine session request (session.after engine request) := by
  cases request with
  | clear => exact .cleared rfl
  | compile text mode =>
      cases compiled : Pattern.compile engine text mode with
      | error error =>
          rw [after, compile_eq, compiled]
          exact .unmoved (by simp) rfl
      | ok pattern =>
          rw [after, compile_eq, compiled]
          exact .compiled (by simp) rfl
  | fetch text mode =>
      cases compiled : Pattern.compile engine text mode with
      | error error =>
          rw [after_fetch_of_error compiled]
          exact .unmoved (by simp) (by simp [Request.key?, compiled])
      | ok pattern =>
          have read := (Pattern.compile_eq_ok_iff_lenient.mp compiled).1
          have asked : (Request.fetch text mode).key? engine = some (pattern.text, mode) := by
            simp [Request.key?, compiled]
          cases found : session.cache.find? (pattern.text, mode) with
          | some handle =>
              rw [after, fetch_of_found read found]
              exact .found (by simp) asked found
          | none =>
              rw [after, fetch_of_missing compiled found]
              have spelled := (Pattern.compile_text_eq_ok_iff read pattern).mpr compiled
              exact .kept (by simp) asked found spelled

end

/-- What every request preserves: an entry is what its key spells, and no key or mark is twice. -/
structure Sound (engine : Engine) (session : Session) : Prop where
  keys : (session.cache.entries.map Prod.fst).Nodup
  spelled : ∀ entry ∈ session.cache.entries,
    Pattern.compile engine entry.1.1 entry.1.2 = .ok entry.2.pattern
  given : ∀ entry ∈ session.cache.entries, entry.2.mark < session.supply.next
  marks : (session.cache.entries.map (·.2.mark)).Nodup

structure Avoids (session : Session) (mark : Nat) : Prop where
  given : mark < session.supply.next
  absent : ∀ entry ∈ session.cache.entries, entry.2.mark ≠ mark

theorem entries_keep (session : Session) (key : Text × CaseMode) (pattern : Pattern) :
    (session.keep key pattern).cache.entries =
      session.cache.entries ++ [(key, ⟨session.supply.next, pattern⟩)] := rfl

theorem key_not_mem_of_missing {cache : Cache} {key : Text × CaseMode}
    (missing : cache.find? key = none) : key ∉ cache.entries.map Prod.fst := by
  intro member
  obtain ⟨entry, among, rfl⟩ := List.mem_map.mp member
  have differs := List.lookup_eq_none_iff.mp missing entry among
  simp at differs

theorem mem_of_found {cache : Cache} {key : Text × CaseMode} {handle : Handle}
    (found : cache.find? key = some handle) : (key, handle) ∈ cache.entries := by
  obtain ⟨before, behind, same, -⟩ := List.lookup_eq_some_iff.mp found
  rw [same]
  simp

theorem Sound.fresh : ({} : Session).Sound engine := ⟨.nil, by simp, by simp, .nil⟩

section

variable {session next : Session} {request : Request}

theorem Sound.moved (sound : session.Sound engine) (outcome : Outcome engine session request next) :
    next.Sound engine := by
  cases outcome with
  | unmoved => exact sound
  | found => exact sound
  | @kept key pattern stays asked missing spelled =>
      have fresh : session.supply.next ∉ session.cache.entries.map (·.2.mark) := by
        intro member
        obtain ⟨entry, among, same⟩ := List.mem_map.mp member
        exact absurd same (Nat.ne_of_lt (sound.given entry among))
      refine ⟨?_, ?_, ?_, ?_⟩
      · rw [entries_keep, List.map_append]
        exact List.concat_eq_append ▸ sound.keys.concat (key_not_mem_of_missing missing)
      · intro entry member
        rcases List.mem_append.mp member with old | new
        · exact sound.spelled entry old
        · rw [List.mem_singleton.mp new]
          exact spelled
      · intro entry member
        rcases List.mem_append.mp member with old | new
        · exact Nat.lt_succ_of_lt (sound.given entry old)
        · rw [List.mem_singleton.mp new]
          exact Nat.lt_succ_self _
      · rw [entries_keep, List.map_append]
        exact List.concat_eq_append ▸ sound.marks.concat fresh
  | cleared => exact ⟨.nil, by simp, by simp, .nil⟩
  | compiled =>
      exact ⟨sound.keys, sound.spelled, fun entry member =>
        Nat.lt_succ_of_lt (sound.given entry member),
        sound.marks⟩

theorem supply_le (outcome : Outcome engine session request next) :
    session.supply.next ≤ next.supply.next := by
  cases outcome with
  | kept => exact Nat.le_succ _
  | compiled => exact Nat.le_succ _
  | _ => exact Nat.le_refl _

theorem Avoids.moved {mark : Nat} (avoids : session.Avoids mark)
    (outcome : Outcome engine session request next) : next.Avoids mark := by
  refine ⟨Nat.lt_of_lt_of_le avoids.given (supply_le outcome), ?_⟩
  cases outcome with
  | kept =>
      intro entry member
      rcases List.mem_append.mp member with old | new
      · exact avoids.absent entry old
      · rw [List.mem_singleton.mp new]
        exact Nat.ne_of_gt avoids.given
  | cleared => simp
  | _ => exact avoids.absent

theorem found_moved {key : Text × CaseMode} {handle : Handle}
    (found : session.cache.find? key = some handle) (stays : request ≠ .clear)
    (outcome : Outcome engine session request next) : next.cache.find? key = some handle := by
  cases outcome with
  | kept =>
      rw [find?, entries_keep, List.lookup_append]
      rw [find?] at found
      rw [found]
      rfl
  | cleared asked => exact absurd asked stays
  | _ => exact found

end

theorem run_preserves (holds : Session → Prop) {session : Session} {history : List Request}
    (start : holds session)
    (steps : ∀ request ∈ history, ∀ before next, Outcome engine before request next → holds before →
      holds next) :
    holds (session.run engine history) := by
  induction history generalizing session with
  | nil => exact start
  | cons request history ih =>
      apply ih (steps request List.mem_cons_self _ _ (after_outcome session request) start)
      exact fun other member => steps other (List.mem_cons_of_mem request member)

theorem Sound.run {session : Session} (sound : session.Sound engine) (history : List Request) :
    (session.run engine history).Sound engine :=
  run_preserves (Sound engine) sound fun _ _ _ _ outcome before => before.moved outcome

theorem Avoids.run {session : Session} {mark : Nat} (avoids : session.Avoids mark)
    (history : List Request) : (session.run engine history).Avoids mark :=
  run_preserves (Avoids · mark) avoids fun _ _ _ _ outcome before => before.moved outcome

theorem found_run {session : Session} {key : Text × CaseMode} {handle : Handle}
    (found : session.cache.find? key = some handle) {history : List Request}
    (stays : .clear ∉ history) : (session.run engine history).cache.find? key = some handle := by
  apply run_preserves (·.cache.find? key = some handle) found
  intro request member before next outcome held
  exact found_moved held (fun clears => stays (clears ▸ member)) outcome

theorem run_append (session : Session) (before after : List Request) :
    session.run engine (before ++ after) = (session.run engine before).run engine after :=
  List.foldl_append ..

section

variable {session next : Session} {text : Text} {mode : CaseMode} {handle : Handle}

theorem after_of_fetched (fetched : session.fetch engine text mode = .ok (handle, next)) :
    session.after engine (.fetch text mode) = next := by
  rw [after, fetched]

theorem Sound.fetched (sound : session.Sound engine)
    (fetched : session.fetch engine text mode = .ok (handle, next)) :
    Pattern.compile engine text mode = .ok handle.pattern ∧
      next.cache.find? (handle.pattern.text, mode) = some handle := by
  obtain ⟨pattern, read, kept | made⟩ := fetch_eq_ok fetched
  · obtain ⟨found, rfl⟩ := kept
    have spelled : Pattern.compile engine pattern.text mode = .ok handle.pattern :=
      sound.spelled _ (mem_of_found found)
    have compiled := (Pattern.compile_text_eq_ok_iff read _).mp spelled
    have same := ((Pattern.compile_eq_ok_iff_of_lenient read _).mp compiled).1
    exact ⟨compiled, same ▸ found⟩
  · obtain ⟨missing, compiled, rfl, rfl⟩ := made
    refine ⟨compiled, ?_⟩
    rw [find?] at missing
    rw [find?, entries_keep, List.lookup_append, missing]
    simp

end

theorem mem_keys_moved {session next : Session} {request : Request}
    (outcome : Outcome engine session request next) (key : Text × CaseMode) :
    key ∈ next.cache.entries.map Prod.fst ↔
      request ≠ .clear ∧
      (request.key? engine = some key ∨ key ∈ session.cache.entries.map Prod.fst) := by
  cases outcome with
  | unmoved stays unasked => simp [stays, unasked]
  | @found asked handle stays same found =>
      have held : asked ∈ session.cache.entries.map Prod.fst :=
        List.mem_map_of_mem (mem_of_found found)
      simp only [stays, same, Option.some.injEq, ne_eq, not_false_eq_true, true_and]
      exact ⟨.inr, fun either => either.elim (fun equal => equal ▸ held) id⟩
  | kept stays same =>
      rw [entries_keep, List.map_append, List.mem_append, List.map_singleton, List.mem_singleton]
      simp only [stays, same, Option.some.injEq, ne_eq, not_false_eq_true, true_and]
      rw [or_comm, eq_comm]
  | cleared asked => simp [asked]
  | compiled stays unasked => simp [stays, unasked]

theorem mem_requested_concat (history : List Request) (request : Request) (key : Text × CaseMode) :
    key ∈ requested engine (history ++ [request]) ↔
      request ≠ .clear ∧ (request.key? engine = some key ∨ key ∈ requested engine history) := by
  rw [requested, List.reverse_append, List.reverse_singleton, List.singleton_append]
  by_cases clears : request = .clear
  · simp [clears]
  · rw [List.takeWhile_cons_of_pos (by simpa using clears), requested]
    cases asked : request.key? engine with
    | none => simp [asked, clears]
    | some other => simp [asked, clears, eq_comm]

/-- The keys of a cache are those asked for since it was cleared. -/
theorem mem_keys_run (history : List Request) (key : Text × CaseMode) :
    key ∈ (({} : Session).run engine history).cache.entries.map Prod.fst ↔
    key ∈ requested engine history := by
  induction history using List.reverseRecOn with
  | nil => simp [run, requested]
  | append_singleton history request ih =>
      rw [run_append, mem_requested_concat, ← ih]
      exact mem_keys_moved (after_outcome _ request) key

/-- What can be relied on in a session, whatever comes next. -/
structure Faithful (engine : Engine) (session : Session) : Prop where
  answers : ∀ text mode pattern,
    (session.fetch engine text mode).map (·.1.pattern) = .ok pattern ↔
      Pattern.compile engine text mode = .ok pattern
  flaws : ∀ text mode error, Pattern.compile engine text mode = .error error → ¬ error.IsRefusal →
    session.fetch engine text mode = .error error
  /-- A refusal gives way to a flaw of the text. If there is none, the canonical text is quoted. -/
  refusals : ∀ text mode piece reason,
    Pattern.compile engine text mode = .error (.malformed piece (.refused reason)) →
      (∀ flaw, Pattern.compile .lenient text mode = .error flaw →
        session.fetch engine text mode = .error flaw) ∧
      (∀ pattern, Pattern.compile .lenient text mode = .ok pattern →
        ∃ glob, Branch.parse piece = .ok glob ∧
          session.fetch engine text mode = .error (.malformed glob.text (.refused reason)))
  failures : ∀ text mode error, session.fetch engine text mode = .error error →
    session.after engine (.fetch text mode) = session
  /-- Two fetches answer one handle just if they agree on text and mode and nothing is cleared
  between. -/
  sharing : ∀ text mode left middle, session.fetch engine text mode = .ok (left, middle) →
    ∀ between otherText otherMode right last,
      (middle.run engine between).fetch engine otherText otherMode = .ok (right, last) →
        (left.same right = true ↔
          .clear ∉ between ∧ left.pattern.text = right.pattern.text ∧ mode = otherMode)
  compiledLater : ∀ text mode left middle, session.fetch engine text mode = .ok (left, middle) →
    ∀ between otherText otherMode right last,
      (middle.run engine between).compile engine otherText otherMode = .ok (right, last) →
      left.same right = false
  compiledEarlier : ∀ text mode left middle, session.compile engine text mode = .ok (left, middle) →
    ∀ between otherText otherMode right last,
      (middle.run engine between).fetch engine otherText otherMode = .ok (right, last) →
      left.same right = false

section

variable {session middle last : Session} {text otherText : Text} {mode otherMode : CaseMode}
  {left right : Handle} {between : List Request}

theorem Sound.answers (sound : session.Sound engine) (text : Text) (mode : CaseMode)
    (pattern : Pattern) :
    (session.fetch engine text mode).map (·.1.pattern) = .ok pattern ↔
      Pattern.compile engine text mode = .ok pattern := by
  constructor
  · intro answered
    cases fetched : session.fetch engine text mode with
    | error error =>
        rw [fetched] at answered
        cases answered
    | ok reply =>
        rw [fetched] at answered
        cases answered
        exact (sound.fetched fetched).1
  · intro compiled
    have read := (Pattern.compile_eq_ok_iff_lenient.mp compiled).1
    cases found : session.cache.find? (pattern.text, mode) with
    | some handle =>
        have fetched : session.fetch engine text mode = .ok (handle, session) :=
          fetch_of_found read found
        rw [fetched, ← compiled]
        exact (sound.fetched fetched).1.symm
    | none =>
        rw [fetch_of_missing compiled found]
        rfl

/-- What an engine refuses never gets into the cache, so it is refused again. -/
theorem Sound.refusals (sound : session.Sound engine) {pattern : Pattern} {piece : Text}
    {reason : String} (read : Pattern.compile .lenient text mode = .ok pattern)
    (failed : Pattern.compile engine text mode = .error (.malformed piece (.refused reason))) :
    ∃ glob, Branch.parse piece = .ok glob ∧
      session.fetch engine text mode = .error (.malformed glob.text (.refused reason)) := by
  obtain ⟨glob, parsed, refused⟩ := Pattern.compile_text_of_refused read failed
  refine ⟨glob, parsed, fetch_of_refused read ?_ refused⟩
  rw [Option.eq_none_iff_forall_ne_some]
  intro handle found
  have spelled := sound.spelled _ (mem_of_found found)
  rw [refused] at spelled
  cases spelled

theorem Avoids.mark_ne {mark : Nat} (avoids : session.Avoids mark) (sound : session.Sound engine)
    (fetched : session.fetch engine text mode = .ok (right, last)) : mark ≠ right.mark := by
  have avoided := after_of_fetched fetched ▸ avoids.moved (after_outcome session (.fetch text mode))
  exact (avoided.absent _ (mem_of_found (sound.fetched fetched).2)).symm

theorem Sound.eq_of_mark_eq (sound : session.Sound engine) {key otherKey : Text × CaseMode}
    (found : session.cache.find? key = some left)
    (other : session.cache.find? otherKey = some right)
    (same : left.mark = right.mark) : key = otherKey := by
  have entries :=
    List.inj_on_of_nodup_map sound.marks (mem_of_found found) (mem_of_found other) same
  exact congrArg Prod.fst entries

theorem given_run {mark : Nat} (given : mark < session.supply.next) (history : List Request) :
    mark < (session.run engine history).supply.next :=
  run_preserves (mark < ·.supply.next) given fun _ _ _ _ outcome before =>
    Nat.lt_of_lt_of_le before (supply_le outcome)

theorem avoids_after_clear {mark : Nat} (given : mark < session.supply.next)
    (clears : .clear ∈ between) : (session.run engine between).Avoids mark := by
  obtain ⟨before, behind, rfl⟩ := List.append_of_mem clears
  rw [run_append]
  have cleared : ((session.run engine before).after engine .clear).Avoids mark :=
    ⟨given_run given before, by simp [after, clear]⟩
  exact cleared.run behind

theorem Sound.after_fetch (sound : session.Sound engine)
    (fetched : session.fetch engine text mode = .ok (left, middle)) : middle.Sound engine :=
  after_of_fetched fetched ▸ sound.moved (after_outcome session (.fetch text mode))

theorem Sound.given_fetch (sound : session.Sound engine)
    (fetched : session.fetch engine text mode = .ok (left, middle)) :
    left.mark < middle.supply.next :=
  (sound.after_fetch fetched).given _ (mem_of_found (sound.fetched fetched).2)

theorem Sound.same_iff (sound : session.Sound engine)
    (fetched : session.fetch engine text mode = .ok (left, middle))
    (later : (middle.run engine between).fetch engine otherText otherMode = .ok (right, last)) :
    left.same right = true ↔
      .clear ∉ between ∧ left.pattern.text = right.pattern.text ∧ mode = otherMode := by
  have middleSound := (sound.after_fetch fetched).run between
  by_cases clears : .clear ∈ between
  · have differ := (avoids_after_clear (sound.given_fetch fetched) clears).mark_ne middleSound later
    simp [Handle.same, differ, clears]
  · have lastSound := middleSound.after_fetch later
    have answered := (middleSound.fetched later).2
    have held : last.cache.find? (left.pattern.text, mode) = some left := by
      have kept : (middle.run engine between).cache.find? (left.pattern.text, mode) = some left :=
        found_run (sound.fetched fetched).2 clears
      rw [← after_of_fetched later]
      exact found_moved kept Request.noConfusion (after_outcome _ _)
    constructor
    · intro same
      have keys := lastSound.eq_of_mark_eq held answered (beq_iff_eq.mp same)
      exact ⟨clears, congrArg Prod.fst keys, congrArg Prod.snd keys⟩
    · intro agree
      obtain ⟨-, texts, rfl⟩ := agree
      rw [texts, answered] at held
      rw [Option.some.inj held]
      exact beq_self_eq_true left.mark

theorem compile_eq_ok (compiled : session.compile engine text mode = .ok (left, middle)) :
    left.mark = session.supply.next ∧
      middle = { session with supply := ⟨session.supply.next + 1⟩ } := by
  rw [compile_eq] at compiled
  cases found : Pattern.compile engine text mode with
  | error error =>
      rw [found] at compiled
      cases compiled
  | ok pattern =>
      rw [found] at compiled
      cases compiled
      exact ⟨rfl, rfl⟩

theorem Sound.faithful (sound : session.Sound engine) : session.Faithful engine where
  answers := sound.answers
  flaws := fun _ _ _ failed flawed => fetch_of_flawed (Pattern.lenient_of_flawed failed flawed)
  refusals := fun _ _ _ _ failed =>
    ⟨fun _ flawed => fetch_of_flawed flawed, fun _ read => sound.refusals read failed⟩
  failures := by
    intro text mode error failed
    rw [after, failed]
  sharing := fun _ _ _ _ fetched _ _ _ _ _ later => sound.same_iff fetched later
  compiledLater := by
    intro text mode left middle fetched between otherText otherMode right last compiled
    have given : left.mark < (middle.run engine between).supply.next :=
      given_run (sound.given_fetch fetched) between
    rw [Handle.same, (compile_eq_ok compiled).1]
    exact beq_eq_false_iff_ne.mpr (Nat.ne_of_lt given)
  compiledEarlier := by
    intro text mode left middle compiled between otherText otherMode right last fetched
    obtain ⟨mark, rfl⟩ := compile_eq_ok compiled
    have avoids : Avoids { session with supply := ⟨session.supply.next + 1⟩ } left.mark :=
      ⟨mark ▸ Nat.lt_succ_self _, fun entry member =>
        mark ▸ Nat.ne_of_lt (sound.given entry member)⟩
    have outcome : Outcome engine session (.compile text mode)
        { session with supply := ⟨session.supply.next + 1⟩ } := .compiled Request.noConfusion rfl
    have middleSound := sound.moved outcome
    exact beq_eq_false_iff_ne.mpr ((avoids.run between).mark_ne (middleSound.run between) fetched)

end

end Session

/--
Any use of a fresh cache is faithful throughout, and the cache holds what was asked for. Only where
the engine refuses an expression can a fetch fail with another error than compiling.
-/
theorem history_faithful (engine : Engine) (history : List Request) :
    (Session.run engine {} history).Faithful engine ∧
      (Session.run engine {} history).cache.size = (requested engine history).toFinset.card := by
  have sound : (Session.run engine {} history).Sound engine := Session.Sound.fresh.run history
  refine ⟨sound.faithful, ?_⟩
  have keys : (requested engine history).toFinset =
      ((Session.run engine {} history).cache.entries.map Prod.fst).toFinset := by
    ext key
    rw [List.mem_toFinset, List.mem_toFinset, Session.mem_keys_run]
  rw [keys, List.toFinset_card_of_nodup sound.keys, List.length_map]
  rfl

/--
Two spellings of `a`, with a text that has a flaw and a pattern compiled elsewhere between them.
-/
theorem history_faithful_spellings :
    ∃ left middle right last,
      Session.fetch .lenient {} ['.', '/', 'a'] .sensitive = .ok (left, middle) ∧
      (middle.run .lenient [.fetch ['['] .sensitive, .compile ['a'] .sensitive]).fetch .lenient
        ['a', ';', 'a', '/'] .sensitive = .ok (right, last) ∧ left.same right = true ∧
      (Session.run .lenient {} [.fetch ['.', '/', 'a'] .sensitive, .clear,
        .fetch ['b'] .insensitive]).cache.size = 1 := by
  have first : Session.fetch .lenient {} ['.', '/', 'a'] .sensitive =
      .ok (⟨1, ⟨[⟨⟨false, [.literal ['a']]⟩, .sensitive⟩]⟩⟩,
        ⟨⟨[((['a'], .sensitive), ⟨1, ⟨[⟨⟨false, [.literal ['a']]⟩, .sensitive⟩]⟩⟩)]⟩, ⟨2⟩⟩) := by
    decide +kernel
  have second : (Session.run .lenient
      ⟨⟨[((['a'], .sensitive), ⟨1, ⟨[⟨⟨false, [.literal ['a']]⟩, .sensitive⟩]⟩⟩)]⟩, ⟨2⟩⟩
      [.fetch ['['] .sensitive, .compile ['a'] .sensitive]).fetch .lenient
        ['a', ';', 'a', '/'] .sensitive =
      .ok (⟨1, ⟨[⟨⟨false, [.literal ['a']]⟩, .sensitive⟩]⟩⟩,
        ⟨⟨[((['a'], .sensitive), ⟨1, ⟨[⟨⟨false, [.literal ['a']]⟩, .sensitive⟩]⟩⟩)]⟩, ⟨3⟩⟩) := by
    decide +kernel
  refine ⟨_, _, _, _, first, second, ?_, ?_⟩
  · exact ((history_faithful .lenient []).1.sharing _ _ _ _ first _ _ _ _ _ second).mpr (by decide)
  · rw [(history_faithful _ _).2]
    decide +kernel

/--
A fetch does not answer every error that compiling answers: a refused `./a` is quoted as `a`, and in
`a;[` the flaw behind a refused `a` is found first.
-/
theorem fetch_differs_on_refusal :
    ∃ engine : Engine, ∃ reason : String,
      Pattern.compile engine ['.', '/', 'a'] .sensitive =
        .error (.malformed ['.', '/', 'a'] (.refused reason)) ∧
      Session.fetch engine {} ['.', '/', 'a'] .sensitive =
        .error (.malformed ['a'] (.refused reason)) ∧
      Pattern.compile engine ['a', ';', '['] .sensitive =
        .error (.malformed ['a'] (.refused reason)) ∧
      Session.fetch engine {} ['a', ';', '['] .sensitive =
        .error (.malformed ['['] (.grammar ⟨1, 1, .nothingEnclosed⟩)) := by
  refine ⟨.limited List.length 2, "Compiled regex exceeds size limit of 2 bytes.", ?_, ?_, ?_, ?_⟩
  all_goals decide +kernel

end Cache

end PathGlob
