import PathGlob.Walk

/-!
# The traversal that a walk performs

A walk keeps stops ahead, finds to check and stops behind, so that it can hand out one finding at a
time. This file says the same as a recursion without any of that: `Branch.expand` is what one stop
comes to, and `Record.visit` makes a stop and then those it leads to, one after the other and each
with everything below it. What is observed is written into a record on the way.
-/
namespace PathGlob

set_option autoImplicit false

structure Expansion where
  read : List Text := []
  failure : Option ListingError := none
  candidates : List Text := []
  next : List Stop := []

namespace Expansion

def listing (listing : Listing) (go : List Text → Expansion) : Expansion :=
  match listing.outcome with
  | .error failure => { read := listing.read, failure := some failure }
  | .ok paths => { go paths with read := listing.read ++ (go paths).read }

theorem mem_next_listing_iff (source : Listing) (go : List Text → Expansion) (stop : Stop) :
    stop ∈ (listing source go).next ↔
      ∃ paths, source.outcome = .ok paths ∧ stop ∈ (go paths).next := by
  rw [listing]
  cases source.outcome <;> simp

theorem mem_candidates_listing_iff (source : Listing) (go : List Text → Expansion) (path : Text) :
    path ∈ (listing source go).candidates ↔
      ∃ paths, source.outcome = .ok paths ∧ path ∈ (go paths).candidates := by
  rw [listing]
  cases source.outcome <;> simp

theorem failure_listing_iff (source : Listing) (go : List Text → Expansion) :
    (listing source go).failure.isSome = true ↔
      ∀ paths, source.outcome = .ok paths → (go paths).failure.isSome = true := by
  rw [listing]
  cases source.outcome <;> simp

end Expansion

namespace Selector

variable (filesystem : Filesystem)

/-- What the selector of the last component comes to: candidates, for `**` also further stops. -/
def expandLast (stop : Stop) : Selector → Expansion
  | .exactly name =>
    let path := Path.join stop.directory name
    { candidates := if filesystem.holds path then [path] else [] }
  | .named regex =>
    .listing (filesystem.entries stop.directory) fun paths =>
      { candidates := paths.filter fun path => regex.found (Path.fileName path) }
  | .everywhere =>
    .listing (filesystem.entries stop.directory) fun paths =>
      let below := Expansion.listing (filesystem.directories stop.directory) fun directories =>
        { next := directories.map fun directory => ⟨directory, stop.index⟩ }
      { below with candidates := paths }

def expandInner (stop : Stop) : Selector → Expansion
  | .exactly name =>
    let path := Path.join stop.directory name
    { next := if filesystem.isDirectory path then [⟨path, stop.index + 1⟩] else [] }
  | .named regex =>
    .listing (filesystem.directories stop.directory) fun directories =>
      let fitting := directories.filter fun path => regex.found (Path.fileName path)
      { next := fitting.map fun directory => ⟨directory, stop.index + 1⟩ }
  | .everywhere =>
    .listing (filesystem.directories stop.directory) fun directories =>
      { next := ⟨stop.directory, stop.index + 1⟩
          :: directories.map fun directory => ⟨directory, stop.index⟩ }

end Selector

namespace Branch

def expand (filesystem : Filesystem) (branch : Branch) (stop : Stop) : Expansion :=
  match branch.selectors[stop.index]? with
  | none => {}
  | some selector =>
    if stop.index + 1 = branch.selectors.length then selector.expandLast filesystem stop
    else selector.expandInner filesystem stop

def base (filesystem : Filesystem) (start : Text) (branch : Branch) : Text :=
  if branch.rooted then Path.normalize filesystem.root else start

end Branch

structure Record where
  visited : List Stop := []
  handedOut : List Text := []
  read : List Text := []
  findings : List (Finding × List Text) := []
  deriving DecidableEq, Repr

namespace Record

/-- Adds a candidate to the findings if the branch matches it and it was not handed out before. -/
def offer (branch : Branch) (record : Record) (path : Text) : Record :=
  if branch.matchesPath path && !record.handedOut.contains path then
    { record with
      handedOut := path :: record.handedOut
      findings := record.findings ++ [(.path path, record.read)] }
  else record

def enter (record : Record) (stop : Stop) (expansion : Expansion) : Record :=
  let read := record.read ++ expansion.read
  { record with
    visited := stop :: record.visited
    read
    findings := record.findings ++ expansion.failure.toList.map fun failure =>
      (.failure failure, read) }

def make (branch : Branch) (record : Record) (stop : Stop) (expansion : Expansion) : Record :=
  expansion.candidates.foldl (offer branch) (record.enter stop expansion)

/--
Makes a stop and the stops it leads to, unless it was made before, nested no deeper than `depth`.
-/
def visit (filesystem : Filesystem) (branch : Branch) : Nat → Record → Stop → Option Record
  | 0, _, _ => none
  | depth + 1, record, stop =>
    if stop ∈ record.visited then some record
    else
      let expansion := branch.expand filesystem stop
      expansion.next.foldlM (visit filesystem branch depth) (record.make branch stop expansion)

def follow (filesystem : Filesystem) (start : Text) (depth : Nat) (record : Record)
    (branch : Branch) : Option Record :=
  { record with visited := [] }.visit filesystem branch depth ⟨branch.base filesystem start, 0⟩

end Record

/-- The traversal of a pattern: its branches in order. Too small a depth gives no record. -/
def Pattern.traverse (filesystem : Filesystem) (pattern : Pattern) (path : Text) (depth : Nat) :
    Option Record :=
  pattern.branches.foldlM (Record.follow filesystem (Walk.startIn filesystem path) depth) {}

section Folds

variable {State Item : Type} {advance : State → Item → Option State} {items : List Item}

theorem foldl_m_cons_eq_some {item : Item} {state result : State}
    (folded : (item :: items).foldlM advance state = some result) :
    ∃ middle, advance state item = some middle ∧ items.foldlM advance middle = some result := by
  rw [List.foldlM_cons, Option.bind_eq_bind, Option.bind_eq_some_iff] at folded
  exact folded

theorem foldl_m_ends (good : State → Prop)
    (advances : ∀ state, good state → ∀ item ∈ items, ∃ next, advance state item = some next ∧
      good next)
    {state : State} (starts : good state) : ∃ result, items.foldlM advance state = some result := by
  induction items generalizing state with
  | nil => exact ⟨state, rfl⟩
  | cons item items ih =>
      obtain ⟨next, first, kept⟩ := advances state starts item List.mem_cons_self
      obtain ⟨result, rest⟩ := ih (fun state kept other member =>
        advances state kept other (List.mem_cons_of_mem item member)) kept
      refine ⟨result, ?_⟩
      rw [List.foldlM_cons, first]
      exact rest

end Folds

end PathGlob
