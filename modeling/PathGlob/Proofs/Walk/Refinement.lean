import PathGlob.Proofs.Stream.Drain
import PathGlob.Proofs.Walk.Traversal

/-!
# Walks perform the traversal

A walk is followed along the recursion of the traversal: with a stop at the front of those ahead,
its steps hand out what visiting that stop adds to the record, and come to the same walk without
the stop. So a walk pulled to its end hands out the findings of the traversal, in order, and has
read the same directories behind each of them.
-/
namespace PathGlob

set_option autoImplicit false

namespace Trail

theorem is_last_eq_true_iff (trail : Trail) (index : Nat) :
    trail.isLast index = true ↔ index + 1 = trail.branch.selectors.length := by
  rw [isLast, beq_iff_eq]

def advanced (trail : Trail) (expansion : Expansion) : Trail :=
  { trail with
    ahead := expansion.next ++ trail.ahead
    finds := trail.finds ++ expansion.candidates }

def visitOf (trail : Trail) (expansion : Expansion) : Visit :=
  { trail := trail.advanced expansion, read := expansion.read, failure := expansion.failure }

theorem after_listing_eq (trail : Trail) (listing : Listing) {go : List Text → Visit}
    {expand : List Text → Expansion} (same : ∀ paths, go paths = trail.visitOf (expand paths)) :
    trail.afterListing listing go = trail.visitOf (Expansion.listing listing expand) := by
  rw [afterListing, Expansion.listing]
  cases listing.outcome with
  | error failure => simp [visitOf, advanced]
  | ok paths =>
      simp only [same]
      rfl

theorem look_up_eq (trail : Trail) (filesystem : Filesystem) (stop : Stop) (name : Text) :
    trail.lookUp filesystem stop name =
      trail.visitOf (if stop.index + 1 = trail.branch.selectors.length
        then (Selector.exactly name).expandLast filesystem stop
        else (Selector.exactly name).expandInner filesystem stop) := by
  by_cases last : stop.index + 1 = trail.branch.selectors.length
  · rw [lookUp, if_pos ((is_last_eq_true_iff trail stop.index).mpr last), if_pos last,
      Selector.expandLast]
    cases held : filesystem.holds (Path.join stop.directory name) <;> simp [visitOf, advanced, find]
  · rw [lookUp, if_neg (mt (is_last_eq_true_iff trail stop.index).mp last), if_neg last,
      Selector.expandInner]
    cases led : filesystem.isDirectory (Path.join stop.directory name) <;>
      simp [visitOf, advanced, goTo]

theorem compare_eq (trail : Trail) (filesystem : Filesystem) (stop : Stop) (regex : Regex) :
    trail.compare filesystem stop regex =
      trail.visitOf (if stop.index + 1 = trail.branch.selectors.length
        then (Selector.named regex).expandLast filesystem stop
        else (Selector.named regex).expandInner filesystem stop) := by
  by_cases last : stop.index + 1 = trail.branch.selectors.length
  · rw [compare, if_pos ((is_last_eq_true_iff trail stop.index).mpr last), if_pos last]
    apply after_listing_eq
    intro paths
    simp [visitOf, advanced, find]
  · rw [compare, if_neg (mt (is_last_eq_true_iff trail stop.index).mp last), if_neg last]
    apply after_listing_eq
    intro paths
    simp [visitOf, advanced, goTo]

theorem descend_eq (trail : Trail) (filesystem : Filesystem) (stop : Stop) :
    trail.descend filesystem stop =
      trail.visitOf (if stop.index + 1 = trail.branch.selectors.length
        then Selector.everywhere.expandLast filesystem stop
        else Selector.everywhere.expandInner filesystem stop) := by
  by_cases last : stop.index + 1 = trail.branch.selectors.length
  · rw [descend, if_pos ((is_last_eq_true_iff trail stop.index).mpr last), if_pos last]
    apply after_listing_eq
    intro entries
    rw [afterListing, Expansion.listing]
    cases (filesystem.directories stop.directory).outcome <;> simp [visitOf, advanced, find, goTo]
  · rw [descend, if_neg (mt (is_last_eq_true_iff trail stop.index).mp last), if_neg last]
    apply after_listing_eq
    intro directories
    simp [visitOf, advanced, goTo]

theorem visit_known (trail : Trail) (filesystem : Filesystem) {stop : Stop}
    (known : stop ∈ trail.behind) :
    trail.visit filesystem stop = { trail } := by
  rw [visit, if_pos (List.contains_iff_mem.mpr known)]

theorem visit_fresh (trail : Trail) (filesystem : Filesystem) {stop : Stop}
    (fresh : stop ∉ trail.behind) :
    trail.visit filesystem stop =
      { trail with behind := stop :: trail.behind }.visitOf
        (trail.branch.expand filesystem stop) := by
  rw [visit, if_neg (by simpa using fresh), Branch.expand]
  dsimp only
  cases trail.branch.selectors[stop.index]? with
  | none => simp [visitOf, advanced]
  | some selector =>
      cases selector with
      | exactly name => exact look_up_eq _ filesystem stop name
      | named regex => exact compare_eq _ filesystem stop regex
      | everywhere => exact descend_eq _ filesystem stop

end Trail

namespace Walk

def amid (walk : Walk) (branch : Branch) (record : Record) (finds : List Text)
    (ahead : List Stop) : Walk :=
  { walk with
    trail := some { branch, ahead, finds, behind := record.visited }
    handedOut := record.handedOut
    read := record.read }

def before (walk : Walk) (record : Record) (waiting : List Branch) : Walk :=
  { walk with waiting, trail := none, handedOut := record.handedOut, read := record.read }

/-- What can be observed of an item: the finding and the directories read when it was handed out. -/
def observed (item : Finding × Walk) : Finding × List Text := (item.1, item.2.read)

/-- Steps lead from one walk to another and hand out what the second record has over the first. -/
def Advances (filesystem : Filesystem) (walk : Walk) (record : Record) (later : Walk)
    (after : Record) : Prop :=
  ∃ items, Step.Runs (step filesystem) walk items later ∧
    after.findings = record.findings ++ items.map observed

variable {filesystem : Filesystem}

theorem Advances.refl (walk : Walk) (record : Record) :
    Advances filesystem walk record walk record := ⟨[], .here walk, by simp⟩

theorem Advances.trans {first middle last : Walk} {one two three : Record}
    (earlier : Advances filesystem first one middle two)
    (later : Advances filesystem middle two last three) :
    Advances filesystem first one last three := by
  obtain ⟨items, runs, found⟩ := earlier
  obtain ⟨others, runsOn, foundOn⟩ := later
  exact ⟨items ++ others, runs.trans runsOn, by simp [foundOn, found]⟩

theorem Advances.of_silent {walk later : Walk} {record after : Record}
    (moves : walk.step filesystem = .silent later) (same : after.findings = record.findings) :
    Advances filesystem walk record later after :=
  ⟨[], .silent moves (.here later), by simp [same]⟩

theorem Advances.of_item {walk later : Walk} {record after : Record} {finding : Finding}
    (moves : walk.step filesystem = .item finding later)
    (found : after.findings = record.findings ++ [(finding, later.read)]) :
    Advances filesystem walk record later after :=
  ⟨[(finding, later)], .item moves (.here later), found⟩

variable (walk : Walk) (branch : Branch)

theorem advances_offer (record : Record) (path : Text) (finds : List Text) (ahead : List Stop) :
    Advances filesystem (walk.amid branch record (path :: finds) ahead) record
      (walk.amid branch (record.offer branch path) finds ahead) (record.offer branch path) := by
  by_cases accepted : (branch.matchesPath path && !record.handedOut.contains path) = true
  · rw [Record.offer, if_pos accepted]
    have moves : (walk.amid branch record (path :: finds) ahead).step filesystem =
        .item (.path path) { walk.amid branch record finds ahead with
          handedOut := path :: record.handedOut } := if_pos accepted
    exact .of_item moves rfl
  · rw [Record.offer, if_neg accepted]
    have moves : (walk.amid branch record (path :: finds) ahead).step filesystem =
        .silent (walk.amid branch record finds ahead) := if_neg accepted
    exact .of_silent moves rfl

theorem advances_offers (record : Record) (finds : List Text) (ahead : List Stop) :
    Advances filesystem (walk.amid branch record finds ahead) record
      (walk.amid branch (finds.foldl (.offer branch) record) [] ahead)
      (finds.foldl (.offer branch) record) := by
  induction finds generalizing record with
  | nil => exact .refl _ _
  | cons path finds ih =>
      exact (advances_offer walk branch record path finds ahead).trans
        (ih (record.offer branch path))

theorem advances_known {record : Record} {stop : Stop} (known : stop ∈ record.visited)
    (ahead : List Stop) :
    Advances filesystem (walk.amid branch record [] (stop :: ahead)) record
      (walk.amid branch record [] ahead) record := by
  apply Advances.of_silent
  · simp [step, amid, Trail.visit_known, known]
  · rfl

theorem advances_make {record : Record} {stop : Stop} (fresh : stop ∉ record.visited)
    (ahead : List Stop) :
    Advances filesystem (walk.amid branch record [] (stop :: ahead)) record
      (walk.amid branch (record.make branch stop (branch.expand filesystem stop)) []
        ((branch.expand filesystem stop).next ++ ahead))
      (record.make branch stop (branch.expand filesystem stop)) := by
  have entered : Advances filesystem (walk.amid branch record [] (stop :: ahead)) record
      (walk.amid branch (record.enter stop (branch.expand filesystem stop))
        (branch.expand filesystem stop).candidates
        ((branch.expand filesystem stop).next ++ ahead))
      (record.enter stop (branch.expand filesystem stop)) := by
    have visited := Trail.visit_fresh { branch, ahead, behind := record.visited } filesystem fresh
    cases failed : (branch.expand filesystem stop).failure with
    | none =>
        have moves : (walk.amid branch record [] (stop :: ahead)).step filesystem =
            .silent (walk.amid branch (record.enter stop (branch.expand filesystem stop))
              (branch.expand filesystem stop).candidates
              ((branch.expand filesystem stop).next ++ ahead)) := by
          simp only [step, amid, visited, Trail.visitOf, failed]
          rfl
        exact .of_silent moves (by simp [Record.enter, failed])
    | some failure =>
        have moves : (walk.amid branch record [] (stop :: ahead)).step filesystem =
            .item (.failure failure)
              (walk.amid branch (record.enter stop (branch.expand filesystem stop))
                (branch.expand filesystem stop).candidates
                ((branch.expand filesystem stop).next ++ ahead)) := by
          simp only [step, amid, visited, Trail.visitOf, failed]
          rfl
        exact .of_item moves (by simp [Record.enter, failed, amid])
  exact entered.trans (advances_offers walk branch _ _ _)

theorem advances_stops {depth : Nat}
    (visits : ∀ (record after : Record) (stop : Stop) (ahead : List Stop),
      record.visit filesystem branch depth stop = some after →
        Advances filesystem (walk.amid branch record [] (stop :: ahead)) record
          (walk.amid branch after [] ahead) after)
    (stops : List Stop) {record after : Record} (ahead : List Stop)
    (visited : stops.foldlM (Record.visit filesystem branch depth) record = some after) :
    Advances filesystem (walk.amid branch record [] (stops ++ ahead)) record
      (walk.amid branch after [] ahead) after := by
  induction stops generalizing record with
  | nil =>
      cases visited
      exact .refl _ _
  | cons stop stops ih =>
      obtain ⟨middle, first, others⟩ := foldl_m_cons_eq_some visited
      exact (visits record middle stop (stops ++ ahead) first).trans (ih others)

/-- Steps perform the visit of the next stop, with everything it leads to. -/
theorem advances_visit {depth : Nat} (record after : Record) (stop : Stop) (ahead : List Stop)
    (visited : record.visit filesystem branch depth stop = some after) :
    Advances filesystem (walk.amid branch record [] (stop :: ahead)) record
      (walk.amid branch after [] ahead) after := by
  induction depth generalizing record after stop ahead with
  | zero => cases visited
  | succ depth ih =>
      rw [Record.visit] at visited
      split at visited
      · rename_i known
        cases visited
        exact advances_known walk branch known ahead
      · rename_i fresh
        exact (advances_make walk branch fresh ahead).trans
          (advances_stops walk branch ih _ ahead visited)

theorem advances_follow {depth : Nat} {record after : Record} (waiting : List Branch)
    (followed : record.follow filesystem walk.start depth branch = some after) :
    Advances filesystem (walk.before record (branch :: waiting)) record
      (walk.before after waiting) after := by
  have begins : (walk.before record (branch :: waiting)).step filesystem =
      .silent ({ walk with waiting }.amid branch { record with visited := [] } []
        [⟨branch.base filesystem walk.start, 0⟩]) := rfl
  have ends : ({ walk with waiting }.amid branch after [] []).step filesystem =
      .silent (walk.before after waiting) := rfl
  have begun : Advances filesystem (walk.before record (branch :: waiting)) record _
      { record with visited := [] } := .of_silent begins rfl
  exact (begun.trans (advances_visit _ branch _ _ _ [] followed)).trans (.of_silent ends rfl)

theorem advances_branches {depth : Nat} (branches : List Branch) {record after : Record}
    (followed : branches.foldlM (Record.follow filesystem walk.start depth) record = some after) :
    Advances filesystem (walk.before record branches) record (walk.before after []) after := by
  induction branches generalizing record with
  | nil =>
      cases followed
      exact .refl _ _
  | cons branch branches ih =>
      obtain ⟨middle, first, others⟩ := foldl_m_cons_eq_some followed
      exact (advances_follow walk branch branches first).trans (ih others)

/-- A walk pulled to its end hands out the findings of the traversal and has read what it reads. -/
theorem drains_of_traverse {pattern : Pattern} {path : Text} {depth : Nat} {record : Record}
    (traversed : pattern.traverse filesystem path depth = some record) :
    ∃ items last, Step.Drains (step filesystem) (begin pattern filesystem path) items last ∧
      items.map observed = record.findings ∧ last.read = record.read := by
  obtain ⟨items, runs, found⟩ :=
    advances_branches (begin pattern filesystem path) pattern.branches traversed
  exact ⟨items, _, runs.drains rfl, found.symm, rfl⟩

end Walk

end PathGlob
