import Mathlib.Data.List.Forall2
import Mathlib.Data.List.ReduceOption
import PathGlob.Pattern.Handle
import PathGlob.Proofs.Glob.Proper

/-!
# The patterns that can be built

A pattern is built by compiling a text, by prefixing or by combining, nested in any way. Whatever
the way, its branches are parsed from some text, no two are identical and there is at least one.
-/
namespace PathGlob

set_option autoImplicit false

inductive Pattern.Built : Pattern → Prop where
  | compiled {engine : Engine} {text : Text} {mode : CaseMode} {pattern : Pattern}
      (compiled : Pattern.compile engine text mode = .ok pattern) : Built pattern
  | under {engine : Engine} {base : Text} {pattern result : Pattern} (inner : Built pattern)
      (prefixed : pattern.under engine base = .ok result) : Built result
  | combined {entries : List (Option Handle)} {before after : Supply} {handle : Handle}
      (inner : ∀ entry, some entry ∈ entries → Built entry.pattern)
      (united : Handle.combine entries before = .ok (handle, after)) : Built handle.pattern

def Branch.Parsed (branch : Branch) : Prop := ∃ text, Branch.parse text = .ok branch.glob

def Engine.Takes (engine : Engine) (branch : Branch) : Prop :=
  ∀ expression ∈ branch.expressions, engine.refusal? expression.print = none

def Engine.TakesAll (engine : Engine) (pattern : Pattern) : Prop :=
  ∀ branch ∈ pattern.branches, engine.Takes branch

structure Pattern.Proper (pattern : Pattern) : Prop where
  nonempty : pattern.branches ≠ []
  distinct : (pattern.branches.map Branch.identity).Nodup
  parsed : ∀ branch ∈ pattern.branches, branch.Parsed

theorem bind_eq_ok_iff {Item Other Error : Type} {start : Except Error Item}
    {next : Item → Except Error Other} {other : Other} :
    start >>= next = .ok other ↔ ∃ item, start = .ok item ∧ next item = .ok other := by
  cases start <;> simp [bind, Except.bind]

section

variable {Item Other Error : Type} {f : Item → Except Error Other} {items : List Item}
    {others : List Other}

theorem map_m_eq_ok_iff :
    items.mapM f = .ok others ↔
    List.Forall₂ (fun item other => f item = .ok other) items others := by
  induction items generalizing others with
  | nil => simp [pure, Except.pure, eq_comm]
  | cons item items ih =>
      simp only [List.mapM_cons, bind_eq_ok_iff, List.forall₂_cons_left_iff, ih, pure, Except.pure,
        Except.ok.injEq, exists_and_left, eq_comm (a := others)]

theorem map_m_eq_ok_map {g : Item → Other} (each : ∀ item ∈ items, f item = .ok (g item)) :
    items.mapM f = .ok (items.map g) := by
  rw [map_m_eq_ok_iff, List.forall₂_map_right_iff, List.forall₂_same]
  exact each

theorem map_m_eq_ok_iff_map {g : Item → Other} {fits : Item → Prop}
    (each : ∀ item ∈ items, ∀ other, f item = .ok other ↔ other = g item ∧ fits item) :
    items.mapM f = .ok others ↔ others = items.map g ∧ ∀ item ∈ items, fits item := by
  rw [map_m_eq_ok_iff]
  induction items generalizing others with
  | nil => simp
  | cons item items ih =>
      obtain ⟨first, rest⟩ := List.forall_mem_cons.mp each
      rw [List.map_cons, List.forall_mem_cons]
      constructor
      · intro paired
        cases paired with | cons done others =>
        obtain ⟨rfl, fitsFirst⟩ := (first _).mp done
        obtain ⟨rfl, fitsRest⟩ := (ih rest).mp others
        exact ⟨rfl, fitsFirst, fitsRest⟩
      · intro all
        obtain ⟨rfl, fitsFirst, fitsRest⟩ := all
        exact .cons ((first _).mpr ⟨rfl, fitsFirst⟩) ((ih rest).mpr ⟨rfl, fitsRest⟩)

theorem map_m_map {Last : Type} (f : Item → Except Error Other) (g : Other → Last)
    (items : List Item) :
    items.mapM (fun item => (f item).map g) = (items.mapM f).map (List.map g) := by
  induction items with
  | nil => rfl
  | cons item items ih =>
      rw [List.mapM_cons, List.mapM_cons, ih]
      cases f item with
      | error error => rfl
      | ok result =>
          cases items.mapM f <;> rfl

theorem exists_of_paired {Pair : Item → Other → Prop} (paired : List.Forall₂ Pair items others) :
    ∀ item ∈ items, ∃ other ∈ others, Pair item other := by
  induction paired with
  | nil => simp
  | cons first _ ih =>
      intro wanted member
      rcases List.mem_cons.mp member with rfl | later
      · exact ⟨_, List.mem_cons_self, first⟩
      · obtain ⟨other, among, pair⟩ := ih wanted later
        exact ⟨other, List.mem_cons_of_mem _ among, pair⟩

theorem of_mem_map_m_ok (mapped : items.mapM f = .ok others) :
    ∀ other ∈ others, ∃ item ∈ items, f item = .ok other :=
  exists_of_paired (map_m_eq_ok_iff.mp mapped).flip

theorem exists_of_map_m_ok (mapped : items.mapM f = .ok others) :
    ∀ item ∈ items, ∃ other, f item = .ok other := by
  intro item member
  obtain ⟨other, -, done⟩ := exists_of_paired (map_m_eq_ok_iff.mp mapped) item member
  exact ⟨other, done⟩

end

variable {engine : Engine}

theorem Engine.refusal_among_eq_none_iff (branch : Branch) :
    engine.refusalAmong? branch.expressions = none ↔ engine.Takes branch :=
  List.findSome?_eq_none_iff

theorem Engine.lenient_takes (branch : Branch) : lenient.Takes branch := fun _ _ => rfl

theorem Engine.lenient_takes_all (pattern : Pattern) : lenient.TakesAll pattern :=
  fun branch _ => lenient_takes branch

namespace Branch

theorem compile_eq_ok_iff {text : Text} {mode : CaseMode} {branch : Branch} :
    Branch.compile engine text mode = .ok branch ↔
      branch.mode = mode ∧ Branch.parse text = .ok branch.glob ∧ engine.Takes branch := by
  rw [compile, bind_eq_ok_iff]
  constructor
  · intro compiled
    obtain ⟨glob, parsed, checked⟩ := compiled
    cases refusal : engine.refusalAmong? (⟨glob, mode⟩ : Branch).expressions with
    | some reason =>
        simp only [refusal] at checked
        cases checked
    | none =>
        simp only [refusal] at checked
        cases checked
        exact ⟨rfl, parsed, (engine.refusal_among_eq_none_iff _).mp refusal⟩
  · intro all
    obtain ⟨rfl, parsed, taken⟩ := all
    refine ⟨branch.glob, parsed, ?_⟩
    dsimp only
    rw [(engine.refusal_among_eq_none_iff branch).mpr taken]
    rfl

theorem parse_eq_ok_iff {text : Text} {glob : Glob} :
    Branch.parse text = .ok glob ↔ Glob.parse text = .ok glob ∧ glob.placeholders = [] := by
  rw [Branch.parse, bind_eq_ok_iff]
  constructor
  · intro parsed
    obtain ⟨result, read, checked⟩ := parsed
    split at checked
    · rename_i none
      cases checked
      exact ⟨read, none⟩
    · cases checked
  · intro both
    obtain ⟨read, none⟩ := both
    refine ⟨glob, read, ?_⟩
    rw [none]
    rfl

theorem parsed_of_compiled {texts : List Text} {mode : CaseMode} {branches : List Branch}
    (compiled : texts.mapM (Branch.compile engine · mode) = .ok branches) :
    ∀ branch ∈ branches, branch.Parsed := by
  intro branch member
  rcases of_mem_map_m_ok compiled branch member with ⟨text, -, read⟩
  exact ⟨text, (compile_eq_ok_iff.mp read).2.1⟩

theorem Parsed.proper {branch : Branch} (parsed : branch.Parsed) : branch.glob.Proper := by
  obtain ⟨text, read⟩ := parsed
  exact Glob.parse_proper (parse_eq_ok_iff.mp read).1

theorem under_parsed {base : Text} {branch result : Branch} (parsed : branch.Parsed)
    (prefixed : branch.under engine base = .ok result) : result.Parsed := by
  unfold Branch.under at prefixed
  split at prefixed
  · cases prefixed
    exact parsed
  · exact ⟨_, (compile_eq_ok_iff.mp prefixed).2.1⟩

theorem parsed_of_under {base : Text} {branches others : List Branch}
    (parsed : ∀ branch ∈ branches, branch.Parsed)
    (below : branches.mapM (Branch.under engine base) = .ok others) :
    ∀ branch ∈ others, branch.Parsed := by
  intro branch member
  obtain ⟨origin, among, prefixed⟩ := of_mem_map_m_ok below branch member
  exact under_parsed (parsed origin among) prefixed

theorem under_of_rooted {branch : Branch} (base : Text) (rooted : branch.rooted = true) :
    branch.under engine base = .ok branch :=
  if_pos rooted

end Branch

namespace Pattern

theorem of_branches_eq {branches : List Branch} (distinct : (branches.map Branch.identity).Nodup) :
    ofBranches branches = ⟨branches⟩ := congrArg Pattern.mk (distinctBy_eq_self distinct)

theorem Proper.of_branches_self {pattern : Pattern} (proper : pattern.Proper) :
    ofBranches pattern.branches = pattern := of_branches_eq proper.distinct

theorem of_branches_proper {branches : List Branch} (nonempty : branches ≠ [])
    (parsed : ∀ branch ∈ branches, branch.Parsed) : (ofBranches branches).Proper where
  nonempty := by
    intro none
    exact nonempty (distinctBy_eq_nil.mp none)
  distinct := nodup_distinctBy Branch.identity branches
  parsed := by
    intro branch member
    exact parsed branch ((distinctBy_sublist Branch.identity branches).subset member)

theorem compile_eq_ok {text : Text} {mode : CaseMode} {pattern : Pattern}
    (compiled : Pattern.compile engine text mode = .ok pattern) :
    ∃ branches, (alternatives text).mapM (Branch.compile engine · mode) = .ok branches ∧
      branches ≠ [] ∧ pattern = ofBranches branches := by
  obtain ⟨branches, mapped, checked⟩ := bind_eq_ok_iff.mp compiled
  split at checked
  · cases checked
  · rename_i nonempty
    cases checked
    exact ⟨branches, mapped, nonempty, rfl⟩

theorem compile_of_branches {text : Text} {mode : CaseMode} {branches : List Branch}
    (mapped : (alternatives text).mapM (Branch.compile engine · mode) = .ok branches)
    (nonempty : branches ≠ []) : compile engine text mode = .ok (ofBranches branches) := by
  obtain ⟨branch, branches, rfl⟩ := List.exists_cons_of_ne_nil nonempty
  rw [compile, mapped]
  rfl

theorem compile_proper {text : Text} {mode : CaseMode} {pattern : Pattern}
    (compiled : Pattern.compile engine text mode = .ok pattern) : pattern.Proper := by
  obtain ⟨branches, mapped, nonempty, rfl⟩ := compile_eq_ok compiled
  exact of_branches_proper nonempty (Branch.parsed_of_compiled mapped)

theorem compile_takes_all {text : Text} {mode : CaseMode} {pattern : Pattern}
    (compiled : Pattern.compile engine text mode = .ok pattern) : engine.TakesAll pattern := by
  obtain ⟨branches, mapped, -, rfl⟩ := compile_eq_ok compiled
  intro branch member
  obtain ⟨alternative, -, read⟩ :=
    of_mem_map_m_ok mapped branch ((distinctBy_sublist Branch.identity branches).subset member)
  exact (Branch.compile_eq_ok_iff.mp read).2.2

/-- Every branch is put below the directory, a rooted one by staying as it is. -/
theorem Proper.under_eq_ok_iff {pattern result : Pattern} (proper : pattern.Proper) (base : Text) :
    pattern.under engine base = .ok result ↔
      ∃ branches, pattern.branches.mapM (Branch.under engine (Path.normalize base)) = .ok branches ∧
        result = ofBranches branches := by
  cases rooted : pattern.rooted with
  | false =>
      rw [under, rooted, if_neg Bool.false_ne_true, bind_eq_ok_iff]
      simp only [pure, Except.pure, Except.ok.injEq, eq_comm (a := result)]
  | true =>
      have kept : pattern.branches.mapM (Branch.under engine (Path.normalize base)) =
          .ok (pattern.branches.map id) :=
        map_m_eq_ok_map fun branch member =>
          Branch.under_of_rooted (Path.normalize base) (List.all_eq_true.mp rooted branch member)
      rw [under, if_pos rooted, kept, List.map_id]
      simp [pure, Except.pure, proper.of_branches_self, eq_comm]

theorem under_proper {base : Text} {pattern result : Pattern} (proper : pattern.Proper)
    (prefixed : pattern.under engine base = .ok result) : result.Proper := by
  obtain ⟨branches, below, rfl⟩ := (proper.under_eq_ok_iff base).mp prefixed
  have sameLength := (map_m_eq_ok_iff.mp below).length_eq
  have nonempty : branches ≠ [] := by
    rw [← List.length_pos_iff, ← sameLength, List.length_pos_iff]
    exact proper.nonempty
  exact of_branches_proper nonempty (Branch.parsed_of_under proper.parsed below)

end Pattern

namespace Handle

inductive Combined (entries : List (Option Handle)) (supply : Supply) :
    Except PatternError (Handle × Supply) → Prop where
  | absorbed {first : Handle}
      (found : entries.reduceOption.find? (·.pattern.absorbing) = some first) :
      Combined entries supply (.ok (first, supply))
  | nothing (absent : entries.reduceOption = []) :
      Combined entries supply (.error .emptyCombination)
  | alone {only : Handle} (usual : entries.reduceOption.find? (·.pattern.absorbing) = none)
      (left : distinct entries.reduceOption = [only]) : Combined entries supply (.ok (only, supply))
  | several (usual : entries.reduceOption.find? (·.pattern.absorbing) = none)
      (present : entries.reduceOption ≠ [])
      (many : ∀ only, distinct entries.reduceOption ≠ [only]) :
      Combined entries supply
        (.ok
          (⟨supply.next,
            .ofBranches ((distinct entries.reduceOption).flatMap (·.pattern.branches))⟩,
          ⟨supply.next + 1⟩))

theorem combine_outcome (entries : List (Option Handle)) (supply : Supply) :
    Combined entries supply (combine entries supply) := by
  have present : entries.filterMap id = entries.reduceOption := rfl
  unfold combine
  rw [present]
  cases found : entries.reduceOption.find? (·.pattern.absorbing) with
  | some first => exact .absorbed found
  | none =>
      cases left : distinct entries.reduceOption with
      | nil => exact .nothing (distinctBy_eq_nil.mp left)
      | cons first others =>
          cases others with
          | nil => exact .alone found left
          | cons second others =>
              have some : entries.reduceOption ≠ [] := by
                intro none
                rw [none] at left
                cases left
              have several : Combined entries supply _ := .several found some (by simp [left])
              rw [left] at several
              exact several

theorem combine_proper {entries : List (Option Handle)} {before after : Supply} {handle : Handle}
    (proper : ∀ entry, some entry ∈ entries → entry.pattern.Proper)
    (united : combine entries before = .ok (handle, after)) : handle.pattern.Proper := by
  have present : ∀ entry ∈ entries.reduceOption, entry.pattern.Proper := fun entry member =>
    proper entry (List.reduceOption_mem_iff.mp member)
  have kept : ∀ entry ∈ distinct entries.reduceOption, entry.pattern.Proper := fun entry member =>
    present entry ((distinctBy_sublist _ _).subset member)
  have outcome := combine_outcome entries before
  rw [united] at outcome
  cases outcome with
  | absorbed found => exact present handle (List.mem_of_find?_eq_some found)
  | alone _ left => exact kept handle (by simp [left])
  | several _ some _ =>
      apply Pattern.of_branches_proper
      · have left : distinct entries.reduceOption ≠ [] :=
          fun none => some (distinctBy_eq_nil.mp none)
        rcases List.exists_mem_of_ne_nil _ left with ⟨entry, member⟩
        have nonempty := (kept entry member).nonempty
        intro none
        exact nonempty (List.flatMap_eq_nil_iff.mp none entry member)
      · intro branch member
        rcases List.mem_flatMap.mp member with ⟨origin, among, inside⟩
        exact (kept origin among).parsed branch inside

end Handle

theorem Pattern.Built.proper {pattern : Pattern} (built : pattern.Built) : pattern.Proper := by
  induction built with
  | compiled compiled => exact compile_proper compiled
  | under inner prefixed ih => exact under_proper ih prefixed
  | combined inner united ih => exact Handle.combine_proper ih united

end PathGlob
