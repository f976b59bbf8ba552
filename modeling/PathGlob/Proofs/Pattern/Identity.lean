import PathGlob.Proofs.Glob.Canonical
import PathGlob.Proofs.Pattern.Built
import PathGlob.Walk

/-!
# Equal patterns are interchangeable

Patterns are compared by the canonical texts and the case modes of their branches, never by the
expressions and selectors made from them. A branch is read back from its canonical text, so nothing
is lost: equal patterns match, print and walk alike, and the text of a pattern spells it again.
-/
namespace PathGlob

set_option autoImplicit false

theorem Part.Proper.semicolon_not_mem {part : Part} (proper : part.Proper) : ';' ∉ part.print := by
  intro member
  cases part with
  | star => simp [Part.print] at member
  | literal run => exact absurd (proper.plain ';' member) (by decide)
  | oneOf characters =>
      have inside : ';' ∈ characters := by simpa [Part.print] using member
      exact absurd (proper.plain ';' inside) (by decide)
  | placeholder name =>
      have inside : ';' ∈ name := by simpa [Part.print] using member
      exact absurd (proper.2 ';' inside) (by decide)

theorem Component.Proper.semicolon_not_mem {component : Component} (proper : component.Proper) :
    ';' ∉ component.print := by
  intro member
  cases component with
  | literal text => exact absurd (proper.spelled ';' member) (by decide)
  | compound parts =>
      obtain ⟨part, among, inside⟩ := List.mem_flatMap.mp member
      exact (proper.spelled.2 part among).semicolon_not_mem inside
  | globstar => simp [Component.print] at member

theorem Glob.Proper.semicolon_not_mem {glob : Glob} (proper : glob.Proper) : ';' ∉ glob.print := by
  obtain ⟨rooted, components⟩ := glob
  obtain ⟨component, components, rfl⟩ := List.exists_cons_of_ne_nil proper.nonempty
  have first := (proper.components component List.mem_cons_self).semicolon_not_mem
  have others : ';' ∉ Path.slashed (components.map Component.print) := by
    intro member
    obtain ⟨text, among, inside⟩ := List.mem_flatMap.mp member
    obtain ⟨other, member, rfl⟩ := List.mem_map.mp among
    have free := (proper.components other (List.mem_cons_of_mem _ member)).semicolon_not_mem
    simp [free] at inside
  rw [print_cons]
  cases rooted <;> simp [first, others]

theorem Glob.Proper.print_ne_nil {glob : Glob} (proper : glob.Proper) : glob.print ≠ [] := by
  obtain ⟨rooted, components⟩ := glob
  obtain ⟨component, components, rfl⟩ := List.exists_cons_of_ne_nil proper.nonempty
  obtain ⟨first, rest, starts, -⟩ := (proper.components component List.mem_cons_self).print_starts
  simp [print_cons, starts]

namespace Branch

variable {engine : Engine} {branch : Branch}

theorem Parsed.canonical (parsed : branch.Parsed) : branch.glob.Canonical := by
  obtain ⟨text, read⟩ := parsed
  exact Glob.parse_canonical (parse_eq_ok_iff.mp read).1

theorem Parsed.plain (parsed : branch.Parsed) : branch.glob.placeholders = [] := by
  obtain ⟨text, read⟩ := parsed
  exact (parse_eq_ok_iff.mp read).2

theorem Parsed.text_eq (parsed : branch.Parsed) : branch.text = branch.glob.print := by
  rw [text, Glob.text, parsed.canonical.anonymous_eq_self parsed.plain]

theorem Parsed.parse_text (parsed : branch.Parsed) : parse branch.text = .ok branch.glob := by
  rw [parsed.text_eq]
  exact parse_eq_ok_iff.mpr ⟨parsed.canonical.parse_print, parsed.plain⟩

theorem Parsed.compile_text (parsed : branch.Parsed) (taken : engine.Takes branch) :
    compile engine branch.text branch.mode = .ok branch :=
  compile_eq_ok_iff.mpr ⟨rfl, parsed.parse_text, taken⟩

theorem Parsed.eq_of_identity {left right : Branch} (leftParsed : left.Parsed)
    (rightParsed : right.Parsed) (same : left.identity = right.identity) : left = right := by
  obtain ⟨sameText, sameMode⟩ := Prod.mk.injEq .. ▸ same
  have leftCompiled := leftParsed.compile_text (Engine.lenient_takes left)
  rw [sameText, sameMode, rightParsed.compile_text (Engine.lenient_takes right)] at leftCompiled
  exact (Except.ok.inj leftCompiled).symm

/-- Dropping repeated branches loses none. -/
theorem mem_distinct_iff {branches : List Branch} (parsed : ∀ branch ∈ branches, branch.Parsed)
    (branch : Branch) :
    branch ∈ distinct branches ↔ branch ∈ branches := by
  have kept : distinct branches ⊆ branches := (distinctBy_sublist identity branches).subset
  constructor
  · exact fun member => kept member
  · intro member
    have named := (key_mem_distinctBy identity branches _).mpr (List.mem_map_of_mem member)
    rcases List.mem_map.mp named with ⟨other, among, same⟩
    rw [← (parsed other (kept among)).eq_of_identity (parsed branch member) same]
    exact among

end Branch

namespace Pattern

variable {engine : Engine}

theorem alternatives_join_with {texts : List Text} (nonempty : texts ≠ [])
    (filled : ∀ text ∈ texts, text ≠ []) (free : ∀ text ∈ texts, ';' ∉ text) :
    alternatives (Text.joinWith ';' texts) = texts := by
  have pieces : Text.split (· == ';') (Text.joinWith ';' texts) = texts := by
    apply Path.split_join_with rfl nonempty
    intro text member character inside
    rw [beq_eq_false_iff_ne]
    rintro rfl
    exact free text member inside
  rw [alternatives, pieces]
  apply List.filter_eq_self.mpr
  simpa using filled

theorem text_single (branch : Branch) : (⟨[branch]⟩ : Pattern).text = branch.text := by
  rw [text, List.map_singleton]
  exact List.intercalate_singleton

theorem Proper.single {branch : Branch} (parsed : branch.Parsed) : Proper ⟨[branch]⟩ where
  nonempty := List.cons_ne_nil _ _
  parsed := List.forall_mem_singleton.mpr parsed
  distinct := List.nodup_singleton _

theorem of_branches_matches {branches : List Branch} (parsed : ∀ branch ∈ branches, branch.Parsed)
    (path : Text) :
    (ofBranches branches).matchesPath path =
      branches.any (·.matchesPath (Path.normalize path)) := by
  rw [matchesPath, ofBranches, Bool.eq_iff_iff, List.any_eq_true, List.any_eq_true]
  simp only [Branch.mem_distinct_iff parsed]

theorem compile_mode {text : Text} {mode : CaseMode} {pattern : Pattern}
    (compiled : compile engine text mode = .ok pattern) :
    ∀ branch ∈ pattern.branches, branch.mode = mode := by
  obtain ⟨branches, mapped, -, rfl⟩ := compile_eq_ok compiled
  intro branch member
  obtain ⟨alternative, -, read⟩ :=
    of_mem_map_m_ok mapped branch ((distinctBy_sublist Branch.identity branches).subset member)
  exact (Branch.compile_eq_ok_iff.mp read).1

theorem map_m_compile_eq_ok_iff {texts : List Text} {mode : CaseMode} {branches : List Branch} :
    texts.mapM (Branch.compile engine · mode) = .ok branches ↔
      texts.mapM (Branch.compile .lenient · mode) = .ok branches ∧
        ∀ branch ∈ branches, engine.Takes branch := by
  simp only [map_m_eq_ok_iff, Branch.compile_eq_ok_iff]
  constructor
  · intro each
    refine ⟨each.imp fun _ branch all => ⟨all.1, all.2.1, Engine.lenient_takes branch⟩, ?_⟩
    intro branch member
    obtain ⟨text, -, all⟩ := exists_of_paired each.flip branch member
    exact all.2.2
  · intro both
    obtain ⟨each, taken⟩ := both
    induction each with
    | nil => exact .nil
    | cons first _ ih =>
        obtain ⟨takenFirst, takenRest⟩ := List.forall_mem_cons.mp taken
        exact .cons ⟨first.1, first.2.1, takenFirst⟩ (ih takenRest)

/-- An engine decides whether a text is compiled, and never what it is compiled to. -/
theorem compile_eq_ok_iff_lenient {text : Text} {mode : CaseMode} {pattern : Pattern} :
    compile engine text mode = .ok pattern ↔
      compile .lenient text mode = .ok pattern ∧ engine.TakesAll pattern := by
  constructor
  · intro compiled
    refine ⟨?_, compile_takes_all compiled⟩
    obtain ⟨branches, mapped, nonempty, rfl⟩ := compile_eq_ok compiled
    exact compile_of_branches (map_m_compile_eq_ok_iff.mp mapped).1 nonempty
  · intro both
    obtain ⟨compiled, taken⟩ := both
    obtain ⟨branches, mapped, nonempty, rfl⟩ := compile_eq_ok compiled
    have members := Branch.mem_distinct_iff (Branch.parsed_of_compiled mapped)
    refine compile_of_branches (map_m_compile_eq_ok_iff.mpr ⟨mapped, ?_⟩) nonempty
    exact fun branch member => taken branch ((members branch).mpr member)

theorem compile_eq_ok_iff_of_lenient {text : Text} {mode : CaseMode} {pattern : Pattern}
    (compiled : compile .lenient text mode = .ok pattern) (result : Pattern) :
    compile engine text mode = .ok result ↔ result = pattern ∧ engine.TakesAll pattern := by
  rw [compile_eq_ok_iff_lenient, compiled, Except.ok.injEq, eq_comm]
  exact and_congr_right fun same => same ▸ Iff.rfl

namespace Proper

variable {pattern : Pattern}

theorem alternatives_text (proper : pattern.Proper) :
    alternatives pattern.text = pattern.branches.map Branch.text := by
  apply alternatives_join_with
  · simpa using proper.nonempty
  · intro text member
    obtain ⟨branch, among, rfl⟩ := List.mem_map.mp member
    rw [(proper.parsed branch among).text_eq]
    exact (proper.parsed branch among).proper.print_ne_nil
  · intro text member
    obtain ⟨branch, among, rfl⟩ := List.mem_map.mp member
    rw [(proper.parsed branch among).text_eq]
    exact (proper.parsed branch among).proper.semicolon_not_mem

theorem compile_text (proper : pattern.Proper) {mode : CaseMode}
    (uniform : ∀ branch ∈ pattern.branches, branch.mode = mode) (taken : engine.TakesAll pattern) :
    compile engine pattern.text mode = .ok pattern := by
  have each : ∀ branch ∈ pattern.branches, Branch.compile engine branch.text mode = .ok branch := by
    intro branch member
    rw [← uniform branch member]
    exact (proper.parsed branch member).compile_text (taken branch member)
  have read : (alternatives pattern.text).mapM (Branch.compile engine · mode) =
      .ok pattern.branches := by
    rw [proper.alternatives_text, List.mapM_map, Function.comp_def, map_m_eq_ok_map each,
      List.map_id']
  rw [compile_of_branches read proper.nonempty, of_branches_eq proper.distinct]

theorem map_compile_identity (proper : pattern.Proper) :
    (pattern.branches.map Branch.identity).map
        (fun identity => Branch.compile .lenient identity.1 identity.2) =
      pattern.branches.map .ok := by
  rw [List.map_map]
  exact List.map_congr_left fun branch member =>
    (proper.parsed branch member).compile_text (Engine.lenient_takes branch)

/--
Equal patterns are one pattern: their branches are read from the same texts in the same modes.
-/
theorem eq_of_equal {left right : Pattern} (leftProper : left.Proper) (rightProper : right.Proper)
    (equal : left.equal right = true) : left = right := by
  have identities : left.branches.map Branch.identity = right.branches.map Branch.identity :=
    beq_iff_eq.mp equal
  have branches := congrArg
    (List.map fun identity => Branch.compile .lenient identity.1 identity.2) identities
  rw [leftProper.map_compile_identity, rightProper.map_compile_identity] at branches
  exact congrArg Pattern.mk (List.map_injective_iff.mpr (fun _ _ => Except.ok.inj) branches)

end Proper

structure Interchangeable (left right : Pattern) : Prop where
  texts : left.branches.map Branch.text = right.branches.map Branch.text
  text : left.text = right.text
  regex : left.regex = right.regex
  rooted : left.rooted = right.rooted
  absorbing : left.absorbing = right.absorbing
  matching : ∀ path, left.matchesPath path = right.matchesPath path
  walks : ∀ filesystem start, Walk.begin left filesystem start = Walk.begin right filesystem start

theorem Interchangeable.refl (pattern : Pattern) : pattern.Interchangeable pattern :=
  ⟨rfl, rfl, rfl, rfl, rfl, fun _ => rfl, fun _ _ => rfl⟩

/--
The text of a compiled pattern spells it again in its case mode, and patterns that compare equal are
interchangeable, whichever way they were built.
-/
theorem canonical_text_complete :
    (∀ engine text mode pattern, compile engine text mode = .ok pattern →
      ∃ again, compile engine pattern.text mode = .ok again ∧ again.equal pattern = true ∧
        again.Interchangeable pattern) ∧
    (∀ left right : Pattern, left.Built → right.Built → left.equal right = true →
      left.Interchangeable right) := by
  constructor
  · intro engine text mode pattern compiled
    have spelled := (compile_proper compiled).compile_text (compile_mode compiled)
      (compile_takes_all compiled)
    exact ⟨pattern, spelled, beq_self_eq_true pattern.identity, .refl pattern⟩
  · intro left right leftBuilt rightBuilt equal
    obtain rfl := leftBuilt.proper.eq_of_equal rightBuilt.proper equal
    exact .refl left

/--
The text `a\*;./a/*` read twice over, and the pattern `a/*` against the pattern `*` below the
directory `a`.
-/
theorem canonical_text_complete_prefixed :
    (∃ again, compile .lenient ['a', '/', '*'] .insensitive = .ok again ∧
      again.Interchangeable ⟨[⟨⟨false, [.literal ['a'], .compound [.star]]⟩, .insensitive⟩]⟩) ∧
    ∃ prefixed,
      Pattern.under .lenient ['a'] ⟨[⟨⟨false, [.compound [.star]]⟩, .sensitive⟩]⟩ = .ok prefixed ∧
      prefixed.Interchangeable ⟨[⟨⟨false, [.literal ['a'], .compound [.star]]⟩, .sensitive⟩]⟩ := by
  have spelled : compile .lenient ['a', '\\', '*', ';', '.', '/', 'a', '/', '*'] .insensitive =
      .ok ⟨[⟨⟨false, [.literal ['a'], .compound [.star]]⟩, .insensitive⟩]⟩ := by decide +kernel
  have below :
      compile .lenient ['*'] .sensitive = .ok ⟨[⟨⟨false, [.compound [.star]]⟩, .sensitive⟩]⟩ := by
    decide +kernel
  have whole : compile .lenient ['a', '/', '*'] .sensitive =
      .ok ⟨[⟨⟨false, [.literal ['a'], .compound [.star]]⟩, .sensitive⟩]⟩ := by decide +kernel
  have prefixed : Pattern.under .lenient ['a'] ⟨[⟨⟨false, [.compound [.star]]⟩, .sensitive⟩]⟩ =
      .ok ⟨[⟨⟨false, [.literal ['a'], .compound [.star]]⟩, .sensitive⟩]⟩ := by decide +kernel
  constructor
  · obtain ⟨again, compiled, -, same⟩ := canonical_text_complete.1 _ _ _ _ spelled
    exact ⟨again, compiled, same⟩
  · exact ⟨_, prefixed,
      canonical_text_complete.2 _ _ (.under (.compiled below) prefixed) (.compiled whole)
        (by decide)⟩

end Pattern

end PathGlob
