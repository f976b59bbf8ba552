import PathGlob.Proofs.Glob.Acceptance

/-!
# How the segments of a path are divided

Accepting a path leaves open which wildcard took what. A division settles it: it lists, from left to
right, the segments that each `**` took and the characters that each `*` and each placeholder took.
Literals, lists and a final suffix take what is left to them, so the choices determine the rest.
Divisions of one path are ordered by their first difference, more segments before fewer and fewer
characters before more.
-/
namespace PathGlob

set_option autoImplicit false

/-- What `**`, a `*` or a placeholder takes. -/
inductive Choice where
  | segments (taken : List Text)
  | characters (name? : Option Text) (taken : Text)

namespace Choice

/-- Whether one choice is preferred to another in its place. -/
def Before : Choice → Choice → Prop
  | .segments left, .segments right => right.length < left.length
  | .characters _ left, .characters _ right => left.length < right.length
  | _, _ => False

def capture? : Choice → Option (Text × Text)
  | .characters (some name) taken => some (name, taken)
  | _ => none

end Choice

def captured (choices : List Choice) : List (Text × Text) := choices.filterMap Choice.capture?

@[simp] theorem captured_nil : captured [] = [] := rfl

@[simp] theorem captured_append (left right : List Choice) :
    captured (left ++ right) = captured left ++ captured right := List.filterMap_append

def Part.choices : Part → Text → List Choice
  | .star, taken => [.characters none taken]
  | .placeholder name, taken => [.characters (some name) taken]
  | _, _ => []

def Part.DivideAll (mode : CaseMode) : List Part → Text → List Choice → Prop
  | [], text, choices => text = [] ∧ choices = []
  | part :: parts, text, choices => ∃ stretch rest others, text = stretch ++ rest ∧
      choices = part.choices stretch ++ others ∧ part.Describes mode stretch ∧
      DivideAll mode parts rest others

/--
Whether a segment is divided between the parts of a component. In the last segment a final dot and
`*` take a suffix together, or nothing, and make no choice.
-/
inductive Component.Divides (mode : CaseMode) : Bool → List Part → Text → List Choice → Prop where
  | whole {isLast : Bool} {parts : List Part} {segment : Text} {choices : List Choice}
      (plain : isLast = true → ∀ before stem, parts ≠ before ++ [.literal (stem ++ ['.']), .star])
      (divided : Part.DivideAll mode parts segment choices) :
      Divides mode isLast parts segment choices
  | suffixed {before : List Part} {stem bare suffix : Text} {choices : List Choice}
      (divided : Part.DivideAll mode (before ++ [.literal stem]) bare choices)
      (isSuffix : IsSuffix suffix) :
      Divides mode true (before ++ [.literal (stem ++ ['.']), .star]) (bare ++ suffix) choices

/-- Whether segments are divided between components. A last `**` takes one segment at least. -/
inductive Glob.Divides (mode : CaseMode) : List Component → List Text → List Choice → Prop where
  | nothing : Divides mode [] [] []
  | literal {text segment : Text} {rest : List Component} {segments : List Text}
      {choices : List Choice} (agrees : mode.Agrees text segment)
      (more : Divides mode rest segments choices) :
      Divides mode (.literal text :: rest) (segment :: segments) choices
  | compound {parts : List Part} {segment : Text} {rest : List Component} {segments : List Text}
      {first others : List Choice}
      (divided : Component.Divides mode rest.isEmpty parts segment first)
      (more : Divides mode rest segments others) :
      Divides mode (.compound parts :: rest) (segment :: segments) (first ++ others)
  | globstar {taken : List Text} {rest : List Component} {segments : List Text}
      {choices : List Choice} (some : rest = [] → taken ≠ [])
      (noColon : ∀ segment ∈ taken, ':' ∉ segment)
      (more : Divides mode rest segments choices) :
      Divides mode (.globstar :: rest) (taken ++ segments) (.segments taken :: choices)

variable {mode : CaseMode}

namespace Part

theorem describe_all_iff_divide (parts : List Part) (text : Text) :
    DescribeAll mode parts text ↔ ∃ choices, DivideAll mode parts text choices := by
  induction parts generalizing text with
  | nil => simp [DescribeAll, DivideAll]
  | cons part parts ih =>
      simp only [DescribeAll, DivideAll, ih]
      constructor
      · intro described
        obtain ⟨stretch, rest, same, first, choices, divided⟩ := described
        exact ⟨_, stretch, rest, choices, same, rfl, first, divided⟩
      · intro divided
        obtain ⟨-, stretch, rest, others, same, -, first, divided⟩ := divided
        exact ⟨stretch, rest, same, first, others, divided⟩

def Reported (segment : Text) (capture : Text × Text) : Prop :=
  capture.2 ≠ [] ∧ ':' ∉ capture.2 ∧ capture.2 ⊆ segment

theorem Reported.mono {segment other : Text} {capture : Text × Text}
    (reported : Reported segment capture) (within : segment ⊆ other) : Reported other capture :=
  ⟨reported.1, reported.2.1, List.Subset.trans reported.2.2 within⟩

theorem captured_choices (part : Part) (taken : Text) :
    captured (part.choices taken) = part.name?.toList.map (·, taken) := by
  cases part <;> rfl

theorem captured_names {parts : List Part} {text : Text} {choices : List Choice}
    (divided : DivideAll mode parts text choices) :
    (captured choices).map Prod.fst = parts.filterMap name? := by
  induction parts generalizing text choices with
  | nil =>
      rw [divided.2]
      rfl
  | cons part parts ih =>
      obtain ⟨stretch, rest, others, -, rfl, -, more⟩ := divided
      rw [captured_append, List.map_append, ih more, captured_choices]
      cases part <;> rfl

theorem captured_reported {parts : List Part} {text : Text} {choices : List Choice}
    (divided : DivideAll mode parts text choices) :
    ∀ capture ∈ captured choices, Reported text capture := by
  induction parts generalizing text choices with
  | nil =>
      rw [divided.2]
      simp
  | cons part parts ih =>
      obtain ⟨stretch, rest, others, rfl, rfl, described, more⟩ := divided
      intro capture member
      rw [captured_append, List.mem_append] at member
      rcases member with first | later
      · cases part with
        | placeholder name =>
            obtain rfl := List.mem_singleton.mp first
            exact ⟨described.1, described.2, List.subset_append_left stretch rest⟩
        | _ => cases first
      · exact (ih more capture later).mono (List.subset_append_right stretch rest)

end Part

namespace Component

theorem not_dotted_of_plain {isLast : Bool} {parts : List Part}
    (plain : (if isLast then Part.dotStar? parts else none) = none) :
    isLast = true → ∀ before stem, parts ≠ before ++ [.literal (stem ++ ['.']), .star] := by
  rintro rfl before stem same
  rw [if_pos rfl, (Part.dot_star_eq_some_iff parts before stem).mpr same] at plain
  cases plain

theorem divides_plain_iff {isLast : Bool} {parts : List Part}
    (plain : (if isLast then Part.dotStar? parts else none) = none) (segment : Text)
    (choices : List Choice) :
    Divides mode isLast parts segment choices ↔ Part.DivideAll mode parts segment choices := by
  constructor
  · intro divided
    cases divided with
    | whole _ divided => exact divided
    | suffixed => exact absurd rfl (not_dotted_of_plain plain rfl _ _)
  · exact .whole (not_dotted_of_plain plain)

theorem divides_dotted_iff {parts before : List Part} {stem : Text}
    (dotted : Part.dotStar? parts = some (before, stem)) (segment : Text) (choices : List Choice) :
    Divides mode true parts segment choices ↔ ∃ bare suffix, segment = bare ++ suffix ∧
      Part.DivideAll mode (before ++ [.literal stem]) bare choices ∧ IsSuffix suffix := by
  constructor
  · intro divided
    cases divided with
    | whole plain _ =>
        exact absurd ((Part.dot_star_eq_some_iff parts before stem).mp dotted) (plain rfl _ _)
    | suffixed divided isSuffix =>
        cases ((Part.dot_star_eq_some_iff _ _ _).mpr rfl).symm.trans dotted
        exact ⟨_, _, rfl, divided, isSuffix⟩
  · intro divided
    obtain ⟨bare, suffix, rfl, divided, isSuffix⟩ := divided
    rw [(Part.dot_star_eq_some_iff parts before stem).mp dotted]
    exact .suffixed divided isSuffix

theorem describe_segment_iff_divides (isLast : Bool) (parts : List Part) (segment : Text) :
    DescribeSegment mode isLast parts segment ↔
    ∃ choices, Divides mode isLast parts segment choices := by
  cases shape : if isLast then Part.dotStar? parts else none with
  | none =>
      simp only [divides_plain_iff shape]
      exact (describe_segment_plain_iff mode shape segment).trans
        (Part.describe_all_iff_divide parts segment)
  | some split =>
      cases isLast with
      | false => cases shape
      | true =>
          simp only [divides_dotted_iff shape, describe_segment_dotted_iff mode shape,
            Part.describe_all_iff_divide]
          constructor
          · intro described
            obtain ⟨bare, suffix, same, ⟨choices, divided⟩, isSuffix⟩ := described
            exact ⟨choices, bare, suffix, same, divided, isSuffix⟩
          · intro divided
            obtain ⟨choices, bare, suffix, same, divided, isSuffix⟩ := divided
            exact ⟨bare, suffix, same, ⟨choices, divided⟩, isSuffix⟩

theorem Divides.captured_names {isLast : Bool} {parts : List Part} {segment : Text}
    {choices : List Choice} (divided : Divides mode isLast parts segment choices) :
    (captured choices).map Prod.fst = parts.filterMap Part.name? := by
  cases divided with
  | whole _ divided => exact Part.captured_names divided
  | suffixed divided _ =>
      rw [Part.captured_names divided, List.filterMap_append, List.filterMap_append]
      rfl

theorem Divides.captured_reported {isLast : Bool} {parts : List Part} {segment : Text}
    {choices : List Choice} (divided : Divides mode isLast parts segment choices) :
    ∀ capture ∈ captured choices, Part.Reported segment capture := by
  cases divided with
  | whole _ divided => exact Part.captured_reported divided
  | suffixed divided _ =>
      intro capture member
      exact (Part.captured_reported divided capture member).mono (List.subset_append_left _ _)

end Component

namespace Glob

/-- Segments are accepted exactly if they can be divided. -/
theorem accepts_iff_divides (components : List Component) (segments : List Text) :
    Accepts mode components segments ↔ ∃ choices, Divides mode components segments choices := by
  constructor
  · intro accepts
    induction accepts with
    | nothing => exact ⟨[], .nothing⟩
    | literal agrees _ ih => exact ih.imp fun choices more => .literal agrees more
    | compound described _ ih =>
        obtain ⟨others, more⟩ := ih
        obtain ⟨first, divided⟩ := (Component.describe_segment_iff_divides ..).mp described
        exact ⟨first ++ others, .compound divided more⟩
    | @skip segment rest segments inner noColon _ ih =>
        obtain ⟨choices, divided⟩ := ih
        cases divided with
        | @globstar taken _ segments _ some free more =>
            have allFree : ∀ other ∈ segment :: taken, ':' ∉ other :=
              List.forall_mem_cons.mpr ⟨noColon, free⟩
            exact ⟨_, .globstar (fun _ => List.cons_ne_nil segment taken) allFree more⟩
    | onward inner _ ih =>
        obtain ⟨choices, more⟩ := ih
        exact ⟨.segments [] :: choices,
          .globstar (fun none => absurd none inner) (List.forall_mem_nil _) more⟩
    | last nonempty noColon =>
        have whole :=
          Divides.globstar (fun _ => nonempty) noColon (Divides.nothing : Divides mode [] [] [])
        rw [List.append_nil] at whole
        exact ⟨_, whole⟩
  · intro divides
    obtain ⟨choices, divides⟩ := divides
    induction divides with
    | nothing => exact .nothing
    | literal agrees _ ih => exact .literal agrees ih
    | compound divided _ ih =>
        exact .compound ((Component.describe_segment_iff_divides ..).mpr ⟨_, divided⟩) ih
    | @globstar taken rest segments choices some noColon more ih =>
        by_cases last : rest = []
        · subst last
          cases more
          rw [List.append_nil]
          exact .last (some rfl) noColon
        · clear some
          induction taken with
          | nil => exact .onward last ih
          | cons segment taken further =>
              obtain ⟨first, others⟩ := List.forall_mem_cons.mp noColon
              exact .skip last first (further others)

theorem not_divides_nil {components : List Component} (nonempty : components ≠ [])
    (choices : List Choice) :
    ¬Divides mode components [] choices := fun divides =>
  not_accepts_nil nonempty ((accepts_iff_divides components []).mpr ⟨choices, divides⟩)

theorem divides_nothing_iff (segments : List Text) (choices : List Choice) :
    Divides mode [] segments choices ↔ segments = [] ∧ choices = [] := by
  constructor
  · intro divides
    cases divides
    exact ⟨rfl, rfl⟩
  · rintro ⟨rfl, rfl⟩
    exact .nothing

theorem divides_literal_iff (text segment : Text) (rest : List Component) (segments : List Text)
    (choices : List Choice) : Divides mode (.literal text :: rest) (segment :: segments) choices ↔
      mode.Agrees text segment ∧ Divides mode rest segments choices := by
  constructor
  · intro divides
    cases divides with
    | literal agrees more => exact ⟨agrees, more⟩
  · intro both
    exact .literal both.1 both.2

theorem divides_compound_iff (parts : List Part) (segment : Text) (rest : List Component)
    (segments : List Text) (choices : List Choice) :
    Divides mode (.compound parts :: rest) (segment :: segments) choices ↔
      ∃ first others, choices = first ++ others ∧
        Component.Divides mode rest.isEmpty parts segment first ∧
        Divides mode rest segments others := by
  constructor
  · intro divides
    cases divides with
    | compound divided more => exact ⟨_, _, rfl, divided, more⟩
  · rintro ⟨first, others, rfl, divided, more⟩
    exact .compound divided more

theorem divides_globstar_iff (rest : List Component) (segments : List Text)
    (choices : List Choice) :
    Divides mode (.globstar :: rest) segments choices ↔
      ∃ taken others more, segments = taken ++ others ∧ choices = .segments taken :: more ∧
        (rest = [] → taken ≠ []) ∧ (∀ segment ∈ taken, ':' ∉ segment) ∧
        Divides mode rest others more := by
  constructor
  · intro divides
    cases divides with
    | globstar some noColon more => exact ⟨_, _, _, rfl, rfl, some, noColon, more⟩
  · rintro ⟨taken, others, more, rfl, rfl, some, noColon, divided⟩
    exact .globstar some noColon divided

theorem Divides.captured_names {components : List Component} {segments : List Text}
    {choices : List Choice} (divides : Divides mode components segments choices) :
    (captured choices).map Prod.fst =
      (components.flatMap Component.parts).filterMap Part.name? := by
  induction divides with
  | nothing => rfl
  | literal _ _ ih => exact ih
  | compound divided _ ih =>
      rw [captured_append, List.map_append, divided.captured_names, ih, List.flatMap_cons,
        List.filterMap_append]
      rfl
  | globstar _ _ _ ih => exact ih

theorem Divides.captured_reported {components : List Component} {segments : List Text}
    {choices : List Choice} (divides : Divides mode components segments choices) :
    ∀ capture ∈ captured choices, ∃ segment ∈ segments, Part.Reported segment capture := by
  induction divides with
  | nothing => simp
  | literal _ _ ih =>
      intro capture member
      obtain ⟨segment, among, reported⟩ := ih capture member
      exact ⟨segment, List.mem_cons_of_mem _ among, reported⟩
  | @compound _ first _ _ _ _ divided _ ih =>
      intro capture member
      rw [captured_append, List.mem_append] at member
      rcases member with here | later
      · exact ⟨first, List.mem_cons_self, divided.captured_reported capture here⟩
      · obtain ⟨segment, among, reported⟩ := ih capture later
        exact ⟨segment, List.mem_cons_of_mem _ among, reported⟩
  | globstar _ _ _ ih =>
      intro capture member
      obtain ⟨segment, among, reported⟩ := ih capture member
      exact ⟨segment, List.mem_append_right _ among, reported⟩

end Glob

end PathGlob
