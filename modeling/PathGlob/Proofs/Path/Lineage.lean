import PathGlob.Proofs.Path.Names

/-!
# The directories above a path

The lineage of a path goes up to where there is nothing above. It is closed under going up, and it
has no other path as long as the one it starts from.
-/
namespace PathGlob.Path

set_option autoImplicit false

theorem lineage_of_none {path : Text} (top : parent? path = none) : lineage path = [path] := by
  rw [lineage]
  split
  · rfl
  · rename_i parent above
    rw [top] at above
    cases above

theorem lineage_of_some {path parent : Text} (above : parent? path = some parent) :
    lineage path = path :: lineage parent := by
  rw [lineage]
  split
  · rename_i top
    rw [top] at above
    cases above
  · rename_i other same
    rw [same] at above
    cases above
    rfl

theorem mem_lineage_self (path : Text) : path ∈ lineage path := by
  rw [lineage]
  split <;> exact List.mem_cons_self

theorem length_lt_of_mem_lineage {path other : Text} (among : other ∈ lineage path) :
    other = path ∨ other.length < path.length := by
  induction path using lineage.induct with
  | case1 path top =>
      rw [lineage_of_none top] at among
      exact .inl (List.mem_singleton.mp among)
  | case2 path parent above ih =>
      rw [lineage_of_some above] at among
      have shorter := length_parent_lt above
      rcases List.mem_cons.mp among with same | higher
      · exact .inl same
      · rcases ih higher with rfl | less
        · exact .inr shorter
        · exact .inr (Nat.lt_trans less shorter)

theorem not_mem_lineage_parent {path parent : Text} (above : parent? path = some parent) :
    path ∉ lineage parent := by
  intro among
  have shorter := length_parent_lt above
  rcases length_lt_of_mem_lineage among with rfl | less <;> omega

theorem parent_mem_lineage {path other parent : Text} (among : other ∈ lineage path)
    (above : parent? other = some parent) : parent ∈ lineage path := by
  induction path using lineage.induct with
  | case1 path top =>
      rw [lineage_of_none top, List.mem_singleton] at among
      rw [among, top] at above
      cases above
  | case2 path next higher ih =>
      rw [lineage_of_some higher] at among ⊢
      rcases List.mem_cons.mp among with rfl | later
      · rw [higher] at above
        cases above
        exact List.mem_cons_of_mem _ (mem_lineage_self _)
      · exact List.mem_cons_of_mem _ (ih later)

theorem child_mem_lineage {path other : Text} (among : other ∈ lineage path)
    (higher : other ≠ path) :
    ∃ child ∈ lineage path, parent? child = some other := by
  induction path using lineage.induct with
  | case1 path top =>
      rw [lineage_of_none top] at among
      exact absurd (List.mem_singleton.mp among) higher
  | case2 path parent above ih =>
      rw [lineage_of_some above] at among ⊢
      by_cases same : other = parent
      · exact ⟨path, List.mem_cons_self, same ▸ above⟩
      · rcases ih ((List.mem_cons.mp among).resolve_left higher) same with ⟨child, inside, below⟩
        exact ⟨child, List.mem_cons_of_mem _ inside, below⟩

end PathGlob.Path
