/-!
# The first of each key

`distinctBy key` keeps, of the items that agree on a key, the first. Branches of a pattern, patterns
of a combination and threads of a search are all thinned out this way. The lemmas say that the items
stay in order, that no key is lost and that none is left twice.
-/
namespace PathGlob

set_option autoImplicit false

variable {Item Key : Type} [DecidableEq Key]

/-- The items whose key is not among `seen` nor that of an item before them. -/
def distinctFrom (key : Item → Key) (seen : List Key) : List Item → List Item
  | [] => []
  | item :: rest =>
    if key item ∈ seen then distinctFrom key seen rest
    else item :: distinctFrom key (key item :: seen) rest

def distinctBy (key : Item → Key) (items : List Item) : List Item := distinctFrom key [] items

theorem distinctFrom_sublist (key : Item → Key) (seen : List Key) (items : List Item) :
    (distinctFrom key seen items).Sublist items := by
  induction items generalizing seen with
  | nil => simp [distinctFrom]
  | cons item rest ih =>
      rw [distinctFrom]
      split
      · exact (ih seen).cons item
      · exact (ih _).cons_cons item

theorem key_mem_distinctFrom (key : Item → Key) (seen : List Key) (items : List Item)
    (wanted : Key) : wanted ∈ (distinctFrom key seen items).map key ↔
      wanted ∉ seen ∧ wanted ∈ items.map key := by
  induction items generalizing seen with
  | nil => simp [distinctFrom]
  | cons item rest ih =>
      rw [distinctFrom]
      split
      · rename_i known
        rw [ih, List.map_cons, List.mem_cons]
        constructor
        · intro both
          rcases both with ⟨fresh, member⟩
          exact ⟨fresh, .inr member⟩
        · intro both
          rcases both with ⟨fresh, rfl | member⟩
          · exact absurd known fresh
          · exact ⟨fresh, member⟩
      · rename_i unknown
        rw [List.map_cons, List.mem_cons, ih, List.map_cons, List.mem_cons, List.mem_cons]
        constructor
        · intro either
          rcases either with rfl | ⟨fresh, member⟩
          · exact ⟨unknown, .inl rfl⟩
          · exact ⟨fun old => fresh (.inr old), .inr member⟩
        · intro both
          rcases both with ⟨fresh, rfl | member⟩
          · exact .inl rfl
          · by_cases same : wanted = key item
            · exact .inl same
            · exact .inr ⟨fun old => old.elim same fresh, member⟩

theorem nodup_distinctFrom (key : Item → Key) (seen : List Key) (items : List Item) :
    ((distinctFrom key seen items).map key).Nodup := by
  induction items generalizing seen with
  | nil => simp [distinctFrom]
  | cons item rest ih =>
      rw [distinctFrom]
      split
      · exact ih seen
      · rw [List.map_cons, List.nodup_cons, key_mem_distinctFrom]
        exact ⟨fun member => member.1 (List.mem_cons_self ..), ih _⟩

theorem distinctBy_sublist (key : Item → Key) (items : List Item) :
    (distinctBy key items).Sublist items := distinctFrom_sublist key [] items

theorem key_mem_distinctBy (key : Item → Key) (items : List Item) (wanted : Key) :
    wanted ∈ (distinctBy key items).map key ↔ wanted ∈ items.map key := by
  simp [distinctBy, key_mem_distinctFrom]

theorem nodup_distinctBy (key : Item → Key) (items : List Item) :
    ((distinctBy key items).map key).Nodup := nodup_distinctFrom key [] items

theorem distinctFrom_eq_self {key : Item → Key} {seen : List Key} {items : List Item}
    (fresh : ∀ item ∈ items, key item ∉ seen) (nodup : (items.map key).Nodup) :
    distinctFrom key seen items = items := by
  induction items generalizing seen with
  | nil => rfl
  | cons item rest ih =>
      rw [List.map_cons, List.nodup_cons] at nodup
      rw [distinctFrom, if_neg (fresh item List.mem_cons_self), ih _ nodup.2]
      intro other member known
      rcases List.mem_cons.mp known with same | old
      · exact nodup.1 (same ▸ List.mem_map_of_mem member)
      · exact fresh other (List.mem_cons_of_mem item member) old

theorem distinctBy_eq_self {key : Item → Key} {items : List Item} (nodup : (items.map key).Nodup) :
    distinctBy key items = items := distinctFrom_eq_self (by simp) nodup

theorem map_distinctFrom {Other OtherKey : Type} [DecidableEq OtherKey] {key : Item → Key}
    {otherKey : Other → OtherKey} {f : Item → Other} {seen : List Key} {otherSeen : List OtherKey}
    {items : List Item}
    (known : ∀ item ∈ items, key item ∈ seen ↔ otherKey (f item) ∈ otherSeen)
    (agree : ∀ left ∈ items, ∀ right ∈ items,
      key left = key right ↔ otherKey (f left) = otherKey (f right)) :
    (distinctFrom key seen items).map f = distinctFrom otherKey otherSeen (items.map f) := by
  induction items generalizing seen otherSeen with
  | nil => rfl
  | cons item rest ih =>
      have others : ∀ left ∈ rest, ∀ right ∈ rest,
          key left = key right ↔ otherKey (f left) = otherKey (f right) :=
        fun left isLeft right isRight =>
          agree left (List.mem_cons_of_mem _ isLeft) right (List.mem_cons_of_mem _ isRight)
      rw [List.map_cons, distinctFrom, distinctFrom]
      by_cases old : key item ∈ seen
      · rw [if_pos old, if_pos ((known item List.mem_cons_self).mp old)]
        exact ih (fun other member => known other (List.mem_cons_of_mem _ member)) others
      · rw [if_neg old, if_neg (mt (known item List.mem_cons_self).mpr old), List.map_cons]
        refine congrArg _ (ih (fun other member => ?_) others)
        rw [List.mem_cons, List.mem_cons, known other (List.mem_cons_of_mem _ member),
          agree other (List.mem_cons_of_mem _ member) item List.mem_cons_self]

theorem map_distinctBy {Other OtherKey : Type} [DecidableEq OtherKey] {key : Item → Key}
    {otherKey : Other → OtherKey} {f : Item → Other} {items : List Item}
    (agree : ∀ left ∈ items, ∀ right ∈ items,
      key left = key right ↔ otherKey (f left) = otherKey (f right)) :
    (distinctBy key items).map f = distinctBy otherKey (items.map f) :=
  map_distinctFrom (by simp) agree

/--
The first success among items is the first among those kept, if one key succeeds or fails as one.
-/
theorem find_some_distinctFrom {Result : Type} {key : Item → Key} {seen : List Key}
    {items : List Item} {next : Item → Option Result}
    (failed : ∀ item ∈ items, key item ∈ seen → next item = none)
    (agree : ∀ left ∈ items, ∀ right ∈ items,
      key left = key right → (next left).isSome = (next right).isSome) :
    (distinctFrom key seen items).findSome? next = items.findSome? next := by
  induction items generalizing seen with
  | nil => rfl
  | cons item rest ih =>
      obtain ⟨firstFailed, restFailed⟩ := List.forall_mem_cons.mp failed
      have restAgree : ∀ left ∈ rest, ∀ right ∈ rest,
          key left = key right → (next left).isSome = (next right).isSome :=
        fun left isLeft right isRight =>
          agree left (List.mem_cons_of_mem _ isLeft) right (List.mem_cons_of_mem _ isRight)
      rw [distinctFrom]
      split
      · rename_i known
        rw [List.findSome?_cons, firstFailed known]
        exact ih restFailed restAgree
      · rw [List.findSome?_cons, List.findSome?_cons]
        cases first : next item with
        | some result => rfl
        | none =>
            apply ih _ restAgree
            intro other member known
            rcases List.mem_cons.mp known with same | old
            · have both := agree other (List.mem_cons_of_mem _ member) item List.mem_cons_self same
              rw [first, Option.isSome_none] at both
              exact Option.isSome_eq_false_iff.mp both |> Option.isNone_iff_eq_none.mp
            · exact restFailed other member old

theorem find_some_distinctBy {Result : Type} {key : Item → Key} {items : List Item}
    {next : Item → Option Result}
    (agree : ∀ left ∈ items, ∀ right ∈ items,
      key left = key right → (next left).isSome = (next right).isSome) :
    (distinctBy key items).findSome? next = items.findSome? next :=
  find_some_distinctFrom (by simp) agree

theorem distinctBy_eq_nil {key : Item → Key} {items : List Item} :
    distinctBy key items = [] ↔ items = [] := by
  cases items <;> simp [distinctBy, distinctFrom]

theorem distinctFrom_congr {key : Item → Key} {seen other : List Key}
    (same : ∀ wanted, wanted ∈ seen ↔ wanted ∈ other) (items : List Item) :
    distinctFrom key seen items = distinctFrom key other items := by
  induction items generalizing seen other with
  | nil => rfl
  | cons item rest ih =>
      rw [distinctFrom, distinctFrom]
      have further : ∀ wanted, wanted ∈ key item :: seen ↔ wanted ∈ key item :: other := by
        intro wanted
        rw [List.mem_cons, List.mem_cons, same]
      rw [ih same, ih further]
      simp only [same]

theorem distinctFrom_append (key : Item → Key) (seen : List Key) (left right : List Item) :
    distinctFrom key seen (left ++ right) =
      distinctFrom key seen left ++ distinctFrom key (left.map key ++ seen) right := by
  induction left generalizing seen with
  | nil => rfl
  | cons item left ih =>
      rw [List.cons_append, distinctFrom, distinctFrom]
      split
      · rename_i known
        rw [ih]
        apply congrArg (distinctFrom key seen left ++ ·)
        apply distinctFrom_congr
        intro wanted
        simp only [List.map_cons, List.cons_append, List.mem_cons]
        constructor
        · exact .inr
        · intro either
          rcases either with same | old
          · exact List.mem_append_right _ (same ▸ known)
          · exact old
      · rw [ih, List.cons_append]
        apply congrArg (item :: distinctFrom key (key item :: seen) left ++ ·)
        apply distinctFrom_congr
        intro wanted
        simp only [List.map_cons, List.cons_append, List.mem_cons, List.mem_append]
        exact or_left_comm

theorem distinctFrom_eq_nil {key : Item → Key} {seen : List Key} {items : List Item}
    (known : ∀ item ∈ items, key item ∈ seen) : distinctFrom key seen items = [] := by
  induction items with
  | nil => rfl
  | cons item rest ih =>
      rw [distinctFrom, if_pos (known item List.mem_cons_self)]
      exact ih fun other member => known other (List.mem_cons_of_mem item member)

/-- Thinning out twice is thinning out once, with all that was seen either time. -/
theorem distinctFrom_distinctFrom (key : Item → Key) {seen other : List Key}
    (less : ∀ wanted ∈ other, wanted ∈ seen) (items : List Item) :
    distinctFrom key seen (distinctFrom key other items) = distinctFrom key seen items := by
  induction items generalizing seen other with
  | nil => rfl
  | cons item rest ih =>
      rw [distinctFrom]
      split
      · rename_i known
        rw [ih less, distinctFrom, if_pos (less _ known)]
      · rw [distinctFrom, distinctFrom]
        split
        · rename_i old
          apply ih
          intro wanted member
          rcases List.mem_cons.mp member with same | before
          · exact same ▸ old
          · exact less wanted before
        · apply congrArg (item :: ·)
          apply ih
          intro wanted member
          rcases List.mem_cons.mp member with same | before
          · exact List.mem_cons.mpr (.inl same)
          · exact List.mem_cons_of_mem _ (less wanted before)

theorem distinctBy_flatMap_distinctBy {Group : Type} (key : Item → Key) (f : Group → List Item)
    (groups : List Group) :
    distinctBy key (groups.flatMap fun group => distinctBy key (f group)) =
      distinctBy key (groups.flatMap f) := by
  suffices general :
      ∀ seen, distinctFrom key seen (groups.flatMap fun group => distinctBy key (f group)) =
      distinctFrom key seen (groups.flatMap f) from general []
  induction groups with
  | nil => exact fun _ => rfl
  | cons group groups ih =>
      intro seen
      have same : ∀ wanted, wanted ∈ (distinctBy key (f group)).map key ++ seen ↔
          wanted ∈ (f group).map key ++ seen := by
        intro wanted
        rw [List.mem_append, List.mem_append, key_mem_distinctBy]
      rw [List.flatMap_cons, List.flatMap_cons, distinctFrom_append, distinctFrom_append,
        distinctBy, distinctFrom_distinctFrom key (by simp), ← distinctBy,
        distinctFrom_congr same, ih]

/-- Groups that add no key to an earlier one with their name can be left out. -/
theorem distinctBy_flatMap_of_distinctBy {Group Name : Type} [DecidableEq Name] {key : Item → Key}
    {name : Group → Name} {f : Group → List Item} {groups : List Group}
    (agree : ∀ left ∈ groups, ∀ right ∈ groups, name left = name right →
      ∀ item ∈ f left, key item ∈ (f right).map key) :
    distinctBy key ((distinctBy name groups).flatMap f) = distinctBy key (groups.flatMap f) := by
  suffices general : ∀ (known : List Name) (seen : List Key),
      (∀ group ∈ groups, name group ∈ known → ∀ item ∈ f group, key item ∈ seen) →
        distinctFrom key seen ((distinctFrom name known groups).flatMap f) =
          distinctFrom key seen (groups.flatMap f) from general [] [] (by simp)
  induction groups with
  | nil => exact fun _ _ _ => rfl
  | cons group groups ih =>
      have others := ih fun left isLeft right isRight =>
        agree left (List.mem_cons_of_mem _ isLeft) right (List.mem_cons_of_mem _ isRight)
      intro known seen covered
      rw [distinctFrom, List.flatMap_cons, distinctFrom_append]
      split
      · rename_i old
        have inSeen := covered group List.mem_cons_self old
        have absorbed : ∀ wanted, wanted ∈ (f group).map key ++ seen ↔ wanted ∈ seen := by
          intro wanted
          rw [List.mem_append, or_iff_right_of_imp]
          intro member
          rcases List.mem_map.mp member with ⟨item, among, same⟩
          exact same ▸ inSeen item among
        rw [distinctFrom_eq_nil inSeen, List.nil_append, distinctFrom_congr absorbed]
        exact others known seen fun other member => covered other (List.mem_cons_of_mem _ member)
      · rw [List.flatMap_cons, distinctFrom_append]
        apply congrArg (distinctFrom key seen (f group) ++ ·)
        apply others
        intro other member named item inside
        rcases List.mem_cons.mp named with same | old
        · exact List.mem_append_left _
            (agree other (List.mem_cons_of_mem _ member) group List.mem_cons_self same item inside)
        · exact List.mem_append_right _
            (covered other (List.mem_cons_of_mem _ member) old item inside)

end PathGlob
