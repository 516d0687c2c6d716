-- Fields by name and by place. A decoded document may be an array wherever an object is due, but
-- an array means what the object of its fields means.
import Permit.Proofs.Shape

namespace Permit.Criteria

open Json

variable {α : Type}

/-! ## Fields by name -/

/-- The value gives the fields by name. -/
def Names (fields : List (String × Value)) (v : Value) : Prop := ∃ ms, v = .obj ms ∧ ms.Perm fields

mutual

/-- The node with its fields by name, where it gives them by place. -/
def byName : Value → Value
  | .obj [(name, .arr items)] => .obj [(name, .arr (conjunctionsByName items))]
  | .arr [.arr items] => anyOf (conjunctionsByName items)
  | .arr [.str rule] => .obj [("rule", .str rule)]
  | .arr [.str rule, params] => .obj [("rule", .str rule), ("params", params)]
  | v => v

/-- The conjunction with its fields by name. -/
def conjunctionByName : Value → Value
  | .obj [(name, .arr items)] => .obj [(name, .arr (nodesByName items))]
  | .arr [.arr items] => allOf (nodesByName items)
  | v => v

def conjunctionsByName : List Value → List Value
  | [] => []
  | v :: rest => conjunctionByName v :: conjunctionsByName rest

def nodesByName : List Value → List Value
  | [] => []
  | v :: rest => byName v :: nodesByName rest

end

theorem conjunctionsByName_eq (vs : List Value) :
    conjunctionsByName vs = vs.map conjunctionByName := by
  induction vs with
  | nil => rfl
  | cons v rest ih => rw [conjunctionsByName, ih, List.map_cons]

theorem nodesByName_eq (vs : List Value) : nodesByName vs = vs.map byName := by
  induction vs with
  | nil => rfl
  | cons v rest ih => rw [nodesByName, ih, List.map_cons]

/-! ## What is named -/

theorem gives_of_names {fields : List (String × Value)} {v : Value} (h : Names fields v) :
    Gives fields v := by
  obtain ⟨ms, rfl, same⟩ := h
  exact .named same

theorem byName_of_gives {vs : List Value} {v : Value} (h : Gives [("anyOf", .arr vs)] v) :
    byName v = anyOf (vs.map conjunctionByName) := by
  rcases gives_one_iff.1 h with rfl | rfl <;> simp [byName, conjunctionsByName_eq, anyOf]

theorem conjunctionByName_of_gives {vs : List Value} {v : Value}
    (h : Gives [("allOf", .arr vs)] v) : conjunctionByName v = allOf (vs.map byName) := by
  rcases gives_one_iff.1 h with rfl | rfl <;> simp [conjunctionByName, nodesByName_eq, allOf]

/-- An object that gives one field has it as its only member. -/
theorem object_of_gives {name : String} {x v : Value} (h : Gives [(name, x)] v)
    (object : ∃ ms, v = .obj ms) : v = .obj [(name, x)] := by
  obtain ⟨ms, rfl⟩ := object
  rcases gives_one_iff.1 h with same | other
  · exact same
  · cases other

theorem names_one (name : String) (x : Value) : Names [(name, x)] (.obj [(name, x)]) :=
  ⟨_, rfl, .refl _⟩

/-- An object with a rule stays as it is. -/
theorem byName_of_rule {fields ms : List (String × Value)} {rule : String}
    (h : ms.Perm (("rule", .str rule) :: fields)) : byName (.obj ms) = .obj ms := by
  have inside : ("rule", Value.str rule) ∈ ms := h.mem_iff.2 List.mem_cons_self
  -- The only other object that changes has a list as its only member.
  unfold byName
  split
  · next same =>
    cases same
    simp at inside
  · next same => cases same
  · next same => cases same
  · next same => cases same
  · rfl

theorem isCondition_byName {v : Value} {k : Condition} (h : IsCondition Gives v k) :
    IsCondition Names (byName v) k := by
  cases h with
  | full given same =>
    cases given with
    | named perm =>
      rw [byName_of_rule perm]
      exact .full ⟨_, rfl, perm⟩ same
    | listed => exact .full ⟨_, rfl, .refl _⟩ same
  | bare given none =>
    cases given with
    | named perm =>
      rw [byName_of_rule perm]
      exact .bare ⟨_, rfl, perm⟩ none
    | listed => exact .bare ⟨_, rfl, .refl _⟩ none

/-! ## Whole documents -/

section Mapping

variable {gives gives' : List (String × Value) → Value → Prop} {leaf leaf' : Value → α → Prop}
  {f g : Value → Value}

/-- What a change does to each form of a value, it does to documents. -/
theorem IsNode.map
    (document : ∀ v vs, gives [("anyOf", .arr vs)] v → gives' [("anyOf", .arr (vs.map g))] (f v))
    (conjunction : ∀ v vs, gives [("allOf", .arr vs)] v →
      gives' [("allOf", .arr (vs.map f))] (g v))
    (leaves : ∀ v a, leaf v a → leaf' (f v) a) (c : Criteria α) :
    ∀ v, (IsDocument gives leaf v c → IsDocument gives' leaf' (f v) c) ∧
      (IsConjunction gives leaf v c → IsConjunction gives' leaf' (g v) c) ∧
      (IsNode gives leaf v c → IsNode gives' leaf' (f v) c) := by
  have items {R S : Value → Criteria α → Prop} {h : Value → Value} {cs : List (Criteria α)}
      (each : ∀ c ∈ cs, ∀ v, R v c → S (h v) c) {vs : List Value}
      (all : List.Forall₂ R vs cs) : List.Forall₂ S (vs.map h) cs :=
    List.forall₂_map_left_iff.2 (forall₂_imp_right each all)
  induction c with
  | leaf a =>
    refine fun v => ⟨nofun, nofun, fun h => ?_⟩
    cases h with
    | nested h => cases h
    | leaf h => exact .leaf (leaves v a h)
  | all cs ih =>
    refine fun v => ⟨nofun, fun h => ?_, fun h => ?_⟩
    · obtain ⟨given, nodes⟩ := h
      exact .mk (conjunction _ _ given) (items (fun d hd w => (ih d hd w).2.2) nodes)
    · cases h with
      | nested h => cases h
  | any cs ih =>
    have whole (v : Value) (h : IsDocument gives leaf v (any cs)) :
        IsDocument gives' leaf' (f v) (any cs) := by
      obtain ⟨given, conjunctions⟩ := h
      exact .mk (document _ _ given) (items (fun d hd w => (ih d hd w).2.1) conjunctions)
    refine fun v => ⟨whole v, nofun, fun h => ?_⟩
    cases h with
    | nested h => exact .nested (whole v h)

end Mapping

/-- What has its fields by name gives them. -/
theorem IsNode.of_names {leaf leaf' : Value → α → Prop}
    (leaves : ∀ v a, leaf v a → leaf' v a) (c : Criteria α) (v : Value) :
    (IsDocument Names leaf v c → IsDocument Gives leaf' v c) ∧
      (IsNode Names leaf v c → IsNode Gives leaf' v c) := by
  have self {name : String} (v : Value) (vs : List Value) (given : Names [(name, .arr vs)] v) :
      Gives [(name, .arr (vs.map id))] (id v) := by
    rw [List.map_id]
    exact gives_of_names given
  have whole := IsNode.map (f := id) self self leaves c v
  exact ⟨whole.1, whole.2.2⟩

theorem isCondition_of_names {v : Value} {k : Condition} (h : IsCondition Names v k) :
    IsCondition Gives v k := by
  cases h with
  | full given same => exact .full (gives_of_names given) same
  | bare given none => exact .bare (gives_of_names given) none

/-- A document whose fields are named is a document. -/
theorem isDocument_of_names {v : Value} {c : Criteria Condition}
    (h : IsDocument Names (IsCondition Names) v c) : IsDocument Gives (IsCondition Gives) v c :=
  (IsNode.of_names (fun _ _ => isCondition_of_names) c v).1 h

theorem isDocument_byName {v : Value} {c : Criteria Condition}
    (h : IsDocument Gives (IsCondition Gives) v c) :
    IsDocument Names (IsCondition Names) (byName v) c := by
  have leaves (w : Value) (k : Condition) (h : IsCondition Gives w k) :
      IsCondition Names (byName w) k := isCondition_byName h
  have document (w : Value) (vs : List Value) (given : Gives [("anyOf", .arr vs)] w) :
      Names [("anyOf", .arr (vs.map conjunctionByName))] (byName w) := by
    rw [byName_of_gives given]
    exact names_one _ _
  have conjunction (w : Value) (vs : List Value) (given : Gives [("allOf", .arr vs)] w) :
      Names [("allOf", .arr (vs.map byName))] (conjunctionByName w) := by
    rw [conjunctionByName_of_gives given]
    exact names_one _ _
  exact (IsNode.map document conjunction leaves c v).1 h

/-! ## Objects and arrays at places -/

/-- What is due at a place is an object, or an array of its fields. -/
theorem form_of_fits {p : Place} {v : Value} {c : Criteria Condition}
    (h : Fits Gives (IsCondition Gives) p v c) :
    (∃ ms, v = .obj ms) ∨ (∃ vs, v = .arr [.arr vs]) ∨
      p = .node ∧ ∃ rule, v = .arr [.str rule] ∨ ∃ vs, v = .arr [.str rule, .arr vs] := by
  have list {name : String} {vs : List Value} {w : Value} (h : Gives [(name, .arr vs)] w) :
      (∃ ms, w = .obj ms) ∨ ∃ vs, w = .arr [.arr vs] := by
    rcases gives_one_iff.1 h with rfl | rfl
    · exact .inl ⟨_, rfl⟩
    · exact .inr ⟨_, rfl⟩
  cases p with
  | document =>
    obtain ⟨given, _⟩ := h
    exact (list given).imp_right .inl
  | conjunction =>
    obtain ⟨given, _⟩ := h
    exact (list given).imp_right .inl
  | node =>
    cases h with
    | nested h =>
      obtain ⟨given, _⟩ := h
      exact (list given).imp_right .inl
    | leaf h =>
      cases h with
      | full given _ =>
        cases given with
        | named _ => exact .inl ⟨_, rfl⟩
        | listed => exact .inr (.inr ⟨rfl, _, .inr ⟨_, rfl⟩⟩)
      | bare given _ =>
        cases given with
        | named _ => exact .inl ⟨_, rfl⟩
        | listed => exact .inr (.inr ⟨rfl, _, .inl rfl⟩)

/-- What is due at a place and has its fields by name is an object. -/
theorem object_of_fits {p : Place} {v : Value} {c : Criteria Condition}
    (h : Fits Names (IsCondition Names) p v c) : ∃ ms, v = .obj ms := by
  have object {fields : List (String × Value)} {w : Value} (h : Names fields w) :
      ∃ ms, w = .obj ms := h.imp fun _ => And.left
  cases p with
  | document =>
    obtain ⟨named, _⟩ := h
    exact object named
  | conjunction =>
    obtain ⟨named, _⟩ := h
    exact object named
  | node =>
    cases h with
    | nested h =>
      obtain ⟨named, _⟩ := h
      exact object named
    | leaf h =>
      cases h with
      | full named _ => exact object named
      | bare named _ => exact object named

/-- Where a value stands at its place, each value that stands in it is an object. -/
def OfObjects (p : Place) (v : Value) : Prop := ∀ q x, Stands p v q x → ∃ ms, x = .obj ms

theorem OfObjects.self {p : Place} {v : Value} (h : OfObjects p v) : ∃ ms, v = .obj ms :=
  h p v .self

/-- A document of objects has its fields by name already. -/
theorem byName_eq_self (c : Criteria Condition) : ∀ v,
    (IsDocument Gives (IsCondition Gives) v c → OfObjects .document v → byName v = v) ∧
    (IsConjunction Gives (IsCondition Gives) v c → OfObjects .conjunction v →
      conjunctionByName v = v) ∧
    (IsNode Gives (IsCondition Gives) v c → OfObjects .node v → byName v = v) := by
  have same {f : Value → Value} {vs : List Value} (h : ∀ w ∈ vs, f w = w) : vs.map f = vs :=
    (List.map_congr_left h).trans (List.map_id vs)
  induction c with
  | leaf k =>
    refine fun v => ⟨nofun, nofun, fun h objects => ?_⟩
    obtain ⟨ms, rfl⟩ := objects.self
    cases h with
    | nested h => cases h
    | leaf h =>
      cases h with
      | full given _ =>
        obtain ⟨perm⟩ := given
        exact byName_of_rule perm
      | bare given _ =>
        obtain ⟨perm⟩ := given
        exact byName_of_rule perm
  | all cs ih =>
    refine fun v => ⟨nofun, fun h objects => ?_, fun h => by cases h with | nested h => cases h⟩
    obtain ⟨given, nodes⟩ := h
    rw [conjunctionByName_of_gives given, same fun w hw => ?_]
    · exact (object_of_gives given objects.self).symm
    · obtain ⟨d, hd, node⟩ := exists_of_mem_left nodes hw
      exact (ih d hd w).2.2 node fun q x inside => objects q x (.node given hw inside)
  | any cs ih =>
    have document (p : Place) (other : p ≠ .conjunction) {v : Value}
        (h : IsDocument Gives (IsCondition Gives) v (any cs)) (objects : OfObjects p v) :
        byName v = v := by
      obtain ⟨given, conjunctions⟩ := h
      rw [byName_of_gives given, same fun w hw => ?_]
      · exact (object_of_gives given objects.self).symm
      · obtain ⟨d, hd, conjunction⟩ := exists_of_mem_left conjunctions hw
        exact (ih d hd w).2.1 conjunction fun q x inside =>
          objects q x (.conjunction other given hw inside)
    refine fun v => ⟨document .document nofun, nofun, fun h objects => ?_⟩
    cases h with
    | nested h => exact document .node nofun h objects

/-! ## The law of places -/

/-- A value that decodes has an object, or an array of the fields that one would have, at each
place. Named, the fields mean the same: there is an object at each place then, and the named
document decodes to the same tree. It is the document itself exactly if that is of objects. -/
theorem an_array_means_what_its_fields_mean {v : Value} {c : Criteria Condition}
    (h : (Criteria.decoder Condition.decoder).ofValue v = .ok c) :
    (∀ p w, Stands .document v p w → (∃ ms, w = .obj ms) ∨ (∃ vs, w = .arr [.arr vs]) ∨
      p = .node ∧ ∃ rule, w = .arr [.str rule] ∨ ∃ vs, w = .arr [.str rule, .arr vs]) ∧
    (Criteria.decoder Condition.decoder).ofValue (byName v) = .ok c ∧
    OfObjects .document (byName v) ∧ (byName v = v ↔ OfObjects .document v) := by
  have shape := ofValue_iff.1 h
  have named := isDocument_byName shape
  have objects : OfObjects .document (byName v) := by
    intro p w stands
    have apart (x : Value) (k : Condition) (vs : List Value) (h : IsCondition Names x k) :
        ¬ Gives [("anyOf", .arr vs)] x := (isCondition_of_names h).not_list
    have whole : Fits Names (IsCondition Names) .document (byName v) c := named
    obtain ⟨d, fits⟩ := stands.fits (fun _ _ => gives_of_names) apart whole
    exact object_of_fits fits
  refine ⟨fun p w stands => ?_, ofValue_iff.2 (isDocument_of_names named), objects, ?_⟩
  · have whole : Fits Gives (IsCondition Gives) .document v c := shape
    obtain ⟨d, fits⟩ := stands.fits (fun _ _ h => h) (fun _ _ _ h => h.not_list) whole
    exact form_of_fits fits
  · constructor
    · intro same
      rwa [same] at objects
    · exact (byName_eq_self c v).1 shape

/-- A condition in an array, in a conjunction that is an object, in a document that is an array. -/
theorem a_condition_in_an_array : ∃ k : Condition,
    (Criteria.decoder Condition.decoder).ofValue
      (.arr [.arr [allOf [.arr [.str "R", .arr [.null]]]]]) = .ok (.any [.all [.leaf k]]) ∧
    (Criteria.decoder Condition.decoder).ofValue
      (anyOf [allOf [.obj [("rule", .str "R"), ("params", .arr [.null])]]])
        = .ok (.any [.all [.leaf k]]) := by
  have decoded : (Criteria.decoder Condition.decoder).ofValue
      (.arr [.arr [allOf [.arr [.str "R", .arr [.null]]]]])
        = .ok (.any [.all [.leaf ⟨"R", [.null], rfl, by simp [Value.Canonical]⟩]]) := rfl
  exact ⟨_, decoded, (an_array_means_what_its_fields_mean decoded).2.1⟩

/-- Arrays of nothing but arrays decide: one document never holds, and another always does. -/
theorem arrays_alone_decide :
    (Criteria.decoder Condition.decoder).ofValue (.arr [.arr []]) = .ok (.any []) ∧
    (Criteria.decoder Condition.decoder).ofValue (.arr [.arr [.arr [.arr []]]])
      = .ok (.any [.all []]) ∧
    ¬ OfObjects .document (.arr [.arr []]) ∧ ¬ OfObjects .document (.arr [.arr [.arr [.arr []]]]) :=
  ⟨rfl, rfl, fun h => by simpa using h.self, fun h => by simpa using h.self⟩

end Permit.Criteria
