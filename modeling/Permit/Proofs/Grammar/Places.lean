-- Texts with one literal singled out. The forms follow the grammar, and at one place another form
-- stands for the literal. If that form is one of the grammar, so is the text; if no reader takes
-- it, then the text is not read, however well the rest of it is spelt.
import Permit.Proofs.Refusals

namespace Permit.Expression.Grammar

open Json Criteria

/-! ## Lists with one place -/

section Lists

variable {α : Type} (item slot : Form α)

/-- Further items, one of which stands in the slot. -/
inductive MoreAt : Form (List α)
  | here {s t u v a as r} : Blanks s (',' :: t) → Blanks t u → slot u a v → More item v as r →
      MoreAt s (a :: as) r
  | later {s t u v a as r} : Blanks s (',' :: t) → Blanks t u → item u a v → MoreAt v as r →
      MoreAt s (a :: as) r

/-- Items with commas between them, one of which stands in the slot. -/
inductive ItemsAt : Form (List α)
  | here {s t a as r} : slot s a t → More item t as r → ItemsAt s (a :: as) r
  | later {s t a as r} : item s a t → MoreAt item slot t as r → ItemsAt s (a :: as) r

/-- What stands up to the closing character, with one item in the slot. -/
inductive EnclosedAt (close : Char) : Form (List α)
  | mk {s t u as r} : Blanks s t → ItemsAt item slot t as u → Blanks u (close :: r) →
      EnclosedAt close s as r

end Lists

/-! ## Literals and conditions -/

/-- An array or an object with one value in the slot. -/
inductive CompoundAt (value slot : Form Value) : Form Value
  | array {s vs r} : EnclosedAt value slot ']' s vs r → CompoundAt value slot ('[' :: s) (.arr vs) r
  | object {s ms r} : EnclosedAt (Member value) (Member slot) '\x7d' s ms r →
      CompoundAt value slot ('\x7b' :: s) (.obj (Value.sortMembers ms)) r

/-- A literal with the place in it, or the place alone. -/
def LiteralAt (place : Form Value) : Nat → Form Value
  | 0, s, v, r => place s v r
  | n + 1, s, v, r => place s v r ∨ CompoundAt (Literal n) (LiteralAt place n) s v r

/-- A condition with the place in one of its parameters. -/
inductive CallAt (place : Form Value) : Form Condition
  | mk {name s t k r} : Name name → name = k.rule.toList → Blanks s ('(' :: t) →
      EnclosedAt (Literal maxNesting) (LiteralAt place maxNesting) ')' t k.params r →
      CallAt place (name ++ s) k r

/-! ## Chains and groups -/

section Chains

variable {α : Type} (operator : List Char → List Char → Prop) (part slot : Form α)

/-- Further parts, one of which stands in the slot. -/
inductive OperandsAt : Form (List α)
  | here {s t u a as r} : operator s t → slot t a u → Operands operator part u as r →
      OperandsAt s (a :: as) r
  | later {s t u a as r} : operator s t → part t a u → OperandsAt u as r → OperandsAt s (a :: as) r

/-- Parts joined by an operator, one of which stands in the slot. -/
inductive ChainAt (group : List α → α) : Form α
  | one {s a r} : slot s a r → ChainAt group s a r
  | first {s t a b as r} : slot s a t → Operands operator part t (b :: as) r →
      ChainAt group s (group (a :: b :: as)) r
  | later {s t a b as r} : part s a t → OperandsAt operator part slot t (b :: as) r →
      ChainAt group s (group (a :: b :: as)) r

end Chains

/-- A condition with the place, or a group in parentheses that `inner` is the text of. -/
inductive PrimaryAt (place : Form Value) (inner : Form (Criteria Condition)) :
    Form (Criteria Condition)
  | group {s t u c r} : Blanks s ('(' :: t) → inner t c u → Blanks u (')' :: r) →
      PrimaryAt place inner s c r
  | call {s t k r} : Blanks s t → CallAt place t k r → PrimaryAt place inner s (.leaf k) r

/-- An expression with the place in it, whose groups in parentheses nest at most so deep. -/
def ExprAt (place : Form Value) : Nat → Form (Criteria Condition)
  | 0 =>
    ChainAt (Operator "or" "OR") (Chain (Operator "and" "AND") (Primary (Inner 0)) .all)
      (ChainAt (Operator "and" "AND") (Primary (Inner 0))
        (PrimaryAt place fun _ _ _ => False) .all) .any
  | n + 1 =>
    ChainAt (Operator "or" "OR") (Chain (Operator "and" "AND") (Primary (Inner (n + 1))) .all)
      (ChainAt (Operator "and" "AND") (Primary (Inner (n + 1)))
        (PrimaryAt place (ExprAt place n)) .all) .any

/-- A whole text spells criteria if the place is taken for the literal that it gives. -/
def SpellsAt (place : Form Value) (text : List Char) (c : Criteria Condition) : Prop :=
  ∃ r, ExprAt place maxNesting text c r ∧ Blanks r []

/-! ## A place that is a literal -/

section Lists

variable {α : Type} {item slot : Form α} (each : ∀ s a r, slot s a r → item s a r)
include each

theorem MoreAt.more {s r : List Char} {as : List α} (h : MoreAt item slot s as r) :
    More item s as r := by
  induction h with
  | here before after isSlot more => exact .item before after (each _ _ _ isSlot) more
  | later before after isItem _ ih => exact .item before after isItem ih

theorem EnclosedAt.enclosed {close : Char} {s r : List Char} {as : List α}
    (h : EnclosedAt item slot close s as r) : Enclosed item close s as r := by
  obtain ⟨before, items, after⟩ := h
  refine .mk before ?_ after
  cases items with
  | here isSlot more => exact .some (each _ _ _ isSlot) more
  | later isItem more => exact .some isItem (more.more each)

end Lists

section Chains

variable {operator : List Char → List Char → Prop} {part slot : Form (Criteria Condition)}
  (each : ∀ s a r, slot s a r → part s a r)
include each

theorem OperandsAt.operands {s r : List Char} {as : List (Criteria Condition)}
    (h : OperandsAt operator part slot s as r) : Operands operator part s as r := by
  induction h with
  | here isOperator isSlot more => exact .part isOperator (each _ _ _ isSlot) more
  | later isOperator isPart _ ih => exact .part isOperator isPart ih

theorem ChainAt.chain {group : List (Criteria Condition) → Criteria Condition} (s : List Char)
    (c : Criteria Condition) (r : List Char) (h : ChainAt operator part slot group s c r) :
    Chain operator part group s c r := by
  cases h with
  | one isSlot => exact .one (each _ _ _ isSlot)
  | first isSlot more => exact .several (each _ _ _ isSlot) more
  | later isPart more => exact .several isPart (more.operands each)

end Chains

section Scalars

variable {place : Form Value} (scalar : ∀ s v r, place s v r → Scalar s v r)
include scalar

theorem LiteralAt.literal (n : Nat) : ∀ s v r, LiteralAt place n s v r → Literal n s v r := by
  induction n with
  | zero => exact scalar
  | succ n ih =>
    rintro s v r (here | inside)
    · exact .inl (scalar _ _ _ here)
    · refine .inr ?_
      cases inside with
      | array items => exact .array (items.enclosed ih)
      | object members =>
        refine .object (members.enclosed fun s m r isMember => ?_)
        obtain ⟨isKey, before, after, isValue⟩ := isMember
        exact .mk isKey before after (ih _ _ _ isValue)

theorem PrimaryAt.isPrimary {inner form : Form (Criteria Condition)}
    (groups : ∀ s c r, inner s c r → form s c r) (s : List Char) (c : Criteria Condition)
    (r : List Char) (h : PrimaryAt place inner s c r) : Primary form s c r := by
  cases h with
  | group opened inside closed => exact .group opened (groups _ _ _ inside) closed
  | call blanks call =>
    obtain ⟨isName, same, opened, enclosed⟩ := call
    exact .call blanks (.mk isName same opened (enclosed.enclosed (LiteralAt.literal scalar _)))

theorem ExprAt.expr (n : Nat) : ∀ s c r, ExprAt place n s c r → Expr n s c r := by
  induction n with
  | zero => exact ChainAt.chain (ChainAt.chain (PrimaryAt.isPrimary scalar fun _ _ _ => False.elim))
  | succ n ih => exact ChainAt.chain (ChainAt.chain (PrimaryAt.isPrimary scalar ih))

/-- With a literal at the place the text spells the same criteria. -/
theorem SpellsAt.spells {text : List Char} {c : Criteria Condition} (h : SpellsAt place text c) :
    Spells text c := by
  obtain ⟨r, whole, blanks⟩ := h
  exact ⟨r, ExprAt.expr scalar _ _ _ _ whole, blanks⟩

end Scalars

/-! ## A place that is refused -/

theorem Refused.expecting {α : Type} {p : Parsed α} (h : Refused p) (e : Expectation) :
    Refused (p.expecting e) := by
  obtain ⟨f, rfl, committed⟩ := h
  exact ⟨_, rfl, committed⟩

/-- The reader stops for good at each such text, if a comma or the end of a list comes after. -/
def Refuses {α : Type} (read : List Char → Parsed α) (slot : Form α) : Prop :=
  ∀ s a r, slot s a r → Delimited r → NoBlank s ∧ Refused (read s)

section Lists

variable {α : Type} {item slot : Form α} {read : List Char → Parsed α}

theorem MoreAt.delimited {s r : List Char} {as : List α} (h : MoreAt item slot s as r) :
    Delimited s := by
  cases h with
  | here before _ _ _ => exact before.delimited (.inl rfl)
  | later before _ _ _ => exact before.delimited (.inl rfl)

/-- A list is not read past the slot. -/
theorem MoreAt.refused (readable : Readable read item) (refuses : Refuses read slot)
    {s r t : List Char} {as : List α} {c : Char} (h : MoreAt item slot s as r)
    (ends : Blanks r (c :: t)) (close : IsClose c) :
    ∀ fuel, s.length ≤ fuel → Refused (moreItems comma read fuel s) := by
  induction h with
  | here before after isSlot more =>
    intro fuel enough
    have := before.length_le
    simp only [List.length_cons] at this
    obtain ⟨start, f, failed, committed⟩ := refuses _ _ _ isSlot (more.delimited ends close)
    obtain ⟨fuel, rfl⟩ := Nat.exists_eq_succ_of_ne_zero (n := fuel) (by omega)
    rw [moreItems, comma_complete before after start]
    dsimp only
    rw [failed]
    exact ⟨f, if_pos committed, committed⟩
  | later before after isItem more ih =>
    intro fuel enough
    have := before.length_le
    have := after.length_le
    have := readable.shrinks _ _ _ isItem
    simp only [List.length_cons] at *
    obtain ⟨fuel, rfl⟩ := Nat.exists_eq_succ_of_ne_zero (n := fuel) (by omega)
    rw [moreItems, comma_complete before after (readable.starts _ _ _ isItem)]
    dsimp only
    rw [readable.complete _ _ _ isItem more.delimited]
    exact (ih ends _ (by omega)).map _

theorem EnclosedAt.refused (readable : Readable read item) (refuses : Refuses read slot)
    {close : Char} (isClose : IsClose close) {s r : List Char} {as : List α}
    (h : EnclosedAt item slot close s as r) :
    Refused (separated comma read (skipBlanks s)) := by
  obtain ⟨before, items, after⟩ := h
  cases items with
  | here isSlot more =>
    obtain ⟨start, f, failed, committed⟩ := refuses _ _ _ isSlot (more.delimited after isClose)
    rw [skipBlanks_eq before start, separated, failed]
    exact ⟨f, if_pos committed, committed⟩
  | later isItem more =>
    rw [skipBlanks_eq before (readable.starts _ _ _ isItem), separated,
      readable.complete _ _ _ isItem more.delimited]
    exact (more.refused readable refuses after isClose _ (readable.shrinks _ _ _ isItem)).map _

end Lists

theorem refuses_member {read : List Char → Parsed Value} {slot : Form Value}
    (refuses : Refuses read slot) : Refuses (member read) (Member slot) := by
  intro s m r h ends
  obtain ⟨isKey, before, after, isSlot⟩ := h
  obtain ⟨start, refused⟩ := refuses _ _ _ isSlot ends
  refine ⟨isKey.noBlank, ?_⟩
  rw [member, string_complete isKey]
  dsimp only
  rw [commit_ok.2 (char_ok (x := ()).2 (skipBlanks_cons before rfl (by decide)))]
  dsimp only
  rw [skipBlanks_eq after start]
  exact refused.fails.commit.map _

section Places

variable {place : Form Value} (refuses : ∀ n, Refuses (literal n) place)
include refuses

theorem refuses_literalAt (n : Nat) : Refuses (literal n) (LiteralAt place n) := by
  induction n with
  | zero => exact refuses 0
  | succ n ih =>
    rintro s v r (here | inside) ends
    · exact refuses _ _ _ _ here ends
    · cases inside with
      | array items =>
        obtain ⟨f, failed, committed⟩ := items.refused (readable_literal n) ih (.inl rfl)
        refine ⟨noBlank_cons rfl (by decide), ?_⟩
        rw [literal_array, arrayBody, failed]
        exact Refused.expecting ⟨f, rfl, committed⟩ _
      | object members =>
        obtain ⟨f, failed, committed⟩ := members.refused (readable_member (readable_literal n))
          (refuses_member ih) (.inr (.inl rfl))
        refine ⟨noBlank_cons rfl (by decide), ?_⟩
        rw [literal_object, objectBody, failed]
        exact Refused.expecting ⟨f, rfl, committed⟩ _

theorem PrimaryAt.fails {inner : Form (Criteria Condition)}
    {group : List Char → Parsed (Criteria Condition)}
    (groups : ∀ s c r, inner s c r → Fails group s) (s : List Char) (c : Criteria Condition)
    (r : List Char) (h : PrimaryAt place inner s c r) : Fails (primary group) s := by
  cases h with
  | group opened inside _ => exact primary_group_fails opened (groups _ _ _ inside)
  | call before call =>
    obtain ⟨isName, same, opened, enclosed⟩ := call
    have refused := enclosed.refused (readable_literal _) (refuses_literalAt refuses _)
      (.inr (.inr rfl))
    exact primary_call_fails isName same opened refused before

end Places

section Chains

variable {operator : List Char → List Char → Prop} {part slot : Form (Criteria Condition)}
  {refused : List Char → Prop} (each : ∀ s c r, slot s c r → refused s)
include each

theorem OperandsAt.breaks {s t r : List Char} {a : Criteria Condition}
    {as : List (Criteria Condition)} (first : part s a t)
    (h : OperandsAt operator part slot t as r) : Breaks operator part refused s := by
  induction h generalizing s a with
  | here isOperator isSlot _ => exact .later first isOperator (.here (each _ _ _ isSlot))
  | later isOperator isPart _ ih => exact .later first isOperator (ih isPart)

/-- The parts before the slot lead to it. -/
theorem ChainAt.breaks {group : List (Criteria Condition) → Criteria Condition} (s : List Char)
    (c : Criteria Condition) (r : List Char) (h : ChainAt operator part slot group s c r) :
    Breaks operator part refused s := by
  cases h with
  | one isSlot => exact .here (each _ _ _ isSlot)
  | first isSlot _ => exact .here (each _ _ _ isSlot)
  | later isPart more => exact more.breaks each isPart

end Chains

section Places

variable {place : Form Value} (refuses : ∀ n, Refuses (literal n) place)
include refuses

theorem ExprAt.breaks (n : Nat) : ∀ s c r, ExprAt place n s c r → BreaksOr n s := by
  induction n with
  | zero =>
    exact ChainAt.breaks (ChainAt.breaks (PrimaryAt.fails refuses fun _ _ _ => False.elim))
  | succ n ih =>
    have groups : ∀ s c r, ExprAt place n s c r → Fails (groupReader (n + 1)) s :=
      fun s c r inside => groupBody_fails (ih s c r inside).fails
    exact ChainAt.breaks (ChainAt.breaks (PrimaryAt.fails refuses groups))

/-- With a place that is refused nothing of the text is read. -/
theorem SpellsAt.refused {text : List Char} {c : Criteria Condition}
    (h : SpellsAt place text c) : ∃ f, expression text = .error f := by
  obtain ⟨r, whole, _⟩ := h
  obtain ⟨f, failed⟩ := (ExprAt.breaks refuses _ _ _ _ whole).fails
  exact ⟨f, by rw [expression, failed]⟩

end Places

end Permit.Expression.Grammar
