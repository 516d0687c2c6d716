-- What is printed has a form: the compact text of a value is a literal, and the text of a
-- condition is a call.
import Permit.Proofs.Grammar.Floats
import Permit.Proofs.Grammar.Literals

namespace Permit.Expression.Grammar

open Json

/-! ## Strings -/

/-- The escape of a character stands for it. -/
theorem body_escape (c : Char) {s cs r : List Char} (rest : Body s cs r) :
    Body (escape c ++ s) (c :: cs) r := by
  unfold escape
  split
  · exact .short .quote rest
  · exact .short .backslash rest
  · exact .short .lineFeed rest
  · exact .short .carriageReturn rest
  · exact .short .tab rest
  · exact .short .backspace rest
  · exact .short .formFeed rest
  · next quote backslash _ _ _ _ _ =>
    split
    · next control =>
      have digits : ∀ n < 0x20, hexValue? (hexDigit (n / 16)) = some (n / 16) ∧
          hexValue? (hexDigit (n % 16)) = some (n % 16) := by decide
      obtain ⟨first, second⟩ := digits _ control
      have code : ((0 * 16 + 0) * 16 + c.toNat / 16) * 16 + c.toNat % 16 = c.toNat := by omega
      have zero : hexValue? '0' = some 0 := rfl
      have hex := HexFour.mk (r := s) zero zero first second
      rw [code] at hex
      have body := Body.code hex (by omega) rest
      rwa [Char.ofNat_toNat] at body
    · exact .plain quote backslash rest

theorem quoted_quote (s : String) (r : List Char) : Quoted (quote s ++ r) s r := by
  have body (cs : List Char) : Body (cs.flatMap escape ++ '"' :: r) cs r := by
    induction cs with
    | nil => exact .close
    | cons c cs ih =>
      rw [List.flatMap_cons, List.append_assoc]
      exact body_escape c ih
  have quoted := Quoted.mk (body s.toList)
  rw [String.ofList_toList] at quoted
  simpa [quote] using quoted

/-! ## Numbers -/

theorem numeral_intDigits (i : Int) (fits : Fits i) (r : List Char) :
    Numeral (intDigits i ++ r) (.int i fits) r := by
  have whole : Number.int? i = some (.int i fits) := dif_pos fits
  unfold intDigits
  split
  · next negative =>
    have same : signed true (digitsValue (natDigits i.natAbs)) = i := by
      rw [digitsValue_natDigits, signed, if_pos rfl]
      omega
    have form : Number.int? (signed true (digitsValue (natDigits i.natAbs)))
        = some (.int i fits) := by rw [same, whole]
    exact .whole .present (digits_natDigits _) form
  · next positive =>
    have same : signed false (digitsValue (natDigits i.natAbs)) = i := by
      rw [digitsValue_natDigits, signed, if_neg (by decide)]
      omega
    have form : Number.int? (signed false (digitsValue (natDigits i.natAbs)))
        = some (.int i fits) := by rw [same, whole]
    exact .whole .absent (digits_natDigits _) form

theorem numeral_write (n : Number) (r : List Char) : Numeral (n.write ++ r) n r := by
  cases n with
  | int i fits => exact numeral_intDigits i fits r
  | float x => exact numeral_float x r

/-! ## Lists -/

section Lists

variable {α : Type} {blanks : List Char} {text : α → List Char} {item : Form α}

/-- What is listed item by item is a list of the grammar. -/
theorem enclosed_listed (close : Char) {as : List α} {r : List Char}
    (skipped : ∀ s, Blanks (blanks ++ s) s) (each : ∀ a ∈ as, ∀ r, item (text a ++ r) a r) :
    Enclosed item close (listed blanks text as ++ close :: r) as r := by
  have more (as : List α) (each : ∀ a ∈ as, ∀ r, item (text a ++ r) a r) (r : List Char) :
      More item ((as.flatMap fun b => ',' :: (blanks ++ text b)) ++ r) as r := by
    induction as with
    | nil => exact .none
    | cons a rest ih =>
      simp only [List.flatMap_cons, List.cons_append, List.append_assoc]
      exact .item .done (skipped _) (each a (by simp) _) (ih fun b hb => each b (by simp [hb]))
  refine .mk .done ?_ .done
  cases as with
  | nil => exact .none
  | cons a rest =>
    rw [listed, List.append_assoc]
    exact .some (each a (by simp) _) (more rest (fun b hb => each b (by simp [hb])) _)

end Lists

theorem writeParams_eq (vs : List Value) :
    Condition.writeParams vs = listed [' '] Value.write vs := by
  induction vs with
  | nil => rfl
  | cons v rest ih =>
    cases rest with
    | nil => simp [Condition.writeParams, listed]
    | cons w rest => simp [Condition.writeParams, ih, listed]

/-! ## Values and conditions -/

theorem scalar_write (v : Value) (depth : v.depth = 0) (r : List Char) :
    Scalar (v.write ++ r) v r := by
  cases v with
  | null => exact .null
  | bool b =>
    cases b with
    | false => exact .false
    | true => exact .true
  | num n => exact .number (numeral_write n r)
  | str s => exact .string (quoted_quote s r)
  | arr items => cases depth
  | obj members => cases depth

theorem member_memberText {value : Form Value} {m : String × Value}
    (each : ∀ r, value (m.2.write ++ r) m.2 r) (r : List Char) :
    Member value (memberText m ++ r) m r := by
  unfold memberText
  rw [List.append_assoc]
  exact .mk (quoted_quote m.1 _) .done .done (each r)

/-- The text of a value in canonical form is a literal of its nesting. -/
theorem literal_write (n : Nat) (v : Value) (canonical : v.Canonical) (depth : v.depth ≤ n)
    (r : List Char) : Literal n (v.write ++ r) v r := by
  induction n generalizing v r with
  | zero => exact scalar_write v (Nat.le_zero.1 depth) r
  | succ n ih =>
    cases v with
    | arr items =>
      rw [Value.depth, Nat.add_le_add_iff_right, Value.depthItems_le] at depth
      rw [Value.Canonical, Value.canonicalItems_iff] at canonical
      have enclosed : Enclosed (Literal n) ']' (listed [] Value.write items ++ ']' :: r) items r :=
        enclosed_listed ']' (fun _ => .done)
          fun v hv r => ih v (canonical v hv) (depth v hv) r
      have array : Literal (n + 1) _ _ _ := .inr (.array enclosed)
      rw [Value.write, writeItems_eq]
      simpa using array
    | obj members =>
      rw [Value.depth, Nat.add_le_add_iff_right, Value.depthMembers_le] at depth
      rw [Value.Canonical, Value.canonicalMembers_iff] at canonical
      have enclosed : Enclosed (Member (Literal n)) '\x7d'
          (listed [] memberText members ++ '\x7d' :: r) members r :=
        enclosed_listed '\x7d' (fun _ => .done) fun m hm =>
          member_memberText fun r => ih m.2 (canonical.2 m hm) (depth m hm) r
      have object : Literal (n + 1) _ _ _ := .inr (.object enclosed)
      rw [Value.sortMembers_of_pairwise canonical.1] at object
      rw [Value.write, writeMembers_eq]
      simpa using object
    | _ => exact .inl (scalar_write _ rfl r)

/-- What the text form needs of a condition: its rule has a name of the grammar, and its
parameters nest within the budget for literals. -/
def Spellable (k : Condition) : Prop :=
  Name k.rule.toList ∧ ∀ v ∈ k.params, v.depth ≤ maxNesting

/-- The text of a condition is a call. -/
theorem call_write {k : Condition} (spellable : Spellable k) (r : List Char) :
    Call (k.write ++ r) k r := by
  have enclosed : Enclosed (Literal maxNesting) ')'
      (listed [' '] Value.write k.params ++ ')' :: r) k.params r :=
    enclosed_listed ')' (fun _ => .blank rfl .done) fun v hv r =>
      literal_write maxNesting v (k.canonical v hv) (spellable.2 v hv) r
  have call := Call.mk spellable.1 rfl .done enclosed
  unfold Condition.write
  rw [writeParams_eq]
  simpa using call

end Permit.Expression.Grammar
