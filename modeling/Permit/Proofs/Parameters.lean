-- What a list of parameters is read as. A short list has two readings; the one that is written
-- as the list again wins, so what was written as a list is never lost to another reading.
import Permit.Params
import Permit.Proofs.Values

namespace Permit

open Json

variable {P : Type} {c : Codec P} {params : List Value} {p q : P}

/-! ## Writing -/

/-- The value is written as the list, where the two float zeros are one number. -/
def WrittenAs (c : Codec P) (p : P) (params : List Value) : Prop :=
  ∃ written, encodeParams c p = .ok written ∧ Value.sameItems written params = true

theorem encodesTo_iff : encodesTo c p params = true ↔ WrittenAs c p params := by
  unfold encodesTo WrittenAs
  cases encodeParams c p with
  | error e => simp
  | ok written => simp

theorem writtenAs_of_encodeParams (h : encodeParams c p = .ok params) : WrittenAs c p params :=
  ⟨params, h, Value.sameItems_self params⟩

theorem WrittenAs.exact (h : WrittenAs c p params) (free : (Value.arr params).ZeroFree) :
    encodeParams c p = .ok params := by
  obtain ⟨written, encoded, same⟩ := h
  rw [encoded, Value.eq_of_sameItems free same]

/-- A value is the array of its parameters, or the one that they may also stand for. -/
theorem paramsOf_cases (v : Value) :
    v = .arr (paramsOf v) ∨ unwrapped? (paramsOf v) = some v := by
  cases v with
  | arr items => exact .inl rfl
  | _ => exact .inr rfl

/-- Written parameters are in canonical form. -/
theorem canonical_of_encodeParams (h : encodeParams c p = .ok params) :
    ∀ v ∈ params, v.Canonical := by
  unfold encodeParams Codec.toValue at h
  cases written : c.encode p with
  | error e =>
    rw [written] at h
    cases h
  | ok v =>
    rw [written] at h
    obtain rfl : paramsOf v.normalize = params := Except.ok.inj h
    have canonical := v.canonical_normalize
    cases shape : v.normalize with
    | arr items =>
      rw [shape] at canonical
      exact Value.canonicalItems_iff.1 canonical
    | null => simp [paramsOf]
    | _ =>
      rw [shape] at canonical
      simpa [paramsOf] using canonical

/-! ## Reading -/

/-- What a list of parameters can be read as: the array of them, no parameter also as `null`,
and a single one also as itself. -/
inductive Reading (c : Codec P) : List Value → Except Failure P → Prop
  | array (params : List Value) : Reading c params (c.decoder.ofValue (.arr params))
  | nothing : Reading c [] (c.decoder.ofValue .null)
  | only (v : Value) : Reading c [v] (c.decoder.ofValue v)

theorem reading_iff {outcome : Except Failure P} :
    Reading c params outcome ↔ c.decoder.ofValue (.arr params) = outcome ∨
      ∃ v, unwrapped? params = some v ∧ c.decoder.ofValue v = outcome := by
  constructor
  · intro h
    cases h with
    | array => exact .inl rfl
    | nothing => exact .inr ⟨_, rfl, rfl⟩
    | only v => exact .inr ⟨v, rfl, rfl⟩
  · rintro (rfl | ⟨v, short, rfl⟩)
    · exact .array params
    · match params with
      | [] =>
        cases short
        exact .nothing
      | [w] =>
        cases short
        exact .only v
      | _ :: _ :: _ => cases short

/-- The second of two outcomes counts where the first fails, or where it alone is kept. -/
def prefer (kept : P → Bool) : Except Failure P → Except Failure P → Except Failure P
  | .ok p, .ok q => if !kept p && kept q then .ok q else .ok p
  | .ok p, .error _ => .ok p
  | .error _, .ok q => .ok q
  | .error e, .error _ => .error e

section Prefer

variable {kept : P → Bool} {first second : Except Failure P}

theorem prefer_eq_error_iff {f : Failure} :
    prefer kept first second = .error f ↔ first = .error f ∧ ∃ e, second = .error e := by
  cases first with
  | error e => cases second <;> simp [prefer]
  | ok p =>
    cases second with
    | error e => simp [prefer]
    | ok q => by_cases h : (!kept p && kept q) = true <;> simp [prefer, h]

theorem eq_of_prefer (h : prefer kept first second = .ok q) : first = .ok q ∨ second = .ok q := by
  cases first with
  | error e =>
    cases second with
    | error e' => cases h
    | ok q' => exact .inr h
  | ok p =>
    cases second with
    | error e => exact .inl h
    | ok q' =>
      rw [prefer] at h
      split at h
      · exact .inr h
      · exact .inl h

theorem prefer_first (keeps : kept p = true) : prefer kept (.ok p) second = .ok p := by
  cases second with
  | error e => rfl
  | ok q => simp [prefer, keeps]

theorem prefer_second (keeps : kept q = true) (apart : ∀ p, first = .ok p → kept p = false) :
    prefer kept first (.ok q) = .ok q := by
  cases first with
  | error e => rfl
  | ok p => simp [prefer, keeps, apart p rfl]

end Prefer

theorem decodeParams_long (long : unwrapped? params = none) :
    decodeParams c params = c.decoder.ofValue (.arr params) := by
  unfold decodeParams
  rw [long]

theorem decodeParams_short {v : Value} (short : unwrapped? params = some v) :
    decodeParams c params
      = prefer (encodesTo c · params) (c.decoder.ofValue (.arr params)) (c.decoder.ofValue v) := by
  unfold decodeParams
  rw [short]
  rfl

/-- Reading fails if no reading is good, with the failure of the array. -/
theorem decodeParams_eq_error_iff {f : Failure} :
    decodeParams c params = .error f ↔ c.decoder.ofValue (.arr params) = .error f ∧
      ∀ outcome, Reading c params outcome → ∃ e, outcome = .error e := by
  simp only [reading_iff]
  cases short : unwrapped? params with
  | none =>
    rw [decodeParams_long short]
    refine ⟨fun failed => ⟨failed, ?_⟩, fun h => h.1⟩
    rintro outcome (rfl | ⟨v, ⟨⟩, -⟩)
    exact ⟨f, failed⟩
  | some v =>
    rw [decodeParams_short short, prefer_eq_error_iff]
    refine and_congr_right fun failed => ⟨?_, fun h => h _ (.inr ⟨v, rfl, rfl⟩)⟩
    rintro other outcome (rfl | ⟨v, ⟨⟩, rfl⟩)
    · exact ⟨f, failed⟩
    · exact other

/-- What is read is one of the readings. -/
theorem reading_of_decodeParams (h : decodeParams c params = .ok q) : Reading c params (.ok q) := by
  rw [reading_iff]
  cases short : unwrapped? params with
  | none =>
    rw [decodeParams_long short] at h
    exact .inl h
  | some v =>
    rw [decodeParams_short short] at h
    exact (eq_of_prefer h).imp_right fun value => ⟨v, rfl, value⟩

/-- An array that is written as the list is what is read. -/
theorem decodeParams_of_array (array : c.decoder.ofValue (.arr params) = .ok p)
    (written : WrittenAs c p params) : decodeParams c params = .ok p := by
  cases short : unwrapped? params with
  | none => rw [decodeParams_long short, array]
  | some v =>
    rw [decodeParams_short short, array]
    exact prefer_first (encodesTo_iff.2 written)

/-- The other reading is what is read if it is written as the list, and the array is not. -/
theorem decodeParams_of_unwrapped {v : Value} (short : unwrapped? params = some v)
    (value : c.decoder.ofValue v = .ok p) (written : WrittenAs c p params)
    (apart : ∀ other, c.decoder.ofValue (.arr params) = .ok other → ¬ WrittenAs c other params) :
    decodeParams c params = .ok p := by
  rw [decodeParams_short short, value]
  refine prefer_second (encodesTo_iff.2 written) fun other array => ?_
  rw [← Bool.not_eq_true, encodesTo_iff]
  exact apart other array

/-- If a reading is written as the list, then so is what is read. -/
theorem exists_decodeParams (h : ∃ q, Reading c params (.ok q) ∧ WrittenAs c q params) :
    ∃ q, decodeParams c params = .ok q ∧ WrittenAs c q params := by
  by_cases array : ∃ q, c.decoder.ofValue (.arr params) = .ok q ∧ WrittenAs c q params
  · obtain ⟨q, array, written⟩ := array
    exact ⟨q, decodeParams_of_array array written, written⟩
  · obtain ⟨q, reading, written⟩ := h
    rcases reading_iff.1 reading with here | ⟨v, short, value⟩
    · exact absurd ⟨q, here, written⟩ array
    · exact ⟨q, decodeParams_of_unwrapped short value written
        fun other here kept => array ⟨other, here, kept⟩, written⟩

/-! ## Writing and reading again -/

/-- Read as an array, the parameters of the value are no other value that is written as they
are. It is enough that no other value is written as they are at all. -/
def Unmistaken (c : Codec P) (p : P) : Prop :=
  ∀ params other, encodeParams c p = .ok params → c.decoder.ofValue (.arr params) = .ok other →
    WrittenAs c other params → other = p

theorem encodeParams_of_toValue {v : Value} (h : c.toValue p = .ok v) :
    encodeParams c p = .ok (paramsOf v) := by
  rw [encodeParams, h]
  rfl

/-- A value that is written as an array is what its parameters are read as first. -/
theorem unmistaken_of_array {items : List Value} (written : c.toValue p = .ok (.arr items))
    (reads : c.decoder.ofValue (.arr items) = .ok p) : Unmistaken c p := by
  intro params other encoded array _
  rw [encodeParams_of_toValue written] at encoded
  obtain rfl : items = params := Except.ok.inj encoded
  rw [reads] at array
  exact (Except.ok.inj array).symm

theorem unmistaken_of_alone {params : List Value} (encoded : encodeParams c p = .ok params)
    (alone : ∀ other, WrittenAs c other params → other = p) : Unmistaken c p := by
  intro again other same _ kept
  rw [encoded] at same
  cases same
  exact alone other kept

/-- Parameters that were written are read as a value with the same parameters, and as the value
itself exactly if they are not taken for another one. -/
theorem decodeParams_encodeParams {v : Value} (written : c.toValue p = .ok v)
    (reads : c.decoder.ofValue v = .ok p) :
    ∃ q, decodeParams c (paramsOf v) = .ok q ∧ WrittenAs c q (paramsOf v) ∧
      (q = p ↔ Unmistaken c p) := by
  have encoded := encodeParams_of_toValue written
  have self := writtenAs_of_encodeParams encoded
  have others : Unmistaken c p ↔ ∀ other, c.decoder.ofValue (.arr (paramsOf v)) = .ok other →
      WrittenAs c other (paramsOf v) → other = p := by
    constructor
    · exact fun h other => h _ other encoded
    · intro h params other again
      rw [encoded] at again
      cases again
      exact h other
  by_cases array : ∃ q, c.decoder.ofValue (.arr (paramsOf v)) = .ok q ∧ WrittenAs c q (paramsOf v)
  · obtain ⟨q, array, kept⟩ := array
    refine ⟨q, decodeParams_of_array array kept, kept, Iff.trans ⟨?_, ?_⟩ others.symm⟩
    · rintro rfl other here _
      rw [array] at here
      exact (Except.ok.inj here).symm
    · exact fun h => h q array kept
  · have apart : ∀ other, c.decoder.ofValue (.arr (paramsOf v)) = .ok other →
        ¬ WrittenAs c other (paramsOf v) := fun other here kept => array ⟨other, here, kept⟩
    refine ⟨p, ?_, self, ?_⟩
    · rcases paramsOf_cases v with same | short
      · exact absurd self (apart p (same ▸ reads))
      · exact decodeParams_of_unwrapped short reads self apart
    · simp only [true_iff]
      exact others.2 fun other here kept => absurd kept (apart other here)

/-! ## The law of parameters -/

/-- Reading a list of parameters fails exactly if each of its readings fails, and then with the
failure of the array; else it gives one of them, and one that is written as the list if there is
any. So a value that reads back is never lost when it is written as parameters: what they are
read as has the same parameters, and it is the value itself unless the array is mistaken for
another one, which it is not if the value is written as an array or is alone with its
parameters. Where no parameter is a float zero, to be written as the list is to be written as
exactly that list. -/
theorem parameters_read_back_as_written (c : Codec P) :
    (∀ params,
      (∀ f, decodeParams c params = .error f ↔ c.decoder.ofValue (.arr params) = .error f ∧
        ∀ outcome, Reading c params outcome → ∃ e, outcome = .error e) ∧
      (∀ q, decodeParams c params = .ok q → Reading c params (.ok q)) ∧
      ((∃ q, Reading c params (.ok q) ∧ WrittenAs c q params) →
        ∃ q, decodeParams c params = .ok q ∧ WrittenAs c q params)) ∧
    (∀ p v, c.toValue p = .ok v → c.decoder.ofValue v = .ok p →
      ∃ params q, encodeParams c p = .ok params ∧ decodeParams c params = .ok q ∧
        WrittenAs c q params ∧ (q = p ↔ Unmistaken c p) ∧
        ((∃ items, v = .arr items) ∨ (∀ other, WrittenAs c other params → other = p) → q = p)) ∧
    ∀ q params, (Value.arr params).ZeroFree → WrittenAs c q params →
      encodeParams c q = .ok params := by
  refine ⟨fun params => ⟨fun f => decodeParams_eq_error_iff, fun q => reading_of_decodeParams,
    exists_decodeParams⟩, fun p v written reads => ?_, fun q params free kept => kept.exact free⟩
  obtain ⟨q, decoded, kept, itself⟩ := decodeParams_encodeParams written reads
  refine ⟨_, q, encodeParams_of_toValue written, decoded, kept, itself, ?_⟩
  rintro (⟨items, rfl⟩ | alone)
  · exact itself.2 (unmistaken_of_array written reads)
  · exact itself.2 (unmistaken_of_alone (encodeParams_of_toValue written) alone)

-- A value of any kind may be mistaken: a string comes back as the array of it.
example : encodeParams .whole (.str "a") = .ok [.str "a"] ∧
    decodeParams .whole [.str "a"] = .ok (.arr [.str "a"]) := ⟨rfl, rfl⟩

/-- A string that may be left out is read back from the only parameter that it is written as:
no other value is written so. -/
theorem an_optional_string_reads_back (s : String) :
    (∀ other, WrittenAs (.option .string) other [.str s] → other = some s) ∧
    decodeParams (.option .string) [.str s] = .ok (some s) := by
  have alone : ∀ other, WrittenAs (.option .string) other [.str s] → other = some s := by
    rintro other ⟨written, encoded, same⟩
    cases other with
    | none =>
      cases encoded
      cases same
    | some t =>
      cases encoded
      simpa [Value.normalize, paramsOf, Value.sameItems, Value.same] using same
  obtain ⟨params, q, encoded, decoded, -, -, itself⟩ :=
    (parameters_read_back_as_written (.option .string)).2.1 (some s) (.str s) rfl rfl
  cases encoded
  rw [itself (.inr alone)] at decoded
  exact ⟨alone, decoded⟩

end Permit
