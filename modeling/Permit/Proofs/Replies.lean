-- What the client makes of a reply, whatever its status and whatever its bytes: it says yes to a
-- success that says yes and to nothing else, and every other reply has its own error.
import Permit.Proofs.Registration
import Permit.Proofs.Remote
import Permit.Proofs.Utf8

namespace Permit

open Json Text

/-! ## Replies -/

/-- What comes back when a question is sent: nothing, or a status and the bytes of a body. -/
inductive Reply where
  | failed
  | answered (status : Nat) (bytes : List UInt8)

namespace Reply

/-- The reply as the client sees it. -/
def exchange : Reply → Exchange
  | .failed => .failed
  | .answered status bytes => .answered status (decode bytes)

/-- What a reply must mean to who asked at the address whether a resource satisfies conditions. Only
a status of success is looked at for an answer. The body of another is a refusal with its code and
message, or else the message is the body, with junk replaced. -/
inductive Means (url : String) : Reply → Except ClientError Bool → Prop
  | failed : Means url .failed (.error (.transport url))
  | understood {status bytes r} (success : 200 ≤ status ∧ status ≤ 299)
    (read : ApplyResponse.decoder.ofText (decode bytes) = .ok r) :
    Means url (.answered status bytes) (.ok r.allowed)
  | garbled {status bytes f} (success : 200 ≤ status ∧ status ≤ 299)
    (broken : ApplyResponse.decoder.ofText (decode bytes) = .error f) :
    Means url (.answered status bytes) (.error (.decode url (f.message (decode bytes))))
  | refused {status bytes e} (other : ¬ (200 ≤ status ∧ status ≤ 299))
    (read : ErrorResponse.decoder.ofText (decode bytes) = .ok e) :
    Means url (.answered status bytes)
      (.error (.unexpectedStatus url status (some e.code) e.message))
  | strange {status bytes f glyphs} (other : ¬ (200 ≤ status ∧ status ≤ 299))
    (broken : ErrorResponse.decoder.ofText (decode bytes) = .error f)
    (spelt : Yields bytes glyphs) :
    Means url (.answered status bytes)
      (.error (.unexpectedStatus url status none (toStringLossy glyphs)))

/-- What the client makes of a reply. -/
def result (url : String) (reply : Reply) : Except ClientError Bool :=
  (reply.exchange.read ApplyResponse.decoder url).map ApplyResponse.allowed

variable {url : String} {status : Nat} {bytes : List UInt8}

theorem isSuccess_iff : isSuccess status = true ↔ 200 ≤ status ∧ status ≤ 299 := by
  unfold isSuccess
  simp only [Bool.and_eq_true, decide_eq_true_eq]
  omega

/-- What the client makes of a success. -/
theorem result_success (success : 200 ≤ status ∧ status ≤ 299) :
    result url (.answered status bytes) = match ApplyResponse.decoder.ofText (decode bytes) with
      | .ok r => .ok r.allowed
      | .error f => .error (.decode url (f.message (decode bytes))) := by
  have inside : isSuccess status = true := isSuccess_iff.2 success
  simp only [result, exchange, Exchange.read, inside, if_true]
  cases ApplyResponse.decoder.ofText (decode bytes) <;> rfl

/-- What the client makes of another status. -/
theorem result_other (other : ¬ (200 ≤ status ∧ status ≤ 299)) :
    result url (.answered status bytes) = match ErrorResponse.decoder.ofText (decode bytes) with
      | .ok e => .error (.unexpectedStatus url status (some e.code) e.message)
      | .error _ => .error (.unexpectedStatus url status none (toStringLossy (decode bytes))) := by
  have outside : isSuccess status = false := by
    rw [← Bool.not_eq_true, isSuccess_iff]
    exact other
  simp only [result, exchange, Exchange.read, outside, Bool.false_eq_true, if_false]
  cases ErrorResponse.decoder.ofText (decode bytes) <;> rfl

/-- The client makes of a reply what it means, and nothing else. -/
theorem means_iff {reply : Reply} {x : Except ClientError Bool} :
    Means url reply x ↔ result url reply = x := by
  constructor
  · intro h
    cases h with
    | failed => rfl
    | understood success read => rw [result_success success, read]
    | garbled success broken => rw [result_success success, broken]
    | refused other read => rw [result_other other, read]
    | strange other broken spelt => rw [result_other other, broken, spelt.decode_eq]
  · rintro rfl
    cases reply with
    | failed => exact .failed
    | answered status bytes =>
      by_cases success : 200 ≤ status ∧ status ≤ 299
      · rw [result_success success]
        cases read : ApplyResponse.decoder.ofText (decode bytes) with
        | ok r => exact .understood success read
        | error f => exact .garbled success read
      · rw [result_other success]
        cases read : ErrorResponse.decoder.ofText (decode bytes) with
        | ok e => exact .refused success read
        | error f => exact .strange success read ((decode_iff _ _).1 rfl)

/-- A clear yes comes with a status of success, in a body that says so. -/
theorem result_yes_iff {reply : Reply} :
    result url reply = .ok true ↔ ∃ status bytes, reply = .answered status bytes ∧
      200 ≤ status ∧ status ≤ 299 ∧ ApplyResponse.decoder.ofText (decode bytes) = .ok ⟨true⟩ := by
  rw [← means_iff]
  constructor
  · generalize same : (Except.ok true : Except ClientError Bool) = x
    intro h
    cases h with
    | @understood status bytes r success read =>
      obtain ⟨allowed⟩ := r
      cases same
      exact ⟨status, bytes, rfl, success.1, success.2, read⟩
    | _ => cases same
  · rintro ⟨status, bytes, rfl, least, most, read⟩
    exact .understood (r := ⟨true⟩) ⟨least, most⟩ read

/-- Whether the client lets the resource through. -/
def allowed (url : String) (reply : Reply) : Bool := (result url reply).toOption.getD false

theorem allowed_iff {reply : Reply} : allowed url reply = true ↔ result url reply = .ok true := by
  unfold allowed
  cases result url reply <;> simp [Except.toOption]

end Reply

/-! ## The law of replies -/

/-- Whatever comes back when the client sends its one question, a failure of the transport or any
status with any bytes, the client makes of it what it means. It lets the resource through if a
success says so, and never else. -/
theorem the_client_fails_closed {m : Type → Type} [Monad m] [LawfulMonad m] (c : Client)
    (send : Question → m Reply) (ref : String) (d : ConditionalDecision) :
    let question := c.applyQuestion ref d
    let ask := fun q => Reply.exchange <$> send q
    ∃ (result : Reply → Except ClientError Bool) (allowed : Reply → Bool),
      c.applyConditions ask ref d = result <$> send question ∧
      c.allows ask ref (.conditional d) = allowed <$> send question ∧
      (∀ reply x, result reply = x ↔ reply.Means question.url x) ∧
      ∀ reply, allowed reply = true ↔ ∃ status bytes, reply = .answered status bytes ∧
        200 ≤ status ∧ status ≤ 299 ∧
        ApplyResponse.decoder.ofText (decode bytes) = .ok ⟨true⟩ := by
  intro question ask
  have asked : c.applyConditions ask ref d = Reply.result question.url <$> send question := by
    simp only [Client.applyConditions, ask, bind_pure_comp, Functor.map_map]
    rfl
  refine ⟨Reply.result question.url, Reply.allowed question.url, asked, ?_,
    fun reply x => Reply.means_iff.symm, fun reply => ?_⟩
  · rw [Client.allows, asked, bind_map_left, map_eq_pure_bind]
    refine bind_congr fun reply => ?_
    unfold Reply.allowed
    cases Reply.result question.url reply <;> rfl
  · exact Reply.allowed_iff.trans Reply.result_yes_iff

/-- A body that says yes is a yes from an owner that answers with success, and not from one that
forbids it. -/
theorem a_yes_that_is_forbidden :
    let yes := bytes (ApplyResponse.toJson ⟨true⟩).text
    let answers (status : Nat) : Question → Id Exchange := fun _ =>
      Reply.exchange (.answered status yes)
    Client.allows ⟨"http://catalog"⟩ (answers 200) "component:default/service-a"
      (.conditional Catalog.forTeam) = true ∧
    Client.allows ⟨"http://catalog"⟩ (answers 403) "component:default/service-a"
      (.conditional Catalog.forTeam) = false := by
  intro yes answers
  have read : ApplyResponse.decoder.ofText (decode yes) = .ok ⟨true⟩ := by
    have shallow : (ApplyResponse.toJson ⟨true⟩).depth ≤ maxNesting := by decide
    have text : decode yes = ofString (ApplyResponse.toJson ⟨true⟩).text :=
      (congrArg decode (bytes_eq _)).trans (decode_utf8 _)
    rw [text]
    exact (ApplyResponse.follows ⟨true⟩).ofText.1 shallow
  have law (status : Nat) := the_client_fails_closed (m := Id) ⟨"http://catalog"⟩
    (fun _ => .answered status yes) "component:default/service-a" Catalog.forTeam
  constructor
  · obtain ⟨_, allowed, _, asked, _, iff⟩ := law 200
    exact asked.trans ((iff _).2 ⟨200, yes, rfl, by decide, by decide, read⟩)
  · obtain ⟨_, allowed, _, asked, _, iff⟩ := law 403
    refine asked.trans (Bool.eq_false_iff.2 fun said => ?_)
    obtain ⟨status, body, same, _, most, _⟩ := (iff _).1 said
    cases same
    revert most
    decide

end Permit
