-- The port. It is asked for as a whole number, in the TOML text with quotes or without, or in a
-- variable. A number of 16 bits is the port and with any other nothing loads, but for one gap: a
-- variable with a number too far below zero for 64 bits gives port zero.
import Permit.Proofs.Settings.Wholes
import Permit.Proofs.Toml.Numbers
import Permit.Proofs.Toml.Places

namespace Permit

/-! ## What is loaded -/

/-- What the settings are loaded from: the TOML text itself, a file with it, in which the mark of
the byte order does not count, or no text, so that there is the environment alone. -/
inductive LoadedFrom (text : String) (env : List (String × String)) :
    Except SettingsError Settings → Prop where
  | text : LoadedFrom text env (Settings.ofToml text env)
  | file {content : String} : String.ofList (Toml.withoutMark content.toList) = text →
      LoadedFrom text env (Settings.ofFile (some content) env)
  | environment : text = "" → LoadedFrom text env (Settings.ofVariables env)

variable {text : String} {members : Toml.Members} {env : List (String × String)} {n : Int}
  {loaded : Except SettingsError Settings}

theorem LoadedFrom.eq (h : LoadedFrom text env loaded) : loaded = Settings.ofToml text env := by
  cases h with
  | text => rfl
  | @file content same =>
    subst same
    unfold Settings.ofFile
    dsimp only
    split
    · next mark =>
      rw [mark]
      rfl
    · next noMark => rw [Toml.withoutMark_of_ne noMark, String.ofList_toList]
  | environment same =>
    subst same
    rfl

/-- What comes of a number that is asked for as the port: settings with this port if the number has
16 bits and the rest is valid, nothing if it has not, and settings with another port never. -/
structure PortOrError (n : Int) (rest : Prop) (loaded : Except SettingsError Settings) :
    Prop where
  port : 0 ≤ n → n ≤ 65535 → rest → ∃ s, loaded = .ok s ∧ (s.server.port.toNat : Int) = n
  error : ¬ (0 ≤ n ∧ n ≤ 65535) → ∃ e, loaded = .error e
  same : ∀ s, loaded = .ok s → (s.server.port.toNat : Int) = n

theorem portOrError_of {rest : Prop}
    (same : ∀ s, loaded = .ok s → portOf? n = some s.server.port)
    (valid : ∀ p, portOf? n = some p → rest → ∃ s, loaded = .ok s) :
    PortOrError n rest loaded := by
  refine ⟨fun least most rest => ?_, fun outside => ?_, fun s loads =>
    portOf?_eq_some (same s loads)⟩
  · obtain ⟨s, loads⟩ := valid _ (if_pos ⟨least, by omega⟩) rest
    exact ⟨s, loads, portOf?_eq_some (same s loads)⟩
  · cases loads : loaded with
    | error e => exact ⟨e, rfl⟩
    | ok s =>
      have found := same s loads
      rw [portOf?, if_neg (by omega)] at found
      cases found

/-! ## The port in the text -/

/-- A TOML value that asks for the number: the number itself, or its digits in quotes. A minus in
front of zero is no digit of it. -/
inductive AsksFor : Toml.Value → Int → Prop
  | number (n : Int) : AsksFor (.integer n) n
  | quoted {s : String} {n : Int} : SpellsWhole s.toList n →
      (n = 0 → s.toList.head? ≠ some '-') → AsksFor (.string s) n

theorem AsksFor.toPort? {v : Toml.Value} (h : AsksFor v n) :
    toPort? (.ofToml v) = portOf? n := by
  cases h with
  | number => exact toPort?_integer n
  | quoted spelled usual => exact toPort?_text spelled usual

/-- The digits in which the number is printed ask for it in quotes. -/
theorem asksFor_intDigits (n : Int) : AsksFor (.string (String.ofList (intDigits n))) n := by
  refine .quoted ?_ ?_
  · rw [String.toList_ofList]
    exact spellsWhole_intDigits n
  · rintro rfl
    decide

theorem portOrError_of_given {v : Toml.Value} (only : Field.port.Only text members env)
    (unset : env.lookup Field.port.variableName = none)
    (given : Field.port.given? members = some v) (asks : AsksFor v n) :
    PortOrError n
      (∀ f : Field, f ≠ .port → f.Only text members env ∧ (f.layered? members env).isSome)
      (Settings.ofToml text env) := by
  have layered : Field.port.layered? members env = portOf? n := by
    rw [Field.layered?, unset, given]
    exact asks.toPort?
  refine portOrError_of (fun s loads => ?_) fun p inRange others => ?_
  · rw [ofToml_eq_ofSetting only.reads] at loads
    rw [← layered, ← only.value?_eq.1]
    exact Field.value?_of_ofSetting only.value?_eq.2 loads
  · have each (f : Field) : f.Only text members env ∧ (f.layered? members env).isSome := by
      by_cases isPort : f = .port
      · subst isPort
        exact ⟨only, by rw [layered, inRange]; rfl⟩
      · exact others f isPort
    obtain ⟨s, loads, -⟩ := ofToml_of_layered (fun f => (each f).1) fun f => (each f).2
    exact ⟨s, loads⟩

/-! ## The port in a variable -/

/-- The settings load without the variable for the port, or with some value of it. -/
inductive RestLoads (text : String) (before after : List (String × String)) : Prop where
  | unset {s : Settings} : Settings.ofToml text (before ++ after) = .ok s →
      RestLoads text before after
  | set {earlier : String} {s : Settings} :
      Settings.ofToml text (before ++ (Field.port.variableName, earlier) :: after) = .ok s →
      RestLoads text before after

section Variable

variable {before after : List (String × String)} {value : String}
  (away : ∀ m ∈ Settings.ofEnvironment after, ¬ Field.port.On (.ofText m.1))
include away

theorem RestLoads.ofToml {p : UInt16} (rest : RestLoads text before after)
    (accepted : toPort? (Settings.ofVariable value) = some p) :
    ∃ s, Settings.ofToml text (before ++ (Field.port.variableName, value) :: after) = .ok s ∧
      s.server.port = p := by
  cases rest with
  | unset valid => exact Field.ofToml_variable (f := .port) valid away accepted
  | set valid => exact Field.ofToml_another_value (f := .port) valid away accepted

theorem portOrError_of_variable (spelled : SpellsWhole value.toList n)
    (least : -0x8000000000000000 ≤ n) :
    PortOrError n (RestLoads text before after)
      (Settings.ofToml text (before ++ (Field.port.variableName, value) :: after)) := by
  have accepted := toPort?_variable spelled least
  refine portOrError_of (fun s loads => ?_) fun p inRange rest => ?_
  · obtain ⟨members, reads⟩ := Field.reads_of_ofToml loads
    rw [ofToml_eq_ofSetting reads] at loads
    rw [← accepted]
    exact (Field.value?_variable away).symm.trans
      (Field.value?_of_ofSetting (Field.found?_variable away).2 loads)
  · obtain ⟨s, loads, -⟩ := rest.ofToml away (accepted.trans inRange)
    exact ⟨s, loads⟩

end Variable

/-- A whole number that is asked for as the port, in a text or a file and an environment or in the
environment alone. The digits in which it is printed ask for it without quotes, in quotes and in a
variable. Where the text has it in the port's entry and no variable sets the port, or a variable
sets the port to it, the port is this number if it has 16 bits and the rest is valid, nothing loads
if it has not, and no other port is ever loaded. A text with a number that does not have 64 bits
never loads. Only a variable with a number too far below zero for 64 bits gives port zero. -/
theorem a_port_is_the_number_asked_for (n : Int) (loads : LoadedFrom text env loaded) :
    (Toml.integer? (intDigits n) = some n ∧ AsksFor (.string (String.ofList (intDigits n))) n ∧
      SpellsWhole (intDigits n) n) ∧
    (∀ members v, Field.port.Only text members env →
      env.lookup Field.port.variableName = none → Field.port.given? members = some v →
      AsksFor v n →
      PortOrError n
        (∀ f : Field, f ≠ .port → f.Only text members env ∧ (f.layered? members env).isSome)
        loaded) ∧
    (∀ w, Toml.ComesTo text w → Toml.integer? w = some n → Toml.isWord n = false →
      ∃ e, loaded = .error e) ∧
    ∀ before value after, env = before ++ (Field.port.variableName, value) :: after →
      (∀ m ∈ Settings.ofEnvironment after, ¬ Field.port.On (.ofText m.1)) →
      SpellsWhole value.toList n →
      (-0x8000000000000000 ≤ n → PortOrError n (RestLoads text before after) loaded) ∧
      (n < -0x8000000000000000 → RestLoads text before after →
        ∃ s, loaded = .ok s ∧ s.server.port = 0) := by
  rw [loads.eq]
  refine ⟨⟨Toml.integer?_intDigits n, asksFor_intDigits n, spellsWhole_intDigits n⟩,
    fun members v only unset given asks => portOrError_of_given only unset given asks,
    fun w comes spelled beyond => ?_, ?_⟩
  · rw [Settings.ofToml, comes.refused_integer spelled beyond]
    exact ⟨_, rfl⟩
  · rintro before value after rfl away spelled
    exact ⟨portOrError_of_variable away spelled,
      fun below rest => rest.ofToml away (toPort?_below spelled below)⟩

/-- The greatest port in quotes, a number past 64 bits in braces in a file, and both in a
variable. -/
theorem a_port_asked_for_in_each_way :
    (∃ s, Settings.ofToml "server.port = \"065535\"" [] = .ok s ∧
      (s.server.port.toNat : Int) = 65535) ∧
    (∃ e, Settings.ofFile (some "\ufeffserver = \x7bport = 9223372036854775808\x7d") [] =
      .error e) ∧
    (∃ s, Settings.ofVariables [("RULEWARD_SERVER__PORT", "+65535")] = .ok s ∧
      (s.server.port.toNat : Int) = 65535) ∧
    ∃ e, Settings.ofVariables [("RULEWARD_SERVER__PORT", "9223372036854775808")] = .error e := by
  have rest : RestLoads "" [] [] := .unset rfl
  have alone : ∀ m ∈ Settings.ofEnvironment [], ¬ Field.port.On (.ofText m.1) := by
    simp [Settings.ofEnvironment]
  refine ⟨?_, ?_, ?_, ?_⟩
  · have only (f : Field) : f.Only "server.port = \"065535\""
        [("server", .table .dotted [("port", .string "065535")])] [] := {
      reads := rfl
      table := by
        intro v h
        cases f <;> cases h <;> exact ⟨_, _, rfl⟩
      aside := by
        intro m hm other
        cases List.mem_singleton.1 hm
        exact Field.not_on_section (g := .port) other
      once := List.nodup_nil
      away := by simp }
    have spelled : SpellsWhole ([] ++ "065535".toList) 65535 :=
      .mk .absent ⟨by decide, List.all_eq_true.1 (by decide)⟩
    have given := (a_port_is_the_number_asked_for 65535 .text).2.1 _ _ (only .port) rfl rfl
      (.quoted spelled (by decide))
    refine given.port (by decide) (by decide) fun f other => ⟨only f, ?_⟩
    cases f <;> first | rfl | exact absurd rfl other
  · have value : Toml.ToWord "9223372036854775808".toList 79 "9223372036854775808\x7d".toList :=
      .word (by decide)
    have table : Toml.ToWord "9223372036854775808".toList 80
        ('\x7b' :: "port = 9223372036854775808\x7d".toList) :=
      .member (.here rfl (by decide))
        (show Toml.key? _ = some (⟨[], "port"⟩, "= 9223372036854775808\x7d".toList) from rfl)
        rfl rfl value
    have comes : Toml.ComesTo "server = \x7bport = 9223372036854775808\x7d"
        "9223372036854775808".toList :=
      ⟨"server = \x7bport = 9223372036854775808\x7d".toList, ⟨[], "server"⟩,
        ' ' :: '\x7b' :: "port = 9223372036854775808\x7d".toList, .here rfl, rfl, table⟩
    exact (a_port_is_the_number_asked_for 9223372036854775808 (.file rfl)).2.2.1 _ comes (by decide)
      (by decide)
  · have spelled : SpellsWhole (['+'] ++ "65535".toList) 65535 :=
      .mk .plus ⟨by decide, List.all_eq_true.1 (by decide)⟩
    have given := ((a_port_is_the_number_asked_for 65535 (.environment rfl)).2.2.2 [] "+65535" []
      rfl alone spelled).1 (by decide)
    exact given.port (by decide) (by decide) rest
  · have spelled : SpellsWhole ([] ++ "9223372036854775808".toList) 9223372036854775808 :=
      .mk .absent ⟨by decide, List.all_eq_true.1 (by decide)⟩
    have given := ((a_port_is_the_number_asked_for 9223372036854775808 (.environment rfl)).2.2.2 []
      "9223372036854775808" [] rfl alone spelled).1 (by decide)
    exact given.error (by decide)

/-- A number just below those of 64 bits is port zero when it is read from a variable. -/
theorem a_number_below_64_bits_is_port_zero :
    SpellsWhole "-9223372036854775809".toList (-9223372036854775809) ∧
    (∃ s, Settings.ofToml "" [("RULEWARD_SERVER__PORT", "-9223372036854775809")] = .ok s ∧
      s.server.port = 0) ∧
    ¬ PortOrError (-9223372036854775809) (RestLoads "" [] [])
      (Settings.ofToml "" [("RULEWARD_SERVER__PORT", "-9223372036854775809")]) := by
  have spelled : SpellsWhole (['-'] ++ "9223372036854775809".toList) (-9223372036854775809) :=
    .mk .minus ⟨by decide, List.all_eq_true.1 (by decide)⟩
  have rest : RestLoads "" [] [] := .unset rfl
  have accepted : toPort? (Settings.ofVariable "-9223372036854775809") = some 0 :=
    toPort?_below spelled (by decide)
  obtain ⟨s, loads, zero⟩ := rest.ofToml (by simp [Settings.ofEnvironment]) accepted
  refine ⟨spelled, ⟨s, loads, zero⟩, fun asked => ?_⟩
  obtain ⟨e, fails⟩ := asked.error (by decide)
  cases loads.symm.trans fails

end Permit
