-- Settings come in layers. A variable of the environment counts more than the TOML text and this
-- more than what is built in, field by field: what is set for one field changes no other.
import Permit.Proofs.Settings.Fields

namespace Permit
namespace Field

open Settings (applyLayer ofEnvironment ofVariable settingName?)

variable {f : Field} {s : Setting} {values : List (String × Setting)}

/-! ## One layer -/

theorem applyLayer_append (s : Setting) (before after : List (String × Setting)) :
    applyLayer s (before ++ after) = applyLayer (applyLayer s before) after :=
  List.foldl_append

theorem applyLayer_cons (s v : Setting) (name : String) (rest : List (String × Setting)) :
    applyLayer s ((name, v) :: rest) = applyLayer (s.put (.ofText name) v) rest :=
  rfl

/-- Values whose names lead elsewhere leave a field as it is. -/
theorem applyLayer_of_not_on (h : ∀ m ∈ values, ¬ f.On (.ofText m.1)) (seated : f.Seated s) :
    f.found? (applyLayer s values) = f.found? s ∧ f.Seated (applyLayer s values) := by
  induction values generalizing s with
  | nil => exact ⟨rfl, seated⟩
  | cons m rest ih =>
    obtain ⟨name, path, eq, -⟩ := Path.ofText_eq m.1
    have away : ¬ f.On (.member name :: path) := eq ▸ h m List.mem_cons_self
    have later := ih (fun m hm => h m (List.mem_cons_of_mem _ hm))
      (seated_put_of_not_on (v := m.2) away seated)
    rw [found?_put_of_not_on away, ← eq] at later
    exact later

/-- A table for the section of a field that is not set so far: the field is what the table has
for it. -/
theorem put_section {members : List (String × Setting)} (once : (members.map Prod.fst).Nodup)
    (unset : f.found? s = none) (seated : f.Seated s) :
    f.found? (s.put [.member f.sectionName] (.table members)) =
        (members.lookup f.name).map Setting.absent.overlay ∧
      f.Seated (s.put [.member f.sectionName] (.table members)) := by
  obtain ⟨earlier, here, above⟩ : ∃ earlier, earlier.lookup f.name = f.found? s ∧
      (s.member f.sectionName).overlay (.table members) =
        Setting.overlayMembers (.table earlier) members := by
    rcases seated with missing | ⟨earlier, found⟩
    · refine ⟨[], ?_, ?_⟩
      · rw [found?, Setting.member, missing]
        rfl
      · simp [Setting.member, missing, Setting.overlay]
    · refine ⟨earlier, ?_, ?_⟩
      · rw [found?, Setting.member, found]
        rfl
      · simp [Setting.member, found, Setting.overlay]
  obtain ⟨joined, eq, found⟩ := lookup_overlayMembers once earlier f.name
  have now : s.put [.member f.sectionName] (.table members) =
      s.withMember f.sectionName (.table joined) := by
    rw [← eq, ← above]
    rfl
  rw [now]
  refine ⟨?_, .inr ⟨joined, lookup_withMember_self ..⟩⟩
  rw [found?, Setting.member_withMember_self, Setting.members, found, here, unset]
  cases members.lookup f.name <;> rfl

/-! ## The layer of a TOML text -/

/-- What the members of a TOML text have for the field. -/
def given? (f : Field) (members : Toml.Members) : Option Toml.Value :=
  match members.lookup f.sectionName with
  | some (.table _ inner) => inner.lookup f.name
  | _ => none

theorem lookup_ofTomlMembers (members : Toml.Members) (name : String) :
    (Setting.ofTomlMembers members).lookup name = (members.lookup name).map Setting.ofToml := by
  induction members with
  | nil => rfl
  | cons m rest ih =>
    obtain ⟨k, v⟩ := m
    rw [Setting.ofTomlMembers, List.lookup_cons, List.lookup_cons, ih]
    cases name == k <;> rfl

theorem names_ofTomlMembers (members : Toml.Members) :
    (Setting.ofTomlMembers members).map Prod.fst = members.map Prod.fst := by
  induction members with
  | nil => rfl
  | cons m rest ih => simp [Setting.ofTomlMembers, ih]

/-- The entry of the section among entries that do not lead to the field. -/
theorem applyLayer_around_section {before after members : List (String × Setting)}
    (awayBefore : ∀ m ∈ before, ¬ f.On (.ofText m.1))
    (awayAfter : ∀ m ∈ after, ¬ f.On (.ofText m.1)) (once : (members.map Prod.fst).Nodup) :
    f.found? (applyLayer (.table []) (before ++ (f.sectionName, .table members) :: after)) =
        (members.lookup f.name).map Setting.absent.overlay ∧
      f.Seated (applyLayer (.table []) (before ++ (f.sectionName, .table members) :: after)) := by
  have pre := applyLayer_of_not_on awayBefore (.inl rfl : f.Seated (.table []))
  have own := put_section once pre.1 pre.2
  have post := applyLayer_of_not_on awayAfter own.2
  rw [applyLayer_append, applyLayer_cons, ofText_section]
  exact ⟨post.1.trans own.1, post.2⟩

/-- The TOML text over an empty configuration: a field is what the text has for it, where its
section is a table and no other name leads to the field. -/
theorem applyLayer_members {members : Toml.Members} (distinct : Toml.DistinctMembers members)
    (table : ∀ v, members.lookup f.sectionName = some v → ∃ kind inner, v = .table kind inner)
    (aside : ∀ m ∈ members, m.1 ≠ f.sectionName → ¬ f.On (.ofText m.1)) :
    f.found? (applyLayer (.table []) (Setting.ofTomlMembers members)) =
        (f.given? members).map (fun v => Setting.absent.overlay (.ofToml v)) ∧
      f.Seated (applyLayer (.table []) (Setting.ofTomlMembers members)) := by
  have apart : ∀ m ∈ Setting.ofTomlMembers members, m.1 ≠ f.sectionName →
      ¬ f.On (.ofText m.1) := by
    intro m hm other
    obtain ⟨w, hw, eq⟩ := List.mem_map.1 (names_ofTomlMembers members ▸ List.mem_map_of_mem hm)
    rw [← eq] at other ⊢
    exact aside w hw other
  cases here : members.lookup f.sectionName with
  | none =>
    have absent : f.sectionName ∉ (Setting.ofTomlMembers members).map Prod.fst := by
      rw [names_ofTomlMembers]
      exact Toml.not_mem_of_lookup here
    have untouched := applyLayer_of_not_on
      (fun m hm => apart m hm fun eq => absent (eq ▸ List.mem_map_of_mem hm))
      (.inl rfl : f.Seated (.table []))
    rw [given?, here]
    exact untouched
  | some v =>
    obtain ⟨kind, inner, rfl⟩ := table v here
    have given : (Setting.ofTomlMembers members).lookup f.sectionName =
        some (.table (Setting.ofTomlMembers inner)) := by
      rw [lookup_ofTomlMembers, here]
      simp [Setting.ofToml]
    have once := distinct.names
    rw [← names_ofTomlMembers] at once
    obtain ⟨before, after, split, notBefore, notAfter⟩ := Toml.split_at_lookup once given
    rw [split] at apart ⊢
    have around := applyLayer_around_section
      (fun m hm => apart m (List.mem_append_left _ hm) (notBefore m hm))
      (fun m hm => apart m (List.mem_append_right _ (List.mem_cons_of_mem _ hm)) (notAfter m hm))
      (names_ofTomlMembers inner ▸ (distinct.of_lookup here).members.names)
    refine ⟨?_, around.2⟩
    rw [around.1, lookup_ofTomlMembers, Option.map_map, given?, here]
    rfl

/-! ## The layer of the environment -/

/-- A variable is that of a field and has a value that the field accepts, or it leads to no field
at all. -/
def Suits (name value : String) : Prop :=
  (∀ k, settingName? name = some k → ∀ f : Field, ¬ f.On (.ofText k)) ∨
    ∃ f : Field, name = f.variableName ∧ (f.accept? (ofVariable value)).isSome

theorem Suits.accepted {value : String} (h : Suits f.variableName value) :
    (f.accept? (ofVariable value)).isSome := by
  rcases h with away | ⟨g, named, accepted⟩
  · refine absurd ?_ (away _ (settingName?_variable f) f)
    rw [ofText_variable]
    exact .field []
  · rwa [eq_of_variableName named]

/-- A variable other than that of a field does not lead to the field. -/
theorem Suits.away {name value : String} (h : Suits name value) (other : name ≠ f.variableName) :
    ∀ k, settingName? name = some k → ¬ f.On (.ofText k) := by
  intro k hk on
  rcases h with away | ⟨g, rfl, -⟩
  · exact away k hk f on
  · rw [settingName?_variable] at hk
    cases hk
    rw [ofText_variable] at on
    exact other (path_on on ▸ rfl)

variable {env : List (String × String)}

theorem not_on_ofEnvironment
    (away : ∀ m ∈ env, ∀ k, settingName? m.1 = some k → ¬ f.On (.ofText k)) :
    ∀ m ∈ ofEnvironment env, ¬ f.On (.ofText m.1) := by
  intro m hm
  obtain ⟨⟨name, value⟩, hw, eq⟩ := List.mem_filterMap.1 hm
  obtain ⟨k, hk, rfl⟩ := Option.map_eq_some_iff.1 eq
  exact away _ hw k hk

/-- The variable of a field among others sets the field. -/
theorem applyLayer_variable (s : Setting) (f : Field) (value : String)
    (before after : List (String × String)) :
    applyLayer s (ofEnvironment (before ++ (f.variableName, value) :: after)) =
      applyLayer ((applyLayer s (ofEnvironment before)).put f.path (ofVariable value))
        (ofEnvironment after) := by
  rw [ofEnvironment, List.filterMap_append, List.filterMap_cons]
  simp only [settingName?_variable, Option.map_some]
  rw [applyLayer_append, applyLayer_cons, ofText_variable]
  rfl

/-- The value of a variable is no table, so it takes the place of what was there. -/
theorem overlay_ofVariable (earlier : Setting) (value : String) :
    earlier.overlay (ofVariable value) = ofVariable value := by
  unfold ofVariable
  dsimp only
  split <;> simp [Setting.overlay]

/-- A field after its variable, if no variable after that leads to it. -/
theorem found?_variable {value : String} {before after : List (String × String)}
    (away : ∀ m ∈ ofEnvironment after, ¬ f.On (.ofText m.1)) :
    f.found? (applyLayer s (ofEnvironment (before ++ (f.variableName, value) :: after))) =
        some (ofVariable value) ∧
      f.Seated (applyLayer s (ofEnvironment (before ++ (f.variableName, value) :: after))) := by
  rw [applyLayer_variable]
  have later := applyLayer_of_not_on away (seated_put_path
    (s := applyLayer s (ofEnvironment before)) (v := ofVariable value))
  rw [found?_put_path, overlay_ofVariable] at later
  exact later

/-- The environment over a configuration: a field is the value of its variable where that is
set. -/
theorem applyLayer_environment (once : (env.map Prod.fst).Nodup)
    (away : ∀ m ∈ env, m.1 ≠ f.variableName →
      ∀ k, settingName? m.1 = some k → ¬ f.On (.ofText k)) (seated : f.Seated s) :
    f.found? (applyLayer s (ofEnvironment env)) =
        ((env.lookup f.variableName).map ofVariable).or (f.found? s) ∧
      f.Seated (applyLayer s (ofEnvironment env)) := by
  cases set : env.lookup f.variableName with
  | none =>
    have unset := Toml.not_mem_of_lookup set
    exact applyLayer_of_not_on (not_on_ofEnvironment fun m hm =>
      away m hm fun eq => unset (eq ▸ List.mem_map_of_mem hm)) seated
  | some value =>
    obtain ⟨before, after, rfl, -, notAfter⟩ := Toml.split_at_lookup once set
    exact found?_variable (not_on_ofEnvironment fun m hm =>
      away m (List.mem_append_right _ (List.mem_cons_of_mem _ hm)) (notAfter m hm))

end Field

/-! ## All layers -/

/-- A TOML text with these members and an environment that give every field they set a value that
it accepts: the sections are tables with such values, and each variable is set once. -/
structure Typed (text : String) (members : Toml.Members) (env : List (String × String)) :
    Prop where
  reads : Toml.document? text = some members
  table : ∀ (f : Field) v, members.lookup f.sectionName = some v →
    ∃ kind inner, v = .table kind inner
  accepted : ∀ (f : Field) v, f.given? members = some v → (f.accept? (.ofToml v)).isSome
  once : (env.map Prod.fst).Nodup
  suits : ∀ m ∈ env, Field.Suits m.1 m.2

/-- The names at the top of a text are read as paths. Besides the sections none of these may lead
to a field or to a place of a section, as `"server.port"` and `"server[0]"` in quotes do. -/
structure Fitting (text : String) (members : Toml.Members) (env : List (String × String)) : Prop
    extends Typed text members env where
  aside : ∀ (f : Field), ∀ m ∈ members, m.1 ≠ f.sectionName → ¬ f.On (.ofText m.1)

/-- What a field is by its own layers alone: what it makes of its variable, else of the value in
the TOML text, else what is built in. -/
def Field.layered? (f : Field) (members : Toml.Members) (env : List (String × String)) :
    Option f.Value :=
  match env.lookup f.variableName with
  | some value => f.accept? (Settings.ofVariable value)
  | none =>
    match f.given? members with
    | some v => f.accept? (.ofToml v)
    | none => some (f.of .builtIn)

/-- Nothing leads to the field but its entry in its section, which is a table, and its variable,
which is set at most once. -/
structure Field.Only (f : Field) (text : String) (members : Toml.Members)
    (env : List (String × String)) : Prop where
  reads : Toml.document? text = some members
  table : ∀ v, members.lookup f.sectionName = some v → ∃ kind inner, v = .table kind inner
  aside : ∀ m ∈ members, m.1 ≠ f.sectionName → ¬ f.On (.ofText m.1)
  once : (env.map Prod.fst).Nodup
  away : ∀ m ∈ env, m.1 ≠ f.variableName →
    ∀ k, Settings.settingName? m.1 = some k → ¬ f.On (.ofText k)

variable {text : String} {members : Toml.Members} {env : List (String × String)}

/-- The configuration that all layers make. -/
def allLayers (members : Toml.Members) (env : List (String × String)) : Setting :=
  Settings.applyLayer (Settings.applyLayer (.table []) (Setting.ofTomlMembers members))
    (Settings.ofEnvironment env)

theorem ofToml_eq_ofSetting (reads : Toml.document? text = some members) :
    Settings.ofToml text env = Settings.ofSetting (allLayers members env) := by
  rw [Settings.ofToml, reads, allLayers]

/-- In all layers together a field is what its own layers make it. -/
theorem Field.Only.value?_eq {f : Field} (h : f.Only text members env) :
    f.value? (allLayers members env) = f.layered? members env ∧
      f.Seated (allLayers members env) := by
  have inFile := Field.applyLayer_members (Toml.distinct_document h.reads) h.table h.aside
  have inAll := Field.applyLayer_environment h.once h.away inFile.2
  refine ⟨?_, inAll.2⟩
  rw [Field.value?, allLayers, inAll.1, inFile.1, Field.layered?]
  cases env.lookup f.variableName with
  | some value => rfl
  | none =>
    cases f.given? members with
    | none => rfl
    | some v => exact Field.accept?_overlay f (.ofToml v)

/-- Where each field has its own layers only and accepts what these have for it, the settings
load, and each field is what its layers make it. -/
theorem ofToml_of_layered (only : ∀ f : Field, f.Only text members env)
    (accepted : ∀ f : Field, (f.layered? members env).isSome) :
    ∃ s, Settings.ofToml text env = .ok s ∧
      ∀ f : Field, f.layered? members env = some (f.of s) := by
  have value (f : Field) := (only f).value?_eq
  obtain ⟨s, loads, fields⟩ := Field.ofSetting_of_values (fun f => (value f).2) fun f => by
    rw [(value f).1]
    exact accepted f
  refine ⟨s, ?_, fun f => (value f).1 ▸ fields f⟩
  rw [ofToml_eq_ofSetting (only .host).reads]
  exact loads

namespace Fitting

theorem only (h : Fitting text members env) (f : Field) : f.Only text members env where
  reads := h.reads
  table := h.table f
  aside := h.aside f
  once := h.once
  away m hm other := (h.suits m hm).away other

/-- The field by its layers is there. -/
theorem isSome_layered (h : Fitting text members env) (f : Field) :
    (f.layered? members env).isSome := by
  rw [Field.layered?]
  split
  · next set => exact (h.suits _ (Toml.mem_of_lookup set)).accepted
  · split
    · next entry => exact h.accepted f _ entry
    · rfl

/-- The settings load, and each field is what its own layers make it. -/
theorem ofToml_eq (h : Fitting text members env) :
    ∃ s, Settings.ofToml text env = .ok s ∧
      ∀ f : Field, f.layered? members env = some (f.of s) :=
  ofToml_of_layered h.only h.isSome_layered

/-- A value of the field's own kind in the text is the field where no variable sets it. -/
theorem of_eq_own (h : Fitting text members env) {s : Settings}
    (loads : Settings.ofToml text env = .ok s) {f : Field} {v : Toml.Value} {a : f.Value}
    (unset : env.lookup f.variableName = none) (entry : f.given? members = some v)
    (own : f.own? v = some a) : f.of s = a := by
  obtain ⟨s', loads', fields⟩ := h.ofToml_eq
  cases loads.symm.trans loads'
  refine Option.some.inj ?_
  rw [← fields f, Field.layered?, unset, entry]
  exact Field.accept?_of_own own

end Fitting

/-- The settings of a TOML text and an environment that fit: they load, and each field is what its
variable makes it, else the text, else what is built in. A value of the field's own kind in the
text is taken as it is. Under any other text and environment that fit and have the same for the
field, the field is the same. -/
theorem settings_come_in_layers (h : Fitting text members env) :
    ∃ s, Settings.ofToml text env = .ok s ∧
      ∀ f : Field, f.layered? members env = some (f.of s) ∧
        (env.lookup f.variableName = none →
          ∀ v a, f.given? members = some v → f.own? v = some a → f.of s = a) ∧
        ∀ text' members' env', Fitting text' members' env' →
          f.given? members' = f.given? members →
          env'.lookup f.variableName = env.lookup f.variableName →
          ∃ s', Settings.ofToml text' env' = .ok s' ∧ f.of s' = f.of s := by
  obtain ⟨s, loads, layered⟩ := h.ofToml_eq
  refine ⟨s, loads, fun f => ⟨layered f, fun unset v a => h.of_eq_own loads unset, ?_⟩⟩
  intro text' members' env' h' sameEntry sameVariable
  obtain ⟨s', loads', layered'⟩ := h'.ofToml_eq
  refine ⟨s', loads', Option.some.inj ?_⟩
  rw [← layered f, ← layered' f, Field.layered?, Field.layered?, sameEntry, sameVariable]

/-- A variable for the host leaves the port of the text, and one for the level leaves whether
lines are JSON. -/
theorem a_variable_leaves_the_rest_of_its_section :
    ∃ members, Fitting "log.json = true\n[server]\nport = 8080\nhost = \"10.0.0.1\"\n" members
        [("RULEWARD_SERVER__HOST", "::1"), ("RULEWARD_LOG__LEVEL", "debug")] ∧
      Settings.ofToml "log.json = true\n[server]\nport = 8080\nhost = \"10.0.0.1\"\n"
          [("RULEWARD_SERVER__HOST", "::1"), ("RULEWARD_LOG__LEVEL", "debug")] =
        .ok ⟨⟨"::1", 8080⟩, ⟨"debug", true⟩, Settings.builtIn.owner⟩ := by
  have host : Settings.ofVariable "::1" = .text "::1" := by cbv
  have level : Settings.ofVariable "debug" = .text "debug" := by cbv
  have fits : Fitting "log.json = true\n[server]\nport = 8080\nhost = \"10.0.0.1\"\n"
      [("log", .table .dotted [("json", .boolean true)]),
        ("server", .table .headed [("port", .integer 8080), ("host", .string "10.0.0.1")])]
      [("RULEWARD_SERVER__HOST", "::1"), ("RULEWARD_LOG__LEVEL", "debug")] := {
    reads := rfl
    table := by
      intro f v h
      cases f <;> cases h <;> exact ⟨_, _, rfl⟩
    accepted := by
      intro f v h
      cases f <;> cases h <;> rfl
    aside := by
      intro f m hm other
      simp only [List.mem_cons, List.not_mem_nil, or_false] at hm
      rcases hm with rfl | rfl
      · exact Field.not_on_section (g := .level) other
      · exact Field.not_on_section (g := .host) other
    once := by decide
    suits := by
      intro m hm
      simp only [List.mem_cons, List.not_mem_nil, or_false] at hm
      rcases hm with rfl | rfl
      · exact .inr ⟨.host, rfl, by rw [host]; rfl⟩
      · exact .inr ⟨.level, rfl, by rw [level]; rfl⟩ }
  refine ⟨_, fits, ?_⟩
  obtain ⟨⟨⟨h, p⟩, ⟨l, j⟩, ⟨i, r⟩⟩, loads, fields⟩ := settings_come_in_layers fits
  have hostEq := (fields .host).1
  have portEq := (fields .port).1
  have levelEq := (fields .level).1
  have jsonEq := (fields .json).1
  have pluginEq := (fields .pluginId).1
  have typeEq := (fields .resourceType).1
  change Field.host.accept? (Settings.ofVariable "::1") = _ at hostEq
  change Field.level.accept? (Settings.ofVariable "debug") = _ at levelEq
  rw [host] at hostEq
  rw [level] at levelEq
  cases hostEq
  cases portEq
  cases levelEq
  cases jsonEq
  cases pluginEq
  cases typeEq
  exact loads

/-- A name at the top that is spelled as a place sets a field though no section has an entry. -/
theorem a_place_at_the_top_sets_the_host :
    ∃ members s, Typed "\"server[0]\" = 1" members [] ∧
      Settings.ofToml "\"server[0]\" = 1" [] = .ok s ∧
      Field.host.layered? members [] = some "0.0.0.0" ∧ s.server.host = "1" := by
  have reads : Toml.document? "\"server[0]\" = 1" = some [("server[0]", .integer 1)] := rfl
  have typed : Typed "\"server[0]\" = 1" [("server[0]", .integer 1)] [] := {
    reads
    table := by
      intro f v h
      cases f <;> cases h
    accepted := by
      intro f v h
      cases f <;> cases h
    once := List.nodup_nil
    suits := by simp }
  have path : Path.ofText "server[0]" = [.member "server", .place 0] := by decide
  have file : Settings.applyLayer (.table []) (Setting.ofTomlMembers [("server[0]", .integer 1)]) =
      .table [("server", .list [.integer 1])] := by
    change Setting.put (.table []) (Path.ofText "server[0]") (.integer 1) = _
    rw [path]
    simp [Setting.put, Setting.change, Setting.withRoom, Setting.withMember, Setting.member,
      Setting.members, Setting.items, Setting.overlay, Toml.put]
  have loads : Settings.ofToml "\"server[0]\" = 1" [] =
      .ok ⟨⟨"1", 7007⟩, Settings.builtIn.log, Settings.builtIn.owner⟩ := by
    rw [Settings.ofToml, reads]
    simp only [file]
    rfl
  exact ⟨_, _, typed, loads, rfl, rfl⟩

end Permit
