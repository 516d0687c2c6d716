-- One more value: what is set along the way to one field takes nothing from the others, so a
-- configuration that can be read is still read, with the field as its value makes it.
import Permit.Proofs.Json.Drafts
import Permit.Proofs.Layers

namespace Permit
namespace Field

open Settings (applyLayer ofEnvironment ofVariable)

/-- Two configurations with the same but for a field: the other sections, and the other members
of the field's section. -/
structure SameBut (f : Field) (s t : Setting) : Prop where
  sections : ∀ name, name ≠ f.sectionName → t.members.lookup name = s.members.lookup name
  members : ∀ name, name ≠ f.name →
    (t.member f.sectionName).members.lookup name = (s.member f.sectionName).members.lookup name

variable {f : Field} {s t u v : Setting}

theorem SameBut.refl (f : Field) (s : Setting) : f.SameBut s s where
  sections _ _ := rfl
  members _ _ := rfl

theorem SameBut.symm (same : f.SameBut s t) : f.SameBut t s where
  sections name other := (same.sections name other).symm
  members name other := (same.members name other).symm

theorem SameBut.trans (first : f.SameBut s t) (second : f.SameBut t u) : f.SameBut s u where
  sections name other := (second.sections name other).trans (first.sections name other)
  members name other := (second.members name other).trans (first.members name other)

/-! ## Setting more values -/

theorem sameBut_put_path : f.SameBut s (s.put f.path v) where
  sections _ other := lookup_withMember_ne other
  members name other := by
    simp [Setting.put, Setting.change, path, lookup_withMember_ne other]

/-- The same change of a member that is the same in both. -/
theorem lookup_withMember_congr {change : Setting → Setting} {name other : String}
    (same : t.members.lookup name = s.members.lookup name)
    (here : t.members.lookup other = s.members.lookup other) :
    (t.withMember name (change (t.member name))).members.lookup other =
      (s.withMember name (change (s.member name))).members.lookup other := by
  by_cases eq : other = name
  · subst eq
    simp only [lookup_withMember_self, Setting.member, same]
  · rw [lookup_withMember_ne eq, lookup_withMember_ne eq, here]

/-- The same value along a path that is not on the field. -/
theorem SameBut.put {p : Path} {name : String} (same : f.SameBut s t)
    (away : ¬ f.On (.member name :: p)) (w : Setting) :
    f.SameBut (s.put (.member name :: p) w) (t.put (.member name :: p) w) := by
  by_cases here : f.sectionName = name
  · subst here
    refine ⟨fun n other => ?_, fun n other => ?_⟩
    · simp only [Setting.put, Setting.change, lookup_withMember_ne other, same.sections n other]
    · rcases p with _ | ⟨inner | index, rest⟩
      · exact absurd .whole away
      · have notField : inner ≠ f.name := by
          rintro rfl
          exact away (.field rest)
        simp only [Setting.put, Setting.change, Setting.member_withMember_self]
        exact lookup_withMember_congr (same.members inner notField) (same.members n other)
      · exact absurd (.place index rest) away
  · refine ⟨fun n other => ?_, fun n other => ?_⟩
    · exact lookup_withMember_congr (same.sections name (Ne.symm here)) (same.sections n other)
    · simp only [Setting.put, Setting.change, Setting.member_withMember_ne here,
        same.members n other]

theorem SameBut.applyLayer {values : List (String × Setting)}
    (away : ∀ m ∈ values, ¬ f.On (.ofText m.1)) (same : f.SameBut s t) :
    f.SameBut (applyLayer s values) (applyLayer t values) := by
  induction values generalizing s t with
  | nil => exact same
  | cons m rest ih =>
    obtain ⟨name, path, eq, -⟩ := Path.ofText_eq m.1
    have first : f.SameBut (s.put (.ofText m.1) m.2) (t.put (.ofText m.1) m.2) := by
      have here := away m List.mem_cons_self
      rw [eq] at here ⊢
      exact same.put here m.2
    exact ih (fun w hw => away w (List.mem_cons_of_mem _ hw)) first

/-! ## Reading with one more value -/

theorem readSection_congr {γ : Type} {name : String} {read : Setting → Except Step γ} {builtIn : γ}
    (same : t.members.lookup name = s.members.lookup name) :
    readSection name read builtIn t = readSection name read builtIn s := by
  rw [readSection, readSection, same]

theorem ofSetting_of_sections {server : ServerSettings} {log : LogSettings} {owner : OwnerSettings}
    (readServer : readSection "server" (ServerSettings.ofSetting Settings.builtIn.server)
      Settings.builtIn.server s = .ok server)
    (readLog : readSection "log" (LogSettings.ofSetting Settings.builtIn.log)
      Settings.builtIn.log s = .ok log)
    (readOwner : readSection "integration" (OwnerSettings.ofSetting Settings.builtIn.owner)
      Settings.builtIn.owner s = .ok owner) :
    Settings.ofSetting s = .ok ⟨server, log, owner⟩ := by
  simp only [Settings.ofSetting, readServer, readLog, readOwner]
  rfl

theorem sections_of_ofSetting {settings : Settings} (valid : Settings.ofSetting s = .ok settings) :
    readSection "server" (ServerSettings.ofSetting Settings.builtIn.server)
        Settings.builtIn.server s = .ok settings.server ∧
      readSection "log" (LogSettings.ofSetting Settings.builtIn.log)
        Settings.builtIn.log s = .ok settings.log ∧
      readSection "integration" (OwnerSettings.ofSetting Settings.builtIn.owner)
        Settings.builtIn.owner s = .ok settings.owner := by
  rw [Settings.ofSetting] at valid
  obtain ⟨server, readServer, valid⟩ := Json.bind_eq_ok valid
  obtain ⟨log, readLog, valid⟩ := Json.bind_eq_ok valid
  obtain ⟨owner, readOwner, valid⟩ := Json.bind_eq_ok valid
  cases valid
  exact ⟨readServer, readLog, readOwner⟩

/-- What is found for each field of settings that are read is accepted. -/
theorem isSome_of_ofSetting {settings : Settings} (valid : Settings.ofSetting s = .ok settings)
    (g : Field) : (g.value? s).isSome := by
  obtain ⟨server, log, owner⟩ := sections_of_ofSetting valid
  cases g
  case host => exact (isSome_of_readSection ServerSettings.mk server).1
  case port => exact (isSome_of_readSection ServerSettings.mk server).2
  case level => exact (isSome_of_readSection LogSettings.mk log).1
  case json => exact (isSome_of_readSection LogSettings.mk log).2
  case pluginId => exact (isSome_of_readSection OwnerSettings.mk owner).1
  case resourceType => exact (isSome_of_readSection OwnerSettings.mk owner).2

theorem SameBut.value?_eq (same : f.SameBut s t) {g : Field} (other : g ≠ f) :
    g.value? t = g.value? s := by
  by_cases here : g.sectionName = f.sectionName
  · have found := same.members g.name fun eq => other (eq_of_name eq)
    rw [← here] at found
    rw [value?, value?, found?, found?, found]
  · have found := same.sections g.sectionName here
    rw [value?, value?, found?, found?, Setting.member, Setting.member, found]

/-- Where settings are read, with a value for one field more they are read as well. -/
theorem SameBut.ofSetting {settings : Settings} {a : f.Value} (same : f.SameBut s t)
    (seated : f.Seated t) (set : f.value? t = some a)
    (valid : Settings.ofSetting s = .ok settings) :
    ∃ settings', Settings.ofSetting t = .ok settings' ∧ f.of settings' = a := by
  obtain ⟨server, log, owner⟩ := sections_of_ofSetting valid
  have value (g : Field) (other : g ≠ f) : ∃ b, g.value? t = some b := by
    rw [same.value?_eq other]
    exact Option.isSome_iff_exists.1 (isSome_of_ofSetting valid g)
  have serverT (other : "server" ≠ f.sectionName) :=
    (readSection_congr (same.sections _ other)).trans server
  have logT (other : "log" ≠ f.sectionName) :=
    (readSection_congr (same.sections _ other)).trans log
  have ownerT (other : "integration" ≠ f.sectionName) :=
    (readSection_congr (same.sections _ other)).trans owner
  cases f
  case host =>
    obtain ⟨b, sibling⟩ := value port (by decide)
    exact ⟨_, ofSetting_of_sections (readSection_pair ServerSettings.mk seated set sibling)
      (logT (by decide)) (ownerT (by decide)), rfl⟩
  case port =>
    obtain ⟨b, sibling⟩ := value host (by decide)
    exact ⟨_, ofSetting_of_sections (readSection_pair ServerSettings.mk seated sibling set)
      (logT (by decide)) (ownerT (by decide)), rfl⟩
  case level =>
    obtain ⟨b, sibling⟩ := value json (by decide)
    exact ⟨_, ofSetting_of_sections (serverT (by decide))
      (readSection_pair LogSettings.mk seated set sibling) (ownerT (by decide)), rfl⟩
  case json =>
    obtain ⟨b, sibling⟩ := value level (by decide)
    exact ⟨_, ofSetting_of_sections (serverT (by decide))
      (readSection_pair LogSettings.mk seated sibling set) (ownerT (by decide)), rfl⟩
  case pluginId =>
    obtain ⟨b, sibling⟩ := value resourceType (by decide)
    exact ⟨_, ofSetting_of_sections (serverT (by decide)) (logT (by decide))
      (readSection_pair OwnerSettings.mk seated set sibling), rfl⟩
  case resourceType =>
    obtain ⟨b, sibling⟩ := value pluginId (by decide)
    exact ⟨_, ofSetting_of_sections (serverT (by decide)) (logT (by decide))
      (readSection_pair OwnerSettings.mk seated sibling set), rfl⟩

/-- A field of settings that are read is what it makes of what is found for it. -/
theorem value?_of_ofSetting {settings : Settings} (seated : f.Seated s)
    (valid : Settings.ofSetting s = .ok settings) : f.value? s = some (f.of settings) := by
  obtain ⟨a, set⟩ := Option.isSome_iff_exists.1 (isSome_of_ofSetting valid f)
  obtain ⟨settings', valid', same⟩ := (SameBut.refl f s).ofSetting seated set valid
  cases valid.symm.trans valid'
  rw [set, same]

/-! ## A variable more -/

section Variable

variable {text value : String} {before after : List (String × String)}

/-- A field after its variable is what it makes of the value. -/
theorem value?_variable (away : ∀ m ∈ ofEnvironment after, ¬ f.On (.ofText m.1)) :
    f.value? (applyLayer s (ofEnvironment (before ++ (f.variableName, value) :: after))) =
      f.accept? (ofVariable value) := by
  rw [value?, (found?_variable away).1, orBuiltIn]

theorem sameBut_variable (value : String)
    (away : ∀ m ∈ ofEnvironment after, ¬ f.On (.ofText m.1)) :
    f.SameBut (applyLayer s (ofEnvironment (before ++ after)))
      (applyLayer s (ofEnvironment (before ++ (f.variableName, value) :: after))) := by
  rw [applyLayer_variable, ofEnvironment, List.filterMap_append, applyLayer_append]
  exact sameBut_put_path.applyLayer away

theorem reads_of_ofToml {env : List (String × String)} {settings : Settings}
    (valid : Settings.ofToml text env = .ok settings) :
    ∃ members, Toml.document? text = some members := by
  cases reads : Toml.document? text with
  | none =>
    rw [Settings.ofToml, reads] at valid
    cases valid
  | some members => exact ⟨members, rfl⟩

variable {settings : Settings} {a : f.Value}

/-- A variable more, of any value that its field accepts: what loads without it loads with it, if
no variable after it leads to the field. -/
theorem ofToml_variable
    (valid : Settings.ofToml text (before ++ after) = .ok settings)
    (away : ∀ m ∈ ofEnvironment after, ¬ f.On (.ofText m.1))
    (set : f.accept? (ofVariable value) = some a) :
    ∃ settings', Settings.ofToml text (before ++ (f.variableName, value) :: after) =
      .ok settings' ∧ f.of settings' = a := by
  obtain ⟨members, reads⟩ := reads_of_ofToml valid
  rw [ofToml_eq_ofSetting reads] at valid ⊢
  exact (sameBut_variable value away).ofSetting (found?_variable away).2
    ((value?_variable away).trans set) valid

/-- Another value of the variable, if its field accepts it: what loads with one loads with the
other. -/
theorem ofToml_another_value {earlier : String}
    (valid : Settings.ofToml text (before ++ (f.variableName, earlier) :: after) = .ok settings)
    (away : ∀ m ∈ ofEnvironment after, ¬ f.On (.ofText m.1))
    (set : f.accept? (ofVariable value) = some a) :
    ∃ settings', Settings.ofToml text (before ++ (f.variableName, value) :: after) =
      .ok settings' ∧ f.of settings' = a := by
  obtain ⟨members, reads⟩ := reads_of_ofToml valid
  rw [ofToml_eq_ofSetting reads] at valid ⊢
  have same : f.SameBut (allLayers members (before ++ (f.variableName, earlier) :: after))
      (allLayers members (before ++ (f.variableName, value) :: after)) :=
    (sameBut_variable earlier away).symm.trans (sameBut_variable value away)
  exact same.ofSetting (found?_variable away).2 ((value?_variable away).trans set) valid

end Variable

end Field
end Permit
