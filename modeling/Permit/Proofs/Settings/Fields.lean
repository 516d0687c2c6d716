-- The six fields of the settings in a configuration: what a value set along a path does to a
-- field, and how the fields are read in the end.
import Permit.Proofs.Letters
import Permit.Proofs.Toml.Names
import Permit.Settings.Load

namespace Permit

/-! ## Ports -/

/-- The port of that number, if it has 16 bits. -/
def portOf? (i : Int) : Option UInt16 :=
  if 0 ≤ i ∧ i < 0x10000 then some (UInt16.ofNat i.toNat) else none

theorem portOf?_eq_some {i : Int} {p : UInt16} (h : portOf? i = some p) : (p.toNat : Int) = i := by
  unfold portOf? at h
  split at h
  · cases h
    have small : i.toNat < 2 ^ 16 := by omega
    rw [UInt16.toNat_ofNat_of_lt' small]
    omega
  · cases h

/-- What counts as the number where a natural number is wanted, and as none below zero, is the port
of that number. -/
theorem toPort?_of_toNat? {v : Setting} {i : Int}
    (number : v.toNat? = if 0 ≤ i then some i.toNat else none) : toPort? v = portOf? i := by
  unfold toPort? portOf?
  rw [number]
  by_cases least : 0 ≤ i
  · have same : i.toNat < 0x10000 ↔ i < 0x10000 := by omega
    simp [least, same]
  · simp [least]

theorem toPort?_integer (i : Int) : toPort? (.integer i) = portOf? i :=
  toPort?_of_toNat? rfl

/-! ## The fields -/

/-- The fields of the settings. -/
inductive Field where
  | host
  | port
  | level
  | json
  | pluginId
  | resourceType
deriving DecidableEq, Repr

namespace Field

/-- The section that has the field. -/
def sectionName : Field → String
  | host | port => "server"
  | level | json => "log"
  | pluginId | resourceType => "integration"

/-- The name of the field in its section. -/
def name : Field → String
  | host => "host"
  | port => "port"
  | level => "level"
  | json => "json"
  | pluginId => "plugin_id"
  | resourceType => "resource_type"

/-- The variable of the environment that sets the field. -/
def variableName : Field → String
  | host => "RULEWARD_SERVER__HOST"
  | port => "RULEWARD_SERVER__PORT"
  | level => "RULEWARD_LOG__LEVEL"
  | json => "RULEWARD_LOG__JSON"
  | pluginId => "RULEWARD_INTEGRATION__PLUGIN_ID"
  | resourceType => "RULEWARD_INTEGRATION__RESOURCE_TYPE"

/-- What the field is: a port, a flag or a text. -/
def Value : Field → Type
  | port => UInt16
  | json => Bool
  | host | level | pluginId | resourceType => String

/-- The field of the settings. -/
def of : (f : Field) → Settings → f.Value
  | host, s => s.server.host
  | port, s => s.server.port
  | level, s => s.log.level
  | json, s => s.log.json
  | pluginId, s => s.owner.pluginId
  | resourceType, s => s.owner.resourceType

/-- What the field makes of a setting of any kind, if it accepts it. -/
def accept? : (f : Field) → Setting → Option f.Value
  | port => toPort?
  | json => Setting.toFlag?
  | host | level | pluginId | resourceType => Setting.toText?

/-- What a value of the field's own kind is: a text in quotes, a flag, or a whole number in the
range of ports. -/
def own? : (f : Field) → Toml.Value → Option f.Value
  | port, .integer i => if 0 ≤ i ∧ i < 0x10000 then some (UInt16.ofNat i.toNat) else none
  | json, .boolean b => some b
  | host, .string s | level, .string s | pluginId, .string s | resourceType, .string s => some s
  | _, _ => none

/-- The way to the field. -/
def path (f : Field) : Path := [.member f.sectionName, .member f.name]

theorem eq_of_name {f g : Field} (h : f.name = g.name) : f = g := by
  cases f <;> cases g <;> first | rfl | simp [name] at h

theorem eq_of_variableName {f g : Field} (h : f.variableName = g.variableName) : f = g := by
  cases f <;> cases g <;> first | rfl | simp [variableName] at h

/-- A value of its own kind is accepted as what it is. -/
theorem accept?_of_own {f : Field} {v : Toml.Value} {a : f.Value} (h : f.own? v = some a) :
    f.accept? (.ofToml v) = some a := by
  cases f <;> cases v <;> simp only [own?, reduceCtorEq] at h
  case port.integer i => exact (toPort?_integer i).trans h
  all_goals exact h

/-- No field accepts a table. -/
theorem accept?_table (f : Field) (members : List (String × Setting)) :
    f.accept? (.table members) = none := by
  cases f <;> rfl

/-! ## A field in a configuration -/

/-- What a configuration has for the field. -/
def found? (f : Field) (s : Setting) : Option Setting :=
  (s.member f.sectionName).members.lookup f.name

/-- The section of the field is missing or a table. A list would be read by places. -/
def Seated (f : Field) (s : Setting) : Prop :=
  s.members.lookup f.sectionName = none ∨
    ∃ members, s.members.lookup f.sectionName = some (.table members)

/-- A path that leads to the section of the field, to a place of it, or to the field or further
on. -/
inductive On (f : Field) : Path → Prop where
  | whole : On f [.member f.sectionName]
  | place (index : Int) (rest : Path) : On f (.member f.sectionName :: .place index :: rest)
  | field (rest : Path) : On f (.member f.sectionName :: .member f.name :: rest)

theorem path_on {f g : Field} (h : f.On g.path) : f = g := by
  generalize hp : g.path = p at h
  cases h <;> simp [path] at hp
  case field => exact eq_of_name hp.2.1.symm

variable {f g : Field} {s v : Setting}

theorem seated_of_lookup_eq {t : Setting}
    (h : t.members.lookup f.sectionName = s.members.lookup f.sectionName) (seated : f.Seated s) :
    f.Seated t := by
  simpa only [Seated, h] using seated

/-! ## Values along paths -/

theorem found?_withMember_ne {name : String} (h : f.sectionName ≠ name) :
    f.found? (s.withMember name v) = f.found? s := by
  simp [found?, Setting.member_withMember_ne h]

theorem lookup_withMember_ne {name other : String} (h : other ≠ name) :
    (s.withMember name v).members.lookup other = s.members.lookup other :=
  Toml.lookup_put_ne h v s.members

theorem lookup_withMember_self (s : Setting) (name : String) (v : Setting) :
    (s.withMember name v).members.lookup name = some v :=
  Toml.lookup_put_self name v s.members

/-- A value along a path that is not on the field leaves the field as it is. -/
theorem found?_put_of_not_on {p : Path} {name : String} (h : ¬ f.On (.member name :: p)) :
    f.found? (s.put (.member name :: p) v) = f.found? s := by
  by_cases same : f.sectionName = name
  · subst same
    rcases p with _ | ⟨other | index, rest⟩
    · exact absurd .whole h
    · have ne : f.name ≠ other := by
        rintro rfl
        exact h (.field rest)
      simp [Setting.put, Setting.change, found?, lookup_withMember_ne ne]
    · exact absurd (.place index rest) h
  · exact found?_withMember_ne same

/-- A value along a path that is not on the field leaves its section a table. -/
theorem seated_put_of_not_on {p : Path} {name : String} (h : ¬ f.On (.member name :: p))
    (seated : f.Seated s) : f.Seated (s.put (.member name :: p) v) := by
  by_cases same : f.sectionName = name
  · subst same
    rcases p with _ | ⟨other | index, rest⟩
    · exact absurd .whole h
    · exact .inr ⟨_, lookup_withMember_self ..⟩
    · exact absurd (.place index rest) h
  · exact seated_of_lookup_eq (lookup_withMember_ne same) seated

/-- A value along the way to the field is found there, over what was there. -/
theorem found?_put_path :
    f.found? (s.put f.path v) = some (((f.found? s).getD .absent).overlay v) := by
  simp [Setting.put, Setting.change, path, found?, lookup_withMember_self, Setting.member]

theorem seated_put_path : f.Seated (s.put f.path v) :=
  .inr ⟨_, lookup_withMember_self ..⟩

/-! ## Tables over tables -/

/-- Members over a table: each value lies over what the table has under its name. -/
theorem lookup_overlayMembers {members : List (String × Setting)}
    (once : (members.map Prod.fst).Nodup) (earlier : List (String × Setting)) (name : String) :
    ∃ joined, Setting.overlayMembers (.table earlier) members = .table joined ∧
      joined.lookup name =
        match members.lookup name with
        | some v => some (((earlier.lookup name).getD .absent).overlay v)
        | none => earlier.lookup name := by
  induction members generalizing earlier with
  | nil => exact ⟨earlier, by simp [Setting.overlayMembers], rfl⟩
  | cons m rest ih =>
    obtain ⟨k, v⟩ := m
    simp only [List.map_cons, List.nodup_cons] at once
    obtain ⟨joined, eq, found⟩ :=
      ih once.2 (Toml.put k (((earlier.lookup k).getD .absent).overlay v) earlier)
    refine ⟨joined, by rw [Setting.overlayMembers]; exact eq, found.trans ?_⟩
    by_cases same : name = k
    · subst same
      simp [Toml.lookup_of_not_mem once.1]
    · have ne : (name == k) = false := by simpa using same
      simp [List.lookup_cons, ne, Toml.lookup_put_ne same]

theorem overlayMembers_table (earlier members : List (String × Setting)) :
    ∃ joined, Setting.overlayMembers (.table earlier) members = .table joined := by
  induction members generalizing earlier with
  | nil => exact ⟨earlier, by simp [Setting.overlayMembers]⟩
  | cons m rest ih =>
    rw [Setting.overlayMembers]
    exact ih _

/-- A value that lies over nothing is accepted as what it is. -/
theorem accept?_overlay (f : Field) (v : Setting) :
    f.accept? (Setting.absent.overlay v) = f.accept? v := by
  cases v with
  | table members =>
    obtain ⟨joined, eq⟩ := overlayMembers_table [] members
    rw [Setting.overlay, eq, accept?_table, accept?_table]
  | _ => rw [Setting.overlay]; simp

/-! ## Reading the fields -/

/-- What is made of a setting that may be missing: what is built in, else what is wanted. -/
def orBuiltIn {α : Type} (builtIn : α) (wanted? : Setting → Option α) : Option Setting → Option α
  | none => some builtIn
  | some v => wanted? v

/-- What the field is in a configuration: what is built in where it is not found, else what it
makes of what is found, if it accepts it. -/
def value? (f : Field) (s : Setting) : Option f.Value :=
  orBuiltIn (f.of .builtIn) f.accept? (f.found? s)

theorem readField_table {α : Type} (name : String) (place : Nat) (wanted? : Setting → Option α)
    (builtIn : α) (members : List (String × Setting)) :
    readField name place wanted? builtIn (.table members) =
      match orBuiltIn builtIn wanted? (members.lookup name) with
      | some a => .ok a
      | none => .error (.member name) := by
  cases found : members.lookup name with
  | none => simp [readField, found, orBuiltIn]
  | some v => cases wanted : wanted? v <;> simp [readField, found, orBuiltIn, wanted]

section Pair

variable {α β γ : Type} {outer first second : String} {firstWanted? : Setting → Option α}
  {secondWanted? : Setting → Option β} {a₀ a : α} {b₀ b : β} {s : Setting}

/-- A section of two fields that is missing or a table is read field by field. -/
theorem readSection_pair (make : α → β → γ)
    (seated : s.members.lookup outer = none ∨
      ∃ members, s.members.lookup outer = some (.table members))
    (ha : orBuiltIn a₀ firstWanted? ((s.member outer).members.lookup first) = some a)
    (hb : orBuiltIn b₀ secondWanted? ((s.member outer).members.lookup second) = some b) :
    readSection outer (fun s => do
      let a ← readField first 0 firstWanted? a₀ s
      let b ← readField second 1 secondWanted? b₀ s
      return make a b) (make a₀ b₀) s = .ok (make a b) := by
  rcases seated with missing | ⟨members, found⟩
  · simp only [Setting.member, missing] at ha hb
    cases ha
    cases hb
    simp [readSection, missing]
  · simp only [Setting.member, found] at ha hb
    have readFirst : readField first 0 firstWanted? a₀ (.table members) = .ok a := by
      rw [readField_table, show orBuiltIn _ _ (members.lookup first) = some a from ha]
    have readSecond : readField second 1 secondWanted? b₀ (.table members) = .ok b := by
      rw [readField_table, show orBuiltIn _ _ (members.lookup second) = some b from hb]
    simp only [readSection, found, readFirst, readSecond]
    rfl

/-- A section of two fields that is read has in its table what the fields accept. -/
theorem isSome_of_readSection (make : α → β → γ) {c : γ}
    (valid : readSection outer (fun s => do
      let a ← readField first 0 firstWanted? a₀ s
      let b ← readField second 1 secondWanted? b₀ s
      return make a b) (make a₀ b₀) s = .ok c) :
    (orBuiltIn a₀ firstWanted? ((s.member outer).members.lookup first)).isSome ∧
      (orBuiltIn b₀ secondWanted? ((s.member outer).members.lookup second)).isSome := by
  cases found : s.members.lookup outer with
  | none =>
    simp only [Setting.member, found]
    exact ⟨rfl, rfl⟩
  | some inner =>
    simp only [Setting.member, found]
    cases inner with
    | table members =>
      change (orBuiltIn a₀ firstWanted? (members.lookup first)).isSome ∧
        (orBuiltIn b₀ secondWanted? (members.lookup second)).isSome
      simp only [readSection, found, readField_table] at valid
      cases ha : orBuiltIn a₀ firstWanted? (members.lookup first) with
      | none =>
        rw [ha] at valid
        cases valid
      | some a =>
        cases hb : orBuiltIn b₀ secondWanted? (members.lookup second) with
        | none =>
          rw [ha, hb] at valid
          cases valid
        | some b => exact ⟨rfl, rfl⟩
    | _ => exact ⟨rfl, rfl⟩

end Pair

/-- Where every section is missing or a table and each field accepts what is found for it, the
settings are read, and each field is what it makes of that. -/
theorem ofSetting_of_values {s : Setting} (seated : ∀ f : Field, f.Seated s)
    (accepted : ∀ f : Field, (f.value? s).isSome) :
    ∃ settings, Settings.ofSetting s = .ok settings ∧
      ∀ f : Field, f.value? s = some (f.of settings) := by
  have value : ∀ f : Field, ∃ a, f.value? s = some a :=
    fun f => Option.isSome_iff_exists.1 (accepted f)
  obtain ⟨h, hostEq⟩ := value host
  obtain ⟨p, portEq⟩ := value port
  obtain ⟨l, levelEq⟩ := value level
  obtain ⟨j, jsonEq⟩ := value json
  obtain ⟨i, pluginEq⟩ := value pluginId
  obtain ⟨r, typeEq⟩ := value resourceType
  have server : readSection "server" (ServerSettings.ofSetting Settings.builtIn.server)
      Settings.builtIn.server s = .ok ⟨h, p⟩ :=
    readSection_pair ServerSettings.mk (seated host) hostEq portEq
  have log : readSection "log" (LogSettings.ofSetting Settings.builtIn.log)
      Settings.builtIn.log s = .ok ⟨l, j⟩ :=
    readSection_pair LogSettings.mk (seated level) levelEq jsonEq
  have owner : readSection "integration" (OwnerSettings.ofSetting Settings.builtIn.owner)
      Settings.builtIn.owner s = .ok ⟨i, r⟩ :=
    readSection_pair OwnerSettings.mk (seated pluginId) pluginEq typeEq
  refine ⟨⟨⟨h, p⟩, ⟨l, j⟩, ⟨i, r⟩⟩, ?_, ?_⟩
  · simp only [Settings.ofSetting, server, log, owner]
    rfl
  · intro f
    cases f <;> assumption

end Field

/-! ## Texts of paths -/

namespace Path

theorem steps_nil {fuel : Nat} {s : List Char} (h : stepsOfText? fuel s = some []) : s = [] := by
  cases s with
  | nil => rfl
  | cons c rest =>
    cases fuel with
    | zero => simp [stepsOfText?] at h
    | succ fuel =>
      rw [stepsOfText?] at h
      split at h
      · split at h <;> simp at h
      · split at h
        · split at h <;> simp at h
        · cases h

theorem name?_nil {s : List Char} {name : String} (h : name? s = some (name, [])) :
    name = String.ofList s := by
  rw [name?] at h
  split at h
  · cases h
  · simp only [Option.some.injEq, Prod.mk.injEq] at h
    rw [← h.1, ← List.append_nil (s.takeWhile isNameChar), ← h.2,
      List.takeWhile_append_dropWhile]

/-- A path starts with a name, and one that is nothing else is spelled by that name only. -/
theorem ofText_eq (s : String) :
    ∃ name rest, ofText s = .member name :: rest ∧ (rest = [] → s = name) := by
  unfold ofText
  split
  · exact ⟨s, [], rfl, fun _ => rfl⟩
  · next name rest hn =>
    split
    · exact ⟨s, [], rfl, fun _ => rfl⟩
    · next steps hs =>
      refine ⟨name, steps, rfl, ?_⟩
      rintro rfl
      rw [steps_nil hs] at hn
      simpa using (name?_nil hn).symm

end Path

/-! ## The names of the fields as paths -/

namespace Field

theorem toLower_variableName (f : Field) :
    f.variableName.toLower.toList =
      Settings.variableMark ++ (f.sectionName.toList ++ '_' :: '_' :: f.name.toList) := by
  change _ = "ruleward_".toList ++ _
  cases f <;> simp [variableName, sectionName, name, String.toLower]

theorem pointed_name (f : Field) :
    Settings.pointed (f.sectionName.toList ++ '_' :: '_' :: f.name.toList) =
      f.sectionName.toList ++ '.' :: f.name.toList := by
  cases f <;> rfl

/-- The variable of a field names its section and it with a point between them. -/
theorem settingName?_variable (f : Field) :
    Settings.settingName? f.variableName =
      some (String.ofList (f.sectionName.toList ++ '.' :: f.name.toList)) := by
  have marked : Settings.variableMark.isPrefixOf f.variableName.toLower.toList = true := by
    rw [toLower_variableName]
    exact List.isPrefixOf_iff_prefix.2 (List.prefix_append ..)
  simp only [Settings.settingName?, marked, if_true]
  rw [toLower_variableName, List.drop_left, pointed_name]

theorem ofText_variable (f : Field) :
    Path.ofText (String.ofList (f.sectionName.toList ++ '.' :: f.name.toList)) = f.path := by
  cases f <;> decide

theorem ofText_section (f : Field) : Path.ofText f.sectionName = [.member f.sectionName] := by
  cases f <;> decide

/-- The name of another section leads to no field of this one. -/
theorem not_on_section {f g : Field} (other : g.sectionName ≠ f.sectionName) :
    ¬ f.On (.ofText g.sectionName) := by
  intro on
  generalize hp : Path.ofText g.sectionName = p at on
  rw [ofText_section] at hp
  cases on <;> simp at hp
  exact other hp

end Field
end Permit
