-- The settings of a service, in layers: what is built in, then a TOML text, then variables
-- of the environment.
import Permit.Settings.Path

namespace Permit

/-! ## The settings -/

/-- Where the service listens. -/
structure ServerSettings where
  host : String
  port : UInt16
deriving DecidableEq, Repr

/-- The address in one text. -/
def ServerSettings.addr (s : ServerSettings) : String := s.host ++ ":" ++ toString s.port.toNat

/-- What is logged: the level, and whether each line is JSON. -/
structure LogSettings where
  level : String
  json : Bool
deriving DecidableEq, Repr

/-- Who the service is and which type of resources it owns. -/
structure OwnerSettings where
  pluginId : String
  resourceType : String
deriving DecidableEq, Repr

/-- All settings. -/
structure Settings where
  server : ServerSettings
  log : LogSettings
  owner : OwnerSettings
deriving DecidableEq, Repr

/-- What is built in. -/
def Settings.builtIn : Settings :=
  ⟨⟨"0.0.0.0", 7007⟩, ⟨"info", false⟩, ⟨"catalog", "catalog-entity"⟩⟩

/-! ## Errors -/

/-- Why there are no settings: no file, a text that is not TOML, a value of another type
than the one wanted, or a section that is none. -/
inductive SettingsError where
  | unreadable
  | malformed
  | mistyped (path : Path)
  | noSection (name : String)
deriving DecidableEq, Repr

/-! ## Sections -/

/-- A field of a section: a member of a table, or an item of a list in the order of the
fields. The built-in value stands where there is none; a value of another type fails with
the step to it. -/
def readField {α : Type} (name : String) (place : Nat) (wanted? : Setting → Option α)
    (builtIn : α) (s : Setting) : Except Step α :=
  let found : Option (Step × Setting) := match s with
    | .table members => (members.lookup name).map (.member name, ·)
    | .list items => (items[place]?).map (.place place, ·)
    | _ => none
  match found with
  | none => .ok builtIn
  | some (step, v) =>
    match wanted? v with
    | some a => .ok a
    | none => .error step

/-- The section of that name: the built-in one if there is none, and no section if it is
neither a table nor a list. -/
def readSection {α : Type} (name : String) (read : Setting → Except Step α) (builtIn : α)
    (s : Setting) : Except SettingsError α :=
  let readAt (s : Setting) : Except SettingsError α :=
    (read s).mapError fun step => .mistyped [.member name, step]
  match s.members.lookup name with
  | none => .ok builtIn
  | some (.table members) => readAt (.table members)
  | some (.list items) => readAt (.list items)
  | some _ => .error (.noSection name)

/-- A port: a number of 16 bits. -/
def toPort? (s : Setting) : Option UInt16 :=
  s.toNat?.bind fun n => if n < 0x10000 then some (UInt16.ofNat n) else none

/-- The server section. -/
def ServerSettings.ofSetting (builtIn : ServerSettings) (s : Setting) :
    Except Step ServerSettings := do
  let host ← readField "host" 0 Setting.toText? builtIn.host s
  let port ← readField "port" 1 toPort? builtIn.port s
  return ⟨host, port⟩

/-- The log section. -/
def LogSettings.ofSetting (builtIn : LogSettings) (s : Setting) : Except Step LogSettings := do
  let level ← readField "level" 0 Setting.toText? builtIn.level s
  let json ← readField "json" 1 Setting.toFlag? builtIn.json s
  return ⟨level, json⟩

/-- The section on resources. -/
def OwnerSettings.ofSetting (builtIn : OwnerSettings) (s : Setting) :
    Except Step OwnerSettings := do
  let pluginId ← readField "plugin_id" 0 Setting.toText? builtIn.pluginId s
  let resourceType ← readField "resource_type" 1 Setting.toText? builtIn.resourceType s
  return ⟨pluginId, resourceType⟩

namespace Settings

/-- The settings of a configuration. -/
def ofSetting (s : Setting) : Except SettingsError Settings := do
  let server ← readSection "server" (ServerSettings.ofSetting builtIn.server) builtIn.server s
  let log ← readSection "log" (LogSettings.ofSetting builtIn.log) builtIn.log s
  let owner ←
    readSection "integration" (OwnerSettings.ofSetting builtIn.owner) builtIn.owner s
  return ⟨server, log, owner⟩

/-! ## Layers -/

/-- Named values over a configuration, each where its name leads as a path. -/
def applyLayer (s : Setting) (values : List (String × Setting)) : Setting :=
  values.foldl (fun s (name, v) => s.put (Path.ofText name) v) s

/-- The start of the names of variables. -/
def variableMark : List Char := "ruleward_".toList

/-- The text with a point for every two underscores. -/
def pointed : List Char → List Char
  | '_' :: '_' :: rest => '.' :: pointed rest
  | c :: rest => c :: pointed rest
  | [] => []

/-- The name of the setting that the variable of that name sets, if it sets one. The case
does not matter. -/
def settingName? (name : String) : Option String :=
  let name := name.toLower.toList
  if variableMark.isPrefixOf name then
    some (String.ofList (pointed (name.drop variableMark.length)))
  else none

/-- The value of a variable: a flag, a whole number of 64 bits, a float or a text, the
first that it spells. -/
def ofVariable (value : String) : Setting :=
  let whole := (Extended.wholeOfText? value.toList).filter Toml.isWord
  match value.toLower, whole, Extended.ofText? value.toList with
  | "true", _, _ => .flag true
  | "false", _, _ => .flag false
  | _, some i, _ => .integer i
  | _, none, some x => .float x
  | _, none, none => .text value

/-- The settings that variables set. -/
def ofEnvironment (env : List (String × String)) : List (String × Setting) :=
  env.filterMap fun (name, value) => (settingName? name).map (·, ofVariable value)

/-- The settings of a TOML text and the environment, which counts more. -/
def ofToml (text : String) (env : List (String × String)) :
    Except SettingsError Settings :=
  match Toml.document? text with
  | none => .error .malformed
  | some members =>
    let file := applyLayer (.table []) (Setting.ofTomlMembers members)
    ofSetting (applyLayer file (ofEnvironment env))

/-- The settings of the environment alone. -/
def ofVariables (env : List (String × String)) : Except SettingsError Settings :=
  ofSetting (applyLayer (.table []) (ofEnvironment env))

/-- The settings of a file and the environment. The file is named but may not be there; a
mark of the byte order at its start does not count. -/
def ofFile (content : Option String) (env : List (String × String)) :
    Except SettingsError Settings :=
  match content with
  | none => .error .unreadable
  | some text =>
    let text := match text.toList with
      | '\ufeff' :: rest => String.ofList rest
      | _ => text
    ofToml text env

end Settings
end Permit
