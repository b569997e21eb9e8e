/-
# The settings file

`ConfigManager`, section 8 of the svncache specification.

Settings live in a TOML file with a table for each group. What the file does not say keeps its
default, and what it says besides is passed over; but a value of the wrong type, or one that breaks
a rule, makes the file invalid. A file that is not there says nothing. A group may also be an array
of its values in their order, and one that is a date says nothing.
-/

import StatusCache.Config.Basic
import StatusCache.Disk.Command
import StatusCache.Error
import StatusCache.Toml.Document
import StatusCache.Toml.Writer

namespace StatusCache
namespace Config

/-- The values that a group gives to settings of these names, in order. -/
def settings? (names : List String) : Option Toml.Value → Option (List (Option Toml.Value))
  | none => some (names.map fun _ => none)
  | some (.table _ es) => some (names.map fun name => es.lookup name)
  | some (.array vs) => some ((List.range names.length).map fun i => vs[i]?)
  | some (.tables ts) => some ((List.range names.length).map fun i => ts[i]?.map (.table .header ·))
  | some (.dateTime _) => some (names.map fun _ => none)
  | some _ => none

/-- A text, or its default. -/
def text? (default : String) : Option Toml.Value → Option String
  | none => some default
  | some (.string s) => some s
  | some _ => none

/-- A truth value, or its default. -/
def flag? (default : Bool) : Option Toml.Value → Option Bool
  | none => some default
  | some (.boolean b) => some b
  | some _ => none

/-- A list of texts, or its default. -/
def texts? (default : List String) : Option Toml.Value → Option (List String)
  | none => some default
  | some (.array vs) => vs.mapM fun v => text? "" (some v)
  | some _ => none

/-- The settings of the first section from the values of its keys. -/
def generalOf? : List (Option Toml.Value) → Option General
  | [level, format] => do
    return { logLevel := ← text? "info" level, logFormat := ← text? "text" format }
  | _ => none

/-- The settings of the cache from the values of their keys. -/
def cacheOf? : List (Option Toml.Value) → Option Cache
  | [enabled, verify, fetch, event] => do
    return {
      enabled := ← flag? true enabled
      verifyExternalRoots := ← flag? true verify
      fetchQueueName := ← text? "svn-fetch" fetch
      eventQueueName := ← text? "svn-events" event }
  | _ => none

/-- The settings of the workspace from the values of their keys. -/
def workspaceOf? : List (Option Toml.Value) → Option Workspace
  | [dir, ignore, outputs] => do
    let usual : Workspace := {}
    return {
      metadataDir := ← text? usual.metadataDir dir
      ignore := ← texts? usual.ignore ignore
      outputFolders := ← texts? usual.outputFolders outputs }
  | _ => none

/-- The settings that a document describes. -/
def ofDocument? (es : Toml.Entries) : Option Config := do
  let general ← settings? ["log_level", "log_format"] (es.lookup "general")
  let cache ← settings?
    ["enabled", "verify_external_roots", "fetch_queue_name", "event_queue_name"]
    (es.lookup "cache")
  let workspace ← settings? ["metadata_dir", "ignore", "output_folders"] (es.lookup "workspace")
  return {
    general := ← generalOf? general
    cache := ← cacheOf? cache
    workspace := ← workspaceOf? workspace }

/-- The document that describes the settings. -/
def toText (c : Config) : String :=
  Toml.writeTable "general"
    [ ("log_level", Toml.writeString c.general.logLevel),
      ("log_format", Toml.writeString c.general.logFormat) ] ++ "\n" ++
  Toml.writeTable "cache"
    [ ("enabled", Toml.writeBool c.cache.enabled),
      ("verify_external_roots", Toml.writeBool c.cache.verifyExternalRoots),
      ("fetch_queue_name", Toml.writeString c.cache.fetchQueueName),
      ("event_queue_name", Toml.writeString c.cache.eventQueueName) ] ++ "\n" ++
  Toml.writeTable "workspace"
    [ ("metadata_dir", Toml.writeString c.workspace.metadataDir),
      ("ignore", Toml.writeStrings c.workspace.ignore),
      ("output_folders", Toml.writeStrings c.workspace.outputFolders) ]

/-- Settings that break no rule. -/
def checked (path : Path) (c : Config) : Except Error Config :=
  match c.fault? with
  | none => .ok c
  | some reason => .error (.invalidConfig path reason)

/-- Reads the settings file. -/
def readFile (d : Disk) (path : Path) : Except Error Config :=
  match (d.content? path).bind Text.Utf8.decode? with
  | none => .error (.disk ("reading config from " ++ path.text))
  | some text =>
    match (Toml.parse? text).bind ofDocument? with
    | none => .error (.invalidConfig path "TOML")
    | some c => checked path c

/-- Reads the settings file if it is there. -/
def load (d : Disk) (path : Path) : Except Error Config :=
  match d.read path with
  | .ok _ => readFile d path
  | .error .absent => .ok {}
  | .error _ => .error (.disk ("checking config at " ++ path.text))

/-- Writes the settings file, with the directories above it. Settings that would not be read back
are refused. -/
def save (d : Disk) (now : Int) (path : Path) (c : Config) : Except Error Disk := do
  let c ← checked path c
  let d ←
    match path.parent? with
    | none => pure d
    | some above =>
      match d.makeDirs now above with
      | .ok d => pure d
      | .error _ => .error (.configDirectory above)
  match d.write now path (Text.Utf8.encode c.toText) with
  | .ok d => return d
  | .error _ => .error (.disk ("writing config to " ++ path.text))

/-- The variables that decide where the settings file is. -/
structure Surroundings where
  /-- The file itself. -/
  file : Option String := none
  /-- The directory of the user's settings. -/
  configHome : Option String := none
  home : Option String := none
  /-- The home directory on record for the user. -/
  accountHome : String
deriving Repr

/-- The settings file of a user: below the directory for settings if that is absolute, else below
`.config` in the home directory. -/
def userPath (s : Surroundings) : Path :=
  let home := match s.home with
    | some home => if home = "" then s.accountHome else home
    | none => s.accountHome
  let base : Path := match s.configHome with
    | some dir => if dir.toList.head? = some '/' then ⟨dir⟩ else (⟨home⟩ : Path).join ".config"
    | none => (⟨home⟩ : Path).join ".config"
  (base.join "svncache").join "config.toml"

/-- The settings file: the one that is named, else that of the user. -/
def path (s : Surroundings) : Path :=
  match s.file with
  | some file => if file = "" then userPath s else ⟨file⟩
  | none => userPath s

end Config
end StatusCache
