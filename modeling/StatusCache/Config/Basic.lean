/-
# Settings

`Config`, `GeneralConfig`, `CacheConfig`, `WorkspaceConfig` and `validate`; section 8 of the
svncache specification.

The settings of a status cache, their defaults, and the rules that values of the right shape may
still break.
-/

import StatusCache.Text.Quoted

namespace StatusCache

/-- Settings of the program as a whole. -/
structure Config.General where
  logLevel : String := "info"
  /-- `text` or `json`. -/
  logFormat : String := "text"
deriving DecidableEq, Repr, Inhabited

/-- Settings of the cache. -/
structure Config.Cache where
  /-- Whether records are kept from one lookup to the next. -/
  enabled : Bool := true
  verifyExternalRoots : Bool := true
  fetchQueueName : String := "svn-fetch"
  eventQueueName : String := "svn-events"
deriving DecidableEq, Repr, Inhabited

/-- Settings of the workspace. -/
structure Config.Workspace where
  /-- Name of the metadata directories of working copies. -/
  metadataDir : String := ".svn"
  /-- Patterns of ignored names, or of paths inside a project. -/
  ignore : List String := ["*.o", "*~", ".DS_Store"]
  /-- Paths of build output folders inside a project. -/
  outputFolders : List String := ["target", "bin"]
deriving DecidableEq, Repr, Inhabited

/-- All settings. -/
structure Config where
  general : Config.General := {}
  cache : Config.Cache := {}
  workspace : Config.Workspace := {}
deriving DecidableEq, Repr, Inhabited

namespace Config

/-- The first rule that the settings break, in words. -/
def fault? (c : Config) : Option String :=
  let dir := c.workspace.metadataDir
  let format := c.general.logFormat
  let fetch := c.cache.fetchQueueName
  let event := c.cache.eventQueueName
  if dir = "" ∨ dir.toList.any (fun x => x = '/' || x = '\\') then
    some ("metadata_dir must be a plain directory name, got " ++ Text.quote dir)
  else if format ≠ "text" ∧ format ≠ "json" then
    some ("log_format must be \"text\" or \"json\", got " ++ Text.quote format)
  else if fetch = "" ∨ event = "" then some "queue names must not be empty"
  else if fetch = event then
    some ("fetch and event queues share the name " ++ Text.quote fetch)
  else none

end Config
end StatusCache
