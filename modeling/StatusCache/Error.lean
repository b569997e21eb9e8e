/-
# Errors

`SvnCacheError` and `ConnectorError`, section 7 of the svncache specification.

What can go wrong, each by its cause, with the wording in one place.
-/

import StatusCache.Backend.Basic

namespace StatusCache

/-- Why an operation failed. -/
inductive Error
  | backend (failure : Backend.Failure)
  | cancelled
  | inaccessible (resource : String)
  | notConnected (project : String)
  | unknownStatus (code : String)
  | malformedRecord (reason : String)
  | invalidConfig (path : Path) (reason : String)
  | configDirectory (path : Path)
  | ignorePattern (pattern : String)
  /-- The disk refused; the context says what was tried. -/
  | disk (context : String)
  | unwritableConfig (reason : String)
  | internal (reason : String)
deriving DecidableEq, Repr, Inhabited

namespace Error

/-- The wording of an error. -/
def message : Error → String
  | .backend failure => "SVN connector failure: " ++ failure.message
  | .cancelled => "Operation cancelled"
  | .inaccessible resource => "Resource is inaccessible: " ++ resource
  | .notConnected project => "Project " ++ project ++ " is not connected to an SVN repository"
  | .unknownStatus code => "Unknown status code in persisted record: " ++ code
  | .malformedRecord reason => "Malformed persisted record: " ++ reason
  | .invalidConfig path reason => "Invalid configuration at " ++ path.text ++ ": " ++ reason
  | .configDirectory path => "Failed to create config directory " ++ path.text
  | .ignorePattern pattern => "Invalid ignore pattern " ++ pattern
  | .disk context => "IO error: " ++ context
  | .unwritableConfig reason => "TOML serialize error: " ++ reason
  | .internal reason => "Internal error: " ++ reason

/-- Whether the operation was cancelled, by its caller or by the backend. -/
def isCancelled : Error → Bool
  | .cancelled => true
  | .backend .cancelled => true
  | _ => false

/-- Errors that an error report should leave out. -/
def isUnreportable : Error → Bool
  | .inaccessible _ => true
  | .notConnected _ => true
  | _ => false

/-- What a user can do about it. -/
def hint? : Error → Option String
  | .backend (.cleanupRequired _) => some "Run: svn cleanup"
  | .notConnected _ => some "Share the project with an SVN repository first"
  | .unknownStatus _ => some "The persisted cache is corrupted; discard it"
  | _ => none

end Error
end StatusCache
