/-
# Wrappers for foreign roots

`ExternalsIndex` with `wrap_if_required` and `forget_location`; the externals-wrapper index in
section 3 of the svncache specification.

External definitions and relocated nodes have URLs outside the root of their repository location.
Each location keeps the wrappers made for it, so that related foreign URLs share one.
-/

import StatusCache.Location
import StatusCache.Table

namespace StatusCache

/-- Wrappers, oldest first, by the identifier of the location they were made for. -/
structure Externals where
  byId : Table String (List Location) := {}

namespace Externals

/-- The wrappers made for a location. -/
def wrappers (x : Externals) (id : String) : List Location := (x.byId.get? id).getD []

/-- The location through which a URL is reached: the given one if it contains the URL, else a
wrapper whose URL lies above or below it, else a new wrapper rooted at the URL, or at its parent if
it names a file. -/
def wrap (x : Externals) (l : Location) (url : String) (isFile : Bool) : Location × Externals :=
  if l.containsUrl url then (l, x)
  else
    let known := x.wrappers l.id
    match known.find? fun w => Url.isPrefix w.url url || Url.isPrefix url w.url with
    | some w => (w, x)
    | none =>
      let w := l.wrap (if isFile then Text.beforeLast '/' url else url)
      (w, ⟨x.byId.insert l.id (known ++ [w])⟩)

/-- Drops the wrappers of a location. -/
def forget (x : Externals) (id : String) : Externals := ⟨x.byId.erase id⟩

end Externals
end StatusCache
