/-!
# Paths

What a path says before anything is known about files: its names, where they start and whether a
directory is asked for.

* `Place`: where something is, as names from the root.
* `Path.names`, `Path.origin`, `Path.namesDirectory`: the parts of a path.
-/

namespace MicroC

/-- Where something is: the names on the way to it from the root. -/
abbrev Place := List String

/-- Where a name leads from a directory. A dot stays there, and two dots go to the directory around
it, which for the root is the root itself. -/
def Place.next (p : Place) (name : String) : Place :=
  if name = "." then p else if name = ".." then p.dropLast else p ++ [name]

namespace Path

/-- The greatest length of a name in bytes. -/
def maxNameLength : Nat := 255

/-- The greatest length of a path in bytes. -/
def maxLength : Nat := 4095

/-- The names in a path. Slashes in a row divide like one. -/
def names (path : String) : List String := (path.splitOn "/").filter (· != "")

/-- Where the first name of a path is looked up: in the root if a slash stands at the front. -/
def origin (path : String) (workingDirectory : Place) : Place :=
  if path.toList.head? = some '/' then [] else workingDirectory

/-- Whether a path ends in a slash, and so can only mean a directory. -/
def namesDirectory (path : String) : Bool := path.toList.getLast? = some '/'

/-- The place that a path means if every name on the way is that of a directory. -/
def place (path : String) (workingDirectory : Place) : Place :=
  (names path).foldl Place.next (origin path workingDirectory)

end Path

end MicroC
