/-!
# Paths

The normal form of a path: single slashes between components, no `.` component and no slash at the
end. `..` stays, since what it leads to depends on the file system. Exactly two slashes in front
are a root of their own; three or more are one.
-/

namespace Overseer.Path

def pieces : List Char → List (List Char)
  | [] => [[]]
  | '/' :: rest => [] :: pieces rest
  | c :: rest =>
    match pieces rest with
    | [] => [[c]]
    | first :: others => (c :: first) :: others

/-- The components of a path, without the empty ones and the `.` ones. -/
def components (s : String) : List String :=
  ((pieces s.toList).map String.ofList).filter fun part => part ≠ "" && part ≠ "."

/-- What a path starts with: nothing, one slash or two. -/
def root (s : String) : String :=
  match (s.toList.takeWhile (· == '/')).length with
  | 0 => ""
  | 2 => "//"
  | _ => "/"

def normalize (s : String) : String :=
  let text := root s ++ "/".intercalate (components s)
  if text = "" then "." else text

end Overseer.Path
