import ShardSweep.Failure
import ShardSweep.Text.Blank
import ShardSweep.Text.Pieces

/-!
# Absolute paths

`Path.components` is the list of names that a path goes through: empty
pieces and `.` are skipped and `..` takes the last name back, without
leaving the root.  `Path.text` writes names as a path again.

* `enter`: what one piece does to the names gone through so far;
* `components_eq_error_iff`: a path is refused exactly if, without the blanks
  around it, it does not start with a slash.
-/

namespace ShardSweep.Path

/-- What one piece of a path does to the names gone through so far, the deepest
first. -/
def enter (trail : List String) (piece : String) : List String :=
  if piece = "" ∨ piece = "." then trail
  else if piece = ".." then trail.tail
  else piece :: trail

/-- The names left after all pieces, outermost first. -/
def normalize (pieces : List String) : List String :=
  (pieces.foldl enter []).reverse

/-- A path that starts at the root. -/
def isAbsolute (path : String) : Bool :=
  path.toList.head? == some '/'

/-- The names an absolute path goes through, whatever blanks are around it. -/
def components (path : String) : Except Refusal (List String) :=
  if isAbsolute (Text.strip path) then
    .ok (normalize (Text.split '/' (Text.strip path)))
  else
    .error (.relativePath (Text.strip path))

/-- The path that goes through the given names. -/
def text (names : List String) : String :=
  "/" ++ Text.join '/' names

/-- A path is refused exactly if it does not start at the root. -/
theorem components_eq_error_iff (path : String) (r : Refusal) :
    components path = .error r ↔
      isAbsolute (Text.strip path) = false ∧ r = .relativePath (Text.strip path) := by
  by_cases h : isAbsolute (Text.strip path) <;> simp [components, h, eq_comm]

example : components " /a//b/./c/.. " = .ok ["a", "b"] := by cbv
example : components "/.." = .ok [] := by cbv
example : text ["a", "b"] = "/a/b" := by cbv

end ShardSweep.Path
