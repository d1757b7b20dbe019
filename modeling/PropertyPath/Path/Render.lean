import PropertyPath.Path.Parse

/-!
# Text from paths

Each segment is written as its escaped name, with a marker after it when it fans out, and the
segments are joined by points. A root segment is not written: the marker that starts the text brings
it back.
-/

namespace PropertyPath

namespace Path

/-- The text of a segment. -/
def segmentChars (s : Segment) : List Char :=
  escape s.name.toList ++ if s.kind = .array then ['[', ']'] else []

/-- The text of a path, as characters. -/
def chars (p : Path) : List Char :=
  ['.'].intercalate ((p.filter fun s => !s.isRoot).map segmentChars)

/-- The text of a path. -/
def render (p : Path) : String := String.ofList (chars p)

end Path

end PropertyPath
