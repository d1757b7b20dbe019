import PropertyPath.Path.Split
import PropertyPath.Segment

/-!
# Paths from text

A path is written as names with delimiters between them. A name may be followed by markers, each of
which fans out over the array found there.

* `user.address.zip` — enter `user`, enter `address`, return `zip`
* `roles[].name` — fan out over `roles`, return `name` of each element
* `[].id` — fan out over the document itself, return `id` of each element

Every text is a path. What makes no sense for a document shows when the path is resolved on it.
-/

namespace PropertyPath

namespace Path

/-- The name that a piece of text stands for. -/
def nameOf (piece : List Char) : String := String.ofList (unescape piece)

/-- The segments of a token. Without a marker it is one segment of the given kind; otherwise each
part that a marker follows is an array segment, and the text after the last marker is dropped. -/
def tokenSegments (kind : SegmentKind) (token : List Char) : Path :=
  match (parts token).closed with
  | [] => [.of (nameOf token) kind]
  | piece :: pieces => (piece :: pieces).map fun part => .of (nameOf part) .array

/-- The root segment, when the text starts with a marker. -/
def leadingRoot (text : List Char) : Path :=
  match (parts (tokens text).first).closed with
  | [] :: _ => [.root]
  | _ => []

/-- The segments of a text, given as characters. -/
def ofChars (text : List Char) : Path :=
  leadingRoot text
    ++ (tokens text).closed.flatMap (tokenSegments .object)
    ++ tokenSegments .literal (tokens text).last

/-- The path that a text stands for. -/
def parse (text : String) : Path := ofChars text.toList

end Path

end PropertyPath
