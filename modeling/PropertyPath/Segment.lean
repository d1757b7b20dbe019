import PropertyPath.Value.Json

/-!
# Segments

A path is a list of segments. A segment has a kind, a name that may be empty, and attributes, which
are values under string keys. The attributes carry one meaning only: a segment whose attribute
`root` is true stands for the document itself.
-/

namespace PropertyPath

/-! ## Kinds -/

/-- What a segment takes its value to be: a leaf to return, an object to enter or an array to fan
out over. -/
inductive SegmentKind where
  | literal
  | object
  | array
  deriving DecidableEq, Inhabited

/-- The tag that names a kind. -/
def SegmentKind.tag : SegmentKind → String
  | literal => "literal"
  | object => "object"
  | array => "array"

/-- A tag that names no kind. -/
structure UnknownKind where
  tag : String
  deriving DecidableEq

/-- The text of the error. -/
def UnknownKind.message (e : UnknownKind) : String := s!"Unknown segment kind: '{e.tag}'"

/-- The kind that a tag names. -/
def SegmentKind.ofTag (tag : String) : Except UnknownKind SegmentKind :=
  if tag = "literal" then .ok .literal
  else if tag = "object" then .ok .object
  else if tag = "array" then .ok .array
  else .error ⟨tag⟩

/-- A kind is read back from its tag. -/
theorem SegmentKind.ofTag_tag (kind : SegmentKind) : ofTag kind.tag = .ok kind := by
  cases kind <;> rfl

theorem SegmentKind.tag_injective {kind other : SegmentKind} (h : kind.tag = other.tag) :
    kind = other := by
  have hread := congrArg ofTag h
  rw [ofTag_tag, ofTag_tag] at hread
  exact Except.ok.inj hread

/-! ## Segments -/

/-- One step of a path. -/
structure Segment where
  name : String
  kind : SegmentKind
  attrs : Fields Value
  deriving DecidableEq

/-- A path, from the document downwards. -/
abbrev Path := List Segment

namespace Segment

/-- The segment of a name and a kind, without attributes. -/
def of (name : String) (kind : SegmentKind) : Segment := ⟨name, kind, .nil⟩

@[simp] theorem name_of (name : String) (kind : SegmentKind) : (of name kind).name = name := rfl

@[simp] theorem kind_of (name : String) (kind : SegmentKind) : (of name kind).kind = kind := rfl

@[simp] theorem attrs_of (name : String) (kind : SegmentKind) : (of name kind).attrs = .nil := rfl

/-- Sets an attribute. -/
def withAttr (s : Segment) (key : String) (value : Value) : Segment :=
  { s with attrs := s.attrs.set key value }

/-- The attribute that marks a root. -/
def rootKey : String := "root"

/-- The segment that stands for the document itself. -/
def root : Segment := (of "" .object).withAttr rootKey (Value.ofBool true)

/-- The segment names a field. -/
def hasName (s : Segment) : Bool := s.name != ""

/-- The segment is of a kind. -/
def hasKind (s : Segment) (kind : SegmentKind) : Bool := s.kind = kind

/-- The root attribute is true. -/
def isRoot (s : Segment) : Bool := s.attrs.get? rootKey = some (Value.ofBool true)

/-- Equality of segments, with floats in attributes compared as numbers. -/
def equiv (s t : Segment) : Bool :=
  s.name == t.name && s.kind = t.kind && s.attrs.equiv t.attrs

/-! ## JSON -/

/-- A segment as a JSON object of its attributes, its name and the tag of its kind. -/
def toJson (s : Segment) : Json :=
  .object (.ofList [
    ("meta", .object (Document.mapFields Scalar.toJson s.attrs)),
    ("name", .scalar (.string s.name)),
    ("type", .scalar (.string s.kind.tag))])

end Segment

namespace Path

/-- Equality of paths, with floats in attributes compared as numbers. -/
def equiv : Path → Path → Bool
  | [], [] => true
  | s :: p, t :: q => s.equiv t && equiv p q
  | _, _ => false

/-- A path as a JSON array. -/
def toJson (p : Path) : Json := .array (p.map Segment.toJson)

end Path

end PropertyPath
