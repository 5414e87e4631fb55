import Consonance.Yaml.Tag

/-!
# Tokens

A token is a word of the grammar of documents.  Most tokens stand in the text.  The start
and the end of a block collection, and the start of a key, do not.  They follow from the
columns and from the colons.
-/

namespace Consonance.Yaml

/-- A word of the grammar of documents. -/
inductive Token where
  | finish
  | directive (d : Directive)
  | documentStart
  | documentEnd
  | blockSequence
  | blockMapping
  | blockEnd
  /-- The opening bracket of a flow sequence. -/
  | flowSequence
  /-- The closing bracket of a flow sequence. -/
  | flowSequenceEnd
  /-- The opening brace of a flow mapping. -/
  | flowMapping
  /-- The closing brace of a flow mapping. -/
  | flowMappingEnd
  /-- The comma between two entries of a flow collection. -/
  | comma
  /-- The dash in front of an item of a block sequence. -/
  | dash
  | key
  /-- The colon in front of a value. -/
  | value
  /-- A node that stands elsewhere, by the name of its anchor. -/
  | reference (name : String)
  | anchor (name : String)
  | tag (t : WrittenTag)
  /-- A scalar by the numbers of its characters, and whether it is plain. -/
  | scalar (codes : List Nat) (isPlain : Bool)
  deriving DecidableEq, Repr

end Consonance.Yaml
