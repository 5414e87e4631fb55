import Consonance.Yaml.Form
import Consonance.Yaml.Layout

/-!
# Nodes

The tokens of a document form a graph.  A node is a scalar, a sequence of nodes or a mapping
with pairs of nodes.  It may have an anchor, and a later reference to the anchor stands for
the node itself.  So a collection may hold itself.  Nodes are numbered, a collection before
what it holds, and know each other by number.

The grammar is read by one function for each kind of collection.  An entry without a node
is an empty scalar.  Nodes nest only so deep.

`graphOf` reads the one document of a text.  A text without a document has no root.
-/

namespace Consonance.Yaml

/-- What a node holds. -/
inductive Content where
  /-- The numbers of the characters of a scalar. -/
  | scalar (codes : List Nat)
  | sequence (items : List Nat)
  /-- The keys and values of a mapping. -/
  | mapping (fields : List (Nat × Nat))
  deriving DecidableEq, Repr

/-- A node. -/
structure Node where
  tag : Tag
  content : Content
  deriving DecidableEq, Repr

/-- The state of a reader of nodes. -/
structure Composition where
  tokens : List Token
  /-- What fails if more of them are asked for. -/
  fault : Failure
  nodes : Array Node := #[]
  anchors : List (String × Nat) := []
  handles : Handles := .standard

/-- A step of a reader of nodes. -/
abbrev Compose := StateT Composition (Except Failure)

namespace Compose

/-- Ends the reading. -/
def refuse {α : Type} : Compose α := throw .malformedDocument

def peek : Compose Token := do
  let c ← get
  match c.tokens with
  | [] => throw c.fault
  | t :: _ => return t

/-- Goes on to the token after the next. -/
def advance : Compose Unit := modify fun c => { c with tokens := c.tokens.tail }

/-- Adds a node and gives its number. -/
def addNode (node : Node) : Compose Nat := do
  let c ← get
  set { c with nodes := c.nodes.push node }
  return c.nodes.size

/-- Adds an empty scalar. -/
def addEmpty : Compose Nat := addNode ⟨.null, .scalar []⟩

/-- Fills a collection that was added empty. -/
def fill (number : Nat) (content : Content) : Compose Unit :=
  modify fun c => { c with nodes := c.nodes.modify number fun node => { node with content } }

/-! ## Properties of nodes -/

/-- The anchor and the tag in front of a node, in either order. -/
structure Properties where
  anchor : Option String
  tag : Option String

/-- The anchor that comes next, if one does. -/
def anchor? : Compose (Option String) := do
  match ← peek with
  | .anchor name =>
    advance
    return some name
  | _ => return none

/-- The tag that comes next, if one does. -/
def tag? : Compose (Option WrittenTag) := do
  match ← peek with
  | .tag t =>
    advance
    return some t
  | _ => return none

def properties : Compose Properties := do
  let first ← anchor?
  let tag ← tag?
  let anchor ← if first.isNone && tag.isSome then anchor? else pure first
  match tag with
  | none => return ⟨anchor, none⟩
  | some t => return ⟨anchor, some (← t.fullName (← get).handles)⟩

/-- The kind of a node with properties.  It is as given, unless it follows from the form. -/
def Properties.kindOr (p : Properties) (form : Tag) : Tag :=
  match p.tag with
  | none => form
  | some name => if name = "!" then form else .ofName name

def Properties.scalarKind (p : Properties) (codes : List Nat) (isPlain : Bool) : Tag :=
  p.kindOr (if isPlain || p.tag == some "!" then tagOfPlain codes else .str)

/-- Fails if the anchor of a node is one of an earlier node. -/
def requireNew (p : Properties) : Compose Unit := do
  let c ← get
  if p.anchor.any fun name => (c.anchors.lookup name).isSome then refuse

/-- Adds a node under its anchor. -/
def addNamed (p : Properties) (node : Node) : Compose Nat := do
  let number ← addNode node
  match p.anchor with
  | some name => modify fun c => { c with anchors := (name, number) :: c.anchors }
  | none => pure ()
  return number

/-! ## The grammar -/

def deepest : Nat := 485

mutual

/-- The node at a place.  `block` says that it may be a block collection, and `bare` that it
may be a block sequence without a column of its own.  `level` counts the collections around
it. -/
def node : (steps : Nat) → (level : Nat) → (block bare : Bool) → Compose Nat
  | 0, _, _, _ => refuse
  | steps + 1, level, block, bare => do
    if deepest < level then throw .nesting
    match ← peek with
    | .reference name =>
      advance
      match (← get).anchors.lookup name with
      | some number => return number
      | none => refuse
    | _ =>
      let p ← properties
      let t ← peek
      requireNew p
      match t with
      | .scalar codes isPlain =>
        advance
        addNamed p ⟨p.scalarKind codes isPlain, .scalar codes⟩
      | .flowSequence =>
        advance
        let number ← addNamed p ⟨p.kindOr .seq, .sequence []⟩
        fill number (.sequence (← flowItems steps level []))
        return number
      | .flowMapping =>
        advance
        let number ← addNamed p ⟨p.kindOr .map, .mapping []⟩
        fill number (.mapping (← flowFields steps level []))
        return number
      | t =>
        if bare ∧ t = .dash then
          let number ← addNamed p ⟨p.kindOr .seq, .sequence []⟩
          fill number (.sequence (← bareItems steps level []))
          return number
        else if block ∧ t = .blockSequence then
          advance
          let number ← addNamed p ⟨p.kindOr .seq, .sequence []⟩
          fill number (.sequence (← blockItems steps level []))
          return number
        else if block ∧ t = .blockMapping then
          advance
          let number ← addNamed p ⟨p.kindOr .map, .mapping []⟩
          fill number (.mapping (← blockFields steps level []))
          return number
        else if p.anchor.isSome || p.tag.isSome then
          addNamed p ⟨p.kindOr .null, .scalar []⟩
        else refuse

/-- The node at a place, or an empty scalar if one of some tokens comes first. -/
def nodeUnless : (steps : Nat) → (level : Nat) → (block bare : Bool) → List Token → Compose Nat
  | 0, _, _, _, _ => refuse
  | steps + 1, level, block, bare, ends => do
    if ends.contains (← peek) then addEmpty else node steps (level + 1) block bare

/-- The value after a key, if there is one. -/
def valueUnless : (steps : Nat) → (level : Nat) → (block : Bool) → List Token → Compose Nat
  | 0, _, _, _ => refuse
  | steps + 1, level, block, ends => do
    if (← peek) = .value then
      advance
      nodeUnless steps level block block ends
    else addEmpty

/-- The items of a block sequence after some earlier ones, the latest first. -/
def blockItems : (steps : Nat) → (level : Nat) → List Nat → Compose (List Nat)
  | 0, _, _ => refuse
  | steps + 1, level, earlier => do
    match ← peek with
    | .dash =>
      advance
      let item ← nodeUnless steps level true false [.dash, .blockEnd]
      blockItems steps level (item :: earlier)
    | .blockEnd =>
      advance
      return earlier.reverse
    | _ => refuse

/-- The items of a block sequence without a column of its own, after some earlier ones, the
latest first. -/
def bareItems : (steps : Nat) → (level : Nat) → List Nat → Compose (List Nat)
  | 0, _, _ => refuse
  | steps + 1, level, earlier => do
    match ← peek with
    | .dash =>
      advance
      let item ← nodeUnless steps level true false [.dash, .key, .value, .blockEnd]
      bareItems steps level (item :: earlier)
    | _ => return earlier.reverse

/-- The fields of a block mapping after some earlier ones, the latest first. -/
def blockFields : (steps : Nat) → (level : Nat) → List (Nat × Nat) → Compose (List (Nat × Nat))
  | 0, _, _ => refuse
  | steps + 1, level, earlier => do
    match ← peek with
    | .key =>
      advance
      let key ← nodeUnless steps level true true [.key, .value, .blockEnd]
      let value ← valueUnless steps level true [.key, .value, .blockEnd]
      blockFields steps level ((key, value) :: earlier)
    | .blockEnd =>
      advance
      return earlier.reverse
    | _ => refuse

/-- A key and its value in brackets, from the start of the key on. -/
def flowField : (steps : Nat) → (level : Nat) → (last : Token) → Compose (Nat × Nat)
  | 0, _, _ => refuse
  | steps + 1, level, last => do
    advance
    let key ← nodeUnless steps level false false [.value, .comma, last]
    let value ← valueUnless steps level false [.comma, last]
    return (key, value)

/-- The items of a flow sequence after some earlier ones, the latest first.  A key with a
value is an item of its own, a mapping of one field. -/
def flowItems : (steps : Nat) → (level : Nat) → List Nat → Compose (List Nat)
  | 0, _, _ => refuse
  | steps + 1, level, earlier => do
    let t ← peek
    if t = .flowSequenceEnd then
      advance
      return earlier.reverse
    else
      if !earlier.isEmpty then
        if t = .comma then advance else refuse
      match ← peek with
      | .key =>
        let number ← addNode ⟨.map, .mapping []⟩
        fill number (.mapping [← flowField steps (level + 1) .flowSequenceEnd])
        flowItems steps level (number :: earlier)
      | .flowSequenceEnd =>
        advance
        return earlier.reverse
      | _ =>
        let item ← node steps (level + 1) false false
        flowItems steps level (item :: earlier)

/-- The fields of a flow mapping after some earlier ones, the latest first. -/
def flowFields : (steps : Nat) → (level : Nat) → List (Nat × Nat) → Compose (List (Nat × Nat))
  | 0, _, _ => refuse
  | steps + 1, level, earlier => do
    let t ← peek
    if t = .flowMappingEnd then
      advance
      return earlier.reverse
    else
      if !earlier.isEmpty then
        if t = .comma then advance else refuse
      match ← peek with
      | .key => flowFields steps level ((← flowField steps level .flowMappingEnd) :: earlier)
      | .flowMappingEnd =>
        advance
        return earlier.reverse
      | _ =>
        let key ← node steps (level + 1) false false
        flowFields steps level ((key, ← addEmpty) :: earlier)

end

/-! ## Documents -/

/-- The directives in front of a document.  `versioned` says that one of them gave the
version. -/
def directives : (steps : Nat) → (versioned : Bool) → Handles → Compose Handles
  | 0, _, _ => refuse
  | steps + 1, versioned, handles => do
    match ← peek with
    | .directive d =>
      advance
      match d with
      | .version major =>
        if versioned ∨ major ≠ 1 then refuse else directives steps true handles
      | .handle name stem =>
        if (handles.lookup name).isSome then refuse
        else directives steps versioned ((name, stem) :: handles)
      | .other => directives steps versioned handles
    | _ => return handles

/-- The start of a document with its directives. -/
def documentStart (steps : Nat) : Compose Unit := do
  let handles ← directives steps false []
  if (← peek) = .documentStart then
    advance
    modify fun c => { c with handles := handles ++ Handles.standard }
  else refuse

/-- Passes over the ends of documents. -/
def documentEnds : (steps : Nat) → Compose Unit
  | 0 => refuse
  | steps + 1 => do
    if (← peek) = .documentEnd then
      advance
      documentEnds steps

/-- The root of a document that starts with a line of its own. -/
def markedRoot (steps : Nat) : Compose Nat := do
  documentStart steps
  match ← peek with
  | .directive _ | .documentStart | .documentEnd | .finish => addEmpty
  | _ => node steps 1 true false

/-- The root of the document, if there is one.  There may be no second document. -/
def root (steps : Nat) : Compose (Option Nat) := do
  match ← peek with
  | .finish => return none
  | t =>
    let number ← match t with
      | .directive _ | .documentStart => markedRoot steps
      | _ => node steps 1 true false
    documentEnds steps
    if (← peek) = .finish then return some number
    else
      documentStart steps
      refuse

end Compose

/-- The nodes of a document and its root. -/
structure Graph where
  nodes : Array Node
  root : Nat
  deriving Repr

/-- The graph of the document in a text, if there is one. -/
def graphOf (cs : List Char) : Except Failure (Option Graph) := do
  let t := tokensOf cs
  let c : Composition := { tokens := t.tokens, fault := t.fault }
  let (root, c) ← (Compose.root (6 * t.tokens.length + 8)).run c
  return root.map fun root => ⟨c.nodes, root⟩

example : (graphOf "[a, *x]".toList).toOption.isSome = false := by decide +kernel

end Consonance.Yaml
