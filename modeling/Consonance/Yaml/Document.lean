import Consonance.Value.Members
import Consonance.Value.Order
import Consonance.Yaml.Node
import Consonance.Yaml.Scalar

/-!
# Documents

The data of a document are made from its nodes.  A scalar is made at once.  A collection is
made after everything that was met before it.  So of several faults the one that is found is
that of the scalar met first when the nodes are walked level by level.

Each node is made once, and what it holds is known by the numbers of nodes.  `unfold` gives
a value.  It goes only so deep, and where a collection comes up inside itself it stops.

A mapping may merge others.  Their entries are put in front of its own, those of the first
merged mapping last.  An entry replaces an earlier one under an equal key.  So the entries of
the mapping itself win, and then those of the first mapping that it merges.
-/

namespace Consonance.Yaml

/-- What is made of a node.  Parts are known by the numbers of their nodes. -/
inductive Datum where
  | plain (v : Value)
  | list (items : List Nat)
  | record (fields : List (Value × Nat))
  | members (items : List Value)
  | pairs (items : List (Nat × Nat))
  deriving Repr, Inhabited

/-- The state of a maker of data. -/
structure Making where
  nodes : Array Node
  /-- The data so far, by the numbers of their nodes. -/
  data : Array (Option Datum)
  /-- The collections that have been met and not yet been made, the latest first. -/
  waiting : List Nat := []

namespace Making

def node (m : Making) (number : Nat) : Except Failure Node :=
  match m.nodes[number]? with
  | some node => .ok node
  | none => malformed

def tag (m : Making) (number : Nat) : Tag :=
  match m.nodes[number]? with
  | some node => node.tag
  | none => .unknown

/-- Changes a node. -/
def change (number : Nat) (f : Node → Node) (m : Making) : Making :=
  { m with nodes := m.nodes.modify number f }

def put (number : Nat) (d : Datum) (m : Making) : Making :=
  { m with data := m.data.modify number fun _ => some d }

/-! ## Merging -/

def fields (m : Making) (number : Nat) : Except Failure (List (Nat × Nat)) := do
  match (← m.node number).content with
  | .mapping fields => return fields
  | _ => malformed

/-- The mappings that the value of a merge names, the one that comes first last. -/
def sources (m : Making) (number : Nat) : Except Failure (List Nat) := do
  match (← m.node number).content with
  | .mapping _ => return [number]
  | .sequence items => return items
  | .scalar _ => malformed

/-- The entries of some mappings one after the other, the last mapping first.  `merge` does
the merging inside each. -/
def gather (merge : Nat → Making → Except Failure Making) :
    List Nat → Making → Except Failure (List (Nat × Nat) × Making)
  | [], m => .ok ([], m)
  | number :: rest, m => do
    let _ ← m.fields number
    let m ← merge number m
    let own ← m.fields number
    let (more, m) ← gather merge rest m
    return (more ++ own, m)

/-- The merging inside a mapping from an entry on.  `merged` are the entries that come from
other mappings. -/
def mergeFrom (merge : Nat → Making → Except Failure Making) (number : Nat) :
    (steps : Nat) → (index : Nat) → (merged : List (Nat × Nat)) → Making → Except Failure Making
  | 0, _, merged, m => do
    let own ← m.fields number
    return m.change number fun node => { node with content := .mapping (merged ++ own) }
  | steps + 1, index, merged, m => do
    let own ← m.fields number
    match own[index]? with
    | none => mergeFrom merge number 0 index merged m
    | some (key, value) =>
      match m.tag key with
      | .merge =>
        let m := m.change number fun node =>
          { node with content := .mapping (own.eraseIdx index) }
        let (more, m) ← gather merge (← m.sources value) m
        mergeFrom merge number steps index (merged ++ more) m
      | .value =>
        mergeFrom merge number steps (index + 1) merged
          (m.change key fun node => { node with tag := .str })
      | _ => mergeFrom merge number steps (index + 1) merged m

/-- Takes the entries of merged mappings into a mapping. -/
def merge : (depth : Nat) → (number : Nat) → Making → Except Failure Making
  | 0, _, _ => .error .nesting
  | depth + 1, number, m => do
    mergeFrom (merge depth) number (← m.fields number).length 0 [] m

/-- The number of entries of all mappings. -/
def entryCount (m : Making) : Nat :=
  m.nodes.foldl (fun n node =>
    match node.content with
    | .mapping fields => n + fields.length
    | _ => n) 0

/-- The entries of a mapping with those that it merges. -/
def mergedFields (number : Nat) (m : Making) : Except Failure (List (Nat × Nat) × Making) := do
  let m ← merge (m.entryCount + 1) number m
  return (← m.fields number, m)

/-! ## Single data -/

/-- The characters of a node that is to be a scalar.  A mapping stands for the scalar under
its value key. -/
def codes (m : Making) : (depth : Nat) → (number : Nat) → Except Failure (List Nat)
  | 0, _ => .error .nesting
  | depth + 1, number => do
    match (← m.node number).content with
    | .scalar codes => return codes
    | .sequence _ => malformed
    | .mapping fields =>
      match fields.find? fun field => m.tag field.1 == .value with
      | some (_, value) => m.codes depth value
      | none => malformed

/-- The value of a node that is to be a scalar. -/
def scalar (m : Making) (number : Nat) : Except Failure Value := do
  let node ← m.node number
  let codes ← m.codes (m.nodes.size + 1) number
  match node.tag, node.content with
  | .timestamp, .mapping _ => .error (.mistyped (.notText "list"))
  | tag, _ => scalarValue tag codes

/-- Makes the datum of a node that is met.  A collection is left for later. -/
def meet (number : Nat) (m : Making) : Except Failure Making :=
  if (m.data[number]?.join).isSome then .ok m
  else
    match m.tag number with
    | .seq | .map | .set | .omap | .pairs =>
      .ok { m.put number (.list []) with waiting := number :: m.waiting }
    | .merge | .value | .unknown => malformed
    | _ => do return m.put number (.plain (← m.scalar number))

/-- Makes the datum of a node that is met as a key. -/
def meetKey (number : Nat) (m : Making) : Except Failure (Value × Making) := do
  let m ← m.meet number
  match m.data[number]?.join with
  | some (.plain v) => return (v, m)
  | _ => malformed

/-! ## Collections -/

/-- Puts a part under a key, in the place of an earlier one under the same key. -/
def putField (key : Value) (part : Nat) : List (Value × Nat) → List (Value × Nat)
  | [] => [(key, part)]
  | (k, p) :: rest => if k.same key then (k, part) :: rest else (k, p) :: putField key part rest

/-- The fields of a record after some earlier ones. -/
def meetFields (earlier : List (Value × Nat)) :
    List (Nat × Nat) → Making → Except Failure (List (Value × Nat) × Making)
  | [], m => .ok (earlier, m)
  | (key, value) :: rest, m => do
    let (k, m) ← m.meetKey key
    let m ← m.meet value
    meetFields (putField k value earlier) rest m

/-- The pairs of a list of mappings with one entry each. -/
def meetPairs : List Nat → Making → Except Failure (List (Nat × Nat) × Making)
  | [], m => .ok ([], m)
  | item :: rest, m => do
    match ← m.fields item with
    | [(key, value)] =>
      let m ← m.meet key
      let m ← m.meet value
      let (more, m) ← meetPairs rest m
      return ((key, value) :: more, m)
    | _ => malformed

def items (m : Making) (number : Nat) : Except Failure (List Nat) := do
  match (← m.node number).content with
  | .sequence items => return items
  | _ => malformed

def fill (number : Nat) (m : Making) : Except Failure Making := do
  match m.tag number with
  | .seq =>
    let items ← m.items number
    let m ← items.foldlM (fun m item => m.meet item) m
    return m.put number (.list items)
  | .map =>
    let (fields, m) ← m.mergedFields number
    let (fields, m) ← meetFields [] fields m
    return m.put number (.record fields)
  | .set =>
    let (fields, m) ← m.mergedFields number
    let (fields, m) ← meetFields [] fields m
    return m.put number (.members (Value.shownMembers (fields.map Prod.fst)))
  | _ =>
    let (pairs, m) ← meetPairs (← m.items number) m
    return m.put number (.pairs pairs)

/-- Makes the data of all collections that wait, and of those that are met meanwhile. -/
def fillAll : (steps : Nat) → Making → Except Failure Making
  | 0, m => .ok m
  | steps + 1, m =>
    match m.waiting with
    | [] => .ok m
    | waiting => do
      let m ← waiting.reverse.foldlM (fun m number => m.fill number) { m with waiting := [] }
      fillAll steps m

end Making

/-! ## Documents -/

/-- The data of a document. -/
structure Document where
  /-- The data, by the numbers of their nodes. -/
  data : Array (Option Datum)
  root : Nat
  deriving Repr

namespace Document

def ofGraph (g : Graph) : Except Failure Document := do
  let start : Making := { nodes := g.nodes, data := g.nodes.map fun _ => none }
  let m ← start.meet g.root
  let m ← m.fillAll g.nodes.size
  return ⟨m.data, g.root⟩

/-- The value of a node, at most so deep.  `around` are the nodes around it. -/
def unfold (d : Document) : (depth : Nat) → (around : List Nat) → (number : Nat) → Value
  | depth, around, number =>
    let again := around.contains number
    match d.data[number]?.join, depth with
    | none, _ => .nothing
    | some (.plain v), _ => v
    | some (.members items), _ => .members items
    | some (.record _), 0 => .atom (.again true)
    | some (.list _), 0 => .atom (.again false)
    | some (.pairs _), 0 => .atom (.again false)
    | some (.list items), depth + 1 =>
      if again then .atom (.again false)
      else .list (items.map (d.unfold depth (number :: around)))
    | some (.record fields), depth + 1 =>
      if again then .atom (.again true)
      else .record (fields.map fun (k, part) => (k, d.unfold depth (number :: around) part))
    | some (.pairs items), depth + 1 =>
      if again then .atom (.again false)
      else
        let part := d.unfold depth (number :: around)
        .list (items.map fun (a, b) => .pair (part a) (part b))

/-- The value of a document.  The value of each field of its root goes as deep as is said.
No value goes deeper than there are nodes. -/
def value (d : Document) (depthOf : Value → Nat) : Value :=
  match d.data[d.root]?.join with
  | some (.record fields) =>
    .record (fields.map fun (k, part) => (k, d.unfold (min (depthOf k) d.data.size) [] part))
  | _ => d.unfold 1 [] d.root

end Document

end Consonance.Yaml
