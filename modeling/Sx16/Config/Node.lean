/-
# Configurations as trees

A configuration is a scalar, a map, a list, or the repetition of a node that was given a name. Keys
and values that are left out are empty plain scalars. A text holds one document at most; without one
it stands for an empty scalar. A list in brackets may hold a map of one entry without braces.

The readers take the marks that are left from the state. Their first argument bounds the calls inside
each other; twice the number of marks is always enough.

Key definitions: `Node`, `Document`, `readNode`, `Document.read?`.
-/
import Sx16.Config.Mark
import Sx16.Keyed

namespace Sx16
namespace Config

/-- A configuration. -/
inductive Node where
  /-- A scalar and its tag in full. -/
  | scalar (s : Scalar) (tag : Option String)
  | map (entries : List (Node × Node))
  | list (items : List Node)
  /-- The named node with a number. -/
  | repeated (number : Nat)

/-- The node that is left out. -/
def Node.absent : Node := .scalar Scalar.absent none

/-- A configuration with its named nodes, by number. -/
structure Document where
  root : Node
  named : Keyed Nat Node

/-- What is left to read, and what has been read of names. -/
structure Reading where
  marks : List Mark
  /-- What the handles of tags stand for. -/
  handles : Named String := []
  /-- The number of the last node with a name. -/
  numbers : Named Nat := []
  count : Nat := 0
  named : Keyed Nat Node := []

/-- A reader of marks. -/
abbrev Reader := StateT Reading Option

namespace Reader

/-- The next mark. -/
def peek? : Reader (Option Mark) := do
  return (← get).marks.head?

/-- Whether the next mark is one of these. -/
def isAt (ms : List Mark) : Reader Bool := do
  return (← peek?).any ms.contains

/-- Drops the next mark. -/
def skip : Reader Unit := modify fun s => { s with marks := s.marks.drop 1 }

/-- Drops the next mark if it is `m`, and tells whether it was. -/
def skipIf (m : Mark) : Reader Bool := do
  if ← isAt [m] then
    skip
    return true
  else return false

/-- Drops the next mark, which has to be `m`. -/
def expect (m : Mark) : Reader Unit := do
  if !(← skipIf m) then failure

/-- The number of a new node with a name. -/
def number (name : String) : Reader Nat := do
  let s ← get
  set { s with numbers := Keyed.put name s.count s.numbers, count := s.count + 1 }
  return s.count

/-- Keeps a node for its repetitions. -/
def keep (number : Option Nat) (n : Node) : Reader Node := do
  match number with
  | none => return n
  | some i =>
    modify fun s => { s with named := Keyed.put i n s.named }
    return n

/-- A tag in full; its handle has to be known. -/
def fullTag (t : Tag) : Reader String := do
  if t.handle.isEmpty then return t.text
  else
    match (← get).handles.lookup t.handle with
    | some text => return text ++ t.text
    | none => failure

end Reader

open Reader

/-- The name and the tag of a node, in either order. -/
def readProperties : Reader (Option String × Option Tag) := do
  match ← peek? with
  | some (.name n) => do
    skip
    match ← peek? with
    | some (.tag t) => do
      skip
      return (some n, some t)
    | _ => return (some n, none)
  | some (.tag t) => do
    skip
    match ← peek? with
    | some (.name n) => do
      skip
      return (some n, some t)
    | _ => return (none, some t)
  | _ => return (none, none)

mutual

/-- A node. Block maps and lists are nodes where `block`, and a list without a block of its own where
`bare`. A node with a name or a tag may be left out. -/
def readNode : Nat → (block bare : Bool) → Reader Node
  | 0, _, _ => failure
  | n + 1, block, bare => do
    match ← peek? with
    | some (.repeated name) => do
      skip
      match (← get).numbers.lookup name with
      | some i => return .repeated i
      | none => failure
    | _ => do
      let (name, tag) ← readProperties
      let tag ← tag.mapM fullTag
      let number ← name.mapM number
      let leftOut : Reader Node :=
        if name.isSome || tag.isSome then keep number (.scalar Scalar.absent tag) else failure
      match ← peek? with
      | some .dash => if bare then keep number (.list (← readBareItems n)) else leftOut
      | some (.scalar s) => do
        skip
        keep number (.scalar s tag)
      | some .listOpen => do
        skip
        keep number (.list (← readItems n true))
      | some .mapOpen => do
        skip
        keep number (.map (← readEntries n true))
      | some .blockList =>
        if block then do
          skip
          keep number (.list (← readBlockItems n))
        else leftOut
      | some .blockMap =>
        if block then do
          skip
          keep number (.map (← readBlockEntries n))
        else leftOut
      | _ => leftOut

/-- A node, which is left out before some marks. -/
def readOptional : Nat → (block bare : Bool) → (before : List Mark) → Reader Node
  | 0, _, _, _ => failure
  | n + 1, block, bare, before => do
    if ← isAt before then return Node.absent else readNode n block bare

/-- The items of a block list. -/
def readBlockItems : Nat → Reader (List Node)
  | 0 => failure
  | n + 1 => do
    if ← skipIf .blockEnd then return []
    else
      expect .dash
      let item ← readOptional n true false [.dash, .blockEnd]
      return item :: (← readBlockItems n)

/-- The items of a list that stands in the column of the map around it. -/
def readBareItems : Nat → Reader (List Node)
  | 0 => failure
  | n + 1 => do
    if ← skipIf .dash then
      let item ← readOptional n true false [.dash, .key, .value, .blockEnd]
      return item :: (← readBareItems n)
    else return []

/-- The entries of a block map. -/
def readBlockEntries : Nat → Reader (List (Node × Node))
  | 0 => failure
  | n + 1 => do
    if ← skipIf .blockEnd then return []
    else
      expect .key
      let key ← readOptional n true true [.key, .value, .blockEnd]
      let value ←
        if ← skipIf .value then readOptional n true true [.key, .value, .blockEnd]
        else pure Node.absent
      return (key, value) :: (← readBlockEntries n)

/-- The items of a list in brackets, the first of them or those after it. -/
def readItems : Nat → (isFirst : Bool) → Reader (List Node)
  | 0, _ => failure
  | n + 1, isFirst => do
    if ← skipIf .listClose then return []
    else
      if !isFirst then expect .comma
      if ← skipIf .listClose then return []
      else
        let item ← if ← skipIf .key then readPair n else readNode n false false
        return item :: (← readItems n false)

/-- A map of one entry without braces. -/
def readPair : Nat → Reader Node
  | 0 => failure
  | n + 1 => do
    let key ←
      if ← isAt [.value, .comma, .listClose] then do
        skip
        pure Node.absent
      else readNode n false false
    let value ←
      if ← skipIf .value then readOptional n false false [.comma, .listClose]
      else pure Node.absent
    return .map [(key, value)]

/-- The entries of a map in brackets, the first of them or those after it. -/
def readEntries : Nat → (isFirst : Bool) → Reader (List (Node × Node))
  | 0, _ => failure
  | n + 1, isFirst => do
    if ← skipIf .mapClose then return []
    else
      if !isFirst then expect .comma
      if ← skipIf .mapClose then return []
      else
        let (key, value) ←
          if ← skipIf .key then do
            let key ← readOptional n false false [.value, .comma, .mapClose]
            let value ←
              if ← skipIf .value then readOptional n false false [.comma, .mapClose]
              else pure Node.absent
            pure (key, value)
          else do pure (← readNode n false false, Node.absent)
        return (key, value) :: (← readEntries n false)

end

/-- What the handles of tags stand for where nothing is said. -/
def defaultHandles : Named String := [("!", "!"), ("!!", "tag:yaml.org,2002:")]

/-- Takes the directives before a document: one version, and one text for a handle. -/
def readDirectives : (versionSeen : Bool) → (handles : Named String) → List Mark →
    Option (Named String × List Mark)
  | seen, handles, .directive (.version major minor) :: r =>
    if seen || !isKnownVersion major minor then none else readDirectives true handles r
  | seen, handles, .directive (.handle name text) :: r =>
    if (handles.lookup name).isSome then none else readDirectives seen (handles ++ [(name, text)]) r
  | _, handles, r => some (handles ++ defaultHandles, r)

/-- What may not stand in a document. -/
def isOutside : Option Mark → Bool
  | none | some (.directive _) | some .documentStart | some .documentEnd => true
  | _ => false

/-- The content of a document up to its end, after which nothing may follow. -/
def readContent (marks : List Mark) (handles : Named String) (mayBeAbsent : Bool) :
    Option Document := do
  let reader :=
    if mayBeAbsent && isOutside marks.head? then pure Node.absent
    else readNode (2 * marks.length + 2) true false
  let (root, s) ← reader.run { marks, handles }
  if s.marks.all (· == .documentEnd) then some { root, named := s.named } else none

/-- The document of marks. Directives are followed by the mark of a document's start. -/
def Document.ofMarks? (marks : List Mark) : Option Document := do
  match marks.head? with
  | none => some { root := Node.absent, named := [] }
  | some (.directive _) | some .documentStart =>
    match ← readDirectives false [] marks with
    | (handles, .documentStart :: r) => readContent r handles true
    | _ => none
  | some _ => readContent marks defaultHandles false

/-- The document in a file. -/
def Document.read? (bytes : ByteArray) : Option Document := do
  Document.ofMarks? (← marksOf (← lettersOfBytes? bytes))

/-- The node that a node stands for. -/
def Document.follow (d : Document) : Node → Node
  | .repeated i => (d.named.lookup i).getD (.repeated i)
  | n => n

end Config
end Sx16
