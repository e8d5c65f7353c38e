import ChordOverlay.Yaml.Token.Reader

/-!
The nodes of a YAML document, composed from its tokens. An alias stands for the node whose anchor it names,
and keeps the number of that node.
-/

namespace ChordOverlay.Yaml

/-- A node of a document. -/
inductive Node where
  | scalar (text : String) (style : Style) (tag : Option String)
  | sequence (items : List Node)
  | mapping (entries : List (Node × Node))
  | alias (number : Nat)
deriving Inhabited, Repr

namespace Node

/-- The node that stands where there is no text for one. -/
def empty : Node := .scalar "" .plain none

end Node

/-- Composing in progress: the tokens left, and what is known of tags and anchors. -/
structure Composer where
  tokens : List Token
  /-- What the handles of tags expand to, latest first. -/
  handles : List (String × String)
  /-- The numbers of anchors, latest first. -/
  anchors : List (String × Nat)
  /-- The nodes with anchors, by number. -/
  marked : List (Nat × Node)
  /-- How many anchors have been met. -/
  count : Nat

namespace Composer

/-- The handles that need no directive. -/
def standardHandles : List (String × String) := [("!", "!"), ("!!", "tag:yaml.org,2002:")]

/-- The composer before the first token. -/
def start (tokens : List Token) : Composer := ⟨tokens, standardHandles, [], [], 0⟩

/-- One token on. -/
def drop (s : Composer) : Composer := { s with tokens := s.tokens.tail }

/-- Whether one of some tokens comes next, or the tokens are over. -/
def stopsAt (s : Composer) (stops : List Token) : Bool := s.tokens.head?.all stops.contains

/-- Whether the next token is this one. -/
def nextIs (s : Composer) (t : Token) : Bool := s.tokens.head? == some t

/-- The full name of a tag; its handle must be known. -/
def expand? (s : Composer) : TagName → Option String
  | .verbatim name => some name
  | .short handle rest => (s.handles.lookup handle).map fun expansion => expansion ++ rest

/-- What stands in front of a node. -/
structure Properties where
  anchor : Option Nat
  tag : Option String

/-- Takes the anchor in front of a node, and the number it gives to it. -/
def takeAnchor (s : Composer) : Composer × Option Nat :=
  match s.tokens with
  | .anchor name :: _ =>
    ({ s.drop with anchors := (name, s.count) :: s.anchors, count := s.count + 1 }, some s.count)
  | _ => (s, none)

/-- Takes the tag in front of a node, with its handle expanded; fails if that is not declared. -/
def takeTag (s : Composer) : Option (Composer × Option String) :=
  match s.tokens with
  | .tag name :: _ => do return (s.drop, some (← s.expand? name))
  | _ => some (s, none)

/-- Takes an anchor and a tag, in either order. -/
def takeProperties (s : Composer) : Option (Composer × Properties) := do
  match s.tokens with
  | .anchor _ :: _ =>
    let (s, anchor) := s.takeAnchor
    let (s, tag) ← s.takeTag
    return (s, ⟨anchor, tag⟩)
  | _ =>
    let (s, tag) ← s.takeTag
    let (s, anchor) := s.takeAnchor
    return (s, ⟨anchor, tag⟩)

/-- Remembers a node under the number of its anchor. -/
def mark (s : Composer) (anchor : Option Nat) (node : Node) : Composer :=
  match anchor with
  | some number => { s with marked := (number, node) :: s.marked }
  | none => s

mutual

/-- Composes a node; `n` bounds the depth and the length of what follows. -/
def node : Nat → (inBlock indentless : Bool) → Composer → Option (Node × Composer)
  | 0, _, _, _ => none
  | n + 1, inBlock, indentless, s =>
    match s.tokens with
    | .alias name :: _ => do return (.alias (← s.anchors.lookup name), s.drop)
    | _ => do
      let (s, properties) ← s.takeProperties
      let (node, s) ← content n inBlock indentless properties s
      return (node, s.mark properties.anchor node)

/-- The node itself, behind its properties. -/
def content : Nat → (inBlock indentless : Bool) → Properties → Composer → Option (Node × Composer)
  | 0, _, _, _, _ => none
  | n + 1, inBlock, indentless, properties, s =>
    match s.tokens with
    | .scalar text style :: _ => some (.scalar text style (properties.tag.filter (· ≠ "!")), s.drop)
    | .flowSequence :: _ => do
      let (items, s) ← flowItems n true s.drop
      return (.sequence items, s)
    | .flowMapping :: _ => do
      let (entries, s) ← flowFields n true s.drop
      return (.mapping entries, s)
    | t :: _ =>
      if indentless && t == .blockEntry then do
        let (items, s) ← blockItems n true s
        return (.sequence items, s)
      else if inBlock && t == .blockSequence then do
        let (items, s) ← blockItems n false s.drop
        return (.sequence items, s)
      else if inBlock && t == .blockMapping then do
        let (entries, s) ← blockFields n s.drop
        return (.mapping entries, s)
      else bare properties s
    | [] => bare properties s
where
  bare (properties : Properties) (s : Composer) : Option (Node × Composer) :=
    if properties.anchor.isSome || properties.tag.isSome then
      some (.scalar "" .plain (properties.tag.filter (· ≠ "!")), s)
    else none

/-- A node, or the empty one if one of some tokens comes next. -/
def nodeUnless : Nat → List Token → (inBlock indentless : Bool) → Composer → Option (Node × Composer)
  | 0, _, _, _, _ => none
  | n + 1, stops, inBlock, indentless, s =>
    if s.stopsAt stops then some (.empty, s) else node n inBlock indentless s

/-- The items of a block sequence; one without indentation of its own ends where no item follows. -/
def blockItems : Nat → (indentless : Bool) → Composer → Option (List Node × Composer)
  | 0, _, _ => none
  | n + 1, indentless, s =>
    match s.tokens with
    | .blockEntry :: _ => do
      let stops := if indentless then [.blockEntry, .key, .value, .blockEnd] else [.blockEntry, .blockEnd]
      let (item, s) ← nodeUnless n stops true false s.drop
      let (items, s) ← blockItems n indentless s
      return (item :: items, s)
    | .blockEnd :: _ => some ([], if indentless then s else s.drop)
    | _ => if indentless then some ([], s) else none

/-- The fields of a block mapping. -/
def blockFields : Nat → Composer → Option (List (Node × Node) × Composer)
  | 0, _ => none
  | n + 1, s =>
    match s.tokens with
    | .key :: _ => do
      let (key, s) ← nodeUnless n [.key, .value, .blockEnd] true true s.drop
      let (value, s) ←
        if s.nextIs .value then nodeUnless n [.key, .value, .blockEnd] true true s.drop
        else some (.empty, s)
      let (fields, s) ← blockFields n s
      return ((key, value) :: fields, s)
    | .blockEnd :: _ => some ([], s.drop)
    | _ => none

/-- The items of a flow sequence; an item may be a single field without brackets around it. -/
def flowItems : Nat → (first : Bool) → Composer → Option (List Node × Composer)
  | 0, _, _ => none
  | n + 1, first, s =>
    if s.nextIs .flowSequenceEnd then some ([], s.drop)
    else if !first && !s.nextIs .flowEntry then none
    else do
      let s := if first then s else s.drop
      match s.tokens with
      | .flowSequenceEnd :: _ => return ([], s.drop)
      | .key :: _ =>
        let s := s.drop
        let (key, s) ←
          if s.stopsAt [.value, .flowEntry, .flowSequenceEnd] then some (.empty, s.drop)
          else node n false false s
        let (value, s) ←
          if s.nextIs .value then nodeUnless n [.flowEntry, .flowSequenceEnd] false false s.drop
          else some (.empty, s)
        let (items, s) ← flowItems n false s
        return (.mapping [(key, value)] :: items, s)
      | _ =>
        let (item, s) ← node n false false s
        let (items, s) ← flowItems n false s
        return (item :: items, s)

/-- The fields of a flow mapping; a field may be a key alone. -/
def flowFields : Nat → (first : Bool) → Composer → Option (List (Node × Node) × Composer)
  | 0, _, _ => none
  | n + 1, first, s =>
    if s.nextIs .flowMappingEnd then some ([], s.drop)
    else if !first && !s.nextIs .flowEntry then none
    else do
      let s := if first then s else s.drop
      match s.tokens with
      | .flowMappingEnd :: _ => return ([], s.drop)
      | .key :: _ =>
        let (key, s) ← nodeUnless n [.value, .flowEntry, .flowMappingEnd] false false s.drop
        let (value, s) ←
          if s.nextIs .value then nodeUnless n [.flowEntry, .flowMappingEnd] false false s.drop
          else some (.empty, s)
        let (fields, s) ← flowFields n false s
        return ((key, value) :: fields, s)
      | _ =>
        let (key, s) ← node n false false s
        let (fields, s) ← flowFields n false s
        return ((key, .empty) :: fields, s)

end

/-- Takes the directives of a document: one version at most, and no handle twice. -/
def directives : List Token → (versioned : Bool) → List (String × String) →
    Option (List Token × List (String × String))
  | .version major minor :: rest, versioned, handles =>
    if versioned || major ≠ 1 || (minor ≠ 1 && minor ≠ 2) then none else directives rest true handles
  | .handle handle expansion :: rest, versioned, handles =>
    if (handles.lookup handle).isSome then none
    else directives rest versioned ((handle, expansion) :: handles)
  | tokens, _, handles => some (tokens, handles)

/-- Whether a document is announced, and not just begun. -/
def isAnnounced : List Token → Bool
  | .version .. :: _ | .handle .. :: _ | .documentStart :: _ => true
  | _ => false

/-- Composes the content of a document, which may be missing if the document was announced. -/
def root (fuel : Nat) (s : Composer) : Option (Node × Composer) :=
  if isAnnounced s.tokens then do
    let (tokens, handles) ← directives s.tokens false []
    if tokens.head? ≠ some .documentStart then none
    let s := { s with tokens := tokens.tail, handles := handles ++ s.handles }
    if isAnnounced s.tokens || s.stopsAt [.documentEnd] then some (.empty, s) else node fuel true false s
  else node fuel true false s

end Composer

/-- A document: its outermost node, and the nodes that aliases stand for. -/
structure Document where
  root : Node
  marked : List (Nat × Node)

namespace Document

/-- The only document of a text; a text without a document or with several has none. -/
def ofText? (text : String) : Option Document := do
  let tokens ← tokens? text
  if tokens.isEmpty then none
  let (root, s) ← (Composer.start tokens).root (4 * tokens.length + 4)
  if s.tokens.all (· == .documentEnd) then return ⟨root, s.marked⟩ else none

/-- The node that an alias stands for; any other node stands for itself. -/
def resolve (d : Document) : Node → Node
  | .alias number => (d.marked.lookup number).getD .empty
  | node => node

end Document

end ChordOverlay.Yaml
