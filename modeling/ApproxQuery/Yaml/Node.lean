import ApproxQuery.Yaml.Token

/-! The tree of a document. Nodes may carry an anchor, and an alias stands for an anchored node. -/
namespace ApproxQuery.Yaml

/-- A node, with anchors of some type. -/
inductive Node (α : Type) where
  | aliasOf (target : α)
  | scalar (anchor : Option α) (tag : Option Tag) (text : String) (style : ScalarStyle)
  | list (anchor : Option α) (tag : Option Tag) (items : List (Node α))
  | mapping (anchor : Option α) (tag : Option Tag) (pairs : List (Node α × Node α))
deriving Inhabited

/-- What comes before the content of a node. -/
structure Properties where
  anchor : Option String := none
  tag : Option Tag := none

/-- A missing node is an empty plain scalar. -/
def Properties.empty (p : Properties) : Node String := .scalar p.anchor p.tag "" .plain

def absent : Node String := Properties.empty {}

/-- Expansions of tag handles. -/
abbrev Handles := List (String × Tag)

def defaultHandles : Handles := [("!", .ofString "!"), ("!!", .ofString "tag:yaml.org,2002:")]

def Handles.resolve (handles : Handles) (handle : String) (suffix : Tag) : Except Fault Tag :=
  if handle.isEmpty then .ok suffix
  else match handles.lookup handle with
    | some expansion => .ok ⟨expansion.bytes ++ suffix.bytes⟩
    | none => .error (.unknownHandle handle)

/-- What is read at the start of the tokens, with the tokens after it. -/
abbrev Taken (α : Type) := α × List Token

/-- An anchor and a tag, in either order, either of them missing. -/
def takeProperties (handles : Handles) : List Token → Except Fault (Taken Properties)
  | .anchor a :: .tag h s :: rest => do return (⟨some a, some (← handles.resolve h s)⟩, rest)
  | .tag h s :: .anchor a :: rest => do return (⟨some a, some (← handles.resolve h s)⟩, rest)
  | .anchor a :: rest => .ok (⟨some a, none⟩, rest)
  | .tag h s :: rest => do return (⟨none, some (← handles.resolve h s)⟩, rest)
  | rest => .ok ({}, rest)

/-- Where a node stands. -/
structure Place where
  /-- Blocks may begin here. -/
  block : Bool
  /-- The entries of a list may stand here without further indentation. -/
  entries : Bool

def Place.inFlow : Place := ⟨false, false⟩

def Place.inList : Place := ⟨true, false⟩

def Place.inMapping : Place := ⟨true, true⟩

/-- A place in a block list is empty when the next entry or the end follows. -/
def endsBlockItem : List Token → Bool
  | .blockEntry :: _ => true
  | .blockEnd :: _ => true
  | _ => false

/-- A place in a block mapping is empty when a key, a value or the end follows. -/
def endsBlockPart : List Token → Bool
  | .key :: _ => true
  | .value :: _ => true
  | .blockEnd :: _ => true
  | _ => false

/-- A place inside brackets is empty when a comma or the closing one follows. -/
def endsFlowPart (close : Token) : List Token → Bool
  | t :: _ => t = .flowEntry || t = close
  | [] => false

mutual

/-- A node with its properties. The count bounds the work by the number of tokens. -/
def parseNode (handles : Handles) : Nat → Place → List Token → Except Fault (Taken (Node String))
  | 0, _, _ => .error .unexpectedToken
  | fuel + 1, place, tokens => do
    match tokens with
    | .aliasOf name :: rest => return (.aliasOf name, rest)
    | tokens => do
      let (p, tokens) ← takeProperties handles tokens
      match tokens with
      | .blockEntry :: rest =>
        if place.entries then do
          let (items, rest) ← parseEntries handles fuel (.blockEntry :: rest)
          return (.list p.anchor p.tag items, rest)
        else missing p (.blockEntry :: rest)
      | .scalar text style :: rest => return (.scalar p.anchor p.tag text style, rest)
      | .flowListStart :: rest => do
        let (items, rest) ← parseFlowItems handles fuel true rest
        return (.list p.anchor p.tag items, rest)
      | .flowMappingStart :: rest => do
        let (pairs, rest) ← parseFlowPairs handles fuel true rest
        return (.mapping p.anchor p.tag pairs, rest)
      | .blockListStart :: rest =>
        if place.block then do
          let (items, rest) ← parseBlockItems handles fuel rest
          return (.list p.anchor p.tag items, rest)
        else missing p (.blockListStart :: rest)
      | .blockMappingStart :: rest =>
        if place.block then do
          let (pairs, rest) ← parseBlockPairs handles fuel rest
          return (.mapping p.anchor p.tag pairs, rest)
        else missing p (.blockMappingStart :: rest)
      | tokens => missing p tokens
where
  /-- Content may be missing after properties only. -/
  missing (p : Properties) (tokens : List Token) : Except Fault (Taken (Node String)) :=
    if p.anchor.isSome || p.tag.isSome then .ok (p.empty, tokens) else .error .unexpectedToken

/-- The items of a block list, up to its end. -/
def parseBlockItems (handles : Handles) :
    Nat → List Token → Except Fault (Taken (List (Node String)))
  | 0, _ => .error .unexpectedToken
  | fuel + 1, tokens => do
    match tokens with
    | .blockEntry :: rest => do
      let (item, rest) ← if endsBlockItem rest then pure (absent, rest)
        else parseNode handles fuel .inList rest
      let (items, rest) ← parseBlockItems handles fuel rest
      return (item :: items, rest)
    | .blockEnd :: rest => return ([], rest)
    | _ => throw Fault.unexpectedToken

/-- The entries of a list that is not indented further than its key. -/
def parseEntries (handles : Handles) : Nat → List Token → Except Fault (Taken (List (Node String)))
  | 0, _ => .error .unexpectedToken
  | fuel + 1, tokens => do
    match tokens with
    | .blockEntry :: rest => do
      let (item, rest) ← if endsBlockItem rest || endsBlockPart rest then pure (absent, rest)
        else parseNode handles fuel .inList rest
      let (items, rest) ← parseEntries handles fuel rest
      return (item :: items, rest)
    | rest => return ([], rest)

/-- The pairs of a block mapping, up to its end. Either part of a pair may be missing. -/
def parseBlockPairs (handles : Handles) :
    Nat → List Token → Except Fault (Taken (List (Node String × Node String)))
  | 0, _ => .error .unexpectedToken
  | fuel + 1, tokens => do
    match tokens with
    | .blockEnd :: rest => return ([], rest)
    | .key :: rest => do
      let (key, rest) ← if endsBlockPart rest then pure (absent, rest)
        else parseNode handles fuel .inMapping rest
      let (value, rest) ← parseBlockValue handles fuel rest
      let (pairs, rest) ← parseBlockPairs handles fuel rest
      return ((key, value) :: pairs, rest)
    | _ => throw Fault.unexpectedToken

/-- The value of a pair in a block mapping, if there is one. -/
def parseBlockValue (handles : Handles) : Nat → List Token → Except Fault (Taken (Node String))
  | 0, _ => .error .unexpectedToken
  | fuel + 1, tokens => do
    match tokens with
    | .value :: rest =>
      if endsBlockPart rest then return (absent, rest) else parseNode handles fuel .inMapping rest
    | rest => return (absent, rest)

/-- The items of a list in brackets. A pair may stand there as a mapping of its own. -/
def parseFlowItems (handles : Handles) :
    Nat → Bool → List Token → Except Fault (Taken (List (Node String)))
  | 0, _, _ => .error .unexpectedToken
  | fuel + 1, first, tokens => do
    match tokens with
    | .flowListEnd :: rest => return ([], rest)
    | tokens => do
      let tokens ← if first then pure tokens else match tokens with
        | .flowEntry :: rest => pure rest
        | _ => throw Fault.unexpectedToken
      match tokens with
      | .flowListEnd :: rest => return ([], rest)
      | .key :: rest => do
        let (pair, rest) ← parseFlowPair handles fuel rest
        let (items, rest) ← parseFlowItems handles fuel false rest
        return (.mapping none none [pair] :: items, rest)
      | tokens => do
        let (item, rest) ← parseNode handles fuel .inFlow tokens
        let (items, rest) ← parseFlowItems handles fuel false rest
        return (item :: items, rest)

/-- A pair inside a list in brackets, after its key indicator. In place of a missing key one token
is passed over. -/
def parseFlowPair (handles : Handles) :
    Nat → List Token → Except Fault (Taken (Node String × Node String))
  | 0, _ => .error .unexpectedToken
  | fuel + 1, tokens => do
    let (key, rest) ←
      if tokens.head? = some .value || endsFlowPart .flowListEnd tokens then
        pure (absent, tokens.drop 1)
      else parseNode handles fuel .inFlow tokens
    let (value, rest) ← parseFlowValue handles fuel .flowListEnd rest
    return ((key, value), rest)

/-- The pairs of a mapping in braces. An entry without a colon is a key without a value. -/
def parseFlowPairs (handles : Handles) :
    Nat → Bool → List Token → Except Fault (Taken (List (Node String × Node String)))
  | 0, _, _ => .error .unexpectedToken
  | fuel + 1, first, tokens => do
    match tokens with
    | .flowMappingEnd :: rest => return ([], rest)
    | tokens => do
      let tokens ← if first then pure tokens else match tokens with
        | .flowEntry :: rest => pure rest
        | _ => throw Fault.unexpectedToken
      match tokens with
      | .flowMappingEnd :: rest => return ([], rest)
      | .key :: rest => do
        let (key, rest) ←
          if rest.head? = some .value || endsFlowPart .flowMappingEnd rest then pure (absent, rest)
          else parseNode handles fuel .inFlow rest
        let (value, rest) ← parseFlowValue handles fuel .flowMappingEnd rest
        let (pairs, rest) ← parseFlowPairs handles fuel false rest
        return ((key, value) :: pairs, rest)
      | tokens => do
        let (key, rest) ← parseNode handles fuel .inFlow tokens
        let (pairs, rest) ← parseFlowPairs handles fuel false rest
        return ((key, absent) :: pairs, rest)

/-- The value of a pair inside brackets that end with the given token, if there is one. -/
def parseFlowValue (handles : Handles) :
    Nat → Token → List Token → Except Fault (Taken (Node String))
  | 0, _, _ => .error .unexpectedToken
  | fuel + 1, close, tokens => do
    match tokens with
    | .value :: rest =>
      if endsFlowPart close rest then return (absent, rest) else parseNode handles fuel .inFlow rest
    | rest => return (absent, rest)

end

/-- Directives in front of a document; no handle is expanded twice. -/
def takeDirectives (versioned : Bool) (handles : Handles) :
    List Token → Except Fault (Taken Handles)
  | .version major minor :: rest =>
    if versioned || major ≠ 1 || (minor ≠ 1 && minor ≠ 2) then .error .badDirective
    else takeDirectives true handles rest
  | .handle handle expansion :: rest =>
    if (handles.lookup handle).isSome then .error .badDirective
    else takeDirectives versioned (handles ++ [(handle, expansion)]) rest
  | rest => .ok (handles, rest)

/-- A document opens with directives or a mark, or the text is empty. -/
def opensExplicitly : List Token → Bool
  | .version _ _ :: _ => true
  | .handle _ _ :: _ => true
  | .documentStart :: _ => true
  | .streamEnd :: _ => true
  | _ => false

/-- The root of a document, and the tokens after it. -/
def parseRoot (tokens : List Token) : Except Fault (Taken (Node String)) := do
  if !opensExplicitly tokens then
    parseNode defaultHandles (4 * tokens.length + 4) .inList tokens
  else if tokens.head? = some .streamEnd then throw Fault.noDocument
  else
    let (handles, rest) ← takeDirectives false [] tokens
    match rest with
    | .documentStart :: rest =>
      if opensExplicitly rest || rest.head? = some .documentEnd then return (absent, rest)
      else parseNode (handles ++ defaultHandles) (4 * rest.length + 4) .inList rest
    | _ => throw Fault.unexpectedToken

/-- The root of the only document. -/
def Node.ofTokens (tokens : List Token) : Except Fault (Node String) := do
  let (root, rest) ← parseRoot tokens
  match rest.dropWhile fun t => t = .documentEnd with
  | [.streamEnd] => return root
  | _ => throw .severalDocuments

end ApproxQuery.Yaml
