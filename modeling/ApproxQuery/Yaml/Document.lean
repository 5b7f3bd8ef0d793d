import ApproxQuery.Yaml.Node

/-! Documents as data. An alias is replaced by the node it stands for. -/
namespace ApproxQuery.Yaml

/-- Anchors by name, each with the number under which nodes are looked up. -/
abbrev Anchors := List (String × Nat)

/-- Gives a named anchor its number: how many different names came before. A name that comes again
gets a new number, which it may share with the next new name. -/
def Anchors.add (anchors : Anchors) (name : String) : Anchors :=
  (name, anchors.length) :: anchors.filter fun entry => entry.1 ≠ name

abbrev Linking := StateT Anchors (Except Fault)

def numberAnchor : Option String → Linking (Option Nat)
  | none => return none
  | some name => do
    let anchors ← get
    set (anchors.add name)
    return some anchors.length

mutual

/-- Puts numbers in place of names. An alias has the number its name had last. -/
def Node.link : Node String → Linking (Node Nat)
  | .aliasOf name => do
    match (← get).lookup name with
    | some number => return .aliasOf number
    | none => throw (.unknownAlias name)
  | .scalar anchor tag text style => do return .scalar (← numberAnchor anchor) tag text style
  | .list anchor tag items => do
    let anchor ← numberAnchor anchor
    return .list anchor tag (← linkItems items)
  | .mapping anchor tag pairs => do
    let anchor ← numberAnchor anchor
    return .mapping anchor tag (← linkPairs pairs)

def linkItems : List (Node String) → Linking (List (Node Nat))
  | [] => return []
  | n :: rest => do return (← n.link) :: (← linkItems rest)

def linkPairs : List (Node String × Node String) → Linking (List (Node Nat × Node Nat))
  | [] => return []
  | (key, value) :: rest => do return (← key.link, ← value.link) :: (← linkPairs rest)

end

def labelled (anchor : Option Nat) (n : Node Nat) : List (Nat × Node Nat) :=
  (anchor.map fun number => (number, n)).toList

mutual

/-- The anchored nodes in the order in which they begin. -/
def Node.anchored : Node Nat → List (Nat × Node Nat)
  | .aliasOf _ => []
  | .scalar anchor tag text style => labelled anchor (.scalar anchor tag text style)
  | .list anchor tag items => labelled anchor (.list anchor tag items) ++ anchoredItems items
  | .mapping anchor tag pairs => labelled anchor (.mapping anchor tag pairs) ++ anchoredPairs pairs

def anchoredItems : List (Node Nat) → List (Nat × Node Nat)
  | [] => []
  | n :: rest => n.anchored ++ anchoredItems rest

def anchoredPairs : List (Node Nat × Node Nat) → List (Nat × Node Nat)
  | [] => []
  | (key, value) :: rest => key.anchored ++ value.anchored ++ anchoredPairs rest

end

mutual

/-- How many beginnings and ends of nodes there are. -/
def Node.weight : Node Nat → Nat
  | .aliasOf _ => 1
  | .scalar _ _ _ _ => 1
  | .list _ _ items => weightOfItems items + 2
  | .mapping _ _ pairs => weightOfPairs pairs + 2

def weightOfItems : List (Node Nat) → Nat
  | [] => 0
  | n :: rest => n.weight + weightOfItems rest

def weightOfPairs : List (Node Nat × Node Nat) → Nat
  | [] => 0
  | (key, value) :: rest => key.weight + value.weight + weightOfPairs rest

end

/-- Counts down the aliases that may still be replaced. -/
abbrev Expanding := StateM Nat

/-- The node that an alias stands for; any other node stands for itself. -/
def resolve (known : List (Nat × Node Nat)) : Node Nat → Expanding (Option (Node Nat))
  | .aliasOf number => do
    let left ← get
    if left = 0 then return none
    set (left - 1)
    return known.lookup number
  | n => return some n

/-- The text of a key. Collections are no keys. -/
def keyText (known : List (Nat × Node Nat)) (n : Node Nat) : Expanding (Option String) := do
  match ← resolve known n with
  | some (.scalar _ _ text _) => return some text
  | _ => return none

/-- A collection with an application tag is marked as such. -/
def tagged (tag : Option Tag) (d : Data) : Data :=
  if tag.any Tag.isApplication then .tagged d else d

/-- The data of a node, with at most so many collections inside each other. What cannot be
expanded is unusable, and so is what stands under a key that is not wanted. -/
def expand (known : List (Nat × Node Nat)) (wanted : String → Bool) :
    Nat → Node Nat → Expanding Data
  | depth, n => do
    match ← resolve known n with
    | some (.scalar _ tag text style) => return .scalar text style tag
    | some (.list _ tag items) =>
      match depth with
      | 0 => return .unusable
      | depth + 1 => do return tagged tag (.list (← items.mapM (expand known wanted depth)))
    | some (.mapping _ tag pairs) =>
      match depth with
      | 0 => return .unusable
      | depth + 1 => do
        let fields ← pairs.mapM fun (key, value) => do
          match ← keyText known key with
          | some key =>
            if wanted key then return some (key, ← expand known wanted depth value)
            else return some (key, .unusable)
          | none => return none
        return match fields.mapM id with
          | some fields => tagged tag (.record fields)
          | none => .unusable
    | _ => return .unusable

/-- Collections nest at most this deep. -/
def depthLimit : Nat := 128

/-- How many aliases are replaced for each beginning or end of a node. -/
def aliasesPerWeight : Nat := 100

/-- The data of a document, as far as it stands under wanted keys. -/
def Node.toData (n : Node Nat) (wanted : String → Bool) : Data :=
  (expand n.anchored.reverse wanted depthLimit n (n.weight * aliasesPerWeight)).1

/-- The only document of a text. -/
def parse (wanted : String → Bool) (text : String) : Except Fault Data := do
  let (root, _) ← (← Node.ofTokens (← Token.ofText text)).link []
  return root.toData wanted

end ApproxQuery.Yaml
