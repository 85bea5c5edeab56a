import PinRing.Document.Order
import PinRing.Document.Scalar
import PinRing.Document.Token

/-! The tree of a document, built from its tokens, and the value that the tree stands for. -/

namespace PinRing.Document

inductive Node where
  | scalar (text : String) (plain : Bool)
  | sequence (items : List Node)
  | mapping (entries : List (Node × Node))

namespace Node

/-- A missing node, which stands for null. -/
def absent : Node := .scalar "" true

/-- Why no node begins with a list of tokens. -/
def refusal : List Token → DocumentFault
  | .broken f :: _ => f
  | _ => .malformed .grammar

/-- The tokens at which a block entry is left empty. -/
def endsEntry (inMapping : Bool) : List Token → Bool
  | .blockEnd :: _ => true
  | .key :: _ => inMapping
  | .value :: _ => inMapping
  | .blockEntry :: _ => !inMapping
  | _ => false

/-- The tokens at which a bare list inside a mapping has an empty item. -/
def endsBareItem : List Token → Bool
  | .blockEntry :: _ => true
  | .key :: _ => true
  | .value :: _ => true
  | .blockEnd :: _ => true
  | _ => false

/-- The tokens at which a flow entry is left empty. -/
def endsFlow (close : Token) : List Token → Bool
  | .flowEntry :: _ => true
  | t :: _ => t == close
  | [] => false

mutual

/-- A node off the front of a list of tokens, with the tokens after it.  Block collections are read
where `block` is set, and a bare list, which stands at the column of its key, where `bare` is
set. -/
def parse (block bare : Bool) :
    (fuel : Nat) → List Token → Except DocumentFault (Node × List Token)
  | 0, ts => .error (refusal ts)
  | fuel + 1, ts =>
    match ts with
    | .scalar text plain :: rest => .ok (.scalar text plain, rest)
    | .flowSequence :: rest => do
      let (items, rest) ← flowItems true fuel rest
      return (.sequence items, rest)
    | .flowMapping :: rest => do
      let (entries, rest) ← flowEntries true fuel rest
      return (.mapping entries, rest)
    | .blockEntry :: _ =>
      if bare then do
        let (items, rest) ← bareItems fuel ts
        return (.sequence items, rest)
      else .error (refusal ts)
    | .blockSequence :: rest =>
      if block then do
        let (items, rest) ← blockItems fuel rest
        return (.sequence items, rest)
      else .error (refusal ts)
    | .blockMapping :: rest =>
      if block then do
        let (entries, rest) ← blockEntries fuel rest
        return (.mapping entries, rest)
      else .error (refusal ts)
    | _ => .error (refusal ts)

def blockItems :
    (fuel : Nat) → List Token → Except DocumentFault (List Node × List Token)
  | 0, ts => .error (refusal ts)
  | fuel + 1, ts =>
    match ts with
    | .blockEntry :: rest => do
      let (item, rest) ←
        if endsEntry false rest then .ok (absent, rest) else parse true false fuel rest
      let (items, rest) ← blockItems fuel rest
      return (item :: items, rest)
    | .blockEnd :: rest => .ok ([], rest)
    | _ => .error (refusal ts)

/-- The items of a list at the column of its key. -/
def bareItems :
    (fuel : Nat) → List Token → Except DocumentFault (List Node × List Token)
  | 0, ts => .error (refusal ts)
  | fuel + 1, ts =>
    match ts with
    | .blockEntry :: rest => do
      let (item, rest) ←
        if endsBareItem rest then .ok (absent, rest) else parse true false fuel rest
      let (items, rest) ← bareItems fuel rest
      return (item :: items, rest)
    | _ => .ok ([], ts)

/-- The value of a block entry; without a value token it is missing. -/
def blockValue :
    (fuel : Nat) → List Token → Except DocumentFault (Node × List Token)
  | 0, ts => .error (refusal ts)
  | fuel + 1, ts =>
    match ts with
    | .value :: rest =>
      if endsEntry true rest then .ok (absent, rest) else parse true true fuel rest
    | _ => .ok (absent, ts)

def blockEntries :
    (fuel : Nat) → List Token → Except DocumentFault (List (Node × Node) × List Token)
  | 0, ts => .error (refusal ts)
  | fuel + 1, ts =>
    match ts with
    | .key :: rest => do
      let (key, rest) ←
        if endsEntry true rest then .ok (absent, rest) else parse true true fuel rest
      let (value, rest) ← blockValue fuel rest
      let (entries, rest) ← blockEntries fuel rest
      return ((key, value) :: entries, rest)
    | .blockEnd :: rest => .ok ([], rest)
    | _ => .error (refusal ts)

/-- The key and value of a flow entry that begins with a key token, which is passed over. -/
def flowPair (close : Token) :
    (fuel : Nat) → List Token → Except DocumentFault ((Node × Node) × List Token)
  | 0, ts => .error (refusal ts)
  | fuel + 1, ts => do
    let emptyKey := endsFlow close ts || ts.head? == some .value
    let (key, rest) ← if emptyKey then .ok (absent, ts) else parse false false fuel ts
    let (value, rest) ← flowValue close fuel rest
    return ((key, value), rest)

/-- The value of a flow entry; without a value token it is missing. -/
def flowValue (close : Token) :
    (fuel : Nat) → List Token → Except DocumentFault (Node × List Token)
  | 0, ts => .error (refusal ts)
  | fuel + 1, ts =>
    match ts with
    | .value :: rest =>
      if endsFlow close rest then .ok (absent, rest) else parse false false fuel rest
    | _ => .ok (absent, ts)

/-- The items of a list in brackets.  A key inside makes a mapping of one entry. -/
def flowItems (first : Bool) :
    (fuel : Nat) → List Token → Except DocumentFault (List Node × List Token)
  | 0, ts => .error (refusal ts)
  | fuel + 1, ts =>
    match ts with
    | .flowSequenceEnd :: rest => .ok ([], rest)
    | _ => do
      let ts ←
        if first then .ok ts
        else
          match ts with
          | .flowEntry :: rest => .ok rest
          | _ => .error (refusal ts)
      match ts with
      | .flowSequenceEnd :: rest => return ([], rest)
      | .key :: rest =>
        let (entry, rest) ← flowPair .flowSequenceEnd fuel rest
        let (items, rest) ← flowItems false fuel rest
        return (.mapping [entry] :: items, rest)
      | _ =>
        let (item, rest) ← parse false false fuel ts
        let (items, rest) ← flowItems false fuel rest
        return (item :: items, rest)

/-- The entries of a mapping in braces. -/
def flowEntries (first : Bool) :
    (fuel : Nat) → List Token → Except DocumentFault (List (Node × Node) × List Token)
  | 0, ts => .error (refusal ts)
  | fuel + 1, ts =>
    match ts with
    | .flowMappingEnd :: rest => .ok ([], rest)
    | _ => do
      let ts ←
        if first then .ok ts
        else
          match ts with
          | .flowEntry :: rest => .ok rest
          | _ => .error (refusal ts)
      match ts with
      | .flowMappingEnd :: rest => return ([], rest)
      | .key :: rest =>
        let (entry, rest) ← flowPair .flowMappingEnd fuel rest
        let (entries, rest) ← flowEntries false fuel rest
        return (entry :: entries, rest)
      | _ =>
        let (key, rest) ← parse false false fuel ts
        let (entries, rest) ← flowEntries false fuel rest
        return ((key, absent) :: entries, rest)

end

/-- The root of a document: nothing at its end or at a marker stands for a missing node. -/
def parseRoot (fuel : Nat) (ts : List Token) (marked : Bool) :
    Except DocumentFault (Node × List Token) :=
  match ts with
  | [] => .ok (absent, [])
  | .documentStart :: _ => if marked then .ok (absent, ts) else .error (refusal ts)
  | .documentEnd :: _ => if marked then .ok (absent, ts) else .error (refusal ts)
  | _ => parse true false fuel ts

/-- The tree of a list of tokens that make up at most one document. -/
def ofTokens (ts : List Token) : Except DocumentFault Node := do
  let fuel := 2 * ts.length + 4
  let (root, rest) ←
    match ts with
    | .documentStart :: rest => parseRoot fuel rest true
    | _ => parseRoot fuel ts false
  match rest.dropWhile (· == .documentEnd) with
  | [] => return root
  | .documentStart :: _ => throw (.malformed .documents)
  | rest => throw (refusal rest)

end Node

/-- Writes one entry of a mapping.  A key that is present keeps its position. -/
def setEntry (key value : Value) : List (Value × Value) → List (Value × Value)
  | [] => [(key, value)]
  | (k, v) :: rest =>
    if k.same key then (k, value) :: rest else (k, v) :: setEntry key value rest

/-- A mapping of some entries, of which a later one takes the place of an earlier one of its key. -/
def makeMapping (entries : List (Value × Value)) : Value :=
  .mapping (entries.foldl (fun made (k, v) => setEntry k v made) [])

/-- What a part of a tree stands for.  The parts of a collection are read after everything beside
the collection, so faults are kept by depth: the first entry is the first fault of the part itself,
the next one that of its parts, and so on. -/
structure Built (α : Type) where
  content : α
  faults : List (Option DocumentFault) := []

namespace Built

variable {α β γ : Type}

/-- A fault in place of a value, for which `content` stands in. -/
def fail (content : α) (f : DocumentFault) : Built α := { content, faults := [some f] }

/-- A value, or null with the fault that prevents it. -/
def ofExcept : Except DocumentFault Value → Built Value
  | .ok v => { content := v }
  | .error f => fail .null f

/-- The first faults of two neighbours, depth by depth. -/
def alongside : List (Option DocumentFault) → List (Option DocumentFault) →
    List (Option DocumentFault)
  | [], gs => gs
  | fs, [] => fs
  | f :: fs, g :: gs => f.or g :: alongside fs gs

/-- Two neighbours in order. -/
def both (g : α → β → γ) (a : Built α) (b : Built β) : Built γ :=
  { content := g a.content b.content, faults := alongside a.faults b.faults }

/-- A collection of parts. -/
def enclose (g : α → Value) (a : Built α) : Built Value :=
  { content := g a.content, faults := none :: a.faults }

/-- The value, unless there is a fault; the shallowest one counts. -/
def toExcept (a : Built α) : Except DocumentFault α :=
  match a.faults.findSome? id with
  | some f => .error f
  | none => .ok a.content

end Built

/-- The entries of a mapping, those that are merged into it apart. -/
structure Entries where
  merged : Built (List (Value × Value)) := { content := [] }
  own : Built (List (Value × Value)) := { content := [] }
  /-- Everything to be merged is a mapping. -/
  sound : Bool := true

namespace Entries

/-- All entries, unless something to be merged is no mapping.  The merged ones come first and give
way. -/
def all? (e : Entries) : Option (Built (List (Value × Value))) :=
  if e.sound then some (.both (· ++ ·) e.merged e.own) else none

/-- Puts merged entries in front, if there are any to be had. -/
def merge (e : Entries) (other? : Option (Built (List (Value × Value)))) : Entries :=
  match other? with
  | some other => { e with merged := .both (· ++ ·) other e.merged }
  | none => { e with sound := false }

/-- Puts an entry in front of the own ones. -/
def add (e : Entries) (key value : Built Value) : Entries :=
  { e with own := .both List.cons (.both Prod.mk key value) e.own }

def toMapping (e : Entries) : Built Value :=
  match e.all? with
  | some entries => entries.enclose makeMapping
  | none => { content := .null, faults := [none, some (.malformed .values)] }

end Entries

def scalarValue (text : String) (plain : Bool) : Built Value :=
  if !plain then { content := .text text }
  else if text = Scalar.mergeKey ∨ text = Scalar.valueKey then .fail .null (.malformed .values)
  else .ofExcept (Scalar.resolve text)

/-- The key under which other mappings are merged. -/
def Node.isMergeKey : Node → Bool
  | .scalar text plain => plain && text == Scalar.mergeKey
  | _ => false

/-- The value of a key.  A collection is none, whatever it holds. -/
def Node.keyValue : Node → Built Value
  | .scalar text plain =>
    if text = Scalar.valueKey then { content := .text text } else scalarValue text plain
  | _ => .fail .null (.malformed .values)

mutual

def Node.value : Node → Built Value
  | .scalar text plain => scalarValue text plain
  | .sequence items => (Node.values items).enclose .list
  | .mapping entries => (Node.entries entries).toMapping

def Node.values : List Node → Built (List Value)
  | [] => { content := [] }
  | n :: rest => .both List.cons n.value (Node.values rest)

def Node.entries : List (Node × Node) → Entries
  | [] => {}
  | (k, n) :: rest =>
    if k.isMergeKey then (Node.entries rest).merge n.mergedEntries
    else (Node.entries rest).add k.keyValue n.value

/-- The entries that a node contributes where it is merged: its own, or those of the mappings in
it. -/
def Node.mergedEntries : Node → Option (Built (List (Value × Value)))
  | .scalar _ _ => none
  | .sequence items => Node.mergedItems items
  | .mapping entries => (Node.entries entries).all?

/-- The entries of several mappings, the last mapping first. -/
def Node.mergedItems : List Node → Option (Built (List (Value × Value)))
  | [] => some { content := [] }
  | .mapping entries :: rest => do
    let later ← Node.mergedItems rest
    let first ← (Node.entries entries).all?
    return .both (· ++ ·) later first
  | _ => none

end

/-- The value of a document text. -/
def read (text : String) : Except DocumentFault Value := do
  let root ← Node.ofTokens (tokens text)
  root.value.toExcept

end PinRing.Document
