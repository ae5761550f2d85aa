import Formula.Options.Document.Spot

namespace Formula

namespace Document

/-- Characters that begin no scalar without quotes. Three of them do if another one follows. -/
def indicators : List Char :=
  "-?:,[]\x7b\x7d#&*!|>\x27\x22%@\x60".toList

def startsPlain (inBrackets : Bool) : List Char → Bool
  | [] => false
  | c :: rest =>
    (!isGap c && !indicators.contains c) ||
      (!endsWord rest && (c == '-' || (!inBrackets && (c == '?' || c == ':'))))

/-- Whether a scalar without quotes ends in front of a character with some text behind it. -/
def endsPlain (inBrackets : Bool) (c : Char) (rest : List Char) : Bool :=
  c == '\t' || isBreak c ||
    (c == ':' && (endsWord rest || (inBrackets && rest.head?.any ",[]\x7b\x7d".toList.contains))) ||
    (inBrackets && ",?[]\x7b\x7d".toList.contains c)

/-- The part of a scalar without quotes that stands on one line, and the text behind it. `spaces`
counts those just read, which belong to the scalar if it goes on. A number sign behind a space
begins a comment. -/
def plainLine (inBrackets : Bool) (spaces : Nat) : List Char → List Char × List Char
  | [] => ([], [])
  | c :: rest =>
    if c == ' ' then plainLine inBrackets (spaces + 1) rest
    else if endsPlain inBrackets c rest || (c == '#' && 0 < spaces) then ([], c :: rest)
    else
      let (text, rest) := plainLine inBrackets 0 rest
      (List.replicate spaces ' ' ++ c :: text, rest)

/-- A scalar without quotes. It goes on over lines that begin at column `least` or further on; of
those in brackets the column does not matter. -/
def readPlain (inBrackets : Bool) (least : Nat) : Nat → Spot → List Char × Spot
  | 0, spot => ([], spot)
  | room + 1, spot =>
    let (text, rest) := plainLine inBrackets 0 spot.rest
    let behind := spot.leaving rest
    let (breaks, rest) := splitBreaks rest
    let next := behind.leaving rest
    if breaks.isEmpty || next.isEnd || next.rest.head? == some '#' ||
        (!inBrackets && next.column < least) then
      (text, behind)
    else
      let (more, stop) := readPlain inBrackets least room next
      if more.isEmpty then (text, behind) else (text ++ folded breaks ++ more, stop)

/-- A scalar. -/
def readScalar (inBrackets : Bool) (least : Nat) (spot : Spot) :
    Except DocumentFault (Node × Spot) :=
  match readQuoted? spot.rest with
  | some result => result.map fun (node, rest) => (node, spot.leaving rest)
  | none =>
    if startsPlain inBrackets spot.rest then
      let (text, stop) := readPlain inBrackets least (spot.rest.length + 1) spot
      .ok (.plain text, stop)
    else .error .malformed

/-- A scalar on one line, with the text behind it. -/
def readLineScalar? (text : List Char) : Option (Except DocumentFault (Node × List Char)) :=
  match readQuoted? text with
  | some result => some result
  | none =>
    if startsPlain false text then
      let (text, rest) := plainLine false 0 text
      some (.ok (.plain text, rest))
    else none

/-- A scalar that is the key of a mapping entry, if one stands at a spot, with the spot behind its
colon, which must be on the same line. -/
def readKey? (spot : Spot) : Except DocumentFault (Option (Node × Spot)) :=
  match readLineScalar? spot.rest with
  | none => .ok none
  | some result => result.map fun (key, rest) =>
    let colon := (spot.leaving rest).skip
    if colon.line == spot.line then colon.behindColon?.map (key, ·) else none

mutual

/-- A node inside brackets, or one in brackets. The readers call each other at most three times
before they take a character, so the length of the text bounds how deep their calls are. -/
def readBracketed : Nat → Spot → Except DocumentFault (Node × Spot)
  | 0, _ => .error .malformed
  | room + 1, spot =>
    match spot.rest with
    | '[' :: _ => do
      let (items, stop) ← readItems room (spot.forward 1).skip
      return (.list items, stop)
    | '\x7b' :: _ => do
      let (entries, stop) ← readEntries room (spot.forward 1).skip
      return (.mapping entries, stop)
    | _ => readScalar true 0 spot

/-- A node inside brackets, and the value behind it if it is a key. The colon of a key stands on the
line on which the key begins. -/
def readPair : Nat → Spot → Except DocumentFault (Node × Option Node × Spot)
  | 0, _ => .error .malformed
  | room + 1, spot => do
    let (key, stop) ← readBracketed room spot
    let behind := stop.skip
    match behind.rest with
    | ':' :: _ =>
      if behind.line != spot.line then throw .malformed
      let next := (behind.forward 1).skip
      if next.rest.head?.any [',', ']', '\x7d'].contains then return (key, some .nothing, next)
      else
        let (value, stop) ← readBracketed room next
        return (key, some value, stop.skip)
    | _ => return (key, none, behind)

/-- The items of a list up to its bracket. A key with a value is a mapping of its own. -/
def readItems : Nat → Spot → Except DocumentFault (List Node × Spot)
  | 0, _ => .error .malformed
  | room + 1, spot =>
    match spot.rest with
    | ']' :: _ => .ok ([], spot.forward 1)
    | _ => do
      let (key, value, stop) ← readPair room spot
      let item := match value with
        | some value => .mapping [(key, value)]
        | none => key
      match stop.rest with
      | ',' :: _ =>
        let (items, stop) ← readItems room (stop.forward 1).skip
        return (item :: items, stop)
      | ']' :: _ => return ([item], stop.forward 1)
      | _ => .error .malformed

/-- The entries of a mapping up to its bracket. A key may stand without a value. -/
def readEntries : Nat → Spot → Except DocumentFault (List (Node × Node) × Spot)
  | 0, _ => .error .malformed
  | room + 1, spot =>
    match spot.rest with
    | '\x7d' :: _ => .ok ([], spot.forward 1)
    | _ => do
      let (key, value, stop) ← readPair room spot
      let entry := (key, value.getD .nothing)
      match stop.rest with
      | ',' :: _ =>
        let (entries, stop) ← readEntries room (stop.forward 1).skip
        return (entry :: entries, stop)
      | '\x7d' :: _ => return ([entry], stop.forward 1)
      | _ => .error .malformed

end

/-- Whether a collection goes on at a spot: it ends at the end of the document and at columns before
its own. -/
def goesOn (column : Nat) (spot : Spot) : Except DocumentFault Bool :=
  if spot.isEnd || spot.column < column then .ok false
  else if spot.column == column then .ok true
  else .error .malformed

mutual

/-- A node at a spot that is not blank. It begins at column `least` or further on; a list with
dashes begins at column `leastDash` or further on. Otherwise nothing stands there. `fresh` tells
whether a collection may begin at the spot: not behind a key on its line. -/
def readNode (least leastDash : Nat) (fresh : Bool) :
    Nat → Spot → Except DocumentFault (Node × Spot)
  | 0, _ => .error .malformed
  | room + 1, spot =>
    if spot.isEnd then .ok (.nothing, spot)
    else if spot.isDash then
      if spot.column < leastDash then .ok (.nothing, spot)
      else if fresh then do
        let (items, stop) ← readDashes spot.column room spot
        return (.list items, stop)
      else .error .malformed
    else if spot.column < least then .ok (.nothing, spot)
    else do
      match ← readKey? spot with
      | some _ =>
        if fresh then
          let (entries, stop) ← readLines spot.column room spot
          return (.mapping entries, stop)
        else .error .malformed
      | none =>
        match spot.rest with
        | '[' :: _ | '\x7b' :: _ => readBracketed (4 * spot.rest.length + 4) spot
        | _ => readScalar false least spot

/-- The items of a list with dashes at some column. -/
def readDashes (column : Nat) : Nat → Spot → Except DocumentFault (List Node × Spot)
  | 0, _ => .error .malformed
  | room + 1, spot => do
    let (item, stop) ← readNode (column + 1) (column + 1) true room (spot.forward 1).skip
    let next := stop.skip
    if (← goesOn column next) && next.isDash then
      let (items, stop) ← readDashes column room next
      return (item :: items, stop)
    else return ([item], next)

/-- The entries of a mapping with keys at some column. -/
def readLines (column : Nat) : Nat → Spot → Except DocumentFault (List (Node × Node) × Spot)
  | 0, _ => .error .malformed
  | room + 1, spot => do
    match ← readKey? spot with
    | none => .error .malformed
    | some (key, behind) =>
      let start := behind.skip
      let (value, stop) ← readNode (column + 1) column (start.line != spot.line) room start
      let next := stop.skip
      if ← goesOn column next then
        let (entries, stop) ← readLines column room next
        return ((key, value) :: entries, stop)
      else return ([(key, value)], next)

end

/-- A text in which each line ends in a line feed, however it was written. -/
def plainBreaks : List Char → List Char
  | [] => []
  | '\r' :: '\n' :: rest => '\n' :: plainBreaks rest
  | '\r' :: rest => '\n' :: plainBreaks rest
  | c :: rest => c :: plainBreaks rest

/-- The text behind a mark of its byte order. -/
def withoutByteMark : List Char → List Char
  | '\ufeff' :: rest => rest
  | text => text

/-- The spot behind the marks that end a document. -/
def behindEnds : Nat → Spot → Spot
  | 0, spot => spot
  | room + 1, spot =>
    if spot.isMarker '.' then behindEnds room (spot.forward 3).skip else spot

/-- Reads the text of a file, which holds one document. -/
def read (text : String) : Except DocumentFault Datum := do
  let spot := (Spot.start (withoutByteMark (plainBreaks text.toList))).skip
  let room := 4 * spot.rest.length + 4
  let first := if spot.isMarker '-' then (spot.forward 3).skip else spot
  let fresh := !spot.isMarker '-' || first.line != spot.line
  if spot.isMarker '.' then throw .malformed
  let (node, stop) ← readNode 0 0 fresh room first
  if !Room.standard.holds (price.loading * node.levels) then throw .tooDeep
  if (behindEnds room stop.skip).rest.isEmpty then node.datum else .error .malformed

end Document

end Formula
