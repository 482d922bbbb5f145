import ScanTriage.Json.Reader

/-!
# Well-formed JSON

`Json.isValid` decides whether a text is one JSON value, byte by byte: the
state is what may come next and the containers that are still open. Strings
may hold any byte from the space upwards, and values may nest without bound.
Since the state after `a ++ b` is the state after `b` from the state after
`a`, the effect of exchanging a part of a text can be computed from the part.
-/

namespace ScanTriage

namespace Json

inductive Container where
  | array
  | object
  deriving DecidableEq

inductive NumberPart where
  | minus
  | zero
  | whole
  | point
  | fraction
  | mark
  | markSign
  | exponent
  deriving DecidableEq

inductive Expecting where
  | value
  | firstItem
  | firstName
  | name
  | colon
  | next
  | text (isName : Bool)
  | escaped (isName : Bool)
  | hex (isName : Bool) (left : Nat)
  | digits (part : NumberPart)
  | letters (rest : Bytes)
  deriving DecidableEq

structure ScanState where
  expecting : Expecting
  opened : List Container
  deriving DecidableEq

def NumberPart.isComplete : NumberPart → Bool
  | zero | whole | fraction | exponent => true
  | minus | point | mark | markSign => false

def NumberPart.extend? (b : UInt8) : NumberPart → Option NumberPart
  | minus => if b == Bytes.zero then some zero else if Bytes.isDigit b then some whole else none
  | zero => if b == Bytes.dot then some point else if isMark b then some mark else none
  | whole =>
    if Bytes.isDigit b then some whole
    else if b == Bytes.dot then some point
    else if isMark b then some mark
    else none
  | point => if Bytes.isDigit b then some fraction else none
  | fraction =>
    if Bytes.isDigit b then some fraction else if isMark b then some mark else none
  | mark =>
    if b == Bytes.plus || b == Bytes.minus then some markSign
    else if Bytes.isDigit b then some exponent
    else none
  | markSign => if Bytes.isDigit b then some exponent else none
  | exponent => if Bytes.isDigit b then some exponent else none
where
  isMark (b : UInt8) : Bool := b == 0x65 || b == 0x45

def ScanState.beginValue? (b : UInt8) (opened : List Container) : Option ScanState :=
  if b == Bytes.quote then some ⟨.text false, opened⟩
  else if b == Bytes.openBrace then some ⟨.firstName, .object :: opened⟩
  else if b == Bytes.openBracket then some ⟨.firstItem, .array :: opened⟩
  else if b == Bytes.minus then some ⟨.digits .minus, opened⟩
  else if b == Bytes.zero then some ⟨.digits .zero, opened⟩
  else if Bytes.isDigit b then some ⟨.digits .whole, opened⟩
  else if b == 0x74 then some ⟨.letters "rue", opened⟩
  else if b == 0x66 then some ⟨.letters "alse", opened⟩
  else if b == 0x6E then some ⟨.letters "ull", opened⟩
  else none

def ScanState.afterValue? (b : UInt8) (opened : List Container) : Option ScanState :=
  if isBlank b then some ⟨.next, opened⟩
  else
    match opened with
    | [] => none
    | .array :: outer =>
      if b == Bytes.comma then some ⟨.value, opened⟩
      else if b == Bytes.closeBracket then some ⟨.next, outer⟩
      else none
    | .object :: outer =>
      if b == Bytes.comma then some ⟨.name, opened⟩
      else if b == Bytes.closeBrace then some ⟨.next, outer⟩
      else none

/-- The state after one more byte, unless no valid text goes on with it. -/
def ScanState.step? (state : ScanState) (b : UInt8) : Option ScanState :=
  let opened := state.opened
  match state.expecting with
  | .value => if isBlank b then some state else beginValue? b opened
  | .firstItem =>
    if isBlank b then some state
    else if b == Bytes.closeBracket then some ⟨.next, opened.tail⟩
    else beginValue? b opened
  | .firstName =>
    if isBlank b then some state
    else if b == Bytes.closeBrace then some ⟨.next, opened.tail⟩
    else if b == Bytes.quote then some ⟨.text true, opened⟩
    else none
  | .name =>
    if isBlank b then some state
    else if b == Bytes.quote then some ⟨.text true, opened⟩
    else none
  | .colon =>
    if isBlank b then some state
    else if b == Bytes.colon then some ⟨.value, opened⟩
    else none
  | .next => afterValue? b opened
  | .text isName =>
    if b == Bytes.quote then some ⟨if isName then .colon else .next, opened⟩
    else if b == Bytes.backslash then some ⟨.escaped isName, opened⟩
    else if b < 0x20 then none
    else some state
  | .escaped isName =>
    if b == 0x75 then some ⟨.hex isName 4, opened⟩
    else if (shortEscape? b).isSome then some ⟨.text isName, opened⟩
    else none
  | .hex isName left =>
    if (Bytes.hexValue? b).isSome then
      some ⟨if left ≤ 1 then .text isName else .hex isName (left - 1), opened⟩
    else none
  | .digits part =>
    match part.extend? b with
    | some part => some ⟨.digits part, opened⟩
    | none => if part.isComplete then afterValue? b opened else none
  | .letters rest =>
    match rest with
    | [] => afterValue? b opened
    | c :: more =>
      if b == c then some ⟨if more.isEmpty then .next else .letters more, opened⟩ else none

def ScanState.isComplete (state : ScanState) : Bool :=
  state.opened.isEmpty &&
    match state.expecting with
    | .next => true
    | .digits part => part.isComplete
    | _ => false

def ScanState.run? (state : ScanState) (s : Bytes) : Option ScanState :=
  s.foldlM ScanState.step? state

def ScanState.start : ScanState := ⟨.value, []⟩

/-- Whether a text is exactly one JSON value. -/
def isValid (s : Bytes) : Bool :=
  match ScanState.start.run? s with
  | some state => state.isComplete
  | none => false

end Json

end ScanTriage
