import ThymioDeviceManager.Compiler.State

/-! # Tokens

`lexer.cpp`. The reader keeps a position that it advances by one at every
character; a token gets the position at the moment it is created. The parameter
`pos` of the constructor of `Token` shadows the member, so the corrections made
there do not reach the token.
-/

namespace ThymioDeviceManager.Compiler

open Library

/-- `pos.column++; pos.character++`. -/
def SourcePos.advance (pos : SourcePos) : SourcePos :=
  { pos with column := pos.column + 1, character := pos.character + 1 }

/-- The digits of a literal in a base, as `wcstol` reads them; the value saturates. -/
def wcstol (base : Nat) (digits : List Char) : Int :=
  let value (c : Char) : Nat :=
    if c.isDigit then c.toNat - '0'.toNat
    else if c.isLower then c.toNat - 'a'.toNat + 10
    else c.toNat - 'A'.toNat + 10
  min (digits.foldl (fun n c => n * base + value c) 0) (2 ^ 63 - 1)

/-- The value of an integer literal: hexadecimal and binary ones are 16-bit patterns. -/
def decodeInt (pos : SourcePos) (value : List Char) : Result Int :=
  let (decode, wasUnsigned) :=
    match value with
    | _ :: 'x' :: digits => (wcstol 16 digits, true)
    | _ :: 'b' :: digits => (wcstol 2 digits, true)
    | digits => (wcstol 10 digits, false)
  if decode ≥ 65536 then fail pos .int16OutOfRange [.number decode]
  else if wasUnsigned && decide (decode > 32767) then .ok (decode - 65536)
  else .ok decode

/-- The tests on a word that starts with a digit. -/
def checkNumber (pos : SourcePos) (s : List Char) : Result Unit :=
  let isXDigit (c : Char) : Bool :=
    c.isDigit || ('a' ≤ c && c ≤ 'f') || ('A' ≤ c && c ≤ 'F')
  match s with
  | '0' :: c :: rest =>
    if c.isDigit then
      if rest.all Char.isDigit then .ok () else fail pos .inNumber
    else if c = 'x' then
      if rest.all isXDigit then .ok () else fail pos .invalidHexaNumber
    else if c = 'b' then
      if rest.all (fun d => d = '0' || d = '1') then .ok () else fail pos .invalidBinaryNumber
    else fail pos .numberInvalidBase
  | s => if (s.drop 1).all Char.isDigit then .ok () else fail pos .inNumber

/-- The keywords of the language. -/
def keyword? : String → Option TokenType
  | "when" => some .strWhen
  | "emit" => some .strEmit
  | "_emit" => some .strHiddenEmit
  | "for" => some .strFor
  | "in" => some .strIn
  | "step" => some .strStep
  | "while" => some .strWhile
  | "do" => some .strDo
  | "if" => some .strIf
  | "then" => some .strThen
  | "else" => some .strElse
  | "elseif" => some .strElseif
  | "end" => some .strEnd
  | "var" => some .strVar
  | "const" => some .strConst
  | "call" => some .strCall
  | "sub" => some .strSub
  | "callsub" => some .strCallsub
  | "onevent" => some .strOnevent
  | "abs" => some .strAbs
  | "return" => some .strReturn
  | "or" => some .opOr
  | "and" => some .opAnd
  | "not" => some .opNot
  | _ => none

/-- `isKeyword`, which has a list of its own. -/
def isKeyword : String → Bool
  | "when" => true
  | "emit" => true
  | "_emit" => true
  | "for" => true
  | "in" => true
  | "step" => true
  | "while" => true
  | "do" => true
  | "if" => true
  | "then" => true
  | "else" => true
  | "elseif" => true
  | "end" => true
  | "var" => true
  | "const" => true
  | "call" => true
  | "sub" => true
  | "callsub" => true
  | "onevent" => true
  | "abs" => true
  | "return" => true
  | "or" => true
  | "and" => true
  | "not" => true
  | _ => false

/-- The token of a complete word. -/
def wordToken (pos : SourcePos) (s : List Char) : Result Token := do
  if (s.headD ' ').isDigit then
    checkNumber pos s
    let value ← decodeInt pos s
    pure { type := .intLiteral, sValue := String.ofList s, iValue := value, pos := pos }
  else
    match keyword? (String.ofList s) with
    | some type => pure { type := type, pos := pos }
    | none => pure { type := .stringLiteral, sValue := String.ofList s, pos := pos }

/-- How the position moves over a character of a comment. -/
def SourcePos.inComment (pos : SourcePos) (c : Char) (newlines : Bool) : SourcePos :=
  if c = '\t' then { pos with column := pos.column + 4 }
  else if newlines && c = '\n' then { pos with row := pos.row + 1, column := 0 }
  else { pos with column := pos.column + 1 }

/-- A comment block: `c` was read last, `step` characters pass before the end is looked for. -/
def blockComment (begin_ : SourcePos) :
    Nat → Char → List Char → SourcePos → Result (List Char × SourcePos)
  | step, c, rest, pos =>
    match rest with
    | [] => fail begin_ .unbalancedCommentBlock
    | d :: rest' =>
      if step > 0 ∨ c ≠ '*' ∨ d ≠ '#' then
        let pos := pos.inComment c true
        blockComment begin_ (step - 1) d rest' { pos with character := pos.character + 1 }
      else .ok (rest', pos.advance)

/-- A comment up to the end of the line. -/
def lineComment : Char → List Char → SourcePos → List Char × SourcePos
  | c, rest, pos =>
    if c = '\n' then (rest, { pos with row := pos.row + 1, column := 0 })
    else if c = '\r' then (rest, { pos with column := 0 })
    else
      let pos := pos.inComment c false
      let pos := { pos with character := pos.character + 1 }
      match rest with
      | [] => ([], pos)
      | d :: rest' => lineComment d rest' pos

/-- Operators of one character, by their second character when it is looked at. -/
def lookAhead : Char → Option (List (Char × TokenType) × Option TokenType)
  | '+' => some ([('=', .opAddEqual), ('+', .opPlusPlus)], some .opAdd)
  | '-' => some ([('=', .opNegEqual), ('-', .opMinusMinus)], some .opNeg)
  | '*' => some ([('=', .opMultEqual)], some .opMult)
  | '/' => some ([('=', .opDivEqual)], some .opDiv)
  | '%' => some ([('=', .opModEqual)], some .opMod)
  | '|' => some ([('=', .opBitOrEqual)], some .opBitOr)
  | '^' => some ([('=', .opBitXorEqual)], some .opBitXor)
  | '&' => some ([('=', .opBitAndEqual)], some .opBitAnd)
  | '~' => some ([], some .opBitNot)
  | '!' => some ([('=', .opNotEqual)], none)
  | '=' => some ([('=', .opEqual)], some .assign)
  | '<' => some ([('=', .opSmallerEqual)], some .opSmaller)
  | '>' => some ([('=', .opBiggerEqual)], some .opBigger)
  | '(' => some ([], some .parOpen)
  | ')' => some ([], some .parClose)
  | '[' => some ([], some .bracketOpen)
  | ']' => some ([], some .bracketClose)
  | ':' => some ([], some .colon)
  | ',' => some ([], some .comma)
  | _ => none

/-- The second characters of an operator, tried by `testNextCharacter`: the token, the rest of the
text and the position after it. -/
def testNextCharacter (pos : SourcePos) (options : List (Char × TokenType))
    (otherwise : Option TokenType) (rest : List Char) : Result (Token × List Char × SourcePos) :=
  let plain : Result (Token × List Char × SourcePos) :=
    match otherwise with
    | some type => .ok ({ type := type, pos := pos }, rest, pos)
    | none => fail pos .syntaxError
  match rest with
  | d :: rest' =>
    match options.find? (fun o => o.1 = d) with
    | some o => .ok ({ type := o.2, pos := pos }, rest', pos.advance)
    | none => plain
  | [] => plain

/-- One token, or none for blanks and comments, starting at the character `c` at `pos`. -/
def lexOne (isAlphaNum : Char → Bool) (c : Char) (rest : List Char) (pos : SourcePos) :
    Result (Option Token × List Char × SourcePos) :=
  let operator (options : List (Char × TokenType)) (otherwise : Option TokenType)
      (rest : List Char) (pos : SourcePos) : Result (Option Token × List Char × SourcePos) := do
    let (t, rest, pos) ← testNextCharacter pos options otherwise rest
    pure (some t, rest, pos)
  if c = ' ' ∨ c = '\t' then .ok (none, rest, pos)
  else if c = '\n' then .ok (none, rest, { pos with row := pos.row + 1, column := -1 })
  else if c = '\r' then .ok (none, rest, { pos with column := -1 })
  else if c = '#' then
    if rest.head? = some '*' then do
      let (rest, pos) ← blockComment pos 2 c rest pos
      pure (none, rest, pos)
    else if rest = [] then .ok (none, rest, pos)
    else
      let (rest, pos) := lineComment c rest pos
      .ok (none, rest, pos)
  else if c = '<' ∧ rest.head? = some '<' then
    operator [('=', .opShiftLeftEqual)] (some .opShiftLeft) rest.tail pos.advance
  else if c = '>' ∧ rest.head? = some '>' then
    operator [('=', .opShiftRightEqual)] (some .opShiftRight) rest.tail pos.advance
  else
    match lookAhead c with
    | some (options, otherwise) => operator options otherwise rest pos
    | none =>
      if !isAlphaNum c && c ≠ '_' then fail pos .invalidIdentifier [.number c.toNat]
      else do
        let isPart (d : Char) : Bool := isAlphaNum d || d = '_' || d = '.'
        let s := rest.takeWhile isPart
        let t ← wordToken pos (c :: s)
        let posIncrement := UInt32.ofNat s.length
        pure (some t, rest.dropWhile isPart,
          { pos with column := pos.column + posIncrement,
                     character := pos.character + posIncrement })

/-- The loop of `tokenize`; every round takes at least one character. -/
def tokenizeLoop (isAlphaNum : Char → Bool) : Nat → List Char → SourcePos → Result (List Token)
  | _, [], pos => .ok [{ type := .endOfStream, pos := pos }]
  | 0, _ :: _, _ => .crash .outOfFuel
  | fuel + 1, c :: rest, pos => do
    let (t, rest, pos) ← lexOne isAlphaNum c rest pos.advance
    let ts ← tokenizeLoop isAlphaNum fuel rest pos
    pure (t.toList ++ ts)

/-- `tokenize`. -/
def tokenize (isAlphaNum : Char → Bool) (source : List Char) : Result (List Token) :=
  tokenizeLoop isAlphaNum source.length source (SourcePos.at 0 0 0)

end ThymioDeviceManager.Compiler
