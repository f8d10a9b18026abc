import Mathlib.Data.Nat.Digits.Defs
import Mathlib.Tactic.Ring
import ThymioDeviceManager.Compiler.Lexer

/-! # Tokens and how they are written

The lexer reads every list of tokens back from its texts with a blank between
them. Which letters there are is a matter of the locale, which is asked about
characters beyond ASCII only.
-/

namespace ThymioDeviceManager.Correctness

open Compiler Library

/-- A statement about the characters of a text is decided on these characters alone, although
there are finitely many characters. -/
instance (priority := 2000) decidableForallMemChar (p : Char → Prop) [DecidablePred p]
    (text : List Char) : Decidable (∀ c ∈ text, p c) := List.decidableBAll p text

/-- A locale whose ASCII letters and digits are the usual ones. -/
def AsciiLocale (isAlphaNum : Char → Bool) : Prop :=
  ∀ c : Char, c.toNat < 128 → isAlphaNum c = c.isAlphanum

/-- What a token says, without its position. -/
def content (t : Token) : TokenType × String × Int := (t.type, t.sValue, t.iValue)

/-! ## Spellings -/

/-- Operators and punctuation. -/
def symbols : List (List Char × TokenType) :=
  [(['('], .parOpen), ([')'], .parClose), (['['], .bracketOpen), ([']'], .bracketClose),
    ([':'], .colon), ([','], .comma), (['='], .assign),
    (['+'], .opAdd), (['-'], .opNeg), (['*'], .opMult), (['/'], .opDiv), (['%'], .opMod),
    (['|'], .opBitOr), (['^'], .opBitXor), (['&'], .opBitAnd), (['~'], .opBitNot),
    (['<', '<'], .opShiftLeft), (['>', '>'], .opShiftRight),
    (['+', '='], .opAddEqual), (['-', '='], .opNegEqual), (['*', '='], .opMultEqual),
    (['/', '='], .opDivEqual), (['%', '='], .opModEqual), (['|', '='], .opBitOrEqual),
    (['^', '='], .opBitXorEqual), (['&', '='], .opBitAndEqual),
    (['<', '<', '='], .opShiftLeftEqual), (['>', '>', '='], .opShiftRightEqual),
    (['+', '+'], .opPlusPlus), (['-', '-'], .opMinusMinus),
    (['=', '='], .opEqual), (['!', '='], .opNotEqual), (['<'], .opSmaller),
    (['<', '='], .opSmallerEqual), (['>'], .opBigger), (['>', '='], .opBiggerEqual)]

def keywords : List (String × TokenType) :=
  [("when", .strWhen), ("emit", .strEmit), ("_emit", .strHiddenEmit), ("for", .strFor),
    ("in", .strIn), ("step", .strStep), ("while", .strWhile), ("do", .strDo), ("if", .strIf),
    ("then", .strThen), ("else", .strElse), ("elseif", .strElseif), ("end", .strEnd),
    ("var", .strVar), ("const", .strConst), ("call", .strCall), ("sub", .strSub),
    ("callsub", .strCallsub), ("onevent", .strOnevent), ("abs", .strAbs), ("return", .strReturn),
    ("or", .opOr), ("and", .opAnd), ("not", .opNot)]

/-- A word that starts like an identifier and goes on like one. -/
def IsWord (isAlphaNum : Char → Bool) : List Char → Prop
  | [] => False
  | c :: s => ((isAlphaNum c = true ∨ c = '_') ∧ c.isDigit = false) ∧
      ∀ d ∈ s, isAlphaNum d = true ∨ d = '_' ∨ d = '.'

instance (isAlphaNum : Char → Bool) (s : List Char) : Decidable (IsWord isAlphaNum s) := by
  cases s <;> unfold IsWord <;> infer_instance

/-- The place of a digit in the order of the digits. -/
def digitValue (c : Char) : Nat := "0123456789abcdef".toList.idxOf c.toLower

def decimalDigits : List Char := "0123456789".toList

def hexadecimalDigits : List Char := "0123456789abcdefABCDEF".toList

/-- A number in positional notation, most significant digit first. -/
def valueOf (base : Nat) (digits : List Char) : Nat :=
  Nat.ofDigits base (digits.map digitValue).reverse

/-- A hexadecimal or binary literal is the bit pattern of a signed word. -/
def patternValue (n : Nat) : Int := if n > 32767 then (n : Int) - 65536 else n

/-- The texts of a token. -/
inductive Spelled (isAlphaNum : Char → Bool) : List Char → TokenType × String × Int → Prop
  | symbol {s : List Char} {type : TokenType} (h : (s, type) ∈ symbols) :
      Spelled isAlphaNum s (type, "", 0)
  | keyword {word : String} {type : TokenType} (h : (word, type) ∈ keywords) :
      Spelled isAlphaNum word.toList (type, "", 0)
  | identifier {s : List Char} (hword : IsWord isAlphaNum s)
      (hkeyword : isKeyword (String.ofList s) = false) :
      Spelled isAlphaNum s (.stringLiteral, String.ofList s, 0)
  | decimal {digits : List Char} (hne : digits ≠ []) (hdigits : ∀ d ∈ digits, d ∈ decimalDigits)
      (hvalue : valueOf 10 digits < 65536) :
      Spelled isAlphaNum digits (.intLiteral, String.ofList digits, valueOf 10 digits)
  | hexadecimal {digits : List Char} (hdigits : ∀ d ∈ digits, d ∈ hexadecimalDigits)
      (hvalue : valueOf 16 digits < 65536) :
      Spelled isAlphaNum ('0' :: 'x' :: digits)
        (.intLiteral, String.ofList ('0' :: 'x' :: digits), patternValue (valueOf 16 digits))
  | binary {digits : List Char} (hdigits : ∀ d ∈ digits, d = '0' ∨ d = '1')
      (hvalue : valueOf 2 digits < 65536) :
      Spelled isAlphaNum ('0' :: 'b' :: digits)
        (.intLiteral, String.ofList ('0' :: 'b' :: digits), patternValue (valueOf 2 digits))

/-! ## Words -/

theorem isKeyword_eq (s : String) : isKeyword s = (keyword? s).isSome := by
  unfold isKeyword
  split <;> first
    | rfl
    | (unfold keyword?; split <;> simp_all)

section Words

variable {isAlphaNum : Char → Bool} {c : Char} {s rest : List Char}

/-- Where a token ends: at the end of the text, or at a blank. -/
def EndsToken (rest : List Char) : Prop := rest = [] ∨ ∃ r, rest = ' ' :: r

/-- Characters that start something else than a word. -/
def separators : List Char := " \t\n\r#<>+-*/%|^&~!=()[]:,".toList

theorem ne_separator (hlocale : AsciiLocale isAlphaNum) (hc : isAlphaNum c = true ∨ c = '_')
    {x : Char} (hx : x ∈ separators) : c ≠ x := by
  have hseparators : ∀ x ∈ separators, x.toNat < 128 ∧ x.isAlphanum = false ∧ x ≠ '_' := by
    decide +kernel
  obtain ⟨hascii, halpha, hne⟩ := hseparators x hx
  rintro rfl
  cases hc with
  | inl h =>
    rw [hlocale c hascii, halpha] at h
    cases h
  | inr h => exact hne h

theorem lookAhead_of_word (hlocale : AsciiLocale isAlphaNum) (hc : isAlphaNum c = true ∨ c = '_') :
    lookAhead c = none := by
  have hne := fun x hx => ne_separator hlocale hc (x := x) hx
  unfold lookAhead
  split <;> first
    | rfl
    | exact absurd rfl (hne _ (by decide))

/-- A word is read up to the blank after it. -/
theorem lexOne_word (hlocale : AsciiLocale isAlphaNum) (hc : isAlphaNum c = true ∨ c = '_')
    (hs : ∀ d ∈ s, isAlphaNum d = true ∨ d = '_' ∨ d = '.') (hrest : EndsToken rest)
    (pos : SourcePos) :
    ∃ pos', lexOne isAlphaNum c (s ++ rest) pos = (do
      let t ← wordToken pos (c :: s)
      pure (some t, rest, pos')) := by
  have hne := fun x hx => ne_separator hlocale hc (x := x) hx
  have hpart : ∀ d ∈ s, (isAlphaNum d || decide (d = '_') || decide (d = '.')) = true := by
    intro d hd
    simpa [or_assoc] using hs d hd
  have hblank : isAlphaNum ' ' = false := hlocale ' ' (by decide)
  have htake : (s ++ rest).takeWhile (fun d => isAlphaNum d || decide (d = '_') || decide (d = '.')) =
      s := by
    rw [List.takeWhile_append_of_pos hpart]
    rcases hrest with rfl | ⟨r, rfl⟩
    · simp
    · simp [hblank]
  have hdrop : (s ++ rest).dropWhile (fun d => isAlphaNum d || decide (d = '_') || decide (d = '.')) =
      rest := by
    rw [List.dropWhile_append_of_pos hpart]
    rcases hrest with rfl | ⟨r, rfl⟩
    · simp
    · simp [hblank]
  refine ⟨{ pos with column := pos.column + UInt32.ofNat s.length,
                     character := pos.character + UInt32.ofNat s.length }, ?_⟩
  unfold lexOne
  have hstart : (!isAlphaNum c && decide (c ≠ '_')) = false := by
    cases hc with
    | inl h => simp [h]
    | inr h => simp [h]
  simp only [hne ' ' (by decide), hne '\t' (by decide), hne '\n' (by decide), hne '\r' (by decide),
    hne '#' (by decide), hne '<' (by decide), hne '>' (by decide), lookAhead_of_word hlocale hc,
    htake, hdrop, hstart, or_self, false_and, if_false, Bool.false_eq_true]

/-- Operators and punctuation, by their first character. -/
theorem lexOne_symbol (hrest : EndsToken rest) (pos : SourcePos) :
    ∀ p ∈ symbols, ∃ c s, p.1 = c :: s ∧ ∃ t pos',
      lexOne isAlphaNum c (s ++ rest) pos = .ok (some t, rest, pos') ∧ content t = (p.2, "", 0) := by
  simp only [symbols, List.forall_mem_cons]
  rcases hrest with rfl | ⟨r, rfl⟩
  all_goals
    and_intros
    all_goals first
      | exact ⟨_, _, rfl, _, _, rfl, rfl⟩
      | exact List.forall_mem_nil _

end Words

/-! ## Literals -/

section Literals

variable {digits : List Char}

theorem foldl_digits {base : Nat} {value : Char → Nat}
    (hvalue : ∀ d ∈ digits, value d = digitValue d) : ∀ n : Int,
    digits.foldl (fun (n : Int) c => n * base + value c) n =
      n * base ^ digits.length + valueOf base digits := by
  induction digits with
  | nil => simp [valueOf]
  | cons d digits ih =>
    intro n
    obtain ⟨hd, hrest⟩ := List.forall_mem_cons.mp hvalue
    rw [List.foldl_cons, ih hrest, hd, valueOf, valueOf, List.map_cons, List.reverse_cons,
      Nat.ofDigits_append, Nat.ofDigits_singleton, List.length_reverse, List.length_map,
      List.length_cons, pow_succ]
    push_cast
    ring

/-- `wcstol` reads positional notation. -/
theorem wcstol_eq {base : Nat} (hdigits : ∀ d ∈ digits, d ∈ hexadecimalDigits)
    (hvalue : valueOf base digits < 65536) : wcstol base digits = valueOf base digits := by
  have hplace : ∀ d ∈ hexadecimalDigits, (if d.isDigit then d.toNat - '0'.toNat
      else if d.isLower then d.toNat - 'a'.toNat + 10 else d.toNat - 'A'.toNat + 10) =
        digitValue d := by
    decide +kernel
  unfold wcstol
  dsimp only
  rw [foldl_digits fun d hd => hplace d (hdigits d hd)]
  omega

theorem decimal_mem_hexadecimal : ∀ d ∈ decimalDigits, d ∈ hexadecimalDigits := by decide +kernel

theorem isDigit_of_decimal : ∀ d ∈ decimalDigits, d.isDigit = true ∧ d ≠ 'x' ∧ d ≠ 'b' := by decide +kernel

theorem decodeInt_decimal (hdigits : ∀ d ∈ digits, d ∈ decimalDigits)
    (hvalue : valueOf 10 digits < 65536) (pos : SourcePos) :
    decodeInt pos digits = .ok (valueOf 10 digits : Int) := by
  have hdecode := wcstol_eq (fun d hd => decimal_mem_hexadecimal d (hdigits d hd)) hvalue
  unfold decodeInt
  split
  rename_i decode wasUnsigned hmatch
  split at hmatch
  · exact absurd rfl (isDigit_of_decimal _ (hdigits 'x' (by simp))).2.1
  · exact absurd rfl (isDigit_of_decimal _ (hdigits 'b' (by simp))).2.2
  · cases hmatch
    rw [hdecode, if_neg (by omega)]
    rfl

theorem decodeInt_hexadecimal (hdigits : ∀ d ∈ digits, d ∈ hexadecimalDigits)
    (hvalue : valueOf 16 digits < 65536) (pos : SourcePos) :
    decodeInt pos ('0' :: 'x' :: digits) = .ok (patternValue (valueOf 16 digits)) := by
  simp only [decodeInt, wcstol_eq hdigits hvalue, patternValue]
  rw [if_neg (by omega)]
  by_cases h : valueOf 16 digits > 32767
  · simp [h]
  · simp [h]

theorem decodeInt_binary (hdigits : ∀ d ∈ digits, d = '0' ∨ d = '1')
    (hvalue : valueOf 2 digits < 65536) (pos : SourcePos) :
    decodeInt pos ('0' :: 'b' :: digits) = .ok (patternValue (valueOf 2 digits)) := by
  have hmem : ∀ d ∈ digits, d ∈ hexadecimalDigits := by
    intro d hd
    rcases hdigits d hd with rfl | rfl <;> decide
  simp only [decodeInt, wcstol_eq hmem hvalue, patternValue]
  rw [if_neg (by omega)]
  by_cases h : valueOf 2 digits > 32767
  · simp [h]
  · simp [h]

theorem checkNumber_decimal (hdigits : ∀ d ∈ digits, d ∈ decimalDigits) (pos : SourcePos) :
    checkNumber pos digits = .ok () := by
  have hall : ∀ l : List Char, (∀ d ∈ l, d ∈ digits) → l.all Char.isDigit = true := by
    intro l hl
    exact List.all_eq_true.mpr fun d hd => (isDigit_of_decimal d (hdigits d (hl d hd))).1
  unfold checkNumber
  split
  · rename_i c rest
    have hc : c.isDigit = true := (isDigit_of_decimal c (hdigits c (by simp))).1
    rw [if_pos hc, if_pos (hall rest fun d hd => by simp [hd])]
  · rw [if_pos (hall _ fun d hd => List.mem_of_mem_drop hd)]

/-- The token of a literal that passes the tests. -/
theorem wordToken_literal {c : Char} {s : List Char} {pos : SourcePos} {value : Int}
    (hc : c.isDigit = true) (hcheck : checkNumber pos (c :: s) = .ok ())
    (hvalue : decodeInt pos (c :: s) = .ok value) :
    wordToken pos (c :: s) =
      .ok { type := .intLiteral, sValue := String.ofList (c :: s), iValue := value, pos := pos } := by
  have hdigit : ((c :: s).headD ' ').isDigit = true := hc
  unfold wordToken
  rw [hdigit, if_pos rfl, hcheck, hvalue]
  rfl

end Literals

/-! ## One token -/

section Tokens

variable {isAlphaNum : Char → Bool} {rest : List Char}

theorem wordToken_keyword (pos : SourcePos) : ∀ p ∈ keywords,
    wordToken pos p.1.toList = .ok { type := p.2, pos := pos } := by
  simp only [keywords, List.forall_mem_cons]
  and_intros
  all_goals first
    | rfl
    | exact List.forall_mem_nil _

theorem isWord_of_ascii (hlocale : AsciiLocale isAlphaNum) {s : List Char}
    (hword : IsWord Char.isAlphanum s) (hascii : ∀ c ∈ s, c.toNat < 128) :
    IsWord isAlphaNum s := by
  cases s with
  | nil => exact hword
  | cons c s =>
    obtain ⟨hc, hs⟩ := hword
    obtain ⟨hfirst, hrest⟩ := List.forall_mem_cons.mp hascii
    refine ⟨by rwa [hlocale c hfirst], fun d hd => ?_⟩
    rw [hlocale d (hrest d hd)]
    exact hs d hd

theorem isWord_keyword (hlocale : AsciiLocale isAlphaNum) :
    ∀ p ∈ keywords, IsWord isAlphaNum p.1.toList := by
  have hkeywords : ∀ p ∈ keywords, IsWord Char.isAlphanum p.1.toList ∧
      ∀ c ∈ p.1.toList, c.toNat < 128 := by decide +kernel
  exact fun p hp => isWord_of_ascii hlocale (hkeywords p hp).1 (hkeywords p hp).2

theorem wordToken_identifier (pos : SourcePos) {s : List Char} (hword : IsWord isAlphaNum s) :
    wordToken pos s = .ok (match keyword? (String.ofList s) with
      | some type => { type := type, pos := pos }
      | none => { type := .stringLiteral, sValue := String.ofList s, pos := pos }) := by
  cases s with
  | nil => exact hword.elim
  | cons c s =>
    have hdigit : ((c :: s).headD ' ').isDigit = false := hword.1.2
    unfold wordToken
    rw [hdigit]
    cases keyword? (String.ofList (c :: s)) <;> rfl

/-- Characters that a word or a literal is made of. -/
theorem wordPart_of_hexadecimal (hlocale : AsciiLocale isAlphaNum) {d : Char}
    (h : d ∈ hexadecimalDigits) : isAlphaNum d = true := by
  have hdigits : ∀ d ∈ hexadecimalDigits, d.toNat < 128 ∧ d.isAlphanum = true := by decide +kernel
  rw [hlocale d (hdigits d h).1]
  exact (hdigits d h).2

/-- A text of a token, with nothing or a blank behind it, is read as that token. -/
theorem lexOne_spelled (hlocale : AsciiLocale isAlphaNum) {text : List Char}
    {what : TokenType × String × Int} (h : Spelled isAlphaNum text what) (hrest : EndsToken rest)
    (pos : SourcePos) :
    ∃ c s, text = c :: s ∧ ∃ t pos',
      lexOne isAlphaNum c (s ++ rest) pos = .ok (some t, rest, pos') ∧ content t = what := by
  have hliteral : ∀ {c s value}, c ∈ decimalDigits → (∀ d ∈ s, isAlphaNum d = true) →
      checkNumber pos (c :: s) = .ok () → decodeInt pos (c :: s) = .ok value →
      ∃ t pos', lexOne isAlphaNum c (s ++ rest) pos = .ok (some t, rest, pos') ∧
        content t = (.intLiteral, String.ofList (c :: s), value) := by
    intro c s value hc hs hcheck hvalue
    have hstart := wordPart_of_hexadecimal hlocale (decimal_mem_hexadecimal c hc)
    obtain ⟨pos', hlex⟩ := lexOne_word hlocale (.inl hstart) (fun d hd => .inl (hs d hd)) hrest pos
    rw [wordToken_literal (isDigit_of_decimal c hc).1 hcheck hvalue] at hlex
    exact ⟨_, pos', hlex, rfl⟩
  cases h with
  | symbol h => exact lexOne_symbol hrest pos _ h
  | keyword h =>
    have hword := isWord_keyword hlocale _ h
    have htoken := wordToken_keyword pos _ h
    rename_i word type
    dsimp only at hword htoken
    cases htext : word.toList with
    | nil => exact (htext ▸ hword : IsWord isAlphaNum []).elim
    | cons c s =>
      rw [htext] at hword htoken
      obtain ⟨pos', hlex⟩ := lexOne_word hlocale hword.1.1 hword.2 hrest pos
      rw [htoken] at hlex
      exact ⟨c, s, rfl, _, pos', hlex, rfl⟩
  | identifier hword hkeyword =>
    cases text with
    | nil => exact hword.elim
    | cons c s =>
      have htoken := wordToken_identifier pos hword
      rw [isKeyword_eq, Option.isSome_eq_false_iff, Option.isNone_iff_eq_none] at hkeyword
      rw [hkeyword] at htoken
      obtain ⟨pos', hlex⟩ := lexOne_word hlocale hword.1.1 hword.2 hrest pos
      rw [htoken] at hlex
      exact ⟨c, s, rfl, _, pos', hlex, rfl⟩
  | decimal hne hdigits hvalue =>
    cases text with
    | nil => exact absurd rfl hne
    | cons c s =>
      refine ⟨c, s, rfl, hliteral (hdigits c List.mem_cons_self) (fun d hd => ?_)
        (checkNumber_decimal hdigits pos) (decodeInt_decimal hdigits hvalue pos)⟩
      exact wordPart_of_hexadecimal hlocale
        (decimal_mem_hexadecimal d (hdigits d (List.mem_cons_of_mem _ hd)))
  | @hexadecimal digits hdigits hvalue =>
    have hcheck : checkNumber pos ('0' :: 'x' :: digits) = .ok () := by
      have hall : ∀ d ∈ hexadecimalDigits, (d.isDigit || decide ('a' ≤ d) && decide (d ≤ 'f') ||
          decide ('A' ≤ d) && decide (d ≤ 'F')) = true := by decide +kernel
      have hdigit : ('x').isDigit = false := rfl
      simp only [checkNumber, hdigit, Bool.false_eq_true, if_false, if_true]
      rw [if_pos (List.all_eq_true.mpr fun d hd => hall d (hdigits d hd))]
    refine ⟨'0', 'x' :: digits, rfl, hliteral (by decide) ?_ hcheck
      (decodeInt_hexadecimal hdigits hvalue pos)⟩
    intro d hd
    cases hd with
    | head => exact hlocale 'x' (by decide)
    | tail _ hd => exact wordPart_of_hexadecimal hlocale (hdigits d hd)
  | @binary digits hdigits hvalue =>
    have hcheck : checkNumber pos ('0' :: 'b' :: digits) = .ok () := by
      have hdigit : ('b').isDigit = false := rfl
      have hx : ¬ ('b' = 'x') := by decide
      simp only [checkNumber, hdigit, Bool.false_eq_true, if_false, hx, if_true]
      rw [if_pos (List.all_eq_true.mpr fun d hd => by simpa using hdigits d hd)]
    refine ⟨'0', 'b' :: digits, rfl, hliteral (by decide) ?_ hcheck
      (decodeInt_binary hdigits hvalue pos)⟩
    intro d hd
    cases hd with
    | head => exact hlocale 'b' (by decide)
    | tail _ hd =>
      rcases hdigits d hd with rfl | rfl
      · exact hlocale '0' (by decide)
      · exact hlocale '1' (by decide)

end Tokens

/-! ## Lists of tokens -/

section Lists

variable {isAlphaNum : Char → Bool}

/-- Texts with a blank between them. -/
def spaced : List (List Char) → List Char
  | [] => []
  | [text] => text
  | text :: texts => text ++ ' ' :: spaced texts

theorem tokenizeLoop_cons {fuel : Nat} {c : Char} {rest rest' : List Char} {pos pos' : SourcePos}
    {t : Option Token} (hlex : lexOne isAlphaNum c rest pos.advance = .ok (t, rest', pos')) :
    tokenizeLoop isAlphaNum (fuel + 1) (c :: rest) pos =
      (t.toList ++ ·) <$> tokenizeLoop isAlphaNum fuel rest' pos' := by
  rw [tokenizeLoop, hlex]
  rfl

/-- The loop reads a text of a token and goes on behind it. -/
theorem tokenizeLoop_spelled (hlocale : AsciiLocale isAlphaNum) {text rest : List Char}
    {what : TokenType × String × Int} (h : Spelled isAlphaNum text what) (hrest : EndsToken rest)
    {fuel : Nat} (hfuel : (text ++ rest).length ≤ fuel) (pos : SourcePos) :
    ∃ t pos' fuel', rest.length ≤ fuel' ∧ content t = what ∧
      tokenizeLoop isAlphaNum fuel (text ++ rest) pos =
        (t :: ·) <$> tokenizeLoop isAlphaNum fuel' rest pos' := by
  obtain ⟨c, s, rfl, t, pos', hlex, ht⟩ := lexOne_spelled hlocale h hrest pos.advance
  rw [List.length_append, List.length_cons] at hfuel
  obtain ⟨fuel, rfl⟩ : ∃ fuel', fuel = fuel' + 1 := ⟨fuel - 1, by omega⟩
  exact ⟨t, pos', fuel, by omega, ht, tokenizeLoop_cons hlex⟩

theorem tokenizeLoop_spaced (hlocale : AsciiLocale isAlphaNum)
    (texts : List (List Char × TokenType × String × Int))
    (h : ∀ p ∈ texts, Spelled isAlphaNum p.1 p.2) : ∀ fuel pos,
    (spaced (texts.map Prod.fst)).length ≤ fuel →
      ∃ tokens, tokenizeLoop isAlphaNum fuel (spaced (texts.map Prod.fst)) pos = .ok tokens ∧
        tokens.map content = texts.map Prod.snd ++ [(.endOfStream, "", 0)] := by
  induction texts with
  | nil =>
    intro fuel pos _
    exact ⟨[{ type := .endOfStream, pos := pos }], by cases fuel <;> rfl, rfl⟩
  | cons p texts ih =>
    intro fuel pos hfuel
    obtain ⟨hp, hrest⟩ := List.forall_mem_cons.mp h
    cases texts with
    | nil =>
      have htext : spaced ([p].map Prod.fst) = p.1 ++ [] := (List.append_nil _).symm
      rw [htext] at hfuel ⊢
      obtain ⟨t, pos', fuel', -, ht, hloop⟩ := tokenizeLoop_spelled hlocale hp (.inl rfl) hfuel pos
      refine ⟨[t, { type := .endOfStream, pos := pos' }], ?_, by rw [List.map_cons, ht]; rfl⟩
      rw [hloop]
      cases fuel' <;> rfl
    | cons q texts =>
      have htext : spaced ((p :: q :: texts).map Prod.fst) =
          p.1 ++ ' ' :: spaced ((q :: texts).map Prod.fst) := rfl
      rw [htext] at hfuel ⊢
      obtain ⟨t, pos', fuel', hfuel', ht, hloop⟩ :=
        tokenizeLoop_spelled hlocale hp (.inr ⟨_, rfl⟩) hfuel pos
      rw [List.length_cons] at hfuel'
      obtain ⟨fuel', rfl⟩ : ∃ n, fuel' = n + 1 := ⟨fuel' - 1, by omega⟩
      -- the blank
      have hblank : lexOne isAlphaNum ' ' (spaced ((q :: texts).map Prod.fst)) pos'.advance =
          .ok (none, spaced ((q :: texts).map Prod.fst), pos'.advance) := rfl
      obtain ⟨tokens, htokens, hcontent⟩ := ih hrest fuel' pos'.advance (by omega)
      refine ⟨t :: tokens, ?_, by rw [List.map_cons, hcontent, ht]; rfl⟩
      rw [hloop, tokenizeLoop_cons hblank, htokens]
      rfl

theorem ne_stringLiteral_of_keyword? {s : String} {type : TokenType} (h : keyword? s = some type) :
    type ≠ .stringLiteral := by
  unfold keyword? at h
  split at h <;> cases h <;> decide

/-- A word is one token, an identifier unless it is a keyword. -/
theorem tokenize_word (hlocale : AsciiLocale isAlphaNum) {word : List Char}
    (hword : IsWord isAlphaNum word) :
    ∃ t e, tokenize isAlphaNum word = .ok [t, e] ∧ e.type = .endOfStream ∧
      (t.type = .stringLiteral ↔ isKeyword (String.ofList word) = false) := by
  cases word with
  | nil => exact hword.elim
  | cons c s =>
    obtain ⟨pos', hlex⟩ := lexOne_word hlocale hword.1.1 hword.2 (.inl rfl)
      (SourcePos.at 0 0 0).advance
    rw [wordToken_identifier _ hword, List.append_nil] at hlex
    have hend : ∀ fuel, tokenizeLoop isAlphaNum fuel [] pos' =
        .ok [{ type := .endOfStream, pos := pos' }] := by
      intro fuel
      cases fuel <;> rfl
    have hone : ∀ {t}, lexOne isAlphaNum c s (SourcePos.at 0 0 0).advance = .ok (some t, [], pos') →
        tokenize isAlphaNum (c :: s) = .ok [t, { type := .endOfStream, pos := pos' }] := by
      intro t ht
      exact (tokenizeLoop_cons ht).trans (by rw [hend]; rfl)
    rw [isKeyword_eq]
    cases hkeyword : keyword? (String.ofList (c :: s)) with
    | none =>
      rw [hkeyword] at hlex
      exact ⟨_, _, hone hlex, rfl, by simp⟩
    | some type =>
      rw [hkeyword] at hlex
      exact ⟨_, _, hone hlex, rfl, by simpa using ne_stringLiteral_of_keyword? hkeyword⟩

/-- Tokens are read back from their texts, and a word is an identifier unless it is a keyword. -/
theorem tokenize_inverts_printing (hlocale : AsciiLocale isAlphaNum) :
    (∀ texts : List (List Char × TokenType × String × Int),
      (∀ p ∈ texts, Spelled isAlphaNum p.1 p.2) →
        ∃ tokens, tokenize isAlphaNum (spaced (texts.map Prod.fst)) = .ok tokens ∧
          tokens.map content = texts.map Prod.snd ++ [(.endOfStream, "", 0)]) ∧
      ∀ word, IsWord isAlphaNum word → ∃ t e, tokenize isAlphaNum word = .ok [t, e] ∧
        e.type = .endOfStream ∧ (t.type = .stringLiteral ↔ isKeyword (String.ofList word) = false) := by
  exact ⟨fun texts h => tokenizeLoop_spaced hlocale texts h _ _ (Nat.le_refl _),
    fun word hword => tokenize_word hlocale hword⟩

end Lists

theorem asciiLocale_isAlphanum : AsciiLocale Char.isAlphanum := fun _ _ => rfl

/-- A shift, a keyword, a name, and a literal of each base. -/
def mixedTokens : List (List Char × TokenType × String × Int) :=
  [(['<', '<', '='], .opShiftLeftEqual, "", 0), ("when".toList, .strWhen, "", 0),
    ("x_1.y".toList, .stringLiteral, String.ofList "x_1.y".toList, 0),
    ("40000".toList, .intLiteral, String.ofList "40000".toList, 40000),
    ("0xfFfe".toList, .intLiteral, String.ofList "0xfFfe".toList, -2),
    ("0b101".toList, .intLiteral, String.ofList "0b101".toList, 5)]

theorem spelled_mixedTokens : ∀ p ∈ mixedTokens, Spelled Char.isAlphanum p.1 p.2 := by
  simp only [mixedTokens, List.forall_mem_cons]
  exact ⟨.symbol (by decide +kernel), .keyword (by decide +kernel),
    .identifier (by decide +kernel) (by decide +kernel),
    @Spelled.decimal _ "40000".toList (by decide +kernel) (by decide +kernel) (by decide +kernel),
    @Spelled.hexadecimal _ "fFfe".toList (by decide +kernel) (by decide +kernel),
    @Spelled.binary _ "101".toList (by decide +kernel) (by decide +kernel), List.forall_mem_nil _⟩

theorem mixedTokens_read_back :
    (∃ tokens, tokenize Char.isAlphanum (spaced (mixedTokens.map Prod.fst)) = .ok tokens ∧
      tokens.map content = mixedTokens.map Prod.snd ++ [(.endOfStream, "", 0)]) ∧
      ∃ t e, tokenize Char.isAlphanum "_emit".toList = .ok [t, e] ∧ e.type = .endOfStream ∧
        (t.type = .stringLiteral ↔ isKeyword (String.ofList "_emit".toList) = false) :=
  ⟨(tokenize_inverts_printing asciiLocale_isAlphanum).1 _ spelled_mixedTokens,
    (tokenize_inverts_printing asciiLocale_isAlphanum).2 _ (by decide +kernel)⟩

end ThymioDeviceManager.Correctness
