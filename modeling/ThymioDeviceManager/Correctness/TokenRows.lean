import Mathlib.Data.List.TakeWhile
import ThymioDeviceManager.Correctness.TokenSpelling

/-! # The rows of tokens

Whatever the lexer passes over, blanks, comments of both kinds or the characters of
a token, its row moves on by the newlines among them.
-/

namespace ThymioDeviceManager.Correctness

open Compiler Library

/-- The newlines of a text, as the counter of rows sees them. -/
def newlines (text : List Char) : UInt32 := .ofNat (text.count '\n')

@[simp] theorem newlines_nil : newlines [] = 0 := rfl

theorem newlines_cons (c : Char) (text : List Char) :
    newlines (c :: text) = (if c = '\n' then 1 else 0) + newlines text := by
  unfold newlines
  rw [List.count_cons, UInt32.ofNat_add, UInt32.add_comm]
  by_cases h : c = '\n'
  · simp [h]
  · simp [h]

theorem newlines_append (text text' : List Char) :
    newlines (text ++ text') = newlines text + newlines text' := by
  rw [newlines, List.count_append, UInt32.ofNat_add]
  rfl

theorem newlines_eq_zero {text : List Char} (h : ∀ c ∈ text, c ≠ '\n') : newlines text = 0 := by
  rw [newlines, List.count_eq_zero_of_not_mem fun hmem => h _ hmem rfl]
  rfl

/-! ## Comments -/

theorem row_inComment (pos : SourcePos) (c : Char) (counting : Bool) :
    (pos.inComment c counting).row =
      pos.row + if counting = true ∧ c = '\n' then 1 else 0 := by
  unfold SourcePos.inComment
  by_cases htab : c = '\t'
  · subst htab
    simp
  · rw [if_neg htab]
    by_cases hline : counting = true ∧ c = '\n'
    · simp [hline]
    · rw [if_neg hline, if_neg (by simpa using hline), UInt32.add_zero]

/-- A line comment takes the end of its line. -/
theorem lineComment_row (rest : List Char) : ∀ (c : Char) (pos : SourcePos),
    ∃ taken, rest = taken ++ (lineComment c rest pos).1 ∧
      (lineComment c rest pos).2.row = pos.row + newlines (c :: taken) := by
  induction rest with
  | nil =>
    intro c pos
    refine ⟨[], ?_, ?_⟩
    · unfold lineComment
      split_ifs <;> rfl
    · unfold lineComment
      rw [newlines_cons]
      split_ifs with hline hreturn
      · simp
      · simp
      · simp [row_inComment]
  | cons d rest ih =>
    intro c pos
    unfold lineComment
    by_cases hline : c = '\n'
    · exact ⟨[], by rw [if_pos hline]; rfl, by rw [if_pos hline, newlines_cons]; simp [hline]⟩
    by_cases hreturn : c = '\r'
    · refine ⟨[], by rw [if_neg hline, if_pos hreturn]; rfl, ?_⟩
      rw [if_neg hline, if_pos hreturn, newlines_cons, if_neg hline]
      simp
    · rw [if_neg hline, if_neg hreturn]
      obtain ⟨taken, hrest, hrow⟩ := ih d { pos.inComment c false with
        character := (pos.inComment c false).character + 1 }
      refine ⟨d :: taken, by rw [List.cons_append, ← hrest], ?_⟩
      rw [newlines_cons, if_neg hline, UInt32.zero_add]
      simpa [row_inComment] using hrow

/-- A comment block counts every character before its end, which is no newline. -/
theorem blockComment_row {begin_ : SourcePos} (rest : List Char) :
    ∀ {step : Nat} {c : Char} {pos : SourcePos} {r : List Char × SourcePos},
      blockComment begin_ step c rest pos = .ok r →
        ∃ taken, rest = taken ++ r.1 ∧ r.2.row = pos.row + newlines (c :: taken) := by
  induction rest with
  | nil =>
    intro step c pos r h
    cases h
  | cons d rest ih =>
    intro step c pos r h
    unfold blockComment at h
    dsimp only at h
    split_ifs at h with hgo
    · obtain ⟨taken, hrest, hrow⟩ := ih h
      refine ⟨d :: taken, by rw [hrest, List.cons_append], ?_⟩
      rw [hrow, newlines_cons c, ← UInt32.add_assoc]
      simp [row_inComment]
    · simp only [not_or, not_not] at hgo
      obtain ⟨-, hc, hd⟩ := hgo
      cases h
      refine ⟨[d], rfl, ?_⟩
      rw [newlines_eq_zero (by simp [hc, hd]), UInt32.add_zero]
      rfl

/-! ## One round -/

/-- The text begins with the characters of a shift. -/
def beginsShift : List Char → Bool
  | '<' :: '<' :: _ => true
  | '>' :: '>' :: _ => true
  | _ => false

/-- What one round of the loop does with a text. -/
inductive Round (isAlphaNum : Char → Bool) (pos : SourcePos) :
    List Char → Option Token × List Char × SourcePos → Prop
  | blank {c : Char} (rest : List Char) (hc : c = ' ' ∨ c = '\t') :
      Round isAlphaNum pos (c :: rest) (none, rest, pos)
  | newline (rest : List Char) :
      Round isAlphaNum pos ('\n' :: rest) (none, rest, { pos with row := pos.row + 1, column := -1 })
  | carriageReturn (rest : List Char) :
      Round isAlphaNum pos ('\r' :: rest) (none, rest, { pos with column := -1 })
  | block {rest : List Char} {r : List Char × SourcePos} (hstar : rest.head? = some '*')
      (h : blockComment pos 2 '#' rest pos = .ok r) : Round isAlphaNum pos ('#' :: rest) (none, r)
  | lastHash : Round isAlphaNum pos ['#'] (none, [], pos)
  | line {rest : List Char} (hstar : rest.head? ≠ some '*') (hrest : rest ≠ []) :
      Round isAlphaNum pos ('#' :: rest) (none, lineComment '#' rest pos)
  | shift {c : Char} {type type' : TokenType} {rest : List Char} {r : Token × List Char × SourcePos}
      (hc : c = '<' ∨ c = '>')
      (h : testNextCharacter pos.advance [('=', type)] (some type') rest = .ok r) :
      Round isAlphaNum pos (c :: c :: rest) (some r.1, r.2)
  | operator {c : Char} {options : List (Char × TokenType)} {otherwise : Option TokenType}
      {rest : List Char} {r : Token × List Char × SourcePos}
      (hlook : lookAhead c = some (options, otherwise)) (hshift : beginsShift (c :: rest) = false)
      (h : testNextCharacter pos options otherwise rest = .ok r) :
      Round isAlphaNum pos (c :: rest) (some r.1, r.2)
  | word {c : Char} {s rest : List Char} {t : Token} (hhash : c ≠ '#') (hnewline : c ≠ '\n')
      (hlook : lookAhead c = none)
      (hs : ∀ d ∈ s, (isAlphaNum d || d = '_' || d = '.') = true)
      (ht : wordToken pos (c :: s) = .ok t) :
      Round isAlphaNum pos (c :: (s ++ rest)) (some t, rest,
        { pos with column := pos.column + .ofNat s.length,
                   character := pos.character + .ofNat s.length })

section Round

variable {isAlphaNum : Char → Bool} {c : Char} {rest rest' : List Char} {pos pos' : SourcePos}
  {t : Option Token}

theorem lexOne_round {r : Option Token × List Char × SourcePos}
    (h : lexOne isAlphaNum c rest pos = .ok r) : Round isAlphaNum pos (c :: rest) r := by
  have hother (hleft : ¬ (c = '<' ∧ rest.head? = some '<'))
      (hright : ¬ (c = '>' ∧ rest.head? = some '>')) : beginsShift (c :: rest) = false := by
    unfold beginsShift
    split
    · rename_i heq
      cases heq
      exact absurd ⟨rfl, rfl⟩ hleft
    · rename_i heq
      cases heq
      exact absurd ⟨rfl, rfl⟩ hright
    · rfl
  have hsymbol {p : List (Char × TokenType) × Option TokenType} (hlook : lookAhead c = some p)
      (hshift : beginsShift (c :: rest) = false) (h : (do
        let r ← testNextCharacter pos p.1 p.2 rest
        pure (some r.1, r.2) : Result (Option Token × List Char × SourcePos)) = .ok r) :
      Round isAlphaNum pos (c :: rest) r := by
    obtain ⟨r', hr', hpure⟩ := Outcome.bind_eq_ok.mp h
    cases hpure
    exact .operator hlook hshift hr'
  unfold lexOne at h
  dsimp only at h
  split_ifs at h with hblank hline hreturn hcomment hblock hlast hleft hright hstart
  · cases h
    exact .blank rest hblank
  · subst hline
    cases h
    exact .newline rest
  · subst hreturn
    cases h
    exact .carriageReturn rest
  · subst hcomment
    obtain ⟨r', hr', hpure⟩ := Outcome.bind_eq_ok.mp h
    cases hpure
    exact .block hblock hr'
  · subst hcomment hlast
    cases h
    exact .lastHash
  · subst hcomment
    cases h
    exact .line hblock hlast
  · obtain ⟨rfl, hhead⟩ := hleft
    obtain ⟨r', hr', hpure⟩ := Outcome.bind_eq_ok.mp h
    cases hpure
    rw [List.eq_cons_of_mem_head? hhead]
    exact .shift (.inl rfl) hr'
  · obtain ⟨rfl, hhead⟩ := hright
    obtain ⟨r', hr', hpure⟩ := Outcome.bind_eq_ok.mp h
    cases hpure
    rw [List.eq_cons_of_mem_head? hhead]
    exact .shift (.inr rfl) hr'
  · -- a character that begins no word
    cases hlook : lookAhead c with
    | some p =>
      rw [hlook] at h
      exact hsymbol hlook (hother hleft hright) h
    | none =>
      rw [hlook] at h
      cases h
  · cases hlook : lookAhead c with
    | some p =>
      rw [hlook] at h
      exact hsymbol hlook (hother hleft hright) h
    | none =>
      rw [hlook] at h
      obtain ⟨t, ht, hpure⟩ := Outcome.bind_eq_ok.mp h
      cases hpure
      have hparts : ∀ d ∈ rest.takeWhile fun d => isAlphaNum d || d = '_' || d = '.',
          (isAlphaNum d || d = '_' || d = '.') = true := by
        intro d hd
        have hpart := List.mem_takeWhile_imp hd
        exact hpart
      have htext : c :: rest =
          c :: ((rest.takeWhile fun d => isAlphaNum d || d = '_' || d = '.') ++
            rest.dropWhile fun d => isAlphaNum d || d = '_' || d = '.') := by
        rw [List.takeWhile_append_dropWhile]
      rw [htext]
      exact .word hcomment hline hlook hparts ht

/-- What was taken ends before `rest'`, the row moved on by its newlines, and the token has the row
it started in. -/
def Counts (c : Char) (rest : List Char) (pos : SourcePos)
    (r : Option Token × List Char × SourcePos) : Prop :=
  ∃ taken, c :: rest = taken ++ r.2.1 ∧ r.2.2.row = pos.row + newlines taken ∧
    ∀ t, r.1 = some t → t.pos.row = pos.row

theorem testNextCharacter_row {options : List (Char × TokenType)} {otherwise : Option TokenType}
    {r : Token × List Char × SourcePos} (hoptions : ∀ o ∈ options, o.1 ≠ '\n')
    (h : testNextCharacter pos options otherwise rest = .ok r) :
    ∃ taken, rest = taken ++ r.2.1 ∧ newlines taken = 0 ∧ r.2.2.row = pos.row ∧
      r.1.pos.row = pos.row := by
  unfold testNextCharacter at h
  dsimp only at h
  split at h
  · rename_i d rest
    split at h
    · rename_i o ho
      have hd : o.1 = d := by simpa using List.find?_some ho
      have hne := hoptions o (List.mem_of_find?_eq_some ho)
      cases h
      exact ⟨[d], rfl, newlines_eq_zero (by simpa [hd] using hne), rfl, rfl⟩
    · split at h
      · cases h
        exact ⟨[], rfl, rfl, rfl, rfl⟩
      · cases h
  · split at h
    · cases h
      exact ⟨[], rfl, rfl, rfl, rfl⟩
    · cases h

theorem wordToken_pos {s : List Char} {t : Token} (h : wordToken pos s = .ok t) :
    t.pos = pos := by
  unfold wordToken at h
  split_ifs at h
  · simp only [Outcome.bind_eq_ok, Outcome.pure_eq, Outcome.ok.injEq] at h
    obtain ⟨_, -, v, -, rfl⟩ := h
    rfl
  · split at h <;> cases h <;> rfl

/-- The second characters of operators are none of them newlines. -/
theorem lookAhead_newline {options : List (Char × TokenType)} {otherwise : Option TokenType}
    (h : lookAhead c = some (options, otherwise)) : c ≠ '\n' ∧ ∀ o ∈ options, o.1 ≠ '\n' := by
  unfold lookAhead at h
  split at h <;> cases h <;> decide

/-- One round of the loop. -/
theorem lexOne_counts (hnewline : isAlphaNum '\n' = false)
    {r : Option Token × List Char × SourcePos} (h : lexOne isAlphaNum c rest pos = .ok r) :
    Counts c rest pos r := by
  have hround := lexOne_round h
  clear h
  cases hround with
  | blank rest hc =>
    refine ⟨[c], rfl, ?_, by simp⟩
    rw [newlines_eq_zero (by rcases hc with rfl | rfl <;> simp), UInt32.add_zero]
  | newline rest => exact ⟨['\n'], rfl, by simp [newlines_cons], by simp⟩
  | carriageReturn rest => exact ⟨['\r'], rfl, by simp [newlines_cons], by simp⟩
  | block hstar h =>
    obtain ⟨taken, hrest, hrow⟩ := blockComment_row rest h
    exact ⟨'#' :: taken, by rw [hrest, List.cons_append], hrow, by simp⟩
  | lastHash => exact ⟨['#'], rfl, by simp [newlines_cons], by simp⟩
  | line hstar hrest =>
    obtain ⟨taken, hrest, hrow⟩ := lineComment_row rest '#' pos
    exact ⟨'#' :: taken, by rw [List.cons_append, ← hrest], hrow, by simp⟩
  | @shift _ type type' rest r hc h =>
    have hoptions : ∀ o ∈ [('=', type)], o.1 ≠ '\n' := by simp
    obtain ⟨taken, hrest, hnone, hrow, htoken⟩ := testNextCharacter_row hoptions h
    have hangles : newlines [c, c] = 0 :=
      newlines_eq_zero (by rcases hc with rfl | rfl <;> decide)
    refine ⟨[c, c] ++ taken, by rw [hrest]; rfl, ?_, ?_⟩
    · rw [hrow, newlines_append, hangles, hnone, UInt32.zero_add, UInt32.add_zero]
      rfl
    · rintro t ⟨⟩
      exact htoken
  | operator hlook hshift h =>
    obtain ⟨hc, hoptions⟩ := lookAhead_newline hlook
    obtain ⟨taken, hrest, hnone, hrow, htoken⟩ := testNextCharacter_row hoptions h
    refine ⟨c :: taken, by rw [hrest]; rfl, ?_, ?_⟩
    · rw [hrow, newlines_cons, if_neg hc, hnone, UInt32.zero_add, UInt32.add_zero]
    · rintro t ⟨⟩
      exact htoken
  | @word _ s rest t hhash hline hlook hs ht =>
    -- a word has no newline in it
    refine ⟨c :: s, rfl, ?_, ?_⟩
    · rw [newlines_eq_zero, UInt32.add_zero]
      intro d hd
      cases hd with
      | head => exact hline
      | tail _ hd =>
        have hpart := hs d hd
        rintro rfl
        simp [hnewline] at hpart
    · rintro t' ⟨⟩
      rw [wordToken_pos ht]

end Round

/-! ## The whole text -/

/-- `tokenize` without the end of the stream, and with the text that each token starts. -/
def tokenTexts (isAlphaNum : Char → Bool) :
    Nat → List Char → SourcePos → Result (List (Token × List Char))
  | _, [], _ => .ok []
  | 0, _ :: _, _ => .crash .outOfFuel
  | fuel + 1, c :: rest, pos => do
    let (t, rest', pos') ← lexOne isAlphaNum c rest pos.advance
    let ts ← tokenTexts isAlphaNum fuel rest' pos'
    pure (t.toList.map (·, c :: rest) ++ ts)

section Texts

variable {isAlphaNum : Char → Bool}

/-- The tokens of the loop are those with a text, and the end of the stream. -/
theorem tokenTexts_of_tokenizeLoop (fuel : Nat) : ∀ {source : List Char} {pos : SourcePos}
    {tokens : List Token}, tokenizeLoop isAlphaNum fuel source pos = .ok tokens →
      ∃ texts e, tokenTexts isAlphaNum fuel source pos = .ok texts ∧
        tokens = texts.map Prod.fst ++ [e] ∧ e.type = .endOfStream := by
  induction fuel with
  | zero =>
    intro source pos tokens h
    cases source with
    | nil =>
      cases h
      exact ⟨[], _, rfl, rfl, rfl⟩
    | cons c rest => cases h
  | succ fuel ih =>
    intro source pos tokens h
    cases source with
    | nil =>
      cases h
      exact ⟨[], _, rfl, rfl, rfl⟩
    | cons c rest =>
      obtain ⟨⟨t, rest', pos'⟩, hlex, h⟩ := Outcome.bind_eq_ok.mp h
      obtain ⟨ts, hts, hpure⟩ := Outcome.bind_eq_ok.mp h
      cases hpure
      obtain ⟨texts, e, htexts, rfl, he⟩ := ih hts
      refine ⟨t.toList.map (·, c :: rest) ++ texts, e, ?_, ?_, he⟩
      · simp only [tokenTexts, hlex, htexts, Outcome.ok_bind, Outcome.pure_eq]
      · cases t <;> simp

/-- Every token has the row of the place where its text starts. -/
theorem tokenTexts_rows (hnewline : isAlphaNum '\n' = false) (fuel : Nat) :
    ∀ {source : List Char} {pos : SourcePos} {texts : List (Token × List Char)},
      tokenTexts isAlphaNum fuel source pos = .ok texts →
        ∀ p ∈ texts, ∃ before, source = before ++ p.2 ∧ p.1.pos.row = pos.row + newlines before := by
  induction fuel with
  | zero =>
    intro source pos texts h
    cases source with
    | nil =>
      cases h
      simp
    | cons c rest => cases h
  | succ fuel ih =>
    intro source pos texts h p hp
    cases source with
    | nil =>
      cases h
      cases hp
    | cons c rest =>
      obtain ⟨⟨t, rest', pos'⟩, hlex, h⟩ := Outcome.bind_eq_ok.mp h
      obtain ⟨ts, hts, hpure⟩ := Outcome.bind_eq_ok.mp h
      cases hpure
      obtain ⟨taken, htaken, hrow, htoken⟩ := lexOne_counts hnewline hlex
      cases List.mem_append.mp hp with
      | inl hp =>
        obtain ⟨t', ht', rfl⟩ := List.mem_map.mp hp
        refine ⟨[], rfl, ?_⟩
        rw [newlines_nil, UInt32.add_zero]
        exact htoken t' (Option.mem_toList.mp ht')
      | inr hp =>
        obtain ⟨before, hbefore, hbeforeRow⟩ := ih hts p hp
        refine ⟨taken ++ before, ?_, ?_⟩
        · rw [htaken, hbefore, List.append_assoc]
        · rw [hbeforeRow, hrow, newlines_append, UInt32.add_assoc]
          rfl

/-- The row of a token is the number of newlines before its first character, as far as a row can
count. -/
theorem tokenize_rows (hlocale : AsciiLocale isAlphaNum) {source : List Char} {tokens : List Token}
    (h : tokenize isAlphaNum source = .ok tokens) :
    ∃ texts e, tokenTexts isAlphaNum source.length source (SourcePos.at 0 0 0) = .ok texts ∧
      tokens = texts.map Prod.fst ++ [e] ∧ e.type = .endOfStream ∧
      ∀ p ∈ texts, ∃ before, source = before ++ p.2 ∧
        p.1.pos.row.toNat = before.count '\n' % 2 ^ 32 := by
  obtain ⟨texts, e, htexts, htokens, he⟩ := tokenTexts_of_tokenizeLoop _ h
  refine ⟨texts, e, htexts, htokens, he, fun p hp => ?_⟩
  obtain ⟨before, hbefore, hrow⟩ := tokenTexts_rows (hlocale '\n' (by decide)) _ htexts p hp
  refine ⟨before, hbefore, ?_⟩
  have hzero : (SourcePos.at 0 0 0).row = 0 := rfl
  rw [hrow, hzero, UInt32.zero_add, newlines, UInt32.toNat_ofNat']

end Texts

/-- A block over two lines, a CRLF line end, and a line comment. -/
def commentedText : List Char := "a #*\n*# b\r\n# c\n\td".toList

theorem commentedText_rows :
    ∃ tokens, tokenize Char.isAlphanum commentedText = .ok tokens ∧
      ∃ texts e, tokenTexts Char.isAlphanum commentedText.length commentedText
          (SourcePos.at 0 0 0) = .ok texts ∧
        tokens = texts.map Prod.fst ++ [e] ∧ e.type = .endOfStream ∧
        ∀ p ∈ texts, ∃ before, commentedText = before ++ p.2 ∧
          p.1.pos.row.toNat = before.count '\n' % 2 ^ 32 := by
  have haccepted : (tokenize Char.isAlphanum commentedText).toOption.map
      (fun tokens => tokens.map fun t => t.pos.row) = some [0, 1, 3, 3] := by decide +kernel
  cases h : tokenize Char.isAlphanum commentedText with
  | ok tokens => exact ⟨tokens, rfl, tokenize_rows asciiLocale_isAlphanum h⟩
  | throw e => rw [h] at haccepted; cases haccepted
  | crash w => rw [h] at haccepted; cases haccepted

/-! ## A text with too many lines -/

/-- Empty lines, and then a name. -/
def linesThenName (n : Nat) : List Char := List.replicate n '\n' ++ ['a']

theorem tokenizeLoop_linesThenName (n : Nat) : ∀ fuel pos, n < fuel →
    ∃ t e : Token, tokenizeLoop Char.isAlphanum fuel (linesThenName n) pos = .ok [t, e] ∧
      tokenTexts Char.isAlphanum fuel (linesThenName n) pos = .ok [(t, ['a'])] ∧
      t.pos.row = pos.row + .ofNat n := by
  induction n with
  | zero =>
    intro fuel pos hfuel
    obtain ⟨fuel, rfl⟩ : ∃ k, fuel = k + 1 := ⟨fuel - 1, by omega⟩
    refine ⟨{ type := .stringLiteral, sValue := "a", pos := pos.advance },
      { type := .endOfStream, pos := { pos.advance with
          column := pos.advance.column + .ofNat 0, character := pos.advance.character + .ofNat 0 } },
      ?_, ?_, (UInt32.add_zero _).symm⟩
    · cases fuel <;> rfl
    · cases fuel <;> rfl
  | succ n ih =>
    intro fuel pos hfuel
    obtain ⟨fuel, rfl⟩ : ∃ k, fuel = k + 1 := ⟨fuel - 1, by omega⟩
    have hline : linesThenName (n + 1) = '\n' :: linesThenName n := rfl
    have hlex : lexOne Char.isAlphanum '\n' (linesThenName n) pos.advance =
        .ok (none, linesThenName n, { pos.advance with row := pos.row + 1, column := -1 }) := rfl
    obtain ⟨t, e, hloop, htexts, hrow⟩ := ih fuel
      { pos.advance with row := pos.row + 1, column := -1 } (by omega)
    refine ⟨t, e, ?_, ?_, ?_⟩
    · rw [hline, tokenizeLoop_cons hlex, hloop]
      rfl
    · rw [hline, tokenTexts, hlex, Outcome.ok_bind]
      dsimp only
      rw [htexts]
      rfl
    · rw [hrow, UInt32.ofNat_add, UInt32.add_comm (.ofNat n), ← UInt32.add_assoc]
      rfl

/-- After 2^32 newlines the row of the name is zero. -/
theorem linesThenName_row :
    ∃ tokens texts, tokenize Char.isAlphanum (linesThenName (2 ^ 32)) = .ok tokens ∧
      tokenTexts Char.isAlphanum (linesThenName (2 ^ 32)).length (linesThenName (2 ^ 32))
        (SourcePos.at 0 0 0) = .ok texts ∧
      ¬ ∀ p ∈ texts, ∃ before, linesThenName (2 ^ 32) = before ++ p.2 ∧
        p.1.pos.row.toNat = before.count '\n' := by
  have hlength : (linesThenName (2 ^ 32)).length = 2 ^ 32 + 1 := by
    rw [linesThenName, List.length_append, List.length_replicate, List.length_singleton]
  obtain ⟨t, e, hloop, htexts, hrow⟩ := tokenizeLoop_linesThenName (2 ^ 32)
    (linesThenName (2 ^ 32)).length (SourcePos.at 0 0 0) (by rw [hlength]; omega)
  refine ⟨[t, e], _, hloop, htexts, fun h => ?_⟩
  obtain ⟨before, hbefore, hcount⟩ := h (t, ['a']) (List.mem_singleton.mpr rfl)
  have hlines : before = List.replicate (2 ^ 32) '\n' := (List.append_cancel_right hbefore).symm
  have hzero : t.pos.row = 0 := hrow
  rw [hlines, List.count_replicate_self, hzero] at hcount
  exact absurd hcount (by decide)

end ThymioDeviceManager.Correctness
