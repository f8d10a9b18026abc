import ThymioDeviceManager.Correctness.TokenRows

/-! # The positions of tokens

Every character that is read moves the position on by one, so the position of a token is the index
of its first character, but for the tokens that begin with `<<` or `>>`: their second character is
read before they are created. What is in a comment makes no token.
-/

namespace ThymioDeviceManager.Correctness

open Compiler Library

theorem beginsShift_of_ne {c : Char} {rest : List Char} (hless : c ≠ '<') (hgreater : c ≠ '>') :
    beginsShift (c :: rest) = false := by
  unfold beginsShift
  split
  · rename_i heq
    cases heq
    exact absurd rfl hless
  · rename_i heq
    cases heq
    exact absurd rfl hgreater
  · rfl

/-- The first character of a word is no angle bracket. -/
theorem ne_of_lookAhead {c : Char} (h : lookAhead c = none) : c ≠ '<' ∧ c ≠ '>' := by
  constructor
  · rintro rfl
    cases h
  · rintro rfl
    cases h

section

variable {isAlphaNum : Char → Bool} {c : Char} {rest : List Char} {pos : SourcePos}

/-! ## Where a round ends -/

theorem character_inComment (pos : SourcePos) (c : Char) (counting : Bool) :
    (pos.inComment c counting).character = pos.character := by
  unfold SourcePos.inComment
  split_ifs <;> rfl

theorem lineComment_character (rest : List Char) : ∀ (c : Char) (pos : SourcePos),
    ∃ taken, rest = taken ++ (lineComment c rest pos).1 ∧
      ((lineComment c rest pos).1 ≠ [] →
        (lineComment c rest pos).2.character = pos.character + .ofNat taken.length) := by
  induction rest with
  | nil =>
    intro c pos
    refine ⟨[], ?_, ?_⟩
    · unfold lineComment
      split_ifs <;> rfl
    · unfold lineComment
      split_ifs <;> simp
  | cons d rest ih =>
    intro c pos
    unfold lineComment
    by_cases hline : c = '\n'
    · rw [if_pos hline]
      exact ⟨[], rfl, fun _ => (UInt32.add_zero _).symm⟩
    by_cases hreturn : c = '\r'
    · rw [if_neg hline, if_pos hreturn]
      exact ⟨[], rfl, fun _ => (UInt32.add_zero _).symm⟩
    · rw [if_neg hline, if_neg hreturn]
      obtain ⟨taken, hrest, hcharacter⟩ := ih d { pos.inComment c false with
        character := (pos.inComment c false).character + 1 }
      refine ⟨d :: taken, by rw [List.cons_append, ← hrest], fun hne => ?_⟩
      rw [hcharacter hne, character_inComment, List.length_cons, UInt32.ofNat_add, UInt32.add_assoc,
        UInt32.add_comm 1]
      rfl

theorem blockComment_character {begin_ : SourcePos} (rest : List Char) :
    ∀ {step : Nat} {c : Char} {pos : SourcePos} {r : List Char × SourcePos},
      blockComment begin_ step c rest pos = .ok r →
        ∃ taken, rest = taken ++ r.1 ∧ r.2.character = pos.character + .ofNat taken.length := by
  induction rest with
  | nil =>
    intro step c pos r h
    cases h
  | cons d rest ih =>
    intro step c pos r h
    unfold blockComment at h
    dsimp only at h
    split_ifs at h with hgo
    · obtain ⟨taken, hrest, hcharacter⟩ := ih h
      refine ⟨d :: taken, by rw [hrest, List.cons_append], ?_⟩
      rw [hcharacter, character_inComment, List.length_cons, UInt32.ofNat_add, UInt32.add_assoc,
        UInt32.add_comm 1]
      rfl
    · cases h
      exact ⟨[d], rfl, rfl⟩

theorem testNextCharacter_character {options : List (Char × TokenType)}
    {otherwise : Option TokenType} {r : Token × List Char × SourcePos}
    (h : testNextCharacter pos options otherwise rest = .ok r) :
    r.1.pos = pos ∧ ∃ taken, rest = taken ++ r.2.1 ∧
      (taken = [] ∨ ∃ o ∈ options, taken = [o.1]) ∧
      r.2.2.character = pos.character + .ofNat taken.length := by
  unfold testNextCharacter at h
  dsimp only at h
  split at h
  · rename_i d rest
    split at h
    · rename_i o ho
      obtain rfl : o.1 = d := by simpa using List.find?_some ho
      cases h
      exact ⟨rfl, [o.1], rfl, .inr ⟨o, List.mem_of_find?_eq_some ho, rfl⟩, rfl⟩
    · split at h
      · cases h
        exact ⟨rfl, [], rfl, .inl rfl, (UInt32.add_zero _).symm⟩
      · cases h
  · split at h
    · cases h
      exact ⟨rfl, [], rfl, .inl rfl, (UInt32.add_zero _).symm⟩
    · cases h

/-- What a round takes begins with a character, at which it is; the position moves over the others,
unless the text ends. -/
theorem Round.character {r : Option Token × List Char × SourcePos}
    (h : Round isAlphaNum pos (c :: rest) r) :
    (∃ taken, rest = taken ++ r.2.1 ∧
      (r.2.1 ≠ [] → r.2.2.character = pos.character + .ofNat taken.length)) ∧
      ∀ t, r.1 = some t →
        t.pos.character = pos.character + if beginsShift (c :: rest) then 1 else 0 := by
  cases h with
  | blank rest hc => exact ⟨⟨[], rfl, fun _ => (UInt32.add_zero _).symm⟩, by simp⟩
  | newline rest => exact ⟨⟨[], rfl, fun _ => (UInt32.add_zero _).symm⟩, by simp⟩
  | carriageReturn rest => exact ⟨⟨[], rfl, fun _ => (UInt32.add_zero _).symm⟩, by simp⟩
  | block hstar h =>
    obtain ⟨taken, htaken, hcharacter⟩ := blockComment_character rest h
    exact ⟨⟨taken, htaken, fun _ => hcharacter⟩, by simp⟩
  | lastHash => exact ⟨⟨[], rfl, fun h => absurd rfl h⟩, by simp⟩
  | line hstar hrest => exact ⟨lineComment_character rest '#' pos, by simp⟩
  | @shift _ type type' rest r hc h =>
    obtain ⟨hpos, taken, rfl, -, hcharacter⟩ := testNextCharacter_character h
    refine ⟨⟨c :: taken, rfl, fun _ => ?_⟩, ?_⟩
    · rw [hcharacter, List.length_cons, UInt32.ofNat_add, UInt32.add_comm (.ofNat taken.length),
        ← UInt32.add_assoc]
      rfl
    · rintro t ⟨⟩
      have hshift : beginsShift (c :: c :: (taken ++ r.2.1)) = true := by
        rcases hc with rfl | rfl <;> rfl
      rw [hpos, hshift, if_pos rfl]
      rfl
  | operator hlook hshift h =>
    obtain ⟨hpos, taken, rfl, -, hcharacter⟩ := testNextCharacter_character h
    refine ⟨⟨taken, rfl, fun _ => hcharacter⟩, ?_⟩
    rintro t ⟨⟩
    rw [hpos, hshift, if_neg Bool.false_ne_true, UInt32.add_zero]
  | @word _ s rest t hhash hnewline hlook hs ht =>
    refine ⟨⟨s, rfl, fun _ => rfl⟩, ?_⟩
    rintro t' ⟨⟩
    have hshift : beginsShift (c :: (s ++ rest)) = false :=
      beginsShift_of_ne (ne_of_lookAhead hlook).1 (ne_of_lookAhead hlook).2
    rw [wordToken_pos ht, hshift, if_neg Bool.false_ne_true, UInt32.add_zero]

end

/-! ## Shifts outside comments -/

/-- Where a character is: outside comments, in a comment up to the end of the line, or in a block,
whose first two and last two characters are apart from the others. -/
inductive Place where
  | code
  | line
  | opening
  | block
  | closing

/-- Two angle brackets of one kind follow each other outside comments. -/
def hasShift : Place → List Char → Bool
  | _, [] => false
  | .code, c :: rest =>
    if c = '#' then hasShift (if rest.head? = some '*' then .opening else .line) rest
    else beginsShift (c :: rest) || hasShift .code rest
  | .line, c :: rest => hasShift (if c = '\n' ∨ c = '\r' then .code else .line) rest
  | .opening, _ :: rest => hasShift .block rest
  | .block, c :: rest => hasShift (if c = '*' ∧ rest.head? = some '#' then .closing else .block) rest
  | .closing, _ :: rest => hasShift .code rest

theorem hasShift_line_cons (c : Char) (rest : List Char) : hasShift .line (c :: rest) =
    hasShift (if c = '\n' ∨ c = '\r' then .code else .line) rest := rfl

theorem hasShift_block_cons (c : Char) (rest : List Char) : hasShift .block (c :: rest) =
    hasShift (if c = '*' ∧ rest.head? = some '#' then .closing else .block) rest := rfl

theorem hasShift_code_cons {c : Char} {rest : List Char} (hc : c ≠ '#') :
    hasShift .code (c :: rest) = (beginsShift (c :: rest) || hasShift .code rest) := by
  rw [hasShift, if_neg hc]

/-- A character that is neither an angle bracket nor a hash. -/
theorem hasShift_code_of_ne {c : Char} {rest : List Char} (hhash : c ≠ '#') (hless : c ≠ '<')
    (hgreater : c ≠ '>') : hasShift .code (c :: rest) = hasShift .code rest := by
  rw [hasShift_code_cons hhash, beginsShift_of_ne hless hgreater, Bool.false_or]

theorem hasShift_lineComment (rest : List Char) : ∀ (c : Char) (pos : SourcePos),
    hasShift .line (c :: rest) = hasShift .code (lineComment c rest pos).1 := by
  induction rest with
  | nil =>
    intro c pos
    unfold lineComment
    split_ifs <;> simp [hasShift]
  | cons d rest ih =>
    intro c pos
    unfold lineComment
    by_cases hline : c = '\n'
    · rw [if_pos hline, hasShift_line_cons, if_pos (.inl hline)]
    by_cases hreturn : c = '\r'
    · rw [if_neg hline, if_pos hreturn, hasShift_line_cons, if_pos (.inr hreturn)]
    · rw [if_neg hline, if_neg hreturn, hasShift_line_cons, if_neg (by simp [hline, hreturn])]
      exact ih d _

theorem blockComment_passes (begin_ : SourcePos) (step : Nat) (c d : Char) (rest : List Char)
    (pos : SourcePos) : ∃ pos', blockComment begin_ (step + 1) c (d :: rest) pos =
      blockComment begin_ step d rest pos' := by
  rw [blockComment]
  exact ⟨_, if_pos (.inl (Nat.succ_pos step))⟩

theorem hasShift_blockComment {begin_ : SourcePos} (rest : List Char) :
    ∀ {c : Char} {pos : SourcePos} {r : List Char × SourcePos},
      blockComment begin_ 0 c rest pos = .ok r →
        hasShift .block (c :: rest) = hasShift .code r.1 := by
  induction rest with
  | nil =>
    intro c pos r h
    cases h
  | cons d rest ih =>
    intro c pos r h
    unfold blockComment at h
    dsimp only at h
    split_ifs at h with hgo
    · have hnot : ¬ (c = '*' ∧ (d :: rest).head? = some '#') := by
        rintro ⟨hc, hd⟩
        rw [List.head?_cons, Option.some.injEq] at hd
        simp [hc, hd] at hgo
      rw [hasShift_block_cons, if_neg hnot]
      exact ih h
    · simp only [not_or, not_not] at hgo
      cases h
      rw [hasShift_block_cons, if_pos ⟨hgo.2.1, by rw [hgo.2.2]; rfl⟩]
      rfl

theorem hasShift_append {s rest : List Char}
    (hs : ∀ d ∈ s, d ≠ '#' ∧ d ≠ '<' ∧ d ≠ '>') :
    hasShift .code (s ++ rest) = hasShift .code rest := by
  induction s with
  | nil => rfl
  | cons d s ih =>
    obtain ⟨hhash, hless, hgreater⟩ := hs d List.mem_cons_self
    rw [List.cons_append, hasShift_code_of_ne hhash hless hgreater]
    exact ih fun d' hd' => hs d' (List.mem_cons_of_mem _ hd')

theorem lookAhead_options {c : Char} {options : List (Char × TokenType)}
    {otherwise : Option TokenType} (h : lookAhead c = some (options, otherwise)) :
    c ≠ '#' ∧ ∀ o ∈ options, o.1 ≠ '#' ∧ o.1 ≠ '<' ∧ o.1 ≠ '>' := by
  unfold lookAhead at h
  split at h <;> cases h <;> decide

/-- A round takes a token that begins with a shift, or text without one. -/
theorem Round.hasShift_iff {isAlphaNum : Char → Bool} (hlocale : AsciiLocale isAlphaNum) {c : Char}
    {rest : List Char} {pos : SourcePos} {r : Option Token × List Char × SourcePos}
    (h : Round isAlphaNum pos (c :: rest) r) :
    hasShift .code (c :: rest) = true ↔
      (r.1.isSome ∧ beginsShift (c :: rest) = true) ∨ hasShift .code r.2.1 = true := by
  cases h with
  | blank rest hc =>
    have hne : c ≠ '#' ∧ c ≠ '<' ∧ c ≠ '>' := by rcases hc with rfl | rfl <;> decide
    simp [hasShift_code_of_ne hne.1 hne.2.1 hne.2.2]
  | newline rest => simp [hasShift_code_of_ne]
  | carriageReturn rest => simp [hasShift_code_of_ne]
  | block hstar h =>
    obtain ⟨rest', rfl⟩ : ∃ rest', rest = '*' :: rest' := ⟨_, List.eq_cons_of_mem_head? hstar⟩
    cases rest' with
    | nil => cases h
    | cons d rest' =>
      -- the hash and the star are passed before the end is looked for
      obtain ⟨pos₁, hhash⟩ := blockComment_passes pos 1 '#' '*' (d :: rest') pos
      obtain ⟨pos₂, hstar⟩ := blockComment_passes pos 0 '*' d rest' pos₁
      rw [hhash, hstar] at h
      simpa [hasShift] using hasShift_blockComment rest' h
  | lastHash => simp [hasShift]
  | line hstar hrest =>
    cases rest with
    | nil => exact absurd rfl hrest
    | cons d rest =>
      have hplace : hasShift .code ('#' :: d :: rest) = hasShift .line (d :: rest) := by
        rw [hasShift, if_pos rfl, if_neg hstar]
      have hpassed : (lineComment '#' (d :: rest) pos).1 = (lineComment d rest
          { pos.inComment '#' false with
            character := (pos.inComment '#' false).character + 1 }).1 := rfl
      rw [hplace, hpassed, ← hasShift_lineComment]
      simp
  | @shift _ type type' rest r hc h =>
    have hshift : beginsShift (c :: c :: rest) = true := by
      rcases hc with rfl | rfl <;> rfl
    have hhash : c ≠ '#' := by rcases hc with rfl | rfl <;> decide
    simp [hasShift_code_cons hhash, hshift]
  | operator hlook hshift h =>
    obtain ⟨hhash, hoptions⟩ := lookAhead_options hlook
    obtain ⟨-, taken, rfl, htaken, -⟩ := testNextCharacter_character h
    have hne : ∀ d ∈ taken, d ≠ '#' ∧ d ≠ '<' ∧ d ≠ '>' := by
      rcases htaken with rfl | ⟨o, ho, rfl⟩
      · simp
      · simpa using hoptions o ho
    rw [hasShift_code_cons hhash, hshift, Bool.false_or, hasShift_append hne]
    simp
  | @word _ s rest t hhash hnewline hlook hs ht =>
    have hne : ∀ d ∈ s, d ≠ '#' ∧ d ≠ '<' ∧ d ≠ '>' := by
      intro d hd
      have hpart := hs d hd
      refine ⟨?_, ?_, ?_⟩ <;> rintro rfl <;> simp [hlocale _, Char.isAlphanum] at hpart
    rw [hasShift_code_of_ne hhash (ne_of_lookAhead hlook).1 (ne_of_lookAhead hlook).2,
      hasShift_append hne, beginsShift_of_ne (ne_of_lookAhead hlook).1 (ne_of_lookAhead hlook).2]
    simp

/-! ## The whole text -/

section

variable {isAlphaNum : Char → Bool}

/-- The position of a token counts the characters before it, and the first one of a shift. -/
theorem tokenTexts_positions (fuel : Nat) :
    ∀ {source : List Char} {pos : SourcePos} {texts : List (Token × List Char)},
      tokenTexts isAlphaNum fuel source pos = .ok texts → ∀ p ∈ texts, ∃ before,
        source = before ++ p.2 ∧ p.1.pos.character =
          pos.character + 1 + .ofNat before.length + if beginsShift p.2 then 1 else 0 := by
  induction fuel with
  | zero =>
    intro source pos texts h
    cases source with
    | nil =>
      cases h
      simp
    | cons c rest => cases h
  | succ fuel ih =>
    intro source pos texts h p hp
    cases source with
    | nil =>
      cases h
      cases hp
    | cons c rest =>
      obtain ⟨⟨t, rest', pos'⟩, hlex, h⟩ := Outcome.bind_eq_ok.mp h
      obtain ⟨ts, hts, hpure⟩ := Outcome.bind_eq_ok.mp h
      cases hpure
      obtain ⟨⟨taken, htaken, hcharacter⟩, htoken⟩ := (lexOne_round hlex).character
      cases List.mem_append.mp hp with
      | inl hp =>
        obtain ⟨t', ht', rfl⟩ := List.mem_map.mp hp
        refine ⟨[], rfl, ?_⟩
        rw [htoken t' (Option.mem_toList.mp ht'), List.length_nil]
        simp [SourcePos.advance]
      | inr hp =>
        have hne : rest' ≠ [] := by
          rintro rfl
          rw [tokenTexts] at hts
          cases hts
          cases hp
        obtain ⟨before, hbefore, hposition⟩ := ih hts p hp
        refine ⟨c :: (taken ++ before), ?_, ?_⟩
        · rw [htaken, hbefore, List.cons_append, List.append_assoc]
        · have hpos' : pos'.character = pos.character + 1 + .ofNat taken.length := hcharacter hne
          rw [hposition, hpos', List.length_cons, List.length_append, UInt32.ofNat_add,
            UInt32.ofNat_add]
          have hone : UInt32.ofNat 1 = 1 := rfl
          rw [hone]
          ac_rfl

theorem hasShift_iff (hlocale : AsciiLocale isAlphaNum) (fuel : Nat) :
    ∀ {source : List Char} {pos : SourcePos} {texts : List (Token × List Char)},
      tokenTexts isAlphaNum fuel source pos = .ok texts →
        (hasShift .code source = true ↔ ∃ p ∈ texts, beginsShift p.2 = true) := by
  induction fuel with
  | zero =>
    intro source pos texts h
    cases source with
    | nil =>
      cases h
      simp [hasShift]
    | cons c rest => cases h
  | succ fuel ih =>
    intro source pos texts h
    cases source with
    | nil =>
      cases h
      simp [hasShift]
    | cons c rest =>
      obtain ⟨⟨t, rest', pos'⟩, hlex, h⟩ := Outcome.bind_eq_ok.mp h
      obtain ⟨ts, hts, hpure⟩ := Outcome.bind_eq_ok.mp h
      cases hpure
      rw [(lexOne_round hlex).hasShift_iff hlocale, ih hts]
      cases t with
      | none => simp
      | some t => simp

/-- A counter that is one ahead is never right. -/
theorem counter_eq_iff (n : Nat) (ahead : Bool) :
    (UInt32.ofNat n + if ahead then 1 else 0).toNat = n ↔ ahead = false ∧ n < 2 ^ 32 := by
  cases ahead with
  | false =>
    rw [if_neg Bool.false_ne_true, UInt32.add_zero, UInt32.toNat_ofNat']
    refine ⟨fun h => ⟨rfl, ?_⟩, fun h => Nat.mod_eq_of_lt h.2⟩
    rw [← h]
    exact Nat.mod_lt _ (by decide)
  | true =>
    rw [if_pos rfl, UInt32.toNat_add, UInt32.toNat_ofNat']
    have hone : (1 : UInt32).toNat = 1 := rfl
    refine ⟨fun h => ?_, fun h => by cases h.1⟩
    rw [hone] at h
    omega

/-- Every token is at the index of its first character, if two angle brackets of one kind follow
each other in comments only, and if the indices of the tokens fit into the counter. -/
theorem token_positions_iff (hlocale : AsciiLocale isAlphaNum) {source : List Char}
    {tokens : List Token} (h : tokenize isAlphaNum source = .ok tokens) :
    ∃ texts e, tokenTexts isAlphaNum source.length source (SourcePos.at 0 0 0) = .ok texts ∧
      tokens = texts.map Prod.fst ++ [e] ∧ e.type = .endOfStream ∧
      ((∀ p ∈ texts, ∃ before, source = before ++ p.2 ∧
          p.1.pos.character.toNat = before.length) ↔
        hasShift .code source = false ∧ ∀ p ∈ texts, source.length - p.2.length < 2 ^ 32) := by
  obtain ⟨texts, e, htexts, htokens, he⟩ := tokenTexts_of_tokenizeLoop _ h
  refine ⟨texts, e, htexts, htokens, he, ?_⟩
  have hpositions := tokenTexts_positions _ htexts
  have hright : ∀ p ∈ texts, (∃ before, source = before ++ p.2 ∧
      p.1.pos.character.toNat = before.length) ↔
        beginsShift p.2 = false ∧ source.length - p.2.length < 2 ^ 32 := by
    intro p hp
    obtain ⟨before, hbefore, hcharacter⟩ := hpositions p hp
    have hindex : source.length - p.2.length = before.length := by
      rw [hbefore, List.length_append]
      omega
    have hstart : (SourcePos.at 0 0 0).character + 1 = 0 := rfl
    rw [hstart, UInt32.zero_add] at hcharacter
    rw [hindex, ← counter_eq_iff, ← hcharacter]
    constructor
    · rintro ⟨before', hbefore', hequal⟩
      rwa [← List.append_cancel_right (hbefore'.symm.trans hbefore)]
    · intro hequal
      exact ⟨before, hbefore, hequal⟩
  have hnone : hasShift .code source = false ↔ ∀ p ∈ texts, beginsShift p.2 = false := by
    rw [← Bool.not_eq_true, hasShift_iff hlocale _ htexts]
    simp
  rw [hnone, ← forall₂_and]
  exact forall₂_congr hright

end

/-- A shift in a comment, and operators of two characters. -/
def commentedShift : List Char := "a # <<\n b += 1".toList

theorem commentedShift_positions :
    ∃ tokens, tokenize Char.isAlphanum commentedShift = .ok tokens ∧
      ∃ texts e, tokenTexts Char.isAlphanum commentedShift.length commentedShift
          (SourcePos.at 0 0 0) = .ok texts ∧
        tokens = texts.map Prod.fst ++ [e] ∧ e.type = .endOfStream ∧
        ∀ p ∈ texts, ∃ before, commentedShift = before ++ p.2 ∧
          p.1.pos.character.toNat = before.length := by
  have haccepted : (tokenize Char.isAlphanum commentedShift).toOption.isSome := by decide +kernel
  cases h : tokenize Char.isAlphanum commentedShift with
  | ok tokens =>
    obtain ⟨texts, e, htexts, htokens, he, hiff⟩ := token_positions_iff asciiLocale_isAlphanum h
    refine ⟨tokens, rfl, texts, e, htexts, htokens, he, hiff.mpr ⟨by decide +kernel, ?_⟩⟩
    intro p _
    have hlength : commentedShift.length = 14 := by decide +kernel
    omega
  | throw e => rw [h] at haccepted; cases haccepted
  | crash w => rw [h] at haccepted; cases haccepted

/-- The shift of `a<<b` is said to be at 2, where its second character is. -/
theorem shift_position :
    ∃ tokens texts, tokenize Char.isAlphanum ['a', '<', '<', 'b'] = .ok tokens ∧
      tokenTexts Char.isAlphanum 4 ['a', '<', '<', 'b'] (SourcePos.at 0 0 0) = .ok texts ∧
      texts.map (fun p => (p.1.type, p.1.pos.character, p.2.length)) =
        [(.stringLiteral, 0, 4), (.opShiftLeft, 2, 3), (.stringLiteral, 3, 1)] ∧
      ¬ ∀ p ∈ texts, ∃ before, ['a', '<', '<', 'b'] = before ++ p.2 ∧
        p.1.pos.character.toNat = before.length := by
  refine ⟨_, _, rfl, rfl, rfl, fun h => ?_⟩
  obtain ⟨before, hbefore, hequal⟩ := h _ (List.mem_cons_of_mem _ List.mem_cons_self)
  have hlength : 4 = before.length + 3 :=
    (congrArg List.length hbefore).trans (List.length_append ..)
  have hcharacter : 2 = before.length := hequal
  omega

end ThymioDeviceManager.Correctness
