import LineBasic.Proofs.Token.Spelling
import Mathlib.Data.List.Chain

/-!
Tokens that are written one after another, with a blank between two of them, are scanned back.
-/

namespace LineBasic

open List

/-- A token that is to be written: its kind and its text. -/
abbrev Word := TokenKind × String

/-- The words with a blank between two of them. -/
def printed (words : List Word) : String :=
  " ".intercalate (words.map Prod.snd)

/-- What a word asks of the next one: newlines do not follow each other, a remark ends at once, and
`GO` is not completed to a reserved word. -/
structure Precedes (word next : Word) : Prop where
  newline : word.1 = .separator .newline → next.1 ≠ .separator .newline
  remark : word.1 = .keyword .REM → next.1 = .separator .newline
  goTo : word = (.identifier, "GO") → next.1 ≠ .keyword .TO

/-- Words that are tokens of a text, each of them told apart from the next one. -/
structure Printable (words : List Word) : Prop where
  spelled : ∀ word ∈ words, Spells word.1 word.2.toList
  chained : words.IsChain Precedes
  first : ∀ word ∈ words.head?, word.1 ≠ .separator .newline
  last : ∀ word ∈ words.getLast?, word.1 = .separator .newline

namespace Lexeme

variable {first : Char} {rest body after : List Char} {kind : TokenKind}

/-- A text that ends, or goes on with a blank. -/
def Breaks (after : List Char) : Prop :=
  ∀ c ∈ after.head?, c = ' '

theorem takeWhile_append {p : Char → Bool} (all : ∀ c ∈ rest, p c) (blank : p ' ' = false)
    (breaks : Breaks after) : (rest ++ after).takeWhile p = rest := by
  rw [takeWhile_append_of_pos all]
  cases after with
  | nil => simp
  | cons c after =>
    obtain rfl : c = ' ' := breaks c rfl
    simp [blank]

/-- The lexeme of a token that is written with one character and those in `rest`, and then `after`.
Only behind `REM` anything is dropped. -/
def whole (kind : TokenKind) (rest after : List Char) : Lexeme where
  outcome := .ok kind
  more := rest.length
  dropped := if kind = .keyword .REM then (after.takeWhile (· != '\n')).length else 0

theorem word_keyword {keyword : Keyword} (all : ∀ c ∈ rest, isWordChar c) (breaks : Breaks after)
    (spelled : Keyword.ofSpelling? (String.ofList (first :: rest)) = some keyword) :
    word first (rest ++ after) = whole (.keyword keyword) rest after := by
  have other : String.ofList (first :: rest) ≠ "GO" := by
    intro same
    rw [same] at spelled
    cases spelled
  unfold word
  rw [takeWhile_append all (by decide) breaks]
  dsimp only
  rw [drop_left, if_neg other, spelled]
  cases keyword <;> rfl

theorem word_identifier (all : ∀ c ∈ rest, isWordChar c) (breaks : Breaks after)
    (other : Keyword.ofSpelling? (String.ofList (first :: rest)) = none)
    (alone : String.ofList (first :: rest) = "GO" → secondWord after = none) :
    word first (rest ++ after) = whole .identifier rest after := by
  have single : (if String.ofList (first :: rest) = "GO" then secondWord after else none) = none := by
    split
    next same => exact alone same
    next => rfl
  unfold word
  rw [takeWhile_append all (by decide) breaks]
  dsimp only
  rw [drop_left, single, other]
  rfl

theorem secondWord_append {blanks : List Char} (some : blanks ≠ [])
    (all : ∀ c ∈ blanks, c = ' ' ∨ c = '\t') (breaks : Breaks after) :
    secondWord (blanks ++ 'T' :: 'O' :: after) = .some (blanks.length + 2) := by
  have taken : (blanks ++ 'T' :: 'O' :: after).takeWhile (fun c => c == ' ' || c == '\t') = blanks := by
    rw [takeWhile_append_of_pos (by simpa using all)]
    simp
  have stops : after.head?.any isWordChar = false := by
    cases after with
    | nil => rfl
    | cons c after =>
      obtain rfl : c = ' ' := breaks c rfl
      show isWordChar ' ' = false
      decide
  unfold secondWord
  rw [taken]
  dsimp only
  rw [drop_left]
  simp [some, stops]

theorem word_goTo {blanks : List Char} (some : blanks ≠ [])
    (all : ∀ c ∈ blanks, c = ' ' ∨ c = '\t') (breaks : Breaks after) :
    word 'G' (('O' :: (blanks ++ ['T', 'O'])) ++ after) =
      whole (.keyword .GOTO) ('O' :: (blanks ++ ['T', 'O'])) after := by
  have parts : ('O' :: (blanks ++ ['T', 'O'])) ++ after = ['O'] ++ (blanks ++ 'T' :: 'O' :: after) := by
    simp
  have taken : (['O'] ++ (blanks ++ 'T' :: 'O' :: after)).takeWhile isWordChar = ['O'] := by
    obtain ⟨c, others, rfl⟩ := exists_cons_of_ne_nil some
    rcases all c (mem_cons_self ..) with rfl | rfl <;> rfl
  unfold word
  rw [parts, taken]
  dsimp only
  rw [drop_left, secondWord_append some all breaks]
  simp [whole, ofKind]
  omega

theorem stringTail_append (h : IsQuotable body) :
    stringTail (body ++ '"' :: after) = (true, body.length + 1) := by
  induction h with
  | nil => rfl
  | plain newline quote backslash _ ih =>
    rw [cons_append, stringTail.eq_7 _ _ quote newline (fun _ same _ => backslash same)
      (fun _ _ same _ => backslash same) (fun same _ => backslash same), ih]
    rfl
  | escape newline _ ih =>
    rw [cons_append, cons_append, stringTail.eq_5 _ _ newline, ih]
    rfl

theorem digits_append (all : ∀ c ∈ rest, c.isDigit) (breaks : Breaks after) :
    digits (rest ++ after) = rest.length := by
  rw [digits, takeWhile_append all (by decide) breaks]

theorem number_integer (all : ∀ c ∈ rest, c.isDigit) (breaks : Breaks after) :
    number (rest ++ after) = whole (.literal .integer) rest after := by
  unfold number
  rw [digits_append all breaks]
  dsimp only
  rw [drop_left]
  cases after with
  | nil => rfl
  | cons c after =>
    obtain rfl : c = ' ' := breaks c rfl
    rfl

theorem number_decimal {fraction : List Char} (all : ∀ c ∈ rest, c.isDigit) (some : fraction ≠ [])
    (digit : ∀ c ∈ fraction, c.isDigit) (breaks : Breaks after) :
    number ((rest ++ '.' :: fraction) ++ after) =
      whole (.literal .decimal) (rest ++ '.' :: fraction) after := by
  obtain ⟨d, others, rfl⟩ := exists_cons_of_ne_nil some
  have taken : digits (rest ++ '.' :: (d :: others ++ after)) = rest.length := by
    rw [digits, takeWhile_append_of_pos all]
    simp
  rw [append_assoc, cons_append]
  unfold number
  rw [taken]
  dsimp only
  rw [drop_left]
  simp only [cons_append, digit d (mem_cons_self ..), if_true,
    digits_append (fun c mem => digit c (mem_cons_of_mem _ mem)) breaks]
  simp [whole, ofKind]
  omega

theorem fraction_decimal (some : rest ≠ []) (digit : ∀ c ∈ rest, c.isDigit) (breaks : Breaks after) :
    fraction (rest ++ after) = whole (.literal .decimal) rest after := by
  unfold fraction
  rw [digits_append digit breaks]
  split
  next none => exact absurd (eq_nil_of_length_eq_zero none) some
  next => rfl

theorem scan_spelled (h : Spells kind (first :: rest)) (breaks : Breaks after)
    (alone : kind = .identifier → String.ofList (first :: rest) = "GO" → secondWord after = none) :
    scan first (rest ++ after) = whole kind rest after := by
  generalize eq : first :: rest = text at h
  cases h with
  | identifier isLetter isWord other =>
    cases eq
    rw [scan_letter isLetter, word_identifier isWord breaks other (alone rfl)]
  | keyword word =>
    have spelled := Keyword.ofSpelling?_spelling word
    rw [← word.spelling.ofList_toList, ← eq] at spelled
    have letters : isLetter first ∧ rest.all isWordChar = true := by
      cases word <;> (cases eq; decide)
    rw [scan_letter letters.1, word_keyword (all_eq_true.mp letters.2) breaks spelled]
  | goTo some all =>
    cases eq
    rw [scan_letter (by decide), word_goTo some all breaks]
  | separator mark =>
    cases eq
    cases mark <;> rfl
  | operator operator =>
    cases after with
    | nil => cases operator <;> (cases eq; rfl)
    | cons c after =>
      obtain rfl : c = ' ' := breaks c rfl
      cases operator <;> (cases eq; rfl)
  | integer some all =>
    subst eq
    rw [scan_digit (all first (mem_cons_self ..)),
      number_integer (fun c mem => all c (mem_cons_of_mem _ mem)) breaks]
  | @decimal whole fraction all some digit =>
    cases whole with
    | nil =>
      cases eq
      exact fraction_decimal some digit breaks
    | cons d whole =>
      rw [cons_append] at eq
      obtain ⟨rfl, rfl⟩ := List.cons.inj eq
      rw [scan_digit (all first (mem_cons_self ..)),
        number_decimal (fun c mem => all c (mem_cons_of_mem _ mem)) some digit breaks]
  | @text body isQuotable =>
    cases eq
    show string _ = _
    rw [string, append_assoc, singleton_append, stringTail_append isQuotable]
    simp [whole, ofKind]

theorem isGap_of_spells (h : Spells kind (first :: rest)) : isGap first = false := by
  have plain {p : Char → Bool} (holds : p first) (space : p ' ' = false) (tab : p '\t' = false)
      (back : p '\r' = false) : isGap first = false := by
    rw [isGap]
    simp only [Bool.or_eq_false_iff, beq_eq_false_iff_ne]
    refine ⟨⟨?_, ?_⟩, ?_⟩ <;> (rintro rfl; simp_all)
  generalize eq : first :: rest = text at h
  cases h with
  | identifier isLetter _ _ =>
    cases eq
    exact plain isLetter (by decide) (by decide) (by decide)
  | keyword word => cases word <;> (cases eq; rfl)
  | goTo => cases eq; rfl
  | separator mark => cases mark <;> (cases eq; rfl)
  | operator operator => cases operator <;> (cases eq; rfl)
  | integer _ all =>
    subst eq
    exact plain (all first (mem_cons_self ..)) (by decide) (by decide) (by decide)
  | @decimal whole _ all =>
    cases whole with
    | nil => cases eq; rfl
    | cons d whole =>
      cases eq
      exact plain (all first (mem_cons_self ..)) (by decide) (by decide) (by decide)
  | text => cases eq; rfl

theorem secondWord_spelled (h : Spells kind (first :: rest)) (other : kind ≠ .keyword .TO)
    (breaks : Breaks after) : secondWord (' ' :: ((first :: rest) ++ after)) = none := by
  have noGap := isGap_of_spells h
  have stops : (first == ' ' || first == '\t') = false := by
    rw [isGap] at noGap
    grind
  have taken : (' ' :: ((first :: rest) ++ after)).takeWhile
      (fun c => c == ' ' || c == '\t') = [' '] := by
    simp only [cons_append, takeWhile_cons, stops]
    rfl
  unfold secondWord
  rw [taken]
  simp only [length_singleton, drop_succ_cons, drop_zero]
  split
  next more eq =>
    have isT : first = 'T' := (List.cons.inj eq).1
    have long : more.head?.any isWordChar := by
      generalize text : first :: rest = chars at h
      cases h with
      | identifier _ isWord isNone =>
        cases text
        cases rest with
        | nil =>
          cases after with
          | nil => cases eq
          | cons c after =>
            cases eq
            exact absurd (breaks 'O' rfl) (by decide)
        | cons c rest =>
          cases eq
          cases rest with
          | nil => exact absurd isNone (by decide)
          | cons c rest => exact isWord c (by simp)
      | keyword word =>
        cases word
        case TO => exact absurd rfl other
        all_goals (cases text; cases eq)
      | goTo => cases text; cases eq
      | separator mark => cases mark <;> (cases text; cases eq)
      | operator operator => cases operator <;> (cases text; cases eq)
      | integer _ all =>
        subst text
        exact absurd (isT ▸ all first (mem_cons_self ..)) (by decide)
      | @decimal whole _ all =>
        cases whole with
        | nil => cases text; cases eq
        | cons d whole =>
          cases text
          exact absurd (isT ▸ all first (mem_cons_self ..)) (by decide)
      | text => cases text; cases eq
    simp [long]
  next => rfl

end Lexeme

namespace Cursor

variable {cursor : Cursor} {first : Char} {rest gaps : List Char} {kind : TokenKind}

theorem scan_nil (h : cursor.skipGaps.rest = []) : cursor.scan = [] := by
  rw [scan]
  cases found : cursor.step? with
  | none => rfl
  | some step =>
    unfold step? at found
    dsimp only at found
    split at found
    next => cases found
    next eq =>
      rw [h] at eq
      cases eq

theorem scan_cons (h : cursor.skipGaps.rest = first :: rest)
    (outcome : (Lexeme.scan first rest).outcome = .ok kind) :
    ∃ token next, cursor.scan = .ok token :: scan next ∧ token.kind = kind ∧
      token.text = String.ofList (first :: rest.take (Lexeme.scan first rest).more) ∧
      next.rest = (rest.drop (Lexeme.scan first rest).more).drop (Lexeme.scan first rest).dropped := by
  rw [scan]
  cases found : cursor.step? with
  | none =>
    unfold step? at found
    dsimp only at found
    split at found
    next eq =>
      rw [h] at eq
      cases eq
    next => cases found
  | some step =>
    unfold step? at found
    dsimp only at found
    split at found
    next => cases found
    next other others eq =>
      obtain ⟨rfl, rfl⟩ := List.cons.inj (eq.symm.trans h)
      cases found
      simp only [outcome]
      refine ⟨_, _, rfl, rfl, ?_, ?_⟩
      · rw [h]
        rfl
      · simp only [rest_advance, h]
        rfl

theorem rest_skipGaps (h : cursor.rest = gaps ++ rest) (isGaps : ∀ c ∈ gaps, isGap c)
    (stops : ∀ c ∈ rest.head?, isGap c = false) : cursor.skipGaps.rest = rest := by
  have taken : (gaps ++ rest).takeWhile isGap = gaps := by
    rw [takeWhile_append_of_pos isGaps]
    cases rest with
    | nil => simp
    | cons c rest => simp [stops c rfl]
  rw [skipGaps, rest_advance, h, taken, drop_left]

end Cursor

def Token.word (token : Token) : Word :=
  (token.kind, token.text)

theorem Cursor.scan_spelled {cursor : Cursor} {word : Word} {gaps after : List Char}
    (h : cursor.rest = gaps ++ (word.2.toList ++ after)) (isGaps : ∀ c ∈ gaps, isGap c)
    (spelled : Spells word.1 word.2.toList) (breaks : Lexeme.Breaks after)
    (alone : word = (.identifier, "GO") → Lexeme.secondWord after = none) :
    ∃ token next, cursor.scan = .ok token :: scan next ∧ token.word = word ∧
      next.rest = after.drop (Lexeme.whole word.1 [] after).dropped := by
  obtain ⟨kind, text⟩ := word
  obtain ⟨first, rest, eq⟩ : ∃ first rest, text.toList = first :: rest := by
    exact exists_cons_of_ne_nil spelled.ne_nil
  simp only [eq] at h spelled
  have start : cursor.skipGaps.rest = first :: (rest ++ after) := by
    refine rest_skipGaps h isGaps fun c mem => ?_
    cases mem
    exact Lexeme.isGap_of_spells spelled
  have lexeme := Lexeme.scan_spelled spelled breaks fun isName isGo => alone (by
    rw [← eq, String.ofList_toList] at isGo
    rw [isName, isGo])
  have outcome : (Lexeme.scan first (rest ++ after)).outcome = .ok kind := by
    rw [lexeme]
    rfl
  obtain ⟨token, next, scanned, isKind, isText, left⟩ := scan_cons start outcome
  rw [lexeme] at isText left
  refine ⟨token, next, scanned, ?_, ?_⟩
  · rw [Token.word, isKind, isText, Lexeme.whole, take_left, ← eq, String.ofList_toList]
  · rw [left, Lexeme.whole, drop_left]
    rfl

/-- The characters of words with a blank before each of them. -/
def spaced (words : List Word) : List Char :=
  words.flatMap fun word => ' ' :: word.2.toList

theorem spaced_cons (word : Word) (words : List Word) :
    spaced (word :: words) = ' ' :: (word.2.toList ++ spaced words) := rfl

theorem breaks_spaced (words : List Word) : Lexeme.Breaks (spaced words) := by
  cases words with
  | nil => simp [Lexeme.Breaks, spaced]
  | cons word words => simp [Lexeme.Breaks, spaced_cons]

theorem toList_printed (word : Word) (words : List Word) :
    (printed (word :: words)).toList = word.2.toList ++ spaced words := by
  rw [printed, String.toList_intercalate, map_map]
  induction words generalizing word with
  | nil => simp [spaced]
  | cons next words ih =>
    have later := ih next
    rw [map_cons] at later ⊢
    rw [map_cons, intercalate_cons_cons, later, spaced_cons]
    simp

theorem secondWord_spaced {word : Word} {words : List Word}
    (spelled : ∀ next ∈ words, Spells next.1 next.2.toList) (chained : (word :: words).IsChain Precedes)
    (isGo : word = (.identifier, "GO")) : Lexeme.secondWord (spaced words) = none := by
  cases words with
  | nil => rfl
  | cons next words =>
    have precedes := (isChain_cons_cons.mp chained).1
    have later := spelled next (mem_cons_self ..)
    obtain ⟨first, rest, eq⟩ := exists_cons_of_ne_nil later.ne_nil
    rw [eq] at later
    rw [spaced_cons, eq]
    exact Lexeme.secondWord_spelled later (precedes.goTo isGo) (breaks_spaced words)

/-- Behind a word stand the next words, and a remark has taken the blank before them. -/
theorem drop_spaced {word : Word} {words : List Word}
    (spelled : ∀ next ∈ words, Spells next.1 next.2.toList)
    (chained : (word :: words).IsChain Precedes) :
    (spaced words).drop (Lexeme.whole word.1 [] (spaced words)).dropped = spaced words ∨
      ∃ next others, words = next :: others ∧
        (spaced words).drop (Lexeme.whole word.1 [] (spaced words)).dropped =
          next.2.toList ++ spaced others := by
  by_cases remark : word.1 = .keyword .REM
  · cases words with
    | nil => exact .inl (by simp [spaced])
    | cons next words =>
      have later := spelled next (mem_cons_self ..)
      rw [(isChain_cons_cons.mp chained).1.remark remark] at later
      generalize text : next.2.toList = chars at later
      cases later
      refine .inr ⟨next, words, rfl, ?_⟩
      rw [Lexeme.whole, if_pos remark, spaced_cons, text]
      rfl
  · rw [Lexeme.whole, if_neg remark]
    exact .inl rfl

theorem Cursor.scan_words {words : List Word} (spelled : ∀ word ∈ words, Spells word.1 word.2.toList)
    (chained : words.IsChain Precedes) {cursor : Cursor}
    (h : cursor.rest = spaced words ∨ ∃ word others, words = word :: others ∧
      cursor.rest = word.2.toList ++ spaced others) :
    ∃ tokens : List Token, cursor.scan = tokens.map Except.ok ∧ tokens.map Token.word = words := by
  induction words generalizing cursor with
  | nil =>
    have none : cursor.rest = [] := by simpa [spaced] using h
    exact ⟨[], scan_nil (rest_skipGaps (none.trans (append_nil []).symm) (by simp) (by simp)), rfl⟩
  | cons word words ih =>
    have starts : ∃ gaps, (∀ c ∈ gaps, isGap c) ∧
        cursor.rest = gaps ++ (word.2.toList ++ spaced words) := by
      rcases h with h | ⟨_, _, same, h⟩
      · exact ⟨[' '], by simp [isGap], h⟩
      · cases same
        exact ⟨[], by simp, h⟩
    obtain ⟨gaps, isGaps, h⟩ := starts
    have later : ∀ next ∈ words, Spells next.1 next.2.toList := fun next mem =>
      spelled next (mem_cons_of_mem _ mem)
    obtain ⟨token, next, scanned, rfl, left⟩ := scan_spelled h isGaps
      (spelled word (mem_cons_self ..)) (breaks_spaced words) (secondWord_spaced later chained)
    obtain ⟨tokens, others, rfl⟩ := ih later chained.tail (left ▸ drop_spaced later chained)
    exact ⟨token :: tokens, by rw [scanned, others, map_cons], rfl⟩

theorem mapM_ok (tokens : List Token) :
    (tokens.map Except.ok).mapM id = (.ok tokens : Except Diagnostic (List Token)) := by
  induction tokens with
  | nil => rfl
  | cons token tokens ih =>
    rw [map_cons, mapM_cons, ih]
    rfl

theorem isNewline_iff {token : Token} : token.isNewline ↔ token.word.1 = .separator .newline :=
  beq_iff_eq

theorem collapseNewlines_of_chained {tokens : List Token} {afterNewline : Bool}
    (chained : (tokens.map Token.word).IsChain Precedes)
    (first : afterNewline → ∀ token ∈ tokens.head?, ¬ token.isNewline) :
    collapseNewlines afterNewline tokens = tokens := by
  induction tokens generalizing afterNewline with
  | nil => rfl
  | cons token tokens ih =>
    have kept : ¬ (token.isNewline && afterNewline) := by
      rw [Bool.and_eq_true]
      exact fun both => first both.2 token rfl both.1
    rw [collapseNewlines, if_neg kept, ih chained.tail]
    intro isNewline next mem again
    cases tokens with
    | nil => cases mem
    | cons second tokens =>
      cases mem
      exact (isChain_cons_cons.mp chained).1.newline (isNewline_iff.mp isNewline)
        (isNewline_iff.mp again)

/-- Scanning undoes printing. -/
theorem tokenize_printed {words : List Word} (h : Printable words) :
    ∃ tokens, tokenize (printed words) = .ok tokens ∧ tokens.map Token.word = words := by
  have start : (Cursor.ofSource (printed words)).rest = spaced words ∨ ∃ word others,
      words = word :: others ∧
        (Cursor.ofSource (printed words)).rest = word.2.toList ++ spaced others := by
    cases words with
    | nil => exact .inl rfl
    | cons word words => exact .inr ⟨word, words, rfl, toList_printed word words⟩
  obtain ⟨tokens, scanned, rfl⟩ := Cursor.scan_words h.spelled h.chained start
  have kept : collapseNewlines true tokens = tokens := by
    refine collapseNewlines_of_chained h.chained fun _ token mem isNewline => ?_
    refine h.first token.word ?_ (isNewline_iff.mp isNewline)
    rw [head?_map, mem]
    rfl
  have ended : tokens.getLast?.all Token.isNewline := by
    cases last : tokens.getLast? with
    | none => rfl
    | some token =>
      refine isNewline_iff.mpr (h.last token.word ?_)
      rw [getLast?_map, last]
      rfl
  refine ⟨tokens, ?_, rfl⟩
  rw [tokenize, scan, scanned, mapM_ok]
  show (if (collapseNewlines true tokens).getLast?.all Token.isNewline then _ else _) = _
  rw [kept, if_pos ended]
  rfl

/-- Words that other words could be taken for: `GO` before `TOO`, `<` before `>=`, a point before its
digits, quotes in quotes, two words for one and a remark. -/
theorem tokenize_printed_remark :
    Printable [(.literal .integer, "10"), (.identifier, "GO"), (.identifier, "TOO"),
      (.operator .less, "<"), (.operator .greaterEqual, ">="), (.literal .decimal, ".5"),
      (.literal .text, "\"a \\\" b\""), (.keyword .GOTO, "GO \tTO"), (.keyword .REM, "REM"),
      (.separator .newline, "\n")] ∧
    ∃ tokens, tokenize "10 GO TOO < >= .5 \"a \\\" b\" GO \tTO REM \n" = .ok tokens ∧
      tokens.map Token.kind = [.literal .integer, .identifier, .identifier, .operator .less,
        .operator .greaterEqual, .literal .decimal, .literal .text, .keyword .GOTO, .keyword .REM,
        .separator .newline] := by
  have printable : Printable [(.literal .integer, "10"), (.identifier, "GO"), (.identifier, "TOO"),
      (.operator .less, "<"), (.operator .greaterEqual, ">="), (.literal .decimal, ".5"),
      (.literal .text, "\"a \\\" b\""), (.keyword .GOTO, "GO \tTO"), (.keyword .REM, "REM"),
      (.separator .newline, "\n")] := by
    have body : IsQuotable ['a', ' ', '\\', '"', ' ', 'b'] :=
      .plain (by decide) (by decide) (by decide) <| .plain (by decide) (by decide) (by decide) <|
        .escape (by decide) <| .plain (by decide) (by decide) (by decide) <|
        .plain (by decide) (by decide) (by decide) .nil
    have precedes {word next : Word} (newline : word.1 ≠ .separator .newline)
        (remark : word.1 ≠ .keyword .REM) (goTo : next.1 ≠ .keyword .TO) : Precedes word next :=
      ⟨fun h => absurd h newline, fun h => absurd h remark, fun _ => goTo⟩
    have each {p : Char → Bool} {text : List Char} (h : text.all p = true) : ∀ c ∈ text, p c :=
      all_eq_true.mp h
    refine ⟨?_, ?_, by simp, by simp⟩
    · simp only [forall_mem_cons, not_mem_nil, false_implies, implies_true, and_true]
      exact ⟨.integer (by decide) (each (by decide)),
        .identifier (by decide) (each (by decide)) (by decide),
        .identifier (by decide) (each (by decide)) (by decide),
        .operator .less, .operator .greaterEqual,
        .decimal (forall_mem_nil _) (by decide) (each (by decide : ['5'].all Char.isDigit)),
        .text body, .goTo (by decide : [' ', '\t'] ≠ []) (by simp), .keyword .REM,
        .separator .newline⟩
    · simp only [isChain_cons_cons, isChain_singleton, and_true]
      refine ⟨?_, ?_, ?_, ?_, ?_, ?_, ?_, ?_, ⟨by simp, by simp, by simp⟩⟩ <;>
        exact precedes (by decide) (by decide) (by decide)
  refine ⟨printable, ?_⟩
  obtain ⟨tokens, scanned, words⟩ := tokenize_printed printable
  refine ⟨tokens, ?_, ?_⟩
  · rw [← scanned]
    rfl
  · have kinds := congrArg (List.map Prod.fst) words
    rw [map_map] at kinds
    exact kinds

end LineBasic
