import LineBasic.Token.Scanner

/-!
How tokens are written, and what the scanner takes for a token.
-/

namespace LineBasic

open List

/-- What may stand between quotes: a backslash takes the next character with it, and there is no
newline and no other quote. -/
inductive IsQuotable : List Char → Prop
  | nil : IsQuotable []
  | plain {c : Char} {rest : List Char} : c ≠ '\n' → c ≠ '"' → c ≠ '\\' → IsQuotable rest →
      IsQuotable (c :: rest)
  | escape {c : Char} {rest : List Char} : c ≠ '\n' → IsQuotable rest →
      IsQuotable ('\\' :: c :: rest)

/-- The character that a separator is written with. -/
def Separator.char : Separator → Char
  | leftParen => '('
  | rightParen => ')'
  | leftBracket => '['
  | rightBracket => ']'
  | leftBrace => '\x7b'
  | rightBrace => '\x7d'
  | comma => ','
  | newline => '\n'

/-- The ways to write a token of some kind. -/
inductive Spells : TokenKind → List Char → Prop
  | identifier {first : Char} {rest : List Char} : isLetter first → (∀ c ∈ rest, isWordChar c) →
      Keyword.ofSpelling? (String.ofList (first :: rest)) = none → Spells .identifier (first :: rest)
  | keyword (word : Keyword) : Spells (.keyword word) word.spelling.toList
  | goTo {blanks : List Char} : blanks ≠ [] → (∀ c ∈ blanks, c = ' ' ∨ c = '\t') →
      Spells (.keyword .GOTO) ('G' :: 'O' :: (blanks ++ ['T', 'O']))
  | separator (mark : Separator) : Spells (.separator mark) [mark.char]
  | operator (operator : Operator) : Spells (.operator operator) operator.symbol.toList
  | integer {digits : List Char} : digits ≠ [] → (∀ c ∈ digits, c.isDigit) →
      Spells (.literal .integer) digits
  | decimal {whole fraction : List Char} : (∀ c ∈ whole, c.isDigit) → fraction ≠ [] →
      (∀ c ∈ fraction, c.isDigit) → Spells (.literal .decimal) (whole ++ '.' :: fraction)
  | text {body : List Char} : IsQuotable body → Spells (.literal .text) ('"' :: (body ++ ['"']))

theorem Spells.ne_nil {kind : TokenKind} {text : List Char} (h : Spells kind text) : text ≠ [] := by
  cases h with
  | keyword word => cases word <;> decide
  | operator operator => cases operator <;> decide
  | integer some _ => exact some
  | _ => simp

theorem IsQuotable.newline_not_mem {body : List Char} (h : IsQuotable body) : '\n' ∉ body := by
  induction h with
  | nil => simp
  | plain newline _ _ _ ih => simp [Ne.symm newline, ih]
  | escape newline _ ih => simp [Ne.symm newline, ih]

theorem Spells.count_newline {kind : TokenKind} {text : List Char} (h : Spells kind text) :
    text.count '\n' = if kind = .separator .newline then 1 else 0 := by
  have none {p : Char → Bool} {cs : List Char} (all : ∀ c ∈ cs, p c) (stops : p '\n' = false) :
      cs.count '\n' = 0 :=
    count_eq_zero.mpr fun mem => by simpa [stops] using all _ mem
  cases h with
  | @identifier first rest letter all _ =>
    have all : ∀ c ∈ first :: rest, isWordChar c :=
      forall_mem_cons.mpr ⟨by rw [isWordChar, letter, Bool.true_or], all⟩
    rw [none all (by decide), if_neg (by decide)]
  | keyword word => cases word <;> decide
  | goTo _ blank =>
    have blank := @none (fun c => c == ' ' || c == '\t') _ (by simpa using blank) (by decide)
    simp [count_append, blank]
  | separator mark => cases mark <;> decide
  | operator operator => cases operator <;> decide
  | integer _ all => rw [none all (by decide), if_neg (by decide)]
  | decimal whole _ digit =>
    simp [count_append, none whole (by decide), none digit (by decide)]
  | text quotable => simp [count_append, count_eq_zero.mpr quotable.newline_not_mem]

namespace Lexeme

variable {first : Char} {rest : List Char} {kind : TokenKind}

theorem scan_letter (h : isLetter first) : scan first rest = word first rest := by
  have noDigit : ¬ first.isDigit := by
    intro digit
    simp only [isLetter, Bool.or_eq_true, beq_iff_eq] at h
    rcases h with letter | rfl
    · have alpha : first.isAlpha = (decide (65 ≤ first.val ∧ first.val ≤ 90) ||
          (decide (97 ≤ first.val) && decide (first.val ≤ 122))) := rfl
      have numeral : first.isDigit = (decide (48 ≤ first.val) && decide (first.val ≤ 57)) := rfl
      grind
    · exact absurd digit (by decide)
  unfold scan
  split
  case h_23 => simp [noDigit, h]
  all_goals exact absurd h (by decide)

theorem scan_digit (h : first.isDigit) : scan first rest = number rest := by
  unfold scan
  split
  case h_23 => simp [h]
  all_goals exact absurd h (by decide)

theorem quotable_of_stringTail {rest : List Char} {length : Nat}
    (h : stringTail rest = (true, length)) :
    ∃ body after, rest = body ++ '"' :: after ∧ length = body.length + 1 ∧ IsQuotable body := by
  fun_induction stringTail rest generalizing length with
  | case1 => cases h
  | case2 after =>
    cases h
    exact ⟨[], after, rfl, rfl, .nil⟩
  | case3 => cases h
  | case4 => cases h
  | case5 c rest other closed' length' eq ih =>
    cases h
    obtain ⟨body, after, rfl, rfl, quotable⟩ := ih eq
    exact ⟨'\\' :: c :: body, after, rfl, rfl, .escape other quotable⟩
  | case6 => cases h
  | case7 c rest quote newline _ backslash _ closed' length' eq ih =>
    cases h
    obtain ⟨body, after, rfl, rfl, quotable⟩ := ih eq
    refine ⟨c :: body, after, rfl, rfl, .plain newline quote (fun same => ?_) quotable⟩
    cases body <;> exact backslash _ _ same rfl

theorem take_takeWhile (p : Char → Bool) (cs : List Char) :
    cs.take (cs.takeWhile p).length = cs.takeWhile p :=
  (prefix_iff_eq_take.mp ( takeWhile_prefix p)).symm

theorem all_takeWhile (p : Char → Bool) (cs : List Char) : ∀ c ∈ cs.takeWhile p, p c :=
  all_eq_true.mp List.all_takeWhile

/-- A lexeme takes the characters that spell a token. Only `REM` drops what follows on its line. -/
def IsSpelled (lexeme : Lexeme) (first : Char) (rest : List Char) : Prop :=
  ∀ kind, lexeme.outcome = .ok kind → Spells kind (first :: rest.take lexeme.more) ∧
    lexeme.dropped = if kind = .keyword .REM then
      ((rest.drop lexeme.more).takeWhile (· != '\n')).length else 0

theorem isSpelled_ofFault (fault : LexicalFault) (more : Nat) :
    (ofFault fault more).IsSpelled first rest := by
  intro kind outcome
  cases outcome

theorem isSpelled_ofKind {more : Nat} (spells : Spells kind (first :: rest.take more))
    (other : kind ≠ .keyword .REM) : (ofKind kind more).IsSpelled first rest := by
  intro _ outcome
  cases outcome
  exact ⟨spells, by rw [if_neg other]; rfl⟩

theorem isSpelled_string (rest : List Char) : (string rest).IsSpelled '"' rest := by
  unfold string
  split
  next length closed =>
    obtain ⟨body, after, rfl, rfl, quotable⟩ := quotable_of_stringTail closed
    refine isSpelled_ofKind ?_ (by decide)
    rw [take_length_add_append]
    exact .text quotable
  next => exact isSpelled_ofFault _ _

theorem isSpelled_number (digit : first.isDigit) : (number rest).IsSpelled first rest := by
  have whole : ∀ c ∈ first :: rest.takeWhile Char.isDigit, c.isDigit :=
    forall_mem_cons.mpr ⟨digit, all_takeWhile _ _⟩
  have integer : Spells (.literal .integer) (first :: rest.take (digits rest)) := by
    rw [digits, take_takeWhile]
    exact .integer (by simp) whole
  unfold number
  dsimp only
  split
  next d fraction eq =>
    split
    next digit' =>
      refine isSpelled_ofKind ?_ (by decide)
      rw [Nat.add_assoc, take_add, eq, digits, take_takeWhile, Nat.add_comm 2]
      show Spells _ ((first :: _) ++ '.' :: d :: fraction.take (digits fraction))
      rw [digits, take_takeWhile]
      exact .decimal whole (by simp) (forall_mem_cons.mpr ⟨digit', all_takeWhile _ _⟩)
    next => exact isSpelled_ofKind integer (by decide)
  next => exact isSpelled_ofKind integer (by decide)

theorem isSpelled_fraction (rest : List Char) : (fraction rest).IsSpelled '.' rest := by
  unfold fraction
  split
  next => exact isSpelled_ofFault _ _
  next some =>
    refine isSpelled_ofKind ?_ (by decide)
    rw [digits, take_takeWhile]
    exact Spells.decimal (forall_mem_nil _) (fun none => some (congrArg List.length none))
      (all_takeWhile _ _)

theorem spelling_eq {text : List Char} {keyword : Keyword}
    (h : Keyword.ofSpelling? (String.ofList text) = some keyword) : keyword.spelling.toList = text := by
  have spelled := find?_some h
  rw [beq_iff_eq.mp spelled, String.toList_ofList]

theorem goTo_of_secondWord {length : Nat} (h : secondWord rest = some length) :
    ∃ blanks, blanks ≠ [] ∧ (∀ c ∈ blanks, c = ' ' ∨ c = '\t') ∧
      rest.take length = blanks ++ ['T', 'O'] := by
  unfold secondWord at h
  dsimp only at h
  split at h
  next after eq =>
    split at h
    next => cases h
    next open_ =>
      cases h
      simp only [Bool.or_eq_true, decide_eq_true_eq, not_or] at open_
      refine ⟨rest.takeWhile fun c => c == ' ' || c == '\t', fun none => open_.1 (by simp [none]),
        fun c mem => ?_, ?_⟩
      · simpa using all_takeWhile _ _ c mem
      · rw [take_add, eq, take_takeWhile]
        rfl
  next => cases h

theorem isSpelled_word (letter : isLetter first) : (word first rest).IsSpelled first rest := by
  have taken := take_takeWhile isWordChar rest
  unfold word
  dsimp only
  split
  next length found =>
    split at found
    next go =>
      obtain ⟨blanks, some, blank, eq⟩ := goTo_of_secondWord found
      rw [← String.toList_inj, String.toList_ofList] at go
      obtain ⟨rfl, tail⟩ := List.cons.inj go
      refine isSpelled_ofKind ?_ (by decide)
      rw [take_add, taken, eq, tail]
      exact .goTo some blank
    next => cases found
  next found =>
    intro kind outcome
    cases outcome
    rw [taken, ← spelling_eq found, if_pos rfl]
    exact ⟨.keyword .REM, rfl⟩
  next keyword other _ found =>
    refine isSpelled_ofKind ?_ fun same => other (TokenKind.keyword.inj same)
    rw [taken, ← spelling_eq found]
    exact .keyword keyword
  next unknown =>
    refine isSpelled_ofKind ?_ (by decide)
    rw [taken]
    exact .identifier letter (all_takeWhile _ _) unknown

theorem isSpelled_scan (first : Char) (rest : List Char) :
    (scan first rest).IsSpelled first rest := by
  unfold scan
  split
  case h_21 => exact isSpelled_string _
  case h_22 => exact isSpelled_fraction _
  case h_23 =>
    split
    next digit => exact isSpelled_number digit
    next =>
      split
      next letter => exact isSpelled_word letter
      next => exact isSpelled_ofFault _ _
  all_goals
    refine isSpelled_ofKind ?_ (by decide)
    constructor

theorem spells_of_scan (outcome : (scan first rest).outcome = .ok kind) :
    Spells kind (first :: rest.take (scan first rest).more) :=
  (isSpelled_scan first rest kind outcome).1

end Lexeme

theorem Cursor.spells_of_step? {cursor : Cursor} {step : cursor.Step} {token : Token}
    (h : cursor.step? = some step) (item : step.item = .ok token) :
    Spells token.kind token.text.toList := by
  unfold Cursor.step? at h
  dsimp only at h
  split at h
  next => cases h
  next first rest eq =>
    cases h
    dsimp only at item
    split at item
    next kind outcome =>
      cases item
      rw [String.toList_ofList, eq]
      exact Lexeme.spells_of_scan outcome
    next => cases item

theorem Cursor.spells_of_mem_scan {cursor : Cursor} {token : Token} (h : .ok token ∈ cursor.scan) :
    Spells token.kind token.text.toList := by
  fun_induction Cursor.scan cursor with
  | case1 => cases h
  | case2 cursor step eq ih =>
    rcases mem_cons.mp h with item | h
    · exact spells_of_step? eq item.symm
    · exact ih h

theorem mem_of_mem_collapseNewlines {afterNewline : Bool} {tokens : List Token} {token : Token}
    (h : token ∈ collapseNewlines afterNewline tokens) : token ∈ tokens := by
  fun_induction collapseNewlines afterNewline tokens with
  | case1 => exact h
  | case2 _ _ _ _ ih => exact mem_cons_of_mem _ (ih h)
  | case3 _ _ _ _ ih =>
    rcases mem_cons.mp h with rfl | h
    · exact mem_cons_self ..
    · exact mem_cons_of_mem _ (ih h)

theorem cons_of_mapM_id {item : Except Diagnostic Token} {items : List (Except Diagnostic Token)}
    {tokens : List Token} (h : (item :: items).mapM id = .ok tokens) :
    ∃ token others, item = .ok token ∧ items.mapM id = .ok others ∧ tokens = token :: others := by
  rw [mapM_cons] at h
  cases item with
  | error => cases h
  | ok token =>
    cases rest : items.mapM id with
    | error =>
      rw [rest] at h
      cases h
    | ok others =>
      rw [rest] at h
      cases h
      exact ⟨token, others, rfl, rfl, rfl⟩

theorem mem_of_mapM_id {items : List (Except Diagnostic Token)} {tokens : List Token}
    (h : items.mapM id = .ok tokens) {token : Token} (mem : token ∈ tokens) : .ok token ∈ items := by
  induction items generalizing tokens with
  | nil =>
    cases h
    cases mem
  | cons item items ih =>
    obtain ⟨first, others, rfl, scanned, rfl⟩ := cons_of_mapM_id h
    rcases mem_cons.mp mem with rfl | mem
    · exact mem_cons_self ..
    · exact mem_cons_of_mem _ (ih scanned mem)

theorem spells_of_tokenize {source : String} {tokens : List Token}
    (h : tokenize source = .ok tokens) : ∀ token ∈ tokens, Spells token.kind token.text.toList := by
  unfold tokenize at h
  cases scanned : (scan source).mapM id with
  | error =>
    rw [scanned] at h
    cases h
  | ok all =>
    rw [scanned] at h
    have spelled : ∀ token ∈ collapseNewlines true all, Spells token.kind token.text.toList :=
      fun token mem =>
        Cursor.spells_of_mem_scan (mem_of_mapM_id scanned (mem_of_mem_collapseNewlines mem))
    simp only [bind, Except.bind] at h
    split at h
    next =>
      cases h
      exact spelled
    next =>
      cases h
      intro token mem
      rcases mem_append.mp mem with mem | mem
      · exact spelled token mem
      · have text : (finalNewline source).text.toList = ['\n'] := by
          show "\n".toList = ['\n']
          decide
        rw [mem_singleton.mp mem, text]
        exact .separator .newline

end LineBasic
