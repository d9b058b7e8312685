import LineBasic.Proofs.Text.Numeral
import LineBasic.Proofs.Token.Coverage
import LineBasic.Proofs.Token.Printing

/-!
Renumbering the lines of a text. A number names a line where it starts a statement and where it
follows `GOTO`.
-/

namespace LineBasic

open List

/-- A number behind a token of this kind names a line. -/
def TokenKind.announcesLine (kind : TokenKind) : Bool :=
  kind == .separator .newline || kind == .keyword .GOTO

/-- The text of a token once lines are renumbered. If `named` is set, a number names a line here. -/
def Token.renumbered (ρ : Nat → Nat) (named : Bool) (token : Token) : String :=
  if named && token.kind == .literal .integer then
    (Text.natural? token.text.toList).elim token.text fun number => toString (ρ number)
  else
    token.text

/-- The text from here on once lines are renumbered. From the first fault on it is left as it is. -/
def Cursor.renumber (ρ : Nat → Nat) (named : Bool) (cursor : Cursor) : List Char :=
  match cursor.step? with
  | none => cursor.rest
  | some step =>
    match step.item with
    | .error _ => cursor.rest
    | .ok token =>
      let gap := cursor.rest.takeWhile isGap
      let behind := cursor.rest.drop (gap.length + token.text.length)
      let dropped := behind.take (behind.length - step.next.rest.length)
      gap ++ ((token.renumbered ρ named).toList ++
        (dropped ++ step.next.renumber ρ token.kind.announcesLine))
termination_by cursor.rest.length
decreasing_by exact step.shorter

def renumber (ρ : Nat → Nat) (source : String) : String :=
  String.ofList ((Cursor.ofSource source).renumber ρ true)

/-- Tokens whose numbers of lines are renumbered; all other texts are the same. -/
inductive Renumbered (ρ : Nat → Nat) : Bool → List Token → List Token → Prop
  | nil {named : Bool} : Renumbered ρ named [] []
  | cons {named : Bool} {token token' : Token} {rest rest' : List Token} :
      token'.kind = token.kind → token'.text = token.renumbered ρ named →
      Renumbered ρ token.kind.announcesLine rest rest' →
      Renumbered ρ named (token :: rest) (token' :: rest')

theorem Token.renumbered_cases (ρ : Nat → Nat) (named : Bool) (token : Token) :
    token.renumbered ρ named = token.text ∨ (named = true ∧ token.kind = .literal .integer ∧
      ∃ number, Text.natural? token.text.toList = some number ∧
        token.renumbered ρ named = toString (ρ number)) := by
  unfold Token.renumbered
  split
  next names =>
    simp only [Bool.and_eq_true, beq_iff_eq] at names
    cases found : Text.natural? token.text.toList with
    | none => exact .inl rfl
    | some number => exact .inr ⟨names.1, names.2, number, rfl, rfl⟩
  next => exact .inl rfl

namespace Lexeme

variable {first d e : Char} {front xs ys : List Char} {kind : TokenKind}

/-- Characters that end with a gap or a newline, so that no token goes on behind them. -/
def Closed (front : List Char) : Prop :=
  ∃ before c, front = before ++ [c] ∧ (isGap c ∨ c = '\n')

theorem Closed.ne_nil (h : Closed front) : front ≠ [] := by
  obtain ⟨before, c, rfl, _⟩ := h
  simp

theorem Closed.drop (h : Closed front) {n : Nat} (inside : n < front.length) :
    Closed (front.drop n) := by
  obtain ⟨before, c, rfl, closes⟩ := h
  refine ⟨before.drop n, c, ?_, closes⟩
  rw [length_append, length_singleton] at inside
  rw [drop_append_of_le_length (by omega)]

theorem Closed.append (h : Closed front) (before : List Char) : Closed (before ++ front) := by
  obtain ⟨start, c, rfl, closes⟩ := h
  exact ⟨before ++ start, c, by rw [append_assoc], closes⟩

theorem Closed.of_append {before : List Char} (h : Closed (before ++ front)) (some : front ≠ []) :
    Closed front := by
  have inside : before.length < (before ++ front).length := by
    have := length_pos_iff.mpr some
    rw [length_append]
    omega
  have later := h.drop inside
  rwa [drop_left] at later

theorem Closed.tail {c : Char} (h : Closed (c :: front)) (inside : isGap c = false) (other : c ≠ '\n') :
    Closed front := by
  obtain ⟨before, last, eq, closes⟩ := h
  cases before with
  | nil =>
    cases eq
    rcases closes with gap | newline
    · rw [inside] at gap
      cases gap
    · exact absurd newline other
  | cons _ before =>
    cases eq
    exact ⟨before, last, rfl, closes⟩

theorem Closed.takeWhile {p : Char → Bool} (h : Closed front) (gap : ∀ c, isGap c → p c = false)
    (newline : p '\n' = false) (xs : List Char) :
    (front ++ xs).takeWhile p = front.takeWhile p ∧ (front.takeWhile p).length < front.length := by
  obtain ⟨before, c, rfl, closes⟩ := h
  have stops : p c = false := by
    rcases closes with isGap | rfl
    · exact gap c isGap
    · exact newline
  induction before with
  | nil => simp [stops]
  | cons b before ih =>
    simp only [cons_append, takeWhile_cons]
    split
    next =>
      obtain ⟨same, shorter⟩ := ih
      simp only [length_cons]
      exact ⟨by rw [same], by omega⟩
    next => simp

theorem isDigit_of_isGap (c : Char) (h : isGap c) : c.isDigit = false := by
  simp only [isGap, Bool.or_eq_true, beq_iff_eq] at h
  rcases h with (rfl | rfl) | rfl <;> decide

theorem isWordChar_of_isGap (c : Char) (h : isGap c) : isWordChar c = false := by
  simp only [isGap, Bool.or_eq_true, beq_iff_eq] at h
  rcases h with (rfl | rfl) | rfl <;> decide

theorem digits_closed (h : Closed front) (xs : List Char) :
    digits (front ++ xs) = digits front ∧ digits front < front.length := by
  obtain ⟨same, shorter⟩ := h.takeWhile isDigit_of_isGap (by decide) xs
  exact ⟨congrArg List.length same, shorter⟩

theorem number_closed (h : Closed front) (xs ys : List Char) :
    number (front ++ xs) = number (front ++ ys) := by
  unfold number
  obtain ⟨same, shorter⟩ := digits_closed h xs
  rw [same, (digits_closed h ys).1]
  dsimp only
  rw [drop_append_of_le_length (Nat.le_of_lt shorter),
    drop_append_of_le_length (Nat.le_of_lt shorter)]
  have later := h.drop shorter
  cases rest : front.drop (digits front) with
  | nil => exact absurd rest later.ne_nil
  | cons c rest' =>
    rw [rest] at later
    by_cases point : c = '.'
    · subst point
      have later := later.tail (by decide) (by decide)
      cases rest' with
      | nil => exact absurd rfl later.ne_nil
      | cons d fraction =>
        simp only [cons_append]
        by_cases digit : d.isDigit
        · have noGap : isGap d = false := by
            cases gap : isGap d with
            | false => rfl
            | true => rw [isDigit_of_isGap d gap] at digit; cases digit
          have later := later.tail noGap (by rintro rfl; cases digit)
          rw [if_pos digit, if_pos digit, (digits_closed later xs).1, (digits_closed later ys).1]
        · rw [if_neg digit, if_neg digit]
    · simp [point]

theorem fraction_closed (h : Closed front) (xs ys : List Char) :
    fraction (front ++ xs) = fraction (front ++ ys) := by
  unfold fraction
  rw [(digits_closed h xs).1, (digits_closed h ys).1]

theorem ne_of_isDigit {c : Char} (digit : d.isDigit) (other : c.isDigit = false) : d ≠ c := by
  rintro rfl
  rw [other] at digit
  cases digit

theorem secondWord_closed (h : Closed front) (digit : d.isDigit) (digit' : e.isDigit)
    (xs ys : List Char) :
    secondWord (front ++ d :: xs) = secondWord (front ++ e :: ys) := by
  obtain ⟨blanks, left, rfl, -, blank, stops⟩ :=
    exists_takeWhile (fun c => c == ' ' || c == '\t') front
  have taken {rest : List Char} (stops : ∀ c ∈ rest.head?, (c == ' ' || c == '\t') = false) :
      (blanks ++ rest).takeWhile (fun c => c == ' ' || c == '\t') = blanks := by
    rw [takeWhile_append_of_pos blank]
    cases rest with
    | nil => simp
    | cons c rest => simp [stops c rfl]
  have word {c : Char} (digit : c.isDigit) : (c == ' ' || c == '\t') = false := by
    simp [ne_of_isDigit (c := ' ') digit (by decide), ne_of_isDigit (c := '\t') digit (by decide)]
  cases left with
  | nil =>
    have none {c : Char} (digit : c.isDigit) (rest : List Char) :
        secondWord (blanks ++ c :: rest) = none := by
      unfold secondWord
      rw [taken (by rintro _ ⟨⟩; exact word digit)]
      dsimp only
      rw [drop_left]
      split
      next eq =>
        cases eq
        cases digit
      next => rfl
    rw [append_nil, none digit, none digit']
  | cons c left =>
    unfold secondWord
    rw [append_assoc, append_assoc, taken (by simpa using stops), taken (by simpa using stops)]
    dsimp only
    rw [drop_left, drop_left]
    by_cases isT : c = 'T'
    · subst isT
      have closed := (h.of_append (by simp)).tail (by decide) (by decide)
      cases left with
      | nil => exact absurd rfl closed.ne_nil
      | cons c left =>
        by_cases isO : c = 'O'
        · subst isO
          have closed := closed.tail (by decide) (by decide)
          cases left with
          | nil => exact absurd rfl closed.ne_nil
          | cons c left => rfl
        · simp [isO]
    · simp [isT]

theorem takeWhile_line (digit : d.isDigit) (e : Char) (ys : List Char)
    (inside : ((front ++ d :: xs).takeWhile (· != '\n')).length ≤ front.length) :
    (front ++ d :: xs).takeWhile (· != '\n') = (front ++ e :: ys).takeWhile (· != '\n') := by
  induction front with
  | nil =>
    have other : d ≠ '\n' := ne_of_isDigit digit (by decide)
    simp [other] at inside
  | cons c front ih =>
    simp only [cons_append, takeWhile_cons] at inside ⊢
    split
    next more =>
      simp only [more, if_true, length_cons] at inside
      rw [ih (by omega)]
    next => rfl

theorem word_closed (h : Closed front) (digit : d.isDigit) (digit' : e.isDigit)
    (inside : (word first (front ++ d :: xs)).more + (word first (front ++ d :: xs)).dropped ≤
      front.length) : word first (front ++ d :: xs) = word first (front ++ e :: ys) := by
  obtain ⟨same, shorter⟩ := h.takeWhile isWordChar_of_isGap (by decide) (d :: xs)
  have same' := (h.takeWhile isWordChar_of_isGap (by decide) (e :: ys)).1
  have later := h.drop shorter
  unfold word at inside ⊢
  rw [same] at inside ⊢
  rw [same']
  dsimp only at inside ⊢
  rw [drop_append_of_le_length (Nat.le_of_lt shorter)] at inside ⊢
  rw [drop_append_of_le_length (Nat.le_of_lt shorter)]
  rw [secondWord_closed later digit digit' xs ys] at inside ⊢
  generalize (if String.ofList (first :: front.takeWhile isWordChar) = "GO" then
    secondWord (front.drop (front.takeWhile isWordChar).length ++ e :: ys) else none) = second at inside ⊢
  generalize Keyword.ofSpelling? (String.ofList (first :: front.takeWhile isWordChar)) = keyword
    at inside ⊢
  cases second with
  | some length => rfl
  | none =>
    cases keyword with
    | none => rfl
    | some keyword =>
      cases keyword
      case REM =>
        dsimp only at inside ⊢
        rw [takeWhile_line digit e ys (by rw [length_drop]; omega)]
      all_goals rfl

theorem string_closed (outcome : (string (front ++ d :: xs)).outcome = .ok kind)
    (inside : (string (front ++ d :: xs)).more ≤ front.length) :
    string (front ++ d :: xs) = string (front ++ e :: ys) := by
  unfold string at outcome inside ⊢
  cases tail : stringTail (front ++ d :: xs) with
  | mk closed length =>
    rw [tail] at outcome inside
    cases closed with
    | false => cases outcome
    | true =>
      obtain ⟨body, after, eq, rfl, quotable⟩ := quotable_of_stringTail tail
      replace inside : body.length + 1 ≤ front.length := inside
      have parts : front = body ++ '"' :: front.drop (body.length + 1) := by
        have taken := congrArg (List.take (body.length + 1)) eq
        rw [take_append_of_le_length inside, take_length_add_append] at taken
        have whole := take_append_drop (body.length + 1) front
        rw [taken] at whole
        simpa using whole.symm
      have other : stringTail (front ++ e :: ys) = (true, body.length + 1) := by
        rw [parts, append_assoc, cons_append]
        exact stringTail_append quotable
      rw [other]

theorem scan_mark {c : Char} (noDigit : first.isDigit = false) (noLetter : isLetter first = false)
    (noQuote : first ≠ '"') (noPoint : first ≠ '.') (xs ys : List Char) :
    scan first (c :: xs) = scan first (c :: ys) := by
  unfold scan
  split
  case h_21 => exact absurd rfl noQuote
  case h_22 => exact absurd rfl noPoint
  case h_14 _ _ _ same | h_16 _ _ _ same | h_17 _ _ _ same | h_19 _ _ _ same =>
    cases same
    rfl
  case h_15 | h_18 | h_20 | h_23 => split <;> simp_all
  all_goals rfl

/-- A lexeme that ends before the digit does not depend on what stands there. -/
theorem scan_closed (h : Closed front) (digit : d.isDigit) (digit' : e.isDigit)
    (outcome : (scan first (front ++ d :: xs)).outcome = .ok kind)
    (inside : (scan first (front ++ d :: xs)).more + (scan first (front ++ d :: xs)).dropped ≤
      front.length) : scan first (front ++ d :: xs) = scan first (front ++ e :: ys) := by
  by_cases isDigit : first.isDigit
  · rw [scan_digit isDigit, scan_digit isDigit]
    exact number_closed h _ _
  by_cases letter : isLetter first
  · rw [scan_letter letter] at inside ⊢
    rw [scan_letter letter]
    exact word_closed h digit digit' inside
  by_cases quote : first = '"'
  · subst quote
    exact string_closed outcome (Nat.le_of_add_right_le inside)
  by_cases point : first = '.'
  · subst point
    exact fraction_closed h _ _
  cases front with
  | nil => exact absurd rfl h.ne_nil
  | cons c front => exact scan_mark (by simpa using isDigit) (by simpa using letter) quote point _ _

theorem head?_drop_takeWhile (p : Char → Bool) (cs : List Char) :
    ∀ c ∈ (cs.drop (cs.takeWhile p).length).head?, p c = false := by
  obtain ⟨taken, left, rfl, eq, _, stops⟩ := exists_takeWhile p cs
  rw [eq, drop_left]
  exact stops

theorem isDigit_of_isWordChar {c : Char} (h : isWordChar c = false) : c.isDigit = false := by
  rw [isWordChar, Bool.or_eq_false_iff] at h
  exact h.2

theorem isDigit_behind_secondWord {rest : List Char} {length : Nat}
    (h : secondWord rest = some length) : ∀ c ∈ (rest.drop length).head?, c.isDigit = false := by
  unfold secondWord at h
  dsimp only at h
  split at h
  next after eq =>
    split at h
    next => cases h
    next open_ =>
      cases h
      rw [← drop_drop, eq]
      intro c mem
      simp only [Bool.or_eq_true, decide_eq_true_eq, not_or, Bool.not_eq_true] at open_
      rw [drop_succ_cons, drop_succ_cons, drop_zero] at mem
      have last := open_.2
      rw [Option.mem_def.mp mem] at last
      exact isDigit_of_isWordChar last
  next => cases h

theorem isDigit_behind_keyword {rest : List Char} {keyword : Keyword}
    (outcome : (scan first rest).outcome = .ok (.keyword keyword)) :
    ∀ c ∈ (rest.drop (scan first rest).more).head?, c.isDigit = false := by
  have letter : isLetter first := by
    have spelled := spells_of_scan outcome
    generalize rest.take (scan first rest).more = tail at spelled
    generalize eq : first :: tail = text at spelled
    cases spelled with
    | keyword => cases keyword <;> (cases eq; decide)
    | goTo =>
      cases eq
      decide
  have single : ∀ c ∈ (rest.drop (rest.takeWhile isWordChar).length).head?, c.isDigit = false :=
    fun c mem => isDigit_of_isWordChar (head?_drop_takeWhile isWordChar rest c mem)
  rw [scan_letter letter]
  unfold word
  dsimp only
  split
  next length found =>
    split at found
    next =>
      show ∀ c ∈ (rest.drop ((rest.takeWhile isWordChar).length + length)).head?, _
      rw [← drop_drop]
      exact isDigit_behind_secondWord found
    next => cases found
  next => exact single
  next => exact single
  next => exact single

/-- What can follow an integer: neither a digit nor a point with a digit. -/
structure EndsNumber (after : List Char) : Prop where
  digit : ∀ c ∈ after.head?, c.isDigit = false
  point : ∀ c rest, after = '.' :: c :: rest → c.isDigit = false

theorem number_eq_integer {after : List Char} (all : ∀ c ∈ xs, c.isDigit) (ends : EndsNumber after) :
    number (xs ++ after) = ofKind (.literal .integer) xs.length := by
  have taken : digits (xs ++ after) = xs.length := by
    rw [digits, takeWhile_append_of_pos all]
    cases after with
    | nil => simp
    | cons c after => simp [ends.digit c rfl]
  unfold number
  rw [taken]
  dsimp only
  rw [drop_left]
  split
  next c fraction => rw [if_neg (by simp [ends.point c fraction rfl])]
  next => rfl

theorem endsNumber_of_integer {rest : List Char}
    (outcome : (number rest).outcome = .ok (.literal .integer)) :
    (number rest).more = digits rest ∧ (number rest).dropped = 0 ∧
      EndsNumber (rest.drop (digits rest)) := by
  have stops := head?_drop_takeWhile Char.isDigit rest
  unfold number at outcome ⊢
  dsimp only at outcome ⊢
  split at outcome
  next c fraction eq =>
    split at outcome
    next => cases outcome
    next other =>
      refine ⟨by rw [if_neg other]; rfl, by rw [if_neg other]; rfl, stops, ?_⟩
      rintro _ _ same
      cases eq.symm.trans same
      simpa using other
  next other => exact ⟨rfl, rfl, stops, fun c fraction eq => absurd eq (other c fraction)⟩

theorem isDigit_of_integer {rest : List Char}
    (outcome : (scan first rest).outcome = .ok (.literal .integer)) : first.isDigit := by
  cases spells_of_scan outcome with
  | integer _ all => exact all first (mem_cons_self ..)

end Lexeme

namespace Cursor

open Lexeme (Closed)

variable {cursor : Cursor} {first : Char} {gaps tail : List Char} {kind : TokenKind} {ρ : Nat → Nat}
  {named : Bool}

theorem step?_cons (h : cursor.rest = gaps ++ first :: tail) (blank : ∀ c ∈ gaps, isGap c)
    (inside : isGap first = false) : ∃ step, cursor.step? = some step ∧
      step.next.rest = (tail.drop (Lexeme.scan first tail).more).drop (Lexeme.scan first tail).dropped ∧
      (∀ kind, (Lexeme.scan first tail).outcome = .ok kind → ∃ token, step.item = .ok token ∧
        token.kind = kind ∧
        token.text = String.ofList (first :: tail.take (Lexeme.scan first tail).more)) ∧
      ∀ fault, (Lexeme.scan first tail).outcome = .error fault → ∃ d, step.item = .error d := by
  have start : cursor.skipGaps.rest = first :: tail := by
    refine rest_skipGaps h blank fun c mem => ?_
    cases mem
    exact inside
  unfold step?
  dsimp only
  split
  next eq =>
    rw [start] at eq
    cases eq
  next other others eq =>
    obtain ⟨rfl, rfl⟩ := List.cons.inj (eq.symm.trans start)
    refine ⟨_, rfl, ?_, fun kind outcome => ?_, fun fault outcome => ?_⟩
    · simp only [rest_advance, start]
      rfl
    · simp only [outcome]
      refine ⟨_, rfl, rfl, ?_⟩
      rw [start]
      rfl
    · simp only [outcome]
      exact ⟨_, rfl⟩

theorem step?_gaps (blank : ∀ c ∈ cursor.rest, isGap c) : cursor.step? = none := by
  have start : cursor.skipGaps.rest = [] :=
    rest_skipGaps (append_nil _).symm blank (by simp)
  unfold step?
  dsimp only
  split
  next => rfl
  next eq =>
    rw [start] at eq
    cases eq

theorem drop_length_take (n : Nat) (cs : List Char) : cs.drop (cs.take n).length = cs.drop n := by
  rw [length_take]
  rcases Nat.le_total n cs.length with le | le
  · rw [Nat.min_eq_left le]
  · rw [Nat.min_eq_right le, drop_length, drop_eq_nil_of_le le]

theorem take_length_sub (n : Nat) (cs : List Char) :
    cs.take (cs.length - (cs.drop n).length) = cs.take n := by
  rw [length_drop]
  rcases Nat.le_total n cs.length with le | le
  · rw [Nat.sub_sub_self le]
  · rw [Nat.sub_eq_zero_of_le le, Nat.sub_zero, take_length, take_of_length_le le]

/-- A token and what stands around it: the gaps before it, what is dropped with it, and the text behind
it, which is renumbered in turn. -/
theorem renumber_cons (h : cursor.rest = gaps ++ first :: tail) (blank : ∀ c ∈ gaps, isGap c)
    (inside : isGap first = false) (outcome : (Lexeme.scan first tail).outcome = .ok kind) :
    ∃ token next, cursor.scan = .ok token :: scan next ∧ token.kind = kind ∧
      token.text = String.ofList (first :: tail.take (Lexeme.scan first tail).more) ∧
      next.rest = (tail.drop (Lexeme.scan first tail).more).drop (Lexeme.scan first tail).dropped ∧
      next.rest.length < cursor.rest.length ∧
      ∀ ρ named, cursor.renumber ρ named = gaps ++ ((token.renumbered ρ named).toList ++
        ((tail.drop (Lexeme.scan first tail).more).take (Lexeme.scan first tail).dropped ++
          next.renumber ρ kind.announcesLine)) := by
  obtain ⟨step, found, rest, item, _⟩ := step?_cons h blank inside
  obtain ⟨token, item, isKind, text⟩ := item kind outcome
  refine ⟨token, step.next, ?_, isKind, text, rest, step.shorter, fun ρ named => ?_⟩
  · rw [scan, found]
    dsimp only
    rw [item]
  · have taken : cursor.rest.takeWhile isGap = gaps := by
      rw [h, takeWhile_append_of_pos blank, takeWhile_cons_of_neg (by simp [inside]),
        append_nil]
    have behind : cursor.rest.drop (gaps.length + token.text.length) =
        tail.drop (Lexeme.scan first tail).more := by
      rw [h, ← drop_drop, drop_left, text, String.length_ofList, length_cons,
        drop_succ_cons, drop_length_take]
    rw [renumber, found]
    dsimp only
    rw [item]
    dsimp only
    rw [taken, behind, rest, isKind, take_length_sub]

/-- Texts that are the same up to a digit, if they differ. Where no number names a line, what is the same
ends with a gap or a newline. -/
def Split (named : Bool) (xs ys : List Char) : Prop :=
  xs = ys ∨ ∃ front d e xs' ys', xs = front ++ d :: xs' ∧ ys = front ++ e :: ys' ∧ d.isDigit ∧
    e.isDigit ∧ (Closed front ∨ front = [] ∧ named)

theorem renumber_of_none (h : cursor.step? = none) : cursor.renumber ρ named = cursor.rest := by
  rw [renumber, h]

theorem renumber_of_fault (h : cursor.rest = gaps ++ first :: tail) (blank : ∀ c ∈ gaps, isGap c)
    (inside : isGap first = false) {fault : LexicalFault}
    (outcome : (Lexeme.scan first tail).outcome = .error fault) :
    cursor.renumber ρ named = cursor.rest ∧ ∃ d next, cursor.scan = .error d :: scan next := by
  obtain ⟨step, found, _, _, item⟩ := step?_cons h blank inside
  obtain ⟨d, item⟩ := item fault outcome
  constructor
  · rw [renumber, found]
    dsimp only
    rw [item]
  · refine ⟨d, step.next, ?_⟩
    rw [scan, found]
    dsimp only
    rw [item]

theorem dropped_eq_nil (outcome : (Lexeme.scan first tail).outcome = .ok kind)
    (other : kind ≠ .keyword .REM) :
    (tail.drop (Lexeme.scan first tail).more).take (Lexeme.scan first tail).dropped = [] := by
  have isKind : (⟨kind, "", 0, 0, ⟨1, 1⟩⟩ : Token).kind = kind := rfl
  have drops := Lexeme.drops_of_scan isKind outcome
  rwa [Token.Drops, if_neg other] at drops

theorem parts_eq (n m : Nat) (cs : List Char) :
    cs = cs.take n ++ ((cs.drop n).take m ++ (cs.drop n).drop m) := by
  rw [take_append_drop, take_append_drop]

theorem closed_of_gaps (some : gaps ≠ []) (blank : ∀ c ∈ gaps, isGap c) : Closed gaps := by
  obtain ⟨before, c, rfl⟩ := (eq_nil_or_concat' gaps).resolve_left some
  exact ⟨before, c, rfl, .inl (blank c (by simp))⟩

theorem closed_of_announces (outcome : (Lexeme.scan first tail).outcome = .ok kind)
    (announces : kind.announcesLine) {d : Char} {xs : List Char} (digit : d.isDigit)
    (next : (tail.drop (Lexeme.scan first tail).more).drop (Lexeme.scan first tail).dropped = d :: xs) :
    first = '\n' ∧ (tail.take (Lexeme.scan first tail).more = [] ∧
      (tail.drop (Lexeme.scan first tail).more).take (Lexeme.scan first tail).dropped = []) := by
  simp only [TokenKind.announcesLine, Bool.or_eq_true, beq_iff_eq] at announces
  rcases announces with rfl | rfl
  · have none := dropped_eq_nil outcome (by decide)
    have newline : Token.isNewline ⟨.separator .newline, "", 0, 0, ⟨1, 1⟩⟩ := rfl
    have single := (Lexeme.isNewline_of_scan outcome).2 newline
    obtain ⟨rfl, rest⟩ := List.cons.inj single
    exact ⟨rfl, rest, none⟩
  · have none := dropped_eq_nil outcome (by decide)
    have behind := Lexeme.isDigit_behind_keyword outcome d
    have whole := take_append_drop (Lexeme.scan first tail).dropped
      (tail.drop (Lexeme.scan first tail).more)
    rw [none, next] at whole
    rw [← whole] at behind
    rw [behind rfl] at digit
    cases digit

/-- A text is the same as the renumbered one up to the first number of a line. -/
theorem split_renumber (ρ : Nat → Nat) (named : Bool) (cursor : Cursor) :
    Split named cursor.rest (cursor.renumber ρ named) := by
  induction size : cursor.rest.length using Nat.strongRecOn generalizing cursor named with
  | ind size ih =>
  obtain ⟨gaps, left, rest, -, blank, stops⟩ := exists_takeWhile isGap cursor.rest
  cases left with
  | nil =>
    rw [append_nil] at rest
    exact .inl (renumber_of_none (step?_gaps (rest ▸ blank))).symm
  | cons first tail =>
    have inside := stops first rfl
    cases outcome : (Lexeme.scan first tail).outcome with
    | error fault => exact .inl (renumber_of_fault rest blank inside outcome).1.symm
    | ok kind =>
      obtain ⟨token, next, -, isKind, text, behind, shorter, eq⟩ :=
        renumber_cons rest blank inside outcome
      rw [eq]
      rcases token.renumbered_cases ρ named with same | ⟨names, isInteger, number, _, new⟩
      · have parts := parts_eq (Lexeme.scan first tail).more (Lexeme.scan first tail).dropped tail
        rw [← behind] at parts
        rw [same, text, String.toList_ofList, rest]
        rcases ih _ (size ▸ shorter) kind.announcesLine next rfl with whole |
          ⟨front, d, e, xs, ys, eq₁, eq₂, digit, digit', closes⟩
        · rw [← whole]
          exact .inl (by rw [cons_append, ← parts])
        · refine .inr ⟨gaps ++ (first :: tail.take (Lexeme.scan first tail).more ++
            ((tail.drop (Lexeme.scan first tail).more).take (Lexeme.scan first tail).dropped ++ front)),
            d, e, xs, ys, ?_, ?_, digit, digit', .inl ?_⟩
          · rw [eq₁] at parts
            simp only [append_assoc, cons_append]
            exact congrArg (fun tail => gaps ++ first :: tail) parts
          · rw [eq₂]
            simp only [append_assoc, cons_append]
          · rcases closes with closed | ⟨rfl, announces⟩
            · exact ((closed.append _).append _).append _
            · rw [behind, nil_append] at eq₁
              obtain ⟨rfl, none, none'⟩ := closed_of_announces outcome announces digit eq₁
              rw [none, none']
              exact Closed.append ⟨[], '\n', rfl, .inr rfl⟩ gaps
      · obtain ⟨e, es, spelled, digit, _⟩ := Text.digits_toString (ρ number)
        rw [new, spelled, rest]
        rw [isKind] at isInteger
        subst isInteger
        refine .inr ⟨gaps, first, e, tail, _, rfl, rfl, Lexeme.isDigit_of_integer outcome, digit, ?_⟩
        by_cases some : gaps = []
        · exact .inr ⟨some, names⟩
        · exact .inl (closed_of_gaps some blank)

/-- What is scanned in a text and in the renumbered one, up to the first fault. -/
inductive Rescanned (ρ : Nat → Nat) : Bool → List (Except Diagnostic Token) →
    List (Except Diagnostic Token) → Prop
  | nil {named : Bool} : Rescanned ρ named [] []
  | fault {named : Bool} {d d' : Diagnostic} {items items' : List (Except Diagnostic Token)} :
      Rescanned ρ named (.error d :: items) (.error d' :: items')
  | token {named : Bool} {token token' : Token} {items items' : List (Except Diagnostic Token)} :
      token'.kind = token.kind → token'.text = token.renumbered ρ named →
      Rescanned ρ token.kind.announcesLine items items' →
      Rescanned ρ named (.ok token :: items) (.ok token' :: items')

theorem endsNumber_of_split {xs ys : List Char} (h : Split false xs ys)
    (ends : Lexeme.EndsNumber xs) : Lexeme.EndsNumber ys := by
  rcases h with rfl | ⟨front, d, e, xs, ys, rfl, rfl, _, _, closed | ⟨_, names⟩⟩
  · exact ends
  · cases front with
    | nil => exact absurd rfl closed.ne_nil
    | cons c front =>
      refine ⟨ends.digit, fun c' rest eq => ?_⟩
      rw [cons_append] at eq
      obtain ⟨rfl, eq⟩ := List.cons.inj eq
      have closed := closed.tail (by decide) (by decide)
      cases front with
      | nil => exact absurd rfl closed.ne_nil
      | cons c front =>
        cases eq
        exact ends.point _ _ rfl
  · cases names

theorem scan_split {ys : List Char} (outcome : (Lexeme.scan first tail).outcome = .ok kind)
    (split : Split kind.announcesLine
      ((tail.drop (Lexeme.scan first tail).more).drop (Lexeme.scan first tail).dropped) ys) :
    ∃ tail', tail.take (Lexeme.scan first tail).more ++
        ((tail.drop (Lexeme.scan first tail).more).take (Lexeme.scan first tail).dropped ++ ys) = tail' ∧
      Lexeme.scan first tail' = Lexeme.scan first tail ∧
      tail'.take (Lexeme.scan first tail).more = tail.take (Lexeme.scan first tail).more ∧
      (tail'.drop (Lexeme.scan first tail).more).drop (Lexeme.scan first tail).dropped = ys := by
  have parts := parts_eq (Lexeme.scan first tail).more (Lexeme.scan first tail).dropped tail
  rcases split with whole | ⟨front, d, e, xs, ys, eq, rfl, digit, digit', closes⟩
  · rw [whole] at parts
    exact ⟨tail, parts.symm, rfl, rfl, whole⟩
  · refine ⟨_, rfl, ?_⟩
    have sizes := congrArg List.length eq
    simp only [length_drop, length_append, length_cons] at sizes
    have long : (tail.take (Lexeme.scan first tail).more).length = (Lexeme.scan first tail).more := by
      rw [length_take]
      omega
    have long' : ((tail.drop (Lexeme.scan first tail).more).take
        (Lexeme.scan first tail).dropped).length = (Lexeme.scan first tail).dropped := by
      rw [length_take, length_drop]
      omega
    have closes : Closed front ∨ first = '\n' := by
      refine closes.imp_right fun empty => ?_
      rw [empty.1] at eq
      exact (closed_of_announces outcome empty.2 digit eq).1
    rw [eq] at parts
    generalize tail.take (Lexeme.scan first tail).more = text at parts long ⊢
    generalize (tail.drop (Lexeme.scan first tail).more).take (Lexeme.scan first tail).dropped =
      dropped at parts long' ⊢
    refine ⟨?_, ?_, ?_⟩
    · rcases closes with closed | rfl
      · have inside : (Lexeme.scan first tail).more + (Lexeme.scan first tail).dropped ≤
            (text ++ (dropped ++ front)).length := by
          rw [length_append, length_append]
          omega
        have whole : tail = text ++ (dropped ++ front) ++ d :: xs := by
          rw [parts, append_assoc, append_assoc]
        subst whole
        rw [Lexeme.scan_closed ((closed.append _).append _) digit digit' outcome inside,
          append_assoc, append_assoc]
      · rfl
    · rw [take_append_of_le_length (by omega), take_of_length_le (by omega)]
    · rw [← long, drop_left, ← long', drop_left]

theorem rescanned (ρ : Nat → Nat) (named : Bool) (cursor cursor' : Cursor)
    (h : cursor'.rest = cursor.renumber ρ named) : Rescanned ρ named cursor.scan cursor'.scan := by
  induction size : cursor.rest.length using Nat.strongRecOn generalizing cursor cursor' named with
  | ind size ih =>
  obtain ⟨gaps, left, rest, -, blank, stops⟩ := exists_takeWhile isGap cursor.rest
  cases left with
  | nil =>
    rw [append_nil] at rest
    have ended := step?_gaps (rest ▸ blank)
    rw [renumber_of_none ended] at h
    have ended' : cursor'.step? = none := step?_gaps (h ▸ rest ▸ blank)
    rw [scan, ended, scan, ended']
    exact .nil
  | cons first tail =>
    have inside := stops first rfl
    cases outcome : (Lexeme.scan first tail).outcome with
    | error fault =>
      obtain ⟨same, d, next, scanned⟩ := @renumber_of_fault cursor first gaps tail ρ named rest blank
        inside fault outcome
      obtain ⟨_, d', next', scanned'⟩ := @renumber_of_fault cursor' first gaps tail ρ named
        (h.trans (same.trans rest)) blank inside fault outcome
      rw [scanned, scanned']
      exact .fault
    | ok kind =>
      obtain ⟨token, next, scanned, isKind, text, behind, shorter, eq⟩ :=
        renumber_cons rest blank inside outcome
      rw [eq] at h
      have split := split_renumber ρ kind.announcesLine next
      rw [behind] at split
      rcases token.renumbered_cases ρ named with same | ⟨names, isInteger, number, _, new⟩
      · obtain ⟨tail', new, found, taken, behind'⟩ := scan_split outcome split
        rw [same, text, String.toList_ofList, cons_append, new] at h
        have outcome' : (Lexeme.scan first tail').outcome = .ok kind := by rw [found, outcome]
        obtain ⟨token', next', scanned', isKind', text', rest', _⟩ :=
          renumber_cons h blank inside outcome'
        rw [found] at text' rest'
        rw [scanned, scanned']
        refine .token (isKind'.trans isKind.symm) ?_ ?_
        · rw [same, text, text', taken]
        · rw [isKind]
          exact ih _ (size ▸ shorter) _ next next' (rest'.trans behind') rfl
      · rw [isKind] at isInteger
        subst isInteger
        have digit := Lexeme.isDigit_of_integer outcome
        have none := dropped_eq_nil outcome (by decide)
        have ends : Lexeme.EndsNumber
            ((tail.drop (Lexeme.scan first tail).more).drop (Lexeme.scan first tail).dropped) := by
          rw [Lexeme.scan_digit digit] at outcome ⊢
          obtain ⟨more, dropped, ends⟩ := Lexeme.endsNumber_of_integer outcome
          rwa [more, dropped]
        obtain ⟨e, es, spelled, digit', digits⟩ := Text.digits_toString (ρ number)
        have found := Lexeme.number_eq_integer digits (endsNumber_of_split split ends)
        rw [← Lexeme.scan_digit digit'] at found
        rw [none, new, spelled, nil_append, cons_append] at h
        have inside' : isGap e = false := by
          cases gap : isGap e with
          | false => rfl
          | true =>
            rw [Lexeme.isDigit_of_isGap e gap] at digit'
            cases digit'
        obtain ⟨token', next', scanned', isKind', text', rest', _⟩ :=
          renumber_cons h blank inside' (congrArg Lexeme.outcome found)
        rw [found] at text' rest'
        rw [scanned, scanned']
        refine .token (isKind'.trans isKind.symm) ?_ ?_
        · rw [text', new, ← String.toList_inj, spelled, String.toList_ofList]
          show e :: (es ++ _).take es.length = e :: es
          rw [take_left]
        · rw [isKind]
          refine ih _ (size ▸ shorter) _ next next' (rest'.trans ?_) rfl
          show ((es ++ _).drop es.length).drop 0 = _
          rw [drop_left, drop_zero]

end Cursor

/-- Both succeed, with related values, or both fail. -/
inductive Matched {ε α β : Type} (R : α → β → Prop) : Except ε α → Except ε β → Prop
  | ok {a : α} {b : β} : R a b → Matched R (.ok a) (.ok b)
  | error {d d' : ε} : Matched R (.error d) (.error d')

theorem Matched.bind {ε α β γ δ : Type} {R : α → β → Prop} {S : γ → δ → Prop} {x : Except ε α}
    {y : Except ε β} {f : α → Except ε γ} {g : β → Except ε δ} (h : Matched R x y)
    (next : ∀ a b, R a b → Matched S (f a) (g b)) : Matched S (x.bind f) (y.bind g) := by
  cases h with
  | ok related => exact next _ _ related
  | error => exact .error

theorem Cursor.Rescanned.matched {ρ : Nat → Nat} {named : Bool}
    {items items' : List (Except Diagnostic Token)} (h : Rescanned ρ named items items') :
    Matched (Renumbered ρ named) (items.mapM id) (items'.mapM id) := by
  induction h with
  | nil => exact .ok .nil
  | fault =>
    rw [mapM_cons, mapM_cons]
    exact .error
  | token kind text _ ih =>
    rw [mapM_cons, mapM_cons]
    exact ih.bind fun rest rest' related => .ok (.cons kind text related)

namespace Renumbered

variable {ρ : Nat → Nat} {named : Bool} {tokens tokens' : List Token}

theorem kinds (h : Renumbered ρ named tokens tokens') :
    tokens'.map Token.kind = tokens.map Token.kind := by
  induction h with
  | nil => rfl
  | cons kind _ _ ih => rw [map_cons, map_cons, kind, ih]

theorem isNewline_eq {token token' : Token} (h : token'.kind = token.kind) :
    token'.isNewline = token.isNewline := by
  rw [Token.isNewline, Token.isNewline, h]

theorem collapseNewlines (h : Renumbered ρ named tokens tokens') (afterNewline : Bool)
    (names : afterNewline → named) :
    Renumbered ρ named (collapseNewlines afterNewline tokens)
      (LineBasic.collapseNewlines afterNewline tokens') := by
  induction h generalizing afterNewline with
  | nil => exact .nil
  | @cons named token token' rest rest' kind text _ ih =>
    have announces : token.isNewline → token.kind.announcesLine := by
      intro newline
      rw [Token.isNewline] at newline
      rw [TokenKind.announcesLine, newline, Bool.true_or]
    rw [LineBasic.collapseNewlines, LineBasic.collapseNewlines, isNewline_eq kind]
    split
    next dropped =>
      rw [Bool.and_eq_true] at dropped
      have later := ih true fun _ => announces dropped.1
      rw [announces dropped.1] at later
      rwa [names dropped.2]
    next => exact .cons kind text (ih _ announces)

theorem append_newline {newline newline' : Token} (h : Renumbered ρ named tokens tokens')
    (kind : newline.kind = .separator .newline) (kind' : newline'.kind = newline.kind)
    (text : newline'.text = newline.text) :
    Renumbered ρ named (tokens ++ [newline]) (tokens' ++ [newline']) := by
  induction h with
  | nil =>
    refine .cons kind' ?_ .nil
    rw [text, Token.renumbered, kind, if_neg (by simp)]
  | cons kind text _ ih => exact .cons kind text ih

theorem endsLine (h : Renumbered ρ named tokens tokens') :
    tokens'.getLast?.all Token.isNewline = tokens.getLast?.all Token.isNewline := by
  have last := congrArg List.getLast? h.kinds
  rw [getLast?_map, getLast?_map] at last
  have all := congrArg (Option.all (· == .separator .newline)) last
  rwa [Option.all_map, Option.all_map] at all

end Renumbered

/-- The tokens of a renumbered text: the same ones, with the numbers of lines written anew. -/
theorem tokenize_renumber (ρ : Nat → Nat) (source : String) :
    Matched (Renumbered ρ true) (tokenize source) (tokenize (renumber ρ source)) := by
  have start : (Cursor.ofSource (renumber ρ source)).rest =
      (Cursor.ofSource source).renumber ρ true := String.toList_ofList
  have scanned := (Cursor.rescanned ρ true _ _ start).matched
  refine scanned.bind fun tokens tokens' related => ?_
  have collapsed := related.collapseNewlines true fun _ => rfl
  dsimp only
  rw [collapsed.endsLine]
  split
  next => exact .ok collapsed
  next => exact .ok (collapsed.append_newline rfl rfl rfl)

end LineBasic
