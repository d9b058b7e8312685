import LineBasic.Proofs.Token.Spelling

/-!
How the tokens of a text cover it: what is skipped between two tokens is blank or a remark.
-/

namespace LineBasic

open List

/-- The bytes of `source` from `start` up to `stop` are those of `text`. -/
structure Spans (source : String) (start stop : Nat) (text : String) : Prop where
  le : start ≤ stop
  bound : stop ≤ source.utf8ByteSize
  bytes : source.toByteArray.extract start stop = text.toByteArray

/-- What may be skipped between two tokens, or between a token and an end of the text. -/
def Skipped (previous : Option Token) (gap : List Char) (next : Option Token) : Prop :=
  match previous with
  | none => ∀ c ∈ gap, isGap c ∨ c = '\n'
  | some token =>
    if token.kind = .keyword .REM then '\n' ∉ gap ∧ next.any Token.isNewline
    else if token.isNewline then ∀ c ∈ gap, isGap c ∨ c = '\n'
    else ∀ c ∈ gap, isGap c

/-- The tokens of a text cover it. -/
structure Covers (source : String) (tokens : List Token) : Prop where
  /-- Each token but a newline that the text does not have has the text it stands on. -/
  spelled : ∀ before token after, tokens = before ++ token :: after →
    token.start < token.stop ∧ Spans source token.start token.stop token.text ∨
      after = [] ∧ token.isNewline ∧ token.start = source.utf8ByteSize ∧
        token.stop = source.utf8ByteSize
  ordered : tokens.Pairwise fun first second => first.stop ≤ second.start
  gaps : ∀ before after, tokens = before ++ after → ∃ gap : String,
    Spans source ((before.getLast?.map Token.stop).getD 0)
        ((after.head?.map Token.start).getD source.utf8ByteSize) gap ∧
      Skipped before.getLast? gap.toList after.head?
  placed : ∀ token ∈ tokens, ∃ before : String, Spans source 0 token.start before ∧
    token.position.line = 1 + before.toList.count '\n' ∧
    token.position.column = 1 + (before.toList.reverse.takeWhile (· ≠ '\n')).length
  first : ∀ token ∈ tokens.head?, token.isNewline = false
  apart : ∀ before first second after, tokens = before ++ first :: second :: after →
    first.isNewline → second.isNewline = false
  last : ∀ token ∈ tokens.getLast?, token.isNewline

section Spans

variable {source : String} {text : List Char}

def bytes (cs : List Char) : Nat :=
  (String.ofList cs).utf8ByteSize

@[simp] theorem bytes_nil : bytes [] = 0 := rfl

theorem bytes_append (cs ds : List Char) : bytes (cs ++ ds) = bytes cs + bytes ds := by
  simp [bytes, String.ofList_append, String.utf8ByteSize_append]

theorem bytes_singleton (c : Char) : bytes [c] = c.utf8Size := by
  simp [bytes]

theorem bytes_toList (source : String) : bytes source.toList = source.utf8ByteSize := by
  rw [bytes, String.ofList_toList]

theorem bytes_pos (h : text ≠ []) : 0 < bytes text := by
  obtain ⟨c, cs, rfl⟩ := exists_cons_of_ne_nil h
  have positive := c.utf8Size_pos
  have split := bytes_append [c] cs
  rw [singleton_append, bytes_singleton] at split
  omega

theorem spans_of_append (before text after : List Char)
    (whole : before ++ (text ++ after) = source.toList) :
    Spans source (bytes before) (bytes (before ++ text)) (String.ofList text) := by
  have sizes : bytes before + (bytes text + bytes after) = source.utf8ByteSize := by
    rw [← bytes_toList, ← whole, bytes_append, bytes_append]
  have parts : source = String.ofList before ++ (String.ofList text ++ String.ofList after) := by
    rw [← String.ofList_append, ← String.ofList_append, whole, String.ofList_toList]
  rw [bytes_append]
  refine ⟨by omega, by omega, ?_⟩
  rw [parts, String.toByteArray_append, String.toByteArray_append, ByteArray.extract_append]
  have left : (String.ofList before).toByteArray.size = bytes before := rfl
  have right : (String.ofList text).toByteArray.size = bytes text := rfl
  rw [left, Nat.sub_self, Nat.add_sub_cancel_left, ByteArray.extract_append_eq_left right.symm]
  have none : (String.ofList before).toByteArray.extract (bytes before)
      (bytes before + bytes text) = ByteArray.empty := by
    rw [ByteArray.extract_eq_empty_iff, left]
    omega
  rw [none, ByteArray.empty_append]

end Spans

/-- The place behind some characters at the start of a text. -/
def Position.behind (cs : List Char) : Position :=
  cs.foldl Position.next ⟨1, 1⟩

theorem Position.behind_concat (cs : List Char) (c : Char) :
    Position.behind (cs ++ [c]) = (Position.behind cs).next c := by
  simp [Position.behind]

theorem Position.behind_reverse (cs : List Char) : Position.behind cs.reverse =
    ⟨1 + cs.count '\n', 1 + (cs.takeWhile (· ≠ '\n')).length⟩ := by
  induction cs with
  | nil => rfl
  | cons c cs ih =>
    rw [reverse_cons, Position.behind_concat, ih, Position.next]
    split
    next newline =>
      subst newline
      simp
      omega
    next other =>
      simp [other]
      omega

/-- Lines count newlines, and columns count characters since the last of them. -/
theorem Position.behind_eq (cs : List Char) : Position.behind cs =
    ⟨1 + cs.count '\n', 1 + (cs.reverse.takeWhile (· ≠ '\n')).length⟩ := by
  have reversed := Position.behind_reverse cs.reverse
  rwa [reverse_reverse, count_reverse] at reversed

namespace Cursor

/-- The cursor behind some characters of a text. -/
def behind (before rest : List Char) : Cursor :=
  ⟨rest, bytes before, Position.behind before⟩

theorem ofSource_eq (source : String) : ofSource source = behind [] source.toList := rfl

theorem advance_behind (count : Nat) (before rest : List Char) :
    (behind before rest).advance count = behind (before ++ rest.take count) (rest.drop count) := by
  induction count generalizing before rest with
  | zero => simp [advance]
  | succ count ih =>
    cases rest with
    | nil => simp [behind, advance]
    | cons c rest =>
      have moved := ih (before ++ [c]) rest
      rw [behind, bytes_append, bytes_singleton, Position.behind_concat, append_assoc] at moved
      exact moved

end Cursor

/-- A token that is spelled by some characters behind others. -/
structure Token.IsAt (token : Token) (before lexeme : List Char) : Prop where
  text : token.text = String.ofList lexeme
  start : token.start = bytes before
  stop : token.stop = bytes (before ++ lexeme)
  position : token.position = Position.behind before

/-- What is dropped together with a token: nothing, or the rest of its line behind `REM`. -/
def Token.Drops (token : Token) (dropped after : List Char) : Prop :=
  if token.kind = .keyword .REM then '\n' ∉ dropped ∧ ∀ c ∈ after.head?, c = '\n' else dropped = []

theorem exists_takeWhile (p : Char → Bool) (cs : List Char) : ∃ taken left, cs = taken ++ left ∧
    cs.takeWhile p = taken ∧ (∀ c ∈ taken, p c) ∧ ∀ c ∈ left.head?, p c = false := by
  induction cs with
  | nil => exact ⟨[], [], rfl, rfl, by simp, by simp⟩
  | cons c cs ih =>
    by_cases holds : p c
    · obtain ⟨taken, left, rfl, eq, inside, stops⟩ := ih
      exact ⟨c :: taken, left, rfl, by simp [holds, eq], by simp_all, stops⟩
    · exact ⟨[], c :: cs, rfl, by simp [holds], by simp, by simpa using holds⟩

namespace Lexeme

variable {first : Char} {tail : List Char} {kind : TokenKind} {token : Token}

theorem drops_of_scan (same : token.kind = kind) (outcome : (scan first tail).outcome = .ok kind) :
    token.Drops ((tail.drop (scan first tail).more).take (scan first tail).dropped)
      ((tail.drop (scan first tail).more).drop (scan first tail).dropped) := by
  have drops := (isSpelled_scan first tail kind outcome).2
  rw [Token.Drops, same]
  split
  next remark =>
    rw [if_pos remark] at drops
    obtain ⟨taken, left, split, eq, inside, stops⟩ :=
      exists_takeWhile (· != '\n') (tail.drop (scan first tail).more)
    rw [drops, eq, split, take_left, drop_left]
    refine ⟨fun mem => ?_, fun c mem => ?_⟩
    · have := inside '\n' mem
      simp at this
    · simpa using stops c mem
  next other =>
    rw [if_neg other] at drops
    rw [drops, take_zero]

theorem isNewline_of_scan {start stop : Nat} {text : String} {position : Position}
    (outcome : (scan first tail).outcome = .ok kind) :
    (Token.isNewline ⟨kind, text, start, stop, position⟩ ↔
        (first :: tail.take (scan first tail).more).head? = some '\n') ∧
      (Token.isNewline ⟨kind, text, start, stop, position⟩ →
        first :: tail.take (scan first tail).more = ['\n']) := by
  have spelled := spells_of_scan outcome
  have count := spelled.count_newline
  have single : kind = .separator .newline → first :: tail.take (scan first tail).more = ['\n'] := by
    rintro rfl
    cases spelled
    rfl
  simp only [Token.isNewline, beq_iff_eq, head?_cons, Option.some.injEq]
  refine ⟨⟨fun newline => (List.cons.inj (single newline)).1, fun newline =>
    Decidable.byContradiction fun other => ?_⟩, single⟩
  rw [newline, count_cons_self, if_neg other] at count
  cases count

end Lexeme

namespace Cursor

variable {before rest : List Char}

theorem advance_behind_append (before text rest : List Char) :
    (behind before (text ++ rest)).advance text.length = behind (before ++ text) rest := by
  rw [advance_behind, take_left, drop_left]

theorem skipGaps_behind (before rest : List Char) : ∃ gaps left, rest = gaps ++ left ∧
    (∀ c ∈ gaps, isGap c) ∧ (∀ c ∈ left.head?, isGap c = false) ∧
    (behind before rest).skipGaps = behind (before ++ gaps) left := by
  obtain ⟨gaps, left, split, taken, inside, stops⟩ := exists_takeWhile isGap rest
  refine ⟨gaps, left, split, inside, stops, ?_⟩
  have length : ((behind before rest).rest.takeWhile isGap).length = gaps.length := by
    rw [← taken]
    rfl
  rw [skipGaps, length, split, advance_behind_append]

theorem all_isGap_of_step? (h : (behind before rest).step? = none) : ∀ c ∈ rest, isGap c := by
  obtain ⟨gaps, left, split, inside, _, skipped⟩ := skipGaps_behind before rest
  unfold step? at h
  dsimp only at h
  split at h
  next none =>
    rw [skipped] at none
    replace none : left = [] := none
    rw [split, none, append_nil]
    exact inside
  next => cases h

theorem step?_behind {step : (behind before rest).Step} (h : (behind before rest).step? = some step) :
    ∃ gaps lexeme dropped after, rest = gaps ++ (lexeme ++ (dropped ++ after)) ∧
      (∀ c ∈ gaps, isGap c) ∧ lexeme ≠ [] ∧
      step.next = behind (before ++ gaps ++ lexeme ++ dropped) after ∧
      ∀ token, step.item = .ok token → token.IsAt (before ++ gaps) lexeme ∧
        token.Drops dropped after ∧ (token.isNewline ↔ lexeme.head? = some '\n') ∧
        (token.isNewline → lexeme = ['\n']) := by
  obtain ⟨gaps, left, split, inside, stops, skipped⟩ := skipGaps_behind before rest
  unfold step? at h
  dsimp only at h
  split at h
  next => cases h
  next first tail eq =>
    cases h
    rw [skipped] at eq
    replace eq : left = first :: tail := eq
    let lexeme := Lexeme.scan first tail
    let after := tail.drop lexeme.more
    have whole : left = (first :: tail.take lexeme.more) ++ after := by
      rw [eq, cons_append, take_append_drop]
    refine ⟨gaps, first :: tail.take lexeme.more, after.take lexeme.dropped,
      after.drop lexeme.dropped, ?_, inside, by simp, ?_, ?_⟩
    · rw [split, whole, take_append_drop]
    · dsimp only
      rw [skipped, advance_behind, advance_behind, eq]
      rfl
    · intro token item
      dsimp only at item
      split at item
      next kind outcome =>
        cases item
        refine ⟨⟨?_, ?_, ?_, ?_⟩, Lexeme.drops_of_scan rfl outcome, Lexeme.isNewline_of_scan outcome⟩
        · rw [skipped, eq]
          rfl
        · rw [skipped]
          rfl
        · rw [skipped, advance_behind, eq]
          rfl
        · rw [skipped]
          rfl
      next => cases item

end Cursor

/-- Tokens cover the characters `rest` that stand behind `before`, where the last token is `previous`.
They end with a newline, which the text may not have. -/
inductive Cover : Option Token → List Char → List Char → List Token → Prop
  | done {previous : Option Token} {before gap : List Char} :
      previous.all Token.isNewline → Skipped previous gap none → Cover previous before gap []
  | final {previous : Option Token} {before gap : List Char} {token : Token} :
      previous.all Token.isNewline = false → Skipped previous gap (some token) →
      token.isNewline → token.start = bytes (before ++ gap) → token.stop = bytes (before ++ gap) →
      token.position = Position.behind (before ++ gap) → Cover previous before gap [token]
  | token {previous : Option Token} {before gap lexeme after : List Char} {token : Token}
      {tokens : List Token} : Skipped previous gap (some token) →
      (previous.all Token.isNewline → token.isNewline = false) → lexeme ≠ [] →
      token.IsAt (before ++ gap) lexeme → Cover (some token) (before ++ gap ++ lexeme) after tokens →
      Cover previous before (gap ++ (lexeme ++ after)) (token :: tokens)

/-- What is skipped so far behind the last token, before the characters `rest`. -/
def Pending (previous : Option Token) (gap rest : List Char) : Prop :=
  match previous with
  | none => ∀ c ∈ gap, isGap c ∨ c = '\n'
  | some token =>
    if token.kind = .keyword .REM then '\n' ∉ gap ∧ ∀ c ∈ rest.head?, c = '\n'
    else if token.isNewline then ∀ c ∈ gap, isGap c ∨ c = '\n'
    else ∀ c ∈ gap, isGap c

/-- The tokens with a newline at their end, unless the last of them is one. -/
def closed (previous : Option Token) (tokens : List Token) (last : Token) : List Token :=
  if (tokens.getLast?.or previous).all Token.isNewline then tokens else tokens ++ [last]

theorem closed_nil (previous : Option Token) (last : Token) :
    closed previous [] last = if previous.all Token.isNewline then [] else [last] := rfl

theorem getLast?_cons_or (token : Token) (tokens : List Token) (previous : Option Token) :
    (token :: tokens).getLast?.or previous = tokens.getLast?.or (some token) := by
  rw [getLast?_cons]
  cases tokens.getLast? <;> rfl

theorem closed_cons (previous : Option Token) (token : Token) (tokens : List Token) (last : Token) :
    closed previous (token :: tokens) last = token :: closed (some token) tokens last := by
  unfold closed
  rw [getLast?_cons_or]
  split <;> rfl

section Scan

variable {source : String} {previous : Option Token} {before gap gaps rest : List Char}

theorem finalNewline_eq (source : String) : finalNewline source =
    ⟨.separator .newline, "\n", source.utf8ByteSize, source.utf8ByteSize,
      Position.behind source.toList⟩ := by
  have stop : (Cursor.ofSource source).advance source.length = .behind source.toList [] := by
    have length : source.length = source.toList.length := String.length_toList.symm
    rw [Cursor.ofSource_eq, Cursor.advance_behind, length, take_length, drop_length]
    rfl
  rw [finalNewline, stop, ← bytes_toList]
  rfl

theorem newline_not_mem (h : ∀ c ∈ gaps, isGap c) : '\n' ∉ gaps := by
  intro mem
  have := h '\n' mem
  cases this

theorem Pending.skipped (h : Pending previous gap rest) (blank : ∀ c ∈ gaps, isGap c)
    {next : Option Token} (line : ∀ token ∈ previous, token.kind = .keyword .REM →
      next.any Token.isNewline) : Skipped previous (gap ++ gaps) next := by
  have both {p : Char → Prop} (first : ∀ c ∈ gap, p c) (second : ∀ c ∈ gaps, p c) :
      ∀ c ∈ gap ++ gaps, p c := by
    intro c mem
    rcases mem_append.mp mem with mem | mem
    · exact first c mem
    · exact second c mem
  unfold Pending at h
  unfold Skipped
  split at h
  next => exact both h fun c mem => .inl (blank c mem)
  next token =>
    split at h
    next remark =>
      rw [if_pos remark]
      refine ⟨fun mem => ?_, line token rfl remark⟩
      rcases mem_append.mp mem with mem | mem
      · exact h.1 mem
      · exact newline_not_mem blank mem
    next other =>
      rw [if_neg other]
      split at h
      next newline =>
        rw [if_pos newline]
        exact both h fun c mem => .inl (blank c mem)
      next text =>
        rw [if_neg text]
        exact both h blank

theorem Pending.newline (h : Pending previous gap rest) (blank : ∀ c ∈ gaps, isGap c)
    (ended : previous.all Token.isNewline) (after : List Char) :
    Pending previous (gap ++ gaps ++ ['\n']) after := by
  have all (h : ∀ c ∈ gap, isGap c ∨ c = '\n') :
      ∀ c ∈ gap ++ gaps ++ ['\n'], isGap c ∨ c = '\n' := by
    intro c mem
    simp only [mem_append, mem_singleton] at mem
    rcases mem with (mem | mem) | same
    · exact h c mem
    · exact .inl (blank c mem)
    · exact .inr same
  unfold Pending at h ⊢
  split at h
  next => exact all h
  next token =>
    have newline : token.kind = .separator .newline := by simpa [Token.isNewline] using ended
    have isNewline : token.isNewline := by simpa using ended
    simp only [newline, reduceCtorEq, if_false, isNewline, if_true] at h ⊢
    exact all h

theorem pending_of_drops {token : Token} {dropped after : List Char}
    (h : token.Drops dropped after) : Pending (some token) dropped after := by
  unfold Token.Drops at h
  unfold Pending
  dsimp only
  split at h
  next remark =>
    rw [if_pos remark]
    exact h
  next other =>
    rw [if_neg other, h]
    split <;> simp

theorem Pending.remark (h : Pending previous gap rest) {token : Token} (mem : token ∈ previous)
    (remark : token.kind = .keyword .REM) : ∀ c ∈ rest.head?, c = '\n' := by
  cases mem
  unfold Pending at h
  dsimp only at h
  rw [if_pos remark] at h
  exact h.2

/-- The tokens that are scanned behind the last one, without the newlines that end no statement, cover
the rest of the text. -/
theorem cover_scan {cursor : Cursor} {tokens : List Token} (scanned : cursor.scan.mapM id = .ok tokens)
    (stands : cursor = .behind (before ++ gap) rest) (whole : before ++ gap ++ rest = source.toList)
    (pending : Pending previous gap rest) :
    Cover previous before (gap ++ rest) (closed previous
      (collapseNewlines (previous.all Token.isNewline) tokens) (finalNewline source)) := by
  fun_induction Cursor.scan cursor generalizing previous before gap rest tokens with
  | case1 cursor none =>
    subst stands
    rw [mapM_nil] at scanned
    cases scanned
    have blank := Cursor.all_isGap_of_step? none
    have final := finalNewline_eq source
    have place : bytes (before ++ (gap ++ rest)) = source.utf8ByteSize := by
      rw [← append_assoc, whole, bytes_toList]
    rw [collapseNewlines, closed_nil]
    split
    next ended =>
      refine .done ended (pending.skipped blank fun token mem remark => ?_)
      cases mem
      simp [Token.isNewline, remark] at ended
    next ended =>
      refine .final (by simpa using ended) (pending.skipped blank fun _ _ _ => ?_) ?_ ?_ ?_ ?_
      · rw [final]
        rfl
      · rw [final]
        rfl
      · rw [final, place]
      · rw [final, place]
      · rw [final, ← append_assoc, whole]
  | case2 cursor step found ih =>
    subst stands
    obtain ⟨token, others, item, scanned', rfl⟩ := cons_of_mapM_id scanned
    obtain ⟨gaps, lexeme, dropped, after, rfl, blank, nonempty, next, spelled⟩ :=
      Cursor.step?_behind found
    obtain ⟨isAt, drops, isNewline, single⟩ := spelled token item
    rw [collapseNewlines]
    split
    next skipped =>
      obtain ⟨newline, ended⟩ := Bool.and_eq_true_iff.mp skipped
      obtain rfl := single newline
      have kept : dropped = [] := by
        have other : token.kind ≠ .keyword .REM := by
          intro remark
          simp [Token.isNewline, remark] at newline
        rwa [Token.Drops, if_neg other] at drops
      subst kept
      have covered : Cover previous before (gap ++ gaps ++ ['\n'] ++ after) (closed previous
          (collapseNewlines (previous.all Token.isNewline) others) (finalNewline source)) :=
        ih scanned' (by rw [next]; simp) (by rw [← whole]; simp) (pending.newline blank ended after)
      rw [ended] at covered
      simpa using covered
    next kept =>
      rw [closed_cons]
      have covered : Cover (some token) (before ++ (gap ++ gaps) ++ lexeme) (dropped ++ after)
          (closed (some token) (collapseNewlines token.isNewline others) (finalNewline source)) :=
        ih scanned' (by rw [next]; simp) (by rw [← whole]; simp) (pending_of_drops drops)
      have line : ∀ last ∈ previous, last.kind = .keyword .REM → (some token).any Token.isNewline := by
        intro last mem remark
        have starts := pending.remark mem remark
        obtain ⟨c, cs, rfl⟩ := exists_cons_of_ne_nil nonempty
        cases gaps with
        | nil =>
          have newline : c = '\n' := starts c rfl
          exact isNewline.mpr (by simp [newline])
        | cons g gaps =>
          have newline : g = '\n' := starts g rfl
          exact absurd (newline ▸ mem_cons_self ..) (newline_not_mem blank)
      have first : previous.all Token.isNewline → token.isNewline = false := by
        intro ended
        simpa [ended] using kept
      rw [← append_assoc]
      rw [append_assoc] at isAt
      exact .token (pending.skipped blank line) first nonempty isAt covered

end Scan

namespace Cover

variable {source : String} {previous : Option Token} {before rest : List Char} {tokens : List Token}

section

variable (h : Cover previous before rest tokens)

include h

theorem spelled (whole : before ++ rest = source.toList) :
    ∀ front token back, tokens = front ++ token :: back →
      token.start < token.stop ∧ Spans source token.start token.stop token.text ∨
        back = [] ∧ token.isNewline ∧ token.start = source.utf8ByteSize ∧
          token.stop = source.utf8ByteSize := by
  induction h with
  | done => simp
  | final _ _ isNewline start stop =>
    intro front token back eq
    rw [whole, bytes_toList] at start stop
    cases front with
    | nil =>
      cases eq
      exact .inr ⟨rfl, isNewline, start, stop⟩
    | cons => simp at eq
  | @token _ before gap lexeme after first tokens _ _ nonempty isAt _ ih =>
    intro front token back eq
    cases front with
    | nil =>
      cases eq
      have positive := bytes_pos nonempty
      have length := bytes_append (before ++ gap) lexeme
      rw [isAt.start, isAt.stop, isAt.text]
      refine .inl ⟨by omega, spans_of_append _ _ after ?_⟩
      rw [← whole, append_assoc]
    | cons head front =>
      cases eq
      exact ih (by rw [← whole]; simp) front token back rfl

theorem ordered :
    (tokens.Pairwise fun first second => first.stop ≤ second.start) ∧
      ∀ token ∈ tokens, bytes before ≤ token.start := by
  induction h with
  | done => simp
  | @final _ before gap token _ _ _ start =>
    have length := bytes_append before gap
    refine ⟨by simp, fun other mem => ?_⟩
    rw [mem_singleton.mp mem, start]
    omega
  | @token _ before gap lexeme after first tokens _ _ _ isAt _ ih =>
    have length := bytes_append before gap
    have length' := bytes_append (before ++ gap) lexeme
    obtain ⟨sorted, behind⟩ := ih
    refine ⟨pairwise_cons.mpr ⟨fun other mem => ?_, sorted⟩, fun other mem => ?_⟩
    · rw [isAt.stop]
      exact behind other mem
    · rcases mem_cons.mp mem with rfl | mem
      · rw [isAt.start]
        omega
      · have := behind other mem
        omega

theorem gaps (whole : before ++ rest = source.toList)
    (reached : (previous.map Token.stop).getD 0 = bytes before) :
    ∀ front back, tokens = front ++ back → ∃ gap : String,
      Spans source (((front.getLast?.or previous).map Token.stop).getD 0)
          ((back.head?.map Token.start).getD source.utf8ByteSize) gap ∧
        Skipped (front.getLast?.or previous) gap.toList back.head? := by
  induction h with
  | @done previous before gap _ skipped =>
    intro front back eq
    obtain ⟨rfl, rfl⟩ := append_eq_nil_iff.mp eq.symm
    refine ⟨String.ofList gap, ?_, by simpa using skipped⟩
    have spans : Spans source _ _ _ := spans_of_append before gap [] (by simpa using whole)
    rw [whole, bytes_toList, ← reached] at spans
    exact spans
  | @final previous before gap token _ skipped isNewline start stop =>
    intro front back eq
    cases front with
    | nil =>
      cases eq
      refine ⟨String.ofList gap, ?_, by simpa using skipped⟩
      have spans : Spans source _ _ _ := spans_of_append before gap [] (by simpa using whole)
      rw [← reached, ← start] at spans
      exact spans
    | cons head front =>
      obtain ⟨rfl, ends⟩ := List.cons.inj eq
      obtain ⟨rfl, rfl⟩ := append_eq_nil_iff.mp ends.symm
      have spans : Spans source _ _ _ := spans_of_append (before ++ gap) [] [] (by simpa using whole)
      rw [append_nil, ← stop] at spans
      have size : token.stop = source.utf8ByteSize := by rw [stop, whole, bytes_toList]
      refine ⟨"", ?_, ?_⟩
      · show Spans source token.stop source.utf8ByteSize ""
        rw [size] at spans ⊢
        exact spans
      · simp only [Token.isNewline, beq_iff_eq] at isNewline
        simp [Skipped, isNewline]
  | @token previous before gap lexeme after first tokens skipped _ _ isAt _ ih =>
    intro front back eq
    cases front with
    | nil =>
      cases eq
      refine ⟨String.ofList gap, ?_, by simpa using skipped⟩
      have spans := spans_of_append before gap (lexeme ++ after) whole
      rw [← reached, ← isAt.start] at spans
      exact spans
    | cons head front =>
      cases eq
      rw [getLast?_cons_or]
      exact ih (by rw [← whole]; simp) isAt.stop front back rfl

theorem placed (whole : before ++ rest = source.toList) :
    ∀ token ∈ tokens, ∃ front : String, Spans source 0 token.start front ∧
      token.position = Position.behind front.toList := by
  have found {token : Token} {front back : List Char} (start : token.start = bytes front)
      (position : token.position = Position.behind front) (whole : front ++ back = source.toList) :
      ∃ front : String, Spans source 0 token.start front ∧
        token.position = Position.behind front.toList := by
    have spans : Spans source _ _ _ := spans_of_append [] front back whole
    rw [nil_append, ← start] at spans
    exact ⟨String.ofList front, spans, by rw [position, String.toList_ofList]⟩
  induction h with
  | done => simp
  | final _ _ _ start _ position =>
    intro token mem
    obtain rfl := mem_singleton.mp mem
    exact found start position ((append_nil _).trans whole)
  | @token _ before gap lexeme after first tokens _ _ _ isAt _ ih =>
    intro token mem
    rcases mem_cons.mp mem with rfl | mem
    · exact found isAt.start isAt.position (by rw [← whole, append_assoc])
    · exact ih (by rw [← whole]; simp) token mem

theorem head (ended : previous.all Token.isNewline) :
    ∀ token ∈ tokens.head?, token.isNewline = false := by
  cases h with
  | done => simp
  | final open_ =>
    rw [ended] at open_
    cases open_
  | token _ first =>
    intro token mem
    cases mem
    exact first ended

theorem apart :
    ∀ front first second back, tokens = front ++ first :: second :: back →
      first.isNewline → second.isNewline = false := by
  induction h with
  | done => simp
  | final =>
    intro front first second back eq
    have lengths := congrArg List.length eq
    simp only [length_cons, length_nil, length_append] at lengths
    omega
  | @token _ _ _ _ _ token tokens _ _ _ _ covered ih =>
    intro front first second back eq isNewline
    cases front with
    | nil =>
      cases eq
      exact covered.head isNewline second rfl
    | cons other front =>
      cases eq
      exact ih front first second back rfl isNewline

theorem last :
    ∀ token ∈ tokens.getLast?.or previous, token.isNewline := by
  induction h with
  | done ended =>
    intro token mem
    cases mem
    exact ended
  | final _ _ isNewline =>
    intro token mem
    cases mem
    exact isNewline
  | token _ _ _ _ _ ih =>
    rw [getLast?_cons_or]
    exact ih

end

end Cover

theorem cover_of_tokenize {source : String} {tokens : List Token}
    (h : tokenize source = .ok tokens) : Cover none [] source.toList tokens := by
  unfold tokenize at h
  cases scanned : (scan source).mapM id with
  | error =>
    rw [scanned] at h
    cases h
  | ok all =>
    have covered : Cover none [] ([] ++ source.toList)
        (closed none (collapseNewlines true all) (finalNewline source)) :=
      cover_scan scanned (Cursor.ofSource_eq source) rfl (by simp [Pending])
    rw [scanned] at h
    have same : (if (collapseNewlines true all).getLast?.all Token.isNewline then
        (.ok (collapseNewlines true all) : Except Diagnostic (List Token))
        else .ok (collapseNewlines true all ++ [finalNewline source])) = .ok tokens := h
    rw [closed, Option.or_none] at covered
    split at same
    next ended =>
      cases same
      rwa [if_pos ended] at covered
    next open_ =>
      cases same
      rwa [if_neg open_] at covered

theorem Cover.covers {source : String} {tokens : List Token}
    (h : Cover none [] source.toList tokens) : Covers source tokens where
  spelled := h.spelled rfl
  ordered := h.ordered.1
  gaps := by
    intro front back eq
    have found := h.gaps rfl rfl front back eq
    rwa [Option.or_none] at found
  placed := by
    intro token mem
    obtain ⟨front, spans, position⟩ := h.placed rfl token mem
    rw [Position.behind_eq] at position
    exact ⟨front, spans, by rw [position], by rw [position]⟩
  first := h.head rfl
  apart := h.apart
  last := by
    have found := h.last
    rwa [Option.or_none] at found

/-- The cursor after some steps of the scan, as long as there are tokens or faults to find. -/
def Cursor.after? : Nat → Cursor → Option Cursor
  | 0, cursor => some cursor
  | count + 1, cursor => cursor.step?.bind fun step => step.next.after? count

theorem Cursor.exists_end (cursor : Cursor) : ∃ count stop, count ≤ cursor.rest.length ∧
    cursor.after? count = some stop ∧ stop.step? = none := by
  fun_induction Cursor.scan cursor with
  | case1 cursor none => exact ⟨0, cursor, by omega, rfl, none⟩
  | case2 cursor step found ih =>
    obtain ⟨count, stop, bound, reached, none⟩ := ih
    have shorter := step.shorter
    refine ⟨count + 1, stop, by omega, ?_, none⟩
    rw [Cursor.after?, found]
    exact reached

/-- The tokens of a text cover it, and whatever the text is, its scan comes to an end after no more
steps than it has characters. -/
theorem scan_covers (source : String) :
    (∀ tokens, tokenize source = .ok tokens → Covers source tokens) ∧
      ∃ count stop, count ≤ source.length ∧ (Cursor.ofSource source).after? count = some stop ∧
        stop.step? = none := by
  refine ⟨fun tokens scanned => (cover_of_tokenize scanned).covers, ?_⟩
  obtain ⟨count, stop, bound, reached, none⟩ := (Cursor.ofSource source).exists_end
  have length : (Cursor.ofSource source).rest.length = source.length := String.length_toList
  exact ⟨count, stop, by omega, reached, none⟩

/-- A remark with a character of two bytes, a blank line behind it, and no newline at the end. -/
theorem scan_covers_remark : ∃ tokens, tokenize "10 REM \u00e9\n\n20 GO\tTO 10" = .ok tokens ∧
    tokens.map Token.start = [0, 3, 9, 11, 14, 20, 22] ∧
    Covers "10 REM \u00e9\n\n20 GO\tTO 10" tokens := by
  generalize hs : "10 REM \u00e9\n\n20 GO\tTO 10" = source
  have starts : (tokenize source).toOption.map (List.map Token.start) =
      some [0, 3, 9, 11, 14, 20, 22] := by
    subst hs
    decide +kernel
  cases scanned : tokenize source with
  | error => simp [scanned, Except.toOption] at starts
  | ok tokens =>
    rw [scanned] at starts
    exact ⟨tokens, rfl, Option.some.inj starts, (scan_covers source).1 tokens scanned⟩

end LineBasic
