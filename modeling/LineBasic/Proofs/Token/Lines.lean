import LineBasic.Proofs.Token.Quoted

/-!
The lines of the text that tokens stand on.
-/

namespace LineBasic

open List

/-- The newlines that a token is spelled with. -/
def Token.newlines (token : Token) : Nat :=
  token.text.toList.count '\n'

/-- A newline is spelled by one, and no other token by any. -/
def Token.IsInline (token : Token) : Prop :=
  token.newlines = if token.isNewline then 1 else 0

theorem isInline_of_tokenize {source : String} {tokens : List Token}
    (h : tokenize source = .ok tokens) : ∀ token ∈ tokens, token.IsInline := by
  intro token mem
  simpa [Token.IsInline, Token.newlines, Token.isNewline] using
    (spells_of_tokenize h token mem).count_newline

/-- The next token: on the same line, or on a later one behind a newline. -/
def Token.Precedes (first second : Token) : Prop :=
  if first.isNewline then first.position.line < second.position.line
  else first.position.line = second.position.line

theorem Token.Precedes.le {first second : Token} (h : first.Precedes second) :
    first.position.line ≤ second.position.line := by
  unfold Precedes at h
  split at h
  next => exact Nat.le_of_lt h
  next => exact Nat.le_of_eq h

theorem Skipped.newline_not_mem {token : Token} {gap : List Char} {next : Option Token}
    (h : Skipped (some token) gap next) (other : token.isNewline = false) : '\n' ∉ gap := by
  unfold Skipped at h
  dsimp only at h
  split at h
  next => exact h.1
  next =>
    rw [if_neg (by simp [other])] at h
    exact LineBasic.newline_not_mem h

/-- A token stands as many lines behind the last one as there are newlines in that and in the gap. -/
theorem Token.precedes_of_gap {first second : Token} {before gap : List Char} {next : Option Token}
    (inline : first.IsInline) (skipped : Skipped (some first) gap next)
    (place : (Position.behind before).line = first.position.line + first.newlines)
    (stands : second.position = Position.behind (before ++ gap)) : first.Precedes second := by
  rw [Position.behind_eq] at place stands
  dsimp only at place
  unfold Precedes
  rw [IsInline] at inline
  have line : second.position.line = 1 + (before ++ gap).count '\n' := by rw [stands]
  rw [count_append] at line
  split
  next newline =>
    rw [if_pos newline] at inline
    omega
  next other =>
    rw [if_neg other] at inline
    have none := count_eq_zero.mpr (skipped.newline_not_mem (by simpa using other))
    omega

theorem Cover.isChain {previous : Option Token} {before rest : List Char} {tokens : List Token}
    (h : Cover previous before rest tokens)
    (inline : ∀ token ∈ previous.toList ++ tokens, token.IsInline)
    (place : ∀ token ∈ previous,
      (Position.behind before).line = token.position.line + token.newlines) :
    (previous.toList ++ tokens).IsChain Token.Precedes := by
  induction h with
  | @done previous =>
    cases previous with
    | none => exact .nil
    | some token => exact .singleton _
  | @final previous before gap token _ skipped _ _ _ stands =>
    cases previous with
    | none => exact .singleton _
    | some first =>
      refine .cons_cons ?_ (.singleton _)
      exact Token.precedes_of_gap (inline first (by simp)) skipped (place first rfl) stands
  | @token previous before gap lexeme after token tokens skipped _ _ isAt _ ih =>
    have rest : (token :: tokens).IsChain Token.Precedes := by
      refine ih (fun other mem => inline other (mem_append_right _ mem)) fun other mem => ?_
      cases mem
      rw [isAt.position, Token.newlines, isAt.text, String.toList_ofList, Position.behind_eq,
        Position.behind_eq]
      simp only [count_append]
      omega
    cases previous with
    | none => exact rest
    | some first =>
      refine .cons_cons ?_ rest
      exact Token.precedes_of_gap (inline first (by simp)) skipped (place first rfl) isAt.position

theorem isChain_of_tokenize {source : String} {tokens : List Token}
    (h : tokenize source = .ok tokens) : tokens.IsChain Token.Precedes :=
  (cover_of_tokenize h).isChain (isInline_of_tokenize h) (by simp)

/-- The tokens up to the next newline stand on one line of the text, the newline with them. -/
inductive OnLine (line : Nat) : List Token → Prop
  | newline {token : Token} {rest : List Token} : token.isNewline → token.position.line = line →
      OnLine line (token :: rest)
  | inside {token : Token} {rest : List Token} : token.isNewline = false →
      token.position.line = line → OnLine line rest → OnLine line (token :: rest)

section Chain

variable {first : Token} {before rest : List Token}

theorem onLine_of_isChain (h : (first :: rest).IsChain Token.Precedes)
    (last : ∀ token ∈ (first :: rest).getLast?, token.isNewline) :
    OnLine first.position.line (first :: rest) := by
  induction rest generalizing first with
  | nil => exact .newline (last first rfl) rfl
  | cons second rest ih =>
    obtain ⟨precedes, chain⟩ := isChain_cons_cons.mp h
    rw [getLast?_cons_cons] at last
    by_cases newline : first.isNewline
    · exact .newline newline rfl
    · rw [Token.Precedes, if_neg newline] at precedes
      refine .inside (by simpa using newline) rfl ?_
      rw [precedes]
      exact ih chain last

theorem pairwise_of_isChain {tokens : List Token} (h : tokens.IsChain Token.Precedes) :
    tokens.Pairwise fun first second => first.position.line ≤ second.position.line := by
  have ordered : tokens.IsChain fun first second => first.position.line ≤ second.position.line :=
    h.imp fun _ _ precedes => precedes.le
  exact isChain_iff_pairwise.mp ordered

theorem lt_of_isChain (h : (before ++ first :: rest).IsChain Token.Precedes)
    (ended : ∀ token ∈ before.getLast?, token.isNewline) :
    ∀ token ∈ before, token.position.line < first.position.line := by
  intro token mem
  obtain ⟨front, last, rfl⟩ := (eq_nil_or_concat' before).resolve_left (ne_nil_of_mem mem)
  have newline : last.isNewline := ended last (by simp)
  rw [append_assoc] at h
  have precedes : last.Precedes first :=
    (isChain_cons_cons.mp (isChain_append.mp h).2.1).1
  rw [Token.Precedes, if_pos newline] at precedes
  rcases mem_append.mp mem with mem | mem
  · have ordered := (pairwise_append.mp (pairwise_of_isChain h)).2.2 token mem last (by simp)
    omega
  · rw [mem_singleton.mp mem]
    exact precedes

end Chain

end LineBasic
