import LineBasic.Proofs.Token.Quoted

/-!
The nested lists that give arrays their first values, and the order in which they are assigned.
-/

namespace LineBasic

open List

section Order

variable {first second index : List Nat} {depth : Nat}

theorem lex_of_take (h : List.Lex (· < ·) (first.take depth) (second.take depth)) :
    List.Lex (· < ·) first second := by
  induction depth generalizing first second with
  | zero => cases h
  | succ depth ih =>
    cases second with
    | nil => exact absurd h not_lex_nil
    | cons j js =>
      cases first with
      | nil => exact .nil
      | cons i is =>
        rw [take_succ_cons, take_succ_cons, cons_lex_cons_iff] at h
        exact cons_lex_cons_iff.mpr (h.imp_right fun h => ⟨h.1, ih h.2⟩)

theorem take_lex (h : List.Lex (· < ·) first second) (depth : Nat) :
    first.take depth = second.take depth ∨
      List.Lex (· < ·) (first.take depth) (second.take depth) := by
  induction h generalizing depth with
  | nil => cases depth with
    | zero => exact .inl rfl
    | succ depth => exact .inr .nil
  | rel less => cases depth with
    | zero => exact .inl rfl
    | succ depth => exact .inr (.rel less)
  | cons _ ih => cases depth with
    | zero => exact .inl rfl
    | succ depth => exact (ih depth).imp (fun same => by simp [same]) .cons

theorem take_lex_modify (h : depth < index.length) :
    List.Lex (· < ·) (index.take (depth + 1)) ((index.modify depth (· + 1)).take (depth + 1)) := by
  induction depth generalizing index with
  | zero =>
    cases index with
    | nil => cases h
    | cons i is => exact .rel (Nat.lt_succ_self i)
  | succ depth ih =>
    cases index with
    | nil => cases h
    | cons i is => exact .cons (ih (Nat.lt_of_succ_lt_succ h))

end Order

/-- A value or a list ends with the token. -/
def Token.endsItem (token : Token) : Bool :=
  match token.kind with
  | .literal _ | .separator .rightBrace => true
  | _ => false

/-- A value or a list starts with the token. -/
def Token.startsItem (token : Token) : Bool :=
  match token.kind with
  | .literal _ | .separator .leftBrace | .operator _ => true
  | _ => false

/-- Values and lists do not follow one another directly. -/
def Apart (token next : Token) : Prop :=
  token.endsItem = true → next.startsItem = false

instance : DecidableRel Apart := fun _ _ => inferInstanceAs (Decidable (_ → _))

namespace Place

variable {place : Place} {tokens : List Token} {visits : List (List Nat)} {before : List Nat}
  {ended : Bool}

/-- The index of the last value is behind the place, in one of the dimensions that braces are open
for. These are kept when further braces open. A value or a list that has just ended may be where the
place still is. -/
def Past (place : Place) (ended : Bool) (before : List Nat) : Prop :=
  if ended then before = place.index ∨ List.Lex (· < ·) before place.index
  else List.Lex (· < ·) (before.take place.depth) (place.index.take place.depth)

theorem Past.enter (h : place.Past false before) (fits : place.fits) :
    place.enter.Past false before := by
  have kept : place.enter.index.take place.depth = place.index.take place.depth := by
    have bound : place.depth ≤ place.index.length := by simpa [Place.fits] using fits
    simp [Place.enter, bound]
  have deeper : min place.depth place.enter.depth = place.depth := Nat.min_eq_left (Nat.le_succ _)
  refine @lex_of_take _ _ place.depth ?_
  rw [take_take, take_take, deeper, kept]
  exact h

theorem Past.leave (h : place.Past ended before) : place.leave.Past true before := by
  cases ended with
  | true => exact h
  | false => exact .inr (lex_of_take h)

theorem Past.advance (h : place.Past ended before) (fits : place.fits) (isOpen : place.depth ≠ 0) :
    place.advance.Past false before := by
  obtain ⟨depth, eq⟩ : ∃ depth, place.depth = depth + 1 := Nat.exists_eq_succ_of_ne_zero isOpen
  have bound : place.depth ≤ place.index.length := by simpa [Place.fits] using fits
  have further : List.Lex (· < ·) (place.index.take place.depth)
      (place.advance.index.take place.depth) := by
    rw [eq]
    simpa [Place.advance, eq] using @take_lex_modify place.index depth (by omega)
  have behind : before.take place.depth = place.index.take place.depth ∨
      List.Lex (· < ·) (before.take place.depth) (place.index.take place.depth) := by
    cases ended with
    | false => exact .inr h
    | true =>
      rcases h with rfl | less
      · exact .inl rfl
      · exact take_lex less place.depth
  rcases behind with same | less
  · rw [← same] at further
    exact further
  · exact lex_trans Nat.lt_trans less further

theorem Walks.increasing (walks : place.Walks tokens visits) (fits : place.fits)
    (apart : tokens.IsChain Apart)
    (next : ended = true → ∀ token ∈ tokens.head?, token.startsItem = false)
    {last : Option (List Nat)} (past : ∀ before ∈ last, place.Past ended before) :
    (last.toList ++ visits).Pairwise (List.Lex (· < ·)) := by
  have unended {token : Token} {rest : List Token} {ended : Bool} (starts : token.startsItem = true)
      (next : ended = true → ∀ other ∈ (token :: rest).head?, other.startsItem = false) :
      ended = false := by
    cases ended with
    | false => rfl
    | true => cases starts.symm.trans (next rfl token rfl)
  induction walks generalizing ended last with
  | done => cases last <;> simp
  | @enter place token _ _ isMark fits' _ ih =>
    obtain ⟨_, apart⟩ := isChain_cons.mp apart
    obtain rfl := unended (by simp [Token.startsItem, isMark]) next
    exact @ih false fits' apart (by simp) last fun before mem => (past before mem).enter fits
  | leave isMark _ _ ih =>
    obtain ⟨next, apart⟩ := isChain_cons.mp apart
    exact @ih true (by simp [Place.fits, Place.leave] at fits ⊢; omega) apart
      (fun _ token mem => next token mem (by simp [Token.endsItem, isMark])) last
      fun before mem => (past before mem).leave
  | comma isMark isOpen _ ih =>
    obtain ⟨_, apart⟩ := isChain_cons.mp apart
    exact @ih false (by simpa [Place.fits, Place.advance] using fits) apart (by simp) last
      fun before mem => (past before mem).advance fits isOpen
  | operator isMark _ ih =>
    obtain ⟨_, apart⟩ := isChain_cons.mp apart
    obtain rfl := unended (by simp [Token.startsItem, isMark]) next
    exact @ih false fits apart (by simp) last past
  | @literal place _ _ _ visits isMark _ ih =>
    obtain ⟨next', apart⟩ := isChain_cons.mp apart
    obtain rfl := unended (by simp [Token.startsItem, isMark]) next
    have later : (place.index :: visits).Pairwise (List.Lex (· < ·)) :=
      @ih true fits apart (fun _ token mem => next' token mem (by simp [Token.endsItem, isMark]))
        (some place.index) (by rintro _ ⟨⟩; exact .inl rfl)
    cases last with
    | none => exact later
    | some before =>
      have less : List.Lex (· < ·) before place.index := lex_of_take (past before rfl)
      refine .cons (fun index mem => ?_) later
      rcases mem_cons.mp mem with rfl | mem
      · exact less
      · exact lex_trans Nat.lt_trans less (rel_of_pairwise_cons later mem)

end Place

def NodeKind.number? : NodeKind → Option Nat
  | .literal value => Text.natural? value.text.toList
  | _ => none

/-- The place of the element that is assigned to, if its indices are literals. -/
def Node.elementOffset? (symbols : Array Variable) : Node → Option Nat
  | ⟨_, _, .assign, [⟨_, _, .reference number, indices⟩, _]⟩ => do
    let v ← symbols[number]?
    Shape.offset? v.dims (← (indices.map Node.kind).mapM NodeKind.number?)
  | _ => none

theorem Node.IsElement.elementOffset? {node : Node} {number : Nat} {index : List Nat}
    (h : node.IsElement number index) {symbols : Array Variable} {v : Variable}
    (found : symbols[number]? = some v) :
    node.elementOffset? symbols = Shape.offset? v.dims index := by
  obtain ⟨id, line, target, indices, value, rfl, kinds⟩ := h
  have numbers : (indices.map Node.kind).mapM NodeKind.number? = some index := by
    rw [kinds]
    clear kinds
    induction index with
    | nil => rfl
    | cons i index ih =>
      rw [map_cons, mapM_cons, ih, NodeKind.number?, Text.natural?_toString]
      rfl
  rw [Node.elementOffset?, found, numbers]
  rfl

namespace Parse

variable {s s' : TokenStream} {env env' : Env} {u : Unit}

theorem Env.current_appended (env : Env) (node : Node) :
    (env.appended node).current.statements = env.current.statements.push node := by
  cases env using Env.byBlocks <;> rfl

theorem Env.Elements.offsets {number : Nat} {visits : List (List Nat)} {v : Variable}
    (h : env.Elements number visits env') (found : env.symbols[number]? = some v) :
    ∃ nodes v', env'.current.statements.toList = env.current.statements.toList ++ nodes ∧
      env'.symbols[number]? = some v' ∧ v'.dims = v.dims ∧
      nodes.map (Node.elementOffset? env'.symbols) = visits.map (Shape.offset? v.dims) ∧
      ∀ index ∈ visits, (Shape.offset? v.dims index).isSome := by
  induction h generalizing v with
  | nil => exact ⟨[], v, by simp, found, rfl, rfl, by simp⟩
  | @cons env env₁ env' node index visits element _ ih =>
    obtain ⟨w, w', known, found', dims, inside⟩ := element.inside
    cases found.symm.trans known
    obtain ⟨nodes, v', statements, found'', dims', offsets, insides⟩ :=
      @ih w' (by rw [Env.symbols_attached]; exact found')
    rw [dims] at dims' offsets insides
    have current : env₁.current = env.current := by
      rw [element.alike.frame]
      rfl
    have attached : (env₁.attached node).current.statements = env.current.statements.push node :=
      current ▸ env₁.current_appended node
    refine ⟨node :: nodes, v', ?_, found'', dims', ?_, forall_mem_cons.mpr ⟨inside, insides⟩⟩
    · rw [statements, attached]
      simp
    · rw [map_cons, map_cons, offsets, element.isElement.elementOffset? found'', dims']

/-- The literals in the braces of a declaration become assignments, one each. If values and lists do
not follow one another directly, the elements come in increasing order. -/
theorem Yields.declaration_increasing (h : Parse.declaration.Yields s env u s' env')
    (strict : env.collect = false) {tokens : List Token} (takes : s.Takes tokens s')
    (apart : tokens.IsChain Apart) :
    ∃ (nodes : List Node) (offsets : List Nat),
      env'.current.statements.toList = env.current.statements.toList ++ nodes ∧
      nodes.length = (tokens.dropWhile fun token =>
        token.kind ≠ .separator .leftBrace).countP Token.isLiteral ∧
      nodes.map (Node.elementOffset? env'.symbols) = offsets.map some ∧
      offsets.Pairwise (· < ·) := by
  obtain ⟨name, dimensions, initializer, dims, env₁, takes', isName, isMany, passes, declares, _⟩ :=
    h.declaration_declares
  obtain rfl := append_cancel_right (takes.symm.trans takes')
  obtain rfl := passes.strict strict
  obtain ⟨size, log, initializes⟩ := declares.strict strict
  have sees := (env.sees_declared name.text size).grow (.recorded _ log)
  have collect : (env.declared name.text dims).collect = false := by
    cases env using Env.byBlocks <;> exact strict
  obtain ⟨visits, walks, elements⟩ := initializes.elements collect sees
  obtain ⟨nodes, v', statements, _, _, offsets, inside⟩ :=
    elements.offsets Array.getElem?_push_size
  have apart : initializer.IsChain Apart :=
    apart.suffix ((suffix_append _ _).trans (suffix_cons _ _))
  have ordered := @Place.Walks.increasing _ _ _ false walks (by simp [Place.fits, Place.start]) apart
    (by simp) none (by simp)
  have same : (env.declared name.text dims).current.statements = env.current.statements := by
    cases env using Env.byBlocks <;> rfl
  have isSome (index : List Nat) (mem : index ∈ visits) : ∃ k, Shape.offset? dims index = some k :=
    Option.isSome_iff_exists.mp (inside index mem)
  refine ⟨nodes, visits.map fun index => (Shape.offset? dims index).getD 0, same ▸ statements, ?_, ?_, ?_⟩
  · have length := congrArg List.length offsets
    rw [length_map, length_map, walks.length] at length
    rw [length, dropWhile_cons_of_pos (by simp [isName]),
      countP_firstValues isMany declares.isOptional]
  · rw [offsets, map_map]
    refine map_congr_left fun index mem => ?_
    obtain ⟨k, found⟩ := isSome index mem
    simp [found]
  · refine pairwise_map.mpr (List.Pairwise.imp_of_mem ?_ ordered)
    intro first second mem mem' less
    obtain ⟨k, found⟩ := isSome first mem
    obtain ⟨l, found'⟩ := isSome second mem'
    rw [found, found']
    exact (Shape.offset?_lt_offset? found found').mp less

theorem getElem?_momentsFrom_zero (bound : Nat) (s : TokenStream) (env : Env) :
    (momentsFrom bound s env)[0]? = some env := by
  cases bound with
  | zero => rfl
  | succ bound =>
    rw [momentsFrom]
    split <;> rfl

theorem Yields.statements_moments {bound : Nat} (h : (statements bound).Yields s env u s' env')
    (enough : s.rest.length ≤ bound) {i : Nat} {label : Token} {line : List Token}
    (found : (Text.pieces Token.isNewline s.rest)[i]? = some (label :: line)) :
    ∃ now next s₁ s₂ newline, (momentsFrom bound s env)[i]? = some now ∧
      (momentsFrom bound s env)[i + 1]? = some next ∧ now.collect = env.collect ∧
      statement.Yields s₁ now () s₂ next ∧ s₁.rest = label :: (line ++ newline :: s₂.rest) ∧
      newline.kind = .separator .newline := by
  have ended {s : TokenStream} (none : s.rest = []) (i : Nat) :
      (Text.pieces Token.isNewline s.rest)[i]? ≠ some (label :: line) := by
    rw [none]
    cases i <;> simp [Text.pieces]
  induction bound generalizing s env i with
  | zero => exact absurd found (ended (eq_nil_of_length_eq_zero (Nat.le_zero.mp enough)) i)
  | succ bound ih =>
    replace h := yields_get_bind.mp h
    split at h
    next atEnd => exact absurd found (ended (List.isEmpty_iff.mp atEnd) i)
    next more =>
      obtain ⟨_, s₁, env₁, h₂, h⟩ := yields_bind.mp h
      obtain ⟨first, body, newline, number, read, isNumber, _, isStatement, isNewline, _, collect, _⟩ :=
        h₂.statement_acts
      have oneLine : Grammar.OneLine (first :: body) :=
        .cons (by simp [isNumber.1]) (.statement isStatement)
      have moments : momentsFrom (bound + 1) s env = env :: momentsFrom bound s₁ env₁ := by
        have run : statement.exec s env = (.ok ((), s₁), env₁) := h₂
        rw [momentsFrom, if_neg more, run]
      rw [read, ← cons_append,
        Text.pieces_append_cons oneLine (by simp [Token.isNewline, isNewline])] at found
      rw [moments]
      cases i with
      | zero =>
        cases found
        exact ⟨env, env₁, s, s₁, newline, rfl, getElem?_momentsFrom_zero bound s₁ env₁, rfl, h₂, read,
          isNewline⟩
      | succ i =>
        have shorter : s₁.rest.length ≤ bound := by
          rw [read] at enough
          simp only [length_cons, length_append] at enough
          omega
        obtain ⟨now, next, s₂, s₃, newline, isNow, isNext, same, later⟩ := ih h shorter found
        exact ⟨now, next, s₂, s₃, newline, isNow, isNext, same.trans collect, later⟩

theorem Yields.declaration_of_statement {label word : Token} {rest : List Token}
    (h : statement.Yields s env u s' env') (read : s.rest = label :: word :: rest)
    (isDim : word.kind = .keyword .DIM) :
    ∃ s₁ s₂ number env₁ newline log, declaration.Yields s₁ (env.labelled number) () s₂ env₁ ∧
      s₁.rest = rest ∧ s₂.rest = newline :: s'.rest ∧ env' = { env₁ with log } := by
  obtain ⟨_, s₁, _, h₁, h⟩ := yields_bind.mp h
  obtain ⟨_, number, read₁, _, _, _, _, rfl⟩ := h₁.lineLabel
  obtain ⟨token, s₂, read₂, _, h⟩ := yields_advance_bind.mp h
  rw [read, read₂] at read₁
  simp only [List.cons.injEq] at read₁
  obtain ⟨_, rfl, rfl⟩ := read₁
  obtain ⟨_, s₃, env₃, h₃, h⟩ := yields_bind.mp h
  rw [statementBody, isDim] at h₃
  replace h := yields_getThe_bind.mp h
  obtain ⟨_, env₄, check, h⟩ := yields_lift_bind.mp h
  obtain rfl := Check.yields_modify.mp check
  obtain ⟨_, s₄, ⟨rfl, newline, read₃, _⟩ | ⟨rfl, rfl, _⟩, h⟩ := yields_accept_bind.mp h
  · obtain ⟨_, rfl, rfl⟩ := yields_pure.mp h
    exact ⟨s₂, s₃, number, env₃, newline, _, h₃, rfl, read₃, rfl⟩
  · obtain ⟨_, _, _, _, h⟩ := yields_bind.mp h
    exact absurd h not_yields_failHere

end Parse

/-- A program is accepted. If in a declaration values and lists do not follow one another directly, the
assignments that it adds to its block are for elements in increasing order, one for each literal of
its nested list. So no first value is overwritten by a later one. -/
theorem firstValues_increasing {source : String} {collect : Bool} {program : Program}
    {tokens rest : List Token} {label word : Token} {i : Nat}
    (accepted : (parseSource source collect).result = .ok program)
    (scanned : tokenize source = .ok tokens)
    (line : (Text.pieces Token.isNewline tokens)[i]? = some (label :: word :: rest))
    (isDim : word.kind = .keyword .DIM) (apart : rest.IsChain Apart) :
    ∃ (before later : Parse.Env) (nodes : List Node) (offsets : List Nat),
      (Parse.moments tokens false)[i]? = some before ∧
      (Parse.moments tokens false)[i + 1]? = some later ∧
      later.current.statements.toList = before.current.statements.toList ++ nodes ∧
      nodes.length = (rest.dropWhile fun token =>
        token.kind ≠ .separator .leftBrace).countP Token.isLiteral ∧
      nodes.map (Node.elementOffset? later.symbols) = offsets.map some ∧
      offsets.Pairwise (· < ·) := by
  obtain ⟨tokens', scanned', parsed⟩ := result_parseSource.mp accepted
  cases scanned.symm.trans scanned'
  obtain ⟨s, env, outcome, _, rfl⟩ := result_parse.mp (parse_strict parsed)
  have h : Parse.program.Yields (.ofTokens tokens) { collect := false } () s env := outcome
  replace h := Parse.yields_get_bind.mp h
  obtain ⟨_, _, _, statements, _⟩ := Parse.yields_bind.mp h
  obtain ⟨before, later, s₁, s₂, newline, isBefore, isLater, strict, h, whole, _⟩ :=
    statements.statements_moments (Nat.le_refl _) line
  obtain ⟨s₃, s₄, number, env₁, newline', log, declared, read, ended, rfl⟩ :=
    h.declaration_of_statement whole isDim
  have takes : s₃.Takes rest s₄ := by
    obtain ⟨_, _, _, _, _, takes, _⟩ := declared.declaration_declares
    have same := takes.symm.trans read
    rw [ended] at same
    obtain ⟨rfl, _⟩ := append_inj' same rfl
    exact takes
  obtain ⟨nodes, offsets, increasing⟩ := declared.declaration_increasing strict takes apart
  exact ⟨before, _, nodes, offsets, isBefore, isLater, increasing⟩

/-- Inner lists, a missing value and a sign. -/
theorem firstValues_increasing_ragged :
    ∃ (tokens : List Token) (before later : Parse.Env) (nodes : List Node) (offsets : List Nat),
      tokenize "10 LET X = 1\n20 DIM A[3][2] = {{1, -2}, , {3}}" = .ok tokens ∧
      (Parse.moments tokens false)[1]? = some before ∧
      (Parse.moments tokens false)[2]? = some later ∧
      later.current.statements.toList = before.current.statements.toList ++ nodes ∧
      nodes.length = 3 ∧ nodes.map (Node.elementOffset? later.symbols) = offsets.map some ∧
      offsets.Pairwise (· < ·) := by
  generalize hs : "10 LET X = 1\n20 DIM A[3][2] = {{1, -2}, , {3}}" = source
  have evaluated : ((tokenize source).toOption.bind fun tokens =>
      (Text.pieces Token.isNewline tokens)[1]?.map fun piece =>
        (piece[1]?.map Token.kind, decide ((piece.drop 2).IsChain Apart),
          ((piece.drop 2).dropWhile fun token =>
            token.kind ≠ .separator .leftBrace).countP Token.isLiteral)) =
      some (some (.keyword .DIM), true, 3) := by
    subst hs
    decide +kernel
  have accepted : (parseSource source false).result.toOption.isSome := by
    subst hs
    decide +kernel
  obtain ⟨program, accepted⟩ := Option.isSome_iff_exists.mp accepted
  obtain ⟨tokens, scanned, evaluated⟩ := exists_ok_of_bind evaluated
  obtain ⟨line, found, eq⟩ := Option.map_eq_some_iff.mp evaluated
  simp only [Prod.mk.injEq, Option.map_eq_some_iff, decide_eq_true_eq] at eq
  obtain ⟨⟨word, second, isDim⟩, apart, count⟩ := eq
  obtain ⟨label, rest, rfl⟩ : ∃ label rest, line = label :: word :: rest := by
    cases line with
    | nil => cases second
    | cons label line =>
      cases line with
      | nil => cases second
      | cons other rest =>
        cases second
        exact ⟨label, rest, rfl⟩
  obtain ⟨before, later, nodes, offsets, isBefore, isLater, added, length, increasing⟩ :=
    firstValues_increasing (eq_ok_of_toOption accepted) scanned found isDim apart
  exact ⟨tokens, before, later, nodes, offsets, scanned, isBefore, isLater, added,
    length.trans count, increasing⟩

/-- Values that follow one another directly are for the same element: the first one is lost. -/
theorem firstValues_overwritten : ∃ program,
    (parseSource "10 DIM A[2] = {1 2}" false).result = .ok program ∧
      program.root.children.map (Node.elementOffset? program.symbols) = [some 0, some 0] := by
  have evaluated : ((parseSource "10 DIM A[2] = {1 2}" false).result.toOption.map fun program =>
      program.root.children.map (Node.elementOffset? program.symbols)) =
        some [some 0, some 0] := by
    decide +kernel
  obtain ⟨program, parsed, offsets⟩ := exists_ok_of_map evaluated
  exact ⟨program, parsed, offsets⟩

end LineBasic
