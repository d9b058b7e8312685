import LineBasic.Proofs.Parse.Initializers

/-!
Where first values go: to the element whose index is the value's path in the list.
-/

namespace LineBasic

open List

/-- An integer at a path in a nested list, with its sign. -/
inductive Signed (path : List Nat) : List Token → List (List Nat × String) → Prop
  | plain {digits : Token} : digits.kind = .literal .integer →
      (Text.int32? digits.text.toList).isSome → Signed path [digits] [(path, digits.text)]
  | negative {minus digits : Token} : minus.kind = .operator .minus →
      digits.kind = .literal .integer → (Text.int32? ("-" ++ digits.text).toList).isSome →
      Signed path [minus, digits] [(path, "-" ++ digits.text)]

/-- The items of the list at a path, from the one with number `i` on, with commas between them. There
may be none, and there are at most `dim`. -/
inductive Items (item : List Nat → List Token → List (List Nat × String) → Prop) (dim : Nat)
    (path : List Nat) : Nat → List Token → List (List Nat × String) → Prop
  | none : Items item dim path 0 [] []
  | last {i : Nat} {tokens : List Token} {values : List (List Nat × String)} : i < dim →
      item (path ++ [i]) tokens values → Items item dim path i tokens values
  | cons {i : Nat} {tokens more : List Token} {comma : Token}
      {values others : List (List Nat × String)} : i < dim → item (path ++ [i]) tokens values →
      comma.kind = .separator .comma → Items item dim path (i + 1) more others →
      Items item dim path i (tokens ++ comma :: more) (values ++ others)

/-- A list with one level for each dimension, at a path in a nested list: its tokens, and the integers
in it with their paths. -/
def Nested : List Nat → List Nat → List Token → List (List Nat × String) → Prop
  | [], path, tokens, values => Signed path tokens values
  | dim :: dims, path, tokens, values => ∃ left items right, tokens = left :: (items ++ [right]) ∧
      left.kind = .separator .leftBrace ∧ right.kind = .separator .rightBrace ∧
      Items (Nested dims) dim path 0 items values

/-- The dimensions of an array, each in brackets. -/
inductive Sizes : List Nat → List Token → Prop
  | nil : Sizes [] []
  | cons {dim : Nat} {dims : List Nat} {left size right : Token} {tokens : List Token} :
      left.kind = .separator .leftBracket → size.kind = .literal .integer →
      Text.natural? size.text.toList = some dim → 0 < dim → dim < 0x10000000000000000 →
      right.kind = .separator .rightBracket → Sizes dims tokens →
      Sizes (dim :: dims) (left :: size :: right :: tokens)

/-- The assignment of an integer to the element of an array at the given index. -/
def Node.IsFirstValue (node : Node) (number : Nat) (index : List Nat) (text : String) : Prop :=
  ∃ id line target indices value, node = ⟨id, line, .assign,
      [⟨target, line, .reference number, indices⟩,
        ⟨value, line, .literal { text, type := .int }, []⟩]⟩ ∧
    indices.map Node.kind = index.map fun i => .literal { text := toString i, type := .int }

namespace Parse

variable {env env₁ env' : Env} {number : Nat} {name : Token} {dims outer path tail : List Nat}
  {tokens more : List Token} {values others : List (List Nat × String)} {place place₁ place' : Place}

/-- An array that may hold integers. -/
def Env.IsArray (env : Env) (number : Nat) (dims : List Nat) : Prop :=
  ∃ v, env.symbols[number]? = some v ∧ v.dims = dims ∧ ∀ type, v.type = some type → type = .int

/-- Integers have been assigned to elements of an array, without a fault. -/
structure Env.Fills (env : Env) (number : Nat) (dims : List Nat)
    (values : List (List Nat × String)) (env' : Env) : Prop where
  errors : env'.errors = env.errors
  isArray : env'.IsArray number dims
  statements : ∃ nodes, env'.current.statements.toList = env.current.statements.toList ++ nodes ∧
    Forall₂ (fun value node => Node.IsFirstValue node number value.1 value.2) values nodes

theorem Env.Fills.nil (isArray : env.IsArray number dims) : env.Fills number dims [] env :=
  ⟨rfl, isArray, [], by simp, .nil⟩

theorem Env.Fills.append (first : env.Fills number dims values env₁)
    (second : env₁.Fills number dims others env') :
    env.Fills number dims (values ++ others) env' := by
  obtain ⟨nodes, added, are⟩ := first.statements
  obtain ⟨nodes', added', are'⟩ := second.statements
  refine ⟨second.errors.trans first.errors, second.isArray, nodes ++ nodes', ?_,
    rel_append are are'⟩
  rw [added', added, append_assoc]

theorem exists_indexLiterals (index : List Nat) (env : Env) :
    ∃ nodes size, (index.mapM fun i => Check.literalNode (toString i) .int).Yields env nodes
        { env with size } ∧
      nodes.map Node.kind = index.map fun i => .literal { text := toString i, type := .int } := by
  induction index generalizing env with
  | nil => exact ⟨[], env.size, rfl, rfl⟩
  | cons i index ih =>
    obtain ⟨nodes, size, made, kinds⟩ := ih { env with size := env.size + 1 }
    refine ⟨⟨env.size, env.line, .literal { text := toString i, type := .int }, []⟩ :: nodes, size,
      ?_, by simp [kinds]⟩
    rw [mapM_cons]
    exact Check.yields_bind.mpr ⟨_, _, rfl, Check.yields_bind.mpr ⟨_, _, made, rfl⟩⟩

theorem exists_assignment {target value : Node} (isArray : env.IsArray number dims)
    (isTarget : target.kind = .reference number) (isInt : env.type? value = some .int) :
    ∃ symbols, (Check.assignment name target value).Yields env
        ⟨env.size, env.line, .assign, [target, value]⟩
        { env with symbols, size := env.size + 1 } ∧
      ∃ v, symbols[number]? = some v ∧ v.dims = dims ∧ v.type = some .int := by
  obtain ⟨v, found, rfl, isType⟩ := isArray
  have known : env.type? target = v.type := by simp [Env.type?, isTarget, NodeKind.type?, found]
  unfold Check.assignment
  rw [isTarget]
  cases type : v.type with
  | none =>
    refine ⟨env.symbols.modify number ({ · with type := some .int }),
      Check.yields_get_bind.mpr ?_, { v with type := some .int }, by simp [Array.getElem?_modify, found],
      rfl, rfl⟩
    simp only [known, type, isInt]
    rfl
  | some other =>
    cases isType other type
    refine ⟨env.symbols, Check.yields_get_bind.mpr ?_, v, found, rfl, type⟩
    simp only [known, type, isInt, ne_eq, not_true_eq_false, if_false]
    rfl

theorem exists_element {index : List Nat} {token : Token} {negative : Bool} {text : String}
    (isArray : env.IsArray number dims) (inside : (Shape.offset? dims index).isSome)
    (eq : (if negative then "-" ++ token.text else token.text) = text)
    (fits : (Text.int32? text.toList).isSome) :
    ∃ env', (Check.element number name index token .integer negative).Yields env () env' ∧
      env.Fills number dims [(index, text)] env' := by
  let value : Node := ⟨env.size, env.line, .literal { text, type := .int }, []⟩
  have isValue : (Check.literal token .integer negative).Yields env value
      { env with size := env.size + 1 } := by
    unfold Check.literal
    simp only [eq]
    rw [if_neg (by simp [Option.isSome_iff_ne_none.mp fits])]
    rfl
  obtain ⟨nodes, size, made, kinds⟩ := exists_indexLiterals index { env with size := env.size + 2 }
  let target : Node := ⟨env.size + 1, env.line, .reference number, nodes⟩
  obtain ⟨symbols, assigned, v, found, isShape, isInt⟩ :=
    @exists_assignment { env with size } number name dims target value isArray rfl rfl
  refine ⟨({ env with symbols, size := size + 1 } : Env).attached
      ⟨size, env.line, .assign, [target, value]⟩,
    Check.yields_bind.mpr ⟨_, _, isValue, Check.yields_get_bind.mpr ?_⟩, ?_⟩
  · obtain ⟨v, found, rfl, _⟩ := isArray
    simp only [found, Option.map_some, Option.getD_some]
    rw [if_neg (by simpa [Option.isSome_iff_ne_none] using inside)]
    exact Check.yields_fresh_bind.mpr (Check.yields_bind.mpr ⟨_, _, made,
      Check.yields_get_bind.mpr (Check.yields_bind.mpr ⟨_, _, assigned, rfl⟩)⟩)
  · refine ⟨?_, ⟨v, ?_, isShape, fun type eq => ?_⟩, [⟨size, env.line, .assign, [target, value]⟩], ?_,
      .cons ⟨_, _, _, nodes, _, rfl, kinds⟩ .nil⟩
    · unfold Env.attached Env.appended Env.markLine Env.updateCurrent
      split <;> rfl
    · rwa [Env.symbols_attached]
    · exact Option.some.inj (eq.symm.trans isInt)
    · rw [← Array.toList_push]
      exact congrArg Array.toList (Env.current_appended ..)

theorem yields_enterBrace {s : TokenStream} (fits : place.enter.fits) :
    (enterBrace name place).Yields s env place.enter s env := by
  simp only [enterBrace, fits, Bool.not_true, Bool.false_eq_true, if_false]
  exact yields_pure.mpr ⟨rfl, rfl, rfl⟩

/-- Reading on through a nested list gets over the tokens, from one place to another. -/
def Gets (number : Nat) (name : Token) (tokens : List Token) (env : Env) (place : Place)
    (env' : Env) (place' : Place) : Prop :=
  ∃ rounds ≤ tokens.length, ∀ past rest bound s later,
    (elements number name bound place').Yields ⟨tokens.reverse ++ past, rest⟩ env' () s later →
      (elements number name (bound + rounds) place).Yields ⟨past, tokens ++ rest⟩ env () s later

namespace Gets

theorem refl : Gets number name [] env place env place :=
  ⟨0, Nat.le_refl _, fun _ _ _ _ _ h => h⟩

theorem trans (first : Gets number name tokens env place env₁ place₁)
    (second : Gets number name more env₁ place₁ env' place') :
    Gets number name (tokens ++ more) env place env' place' := by
  obtain ⟨n, bound, first⟩ := first
  obtain ⟨m, bound', second⟩ := second
  refine ⟨m + n, by rw [length_append]; omega, fun past rest bound s later h => ?_⟩
  rw [append_assoc, ← Nat.add_assoc]
  refine first past _ _ s later (second _ rest bound s later ?_)
  rwa [← append_assoc, ← reverse_append]

variable {token : Token} (isOpen : place.depth ≠ 0)

include isOpen

theorem enter (isLeft : token.kind = .separator .leftBrace) (fits : place.enter.fits) :
    Gets number name [token] env place env place.enter := by
  refine ⟨1, by simp, fun past rest bound s later h => ?_⟩
  unfold elements
  rw [if_neg isOpen]
  refine yields_advance_bind.mpr ⟨token, ⟨token :: past, rest⟩, rfl, rfl, ?_⟩
  rw [isLeft]
  exact yields_bind.mpr ⟨place.enter, _, _, yields_enterBrace fits, h⟩

theorem leave (isRight : token.kind = .separator .rightBrace) :
    Gets number name [token] env place env place.leave := by
  refine ⟨1, by simp, fun past rest bound s later h => ?_⟩
  unfold elements
  rw [if_neg isOpen]
  refine yields_advance_bind.mpr ⟨token, ⟨token :: past, rest⟩, rfl, rfl, ?_⟩
  rw [isRight]
  exact h

theorem comma (isComma : token.kind = .separator .comma) :
    Gets number name [token] env place env place.advance := by
  refine ⟨1, by simp, fun past rest bound s later h => ?_⟩
  unfold elements
  rw [if_neg isOpen]
  refine yields_advance_bind.mpr ⟨token, ⟨token :: past, rest⟩, rfl, rfl, ?_⟩
  rw [isComma]
  exact h

theorem value (isInteger : token.kind = .literal .integer)
    (assigned : (Check.element number name place.index token .integer false).Yields env () env') :
    Gets number name [token] env place env' place := by
  refine ⟨1, by simp, fun past rest bound s later h => ?_⟩
  unfold elements
  rw [if_neg isOpen]
  refine yields_advance_bind.mpr ⟨token, ⟨token :: past, rest⟩, rfl, rfl, ?_⟩
  rw [isInteger]
  exact yields_lift_bind.mpr ⟨_, _, assigned, h⟩

theorem negative {digits : Token} (isMinus : token.kind = .operator .minus)
    (isInteger : digits.kind = .literal .integer)
    (assigned : (Check.element number name place.index digits .integer true).Yields env () env') :
    Gets number name [token, digits] env place env' place := by
  refine ⟨1, by simp, fun past rest bound s later h => ?_⟩
  unfold elements
  rw [if_neg isOpen]
  refine yields_advance_bind.mpr ⟨token, ⟨token :: past, digits :: rest⟩, rfl, rfl, ?_⟩
  rw [isMinus]
  refine yields_advance_bind.mpr ⟨digits, ⟨digits :: token :: past, rest⟩, rfl, rfl, ?_⟩
  rw [isInteger]
  exact yields_lift_bind.mpr ⟨_, _, assigned, h⟩

end Gets

end Parse

open Parse

theorem Place.advance_item (path tail : List Nat) (i : Nat) :
    Place.advance ⟨path ++ i :: tail, path.length + 1⟩ =
      ⟨path ++ (i + 1) :: tail, path.length + 1⟩ := by
  have modified : (path ++ i :: tail).modify path.length (· + 1) = path ++ (i + 1) :: tail := by
    induction path with
    | nil => rfl
    | cons _ _ ih => simp [ih]
  simp [Place.advance, modified]

/-- The tokens at a path in a nested list are read, and their integers are assigned. The indices of
inner lists may be any after that. -/
def Fetches (number : Nat) (name : Token) (shape : List Nat) (tokens : List Token)
    (values : List (List Nat × String)) (env : Env) (path tail : List Nat) (depth : Nat) : Prop :=
  ∃ tail' env', tail'.length = tail.length ∧ env.Fills number shape values env' ∧
    Gets number name tokens env ⟨path ++ tail, depth⟩ env' ⟨path ++ tail', depth⟩

/-- Items with a level of lists for each of the dimensions are read. -/
def Fetched (number : Nat) (name : Token) (dims : List Nat)
    (item : List Nat → List Token → List (List Nat × String) → Prop) : Prop :=
  ∀ {env : Env} {path outer tail : List Nat} {tokens : List Token}
    {values : List (List Nat × String)}, item path tokens values → path ≠ [] →
    Forall₂ (· < ·) path outer → env.IsArray number (outer ++ dims) →
    tail.length = dims.length →
    Fetches number name (outer ++ dims) tokens values env path tail path.length

theorem Items.fetched {number : Nat} {name : Token} {dims : List Nat}
    {item : List Nat → List Token → List (List Nat × String) → Prop}
    (each : Fetched number name dims item) {env : Env} {dim i : Nat} {path outer tail : List Nat}
    {tokens : List Token} {values : List (List Nat × String)}
    (h : Items item dim path i tokens values) (inside : Forall₂ (· < ·) path outer)
    (isArray : env.IsArray number (outer ++ dim :: dims)) (length : tail.length = dims.length) :
    Fetches number name (outer ++ dim :: dims) tokens values env path (i :: tail)
      (path.length + 1) := by
  have one {env : Env} {i : Nat} {tail : List Nat} {tokens : List Token}
      {values : List (List Nat × String)} (bound : i < dim) (isItem : item (path ++ [i]) tokens values)
      (isArray : env.IsArray number (outer ++ dim :: dims)) (length : tail.length = dims.length) :
      Fetches number name (outer ++ dim :: dims) tokens values env (path ++ [i]) tail
        (path.length + 1) := by
    simpa using each isItem (by simp) (rel_append inside (.cons bound .nil))
      (by simpa using isArray) length
  induction h generalizing env tail with
  | none => exact ⟨_, env, rfl, .nil isArray, .refl⟩
  | @last i _ _ bound isItem =>
    obtain ⟨tail', env', same, fills, gets⟩ := one bound isItem isArray length
    exact ⟨i :: tail', env', by simp [same], fills, by simpa using gets⟩
  | @cons i _ _ _ _ _ bound isItem isComma _ ih =>
    obtain ⟨tail', env₁, same, fills, gets⟩ := one bound isItem isArray length
    obtain ⟨last, env', same', fills', gets'⟩ := ih fills.isArray (same.trans length)
    rw [← Place.advance_item] at gets'
    refine ⟨last, env', by simpa [same] using same', fills.append fills', ?_⟩
    simp only [append_assoc, singleton_append] at gets
    exact gets.trans ((Gets.comma (Nat.succ_ne_zero _) isComma).trans gets')

theorem Nested.fetched (number : Nat) (name : Token) (dims : List Nat) :
    Fetched number name dims (Nested dims) := by
  induction dims with
  | nil =>
    intro env path outer tail tokens values h nonempty inside isArray length
    have isOpen : path.length ≠ 0 := by simpa using nonempty
    have inside := Shape.isSome_offset?.mpr inside
    cases length_eq_zero_iff.mp length
    simp only [append_nil] at isArray ⊢
    cases h with
    | plain isInteger fits =>
      obtain ⟨env', assigned, fills⟩ := @exists_element env number name outer path _ false _
        isArray inside rfl fits
      exact ⟨[], env', rfl, fills, by simpa using .value isOpen isInteger assigned⟩
    | negative isMinus isInteger fits =>
      obtain ⟨env', assigned, fills⟩ := @exists_element env number name outer path _ true _
        isArray inside rfl fits
      exact ⟨[], env', rfl, fills, by simpa using .negative isOpen isMinus isInteger assigned⟩
  | cons dim dims ih =>
    rintro env path outer tail _ values ⟨left, items, right, rfl, isLeft, isRight, isItems⟩ nonempty
      inside isArray length
    have isOpen : path.length ≠ 0 := by simpa using nonempty
    have entered : Place.enter ⟨path ++ tail, path.length⟩ =
        ⟨path ++ 0 :: List.replicate dims.length 0, path.length + 1⟩ := by
      simp [Place.enter, length, replicate_succ]
    obtain ⟨tail', env', same, fills, gets⟩ := Items.fetched ih isItems inside isArray
      (length_replicate ..)
    have enter := @Gets.enter env number name ⟨path ++ tail, path.length⟩ left isOpen isLeft
      (by rw [entered]; simp [Place.fits])
    rw [entered] at enter
    exact ⟨tail', env', by simp [same, length], fills,
      enter.trans (gets.trans (.leave (Nat.succ_ne_zero _) isRight))⟩

namespace Parse

variable {env : Env} {name : Token} {dims : List Nat} {past rest : List Token}

theorem exists_initializer {number : Nat} {tokens : List Token} {values : List (List Nat × String)}
    (list : Nested dims [] tokens values) (nonempty : dims ≠ []) (isArray : env.IsArray number dims) :
    ∃ env', env.Fills number dims values env' ∧ (initializer number name).Yields
      ⟨past, tokens ++ rest⟩ env () ⟨tokens.reverse ++ past, rest⟩ env' := by
  cases dims with
  | nil => exact absurd rfl nonempty
  | cons dim dims =>
    obtain ⟨left, items, right, rfl, isLeft, isRight, isItems⟩ := list
    have shape : ((env.symbols[number]?.map Variable.dims).getD []) = dim :: dims := by
      obtain ⟨v, found, isShape, _⟩ := isArray
      simp [found, isShape]
    obtain ⟨tail, env', _, fills, gets⟩ := Items.fetched (Nested.fetched number name dims) isItems .nil
      isArray (length_replicate ..)
    obtain ⟨rounds, enough, gets⟩ := gets.trans (Gets.leave (Nat.succ_ne_zero _) isRight)
    refine ⟨env', fills, yields_getThe_bind.mpr (yields_expect_bind.mpr
      ⟨left, ⟨left :: past, items ++ [right] ++ rest⟩, by simp, rfl, isLeft, ?_⟩)⟩
    have entered : (Place.start (dim :: dims)).enter = ⟨0 :: List.replicate dims.length 0, 1⟩ := by
      simp [Place.start, Place.enter, replicate_succ]
    rw [shape]
    refine yields_bind.mpr ⟨_, ⟨left :: past, items ++ [right] ++ rest⟩, env,
      yields_enterBrace (by rw [entered]; simp [Place.fits]), yields_get_bind.mpr ?_⟩
    obtain ⟨more, eq⟩ := Nat.exists_eq_add_of_le
      (Nat.le_trans enough (Nat.le_add_right _ rest.length))
    rw [entered, length_append, eq, Nat.add_comm rounds]
    refine gets (left :: past) rest more _ _ ?_
    have whole : (items ++ [right]).reverse ++ left :: past =
        (left :: (items ++ [right])).reverse ++ past := by simp
    rw [whole]
    unfold elements
    split <;> exact yields_pure.mpr ⟨rfl, rfl, rfl⟩

theorem Sizes.repeats {sizes : List Token} (h : Sizes dims sizes)
    (ends : ∀ token ∈ rest.head?, token.kind ≠ .separator .leftBracket) :
    Repeats (dimension name) ⟨past, sizes ++ rest⟩ env dims ⟨sizes.reverse ++ past, rest⟩ env := by
  induction h generalizing past with
  | nil => exact .stop (yields_accept_bind.mpr ⟨false, _, .inr ⟨rfl, rfl, ends⟩, rfl⟩)
  | @cons dim dims left size right tokens isLeft isSize value positive small isRight _ ih =>
    have later := @ih (right :: size :: left :: past)
    simp only [reverse_cons, append_assoc, singleton_append] at later ⊢
    refine .more ?_ (by simp; omega) later
    refine yields_accept_bind.mpr ⟨true, ⟨left :: past, _⟩, .inl ⟨rfl, left, rfl, rfl, isLeft⟩, ?_⟩
    refine yields_expect_bind.mpr ⟨size, ⟨size :: left :: past, _⟩, rfl, rfl, isSize, ?_⟩
    refine yields_expect_bind.mpr ⟨right, ⟨right :: size :: left :: past, _⟩, rfl, rfl, isRight, ?_⟩
    simp only [value, Option.filter_some, positive, small, and_self, decide_true, if_true]
    exact yields_pure.mpr ⟨rfl, rfl, rfl⟩

end Parse

/-- An array is declared with a nested list of integers that fits its shape: one level of lists for
each dimension, and on no level more items than the dimension allows. No fault is found, and the
innermost block has one more assignment for each of the integers, in their order, to the element
whose index is the integer's path. -/
theorem firstValues_placed {env : Parse.Env} {word name equal : Token} {dims : List Nat}
    {sizes tokens past rest : List Token} {values : List (List Nat × String)}
    (isDim : word.kind = .keyword .DIM) (isName : name.kind = .identifier)
    (unknown : env.lookup? env.current name.text = none) (isSizes : Sizes dims sizes)
    (nonempty : dims ≠ []) (size : (Shape.size? dims).isSome) (isEqual : equal.kind = .operator .equal)
    (list : Nested dims [] tokens values) :
    ∃ (env' : Parse.Env) (v : Variable) (nodes : List Node),
      (Parse.statementBody word).Yields ⟨past, name :: (sizes ++ equal :: (tokens ++ rest))⟩ env ()
        ⟨(name :: (sizes ++ equal :: tokens)).reverse ++ past, rest⟩ env' ∧
      env'.errors = env.errors ∧ env'.symbols[env.symbols.size]? = some v ∧ v.dims = dims ∧
      env'.current.statements.toList = env.current.statements.toList ++ nodes ∧
      Forall₂ (fun value node => Node.IsFirstValue node env.symbols.size value.1 value.2)
        values nodes := by
  let v : Variable := { name := name.text, dims, scope := env.current.id }
  have found : (env.declared name.text dims).symbols[env.symbols.size]? = some v :=
    Array.getElem?_push_size
  let before := env.declared name.text dims
  let declared : Parse.Env := { before with log := before.log.push (.declared before.line v) }
  have same : declared.errors = env.errors ∧ declared.current.statements = env.current.statements := by
    cases env using Env.byBlocks <;> exact ⟨rfl, rfl⟩
  have isArray : declared.IsArray env.symbols.size dims := ⟨v, found, rfl, by simp [v]⟩
  obtain ⟨env', fills, filled⟩ := @Parse.exists_initializer declared name dims
    (equal :: (sizes.reverse ++ name :: past)) rest _ _ _ list nonempty isArray
  obtain ⟨v', found', isShape, _⟩ := fills.isArray
  obtain ⟨nodes, added, are⟩ := fills.statements
  rw [same.2] at added
  refine ⟨env', v', nodes, ?_, fills.errors.trans same.1, found', isShape, added, are⟩
  unfold Parse.statementBody
  rw [isDim, Parse.declaration_eq]
  refine Parse.yields_expect_bind.mpr ⟨name, ⟨name :: past, _⟩, rfl, rfl, isName, ?_⟩
  refine Parse.yields_bind.mpr ⟨dims, ⟨sizes.reverse ++ name :: past, equal :: (tokens ++ rest)⟩, env,
    (Parse.Sizes.repeats isSizes (by simp [isEqual])).many, Parse.yields_getThe_bind.mpr ?_⟩
  simp only [unknown, Option.isSome_none, Bool.false_eq_true, if_false, Parse.namedArray, size, if_true]
  refine Parse.yields_lift_bind.mpr ⟨_, _, Check.yields_declare.mpr ⟨rfl, rfl⟩,
    Parse.yields_getThe_bind.mpr ?_⟩
  simp only [found]
  refine Parse.yields_lift_bind.mpr ⟨(), declared, ?_, ?_⟩
  · rfl
  · refine Parse.yields_accept_bind.mpr ⟨true, ⟨equal :: (sizes.reverse ++ name :: past), _⟩,
      .inl ⟨rfl, equal, rfl, rfl, isEqual⟩, Parse.yields_peekKind?_bind.mpr ?_⟩
    simpa using filled

/-- A sign, a list that is not full and one with nothing in it. -/
theorem firstValues_placed_ragged : ∃ (tokens : List Token) (s : TokenStream) (env : Parse.Env)
    (nodes : List Node), tokens.map Token.text = ["A", "[", "2", "]", "[", "3", "]", "=", "\x7b",
      "\x7b", "-", "2147483648", "\x7d", ",", "\x7b", "\x7d", "\x7d"] ∧
    (Parse.statementBody { (default : Token) with kind := .keyword .DIM }).Yields ⟨[], tokens⟩
      { collect := true } () s env ∧
    env.errors = #[] ∧ env.current.statements.toList = nodes ∧ Forall₂
      (fun value node => Node.IsFirstValue node 0 value.1 value.2) [([0, 0], "-2147483648")] nodes := by
  let t (kind : TokenKind) (text : String) : Token := { (default : Token) with kind, text }
  let left := t (.separator .leftBrace) "\x7b"
  let right := t (.separator .rightBrace) "\x7d"
  let minus := t (.operator .minus) "-"
  let digits := t (.literal .integer) "2147483648"
  have isSizes : Sizes [2, 3] [t (.separator .leftBracket) "[", t (.literal .integer) "2",
      t (.separator .rightBracket) "]", t (.separator .leftBracket) "[", t (.literal .integer) "3",
      t (.separator .rightBracket) "]"] :=
    .cons rfl rfl (by decide) (by decide) (by decide) rfl
      (.cons rfl rfl (by decide) (by decide) (by decide) rfl .nil)
  have list : Nested [2, 3] [] (left :: ((left :: ([minus, digits] ++ [right])) ++
      t (.separator .comma) "," :: (left :: ([] ++ [right])) ++ [right]))
      ([([0, 0], "-2147483648")] ++ []) :=
    ⟨left, _, right, rfl, rfl, rfl, .cons (by decide)
      ⟨left, _, right, rfl, rfl, rfl, .last (by decide) (.negative rfl rfl (by decide))⟩ rfl
      (.last (by decide) ⟨left, [], right, rfl, rfl, rfl, .none⟩)⟩
  obtain ⟨env, v, nodes, yields, errors, _, _, added, are⟩ := @firstValues_placed { collect := true }
    { (default : Token) with kind := .keyword .DIM } (t .identifier "A") (t (.operator .equal) "=")
    _ _ _ [] [] _ rfl rfl rfl isSizes (by decide) (by decide) rfl list
  exact ⟨_, _, env, nodes, rfl, yields, errors, added, are⟩

end LineBasic
