import LineBasic.Proofs.Semantics.Statements

/-!
Code for statements with blocks does what the statements mean.
-/

namespace LineBasic

open List Machine Lower
open Node (IsExpression IsReference IsStart IsComparison IsSimple IsStatement)

/-- Code for statements has run: it has come to its end, or a jump has been made. -/
inductive Exits (image : Image) (table : Array Variable) (reserved : Nat) (visible : List Nat)
    (w : World) (pc : Nat) (s : State) : Option Nat → Prop
  | through : Mirrors image table reserved visible w s → s.pc = pc →
      Exits image table reserved visible w pc s none
  | jumps {line : Nat} : Mirrors image table reserved visible w s →
      image.labels.lookup (lineLabel line) = some s.pc →
      Exits image table reserved visible w pc s (some line)

/-- Code that ends before `pc` does what a run of the tree has done, if that has a meaning. -/
def Follows (image : Image) (table : Array Variable) (reserved : Nat) (visible : List Nat)
    (outcome : Option (World × Option Nat)) (pc : Nat) (s : State) : Prop :=
  ∀ w jump, outcome = some (w, jump) →
    image.Arrives (fun s' => Exits image table reserved visible w pc s' jump) s

variable {image : Image} {symbols table : Array Variable} {strings : Array Literal} {target : Target}
  {reserved pc pc' : Nat} {visible vars : List Nat} {w w' : World} {s : State} {node : Node}
  {nodes : List Node} {last jump : Option Nat} {outcome : Option (World × Option Nat)}
  {code : List Instr}

theorem Follows.goes (h : Follows image table reserved visible outcome pc s)
    (next : ∀ w s', Mirrors image table reserved visible w s' → s'.pc = pc →
      Follows image table reserved visible (some (w, none)) pc' s') :
    Follows image table reserved visible outcome pc' s := by
  intro w jump done
  refine (h w jump done).bind fun s₁ exits => ?_
  cases exits with
  | through mirrors pc => exact next w s₁ mirrors pc w none rfl
  | jumps mirrors found => exact .here (.jumps mirrors found)

theorem follows_here (mirrors : Mirrors image table reserved visible w s) (pc : s.pc = pc') :
    Follows image table reserved visible (some (w, none)) pc' s := by
  rintro _ _ ⟨⟩
  exact .here (.through mirrors pc)

theorem follows_jmp {name : String} (lies : image.Holds s.pc [.jmp name])
    (found : image.labels.lookup name = some pc')
    (mirrors : Mirrors image table reserved visible w s) :
    Follows image table reserved visible (some (w, none)) pc' s := by
  rintro _ _ ⟨⟩
  exact Image.comes_jmp lies found (.here (.through (mirrors.goto pc') rfl))

theorem follows_of_does {α : Type} {lowered : Lowered α} {found : Option World}
    (h : ∀ w, found = some w →
      lowered.Does image s fun _ => Mirrors image table reserved visible w)
    (succeeds : lowered.Succeeds) (lies : image.Holds s.pc lowered.code) :
    Follows image table reserved visible (found.bind fun w => some (w, none))
      (s.pc + commandCount lowered.code) s := by
  intro w jump done
  obtain ⟨w, isFound, ⟨⟩⟩ := Option.bind_eq_some_iff.mp done
  obtain ⟨a, result⟩ := succeeds
  exact (h w isFound a result lies).mono fun s' ⟨pc, mirrors⟩ => .through mirrors pc

section Simple

theorem follows_goto {line : Nat} (suits : Suits image symbols table strings)
    (mirrors : Mirrors image table reserved visible w s)
    (lies : image.Holds s.pc [.jmp (lineLabel line)]) :
    Follows image table reserved visible (some (w, some line)) pc s := by
  rintro _ _ ⟨⟩
  obtain ⟨⟨action, source⟩, command, acts⟩ := lies.2.1 rfl
  cases acts
  obtain ⟨pc', found⟩ := suits.jumps s.pc _ (lineLabel line) command rfl
  exact Image.comes_jmp lies found (.here (.jumps (mirrors.goto pc') found))

theorem follows_simple (suits : Suits image symbols table strings)
    (storage : Storage table reserved visible) (h : IsSimple table strings visible node)
    (lowers : Lowers target table node) (mirrors : Mirrors image table reserved visible w s)
    (lies : image.Holds s.pc (simpleCode target table node)) :
    Follows image table reserved visible (w.simple? symbols node)
      (s.pc + commandCount (simpleCode target table node)) s := by
  cases h with
  | assign isTarget isValue =>
    exact follows_of_does (fun _ => does_assignment suits storage mirrors isTarget isValue) lowers lies
  | goto => exact follows_goto suits mirrors lies
  | print isFormat isArgument =>
    exact follows_of_does (fun _ => does_print suits storage mirrors isFormat isArgument) lowers lies
  | println isFormat isArgument =>
    have isArgument := fun node mem => (isArgument node (Option.mem_toList.mp mem)).1
    exact follows_of_does (fun _ => does_print suits storage mirrors isFormat isArgument) lowers lies
  | read isFormat isTarget =>
    exact follows_of_does (fun _ => does_read suits storage mirrors isFormat isTarget) lowers lies

end Simple

section Blocks

theorem executes_grow (mirrors : Mirrors image table reserved visible w s)
    (bound : reserved + frameSize table vars ≤ maxFrameSize) :
    image.Executes (grow (frameSize table vars)) s
      (Mirrors image table (reserved + frameSize table vars) (vars ++ visible)
        { w with store := w.store.forget vars }) := by
  unfold grow
  split
  next zero =>
    refine Image.completes_nil (mirrors.enter ?_ rfl rfl rfl rfl)
    omega
  next =>
    refine Image.executes_one rfl fun room _ => ⟨_, rfl, rfl, mirrors.enter ?_ rfl rfl rfl rfl⟩
    have small : frameSize table vars < 0x80000000 := by
      unfold maxFrameSize at bound
      omega
    have room : -0x80000000 ≤ (s.reg .esp).toInt - (Int32.ofNat (frameSize table vars)).toInt := room
    rw [toInt_ofNat_of_lt small] at room
    have high := Int32.toInt_lt (s.reg .esp)
    exact @toInt_sub_ofNat (s.reg .esp) _ room (by omega)

theorem executes_shrink
    (mirrors : Mirrors image table (reserved + frameSize table vars) (vars ++ visible) w s) :
    image.Executes (shrink (frameSize table vars)) s (Mirrors image table reserved visible w) := by
  unfold shrink
  split
  next zero => exact Image.completes_nil mirrors.outer
  next =>
    refine Image.executes_one rfl fun _ _ => ⟨_, rfl, rfl, mirrors.leave ?_ rfl rfl rfl rfl⟩
    have esp := mirrors.esp
    have bottom := toInt_frameBase
    have low := Int32.le_toInt (s.reg .esp)
    exact Int.le_of_eq (@toInt_add_ofNat (s.reg .esp) _ (by omega) (by omega))

end Blocks

section Lines

/-- The line that a statement after some others may go on with. -/
def lastAfter (last : Option Nat) (nodes : List Node) : Option Nat :=
  nodes.foldl (fun _ node => node.lastLine) last

theorem statementsCode_append {others : List Node} :
    statementsCode target table last (nodes ++ others) =
      statementsCode target table last nodes ++
        statementsCode target table (lastAfter last nodes) others := by
  induction nodes generalizing last with
  | nil =>
    rw [nil_append, statementsCode]
    rfl
  | cons node nodes ih =>
    rw [cons_append, statementsCode, statementsCode, ih, append_assoc]
    rfl

theorem lastAfter_ne {line : Nat} (fresh : last ≠ some line) (h : ∀ node ∈ nodes, node.line ≠ line) :
    lastAfter last nodes ≠ some line := by
  induction nodes generalizing last with
  | nil => exact fresh
  | cons node nodes ih =>
    have fresh : node.lastLine ≠ some line := by
      unfold Node.lastLine
      split
      next => simpa using h node (mem_cons_self ..)
      next => simp
    exact ih fresh fun other mem => h other (mem_cons_of_mem _ mem)

theorem statementsCode_starts (fresh : last ≠ some node.line) :
    ∃ rest, statementsCode target table last (node :: nodes) =
      [.label (lineLabel node.line)] ++ rest := by
  obtain ⟨id, line, kind, children⟩ := node
  have starts : (Node.site [] last ⟨id, line, kind, children⟩).starts := by
    simpa [Node.site] using .inr fresh
  have own : labelCode last ⟨id, line, kind, children⟩ = [.label (lineLabel line)] := by
    rw [labelCode, if_pos starts]
  rw [statementsCode]
  unfold statementCode
  rw [own, append_assoc]
  exact ⟨_, rfl⟩

/-- The label of a line leads to the first statement of a block that is on the line. -/
theorem lookup_of_dropWhile {line start : Nat} {first : Node} {scope rest : List Node}
    (lies : image.Holds start (statementsCode target table none scope))
    (eq : scope.dropWhile (·.line ≠ line) = first :: rest) :
    ∃ before, scope = before ++ first :: rest ∧ image.labels.lookup (lineLabel line) =
      some (start + commandCount (statementsCode target table none before)) := by
  have whole := @takeWhile_append_dropWhile _ (fun node : Node => decide (node.line ≠ line)) scope
  have others : ∀ node ∈ scope.takeWhile (·.line ≠ line), node.line ≠ line := fun node mem => by
    simpa using all_eq_true.mp List.all_takeWhile node mem
  have isLine : first.line = line := by
    have := head?_dropWhile_not (fun node : Node => decide (node.line ≠ line)) scope
    rw [eq] at this
    simpa using this
  rw [eq] at whole
  refine ⟨_, whole.symm, ?_⟩
  rw [← whole, statementsCode_append] at lies
  have fresh : lastAfter none (scope.takeWhile (·.line ≠ line)) ≠ some first.line := by
    rw [isLine]
    exact lastAfter_ne (by simp) others
  obtain ⟨after, starts⟩ := @statementsCode_starts table target first rest _ fresh
  rw [starts, isLine] at lies
  exact (Image.holds_append.mp (Image.holds_append.mp lies).2).1.1 _ rfl

end Lines

/-- The code of a loop from its body on. The body lies at `start`, the test at `test`. -/
structure LoopLies (image : Image) (target : Target) (table : Array Variable) (name : String)
    (first limit step body : Node) (start test : Nat) : Prop where
  label : image.labels.lookup name = some start
  lies_body : image.Holds start (blockCode target table body)
  advances : (advance table first step).Succeeds
  lies_advance : image.Holds (start + commandCount (blockCode target table body))
    (advance table first step).code
  after : test = start + commandCount (blockCode target table body) +
    commandCount (advance table first step).code
  tests : (Lower.test table limit (counterPlace table first step) name).Succeeds
  lies_test : image.Holds test (Lower.test table limit (counterPlace table first step) name).code

/-- Runs of code follow runs of the tree that take no more than some fuel. -/
structure Simulates (image : Image) (symbols table : Array Variable) (strings : Array Literal)
    (target : Target) (fuel : Nat) : Prop where
  statement : ∀ {reserved visible node last w s}, IsStatement table strings visible node →
    Storage table reserved visible → Laid target table reserved node →
    Mirrors image table reserved visible w s →
    image.Holds s.pc (statementCode target table last node) →
    Follows image table reserved visible (World.run? symbols fuel w node)
      (s.pc + commandCount (statementCode target table last node)) s
  rounds : ∀ {reserved visible vars nodes id line id' line' counter value limit step name start test w s},
    IsStart table strings visible ⟨id, line, .assign, [counter, value]⟩ →
    IsExpression table strings visible limit → IsExpression table strings visible step →
    (∀ node ∈ nodes, IsStatement table strings (vars ++ visible) node) →
    Storage table reserved visible → BlockLaid target table reserved vars nodes →
    Mirrors image table reserved visible w s →
    LoopLies image target table name ⟨id, line, .assign, [counter, value]⟩ limit step
      ⟨id', line', .block vars, nodes⟩ start test → s.pc = test →
    Follows image table reserved visible
      (World.rounds? symbols fuel w counter limit step ⟨id', line', .block vars, nodes⟩)
      (test + commandCount (Lower.test table limit
        (counterPlace table ⟨id, line, .assign, [counter, value]⟩ step) name).code) s
  block : ∀ {reserved visible vars nodes id line w s},
    (∀ node ∈ nodes, IsStatement table strings (vars ++ visible) node) →
    Storage table reserved visible → BlockLaid target table reserved vars nodes →
    Mirrors image table reserved visible w s →
    image.Holds s.pc (blockCode target table ⟨id, line, .block vars, nodes⟩) →
    Follows image table reserved visible
      (World.block? symbols fuel w ⟨id, line, .block vars, nodes⟩)
      (s.pc + commandCount (blockCode target table ⟨id, line, .block vars, nodes⟩)) s
  statements : ∀ {reserved visible scope before nodes start w s},
    (∀ node ∈ scope, IsStatement table strings visible node) →
    Storage table reserved visible → (∀ node ∈ scope, Laid target table reserved node) →
    Mirrors image table reserved visible w s →
    image.Holds start (statementsCode target table none scope) → scope = before ++ nodes →
    s.pc = start + commandCount (statementsCode target table none before) →
    Follows image table reserved visible (World.statements? symbols fuel w scope nodes)
      (start + commandCount (statementsCode target table none scope)) s

section Steps

variable {fuel : Nat}

theorem simulates_zero : Simulates image symbols table strings target 0 := by
  constructor
  · intro _ _ node _ _ _ _ _ _ _ _ _ _ done
    rw [World.run?] at done
    cases done
  · intro _ _ _ _ _ _ _ _ _ _ _ _ _ _ _ _ _ _ _ _ _ _ _ _ _ _ _ _ done
    rw [World.rounds?] at done
    cases done
  · intro _ _ _ _ _ _ _ _ _ _ _ _ _ _ _ done
    rw [World.block?] at done
    cases done
  · intro _ _ _ _ _ _ _ _ _ _ _ _ _ _ _ _ _ done
    rw [World.statements?] at done
    cases done

theorem run?_simple (h : node.kind.form = .simple) :
    World.run? symbols (fuel + 1) w node = w.simple? symbols node := by
  obtain ⟨id, line, kind, children⟩ := node
  rw [World.run?]
  · rintro _ _ _ _ _ _ _ rfl
    cases h
  · rintro _ _ rfl
    cases h
  · rintro _ _ _ rfl
    cases h

theorem follows_labelled (lies : image.Holds s.pc (labelCode last node ++ code))
    (h : image.Holds s.pc code →
      Follows image table reserved visible outcome (s.pc + commandCount code) s) :
    Follows image table reserved visible outcome
      (s.pc + commandCount (labelCode last node ++ code)) s := by
  have none : commandCount (labelCode last node) = 0 := by
    unfold labelCode
    split <;> rfl
  have lies := (Image.holds_append.mp lies).2
  rw [commandCount_append, none, Nat.zero_add]
  rw [none] at lies
  exact h lies

theorem commandCount_jump (name other : String) : commandCount [.jmp name, .label other] = 1 := rfl

theorem commandCount_label (name : String) : commandCount [.label name] = 0 := rfl

variable (ih : Simulates image symbols table strings target fuel)
  (storage : Storage table reserved visible) (mirrors : Mirrors image table reserved visible w s)

include ih storage mirrors

theorem follows_statements {start : Nat} {scope before : List Node}
    (isStatement : ∀ node ∈ scope, IsStatement table strings visible node)
    (laid : ∀ node ∈ scope, Laid target table reserved node)
    (lies : image.Holds start (statementsCode target table none scope)) (eq : scope = before ++ nodes)
    (pc : s.pc = start + commandCount (statementsCode target table none before)) :
    Follows image table reserved visible (World.statements? symbols (fuel + 1) w scope nodes)
      (start + commandCount (statementsCode target table none scope)) s := by
  cases nodes with
  | nil =>
    rw [World.statements?]
    rw [append_nil] at eq
    exact follows_here mirrors (eq ▸ pc)
  | cons node nodes =>
    intro w' jump done
    rw [World.statements?] at done
    obtain ⟨⟨w₁, jump₁⟩, ran, done⟩ := Option.bind_eq_some_iff.mp done
    have mem : node ∈ scope := by simp [eq]
    have split : statementsCode target table none scope = statementsCode target table none before ++
        (statementCode target table (lastAfter none before) node ++
          statementsCode target table node.lastLine nodes) := by
      rw [eq, statementsCode_append, statementsCode]
    have own := (Image.holds_append.mp (Image.holds_append.mp (split ▸ lies)).2).1
    rw [← pc] at own
    refine (ih.statement (isStatement node mem) storage (laid node mem) mirrors own w₁ jump₁ ran).bind
      fun s₁ exits => ?_
    cases exits with
    | through mirrors₁ pc₁ =>
      have eq : scope = (before ++ [node]) ++ nodes := by simp [eq]
      refine ih.statements isStatement storage laid mirrors₁ lies eq ?_ w' jump done
      rw [pc₁, pc, statementsCode_append, commandCount_append, statementsCode, statementsCode,
        append_nil, Nat.add_assoc]
    | @jumps line mirrors₁ found =>
      cases later : scope.dropWhile (·.line ≠ line) with
      | nil =>
        simp only [later] at done
        cases done
        exact .here (.jumps mirrors₁ found)
      | cons first rest =>
        simp only [later] at done
        obtain ⟨before, eq, found'⟩ := lookup_of_dropWhile lies later
        have pc₁ := Option.some.inj (found.symm.trans found')
        exact ih.statements isStatement storage laid mirrors₁ lies eq pc₁ w' jump done

theorem follows_block {id line : Nat}
    (isStatement : ∀ node ∈ nodes, IsStatement table strings (vars ++ visible) node)
    (laid : BlockLaid target table reserved vars nodes)
    (lies : image.Holds s.pc (blockCode target table ⟨id, line, .block vars, nodes⟩)) :
    Follows image table reserved visible
      (World.block? symbols (fuel + 1) w ⟨id, line, .block vars, nodes⟩)
      (s.pc + commandCount (blockCode target table ⟨id, line, .block vars, nodes⟩)) s := by
  have inner := storage.enter laid.1
  rw [blockCode_block] at lies ⊢
  obtain ⟨lies₁, lies₃⟩ := Image.holds_append.mp lies
  obtain ⟨lies₁, lies₂⟩ := Image.holds_append.mp lies₁
  rw [commandCount_append, ← Nat.add_assoc] at lies₃
  intro w' jump done
  rw [World.block?] at done
  refine (executes_grow mirrors inner.bound lies₁).bind fun s₁ ⟨pc₁, mirrors₁⟩ => ?_
  rw [← pc₁] at lies₂ lies₃
  have start : s₁.pc = s₁.pc + commandCount (statementsCode target table none []) := by
    rw [statementsCode]
    rfl
  refine (ih.statements isStatement inner laid.2 mirrors₁ lies₂ (nil_append nodes).symm start w'
    jump done).bind fun s₂ exits => ?_
  cases exits with
  | jumps mirrors₂ found => exact .here (.jumps mirrors₂.outer found)
  | through mirrors₂ pc₂ =>
    rw [← pc₂] at lies₃
    refine (executes_shrink mirrors₂ lies₃).mono fun s₃ ⟨pc₃, mirrors₃⟩ => .through mirrors₃ ?_
    rw [pc₃, pc₂, pc₁, commandCount_append, commandCount_append]
    omega

variable (suits : Suits image symbols table strings)

include suits

theorem follows_rounds {id line id' line' start test : Nat} {counter value limit step : Node}
    {name : String} (isStart : IsStart table strings visible ⟨id, line, .assign, [counter, value]⟩)
    (isLimit : IsExpression table strings visible limit)
    (isStep : IsExpression table strings visible step)
    (isStatement : ∀ node ∈ nodes, IsStatement table strings (vars ++ visible) node)
    (laid : BlockLaid target table reserved vars nodes)
    (loop : LoopLies image target table name ⟨id, line, .assign, [counter, value]⟩ limit step
      ⟨id', line', .block vars, nodes⟩ start test) (pc : s.pc = test) :
    Follows image table reserved visible
      (World.rounds? symbols (fuel + 1) w counter limit step ⟨id', line', .block vars, nodes⟩)
      (test + commandCount (Lower.test table limit
        (counterPlace table ⟨id, line, .assign, [counter, value]⟩ step) name).code) s := by
  have nextRound := @ih.rounds reserved visible vars nodes id line id' line' counter value limit step
    name start test
  have ⟨label, lies₁, advances, lies₂, after, tests, lies₃⟩ := loop
  have ⟨_, _, _, _, isCounter, plain, _, eq⟩ := isStart
  cases eq
  obtain ⟨n, v, address, counts⟩ := exists_counts storage isCounter plain
  rw [counts.counterPlace_eq advances] at tests lies₃ nextRound ⊢
  rw [← pc] at lies₃
  intro w' jump done
  rw [World.rounds?] at done
  obtain ⟨x, held, done⟩ := Option.bind_eq_some_iff.mp done
  obtain ⟨y, onLimit, done⟩ := Option.bind_eq_some_iff.mp done
  refine (decides_test suits storage mirrors counts isLimit held onLimit name tests lies₃ start
    label).bind fun s₁ ⟨pc₁, mirrors₁⟩ => ?_
  split at done
  next below =>
    rw [if_pos (by simpa using below)] at pc₁
    rw [← pc₁] at lies₁ lies₂
    obtain ⟨⟨w₂, jump₂⟩, ran, done⟩ := Option.bind_eq_some_iff.mp done
    refine (ih.block isStatement storage laid mirrors₁ lies₁ w₂ jump₂ ran).bind fun s₂ exits => ?_
    cases exits with
    | jumps mirrors₂ found =>
      cases done
      exact .here (.jumps mirrors₂ found)
    | through mirrors₂ pc₂ =>
      obtain ⟨w₃, advanced, done⟩ := Option.bind_eq_some_iff.mp done
      obtain ⟨operand, result⟩ := advances
      refine (does_advance suits storage mirrors₂ counts isStep advanced operand result (pc₂ ▸ lies₂)).bind
        fun s₃ ⟨pc₃, mirrors₃⟩ => ?_
      have pc₃ : s₃.pc = test := by
        rw [pc₃, pc₂, pc₁, after]
      exact nextRound isStart isLimit isStep isStatement storage laid mirrors₃ loop pc₃ w' jump done
  next above =>
    cases done
    rw [if_neg (by simpa using above), pc] at pc₁
    exact .here (.through mirrors₁ pc₁)

/-- A comparison chooses between a block, which a jump leaves, and what comes behind a mark. -/
theorem follows_choice {id line stop : Nat} {condition : Node} {name mark : String}
    (isCondition : IsComparison table strings visible condition)
    (compares : (comparison table condition mark).Succeeds)
    (isStatement : ∀ node ∈ nodes, IsStatement table strings (vars ++ visible) node)
    (laid : BlockLaid target table reserved vars nodes)
    (lies : image.Holds s.pc ((comparison table condition mark).code ++
      blockCode target table ⟨id, line, .block vars, nodes⟩ ++ [.jmp name, .label mark]))
    (toEnd : image.labels.lookup name = some stop)
    (other : ∀ s', Mirrors image table reserved visible w s' → image.labels.lookup mark = some s'.pc →
      Follows image table reserved visible outcome stop s') :
    Follows image table reserved visible (condition.holds? symbols w.store >>= fun holds =>
      if holds then World.block? symbols fuel w ⟨id, line, .block vars, nodes⟩ else outcome) stop s := by
  intro w' jump done
  obtain ⟨holds, decided, done⟩ := Option.bind_eq_some_iff.mp done
  obtain ⟨lies, lies₃⟩ := Image.holds_append.mp lies
  obtain ⟨lies₁, lies₂⟩ := Image.holds_append.mp lies
  rw [commandCount_append, ← Nat.add_assoc] at lies₃
  have marked := lies₃.2.2.1 _ rfl
  refine (decides_comparison suits storage mirrors isCondition decided _ compares lies₁ _ marked).bind
    fun s₁ ⟨pc₁, mirrors₁⟩ => ?_
  cases holds with
  | false => exact other s₁ mirrors₁ (marked.trans (congrArg some pc₁.symm)) w' jump done
  | true =>
    have pc₁ : s₁.pc = s.pc + commandCount (comparison table condition mark).code := pc₁
    rw [← pc₁] at lies₂ lies₃
    refine Follows.goes (ih.block isStatement storage laid mirrors₁ lies₂) (fun w₂ s₂ mirrors₂ pc₂ => ?_)
      w' jump done
    rw [← pc₂] at lies₃
    exact follows_jmp ⟨lies₃.1, lies₃.2.1, trivial⟩ toEnd mirrors₂

variable (laid : Laid target table reserved node)
  (lies : image.Holds s.pc (statementCode target table last node))

include laid lies

section Nested

variable {id line id' line' : Nat}
  (isStatement : ∀ node ∈ nodes, IsStatement table strings (vars ++ visible) node)

include isStatement

theorem follows_loop {first limit step : Node}
    (isLoop : node = ⟨id, line, .loop, [first, limit, step, ⟨id', line', .block vars, nodes⟩]⟩)
    (isStart : IsStart table strings visible first) (isLimit : IsExpression table strings visible limit)
    (isStep : IsExpression table strings visible step) :
    Follows image table reserved visible (World.run? symbols (fuel + 1) w node)
      (s.pc + commandCount (statementCode target table last node)) s := by
  subst isLoop
  obtain ⟨⟨started, advances, tests⟩, assigned, laid⟩ := laid
  have isBody : (⟨id', line', .block vars, nodes⟩ : Node) ∈ [first, limit, step,
      ⟨id', line', .block vars, nodes⟩] := by simp
  have ⟨_, _, counter, value, _, _, _, eq⟩ := isStart
  subst eq
  rw [statementCode] at lies ⊢
  refine follows_labelled lies fun lies w' jump done => ?_
  rw [World.run?] at done
  obtain ⟨w₁, begun, done⟩ := Option.bind_eq_some_iff.mp done
  obtain ⟨lies, lies₆⟩ := Image.holds_append.mp lies
  obtain ⟨lies, lies₅⟩ := Image.holds_append.mp lies
  obtain ⟨lies, lies₄⟩ := Image.holds_append.mp lies
  obtain ⟨lies, lies₃⟩ := Image.holds_append.mp lies
  obtain ⟨lies₁, lies₂⟩ := Image.holds_append.mp lies
  simp only [commandCount_append, commandCount_jump, ← Nat.add_assoc] at lies₃ lies₄ lies₅ lies₆ ⊢
  refine (follows_of_does (fun _ => does_start suits storage mirrors isStart) started lies₁ w₁ none
    (by rw [begun]; rfl)).bind fun s₁ exits => ?_
  cases exits with
  | through mirrors₁ pc₁ =>
    rw [← pc₁] at lies₂ lies₃ lies₄ lies₅ lies₆ ⊢
    have loop : LoopLies image target table (loopStart line) _ limit step
        ⟨id', line', .block vars, nodes⟩ (s₁.pc + 1) _ :=
      ⟨lies₂.2.2.1 _ rfl, lies₃, advances, lies₄, rfl, tests, lies₆⟩
    refine (follows_jmp ⟨lies₂.1, lies₂.2.1, trivial⟩ (lies₅.1 _ rfl) mirrors₁ w₁ none rfl).bind
      fun s₂ exits => ?_
    cases exits with
    | through mirrors₂ pc₂ =>
      exact ih.rounds isStart isLimit isStep isStatement storage
        ⟨assigned _ isBody _ rfl, laid _ isBody _ rfl⟩ mirrors₂ loop pc₂ w' jump done

theorem follows_branch {condition : Node}
    (isBranch : node = ⟨id, line, .branch, [condition, ⟨id', line', .block vars, nodes⟩]⟩)
    (isCondition : IsComparison table strings visible condition) :
    Follows image table reserved visible (World.run? symbols (fuel + 1) w node)
      (s.pc + commandCount (statementCode target table last node)) s := by
  subst isBranch
  obtain ⟨compares, assigned, laid⟩ := laid
  rw [statementCode] at lies ⊢
  rw [World.run?]
  refine follows_labelled lies fun lies => ?_
  have toEnd := (Image.holds_append.mp lies).2.2.2.1 _ rfl
  rw [commandCount_append, commandCount_jump, ← Nat.add_assoc]
  exact follows_choice ih storage mirrors suits isCondition compares isStatement
    ⟨assigned _ (.tail _ (.head _)) _ rfl, laid _ (.tail _ (.head _)) _ rfl⟩ lies toEnd fun s₁ mirrors₁ found =>
      follows_here mirrors₁ (Option.some.inj (found.symm.trans toEnd))

theorem follows_branchElse {id'' line'' : Nat} {condition : Node} {others : List Nat} {alternative : List Node}
    (isBranch : node = ⟨id, line, .branch, [condition, ⟨id', line', .block vars, nodes⟩,
      ⟨id'', line'', .block others, alternative⟩]⟩)
    (isCondition : IsComparison table strings visible condition)
    (isStatement' : ∀ node ∈ alternative, IsStatement table strings (others ++ visible) node) :
    Follows image table reserved visible (World.run? symbols (fuel + 1) w node)
      (s.pc + commandCount (statementCode target table last node)) s := by
  subst isBranch
  obtain ⟨compares, assigned, laid⟩ := laid
  rw [statementCode] at lies ⊢
  rw [World.run?]
  refine follows_labelled lies fun lies => ?_
  obtain ⟨lies, lies₃⟩ := Image.holds_append.mp lies
  obtain ⟨lies₁, lies₂⟩ := Image.holds_append.mp lies
  have toElse := (Image.holds_append.mp lies₁).2.2.2.1 _ rfl
  have isOther := Mem.tail condition (Mem.tail ⟨id', line', .block vars, nodes⟩
    (mem_singleton_self ⟨id'', line'', .block others, alternative⟩))
  rw [commandCount_append, commandCount_label, Nat.add_zero]
  refine follows_choice ih storage mirrors suits isCondition compares isStatement
    ⟨assigned _ (.tail _ (.head _)) _ rfl, laid _ (.tail _ (.head _)) _ rfl⟩ lies₁ (lies₃.1 _ rfl)
    fun s₁ mirrors₁ found => ?_
  have pc₁ : s₁.pc = s.pc + commandCount _ + 1 := Option.some.inj (found.symm.trans toElse)
  rw [commandCount_append, commandCount_append _ [_, _], commandCount_jump, ← Nat.add_assoc,
    ← Nat.add_assoc, ← pc₁]
  rw [commandCount_append, commandCount_jump, ← Nat.add_assoc, ← pc₁] at lies₂
  exact ih.block isStatement' storage ⟨assigned _ isOther _ rfl, laid _ isOther _ rfl⟩ mirrors₁ lies₂

end Nested

theorem follows_statement (h : IsStatement table strings visible node) :
    Follows image table reserved visible (World.run? symbols (fuel + 1) w node)
      (s.pc + commandCount (statementCode target table last node)) s := by
  cases h with
  | simple h =>
    obtain ⟨lowers, _, _⟩ := laid
    rw [run?_simple h.isPlain.1]
    rw [statementCode_simple h.isPlain.1] at lies ⊢
    exact follows_labelled lies (follows_simple suits storage h lowers mirrors)
  | loop isStart isLimit isStep isStatement =>
    exact follows_loop ih storage mirrors suits laid lies isStatement rfl isStart isLimit isStep
  | branch isCondition isStatement =>
    exact follows_branch ih storage mirrors suits laid lies isStatement rfl isCondition
  | branchElse isCondition isStatement isStatement' =>
    exact follows_branchElse ih storage mirrors suits laid lies isStatement rfl isCondition isStatement'

end Steps

/-- The code of a program follows all runs of its tree. -/
theorem simulates (suits : Suits image symbols table strings) (fuel : Nat) :
    Simulates image symbols table strings target fuel := by
  induction fuel with
  | zero => exact simulates_zero
  | succ fuel ih =>
    exact {
      statement := fun h storage laid mirrors lies => follows_statement ih storage mirrors suits laid lies h
      rounds := fun isStart isLimit isStep h storage laid mirrors =>
        follows_rounds ih storage mirrors suits isStart isLimit isStep h laid
      block := fun h storage laid mirrors => follows_block ih storage mirrors h laid
      statements := fun h storage laid mirrors => follows_statements ih storage mirrors h laid }

end LineBasic
