import LineBasic.Proofs.Semantics.Branches

/-!
The rounds of a loop whose first value, limit and step are numbers.
-/

namespace LineBasic

open List

namespace Machine

/-- An action that goes to a label in some state. -/
def Action.goesTo (name : String) (s : State) : Action → Bool
  | .jmp goal => goal == name
  | .jcc condition goal => goal == name && s.holds condition
  | _ => false

namespace Image

/-- A run from one state to another that goes to a label once for each of some numbers, which are
what `held` gives there. -/
inductive Turns (image : Image) (name : String) (held : State → Option Int32) :
    State → List Int → State → Prop
  | refl {s : State} : Turns image name held s [] s
  | goes {s s' s'' : State} {command : Command} {values : List Int} :
      image.code[s.pc]? = some command → step image command s.next = .ok (.running s') →
      command.action.goesTo name s = false → Turns image name held s' values s'' →
      Turns image name held s values s''
  | turns {s s' s'' : State} {command : Command} {word : Int32} {values : List Int} :
      image.code[s.pc]? = some command → step image command s.next = .ok (.running s') →
      command.action.goesTo name s = true → held s' = some word →
      Turns image name held s' values s'' → Turns image name held s (word.toInt :: values) s''

/-- An image that has no jumps to a label. -/
def without (image : Image) (name : String) : Image :=
  { image with code := image.code.map fun command =>
      if command.action.goal? = some name then { command with action := .unsupported } else command }

variable {image : Image} {name : String} {held : State → Option Int32} {s s' s'' : State}
  {values others : List Int} {code : List Instr} {pc : Nat}

theorem Turns.trans (h : image.Turns name held s values s') (h' : image.Turns name held s' others s'') :
    image.Turns name held s (values ++ others) s'' := by
  induction h with
  | refl => exact h'
  | goes found done other _ ih => exact .goes found done other (ih h')
  | turns found done there reads _ ih => exact .turns found done there reads (ih h')

theorem Reaches.trans (h : image.Reaches s s') (h' : image.Reaches s' s'') : image.Reaches s s'' := by
  induction h with
  | refl => exact h'
  | goes found done _ ih => exact .goes found done (ih h')

/-- The places of the commands that a run comes to, if it stops within some steps. -/
def places? (image : Image) : Nat → State → Option (List Nat)
  | 0, _ => none
  | n + 1, s =>
    (match image.code[s.pc]?.map (step image · s.next) with
    | some (.ok (.running s')) => image.places? n s'
    | _ => some []).map (s.pc :: ·)

theorem mem_places? {n : Nat} {places : List Nat} (h : image.places? n s = some places) (pc : Nat) :
    pc ∈ places ↔ ∃ s', image.Reaches s s' ∧ s'.pc = pc := by
  induction n generalizing s places with
  | zero => cases h
  | succ n ih =>
    obtain ⟨rest, later, rfl⟩ := Option.map_eq_some_iff.mp h
    rw [mem_cons]
    split at later
    next s₁ done =>
      obtain ⟨command, found, done⟩ := Option.map_eq_some_iff.mp done
      rw [ih later]
      constructor
      · rintro (rfl | ⟨s', reaches, rfl⟩)
        · exact ⟨s, .refl, rfl⟩
        · exact ⟨s', .goes found done reaches, rfl⟩
      · rintro ⟨s', reaches, rfl⟩
        cases reaches with
        | refl => exact .inl rfl
        | goes found' done' reaches =>
          cases found.symm.trans found'
          cases done.symm.trans done'
          exact .inr ⟨s', reaches, rfl⟩
    next stops =>
      cases later
      constructor
      · rintro (rfl | ⟨⟨⟩⟩)
        exact ⟨s, .refl, rfl⟩
      · rintro ⟨s', reaches, rfl⟩
        cases reaches with
        | refl => exact .inl rfl
        | goes found done => exact absurd (by rw [found, Option.map_some, done]) (stops _)

theorem Turns.reaches (h : image.Turns name held s values s') : image.Reaches s s' := by
  induction h with
  | refl => exact .refl
  | goes found done _ _ ih => exact .goes found done ih
  | turns found done _ _ _ ih => exact .goes found done ih

theorem step_without (command : Command) (s : State) :
    step (image.without name) command s = step image command s := by
  have same : (image.without name).data = image.data := rfl
  obtain ⟨action, source⟩ := command
  cases action with
  | call symbol =>
    simp only [step, State.call, State.printf, State.scanf, string_congr same,
      State.format_congr same rfl]
  | _ => rfl

theorem turns_of_without (h : (image.without name).Reaches s s') : image.Turns name held s [] s' := by
  induction h with
  | refl => exact .refl
  | @goes s _ _ _ found done _ ih =>
    obtain ⟨command, here, eq⟩ : ∃ command, image.code[s.pc]? = some command ∧ _ := by
      simpa [without] using found
    split at eq
    next =>
      subst eq
      cases done
    next other =>
      subst eq
      refine .goes here (step_without .. ▸ done) ?_ ih
      obtain ⟨action, source⟩ := command
      cases action <;> simp_all [Action.goesTo, Action.goal?]

theorem holds_without (h : image.Holds pc code)
    (plain : ∀ instr ∈ code, instr ≠ .jmp name ∧ ∀ condition, instr ≠ .jcc condition name) :
    (image.without name).Holds pc code := by
  induction code generalizing pc with
  | nil => trivial
  | cons instr code ih =>
    obtain ⟨labels, commands, rest⟩ := h
    obtain ⟨noJump, plain⟩ := forall_mem_cons.mp plain
    refine ⟨labels, fun isCommand => ?_, ih rest plain⟩
    obtain ⟨command, found, acts⟩ := commands isCommand
    have other : command.action.goal? ≠ some name := fun jumps => by
      rcases jump_of_goal acts jumps with rfl | ⟨condition, rfl⟩
      · exact noJump.1 rfl
      · exact noJump.2 condition rfl
    refine ⟨command, ?_, acts⟩
    simp [without, found, other]

theorem Completes.exists_turns (held : State → Option Int32) {post : State → Prop}
    (h : (image.without name).Completes False code s post) (lies : image.Holds s.pc code)
    (plain : ∀ instr ∈ code, instr ≠ .jmp name ∧ ∀ condition, instr ≠ .jcc condition name) :
    ∃ s', image.Turns name held s [] s' ∧ s'.pc = s.pc + commandCount code ∧ post s' := by
  obtain ⟨s', reaches, reached⟩ := (h (holds_without lies plain)).exists_reaches
  exact ⟨s', turns_of_without reaches, reached⟩

end Image

end Machine

open Machine Lower
open Node (IsExpression IsStart)

section Rounds

variable {image : Image} {full : Prop} {name : String} {s t : State} {address start stop : Nat}
  {x y b c word : Int32}

/-- A number fits on the stack, and the counter of a loop is not below it. -/
structure Ready (address : Nat) (s : State) : Prop where
  low : (s.reg .esp).toInt ≤ stackTop.toInt
  room : -0x80000000 ≤ (s.reg .esp).toInt - 4
  above : (s.reg .esp).toInt ≤ (elementAt (s.reg .ebp) address 0).toInt

/-- The stack and the frame are as before, and the counter holds a word. -/
structure Steady (address : Nat) (x : Int32) (s t : State) : Prop where
  esp : t.reg .esp = s.reg .esp
  ebp : t.reg .ebp = s.reg .ebp
  holds : t.memory[elementAt (s.reg .ebp) address 0]? = some x

theorem Ready.steady (h : Ready address s) (steady : Steady address x s t) :
    Ready address t ∧ t.memory[elementAt (t.reg .ebp) address 0]? = some x := by
  obtain ⟨low, room, above⟩ := h
  obtain ⟨esp, ebp, holds⟩ := steady
  rw [← esp] at low room above
  rw [← ebp] at above holds
  exact ⟨⟨low, room, above⟩, holds⟩

theorem Steady.trans {u : State} (h : Steady address x s t) (h' : Steady address y t u) :
    Steady address y s u :=
  ⟨h'.esp.trans h.esp, h'.ebp.trans h.ebp, h.ebp ▸ h'.holds⟩

theorem Steady.goto (h : Steady address x s t) (pc : Nat) : Steady address x s { t with pc } :=
  ⟨h.esp, h.ebp, h.holds⟩

theorem Ready.atop {b : Scratch} (h : Ready address s)
    (atop : b.Atop (s.store (elementAt (s.reg .ebp) address 0) y) t) (none : b.words = []) :
    Steady address y s t := by
  have resumes := resumes_of_atop atop none
  refine ⟨resumes.esp, resumes.ebp, ?_⟩
  rw [resumes.memory _ h.above]
  simp

theorem completes_number (h : Ready address s) :
    image.Completes full ([.push (.imm word)] ++ [.pop .eax]) s
      (Scratch.Atop { Scratch.ofState s with eax := word } s) :=
  (Scratch.completes_push (.inr h.room) (Scratch.atop_ofState h.low) rfl rfl).append
    fun _ atop => Scratch.completes_pop atop rfl rfl

/-- The code that a loop with numbers has behind its body, which ends at `stop`. -/
structure Closes (image : Image) (name : String) (address : Nat) (b c : Int32) (start stop : Nat) :
    Prop where
  label : image.labels.lookup name = some start
  advances : image.Holds stop (([.push (.imm c)] ++ [.pop .eax]) ++
    [.add (.reg .eax) (.mem (-Int32.ofNat address) .ebp)])
  tests : image.Holds (stop + 3) ((([.push (.imm b)] ++ [.pop .eax]) ++
    [.cmp (.reg .eax) (.mem (-Int32.ofNat address) .ebp)]) ++ [.jcc .lessEqual name])

theorem turns_advance (held : State → Option Int32)
    (closes : Closes image name address b c start stop) (ready : Ready address s)
    (holds : s.memory[elementAt (s.reg .ebp) address 0]? = some x) (pc : s.pc = stop) :
    ∃ t, image.Turns name held s [] t ∧ t.pc = stop + 3 ∧ Steady address (x + c) s t := by
  obtain ⟨t, turns, pc', atop⟩ := Image.Completes.exists_turns held
    ((@completes_number (image.without name) False s address c ready).append fun _ atop =>
      completes_add (locates_scalar _ address _) atop ready.above holds rfl)
    (pc ▸ closes.advances) (by simp)
  exact ⟨t, turns, pc ▸ pc', ready.atop atop rfl⟩

theorem turns_test {held : State → Option Int32} (closes : Closes image name address b c start stop)
    (reads : ∀ t, t.reg .ebp = s.reg .ebp → held t = t.memory[elementAt (s.reg .ebp) address 0]?)
    (ready : Ready address s) (holds : s.memory[elementAt (s.reg .ebp) address 0]? = some x)
    (pc : s.pc = stop + 3) :
    ∃ t, image.Turns name held s (if x ≤ b then [x.toInt] else []) t ∧
      t.pc = (if x ≤ b then start else stop + 7) ∧ Steady address x s t := by
  obtain ⟨compares, jumps⟩ := Image.holds_append.mp (pc ▸ closes.tests)
  obtain ⟨t, turns, pc', atop⟩ := Image.Completes.exists_turns held
    ((@completes_number (image.without name) False s address b ready).append fun _ atop => by
      obtain ⟨resolved, resolves, read⟩ := (locates_scalar (s.reg .ebp) address _).read atop
        ((atop.memory _ ready.above).trans holds) image.data
      exact Scratch.completes_cmp atop resolves read rfl)
    compares (by simp)
  have resumes := resumes_of_atop atop rfl
  have steady : Steady address x s t :=
    ⟨resumes.esp, resumes.ebp, (resumes.memory _ ready.above).trans holds⟩
  have decided : t.holds .lessEqual = decide (x ≤ b) := by
    simp [State.holds, atop.order, bne, compare_eq_gt, ← Int32.not_lt]
  obtain ⟨command, found, acts, done⟩ := Image.step_jcc (pc' ▸ jumps) closes.label
  by_cases below : x ≤ b
  · rw [decided, if_pos (by simpa using below)] at done
    rw [if_pos below, if_pos below]
    have there : command.action.goesTo name t = true := by simp [acts, Action.goesTo, decided, below]
    exact ⟨_, turns.trans (.turns found done there ((reads { t with pc := start } steady.ebp).trans
      steady.holds) .refl), rfl, steady.goto _⟩
  · rw [decided, if_neg (by simpa using below)] at done
    rw [if_neg below, if_neg below]
    have passed : command.action.goesTo name t = false := by simp [acts, Action.goesTo, decided, below]
    refine ⟨_, turns.trans (.goes found done passed .refl), ?_, steady.goto _⟩
    show t.pc + 1 = _
    rw [pc', pc]
    rfl

/-- The rounds that are left for a counter which is about to be tested. -/
theorem turns_rounds {held : State → Option Int32} (closes : Closes image name address b c start stop)
    (reads : ∀ t, t.reg .ebp = s.reg .ebp → held t = t.memory[elementAt (s.reg .ebp) address 0]?)
    (positive : 1 ≤ c.toInt) (fits : b.toInt + c.toInt ≤ 0x7fffffff)
    (runs : ∀ t y, image.Reaches s t → t.pc = start → Steady address y s t →
      ∃ u, image.Turns name held t [] u ∧ u.pc = stop ∧ Steady address y t u)
    (ready : Ready address s) (holds : s.memory[elementAt (s.reg .ebp) address 0]? = some x)
    (pc : s.pc = stop + 3) :
    ∃ (n : Nat) (t : State) (y : Int32), (∀ i < n, x.toInt + i * c.toInt ≤ b.toInt) ∧
      b.toInt < x.toInt + n * c.toInt ∧
      image.Turns name held s ((List.range n).map fun (i : Nat) => x.toInt + i * c.toInt) t ∧
      t.pc = stop + 7 ∧ y.toInt = x.toInt + n * c.toInt ∧ Steady address y s t := by
  -- the counter comes closer to the limit with each round
  generalize left : (b.toInt + 1 - x.toInt).toNat = m
  induction m using Nat.strong_induction_on generalizing x s with
  | _ m ih =>
    obtain ⟨t₁, turns₁, pc₁, steady₁⟩ := turns_test closes reads ready holds pc
    by_cases below : x ≤ b
    · rw [if_pos below] at turns₁ pc₁
      rw [Int32.le_iff_toInt_le] at below
      obtain ⟨t₂, turns₂, pc₂, steady₂⟩ := runs t₁ x turns₁.reaches pc₁ steady₁
      have steady₂ := steady₁.trans steady₂
      obtain ⟨ready₂, holds₂⟩ := ready.steady steady₂
      obtain ⟨t₃, turns₃, pc₃, steady₃⟩ := turns_advance held closes ready₂ holds₂ pc₂
      have steady₃ := steady₂.trans steady₃
      obtain ⟨ready₃, holds₃⟩ := ready.steady steady₃
      have round := turns₁.trans (turns₂.trans turns₃)
      have least := Int32.le_toInt x
      have next : (x + c).toInt = x.toInt + c.toInt := by
        rw [Int32.toInt_add]
        exact Int.bmod_eq_of_le (by omega) (by omega)
      obtain ⟨n, t, y, under, beyond, turns, pc', value, steady⟩ := ih _ (by omega)
        (fun t ebp => steady₃.ebp ▸ reads t (ebp.trans steady₃.ebp))
        (fun t y reached pc steady => runs t y (round.reaches.trans reached) pc (steady₃.trans steady))
        ready₃ holds₃ pc₃ rfl
      have later (i : Nat) : x.toInt + (i + 1 : Nat) * c.toInt = (x + c).toInt + i * c.toInt := by
        rw [next, Int.natCast_add, Int.add_mul]
        omega
      refine ⟨n + 1, t, y, fun i lt => ?_, later n ▸ beyond, ?_, pc', (later n).symm ▸ value,
        steady₃.trans steady⟩
      · cases i with
        | zero => simpa using below
        | succ i => exact later i ▸ under i (by omega)
      · have first : x.toInt + (0 : Nat) * c.toInt = x.toInt := by simp
        rw [range_succ_eq_map, map_cons, map_map, first, Function.comp_def]
        simp only [Nat.succ_eq_add_one, later]
        exact round.trans turns
    · rw [if_neg below] at turns₁ pc₁
      rw [Int32.le_iff_toInt_le] at below
      exact ⟨0, t₁, x, by simp, by omega, turns₁, pc₁, by simp, steady₁⟩

end Rounds

def Literal.integer? (literal : Literal) : Option Int32 :=
  if literal.type = .int then Text.int32? literal.text.toList else none

/-- The counter of a loop, its first value, its limit, its step and its body, if the loop is given by
numbers. -/
def Node.rounds? : Node → Option (Node × Int32 × Int32 × Int32 × Node)
  | ⟨_, _, .loop, [⟨_, _, .assign, [counter, ⟨_, _, .literal first, []⟩]⟩, ⟨_, _, .literal limit, []⟩,
      ⟨_, _, .literal step, []⟩, body]⟩ => do
    return (counter, ← first.integer?, ← limit.integer?, ← step.integer?, body)
  | _ => none

section Loops

variable {image : Image} {program : Program} {target : Target} {table : Array Variable}
  {visible : List Nat} {block node counter body : Node} {s : State} {first limit step literal : Literal}
  {a b c word : Int32} {id line n address : Nat} {v : Variable}

theorem integer_of_value (h : literal.integer? = some word) :
    literal.type = .int ∧ integerValue literal = pure word := by
  unfold Literal.integer? at h
  split at h
  next isInt => exact ⟨isInt, by rw [integerValue, h]⟩
  next => cases h

theorem expression_number (h : literal.integer? = some word) :
    expression table ⟨id, line, .literal literal, []⟩ = Lowered.emit [.push (.imm word)] := by
  obtain ⟨isInt, number⟩ := integer_of_value h
  rw [expression, Lower.literal, isInt]
  simp only [number, pure_bind]

theorem assignment_number {id' line' : Nat} (counts : Counts table visible counter n v address)
    (h : literal.integer? = some word) :
    assignment table ⟨id, line, .assign, [counter, ⟨id', line', .literal literal, []⟩]⟩ =
      Lowered.emit [.mov (.imm word) (.mem (-Int32.ofNat address) .ebp)] := by
  obtain ⟨isInt, number⟩ := integer_of_value h
  simp only [assignment, operands, immediate?, isInt, number, pure_bind, if_true, counts.place_eq]

theorem Node.eq_of_rounds? (h : node.rounds? = some (counter, a, b, c, body)) :
    ∃ id id₁ line₁ first id₂ line₂ limit id₃ line₃ step id₄ line₄, node = ⟨id, node.line, .loop,
        [⟨id₁, line₁, .assign, [counter, ⟨id₂, line₂, .literal first, []⟩]⟩,
          ⟨id₃, line₃, .literal limit, []⟩, ⟨id₄, line₄, .literal step, []⟩, body]⟩ ∧
      first.integer? = some a ∧ limit.integer? = some b ∧ step.integer? = some c := by
  unfold rounds? at h
  split at h
  next =>
    obtain ⟨_, isFirst, h⟩ := Option.bind_eq_some_iff.mp h
    obtain ⟨_, isLimit, h⟩ := Option.bind_eq_some_iff.mp h
    obtain ⟨_, isStep, h⟩ := Option.bind_eq_some_iff.mp h
    cases h
    exact ⟨_, _, _, _, _, _, _, _, _, _, _, _, rfl, isFirst, isLimit, isStep⟩
  next => cases h

theorem exists_counts_of_lowered {strings : Array Literal} {id' line' : Nat}
    (h : IsExpression table strings visible counter) (isReference : ∃ n, counter.kind = .reference n)
    (plain : counter.children = []) (isFirst : first.integer? = some a)
    (lowered : (assignment table
      ⟨id, line, .assign, [counter, ⟨id', line', .literal first, []⟩]⟩).Succeeds) :
    ∃ n v address, Counts table visible counter n v address := by
  obtain ⟨isInt, number⟩ := integer_of_value isFirst
  simp only [assignment, operands, immediate?, isInt, number, pure_bind, if_true] at lowered
  obtain ⟨_, placed, _⟩ := Lowered.succeeds_bind.mp lowered
  obtain ⟨_, isReference⟩ := isReference
  cases h with
  | @reference id line n v indices mem found length _ =>
    cases plain
    cases place : v.address with
    | none =>
      simp only [Lower.place, found, Option.getD_some, Lower.storage, place] at placed
      cases placed
    | some address =>
      exact ⟨n, v, address, mem, rfl, rfl, found, eq_nil_of_length_eq_zero length.symm, place⟩
  | _ => cases isReference

theorem Counts.word?_eq (counts : Counts table visible counter n v address) (s : State) :
    s.word? image table counter = s.memory[elementAt (s.reg .ebp) address 0]? := by
  obtain ⟨id, line, kind, children⟩ := counter
  cases counts.kind
  cases counts.children
  rw [State.word?, State.words?]
  simp only [counts.found, counts.place, counts.dims, Option.bind_eq_bind, Option.bind_some]
  rfl

theorem loop_lies {last : Option Nat} {id₁ line₁ id₂ line₂ id₃ line₃ id₄ line₄ : Nat}
    (counts : Counts table visible counter n v address) (isFirst : first.integer? = some a)
    (isLimit : limit.integer? = some b) (isStep : step.integer? = some c)
    (isLoop : node = ⟨id, line, .loop,
      [⟨id₁, line₁, .assign, [counter, ⟨id₂, line₂, .literal first, []⟩]⟩,
        ⟨id₃, line₃, .literal limit, []⟩, ⟨id₄, line₄, .literal step, []⟩, body]⟩)
    (leads : image.labels.lookup (lineLabel line) = some s.pc)
    (lies : ∃ pc, image.Holds pc (statementCode target table last node)) :
    image.Holds s.pc [.mov (.imm a) (.mem (-Int32.ofNat address) .ebp)] ∧
      image.Holds (s.pc + 1) [.jmp (loopTest line)] ∧
      image.labels.lookup (loopTest line) =
        some (s.pc + 2 + commandCount (blockCode target table body) + 3) ∧
      Closes image (loopStart line) address b c (s.pc + 2)
        (s.pc + 2 + commandCount (blockCode target table body)) ∧
      s.pc + commandCount (statementCode target table none node) =
        s.pc + 2 + commandCount (blockCode target table body) + 7 := by
  have place (value : Node) : counterPlace table ⟨id₁, line₁, .assign, [counter, value]⟩
      ⟨id₄, line₄, .literal step, []⟩ = .mem (-Int32.ofNat address) .ebp := by
    refine counts.counterPlace_eq ?_
    rw [counts.advance_eq, expression_number isStep]
    exact ⟨_, rfl⟩
  have shape (last : Option Nat) : statementCode target table last node = [.label (lineLabel line)] ++
      ([.mov (.imm a) (.mem (-Int32.ofNat address) .ebp)] ++
        ([.jmp (loopTest line), .label (loopStart line)] ++ (blockCode target table body ++
          ((([.push (.imm c)] ++ [.pop .eax]) ++ [.add (.reg .eax) (.mem (-Int32.ofNat address) .ebp)]) ++
            ([.label (loopTest line)] ++ ((([.push (.imm b)] ++ [.pop .eax]) ++
              [.cmp (.reg .eax) (.mem (-Int32.ofNat address) .ebp)]) ++
                [.jcc .lessEqual (loopStart line)])))))) := by
    rw [isLoop, statementCode, assignment_number counts isFirst, counts.advance_eq,
      expression_number isStep, place, test, expression_number isLimit]
    simp only [append_assoc]
    rfl
  obtain ⟨pc, lies⟩ := lies
  rw [shape] at lies ⊢
  have here : image.labels.lookup (lineLabel line) = some pc := lies.1 _ rfl
  cases leads.symm.trans here
  obtain ⟨starts, lies⟩ := Image.holds_append.mp (Image.holds_append.mp lies).2
  obtain ⟨jumps, lies⟩ := Image.holds_append.mp lies
  obtain ⟨advances, lies⟩ := Image.holds_append.mp (Image.holds_append.mp lies).2
  obtain ⟨marks, tests⟩ := Image.holds_append.mp lies
  refine ⟨starts, ⟨jumps.1, jumps.2.1, trivial⟩, marks.1 _ rfl, ⟨jumps.2.2.1 _ rfl, advances, tests⟩, ?_⟩
  simp only [commandCount_append]
  show s.pc + (0 + (1 + (1 + (commandCount (blockCode target table body) + (3 + (0 + 4)))))) = _
  omega

/-- A loop of an accepted program whose first value, limit and step are numbers goes to its start once
for each value of the progression that is not above the limit, in order and with that value in its
counter, if its body always comes to its end with the counter, the stack and the frame as they were. Then
it goes on past its end, the counter holds the next value, and the stack is as before. -/
theorem loop_progresses {source assembly : String} {config : Config}
    (parsed : (parseSource source config.collect).result = .ok program)
    (compiled : (compile source config).result = .ok assembly)
    (named : ∀ name ∈ config.sourceName, '\n' ∉ name.toList) (loads : load assembly = .ok image)
    (isScope : block ∈ program.root.blocks) (mem : node ∈ block.children)
    (isLoop : node.rounds? = some (counter, a, b, c, body)) (positive : 1 ≤ c.toInt)
    (fits : b.toInt + c.toInt ≤ 0x7fffffff)
    (leads : image.labels.lookup (lineLabel node.line) = some s.pc)
    (low : (s.reg .esp).toInt ≤ stackTop.toInt) (room : -0x80000000 ≤ (s.reg .esp).toInt - 4)
    (clears : program.Clears (config.layout program) counter s)
    (runs : ∀ t, image.Reaches s t → image.labels.lookup (loopStart node.line) = some t.pc →
      t.reg .esp = s.reg .esp → t.reg .ebp = s.reg .ebp →
      ∃ t', image.Turns (loopStart node.line) (·.word? image (config.layout program) counter) t [] t' ∧
        t'.pc = t.pc + commandCount (blockCode config.target (config.layout program) body) ∧
        t'.word? image (config.layout program) counter = t.word? image (config.layout program) counter ∧
        t'.reg .esp = t.reg .esp ∧ t'.reg .ebp = t.reg .ebp) :
    ∃ (n : Nat) (s' : State) (y : Int32), (∀ i < n, a.toInt + i * c.toInt ≤ b.toInt) ∧
      b.toInt < a.toInt + n * c.toInt ∧
      image.Turns (loopStart node.line) (·.word? image (config.layout program) counter) s
        ((List.range n).map fun (i : Nat) => a.toInt + i * c.toInt) s' ∧
      s'.pc = s.pc + commandCount (statementCode config.target (config.layout program) none node) ∧
      s'.word? image (config.layout program) counter = some y ∧ y.toInt = a.toInt + n * c.toInt ∧
      s'.reg .esp = s.reg .esp ∧ s'.reg .ebp = s.reg .ebp := by
  obtain ⟨id, id₁, line₁, first, id₂, line₂, limit, id₃, line₃, step, id₄, line₄, isLoop, isFirst,
    isLimit, isStep⟩ := Node.eq_of_rounds? isLoop
  have h := wellFormed_of_parseSource parsed
  obtain ⟨generated, rfl⟩ := generated_of_compile parsed compiled
  obtain ⟨texts, loaded⟩ := loaded_of_load h named loads
  obtain ⟨reserved, visible, _, laid, statements⟩ := laid_of_generated h generated isScope
  obtain ⟨last, part⟩ := statementCode_infix h generated.laid isScope mem
  have inside : counter ∈ program.root.nodes := by
    rw [Node.blocks_eq_filter] at isScope
    have loop := Node.mem_nodes_of_child (mem_filter.mp isScope).1 mem
    rw [isLoop] at loop
    exact Node.mem_nodes_of_child (Node.mem_nodes_of_child loop (mem_cons_self ..))
      (mem_cons_self ..)
  obtain ⟨isReference, plain⟩ : (∃ n, counter.kind = .reference n) ∧ counter.children = [] := by
    have isStatement := isLoop ▸ statements _ mem
    cases isStatement with
    | simple isSimple => cases isSimple
    | loop isStart =>
      obtain ⟨_, _, _, _, isCounter, plain, _, eq⟩ := isStart
      cases eq
      exact ⟨isCounter.2, plain⟩
  have lowered := isLoop ▸ (laid.2 _ mem)
  obtain ⟨⟨assigned, _⟩, _, _⟩ := lowered
  have evaluates : counter.kind.evaluates := by
    obtain ⟨n, kind⟩ := isReference
    rw [kind]
    rfl
  obtain ⟨seen, isExpression, above⟩ := exists_visible h inside evaluates clears
  obtain ⟨n, v, address, counts⟩ := exists_counts_of_lowered isExpression isReference plain isFirst assigned
  have above := above n counts.mem v address 0 counts.found counts.place counts.inside
  obtain ⟨starts, jumps, found, closes, ends⟩ := loop_lies counts isFirst isLimit isStep isLoop leads
    (holds_of_isInfix part (Image.holds_append.mp (Image.holds_append.mp loaded.holds).1).2)
  obtain ⟨t, turns, pc, atop⟩ := Image.Completes.exists_turns
    (·.word? image (config.layout program) counter)
    (@completes_store (image.without (loopStart node.line)) False _ _ _ _ _ _ (locates_scalar _ address _)
      (Scratch.atop_ofState low) _ above rfl) starts (by simp)
  have ready : Ready address s := ⟨low, room, above⟩
  have steady := (ready.atop atop rfl).goto
    (s.pc + 2 + commandCount (blockCode config.target (config.layout program) body) + 3)
  obtain ⟨ready', holds⟩ := ready.steady steady
  obtain ⟨command, here, acts, done⟩ := Image.step_jmp (pc ▸ jumps) found
  have apart : loopTest node.line ≠ loopStart node.line := fun eq => by
    obtain ⟨_, _, after⟩ := @tagged_inj "FOR_" "FOR_" "_TEST" "_START" node.line node.line (by decide) (by decide) eq
    exact absurd after (by decide)
  have other : command.action.goesTo (loopStart node.line) t = false := by simp [acts, Action.goesTo, apart]
  have turns := turns.trans (.goes here done other .refl)
  have reads (t : State) (ebp : t.reg .ebp = s.reg .ebp) :
      t.word? image (config.layout program) counter = t.memory[elementAt (s.reg .ebp) address 0]? :=
    ebp ▸ counts.word?_eq t
  obtain ⟨n, s', y, under, beyond, rounds, pc', value, steady'⟩ := turns_rounds closes
    (fun t ebp => steady.ebp ▸ reads t (ebp.trans steady.ebp)) positive fits (fun t y reached pc steady₁ => by
      have steady₁ := steady.trans steady₁
      obtain ⟨u, turns', pc', same, esp, ebp⟩ := runs t (turns.reaches.trans reached) (pc ▸ closes.label)
        steady₁.esp steady₁.ebp
      rw [reads t steady₁.ebp, reads u (ebp.trans steady₁.ebp), ← steady₁.ebp] at same
      exact ⟨u, turns', pc ▸ pc', esp, ebp, same.trans (ready.steady steady₁).2⟩)
    ready' holds rfl
  have steady' := steady.trans steady'
  exact ⟨n, s', y, under, beyond, turns.trans rounds, pc'.trans ends.symm,
    (reads s' steady'.ebp).trans steady'.holds, value, steady'.esp, steady'.ebp⟩

/-- From `-1` to `6` by threes there are three rounds, and the last value is past the limit. -/
theorem loop_progresses_past_limit :
    ∃ (program : Program) (assembly : String) (image : Image) (counter : Node) (s s' : State),
      (parseSource "10 LET B = 0\n20 FOR I = -1 TO 6 STEP 3\n30 LET B = 5\n40 END" false).result =
        .ok program ∧
      (compile "10 LET B = 0\n20 FOR I = -1 TO 6 STEP 3\n30 LET B = 5\n40 END" {}).result =
        .ok assembly ∧ load assembly = .ok image ∧ image.labels.lookup "LINE_20" = some s.pc ∧
      image.Turns "FOR_20_START" (·.word? image (Config.layout {} program) counter) s [-1, 2, 5] s' ∧
      s'.word? image (Config.layout {} program) counter = some 8 ∧ s'.reg .esp = s.reg .esp := by
  generalize hs : "10 LET B = 0\n20 FOR I = -1 TO 6 STEP 3\n30 LET B = 5\n40 END" = source
  generalize hb : ((State.start "" 0).setReg .ebp 4096).setReg .esp 4088 = base
  have evaluated : ((parseSource source false).result.toOption.bind fun program =>
      (compile source {}).result.toOption.bind fun _ =>
      program.texts.toOption.bind fun texts =>
      (program.root.children.find? (·.kind == .loop)).bind fun node =>
      node.rounds?.bind fun loop =>
      let image := programImage .mingw none (Config.layout {} program) program texts
      (image.labels.lookup "LINE_20").bind fun pc =>
      (image.labels.lookup "FOR_20_START").bind fun start =>
      image.code[start]?.bind fun command =>
      (Config.layout {} program)[1]?.map fun v =>
        (decide ((node.line, loop.2.1, loop.2.2.1, loop.2.2.2.1) = (20, -1, 6, 3)),
          decide ((loop.1.kind, loop.1.children.length) = (.reference 1, 0)),
          commandCount (blockCode .mingw (Config.layout {} program) loop.2.2.2.2),
          decide (command.action = .mov (.imm 5) (.mem (-4) .ebp none)),
          decide ((v.address, v.dims) = (some 8, [])), program.root.nodes.all fun block => (block.kind.vars?.getD []).all fun n =>
            (Config.layout {} program)[n]?.all fun v => v.address.all fun (address : Nat) =>
              decide ((base.reg .esp).toInt + address ≤ (base.reg .ebp).toInt))) =
      some (true, true, 1, true, true, true) := by
    subst hs hb
    decide +kernel
  obtain ⟨program, parsed, evaluated⟩ := exists_ok_of_bind evaluated
  obtain ⟨assembly, compiled, evaluated⟩ := exists_ok_of_bind evaluated
  obtain ⟨texts, decoded, evaluated⟩ := exists_ok_of_bind evaluated
  obtain ⟨node, found, evaluated⟩ := Option.bind_eq_some_iff.mp evaluated
  obtain ⟨⟨counter, a, b, c, body⟩, isLoop, evaluated⟩ := Option.bind_eq_some_iff.mp evaluated
  obtain ⟨pc, leads, evaluated⟩ := Option.bind_eq_some_iff.mp evaluated
  obtain ⟨start, begins, evaluated⟩ := Option.bind_eq_some_iff.mp evaluated
  obtain ⟨command, fetched, evaluated⟩ := Option.bind_eq_some_iff.mp evaluated
  obtain ⟨v, stored, evaluated⟩ := Option.map_eq_some_iff.mp evaluated
  simp only [Prod.mk.injEq, length_eq_zero_iff, decide_eq_true_eq] at evaluated
  obtain ⟨⟨line, rfl, rfl, rfl⟩, ⟨kind, plain⟩, one, acts, ⟨place, dims⟩, clears⟩ := evaluated
  have loads := @load_of_compile program texts source assembly {} parsed compiled (by simp)
    decoded
  have counts : Counts (Config.layout {} program) [1] counter 1 v 8 :=
    ⟨mem_singleton_self 1, kind, plain, stored, dims, place⟩
  have top : base.reg .esp = 4088 ∧ base.reg .ebp = 4096 := by
    subst hb
    decide +kernel
  have isRoot : program.root.kind.vars?.isSome := by
    obtain ⟨vars, kind⟩ := (wellFormed_of_parseSource parsed).isProgram
    rw [kind]
    rfl
  obtain ⟨m, s', y, under, beyond, turns, _, held, value, esp, _⟩ := loop_progresses
    (s := { base with pc }) parsed compiled (by simp) loads (Node.self_mem_blocks isRoot)
    (mem_of_find?_eq_some found) isLoop (by decide) (by decide) (line ▸ leads)
    (by change (base.reg .esp).toInt ≤ _; rw [top.1]; decide)
    (by change _ ≤ (base.reg .esp).toInt - _; rw [top.1]; decide)
    (fun block isBlock _ n isOwn v address stored place => by
      have all := all_eq_true.mp (all_eq_true.mp clears block isBlock) n isOwn
      rw [stored, Option.all_some, place, Option.all_some] at all
      exact of_decide_eq_true all)
    (fun t _ here _ ebp => by
      rw [line] at here
      cases begins.symm.trans here
      obtain ⟨_, text⟩ := command
      cases acts
      refine ⟨_, .goes fetched rfl rfl .refl, one ▸ rfl, ?_, rfl, rfl⟩
      have apart : base.reg .ebp + -4 ≠ elementAt (base.reg .ebp) 8 0 := by
        rw [top.2]
        decide
      have ebp : t.reg .ebp = base.reg .ebp := ebp
      rw [counts.word?_eq, counts.word?_eq]
      show (t.next.store (t.reg .ebp + -4) 5).memory[elementAt (t.reg .ebp) 8 0]? = _
      rw [ebp, State.memory_store, if_neg apart]
      rfl)
  have values : (-1 : Int32).toInt = -1 ∧ (6 : Int32).toInt = 6 ∧ (3 : Int32).toInt = 3 := by decide
  rw [values.1, values.2.1, values.2.2] at beyond
  rw [values.1, values.2.2] at value turns
  rw [line] at turns
  have three : m = 3 := by
    have fourth := under 3
    rw [values.1, values.2.1, values.2.2] at fourth
    omega
  subst three
  have eight : y = 8 := Int32.toInt_inj.mp value
  exact ⟨program, assembly, _, counter, _, s', parsed, compiled, loads, leads, turns, eight ▸ held, esp⟩

/-- Jumps out of blocks leave so much behind that the stack wraps around. From a loop with an empty body
nothing can be popped then, and its start is not gone to. Nor is it where the name of the source holds
a line that is the label of the start. -/
theorem loop_on_wrapped_stack :
    (∃ (assembly : String) (image : Image) (s : State),
      (compile ("10 IF 1 = 1 THEN\n20 DIM A[536870000]\n30 GOTO 50\n40 END\n50 IF 1 = 1 THEN\n" ++
        "60 DIM B[536870000]\n70 GOTO 90\n80 END\n90 FOR I = 1 TO 2\n100 END\n110 PRINT \"done\"\n")
        {}).result = .ok assembly ∧ load assembly = .ok image ∧ image.entry? = some 0 ∧
      image.Reaches (State.start "" 0) s ∧ image.labels.lookup "LINE_90" = some s.pc ∧
      ∀ s', image.Reaches (State.start "" 0) s' → image.labels.lookup "FOR_90_START" ≠ some s'.pc) ∧
    ∃ assembly, (compile "10 FOR I = 1 TO 2\n20 END\n30 PRINT \"done\"\n"
        ⟨.mingw, false, some "a\nFOR_10_START:\nb"⟩).result = .ok assembly ∧
      run assembly "" = .error (.load (.duplicateLabel "FOR_10_START")) := by
  constructor
  · generalize hs : "10 IF 1 = 1 THEN\n20 DIM A[536870000]\n30 GOTO 50\n40 END\n50 IF 1 = 1 THEN\n" ++
      "60 DIM B[536870000]\n70 GOTO 90\n80 END\n90 FOR I = 1 TO 2\n100 END\n110 PRINT \"done\"\n" = source
    have evaluated : ((parseSource source false).result.toOption.bind fun program =>
        (compile source {}).result.toOption.bind fun _ =>
        program.texts.toOption.bind fun texts =>
        let image := programImage .mingw none (Config.layout {} program) program texts
        (image.labels.lookup "LINE_90").bind fun pc =>
        (image.labels.lookup "FOR_90_START").bind fun start =>
        (image.places? 50 (State.start "" 0)).map fun places =>
          (decide (image.entry? = some 0), decide (pc ∈ places), decide (start ∈ places))) =
        some (true, true, false) := by
      subst hs
      decide +kernel
    obtain ⟨program, parsed, evaluated⟩ := exists_ok_of_bind evaluated
    obtain ⟨assembly, compiled, evaluated⟩ := exists_ok_of_bind evaluated
    obtain ⟨texts, decoded, evaluated⟩ := exists_ok_of_bind evaluated
    obtain ⟨pc, leads, evaluated⟩ := Option.bind_eq_some_iff.mp evaluated
    obtain ⟨start, begins, evaluated⟩ := Option.bind_eq_some_iff.mp evaluated
    obtain ⟨places, run, evaluated⟩ := Option.map_eq_some_iff.mp evaluated
    simp only [Prod.mk.injEq, decide_eq_true_eq, decide_eq_false_iff_not] at evaluated
    obtain ⟨entry, there, never⟩ := evaluated
    obtain ⟨s, reaches, rfl⟩ := (Image.mem_places? run pc).mp there
    have loads := @load_of_compile program texts source assembly {} parsed compiled
      (by simp) decoded
    refine ⟨assembly, _, s, compiled, loads, entry, reaches, leads, fun s' reaches' here => never ?_⟩
    cases begins.symm.trans here
    exact (Image.mem_places? run _).mpr ⟨s', reaches', rfl⟩
  · generalize hs : "10 FOR I = 1 TO 2\n20 END\n30 PRINT \"done\"\n" = source
    generalize hn : "a\nFOR_10_START:\nb" = name
    have evaluated : ((compile source ⟨.mingw, false, some name⟩).result.toOption.map fun assembly =>
        run assembly "") = some (.error (.load (.duplicateLabel "FOR_10_START"))) := by
      subst hs hn
      decide +kernel
    obtain ⟨assembly, accepted, runs⟩ := exists_ok_of_map evaluated
    exact ⟨assembly, accepted, runs⟩

end Loops

end LineBasic
