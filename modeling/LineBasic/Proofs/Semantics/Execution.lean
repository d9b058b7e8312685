import LineBasic.Proofs.Stack.Step

/-!
Runs of code that lies in an image, and how runs of its pieces are put together.
-/

namespace LineBasic

namespace Machine

def State.next (s : State) : State :=
  { s with pc := s.pc + 1 }

namespace Image

/-- A run comes to a state with some property. If the stack may be `full`, the run may come to a
command that has no room on it instead. -/
inductive Comes (image : Image) (full : Prop) (goal : State → Prop) : State → Prop
  | here {s : State} : goal s → Comes image full goal s
  | goes {s s' : State} {command : Command} : image.code[s.pc]? = some command →
      step image command s.next = .ok (.running s') → Comes image full goal s' →
      Comes image full goal s
  | wraps {s : State} {command : Command} : full → image.code[s.pc]? = some command →
      ¬ command.action.HasRoom s → Comes image full goal s

/-- A run comes to a state with some property, or to a command that has no room on the stack. -/
abbrev Arrives (image : Image) (goal : State → Prop) (s : State) : Prop :=
  image.Comes True goal s

/-- A run from one state comes to another. -/
inductive Reaches (image : Image) : State → State → Prop
  | refl {s : State} : Reaches image s s
  | goes {s s' s'' : State} {command : Command} : image.code[s.pc]? = some command →
      step image command s.next = .ok (.running s') → Reaches image s' s'' → Reaches image s s''

/-- No command of a run moves the top of the stack below the lowest address. -/
def HasRoom (image : Image) (s : State) : Prop :=
  ∀ s' command, image.Reaches s s' → image.code[s'.pc]? = some command → command.action.HasRoom s'

variable {image : Image} {full : Prop} {goal goal' : State → Prop} {s s' : State} {command : Command}

theorem Comes.bind (h : image.Comes full goal s) (h' : ∀ s', goal s' → image.Comes full goal' s') :
    image.Comes full goal' s := by
  induction h with
  | here reached => exact h' _ reached
  | goes found done _ ih => exact .goes found done ih
  | wraps may found narrow => exact .wraps may found narrow

theorem Comes.mono (h : image.Comes full goal s) (imp : ∀ s', goal s' → goal' s') :
    image.Comes full goal' s :=
  h.bind fun s' reached => .here (imp s' reached)

theorem Comes.of_room (room : full ∨ command.action.HasRoom s)
    (found : image.code[s.pc]? = some command) (h : command.action.HasRoom s →
      ∃ s', step image command s.next = .ok (.running s') ∧ image.Comes full goal s') :
    image.Comes full goal s := by
  by_cases fits : command.action.HasRoom s
  · obtain ⟨s', done, comes⟩ := h fits
    exact .goes found done comes
  · exact .wraps (room.resolve_right fits) found fits

/-- A run for which the stack is never full comes to a state with the property. -/
theorem Comes.exists_reaches (h : image.Comes False goal s) : ∃ s', image.Reaches s s' ∧ goal s' := by
  induction h with
  | here reached => exact ⟨_, .refl, reached⟩
  | goes found done _ ih =>
    obtain ⟨s', reaches, reached⟩ := ih
    exact ⟨s', .goes found done reaches, reached⟩
  | wraps may _ _ => cases may

theorem HasRoom.goes (h : image.HasRoom s) (found : image.code[s.pc]? = some command)
    (done : step image command s.next = .ok (.running s')) : image.HasRoom s' :=
  fun s'' other reaches => h s'' other (.goes found done reaches)

/-- A run that is over after some commands, with room for all of them. -/
def hasRoomFor (image : Image) : Nat → State → Bool
  | 0, _ => false
  | n + 1, s =>
    match image.code[s.pc]? with
    | none => true
    | some command => decide (command.action.HasRoom s) &&
      match step image command s.next with
      | .ok (.running s') => hasRoomFor image n s'
      | _ => true

theorem hasRoom_of_hasRoomFor {n : Nat} (h : image.hasRoomFor n s) : image.HasRoom s := by
  induction n generalizing s with
  | zero => cases h
  | succ n ih =>
    intro s' other reaches found'
    rw [hasRoomFor] at h
    cases reaches with
    | refl =>
      simp only [found', Bool.and_eq_true, decide_eq_true_eq] at h
      exact h.1
    | goes found done reaches =>
      simp only [found, done, Bool.and_eq_true] at h
      exact ih h.2 _ _ reaches found'

theorem runFrom_goes (found : image.code[s.pc]? = some command)
    (done : step image command s.next = .ok (.running s')) (limit steps : Nat) :
    runFrom image (limit + 1) steps s = runFrom image limit (steps + 1) s' := by
  have done : step image command { s with pc := s.pc + 1 } = .ok (.running s') := done
  rw [runFrom, found]
  simp only [done]

/-- A run with room for all its commands arrives after some steps, or stops before at its limit. -/
theorem Comes.runFrom_eq (h : image.Arrives goal s) (room : image.HasRoom s) :
    ∃ n s', goal s' ∧ image.HasRoom s' ∧
      (∀ limit steps, runFrom image (limit + n) steps s = runFrom image limit (steps + n) s') ∧
      ∀ limit steps, limit < n → ∃ output, runFrom image limit steps s = .error (.stepLimit output) := by
  induction h with
  | @here s reached => exact ⟨0, s, reached, room, fun _ _ => rfl, by simp⟩
  | wraps _ found narrow => exact absurd (room _ _ .refl found) narrow
  | @goes s s' command found done _ ih =>
    obtain ⟨n, s'', reached, room', ran, stopped⟩ := ih (room.goes found done)
    refine ⟨n + 1, s'', reached, room', fun limit steps => ?_, fun limit steps few => ?_⟩
    · rw [← Nat.add_assoc, runFrom_goes found done, ran, Nat.add_assoc, Nat.add_comm 1]
    · cases limit with
      | zero => exact ⟨_, rfl⟩
      | succ limit =>
        rw [runFrom_goes found done]
        exact stopped limit _ (by omega)

/-- Code that lies at the next command runs to its end, where `post` holds. -/
def Completes (image : Image) (full : Prop) (code : List Instr) (s : State) (post : State → Prop) :
    Prop :=
  image.Holds s.pc code →
    image.Comes full (fun s' => s'.pc = s.pc + commandCount code ∧ post s') s

/-- Code that lies at the next command runs to its end, or to where the stack is full. -/
abbrev Executes (image : Image) (code : List Instr) (s : State) (post : State → Prop) : Prop :=
  image.Completes True code s post

variable {code rest : List Instr} {post post' : State → Prop}

theorem completes_nil (h : post s) : image.Completes full [] s post :=
  fun _ => .here ⟨rfl, h⟩

theorem Completes.mono (h : image.Completes full code s post) (imp : ∀ s', post s' → post' s') :
    image.Completes full code s post' :=
  fun lies => (h lies).mono fun s' ⟨pc, reached⟩ => ⟨pc, imp s' reached⟩

theorem Completes.append (h : image.Completes full code s post)
    (h' : ∀ s', post s' → image.Completes full rest s' post') :
    image.Completes full (code ++ rest) s post' := by
  intro lies
  obtain ⟨first, second⟩ := holds_append.mp lies
  refine (h first).bind fun s₁ ⟨pc, reached⟩ => ?_
  refine (h' s₁ reached (pc ▸ second)).mono fun s₂ ⟨pc', reached'⟩ => ⟨?_, reached'⟩
  rw [pc', pc, commandCount_append, Nat.add_assoc]

theorem completes_one {instr : Instr} {action : Action} (room : full ∨ action.HasRoom s)
    (acts : actionOf image.data instr = some action)
    (h : action.HasRoom s → ∀ source, ∃ s', step image ⟨action, source⟩ s.next = .ok (.running s') ∧
      s'.pc = s.pc + 1 ∧ post s') : image.Completes full [instr] s post := by
  have isCommand := isCommand_of_action acts
  intro lies
  obtain ⟨⟨action', source⟩, found, acts'⟩ := lies.2.1 isCommand
  cases acts.symm.trans acts'
  refine .of_room room found fun fits => ?_
  obtain ⟨s', done, pc, reached⟩ := h fits source
  refine ⟨s', done, .here ⟨?_, reached⟩⟩
  have count := @commandCount_cons [] instr s.pc
  rw [if_pos isCommand] at count
  exact pc.trans count

theorem executes_one {instr : Instr} {action : Action} (acts : actionOf image.data instr = some action)
    (h : action.HasRoom s → ∀ source, ∃ s', step image ⟨action, source⟩ s.next = .ok (.running s') ∧
      s'.pc = s.pc + 1 ∧ post s') : image.Executes [instr] s post :=
  completes_one (.inl trivial) acts h

theorem step_jmp {name : String} {pc : Nat} (lies : image.Holds s.pc [.jmp name])
    (found : image.labels.lookup name = some pc) :
    ∃ command, image.code[s.pc]? = some command ∧ command.action = .jmp name ∧
      step image command s.next = .ok (.running { s with pc }) := by
  obtain ⟨⟨action, source⟩, command, acts⟩ := lies.2.1 rfl
  cases acts
  refine ⟨_, command, rfl, ?_⟩
  simp only [step, State.jump, found]
  rfl

theorem step_jcc {condition : Condition} {name : String} {pc : Nat}
    (lies : image.Holds s.pc [.jcc condition name]) (found : image.labels.lookup name = some pc) :
    ∃ command, image.code[s.pc]? = some command ∧ command.action = .jcc condition name ∧
      step image command s.next =
        .ok (.running (if s.holds condition then { s with pc } else s.next)) := by
  obtain ⟨⟨action, source⟩, command, acts⟩ := lies.2.1 rfl
  have acts' : actionOf image.data (.jcc condition name) = some (.jcc condition name) := by
    cases condition <;> rfl
  cases acts'.symm.trans acts
  refine ⟨_, command, rfl, ?_⟩
  have same : s.next.holds condition = s.holds condition := rfl
  cases outcome : s.holds condition with
  | true =>
    simp only [step, State.jump, same, outcome, found, if_true]
    rfl
  | false =>
    simp only [step, same, outcome]
    rfl

theorem comes_jmp {name : String} {pc : Nat} (lies : image.Holds s.pc [.jmp name])
    (found : image.labels.lookup name = some pc) (h : image.Comes full goal { s with pc }) :
    image.Comes full goal s := by
  obtain ⟨_, command, _, done⟩ := step_jmp lies found
  exact .goes command done h

theorem comes_jcc {condition : Condition} {name : String} {pc : Nat}
    (lies : image.Holds s.pc [.jcc condition name]) (found : image.labels.lookup name = some pc)
    (taken : s.holds condition = true → image.Comes full goal { s with pc })
    (passed : s.holds condition = false → image.Comes full goal s.next) : image.Comes full goal s := by
  obtain ⟨_, command, _, done⟩ := step_jcc lies found
  refine .goes command done ?_
  split
  next holds => exact taken holds
  next fails => exact passed (by simpa using fails)

end Image

section Actions

variable {data : List Datum} {mnemonic : String} {source target : LineBasic.Operand}
  {source' target' : Operand}

theorem actionOf_of_one (instr : Instr) (h : instr.mnemonic? = some mnemonic)
    (operands : instr.operands = [source]) (found : operandOf data source = some source') :
    actionOf data instr = some (Action.ofOperands mnemonic [source']) := by
  rw [actionOf, h, operands]
  simp [found]

theorem actionOf_of_two (instr : Instr) (h : instr.mnemonic? = some mnemonic)
    (operands : instr.operands = [source, target]) (found : operandOf data source = some source')
    (found' : operandOf data target = some target') :
    actionOf data instr = some (Action.ofOperands mnemonic [source', target']) := by
  rw [actionOf, h, operands]
  simp [found, found']

end Actions

end Machine

namespace Lowered

open Machine

variable {α β : Type} {image : Image} {full : Prop} {s : State} {post : α → State → Prop}
  {post' : β → State → Prop}

/-- Code that has been lowered without a fault runs to its end. -/
def Completes (lowered : Lowered α) (image : Image) (full : Prop) (s : State)
    (post : α → State → Prop) : Prop :=
  ∀ a, lowered.result = .ok a → image.Completes full lowered.code s (post a)

/-- Code that has been lowered without a fault runs to its end, or to where the stack is full. -/
abbrev Does (lowered : Lowered α) (image : Image) (s : State) (post : α → State → Prop) : Prop :=
  lowered.Completes image True s post

theorem completes_pure {a : α} (h : post a s) : (pure a : Lowered α).Completes image full s post := by
  rintro _ ⟨⟩
  exact Image.completes_nil h

theorem completes_fail {fault : EmissionFault} : (fail fault : Lowered α).Completes image full s post := by
  rintro _ ⟨⟩

theorem completes_emit {code : List Instr} {post : Unit → State → Prop}
    (h : image.Completes full code s (post ())) : (emit code).Completes image full s post := by
  rintro _ ⟨⟩
  exact h

theorem completes_bind {first : Lowered α} {next : α → Lowered β} (h : first.Completes image full s post)
    (h' : ∀ a s', post a s' → (next a).Completes image full s' post') :
    (first >>= next).Completes image full s post' := by
  intro b result
  rw [result_bind] at result
  cases first_ok : first.result with
  | error fault =>
    rw [first_ok] at result
    cases result
  | ok a =>
    rw [first_ok] at result
    rw [code_bind first_ok]
    exact (h a first_ok).append fun s' reached => h' a s' reached b result

theorem Completes.mono {lowered : Lowered α} {post' : α → State → Prop} (h : lowered.Completes image full s post)
    (imp : ∀ a s', post a s' → post' a s') : lowered.Completes image full s post' :=
  fun a result => (h a result).mono (imp a)

/-- Code that ends with a conditional jump to `name` takes it or comes to its end. -/
def Chooses (lowered : Lowered Unit) (image : Image) (full : Prop) (s : State) (name : String)
    (taken : Bool) (post : State → Prop) : Prop :=
  lowered.Succeeds → image.Holds s.pc lowered.code → ∀ pc, image.labels.lookup name = some pc →
    image.Comes full
      (fun s' => s'.pc = (if taken then pc else s.pc + commandCount lowered.code) ∧ post s') s

/-- Such code takes the jump or comes to its end, or to where the stack is full. -/
abbrev Decides (lowered : Lowered Unit) (image : Image) (s : State) (name : String) (taken : Bool)
    (post : State → Prop) : Prop :=
  lowered.Chooses image True s name taken post

theorem chooses_fail {fault : EmissionFault} {name : String} {taken : Bool} {post : State → Prop} :
    (fail fault).Chooses image full s name taken post := by
  rintro ⟨_, ⟨⟩⟩

theorem chooses_bind {first : Lowered α} {next : α → Lowered Unit} {name : String} {taken : Bool}
    {goal : State → Prop} (h : first.Completes image full s post)
    (h' : ∀ a s', post a s' → (next a).Chooses image full s' name taken goal) :
    (first >>= next).Chooses image full s name taken goal := by
  intro succeeds lies pc found
  obtain ⟨a, result, succeeds⟩ := succeeds_bind.mp succeeds
  rw [code_bind result] at lies ⊢
  obtain ⟨lies₁, lies₂⟩ := Image.holds_append.mp lies
  refine (h a result lies₁).bind fun s₁ ⟨pc₁, reached⟩ => ?_
  refine (h' a s₁ reached succeeds (pc₁ ▸ lies₂) pc found).mono fun s₂ ⟨pc₂, reached'⟩ => ⟨?_, reached'⟩
  rw [pc₂, pc₁, commandCount_append, Nat.add_assoc]

theorem chooses_emit {code : List Instr} {condition : Condition} {name : String} {taken : Bool}
    {post goal : State → Prop} (h : image.Completes full code s post)
    (decided : ∀ s', post s' → s'.holds condition = taken)
    (moves : ∀ s' pc, post s' → goal { s' with pc }) :
    (emit (code ++ [.jcc condition name])).Chooses image full s name taken goal := by
  intro _ lies pc found
  obtain ⟨lies₁, lies₂⟩ := Image.holds_append.mp lies
  refine (h lies₁).bind fun s₁ ⟨pc₁, reached⟩ => ?_
  have outcome := decided s₁ reached
  refine Image.comes_jcc (pc₁ ▸ lies₂) found (fun holds => ?_) fun fails => ?_
  · refine .here ⟨?_, moves s₁ pc reached⟩
    rw [if_pos (outcome.symm.trans holds)]
  · refine .here ⟨?_, moves s₁ (s₁.pc + 1) reached⟩
    rw [if_neg (by simp [← outcome, fails])]
    show s₁.pc + 1 = s.pc + commandCount (code ++ [.jcc condition name])
    rw [pc₁, commandCount_append, Nat.add_assoc]
    rfl

end Lowered

end LineBasic
