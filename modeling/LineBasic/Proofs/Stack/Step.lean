import LineBasic.Proofs.Stack.Flow

/-!
What one command does to a stack that is as its mark says.
-/

namespace LineBasic

open List Machine Lower

namespace Machine

/-- The faults that the text of a program does not account for: the code or the stack is broken. -/
def RunFault.isInternal : RunFault → Bool
  | noMain | ranOff | unbalanced _ | unknownReturn | unsupported _ | unknownGoal _
  | unknownFunction _ | emptyStack | immediateAddress _ | registerAddress _ | immediateTarget => true
  | stepLimit _ | divisionByZero _ | unsupportedConversion _ | inputExhausted | noString _
  | unwritten _ => false

def Action.operands : Action → List Operand
  | push operand | pop operand | dec operand | idiv operand => [operand]
  | mov source target | lea source target | add source target | sub source target
  | imul source target | cmp source target => [source, target]
  | _ => []

/-- The bytes by which a command makes the stack grow. -/
def Action.growth : Action → Int
  | .push _ => 4
  | .sub (.imm size) (.reg .esp) => size.toInt
  | _ => 0

def Action.isScanf : Action → Bool
  | .call symbol => String.ofList (symbol.toList.dropWhile (· == '_')) == "scanf"
  | _ => false

/-- A command does not move the top of the stack below the lowest address. -/
def Action.HasRoom (action : Action) (s : State) : Prop :=
  -0x80000000 ≤ (s.reg .esp).toInt - action.growth

instance (action : Action) (s : State) : Decidable (action.HasRoom s) :=
  inferInstanceAs (Decidable (-0x80000000 ≤ (s.reg .esp).toInt - action.growth))

theorem Action.hasRoom_of_growth {action : Action} {s : State} (h : action.growth = 0) :
    action.HasRoom s := by
  have least := Int32.le_toInt (s.reg .esp)
  unfold Action.HasRoom
  omega

theorem Action.growth_sub {source : Operand} {register : Register} (h : register ≠ .esp) :
    (Action.sub source (.reg register)).growth = 0 := by
  unfold Action.growth
  split
  next => contradiction
  next eq =>
    cases eq
    exact absurd rfl h
  next => rfl

end Machine

/-- If an operand is an element of an array in `visible`, the array has the element. -/
def InBounds (table : Array Variable) (visible : List Nat) (operand : Machine.Operand)
    (s : State) : Prop :=
  ∀ n ∈ visible, ∀ v ∈ table[n]?, ∀ address ∈ v.address,
    operand = .mem (-Int32.ofNat address) .ebp (some (.edx, Int32.ofNat wordSize)) →
    0 ≤ (s.reg .edx).toInt ∧ (s.reg .edx).toInt < Shape.count v.dims

instance (table : Array Variable) (visible : List Nat) (operand : Machine.Operand) (s : State) :
    Decidable (InBounds table visible operand s) :=
  inferInstanceAs (Decidable (∀ n ∈ visible, ∀ v ∈ table[n]?, ∀ address ∈ v.address,
    operand = .mem (-Int32.ofNat address) .ebp (some (.edx, Int32.ofNat wordSize)) →
    0 ≤ (s.reg .edx).toInt ∧ (s.reg .edx).toInt < Shape.count v.dims))

/-- A call that reads numbers finds a place for each of them. -/
def HasTargets (image : Image) (m : Mark) (action : Action) (s : State) : Prop :=
  action.isScanf → ∀ address ∈ s.memory[s.reg .esp]?, ∀ text ∈ (image.string address).toOption,
    State.conversions text.toList + 1 ≤ m.pending.length

instance (image : Image) (m : Mark) (action : Action) (s : State) :
    Decidable (HasTargets image m action s) :=
  -- Only the word that is there is tried, not every word there could be.
  let _ : Decidable (∀ address ∈ s.memory[s.reg .esp]?, ∀ text ∈ (image.string address).toOption,
      State.conversions text.toList + 1 ≤ m.pending.length) := Option.decidableForallMem _
  inferInstanceAs (Decidable (action.isScanf → ∀ address ∈ s.memory[s.reg .esp]?,
    ∀ text ∈ (image.string address).toOption,
      State.conversions text.toList + 1 ≤ m.pending.length))

/-- A command wraps no address, stays within the arrays it touches, and reads no more numbers than
there are places for them. -/
structure Careful (table : Array Variable) (image : Image) (m : Mark) (action : Action)
    (s : State) : Prop where
  room : action.HasRoom s
  bounds : ∀ operand ∈ action.operands, InBounds table m.visible operand s
  targets : HasTargets image m action s

instance (table : Array Variable) (image : Image) (m : Mark) (action : Action) (s : State) :
    Decidable (Careful table image m action s) :=
  decidable_of_iff (action.HasRoom s ∧
      (∀ operand ∈ action.operands, InBounds table m.visible operand s) ∧
      HasTargets image m action s)
    ⟨fun ⟨room, bounds, targets⟩ => ⟨room, bounds, targets⟩, fun h => ⟨h.room, h.bounds, h.targets⟩⟩

theorem Careful.both {table : Array Variable} {image : Image} {m : Mark} {action : Action} {s : State}
    {source target : Machine.Operand} (h : Careful table image m action s)
    (eq : action.operands = [source, target]) :
    InBounds table m.visible source s ∧ InBounds table m.visible target s :=
  ⟨h.bounds source (by simp [eq]), h.bounds target (by simp [eq])⟩

section Safe

variable {α β : Type} {x : Except RunFault α} {post : α → Prop} {post' : β → Prop}

/-- A computation ends as `post` says or with a fault that a program can account for. -/
def Safe (x : Except RunFault α) (post : α → Prop) : Prop :=
  match x with
  | .ok a => post a
  | .error fault => fault.isInternal = false

theorem safe_bind {f : α → Except RunFault β} (h : Safe x post)
    (h' : ∀ a, post a → Safe (f a) post') : Safe (x >>= f) post' := by
  cases x with
  | ok a => exact h' a h
  | error fault => exact h

theorem Safe.mono {post' : α → Prop} (h : Safe x post) (imp : ∀ a, post a → post' a) :
    Safe x post' := by
  cases x with
  | ok a => exact imp a h
  | error fault => exact h

theorem safe_pure {a : α} (h : post a) : Safe (pure a) post := h

theorem safe_load {s : State} {address : Int32} :
    Safe (s.load address) fun word => s.memory[address]? = some word := by
  unfold State.load
  split
  next word found => exact found
  next => rfl

end Safe

/-- An address within the room that the blocks have reserved. -/
def Mark.Points (m : Mark) (address : Int32) : Prop :=
  frameBase.toInt - m.reserved ≤ address.toInt ∧ address.toInt < frameBase.toInt

/-- The stack is as a mark says, apart from `leak` bytes that jumps have left behind. -/
structure Mark.Holds (m : Mark) (leak : Nat) (s : State) : Prop where
  ebp : s.reg .ebp = frameBase
  esp : (s.reg .esp).toInt = frameBase.toInt - m.reserved - 4 * m.pending.length - leak
  saved : s.memory[frameBase]? = some 0
  sentinel : s.memory[frameBase + 4]? = some returnSentinel
  eax : m.eax = .address → m.Points (s.reg .eax)
  slots : ∀ i, m.pending[i]? = some .address →
    ∃ word, s.memory[s.reg .esp + Int32.ofNat (4 * i)]? = some word ∧ m.Points word

namespace Mark.Holds

variable {m : Mark} {leak : Nat} {s s' : State} {address value : Int32}

section

variable (h : m.Holds leak s)

include h

theorem keep (esp : s'.reg .esp = s.reg .esp) (ebp : s'.reg .ebp = s.reg .ebp)
    (memory : s'.memory = s.memory) : Mark.Holds { m with eax := .value } leak s' where
  ebp := ebp.trans h.ebp
  esp := by rw [esp, h.esp]
  saved := by rw [memory, h.saved]
  sentinel := by rw [memory, h.sentinel]
  eax := by simp
  slots i found := by
    rw [memory, esp]
    exact h.slots i found

theorem toInt_slot {i : Nat} (lt : i < m.pending.length) :
    (s.reg .esp + Int32.ofNat (4 * i)).toInt = (s.reg .esp).toInt + 4 * i := by
  have top := h.esp
  have base := toInt_frameBase
  have low := Int32.le_toInt (s.reg .esp)
  rw [toInt_add_ofNat] <;> omega

theorem setGeneral {register : Register} (isGeneral : register.isGeneral)
    (value : Int32) : Mark.Holds { m with eax := .value } leak (s.setReg register value) := by
  refine h.keep ?_ ?_ rfl
  · cases register <;> simp [Register.isGeneral] at isGeneral ⊢
  · cases register <;> simp [Register.isGeneral] at isGeneral ⊢

theorem store (points : m.Points address) :
    Mark.Holds { m with eax := .value } leak (s.store address value) where
  ebp := h.ebp
  esp := h.esp
  saved := by
    rw [State.memory_store, if_neg (ne_of_toInt (Int.ne_of_lt points.2)), h.saved]
  sentinel := by
    have above : (frameBase + 4).toInt = frameBase.toInt + 4 := by decide
    rw [State.memory_store, if_neg (ne_of_toInt (by have := points.2; omega)), h.sentinel]
  eax := by simp
  slots i found := by
    have lt : i < m.pending.length := (List.getElem?_eq_some_iff.mp found).1
    obtain ⟨word, at_, isPlace⟩ := h.slots i found
    have slot := h.toInt_slot lt
    have top := h.esp
    have below := points.1
    refine ⟨word, ?_, isPlace⟩
    rw [State.memory_store, State.reg_store, if_neg (ne_of_toInt (by omega)), at_]

theorem push (room : -0x80000000 ≤ (s.reg .esp).toInt - 4) {temporary : Temporary}
    (kind : temporary = .address → m.Points value) :
    Mark.Holds (m.push temporary) leak (s.push value) := by
  have top := h.esp
  have base := toInt_frameBase
  have esp : (s.reg .esp - 4).toInt = (s.reg .esp).toInt - 4 :=
    toInt_sub_ofNat (by omega) (by omega)
  have above : (frameBase + 4).toInt = frameBase.toInt + 4 := by decide
  refine ⟨h.ebp, ?_, ?_, ?_, by simp [Mark.push], fun i found => ?_⟩
  · rw [State.reg_push, if_pos rfl, esp, top]
    simp only [Mark.push, length_cons]
    omega
  · rw [State.memory_push, if_neg (ne_of_toInt (by omega)), h.saved]
  · rw [State.memory_push, if_neg (ne_of_toInt (by omega)), h.sentinel]
  · rw [State.reg_push, if_pos rfl]
    cases i with
    | zero =>
      cases found
      refine ⟨value, ?_, kind rfl⟩
      simp
    | succ i =>
      have found : m.pending[i]? = some .address := found
      obtain ⟨lt, _⟩ := List.getElem?_eq_some_iff.mp found
      obtain ⟨word, at_, isPlace⟩ := h.slots i found
      have slot := h.toInt_slot lt
      have same : s.reg .esp - 4 + Int32.ofNat (4 * (i + 1)) = s.reg .esp + Int32.ofNat (4 * i) := by
        rw [Nat.mul_add, Int32.ofNat_add, show Int32.ofNat (4 * 1) = 4 from rfl]
        grind
      refine ⟨word, ?_, isPlace⟩
      rw [same, State.memory_push, if_neg (ne_of_toInt (by omega)), at_]

theorem pop (nonempty : m.pending ≠ []) :
    Safe s.pop fun (_, s') => s'.pc = s.pc ∧
      Mark.Holds { m with pending := m.pending.tail, eax := .value } leak s' := by
  have top := h.esp
  have base := toInt_frameBase
  have length := length_pos_iff.mpr nonempty
  have bottom : stackTop.toInt = 1048576 := by decide
  have esp : (s.reg .esp + 4).toInt = (s.reg .esp).toInt + 4 := by
    have low := Int32.le_toInt (s.reg .esp)
    exact @toInt_add_ofNat _ 4 (by omega) (by omega)
  have inside : ¬ stackTop ≤ s.reg .esp := by
    rw [Int32.le_iff_toInt_le]
    omega
  unfold State.pop
  simp only [inside, if_false]
  refine safe_bind safe_load fun word _ => safe_pure ⟨rfl, h.ebp, ?_, h.saved, h.sentinel, by simp,
    fun i found => ?_⟩
  · rw [State.reg_setReg, if_pos rfl, esp, top]
    simp only [length_tail]
    omega
  · have found : m.pending[i + 1]? = some .address := by
      rw [← getElem?_tail]
      exact found
    rw [State.reg_setReg, if_pos rfl, slot_succ]
    exact h.slots (i + 1) found

theorem move {m' : Mark} {leak' : Nat} (none : m'.pending = []) (eax : m'.eax = .value)
    (esp : (s'.reg .esp).toInt = frameBase.toInt - m'.reserved - leak')
    (ebp : s'.reg .ebp = s.reg .ebp) (memory : s'.memory = s.memory) : m'.Holds leak' s' where
  ebp := ebp.trans h.ebp
  esp := by
    rw [esp, none]
    simp
  saved := by rw [memory, h.saved]
  sentinel := by rw [memory, h.sentinel]
  eax := by simp [eax]
  slots := by simp [none]

end

theorem scan {targets : Nat} (pending : m.pending = .value :: List.replicate targets .address)
    (eax : m.eax = .value) (count : Nat) {i : Nat} (h : m.Holds leak s)
    (le : i + count ≤ targets) :
    Safe (s.scan count (s.reg .esp + Int32.ofNat (4 * (i + 1)))) fun s' =>
      s'.pc = s.pc ∧ m.Holds leak s' := by
  induction count generalizing s i with
  | zero => exact ⟨rfl, h⟩
  | succ count ih =>
    unfold State.scan
    split
    next => exact rfl
    next word rest input =>
      split
      next => exact rfl
      next value _ =>
        have slot : m.pending[i + 1]? = some .address := by
          rw [pending, getElem?_cons_succ, getElem?_replicate, if_pos (by omega)]
        obtain ⟨target, found, points⟩ := h.slots (i + 1) slot
        refine safe_bind safe_load fun address loaded => ?_
        rw [found] at loaded
        cases loaded
        have reading : m.Holds leak { s with input := rest } :=
          ⟨h.ebp, h.esp, h.saved, h.sentinel, h.eax, h.slots⟩
        have stored : m.Holds leak (State.store { s with input := rest } target value) := by
          have := @Mark.Holds.store m leak _ target value reading points
          rwa [show ({ m with eax := .value } : Mark) = m by cases m; cases eax; rfl] at this
        have next := ih stored (show i + 1 + count ≤ targets by omega)
        have same : s.reg .esp + Int32.ofNat (4 * (i + 1)) + 4 =
            s.reg .esp + Int32.ofNat (4 * (i + 1 + 1)) := by
          rw [Nat.mul_add 4 (i + 1), Int32.ofNat_add, show Int32.ofNat (4 * 1) = 4 from rfl]
          grind
        rw [same]
        exact next

end Mark.Holds

theorem safe_address {table : Array Variable} {data : List Datum} {m : Mark} {leak : Nat} {s : State}
    {operand : LineBasic.Operand} {resolved : Machine.Operand} (h : m.Holds leak s)
    (storage : Storage table m.reserved m.visible) (isStorage : IsStorage table m.visible operand)
    (eq : operandOf data operand = some resolved) (bounds : InBounds table m.visible resolved s) :
    ∃ disp index address, resolved = .mem disp .ebp index ∧ s.address resolved = .ok address ∧
      m.Points address := by
  have bound := storage.bound
  have base := toInt_frameBase
  cases isStorage with
  | @scalar n address v mem found scalar place =>
    obtain ⟨_, _, found', place', below, above⟩ := storage.inside n mem
    cases found.symm.trans found'
    cases place.symm.trans place'
    cases eq
    rw [scalar, Shape.count_nil] at below
    have toInt := @toInt_cell address 0 (by omega) (by omega)
    refine ⟨_, _, cell address 0, rfl, ?_, by omega, by omega⟩
    show Except.ok (s.reg .ebp + -Int32.ofNat address) = _
    rw [h.ebp, cell]
    simp
  | @element n address v mem found place =>
    obtain ⟨_, _, found', place', below, above⟩ := storage.inside n mem
    cases found.symm.trans found'
    cases place.symm.trans place'
    cases eq
    obtain ⟨low, high⟩ := bounds n mem v found address place rfl
    obtain ⟨k, index⟩ := Int.eq_ofNat_of_zero_le low
    have toInt := @toInt_cell address k (by omega) (by omega)
    have edx : s.reg .edx = Int32.ofNat k := by
      rw [← Int32.ofInt_toInt (s.reg .edx), index]
      rfl
    refine ⟨_, _, cell address k, rfl, ?_, by omega, by omega⟩
    show Except.ok (s.reg .ebp + -Int32.ofNat address + s.reg .edx * Int32.ofNat wordSize) = _
    rw [h.ebp, edx, cell]

section Step

variable {table : Array Variable} {all : List (Instr × Mark)} {image : Image} {m : Mark}
  {leak : Nat} {s : State} {operand source target : LineBasic.Operand}
  {resolved : Machine.Operand}

theorem read_of_isWord (h : operand.isWord) (eq : operandOf image.data operand = some resolved) :
    ∃ word, s.read resolved = .ok word := by
  cases operand with
  | imm value =>
    cases eq
    exact ⟨value, rfl⟩
  | addr label =>
    obtain ⟨datum, _, rfl⟩ := Option.map_eq_some_iff.mp eq
    exact ⟨datum.address, rfl⟩
  | reg register =>
    cases eq
    exact ⟨s.reg register, rfl⟩
  | _ => cases h

theorem safe_read (holds : m.Holds leak s) (storage : Storage table m.reserved m.visible)
    (h : IsReadable table m.visible operand) (eq : operandOf image.data operand = some resolved)
    (bounds : InBounds table m.visible resolved s) :
    Safe (s.read resolved) fun word => s.read resolved = .ok word := by
  rcases h with isWord | isStorage
  · obtain ⟨word, read⟩ := @read_of_isWord image s _ _ isWord eq
    rw [read]
    rfl
  · obtain ⟨disp, index, address, rfl, found, _⟩ := safe_address holds storage isStorage eq bounds
    have read : s.read (.mem disp .ebp index) = s.load address := by
      show (do s.load (← s.address (.mem disp .ebp index))) = _
      rw [found]
      rfl
    rw [read]
    have loaded := @safe_load s address
    cases result : s.load address with
    | ok word => rfl
    | error fault =>
      rw [result] at loaded
      exact loaded

theorem safe_write (holds : m.Holds leak s) (storage : Storage table m.reserved m.visible)
    (h : IsWritable table m.visible operand) (eq : operandOf image.data operand = some resolved)
    (bounds : InBounds table m.visible resolved s) (value : Int32) :
    Safe (s.write resolved value) fun s' =>
      s'.pc = s.pc ∧ Mark.Holds { m with eax := .value } leak s' := by
  rcases h with ⟨register, isGeneral, rfl⟩ | isStorage
  · cases eq
    exact ⟨rfl, holds.setGeneral isGeneral value⟩
  · obtain ⟨disp, index, address, rfl, found, points⟩ :=
      safe_address holds storage isStorage eq bounds
    show Safe (do return s.store (← s.address (.mem disp .ebp index)) value) _
    rw [found]
    exact ⟨rfl, holds.store points⟩

/-- Where a command may go: on to the next one, which has the mark `m'`, or to a label. Only an
unconditional jump leaves room behind. -/
def Goes (image : Image) (all : List (Instr × Mark)) (m m' : Mark) (instr : Instr) (leak : Nat)
    (s : State) : Progress → Prop
  | .returned _ => False
  | .running s' => (s'.pc = s.pc ∧ m'.Holds leak s' ∧ ∀ goal, instr ≠ .jmp goal) ∨
    ∃ goal k, (.label goal, k) ∈ all ∧ image.labels.lookup goal = some s'.pc ∧
      k.Holds (leak + (m.reserved - k.reserved)) s' ∧ (k.reserved = m.reserved ∨ instr = .jmp goal)

theorem jump_ok {goal : String} {pc : Nat} (found : image.labels.lookup goal = some pc) :
    s.jump image goal = .ok { s with pc } := by
  rw [State.jump, found]

theorem Mark.Holds.jump {k : Mark} {pc : Nat} (holds : m.Holds leak s) (eax : k.eax = .value)
    (pending : k.pending = m.pending) (reserved : k.reserved = m.reserved) :
    k.Holds (leak + (m.reserved - k.reserved)) { s with pc } where
  ebp := holds.ebp
  esp := by
    have top := holds.esp
    show (s.reg .esp).toInt = _
    rw [pending, reserved]
    omega
  saved := holds.saved
  sentinel := holds.sentinel
  eax := by simp [eax]
  slots i found := by
    rw [pending] at found
    obtain ⟨word, at_, points⟩ := holds.slots i found
    unfold Mark.Points at points ⊢
    rw [reserved]
    exact ⟨word, at_, points⟩

theorem after_of_isWritable (h : IsWritable table m.visible target) :
    m.after (.add source target) = { m with eax := .value } := by
  rcases h with ⟨register, isGeneral, rfl⟩ | isStorage
  · cases register <;> simp [Register.isGeneral, Mark.after] at isGeneral ⊢
  · cases isStorage <;> rfl

theorem safe_string {address : Int32} :
    Safe (image.string address) fun text => image.string address = .ok text := by
  unfold Image.string
  split
  next => rfl
  next => rfl

theorem safe_format {address : Int32} {written : String} {format : List Char} :
    Safe (s.format image written address format) fun _ => True := by
  fun_induction State.format image s written address format with
  | case1 => trivial
  | case2 _ _ _ ih => exact safe_bind safe_load fun _ _ => ih _
  | case3 _ _ _ ih => exact safe_bind safe_load fun _ _ => safe_bind safe_string fun _ _ => ih _
  | case4 _ _ _ ih => exact ih
  | case5 => rfl
  | case6 _ _ _ _ _ _ _ _ ih => exact ih

theorem safe_update (holds : m.Holds leak s) (storage : Storage table m.reserved m.visible)
    {source' target' : Machine.Operand} (isWord : source.isWord)
    (eq : operandOf image.data source = some source') (h : IsWritable table m.visible target)
    (eq' : operandOf image.data target = some target')
    (bounds : InBounds table m.visible target' s) (f : Int32 → Int32 → Int32) :
    Safe (s.update source' target' f) fun s' =>
      s'.pc = s.pc ∧ Mark.Holds { m with eax := .value } leak s' := by
  have readable : IsReadable table m.visible target := by
    rcases h with ⟨register, _, rfl⟩ | isStorage
    · exact .inl rfl
    · exact .inr isStorage
  obtain ⟨word, read⟩ := @read_of_isWord image s _ _ isWord eq
  refine safe_bind (safe_read holds storage readable eq' bounds) fun old _ => ?_
  rw [read]
  exact safe_write holds storage h eq' bounds _

/-- A command that fits its mark ends with a fault of the program or goes where the marks say. -/
theorem safe_fits {instr : Instr} {command : Command} (fits : Fits table all m instr)
    (eq : actionOf image.data instr = some command.action)
    (known : ∀ goal k, (.label goal, k) ∈ all → ∃ pc, image.labels.lookup goal = some pc)
    (storage : Storage table m.reserved m.visible) (holds : m.Holds leak s)
    (careful : Careful table image m command.action s) :
    Safe (step image command s) (Goes image all m (m.after instr) instr leak s) := by
  obtain ⟨action, text⟩ := command
  have room := careful.room
  have bounds := careful.bounds
  cases fits with
  | label => cases eq
  | @push source readable =>
    obtain ⟨o, found, rfl⟩ := actionOf_one rfl rfl eq
    refine safe_bind (safe_read holds storage readable found (bounds o (mem_singleton_self _)))
      fun word read => safe_pure (.inl ⟨rfl, ?_, by simp⟩)
    by_cases isEax : source = .reg .eax
    · cases isEax
      cases found
      cases read
      exact holds.push room holds.eax
    · have value : m.after (.push source) = m.push .value := by
        unfold Mark.after
        split <;> simp_all
      rw [value]
      exact holds.push room (by simp)
  | @pop register isGeneral nonempty =>
    cases eq
    refine safe_bind (holds.pop nonempty) fun popped h => safe_pure (.inl ⟨h.1, ?_, by simp⟩)
    exact h.2.setGeneral isGeneral popped.1
  | @mov source target isWord writable =>
    obtain ⟨o, o', found, found', rfl⟩ := actionOf_two rfl rfl eq
    obtain ⟨first, second⟩ := careful.both rfl
    exact safe_bind (safe_read holds storage (.inl isWord) found first) fun word _ =>
      safe_bind (safe_write holds storage writable found' second word) fun s' h =>
        safe_pure (.inl ⟨h.1, h.2, by simp⟩)
  | @lea source isStorage =>
    obtain ⟨o, o', found, found', rfl⟩ := actionOf_two rfl rfl eq
    obtain ⟨first, second⟩ := careful.both rfl
    cases found'
    obtain ⟨disp, index, address, rfl, place, points⟩ :=
      safe_address holds storage isStorage found first
    have done : step image ⟨.lea (.mem disp .ebp index) (.reg .eax), text⟩ s =
        .ok (.running (s.setReg .eax address)) := by
      show (do return Progress.running (← s.write (.reg .eax) (← s.address (.mem disp .ebp index)))) = _
      rw [place]
      rfl
    show Safe (step image ⟨.lea (.mem disp .ebp index) (.reg .eax), text⟩ s) _
    rw [done]
    exact .inl ⟨rfl, ⟨holds.ebp, holds.esp, holds.saved, holds.sentinel, fun _ => points,
      holds.slots⟩, by simp⟩
  | @add source target isWord writable =>
    obtain ⟨o, o', found, found', rfl⟩ := actionOf_two rfl rfl eq
    obtain ⟨_, second⟩ := careful.both rfl
    refine safe_bind (safe_update holds storage isWord found writable found' second _) fun s' h =>
      safe_pure (.inl ⟨h.1, ?_, by simp⟩)
    rw [after_of_isWritable writable]
    exact h.2
  | release =>
    cases eq
    have top := holds.esp
    have base := toInt_frameBase
    have esp : (s.reg .esp + Int32.ofNat (wordSize * m.pending.length)).toInt =
        (s.reg .esp).toInt + (4 * m.pending.length : Nat) := by
      have low := Int32.le_toInt (s.reg .esp)
      exact @toInt_add_ofNat _ (4 * m.pending.length) (by omega) (by omega)
    refine .inl ⟨rfl, holds.move rfl rfl ?_ rfl rfl, by simp⟩
    show (s.reg .esp + Int32.ofNat (wordSize * m.pending.length)).toInt = _
    rw [esp, top]
    simp only [Mark.after]
    omega
  | @sub source target isWord writable =>
    obtain ⟨o, o', found, found', rfl⟩ := actionOf_two rfl rfl eq
    obtain ⟨_, second⟩ := careful.both rfl
    exact safe_bind (safe_update holds storage isWord found writable found' second _) fun s' h =>
        safe_pure (.inl ⟨h.1, h.2, by simp⟩)
  | @imul source target isWord isGeneral =>
    obtain ⟨o, o', found, found', rfl⟩ := actionOf_two rfl rfl eq
    obtain ⟨_, second⟩ := careful.both rfl
    exact safe_bind (safe_update holds storage isWord found (isWritable_general isGeneral) found'
      second _) fun s' h =>
        safe_pure (.inl ⟨h.1, h.2, by simp⟩)
  | cltd =>
    cases eq
    exact .inl ⟨rfl, holds.keep rfl rfl rfl, by simp⟩
  | @idiv divisor =>
    cases eq
    show Safe (if s.reg divisor = 0 then throw _ else pure (Progress.running (s.divide _))) _
    split
    next => rfl
    next => exact .inl ⟨rfl, holds.keep rfl rfl rfl, by simp⟩
  | @dec target isGeneral =>
    cases eq
    exact .inl ⟨rfl, holds.setGeneral isGeneral _, by simp⟩
  | @cmp source target isWord readable =>
    obtain ⟨o, o', found, found', rfl⟩ := actionOf_two rfl rfl eq
    obtain ⟨first, second⟩ := careful.both rfl
    exact safe_bind (safe_read holds storage readable found' second) fun value _ =>
      safe_bind (safe_read holds storage (.inl isWord) found first) fun other _ =>
        safe_pure (.inl ⟨rfl, holds.keep rfl rfl rfl, by simp⟩)
  | @jmp goal meets =>
    cases eq
    obtain ⟨k, mem, eax, pending, reserved⟩ := meets
    obtain ⟨pc, found⟩ := known goal k mem
    show Safe (do return Progress.running (← s.jump image goal)) _
    rw [jump_ok found]
    exact .inr ⟨goal, k, mem, found, holds.jump eax pending reserved, .inl reserved⟩
  | @goto goal leads =>
    cases eq
    obtain ⟨k, mem, eax, pending, none, le⟩ := leads
    obtain ⟨pc, found⟩ := known goal k mem
    show Safe (do return Progress.running (← s.jump image goal)) _
    rw [jump_ok found]
    refine .inr ⟨goal, k, mem, found, holds.move pending eax ?_ rfl rfl, .inr rfl⟩
    show (s.reg .esp).toInt = _
    rw [holds.esp, none, length_nil]
    omega
  | @jcc condition goal meets =>
    obtain ⟨k, mem, eax, pending, reserved⟩ := meets
    obtain ⟨pc, found⟩ := known goal k mem
    have act : action = .jcc condition goal := by
      cases condition <;> cases eq <;> rfl
    cases act
    show Safe (if s.holds condition then (do return Progress.running (← s.jump image goal)) else
      pure (.running s)) _
    split
    next =>
      rw [jump_ok found]
      exact .inr ⟨goal, k, mem, found, holds.jump eax pending reserved, .inl reserved⟩
    next => exact .inl ⟨rfl, holds.keep rfl rfl rfl, by simp⟩
  | start =>
    cases eq
    exact .inl ⟨rfl, holds.keep rfl rfl rfl, by simp⟩
  | @printf target =>
    cases eq
    have printed : Safe (s.printf image) fun s' => s'.pc = s.pc ∧ s'.registers = s.registers ∧
        s'.memory = s.memory :=
      safe_bind safe_load fun _ _ => safe_bind safe_string fun _ _ => safe_bind safe_format fun _ _ =>
        safe_pure ⟨rfl, rfl, rfl⟩
    show Safe (do return Progress.running (← s.call image (target.symbol "printf"))) _
    rw [State.call_printf, bind_assoc]
    refine safe_bind printed fun s' h => .inl ⟨h.1, holds.keep ?_ ?_ h.2.2, by simp⟩
    · show s'.registers.esp = s.registers.esp
      rw [h.2.1]
    · show s'.registers.ebp = s.registers.ebp
      rw [h.2.1]
  | @scanf target targets pending =>
    cases eq
    have scanned : Safe (s.scanf image) fun s' => s'.pc = s.pc ∧
        Mark.Holds { m with eax := .value } leak s' := by
      refine safe_bind safe_load fun address found => safe_bind safe_string fun format isFormat => ?_
      have count := careful.targets (beq_iff_eq.mpr (State.dropWhile_symbol target (.inr rfl)))
        address found format (by rw [isFormat]; rfl)
      rw [pending, length_cons, length_replicate] at count
      exact @Mark.Holds.scan { m with eax := .value } leak s targets pending rfl _ 0
        (holds.keep rfl rfl rfl) (by omega)
    show Safe (do return Progress.running (← s.call image (target.symbol "scanf"))) _
    rw [State.call_scanf, bind_assoc]
    exact safe_bind scanned fun s' h => .inl ⟨h.1, h.2.setGeneral rfl 0, by simp⟩

theorem safe_moves {instr : Instr} {command : Command} {m' : Mark} (moves : Moves table all m instr m')
    (eq : actionOf image.data instr = some command.action)
    (known : ∀ goal k, (.label goal, k) ∈ all → ∃ pc, image.labels.lookup goal = some pc)
    (storage : Storage table m.reserved m.visible) (holds : m.Holds leak s)
    (careful : Careful table image m command.action s) :
    Safe (step image command s) (Goes image all m m' instr leak s) := by
  have base := toInt_frameBase
  have top := holds.esp
  cases moves with
  | fits fits => exact safe_fits fits eq known storage holds careful
  | @grow m vars none bound =>
    have room := careful.room
    obtain ⟨action, text⟩ := command
    cases eq
    have small : frameSize table vars < 0x80000000 := by
      simp only [Mark.enter, maxFrameSize] at bound
      omega
    have room : -0x80000000 ≤ (s.reg .esp).toInt - (Int32.ofNat (frameSize table vars)).toInt := room
    rw [toInt_ofNat_of_lt small] at room
    have esp := @toInt_sub_ofNat (s.reg .esp) (frameSize table vars) room (by omega)
    refine .inl ⟨rfl, holds.move rfl rfl ?_ rfl rfl, by simp⟩
    show (s.reg .esp - Int32.ofNat (frameSize table vars)).toInt = _
    rw [esp, top, none]
    simp only [Mark.enter, length_nil]
    omega
  | @shrink _ vars none eax =>
    obtain ⟨action, text⟩ := command
    cases eq
    simp only [Mark.enter, length_nil] at top
    have low := Int32.le_toInt (s.reg .esp)
    have esp := @toInt_add_ofNat (s.reg .esp) (frameSize table vars) (by omega) (by omega)
    refine .inl ⟨rfl, holds.move none eax ?_ rfl rfl, by simp⟩
    show (s.reg .esp + Int32.ofNat (frameSize table vars)).toInt = _
    rw [esp, top]
    omega

end Step

end LineBasic
