import LineBasic.Proofs.Semantics.Expressions

/-!
The calls that programs make, on the values and addresses on the stack.
-/

namespace LineBasic

open List Machine Lower

section Printing

variable {image : Image} {s : State} {cs text : List Char} {values : List Value}
  {words : List Int32} {address : Int32}

/-- The slots from an address on hold some words. -/
def SlotsFrom (s : State) (address : Int32) (words : List Int32) : Prop :=
  ∀ i word, words[i]? = some word → s.memory[address + Int32.ofNat (4 * i)]? = some word

theorem slots_tail {word : Int32} (h : SlotsFrom s address (word :: words)) :
    s.load address = .ok word ∧ SlotsFrom s (address + 4) words := by
  constructor
  · have first := h 0 word rfl
    exact State.load_eq (by simpa using first)
  · intro i other found
    have later := h (i + 1) other found
    have same : address + 4 + Int32.ofNat (4 * i) = address + Int32.ofNat (4 * (i + 1)) := by
      rw [Nat.mul_add, Int32.ofNat_add, show Int32.ofNat (4 * 1) = 4 from rfl]
      grind
    rw [same]
    exact later

theorem push_append (written : String) (c : Char) (text : List Char) :
    written.push c ++ String.ofList text = written ++ String.ofList (c :: text) := by
  simp [← String.toList_inj]

theorem format_eq (printed : printed? cs values = some text)
    (depicts : Forall₂ (Depicts image) values words) (slots : SlotsFrom s address words)
    (written : String) :
    s.format image written address cs = .ok (written ++ String.ofList text) := by
  fun_induction printed? cs values generalizing text words address written with
  | case1 =>
    cases printed
    rw [State.format]
    simp
  | case2 rest word values ih =>
    obtain ⟨more, below, rfl⟩ := Option.map_eq_some_iff.mp printed
    cases depicts with
    | cons first others =>
      cases first with
      | int =>
        obtain ⟨loaded, slots⟩ := slots_tail slots
        rw [State.format, loaded]
        simp only [bind, Except.bind]
        rw [ih below others slots, String.ofList_append, String.ofList_toList, String.append_assoc]
  | case3 rest string values ih =>
    obtain ⟨more, below, rfl⟩ := Option.map_eq_some_iff.mp printed
    cases depicts with
    | cons first others =>
      cases first with
      | text found =>
        obtain ⟨loaded, slots⟩ := slots_tail slots
        rw [State.format, loaded]
        simp only [bind, Except.bind, found]
        rw [ih below others slots, String.ofList_append, String.ofList_toList, String.append_assoc]
  | case4 rest values ih =>
    obtain ⟨more, below, rfl⟩ := Option.map_eq_some_iff.mp printed
    rw [State.format, ih below depicts slots, push_append]
  | case5 => cases printed
  | case6 c rest values plain _ _ _ ih =>
    obtain ⟨more, below, rfl⟩ := Option.map_eq_some_iff.mp printed
    rw [State.format, ih below depicts slots, push_append]
    all_goals
      intros
      simp_all
  | case7 => cases printed

end Printing

section Reading

variable {image : Image} {table : Array Variable} {reserved : Nat} {visible : List Nat} {w : World}
  {b : Scratch} {base s : State}

theorem asked_cons (c : Char) (cs : List Char) :
    asked (c :: cs) = asked cs + if ['%', 'd'].isPrefixOf (c :: cs) then 1 else 0 := by
  unfold asked
  rw [length_cons, range_succ_eq_map, countP_cons, countP_map]
  rfl

theorem conversions_eq (cs : List Char) : State.conversions cs = asked cs := by
  fun_induction State.conversions cs with
  | case1 rest ih =>
    rw [ih, asked_cons, asked_cons]
    simp
  | case2 c rest plain ih =>
    have other : ¬ ['%', 'd'].isPrefixOf (c :: rest) := by
      intro starts
      obtain ⟨more, eq⟩ := isPrefixOf_iff_prefix.mp starts
      cases eq
      exact plain more rfl rfl
    rw [ih, asked_cons, if_neg other, Nat.add_zero]
  | case3 => rfl

/-- An address is that of an element that can be seen. -/
def Addressed (table : Array Variable) (visible : List Nat) (element : Nat × Nat)
    (address : Int32) : Prop :=
  ∃ v place, element.1 ∈ visible ∧ table[element.1]? = some v ∧ v.address = some place ∧
    element.2 < Shape.count v.dims ∧ address = cell place element.2

theorem Scratch.Atop.receive (h : b.Atop base s) (input : List (List Char)) :
    b.Atop { base with input } { s with input } :=
  ⟨h.low, h.esp, h.slots, h.memory, h.ebp, h.eax, h.ecx, h.edx, h.order, rfl, h.output⟩

theorem Mirrors.receive (h : Mirrors image table reserved visible w s) (input : List (List Char)) :
    Mirrors image table reserved visible { w with input } { s with input } :=
  ⟨h.ebp, h.esp, h.saved, h.sentinel, h.cells, rfl, h.output⟩

theorem scan_eq {elements : List (Nat × Nat)} {addresses numbers : List Int32}
    {rest : List (List Char)} {i : Nat} (storage : Storage table reserved visible)
    (addressed : Forall₂ (Addressed table visible) elements addresses)
    (mirrors : Mirrors image table reserved visible w base) (atop : b.Atop base s)
    (slots : b.words.drop i = addresses)
    (taken : taken? elements.length w.input = some (numbers, rest)) :
    ∃ base' s', s.scan elements.length (s.reg .esp + Int32.ofNat (4 * i)) = .ok s' ∧ s'.pc = s.pc ∧
      b.Atop base' s' ∧ Mirrors image table reserved visible
        { w with store := w.store.writeAll elements numbers, input := rest } base' := by
  induction addressed generalizing w base s i numbers with
  | nil =>
    cases taken
    exact ⟨base, s, rfl, rfl, atop, mirrors⟩
  | @cons element address elements addresses first _ ih =>
    obtain ⟨v, place, mem, found, eq, inside, rfl⟩ := first
    cases input : w.input with
    | nil =>
      rw [input] at taken
      cases taken
    | cons word others =>
      rw [input] at taken
      obtain ⟨number, read, taken⟩ := Option.bind_eq_some_iff.mp taken
      obtain ⟨⟨numbers', rest'⟩, later, taken⟩ := Option.bind_eq_some_iff.mp taken
      cases taken
      have slot : b.words[i]? = some (cell place element.2) := by
        have first := @getElem?_drop _ b.words i 0
        rw [slots] at first
        simpa using first.symm
      have tail : b.words.drop (i + 1) = addresses := by
        rw [← tail_drop, slots, tail_cons]
      have loaded := State.load_eq (atop.slots i _ slot)
      have waiting : s.input = word :: others := (atop.input.trans mirrors.input).trans input
      have above := mirrors.above storage mem found eq inside
      obtain ⟨base', s', scanned, pc, atop', mirrors'⟩ := ih
        ((mirrors.receive others).store storage mem found eq inside .int)
        ((atop.receive others).store above number) tail later
      refine ⟨base', s', ?_, pc, atop', mirrors'⟩
      have same : s.reg .esp + Int32.ofNat (4 * i) + 4 = s.reg .esp + Int32.ofNat (4 * (i + 1)) := by
        rw [Nat.mul_add, Int32.ofNat_add, show Int32.ofNat (4 * 1) = 4 from rfl, Int32.add_assoc]
      rw [length_cons, State.scan]
      simp only [waiting, read, loaded, bind, Except.bind, same]
      exact scanned

end Reading

section Calls

variable {image : Image} {full : Prop} {b : Scratch} {base s s' : State} {post : State → Prop}

theorem completes_call {symbol : String} (called : s.next.call image symbol = .ok s')
    (pc : s'.pc = s.pc + 1) (h : post s') : image.Completes full [.call symbol] s post := by
  refine Image.completes_one (.inr (Action.hasRoom_of_growth rfl)) rfl fun _ _ => ⟨s', ?_, pc, h⟩
  simp only [step, called]
  rfl

theorem completes_release {n : Nat} (atop : b.Atop base s) (length : b.words.length = n) :
    image.Completes full [.add (.imm (Int32.ofNat (wordSize * n))) (.reg .esp)] s
      (Scratch.Atop { b with words := [] } base) := by
  refine Image.completes_one (.inr (Action.hasRoom_of_growth rfl)) rfl fun _ _ => ⟨_, rfl, rfl, ?_⟩
  have released := atop.next.release
  rw [length] at released
  exact released

theorem Mirrors.write {table : Array Variable} {reserved : Nat} {visible : List Nat} {w : World}
    (h : Mirrors image table reserved visible w s) (text : String) :
    Mirrors image table reserved visible { w with output := w.output ++ text }
      { s with output := s.output ++ text } :=
  ⟨h.ebp, h.esp, h.saved, h.sentinel, h.cells, h.input, congrArg (· ++ text) h.output⟩

theorem Scratch.Atop.write (h : b.Atop base s) (text : String) :
    b.Atop { base with output := base.output ++ text } { s with output := s.output ++ text } :=
  ⟨h.low, h.esp, h.slots, h.memory, h.ebp, h.eax, h.ecx, h.edx, h.order, h.input,
    congrArg (· ++ text) h.output⟩

/-- A call of a library function with its arguments on the stack, which leaves the stack as it was
before them. -/
theorem completes_library {target : Target} {function label : String} {datum : Datum} {n : Nat}
    (labelled : image.data.find? (·.label == label) = some datum) (atop : b.Atop base s)
    (room : b.Room full base 1) (length : b.words.length = n)
    (called : ∀ s, (b.push datum.address).Atop base s → ∃ base' s',
      s.call image (target.symbol function) = .ok s' ∧ s'.pc = s.pc ∧ post base' ∧
        Scratch.Atop ⟨datum.address :: b.words, 0, b.ecx, b.edx, b.order⟩ base' s') :
    image.Completes full [.push (.addr label), .call (target.symbol function),
      .add (.imm (Int32.ofNat (wordSize * (n + 1)))) (.reg .esp)] s
      fun s' => ∃ b' base', post base' ∧ Scratch.Atop b' base' s' ∧ b'.words = [] := by
  have resolved : operandOf image.data (.addr label) = some (.imm datum.address) := by
    rw [operandOf, labelled]
    rfl
  show image.Completes full ([Instr.push (.addr label)] ++ ([Instr.call (target.symbol function)] ++
    [Instr.add (.imm (Int32.ofNat (wordSize * (n + 1)))) (.reg .esp)])) s _
  refine (Scratch.completes_push (room.top Nat.one_pos atop) atop resolved rfl).append
    fun s₁ atop₁ => ?_
  obtain ⟨base', s₂, done, pc, reached, atop₂⟩ := called s₁.next atop₁.next
  refine (completes_call done pc atop₂).append fun s₃ atop₃ => ?_
  exact (completes_release atop₃ (congrArg (· + 1) length)).mono fun s₄ atop₄ =>
    ⟨_, base', reached, atop₄, rfl⟩

theorem completes_printf {target : Target} {label : String} {datum : Datum} {cs text : List Char}
    {values : List Value} {n : Nat} (labelled : image.data.find? (·.label == label) = some datum)
    (string : image.string datum.address = .ok (String.ofList cs))
    (printed : printed? cs values = some text) (depicts : Forall₂ (Depicts image) values b.words)
    (atop : b.Atop base s) (room : b.Room full base 1) (length : b.words.length = n) :
    image.Completes full [.push (.addr label), .call (target.symbol "printf"),
      .add (.imm (Int32.ofNat (wordSize * (n + 1)))) (.reg .esp)] s fun s' =>
        ∃ b', Scratch.Atop b' { base with output := base.output ++ String.ofList text } s' ∧
          b'.words = [] := by
  refine (completes_library labelled atop room length fun s₁ atop₁ =>
    ⟨_, State.setReg { s₁ with output := s₁.output ++ String.ofList text } .eax 0, ?_, rfl, rfl,
      (atop₁.write (String.ofList text)).set rfl⟩).mono ?_
  · obtain ⟨loaded, slots⟩ := slots_tail
      (show SlotsFrom s₁ (s₁.reg .esp) (datum.address :: b.words) from atop₁.slots)
    have called : s₁.printf image = .ok { s₁ with output := s₁.output ++ String.ofList text } := by
      rw [State.printf, loaded]
      simp only [bind, Except.bind, string, String.toList_ofList]
      rw [format_eq printed depicts slots, String.empty_append]
      rfl
    rw [State.call_printf, called]
    rfl
  · rintro s₂ ⟨b', _, rfl, atop₂, none⟩
    exact ⟨b', atop₂, none⟩

end Calls

end LineBasic
