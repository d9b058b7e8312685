import LineBasic.Machine.Run

/-!
Words as integers, and what the operations on a state leave as it was.
-/

namespace LineBasic.Machine

section Words

variable {a b : Int32} {n : Nat}

theorem toInt_of_range {i : Int} (low : -0x80000000 ≤ i) (high : i < 0x80000000) : i.bmod 0x100000000 = i :=
  Int.bmod_eq_of_le low high

theorem toInt_ofNat_of_lt (h : n < 0x80000000) : (Int32.ofNat n).toInt = n := by
  rw [Int32.toInt_ofNat']
  exact toInt_of_range (by omega) (by omega)

theorem toInt_add_ofNat (low : -0x80000000 ≤ a.toInt + n) (high : a.toInt + n < 0x80000000) :
    (a + Int32.ofNat n).toInt = a.toInt + n := by
  rw [Int32.toInt_add, Int32.toInt_ofNat', Int.add_bmod_bmod]
  exact toInt_of_range low high

theorem toInt_sub_ofNat (low : -0x80000000 ≤ a.toInt - n) (high : a.toInt - n < 0x80000000) :
    (a - Int32.ofNat n).toInt = a.toInt - n := by
  rw [Int32.toInt_sub, Int32.toInt_ofNat', Int.sub_bmod_bmod]
  exact toInt_of_range low high

theorem slot_succ (i : Nat) : a + 4 + Int32.ofNat (4 * i) = a + Int32.ofNat (4 * (i + 1)) := by
  rw [Nat.mul_add, Int32.ofNat_add, show Int32.ofNat (4 * 1) = 4 from rfl]
  grind

theorem ne_of_toInt (h : a.toInt ≠ b.toInt) : a ≠ b :=
  fun eq => h (eq ▸ rfl)

end Words

theorem Image.string_congr {image image' : Image} (data : image.data = image'.data) (address : Int32) :
    image.string address = image'.string address := by
  rw [Image.string, Image.string, data]

namespace State

variable {s : State} {register : Register} {value address : Int32}

@[simp] theorem reg_setReg (other : Register) :
    (s.setReg register value).reg other = if other = register then value else s.reg other :=
  Registers.get_set ..

@[simp] theorem memory_setReg : (s.setReg register value).memory = s.memory := rfl

@[simp] theorem reg_store (other : Register) : (s.store address value).reg other = s.reg other := rfl

@[simp] theorem memory_store (other : Int32) :
    (s.store address value).memory[other]? =
      if address = other then some value else s.memory[other]? := by
  show (s.memory.insert address value)[other]? = _
  rw [Std.TreeMap.getElem?_insert]
  simp

@[simp] theorem reg_push (other : Register) :
    (s.push value).reg other = if other = .esp then s.reg .esp - 4 else s.reg other := by
  rw [push, reg_store, reg_setReg]

@[simp] theorem memory_push (other : Int32) :
    (s.push value).memory[other]? =
      if s.reg .esp - 4 = other then some value else s.memory[other]? := by
  rw [push, memory_store, memory_setReg]

theorem load_eq (found : s.memory[address]? = some value) : s.load address = .ok value := by
  rw [load, found]

theorem pop_eq (inside : ¬ stackTop ≤ s.reg .esp) (found : s.memory[s.reg .esp]? = some value) :
    s.pop = .ok (value, s.setReg .esp (s.reg .esp + 4)) := by
  unfold pop
  simp only [inside, if_false, load_eq found]
  rfl

theorem format_congr {image image' : Image} {s s' : State} (data : image.data = image'.data)
    (memory : s'.memory = s.memory) (written : String) (address : Int32) (text : List Char) :
    s'.format image written address text = s.format image' written address text := by
  have load (address : Int32) : s'.load address = s.load address := by
    rw [State.load, State.load, memory]
  fun_induction format image' s written address text with
  | case1 => rfl
  | case2 written address rest ih =>
    rw [format, load]
    cases s.load address with
    | error => rfl
    | ok value => exact ih value
  | case3 written address rest ih =>
    rw [format, load]
    cases s.load address with
    | error => rfl
    | ok value =>
      simp only [bind, Except.bind, Image.string_congr data]
      cases image'.string value with
      | error => rfl
      | ok text => exact ih text
  | case4 written address rest ih =>
    rw [format]
    exact ih
  | case5 => rw [format] <;> assumption
  | case6 => rw [format] <;> assumption

theorem dropWhile_symbol (target : Target) {function : String}
    (h : function = "printf" ∨ function = "scanf") :
    String.ofList ((target.symbol function).toList.dropWhile (· == '_')) = function := by
  rcases h with rfl | rfl <;> cases target <;> decide

theorem call_printf (image : Image) (s : State) (target : Target) :
    s.call image (target.symbol "printf") = (do
      let s' ← s.printf image
      return s'.setReg .eax 0) := by
  rw [call, dropWhile_symbol target (.inl rfl)]
  rfl

theorem call_scanf (image : Image) (s : State) (target : Target) :
    s.call image (target.symbol "scanf") = (do
      let s' ← s.scanf image
      return s'.setReg .eax 0) := by
  rw [call, dropWhile_symbol target (.inr rfl)]
  rfl

end State

end LineBasic.Machine
