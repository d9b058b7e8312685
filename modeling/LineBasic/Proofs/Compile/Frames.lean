import LineBasic.Proofs.Compile.Image
import LineBasic.Proofs.Lower.Parts

/-!
The frame of an accepted program, where the variables of open scopes lie apart.
-/

namespace LineBasic

open List Lower

/-- The variable takes the byte at this distance from the frame pointer. -/
def Variable.Occupies (v : Variable) (offset : Int) : Prop :=
  ∃ size address, v.size? = some size ∧ v.address = some address ∧
    -(address : Int) ≤ offset ∧ offset < -address + size

/-- One scope of a tree is another one, or stands around it. -/
def Node.Encloses (root : Node) (outer inner : Nat) : Prop :=
  ∃ block ∈ root.blocks, block.id = outer ∧ ∃ other ∈ block.blocks, other.id = inner

/-- An instruction that moves the stack pointer, unless there is nothing to move it by. -/
def stackMove (instr : Operand → Operand → Instr) (amount : Int32) : List Instr :=
  if amount = 0 then [] else [instr (.imm amount) (.reg .esp)]

/-- The numbers that an instruction has for a room, a stride or a place are those of the variables. -/
structure Exact (table : Array Variable) (scopes : List (List Nat)) (instr : Instr) : Prop where
  room : ∀ amount, instr = .sub (.imm amount) (.reg .esp) →
    ∃ vars ∈ scopes, amount.toInt = frameSize table vars
  stride : ∀ factor register, instr = .imul (.imm factor) register →
    ∃ (n : Nat) (v : Variable) (stride : Nat), table[n]? = some v ∧ stride ∈ Shape.strides v.dims ∧ factor.toInt = stride
  displacement : ∀ operand ∈ instr.operands, ∀ disp base,
    (operand = .mem disp base ∨ ∃ index scale, operand = .indexed disp base index scale) →
    base = .ebp ∧ ∃ (n : Nat) (v : Variable) (address : Nat), table[n]? = some v ∧
      v.address = some address ∧ disp.toInt = -(address : Int)

/-- The frame of a program whose variables have the addresses in `table`, and its code. -/
structure FrameLayout (target : Target) (program : Program) (table : Array Variable)
    (code : List Instr) : Prop where
  stored : ∀ (n : Nat) (v : Variable), program.symbols[n]? = some v → ∃ size address,
    table[n]? = some { v with address := some address } ∧ v.size? = some size ∧
      size ≤ address ∧ address ≤ 0x7fffffff ∧ 4 ∣ address ∧ 4 ∣ size
  members : ∀ block ∈ program.root.blocks, block.vars.Pairwise (· < ·) ∧
    ∀ n, n ∈ block.vars ↔ ∃ v, program.symbols[n]? = some v ∧ v.scope = block.id
  apart : ∀ (n m : Nat) (v w : Variable), n ≠ m → table[n]? = some v → table[m]? = some w →
    program.root.Encloses v.scope w.scope ∨ program.root.Encloses w.scope v.scope →
    ∀ offset, ¬ (v.Occupies offset ∧ w.Occupies offset)
  ordered : ∀ (n m : Nat) (v w : Variable), n < m → table[n]? = some v → table[m]? = some w → v.scope = w.scope →
    ∃ address address', v.address = some address ∧ w.address = some address' ∧ address < address'
  outermost : ∃ amount : Int32, amount.toInt = frameSize table program.vars ∧
    [.push (.reg .ebp), .mov (.reg .esp) (.reg .ebp)] ++ stackMove .sub amount ++
      (if target = .mingw then [.call "___main"] else []) ++
      statementsCode target table none program.root.children ++
      [.mov (.imm 0) (.reg .eax), .leave, .ret] <:+: code
  nested : ∀ block ∈ Node.blocksAll program.root.children, ∃ amount : Int32,
    amount.toInt = frameSize table block.vars ∧
    stackMove .sub amount ++ statementsCode target table none block.children ++
      stackMove .add amount <:+: code
  exact : ∀ instr ∈ code, Exact table (program.root.blocks.map Node.vars) instr

namespace Lower

variable {table : Array Variable} {top n m : Nat} {vars : List Nat} {v w : Variable}

theorem Assigned.reach (h : Assigned table top vars) (mem : n ∈ vars) :
    ∃ v size address, table[n]? = some v ∧ v.size? = some size ∧ v.address = some address ∧
      size ≤ address ∧ address ≤ maxFrameSize ∧ (4 ∣ top → 4 ∣ address) := by
  induction vars generalizing top with
  | nil => cases mem
  | cons m vars ih =>
    obtain ⟨⟨v, size, found, hs, address, le⟩, rest⟩ := h
    rcases mem_cons.mp mem with rfl | mem
    · refine ⟨v, size, top + size, found, hs, address, by omega, le, fun dvd => ?_⟩
      exact Nat.dvd_add dvd ⟨_, (Shape.size?_eq_some hs).1⟩
    · obtain ⟨w, size', address', found', hs', eq, le', bound, aligned⟩ := ih rest mem
      refine ⟨w, size', address', found', hs', eq, le', bound, fun dvd => aligned ?_⟩
      exact Nat.dvd_add dvd (four_dvd_bytesOf table m)

theorem Assigned.frameSize_le (h : Assigned table top vars) : frameSize table vars ≤ maxFrameSize := by
  cases vars with
  | nil => exact Nat.zero_le _
  | cons n vars =>
    have bound := h.bound (by
      obtain ⟨⟨_, size, _, _, _, le⟩, _⟩ := h
      omega)
    omega

theorem Assigned.ordered (h : Assigned table top vars) (sorted : vars.Pairwise (· < ·))
    (mem : n ∈ vars) (mem' : m ∈ vars) (lt : n < m) (found : table[n]? = some v)
    (found' : table[m]? = some w) :
    ∃ address address', v.address = some address ∧ w.address = some address' ∧
      address + 4 * Shape.count w.dims ≤ address' := by
  induction vars generalizing top with
  | nil => cases mem
  | cons i vars ih =>
    obtain ⟨⟨u, size, foundHead, hs, addressHead, _⟩, rest⟩ := h
    have bytes := bytesOf_eq foundHead hs
    obtain ⟨first, sorted⟩ := pairwise_cons.mp sorted
    rcases mem_cons.mp mem with rfl | later
    · cases found.symm.trans foundHead
      rcases mem_cons.mp mem' with rfl | later'
      · omega
      · obtain ⟨w', address', found'', eq'', below, _⟩ := rest.inside later'
        cases found'.symm.trans found''
        exact ⟨_, _, addressHead, eq'', by omega⟩
    · rcases mem_cons.mp mem' with rfl | later'
      · have := first n later
        omega
      · exact ih rest sorted later later'

theorem ofNat_eq_zero_iff {size : Nat} (h : size ≤ maxFrameSize) :
    Int32.ofNat size = 0 ↔ size = 0 := by
  have small : size < 0x80000000 := by
    unfold maxFrameSize at h
    omega
  constructor
  · intro eq
    have value := Machine.toInt_ofNat_of_lt small
    have zero : (0 : Int32).toInt = 0 := rfl
    rw [eq, zero] at value
    omega
  · rintro rfl
    rfl

theorem grow_eq_stackMove {size : Nat} (h : size ≤ maxFrameSize) :
    grow size = stackMove .sub (Int32.ofNat size) := by
  simp only [grow, stackMove, ofNat_eq_zero_iff h]

theorem shrink_eq_stackMove {size : Nat} (h : size ≤ maxFrameSize) :
    shrink size = stackMove .add (Int32.ofNat size) := by
  simp only [shrink, stackMove, ofNat_eq_zero_iff h]

theorem le_count_of_mem_strides {dims : List Nat} {stride : Nat} (positive : 0 < Shape.count dims)
    (mem : stride ∈ Shape.strides dims) : stride ≤ Shape.count dims := by
  induction dims with
  | nil => cases mem
  | cons dim dims ih =>
    rw [Shape.count_cons] at positive ⊢
    have first : 0 < dim := Nat.pos_of_mul_pos_right positive
    have rest : 0 < Shape.count dims := Nat.pos_of_mul_pos_left positive
    have below : Shape.count dims ≤ dim * Shape.count dims := Nat.le_mul_of_pos_left _ first
    rcases mem_cons.mp mem with rfl | mem
    · exact below
    · exact Nat.le_trans (ih rest mem) below

def isFixed : Operand → Bool
  | .imm _ | .addr _ | .reg _ => true
  | .mem .. | .indexed .. => false

theorem displacement_of_fixed {operands : List Operand} (h : operands.all isFixed = true)
    {operand : Operand} (mem : operand ∈ operands) {disp : Int32} {base : Register}
    (eq : operand = .mem disp base ∨ ∃ index scale, operand = .indexed disp base index scale) :
    False := by
  have fixed := all_eq_true.mp h operand mem
  rcases eq with rfl | ⟨_, _, rfl⟩ <;> cases fixed

variable {strings : Array Literal} {scopes : List (List Nat)} {instr : Instr}

theorem exact_of_fixed (fixed : instr.operands.all isFixed = true)
    (room : ∀ amount, instr ≠ .sub (.imm amount) (.reg .esp))
    (stride : ∀ factor register, instr ≠ .imul (.imm factor) register) :
    Exact table scopes instr :=
  ⟨fun amount eq => absurd eq (room amount), fun factor register eq => absurd eq (stride factor register),
    fun _ mem _ _ eq => (displacement_of_fixed fixed mem eq).elim⟩

/-- Variables of the table lie within the reach of a displacement, elements included. -/
structure InReach (table : Array Variable) : Prop where
  address : ∀ (n : Nat) (v : Variable) (address : Nat), table[n]? = some v →
    v.address = some address → address ≤ maxFrameSize
  stride : ∀ (n : Nat) (v : Variable) (stride : Nat), table[n]? = some v →
    stride ∈ Shape.strides v.dims → stride ≤ maxFrameSize

theorem toInt_of_le {size : Nat} (h : size ≤ maxFrameSize) : (Int32.ofNat size).toInt = size := by
  unfold maxFrameSize at h
  exact Machine.toInt_ofNat_of_lt (by omega)

theorem toInt_neg_of_le {size : Nat} (h : size ≤ maxFrameSize) :
    (-Int32.ofNat size).toInt = -(size : Int) := by
  have zero : (0 : Int32).toInt = 0 := rfl
  unfold maxFrameSize at h
  rw [← Int32.zero_sub, Machine.toInt_sub_ofNat (by omega) (by omega), zero]
  omega

theorem IsPlace.displacement {place : Operand} (h : IsPlace table place) (reach : InReach table)
    {disp : Int32} {base : Register}
    (eq : place = .mem disp base ∨ ∃ index scale, place = .indexed disp base index scale) :
    base = .ebp ∧ ∃ (n : Nat) (v : Variable) (address : Nat), table[n]? = some v ∧
      v.address = some address ∧ disp.toInt = -(address : Int) := by
  cases h with
  | scalar found address =>
    rcases eq with eq | ⟨_, _, eq⟩ <;> cases eq
    exact ⟨rfl, _, _, _, found, address, toInt_neg_of_le (reach.address _ _ _ found address)⟩
  | element found address =>
    rcases eq with eq | ⟨_, _, eq⟩ <;> cases eq
    exact ⟨rfl, _, _, _, found, address, toInt_neg_of_le (reach.address _ _ _ found address)⟩

theorem exact_of_place {place : Operand} (h : IsPlace table place) (reach : InReach table)
    (others : List Operand) (operands : ∀ operand ∈ instr.operands, operand = place ∨ operand ∈ others)
    (fixed : others.all isFixed = true) (room : ∀ amount, instr ≠ .sub (.imm amount) (.reg .esp))
    (stride : ∀ factor register, instr ≠ .imul (.imm factor) register) :
    Exact table scopes instr where
  room amount eq := absurd eq (room amount)
  stride factor register eq := absurd eq (stride factor register)
  displacement operand mem disp base eq := by
    rcases operands operand mem with rfl | other
    · exact h.displacement reach eq
    · exact (displacement_of_fixed fixed other eq).elim

theorem exact_of_word (h : isWord instr = true) : Exact table scopes instr := by
  simp only [isWord, Bool.and_eq_true, all_eq_true] at h
  obtain ⟨⟨_, operands⟩, other⟩ := h
  refine exact_of_fixed (all_eq_true.mpr fun operand mem => ?_) ?_ ?_
  · have simple := operands operand mem
    cases operand with
    | imm | reg => rfl
    | _ => cases simple
  · rintro amount rfl
    cases other
  · rintro factor register rfl
    cases other

theorem exact_of_no_command (h : instr.isCommand = false) : Exact table scopes instr := by
  cases instr with
  | file | «section» | text | globl | ascii | label => exact exact_of_fixed rfl (by simp) (by simp)
  | _ => cases h

theorem Piece.exact (h : Piece table strings scopes instr) (reach : InReach table)
    (rooms : ∀ vars ∈ scopes, frameSize table vars ≤ maxFrameSize) : Exact table scopes instr := by
  cases h with
  | word isWord => exact exact_of_word isWord
  | text => exact exact_of_fixed rfl (by simp) (by simp)
  | @stride n stride v found stored mem =>
    refine ⟨by simp, ?_, fun _ mem _ _ eq => (displacement_of_fixed rfl mem eq).elim⟩
    rintro factor register eq
    cases eq
    exact ⟨n, v, stride, found, mem, toInt_of_le (reach.stride n v stride found mem)⟩
  | @grow vars mem =>
    refine ⟨?_, by simp, fun _ mem _ _ eq => (displacement_of_fixed rfl mem eq).elim⟩
    rintro amount eq
    cases eq
    exact ⟨vars, mem, toInt_of_le (rooms vars mem)⟩
  | push isPlace =>
    exact exact_of_place isPlace reach [] (by simp [Instr.operands]) rfl (by simp) (by simp)
  | @set value place isPlace =>
    exact exact_of_place isPlace reach [.imm value] (by simp [Instr.operands]) rfl (by simp)
      (by simp)
  | store isPlace =>
    exact exact_of_place isPlace reach [.reg .eax] (by simp [Instr.operands]) rfl (by simp)
      (by simp)
  | lea isPlace =>
    exact exact_of_place isPlace reach [.reg .eax] (by simp [Instr.operands]) rfl (by simp)
      (by simp)
  | add isPlace =>
    exact exact_of_place isPlace reach [.reg .eax] (by simp [Instr.operands]) rfl (by simp)
      (by simp)
  | cmp isPlace =>
    exact exact_of_place isPlace reach [.reg .eax] (by simp [Instr.operands]) rfl (by simp)
      (by simp)
  | label => exact exact_of_fixed rfl (by simp) (by simp)
  | transfer isTransfer =>
    cases instr with
    | jmp | jcc | call => exact exact_of_fixed rfl (by simp) (by simp)
    | _ => cases isTransfer

end Lower

theorem not_occupies_of_apart {v w : Variable} {address address' : Nat}
    (eq : v.address = some address) (eq' : w.address = some address')
    (apart : address + 4 * Shape.count w.dims ≤ address' ∨
      address' + 4 * Shape.count v.dims ≤ address) (offset : Int) :
    ¬ (v.Occupies offset ∧ w.Occupies offset) := by
  rintro ⟨⟨size, a, hs, ha, low, high⟩, ⟨size', a', hs', ha', low', high'⟩⟩
  cases eq.symm.trans ha
  cases eq'.symm.trans ha'
  have count : size = 4 * Shape.count v.dims := (Shape.size?_eq_some hs).1
  have count' : size' = 4 * Shape.count w.dims := (Shape.size?_eq_some hs').1
  omega

section Layout

variable {target : Target} {sourceName : Option String} {program : Program}
  {table : Array Variable} {code : List Instr} {block other : Node}

theorem laid_of_generated (h : program.WellFormed)
    (generated : Generated target sourceName program table code)
    (mem : block ∈ program.root.blocks) :
    ∃ reserved visible, 4 ∣ reserved ∧ BlockLaid target table reserved block.vars block.children ∧
      ∀ inner ∈ block.children, inner.IsStatement program.symbols program.strings visible := by
  rcases Node.mem_blocks mem with rfl | ⟨node, inside, below⟩
  · exact ⟨0, program.vars, Nat.dvd_zero 4, generated.laid, h.statements⟩
  · have laid := generated.laid.2 node inside
    have nested := nested_of_laid laid (h.statements node inside) below none
    obtain ⟨reserved, _, aligned, laid⟩ := nested.laid
    obtain ⟨visible, statements⟩ := nested.statements
    refine ⟨reserved, visible, aligned ?_, laid, statements⟩
    rw [Nat.zero_add]
    exact four_dvd_frameSize table program.vars

theorem mem_vars_iff (h : program.WellFormed) (mem : block ∈ program.root.blocks) (n : Nat) :
    n ∈ block.vars ↔ ∃ v, program.symbols[n]? = some v ∧ v.scope = block.id := by
  constructor
  · exact (h.tables block mem).owner n
  · rintro ⟨v, found, scope⟩
    obtain ⟨owner, inside, own⟩ := Node.exists_block_of_owned _ (mem_owned h found)
    obtain ⟨v', found', scope'⟩ := (h.tables owner inside).owner n own
    cases found.symm.trans found'
    have same : owner.id = block.id := scope'.symm.trans scope
    rw [← Node.eq_of_id_eq h.ids inside mem same]
    exact own

section

variable (h : program.WellFormed) (generated : Generated target sourceName program table code)

include h generated

theorem found_of_generated {n : Nat} {v : Variable} (found : table[n]? = some v) :
    ∃ v' address, program.symbols[n]? = some v' ∧ v = { v' with address := some address } := by
  by_cases mem : n ∈ program.root.owned
  · obtain ⟨v', address, found', _, placed⟩ := generated.placed.placed n mem
    exact ⟨v', address, found', Option.some.inj (found.symm.trans placed)⟩
  · rw [generated.placed.kept n mem] at found
    exact absurd (mem_owned h found) mem

theorem stored_of_generated {n : Nat} {v : Variable}
    (found : program.symbols[n]? = some v) : ∃ size address,
      table[n]? = some { v with address := some address } ∧ v.size? = some size ∧
      size ≤ address ∧ address ≤ maxFrameSize ∧ 4 ∣ address ∧ 4 ∣ size := by
  obtain ⟨block, inside, own⟩ := Node.exists_block_of_owned _ (mem_owned h found)
  obtain ⟨reserved, _, aligned, laid, _⟩ := laid_of_generated h generated inside
  obtain ⟨w, size, address, found', hs, eq, le, bound, dvd⟩ := laid.1.reach own
  obtain ⟨v', address', found'', rfl⟩ := found_of_generated h generated found'
  cases found.symm.trans found''
  cases eq
  exact ⟨size, address, found', hs, le, bound, dvd aligned, ⟨_, (Shape.size?_eq_some hs).1⟩⟩

theorem apart_of_encloses {n m : Nat} {v w : Variable}
    (ne : n ≠ m) (found : table[n]? = some v) (found' : table[m]? = some w)
    (encloses : program.root.Encloses v.scope w.scope) (offset : Int) :
    ¬ (v.Occupies offset ∧ w.Occupies offset) := by
  obtain ⟨v₀, address, foundV, rfl⟩ := found_of_generated h generated found
  obtain ⟨w₀, address', foundW, rfl⟩ := found_of_generated h generated found'
  obtain ⟨outer, mem, outerId, inner, below, innerId⟩ := encloses
  have own : n ∈ outer.vars := (mem_vars_iff h mem n).mpr ⟨v₀, foundV, outerId.symm⟩
  have own' : m ∈ inner.vars :=
    (mem_vars_iff h (Node.blocks_trans _ mem below) m).mpr ⟨w₀, foundW, innerId.symm⟩
  obtain ⟨reserved, visible, _, laid, statements⟩ := laid_of_generated h generated mem
  refine not_occupies_of_apart rfl rfl ?_ offset
  rcases Node.mem_blocks below with rfl | ⟨node, inside, deeper⟩
  · exact laid.1.apart own own' ne found rfl found' rfl
  · have nested := nested_of_laid (laid.2 node inside) (statements node inside) deeper none
    obtain ⟨reserved', le, _, laid'⟩ := nested.laid
    obtain ⟨_, _, foundAgain, eq, _, above⟩ := laid.1.inside own
    obtain ⟨_, _, foundAgain', eq', below', _⟩ := laid'.1.inside own'
    cases found.symm.trans foundAgain
    cases found'.symm.trans foundAgain'
    cases eq
    cases eq'
    exact .inl (by omega)

theorem ordered_of_generated {n m : Nat} {v w : Variable}
    (lt : n < m) (found : table[n]? = some v) (found' : table[m]? = some w)
    (scope : v.scope = w.scope) :
    ∃ address address', v.address = some address ∧ w.address = some address' ∧
      address < address' := by
  have positive := count_pos_of_generated h generated m w found'
  obtain ⟨v₀, _, foundV, rfl⟩ := found_of_generated h generated found
  obtain ⟨w₀, _, foundW, rfl⟩ := found_of_generated h generated found'
  obtain ⟨block, inside, own⟩ := Node.exists_block_of_owned _ (mem_owned h foundV)
  obtain ⟨v₁, foundV', owner⟩ := (mem_vars_iff h inside n).mp own
  cases foundV.symm.trans foundV'
  have own' : m ∈ block.vars := (mem_vars_iff h inside m).mpr ⟨w₀, foundW, scope.symm.trans owner⟩
  obtain ⟨_, _, _, laid, _⟩ := laid_of_generated h generated inside
  obtain ⟨address, address', eq, eq', le⟩ :=
    laid.1.ordered (h.tables block inside).sorted own own' lt found found'
  exact ⟨address, address', eq, eq', by omega⟩

theorem inReach_of_generated : InReach table where
  address n v address found eq := by
    obtain ⟨v', address', found', rfl⟩ := found_of_generated h generated found
    obtain ⟨_, bound, placed, _, _, le, _⟩ := stored_of_generated h generated found'
    cases found.symm.trans placed
    cases eq
    exact le
  stride n v stride found mem := by
    obtain ⟨v', address', found', rfl⟩ := found_of_generated h generated found
    obtain ⟨size, _, _, hs, le, bound, _⟩ := stored_of_generated h generated found'
    have positive := count_pos_of_generated h generated n _ found
    have count : size = 4 * Shape.count v'.dims := (Shape.size?_eq_some hs).1
    have := le_count_of_mem_strides positive mem
    simp only at this
    omega

theorem frameSize_le_of_generated
    (mem : block ∈ program.root.blocks) : frameSize table block.vars ≤ maxFrameSize := by
  obtain ⟨_, _, _, laid, _⟩ := laid_of_generated h generated mem
  exact laid.1.frameSize_le

end

theorem root_mem_blocks (h : program.WellFormed) : program.root ∈ program.root.blocks := by
  obtain ⟨vars, kind⟩ := h.isProgram
  exact Node.self_mem_blocks (by rw [kind]; rfl)

theorem blocksAll_subset (program : Program) :
    ∀ block ∈ Node.blocksAll program.root.children, block ∈ program.root.blocks := by
  intro block mem
  cases root : program.root with
  | mk id line kind children =>
    rw [root] at mem
    rw [Node.blocks_mk]
    exact mem_append_right _ mem

section

variable (h : program.WellFormed) (generated : Generated target sourceName program table code)

include h generated

theorem exact_of_generated :
    ∀ instr ∈ programCode target sourceName table program,
      Exact table (program.root.blocks.map Node.vars) instr := by
  have own : program.vars ∈ program.root.blocks.map Node.vars :=
    mem_map_of_mem (root_mem_blocks h)
  have rooms : ∀ vars ∈ program.root.blocks.map Node.vars, frameSize table vars ≤ maxFrameSize := by
    intro vars mem
    obtain ⟨block, inside, rfl⟩ := mem_map.mp mem
    exact frameSize_le_of_generated h generated inside
  have pieces := (@composed_body _ table _ (program.root.blocks.map Node.vars) _ _ target none h.statements
    (fun block below => mem_map_of_mem (blocksAll_subset program block below)) []).pieces
  have room := (@composed_grow table program.strings _ program.vars own).pieces
  have reach := inReach_of_generated h generated
  have words {code : List Instr} (h : code.all isWord = true) : ∀ instr ∈ code,
      Exact table (program.root.blocks.map Node.vars) instr :=
    fun instr mem => exact_of_word (all_eq_true.mp h instr mem)
  intro instr mem
  simp only [programCode_eq, mainCode, prologue, mem_append] at mem
  rcases mem with mem | ((mem | (mem | mem) | mem) | mem) | mem
  · exact exact_of_no_command (not_command_of_header mem)
  · simp only [mem_cons, not_mem_nil, or_false] at mem
    rcases mem with rfl | rfl | rfl <;> exact exact_of_no_command rfl
  · exact words rfl instr mem
  · exact (room instr mem).exact reach rooms
  · split at mem
    · rw [mem_singleton.mp mem]
      exact exact_of_fixed rfl (by simp) (by simp)
    · cases mem
  · exact (pieces instr mem).exact reach rooms
  · exact words rfl instr mem

theorem outermost_of_generated :
    ∃ amount : Int32, amount.toInt = frameSize table program.vars ∧
    [.push (.reg .ebp), .mov (.reg .esp) (.reg .ebp)] ++ stackMove .sub amount ++
      (if target = .mingw then [.call "___main"] else []) ++
      statementsCode target table none program.root.children ++
      [.mov (.imm 0) (.reg .eax), .leave, .ret] <:+: programCode target sourceName table program := by
  have le : frameSize table program.vars ≤ maxFrameSize :=
    frameSize_le_of_generated h generated (root_mem_blocks h)
  refine ⟨Int32.ofNat (frameSize table program.vars), toInt_of_le le, ?_⟩
  rw [← grow_eq_stackMove le, programCode_eq, mainCode, prologue]
  refine IsInfix.trans ?_ (suffix_append _ _).isInfix
  simp only [append_assoc]
  exact (suffix_append _ _).isInfix

theorem nested_of_generated (mem : block ∈ Node.blocksAll program.root.children) :
    ∃ amount : Int32, amount.toInt = frameSize table block.vars ∧
    stackMove .sub amount ++ statementsCode target table none block.children ++
      stackMove .add amount <:+: programCode target sourceName table program := by
  have le := frameSize_le_of_generated h generated (blocksAll_subset program block mem)
  refine ⟨Int32.ofNat (frameSize table block.vars), toInt_of_le le, ?_⟩
  rw [← grow_eq_stackMove le, ← shrink_eq_stackMove le]
  obtain ⟨node, inside, below⟩ := Node.mem_blocksAll.mp mem
  obtain ⟨before, part⟩ := @statementCode_part target table node program.root.children inside none
  have nested := nested_of_laid (generated.laid.2 node inside) (h.statements node inside) below before
  have whole : statementsCode target table none program.root.children <:+:
      programCode target sourceName table program := by
    rw [programCode]
    exact infix_append _ _ _
  have placed := (nested.part.trans part).trans whole
  obtain ⟨vars, kind⟩ := nested.isBlock
  obtain ⟨id, line, _, children⟩ := block
  cases kind
  rw [blockCode_block] at placed
  exact placed

end

end Layout

/-- The frame of every source that is accepted. -/
theorem frame_layout {source assembly : String} {config : Config}
    (compiled : (compile source config).result = .ok assembly) :
    ∃ program, (parseSource source config.collect).result = .ok program ∧
      assembly = assemble
        (programCode config.target config.sourceName (config.layout program) program) ∧
      FrameLayout config.target program (config.layout program)
        (programCode config.target config.sourceName (config.layout program) program) := by
  obtain ⟨program, parsed⟩ := parsed_of_compile compiled
  obtain ⟨generated, assembled⟩ := generated_of_compile parsed compiled
  have h := wellFormed_of_parseSource parsed
  refine ⟨program, parsed, assembled, ?_⟩
  exact {
    stored := fun n v found => stored_of_generated h generated found
    members := fun block mem => ⟨(h.tables block mem).sorted, mem_vars_iff h mem⟩
    apart := fun n m v w ne found found' encloses offset => by
      rcases encloses with outer | inner
      · exact apart_of_encloses h generated ne found found' outer offset
      · rintro ⟨first, second⟩
        exact apart_of_encloses h generated ne.symm found' found inner offset ⟨second, first⟩
    ordered := fun n m v w lt found found' scope => ordered_of_generated h generated lt found found' scope
    outermost := outermost_of_generated h generated
    nested := fun block mem => nested_of_generated h generated mem
    exact := exact_of_generated h generated }

/-- An array of two dimensions, the counter of a loop, and an array in its body, which lies below
both. -/
theorem frame_layout_in_loop :
    ∃ program, (parseSource ("10 DIM M[2][3]\n20 FOR I = 0 TO 1\n30 DIM V[4]\n" ++
        "40 LET M[I][2] = V[I + 1]\n50 END") false).result = .ok program ∧
      (Config.layout {} program).toList.map (fun v => (v.name, v.address)) =
        [("M", some 24), ("I", some 28), ("V", some 44)] ∧
      FrameLayout .mingw program (Config.layout {} program)
        (programCode .mingw none (Config.layout {} program) program) := by
  generalize hs : ("10 DIM M[2][3]\n20 FOR I = 0 TO 1\n30 DIM V[4]\n" ++
    "40 LET M[I][2] = V[I + 1]\n50 END") = source
  have evaluated : ((compile source {}).result.toOption.bind fun _ =>
      (parseSource source false).result.toOption.map fun program =>
        (Config.layout {} program).toList.map fun v => (v.name, v.address)) =
      some [("M", some 24), ("I", some 28), ("V", some 44)] := by
    subst hs
    decide +kernel
  obtain ⟨assembly, compiled, evaluated⟩ := exists_ok_of_bind evaluated
  obtain ⟨program, parsed, addresses⟩ := exists_ok_of_map evaluated
  obtain ⟨program', parsed', _, layout⟩ := frame_layout compiled
  cases parsed.symm.trans parsed'
  exact ⟨program, parsed, addresses, layout⟩

end LineBasic
