import LineBasic.Proofs.Lower.Labels

/-!
The code of a well-formed program can be read back.
-/

namespace LineBasic

open List

open Machine (Datum operandOf actionOf)

/-- An operand that can be read back and stands for something. -/
structure Operand.IsGood (data : List Datum) (operand : Operand) : Prop where
  legible : operand.Legible
  resolved : (operandOf data operand).isSome

/-- An instruction that can be read back, with operands that stand for something. -/
structure Instr.IsGood (data : List Datum) (instr : Instr) : Prop where
  legible : instr.Legible
  resolved : ∀ operand ∈ instr.operands, (operandOf data operand).isSome
  notText : ∀ content, instr ≠ .ascii content

namespace Machine

theorem mapM_isSome {data : List Datum} {operands : List LineBasic.Operand}
    (h : ∀ operand ∈ operands, (operandOf data operand).isSome) :
    ∃ targets, operands.mapM (operandOf data) = some targets := by
  induction operands with
  | nil => exact ⟨[], rfl⟩
  | cons source operands ih =>
    obtain ⟨target, first⟩ := Option.isSome_iff_exists.mp (h source (mem_cons_self ..))
    obtain ⟨targets, rest⟩ := ih fun operand mem => h operand (mem_cons_of_mem _ mem)
    exact ⟨target :: targets, by simp [first, rest]⟩

theorem actionOf_isSome {data : List Datum} {instr : Instr} (h : instr.IsGood data)
    (isCommand : instr.isCommand) : (actionOf data instr).isSome := by
  unfold actionOf
  split
  next =>
    obtain ⟨targets, found⟩ := mapM_isSome h.resolved
    simp [found]
  next mnemonic goal _ isTransfer =>
    cases instr with
    | jmp | call =>
      cases isTransfer
      rfl
    | jcc condition =>
      cases isTransfer
      cases condition <;> rfl
    | _ => cases isTransfer
  next noOperation noTransfer => simp [Instr.isCommand, noOperation, noTransfer] at isCommand

end Machine

namespace Lower

open Node (IsStatement)

variable {data : List Datum} {symbols table : Array Variable} {strings : Array Literal}
  {scopes : List (List Nat)} {visible : List Nat} {nodes : List Node}

theorem isGood_operation {instr : Instr} (isOperation : instr.mnemonic?.isSome)
    (h : ∀ operand ∈ instr.operands, operand.IsGood data) : instr.IsGood data where
  legible := by
    cases instr with
    | file | «section» | text | globl | ascii | label | jmp | jcc | call => cases isOperation
    | _ => exact fun operand mem => (h operand mem).legible
  resolved _ mem := (h _ mem).resolved
  notText := by
    rintro content rfl
    cases isOperation

theorem isGood_transfer {instr : Instr} {mnemonic goal : String}
    (isTransfer : instr.transfer? = some (mnemonic, goal)) (h : IsName goal) :
    instr.IsGood data := by
  cases instr with
  | jmp | jcc | call =>
    cases isTransfer
    exact ⟨h, fun _ mem => (not_mem_nil mem).elim, by simp⟩
  | _ => cases isTransfer

theorem isGood_label {name : String} (h : IsName name) : (Instr.label name).IsGood data :=
  ⟨h, fun _ mem => (not_mem_nil mem).elim, by simp⟩

theorem good_append {code rest : List Instr} (h : ∀ instr ∈ code, instr.IsGood data)
    (h' : ∀ instr ∈ rest, instr.IsGood data) : ∀ instr ∈ code ++ rest, instr.IsGood data :=
  fun instr mem => (mem_append.mp mem).elim (h instr) (h' instr)

theorem good_cons {instr : Instr} {rest : List Instr} (h : instr.IsGood data)
    (h' : ∀ instr ∈ rest, instr.IsGood data) : ∀ other ∈ instr :: rest, other.IsGood data :=
  forall_mem_cons.mpr ⟨h, h'⟩

theorem isGood_imm (value : Int32) : (Operand.imm value).IsGood data := ⟨trivial, rfl⟩

theorem isGood_reg (register : Register) : (Operand.reg register).IsGood data := ⟨trivial, rfl⟩

/-- The strings of a program have their labels in the data. -/
def Labelled (data : List Datum) (strings : Array Literal) : Prop :=
  ∀ i literal, strings[i]? = some literal → (data.find? (·.label == textLabel i)).isSome

theorem isGood_addr (labelled : Labelled data strings) {i : Nat} {literal : Literal}
    (found : strings[i]? = some literal) : (Operand.addr (textLabel i)).IsGood data :=
  ⟨isName_textLabel i, by simpa [operandOf] using labelled i literal found⟩

def isPlain (instr : Instr) : Bool :=
  instr.mnemonic?.isSome && instr.operands.all fun
    | .addr _ => false
    | .indexed _ _ _ scale => scale == wordSize
    | _ => true

theorem good_of_plain {code : List Instr} (h : code.all isPlain = true) :
    ∀ instr ∈ code, instr.IsGood data := by
  intro instr mem
  have plain := all_eq_true.mp h instr mem
  simp only [isPlain, Bool.and_eq_true, all_eq_true] at plain
  refine isGood_operation plain.1 fun operand inside => ?_
  have simple := plain.2 operand inside
  cases operand with
  | imm => exact isGood_imm _
  | addr => cases simple
  | reg => exact isGood_reg _
  | mem => exact ⟨trivial, rfl⟩
  | indexed => exact ⟨beq_iff_eq.mp simple, rfl⟩

theorem IsPlace.isGood {operand : Operand} (h : IsPlace table operand) : operand.IsGood data := by
  cases h with
  | scalar => exact ⟨trivial, rfl⟩
  | element => exact ⟨rfl, rfl⟩

theorem isGood_of_place {first second : Operand} {instr : Instr}
    (isOperation : instr.mnemonic?.isSome) (operands : instr.operands = [first, second])
    (h : first.IsGood data) (h' : second.IsGood data) : instr.IsGood data := by
  refine isGood_operation isOperation ?_
  rw [operands]
  exact forall_mem_cons.mpr ⟨h, forall_mem_singleton.mpr h'⟩

theorem Piece.isGood {instr : Instr} (h : Piece table strings scopes instr)
    (labelled : Labelled data strings) : instr.IsGood data := by
  cases h with
  | word isWord =>
    simp only [Lower.isWord, Bool.and_eq_true, all_eq_true] at isWord
    refine isGood_operation isWord.1.1 fun operand inside => ?_
    have simple := isWord.1.2 operand inside
    cases operand with
    | imm => exact isGood_imm _
    | reg => exact isGood_reg _
    | _ => cases simple
  | text found =>
    exact isGood_operation rfl (forall_mem_singleton.mpr (isGood_addr labelled found))
  | stride => exact isGood_of_place rfl rfl (isGood_imm _) (isGood_reg _)
  | grow => exact isGood_of_place rfl rfl (isGood_imm _) (isGood_reg _)
  | push isPlace => exact isGood_operation rfl (forall_mem_singleton.mpr isPlace.isGood)
  | set isPlace => exact isGood_of_place rfl rfl (isGood_imm _) isPlace.isGood
  | store isPlace => exact isGood_of_place rfl rfl (isGood_reg _) isPlace.isGood
  | lea isPlace => exact isGood_of_place rfl rfl isPlace.isGood (isGood_reg _)
  | add isPlace => exact isGood_of_place rfl rfl (isGood_reg _) isPlace.isGood
  | cmp isPlace => exact isGood_of_place rfl rfl (isGood_reg _) isPlace.isGood
  | label isName => exact isGood_label isName
  | transfer isTransfer isName => exact isGood_transfer isTransfer isName

theorem good_grow (size : Nat) : ∀ instr ∈ grow size, instr.IsGood data := by
  unfold grow
  split
  next => exact fun _ mem => (not_mem_nil mem).elim
  next => exact good_of_plain rfl

theorem good_statements {target : Target} {last : Option Nat}
    (h : ∀ node ∈ nodes, IsStatement symbols strings visible node)
    (labelled : Labelled data strings) :
    ∀ instr ∈ statementsCode target table last nodes, instr.IsGood data := by
  intro instr mem
  exact ((composed_body h (fun _ inside => mem_map_of_mem inside) []).pieces instr mem).isGood labelled

end Lower

end LineBasic
