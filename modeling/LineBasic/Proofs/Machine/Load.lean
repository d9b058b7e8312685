import LineBasic.Machine.Image
import LineBasic.Proofs.Text.Lines
import LineBasic.Proofs.Text.Numeral
import LineBasic.Tree.Variable
import Mathlib.Data.List.Basic

/-!
Loading code that was written as text.
-/

namespace LineBasic

open List

open Text (IsLine isBlank)

def isNameChar (c : Char) : Bool :=
  c.isAlphanum || c == '_'

/-- A name that can be told from a number. -/
structure IsName (name : String) : Prop where
  chars : ∀ c ∈ name.toList, isNameChar c
  first : ∃ c cs, name.toList = c :: cs ∧ c.isDigit = false

theorem isNameChar_ne {c d : Char} (h : isNameChar c) (hd : isNameChar d = false) : c ≠ d := by
  rintro rfl
  rw [h] at hd
  cases hd

theorem toNat_of_isNameChar {c : Char} (h : isNameChar c) : 48 ≤ c.toNat ∧ c.toNat ≤ 122 := by
  unfold isNameChar Char.isAlphanum Char.isAlpha Char.isUpper Char.isLower Char.isDigit at h
  simp only [Bool.or_eq_true, Bool.and_eq_true, decide_eq_true_eq, beq_iff_eq, ge_iff_le,
    UInt32.le_iff_toNat_le] at h
  have val : c.val.toNat = c.toNat := rfl
  have upper : 'A'.val.toNat = 65 ∧ 'Z'.val.toNat = 90 := ⟨rfl, rfl⟩
  have lower : 'a'.val.toNat = 97 ∧ 'z'.val.toNat = 122 := ⟨rfl, rfl⟩
  have digit : '0'.val.toNat = 48 ∧ '9'.val.toNat = 57 := ⟨rfl, rfl⟩
  rcases h with ((h | h) | h) | rfl
  · omega
  · omega
  · omega
  · decide

theorem isBlank_eq_false {c : Char} (h : isNameChar c) : isBlank c = false := by
  have := toNat_of_isNameChar h
  simp only [isBlank, Bool.or_eq_false_iff, Bool.and_eq_false_iff, decide_eq_false_iff_not,
    beq_eq_false_iff_ne]
  omega

/-- A text without blanks that operands can be told apart in. -/
structure IsWord (cs : List Char) : Prop where
  nonempty : cs ≠ []
  blank : ∀ c ∈ cs, isBlank c = false
  colon : ':' ∉ cs

instance (cs : List Char) : Decidable (IsWord cs) :=
  decidable_of_iff (cs ≠ [] ∧ cs.all (fun c => !isBlank c) ∧ ':' ∉ cs)
    ⟨fun ⟨nonempty, blank, colon⟩ => ⟨nonempty, by simpa using blank, colon⟩,
      fun ⟨nonempty, blank, colon⟩ => ⟨nonempty, by simpa using blank, colon⟩⟩

theorem IsWord.space {cs : List Char} (h : IsWord cs) : ' ' ∉ cs := fun mem =>
  absurd (h.blank _ mem) (by decide)

theorem IsName.isWord {name : String} (h : IsName name) : IsWord name.toList where
  nonempty := by
    obtain ⟨c, cs, eq, _⟩ := h.first
    simp [eq]
  blank c mem := isBlank_eq_false (h.chars c mem)
  colon mem := absurd rfl (isNameChar_ne (h.chars _ mem) (by decide))

theorem IsName.int32? {name : String} (h : IsName name) : Text.int32? name.toList = none := by
  obtain ⟨c, cs, eq, notDigit⟩ := h.first
  have hc := h.chars c (by simp [eq])
  have minus : c ≠ '-' := isNameChar_ne hc (by decide)
  have plus : c ≠ '+' := isNameChar_ne hc (by decide)
  have natural : Text.natural? (c :: cs) = none := by simp [Text.natural?, notDigit]
  rw [eq, Text.int32?, Text.integer?]
  · simp [natural]
  · simpa using minus
  · simpa using plus

theorem mem_toString {i : Int} {c : Char} (h : c ∈ (toString i).toList) : c.isDigit ∨ c = '-' := by
  rw [Int.toString_eq_repr] at h
  cases i with
  | ofNat n => exact .inl (Text.isDigit_of_mem_toString h)
  | negSucc n =>
    simp only [Int.repr, String.toList_append, mem_append] at h
    rcases h with h | h
    · exact .inr (by simpa using h)
    · exact .inl (Text.isDigit_of_mem_toString h)

def numeral (w : Int32) : List Char :=
  (toString w.toInt).toList

theorem not_mem_numeral {w : Int32} {c : Char} (digit : c.isDigit = false) (sign : c ≠ '-') :
    c ∉ numeral w := by
  intro mem
  rcases mem_toString mem with h | h
  · rw [h] at digit
    cases digit
  · exact sign h

theorem numeral_ne_nil {w : Int32} : numeral w ≠ [] := by
  intro eq
  have read : Text.int32? (numeral w) = some w := Text.int32?_toString w
  rw [eq] at read
  cases read

theorem isWord_numeral (w : Int32) : IsWord (numeral w) where
  nonempty := numeral_ne_nil
  blank c mem := by
    rcases mem_toString mem with h | rfl
    · exact isBlank_eq_false (by simp [isNameChar, Char.isAlphanum, h])
    · decide
  colon := not_mem_numeral (by decide) (by decide)

theorem IsWord.append {cs ds : List Char} (h : IsWord cs) (h' : IsWord ds) : IsWord (cs ++ ds) where
  nonempty := by simp [h.nonempty]
  blank c mem := (mem_append.mp mem).elim (h.blank c) (h'.blank c)
  colon mem := (mem_append.mp mem).elim h.colon h'.colon

namespace Operand

def Legible : Operand → Prop
  | addr label => IsName label
  | indexed _ _ _ scale => scale = wordSize
  | _ => True

theorem isWord_register (register : Register) : IsWord register.render.toList := by
  cases register <;> decide

theorem toList_mem (disp : Int32) (base : Register) :
    (mem disp base).render.toList = numeral disp ++ '(' :: (base.render.toList ++ [')']) := by
  simp only [render, String.toList_append, append_assoc]
  rfl

theorem toList_indexed (disp : Int32) (base index : Register) :
    (indexed disp base index wordSize).render.toList =
      numeral disp ++ '(' :: (base.render.toList ++ ',' :: (index.render.toList ++ [',', '4', ')'])) := by
  simp only [render, String.toList_append, append_assoc]
  rfl

theorem isWord_render {operand : Operand} (h : operand.Legible) : IsWord operand.render.toList := by
  have dollar : IsWord ['$'] := by decide
  cases operand with
  | imm value =>
    have eq : (imm value).render.toList = ['$'] ++ numeral value := by
      simp only [render, String.toList_append]
      rfl
    rw [eq]
    exact dollar.append (isWord_numeral value)
  | addr label =>
    have eq : (addr label).render.toList = ['$'] ++ label.toList := by
      simp only [render, String.toList_append]
      rfl
    rw [eq]
    exact dollar.append h.isWord
  | reg register => exact isWord_register register
  | mem disp base =>
    rw [toList_mem]
    exact (isWord_numeral disp).append (by cases base <;> decide)
  | indexed disp base index scale =>
    cases h
    rw [toList_indexed]
    exact (isWord_numeral disp).append
      (by cases base <;> cases index <;> decide)

end Operand

namespace Machine

/-- What an operand stands for, once strings have addresses. -/
def operandOf (data : List Datum) : LineBasic.Operand → Option Operand
  | .imm value => some (.imm value)
  | .addr label => (data.find? (·.label == label)).map fun datum => .imm datum.address
  | .reg register => some (.reg register)
  | .mem disp base => some (.mem disp base none)
  | .indexed disp base index scale => some (.mem disp base (some (index, Int32.ofNat scale)))

theorem register_render (base : Register) : register base.render.toList = .ok base := by
  cases base <;> rfl

theorem cut_numeral (disp : Int32) (rest : List Char) :
    (numeral disp ++ '(' :: rest).dropWhile (· != '(') = '(' :: rest ∧
      (numeral disp ++ '(' :: rest).takeWhile (· != '(') = numeral disp := by
  have all : ∀ c ∈ numeral disp, (c != '(') = true := by
    intro c mem
    have ne : c ≠ '(' := by
      rintro rfl
      exact not_mem_numeral (by decide) (by decide) mem
    simp [ne]
  rw [dropWhile_append_of_pos all, takeWhile_append_of_pos all]
  simp

theorem operand_numeral {data : List Datum} (disp : Int32) (rest : List Char) :
    operand data (numeral disp ++ rest) = place (numeral disp ++ rest) := by
  cases eq : numeral disp with
  | nil => exact absurd eq numeral_ne_nil
  | cons c cs =>
    have dollar : c ≠ '$' := by
      rintro rfl
      exact not_mem_numeral (by decide) (by decide) (eq ▸ mem_cons_self ..)
    have percent : c ≠ '%' := by
      rintro rfl
      exact not_mem_numeral (by decide) (by decide) (eq ▸ mem_cons_self ..)
    rw [cons_append, operand]
    · simpa using dollar
    · simpa using percent

theorem operand_render {data : List Datum} {source : LineBasic.Operand} {target : Operand}
    (legible : source.Legible) (h : operandOf data source = some target) :
    operand data source.render.toList = .ok target := by
  cases source with
  | imm value =>
    cases h
    have eq : (LineBasic.Operand.imm value).render.toList = '$' :: numeral value := by
      simp only [LineBasic.Operand.render, String.toList_append]
      rfl
    have read : Text.int32? (numeral value) = some value := Text.int32?_toString value
    rw [eq, operand, immediate, read]
  | addr label =>
    obtain ⟨datum, found, rfl⟩ := Option.map_eq_some_iff.mp h
    have eq : (LineBasic.Operand.addr label).render.toList = '$' :: label.toList := by
      simp only [LineBasic.Operand.render, String.toList_append]
      rfl
    have unread : Text.int32? label.toList = none := legible.int32?
    rw [eq, operand, immediate, unread]
    simp only [String.ofList_toList, found]
  | reg register =>
    cases h
    cases register <;> rfl
  | mem disp base =>
    cases h
    have read : Text.int32? (numeral disp) = some disp := Text.int32?_toString disp
    have inner : Text.pieces (· == ',')
        ((base.render.toList ++ [')']).reverse.dropWhile (· == ')')).reverse =
          [base.render.toList] := by
      cases base <;> rfl
    rw [LineBasic.Operand.toList_mem, operand_numeral, place, (cut_numeral _ _).1,
      (cut_numeral _ _).2]
    simp only [inner, register_render]
    split
    next eq => exact absurd eq numeral_ne_nil
    next => rw [read]; rfl
  | indexed disp base index scale =>
    cases h
    cases legible
    have read : Text.int32? (numeral disp) = some disp := Text.int32?_toString disp
    have inner : Text.pieces (· == ',')
        ((base.render.toList ++ ',' :: (index.render.toList ++ [',', '4', ')'])).reverse.dropWhile
          (· == ')')).reverse = [base.render.toList, index.render.toList, ['4']] := by
      cases base <;> cases index <;> rfl
    have scale : Text.int32? ['4'] = some (Int32.ofNat wordSize) := by decide
    rw [LineBasic.Operand.toList_indexed, operand_numeral, place, (cut_numeral _ _).1,
      (cut_numeral _ _).2]
    simp only [inner, register_render, scale]
    split
    next eq => exact absurd eq numeral_ne_nil
    next => rw [read]; rfl

/-- Operands as they are written one after the other. -/
def joined : List LineBasic.Operand → List Char
  | [] => []
  | [source] => source.render.toList
  | source :: target :: rest => source.render.toList ++ ',' :: ' ' :: joined (target :: rest)

theorem operandTexts_append {cs rest : List Char} (h : ' ' ∉ cs) :
    operandTexts (cs ++ ',' :: ' ' :: rest) = cs :: operandTexts rest := by
  induction cs with
  | nil => rfl
  | cons c cs ih =>
    have hcs := ih fun mem => h (mem_cons_of_mem _ mem)
    rw [cons_append, operandTexts, hcs]
    rintro rest' rfl eq
    cases cs with
    | nil => cases eq
    | cons d ds =>
      cases eq
      exact h (by simp)

theorem operandTexts_eq_singleton {cs : List Char} (h : ' ' ∉ cs) : operandTexts cs = [cs] := by
  induction cs with
  | nil => rfl
  | cons c cs ih =>
    have hcs := ih fun mem => h (mem_cons_of_mem _ mem)
    rw [operandTexts, hcs]
    rintro rest rfl rfl
    exact h (by simp)

theorem operandTexts_joined {source : LineBasic.Operand} {rest : List LineBasic.Operand}
    (legible : ∀ operand ∈ source :: rest, operand.Legible) :
    operandTexts (joined (source :: rest)) =
      (source :: rest).map fun operand => operand.render.toList := by
  induction rest generalizing source with
  | nil =>
    have word := LineBasic.Operand.isWord_render (legible source (by simp))
    exact operandTexts_eq_singleton word.space
  | cons target rest ih =>
    have word := LineBasic.Operand.isWord_render (legible source (by simp))
    rw [joined, operandTexts_append word.space,
      ih fun operand mem => legible operand (mem_cons_of_mem _ mem)]
    rfl

/-- A text that is one line and no label, with nothing to trim. -/
structure Framed (cs : List Char) : Prop where
  first : ∃ c rest, cs = c :: rest ∧ isBlank c = false
  last : ∃ c rest, cs = rest ++ [c] ∧ isBlank c = false ∧ c ≠ ':'
  newline : '\n' ∉ cs

theorem framed_of_isWord {cs : List Char} (h : IsWord cs) : Framed cs where
  first := by
    cases cs with
    | nil => exact absurd rfl h.nonempty
    | cons c rest => exact ⟨c, rest, rfl, h.blank c (by simp)⟩
  last := by
    rcases eq_nil_or_concat cs with rfl | ⟨rest, c, rfl⟩
    · exact absurd rfl h.nonempty
    · exact ⟨c, rest, by simp, h.blank c (by simp), fun eq => h.colon (by simp [eq])⟩
  newline mem := absurd (h.blank _ mem) (by decide)

namespace Framed

variable {cs ds : List Char}

theorem append (h : Framed cs) (h' : Framed ds) {between : List Char} (hb : '\n' ∉ between) :
    Framed (cs ++ between ++ ds) where
  first := by
    obtain ⟨c, rest, rfl, hc⟩ := h.first
    exact ⟨c, rest ++ between ++ ds, by simp, hc⟩
  last := by
    obtain ⟨c, rest, rfl, hc⟩ := h'.last
    exact ⟨c, cs ++ between ++ rest, by simp, hc⟩
  newline := by simp [h.newline, h'.newline, hb]

theorem trim (h : Framed cs) : Text.trim cs = cs := by
  refine Text.trim_eq_self ?_ ?_
  · obtain ⟨c, rest, rfl, hc⟩ := h.first
    simpa using hc
  · obtain ⟨c, rest, rfl, hc, _⟩ := h.last
    simpa using hc

theorem trim_tab (h : Framed cs) : Text.trim ('\t' :: cs) = cs := by
  rw [Text.trim_cons (by decide), h.trim]

theorem label? (h : Framed cs) : Machine.label? cs = none := by
  obtain ⟨c, rest, rfl, _, hc⟩ := h.last
  rw [Machine.label?, Option.map_eq_none_iff, Option.eq_none_iff_forall_ne_some]
  intro before found
  have eq := isSuffixOf?_eq_some_iff_append_eq.mp found
  have last : ':' = c := (append_singleton_inj.mp eq).2
  exact hc last.symm

theorem isLine (h : Framed cs) : IsLine ('\t' :: cs) where
  newline := by simp [h.newline]
  last := by
    obtain ⟨c, rest, rfl, hc, _⟩ := h.last
    have eq : '\t' :: (rest ++ [c]) = ('\t' :: rest) ++ [c] := rfl
    rw [eq, getLast?_concat]
    simpa using hc

end Framed

theorem framed_joined {source : LineBasic.Operand} {rest : List LineBasic.Operand}
    (legible : ∀ operand ∈ source :: rest, operand.Legible) : Framed (joined (source :: rest)) := by
  have first := framed_of_isWord (LineBasic.Operand.isWord_render (legible source (by simp)))
  induction rest generalizing source with
  | nil => exact first
  | cons target rest ih =>
    have others : ∀ operand ∈ target :: rest, operand.Legible := fun operand mem =>
      legible operand (mem_cons_of_mem _ mem)
    have last := ih others (framed_of_isWord
      (LineBasic.Operand.isWord_render (others target (by simp))))
    have framed := first.append last (show '\n' ∉ [',', ' '] by decide)
    simpa [joined] using framed

end Machine

namespace Instr

def mnemonic? : Instr → Option String
  | push _ => some "pushl"
  | pop _ => some "popl"
  | mov .. => some "movl"
  | lea .. => some "leal"
  | add .. => some "addl"
  | sub .. => some "subl"
  | imul .. => some "imull"
  | cltd => some "cltd"
  | idiv _ => some "idivl"
  | dec _ => some "decl"
  | cmp .. => some "cmpl"
  | leave => some "leave"
  | ret => some "ret"
  | _ => none

def operands : Instr → List Operand
  | push source => [source]
  | pop target | idiv target | dec target => [.reg target]
  | mov source target | add source target | sub source target | cmp source target =>
    [source, target]
  | lea source target | imul source target => [source, .reg target]
  | _ => []

/-- The mnemonic of an instruction that leads elsewhere, and where it leads. -/
def transfer? : Instr → Option (String × String)
  | jmp goal => some ("jmp", goal)
  | jcc condition goal => some (condition.mnemonic, goal)
  | call symbol => some ("call", symbol)
  | _ => none

/-- An instruction that the loader makes a command of. -/
def isCommand (instr : Instr) : Bool :=
  instr.mnemonic?.isSome || instr.transfer?.isSome

/-- An instruction that can be read back from its line. -/
def Legible : Instr → Prop
  | file name => '\n' ∉ name.toList
  | .section name => Machine.Framed name.toList
  | ascii content => '\n' ∉ content.toList
  | globl name | label name | jmp name | jcc _ name | call name => IsName name
  | instr => ∀ operand ∈ instr.operands, operand.Legible

end Instr

namespace Machine

/-- What an instruction does, once strings have addresses. -/
def actionOf (data : List Datum) (instr : Instr) : Option Action :=
  match instr.mnemonic?, instr.transfer? with
  | some mnemonic, _ => (instr.operands.mapM (operandOf data)).map (Action.ofOperands mnemonic)
  | none, some (mnemonic, goal) => Action.ofName? mnemonic goal
  | none, none => none

theorem actionOf_one {data : List Datum} {instr : Instr} {mnemonic : String}
    {operand : LineBasic.Operand} {action : Action} (h : instr.mnemonic? = some mnemonic)
    (operands : instr.operands = [operand]) (eq : actionOf data instr = some action) :
    ∃ resolved, operandOf data operand = some resolved ∧
      action = Action.ofOperands mnemonic [resolved] := by
  rw [actionOf, h, operands] at eq
  cases found : operandOf data operand with
  | none => simp [found] at eq
  | some resolved =>
    refine ⟨resolved, rfl, ?_⟩
    simpa [found] using eq.symm

theorem actionOf_two {data : List Datum} {instr : Instr} {mnemonic : String}
    {source target : LineBasic.Operand} {action : Action} (h : instr.mnemonic? = some mnemonic)
    (operands : instr.operands = [source, target]) (eq : actionOf data instr = some action) :
    ∃ source' target', operandOf data source = some source' ∧ operandOf data target = some target' ∧
      action = Action.ofOperands mnemonic [source', target'] := by
  rw [actionOf, h, operands] at eq
  cases first : operandOf data source with
  | none => simp [first] at eq
  | some source' =>
    cases second : operandOf data target with
    | none => simp [first, second] at eq
    | some target' =>
      refine ⟨source', target', rfl, rfl, ?_⟩
      simpa [first, second] using eq.symm

def operandText : List LineBasic.Operand → List Char
  | [] => []
  | source :: rest => '\t' :: joined (source :: rest)

theorem render_operation {instr : Instr} {mnemonic : String} (h : instr.mnemonic? = some mnemonic) :
    instr.render.toList = '\t' :: (mnemonic.toList ++ operandText instr.operands) := by
  cases instr with
  | file | «section» | text | globl | ascii | label | jmp | jcc | call => cases h
  | _ =>
    cases h
    simp only [Instr.render, String.toList_append, append_assoc, Instr.operands, operandText,
      joined]
    rfl

theorem render_transfer {instr : Instr} {mnemonic goal : String}
    (h : instr.transfer? = some (mnemonic, goal)) :
    instr.render.toList = '\t' :: (mnemonic.toList ++ '\t' :: goal.toList) := by
  cases instr with
  | jmp | jcc | call =>
    cases h
    simp only [Instr.render, String.toList_append, append_assoc]
    rfl
  | _ => cases h

theorem command_eq {data : List Datum} {mnemonic : String} {rest : List Char}
    (tab : '\t' ∉ mnemonic.toList) (framed : rest = [] ∨ ∃ cs, rest = '\t' :: cs ∧ Framed cs) :
    command data (mnemonic.toList ++ rest) =
      (match Action.ofName? mnemonic (String.ofList rest.tail) with
      | some action => pure ⟨action, String.ofList (mnemonic.toList ++ rest)⟩
      | none => do
        let operands ← if rest.tail.isEmpty then pure []
          else (operandTexts rest.tail).mapM (operand data)
        return ⟨.ofOperands mnemonic operands, String.ofList (mnemonic.toList ++ rest)⟩) := by
  have all : ∀ c ∈ mnemonic.toList, (c != '\t') = true := by
    intro c mem
    have ne : c ≠ '\t' := fun eq => tab (eq ▸ mem)
    simp [ne]
  have trimmed : Text.trim ((rest.dropWhile (· != '\t')).drop 1) = rest.tail := by
    rcases framed with rfl | ⟨cs, rfl, framed⟩
    · rfl
    · simpa using framed.trim
  have cut : rest.takeWhile (· != '\t') = [] := by
    rcases framed with rfl | ⟨cs, rfl, _⟩ <;> simp
  unfold command
  rewrite [takeWhile_append_of_pos all, dropWhile_append_of_pos all, cut, append_nil,
    String.ofList_toList, trimmed]
  rfl

theorem mapM_operand {data : List Datum} {sources : List LineBasic.Operand} {targets : List Operand}
    (legible : ∀ operand ∈ sources, operand.Legible)
    (h : sources.mapM (operandOf data) = some targets) :
    (sources.map fun operand => operand.render.toList).mapM (operand data) = .ok targets := by
  induction sources generalizing targets with
  | nil =>
    cases h
    rfl
  | cons source sources ih =>
    simp only [mapM_cons, Option.bind_eq_bind, Option.bind_eq_some_iff] at h
    obtain ⟨target, first, targets, rest, eq⟩ := h
    cases eq
    have read := operand_render (legible source (by simp)) first
    have reads := ih (fun operand mem => legible operand (mem_cons_of_mem _ mem)) rest
    rw [map_cons, mapM_cons, read]
    simp only [bind, Except.bind, reads]
    rfl

/-- A mnemonic of instructions on operands. -/
structure IsMnemonic (mnemonic : String) : Prop where
  isWord : IsWord mnemonic.toList
  dot : mnemonic.toList.head? ≠ some '.'

theorem IsMnemonic.tab {mnemonic : String} (h : IsMnemonic mnemonic) : '\t' ∉ mnemonic.toList :=
  fun mem => absurd (h.isWord.blank _ mem) (by decide)

theorem isMnemonic_of_operation {instr : Instr} {mnemonic : String}
    (h : instr.mnemonic? = some mnemonic) :
    IsMnemonic mnemonic ∧ ∀ goal, Action.ofName? mnemonic goal = none := by
  cases instr with
  | file | «section» | text | globl | ascii | label | jmp | jcc | call => cases h
  | _ =>
    cases h
    exact ⟨⟨by decide, by decide⟩, fun _ => rfl⟩

theorem isMnemonic_of_transfer {instr : Instr} {mnemonic goal : String}
    (h : instr.transfer? = some (mnemonic, goal)) : IsMnemonic mnemonic := by
  cases instr with
  | jmp | call =>
    cases h
    exact ⟨by decide, by decide⟩
  | jcc condition =>
    cases h
    cases condition <;> exact ⟨by decide, by decide⟩
  | _ => cases h

/-- The line of a command, without the tab before it. -/
structure IsCode (cs : List Char) : Prop where
  framed : Framed cs
  dot : cs.head? ≠ some '.'

theorem IsMnemonic.isCode {mnemonic : String} (h : IsMnemonic mnemonic) {rest : List Char}
    (framed : rest = [] ∨ ∃ cs, rest = '\t' :: cs ∧ Framed cs) : IsCode (mnemonic.toList ++ rest) where
  framed := by
    have first := framed_of_isWord h.isWord
    rcases framed with rfl | ⟨cs, rfl, framed⟩
    · simpa using first
    · simpa using first.append framed (show '\n' ∉ ['\t'] by decide)
  dot := by
    obtain ⟨c, cs, eq, _⟩ := (framed_of_isWord h.isWord).first
    have dot := h.dot
    rw [eq] at dot ⊢
    exact dot

theorem operandText_framed {operands : List LineBasic.Operand}
    (legible : ∀ operand ∈ operands, operand.Legible) :
    operandText operands = [] ∨ ∃ cs, operandText operands = '\t' :: cs ∧ Framed cs := by
  cases operands with
  | nil => exact .inl rfl
  | cons source rest => exact .inr ⟨_, rfl, framed_joined legible⟩

theorem legible_operands {instr : Instr} (h : instr.Legible) :
    ∀ operand ∈ instr.operands, operand.Legible := by
  cases instr with
  | file | «section» | text | globl | ascii | label | jmp | jcc | call =>
    simp [Instr.operands]
  | _ => exact h

theorem legible_goal {instr : Instr} {mnemonic goal : String} (h : instr.Legible)
    (transfer : instr.transfer? = some (mnemonic, goal)) : IsName goal := by
  cases instr with
  | jmp | jcc | call =>
    cases transfer
    exact h
  | _ => cases transfer

theorem code_render {instr : Instr} (legible : instr.Legible) (h : instr.isCommand) :
    ∃ cs, instr.render.toList = '\t' :: cs ∧ IsCode cs := by
  rcases Bool.or_eq_true_iff.mp h with isOperation | isTransfer
  · obtain ⟨mnemonic, isOperation⟩ := Option.isSome_iff_exists.mp isOperation
    exact ⟨_, render_operation isOperation, (isMnemonic_of_operation isOperation).1.isCode
      (operandText_framed (legible_operands legible))⟩
  · obtain ⟨⟨mnemonic, goal⟩, isTransfer⟩ := Option.isSome_iff_exists.mp isTransfer
    have name := legible_goal legible isTransfer
    exact ⟨_, render_transfer isTransfer, (isMnemonic_of_transfer isTransfer).isCode
      (.inr ⟨_, rfl, framed_of_isWord name.isWord⟩)⟩

theorem isCommand_of_action {data : List Datum} {instr : Instr} {action : Action}
    (h : actionOf data instr = some action) : instr.isCommand := by
  unfold actionOf at h
  split at h
  next isOperation => simp [Instr.isCommand, isOperation]
  next isTransfer => simp [Instr.isCommand, isTransfer]
  next => cases h

/-- An instruction is read back as the command that it stands for. -/
theorem command_render {data : List Datum} {instr : Instr} {action : Action}
    (legible : instr.Legible) (h : actionOf data instr = some action) :
    command data instr.render.toList.tail = .ok ⟨action, String.ofList instr.render.toList.tail⟩ := by
  unfold actionOf at h
  split at h
  next mnemonic _ isOperation =>
    obtain ⟨targets, found, rfl⟩ := Option.map_eq_some_iff.mp h
    have operands := legible_operands legible
    obtain ⟨isMnemonic, unnamed⟩ := isMnemonic_of_operation isOperation
    have framed := operandText_framed operands
    rw [render_operation isOperation, tail_cons, command_eq isMnemonic.tab framed, unnamed]
    cases eq : instr.operands with
    | nil =>
      rw [eq] at found
      cases found
      rfl
    | cons source rest =>
      rw [eq] at operands found
      have nonempty : (joined (source :: rest)).isEmpty = false := by
        obtain ⟨c, cs, eq, _⟩ := (framed_joined operands).first
        rw [eq]
        rfl
      simp only [operandText, tail_cons, nonempty, operandTexts_joined operands,
        mapM_operand operands found]
      rfl
  next mnemonic goal _ isTransfer =>
    have isMnemonic := isMnemonic_of_transfer isTransfer
    have name := legible_goal legible isTransfer
    have framed : '\t' :: goal.toList = [] ∨ ∃ cs, '\t' :: goal.toList = '\t' :: cs ∧ Framed cs :=
      .inr ⟨_, rfl, framed_of_isWord name.isWord⟩
    rw [render_transfer isTransfer, tail_cons, command_eq isMnemonic.tab framed,
      tail_cons, String.ofList_toList, h]
    rfl
  next => cases h

end Machine

end LineBasic
