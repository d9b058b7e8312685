import LineBasic.Proofs.Semantics.Frame

/-!
Code for expressions leaves on the stack the words that they evaluate to.
-/

namespace LineBasic

open List Machine Lower

section Words

variable {image : Image} {value : Value} {word : Int32}

theorem dividend_eq (a : Int32) :
    (if a < 0 then (-1 : Int32) else 0).toInt * 0x100000000 + a.toUInt32.toNat = a.toInt := by
  have bits : (a.toUInt32.toNat : Int) =
      if a.toInt < 0 then a.toInt + 0x100000000 else a.toInt := by
    rw [← UInt32.toNat_toBitVec, Int32.toBitVec_toUInt32]
    show (a.toBitVec.toNat : Int) =
      if a.toBitVec.toInt < 0 then a.toBitVec.toInt + 0x100000000 else a.toBitVec.toInt
    have signed := BitVec.toInt_eq_toNat_cond a.toBitVec
    have bound := a.toBitVec.isLt
    split <;> split at signed <;> omega
  have negative := @Int32.lt_iff_toInt_lt a 0
  rw [Int32.toInt_zero] at negative
  rw [bits]
  by_cases below : a < 0
  · have minus : (-1 : Int32).toInt = -1 := by decide
    rw [if_pos below, if_pos (negative.mp below), minus]
    omega
  · rw [if_neg below, if_neg fun h => below (negative.mpr h)]
    simp

theorem quotient_eq (a d : Int32) : Int32.ofInt (a.toInt.tdiv d.toInt) = a / d := by
  rw [← Int32.toInt_inj, Int32.toInt_ofInt, Int32.toInt_div]

def index? (word : Int32) : Option Nat :=
  if 0 ≤ word then some word.toInt.toNat else none

theorem Depicts.index?_eq (h : Depicts image value word) {i : Nat} (index : value.index? = some i) :
    index? word = some i := by
  obtain ⟨n, isInt, index⟩ := Option.bind_eq_some_iff.mp index
  cases h.eq_of_int? isInt
  exact index

theorem eq_ofNat_of_index? {i : Nat} (h : index? word = some i) : word = Int32.ofNat i := by
  unfold index? at h
  split at h
  next nonnegative =>
    cases h
    exact (Int32.ofNat_toNatClampNeg word nonnegative).symm
  next => cases h

theorem mapM_eq_some_iff {α β : Type} {f : α → Option β} {xs : List α} {ys : List β} :
    xs.mapM f = some ys ↔ Forall₂ (fun x y => f x = some y) xs ys := by
  induction xs generalizing ys with
  | nil => simp [eq_comm]
  | cons x xs ih =>
    rw [mapM_cons]
    constructor
    · intro h
      obtain ⟨y, first, h⟩ := Option.bind_eq_some_iff.mp h
      obtain ⟨rest, others, h⟩ := Option.bind_eq_some_iff.mp h
      cases h
      exact .cons first (ih.mp others)
    · rintro (_ | ⟨first, others⟩)
      rw [first, ih.mpr others]
      rfl

theorem eq_ofNat_of_indices {words : List Int32} {indices : List Nat}
    (h : words.mapM index? = some indices) : words = indices.map Int32.ofNat := by
  have same := (mapM_eq_some_iff.mp h).imp fun _ _ => eq_ofNat_of_index?
  rw [← forall₂_eq_eq_eq, forall₂_map_right_iff]
  exact same

/-- The sum of some words, each as often as its stride says. -/
def weighted : List Nat → List Int32 → Int32
  | stride :: strides, word :: words => word * Int32.ofNat stride + weighted strides words
  | _, _ => 0

theorem weighted_append {strides others : List Nat} {words rest : List Int32}
    (length : words.length = strides.length) :
    weighted (strides ++ others) (words ++ rest) = weighted strides words + weighted others rest := by
  induction strides generalizing words with
  | nil =>
    cases eq_nil_of_length_eq_zero length
    simp [weighted]
  | cons stride strides ih =>
    cases words with
    | nil => cases length
    | cons word words =>
      simp only [cons_append, weighted]
      rw [ih (Nat.succ.inj length), Int32.add_assoc]

theorem weighted_reverse {strides : List Nat} {words : List Int32}
    (length : words.length = strides.length) :
    weighted strides.reverse words.reverse = weighted strides words := by
  induction strides generalizing words with
  | nil =>
    cases eq_nil_of_length_eq_zero length
    rfl
  | cons stride strides ih =>
    cases words with
    | nil => cases length
    | cons word words =>
      have length : words.length = strides.length := Nat.succ.inj length
      rw [reverse_cons, reverse_cons, weighted_append (by simp [length]), ih length]
      simp only [weighted]
      grind

/-- The place of an element is the sum of its indices, each as often as its stride says. -/
theorem weighted_strides {dims indices : List Nat} {k : Nat}
    (h : Shape.offset? dims indices = some k) :
    weighted (Shape.strides dims) (indices.map Int32.ofNat) = Int32.ofNat k := by
  induction dims generalizing indices k with
  | nil =>
    cases indices with
    | nil =>
      cases h
      rfl
    | cons => simp [Shape.offset?] at h
  | cons dim dims ih =>
    cases indices with
    | nil => simp [Shape.offset?] at h
    | cons index indices =>
      simp only [Shape.offset?] at h
      split at h
      next =>
        obtain ⟨inner, found, rfl⟩ := Option.map_eq_some_iff.mp h
        rw [Shape.strides, map_cons, weighted, ih found, Int32.ofNat_add, Int32.ofNat_mul]
      next => cases h

end Words

namespace Scratch

variable {eax ecx edx : Int32} {order : Ordering} {words rest : List Int32}

theorem run?_strides {strides : List Nat} (length : words.length = strides.length) :
    ∃ last, run? ⟨words ++ rest, eax, ecx, edx, order⟩ (strides.flatMap fun stride => .pop .eax ::
        (if stride = 1 then [] else [.imul (.imm (Int32.ofNat stride)) .eax]) ++
          [.add (.reg .eax) (.reg .edx)]) =
      some ⟨rest, last, ecx, edx + weighted strides words, order⟩ := by
  induction strides generalizing words eax edx with
  | nil =>
    cases eq_nil_of_length_eq_zero length
    exact ⟨eax, by simp [run?, weighted]⟩
  | cons stride strides ih =>
    cases words with
    | nil => cases length
    | cons word words =>
      obtain ⟨last, ran⟩ := @ih (word * Int32.ofNat stride) (edx + word * Int32.ofNat stride) words
        (Nat.succ.inj length)
      have first : run? ⟨word :: (words ++ rest), eax, ecx, edx, order⟩ (.pop .eax ::
          (if stride = 1 then [] else [.imul (.imm (Int32.ofNat stride)) .eax]) ++
            [.add (.reg .eax) (.reg .edx)]) =
          some ⟨words ++ rest, word * Int32.ofNat stride, ecx, edx + word * Int32.ofNat stride,
            order⟩ := by
        split
        next one =>
          rw [one, show Int32.ofNat 1 = 1 from rfl, Int32.mul_one]
          rfl
        next => rfl
      refine ⟨last, ?_⟩
      rw [flatMap_cons, run?_append, cons_append, first, Option.bind_some, ran, weighted,
        Int32.add_assoc]

theorem run?_elementOffset {dims indices : List Nat} {k : Nat}
    (h : Shape.offset? dims indices = some k) :
    ∃ last, run? ⟨(indices.map Int32.ofNat).reverse ++ rest, eax, ecx, edx, order⟩
      (elementOffset dims) = some ⟨rest, last, ecx, Int32.ofNat k, order⟩ := by
  have length : (indices.map Int32.ofNat).length = (Shape.strides dims).length := by
    rw [length_map, Shape.length_strides, Shape.length_of_offset? h]
  obtain ⟨last, ran⟩ := @run?_strides eax ecx 0 order (indices.map Int32.ofNat).reverse rest
    (Shape.strides dims).reverse (by simpa using length)
  rw [weighted_reverse length, weighted_strides h, Int32.zero_add] at ran
  exact ⟨last, ran⟩

end Scratch

section Operations

variable {image : Image} {full : Prop} {b : Scratch} {base s : State} {words : List Int32}

theorem compare_eq_gt (a b : Int32) : (compare a b == .gt) = decide (b < a) := by
  show (compareOfLessAndEq a b == .gt) = _
  have less := @Int32.lt_iff_toInt_lt a b
  have more := @Int32.lt_iff_toInt_lt b a
  have same := @Int32.toInt_inj a b
  unfold compareOfLessAndEq
  split
  next => grind
  next => split <;> grind

theorem compare_eq_eq (a b : Int32) : (compare a b == .eq) = decide (a = b) := by
  show (compareOfLessAndEq a b == .eq) = _
  have less := @Int32.lt_iff_toInt_lt a b
  unfold compareOfLessAndEq
  split
  next => grind
  next => split <;> grind

/-- The rounds of a repeated multiplication, from the test on. -/
theorem comes_power {loop : String} {a : Int32} {start n : Nat}
    (found : image.labels.lookup loop = some start)
    (round : image.Holds start [.imul (.reg .edx) .eax, .dec .ecx])
    (test : image.Holds (start + 2) [.cmp (.imm 0) (.reg .ecx)])
    (jump : image.Holds (start + 3) [.jcc .greater loop]) (atop : b.Atop base s)
    (pc : s.pc = start + 2) (factor : b.edx = a) (count : b.ecx.toInt.toNat = n) :
    image.Comes full (fun s' => s'.pc = start + 4 ∧ ∃ b', Scratch.Atop b' base s' ∧
      b'.words = b.words ∧ b'.eax = b.eax * Operator.power a n) s := by
  induction n using Nat.strongRecOn generalizing b s with
  | ind n ih =>
    have compared : image.Completes full [.cmp (.imm 0) (.reg .ecx)] s
        (Scratch.Atop { b with order := compare b.ecx 0 } base) :=
      Scratch.completes_run (.inr (by simp)) atop rfl
    refine (compared (pc ▸ test)).bind fun s₁ ⟨pc₁, atop₁⟩ => ?_
    have pc₁ : s₁.pc = start + 3 := by
      rw [pc₁, pc]
      rfl
    have outcome : s₁.holds .greater = decide (0 < b.ecx) := by
      show (s₁.order == .gt) = _
      rw [atop₁.order]
      exact compare_eq_gt ..
    have positive := @Int32.lt_iff_toInt_lt 0 b.ecx
    rw [Int32.toInt_zero] at positive
    refine Image.comes_jcc (pc₁ ▸ jump) found (fun taken => ?_) fun passed => ?_
    · have more : 0 < b.ecx.toInt := positive.mp (by simpa [outcome] using taken)
      have multiplied : image.Completes full [.imul (.reg .edx) .eax, .dec .ecx] { s₁ with pc := start }
          (Scratch.Atop ⟨b.words, b.eax * b.edx, b.ecx - 1, b.edx, compare b.ecx 0⟩ base) :=
        Scratch.completes_run (.inr (by simp)) (atop₁.goto start) rfl
      refine (multiplied round).bind fun s₂ ⟨pc₂, atop₂⟩ => ?_
      have fewer : (b.ecx - 1).toInt = b.ecx.toInt - 1 := by
        have bound := Int32.toInt_lt b.ecx
        exact @toInt_sub_ofNat b.ecx 1 (by omega) (by omega)
      refine (ih (n - 1) (by omega) atop₂ pc₂ factor (by rw [fewer]; omega)).mono ?_
      rintro s₃ ⟨pc₃, b₃, atop₃, same, product⟩
      refine ⟨pc₃, b₃, atop₃, same, ?_⟩
      obtain ⟨m, rfl⟩ : ∃ m, n = m + 1 := ⟨n - 1, by omega⟩
      rw [product, Nat.add_sub_cancel, Operator.power, factor]
      simp only
      grind
    · have none : ¬ 0 < b.ecx := by simpa [outcome] using passed
      have zero : n = 0 := by
        have := mt positive.mpr none
        omega
      refine .here ⟨?_, _, atop₁.next, rfl, ?_⟩
      · show s₁.pc + 1 = _
        rw [pc₁]
      · rw [zero, Operator.power, Int32.mul_one]

theorem completes_power {id : Nat} {a n : Int32} (atop : b.Atop base s)
    (eq : b.words = n :: a :: words) :
    image.Completes full (power id) s fun s' => ∃ b', Scratch.Atop b' base s' ∧ b'.words = words ∧
      b'.eax = Operator.power a n.toInt.toNat := by
  obtain ⟨_, eax, ecx, edx, order⟩ := b
  cases eq
  intro lies
  have parts : power id = [Instr.pop .ecx, .pop .edx, .mov (.imm 1) (.reg .eax)] ++
      ([Instr.jmp s!"POW_{id}_TEST"] ++ ([Instr.label s!"POW_{id}_LOOP"] ++
        ([Instr.imul (.reg .edx) .eax, .dec .ecx] ++ ([Instr.label s!"POW_{id}_TEST"] ++
          ([Instr.cmp (.imm 0) (.reg .ecx)] ++ [Instr.jcc .greater s!"POW_{id}_LOOP"]))))) := rfl
  have length : commandCount (power id) = 8 := rfl
  have three : commandCount [.pop .ecx, .pop .edx, .mov (.imm 1) (.reg .eax)] = 3 := rfl
  have two : commandCount [.imul (.reg .edx) .eax, .dec .ecx] = 2 := rfl
  have jumps (name : String) : commandCount [.jmp name] = 1 := rfl
  have labels (name : String) : commandCount [.label name] = 0 := rfl
  have one : commandCount [.cmp (.imm 0) (.reg .ecx)] = 1 := rfl
  rw [parts] at lies
  simp only [Image.holds_append, three, jumps, labels, two, one, Nat.add_assoc, Nat.reduceAdd,
    Nat.add_zero] at lies
  obtain ⟨pops, jump, loop, round, test, compares, branches⟩ := lies
  have started : image.Completes full [.pop .ecx, .pop .edx, .mov (.imm 1) (.reg .eax)] s
      (Scratch.Atop ⟨words, 1, n, a, order⟩ base) := Scratch.completes_run (.inr (by simp)) atop rfl
  refine (started pops).bind fun s₁ ⟨pc₁, atop₁⟩ => ?_
  rw [three] at pc₁
  refine Image.comes_jmp (pc₁ ▸ jump) (test.1 _ rfl) ?_
  refine (@comes_power image full _ base _ _ a (s.pc + 4) _ (loop.1 _ rfl) round compares branches
    (atop₁.goto _) rfl rfl rfl).mono ?_
  rintro s₂ ⟨pc₂, b₂, atop₂, same, product⟩
  refine ⟨?_, b₂, atop₂, same, ?_⟩
  · rw [pc₂, length]
  · rw [product]
    exact Int32.one_mul _

theorem run?_division {a d ecx edx eax : Int32} {order : Ordering} (nonzero : d ≠ 0) :
    ∃ rest, Scratch.run? ⟨d :: a :: words, eax, ecx, edx, order⟩
      [.pop .ecx, .pop .eax, .cltd, .idiv .ecx] = some ⟨words, a / d, d, rest, order⟩ := by
  refine ⟨Int32.ofInt (a.toInt.tmod d.toInt), ?_⟩
  have divided : Scratch.step? ⟨words, a, d, if a < 0 then -1 else 0, order⟩ (.idiv .ecx) =
      some ⟨words, a / d, d, Int32.ofInt (a.toInt.tmod d.toInt), order⟩ := by
    simp only [Scratch.step?, Scratch.get, Option.bind_eq_bind, Option.bind_some, if_neg nonzero,
      Scratch.divide, dividend_eq, quotient_eq]
    rfl
  show (Scratch.step? ⟨words, a, d, if a < 0 then -1 else 0, order⟩ (.idiv .ecx)).bind
    (Scratch.run? · []) = _
  rw [divided]
  rfl

theorem completes_result {code : List Instr} {word : Int32} (atop : b.Atop base s)
    (fewer : words.length < b.words.length)
    (h : image.Completes full code s fun s' => ∃ b', Scratch.Atop b' base s' ∧ b'.words = words ∧
      b'.eax = word) :
    image.Completes full (code ++ [.push (.reg .eax)]) s fun s' => ∃ b', Scratch.Atop b' base s' ∧
      b'.words = word :: words := by
  refine h.append fun s₁ ⟨b₁, atop₁, same, result⟩ => ?_
  have room : -0x80000000 ≤ (s₁.reg .esp).toInt - 4 := by
    have least := Int32.le_toInt (s.reg .esp)
    have top := atop.esp
    have top₁ := atop₁.esp
    rw [same] at top₁
    omega
  have read : s₁.next.read (.reg .eax) = .ok b₁.eax := congrArg Except.ok atop₁.eax
  refine (Scratch.completes_push (.inr room) atop₁ rfl read).mono fun _ h => ⟨_, h, ?_⟩
  rw [← same, ← result]
  rfl

theorem completes_operation {id : Nat} {operator : Operator} {x y word : Int32} (atop : b.Atop base s)
    (eq : b.words = y :: x :: words) (result : operator.result? x y = some word) :
    (operation id operator).Completes image full s fun _ s' => ∃ b', Scratch.Atop b' base s' ∧
      b'.words = word :: words := by
  obtain ⟨_, eax, ecx, edx, order⟩ := b
  cases eq
  have fewer : words.length < (y :: x :: words).length := by
    rw [length_cons, length_cons]
    omega
  have binary (instr : Instr) (still : ∀ source, .push source ≠ instr)
      (ran : Scratch.run? ⟨y :: x :: words, eax, ecx, edx, order⟩ [.pop .edx, .pop .eax, instr] =
        some ⟨words, word, ecx, y, order⟩) :
      (Lowered.emit [.pop .edx, .pop .eax, instr, .push (.reg .eax)]).Completes image full s
        fun _ s' => ∃ b', Scratch.Atop b' base s' ∧ b'.words = word :: words := by
    have done := @Scratch.completes_run _ _ image full base s _ (.inr (by simpa using still)) atop ran
    exact Lowered.completes_emit (@completes_result image full _ base s words
      [.pop .edx, .pop .eax, instr] word atop fewer (done.mono fun _ h => ⟨_, h, rfl, rfl⟩))
  cases operator with
  | plus =>
    cases result
    exact binary (.add (.reg .edx) (.reg .eax)) (by simp) rfl
  | minus =>
    cases result
    exact binary (.sub (.reg .edx) (.reg .eax)) (by simp) rfl
  | star =>
    cases result
    exact binary (.imul (.reg .edx) .eax) (by simp) rfl
  | slash =>
    simp only [Operator.result?] at result
    split at result
    next => cases result
    next nonzero =>
      cases result
      obtain ⟨rest, ran⟩ := @run?_division words x y ecx edx eax order nonzero
      have done := @Scratch.completes_run _ _ image full base s _ (.inr (by simp)) atop ran
      exact Lowered.completes_emit (@completes_result image full _ base s words
        [.pop .ecx, .pop .eax, .cltd, .idiv .ecx] _ atop fewer (done.mono fun _ h => ⟨_, h, rfl, rfl⟩))
  | caret =>
    cases result
    exact Lowered.completes_emit (completes_result atop fewer (completes_power atop rfl))
  | equal | same | notEqual | less | lessEqual | greater | greaterEqual => cases result

end Operations

/-- The word that a literal stands for: its number, or the address of its string. -/
def Literal.word? (image : Image) (literal : Literal) : Option Int32 :=
  match literal.type with
  | .int => Text.int32? literal.text.toList
  | .string => do
    let label ← literal.label
    let datum ← image.data.find? (·.label == label)
    return datum.address
  | .float => none

namespace Machine.State

mutual

/-- The word that an expression evaluates to in a state: everything it reads has been written, its
indices are within the dimensions, and it does not divide by zero. -/
def word? (image : Image) (table : Array Variable) (s : State) : Node → Option Int32
  | ⟨_, _, .literal literal, _⟩ => literal.word? image
  | ⟨_, _, .reference n, indices⟩ => do
    let v ← table[n]?
    let address ← v.address
    let numbers ← (← words? image table s indices).mapM index?
    let k ← Shape.offset? v.dims numbers
    s.memory[elementAt (s.reg .ebp) address k]?
  | ⟨_, _, .operator operator _, [lhs, rhs]⟩ => do
    operator.result? (← word? image table s lhs) (← word? image table s rhs)
  | _ => none

def words? (image : Image) (table : Array Variable) (s : State) : List Node → Option (List Int32)
  | [] => some []
  | node :: nodes => do
    let word ← word? image table s node
    let words ← words? image table s nodes
    return word :: words

end

theorem words?_eq_mapM (image : Image) (table : Array Variable) (s : State) (nodes : List Node) :
    s.words? image table nodes = nodes.mapM (s.word? image table) := by
  induction nodes with
  | nil => rw [words?, mapM_nil]; rfl
  | cons node nodes ih => rw [words?, ih, mapM_cons]

end Machine.State

namespace Node

mutual

/-- How many words an expression needs on the stack. -/
def temporaries : Node → Nat
  | ⟨_, _, .operator _ _, [lhs, rhs]⟩ => max (temporaries lhs) (1 + temporaries rhs)
  | ⟨_, _, .reference _, indices⟩ => max 1 (temporariesAll indices)
  | _ => 1

/-- How many words expressions need on the stack, each of which leaves its word there. -/
def temporariesAll : List Node → Nat
  | [] => 0
  | node :: nodes => max (temporaries node) (1 + temporariesAll nodes)

end

end Node

namespace Scratch

/-- Words have been left on the stack. -/
def Left (b : Scratch) (base : State) (words : List Int32) (s : State) : Prop :=
  ∃ b', Scratch.Atop b' base s ∧ b'.words = words ++ b.words

/-- There is room for some more words, unless the stack may be full. -/
def Room (b : Scratch) (full : Prop) (base : State) (n : Nat) : Prop :=
  full ∨ -0x80000000 ≤ (base.reg .esp).toInt - 4 * (b.words.length + n)

/-- The place of an element has been found. -/
def Found (b : Scratch) (base : State) (v : Variable) (k : Nat) (operand : Operand) (s : State) :
    Prop :=
  ∃ b' address, Scratch.Atop b' base s ∧ b'.words = b.words ∧ v.address = some address ∧
    k < Shape.count v.dims ∧
      operand.Locates (base.reg .ebp) b'.edx (elementAt (base.reg .ebp) address k)

variable {full : Prop} {b b' : Scratch} {base s : State} {n m : Nat}

theorem Room.of_le (h : b.Room full base n) (le : b'.words.length + m ≤ b.words.length + n) :
    b'.Room full base m :=
  h.imp_right fun fits => by omega

theorem Room.top (h : b.Room full base n) (positive : 0 < n) (atop : b.Atop base s) :
    full ∨ -0x80000000 ≤ (s.reg .esp).toInt - 4 := by
  have top := atop.esp
  exact h.imp_right fun fits => by omega

end Scratch

/-- The cells of the variables in `visible` are not below the top of the stack. -/
def Above (table : Array Variable) (visible : List Nat) (s : State) : Prop :=
  ∀ n ∈ visible, ∀ v address k, table[n]? = some v → v.address = some address →
    k < Shape.count v.dims → (s.reg .esp).toInt ≤ (elementAt (s.reg .ebp) address k).toInt

section Evaluation

open Node (IsExpression IsReference)

variable {image : Image} {full : Prop} {table : Array Variable} {strings : Array Literal} {n k : Nat}
  {visible : List Nat} {b : Scratch} {base s : State} {node : Node} {nodes indices : List Node}
  {word : Int32} {words : List Int32} {v : Variable}

theorem completes_literal {literal : Literal} (evaluated : literal.word? image = some word)
    (atop : b.Atop base s) (room : b.Room full base 1) :
    (Lower.literal literal).Completes image full s fun _ => b.Left base [word] := by
  unfold Literal.word? at evaluated
  unfold Lower.literal
  split at evaluated
  next isInt =>
    have known : integerValue literal = pure word := by
      rw [integerValue, evaluated]
    simp only [isInt, known, pure_bind]
    exact Lowered.completes_emit ((Scratch.completes_push (room.top Nat.one_pos atop) atop rfl rfl).mono
      fun _ h => ⟨_, h, rfl⟩)
  next isText =>
    obtain ⟨label, labelled, evaluated⟩ := Option.bind_eq_some_iff.mp evaluated
    obtain ⟨datum, found, evaluated⟩ := Option.bind_eq_some_iff.mp evaluated
    cases evaluated
    have resolved : operandOf image.data (.addr label) = some (.imm datum.address) := by
      rw [operandOf, found]
      rfl
    simp only [isText, labelled]
    exact Lowered.completes_emit ((Scratch.completes_push (room.top Nat.one_pos atop) atop resolved
      rfl).mono fun _ h => ⟨_, h, rfl⟩)
  next => cases evaluated

theorem completes_expressions (h : ∀ node ∈ nodes, ∀ word b s, base.word? image table node = some word →
      Scratch.Atop b base s → b.Room full base node.temporaries →
      (expression table node).Completes image full s fun _ => b.Left base [word])
    (found : Forall₂ (fun node word => base.word? image table node = some word) nodes words)
    (atop : b.Atop base s) (room : b.Room full base (Node.temporariesAll nodes)) :
    (expressions table nodes).Completes image full s fun _ => b.Left base words.reverse := by
  induction found generalizing b s with
  | nil =>
    rw [expressions]
    exact Lowered.completes_pure ⟨b, atop, rfl⟩
  | @cons node word nodes words first _ ih =>
    rw [Node.temporariesAll] at room
    rw [expressions]
    refine Lowered.completes_bind (h node (mem_cons_self ..) word b s first atop
      (room.of_le (by omega))) ?_
    rintro _ s₁ ⟨b₁, atop₁, top⟩
    have room₁ : b₁.Room full base (Node.temporariesAll nodes) := by
      refine room.of_le ?_
      rw [top, length_append, length_singleton]
      omega
    refine (ih (fun other mem => h other (mem_cons_of_mem _ mem)) atop₁ room₁).mono ?_
    rintro _ s₂ ⟨b₂, atop₂, rest⟩
    refine ⟨b₂, atop₂, ?_⟩
    rw [rest, top, reverse_cons, append_assoc]

theorem completes_storage {pushed : Lowered Unit} {address : Nat} {numbers : List Nat}
    (place : v.address = some address) (counted : words.mapM index? = some numbers)
    (offset : Shape.offset? v.dims numbers = some k)
    (h : pushed.Completes image full s fun _ => b.Left base words.reverse) (atop : b.Atop base s)
    (length : words.length = indices.length) :
    (Lower.storage v (!indices.isEmpty) pushed).Completes image full s (b.Found base v k) := by
  have inside := Shape.offset?_lt offset
  unfold Lower.storage
  rw [place]
  cases indices with
  | nil =>
    cases eq_nil_of_length_eq_zero length
    cases counted
    have first : k = 0 := by
      have shape : v.dims = [] :=
        eq_nil_of_length_eq_zero (Shape.length_of_offset? offset).symm
      rw [shape] at offset
      exact (Option.some.inj offset).symm
    subst first
    exact Lowered.completes_pure ⟨b, address, atop, rfl, place, inside, locates_scalar ..⟩
  | cons index indices =>
    refine Lowered.completes_bind h ?_
    rintro _ s₁ ⟨b₁, atop₁, rest⟩
    obtain ⟨_, eax, ecx, edx, order⟩ := b₁
    cases rest
    cases eq_ofNat_of_indices counted
    obtain ⟨last, ran⟩ := @Scratch.run?_elementOffset eax ecx edx order b.words v.dims numbers k offset
    have still : ∀ source, .push source ∉ elementOffset v.dims := by
      intro source mem
      simp only [elementOffset, mem_cons, reduceCtorEq, mem_flatMap, false_or] at mem
      obtain ⟨stride, -, mem⟩ := mem
      split at mem <;> simp at mem
    have summed : (Lowered.emit (elementOffset v.dims)).Completes image full s₁ fun _ =>
        Scratch.Atop ⟨b.words, last, ecx, Int32.ofNat k, order⟩ base :=
      Lowered.completes_emit (Scratch.completes_run (.inr still) atop₁ ran)
    refine Lowered.completes_bind summed fun _ s₂ atop₂ => ?_
    exact Lowered.completes_pure ⟨_, address, atop₂, rfl, place, inside, locates_element ..⟩

theorem completes_expression (above : Above table visible base)
    (h : IsExpression table strings visible node) (evaluated : base.word? image table node = some word)
    (atop : b.Atop base s) (room : b.Room full base node.temporaries) :
    (expression table node).Completes image full s fun _ => b.Left base [word] := by
  induction h generalizing word b s with
  | integer | decimal | text =>
    rw [State.word?] at evaluated
    rw [expression]
    exact completes_literal evaluated atop room
  | @reference id line number v indices mem found length _ ih =>
    rw [State.word?] at evaluated
    simp only [found, Option.bind_eq_bind, Option.bind_some] at evaluated
    obtain ⟨address, place, evaluated⟩ := Option.bind_eq_some_iff.mp evaluated
    obtain ⟨words, below, evaluated⟩ := Option.bind_eq_some_iff.mp evaluated
    obtain ⟨numbers, counted, evaluated⟩ := Option.bind_eq_some_iff.mp evaluated
    obtain ⟨k, offset, held⟩ := Option.bind_eq_some_iff.mp evaluated
    rw [State.words?_eq_mapM] at below
    have below := mapM_eq_some_iff.mp below
    rw [Node.temporaries] at room
    rw [expression]
    split
    next => exact Lowered.completes_fail
    next =>
      rw [found]
      have located := completes_storage place counted offset
        (completes_expressions (fun index inside word b s => ih index inside) below atop
          (room.of_le (by omega))) atop below.length_eq.symm
      refine Lowered.completes_bind located fun operand s₁ => ?_
      rintro ⟨b₁, address', atop₁, same, place', inside, locates⟩
      cases place.symm.trans place'
      rw [← atop₁.memory _ (above number mem v address k found place inside)] at held
      obtain ⟨resolved, resolves, read⟩ := locates.read atop₁ held image.data
      have room₁ : b₁.Room full base 1 := room.of_le (by rw [same]; omega)
      exact Lowered.completes_emit ((Scratch.completes_push (room₁.top Nat.one_pos atop₁) atop₁ resolves
        read).mono fun _ h => ⟨_, h, congrArg (word :: ·) same⟩)
  | @operation id line operator type lhs rhs _ _ _ ihl ihr =>
    rw [State.word?] at evaluated
    obtain ⟨x, onLeft, evaluated⟩ := Option.bind_eq_some_iff.mp evaluated
    obtain ⟨y, onRight, result⟩ := Option.bind_eq_some_iff.mp evaluated
    rw [Node.temporaries] at room
    rcases float_or_text_or type with rfl | rfl | ⟨noFloat, noText⟩
    · rw [expression]
      exact Lowered.completes_fail
    · rw [expression]
      exact Lowered.completes_fail
    · rw [expression_operation noFloat noText]
      refine Lowered.completes_bind (ihl onLeft atop (room.of_le (by omega))) ?_
      rintro _ s₁ ⟨b₁, atop₁, top₁⟩
      have room₁ : b₁.Room full base rhs.temporaries := by
        refine room.of_le ?_
        rw [top₁, length_append, length_singleton]
        omega
      refine Lowered.completes_bind (ihr onRight atop₁ room₁) ?_
      rintro _ s₂ ⟨b₂, atop₂, top₂⟩
      exact completes_operation atop₂ (top₂.trans (congrArg _ top₁)) result

end Evaluation

/-- A value has been left on top of the stack. -/
def Scratch.Pushed (image : Image) (b : Scratch) (base : State) (value : Value) (s : State) : Prop :=
  ∃ b' word, Scratch.Atop b' base s ∧ Depicts image value word ∧ b'.words = word :: b.words

section Values

open Node (IsExpression IsReference values? value? cell? element?)

variable {image : Image} {symbols table : Array Variable} {strings : Array Literal} {reserved n k : Nat}
  {visible : List Nat} {w : World} {b : Scratch} {base s : State} {node : Node}
  {nodes : List Node} {value : Value} {values : List Value}

theorem forall₂_of_values? {store : Store} (h : values? symbols store nodes = some values) :
    Forall₂ (fun node value => value? symbols store node = some value) nodes values := by
  have all : ∀ nodes, values? symbols store nodes = nodes.mapM (value? symbols store) := by
    intro nodes
    induction nodes with
    | nil => rw [values?, mapM_nil]; rfl
    | cons node nodes ih => rw [values?, ih, mapM_cons]
  exact mapM_eq_some_iff.mp (all nodes ▸ h)

theorem Mirrors.above_visible (h : Mirrors image table reserved visible w s)
    (storage : Storage table reserved visible) : Above table visible s := by
  intro n mem v address k found place inside
  rw [h.ebp]
  exact h.above storage mem found place inside

theorem exists_words (h : ∀ node ∈ nodes, ∀ value, value? symbols w.store node = some value →
      ∃ word, base.word? image table node = some word ∧ Depicts image value word)
    (found : Forall₂ (fun node value => value? symbols w.store node = some value) nodes values) :
    ∃ words, Forall₂ (fun node word => base.word? image table node = some word) nodes words ∧
      Forall₂ (Depicts image) values words := by
  induction found with
  | nil => exact ⟨[], .nil, .nil⟩
  | @cons node value nodes values first _ ih =>
    obtain ⟨word, evaluated, depicts⟩ := h node (mem_cons_self ..) value first
    obtain ⟨words, all, depict⟩ := ih fun other mem => h other (mem_cons_of_mem _ mem)
    exact ⟨word :: words, .cons evaluated all, .cons depicts depict⟩

theorem mapM_index?_eq {words : List Int32} {numbers : List Nat}
    (depict : Forall₂ (Depicts image) values words)
    (counted : values.mapM Value.index? = some numbers) : words.mapM index? = some numbers := by
  induction depict generalizing numbers with
  | nil => exact counted
  | cons depicts _ ih =>
    rw [mapM_cons] at counted ⊢
    obtain ⟨i, first, counted⟩ := Option.bind_eq_some_iff.mp counted
    obtain ⟨rest, others, counted⟩ := Option.bind_eq_some_iff.mp counted
    rw [depicts.index?_eq first, ih others]
    exact counted

variable (suits : Suits image symbols table strings) (storage : Storage table reserved visible)
  (mirrors : Mirrors image table reserved visible w base)

include suits storage mirrors

theorem exists_word (h : IsExpression table strings visible node) (evaluated : value? symbols w.store node = some value) :
    ∃ word, base.word? image table node = some word ∧ Depicts image value word := by
  induction h generalizing value with
  | integer =>
    rw [value?] at evaluated
    obtain ⟨word, read, rfl⟩ := Option.map_eq_some_iff.mp evaluated
    exact ⟨word, by rw [State.word?]; exact read, .int⟩
  | decimal =>
    rw [value?] at evaluated
    cases evaluated
  | text found isText =>
    rw [value?, Literal.value?, isText.type] at evaluated
    obtain ⟨cs, characters, rfl⟩ := Option.map_eq_some_iff.mp evaluated
    obtain ⟨datum, labelled, string⟩ := suits.texts _ _ cs found characters
    refine ⟨datum.address, ?_, .text string⟩
    rw [State.word?, Literal.word?, isText.type, isText.label]
    simp only [Option.bind_eq_bind, Option.bind_some, labelled]
    rfl
  | @reference id line number v indices mem found length _ ih =>
    rw [value?] at evaluated
    obtain ⟨values, below, evaluated⟩ := Option.bind_eq_some_iff.mp evaluated
    obtain ⟨k, element, written⟩ := Option.bind_eq_some_iff.mp evaluated
    rw [element?_eq suits.shapes found] at element
    obtain ⟨numbers, counted, offset⟩ := Option.bind_eq_some_iff.mp element
    obtain ⟨words, all, depict⟩ := exists_words (fun index inside value => ih index inside)
      (forall₂_of_values? below)
    obtain ⟨v', address, found', place, _⟩ := storage.inside number mem
    cases found.symm.trans found'
    obtain ⟨word, held, depicts⟩ := mirrors.cells number mem v address k value found place
      (Shape.offset?_lt offset) written
    refine ⟨word, ?_, depicts⟩
    rw [State.word?, State.words?_eq_mapM, mapM_eq_some_iff.mpr all]
    simp only [found, place, Option.bind_eq_bind, Option.bind_some, mapM_index?_eq depict counted,
      offset, mirrors.ebp]
    exact held
  | @operation id line operator type lhs rhs _ _ _ ihl ihr =>
    rw [value?] at evaluated
    obtain ⟨left, onLeft, evaluated⟩ := Option.bind_eq_some_iff.mp evaluated
    obtain ⟨x, isInt, evaluated⟩ := Option.bind_eq_some_iff.mp evaluated
    obtain ⟨right, onRight, evaluated⟩ := Option.bind_eq_some_iff.mp evaluated
    obtain ⟨y, isInt', evaluated⟩ := Option.bind_eq_some_iff.mp evaluated
    obtain ⟨word, result, rfl⟩ := Option.map_eq_some_iff.mp evaluated
    obtain ⟨x', found, depicts⟩ := ihl onLeft
    obtain ⟨y', found', depicts'⟩ := ihr onRight
    cases depicts.eq_of_int? isInt
    cases depicts'.eq_of_int? isInt'
    refine ⟨word, ?_, .int⟩
    rw [State.word?, found, found']
    exact result

theorem does_expression (h : IsExpression table strings visible node) (evaluated : value? symbols w.store node = some value)
    (atop : b.Atop base s) :
    (expression table node).Does image s fun _ => b.Pushed image base value := by
  obtain ⟨word, found, depicts⟩ := exists_word suits storage mirrors h evaluated
  refine (completes_expression (mirrors.above_visible storage) h found atop (.inl trivial)).mono ?_
  rintro _ s' ⟨b', atop', top⟩
  exact ⟨b', word, atop', depicts, top⟩

theorem does_expressions (h : ∀ node ∈ nodes, IsExpression table strings visible node)
    (evaluated : Forall₂ (fun node value => value? symbols w.store node = some value) nodes values)
    (atop : b.Atop base s) :
    ∃ words, Forall₂ (Depicts image) values words ∧
      (expressions table nodes).Does image s fun _ => b.Left base words.reverse := by
  obtain ⟨words, all, depict⟩ := exists_words (fun node mem value =>
    exists_word suits storage mirrors (h node mem)) evaluated
  refine ⟨words, depict, completes_expressions (fun node mem word b s found atop room => ?_) all atop
    (.inl trivial)⟩
  exact completes_expression (mirrors.above_visible storage) (h node mem) found atop room

/-- Code for the place of a variable leads to the element it names. -/
theorem does_place (h : IsReference table strings visible node)
    (found : cell? symbols w.store node = some (n, k)) (atop : b.Atop base s) :
    n ∈ visible ∧ ∃ v, table[n]? = some v ∧ (Lower.place table node).Does image s (b.Found base v k) := by
  obtain ⟨isExpression, number, eq⟩ := h
  cases isExpression with
  | @reference id line number v indices mem stored length isIndex =>
    rw [cell?] at found
    obtain ⟨values, below, found⟩ := Option.bind_eq_some_iff.mp found
    obtain ⟨k', element, found⟩ := Option.bind_eq_some_iff.mp found
    cases found
    rw [element?_eq suits.shapes stored] at element
    obtain ⟨numbers, counted, offset⟩ := Option.bind_eq_some_iff.mp element
    obtain ⟨v', address, stored', place, _⟩ := storage.inside _ mem
    cases stored.symm.trans stored'
    obtain ⟨words, depict, pushed⟩ := does_expressions suits storage mirrors isIndex
      (forall₂_of_values? below) atop
    refine ⟨mem, v, stored, ?_⟩
    unfold Lower.place
    simp only [stored, Option.getD_some]
    refine completes_storage place (mapM_index?_eq depict counted) offset pushed atop ?_
    rw [← depict.length_eq, (forall₂_of_values? below).length_eq]
  | _ => cases eq

end Values

end LineBasic
