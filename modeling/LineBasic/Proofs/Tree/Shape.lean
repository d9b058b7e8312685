import LineBasic.Tree.Variable
import Mathlib.Data.List.Forall2

/-!
The layout of an array, whose elements lie in the order of their indices.
-/

namespace LineBasic.Shape

open List

variable {dims indices first second : List Nat} {k l size : Nat}

theorem size?_eq_some (h : size? dims = some size) :
    size = wordSize * count dims ∧ size ≤ maxFrameSize := by
  have product : ∀ (dims : List Nat) (start stop : Nat),
      dims.foldlM (fun (size dim : Nat) =>
        if dim < 0x100000000 ∧ size * dim < 0x100000000 then some (size * dim) else none) start =
          some stop → stop = start * count dims := by
    intro dims
    induction dims with
    | nil =>
      intro start stop h
      simpa using h.symm
    | cons dim dims ih =>
      intro start stop h
      rw [foldlM_cons] at h
      obtain ⟨next, h₁, h⟩ := Option.bind_eq_some_iff.mp h
      split at h₁
      next =>
        cases h₁
        rw [ih _ _ h, count_cons, Nat.mul_assoc]
      next => cases h₁
  obtain ⟨h, bound⟩ := Option.filter_eq_some_iff.mp h
  exact ⟨product dims wordSize size h, by simpa using bound⟩

theorem count_pos (positive : ∀ dim ∈ dims, 0 < dim) : 0 < count dims := by
  induction dims with
  | nil => exact Nat.one_pos
  | cons dim dims ih =>
    obtain ⟨first, rest⟩ := forall_mem_cons.mp positive
    exact Nat.mul_pos first (ih rest)

/-- No count on the way exceeds the last one, so counting in 32 bits fails for it only. -/
theorem size?_eq (positive : ∀ dim ∈ dims, 0 < dim) : size? dims =
    if wordSize * count dims ≤ maxFrameSize then some (wordSize * count dims) else none := by
  have product : ∀ (dims : List Nat) (start : Nat), (∀ dim ∈ dims, 0 < dim) → 0 < start →
      start < 0x100000000 → dims.foldlM (fun (size dim : Nat) =>
        if dim < 0x100000000 ∧ size * dim < 0x100000000 then some (size * dim) else none) start =
          if start * count dims < 0x100000000 then some (start * count dims) else none := by
    intro dims
    induction dims with
    | nil =>
      intro start _ _ small
      simp [small]
    | cons dim dims ih =>
      intro start positive started small
      obtain ⟨first, rest⟩ := forall_mem_cons.mp positive
      rw [foldlM_cons, count_cons, ← Nat.mul_assoc]
      have inner : start * dim ≤ start * dim * count dims :=
        Nat.le_mul_of_pos_right _ (count_pos rest)
      have outer : dim ≤ start * dim := Nat.le_mul_of_pos_left _ started
      by_cases fits : start * dim < 0x100000000
      · rw [if_pos ⟨Nat.lt_of_le_of_lt outer fits, fits⟩]
        exact ih _ rest (Nat.mul_pos started first) fits
      · rw [if_neg fun h => fits h.2, if_neg (by omega)]
        rfl
  have counted := product dims wordSize positive (by decide) (by decide)
  have bound : maxFrameSize = 0x7fffffff := rfl
  unfold size?
  dsimp only
  rw [counted]
  split
  next => simp [Option.filter]
  next large =>
    rw [if_neg (by omega)]
    rfl

theorem offset?_cons {dim : Nat} : offset? (dim :: dims) indices = some k ↔
    ∃ index rest inner, indices = index :: rest ∧ index < dim ∧ offset? dims rest = some inner ∧
      k = index * count dims + inner := by
  constructor
  · intro h
    cases indices with
    | nil => cases h
    | cons index rest =>
      rw [offset?] at h
      split at h
      next bound =>
        obtain ⟨inner, found, eq⟩ := Option.map_eq_some_iff.mp h
        exact ⟨index, rest, inner, rfl, bound, found, eq.symm⟩
      next => cases h
  · rintro ⟨index, rest, inner, rfl, bound, found, rfl⟩
    rw [offset?, if_pos bound, found]
    rfl

theorem offset?_nil : offset? [] indices = some k ↔ indices = [] ∧ k = 0 := by
  cases indices with
  | nil => simp [offset?, eq_comm]
  | cons => simp [offset?]

theorem length_of_offset? (h : offset? dims indices = some k) : indices.length = dims.length := by
  induction dims generalizing indices k with
  | nil => rw [(offset?_nil.mp h).1]
  | cons dim dims ih =>
    obtain ⟨index, rest, inner, rfl, _, found, _⟩ := offset?_cons.mp h
    simp [ih found]

theorem offset?_lt (h : offset? dims indices = some k) : k < count dims := by
  induction dims generalizing indices k with
  | nil =>
    rw [(offset?_nil.mp h).2]
    exact Nat.one_pos
  | cons dim dims ih =>
    obtain ⟨index, rest, inner, rfl, bound, found, rfl⟩ := offset?_cons.mp h
    have := ih found
    calc index * count dims + inner < (index + 1) * count dims := by
          rw [Nat.succ_mul]
          omega
      _ ≤ dim * count dims := Nat.mul_le_mul_right _ bound

theorem index_lt_count (h : offset? dims indices = some k) :
    ∀ index ∈ indices, index < count dims := by
  induction dims generalizing indices k with
  | nil => simp [(offset?_nil.mp h).1]
  | cons dim dims ih =>
    obtain ⟨index, rest, inner, rfl, bound, found, _⟩ := offset?_cons.mp h
    have positive : 0 < count dims := Nat.zero_lt_of_lt (offset?_lt found)
    intro other mem
    rcases mem_cons.mp mem with rfl | mem
    · exact Nat.lt_of_lt_of_le bound (Nat.le_mul_of_pos_right dim positive)
    · have := ih found other mem
      exact Nat.lt_of_lt_of_le this (Nat.le_mul_of_pos_left _ (Nat.zero_lt_of_lt bound))

theorem isSome_offset? : (offset? dims indices).isSome ↔ Forall₂ (· < ·) indices dims := by
  induction dims generalizing indices with
  | nil => cases indices <;> simp [offset?, forall₂_nil_right_iff]
  | cons dim dims ih =>
    cases indices with
    | nil => simp [offset?, forall₂_nil_left_iff]
    | cons index indices =>
      rw [offset?, forall₂_cons, ← ih]
      by_cases bound : index < dim <;> simp [bound]

theorem offset?_eq_sum (h : offset? dims indices = some k) :
    k = (List.zipWith (· * ·) indices (strides dims)).foldr (· + ·) 0 := by
  induction dims generalizing indices k with
  | nil => simp [offset?_nil.mp h]
  | cons dim dims ih =>
    obtain ⟨index, rest, inner, rfl, _, found, rfl⟩ := offset?_cons.mp h
    simp [strides, ← ih found]

theorem getElem?_strides (dims : List Nat) (i : Nat) :
    (strides dims)[i]? = dims[i]?.map fun _ => count (dims.drop (i + 1)) := by
  induction dims generalizing i with
  | nil => rfl
  | cons dim dims ih =>
    cases i with
    | zero => rfl
    | succ i => exact ih i

theorem stride_le_count (positive : ∀ dim ∈ dims, 0 < dim) :
    ∀ stride ∈ strides dims, stride ≤ count dims := by
  induction dims with
  | nil => simp [strides]
  | cons dim dims ih =>
    obtain ⟨outer, rest⟩ := forall_mem_cons.mp positive
    have inner : count dims ≤ dim * count dims := Nat.le_mul_of_pos_left _ outer
    refine forall_mem_cons.mpr ⟨inner, fun stride mem => ?_⟩
    exact Nat.le_trans (ih rest stride mem) inner

theorem offset?_lt_offset? (h₁ : offset? dims first = some k) (h₂ : offset? dims second = some l) :
    List.Lex (· < ·) first second ↔ k < l := by
  induction dims generalizing first second k l with
  | nil =>
    obtain ⟨rfl, rfl⟩ := offset?_nil.mp h₁
    obtain ⟨rfl, rfl⟩ := offset?_nil.mp h₂
    exact ⟨nofun, nofun⟩
  | cons dim dims ih =>
    obtain ⟨i, is, a, rfl, _, found₁, rfl⟩ := offset?_cons.mp h₁
    obtain ⟨j, js, b, rfl, _, found₂, rfl⟩ := offset?_cons.mp h₂
    have below : ∀ {i j a b : Nat}, i < j → a < count dims →
        i * count dims + a < j * count dims + b := by
      intro i j a b less inside
      have := Nat.mul_le_mul_right (count dims) (Nat.succ_le_of_lt less)
      rw [Nat.succ_mul] at this
      omega
    rw [cons_lex_cons_iff]
    rcases Nat.lt_trichotomy i j with less | rfl | more
    · simp [less, below less (offset?_lt found₁)]
    · rw [ih found₁ found₂]
      omega
    · have := @below j i b a more (offset?_lt found₂)
      constructor
      · rintro (less | ⟨same, _⟩) <;> omega
      · intro less
        omega

theorem exists_offset? (h : k < count dims) : ∃ indices, offset? dims indices = some k := by
  induction dims generalizing k with
  | nil => exact ⟨[], offset?_nil.mpr ⟨rfl, Nat.lt_one_iff.mp h⟩⟩
  | cons dim dims ih =>
    have positive : 0 < count dims := Nat.pos_of_ne_zero fun zero => by simp [zero] at h
    obtain ⟨rest, found⟩ := ih (Nat.mod_lt k positive)
    refine ⟨k / count dims :: rest, offset?_cons.mpr ⟨_, rest, _, rfl, ?_, found, ?_⟩⟩
    · exact (Nat.div_lt_iff_lt_mul positive).mpr h
    · rw [Nat.mul_comm, Nat.div_add_mod]

/-- How an array of a known size in bytes lies in storage: its elements are numbered in the order of
their indices, without gaps, and each has a word of its own below the size. -/
structure IsLayout (dims : List Nat) (size : Nat) : Prop where
  strides (i : Nat) : (Shape.strides dims)[i]? = dims[i]?.map fun _ => count (dims.drop (i + 1))
  small : ∀ stride ∈ Shape.strides dims, stride ≤ 0x20000000
  inside (indices : List Nat) :
    (offset? dims indices).isSome ↔ Forall₂ (· < ·) indices dims
  rowMajor (indices : List Nat) (k : Nat) : offset? dims indices = some k →
    k = (List.zipWith (· * ·) indices (Shape.strides dims)).foldr (· + ·) 0
  ordered (first second : List Nat) (k l : Nat) : offset? dims first = some k →
    offset? dims second = some l → (List.Lex (· < ·) first second ↔ k < l)
  bijective (k : Nat) : k < count dims ↔ ∃! indices, offset? dims indices = some k
  stored (indices : List Nat) (k : Nat) : offset? dims indices = some k →
    wordSize * k + wordSize ≤ size

theorem isLayout_of_size? (positive : ∀ dim ∈ dims, 0 < dim) (h : size? dims = some size) :
    IsLayout dims size where
  strides := getElem?_strides dims
  small stride mem := by
    obtain ⟨eq, bound⟩ := size?_eq_some h
    have := stride_le_count positive stride mem
    simp only [wordSize, maxFrameSize] at eq bound
    omega
  inside _ := isSome_offset?
  rowMajor _ _ := offset?_eq_sum
  ordered _ _ _ _ := offset?_lt_offset?
  bijective k := by
    constructor
    · intro inside
      obtain ⟨indices, found⟩ := exists_offset? inside
      refine ⟨indices, found, fun other found' => ?_⟩
      have distinct {first second : List Nat} (h₁ : offset? dims first = some k)
          (h₂ : offset? dims second = some k) : ¬ List.Lex (· < ·) first second := fun less =>
        Nat.lt_irrefl k ((offset?_lt_offset? h₁ h₂).mp less)
      exact lex_trichotomous (by omega) (distinct found found') (distinct found' found)
    · rintro ⟨indices, found, _⟩
      exact offset?_lt found
  stored indices k found := by
    have := offset?_lt found
    have eq := (size?_eq_some h).1
    simp only [wordSize] at eq ⊢
    omega

/-- The size of an array is that of its elements, if a frame can hold them, however the dimensions are
ordered; and then the array has a layout. -/
theorem array_layout (dims : List Nat) (positive : ∀ dim ∈ dims, 0 < dim) :
    size? dims =
        (if wordSize * count dims ≤ maxFrameSize then some (wordSize * count dims) else none) ∧
      ∀ size, size? dims = some size → IsLayout dims size :=
  ⟨size?_eq positive, fun _ => isLayout_of_size? positive⟩

/-- The largest array. A count beyond 32 bits in the middle has no size. -/
theorem array_layout_largest : (∀ dim ∈ [0x3ffffff, 8], 0 < dim) ∧
    size? [0x3ffffff, 8] = some 0x7fffffe0 ∧ IsLayout [0x3ffffff, 8] 0x7fffffe0 ∧
    size? [0x10000, 0x10000, 1] = none := by
  have positive : ∀ dim ∈ [0x3ffffff, 8], 0 < dim := by simp
  obtain ⟨size, layout⟩ := array_layout [0x3ffffff, 8] positive
  exact ⟨positive, size, layout _ size, (array_layout [0x10000, 0x10000, 1] (by simp)).1⟩

end LineBasic.Shape
