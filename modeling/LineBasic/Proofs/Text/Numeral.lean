import LineBasic.Text.Numeral

/-!
Numbers read back from the digits they are written with.
-/

namespace LineBasic.Text

theorem isDigit_of_mem_toString {n : Nat} {c : Char} (h : c ∈ (toString n).toList) : c.isDigit := by
  rw [Nat.toString_eq_ofList_toDigits, String.toList_ofList] at h
  exact Nat.isDigit_of_mem_toDigits (by decide) (by decide) h

theorem digits_toString (n : Nat) : ∃ d ds, (toString n).toList = d :: ds ∧ d.isDigit ∧
    ∀ c ∈ ds, c.isDigit := by
  have nonempty : (toString n).toList ≠ [] := by
    rw [Nat.toString_eq_ofList_toDigits, String.toList_ofList]
    exact Nat.toDigits_ne_nil
  obtain ⟨d, ds, eq⟩ := List.exists_cons_of_ne_nil nonempty
  have digit : ∀ c ∈ (toString n).toList, c.isDigit := fun c mem => isDigit_of_mem_toString mem
  rw [eq] at digit
  exact ⟨d, ds, eq, digit d (.head _), fun c mem => digit c (.tail _ mem)⟩

theorem natural?_toString (n : Nat) : natural? (toString n).toList = some n := by
  have digits : ∀ c ∈ Nat.toDigits 10 n, c.isDigit := fun c h =>
    Nat.isDigit_of_mem_toDigits (by decide) (by decide) h
  rw [Nat.toString_eq_ofList_toDigits, String.toList_ofList, natural?,
    if_pos ⟨Nat.toDigits_ne_nil, List.all_eq_true.mpr digits⟩]
  exact congrArg some Nat.ofDigitChars_ten_toDigits

theorem integer?_of_natural? {cs : List Char} {n : Nat} (h : natural? cs = some n) :
    integer? cs = some (n : Int) := by
  unfold integer?
  split
  next => simp [natural?] at h
  next => simp [natural?] at h
  next => simp [h]

theorem int32?_of_natural? {cs : List Char} {n : Nat} (h : natural? cs = some n)
    (bound : n < 0x80000000) : int32? cs = some (Int32.ofNat n) := by
  unfold int32?
  rw [integer?_of_natural? h]
  simp only
  rw [if_pos (by omega)]
  rfl

theorem integer?_toString (i : Int) : integer? (toString i).toList = some i := by
  rw [Int.toString_eq_repr]
  cases i with
  | ofNat n => exact integer?_of_natural? (natural?_toString n)
  | negSucc n =>
    have signed : (Int.negSucc n).repr.toList = '-' :: (toString n.succ).toList := by
      simp only [Int.repr, String.toList_append]
      rfl
    rw [signed]
    simp only [integer?, natural?_toString]
    rfl

theorem int32?_toString (w : Int32) : int32? (toString w.toInt).toList = some w := by
  unfold int32?
  rw [integer?_toString]
  have low := w.le_toInt
  have high := w.toInt_lt
  simp only
  rw [if_pos ⟨low, high⟩, Int32.ofInt_toInt]

end LineBasic.Text
