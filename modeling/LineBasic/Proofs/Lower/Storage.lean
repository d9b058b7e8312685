import LineBasic.Proofs.Lower.Emission
import LineBasic.Proofs.Machine.State

/-!
Where the variables of a frame lie, apart from each other within what the blocks have reserved.
-/

namespace LineBasic

open List Machine

/-- The frame pointer while a program runs: the return address and its own old value lie above. -/
def frameBase : Int32 := stackTop - 8

theorem toInt_stackTop : stackTop.toInt = 1048576 := by
  decide

theorem toInt_frameBase : frameBase.toInt = 1048568 := by
  decide

def cell (address k : Nat) : Int32 :=
  frameBase + -Int32.ofNat address + Int32.ofNat k * Int32.ofNat wordSize

/-- The address of element `k` of a variable that lies `address` bytes below `ebp`. -/
def elementAt (ebp : Int32) (address k : Nat) : Int32 :=
  ebp + -Int32.ofNat address + Int32.ofNat k * Int32.ofNat wordSize

theorem cell_eq (address k : Nat) : cell address k = elementAt frameBase address k := rfl

theorem toInt_elementAt {ebp : Int32} {address k : Nat} (low : -0x80000000 ≤ ebp.toInt - address)
    (inside : 4 * k ≤ address) : (elementAt ebp address k).toInt = ebp.toInt - address + 4 * k := by
  have high := Int32.toInt_lt ebp
  have start : (ebp + -Int32.ofNat address).toInt = ebp.toInt - address := by
    rw [← Int32.sub_eq_add_neg, toInt_sub_ofNat (by omega) (by omega)]
  have offset : Int32.ofNat k * Int32.ofNat wordSize = Int32.ofNat (4 * k) := by
    rw [Nat.mul_comm, Int32.ofNat_mul]
    rfl
  rw [elementAt, offset, toInt_add_ofNat (by omega) (by omega), start]
  omega

theorem toInt_cell {address k : Nat} (bound : address ≤ maxFrameSize) (inside : 4 * k ≤ address) :
    (cell address k).toInt = 1048568 - address + 4 * k := by
  have base := toInt_frameBase
  unfold maxFrameSize at bound
  rw [cell_eq, toInt_elementAt (by omega) inside, base]

namespace Lower

variable {table : Array Variable} {top reserved n : Nat} {vars visible : List Nat} {v : Variable}

/-- The variables in `visible` lie apart from each other within the first `reserved` bytes. -/
structure Storage (table : Array Variable) (reserved : Nat) (visible : List Nat) : Prop where
  bound : reserved ≤ maxFrameSize
  inside : ∀ n ∈ visible, ∃ v address, table[n]? = some v ∧ v.address = some address ∧
    4 * Shape.count v.dims ≤ address ∧ address ≤ reserved
  apart : ∀ n ∈ visible, ∀ m ∈ visible, n ≠ m → ∀ v address w address',
    table[n]? = some v → v.address = some address → table[m]? = some w → w.address = some address' →
      address + 4 * Shape.count w.dims ≤ address' ∨ address' + 4 * Shape.count v.dims ≤ address

theorem bytesOf_eq {size : Nat} (found : table[n]? = some v) (h : v.size? = some size) :
    bytesOf table n = size := by
  unfold bytesOf
  rw [found]
  exact congrArg (Option.getD · 0) h

theorem frameSize_cons : frameSize table (n :: vars) = bytesOf table n + frameSize table vars := by
  simp [frameSize]

theorem Assigned.inside (h : Assigned table top vars) (mem : n ∈ vars) :
    ∃ v address, table[n]? = some v ∧ v.address = some address ∧
      top + 4 * Shape.count v.dims ≤ address ∧ address ≤ top + frameSize table vars := by
  induction vars generalizing top with
  | nil => cases mem
  | cons m vars ih =>
    obtain ⟨⟨v, size, found, hs, address, _⟩, rest⟩ := h
    have bytes := bytesOf_eq found hs
    obtain ⟨count, _⟩ := Shape.size?_eq_some hs
    rw [frameSize_cons]
    rcases mem_cons.mp mem with rfl | mem
    · have count : size = 4 * Shape.count v.dims := count
      exact ⟨v, top + size, found, address, by omega, by omega⟩
    · obtain ⟨w, address', found', eq, below, above⟩ := ih rest mem
      exact ⟨w, address', found', eq, by omega, by omega⟩

theorem Assigned.bound (h : Assigned table top vars) (start : top ≤ maxFrameSize) :
    top + frameSize table vars ≤ maxFrameSize := by
  induction vars generalizing top with
  | nil => exact start
  | cons m vars ih =>
    obtain ⟨⟨v, size, found, hs, _, le⟩, rest⟩ := h
    have bytes := bytesOf_eq found hs
    rw [frameSize_cons]
    have := ih rest (by omega)
    omega

theorem Assigned.apart (h : Assigned table top vars) {m : Nat} {w : Variable} {address address' : Nat}
    (mem : n ∈ vars) (mem' : m ∈ vars) (ne : n ≠ m) (found : table[n]? = some v)
    (eq : v.address = some address) (found' : table[m]? = some w) (eq' : w.address = some address') :
    address + 4 * Shape.count w.dims ≤ address' ∨ address' + 4 * Shape.count v.dims ≤ address := by
  induction vars generalizing top with
  | nil => cases mem
  | cons i vars ih =>
    obtain ⟨⟨u, size, foundHead, hs, addressHead, _⟩, rest⟩ := h
    have bytes := bytesOf_eq foundHead hs
    rcases mem_cons.mp mem with rfl | later
    · rcases mem_cons.mp mem' with rfl | later'
      · exact absurd rfl ne
      · obtain ⟨w', _, found'', eq'', below, _⟩ := rest.inside later'
        cases found'.symm.trans found''
        cases eq'.symm.trans eq''
        cases found.symm.trans foundHead
        cases eq.symm.trans addressHead
        exact .inl (by omega)
    · rcases mem_cons.mp mem' with rfl | later'
      · obtain ⟨v', _, found'', eq'', below, _⟩ := rest.inside later
        cases found.symm.trans found''
        cases eq.symm.trans eq''
        cases found'.symm.trans foundHead
        cases eq'.symm.trans addressHead
        exact .inr (by omega)
      · exact ih rest later later'

theorem storage_nil : Storage table 0 [] where
  bound := by decide
  inside := by simp
  apart := by simp

theorem Storage.enter (h : Storage table reserved visible) (assigned : Assigned table reserved vars) :
    Storage table (reserved + frameSize table vars) (vars ++ visible) where
  bound := assigned.bound h.bound
  inside n mem := by
    rcases mem_append.mp mem with mem | mem
    · obtain ⟨v, address, found, eq, below, above⟩ := assigned.inside mem
      exact ⟨v, address, found, eq, by omega, above⟩
    · obtain ⟨v, address, found, eq, below, above⟩ := h.inside n mem
      exact ⟨v, address, found, eq, below, by omega⟩
  apart n mem m mem' ne v address w address' found eq found' eq' := by
    rcases mem_append.mp mem with inner | outer <;>
      rcases mem_append.mp mem' with inner' | outer'
    · exact assigned.apart inner inner' ne found eq found' eq'
    · obtain ⟨v', _, found'', eq'', below, _⟩ := assigned.inside inner
      obtain ⟨w', _, found₃, eq₃, _, above⟩ := h.inside m outer'
      cases found.symm.trans found''
      cases eq.symm.trans eq''
      cases found'.symm.trans found₃
      cases eq'.symm.trans eq₃
      exact .inr (by omega)
    · obtain ⟨w', _, found'', eq'', below, _⟩ := assigned.inside inner'
      obtain ⟨v', _, found₃, eq₃, _, above⟩ := h.inside n outer
      cases found'.symm.trans found''
      cases eq'.symm.trans eq''
      cases found.symm.trans found₃
      cases eq.symm.trans eq₃
      exact .inl (by omega)
    · exact h.apart n outer m outer' ne v address w address' found eq found' eq'

theorem eq_nil_of_frameSize (h : Assigned table top vars) (size : frameSize table vars = 0)
    (positive : ∀ (n : Nat) (v : Variable), table[n]? = some v → 0 < Shape.count v.dims) : vars = [] := by
  cases vars with
  | nil => rfl
  | cons n vars =>
    obtain ⟨v, address, found, _, below, above⟩ := h.inside (mem_cons_self ..)
    have := positive n v found
    omega

end Lower

end LineBasic
