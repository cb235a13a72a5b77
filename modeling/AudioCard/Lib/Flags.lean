import Mathlib.Data.Nat.Notation

/-! Bit flags packed into a byte: `f ||| m` sets the bits of the mask `m`, `f &&& ~~~m` clears them,
    and `isSet f m` asks whether one of them is set. Setting or clearing a mask is seen through that
    mask and not through a disjoint one. -/

namespace Flags

/-- Some bit of the mask `m` is set in `f`. -/
def isSet (f m : UInt8) : Bool := f &&& m != 0

@[simp] theorem isSet_zero (m : UInt8) : isSet 0 m = false := by
  simp [isSet]

theorem or_and_self (f m : UInt8) : (f ||| m) &&& m = m := by
  apply UInt8.eq_of_toBitVec_eq
  ext i hi
  simp only [UInt8.toBitVec_and, UInt8.toBitVec_or, BitVec.getElem_and, BitVec.getElem_or]
  cases f.toBitVec[i] <;> cases m.toBitVec[i] <;> rfl

theorem clear_and_self (f m : UInt8) : (f &&& ~~~m) &&& m = 0 := by
  apply UInt8.eq_of_toBitVec_eq
  ext i hi
  simp only [UInt8.toBitVec_and, UInt8.toBitVec_not, BitVec.getElem_and, BitVec.getElem_not]
  cases f.toBitVec[i] <;> cases m.toBitVec[i] <;> simp

/-- A bit of two disjoint masks is in at most one of them. -/
theorem getElem_disjoint {m n : UInt8} (h : m &&& n = 0) (i : ℕ) (hi : i < 8) :
    (m.toBitVec[i] && n.toBitVec[i]) = false := by
  have := congrArg (fun x : UInt8 => x.toBitVec[i]) h
  simpa only [UInt8.toBitVec_and, BitVec.getElem_and, UInt8.toBitVec_zero, BitVec.getElem_zero]
    using this

theorem or_and_disjoint (f : UInt8) {m n : UInt8} (h : m &&& n = 0) :
    (f ||| m) &&& n = f &&& n := by
  apply UInt8.eq_of_toBitVec_eq
  ext i hi
  have hd := getElem_disjoint h i hi
  simp only [UInt8.toBitVec_and, UInt8.toBitVec_or, BitVec.getElem_and, BitVec.getElem_or]
  cases hm : m.toBitVec[i] <;> cases hn : n.toBitVec[i] <;> simp_all

theorem clear_and_disjoint (f : UInt8) {m n : UInt8} (h : m &&& n = 0) :
    (f &&& ~~~m) &&& n = f &&& n := by
  apply UInt8.eq_of_toBitVec_eq
  ext i hi
  have hd := getElem_disjoint h i hi
  simp only [UInt8.toBitVec_and, UInt8.toBitVec_not, BitVec.getElem_and, BitVec.getElem_not]
  cases hm : m.toBitVec[i] <;> cases hn : n.toBitVec[i] <;> simp_all

theorem isSet_or_self (f : UInt8) {m : UInt8} (h : m ≠ 0) : isSet (f ||| m) m = true := by
  rw [isSet, or_and_self]
  exact bne_iff_ne.mpr h

theorem isSet_clear_self (f m : UInt8) : isSet (f &&& ~~~m) m = false := by
  rw [isSet, clear_and_self]
  rfl

theorem isSet_or_disjoint (f : UInt8) {m n : UInt8} (h : m &&& n = 0) :
    isSet (f ||| m) n = isSet f n := by
  rw [isSet, or_and_disjoint f h, isSet]

theorem isSet_clear_disjoint (f : UInt8) {m n : UInt8} (h : m &&& n = 0) :
    isSet (f &&& ~~~m) n = isSet f n := by
  rw [isSet, clear_and_disjoint f h, isSet]

end Flags
