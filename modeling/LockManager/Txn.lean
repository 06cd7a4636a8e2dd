import Std.Data.ExtTreeMap

/-! Transaction identifiers: 64-bit numbers, ordered by value. -/
namespace LockManager
open Std

structure Txn where
  id : UInt64
  deriving DecidableEq, Repr

namespace Txn

instance : Ord Txn := ⟨fun a b => compare a.id b.id⟩

instance : TransOrd Txn where
  eq_swap := OrientedOrd.eq_swap (α := UInt64)
  isLE_trans := TransOrd.isLE_trans (α := UInt64)

instance : LawfulEqOrd Txn where
  compare_self := ReflOrd.compare_self (α := UInt64)
  eq_of_compare {a b} same := by
    cases a; cases b; exact congrArg Txn.mk (LawfulEqOrd.eq_of_compare same)

def text (txn : Txn) : String := "T" ++ toString txn.id.toNat

def debugText (txn : Txn) : String := "TransactionId(" ++ toString txn.id.toNat ++ ")"

end Txn
end LockManager
