import LockManager.Lock

/-! Why the lock table refuses a call. A refused call changes nothing. -/
namespace LockManager

inductive Rejection
  | alreadyHolds (txn : Txn) (resource : Resource)
  | alreadyInMode (txn : Txn) (mode : Mode) (resource : Resource)
  | notHeld (txn : Txn) (resource : Resource)
  | listedTwice (txn : Txn) (resource : Resource)
  | notStronger (wanted current : Mode) (resource : Resource)
  | tableDropped (context : Resource)
  deriving DecidableEq

def Rejection.message : Rejection → String
  | alreadyHolds txn resource => txn.text ++ " already holds a lock on " ++ resource.text
  | alreadyInMode txn mode resource =>
      txn.text ++ " already holds " ++ mode.text ++ " on " ++ resource.text
  | notHeld txn resource => txn.text ++ " holds no lock on " ++ resource.text
  | listedTwice txn resource =>
      resource.text ++ " is listed more than once for release by " ++ txn.text
  | notStronger wanted current resource =>
      wanted.text ++ " is not a promotion of " ++ current.text ++ " on " ++ resource.text
  | tableDropped context => "lock table behind context " ++ context.text ++ " was dropped"

end LockManager
