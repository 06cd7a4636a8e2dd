import LockManager.Lock

/-! A request that could not be granted when it was made. It names the transaction handle to wake
and the locks that its owner gives back once the wanted lock is granted. -/
namespace LockManager

structure Request where
  caller : Txn
  lock : Lock
  releases : List Lock
  deriving DecidableEq

namespace Request

def owner (request : Request) : Txn := request.lock.owner

def text (request : Request) : String :=
  "Request for " ++ request.lock.text ++
    if request.releases.isEmpty then ""
    else " (releasing " ++ Lock.listText request.releases ++ ")"

def debugText (request : Request) : String :=
  "LockRequest \x7b lock: " ++ request.lock.debugText ++ ", release_on_grant: [" ++
    String.intercalate ", " (request.releases.map Lock.debugText) ++ "] \x7d"

end Request
end LockManager
