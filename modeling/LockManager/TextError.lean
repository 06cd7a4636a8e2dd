/-! Why a text does not name a lock mode or a resource. -/
namespace LockManager

inductive TextError
  | unknownMode (text : String)
  | emptySegment
  | separatorInSegment (segment : String)
  | emptySegmentInPath (path : String)
  deriving DecidableEq, Repr

def TextError.message : TextError → String
  | unknownMode text => "unknown lock type '" ++ text ++ "'"
  | emptySegment => "resource name segment is empty"
  | separatorInSegment segment => "resource name segment '" ++ segment ++ "' contains '/'"
  | emptySegmentInPath path => "resource name '" ++ path ++ "' contains an empty segment"

end LockManager
