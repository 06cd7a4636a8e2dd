import LockManager.Mode
import LockManager.Resource
import LockManager.Txn

/-! A lock: a resource, the mode it is held or wanted in, and the transaction it belongs to. -/
namespace LockManager

structure Lock where
  resource : Resource
  mode : Mode
  owner : Txn
  deriving DecidableEq

namespace Lock

/-- Same owner on the same resource; the mode of a grant may change in place. -/
def sameGrant (a b : Lock) : Bool := a.owner = b.owner ∧ a.resource = b.resource

/-- Changes the mode of the first of these locks that is picked. -/
def switchFirst (mode : Mode) (picked : Lock → Bool) : List Lock → List Lock
  | [] => []
  | held :: later =>
      if picked held then { held with mode } :: later else held :: switchFirst mode picked later

def text (lock : Lock) : String :=
  lock.owner.text ++ ": " ++ lock.mode.text ++ "(" ++ lock.resource.text ++ ")"

def debugText (lock : Lock) : String :=
  "Lock \x7b name: " ++ lock.resource.debugText ++ ", lock_type: " ++ lock.mode.text ++
    ", transaction: " ++ lock.owner.debugText ++ " \x7d"

/-- Several locks on one line. -/
def listText (locks : List Lock) : String := String.intercalate ", " (locks.map text)

@[simp] theorem switchFirst_nil (mode : Mode) (picked : Lock → Bool) :
    switchFirst mode picked [] = [] := rfl

@[simp] theorem length_switchFirst (mode : Mode) (picked : Lock → Bool) (locks : List Lock) :
    (switchFirst mode picked locks).length = locks.length := by
  induction locks with
  | nil => rfl
  | cons held later ih =>
    rw [switchFirst]
    split
    · rfl
    · rw [List.length_cons, ih, List.length_cons]

theorem switchFirst_eq_nil_iff {mode : Mode} {picked : Lock → Bool} {locks : List Lock} :
    switchFirst mode picked locks = [] ↔ locks = [] := by
  rw [← List.length_eq_zero_iff, length_switchFirst, List.length_eq_zero_iff]

/-- Where at most one lock is picked, to change the first is to change all that are. -/
theorem switchFirst_eq_map {mode : Mode} {picked : Lock → Bool} {locks : List Lock}
    (single : locks.Pairwise fun a b => picked a = true → picked b = false) :
    switchFirst mode picked locks =
      locks.map fun held => if picked held then { held with mode } else held := by
  induction locks with
  | nil => rfl
  | cons held later ih =>
    obtain ⟨others, single⟩ := List.pairwise_cons.mp single
    rw [switchFirst, List.map_cons]
    split
    · next here =>
      have kept : (later.map fun held => if picked held then { held with mode } else held) = later :=
        (List.map_congr_left fun other member => by rw [others other member here]; rfl).trans
          (List.map_id _)
      rw [kept]
    · rw [ih single]

/-- Where at most one lock is picked, to take out the first is to take out all that are. -/
theorem eraseP_eq_filter {picked : Lock → Bool} {locks : List Lock}
    (single : locks.Pairwise fun a b => picked a = true → picked b = false) :
    locks.eraseP picked = locks.filter fun held => !picked held := by
  induction locks with
  | nil => rfl
  | cons held later ih =>
    obtain ⟨others, single⟩ := List.pairwise_cons.mp single
    cases here : picked held with
    | true =>
      rw [List.eraseP_cons_of_pos here, List.filter_cons_of_neg (by simp [here])]
      exact (List.filter_eq_self.mpr fun other member => by simp [others other member here]).symm
    | false =>
      rw [List.eraseP_cons_of_neg (by simp [here]), List.filter_cons_of_pos (by simp [here]),
        ih single]

end Lock
end LockManager
