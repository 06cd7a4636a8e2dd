import LockManager.Table.Views

/-! How much work the waiting requests of a table can still cause. Granting, releasing and pruning
never add to it, and taking a request off its queue uses up that request's share. -/
namespace LockManager
open Std

namespace Request

/-- Three for each deferred release and two for the commit and the next look at the queue. -/
def share (request : Request) : Nat := 3 * request.releases.length + 2

end Request

namespace Entry

def share (entry : Entry) : Nat := (entry.queue.map Request.share).foldr (· + ·) 0

@[simp] theorem share_grant (entry : Entry) (lock : Lock) :
    (entry.grant lock).share = entry.share := by
  simp [share]

@[simp] theorem share_remove (entry : Entry) (txn : Txn) :
    (entry.remove txn).share = entry.share := rfl

end Entry

namespace Table

def pending (table : Table) : Nat :=
  (table.entries.toList.map fun item => item.2.share).foldr (· + ·) 0

theorem nodup_toList (entries : ExtTreeMap Resource Entry) : entries.toList.Nodup :=
  entries.distinct_keys_toList.imp fun {a b} distinct same => by
    subst same; exact distinct ReflOrd.compare_self

theorem perm_toList_erase {entries : ExtTreeMap Resource Entry} {resource : Resource}
    {entry : Entry} (present : entries[resource]? = some entry) :
    entries.toList.Perm ((resource, entry) :: (entries.erase resource).toList) := by
  rw [List.perm_ext_iff_of_nodup (nodup_toList _)]
  · rintro ⟨key, value⟩
    simp only [ExtTreeMap.mem_toList_iff_getElem?_eq_some, List.mem_cons, Prod.mk.injEq,
      ExtTreeMap.getElem?_erase, LawfulEqOrd.compare_eq_iff_eq]
    by_cases same : resource = key
    · subst same; simp [present, eq_comm]
    · simp [same, Ne.symm same]
  · refine List.nodup_cons.mpr ⟨?_, nodup_toList _⟩
    simp [ExtTreeMap.mem_toList_iff_getElem?_eq_some]

/-- The sum of a weight over the entries of all resources. -/
def tally (table : Table) (weight : Entry → Nat) : Nat :=
  (table.entries.toList.map fun item => weight item.2).foldr (· + ·) 0

/-- The weight of one resource and that of all others. -/
theorem tally_split (table : Table) {weight : Entry → Nat} (idle : weight {} = 0)
    (resource : Resource) : table.tally weight = weight (table.entry resource) +
      ({ table with entries := table.entries.erase resource } : Table).tally weight := by
  simp only [tally, ← List.sum_eq_foldr]
  rw [entry_eq]
  cases present : table.entries[resource]? with
  | none =>
    have same : table.entries.erase resource = table.entries :=
      ExtTreeMap.ext_getElem? fun key => by
        rw [ExtTreeMap.getElem?_erase]; split
        · next here => rw [← LawfulEqOrd.eq_of_compare here, present]
        · rfl
    simp [same, idle]
  | some entry =>
    rw [((perm_toList_erase present).map _).sum_nat]
    simp

/-- Changing what one resource holds moves a sum by the difference of its weights. -/
theorem tally_add_weight (before after : Table) {weight : Entry → Nat} (idle : weight {} = 0)
    (resource : Resource)
    (others : ∀ key, key ≠ resource → after.entries[key]? = before.entries[key]?) :
    after.tally weight + weight (before.entry resource) =
      before.tally weight + weight (after.entry resource) := by
  rw [tally_split after idle resource, tally_split before idle resource]
  have same : after.entries.erase resource = before.entries.erase resource :=
    ExtTreeMap.ext_getElem? fun key => by
      simp only [ExtTreeMap.getElem?_erase, LawfulEqOrd.compare_eq_iff_eq]
      split
      · rfl
      · next other => exact others key (Ne.symm other)
  simp only [tally, same]
  omega

theorem getElem?_modify_of_ne (entries : ExtTreeMap Resource Entry) (change : Entry → Entry)
    {resource key : Resource} (other : key ≠ resource) :
    (entries.modify resource change)[key]? = entries[key]? := by
  simp [ExtTreeMap.getElem?_modify, Ne.symm other]

section
variable {weight : Entry → Nat} (idle : weight {} = 0)
include idle

theorem tally_grant (table : Table) (lock : Lock)
    (blind : ∀ entry : Entry, weight (entry.grant lock) = weight entry) :
    (table.grant lock).tally weight = table.tally weight := by
  have moved := tally_add_weight table (table.grant lock) idle lock.resource fun key other => by
    simp [grant, ExtTreeMap.getElem?_insert, Ne.symm other]
  rw [entry_grant, if_pos rfl, blind] at moved
  omega

theorem tally_remove (table : Table) (txn : Txn) (resource : Resource)
    (blind : ∀ entry : Entry, weight (entry.remove txn) = weight entry) :
    (table.remove txn resource).tally weight = table.tally weight := by
  have moved := tally_add_weight table (table.remove txn resource) idle resource
    fun _ other => getElem?_modify_of_ne _ _ other
  rw [entry_remove, if_pos rfl, blind] at moved
  omega

theorem tally_dequeue (table : Table) (resource : Resource) :
    (table.dequeue resource).tally weight + weight (table.entry resource) = table.tally weight +
      weight { table.entry resource with queue := (table.entry resource).queue.tail } := by
  have moved := tally_add_weight table (table.dequeue resource) idle resource
    fun _ other => getElem?_modify_of_ne _ _ other
  rwa [entry_dequeue, if_pos rfl] at moved

theorem tally_prune (table : Table) (resource : Resource) :
    (table.prune resource).tally weight = table.tally weight := by
  unfold prune
  split
  · next unused =>
    rw [tally_split table idle resource, Entry.eq_empty_of_isIdle unused, idle, Nat.zero_add]
  · rfl

end

@[simp] theorem pending_grant (table : Table) (lock : Lock) :
    (table.grant lock).pending = table.pending :=
  tally_grant rfl table lock fun entry => entry.share_grant lock

@[simp] theorem pending_remove (table : Table) (txn : Txn) (resource : Resource) :
    (table.remove txn resource).pending = table.pending :=
  tally_remove rfl table txn resource fun entry => entry.share_remove txn

/-- Taking a request off its queue takes its share away. -/
theorem pending_dequeue (table : Table) {resource : Resource} {request : Request}
    {rest : List Request} (head : table.queueOf resource = request :: rest) :
    (table.dequeue resource).pending + request.share = table.pending := by
  have moved : (table.dequeue resource).pending + _ = table.pending + _ :=
    @tally_dequeue Entry.share rfl table resource
  rw [queueOf] at head
  simp only [Entry.share, head, List.tail_cons, List.map_cons, List.foldr_cons] at moved
  omega

@[simp] theorem pending_prune (table : Table) (resource : Resource) :
    (table.prune resource).pending = table.pending :=
  tally_prune rfl table resource

end Table
end LockManager
