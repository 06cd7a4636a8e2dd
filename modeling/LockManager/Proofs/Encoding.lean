import LockManager.Proofs.Paths

/-! What is encoded is decoded again. Each part of a record is read back from what is written for
it, a name from its path and a transaction from its number, so locks, waiting requests and
snapshots are. A snapshot is described in the words that describe the entry it was taken from, and
it is still described so after its way through an encoding. -/
namespace LockManager

namespace Json

/-- An encoding that is decoded as the value it was made from. -/
def ReadsBack {α : Type} (decode : Json → Option α) (encode : α → Json) : Prop :=
  ∀ value, decode (encode value) = some value

/-- What is encoded from a decoded value is encoded in the same way ever after. -/
def Stable {α : Type} (decode : Json → Option α) (encode : α → Json) : Prop :=
  ∀ json again, (decode json).map encode = some again → (decode again).map encode = some again

variable {α : Type} {decode : Json → Option α} {encode : α → Json}

theorem ReadsBack.stable (readsBack : ReadsBack decode encode) : Stable decode encode := by
  intro json again decoded
  obtain ⟨value, -, rfl⟩ := Option.map_eq_some_iff.mp decoded
  rw [readsBack, Option.map_some]

theorem ReadsBack.listOf? (readsBack : ReadsBack decode encode) (values : List α) :
    (Json.list (values.map encode)).listOf? decode = some values := by
  change (values.map encode).mapM decode = some values
  induction values with
  | nil => rfl
  | cons value later ih =>
    rw [List.map_cons, List.mapM_cons, readsBack, ih]
    rfl

theorem natBelow?_ofNat {value bound : Nat} (below : value < bound) :
    (ofNat value).natBelow? bound = some value :=
  if_pos below

end Json

theorem Resource.readsBack : Json.ReadsBack Resource.ofJson? Resource.toJson :=
  fun _ => ofJson?_eq_some_iff.mpr rfl

theorem Mode.readsBack : Json.ReadsBack Mode.ofJson? Mode.toJson := ofText?_text

theorem Txn.readsBack : Json.ReadsBack Txn.ofJson? Txn.toJson := by
  intro txn
  rw [ofJson?, toJson, Json.natBelow?_ofNat txn.id.toNat_lt_size, Option.map_some,
    UInt64.ofNat_toNat]

theorem Lock.readsBack : Json.ReadsBack Lock.ofJson? Lock.toJson := by
  intro lock
  have fields : ofFields? lock.resource.toJson lock.mode.toJson lock.owner.toJson = some lock := by
    rw [ofFields?, Resource.readsBack, Mode.readsBack, Txn.readsBack]
    rfl
  simpa [ofJson?, toJson, List.lookup_cons] using fields

namespace Snapshot

theorem Waiting.readsBack : Json.ReadsBack Waiting.ofJson? Waiting.toJson := by
  rintro ⟨lock, releases⟩
  cases releases with
  | nil =>
    have fields : ofFields? lock.toJson none = some ⟨lock, []⟩ := by
      rw [ofFields?, Lock.readsBack]
      rfl
    simpa [ofJson?, toJson, List.lookup_cons] using fields
  | cons first later =>
    have fields : ofFields? lock.toJson (some (.list ((first :: later).map Lock.toJson))) =
        some ⟨lock, first :: later⟩ := by
      simp only [ofFields?, Lock.readsBack lock, Lock.readsBack.listOf?]
      rfl
    simpa [ofJson?, toJson, List.lookup_cons] using fields

/-- Only what there is to release is written. -/
theorem Waiting.exists_toJson (waiting : Waiting) : ∃ fields, waiting.toJson = .object fields ∧
    ((fields.lookup "release_on_grant").isSome = true ↔ waiting.releases ≠ []) := by
  refine ⟨_, rfl, ?_⟩
  cases waiting.releases <;> simp [List.lookup_cons]

theorem readsBack : Json.ReadsBack Snapshot.ofJson? Snapshot.toJson := by
  intro snapshot
  have fields : ofFields? snapshot.resource.toJson (.list (snapshot.active.map Lock.toJson))
      (.list (snapshot.queued.map Waiting.toJson)) = some snapshot := by
    rw [ofFields?, Resource.readsBack, Lock.readsBack.listOf?, Waiting.readsBack.listOf?]
    rfl
  simpa [ofJson?, toJson, List.lookup_cons] using fields

theorem Waiting.text_ofRequest (request : Request) : (ofRequest request).text = request.text := by
  obtain ⟨caller, lock, releases⟩ := request
  unfold text Request.text
  cases releases with
  | nil => simp [ofRequest]
  | cons first later => simp [ofRequest, String.append_assoc]

end Snapshot

/-- A snapshot is described as its resource was. -/
theorem Table.text_snapshot (table : Table) (resource : Resource) :
    (table.snapshot resource).text = (table.entry resource).text := by
  have active : (table.snapshot resource).active = (table.entry resource).active := rfl
  have queued : (table.snapshot resource).queued.map Snapshot.Waiting.text =
      (table.entry resource).queue.map Request.text := by
    rw [snapshot, List.map_map]
    exact List.map_congr_left fun request _ => Snapshot.Waiting.text_ofRequest request
  unfold Snapshot.text Entry.text Lock.listText
  rw [active, queued]

/-- Locks, waiting requests and snapshots are decoded from their encodings, whatever they consist
of. So what can be decoded at all is encoded in the same way ever after. A list of releases is left
out just if it is empty. A snapshot that has been encoded and decoded is described as the entry
of its resource, which is empty if nobody uses the resource. -/
theorem snapshots_survive_encoding :
    (∀ lock : Lock, Lock.ofJson? lock.toJson = some lock) ∧
    (∀ waiting : Snapshot.Waiting, Snapshot.Waiting.ofJson? waiting.toJson = some waiting) ∧
    (∀ snapshot : Snapshot, Snapshot.ofJson? snapshot.toJson = some snapshot) ∧
    (∀ waiting : Snapshot.Waiting, ∃ fields, waiting.toJson = .object fields ∧
      ((fields.lookup "release_on_grant").isSome = true ↔ waiting.releases ≠ [])) ∧
    (Json.Stable Lock.ofJson? Lock.toJson ∧
      Json.Stable Snapshot.Waiting.ofJson? Snapshot.Waiting.toJson ∧
      Json.Stable Snapshot.ofJson? Snapshot.toJson) ∧
    ∀ (table : Table) (resource : Resource),
      (Snapshot.ofJson? (table.snapshot resource).toJson).map Snapshot.text =
        some (table.entry resource).text := by
  refine ⟨Lock.readsBack, Snapshot.Waiting.readsBack, Snapshot.readsBack, Snapshot.Waiting.exists_toJson,
    ⟨Lock.readsBack.stable, Snapshot.Waiting.readsBack.stable, Snapshot.readsBack.stable⟩, ?_⟩
  intro table resource
  rw [Snapshot.readsBack, Option.map_some, table.text_snapshot]

end LockManager
