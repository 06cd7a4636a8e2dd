import LockManager.Manager
import LockManager.Proofs.Stage

/-! Calls and runs. A call is refused, or opens in one of seven ways and then does its tasks. A
run is any sequence of calls by any transactions, the refused ones and those of waiting
transactions included; in a disciplined run only transactions without a queued request call. -/
namespace LockManager
namespace Table

/-- How an accepted call begins, and what is noted once its tasks are done. -/
inductive Opens (table : Table) (txn : Txn) : Call → Stage → Journal → Prop
  | acquireGranted {resource : Resource} {mode : Mode}
      (free : table.heldLock? txn resource = none)
      (room : table.mustQueue ⟨resource, mode, txn⟩ = false) :
      Opens table txn (.acquire resource mode)
        ⟨table.grant ⟨resource, mode, txn⟩, [table.grantEvent ⟨resource, mode, txn⟩], []⟩ []
  | acquireQueued {resource : Resource} {mode : Mode}
      (free : table.heldLock? txn resource = none)
      (busy : table.mustQueue ⟨resource, mode, txn⟩ = true) :
      Opens table txn (.acquire resource mode)
        ⟨table.enqueue ⟨txn, ⟨resource, mode, txn⟩, []⟩ .back,
          table.noteConflict ⟨resource, mode, txn⟩ ++
            (table.wait ⟨txn, ⟨resource, mode, txn⟩, []⟩ .back).events, []⟩ [.suspended txn]
  | exchangeGranted {resource : Resource} {mode : Mode} {releases : List Resource}
      {locks : List Lock} (free : table.heldLock? txn resource = none)
      (listed : table.locksToRelease txn [] releases = .ok locks)
      (room : table.mustQueue ⟨resource, mode, txn⟩ = false) :
      Opens table txn (.exchange resource mode releases)
        ⟨table.grant ⟨resource, mode, txn⟩, [table.grantEvent ⟨resource, mode, txn⟩],
          locks.map fun held => .release txn held.resource⟩ []
  | exchangeQueued {resource : Resource} {mode : Mode} {releases : List Resource}
      {locks : List Lock} (free : table.heldLock? txn resource = none)
      (listed : table.locksToRelease txn [] releases = .ok locks)
      (busy : table.mustQueue ⟨resource, mode, txn⟩ = true) :
      Opens table txn (.exchange resource mode releases)
        ⟨table.enqueue ⟨txn, ⟨resource, mode, txn⟩, locks⟩ .front,
          table.noteConflict ⟨resource, mode, txn⟩ ++
            (table.wait ⟨txn, ⟨resource, mode, txn⟩, locks⟩ .front).events,
          [.drain resource]⟩ [.suspended txn]
  | releaseStarted {resource : Resource} (held : (table.heldLock? txn resource).isSome) :
      Opens table txn (.release resource) ⟨table, [], [.release txn resource]⟩ []
  | promoteGranted {resource : Resource} {mode : Mode} {current : Lock}
      (held : table.heldLock? txn resource = some current) (differs : current.mode ≠ mode)
      (stronger : mode.covers current.mode = true)
      (room : table.admits ⟨resource, mode, txn⟩ = true) :
      Opens table txn (.promote resource mode)
        ⟨table.grant ⟨resource, mode, txn⟩, [table.grantEvent ⟨resource, mode, txn⟩], []⟩ []
  | promoteQueued {resource : Resource} {mode : Mode} {current : Lock}
      (held : table.heldLock? txn resource = some current) (differs : current.mode ≠ mode)
      (stronger : mode.covers current.mode = true)
      (busy : table.admits ⟨resource, mode, txn⟩ = false) :
      Opens table txn (.promote resource mode)
        ⟨table.enqueue ⟨txn, ⟨resource, mode, txn⟩, []⟩ .front,
          table.noteConflict ⟨resource, mode, txn⟩ ++
            (table.wait ⟨txn, ⟨resource, mode, txn⟩, []⟩ .front).events, []⟩ [.suspended txn]

/-- The outcome of an accepted call is that of its opening, brought to its end. -/
theorem call_ok_iff {table : Table} {txn : Txn} {call : Call} {outcome : Outcome} :
    table.call txn call = .ok outcome ↔
      ∃ stage closing, table.Opens txn call stage closing ∧
        outcome = ⟨stage.settled.table, stage.settled.events ++ closing⟩ := by
  constructor
  · intro accepted
    cases call with
    | acquire resource mode =>
      simp only [Table.call, acquire] at accepted
      split at accepted
      · contradiction
      · next free =>
        rw [Option.not_isSome_iff_eq_none] at free
        split at accepted <;> cases accepted
        · next busy => exact ⟨_, _, .acquireQueued free busy, by simp [Stage.settled, wait]⟩
        · next room =>
          exact ⟨_, _, .acquireGranted free (by simpa using room), by simp [Stage.settled]⟩
    | exchange resource mode releases =>
      simp only [Table.call, exchange] at accepted
      split at accepted
      · contradiction
      · next free =>
        rw [Option.not_isSome_iff_eq_none] at free
        split at accepted
        · contradiction
        · next locks listed =>
          split at accepted <;> cases accepted
          · next busy =>
            exact ⟨_, _, .exchangeQueued free listed busy, by simp [Stage.settled, wait]⟩
          · next room =>
            exact ⟨_, _, .exchangeGranted free listed (by simpa using room),
              by simp [Stage.settled]⟩
    | release resource =>
      simp only [Table.call, release] at accepted
      split at accepted
      · next held =>
        cases accepted
        exact ⟨_, _, .releaseStarted held, by simp [Stage.settled]⟩
      · contradiction
    | promote resource mode =>
      simp only [Table.call, promote] at accepted
      split at accepted
      · contradiction
      · next current held =>
        split at accepted
        · contradiction
        · next differs =>
          split at accepted
          · contradiction
          · next stronger =>
            have stronger : mode.covers current.mode = true := by simpa using stronger
            split at accepted <;> cases accepted
            · next room =>
              exact ⟨_, _, .promoteGranted held differs stronger room, by simp [Stage.settled]⟩
            · next busy =>
              exact ⟨_, _, .promoteQueued held differs stronger (by simpa using busy),
                by simp [Stage.settled, wait]⟩
  · rintro ⟨stage, closing, opens, rfl⟩
    cases opens with
    | acquireGranted free room => simp [Table.call, acquire, free, room, Stage.settled]
    | acquireQueued free busy => simp [Table.call, acquire, free, busy, Stage.settled, wait]
    | exchangeGranted free listed room =>
      simp [Table.call, exchange, free, listed, room, Stage.settled]
    | exchangeQueued free listed busy =>
      simp [Table.call, exchange, free, listed, busy, Stage.settled, wait]
    | releaseStarted held => simp [Table.call, release, held, Stage.settled]
    | promoteGranted held differs stronger room =>
      simp [Table.call, promote, held, differs, stronger, room, Stage.settled]
    | promoteQueued held differs stronger busy =>
      simp [Table.call, promote, held, differs, stronger, busy, Stage.settled, wait]

theorem signal?_grantEvent (table : Table) (lock : Lock) :
    (table.grantEvent lock).signal? = none := by
  rw [grantEvent]
  split <;> rfl

/-- No handle hears of a grant before its commit. -/
theorem foldl_notify_grantEvent (table : Table) (lock : Lock)
    (handles : Std.ExtTreeMap Txn Handle) :
    [table.grantEvent lock].foldl Manager.notify handles = handles := by
  refine Manager.foldl_notify_quiet handles fun event member => ?_
  rw [List.mem_singleton.mp member]
  exact signal?_grantEvent table lock

/-- Of all moves only a commit speaks to a handle. -/
theorem Moves.quiet {table : Table} {task : Task} {done : Step} (move : table.Moves task done)
    (other : ∀ request, task ≠ .commit request) : ∀ event ∈ done.events, event.signal? = none := by
  intro event member
  cases move with
  | rests blocked noted =>
    obtain ⟨mode, held, rfl⟩ := noted event member
    rfl
  | serves head fits =>
    rw [List.mem_singleton.mp member]
    exact signal?_grantEvent _ _
  | gives =>
    obtain ⟨lock, -, rfl⟩ := List.mem_map.mp member
    rfl
  | defers held => cases member
  | skips gone =>
    rw [List.mem_singleton.mp member]
    rfl
  | @completes request => exact absurd rfl (other request)

end Table

/-- A transaction's turn to call. -/
structure Turn where
  txn : Txn
  call : Call
  deriving DecidableEq

namespace Table

/-- What a turn leads to. A refused call changes nothing and leaves no trace. -/
def take (table : Table) (turn : Turn) : Outcome :=
  match table.call turn.txn turn.call with
  | .ok outcome => outcome
  | .error _ => { table }

def run (table : Table) (turns : List Turn) : Table :=
  turns.foldl (fun table turn => (table.take turn).table) table

/-- What happened in all turns of a run. -/
def journal (table : Table) : List Turn → Journal
  | [] => []
  | turn :: later => (table.take turn).events ++ (table.take turn).table.journal later

/-- Only transactions without a queued request take a turn. -/
def Disciplined (table : Table) : List Turn → Prop
  | [] => True
  | turn :: later => table.isWaiting turn.txn = false ∧ (table.take turn).table.Disciplined later

instance Disciplined.decidable (table : Table) (turns : List Turn) :
    Decidable (table.Disciplined turns) :=
  match turns with
  | [] => .isTrue trivial
  | turn :: later =>
      let _ := Disciplined.decidable (table.take turn).table later
      inferInstanceAs (Decidable (_ ∧ _))

@[simp] theorem run_nil (table : Table) : table.run [] = table := rfl

@[simp] theorem run_cons (table : Table) (turn : Turn) (later : List Turn) :
    table.run (turn :: later) = (table.take turn).table.run later := rfl

theorem run_append (table : Table) (first second : List Turn) :
    table.run (first ++ second) = (table.run first).run second :=
  List.foldl_append

/-- A run is disciplined if its two parts are, one after the other. -/
theorem Disciplined.append {table : Table} {first second : List Turn}
    (start : table.Disciplined first) (rest : (table.run first).Disciplined second) :
    table.Disciplined (first ++ second) := by
  induction first generalizing table with
  | nil => exact rest
  | cons turn later ih => exact ⟨start.1, ih start.2 rest⟩

theorem journal_append (table : Table) (first second : List Turn) :
    table.journal (first ++ second) = table.journal first ++ (table.run first).journal second := by
  induction first generalizing table with
  | nil => rfl
  | cons turn later ih => simp only [List.cons_append, journal, ih, run_cons, List.append_assoc]

/-- A turn is refused, or opens and goes on to its end. -/
theorem take_cases {motive : Outcome → Prop} (table : Table) (turn : Turn)
    (refused : motive { table })
    (accepted : ∀ stage closing, table.Opens turn.txn turn.call stage closing →
      motive ⟨stage.settled.table, stage.settled.events ++ closing⟩) :
    motive (table.take turn) := by
  unfold take
  split
  · next outcome result =>
    obtain ⟨stage, closing, opens, rfl⟩ := call_ok_iff.mp result
    exact accepted stage closing opens
  · exact refused

/-- What every turn keeps holds throughout a run. -/
theorem run_invariant {motive : Table → Prop}
    (keeps : ∀ table turn, motive table → motive (table.take turn).table)
    {table : Table} (initial : motive table) (turns : List Turn) : motive (table.run turns) := by
  induction turns generalizing table with
  | nil => exact initial
  | cons turn later ih => exact ih (keeps table turn initial)

theorem disciplined_invariant {motive : Table → Prop}
    (keeps : ∀ table turn, motive table → table.isWaiting turn.txn = false →
      motive (table.take turn).table)
    {table : Table} (initial : motive table) {turns : List Turn}
    (disciplined : table.Disciplined turns) : motive (table.run turns) := by
  induction turns generalizing table with
  | nil => exact initial
  | cons turn later ih =>
    obtain ⟨idle, rest⟩ := disciplined
    exact ih (keeps table turn initial idle) rest

end Table

namespace Manager

def take (manager : Manager) (turn : Turn) : Manager :=
  match manager.call turn.txn turn.call with
  | .ok (after, _) => after
  | .error _ => manager

def run (manager : Manager) (turns : List Turn) : Manager := turns.foldl take manager

/-- The table runs as it does without handles. -/
theorem take_eq (manager : Manager) (turn : Turn) :
    manager.take turn = ⟨(manager.table.take turn).table,
      (manager.table.take turn).events.foldl notify manager.handles⟩ := by
  unfold take call Table.take
  cases manager.table.call turn.txn turn.call <;> rfl

theorem table_take (manager : Manager) (turn : Turn) :
    (manager.take turn).table = (manager.table.take turn).table := by
  rw [take_eq]

theorem table_run (manager : Manager) (turns : List Turn) :
    (manager.run turns).table = manager.table.run turns := by
  induction turns generalizing manager with
  | nil => rfl
  | cons turn later ih =>
    rw [run, List.foldl_cons, ← run, ih, take_eq, Table.run_cons]

/-- What holds before a turn holds after it, if its opening, its moves and its closing keep it
while the handles follow the journal. -/
theorem take_keeps {motive : Manager → List Task → Prop} {manager : Manager} {turn : Turn}
    (initial : motive manager [])
    (opens : ∀ {stage closing}, manager.table.Opens turn.txn turn.call stage closing →
      motive ⟨stage.table, stage.journal.foldl notify manager.handles⟩ stage.tasks)
    (moves : ∀ {manager task later done}, motive manager (task :: later) →
      manager.table.Moves task done →
        motive ⟨done.table, done.events.foldl notify manager.handles⟩ (done.next ++ later))
    (closes : ∀ {after stage closing}, manager.table.Opens turn.txn turn.call stage closing →
      motive after [] → motive ⟨after.table, closing.foldl notify after.handles⟩ []) :
    motive (manager.take turn) [] := by
  rw [take_eq]
  refine Table.take_cases
    (motive := fun after => motive ⟨after.table, after.events.foldl notify manager.handles⟩ [])
    manager.table turn initial fun stage closing started => ?_
  have ended := stage.leads_settled.invariant
    (motive := fun table journal tasks => motive ⟨table, journal.foldl notify manager.handles⟩ tasks)
    (fun before move => by
      rw [List.foldl_append]
      exact moves before move) (opens started)
  rw [List.foldl_append]
  exact closes started ended

theorem run_invariant {motive : Manager → Prop}
    (keeps : ∀ manager turn, motive manager → motive (manager.take turn))
    {manager : Manager} (initial : motive manager) (turns : List Turn) :
    motive (manager.run turns) := by
  induction turns generalizing manager with
  | nil => exact initial
  | cons turn later ih => exact ih (keeps manager turn initial)

theorem disciplined_invariant {motive : Manager → Prop}
    (keeps : ∀ manager turn, motive manager → manager.table.isWaiting turn.txn = false →
      motive (manager.take turn))
    {manager : Manager} (initial : motive manager) {turns : List Turn}
    (disciplined : manager.table.Disciplined turns) : motive (manager.run turns) := by
  induction turns generalizing manager with
  | nil => exact initial
  | cons turn later ih =>
    obtain ⟨idle, rest⟩ := disciplined
    have table : (manager.take turn).table = (manager.table.take turn).table := by rw [take_eq]
    exact ih (keeps manager turn initial idle) (table ▸ rest)

end Manager

namespace Sample

def orders : Resource := .top ⟨"orders", by decide, by decide⟩

def stock : Resource := .top ⟨"stock", by decide, by decide⟩

/-- The first transaction has the orders. The second waits to exchange the stock for them, with the
fourth behind it, and the third waits for the stock. -/
def queuedExchange : List Turn :=
  [⟨⟨1⟩, .acquire orders .exclusive⟩, ⟨⟨2⟩, .acquire stock .exclusive⟩,
    ⟨⟨3⟩, .acquire stock .shared⟩, ⟨⟨4⟩, .acquire orders .shared⟩,
    ⟨⟨2⟩, .exchange orders .shared [stock]⟩]

end Sample
end LockManager
