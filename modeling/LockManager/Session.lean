import LockManager.Log
import LockManager.Manager
import LockManager.Registry
import LockManager.Settings
import LockManager.Snapshot

/-! A session drives one lock table by commands in text form: paths, mode names, and slots that
keep contexts. A command that fails changes nothing, and the next one runs as if it had not been
there. -/
namespace LockManager
open Std

inductive Command
  | acquire (txn : Txn) (path mode : String)
  | exchange (txn : Txn) (path mode : String) (releases : List String)
  | release (txn : Txn) (path : String)
  | promote (txn : Txn) (path mode : String)
  | modeOf (txn : Txn) (path : String)
  | locksOn (path : String)
  | locksHeldBy (txn : Txn)
  | queueLength (path : String)
  | isWaiting (txn : Txn)
  | snapshot (path : String)
  | settings
  | context (segment slot : String)
  | rootContext (slot : String)
  | child (above segment slot : String)
  | describe (slot : String)
  | sameContext (slot other : String)
  | parentIs (slot other : String)
  | acquireAt (slot : String) (txn : Txn) (mode : String)
  | promoteAt (slot : String) (txn : Txn) (mode : String)
  | releaseAt (slot : String) (txn : Txn)
  | modeAt (slot : String) (txn : Txn)
  | forget (slot : String)
  | dropTable

inductive Reply
  | done
  | mode (mode : Mode)
  | locks (locks : List Lock)
  | count (number : Nat)
  | truth (value : Bool)
  | snapshot (snapshot : Snapshot)
  | settings (settings : Settings)
  | named (resource : Resource)
  | context (resource : Resource) (parent? : Option Resource) (children : Nat)
      (debugText : String)
  /-- The command names a slot that keeps no context. -/
  | emptySlot

/-- What there is to see of a session: texts by resource and by transaction, nothing that is
empty. -/
structure View where
  resources : List (String × String)
  held : List (String × List String)
  waiting : List String
  blocked : List String
  suspensions : List (String × Nat)

structure Session where
  settings : Settings := {}
  manager : Manager := {}
  registry : Registry := {}

/-- The reply to a command, what it did to the table, and the session after it. -/
structure Answer where
  session : Session
  reply : Except Fault Reply
  journal : Journal := []

namespace Session

/-- Opens a table with the given settings. -/
def start (settings : Settings) : Except SettingsError Session := do
  settings.check
  return { settings }

def readMode (text : String) : Except Fault Mode :=
  match Mode.parse? text with
  | some mode => .ok mode
  | none => .error (TextError.unknownMode text).fault

def readPath (text : String) : Except Fault Resource :=
  (Resource.parse text).mapError TextError.fault

/-- Makes a call on the table, unless its texts are at fault. -/
def perform (session : Session) (txn : Txn) (call : Except Fault Call) : Answer :=
  match call with
  | .error fault => { session, reply := .error fault }
  | .ok call =>
      match session.manager.call txn call with
      | .error rejection => { session, reply := .error rejection.fault }
      | .ok (manager, journal) =>
          { session := { session with manager }, reply := .ok .done, journal }

/-- A question changes nothing. -/
def look (session : Session) (reply : Except Fault Reply) : Answer := { session, reply }

/-- Keeps a context in a slot; if there is no such context, the slot stays as it was. -/
def keepIn (session : Session) (slot : String)
    (found : Except TextError (Context × Registry)) : Answer :=
  match found with
  | .error problem => { session, reply := .error problem.fault }
  | .ok (context, registry) =>
      { session := { session with registry := registry.keep slot context }
        reply := .ok (.named context.resource) }

def withSlot (session : Session) (slot : String) (use : Context → Answer) : Answer :=
  match session.registry.slots[slot]? with
  | none => session.look (.ok .emptySlot)
  | some context => use context

/-- A context refuses to lock or to answer once its table is gone. -/
def tableBehind (session : Session) (context : Context) : Except Fault Table :=
  if session.registry.tableAlive then .ok session.manager.table
  else .error (Rejection.tableDropped context.resource).fault

/-- Makes a call on the resource of a context. -/
def performAt (session : Session) (slot : String) (txn : Txn)
    (call : Resource → Except Fault Call) : Answer :=
  session.withSlot slot fun context =>
    session.perform txn do
      let call ← call context.resource
      let _ ← session.tableBehind context
      return call

def run (session : Session) : Command → Answer
  | .acquire txn name wanted => session.perform txn do
      return .acquire (← readPath name) (← readMode wanted)
  | .exchange txn name wanted releases => session.perform txn do
      return .exchange (← readPath name) (← readMode wanted) (← releases.mapM readPath)
  | .release txn name => session.perform txn do return .release (← readPath name)
  | .promote txn name wanted => session.perform txn do
      return .promote (← readPath name) (← readMode wanted)
  | .modeOf txn name => session.look do
      return .mode (session.manager.table.modeOf txn (← readPath name))
  | .locksOn name => session.look do
      return .locks (session.manager.table.locksOn (← readPath name))
  | .locksHeldBy txn => session.look (.ok (.locks (session.manager.table.locksHeldBy txn)))
  | .queueLength name => session.look do
      return .count (session.manager.table.queueOf (← readPath name)).length
  | .isWaiting txn => session.look (.ok (.truth (session.manager.table.isWaiting txn)))
  | .snapshot name => session.look do
      return .snapshot (session.manager.table.snapshot (← readPath name))
  | .settings => session.look (.ok (.settings session.settings))
  | .context segment slot => session.keepIn slot (session.registry.top segment)
  | .rootContext slot => session.keepIn slot (session.registry.top session.settings.rootName)
  | .child above segment slot =>
      session.withSlot above fun context =>
        session.keepIn slot (session.registry.child context segment)
  | .describe slot =>
      session.withSlot slot fun context =>
        session.look (.ok (.context context.resource
          ((session.registry.parent? context).map Context.resource)
          (session.registry.childCount context) (session.registry.debugText context)))
  | .sameContext slot other =>
      session.withSlot slot fun context =>
        session.withSlot other fun second =>
          session.look (.ok (.truth (context.number == second.number)))
  | .parentIs slot other =>
      session.withSlot slot fun context =>
        session.withSlot other fun second =>
          session.look (.ok (.truth
            (((session.registry.parent? context).map Context.number) == some second.number)))
  | .acquireAt slot txn wanted =>
      session.performAt slot txn fun resource => return .acquire resource (← readMode wanted)
  | .promoteAt slot txn wanted =>
      session.performAt slot txn fun resource => return .promote resource (← readMode wanted)
  | .releaseAt slot txn => session.performAt slot txn fun resource => return .release resource
  | .modeAt slot txn =>
      session.withSlot slot fun context => session.look do
        return .mode ((← session.tableBehind context).modeOf txn context.resource)
  | .forget slot =>
      { session := { session with registry := session.registry.forget slot }, reply := .ok .done }
  | .dropTable =>
      { session := { session with
          manager := { session.manager with table := .empty }
          registry := session.registry.dropTable }
        reply := .ok .done }

/-- The commands in order, each on the session that the one before it left. -/
def runAll (session : Session) : List Command → List Answer
  | [] => []
  | command :: later =>
      let answer := session.run command
      answer :: answer.session.runAll later

def log (session : Session) (journal : Journal) (threshold : Level) : List LogLine :=
  journal.log session.settings.longQueue threshold

def view (session : Session) : View :=
  let table := session.manager.table
  let handles := session.manager.handles.toList
  { resources := (table.entries.toList.filter fun item => !item.2.isIdle).map fun item =>
      (item.1.text, (table.snapshot item.1).text)
    held := table.holdings.toList.map fun item => (item.1.text, item.2.map Lock.text)
    waiting := (handles.filter fun item => table.isWaiting item.1).map fun item => item.1.text
    blocked := (handles.filter fun item => item.2.blocked).map fun item => item.1.text
    suspensions := (handles.filter fun item => 0 < item.2.suspensions).map fun item =>
      (item.1.text, item.2.suspensions) }

end Session
end LockManager
