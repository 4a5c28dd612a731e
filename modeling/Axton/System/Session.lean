import Axton.Client.Dispatch
import Axton.Client.Worker

/-!
# Control and its Store worker

The composition of bindings/common/src/actor.rs: Control decides in one thread, the Store worker executes in
another, and two channels connect them. `Session` holds both ends and what is under way: drained commands in
the order they were sent, and messages back in the order they were produced. A step is one thing either side
does; any order of steps is a run.

| here | there |
|------|-------|
| `Act.drain`, `Act.publish` | `jobs()` and `publish_control05` (actor.rs:776-781, 789) |
| `Act.execute` | one job of the worker loop (actor.rs:903-915) |
| `Act.serve` | local inputs and the Snapshot after them (actor.rs:874-902) |
| `Act.deliver` | `WorkerMessage::Report` (actor.rs:683) |

A ticket carries the number of its command among all commands drained. It is not in the code; it says which
command a message answers.
-/

namespace Axton

/-- A command on its way to the worker. -/
structure Ticket where
  number : Nat
  fence : WorkFence
  command : StoreCommand

/-- A message on its way back, with the command it answers; the worker's own Snapshot answers none. -/
structure Reply where
  ticket : Option Ticket
  message : Except String WorkerReport

structure Session where
  control : Control
  client : Client
  work : List Ticket := []
  replies : List Reply := []
  drained : Nat := 0

namespace Session

inductive Act where
  | setRefreshAuth (enabled : Bool)
  | connect
  | stop
  | pause
  | wake
  | receive (id : Nat) (outcome : EffectOutcome) (now : Nat)
  | publish
  | drain
  | execute (f : WorkerFaults) (now : Nat)
  | serve (x : Client.LocalInput) (busy fault : Bool)
  | deliver (now : Nat)

/-- The fence `jobs` puts on what it drains (downlink.rs:186-190). -/
def fence (c : Control) : WorkFence := ⟨c.context, c.epoch⟩

/-- `jobs` (downlink.rs:185), with the commands sent to the worker. -/
def drain (s : Session) : Session :=
  { s with
    control := { s.control with jobs := [] }
    work := s.work ++ s.control.jobs.zipIdx.map fun e => ⟨s.drained + e.2, fence s.control, e.1⟩
    drained := s.drained + s.control.jobs.length }

/-- The worker's Snapshot after local inputs: only when the store moved and no application transaction is
open. -/
def snapshot (s : Session) (moved busy fault : Bool) : List Reply :=
  if !moved || busy then []
  else if fault then [⟨none, .error "store failure"⟩]
  else [⟨none, .ok (.plain (.snapshot (Engine.storeStatus s.client.store)))⟩]

section
variable (P : Platform) (H : Hashes) (W : Wire) (z : Sizes)

/-- The worker takes the next command. -/
def execute (s : Session) (f : WorkerFaults) (now : Nat) : Session :=
  match s.work with
  | [] => s
  | t :: rest =>
    match s.client.guardedWorker P H f s.control.epoch now t.fence t.command with
    | (message, client) => { s with client, work := rest, replies := s.replies ++ [⟨some t, message⟩] }

/-- A local input. -/
def serve (s : Session) (x : Client.LocalInput) (busy fault : Bool) : Session :=
  let client := s.client.serve P H x
  let moved := client.store.row.generation ≠ s.client.store.row.generation
  let s' := { s with client }
  { s' with replies := s'.replies ++ s'.snapshot moved busy fault }

/-- Control takes the next message. -/
def deliver (s : Session) (now : Nat) : Session :=
  match s.replies with
  | [] => s
  | r :: rest => { s with control := s.control.onReport r.message now, replies := rest }

/-- One step of the composition. -/
def step (s : Session) : Act → Session
  | .setRefreshAuth enabled => { s with control := { s.control with refreshAuth := enabled } }
  | .connect => { s with control := s.control.connect }
  | .stop => { s with control := s.control.stop }
  | .pause => { s with control := s.control.pause }
  | .wake => { s with control := s.control.wake }
  | .receive id outcome now => { s with control := s.control.onEffect P W z id outcome now }
  | .publish => { s with control := { s.control with events := [] } }
  | .drain => s.drain
  | .execute f now => s.execute P H f now
  | .serve x busy fault => s.serve P H x busy fault
  | .deliver now => s.deliver now

/-- A session opens on a store, with the flag of the environment (actor.rs:640). -/
def opened (client : Client) (prefetch : Bool) : Session where
  control := .withBootstrapPrefetch (Engine.storeStatus client.store) prefetch
  client := client

/-- Runs all of whose steps meet a condition on the state before them. -/
def Runs (allowed : Session → Act → Prop) (s : Session) (acts : List Act) (t : Session) : Prop :=
  Trace (fun s a t => allowed s a ∧ s.step P H W z a = t) s acts t

/-- The state after a list of steps. -/
def run (s : Session) (acts : List Act) : Session := acts.foldl (fun s a => s.step P H W z a) s

/-- Every step of a list meets a condition where it is taken. -/
def Along (allowed : Session → Act → Prop) : Session → List Act → Prop
  | _, [] => True
  | s, a :: rest => allowed s a ∧ Along allowed (s.step P H W z a) rest

theorem runs_of_along {allowed : Session → Act → Prop} : ∀ {acts : List Act} {s : Session},
    Along P H W z allowed s acts → Runs P H W z allowed s acts (s.run P H W z acts)
  | [], _, _ => .nil
  | a :: _, s, ⟨ha, hrest⟩ =>
    have first : Runs P H W z allowed s [a] (s.step P H W z a) := Trace.single ⟨ha, rfl⟩
    first.append (runs_of_along hrest)

theorem along_true : ∀ {acts : List Act} {s : Session}, Along P H W z (fun _ _ => True) s acts
  | [], _ => trivial
  | _ :: _, _ => ⟨trivial, along_true⟩

end

end Session

namespace Notes

/-- The answer to a handshake at head 5, as it is sent. -/
def greeting : String := "\x7b\"protocol\":5,\"storeId\":\"store\",\"stream\":\"user\",\"head\":5\x7d"

/-- A wire on which the greeting decodes. -/
def wire : Wire where
  json _ := .error "expected value"
  socketEvent _ := .error "expected socket event"
  handshake t := if t = greeting then .ok { storeId := "store", stream := "user", head := 5 } else .error "expected value"
  delivery _ := .error "expected value"
  materialization _ := .error "expected value"
  acknowledgement _ := .error "expected value"

def sizes : Sizes where
  header _ := 1
  part _ := 1

end Notes

end Axton
