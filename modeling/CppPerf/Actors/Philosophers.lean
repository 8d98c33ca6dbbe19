import CppPerf.Semantics.Run
import CppPerf.Semantics.Vec

/-! The actors of `philosophers.cpp`, once all of them have been constructed.
An inbox is filled and emptied under its lock, so every enqueue, every message
that the table receives and every drain of a philosopher's inbox is one step. -/
namespace CppPerf.Actors

open Indexed

inductive ActorMessages where
  | forkRequest (fork philo : Nat)
  | forkResponse (fork : Nat) (granted : Bool)
  | forkRelease (fork1 fork2 : Nat)
deriving DecidableEq

structure ChopstickState where
  chop_id : Nat := 0
  is_acquired : Bool := false

/-- `drained` says that the loop of `run` has emptied the inbox and not yet
tested its forks. `sinceMeal` are the forks that the philosopher was granted
since it last ate, and `unearned` says that it once ate without both of them. -/
structure Philosopher where
  left : ChopstickState
  right : ChopstickState
  messages : List ActorMessages := []
  drained : Bool := false
  sinceMeal : List Nat := []
  unearned : Bool := false

namespace Philosopher

def construct (id N : Nat) : Philosopher where
  left := { chop_id := id }
  right := { chop_id := (id + 1) % N }

def receive (ph : Philosopher) : ActorMessages → Philosopher
  | .forkResponse fork granted =>
      if !granted then ph
      else if ph.left.chop_id == fork then
        { ph with
          left := { ph.left with is_acquired := true }
          sinceMeal := fork :: ph.sinceMeal }
      else if ph.right.chop_id == fork then
        { ph with
          right := { ph.right with is_acquired := true }
          sinceMeal := fork :: ph.sinceMeal }
      else ph
  | .forkRequest _ _ => ph
  | .forkRelease _ _ => ph

def enqueue (ph : Philosopher) (msg : ActorMessages) : Philosopher :=
  { ph with messages := ph.messages ++ [msg] }

/-- The loop under the lock: the front message is received, then popped. -/
def drain (ph : Philosopher) : List ActorMessages → Philosopher
  | [] => { ph with messages := [], drained := true }
  | msg :: rest => drain { ph.receive msg with messages := rest } rest

def hasBoth (ph : Philosopher) : Bool := ph.left.is_acquired && ph.right.is_acquired

/-- The fork that the loop of `run` asks for. -/
def requested (ph : Philosopher) : Nat :=
  let req_left :=
    if ph.left.is_acquired then false
    else if !ph.right.is_acquired && ph.left.chop_id % 2 != 0 then false
    else true
  if !req_left then ph.right.chop_id else ph.left.chop_id

def requestFork (ph : Philosopher) (f : Nat) : ActorMessages := .forkRequest f ph.left.chop_id

/-- Both forks go back to the table. The flags of the philosopher stay as they
are. -/
def eat (ph : Philosopher) : Philosopher × ActorMessages :=
  ({ ph with
     sinceMeal := []
     unearned := ph.unearned ||
       !(ph.sinceMeal.contains ph.left.chop_id && ph.sinceMeal.contains ph.right.chop_id) },
   .forkRelease ph.left.chop_id ph.right.chop_id)

/-- The rest of the loop of `run`, with the message for the table. -/
def turn (ph : Philosopher) : Philosopher × ActorMessages :=
  let ph := { ph with drained := false }
  if ph.hasBoth then ph.eat else (ph, ph.requestFork ph.requested)

end Philosopher

structure DiningTable where
  messages : List ActorMessages
  chopsticks_state : Vec Bool
  philosophers : Vec Philosopher

inductive Action where
  /-- The table receives the next message. -/
  | receive
  /-- The philosopher drains its inbox. -/
  | drain (p : Nat)
  /-- The philosopher eats or asks for a fork. -/
  | turn (p : Nat)

namespace DiningTable

def construct (N : Nat) : DiningTable where
  messages := []
  chopsticks_state := ⟨N, fun _ => true⟩
  philosophers := ⟨N, fun id => .construct id N⟩

/-- A message to a philosopher. -/
def send (d : DiningTable) (msg : ActorMessages) (receiver : Nat) : DiningTable :=
  { d with
    philosophers := d.philosophers.set receiver ((d.philosophers.get receiver).enqueue msg) }

def receive (d : DiningTable) : ActorMessages → DiningTable
  | .forkRequest fork philo =>
      if !d.chopsticks_state.get fork then d
      else
        { d with chopsticks_state := d.chopsticks_state.set fork false }.send
          (.forkResponse fork true) philo
  | .forkRelease fork1 fork2 =>
      { d with chopsticks_state := (d.chopsticks_state.set fork1 true).set fork2 true }
  | .forkResponse _ _ => d

def step (d : DiningTable) : Action → Option DiningTable
  | .receive =>
      match d.messages with
      | [] => none
      | msg :: rest => some { d.receive msg with messages := rest }
  | .drain p =>
      let ph := d.philosophers.get p
      if p < d.philosophers.size ∧ ph.drained = false then
        some { d with philosophers := d.philosophers.set p (ph.drain ph.messages) }
      else none
  | .turn p =>
      let ph := d.philosophers.get p
      if p < d.philosophers.size ∧ ph.drained = true then
        some { d with
          messages := d.messages ++ [ph.turn.2]
          philosophers := d.philosophers.set p ph.turn.1 }
      else none

end DiningTable
end CppPerf.Actors
