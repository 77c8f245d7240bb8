import Dcn.Foundation.Loop
import Dcn.Memory.Queue

/-! The two ends of a connection: the server's struct client (epdplx-s.h) and
the state of run_client (client.c).

Both keep a stream accumulator from which packets are cut, a read queue with
one handler task for each block in it, and a write queue with the count of
bytes of its first block already written. The code between a read and the
handler tasks touches the accumulator, the read queue and the tasks only, at
both ends; that part of the state is an intake.
-/

set_option autoImplicit false

namespace Dcn

inductive Mode where
  | input
  | output
  deriving DecidableEq, Repr

structure Intake where
  acc : Block
  readQ : Queue
  tasks : Nat
  deriving DecidableEq, Repr

/-- struct client. `mode` is the event its descriptor is registered for, which
epoll keeps, and `tasks` the handler tasks scheduled for it, which the pool keeps. -/
structure Client where
  fd : Int
  readQ : Queue
  writeQ : Queue
  alrWritten : Nat
  ip : String
  port : UInt16
  acc : Block
  mode : Mode
  tasks : Nat
  deriving DecidableEq, Repr

structure ClientLoop where
  qread : Queue
  qwrite : Queue
  alrWr : Nat
  acc : Block
  tasks : Nat
  deriving DecidableEq, Repr

def acceptClient (fd : Int) (ip : String) (port : UInt16) : Client where
  fd := fd
  readQ := queueInit
  writeQ := queueInit
  alrWritten := 0
  ip := ip
  port := port
  acc := []
  mode := .input
  tasks := 0

namespace Client

def intake (cli : Client) : Intake := ⟨cli.acc, cli.readQ, cli.tasks⟩

def setIntake (cli : Client) (part : Intake) : Client :=
  { cli with acc := part.acc, readQ := part.readQ, tasks := part.tasks }

@[simp] theorem intake_setIntake (cli : Client) (part : Intake) : (cli.setIntake part).intake = part := rfl

@[simp] theorem setIntake_intake (cli : Client) : cli.setIntake cli.intake = cli := rfl

@[simp] theorem setIntake_setIntake (cli : Client) (first second : Intake) :
    (cli.setIntake first).setIntake second = cli.setIntake second := rfl

end Client

namespace ClientLoop

def intake (md : ClientLoop) : Intake := ⟨md.acc, md.qread, md.tasks⟩

def setIntake (md : ClientLoop) (part : Intake) : ClientLoop :=
  { md with acc := part.acc, qread := part.readQ, tasks := part.tasks }

@[simp] theorem intake_setIntake (md : ClientLoop) (part : Intake) : (md.setIntake part).intake = part := rfl

@[simp] theorem setIntake_intake (md : ClientLoop) : md.setIntake md.intake = md := rfl

@[simp] theorem setIntake_setIntake (md : ClientLoop) (first second : Intake) :
    (md.setIntake first).setIntake second = md.setIntake second := rfl

end ClientLoop

end Dcn
