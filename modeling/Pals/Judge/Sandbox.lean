import Pals.Library.Io
import Pals.Library.Time

/-! A command in a gVisor container: the docker command line, and what a run of it
can come to. -/
namespace Pals.Judge
open Pals.Library Pals.Library.Time

def runtime : String := "runsc"
def sandboxUser : Nat := 65534
def memoryLimit : Nat := 256 * 1024 * 1024
def cpus : String := "1"
def pids : String := "64"

def maxOutput : Nat := 16 * 1024 * 1024

/-- `take(MAX_OUTPUT)`, after which the rest of the stream is read and discarded. -/
def kept (written : Bytes) : Bytes := written.take maxOutput

inductive ExitStatus where
  | code (code : UInt8)
  | signal (signal : UInt8)
deriving DecidableEq, Repr

def ExitStatus.success (status : ExitStatus) : Bool := status = .code 0

inductive Outcome where
  | exited (status : ExitStatus) (stdout : Bytes)
  | timedOut
deriving DecidableEq, Repr

def container (name image : String) (command : List String) : List String :=
  let memory := toString memoryLimit
  ["docker", "run", "--rm", "--interactive",
    "--name", name, "--runtime", runtime,
    "--log-driver", "none", "--network", "none",
    "--read-only",
    "--memory", memory,
    "--memory-swap", memory,
    "--cpus", cpus,
    "--pids-limit", pids,
    "--cap-drop", "ALL", "--security-opt", "no-new-privileges",
    "--user", s!"{sandboxUser}:{sandboxUser}",
    image] ++ command

/-- What comes of each docker command, given the bytes for its standard input and
the time it is allowed. -/
abbrev Docker := List String → Bytes → Duration → IoResult Outcome

def runInSandbox (docker : Docker) (name image : String) (command : List String)
    (input : Bytes) (timeout : Duration) : IoResult Outcome :=
  docker (container name image command) input timeout

end Pals.Judge
