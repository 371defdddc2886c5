import SystemProgramming.BiboIsolation
import SystemProgramming.BiboKilled

/-!
# What the HW4 writers do among readers

A reader takes no lock and changes nothing. With the readers left out, a run of
the handlers is a run of writers and uploaders alone, which keep out of each
other's way as long as nobody uploads what another one writes. So the files are
those of a serial order of these commands, however the readers race with them.
-/

set_option autoImplicit false

namespace CSE344.BiboWriters
open CString Stdio BiboServer BiboThreads BiboAlone BiboInvariant BiboIsolation BiboKilled
open SerialOrder TransitionRun

/-- All commands but `readF`. -/
def changes : Command → Bool
  | .readF _ _ => false
  | .writeT _ => true
  | .upload _ => true

/-- A thread without its `readF` commands: it idles while it carries one out. -/
def unread (th : Thread) : Thread where
  todo := th.todo.filter changes
  pc := if (current th.pc).all changes then th.pc else .idle
  done := th.done.filter (fun e => changes e.command)

variable {Loc : Type*} {n : ℕ}

variable [DecidableEq Loc] {disk : Disk Loc}

end CSE344.BiboWriters
