import SystemProgramming.BiboSerial

/-!
# What the HW4 server leaves behind when it is killed

`killServer`, or a signal, ends the process wherever its threads stand. What is
on the disk then is some state of a run.
-/

set_option autoImplicit false

namespace CSE344.BiboKilled
open CString Stdio BiboServer BiboThreads BiboAlone BiboInvariant BiboSerial SerialOrder
open TransitionRun

variable {Loc : Type*} {disk : Disk Loc} {n : ℕ}

variable [DecidableEq Loc]

end CSE344.BiboKilled
