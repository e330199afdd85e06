import KeepTree.Session
import KeepTree.Text.Quoted

/-!
# Descriptions of sessions

One line that tells what a session is at, for people who look into it.
-/

namespace KeepTree

/-- One line about a session. The family goes by the name it is given. -/
def Session.describe (s : Session) (family : String) : String :=
  "Context \x7b root: " ++ family ++ ", size: " ++ Nat.repr s.stack.size ++ ", chain: [" ++
    ", ".intercalate (s.names.map Text.quoted) ++ "], unpushed: " ++
    Nat.repr s.stack.stash.length ++ " \x7d"

end KeepTree
