import GoCompact.Proofs.Grammar.Guard.Statement
import GoCompact.Proofs.Grammar.Parts

namespace GoCompact

open GoCompact.Parser GoCompact.Grammar GoCompact.Tree

namespace Fragment

variable {s : Scope} {n : Nat} {w : Passed} {fragment : Fragment} {source : Text}
  {file : Option Text}

end Fragment

end GoCompact
