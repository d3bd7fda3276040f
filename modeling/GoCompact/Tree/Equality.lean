import GoCompact.Tree.Basic

namespace GoCompact.Tree

mutual

-- Nodes are equal when they are of one kind and their fields are equal; their locations do not
-- count. Plain data are compared by value.
def same : Tree → Tree → Bool
  | .datum v, .datum w => v.same w
  | .tuple ts, .tuple us => sameAll ts us
  | .token j, .token k => j == k
  | .direction c, .direction d => c == d
  | .location l, .location m => l.same m
  | .node j _ ts, .node k _ us => j == k && sameAll ts us
  | _, _ => false

def sameAll : List Tree → List Tree → Bool
  | [], [] => true
  | t :: ts, u :: us => same t u && sameAll ts us
  | _, _ => false

end

end GoCompact.Tree
