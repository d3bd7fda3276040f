import GoCompact.Json.Value

namespace GoCompact

-- A limit is meant to be a whole number. Settings also give other values for it: among numbers only the
-- order counts, and what is no number cannot be compared with a depth at all.
inductive Limit
  | atMost (n : Int)
  | unbounded
  | incomparable
deriving DecidableEq, Repr, Inhabited

namespace Limit

-- Whether a depth lies within a limit, if that can be said.
def admits (limit : Limit) (depth : Nat) : Option Bool :=
  match limit with
  | .atMost n => some (decide ((depth : Int) ≤ n))
  | .unbounded => some true
  | .incomparable => none

-- A depth is a whole number, so that it exceeds a number exactly when it exceeds its floor. No depth
-- exceeds what is infinite or no definite number, and every depth is above negative infinity.
def ofReal : Binary64 → Limit
  | .infinite true => .atMost (-1)
  | x =>
    match x.floor? with
    | some n => .atMost n
    | none => .unbounded

def ofJson : Json → Limit
  | .int n => .atMost n
  | .bool b => .atMost (if b then 1 else 0)
  | .real x => ofReal x
  | _ => .incomparable

end Limit

end GoCompact
