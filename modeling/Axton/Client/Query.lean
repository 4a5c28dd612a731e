import Axton.Client.Store
import Axton.Core.Canonical
import Axton.Lib.Search

/-!
# Local queries

Model of the comparison rules of `crates/client/src/query.rs`: nulls first, text in UTF-16 order, numbers as
doubles. Values of different kinds compare equal.
-/

namespace Axton

/-- `compare` (query.rs:10). -/
def compareValues : Json → Json → Ordering
  | .null, .null => .eq
  | .null, _ => .lt
  | _, .null => .gt
  | .str a, .str b => cmp (encodeUtf16 a) (encodeUtf16 b)
  | .bool a, .bool b => cmp a b
  | .num a, .num b => cmp a.asF64 b.asF64
  | _, _ => .eq

/-- The first field that differs decides. -/
def compareFields (a b : Json) : List String → Ordering
  | [] => .eq
  | f :: fs => match compareValues (a.index f) (b.index f) with
    | .eq => compareFields a b fs
    | o => o

/-- `compare_identity` (query.rs:21). -/
def compareIdentity (m : ModelDescriptor) (a b : Json) : Ordering := compareFields a b m.identity

end Axton
