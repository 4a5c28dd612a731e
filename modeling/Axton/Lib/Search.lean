import Mathlib.Data.List.Basic

/-!
# Binary search

`[T]::binary_search_by` of the standard library. The loop keeps `base` and halves `size`; `fuel` bounds its
rounds, and the length of the list is enough of it.
-/

namespace Axton

namespace Search

variable {α : Type}

/-- The loop: the last place whose element is not above the target, within `size` places from `base`. -/
def base (f : α → Ordering) (xs : List α) : Nat → Nat → Nat → Nat
  | 0, _, b => b
  | fuel + 1, size, b =>
    if size ≤ 1 then b
    else
      let half := size / 2
      match xs[b + half]?.map f with
      | some .gt => base f xs fuel (size - half) b
      | _ => base f xs fuel (size - half) (b + half)

/-- `Ok` is the place of an equal element, `Err` the place where one would be inserted. -/
def binarySearchBy (f : α → Ordering) (xs : List α) : Except Nat Nat :=
  let b := base f xs xs.length xs.length 0
  match xs[b]?.map f with
  | none => .error 0
  | some .eq => .ok b
  | some .lt => .error (b + 1)
  | some .gt => .error b

end Search

end Axton
