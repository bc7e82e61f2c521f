/-!
# Lists kept in the order of a key

Sets and finite maps of the library are lists in increasing order of a key: an element's own value for a set, the
first component for a map, the start for a set of segments. `insertBy` puts an element in its place and replaces the
element that has the same key, so that of two writes to one key the later one wins. `placeBy` keeps both.
-/

namespace RegAlloc

/-- Put `a` in its place in a list ordered by `key`; an element with the same key is replaced. -/
def insertBy {α κ : Type} [LT κ] [DecidableLT κ] [DecidableEq κ] (key : α → κ) (a : α) : List α → List α
  | [] => [a]
  | b :: rest =>
    if key a < key b then a :: b :: rest
    else if key a = key b then a :: rest
    else b :: insertBy key a rest

/-- Put `a` before the first element whose key is not smaller than its own. -/
def placeBy {α κ : Type} [LT κ] [DecidableLT κ] (key : α → κ) (a : α) : List α → List α
  | [] => [a]
  | b :: rest => if key b < key a then b :: placeBy key a rest else a :: b :: rest

/-- The elements of `l` put into an ordered list one after the other. -/
def insertAllBy {α κ : Type} [LT κ] [DecidableLT κ] [DecidableEq κ] (key : α → κ) (l : List α) (base : List α) :
    List α :=
  l.foldl (fun acc a => insertBy key a acc) base

/-- The value a map holds at `k`. -/
def lookupBy {κ β : Type} [DecidableEq κ] (k : κ) (entries : List (κ × β)) : Option β :=
  (entries.find? (fun e => e.1 = k)).map (·.2)

end RegAlloc
