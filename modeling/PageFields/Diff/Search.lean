import PageFields.Diff.Script

/-! # Differences: shortest scripts

The search for a shortest script works on the grid whose points are pairs of a number of old lines
and a number of new lines. A step right deletes a line, a step down inserts one, and where the two
next lines are equal a diagonal step is free. Paths start at both corners in rounds: after round `d`
the furthest point of a path with `d` steps is known on each diagonal (`Front`). As soon as two
paths meet, a shortest path leads through that point, and both sides of it are searched in the same
way. -/

namespace PageFields.Diff

/-- The number of equal lines at the beginning. -/
def commonPrefix : List Text → List Text → Nat
  | a :: s, b :: t => if a = b then commonPrefix s t + 1 else 0
  | _, _ => 0

/-- The furthest points of a round: how many old lines they are past, on the diagonals `d`, `d - 2`,
…, `-d`. -/
abbrev Front := Array Nat

/-- The number of old lines at the furthest point on diagonal `k` of round `d`. -/
def Front.at (f : Front) (d k : Int) : Nat := f.getD ((d - k) / 2).toNat 0

/-- Where the paths of the next round `d` enter their diagonals: from the diagonal above or below,
whichever leads further. -/
def Front.enter (f : Front) (d : Nat) : Front :=
  if d = 0 then #[0]
  else (Array.range (d + 1)).map fun j =>
    if j = d then f.getD (j - 1) 0
    else if j ≠ 0 ∧ f.getD j 0 < f.getD (j - 1) 0 then f.getD (j - 1) 0
    else f.getD j 0 + 1

/-- The diagonal with index `j` in round `d`. -/
def diagonal (d j : Nat) : Int := (d : Int) - 2 * j

/-- The number of equal lines from a point on; as many tries as there are lines are enough. -/
def slide (old new : Array Text) : Nat → Nat → Nat → Nat
  | 0, _, _ => 0
  | tries + 1, x, y =>
    match old[x]?, new[y]? with
    | some a, some b => if a = b then slide old new tries (x + 1) (y + 1) + 1 else 0
    | _, _ => 0

/-- The furthest points of round `d` from the points where the diagonals are entered. -/
def Front.advance (old new : Array Text) (d : Nat) (f : Front) : Front :=
  f.mapIdx fun j x => x + slide old new old.size x (x - diagonal d j).toNat

/-- A point where a shortest path passes, found in round `d` or one of the `rounds` after it.
`forward` and `backward` are the points of the round before; the second pair of sequences is
reversed. -/
def meeting (old new oldBack newBack : Array Text) :
    Nat → Nat → Front → Front → Option (Nat × Nat)
  | 0, _, _, _ => none
  | rounds + 1, d, forward, backward =>
    let n := old.size
    let m := new.size
    let delta : Int := (n : Int) - m
    let odd := delta % 2 ≠ 0
    let entry := forward.enter d
    let forward := entry.advance old new d
    let indices := List.range (d + 1)
    let hit := if odd then
        indices.find? fun j =>
          let k := diagonal d j
          decide ((k - delta).natAbs < d) &&
            decide (n ≤ forward.getD j 0 + backward.at (d - 1) (delta - k))
      else none
    match hit with
    | some j =>
      let x := entry.getD j 0
      some (x, (x - diagonal d j).toNat)
    | none =>
      let backward := (backward.enter d).advance oldBack newBack d
      let hit := if odd then none
        else indices.find? fun j =>
          let k := diagonal d j
          decide ((k - delta).natAbs ≤ d) &&
            decide (n ≤ backward.getD j 0 + forward.at d (delta - k))
      match hit with
      | some j =>
        let x := backward.getD j 0
        some (n - x, m - (x - diagonal d j).toNat)
      | none => meeting old new oldBack newBack rounds (d + 1) forward backward

/-- A point where a shortest path from one corner to the other passes. -/
def middle (old new : List Text) : Option (Nat × Nat) :=
  meeting old.toArray new.toArray old.reverse.toArray new.reverse.toArray
    ((old.length + new.length + 1) / 2 + 1) 0 #[] #[]

/-- A shortest script from `old` to `new`. Each level of the search divides the lines, so as many
levels as there are lines are enough. -/
def search : Nat → List Text → List Text → Script
  | 0, old, new => Script.some .delete old ++ Script.some .insert new
  | levels + 1, old, new =>
    let p := commonPrefix old new
    let head := old.take p
    let old := old.drop p
    let new := new.drop p
    let s := commonPrefix old.reverse new.reverse
    let tail := old.drop (old.length - s)
    let old := old.take (old.length - s)
    let new := new.take (new.length - s)
    let inner :=
      if old = [] ∨ new = [] then Script.some .delete old ++ Script.some .insert new
      else match middle old new with
        | some (x, y) =>
          search levels (old.take x) (new.take y) ++ search levels (old.drop x) (new.drop y)
        | none => Script.some .delete old ++ Script.some .insert new
    Script.some .keep head ++ inner ++ Script.some .keep tail

end PageFields.Diff
