import ZeroSearch.Scan

/-!
# Sessions

Several cursors on one scan, each under a name. An action moves the cursor it names and no other;
only starting, advancing and collecting evaluate the function.
-/

namespace ZeroSearch

inductive Action (ι : Type) where
  | start (id : ι)
  | advance (id : ι)
  /-- `id` becomes a cursor of its own at the position of `source`. -/
  | copy (id source : ι)
  | look (id : ι)
  | collect

inductive Reply (g : Grid) where
  | position (cursor : Cursor g)
  | brackets (found : List Bracket)
  /-- The action names a cursor that there is not. -/
  | unknown

structure Session (g : Grid) (ι : Type) where
  cursor? : ι → Option (Cursor g)
  /-- The boundaries evaluated so far, in order. -/
  visited : List Float

namespace Session

variable {g : Grid} {ι : Type} [DecidableEq ι]

def empty : Session g ι := ⟨fun _ => none, []⟩

/-- Puts the cursor of a leg under a name. -/
def place (s : Session g ι) (id : ι) (leg : Leg g) : Session g ι :=
  ⟨fun other => if other = id then some leg.cursor else s.cursor? other, s.visited ++ leg.visited⟩

def perform (f : Float → Float) (s : Session g ι) : Action ι → Reply g × Session g ι
  | .start id =>
    let leg := Cursor.start g f
    (.position leg.cursor, s.place id leg)
  | .advance id =>
    match s.cursor? id with
    | some c =>
      let leg := c.advance f
      (.position leg.cursor, s.place id leg)
    | none => (.unknown, s)
  | .copy id source =>
    match s.cursor? source with
    | some c => (.position c, s.place id ⟨[], c⟩)
    | none => (.unknown, s)
  | .look id =>
    match s.cursor? id with
    | some c => (.position c, s)
    | none => (.unknown, s)
  | .collect =>
    let pass := g.scan f
    (.brackets pass.brackets, ⟨s.cursor?, s.visited ++ pass.visited⟩)

end Session

end ZeroSearch
