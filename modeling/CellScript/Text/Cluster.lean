import CellScript.Text.BreakClass

/-!
Clusters: the user-perceived characters of a text, as the rules for extended grapheme clusters cut
them. Cutting loses nothing (`flatten_clusters`).
-/

namespace CellScript

/-- How far a binding between two characters of a kind has come. -/
inductive Binding
  /-- No character of the kind has come. -/
  | idle
  /-- One has come, and marks after it. -/
  | begun
  /-- What binds it to another one has come. -/
  | ready
deriving Repr, DecidableEq, Inhabited

/-- What is known of the characters so far: the class of the last one, whether the regional
indicators at the end are odd in number, and how far pictographs and consonants are bound. -/
structure BreakContext where
  last : BreakClass
  oddRegional : Bool
  pictograph : Binding
  conjunct : Binding
deriving Repr, DecidableEq

namespace BreakContext

/-- Before the first character. -/
def initial : BreakContext := ⟨.control, false, .idle, .idle⟩

/-- Marks leave a pictograph as it is, and a joiner after them binds it. -/
def nextPictograph (x : BreakContext) : BreakClass → Binding
  | .pictograph => .begun
  | .extend => if x.pictograph = .begun then .begun else .idle
  | .joiner => if x.pictograph = .begun then .ready else .idle
  | _ => .idle

/-- A linker binds a consonant, and other marks leave it as it is. The non-joiner is no such
mark. -/
def nextConjunct (x : BreakContext) (c : Char) : BreakClass → Binding
  | .consonant => .begun
  | .joiner => x.conjunct
  | .extend =>
    if isLinker c then if x.conjunct = .idle then .idle else .ready
    else if c = '\u200C' then .idle
    else x.conjunct
  | _ => .idle

/-- What is known after one more character. -/
def next (x : BreakContext) (c : Char) : BreakContext :=
  let k := BreakClass.ofChar c
  ⟨k, k = .regional && !x.oddRegional, x.nextPictograph k, x.nextConjunct c k⟩

/-- Whether a character belongs to the cluster of the characters before it. -/
def joins (x : BreakContext) (c : Char) : Bool :=
  let k := BreakClass.ofChar c
  if x.last = .carriageReturn ∧ k = .lineFeed then true
  else if x.last.standsAlone || k.standsAlone then false
  else
    k.attaches || x.last = .leading || BreakClass.inSyllable x.last k ||
      (k = .consonant && x.conjunct = .ready) ||
      (k = .pictograph && x.pictograph = .ready) ||
      (k = .regional && x.oddRegional)

end BreakContext

/-- Cuts the characters behind a cluster that has been begun. -/
def clustersFrom (x : BreakContext) (begun : List Char) : List Char → List (List Char)
  | [] => [begun.reverse]
  | c :: rest =>
    if x.joins c then clustersFrom (x.next c) (c :: begun) rest
    else begun.reverse :: clustersFrom (x.next c) [c] rest

/-- The clusters of a text. -/
def clusters : List Char → List (List Char)
  | [] => []
  | c :: rest => clustersFrom (BreakContext.initial.next c) [c] rest

theorem flatten_clustersFrom (x : BreakContext) (begun cs : List Char) :
    (clustersFrom x begun cs).flatten = begun.reverse ++ cs := by
  induction cs generalizing x begun with
  | nil => simp [clustersFrom]
  | cons c rest ih =>
    rw [clustersFrom]
    split <;> simp [ih]

/-- No character is lost, and none changes its place. -/
@[simp] theorem flatten_clusters (cs : List Char) : (clusters cs).flatten = cs := by
  cases cs with
  | nil => rfl
  | cons c rest => simp [clusters, flatten_clustersFrom]

end CellScript
