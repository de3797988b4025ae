import EntitySql.Walk.Node

/-!
# The place of a walk

Where a walk stands: the nodes from the one it visits up to the root, and the facts of the queries
whose parts are being walked.
-/

namespace EntitySql

/-- A node on the way to the root. -/
structure Frame where
  kind : NodeKind
  /-- The part of its parent that holds it. -/
  slot : String
  index : Nat
  /-- The kinds of all nodes in that part, as they were before it was walked. -/
  siblings : List NodeKind
  deriving DecidableEq, Repr, Inhabited

/-- A query whose parts are being walked. -/
structure Scope where
  facts : Facts
  /-- Whether it sees no sources of the queries around it. -/
  isolated : Bool
  deriving DecidableEq, Repr, Inhabited

/-- Frames and scopes, the innermost first. -/
structure Context where
  frames : List Frame := []
  scopes : List Scope := []
  deriving DecidableEq, Repr, Inhabited

namespace Context

variable (c : Context)

/-- The place of a child. -/
def child (slot : String) (index : Nat) (siblings : List NodeKind) (kind : NodeKind) : Context :=
  { c with frames := ⟨kind, slot, index, siblings⟩ :: c.frames }

/-- The place with another node in it. -/
def withKind (kind : NodeKind) : Context :=
  match c.frames with
  | f :: fs => { c with frames := { f with kind, siblings := f.siblings.set f.index kind } :: fs }
  | [] => c

/-- The place inside a query. -/
def inside (facts : Facts) (isolated : Bool) : Context :=
  { c with scopes := ⟨facts, isolated⟩ :: c.scopes }

/-- The place with other facts of the query whose parts are being walked. -/
def mapFacts (note : Facts → Facts) : Context :=
  { c with scopes := c.scopes.modifyHead fun s => { s with facts := note s.facts } }

/-- The place with other facts of the outermost query. -/
def mapRootFacts (note : Facts → Facts) : Context :=
  { c with scopes := c.scopes.modify (c.scopes.length - 1) fun s => { s with facts := note s.facts } }

/-- Whether no node and no query is being walked. -/
def isBalanced : Bool := c.frames.isEmpty && c.scopes.isEmpty

def kind? : Option NodeKind := c.frames.head?.map (·.kind)

def slot? : Option String := c.frames.head?.map (·.slot)

/-- The number of nodes above. -/
def depth : Nat := c.frames.length - 1

def root? : Option NodeKind := c.frames.getLast?.map (·.kind)

def parent? : Option NodeKind := c.frames[1]?.map (·.kind)

def previousSibling? : Option NodeKind :=
  match c.frames with
  | f :: _ => if f.index = 0 then none else f.siblings[f.index - 1]?
  | [] => none

def nextSibling? : Option NodeKind :=
  match c.frames with
  | f :: _ => f.siblings[f.index + 1]?
  | [] => none

/-- The part of the innermost query above in which the place lies. -/
def querySlot? : Option String := go c.frames
where
  go : List Frame → Option String
    | f :: g :: fs => if g.kind.isQuery then some f.slot else go (g :: fs)
    | _ => none

/-- The nodes above that are of one of the kinds, the innermost first. -/
def ancestors (kinds : List NodeKind) : List NodeKind :=
  (c.frames.tail.map (·.kind)).filter fun k => kinds.contains k

def nearest? (kinds : List NodeKind) : Option NodeKind := (c.ancestors kinds).head?

/-- The queries whose sources may be named, out to the first that is isolated. -/
def visible : List Facts := go c.scopes
where
  go : List Scope → List Facts
    | [] => []
    | s :: ss => s.facts :: if s.isolated then [] else go ss

/-- The facts of the query whose parts are being walked. -/
def facts? : Option Facts := c.scopes.head?.map (·.facts)

/-- The known values of the nearest query that has any. -/
def literals? : Option Bindings := c.scopes.findSome? fun s => s.facts.literals

end Context

end EntitySql
