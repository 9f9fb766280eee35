import Linearization.Translation.Error
import Linearization.Translation.Layout

/-!
# Drafts

The state of a translation: the program so far and the layout of its variables. It also counts how
deep the decompositions are nested at the moment and how deep they have been, and keeps a log of
them.
-/

namespace Linearization

/-- A translation under way. -/
structure Draft where
  program : Ilp
  layout : Layout := {}
  /-- How many decompositions the current expression is nested in. -/
  depth : Nat := 0
  /-- The largest depth so far. -/
  deepest : Nat := 0
  /-- The globals that were decomposed, the newest first. -/
  decomposed : List Global := []

/-- A step of a translation; what it changed before failing stays. -/
abbrev Translate := EStateM TranslationError Draft

namespace Draft

/-- The draft that has done nothing yet. -/
def start (enumerationLimit : Nat) : Draft := { program := .empty enumerationLimit }

/-- The draft with one more decomposition in its log. -/
def logged (t : Draft) (g : Global) : Draft := { t with decomposed := g :: t.decomposed }

end Draft

namespace Translate

/-- Extend the program for an expression, to which a failure is attributed. -/
def build {α : Type} (e : Expr) (action : Lowering α) : Translate α := fun t =>
  match action t.program with
  | .ok a program => .ok a { t with program }
  | .error error program => .error (.ofLowering e error) { t with program }

/-- The image of a variable; a variable that has none yet gets a column. -/
def register (v : Var) : Translate Image := do
  let t ← get
  match t.layout.get? v with
  | some image => return image
  | none =>
    let image := v.imageAt t.program.columns.size
    set { t with
      program := t.program.withColumn v.toColumn
      layout := t.layout.insert v image }
    return image

/-- Register variables one after the other. -/
def registerAll (vs : List Var) : Translate Unit := vs.forM fun v => discard (register v)

/-- The image of a variable that has to be registered. -/
def imageOf (v : Var) : Translate Image := do
  match (← get).layout.get? v with
  | some image => return image
  | none => throw (.unregistered v.name)

/-- Run a step one level of decomposition deeper. The level is left again when the step fails. -/
def nested {α : Type} (action : Translate α) : Translate α := fun t =>
  let below := { t with depth := t.depth + 1, deepest := max t.deepest (t.depth + 1) }
  match action below with
  | .ok a t' => .ok a { t' with depth := t'.depth - 1 }
  | .error error t' => .error error { t' with depth := t'.depth - 1 }

end Translate

end Linearization
