import Linearization.Config
import Linearization.Toml.Document

/-!
# Configuration documents

A configuration is read from a TOML document whose keys are the settings. Missing keys keep their
defaults and unknown keys are ignored. A time limit may be given as an integer. A backend is given
by its name, or as the only key of a table, whose value has to be empty.
-/

namespace Linearization

namespace Toml.Node

/-- An integer from zero up to a largest one. -/
def natUpTo? (greatest : Nat) : Node → Option Nat
  | .integer v => if 0 ≤ v ∧ v ≤ greatest then some v.toNat else none
  | _ => none

def boolean? : Node → Option Bool
  | .boolean b => some b
  | _ => none

/-- A float, or the double of an integer. -/
def float? : Node → Option Float
  | .float x => some x
  | .integer v => some (Float.ofInt v)
  | _ => none

/-- An array or a table without content. -/
def isEmpty : Node → Bool
  | .array [] | .table _ [] => true
  | _ => false

/-- The name of a choice: a string, or the only key of a table if its value is empty. -/
def choice? : Node → Option String
  | .string s => some s
  | .table _ [(key, n)] => if n.isEmpty then some key else none
  | _ => none

end Toml.Node

namespace Config

/-- The value of a key, or the default if the key is missing. -/
def setting {α : Type} (entries : Toml.Entries) (key : String) (read : Toml.Node → Option α)
    (default : α) : Option α :=
  match entries.find? key with
  | none => some default
  | some n => read n

/-- The configuration that the entries of a document give. -/
def ofEntries? (entries : Toml.Entries) : Option Config := do
  let c : Config := {}
  return {
    backend := ← setting entries "backend" (fun n => do Backend.ofKey? (← n.choice?)) c.backend
    workers := ← setting entries "num_workers" (Toml.Node.natUpTo? 4294967295) c.workers
    timeLimit := ← setting entries "time_limit" (fun n => n.float?.map some) c.timeLimit
    maxDecompositionDepth := ← setting entries "max_decomposition_depth"
      (Toml.Node.natUpTo? 18446744073709551615) c.maxDecompositionDepth
    maxDomainEnumeration := ← setting entries "max_domain_enumeration"
      (Toml.Node.natUpTo? 18446744073709551615) c.maxDomainEnumeration
    verbose := ← setting entries "verbose" Toml.Node.boolean? c.verbose }

/-- The configuration in a document, which has to be usable. -/
def ofToml (text : String) : Except ConfigError Config := do
  match (Toml.parse text).bind ofEntries? with
  | none => throw .unreadable
  | some c =>
    c.check
    return c

end Config

end Linearization
