/-
# The order of compilation

A validator's hash is known once it is compiled, so a validator has to be compiled after all
others whose hashes it embeds.

The order is found by walking from every validator to the ones that depend on it, in the order of
names, and putting each in front of those that were walked through from it before
(`Walk.visit`).  A walk that has gone through everything has found an order if there is one
(`inOrder` says what that means), and there is none exactly if some validators depend on
themselves by way of others.  Those are then named.  They are found by way of components, sets of
validators that lead to each other: whoever is not alone in its component depends on itself
(`cycleMembers`).

All that is between validators of the set.  A dependency on another one leads nowhere, and
`strayDependency?` finds it before there is a walk.
-/
import ScriptBundle.Build.ValidatorSet

namespace ScriptBundle.ValidatorSet

/-! ## 1. Dependents -/

/-- The validators that embed the hash of another, once for each time that they list it. -/
def dependents (s : ValidatorSet) (name : String) : List String :=
  s.validators.entries.flatMap fun (n, v) =>
    ((v.externalDependencies n).filter (· = name)).map fun _ => n

/-- The first validator that depends on one that is not in the set, and the first such that it
depends on. -/
def strayDependency? (s : ValidatorSet) : Option (String × String) :=
  s.validators.entries.findSome? fun (n, v) =>
    ((v.externalDependencies n).find? fun d => !s.validators.contains d).map (n, ·)

/-! ## 2. Walking -/

/-- How far a walk has come. -/
structure Walk where
  /-- What it has come to. -/
  seen : List String
  /-- What it is through with, the latest in front. -/
  done : List String

namespace Walk

def start : Walk := ⟨[], []⟩

/-- Walks through a validator that the walk has not come to yet, and through what it leads to.
`fuel` bounds how far it leads, which is never further than there are validators. -/
def visit (s : ValidatorSet) : (fuel : Nat) → Walk → String → Walk
  | 0, w, _ => w
  | fuel + 1, w, name =>
    if w.seen.contains name then w
    else
      let w := (s.dependents name).foldl (visit s fuel) { w with seen := name :: w.seen }
      { w with done := name :: w.done }

/-- Walks through several validators. -/
def visitAll (s : ValidatorSet) (names : List String) : Walk :=
  names.foldl (visit s (s.size + 1)) start

end Walk

/-! ## 3. Orders and cycles -/

/-- Whether each of some validators comes after its dependencies, of which `before` come before
all of them. -/
def inOrder (s : ValidatorSet) (before : List String) : List String → Bool
  | [] => true
  | name :: rest =>
    (match s.validators.get? name with
      | some v => (v.externalDependencies name).all before.contains
      | none => false)
    && inOrder s (name :: before) rest

/-- Whether a validator is another one or leads to it by way of dependents. -/
def leadsTo (s : ValidatorSet) (name other : String) : Bool :=
  (Walk.visitAll s [name]).seen.contains other

/-- The component of a validator: all that it leads to and that lead to it. -/
def component (s : ValidatorSet) (name : String) : List String :=
  s.validators.names.filter fun other => s.leadsTo name other && s.leadsTo other name

/-- The components, each where its first validator stands. -/
def components (s : ValidatorSet) : List (List String) :=
  (s.validators.names.filter fun name => (s.component name).head? = some name).map s.component

/-- The names of the validators in components of more than one, in order. -/
def cycleMembers (s : ValidatorSet) : List String :=
  (s.components.filter fun names => 1 < names.length).flatten.mergeSort (· ≤ ·)

/-- The names of the validators in an order of compilation, or else of those that depend on
themselves by way of others. -/
def hashOrder (s : ValidatorSet) : Except (List String) (List String) :=
  let order := (Walk.visitAll s s.validators.names).done
  if s.inOrder [] order then .ok order
  else .error s.cycleMembers

end ScriptBundle.ValidatorSet
