import Monkey.Eval
import Monkey.Parser

/-!
# Sessions

Source texts run one after another in a scope that they share.

A text with parse errors is not run at all, so it leaves every scope as it
was. Any other text is evaluated, and what it binds is seen by the texts
behind it. An error ends the text it occurs in and not the session: what was
bound before it stays bound.

Each run has a journal of its own. What a report says was printed, was
printed by that run, whatever ran before.

## Main definitions

* `Report`: What a program did: its value, its output and its events.
* `Store.withRoot`: A store to start from.
* `Store.run`: A program run in a scope.
* `Response`, `Store.interpret`: What became of a source text.
-/

namespace Monkey

/-- What a program did. -/
structure Report where
  /-- Its value, if it has statements. -/
  result : Option Value
  /-- What it printed. -/
  output : String
  /-- What happened, in order. -/
  events : List Event

/-- What became of a source text. -/
inductive Response where
  /-- It was not run, because of these errors. -/
  | rejected (errors : List ParseError)
  /-- It was run. -/
  | ran (report : Report)

namespace Store

/-- A store with one scope and nothing in it, and the number of the scope. -/
def withRoot : ScopeId × Store :=
  empty.addScope none

/-- Runs a program in a scope, with a journal of its own. There is no report
    if its calls nest deeper than the limit. -/
def run (limit : Nat) (scope : ScopeId) (program : Block) (store : Store) :
    Option (Report × Store) := do
  let (result, after) ← (Program.eval limit scope program).run store.clearJournal
  -- The journal was written with the latest entry first.
  return (⟨result, after.output, after.journal.reverse⟩, after)

/-- Runs a source text in a scope, if it can be parsed. -/
def interpret (limit : Nat) (scope : ScopeId) (source : String) (store : Store) :
    Option (Response × Store) :=
  match parseStrict source with
  | .error errors => some (.rejected errors, store)
  | .ok program => do
    let (report, after) ← store.run limit scope program
    return (.ran report, after)

end Store

end Monkey
