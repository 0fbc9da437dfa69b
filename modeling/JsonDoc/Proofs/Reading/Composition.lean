import JsonDoc.Proofs.Reading.Recursion

/-!
# Properties that rules compose

Many properties of runs hold of values because they hold of tokens: they go from the parts of a run
to the whole, and trivia and separators do not matter to them. `Composes` lists what this takes,
and `Composes.read` is the one induction over the rules of values.
-/

namespace JsonDoc
namespace Grammar

open Run

/-- A property of runs, each with the place where it starts, that holds of the parts that values are
read in, and of runs that are put together from runs that have it. -/
structure Composes (g : Grammar) (P : Scanner → Run → Prop) : Prop where
  done (s : Scanner) : P s (done s)
  missing (s : Scanner) (expected : Expectation) : P s (missing s expected)
  unexpected {s : Scanner} {b : UInt8} (expected : Expectation) :
    s.peek = some b → P s (fail s (.unexpected s.position expected))
  andThen {s : Scanner} {run : Run} {next : Rule} :
    P s run → (run.error = none → P run.stop (next run.stop)) → P s (run.andThen next)
  skip {s : Scanner} {run : Run} : P (g.skip s) run → P s run
  separator {s : Scanner} {b : UInt8} {run : Run} :
    s.peek = some b → b = Byte.comma ∨ b = Byte.colon → P s.bump run → P s run
  opening {s : Scanner} {byte : UInt8} {kind : EventKind} (expected : Expectation) :
    s.peek = some byte → byte.toNat < 0x80 → kind.isBegin → P s (opening byte expected kind s)
  closing {byte : UInt8} {kind : EventKind} (expected : Expectation) (s : Scanner) :
    byte.toNat < 0x80 → kind.isEnd → P s (closing byte expected kind s)
  key (s : Scanner) : P s (g.key s)
  scalar {s : Scanner} (value : Rule) :
    s.peek ≠ some Byte.openBracket → s.peek ≠ some Byte.openBrace → P s (g.valueOf value s)

namespace Composes

variable {g : Grammar} {P : Scanner → Run → Prop} (composes : g.Composes P)
variable {sep : Separation} {item inner : Rule}

include composes

theorem afterItem
    {more : Rule}
    (h : ∀ s, P s (more s))
    (s : Scanner) :
    P s (g.afterItem sep more s) := by
  refine composes.skip ?_
  unfold Grammar.afterItem
  simp only
  cases peek : (g.skip s).peek with
  | none =>
      exact composes.missing _ _
  | some b =>
      simp only
      split
      · rename_i comma
        refine composes.separator peek (Or.inl comma) (composes.skip ?_)
        split
        · rename_i close
          exact composes.unexpected _ close
        · exact h _
      · split
        · exact composes.done _
        · exact composes.missing _ _

theorem items
    (h : ∀ s, P s (item s)) :
    ∀ (bound : Nat) (s : Scanner), P s (g.items sep item bound s)
  | 0, s => composes.andThen (h s) fun _ =>
      composes.afterItem (fun t => composes.missing t sep.afterItem) _
  | bound + 1, s => composes.andThen (h s) fun _ => composes.afterItem (items h bound) _

theorem itemsOrNone
    (h : ∀ s, P s (item s))
    (s : Scanner) :
    P s (g.itemsOrNone sep item s) := by
  refine composes.skip ?_
  unfold Grammar.itemsOrNone
  simp only
  split
  · exact composes.done _
  · exact composes.items h _ _

theorem member
    (h : ∀ s, P s (inner s))
    (s : Scanner) :
    P s (g.member inner s) := by
  have colon (t : Scanner) : P t (expect Byte.colon .colonAfterKey t) := by
    unfold expect
    split
    · rename_i peek
      exact composes.separator peek (Or.inr rfl) (composes.done _)
    · exact composes.missing _ _
  refine composes.andThen (composes.key s) fun _ => composes.skip ?_
  exact composes.andThen (colon _) fun _ => composes.skip (h _)

theorem container
    {brackets : Brackets} {s : Scanner}
    (peek : s.peek = some brackets.first)
    (ascii : brackets.first.toNat < 0x80 ∧ sep.close.toNat < 0x80)
    (kinds : brackets.begins.isBegin ∧ brackets.ends.isEnd)
    (h : ∀ s, P s (item s)) :
    P s (g.container brackets sep item s) := by
  refine composes.andThen (composes.opening _ peek ascii.1 kinds.1) fun _ => ?_
  exact composes.andThen (composes.itemsOrNone h _) fun _ => composes.closing _ _ ascii.2 kinds.2

theorem valueOf
    (h : ∀ s, P s (inner s))
    (s : Scanner) :
    P s (g.valueOf inner s) := by
  by_cases array : s.peek = some Byte.openBracket
  · rw [valueOf_array array, arrayOf_eq]
    exact composes.container array (by decide) (by decide) h
  by_cases object : s.peek = some Byte.openBrace
  · rw [valueOf_object object, objectOf_eq]
    exact composes.container object (by decide) (by decide) (composes.member h)
  exact composes.scalar inner array object

theorem nested :
    ∀ (levels : Nat) (s : Scanner), P s (g.nested levels s)
  | 0, s => composes.valueOf (fun t => composes.missing t .value) s
  | levels + 1, s => composes.valueOf (nested levels) s

theorem value
    (s : Scanner) :
    P s (g.value s) := composes.nested _ s

/-- What composes holds of reading a whole input. -/
theorem read
    (maxDepth : Option Nat)
    (input : List UInt8) :
    P (Scanner.start input maxDepth) (g.read maxDepth input) := by
  refine composes.skip ?_
  exact composes.andThen (composes.value _) fun _ => composes.skip (composes.done _)

end Composes

end Grammar
end JsonDoc
